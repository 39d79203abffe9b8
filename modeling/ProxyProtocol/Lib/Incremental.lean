import Mathlib.Data.List.TakeDrop
import Mathlib.Tactic.Common

/-! # Feeding an incremental decoder

A reader collects input in a buffer and asks a decoder about the whole buffer
after every read, until the decoder has a verdict, the buffer reaches a limit
or the input dries up. How the input is cut into reads is not the reader's
choice, so the question is what the cuts can change.

* `Stable`: input behind a decided buffer does not change the verdict.
* `feed_spec`: nothing is lost or reordered, whatever the end.
* `feed_decides`: with a stable decoder whose first verdict falls inside the
  limit, every cut gives that verdict.
* `length_lt_of_decided`: the buffer overshoots the limit by less than one
  read.
* `feedSteps_ends`, `length_feedSteps_lt`: with a decoder that asks for more
  only on short buffers, the loop ends and its buffer stays small on every
  input, endless ones included.
-/

namespace Wire

variable {σ α β : Type}

/-- Where input comes from: what is still to come in a state, and the next
read, if there is one. Reads take a nonempty piece off the front. -/
structure Source (σ α : Type) where
  pending : σ → List α
  read : σ → Option (List α × σ)
  read_pending : ∀ {s c s'}, read s = some (c, s') → pending s = c ++ pending s'
  read_nonempty : ∀ {s c s'}, read s = some (c, s') → c ≠ []

/-- Input behind a decided buffer does not change the verdict; `none` asks
for more input. -/
def Stable (verdict : List α → Option β) : Prop :=
  ∀ buf extra r, verdict buf = some r → verdict (buf ++ extra) = some r

/-- How feeding ends: with a verdict, at the limit, or out of input. The
buffer and the source state are the ones at the end. -/
inductive Feed (σ α β : Type) where
  | decided (r : β) (buf : List α) (s : σ)
  | overflow (buf : List α) (s : σ)
  | starved (buf : List α) (s : σ)

theorem Source.length_lt {src : Source σ α} {s s' : σ} {c : List α}
    (h : src.read s = some (c, s')) : (src.pending s').length < (src.pending s).length := by
  have hne := List.length_pos_iff.mpr (src.read_nonempty h)
  rw [src.read_pending h, List.length_append]
  omega

/-- Read, ask, and go on while the decoder wants more and the buffer is below
the limit. -/
def feed (src : Source σ α) (verdict : List α → Option β) (limit : ℕ)
    (buf : List α) (s : σ) : Feed σ α β :=
  match _h : src.read s with
  | none => .starved buf s
  | some (c, s') =>
      match verdict (buf ++ c) with
      | some r => .decided r (buf ++ c) s'
      | none =>
          if (buf ++ c).length < limit then feed src verdict limit (buf ++ c) s'
          else .overflow (buf ++ c) s'
termination_by (src.pending s).length
decreasing_by exact Source.length_lt _h

section Equations

variable {src : Source σ α} {verdict : List α → Option β} {limit : ℕ}
  {buf c : List α} {s s' : σ}

theorem feed_starved (h : src.read s = none) :
    feed src verdict limit buf s = .starved buf s := by
  rw [feed]
  split
  · rfl
  · rename_i h'
    rw [h] at h'
    cases h'

/-- One iteration. -/
theorem feed_read (h : src.read s = some (c, s')) :
    feed src verdict limit buf s =
      match verdict (buf ++ c) with
      | some r => .decided r (buf ++ c) s'
      | none =>
          if (buf ++ c).length < limit then feed src verdict limit (buf ++ c) s'
          else .overflow (buf ++ c) s' := by
  conv_lhs => rw [feed]
  split
  · rename_i h'
    rw [h] at h'
    cases h'
  · rename_i c' t h'
    rw [h] at h'
    cases h'
    rfl

theorem feed_more (h : src.read s = some (c, s')) (hv : verdict (buf ++ c) = none)
    (hlt : (buf ++ c).length < limit) :
    feed src verdict limit buf s = feed src verdict limit (buf ++ c) s' := by
  rw [feed_read h, hv]
  simp only [if_pos hlt]

end Equations

/-- An induction principle that follows the loop: the source state shrinks. -/
theorem Source.induction (src : Source σ α) {motive : σ → Prop}
    (h : ∀ s, (∀ c s', src.read s = some (c, s') → motive s') → motive s) (s : σ) : motive s := by
  induction hn : (src.pending s).length using Nat.strongRecOn generalizing s with
  | ind n ih =>
      apply h
      intro c s' hread
      exact ih _ (hn ▸ Source.length_lt hread) s' rfl

/-- Nothing is lost, duplicated or reordered: at the end, the buffer and what
is still to come are what there was at the start. The buffer got the verdict
that ended the loop; a starved loop stands in a state that cannot be read. -/
theorem feed_spec (src : Source σ α) (verdict : List α → Option β) (limit : ℕ) (s : σ) :
    ∀ buf : List α,
      match feed src verdict limit buf s with
      | .decided r buf' s' =>
          buf' ++ src.pending s' = buf ++ src.pending s ∧ verdict buf' = some r
      | .overflow buf' s' =>
          buf' ++ src.pending s' = buf ++ src.pending s ∧ verdict buf' = none ∧
            limit ≤ buf'.length
      | .starved buf' s' =>
          buf' ++ src.pending s' = buf ++ src.pending s ∧ src.read s' = none := by
  induction s using src.induction with
  | h s ih =>
      intro buf
      cases hread : src.read s with
      | none =>
          rw [feed_starved hread]
          exact ⟨rfl, hread⟩
      | some p =>
          obtain ⟨c, s'⟩ := p
          have hcons : (buf ++ c) ++ src.pending s' = buf ++ src.pending s := by
            rw [src.read_pending hread, List.append_assoc]
          rw [feed_read hread]
          cases hv : verdict (buf ++ c) with
          | some r => exact ⟨hcons, hv⟩
          | none =>
              by_cases hlt : (buf ++ c).length < limit
              · -- the next iteration starts with the same bytes in total
                have hrec := ih c s' hread (buf ++ c)
                simp only [if_pos hlt]
                rw [hcons] at hrec
                exact hrec
              · simp only [if_neg hlt]
                exact ⟨hcons, hv, Nat.not_lt.mp hlt⟩

/-- What every read on a buffer without a verdict keeps holds when there is
one. -/
theorem feed_keeps {src : Source σ α} {verdict : List α → Option β} {limit : ℕ}
    {P : List α → σ → Prop}
    (hread : ∀ {buf s c s'}, P buf s → verdict buf = none → src.read s = some (c, s') →
      P (buf ++ c) s') {r : β} {buf' : List α} {s' : σ} (s : σ) :
    ∀ buf, P buf s → verdict buf = none →
      feed src verdict limit buf s = .decided r buf' s' → P buf' s' := by
  induction s using src.induction with
  | h s ih =>
      intro buf hP hnone h
      cases hs : src.read s with
      | none =>
          rw [feed_starved hs] at h
          cases h
      | some q =>
          rcases q with ⟨c, t⟩
          have hnext := hread hP hnone hs
          rw [feed_read hs] at h
          cases hv : verdict (buf ++ c) with
          | some r' =>
              rw [hv] at h
              cases h
              exact hnext
          | none =>
              simp only [hv] at h
              by_cases hlen : (buf ++ c).length < limit
              · rw [if_pos hlen] at h
                exact ih c t hs (buf ++ c) hnext hv h
              · rw [if_neg hlen] at h
                cases h

/-! ## What the cuts cannot change -/

section Cuts

variable {src : Source σ α} {verdict : List α → Option β} {limit : ℕ}

/-- States from which some number of items can be read: as long as there are
items to be had, there is a read, and it leaves the rest of them. -/
structure Flows (src : Source σ α) (live : ℕ → σ → Prop) : Prop where
  read : ∀ {n s}, live n s → 0 < n → ∃ c s', src.read s = some (c, s') ∧ live (n - c.length) s'

/-- The decoder's first verdict on the input falls at length `p`. -/
structure FirstVerdict (verdict : List α → Option β) (input : List α) (p : ℕ) (r : β) : Prop where
  le : p ≤ input.length
  undecided : ∀ q < p, verdict (input.take q) = none
  decides : verdict (input.take p) = some r

theorem FirstVerdict.of_le {input buf rest : List α} {p : ℕ} {r : β} (hstable : Stable verdict)
    (h : FirstVerdict verdict input p r) (hin : buf ++ rest = input) (hp : p ≤ buf.length) :
    verdict buf = some r := by
  have hbuf : buf = input.take p ++ buf.drop p := by
    rw [← hin, List.take_append_of_le_length hp, List.take_append_drop]
  rw [hbuf]
  exact hstable _ _ _ h.decides

theorem FirstVerdict.of_lt {input buf rest : List α} {p : ℕ} {r : β}
    (h : FirstVerdict verdict input p r) (hin : buf ++ rest = input) (hp : buf.length < p) :
    verdict buf = none := by
  have := h.undecided _ hp
  rwa [← hin, List.take_left] at this

/-- When the first verdict falls inside the limit, and the input it takes can
be read, every way to cut the input ends in that verdict. -/
theorem feed_decides {live : ℕ → σ → Prop} (hflows : Flows src live) (hstable : Stable verdict)
    {input : List α} {p : ℕ} {r : β} (hfirst : FirstVerdict verdict input p r)
    (hlimit : p ≤ limit) (s : σ) :
    ∀ buf : List α, live (p - buf.length) s → buf ++ src.pending s = input → buf.length < p →
      ∃ buf' s', feed src verdict limit buf s = .decided r buf' s' := by
  induction s using src.induction with
  | h s ih =>
      intro buf hlive hin hlt
      obtain ⟨c, s', hread, hlive'⟩ := hflows.read hlive (Nat.sub_pos_of_lt hlt)
      have hin' : (buf ++ c) ++ src.pending s' = input := by
        rw [← hin, src.read_pending hread, List.append_assoc]
      by_cases hp : p ≤ (buf ++ c).length
      · -- the read crosses `p`, and stability carries the verdict over
        refine ⟨buf ++ c, s', ?_⟩
        rw [feed_read hread, hfirst.of_le hstable hin' hp]
      · -- still short of `p`, hence of the limit
        have hshort := Nat.not_le.mp hp
        rw [feed_more hread (hfirst.of_lt hin' hshort) (by omega)]
        refine ih c s' hread (buf ++ c) ?_ hin' hshort
        rw [List.length_append, ← Nat.sub_sub]
        exact hlive'

end Cuts

/-- Reads of at most `chunk` overshoot the limit by less than one of them. -/
theorem length_lt_of_decided {src : Source σ α} {verdict : List α → Option β} {limit chunk : ℕ}
    (hchunk : ∀ {s c s'}, src.read s = some (c, s') → c.length ≤ chunk) {r : β} {buf' : List α}
    {s' : σ} (s : σ) :
    ∀ buf : List α, buf.length < max limit 1 →
      feed src verdict limit buf s = .decided r buf' s' → buf'.length < max limit 1 + chunk := by
  induction s using src.induction with
  | h s ih =>
      intro buf hlt h
      cases hread : src.read s with
      | none =>
          rw [feed_starved hread] at h
          cases h
      | some q =>
          obtain ⟨c, t⟩ := q
          have hc := hchunk hread
          rw [feed_read hread] at h
          cases hv : verdict (buf ++ c) with
          | some r' =>
              -- the buffer was below the limit when this read was made
              rw [hv] at h
              cases h
              rw [List.length_append]
              omega
          | none =>
              simp only [hv] at h
              by_cases hlen : (buf ++ c).length < limit
              · rw [if_pos hlen] at h
                exact ih c t hread (buf ++ c) (by omega) h
              · rw [if_neg hlen] at h
                cases h

/-! ## Step by step

The same loop without the assumption that the input ends: `feedSteps` says
where it stands after so many iterations. -/

/-- The loop after some iterations: under way, or at its end. -/
inductive Progress (σ α β : Type) where
  | running (buf : List α) (s : σ)
  | ended (result : Feed σ α β)

def Feed.buf : Feed σ α β → List α
  | decided _ buf _ => buf
  | overflow buf _ => buf
  | starved buf _ => buf

def Progress.buf : Progress σ α β → List α
  | running buf _ => buf
  | ended result => result.buf

section Steps

variable (read : σ → Option (List α × σ)) (verdict : List α → Option β) (limit : ℕ)

/-- One iteration. -/
def feedStep (buf : List α) (s : σ) : Progress σ α β :=
  match read s with
  | none => .ended (.starved buf s)
  | some (c, s') =>
      match verdict (buf ++ c) with
      | some r => .ended (.decided r (buf ++ c) s')
      | none =>
          if (buf ++ c).length < limit then .running (buf ++ c) s'
          else .ended (.overflow (buf ++ c) s')

/-- At most `n` iterations. -/
def feedSteps : ℕ → List α → σ → Progress σ α β
  | 0, buf, s => .running buf s
  | n + 1, buf, s =>
      match feedStep read verdict limit buf s with
      | .running buf s => feedSteps n buf s
      | .ended result => .ended result

end Steps

section StepEquations

variable {read : σ → Option (List α × σ)} {verdict : List α → Option β} {limit : ℕ}
  {buf c : List α} {s s' : σ}

theorem feedStep_starved (h : read s = none) :
    feedStep read verdict limit buf s = .ended (.starved buf s) := by
  rw [feedStep, h]

theorem feedStep_read (h : read s = some (c, s')) :
    feedStep read verdict limit buf s =
      match verdict (buf ++ c) with
      | some r => .ended (.decided r (buf ++ c) s')
      | none =>
          if (buf ++ c).length < limit then .running (buf ++ c) s'
          else .ended (.overflow (buf ++ c) s') := by
  rw [feedStep, h]

theorem feedSteps_ended (n : ℕ) {r : Feed σ α β}
    (h : feedStep read verdict limit buf s = .ended r) :
    feedSteps read verdict limit (n + 1) buf s = .ended r := by
  rw [feedSteps, h]

theorem feedSteps_running (n : ℕ) {buf' : List α}
    (h : feedStep read verdict limit buf s = .running buf' s') :
    feedSteps read verdict limit (n + 1) buf s = feedSteps read verdict limit n buf' s' := by
  rw [feedSteps, h]

end StepEquations

/-- Input that ends is dealt with in as many iterations as it has elements,
and one to see the end. -/
theorem feedSteps_eq_feed (src : Source σ α) (verdict : List α → Option β) (limit : ℕ) (n : ℕ) :
    ∀ (buf : List α) (s : σ), (src.pending s).length < n →
      feedSteps src.read verdict limit n buf s = .ended (feed src verdict limit buf s) := by
  induction n with
  | zero => exact fun _ _ h => absurd h (Nat.not_lt_zero _)
  | succ n ih =>
      intro buf s hlen
      cases hread : src.read s with
      | none => rw [feedSteps_ended n (feedStep_starved hread), feed_starved hread]
      | some p =>
          obtain ⟨c, s'⟩ := p
          -- what is left to read pays for the iterations
          have hshorter := Source.length_lt hread
          have hstep : feedStep src.read verdict limit buf s = _ := feedStep_read hread
          rw [feed_read hread]
          cases hv : verdict (buf ++ c) with
          | some r =>
              rw [hv] at hstep
              exact feedSteps_ended n hstep
          | none =>
              rw [hv] at hstep
              by_cases hlt : (buf ++ c).length < limit
              · simp only [if_pos hlt] at hstep ⊢
                rw [feedSteps_running n hstep]
                exact ih (buf ++ c) s' (by omega)
              · simp only [if_neg hlt] at hstep ⊢
                exact feedSteps_ended n hstep

/-! ### A bound for every input

When the decoder asks for more only on buffers shorter than `cap`, no input
keeps the loop going: every read makes the buffer longer. -/

section Bound

variable {read : σ → Option (List α × σ)} {verdict : List α → Option β} {limit cap chunk : ℕ}
  {live : List α → Prop}

/-- What the bound rests on: the reads are not empty and not longer than
`chunk`, and on live buffers the decoder asks for more only below `cap`. -/
structure Bounds (read : σ → Option (List α × σ)) (verdict : List α → Option β)
    (live : List α → Prop) (cap chunk : ℕ) : Prop where
  nonempty : ∀ {s c s'}, read s = some (c, s') → c ≠ []
  length_le : ∀ {s c s'}, read s = some (c, s') → c.length ≤ chunk
  append : ∀ {buf} (c), live buf → live (buf ++ c)
  asks : ∀ {buf}, live buf → verdict buf = none → buf.length < cap

/-- One iteration ends the loop, or makes the buffer longer and keeps it below
both bounds. -/
theorem feedStep_bounded (h : Bounds read verdict live cap chunk) {buf : List α} {s : σ}
    (hlive : ∀ c s', read s = some (c, s') → live (buf ++ c))
    (hlt : buf.length < min limit cap) :
    (∃ r, feedStep read verdict limit buf s = .ended r ∧ r.buf.length < min limit cap + chunk) ∨
      ∃ buf' s', feedStep read verdict limit buf s = .running buf' s' ∧ live buf' ∧
        buf.length < buf'.length ∧ buf'.length < min limit cap := by
  cases hread : read s with
  | none =>
      exact .inl ⟨_, feedStep_starved hread, Nat.lt_of_lt_of_le hlt (Nat.le_add_right _ _)⟩
  | some p =>
      obtain ⟨c, s'⟩ := p
      have hpos := List.length_pos_iff.mpr (h.nonempty hread)
      have hchunk := h.length_le hread
      have hlong : (buf ++ c).length < min limit cap + chunk := by
        rw [List.length_append]
        omega
      rw [feedStep_read hread]
      cases hv : verdict (buf ++ c) with
      | some r => exact .inl ⟨_, rfl, hlong⟩
      | none =>
          have hcap := h.asks (hlive c s' hread) hv
          by_cases hlimit : (buf ++ c).length < limit
          · refine .inr ⟨_, _, if_pos hlimit, hlive c s' hread, ?_, Nat.lt_min.mpr ⟨hlimit, hcap⟩⟩
            rw [List.length_append]
            omega
          · exact .inl ⟨_, if_neg hlimit, hlong⟩

/-- The loop ends, after at most as many iterations as the buffer may still
grow by. -/
theorem feedSteps_ends (h : Bounds read verdict live cap chunk) (k : ℕ) :
    ∀ (buf : List α) (s : σ), (∀ c s', read s = some (c, s') → live (buf ++ c)) →
      buf.length < min limit cap → min limit cap ≤ buf.length + k →
      ∃ r, ∀ n, k ≤ n → feedSteps read verdict limit n buf s = .ended r := by
  induction k with
  | zero =>
      intro buf s _ hlt hle
      omega
  | succ k ih =>
      intro buf s hlive hlt hle
      rcases feedStep_bounded h hlive hlt with ⟨r, hr, -⟩ | ⟨buf', s', hrun, hlive', hgrows, hlt'⟩
      · refine ⟨r, fun n hn => ?_⟩
        obtain ⟨m, rfl⟩ := Nat.exists_eq_add_of_le' hn
        exact feedSteps_ended (m + k) hr
      · obtain ⟨r, hr⟩ := ih buf' s' (fun c _ _ => h.append c hlive') hlt' (by omega)
        refine ⟨r, fun n hn => ?_⟩
        obtain ⟨m, rfl⟩ := Nat.exists_eq_add_of_le' hn
        exact (feedSteps_running (m + k) hrun).trans (hr (m + k) (Nat.le_add_left _ _))

/-- At no time is the buffer longer than the bound by a whole read. -/
theorem length_feedSteps_lt (h : Bounds read verdict live cap chunk) (n : ℕ) :
    ∀ (buf : List α) (s : σ), (∀ c s', read s = some (c, s') → live (buf ++ c)) →
      buf.length < min limit cap →
      (feedSteps read verdict limit n buf s).buf.length < min limit cap + chunk := by
  induction n with
  | zero =>
      intro buf s _ hlt
      exact Nat.lt_of_lt_of_le hlt (Nat.le_add_right _ _)
  | succ n ih =>
      intro buf s hlive hlt
      rcases feedStep_bounded h hlive hlt with ⟨r, hr, hlen⟩ | ⟨buf', s', hrun, hlive', -, hlt'⟩
      · rw [feedSteps_ended n hr]
        exact hlen
      · rw [feedSteps_running n hrun]
        exact ih buf' s' (fun c _ _ => h.append c hlive') hlt'

end Bound

end Wire
