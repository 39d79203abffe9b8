import ProxyProtocol.Lib.Outcome

/-! # Writing through short writes

A writer takes a part of what it is offered, and the caller offers the rest
again until nothing is left or the writer fails.

* `writeAll_spec`: all of the input arrives, or a proper part of it and an
  error; nothing is repeated, left out or reordered.
-/

namespace Wire

variable {σ α ε : Type}

/-- Where output goes: what was taken so far in a state, and a write, which
takes some elements off the front of what it is offered, or fails and takes
none. -/
structure Sink (σ α ε : Type) where
  taken : σ → List α
  write : σ → List α → Except ε ℕ × σ
  write_ok : ∀ {s buf n s'}, write s buf = (.ok n, s') →
    n ≤ buf.length ∧ taken s' = taken s ++ buf.take n
  write_error : ∀ {s buf e s'}, write s buf = (.error e, s') → taken s' = taken s

/-- Write until nothing is left. A write of no elements is the error `zero`.
One unit of fuel is one write. -/
def writeAll (snk : Sink σ α ε) (zero : ε) : ℕ → σ → List α → Outcome ε Unit × σ
  | 0, s, _ => (.diverge, s)
  | fuel + 1, s, buf =>
      if buf.isEmpty then (.ok (), s)
      else
        match snk.write s buf with
        | (.error e, s) => (.err e, s)
        | (.ok n, s) =>
            -- the split at `n`
            if n ≤ buf.length then
              if n = 0 then (.err zero, s) else writeAll snk zero fuel s (buf.drop n)
            else (.panic, s)

/-- How much of the input has arrived: all of it after a success, and less
after an error. -/
inductive Arrived (snk : Sink σ α ε) (s : σ) (buf : List α) : Outcome ε Unit × σ → Prop where
  | all {s' : σ} (taken : snk.taken s' = snk.taken s ++ buf) : Arrived snk s buf (.ok (), s')
  | part {e : ε} {s' : σ} (k : ℕ) (less : k < buf.length)
      (taken : snk.taken s' = snk.taken s ++ buf.take k) : Arrived snk s buf (.err e, s')

/-- What a write leaves, and what arrives of it later, are one input. -/
theorem Arrived.after {snk : Sink σ α ε} {s s₁ : σ} {buf : List α} {n : ℕ} (hn : n ≤ buf.length)
    (hs₁ : snk.taken s₁ = snk.taken s ++ buf.take n) {r : Outcome ε Unit × σ}
    (h : Arrived snk s₁ (buf.drop n) r) : Arrived snk s buf r := by
  cases h with
  | all taken =>
      refine .all ?_
      rw [taken, hs₁, List.append_assoc, List.take_append_drop]
  | part k less taken =>
      rw [List.length_drop] at less
      refine .part (n + k) (by omega) ?_
      rw [taken, hs₁, List.append_assoc, List.take_add]

/-- Every sink, however short its writes. -/
theorem writeAll_spec (snk : Sink σ α ε) (zero : ε) (fuel : ℕ) :
    ∀ (s : σ) (buf : List α), buf.length < fuel →
      Arrived snk s buf (writeAll snk zero fuel s buf) := by
  induction fuel with
  | zero =>
      intro _ _ hfuel
      exact absurd hfuel (Nat.not_lt_zero _)
  | succ fuel ih =>
      intro s buf hfuel
      rw [writeAll]
      split
      · rename_i hempty
        rw [List.isEmpty_iff] at hempty
        refine .all ?_
        rw [hempty, List.append_nil]
      · rename_i hne
        rw [List.isEmpty_iff] at hne
        have hpos := List.length_pos_iff.mpr hne
        rcases hwrite : snk.write s buf with ⟨e | n, s'⟩
        · refine .part 0 hpos ?_
          rw [snk.write_error hwrite, List.take_zero, List.append_nil]
        · rcases snk.write_ok hwrite with ⟨hle, htaken⟩
          simp only [if_pos hle]
          split
          · rename_i hzero
            rw [hzero] at htaken
            exact .part 0 hpos htaken
          · exact (ih s' (buf.drop n) (by rw [List.length_drop]; omega)).after hle htaken

end Wire
