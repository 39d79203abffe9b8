import ProxyProtocol.Lib.Bytes

/-! # UTF-8

A byte string is well-formed UTF-8 when a small automaton, one state per
place inside a scalar, reads it from boundary to boundary. Three functions of
the standard library come out of the one automaton: validation
(`fromUtf8`), conversion with replacement (`fromUtf8Lossy`) and splitting at
an ASCII separator (`Str.splitn`).

`Str` is a byte string with a proof that it is well formed, so an ill-formed
one cannot be built and no later proof has to ask.
-/

namespace Wire

namespace Utf8

/-- Where a reader stands: at a scalar boundary, or expecting one, two or
three continuation bytes, the first of them restricted after `E0`, `ED`, `F0`
and `F4` (no overlong forms, no surrogates, nothing above U+10FFFF). -/
inductive State where
  | start
  | tail1
  | tail2
  | tail3
  | afterE0
  | afterED
  | afterF0
  | afterF4
deriving DecidableEq, Repr

/-- Read one byte; `none` when it cannot stand here. -/
def step (s : State) (b : UInt8) : Option State :=
  let n := b.toNat
  match s with
  | .start =>
      if n ≤ 0x7F then some .start
      else if 0xC2 ≤ n ∧ n ≤ 0xDF then some .tail1
      else if n = 0xE0 then some .afterE0
      else if n = 0xED then some .afterED
      else if 0xE1 ≤ n ∧ n ≤ 0xEF then some .tail2
      else if n = 0xF0 then some .afterF0
      else if 0xF1 ≤ n ∧ n ≤ 0xF3 then some .tail3
      else if n = 0xF4 then some .afterF4
      else none
  | .tail1 => if 0x80 ≤ n ∧ n ≤ 0xBF then some .start else none
  | .tail2 => if 0x80 ≤ n ∧ n ≤ 0xBF then some .tail1 else none
  | .tail3 => if 0x80 ≤ n ∧ n ≤ 0xBF then some .tail2 else none
  | .afterE0 => if 0xA0 ≤ n ∧ n ≤ 0xBF then some .tail1 else none
  | .afterED => if 0x80 ≤ n ∧ n ≤ 0x9F then some .tail1 else none
  | .afterF0 => if 0x90 ≤ n ∧ n ≤ 0xBF then some .tail2 else none
  | .afterF4 => if 0x80 ≤ n ∧ n ≤ 0x8F then some .tail2 else none

/-- Read a byte string. -/
def run : State → List UInt8 → Option State
  | s, [] => some s
  | s, b :: bs => (step s b).bind fun t => run t bs

/-- Well-formed UTF-8: read from boundary to boundary. -/
def valid (bs : List UInt8) : Bool := run .start bs = some .start

theorem run_append (s : State) (a b : List UInt8) :
    run s (a ++ b) = (run s a).bind fun t => run t b := by
  induction a generalizing s with
  | nil => rfl
  | cons x xs ih =>
      simp only [List.cons_append, run]
      cases step s x with
      | none => rfl
      | some t => exact ih t

theorem valid_append {a b : List UInt8} (ha : valid a = true) (hb : valid b = true) :
    valid (a ++ b) = true := by
  simp only [valid, decide_eq_true_eq] at ha hb ⊢
  rw [run_append, ha]
  exact hb

/-- An ASCII byte stands only at a boundary, and leaves the reader there. -/
theorem step_ascii {s t : State} {b : UInt8} (hb : b.toNat ≤ 0x7F) (h : step s b = some t) :
    s = .start ∧ t = .start := by
  cases s with
  | start => simp [step, hb] at h; exact ⟨rfl, h.symm⟩
  | _ =>
      simp only [step] at h
      split at h
      · omega
      · cases h

theorem ascii_of_all {a : List UInt8} (h : (a.all fun b => b.toNat ≤ 0x7F) = true) :
    ∀ b ∈ a, b.toNat ≤ 0x7F := by
  intro b hb
  exact of_decide_eq_true (List.all_eq_true.mp h b hb)

/-- ASCII text in front changes nothing. -/
theorem valid_ascii_append {a : List UInt8} (ha : ∀ b ∈ a, b.toNat ≤ 0x7F) (bs : List UInt8) :
    valid (a ++ bs) = valid bs := by
  induction a with
  | nil => rfl
  | cons x xs ih =>
      obtain ⟨hx, hxs⟩ := List.forall_mem_cons.mp ha
      have hstep : step .start x = some .start := if_pos hx
      rw [List.cons_append, ← ih hxs, valid, run, hstep]
      rfl

theorem valid_ascii {a : List UInt8} (ha : ∀ b ∈ a, b.toNat ≤ 0x7F) : valid a = true := by
  have h := valid_ascii_append ha []
  rw [List.append_nil] at h
  exact h

/-- An ASCII byte inside a well-formed string splits it into two. -/
theorem valid_split {a b : List UInt8} {sep : UInt8} (hsep : sep.toNat ≤ 0x7F)
    (h : valid (a ++ sep :: b) = true) : valid a = true ∧ valid b = true := by
  simp only [valid, decide_eq_true_eq] at h ⊢
  rw [run_append] at h
  obtain ⟨s, hs, hrest⟩ := Option.bind_eq_some_iff.mp h
  simp only [run] at hrest
  obtain ⟨t, ht, hb⟩ := Option.bind_eq_some_iff.mp hrest
  obtain ⟨hstart, htend⟩ := step_ascii hsep ht
  exact ⟨hstart ▸ hs, htend ▸ hb⟩

/-! ## Conversion with replacement -/

/-- U+FFFD. -/
def replacement : List UInt8 := [0xEF, 0xBF, 0xBD]

/-- Copy well-formed scalars and put one U+FFFD for each maximal ill-formed
piece. `pending` holds the bytes of the scalar being read; a byte that cannot
continue it ends the piece and is read again as a first byte. -/
def lossyFrom : State → List UInt8 → List UInt8 → List UInt8
  | _, pending, [] => if pending = [] then [] else replacement
  | s, pending, b :: bs =>
      match step s b with
      | some .start => (pending ++ [b]) ++ lossyFrom .start [] bs
      | some t => lossyFrom t (pending ++ [b]) bs
      | none =>
          if pending = [] then replacement ++ lossyFrom .start [] bs
          else
            match step .start b with
            | some .start => replacement ++ ([b] ++ lossyFrom .start [] bs)
            | some t => replacement ++ lossyFrom t [b] bs
            | none => replacement ++ (replacement ++ lossyFrom .start [] bs)

def lossy (bs : List UInt8) : List UInt8 := lossyFrom .start [] bs

theorem valid_replacement : valid replacement = true := by decide

/-- Whatever was read so far, what is written is well formed: the pending
bytes lead to the state the reader is in. -/
theorem valid_lossyFrom (bs : List UInt8) : ∀ (s : State) (pending : List UInt8),
    run .start pending = some s → valid (lossyFrom s pending bs) = true := by
  induction bs with
  | nil =>
      intro s pending _
      simp only [lossyFrom]
      split
      · decide
      · exact valid_replacement
  | cons b bs ih =>
      intro s pending hp
      have hstart := ih .start [] rfl
      have hread : ∀ {u t : State} {p : List UInt8}, run .start p = some u → step u b = some t →
          run .start (p ++ [b]) = some t := by
        intro u t p hu ht
        rw [run_append, hu]
        simp [run, ht]
      simp only [lossyFrom]
      split
      · -- `b` completes a scalar
        rename_i ht
        have hscalar : valid (pending ++ [b]) = true := by
          simp only [valid, decide_eq_true_eq]
          exact hread hp ht
        exact valid_append hscalar hstart
      · -- `b` continues one
        rename_i t _ ht
        exact ih t _ (hread hp ht)
      · split
        · exact valid_append valid_replacement hstart
        · -- the piece ends before `b`, which is read again from a boundary
          split
          · rename_i ht
            have hb : valid [b] = true := by simp [valid, run, ht]
            exact valid_append valid_replacement (valid_append hb hstart)
          · rename_i t _ ht
            exact valid_append valid_replacement (ih t [b] (by simp [run, ht]))
          · exact valid_append valid_replacement (valid_append valid_replacement hstart)

theorem valid_lossy (bs : List UInt8) : valid (lossy bs) = true :=
  valid_lossyFrom bs .start [] rfl

end Utf8

/-! ## Strings -/

/-- A string: the bytes of a well-formed UTF-8 text. -/
structure Str where
  bytes : List UInt8
  valid : Utf8.valid bytes = true
deriving DecidableEq, Repr

namespace Str

@[ext] theorem ext {s t : Str} (h : s.bytes = t.bytes) : s = t := by
  cases s
  cases t
  simpa using h

/-- `str::from_utf8`. -/
def fromUtf8 (bs : List UInt8) : Option Str :=
  if h : Utf8.valid bs = true then some ⟨bs, h⟩ else none

theorem fromUtf8_eq_some {bs : List UInt8} {s : Str} : fromUtf8 bs = some s ↔ s.bytes = bs := by
  unfold fromUtf8
  split
  · rw [Option.some.injEq, Str.ext_iff, eq_comm]
  · rename_i h
    refine ⟨nofun, ?_⟩
    rintro rfl
    exact absurd s.valid h

/-- `String::from_utf8_lossy`. -/
def fromUtf8Lossy (bs : List UInt8) : Str := ⟨Utf8.lossy bs, Utf8.valid_lossy bs⟩

/-- Split at the first occurrence of an ASCII byte. -/
def splitOnce (sep : UInt8) (hsep : sep.toNat ≤ 0x7F) (s : Str) : Option (Str × Str) :=
  if h : sep ∈ s.bytes then
    have hsplit : s.bytes = s.bytes.take (s.bytes.idxOf sep) ++
        sep :: s.bytes.drop (s.bytes.idxOf sep + 1) := by
      have hlt := List.idxOf_lt_length_iff.mpr h
      conv_lhs => rw [← List.take_append_drop (s.bytes.idxOf sep) s.bytes]
      rw [List.drop_eq_getElem_cons hlt, List.getElem_idxOf hlt]
    have hvalid := Utf8.valid_split hsep (hsplit ▸ s.valid)
    some (⟨s.bytes.take (s.bytes.idxOf sep), hvalid.1⟩,
      ⟨s.bytes.drop (s.bytes.idxOf sep + 1), hvalid.2⟩)
  else none

/-- `s.splitn(n, sep)`: at most `n` pieces, the last one unsplit. -/
def splitn (sep : UInt8) (hsep : sep.toNat ≤ 0x7F) : ℕ → Str → List Str
  | 0, _ => []
  | 1, s => [s]
  | n + 2, s =>
      match splitOnce sep hsep s with
      | some (piece, rest) => piece :: splitn sep hsep (n + 1) rest
      | none => [s]

section Split

variable {sep : UInt8} {hsep : sep.toNat ≤ 0x7F} {s : Str}

theorem splitOnce_eq_none : splitOnce sep hsep s = none ↔ sep ∉ s.bytes := by
  unfold splitOnce
  split
  · simpa
  · simpa

theorem splitOnce_eq_some {piece rest : Str} :
    splitOnce sep hsep s = some (piece, rest) ↔
      s.bytes = piece.bytes ++ sep :: rest.bytes ∧ sep ∉ piece.bytes := by
  constructor
  · intro h
    unfold splitOnce at h
    split at h
    · rename_i hmem
      have hlt := List.idxOf_lt_length_iff.mpr hmem
      cases h
      refine ⟨?_, by simp [List.mem_take_iff_idxOf_lt hmem]⟩
      conv_lhs => rw [← List.take_append_drop (s.bytes.idxOf sep) s.bytes]
      rw [List.drop_eq_getElem_cons hlt, List.getElem_idxOf hlt]
    · cases h
  · rintro ⟨hbytes, hpiece⟩
    have hmem : sep ∈ s.bytes := by simp [hbytes]
    have hidx : s.bytes.idxOf sep = piece.bytes.length := by
      simp [hbytes, List.idxOf_append, hpiece]
    rw [splitOnce, dif_pos hmem]
    simp only [Option.some.injEq, Prod.mk.injEq]
    constructor
    · ext1
      simp only [hidx]
      simp [hbytes]
    · ext1
      simp only [hidx]
      simp [hbytes]

theorem splitn_ne_nil (n : ℕ) : splitn sep hsep (n + 1) s ≠ [] := by
  cases n with
  | zero => simp [splitn]
  | succ n =>
      rw [splitn]
      split <;> simp

/-- One piece below the limit: there is no separator. -/
theorem splitn_eq_singleton {n : ℕ} {field : List UInt8} :
    (splitn sep hsep (n + 2) s).map bytes = [field] ↔ s.bytes = field ∧ sep ∉ field := by
  rw [splitn]
  cases hsplit : splitOnce sep hsep s with
  | none =>
      have hnot := splitOnce_eq_none.mp hsplit
      constructor
      · intro h
        cases h
        exact ⟨rfl, hnot⟩
      · rintro ⟨rfl, -⟩
        rfl
  | some p =>
      rcases p with ⟨first, rest⟩
      rcases splitOnce_eq_some.mp hsplit with ⟨hbytes, -⟩
      constructor
      · intro h
        exact absurd (List.map_eq_nil_iff.mp (List.cons.inj h).2) (splitn_ne_nil _)
      · -- the single field would contain the separator
        rintro ⟨rfl, hnot⟩
        exact absurd (by simp [hbytes]) hnot

/-- Fewer pieces than the limit: all of the text was split. -/
theorem splitn_eq_iff {n : ℕ} {fields : List (List UInt8)} (hne : fields ≠ [])
    (hlen : fields.length < n) :
    (splitn sep hsep n s).map bytes = fields ↔
      s.bytes = [sep].intercalate fields ∧ ∀ field ∈ fields, sep ∉ field := by
  induction fields generalizing n s with
  | nil => exact absurd rfl hne
  | cons field fields ih =>
      simp only [List.length_cons] at hlen
      obtain ⟨n, rfl⟩ : ∃ k, n = k + 2 := ⟨n - 2, by omega⟩
      cases fields with
      | nil =>
          rw [splitn_eq_singleton, List.intercalate_singleton, List.forall_mem_singleton]
      | cons next fields =>
          have hjoin : [sep].intercalate (field :: next :: fields) =
              field ++ sep :: [sep].intercalate (next :: fields) := by
            rw [List.intercalate_cons_cons, List.append_assoc, List.singleton_append]
          rw [splitn, hjoin]
          constructor
          · intro h
            split at h
            · rename_i first rest hsplit
              obtain ⟨rfl, hrest⟩ := List.cons.inj h
              obtain ⟨hbytes, hfirst⟩ := splitOnce_eq_some.mp hsplit
              obtain ⟨hrec, hnot⟩ := (ih (by simp) (by omega)).mp hrest
              rw [hbytes, hrec]
              exact ⟨rfl, List.forall_mem_cons.mpr ⟨hfirst, hnot⟩⟩
            · simp at h
          · rintro ⟨hbytes, hnot⟩
            obtain ⟨hfirst, hnot⟩ := List.forall_mem_cons.mp hnot
            obtain ⟨hfield, hrest⟩ := Utf8.valid_split hsep (hbytes ▸ s.valid)
            have hsplit : splitOnce sep hsep s = some (⟨field, hfield⟩, ⟨_, hrest⟩) :=
              splitOnce_eq_some.mpr ⟨hbytes, hfirst⟩
            simp only [hsplit, List.map_cons]
            rw [(ih (by simp) (by omega)).mpr ⟨rfl, hnot⟩]

end Split

end Str

end Wire
