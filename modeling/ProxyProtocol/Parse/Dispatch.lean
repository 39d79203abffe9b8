import ProxyProtocol.Parse.V1
import ProxyProtocol.Parse.V2

/-! # Parsing a buffer

`parse/mod.rs`: the first byte picks the version, a signature confirms it.

The listener calls `parse` on a buffer that grows from read to read, so the
question about it is what growing can change. `Settles` says the answer: a
verdict other than "incomplete" is final, and an accepted header has a definite
end before which every verdict is "incomplete". Both version parsers settle,
waiting for a signature keeps that (`gated_settles`), and so `parse` does
(`parse_settles`).
-/

namespace ProxyProtocol

open Wire

/-- `PROXY` and a space. -/
def v1Signature : List UInt8 := [0x50, 0x52, 0x4F, 0x58, 0x59, 0x20]

def parse (C : Crc32c) (buf : List UInt8) : ParseResult (ProxyInfo × ℕ) :=
  if buf.isEmpty then .err .incomplete
  else do
    let first ← Outcome.index buf 0
    match first with
    | 0x0D =>
        if buf.length < 12 then .err .incomplete
        else do
          let signature ← Outcome.sliceTo buf 12
          if signature = v2Signature then parseV2 C buf else .err .notProxyProtocol
    | 0x50 =>
        if buf.length < 6 then .err .incomplete
        else if v1Signature.isPrefixOf buf then parseV1 buf
        else .err .notProxyProtocol
    -- no header starts like this, so one byte is enough to refuse
    | _ => .err .notProxyProtocol

/-! ## One equation per kind of buffer -/

/-- Both versions: wait for the signature, compare it, hand the buffer on. -/
def gated (signature : List UInt8) (inner : List UInt8 → ParseResult (ProxyInfo × ℕ))
    (buf : List UInt8) : ParseResult (ProxyInfo × ℕ) :=
  if buf.length < signature.length then .err .incomplete
  else if buf.take signature.length = signature then inner buf
  else .err .notProxyProtocol

section Equations

variable (C : Crc32c) (rest : List UInt8)

theorem parse_v2_first :
    parse C (0x0D :: rest) = gated v2Signature (parseV2 C) (0x0D :: rest) := by
  have hlen : v2Signature.length = 12 := rfl
  simp only [parse, gated, hlen, List.isEmpty_cons, Bool.false_eq_true, if_false,
    Outcome.index_zero, Outcome.ok_bind]
  by_cases h : (0x0D :: rest).length < 12
  · rw [if_pos h, if_pos h]
  · rw [if_neg h, if_neg h, Outcome.sliceTo_of_le (Nat.not_lt.mp h), Outcome.ok_bind]

theorem parse_v1_first :
    parse C (0x50 :: rest) = gated v1Signature parseV1 (0x50 :: rest) := by
  have hsig : v1Signature.isPrefixOf (0x50 :: rest) = true ↔
      (0x50 :: rest).take v1Signature.length = v1Signature := by
    refine List.isPrefixOf_iff_prefix.trans ?_
    rw [List.prefix_iff_eq_take, eq_comm]
  simp only [parse, List.isEmpty_cons, Bool.false_eq_true, if_false, Outcome.index_zero,
    Outcome.ok_bind, hsig]
  rfl

theorem parse_other_first {b : UInt8} (h₁ : b ≠ 0x0D) (h₂ : b ≠ 0x50) :
    parse C (b :: rest) = .err .notProxyProtocol := by
  simp only [parse, List.isEmpty_cons, Bool.false_eq_true, if_false, Outcome.index_zero,
    Outcome.ok_bind]

end Equations

/-- What holds of the verdicts on the four kinds of buffer holds of every
verdict: nothing to go by, the first byte of either signature, another one. -/
theorem parse_cases (C : Crc32c)
    {motive : List UInt8 → ParseResult (ProxyInfo × ℕ) → Prop}
    (nil : motive [] (.err .incomplete))
    (v2 : ∀ rest, motive (0x0D :: rest) (gated v2Signature (parseV2 C) (0x0D :: rest)))
    (v1 : ∀ rest, motive (0x50 :: rest) (gated v1Signature parseV1 (0x50 :: rest)))
    (other : ∀ b rest, motive (b :: rest) (.err .notProxyProtocol)) (buf : List UInt8) :
    motive buf (parse C buf) := by
  cases buf with
  | nil => exact nil
  | cons b rest =>
      by_cases hv2 : b = 0x0D
      · subst hv2
        rw [parse_v2_first]
        exact v2 rest
      · by_cases hv1 : b = 0x50
        · subst hv1
          rw [parse_v1_first]
          exact v1 rest
        · rw [parse_other_first C rest hv2 hv1]
          exact other b rest

/-! ## Growing buffers -/

/-- A parser whose verdicts a growing buffer settles: one that is not
"incomplete" stays, and an accepted header is accepted from its last byte on
and incomplete before. -/
structure Settles (p : List UInt8 → ParseResult (ProxyInfo × ℕ)) : Prop where
  append : ∀ {buf : List UInt8}, p buf ≠ .err .incomplete → ∀ e, p (buf ++ e) = p buf
  le : ∀ {buf info n}, p buf = .ok (info, n) → n ≤ buf.length
  take : ∀ {buf info n}, p buf = .ok (info, n) →
    ∀ k, p (buf.take k) = if k < n then .err .incomplete else .ok (info, n)

theorem parseV1_settles : Settles parseV1 where
  append := parseV1_append
  le h := (parseV1_take h).1
  take h := (parseV1_take h).2.2

theorem parseV2_settles (C : Crc32c) : Settles (parseV2 C) where
  append := parseV2_append
  le h := (parseV2_take h).2.1
  take h := (parseV2_take h).2.2

section Gated

variable {signature : List UInt8} {inner : List UInt8 → ParseResult (ProxyInfo × ℕ)}
  {buf : List UInt8}

theorem gated_of_signature (h : buf.take signature.length = signature) :
    gated signature inner buf = inner buf := by
  have hle : signature.length ≤ buf.length := by
    have hlen := congrArg List.length h
    rw [List.length_take] at hlen
    omega
  rw [gated, if_neg (Nat.not_lt.mpr hle), if_pos h]

theorem signature_of_gated {info : ProxyInfo} {n : ℕ}
    (h : gated signature inner buf = .ok (info, n)) :
    buf.take signature.length = signature := by
  unfold gated at h
  split at h
  · cases h
  · split at h
    · assumption
    · cases h

/-- Waiting for a signature that every accepted header contains keeps a parser
settling. -/
theorem gated_settles (hinner : Settles inner)
    (hlen : ∀ {buf info n}, buf.take signature.length = signature →
      inner buf = .ok (info, n) → signature.length ≤ n) :
    Settles (gated signature inner) := by
  refine ⟨?_, ?_, ?_⟩
  · intro buf h e
    unfold gated at h ⊢
    by_cases hshort : buf.length < signature.length
    · exact absurd (by rw [if_pos hshort]) h
    · rw [if_neg hshort] at h ⊢
      rw [if_neg (by rw [List.length_append]; omega),
        List.take_append_of_le_length (Nat.not_lt.mp hshort)]
      by_cases hsig : buf.take signature.length = signature
      · rw [if_pos hsig] at h
        rw [if_pos hsig, if_pos hsig, hinner.append h]
      · rw [if_neg hsig, if_neg hsig]
  · intro buf info n h
    rw [gated_of_signature (signature_of_gated h)] at h
    exact hinner.le h
  · intro buf info n h k
    have hsig := signature_of_gated h
    rw [gated_of_signature hsig] at h
    by_cases hshort : k < signature.length
    · have hn := hlen hsig h
      rw [gated, if_pos (by rw [List.length_take]; omega), if_pos (by omega)]
    · rw [gated_of_signature (by rwa [List.take_take, Nat.min_eq_left (Nat.not_lt.mp hshort)])]
      exact hinner.take h k

end Gated

/-- The v1 signature holds no CR LF, so a line ends behind it. -/
theorem length_v1Signature_le {buf : List UInt8} {info : ProxyInfo} {n : ℕ}
    (hsig : buf.take v1Signature.length = v1Signature) (h : parseV1 buf = .ok (info, n)) :
    v1Signature.length ≤ n := by
  by_contra hlt
  -- otherwise the signature alone would be a header
  have hcut := (parseV1_take h).2.2 v1Signature.length
  rw [hsig, if_neg (by omega)] at hcut
  cases hcut

/-- A buffer with the v2 signature goes to the v2 parser. -/
theorem parse_eq_parseV2 (C : Crc32c) {buf : List UInt8} (h : buf.take 12 = v2Signature) :
    parse C buf = parseV2 C buf := by
  have hcons : buf = 0x0D :: buf.tail := by
    cases buf with
    | nil => cases h
    | cons b rest =>
        rw [List.take_succ_cons] at h
        rw [(List.cons.inj h).1]
        rfl
  rw [hcons] at h ⊢
  rw [parse_v2_first]
  exact gated_of_signature h

/-- A buffer with the v1 signature goes to the v1 parser. -/
theorem parse_eq_parseV1 (C : Crc32c) {buf : List UInt8} (h : v1Signature <+: buf) :
    parse C buf = parseV1 buf := by
  obtain ⟨rest, rfl⟩ := h
  have hcons : v1Signature ++ rest = 0x50 :: (v1Signature.tail ++ rest) := rfl
  rw [hcons, parse_v1_first]
  exact gated_of_signature rfl

/-- An accepted buffer was accepted by one of the two parsers. -/
theorem of_parse {C : Crc32c} {buf : List UInt8} {info : ProxyInfo} {n : ℕ}
    (h : parse C buf = .ok (info, n)) :
    (buf.take 12 = v2Signature ∧ parseV2 C buf = .ok (info, n)) ∨
      (v1Signature <+: buf ∧ parseV1 buf = .ok (info, n)) := by
  revert h
  refine parse_cases C (motive := fun buf r => r = .ok (info, n) →
    (buf.take 12 = v2Signature ∧ parseV2 C buf = .ok (info, n)) ∨
      (v1Signature <+: buf ∧ parseV1 buf = .ok (info, n))) ?_ ?_ ?_ ?_ buf
  · intro h
    cases h
  · intro rest h
    have hsig := signature_of_gated h
    rw [gated_of_signature hsig] at h
    exact .inl ⟨hsig, h⟩
  · intro rest h
    have hsig := signature_of_gated h
    rw [gated_of_signature hsig] at h
    exact .inr ⟨List.prefix_iff_eq_take.mpr hsig.symm, h⟩
  · intro b rest h
    cases h

/-- On the empty buffer and those with a given first byte, `parse` is one
settling parser. -/
theorem exists_settles (C : Crc32c) (b : UInt8) :
    ∃ p, Settles p ∧ parse C [] = p [] ∧ ∀ rest, parse C (b :: rest) = p (b :: rest) := by
  by_cases hv2 : b = 0x0D
  · subst hv2
    have h : Settles (gated v2Signature (parseV2 C)) :=
      gated_settles (parseV2_settles C) fun _ h => Nat.le_trans (by decide) (parseV2_take h).1
    exact ⟨_, h, rfl, parse_v2_first C⟩
  · by_cases hv1 : b = 0x50
    · subst hv1
      exact ⟨_, gated_settles parseV1_settles length_v1Signature_le, rfl, parse_v1_first C⟩
    · -- the constant verdict on such buffers, extended to the empty one
      refine ⟨fun buf => if buf = [] then .err .incomplete else .err .notProxyProtocol, ?_, rfl,
        fun rest => parse_other_first C rest hv2 hv1⟩
      refine ⟨?_, ?_, ?_⟩
      · intro buf h e
        have hne : buf ≠ [] := by
          rintro rfl
          exact h rfl
        simp [hne]
      · intro buf info n h
        split at h <;> cases h
      · intro buf info n h
        split at h <;> cases h

theorem parse_settles (C : Crc32c) : Settles (parse C) := by
  refine ⟨?_, ?_, ?_⟩
  · intro buf h e
    cases buf with
    | nil => exact absurd rfl h
    | cons b rest =>
        obtain ⟨p, hp, -, heq⟩ := exists_settles C b
        rw [heq] at h
        rw [List.cons_append, heq, heq, ← List.cons_append, hp.append h]
  · intro buf info n h
    cases buf with
    | nil => cases h
    | cons b rest =>
        obtain ⟨p, hp, -, heq⟩ := exists_settles C b
        rw [heq] at h
        exact hp.le h
  · intro buf info n h k
    cases buf with
    | nil => cases h
    | cons b rest =>
        obtain ⟨p, hp, hnil, heq⟩ := exists_settles C b
        rw [heq] at h
        have hcut := hp.take h k
        cases k with
        -- cutting everything off loses the first byte
        | zero => exact hnil.trans hcut
        | succ k =>
            rw [List.take_succ_cons] at hcut ⊢
            rw [heq, hcut]

/-- Incremental parsing is consistent: an accepted header is a prefix of the
buffer with a definite end, and neither it nor an error other than
"incomplete" depends on what follows. -/
theorem parse_incremental (C : Crc32c) (b e : List UInt8) :
    (∀ info n, parse C b = .ok (info, n) →
      n ≤ b.length ∧ parse C (b ++ e) = .ok (info, n) ∧ parse C (b.take n) = .ok (info, n) ∧
        ∀ k < n, parse C (b.take k) = .err .incomplete) ∧
    (∀ error, parse C b = .err error → error ≠ .incomplete →
      parse C (b ++ e) = .err error) := by
  have hsettles := parse_settles C
  refine ⟨?_, ?_⟩
  · intro info n h
    have hfinal : parse C b ≠ .err .incomplete := by
      simp [h]
    refine ⟨hsettles.le h, ?_, ?_, ?_⟩
    · rw [hsettles.append hfinal, h]
    · rw [hsettles.take h, if_neg (Nat.lt_irrefl n)]
    · intro k hk
      rw [hsettles.take h, if_pos hk]
  · intro error h hne
    have hfinal : parse C b ≠ .err .incomplete := by
      simpa [h] using hne
    rw [hsettles.append hfinal, h]

/-- A LOCAL header without payload, followed by application data. -/
theorem parse_incremental_local :
    let b := v2Signature ++ [0x20, 0x00, 0x00, 0x00]
    let info : ProxyInfo := ⟨.v2, .local, none, none, none, {}⟩
    parse .castagnoli b = .ok (info, 16) ∧ parse .castagnoli (b ++ [0x47]) = .ok (info, 16) ∧
      (∀ k < 16, parse .castagnoli (b.take k) = .err .incomplete) ∧
      parse .castagnoli [0x47] = .err .notProxyProtocol ∧
      parse .castagnoli ([0x47] ++ b) = .err .notProxyProtocol := by
  intro b info
  have hb : parse .castagnoli b = .ok (info, 16) := by decide
  have he : parse .castagnoli [0x47] = .err .notProxyProtocol := by decide
  have hok := (parse_incremental .castagnoli b [0x47]).1 info 16 hb
  have herr := (parse_incremental .castagnoli [0x47] b).2 _ he (by decide)
  exact ⟨hb, hok.2.1, hok.2.2.2, he, herr⟩

end ProxyProtocol
