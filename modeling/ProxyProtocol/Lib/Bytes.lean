import Mathlib.Data.List.TakeDrop
import ProxyProtocol.Lib.Outcome

/-! # Byte strings

Big-endian integers, fixed-size byte arrays and in-place overwriting, the
three things a binary header is made of. Byte strings are lists; the integers
are the machine's own `UInt16` and `UInt32`, with `Nat` arithmetic in between
so that the round trips are linear facts.
-/

namespace Wire

/-! ## Big-endian integers -/

/-- `u16::from_be_bytes([hi, lo])`. -/
def be16 (hi lo : UInt8) : UInt16 := UInt16.ofNat (hi.toNat * 256 + lo.toNat)

/-- `x.to_be_bytes()` on `u16`. -/
def be16Bytes (x : UInt16) : List UInt8 := [UInt8.ofNat (x.toNat / 256), UInt8.ofNat x.toNat]

/-- `u32::from_be_bytes([a, b, c, d])`. -/
def be32 (a b c d : UInt8) : UInt32 :=
  UInt32.ofNat (a.toNat * 16777216 + b.toNat * 65536 + c.toNat * 256 + d.toNat)

/-- `x.to_be_bytes()` on `u32`. -/
def be32Bytes (x : UInt32) : List UInt8 :=
  [UInt8.ofNat (x.toNat / 16777216), UInt8.ofNat (x.toNat / 65536),
    UInt8.ofNat (x.toNat / 256), UInt8.ofNat x.toNat]

@[simp] theorem length_be16Bytes (x : UInt16) : (be16Bytes x).length = 2 := rfl
@[simp] theorem length_be32Bytes (x : UInt32) : (be32Bytes x).length = 4 := rfl

theorem toNat_be16 (hi lo : UInt8) : (be16 hi lo).toNat = hi.toNat * 256 + lo.toNat := by
  have h₁ := hi.toNat_lt
  have h₂ := lo.toNat_lt
  simp only [be16, UInt16.toNat_ofNat']
  omega

theorem toNat_be16_le (hi lo : UInt8) : (be16 hi lo).toNat ≤ 65535 := by
  have h := (be16 hi lo).toNat_lt
  omega

/-- Reading back the two bytes a word was written as. -/
theorem be16_of_bytes (x : UInt16) :
    be16 (UInt8.ofNat (x.toNat / 256)) (UInt8.ofNat x.toNat) = x := by
  have hx := x.toNat_lt
  apply UInt16.toNat_inj.mp
  simp only [toNat_be16, UInt8.toNat_ofNat']
  omega

/-- Writing the word two bytes denote gives the two bytes. -/
theorem be16Bytes_be16 (hi lo : UInt8) : be16Bytes (be16 hi lo) = [hi, lo] := by
  have h₁ := hi.toNat_lt
  have h₂ := lo.toNat_lt
  have hhi : UInt8.ofNat ((be16 hi lo).toNat / 256) = hi := by
    apply UInt8.toNat_inj.mp
    simp only [toNat_be16, UInt8.toNat_ofNat']
    omega
  have hlo : UInt8.ofNat (be16 hi lo).toNat = lo := by
    apply UInt8.toNat_inj.mp
    simp only [toNat_be16, UInt8.toNat_ofNat']
    omega
  simp only [be16Bytes, hhi, hlo]

theorem toNat_be32 (a b c d : UInt8) : (be32 a b c d).toNat =
    a.toNat * 16777216 + b.toNat * 65536 + c.toNat * 256 + d.toNat := by
  have ha := a.toNat_lt
  have hb := b.toNat_lt
  have hc := c.toNat_lt
  have hd := d.toNat_lt
  simp only [be32, UInt32.toNat_ofNat']
  omega

theorem be32_of_bytes (x : UInt32) :
    be32 (UInt8.ofNat (x.toNat / 16777216)) (UInt8.ofNat (x.toNat / 65536))
      (UInt8.ofNat (x.toNat / 256)) (UInt8.ofNat x.toNat) = x := by
  have hx := x.toNat_lt
  apply UInt32.toNat_inj.mp
  simp only [toNat_be32, UInt8.toNat_ofNat']
  omega

theorem be32Bytes_be32 (a b c d : UInt8) : be32Bytes (be32 a b c d) = [a, b, c, d] := by
  have ha := a.toNat_lt
  have hb := b.toNat_lt
  have hc := c.toNat_lt
  have hd := d.toNat_lt
  have h := toNat_be32 a b c d
  simp only [be32Bytes, h, List.cons.injEq, and_true]
  refine ⟨?_, ?_, ?_, ?_⟩ <;>
    · apply UInt8.toNat_inj.mp
      rw [UInt8.toNat_ofNat']
      omega

/-! ## Nibbles -/

theorem toNat_shiftRight_four (x : UInt8) : (x >>> 4).toNat = x.toNat / 16 := by
  simp [Nat.shiftRight_eq_div_pow]

theorem toNat_and_fifteen (x : UInt8) : (x &&& 0x0F).toNat = x.toNat % 16 := by
  rw [UInt8.toNat_and]
  exact Nat.and_two_pow_sub_one_eq_mod x.toNat 4

/-- A byte is its two nibbles. -/
theorem eq_of_nibbles {x y : UInt8} (hhi : x >>> 4 = y >>> 4) (hlo : x &&& 0x0F = y &&& 0x0F) :
    x = y := by
  have h₁ := congrArg UInt8.toNat hhi
  have h₂ := congrArg UInt8.toNat hlo
  rw [toNat_shiftRight_four, toNat_shiftRight_four] at h₁
  rw [toNat_and_fifteen, toNat_and_fifteen] at h₂
  apply UInt8.toNat_inj.mp
  omega

/-! ## Fixed-size arrays -/

/-- `[u8; n]`: a byte string of exactly `n` bytes. -/
structure Octets (n : ℕ) where
  bytes : List UInt8
  length_eq : bytes.length = n
deriving DecidableEq, Repr

/-- `<[u8; n]>::try_from(bs)`. -/
def Octets.tryFrom (n : ℕ) (bs : List UInt8) : Option (Octets n) :=
  if h : bs.length = n then some ⟨bs, h⟩ else none

theorem Octets.tryFrom_of_length {n : ℕ} {bs : List UInt8} (h : bs.length = n) :
    Octets.tryFrom n bs = some ⟨bs, h⟩ := by
  simp [Octets.tryFrom, h]

@[ext] theorem Octets.ext {n : ℕ} {a b : Octets n} (h : a.bytes = b.bytes) : a = b := by
  cases a
  cases b
  simpa using h

/-- A byte string of at least `n` bytes starts with an array. -/
theorem Octets.exists_append {n : ℕ} {bs : List UInt8} (h : n ≤ bs.length) :
    ∃ (o : Octets n) (rest : List UInt8), bs = o.bytes ++ rest :=
  ⟨⟨bs.take n, by simp [h]⟩, bs.drop n, (List.take_append_drop n bs).symm⟩

/-- A byte string of at least two bytes starts with a word. -/
theorem exists_be16Bytes_append {bs : List UInt8} (h : 2 ≤ bs.length) :
    ∃ (x : UInt16) (rest : List UInt8), bs = be16Bytes x ++ rest := by
  match bs with
  | [] | [_] => simp at h
  | hi :: lo :: rest =>
      refine ⟨be16 hi lo, rest, ?_⟩
      rw [be16Bytes_be16]
      rfl

/-- `u32::from_be_bytes` on an array. -/
def Octets.be32 (o : Octets 4) : UInt32 :=
  Wire.be32 (o.bytes.getD 0 0) (o.bytes.getD 1 0) (o.bytes.getD 2 0) (o.bytes.getD 3 0)

theorem be32_tryFrom_be32Bytes (x : UInt32) :
    (Octets.tryFrom 4 (be32Bytes x)).map Octets.be32 = some x := by
  rw [Octets.tryFrom_of_length (length_be32Bytes x), Option.map_some]
  exact congrArg some (be32_of_bytes x)

theorem be32_tryFrom_eq_some {v : List UInt8} {x : UInt32} :
    (Octets.tryFrom 4 v).map Octets.be32 = some x ↔ v = be32Bytes x := by
  constructor
  · intro h
    rcases Option.map_eq_some_iff.mp h with ⟨⟨bytes, hlen⟩, ho, rfl⟩
    have hv : v = bytes := by
      unfold Octets.tryFrom at ho
      split at ho
      · cases ho
        rfl
      · cases ho
    rcases List.length_eq_four.mp hlen with ⟨a, b, c, d, rfl⟩
    rw [hv]
    exact (be32Bytes_be32 a b c d).symm
  · rintro rfl
    exact be32_tryFrom_be32Bytes x

/-- Four bytes are the bytes of a word. -/
theorem exists_be32Bytes {v : List UInt8} (h : v.length = 4) : ∃ x, v = be32Bytes x := by
  rcases List.length_eq_four.mp h with ⟨a, b, c, d, rfl⟩
  exact ⟨be32 a b c d, (be32Bytes_be32 a b c d).symm⟩

variable {ε α : Type}

/-- `xs` with the elements from `pos` on replaced by `ys`. -/
def patch (xs : List α) (pos : ℕ) (ys : List α) : List α :=
  xs.take pos ++ (ys ++ xs.drop (pos + ys.length))

/-- Overwriting the middle of three pieces. -/
theorem patch_append {a x y : List α} {pos : ℕ} (hpos : a.length = pos)
    (h : x.length = y.length) (z : List α) : patch (a ++ (x ++ z)) pos y = a ++ (y ++ z) := by
  simp [patch, ← hpos, ← h]

/-- A window apart from what is overwritten stays where it is. -/
theorem exists_patch_frame {a z ys : List α} {k pos : ℕ}
    (h : a.length + k ≤ pos ∨ pos + ys.length ≤ a.length) :
    ∃ a' z', ∀ w, w.length = k → patch (a ++ (w ++ z)) pos ys = a' ++ (w ++ z') := by
  rcases h with hbehind | hbefore
  · -- the window ends first: the overwriting happens in what follows it
    obtain ⟨q, rfl⟩ : ∃ q, pos = a.length + (k + q) := ⟨pos - (a.length + k), by omega⟩
    refine ⟨a, patch z q ys, ?_⟩
    rintro w rfl
    have hend : a.length + (w.length + q) + ys.length =
        a.length + (w.length + (q + ys.length)) := by omega
    simp only [patch, hend, List.take_length_add_append, List.drop_length_add_append,
      List.append_assoc]
  · -- the window starts later: the overwriting happens in front of it
    refine ⟨patch a pos ys, z, ?_⟩
    intro w _
    simp only [patch]
    rw [List.take_append_of_le_length (by omega), List.drop_append_of_le_length (by omega)]
    simp only [List.append_assoc]

/-- A window inside the middle of three pieces. -/
theorem exists_window {a v b p x z : List α} (h : a ++ (v ++ b) = p ++ (x ++ z))
    (hlo : a.length ≤ p.length) (hhi : p.length + x.length ≤ a.length + v.length) :
    ∃ v₁ v₂, p = a ++ v₁ ∧ v = v₁ ++ (x ++ v₂) ∧ z = v₂ ++ b := by
  -- first `p` reaches past `a`, then `v` reaches past the window
  have hp : p = a ++ p.drop a.length := by
    have htake := congrArg (List.take a.length) h
    rw [List.take_left, List.take_append_of_le_length hlo] at htake
    conv_lhs => rw [← List.take_append_drop a.length p, ← htake]
  generalize p.drop a.length = v₁ at hp
  subst hp
  rw [List.append_assoc, List.append_cancel_left_eq] at h
  rw [List.length_append] at hhi
  have hv : v = v₁ ++ (x ++ v.drop (v₁.length + x.length)) := by
    have htake := congrArg (List.take (v₁.length + x.length)) h
    rw [List.take_append_of_le_length (by omega), List.take_length_add_append,
      List.take_left] at htake
    conv_lhs => rw [← List.take_append_drop (v₁.length + x.length) v, htake]
    rw [List.append_assoc]
  generalize v.drop (v₁.length + x.length) = v₂ at hv
  subst hv
  simp only [List.append_assoc, List.append_cancel_left_eq] at h
  exact ⟨v₁, v₂, rfl, rfl, h.symm⟩

/-- `xs[pos..pos + ys.len()].copy_from_slice(ys)`. -/
def Outcome.copyFromSlice (xs : List α) (pos : ℕ) (ys : List α) : Outcome ε (List α) :=
  if pos + ys.length ≤ xs.length then .ok (patch xs pos ys) else .panic

theorem Outcome.copyFromSlice_of_le {xs ys : List α} {pos : ℕ} (h : pos + ys.length ≤ xs.length) :
    (Outcome.copyFromSlice xs pos ys : Outcome ε (List α)) = .ok (patch xs pos ys) := by
  simp [Outcome.copyFromSlice, h]

end Wire
