import Mathlib.Logic.Function.Iterate
import ProxyProtocol.Lib.Bytes

/-! # CRC-32C

Code that checksums a byte string sees two functions: one hashes a string,
the other continues a hash over more bytes. `Crc32c` is that interface, and
the two facts callers rely on are stated about it: hashing composes
(`Composes`), and two strings that differ inside four neighbouring bytes have
different hashes (`DetectsBursts`).

`castagnoli` is the hash itself, the reflected shift register with polynomial
`0x82F63B78`, and `castagnoli_composes` and `castagnoli_detectsBursts` show
that it has both properties. The burst argument: the register is linear, one
shift is injective (the polynomial's top bit is set), and up to four bytes
enter the register side by side before anything is shifted out
(`update_eq_iterate`).

Linearity also tells when two changes cancel: `castagnoli_move_iff` says which
four bytes can be written in one place instead of four others in another.
-/

namespace Wire

/-- The interface of a CRC-32C implementation. -/
structure Crc32c where
  crc32c : List UInt8 → UInt32
  crc32cAppend : UInt32 → List UInt8 → UInt32

namespace Crc32c

/-- Continuing a hash is hashing the concatenation. -/
def Composes (C : Crc32c) : Prop :=
  ∀ a b : List UInt8, C.crc32cAppend (C.crc32c a) b = C.crc32c (a ++ b)

/-- Strings that differ only inside a window of at most four bytes hash
differently. -/
def DetectsBursts (C : Crc32c) : Prop :=
  ∀ a x y z : List UInt8, x.length = y.length → x.length ≤ 4 → x ≠ y →
    C.crc32c (a ++ (x ++ z)) ≠ C.crc32c (a ++ (y ++ z))

/-! ## The shift register -/

/-- The Castagnoli polynomial, reflected. -/
def poly : BitVec 32 := 0x82F63B78#32

/-- Shift one bit out. -/
def shift (c : BitVec 32) : BitVec 32 :=
  if c.getLsbD 0 then (c >>> 1) ^^^ poly else c >>> 1

/-- A byte in the low end of the register. -/
def lowByte (b : UInt8) : BitVec 32 := b.toBitVec.setWidth 32

def update : BitVec 32 → List UInt8 → BitVec 32
  | c, [] => c
  | c, b :: bs => update (shift^[8] (c ^^^ lowByte b)) bs

/-- CRC-32C: the register starts with all bits set and is complemented at the
end. -/
def castagnoli : Crc32c where
  crc32c bs := ⟨~~~ update (~~~ 0#32) bs⟩
  crc32cAppend c bs := ⟨~~~ update (~~~ c.toBitVec) bs⟩

theorem update_append (c : BitVec 32) (a b : List UInt8) :
    update c (a ++ b) = update (update c a) b := by
  induction a generalizing c with
  | nil => rfl
  | cons x xs ih => exact ih _

theorem castagnoli_composes : castagnoli.Composes := by
  intro a b
  simp [castagnoli, update_append]

/-! ## Injectivity -/

theorem shift_xor (a b : BitVec 32) : shift (a ^^^ b) = shift a ^^^ shift b := by
  simp only [shift, BitVec.getLsbD_xor, BitVec.ushiftRight_xor_distrib]
  cases a.getLsbD 0 <;> cases b.getLsbD 0 <;> simp
  · rw [BitVec.xor_assoc]
  · rw [BitVec.xor_assoc, BitVec.xor_assoc, BitVec.xor_comm (b >>> 1) poly]
  · rw [BitVec.xor_assoc, ← BitVec.xor_assoc poly, BitVec.xor_comm poly,
      BitVec.xor_assoc (b >>> 1), BitVec.xor_self, BitVec.xor_zero]

/-- The bit shifted out is the top bit of the result, since the polynomial's
top bit is set and a shift clears it. -/
theorem shift_eq_zero {d : BitVec 32} (h : shift d = 0#32) : d = 0#32 := by
  unfold shift at h
  split at h
  · -- a one was shifted out: bit 31 is the polynomial's, not zero
    exfalso
    have htop := congrArg (fun v : BitVec 32 => v.getLsbD 31) h
    simp [poly] at htop
  · -- a zero was shifted out: every other bit moved down by one
    rename_i hlow
    apply BitVec.eq_of_getLsbD_eq
    intro i hi
    cases i with
    | zero => simpa using hlow
    | succ i =>
        have hbit := congrArg (fun v : BitVec 32 => v.getLsbD i) h
        simpa [BitVec.getLsbD_ushiftRight, Nat.add_comm] using hbit

theorem shift_injective : Function.Injective shift := by
  intro a b h
  have hdiff : shift (a ^^^ b) = 0#32 := by rw [shift_xor, h, BitVec.xor_self]
  exact BitVec.xor_eq_zero_iff.mp (shift_eq_zero hdiff)

theorem iterate_shift_xor (n : ℕ) (a b : BitVec 32) :
    shift^[n] (a ^^^ b) = shift^[n] a ^^^ shift^[n] b := by
  induction n generalizing a b with
  | zero => rfl
  | succ n ih => rw [Function.iterate_succ_apply, shift_xor, ih]; rfl

theorem update_injective (bs : List UInt8) : Function.Injective fun c => update c bs := by
  induction bs with
  | nil => exact fun _ _ h => h
  | cons b bs ih =>
      intro a c h
      have hstep := shift_injective.iterate 8 (ih h)
      simpa using congrArg (fun v => v ^^^ lowByte b) hstep

/-! ## Bursts -/

/-- Up to four bytes, the first one lowest. -/
def window : List UInt8 → BitVec 32
  | [] => 0#32
  | b :: bs => lowByte b ^^^ (window bs <<< 8)

theorem getLsbD_lowByte_of_le {b : UInt8} {i : ℕ} (h : 8 ≤ i) :
    (lowByte b).getLsbD i = false := by
  simp [lowByte, BitVec.getLsbD_setWidth, BitVec.getLsbD_of_ge b.toBitVec i h]

/-- The bytes of a window occupy its low end. -/
theorem getLsbD_window_of_le (bs : List UInt8) {i : ℕ} (h : 8 * bs.length ≤ i) :
    (window bs).getLsbD i = false := by
  induction bs generalizing i with
  | nil => simp [window]
  | cons b bs ih =>
      simp only [List.length_cons] at h
      have hb := getLsbD_lowByte_of_le (b := b) (i := i) (by omega)
      have hbs := ih (i := i - 8) (by omega)
      simp [window, BitVec.getLsbD_xor, BitVec.getLsbD_shiftLeft, hb, hbs]

/-- Bits above the low end reach it unchanged. -/
theorem iterate_shift_of_low_clear (n : ℕ) (v : BitVec 32)
    (h : ∀ i, i < n → v.getLsbD i = false) : shift^[n] v = v >>> n := by
  induction n generalizing v with
  | zero => simp
  | succ n ih =>
      have hone : shift v = v >>> 1 := by
        have hlow : ¬ v.getLsbD 0 = true := by
          rw [h 0 (by omega)]
          decide
        rw [shift, if_neg hlow]
      rw [Function.iterate_succ_apply, hone, ih]
      · rw [← BitVec.shiftRight_add, Nat.add_comm]
      · intro i hi
        simpa [BitVec.getLsbD_ushiftRight, Nat.add_comm] using h (i + 1) (by omega)

/-- Up to three further bytes may be put into the register before a byte is
shifted out instead of after. -/
theorem iterate_shift_window (c : BitVec 32) {bs : List UInt8} (h : bs.length ≤ 3) :
    shift^[8] c ^^^ window bs = shift^[8] (c ^^^ (window bs <<< 8)) := by
  have hclear : ∀ i, i < 8 → (window bs <<< 8).getLsbD i = false := by
    intro i hi
    simp [BitVec.getLsbD_shiftLeft, hi]
  have hback : (window bs <<< 8) >>> 8 = window bs := by
    apply BitVec.eq_of_getLsbD_eq
    intro i hi
    simp only [BitVec.getLsbD_ushiftRight, BitVec.getLsbD_shiftLeft]
    by_cases hlt : 8 + i < 32
    · simp [hlt]
    · have := getLsbD_window_of_le bs (i := i) (by omega)
      simp [hlt, this]
  rw [iterate_shift_xor, iterate_shift_of_low_clear 8 _ hclear, hback]

/-- Reading at most four bytes: put them into the register, then shift. -/
theorem update_eq_iterate (c : BitVec 32) {bs : List UInt8} (h : bs.length ≤ 4) :
    update c bs = shift^[8 * bs.length] (c ^^^ window bs) := by
  induction bs generalizing c with
  | nil => simp [update, window]
  | cons b bs ih =>
      simp only [List.length_cons] at h
      rw [update, ih _ (by omega), iterate_shift_window _ (by omega), window,
        ← Function.iterate_add_apply, BitVec.xor_assoc]
      rfl

/-- A window determines its bytes. -/
theorem window_injective {xs ys : List UInt8} (hlen : xs.length = ys.length)
    (h4 : xs.length ≤ 4) (h : window xs = window ys) : xs = ys := by
  induction xs generalizing ys with
  | nil => exact (List.length_eq_zero_iff.mp hlen.symm).symm
  | cons x xs ih =>
      cases ys with
      | nil => cases hlen
      | cons y ys =>
          simp only [List.length_cons] at hlen h4
          have hbit : ∀ i, (lowByte x ^^^ (window xs <<< 8)).getLsbD i =
              (lowByte y ^^^ (window ys <<< 8)).getLsbD i := by
            intro i
            exact congrArg (fun v : BitVec 32 => v.getLsbD i) h
          -- the low eight bits are the first byte's, the others the rest's
          have hx : x = y := by
            apply UInt8.toBitVec_inj.mp
            apply BitVec.eq_of_getLsbD_eq
            intro i hi
            have hi32 : i < 32 := by omega
            simpa [BitVec.getLsbD_xor, BitVec.getLsbD_shiftLeft, lowByte,
              BitVec.getLsbD_setWidth, hi, hi32] using hbit i
          have hxs : window xs = window ys := by
            apply BitVec.eq_of_getLsbD_eq
            intro i hi
            by_cases hlt : i + 8 < 32
            · have hb := hbit (i + 8)
              have hlo : ¬ i + 8 < 8 := by omega
              simp only [BitVec.getLsbD_xor, BitVec.getLsbD_shiftLeft, hlt, hlo,
                getLsbD_lowByte_of_le (Nat.le_add_left 8 i)] at hb
              simpa only [Nat.add_sub_cancel, decide_true, decide_false, Bool.not_false,
                Bool.true_and, Bool.false_xor] using hb
            · rw [getLsbD_window_of_le xs (by omega), getLsbD_window_of_le ys (by omega)]
          rw [hx, ih (by omega) (by omega) hxs]

theorem update_ne_of_ne (c : BitVec 32) {x y : List UInt8} (hlen : x.length = y.length)
    (h4 : x.length ≤ 4) (hne : x ≠ y) : update c x ≠ update c y := by
  intro h
  rw [update_eq_iterate c h4, update_eq_iterate c (hlen ▸ h4), hlen] at h
  have hxor := shift_injective.iterate _ h
  exact hne (window_injective hlen h4 (BitVec.xor_right_inj c |>.mp hxor))

/-- CRC-32C detects every change inside four neighbouring bytes. -/
theorem castagnoli_detectsBursts : castagnoli.DetectsBursts := by
  intro a x y z hlen h4 hne h
  -- what follows the window is injective, so the registers before it agree
  have hbits := congrArg UInt32.toBitVec h
  simp only [castagnoli, update_append] at hbits
  have hupdate := update_injective z (BitVec.not_inj.mp hbits)
  exact update_ne_of_ne _ hlen h4 hne hupdate

/-! ## Moving bytes -/

/-- What is put into the register goes through it beside the rest. -/
theorem update_xor (c d : BitVec 32) (bs : List UInt8) :
    update (c ^^^ d) bs = update c bs ^^^ shift^[8 * bs.length] d := by
  induction bs generalizing c d with
  | nil => rfl
  | cons b bs ih =>
      have hcomm : c ^^^ d ^^^ lowByte b = (c ^^^ lowByte b) ^^^ d := by
        rw [BitVec.xor_assoc, BitVec.xor_comm d, BitVec.xor_assoc]
      rw [update, update, hcomm, iterate_shift_xor, ih, List.length_cons, Nat.mul_succ,
        Function.iterate_add_apply]

/-- What four bytes have become in the register `n` bytes further on: their
product with the `8 * n`-th power of the variable, reduced by the polynomial. -/
def carried (n : ℕ) (bs : List UInt8) : BitVec 32 := shift^[8 * n] (window bs)

/-- Four bytes `v` behind `mid` change the hash as four bytes `u` in front of it
do iff they are what `u` has become there. -/
theorem update_move_iff (c : BitVec 32) {u v mid : List UInt8} (hu : u.length = 4)
    (hv : v.length = 4) :
    update c ([0, 0, 0, 0] ++ (mid ++ v)) = update c (u ++ (mid ++ [0, 0, 0, 0])) ↔
      carried (4 + mid.length) u = window v := by
  have hzero : window [0, 0, 0, 0] = 0#32 := by decide
  have hfront : update c [0, 0, 0, 0] = shift^[32] c := by
    rw [update_eq_iterate c (by simp), hzero, BitVec.xor_zero]
    rfl
  have hcarried : shift^[8 * mid.length] (shift^[32] (window u)) = carried (4 + mid.length) u := by
    rw [carried, ← Function.iterate_add_apply, Nat.mul_add, Nat.add_comm]
  have hleft : update c ([0, 0, 0, 0] ++ (mid ++ v)) =
      shift^[32] (update (shift^[32] c) mid ^^^ window v) := by
    rw [update_append, update_append, hfront, update_eq_iterate _ (Nat.le_of_eq hv), hv]
  have hright : update c (u ++ (mid ++ [0, 0, 0, 0])) =
      shift^[32] (update (shift^[32] c) mid ^^^ carried (4 + mid.length) u) := by
    rw [update_append, update_append, update_eq_iterate c (Nat.le_of_eq hu), hu,
      iterate_shift_xor, update_xor, hcarried, update_eq_iterate _ (by simp), hzero,
      BitVec.xor_zero]
    rfl
  rw [hleft, hright]
  constructor
  · intro h
    exact ((BitVec.xor_right_inj _).mp (shift_injective.iterate _ h)).symm
  · intro h
    rw [h]

theorem castagnoli_eq_iff {x y : List UInt8} :
    castagnoli.crc32c x = castagnoli.crc32c y ↔ update (~~~ 0#32) x = update (~~~ 0#32) y := by
  rw [← UInt32.toBitVec_inj]
  exact BitVec.not_inj

/-- When a string with four bytes zeroed in one place and one with four bytes
zeroed further on have the same hash. -/
theorem castagnoli_move_iff {a u mid v z : List UInt8} (hu : u.length = 4) (hv : v.length = 4) :
    castagnoli.crc32c (a ++ ([0, 0, 0, 0] ++ (mid ++ v) ++ z)) =
        castagnoli.crc32c (a ++ (u ++ (mid ++ [0, 0, 0, 0]) ++ z)) ↔
      carried (4 + mid.length) u = window v := by
  rw [castagnoli_eq_iff, update_append, update_append, update_append _ a, update_append _ _ z]
  exact (update_injective z).eq_iff.trans (update_move_iff _ hu hv)

/-- The check value of the algorithm: the hash of the ASCII digits one to
nine. -/
example : castagnoli.crc32c [49, 50, 51, 52, 53, 54, 55, 56, 57] = 0xE3069283 := by
  decide +kernel

end Crc32c

end Wire
