import Mathlib.Algebra.Group.Nat.Defs
import Mathlib.Data.List.Induction
import Mathlib.Data.List.TakeWhile
import ProxyProtocol.Net

/-! # Text forms of addresses and ports

What the readers and the `Display` code of `Net` have to do with each other.

* `numeral_digitsOf`: a displayed number is a numeral, the usual way to write
  it; `readNumber_numeral` reads numerals back.
* `fromStr_display`: `IpAddr::from_str` undoes `to_string`. The v6 half follows
  the three forms of the output: IPv4-mapped, with a `::`, and in full.
* `addressText_display`: the characters of an address and how many there are.
* `addressText_of_fromStr`: no other text is an address.
-/

namespace ProxyProtocol

open Wire

/-! ## Numerals -/

/-- A number as it is usually written: digits, and no zero in front of others. -/
structure Numeral (radix : ℕ) (text : List UInt8) (n : ℕ) : Prop where
  ne_nil : text ≠ []
  digits : ∀ b ∈ text, (toDigit radix b).isSome = true
  no_zero : text.head? = some 0x30 → text.length = 1
  value : digitsValue radix text = n

/-- The byte of a digit. -/
def digitByte (d : ℕ) : UInt8 := (Nat.digitChar d).toUInt8

/-- The radices of ports and addresses. -/
def IsRadix (radix : ℕ) : Prop := radix = 10 ∨ radix = 16

theorem toDigit_digitByte {radix : ℕ} (hradix : IsRadix radix) {d : ℕ} (hd : d < radix) :
    toDigit radix (digitByte d) = some d := by
  have hten : ∀ d < 10, toDigit 10 (digitByte d) = some d := by decide
  have hsixteen : ∀ d < 16, toDigit 16 (digitByte d) = some d := by decide
  rcases hradix with rfl | rfl
  · exact hten d hd
  · exact hsixteen d hd

theorem digitsValue_concat (radix : ℕ) (text : List UInt8) (b : UInt8) :
    digitsValue radix (text ++ [b]) =
      digitsValue radix text * radix + (toDigit radix b).getD 0 := by
  simp [digitsValue]

theorem numeral_singleton {radix : ℕ} (hradix : IsRadix radix) {d : ℕ} (hd : d < radix) :
    Numeral radix [digitByte d] d where
  ne_nil := by simp
  digits := by simp [toDigit_digitByte hradix hd]
  no_zero _ := rfl
  value := by simp [digitsValue, toDigit_digitByte hradix hd]

/-- A digit behind a numeral that is not zero. -/
theorem Numeral.concat {radix : ℕ} (hradix : IsRadix radix) {text : List UInt8} {n : ℕ}
    (h : Numeral radix text n) (hn : 0 < n) {d : ℕ} (hd : d < radix) :
    Numeral radix (text ++ [digitByte d]) (n * radix + d) where
  ne_nil := by simp
  digits := by
    intro b hb
    rcases List.mem_append.mp hb with hb | hb
    · exact h.digits b hb
    · rw [List.mem_singleton.mp hb, toDigit_digitByte hradix hd]
      rfl
  no_zero := by
    intro hhead
    rw [List.head?_append_of_ne_nil _ h.ne_nil] at hhead
    -- a numeral that starts with a zero is zero
    rcases List.length_eq_one_iff.mp (h.no_zero hhead) with ⟨b, rfl⟩
    obtain rfl : b = 0x30 := by simpa using hhead
    have hzero : digitsValue radix [0x30] = 0 := by
      rcases hradix with rfl | rfl <;> decide
    have hvalue := h.value
    omega
  value := by rw [digitsValue_concat, h.value, toDigit_digitByte hradix hd, Option.getD_some]

theorem numeral_digitsOf {radix : ℕ} (hradix : IsRadix radix) (n : ℕ) :
    Numeral radix (digitsOf radix n) n := by
  have hone : 1 < radix := by
    rcases hradix with rfl | rfl <;> decide
  -- the last digit is taken off; what is left is smaller and not zero
  induction n using Nat.strong_induction_on with
  | _ n ih =>
      rw [digitsOf, Nat.toDigits_eq_if hone]
      split
      · rename_i hlt
        exact numeral_singleton hradix hlt
      · rename_i hle
        have hrec := ih (n / radix) (Nat.div_lt_self (by omega) hone)
        have hpos : 0 < n / radix := Nat.div_pos (Nat.not_lt.mp hle) (by omega)
        have hconcat := hrec.concat hradix hpos (Nat.mod_lt n (by omega))
        rw [Nat.div_add_mod'] at hconcat
        rw [List.map_append]
        exact hconcat

theorem length_digitsOf_le {radix k n : ℕ} (hradix : IsRadix radix) (hk : 0 < k)
    (hn : n < radix ^ k) : (digitsOf radix n).length ≤ k := by
  have hone : 1 < radix := by
    rcases hradix with rfl | rfl <;> decide
  rw [digitsOf, List.length_map]
  exact (Nat.length_toDigits_le_iff hone hk).mpr hn

/-- What follows is no further digit. -/
def NoDigit (radix : ℕ) (rest : List UInt8) : Prop :=
  ∀ b, rest.head? = some b → toDigit radix b = none

theorem readNumber_numeral {radix maxDigits bound : ℕ} {zeros : Bool} {text rest : List UInt8}
    {n : ℕ} (h : Numeral radix text n) (hlen : text.length ≤ maxDigits) (hbound : n ≤ bound)
    (hrest : NoDigit radix rest) :
    readNumber radix maxDigits zeros bound (text ++ rest) = some (n, rest) := by
  have htake : (text ++ rest).takeWhile (fun b => (toDigit radix b).isSome) = text := by
    rw [List.takeWhile_append_of_pos h.digits]
    cases rest with
    | nil => simp
    | cons b rest => simp [hrest b rfl]
  have hzero : ¬ (zeros = false ∧ text.head? = some 0x30 ∧ 1 < text.length) := by
    rintro ⟨-, hhead, hlong⟩
    have := h.no_zero hhead
    omega
  simp only [readNumber, htake]
  rw [if_neg (by simp [h.ne_nil, hlen]), if_neg hzero, h.value, if_pos hbound, List.drop_left]

/-! ## IPv4 -/

theorem noDigit_nil (radix : ℕ) : NoDigit radix [] := nofun

theorem noDigit_dot (rest : List UInt8) : NoDigit 10 (0x2E :: rest) := by
  rintro _ ⟨⟩
  rfl

theorem readNumber_octet (x : UInt8) {rest : List UInt8} (hrest : NoDigit 10 rest) :
    readNumber 10 3 false 255 (digitsOf 10 x.toNat ++ rest) = some (x.toNat, rest) := by
  have hx := x.toNat_lt
  exact readNumber_numeral (numeral_digitsOf (.inl rfl) _)
    (length_digitsOf_le (.inl rfl) (by decide) (by omega)) (by omega) hrest

theorem Ipv4Addr.display_new (a b c d : UInt8) :
    (Ipv4Addr.new a b c d).display =
      digitsOf 10 a.toNat ++ 0x2E :: (digitsOf 10 b.toNat ++ 0x2E ::
        (digitsOf 10 c.toNat ++ 0x2E :: digitsOf 10 d.toNat)) := by
  simp [display, List.intercalate]

theorem readIpv4Addr_display (addr : Ipv4Addr) {rest : List UInt8} (hrest : NoDigit 10 rest) :
    readIpv4Addr (addr.display ++ rest) = some (addr, rest) := by
  rcases addr.exists_octets with ⟨a, b, c, d, rfl⟩
  rw [Ipv4Addr.display_new]
  simp only [List.append_assoc, List.cons_append]
  simp [readIpv4Addr, readSeparator, readGivenChar, readNumber_octet, noDigit_dot, hrest]

/-! ## Groups of an IPv6 address -/

/-- A group ends: with the text, or at a colon. -/
def Boundary (rest : List UInt8) : Prop := rest = [] ∨ ∃ r, rest = 0x3A :: r

/-- No further group starts: the text ends, or two colons follow. -/
def Stops (rest : List UInt8) : Prop := rest = [] ∨ ∃ r, rest = 0x3A :: 0x3A :: r

theorem Stops.boundary {rest : List UInt8} (h : Stops rest) : Boundary rest := by
  rcases h with rfl | ⟨r, rfl⟩
  · exact .inl rfl
  · exact .inr ⟨_, rfl⟩

theorem Boundary.noDigit {rest : List UInt8} (h : Boundary rest) : NoDigit 16 rest := by
  rcases h with rfl | ⟨r, rfl⟩
  · exact noDigit_nil 16
  · rintro _ ⟨⟩
    rfl

/-- What a number leaves behind starts after all its digits. -/
theorem rest_of_readNumber {radix maxDigits bound : ℕ} {zeros : Bool} {s rest : List UInt8} {n : ℕ}
    (h : readNumber radix maxDigits zeros bound s = some (n, rest)) :
    rest = s.dropWhile fun b => (toDigit radix b).isSome := by
  simp only [readNumber] at h
  split at h
  · cases h
  · split at h
    · cases h
    · split at h
      · cases h
        conv_lhs => rw [← List.takeWhile_append_dropWhile (p := fun b => (toDigit radix b).isSome)
          (l := s)]
        exact List.drop_left' (by simp)
      · cases h

/-- An IPv4 address has a dot behind its first digits. -/
theorem readIpv4Addr_eq_none {s : List UInt8}
    (h : (s.dropWhile fun b => (toDigit 10 b).isSome).head? ≠ some 0x2E) :
    readIpv4Addr s = none := by
  unfold readIpv4Addr
  cases hfirst : readSeparator 0x2E 0 (readNumber 10 3 false 255) s with
  | none => rfl
  | some p =>
      rcases p with ⟨a, rest⟩
      obtain rfl := rest_of_readNumber hfirst
      have hdot : readGivenChar 0x2E (s.dropWhile fun b => (toDigit 10 b).isSome) = none := by
        cases hrest : s.dropWhile fun b => (toDigit 10 b).isSome with
        | nil => rfl
        | cons b rest =>
            rw [hrest] at h
            have hne : b ≠ 0x2E := by simpa using h
            simp [readGivenChar, hne]
      simp [readSeparator, hdot]

theorem readIpv4Addr_colon (r : List UInt8) : readIpv4Addr (0x3A :: r) = none :=
  readIpv4Addr_eq_none (by simp [toDigit])

theorem readIpv4Addr_group (g : UInt16) {rest : List UInt8} (hrest : Boundary rest) :
    readIpv4Addr (digitsOf 16 g.toNat ++ rest) = none := by
  apply readIpv4Addr_eq_none
  rw [List.dropWhile_append]
  split
  · -- all digits of the group are decimal
    rcases hrest with rfl | ⟨r, rfl⟩
    · simp
    · simp [toDigit]
  · rename_i hletter
    -- the first letter of the group is no dot
    cases hdrop : (digitsOf 16 g.toNat).dropWhile fun b => (toDigit 10 b).isSome with
    | nil => exact absurd (by rw [hdrop]; rfl) hletter
    | cons b rest' =>
        intro hhead
        have hmem : b ∈ digitsOf 16 g.toNat := by
          apply (List.dropWhile_sublist fun b => (toDigit 10 b).isSome).subset
          rw [hdrop]
          simp
        have hdigit := (numeral_digitsOf (.inr rfl) g.toNat).digits b hmem
        obtain rfl : b = 0x2E := by simpa using hhead
        simp [toDigit] at hdigit

theorem readNumber_group (g : UInt16) {rest : List UInt8} (hrest : Boundary rest) :
    readNumber 16 4 true 65535 (digitsOf 16 g.toNat ++ rest) = some (g.toNat, rest) := by
  have hg := g.toNat_lt
  exact readNumber_numeral (numeral_digitsOf (.inr rfl) _)
    (length_digitsOf_le (.inr rfl) (by decide) (by omega)) (by omega) hrest.noDigit

theorem readNumber_colon (r : List UInt8) : readNumber 16 4 true 65535 (0x3A :: r) = none := by
  simp [readNumber, toDigit]

/-- The colon in front of every group but the first. -/
def colonBefore (index : ℕ) : List UInt8 := if 0 < index then [0x3A] else []

theorem readSeparator_colonBefore {α : Type} (index : ℕ)
    (inner : List UInt8 → Option (α × List UInt8)) (s : List UInt8) :
    readSeparator 0x3A index inner (colonBefore index ++ s) = inner s := by
  unfold readSeparator colonBefore
  split <;> rfl

/-- One group is read. -/
theorem readGroups_group (limit remaining : ℕ) (g : UInt16) {rest : List UInt8}
    (hrest : Boundary rest) :
    readGroups limit (remaining + 1)
        (colonBefore (limit - (remaining + 1)) ++ (digitsOf 16 g.toNat ++ rest)) =
      (g :: (readGroups limit remaining rest).1, (readGroups limit remaining rest).2) := by
  rw [readGroups]
  simp only [readSeparator_colonBefore, readIpv4Addr_group g hrest, readNumber_group g hrest,
    ite_self, UInt16.ofNat_toNat]

/-- No group is read. -/
theorem readGroups_stop (limit remaining : ℕ) {rest : List UInt8} (hrest : Stops rest) :
    readGroups limit remaining rest = ([], false, rest) := by
  cases remaining with
  | zero => rfl
  | succ remaining =>
      have hsep : ∀ {α : Type} (index : ℕ) (inner : List UInt8 → Option (α × List UInt8)),
          inner [] = none → (∀ r, inner (0x3A :: r) = none) →
          readSeparator 0x3A index inner rest = none := by
        intro α index inner hnil hcolon
        unfold readSeparator
        split
        · rcases hrest with rfl | ⟨r, rfl⟩
          · rfl
          · exact hcolon r
        · rcases hrest with rfl | ⟨r, rfl⟩
          · exact hnil
          · exact hcolon _
      rw [readGroups]
      simp only [hsep _ readIpv4Addr rfl readIpv4Addr_colon,
        hsep _ (readNumber 16 4 true 65535) rfl readNumber_colon, ite_self]

/-- The groups from `index` on. -/
def groupsFrom : ℕ → List UInt16 → List UInt8
  | _, [] => []
  | index, g :: gs => colonBefore index ++ (digitsOf 16 g.toNat ++ groupsFrom (index + 1) gs)

theorem boundary_groupsFrom (index : ℕ) (gs : List UInt16) {rest : List UInt8}
    (hrest : Stops rest) : Boundary (groupsFrom (index + 1) gs ++ rest) := by
  cases gs with
  | nil => exact hrest.boundary
  | cons g gs => exact .inr ⟨_, rfl⟩

/-- All groups are read. -/
theorem readGroups_groupsFrom {limit remaining : ℕ} {gs : List UInt16} (hle : remaining ≤ limit)
    (hlen : gs.length ≤ remaining) {rest : List UInt8} (hrest : Stops rest) :
    readGroups limit remaining (groupsFrom (limit - remaining) gs ++ rest) =
      (gs, false, rest) := by
  induction gs generalizing remaining with
  | nil => exact readGroups_stop limit remaining hrest
  | cons g gs ih =>
      simp only [List.length_cons] at hlen
      obtain ⟨remaining, rfl⟩ : ∃ k, remaining = k + 1 := ⟨remaining - 1, by omega⟩
      have hrec := @ih remaining (by omega) (by omega)
      have hindex : limit - remaining = limit - (remaining + 1) + 1 := by omega
      rw [hindex] at hrec
      simp only [groupsFrom, List.append_assoc]
      rw [readGroups_group limit remaining g (boundary_groupsFrom _ gs hrest), hrec]

theorem displaySegments_eq (gs : List UInt16) : displaySegments gs = groupsFrom 0 gs := by
  have htail : ∀ (index : ℕ) (gs : List UInt16), groupsFrom (index + 1) gs =
      gs.flatMap fun g => 0x3A :: digitsOf 16 g.toNat := by
    intro index gs
    induction gs generalizing index with
    | nil => rfl
    | cons g gs ih =>
        rw [groupsFrom, ih]
        rfl
  have hjoin : ∀ (g : UInt16) (gs : List UInt16), displaySegments (g :: gs) =
      digitsOf 16 g.toNat ++ gs.flatMap fun g => 0x3A :: digitsOf 16 g.toNat := by
    intro g gs
    induction gs generalizing g with
    | nil => simp [displaySegments]
    | cons next gs ih =>
        rw [List.flatMap_cons, List.cons_append, ← ih, displaySegments, List.map_cons,
          List.map_cons, List.intercalate_cons_cons, List.append_assoc]
        rfl
  cases gs with
  | nil => rfl
  | cons g gs =>
      rw [hjoin, groupsFrom, htail]
      rfl

/-! ## IPv6 -/

theorem flatMap_pairs (k : ℕ) {bytes : List UInt8} (h : bytes.length = 2 * k) :
    (pairs bytes).flatMap be16Bytes = bytes ∧ (pairs bytes).length = k := by
  induction k generalizing bytes with
  | zero =>
      obtain rfl := List.length_eq_zero_iff.mp h
      exact ⟨rfl, rfl⟩
  | succ k ih =>
      match bytes with
      | [] => simp at h
      | [_] =>
          simp at h
          omega
      | hi :: lo :: rest =>
          simp only [List.length_cons] at h
          rcases @ih rest (by omega) with ⟨hbytes, hlen⟩
          refine ⟨?_, ?_⟩
          · rw [pairs, List.flatMap_cons, hbytes, be16Bytes_be16]
            rfl
          · rw [pairs, List.length_cons, hlen]

theorem Ipv6Addr.length_segments (addr : Ipv6Addr) : (pairs addr.octets.bytes).length = 8 :=
  (flatMap_pairs 8 addr.octets.length_eq).2

theorem Ipv6Addr.ofSegments_pairs (addr : Ipv6Addr) :
    ofSegments (pairs addr.octets.bytes) = some addr := by
  rw [ofSegments, (flatMap_pairs 8 addr.octets.length_eq).1,
    Octets.tryFrom_of_length addr.octets.length_eq]
  rfl

/-- Eight groups. -/
theorem readIpv6Addr_full {gs : List UInt16} (hlen : gs.length = 8) :
    readIpv6Addr (displaySegments gs) = (Ipv6Addr.ofSegments gs).map fun addr => (addr, []) := by
  have hgroups : readGroups 8 8 (displaySegments gs) = (gs, false, []) := by
    rw [displaySegments_eq]
    simpa using readGroups_groupsFrom (Nat.le_refl 8) (Nat.le_of_eq hlen) (.inl rfl)
  rw [readIpv6Addr, hgroups]
  simp only [hlen, if_true]
  cases Ipv6Addr.ofSegments gs <;> rfl

/-- Fewer groups around two colons. -/
theorem readIpv6Addr_compressed {head tail : List UInt16} (hlen : head.length + tail.length ≤ 7) :
    readIpv6Addr (displaySegments head ++ [0x3A, 0x3A] ++ displaySegments tail) =
      (Ipv6Addr.ofSegments (head ++ List.replicate (8 - head.length - tail.length) 0 ++ tail)).map
        fun addr => (addr, []) := by
  have hhead : readGroups 8 8 (displaySegments head ++ [0x3A, 0x3A] ++ displaySegments tail) =
      (head, false, [0x3A, 0x3A] ++ displaySegments tail) := by
    rw [displaySegments_eq, List.append_assoc]
    exact readGroups_groupsFrom (Nat.le_refl 8) (by omega) (.inr ⟨_, rfl⟩)
  have htail : readGroups (8 - (head.length + 1)) (8 - (head.length + 1)) (displaySegments tail) =
      (tail, false, []) := by
    have h := @readGroups_groupsFrom (8 - (head.length + 1)) (8 - (head.length + 1)) tail
      (Nat.le_refl _) (by omega) [] (.inl rfl)
    rw [Nat.sub_self, List.append_nil] at h
    rw [displaySegments_eq, h]
  rw [readIpv6Addr, hhead]
  simp only [show ¬ head.length = 8 by omega, if_false, Bool.false_eq_true, List.cons_append,
    List.nil_append, readGivenChar, if_true, Option.bind_eq_bind, Option.bind_some, htail]
  cases Ipv6Addr.ofSegments
    (head ++ List.replicate (8 - head.length - tail.length) 0 ++ tail) <;> rfl

/-- An IPv4-mapped address. -/
theorem readIpv6Addr_mapped (a b c d : UInt8) :
    readIpv6Addr ([0x3A, 0x3A, 0x66, 0x66, 0x66, 0x66, 0x3A] ++ (Ipv4Addr.new a b c d).display) =
      some (⟨⟨[0, 0, 0, 0, 0, 0, 0, 0, 0, 0, 0xFF, 0xFF, a, b, c, d], rfl⟩⟩, []) := by
  have hembedded : readIpv4Addr (Ipv4Addr.new a b c d).display = some (.new a b c d, []) := by
    simpa using readIpv4Addr_display (.new a b c d) (noDigit_nil 10)
  have hhead := @readGroups_stop 8 8 ([0x3A, 0x3A, 0x66, 0x66, 0x66, 0x66, 0x3A] ++
    (Ipv4Addr.new a b c d).display) (.inr ⟨_, rfl⟩)
  have htail : readGroups 7 7 ([0x66, 0x66, 0x66, 0x66, 0x3A] ++ (Ipv4Addr.new a b c d).display) =
      ([0xFFFF, be16 a b, be16 c d], true, []) := by
    have hgroup := @readGroups_group 7 6 0xFFFF (0x3A :: (Ipv4Addr.new a b c d).display)
      (.inr ⟨_, rfl⟩)
    have hlast : readGroups 7 6 (0x3A :: (Ipv4Addr.new a b c d).display) =
        ([be16 a b, be16 c d], true, []) := by
      simp [readGroups, readSeparator, readGivenChar, hembedded]
    rw [hlast] at hgroup
    exact hgroup
  have hsegments : Ipv6Addr.ofSegments [0, 0, 0, 0, 0, 0xFFFF, be16 a b, be16 c d] =
      some ⟨⟨[0, 0, 0, 0, 0, 0, 0, 0, 0, 0, 0xFF, 0xFF, a, b, c, d], rfl⟩⟩ := by
    simp only [Ipv6Addr.ofSegments, List.flatMap_cons, List.flatMap_nil, be16Bytes_be16]
    rfl
  rw [readIpv6Addr, hhead]
  simp only [List.length_nil, List.cons_append, List.nil_append, readGivenChar, if_true,
    Option.bind_eq_bind, Option.bind_some] at htail ⊢
  simp only [htail]
  rw [if_neg (by decide), if_neg (by decide)]
  change (Ipv6Addr.ofSegments [0, 0, 0, 0, 0, 0xFFFF, be16 a b, be16 c d]).bind _ = _
  rw [hsegments]
  rfl

/-! ### The longest run of zeros -/

/-- One step of the search for the longest run. -/
def zeroStep (acc : ℕ × (ℕ × ℕ) × (ℕ × ℕ)) (segment : UInt16) : ℕ × (ℕ × ℕ) × (ℕ × ℕ) :=
  let (i, current, longest) := acc
  if segment = 0 then
    let current := if current.2 = 0 then (i, 1) else (current.1, current.2 + 1)
    (i + 1, current, if longest.2 < current.2 then current else longest)
  else (i + 1, (0, 0), longest)

/-- The segments of a run (start and length) are zero. -/
def ZeroRun (segments : List UInt16) (run : ℕ × ℕ) : Prop :=
  ∀ j < run.2, segments[run.1 + j]? = some 0

theorem ZeroRun.concat {segments : List UInt16} {run : ℕ × ℕ} (h : ZeroRun segments run)
    (segment : UInt16) : ZeroRun (segments ++ [segment]) run := by
  intro j hj
  rcases List.getElem?_eq_some_iff.mp (h j hj) with ⟨hlt, -⟩
  rw [List.getElem?_append_left hlt]
  exact h j hj

theorem ZeroRun.extend {segments : List UInt16} {run : ℕ × ℕ} (h : ZeroRun segments run)
    (hend : run.1 + run.2 = segments.length) :
    ZeroRun (segments ++ [0]) (run.1, run.2 + 1) := by
  intro j hj
  rcases Nat.lt_succ_iff_lt_or_eq.mp hj with hlt | rfl
  · exact h.concat 0 j hlt
  · simp [hend]

/-- What the search knows: the run that ends here and the longest one. -/
structure ScanInv (segments : List UInt16) (acc : ℕ × (ℕ × ℕ) × (ℕ × ℕ)) : Prop where
  index : acc.1 = segments.length
  current_end : acc.2.1.2 ≠ 0 → acc.2.1.1 + acc.2.1.2 = segments.length
  current : ZeroRun segments acc.2.1
  longest : ZeroRun segments acc.2.2

theorem zeroStep_inv {segments : List UInt16} {acc : ℕ × (ℕ × ℕ) × (ℕ × ℕ)}
    (h : ScanInv segments acc) (segment : UInt16) :
    ScanInv (segments ++ [segment]) (zeroStep acc segment) := by
  rcases acc with ⟨i, ⟨start, len⟩, longest⟩
  rcases h with ⟨rfl, hend, hcurrent, hlongest⟩
  simp only at hend hcurrent hlongest
  by_cases hzero : segment = 0
  · subst hzero
    -- the run that ends here, after this segment
    have hrun : ∃ current : ℕ × ℕ, (if len = 0 then (segments.length, 1) else (start, len + 1)) =
        current ∧ current.1 + current.2 = segments.length + 1 ∧
        ZeroRun (segments ++ [0]) current := by
      by_cases hlen : len = 0
      · refine ⟨_, if_pos hlen, rfl, ?_⟩
        exact @ZeroRun.extend segments (segments.length, 0) nofun rfl
      · refine ⟨_, if_neg hlen, ?_, hcurrent.extend (hend hlen)⟩
        have := hend hlen
        simp only
        omega
    rcases hrun with ⟨current, heq, hcurrentEnd, hcurrentRun⟩
    simp only [zeroStep, if_true, heq]
    refine ⟨by simp, fun _ => by simp [hcurrentEnd], hcurrentRun, ?_⟩
    simp only
    split
    · exact hcurrentRun
    · exact hlongest.concat 0
  · simp only [zeroStep, if_neg hzero]
    exact ⟨by simp, nofun, nofun, hlongest.concat segment⟩

theorem longestZeros_run (segments : List UInt16) :
    ZeroRun segments (longestZeros segments) := by
  have hscan : ScanInv segments (segments.foldl zeroStep (0, (0, 0), (0, 0))) := by
    induction segments using List.reverseRecOn with
    | nil => exact ⟨rfl, nofun, nofun, nofun⟩
    | append_singleton segments segment ih =>
        rw [List.foldl_concat]
        exact zeroStep_inv ih segment
  exact hscan.longest

/-- The segments around a run of zeros. -/
theorem ZeroRun.eq_append {segments : List UInt16} {start len : ℕ}
    (h : ZeroRun segments (start, len)) (hlen : 0 < len) :
    start + len ≤ segments.length ∧
      segments = segments.take start ++ List.replicate len 0 ++ segments.drop (start + len) := by
  have hle : start + len ≤ segments.length := by
    rcases List.getElem?_eq_some_iff.mp (h (len - 1) (by simp only; omega)) with ⟨hlt, -⟩
    simp only at hlt
    omega
  refine ⟨hle, ?_⟩
  have hzeros : (segments.drop start).take len = List.replicate len 0 := by
    apply List.ext_getElem?
    intro j
    by_cases hj : j < len
    · rw [List.getElem?_take_of_lt hj, List.getElem?_drop, h j hj, List.getElem?_replicate_of_lt hj]
    · rw [List.getElem?_eq_none (by rw [List.length_take]; omega),
        List.getElem?_eq_none (by rw [List.length_replicate]; omega)]
  rw [← hzeros, List.append_assoc, ← List.drop_drop, List.take_append_drop, List.take_append_drop]

/-! ### Display -/

/-- The three forms of a displayed IPv6 address. -/
theorem Ipv6Addr.display_cases (addr : Ipv6Addr) :
    (∃ a b c d, addr = ⟨⟨[0, 0, 0, 0, 0, 0, 0, 0, 0, 0, 0xFF, 0xFF, a, b, c, d], rfl⟩⟩ ∧
      addr.display =
        [0x3A, 0x3A, 0x66, 0x66, 0x66, 0x66, 0x3A] ++ (Ipv4Addr.new a b c d).display) ∨
    (∃ start len, 1 < len ∧ ZeroRun (pairs addr.octets.bytes) (start, len) ∧
      addr.display = displaySegments ((pairs addr.octets.bytes).take start) ++ [0x3A, 0x3A] ++
        displaySegments ((pairs addr.octets.bytes).drop (start + len))) ∨
    addr.display = displaySegments (pairs addr.octets.bytes) := by
  rcases addr with ⟨⟨bytes, hlen⟩⟩
  unfold display
  simp only
  split
  · rename_i a b c d
    exact .inl ⟨a, b, c, d, rfl, rfl⟩
  · have hrun := longestZeros_run (pairs bytes)
    generalize longestZeros (pairs bytes) = run at hrun
    rcases run with ⟨start, len⟩
    simp only
    split
    · rename_i hlong
      exact .inr (.inl ⟨start, len, hlong, hrun, rfl⟩)
    · exact .inr (.inr rfl)

theorem readIpv4Addr_segments {gs : List UInt16} (hne : gs ≠ []) {rest : List UInt8}
    (hrest : Stops rest) : readIpv4Addr (displaySegments gs ++ rest) = none := by
  rcases List.exists_cons_of_ne_nil hne with ⟨g, gs, rfl⟩
  rw [displaySegments_eq]
  simp only [groupsFrom, colonBefore, Nat.lt_irrefl, if_false, List.nil_append, List.append_assoc]
  exact readIpv4Addr_group g (boundary_groupsFrom 0 gs hrest)

theorem readIpv6Addr_display (addr : Ipv6Addr) :
    readIpv4Addr addr.display = none ∧ readIpv6Addr addr.display = some (addr, []) := by
  have hlen := addr.length_segments
  rcases addr.display_cases with ⟨a, b, c, d, rfl, hdisplay⟩ | ⟨start, len, hlong, hrun, hdisplay⟩ |
    hdisplay
  · rw [hdisplay]
    exact ⟨readIpv4Addr_colon _, readIpv6Addr_mapped a b c d⟩
  · rcases hrun.eq_append (by omega) with ⟨hle, hsegments⟩
    rw [hdisplay]
    refine ⟨?_, ?_⟩
    · rw [List.append_assoc]
      by_cases hne : (pairs addr.octets.bytes).take start = []
      · rw [hne]
        exact readIpv4Addr_colon _
      · exact readIpv4Addr_segments hne (.inr ⟨_, rfl⟩)
    · have hzeros : 8 - ((pairs addr.octets.bytes).take start).length -
          ((pairs addr.octets.bytes).drop (start + len)).length = len := by
        rw [List.length_take, List.length_drop]
        omega
      rw [readIpv6Addr_compressed (by rw [List.length_take, List.length_drop]; omega), hzeros,
        ← hsegments, addr.ofSegments_pairs]
      rfl
  · rw [hdisplay, readIpv6Addr_full hlen, addr.ofSegments_pairs]
    refine ⟨?_, rfl⟩
    have hne : pairs addr.octets.bytes ≠ [] := by
      intro hnil
      rw [hnil] at hlen
      cases hlen
    simpa using readIpv4Addr_segments hne (.inl rfl)

/-- `IpAddr::from_str` undoes `to_string`. -/
theorem fromStr_display (ip : IpAddr) : IpAddr.fromStr ip.display = some ip := by
  cases ip with
  | v4 addr =>
      have hread := readIpv4Addr_display addr (noDigit_nil 10)
      rw [List.append_nil] at hread
      simp [IpAddr.fromStr, IpAddr.display, hread]
  | v6 addr =>
      rcases readIpv6Addr_display addr with ⟨hno, hread⟩
      simp [IpAddr.fromStr, IpAddr.display, hno, hread]

/-! ## Characters -/

/-- The bytes of addresses and ports: between `.` and `f`, so no space, CR or
LF, and ASCII. -/
def AddressText (text : List UInt8) : Prop := ∀ b ∈ text, 0x2E ≤ b.toNat ∧ b.toNat ≤ 0x66

theorem AddressText.append {s t : List UInt8} (hs : AddressText s) (ht : AddressText t) :
    AddressText (s ++ t) := by
  intro b hb
  rcases List.mem_append.mp hb with hb | hb
  · exact hs b hb
  · exact ht b hb

theorem AddressText.cons {b : UInt8} {t : List UInt8} (hb : 0x2E ≤ b.toNat ∧ b.toNat ≤ 0x66)
    (ht : AddressText t) : AddressText (b :: t) := by
  intro c hc
  rcases List.mem_cons.mp hc with rfl | hc
  · exact hb
  · exact ht c hc

theorem AddressText.not_mem {text : List UInt8} (h : AddressText text) {b : UInt8}
    (hb : b.toNat < 0x2E) : b ∉ text := by
  intro hmem
  have := h b hmem
  omega

theorem AddressText.ascii {text : List UInt8} (h : AddressText text) :
    ∀ b ∈ text, b.toNat ≤ 0x7F := by
  intro b hb
  have := h b hb
  omega

theorem addressText_digits {radix : ℕ} {text : List UInt8}
    (h : ∀ b ∈ text, (toDigit radix b).isSome = true) : AddressText text := by
  intro b hb
  have hdigit := h b hb
  simp only [toDigit] at hdigit
  split at hdigit
  · omega
  · split at hdigit
    · omega
    · split at hdigit
      · omega
      · simp at hdigit

theorem addressText_digitsOf {radix : ℕ} (hradix : IsRadix radix) (n : ℕ) :
    AddressText (digitsOf radix n) :=
  addressText_digits (numeral_digitsOf hradix n).digits

theorem addressText_groupsFrom (index : ℕ) (gs : List UInt16) :
    AddressText (groupsFrom index gs) ∧ (groupsFrom index gs).length ≤ 5 * gs.length := by
  induction gs generalizing index with
  | nil => exact ⟨nofun, Nat.le_refl _⟩
  | cons g gs ih =>
      rcases ih (index + 1) with ⟨htext, hlen⟩
      have hg := g.toNat_lt
      have hdigits := @length_digitsOf_le 16 4 g.toNat (.inr rfl) (by decide) (by omega)
      have hcolon : AddressText (colonBefore index) ∧ (colonBefore index).length ≤ 1 := by
        unfold colonBefore
        split
        · exact ⟨.cons (by decide) nofun, Nat.le_refl _⟩
        · exact ⟨nofun, Nat.zero_le _⟩
      refine ⟨hcolon.1.append ((addressText_digitsOf (.inr rfl) _).append htext), ?_⟩
      simp only [groupsFrom, List.length_append, List.length_cons]
      omega

theorem addressText_segments (gs : List UInt16) :
    AddressText (displaySegments gs) ∧ (displaySegments gs).length ≤ 5 * gs.length - 1 := by
  rw [displaySegments_eq]
  refine ⟨(addressText_groupsFrom 0 gs).1, ?_⟩
  cases gs with
  | nil => exact Nat.le_refl _
  | cons g gs =>
      -- no colon stands in front of the first group
      have hg := g.toNat_lt
      have hdigits := @length_digitsOf_le 16 4 g.toNat (.inr rfl) (by decide) (by omega)
      have htail := (addressText_groupsFrom (0 + 1) gs).2
      simp only [groupsFrom, colonBefore, Nat.lt_irrefl, if_false, List.nil_append,
        List.length_append, List.length_cons]
      omega

theorem addressText_ipv4 (addr : Ipv4Addr) :
    AddressText addr.display ∧ addr.display.length ≤ 15 := by
  rcases addr.exists_octets with ⟨a, b, c, d, rfl⟩
  have htext : ∀ x : UInt8, AddressText (digitsOf 10 x.toNat) :=
    fun x => addressText_digitsOf (.inl rfl) _
  have hlen : ∀ x : UInt8, (digitsOf 10 x.toNat).length ≤ 3 := by
    intro x
    have hx := x.toNat_lt
    exact length_digitsOf_le (.inl rfl) (by decide) (by omega)
  rw [Ipv4Addr.display_new]
  refine ⟨?_, ?_⟩
  · exact (htext a).append (.cons (by decide) ((htext b).append (.cons (by decide)
      ((htext c).append (.cons (by decide) (htext d))))))
  · have ha := hlen a
    have hb := hlen b
    have hc := hlen c
    have hd := hlen d
    simp only [List.length_append, List.length_cons]
    omega

theorem addressText_ipv6 (addr : Ipv6Addr) :
    AddressText addr.display ∧ addr.display.length ≤ 39 := by
  have hlen := addr.length_segments
  have hcolons : AddressText [0x3A, 0x3A] := .cons (by decide) (.cons (by decide) nofun)
  rcases addr.display_cases with ⟨a, b, c, d, -, hdisplay⟩ | ⟨start, len, hlong, hrun, hdisplay⟩ |
    hdisplay
  · rcases addressText_ipv4 (.new a b c d) with ⟨htext, hle⟩
    rw [hdisplay]
    refine ⟨.append (by simp [AddressText]) htext, ?_⟩
    simp only [List.length_append, List.length_cons, List.length_nil]
    omega
  · rcases hrun.eq_append (by omega) with ⟨hle, -⟩
    rcases addressText_segments ((pairs addr.octets.bytes).take start) with ⟨hhead, hheadLen⟩
    rcases addressText_segments ((pairs addr.octets.bytes).drop (start + len)) with
        ⟨htail, htailLen⟩
    rw [List.length_take] at hheadLen
    rw [List.length_drop] at htailLen
    rw [hdisplay]
    refine ⟨(hhead.append hcolons).append htail, ?_⟩
    simp only [List.length_append, List.length_cons, List.length_nil]
    omega
  · rcases addressText_segments (pairs addr.octets.bytes) with ⟨htext, hle⟩
    rw [hdisplay]
    exact ⟨htext, by omega⟩

theorem addressText_display (ip : IpAddr) :
    AddressText ip.display ∧ ip.display.length ≤ 39 := by
  cases ip with
  | v4 addr =>
      rcases addressText_ipv4 addr with ⟨htext, hle⟩
      exact ⟨htext, by simp only [IpAddr.display]; omega⟩
  | v6 addr => exact addressText_ipv6 addr

/-! ## Only such texts are addresses -/

/-- A reader passed over address characters. -/
def Consumes (s rest : List UInt8) : Prop := ∃ text, s = text ++ rest ∧ AddressText text

theorem Consumes.refl (s : List UInt8) : Consumes s s := ⟨[], rfl, nofun⟩

theorem Consumes.trans {s t u : List UInt8} (hst : Consumes s t) (htu : Consumes t u) :
    Consumes s u := by
  rcases hst with ⟨a, rfl, ha⟩
  rcases htu with ⟨b, rfl, hb⟩
  exact ⟨a ++ b, by rw [List.append_assoc], ha.append hb⟩

theorem readNumber_consumes {radix maxDigits bound : ℕ} {zeros : Bool}
    {s rest : List UInt8} {n : ℕ}
    (h : readNumber radix maxDigits zeros bound s = some (n, rest)) : Consumes s rest := by
  rw [rest_of_readNumber h]
  refine ⟨_, List.takeWhile_append_dropWhile.symm, @addressText_digits radix _ ?_⟩
  intro b hb
  have hdigit := List.mem_takeWhile_imp hb
  exact hdigit

theorem readGivenChar_consumes {target : UInt8}
    (htarget : 0x2E ≤ target.toNat ∧ target.toNat ≤ 0x66) {s rest : List UInt8}
    (h : readGivenChar target s = some rest) : Consumes s rest := by
  cases s with
  | nil => cases h
  | cons b s =>
      simp only [readGivenChar] at h
      split at h
      · rename_i hb
        cases h
        subst hb
        exact ⟨[b], rfl, .cons htarget nofun⟩
      · cases h

theorem readSeparator_consumes {α : Type} {sep : UInt8}
    (hsep : 0x2E ≤ sep.toNat ∧ sep.toNat ≤ 0x66) {index : ℕ}
    {inner : List UInt8 → Option (α × List UInt8)}
    (hinner : ∀ {s v rest}, inner s = some (v, rest) → Consumes s rest) {s rest : List UInt8}
    {v : α} (h : readSeparator sep index inner s = some (v, rest)) : Consumes s rest := by
  unfold readSeparator at h
  split at h
  · rcases Option.bind_eq_some_iff.mp h with ⟨t, ht, hrest⟩
    exact (readGivenChar_consumes hsep ht).trans (hinner hrest)
  · exact hinner h

theorem readIpv4Addr_consumes {s rest : List UInt8} {addr : Ipv4Addr}
    (h : readIpv4Addr s = some (addr, rest)) : Consumes s rest := by
  have hoctet : ∀ {index s v rest},
      readSeparator 0x2E index (readNumber 10 3 false 255) s = some (v, rest) → Consumes s rest :=
    readSeparator_consumes (by decide) readNumber_consumes
  simp only [readIpv4Addr, Option.bind_eq_bind, Option.bind_eq_some_iff] at h
  rcases h with ⟨⟨a, s₁⟩, h₁, ⟨b, s₂⟩, h₂, ⟨c, s₃⟩, h₃, ⟨d, s₄⟩, h₄, h⟩
  cases h
  exact (hoctet h₁).trans ((hoctet h₂).trans ((hoctet h₃).trans (hoctet h₄)))

theorem readGroups_consumes (limit remaining : ℕ) (s : List UInt8) :
    Consumes s (readGroups limit remaining s).2.2 := by
  induction remaining generalizing s with
  | zero => exact .refl s
  | succ remaining ih =>
      rw [readGroups]
      simp only
      split
      · rename_i v4 rest hembedded
        have hconsumes : Consumes s rest := by
          split at hembedded
          · exact readSeparator_consumes (by decide) readIpv4Addr_consumes hembedded
          · cases hembedded
        split <;> exact hconsumes
      · split
        · rename_i g rest hgroup
          exact (readSeparator_consumes (by decide) readNumber_consumes hgroup).trans (ih rest)
        · exact .refl s

theorem readIpv6Addr_consumes {s rest : List UInt8} {addr : Ipv6Addr}
    (h : readIpv6Addr s = some (addr, rest)) : Consumes s rest := by
  have hhead := readGroups_consumes 8 8 s
  rw [readIpv6Addr] at h
  generalize readGroups 8 8 s = groups at h hhead
  rcases groups with ⟨head, headIpv4, s₁⟩
  simp only at h hhead
  split at h
  · rcases Option.bind_eq_some_iff.mp h with ⟨addr', -, hok⟩
    cases hok
    exact hhead
  · split at h
    · cases h
    · simp only [Option.bind_eq_bind, Option.bind_eq_some_iff] at h
      rcases h with ⟨s₂, h₂, s₃, h₃, addr', -, hok⟩
      cases hok
      have hcolon : 0x2E ≤ (0x3A : UInt8).toNat ∧ (0x3A : UInt8).toNat ≤ 0x66 := by decide
      exact hhead.trans ((readGivenChar_consumes hcolon h₂).trans
        ((readGivenChar_consumes hcolon h₃).trans (readGroups_consumes _ _ s₃)))

theorem addressText_of_fromStr {text : List UInt8} {ip : IpAddr}
    (h : IpAddr.fromStr text = some ip) : AddressText text := by
  have hall : ∀ {s}, Consumes s [] → AddressText s := by
    rintro s ⟨t, rfl, ht⟩
    rwa [List.append_nil]
  simp only [IpAddr.fromStr] at h
  cases hv4 : readIpv4Addr text with
  | some p =>
      rcases p with ⟨addr, rest⟩
      rw [hv4] at h
      cases rest with
      | nil => exact hall (readIpv4Addr_consumes hv4)
      | cons b rest => cases h
  | none =>
      rw [hv4] at h
      cases hv6 : readIpv6Addr text with
      | none =>
          rw [hv6] at h
          cases h
      | some p =>
          rcases p with ⟨addr, rest⟩
          rw [hv6] at h
          cases rest with
          | nil => exact hall (readIpv6Addr_consumes hv6)
          | cons b rest => cases h

end ProxyProtocol
