import Mathlib.Data.Nat.Init
import ProxyProtocol.Lib.Bytes

/-! # Type–length–value framing

A record is a type byte, a big-endian 16-bit length and that many value
bytes. Records are concatenated with nothing in between, so a reader walks a
region from record to record and may find, at the end, bytes that are no
whole record.

* `next` reads one record off the front; `next_encode` and `eq_of_next` say it
  is the inverse of `encode`.
* `exists_decomposition` cuts any region into whole records and a tail on
  which `next` fails, `encodeAll_append_inj` says the cut is unique.
* `tlvLoop` is the walking loop with its bounds checks, its offset counter
  and a visitor for each record. `tlvLoop_eq` reduces it to a fold over the
  records (`visitAll`) and the verdict on the tail, and `exists_tlvLoop_err`
  says where an error comes from.
-/

namespace Wire

/-- A type byte and a value. -/
abbrev Record := UInt8 × List UInt8

namespace Record

/-- The length field can express the value's length. -/
def Fits (r : Record) : Prop := r.2.length ≤ 65535

instance (r : Record) : Decidable r.Fits := inferInstanceAs (Decidable (_ ≤ _))

/-- Bytes on the wire: type, length, value. -/
def encode (r : Record) : List UInt8 :=
  r.1 :: (be16Bytes (UInt16.ofNat r.2.length) ++ r.2)

/-- What stands in front of the value. -/
def head (r : Record) : List UInt8 := r.1 :: be16Bytes (UInt16.ofNat r.2.length)

@[simp] theorem length_head (r : Record) : (head r).length = 3 := rfl

theorem encode_eq_head (r : Record) : encode r = head r ++ r.2 := rfl

def size (r : Record) : ℕ := 3 + r.2.length

@[simp] theorem length_encode (r : Record) : (encode r).length = size r := by
  simp [encode, size]
  omega

end Record

open Record

/-- The bytes of a list of records. -/
def encodeAll (rs : List Record) : List UInt8 := rs.flatMap encode

@[simp] theorem encodeAll_nil : encodeAll [] = [] := rfl

@[simp] theorem encodeAll_cons (r : Record) (rs : List Record) :
    encodeAll (r :: rs) = encode r ++ encodeAll rs := rfl

@[simp] theorem encodeAll_append (rs ss : List Record) :
    encodeAll (rs ++ ss) = encodeAll rs ++ encodeAll ss := by
  simp [encodeAll]

/-- The number of bytes of a list of records. -/
def totalSize : List Record → ℕ
  | [] => 0
  | r :: rs => size r + totalSize rs

theorem length_encodeAll (rs : List Record) : (encodeAll rs).length = totalSize rs := by
  induction rs with
  | nil => rfl
  | cons r rs ih => rw [encodeAll_cons, List.length_append, length_encode, ih, totalSize]

theorem size_le_totalSize {r : Record} {rs : List Record} (h : r ∈ rs) :
    size r ≤ totalSize rs := by
  induction rs with
  | nil => cases h
  | cons q rs ih =>
      rw [totalSize]
      rcases List.mem_cons.mp h with rfl | h
      · omega
      · have := ih h
        omega

theorem totalSize_filter_le (p : Record → Bool) (rs : List Record) :
    totalSize (rs.filter p) ≤ totalSize rs := by
  induction rs with
  | nil => exact Nat.le_refl _
  | cons q rs ih =>
      rw [List.filter_cons]
      split
      · exact Nat.add_le_add_left ih (size q)
      · exact Nat.le_add_left_of_le ih

/-- What a filter leaves out makes room. -/
theorem totalSize_filter_add_le {p : Record → Bool} {r : Record} {rs : List Record} (hr : r ∈ rs)
    (hp : p r = false) : totalSize (rs.filter p) + size r ≤ totalSize rs := by
  rcases List.append_of_mem hr with ⟨pre, post, rfl⟩
  have hpre := totalSize_filter_le p pre
  have hpost := totalSize_filter_le p post
  rw [List.filter_append, List.filter_cons_of_neg (by simp [hp])]
  simp only [← length_encodeAll, encodeAll_append, encodeAll_cons, List.length_append,
    length_encode] at hpre hpost ⊢
  omega

/-- A region cut in front of the value of one of its records. -/
theorem encodeAll_at_value (pre : List Record) (r : Record) (post : List Record) :
    encodeAll (pre ++ r :: post) = (encodeAll pre ++ head r) ++ (r.2 ++ encodeAll post) := by
  rw [encodeAll_append, encodeAll_cons, encode_eq_head]
  simp only [List.append_assoc]

/-- The value of a record, read out of a region that stands behind `front`. -/
theorem value_at {d front : List UInt8} {pre post : List Record} {r : Record}
    (hd : d = front ++ encodeAll (pre ++ r :: post)) :
    (d.drop (front.length + (encodeAll pre).length + 3)).take r.2.length = r.2 := by
  have hhead : (front ++ (encodeAll pre ++ head r)).length =
      front.length + (encodeAll pre).length + 3 := by
    simp only [List.length_append, length_head, Nat.add_assoc]
  rw [hd, encodeAll_at_value, ← List.append_assoc, List.drop_left' hhead, List.take_left]

/-! ## One record -/

/-- The record at the front of a region, and what follows it. -/
def next : List UInt8 → Option (Record × List UInt8)
  | ty :: hi :: lo :: rest =>
      if (be16 hi lo).toNat ≤ rest.length then
        some ((ty, rest.take (be16 hi lo).toNat), rest.drop (be16 hi lo).toNat)
      else none
  | _ => none

/-- The length field reads back as the length of the value. -/
theorem toNat_length_field {n : ℕ} (h : n ≤ 65535) :
    (be16 (UInt8.ofNat ((UInt16.ofNat n).toNat / 256))
      (UInt8.ofNat (UInt16.ofNat n).toNat)).toNat = n := by
  rw [be16_of_bytes, UInt16.toNat_ofNat']
  omega

/-- A record that was written is read back. -/
theorem next_encode {r : Record} (h : r.Fits) (rest : List UInt8) :
    next (encode r ++ rest) = some (r, rest) := by
  rcases r with ⟨ty, value⟩
  have hlen := toNat_length_field h
  simp only [encode, be16Bytes, List.cons_append, List.nil_append, next, hlen]
  simp

/-- A record that is read was written there. -/
theorem eq_of_next {d rest : List UInt8} {r : Record} (h : next d = some (r, rest)) :
    d = encode r ++ rest ∧ r.Fits := by
  match d with
  | [] | [_] | [_, _] => simp [next] at h
  | ty :: hi :: lo :: tail =>
      simp only [next] at h
      split at h
      · rename_i hle
        cases h
        have hmin : (tail.take (be16 hi lo).toNat).length = (be16 hi lo).toNat := by
          simp [hle]
        refine ⟨?_, ?_⟩
        · simp only [encode, hmin, UInt16.ofNat_toNat, be16Bytes_be16]
          simp
        · simp only [Fits, hmin]
          exact toNat_be16_le hi lo
      · cases h

theorem length_of_next {d rest : List UInt8} {r : Record} (h : next d = some (r, rest)) :
    d.length = size r + rest.length := by
  rw [(eq_of_next h).1]
  simp

/-! ## A region -/

/-- Every region is a sequence of whole records and a tail that starts none. -/
theorem exists_decomposition (d : List UInt8) :
    ∃ (rs : List Record) (tail : List UInt8),
      d = encodeAll rs ++ tail ∧ (∀ r ∈ rs, r.Fits) ∧ next tail = none := by
  -- reading a record off the front shortens the region by at least three bytes
  induction hn : d.length using Nat.strong_induction_on generalizing d with
  | _ n ih =>
      cases hd : next d with
      | none => exact ⟨[], d, rfl, by simp, hd⟩
      | some p =>
          rcases p with ⟨r, rest⟩
          have hlt : rest.length < n := by
            have := length_of_next hd
            simp only [size] at this
            omega
          rcases ih rest.length hlt rest rfl with ⟨rs, tail, hrest, hfits, htail⟩
          rcases eq_of_next hd with ⟨hcut, hr⟩
          refine ⟨r :: rs, tail, ?_, ?_, htail⟩
          · rw [hcut, hrest]
            simp
          · intro q hq
            rcases List.mem_cons.mp hq with rfl | hq
            · exact hr
            · exact hfits q hq

/-- The cut into records and tail is unique. -/
theorem encodeAll_append_inj {rs ss : List Record} {t u : List UInt8}
    (hrs : ∀ r ∈ rs, r.Fits) (hss : ∀ s ∈ ss, s.Fits)
    (ht : next t = none) (hu : next u = none)
    (h : encodeAll rs ++ t = encodeAll ss ++ u) : rs = ss ∧ t = u := by
  induction rs generalizing ss with
  | nil =>
      cases ss with
      | nil => exact ⟨rfl, h⟩
      | cons s ss =>
          -- the tail would start with the record `s`
          have hs := next_encode (hss s (by simp)) (encodeAll ss ++ u)
          simp only [encodeAll_nil, List.nil_append, encodeAll_cons, List.append_assoc] at h
          rw [← h, ht] at hs
          cases hs
  | cons r rs ih =>
      have hr := next_encode (hrs r (by simp)) (encodeAll rs ++ t)
      cases ss with
      | nil =>
          simp only [encodeAll_nil, List.nil_append, encodeAll_cons, List.append_assoc] at h
          rw [h, hu] at hr
          cases hr
      | cons s ss =>
          -- both sides read the same first record, and the rests agree
          have hs := next_encode (hss s (by simp)) (encodeAll ss ++ u)
          simp only [encodeAll_cons, List.append_assoc] at h
          rw [h, hs] at hr
          simp only [Option.some.injEq, Prod.mk.injEq] at hr
          rcases hr with ⟨rfl, hrest⟩
          rcases ih (fun q hq => hrs q (by simp [hq])) (fun q hq => hss q (by simp [hq]))
              hrest.symm with ⟨rfl, rfl⟩
          exact ⟨rfl, rfl⟩

/-- Two record lists with the same bytes are the same list. -/
theorem encodeAll_inj {rs ss : List Record} (hrs : ∀ r ∈ rs, r.Fits) (hss : ∀ s ∈ ss, s.Fits)
    (h : encodeAll rs = encodeAll ss) : rs = ss := by
  have h' : encodeAll rs ++ [] = encodeAll ss ++ [] := by simp [h]
  exact (encodeAll_append_inj hrs hss rfl rfl h').1

/-! ## The walking loop -/

/-- A region holds at most a third as many records as bytes, so the fuel
`data.length + 1` always suffices. -/
theorem length_lt_fuel (rs : List Record) (tail : List UInt8) :
    rs.length < (encodeAll rs ++ tail).length + 1 := by
  have h : rs.length ≤ (encodeAll rs).length := by
    induction rs with
    | nil => simp
    | cons r rs ih =>
        simp only [List.length_cons, encodeAll_cons, List.length_append, length_encode, size]
        omega
  simp only [List.length_append]
  omega

section Loop

variable {ε σ : Type} (malformed : ℕ → ε) (visit : ℕ → Record → σ → Outcome ε σ)

/-- The loop of a TLV reader: while bytes remain, check that a header and
then a whole record is there, hand the record to `visit` with its offset, and
go on behind it. One unit of fuel is one iteration. -/
def tlvLoop : ℕ → List UInt8 → ℕ → σ → Outcome ε σ
  | 0, _, _, _ => .diverge
  | fuel + 1, data, offset, acc =>
      if data.isEmpty then .ok acc
      else if data.length < 3 then .err (malformed offset)
      else do
        let ty ← Outcome.index data 0
        let hi ← Outcome.index data 1
        let lo ← Outcome.index data 2
        let len := (be16 hi lo).toNat
        let stop ← Outcome.add 3 len
        if data.length < stop then .err (malformed offset)
        else do
          let value ← Outcome.slice data 3 stop
          let acc ← visit offset (ty, value) acc
          let rest ← Outcome.sliceFrom data stop
          let offset ← Outcome.add offset stop
          tlvLoop fuel rest offset acc

/-- The records in order, each with its offset; the offset behind the last one
comes back with the result. -/
def visitAll : List Record → ℕ → σ → Outcome ε (ℕ × σ)
  | [], offset, acc => .ok (offset, acc)
  | r :: rs, offset, acc => do
      let acc ← visit offset r acc
      let offset ← Outcome.add offset (size r)
      visitAll rs offset acc

/-- One iteration on a whole record. -/
theorem tlvLoop_encode {r : Record} (h : r.Fits) (rest : List UInt8) (fuel offset : ℕ) (acc : σ) :
    tlvLoop malformed visit (fuel + 1) (encode r ++ rest) offset acc =
      (visit offset r acc >>= fun acc' => Outcome.add offset (size r) >>= fun offset' =>
        tlvLoop malformed visit fuel rest offset' acc') := by
  rcases r with ⟨ty, value⟩
  have hlen := toNat_length_field h
  simp only [Fits] at h
  have hdata : encode (ty, value) ++ rest =
      ty :: UInt8.ofNat ((UInt16.ofNat value.length).toNat / 256) ::
        UInt8.ofNat (UInt16.ofNat value.length).toNat :: (value ++ rest) := by
    simp [encode, be16Bytes]
  rw [hdata]
  -- three bytes and then the whole value are there, so neither check fails
  simp only [tlvLoop, List.isEmpty_cons, Bool.false_eq_true, if_false, List.length_cons,
    Outcome.index_zero, Outcome.index_succ, Outcome.ok_bind, hlen]
  rw [if_neg (by omega), Outcome.add_of_lt (by omega)]
  simp only [Outcome.ok_bind]
  rw [if_neg (by simp; omega), Outcome.slice_of_le (by omega) (by simp; omega)]
  have hvalue : (List.drop 3 (List.take (3 + value.length)
      (ty :: UInt8.ofNat ((UInt16.ofNat value.length).toNat / 256) ::
        UInt8.ofNat (UInt16.ofNat value.length).toNat :: (value ++ rest)))) = value := by
    rw [Nat.add_comm]
    simp
  have hrest : List.drop (3 + value.length)
      (ty :: UInt8.ofNat ((UInt16.ofNat value.length).toNat / 256) ::
        UInt8.ofNat (UInt16.ofNat value.length).toNat :: (value ++ rest)) = rest := by
    rw [Nat.add_comm]
    simp
  rw [Outcome.sliceFrom_of_le (by simp; omega), hrest]
  simp only [Outcome.ok_bind, hvalue, size]

/-- One iteration on a tail that starts no whole record. -/
theorem tlvLoop_tail {tail : List UInt8} (h : next tail = none) (fuel offset : ℕ) (acc : σ) :
    tlvLoop malformed visit (fuel + 1) tail offset acc =
      if tail = [] then .ok acc else .err (malformed offset) := by
  match tail with
  | [] => simp [tlvLoop]
  | [_] | [_, _] => simp [tlvLoop]
  | ty :: hi :: lo :: rest =>
      -- the header is there, so it is the value that is cut off
      have hshort : rest.length < (be16 hi lo).toNat := by
        by_contra hle
        simp [next, Nat.not_lt.mp hle] at h
      have hle := toNat_be16_le hi lo
      simp only [tlvLoop, List.isEmpty_cons, Bool.false_eq_true, if_false, List.length_cons,
        Outcome.index_zero, Outcome.index_succ, Outcome.ok_bind]
      rw [if_neg (by omega), Outcome.add_of_lt (by omega)]
      simp only [Outcome.ok_bind]
      rw [if_pos (by omega), if_neg (by simp)]

/-- The loop on any region: visit the whole records in order; a tail behind
them is malformed, at the offset where it starts. -/
theorem tlvLoop_eq {rs : List Record} {tail : List UInt8} (hrs : ∀ r ∈ rs, r.Fits)
    (htail : next tail = none) (fuel offset : ℕ) (acc : σ) (hfuel : rs.length < fuel) :
    tlvLoop malformed visit fuel (encodeAll rs ++ tail) offset acc =
      (visitAll visit rs offset acc >>= fun p =>
        if tail = [] then .ok p.2 else .err (malformed p.1)) := by
  -- the offset and the accumulator change from record to record
  induction rs generalizing fuel offset acc with
  | nil =>
      obtain ⟨fuel, rfl⟩ : ∃ k, fuel = k + 1 := ⟨fuel - 1, by omega⟩
      exact tlvLoop_tail malformed visit htail fuel offset acc
  | cons r rs ih =>
      obtain ⟨fuel, rfl⟩ : ∃ k, fuel = k + 1 := ⟨fuel - 1, by omega⟩
      simp only [List.length_cons] at hfuel
      rw [encodeAll_cons, List.append_assoc, tlvLoop_encode malformed visit (hrs r (by simp))]
      simp only [visitAll, bind_assoc]
      congr 1
      funext acc'
      congr 1
      funext offset'
      exact ih (fun q hq => hrs q (by simp [hq])) fuel offset' acc' (by omega)

variable {visit}

/-- A visitor that succeeds on every record folds over them. -/
theorem visitAll_eq_ok {f : Record → σ → σ} {rs : List Record}
    (h : ∀ r ∈ rs, ∀ offset acc, offset + size r ≤ Outcome.usizeMax →
      visit offset r acc = .ok (f r acc))
    (offset : ℕ) (acc : σ) (hoff : offset + (encodeAll rs).length ≤ Outcome.usizeMax) :
    visitAll visit rs offset acc =
      .ok (offset + (encodeAll rs).length, rs.foldl (fun acc r => f r acc) acc) := by
  induction rs generalizing offset acc with
  | nil => rfl
  | cons r rs ih =>
      simp only [encodeAll_cons, List.length_append, length_encode] at hoff ⊢
      rw [visitAll, h r (by simp) _ _ (by omega), Outcome.ok_bind, Outcome.add_of_le (by omega),
        Outcome.ok_bind, ih (fun q hq => h q (by simp [hq])) _ _ (by omega), List.foldl_cons,
        Nat.add_assoc]

/-- Visiting ends as the single visits do. -/
theorem visitAll_endsIn {P : ε → Prop} {rs : List Record}
    (h : ∀ r ∈ rs, ∀ offset acc, offset + size r ≤ Outcome.usizeMax →
      (visit offset r acc).EndsIn P)
    (offset : ℕ) (acc : σ) (hoff : offset + (encodeAll rs).length ≤ Outcome.usizeMax) :
    (visitAll visit rs offset acc).EndsIn P := by
  induction rs generalizing offset acc with
  | nil => exact trivial
  | cons r rs ih =>
      simp only [encodeAll_cons, List.length_append, length_encode] at hoff
      rw [visitAll]
      refine Outcome.EndsIn.bind (h r (by simp) offset acc (by omega)) ?_
      intro acc' _
      rw [Outcome.add_of_le (by omega), Outcome.ok_bind]
      exact ih (fun q hq => h q (by simp [hq])) _ _ (by omega)

/-- A visit of all records that succeeded did so on each of them. -/
theorem of_visitAll_eq_ok {f : Record → σ → σ} {P : Record → Prop} {rs : List Record}
    (h : ∀ r ∈ rs, ∀ offset acc acc', offset + size r ≤ Outcome.usizeMax →
      visit offset r acc = .ok acc' → P r ∧ acc' = f r acc)
    {offset : ℕ} {acc : σ} {p : ℕ × σ}
    (hall : visitAll visit rs offset acc = .ok p) :
    (∀ r ∈ rs, P r) ∧ p.2 = rs.foldl (fun acc r => f r acc) acc := by
  induction rs generalizing offset acc with
  | nil =>
      cases hall
      exact ⟨by simp, rfl⟩
  | cons r rs ih =>
      rw [visitAll] at hall
      rcases Outcome.bind_eq_ok.mp hall with ⟨acc', hvisit, hrest⟩
      rcases Outcome.bind_eq_ok.mp hrest with ⟨offset', hadd, hrest⟩
      rcases Outcome.add_eq_ok.mp hadd with ⟨hle, rfl⟩
      rcases h r (by simp) offset acc acc' hle hvisit with ⟨hr, rfl⟩
      rcases ih (fun q hq => h q (by simp [hq])) hrest with ⟨hrs, hacc⟩
      refine ⟨?_, hacc⟩
      intro q hq
      rcases List.mem_cons.mp hq with rfl | hq
      · exact hr
      · exact hrs q hq

/-- The offset counts the bytes passed, in a machine word. -/
theorem offset_of_visitAll {rs : List Record} {offset : ℕ} {acc : σ} {p : ℕ × σ}
    (hoff : offset ≤ Outcome.usizeMax) (hall : visitAll visit rs offset acc = .ok p) :
    p.1 = offset + (encodeAll rs).length ∧ p.1 ≤ Outcome.usizeMax := by
  induction rs generalizing offset acc with
  | nil =>
      cases hall
      exact ⟨rfl, hoff⟩
  | cons r rs ih =>
      rw [visitAll] at hall
      rcases Outcome.bind_eq_ok.mp hall with ⟨acc', -, hrest⟩
      rcases Outcome.bind_eq_ok.mp hrest with ⟨offset', hadd, hrest⟩
      rcases Outcome.add_eq_ok.mp hadd with ⟨hle, rfl⟩
      rcases ih hle hrest with ⟨heq, hmax⟩
      refine ⟨?_, hmax⟩
      rw [heq, encodeAll_cons, List.length_append, length_encode, Nat.add_assoc]

/-- A visit of all records that failed did so on one of them, behind records
that were visited. -/
theorem exists_visit_err {rs : List Record} {offset : ℕ} {acc : σ} {e : ε}
    (h : visitAll visit rs offset acc = .err e) :
    ∃ pre r post p, rs = pre ++ r :: post ∧ visitAll visit pre offset acc = .ok p ∧
      visit p.1 r p.2 = .err e := by
  induction rs generalizing offset acc with
  | nil => cases h
  | cons r rs ih =>
      rw [visitAll] at h
      rcases Outcome.bind_eq_err.mp h with hvisit | ⟨acc', hvisit, hrest⟩
      · exact ⟨[], r, rs, (offset, acc), rfl, rfl, hvisit⟩
      · rcases Outcome.bind_eq_err.mp hrest with hadd | ⟨offset', hadd, hrest⟩
        · -- counting on panics, it does not fail
          exact absurd hadd Outcome.add_ne_err
        · rcases ih hrest with ⟨pre, q, post, p, rfl, hpre, hq⟩
          refine ⟨r :: pre, q, post, p, rfl, ?_, hq⟩
          rw [visitAll, hvisit, Outcome.ok_bind, hadd, Outcome.ok_bind]
          exact hpre

/-- Records that can all be visited are a region on which the loop succeeds. -/
theorem tlvLoop_of_visitAll {rs : List Record} (hrs : ∀ r ∈ rs, r.Fits) {offset : ℕ} {acc : σ}
    {p : ℕ × σ} (h : visitAll visit rs offset acc = .ok p) :
    tlvLoop malformed visit ((encodeAll rs).length + 1) (encodeAll rs) offset acc = .ok p.2 := by
  have hloop := tlvLoop_eq malformed visit hrs (show next [] = none from rfl)
    ((encodeAll rs).length + 1) offset acc (by simpa using length_lt_fuel rs [])
  rw [List.append_nil, h] at hloop
  exact hloop

/-- Where an error of the loop comes from. Behind whole records that were
visited stands something that is no whole record, or a whole record whose
visit failed. -/
theorem exists_tlvLoop_err {data : List UInt8} {offset : ℕ} {acc : σ} {e : ε}
    (h : tlvLoop malformed visit (data.length + 1) data offset acc = .err e) :
    ∃ rs rest p, data = encodeAll rs ++ rest ∧ (∀ r ∈ rs, r.Fits) ∧
      visitAll visit rs offset acc = .ok p ∧
      ((rest ≠ [] ∧ next rest = none ∧ e = malformed p.1) ∨
        ∃ r tail, rest = encode r ++ tail ∧ r.Fits ∧ visit p.1 r p.2 = .err e) := by
  rcases exists_decomposition data with ⟨rs, tail, rfl, hrs, htail⟩
  rw [tlvLoop_eq malformed visit hrs htail _ offset acc (length_lt_fuel rs tail)] at h
  rcases Outcome.bind_eq_err.mp h with hvisit | ⟨p, hall, hend⟩
  · rcases exists_visit_err hvisit with ⟨pre, r, post, p, rfl, hpre, hr⟩
    have hfits : ∀ q ∈ pre, q.Fits := fun q hq => hrs q (by simp [hq])
    refine ⟨pre, encode r ++ (encodeAll post ++ tail), p, by simp, hfits, hpre, .inr ?_⟩
    exact ⟨r, _, rfl, hrs r (by simp), hr⟩
  · split at hend
    · cases hend
    · rename_i hne
      cases hend
      exact ⟨rs, tail, p, rfl, hrs, hall, .inl ⟨hne, htail, rfl⟩⟩

/-- The loop ends on every region as the single visits do, or at a tail. -/
theorem tlvLoop_endsIn {P : ε → Prop} (hmalformed : ∀ offset, P (malformed offset))
    (h : ∀ r : Record, r.Fits → ∀ offset acc, offset + size r ≤ Outcome.usizeMax →
      (visit offset r acc).EndsIn P)
    (data : List UInt8) (offset : ℕ) (acc : σ)
    (hoff : offset + data.length ≤ Outcome.usizeMax) :
    (tlvLoop malformed visit (data.length + 1) data offset acc).EndsIn P := by
  rcases exists_decomposition data with ⟨rs, tail, rfl, hrs, htail⟩
  rw [List.length_append] at hoff
  rw [tlvLoop_eq malformed visit hrs htail _ offset acc (length_lt_fuel rs tail)]
  refine Outcome.EndsIn.bind
    (visitAll_endsIn (fun r hr => h r (hrs r hr)) offset acc (by omega)) ?_
  intro p _
  split
  · exact trivial
  · exact hmalformed p.1

/-! ### Concatenation and relocation -/

theorem visitAll_append (rs ss : List Record) (offset : ℕ) (acc : σ) :
    visitAll visit (rs ++ ss) offset acc =
      (visitAll visit rs offset acc >>= fun p => visitAll visit ss p.1 p.2) := by
  induction rs generalizing offset acc with
  | nil => rfl
  | cons r rs ih => simp only [List.cons_append, visitAll, bind_assoc, ih]

/-- Behind records that were passed the loop goes on as it does from there. -/
theorem tlvLoop_append {rs : List Record} (hrs : ∀ r ∈ rs, r.Fits) {offset : ℕ} {acc : σ}
    {p : ℕ × σ} (h : visitAll visit rs offset acc = .ok p) (data : List UInt8) :
    tlvLoop malformed visit ((encodeAll rs ++ data).length + 1) (encodeAll rs ++ data) offset
        acc =
      tlvLoop malformed visit (data.length + 1) data p.1 p.2 := by
  rcases exists_decomposition data with ⟨ss, tail, rfl, hss, htail⟩
  have hall : ∀ r ∈ rs ++ ss, r.Fits := by
    intro r hr
    rcases List.mem_append.mp hr with hr | hr
    · exact hrs r hr
    · exact hss r hr
  rw [tlvLoop_eq malformed visit hss htail _ _ _ (length_lt_fuel ss tail), ← List.append_assoc,
    ← encodeAll_append, tlvLoop_eq malformed visit hall htail _ _ _ (length_lt_fuel _ tail),
    visitAll_append, h, Outcome.ok_bind]

section Relocate

variable {k : ℕ} {g : ε → ε} {f : σ → σ}

/-- A list of records `k` bytes further on: if a single visit only moves its
errors and passes on what was there before, so do all. -/
theorem visitAll_relocate {rs : List Record}
    (hvisit : ∀ r ∈ rs, ∀ offset acc, k + offset + size r ≤ Outcome.usizeMax →
      visit (k + offset) r (f acc) = (visit offset r acc).bimap g f)
    (offset : ℕ) (acc : σ) (hoff : k + offset + (encodeAll rs).length ≤ Outcome.usizeMax) :
    visitAll visit rs (k + offset) (f acc) =
      (visitAll visit rs offset acc).bimap g fun p => (k + p.1, f p.2) := by
  induction rs generalizing offset acc with
  | nil => rfl
  | cons r rs ih =>
      rw [encodeAll_cons, List.length_append, length_encode] at hoff
      rw [visitAll, visitAll, hvisit r (by simp) offset acc (by omega)]
      refine Outcome.bimap_bind ?_
      intro acc' _
      rw [Outcome.add_of_le (by omega), Outcome.add_of_le (by omega), Outcome.ok_bind,
        Outcome.ok_bind, Nat.add_assoc]
      exact ih (fun q hq => hvisit q (by simp [hq])) (offset + size r) acc' (by omega)

theorem tlvLoop_relocate (hmalformed : ∀ offset, malformed (k + offset) = g (malformed offset))
    (hvisit : ∀ r : Record, ∀ offset acc, k + offset + size r ≤ Outcome.usizeMax →
      visit (k + offset) r (f acc) = (visit offset r acc).bimap g f)
    (data : List UInt8) (offset : ℕ) (acc : σ)
    (hoff : k + offset + data.length ≤ Outcome.usizeMax) :
    tlvLoop malformed visit (data.length + 1) data (k + offset) (f acc) =
      (tlvLoop malformed visit (data.length + 1) data offset acc).bimap g f := by
  rcases exists_decomposition data with ⟨rs, tail, rfl, hrs, htail⟩
  rw [List.length_append] at hoff
  rw [tlvLoop_eq malformed visit hrs htail _ _ _ (length_lt_fuel rs tail),
    tlvLoop_eq malformed visit hrs htail _ _ _ (length_lt_fuel rs tail),
    visitAll_relocate (fun r _ => hvisit r) offset acc (by omega)]
  refine Outcome.bimap_bind ?_
  intro p _
  split
  · rfl
  · rw [hmalformed]
    rfl

end Relocate

end Loop

end Wire
