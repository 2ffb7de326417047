import Cantrip.Lib.Paging
import Cantrip.Nbt.Paged
import Mathlib.Tactic.IntervalCases

/-!
# Descriptors and pages survive being stored

A publishable descriptor is packed into a valid record and unpacked to itself, sentinels included, and a
page of valid records or safe identities is decoded from what it is encoded to.
-/

namespace Cantrip.Nbt

open Lib List

/-- What the records of a scan have in common: a value tag, positions in order, and numbers that are safe
integers. -/
structure NbtNode.Publishable (n : NbtNode) : Prop where
  id : n.id < maxSafeInteger
  parent : ∀ p, n.parent = some p → p ≤ maxSafeInteger
  ordinal : n.ordinal ≤ maxSafeInteger
  type : n.type ≠ .end
  name : ∀ s, n.name = some s → s.offset ≤ maxSafeInteger ∧ s.length ≤ maxSafeInteger
  start : n.start ≤ n.payload
  payload : n.payload ≤ maxSafeInteger
  endAt : ∀ e, n.endAt = some e → n.payload ≤ e ∧ e ≤ maxSafeInteger
  childCount : n.childCount ≤ maxSafeInteger
  length : ∀ l, n.length = some l → l ≤ maxSafeInteger
  declaredLength : ∀ d, n.declaredLength = some d → -2147483648 ≤ d ∧ d ≤ 2147483647
  data : ∀ s, n.data = some s → s.offset ≤ maxSafeInteger ∧ s.length ≤ maxSafeInteger

/-! ## Numbers -/

theorem nonnegative_int {n : Nat} (h : n ≤ maxSafeInteger) : nonnegative (.int n) = true := by
  have hlt : n < 2 ^ 53 := by
    unfold maxSafeInteger at h
    omega
  simp only [nonnegative, Double.isSafeInteger, Double.toInt_int, Int.natAbs_natCast, hlt, decide_true,
    Int.natCast_nonneg, Bool.and_true]

theorem not_absent_int (n : Nat) : absent (.int n) = false := by
  simp [absent]

theorem orAbsent_valid {value : Option Nat} (h : ∀ n, value = some n → n ≤ maxSafeInteger) :
    (absent (orAbsent value) || nonnegative (orAbsent value)) = true := by
  cases value with
  | none => rfl
  | some n => simp [orAbsent, nonnegative_int (h n rfl)]

@[simp] theorem present_orAbsent (value : Option Nat) : present (orAbsent value) = value := by
  cases value with
  | none => rfl
  | some n => simp [present, orAbsent, not_absent_int]

theorem NbtTag.one_le_toNat {t : NbtTag} (h : t ≠ .end) : 1 ≤ t.toNat := by
  cases t <;> first | exact absurd rfl h | decide

@[simp] theorem tagOf_toNat (t : NbtTag) : tagOf (.int t.toNat) = t := by
  simp [tagOf]

theorem validRecord_packFields {n : NbtNode} (h : n.Publishable) : validRecord (packFields n) = true := by
  have hle := n.type.toNat_le
  have hone := NbtTag.one_le_toNat h.type
  have htype : n.type.toNat ≤ maxSafeInteger := le_trans hle (by decide)
  have hname : ∀ o, n.name.map NbtSpan.offset = some o → o ≤ maxSafeInteger := by
    intro o ho
    obtain ⟨s, hs, rfl⟩ := Option.map_eq_some_iff.mp ho
    exact (h.name s hs).1
  have hnameLength : (n.name.map NbtSpan.length).getD 0 ≤ maxSafeInteger := by
    cases hn : n.name with
    | none => exact Nat.zero_le _
    | some s => exact (h.name s hn).2
  have hdata : ∀ o, n.data.map NbtSpan.offset = some o → o ≤ maxSafeInteger := by
    intro o ho
    obtain ⟨s, hs, rfl⟩ := Option.map_eq_some_iff.mp ho
    exact (h.data s hs).1
  have hdataLength : (n.data.map NbtSpan.length).getD 0 ≤ maxSafeInteger := by
    cases hn : n.data with
    | none => exact Nat.zero_le _
    | some s => exact (h.data s hn).2
  have helement : ∀ t, n.elementType.map NbtTag.toNat = some t → t ≤ maxSafeInteger := by
    intro t ht
    obtain ⟨e, -, rfl⟩ := Option.map_eq_some_iff.mp ht
    exact le_trans e.toNat_le (by decide)
  have helement12 : (absent (orAbsent (n.elementType.map NbtTag.toNat)) ||
      decide ((orAbsent (n.elementType.map NbtTag.toNat)).toInt ≤ 12)) = true := by
    cases n.elementType with
    | none => rfl
    | some e =>
      have := e.toNat_le
      simp [orAbsent]
      omega
  have hend : (absent (orAbsent n.endAt) || decide ((n.payload : Int) ≤ (orAbsent n.endAt).toInt)) = true := by
    cases he : n.endAt with
    | none => rfl
    | some e => simp [orAbsent, (h.endAt e he).1]
  have hstart : n.start ≤ maxSafeInteger := le_trans h.start h.payload
  simp only [validRecord, packFields, field, all_cons, all_nil, getD_cons_zero, getD_cons_succ,
    length_cons, length_nil, nonnegative_int hstart, nonnegative_int h.ordinal, nonnegative_int htype,
    nonnegative_int hnameLength, nonnegative_int h.payload, nonnegative_int h.childCount, nonnegative_int hdataLength,
    orAbsent_valid h.parent, orAbsent_valid hname, orAbsent_valid (fun e he => (h.endAt e he).2), orAbsent_valid helement,
    orAbsent_valid h.length, orAbsent_valid hdata, Double.toInt_int, helement12, hend, Bool.and_true, NODE_FIELDS]
  cases hd : n.declaredLength with
  | none =>
    simp [Double.isNaN, h.start, hle]
    omega
  | some d =>
    have := h.declaredLength d hd
    simp [Double.isNaN, isInteger, h.start, hle, this]
    omega

theorem unpack_packFields (n : NbtNode) : unpack n.id (packFields n) = n := by
  obtain ⟨id, parent, ordinal, type, name, start, payload, endAt, childCount, elementType, length, declaredLength, data⟩ := n
  simp only [unpack, packFields, field, getD_cons_zero, getD_cons_succ, present_orAbsent, Double.toNat_int,
    tagOf_toNat, NbtNode.mk.injEq, true_and]
  refine ⟨?_, ?_, ?_, ?_⟩
  · cases name <;> rfl
  · cases elementType with
    | none => rfl
    | some e => simp [orAbsent, not_absent_int]
  · cases declaredLength <;> rfl
  · cases data <;> rfl

theorem pack_ok {n : NbtNode} (h : n.Publishable) : pack n = .ok (packFields n) := by
  cases hp : n.parent with
  | none => simp [pack, hp]
  | some p => simp [pack, hp, PagedNbtIndex.sequence, assertRange, h.parent p hp, Except.map]

/-! ## Pages -/

def IndexPage.Stored : IndexPage → Prop
  | nodes records => records.length ≤ INDEX_FANOUT ∧ ∀ record ∈ records, validRecord record = true
  | children offsets => offsets.length ≤ INDEX_FANOUT ∧ ∀ id ∈ offsets, id ≤ maxSafeInteger

theorem nonnegative_safe {n : Double} (h : nonnegative n = true) : n.isSafeInteger = true :=
  (Bool.and_eq_true_iff.mp h).1

theorem validRecord_length {record : List Double} (h : validRecord record = true) : record.length = 14 := by
  simp only [validRecord, Bool.and_eq_true, beq_iff_eq] at h
  exact h.1.1.1.1.1.1.1.1

theorem validRecord_numbers {record : List Double} (h : validRecord record = true) :
    ∀ x ∈ record, x.isSafeInteger = true ∨ x.isNaN = true := by
  have hlen := validRecord_length h
  intro x hx
  obtain ⟨i, hi, rfl⟩ := getElem_of_mem hx
  have hfield : record[i] = field record i := by simp [field, getD_eq_getElem?_getD, hi]
  rw [hfield]
  simp only [validRecord, Bool.and_eq_true, all_cons, all_nil, Bool.or_eq_true, decide_eq_true_eq] at h
  obtain ⟨⟨⟨⟨⟨⟨⟨⟨-, hpos⟩, hopt⟩, -⟩, -⟩, -⟩, -⟩, -⟩, hdeclared⟩ := h
  have habsent : ∀ y : Double, absent y = true ∨ nonnegative y = true → y.isSafeInteger = true ∨ y.isNaN = true := by
    rintro y (hy | hy)
    · rw [show y = .int (-1) by simpa [absent] using hy]
      exact .inl (by decide)
    · exact .inl (nonnegative_safe hy)
  have h11 : (field record 11).isSafeInteger = true ∨ (field record 11).isNaN = true := by
    rcases hdeclared with hnan | ⟨⟨hint, hlow⟩, hhigh⟩
    · exact .inr hnan
    · left
      match hx : field record 11 with
      | .int d =>
        rw [hx] at hlow hhigh
        simp only [Double.toInt_int] at hlow hhigh
        simp only [Double.isSafeInteger, decide_eq_true_eq]
        omega
      | .nan | .other =>
        rw [hx] at hint
        cases hint
  obtain ⟨h0, h2, h3, h5, h6, h8, h13, -⟩ := hpos
  obtain ⟨h1, h4, h7, h9, h10, h12, -⟩ := hopt
  have hi' : i < 14 := by omega
  interval_cases i
  · exact .inl (nonnegative_safe h0)
  · exact habsent _ h1
  · exact .inl (nonnegative_safe h2)
  · exact .inl (nonnegative_safe h3)
  · exact habsent _ h4
  · exact .inl (nonnegative_safe h5)
  · exact .inl (nonnegative_safe h6)
  · exact habsent _ h7
  · exact .inl (nonnegative_safe h8)
  · exact habsent _ h9
  · exact habsent _ h10
  · exact h11
  · exact habsent _ h12
  · exact .inl (nonnegative_safe h13)

theorem flatMap_setFloat64_length (numbers : List Double) :
    (numbers.flatMap (setFloat64 true)).length = numbers.length * 8 := by
  induction numbers with
  | nil => rfl
  | cons x xs ih =>
    rw [flatMap_cons, length_append, ih, setFloat64_length, length_cons]
    omega

theorem readNumbers (numbers : List Double) (header : Bytes) (hheader : header.length = 12)
    (h : ∀ x ∈ numbers, x.isSafeInteger = true ∨ x.isNaN = true) :
    (range numbers.length).map
      (fun i => getFloat64 true (slice (header ++ numbers.flatMap (setFloat64 true)) (12 + i * 8) 8)) = numbers := by
  apply ext_getElem
  · simp
  · intro i h1 h2
    simp only [getElem_map, getElem_range]
    have hcut : slice (header ++ numbers.flatMap (setFloat64 true)) (12 + i * 8) 8 = setFloat64 true numbers[i] := by
      have hprefix : ((numbers.take i).flatMap (setFloat64 true)).length = i * 8 := by
        rw [flatMap_setFloat64_length, length_take, Nat.min_eq_left (by omega)]
      have hsplit : numbers = numbers.take i ++ numbers[i] :: numbers.drop (i + 1) := by
        rw [← drop_eq_getElem_cons h2, take_append_drop]
      have hbytes : header ++ numbers.flatMap (setFloat64 true) =
          (header ++ (numbers.take i).flatMap (setFloat64 true)) ++ setFloat64 true numbers[i] ++
            (numbers.drop (i + 1)).flatMap (setFloat64 true) := by
        have hmap := congrArg (flatMap (setFloat64 true)) hsplit
        rw [flatMap_append, flatMap_cons] at hmap
        rw [hmap]
        simp only [append_assoc]
      refine slice_eq_middle hbytes ?_ ?_
      · simp [hheader, hprefix]
      · simp
    rw [hcut]
    exact getFloat64_setFloat64 true (h _ (getElem_mem _))

theorem numbers_safe {page : IndexPage} (h : page.Stored) : ∀ x ∈ page.numbers, x.isSafeInteger = true ∨ x.isNaN = true := by
  intro x hx
  cases page with
  | nodes records =>
    obtain ⟨record, hrecord, hx⟩ := mem_flatten.mp hx
    exact validRecord_numbers (h.2 record hrecord) x hx
  | children offsets =>
    obtain ⟨id, hid, rfl⟩ := mem_map.mp hx
    exact .inl (nonnegative_safe (nonnegative_int (h.2 id hid)))

theorem flatten_length {records : List (List Double)} (h : ∀ record ∈ records, validRecord record = true) :
    records.flatten.length = records.length * NODE_FIELDS := by
  rw [length_flatten, map_congr_left (fun r hr => validRecord_length (h r hr))]
  simp [NODE_FIELDS]

theorem cutRecords {records : List (List Double)} (h : ∀ record ∈ records, validRecord record = true) :
    (range records.length).map (fun i => slice records.flatten (i * NODE_FIELDS) NODE_FIELDS) = records := by
  apply ext_getElem
  · simp
  · intro i h1 h2
    simp only [getElem_map, getElem_range]
    have hsplit : records = records.take i ++ records[i] :: records.drop (i + 1) := by
      rw [← drop_eq_getElem_cons h2, take_append_drop]
    have hflat : records.flatten = (records.take i).flatten ++ records[i] ++ (records.drop (i + 1)).flatten := by
      have hmap := congrArg flatten hsplit
      rw [flatten_append, flatten_cons] at hmap
      rw [hmap, append_assoc]
    refine slice_eq_middle hflat ?_ ?_
    · rw [flatten_length (fun r hr => h r (mem_of_mem_take hr)), length_take, Nat.min_eq_left (by omega)]
    · rw [validRecord_length (h _ (getElem_mem _))]
      rfl

theorem fieldCount_numbers {page : IndexPage} (h : page.Stored) :
    fieldCount page.kind page.count = some page.numbers.length := by
  cases page with
  | nodes records =>
    rw [IndexPage.numbers, flatten_length h.2]
    rfl
  | children offsets =>
    rw [IndexPage.numbers, length_map]
    rfl

theorem pageOfNumbers_numbers {page : IndexPage} (h : page.Stored) :
    pageOfNumbers page.kind page.count page.numbers = .ok page := by
  cases page with
  | nodes records =>
    have hvalid : records.any (!validRecord ·) = false := by simpa using h.2
    rw [pageOfNumbers, if_neg (by simp [IndexPage.kind])]
    simp only [IndexPage.numbers, IndexPage.count, cutRecords h.2, hvalid, Bool.false_eq_true, if_false]
  | children offsets =>
    have hnonneg : (offsets.map fun n : Nat => Double.int n).any (!nonnegative ·) = false := by
      rw [any_eq_false]
      intro x hx
      obtain ⟨id, hid, rfl⟩ := mem_map.mp hx
      simp [nonnegative_int (h.2 id hid)]
    have hback : (offsets.map fun n : Nat => Double.int n).map Double.toNat = offsets := by
      rw [map_map]
      conv_rhs => rw [← map_id offsets]
      exact map_congr_left fun n _ => rfl
    rw [pageOfNumbers, if_pos (by rfl)]
    simp only [IndexPage.numbers, hnonneg, hback, Bool.false_eq_true, if_false]

theorem indexCodec_faithful {page : IndexPage} (h : page.Stored) : indexCodec.Faithful page := by
  have hcount : page.count ≤ INDEX_FANOUT := by
    cases page <;> exact h.1
  have hvalid : page.invalidRecord = false := by
    cases page with
    | nodes records => simpa [IndexPage.invalidRecord] using h.2
    | children offsets => rfl
  let header := setUint true 4 MAGIC ++ setUint true 4 page.kind ++ setUint true 4 page.count
  have hheader : header.length = 12 := by simp [header]
  let body := page.numbers.flatMap (setFloat64 true)
  have hlen : (header ++ body).length = 12 + page.numbers.length * 8 := by
    rw [length_append, hheader, flatMap_setFloat64_length]
  refine ⟨header ++ body, ?_, ?_⟩
  · show encodeIndexPage page = .ok (header ++ body)
    rw [encodeIndexPage, if_neg (by omega), hvalid]
    rfl
  · show decodeIndexPage (header ++ body) = .ok page
    have hmagic : slice (header ++ body) 0 4 = setUint true 4 MAGIC := slice_eq_middle
      (show header ++ body = [] ++ setUint true 4 MAGIC ++ (setUint true 4 page.kind ++ setUint true 4 page.count ++ body)
        by simp [header, append_assoc]) rfl (by simp)
    have hkind : slice (header ++ body) 4 4 = setUint true 4 page.kind := slice_eq_middle
      (show header ++ body = setUint true 4 MAGIC ++ setUint true 4 page.kind ++ (setUint true 4 page.count ++ body)
        by simp [header, append_assoc]) (by simp) (by simp)
    have hcount' : slice (header ++ body) 8 4 = setUint true 4 page.count := slice_eq_middle
      (show header ++ body = (setUint true 4 MAGIC ++ setUint true 4 page.kind) ++ setUint true 4 page.count ++ body
        by simp [header, append_assoc]) (by simp) (by simp)
    have hkind256 : page.kind % 256 ^ 4 = page.kind := by cases page <;> rfl
    have hcount256 : page.count % 256 ^ 4 = page.count := by
      unfold INDEX_FANOUT at hcount
      omega
    rw [decodeIndexPage, if_neg (by omega)]
    simp only [hmagic, hkind, hcount', getUint_setUint, hkind256, hcount256, fieldCount_numbers h]
    rw [if_neg (by rw [hlen]; simp [MAGIC]; omega), readNumbers page.numbers header hheader (numbers_safe h)]
    exact pageOfNumbers_numbers h

end Cantrip.Nbt
