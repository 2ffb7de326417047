import Cantrip.Nbt.EncodeTree
import Cantrip.Nbt.Spelling

/-!
# What the encoder writes is a valid document

Every length field the encoder writes is read back as the length (`i32_spells`, `stringParts_text`), and
a value on which the encoder does not throw is written as the bytes of a valid `Raw` node that holds it
(`encodeValue_raw`): `Writes` says field by field how a value stands in the bytes.
-/

namespace Cantrip.Nbt

open Lib List

section Fields

variable {encoding : NbtEncoding}

variable {little : Bool} {bs bytes : Bytes} {value : JsNumber}

theorem varintBytes_grouped (k : Nat) {n : Nat} (hn : n < 128 ^ (k + 1)) :
    Grouped (varintBytes k n) ∧ Nat.ofDigits 128 ((varintBytes k n).map payload7) = n := by
  have hone {n : Nat} (hn : n < 128) : Grouped [UInt8.ofNat (n % 128)] ∧
      Nat.ofDigits 128 ([UInt8.ofNat (n % 128)].map payload7) = n := by
    refine ⟨by simp only [Grouped, continues_last, Bool.false_eq_true, if_false], ?_⟩
    rw [List.map_singleton, payload7_last, Nat.ofDigits_singleton, Nat.mod_eq_of_lt hn]
  induction k generalizing n with
  | zero => exact hone (by simpa using hn)
  | succ k ih =>
    rw [varintBytes]
    split
    · exact hone (by omega)
    · obtain ⟨hgrouped, hvalue⟩ := ih (Nat.div_lt_of_lt_mul (by rwa [pow_succ'] at hn))
      rw [Grouped, continues_more, if_pos rfl, List.map_cons, Nat.ofDigits_cons, hvalue, payload7_more]
      exact ⟨hgrouped, Nat.mod_add_div n 128⟩

theorem pow_bits (bits : Nat) : 2 ^ bits ≤ 128 ^ (bits / 7 + 1) := by
  rw [show (128 : Nat) = 2 ^ 7 by rfl, ← pow_mul]
  exact Nat.pow_le_pow_right (by decide) (by omega)

theorem nbtVariableInteger_spells (encoding : NbtEncoding) {v : Int} {bits : Nat} {zigzagged : Bool} (hbits : bits % 7 ≠ 0)
    (h : nbtVariableInteger v bits zigzagged = .ok bs) :
    SpellsVarint encoding bits zigzagged bs v ∧ 0 < bs.length ∧ bs.length ≤ bits / 7 + 1 := by
  have hspells : ∀ n : Nat, n < 2 ^ bits → SpellsVarint encoding bits zigzagged (varintBytes (bits / 7) n)
      (if zigzagged then unzigzag n else n) := by
    intro n hn
    obtain ⟨hgrouped, hvalue⟩ := varintBytes_grouped (bits / 7) (hn.trans_le (pow_bits bits))
    have hlength := (varintBytes_length (bits / 7) n).2
    exact spellsVarint_iff.mpr ⟨hgrouped, by omega, hvalue.symm ▸ hn, by rw [hvalue]⟩
  unfold nbtVariableInteger at h
  cases zigzagged with
  | true =>
    rw [if_pos rfl] at h
    split_ifs at h with hrange
    cases h
    obtain ⟨hlow, hhigh⟩ : -2 ^ (bits - 1) ≤ v ∧ v < 2 ^ (bits - 1) := by
      simpa only [not_or, not_lt, not_le] using hrange
    obtain ⟨h0, hlt⟩ := zigzag_bounds bits v (by omega) hlow hhigh
    have hnat : (zigzag bits v).toNat < 2 ^ bits := by
      have : ((zigzag bits v).toNat : Int) < (2 ^ bits : Nat) := by
        rw [Int.toNat_of_nonneg h0]
        push_cast
        exact hlt
      exact_mod_cast this
    have hv := hspells _ hnat
    rw [if_pos rfl, unzigzag_zigzag bits v hlow hhigh] at hv
    exact ⟨hv, varintBytes_length _ _⟩
  | false =>
    rw [if_neg (by decide)] at h
    split_ifs at h with hrange
    cases h
    rw [not_or, not_lt, not_le] at hrange
    have hnat : v.toNat < 2 ^ bits := by
      have : (v.toNat : Int) < (2 ^ bits : Nat) := by
        rw [Int.toNat_of_nonneg hrange.1]
        push_cast
        exact hrange.2
      exact_mod_cast this
    have hv := hspells _ hnat
    rw [if_neg (by decide), Int.toNat_of_nonneg hrange.1] at hv
    exact ⟨hv, varintBytes_length _ _⟩

theorem integer_ok {low high n : Int} (h : integer value low high = .ok n) : value = .int n ∧ low ≤ n ∧ n ≤ high := by
  unfold integer at h
  match value with
  | .int m =>
    simp only at h
    split_ifs at h with hrange
    cases h
    exact ⟨rfl, by omega, by omega⟩
  | .nan => cases h
  | .other => cases h

theorem nbtFixedInteger_number {width : Nat} (hwidth : width ≠ 8)
    (hpos : 0 < width) (h : nbtFixedInteger (.number value) width little false = .ok bs) :
    ∃ n, value = .int n ∧ bs = setInt little width n ∧ -(256 ^ width : Nat) ≤ 2 * n ∧ 2 * n < (256 ^ width : Nat) := by
  unfold nbtFixedInteger at h
  rw [if_neg hwidth] at h
  simp only [Bool.false_eq_true, if_false] at h
  match hint : integer value (-2 ^ (width * 8 - 1)) (2 ^ (width * 8 - 1) - 1) with
  | .error e =>
    rw [hint] at h
    cases h
  | .ok n =>
    rw [hint] at h
    cases h
    obtain ⟨rfl, hlow, hhigh⟩ := integer_ok hint
    have hpow : ((256 ^ width : Nat) : Int) = 2 * 2 ^ (width * 8 - 1) := by
      rw [← pow_succ', show width * 8 - 1 + 1 = 8 * width by omega, pow_mul]
      push_cast
      rfl
    exact ⟨n, rfl, rfl, by rw [hpow]; omega, by rw [hpow]; omega⟩

theorem nbtFixedInteger_bigint {n : Int} (h : nbtFixedInteger (.bigint n) 8 little false = .ok bs) :
    bs = setInt little 8 n ∧ -(256 ^ 8 : Nat) ≤ 2 * n ∧ 2 * n < (256 ^ 8 : Nat) := by
  unfold nbtFixedInteger at h
  rw [if_pos rfl] at h
  simp only at h
  split_ifs at h with hrange
  cases h
  exact ⟨rfl, by norm_num at hrange ⊢; omega, by norm_num at hrange ⊢; omega⟩

theorem viewInt_signed (little : Bool) (bs : Bytes) : viewInt little false bs = getInt little bs := by
  simp [viewInt]

theorem i32_spells (h : i32 encoding value = .ok bs) : ∃ n, value = .int n ∧ SpellsInt encoding bs n ∧ bs.length ≤ 10 := by
  unfold i32 at h
  match hint : integer value (-2 ^ 31) (2 ^ 31 - 1) with
  | .error e =>
    rw [hint] at h
    cases h
  | .ok n =>
    rw [hint] at h
    obtain ⟨rfl, -, -⟩ := integer_ok hint
    simp only [bind, Except.bind] at h
    split_ifs at h with hvar
    · obtain ⟨hspell, -, hlen⟩ := nbtVariableInteger_spells encoding (by decide) h
      exact ⟨n, rfl, spellsInt_iff.mpr (by rwa [if_pos hvar]), by omega⟩
    · obtain ⟨m, hm, rfl, hlow, hhigh⟩ := nbtFixedInteger_number (by decide) (by decide) h
      cases hm
      have hfixed : SpellsFixed encoding 4 false (setInt encoding.isLittle 4 n) n :=
        spellsFixed_iff.mpr ⟨setInt_length .., by rw [viewInt_signed, getInt_setInt _ _ _ hlow hhigh]⟩
      exact ⟨n, rfl, spellsInt_iff.mpr (by rwa [if_neg hvar]), by simp⟩

theorem nbtFixedInteger_length {n : Nat}
    (h : nbtFixedInteger (.number (.int n)) 2 little true = .ok bs) : bs = setUint little 2 n ∧ n < 65536 := by
  unfold nbtFixedInteger at h
  rw [if_neg (by decide)] at h
  simp only [if_true] at h
  match hint : integer (.int n) 0 (2 ^ (2 * 8) - 1) with
  | .error e =>
    rw [hint] at h
    cases h
  | .ok m =>
    rw [hint] at h
    cases h
    obtain ⟨hm, -, hhigh⟩ := integer_ok hint
    cases hm
    have hlt : n < 65536 := by norm_num at hhigh; omega
    refine ⟨?_, hlt⟩
    rw [setInt, ofSigned, Int.emod_eq_of_lt (by omega) (by norm_num; omega)]
    rfl

theorem stringParts_text {text : Utf16} {ps : List Bytes} (h : stringParts encoding text = .ok ps) :
    ∃ t : RawText, ps.flatten = t.bytes ∧ t.Valid encoding ∧ encodeNbtString text encoding.strings = .ok t.content := by
  unfold stringParts at h
  match henc : encodeNbtString text encoding.strings with
  | .error e =>
    rw [henc] at h
    cases h
  | .ok bytes =>
    rw [henc] at h
    simp only [bind, Except.bind] at h
    by_cases hvar : encoding.varints = true
    · rw [if_pos hvar] at h
      match hlen : nbtVariableInteger bytes.length 32 false with
      | .error e =>
        rw [hlen] at h
        cases h
      | .ok lengthBytes =>
        rw [hlen] at h
        cases h
        obtain ⟨hspell, -, -⟩ := nbtVariableInteger_spells encoding (by decide) hlen
        exact ⟨⟨lengthBytes, bytes⟩, by simp [RawText.bytes], RawText.valid_iff.mpr (by rwa [if_pos hvar]), rfl⟩
    · rw [if_neg hvar] at h
      match hlen : nbtFixedInteger (.number (.int bytes.length)) 2 encoding.isLittle true with
      | .error e =>
        rw [hlen] at h
        cases h
      | .ok lengthBytes =>
        rw [hlen] at h
        cases h
        obtain ⟨rfl, hbound⟩ := nbtFixedInteger_length hlen
        have hfixed : SpellsFixed encoding 2 true (setUint encoding.isLittle 2 bytes.length) bytes.length := by
          refine spellsFixed_iff.mpr ⟨setUint_length .., ?_⟩
          simp only [viewInt, setUint_length, Bool.true_and, getUint_setUint]
          rw [Nat.mod_eq_of_lt (by norm_num; omega)]
          rfl
        exact ⟨⟨setUint encoding.isLittle 2 bytes.length, bytes⟩, by simp [RawText.bytes],
          RawText.valid_iff.mpr (by rwa [if_neg hvar]), rfl⟩

end Fields

/-! ## Arrays -/

def arrayNumber (type : NbtTag) (n : Int) : NbtNumber := if type = .longArray then .bigint n else .number (.int n)

/-- `ints` fit words of `width` bytes. -/
def FitsWidth (width : Nat) (ints : List Int) : Prop :=
  ∀ n ∈ ints, -(256 ^ width : Nat) ≤ 2 * n ∧ 2 * n < (256 ^ width : Nat)

/-- The integers an array tag is read back as: the numbers it yields, but for a typed array of the tag's
own width its words as signed integers. -/
def ArrayValues.Stores (type : NbtTag) (value : ArrayValues) (ints : List Int) : Prop :=
  match value with
  | .view kind words =>
    if kind.width = type.width then ints = words.map BitVec.toInt
    else value.elements = ints.map (arrayNumber type)
  | .iterable values => values = ints.map (arrayNumber type)

section Arrays

variable {encoding : NbtEncoding} {hostLittle : Bool}

variable {length : JsNumber} {width : Nat} {type : NbtTag}

theorem elementPart_ok {value : NbtNumber} {bs : Bytes} (h : elementPart encoding type value = .ok bs) :
    type.isArray = true ∧ ∃ n, value = arrayNumber type n ∧ bs = setInt encoding.isLittle type.width n ∧
      -(256 ^ type.width : Nat) ≤ 2 * n ∧ 2 * n < (256 ^ type.width : Nat) := by
  unfold elementPart at h
  cases type with
  | byteArray =>
    refine ⟨rfl, ?_⟩
    cases value with
    | bigint _ => cases h
    | number value =>
      cases hint : integer value (-128) 127 with
      | error e =>
        simp only [hint] at h
        cases h
      | ok n =>
        simp only [hint] at h
        cases h
        obtain ⟨rfl, hlow, hhigh⟩ := integer_ok hint
        refine ⟨n, rfl, ?_, by simp [NbtTag.width]; omega, by simp [NbtTag.width]; omega⟩
        show _ = setInt encoding.isLittle 1 n
        simp only [setInt, setUint, leBytes, reverse_singleton, ite_self]
  | intArray =>
    refine ⟨rfl, ?_⟩
    cases value with
    | bigint _ => cases h
    | number value =>
      obtain ⟨n, rfl, rfl, hlow, hhigh⟩ := nbtFixedInteger_number (by decide) (by decide) h
      exact ⟨n, rfl, rfl, hlow, hhigh⟩
  | longArray =>
    refine ⟨rfl, ?_⟩
    cases value with
    | number _ => cases h
    | bigint n =>
      obtain ⟨rfl, hlow, hhigh⟩ := nbtFixedInteger_bigint h
      exact ⟨n, rfl, rfl, hlow, hhigh⟩
  | _ => cases h

theorem encodeNumbers_ok (values : List NbtNumber) : ∀ count bs, encodeNumbers encoding type length count values = .ok bs →
      ∃ ints : List Int, values = ints.map (arrayNumber type) ∧ length = .int (count + ints.length : Nat) ∧
        bs = ints.flatMap (setInt encoding.isLittle type.width) ∧ FitsWidth type.width ints := by
  induction values with
  | nil =>
    intro count bs h
    rw [encodeNumbers] at h
    split_ifs at h with hlen
    cases h
    exact ⟨[], rfl, by simpa using hlen, rfl, by simp [FitsWidth]⟩
  | cons value rest ih =>
    intro count bs h
    rw [encodeNumbers] at h
    split_ifs at h
    cases hpart : elementPart encoding type value with
    | error e =>
      rw [hpart] at h
      cases h
    | ok part =>
      rw [hpart] at h
      cases hmore : encodeNumbers encoding type length (count + 1) rest with
      | error e =>
        simp only [bind, Except.bind, hmore] at h
        cases h
      | ok more =>
        simp only [bind, Except.bind, hmore] at h
        cases h
        obtain ⟨-, n, rfl, rfl, hlow, hhigh⟩ := elementPart_ok hpart
        obtain ⟨ints, rfl, rfl, rfl, hfit⟩ := ih _ _ hmore
        refine ⟨n :: ints, rfl, ?_, rfl, ?_⟩
        · rw [length_cons, show count + 1 + ints.length = count + (ints.length + 1) by omega]
        · intro m hm
          rcases mem_cons.mp hm with rfl | hm
          · exact ⟨hlow, hhigh⟩
          · exact hfit m hm

theorem toInt_eq_toSigned (w : BitVec (8 * width)) : w.toInt = toSigned width w.toNat := by
  have hpow : 256 ^ width = 2 ^ (8 * width) := by rw [pow_mul]; rfl
  rw [BitVec.toInt_eq_toNat_cond, toSigned, hpow]

theorem setInt_toInt (little : Bool) (w : BitVec (8 * width)) :
    setInt little width w.toInt = setUint little width w.toNat := by
  have hpow : 256 ^ width = 2 ^ (8 * width) := by rw [pow_mul]; rfl
  rw [setInt, toInt_eq_toSigned, ofSigned_toSigned _ _ (by rw [hpow]; exact w.isLt)]

theorem fitsWidth_toInt (words : List (BitVec (8 * width))) : FitsWidth width (words.map BitVec.toInt) := by
  have hpow : 256 ^ width = 2 ^ (8 * width) := by rw [pow_mul]; rfl
  intro n hn
  obtain ⟨w, -, rfl⟩ := mem_map.mp hn
  rw [toInt_eq_toSigned]
  exact toSigned_bounds _ _ (by rw [hpow]; exact w.isLt)

theorem reverseGroups_flatMap {α : Type} (width : Nat) (f : α → Bytes) (xs : List α) (hf : ∀ x ∈ xs, (f x).length = width) :
    reverseGroups width (xs.flatMap f) xs.length = xs.flatMap fun x => (f x).reverse := by
  induction xs with
  | nil => rfl
  | cons x xs ih =>
    have hx : (f x).length = width := hf x (by simp)
    rw [length_cons, flatMap_cons, reverseGroups, flatMap_cons, ← hx, take_left, drop_left, hx,
      ih fun y hy => hf y (by simp [hy])]

theorem flatMap_length {α : Type} (width : Nat) (f : α → Bytes) (xs : List α) (hf : ∀ x ∈ xs, (f x).length = width) :
    (xs.flatMap f).length = xs.length * width := by
  induction xs with
  | nil => simp
  | cons x xs ih =>
    rw [flatMap_cons, length_append, hf x (by simp), ih fun y hy => hf y (by simp [hy]), length_cons]
    ring

theorem take_flatMap {α : Type} (width : Nat) (f : α → Bytes) (xs : List α) (n : Nat) (hf : ∀ x ∈ xs, (f x).length = width) :
    (xs.flatMap f).take (n * width) = (xs.take n).flatMap f ∧ (xs.flatMap f).drop (n * width) = (xs.drop n).flatMap f := by
  induction xs generalizing n with
  | nil => simp
  | cons x xs ih =>
    have hx : (f x).length = width := hf x (by simp)
    obtain ⟨htake, hdrop⟩ := ih (n - 1) fun y hy => hf y (by simp [hy])
    match n with
    | 0 => simp
    | n + 1 =>
      have hmul : (n + 1) * width = (f x).length + n * width := by rw [hx]; ring
      rw [flatMap_cons, hmul, take_length_add_append, drop_length_add_append]
      exact ⟨by simpa using htake, by simpa using hdrop⟩

theorem swappedParts_flatten {α : Type} (width : Nat) (f : α → Bytes) (hwidth : 0 < width) (hdvd : width ∣ NBT_CHUNK_BYTES)
    (slices : Nat) : ∀ xs : List α, (∀ x ∈ xs, (f x).length = width) → xs.length ≤ slices →
      (swappedParts width (xs.flatMap f) slices).flatten = xs.flatMap fun x => (f x).reverse := by
  obtain ⟨per, hper⟩ := hdvd
  have hperpos : 0 < per := by
    rcases Nat.eq_zero_or_pos per with h | h
    · rw [h, Nat.mul_zero] at hper
      exact absurd hper (by decide)
    · exact h
  induction slices with
  | zero =>
    intro xs _ hlen
    have : xs = [] := length_eq_zero_iff.mp (by omega)
    subst this
    rfl
  | succ slices ih =>
    intro xs hf hlen
    rw [swappedParts]
    by_cases hempty : xs.flatMap f = []
    · have hlen0 := flatMap_length width f xs hf
      rw [hempty, length_nil] at hlen0
      have : xs = [] := by
        rcases Nat.mul_eq_zero.mp hlen0.symm with h | h
        · exact length_eq_zero_iff.mp h
        · omega
      subst this
      rfl
    · rw [if_neg hempty, hper, Nat.mul_comm width per]
      obtain ⟨htake, hdrop⟩ := take_flatMap width f xs per hf
      have hftake : ∀ x ∈ xs.take per, (f x).length = width := fun x hx => hf x (mem_of_mem_take hx)
      have hfdrop : ∀ x ∈ xs.drop per, (f x).length = width := fun x hx => hf x (mem_of_mem_drop hx)
      have hcount : ((xs.take per).flatMap f).length = (xs.take per).length * width := flatMap_length width f _ hftake
      have hgroups : ((xs.take per).length * width + width - 1) / width = (xs.take per).length := by
        rw [Nat.add_sub_assoc hwidth, Nat.mul_comm, Nat.mul_add_div hwidth, Nat.div_eq_of_lt (by omega), Nat.add_zero]
      simp only [htake, hdrop, hcount, hgroups, flatten_cons]
      rw [reverseGroups_flatMap width f _ hftake, ih _ hfdrop (by rw [length_drop]; omega), ← flatMap_append,
        take_append_drop]

theorem setUint_one (a b : Bool) (n : Nat) (h : width = 1) : setUint a width n = setUint b width n := by
  subst h
  cases a <;> cases b <;> rfl

theorem viewWidth_dvd (kind : ViewKind) : 0 < kind.width ∧ kind.width ∣ NBT_CHUNK_BYTES := by
  cases kind <;> decide

theorem viewParts_ok {kind : ViewKind} {words : List (BitVec (8 * kind.width))} {ps : List Bytes}
    (h : viewParts encoding hostLittle kind words length = .ok ps) :
    ∃ header, i32 encoding length = .ok header ∧ length = .int words.length ∧
      ps.flatten = header ++ (words.map BitVec.toInt).flatMap (setInt encoding.isLittle kind.width) := by
  have hcontent : (words.map BitVec.toInt).flatMap (setInt encoding.isLittle kind.width)
      = words.flatMap fun w => setUint encoding.isLittle kind.width w.toNat := by
    rw [flatMap_map]
    exact flatMap_congr fun w _ => setInt_toInt _ w
  unfold viewParts at h
  cases hint : integer length 0 (2 ^ 31 - 1) with
  | error e =>
    rw [hint] at h
    cases h
  | ok n =>
    rw [hint] at h
    obtain ⟨rfl, -, -⟩ := integer_ok hint
    simp only [bind, Except.bind] at h
    by_cases hlen : (words.length : Int) = n
    · rw [if_neg (by simpa using hlen)] at h
      cases hheader : i32 encoding (.int n) with
      | error e =>
        rw [hheader] at h
        cases h
      | ok header =>
        rw [hheader] at h
        simp only at h
        refine ⟨header, rfl, by rw [hlen], ?_⟩
        rw [hcontent]
        by_cases hsame : kind.width = 1 ∨ encoding.isLittle = hostLittle
        · rw [if_pos hsame] at h
          cases h
          rw [flatten_cons, flatten_cons, flatten_nil, append_nil, viewMemory]
          congr 1
          refine flatMap_congr fun w _ => ?_
          rcases hsame with h1 | h1
          · exact setUint_one _ _ _ h1
          · rw [h1]
        · rw [if_neg hsame] at h
          cases h
          have hflip : encoding.isLittle = !hostLittle := by
            cases hl : encoding.isLittle <;> cases hh : hostLittle <;> simp_all
          obtain ⟨hpos, hdvd⟩ := viewWidth_dvd kind
          have hwords : ∀ w ∈ words, (setUint hostLittle kind.width w.toNat).length = kind.width := by simp
          have hle : words.length ≤ (viewMemory hostLittle kind words).length := by
            rw [viewMemory, flatMap_length kind.width _ words hwords]
            exact Nat.le_mul_of_pos_right _ hpos
          rw [flatten_cons]
          congr 1
          have hswap := swappedParts_flatten kind.width (fun w : BitVec (8 * kind.width) => setUint hostLittle kind.width w.toNat)
            hpos hdvd (viewMemory hostLittle kind words).length words hwords hle
          rw [viewMemory] at hswap ⊢
          rw [hswap, hflip]
          exact flatMap_congr fun w _ => setUint_reverse _ _ _
    · rw [if_pos (by simpa using hlen)] at h
      cases h

theorem encodeArray_ok {value : ArrayValues} {bs : Bytes} (h : encodeArray encoding hostLittle type value length = .ok bs) :
    ∃ lengthBytes ints, bs = lengthBytes ++ ints.flatMap (setInt encoding.isLittle type.width) ∧
      length = .int (ints.length : Nat) ∧ SpellsInt encoding lengthBytes ints.length ∧ value.Stores type ints ∧
      FitsWidth type.width ints := by
  have hcounted : ∀ values, (do
        let _ ← integer length 0 (2 ^ 31 - 1)
        let header ← i32 encoding length
        let body ← encodeNumbers encoding type length 0 values
        .ok (header ++ body) : Except NbtError Bytes) = .ok bs →
      ∃ lengthBytes ints, bs = lengthBytes ++ ints.flatMap (setInt encoding.isLittle type.width) ∧
        length = .int (ints.length : Nat) ∧ SpellsInt encoding lengthBytes ints.length ∧
        values = ints.map (arrayNumber type) ∧ FitsWidth type.width ints := by
    intro values h
    match hint : integer length 0 (2 ^ 31 - 1), hheader : i32 encoding length,
        hbody : encodeNumbers encoding type length 0 values with
    | .error e, _, _ => rw [hint] at h; cases h
    | .ok n, .error e, _ => rw [hint, hheader] at h; cases h
    | .ok n, .ok header, .error e => rw [hint, hheader, hbody] at h; cases h
    | .ok n, .ok header, .ok body =>
      rw [hint, hheader, hbody] at h
      cases h
      obtain ⟨ints, rfl, rfl, rfl, hfit⟩ := encodeNumbers_ok values 0 body hbody
      obtain ⟨m, hm, hspell, -⟩ := i32_spells hheader
      cases hm
      rw [Nat.zero_add] at hspell ⊢
      exact ⟨header, ints, rfl, rfl, hspell, rfl, hfit⟩
  unfold encodeArray at h
  match value with
  | .iterable values => exact hcounted values h
  | .view kind words =>
    unfold ArrayValues.Stores
    by_cases hwidth : kind.width = type.width
    · simp only [hwidth, if_true] at h ⊢
      match hview : viewParts encoding hostLittle kind words length with
      | .error e =>
        rw [hview] at h
        cases h
      | .ok ps =>
        rw [hview] at h
        cases h
        obtain ⟨header, hheader, rfl, hflat⟩ := viewParts_ok hview
        obtain ⟨m, hm, hspell, -⟩ := i32_spells hheader
        cases hm
        refine ⟨header, words.map BitVec.toInt, ?_, by simp, by simpa using hspell, rfl, ?_⟩
        · rw [hflat, ← hwidth]
        · rw [← hwidth]
          exact fitsWidth_toInt words
    · simp only [hwidth, if_false] at h ⊢
      exact hcounted _ h

end Arrays

end Cantrip.Nbt
