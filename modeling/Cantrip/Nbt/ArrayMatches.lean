import Cantrip.Nbt.SearchText

/-!
# Searching numeric arrays (`NbtDocumentSearch.arrayMatches` of `packages/nbt/src/search/search.ts`)

The elements of an array are tested one by one, unless a look at the query shows that a field cannot match. What is
recorded are runs of elements with the same matched fields. The guards drop no match: the runs say for every element
what testing all fields says (`array_matches_lossless`).
-/

namespace Cantrip.Nbt

open Lib List

namespace SearchText

/-! ## The code -/

def elementType (type : NbtTag) : NbtTag := if type = .byteArray then .byte else if type = .intArray then .int else .long

def minimum (type : NbtTag) : Int :=
  if elementType type = .byte then -128 else if elementType type = .int then -2147483648 else -9223372036854775808

def maximum (type : NbtTag) : Int := -minimum type - 1

structure NumericArray where
  node : SearchNode
  type : NbtTag
  values : List Int
  array : type.isArray = true
  range : ∀ v ∈ values, minimum type ≤ v ∧ v ≤ maximum type

/-- `NBT_TYPE_NAMES` of an element type. -/
def elementTypeName (type : NbtTag) : Utf16 :=
  if elementType type = .byte then [0x42, 0x79, 0x74, 0x65]
  else if elementType type = .int then [0x49, 0x6e, 0x74]
  else [0x4c, 0x6f, 0x6e, 0x67]

/-- An element as `NbtReadModel.array` gives it. -/
def elementScalar (type : NbtTag) (v : Int) : Scalar :=
  if elementType type = .long then .bigint v else .number (.finite v)

/-- `nbtScalarText` of an element, which is never -0. -/
def nbtScalarText (v : Int) : Utf16 := if v < 0 then 0x2d :: Wire.decimal v.natAbs else Wire.decimal v.natAbs

/-- Fields that may match. -/
structure Possible where
  names : Bool
  types : Bool
  paths : Bool
  values : Bool

/-- `/^-?[0-9]*$/` -/
def isSignedDigits : Utf16 → Bool
  | [] => true
  | u :: rest => (u == 0x2d || isDigit u) && rest.all isDigit

def exactPossible (type : NbtTag) (query : NbtSearchQuery) : Bool :=
  let text := trim query.text
  if elementType type = .long then
    match readInteger text with
    | some integer => decide (minimum type ≤ integer ∧ integer ≤ maximum type)
    | none => false
  else
    let expected := toNumber text
    expected.isInteger && expected.within (minimum type) (maximum type) && numericMatcher query.text (.number expected)

def possible (cases : CaseTable) (a : NumericArray) (query : NbtSearchQuery) (path : Option PathTail) : Possible :=
  let maxDigits := (Wire.decimal (a.values.length - 1)).length
  { names := query.fields.contains .name && decide (query.text.length ≤ maxDigits) && query.text.all isDigit
    types := query.fields.contains .type && literalMatcher cases query (elementTypeName a.type)
    paths := path.any fun path => path.matched || query.text.getLast?.any fun u => isDigit u || u == 0x2f
    values := query.fields.contains .value &&
      if query.exactNumber then exactPossible a.type query
      else decide (query.text.length ≤ (nbtScalarText (minimum a.type)).length) && isSignedDigits query.text }

def valueMatches (cases : CaseTable) (type : NbtTag) (query : NbtSearchQuery) (v : Int) : Bool :=
  if query.exactNumber then numericMatcher query.text (elementScalar type v) else literalMatcher cases query (nbtScalarText v)

def matchedFields (cases : CaseTable) (type : NbtTag) (query : NbtSearchQuery) (path : Option PathTail) (p : Possible)
    (value : Option Int) (at_ : Nat) : List NbtSearchField :=
  (if p.names && literalMatcher cases query (Wire.decimal at_) then [.name] else []) ++
  (if p.types then [.type] else []) ++
  (if p.paths && path.any fun path => path.matched || literalMatcher cases query (path.tail ++ 0x2f :: Wire.decimal at_)
    then [.path] else []) ++
  if value.any (valueMatches cases type query) then [.value] else []

/-- A call of `appendRange`: elements in a row with the same matched fields. -/
structure MatchRun where
  start : Nat
  count : Nat
  fields : List NbtSearchField
  deriving DecidableEq, Repr

structure RunState where
  runStart : Nat
  runCount : Nat := 0
  runFields : List NbtSearchField := []
  appended : List MatchRun := []

def RunState.flush (s : RunState) : RunState :=
  { s with
    appended := if s.runCount = 0 then s.appended else s.appended ++ [⟨s.runStart, s.runCount, s.runFields⟩]
    runCount := 0 }

/-- The fields of a run are compared by their joined names, which are without commas. -/
def RunState.turn (s : RunState) (at_ : Nat) (matched : List NbtSearchField) : RunState :=
  if matched ≠ [] ∧ s.runCount ≠ 0 ∧ matched = s.runFields then { s with runCount := s.runCount + 1 }
  else
    let s := s.flush
    { s with runStart := at_, runFields := matched, runCount := if matched ≠ [] then 1 else s.runCount }

def pageRuns (fields : Option Int → Nat → List NbtSearchField) (values : Option (List Int)) (offset count : Nat) :
    List MatchRun :=
  let start : RunState := { runStart := offset }
  let s := (List.range count).foldl (fun (s : RunState) i =>
    s.turn (offset + i) (fields (values.bind fun values => values[i]?) (offset + i))) start
  s.flush.appended

def arrayRuns (a : NumericArray) (fields : Option Int → Nat → List NbtSearchField) (valuesPossible : Bool) (offset : Nat) :
    List MatchRun :=
  if offset < a.values.length then
    let count := min 4096 (a.values.length - offset)
    let values := if valuesPossible then some (slice a.values offset count) else none
    pageRuns fields values offset count ++ arrayRuns a fields valuesPossible (offset + 4096)
  else []
termination_by a.values.length - offset
decreasing_by omega

def arrayMatches (cases : CaseTable) (model : SearchModel) (a : NumericArray) (query : NbtSearchQuery) :
    Except String (List MatchRun) := do
  let path ← if query.fields.contains .path then some <$> pathTail cases model a.node query else pure none
  let p := possible cases a query path
  if !p.names && !p.values && !p.types && !p.paths then return []
  return arrayRuns a (matchedFields cases a.type query path p) p.values 0

def testedFields (cases : CaseTable) (type : NbtTag) (query : NbtSearchQuery) (path : Option Utf16) (v : Int) (i : Nat) :
    List NbtSearchField :=
  (if query.fields.contains .name && literalMatcher cases query (Wire.decimal i) then [.name] else []) ++
  (if query.fields.contains .type && literalMatcher cases query (elementTypeName type) then [.type] else []) ++
  (if path.any fun path => literalMatcher cases query (path ++ 0x2f :: Wire.decimal i) then [.path] else []) ++
  if query.fields.contains .value && valueMatches cases type query v then [.value] else []

/-- The elements with their matched fields, if any match. -/
def bruteForce (cases : CaseTable) (a : NumericArray) (query : NbtSearchQuery) (path : Option Utf16) :
    List (Nat × List NbtSearchField) :=
  (a.values.zipIdx.map fun (v, i) => (i, testedFields cases a.type query path v i)).filter fun e => e.2 ≠ []

def MatchRun.elements (run : MatchRun) : List (Nat × List NbtSearchField) :=
  (List.range run.count).map fun i => (run.start + i, run.fields)

/-! ## Runs -/

namespace RunState

/-- The elements recorded so far. -/
def elements (s : RunState) : List (Nat × List NbtSearchField) :=
  s.appended.flatMap MatchRun.elements ++ MatchRun.elements ⟨s.runStart, s.runCount, s.runFields⟩

/-- The growing run ends before the next element. -/
def Reaches (s : RunState) (at_ : Nat) : Prop := s.runCount ≠ 0 → s.runStart + s.runCount = at_

theorem elements_flush (s : RunState) : s.flush.appended.flatMap MatchRun.elements = s.elements := by
  rw [flush, elements]
  dsimp only
  split
  · next h =>
    rw [h]
    exact (append_nil _).symm
  · rw [flatMap_append, flatMap_singleton]

theorem elements_succ (start count : Nat) (fields : List NbtSearchField) :
    MatchRun.elements ⟨start, count + 1, fields⟩ = MatchRun.elements ⟨start, count, fields⟩ ++ [(start + count, fields)] := by
  rw [MatchRun.elements, MatchRun.elements, range_succ, map_append]
  rfl

theorem turn_elements {s : RunState} {at_ : Nat} (h : s.Reaches at_) (matched : List NbtSearchField) :
    (s.turn at_ matched).elements = s.elements ++ (if matched = [] then [] else [(at_, matched)]) ∧
      (s.turn at_ matched).Reaches (at_ + 1) := by
  rw [turn]
  split
  · next hgrows =>
    obtain ⟨hne, hcount, hsame⟩ := hgrows
    have hend := h hcount
    constructor
    · rw [elements, elements_succ, if_neg hne, elements, append_assoc, hend, hsame]
    · intro _
      show s.runStart + (s.runCount + 1) = at_ + 1
      omega
  · dsimp only
    constructor
    · rw [elements, elements_flush]
      dsimp only
      split
      · rfl
      · next hnil =>
        rw [if_pos (not_not.mp hnil)]
        rfl
    · intro hcount
      split at hcount
      · next hne =>
        show at_ + (if matched ≠ [] then 1 else _) = at_ + 1
        rw [if_pos hne]
      · exact absurd rfl hcount

end RunState

theorem fold_elements (matched : Nat → List NbtSearchField) (offset count : Nat) {s : RunState} (h : s.Reaches offset) :
    ((List.range count).foldl (fun (s : RunState) i => s.turn (offset + i) (matched i)) s).elements =
        s.elements ++ ((List.range count).map fun i => (offset + i, matched i)).filter (fun e => e.2 ≠ []) ∧
      ((List.range count).foldl (fun (s : RunState) i => s.turn (offset + i) (matched i)) s).Reaches (offset + count) := by
  induction count with
  | zero => exact ⟨(append_nil _).symm, h⟩
  | succ count ih =>
    obtain ⟨helements, hreaches⟩ := ih
    obtain ⟨hturn, hnext⟩ := RunState.turn_elements hreaches (matched count)
    rw [range_succ, foldl_append, foldl_cons, foldl_nil]
    refine ⟨?_, hnext⟩
    rw [hturn, helements, map_append, filter_append, append_assoc]
    congr 2
    by_cases hnil : matched count = []
    · rw [if_pos hnil, map_singleton, filter_singleton, hnil]
      rfl
    · rw [if_neg hnil, map_singleton, filter_singleton]
      rw [decide_eq_true hnil, cond_true]

theorem pageRuns_elements (fields : Option Int → Nat → List NbtSearchField) (values : Option (List Int)) (offset count : Nat) :
    (pageRuns fields values offset count).flatMap MatchRun.elements = ((List.range count).map fun i =>
        (offset + i, fields (values.bind fun values => values[i]?) (offset + i))).filter fun e => e.2 ≠ [] := by
  rw [pageRuns, RunState.elements_flush]
  exact (fold_elements (fun i => fields (values.bind fun values => values[i]?) (offset + i)) offset count
    (s := { runStart := offset }) fun h => absurd rfl h).1

theorem range'_page (page offset left : Nat) :
    range' offset left = range' offset (min page left) ++ range' (offset + page) (left - page) := by
  by_cases hlast : left ≤ page
  · rw [Nat.min_eq_right hlast, Nat.sub_eq_zero_of_le hlast, range'_zero, append_nil]
  · rw [Nat.min_eq_left (Nat.le_of_not_le hlast), range'_append_1, Nat.add_sub_of_le (Nat.le_of_not_le hlast)]

theorem arrayRuns_elements (a : NumericArray) (fields : Option Int → Nat → List NbtSearchField) (valuesPossible : Bool)
    (offset : Nat) : (arrayRuns a fields valuesPossible offset).flatMap MatchRun.elements =
      ((range' offset (a.values.length - offset)).map fun i =>
        (i, fields (if valuesPossible then a.values[i]? else none) i)).filter fun e => e.2 ≠ [] := by
  induction hleft : a.values.length - offset using Nat.strong_induction_on generalizing offset with
  | _ left ih =>
    subst hleft
    rw [arrayRuns]
    split
    · next hlt =>
      have hpage : (List.range (min 4096 (a.values.length - offset))).map (fun i => (offset + i,
          fields ((if valuesPossible then some (slice a.values offset (min 4096 (a.values.length - offset))) else none).bind
            fun values => values[i]?) (offset + i))) =
          (range' offset (min 4096 (a.values.length - offset))).map fun i =>
            (i, fields (if valuesPossible then a.values[i]? else none) i) := by
        rw [range'_eq_map_range, map_map]
        refine map_congr_left fun i hi => ?_
        have hin := mem_range.mp hi
        cases valuesPossible with
        | false => rfl
        | true =>
          show (offset + i, fields ((slice a.values offset _)[i]?) (offset + i)) = (offset + i, fields (a.values[offset + i]?) _)
          rw [slice, getElem?_take_of_lt hin, getElem?_drop]
      have hsplit : range' offset (a.values.length - offset) =
          range' offset (min 4096 (a.values.length - offset)) ++
            range' (offset + 4096) (a.values.length - (offset + 4096)) := by
        rw [range'_page 4096, Nat.sub_sub]
      dsimp only
      rw [flatMap_append, pageRuns_elements, hpage, ih _ (by omega) (offset + 4096) rfl, hsplit, map_append, filter_append]
    · next hge =>
      rw [Nat.sub_eq_zero_of_le (Nat.le_of_not_lt hge)]
      rfl

section Guards

variable (cases : CaseTable) {query : NbtSearchQuery} (h : Foldable query)

theorem decimal_digit {n : Nat} {u : UInt16} (hu : u ∈ Wire.decimal n) : isDigit u = true := by
  obtain ⟨c, hc, rfl⟩ := mem_map.mp hu
  have hdigit := isDigitChar_digits hc
  simp only [isDigitChar, decide_eq_true_eq] at hdigit
  refine decide_eq_true ?_
  rw [UInt16.toNat_ofNat']
  omega

theorem isDigit_plain {u : UInt16} (hu : isDigit u = true) : u.toNat < 0x41 := by
  have := of_decide_eq_true hu
  omega

theorem decimal_length_mono {m n : Nat} (hmn : m ≤ n) : (Wire.decimal m).length ≤ (Wire.decimal n).length := by
  rw [Wire.decimal, Wire.decimal, length_map, length_map, Nat.length_toDigits_le_iff (by decide) Nat.length_toDigits_pos]
  exact hmn.trans_lt ((Nat.length_toDigits_le_iff (by decide) Nat.length_toDigits_pos).mp (Nat.le_refl _))

include h

theorem names_lossless {length i : Nat} (hi : i < length) (hmatch : literalMatcher cases query (Wire.decimal i) = true) :
    query.text.length ≤ (Wire.decimal (length - 1)).length ∧ query.text.all isDigit = true := by
  have hin := infix_of_match cases h (fun u hu => isDigit_plain (decimal_digit hu)) hmatch
  refine ⟨hin.length_le.trans (decimal_length_mono (Nat.le_sub_one_of_lt hi)), all_eq_true.mpr fun u hu => ?_⟩
  exact decimal_digit (hin.subset hu)

omit h in
theorem isSignedDigits_of_infix {digits w : Utf16} (hdigits : ∀ u ∈ digits, isDigit u = true)
    (hw : w <:+: 0x2d :: digits) : isSignedDigits w = true := by
  cases w with
  | nil => rfl
  | cons u w =>
    rw [isSignedDigits, Bool.and_eq_true, Bool.or_eq_true, all_eq_true]
    rcases infix_cons_iff.mp hw with hprefix | hin
    · obtain ⟨rfl, htail⟩ := cons_prefix_cons.mp hprefix
      exact ⟨.inl rfl, fun v hv => hdigits v (htail.subset hv)⟩
    · exact ⟨.inr (hdigits u (hin.subset mem_cons_self)),
        fun v hv => hdigits v (hin.subset (mem_cons_of_mem _ hv))⟩

theorem literal_lossless {type : NbtTag} {v : Int} (hlow : minimum type ≤ v) (hhigh : v ≤ maximum type)
    (hmatch : literalMatcher cases query (nbtScalarText v) = true) :
    query.text.length ≤ (nbtScalarText (minimum type)).length ∧ isSignedDigits query.text = true := by
  have hnegative : minimum type < 0 := by
    rw [minimum]
    split
    · decide
    · split <;> decide
  have hplain : ∀ u ∈ nbtScalarText v, u.toNat < 0x41 := by
    intro u hu
    rw [nbtScalarText] at hu
    split at hu
    · rcases mem_cons.mp hu with rfl | hu
      · decide
      · exact isDigit_plain (decimal_digit hu)
    · exact isDigit_plain (decimal_digit hu)
  have hin := infix_of_match cases h hplain hmatch
  have hdecimal : nbtScalarText v <:+: 0x2d :: Wire.decimal v.natAbs := by
    rw [nbtScalarText]
    split
    · exact infix_refl _
    · exact (suffix_cons _ _).isInfix
  refine ⟨(hin.trans hdecimal).length_le.trans ?_, isSignedDigits_of_infix (fun u hu => decimal_digit hu) (hin.trans hdecimal)⟩
  rw [nbtScalarText, if_pos hnegative, length_cons, length_cons]
  refine Nat.succ_le_succ (decimal_length_mono ?_)
  rw [maximum] at hhigh
  omega

omit h in
theorem toNumber_of_expected {text : Utf16} {value : ℚ} (hexpected : expectedNumber text = .finite value) :
    toNumber text = .finite value := by
  rw [expectedNumber] at hexpected
  split at hexpected
  · cases hexpected
  · split at hexpected
    · cases hexpected
    · exact hexpected

omit h in
theorem toNumber_of_matches {text : Utf16} {v : Int} (hv : v.natAbs < 2 ^ 53)
    (hmatch : numericMatcher text (.number (.finite v)) = true) : toNumber (trim text) = .finite v := by
  rw [numericMatcher, Bool.and_eq_true] at hmatch
  obtain ⟨-, hmatch⟩ := hmatch
  cases hinteger : readInteger (trim text) with
  | none =>
    rw [hinteger] at hmatch
    dsimp only at hmatch
    split at hmatch
    · cases hmatch
    · exact toNumber_of_expected (beq_iff_eq.mp hmatch).symm
  | some i =>
    rw [hinteger] at hmatch
    simp only [Bool.and_eq_true, Bool.or_eq_true, beq_iff_eq, Bool.not_eq_true'] at hmatch
    obtain ⟨⟨-, hi⟩, hexact⟩ := hmatch
    have hvi : v = i := by
      rw [← hi]
      exact (Rat.num_intCast v).symm
    rcases hexact with hnonzero | hexpected
    · have hne : i ≠ 0 := by
        rintro rfl
        rw [hvi] at hnonzero
        exact absurd hnonzero (by decide)
      rw [hvi]
      exact toNumber_integer hinteger hne (hvi ▸ hv)
    · exact toNumber_of_expected hexpected.symm

omit h in
theorem exact_lossless {type : NbtTag} {v : Int} (hlow : minimum type ≤ v) (hhigh : v ≤ maximum type)
    (hmatch : numericMatcher query.text (elementScalar type v) = true) : exactPossible type query = true := by
  rw [exactPossible]
  rw [elementScalar] at hmatch
  by_cases hlong : elementType type = .long
  · rw [if_pos hlong] at hmatch ⊢
    rw [numericMatcher, beq_iff_eq] at hmatch
    rw [hmatch]
    exact decide_eq_true ⟨hlow, hhigh⟩
  · rw [if_neg hlong] at hmatch ⊢
    have hsmall : v.natAbs < 2 ^ 53 := by
      rw [maximum] at hhigh
      rw [elementType] at hlong
      simp only [minimum, elementType] at hlow hhigh
      split at hlong
      · next hbyte =>
        simp only [if_pos hbyte, if_true] at hlow hhigh
        omega
      · split at hlong
        · next hbyte hint =>
          simp only [if_neg hbyte, if_pos hint, reduceCtorEq, if_false, if_true] at hlow hhigh
          omega
        · exact absurd rfl hlong
    have hexpected := toNumber_of_matches hsmall hmatch
    rw [hexpected]
    dsimp only
    rw [hmatch, Bool.and_true, Bool.and_eq_true]
    constructor
    · exact beq_iff_eq.mpr (Rat.den_intCast v)
    · refine decide_eq_true ⟨?_, ?_⟩
      · exact_mod_cast hlow
      · exact_mod_cast hhigh

theorem paths_lossless {path : Utf16} {i : Nat} (hpath : literalMatcher cases query path = false)
    (hmatch : literalMatcher cases query (path ++ 0x2f :: Wire.decimal i) = true) :
    (query.text.getLast?.any fun u => isDigit u || u == 0x2f) = true := by
  have hw := literalMatcher_windowed cases h
  obtain ⟨w, hin, hhit⟩ := (hw.test_iff _).mp hmatch
  have hne : w ≠ [] := by
    rintro rfl
    exact absurd hhit.length_eq hw.width_pos.ne
  rcases infix_append_last hin hne with hbefore | ⟨u, hlast, hu⟩
  · rw [(hw.test_iff _).mpr ⟨w, hbefore, hhit⟩] at hpath
    cases hpath
  · have hend : isDigit u = true ∨ u = 0x2f := by
      rcases mem_cons.mp hu with rfl | hu
      · exact .inr rfl
      · exact .inl (decimal_digit hu)
    have hplain : u.toNat < 0x41 := by
      rcases hend with hdigit | rfl
      · exact isDigit_plain hdigit
      · decide
    rw [getLast?_eq_getElem?] at hlast ⊢
    rw [← hhit.length_eq, hhit.plain hplain hlast, Option.any_some, Bool.or_eq_true, beq_iff_eq]
    exact hend

end Guards

theorem guard_and : ∀ {guard has test : Bool}, (has = true → test = true → guard = true) →
    (has && guard && test) = (has && test) := by
  decide

theorem matchedFields_eq (cases : CaseTable) (a : NumericArray) {query : NbtSearchQuery} (h : Foldable query)
    (path : Option Utf16) {i : Nat} {v : Int} (hv : a.values[i]? = some v) :
    let tail := path.map fun path => PathTail.mk (literalMatcher cases query path) (lastPart (max 1 query.text.length) path)
    matchedFields cases a.type query tail (possible cases a query tail)
        (if (possible cases a query tail).values then a.values[i]? else none) i =
      testedFields cases a.type query path v i := by
  intro tail
  have hi : i < a.values.length := (List.getElem?_eq_some_iff.mp hv).1
  obtain ⟨hlow, hhigh⟩ := a.range v (mem_of_getElem? hv)
  have hnames : ((possible cases a query tail).names && literalMatcher cases query (Wire.decimal i)) =
      (query.fields.contains .name && literalMatcher cases query (Wire.decimal i)) := by
    rw [possible, Bool.and_assoc (query.fields.contains .name)]
    refine guard_and fun _ hmatch => ?_
    obtain ⟨hlength, hdigits⟩ := names_lossless cases h hi hmatch
    rw [hdigits, Bool.and_true]
    exact decide_eq_true hlength
  have hpaths : ((possible cases a query tail).paths && tail.any fun path => path.matched ||
        literalMatcher cases query (path.tail ++ 0x2f :: Wire.decimal i)) =
      path.any fun path => literalMatcher cases query (path ++ 0x2f :: Wire.decimal i) := by
    cases path with
    | none => rfl
    | some path =>
      have happend := (literalMatcher_windowed cases h).test_append
        (Nat.le_succ_of_le (Nat.le_max_right 1 query.text.length)) path (0x2f :: Wire.decimal i)
      have hends := @paths_lossless cases query h path i
      show ((literalMatcher cases query path || query.text.getLast?.any fun u => isDigit u || u == 0x2f) &&
        (literalMatcher cases query path || literalMatcher cases query (lastPart _ path ++ 0x2f :: Wire.decimal i))) =
          literalMatcher cases query (path ++ 0x2f :: Wire.decimal i)
      rw [← happend]
      cases hpath : literalMatcher cases query path with
      | true =>
        rw [happend, hpath]
        rfl
      | false =>
        rw [Bool.false_or]
        exact @guard_and _ true _ fun _ hmatch => hends hpath hmatch
  have hvalues : (if (possible cases a query tail).values then a.values[i]? else none).any (valueMatches cases a.type query) =
      (query.fields.contains .value && valueMatches cases a.type query v) := by
    rw [hv]
    have hany : ∀ b : Bool, (if b then some v else none).any (valueMatches cases a.type query) =
        (b && valueMatches cases a.type query v) := by
      intro b
      cases b <;> rfl
    rw [hany, possible]
    refine guard_and fun _ hmatch => ?_
    rw [valueMatches] at hmatch
    split
    · next hexact =>
      rw [if_pos hexact] at hmatch
      exact exact_lossless hlow hhigh hmatch
    · next hliteral =>
      rw [if_neg hliteral] at hmatch
      obtain ⟨hlength, hdigits⟩ := literal_lossless cases h hlow hhigh hmatch
      rw [hdigits, Bool.and_true]
      exact decide_eq_true hlength
  rw [matchedFields, testedFields, hnames, hpaths, hvalues]
  rfl

theorem arrayRuns_bruteForce (cases : CaseTable) (a : NumericArray) {query : NbtSearchQuery} (h : Foldable query)
    (path : Option Utf16) :
    let tail := path.map fun path => PathTail.mk (literalMatcher cases query path) (lastPart (max 1 query.text.length) path)
    (arrayRuns a (matchedFields cases a.type query tail (possible cases a query tail))
      (possible cases a query tail).values 0).flatMap MatchRun.elements = bruteForce cases a query path := by
  intro tail
  rw [arrayRuns_elements, bruteForce]
  congr 1
  refine ext_getElem? fun i => ?_
  rw [getElem?_map, getElem?_map, getElem?_zipIdx]
  cases hv : a.values[i]? with
  | none =>
    rw [getElem?_eq_none]
    · rfl
    · rw [length_range', Nat.sub_zero]
      exact List.getElem?_eq_none_iff.mp hv
  | some v =>
    have hi : i < a.values.length := (List.getElem?_eq_some_iff.mp hv).1
    rw [getElem?_range' (by rw [Nat.sub_zero]; exact hi)]
    have heq := matchedFields_eq cases a h path hv
    rw [hv] at heq
    rw [Option.map_some, Option.map_some, Option.map_some, show 0 + 1 * i = i by omega, Nat.zero_add, hv, heq]

theorem bruteForce_impossible (cases : CaseTable) (a : NumericArray) {query : NbtSearchQuery} (h : Foldable query)
    (path : Option Utf16)
    (hnone : let p := possible cases a query (path.map fun path =>
        PathTail.mk (literalMatcher cases query path) (lastPart (max 1 query.text.length) path))
      (!p.names && !p.values && !p.types && !p.paths) = true) : bruteForce cases a query path = [] := by
  simp only [Bool.and_eq_true, Bool.not_eq_true'] at hnone
  obtain ⟨⟨⟨hnames, hvalues⟩, htypes⟩, hpaths⟩ := hnone
  refine filter_eq_nil_iff.mpr fun e he => ?_
  obtain ⟨⟨v, i⟩, hin, rfl⟩ := mem_map.mp he
  have hempty : testedFields cases a.type query path v i = [] := by
    rw [← matchedFields_eq cases a h path (mk_mem_zipIdx_iff_getElem?.mp hin)]
    simp only [matchedFields, hnames, hvalues, htypes, hpaths, Bool.false_and, Bool.false_eq_true, if_false, Option.any_none,
      append_nil]
  exact fun hne => of_decide_eq_true hne hempty

/-- The runs that are recorded for an array say of every element which of its fields match. -/
theorem array_matches_lossless (cases : CaseTable) (model : SearchModel) (a : NumericArray) (query : NbtSearchQuery)
    (h : query.caseSensitive = false → Ascii query.text) :
    (arrayMatches cases model a query).map (fun runs => runs.flatMap MatchRun.elements) =
      (if query.fields.contains .path then some <$> fullPath model a.node else pure none).map
        fun path => bruteForce cases a query path := by
  have hruns : ∀ path : Option Utf16,
      let tail := path.map fun path => PathTail.mk (literalMatcher cases query path) (lastPart (max 1 query.text.length) path)
      let p := possible cases a query tail
      (if (!p.names && !p.values && !p.types && !p.paths) = true then []
        else arrayRuns a (matchedFields cases a.type query tail p) p.values 0).flatMap MatchRun.elements =
        bruteForce cases a query path := by
    intro path tail p
    split
    · next hnone => exact (bruteForce_impossible cases a h path hnone).symm
    · exact arrayRuns_bruteForce cases a h path
  have hmap : ∀ (none : Bool) (runs : List MatchRun),
      (if none then pure [] else pure runs : Except String (List MatchRun)).map (fun runs => runs.flatMap MatchRun.elements) =
        .ok ((if none then [] else runs).flatMap MatchRun.elements) := by
    intro none runs
    cases none <;> rfl
  rw [arrayMatches]
  by_cases hpath : query.fields.contains .path = true
  · rw [if_pos hpath, if_pos hpath, pathTail_eq cases model a.node h]
    cases fullPath model a.node with
    | error e => rfl
    | ok path => exact (hmap _ _).trans (congrArg Except.ok (hruns (some path)))
  · rw [if_neg hpath, if_neg hpath]
    exact (hmap _ _).trans (congrArg Except.ok (hruns none))

/-- Mappings of no other characters than ASCII, U+0130 and U+212A. -/
def latinCases : CaseTable where
  lower _ u _ := if u.toNat < 0x80 then [asciiLower u] else if u = 0x130 then [0x69, 0x307] else if u = 0x212a then [0x6b] else [u]
  ascii _ _ _ hu := if_pos hu
  dotted _ _ := rfl
  kelvin _ _ := rfl
  other _ u _ hu hdotted hkelvin := by
    rw [if_neg (Nat.not_lt.mpr hu), if_neg hdotted, if_neg hkelvin]
    refine ⟨cons_ne_nil _ _, fun v hv => ?_⟩
    rw [mem_singleton.mp hv]
    exact hu

theorem array_matches_lossless_one :
    (arrayMatches latinCases { getNode := fun _ => none, text := fun _ _ => .error "Indexed node is unavailable" }
        { node := { id := "node:0", parent := none, ordinal := 0, name := none }, type := .intArray, values := [12, -3, 120]
          array := rfl, range := by decide }
        { text := [0x31], fields := [.name, .value, .path], caseSensitive := false, exactNumber := false
          nonempty := cons_ne_nil _ _ }).map (fun runs => runs.flatMap MatchRun.elements) =
      .ok [(0, [.value]), (1, [.name, .path]), (2, [.value])] :=
  (array_matches_lossless _ _ _ _ fun _ u hu => by
    rw [mem_singleton.mp hu]
    decide).trans rfl

end SearchText

end Cantrip.Nbt
