import Cantrip.Lib.Number
import Cantrip.Lib.Window
import Cantrip.Nbt.SearchResults
import Cantrip.Wire.Value

/-!
# The text tests of a search (`packages/nbt/src/search/text.ts`)

`literalMatcher` looks for the query in a text. Case is ignored by looking for the lower-case query in the lower-case
text; for an ASCII query that is a window test on the units of the text (`literalMatcher_windowed`), since no mapping
of another character than U+0130 and U+212A puts an ASCII character into the lower-case text. `pathTail` runs the test
over the parts of a path and keeps the end of the path (`pathTail_eq`).
-/

namespace Cantrip.Nbt

open Lib List

structure NbtSearchQuery where
  text : Utf16
  fields : List NbtSearchField
  caseSensitive : Bool
  exactNumber : Bool
  nonempty : text ≠ []

namespace SearchText

def asciiLower (u : UInt16) : UInt16 := if 0x41 ≤ u.toNat ∧ u.toNat ≤ 0x5a then u + 0x20 else u

/-- The lower-case mappings of the runtime's version of Unicode: what a unit contributes to the lower-case text, given
the text before and after it. The second unit of a surrogate pair contributes the second unit of the mapping. U+0130 and
U+212A are the only characters outside ASCII with ASCII characters in their mappings. -/
structure CaseTable where
  lower : Utf16 → UInt16 → Utf16 → Utf16
  ascii : ∀ before u after, u.toNat < 0x80 → lower before u after = [asciiLower u]
  dotted : ∀ before after, lower before 0x130 after = [0x69, 0x307]
  kelvin : ∀ before after, lower before 0x212a after = [0x6b]
  other : ∀ before u after, 0x80 ≤ u.toNat → u ≠ 0x130 → u ≠ 0x212a →
    lower before u after ≠ [] ∧ ∀ v ∈ lower before u after, 0x80 ≤ v.toNat

def lowerFrom (cases : CaseTable) (before : Utf16) : Utf16 → Utf16
  | [] => []
  | u :: after => cases.lower before u after ++ lowerFrom cases (before ++ [u]) after

def toLowerCase (cases : CaseTable) (text : Utf16) : Utf16 := lowerFrom cases [] text

/-! ## The tests -/

def literalMatcher (cases : CaseTable) (query : NbtSearchQuery) (text : Utf16) : Bool :=
  let needle := if query.caseSensitive then query.text else toLowerCase cases query.text
  decide (needle <:+: if query.caseSensitive then text else toLowerCase cases text)

inductive Scalar
  | bigint (n : Int)
  | number (value : DoubleValue)
  | text (value : Utf16)
  deriving DecidableEq

def asciiFold (text : Utf16) : Utf16 := text.map asciiLower

def isNaNText (query : Utf16) : Bool := asciiFold (splitSign query).2 == [0x6e, 0x61, 0x6e]

def isInfinityText (query : Utf16) : Bool := asciiFold (splitSign query).2 == asciiFold infinityText

/-- `expected` of `numericMatcher`. -/
def expectedNumber (query : Utf16) : DoubleValue :=
  if isNaNText query then .nan
  else if isInfinityText query then .infinity (query.head? == some 0x2d)
  else toNumber query

def numericMatcher (text : Utf16) (value : Scalar) : Bool :=
  let query := trim text
  let integer := readInteger query
  let valid := isInfinityText query || isNaNText query || (readDecimal query).isSome
  let expected := expectedNumber query
  match value with
  | .bigint n => integer == some n
  | .number v =>
    valid && match integer with
      | some i => v.isFinite && v.isInteger && v.toInt == i && (!v.isZero || v == expected)
      | none => if !expected.isFinite && !(isInfinityText query || isNaNText query) then false else v == expected
  | .text _ => false

/-! ## Paths -/

structure TextPage where
  text : Utf16
  nextByte : Nat

structure SearchNode where
  id : String
  parent : Option String
  ordinal : Nat
  name : Option NbtSpan

/-- What paths are made of. -/
structure SearchModel where
  getNode : String → Option SearchNode
  text (span : NbtSpan) (maxBytes : Nat) : Except String TextPage

def textChunks (model : SearchModel) (offset stop : Nat) : Except String (List Utf16) :=
  if offset < stop then
    match model.text ⟨offset, stop - offset⟩ 4096 with
    | .error e => .error e
    | .ok part =>
      if part.nextByte ≤ offset then .error "NBT text page did not advance."
      else (part.text :: ·) <$> textChunks model part.nextByte stop
  else .ok []
termination_by stop - offset

/-- `ancestors` grows by one node at a time, so the check that there are no more than 4096 is a budget. -/
def pathAncestors (model : SearchModel) : Nat → SearchNode → List SearchNode → Except String (List SearchNode)
  | 0, _, _ => .error "NBT path depth exceeded."
  | budget + 1, current, ancestors =>
    match current.parent.bind model.getNode with
    | none => .ok (current :: ancestors)
    | some parent => pathAncestors model budget parent (current :: ancestors)

/-- `text.replaceAll("~", "~0").replaceAll("/", "~1")`. -/
def escapePath (text : Utf16) : Utf16 :=
  (text.flatMap fun u => if u = 0x7e then [0x7e, 0x30] else [u]).flatMap fun u => if u = 0x2f then [0x7e, 0x31] else [u]

def partChunks (model : SearchModel) (part : SearchNode) : Except String (List Utf16) := do
  let slash := if part.parent.isSome || part.name.any (·.length != 0) then [[0x2f]] else []
  match part.name with
  | some span =>
    let chunks ← textChunks model span.offset (span.offset + span.length)
    return slash ++ chunks.map escapePath
  | none => return slash ++ if part.parent.isSome then [Wire.decimal part.ordinal] else []

def pathChunks (model : SearchModel) (node : SearchNode) : Except String (List Utf16) := do
  let ancestors ← pathAncestors model (4096 + 1) node []
  let parts ← ancestors.mapM (partChunks model)
  return parts.flatten

structure PathTail where
  matched : Bool
  tail : Utf16

def pathTail (cases : CaseTable) (model : SearchModel) (node : SearchNode) (query : NbtSearchQuery) :
    Except String PathTail := do
  let chunks ← pathChunks model node
  let found := chunks.foldl (fun s part =>
    let current := s.2 ++ part
    (s.1 || literalMatcher cases query current, lastPart (max 1 query.text.length) current)) (false, [])
  return { matched := found.1, tail := found.2 }

/-! ## Windows -/

/-- A window of a text whose lower-case text is the ASCII needle. -/
inductive Folds : Utf16 → Utf16 → Prop
  | nil : Folds [] []
  | ascii {u : UInt16} {w needle : Utf16} (hu : u.toNat < 0x80) (h : Folds w needle) : Folds (u :: w) (asciiLower u :: needle)
  | kelvin {w needle : Utf16} (h : Folds w needle) : Folds (0x212a :: w) (0x6b :: needle)
  | dotted : Folds [0x130] [0x69]

variable {query : NbtSearchQuery} {u : UInt16} {needle text w : Utf16}

theorem Folds.length_eq (h : Folds w needle) : w.length = needle.length := by
  induction h with
  | nil => rfl
  | ascii hu h ih => rw [length_cons, length_cons, ih]
  | kelvin h ih => rw [length_cons, length_cons, ih]
  | dotted => rfl

def Ascii (text : Utf16) : Prop := ∀ u ∈ text, u.toNat < 0x80

theorem asciiLower_lt (h : u.toNat < 0x80) : (asciiLower u).toNat < 0x80 := by
  rw [asciiLower]
  split
  · next hu =>
    rw [UInt16.toNat_add, show (0x20 : UInt16).toNat = 0x20 from rfl]
    omega
  · exact h

theorem asciiLower_plain {v : UInt16} (hu : u.toNat < 0x41) (h : asciiLower v = u) : v = u := by
  rw [asciiLower] at h
  split at h
  · next hv =>
    have hnat := congrArg UInt16.toNat h
    rw [UInt16.toNat_add, show (0x20 : UInt16).toNat = 0x20 from rfl] at hnat
    omega
  · exact h

theorem asciiLower_of_plain (hu : u.toNat < 0x41) : asciiLower u = u := if_neg (by omega)

theorem ascii_fold (h : Ascii text) : Ascii (asciiFold text) := by
  intro u hu
  obtain ⟨v, hv, rfl⟩ := mem_map.mp hu
  exact asciiLower_lt (h v hv)

theorem lowerFrom_ascii (cases : CaseTable) (before : Utf16) (h : Ascii text) :
    lowerFrom cases before text = asciiFold text := by
  induction text generalizing before with
  | nil => rfl
  | cons u text ih =>
    rw [lowerFrom, cases.ascii _ _ _ (h u mem_cons_self), ih _ fun v hv => h v (mem_cons_of_mem _ hv)]
    rfl

theorem folds_cons {c : UInt16} : (∃ w, w <+: u :: text ∧ Folds w (c :: needle)) ↔
      (u.toNat < 0x80 ∧ asciiLower u = c ∧ ∃ w, w <+: text ∧ Folds w needle) ∨
      (u = 0x212a ∧ c = 0x6b ∧ ∃ w, w <+: text ∧ Folds w needle) ∨ (u = 0x130 ∧ c = 0x69 ∧ needle = []) := by
  constructor
  · rintro ⟨w, hw, hfolds⟩
    cases hfolds with
    | ascii hu h =>
      obtain ⟨rfl, htail⟩ := cons_prefix_cons.mp hw
      exact .inl ⟨hu, rfl, _, htail, h⟩
    | kelvin h =>
      obtain ⟨rfl, htail⟩ := cons_prefix_cons.mp hw
      exact .inr (.inl ⟨rfl, rfl, _, htail, h⟩)
    | dotted =>
      obtain ⟨rfl, -⟩ := cons_prefix_cons.mp hw
      exact .inr (.inr ⟨rfl, rfl, rfl⟩)
  · rintro (⟨hu, rfl, w, hw, h⟩ | ⟨rfl, rfl, w, hw, h⟩ | ⟨rfl, rfl, rfl⟩)
    · exact ⟨u :: w, cons_prefix_cons.mpr ⟨rfl, hw⟩, .ascii hu h⟩
    · exact ⟨0x212a :: w, cons_prefix_cons.mpr ⟨rfl, hw⟩, .kelvin h⟩
    · exact ⟨[0x130], cons_prefix_cons.mpr ⟨rfl, nil_prefix⟩, .dotted⟩

theorem not_prefix_other {c v : UInt16} {rest : Utf16} (hc : c.toNat < 0x80) (hv : 0x80 ≤ v.toNat) :
    ¬c :: needle <+: v :: rest := by
  rw [cons_prefix_cons]
  rintro ⟨rfl, -⟩
  omega

theorem prefix_lowerFrom (cases : CaseTable) (hneedle : Ascii needle) (before text : Utf16) :
    needle <+: lowerFrom cases before text ↔ ∃ w, w <+: text ∧ Folds w needle := by
  induction text generalizing before needle with
  | nil =>
    rw [lowerFrom, prefix_nil]
    constructor
    · rintro rfl
      exact ⟨[], nil_prefix, .nil⟩
    · rintro ⟨w, hw, hfolds⟩
      rw [prefix_nil.mp hw] at hfolds
      cases hfolds
      rfl
  | cons u text ih =>
    match needle with
    | [] => exact ⟨fun _ => ⟨[], nil_prefix, .nil⟩, fun _ => nil_prefix⟩
    | c :: needle =>
      have hc : c.toNat < 0x80 := hneedle c mem_cons_self
      have hrest : Ascii needle := fun v hv => hneedle v (mem_cons_of_mem _ hv)
      rw [lowerFrom, folds_cons]
      by_cases hu : u.toNat < 0x80
      · have hother : ¬((u = 0x212a ∧ c = 0x6b ∧ ∃ w, w <+: text ∧ Folds w needle) ∨ (u = 0x130 ∧ c = 0x69 ∧ needle = [])) := by
          rintro (⟨rfl, -⟩ | ⟨rfl, -⟩) <;> exact absurd hu (by decide)
        rw [cases.ascii before u text hu, singleton_append, cons_prefix_cons, ih hrest, or_iff_left hother, and_iff_right hu]
        exact and_congr_left fun _ => eq_comm
      · rw [or_iff_right fun h => hu h.1]
        by_cases hdotted : u = 0x130
        · subst hdotted
          have hstop : needle <+: [0x307] ++ lowerFrom cases (before ++ [0x130]) text ↔ needle = [] := by
            refine ⟨fun h => ?_, fun h => h ▸ nil_prefix⟩
            cases needle with
            | nil => rfl
            | cons d needle => exact absurd h (not_prefix_other (hrest d mem_cons_self) (by decide))
          rw [cases.dotted, show ([0x69, 0x307] : Utf16) = 0x69 :: [0x307] from rfl, cons_append, cons_prefix_cons,
            hstop, or_iff_right fun h => absurd h.1 (by decide), and_iff_right rfl]
        · rw [or_iff_left fun h => hdotted h.1]
          by_cases hkelvin : u = 0x212a
          · rw [hkelvin, cases.kelvin, singleton_append, cons_prefix_cons, ih hrest, and_iff_right rfl]
          · obtain ⟨hnonempty, hother⟩ := cases.other before u text (Nat.le_of_not_lt hu) hdotted hkelvin
            obtain ⟨v, tail, hlower⟩ := exists_cons_of_ne_nil hnonempty
            rw [hlower, cons_append]
            exact iff_of_false (not_prefix_other hc (hother v (by rw [hlower]; exact mem_cons_self)))
              fun h => hkelvin h.1

theorem infix_skip (hneedle : Ascii needle) (hne : needle ≠ []) {tail rest : Utf16}
    (htail : ∀ v ∈ tail, 0x80 ≤ v.toNat) : needle <:+: tail ++ rest ↔ needle <:+: rest := by
  induction tail with
  | nil => rfl
  | cons v tail ih =>
    obtain ⟨c, needle, rfl⟩ := exists_cons_of_ne_nil hne
    rw [cons_append, infix_cons_iff, ih fun x hx => htail x (mem_cons_of_mem _ hx)]
    exact or_iff_right (not_prefix_other (hneedle c mem_cons_self) (htail v mem_cons_self))

theorem lower_cons (cases : CaseTable) (before : Utf16) (u : UInt16) (after : Utf16) :
    ∃ v tail, cases.lower before u after = v :: tail ∧ ∀ x ∈ tail, 0x80 ≤ x.toNat := by
  by_cases hu : u.toNat < 0x80
  · exact ⟨_, [], cases.ascii before u after hu, fun x hx => absurd hx not_mem_nil⟩
  · by_cases hdotted : u = 0x130
    · refine ⟨0x69, [0x307], by rw [hdotted, cases.dotted], fun x hx => ?_⟩
      rw [mem_singleton.mp hx]
      decide
    · by_cases hkelvin : u = 0x212a
      · exact ⟨0x6b, [], by rw [hkelvin, cases.kelvin], fun x hx => absurd hx not_mem_nil⟩
      · obtain ⟨hnonempty, hother⟩ := cases.other before u after (Nat.le_of_not_lt hu) hdotted hkelvin
        obtain ⟨v, tail, hlower⟩ := exists_cons_of_ne_nil hnonempty
        exact ⟨v, tail, hlower, fun x hx => hother x (by rw [hlower]; exact mem_cons_of_mem _ hx)⟩

theorem infix_lowerFrom (cases : CaseTable) (hneedle : Ascii needle) (hne : needle ≠ [])
    (before text : Utf16) : needle <:+: lowerFrom cases before text ↔ ∃ w, w <:+: text ∧ Folds w needle := by
  induction text generalizing before with
  | nil =>
    rw [lowerFrom, infix_nil]
    refine iff_of_false hne ?_
    rintro ⟨w, hw, hfolds⟩
    rw [infix_nil.mp hw] at hfolds
    cases hfolds
    exact hne rfl
  | cons u text ih =>
    have hstart := prefix_lowerFrom cases hneedle before (u :: text)
    obtain ⟨v, tail, hlower, htail⟩ := lower_cons cases before u text
    rw [lowerFrom, hlower, cons_append] at hstart ⊢
    rw [infix_cons_iff, hstart, infix_skip hneedle hne htail, ih]
    simp only [infix_cons_iff, or_and_right, exists_or]

/-! ## The literal test as a window test -/

def Hit (query : NbtSearchQuery) (w : Utf16) : Prop :=
  if query.caseSensitive then w = query.text else Folds w (asciiFold query.text)

def Foldable (query : NbtSearchQuery) : Prop := query.caseSensitive = false → Ascii query.text

theorem literalMatcher_windowed (cases : CaseTable) (h : Foldable query) :
    Windowed query.text.length (Hit query) (literalMatcher cases query) := by
  constructor
  · exact length_pos_iff.mpr query.nonempty
  · intro w hw
    rw [Hit] at hw
    split at hw
    · rw [hw]
    · rw [hw.length_eq, asciiFold, length_map]
  · intro text
    simp only [literalMatcher, Hit, decide_eq_true_eq]
    by_cases hcase : query.caseSensitive = true
    · simp only [if_pos hcase]
      exact ⟨fun hin => ⟨_, hin, rfl⟩, fun ⟨w, hw, heq⟩ => heq ▸ hw⟩
    · have hascii := h (Bool.eq_false_iff.mpr hcase)
      simp only [if_neg hcase]
      rw [toLowerCase, toLowerCase, lowerFrom_ascii cases [] hascii]
      refine infix_lowerFrom cases (ascii_fold hascii) ?_ [] text
      exact fun hnil => query.nonempty (map_eq_nil_iff.mp hnil)

theorem Folds.plain (h : Folds w needle) {k : Nat} (hu : u.toNat < 0x41) (hw : w[k]? = some u) : needle[k]? = some u := by
  induction h generalizing k with
  | nil => cases hw
  | ascii hv h ih =>
    cases k with
    | zero =>
      rw [getElem?_cons_zero] at hw ⊢
      cases hw
      rw [asciiLower_of_plain hu]
    | succ k => exact ih hw
  | kelvin h ih =>
    cases k with
    | zero =>
      cases hw
      exact absurd hu (by decide)
    | succ k => exact ih hw
  | dotted =>
    cases k with
    | zero =>
      cases hw
      exact absurd hu (by decide)
    | succ k => cases hw

theorem Hit.plain (h : Hit query w) {k : Nat} (hu : u.toNat < 0x41) (hw : w[k]? = some u) : query.text[k]? = some u := by
  rw [Hit] at h
  split at h
  · rw [← h]
    exact hw
  · have hneedle := h.plain hu hw
    rw [asciiFold, getElem?_map] at hneedle
    obtain ⟨v, hv, hlower⟩ := Option.map_eq_some_iff.mp hneedle
    rw [hv, asciiLower_plain hu hlower]

theorem Hit.length_eq (h : Hit query w) : w.length = query.text.length := by
  rw [Hit] at h
  split at h
  · rw [h]
  · rw [h.length_eq, asciiFold, length_map]

theorem Hit.eq_of_plain (h : Hit query w) (hw : ∀ u ∈ w, u.toNat < 0x41) : w = query.text := by
  refine ext_getElem? fun k => ?_
  by_cases hk : k < w.length
  · have hat := getElem?_eq_getElem hk
    rw [hat, h.plain (hw _ (getElem_mem hk)) hat]
  · rw [getElem?_eq_none (Nat.le_of_not_lt hk), getElem?_eq_none (by rw [← h.length_eq]; exact Nat.le_of_not_lt hk)]

theorem infix_of_match (cases : CaseTable) (h : Foldable query)
    (hplain : ∀ u ∈ text, u.toNat < 0x41) (hmatch : literalMatcher cases query text = true) : query.text <:+: text := by
  obtain ⟨w, hw, hhit⟩ := ((literalMatcher_windowed cases h).test_iff text).mp hmatch
  rw [← hhit.eq_of_plain fun u hu => hplain u (hw.subset hu)]
  exact hw

/-! ## The path of a node -/

def partText (model : SearchModel) (part : SearchNode) : Except String Utf16 := do
  let slash := if part.parent.isSome || part.name.any (·.length != 0) then [0x2f] else []
  match part.name with
  | some span =>
    let chunks ← textChunks model span.offset (span.offset + span.length)
    return slash ++ escapePath chunks.flatten
  | none => return slash ++ if part.parent.isSome then Wire.decimal part.ordinal else []

def fullPath (model : SearchModel) (node : SearchNode) : Except String Utf16 := do
  let ancestors ← pathAncestors model (4096 + 1) node []
  let parts ← ancestors.mapM (partText model)
  return parts.flatten

theorem escapePath_flatten (chunks : List Utf16) : (chunks.map escapePath).flatten = escapePath chunks.flatten := by
  induction chunks with
  | nil => rfl
  | cons chunk chunks ih =>
    rw [map_cons, flatten_cons, ih, flatten_cons, escapePath, escapePath, escapePath, flatMap_append, flatMap_append]

theorem partChunks_flatten (model : SearchModel) (part : SearchNode) :
    (partChunks model part).map flatten = partText model part := by
  have hslash : ∀ b : Bool, (if b then [[(0x2f : UInt16)]] else []).flatten = if b then [0x2f] else [] := by
    intro b
    cases b <;> rfl
  rw [partChunks, partText]
  cases part.name with
  | none =>
    change Except.ok (flatten (_ ++ _)) = Except.ok (_ ++ _)
    rw [flatten_append, hslash]
    cases part.parent.isSome
    · rfl
    · change Except.ok (_ ++ [Wire.decimal part.ordinal].flatten) = _
      rw [flatten_singleton]
      rfl
  | some span =>
    dsimp only
    cases textChunks model span.offset (span.offset + span.length) with
    | error e => rfl
    | ok chunks =>
      change Except.ok (flatten _) = Except.ok _
      rw [flatten_append, escapePath_flatten, hslash]

theorem partsChunks_flatten (model : SearchModel) (parts : List SearchNode) :
    (parts.mapM (partChunks model)).map (fun chunks => chunks.flatten.flatten) =
      (parts.mapM (partText model)).map flatten := by
  induction parts with
  | nil => rfl
  | cons part parts ih =>
    rw [mapM_cons, mapM_cons, ← partChunks_flatten]
    cases partChunks model part with
    | error e => rfl
    | ok chunks =>
      cases hchunks : parts.mapM (partChunks model) with
      | error e =>
        rw [hchunks] at ih
        cases htexts : parts.mapM (partText model) with
        | error e' =>
          rw [htexts] at ih
          cases ih
          rfl
        | ok texts =>
          rw [htexts] at ih
          cases ih
      | ok rest =>
        rw [hchunks] at ih
        cases htexts : parts.mapM (partText model) with
        | error e' =>
          rw [htexts] at ih
          cases ih
        | ok texts =>
          rw [htexts] at ih
          have hrest : rest.flatten.flatten = texts.flatten := Except.ok.inj ih
          change Except.ok ((chunks :: rest).flatten.flatten) = Except.ok ((chunks.flatten :: texts).flatten)
          rw [flatten_cons, flatten_append, hrest, flatten_cons]

theorem pathChunks_flatten (model : SearchModel) (node : SearchNode) :
    (pathChunks model node).map flatten = fullPath model node := by
  rw [pathChunks, fullPath]
  cases pathAncestors model (4096 + 1) node [] with
  | error e => rfl
  | ok ancestors =>
    have h := partsChunks_flatten model ancestors
    change ((do
      let parts ← ancestors.mapM (partChunks model)
      return parts.flatten).map flatten : Except String Utf16) = (ancestors.mapM (partText model)).map flatten
    rw [← h]
    cases ancestors.mapM (partChunks model) <;> rfl

theorem pathTail_eq (cases : CaseTable) (model : SearchModel) (node : SearchNode) (h : Foldable query) :
    pathTail cases model node query = (fullPath model node).map fun path =>
      { matched := literalMatcher cases query path, tail := lastPart (max 1 query.text.length) path } := by
  have hw := literalMatcher_windowed cases h
  have hkeep : query.text.length ≤ max 1 query.text.length + 1 := Nat.le_succ_of_le (Nat.le_max_right _ _)
  rw [pathTail, ← pathChunks_flatten]
  cases pathChunks model node with
  | error e => rfl
  | ok chunks =>
    have hstream := hw.stream hkeep chunks []
    rw [hw.test_nil, nil_append, lastPart_whole (Nat.zero_le _)] at hstream
    change Except.ok (PathTail.mk _ _) = Except.ok _
    rw [hstream]

end SearchText

end Cantrip.Nbt
