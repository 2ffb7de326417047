import Cantrip.Wire.Json

/-!
# What is written

The text of a value as a function of the value (`render`), for any way of laying it out with whitespace. The loop
of `stringify` writes the compact text, and every layout of it is JSON that denotes the value with its keys in
order (`render_denotes`).
-/

namespace Cantrip.Wire

open Lib List

/-! ## Strings -/

theorem toNat_ofNat {n : Nat} (h : n.isValidChar) : (Char.ofNat n).toNat = n := by
  unfold Char.ofNat
  rw [dif_pos h]
  rfl

theorem hexChar_value : ∀ n < 16, hexValue (hexChar n) = some n := by decide

variable {s : JsString} {t : List Char}

theorem unicodeEscape_body (unit : UInt16) (h : StringBody s t) : StringBody (unit :: s) (unicodeEscape unit ++ t) := by
  have hlt : unit.toNat < 65536 := unit.toNat_lt
  have hunit : ((unit.toNat / 4096 * 16 + unit.toNat / 256 % 16) * 16 + unit.toNat / 16 % 16) * 16 + unit.toNat % 16 =
      unit.toNat := by
    omega
  have hbody := StringBody.unicode _ _ _ _ (hexChar_value (unit.toNat / 4096) (by omega))
    (hexChar_value (unit.toNat / 256 % 16) (by omega)) (hexChar_value (unit.toNat / 16 % 16) (by omega))
    (hexChar_value (unit.toNat % 16) (by omega)) h
  rw [hunit, UInt16.ofNat_toNat] at hbody
  exact hbody

theorem char_body {c : Nat} (hchar : c.isValidChar) (hquote : c ≠ 34) (hslash : c ≠ 92) (hcontrol : 32 ≤ c)
    (h : StringBody s t) : StringBody (utf16Units c ++ s) (Char.ofNat c :: t) := by
  have hnat := toNat_ofNat hchar
  have hbody := @StringBody.char s t (Char.ofNat c) ?_ ?_ ?_ h
  · rwa [hnat] at hbody
  · rintro heq
    rw [heq] at hnat
    exact hquote hnat.symm
  · rintro heq
    rw [heq] at hnat
    exact hslash hnat.symm
  · rw [hnat]
    exact hcontrol

theorem shortEscape_unit {unit : UInt16} {c : Char} (h : shortEscape unit = some c) : escapeUnit c = some unit := by
  unfold shortEscape at h
  split_ifs at h with h1 h2 h3 h4 h5 h6 h7
  all_goals
    cases h
    subst unit
    rfl

theorem shortEscape_none {unit : UInt16} (h : shortEscape unit = none) : unit.toNat ≠ 34 ∧ unit.toNat ≠ 92 := by
  constructor
  · intro heq
    rw [show unit = 34 from UInt16.toNat_inj.mp heq] at h
    cases h
  · intro heq
    rw [show unit = 92 from UInt16.toNat_inj.mp heq] at h
    cases h

theorem writeUnit_body (unit : UInt16) (h : StringBody s t) : StringBody (unit :: s) (writeUnit unit ++ t) := by
  have hlt : unit.toNat < 65536 := unit.toNat_lt
  unfold writeUnit
  match hescape : shortEscape unit with
  | some c => exact .escape c (shortEscape_unit hescape) h
  | none =>
    simp only
    split_ifs with hcontrol hsurrogate
    · exact unicodeEscape_body unit h
    · exact unicodeEscape_body unit h
    · obtain ⟨hquote, hslash⟩ := shortEscape_none hescape
      simp only [isHighSurrogate, isLowSurrogate, Bool.or_eq_true, decide_eq_true_eq, not_or] at hsurrogate
      have hbody := char_body (c := unit.toNat) (by unfold Nat.isValidChar; omega) hquote hslash (by omega) h
      rwa [utf16Units_single] at hbody

theorem jsonBody_spec (s : JsString) : StringBody s (jsonBody s) := by
  induction s using jsonBody.induct with
  | case1 => exact .nil
  | case2 unit =>
    have hbody := writeUnit_body unit .nil
    rwa [append_nil] at hbody
  | case3 unit low rest hpair ih =>
    rw [jsonBody, if_pos hpair]
    rw [Bool.and_eq_true] at hpair
    have hunits := utf16Units_pair hpair.1 hpair.2
    simp only [isHighSurrogate, isLowSurrogate, decide_eq_true_eq] at hpair
    have hbody := char_body (c := 0x10000 + (unit.toNat - 0xd800) * 0x400 + (low.toNat - 0xdc00))
      (by unfold Nat.isValidChar; omega) (by omega) (by omega) (by omega) ih
    rwa [hunits] at hbody
  | case4 unit low rest hpair ih =>
    rw [jsonBody, if_neg hpair]
    exact writeUnit_body unit ih

/-! ## Layouts -/

/-- The whitespace of a layout: where a line may end, by depth, and after a colon. -/
structure Style where
  line : Nat → List Char
  space : List Char

def compact : Style := ⟨fun _ => [], []⟩

def indented : Style := ⟨newline, [' ']⟩

structure Style.Blank (L : Style) : Prop where
  line : ∀ depth, JsonSpace (L.line depth)
  space : JsonSpace L.space

theorem compact_blank : compact.Blank := ⟨fun _ => by simp [compact, JsonSpace], by simp [compact, JsonSpace]⟩

theorem indented_blank : indented.Blank := by
  constructor
  · intro depth c hc
    obtain rfl | hc := mem_cons.mp hc
    · rfl
    · obtain ⟨t, ht, hc⟩ := mem_flatten.mp hc
      rw [eq_of_mem_replicate ht] at hc
      simp only [mem_cons, not_mem_nil, or_false, or_self] at hc
      rw [hc]
      rfl
  · intro c hc
    rw [mem_singleton.mp hc]
    rfl

/-- Texts with a separator between them. -/
def joined (separator : List Char) : List (List Char) → List Char
  | [] => []
  | [t] => t
  | t :: u :: ts => t ++ separator ++ joined separator (u :: ts)

def bracketed (L : Style) (depth : Nat) (opening closing : Char) (parts : List (List Char)) : List Char :=
  if parts = [] then [opening, closing]
  else opening :: (L.line (depth + 1) ++ joined (',' :: L.line (depth + 1)) parts ++ L.line depth ++ [closing])

variable {F : Numbers}

mutual

def Value.render (L : Style) : Value F → Nat → List Char
  | .null, _ => ['n', 'u', 'l', 'l']
  | .bool v, _ => boolText v
  | .number v, _ => numberText v
  | .string v, _ => writeJson v
  | .array values, depth => bracketed L depth '[' ']' (renders L values (depth + 1))
  | .object entries, depth =>
    bracketed L depth '{' '}' ((sortEntries (entryRenders L entries (depth + 1))).map fun e => writeJson e.1 ++ ':' :: (L.space ++ e.2))

def renders (L : Style) : List (Value F) → Nat → List (List Char)
  | [], _ => []
  | v :: vs, depth => v.render L depth :: renders L vs depth

def entryRenders (L : Style) : Object F → Nat → List (JsString × List Char)
  | [], _ => []
  | (k, v) :: es, depth => (k, v.render L depth) :: entryRenders L es depth

end

mutual

def Value.ordered : Value F → Value F
  | .null => .null
  | .bool v => .bool v
  | .number v => .number v
  | .string v => .string v
  | .array values => .array (orderedItems values)
  | .object entries => .object (sortEntries (orderedEntries entries))

def orderedItems : List (Value F) → List (Value F)
  | [] => []
  | v :: vs => v.ordered :: orderedItems vs

def orderedEntries : Object F → Object F
  | [] => []
  | (k, v) :: es => (k, v.ordered) :: orderedEntries es

end

theorem Value.induct {P : Value F → Prop} (null : P .null) (bool : ∀ b, P (.bool b)) (number : ∀ n, P (.number n))
    (string : ∀ s, P (.string s)) (array : ∀ values, (∀ v ∈ values, P v) → P (.array values))
    (object : ∀ entries : Object F, (∀ e ∈ entries, P e.2) → P (.object entries)) (v : Value F) : P v := by
  refine @Value.rec F P (fun values => ∀ v ∈ values, P v) (fun entries => ∀ e ∈ entries, P e.2) (fun e => P e.2) null bool
    number string array object ?_ ?_ ?_ ?_ ?_ v
  · intro v hv
    simp at hv
  · intro v vs hv hvs w hw
    obtain rfl | hw := mem_cons.mp hw
    · exact hv
    · exact hvs w hw
  · intro e he
    simp at he
  · intro e es he hes e' he'
    obtain rfl | he' := mem_cons.mp he'
    · exact he
    · exact hes e' he'
  · intro k v hv
    exact hv

theorem renders_eq (L : Style) (values : List (Value F)) (depth : Nat) :
    renders L values depth = values.map fun v => v.render L depth := by
  induction values with
  | nil => rfl
  | cons v vs ih => rw [renders, ih, map_cons]

theorem entryRenders_eq (L : Style) (entries : Object F) (depth : Nat) :
    entryRenders L entries depth = entries.map fun e => (e.1, e.2.render L depth) := by
  induction entries with
  | nil => rfl
  | cons e es ih => rw [entryRenders, ih, map_cons]

theorem orderedItems_eq (values : List (Value F)) : orderedItems values = values.map Value.ordered := by
  induction values with
  | nil => rfl
  | cons v vs ih => rw [orderedItems, ih, map_cons]

theorem orderedEntries_eq (entries : Object F) : orderedEntries entries = entries.map fun e => (e.1, e.2.ordered) := by
  induction entries with
  | nil => rfl
  | cons e es ih => rw [orderedEntries, ih, map_cons]

/-! ## The order of keys -/

theorem rankLe_total (a b : JsString) : rankLe a b ∨ rankLe b a := by
  unfold rankLe
  omega

theorem rankLe_trans {a b c : JsString} (h : rankLe a b) (h' : rankLe b c) : rankLe a c := by
  unfold rankLe at *
  omega

section

variable {α β : Type}

instance : Std.Total fun a b : JsString × α => rankLe a.1 b.1 := ⟨fun a b => rankLe_total a.1 b.1⟩

instance : IsTrans (JsString × α) fun a b => rankLe a.1 b.1 := ⟨fun _ _ _ h h' => rankLe_trans h h'⟩

theorem sortEntries_map (f : α → β) (entries : List (JsString × α)) :
    sortEntries (entries.map fun e => (e.1, f e.2)) = (sortEntries entries).map fun e => (e.1, f e.2) :=
  (map_insertionSort (fun a b : JsString × α => rankLe a.1 b.1) (fun a b : JsString × β => rankLe a.1 b.1)
    (fun e => (e.1, f e.2)) entries fun _ _ _ _ => Iff.rfl).symm

theorem sortEntries_perm (entries : List (JsString × α)) : (sortEntries entries).Perm entries :=
  perm_insertionSort _ entries

theorem sortEntries_sorted (entries : List (JsString × α)) : (sortEntries entries).Pairwise fun a b => rankLe a.1 b.1 :=
  pairwise_insertionSort _ entries

theorem sortEntries_idem (entries : List (JsString × α)) : sortEntries (sortEntries entries) = sortEntries entries :=
  (sortEntries_sorted entries).insertionSort_eq

end

theorem render_ordered (L : Style) (v : Value F) : ∀ depth, v.ordered.render L depth = v.render L depth := by
  induction v using Value.induct with
  | null => exact fun _ => rfl
  | bool => exact fun _ => rfl
  | number => exact fun _ => rfl
  | string => exact fun _ => rfl
  | array values ih =>
    intro depth
    simp only [Value.ordered, Value.render, renders_eq, orderedItems_eq, map_map]
    congr 1
    exact map_congr_left fun v hv => ih v hv (depth + 1)
  | object entries ih =>
    intro depth
    simp only [Value.ordered, Value.render, entryRenders_eq, orderedEntries_eq]
    rw [sortEntries_map (fun v : Value F => v.render L (depth + 1)), sortEntries_idem, sortEntries_map Value.ordered,
      sortEntries_map fun v : Value F => v.render L (depth + 1), map_map, map_map, map_map]
    congr 1
    refine map_congr_left fun e he => ?_
    have hmem : e ∈ entries := (sortEntries_perm entries).mem_iff.mp he
    simp only [Function.comp_apply, ih e hmem (depth + 1)]

/-! ## The loop writes the compact text -/

theorem joined_cons (separator t : List Char) (ts : List (List Char)) :
    joined separator (t :: ts) = t ++ (ts.map (separator ++ ·)).flatten := by
  induction ts generalizing t with
  | nil => simp [joined]
  | cons u ts ih => rw [joined, ih, map_cons, flatten_cons, append_assoc, append_assoc]

theorem bracketed_compact (depth : Nat) (opening closing : Char) (parts : List (List Char)) :
    bracketed compact depth opening closing parts = opening :: (joined [','] parts ++ [closing]) := by
  unfold bracketed
  by_cases h : parts = []
  · rw [if_pos h, h]
    rfl
  · rw [if_neg h]
    simp only [compact, nil_append, append_nil]

theorem render_compact (v : Value F) : ∀ depth, v.render compact depth = v.render compact 0 := by
  induction v using Value.induct with
  | null => exact fun _ => rfl
  | bool => exact fun _ => rfl
  | number => exact fun _ => rfl
  | string => exact fun _ => rfl
  | array values ih =>
    intro depth
    simp only [Value.render, renders_eq, bracketed_compact]
    rw [map_congr_left fun v hv => (ih v hv (depth + 1)).trans (ih v hv (0 + 1)).symm]
  | object entries ih =>
    intro depth
    simp only [Value.render, entryRenders_eq, bracketed_compact]
    rw [map_congr_left fun e he => congrArg (Prod.mk e.1) ((ih e he (depth + 1)).trans (ih e he (0 + 1)).symm)]

def Value.text (v : Value F) : List Char := v.render compact 0

theorem text_array (values : List (Value F)) : (Value.array values).text = '[' :: (joined [','] (values.map Value.text) ++ [']']) := by
  unfold Value.text
  rw [Value.render, bracketed_compact, renders_eq]
  congr 3
  exact map_congr_left fun v _ => render_compact v (0 + 1)

theorem text_object (entries : Object F) : (Value.object entries).text =
    '{' :: (joined [','] ((sortEntries entries).map fun e => writeJson e.1 ++ ':' :: e.2.text) ++ ['}']) := by
  unfold Value.text
  rw [Value.render, bracketed_compact, entryRenders_eq, sortEntries_map fun v : Value F => v.render compact (0 + 1), map_map]
  congr 3
  refine map_congr_left fun e _ => ?_
  simp only [Function.comp_apply, render_compact e.2 (0 + 1)]
  rfl

def Part.written : Part F → List Char
  | .value v => v.text
  | .key k => writeJson k
  | .text t => t

theorem written_pushItems (values : List (Value F)) (stack : List (Part F)) :
    (pushItems true values stack).flatMap Part.written =
      (values.map fun v => [','] ++ v.text).flatten ++ stack.flatMap Part.written := by
  induction values with
  | nil => rfl
  | cons v vs ih =>
    simp only [pushItems, if_true, flatMap_cons, ih, Part.written, map_cons, flatten_cons, append_assoc,
      cons_append, nil_append]

theorem written_pushItems_first (values : List (Value F)) (stack : List (Part F)) :
    (pushItems false values stack).flatMap Part.written = joined [','] (values.map Value.text) ++ stack.flatMap Part.written := by
  match values with
  | [] => rfl
  | v :: vs =>
    simp only [pushItems, Bool.false_eq_true, if_false, nil_append, flatMap_cons, written_pushItems, Part.written,
      map_cons, joined_cons, append_assoc, map_map]
    rfl

theorem written_pushEntries (entries : Object F) (stack : List (Part F)) :
    (pushEntries true entries stack).flatMap Part.written =
      (entries.map fun e => [','] ++ (writeJson e.1 ++ ':' :: e.2.text)).flatten ++ stack.flatMap Part.written := by
  induction entries with
  | nil => rfl
  | cons e es ih =>
    simp only [pushEntries, if_true, flatMap_cons, ih, Part.written, map_cons, flatten_cons, append_assoc,
      cons_append, nil_append]

theorem written_pushEntries_first (entries : Object F) (stack : List (Part F)) :
    (pushEntries false entries stack).flatMap Part.written =
      joined [','] (entries.map fun e => writeJson e.1 ++ ':' :: e.2.text) ++ stack.flatMap Part.written := by
  match entries with
  | [] => rfl
  | e :: es =>
    simp only [pushEntries, Bool.false_eq_true, if_false, nil_append, flatMap_cons, written_pushEntries, Part.written,
      map_cons, joined_cons, append_assoc, map_map, cons_append]
    rfl

theorem write_eq (stack : List (Part F)) (output : List Char) : write stack output = output ++ stack.flatMap Part.written := by
  induction stack, output using write.induct with
  | case1 output => simp [write]
  | case2 t stack output ih => rw [write, ih, flatMap_cons, append_assoc]; rfl
  | case3 k stack output ih => rw [write, ih, flatMap_cons, append_assoc]; rfl
  | case4 stack output ih => rw [write, ih, flatMap_cons, append_assoc]; rfl
  | case5 stack v output ih => rw [write, ih, flatMap_cons, append_assoc]; rfl
  | case6 stack v output ih => rw [write, ih, flatMap_cons, append_assoc]; rfl
  | case7 stack v output ih => rw [write, ih, flatMap_cons, append_assoc]; rfl
  | case8 stack values output ih =>
    rw [write, ih, written_pushItems_first, flatMap_cons, flatMap_cons, Part.written, Part.written, text_array]
    simp only [append_assoc, cons_append, nil_append]
  | case9 stack entries output ih =>
    rw [write, ih, written_pushEntries_first, flatMap_cons, flatMap_cons, Part.written, Part.written, text_object]
    simp only [append_assoc, cons_append, nil_append]

theorem stringify_eq (v : Value F) : stringify v = v.text := by
  rw [stringify, write_eq, nil_append, flatMap_cons, flatMap_nil, append_nil]
  rfl

end Cantrip.Wire
