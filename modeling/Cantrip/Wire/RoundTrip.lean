import Cantrip.Wire.Stringify

/-!
# Values survive their texts

Any layout of a value with distinct keys and finite numbers denotes the value with its keys in order, the pretty
printer lays the compact text out, and so both texts are parsed back to that value, which is equal to the one
written and is written as the same text.
-/

namespace Cantrip.Wire

open Lib List

variable {F : Numbers}

structure Numbers.Inverse (F : Numbers) : Prop where
  shape : ∀ n, F.isFinite n = true → JsonNumber (F.formatFinite n)
  parse : ∀ n, F.isFinite n = true → F.parse (F.formatFinite n) = some n
  eq : ∀ n, F.isFinite n = true → F.eq n n = true

mutual

def Value.Sound : Value F → Prop
  | .number n => F.isFinite n = true
  | .array values => allSound values
  | .object entries => (entries.map Prod.fst).Nodup ∧ entriesSound entries
  | _ => True

def allSound : List (Value F) → Prop
  | [] => True
  | v :: vs => v.Sound ∧ allSound vs

def entriesSound : Object F → Prop
  | [] => True
  | (_, v) :: es => v.Sound ∧ entriesSound es

end

theorem allSound_iff (values : List (Value F)) : allSound values ↔ ∀ v ∈ values, v.Sound := by
  induction values with
  | nil => simp [allSound]
  | cons v vs ih => rw [allSound, ih, forall_mem_cons]

theorem entriesSound_iff (entries : Object F) : entriesSound entries ↔ ∀ e ∈ entries, e.2.Sound := by
  induction entries with
  | nil => simp [entriesSound]
  | cons e es ih => rw [entriesSound, ih, forall_mem_cons]

theorem space_nil : JsonSpace [] := by simp [JsonSpace]

theorem elements_joined {w w' : List Char} (hw : JsonSpace w) (hw' : JsonSpace w') (parts : List (Value F × List Char)) :
    parts ≠ [] → (∀ p ∈ parts, Denotes p.1 p.2) →
      Elements (parts.map Prod.fst) (w ++ joined (',' :: w) (parts.map Prod.snd) ++ w') := by
  induction parts with
  | nil =>
    intro h
    exact absurd rfl h
  | cons p ps ih =>
    intro _ h
    have hp := h p mem_cons_self
    match ps with
    | [] => exact .one hw hp hw'
    | q :: qs =>
      have hrest := ih (by simp) fun r hr => h r (mem_cons_of_mem _ hr)
      have hall := Elements.cons hw hp space_nil hrest
      simpa [joined] using hall

theorem members_joined {L : Style} (hL : L.Blank) {w w' : List Char} (hw : JsonSpace w) (hw' : JsonSpace w')
    (parts : List (JsString × Value F × List Char)) :
    parts ≠ [] → (∀ p ∈ parts, Denotes p.2.1 p.2.2) → Members (parts.map fun p => (p.1, p.2.1))
        (w ++ joined (',' :: w) (parts.map fun p => writeJson p.1 ++ ':' :: (L.space ++ p.2.2)) ++ w') := by
  induction parts with
  | nil =>
    intro h
    exact absurd rfl h
  | cons p ps ih =>
    intro _ h
    have hp := h p mem_cons_self
    match ps with
    | [] =>
      have hone := Members.one hw (jsonBody_spec p.1) space_nil hL.space hp hw'
      simpa [joined, writeJson] using hone
    | q :: qs =>
      have hrest := ih (by simp) fun r hr => h r (mem_cons_of_mem _ hr)
      have hall := Members.cons hw (jsonBody_spec p.1) space_nil hL.space hp space_nil hrest
      simpa [joined, writeJson] using hall

theorem render_denotes (hF : F.Inverse) {L : Style} (hL : L.Blank) (v : Value F) :
    v.Sound → ∀ depth, Denotes v.ordered (v.render L depth) := by
  induction v using Value.induct with
  | null => exact fun _ _ => .null
  | bool b =>
    intro _ _
    cases b
    · exact .false
    · exact .true
  | number n =>
    intro hn _
    rw [Value.Sound] at hn
    rw [Value.render, numberText, if_pos hn]
    exact .number (hF.shape n hn) (hF.parse n hn)
  | string s => exact fun _ _ => .string (jsonBody_spec s)
  | array values ih =>
    intro hsound depth
    rw [Value.Sound, allSound_iff] at hsound
    rw [Value.ordered, Value.render, orderedItems_eq, renders_eq, bracketed]
    by_cases hnil : values = []
    · rw [hnil]
      exact .emptyArray space_nil
    · rw [if_neg (by simpa using hnil)]
      have helements := elements_joined (hL.line (depth + 1)) (hL.line depth)
        (values.map fun v => (v.ordered, v.render L (depth + 1))) (by simpa using hnil) (by
          intro p hp
          obtain ⟨v, hv, rfl⟩ := mem_map.mp hp
          exact ih v hv (hsound v hv) (depth + 1))
      rw [map_map, map_map] at helements
      exact .array helements
  | object entries ih =>
    intro hsound depth
    rw [Value.Sound, entriesSound_iff] at hsound
    rw [Value.ordered, Value.render, orderedEntries_eq, entryRenders_eq, sortEntries_map Value.ordered,
      sortEntries_map fun v : Value F => v.render L (depth + 1), map_map, bracketed]
    have hperm := sortEntries_perm entries
    by_cases hnil : sortEntries entries = []
    · rw [hnil]
      exact .emptyObject space_nil
    · rw [if_neg (by simpa using hnil)]
      have hmembers := members_joined hL (hL.line (depth + 1)) (hL.line depth)
        ((sortEntries entries).map fun e => (e.1, e.2.ordered, e.2.render L (depth + 1))) (by simpa using hnil) (by
          intro p hp
          obtain ⟨e, he, rfl⟩ := mem_map.mp hp
          have hmem := hperm.mem_iff.mp he
          exact ih e hmem (hsound.2 e hmem) (depth + 1))
      rw [map_map, map_map] at hmembers
      refine .object ?_ hmembers
      have hkeys : ((sortEntries entries).map Prod.fst).Nodup := (hperm.map _).nodup_iff.mpr hsound.1
      simpa [Function.comp_def] using hkeys

/-! ## The pretty printer lays the compact text out -/

def outside (depth : Nat) (previous : Char) : Layout := ⟨false, false, depth, previous⟩

def Opens (c : Char) : Prop := c = '{' ∨ c = '['

def Closes (c : Char) : Prop := c = '}' ∨ c = ']'

/-- A compact text is laid out at a depth as another text, and does not end in an opening bracket. -/
def Lays (depth : Nat) (a b : List Char) : Prop :=
  ∀ previous rest, ∃ last, ¬Opens last ∧ layOut (outside depth previous) (a ++ rest) = b ++ layOut (outside depth last) rest

def Starts (a : List Char) : Prop := ∃ c r, a = c :: r ∧ ¬Closes c

def Plain (c : Char) : Prop := c ≠ '"' ∧ c ≠ '{' ∧ c ≠ '[' ∧ c ≠ '}' ∧ c ≠ ']' ∧ c ≠ ',' ∧ c ≠ ':'

variable {c : Char}

theorem layOut_plain (h : Plain c) (depth : Nat) (previous : Char) (rest : List Char) :
    layOut (outside depth previous) (c :: rest) = c :: layOut (outside depth c) rest := by
  obtain ⟨h1, h2, h3, h4, h5, h6, h7⟩ := h
  simp only [layOut, outside, h1, h2, h3, h4, h5, h6, h7, Bool.false_eq_true, if_false, or_self]

theorem lays_plain {t : List Char} (hc : Plain c) (ht : ∀ d ∈ t, Plain d) (depth : Nat) : Lays depth (c :: t) (c :: t) := by
  induction t generalizing c with
  | nil =>
    intro previous rest
    refine ⟨c, ?_, layOut_plain hc depth previous rest⟩
    exact fun h => h.elim hc.2.1 hc.2.2.1
  | cons d t ih =>
    intro previous rest
    obtain ⟨last, hlast, hrest⟩ := ih (ht d mem_cons_self) (fun e he => ht e (mem_cons_of_mem _ he)) c rest
    refine ⟨last, hlast, ?_⟩
    rw [cons_append, layOut_plain hc, hrest]
    rfl

theorem layOut_quoted (hquote : c ≠ '"') (hslash : c ≠ '\\') (depth : Nat) (previous : Char) (rest : List Char) :
    layOut ⟨true, false, depth, previous⟩ (c :: rest) = c :: layOut ⟨true, false, depth, c⟩ rest := by
  simp only [layOut, if_true, Bool.false_eq_true, if_false, hslash, hquote]

theorem layOut_escaped (c : Char) (depth : Nat) (previous : Char) (rest : List Char) :
    layOut ⟨true, false, depth, previous⟩ ('\\' :: c :: rest) = '\\' :: c :: layOut ⟨true, false, depth, c⟩ rest := rfl

theorem layOut_body {s : JsString} {body : List Char} (h : StringBody s body) (depth : Nat) (rest : List Char) :
    ∀ previous, layOut ⟨true, false, depth, previous⟩ (body ++ '"' :: rest) = body ++ '"' :: layOut (outside depth '"') rest := by
  induction h with
  | nil => exact fun _ => rfl
  | char c hquote hslash hcontrol h ih =>
    intro previous
    rw [cons_append, layOut_quoted hquote hslash, ih, cons_append]
  | escape c hunit h ih =>
    intro previous
    rw [cons_append, cons_append, layOut_escaped, ih, cons_append, cons_append]
  | unicode c₁ c₂ c₃ c₄ h₁ h₂ h₃ h₄ h ih =>
    intro previous
    simp only [cons_append]
    rw [layOut_escaped, layOut_quoted (hexValue_plain h₁).1 (hexValue_plain h₁).2,
      layOut_quoted (hexValue_plain h₂).1 (hexValue_plain h₂).2, layOut_quoted (hexValue_plain h₃).1 (hexValue_plain h₃).2,
      layOut_quoted (hexValue_plain h₄).1 (hexValue_plain h₄).2, ih]

theorem lays_string (s : JsString) (depth : Nat) : Lays depth (writeJson s) (writeJson s) := by
  intro previous rest
  refine ⟨'"', ?_, ?_⟩
  · unfold Opens
    decide
  · have hstart : layOut (outside depth previous) (writeJson s ++ rest) =
        '"' :: layOut ⟨true, false, depth, '"'⟩ (jsonBody s ++ '"' :: rest) := by
      rw [writeJson, append_assoc, cons_append]
      rfl
    rw [hstart, layOut_body (jsonBody_spec s), writeJson, append_assoc, cons_append]
    rfl

theorem lays_tail {depth : Nat} (parts : List (List Char × List Char)) :
    (∀ p ∈ parts, Lays depth p.1 p.2) → ∀ previous rest, ¬Opens previous → ∃ last, ¬Opens last ∧
      layOut (outside depth previous) ((parts.map fun p => [','] ++ p.1).flatten ++ rest) =
        (parts.map fun p => ',' :: newline depth ++ p.2).flatten ++ layOut (outside depth last) rest := by
  induction parts with
  | nil =>
    intro _ previous rest hprevious
    exact ⟨previous, hprevious, rfl⟩
  | cons p ps ih =>
    intro h previous rest hprevious
    obtain ⟨mid, hmid, hfirst⟩ := h p mem_cons_self ',' ((ps.map fun p => [','] ++ p.1).flatten ++ rest)
    obtain ⟨last, hlast, hrest⟩ := ih (fun q hq => h q (mem_cons_of_mem _ hq)) mid rest hmid
    refine ⟨last, hlast, ?_⟩
    have hcomma : ∀ t, layOut (outside depth previous) (',' :: t) = ',' :: newline depth ++ layOut (outside depth ',') t :=
      fun _ => rfl
    rw [map_cons, flatten_cons, append_assoc, append_assoc, singleton_append, hcomma, hfirst, hrest, map_cons, flatten_cons]
    simp only [append_assoc, cons_append]

theorem lays_bracketed {depth : Nat} {opening closing : Char}
    (hb : opening = '[' ∧ closing = ']' ∨ opening = '{' ∧ closing = '}') (parts : List (List Char × List Char))
    (hlays : ∀ p ∈ parts, Lays (depth + 1) p.1 p.2) (hstarts : ∀ p ∈ parts, Starts p.1) :
    Lays depth (opening :: (joined [','] (parts.map Prod.fst) ++ [closing]))
      (bracketed indented depth opening closing (parts.map Prod.snd)) := by
  intro previous rest
  have hclose : ∀ p t, ¬Opens p → layOut (outside (depth + 1) p) (closing :: t) =
      newline depth ++ closing :: layOut (outside depth closing) t := by
    intro p t hp
    unfold Opens at hp
    obtain ⟨-, rfl⟩ | ⟨-, rfl⟩ := hb
    · simp [layOut, outside, hp]
    · simp [layOut, outside, hp]
  have hlast : ¬Opens closing := by
    unfold Opens
    obtain ⟨-, rfl⟩ | ⟨-, rfl⟩ := hb
    · decide
    · decide
  refine ⟨closing, hlast, ?_⟩
  match parts with
  | [] =>
    obtain ⟨rfl, rfl⟩ | ⟨rfl, rfl⟩ := hb
    · rfl
    · rfl
  | p :: ps =>
    obtain ⟨c, r, hcr, hcloses⟩ := hstarts p mem_cons_self
    have hopen : ∀ t, layOut (outside depth previous) (opening :: (c :: r ++ t)) =
        opening :: newline (depth + 1) ++ layOut (outside (depth + 1) opening) (c :: r ++ t) := by
      intro t
      obtain ⟨hbrace, hbracket⟩ := not_or.mp hcloses
      obtain ⟨rfl, -⟩ | ⟨rfl, -⟩ := hb
      · simp [layOut, outside, hbrace, hbracket]
      · simp [layOut, outside, hbrace, hbracket]
    obtain ⟨mid, hmid, hfirst⟩ := hlays p mem_cons_self opening ((ps.map fun p => [','] ++ p.1).flatten ++ closing :: rest)
    obtain ⟨last, hlast, htail⟩ := lays_tail ps (fun q hq => hlays q (mem_cons_of_mem _ hq)) mid (closing :: rest) hmid
    rw [map_cons, joined_cons, map_cons, bracketed, if_neg (by simp), joined_cons, map_map, map_map]
    have hparts : opening :: (p.1 ++ ((ps.map ((fun t => [','] ++ t) ∘ Prod.fst)).flatten) ++ [closing]) ++ rest =
        opening :: (c :: r ++ ((ps.map fun p => [','] ++ p.1).flatten ++ closing :: rest)) := by
      rw [← hcr]
      simp [Function.comp_def]
    rw [hparts, hopen, ← hcr, hfirst, htail, hclose last rest hlast]
    simp [indented, Function.comp_def]

theorem ne_of_class {p : Char → Bool} (h : p c = true) {d : Char} (hd : p d = false) : c ≠ d := by
  rintro rfl
  rw [hd] at h
  cases h

theorem plain_number (h : isNumberChar c = true) : Plain c :=
  ⟨ne_of_class h rfl, ne_of_class h rfl, ne_of_class h rfl, ne_of_class h rfl, ne_of_class h rfl, ne_of_class h rfl,
    ne_of_class h rfl⟩

def isLetter (c : Char) : Bool := decide (97 ≤ c.toNat ∧ c.toNat ≤ 122)

theorem plain_letter (h : isLetter c = true) : Plain c :=
  ⟨ne_of_class h rfl, ne_of_class h rfl, ne_of_class h rfl, ne_of_class h rfl, ne_of_class h rfl, ne_of_class h rfl,
    ne_of_class h rfl⟩

theorem lays_word {t : List Char} (h : (c :: t).all isLetter = true) (depth : Nat) : Lays depth (c :: t) (c :: t) := by
  rw [all_cons, Bool.and_eq_true, all_eq_true] at h
  exact lays_plain (plain_letter h.1) (fun d hd => plain_letter (h.2 d hd)) depth

theorem starts_plain {r : List Char} (h : Plain c) : Starts (c :: r) :=
  ⟨c, r, rfl, fun hc => hc.elim h.2.2.2.1 h.2.2.2.2.1⟩

theorem numberText_plain (hF : F.Inverse) {n : F.Number} (hn : F.isFinite n = true) :
    ∃ c t, numberText n = c :: t ∧ Plain c ∧ ∀ d ∈ t, Plain d := by
  have hshape := hF.shape n hn
  obtain ⟨c, t, heq, -⟩ := hshape.head
  have hchars := hshape.chars
  rw [heq] at hchars
  refine ⟨c, t, ?_, plain_number (hchars c mem_cons_self), fun d hd => plain_number (hchars d (mem_cons_of_mem _ hd))⟩
  rw [numberText, if_pos hn, heq]

theorem starts_text (hF : F.Inverse) {v : Value F} (hv : v.Sound) : Starts v.text := by
  cases v with
  | null => exact starts_plain (plain_letter rfl)
  | bool b =>
    cases b
    · exact starts_plain (plain_letter rfl)
    · exact starts_plain (plain_letter rfl)
  | number n =>
    obtain ⟨c, t, heq, hc, -⟩ := numberText_plain hF hv
    have htext : (Value.number n).text = c :: t := heq
    rw [htext]
    exact starts_plain hc
  | string s => exact ⟨'"', _, rfl, by unfold Closes; decide⟩
  | array values =>
    rw [text_array]
    exact ⟨'[', _, rfl, by unfold Closes; decide⟩
  | object entries =>
    rw [text_object]
    exact ⟨'{', _, rfl, by unfold Closes; decide⟩

theorem lays_entry {depth : Nat} {a b : List Char} (k : JsString) (h : Lays depth a b) :
    Lays depth (writeJson k ++ ':' :: a) (writeJson k ++ ':' :: ([' '] ++ b)) := by
  intro previous rest
  obtain ⟨mid, -, hkey⟩ := lays_string k depth previous (':' :: a ++ rest)
  obtain ⟨last, hlast, hvalue⟩ := h ':' rest
  refine ⟨last, hlast, ?_⟩
  have hcolon : layOut (outside depth mid) (':' :: (a ++ rest)) = ':' :: ' ' :: layOut (outside depth ':') (a ++ rest) := rfl
  rw [append_assoc, hkey, cons_append, hcolon, hvalue]
  simp only [append_assoc, cons_append, nil_append]

theorem lays_text (hF : F.Inverse) (v : Value F) : v.Sound → ∀ depth, Lays depth v.text (v.render indented depth) := by
  induction v using Value.induct with
  | null => exact fun _ depth => lays_word rfl depth
  | bool b =>
    intro _ depth
    cases b
    · exact lays_word rfl depth
    · exact lays_word rfl depth
  | number n =>
    intro hn depth
    obtain ⟨c, t, heq, hc, ht⟩ := numberText_plain hF hn
    have htext : (Value.number n).text = c :: t := heq
    have hrender : (Value.number n).render indented depth = c :: t := heq
    rw [htext, hrender]
    exact lays_plain hc ht depth
  | string s => exact fun _ depth => lays_string s depth
  | array values ih =>
    intro hsound depth
    rw [Value.Sound, allSound_iff] at hsound
    rw [text_array, Value.render, renders_eq]
    have hlays := @lays_bracketed depth _ _ (.inl ⟨rfl, rfl⟩)
      (values.map fun v => (v.text, v.render indented (depth + 1))) (by
        intro p hp
        obtain ⟨v, hv, rfl⟩ := mem_map.mp hp
        exact ih v hv (hsound v hv) (depth + 1)) (by
        intro p hp
        obtain ⟨v, hv, rfl⟩ := mem_map.mp hp
        exact starts_text hF (hsound v hv))
    rwa [map_map, map_map] at hlays
  | object entries ih =>
    intro hsound depth
    rw [Value.Sound, entriesSound_iff] at hsound
    rw [text_object, Value.render, entryRenders_eq, sortEntries_map fun v : Value F => v.render indented (depth + 1), map_map]
    have hperm := sortEntries_perm entries
    have hlays := @lays_bracketed depth _ _ (.inr ⟨rfl, rfl⟩) ((sortEntries entries).map fun e =>
        (writeJson e.1 ++ ':' :: e.2.text, writeJson e.1 ++ ':' :: ([' '] ++ e.2.render indented (depth + 1)))) (by
        intro p hp
        obtain ⟨e, he, rfl⟩ := mem_map.mp hp
        have hmem := hperm.mem_iff.mp he
        exact lays_entry e.1 (ih e hmem (hsound.2 e hmem) (depth + 1))) (by
        intro p hp
        obtain ⟨e, he, rfl⟩ := mem_map.mp hp
        exact ⟨'"', _, rfl, by unfold Closes; decide⟩)
    rwa [map_map, map_map] at hlays

theorem stringifyPretty_eq (hF : F.Inverse) {v : Value F} (hv : v.Sound) : stringifyPretty v = v.render indented 0 := by
  obtain ⟨last, -, h⟩ := lays_text hF v hv 0 ' ' []
  rw [append_nil] at h
  rw [stringifyPretty, stringify_eq]
  refine h.trans ?_
  rw [layOut, append_nil]

/-! ## The value read is equal to the one written -/

theorem lookup_of_mem {α : Type} {entries : List (JsString × α)} {k : JsString} {v : α} (hnodup : (entries.map Prod.fst).Nodup)
    (h : (k, v) ∈ entries) : lookup entries k = some v := by
  unfold lookup
  rw [show (entries.find? fun e => e.1 = k) = some (k, v) from find?_eq_of_mem hnodup h, Option.map_some]

theorem pairUp_eq {b : Object F} (f : Value F → Value F) (entries : Object F) :
    (∀ e ∈ entries, lookup b e.1 = some (f e.2)) → pairUp b entries = some (entries.map fun e => (e.2, f e.2)) := by
  induction entries with
  | nil => exact fun _ => rfl
  | cons e es ih =>
    intro h
    simp only [pairUp, h e mem_cons_self, ih fun e' he' => h e' (mem_cons_of_mem _ he'), map_cons]
    rfl

theorem weights_eq (values : List (Value F)) : weights values = (values.map fun v => v.weight + 1).sum := by
  induction values with
  | nil => rfl
  | cons v vs ih => rw [weights, ih, map_cons, sum_cons]

theorem sum_map_le {α : Type} (f : α → Nat) (c : Nat) (l : List α) : (l.map f).sum ≤ (l.map fun a => f a + c).sum := by
  induction l with
  | nil => exact Nat.le_refl _
  | cons a l ih =>
    rw [map_cons, map_cons, sum_cons, sum_cons]
    omega

theorem zip_map_self {α β : Type} (f : α → β) (l : List α) : l.zip (l.map f) = l.map fun a => (a, f a) := by
  induction l with
  | nil => rfl
  | cons a l ih => rw [map_cons, zip_cons_cons, ih, map_cons]

theorem equal_ordered (hF : F.Inverse) (n : Nat) : ∀ pending : List (Value F), (pending.map Value.weight).sum ≤ n →
    (∀ v ∈ pending, v.Sound) → equal (pending.map fun v => (v, v.ordered)) = true := by
  induction n with
  | zero =>
    intro pending hn _
    rcases pending with _ | ⟨v, pending⟩
    · rw [map_nil, equal]
    · have hpos : 0 < v.weight := by
        cases v
        all_goals simp [Value.weight]
      rw [map_cons, sum_cons] at hn
      omega
  | succ n ih =>
    intro pending hn hsound
    rcases pending with _ | ⟨v, pending⟩
    · rw [map_nil, equal]
    · have hv := hsound v mem_cons_self
      have hpending : ∀ w ∈ pending, w.Sound := fun w hw => hsound w (mem_cons_of_mem _ hw)
      rw [map_cons, sum_cons] at hn
      rw [map_cons]
      cases v with
      | null =>
        rw [Value.ordered, equal]
        exact ih pending (by simp only [Value.weight] at hn; omega) hpending
      | bool b =>
        rw [Value.ordered, equal, if_pos rfl]
        exact ih pending (by simp only [Value.weight] at hn; omega) hpending
      | number x =>
        rw [Value.Sound] at hv
        rw [Value.ordered, equal, if_pos (hF.eq x hv)]
        exact ih pending (by simp only [Value.weight] at hn; omega) hpending
      | string s =>
        rw [Value.ordered, equal, if_pos rfl]
        exact ih pending (by simp only [Value.weight] at hn; omega) hpending
      | array values =>
        rw [Value.Sound, allSound_iff] at hv
        simp only [Value.weight, weights_eq] at hn
        have hle := sum_map_le Value.weight 1 values
        rw [Value.ordered, orderedItems_eq, equal, if_pos (length_map _).symm, zip_map_self]
        have hzip : (values.map fun v => (v, v.ordered)).reverse ++ pending.map (fun v => (v, v.ordered)) =
            (values.reverse ++ pending).map fun v => (v, v.ordered) := by
          rw [map_append, map_reverse]
        rw [hzip]
        refine ih _ ?_ ?_
        · rw [map_append, sum_append, map_reverse, sum_reverse]
          omega
        · intro w hw
          obtain hw | hw := mem_append.mp hw
          · exact hv w (mem_reverse.mp hw)
          · exact hpending w hw
      | object entries =>
        rw [Value.Sound, entriesSound_iff] at hv
        simp only [Value.weight, entryWeights_eq] at hn
        have hle := sum_map_le (fun e : JsString × Value F => e.2.weight) 4 entries
        have hperm := sortEntries_perm (orderedEntries entries)
        have hlength : entries.length = (sortEntries (orderedEntries entries)).length := by
          rw [hperm.length_eq, orderedEntries_eq, length_map]
        have hkeys : ((sortEntries (orderedEntries entries)).map Prod.fst).Nodup := by
          rw [(hperm.map Prod.fst).nodup_iff, orderedEntries_eq, map_map]
          exact hv.1
        have hpairs := pairUp_eq (b := sortEntries (orderedEntries entries)) Value.ordered entries (by
          intro e he
          refine lookup_of_mem hkeys (hperm.mem_iff.mpr ?_)
          rw [orderedEntries_eq]
          exact mem_map_of_mem he)
        rw [Value.ordered, equal, if_pos hlength]
        split
        · rename_i pairs h
          rw [hpairs, Option.some.injEq] at h
          rw [← h]
          have hmap : (entries.map fun e => (e.2, e.2.ordered)).reverse ++ pending.map (fun v => (v, v.ordered)) =
              ((entries.map Prod.snd).reverse ++ pending).map fun v => (v, v.ordered) := by
            rw [map_append, ← map_reverse, ← map_reverse, map_map]
            rfl
          rw [hmap]
          refine ih _ ?_ ?_
          · rw [map_append, sum_append, map_reverse, sum_reverse, map_map]
            have hsame : (entries.map (Value.weight ∘ Prod.snd)).sum = (entries.map fun e => e.2.weight).sum := rfl
            omega
          · intro w hw
            obtain hw | hw := mem_append.mp hw
            · obtain ⟨e, he, rfl⟩ := mem_map.mp (mem_reverse.mp hw)
              exact hv.2 e he
            · exact hpending w hw
        · rename_i h
          rw [hpairs] at h
          cases h

end Cantrip.Wire
