import Cantrip.Wire.Parser

/-!
# The parser reads every JSON text

`Denotes v t`: the text is JSON and means the value. Whitespace may stand around every value and key. From a text
that denotes a value the parser builds that value (`parse_denotes`): each part of the text takes it from one state
to another, with the part's meaning on the stack.
-/

namespace Cantrip.Wire

open Lib List Bool

/-- What the parser relies on in the JSON library: it accepts JSON texts, and decodes a string literal to the
bytes of its units. -/
structure Serde.Correct (S : Serde) (Accepts : List Char → Prop) : Prop where
  rawValue : ∀ t, Accepts t → S.rawValue t = .ok t
  stringBytes : ∀ s body, StringBody s body → S.stringBytes ('"' :: (body ++ ['"'])) = .ok (wtf8Encode s)

/-! ## Strings -/

theorem visitBytes_utf8Bytes {c : Nat} (hc : c < 0x110000) (rest : Bytes) :
    visitBytes (utf8Bytes c ++ rest) = (utf16Units c ++ ·) <$> visitBytes rest := by
  have hb : ∀ n, (0x80 + n % 0x40) < 256 := fun n => by omega
  unfold utf8Bytes
  split_ifs with h1 h2 h3
  · rw [cons_append, nil_append, visitBytes.eq_def]
    simp only [toNat_ofNat_lt (show c < 256 by omega), if_pos h1, Nat.mod_eq_of_lt h1]
  · have ha : 0xc0 + c / 0x40 < 256 := by omega
    have hvalue : (0xc0 + c / 0x40) % 0x20 * 64 + (0x80 + c % 0x40) % 64 = c := by omega
    rw [cons_append, cons_append, nil_append, visitBytes.eq_def]
    simp only [toNat_ofNat_lt ha, toNat_ofNat_lt (hb c), hvalue]
    rw [if_neg (by omega), if_pos (by omega)]
  · have ha : 0xe0 + c / 0x1000 < 256 := by omega
    have hvalue : ((0xe0 + c / 0x1000) % 0x10 * 64 + (0x80 + c / 0x40 % 0x40) % 64) * 64 + (0x80 + c % 0x40) % 64 = c := by
      omega
    rw [cons_append, cons_append, cons_append, nil_append, visitBytes.eq_def]
    simp only [toNat_ofNat_lt ha, toNat_ofNat_lt (hb c), toNat_ofNat_lt (hb (c / 0x40)), hvalue]
    rw [if_neg (by omega), if_neg (by omega), if_pos (by omega)]
  · have ha : 0xf0 + c / 0x40000 < 256 := by omega
    have hvalue : (((0xf0 + c / 0x40000) % 8 * 64 + (0x80 + c / 0x1000 % 0x40) % 64) * 64 + (0x80 + c / 0x40 % 0x40) % 64) * 64 +
        (0x80 + c % 0x40) % 64 = c := by
      omega
    rw [cons_append, cons_append, cons_append, cons_append, nil_append, visitBytes.eq_def]
    simp only [toNat_ofNat_lt ha, toNat_ofNat_lt (hb c), toNat_ofNat_lt (hb (c / 0x40)), toNat_ofNat_lt (hb (c / 0x1000)),
      hvalue]
    rw [if_neg (by omega), if_neg (by omega), if_neg (by omega)]

theorem visitBytes_flatMap (cs : List Nat) (h : ∀ c ∈ cs, c < 0x110000) :
    visitBytes (cs.flatMap utf8Bytes) = .ok (cs.flatMap utf16Units) := by
  induction cs with
  | nil => rfl
  | cons c cs ih =>
    rw [flatMap_cons, visitBytes_utf8Bytes (h c (by simp)), ih fun d hd => h d (by simp [hd])]
    rfl

theorem visitBytes_wtf8Encode (s : JsString) : visitBytes (wtf8Encode s) = .ok s := by
  rw [wtf8Encode, visitBytes_flatMap _ (codePoints_lt s), utf16Units_codePoints]

theorem scanString_char {c : Char} (hquote : c ≠ '"') (hslash : c ≠ '\\') (rest : List Char) :
    scanString (c :: rest) = (scanString rest).map fun (literal, rest) => (c :: literal, rest) := by
  rw [scanString]
  · exact fun heq => hquote heq
  · intro d ds heq
    exact absurd heq hslash

theorem hexValue_plain {c : Char} {n : Nat} (h : hexValue c = some n) : c ≠ '"' ∧ c ≠ '\\' := by
  constructor
  · rintro rfl
    cases h
  · rintro rfl
    cases h

theorem scanString_body {s : JsString} {body : List Char} (h : StringBody s body) (rest : List Char) :
    scanString (body ++ '"' :: rest) = some (body ++ ['"'], rest) := by
  induction h with
  | nil => rfl
  | char c hquote hslash hcontrol h ih =>
    rw [cons_append, scanString_char hquote hslash, ih]
    rfl
  | escape c hunit h ih =>
    rw [cons_append, cons_append, scanString, ih]
    rfl
  | unicode c₁ c₂ c₃ c₄ h₁ h₂ h₃ h₄ h ih =>
    simp only [cons_append]
    rw [scanString, scanString_char (hexValue_plain h₁).1 (hexValue_plain h₁).2,
      scanString_char (hexValue_plain h₂).1 (hexValue_plain h₂).2, scanString_char (hexValue_plain h₃).1 (hexValue_plain h₃).2,
      scanString_char (hexValue_plain h₄).1 (hexValue_plain h₄).2, ih]
    rfl

section

variable {F : Numbers}

mutual

inductive Denotes : Value F → List Char → Prop
  | null : Denotes .null ['n', 'u', 'l', 'l']
  | true : Denotes (.bool true) ['t', 'r', 'u', 'e']
  | false : Denotes (.bool false) ['f', 'a', 'l', 's', 'e']
  | number {n : F.Number} {t} (ht : JsonNumber t) (hn : F.parse t = some n) : Denotes (.number n) t
  | string {s body} (h : StringBody s body) : Denotes (.string s) ('"' :: (body ++ ['"']))
  | emptyArray {w} (hw : JsonSpace w) : Denotes (.array []) ('[' :: (w ++ [']']))
  | array {values t} (h : Elements values t) : Denotes (.array values) ('[' :: (t ++ [']']))
  | emptyObject {w} (hw : JsonSpace w) : Denotes (.object []) ('{' :: (w ++ ['}']))
  | object {entries t} (hkeys : (entries.map Prod.fst).Nodup) (h : Members entries t) :
      Denotes (.object entries) ('{' :: (t ++ ['}']))

/-- The items of an array, with commas between them. -/
inductive Elements : List (Value F) → List Char → Prop
  | one {v w t w'} (hw : JsonSpace w) (h : Denotes v t) (hw' : JsonSpace w') : Elements [v] (w ++ t ++ w')
  | cons {v vs w t w' ts} (hw : JsonSpace w) (h : Denotes v t) (hw' : JsonSpace w') (hs : Elements vs ts) :
      Elements (v :: vs) (w ++ t ++ w' ++ ',' :: ts)

/-- The entries of an object, with commas between them. -/
inductive Members : Object F → List Char → Prop
  | one {k v w body w' w'' t w₃} (hw : JsonSpace w) (hk : StringBody k body) (hw' : JsonSpace w') (hw'' : JsonSpace w'')
      (h : Denotes v t) (hw₃ : JsonSpace w₃) :
      Members [(k, v)] (w ++ '"' :: (body ++ '"' :: (w' ++ ':' :: (w'' ++ t ++ w₃))))
  | cons {k v es w body w' w'' t w₃ ts} (hw : JsonSpace w) (hk : StringBody k body) (hw' : JsonSpace w')
      (hw'' : JsonSpace w'') (h : Denotes v t) (hw₃ : JsonSpace w₃) (hs : Members es ts) :
      Members ((k, v) :: es) (w ++ '"' :: (body ++ '"' :: (w' ++ ':' :: (w'' ++ t ++ w₃ ++ ',' :: ts))))

end

/-! ## Reading -/

/-- A number cannot go on here. -/
def Stops (rest : List Char) : Prop := ∀ c r, rest = c :: r → isNumberChar c = false

/-- The innermost container takes a value next. -/
def Ready : List (Container F) → Prop
  | .object _ none :: _ => False
  | _ => True

variable {S : Serde} {stack : List (Container F)} {rest : List Char}

theorem stops_space {w : List Char} (hw : JsonSpace w) (h : Stops rest) : Stops (w ++ rest) := by
  intro c r heq
  match w with
  | [] => exact h c r heq
  | d :: ds =>
    rw [cons_append, List.cons.injEq] at heq
    have hspace := hw d mem_cons_self
    rw [heq.1] at hspace
    simp only [isJsonSpace, or_eq_true, decide_eq_true_eq] at hspace
    obtain ((rfl | rfl) | rfl) | rfl := hspace
    all_goals rfl

theorem reaches_space {w : List Char} (hw : JsonSpace w) :
    Reaches (parseTurn (F := F) S) w.length ⟨w ++ rest, stack⟩ ⟨rest, stack⟩ := by
  induction w with
  | nil => rfl
  | cons c w ih =>
    refine ⟨⟨w ++ rest, stack⟩, ?_, ih fun d hd => hw d (mem_cons_of_mem _ hd)⟩
    have hc := hw c mem_cons_self
    simp only [parseTurn, cons_append, hc, Bool.true_or, if_true]

/-- A value is read from its text: the last turn hands it to the innermost container. -/
def Reads (S : Serde) (v : Value F) (t : List Char) : Prop :=
  ∀ stack rest, Ready stack → Stops rest →
    ∃ n s, n < t.length ∧ Reaches (parseTurn S) n ⟨t ++ rest, stack⟩ s ∧ parseTurn S s = deliver v rest stack

def ReadsItems (S : Serde) (values : List (Value F)) (t : List Char) : Prop :=
  ∀ acc stack rest, Stops rest →
    ∃ n, n ≤ t.length ∧ Reaches (parseTurn S) n ⟨t ++ rest, .array acc :: stack⟩ ⟨rest, .array (acc ++ values) :: stack⟩

def ReadsEntries (S : Serde) (entries : Object F) (t : List Char) : Prop :=
  ∀ acc stack rest, Stops rest → ((acc ++ entries).map Prod.fst).Nodup → ∃ n, n ≤ t.length ∧
      Reaches (parseTurn S) n ⟨t ++ rest, .object acc none :: stack⟩ ⟨rest, .object (acc ++ entries) none :: stack⟩

variable {t : List Char} {A : List Char → Prop} {v : Value F}

theorem reads_of_turn (hpos : 0 < t.length)
    (h : ∀ stack rest, Ready stack → Stops rest → parseTurn S ⟨t ++ rest, stack⟩ = deliver v rest stack) : Reads S v t :=
  fun stack rest hready hstops => ⟨0, _, hpos, rfl, h stack rest hready hstops⟩

theorem takeWhile_number {t rest : List Char} (ht : ∀ c ∈ t, isNumberChar c = true) (hrest : Stops rest) :
    (t ++ rest).takeWhile isNumberChar = t ∧ (t ++ rest).dropWhile isNumberChar = rest := by
  have hstop : rest.takeWhile isNumberChar = [] ∧ rest.dropWhile isNumberChar = rest := by
    match rest with
    | [] => exact ⟨rfl, rfl⟩
    | c :: r =>
      have hc := hrest c r rfl
      exact ⟨by rw [takeWhile_cons_of_neg (by simp [hc])], by rw [dropWhile_cons_of_neg (by simp [hc])]⟩
  constructor
  · rw [takeWhile_append_of_pos ht, hstop.1, append_nil]
  · rw [dropWhile_append_of_pos ht, hstop.2]

theorem parseTurn_number {n : F.Number} (ht : JsonNumber t) (hn : F.parse t = some n) (hstops : Stops rest) :
    parseTurn S ⟨t ++ rest, stack⟩ = deliver (.number n) rest stack := by
  obtain ⟨htake, hdrop⟩ := takeWhile_number ht.chars hstops
  obtain ⟨c, r, rfl, hc⟩ := ht.head
  have hother : ∀ d : Char, d ≠ '-' → isDigitChar d = false → c ≠ d := by
    rintro d hminus hdigit rfl
    obtain rfl | hc := hc
    · exact hminus rfl
    · rw [hdigit] at hc
      cases hc
  rw [cons_append] at htake hdrop
  simp only [parseTurn, cons_append, isJsonSpace, hother ' ' (by decide) rfl, hother '\t' (by decide) rfl,
    hother '\r' (by decide) rfl, hother '\n' (by decide) rfl, hother ',' (by decide) rfl, hother ':' (by decide) rfl,
    hother '[' (by decide) rfl, hother '{' (by decide) rfl, hother ']' (by decide) rfl, hother '}' (by decide) rfl,
    hother '"' (by decide) rfl, hother 'n' (by decide) rfl, hother 't' (by decide) rfl, hother 'f' (by decide) rfl,
    decide_false, Bool.or_self, false_eq_true, if_false, htake, hdrop, hn]

theorem parseString_body (hS : S.Correct A) {s : JsString} {body : List Char} (h : StringBody s body)
    (rest : List Char) : parseString S (body ++ '"' :: rest) = .ok (s, rest) := by
  unfold parseString
  rw [scanString_body h rest]
  simp only [hS.stringBytes s body h, bind, Except.bind, visitBytes_wtf8Encode]

theorem parseTurn_string {A : List Char → Prop} (hS : S.Correct A) {s : JsString} {body : List Char} (h : StringBody s body)
    (hready : Ready stack) : parseTurn S ⟨'"' :: (body ++ '"' :: rest), stack⟩ = deliver (.string s) rest stack := by
  have hturn : parseTurn S ⟨'"' :: (body ++ '"' :: rest), stack⟩ =
      parseString S (body ++ '"' :: rest) >>= fun text => deliverString text.1 text.2 stack := rfl
  rw [hturn, parseString_body hS h]
  match stack with
  | [] => rfl
  | .array _ :: _ => rfl
  | .object _ (some _) :: _ => rfl
  | .object _ none :: _ => exact absurd hready id

theorem parseTurn_key {A : List Char → Prop} (hS : S.Correct A) {s : JsString} {body : List Char} (h : StringBody s body)
    {acc : Object F} : parseTurn S ⟨'"' :: (body ++ '"' :: rest), .object acc none :: stack⟩ =
      .ok (.again ⟨rest, .object acc (some s) :: stack⟩) := by
  have hturn : parseTurn S ⟨'"' :: (body ++ '"' :: rest), .object acc none :: stack⟩ =
      parseString S (body ++ '"' :: rest) >>= fun text => deliverString text.1 text.2 (.object acc none :: stack) := rfl
  rw [hturn, parseString_body hS h]
  rfl

theorem insertEntry_new {acc : Object F} {k : JsString} (h : k ∉ acc.map Prod.fst) :
    insertEntry acc k v = acc ++ [(k, v)] := if_neg h

theorem reaches_item {v : Value F} {t w w' : List Char} (hw : JsonSpace w) (h : Reads S v t) (hw' : JsonSpace w')
    (acc : List (Value F)) (hrest : Stops rest) :
    ∃ n, n ≤ (w ++ t ++ w').length ∧
      Reaches (parseTurn S) n ⟨w ++ t ++ w' ++ rest, .array acc :: stack⟩ ⟨rest, .array (acc ++ [v]) :: stack⟩ := by
  obtain ⟨n, s, hn, hreach, hturn⟩ := h (.array acc :: stack) (w' ++ rest) trivial (stops_space hw' hrest)
  have hspace := @reaches_space F S (.array acc :: stack) (t ++ (w' ++ rest)) w hw
  have hlast := Reaches.one (s := s) (t := ⟨w' ++ rest, .array (acc ++ [v]) :: stack⟩) hturn
  refine ⟨w.length + (n + (1 + w'.length)), ?_, ?_⟩
  · simp only [length_append]
    omega
  · simp only [append_assoc]
    exact hspace.trans (hreach.trans (hlast.trans (reaches_space hw')))

theorem reaches_entry {A : List Char → Prop} (hS : S.Correct A) {k : JsString} {v : Value F} {body t w w' w'' w₃ : List Char}
    (hw : JsonSpace w) (hk : StringBody k body) (hw' : JsonSpace w') (hw'' : JsonSpace w'') (h : Reads S v t)
    (hw₃ : JsonSpace w₃) {acc : Object F} (hnew : k ∉ acc.map Prod.fst) (hrest : Stops rest) :
    ∃ n, n ≤ (w ++ '"' :: (body ++ '"' :: (w' ++ ':' :: (w'' ++ t ++ w₃)))).length ∧
      Reaches (parseTurn S) n ⟨w ++ '"' :: (body ++ '"' :: (w' ++ ':' :: (w'' ++ t ++ w₃ ++ rest))), .object acc none :: stack⟩
        ⟨rest, .object (acc ++ [(k, v)]) none :: stack⟩ := by
  obtain ⟨n, s, hn, hreach, hturn⟩ := h (.object acc (some k) :: stack) (w₃ ++ rest) trivial (stops_space hw₃ hrest)
  have hspace := @reaches_space F S (.object acc none :: stack) ('"' :: (body ++ '"' :: (w' ++ ':' :: (w'' ++ t ++ w₃ ++ rest)))) w hw
  have hkey := Reaches.one (@parseTurn_key F S stack (w' ++ ':' :: (w'' ++ t ++ w₃ ++ rest)) A hS k body hk acc)
  have hspace' := @reaches_space F S (.object acc (some k) :: stack) (':' :: (w'' ++ t ++ w₃ ++ rest)) w' hw'
  have hcolon : Reaches (parseTurn S) 1 ⟨':' :: (w'' ++ t ++ w₃ ++ rest), .object acc (some k) :: stack⟩
      ⟨w'' ++ t ++ w₃ ++ rest, .object acc (some k) :: stack⟩ := Reaches.one rfl
  have hspace'' := @reaches_space F S (.object acc (some k) :: stack) (t ++ (w₃ ++ rest)) w'' hw''
  have hlast : Reaches (parseTurn S) 1 s ⟨w₃ ++ rest, .object (acc ++ [(k, v)]) none :: stack⟩ := by
    refine Reaches.one ?_
    rw [hturn, ← insertEntry_new hnew]
    rfl
  refine ⟨w.length + (1 + (w'.length + (1 + (w''.length + (n + (1 + w₃.length)))))), ?_, ?_⟩
  · simp only [length_append, length_cons]
    omega
  · refine hspace.trans (hkey.trans (hspace'.trans (hcolon.trans ?_)))
    simp only [append_assoc]
    exact hspace''.trans (hreach.trans (hlast.trans (reaches_space hw₃)))

theorem reads_bracketed {opening closing : Char} {container container' : Container F}
    (hopen : ∀ stack rest, parseTurn S ⟨opening :: rest, stack⟩ = .ok (.again ⟨rest, container :: stack⟩))
    (hclose : ∀ stack rest, parseTurn S ⟨closing :: rest, container' :: stack⟩ = deliver v rest stack)
    (hinner : ∀ stack rest, ∃ n, n ≤ t.length ∧
      Reaches (parseTurn S) n ⟨t ++ closing :: rest, container :: stack⟩ ⟨closing :: rest, container' :: stack⟩) :
    Reads S v (opening :: (t ++ [closing])) := by
  intro stack rest _ _
  obtain ⟨n, hn, hreach⟩ := hinner stack rest
  refine ⟨1 + n, ⟨closing :: rest, container' :: stack⟩, ?_, ?_, hclose stack rest⟩
  · simp only [length_cons, length_append, length_nil]
    omega
  · have hstart := Reaches.one (hopen stack (t ++ closing :: rest))
    rw [cons_append, append_assoc, singleton_append]
    exact hstart.trans hreach

theorem stops_closing (r : List Char) : Stops (']' :: r) ∧ Stops ('}' :: r) ∧ Stops (',' :: r) := by
  refine ⟨?_, ?_, ?_⟩
  all_goals
    intro c r' heq
    rw [List.cons.injEq] at heq
    rw [← heq.1]
    rfl

theorem reaches_comma (s : ParserState F) : Reaches (parseTurn S) 1 ⟨',' :: s.rest, s.stack⟩ s := Reaches.one rfl

theorem Denotes.reads (hS : S.Correct A) (h : Denotes v t) : Reads S v t := by
  refine @Denotes.rec F (fun v t _ => Reads S v t) (fun vs t _ => ReadsItems S vs t) (fun es t _ => ReadsEntries S es t)
    ?null ?true ?false ?number ?string ?emptyArray ?array ?emptyObject ?object ?one ?cons ?member ?members v t h
  case null => exact reads_of_turn (by simp) fun stack rest _ _ => rfl
  case true => exact reads_of_turn (by simp) fun stack rest _ _ => rfl
  case false => exact reads_of_turn (by simp) fun stack rest _ _ => rfl
  case number =>
    intro n t ht hn
    obtain ⟨c, r, rfl, -⟩ := ht.head
    exact reads_of_turn (by simp) fun stack rest _ hstops => parseTurn_number ht hn hstops
  case string =>
    intro s body hbody
    refine reads_of_turn (by simp) fun stack rest hready _ => ?_
    have hturn := @parseTurn_string F S stack rest A hS s body hbody hready
    simpa using hturn
  case emptyArray =>
    intro w hw
    exact reads_bracketed (fun _ _ => rfl) (fun _ _ => rfl) fun stack rest => ⟨w.length, Nat.le_refl _, reaches_space hw⟩
  case array =>
    intro values t _ ih
    exact reads_bracketed (fun _ _ => rfl) (fun _ _ => rfl) fun stack rest => ih [] stack (']' :: rest) (stops_closing rest).1
  case emptyObject =>
    intro w hw
    exact reads_bracketed (fun _ _ => rfl) (fun _ _ => rfl) fun stack rest => ⟨w.length, Nat.le_refl _, reaches_space hw⟩
  case object =>
    intro entries t hkeys _ ih
    exact reads_bracketed (fun _ _ => rfl) (fun _ _ => rfl) fun stack rest =>
      ih [] stack ('}' :: rest) (stops_closing rest).2.1 hkeys
  case one =>
    intro v w t w' hw _ hw' ih acc stack rest hrest
    exact reaches_item hw ih hw' acc hrest
  case cons =>
    intro v vs w t w' ts hw _ hw' _ ih ihs acc stack rest hrest
    obtain ⟨n, hn, hreach⟩ := @reaches_item F S stack (',' :: (ts ++ rest)) v t w w' hw ih hw' acc (stops_closing _).2.2
    obtain ⟨m, hm, hreach'⟩ := ihs (acc ++ [v]) stack rest hrest
    have hcomma := @reaches_comma F S ⟨ts ++ rest, .array (acc ++ [v]) :: stack⟩
    refine ⟨n + (1 + m), ?_, ?_⟩
    · rw [length_append, length_cons]
      omega
    · have hall := hreach.trans (hcomma.trans hreach')
      simpa using hall
  case member =>
    intro k v w body w' w'' t w₃ hw hk hw' hw'' _ hw₃ ih acc stack rest hrest hkeys
    have hnew : k ∉ acc.map Prod.fst := by
      rw [map_append, nodup_append] at hkeys
      exact fun hmem => hkeys.2.2 k hmem k (by simp) rfl
    obtain ⟨n, hn, hreach⟩ := @reaches_entry F S stack rest A hS k v body t w w' w'' w₃ hw hk hw' hw'' ih hw₃ acc hnew hrest
    exact ⟨n, hn, by simpa using hreach⟩
  case members =>
    intro k v es w body w' w'' t w₃ ts hw hk hw' hw'' _ hw₃ _ ih ihs acc stack rest hrest hkeys
    have hsplit : acc ++ (k, v) :: es = acc ++ [(k, v)] ++ es := by simp
    have hnew : k ∉ acc.map Prod.fst := by
      rw [map_append, nodup_append] at hkeys
      exact fun hmem => hkeys.2.2 k hmem k (by simp) rfl
    obtain ⟨n, hn, hreach⟩ := @reaches_entry F S stack (',' :: (ts ++ rest)) A hS k v body t w w' w'' w₃ hw hk hw' hw'' ih hw₃
      acc hnew (stops_closing _).2.2
    rw [hsplit] at hkeys ⊢
    obtain ⟨m, hm, hreach'⟩ := ihs (acc ++ [(k, v)]) stack rest hrest hkeys
    have hcomma := @reaches_comma F S ⟨ts ++ rest, .object (acc ++ [(k, v)]) none :: stack⟩
    refine ⟨n + (1 + m), ?_, ?_⟩
    · simp only [length_append, length_cons] at hn ⊢
      omega
    · have hall := hreach.trans (hcomma.trans hreach')
      simpa using hall

theorem parse_denotes (hS : S.Correct A) (h : Denotes v t) (hA : A t) : parse S t = some (.ok v) := by
  have hstops : Stops [] := by
    intro c r heq
    cases heq
  obtain ⟨n, s, hn, hreach, hturn⟩ := h.reads hS [] [] trivial hstops
  rw [append_nil] at hreach
  obtain ⟨fuel, hfuel⟩ : ∃ fuel, t.length + 1 = n + (fuel + 1) := ⟨t.length - n, by omega⟩
  unfold parse
  rw [hS.rawValue t hA]
  simp only
  rw [hfuel, loop_reaches hreach, loop_leave hturn]

end

end Cantrip.Wire
