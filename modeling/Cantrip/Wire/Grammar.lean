import Cantrip.Wire.Lexemes

/-!
# The texts that `check` accepts

Each state that is due wants a part of the text (`Wants`), and a stack wants one part after another (`Closes`). A turn
of `check` leaves it as it was whether the text is as the stack wants it (`turn_keeps`), and makes what is left of the
text shorter, so that `check` ends and decides the grammar.
-/

namespace Cantrip.Wire

namespace Syntax

open Lib Lib.JsonGrammar List

/-! ## What is due -/

/-- The part of the text that a state stands for, with the whitespace before it. -/
def Wants : State → Utf16 → Utf16 → Prop
  | .value, t, r => ∃ a, Space t a ∧ Derives .value a r
  | .end_, t, r => Space t [] ∧ r = []
  | .objectFirst, t, r => Space t (125 :: r) ∨ Derives .members t r
  | .objectNext, t, r => Derives .members t r
  | .colon, t, r => ∃ a b c, Space t (58 :: a) ∧ Space a b ∧ Derives .value b c ∧
      (Space c (125 :: r) ∨ ∃ d, Space c (44 :: d) ∧ Derives .members d r)
  | .objectAfter, t, r => Space t (125 :: r) ∨ ∃ a, Space t (44 :: a) ∧ Derives .members a r
  | .arrayFirst, t, r => Space t (93 :: r) ∨ Derives .elements t r
  | .arrayNext, t, r => Derives .elements t r
  | .arrayAfter, t, r => Space t (93 :: r) ∨ ∃ a, Space t (44 :: a) ∧ Derives .elements a r

def Closes : List State → Utf16 → Prop
  | [], _ => True
  | state :: stack, t => ∃ r, Wants state t r ∧ Closes stack r

/-- The states that a value may stand before. -/
def isAfter : State → Bool
  | .end_ | .objectAfter | .arrayAfter => true
  | _ => false

/-- Only the top of the stack wants a value, and something follows it. -/
def Ready : List State → Prop
  | [] => True
  | state :: stack => (∀ u ∈ stack, isAfter u) ∧ (state = .value → stack ≠ [])

theorem ready_of_after {stack : List State} (h : ∀ u ∈ stack, isAfter u) : Ready stack := by
  cases stack with
  | nil => trivial
  | cons state stack =>
    refine ⟨fun u hu => h u (mem_cons_of_mem _ hu), ?_⟩
    rintro rfl
    cases h .value mem_cons_self

section Wants

variable {c : UInt16} {t r : Utf16}

theorem space_cons (hc : JsonGrammar.isSpace c = false) :
    Space t (c :: r) ↔ t.dropWhile JsonGrammar.isSpace = c :: r := by
  constructor
  · intro h
    exact (h.eq_dropWhile (stops_cons.mpr hc)).symm
  · intro h
    rw [← h]
    exact run_dropWhile t

theorem space_nil : Space t [] ↔ t.dropWhile JsonGrammar.isSpace = [] := by
  constructor
  · intro h
    exact (h.eq_dropWhile stops_nil).symm
  · intro h
    rw [← h]
    exact run_dropWhile t

theorem value_stops (h : Derives .value t r) : Ceases JsonGrammar.isSpace t := by
  cases t with
  | nil => exact stops_nil
  | cons c t =>
    apply stops_cons.mpr
    obtain ⟨w, hw, hc⟩ | hnumber | ⟨rfl, -⟩ | ⟨rfl, -⟩ | ⟨rfl, -⟩ := derives_cons.mp h
    · obtain rfl | rfl | rfl := literal_head hw hc <;> decide
    · have hc := number_head hnumber
      apply Bool.eq_false_iff.mpr
      intro hspace
      simp only [JsonGrammar.isSpace, Bool.or_eq_true, decide_eq_true_eq] at hspace
      obtain ((rfl | rfl) | rfl) | rfl := hspace <;> cases hc
    all_goals decide

theorem space_value : (∃ a, Space t a ∧ Derives .value a r) ↔ Derives .value (t.dropWhile JsonGrammar.isSpace) r := by
  constructor
  · rintro ⟨a, hspace, hvalue⟩
    rwa [← hspace.eq_dropWhile (value_stops hvalue)]
  · intro h
    exact ⟨_, run_dropWhile t, h⟩

theorem elements_iff : Derives .elements t r ↔
    ∃ b, Derives .value (t.dropWhile JsonGrammar.isSpace) b ∧ Wants .arrayAfter b r := by
  constructor
  · intro h
    cases h with
    | lastElement hbefore hvalue hafter => exact ⟨_, space_value.mp ⟨_, hbefore, hvalue⟩, .inl hafter⟩
    | element hbefore hvalue hafter h => exact ⟨_, space_value.mp ⟨_, hbefore, hvalue⟩, .inr ⟨_, hafter, h⟩⟩
  · rintro ⟨b, hvalue, hafter | ⟨c, hafter, h⟩⟩
    · exact .lastElement (run_dropWhile t) hvalue hafter
    · exact .element (run_dropWhile t) hvalue hafter h

theorem members_iff : Derives .members t r ↔
    ∃ a b, t.dropWhile JsonGrammar.isSpace = 34 :: a ∧ Body a b ∧ Wants .colon b r := by
  constructor
  · intro h
    cases h with
    | lastMember hbefore hname hcolon hspace hvalue hafter =>
      exact ⟨_, _, (space_cons rfl).mp hbefore, hname, _, _, _, hcolon, hspace, hvalue, .inl hafter⟩
    | member hbefore hname hcolon hspace hvalue hafter h =>
      exact ⟨_, _, (space_cons rfl).mp hbefore, hname, _, _, _, hcolon, hspace, hvalue, .inr ⟨_, hafter, h⟩⟩
  · rintro ⟨a, b, hbefore, hname, c, d, e, hcolon, hspace, hvalue, hafter | ⟨f, hafter, h⟩⟩
    · exact .lastMember ((space_cons rfl).mpr hbefore) hname hcolon hspace hvalue hafter
    · exact .member ((space_cons rfl).mpr hbefore) hname hcolon hspace hvalue hafter h

theorem colon_iff : Wants .colon t r ↔
    ∃ a b, t.dropWhile JsonGrammar.isSpace = 58 :: a ∧ Wants .value a b ∧ Wants .objectAfter b r := by
  constructor
  · rintro ⟨a, b, c, hcolon, hspace, hvalue, hafter⟩
    exact ⟨a, c, (space_cons rfl).mp hcolon, ⟨b, hspace, hvalue⟩, hafter⟩
  · rintro ⟨a, c, hcolon, ⟨b, hspace, hvalue⟩, hafter⟩
    exact ⟨a, b, c, (space_cons rfl).mpr hcolon, hspace, hvalue, hafter⟩

theorem stops_of_closes {stack : List State} (hafter : ∀ u ∈ stack, isAfter u) (hne : stack ≠ []) (h : Closes stack r) :
    Ceases goesOn r := by
  have hspace : ∀ d, JsonGrammar.isSpace d → goesOn d = false := by
    intro d hd
    simp only [JsonGrammar.isSpace, Bool.or_eq_true, decide_eq_true_eq] at hd
    obtain ((rfl | rfl) | rfl) | rfl := hd <;> decide
  match stack with
  | state :: stack =>
    obtain ⟨r', hwants, -⟩ := h
    have hstate := hafter state mem_cons_self
    cases state with
    | end_ =>
      obtain ⟨w, hw, heq⟩ := hwants.1
      rw [heq, append_nil]
      intro c hc
      exact hspace c (hw c (mem_of_mem_head? hc))
    | objectAfter =>
      obtain hclose | ⟨a, hcomma, -⟩ := hwants
      · exact hclose.stops hspace (by decide)
      · exact hcomma.stops hspace (by decide)
    | arrayAfter =>
      obtain hclose | ⟨a, hcomma, -⟩ := hwants
      · exact hclose.stops hspace (by decide)
      · exact hcomma.stops hspace (by decide)
    | _ => cases hstate

end Wants

/-! ## Values -/

/-- What `value` makes of the text from `s` on, before a stack. -/
def Values (s : Syntax) (stack : List State) : Outcome (Syntax × List State) → Prop
  | .ok (s', stack') => s'.source = s.source ∧ s'.at_ ≤ s'.source.length ∧ s'.rest.length < s.rest.length ∧
      (stack' = stack ∨ stack' = .objectFirst :: stack ∨ stack' = .arrayFirst :: stack) ∧
      ((∃ r, Derives .value s.rest r ∧ Closes stack r) ↔ Closes stack' s'.rest)
  | .error failure => Fails s.source failure ∧ ¬ ∃ r, Derives .value s.rest r ∧ Closes stack r

section Values

variable {s : Syntax} {stack : List State}

theorem Values.of_scans {P : Utf16 → Utf16 → Prop} {Fit : Utf16 → Prop} {out : Outcome Syntax} (h : Scans s P Fit out)
    (hP : ∀ r, Derives .value s.rest r ↔ P s.rest r) (hfit : ∀ r, Closes stack r → Fit r)
    (hlength : ∀ r, P s.rest r → r.length < s.rest.length) : Values s stack (do .ok (← out, stack)) := by
  cases out with
  | error failure =>
    refine ⟨h.1, ?_⟩
    rintro ⟨r, hvalue, hcloses⟩
    exact h.2 r ((hP r).mp hvalue) (hfit r hcloses)
  | ok s' =>
    obtain ⟨hsource, hbound, hp, hunique⟩ := h
    refine ⟨hsource, hbound, hlength _ hp, .inl rfl, ?_⟩
    constructor
    · rintro ⟨r, hvalue, hcloses⟩
      rwa [← hunique r ((hP r).mp hvalue) (hfit r hcloses)]
    · intro hcloses
      exact ⟨_, (hP _).mpr hp, hcloses⟩

theorem Values.unexpected (h : s.at_ ≤ s.source.length) (hnone : ∀ r, ¬ Derives .value s.rest r) :
    Values s stack s.unexpected := by
  obtain ⟨failure, hfailure, hfails⟩ := unexpected_fails (α := Syntax × List State) h
  rw [hfailure]
  refine ⟨hfails, ?_⟩
  rintro ⟨r, hvalue, -⟩
  exact hnone r hvalue

theorem Values.opens {c : UInt16} {first : State} (hcurrent : s.current = some c)
    (hstate : first = .objectFirst ∨ first = .arrayFirst)
    (hP : ∀ r, Derives .value s.rest r ↔ Wants first s.step.rest r) :
    Values s stack (.ok (s.step, first :: stack)) := by
  refine ⟨rfl, step_le hcurrent, ?_, ?_, ?_⟩
  · rw [rest_of_some hcurrent]
    exact Nat.lt_succ_self _
  · obtain rfl | rfl := hstate
    · exact .inr (.inl rfl)
    · exact .inr (.inr rfl)
  · simp only [hP, Closes]

theorem literal_word {c : UInt16} (hc : c = 116 ∨ c = 102 ∨ c = 110) :
    ∃ w ∈ literals, jsText (if c = 116 then "true" else if c = 102 then "false" else "null") = w ∧
      ∀ w' ∈ literals, ∀ t r : Utf16, c :: t = w' ++ r → w' = w := by
  have htrue : jsText "true" = [116, 114, 117, 101] := by decide +kernel
  have hfalse : jsText "false" = [102, 97, 108, 115, 101] := by decide +kernel
  have hnull : jsText "null" = [110, 117, 108, 108] := by decide +kernel
  have hother (w' : Utf16) (hw' : w' ∈ literals) (t r : Utf16) (h : c :: t = w' ++ r) :
      w' = if c = 116 then [116, 114, 117, 101] else if c = 102 then [102, 97, 108, 115, 101]
        else [110, 117, 108, 108] := by
    simp only [literals, mem_cons, not_mem_nil, or_false] at hw'
    obtain rfl | rfl | rfl := hw' <;> rw [(List.cons.inj h).1] <;> rfl
  refine ⟨_, ?_, ?_, hother⟩
  · obtain rfl | rfl | rfl := hc <;> decide
  · obtain rfl | rfl | rfl := hc
    · exact htrue
    · exact hfalse
    · exact hnull

theorem literal_length {w : Utf16} (hw : w ∈ literals) : 0 < w.length := by
  simp only [literals, mem_cons, not_mem_nil, or_false] at hw
  obtain rfl | rfl | rfl := hw <;> exact Nat.succ_pos _

theorem derives_literal {c : UInt16} {t r : Utf16} (hc : c = 116 ∨ c = 102 ∨ c = 110) : Derives .value (c :: t) r ↔
    c :: t = jsText (if c = 116 then "true" else if c = 102 then "false" else "null") ++ r := by
  obtain ⟨w, hw, hword, hunique⟩ := literal_word hc
  rw [hword]
  constructor
  · intro h
    obtain ⟨w', hw', h⟩ | hnumber | ⟨rfl, -⟩ | ⟨rfl, -⟩ | ⟨rfl, -⟩ := derives_cons.mp h
    · rw [← hunique w' hw' t r h]
      exact h
    · have hhead := number_head hnumber
      obtain rfl | rfl | rfl := hc <;> cases hhead
    all_goals exact absurd hc (by decide)
  · intro h
    rw [h]
    exact .literal hw

theorem not_derives {c : UInt16} {t r : Utf16} (hopen : c ≠ 34 ∧ c ≠ 91 ∧ c ≠ 123)
    (hnumber : ¬ (c = 45 || JsonGrammar.isDigit c) = true) (hliteral : ¬(c = 116 ∨ c = 102 ∨ c = 110)) :
    ¬ Derives .value (c :: t) r := by
  intro h
  obtain ⟨w, hw, hword⟩ | h | ⟨rfl, -⟩ | ⟨rfl, -⟩ | ⟨rfl, -⟩ := derives_cons.mp h
  · exact hliteral (literal_head hw hword)
  · exact hnumber (number_head h)
  · exact hopen.1 rfl
  · exact hopen.2.1 rfl
  · exact hopen.2.2 rfl

theorem derives_of_open {c : UInt16} {t r : Utf16} (hc : c = 34 ∨ c = 91 ∨ c = 123) : Derives .value (c :: t) r ↔
    c = 34 ∧ Body t r ∨ c = 91 ∧ (Space t (93 :: r) ∨ Derives .elements t r) ∨
      c = 123 ∧ (Space t (125 :: r) ∨ Derives .members t r) := by
  rw [derives_cons]
  constructor
  · rintro (⟨w, hw, hword⟩ | hnumber | h)
    · have hhead := literal_head hw hword
      obtain rfl | rfl | rfl := hc <;> exact absurd hhead (by decide)
    · have hhead := number_head hnumber
      obtain rfl | rfl | rfl := hc <;> cases hhead
    · exact h
  · exact fun h => .inr (.inr h)

theorem derives_of_number {c : UInt16} {t r : Utf16} (hc : (c = 45 || JsonGrammar.isDigit c) = true) :
    Derives .value (c :: t) r ↔ Number (c :: t) r := by
  rw [derives_cons]
  constructor
  · rintro (⟨w, hw, hword⟩ | hnumber | ⟨rfl, -⟩ | ⟨rfl, -⟩ | ⟨rfl, -⟩)
    · obtain rfl | rfl | rfl := literal_head hw hword <;> cases hc
    · exact hnumber
    all_goals cases hc
  · exact fun h => .inr (.inl h)

theorem value_keeps (h : s.at_ ≤ s.source.length) (hstops : ∀ r, Closes stack r → Ceases goesOn r) :
    Values s stack (s.value stack) := by
  unfold value
  cases hcurrent : s.current with
  | none =>
    apply Values.unexpected h
    intro r hr
    rw [rest_of_none hcurrent] at hr
    exact derives_nil hr
  | some c =>
    have hrest := rest_of_some hcurrent
    dsimp only
    split
    · rename_i hc
      subst hc
      apply Values.opens hcurrent (.inl rfl)
      intro r
      rw [hrest, derives_of_open (.inr (.inr rfl))]
      simp [Wants]
    rename_i hbrace
    split
    · rename_i hc
      subst hc
      apply Values.opens hcurrent (.inr rfl)
      intro r
      rw [hrest, derives_of_open (.inr (.inl rfl))]
      simp [Wants]
    rename_i hbracket
    split
    · rename_i hc
      subst hc
      refine Values.of_scans (string_scans hcurrent) ?_ (fun _ _ => trivial) ?_
      · intro r
        rw [hrest, derives_of_open (.inl rfl)]
        simp
      · rintro r ⟨u, hu, hr⟩
        rw [hu]
        exact hr.length_lt.trans (Nat.lt_succ_self _)
    rename_i hquote
    split
    · rename_i hc
      apply Values.of_scans (number_scans h) _ hstops fun r hr => hr.length_lt
      intro r
      rw [hrest, derives_of_number hc]
    rename_i hnumber
    split
    · rename_i hc
      have hc' : c = 116 ∨ c = 102 ∨ c = 110 := by
        simpa only [Bool.or_eq_true, decide_eq_true_eq, or_assoc] using hc
      refine Values.of_scans (literal_scans _ h) ?_ (fun _ _ => trivial) ?_
      · intro r
        rw [hrest, derives_literal hc']
      · intro r hr
        obtain ⟨w, hw, hword, -⟩ := literal_word hc'
        rw [hr, hword, length_append]
        exact Nat.lt_add_of_pos_left (literal_length hw)
    · rename_i hc
      apply Values.unexpected h
      intro r
      rw [hrest]
      apply not_derives ⟨hquote, hbracket, hbrace⟩ hnumber
      simpa only [Bool.or_eq_true, decide_eq_true_eq, or_assoc] using hc

end Values

/-! ## Turns -/

/-- What is left to do: the text, and the end. -/
def Check.todo (c : Check) : Nat := c.at_.rest.length + c.stack.count .end_

/-- What a turn from `c` on does: it keeps whether the text is as the stack wants it, or says that it is or is not. -/
def Keeps (c : Check) : Outcome (Turn Check Unit) → Prop
  | .ok (.again c') => c'.at_.source = c.at_.source ∧ c'.at_.at_ ≤ c'.at_.source.length ∧ Ready c'.stack ∧
    c'.todo < c.todo ∧
      (Closes c.stack c.at_.rest ↔ Closes c'.stack c'.at_.rest)
  | .ok (.leave _) => Closes c.stack c.at_.rest
  | .error failure => Fails c.at_.source failure ∧ ¬ Closes c.stack c.at_.rest

section Turns

variable {a : Syntax} {state : State} {stack stack' : List State}

theorem rest_whitespace : a.whitespace.rest = a.rest.dropWhile JsonGrammar.isSpace := rest_skip _

theorem length_whitespace : a.whitespace.rest.length ≤ a.rest.length := by
  rw [rest_whitespace]
  exact (dropWhile_sublist _).length_le

theorem Keeps.positioned (h : a.at_ ≤ a.source.length) (message : String) (hnone : ¬ Closes (state :: stack) a.rest) :
    Keeps ⟨a, state :: stack⟩ (a.whitespace.positioned message) := by
  obtain ⟨failure, hfailure, hfails⟩ := positioned_fails (α := Turn Check Unit) (skip_le isSpace h) message
  unfold whitespace
  rw [hfailure]
  exact ⟨hfails, hnone⟩

theorem Keeps.step {k : UInt16} (hcurrent : a.whitespace.current = some k) (hready : Ready stack')
    (hcount : stack'.count .end_ ≤ (state :: stack).count .end_)
    (hcloses : Closes (state :: stack) a.rest ↔ Closes stack' a.whitespace.step.rest) :
    Keeps ⟨a, state :: stack⟩ (.ok (.again ⟨a.whitespace.step, stack'⟩)) := by
  refine ⟨rfl, step_le hcurrent, hready, ?_, hcloses⟩
  have hlength := length_whitespace (a := a)
  rw [rest_of_some hcurrent, length_cons] at hlength
  unfold Check.todo
  dsimp only
  omega

theorem Keeps.value {out : Outcome (Syntax × List State)} (h : Values a.whitespace stack' out)
    (hafter : ∀ u ∈ stack', isAfter u) (hcount : stack'.count .end_ ≤ (state :: stack).count .end_)
    (hcloses : Closes (state :: stack) a.rest ↔ ∃ r, Derives .value a.whitespace.rest r ∧ Closes stack' r) :
    Keeps ⟨a, state :: stack⟩ (do
      let (s, stack) ← out
      .ok (.again ⟨s, stack⟩)) := by
  cases out with
  | error failure =>
    refine ⟨h.1, ?_⟩
    rw [hcloses]
    exact h.2
  | ok pair =>
    obtain ⟨s, stack''⟩ := pair
    obtain ⟨hsource, hbound, hlength, hstack, hvalue⟩ := h
    have hspace := length_whitespace (a := a)
    refine ⟨hsource, hbound, ?_, ?_, hcloses.trans hvalue⟩
    · obtain rfl | rfl | rfl := hstack
      · exact ready_of_after hafter
      · exact ⟨hafter, nofun⟩
      · exact ⟨hafter, nofun⟩
    · have hcount' : stack''.count .end_ = stack'.count .end_ := by
        obtain rfl | rfl | rfl := hstack
        · rfl
        · exact count_cons_of_ne (by decide)
        · exact count_cons_of_ne (by decide)
      unfold Check.todo
      dsimp only
      omega

theorem Keeps.name (hcurrent : a.whitespace.current = some 34) (hafter : ∀ u ∈ stack, isAfter u)
    (hstate : state ≠ .end_)
    (hwants : ∀ r, Wants state a.rest r ↔ Derives .members a.rest r) :
    Keeps ⟨a, state :: stack⟩ (do
      let s ← a.whitespace.string
      .ok (.again ⟨s, .colon :: stack⟩)) := by
  have hcloses : Closes (state :: stack) a.rest ↔
      ∃ b, (∃ u, a.whitespace.rest = 34 :: u ∧ Body u b) ∧ Closes (.colon :: stack) b := by
    simp only [Closes, hwants, members_iff, ← rest_whitespace]
    grind
  have hstring := string_scans hcurrent
  cases hout : a.whitespace.string with
  | error failure =>
    rw [hout] at hstring
    refine ⟨hstring.1, ?_⟩
    rw [hcloses]
    rintro ⟨b, hb, -⟩
    exact hstring.2 b hb trivial
  | ok s =>
    rw [hout] at hstring
    obtain ⟨hsource, hbound, hbody, hunique⟩ := hstring
    refine ⟨hsource, hbound, ⟨hafter, nofun⟩, ?_, hcloses.trans ?_⟩
    · have hspace := length_whitespace (a := a)
      obtain ⟨u, hu, hr⟩ := hbody
      have hlength := hr.length_lt
      rw [hu, length_cons] at hspace
      unfold Check.todo
      dsimp only
      rw [count_cons_of_ne (by decide), count_cons_of_ne hstate]
      omega
    · constructor
      · rintro ⟨b, hb, hcolon⟩
        rwa [← hunique b hb trivial]
      · intro hcolon
        exact ⟨_, hbody, hcolon⟩

theorem Keeps.after {k : UInt16} {next : State} (h : a.at_ ≤ a.source.length) (message : String)
    (hafter : ∀ u ∈ stack, isAfter u) (hstate : state ≠ .end_) (hnext : next ≠ .end_ ∧ next ≠ .value)
    (hk : JsonGrammar.isSpace k = false) (hcomma : k ≠ 44)
    (hwants : ∀ t r, Wants state t r ↔ Space t (k :: r) ∨ ∃ b, Space t (44 :: b) ∧ Wants next b r) :
    Keeps ⟨a, state :: stack⟩ (if a.whitespace.current = some k then .ok (.again ⟨a.whitespace.step, stack⟩)
      else if a.whitespace.current = some 44 then .ok (.again ⟨a.whitespace.step, next :: stack⟩)
      else a.whitespace.positioned message) := by
  have hcount : ∀ next : State, next ≠ .end_ → (next :: stack).count State.end_ = stack.count State.end_ :=
    fun _ hne => count_cons_of_ne hne
  have hcloses : Closes (state :: stack) a.rest ↔ ∃ r, (a.whitespace.rest = k :: r ∨
      ∃ b, a.whitespace.rest = 44 :: b ∧ Wants next b r) ∧ Closes stack r := by
    simp only [Closes, hwants, space_cons hk, space_cons (c := 44) (by decide), ← rest_whitespace]
  split
  · rename_i hcurrent
    apply Keeps.step hcurrent (ready_of_after hafter)
    · rw [hcount state hstate]
    · rw [hcloses, rest_of_some hcurrent]
      grind
  split
  · rename_i hcurrent
    have hready : Ready (next :: stack) := ⟨hafter, fun hvalue => absurd hvalue hnext.2⟩
    apply Keeps.step hcurrent hready
    · rw [hcount state hstate, hcount next hnext.1]
    · rw [hcloses, rest_of_some hcurrent]
      simp only [Closes]
      grind
  · rename_i hclose hmore
    apply Keeps.positioned h
    rw [hcloses]
    rintro ⟨r, hr | ⟨b, hb, -⟩, -⟩
    · exact rest_of_ne hclose hr
    · exact rest_of_ne hmore hb

theorem Keeps.empty {k : UInt16} {X : Utf16 → Prop} (hcurrent : a.whitespace.current = some k)
    (hafter : ∀ u ∈ stack, isAfter u)
    (hstate : state ≠ .end_) (hk : JsonGrammar.isSpace k = false) (hnone : ∀ r, ¬ X r)
    (hwants : ∀ r, Wants state a.rest r ↔ Space a.rest (k :: r) ∨ X r) :
    Keeps ⟨a, state :: stack⟩ (.ok (.again ⟨a.whitespace.step, stack⟩)) := by
  apply Keeps.step hcurrent (ready_of_after hafter)
  · rw [count_cons_of_ne hstate]
  · simp only [Closes, hwants, hnone, or_false, space_cons hk, ← rest_whitespace, rest_of_some hcurrent,
      List.cons.injEq,
      true_and, exists_eq_left']

theorem Keeps.element (h : a.at_ ≤ a.source.length) (hafter : ∀ u ∈ stack, isAfter u) (hstate : state ≠ .end_)
    (hwants : ∀ r, Wants state a.rest r ↔ Derives .elements a.rest r) :
    Keeps ⟨a, state :: stack⟩ (do
      let (s, stack) ← a.whitespace.value (.arrayAfter :: stack)
      .ok (.again ⟨s, stack⟩)) := by
  have hafter' : ∀ u ∈ State.arrayAfter :: stack, isAfter u := by
    intro u hu
    obtain rfl | hu := mem_cons.mp hu
    · rfl
    · exact hafter u hu
  apply Keeps.value (value_keeps (skip_le isSpace h) fun r => stops_of_closes hafter' (cons_ne_nil _ _)) hafter'
  · rw [count_cons_of_ne (by decide), count_cons_of_ne hstate]
  · simp only [Closes, hwants, elements_iff, ← rest_whitespace]
    grind

theorem turn_keeps {c : Check} (h : c.at_.at_ ≤ c.at_.source.length) (hready : Ready c.stack) :
    Keeps c (checkTurn c) := by
  obtain ⟨a, stack⟩ := c
  cases stack with
  | nil => exact trivial
  | cons state stack =>
    have hafter := hready.1
    have hspace := skip_le isSpace h
    have hrest : a.whitespace.rest = a.rest.dropWhile JsonGrammar.isSpace := rest_whitespace
    cases state with
    | value =>
      apply Keeps.value (value_keeps hspace fun r => stops_of_closes hafter (hready.2 rfl)) hafter
      · exact count_le_count_cons
      · simp only [Closes, Wants, space_value, ← hrest]
    | end_ =>
      unfold checkTurn
      dsimp only
      split
      · apply Keeps.positioned h
        rintro ⟨r, ⟨hnil, -⟩, -⟩
        rename_i hsome
        obtain ⟨k, hk⟩ := Option.isSome_iff_exists.mp hsome
        rw [space_nil, ← hrest, rest_of_some hk] at hnil
        cases hnil
      · rename_i hnone
        have hcurrent : a.whitespace.current = none := Option.not_isSome_iff_eq_none.mp hnone
        refine ⟨rfl, hspace, ready_of_after hafter, ?_, ?_⟩
        · have hlength := length_whitespace (a := a)
          unfold Check.todo
          dsimp only
          rw [count_cons_self]
          omega
        · simp only [Closes, Wants, space_nil, ← hrest, rest_of_none hcurrent, true_and, exists_eq_left]
    | colon =>
      unfold checkTurn
      dsimp only
      split
      · rename_i hne
        apply Keeps.positioned h
        rintro ⟨r, hwants, -⟩
        obtain ⟨b, b', hb, -⟩ := colon_iff.mp hwants
        rw [← hrest] at hb
        exact rest_of_ne hne hb
      · rename_i heq
        have hcurrent := not_not.mp heq
        refine Keeps.step hcurrent ⟨?_, nofun⟩ ?_ ?_
        · intro u hu
          obtain rfl | hu := mem_cons.mp hu
          · rfl
          · exact hafter u hu
        · exact le_rfl
        · simp only [Closes, colon_iff, ← hrest, rest_of_some hcurrent]
          grind
    | objectAfter =>
      have hnext : State.objectNext ≠ .end_ ∧ State.objectNext ≠ .value := by decide
      exact Keeps.after h _ hafter (by decide) hnext (by decide) (by decide) fun t r => Iff.rfl
    | arrayAfter =>
      have hnext : State.arrayNext ≠ .end_ ∧ State.arrayNext ≠ .value := by decide
      exact Keeps.after h _ hafter (by decide) hnext (by decide) (by decide) fun t r => Iff.rfl
    | objectFirst =>
      have hmembers (hne : a.whitespace.current ≠ some 125) (r : Utf16) :
          Wants .objectFirst a.rest r ↔ Derives .members a.rest r := by
        apply or_iff_right
        rw [space_cons rfl, ← hrest]
        exact rest_of_ne hne
      unfold checkTurn
      dsimp only
      split
      · rename_i hcurrent
        refine Keeps.empty hcurrent.2 hafter (by decide) (by decide) ?_ fun r => Iff.rfl
        intro r hr
        obtain ⟨b, b', hb, -⟩ := members_iff.mp hr
        rw [← hrest, rest_of_some hcurrent.2] at hb
        cases (List.cons.inj hb).1
      rename_i hbrace
      split
      · rename_i hquote
        apply Keeps.positioned h
        rintro ⟨r, hwants, -⟩
        rw [hmembers fun hcurrent => hbrace ⟨rfl, hcurrent⟩, members_iff, ← hrest] at hwants
        obtain ⟨b, b', hb, -⟩ := hwants
        exact rest_of_ne hquote hb
      · rename_i hquote
        exact Keeps.name (not_not.mp hquote) hafter (by decide) (hmembers fun hcurrent => hbrace ⟨rfl, hcurrent⟩)
    | objectNext =>
      unfold checkTurn
      dsimp only
      rw [if_neg (fun hfirst => by cases hfirst.1)]
      split
      · rename_i hquote
        apply Keeps.positioned h
        rintro ⟨r, hwants, -⟩
        obtain ⟨b, b', hb, -⟩ := members_iff.mp hwants
        rw [← hrest] at hb
        exact rest_of_ne hquote hb
      · rename_i hquote
        exact Keeps.name (not_not.mp hquote) hafter (by decide) fun r => Iff.rfl
    | arrayFirst =>
      unfold checkTurn
      dsimp only
      split
      · rename_i hcurrent
        refine Keeps.empty hcurrent.2 hafter (by decide) (by decide) ?_ fun r => Iff.rfl
        intro r hr
        obtain ⟨b, hb, -⟩ := elements_iff.mp hr
        rw [← hrest, rest_of_some hcurrent.2] at hb
        exact not_derives (by decide) (by decide) (by decide) hb
      · rename_i hbracket
        refine Keeps.element h hafter (by decide) fun r => or_iff_right ?_
        rw [space_cons rfl, ← hrest]
        exact rest_of_ne fun hcurrent => hbracket ⟨rfl, hcurrent⟩
    | arrayNext =>
      unfold checkTurn
      dsimp only
      rw [if_neg (fun hfirst => by cases hfirst.1)]
      exact Keeps.element h hafter (by decide) fun r => Iff.rfl

end Turns

theorem closes_json (t : Utf16) : Closes [.value, .end_] t ↔ JsonText t := by
  constructor
  · rintro ⟨b, ⟨a, hspace, hvalue⟩, r, ⟨hend, -⟩, -⟩
    exact ⟨a, b, hspace, hvalue, hend⟩
  · rintro ⟨a, b, hspace, hvalue, hend⟩
    exact ⟨b, ⟨a, hspace, hvalue⟩, [], ⟨hend, rfl⟩, trivial⟩

/-- `check` ends, accepts the JSON texts and no others, and says of any other why at a position within it. -/
theorem check_decides (source : Utf16) : ∃ out, check source = some out ∧ (out = .ok () ↔ JsonText source) ∧
    ∀ failure, out = .error failure → Fails source failure := by
  have hends := @loop_ends _ _ _ checkTurn
    (fun c => c.at_.source = source ∧ c.at_.at_ ≤ c.at_.source.length ∧ Ready c.stack)
    Check.todo
    (fun c out => (out = .ok () ↔ Closes c.stack c.at_.rest) ∧
      ∀ failure, out = .error failure → Fails source failure) ?_ ?_ ?_
    (source.length + 2) ⟨⟨source, 0⟩, [.value, .end_]⟩ ⟨rfl, Nat.zero_le _, by decide, nofun⟩ ?_
  · obtain ⟨out, hout, hdecides, hfails⟩ := hends
    exact ⟨out, hout, hdecides.trans (closes_json source), hfails⟩
  · rintro c c' ⟨hsource, hbound, hready⟩ hturn
    have hkeeps := turn_keeps hbound hready
    rw [hturn] at hkeeps
    obtain ⟨hsource', hbound', hready', htodo, hcloses⟩ := hkeeps
    refine ⟨⟨hsource'.trans hsource, hbound', hready'⟩, htodo, ?_⟩
    intro out hout
    rwa [hcloses]
  · rintro c r ⟨hsource, hbound, hready⟩ hturn
    have hkeeps := turn_keeps hbound hready
    rw [hturn] at hkeeps
    exact ⟨iff_of_true rfl hkeeps, nofun⟩
  · rintro c failure ⟨hsource, hbound, hready⟩ hturn
    have hkeeps := turn_keeps hbound hready
    rw [hturn] at hkeeps
    refine ⟨iff_of_false nofun hkeeps.2, ?_⟩
    rintro failure' ⟨⟩
    exact hsource ▸ hkeeps.1
  · exact Nat.lt_succ_self _

end Syntax

end Cantrip.Wire
