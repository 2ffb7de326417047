import Cantrip.Lib.JsonGrammar
import Cantrip.Wire.Syntax

/-!
# The lexemes of a JSON text

What is left of the text at a position is `rest`. Each scanner decides its part of the grammar (`Scans`): where it goes
on, the text begins so, and leaves no other rest that fits; where it fails, the text does not begin so, and the error is
a message about a position within the text (`Reports`).
-/

namespace Cantrip.Wire

open List Option Bool

namespace Syntax

open Lib Lib.JsonGrammar

/-- What is left of the text. -/
def rest (s : Syntax) : Utf16 := s.source.drop s.at_

section Rest

variable {s : Syntax} {c : UInt16}

theorem rest_of_some (h : s.current = some c) : s.rest = c :: s.step.rest := by
  obtain ⟨hlt, rfl⟩ := List.getElem?_eq_some_iff.mp h
  exact drop_eq_getElem_cons hlt

theorem rest_of_none (h : s.current = none) : s.rest = [] := drop_eq_nil_of_le (List.getElem?_eq_none_iff.mp h)

theorem current_of_rest {t : Utf16} (h : s.rest = c :: t) : s.current = some c ∧ s.step.rest = t := by
  cases hcurrent : s.current with
  | none =>
    rw [rest_of_none hcurrent] at h
    cases h
  | some d =>
    rw [rest_of_some hcurrent] at h
    obtain ⟨rfl, rfl⟩ := List.cons.inj h
    exact ⟨rfl, rfl⟩

theorem length_rest : s.rest.length = s.source.length - s.at_ := length_drop

theorem step_le (h : s.current = some c) : s.step.at_ ≤ s.step.source.length := at_lt_of_current h

theorem rest_skip (p : UInt16 → Bool) : (s.skip p).rest = s.rest.dropWhile p := by
  have hsplit : s.rest.takeWhile p ++ s.rest.dropWhile p = s.rest := takeWhile_append_dropWhile
  calc (s.skip p).rest = s.rest.drop (s.rest.takeWhile p).length := drop_drop.symm
    _ = (s.rest.takeWhile p ++ s.rest.dropWhile p).drop (s.rest.takeWhile p).length := by rw [hsplit]
    _ = s.rest.dropWhile p := drop_left

theorem skip_le (p : UInt16 → Bool) (h : s.at_ ≤ s.source.length) : (s.skip p).at_ ≤ s.source.length := by
  have hle : (s.rest.takeWhile p).length ≤ s.rest.length := (takeWhile_sublist p).length_le
  rw [length_rest] at hle
  unfold skip
  unfold rest at hle
  dsimp only
  omega

end Rest

/-! ## Errors -/

/-- The messages about a text: a position that is given is within it, and so is the part around an unexpected unit. -/
inductive Reports (source : Utf16) : JsString → Prop
  | positioned (message : String) {position : Nat} (line column : Nat) (h : position ≤ source.length) :
      Reports source (jsText message ++ jsText " at position " ++ decimal position ++ jsText " (line " ++ decimal line ++
        jsText " column " ++ decimal column ++ jsText ")")
  | ending : Reports source (jsText "Unexpected end of JSON input")
  | whole : Reports source (34 :: source ++ jsText "\" is not valid JSON")
  | token {position start end_ : Nat} {current : UInt16} (leading trailing : Bool) (hcurrent : source[position]? = some current)
      (hstart : start ≤ position) (hend : position < end_) (hlength : end_ ≤ source.length) :
      Reports source (jsText "Unexpected token '" ++ [current] ++ jsText "', " ++ (if leading then jsText "..." else []) ++
        34 :: (source.drop start).take (end_ - start) ++ 34 :: (if trailing then jsText "..." else []) ++
        jsText " is not valid JSON")

def Fails (source : Utf16) (failure : Failure) : Prop := ∃ text, failure = .message text ∧ Reports source text

theorem index_eq {s : Syntax} {i : Nat} (h : i < s.source.length) : s.index i = .ok s.source[i] := by
  unfold index
  rw [getElem?_eq_getElem h]

theorem pair_eq {s : Syntax} {cursor : Nat} (h : s.at_ ≤ s.source.length) (hcursor : cursor < s.at_) :
    ∃ pair, s.pair cursor = .ok pair ∧ (pair = true → cursor + 1 < s.at_) := by
  unfold pair
  rw [index_eq (by omega)]
  simp only [bind, Except.bind]
  by_cases hsecond : s.source[cursor] = 13 ∧ cursor + 1 < s.at_
  · rw [if_pos hsecond, index_eq (by omega)]
    exact ⟨_, rfl, fun _ => hsecond.2⟩
  · rw [if_neg hsecond]
    exact ⟨false, rfl, fun hpair => Bool.noConfusion hpair⟩

theorem lines_eq {s : Syntax} (h : s.at_ ≤ s.source.length) (cursor line last : Nat) (hlast : last ≤ s.at_) :
    ∃ line' last', s.lines cursor line last = .ok (line', last') ∧ last' ≤ s.at_ := by
  induction hn : s.at_ - cursor using Nat.strong_induction_on generalizing cursor line last with
  | _ n ih =>
    rw [lines]
    by_cases hcursor : cursor < s.at_
    · obtain ⟨pair, hpair, hsecond⟩ := pair_eq h hcursor
      obtain ⟨next, hnext⟩ : ∃ next, next = if pair then cursor + 1 else cursor := ⟨_, rfl⟩
      have hbetween : cursor ≤ next ∧ next < s.at_ := by
        rw [hnext]
        split
        · exact ⟨Nat.le_succ _, hsecond ‹_›⟩
        · exact ⟨le_rfl, hcursor⟩
      rw [if_pos hcursor, hpair]
      simp only [bind, Except.bind, ← hnext]
      rw [index_eq (by omega)]
      dsimp only
      split
      · exact ih _ (by omega) _ _ _ (by omega) rfl
      · exact ih _ (by omega) _ _ _ hlast rfl
    · rw [if_neg hcursor]
      exact ⟨line, last, rfl, hlast⟩

theorem positioned_fails {α : Type} {s : Syntax} (h : s.at_ ≤ s.source.length) (message : String) :
    ∃ failure, (s.positioned message : Outcome α) = .error failure ∧ Fails s.source failure := by
  obtain ⟨line, last, hlines, hlast⟩ := lines_eq h 0 1 0 (Nat.zero_le _)
  have hcolumn : checkedSub (1 + s.at_) last = .ok (1 + s.at_ - last) := if_pos (by omega)
  unfold positioned
  rw [hlines]
  simp only [bind, Except.bind, hcolumn]
  exact ⟨_, rfl, _, rfl, .positioned message line _ h⟩

theorem context_eq {s : Syntax} (h : s.at_ < s.source.length) :
    ∃ start end_ leading trailing, s.context = .ok (start, end_, leading, trailing) ∧ start ≤ s.at_ ∧ s.at_ < end_ ∧
      end_ ≤ s.source.length := by
  unfold context
  by_cases hshort : s.source.length < 21
  · rw [if_pos hshort]
    exact ⟨_, _, _, _, rfl, Nat.zero_le _, h, le_rfl⟩
  · rw [if_neg hshort]
    by_cases hfront : s.at_ < 10
    · rw [if_pos hfront]
      exact ⟨_, _, _, _, rfl, Nat.zero_le _, by omega, by omega⟩
    · have hmost : checkedSub s.source.length 10 = .ok (s.source.length - 10) := if_pos (by omega)
      have hstart : checkedSub s.at_ 10 = .ok (s.at_ - 10) := if_pos (by omega)
      rw [if_neg hfront]
      simp only [bind, Except.bind, hmost, hstart]
      split
      · exact ⟨_, _, _, _, rfl, Nat.sub_le _ _, by omega, by omega⟩
      · exact ⟨_, _, _, _, rfl, Nat.sub_le _ _, h, le_rfl⟩

theorem unexpected_fails {α : Type} {s : Syntax} (h : s.at_ ≤ s.source.length) :
    ∃ failure, (s.unexpected : Outcome α) = .error failure ∧ Fails s.source failure := by
  unfold unexpected
  cases hcurrent : s.current with
  | none => exact ⟨_, rfl, _, rfl, .ending⟩
  | some current =>
    obtain ⟨start, end_, leading, trailing, hcontext, hstart, hend, hlength⟩ := context_eq (at_lt_of_current hcurrent)
    have hrange : s.range start end_ = .ok ((s.source.drop start).take (end_ - start)) := if_pos ⟨by omega, hlength⟩
    dsimp only
    split
    · exact positioned_fails h _
    · split
      · exact positioned_fails h _
      · split
        · exact ⟨_, rfl, _, rfl, .whole⟩
        · simp only [hcontext, bind, Except.bind, hrange]
          exact ⟨_, rfl, _, rfl, .token leading trailing hcurrent hstart hend hlength⟩

/-! ## Scanners -/

/-- What a scanner makes of the text from `s` on: a part `P`, which leaves the only rest that fits, or none. -/
def Scans (s : Syntax) (P : Utf16 → Utf16 → Prop) (Fit : Utf16 → Prop) : Outcome Syntax → Prop
  | .ok s' => s'.source = s.source ∧ s'.at_ ≤ s'.source.length ∧ P s.rest s'.rest ∧ ∀ r, P s.rest r → Fit r → r = s'.rest
  | .error failure => Fails s.source failure ∧ ∀ r, P s.rest r → ¬ Fit r

section Scans

variable {s : Syntax} {P Q : Utf16 → Utf16 → Prop} {Fit FitQ : Utf16 → Prop}

theorem Scans.bind {out : Outcome Syntax} {f : Syntax → Outcome Syntax} (h : Scans s P Fit out)
    (hf : ∀ s', s'.at_ ≤ s'.source.length → Scans s' Q FitQ (f s')) (hfit : ∀ b r, Q b r → FitQ r → Fit b) :
    Scans s (fun t r => ∃ b, P t b ∧ Q b r) FitQ (out >>= f) := by
  cases out with
  | error failure =>
    refine ⟨h.1, ?_⟩
    rintro r ⟨b, hb, hr⟩ hfitr
    exact h.2 b hb (hfit b r hr hfitr)
  | ok s' =>
    obtain ⟨hsource, hbound, hp, hunique⟩ := h
    have hnext := hf s' hbound
    change Scans s _ FitQ (f s')
    cases hout : f s' with
    | error failure =>
      rw [hout] at hnext
      refine ⟨hsource ▸ hnext.1, ?_⟩
      rintro r ⟨b, hb, hr⟩ hfitr
      rw [hunique b hb (hfit b r hr hfitr)] at hr
      exact hnext.2 r hr hfitr
    | ok s'' =>
      rw [hout] at hnext
      obtain ⟨hsource', hbound', hq, hunique'⟩ := hnext
      refine ⟨hsource'.trans hsource, hbound', ⟨_, hp, hq⟩, ?_⟩
      rintro r ⟨b, hb, hr⟩ hfitr
      rw [hunique b hb (hfit b r hr hfitr)] at hr
      exact hunique' r hr hfitr

theorem Scans.of {u : Syntax} {out : Outcome Syntax} (h : Scans u P Fit out) (hsource : u.source = s.source)
    (hPQ : ∀ r, P u.rest r → Q s.rest r) (hQP : ∀ r, Q s.rest r → FitQ r → P u.rest r ∧ Fit r) : Scans s Q FitQ out := by
  cases out with
  | error failure =>
    refine ⟨hsource ▸ h.1, ?_⟩
    intro r hr hfitr
    obtain ⟨hp, hfit⟩ := hQP r hr hfitr
    exact h.2 r hp hfit
  | ok s'' =>
    obtain ⟨hsource', hbound, hp, hunique⟩ := h
    refine ⟨hsource'.trans hsource, hbound, hPQ _ hp, ?_⟩
    intro r hr hfitr
    obtain ⟨hp', hfit⟩ := hQP r hr hfitr
    exact hunique r hp' hfit

theorem Scans.ok (h : s.at_ ≤ s.source.length) (hp : P s.rest s.rest) (hunique : ∀ r, P s.rest r → Fit r → r = s.rest) :
    Scans s P Fit (.ok s) := ⟨rfl, h, hp, hunique⟩

theorem Scans.positioned (h : s.at_ ≤ s.source.length) (message : String) (hnone : ∀ r, P s.rest r → ¬ Fit r) :
    Scans s P Fit (s.positioned message) := by
  obtain ⟨failure, hfailure, hfails⟩ := positioned_fails (α := Syntax) h message
  rw [hfailure]
  exact ⟨hfails, hnone⟩

theorem Scans.unexpected (h : s.at_ ≤ s.source.length) (hnone : ∀ r, P s.rest r → ¬ Fit r) : Scans s P Fit s.unexpected := by
  obtain ⟨failure, hfailure, hfails⟩ := unexpected_fails (α := Syntax) h
  rw [hfailure]
  exact ⟨hfails, hnone⟩

end Scans

section Numbers

variable {s : Syntax}

theorem at_skip_of_stops {p : UInt16 → Bool} (h : Ceases p s.rest) : s.skip p = s := by
  have hnone : s.rest.takeWhile p = [] := by
    cases hrest : s.rest with
    | nil => rfl
    | cons c t =>
      rw [hrest, stops_cons] at h
      exact takeWhile_cons_of_neg (eq_false_iff.mp h)
  unfold rest at hnone
  unfold skip
  rw [hnone]
  rfl

theorem stops_of_at_skip {p : UInt16 → Bool} (h : s.at_ = (s.skip p).at_) : Ceases p s.rest := by
  have hskip : s.skip p = s := by
    have hat : s.skip p = { s with at_ := (s.skip p).at_ } := rfl
    rw [hat, ← h]
  rw [← hskip, rest_skip]
  exact stops_dropWhile _

theorem digits_none {t r : Utf16} (hstops : Ceases JsonGrammar.isDigit t) : ¬ Digits t r := by
  intro h
  obtain ⟨d, rest, rfl, hd⟩ := h.head
  rw [stops_cons, hd] at hstops
  cases hstops

theorem isDigit_eq : isDigit = JsonGrammar.isDigit := rfl

theorem digits_scans (h : s.at_ ≤ s.source.length) (message : String) :
    Scans s Digits (Ceases JsonGrammar.isDigit) (s.digits message) := by
  unfold digits
  rw [isDigit_eq]
  by_cases hat : s.at_ = (s.skip JsonGrammar.isDigit).at_
  · have hstops := stops_of_at_skip hat
    rw [if_pos hat, at_skip_of_stops hstops]
    apply Scans.positioned h
    intro r hdigits
    exact absurd hdigits (digits_none hstops)
  · obtain ⟨d, t, hrest, hd⟩ : ∃ d t, s.rest = d :: t ∧ JsonGrammar.isDigit d = true := by
      by_contra hnone
      push Not at hnone
      have hstops : Ceases JsonGrammar.isDigit s.rest := by
        intro d hd
        obtain ⟨t, ht⟩ := head?_eq_some_iff.mp hd
        exact eq_false_iff.mpr (hnone d t ht)
      rw [at_skip_of_stops hstops] at hat
      exact hat rfl
    have hend : (s.skip JsonGrammar.isDigit).rest = t.dropWhile JsonGrammar.isDigit := by
      rw [rest_skip, hrest]
      exact dropWhile_cons_of_pos hd
    rw [if_neg hat]
    refine ⟨rfl, skip_le _ h, ?_, ?_⟩
    · rw [hrest, hend]
      exact ⟨d, t, rfl, hd, run_dropWhile t⟩
    · rintro r ⟨d', t', heq, -, hr⟩ hfit
      rw [hrest] at heq
      obtain ⟨rfl, rfl⟩ := List.cons.inj heq
      rw [hend]
      exact hr.eq_dropWhile hfit

theorem rest_of_ne {c : UInt16} {t : Utf16} (h : s.current ≠ some c) : s.rest ≠ c :: t := by
  intro hrest
  exact h (current_of_rest hrest).1

section

variable (h : s.at_ ≤ s.source.length)
include h

theorem sign_scans :
    Scans s Sign (fun t => ∀ u, t ≠ 45 :: u) (.ok (if s.current = some 45 then s.step else s)) := by
  by_cases hminus : s.current = some 45
  · rw [if_pos hminus]
    refine ⟨rfl, step_le hminus, ?_, ?_⟩
    · rw [rest_of_some hminus]
      exact .minus
    · intro r hr hfit
      rw [rest_of_some hminus] at hr
      cases hr with
      | none => exact absurd rfl (hfit _)
      | minus => rfl
  · rw [if_neg hminus]
    refine Scans.ok h .none ?_
    intro r hr _
    generalize ht : s.rest = t at hr
    cases hr with
    | none => rfl
    | minus => exact absurd ht (rest_of_ne hminus)

theorem whole_scans : Scans s JsonGrammar.Int (Ceases JsonGrammar.isDigit) s.whole := by
  unfold whole
  by_cases hzero : s.current = some 48
  · have hint : ∀ r, JsonGrammar.Int s.rest r → Ceases JsonGrammar.isDigit r → r = s.step.rest := by
      intro r hr _
      rw [rest_of_some hzero] at hr
      cases hr with
      | zero => rfl
      | digits _ hne _ => exact absurd rfl hne
    rw [if_pos hzero]
    by_cases hmore : s.step.current.any isDigit = true
    · rw [if_pos hmore]
      obtain ⟨d, hd, hdigit⟩ := (Option.any_eq_true _ _).mp hmore
      obtain ⟨failure, hfailure, hfails⟩ := positioned_fails (α := Syntax) (step_le hzero) "Unexpected number in JSON"
      rw [hfailure]
      refine ⟨hfails, ?_⟩
      intro r hr hfit
      rw [hint r hr hfit, rest_of_some hd, stops_cons] at hfit
      exact absurd hdigit (eq_false_iff.mp hfit)
    · rw [if_neg hmore]
      refine ⟨rfl, step_le hzero, ?_, hint⟩
      rw [rest_of_some hzero]
      exact .zero
  · rw [if_neg hzero]
    apply (digits_scans h _).of rfl
    · rintro r ⟨d, t, hrest, hd, hrun⟩
      rw [hrest]
      refine .digits hd ?_ hrun
      rintro rfl
      exact rest_of_ne hzero hrest
    · intro r hr hfit
      refine ⟨?_, hfit⟩
      generalize ht : s.rest = t at hr ⊢
      cases hr with
      | zero => exact absurd ht (rest_of_ne hzero)
      | digits hd _ hrun => exact ⟨_, _, rfl, hd, hrun⟩

theorem fraction_scans :
    Scans s Frac (Ceases fun c => JsonGrammar.isDigit c || c = 46) s.fraction := by
  unfold fraction
  by_cases hpoint : s.current = some 46
  · rw [if_pos hpoint]
    apply (digits_scans (step_le hpoint) _).of (s := s) rfl
    · intro r hr
      rw [rest_of_some hpoint]
      exact .some hr
    · intro r hr hfit
      rw [rest_of_some hpoint] at hr
      cases hr with
      | none => exact absurd (stops_cons.mp hfit) (by decide)
      | some hdigits =>
        refine ⟨hdigits, hfit.mono ?_⟩
        intro c hc
        rw [hc, Bool.true_or]
  · rw [if_neg hpoint]
    refine Scans.ok h .none ?_
    intro r hr _
    generalize ht : s.rest = t at hr
    cases hr with
    | none => rfl
    | some _ => exact absurd ht (rest_of_ne hpoint)

theorem exp_sign_scans : Scans s ExpSign (fun t => ∀ c u, t = c :: u → ¬(c = 43 ∨ c = 45))
    (.ok (if s.current = some 43 ∨ s.current = some 45 then s.step else s)) := by
  by_cases hsign : s.current = some 43 ∨ s.current = some 45
  · obtain ⟨c, hc, hcurrent⟩ : ∃ c, (c = 43 ∨ c = 45) ∧ s.current = some c := by
      obtain hsign | hsign := hsign
      · exact ⟨43, .inl rfl, hsign⟩
      · exact ⟨45, .inr rfl, hsign⟩
    rw [if_pos hsign]
    refine ⟨rfl, step_le hcurrent, ?_, ?_⟩
    · rw [rest_of_some hcurrent]
      exact .some hc
    · intro r hr hfit
      rw [rest_of_some hcurrent] at hr
      cases hr with
      | none => exact absurd hc (hfit _ _ rfl)
      | some _ => rfl
  · rw [if_neg hsign]
    refine Scans.ok h .none ?_
    intro r hr _
    generalize ht : s.rest = t at hr
    cases hr with
    | none => rfl
    | some hs =>
      rw [(current_of_rest ht).1, some.injEq, some.injEq] at hsign
      exact absurd hs hsign

theorem exponent_scans : Scans s Exp (Ceases goesOn) s.exponent := by
  have hdigit : ∀ c, JsonGrammar.isDigit c → goesOn c := by
    intro c hc
    unfold goesOn
    rw [hc, Bool.true_or, Bool.true_or, Bool.true_or]
  unfold exponent
  by_cases he : s.current = some 69 ∨ s.current = some 101
  · obtain ⟨c, hc, hcurrent⟩ : ∃ c, (c = 69 ∨ c = 101) ∧ s.current = some c := by
      obtain he | he := he
      · exact ⟨69, .inl rfl, he⟩
      · exact ⟨101, .inr rfl, he⟩
    have hdigits := (exp_sign_scans (step_le hcurrent)).bind
      (fun s' hs' => digits_scans hs' "Exponent part is missing a number in JSON") (by
        rintro b r hb - d u rfl hd
        obtain ⟨d', u', heq, hdigit'⟩ := hb.head
        obtain ⟨rfl, rfl⟩ := List.cons.inj heq
        obtain rfl | rfl := hd <;> cases hdigit')
    rw [if_pos he]
    apply hdigits.of (s := s) rfl
    · rintro r ⟨b, hb, hr⟩
      rw [rest_of_some hcurrent]
      exact .some hc hb hr
    · intro r hr hfit
      rw [rest_of_some hcurrent] at hr
      cases hr with
      | none =>
        have hstop := stops_cons.mp hfit
        obtain rfl | rfl := hc <;> cases hstop
      | some _ hsign hr => exact ⟨⟨_, hsign, hr⟩, hfit.mono hdigit⟩
  · rw [if_neg he]
    refine Scans.ok h .none ?_
    intro r hr _
    generalize ht : s.rest = t at hr
    cases hr with
    | none => rfl
    | some hc _ _ =>
      rw [(current_of_rest ht).1, some.injEq, some.injEq] at he
      exact absurd hc he

theorem number_scans : Scans s Number (Ceases goesOn) s.number := by
  have hstages := (sign_scans h).bind (fun _ hwhole => (whole_scans hwhole).bind
      (fun _ hfraction => (fraction_scans hfraction).bind (fun _ hexponent => exponent_scans hexponent)
        fun b r hb hr => hb.stops hr)
      fun b r hb hr => by
        obtain ⟨c, hfrac, hexp⟩ := hb
        exact hfrac.stops (hexp.stops hr))
    fun b r hb _ u hu => by
      obtain ⟨c, hint, -⟩ := hb
      obtain ⟨d, rest, heq, hd⟩ := hint.head
      rw [hu] at heq
      obtain ⟨rfl, -⟩ := List.cons.inj heq
      cases hd
  apply hstages.of rfl
  · rintro r ⟨a, hsign, b, hint, c, hfrac, hexp⟩
    exact ⟨a, b, c, hsign, hint, hfrac, hexp⟩
  · rintro r ⟨a, b, c, hsign, hint, hfrac, hexp⟩ hfit
    exact ⟨⟨a, hsign, b, hint, c, hfrac, hexp⟩, hfit⟩

end

end Numbers

section Strings

variable {s : Syntax}

theorem literal_scans (w : Utf16) (h : s.at_ ≤ s.source.length) :
    Scans s (fun t r => t = w ++ r) (fun _ => True) (literal w s) := by
  induction w generalizing s with
  | nil => exact Scans.ok h rfl fun _ hr _ => hr.symm
  | cons unit w ih =>
    unfold literal
    by_cases hcurrent : s.current = some unit
    · rw [if_neg (not_not.mpr hcurrent)]
      apply (ih (step_le hcurrent)).of (s := s) rfl
      · intro r hr
        rw [rest_of_some hcurrent, hr, cons_append]
      · intro r hr _
        rw [rest_of_some hcurrent, cons_append] at hr
        exact ⟨(List.cons.inj hr).2, trivial⟩
    · rw [if_pos hcurrent]
      apply Scans.unexpected h
      intro r hr
      exact absurd hr (rest_of_ne hcurrent)

theorem hexes_scans (n : Nat) {c : UInt16} (hcurrent : s.current = some c) :
    match hexes n s with
    | .ok s' => s'.source = s.source ∧ (∃ d, s'.current = some d) ∧
        ∃ w : Utf16, w.length = n ∧ (∀ d ∈ w, JsonGrammar.isHex d) ∧ s.step.rest = w ++ s'.step.rest
    | .error failure => Fails s.source failure ∧
        ∀ (w : Utf16) r, w.length = n → (∀ d ∈ w, JsonGrammar.isHex d) → s.step.rest ≠ w ++ r := by
  induction n generalizing s c with
  | zero => exact ⟨rfl, ⟨c, hcurrent⟩, [], rfl, nofun, rfl⟩
  | succ n ih =>
    unfold hexes
    by_cases hhex : s.step.current.any isHex = true
    · obtain ⟨d, hd, hdigit⟩ := (Option.any_eq_true _ _).mp hhex
      have hnext := ih hd
      rw [if_pos hhex]
      cases hout : hexes n s.step with
      | ok s' =>
        rw [hout] at hnext
        obtain ⟨hsource, hcurrent', w, hlength, hw, hrest⟩ := hnext
        refine ⟨hsource, hcurrent', d :: w, by rw [length_cons, hlength], ?_, ?_⟩
        · intro e he
          obtain rfl | he := mem_cons.mp he
          · exact hdigit
          · exact hw e he
        · rw [rest_of_some hd, hrest, cons_append]
      | error failure =>
        rw [hout] at hnext
        refine ⟨hnext.1, ?_⟩
        intro w r hlength hw hrest
        obtain ⟨e, w, rfl⟩ := exists_cons_of_length_eq_add_one hlength
        rw [rest_of_some hd, cons_append] at hrest
        exact hnext.2 w r (Nat.succ.inj hlength) (fun f hf => hw f (mem_cons_of_mem e hf)) (List.cons.inj hrest).2
    · obtain ⟨failure, hfailure, hfails⟩ := positioned_fails (α := Syntax) (step_le hcurrent) "Bad Unicode escape in JSON"
      rw [if_neg hhex, hfailure]
      refine ⟨hfails, ?_⟩
      intro w r hlength hw hrest
      obtain ⟨e, w, rfl⟩ := exists_cons_of_length_eq_add_one hlength
      apply hhex
      rw [(current_of_rest hrest).1]
      exact hw e mem_cons_self

theorem body_slash {t r : Utf16} : Body (92 :: t) r ↔ (∃ e u, t = e :: u ∧ JsonGrammar.isEscape e ∧ Body u r) ∨
    ∃ w u, t = 117 :: (w ++ u) ∧ w.length = 4 ∧ (∀ d ∈ w, JsonGrammar.isHex d) ∧ Body u r := by
  constructor
  · intro h
    cases h with
    | unit _ hslash _ _ => exact absurd rfl hslash
    | escape he h => exact .inl ⟨_, _, rfl, he, h⟩
    | unicode ha hb hc hd h =>
      refine .inr ⟨[_, _, _, _], _, rfl, rfl, ?_, h⟩
      simp only [forall_mem_cons]
      exact ⟨ha, hb, hc, hd, nofun⟩
  · rintro (⟨e, u, rfl, he, h⟩ | ⟨w, u, rfl, hlength, hw, h⟩)
    · exact .escape he h
    · match w, hlength with
      | [a, b, c, d], _ =>
        simp only [forall_mem_cons] at hw
        exact .unicode hw.1 hw.2.1 hw.2.2.1 hw.2.2.2.1 h

theorem escape_scans {e : UInt16} (hcurrent : s.current = some e)
    (ih : ∀ u : Syntax, u.source = s.source → s.at_ < u.at_ → u.at_ ≤ u.source.length →
      Scans u Body (fun _ => True) u.stringBody) :
    Scans s (fun t r => Body (92 :: t) r) (fun _ => True) (if 256 ≤ e then s.unexpected
        else if isEscape e then s.step.stringBody
        else if e = 117 then
          match hexes 4 s with
          | .error failure => .error failure
          | .ok u => u.step.stringBody
        else s.positioned "Bad escaped character in JSON") := by
  have hrest := rest_of_some hcurrent
  have hbound : s.at_ ≤ s.source.length := (at_lt_of_current hcurrent).le
  have hnone (hescape : ¬ JsonGrammar.isEscape e = true) (hunicode : e ≠ 117) (r : Utf16) : ¬ Body (92 :: s.rest) r := by
    rw [hrest, body_slash]
    rintro (⟨e', u, heq, he, -⟩ | ⟨w, u, heq, -⟩)
    · rw [(List.cons.inj heq).1] at hescape
      exact hescape he
    · exact hunicode (List.cons.inj heq).1
  split
  · rename_i hwide
    apply Scans.unexpected hbound
    intro r hr
    refine absurd hr (hnone ?_ ?_ r)
    · intro hescape
      simp only [JsonGrammar.isEscape, or_eq_true, decide_eq_true_eq] at hescape
      obtain (((((((rfl | rfl) | rfl) | rfl) | rfl) | rfl) | rfl) | rfl) := hescape <;> exact absurd hwide (by decide)
    · rintro rfl
      exact absurd hwide (by decide)
  split
  · rename_i hescape
    refine (ih s.step rfl (Nat.lt_succ_self _) (step_le hcurrent)).of (s := s) rfl ?_ ?_
    · intro r hr
      rw [hrest]
      exact .escape hescape hr
    · intro r hr _
      rw [hrest, body_slash] at hr
      obtain ⟨e', u, heq, -, hr⟩ | ⟨w, u, heq, -⟩ := hr
      · rw [(List.cons.inj heq).2]
        exact ⟨hr, trivial⟩
      · rw [(List.cons.inj heq).1] at hescape
        exact absurd hescape (by decide)
  rename_i hescape
  split
  · rename_i hunicode
    subst hunicode
    have hhexes := hexes_scans 4 hcurrent
    cases hout : hexes 4 s with
    | error failure =>
      rw [hout] at hhexes
      refine ⟨hhexes.1, ?_⟩
      intro r hr _
      rw [hrest, body_slash] at hr
      obtain ⟨e', u, heq, he, -⟩ | ⟨w, u, heq, hlength, hw, -⟩ := hr
      · rw [(List.cons.inj heq).1] at hescape
        exact hescape he
      · exact hhexes.2 w u hlength hw (List.cons.inj heq).2
    | ok u =>
      rw [hout] at hhexes
      obtain ⟨hsource, ⟨d, hd⟩, w, hlength, hw, hdigits⟩ := hhexes
      have hat := hexes_at hout
      refine (ih u.step hsource ?_ (step_le hd)).of (s := s) hsource ?_ ?_
      · rw [hat]
        exact Nat.lt_succ_of_le (Nat.le_add_right _ _)
      · intro r hr
        rw [hrest, hdigits, body_slash]
        exact .inr ⟨w, _, rfl, hlength, hw, hr⟩
      · intro r hr _
        rw [hrest, hdigits, body_slash] at hr
        obtain ⟨e', u', heq, he, -⟩ | ⟨w', u', heq, hlength', -, hr⟩ := hr
        · rw [(List.cons.inj heq).1] at hescape
          exact absurd he hescape
        · rw [(append_inj (List.cons.inj heq).2 (hlength.trans hlength'.symm)).2]
          exact ⟨hr, trivial⟩
  · rename_i hunicode
    apply Scans.positioned hbound
    intro r hr
    exact absurd hr (hnone hescape hunicode r)

theorem stringBody_scans (h : s.at_ ≤ s.source.length) : Scans s Body (fun _ => True) s.stringBody := by
  induction hn : s.source.length - s.at_ using Nat.strong_induction_on generalizing s with
  | _ n ih =>
    have hagain (u : Syntax) (hsource : u.source = s.source) (hat : s.at_ < u.at_) (hbound : u.at_ ≤ u.source.length) :
        Scans u Body (fun _ => True) u.stringBody := ih _ (by rw [hsource] at hbound ⊢ ; omega) hbound rfl
    rw [stringBody]
    split
    · rename_i hcurrent
      apply Scans.positioned h
      intro r hr
      rw [rest_of_none hcurrent] at hr
      cases hr
    rename_i c hcurrent
    have hrest := rest_of_some hcurrent
    have hstep := step_le hcurrent
    split
    · rename_i hquote
      subst hquote
      refine ⟨rfl, hstep, ?_, ?_⟩
      · rw [hrest]
        exact .quote
      · intro r hr _
        rw [hrest] at hr
        cases hr with
        | quote => rfl
        | unit hne _ _ _ => exact absurd rfl hne
    rename_i hquote
    split
    · rename_i hcontrol
      apply Scans.positioned h
      intro r hr
      rw [hrest] at hr
      generalize s.step.rest = t at hr
      cases hr with
      | quote => exact absurd rfl hquote
      | unit _ _ hle _ => exact absurd (UInt16.le_trans hle hcontrol) (by decide)
      | escape _ _ => exact absurd hcontrol (by decide)
      | unicode _ _ _ _ _ => exact absurd hcontrol (by decide)
    rename_i hcontrol
    split
    · rename_i hslash
      subst hslash
      have hslashed {out : Outcome Syntax} (hout : Scans s.step (fun t r => Body (92 :: t) r) (fun _ => True) out) :
          Scans s Body (fun _ => True) out := by
        refine hout.of rfl (fun r hr => ?_) fun r hr _ => ?_
        · rw [hrest]
          exact hr
        · rw [hrest] at hr
          exact ⟨hr, trivial⟩
      cases he : s.step.current with
      | none =>
        apply hslashed
        apply Scans.unexpected hstep
        intro r hr
        rw [rest_of_none he, body_slash] at hr
        obtain ⟨e, u, heq, -⟩ | ⟨w, u, heq, -⟩ := hr <;> cases heq
      | some e =>
        have hescape := hslashed (escape_scans he fun u hsource hat hbound => hagain u hsource (Nat.lt_of_succ_lt hat) hbound)
        -- the recursion of the definition carries the equation of its match, which the branch does not depend on
        refine Eq.mp ?_ hescape
        congr 1
        cases hexes 4 s.step <;> rfl
    · rename_i hslash
      have hunit : 32 ≤ c := by
        have hlt := UInt16.not_le.mp hcontrol
        exact UInt16.le_iff_toNat_le.mpr (UInt16.lt_iff_toNat_lt.mp hlt)
      refine (hagain s.step rfl (Nat.lt_succ_self _) hstep).of (s := s) rfl ?_ ?_
      · intro r hr
        rw [hrest]
        exact .unit hquote hslash hunit hr
      · intro r hr _
        rw [hrest] at hr
        generalize s.step.rest = t at hr ⊢
        cases hr with
        | quote => exact absurd rfl hquote
        | unit _ _ _ hr => exact ⟨hr, trivial⟩
        | escape _ _ => exact absurd rfl hslash
        | unicode _ _ _ _ _ => exact absurd rfl hslash

theorem string_scans (hcurrent : s.current = some 34) :
    Scans s (fun t r => ∃ u, t = 34 :: u ∧ Body u r) (fun _ => True) s.string := by
  apply (stringBody_scans (step_le hcurrent)).of (s := s) rfl
  · intro r hr
    exact ⟨_, rest_of_some hcurrent, hr⟩
  · rintro r ⟨u, hu, hr⟩ -
    rw [rest_of_some hcurrent] at hu
    rw [(List.cons.inj hu).2]
    exact ⟨hr, trivial⟩

end Strings

end Syntax

end Cantrip.Wire
