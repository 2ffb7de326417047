import Cantrip.Wire.RoundTrip

/-!
# The texts are canonical

The keys of a written object are in ECMAScript order: array indices ascending, then the others as they were
inserted. A value is read back from either of its texts with its keys in that order, and is then written as the
same text.
-/

namespace Cantrip.Wire

open Lib List Option

/-! ## ECMAScript order -/

section

variable {α : Type}

def EcmaOrder (entries sorted : List (JsString × α)) : Prop :=
  ∃ indices : List (JsString × α), sorted = indices ++ entries.filter (fun e => arrayIndex e.1 = none) ∧
    indices.Perm (entries.filter fun e => arrayIndex e.1 ≠ none) ∧
    indices.Pairwise fun a b => ∃ m n, arrayIndex a.1 = some m ∧ arrayIndex b.1 = some n ∧ m < n

variable {k : JsString} {n : Nat}

theorem arrayIndex_decimal (h : arrayIndex k = some n) : decimal n = k := by
  unfold arrayIndex at h
  split at h
  · rw [filter_eq_some_iff] at h
    simpa using (of_decide_eq_true h.2).2
  · cases h

theorem rank_some (h : arrayIndex k = some n) : rank k = (0, n) := by
  unfold rank
  rw [h]

theorem rank_none (h : arrayIndex k = none) : rank k = (1, 0) := by
  unfold rank
  rw [h]

theorem orderedInsert_other {e : JsString × α} (he : arrayIndex e.1 = none) (indices others : List (JsString × α))
    (hindices : ∀ a ∈ indices, arrayIndex a.1 ≠ none) (hothers : ∀ a ∈ others, arrayIndex a.1 = none) :
    orderedInsert (fun a b => rankLe a.1 b.1) e (indices ++ others) = indices ++ e :: others := by
  induction indices with
  | nil =>
    match others with
    | [] => rfl
    | o :: os =>
      have hle : rankLe e.1 o.1 := by
        unfold rankLe
        rw [rank_none he, rank_none (hothers o mem_cons_self)]
        omega
      rw [nil_append, orderedInsert, if_pos hle, nil_append]
  | cons i is ih =>
    obtain ⟨n, hn⟩ := ne_none_iff_exists'.mp (hindices i mem_cons_self)
    have hlt : ¬rankLe e.1 i.1 := by
      unfold rankLe
      rw [rank_none he, rank_some hn]
      omega
    rw [cons_append, orderedInsert, if_neg hlt, ih fun a ha => hindices a (mem_cons_of_mem _ ha), cons_append]

theorem orderedInsert_index {e : JsString × α} (he : arrayIndex e.1 = some n) (indices others : List (JsString × α))
    (hothers : ∀ a ∈ others, arrayIndex a.1 = none) :
    orderedInsert (fun a b => rankLe a.1 b.1) e (indices ++ others) =
      orderedInsert (fun a b => rankLe a.1 b.1) e indices ++ others := by
  induction indices with
  | nil =>
    match others with
    | [] => rfl
    | o :: os =>
      have hle : rankLe e.1 o.1 := by
        unfold rankLe
        rw [rank_some he, rank_none (hothers o mem_cons_self)]
        omega
      exact if_pos hle
  | cons i is ih =>
    by_cases hle : rankLe e.1 i.1
    · rw [cons_append, orderedInsert, if_pos hle, orderedInsert, if_pos hle]
      rfl
    · rw [cons_append, orderedInsert, if_neg hle, orderedInsert, if_neg hle, ih, cons_append]

theorem sortEntries_append (entries : List (JsString × α)) : ∃ indices : List (JsString × α),
    sortEntries entries = indices ++ entries.filter (fun e => arrayIndex e.1 = none) ∧
      indices.Perm (entries.filter fun e => arrayIndex e.1 ≠ none) := by
  induction entries with
  | nil => exact ⟨[], rfl, List.Perm.refl _⟩
  | cons e es ih =>
    obtain ⟨indices, hsorted, hperm⟩ := ih
    have hindices : ∀ a ∈ indices, arrayIndex a.1 ≠ none := by
      intro a ha
      simpa using (mem_filter.mp (hperm.mem_iff.mp ha)).2
    have hothers : ∀ a ∈ es.filter (fun e => arrayIndex e.1 = none), arrayIndex a.1 = none := by
      intro a ha
      simpa using (mem_filter.mp ha).2
    have hstep : sortEntries (e :: es) = orderedInsert (fun a b => rankLe a.1 b.1) e (sortEntries es) := rfl
    rw [hstep, hsorted]
    match hindex : arrayIndex e.1 with
    | none =>
      refine ⟨indices, ?_, ?_⟩
      · rw [orderedInsert_other hindex indices _ hindices hothers, filter_cons_of_pos (by simpa using hindex)]
      · rw [filter_cons_of_neg (by simpa using hindex)]
        exact hperm
    | some n =>
      refine ⟨orderedInsert (fun a b => rankLe a.1 b.1) e indices, ?_, ?_⟩
      · rw [orderedInsert_index hindex indices _ hothers, filter_cons_of_neg (by simp [hindex])]
      · rw [filter_cons_of_pos (by simp [hindex])]
        exact (perm_orderedInsert _ e indices).trans (hperm.cons e)

theorem sortEntries_order {entries : List (JsString × α)} (hnodup : (entries.map Prod.fst).Nodup) :
    EcmaOrder entries (sortEntries entries) := by
  obtain ⟨indices, hsorted, hperm⟩ := sortEntries_append entries
  refine ⟨indices, hsorted, hperm, ?_⟩
  have hpairwise := sortEntries_sorted entries
  rw [hsorted, pairwise_append] at hpairwise
  have hkeys : (indices.map Prod.fst).Nodup :=
    (hperm.map Prod.fst).nodup_iff.mpr (hnodup.sublist (filter_sublist.map Prod.fst))
  have hdistinct : indices.Pairwise fun a b => a.1 ≠ b.1 := pairwise_map.mp hkeys
  refine (hpairwise.1.and hdistinct).imp_of_mem fun {a b} ha hb hab => ?_
  have hsome : ∀ e ∈ indices, ∃ n, arrayIndex e.1 = some n := by
    intro e he
    exact ne_none_iff_exists'.mp (by simpa using (mem_filter.mp (hperm.mem_iff.mp he)).2)
  obtain ⟨m, hm⟩ := hsome a ha
  obtain ⟨n, hn⟩ := hsome b hb
  refine ⟨m, n, hm, hn, ?_⟩
  obtain ⟨hle, hne⟩ := hab
  unfold rankLe at hle
  rw [rank_some hm, rank_some hn] at hle
  have hmn : m ≠ n := by
    rintro rfl
    exact hne ((arrayIndex_decimal hm).symm.trans (arrayIndex_decimal hn))
  simp only [Nat.lt_irrefl, false_or, true_and] at hle
  omega

end

variable {F : Numbers}

/-- JSON, as far as the numbers of `F` can be read. -/
def IsJson (F : Numbers) (t : List Char) : Prop := ∃ v : Value F, Denotes v t

/-- A value is read back from its compact and from its indented text, equal to the one written, with its keys in
order, and is written as the same text again. -/
theorem stringify_round_trip {S : Serde} {v : Value F} (hF : F.Inverse) (hS : S.Correct (IsJson F)) (hv : v.Sound) :
    parse S (stringify v) = some (.ok v.ordered) ∧
    equal [(v, v.ordered)] = true ∧
    (∀ entries : Object F, (entries.map Prod.fst).Nodup →
      (Value.object entries).ordered = .object (sortEntries (orderedEntries entries)) ∧
        EcmaOrder (orderedEntries entries) (sortEntries (orderedEntries entries))) ∧
    stringify v.ordered = stringify v ∧
    parse S (stringifyPretty v) = some (.ok v.ordered) := by
  have hcompact := render_denotes hF compact_blank v hv 0
  have hindented := render_denotes hF indented_blank v hv 0
  refine ⟨?_, ?_, ?_, ?_, ?_⟩
  · rw [stringify_eq]
    exact parse_denotes hS hcompact ⟨_, hcompact⟩
  · exact equal_ordered hF _ [v] (Nat.le_refl _) (by simpa using hv)
  · intro entries hnodup
    refine ⟨rfl, sortEntries_order ?_⟩
    rw [orderedEntries_eq, List.map_map]
    exact hnodup
  · rw [stringify_eq, stringify_eq]
    exact render_ordered compact v 0
  · rw [stringifyPretty_eq hF hv]
    exact parse_denotes hS hindented ⟨_, hindented⟩

/-! ## An instance -/

namespace Sample

def writeDigit (d : Fin 10) : List Char := [Char.ofNat (48 + d.val)]

def readDigit (t : List Char) : Option (Fin 10) := (List.finRange 10).find? fun d => writeDigit d = t

theorem readDigit_writeDigit : ∀ d, readDigit (writeDigit d) = some d := by decide

def digits : Numbers where
  Number := Option (Fin 10)
  isFinite := Option.isSome
  formatFinite n := writeDigit (n.getD 0)
  parse t := (readDigit t).map some
  eq a b := a.isSome && a = b

theorem digits_inverse : digits.Inverse := by
  have hshape : ∀ d : Fin 10, d ≠ 0 → isDigitChar (Char.ofNat (48 + d.val)) = true ∧ Char.ofNat (48 + d.val) ≠ '0' := by decide
  refine ⟨?_, ?_, ?_⟩
  · intro n hn
    match n with
    | some d =>
      by_cases hd : d = 0
      · rw [hd]
        exact JsonNumber.mk (.inl rfl) (.inl rfl) (.inl rfl) (.inl rfl)
      · obtain ⟨hdigit, hzero⟩ := hshape d hd
        refine @JsonNumber.mk [] (writeDigit d) [] [] (.inl rfl) (.inr ⟨⟨by simp [writeDigit], ?_⟩, ?_⟩) (.inl rfl) (.inl rfl)
        · intro c hc
          rw [mem_singleton.mp hc]
          exact hdigit
        · simpa [writeDigit] using hzero
    | none => cases hn
  · intro n hn
    match n with
    | some d =>
      have hread : (readDigit (writeDigit d)).map some = some (some d) := by rw [readDigit_writeDigit d, map_some]
      exact hread
    | none => cases hn
  · intro n hn
    match n with
    | some d =>
      have heq : ∀ d : Fin 10, ((some d).isSome && some d = some d) = true := by decide
      exact heq d
    | none => cases hn

def units : List Char → Option JsString
  | [] => some []
  | c :: rest =>
    if c = '\\' then
      match rest with
      | [] => none
      | e :: rest =>
        if e = 'u' then
          match rest with
          | a :: b :: c :: d :: rest => do
            let a ← hexValue a
            let b ← hexValue b
            let c ← hexValue c
            let d ← hexValue d
            (UInt16.ofNat (((a * 16 + b) * 16 + c) * 16 + d) :: ·) <$> units rest
          | _ => none
        else do
          let u ← escapeUnit e
          (u :: ·) <$> units rest
    else (utf16Units c.toNat ++ ·) <$> units rest

theorem units_body {s : JsString} {t : List Char} (h : StringBody s t) : units t = some s := by
  induction h with
  | nil => rfl
  | char c hquote hslash hcontrol h ih =>
    rw [units.eq_def]
    simp only [hslash, if_false, ih]
    rfl
  | escape c hunit h ih =>
    have hu : c ≠ 'u' := by
      rintro rfl
      cases hunit
    rw [units.eq_def]
    simp only [if_true, hu, if_false, hunit, ih]
    rfl
  | unicode c₁ c₂ c₃ c₄ h₁ h₂ h₃ h₄ h ih =>
    rw [units.eq_def]
    simp only [if_true, h₁, h₂, h₃, h₄, ih]
    rfl

/-- A library that takes every text to be valid. -/
def serde : Serde where
  rawValue := .ok
  stringBytes literal :=
    match units (literal.drop 1).dropLast with
    | some s => .ok (wtf8Encode s)
    | none => .error "invalid string"

theorem serde_correct : serde.Correct (IsJson digits) := by
  refine ⟨fun _ _ => rfl, ?_⟩
  intro s body h
  have hbody : (('"' :: (body ++ ['"'])).drop 1).dropLast = body := by simp
  unfold serde
  simp only [hbody, units_body h]

/-- An object with an index behind another key, a lone surrogate and a pair. -/
def value : Value digits :=
  .object [([98], .array [.number (some 7), .null]), ([55], .string [0xd83d, 0xde00, 0xd800]), ([92, 10], .object [])]

end Sample

theorem stringify_round_trip_sample : parse Sample.serde (stringify Sample.value) = some (.ok Sample.value.ordered) ∧
      parse Sample.serde (stringifyPretty Sample.value) = some (.ok Sample.value.ordered) ∧
      stringify Sample.value.ordered = stringify Sample.value :=
  have h := stringify_round_trip Sample.digits_inverse Sample.serde_correct
    (v := Sample.value) ⟨by decide, ⟨rfl, trivial, trivial⟩, trivial, ⟨nodup_nil, trivial⟩, trivial⟩
  ⟨h.1, h.2.2.2.2, h.2.2.2.1⟩

/-- Every text of a value, also with the white space around it that `RawValue` drops, is read as that value and comes
back as a text of the value with its keys in order; two values have one canonical text exactly when they differ in the
order of their keys only. -/
theorem texts_of_value {S : Serde} {v w : Value F} (hF : F.Inverse) (hS : S.Correct (IsJson F)) (hv : v.Sound) (hw : w.Sound) :
    (∀ t, Denotes v t → parse S t = some (.ok v) ∧ parse S (stringify v) = some (.ok v.ordered)) ∧
      (∀ t space space', Denotes v t → JsonSpace space → JsonSpace space' →
        S.rawValue (space ++ t ++ space') = S.rawValue t → parse S (space ++ t ++ space') = some (.ok v)) ∧
      (stringify v = stringify w ↔ v.ordered = w.ordered) := by
  have hback (u : Value F) (hu : u.Sound) : parse S (stringify u) = some (.ok u.ordered) := by
    have hcompact := render_denotes hF compact_blank u hu 0
    rw [stringify_eq]
    exact parse_denotes hS hcompact ⟨_, hcompact⟩
  refine ⟨fun t ht => ⟨parse_denotes hS ht ⟨v, ht⟩, hback v hv⟩, fun t space space' ht _ _ hraw => ?_, fun h => ?_, fun h => ?_⟩
  · have hparse := parse_denotes hS ht ⟨v, ht⟩
    rwa [parse, ← hraw] at hparse
  · have hboth := hback v hv
    rw [h, hback w hw] at hboth
    simpa using hboth.symm
  · rw [stringify_eq, stringify_eq]
    exact (render_ordered compact v 0).symm.trans (h ▸ render_ordered compact w 0)

theorem texts_of_value_sample : (∀ t, Denotes Sample.value t → parse Sample.serde t = some (.ok Sample.value)) ∧
    stringify Sample.value ≠ stringify (.null : Value Sample.digits) :=
  have h := texts_of_value (w := .null) Sample.digits_inverse Sample.serde_correct
    (v := Sample.value) ⟨by decide, ⟨rfl, trivial, trivial⟩, trivial, ⟨nodup_nil, trivial⟩, trivial⟩ trivial
  ⟨fun t ht => (h.1 t ht).1, fun he => nomatch h.2.2.mp he⟩

end Cantrip.Wire
