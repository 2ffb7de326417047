import Cantrip.NativeHistory.Native

/-!
# Bodies of one native item

A candidate that is the native item at some cursor, merged into an item that is the native item at some cursor, gives
the native item at the later one of the two (`holds_revise`). An update that follows the cursor of the item takes it
to the next (`holds_update`); any other is covered or missing.
-/


namespace Cantrip.NativeHistory

open Lib Option List Function

variable {N : Type}

/-! ## Reading the streams -/

variable {a b : Fields N} {field : String}

theorem textField_congr (h : a.get field = b.get field) : textField a field = textField b field := by
  unfold textField
  rw [h]

theorem summaryParts_congr (hparts : a.get "summaryParts" = b.get "summaryParts")
    (hsummary : a.get "summary" = b.get "summary") : summaryParts a = summaryParts b := by
  unfold summaryParts
  rw [hparts, hsummary]

theorem streams_congr [JsNumber N] (h : ∀ key, a.get key = b.get key) : streams a = streams b := by
  unfold streams
  rw [textField_congr (h "text"), textField_congr (h "aggregatedOutput"), summaryParts_congr (h "summaryParts") (h "summary")]

theorem textField_put (body : Fields N) (field : String) (text : String) :
    textField (body.put field (.string text)) field = text := by
  unfold textField
  rw [Fields.get_put_self]
  rfl

theorem textField_put_ne (body : Fields N) {other : String} (value : Json N) (h : other ≠ field) :
    textField (body.put other value) field = textField body field :=
  textField_congr (Fields.get_put_ne body value h)

theorem summaryParts_put (body parts : Fields N) : summaryParts (body.put "summaryParts" (.object parts)) = parts := by
  unfold summaryParts
  rw [Fields.get_put_self]
  rfl

theorem summaryParts_put_ne (body : Fields N) (value : Json N) (hparts : field ≠ "summaryParts")
    (hsummary : field ≠ "summary") : summaryParts (body.put field value) = summaryParts body :=
  summaryParts_congr (Fields.get_put_ne body value hparts) (Fields.get_put_ne body value hsummary)

theorem part_put_self (parts : Fields N) (index text : String) : part (parts.put index (.string text)) index = some (.string text) := by
  unfold part
  rw [Fields.get_put_self]
  rfl

theorem part_put_ne (parts : Fields N) {index other : String} (value : Json N) (h : other ≠ index) :
    part (parts.put other value) index = part parts index := by
  unfold part
  rw [Fields.get_put_ne parts value h]

section

variable [JsNumber N]

theorem parts_put (parts : Fields N) (index : Nat) (text : String) :
    (fun i : Nat => (part (parts.put (toString index) (.string text)) (toString i)).map Json.toText) =
      update (fun i : Nat => (part parts (toString i)).map Json.toText) index (some text) := by
  funext i
  by_cases hi : i = index
  · subst hi
    rw [update_self, part_put_self]
    rfl
  · have hne : toString index ≠ toString i := by
      intro h
      have hdigits := congrArg (fun t => Nat.ofDigitChars 10 t.toList 0) (show Nat.repr i = Nat.repr index from h.symm)
      simp only [Nat.toList_repr, Nat.ofDigitChars_ten_toDigits] at hdigits
      exact hi hdigits
    rw [update_of_ne hi, part_put_ne parts _ hne]

theorem part_text (parts : Fields N) (index : String) : (part parts index).elim "" Json.toText = ((part parts index).map Json.toText).getD "" := by
  cases part parts index <;> rfl

theorem parts_added (parts : Fields N) (index : Nat) :
    (fun i : Nat => (part (if (part parts (toString index)).isNone then parts.put (toString index) (.string "") else parts)
        (toString i)).map Json.toText) =
      update (fun i : Nat => (part parts (toString i)).map Json.toText) index
        (some (((part parts (toString index)).map Json.toText).getD "")) := by
  obtain hnone | ⟨v, hv⟩ := eq_none_or_eq_some (part parts (toString index))
  · rw [if_pos (by rw [hnone]; rfl), parts_put, hnone]
    rfl
  · rw [if_neg (by rw [hv]; exact Bool.false_ne_true)]
    funext i
    by_cases hi : i = index
    · subst hi
      rw [update_self, hv]
      rfl
    · rw [update_of_ne hi]

theorem streams_streamed {change : Change} {method kind : String} {params body body' : Fields N} (hkind : deltaKind method = some kind)
    (hwritten : change.Written method params) (h : streamed method kind params body = some body') :
    streams body' = change.apply (streams body) := by
  cases change with
  | text delta =>
    obtain ⟨rfl, hdelta⟩ := hwritten
    obtain rfl : kind = "agentMessage" := by simpa [deltaKind] using hkind.symm
    have hbody : body' = body.put "text" (.string (textField body "text" ++ delta)) := by
      simpa [streamed, hdelta, Json.asString] using h.symm
    subst hbody
    unfold streams
    rw [textField_put, textField_put_ne body _ (by decide), summaryParts_put_ne body _ (by decide) (by decide)]
    rfl
  | output delta =>
    obtain ⟨rfl, hdelta⟩ := hwritten
    obtain rfl : kind = "commandExecution" := by simpa [deltaKind] using hkind.symm
    have hbody : body' = body.put "aggregatedOutput" (.string (textField body "aggregatedOutput" ++ delta)) := by
      simpa [streamed, hdelta, Json.asString] using h.symm
    subst hbody
    unfold streams
    rw [textField_put, textField_put_ne body _ (by decide), summaryParts_put_ne body _ (by decide) (by decide)]
    rfl
  | summaryText index delta =>
    obtain ⟨rfl, hindex, hdelta⟩ := hwritten
    obtain rfl : kind = "reasoning" := by simpa [deltaKind] using hkind.symm
    have hbody : body' = body.put "summaryParts" (.object ((summaryParts body).put (toString index)
        (.string ((part (summaryParts body) (toString index)).elim "" Json.toText ++ delta)))) := by
      simpa [streamed, hindex, hdelta, Json.asString] using h.symm
    subst hbody
    unfold streams
    rw [textField_put_ne body _ (by decide), textField_put_ne body _ (by decide), summaryParts_put, parts_put, part_text]
    rfl
  | summaryPart index =>
    obtain ⟨rfl, hindex⟩ := hwritten
    obtain rfl : kind = "reasoning" := by simpa [deltaKind] using hkind.symm
    have hbody : body' = body.put "summaryParts" (.object (if (part (summaryParts body) (toString index)).isNone then
        (summaryParts body).put (toString index) (.string "") else summaryParts body)) := by
      simpa [streamed, hindex] using h.symm
    subst hbody
    unfold streams
    rw [textField_put_ne body _ (by decide), textField_put_ne body _ (by decide), summaryParts_put]
    rw [parts_added]
    rfl
  | other =>
    obtain ⟨hmethod, -⟩ := hwritten
    simp only [textMethods, mem_cons, not_mem_nil, or_false, not_or] at hmethod
    obtain ⟨hmessage, hcommand, htext, hpart⟩ := hmethod
    unfold streamed at h
    by_cases hpatch : method = "item/fileChange/patchUpdated"
    · rw [if_pos hpatch] at h
      obtain ⟨changes, -, rfl⟩ := map_eq_some_iff.mp h
      unfold streams
      rw [textField_put_ne body _ (by decide), textField_put_ne body _ (by decide),
        summaryParts_put_ne body _ (by decide) (by decide)]
      rfl
    · unfold deltaKind at hkind
      rw [if_neg hmessage, if_neg hcommand, if_neg hpatch] at hkind
      obtain rfl : kind = "reasoning" := by
        split at hkind
        · exact (some.inj hkind).symm
        · cases hkind
      rw [if_neg hpatch, if_pos rfl] at h
      obtain ⟨i, -, h⟩ := bind_eq_some_iff.mp h
      simp only [if_neg htext, if_neg hpart] at h
      cases h

/-! ## Cursors -/

end

namespace NativeItem

variable {n : NativeItem N}

variable {next : Candidate N} {previous : Item N} {c d : Nat}

theorem HasCursor.start_le (h : n.HasCursor c) : n.startSequence ≤ c := by
  obtain rfl | ⟨link, hlink, rfl⟩ | ⟨e, he, rfl⟩ := h
  · exact Nat.le_refl _
  · have hbounds := n.linked.bounds hlink
    omega
  · exact Nat.le_of_lt (n.completesLast e he).1

theorem lifecycleAt_eq_completed : n.lifecycleAt c = .completed ↔ ∃ e ∈ n.completion, e.1 ≤ c := by
  unfold lifecycleAt
  obtain hnone | ⟨e, he⟩ := eq_none_or_eq_some n.completion
  · simp [hnone]
  · by_cases hle : e.1 ≤ c <;> simp [he, hle]

theorem lifecycleAt_ne_unknown (c : Nat) : n.lifecycleAt c ≠ .unknown := by
  unfold lifecycleAt
  split <;> exact Lifecycle.noConfusion

theorem lifecycleAt_mono (h : n.lifecycleAt c = .completed) (hle : c ≤ d) : n.lifecycleAt d = .completed := by
  obtain ⟨e, he, hec⟩ := lifecycleAt_eq_completed.mp h
  exact lifecycleAt_eq_completed.mpr ⟨e, he, Nat.le_trans hec hle⟩

theorem lifecycleAt_of_le {link : Link Change} (hlink : link ∈ n.updates) (hc : c ≤ link.sequence) :
    n.lifecycleAt c = .started := by
  have hnot : n.lifecycleAt c ≠ .completed := by
    intro hcompleted
    obtain ⟨e, he, hle⟩ := lifecycleAt_eq_completed.mp hcompleted
    have hlast := (n.completesLast e he).2 link hlink
    omega
  unfold lifecycleAt at hnot ⊢
  split
  · rename_i hany
    exact absurd (if_pos hany) hnot
  · rfl

variable [JsNumber N]

theorem textAt_link {link : Link Change} (hlink : link ∈ n.updates) :
    n.textAt link.sequence = link.update.apply (n.textAt link.previous) := by
  have hfold : ∀ c ≤ link.sequence, n.textAt c = valueAt Change.apply (streams n.startBody) n.updates c := by
    intro c hc
    unfold textAt
    obtain hnone | ⟨e, he⟩ := eq_none_or_eq_some n.completion
    · rw [hnone]
      rfl
    · have hlast := (n.completesLast e he).2 link hlink
      have hlt : ¬ e.1 ≤ c := by omega
      simp [he, Option.filter, hlt]
  have hbounds := n.linked.bounds hlink
  rw [hfold _ (Nat.le_refl _), hfold _ (by omega), valueAt_link Change.apply _ n.linked hlink]

theorem textAt_start : n.textAt n.startSequence = streams n.startBody := by
  unfold textAt
  obtain hnone | ⟨e, he⟩ := eq_none_or_eq_some n.completion
  · rw [hnone]
    exact valueAt_first n.linked (Nat.le_refl _)
  · have hlast := (n.completesLast e he).1
    have hlt : ¬ e.1 ≤ n.startSequence := by omega
    rw [he]
    simp only [Option.filter, hlt, decide_false, Bool.false_eq_true, if_false, elim_none]
    exact valueAt_first n.linked (Nat.le_refl _)

theorem textAt_completion {e : Nat × Fields N} (he : e ∈ n.completion) : n.textAt e.1 = streams e.2 := by
  have he' : n.completion = some e := he
  unfold textAt
  simp [he', Option.filter]

/-! ## Merging -/

theorem Holds.congr {a b : Candidate N} (h : n.Holds a c) (hbody : b.body = a.body) (hlifecycle : b.lifecycle = a.lifecycle)
    (hcomplete : b.completeBody = a.completeBody) (horigin : b.origin = a.origin) : n.Holds b c where
  origin := by rw [horigin]; exact h.origin
  known := h.known
  text := by rw [hbody]; exact h.text
  start := by rw [hbody]; exact h.start
  lifecycle := hlifecycle.trans h.lifecycle
  complete := hcomplete.trans h.complete

theorem Holds.order {a b : Candidate N} (ha : n.Holds a c) (hb : n.Holds b d) :
    nativeOrder a.origin b.origin = some (compare d c) := by
  obtain ⟨p, hp⟩ := ha.origin
  obtain ⟨q, hq⟩ := hb.origin
  unfold nativeOrder
  rw [hp, hq]
  exact if_pos rfl

theorem Holds.downgrade (hprevious : n.Holds previous.toCandidate c)
    (hnext : n.Holds next d) (hle : c ≤ d) : downgrade previous next = false := by
  unfold NativeHistory.downgrade
  rw [hnext.complete, hprevious.lifecycle, hnext.lifecycle, Bool.not_true, Bool.and_false, Bool.or_false, decide_eq_false_iff_not]
  rintro ⟨hcompleted, hnot⟩
  exact hnot (lifecycleAt_mono hcompleted hle)

theorem Holds.enriched (hnext : n.Holds next d) : enriched previous next = next := by
  obtain ⟨p, hp⟩ := hnext.origin
  unfold NativeHistory.enriched
  rw [if_neg]
  rintro ⟨-, hnone, -⟩
  rw [hp] at hnone
  cases hnone

theorem Holds.begun [DecidableEq N] {initial : Bool} (hprevious : n.Holds previous.toCandidate c)
    (hnext : n.Holds next d) (hle : c ≤ d) (hinitial : initial = true → d = n.startSequence) :
    n.Holds (begun previous next initial) d := by
  unfold NativeHistory.begun
  split
  · rename_i hbegun
    obtain rfl := hinitial hbegun.1
    obtain rfl : c = n.startSequence := Nat.le_antisymm hle hprevious.known.start_le
    have hbody : ∀ key, (next.body.spread previous.body).get key = n.startBody.get key := by
      intro key
      rw [Fields.get_spread, hprevious.start rfl, hnext.start rfl, Option.or_self]
    refine ⟨?_, hnext.known, ?_, fun _ => hbody, hnext.lifecycle, hnext.complete⟩
    · dsimp only
      split
      · exact hprevious.origin
      · exact hnext.origin
    · rw [textAt_start]
      exact streams_congr hbody
  · exact hnext

theorem Holds.replaced (previous : Item N) (hnext : n.Holds next d) : n.Holds (previous.replaced next).toCandidate d := by
  refine hnext.congr rfl ?_ rfl rfl
  show (if next.lifecycle = .unknown then previous.lifecycle else next.lifecycle) = next.lifecycle
  rw [if_neg]
  rw [hnext.lifecycle]
  exact lifecycleAt_ne_unknown d

theorem verdict_gt [DecidableEq N] (previous : Item N) (next : Candidate N) : verdict (some .gt) previous next = .replace := by
  unfold verdict
  split <;> rfl

theorem Holds.settle [DecidableEq N] (hprevious : n.Holds previous.toCandidate c)
    (hnext : n.Holds next d) (hle : c ≤ d) : n.Holds (settle (some (compare d c)) previous next).toCandidate d := by
  by_cases hlt : c < d
  · rw [Nat.compare_eq_gt.mpr hlt]
    unfold NativeHistory.settle
    rw [verdict_gt]
    exact hnext.replaced previous
  · obtain rfl : c = d := by omega
    unfold NativeHistory.settle
    split
    · exact hnext.replaced previous
    · exact hprevious
    · split
      · exact hprevious
      · exact hprevious.congr rfl rfl rfl rfl

theorem Holds.timed {item : Item N} (next : Candidate N) (h : n.Holds item.toCandidate c) :
    n.Holds (item.timed next).toCandidate c := by
  unfold Item.timed
  dsimp only
  split <;> exact h.congr rfl rfl rfl rfl

theorem Holds.revised [DecidableEq N] {item : Item N} (previous : Item N) (h : n.Holds item.toCandidate c) :
    n.Holds (previous.revised item).toCandidate c := by
  unfold Item.revised
  split
  · exact h
  · exact h.congr rfl rfl rfl rfl

theorem Holds.revise [DecidableEq N] {initial : Bool} (hprevious : n.Holds previous.toCandidate c)
    (hnext : n.Holds next d) (hinitial : initial = true → d = n.startSequence) :
    n.Holds (previous.revise next initial).toCandidate (max c d) := by
  unfold Item.revise
  dsimp only
  refine Holds.revised previous (Holds.timed _ ?_)
  rw [hprevious.order hnext, hnext.enriched]
  have hstale : stale previous.origin next.origin = decide (d < c) := by
    unfold stale
    rw [hprevious.order hnext]
    simp [Nat.compare_eq_lt]
  by_cases hlt : d < c
  · rw [if_neg (by simp [hstale, hlt]), Nat.max_eq_left (Nat.le_of_lt hlt)]
    exact hprevious
  · have hle : c ≤ d := by omega
    rw [if_pos (by simp [hstale, hlt, hprevious.downgrade hnext hle]), Nat.max_eq_right hle]
    exact hprevious.settle (hprevious.begun hnext hle hinitial) hle

end NativeItem

end Cantrip.NativeHistory
