import Cantrip.Nbt.Values

/-!
# Strings page by page (`readNbtText` of `packages/nbt/src/values.ts`)

A page may end anywhere in the bytes of a string; `readNbtText` moves its end back to a complete character
and asks again for four bytes when nothing is left. A string that decodes as a whole is a list of characters
(`decode_characters`), each a lead byte that announces its width and continuation bytes, so the end of a page
always falls between two of them (`completeLength_cut`) and the pages put together are the string
(`textPages_whole`).
-/

namespace Cantrip.Nbt

open Lib List Bool

/-! ## Characters -/

structure Character (strings : NbtStrings) (c : Bytes × Utf16) : Prop where
  shape : ∃ lead tail, c.1 = lead :: tail ∧ lead.toNat &&& 0xc0 ≠ 0x80 ∧
    characterWidth strings lead.toNat = c.1.length ∧ ∀ b ∈ tail, b.toNat &&& 0xc0 = 0x80
  width : c.1.length ≤ 4
  decodes : ∀ rest more offset offset', decodeNbtString rest strings offset = .ok more →
    decodeNbtString (c.1 ++ rest) strings offset' = .ok (c.2 ++ more)

variable {cs : List (Bytes × Utf16)} {n : Nat} {strings : NbtStrings}

theorem Character.length_pos {c : Bytes × Utf16} (h : Character strings c) : 0 < c.1.length := by
  obtain ⟨lead, tail, hc, -, -⟩ := h.shape
  rw [hc]
  exact Nat.succ_pos _

/-- The bytes of a run of characters. -/
def bytesOf (cs : List (Bytes × Utf16)) : Bytes := cs.flatMap Prod.fst

/-- The text of a run of characters. -/
def textOf (cs : List (Bytes × Utf16)) : Utf16 := cs.flatMap Prod.snd

@[simp] theorem bytesOf_nil : bytesOf [] = [] := rfl

@[simp] theorem bytesOf_cons (c : Bytes × Utf16) (cs : List (Bytes × Utf16)) : bytesOf (c :: cs) = c.1 ++ bytesOf cs := rfl

@[simp] theorem bytesOf_append (cs ds : List (Bytes × Utf16)) : bytesOf (cs ++ ds) = bytesOf cs ++ bytesOf ds :=
  flatMap_append

@[simp] theorem textOf_nil : textOf [] = [] := rfl

@[simp] theorem textOf_cons (c : Bytes × Utf16) (cs : List (Bytes × Utf16)) : textOf (c :: cs) = c.2 ++ textOf cs := rfl

@[simp] theorem textOf_append (cs ds : List (Bytes × Utf16)) : textOf (cs ++ ds) = textOf cs ++ textOf ds :=
  flatMap_append

theorem map_cons_ok {x : Except NbtError Utf16} {c : UInt16} {text : Utf16} (h : (c :: ·) <$> x = .ok text) :
    ∃ rest, x = .ok rest ∧ text = c :: rest := by
  match x with
  | .ok rest =>
    cases h
    exact ⟨rest, rfl, rfl⟩
  | .error e => cases h

theorem decodeMutf8_place {offset i : Nat} {bytes : Bytes} {text : Utf16} (offset' i' : Nat)
    (h : decodeMutf8 offset i bytes = .ok text) : decodeMutf8 offset' i' bytes = .ok text := by
  induction i, bytes using decodeMutf8.induct generalizing text i' with
  | case1 i => exact h
  | case2 i first rest h1 ih =>
    rw [decodeMutf8.eq_def] at h ⊢
    simp only [if_pos h1] at h ⊢
    obtain ⟨more, hmore, rfl⟩ := map_cons_ok h
    rw [ih (i' + 1) hmore]
    rfl
  | case3 i first h1 h2 b rest h3 =>
    rw [decodeMutf8, if_neg h1, if_pos h2, if_pos h3] at h
    cases h
  | case4 i first h1 h2 b rest h3 ih =>
    rw [decodeMutf8, if_neg h1, if_pos h2, if_neg h3] at h ⊢
    obtain ⟨more, hmore, rfl⟩ := map_cons_ok h
    rw [ih (i' + 2) hmore]
    rfl
  | case5 i first h1 h2 =>
    rw [decodeMutf8, if_neg h1, if_pos h2] at h
    cases h
  | case6 i first h1 h2 h3 b c rest h4 =>
    rw [decodeMutf8, if_neg h1, if_neg h2, if_pos h3] at h
    simp only [if_pos h4] at h
    cases h
  | case7 i first h1 h2 h3 b c rest h4 h5 =>
    rw [decodeMutf8, if_neg h1, if_neg h2, if_pos h3] at h
    simp only [if_neg h4, if_pos h5] at h
    cases h
  | case8 i first h1 h2 h3 b c rest h4 h5 ih =>
    rw [decodeMutf8, if_neg h1, if_neg h2, if_pos h3] at h ⊢
    simp only [if_neg h4, if_neg h5] at h ⊢
    obtain ⟨more, hmore, rfl⟩ := map_cons_ok h
    rw [ih (i' + 3) hmore]
    rfl
  | case9 i first rest h1 h2 h3 hshort =>
    rw [decodeMutf8.eq_def] at h
    simp only [if_neg h1, if_neg h2, if_pos h3] at h
    cases h
  | case10 i first rest h1 h2 h3 =>
    rw [decodeMutf8.eq_def] at h
    simp only [if_neg h1, if_neg h2, if_neg h3] at h
    cases h

set_option maxRecDepth 4096 in
theorem lead_of_masks : ∀ n < 256, n < 0x80 ∨ n &&& 0xe0 = 0xc0 ∨ n &&& 0xf0 = 0xe0 ∨ 0xc0 ≤ n → n &&& 0xc0 ≠ 0x80 := by
  decide

theorem characterWidth_one (h : n < 0x80) : characterWidth strings n = 1 := if_pos h

theorem characterWidth_two (h : n &&& 0xe0 = 0xc0) (h1 : ¬n < 0x80) : characterWidth strings n = 2 := by
  rw [characterWidth, if_neg h1, if_pos h]

theorem characterWidth_three (h : n &&& 0xf0 = 0xe0) (h1 : ¬n < 0x80)
    (h2 : ¬n &&& 0xe0 = 0xc0) : characterWidth strings n = 3 := by
  rw [characterWidth, if_neg h1, if_neg h2, if_pos h]

theorem decodeMutf8_characters {offset i : Nat} {bytes : Bytes} {text : Utf16} (h : decodeMutf8 offset i bytes = .ok text) :
    ∃ cs, (∀ c ∈ cs, Character .mutf8 c) ∧ bytes = bytesOf cs ∧ text = textOf cs := by
  induction i, bytes using decodeMutf8.induct generalizing text with
  | case1 i =>
    cases h
    exact ⟨[], by simp, rfl, rfl⟩
  | case2 i first rest h1 ih =>
    rw [decodeMutf8.eq_def] at h
    simp only [if_pos h1] at h
    obtain ⟨more, hmore, rfl⟩ := map_cons_ok h
    obtain ⟨cs, hcs, rfl, rfl⟩ := ih hmore
    refine ⟨([first], [first.toUInt16]) :: cs, ?_, rfl, rfl⟩
    refine forall_mem_cons.mpr ⟨⟨⟨first, [], rfl, lead_of_masks _ first.toNat_lt (.inl h1), characterWidth_one h1, by simp⟩, by simp, ?_⟩, hcs⟩
    intro rest more offset offset' hrest
    rw [decodeNbtString, singleton_append, decodeMutf8.eq_def]
    simp only [if_pos h1]
    rw [decodeMutf8_place offset' (0 + 1) hrest]
    rfl
  | case3 i first h1 h2 b rest h3 =>
    rw [decodeMutf8, if_neg h1, if_pos h2, if_pos h3] at h
    cases h
  | case4 i first h1 h2 b rest h3 ih =>
    rw [decodeMutf8, if_neg h1, if_pos h2, if_neg h3] at h
    obtain ⟨more, hmore, rfl⟩ := map_cons_ok h
    obtain ⟨cs, hcs, rfl, rfl⟩ := ih hmore
    refine ⟨([first, b], [UInt16.ofNat (((first.toNat &&& 0x1f) <<< 6) ||| (b.toNat &&& 0x3f))]) :: cs, ?_, rfl, rfl⟩
    have hlead := lead_of_masks _ first.toNat_lt (.inr (.inl h2))
    refine forall_mem_cons.mpr ⟨⟨⟨first, [b], rfl, hlead, characterWidth_two h2 h1, by simpa using h3⟩, by simp, ?_⟩, hcs⟩
    intro rest more offset offset' hrest
    rw [decodeNbtString, cons_append, singleton_append, decodeMutf8, if_neg h1, if_pos h2, if_neg h3,
      decodeMutf8_place offset' (0 + 2) hrest]
    rfl
  | case5 i first h1 h2 =>
    rw [decodeMutf8, if_neg h1, if_pos h2] at h
    cases h
  | case6 i first h1 h2 h3 b c rest h4 =>
    rw [decodeMutf8, if_neg h1, if_neg h2, if_pos h3] at h
    simp only [if_pos h4] at h
    cases h
  | case7 i first h1 h2 h3 b c rest h4 h5 =>
    rw [decodeMutf8, if_neg h1, if_neg h2, if_pos h3] at h
    simp only [if_neg h4, if_pos h5] at h
    cases h
  | case8 i first h1 h2 h3 b c rest h4 h5 ih =>
    rw [decodeMutf8, if_neg h1, if_neg h2, if_pos h3] at h
    simp only [if_neg h4, if_neg h5] at h
    obtain ⟨more, hmore, rfl⟩ := map_cons_ok h
    obtain ⟨cs, hcs, rfl, rfl⟩ := ih hmore
    refine ⟨([first, b, c], [UInt16.ofNat
      (((((first.toNat &&& 0xf) <<< 6) ||| (b.toNat &&& 0x3f)) <<< 6) ||| (c.toNat &&& 0x3f))]) :: cs, ?_, rfl, rfl⟩
    have hlead := lead_of_masks _ first.toNat_lt (.inr (.inr (.inl h3)))
    refine forall_mem_cons.mpr ⟨⟨⟨first, [b, c], rfl, hlead, characterWidth_three h3 h1 h2, ?_⟩, by simp, ?_⟩, hcs⟩
    · simpa using And.intro (not_not.mp h4) (not_not.mp h5)
    · intro rest more offset offset' hrest
      rw [decodeNbtString, cons_append, cons_append, singleton_append, decodeMutf8, if_neg h1, if_neg h2, if_pos h3]
      simp only [if_neg h4, if_neg h5]
      rw [decodeMutf8_place offset' (0 + 3) hrest]
      rfl
  | case9 i first rest h1 h2 h3 hshort =>
    rw [decodeMutf8.eq_def] at h
    simp only [if_neg h1, if_neg h2, if_pos h3] at h
    cases h
  | case10 i first rest h1 h2 h3 =>
    rw [decodeMutf8.eq_def] at h
    simp only [if_neg h1, if_neg h2, if_neg h3] at h
    cases h

theorem decodeNbtString_utf8 {bytes : Bytes} {offset : Nat} {text : Utf16} : decodeNbtString bytes .utf8 offset = .ok text ↔
      ∃ scalars, utf8Decode bytes = some scalars ∧ text = scalars.flatMap utf16Units := by
  simp only [decodeNbtString, textDecoder]
  cases utf8Decode bytes with
  | none => simp
  | some scalars => simp [eq_comm]

theorem utf8_character {a : UInt8} {tail : Bytes} {value : Nat} (hlead : a.toNat < 0x80 ∨ 0xc0 ≤ a.toNat)
    (hwidth : characterWidth .utf8 a.toNat = tail.length + 1)
    (hshort : tail.length ≤ 3) (htail : ∀ b ∈ tail, b.toNat &&& 0xc0 = 0x80)
    (hstep : ∀ rest, utf8Decode (a :: tail ++ rest) = (utf8Decode rest).map (value :: ·)) :
    Character .utf8 (a :: tail, utf16Units value) := by
  have hmask := lead_of_masks _ a.toNat_lt (hlead.imp_right fun h => .inr (.inr h))
  refine ⟨⟨a, tail, rfl, hmask, hwidth, htail⟩, Nat.succ_le_succ hshort, ?_⟩
  intro rest more offset offset' hrest
  obtain ⟨scalars, hscalars, rfl⟩ := decodeNbtString_utf8.mp hrest
  refine decodeNbtString_utf8.mpr ⟨value :: scalars, ?_, rfl⟩
  rw [hstep, hscalars]
  rfl

set_option maxRecDepth 4096 in
theorem utf8_lead : ∀ n < 256,
    (0xc2 ≤ n ∧ n ≤ 0xdf → characterWidth .utf8 n = 2) ∧ (0xe0 ≤ n ∧ n ≤ 0xef → characterWidth .utf8 n = 3) ∧
      (0xf0 ≤ n ∧ n ≤ 0xf4 → characterWidth .utf8 n = 4) ∧ (0x80 ≤ n ∧ n ≤ 0xbf → n &&& 0xc0 = 0x80) := by decide

theorem continuation_of_inRange {b : UInt8} {low high : Nat} (h : inRange b low high = true) (hlow : 0x80 ≤ low)
    (hhigh : high ≤ 0xbf) : b.toNat &&& 0xc0 = 0x80 := by
  rw [inRange, decide_eq_true_eq] at h
  exact (utf8_lead _ b.toNat_lt).2.2.2 ⟨by omega, by omega⟩

theorem utf8Decode_characters {bytes : Bytes} {scalars : List Nat} (h : utf8Decode bytes = some scalars) :
    ∃ cs, (∀ c ∈ cs, Character .utf8 c) ∧ bytes = bytesOf cs ∧ scalars.flatMap utf16Units = textOf cs := by
  -- a character in front of those of the rest
  have hcons : ∀ (tail : Bytes) (value : Nat) {a : UInt8} {rest : Bytes} {scalars : List Nat},
      a.toNat < 0x80 ∨ 0xc0 ≤ a.toNat → characterWidth .utf8 a.toNat = tail.length + 1 → tail.length ≤ 3 → (∀ b ∈ tail, b.toNat &&& 0xc0 = 0x80) →
      (∀ rest, utf8Decode (a :: tail ++ rest) = (utf8Decode rest).map (value :: ·)) →
      utf8Decode (a :: tail ++ rest) = some scalars →
      (∀ {more}, utf8Decode rest = some more →
        ∃ cs, (∀ c ∈ cs, Character .utf8 c) ∧ rest = bytesOf cs ∧ more.flatMap utf16Units = textOf cs) →
      ∃ cs, (∀ c ∈ cs, Character .utf8 c) ∧ a :: tail ++ rest = bytesOf cs ∧ scalars.flatMap utf16Units = textOf cs := by
    intro tail value a rest scalars hlead hwidth hshort htail hstep hdecode ih
    rw [hstep, Option.map_eq_some_iff] at hdecode
    obtain ⟨more, hmore, rfl⟩ := hdecode
    obtain ⟨cs, hcs, hrest, htext⟩ := ih hmore
    refine ⟨(a :: tail, utf16Units value) :: cs,
      forall_mem_cons.mpr ⟨utf8_character hlead hwidth hshort htail hstep, hcs⟩, ?_, ?_⟩
    · rw [bytesOf_cons, hrest]
    · rw [flatMap_cons, textOf_cons, htext]
  induction bytes using utf8Decode.induct generalizing scalars with
  | case1 =>
    cases h
    exact ⟨[], by simp, rfl, rfl⟩
  | case2 a rest h1 ih =>
    refine hcons [] a.toNat (.inl h1) (characterWidth_one h1) (by simp) (by simp) (fun rest => ?_) h ih
    rw [utf8Decode.eq_def]
    simp only [if_pos h1, cons_append, nil_append]
  | case3 a h1 h2 b rest h3 ih =>
    have hrange : 0xc2 ≤ a.toNat ∧ a.toNat ≤ 0xdf := by simpa [inRange] using h2
    refine hcons [b] ((a.toNat - 0xc0) * 0x40 + (b.toNat - 0x80)) (.inr (by omega))
      ((utf8_lead _ a.toNat_lt).1 hrange) (by simp) ?_ (fun rest => ?_) h ih
    · simpa using continuation_of_inRange h3 le_rfl le_rfl
    · rw [utf8Decode.eq_def]
      simp only [if_neg h1, if_pos h2, if_pos h3, cons_append, nil_append]
  | case6 a h1 h2 h3 b c rest h4 ih =>
    have hrange : 0xe0 ≤ a.toNat ∧ a.toNat ≤ 0xef := by simpa [inRange] using h3
    refine hcons [b, c] ((a.toNat - 0xe0) * 0x1000 + (b.toNat - 0x80) * 0x40 + (c.toNat - 0x80)) (.inr (by omega))
      ((utf8_lead _ a.toNat_lt).2.1 hrange) (by simp) ?_ (fun rest => ?_) h ih
    · rw [and_eq_true] at h4
      simpa using And.intro (continuation_of_inRange h4.1 (by split_ifs <;> omega) (by split_ifs <;> omega))
        (continuation_of_inRange h4.2 le_rfl le_rfl)
    · rw [utf8Decode.eq_def]
      simp only [if_neg h1, if_neg h2, if_pos h3, if_pos h4, cons_append, nil_append]
  | case9 a h1 h2 h3 h4 b c d rest h5 ih =>
    have hrange : 0xf0 ≤ a.toNat ∧ a.toNat ≤ 0xf4 := by simpa [inRange] using h4
    refine hcons [b, c, d] ((a.toNat - 0xf0) * 0x40000 + (b.toNat - 0x80) * 0x1000
      + (c.toNat - 0x80) * 0x40 + (d.toNat - 0x80)) (.inr (by omega))
      ((utf8_lead _ a.toNat_lt).2.2.1 hrange) (by simp) ?_ (fun rest => ?_) h ih
    · rw [and_eq_true, and_eq_true] at h5
      simpa using And.intro (continuation_of_inRange h5.1.1 (by split_ifs <;> omega) (by split_ifs <;> omega))
        (And.intro (continuation_of_inRange h5.1.2 le_rfl le_rfl) (continuation_of_inRange h5.2 le_rfl le_rfl))
    · rw [utf8Decode.eq_def]
      simp only [if_neg h1, if_neg h2, if_neg h3, if_pos h4, if_pos h5, cons_append, nil_append]
  | _ =>
    -- what the decoder refuses
    rw [utf8Decode.eq_def] at h
    simp_all only [if_true, if_false, false_eq_true, reduceCtorEq]

theorem decode_characters {bytes : Bytes} {offset : Nat} {text : Utf16}
    (h : decodeNbtString bytes strings offset = .ok text) :
    ∃ cs, (∀ c ∈ cs, Character strings c) ∧ bytes = bytesOf cs ∧ text = textOf cs := by
  cases strings with
  | mutf8 => exact decodeMutf8_characters h
  | utf8 =>
    obtain ⟨scalars, hscalars, rfl⟩ := decodeNbtString_utf8.mp h
    exact utf8Decode_characters hscalars

theorem decode_bytesOf (h : ∀ c ∈ cs, Character strings c)
    (offset : Nat) : decodeNbtString (bytesOf cs) strings offset = .ok (textOf cs) := by
  induction cs with
  | nil => cases strings <;> rfl
  | cons c cs ih =>
    obtain ⟨hc, hcs⟩ := forall_mem_cons.mp h
    exact hc.decodes _ _ offset offset (ih hcs)

theorem characterStart_eq {bytes : Bytes} {start k : Nat} (hlead : start = 0 ∨ (bytes.getD start 0).toNat &&& 0xc0 ≠ 0x80)
    (htail : ∀ j, start < j → j ≤ start + k → (bytes.getD j 0).toNat &&& 0xc0 = 0x80) :
    characterStart bytes (start + k) = start := by
  induction k with
  | zero =>
    match start, hlead with
    | 0, _ => rfl
    | start + 1, hlead =>
      rw [Nat.add_zero, characterStart, if_neg (hlead.resolve_left (Nat.succ_ne_zero start))]
  | succ k ih =>
    rw [← Nat.add_assoc, characterStart, if_pos (htail _ (by omega) (by omega))]
    exact ih fun j h1 h2 => htail j h1 (by omega)

theorem exists_character_at (h : n < (bytesOf cs).length) :
    ∃ before c after, cs = before ++ c :: after ∧ (bytesOf before).length ≤ n ∧
      n < (bytesOf before).length + c.1.length := by
  induction cs generalizing n with
  | nil => simp at h
  | cons c cs ih =>
    by_cases hc : n < c.1.length
    · exact ⟨[], c, cs, rfl, Nat.zero_le n, by simpa using hc⟩
    · rw [bytesOf_cons, length_append] at h
      obtain ⟨before, d, after, rfl, h1, h2⟩ := ih (n := n - c.1.length) (by omega)
      refine ⟨c :: before, d, after, rfl, ?_, ?_⟩
      · rw [bytesOf_cons, length_append]
        omega
      · rw [bytesOf_cons, length_append]
        omega

/-- A cut anywhere in a run of characters is moved back to the end of a character, and to the beginning only
where the first character is wider than the page. -/
theorem completeLength_cut (hcs : ∀ c ∈ cs, Character strings c) (h0 : 0 < n) (hn : n ≤ (bytesOf cs).length) :
    ∃ page rest, cs = page ++ rest ∧ completeLength strings ((bytesOf cs).take n) n = (bytesOf page).length ∧
      (bytesOf page).length ≤ n ∧ (page = [] → n < 4) := by
  obtain ⟨before, c, after, rfl, hlow, hhigh⟩ := exists_character_at (show n - 1 < (bytesOf cs).length by omega)
  have hc := hcs c (by simp)
  obtain ⟨lead, tail, hbytes, hlead, hwidth, htail⟩ := hc.shape
  have hget : ∀ j, j < n → ((bytesOf (before ++ c :: after)).take n).getD j 0
      = (bytesOf (before ++ c :: after)).getD j 0 := by
    intro j hj
    rw [getD_eq_getElem?_getD, getD_eq_getElem?_getD, getElem?_take, if_pos hj]
  have hin : ∀ k, k < c.1.length → (bytesOf (before ++ c :: after)).getD ((bytesOf before).length + k) 0 = c.1.getD k 0 := by
    intro k hk
    rw [bytesOf_append, bytesOf_cons, getD_append_right _ _ _ _ (by omega), Nat.add_sub_cancel_left, getD_append _ _ _ _ hk]
  have hstart : characterStart ((bytesOf (before ++ c :: after)).take n) (n - 1) = (bytesOf before).length := by
    rw [show n - 1 = (bytesOf before).length + (n - 1 - (bytesOf before).length) by omega]
    refine characterStart_eq (.inr ?_) fun j h1 h2 => ?_
    · rw [hget _ (by omega), show (bytesOf before).length = (bytesOf before).length + 0 by rfl, hin 0 (by omega), hbytes]
      exact hlead
    · obtain ⟨k, rfl⟩ := Nat.exists_eq_add_of_lt h1
      rw [hget _ (by omega), Nat.add_assoc, hin _ (by omega), hbytes, getD_cons_succ]
      rw [hbytes, length_cons] at hhigh
      rw [getD_eq_getElem _ _ (by omega)]
      exact htail _ (getElem_mem _)
  have hfirst : ((bytesOf (before ++ c :: after)).take n).getD (bytesOf before).length 0 = lead := by
    rw [hget _ (by omega), show (bytesOf before).length = (bytesOf before).length + 0 by rfl, hin 0 (by omega), hbytes]
    rfl
  rw [completeLength]
  simp only [hstart, hfirst, hwidth]
  by_cases hwide : n < (bytesOf before).length + c.1.length
  · -- the last character does not fit: the page ends before it
    refine ⟨before, c :: after, rfl, if_pos hwide, by omega, ?_⟩
    rintro rfl
    have := hc.width
    rw [bytesOf_nil, length_nil] at hwide
    omega
  · refine ⟨before ++ [c], after, by simp, ?_, ?_, by simp⟩
    · rw [if_neg hwide, bytesOf_append, length_append, bytesOf_cons, length_append, bytesOf_nil, length_nil]
      omega
    · rw [bytesOf_append, length_append, bytesOf_cons, length_append, bytesOf_nil, length_nil]
      omega

section Conforming

variable {source : NbtByteSource} {bytes : Bytes}

/-- Page sizes `readNbtText` takes when `left` bytes of the string are left: the size is a safe integer and the
page is read in one range. -/
def Admitted (maxBytes left : Nat) : Prop := maxBytes ≤ maxSafeInteger ∧ min left maxBytes ≤ NBT_CHUNK_BYTES

instance (maxBytes left : Nat) : Decidable (Admitted maxBytes left) := inferInstanceAs (Decidable (_ ∧ _))

variable {cs : List (Bytes × Utf16)} {n : Nat} {encoding : NbtEncoding} {span : NbtSpan}

theorem page_cut (hcs : ∀ c ∈ cs, Character encoding.strings c) (hspan : span.length = (bytesOf cs).length) (h0 : 0 < n) :
    ∃ page rest, cs = page ++ rest ∧
      (if min span.length n < span.length ∧ min span.length n ≠ 0 then
        completeLength encoding.strings ((bytesOf cs).take (min span.length n)) (min span.length n)
      else min span.length n) = (bytesOf page).length ∧ (bytesOf page).length ≤ min span.length n ∧
      (page = [] → span.length ≠ 0 → n < min span.length 4) := by
  by_cases hcut : min span.length n < span.length ∧ min span.length n ≠ 0
  · rw [if_pos hcut]
    obtain ⟨page, rest, rfl, hlength, hle, hnil⟩ := completeLength_cut hcs (n := min span.length n) (by omega) (by omega)
    exact ⟨page, rest, rfl, hlength, hle, fun h _ => by have := hnil h; omega⟩
  · rw [if_neg hcut]
    refine ⟨cs, [], by simp, by omega, by omega, ?_⟩
    rintro rfl hne
    exact absurd hspan hne

theorem readNbtTextGo_cut (hsrc : Conforms source bytes) {page rest : List (Bytes × Utf16)}
    (hcs : ∀ c ∈ page, Character encoding.strings c) (hend : span.offset + span.length ≤ bytes.length)
    (hspan : slice bytes span.offset span.length = bytesOf (page ++ rest)) (retries : Nat)
    (hrange : min span.length n ≤ NBT_CHUNK_BYTES)
    (hlength : (if min span.length n < span.length ∧ min span.length n ≠ 0 then
        completeLength encoding.strings ((bytesOf (page ++ rest)).take (min span.length n)) (min span.length n)
      else min span.length n) = (bytesOf page).length)
    (hle : (bytesOf page).length ≤ min span.length n) :
    readNbtTextGo source span encoding retries n =
      if (bytesOf page).length = 0 ∧ span.length ≠ 0 then
        match retries with
        | 0 => .error ⟨span.offset, "Invalid string page size"⟩
        | retries + 1 => readNbtTextGo source span encoding retries (min span.length 4)
      else .ok ⟨textOf page, decide ((bytesOf page).length < span.length), span.offset + (bytesOf page).length⟩ := by
  have hread : readNbtRange source ⟨span.offset, min span.length n⟩
      = .ok ((bytesOf (page ++ rest)).take (min span.length n)) := by
    rw [readNbtRange_eq hsrc _ hrange (by simp only; omega), ← hspan]
    simp only [slice, take_take, Nat.min_self, Nat.min_comm span.length n, Nat.min_assoc]
  have htake : ((bytesOf (page ++ rest)).take (min span.length n)).take (bytesOf page).length = bytesOf page := by
    rw [take_take, Nat.min_eq_left hle, bytesOf_append, take_left]
  rw [readNbtTextGo.eq_def]
  cases retries <;> simp only [hread, bind, Except.bind, hlength, htake, decode_bytesOf hcs]

theorem eq_nil_of_bytesOf {strings : NbtStrings} (hcs : ∀ c ∈ cs, Character strings c)
    (h : (bytesOf cs).length = 0) : cs = [] := by
  match cs, hcs with
  | [], _ => rfl
  | c :: cs, hcs =>
    have := (hcs c (by simp)).length_pos
    rw [bytesOf_cons, length_append] at h
    omega

theorem readNbtTextGo_page (hsrc : Conforms source bytes) (hcs : ∀ c ∈ cs, Character encoding.strings c)
    (hend : span.offset + span.length ≤ bytes.length) (hspan : slice bytes span.offset span.length = bytesOf cs)
    (hne : span.length ≠ 0) (retries : Nat) (h0 : 0 < n) (hrange : min span.length n ≤ NBT_CHUNK_BYTES)
    (hretry : retries = 0 → min span.length 4 ≤ n) :
    ∃ page rest, cs = page ++ rest ∧ 0 < (bytesOf page).length ∧
      readNbtTextGo source span encoding retries n = .ok ⟨textOf page,
        decide ((bytesOf page).length < span.length), span.offset + (bytesOf page).length⟩ := by
  have hlen : span.length = (bytesOf cs).length := by
    rw [← hspan, slice_length bytes hend]
  induction retries generalizing n with
  | zero =>
    obtain ⟨page, rest, rfl, hlength, hle, hnil⟩ := page_cut hcs hlen h0
    have hpage : ∀ c ∈ page, Character encoding.strings c := fun c hc => hcs c (mem_append_left _ hc)
    have hpos : 0 < (bytesOf page).length := by
      refine Nat.pos_of_ne_zero fun h => ?_
      have := hnil (eq_nil_of_bytesOf hpage h) hne
      have := hretry rfl
      omega
    refine ⟨page, rest, rfl, hpos, ?_⟩
    rw [readNbtTextGo_cut hsrc hpage hend hspan 0 hrange hlength hle, if_neg (by omega)]
  | succ retries ih =>
    obtain ⟨page, rest, rfl, hlength, hle, hnil⟩ := page_cut hcs hlen h0
    have hpage : ∀ c ∈ page, Character encoding.strings c := fun c hc => hcs c (mem_append_left _ hc)
    by_cases hzero : (bytesOf page).length = 0
    · -- the first character is wider than the page
      obtain ⟨page', rest', heq, hpos, hread⟩ := ih (n := min span.length 4) (by omega)
        (by rw [NBT_CHUNK_BYTES]; omega) (fun _ => le_rfl)
      refine ⟨page', rest', heq, hpos, ?_⟩
      rw [readNbtTextGo_cut hsrc hpage hend hspan (retries + 1) hrange hlength hle, if_pos ⟨hzero, hne⟩]
      exact hread
    · refine ⟨page, rest, rfl, Nat.pos_of_ne_zero hzero, ?_⟩
      rw [readNbtTextGo_cut hsrc hpage hend hspan (retries + 1) hrange hlength hle, if_neg (by omega)]

theorem readNbtText_page (hsrc : Conforms source bytes) (hcs : ∀ c ∈ cs, Character encoding.strings c)
    (hend : span.offset + span.length ≤ bytes.length) (hspan : slice bytes span.offset span.length = bytesOf cs)
    (hne : span.length ≠ 0) {maxBytes : Nat} (h0 : 0 < maxBytes) (hfits : Admitted maxBytes span.length) :
    ∃ page rest, cs = page ++ rest ∧ 0 < (bytesOf page).length ∧ readNbtText source span encoding maxBytes = .ok ⟨textOf page,
        decide ((bytesOf page).length < span.length), span.offset + (bytesOf page).length⟩ := by
  obtain ⟨hsafe, hrange⟩ := hfits
  rw [readNbtText, if_neg (by omega)]
  exact readNbtTextGo_page hsrc hcs hend hspan hne 1 h0 hrange (by simp)

theorem readNbtText_refused (hsrc : Conforms source bytes) {encoding : NbtEncoding} {span : NbtSpan}
    (hend : span.offset + span.length ≤ bytes.length) {maxBytes : Nat} (hfits : ¬Admitted maxBytes span.length) :
    ∃ message, readNbtText source span encoding maxBytes = .error ⟨span.offset, message⟩ := by
  have haddressable := hsrc.addressable
  by_cases hsafe : maxSafeInteger < maxBytes
  · exact ⟨_, by rw [readNbtText, if_pos (.inr hsafe)]⟩
  · by_cases hzero : maxBytes < 1
    · exact ⟨_, by rw [readNbtText, if_pos (.inl hzero)]⟩
    · have hrange : NBT_CHUNK_BYTES < min span.length maxBytes := by
        by_contra hle
        exact hfits ⟨by omega, by omega⟩
      refine ⟨"Use bounded pages for byte ranges", ?_⟩
      rw [readNbtText, if_neg (by omega), readNbtTextGo.eq_def]
      simp only [readNbtRange, assertRange_ok (show span.offset + min span.length maxBytes ≤ maxSafeInteger by omega), bind,
        Except.bind, if_pos hrange]

/-- The loop of `textChunks`, with a page size of its own for every call: the next page begins at the `nextByte` of
the last one. `turns` calls are made at most. -/
def textPages (source : NbtByteSource) (encoding : NbtEncoding) (sizes : Nat → Nat) :
    Nat → Nat → NbtSpan → Except NbtError (List NbtText)
  | 0, _, span => if span.length = 0 then .ok [] else .error ⟨span.offset, "NBT text page did not advance."⟩
  | turns + 1, call, span =>
    if span.length = 0 then .ok []
    else do
      let page ← readNbtText source span encoding (sizes call)
      let rest ← textPages source encoding sizes turns (call + 1) ⟨page.nextByte, span.offset + span.length - page.nextByte⟩
      .ok (page :: rest)

/-- These pages are what the first calls give, and `next` is what they leave of `span`. -/
def Reads (source : NbtByteSource) (encoding : NbtEncoding) (sizes : Nat → Nat) : Nat → NbtSpan → List NbtText → NbtSpan → Prop
  | _, span, [], next => next = span
  | call, span, page :: pages, next => readNbtText source span encoding (sizes call) = .ok page ∧
    Reads source encoding sizes (call + 1) ⟨page.nextByte, span.offset + span.length - page.nextByte⟩ pages next

/-- The reading ends with the error of the first call that is refused, and the pages before it begin the text. -/
structure Refused (source : NbtByteSource) (encoding : NbtEncoding) (sizes : Nat → Nat) (turns call : Nat) (span : NbtSpan)
    (text : Utf16) (pages : List NbtText) (next : NbtSpan) (e : NbtError) : Prop where
  reads : Reads source encoding sizes call span pages next
  text : pages.flatMap NbtText.text <+: text
  refused : ¬Admitted (sizes (call + pages.length)) next.length
  error : readNbtText source next encoding (sizes (call + pages.length)) = .error e
  ends : textPages source encoding sizes turns call span = .error e

/-- The pages of `span`, one after the other: each advances, and together they have the text `text`. -/
structure PagesOf (span : NbtSpan) (text : Utf16) (pages : List NbtText) : Prop where
  text : pages.flatMap NbtText.text = text
  advance : (span.offset :: pages.map NbtText.nextByte).IsChain (· < ·)
  final : (pages.map NbtText.nextByte).getLastD span.offset = span.offset + span.length
  truncated : ∀ page ∈ pages, page.truncated = decide (page.nextByte < span.offset + span.length)

theorem PagesOf.cons {span : NbtSpan} {page : NbtText} {text : Utf16} {pages : List NbtText} {n : Nat} (h0 : 0 < n)
    (hle : n ≤ span.length) (hnext : page.nextByte = span.offset + n) (htruncated : page.truncated = decide (n < span.length))
    (h : PagesOf ⟨page.nextByte, span.offset + span.length - page.nextByte⟩ text pages) :
    PagesOf span (page.text ++ text) (page :: pages) := by
  have hrest : page.nextByte + (span.offset + span.length - page.nextByte) = span.offset + span.length := by omega
  obtain ⟨htext, hadvance, hfinal, htrunc⟩ := h
  simp only [hrest] at hfinal htrunc
  refine ⟨by rw [flatMap_cons, htext], ?_, ?_, ?_⟩
  · rw [map_cons]
    exact isChain_cons_cons.mpr ⟨by omega, hadvance⟩
  · rw [map_cons, getLastD_cons]
    exact hfinal
  · refine forall_mem_cons.mpr ⟨?_, htrunc⟩
    rw [htruncated, hnext, decide_eq_decide]
    omega

theorem textPages_characters (hsrc : Conforms source bytes) {sizes : Nat → Nat} (hsizes : ∀ k, 1 ≤ sizes k) (turns : Nat) :
    ∀ (call : Nat) (span : NbtSpan) (cs : List (Bytes × Utf16)), (∀ c ∈ cs, Character encoding.strings c) →
      span.offset + span.length ≤ bytes.length → slice bytes span.offset span.length = bytesOf cs →
      span.length ≤ turns →
      (∃ pages, textPages source encoding sizes turns call span = .ok pages ∧ PagesOf span (textOf cs) pages) ∨
        ∃ pages next e, Refused source encoding sizes turns call span (textOf cs) pages next e := by
  induction turns with
  | zero =>
    intro call span cs hcs hend hspan hturns
    have hzero : span.length = 0 := by omega
    have hnil : cs = [] := eq_nil_of_bytesOf hcs (by rw [← hspan, slice_length bytes hend, hzero])
    subst hnil
    exact .inl ⟨[], if_pos hzero, ⟨rfl, isChain_singleton _, by simp [hzero], by simp⟩⟩
  | succ turns ih =>
    intro call span cs hcs hend hspan hturns
    have hlen : span.length = (bytesOf cs).length := by rw [← hspan, slice_length bytes hend]
    rw [textPages]
    by_cases hzero : span.length = 0
    · have hnil : cs = [] := eq_nil_of_bytesOf hcs (by omega)
      subst hnil
      exact .inl ⟨[], if_pos hzero, ⟨rfl, isChain_singleton _, by simp [hzero], by simp⟩⟩
    rw [if_neg hzero]
    by_cases hfits : Admitted (sizes call) span.length
    · obtain ⟨page, rest, rfl, hpos, hread⟩ := readNbtText_page hsrc hcs hend hspan hzero (hsizes call) hfits
      rw [bytesOf_append, length_append] at hlen
      have hslice : slice bytes (span.offset + (bytesOf page).length) (span.length - (bytesOf page).length)
          = bytesOf rest := by
        rw [← slice_slice bytes span.offset span.length _ _ (by omega), hspan, bytesOf_append, slice,
          drop_left, take_of_length_le (by omega)]
      have hleft : span.offset + span.length - (span.offset + (bytesOf page).length)
          = span.length - (bytesOf page).length := by omega
      let next : NbtSpan := ⟨span.offset + (bytesOf page).length, span.offset + span.length - (span.offset + (bytesOf page).length)⟩
      have hnext : next.offset + next.length ≤ bytes.length ∧ next.length ≤ turns := by
        simp only [next]
        omega
      simp only [hread, bind, Except.bind]
      rcases ih (call + 1) next rest (fun c hc => hcs c (mem_append_right _ hc)) hnext.1
          (by simp only [next, hleft, hslice]) hnext.2 with
        ⟨pages, hpages, hof⟩ | ⟨pages, last, e, hreads, htext, hrefused, herror, hends⟩
      · simp only [next] at hpages
        simp only [hpages]
        refine .inl ⟨_, rfl, ?_⟩
        rw [textOf_append]
        exact @PagesOf.cons span ⟨_, _, _⟩ _ _ _ hpos (by omega) rfl rfl hof
      · have hcall : call + (pages.length + 1) = call + 1 + pages.length := by omega
        refine .inr ⟨⟨textOf page, decide ((bytesOf page).length < span.length), span.offset + (bytesOf page).length⟩ :: pages,
          last, e, ⟨hread, hreads⟩, ?_, ?_, ?_, ?_⟩
        · rw [flatMap_cons, textOf_append]
          exact (prefix_append_right_inj _).mpr htext
        · rw [length_cons, hcall]
          exact hrefused
        · rw [length_cons, hcall]
          exact herror
        · rw [textPages, if_neg hzero]
          simp only [next] at hends
          simp only [hread, bind, Except.bind, hends]
    · -- the call is refused
      obtain ⟨message, he⟩ := @readNbtText_refused _ _ hsrc encoding _ hend _ hfits
      simp only [he, bind, Except.bind]
      refine .inr ⟨[], span, _, rfl, nil_prefix, hfits, he, ?_⟩
      rw [textPages, if_neg hzero, he]
      rfl

end Conforming

/-! ## Modified UTF-8 of any text -/

theorem ofNat_ne_zero {n : Nat} (h0 : 0 < n) (h : n < 256) : UInt8.ofNat n ≠ 0 := by
  intro hzero
  have := congrArg UInt8.toNat hzero
  rw [toNat_ofNat_lt h] at this
  exact h0.ne' this

theorem mutf8Unit_ne_zero (c : UInt16) : ∀ b ∈ mutf8Unit c.toNat, b ≠ 0 := by
  have hc : c.toNat < 0x10000 := c.toNat_lt
  have h6 : c.toNat >>> 6 = c.toNat / 64 := Nat.shiftRight_eq_div_pow c.toNat 6
  have h12 : c.toNat >>> 12 = c.toNat / 4096 := Nat.shiftRight_eq_div_pow c.toNat 12
  have hcont : ∀ n, UInt8.ofNat (0x80 ||| (n &&& 63)) ≠ 0 := by
    intro n
    rw [and_63, or_80 (Nat.mod_lt n (by decide))]
    exact ofNat_ne_zero (by omega) (by omega)
  unfold mutf8Unit
  split_ifs with h1 h2
  · exact forall_mem_singleton.mpr (ofNat_ne_zero h1.1 (by omega))
  · have hlead : UInt8.ofNat (0xc0 ||| (c.toNat >>> 6)) ≠ 0 := by
      rw [h6, or_c0 (by omega)]
      exact ofNat_ne_zero (by omega) (by omega)
    exact forall_mem_cons.mpr ⟨hlead, forall_mem_singleton.mpr (hcont _)⟩
  · have hlead : UInt8.ofNat (0xe0 ||| (c.toNat >>> 12)) ≠ 0 := by
      rw [h12, or_e0 (by omega)]
      exact ofNat_ne_zero (by omega) (by omega)
    exact forall_mem_cons.mpr ⟨hlead, forall_mem_cons.mpr ⟨hcont _, forall_mem_singleton.mpr (hcont _)⟩⟩

theorem encodeMutf8_ne_zero (text : Utf16) : ∀ b ∈ text.flatMap fun c => mutf8Unit c.toNat, b ≠ 0 := by
  intro b hb
  obtain ⟨c, -, hc⟩ := mem_flatMap.mp hb
  exact mutf8Unit_ne_zero c b hc

/-- Every text is read back from its modified UTF-8, which has no zero byte; and a span that decodes as a whole is
the pages of any page sizes put together, within as many calls as it has bytes, or else the first call that asks for a page
that `readNbtText` refuses ends the reading with its error, and the pages before it begin the text. -/
theorem text_read_in_pages {source : NbtByteSource} {bytes : Bytes} {encoding : NbtEncoding} {span : NbtSpan}
    {text : Utf16} {sizes : Nat → Nat} (hsrc : Conforms source bytes) (hend : span.offset + span.length ≤ bytes.length)
    (htext : decodeNbtString (slice bytes span.offset span.length) encoding.strings span.offset = .ok text)
    (hsizes : ∀ k, 1 ≤ sizes k) :
    (∀ (s : Utf16) (offset : Nat), ∃ encoded, encodeNbtString s .mutf8 = .ok encoded ∧ 0 ∉ encoded ∧
      decodeNbtString encoded .mutf8 offset = .ok s) ∧
    ((∃ pages, textPages source encoding sizes span.length 0 span = .ok pages ∧ PagesOf span text pages) ∨
      ∃ pages next e, Refused source encoding sizes span.length 0 span text pages next e) := by
  refine ⟨fun s offset => ⟨_, rfl, fun h => encodeMutf8_ne_zero s 0 h rfl, decodeMutf8_encode offset 0 s⟩, ?_⟩
  obtain ⟨cs, hcs, hspan, rfl⟩ := decode_characters htext
  exact textPages_characters hsrc hsizes span.length 0 span cs hcs hend hspan le_rfl

/-- An accented letter, a plain letter and a three-byte character in pages of one byte. -/
theorem text_read_in_pages_narrow :
    ∃ pages, textPages (memoryNbtSource [0xc3, 0xa9, 0x41, 0xe2, 0x82, 0xac]) ⟨.big, true, .mutf8, false⟩ (fun _ => 1) 6 0
      ⟨0, 6⟩ = .ok pages ∧ PagesOf ⟨0, 6⟩ [0xe9, 0x41, 0x20ac] pages := by
  rcases (@text_read_in_pages (memoryNbtSource [0xc3, 0xa9, 0x41, 0xe2, 0x82, 0xac]) _ ⟨.big, true, .mutf8, false⟩
    ⟨0, 6⟩ [0xe9, 0x41, 0x20ac] (fun _ => 1) (memoryNbtSource_conforms (by decide)) le_rfl (by rfl)
    (fun _ => le_rfl)).2 with h | ⟨_, next, _, h⟩
  · exact h
  · refine absurd ⟨by decide, ?_⟩ h.refused
    exact (Nat.min_le_right next.length 1).trans (by decide)

theorem bytesOf_replicate (n : Nat) (c : Bytes × Utf16) : (bytesOf (replicate n c)).length = n * c.1.length := by
  induction n with
  | zero => rw [replicate_zero, bytesOf_nil, length_nil, Nat.zero_mul]
  | succ n ih => rw [replicate_succ, bytesOf_cons, length_append, ih, Nat.succ_mul, Nat.add_comm]

theorem letter_character : Character .utf8 ([0x41], [0x41]) :=
  @utf8_character 0x41 [] 0x41 (.inl (by decide)) rfl (by decide) (by simp) fun rest => by
    rw [utf8Decode.eq_def]
    rfl

/-- A string of 65537 letters decodes, but a page size past one range is refused. -/
theorem page_past_range_refused :
    ∃ (bytes : Bytes) (text : Utf16), Conforms (memoryNbtSource bytes) bytes ∧ bytes.length = 65537 ∧
      decodeNbtString (slice bytes 0 65537) .utf8 0 = .ok text ∧
      ∀ turns, textPages (memoryNbtSource bytes) ⟨.littleVarint, false, .utf8, false⟩ (fun _ => 65537) (turns + 1) 0 ⟨0, 65537⟩
        = .error ⟨0, "Use bounded pages for byte ranges"⟩ := by
  have hlen : (bytesOf (List.replicate 65537 ([0x41], [0x41]))).length = 65537 := bytesOf_replicate 65537 _
  have hsrc : Conforms (memoryNbtSource (bytesOf (List.replicate 65537 ([0x41], [0x41])))) _ :=
    memoryNbtSource_conforms (by rw [hlen]; decide)
  refine ⟨_, textOf (List.replicate 65537 ([0x41], [0x41])), hsrc, hlen, ?_, fun turns => ?_⟩
  · rw [slice, drop_zero, take_of_length_le hlen.le]
    exact decode_bytesOf (fun c hc => eq_of_mem_replicate hc ▸ letter_character) 0
  · rfl

end Cantrip.Nbt
