import Mathlib.Data.List.Basic

/-!
# Putting a frame together from pieces

A frame is sent in pieces, each with the name and the size of the frame and its place in it. The receiver holds the
pieces of at most one frame (`Partial`), from its start on and without a gap. What it gives out is the whole frame:
the pieces that it took last, one after the other (`assembleAll_trail`); and the pieces of a frame, in order, put it
together (`assembleAll_frame`).
-/

namespace Cantrip.Lib

open List Option

structure Piece (ι α : Type) where
  id : ι
  total : Nat
  offset : Nat
  payload : List α

section Reassembly

variable {ι α : Type}

structure Piece.Within (p : Piece ι α) : Prop where
  nonempty : p.payload ≠ []
  bound : p.offset + p.payload.length ≤ p.total

def gathered (ps : List (Piece ι α)) : List α := ps.flatMap Piece.payload

/-- The pieces are of one frame and cover it from `offset` on, each where the one before it ends. -/
def CoversFrom (id : ι) (total : Nat) : Nat → List (Piece ι α) → Prop
  | _, [] => True
  | offset, p :: ps => (p.id = id ∧ p.total = total ∧ p.offset = offset) ∧ CoversFrom id total (offset + p.payload.length) ps

theorem gathered_concat (ps : List (Piece ι α)) (p : Piece ι α) : gathered (ps ++ [p]) = gathered ps ++ p.payload := by
  unfold gathered
  rw [flatMap_append, flatMap_singleton]

theorem CoversFrom.concat {id : ι} {total offset : Nat} {ps : List (Piece ι α)} (h : CoversFrom id total offset ps) {p : Piece ι α}
    (hid : p.id = id) (htotal : p.total = total) (hoffset : p.offset = offset + (gathered ps).length) :
    CoversFrom id total offset (ps ++ [p]) := by
  induction ps generalizing offset with
  | nil => exact ⟨⟨hid, htotal, hoffset⟩, trivial⟩
  | cons q ps ih =>
    refine ⟨h.1, ih h.2 ?_⟩
    unfold gathered at hoffset
    rw [flatMap_cons, length_append, ← Nat.add_assoc] at hoffset
    exact hoffset

theorem gathered_nil : gathered ([] : List (Piece ι α)) = [] := rfl

theorem gathered_cons (p : Piece ι α) (ps : List (Piece ι α)) : gathered (p :: ps) = p.payload ++ gathered ps := flatMap_cons

theorem gathered_ne_nil {p : Piece ι α} {ps : List (Piece ι α)} (h : p.Within) : gathered (p :: ps) ≠ [] := by
  rw [gathered_cons]
  exact fun hnil => h.nonempty (append_eq_nil_iff.mp hnil).1

/-- A frame of which the front is there. -/
structure Partial (ι α : Type) where
  id : ι
  total : Nat
  pieces : List (Piece ι α)
  covers : CoversFrom id total 0 pieces
  short : (gathered pieces).length < total

namespace Partial

def bytes (q : Partial ι α) : List α := gathered q.pieces

/-- The piece begins where the front ends. -/
def Continues (q : Partial ι α) (p : Piece ι α) : Prop := p.id = q.id ∧ p.total = q.total ∧ p.offset = q.bytes.length

instance [DecidableEq ι] (q : Partial ι α) (p : Piece ι α) : Decidable (q.Continues p) := by
  unfold Continues
  infer_instance

/-- A frame of which nothing is there yet. -/
def start (id : ι) (total : Nat) (h : 0 < total) : Partial ι α := ⟨id, total, [], trivial, h⟩

theorem start_continues {p : Piece ι α} (htotal : 0 < p.total) (hoffset : p.offset = 0) :
    (start p.id p.total htotal : Partial ι α).Continues p := ⟨rfl, rfl, hoffset⟩

/-- The whole frame, or the longer front. -/
def add (q : Partial ι α) (p : Piece ι α) (h : q.Continues p) : Option (List α) × Option (Partial ι α) :=
  if hshort : (gathered (q.pieces ++ [p])).length < q.total then
    (none, some ⟨q.id, q.total, q.pieces ++ [p], q.covers.concat h.1 h.2.1 (h.2.2.trans (Nat.zero_add _).symm), hshort⟩)
  else (some (gathered (q.pieces ++ [p])), none)

end Partial

variable {q : Partial ι α} {p : Piece ι α}

theorem Partial.add_last (h : q.Continues p)
    (hlast : q.bytes.length + p.payload.length = q.total) : q.add p h = (some (q.bytes ++ p.payload), none) := by
  have hall : ¬(gathered (q.pieces ++ [p])).length < q.total := by
    rw [gathered_concat, length_append]
    exact Nat.not_lt.mpr (Nat.le_of_eq hlast.symm)
  unfold add
  rw [dif_neg hall, gathered_concat]
  rfl

theorem Partial.add_more (h : q.Continues p) (hmore : q.bytes.length + p.payload.length < q.total) :
    ∃ q', q.add p h = (none, some q') ∧ q'.id = q.id ∧ q'.total = q.total ∧ q'.bytes = q.bytes ++ p.payload := by
  unfold add
  have hshort : (gathered (q.pieces ++ [p])).length < q.total := by
    rw [gathered_concat, length_append]
    exact hmore
  rw [dif_pos hshort]
  exact ⟨_, rfl, rfl, rfl, gathered_concat q.pieces p⟩

def MadeOf (frame : List α) (ps : List (Piece ι α)) : Prop :=
  ∃ id, CoversFrom id frame.length 0 ps ∧ gathered ps = frame

theorem madeOf_add (h : q.Continues p) (hwithin : p.Within) {frame : List α}
    (hframe : (q.add p h).1 = some frame) : MadeOf frame (q.pieces ++ [p]) := by
  have hcovers := q.covers.concat h.1 h.2.1 (h.2.2.trans (Nat.zero_add _).symm)
  have hbound := hwithin.bound
  rw [h.2.2, h.2.1] at hbound
  rcases Nat.lt_or_ge (q.bytes.length + p.payload.length) q.total with hmore | hge
  · obtain ⟨q', hadd, -⟩ := Partial.add_more h hmore
    rw [hadd] at hframe
    cases hframe
  · have hlast : q.bytes.length + p.payload.length = q.total := Nat.le_antisymm hbound hge
    rw [Partial.add_last h hlast] at hframe
    obtain rfl := some.inj hframe
    rw [← hlast, ← length_append] at hcovers
    exact ⟨q.id, hcovers, gathered_concat q.pieces p⟩

theorem pieces_add {q' : Partial ι α} (h : q.Continues p) (hheld : (q.add p h).2 = some q') :
    q'.pieces = q.pieces ++ [p] := by
  unfold Partial.add at hheld
  split at hheld
  · exact congrArg Partial.pieces (some.inj hheld).symm
  · cases hheld

/-- The piece that was read, if it was accepted. -/
def taken {ε γ : Type} : Except ε γ → Except ε (Piece ι α) → List (Piece ι α)
  | .ok _, .ok p => [p]
  | _, _ => []

def accepted {β ε γ : Type} (decode : β → Except ε (Piece ι α)) : List β → List (Except ε γ) → List (Piece ι α)
  | b :: bs, answer :: answers => taken answer (decode b) ++ accepted decode bs answers
  | _, _ => []

theorem accepted_nil {β ε γ : Type} (decode : β → Except ε (Piece ι α)) (answers : List (Except ε γ)) :
    accepted decode [] answers = [] := by simp [accepted]

inductive Fault
  /-- A frame is begun while another is not complete. -/
  | restarted
  | notContiguous
  deriving DecidableEq

variable [DecidableEq ι]

/-- Take one piece. A piece from the start of a frame takes the place of a frame that is not complete, or is refused. -/
def assemble (replace : Bool) (s : Option (Partial ι α)) (p : Piece ι α) :
    Except Fault (Option (List α)) × Option (Partial ι α) :=
  if hoffset : p.offset = 0 then
    if s.isSome && !replace then (.error .restarted, s)
    else if htotal : 0 < p.total then
      let (out, s) := (Partial.start p.id p.total htotal).add p (Partial.start_continues htotal hoffset)
      (.ok out, s)
    else (.error .notContiguous, s)
  else
    match s with
    | none => (.error .notContiguous, none)
    | some q =>
      if h : q.Continues p then
        let (out, s) := q.add p h
        (.ok out, s)
      else (.error .notContiguous, some q)

section Serve

variable {σ σ' β γ : Type}

/-- The answers to what arrives, one by one, and the state in the end. -/
def serveAll (push : σ → β → γ × σ) : σ → List β → List γ × σ
  | s, [] => ([], s)
  | s, b :: bs => ((push s b).1 :: (serveAll push (push s b).2 bs).1, (serveAll push (push s b).2 bs).2)

theorem serveAll_simulates {push : σ → β → γ × σ} {push' : σ' → β → γ × σ'} {Rel : σ → σ' → Prop}
    (hstep : ∀ s s' b, Rel s s' → (push s b).1 = (push' s' b).1 ∧ Rel (push s b).2 (push' s' b).2) {s : σ} {s' : σ'}
    (h : Rel s s') (bs : List β) :
    (serveAll push s bs).1 = (serveAll push' s' bs).1 ∧ Rel (serveAll push s bs).2 (serveAll push' s' bs).2 := by
  induction bs generalizing s s' with
  | nil => exact ⟨rfl, h⟩
  | cons b bs ih =>
    obtain ⟨hanswer, hrel⟩ := hstep s s' b h
    obtain ⟨hanswers, hend⟩ := ih hrel
    refine ⟨?_, hend⟩
    rw [serveAll, serveAll, hanswer, hanswers]

end Serve

/-- How a piece is read from what arrives, and what is answered to a piece that does not fit. -/
structure Receiver (β ι α ε : Type) where
  decode : β → Except ε (Piece ι α)
  fault : Fault → ε
  replace : Bool

namespace Receiver

variable {β ε : Type} {R : Receiver β ι α ε}

def push (R : Receiver β ι α ε) (s : Option (Partial ι α)) (b : β) : Except ε (Option (List α)) × Option (Partial ι α) :=
  match R.decode b with
  | .error e => (.error e, s)
  | .ok p => ((assemble R.replace s p).1.mapError R.fault, (assemble R.replace s p).2)

/-! ### The frame out of its pieces -/

/-- The answers to the pieces of one frame: nothing, and with the last piece the frame. -/
def frameAnswers (ε : Type) (count : Nat) (frame : List α) : List (Except ε (Option (List α))) :=
  List.replicate (count - 1) (.ok none) ++ [.ok (some frame)]

theorem frameAnswers_succ (count : Nat) (frame : List α) :
    frameAnswers ε (count + 2) frame = .ok none :: frameAnswers ε (count + 1) frame := rfl

variable {bs : List β} {p : Piece ι α}

theorem push_some {q : Partial ι α} {b : β} (hdecode : R.decode b = .ok p) (h : q.Continues p)
    (hfront : q.bytes ≠ []) : R.push (some q) b = (.ok (q.add p h).1, (q.add p h).2) := by
  have hoffset : p.offset ≠ 0 := by
    rw [h.2.2]
    exact fun hzero => hfront (length_eq_zero_iff.mp hzero)
  unfold push assemble
  rw [hdecode]
  dsimp only
  rw [dif_neg hoffset, dif_pos h]
  rfl

theorem push_none {b : β} (hdecode : R.decode b = .ok p) (hoffset : p.offset = 0) (htotal : 0 < p.total) :
    R.push none b = (.ok ((Partial.start p.id p.total htotal).add p (Partial.start_continues htotal hoffset)).1,
      ((Partial.start p.id p.total htotal).add p (Partial.start_continues htotal hoffset)).2) := by
  unfold push assemble
  rw [hdecode]
  dsimp only
  rw [dif_pos hoffset, isSome_none, Bool.false_and, if_neg Bool.false_ne_true, dif_pos htotal]
  rfl

theorem pushAll_rest {ps : List (Piece ι α)} (hdecode : bs.map R.decode = (p :: ps).map .ok)
    {s : Option (Partial ι α)} {q : Partial ι α} (h : q.Continues p)
    (hpush : ∀ b, R.decode b = .ok p → R.push s b = (.ok (q.add p h).1, (q.add p h).2))
    (hrest : CoversFrom q.id q.total (q.bytes.length + p.payload.length) ps) (hwithin : ∀ r ∈ p :: ps, r.Within)
    (hall : q.bytes.length + (gathered (p :: ps)).length = q.total) :
    serveAll R.push s bs = (frameAnswers ε (ps.length + 1) (q.bytes ++ gathered (p :: ps)), none) := by
  induction ps generalizing bs p s q with
  | nil =>
    obtain ⟨b, rest, rfl, hb, hnil⟩ := map_eq_cons_iff.mp hdecode
    obtain rfl := map_eq_nil_iff.mp hnil
    rw [gathered_cons, gathered_nil, append_nil] at hall ⊢
    rw [serveAll, hpush b hb, Partial.add_last h hall]
    rfl
  | cons r ps ih =>
    obtain ⟨b, bs, rfl, hb, hbs⟩ := map_eq_cons_iff.mp hdecode
    have hr := length_pos_of_ne_nil (@gathered_ne_nil _ _ r ps (hwithin r (by simp)))
    rw [gathered_cons] at hall ⊢
    rw [length_append, ← Nat.add_assoc] at hall
    obtain ⟨q', hadd, hid, htotal, hbytes⟩ := Partial.add_more h (by omega)
    have hlength : q'.bytes.length = q.bytes.length + p.payload.length := by rw [hbytes, length_append]
    have hfront : q'.bytes ≠ [] := by
      rw [hbytes]
      exact fun hnil => (hwithin p mem_cons_self).nonempty (append_eq_nil_iff.mp hnil).2
    rw [← hid, ← htotal, ← hlength] at hrest
    have hnext := ih hbs hrest.1 (fun b hb => push_some hb hrest.1 hfront) hrest.2
      (fun s hs => hwithin s (mem_cons_of_mem _ hs)) (by rw [hlength, htotal]; exact hall)
    rw [serveAll, hpush b hb, hadd]
    dsimp only
    rw [hnext, hbytes, append_assoc, length_cons, frameAnswers_succ]

theorem pushAll_frame {ps : List (Piece ι α)} (hdecode : bs.map R.decode = ps.map .ok) {id : ι}
    (hframe : gathered ps ≠ []) (hcovers : CoversFrom id (gathered ps).length 0 ps) (hwithin : ∀ p ∈ ps, p.Within) :
    serveAll R.push none bs = (frameAnswers ε ps.length (gathered ps), none) := by
  cases ps with
  | nil => exact absurd rfl hframe
  | cons p ps =>
    obtain ⟨⟨rfl, htotal, hoffset⟩, hrest⟩ := hcovers
    have hpos : 0 < p.total := htotal ▸ length_pos_of_ne_nil hframe
    rw [← htotal] at hrest
    exact pushAll_rest hdecode (Partial.start_continues hpos hoffset) (fun b hb => push_none hb hoffset hpos) hrest hwithin
      ((Nat.zero_add _).trans htotal.symm)

theorem push_cases (R : Receiver β ι α ε) (s : Option (Partial ι α)) (b : β) : (∃ e, R.push s b = (.error e, s)) ∨
      ∃ p, ∃ q : Partial ι α, ∃ h : q.Continues p, R.decode b = .ok p ∧ (s = some q ∨ q.pieces = []) ∧
        R.push s b = (.ok (q.add p h).1, (q.add p h).2) := by
  unfold push assemble
  cases hdecode : R.decode b with
  | error e => exact .inl ⟨e, rfl⟩
  | ok p =>
    dsimp only
    split
    · next hoffset =>
      split
      · exact .inl ⟨_, rfl⟩
      · split
        · next htotal =>
          exact .inr ⟨p, Partial.start p.id p.total htotal, Partial.start_continues htotal hoffset, rfl, .inr rfl, rfl⟩
        · exact .inl ⟨_, rfl⟩
    · cases s with
      | none => exact .inl ⟨_, rfl⟩
      | some q =>
        dsimp only
        split
        · next h => exact .inr ⟨p, q, h, rfl, .inl rfl, rfl⟩
        · exact .inl ⟨_, rfl⟩

theorem accepted_madeOf (hwithin : ∀ b p, R.decode b = .ok p → p.Within) {s : Option (Partial ι α)}
    {before : List (Piece ι α)} (hheld : ∀ q, s = some q → q.pieces <:+ before) {i : Nat} {frame : List α}
    (hframe : (serveAll R.push s bs).1[i]? = some (.ok (some frame))) :
    ∃ ps, ps <:+ before ++ accepted R.decode (bs.take (i + 1)) (serveAll R.push s bs).1 ∧ MadeOf frame ps := by
  induction bs generalizing s before i with
  | nil => cases hframe
  | cons b bs ih =>
    rw [serveAll] at hframe ⊢
    rw [take_succ_cons]
    unfold accepted
    rcases push_cases R s b with ⟨e, hpush⟩ | ⟨p, q, h, hdecode, hq, hpush⟩
    · rw [hpush]
      rw [hpush] at hframe
      cases i with
      | zero => cases hframe
      | succ i => exact ih hheld hframe
    · rw [hpush, hdecode]
      rw [hpush] at hframe
      dsimp only [taken]
      have hsuffix : q.pieces ++ [p] <:+ before ++ [p] := by
        rcases hq with hq | hnil
        · obtain ⟨front, hfront⟩ := hheld q hq
          exact ⟨front, by rw [← hfront, append_assoc]⟩
        · rw [hnil]
          exact suffix_append before [p]
      rw [← append_assoc]
      cases i with
      | zero =>
        refine ⟨q.pieces ++ [p], ?_, madeOf_add h (hwithin b p hdecode) (Except.ok.inj (some.inj hframe))⟩
        rw [take_zero, accepted_nil, append_nil]
        exact hsuffix
      | succ i =>
        refine ih (fun q' hq' => ?_) hframe
        rw [pieces_add h hq']
        exact hsuffix

end Receiver

end Reassembly

end Cantrip.Lib
