import Mathlib.Algebra.Order.Ring.Nat

/-!
# The persistent sequence of an edit (`nbt/src/edit/persistent.ts`)

A sequence is a tree of pieces, each some cells of its data. `cells` is the list it stands for: `merge` puts two such lists
together, `split` cuts one, also inside a piece, and `slices` reads off a part. None of this asks for an order of the
priorities. Numbers are those of JavaScript, whose sums are exact to 2^53 (`add`); no difference is negative where they are.
A longer sequence no longer knows its length (`length_rounds`).
-/

namespace Cantrip.Nbt.Persistent

open List

def MAX_SAFE_INTEGER : Nat := 2 ^ 53 - 1

/-- The sum of two numbers: the nearest one of 53 bits, and between two the even one. -/
def add (a b : Nat) : Nat :=
  let n := a + b
  if n ≤ 2 ^ 53 then n
  else
    let unit := 2 ^ (n.log2 - 52)
    let low := n / unit
    (if 2 * (n % unit) < unit ∨ 2 * (n % unit) = unit ∧ low % 2 = 0 then low else low + 1) * unit

structure NbtPiece (T : Type) where
  data : T
  offset : Nat
  count : Nat

inductive SequenceNode (T : Type)
  | null
  | node (piece : NbtPiece T) (priority : Nat) (left right : SequenceNode T) (count : Nat)

variable {T : Type}

def size : SequenceNode T → Nat
  | .null => 0
  | .node _ _ _ _ count => count

/-- `node`; a priority that the source draws from its counter is given, as any number. -/
def node (piece : NbtPiece T) (left right : SequenceNode T) (priority : Nat) : SequenceNode T :=
  .node piece priority left right (add (add (size left) piece.count) (size right))

def merge : SequenceNode T → SequenceNode T → SequenceNode T
  | .null, b => b
  | a, .null => a
  | .node pa qa la ra ca, .node pb qb lb rb cb =>
    if qa < qb then node pa la (merge ra (.node pb qb lb rb cb)) qa else node pb (merge (.node pa qa la ra ca) lb) rb qb

/-- `split`, with the priorities of the two nodes it may make. -/
def split (fresh : Nat × Nat) : SequenceNode T → Nat → SequenceNode T × SequenceNode T
  | .null, _ => (.null, .null)
  | .node piece priority l r _, at_ =>
    let left := size l
    let end_ := add left piece.count
    if at_ < left then ((split fresh l at_).1, node piece (split fresh l at_).2 r priority)
    else if end_ < at_ then (node piece l (split fresh r (at_ - end_)).1 priority, (split fresh r (at_ - end_)).2)
    else if at_ = left then (l, node piece .null r priority)
    else if at_ = end_ then (node piece l .null priority, r)
    else
      let cut := at_ - left
      (merge l (node { piece with count := cut } .null .null fresh.1),
        merge (node { piece with offset := add piece.offset cut, count := piece.count - cut } .null .null fresh.2) r)

structure NbtSequence (T : Type) where
  root : SequenceNode T := .null

/-- A piece that `slices` yields. -/
structure NbtSlice (T : Type) extends NbtPiece T where
  position : Nat

/-- An entry of the stack of `slices`, with what it reads of its node. -/
structure Frame (T : Type) where
  piece : NbtPiece T
  left : SequenceNode T
  right : SequenceNode T
  count : Nat
  start : Nat
  visit : Bool

def push (start : Nat) (stack : List (Frame T)) : SequenceNode T → List (Frame T)
  | .null => stack
  | .node piece _ left right count => ⟨piece, left, right, count, start, false⟩ :: stack

def SequenceNode.nodes : SequenceNode T → Nat
  | .null => 0
  | .node _ _ l r _ => l.nodes + r.nodes + 1

/-- How many turns of the loop an entry is good for. -/
def Frame.turns (frame : Frame T) : Nat := if frame.visit then 1 else 2 * (frame.left.nodes + frame.right.nodes + 1)

theorem Frame.turns_pos (frame : Frame T) : 0 < frame.turns := by
  unfold turns
  split_ifs <;> omega

theorem push_turns (start : Nat) (stack : List (Frame T)) (node : SequenceNode T) :
    ((push start stack node).map Frame.turns).sum = 2 * node.nodes + (stack.map Frame.turns).sum := by
  cases node <;> simp [push, Frame.turns, SequenceNode.nodes]

/-- The loop of `slices`, the top of the stack first. -/
def slicesLoop (first end_ : Nat) : List (Frame T) → List (NbtSlice T)
  | [] => []
  | ⟨piece, left, right, count, start, visit⟩ :: stack =>
    let at_ := add start (size left)
    let to_ := add at_ piece.count
    if end_ ≤ start ∨ add start count ≤ first then slicesLoop first end_ stack
    else if visit = true then
      let begin_ := max first at_
      let finish := min end_ to_
      if begin_ < finish then
        ⟨⟨piece.data, add piece.offset begin_ - at_, finish - begin_⟩, begin_⟩ :: slicesLoop first end_ stack
      else slicesLoop first end_ stack
    else slicesLoop first end_ (push start (⟨piece, left, right, count, start, true⟩ :: push to_ stack right) left)
  termination_by stack => (stack.map Frame.turns).sum
  decreasing_by
    · simp [Frame.turns_pos]
    · simp [Frame.turns_pos]
    · simp [Frame.turns_pos]
    · simp_all [push_turns, Frame.turns]
      omega

/-- `NbtSequence.from`, with the priority of its node. -/
def NbtSequence.from_ (data : T) (count : Nat) (offset : Nat) (fresh : Nat) : Except String (NbtSequence T) :=
  if MAX_SAFE_INTEGER < count then .error "Invalid NBT sequence length."
  else .ok ⟨if count = 0 then .null else node ⟨data, offset, count⟩ .null .null fresh⟩

def NbtSequence.length (s : NbtSequence T) : Nat := size s.root

/-- `splice`, with the priorities of the nodes its two splits may make. -/
def NbtSequence.splice (s : NbtSequence T) (at_ remove : Nat) (insert : NbtSequence T) (fresh : (Nat × Nat) × (Nat × Nat)) :
    Except String (NbtSequence T) :=
  if MAX_SAFE_INTEGER < at_ ∨ MAX_SAFE_INTEGER < remove ∨ s.length < add at_ remove then .error "Invalid NBT sequence splice."
  else
    let (left, tail) := split fresh.1 s.root at_
    let (_, right) := split fresh.2 tail remove
    .ok ⟨merge (merge left insert.root) right⟩

def NbtSequence.slices (s : NbtSequence T) (first limit : Nat) : Except String (List (NbtSlice T)) :=
  if MAX_SAFE_INTEGER < add first limit then .error "Invalid NBT sequence page."
  else .ok (slicesLoop first (min s.length (add first limit)) (push 0 [] s.root))

/-! ### The cells -/

theorem le_round (p a b k : Nat) (hk : p ≤ k) (hself : 2 ^ k ≤ a) (hb : a / 2 ^ (k - p) ≤ b) : 2 ^ k ≤ b * 2 ^ (k - p) := by
  have hlow : 2 ^ p ≤ a / 2 ^ (k - p) := by
    rw [Nat.le_div_iff_mul_le (Nat.two_pow_pos _), ← Nat.pow_add, Nat.add_sub_cancel' hk]
    exact hself
  calc 2 ^ k = 2 ^ p * 2 ^ (k - p) := by rw [← Nat.pow_add, Nat.add_sub_cancel' hk]
    _ ≤ b * 2 ^ (k - p) := Nat.mul_le_mul_right _ (hlow.trans hb)

theorem le_add {a b : Nat} (h : 2 ^ 53 < a + b) : 2 ^ 53 ≤ add a b := by
  have hk : 53 ≤ (a + b).log2 := (Nat.le_log2 (by omega)).2 h.le
  have hself : 2 ^ (a + b).log2 ≤ a + b := Nat.log2_self_le (by omega)
  rw [add, if_neg h.not_ge]
  refine (Nat.pow_le_pow_right Nat.two_pos hk).trans (le_round 52 _ _ _ (by omega) hself ?_)
  split_ifs
  · exact le_rfl
  · exact Nat.le_succ _

theorem add_eq {a b : Nat} (h : a + b ≤ 2 ^ 53) : add a b = a + b := by
  unfold add
  exact if_pos h

def NbtPiece.cells (piece : NbtPiece T) : List (T × Nat) := (List.range piece.count).map fun k => (piece.data, piece.offset + k)

def SequenceNode.pieces : SequenceNode T → List (NbtPiece T)
  | .null => []
  | .node piece _ l r _ => l.pieces ++ piece :: r.pieces

/-- The list that a tree stands for. -/
def SequenceNode.cells (t : SequenceNode T) : List (T × Nat) := t.pieces.flatMap NbtPiece.cells

@[simp] theorem piece_length (piece : NbtPiece T) : piece.cells.length = piece.count := by simp [NbtPiece.cells]

@[simp] theorem cells_null : (SequenceNode.null : SequenceNode T).cells = [] := rfl

@[simp] theorem cells_node (piece : NbtPiece T) (q : Nat) (l r : SequenceNode T) (c : Nat) :
    (SequenceNode.node piece q l r c).cells = l.cells ++ (piece.cells ++ r.cells) := by
  simp [SequenceNode.cells, SequenceNode.pieces]

theorem merge_cells (a b : SequenceNode T) : (merge a b).cells = a.cells ++ b.cells := by
  fun_induction merge a b with
  | case1 => simp
  | case2 => simp
  | case3 pa qa la ra ca pb qb lb rb cb _ ih => simp [node, ih]
  | case4 pa qa la ra ca pb qb lb rb cb _ ih => simp [node, ih]

/-- What the trees of a sequence keep: no piece is empty or ends beyond `ends`, and every count is the number of the cells. -/
def SequenceNode.Good (ends : Nat) : SequenceNode T → Prop
  | .null => True
  | .node piece _ l r count => l.Good ends ∧ r.Good ends ∧ 0 < piece.count ∧ piece.offset + piece.count ≤ ends ∧
      count = l.cells.length + piece.count + r.cells.length

variable {ends length : Nat} {t : SequenceNode T}

theorem SequenceNode.Good.size (h : t.Good ends) : size t = t.cells.length := by
  cases t with
  | null => rfl
  | node piece q l r count =>
    obtain ⟨_, _, _, _, hc⟩ := h
    simp only [Persistent.size, hc, cells_node, length_append, piece_length]
    omega

theorem SequenceNode.Good.add {start : Nat} (h : t.Good ends) (hn : start + t.cells.length ≤ 2 ^ 53) :
    add start (Persistent.size t) = start + t.cells.length := by
  rw [h.size]
  exact add_eq hn

theorem SequenceNode.Good.pieces (h : t.Good ends) : ∀ piece ∈ t.pieces, 0 < piece.count := by
  induction t with
  | null => simp [SequenceNode.pieces]
  | node piece q l r count ihl ihr =>
    obtain ⟨hl, hr, hp, _⟩ := h
    simp only [SequenceNode.pieces, mem_append, mem_cons]
    rintro p (h | rfl | h)
    · exact ihl hl p h
    · exact hp
    · exact ihr hr p h

theorem null_good : (SequenceNode.null : SequenceNode T).Good ends := trivial

theorem node_good {piece : NbtPiece T} {l r : SequenceNode T} (hl : l.Good ends) (hr : r.Good ends) (hp : 0 < piece.count)
    (he : piece.offset + piece.count ≤ ends) (hn : l.cells.length + piece.count + r.cells.length ≤ 2 ^ 53) (q : Nat) :
    (node piece l r q).Good ends := by
  refine ⟨hl, hr, hp, he, ?_⟩
  rw [hl.size, hr.size, add_eq (by omega : l.cells.length + piece.count ≤ 2 ^ 53), add_eq hn]

theorem merge_good (a b : SequenceNode T) (ha : a.Good ends) (hb : b.Good ends)
    (hn : a.cells.length + b.cells.length ≤ 2 ^ 53) : (merge a b).Good ends := by
  fun_induction merge a b with
  | case1 => exact hb
  | case2 => exact ha
  | case3 pa qa la ra ca pb qb lb rb cb _ ih =>
    obtain ⟨hla, hra, hpa, hea, _⟩ := ha
    simp only [cells_node, length_append, piece_length] at hn
    refine node_good hla (ih hra hb ?_) hpa hea ?_ _
    · simp only [cells_node, length_append, piece_length]
      omega
    · simp only [merge_cells, cells_node, length_append, piece_length]
      omega
  | case4 pa qa la ra ca pb qb lb rb cb _ ih =>
    obtain ⟨hlb, hrb, hpb, heb, _⟩ := hb
    simp only [cells_node, length_append, piece_length] at hn
    refine node_good (ih ha hlb ?_) hrb hpb heb ?_ _
    · simp only [cells_node, length_append, piece_length]
      omega
    · simp only [merge_cells, cells_node, length_append, piece_length]
      omega

theorem cells_take (piece : NbtPiece T) {cut : Nat} (h : cut ≤ piece.count) :
    ({ piece with count := cut } : NbtPiece T).cells = piece.cells.take cut := by
  simp [NbtPiece.cells, ← map_take, take_range, h]

theorem cells_drop (piece : NbtPiece T) (cut : Nat) :
    ({ piece with offset := piece.offset + cut, count := piece.count - cut } : NbtPiece T).cells = piece.cells.drop cut := by
  apply ext_getElem
  · simp
  · intro i _ _
    simp [NbtPiece.cells, Nat.add_assoc]

theorem split_spec (fresh : Nat × Nat) (he : ends ≤ 2 ^ 53) (h : t.Good ends) (hn : t.cells.length ≤ 2 ^ 53) (at_ : Nat) :
    ((split fresh t at_).1.cells = t.cells.take at_ ∧ (split fresh t at_).2.cells = t.cells.drop at_) ∧
      (split fresh t at_).1.Good ends ∧ (split fresh t at_).2.Good ends := by
  induction t generalizing at_ with
  | null => simp [split, SequenceNode.Good]
  | node piece q l r count ihl ihr =>
    obtain ⟨hl, hr, hp, hpe, _⟩ := h
    simp only [cells_node, length_append, piece_length] at hn
    obtain ⟨⟨hl1, hl2⟩, hl3, hl4⟩ := ihl hl (by omega) at_
    obtain ⟨⟨hr1, hr2⟩, hr3, hr4⟩ := ihr hr (by omega) (at_ - (l.cells.length + piece.count))
    have hl2n : (split fresh l at_).2.cells.length ≤ l.cells.length := by simp [hl2]
    have hr1n : (split fresh r (at_ - (l.cells.length + piece.count))).1.cells.length ≤ r.cells.length := by
      rw [hr1]
      apply length_take_le'
    simp only [split, hl.size, add_eq (show l.cells.length + piece.count ≤ 2 ^ 53 by omega)]
    split_ifs with h1 h2 h3 h4
    · refine ⟨⟨?_, ?_⟩, hl3, node_good hl4 hr hp hpe (by omega) _⟩
      · simp [hl1, take_append_of_le_length h1.le]
      · simp [node, hl2, drop_append_of_le_length h1.le]
    · refine ⟨⟨?_, ?_⟩, node_good hl hr3 hp hpe (by omega) _, hr4⟩
      · simp [node, hr1, take_append, take_of_length_le, Nat.sub_sub, show l.cells.length ≤ at_ by omega,
          show piece.count ≤ at_ - l.cells.length by omega]
      · simp [hr2, drop_append, drop_eq_nil_of_le, Nat.sub_sub, show l.cells.length ≤ at_ by omega,
          show piece.count ≤ at_ - l.cells.length by omega]
    · subst h3
      refine ⟨⟨by simp, by simp [node]⟩, hl, node_good null_good hr hp hpe (by simp; omega) _⟩
    · subst h4
      refine ⟨⟨?_, ?_⟩, node_good hl null_good hp hpe (by simp; omega) _, hr⟩
      · simp [node, ← append_assoc]
      · simp [← append_assoc]
    · have hc : at_ - l.cells.length ≤ piece.count := by omega
      rw [add_eq (show piece.offset + (at_ - l.cells.length) ≤ 2 ^ 53 by omega)]
      refine ⟨⟨?_, ?_⟩, merge_good _ _ hl ?_ ?_, merge_good _ _ ?_ hr ?_⟩
      · simp [merge_cells, node, cells_take piece hc, take_append, take_of_length_le, show l.cells.length ≤ at_ by omega, hc]
      · simp [merge_cells, node, cells_drop, drop_append, show l.cells.length ≤ at_ by omega, hc]
      · exact node_good null_good null_good (by simp; omega) (by simp; omega) (by simp; omega) _
      · simp [node]
        omega
      · exact node_good null_good null_good (by simp; omega) (by simp; omega) (by simp; omega) _
      · simp [node]
        omega

/-! ### The slices -/

def NbtSlice.cells (slice : NbtSlice T) : List ((T × Nat) × Nat) := slice.toNbtPiece.cells.zipIdx slice.position

/-- The cells from `first` to before `end_`. -/
def window (first end_ : Nat) (cells : List ((T × Nat) × Nat)) : List ((T × Nat) × Nat) :=
  cells.filter fun cell => decide (first ≤ cell.2) && decide (cell.2 < end_)

theorem window_zipIdx (first end_ : Nat) (cells : List (T × Nat)) (start : Nat) :
    window first end_ (cells.zipIdx start) = ((cells.zipIdx start).take (end_ - start)).drop (first - start) := by
  induction cells generalizing start with
  | nil => simp [window]
  | cons cell cells ih =>
    have ih := ih (start + 1)
    simp only [window] at ih ⊢
    rw [zipIdx_cons, filter_cons, ih]
    by_cases hf : first ≤ start <;> by_cases he : start < end_
    · simp [hf, he, show end_ - start = end_ - (start + 1) + 1 by omega, show first - start = 0 by omega,
        show first - (start + 1) = 0 by omega]
    · simp [he, show end_ - start = 0 by omega, show end_ - (start + 1) = 0 by omega]
    · simp [hf, show end_ - start = end_ - (start + 1) + 1 by omega, show first - start = first - (start + 1) + 1 by omega]
    · simp [he, show end_ - start = 0 by omega, show end_ - (start + 1) = 0 by omega]

/-- What an entry of the stack is still to yield, were everything asked for. -/
def Frame.cells (frame : Frame T) : List ((T × Nat) × Nat) :=
  if frame.visit then frame.piece.cells.zipIdx (frame.start + frame.left.cells.length)
  else (frame.left.cells ++ (frame.piece.cells ++ frame.right.cells)).zipIdx frame.start

structure Frame.Good (ends length : Nat) (frame : Frame T) : Prop where
  left : frame.left.Good ends
  right : frame.right.Good ends
  ends : frame.piece.offset + frame.piece.count ≤ ends
  count : frame.count = frame.left.cells.length + frame.piece.count + frame.right.cells.length
  length : frame.start + frame.count ≤ length

theorem push_good {stack : List (Frame T)} {start : Nat} (h : t.Good ends) (hn : start + t.cells.length ≤ length)
    (hs : ∀ frame ∈ stack, frame.Good ends length) : ∀ frame ∈ push start stack t, frame.Good ends length := by
  cases t with
  | null => exact hs
  | node piece q l r count =>
    obtain ⟨hl, hr, _, he, hc⟩ := h
    simp only [cells_node, length_append, piece_length] at hn
    simp only [push, forall_mem_cons]
    exact ⟨⟨hl, hr, he, hc, by simp only [hc]; omega⟩, hs⟩

theorem push_cells (first end_ start : Nat) (stack : List (Frame T)) (t : SequenceNode T) :
    (push start stack t).flatMap (fun frame => window first end_ frame.cells) =
      window first end_ (t.cells.zipIdx start) ++ stack.flatMap fun frame => window first end_ frame.cells := by
  cases t <;> simp [push, Frame.cells, window]

theorem slice_cells (piece : NbtPiece T) {first end_ at_ : Nat} (h : max first at_ < min end_ (at_ + piece.count)) :
    (⟨⟨piece.data, piece.offset + max first at_ - at_, min end_ (at_ + piece.count) - max first at_⟩, max first at_⟩ :
      NbtSlice T).cells = window first end_ (piece.cells.zipIdx at_) := by
  rw [window_zipIdx]
  apply ext_getElem
  · simp [NbtSlice.cells]
    omega
  · intro i hi _
    simp only [NbtSlice.cells, length_zipIdx, piece_length] at hi
    simp only [NbtSlice.cells, NbtPiece.cells, getElem_zipIdx, getElem_map, getElem_range, getElem_drop,
      getElem_take]
    simp only [Prod.mk.injEq, true_and]
    omega

theorem window_nil {first end_ start : Nat} {cells : List (T × Nat)} (h : end_ ≤ start ∨ start + cells.length ≤ first) :
    window first end_ (cells.zipIdx start) = [] := by
  rw [window_zipIdx]
  rcases h with h | h
  · simp [h]
  · apply drop_eq_nil_of_le
    simp
    omega

theorem slicesLoop_spec (first end_ : Nat) (hb : ends + length ≤ 2 ^ 53) (stack : List (Frame T))
    (hs : ∀ frame ∈ stack, frame.Good ends length) :
    (slicesLoop first end_ stack).flatMap NbtSlice.cells = stack.flatMap (fun frame => window first end_ frame.cells) ∧
      ∀ slice ∈ slicesLoop first end_ stack, 0 < slice.count := by
  fun_induction slicesLoop first end_ stack with
  | case1 => simp
  | case2 piece left right count start visit stack hout ih =>
    obtain ⟨⟨hl, hr, he, hc, hn⟩, hs⟩ := forall_mem_cons.1 hs
    obtain ⟨ih, hpos⟩ := ih hs
    simp only at hc hn
    rw [add_eq (by omega)] at hout
    refine ⟨?_, hpos⟩
    rw [ih, flatMap_cons, Frame.cells]
    split_ifs
    · rw [window_nil (by simp only [piece_length]; omega), nil_append]
    · rw [window_nil (by simp only [length_append, piece_length]; omega), nil_append]
  | case3 piece left right count start stack at_ to_ hin begin_ finish hlt ih =>
    obtain ⟨⟨hl, hr, he, hc, hn⟩, hs⟩ := forall_mem_cons.1 hs
    obtain ⟨ih, hpos⟩ := ih hs
    simp only at hl hc hn he
    have hat : at_ = start + left.cells.length := hl.add (by omega)
    have hto : to_ = at_ + piece.count := add_eq (by omega)
    have hoff : add piece.offset begin_ = piece.offset + begin_ := add_eq (by omega)
    refine ⟨?_, forall_mem_cons.2 ⟨Nat.sub_pos_of_lt hlt, hpos⟩⟩
    rw [flatMap_cons, flatMap_cons, ih, hoff]
    simp only [Frame.cells, if_true, ← hat]
    rw [← slice_cells piece (by omega)]
    simp only [finish, begin_, hto]
  | case4 piece left right count start stack at_ to_ hin begin_ finish hlt ih =>
    obtain ⟨⟨hl, hr, he, hc, hn⟩, hs⟩ := forall_mem_cons.1 hs
    obtain ⟨ih, hpos⟩ := ih hs
    simp only at hl hc hn he
    have hat : at_ = start + left.cells.length := hl.add (by omega)
    have hto : to_ = at_ + piece.count := add_eq (by omega)
    refine ⟨?_, hpos⟩
    rw [ih, flatMap_cons]
    simp only [Frame.cells, if_true, ← hat, window_zipIdx]
    rw [drop_eq_nil_of_le (by simp only [length_take, length_zipIdx, piece_length]; omega), nil_append]
  | case5 piece left right count start visit stack at_ to_ hin hv ih =>
    obtain ⟨⟨hl, hr, he, hc, hn⟩, hs⟩ := forall_mem_cons.1 hs
    simp only at hl hr hc hn he
    have hat : at_ = start + left.cells.length := hl.add (by omega)
    have hto : to_ = at_ + piece.count := add_eq (by omega)
    obtain ⟨ih, hpos⟩ := ih (push_good hl (by omega) (forall_mem_cons.2 ⟨⟨hl, hr, he, hc, hn⟩, push_good hr (by omega) hs⟩))
    refine ⟨?_, hpos⟩
    rw [ih, push_cells, flatMap_cons, push_cells, flatMap_cons]
    simp only [Frame.cells, if_true, hv, Bool.false_eq_true, if_false, hto, hat, window, zipIdx_append, filter_append,
      append_assoc, piece_length]

/-! ### The sequences of a program -/

/-- The sequences that `from` and `splice` make, where no data is read beyond `ends` and no sequence is longer than `length`. -/
inductive Built (ends length : Nat) : NbtSequence T → Prop
  | from_ {data : T} {count offset fresh : Nat} {s : NbtSequence T} :
    NbtSequence.from_ data count offset fresh = .ok s → offset + count ≤ ends → count ≤ length → Built ends length s
  | splice {s insert t : NbtSequence T} {at_ remove : Nat} {fresh : (Nat × Nat) × (Nat × Nat)} :
    Built ends length s → Built ends length insert → s.splice at_ remove insert fresh = .ok t → t.root.cells.length ≤ length →
      Built ends length t

theorem splice_cells (hb : ends + length ≤ MAX_SAFE_INTEGER) {s : NbtSequence T} (hs : s.root.Good ends)
    (hn : s.root.cells.length ≤ length) (at_ remove : Nat) (insert : NbtSequence T) (fresh : (Nat × Nat) × (Nat × Nat)) :
    if at_ + remove ≤ s.root.cells.length then
      ∃ t, s.splice at_ remove insert fresh = .ok t ∧
        t.root.cells = s.root.cells.take at_ ++ insert.root.cells ++ s.root.cells.drop (at_ + remove) ∧
        (insert.root.Good ends → t.root.cells.length ≤ length → t.root.Good ends)
    else s.splice at_ remove insert fresh = .error "Invalid NBT sequence splice." := by
  unfold MAX_SAFE_INTEGER at hb
  have hsize := hs.size
  simp only [NbtSequence.splice, NbtSequence.length, hsize, MAX_SAFE_INTEGER]
  split_ifs with hle hbad hbad
  · rw [add_eq (by omega)] at hbad
    omega
  · obtain ⟨⟨hl, htail⟩, hlg, htg⟩ := split_spec fresh.1 (by omega) hs (by omega) at_
    have htn : (split fresh.1 s.root at_).2.cells.length ≤ length := by
      rw [htail, length_drop]
      omega
    obtain ⟨⟨_, hright⟩, _, hrg⟩ := split_spec fresh.2 (by omega) htg (by omega) remove
    refine ⟨_, rfl, ?_, fun hi ht => ?_⟩
    · simp only [merge_cells, hl, hright, htail, drop_drop]
    · simp only [merge_cells, length_append] at ht
      apply merge_good _ _ (merge_good _ _ hlg hi (by omega)) hrg
      simp only [merge_cells, length_append]
      omega
  · rfl
  · exfalso
    by_cases hlarge : at_ + remove ≤ 2 ^ 53
    · rw [add_eq hlarge] at hbad
      omega
    · have := le_add (not_le.1 hlarge)
      omega

theorem Built.good (hb : ends + length ≤ MAX_SAFE_INTEGER) {s : NbtSequence T} (h : Built ends length s) :
    s.root.Good ends ∧ s.root.cells.length ≤ length := by
  induction h with
  | @from_ data count offset fresh s hs he hn =>
    simp only [NbtSequence.from_] at hs
    split_ifs at hs with hbad hzero
    · cases hs
      exact ⟨null_good, by simp⟩
    · cases hs
      unfold MAX_SAFE_INTEGER at hb
      exact ⟨node_good null_good null_good (Nat.pos_of_ne_zero hzero) he (by simp; omega) _, by simpa [node] using hn⟩
  | @splice s insert t at_ remove fresh _ _ hst hn ihs ihi =>
    have hspec := splice_cells hb ihs.1 ihs.2 at_ remove insert fresh
    split_ifs at hspec
    · obtain ⟨t', ht', _, hgood⟩ := hspec
      obtain rfl : t' = t := by simpa using ht'.symm.trans hst
      exact ⟨hgood ihi.1 hn, hn⟩
    · simp [hst] at hspec

/-- A sequence is the list of its cells where the end of its data and its length stay together within the safe integers: its
length, its splices and its slices are those of the list, and no piece is empty. -/
theorem persistent_sequence (hb : ends + length ≤ MAX_SAFE_INTEGER) {s : NbtSequence T} (h : Built ends length s) :
    s.length = s.root.cells.length ∧ (∀ piece ∈ s.root.pieces, 0 < piece.count) ∧
      (∀ at_ remove insert fresh,
        if at_ + remove ≤ s.root.cells.length then
          ∃ t, s.splice at_ remove insert fresh = .ok t ∧
            t.root.cells = s.root.cells.take at_ ++ insert.root.cells ++ s.root.cells.drop (at_ + remove)
        else s.splice at_ remove insert fresh = .error "Invalid NBT sequence splice.") ∧
      ∀ first limit, first + limit ≤ MAX_SAFE_INTEGER →
        ∃ page, s.slices first limit = .ok page ∧ (∀ slice ∈ page, 0 < slice.count) ∧
          page.flatMap NbtSlice.cells = (s.root.cells.zipIdx.take (first + limit)).drop first := by
  obtain ⟨hgood, hn⟩ := h.good hb
  refine ⟨hgood.size, hgood.pieces, fun at_ remove insert fresh => ?_, fun first limit hfl => ?_⟩
  · have hspec := splice_cells hb hgood hn at_ remove insert fresh
    split_ifs with hle
    · rw [if_pos hle] at hspec
      obtain ⟨t, ht, hcells, _⟩ := hspec
      exact ⟨t, ht, hcells⟩
    · rw [if_neg hle] at hspec
      exact hspec
  · unfold MAX_SAFE_INTEGER at hb hfl
    have hframes : ∀ frame ∈ push 0 [] s.root, frame.Good ends length := push_good hgood (by omega) (by simp)
    obtain ⟨hcells, hpos⟩ := slicesLoop_spec first (min s.length (first + limit)) (by omega) _ hframes
    refine ⟨_, if_neg ?_, ?_, ?_⟩
    · rw [add_eq (by omega), MAX_SAFE_INTEGER]
      omega
    · rw [add_eq (by omega)]
      exact hpos
    · have htake (cells : List (T × Nat)) :
          cells.zipIdx.take (min cells.length (first + limit)) = cells.zipIdx.take (first + limit) := by
        rw [take_eq_take_iff, length_zipIdx]
        omega
      rw [add_eq (by omega), hcells, push_cells, window_zipIdx, NbtSequence.length, hgood.size, Nat.sub_zero, Nat.sub_zero,
        htake, flatMap_nil, append_nil]

/-- Six cells of one array and two of another. -/
def body : NbtSequence Char := ⟨node ⟨'a', 10, 6⟩ .null .null 5⟩

def inserted : NbtSequence Char := ⟨node ⟨'b', 0, 2⟩ .null .null 3⟩

/-- Three cells inside the piece are replaced by two, and a page goes over both cuts. -/
theorem persistent_sequence_spliced : ∃ t page, body.splice 2 3 inserted ((1, 2), (8, 4)) = .ok t ∧
    t.root.cells = [('a', 10), ('a', 11), ('b', 0), ('b', 1), ('a', 15)] ∧ t.slices 1 4 = .ok page ∧
    page.flatMap NbtSlice.cells = [(('a', 11), 1), (('b', 0), 2), (('b', 1), 3), (('a', 15), 4)] := by
  have hb : 16 + 6 ≤ MAX_SAFE_INTEGER := by decide
  have hbody : Built 16 6 body := .from_ (show NbtSequence.from_ 'a' 6 10 5 = .ok body from rfl) (by decide) (by decide)
  have hinserted : Built 16 6 inserted :=
    .from_ (show NbtSequence.from_ 'b' 2 0 3 = .ok inserted from rfl) (by decide) (by decide)
  have hsplice := (persistent_sequence hb hbody).2.2.1 2 3 inserted ((1, 2), (8, 4))
  rw [if_pos (by decide)] at hsplice
  obtain ⟨t, ht, hcells⟩ := hsplice
  have hcells : t.root.cells = [('a', 10), ('a', 11), ('b', 0), ('b', 1), ('a', 15)] := hcells
  have hspliced : Built 16 6 t := hbody.splice hinserted ht (by rw [hcells]; decide)
  obtain ⟨page, hpage, -, hslices⟩ := (persistent_sequence hb hspliced).2.2.2 1 4 (by decide)
  exact ⟨t, page, ht, hcells, hpage, by rw [hslices, hcells]; rfl⟩

/-- A tree of `n + 1` pieces of `count` cells. -/
def pieces (count : Nat) : Nat → SequenceNode Unit
  | 0 => node ⟨(), 0, count⟩ .null .null 0
  | n + 1 => node ⟨(), 0, count⟩ (pieces count n) .null 0

theorem pieces_length (count n : Nat) : (pieces count n).cells.length = (n + 1) * count := by
  induction n with
  | zero => simp [pieces, node]
  | succ n ih =>
    simp only [pieces, node, cells_node, cells_null, length_append, piece_length, length_nil, ih]
    rw [Nat.add_zero]
    exact (Nat.succ_mul _ _).symm

theorem pieces_from {count : Nat} (h : 0 < count) (hs : count ≤ MAX_SAFE_INTEGER) :
    NbtSequence.from_ () count 0 0 = .ok ⟨pieces count 0⟩ := by
  simp only [NbtSequence.from_, pieces, hs.not_gt, h.ne', if_false]

theorem pieces_splice {count : Nat} (h : 0 < count) (hs : count ≤ MAX_SAFE_INTEGER) (n : Nat) :
    NbtSequence.splice ⟨pieces count 0⟩ 0 0 ⟨pieces count n⟩ ((0, 0), (0, 0)) = .ok ⟨pieces count (n + 1)⟩ := by
  have hadd : add 0 count = count := by
    unfold MAX_SAFE_INTEGER at hs
    rw [add_eq (by omega), Nat.zero_add]
  have hsplit : split (0, 0) (pieces count 0) 0 = (.null, pieces count 0) := by simp [pieces, node, split, size, hadd]
  have hmerge (t : SequenceNode Unit) : merge t .null = t := by cases t <;> simp [merge]
  have hzero : add 0 0 = 0 := add_eq (by omega)
  simp only [NbtSequence.splice, hsplit, hzero, Nat.not_lt_zero, or_self, if_false]
  cases n <;> simp [pieces, node, merge, hmerge]

/-- Three pieces of the greatest length no longer add up. -/
theorem length_rounds :
    ¬ ∀ (ends length : Nat) (s : NbtSequence Unit), Built ends length s → s.length = s.root.cells.length := by
  intro h
  have hpos : 0 < MAX_SAFE_INTEGER := by simp [MAX_SAFE_INTEGER]
  have hbound : 3 * MAX_SAFE_INTEGER ≤ 2 ^ 55 := by simp [MAX_SAFE_INTEGER]
  have hlong (n : Nat) (hn : n ≤ 2) : Built (2 ^ 55) (2 ^ 55) ⟨pieces MAX_SAFE_INTEGER n⟩ := by
    have h0 : Built (2 ^ 55) (2 ^ 55) ⟨pieces MAX_SAFE_INTEGER 0⟩ := .from_ (pieces_from hpos le_rfl) (by omega) (by omega)
    induction n with
    | zero => exact h0
    | succ n ih =>
      refine .splice h0 (ih (by omega)) (pieces_splice hpos le_rfl n) ?_
      rw [pieces_length]
      exact (Nat.mul_le_mul_right _ (by omega)).trans hbound
  have hlength := h _ _ _ (hlong 2 le_rfl)
  rw [pieces_length] at hlength
  revert hlength
  decide +kernel

end Cantrip.Nbt.Persistent
