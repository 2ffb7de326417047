import Mathlib.Algebra.Order.Ring.Nat
import Mathlib.Data.List.Lex
import Mathlib.Data.List.Sort
import Mathlib.Order.Fin.Basic

/-!
# The persistent map of an edit (`nbt/src/edit/persistent.ts`)

A map is a search tree on its keys whose nodes come in the order of the hashes of their keys, the keys themselves deciding
between equal hashes. What a tree holds is read from its bindings in order (`bindings`): `setMap` and `remove` change them
as a sorted list is changed, a rotation leaves them as they are, and two trees with the same bindings in the order of the
hashes are one (`Heap.unique`).
-/

namespace Cantrip.Nbt.Persistent

open List

/-- UTF-16 units, which JavaScript compares from the left. -/
def Key : Type := List (Fin (2 ^ 16))

instance : LinearOrder Key := inferInstanceAs (LinearOrder (List (Fin (2 ^ 16))))

/-- FNV-1a in 32 bits. -/
def hash (value : Key) : Nat :=
  (List.foldl (fun result unit => (result ^^^ UInt32.ofNat unit.val) * 16777619) (2166136261 : UInt32) value).toNat

inductive MapNode (T : Type)
  | null
  | node (key : Key) (value : T) (priority : Nat) (left right : MapNode T)

/-- `before`, of the priority and the key of two nodes. -/
def before (a b : Nat × Key) : Prop := a.1 < b.1 ∨ a.1 = b.1 ∧ a.2 < b.2

instance (a b : Nat × Key) : Decidable (before a b) := inferInstanceAs (Decidable (_ ∨ _))

variable {T : Type}

def mergeMap : MapNode T → MapNode T → MapNode T
  | .null, b => b
  | a, .null => a
  | .node ka va pa la ra, .node kb vb pb lb rb =>
    if before (pa, ka) (pb, kb) then .node ka va pa la (mergeMap ra (.node kb vb pb lb rb))
    else .node kb vb pb (mergeMap (.node ka va pa la ra) lb) rb

def setMap (root : MapNode T) (key : Key) (value : T) : MapNode T :=
  match root with
  | .null => .node key value (hash key) .null .null
  | .node k v p l r =>
    if key = k then .node k value p l r
    else if key < k then
      match setMap l key value with
      | .node kl vl pl ll rl =>
        if before (pl, kl) (p, k) then .node kl vl pl ll (.node k v p rl r) else .node k v p (.node kl vl pl ll rl) r
      | .null => .null
    else
      match setMap r key value with
      | .node kr vr pr lr rr =>
        if before (pr, kr) (p, k) then .node kr vr pr (.node k v p l lr) rr else .node k v p l (.node kr vr pr lr rr)
      | .null => .null

/-- `remove` of `delete`. -/
def remove (key : Key) : MapNode T → MapNode T
  | .null => .null
  | .node k v p l r =>
    if k = key then mergeMap l r else if key < k then .node k v p (remove key l) r else .node k v p l (remove key r)

structure NbtPersistentMap (T : Type) where
  root : MapNode T := .null

/-- The loop of `get`. -/
def MapNode.get (key : Key) : MapNode T → Option T
  | .null => none
  | .node k v _ l r => if k = key then some v else if key < k then l.get key else r.get key

def MapNode.size : MapNode T → Nat
  | .null => 0
  | .node _ _ _ l r => l.size + r.size + 1

/-- The loop of `entries`, from a node and a stack of nodes whose left side is done: the key, the value and the right side of
each. -/
def walk (node : MapNode T) (stack : List (Key × T × MapNode T)) : List (Key × T) :=
  match node, stack with
  | .node k v _ l r, stack => walk l ((k, v, r) :: stack)
  | .null, (k, v, r) :: stack => (k, v) :: walk r stack
  | .null, [] => []
  termination_by 2 * node.size + (stack.map fun frame => 2 * frame.2.2.size + 1).sum
  decreasing_by
    · simp only [MapNode.size, map_cons, sum_cons]
      omega
    · simp only [MapNode.size, map_cons, sum_cons]
      omega

namespace NbtPersistentMap

def get (m : NbtPersistentMap T) (key : Key) : Option T := m.root.get key

def set (m : NbtPersistentMap T) (key : Key) (value : T) : NbtPersistentMap T := ⟨setMap m.root key value⟩

def delete (m : NbtPersistentMap T) (key : Key) : NbtPersistentMap T := ⟨remove key m.root⟩

def entries (m : NbtPersistentMap T) : List (Key × T) := walk m.root []

inductive Reachable : NbtPersistentMap T → Prop
  | empty : Reachable {}
  | set {m : NbtPersistentMap T} (h : Reachable m) (key : Key) (value : T) : Reachable (m.set key value)
  | delete {m : NbtPersistentMap T} (h : Reachable m) (key : Key) : Reachable (m.delete key)

end NbtPersistentMap

/-- The order of the nodes of two keys. -/
def Earlier (a b : Key) : Prop := before (hash a, a) (hash b, b)

theorem Earlier.trans {a b c : Key} (h : Earlier a b) (h' : Earlier b c) : Earlier a c := by
  unfold Earlier before at *
  obtain h | h := h <;> obtain h' | h' := h'
  · exact .inl (h.trans h')
  · exact .inl (h'.1 ▸ h)
  · exact .inl (h.1 ▸ h')
  · exact .inr ⟨h.1.trans h'.1, h.2.trans h'.2⟩

theorem Earlier.irrefl (a : Key) : ¬ Earlier a a := by
  rintro (h | h)
  · exact lt_irrefl _ h
  · exact lt_irrefl _ h.2

theorem earlier_of_not {a b : Key} (hne : a ≠ b) (h : ¬ Earlier a b) : Earlier b a := by
  unfold Earlier before at *
  rw [not_or, not_lt, not_and] at h
  obtain hlt | heq := lt_or_eq_of_le h.1
  · exact .inl hlt
  · exact .inr ⟨heq, lt_of_le_of_ne (not_lt.mp (h.2 heq.symm)) hne.symm⟩

/-! ## Bindings -/

namespace MapNode

/-- From the left to the right. -/
def bindings : MapNode T → List (Key × T)
  | .null => []
  | .node k v _ l r => l.bindings ++ (k, v) :: r.bindings

/-- A search tree. -/
def Sorted (t : MapNode T) : Prop := t.bindings.Pairwise fun a b => a.1 < b.1

/-- The root comes before every other node of a subtree. -/
def Heap : MapNode T → Prop
  | .null => True
  | .node k _ p l r => p = hash k ∧ (∀ e ∈ l.bindings ++ r.bindings, Earlier k e.1) ∧ l.Heap ∧ r.Heap

variable {k key : Key} {v value : T} {p : Nat} {l r t : MapNode T}

theorem sorted_node : (node k v p l r).Sorted ↔
    l.Sorted ∧ r.Sorted ∧ (∀ e ∈ l.bindings, e.1 < k) ∧ (∀ e ∈ r.bindings, k < e.1) ∧ ∀ e ∈ l.bindings, ∀ e' ∈ r.bindings,
    e.1 < e'.1 := by
  unfold Sorted
  rw [bindings, pairwise_append, pairwise_cons]
  simp only [mem_cons, forall_eq_or_imp]
  grind

theorem get_eq_some (h : t.Sorted) : t.get key = some value ↔ (key, value) ∈ t.bindings := by
  induction t with
  | null => simp [get, bindings]
  | node k v p l r ihl ihr =>
    obtain ⟨hl, hr, hleft, hright, -⟩ := sorted_node.mp h
    rw [get, bindings, mem_append, mem_cons]
    split_ifs with heq hlt
    · subst heq
      constructor
      · exact fun hv => .inr (.inl (by rw [Option.some.inj hv]))
      · rintro (hmem | hmem | hmem)
        · exact absurd (hleft _ hmem) (lt_irrefl _)
        · rw [(Prod.mk.inj hmem).2]
        · exact absurd (hright _ hmem) (lt_irrefl _)
    · rw [ihl hl]
      constructor
      · exact .inl
      · rintro (hmem | hmem | hmem)
        · exact hmem
        · exact absurd (Prod.mk.inj hmem).1.symm heq
        · exact absurd (hright _ hmem) (lt_asymm hlt)
    · rw [ihr hr]
      constructor
      · exact fun hmem => .inr (.inr hmem)
      · rintro (hmem | hmem | hmem)
        · exact absurd (hleft _ hmem) hlt
        · exact absurd (Prod.mk.inj hmem).1.symm heq
        · exact hmem

theorem bindings_mergeMap (a b : MapNode T) : (mergeMap a b).bindings = a.bindings ++ b.bindings := by
  fun_induction mergeMap a b with
  | case1 b => rfl
  | case2 a => simp [bindings]
  | case3 ka va pa la ra kb vb pb lb rb hbefore ih => simp [bindings, ih]
  | case4 ka va pa la ra kb vb pb lb rb hbefore ih => simp [bindings, ih]

theorem bindings_remove (h : t.Sorted) : (remove key t).bindings = t.bindings.filter fun e => e.1 ≠ key := by
  induction t with
  | null => rfl
  | node k v p l r ihl ihr =>
    obtain ⟨hl, hr, hleft, hright, -⟩ := sorted_node.mp h
    have hkeep : ∀ es : List (Key × T), (∀ e ∈ es, e.1 ≠ key) → es.filter (fun e => e.1 ≠ key) = es := fun es hes =>
      filter_eq_self.mpr fun e he => decide_eq_true (hes e he)
    rw [remove, bindings, filter_append, filter_cons]
    obtain hlt | rfl | hgt := lt_trichotomy key k
    · rw [if_neg hlt.ne', if_pos hlt, bindings, ihl hl, hkeep r.bindings fun e he => (hlt.trans (hright e he)).ne']
      simp [hlt.ne']
    · rw [if_pos rfl, bindings_mergeMap, hkeep _ fun e he => (hleft e he).ne, hkeep _ fun e he => (hright e he).ne']
      simp
    · rw [if_neg hgt.ne, if_neg hgt.not_gt, bindings, ihr hr, hkeep l.bindings fun e he => ((hleft e he).trans hgt).ne]
      simp [hgt.ne]

/-! ### `setMap` -/

def put (key : Key) (value : T) (es : List (Key × T)) : List (Key × T) :=
  (es.filter fun e => e.1 < key) ++ (key, value) :: es.filter fun e => key < e.1

theorem setMap_ne_null : setMap t key value ≠ .null := by
  induction t with
  | null => simp [setMap]
  | node k v p l r ihl ihr =>
    rw [setMap]
    split_ifs
    · simp
    · split
      · split_ifs <;> simp
      · next hnull => exact absurd hnull ihl
    · split
      · split_ifs <;> simp
      · next hnull => exact absurd hnull ihr

theorem setMap_node : ∃ root, setMap (node k v p l r) key value = root ∧
    (key = k → root = node k value p l r) ∧
    (key < k → ∃ kl vl pl ll rl, setMap l key value = node kl vl pl ll rl ∧
      (before (pl, kl) (p, k) ∧ root = node kl vl pl ll (node k v p rl r) ∨
        ¬ before (pl, kl) (p, k) ∧ root = node k v p (node kl vl pl ll rl) r)) ∧
    (k < key → ∃ kr vr pr lr rr, setMap r key value = node kr vr pr lr rr ∧
      (before (pr, kr) (p, k) ∧ root = node kr vr pr (node k v p l lr) rr ∨
        ¬ before (pr, kr) (p, k) ∧ root = node k v p l (node kr vr pr lr rr))) := by
  refine ⟨_, rfl, ?_, ?_, ?_⟩
  · rintro rfl
    rw [setMap, if_pos rfl]
  · intro hlt
    rw [setMap, if_neg hlt.ne, if_pos hlt]
    cases hl : setMap l key value with
    | null => exact absurd hl setMap_ne_null
    | node kl vl pl ll rl =>
      refine ⟨kl, vl, pl, ll, rl, rfl, ?_⟩
      by_cases hbefore : before (pl, kl) (p, k)
      · exact .inl ⟨hbefore, if_pos hbefore⟩
      · exact .inr ⟨hbefore, if_neg hbefore⟩
  · intro hgt
    rw [setMap, if_neg hgt.ne', if_neg hgt.not_gt]
    cases hr : setMap r key value with
    | null => exact absurd hr setMap_ne_null
    | node kr vr pr lr rr =>
      refine ⟨kr, vr, pr, lr, rr, rfl, ?_⟩
      by_cases hbefore : before (pr, kr) (p, k)
      · exact .inl ⟨hbefore, if_pos hbefore⟩
      · exact .inr ⟨hbefore, if_neg hbefore⟩

theorem bindings_setMap (h : t.Sorted) : (setMap t key value).bindings = put key value t.bindings := by
  induction t with
  | null => rfl
  | node k v p l r ihl ihr =>
    obtain ⟨hl, hr, hleft, hright, -⟩ := sorted_node.mp h
    obtain ⟨root, hroot, heq, hless, hmore⟩ := @setMap_node T k key v value p l r
    have hall : ∀ (es : List (Key × T)) (keep : Key → Bool), (∀ e ∈ es, keep e.1) → es.filter (fun e => keep e.1) = es :=
      fun es keep hes => filter_eq_self.mpr hes
    have hnone : ∀ (es : List (Key × T)) (keep : Key → Bool), (∀ e ∈ es, ¬ keep e.1) → es.filter (fun e => keep e.1) = [] :=
      fun es keep hes => filter_eq_nil_iff.mpr hes
    rw [hroot, put, bindings, filter_append, filter_append, filter_cons, filter_cons]
    obtain hlt | rfl | hgt := lt_trichotomy key k
    · obtain ⟨kl, vl, pl, ll, rl, hset, hcases⟩ := hless hlt
      have hbindings := ihl hl
      rw [hset, put] at hbindings
      rw [hnone r.bindings (· < key) fun e he => by simpa using (hlt.trans (hright e he)).le,
        hall r.bindings (key < ·) fun e he => by simpa using hlt.trans (hright e he)]
      simp only [hlt.not_gt, hlt, decide_true, decide_false, if_true, if_false, Bool.false_eq_true, append_nil]
      rw [← cons_append, ← append_assoc, ← hbindings]
      obtain ⟨-, rfl⟩ | ⟨-, rfl⟩ := hcases
      · simp [bindings]
      · simp [bindings]
    · rw [heq rfl, hall l.bindings (· < key) fun e he => by simpa using hleft e he,
        hnone l.bindings (key < ·) fun e he => by simpa using (hleft e he).le,
        hnone r.bindings (· < key) fun e he => by simpa using (hright e he).le,
        hall r.bindings (key < ·) fun e he => by simpa using hright e he]
      simp [bindings]
    · obtain ⟨kr, vr, pr, lr, rr, hset, hcases⟩ := hmore hgt
      have hbindings := ihr hr
      rw [hset, put] at hbindings
      rw [hall l.bindings (· < key) fun e he => by simpa using (hleft e he).trans hgt,
        hnone l.bindings (key < ·) fun e he => by simpa using ((hleft e he).trans hgt).le]
      simp only [hgt.not_gt, hgt, decide_true, decide_false, if_true, if_false, Bool.false_eq_true, nil_append]
      rw [append_assoc, cons_append, ← hbindings]
      obtain ⟨-, rfl⟩ | ⟨-, rfl⟩ := hcases
      · simp [bindings]
      · simp [bindings]

theorem mem_put {es : List (Key × T)} {e : Key × T} : e ∈ put key value es ↔ e = (key, value) ∨ e ∈ es ∧ e.1 ≠ key := by
  rw [put, mem_append, mem_cons, mem_filter, mem_filter]
  simp only [decide_eq_true_eq, ne_iff_lt_or_gt]
  tauto

theorem sorted_put {es : List (Key × T)} (h : es.Pairwise fun a b => a.1 < b.1) : (put key value es).Pairwise fun a b =>
    a.1 < b.1 := by
  refine pairwise_append.mpr ⟨h.filter _, pairwise_cons.mpr ⟨fun e he => ?_, h.filter _⟩, fun a ha b hb => ?_⟩
  · exact of_decide_eq_true (mem_filter.mp he).2
  · have hless := of_decide_eq_true (mem_filter.mp ha).2
    obtain rfl | hmem := mem_cons.mp hb
    · exact hless
    · exact hless.trans (of_decide_eq_true (mem_filter.mp hmem).2)

/-! ### The heap -/

theorem Heap.earlier {e : Key × T} (h : (node k v p l r).Heap) (he : e ∈ (node k v p l r).bindings) : e = (k, v) ∨
    Earlier k e.1 := by
  obtain hl | he := mem_append.mp he
  · exact .inr (h.2.1 e (mem_append_left _ hl))
  · obtain rfl | hr := mem_cons.mp he
    · exact .inl rfl
    · exact .inr (h.2.1 e (mem_append_right _ hr))

theorem Heap.after {a : Key} {e : Key × T} (h : (node k v p l r).Heap) (ha : Earlier a k) (he : e ∈ (node k v p l r).bindings) :
    Earlier a e.1 := by
  obtain rfl | hlater := h.earlier he
  · exact ha
  · exact ha.trans hlater

theorem heap_mergeMap {a b : MapNode T} (ha : a.Heap) (hb : b.Heap) (hne : ∀ e ∈ a.bindings, ∀ e' ∈ b.bindings, e.1 ≠ e'.1) :
    (mergeMap a b).Heap := by
  fun_induction mergeMap a b with
  | case1 b => exact hb
  | case2 a => exact ha
  | case3 ka va pa la ra kb vb pb lb rb hbefore ih =>
    obtain ⟨rfl, hroot, hla, hra⟩ := ha
    rw [hb.1] at hbefore
    have hfirst : Earlier ka kb := hbefore
    refine ⟨rfl, fun e he => ?_, hla, ih hra hb fun e he => hne e (by simp [bindings, he])⟩
    rw [bindings_mergeMap, ← append_assoc] at he
    obtain hold | hnew := mem_append.mp he
    · exact hroot e hold
    · exact hb.after hfirst hnew
  | case4 ka va pa la ra kb vb pb lb rb hbefore ih =>
    have hnot : ¬ Earlier ka kb := fun h => hbefore (by rw [ha.1, hb.1]; exact h)
    have hfirst : Earlier kb ka := earlier_of_not (hne (ka, va) (by simp [bindings]) (kb, vb) (by simp [bindings])) hnot
    obtain ⟨rfl, hroot, hlb, hrb⟩ := hb
    refine ⟨rfl, fun e he => ?_, ih ha hlb fun e he e' he' => hne e he e' (by simp [bindings, he']), hrb⟩
    rw [bindings_mergeMap, append_assoc] at he
    obtain hnew | hold := mem_append.mp he
    · exact ha.after hfirst hnew
    · exact hroot e hold

theorem heap_remove (hs : t.Sorted) (h : t.Heap) : (remove key t).Heap := by
  induction t with
  | null => exact h
  | node k v p l r ihl ihr =>
    obtain ⟨hl, hr, -, -, hacross⟩ := sorted_node.mp hs
    obtain ⟨hp, hroot, hheapl, hheapr⟩ := h
    rw [remove]
    split_ifs
    · exact heap_mergeMap hheapl hheapr fun e he e' he' => (hacross e he e' he').ne
    · refine ⟨hp, fun e he => hroot e ?_, ihl hl hheapl, hheapr⟩
      rw [bindings_remove hl] at he
      exact mem_append.mpr ((mem_append.mp he).imp_left mem_of_mem_filter)
    · refine ⟨hp, fun e he => hroot e ?_, hheapl, ihr hr hheapr⟩
      rw [bindings_remove hr] at he
      exact mem_append.mpr ((mem_append.mp he).imp_right mem_of_mem_filter)

theorem heap_side {s : MapNode T} {k' : Key} {v' : T} {p' : Nat} {l' r' : MapNode T}
    (hset : setMap s key value = node k' v' p' l' r')
    (hs : s.Sorted) (hheap : (node k' v' p' l' r').Heap) (hroot : ∀ e ∈ s.bindings, Earlier k e.1) (hne : key ≠ k) :
    (before (p', k') (hash k, k) → Earlier k' k ∧ ∀ e ∈ l'.bindings ++ r'.bindings, Earlier k e.1) ∧
      (¬ before (p', k') (hash k, k) → ∀ e ∈ (node k' v' p' l' r').bindings, Earlier k e.1) := by
  have hmem : ∀ e ∈ (node k' v' p' l' r').bindings, e = (key, value) ∨ Earlier k e.1 := fun e he => by
    rw [← hset, bindings_setMap hs, mem_put] at he
    exact he.imp_right fun hold => hroot e hold.1
  have hself : (k', v') ∈ (node k' v' p' l' r').bindings := by simp [bindings]
  rw [hheap.1]
  constructor
  · intro hbefore
    have hkey : k' = key := by
      obtain heq | hlater := hmem _ hself
      · exact (Prod.mk.inj heq).1
      · exact absurd (Earlier.trans hlater hbefore) (Earlier.irrefl k)
    refine ⟨hbefore, fun e he => ?_⟩
    obtain rfl | hlater := hmem e (by simp only [bindings, mem_append, mem_cons] at he ⊢; tauto)
    · exact absurd (hheap.2.1 _ he) (hkey ▸ Earlier.irrefl key)
    · exact hlater
  · intro hnot e he
    have hk' : Earlier k k' := by
      obtain heq | hlater := hmem _ hself
      · obtain ⟨rfl, -⟩ := Prod.mk.inj heq
        exact earlier_of_not hne hnot
      · exact hlater
    exact hheap.after hk' he

theorem heap_setMap (hs : t.Sorted) (h : t.Heap) : (setMap t key value).Heap := by
  induction t with
  | null => exact ⟨rfl, by simp [bindings], trivial, trivial⟩
  | node k v p l r ihl ihr =>
    obtain ⟨hl, hr, -, -, -⟩ := sorted_node.mp hs
    obtain ⟨rfl, hroot, hheapl, hheapr⟩ := h
    have hleft : ∀ e ∈ l.bindings, Earlier k e.1 := fun e he => hroot e (mem_append_left _ he)
    have hright : ∀ e ∈ r.bindings, Earlier k e.1 := fun e he => hroot e (mem_append_right _ he)
    obtain ⟨root, hset, heq, hless, hmore⟩ := @setMap_node T k key v value (hash k) l r
    rw [hset]
    obtain hlt | rfl | hgt := lt_trichotomy key k
    · obtain ⟨kl, vl, pl, ll, rl, hside, hcases⟩ := hless hlt
      have hheap := ihl hl hheapl
      rw [hside] at hheap
      obtain ⟨hrotates, hstays⟩ := heap_side hside hl hheap hleft hlt.ne
      obtain ⟨hbefore, rfl⟩ | ⟨hnot, rfl⟩ := hcases
      · obtain ⟨hfirst, hbelow⟩ := hrotates hbefore
        have hunder : (node k v (hash k) rl r).Heap :=
          ⟨rfl, fun e he => (mem_append.mp he).elim (fun he => hbelow e (mem_append_right _ he)) (hright e), hheap.2.2.2,
            hheapr⟩
        refine ⟨hheap.1, fun e he => ?_, hheap.2.2.1, hunder⟩
        exact (mem_append.mp he).elim (fun he => hheap.2.1 e (mem_append_left _ he)) (hunder.after hfirst)
      · exact ⟨rfl, fun e he => (mem_append.mp he).elim (hstays hnot e) (hright e), hheap, hheapr⟩
    · rw [heq rfl]
      exact ⟨rfl, hroot, hheapl, hheapr⟩
    · obtain ⟨kr, vr, pr, lr, rr, hside, hcases⟩ := hmore hgt
      have hheap := ihr hr hheapr
      rw [hside] at hheap
      obtain ⟨hrotates, hstays⟩ := heap_side hside hr hheap hright hgt.ne'
      obtain ⟨hbefore, rfl⟩ | ⟨hnot, rfl⟩ := hcases
      · obtain ⟨hfirst, hbelow⟩ := hrotates hbefore
        have hunder : (node k v (hash k) l lr).Heap :=
          ⟨rfl, fun e he => (mem_append.mp he).elim (hleft e) (fun he => hbelow e (mem_append_left _ he)), hheapl, hheap.2.2.1⟩
        refine ⟨hheap.1, fun e he => ?_, hunder, hheap.2.2.2⟩
        exact (mem_append.mp he).elim (hunder.after hfirst) (fun he => hheap.2.1 e (mem_append_right _ he))
      · exact ⟨rfl, fun e he => (mem_append.mp he).elim (hleft e) (hstays hnot e), hheapl, hheap⟩

/-! ### One shape -/

theorem Heap.unique {t' : MapNode T} (hs : t.Sorted) (h : t.Heap) (h' : t'.Heap) (hsame : t.bindings = t'.bindings) :
    t = t' := by
  induction t generalizing t' with
  | null =>
    cases t' with
    | null => rfl
    | node => simp [bindings] at hsame
  | node k v p l r ihl ihr =>
    cases t' with
    | null => simp [bindings] at hsame
    | node k' v' p' l' r' =>
      obtain ⟨hl, hr, hleft, hright, -⟩ := sorted_node.mp hs
      have hself : (k, v) ∈ (node k v p l r).bindings := by simp [bindings]
      have hother : (k', v') ∈ (node k v p l r).bindings := by rw [hsame]; simp [bindings]
      -- both roots come first
      have hroots : (k', v') = (k, v) := by
        obtain heq | hlater := h.earlier hother
        · exact heq
        · obtain heq | hlater' := h'.earlier (hsame ▸ hself)
          · exact heq.symm
          · exact absurd (hlater.trans hlater') (Earlier.irrefl k)
      rw [bindings, bindings, hroots] at hsame
      obtain ⟨hsamel, -, hsamer⟩ := (append_cons_inj_of_notMem (fun hmem => lt_irrefl _ (hleft _ hmem))
        fun hmem => lt_irrefl _ (hright _ hmem)).mp hsame
      obtain ⟨rfl, rfl⟩ := Prod.mk.inj hroots
      rw [ihl hl h.2.2.1 h'.2.2.1 hsamel, ihr hr h.2.2.2 h'.2.2.2 hsamer, h.1, h'.1]

end MapNode

theorem walk_eq (node : MapNode T) (stack : List (Key × T × MapNode T)) :
    walk node stack = node.bindings ++ stack.flatMap fun frame => (frame.1, frame.2.1) :: frame.2.2.bindings := by
  fun_induction walk node stack with
  | case1 stack k v p l r ih => simp [ih, MapNode.bindings]
  | case2 k v r stack ih => simp [ih, MapNode.bindings]
  | case3 => simp [MapNode.bindings]

namespace NbtPersistentMap

variable {m : NbtPersistentMap T}

theorem Reachable.sorted (h : m.Reachable) : m.root.Sorted := by
  induction h with
  | empty => exact List.Pairwise.nil
  | set _ key value ih =>
    rw [NbtPersistentMap.set, MapNode.Sorted, MapNode.bindings_setMap ih]
    exact MapNode.sorted_put ih
  | delete _ key ih =>
    rw [NbtPersistentMap.delete, MapNode.Sorted, MapNode.bindings_remove ih]
    exact ih.filter _

theorem Reachable.heap (h : m.Reachable) : m.root.Heap := by
  induction h with
  | empty => trivial
  | set h key value ih => exact MapNode.heap_setMap h.sorted ih
  | delete h key ih => exact MapNode.heap_remove h.sorted ih

theorem entries_eq (m : NbtPersistentMap T) : m.entries = m.root.bindings := by
  rw [entries, walk_eq, flatMap_nil, append_nil]

theorem get_eq_some (h : m.Reachable) {key : Key} {value : T} : m.get key = some value ↔ (key, value) ∈ m.entries := by
  rw [entries_eq]
  exact MapNode.get_eq_some h.sorted

theorem persistent_map (h : m.Reachable) : m.root.Sorted ∧ m.root.Heap ∧ (∀ key value, (m.set key value).get key = some value) ∧
    (∀ key value j, j ≠ key → (m.set key value).get j = m.get j) ∧ (∀ key j, j ≠ key → (m.delete key).get j = m.get j) ∧
    (∀ key, (m.delete key).get key = none) ∧ (m.entries.Pairwise fun a b => a.1 < b.1) ∧
    (∀ key value, (key, value) ∈ m.entries ↔ m.get key = some value) ∧
    ∀ m' : NbtPersistentMap T, m'.Reachable → (∀ key, m'.get key = m.get key) → m' = m := by
  have hset : ∀ key value j v, (m.set key value).get j = some v ↔ j = key ∧ v = value ∨ m.get j = some v ∧ j ≠ key := by
    intro key value j v
    rw [get_eq_some (h.set key value), get_eq_some h, entries_eq, entries_eq, set, MapNode.bindings_setMap h.sorted,
      MapNode.mem_put, Prod.mk.injEq]
  have hdelete : ∀ key j v, (m.delete key).get j = some v ↔ m.get j = some v ∧ j ≠ key := by
    intro key j v
    rw [get_eq_some (h.delete key), get_eq_some h, entries_eq, entries_eq, delete, MapNode.bindings_remove h.sorted,
      mem_filter, decide_eq_true_eq]
  refine ⟨h.sorted, h.heap, fun key value => (hset key value key value).mpr (.inl ⟨rfl, rfl⟩), fun key value j hj => ?_,
    fun key j hj => ?_, fun key => ?_, ?_, fun key value => (get_eq_some h).symm, fun m' h' hsame => ?_⟩
  · apply Option.ext
    intro v
    rw [hset]
    simp [hj]
  · apply Option.ext
    intro v
    rw [hdelete]
    simp [hj]
  · apply Option.eq_none_iff_forall_not_mem.mpr
    intro v hv
    exact ((hdelete key key v).mp hv).2 rfl
  · rw [entries_eq]
    exact h.sorted
  · have hbindings : m'.root.bindings = m.root.bindings := by
      have : Std.Irrefl fun a b : Key × T => a.1 < b.1 := ⟨fun a => lt_irrefl a.1⟩
      refine List.Pairwise.eq_of_mem_iff h'.sorted h.sorted fun e => ?_
      rw [← entries_eq, ← entries_eq, ← get_eq_some h, ← get_eq_some h', hsame]
    have hroot := MapNode.Heap.unique h'.sorted h'.heap h.heap hbindings
    obtain ⟨root⟩ := m
    obtain ⟨root'⟩ := m'
    exact congrArg mk hroot

def letter (unit : Fin (2 ^ 16)) : Key := [unit]

/-- Four letters in order, with `e` above two sides, and three of them in another order. -/
def sorted : NbtPersistentMap Nat :=
  (((({} : NbtPersistentMap Nat).set (letter 97) 1).set (letter 99) 2).set (letter 101) 3).set (letter 103) 4

def shuffled : NbtPersistentMap Nat :=
  ((({} : NbtPersistentMap Nat).set (letter 103) 4).set (letter 99) 2).set (letter 97) 1

theorem persistent_map_letters :
    (∃ p l r, sorted.root = .node (letter 101) 3 p l r ∧ l ≠ .null ∧ r ≠ .null) ∧ sorted.delete (letter 101) = shuffled := by
  have hsorted : sorted.Reachable := (((Reachable.empty.set _ _).set _ _).set _ _).set _ _
  have hshuffled : shuffled.Reachable := ((Reachable.empty.set _ _).set _ _).set _ _
  have hset {m : NbtPersistentMap Nat} (h : m.Reachable) (key : Key) (value : Nat) (j : Key) :
      (m.set key value).get j = if j = key then some value else m.get j := by
    obtain ⟨-, -, hself, hother, -⟩ := persistent_map h
    split
    · next hj => rw [hj, hself]
    · next hj => exact hother key value j hj
  obtain ⟨-, -, -, -, hother, hself, -, -, -⟩ := persistent_map hsorted
  refine ⟨⟨hash (letter 101), _, _, rfl, nofun, nofun⟩,
    (persistent_map hshuffled).2.2.2.2.2.2.2.2 _ (hsorted.delete _) fun key => ?_⟩
  by_cases hkey : key = letter 101
  · subst hkey
    rw [hself]
    rfl
  · rw [hother _ _ hkey]
    unfold sorted shuffled
    rw [hset (((Reachable.empty.set _ _).set _ _).set _ _), hset ((Reachable.empty.set _ _).set _ _),
      hset (Reachable.empty.set _ _), hset .empty, hset ((Reachable.empty.set _ _).set _ _), hset (Reachable.empty.set _ _),
      hset .empty, if_neg hkey]
    have hac : letter 97 ≠ letter 99 := by decide
    have hag : letter 97 ≠ letter 103 := by decide
    have hcg : letter 99 ≠ letter 103 := by decide
    split_ifs <;> simp_all

end NbtPersistentMap

end Cantrip.Nbt.Persistent
