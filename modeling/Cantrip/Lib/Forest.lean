import Mathlib.Algebra.BigOperators.Group.Finset.Basic
import Mathlib.Logic.Function.Basic

/-!
# Sums up a forest

The keys of a finite forest point to their parents. `drain` adds the value of each key to its parent's once all
children of the key have been added to it, with a stack of the keys that are ready. In a forest every key gets its
turn, and every value becomes the sum over the key's whole subtree (`drain_total`).
-/

namespace Cantrip.Lib

open List Option Function

variable {κ : Type} [DecidableEq κ]

/-- Values that are being summed up: `left` counts the children that are still to come, `queue` is a stack. -/
structure Sums (κ : Type) where
  value : κ → Nat
  left : κ → Nat
  queue : List κ
  processed : Nat

/-- The key on top of the stack is added to its parent. -/
def Sums.add (parent : κ → Option κ) (s : Sums κ) (k : κ) (queue : List κ) : Sums κ :=
  match parent k with
  | none => { s with queue := queue, processed := s.processed + 1 }
  | some p =>
    let left := s.left p - 1
    { value := Function.update s.value p (s.value p + s.value k)
      left := Function.update s.left p left
      queue := if left = 0 then p :: queue else queue
      processed := s.processed + 1 }

def drain (parent : κ → Option κ) : Nat → Sums κ → Sums κ
  | 0, s => s
  | fuel + 1, s =>
    match s.queue with
    | [] => s
    | k :: queue => drain parent fuel (s.add parent k queue)

section Forest

variable {K : Finset κ} {parent : κ → Option κ} {own total : κ → Nat}

def childrenIn (parent : κ → Option κ) (K : Finset κ) (k : κ) : Finset κ := K.filter fun c => parent c = some k

structure IsForest (K : Finset κ) (parent : κ → Option κ) (own total : κ → Nat) : Prop where
  parent_mem : ∀ k ∈ K, ∀ p, parent k = some p → p ∈ K
  ranked : ∃ rank : κ → Nat, ∀ k ∈ K, ∀ p, parent k = some p → rank k < rank p
  total_eq : ∀ k ∈ K, total k = own k + ∑ c ∈ childrenIn parent K k, total c

/-- The state when the keys of `D` have been added to their parents. -/
structure Drained (K : Finset κ) (parent : κ → Option κ) (own total : κ → Nat) (s : Sums κ) (D : Finset κ) : Prop where
  sub : D ⊆ K
  nodup : s.queue.Nodup
  ready : ∀ k, k ∈ s.queue ↔ k ∈ K ∧ k ∉ D ∧ childrenIn parent K k ⊆ D
  closed : ∀ k ∈ D, childrenIn parent K k ⊆ D
  value : ∀ k ∈ K, s.value k = own k + ∑ c ∈ childrenIn parent D k, total c
  left : ∀ k ∈ K, s.left k = (childrenIn parent K k \ D).card
  processed : s.processed = D.card

variable {D : Finset κ} {s : Sums κ} {k : κ}

theorem mem_childrenIn {c : κ} : c ∈ childrenIn parent K k ↔ c ∈ K ∧ parent c = some k := Finset.mem_filter

theorem childrenIn_insert {p : κ} :
    childrenIn parent (insert k D) p = if parent k = some p then insert k (childrenIn parent D p) else childrenIn parent D p := by
  rw [childrenIn, Finset.filter_insert]
  rfl

theorem Drained.total_eq (h : Drained K parent own total s D) (hf : IsForest K parent own total)
    (hk : k ∈ K) (hchildren : childrenIn parent K k ⊆ D) : s.value k = total k := by
  have hsame : childrenIn parent D k = childrenIn parent K k := by
    ext c
    rw [mem_childrenIn, mem_childrenIn]
    exact ⟨fun ⟨hc, hp⟩ => ⟨h.sub hc, hp⟩, fun ⟨hc, hp⟩ => ⟨hchildren (mem_childrenIn.mpr ⟨hc, hp⟩), hp⟩⟩
  rw [h.value k hk, hf.total_eq k hk, hsame]

theorem Drained.add (h : Drained K parent own total s D) (hf : IsForest K parent own total)
    {queue : List κ} (hqueue : s.queue = k :: queue) :
    Drained K parent own total (s.add parent k queue) (insert k D) := by
  obtain ⟨rank, hrank⟩ := hf.ranked
  have hnodup := h.nodup
  rw [hqueue, nodup_cons] at hnodup
  obtain ⟨hkK, hkD, hkids⟩ := (h.ready k).mp (by rw [hqueue]; exact mem_cons_self)
  have hself : ∀ p, parent k = some p → p ≠ k := by
    rintro p hp rfl
    exact Nat.lt_irrefl _ (hrank p hkK p hp)
  have hready : ∀ j, j ∈ queue ↔ j ∈ K ∧ j ∉ insert k D ∧ childrenIn parent K j ⊆ D := by
    intro j
    have hj := h.ready j
    rw [hqueue, mem_cons] at hj
    rw [Finset.mem_insert, not_or]
    constructor
    · intro hmem
      obtain ⟨hjK, hjD, hjkids⟩ := hj.mp (.inr hmem)
      refine ⟨hjK, ⟨?_, hjD⟩, hjkids⟩
      rintro rfl
      exact hnodup.1 hmem
    · rintro ⟨hjK, ⟨hne, hjD⟩, hjkids⟩
      exact (hj.mpr ⟨hjK, hjD, hjkids⟩).resolve_left hne
  have hsub : insert k D ⊆ K := Finset.insert_subset hkK h.sub
  have hcard : (insert k D).card = D.card + 1 := Finset.card_insert_of_notMem hkD
  have hclosed : ∀ j ∈ insert k D, childrenIn parent K j ⊆ insert k D := by
    intro j hj
    rcases Finset.mem_insert.mp hj with rfl | hjD
    · exact hkids.trans (Finset.subset_insert _ _)
    · exact (h.closed j hjD).trans (Finset.subset_insert _ _)
  -- only the parent of `k` gets nearer to its turn
  have hother : ∀ j, parent k ≠ some j → childrenIn parent K j \ insert k D = childrenIn parent K j \ D := by
    intro j hj
    ext c
    rw [Finset.mem_sdiff, Finset.mem_sdiff, Finset.mem_insert, mem_childrenIn]
    refine ⟨fun ⟨hc, hnot⟩ => ⟨hc, fun hD => hnot (.inr hD)⟩, fun ⟨hc, hnot⟩ => ⟨hc, ?_⟩⟩
    rintro (rfl | hD)
    · exact hj hc.2
    · exact hnot hD
  have hsubset : ∀ j, childrenIn parent K j ⊆ insert k D ↔ childrenIn parent K j \ insert k D = ∅ := fun j =>
    Finset.sdiff_eq_empty_iff_subset.symm
  cases hparent : parent k with
  | none =>
    rw [Sums.add, hparent]
    refine ⟨hsub, hnodup.2, fun j => ?_, hclosed, fun j hj => ?_, fun j hj => ?_, by rw [hcard, h.processed]⟩
    · have hj : parent k ≠ some j := by
        rw [hparent]
        exact (some_ne_none j).symm
      rw [hready j, hsubset, hother j hj, Finset.sdiff_eq_empty_iff_subset]
    · rw [childrenIn_insert, if_neg (by rw [hparent]; exact (some_ne_none j).symm)]
      exact h.value j hj
    · rw [hother j (by rw [hparent]; exact (some_ne_none j).symm)]
      exact h.left j hj
  | some p =>
    have hpK := hf.parent_mem k hkK p hparent
    have hpD : p ∉ insert k D := by
      intro hp
      rcases Finset.mem_insert.mp hp with rfl | hp
      · exact hself _ hparent rfl
      · exact hkD (h.closed p hp (mem_childrenIn.mpr ⟨hkK, hparent⟩))
    have hleft : (childrenIn parent K p \ insert k D).card = s.left p - 1 := by
      have hmem : k ∈ childrenIn parent K p \ D := Finset.mem_sdiff.mpr ⟨mem_childrenIn.mpr ⟨hkK, hparent⟩, hkD⟩
      rw [h.left p hpK, Finset.sdiff_insert, Finset.card_erase_of_mem hmem]
    have hdone : s.left p - 1 = 0 ↔ childrenIn parent K p ⊆ insert k D := by
      rw [← hleft, Finset.card_eq_zero, hsubset]
    have hpqueue : p ∉ queue := fun hp => hkD (((hready p).mp hp).2.2 (mem_childrenIn.mpr ⟨hkK, hparent⟩))
    have hne : ∀ j, j ≠ p → parent k ≠ some j := by
      rintro j hj heq
      rw [hparent] at heq
      exact hj (some.inj heq).symm
    rw [Sums.add, hparent]
    refine ⟨hsub, ?_, fun j => ?_, hclosed, fun j hj => ?_, fun j hj => ?_, by rw [hcard, h.processed]⟩
    · dsimp only
      split
      · exact nodup_cons.mpr ⟨hpqueue, hnodup.2⟩
      · exact hnodup.2
    · dsimp only
      by_cases hj : j = p
      · subst hj
        split
        · next hzero => exact ⟨fun _ => ⟨hpK, hpD, hdone.mp hzero⟩, fun _ => mem_cons_self⟩
        · next hmore => exact ⟨fun hq => absurd hq hpqueue, fun ⟨_, _, hall⟩ => absurd (hdone.mpr hall) hmore⟩
      · rw [hsubset, hother j (hne j hj), Finset.sdiff_eq_empty_iff_subset, ← hready j]
        split
        · rw [mem_cons]
          exact ⟨fun hq => hq.resolve_left hj, .inr⟩
        · rfl
    · dsimp only
      by_cases hj' : j = p
      · subst hj'
        have hnew : k ∉ childrenIn parent D j := fun hk => hkD (mem_childrenIn.mp hk).1
        rw [update_self, childrenIn_insert, if_pos hparent, Finset.sum_insert hnew, h.value j hj,
          h.total_eq hf hkK hkids]
        omega
      · rw [update_of_ne hj', childrenIn_insert, if_neg (hne j hj')]
        exact h.value j hj
    · dsimp only
      by_cases hj' : j = p
      · subst hj'
        rw [update_self, hleft]
      · rw [update_of_ne hj', hother j (hne j hj')]
        exact h.left j hj

theorem Drained.all (h : Drained K parent own total s D) (hf : IsForest K parent own total)
    (hempty : s.queue = []) : D = K := by
  obtain ⟨rank, hrank⟩ := hf.ranked
  refine Finset.Subset.antisymm h.sub fun k hk => ?_
  induction hn : rank k using Nat.strong_induction_on generalizing k with
  | _ n ih =>
    by_contra hkD
    have hkids : childrenIn parent K k ⊆ D := by
      intro c hc
      obtain ⟨hcK, hparent⟩ := mem_childrenIn.mp hc
      exact ih (rank c) (hn ▸ hrank c hcK k hparent) c hcK rfl
    have hready := (h.ready k).mpr ⟨hk, hkD, hkids⟩
    rw [hempty] at hready
    cases hready

theorem Drained.done (h : Drained K parent own total s K) (hf : IsForest K parent own total) :
    s.queue = [] ∧ s.processed = K.card ∧ ∀ k ∈ K, s.value k = total k := by
  refine ⟨eq_nil_iff_forall_not_mem.mpr fun k hk => ?_, h.processed, fun k hk => ?_⟩
  · obtain ⟨hkK, hkD, -⟩ := (h.ready k).mp hk
    exact hkD hkK
  · exact h.total_eq hf hk fun c hc => (mem_childrenIn.mp hc).1

theorem drain_total (hf : IsForest K parent own total) (fuel : Nat)
    (h : Drained K parent own total s D) (hfuel : K.card - D.card ≤ fuel) :
    (drain parent fuel s).queue = [] ∧ (drain parent fuel s).processed = K.card ∧
      ∀ k ∈ K, (drain parent fuel s).value k = total k := by
  induction fuel generalizing s D with
  | zero =>
    have hall : D = K := Finset.eq_of_subset_of_card_le h.sub (by omega)
    subst hall
    exact h.done hf
  | succ fuel ih =>
    rw [drain]
    match hqueue : s.queue with
    | [] =>
      have hall := h.all hf hqueue
      subst hall
      exact h.done hf
    | k :: queue =>
      obtain ⟨-, hkD, -⟩ := (h.ready k).mp (by rw [hqueue]; exact mem_cons_self)
      refine ih (h.add hf hqueue) ?_
      rw [Finset.card_insert_of_notMem hkD]
      omega

end Forest

end Cantrip.Lib
