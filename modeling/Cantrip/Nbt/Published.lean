import Cantrip.Nbt.Index
import Cantrip.Nbt.PagedCodec

/-!
# The protocol of a scan's records

The records a scan puts follow one protocol (`Published`): a node is announced once, with the next identity
and as the next child of an open parent, and later records of it only complete it. The index such records
make is `Consistent`.
-/

namespace Cantrip.Nbt

open Lib MemoryNbtIndex List Function

/-- How a scan may put `node` while `count` nodes are known: `next` nodes are known afterwards. -/
inductive Announces (ix : MemoryNbtIndex) (count : Nat) (node : NbtNode) : Nat → Prop
  | first (hid : node.id = count) (hparent : ∀ p, node.parent = some p →
        (∃ record, ix.nodes p = some record ∧ record.endAt = none) ∧ node.ordinal = (ix.lists p).length)
      (hchildren : node.childCount = 0) : Announces ix count node (count + 1)
  | again (previous : NbtNode) (hold : ix.nodes node.id = some previous) (hopen : previous.endAt = none)
      (hparent : previous.parent = node.parent) (hordinal : previous.ordinal = node.ordinal)
      (hstart : previous.start = node.start) (hchildren : node.childCount = (ix.lists node.id).length) :
      Announces ix count node count

/-- The records `log`, put one after another, make the index `ix` of `count` nodes. -/
inductive Published : List NbtNode → MemoryNbtIndex → Nat → Prop
  | start : Published [] .empty 0
  | put {log : List NbtNode} {ix ix' : MemoryNbtIndex} {count next : Nat} {node : NbtNode} (h : Published log ix count)
      (hnode : node.Publishable) (hann : Announces ix count node next) (hput : ix.put node = .ok ix') :
      Published (log ++ [node]) ix' next

/-! ## What the protocol gives -/

structure Consistent (ix : MemoryNbtIndex) (count : Nat) : Prop where
  fresh : Fresh ix count
  known : ∀ i < count, ∃ node, ix.nodes i = some node ∧ node.id = i ∧ node.Publishable ∧
    (node.endAt = none ∨ node.childCount = (ix.lists i).length)
  parents : ∀ i node p, ix.nodes i = some node → node.parent = some p → p < count
  listed : ∀ i, ∃ ids : List Nat, ix.lists i = ids.map some ∧ ∀ j ∈ ids, j < count
  short : ∀ i, ix.lists i ≠ [] → (ix.lists i).length < count

variable {log : List NbtNode} {ix : MemoryNbtIndex} {count : Nat} {node : NbtNode}

theorem Consistent.lt_count {i : Nat} (h : Consistent ix count) (hnode : ix.nodes i = some node) : i < count := by
  by_contra hge
  have := (h.fresh i (by omega)).1
  rw [hnode] at this
  cases this

theorem Consistent.count_le (h : Consistent ix count) : count ≤ maxSafeInteger := by
  rcases Nat.eq_zero_or_pos count with rfl | hpos
  · exact Nat.zero_le _
  · obtain ⟨node, -, hid, hpub, -⟩ := h.known (count - 1) (by omega)
    have := hpub.id
    omega

theorem consistent_first (h : Consistent ix count) (hnode : node.Publishable) (hid : node.id = count)
    (hparent : ∀ p, node.parent = some p →
      (∃ record, ix.nodes p = some record ∧ record.endAt = none) ∧ node.ordinal = (ix.lists p).length)
    (hchildren : node.childCount = 0) :
    ∃ ix', ix.put node = .ok ix' ∧ Consistent ix' (count + 1) ∧
      (∀ i, ix'.nodes i = if i = node.id then some node else ix.nodes i) ∧
      ∀ i, ix'.lists i = if some i = node.parent then ix.lists i ++ [some node.id] else ix.lists i := by
  have hnew : ix.nodes node.id = none := (h.fresh node.id (by omega)).1
  have hput : ∃ ix', ix.put node = .ok ix' ∧ (∀ i, ix'.nodes i = if i = node.id then some node else ix.nodes i) ∧
      ∀ i, ix'.lists i = if some i = node.parent then ix.lists i ++ [some node.id] else ix.lists i := by
    cases hp : node.parent with
    | none =>
      refine ⟨_, put_root hnew hp, fun i => ?_, fun i => by simp⟩
      simp [update_apply]
    | some p =>
      refine ⟨_, put_child hnew hp (hparent p hp).2, fun i => ?_, fun i => ?_⟩
      · simp [update_apply]
      · by_cases hi : i = p
        · subst hi
          simp
        · simp [hi]
  obtain ⟨ix', hput, hnodes, hlists⟩ := hput
  have hlt : ∀ p, node.parent = some p → p < count := by
    intro p hp
    obtain ⟨⟨record, hrecord, -⟩, -⟩ := hparent p hp
    exact h.lt_count hrecord
  refine ⟨ix', hput, ⟨?_, ?_, ?_, ?_, ?_⟩, hnodes, hlists⟩
  · intro i hi
    have hne : some i ≠ node.parent := fun hp => by
      have := hlt i hp.symm
      omega
    rw [hnodes, hlists, if_neg (by omega), if_neg hne]
    exact h.fresh i (by omega)
  · intro i hi
    rw [hnodes]
    by_cases hself : i = node.id
    · have hne : some i ≠ node.parent := fun hp => by
        have := hlt i hp.symm
        omega
      refine ⟨node, if_pos hself, hself.symm, hnode, .inr ?_⟩
      rw [hchildren, hlists, if_neg hne, (h.fresh i (by omega)).2]
      rfl
    · obtain ⟨known, hknown, hkid, hkpub, hkcount⟩ := h.known i (by omega)
      refine ⟨known, by rw [if_neg hself]; exact hknown, hkid, hkpub, ?_⟩
      by_cases hp : some i = node.parent
      · -- the parent is open
        obtain ⟨⟨record, hrecord, hopen⟩, -⟩ := hparent i hp.symm
        rw [hknown] at hrecord
        cases hrecord
        exact .inl hopen
      · rw [hlists, if_neg hp]
        exact hkcount
  · intro i known p hknown hp
    rw [hnodes] at hknown
    split_ifs at hknown
    · cases hknown
      have := hlt p hp
      omega
    · have := h.parents i known p hknown hp
      omega
  · intro i
    obtain ⟨ids, hids, hlow⟩ := h.listed i
    rw [hlists]
    by_cases hp : some i = node.parent
    · refine ⟨ids ++ [node.id], by rw [if_pos hp, hids]; simp, ?_⟩
      intro j hj
      rcases mem_append.mp hj with hj | hj
      · have := hlow j hj
        omega
      · have : j = node.id := by simpa using hj
        omega
    · refine ⟨ids, by rw [if_neg hp]; exact hids, fun j hj => ?_⟩
      have := hlow j hj
      omega
  · intro i hi
    rw [hlists] at hi ⊢
    by_cases hp : some i = node.parent
    · rw [if_pos hp, length_append, length_singleton]
      have := hlt i hp.symm
      by_cases hnil : ix.lists i = []
      · rw [hnil]
        simp
        omega
      · have := h.short i hnil
        omega
    · rw [if_neg hp] at hi ⊢
      have := h.short i hi
      omega

theorem consistent_again {previous : NbtNode} (h : Consistent ix count)
    (hnode : node.Publishable) (hold : ix.nodes node.id = some previous) (hparent : previous.parent = node.parent)
    (hordinal : previous.ordinal = node.ordinal) (hchildren : node.childCount = (ix.lists node.id).length) :
    ∃ ix', ix.put node = .ok ix' ∧ Consistent ix' count ∧
      (∀ i, ix'.nodes i = if i = node.id then some node else ix.nodes i) ∧ ∀ i, ix'.lists i = ix.lists i := by
  have hlt := h.lt_count hold
  have hnodes : ∀ i, update ix.nodes node.id (some node) i = if i = node.id then some node else ix.nodes i := by
    intro i
    simp [update_apply]
  refine ⟨_, put_again hold hparent hordinal, ⟨?_, ?_, ?_, h.listed, h.short⟩, hnodes, fun _ => rfl⟩
  · intro i hi
    refine ⟨?_, (h.fresh i hi).2⟩
    simp only [hnodes, if_neg (show i ≠ node.id by omega)]
    exact (h.fresh i hi).1
  · intro i hi
    simp only [hnodes]
    by_cases hself : i = node.id
    · refine ⟨node, if_pos hself, hself.symm, hnode, .inr ?_⟩
      rw [hchildren, hself]
    · obtain ⟨known, hknown, hrest⟩ := h.known i hi
      exact ⟨known, by rw [if_neg hself]; exact hknown, hrest⟩
  · intro i known p hknown hp
    simp only [hnodes] at hknown
    split_ifs at hknown
    · cases hknown
      exact h.parents node.id previous p hold (hparent.trans hp)
    · exact h.parents i known p hknown hp

theorem Published.consistent (h : Published log ix count) : Consistent ix count := by
  induction h with
  | start =>
    exact ⟨fresh_empty, fun i hi => absurd hi (Nat.not_lt_zero i), fun _ _ _ h _ => by simp [empty] at h,
      fun i => ⟨[], rfl, by simp⟩, fun i hi => absurd rfl hi⟩
  | put h hnode hann hput ih =>
    cases hann with
    | first hid hparent hchildren =>
      obtain ⟨ix', hput', hcons, -⟩ := consistent_first ih hnode hid hparent hchildren
      rw [hput] at hput'
      cases hput'
      exact hcons
    | again previous hold hopen hparent hordinal hstart hchildren =>
      obtain ⟨ix', hput', hcons, -⟩ := consistent_again ih hnode hold hparent hordinal hchildren
      rw [hput] at hput'
      cases hput'
      exact hcons

theorem Published.of_prefix {before : List NbtNode} (h : Published log ix count)
    (hpre : before <+: log) : ∃ ix' count', Published before ix' count' := by
  induction h with
  | start =>
    rw [prefix_nil.mp hpre]
    exact ⟨_, _, .start⟩
  | put h hnode hann hput ih =>
    rcases prefix_concat_iff.mp hpre with heq | hpre'
    · rw [heq]
      exact ⟨_, _, .put h hnode hann hput⟩
    · exact ih hpre'

theorem Published.last {ix' : MemoryNbtIndex} {next : Nat} (h : Published (log ++ [node]) ix' next) :
    ∃ ix count, Published log ix count ∧ node.Publishable ∧ Announces ix count node next ∧ ix.put node = .ok ix' := by
  generalize hall : log ++ [node] = all at h
  cases h with
  | start => simp at hall
  | put h hnode hann hput =>
    obtain ⟨rfl, heq⟩ := append_inj' hall rfl
    cases heq
    exact ⟨_, _, h, hnode, hann, hput⟩

theorem Published.unique {ix₁ ix₂ : MemoryNbtIndex} {count₁ count₂ : Nat}
    (h₁ : Published log ix₁ count₁) (h₂ : Published log ix₂ count₂) : ix₁ = ix₂ ∧ count₁ = count₂ := by
  induction h₁ generalizing ix₂ count₂ with
  | start =>
    generalize hall : ([] : List NbtNode) = all at h₂
    cases h₂ with
    | start => exact ⟨rfl, rfl⟩
    | put => simp at hall
  | put h hnode hann hput ih =>
    obtain ⟨ix, count, h', -, hann', hput'⟩ := h₂.last
    obtain ⟨rfl, rfl⟩ := ih h'
    rw [hput] at hput'
    cases hput'
    refine ⟨rfl, ?_⟩
    cases hann with
    | first hid =>
      cases hann' with
      | first => rfl
      | again previous hold =>
        have := h.consistent.lt_count hold
        omega
    | again previous hold =>
      cases hann' with
      | first hid =>
        have := h.consistent.lt_count hold
        omega
      | again => rfl

end Cantrip.Nbt
