import Cantrip.Lib.Post
import Cantrip.Nbt.PagedTables
import Cantrip.Nbt.Published

/-!
# The paged index shows the index of the records put

`Represents` ties a paged index to the in-memory index of the same records: its tables are the packed records
and the lists of children. A record that is still open carries the number of children put so far
(`MemoryNbtIndex.counted`), which the in-memory index learns only when the container ends.
-/

namespace Cantrip.Nbt

open Lib PagedNbtIndex List Option

def MemoryNbtIndex.counted (ix : MemoryNbtIndex) : MemoryNbtIndex :=
  { ix with nodes := fun i => (ix.nodes i).map fun n => { n with childCount := (ix.lists i).length } }

def packedRecords (ix : MemoryNbtIndex) (count : Nat) : List (List Double) :=
  (List.range count).map fun i => ((ix.counted.nodes i).map packFields).getD []

def childOffsets (ix : MemoryNbtIndex) (p : Nat) : List Nat := (ix.lists p).filterMap id

structure Represents (pi : PagedNbtIndex) (ix : MemoryNbtIndex) (count : Nat) : Prop where
  tables : Tables pi (packedRecords ix count) (childOffsets ix)
  counts : pi.count = count
  opened : pi.closed = false
  consistent : Consistent ix count

variable {pi : PagedNbtIndex} {ix ix' : MemoryNbtIndex} {count : Nat}

/-! ## Records of a consistent index -/

@[simp] theorem packedRecords_length (ix : MemoryNbtIndex) (count : Nat) : (packedRecords ix count).length = count := by
  simp [packedRecords]

theorem packedRecords_get {i : Nat} (hi : i < count) :
    (packedRecords ix count)[i]? = some (((ix.counted.nodes i).map packFields).getD []) := by
  simp [packedRecords, hi]

section

variable (h : Consistent ix count)
include h

theorem childOffsets_eq (p : Nat) :
    ix.lists p = (childOffsets ix p).map some ∧ ∀ j ∈ childOffsets ix p, j < count := by
  obtain ⟨ids, hids, hlt⟩ := h.listed p
  have : childOffsets ix p = ids := by
    rw [childOffsets, hids, filterMap_map]
    exact filterMap_some
  rw [this]
  exact ⟨hids, hlt⟩

theorem childOffsets_length (p : Nat) : (childOffsets ix p).length = (ix.lists p).length := by
  rw [(childOffsets_eq h p).1, length_map]

theorem lists_length_le (p : Nat) : (ix.lists p).length ≤ maxSafeInteger := by
  by_cases hnil : ix.lists p = []
  · rw [hnil]
    exact Nat.zero_le _
  · have := h.short p hnil
    have := h.count_le
    omega

theorem counted_known {i : Nat} (hi : i < count) :
    ∃ node, ix.counted.nodes i = some node ∧ node.id = i ∧ node.Publishable ∧
      node.childCount = (ix.lists i).length := by
  obtain ⟨node, hnode, hid, hpub, -⟩ := h.known i hi
  refine ⟨{ node with childCount := (ix.lists i).length }, by simp [MemoryNbtIndex.counted, hnode], hid, ?_, rfl⟩
  exact { hpub with childCount := lists_length_le h i }

theorem packedRecords_known {i : Nat} (hi : i < count) :
    ∃ node, ix.counted.nodes i = some node ∧ (packedRecords ix count)[i]? = some (packFields node) ∧ node.id = i ∧
      node.Publishable ∧ node.childCount = (ix.lists i).length := by
  obtain ⟨node, hnode, hrest⟩ := counted_known h hi
  refine ⟨node, hnode, ?_, hrest⟩
  rw [packedRecords_get hi, hnode]
  rfl

end

theorem packFields_childCount (node : NbtNode) (c : Nat) :
    packFields { node with childCount := c } = (packFields node).set 8 (.int c) := rfl

theorem field_packFields (node : NbtNode) :
    field (packFields node) 0 = .int node.start ∧ field (packFields node) 1 = orAbsent node.parent ∧
      field (packFields node) 2 = .int node.ordinal ∧ field (packFields node) 8 = .int node.childCount :=
  ⟨rfl, rfl, rfl, rfl⟩

theorem packedRecords_first (h : Consistent ix count) {node : NbtNode} (hid : node.id = count)
    (hchildren : node.childCount = 0)
    (hordinal : ∀ p, node.parent = some p → p < count ∧ node.ordinal = (ix.lists p).length)
    (hnodes : ∀ i, ix'.nodes i = if i = node.id then some node else ix.nodes i)
    (hlists : ∀ i, ix'.lists i = if some i = node.parent then ix.lists i ++ [some node.id] else ix.lists i) :
    packedRecords ix' (count + 1) =
      match node.parent with
      | none => packedRecords ix count ++ [packFields node]
      | some p => (packedRecords ix count ++ [packFields node]).set p
        (((packedRecords ix count)[p]?.getD []).set 8 (.int (node.ordinal + 1 : Nat))) := by
  -- what stands at each identity afterwards
  have hnew : ((ix'.counted.nodes count).map packFields).getD [] = packFields node := by
    have hne : some count ≠ node.parent := by
      intro hp
      have := (hordinal count hp.symm).1
      omega
    have hself : ix'.nodes count = some node := by rw [hnodes, if_pos hid.symm]
    have hlist : ix'.lists count = [] := by rw [hlists, if_neg hne, (h.fresh count le_rfl).2]
    simp only [MemoryNbtIndex.counted, hself, hlist, map_some, getD_some, length_nil, ← hchildren]
  have hother : ∀ i < count, some i ≠ node.parent → ix'.counted.nodes i = ix.counted.nodes i := by
    intro i hi hne
    simp only [MemoryNbtIndex.counted, hnodes, if_neg (show i ≠ node.id by omega), hlists, if_neg hne]
  cases hp : node.parent with
  | none =>
    rw [packedRecords, range_succ, map_append]
    congr 1
    · apply map_congr_left
      intro i hi
      rw [hother i (mem_range.mp hi) (by rw [hp]; simp)]
    · simp [hnew]
  | some p =>
    obtain ⟨hlt, hord⟩ := hordinal p hp
    apply ext_getElem?
    intro i
    rw [getElem?_set]
    by_cases hip : p = i
    · subst hip
      obtain ⟨known, hknown, hrecord, -, -, -⟩ := packedRecords_known h hlt
      rw [if_pos rfl, if_pos (by simp; omega), packedRecords_get (by omega), hrecord]
      simp only [getD_some, ← packFields_childCount]
      congr 1
      obtain ⟨raw, hraw, -⟩ := h.known p hlt
      have hself : ix'.nodes p = some raw := by rw [hnodes, if_neg (by omega), hraw]
      have hlist : (ix'.lists p).length = node.ordinal + 1 := by
        rw [hlists, if_pos hp.symm, length_append, hord]
        rfl
      simp only [MemoryNbtIndex.counted, hraw, map_some, some.injEq] at hknown
      simp only [MemoryNbtIndex.counted, hself, hlist, map_some, getD_some, ← hknown]
    · rw [if_neg hip]
      by_cases hi : i < count
      · rw [getElem?_append_left (by simpa using hi), packedRecords_get (by omega), packedRecords_get hi,
          hother i hi (by rw [hp]; intro heq; exact hip (some.inj heq).symm)]
      · by_cases heq : i = count
        · subst heq
          rw [packedRecords_get (Nat.lt_succ_self _), hnew, getElem?_append_right (by simp)]
          simp
        · rw [getElem?_eq_none (by simp; omega), getElem?_eq_none (by simp; omega)]

theorem packedRecords_again {node : NbtNode} (hlt : node.id < count) (hchildren : node.childCount = (ix.lists node.id).length)
    (hnodes : ∀ i, ix'.nodes i = if i = node.id then some node else ix.nodes i)
    (hlists : ∀ i, ix'.lists i = ix.lists i) :
    packedRecords ix' count = (packedRecords ix count).set node.id (packFields node) := by
  apply ext_getElem?
  intro i
  rw [getElem?_set]
  by_cases hid : node.id = i
  · subst hid
    rw [if_pos rfl, if_pos (by simpa using hlt), packedRecords_get hlt]
    have hself : ix'.nodes node.id = some node := by rw [hnodes, if_pos rfl]
    simp only [MemoryNbtIndex.counted, hself, hlists, map_some, getD_some, ← hchildren]
  · rw [if_neg hid]
    by_cases hi : i < count
    · rw [packedRecords_get hi, packedRecords_get hi]
      simp only [MemoryNbtIndex.counted, hnodes, hlists, if_neg (show i ≠ node.id from fun h => hid h.symm)]
    · rw [getElem?_eq_none (by simp; omega), getElem?_eq_none (by simp; omega)]

/-! ## Putting -/

theorem serial_open {α : Type} {run : PagedM α} (h : pi.closed = false) : serial run pi = run pi := by
  rw [serial, if_neg (by simp [h])]

theorem orFail_ok {α : Type} (a : α) (pi : PagedNbtIndex) : orFail (.ok a) pi = .ok a pi := rfl

theorem orFail_sequence {id : Nat} (h : id ≤ maxSafeInteger) (pi : PagedNbtIndex) :
    orFail (PagedNbtIndex.sequence id) pi = .ok id pi := by
  rw [PagedNbtIndex.sequence, assertRange_ok (show id + 0 ≤ maxSafeInteger from h)]
  rfl

theorem check_ok {condition : Bool} (h : condition = true) (e : IndexError) (pi : PagedNbtIndex) :
    check condition e pi = .ok () pi := by
  rw [check, if_pos h]
  rfl

theorem put_checked (h : Represents pi ix count) {node : NbtNode} (hpub : node.Publishable) (hle : node.id ≤ count)
    (hsame : ∀ previous, ix.counted.nodes node.id = some previous →
      previous.start = node.start ∧ previous.parent = node.parent ∧ previous.ordinal = node.ordinal)
    (hparent : ∀ p, node.parent = some p → p < count ∧ (node.id = count → node.ordinal = (ix.lists p).length)) :
    ∃ pager, Tables { pi with pager := pager } (packedRecords ix count) (childOffsets ix) ∧
      put node pi = publish node (packFields node) (node.id == count)
        (node.parent.bind fun p => (packedRecords ix count)[p]?) { pi with pager := pager } := by
  obtain rfl : pi.count = count := h.counts
  have hcount : pi.count = (packedRecords ix pi.count).length := (packedRecords_length ix _).symm
  obtain ⟨pager₁, hrecord, htables₁⟩ := record_spec h.tables hcount node.id
  have hparents : ∃ pager₂, parentRecord node { pi with pager := pager₁ } =
        .ok (node.parent.bind fun p => (packedRecords ix pi.count)[p]?) { pi with pager := pager₂ } ∧
      Tables { pi with pager := pager₂ } (packedRecords ix pi.count) (childOffsets ix) := by
    cases hp : node.parent with
    | none => exact ⟨pager₁, by simp only [parentRecord, hp]; rfl, htables₁⟩
    | some p =>
      obtain ⟨hlt, -⟩ := hparent p hp
      obtain ⟨known, -, hknown, -⟩ := packedRecords_known h.consistent hlt
      obtain ⟨pager₂, hrecord₂, htables₂⟩ := record_spec htables₁ hcount p
      refine ⟨pager₂, ?_, htables₂⟩
      simp only [parentRecord, hp]
      rw [run_bind (orFail_sequence (hpub.parent p hp) _), run_bind hrecord₂, run_bind (check_ok (by rw [hknown]; rfl) _ _)]
      rfl
  obtain ⟨pager₂, hrun₂, htables₂⟩ := hparents
  refine ⟨pager₂, htables₂, ?_⟩
  have hprevious : ((packedRecords ix pi.count)[node.id]?.all fun p =>
      [0, 1, 2].all fun i => field p i == field (packFields node) i) = true := by
    by_cases hlt : node.id < pi.count
    · obtain ⟨known, hknown, hget, -⟩ := packedRecords_known h.consistent hlt
      obtain ⟨hstart, hpar, hord⟩ := hsame known hknown
      have hf := field_packFields known
      have hf' := field_packFields node
      simp only [hget, all_some, all_cons, all_nil, hf, hf', hstart, hpar, hord, beq_self_eq_true, Bool.and_self]
    · rw [getElem?_eq_none (by simp; omega)]
      rfl
  have hordinal : (!(node.id == pi.count) || (node.parent.bind fun p => (packedRecords ix pi.count)[p]?).all fun p =>
      field p 8 == .int node.ordinal) = true := by
    by_cases hnew : node.id = pi.count
    · cases hp : node.parent with
      | none => simp
      | some p =>
        obtain ⟨hlt, hord⟩ := hparent p hp
        obtain ⟨known, -, hget, -, -, hchildren⟩ := packedRecords_known h.consistent hlt
        simp only [bind_some, hget, all_some, (field_packFields known).2.2.2, hchildren, ← hord hnew]
        simp
    · simp [hnew]
  have hrange : ∀ n, n ≤ maxSafeInteger → orFail ((assertRange n 0).mapError .nbt) pi = .ok () pi := by
    intro n hn
    rw [assertRange_ok (show n + 0 ≤ maxSafeInteger from hn)]
    rfl
  rw [put, serial_open h.opened, run_bind (orFail_sequence hpub.id.le pi),
    run_bind (hrange _ (le_trans hpub.start hpub.payload)), run_bind (hrange _ hpub.ordinal),
    run_bind (hrange _ hpub.childCount), run_get, run_bind (check_ok (by simpa using hle) _ _), run_bind hrecord,
    pack_ok hpub, run_bind (orFail_ok _ _), run_bind (check_ok hprevious _ _), run_bind hrun₂,
    run_bind (check_ok hordinal _ _)]

theorem represents_first (h : Represents pi ix count) {node : NbtNode} (hpub : node.Publishable) (hid : node.id = count)
    (hparent : ∀ p, node.parent = some p →
      (∃ record, ix.nodes p = some record ∧ record.endAt = none) ∧ node.ordinal = (ix.lists p).length)
    (hchildren : node.childCount = 0) (hput : ix.put node = .ok ix') :
    ∃ pi', put node pi = .ok () pi' ∧ Represents pi' ix' (count + 1) := by
  obtain ⟨ix₁, hput₁, hcons, hnodes, hlists⟩ := consistent_first h.consistent hpub hid hparent hchildren
  rw [hput] at hput₁
  cases hput₁
  have hbelow : ∀ p, node.parent = some p → p < count ∧ node.ordinal = (ix.lists p).length := by
    intro p hp
    obtain ⟨⟨record, hrecord, -⟩, hord⟩ := hparent p hp
    exact ⟨h.consistent.lt_count hrecord, hord⟩
  have hfresh : ix.counted.nodes node.id = none := by
    simp [MemoryNbtIndex.counted, (h.consistent.fresh node.id (by omega)).1]
  obtain ⟨pager₀, htables₀, hrun₀⟩ := put_checked h hpub (by omega) (by simp [hfresh])
    (fun p hp => ⟨(hbelow p hp).1, fun _ => (hbelow p hp).2⟩)
  have hadded : (node.id == count) = true := by simpa using hid
  have hrecords := packedRecords_first h.consistent hid hchildren hbelow hnodes hlists
  obtain ⟨pager₁, hwrite, htables₁⟩ := write_append htables₀ (validRecord_packFields hpub)
  rw [packedRecords_length, ← hid] at hwrite
  rw [hrun₀, hadded]
  unfold publish
  rw [run_bind hwrite, if_pos rfl, run_modify]
  have hcount₁ : pi.count + 1 = count + 1 := by rw [h.counts]
  cases hp : node.parent with
  | none =>
    have hoffsets : childOffsets ix' = childOffsets ix := by
      funext q
      simp only [childOffsets, hlists, hp]
      rfl
    rw [hp] at hrecords
    refine ⟨{ pi with pager := pager₁, count := pi.count + 1 }, rfl, ?_, hcount₁, h.opened, hcons⟩
    rw [hrecords, hoffsets]
    exact ⟨htables₁.positive, htables₁.sound, htables₁.nodes, htables₁.children, htables₁.records, htables₁.offsets⟩
  | some p =>
    obtain ⟨hlt, hord⟩ := hbelow p hp
    obtain ⟨known, hknown, hget, hkid, hkpub, -⟩ := packedRecords_known h.consistent hlt
    rw [hp] at hrecords
    simp only [hget, getD_some] at hrecords
    simp only [bind_some, hget]
    have hlen : node.ordinal = (childOffsets ix p).length := by rw [childOffsets_length h.consistent, hord]
    have htables₁' : Tables { pi with pager := pager₁, count := pi.count + 1 } (packedRecords ix count ++ [packFields node])
        (childOffsets ix) :=
      ⟨htables₁.positive, htables₁.sound, htables₁.nodes, htables₁.children, htables₁.records, htables₁.offsets⟩
    obtain ⟨pager₂, hpush, htables₂⟩ := pushChild_spec htables₁' node.start p hpub.id.le
    have hvalid : validRecord ((packFields known).set 8 (.int (node.ordinal + 1 : Nat))) = true := by
      rw [← packFields_childCount]
      refine validRecord_packFields { hkpub with childCount := ?_ }
      have := lists_length_le hcons p
      rw [hlists, if_pos hp.symm, length_append, ← hord] at this
      exact this
    obtain ⟨pager₃, hset, htables₃⟩ := write_set htables₂ (show p < _ by simp; omega) hvalid
    rw [← hlen] at hpush
    have hoffsets : childOffsets ix' = Function.update (childOffsets ix) p (childOffsets ix p ++ [node.id]) := by
      funext q
      by_cases hq : q = p
      · subst hq
        simp [childOffsets, hlists, hp, filterMap_append]
      · simp [childOffsets, hlists, hp, hq]
    refine ⟨{ pi with pager := pager₃, count := pi.count + 1 }, ?_, ?_, hcount₁, h.opened, hcons⟩
    · show addChild node p (packFields known) _ = _
      rw [addChild, run_bind hpush, hset]
    · rw [hrecords, hoffsets]
      exact htables₃

theorem represents_again (h : Represents pi ix count) {node previous : NbtNode} (hpub : node.Publishable)
    (hold : ix.nodes node.id = some previous) (hparent : previous.parent = node.parent)
    (hordinal : previous.ordinal = node.ordinal) (hstart : previous.start = node.start)
    (hchildren : node.childCount = (ix.lists node.id).length) (hput : ix.put node = .ok ix') :
    ∃ pi', put node pi = .ok () pi' ∧ Represents pi' ix' count := by
  obtain ⟨ix₁, hput₁, hcons, hnodes, hlists⟩ := consistent_again h.consistent hpub hold hparent hordinal hchildren
  rw [hput] at hput₁
  cases hput₁
  have hlt := h.consistent.lt_count hold
  have hsame : ∀ known, ix.counted.nodes node.id = some known →
      known.start = node.start ∧ known.parent = node.parent ∧ known.ordinal = node.ordinal := by
    intro known hknown
    simp only [MemoryNbtIndex.counted, hold, map_some, some.injEq] at hknown
    rw [← hknown]
    exact ⟨hstart, hparent, hordinal⟩
  obtain ⟨pager₀, htables₀, hrun₀⟩ := put_checked h hpub (by omega) hsame (fun p hp =>
    ⟨h.consistent.parents node.id previous p hold (hparent.trans hp), by omega⟩)
  have hadded : (node.id == count) = false := by simp; omega
  obtain ⟨pager₁, hwrite, htables₁⟩ := write_set htables₀ (by simpa using hlt) (validRecord_packFields hpub)
  have hoffsets : childOffsets ix' = childOffsets ix := by
    funext q
    simp only [childOffsets, hlists]
  refine ⟨{ pi with pager := pager₁ }, ?_, ?_, h.counts, h.opened, hcons⟩
  · rw [hrun₀, hadded]
    unfold publish
    rw [run_bind hwrite]
    rfl
  · rw [packedRecords_again hlt hchildren hnodes hlists, hoffsets]
    exact htables₁

theorem represents_put (h : Represents pi ix count) {node : NbtNode} {next : Nat} (hpub : node.Publishable)
    (hann : Announces ix count node next) (hput : ix.put node = .ok ix') :
    ∃ pi', put node pi = .ok () pi' ∧ Represents pi' ix' next := by
  cases hann with
  | first hid hparent hchildren => exact represents_first h hpub hid hparent hchildren hput
  | again previous hold hopen hparent hordinal hstart hchildren =>
    exact represents_again h hpub hold hparent hordinal hstart hchildren hput

/-! ## Reading -/

theorem unpack_record (h : Consistent ix count) (i : Nat) :
    ((packedRecords ix count)[i]?).map (unpack i) = ix.counted.get i := by
  by_cases hi : i < count
  · obtain ⟨node, hnode, hget, hid, -⟩ := packedRecords_known h hi
    subst hid
    rw [hget, MemoryNbtIndex.get, hnode, map_some, unpack_packFields]
  · rw [getElem?_eq_none (by simp; omega), MemoryNbtIndex.get]
    simp [MemoryNbtIndex.counted, (h.fresh i (by omega)).1]

theorem get_represents (h : Represents pi ix count) {id : Nat} (hid : id ≤ maxSafeInteger) :
    ∃ pi', PagedNbtIndex.get id pi = .ok (ix.counted.get id) pi' ∧ Represents pi' ix count := by
  obtain ⟨pager, hrecord, htables⟩ := record_spec h.tables (by rw [h.counts, packedRecords_length]) id
  refine ⟨{ pi with pager := pager }, ?_, htables, h.counts, h.opened, h.consistent⟩
  rw [PagedNbtIndex.get, serial_open h.opened, run_bind (orFail_sequence hid _), run_bind hrecord, ← unpack_record h.consistent]
  rfl

theorem childNodes_represents (start : Nat) (ids : List Nat) : ∀ pi, Represents pi ix count → (∀ id ∈ ids, id < count) →
      ∃ nodes pi', childNodes start ids pi = .ok nodes pi' ∧ Represents pi' ix count ∧
        nodes.map some = ids.map ix.counted.get := by
  induction ids with
  | nil => exact fun pi h _ => ⟨[], pi, rfl, h, rfl⟩
  | cons id ids ih =>
    intro pi h hids
    obtain ⟨node, hnode, hget, hnid, -⟩ := packedRecords_known h.consistent (hids id (by simp))
    obtain ⟨pager, hrecord, htables⟩ := record_spec h.tables (by rw [h.counts, packedRecords_length]) id
    have h₁ : Represents { pi with pager := pager } ix count := ⟨htables, h.counts, h.opened, h.consistent⟩
    obtain ⟨nodes, pi', hrest, h', hmap⟩ := ih _ h₁ (fun id hid => hids id (by simp [hid]))
    refine ⟨node :: nodes, pi', ?_, h', ?_⟩
    · rw [childNodes, run_bind hrecord, hget]
      simp only
      rw [run_bind hrest, ← hnid, unpack_packFields]
      rfl
    · rw [map_cons, map_cons, hmap, MemoryNbtIndex.get, hnode]

theorem childrenGo_represents (parent start end_ : Nat) (hend : end_ ≤ (childOffsets ix parent).length) (fuel : Nat) :
    ∀ ordinal pi, Represents pi ix count → end_ - ordinal ≤ fuel →
      ∃ nodes pi', childrenGo parent start end_ fuel ordinal pi = .ok nodes pi' ∧ Represents pi' ix count ∧
        nodes.map some = (slice (childOffsets ix parent) ordinal (end_ - ordinal)).map ix.counted.get := by
  induction fuel with
  | zero =>
    intro ordinal pi h hfuel
    refine ⟨[], pi, rfl, h, ?_⟩
    rw [show end_ - ordinal = 0 by omega]
    simp
  | succ fuel ih =>
    intro ordinal pi h hfuel
    by_cases hlt : ordinal < end_
    · set ids := childOffsets ix parent
      have hdiv := Nat.div_add_mod ordinal INDEX_FANOUT
      have hmod := Nat.mod_lt ordinal fanout_pos
      obtain ⟨page, hpage, -, -⟩ := pageOf_get fanout_pos (show ordinal < ids.length by omega)
      set take := min (end_ - ordinal) (INDEX_FANOUT - ordinal % INDEX_FANOUT)
      have htake : 0 < take := by omega
      -- what is read from this page is what stands in the list of children
      have hslice : slice page (ordinal % INDEX_FANOUT) take = slice ids ordinal take := by
        have hsome : pageOf INDEX_FANOUT ids (ordinal / INDEX_FANOUT) = some _ := pageOf_some (by omega)
        rw [hpage] at hsome
        rw [some.inj hsome, slice_slice _ _ _ _ _ (by omega), hdiv]
      have hlen : (slice ids ordinal take).length = take := slice_length ids (by omega)
      have hbody : readOffsets start ordinal end_ (.children page) = .ok (slice ids ordinal take, none) := by
        rw [← hslice]
        rfl
      have hview : WriteBack.view indexCodec pi.pager (childKey parent ordinal) = some (.children page) := by
        rw [childKey, h.tables.children, hpage]
        rfl
      obtain ⟨pager, hread, htables⟩ := readPage_spec h.tables hview hbody (stored_children (h.tables.offsets parent) hpage)
      have h₁ : Represents { pi with pager := pager } ix count := ⟨htables, h.counts, h.opened, h.consistent⟩
      have hmem : ∀ id ∈ slice ids ordinal take, id < count := fun id hid =>
        (childOffsets_eq h.consistent parent).2 id (mem_of_mem_drop (mem_of_mem_take hid))
      obtain ⟨nodes, pi₂, hnodes, h₂, hmap₂⟩ := childNodes_represents start _ _ h₁ hmem
      obtain ⟨rest, pi₃, hrest, h₃, hmap₃⟩ := ih (ordinal + take) pi₂ h₂ (by omega)
      refine ⟨nodes ++ rest, pi₃, ?_, h₃, ?_⟩
      · have hne : (!(slice ids ordinal take).isEmpty) = true := by
          cases hs : slice ids ordinal take with
          | nil =>
            rw [hs] at hlen
            simp at hlen
            omega
          | cons => rfl
        rw [childrenGo, if_pos hlt, run_bind hread, run_bind (check_ok hne _ _), run_bind hnodes, hlen, run_bind hrest]
        rfl
      · rw [map_append, hmap₂, hmap₃, ← map_append, slice_append_slice]
        congr 2
        omega
    · refine ⟨[], pi, ?_, h, ?_⟩
      · rw [childrenGo, if_neg hlt]
        rfl
      · rw [show end_ - ordinal = 0 by omega]
        simp

theorem children_represents (h : Represents pi ix count) {parent first limit : Nat} (hparent : parent ≤ maxSafeInteger)
    (hlimit : limit ≤ 512) (hrange : first + limit ≤ maxSafeInteger) :
    ∃ nodes pi', children parent first limit pi = .ok nodes pi' ∧ Represents pi' ix count ∧
      ix.counted.children parent first limit = .ok (nodes.map some) := by
  have hoffsets := (childOffsets_eq h.consistent parent).1
  have hmemory : ix.counted.children parent first limit =
      .ok ((slice (childOffsets ix parent) first limit).map ix.counted.get) := by
    simp only [MemoryNbtIndex.children, assertRange_ok hrange, bind, Except.bind]
    rw [show ix.counted.lists parent = (childOffsets ix parent).map some from hoffsets]
    simp only [slice, ← map_drop, ← map_take, List.map_map]
    rfl
  obtain ⟨pager, hrecord, htables⟩ := record_spec h.tables (by rw [h.counts, packedRecords_length]) parent
  have h₁ : Represents { pi with pager := pager } ix count := ⟨htables, h.counts, h.opened, h.consistent⟩
  have hstart : orFail ((assertRange first limit).mapError .nbt) pi = .ok () pi := by
    rw [assertRange_ok hrange]
    rfl
  rw [children, serial_open h.opened, run_bind hstart, run_bind (check_ok (by simpa using hlimit) _ _),
    run_bind (orFail_sequence hparent _), run_bind hrecord]
  by_cases hi : parent < count
  · obtain ⟨node, -, hget, -, -, hcount⟩ := packedRecords_known h.consistent hi
    rw [hget]
    simp only [(field_packFields node).2.2.2, (field_packFields node).1, Double.toNat_int]
    have hlen := childOffsets_length h.consistent parent
    obtain ⟨nodes, pi', hrun, h', hmap⟩ := childrenGo_represents parent node.start (min (first + limit) node.childCount)
      (by omega) _ first _ h₁ le_rfl
    refine ⟨nodes, pi', hrun, h', ?_⟩
    rw [hmemory, hmap]
    congr 2
    -- a slice stops at the end of the list
    by_cases hfirst : first + limit ≤ node.childCount
    · congr 1
      omega
    · rw [slice, slice, take_of_length_le (by rw [length_drop]; omega), take_of_length_le (by rw [length_drop]; omega)]
  · rw [getElem?_eq_none (by simp; omega)]
    refine ⟨[], { pi with pager := pager }, rfl, h₁, ?_⟩
    have hnil : childOffsets ix parent = [] := by
      rw [childOffsets, (h.consistent.fresh parent (by omega)).2]
      rfl
    rw [hmemory, hnil]
    simp [slice]

theorem readMetadata_bytes {count : Nat} (h : count ≤ maxSafeInteger) : readMetadata (metadataBytes count) = .ok count := by
  have hversion : slice (metadataBytes count) 0 4 = setUint true 4 1 := slice_eq_middle
    (show metadataBytes count = [] ++ setUint true 4 1 ++ (setUint true 4 0 ++ setFloat64 true (.int count)) by
      simp [metadataBytes, append_assoc]) rfl (by simp)
  have hcount : slice (metadataBytes count) 8 8 = setFloat64 true (.int count) := slice_eq_middle
    (show metadataBytes count = (setUint true 4 1 ++ setUint true 4 0) ++ setFloat64 true (.int count) ++ [] by
      simp [metadataBytes]) (by simp) (by simp)
  have hlen : (metadataBytes count).length = 16 := by simp [metadataBytes]
  have hback := getFloat64_setFloat64 true (.inl (nonnegative_safe (nonnegative_int h)))
  rw [readMetadata, if_neg (by simp [hlen])]
  simp only [hversion, hcount, hback, nonnegative_int h, getUint_setUint]
  rfl

theorem reopen_represents (h : Represents pi ix count) {maxPages : Nat} (hpos : 1 ≤ maxPages) (hsafe : maxPages ≤ maxSafeInteger) :
    ∃ pi₁ pi₂, flush pi = .ok () pi₁ ∧ PagedNbtIndex.open pi₁.pager.store pi₁.metadata maxPages = .ok pi₂ ∧
      Represents pi₁ ix count ∧ Represents pi₂ ix count ∧ pi₂.maxPages = maxPages := by
  obtain ⟨pager, hflush, hsound, hview, hstore⟩ := WriteBack.flush_spec h.tables.sound
  refine ⟨{ pi with pager := pager, metadata := some (metadataBytes pi.count) },
    ⟨⟨[], pager.store, 0⟩, some (metadataBytes pi.count), maxPages, pi.count, false⟩, ?_, ?_, ?_, ?_, rfl⟩
  · unfold flush serial
    rw [if_neg (by simp [h.opened])]
    simp only [hflush]
  · rw [PagedNbtIndex.open, if_neg (by omega)]
    simp only [readMetadata_bytes (show pi.count ≤ maxSafeInteger by rw [h.counts]; exact h.consistent.count_le), Except.map]
  · refine ⟨⟨h.tables.positive, hsound, ?_, ?_, h.tables.records, h.tables.offsets⟩, h.counts, h.opened, h.consistent⟩
    · exact fun k => (hview _).trans (h.tables.nodes k)
    · exact fun p k => (hview _).trans (h.tables.children p k)
  · refine ⟨⟨hpos, ?_, ?_, ?_, h.tables.records, h.tables.offsets⟩, h.counts, rfl, h.consistent⟩
    · exact WriteBack.sound_start pager.store fun key page hp =>
        h.tables.sound.faithful key page ((hstore key).symm.trans hp)
    · exact fun k => (hstore _).trans (h.tables.nodes k)
    · exact fun p k => (hstore _).trans (h.tables.children p k)

theorem open_represents {maxPages : Nat} (h : PagedNbtIndex.open (fun _ => none) none maxPages = .ok pi) :
    Represents pi .empty 0 ∧ pi.maxPages = maxPages := by
  unfold PagedNbtIndex.open at h
  split_ifs at h with hbad
  cases h
  refine ⟨⟨⟨by simp only; omega, ?_, fun _ => rfl, fun _ _ => rfl, ?_, ?_⟩, rfl, rfl, Published.start.consistent⟩, rfl⟩
  · exact WriteBack.sound_start _ fun _ _ hp => by cases hp
  · intro r hr
    cases hr
  · intro p id hid
    cases hid

end Cantrip.Nbt
