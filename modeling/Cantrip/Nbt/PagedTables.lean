import Cantrip.Nbt.PagedCodec

/-!
# The tables behind a paged index

Seen through its pager, a paged index is a list of records and, for every node, a list of identities
(`Tables`). Reading and writing pages are operations on these lists, whatever the pager evicts.
-/

namespace Cantrip.Nbt

open Lib PagedNbtIndex List Function

structure Tables (pi : PagedNbtIndex) (xs : List (List Double)) (offs : Nat → List Nat) : Prop where
  positive : 0 < pi.maxPages
  sound : WriteBack.Sound indexCodec pi.maxPages pi.pager
  nodes : ∀ k, WriteBack.view indexCodec pi.pager (.nodes k) = (pageOf INDEX_FANOUT xs k).map .nodes
  children : ∀ p k, WriteBack.view indexCodec pi.pager (.children p k) = (pageOf INDEX_FANOUT (offs p) k).map .children
  records : ∀ r ∈ xs, validRecord r = true
  offsets : ∀ p, ∀ id ∈ offs p, id ≤ maxSafeInteger

variable {pi : PagedNbtIndex} {xs : List (List Double)} {offs : Nat → List Nat}

theorem fanout_pos : 0 < INDEX_FANOUT := by decide

theorem stored_nodes {page : List (List Double)} {k : Nat} (hrecords : ∀ r ∈ xs, validRecord r = true)
    (h : pageOf INDEX_FANOUT xs k = some page) : (IndexPage.nodes page).Stored := by
  refine ⟨?_, fun r hr => hrecords r (pageOf_mem h r hr)⟩
  rw [pageOf_length h]
  exact Nat.min_le_left _ _

theorem stored_children {ids page : List Nat} {k : Nat} (hids : ∀ id ∈ ids, id ≤ maxSafeInteger)
    (h : pageOf INDEX_FANOUT ids k = some page) : (IndexPage.children page).Stored := by
  refine ⟨?_, fun id hid => hids id (pageOf_mem h id hid)⟩
  rw [pageOf_length h]
  exact Nat.min_le_left _ _

section

variable (h : Tables pi xs offs)
include h

theorem usePage_spec {α : Type} {key : PageKey} {create changed : Option IndexPage}
    {page : IndexPage} {a : α} {body : IndexPage → Except IndexError (α × Option IndexPage)}
    (hopen : WriteBack.Opens indexCodec pi.pager key create page) (hbody : body page = .ok (a, changed))
    (hstored : (changed.getD page).Stored) :
    ∃ pager, usePage key create body pi = .ok a { pi with pager := pager } ∧ WriteBack.Sound indexCodec pi.maxPages pager ∧
      ∀ k, WriteBack.view indexCodec pager k =
        if k = key then some (changed.getD page) else WriteBack.view indexCodec pi.pager k := by
  obtain ⟨pager, hrun, hsound, hview⟩ :=
    WriteBack.withPage_spec h.positive h.sound hopen hbody (indexCodec_faithful hstored)
  exact ⟨pager, by simp only [usePage, hrun], hsound, hview⟩

theorem readPage_spec {α : Type} {key : PageKey} {page : IndexPage} {a : α}
    {body : IndexPage → Except IndexError (α × Option IndexPage)}
    (hview : WriteBack.view indexCodec pi.pager key = some page) (hbody : body page = .ok (a, none))
    (hstored : page.Stored) :
    ∃ pager, usePage key none body pi = .ok a { pi with pager := pager } ∧ Tables { pi with pager := pager } xs offs := by
  obtain ⟨pager, hrun, hsound, hview'⟩ := usePage_spec h (.inl ⟨rfl, hview⟩) hbody hstored
  have hsame : ∀ k, WriteBack.view indexCodec pager k = WriteBack.view indexCodec pi.pager k := by
    intro k
    rw [hview']
    split_ifs with hk
    · rw [hk, hview]
      rfl
    · rfl
  exact ⟨pager, hrun, h.positive, hsound, fun k => by rw [hsame]; exact h.nodes k,
    fun p k => by rw [hsame]; exact h.children p k, h.records, h.offsets⟩

theorem record_spec (hcount : pi.count = xs.length) (i : Nat) :
    ∃ pager, record i pi = .ok xs[i]? { pi with pager := pager } ∧ Tables { pi with pager := pager } xs offs := by
  by_cases hi : pi.count ≤ i
  · refine ⟨pi.pager, ?_, h⟩
    have hnone : xs[i]? = none := getElem?_eq_none (by omega)
    rw [record, run_get, if_pos hi, hnone]
    rfl
  · obtain ⟨page, hpage, hlt, hget⟩ := pageOf_get fanout_pos (show i < xs.length by omega)
    obtain ⟨r, hr⟩ : ∃ r, page[i % INDEX_FANOUT]? = some r := ⟨_, getElem?_eq_getElem hlt⟩
    have hbody : readRecord i (.nodes page) = .ok (r, none) := by simp [readRecord, hr]
    have hview : WriteBack.view indexCodec pi.pager (nodeKey i) = some (.nodes page) := by
      rw [nodeKey, h.nodes, hpage]
      rfl
    obtain ⟨pager, hrun, htables⟩ := readPage_spec h hview hbody (stored_nodes h.records hpage)
    refine ⟨pager, ?_, htables⟩
    rw [← hget, hr]
    rw [record, run_get, if_neg hi]
    simp only [Functor.map, EStateM.map, hrun]

theorem write_append {r : List Double} (hr : validRecord r = true) :
    ∃ pager, write xs.length r true pi = .ok () { pi with pager := pager } ∧
      Tables { pi with pager := pager } (xs ++ [r]) offs := by
  set k := xs.length / INDEX_FANOUT with hk
  have happend := pageOf_append fanout_pos xs r
  have hrecords : ∀ r' ∈ xs ++ [r], validRecord r' = true := by
    intro r' hr'
    rcases mem_append.mp hr' with hmem | hmem
    · exact h.records r' hmem
    · rw [mem_singleton.mp hmem]
      exact hr
  -- the page before the record is added
  have hpage : ∃ page, WriteBack.Opens indexCodec pi.pager (nodeKey xs.length)
      (if true ∧ xs.length % INDEX_FANOUT = 0 then some (.nodes []) else none) (.nodes page) ∧
      page.length = xs.length % INDEX_FANOUT ∧ (pageOf INDEX_FANOUT xs k).getD [] = page := by
    by_cases hfull : xs.length % INDEX_FANOUT = 0
    · have hnone := (pageOf_last fanout_pos xs).1 hfull
      refine ⟨[], .inr ⟨if_pos ⟨rfl, hfull⟩, ?_⟩, hfull.symm, by rw [hnone]; rfl⟩
      rw [nodeKey, h.nodes, hnone]
      rfl
    · obtain ⟨page, hsome, hlen⟩ := (pageOf_last fanout_pos xs).2 hfull
      refine ⟨page, .inl ⟨if_neg (fun hand => hfull hand.2), ?_⟩, hlen, by rw [hsome]; rfl⟩
      rw [nodeKey, h.nodes, hsome]
      rfl
  obtain ⟨page, hopen, hlen, hgetD⟩ := hpage
  have hnew : pageOf INDEX_FANOUT (xs ++ [r]) k = some (page ++ [r]) := by
    rw [happend, if_pos rfl, hgetD]
  have hbody : writeRecord xs.length r true (.nodes page) = .ok ((), some (.nodes (page ++ [r]))) := by
    simp only [writeRecord, if_true]
    rw [if_neg (by omega), ← hlen, take_length, drop_eq_nil_of_le (Nat.le_succ _)]
  obtain ⟨pager, hrun, hsound, hview⟩ := usePage_spec h hopen hbody (stored_nodes hrecords hnew)
  refine ⟨pager, hrun, h.positive, hsound, ?_, ?_, hrecords, h.offsets⟩
  · intro j
    rw [hview]
    by_cases hj : j = k
    · subst hj
      rw [if_pos (by rfl), hnew]
      rfl
    · rw [if_neg (by simpa [nodeKey] using hj), happend, if_neg hj]
      exact h.nodes j
  · intro p j
    rw [hview, if_neg (by simp [nodeKey])]
    exact h.children p j

theorem write_set {i : Nat} (hi : i < xs.length) {r : List Double} (hr : validRecord r = true) :
    ∃ pager, write i r false pi = .ok () { pi with pager := pager } ∧
      Tables { pi with pager := pager } (xs.set i r) offs := by
  have hset := pageOf_set fanout_pos xs i r
  have hrecords : ∀ r' ∈ xs.set i r, validRecord r' = true := by
    intro r' hr'
    rcases mem_or_eq_of_mem_set hr' with hmem | rfl
    · exact h.records r' hmem
    · exact hr
  obtain ⟨page, hpage, hlt, -⟩ := pageOf_get fanout_pos hi
  have hnew : pageOf INDEX_FANOUT (xs.set i r) (i / INDEX_FANOUT) = some (page.set (i % INDEX_FANOUT) r) := by
    rw [hset, if_pos rfl, hpage]
    rfl
  have hbody : writeRecord i r false (.nodes page) = .ok ((), some (.nodes (page.set (i % INDEX_FANOUT) r))) := by
    simp only [writeRecord, Bool.false_eq_true, if_false]
    rw [if_neg (by omega), set_eq_take_append_cons_drop, if_pos hlt]
  have hopen : WriteBack.Opens indexCodec pi.pager (nodeKey i)
      (if false = true ∧ i % INDEX_FANOUT = 0 then some (.nodes []) else none) (.nodes page) := by
    refine .inl ⟨by simp, ?_⟩
    rw [nodeKey, h.nodes, hpage]
    rfl
  obtain ⟨pager, hrun, hsound, hview⟩ := usePage_spec h hopen hbody (stored_nodes hrecords hnew)
  refine ⟨pager, hrun, h.positive, hsound, ?_, ?_, hrecords, h.offsets⟩
  · intro j
    rw [hview]
    by_cases hj : j = i / INDEX_FANOUT
    · subst hj
      rw [if_pos (by rfl), hnew]
      rfl
    · rw [if_neg (by simpa [nodeKey] using hj), hset, if_neg hj]
      exact h.nodes j
  · intro p j
    rw [hview, if_neg (by simp [nodeKey])]
    exact h.children p j

theorem pushChild_spec (start p : Nat) {id : Nat} (hid : id ≤ maxSafeInteger) :
    ∃ pager, usePage (childKey p (offs p).length) (if (offs p).length % INDEX_FANOUT = 0 then some (.children []) else none)
        (pushChild start (offs p).length id) pi = .ok () { pi with pager := pager } ∧
      Tables { pi with pager := pager } xs (update offs p (offs p ++ [id])) := by
  set ids := offs p with hids
  set k := ids.length / INDEX_FANOUT with hk
  have happend := pageOf_append fanout_pos ids id
  have hsafe : ∀ q, ∀ id' ∈ update offs p (ids ++ [id]) q, id' ≤ maxSafeInteger := by
    intro q id' hmem
    by_cases hq : q = p
    · subst hq
      rw [update_self] at hmem
      rcases mem_append.mp hmem with hmem | hmem
      · exact h.offsets q id' hmem
      · rw [mem_singleton.mp hmem]
        exact hid
    · rw [update_of_ne hq] at hmem
      exact h.offsets q id' hmem
  have hpage : ∃ page, WriteBack.Opens indexCodec pi.pager (childKey p ids.length)
      (if ids.length % INDEX_FANOUT = 0 then some (.children []) else none) (.children page) ∧
      page.length = ids.length % INDEX_FANOUT ∧ (pageOf INDEX_FANOUT ids k).getD [] = page := by
    by_cases hfull : ids.length % INDEX_FANOUT = 0
    · have hnone := (pageOf_last fanout_pos ids).1 hfull
      refine ⟨[], .inr ⟨if_pos hfull, ?_⟩, hfull.symm, by rw [hnone]; rfl⟩
      rw [childKey, h.children, ← hids, hnone]
      rfl
    · obtain ⟨page, hsome, hlen⟩ := (pageOf_last fanout_pos ids).2 hfull
      refine ⟨page, .inl ⟨if_neg hfull, ?_⟩, hlen, by rw [hsome]; rfl⟩
      rw [childKey, h.children, ← hids, hsome]
      rfl
  obtain ⟨page, hopen, hlen, hgetD⟩ := hpage
  have hnew : pageOf INDEX_FANOUT (ids ++ [id]) k = some (page ++ [id]) := by
    rw [happend, if_pos rfl, hgetD]
  have hbody : pushChild start ids.length id (.children page) = .ok ((), some (.children (page ++ [id]))) := by
    simp [pushChild, hlen]
  have hstored : (IndexPage.children (page ++ [id])).Stored :=
    stored_children (fun id' hmem => hsafe p id' (by rw [update_self]; exact hmem)) hnew
  obtain ⟨pager, hrun, hsound, hview⟩ := usePage_spec h hopen hbody hstored
  refine ⟨pager, hrun, h.positive, hsound, ?_, ?_, h.records, hsafe⟩
  · intro j
    rw [hview, if_neg (by simp [childKey])]
    exact h.nodes j
  · intro q j
    rw [hview]
    by_cases hq : q = p
    · subst hq
      rw [update_self, happend]
      by_cases hj : j = k
      · subst hj
        rw [if_pos (by rfl), if_pos rfl, hgetD]
        rfl
      · rw [if_neg (by simpa [childKey] using hj), if_neg hj]
        exact h.children q j
    · rw [if_neg (by simp [childKey, hq]), update_of_ne hq]
      exact h.children q j

end

end Cantrip.Nbt
