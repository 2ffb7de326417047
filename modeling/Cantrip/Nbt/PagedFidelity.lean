import Cantrip.Nbt.PagedRefine
import Cantrip.Nbt.ScanPuts

/-!
# The paged index against the in-memory index

Scripts interleave the records of a scan with reads and with reopening from the flushed cache. Over every
script the paged index answers as the in-memory index does, save that a container that is still open shows
the children it has so far (`pagedIndex_refines`).
-/

namespace Cantrip.Nbt

open Lib List Option

/-- The calls of a client of an index. `reopen` flushes the index and opens a new one over its cache. -/
inductive Access
  | put (node : NbtNode)
  | get (id : Nat)
  | children (parent first limit : Nat)
  | reopen (maxPages : Nat)

inductive Answer
  | done
  | node (value : Option NbtNode)
  | nodes (values : List (Option NbtNode))
  deriving DecidableEq, Repr

namespace Access

/-- The record a call puts. -/
def put? : Access → Option NbtNode
  | put node => some node
  | _ => none

/-- Calls with identities `node:k` of safe numbers, with pages of at most 512 children, and with a bounded
number of cache pages. -/
def Allowed : Access → Prop
  | put _ => True
  | get id => id ≤ maxSafeInteger
  | children parent _ limit => parent ≤ maxSafeInteger ∧ limit ≤ 512
  | reopen maxPages => 1 ≤ maxPages ∧ maxPages ≤ maxSafeInteger

end Access

def outcome {α : Type} (answer : α → Answer) :
    EStateM.Result IndexError PagedNbtIndex α → Except IndexError Answer × PagedNbtIndex
  | .ok a pi => (.ok (answer a), pi)
  | .error e pi => (.error e, pi)

def PagedNbtIndex.access (pi : PagedNbtIndex) : Access → Except IndexError Answer × PagedNbtIndex
  | .put node => outcome (fun _ => .done) (put node pi)
  | .get id => outcome .node (PagedNbtIndex.get id pi)
  | .children parent first limit => outcome (fun nodes => .nodes (nodes.map some)) (children parent first limit pi)
  | .reopen maxPages =>
    match flush pi with
    | .error e pi => (.error e, pi)
    | .ok _ pi =>
      match PagedNbtIndex.open pi.pager.store pi.metadata maxPages with
      | .ok pi' => (.ok .done, pi')
      | .error e => (.error e, pi)

def MemoryNbtIndex.access (ix : MemoryNbtIndex) : Access → Except IndexError Answer × MemoryNbtIndex
  | .put node =>
    match ix.put node with
    | .ok ix' => (.ok .done, ix')
    | .error e => (.error (.nbt e), ix)
  | .get id => (.ok (.node (ix.get id)), ix)
  | .children parent first limit =>
    (match ix.children parent first limit with
      | .ok nodes => .ok (.nodes nodes)
      | .error e => .error (.nbt e), ix)
  | .reopen _ => (.ok .done, ix)

def MemoryNbtIndex.countedAccess (ix : MemoryNbtIndex) (call : Access) : Except IndexError Answer × MemoryNbtIndex :=
  ((ix.counted.access call).1, (ix.access call).2)

section Script

variable {σ : Type} (access : σ → Access → Except IndexError Answer × σ)

def answers : σ → List Access → List (Except IndexError Answer)
  | _, [] => []
  | s, call :: script => (access s call).1 :: answers (access s call).2 script

def afterScript : σ → List Access → σ
  | s, [] => s
  | s, call :: script => afterScript (access s call).2 script

end Script

variable {ix : MemoryNbtIndex}

theorem counted_put_ok {ix' : MemoryNbtIndex} {node : NbtNode} (h : ix.put node = .ok ix') :
    ∃ ix'', ix.counted.put node = .ok ix'' := by
  unfold MemoryNbtIndex.put at h ⊢
  cases hnode : ix.nodes node.id with
  | none =>
    simp only [MemoryNbtIndex.counted, hnode, map_none]
    cases node.parent <;> exact ⟨_, rfl⟩
  | some previous =>
    simp only [hnode] at h
    simp only [MemoryNbtIndex.counted, hnode, map_some]
    split_ifs at h ⊢
    exact ⟨_, rfl⟩

theorem Represents.peak {pi : PagedNbtIndex} {count : Nat} (h : Represents pi ix count) :
    pi.pager.pages.length ≤ pi.maxPages ∧ pi.pager.peak ≤ pi.maxPages :=
  ⟨h.tables.sound.bounded, h.tables.sound.peak⟩

theorem access_represents {pi : PagedNbtIndex} {count : Nat} {log : List NbtNode}
    (h : Represents pi ix count) (hpub : Published log ix count) {call : Access} (hcall : call.Allowed)
    (hput : ∀ node, call.put? = some node → ∃ ix' next, Published (log ++ [node]) ix' next) :
    (pi.access call).1 = (ix.countedAccess call).1 ∧ ∃ next, Represents (pi.access call).2 (ix.countedAccess call).2 next ∧
        Published (log ++ call.put?.toList) (ix.countedAccess call).2 next := by
  cases call with
  | put node =>
    obtain ⟨ix', next, hnext⟩ := hput node rfl
    obtain ⟨ix₀, count₀, hpub₀, hnode, hann, hstep⟩ := hnext.last
    obtain ⟨rfl, rfl⟩ := hpub.unique hpub₀
    obtain ⟨pi', hrun, h'⟩ := represents_put h hnode hann hstep
    obtain ⟨ix'', hcounted⟩ := counted_put_ok hstep
    simp only [PagedNbtIndex.access, MemoryNbtIndex.countedAccess, MemoryNbtIndex.access, hrun, hcounted, hstep, outcome]
    exact ⟨trivial, next, h', hnext⟩
  | get id =>
    obtain ⟨pi', hrun, h'⟩ := get_represents h hcall
    simp only [PagedNbtIndex.access, MemoryNbtIndex.countedAccess, MemoryNbtIndex.access, hrun, outcome]
    exact ⟨trivial, count, h', by simpa [Access.put?] using hpub⟩
  | children parent first limit =>
    by_cases hrange : first + limit ≤ maxSafeInteger
    · obtain ⟨nodes, pi', hrun, h', hmemory⟩ := children_represents h hcall.1 hcall.2 hrange
      simp only [PagedNbtIndex.access, MemoryNbtIndex.countedAccess, MemoryNbtIndex.access, hrun, hmemory, outcome]
      exact ⟨trivial, count, h', by simpa [Access.put?] using hpub⟩
    · -- both refuse the range before they look at anything
      have hbad : assertRange first limit = .error ⟨first, "Invalid byte range"⟩ := if_neg hrange
      have hrun : PagedNbtIndex.children parent first limit pi = .error (.nbt ⟨first, "Invalid byte range"⟩) pi := by
        rw [PagedNbtIndex.children, serial_open h.opened, hbad]
        rfl
      simp only [PagedNbtIndex.access, MemoryNbtIndex.countedAccess, MemoryNbtIndex.access, MemoryNbtIndex.children, hrun,
        hbad, outcome, bind, Except.bind]
      exact ⟨trivial, count, h, by simpa [Access.put?] using hpub⟩
  | reopen maxPages =>
    obtain ⟨pi₁, pi₂, hflush, hopen, -, h₂, -⟩ := reopen_represents h hcall.1 hcall.2
    simp only [PagedNbtIndex.access, MemoryNbtIndex.countedAccess, MemoryNbtIndex.access, hflush, hopen]
    exact ⟨trivial, count, h₂, by simpa [Access.put?] using hpub⟩

theorem script_represents (script : List Access) :
    ∀ {pi : PagedNbtIndex} {ix : MemoryNbtIndex} {count : Nat} {log all : List NbtNode}, Represents pi ix count →
      Published log ix count → (∃ ix' count', Published all ix' count') → (∀ call ∈ script, call.Allowed) →
      log ++ script.filterMap Access.put? <+: all →
      answers PagedNbtIndex.access pi script = answers MemoryNbtIndex.countedAccess ix script ∧
        ∃ next, Represents (afterScript PagedNbtIndex.access pi script) (afterScript MemoryNbtIndex.countedAccess ix script) next ∧
          Published (log ++ script.filterMap Access.put?) (afterScript MemoryNbtIndex.countedAccess ix script) next := by
  induction script with
  | nil =>
    intro pi ix count log all h hpub _ _ _
    exact ⟨rfl, count, h, by simpa [afterScript] using hpub⟩
  | cons call script ih =>
    intro pi ix count log all h hpub hall hallowed hprefix
    have hputs : (call :: script).filterMap Access.put? = call.put?.toList ++ script.filterMap Access.put? := by
      cases hc : call.put? <;> simp [hc]
    rw [hputs, ← append_assoc] at hprefix
    have hput : ∀ node, call.put? = some node → ∃ ix' next, Published (log ++ [node]) ix' next := by
      intro node hnode
      obtain ⟨ix', count', hpub'⟩ := hall
      rw [hnode] at hprefix
      exact hpub'.of_prefix ((prefix_append _ _).trans hprefix)
    obtain ⟨hanswer, next, h', hpub'⟩ := access_represents h hpub (hallowed call (by simp)) hput
    obtain ⟨hrest, final, hrep, hpublished⟩ := ih h' hpub' hall (fun c hc => hallowed c (by simp [hc])) hprefix
    refine ⟨by simp only [answers, hanswer, hrest], final, hrep, ?_⟩
    rw [hputs, ← append_assoc]
    exact hpublished

theorem counted_of_complete {count : Nat} (h : Consistent ix count) {id : Nat} {node : NbtNode}
    (hnode : ix.get id = some node) (hend : node.endAt.isSome) : ix.counted.get id = some node := by
  have hnode' : ix.nodes id = some node := hnode
  obtain ⟨known, hknown, -, -, hcount⟩ := h.known id (h.lt_count hnode')
  rw [hnode'] at hknown
  cases hknown
  rcases hcount with hopen | hcount
  · rw [hopen] at hend
    cases hend
  · simp [MemoryNbtIndex.get, MemoryNbtIndex.counted, hnode', ← hcount]

/-- For every scan of every input, every bound on the decoded pages and every script that interleaves the
records the scan puts with reads and with flushing and reopening: the paged index answers every call as the
in-memory index of the same records does, with the children counted so far; it never decodes more pages than
allowed; records of nodes that are complete are those of the in-memory index; and once a scan has returned and
all its records are put, all of them are. -/
theorem pagedIndex_refines {source : NbtByteSource} {bytes : Bytes} (hsrc : Conforms source bytes)
    (encoding : NbtEncoding) (maxDepth fuel : Nat) {maxPages : Nat} {pi : PagedNbtIndex}
    (hopen : PagedNbtIndex.open (fun _ => none) none maxPages = .ok pi) {script : List Access}
    (hallowed : ∀ call ∈ script, call.Allowed)
    (hputs : script.filterMap Access.put? <+: scanPuts source encoding maxDepth fuel) :
    answers PagedNbtIndex.access pi script = answers MemoryNbtIndex.countedAccess .empty script ∧
      (afterScript PagedNbtIndex.access pi script).pager.pages.length ≤ (afterScript PagedNbtIndex.access pi script).maxPages ∧
      (afterScript PagedNbtIndex.access pi script).pager.peak ≤ (afterScript PagedNbtIndex.access pi script).maxPages ∧
      (∀ id node, (afterScript MemoryNbtIndex.countedAccess .empty script).get id = some node → node.endAt.isSome →
        (afterScript MemoryNbtIndex.countedAccess .empty script).counted.get id = some node) ∧
      (ScanReturns source encoding maxDepth fuel → script.filterMap Access.put? = scanPuts source encoding maxDepth fuel →
        (afterScript MemoryNbtIndex.countedAccess .empty script).counted = afterScript MemoryNbtIndex.countedAccess .empty script) := by
  obtain ⟨ixAll, countAll, hall, hcomplete⟩ := scanPuts_published hsrc encoding maxDepth fuel
  obtain ⟨h, -⟩ := open_represents hopen
  obtain ⟨hanswers, next, hrep, hpub⟩ := script_represents script h .start ⟨ixAll, countAll, hall⟩ hallowed (by simpa using hputs)
  refine ⟨hanswers, hrep.peak.1, hrep.peak.2, fun id node => counted_of_complete hrep.consistent, ?_⟩
  intro hreturns heq
  simp only [List.nil_append] at hpub
  rw [heq] at hpub
  obtain ⟨rfl, rfl⟩ := hpub.unique hall
  have hnodes : ∀ i, (afterScript MemoryNbtIndex.countedAccess .empty script).counted.nodes i =
      (afterScript MemoryNbtIndex.countedAccess .empty script).nodes i := by
    intro i
    cases hi : (afterScript MemoryNbtIndex.countedAccess .empty script).nodes i with
    | none => simp [MemoryNbtIndex.counted, hi]
    | some node => exact counted_of_complete hrep.consistent hi (hcomplete hreturns i node hi)
  have hlists : (afterScript MemoryNbtIndex.countedAccess .empty script).counted.lists =
      (afterScript MemoryNbtIndex.countedAccess .empty script).lists := rfl
  generalize afterScript MemoryNbtIndex.countedAccess .empty script = ix at hnodes hlists
  show (⟨ix.counted.nodes, ix.counted.lists⟩ : MemoryNbtIndex) = ⟨ix.nodes, ix.lists⟩
  rw [funext hnodes, hlists]

section Sample

def sampleEncodingBig : NbtEncoding := ⟨.big, true, .mutf8, false⟩

def openCompoundBytes : Bytes := [10, 0, 0, 1, 0, 0, 5, 0]

def openRoot : NbtNode := ⟨0, none, 0, .compound, some ⟨3, 0⟩, 0, 3, none, 0, none, none, none, none⟩

def byteChild : NbtNode := ⟨1, some 0, 0, .byte, some ⟨6, 0⟩, 3, 6, some 7, 0, none, none, none, none⟩

/-- The root is read before the scan has ended it. -/
def openScript : List Access := [.put openRoot, .put byteChild, .get 0, .reopen 2, .children 0 0 512]

def openIndex : PagedNbtIndex := ⟨⟨[], fun _ => none, 0⟩, none, 1, 0, false⟩

theorem openScript_puts :
    openScript.filterMap Access.put? <+: scanPuts (memoryNbtSource openCompoundBytes) sampleEncodingBig defaultMaxDepth 9 := by
  decide +kernel

theorem openScript_allowed : ∀ call ∈ openScript, call.Allowed := by
  simp [openScript, Access.Allowed, maxSafeInteger]

theorem pagedIndex_refines_open : answers PagedNbtIndex.access openIndex openScript =
      [.ok .done, .ok .done, .ok (.node (some { openRoot with childCount := 1 })), .ok .done, .ok (.nodes [some byteChild])] := by
  have hsrc : Conforms (memoryNbtSource openCompoundBytes) openCompoundBytes := memoryNbtSource_conforms (by decide)
  have hopen : PagedNbtIndex.open (fun _ => none) none 1 = .ok openIndex := rfl
  rw [(pagedIndex_refines hsrc sampleEncodingBig defaultMaxDepth 9 hopen openScript_allowed openScript_puts).1]
  decide +kernel

/-- The in-memory index has not counted the child yet. -/
theorem partial_counts_differ :
    openScript.filterMap Access.put? <+: scanPuts (memoryNbtSource openCompoundBytes) sampleEncodingBig defaultMaxDepth 9 ∧
      PagedNbtIndex.open (fun _ => none) none 1 = .ok openIndex ∧
      answers PagedNbtIndex.access openIndex openScript ≠ answers MemoryNbtIndex.access .empty openScript := by
  refine ⟨openScript_puts, rfl, ?_⟩
  decide +kernel

end Sample

end Cantrip.Nbt
