import Mathlib.Algebra.Order.Ring.Nat
import Cantrip.Gateway.Credit

/-!
# No credit is lost

While the channel is open, its credit, the bytes that are being written and the credits that are queued make up the initial credit, and
the credits that the client has, that are on their way and that are queued make up what has been written (`Conserved`).
-/

namespace Cantrip.Gateway

open Lib List

def PendingCarrierControl.credited : PendingCarrierControl → Nat
  | .credit .clientToWorker bytes => bytes
  | _ => 0

def creditedBytes (pending : List PendingCarrierControl) : Nat := (pending.map PendingCarrierControl.credited).sum

namespace Link

def pendingBytes (l : Link) : Nat := creditedBytes l.channel.pendingCarrierControls

def writingBytes (l : Link) : Nat :=
  match l.handling with
  | some (.write bytes) => bytes
  | _ => 0

end Link

@[simp] theorem creditedBytes_nil : creditedBytes [] = 0 := rfl

@[simp] theorem creditedBytes_cons (detail : PendingCarrierControl) (pending : List PendingCarrierControl) :
    creditedBytes (detail :: pending) = detail.credited + creditedBytes pending := by
  rw [creditedBytes, map_cons, sum_cons]
  rfl

@[simp] theorem creditedBytes_append (pending more : List PendingCarrierControl) :
    creditedBytes (pending ++ more) = creditedBytes pending + creditedBytes more := by
  rw [creditedBytes, map_append, sum_append]
  rfl

variable {l l' : Link} {detail : PendingCarrierControl}

/-! ## The queue -/

theorem creditedBytes_mergeLast {pending merged : List PendingCarrierControl} (h : Link.mergeLast detail pending = some merged) :
    creditedBytes merged = creditedBytes pending + detail.credited := by
  unfold Link.mergeLast at h
  split at h
  · rename_i last bytes direction more hlast
    split at h
    · rename_i hmerge
      cases h
      obtain ⟨before, rfl⟩ := getLast?_eq_some_iff.1 hlast
      rw [dropLast_concat, creditedBytes_append, creditedBytes_append, hmerge.2.1]
      cases direction <;> simp [PendingCarrierControl.credited]
      omega
    · cases h
  · cases h

theorem queue_eq (h : l.queueCarrierControl detail = some l') :
    ∃ pending, l' = l.setPending pending ∧ creditedBytes pending = l.pendingBytes + detail.credited := by
  unfold Link.queueCarrierControl at h
  split at h
  · rename_i pending hmerge
    cases h
    exact ⟨pending, rfl, creditedBytes_mergeLast hmerge⟩
  · split at h
    · cases h
    · cases h
      refine ⟨_, rfl, ?_⟩
      rw [creditedBytes_append, creditedBytes_cons, creditedBytes_nil, Nat.add_zero]
      rfl

/-- What is looked at here, but the queue of controls and the credits on their way. -/
structure Link.Same (l l' : Link) : Prop where
  inbound : l'.channel.inboundCreditBytes = l.channel.inboundCreditBytes
  initial : l'.initialCreditBytes = l.initialCreditBytes
  isOpen : l'.isOpen = l.isOpen
  handling : l'.handling = l.handling
  inputTail : l'.inputTail = l.inputTail
  written : l'.written = l.written
  sent : l'.sent = l.sent
  received : l'.received = l.received
  obedient : l'.obedient = l.obedient

theorem Link.Same.refl (l : Link) : l.Same l := ⟨rfl, rfl, rfl, rfl, rfl, rfl, rfl, rfl, rfl⟩

theorem respond_spec (l : Link) (detail : PendingCarrierControl) :
    l.Same (l.respond detail) ∧ (l.respond detail).pendingBytes = l.pendingBytes ∧
      (l.respond detail).toClient.sum = l.toClient.sum + detail.credited := by
  refine ⟨⟨rfl, rfl, rfl, rfl, rfl, rfl, rfl, rfl, rfl⟩, rfl, ?_⟩
  cases detail with
  | credit direction bytes =>
    cases direction with
    | clientToWorker => simp [Link.respond, PendingCarrierControl.credited]
    | workerToClient => rfl
  | halfClose => rfl
  | error code => rfl

theorem wait_spec (l : Link) : l.Same l.waitForCarrierCapacity ∧ l.waitForCarrierCapacity.pendingBytes = l.pendingBytes ∧
      l.waitForCarrierCapacity.toClient = l.toClient := by
  unfold Link.waitForCarrierCapacity
  split
  · exact ⟨⟨rfl, rfl, rfl, rfl, rfl, rfl, rfl, rfl, rfl⟩, rfl, rfl⟩
  · exact ⟨Link.Same.refl l, rfl, rfl⟩

theorem emit_spec {accepts : Bool} {result : ReliableControlResult} (h : l.emitReliableControl detail accepts = (l', result)) :
    l.Same l' ∧ match result with
      | .sent => l'.pendingBytes = l.pendingBytes ∧ l'.toClient.sum = l.toClient.sum + detail.credited
      | .queued => l'.pendingBytes = l.pendingBytes + detail.credited ∧ l'.toClient.sum = l.toClient.sum
      | .failed => l' = l := by
  unfold Link.emitReliableControl at h
  split at h
  · cases h
    exact respond_spec l detail
  · split at h
    · cases h
      exact ⟨Link.Same.refl l, rfl⟩
    · split at h
      · cases h
        exact ⟨Link.Same.refl l, rfl⟩
      · rename_i queued hqueue
        cases h
        obtain ⟨pending, rfl, hpending⟩ := queue_eq hqueue
        obtain ⟨hsame, hbytes, hclient⟩ := wait_spec (l.setPending pending)
        refine ⟨⟨hsame.inbound, hsame.initial, hsame.isOpen, hsame.handling, hsame.inputTail, hsame.written, hsame.sent, hsame.received,
          hsame.obedient⟩, ?_, ?_⟩
        · rw [hbytes]
          exact hpending
        · rw [hclient]
          rfl

/-! ## The invariant -/

structure Owing (initial : Nat) (l : Link) (uncredited unsent : Nat) : Prop where
  initial_le : l.initialCreditBytes = initial ∧ initial ≤ WORKER_LINK_MAX_CREDIT_BYTES
  credit : l.isOpen = true → l.channel.inboundCreditBytes + l.writingBytes + l.pendingBytes + uncredited = l.initialCreditBytes
  returned : l.isOpen = true → l.received + l.toClient.sum + l.pendingBytes + unsent = l.written
  /-- What was sent is written, or being written, or waits. -/
  taken : l.isOpen = true → (l.inputTail.map Frame.bytes).sum + l.writingBytes + l.written ≤ l.sent
  obedient : l.obedient = true → l.sent ≤ l.initialCreditBytes + l.received

def Conserved (initial : Nat) (l : Link) : Prop := Owing initial l 0 0

variable {initial a b a' b' bytes : Nat}

theorem conserved_open {initialCreditBytes : Nat} (routeGeneration : Nat) (mayWrite mayHalfClose mayRead canWait : Bool)
    (h : initialCreditBytes ≤ WORKER_LINK_MAX_CREDIT_BYTES) :
    Conserved initialCreditBytes (Link.open initialCreditBytes routeGeneration mayWrite mayHalfClose mayRead canWait) :=
  ⟨⟨rfl, h⟩, fun _ => rfl, fun _ => rfl, fun _ => Nat.le_refl 0, fun _ => Nat.zero_le _⟩

theorem Owing.close (h : Owing initial l a b) : Conserved initial l.close := by
  have hclosed : l.close.isOpen = true → False := by
    intro hopen
    cases hopen
  exact ⟨h.initial_le, fun hopen => (hclosed hopen).elim, fun hopen => (hclosed hopen).elim, fun hopen => (hclosed hopen).elim, h.obedient⟩

theorem Owing.of_same (h : Owing initial l a b) (hsame : l.Same l') (hcredit : l'.pendingBytes + a' = l.pendingBytes + a)
    (hreturned : l'.toClient.sum + l'.pendingBytes + b' = l.toClient.sum + l.pendingBytes + b) : Owing initial l' a' b' := by
  have hwriting : l'.writingBytes = l.writingBytes := by rw [Link.writingBytes, Link.writingBytes, hsame.handling]
  refine ⟨?_, ?_, ?_, ?_, ?_⟩
  · rw [hsame.initial]
    exact h.initial_le
  · intro hopen
    have hold := h.credit (hsame.isOpen ▸ hopen)
    rw [hsame.inbound, hwriting, hsame.initial]
    omega
  · intro hopen
    have hold := h.returned (hsame.isOpen ▸ hopen)
    rw [hsame.received, hsame.written]
    omega
  · intro hopen
    rw [hsame.inputTail, hwriting, hsame.written, hsame.sent]
    exact h.taken (hsame.isOpen ▸ hopen)
  · intro hobedient
    rw [hsame.sent, hsame.initial, hsame.received]
    exact h.obedient (hsame.obedient ▸ hobedient)

theorem Owing.restore (h : Owing initial l (a + bytes) b) (hopen : l.isOpen = true) : Owing initial (l.restore bytes) a b := by
  have hcredit := h.credit hopen
  have hbound := h.initial_le
  have hinbound : (l.restore bytes).channel.inboundCreditBytes = l.channel.inboundCreditBytes + bytes := Nat.min_eq_right (by omega)
  refine ⟨h.initial_le, ?_, h.returned, h.taken, h.obedient⟩
  intro _
  have hwriting : (l.restore bytes).writingBytes = l.writingBytes := rfl
  have hpending : (l.restore bytes).pendingBytes = l.pendingBytes := rfl
  have hinitial : (l.restore bytes).initialCreditBytes = l.initialCreditBytes := rfl
  omega

theorem Owing.emit (h : Conserved initial l) (hdetail : detail.credited = 0) (accepts : Bool) :
    Conserved initial (l.emitReliableControl detail accepts).1 := by
  cases hemit : l.emitReliableControl detail accepts with
  | mk after result =>
    obtain ⟨hsame, hsums⟩ := emit_spec hemit
    cases result with
    | failed =>
      dsimp only at hsums ⊢
      rw [hsums]
      exact h
    | sent =>
      dsimp only at hsums ⊢
      exact Owing.of_same h hsame (by omega) (by omega)
    | queued =>
      dsimp only at hsums ⊢
      exact Owing.of_same h hsame (by omega) (by omega)

theorem Owing.wait (h : Conserved initial l) : Conserved initial l.waitForCarrierCapacity := by
  obtain ⟨hsame, hpending, hclient⟩ := wait_spec l
  exact Owing.of_same h hsame (by rw [hpending]) (by rw [hpending, hclient])

theorem Owing.finishWrite (h : Conserved initial l) (hhandling : l.handling = some (.write bytes)) (hopen : l.isOpen = true) (accepts : Bool) :
    Conserved initial (l.finishWrite bytes accepts) := by
  have hwriting : l.writingBytes = bytes := by rw [Link.writingBytes, hhandling]
  have hcredit := h.credit hopen
  have hreturned := h.returned hopen
  have htaken := h.taken hopen
  rw [hwriting] at hcredit htaken
  have howing : Owing initial { l with handling := none, written := l.written + bytes } bytes bytes := by
    refine ⟨h.initial_le, fun _ => ?_, fun _ => ?_, fun _ => ?_, h.obedient⟩
    · have hnone : ({ l with handling := none, written := l.written + bytes } : Link).writingBytes = 0 := rfl
      have hpending : ({ l with handling := none, written := l.written + bytes } : Link).pendingBytes = l.pendingBytes := rfl
      dsimp only
      omega
    · have hpending : ({ l with handling := none, written := l.written + bytes } : Link).pendingBytes = l.pendingBytes := rfl
      dsimp only
      omega
    · have hnone : ({ l with handling := none, written := l.written + bytes } : Link).writingBytes = 0 := rfl
      dsimp only
      omega
  unfold Link.finishWrite
  dsimp only
  split <;> rename_i after hemit <;> obtain ⟨hsame, hsums⟩ := emit_spec hemit <;> dsimp only [PendingCarrierControl.credited] at hsums
  · have hsent : Owing initial after (0 + bytes) 0 := howing.of_same hsame (by omega) (by dsimp only; omega)
    exact hsent.restore (hsame.isOpen.trans hopen)
  · rw [hsums]
    exact howing.close
  · exact howing.of_same hsame (by omega) (by dsimp only; omega)

theorem Owing.flush (accepts : List Bool) : ∀ {l : Link}, Conserved initial l → l.isOpen = true →
    Conserved initial (l.flushCarrierControls accepts).1 ∧ (l.flushCarrierControls accepts).1.isOpen = true := by
  induction accepts with
  | nil =>
    intro l h hopen
    exact ⟨h, hopen⟩
  | cons accept more ih =>
    intro l h hopen
    rw [Link.flushCarrierControls]
    split
    · exact ⟨h, hopen⟩
    · rename_i detail pending hpending
      cases accept with
      | false => exact ⟨h, hopen⟩
      | true =>
        rw [if_pos rfl]
        obtain ⟨hsame, -, hclient⟩ := respond_spec l detail
        have hqueue : l.pendingBytes = detail.credited + creditedBytes pending := by
          rw [Link.pendingBytes, hpending, creditedBytes_cons]
        have hrest : ((l.respond detail).setPending pending).pendingBytes = creditedBytes pending := rfl
        have hway : ((l.respond detail).setPending pending).toClient.sum = l.toClient.sum + detail.credited := hclient
        have howing : Owing initial ((l.respond detail).setPending pending) (0 + detail.credited) 0 := by
          refine Owing.of_same h ⟨rfl, rfl, rfl, rfl, rfl, rfl, rfl, rfl, rfl⟩ ?_ ?_
          · omega
          · omega
        dsimp only
        split
        · exact ih (howing.restore hopen) hopen
        · rename_i hother
          have hzero : detail.credited = 0 := by
            unfold PendingCarrierControl.credited
            split
            · exact (hother _ rfl).elim
            · rfl
          rw [hzero] at howing
          exact ih howing hopen

theorem Owing.next_le (h : Conserved initial l) (hopen : l.isOpen = true) (hobedient : l.obedient = true) {frame : Frame} {inputTail : List Frame}
    (htail : l.inputTail = frame :: inputTail) : frame.bytes ≤ l.channel.inboundCreditBytes := by
  have hcredit := h.credit hopen
  have hreturned := h.returned hopen
  have htaken := h.taken hopen
  have hsent := h.obedient hobedient
  rw [htail, map_cons, sum_cons] at htaken
  omega

theorem Owing.handle (h : Conserved initial l) (hopen : l.isOpen = true) (hidle : l.handling = none) {frame : Frame}
    {inputTail : List Frame} (htail : l.inputTail = frame :: inputTail) : Conserved initial ({ l with inputTail }.handleChannelFrame frame) := by
  have hcredit := h.credit hopen
  have htaken := h.taken hopen
  have hinitial := h.initial_le.1
  have hwriting : l.writingBytes = 0 := by rw [Link.writingBytes, hidle]
  rw [htail, map_cons, sum_cons, hwriting] at htaken
  rw [hwriting] at hcredit
  -- nothing is written next
  have hother : ∀ (c : ActiveChannel) (o : Option Handling), c.inboundCreditBytes = l.channel.inboundCreditBytes →
      c.pendingCarrierControls = l.channel.pendingCarrierControls → ({ l with handling := o } : Link).writingBytes = 0 →
      Conserved initial { l with channel := c, inputTail, handling := o } := by
    intro c o hinbound hqueue hnone
    refine ⟨h.initial_le, fun _ => ?_, fun _ => ?_, fun _ => ?_, h.obedient⟩
    · change c.inboundCreditBytes + ({ l with handling := o } : Link).writingBytes + creditedBytes c.pendingCarrierControls + 0 =
        l.initialCreditBytes
      rw [hinbound, hqueue, hnone]
      exact hcredit
    · change l.received + l.toClient.sum + creditedBytes c.pendingCarrierControls + 0 = l.written
      rw [hqueue]
      exact h.returned hopen
    · change (inputTail.map Frame.bytes).sum + ({ l with handling := o } : Link).writingBytes + l.written ≤ l.sent
      rw [hnone]
      omega
  unfold Link.handleChannelFrame
  dsimp only
  split
  · exact hother l.channel _ rfl rfl rfl
  · split
    · rename_i direction bytes hdetail
      have hbytes : frame.bytes = bytes := by rw [Frame.bytes, hdetail]
      split
      · exact hother _ _ rfl rfl rfl
      · rename_i hallowed
        simp only [Bool.or_eq_true, decide_eq_true_eq, not_or, Nat.not_lt, gt_iff_lt] at hallowed
        have hle := hallowed.1.2
        refine ⟨h.initial_le, fun _ => ?_, h.returned, fun _ => ?_, h.obedient⟩
        · change l.channel.inboundCreditBytes - bytes + bytes + l.pendingBytes + 0 = l.initialCreditBytes
          omega
        · change (inputTail.map Frame.bytes).sum + bytes + l.written ≤ l.sent
          omega
    · split
      · exact hother _ _ rfl rfl rfl
      · exact hother _ _ rfl rfl rfl
    · split
      · exact hother _ _ rfl rfl rfl
      · exact hother _ _ rfl rfl rfl
    · exact Owing.close (hother l.channel l.handling rfl rfl hwriting)
    · exact hother _ _ rfl rfl rfl

theorem handle_closed (l : Link) (frame : Frame) (h : l.isOpen = true) : (l.handleChannelFrame frame).obedient = l.obedient ∧
    ((l.handleChannelFrame frame).isOpen = true ∨ l.handleChannelFrame frame = l.close) := by
  unfold Link.handleChannelFrame
  dsimp only
  repeat' split
  all_goals first
    | exact ⟨rfl, .inr rfl⟩
    | exact ⟨rfl, .inl h⟩

/-! ## Runs -/

/-- The accounts, a channel that is closed for good, and what an obedient client has met with. -/
structure Kept (initial : Nat) (l : Link) (labels : List Label) : Prop where
  conserved : Conserved initial l
  closed : l.isOpen = false → l.handling = none ∧ l.inputTail = []
  obeys : l.obedient = true → ∀ frame credit, Label.handled frame credit ∈ labels → frame.bytes ≤ credit

variable {labels : List Label} {label : Label} {event : Event}

theorem Kept.quiet (h : Kept initial l labels) (hconserved : Conserved initial l') (hclosed : l'.isOpen = false → l'.handling = none ∧ l'.inputTail = [])
    (hobedient : l'.obedient = true → l.obedient = true) : Kept initial l' (labels ++ [.quiet]) := by
  refine ⟨hconserved, hclosed, ?_⟩
  intro hobeys frame credit hmem
  rw [mem_append, mem_singleton] at hmem
  rcases hmem with hmem | hmem
  · exact h.obeys (hobedient hobeys) frame credit hmem
  · cases hmem

theorem Kept.open_ (h : Kept initial l labels) (hconserved : Conserved initial l') (hopen : l'.isOpen = true) (hobedient : l'.obedient = l.obedient) :
    Kept initial l' (labels ++ [.quiet]) := by
  refine h.quiet hconserved ?_ ?_
  · intro hclosed
    rw [hopen] at hclosed
    cases hclosed
  · rw [hobedient]
    exact id

theorem Kept.close (h : Kept initial l labels) : Kept initial l.close (labels ++ [.quiet]) :=
  h.quiet h.conserved.close (fun _ => ⟨rfl, rfl⟩) id

theorem Kept.same (h : Kept initial l labels) : Kept initial l (labels ++ [.quiet]) := h.quiet h.conserved h.closed id

theorem flush_obedient (accepts : List Bool) : ∀ l : Link, (l.flushCarrierControls accepts).1.obedient = l.obedient := by
  induction accepts with
  | nil => exact fun l => rfl
  | cons accept more ih =>
    intro l
    rw [Link.flushCarrierControls]
    split
    · rfl
    · split
      · dsimp only
        split <;> exact (ih _).trans rfl
      · rfl

theorem Owing.send (h : Conserved initial l) (frame : Frame) {obedient : Bool} {inputTail : List Frame}
    (hobedient : obedient = true → l.sent + frame.bytes ≤ l.initialCreditBytes + l.received)
    (htail : (inputTail.map Frame.bytes).sum ≤ (l.inputTail.map Frame.bytes).sum + frame.bytes) :
    Conserved initial { l with sent := l.sent + frame.bytes, obedient, inputTail } := by
  refine ⟨h.initial_le, h.credit, h.returned, fun hopen => ?_, hobedient⟩
  have htaken := h.taken hopen
  change (inputTail.map Frame.bytes).sum + l.writingBytes + l.written ≤ l.sent + frame.bytes
  omega

theorem Owing.receive (h : Conserved initial l) {bytes : Nat} {toClient : List Nat} (hclient : l.toClient = bytes :: toClient) :
    Conserved initial { l with toClient, received := l.received + bytes } := by
  refine ⟨h.initial_le, h.credit, fun hopen => ?_, h.taken, fun hobedient => ?_⟩
  · have hreturned := h.returned hopen
    rw [hclient, sum_cons] at hreturned
    change l.received + bytes + toClient.sum + l.pendingBytes + 0 = l.written
    omega
  · have hsent := h.obedient hobedient
    change l.sent ≤ l.initialCreditBytes + (l.received + bytes)
    omega

theorem Owing.unchanged (h : Conserved initial l) (hsame : l.Same l')
    (hqueue : l'.channel.pendingCarrierControls = l.channel.pendingCarrierControls) (hclient : l'.toClient = l.toClient) : Conserved initial l' := by
  have hpending : l'.pendingBytes = l.pendingBytes := by rw [Link.pendingBytes, hqueue, Link.pendingBytes]
  exact Owing.of_same h hsame (by rw [hpending]) (by rw [hpending, hclient])

theorem emitData_spec (l : Link) (bytes : Nat) (accepts : Bool) :
    l.Same (l.emitData bytes accepts) ∧ (l.emitData bytes accepts).channel.pendingCarrierControls = l.channel.pendingCarrierControls ∧
      (l.emitData bytes accepts).toClient = l.toClient := by
  unfold Link.emitData
  dsimp only
  split
  · exact ⟨Link.Same.refl l, rfl, rfl⟩
  · split
    · exact ⟨⟨rfl, rfl, rfl, rfl, rfl, rfl, rfl, rfl, rfl⟩, rfl, rfl⟩
    · unfold Link.waitForCarrierCapacity
      split
      · exact ⟨⟨rfl, rfl, rfl, rfl, rfl, rfl, rfl, rfl, rfl⟩, rfl, rfl⟩
      · exact ⟨Link.Same.refl l, rfl, rfl⟩

theorem finishWrite_open (l : Link) (bytes : Nat) (accepts : Bool) : (l.finishWrite bytes accepts).obedient = l.obedient ∧
    ((l.finishWrite bytes accepts).isOpen = false → l.isOpen = true →
      (l.finishWrite bytes accepts).handling = none ∧ (l.finishWrite bytes accepts).inputTail = []) := by
  unfold Link.finishWrite
  dsimp only
  split <;> rename_i after hemit <;> obtain ⟨hsame, -⟩ := emit_spec hemit
  · refine ⟨hsame.obedient, fun hclosed hopen => ?_⟩
    have hstill : after.isOpen = true := hsame.isOpen.trans hopen
    exact absurd (hstill.symm.trans hclosed) (by decide)
  · exact ⟨hsame.obedient, fun _ _ => ⟨rfl, rfl⟩⟩
  · refine ⟨hsame.obedient, fun hclosed hopen => ?_⟩
    have hstill : after.isOpen = true := hsame.isOpen.trans hopen
    exact absurd (hstill.symm.trans hclosed) (by decide)

theorem Kept.emit (h : Kept initial l labels) (hopen : l.isOpen = true) (hdetail : detail.credited = 0) (accepts : Bool) :
    Kept initial (l.emitReliableControl detail accepts).1 (labels ++ [.quiet]) := by
  have hsame := (emit_spec (show l.emitReliableControl detail accepts = (_, _) from rfl)).1
  exact h.open_ (Owing.emit h.conserved hdetail accepts) (hsame.isOpen.trans hopen) hsame.obedient

theorem Kept.step (h : Kept initial l labels) (hstep : step l event = some (l', label)) : Kept initial l' (labels ++ [label]) := by
  have hconserved := h.conserved
  have hopen_of : ∀ {o : Option Handling}, l.handling = o → o.isSome = true → l.isOpen = true := by
    intro o ho hsome
    cases hopen : l.isOpen with
    | true => rfl
    | false =>
      rw [(h.closed hopen).1] at ho
      rw [← ho] at hsome
      cases hsome
  cases event with
  | send frame =>
    cases hstep
    have hand : ∀ {o : Bool}, (l.obedient && o) = true → l.obedient = true ∧ o = true := fun ho => (Bool.and_eq_true _ _).mp ho
    have hcredit : (l.obedient && decide (l.sent + frame.bytes ≤ l.initialCreditBytes + l.received)) = true →
        l.sent + frame.bytes ≤ l.initialCreditBytes + l.received := fun ho => of_decide_eq_true (hand ho).2
    split
    · rename_i hvalid
      have hopen := ((Bool.and_eq_true _ _).mp hvalid).1
      refine h.quiet (Owing.send hconserved frame hcredit ?_) ?_ fun ho => (hand ho).1
      · exact Nat.le_of_eq (by rw [map_append, sum_append, map_singleton, sum_singleton])
      · intro hclosed
        exact absurd (hopen.symm.trans hclosed) (by decide)
    · exact h.quiet (Owing.send hconserved frame hcredit (Nat.le_add_right _ _)) h.closed fun ho => (hand ho).1
  | receive =>
    dsimp only [Gateway.step] at hstep
    split at hstep <;> cases hstep
    rename_i bytes toClient hclient
    exact h.quiet (Owing.receive hconserved hclient) h.closed id
  | handle =>
    dsimp only [Gateway.step] at hstep
    split at hstep <;> cases hstep
    rename_i frame inputTail hidle htail
    have hopen : l.isOpen = true := by
      cases hopen : l.isOpen with
      | true => rfl
      | false =>
        rw [(h.closed hopen).2] at htail
        cases htail
    obtain ⟨hsame, hcases⟩ := handle_closed { l with inputTail } frame hopen
    have hobedient : (({ l with inputTail } : Link).handleChannelFrame frame).obedient = true → l.obedient = true := by
      intro hobeys
      exact hsame.symm.trans hobeys
    refine ⟨Owing.handle hconserved hopen hidle htail, ?_, ?_⟩
    · intro hclosed
      rcases hcases with hstill | hclose
      · rw [hstill] at hclosed
        cases hclosed
      · rw [hclose]
        exact ⟨rfl, rfl⟩
    · intro hobeys f credit hmem
      rw [mem_append, mem_singleton] at hmem
      rcases hmem with hmem | hmem
      · exact h.obeys (hobedient hobeys) f credit hmem
      · cases hmem
        exact Owing.next_le hconserved hopen (hobedient hobeys) htail
  | written accepts =>
    dsimp only [Gateway.step] at hstep
    split at hstep <;> cases hstep
    rename_i bytes hhandling
    have hopen := hopen_of hhandling rfl
    obtain ⟨hobedient, hclosed⟩ := finishWrite_open l bytes accepts
    refine h.quiet (Owing.finishWrite hconserved hhandling hopen accepts) (fun hc => hclosed hc hopen) ?_
    rw [hobedient]
    exact id
  | returned =>
    dsimp only [Gateway.step] at hstep
    split at hstep <;> cases hstep
    rename_i hhandling
    have hopen := hopen_of hhandling rfl
    have hwriting : l.writingBytes = 0 := by rw [Link.writingBytes, hhandling]
    have hcredit := hconserved.credit hopen
    have htaken := hconserved.taken hopen
    rw [hwriting] at hcredit htaken
    exact h.open_ ⟨hconserved.initial_le, fun _ => hcredit, hconserved.returned, fun _ => htaken, hconserved.obedient⟩ hopen rfl
  | thrown =>
    dsimp only [Gateway.step] at hstep
    split at hstep <;> cases hstep
    exact h.close
  | emit detail accepts =>
    cases detail with
    | credit direction bytes => cases hstep
    | halfClose =>
      dsimp only [Gateway.step] at hstep
      split at hstep <;> cases hstep
      · rename_i hallowed
        exact h.emit ((Bool.and_eq_true _ _).mp hallowed).1 rfl accepts
      · exact h.same
    | error code =>
      dsimp only [Gateway.step] at hstep
      split at hstep <;> cases hstep
      · rename_i hopen
        exact h.emit hopen rfl accepts
      · exact h.same
  | emitData bytes accepts =>
    dsimp only [Gateway.step] at hstep
    split at hstep <;> cases hstep
    · rename_i hopen
      obtain ⟨hsame, hqueue, hclient⟩ := emitData_spec l bytes accepts
      exact h.open_ (Owing.unchanged hconserved hsame hqueue hclient) (hsame.isOpen.trans hopen) hsame.obedient
    · exact h.same
  | capacity available accepts =>
    dsimp only [Gateway.step] at hstep
    split at hstep
    · rename_i hwaiting
      have hopen := ((Bool.and_eq_true _ _).mp hwaiting).1
      have hbefore : Conserved initial { l with channel := { l.channel with carrierCapacityWait := false } } :=
        Owing.unchanged hconserved ⟨rfl, rfl, rfl, rfl, rfl, rfl, rfl, rfl, rfl⟩ rfl rfl
      split at hstep
      · cases hstep
        exact h.quiet hbefore.close (fun _ => ⟨rfl, rfl⟩) id
      · obtain ⟨hafter, hstill⟩ := Owing.flush accepts hbefore hopen
        have hobedient := flush_obedient accepts { l with channel := { l.channel with carrierCapacityWait := false } }
        split at hstep <;> cases hstep <;> rename_i after hflush <;> rw [hflush] at hafter hstill hobedient
        · exact h.open_ hafter hstill hobedient
        · have hwait := (wait_spec after).1
          exact h.open_ (Owing.wait hafter) (hwait.isOpen.trans hstill) (hwait.obedient.trans hobedient)
    · cases hstep
  | close =>
    cases hstep
    exact h.close

theorem kept_run {events : List Event} (h : Conserved initial l) (hopen : l.isOpen = true)
    (hrun : runSteps step l events = some (l', labels)) : Kept initial l' labels := by
  have hstart : Kept initial l [] := by
    refine ⟨h, fun hclosed => ?_, fun _ _ _ hmem => (not_mem_nil hmem).elim⟩
    exact absurd (hopen.symm.trans hclosed) (by decide)
  have hkept := @runSteps_invariant _ _ _ step (Kept initial) (fun _ _ _ _ _ hkept hstep => hkept.step hstep) events l [] l' labels hstart hrun
  exact hkept

/-- While the channel is open its credit, the bytes being written and the queued credits make up the initial credit, the credits that the
client has been sent and the queued ones make up what was written, and an obedient client has had credit for every frame. -/
theorem inbound_credit (initialCreditBytes routeGeneration : Nat) (mayWrite mayHalfClose mayRead canWait : Bool)
    (h : initialCreditBytes ≤ WORKER_LINK_MAX_CREDIT_BYTES) (events : List Event) (l : Link) (labels : List Label)
    (hrun : runSteps step (Link.open initialCreditBytes routeGeneration mayWrite mayHalfClose mayRead canWait) events = some (l, labels)) :
    (l.isOpen = true → l.channel.inboundCreditBytes + l.writingBytes + l.pendingBytes = initialCreditBytes ∧
      (l.received + l.toClient.sum) + l.pendingBytes = l.written) ∧
    (l.obedient = true → ∀ frame credit, Label.handled frame credit ∈ labels → frame.bytes ≤ credit) := by
  have hkept := kept_run (conserved_open routeGeneration mayWrite mayHalfClose mayRead canWait h) rfl hrun
  refine ⟨?_, hkept.obeys⟩
  intro hopen
  have hcredit := hkept.conserved.credit hopen
  have hreturned := hkept.conserved.returned hopen
  have hinitial := hkept.conserved.initial_le.1
  omega

/-- Four bytes are written while the carrier is full, then two more; the credits follow when there is room. -/
def refusedFirst : List Event :=
  [.send ⟨1, 1, .data .clientToWorker 4⟩, .handle, .written false, .send ⟨1, 2, .data .clientToWorker 2⟩, .handle, .written true,
    .capacity true [true, true], .receive]

theorem inbound_credit_refused : ∃ l labels, runSteps step (Link.open 6 1 true true true true) refusedFirst = some (l, labels) ∧
    l.received = 4 ∧ l.channel.inboundCreditBytes + l.writingBytes + l.pendingBytes = 6 := by
  have hrun : ∃ l labels, runSteps step (Link.open 6 1 true true true true) refusedFirst = some (l, labels) ∧ l.received = 4 ∧
      l.isOpen = true := ⟨_, _, rfl, rfl, rfl⟩
  obtain ⟨l, labels, hrun, hreceived, hopen⟩ := hrun
  exact ⟨l, labels, hrun, hreceived, ((inbound_credit 6 1 true true true true (by decide) refusedFirst l labels hrun).1 hopen).1⟩

end Cantrip.Gateway
