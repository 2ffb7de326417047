import Cantrip.Workers.Bridge

/-!
# Requests

What the log tells about a request fits with the request (`Kept`): it is reported once, its handler was given the events
that came, in their order and up to those that are still queued, and a response is reported after all of them.
-/

namespace Cantrip.Workers

open List

variable {ε ρ : Type}

def Entry.id : Entry ε ρ → Nat
  | .received id _ => id
  | .handed id _ => id
  | .failed id => id
  | .reported id _ _ => id

def Entry.receivedBy (id : Nat) : Entry ε ρ → Option ε
  | .received j e => if j = id then some e else none
  | _ => none

def Entry.handedBy (id : Nat) : Entry ε ρ → Option ε
  | .handed j e => if j = id then some e else none
  | _ => none

def Entry.reportedBy (id : Nat) : Entry ε ρ → Option (Cause × Outcome ρ)
  | .reported j cause outcome => if j = id then some (cause, outcome) else none
  | _ => none

/-- The events that came for a request. -/
def receivedOf (id : Nat) (log : List (Entry ε ρ)) : List ε := log.filterMap (Entry.receivedBy id)

/-- The events that its handler was given. -/
def handedOf (id : Nat) (log : List (Entry ε ρ)) : List ε := log.filterMap (Entry.handedBy id)

def reportsOf (id : Nat) (log : List (Entry ε ρ)) : List (Cause × Outcome ρ) := log.filterMap (Entry.reportedBy id)

variable {id j : Nat} {log more : List (Entry ε ρ)} {r : Request ε ρ}

@[simp] theorem receivedOf_append (id : Nat) (log more : List (Entry ε ρ)) : receivedOf id (log ++ more) = receivedOf id log ++ receivedOf id more :=
  filterMap_append

@[simp] theorem handedOf_append (id : Nat) (log more : List (Entry ε ρ)) : handedOf id (log ++ more) = handedOf id log ++ handedOf id more :=
  filterMap_append

@[simp] theorem reportsOf_append (id : Nat) (log more : List (Entry ε ρ)) : reportsOf id (log ++ more) = reportsOf id log ++ reportsOf id more :=
  filterMap_append

@[simp] theorem receivedOf_nil (id : Nat) : receivedOf id ([] : List (Entry ε ρ)) = [] := rfl

@[simp] theorem handedOf_nil (id : Nat) : handedOf id ([] : List (Entry ε ρ)) = [] := rfl

@[simp] theorem reportsOf_nil (id : Nat) : reportsOf id ([] : List (Entry ε ρ)) = [] := rfl

@[simp] theorem of_received (id : Nat) (e : ε) : receivedOf id [(.received id e : Entry ε ρ)] = [e] ∧ handedOf id [(.received id e : Entry ε ρ)] = [] ∧
    reportsOf id [(.received id e : Entry ε ρ)] = [] := by
  simp [receivedOf, handedOf, reportsOf, Entry.receivedBy, Entry.handedBy, Entry.reportedBy]

@[simp] theorem of_handed (id : Nat) (e : ε) : receivedOf id [(.handed id e : Entry ε ρ)] = [] ∧ handedOf id [(.handed id e : Entry ε ρ)] = [e] ∧
    reportsOf id [(.handed id e : Entry ε ρ)] = [] := by
  simp [receivedOf, handedOf, reportsOf, Entry.receivedBy, Entry.handedBy, Entry.reportedBy]

@[simp] theorem of_reported (id : Nat) (cause : Cause) (outcome : Outcome ρ) : receivedOf id [(.reported id cause outcome : Entry ε ρ)] = [] ∧
    handedOf id [(.reported id cause outcome : Entry ε ρ)] = [] ∧ reportsOf id [(.reported id cause outcome : Entry ε ρ)] = [(cause, outcome)] := by
  simp [receivedOf, handedOf, reportsOf, Entry.receivedBy, Entry.handedBy, Entry.reportedBy]

@[simp] theorem of_failed (id : Nat) : receivedOf id [(.failed id : Entry ε ρ)] = [] ∧ handedOf id [(.failed id : Entry ε ρ)] = [] ∧
    reportsOf id [(.failed id : Entry ε ρ)] = [] := by
  simp [receivedOf, handedOf, reportsOf, Entry.receivedBy, Entry.handedBy, Entry.reportedBy]

theorem not_mem_of_reportsOf_nil (h : reportsOf id more = []) (cause : Cause) (outcome : Outcome ρ) : .reported id cause outcome ∉ more := fun hmem => by
  have hnone := filterMap_eq_nil_iff.mp h _ hmem
  simp [Entry.reportedBy] at hnone

theorem of_others (h : ∀ entry ∈ more, entry.id ≠ id) : receivedOf id more = [] ∧ handedOf id more = [] ∧ reportsOf id more = [] := by
  refine ⟨filterMap_eq_nil_iff.mpr fun entry he => ?_, filterMap_eq_nil_iff.mpr fun entry he => ?_,
    filterMap_eq_nil_iff.mpr fun entry he => ?_⟩
  · have hid := h entry he
    cases entry <;> first | rfl | exact if_neg hid
  · have hid := h entry he
    cases entry <;> first | rfl | exact if_neg hid
  · have hid := h entry he
    cases entry <;> first | rfl | exact if_neg hid

def Delivery.event? : Delivery ε ρ → Option ε
  | .event e => some e
  | _ => none

def queued (delivery : List (Delivery ε ρ)) : List ε := delivery.filterMap Delivery.event?

@[simp] theorem queued_append (delivery more : List (Delivery ε ρ)) : queued (delivery ++ more) = queued delivery ++ queued more :=
  filterMap_append

@[simp] theorem queued_events (events : List ε) : queued (events.map (Delivery.event (ρ := ρ))) = events := by
  unfold queued
  rw [filterMap_map]
  exact filterMap_some

@[simp] theorem queued_response (outcome : Outcome ρ) : queued [(.response outcome : Delivery ε ρ)] = [] := rfl

@[simp] theorem queued_finished : queued [(.finished : Delivery ε ρ)] = [] := rfl

/-- What the queue ends with. -/
inductive Tail : List (Delivery ε ρ) → (active completion : Bool) → Prop
  | active : Tail [] true true
  | response (outcome : Outcome ρ) : Tail [.response outcome] false true
  | finished : Tail [.finished] false false

/-- The events come first. -/
def Shape (delivery : List (Delivery ε ρ)) (active completion : Bool) : Prop :=
  ∃ (events : List ε) (tail : List (Delivery ε ρ)), delivery = events.map .event ++ tail ∧ Tail tail active completion

namespace Shape

variable {delivery : List (Delivery ε ρ)} {active completion : Bool}

theorem queue (h : Shape delivery true completion) : completion = true ∧ ∃ events : List ε, delivery = events.map .event := by
  obtain ⟨events, tail, rfl, htail⟩ := h
  cases htail
  exact ⟨rfl, events, append_nil _⟩

theorem start : Shape ([] : List (Delivery ε ρ)) true true := ⟨[], [], rfl, .active⟩

theorem event (h : Shape delivery true completion) (e : ε) : Shape (delivery ++ [.event e]) true completion := by
  obtain ⟨rfl, events, rfl⟩ := h.queue
  exact ⟨events ++ [e], [], by simp, .active⟩

theorem response (h : Shape delivery true completion) (outcome : Outcome ρ) : Shape (delivery ++ [.response outcome]) false completion := by
  obtain ⟨rfl, events, rfl⟩ := h.queue
  exact ⟨events, _, rfl, .response outcome⟩

theorem finished (h : Shape delivery true completion) : Shape (delivery ++ [.finished]) false false := by
  obtain ⟨-, events, rfl⟩ := h.queue
  exact ⟨events, _, rfl, .finished⟩

theorem tail_event {e : ε} (h : Shape (.event e :: delivery) active completion) : Shape delivery active completion := by
  obtain ⟨_ | ⟨e', events⟩, tail, heq, htail⟩ := h
  · cases htail <;> simp at heq
  · exact ⟨events, tail, (List.cons.inj heq).2, htail⟩

theorem tail_response {outcome : Outcome ρ} (h : Shape (.response outcome :: delivery) active completion) :
    delivery = [] ∧ active = false ∧ completion = true := by
  obtain ⟨_ | ⟨e, events⟩, tail, heq, htail⟩ := h
  · cases htail <;> simp_all
  · simp at heq

theorem tail_finished (h : Shape (.finished :: delivery) active completion) : delivery = [] ∧ active = false ∧ completion = false := by
  obtain ⟨_ | ⟨e, events⟩, tail, heq, htail⟩ := h
  · cases htail <;> simp_all
  · simp at heq

theorem nil (h : Shape ([] : List (Delivery ε ρ)) active completion) : completion = active := by
  obtain ⟨events, tail, heq, htail⟩ := h
  cases htail <;> simp_all

end Shape

def Ordered (id : Nat) (hasHandler : Bool) (log : List (Entry ε ρ)) : Prop :=
  ∀ before after outcome, log = before ++ .reported id .response outcome :: after →
    (hasHandler = true → handedOf id before = receivedOf id before) ∧ handedOf id after = [] ∧ receivedOf id after = []

theorem split_append {entry : Entry ε ρ} {before after : List (Entry ε ρ)} (h : log ++ more = before ++ entry :: after) (hentry : entry ∉ more) :
    ∃ rest, log = before ++ entry :: rest ∧ after = rest ++ more := by
  obtain ⟨middle, -, hmore⟩ | ⟨middle, hlog, hrest⟩ := append_eq_append_iff.mp h
  · exact absurd (hmore ▸ mem_append_right _ mem_cons_self) hentry
  · obtain _ | ⟨first, middle⟩ := middle
    · rw [nil_append] at hrest
      exact absurd (hrest ▸ mem_cons_self) hentry
    · obtain ⟨rfl, rfl⟩ := List.cons.inj hrest
      exact ⟨middle, hlog, rfl⟩

theorem Ordered.append {hasHandler : Bool} (h : Ordered id hasHandler log) (hreport : ∀ outcome, .reported id .response outcome ∉ more)
    (hlast : (∃ outcome, .reported id .response outcome ∈ log) → handedOf id more = [] ∧ receivedOf id more = []) :
    Ordered id hasHandler (log ++ more) := by
  intro before after outcome heq
  obtain ⟨rest, rfl, rfl⟩ := split_append heq (hreport outcome)
  obtain ⟨hall, hhanded, hreceived⟩ := h before rest outcome rfl
  obtain ⟨hhanded', hreceived'⟩ := hlast ⟨outcome, by simp⟩
  exact ⟨hall, by rw [handedOf_append, hhanded, hhanded', append_nil], by rw [receivedOf_append, hreceived, hreceived', append_nil]⟩

theorem Ordered.response {hasHandler : Bool} (hnone : ∀ outcome, .reported id .response outcome ∉ log) (outcome : Outcome ρ)
    (hall : hasHandler = true → handedOf id log = receivedOf id log) : Ordered id hasHandler (log ++ [.reported id .response outcome]) := by
  intro before after outcome' heq
  obtain rfl | ⟨after, last, rfl⟩ := eq_nil_or_concat after
  · obtain ⟨rfl, -⟩ := append_inj' heq rfl
    exact ⟨hall, rfl, rfl⟩
  · rw [concat_eq_append, ← cons_append, ← append_assoc] at heq
    obtain ⟨rfl, -⟩ := append_inj' heq rfl
    exact absurd (by simp) (hnone outcome')

structure Kept (id : Nat) (r : Request ε ρ) (log : List (Entry ε ρ)) : Prop where
  reports : (reportsOf id log).length = if r.completion then 0 else 1
  handed : r.hasHandler = true → r.task ≠ .ended → receivedOf id log = handedOf id log ++ queued r.delivery
  given : handedOf id log <+: receivedOf id log
  none : r.hasHandler = false → handedOf id log = []
  shape : r.task ≠ .ended → Shape r.delivery r.active r.completion
  ended : r.task = .ended → r.active = false ∧ r.completion = false
  ordered : Ordered id r.hasHandler log
  settled : ∀ outcome, .reported id .response outcome ∈ log → r.task = .ended
  through : r.hasHandler = true → r.task = .ended → .failed id ∈ log ∨ handedOf id log = receivedOf id log

namespace Kept

theorem frame (h : Kept id r log) (hmore : receivedOf id more = [] ∧ handedOf id more = [] ∧ reportsOf id more = []) : Kept id r (log ++ more) := by
  obtain ⟨hreceived, hhanded, hreports⟩ := hmore
  have hnone := not_mem_of_reportsOf_nil hreports .response
  refine ⟨?_, ?_, ?_, ?_, h.shape, h.ended, h.ordered.append hnone fun _ => ⟨hhanded, hreceived⟩, fun outcome hmem => ?_, ?_⟩
  · rw [reportsOf_append, hreports, append_nil]
    exact h.reports
  · rw [receivedOf_append, handedOf_append, hreceived, hhanded, append_nil, append_nil]
    exact h.handed
  · rw [receivedOf_append, handedOf_append, hreceived, hhanded, append_nil, append_nil]
    exact h.given
  · rw [handedOf_append, hhanded, append_nil]
    exact h.none
  · obtain hmem | hmem := mem_append.mp hmem
    · exact h.settled outcome hmem
    · exact absurd hmem (hnone outcome)
  · rw [receivedOf_append, handedOf_append, hreceived, hhanded, append_nil, append_nil]
    exact fun hhandler htask => (h.through hhandler htask).imp_left (mem_append_left _)

theorem unreported (h : Kept id r log) (htask : r.task ≠ .ended) (outcome : Outcome ρ) : .reported id .response outcome ∉ log :=
  fun hmem => htask (h.settled outcome hmem)

theorem task_of_active (h : Kept id r log) (hactive : r.active = true) : r.task ≠ .ended :=
  fun htask => absurd (hactive.symm.trans (h.ended htask).1) Bool.false_ne_true.symm

theorem start (r : Request ε ρ) (hlog : ∀ entry ∈ log, entry.id ≠ id) (hactive : r.active = true) (hcompletion : r.completion = true)
    (hdelivery : r.delivery = []) (htask : r.task = .waiting) : Kept id r log := by
  obtain ⟨hreceived, hhanded, hreports⟩ := of_others hlog
  have hnone : ∀ outcome, .reported id .response outcome ∉ log := fun outcome hmem => hlog _ hmem rfl
  refine ⟨by simp [hreports, hcompletion], fun _ _ => by simp [hreceived, hhanded, hdelivery, queued], by simp [hreceived, hhanded],
    fun _ => hhanded, fun _ => ?_, fun h => by simp [htask] at h, fun before after outcome heq => ?_, fun outcome hmem => absurd hmem (hnone outcome),
    fun _ hended => ?_⟩
  · rw [hdelivery, hactive, hcompletion]
    exact .start
  · exact absurd (heq ▸ by simp) (hnone outcome)
  · exact absurd (htask.symm.trans hended) (by simp)

section

variable (h : Kept id r log)
include h

theorem event (hactive : r.active = true) (e : ε) :
    Kept id { r with delivery := r.delivery ++ [.event e] } (log ++ [.received id e]) := by
  have htask := h.task_of_active hactive
  obtain ⟨hreceived, hhanded, hreports⟩ := of_received (ρ := ρ) id e
  refine ⟨?_, fun hhandler _ => ?_, ?_, ?_, fun _ => ?_, h.ended, h.ordered.append (by simp) fun ⟨outcome, hmem⟩ => ?_, fun outcome hmem => ?_,
    fun _ hended => absurd hended htask⟩
  · rw [reportsOf_append, hreports, append_nil]
    exact h.reports
  · rw [receivedOf_append, handedOf_append, hreceived, hhanded, h.handed hhandler htask]
    simp [queued, Delivery.event?]
  · rw [receivedOf_append, handedOf_append, hhanded, append_nil]
    exact h.given.trans (prefix_append _ _)
  · rw [handedOf_append, hhanded, append_nil]
    exact h.none
  · have hshape := h.shape htask
    rw [hactive] at hshape ⊢
    exact hshape.event e
  · exact absurd hmem (h.unreported htask outcome)
  · exact absurd (by simpa using hmem) (h.unreported htask outcome)

theorem response (hactive : r.active = true) (outcome : Outcome ρ) :
    Kept id { r with active := false, timer := false, delivery := r.delivery ++ [.response outcome] } log := by
  have htask := h.task_of_active hactive
  refine { h with
    handed := fun hhandler _ => ?_
    shape := fun _ => ?_
    ended := fun hended => absurd hended htask
    through := fun _ hended => absurd hended htask }
  · rw [queued_append, queued_response, append_nil]
    exact h.handed hhandler htask
  · have hshape := h.shape htask
    rw [hactive] at hshape
    exact hshape.response outcome

theorem fail (hcompletion : r.completion = true) (cause : Cause) (hcause : cause ≠ .response) (outcome : Outcome ρ)
    (task : Task) (htask : task = .ended ∧ .failed id ∈ log ∨ task = r.task ∧ r.active = true) :
    Kept id { r with active := false, timer := false, completion := false, delivery := r.delivery ++ [.finished], task }
      (log ++ [.reported id cause outcome]) := by
  obtain ⟨hreceived, hhanded, hreports⟩ := of_reported (ε := ε) id cause outcome
  have hopen : r.task ≠ .ended := fun hended => absurd ((h.ended hended).2.symm.trans hcompletion) Bool.false_ne_true
  have hnone : ∀ outcome', .reported id .response outcome' ∉ log ++ [.reported id cause outcome] := fun outcome' hmem => by
    obtain hmem | hmem := mem_append.mp hmem
    · exact h.unreported hopen outcome' hmem
    · simp only [mem_singleton, Entry.reported.injEq] at hmem
      exact hcause hmem.2.1.symm
  have hreports' := h.reports
  refine ⟨by simp_all, fun hhandler _ => ?_, ?_, ?_, fun hopen' => ?_, fun _ => ⟨rfl, rfl⟩, fun before after outcome' heq => ?_,
    fun outcome' hmem => absurd hmem (hnone outcome'), fun _ hended => ?_⟩
  · rw [receivedOf_append, handedOf_append, hreceived, hhanded, queued_append, queued_finished, append_nil, append_nil, append_nil]
    exact h.handed hhandler hopen
  · rw [receivedOf_append, handedOf_append, hreceived, hhanded, append_nil, append_nil]
    exact h.given
  · rw [handedOf_append, hhanded, append_nil]
    exact h.none
  · obtain ⟨rfl, -⟩ | ⟨rfl, hactive⟩ := htask
    · exact absurd rfl hopen'
    · have hshape := h.shape hopen
      rw [hactive] at hshape
      exact hshape.finished
  · exact absurd (heq ▸ by simp) (hnone outcome')
  · obtain ⟨-, hfailed⟩ | ⟨rfl, -⟩ := htask
    · exact .inl (mem_append_left _ hfailed)
    · exact absurd hended hopen

theorem stop (hcompletion : r.completion = false) (hfailed : .failed id ∈ log) :
    Kept id { r with active := false, timer := false, task := .ended } log :=
  { h with
    through := fun _ _ => .inl hfailed
    handed := fun _ hopen => absurd rfl hopen
    shape := fun hopen => absurd rfl hopen
    ended := fun _ => ⟨rfl, hcompletion⟩
    settled := fun _ _ => rfl }

theorem give {e : ε} {rest : List (Delivery ε ρ)} (htask : r.task = .waiting) (hdelivery : r.delivery = .event e :: rest)
    (hhandler : r.hasHandler = true) : Kept id { r with delivery := rest, task := .handling } (log ++ [.handed id e]) := by
  have hopen : r.task ≠ .ended := by simp [htask]
  obtain ⟨hreceived, hhanded, hreports⟩ := of_handed (ρ := ρ) id e
  have heq : receivedOf id log = handedOf id log ++ [e] ++ queued rest := by
    rw [h.handed hhandler hopen, hdelivery]
    simp [queued, Delivery.event?]
  refine ⟨?_, fun _ _ => ?_, ?_, fun hnone => ?_, fun _ => ?_, fun hended => ?_, h.ordered.append (by simp) fun ⟨outcome, hmem⟩ => ?_,
    fun outcome hmem => ?_, fun _ hended => ?_⟩
  · rw [reportsOf_append, hreports, append_nil]
    exact h.reports
  · rw [receivedOf_append, handedOf_append, hreceived, hhanded, append_nil]
    exact heq
  · rw [receivedOf_append, handedOf_append, hreceived, hhanded, append_nil, heq]
    exact prefix_append _ _
  · exact absurd (hnone.symm.trans hhandler) Bool.false_ne_true
  · have hshape := h.shape hopen
    rw [hdelivery] at hshape
    exact hshape.tail_event
  · exact absurd hended (by simp)
  · exact absurd hmem (h.unreported hopen outcome)
  · exact absurd (by simpa using hmem) (h.unreported hopen outcome)
  · exact absurd hended (by simp)

theorem drop {e : ε} {rest : List (Delivery ε ρ)} (htask : r.task = .waiting) (hdelivery : r.delivery = .event e :: rest)
    (hhandler : r.hasHandler = false) : Kept id { r with delivery := rest } log := by
  have hopen : r.task ≠ .ended := by simp [htask]
  refine { h with
    handed := fun hhandler' _ => absurd (hhandler.symm.trans hhandler') Bool.false_ne_true
    shape := fun _ => ?_
    through := fun _ hended => absurd hended hopen }
  have hshape := h.shape hopen
  rw [hdelivery] at hshape
  exact hshape.tail_event

theorem finished {rest : List (Delivery ε ρ)} (htask : r.task = .waiting) (hdelivery : r.delivery = .finished :: rest) :
    Kept id { r with delivery := rest, task := .ended } log := by
  have hopen : r.task ≠ .ended := by simp [htask]
  have hshape := h.shape hopen
  rw [hdelivery] at hshape
  obtain ⟨rfl, hactive, hcompletion⟩ := hshape.tail_finished
  have hthrough : r.hasHandler = true → handedOf id log = receivedOf id log := fun hhandler => by
    rw [h.handed hhandler hopen, hdelivery]
    simp [queued, Delivery.event?]
  exact { h with
    through := fun hhandler _ => .inr (hthrough hhandler)
    handed := fun _ hopen => absurd rfl hopen
    shape := fun hopen => absurd rfl hopen
    ended := fun _ => ⟨hactive, hcompletion⟩
    settled := fun _ _ => rfl }

theorem report {outcome : Outcome ρ} {rest : List (Delivery ε ρ)} (htask : r.task = .waiting)
    (hdelivery : r.delivery = .response outcome :: rest) :
    r.completion = true ∧ Kept id { r with delivery := rest ++ [.finished], task := .ended, completion := false, timer := false }
      (log ++ [.reported id .response outcome]) := by
  have hopen : r.task ≠ .ended := by simp [htask]
  have hshape := h.shape hopen
  rw [hdelivery] at hshape
  obtain ⟨rfl, hactive, hcompletion⟩ := hshape.tail_response
  obtain ⟨hreceived, hhanded, hreports⟩ := of_reported (ε := ε) id .response outcome
  have hreports' := h.reports
  have hthrough : r.hasHandler = true → handedOf id log = receivedOf id log := fun hhandler => by
    rw [h.handed hhandler hopen, hdelivery]
    simp [queued, Delivery.event?]
  refine ⟨hcompletion, by simp_all, fun _ hopen => absurd rfl hopen, ?_, ?_, fun hopen => absurd rfl hopen, fun _ => ⟨hactive, rfl⟩,
    .response (h.unreported hopen) outcome hthrough, fun _ _ => rfl, fun hhandler _ => .inr ?_⟩
  · rw [receivedOf_append, handedOf_append, hreceived, hhanded, append_nil, append_nil]
    exact h.given
  · rw [handedOf_append, hhanded, append_nil]
    exact h.none
  · rw [receivedOf_append, handedOf_append, hreceived, hhanded, append_nil, append_nil]
    exact hthrough hhandler

theorem wait (htask : r.task = .handling) : Kept id { r with task := .waiting } log := by
  have hopen : r.task ≠ .ended := by simp [htask]
  exact { h with
    handed := fun hhandler _ => h.handed hhandler hopen
    shape := fun _ => h.shape hopen
    ended := fun hended => absurd hended (by simp)
    settled := fun outcome hmem => absurd hmem (h.unreported hopen outcome)
    through := fun _ hended => absurd hended (by simp) }

end

end Kept

end Cantrip.Workers
