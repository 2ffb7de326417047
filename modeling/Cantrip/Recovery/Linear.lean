import Cantrip.Recovery.Chain

/-!
# The journal is linear

Whatever the instances do and however their accesses to the store interleave, the durable head leads to
exactly the events that were acknowledged, in commit order (`Invariant.events`). The invariant ties every
instance that still knows the current revision to the durable head, and says nothing about the others:
they can only lose. Identities are drawn once, so an operation writes pages nobody else reads.
-/

namespace Cantrip.Recovery

open Lib Nbt

variable {ε : Type}

/-! ## The invariant -/

/-- The store holds `head`, sealed under its revision. -/
def DurableHead (P : Platform ε) (store : NbtRecoveryStore) : Option Head → Prop
  | none => store.head = none
  | some head => readHead head = .ok head ∧
    ∃ nonce, store.head = some (P.encrypt (.head store.revision) nonce (P.headText head))

/-- The chain behind a head holds the events `told`. -/
def ChainOf (P : Platform ε) (pages : Uuid → Nat → Option Bytes) (head : Option Head) (refs : List BlobReference)
    (told : List ε) : Prop :=
  match head with
  | none => refs = [] ∧ told = []
  | some head => Chain P pages head.tail refs told ∧ head.events = told.length

/-- The identities a reader of the head comes across. -/
def visible (head : Option Head) (refs : List BlobReference) : List Uuid :=
  (head.map fun h => h.baseline.id).toList ++ refs.map BlobReference.id

/-- An append whose pages are on their way, on top of the durable head. -/
def AppendReady (P : Platform ε) (pages : Uuid → Nat → Option Bytes) (head : Option Head) (operation : Operation ε)
    (event : ε) : Prop :=
  ∃ h ref parts done, head = some h ∧ operation.id = some ref.id ∧
    operation.head = some { h with tail := some ref, events := h.events + 1 } ∧ h.events + 1 ≤ maxSafeInteger ∧
    P.entryText ⟨1, h.events + 1, h.tail, event⟩ = some parts.flatten ∧ parts.flatten.length ≤ 512 * 1024 ∧
    RefersTo P ref parts ∧ PagesAt P pages ref.id parts done ∧
    operation.puts = (parts.zipIdx.drop done).map fun p => (p.2, p.1)

/-- What an operation of an instance with the current revision will do to the head. -/
def OperationReady (P : Platform ε) (pages : Uuid → Nat → Option Bytes) (head : Option Head) (operation : Operation ε) :
    Prop :=
  match operation.kind with
  | .append event => AppendReady P pages head operation event
  | .baseline => ∃ h, operation.head = some h ∧ readHead h = .ok h ∧ h.tail = none ∧ h.events = 0 ∧
    operation.id = some h.baseline.id
  | .clear => operation.head = none
  | .claim => operation.head = head

/-- What holds of one instance. Only an instance with the current revision is tied to the durable head. -/
structure JournalOk (P : Platform ε) (store : NbtRecoveryStore) (head : Option Head) (journal : NbtRecoveryJournal ε) :
    Prop where
  known : journal.revision ≤ store.revision
  current : journal.revision = store.revision → journal.head = head
  ready : journal.revision = store.revision → ∀ operation, journal.pending = some operation →
    OperationReady P store.pages head operation

def flightId (journal : NbtRecoveryJournal ε) : Option Uuid := journal.pending.bind Operation.id

structure Invariant (P : Platform ε) (sys : System ε) (labels : List (Label ε)) (head : Option Head)
    (refs : List BlobReference) : Prop where
  durable : DurableHead P sys.store head
  chain : ChainOf P sys.store.pages head refs (acknowledged labels)
  journals : ∀ (index : Nat) journal, sys.journals[index]? = some journal → JournalOk P sys.store head journal
  shown : ∀ id ∈ visible head refs, id ∈ sys.drawn ∧ id ∉ abandoned labels
  dead : ∀ id ∈ abandoned labels, id ∈ sys.drawn
  flight : ∀ (index : Nat) journal id, sys.journals[index]? = some journal → flightId journal = some id →
    id ∈ sys.drawn ∧ id ∉ visible head refs ∧ id ∉ abandoned labels
  apart : ∀ (i j : Nat) journal journal' id, sys.journals[i]? = some journal → sys.journals[j]? = some journal' →
    flightId journal = some id → flightId journal' = some id → i = j

section Labels

theorem acknowledged_append (labels : List (Label ε)) (label : Label ε) :
    acknowledged (labels ++ [label]) = match label with
      | .committed _ (.append event) => acknowledged labels ++ [event]
      | .committed _ .baseline | .committed _ .clear => []
      | _ => acknowledged labels := by
  rw [acknowledged, List.foldl_append]
  rfl

theorem abandoned_append (labels : List (Label ε)) (label : Label ε) :
    abandoned (labels ++ [label]) = abandoned labels ++ match label with
      | .lost _ (some id) | .failed _ (some id) => [id]
      | _ => [] := by
  rw [abandoned, List.filterMap_append]
  congr 1
  match label with
  | .silent | .rejected _ | .kept _ | .committed _ _ => rfl
  | .lost _ none | .failed _ none => rfl
  | .lost _ (some _) | .failed _ (some _) => rfl

/-- Labels that say nothing about the durable state. -/
def Label.quiet : Label ε → Prop
  | .silent | .rejected _ | .kept _ => True
  | _ => False

theorem quiet_append (labels : List (Label ε)) {label : Label ε} (h : label.quiet) :
    acknowledged (labels ++ [label]) = acknowledged labels ∧ abandoned (labels ++ [label]) = abandoned labels := by
  rw [acknowledged_append, abandoned_append]
  match label with
  | .silent | .rejected _ | .kept _ => exact ⟨rfl, by simp⟩
  | .committed .. | .lost .. | .failed .. => exact h.elim

end Labels

theorem invariant_initial (P : Platform ε) : Invariant P System.initial [] none [] where
  durable := rfl
  chain := ⟨rfl, rfl⟩
  journals := by
    intro index journal h
    simp [System.initial] at h
  shown := by simp [visible]
  dead := by simp [abandoned]
  flight := by
    intro index journal id h
    simp [System.initial] at h
  apart := by
    intro i j journal journal' id h
    simp [System.initial] at h

theorem getElem?_set_cases {α : Type} {xs : List α} {i j : Nat} {x y old : α} (hold : xs[i]? = some old)
    (h : (xs.set i x)[j]? = some y) : (j = i ∧ y = x) ∨ (j ≠ i ∧ xs[j]? = some y) := by
  have hlt : i < xs.length := (List.getElem?_eq_some_iff.mp hold).1
  by_cases hij : j = i
  · subst hij
    rw [List.getElem?_set_self hlt] at h
    exact .inl ⟨rfl, (Option.some.inj h).symm⟩
  · rw [List.getElem?_set_ne (fun e => hij e.symm)] at h
    exact .inr ⟨hij, h⟩

section Steps

variable {P : Platform ε} {sys : System ε} {labels : List (Label ε)} {head : Option Head} {refs : List BlobReference}

variable {action : Action ε} {label : Label ε} {index nonce : Nat} {journal old : NbtRecoveryJournal ε}
  {store : NbtRecoveryStore} {operation : Operation ε} {sys' : System ε} {id : Uuid}

theorem invariant_set (hi : Invariant P sys labels head refs)
    {drawn : List Uuid} (hold : sys.journals[index]? = some old) (hquiet : label.quiet)
    (hdrawn : ∀ id ∈ sys.drawn, id ∈ drawn) (hok : JournalOk P sys.store head journal)
    (hid : ∀ id, flightId journal = some id → flightId old = some id ∨ (id ∈ drawn ∧ id ∉ sys.drawn)) :
    Invariant P { sys with journals := sys.journals.set index journal, drawn := drawn } (labels ++ [label]) head refs := by
  obtain ⟨hack, hab⟩ := quiet_append labels hquiet
  have hfresh : ∀ (j : Nat) other id, sys.journals[j]? = some other → flightId other = some id → id ∉ sys.drawn → False :=
    fun j other id hj hfl hn => hn (hi.flight j other id hj hfl).1
  refine ⟨hi.durable, by rw [hack]; exact hi.chain, ?_, ?_, ?_, ?_, ?_⟩
  · intro j other hj
    rcases getElem?_set_cases hold hj with ⟨-, rfl⟩ | ⟨-, hj⟩
    · exact hok
    · exact hi.journals j other hj
  · intro id hvis
    rw [hab]
    exact ⟨hdrawn id (hi.shown id hvis).1, (hi.shown id hvis).2⟩
  · intro id hdead
    rw [hab] at hdead
    exact hdrawn id (hi.dead id hdead)
  · intro j other id hj hfl
    rw [hab]
    rcases getElem?_set_cases hold hj with ⟨-, rfl⟩ | ⟨-, hj⟩
    · rcases hid id hfl with h | ⟨hin, hout⟩
      · have := hi.flight index old id hold h
        exact ⟨hdrawn id this.1, this.2⟩
      · exact ⟨hin, fun h => hout (hi.shown id h).1, fun h => hout (hi.dead id h)⟩
    · have := hi.flight j other id hj hfl
      exact ⟨hdrawn id this.1, this.2⟩
  · intro i j one two id hone htwo hfl₁ hfl₂
    rcases getElem?_set_cases hold hone with ⟨hi₁, hj₁⟩ | ⟨-, hone'⟩
    · rcases getElem?_set_cases hold htwo with ⟨hi₂, -⟩ | ⟨-, htwo'⟩
      · omega
      · subst hj₁
        rcases hid id hfl₁ with h | ⟨-, hout⟩
        · rw [hi₁]
          exact hi.apart _ _ _ _ id hold htwo' h hfl₂
        · exact (hfresh j two id htwo' hfl₂ hout).elim
    · rcases getElem?_set_cases hold htwo with ⟨hi₂, hj₂⟩ | ⟨-, htwo'⟩
      · subst hj₂
        rcases hid id hfl₂ with h | ⟨-, hout⟩
        · rw [hi₂]
          exact hi.apart _ _ _ _ id hone' hold hfl₁ h
        · exact (hfresh i one id hone' hfl₁ hout).elim
      · exact hi.apart _ _ _ _ id hone' htwo' hfl₁ hfl₂

theorem openJournal_durable (hP : P.Lawful) (h : DurableHead P store head) :
    openJournal P store = .ok { head := head, revision := store.revision } := by
  match head with
  | none =>
    have hhead : store.head = none := h
    rw [openJournal, hhead]
  | some value =>
    obtain ⟨hread, nonce, hhead⟩ := h
    rw [openJournal, hhead]
    simp only [hP.decrypt_encrypt, Option.bind_some, hP.parse_head, hread, bind, Except.bind]

theorem invariant_open (hi : Invariant P sys labels head refs) :
    Invariant P { sys with journals := sys.journals ++ [{ head := head, revision := sys.store.revision }] }
      (labels ++ [.silent]) head refs := by
  obtain ⟨hack, hab⟩ := quiet_append labels (show (Label.silent : Label ε).quiet from trivial)
  have hcases : ∀ (j : Nat) (other : NbtRecoveryJournal ε),
      (sys.journals ++ [{ head := head, revision := sys.store.revision }])[j]? = some other →
      sys.journals[j]? = some other ∨ other = { head := head, revision := sys.store.revision } := by
    intro j other hj
    rcases Nat.lt_or_ge j sys.journals.length with hlt | hge
    · rw [List.getElem?_append_left hlt] at hj
      exact .inl hj
    · rw [List.getElem?_append_right hge, List.getElem?_singleton] at hj
      split_ifs at hj
      exact .inr (Option.some.inj hj).symm
  have hidle : flightId ({ head := head, revision := sys.store.revision } : NbtRecoveryJournal ε) = none := rfl
  refine ⟨hi.durable, by rw [hack]; exact hi.chain, ?_, by rw [hab]; exact hi.shown, by rw [hab]; exact hi.dead, ?_, ?_⟩
  · intro j other hj
    rcases hcases j other hj with hj | rfl
    · exact hi.journals j other hj
    · exact ⟨le_rfl, fun _ => rfl, fun _ operation h => by cases h⟩
  · intro j other id hj hfl
    rw [hab]
    rcases hcases j other hj with hj | rfl
    · exact hi.flight j other id hj hfl
    · rw [hidle] at hfl
      cases hfl
  · intro i j one two id hone htwo hfl₁ hfl₂
    rcases hcases i one hone with hone | rfl
    · rcases hcases j two htwo with htwo | rfl
      · exact hi.apart i j one two id hone htwo hfl₁ hfl₂
      · rw [hidle] at hfl₂
        cases hfl₂
    · rw [hidle] at hfl₁
      cases hfl₁

/-! ## Starting an operation -/

theorem streamSize_ok (stream : List Bytes) :
    ∀ size total, size ≤ maxSafeInteger → streamSize size stream = .ok total →
      total = size + stream.flatten.length ∧ total ≤ maxSafeInteger := by
  induction stream with
  | nil =>
    intro size total hsafe h
    cases h
    exact ⟨rfl, hsafe⟩
  | cons bytes rest ih =>
    intro size total _ h
    rw [streamSize] at h
    split_ifs at h with hle
    obtain ⟨htotal, hsafe⟩ := ih _ _ hle h
    refine ⟨?_, hsafe⟩
    rw [htotal, List.flatten_cons, List.length_append]
    omega

theorem writeBytes_ok {stream pages : List Bytes} {ref : BlobReference} (h : writeBytes P id stream = .ok (pages, ref)) :
    ref.id = id ∧ RefersTo P ref pages ∧ pages.flatten = stream.flatten := by
  unfold writeBytes at h
  match hsize : streamSize 0 stream with
  | .error e =>
    rw [hsize] at h
    cases h
  | .ok size =>
    rw [hsize] at h
    cases h
    obtain ⟨rfl, -⟩ := streamSize_ok stream 0 size (Nat.zero_le _) hsize
    have hflat : (packParts NBT_PAGE_BYTES [] stream).flatten = stream.flatten :=
      packParts_flatten (by decide) stream [] (by decide)
    refine ⟨rfl, ⟨?_, rfl, ?_, packParts_chunked (by decide) stream [] (by decide)⟩, hflat⟩
    · rw [hflat, Nat.zero_add]
    · rw [hflat]

theorem readHead_eq {value value' : Head} (h : readHead value = .ok value') : value' = value := by
  unfold readHead at h
  split_ifs at h
  · cases h
  · match hbase : reference value.baseline with
    | .error e =>
      rw [hbase] at h
      cases h
    | .ok _ =>
      rw [hbase] at h
      match htail : value.tail with
      | none =>
        simp only [htail] at h
        exact (Except.ok.inj h).symm
      | some tail =>
        simp only [htail, bind, Except.bind] at h
        split at h
        · cases h
        · exact (Except.ok.inj h).symm

theorem writeBaseline_ready (head : Option Head) {format : NbtFormat} {version : String}
    {bytes : List Bytes} {replace : Bool} (pages : Uuid → Nat → Option Bytes)
    (h : writeBaseline P journal id format version bytes replace = .ok (some operation)) :
    operation.id = some id ∧ OperationReady P pages head operation := by
  have hwrite : (if version = "" then fault "NBT recovery requires a baseline version"
      else do
        let written ← writeBytes P id bytes
        let head ← readHead ⟨1, format, version, written.2, none, 0⟩
        .ok (some ⟨.baseline, some id, written.1.zipIdx.map fun p => (p.2, p.1), some head⟩)) = .ok (some operation) →
      operation.id = some id ∧ OperationReady P pages head operation := by
    intro h
    split_ifs at h
    · cases h
    · rcases hbytes : writeBytes P id bytes with e | ⟨parts, baseline⟩
      · rw [hbytes] at h
        cases h
      · rw [hbytes] at h
        simp only [bind, Except.bind] at h
        cases hread : readHead ⟨1, format, version, baseline, none, 0⟩ with
        | error e =>
          rw [hread] at h
          cases h
        | ok value =>
          rw [hread] at h
          cases h
          obtain rfl := readHead_eq hread
          obtain ⟨hid, -, -⟩ := writeBytes_ok hbytes
          exact ⟨rfl, _, rfl, hread, rfl, rfl, congrArg some hid.symm⟩
  unfold writeBaseline at h
  cases hhead : journal.head with
  | none =>
    rw [hhead] at h
    exact hwrite h
  | some value =>
    rw [hhead] at h
    simp only at h
    cases replace with
    | true => exact hwrite h
    | false =>
      simp only [Bool.false_eq_true, if_false] at h
      split_ifs at h
      · cases h
      · cases h

theorem append_ready (head : Option Head) {event : ε}
    (pages : Uuid → Nat → Option Bytes) (h : append P journal id event = .ok (some operation)) :
    operation.id = some id ∧ (journal.head = head → OperationReady P pages head operation) := by
  unfold append at h
  match hhead : journal.head with
  | none =>
    rw [hhead] at h
    cases h
  | some value =>
    rw [hhead] at h
    simp only at h
    split_ifs at h with hsafe
    · cases h
    · match htext : P.entryText ⟨1, value.events + 1, value.tail, event⟩ with
      | none =>
        rw [htext] at h
        cases h
      | some bytes =>
        rw [htext] at h
        simp only at h
        split_ifs at h with hbounded
        · cases h
        · match hwrite : writeBytes P id [bytes] with
          | .error e =>
            rw [hwrite] at h
            cases h
          | .ok (parts, tail) =>
            rw [hwrite] at h
            cases h
            obtain ⟨hid, hrefers, hflat⟩ := writeBytes_ok hwrite
            rw [List.flatten_singleton] at hflat
            refine ⟨rfl, fun heq => ?_⟩
            refine ⟨value, tail, parts, 0, heq.symm, congrArg some hid.symm, rfl, by omega, by rw [hflat]; exact htext,
              by rw [hflat]; omega, hrefers, fun i _ hlt => absurd hlt (by omega), by simp⟩

theorem begin_ready {call : Call ε} (hok : JournalOk P store head journal)
    (h : begin_ P journal id call = .ok (some operation)) :
    (∀ x, operation.id = some x → x = id) ∧
      (journal.revision = store.revision → OperationReady P store.pages head operation) := by
  have hid : operation.id = some id → ∀ x, operation.id = some x → x = id := by
    intro h x hx
    rw [h] at hx
    exact (Option.some.inj hx).symm
  match call with
  | .prepare format version bytes =>
    obtain ⟨h₁, h₂⟩ := writeBaseline_ready head store.pages h
    exact ⟨hid h₁, fun _ => h₂⟩
  | .replace format version bytes =>
    obtain ⟨h₁, h₂⟩ := writeBaseline_ready head store.pages h
    exact ⟨hid h₁, fun _ => h₂⟩
  | .append event =>
    obtain ⟨h₁, h₂⟩ := append_ready head store.pages h
    exact ⟨hid h₁, fun hrev => h₂ (hok.current hrev)⟩
  | .clear =>
    cases h
    exact ⟨fun x hx => (by cases hx), fun _ => rfl⟩
  | .claim =>
    cases h
    exact ⟨fun x hx => (by cases hx), hok.current⟩

theorem invariant_call (hi : Invariant P sys labels head refs) {call : Call ε} (hold : sys.journals[index]? = some journal)
    (h : System.startCall P sys index call id journal = some (sys', label)) :
    Invariant P sys' (labels ++ [label]) head refs := by
  have hok := hi.journals index journal hold
  have hself : sys = { sys with journals := sys.journals.set index journal, drawn := sys.drawn } := by
    obtain ⟨hlt, hget⟩ := List.getElem?_eq_some_iff.mp hold
    rw [← hget, List.set_getElem_self]
  have hstay : ∀ label : Label ε, label.quiet → Invariant P sys (labels ++ [label]) head refs := by
    intro label hquiet
    rw [hself]
    exact invariant_set hi hold hquiet (fun _ h => h) hok (fun _ h => .inl h)
  unfold System.startCall at h
  split_ifs at h with hbusy
  rw [not_or, not_or] at hbusy
  match hbegin : begin_ P journal id call with
  | .error e =>
    rw [hbegin] at h
    cases h
    exact hstay _ trivial
  | .ok none =>
    rw [hbegin] at h
    cases h
    exact hstay _ trivial
  | .ok (some operation) =>
    rw [hbegin] at h
    cases h
    obtain ⟨hid, hready⟩ := begin_ready hok hbegin
    refine invariant_set hi hold trivial (fun x hx => List.mem_cons_of_mem _ hx) ⟨hok.known, hok.current, ?_⟩ ?_
    · intro hrev op hop
      cases hop
      exact hready hrev
    · intro x hx
      rw [hid x hx]
      exact .inr ⟨List.mem_cons_self, hbusy.2.2⟩

theorem OperationReady.congr {pages pages' : Uuid → Nat → Option Bytes}
    (heq : ∀ id, operation.id = some id → pages' id = pages id) (h : OperationReady P pages head operation) :
    OperationReady P pages' head operation := by
  obtain ⟨kind, opId, puts, opHead⟩ := operation
  match kind with
  | .append event =>
    obtain ⟨value, ref, parts, done, h₁, h₂, h₃, h₄, h₅, h₆, h₇, h₈, h₉⟩ := h
    exact ⟨value, ref, parts, done, h₁, h₂, h₃, h₄, h₅, h₆, h₇, h₈.congr (heq ref.id h₂), h₉⟩
  | .baseline | .clear | .claim => exact h

theorem OperationReady.put {k : Nat} {bytes : Bytes}
    {rest : List (Nat × Bytes)} (h : OperationReady P store.pages head operation) (hid : operation.id = some id)
    (hputs : operation.puts = (k, bytes) :: rest) :
    OperationReady P (store.put id k (P.encrypt (.page id k) nonce bytes)).pages head { operation with puts := rest } := by
  obtain ⟨kind, opId, puts, opHead⟩ := operation
  match kind with
  | .append event =>
    obtain ⟨value, ref, parts, done, h₁, h₂, h₃, h₄, h₅, h₆, h₇, h₈, h₉⟩ := h
    obtain rfl : ref.id = id := Option.some.inj (h₂.symm.trans hid)
    have hdrop := h₉.symm.trans hputs
    have hlt : done < parts.length := by
      by_contra hge
      rw [List.drop_eq_nil_of_le (by simp; omega)] at hdrop
      cases hdrop
    have hlt' : done < parts.zipIdx.length := by simpa using hlt
    rw [List.drop_eq_getElem_cons hlt', List.map_cons, List.getElem_zipIdx, Nat.zero_add] at hdrop
    obtain ⟨hhead, htail⟩ := List.cons.inj hdrop
    obtain ⟨rfl, rfl⟩ := Prod.mk.inj hhead
    exact ⟨value, ref, parts, done + 1, h₁, h₂, h₃, h₄, h₅, h₆, h₇, h₈.put hlt, htail.symm⟩
  | .baseline | .clear | .claim => exact h

theorem apart_set (hi : Invariant P sys labels head refs)
    (journal : NbtRecoveryJournal ε) (hold : sys.journals[index]? = some old) (hid : ∀ id, flightId journal = some id → flightId old = some id) :
    ∀ (i j : Nat) one two id, (sys.journals.set index journal)[i]? = some one →
      (sys.journals.set index journal)[j]? = some two → flightId one = some id → flightId two = some id → i = j := by
  have hback : ∀ (i : Nat) one id, (sys.journals.set index journal)[i]? = some one → flightId one = some id →
      ∃ one', sys.journals[i]? = some one' ∧ flightId one' = some id := by
    intro i one id hone hfl
    rcases getElem?_set_cases hold hone with ⟨rfl, rfl⟩ | ⟨-, hone⟩
    · exact ⟨old, hold, hid id hfl⟩
    · exact ⟨one, hone, hfl⟩
  intro i j one two id hone htwo hfl₁ hfl₂
  obtain ⟨one', hone', hfl₁'⟩ := hback i one id hone hfl₁
  obtain ⟨two', htwo', hfl₂'⟩ := hback j two id htwo hfl₂
  exact hi.apart i j one' two' id hone' htwo' hfl₁' hfl₂'

theorem invariant_put (hi : Invariant P sys labels head refs) (hold : sys.journals[index]? = some journal)
    (hpending : journal.pending = some operation)
    (h : System.putPage P sys index nonce journal operation = some (sys', label)) :
    Invariant P sys' (labels ++ [label]) head refs := by
  unfold System.putPage at h
  split at h
  · next id k bytes rest hid hputs =>
    cases h
    obtain ⟨hack, hab⟩ := quiet_append labels (show (Label.silent : Label ε).quiet from trivial)
    have hflight : flightId journal = some id := by rw [flightId, hpending]; exact hid
    obtain ⟨-, hhidden, -⟩ := hi.flight index journal id hold hflight
    have hother : ∀ x, x ≠ id → (sys.store.put id k (P.encrypt (.page id k) nonce bytes)).pages x = sys.store.pages x :=
      fun x hx => put_other sys.store k _ hx
    have hok := hi.journals index journal hold
    have hsame : ∀ x, flightId { journal with pending := some { operation with puts := rest } } = some x →
        flightId journal = some x := by
      intro x hx
      rw [hflight]
      exact hid.symm.trans hx
    refine ⟨?_, ?_, ?_, by rw [hab]; exact hi.shown, by rw [hab]; exact hi.dead, ?_, apart_set hi _ hold hsame⟩
    · have hdurable := hi.durable
      match head with
      | none => exact hdurable
      | some value => exact hdurable
    · rw [hack]
      have hchain := hi.chain
      match head with
      | none => exact hchain
      | some value =>
        refine ⟨hchain.1.congr fun ref href => hother ref.id ?_, hchain.2⟩
        rintro rfl
        exact hhidden (List.mem_append_right _ (List.mem_map_of_mem href))
    · intro j other hj
      rcases getElem?_set_cases hold hj with ⟨-, rfl⟩ | ⟨hne, hj'⟩
      · refine ⟨hok.known, hok.current, fun hrev op hop => ?_⟩
        cases hop
        exact (hok.ready hrev operation hpending).put hid hputs
      · have hok' := hi.journals j other hj'
        refine ⟨hok'.known, hok'.current, fun hrev op hop => ?_⟩
        refine (hok'.ready hrev op hop).congr fun x hx => hother x ?_
        rintro rfl
        exact hne (hi.apart j index other journal x hj' hold (by rw [flightId, hop]; exact hx) hflight)
    · intro j other x hj hfl
      rw [hab]
      rcases getElem?_set_cases hold hj with ⟨-, rfl⟩ | ⟨-, hj⟩
      · exact hi.flight index journal x hold (hsame x hfl)
      · exact hi.flight j other x hj hfl
  · cases h

/-! ## Ending an operation -/

theorem invariant_settle (hi : Invariant P sys labels head refs) (hold : sys.journals[index]? = some journal)
    (hpending : journal.pending = some operation)
    (hlabel : label = .lost index operation.id ∨ label = .failed index operation.id) :
    Invariant P (sys.settle index journal) (labels ++ [label]) head refs := by
  have hack : acknowledged (labels ++ [label]) = acknowledged labels := by
    rw [acknowledged_append]
    rcases hlabel with rfl | rfl <;> rfl
  have hab : ∀ x ∈ abandoned (labels ++ [label]), x ∈ abandoned labels ∨ operation.id = some x := by
    intro x hx
    rw [abandoned_append] at hx
    rcases List.mem_append.mp hx with hx | hx
    · exact .inl hx
    · rcases hlabel with rfl | rfl
      · cases hid : operation.id with
        | none => rw [hid] at hx; cases hx
        | some id => rw [hid] at hx; exact .inr (congrArg some (List.mem_singleton.mp hx).symm)
      · cases hid : operation.id with
        | none => rw [hid] at hx; cases hx
        | some id => rw [hid] at hx; exact .inr (congrArg some (List.mem_singleton.mp hx).symm)
  have hflight : ∀ x, operation.id = some x → flightId journal = some x := by
    intro x hx
    rw [flightId, hpending]
    exact hx
  have hok := hi.journals index journal hold
  refine ⟨hi.durable, by rw [hack]; exact hi.chain, ?_, ?_, ?_, ?_,
    apart_set hi { journal with pending := none } hold (fun x hx => (by cases hx))⟩
  · intro j other hj
    rcases getElem?_set_cases hold hj with ⟨-, rfl⟩ | ⟨-, hj⟩
    · exact ⟨hok.known, hok.current, fun _ op hop => (by cases hop)⟩
    · exact hi.journals j other hj
  · intro x hx
    refine ⟨(hi.shown x hx).1, fun hdead => ?_⟩
    rcases hab x hdead with h | h
    · exact (hi.shown x hx).2 h
    · exact (hi.flight index journal x hold (hflight x h)).2.1 hx
  · intro x hx
    rcases hab x hx with h | h
    · exact hi.dead x h
    · exact (hi.flight index journal x hold (hflight x h)).1
  · intro j other x hj hfl
    rcases getElem?_set_cases hold hj with ⟨-, rfl⟩ | ⟨hne, hj⟩
    · cases hfl
    · obtain ⟨h₁, h₂, h₃⟩ := hi.flight j other x hj hfl
      refine ⟨h₁, h₂, fun hdead => ?_⟩
      rcases hab x hdead with h | h
      · exact h₃ h
      · exact hne (hi.apart j index other journal x hj hold hfl (hflight x h))

theorem commit_ok {store' : NbtRecoveryStore} {revision : Nat} {bytes : Option Bytes}
    (h : store.commit revision bytes = .ok store') :
    store.revision = revision ∧ store' = ⟨revision + 1, bytes, if bytes = none then fun _ _ => none else store.pages⟩ := by
  rw [NbtRecoveryStore.commit] at h
  by_cases h₁ : maxSafeInteger ≤ revision
  · rw [if_pos h₁] at h
    cases h
  by_cases h₂ : NBT_PAGE_BYTES + 29 < (bytes.getD []).length
  · rw [if_neg h₁, if_pos h₂] at h
    cases h
  by_cases h₃ : store.revision = revision
  · rw [if_neg h₁, if_neg h₂, if_neg (not_not.mpr h₃)] at h
    exact ⟨h₃, (Except.ok.inj h).symm⟩
  · rw [if_neg h₁, if_neg h₂, if_pos h₃] at h
    cases h

theorem commit_conflict {revision : Nat} {bytes : Option Bytes}
    (h : store.commit revision bytes = .error .conflict) : store.revision ≠ revision := by
  rw [NbtRecoveryStore.commit] at h
  intro heq
  by_cases h₁ : maxSafeInteger ≤ revision
  · rw [if_pos h₁] at h
    cases h
  by_cases h₂ : NBT_PAGE_BYTES + 29 < (bytes.getD []).length
  · rw [if_neg h₁, if_pos h₂] at h
    cases h
  rw [if_neg h₁, if_neg h₂, if_neg (not_not.mpr heq)] at h
  cases h

theorem readHead_append {value : Head} {ref : BlobReference} (h : readHead value = .ok value)
    (hsafe : value.events + 1 ≤ maxSafeInteger) (href : reference ref = .ok ()) :
    readHead { value with tail := some ref, events := value.events + 1 }
      = .ok { value with tail := some ref, events := value.events + 1 } := by
  unfold readHead at h
  split_ifs at h with hbad
  · cases h
  · have hbase : reference value.baseline = .ok () := by
      match hbase : reference value.baseline with
      | .ok () => rfl
      | .error e =>
        rw [hbase] at h
        cases h
    rw [not_or, not_or] at hbad
    have hgood : ¬(value.version ≠ 1 ∨ value.baselineVersion = "" ∨ maxSafeInteger < value.events + 1 ∨
        decide (value.events + 1 = 0) ≠ (some ref).isNone) := by
      rintro (h | h | h | h)
      · exact hbad.1 h
      · exact hbad.2.1 h
      · omega
      · simp at h
    simp only [readHead, if_neg hgood, hbase, href, bind, Except.bind]

def toldAfter (kind : OperationKind ε) (told : List ε) : List ε :=
  match kind with
  | .append event => told ++ [event]
  | .baseline | .clear => []
  | .claim => told

theorem OperationReady.commit {pages : Uuid → Nat → Option Bytes} {told : List ε}
    (h : OperationReady P pages head operation) (hputs : operation.puts = [])
    (hread : ∀ value, head = some value → readHead value = .ok value) (hchain : ChainOf P pages head refs told) :
    ∃ refs', ChainOf P (if operation.head = none then fun _ _ => none else pages) operation.head refs'
        (toldAfter operation.kind told) ∧
      (∀ value, operation.head = some value → readHead value = .ok value) ∧
      ∀ id ∈ visible operation.head refs', id ∈ visible head refs ∨ operation.id = some id := by
  obtain ⟨kind, opId, puts, opHead⟩ := operation
  match kind with
  | .append event =>
    obtain ⟨value, ref, parts, done, rfl, h₂, h₃, h₄, h₅, h₆, h₇, h₈, h₉⟩ := h
    obtain ⟨hlinks, hcount⟩ := hchain
    simp only at h₂ h₃ hputs h₉
    subst h₃
    have hdone : parts.length ≤ done := by
      have hnil := h₉.symm.trans hputs
      rw [List.map_eq_nil_iff, List.drop_eq_nil_iff, List.length_zipIdx] at hnil
      exact hnil
    have hall : PagesAt P pages ref.id parts parts.length := fun i hi _ => h₈ i hi (by omega)
    refine ⟨ref :: refs, ⟨?_, ?_⟩, ?_, ?_⟩
    · rw [if_neg (by simp)]
      rw [hcount] at h₄ h₅
      exact .link hlinks ⟨parts, rfl, h₇, hall⟩ h₅ h₆ h₄
    · simp [toldAfter, hcount]
    · rintro _ ⟨⟩
      exact readHead_append (hread value rfl) h₄ (h₇.reference_ok (h₆.trans (by decide)))
    · intro id hid
      simp only [visible, Option.map_some, Option.toList_some, List.map_cons, List.singleton_append, List.mem_cons] at hid ⊢
      rcases hid with hid | hid | hid
      · exact .inl (.inl hid)
      · exact .inr (by rw [h₂, hid])
      · exact .inl (.inr hid)
  | .baseline =>
    obtain ⟨value, h₁, h₂, h₃, h₄, h₅⟩ := h
    simp only at h₁ h₅
    subst h₁
    refine ⟨[], ⟨?_, ?_⟩, ?_, ?_⟩
    · rw [h₃]
      exact .origin
    · rw [h₄]
      rfl
    · rintro _ ⟨⟩
      exact h₂
    · intro id hid
      simp only [visible, Option.map_some, Option.toList_some, List.map_nil, List.append_nil, List.mem_singleton] at hid
      exact .inr (by rw [h₅, hid])
  | .clear =>
    obtain rfl : opHead = none := h
    refine ⟨[], ⟨rfl, rfl⟩, by rintro _ ⟨⟩, ?_⟩
    intro id hid
    simp [visible] at hid
  | .claim =>
    obtain rfl : opHead = head := h
    refine ⟨refs, ?_, hread, fun id hid => .inl hid⟩
    match opHead with
    | none => exact hchain
    | some value =>
      rw [if_neg (by simp)]
      exact hchain

theorem durable_readHead (h : DurableHead P store head) : ∀ value, head = some value → readHead value = .ok value := by
  rintro value rfl
  exact h.1

theorem invariant_commit (hi : Invariant P sys labels head refs) (hold : sys.journals[index]? = some journal)
    (hpending : journal.pending = some operation) (hputs : operation.puts = [])
    (h : sys.store.commit journal.revision (operation.head.map fun head =>
      P.encrypt (.head (journal.revision + 1)) nonce (P.headText head)) = .ok store) :
    ∃ refs', Invariant P { sys with
        store := store
        journals := sys.journals.set index
          { journal with revision := store.revision, head := operation.head, pending := none } }
      (labels ++ [.committed index operation.kind]) operation.head refs' := by
  obtain ⟨hrev, rfl⟩ := commit_ok h
  have hok := hi.journals index journal hold
  obtain ⟨refs', hchain, hread, hvisible⟩ := (hok.ready hrev.symm operation hpending).commit hputs
    (durable_readHead hi.durable) hi.chain
  have hack : acknowledged (labels ++ [.committed index operation.kind])
      = toldAfter operation.kind (acknowledged labels) := by
    rw [acknowledged_append]
    cases operation.kind <;> rfl
  have hab : abandoned (labels ++ [.committed index operation.kind]) = abandoned labels := by
    rw [abandoned_append, List.append_nil]
  have hflight : ∀ x, operation.id = some x → flightId journal = some x := by
    intro x hx
    rw [flightId, hpending]
    exact hx
  refine ⟨refs', ?_, ?_, ?_, ?_, by rw [hab]; exact hi.dead, ?_, apart_set hi _ hold (fun x hx => (by cases hx))⟩
  · match hhead : operation.head with
    | none => rfl
    | some value => exact ⟨hread value hhead, nonce, rfl⟩
  · rw [hack]
    have hnone : (operation.head.map fun head => P.encrypt (.head (journal.revision + 1)) nonce (P.headText head)) = none
        ↔ operation.head = none := Option.map_eq_none_iff
    simp only [hnone]
    exact hchain
  · intro j other hj
    rcases getElem?_set_cases hold hj with ⟨-, rfl⟩ | ⟨-, hj'⟩
    · exact ⟨le_rfl, fun _ => rfl, fun _ op hop => (by cases hop)⟩
    · have hknown := (hi.journals j other hj').known
      refine ⟨by simp only; omega, fun heq => ?_, fun heq => ?_⟩
      · simp only at heq
        omega
      · simp only at heq
        omega
  · intro x hx
    rw [hab]
    rcases hvisible x hx with h | h
    · exact hi.shown x h
    · have := hi.flight index journal x hold (hflight x h)
      exact ⟨this.1, this.2.2⟩
  · intro j other x hj hfl
    rw [hab]
    rcases getElem?_set_cases hold hj with ⟨-, rfl⟩ | ⟨hne, hj'⟩
    · cases hfl
    · obtain ⟨h₁, h₂, h₃⟩ := hi.flight j other x hj' hfl
      refine ⟨h₁, fun hvis => ?_, h₃⟩
      rcases hvisible x hvis with h | h
      · exact h₂ h
      · exact hne (hi.apart j index other journal x hj' hold hfl (hflight x h))

theorem step_cases (h : System.step P sys action = some (sys', label)) :
    (action = .open ∧ ∃ journal, openJournal P sys.store = .ok journal ∧
        sys' = { sys with journals := sys.journals ++ [journal] } ∧ label = .silent) ∨
    (action = .open ∧ sys' = sys ∧ label = .rejected sys.journals.length ∧ ∀ journal, openJournal P sys.store ≠ .ok journal) ∨
    (∃ (index : Nat) (journal : NbtRecoveryJournal ε), sys.journals[index]? = some journal ∧
      ((∃ call id, System.startCall P sys index call id journal = some (sys', label)) ∨
      (∃ operation, journal.pending = some operation ∧
        ((∃ nonce, System.putPage P sys index nonce journal operation = some (sys', label)) ∨
         (∃ nonce, System.commitHead P sys index nonce journal operation = some (sys', label)) ∨
         (sys' = sys.settle index journal ∧ label = .failed index operation.id))) ∨
      (sys' = { sys with journals := sys.journals.set index { journal with closed := true } } ∧ label = .silent))) := by
  match action with
  | .open =>
    simp only [System.step] at h
    match hopen : openJournal P sys.store with
    | .ok journal =>
      rw [hopen] at h
      cases h
      exact .inl ⟨rfl, journal, rfl, rfl, rfl⟩
    | .error e =>
      rw [hopen] at h
      cases h
      exact .inr (.inl ⟨rfl, rfl, rfl, by rintro journal ⟨⟩⟩)
  | .call index call id =>
    obtain ⟨journal, hj, h⟩ := Option.bind_eq_some_iff.mp h
    exact .inr (.inr ⟨index, journal, hj, .inl ⟨call, id, h⟩⟩)
  | .put index nonce =>
    obtain ⟨journal, hj, h⟩ := Option.bind_eq_some_iff.mp h
    obtain ⟨operation, hop, h⟩ := Option.bind_eq_some_iff.mp h
    exact .inr (.inr ⟨index, journal, hj, .inr (.inl ⟨operation, hop, .inl ⟨nonce, h⟩⟩)⟩)
  | .commit index nonce =>
    obtain ⟨journal, hj, h⟩ := Option.bind_eq_some_iff.mp h
    obtain ⟨operation, hop, h⟩ := Option.bind_eq_some_iff.mp h
    exact .inr (.inr ⟨index, journal, hj, .inr (.inl ⟨operation, hop, .inr (.inl ⟨nonce, h⟩)⟩)⟩)
  | .fail index =>
    obtain ⟨journal, hj, h⟩ := Option.bind_eq_some_iff.mp h
    obtain ⟨operation, hop, h⟩ := Option.bind_eq_some_iff.mp h
    cases h
    exact .inr (.inr ⟨index, journal, hj, .inr (.inl ⟨operation, hop, .inr (.inr ⟨rfl, rfl⟩)⟩)⟩)
  | .close index =>
    obtain ⟨journal, hj, h⟩ := Option.bind_eq_some_iff.mp h
    cases h
    exact .inr (.inr ⟨index, journal, hj, .inr (.inr ⟨rfl, rfl⟩)⟩)

theorem commitHead_cases (h : System.commitHead P sys index nonce journal operation = some (sys', label)) :
    operation.puts = [] ∧
    ((∃ store, sys.store.commit journal.revision (operation.head.map fun head =>
          P.encrypt (.head (journal.revision + 1)) nonce (P.headText head)) = .ok store ∧
        sys' = { sys with
          store := store
          journals := sys.journals.set index
            { journal with revision := store.revision, head := operation.head, pending := none } } ∧
        label = .committed index operation.kind) ∨
      (sys.store.revision ≠ journal.revision ∧ sys' = sys.settle index journal ∧ label = .lost index operation.id) ∨
      (sys' = sys.settle index journal ∧ label = .failed index operation.id)) := by
  unfold System.commitHead at h
  by_cases hputs : operation.puts = []
  · rw [if_neg (not_not.mpr hputs)] at h
    refine ⟨hputs, ?_⟩
    match hcommit : sys.store.commit journal.revision (operation.head.map fun head =>
        P.encrypt (.head (journal.revision + 1)) nonce (P.headText head)) with
    | .ok store =>
      simp only [hcommit] at h
      cases h
      exact .inl ⟨store, rfl, rfl, rfl⟩
    | .error .conflict =>
      simp only [hcommit] at h
      cases h
      exact .inr (.inl ⟨commit_conflict hcommit, rfl, rfl⟩)
    | .error (.nbt e) =>
      simp only [hcommit] at h
      cases h
      exact .inr (.inr ⟨rfl, rfl⟩)
    | .error (.storage message) =>
      simp only [hcommit] at h
      cases h
      exact .inr (.inr ⟨rfl, rfl⟩)
  · rw [if_pos hputs] at h
    cases h

theorem invariant_step (hP : P.Lawful)
    (hi : Invariant P sys labels head refs) (h : System.step P sys action = some (sys', label)) :
    ∃ head' refs', Invariant P sys' (labels ++ [label]) head' refs' := by
  rcases step_cases h with ⟨-, journal, hopen, rfl, rfl⟩ | ⟨-, -, -, hnone⟩ | ⟨index, journal, hold, hrest⟩
  · rw [openJournal_durable hP hi.durable] at hopen
    cases hopen
    exact ⟨head, refs, invariant_open hi⟩
  · exact absurd (openJournal_durable hP hi.durable) (hnone _)
  · rcases hrest with ⟨call, id, hcall⟩ | ⟨operation, hpending, hop⟩ | ⟨rfl, rfl⟩
    · exact ⟨head, refs, invariant_call hi hold hcall⟩
    · rcases hop with ⟨nonce, hput⟩ | ⟨nonce, hcommit⟩ | ⟨rfl, rfl⟩
      · exact ⟨head, refs, invariant_put hi hold hpending hput⟩
      · obtain ⟨hputs, ⟨store, hok, rfl, rfl⟩ | ⟨-, rfl, rfl⟩ | ⟨rfl, rfl⟩⟩ := commitHead_cases hcommit
        · exact ⟨operation.head, invariant_commit hi hold hpending hputs hok⟩
        · exact ⟨head, refs, invariant_settle hi hold hpending (.inl rfl)⟩
        · exact ⟨head, refs, invariant_settle hi hold hpending (.inr rfl)⟩
      · exact ⟨head, refs, invariant_settle hi hold hpending (.inr rfl)⟩
    · have hok := hi.journals index journal hold
      exact ⟨head, refs, invariant_set hi hold trivial (fun _ h => h) ⟨hok.known, hok.current, hok.ready⟩
        (fun _ h => .inl h)⟩

theorem invariant_run (hP : P.Lawful) {actions : List (Action ε)}
    (h : System.run P actions = some (sys, labels)) : ∃ head refs, Invariant P sys labels head refs := by
  have hrun := runSteps_invariant (I := fun sys labels => ∃ head refs, Invariant P sys labels head refs)
    (fun s bs a s' b hi hs => by
      obtain ⟨head, refs, hi⟩ := hi
      exact invariant_step hP hi hs)
    actions System.initial [] sys labels ⟨none, [], invariant_initial P⟩ h
  simpa using hrun

/-! ## An instance that lost -/

/-- The revision the instance knows is out of date. -/
def Behind (sys : System ε) (index : Nat) : Prop :=
  ∃ journal, sys.journals[index]? = some journal ∧ journal.revision < sys.store.revision

theorem behind_set {i : Nat} {drawn : List Uuid}
    (hb : Behind sys index) (hold : sys.journals[i]? = some old) (hsame : journal.revision = old.revision)
    (hle : sys.store.revision ≤ store.revision) :
    Behind { sys with store := store, journals := sys.journals.set i journal, drawn := drawn } index := by
  obtain ⟨mine, hmine, hlt⟩ := hb
  obtain ⟨hilt, -⟩ := List.getElem?_eq_some_iff.mp hold
  by_cases hii : index = i
  · subst hii
    rw [hold] at hmine
    cases hmine
    exact ⟨journal, List.getElem?_set_self hilt, by simp only; omega⟩
  · exact ⟨mine, by simp only; rw [List.getElem?_set_ne (fun e => hii e.symm)]; exact hmine, by simp only; omega⟩

theorem behind_step (hb : Behind sys index) (h : System.step P sys action = some (sys', label)) :
    Behind sys' index ∧ ∀ kind, label ≠ .committed index kind := by
  rcases step_cases h with ⟨-, journal, hopen, rfl, rfl⟩ | ⟨-, rfl, rfl, -⟩ | ⟨i, journal, hold, hrest⟩
  · obtain ⟨mine, hmine, hlt⟩ := hb
    refine ⟨⟨mine, ?_, hlt⟩, by rintro kind ⟨⟩⟩
    rw [List.getElem?_append_left (List.getElem?_eq_some_iff.mp hmine).1]
    exact hmine
  · exact ⟨hb, by rintro kind ⟨⟩⟩
  · rcases hrest with ⟨call, id, hcall⟩ | ⟨operation, hpending, hop⟩ | ⟨rfl, rfl⟩
    · unfold System.startCall at hcall
      split_ifs at hcall
      split at hcall
      · cases hcall
        exact ⟨hb, by rintro kind ⟨⟩⟩
      · cases hcall
        exact ⟨hb, by rintro kind ⟨⟩⟩
      · cases hcall
        exact ⟨behind_set hb hold rfl le_rfl, by rintro kind ⟨⟩⟩
    · rcases hop with ⟨nonce, hput⟩ | ⟨nonce, hcommit⟩ | ⟨rfl, rfl⟩
      · unfold System.putPage at hput
        split at hput
        · cases hput
          exact ⟨behind_set hb hold rfl le_rfl, by rintro kind ⟨⟩⟩
        · cases hput
      · obtain ⟨-, ⟨store, hok, rfl, rfl⟩ | ⟨-, rfl, rfl⟩ | ⟨rfl, rfl⟩⟩ := commitHead_cases hcommit
        · obtain ⟨hrev, rfl⟩ := commit_ok hok
          obtain ⟨mine, hmine, hlt⟩ := hb
          have hne : index ≠ i := by
            rintro rfl
            rw [hold] at hmine
            cases hmine
            omega
          refine ⟨⟨mine, ?_, ?_⟩, ?_⟩
          · simp only
            rw [List.getElem?_set_ne (fun e => hne e.symm)]
            exact hmine
          · simp only
            omega
          · rintro kind ⟨⟩
            exact hne rfl
        · exact ⟨behind_set hb hold rfl le_rfl, by rintro kind ⟨⟩⟩
        · exact ⟨behind_set hb hold rfl le_rfl, by rintro kind ⟨⟩⟩
      · exact ⟨behind_set hb hold rfl le_rfl, by rintro kind ⟨⟩⟩
    · exact ⟨behind_set hb hold rfl le_rfl, by rintro kind ⟨⟩⟩

theorem behind_run {actions : List (Action ε)} (hb : Behind sys index)
    (h : runSteps (System.step P) sys actions = some (sys', labels)) : ∀ kind, Label.committed index kind ∉ labels := by
  have hrun := runSteps_invariant
    (I := fun (s : System ε) bs => Behind s index ∧ ∀ kind, Label.committed index kind ∉ bs)
    (fun s bs a s' b hi hs => by
      obtain ⟨hb', hlabel⟩ := behind_step hi.1 hs
      refine ⟨hb', fun kind hmem => ?_⟩
      rcases List.mem_append.mp hmem with hmem | hmem
      · exact hi.2 kind hmem
      · exact hlabel kind (List.mem_singleton.mp hmem).symm)
    actions sys [] sys' labels ⟨hb, by simp⟩ h
  simpa using hrun.2

theorem behind_of_lost (hi : Invariant P sys labels head refs)
    {id : Option Uuid} (h : System.step P sys action = some (sys', .lost index id)) : Behind sys' index := by
  rcases step_cases h with ⟨-, journal, -, -, hlabel⟩ | ⟨-, -, hlabel, -⟩ | ⟨i, journal, hold, hrest⟩
  · cases hlabel
  · cases hlabel
  · rcases hrest with ⟨call, id, hcall⟩ | ⟨operation, hpending, hop⟩ | ⟨-, hlabel⟩
    · unfold System.startCall at hcall
      split_ifs at hcall
      split at hcall <;> cases hcall
    · rcases hop with ⟨nonce, hput⟩ | ⟨nonce, hcommit⟩ | ⟨-, hlabel⟩
      · unfold System.putPage at hput
        split at hput <;> cases hput
      · obtain ⟨-, ⟨store, -, -, hlabel⟩ | ⟨hne, rfl, hlabel⟩ | ⟨-, hlabel⟩⟩ := commitHead_cases hcommit
        · cases hlabel
        · cases hlabel
          have hknown := (hi.journals index journal hold).known
          refine ⟨{ journal with pending := none }, ?_, ?_⟩
          · exact List.getElem?_set_self (List.getElem?_eq_some_iff.mp hold).1
          · simp only [System.settle]
            omega
        · cases hlabel
      · cases hlabel
    · cases hlabel

end Steps

end Cantrip.Recovery
