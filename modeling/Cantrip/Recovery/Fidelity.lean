import Cantrip.Recovery.Linear

/-!
# What the journal promises its callers

The three promises of the journal in one statement, for any number of instances and any interleaving: the
durable head leads to the acknowledged events, an instance that lost never commits again, and the pages of
an operation that was not committed are never read. A small platform shows two instances racing.
-/

namespace Cantrip.Recovery

open Lib Nbt List

/-- After every run, an instance opened now reads exactly the events acknowledged since the last baseline or
clear that was committed; an instance whose compare-and-swap lost commits nothing afterwards; and no
identity of an operation that ended without a commit is reachable from the durable head. -/
theorem journal_linear {ε : Type} {P : Platform ε} (hP : P.Lawful) {actions : List (Action ε)} {sys : System ε}
    {labels : List (Label ε)} (h : System.run P actions = some (sys, labels)) :
    (∃ journal, openJournal P sys.store = .ok journal ∧
      events P sys.store journal.head = .ok (acknowledged labels) ∧
      ∀ head, journal.head = some head → ∃ refs, references P sys.store head.events head.tail = .ok refs ∧
        ∀ id ∈ abandoned labels, id ≠ head.baseline.id ∧ ∀ ref ∈ refs, ref.id ≠ id) ∧
    ∀ before index id after, labels = before ++ .lost index id :: after → ∀ kind, Label.committed index kind ∉ after := by
  constructor
  · obtain ⟨head, refs, hi⟩ := invariant_run hP h
    refine ⟨{ head := head, revision := sys.store.revision }, openJournal_durable hP hi.durable, ?_, ?_⟩
    · match head with
      | none =>
        obtain ⟨-, htold⟩ := hi.chain
        rw [htold]
        rfl
      | some value => exact events_chain hP hi.chain.1 hi.chain.2
    · rintro value rfl
      obtain ⟨hchain, hcount⟩ := hi.chain
      refine ⟨refs, by rw [hcount]; exact references_chain hP hchain, fun id hdead => ⟨?_, fun ref href => ?_⟩⟩
      · rintro rfl
        exact (hi.shown value.baseline.id (by simp [visible])).2 hdead
      · rintro rfl
        exact (hi.shown ref.id (mem_append_right _ (List.mem_map_of_mem href))).2 hdead
  · rintro before index id after rfl kind
    obtain ⟨as₁, a, as₂, m, m', hrun₁, hstep, hrun₂⟩ := runSteps_split actions _ _ _ _ _ h
    have hbefore : System.run P as₁ = some (m, before) := hrun₁
    obtain ⟨head, refs, hi⟩ := invariant_run hP hbefore
    exact behind_run (behind_of_lost hi hstep) hrun₂ kind

section Sample

/-- Numbers as runs of ones, each closed by a zero. -/
def unaryBytes (ns : List Nat) : Bytes := ns.flatMap fun n => List.replicate n 1 ++ [0]

def readUnary : Nat → Bytes → List Nat
  | _, [] => []
  | count, b :: bs => if b = 0 then count :: readUnary 0 bs else readUnary (count + 1) bs

theorem readUnary_ones (n : Nat) (rest : Bytes) :
    ∀ count, readUnary count (replicate n 1 ++ 0 :: rest) = (count + n) :: readUnary 0 rest := by
  induction n with
  | zero =>
    intro count
    rfl
  | succ n ih =>
    intro count
    rw [replicate_succ, cons_append, readUnary, if_neg (by decide), ih]
    congr 1
    omega

theorem readUnary_unaryBytes (ns : List Nat) : readUnary 0 (unaryBytes ns) = ns := by
  induction ns with
  | nil => rfl
  | cons n ns ih =>
    rw [unaryBytes, flatMap_cons, append_assoc, singleton_append, readUnary_ones, Nat.zero_add]
    exact congrArg (n :: ·) ih

def refNats (ref : BlobReference) : List Nat := [ref.id.toNat, ref.size, ref.pages, ref.sha256.toNat]

def tailNats : Option BlobReference → List Nat
  | none => [0, 0, 0, 0, 0]
  | some ref => 1 :: refNats ref

def parseTail (present id size pages sha256 : Nat) : Option BlobReference :=
  if present = 0 then none else some ⟨BitVec.ofNat 128 id, size, pages, BitVec.ofNat 256 sha256⟩

def formatNats (format : NbtFormat) : List Nat :=
  [match format.endian with | .big => 0 | .little => 1 | .littleVarint => 2,
   if format.namedRoot then 1 else 0,
   match format.strings with | .mutf8 => 0 | .utf8 => 1,
   if format.bedrockLevel then 1 else 0,
   match format.compression with | .none => 0 | .gzip => 1 | .zlib => 2]

def parseFormat (endian named strings bedrock compression : Nat) : NbtFormat :=
  { endian := if endian = 0 then .big else if endian = 1 then .little else .littleVarint
    namedRoot := decide (named = 1)
    strings := if strings = 0 then .mutf8 else .utf8
    bedrockLevel := decide (bedrock = 1)
    compression := if compression = 0 then .none else if compression = 1 then .gzip else .zlib }

def headNats (head : Head) : List Nat :=
  head.version :: head.events :: formatNats head.format ++ refNats head.baseline ++ tailNats head.tail
    ++ head.baselineVersion.toList.map Char.toNat

def parseHeadNats : List Nat → Option Head
  | version :: events :: e :: n :: s :: b :: c :: id :: size :: pages :: sha :: p :: i :: z :: g :: h :: name =>
    some ⟨version, parseFormat e n s b c, String.ofList (name.map Char.ofNat),
      ⟨BitVec.ofNat 128 id, size, pages, BitVec.ofNat 256 sha⟩, parseTail p i z g h, events⟩
  | _ => none

def samplePlatform : Platform Nat where
  encrypt _ _ bytes := List.replicate 29 0 ++ bytes
  decrypt _ bytes := some (bytes.drop 29)
  sha256 _ := 0
  headText head := unaryBytes (headNats head)
  parseHead bytes := parseHeadNats (readUnary 0 bytes)
  entryText value := some (unaryBytes (value.version :: value.sequence :: value.event :: tailNats value.previous))
  parseEntry bytes :=
    match readUnary 0 bytes with
    | [version, sequence, event, p, i, z, g, h] => some ⟨version, sequence, parseTail p i z g h, event⟩
    | _ => none

theorem parseTail_tailNats (tail : Option BlobReference) :
    ∃ p i z g h, tailNats tail = [p, i, z, g, h] ∧ parseTail p i z g h = tail := by
  match tail with
  | none => exact ⟨0, 0, 0, 0, 0, rfl, rfl⟩
  | some ref => exact ⟨1, _, _, _, _, rfl, by simp [parseTail]⟩

theorem parseFormat_formatNats (format : NbtFormat) :
    ∃ e n s b c, formatNats format = [e, n, s, b, c] ∧ parseFormat e n s b c = format := by
  obtain ⟨⟨endian, named, strings, bedrock⟩, compression⟩ := format
  refine ⟨_, _, _, _, _, rfl, ?_⟩
  cases endian <;> cases named <;> cases strings <;> cases bedrock <;> cases compression <;> rfl

theorem samplePlatform_lawful : samplePlatform.Lawful where
  decrypt_encrypt key nonce bytes := by simp [samplePlatform]
  encrypt_length key nonce bytes := by
    simp [samplePlatform]
  parse_head head := by
    obtain ⟨p, i, z, g, h, htail, hparse⟩ := parseTail_tailNats head.tail
    obtain ⟨e, n, s, b, c, hformat, hformat'⟩ := parseFormat_formatNats head.format
    have hchars : head.baselineVersion.toList.map (Char.ofNat ∘ Char.toNat) = head.baselineVersion.toList := by
      conv_rhs => rw [← map_id head.baselineVersion.toList]
      exact map_congr_left fun c _ => Char.ofNat_toNat c
    simp [samplePlatform, readUnary_unaryBytes, headNats, htail, hformat, refNats, parseHeadNats, hparse, hformat', hchars]
  parse_entry value bytes h := by
    cases h
    obtain ⟨p, i, z, g, h, htail, hparse⟩ := parseTail_tailNats value.previous
    simp [samplePlatform, readUnary_unaryBytes, htail, hparse]

def sampleFormat : NbtFormat := ⟨⟨.big, true, .mutf8, false⟩, .none⟩

/-- Two instances open; the first one prepares and appends while the second loses its own `prepare`; the
first prepares again. -/
def sampleActions : List (Action Nat) :=
  [.open, .open, .call 0 (.prepare sampleFormat "v" [[1]]) 1, .call 1 (.prepare sampleFormat "v" [[2]]) 2, .put 0 0,
    .put 1 0, .commit 0 0, .commit 1 0, .call 0 (.append 7) 3, .put 0 0, .commit 0 0,
    .call 0 (.prepare sampleFormat "v" [[1]]) 4]

def sampleLabels : List (Label Nat) :=
  [.silent, .silent, .silent, .silent, .silent, .silent, .committed 0 .baseline, .lost 1 (some 2), .silent, .silent,
    .committed 0 (.append 7), .kept 0]

theorem sample_labels : (System.run samplePlatform sampleActions).map Prod.snd = some sampleLabels := by
  decide +kernel

theorem journal_linear_race :
    ∃ sys, System.run samplePlatform sampleActions = some (sys, sampleLabels) ∧
      (∃ journal, openJournal samplePlatform sys.store = .ok journal ∧
        events samplePlatform sys.store journal.head = .ok [7] ∧
        ∀ head, journal.head = some head → ∃ refs, references samplePlatform sys.store head.events head.tail = .ok refs ∧
          ∀ id ∈ [(2 : Uuid)], id ≠ head.baseline.id ∧ ∀ ref ∈ refs, ref.id ≠ id) ∧
      ∀ before index id after, sampleLabels = before ++ .lost index id :: after →
        ∀ kind, Label.committed index kind ∉ after := by
  obtain ⟨⟨sys, labels⟩, hrun, hlabels⟩ := Option.map_eq_some_iff.mp sample_labels
  simp only at hlabels
  subst hlabels
  exact ⟨sys, hrun, journal_linear samplePlatform_lawful hrun⟩

/-- The events acknowledged since the last call of `prepare`, `replace` or `clear` that returned. -/
def acknowledgedSinceReturned : List (Label Nat) → List Nat :=
  List.foldl (fun told label =>
    match label with
    | .committed _ (.append event) => told ++ [event]
    | .committed _ .baseline | .committed _ .clear | .kept _ => []
    | _ => told) []

/-- A `prepare` that finds its baseline returns and keeps the events. -/
theorem prepare_keeps_events :
    ∃ sys labels journal, System.run samplePlatform sampleActions = some (sys, labels) ∧
      openJournal samplePlatform sys.store = .ok journal ∧
      events samplePlatform sys.store journal.head = .ok [7] ∧ acknowledgedSinceReturned labels = [] := by
  obtain ⟨⟨sys, labels⟩, hrun, hlabels⟩ := Option.map_eq_some_iff.mp sample_labels
  simp only at hlabels
  subst hlabels
  obtain ⟨head, refs, hi⟩ := invariant_run samplePlatform_lawful hrun
  have hopen := openJournal_durable samplePlatform_lawful hi.durable
  refine ⟨sys, _, _, hrun, hopen, ?_, rfl⟩
  match head with
  | none => exact absurd hi.chain.2 (by decide)
  | some value => exact events_chain samplePlatform_lawful hi.chain.1 hi.chain.2

end Sample

end Cantrip.Recovery
