import Cantrip.Recovery.Journal

/-!
# The chain behind a head

`Written` says that the pages of a reference hold a byte string and `Chain` that a tail reference leads
through written entries to the origin. Reading a chain gives its events (`events_chain`), and it depends
only on the pages of its own identities (`Chain.congr`).
-/

namespace Cantrip.Recovery

open Lib Nbt List Function

variable {ε : Type}

/-- The first `count` pages of `parts` stand sealed under the identity `id`. -/
def PagesAt (P : Platform ε) (pages : Uuid → Nat → Option Bytes) (id : Uuid) (parts : List Bytes) (count : Nat) : Prop :=
  ∀ i (hi : i < parts.length), i < count → ∃ nonce, pages id i = some (P.encrypt (.page id i) nonce parts[i])

/-- A reference of `parts`, as `writeBytes` makes it. -/
structure RefersTo (P : Platform ε) (ref : BlobReference) (parts : List Bytes) : Prop where
  size : ref.size = parts.flatten.length
  pages : ref.pages = parts.length
  hash : ref.sha256 = P.sha256 parts.flatten
  chunked : Chunked NBT_PAGE_BYTES parts

/-- The pages of `ref` hold `bytes`. -/
def Written (P : Platform ε) (pages : Uuid → Nat → Option Bytes) (ref : BlobReference) (bytes : Bytes) : Prop :=
  ∃ parts : List Bytes, parts.flatten = bytes ∧ RefersTo P ref parts ∧ PagesAt P pages ref.id parts parts.length

/-- `tail` leads through the references `refs`, newest first, to the origin; they hold `told`. -/
inductive Chain (P : Platform ε) (pages : Uuid → Nat → Option Bytes) :
    Option BlobReference → List BlobReference → List ε → Prop
  | origin : Chain P pages none [] []
  | link {previous : Option BlobReference} {refs : List BlobReference} {told : List ε} {ref : BlobReference}
      {bytes : Bytes} {event : ε} (rest : Chain P pages previous refs told) (written : Written P pages ref bytes)
      (text : P.entryText ⟨1, told.length + 1, previous, event⟩ = some bytes) (bounded : bytes.length ≤ 512 * 1024)
      (counted : told.length + 1 ≤ maxSafeInteger) : Chain P pages (some ref) (ref :: refs) (told ++ [event])

theorem RefersTo.reference_ok {P : Platform ε} {ref : BlobReference} {parts : List Bytes} (h : RefersTo P ref parts)
    (hsafe : parts.flatten.length ≤ maxSafeInteger) : reference ref = .ok () := by
  obtain ⟨hcount, -⟩ := h.chunked.sizes (by decide)
  rw [reference, if_neg]
  rw [h.size, h.pages]
  omega

theorem Chain.reference_ok {P : Platform ε} {pages : Uuid → Nat → Option Bytes} {ref : BlobReference}
    {refs : List BlobReference} {told : List ε} (h : Chain P pages (some ref) refs told) : reference ref = .ok () := by
  cases h with
  | link rest written text bounded counted =>
    obtain ⟨parts, rfl, hrefers, -⟩ := written
    exact hrefers.reference_ok (bounded.trans (by decide))

section Reading

variable {P : Platform ε} {store : NbtRecoveryStore}

variable {ref : BlobReference} {refs : List BlobReference} {told : List ε}

theorem page_written (hP : P.Lawful) {parts : List Bytes} (href : RefersTo P ref parts)
    (hpages : PagesAt P store.pages ref.id parts parts.length) (i : Nat) (hi : i < parts.length) :
    page P store ref i = .ok parts[i] := by
  obtain ⟨-, hsizes⟩ := href.chunked.sizes (by decide)
  obtain ⟨nonce, hget⟩ := hpages i hi hi
  have hlen := hsizes i hi
  rw [page, hget]
  simp only [hP.decrypt_encrypt]
  rw [if_neg (by rw [hP.encrypt_length]; omega), if_neg (by rw [href.size, hlen]; simp)]

theorem blobPages_written (hP : P.Lawful) {parts : List Bytes} (href : RefersTo P ref parts)
    (hpages : PagesAt P store.pages ref.id parts parts.length) (count : Nat) :
    ∀ i, i + count = parts.length → blobPages P store ref i count = .ok (parts.drop i).flatten := by
  induction count with
  | zero =>
    intro i hi
    rw [drop_eq_nil_of_le (by omega)]
    rfl
  | succ count ih =>
    intro i hi
    rw [blobPages, page_written hP href hpages i (by omega), ih (i + 1) (by omega),
      drop_eq_getElem_cons (show i < parts.length by omega)]
    rfl

theorem entry_written (hP : P.Lawful) {bytes : Bytes} {value : Entry ε}
    (hwritten : Written P store.pages ref bytes) (htext : P.entryText value = some bytes)
    (hbounded : bytes.length ≤ 512 * 1024) (hversion : value.version = 1) (hpos : 1 ≤ value.sequence)
    (hsafe : value.sequence ≤ maxSafeInteger) (hprevious : ∀ previous, value.previous = some previous →
      reference previous = .ok ()) : entry P store ref = .ok value := by
  obtain ⟨parts, rfl, href, hpages⟩ := hwritten
  have hread : blobPages P store ref 0 ref.pages = .ok parts.flatten := by
    rw [href.pages, blobPages_written hP href hpages parts.length 0 (by omega), drop_zero]
  rw [entry, href.reference_ok (hbounded.trans (by decide))]
  simp only [bind, Except.bind]
  rw [if_neg (by rw [href.size]; omega), hread]
  simp only [hP.parse_entry value _ htext]
  rw [if_neg (by rw [href.hash]; simp), if_neg (by omega)]
  cases hprev : value.previous with
  | none => rfl
  | some previous =>
    simp only [hprevious previous hprev]

theorem entry_chain (hP : P.Lawful) {previous : Option BlobReference}
    {event : ε} {bytes : Bytes} (rest : Chain P store.pages previous refs told) (hwritten : Written P store.pages ref bytes)
    (htext : P.entryText ⟨1, told.length + 1, previous, event⟩ = some bytes) (hbounded : bytes.length ≤ 512 * 1024)
    (hcounted : told.length + 1 ≤ maxSafeInteger) :
    entry P store ref = .ok ⟨1, told.length + 1, previous, event⟩ := by
  refine entry_written hP hwritten htext hbounded rfl (Nat.succ_le_succ (Nat.zero_le _)) hcounted ?_
  rintro ref' hprev
  cases hprev
  exact rest.reference_ok

theorem references_chain (hP : P.Lawful) {tail : Option BlobReference}
    (h : Chain P store.pages tail refs told) : references P store told.length tail = .ok refs := by
  induction h with
  | origin => rfl
  | link rest written text bounded counted ih =>
    rw [length_append, length_singleton, references, entry_chain hP rest written text bounded counted]
    simp only [bind, Except.bind, ne_eq, not_true_eq_false, if_false, ih]

theorem entries_chain (hP : P.Lawful) {tail : Option BlobReference} (h : Chain P store.pages tail refs told) :
    (refs.reverse.mapM fun ref => do
      let value ← entry P store ref
      .ok value.event : Except RecoveryError (List ε)) = .ok told := by
  induction h with
  | origin => rfl
  | link rest written text bounded counted ih =>
    rw [reverse_cons, mapM_append, ih]
    simp only [mapM_cons, mapM_nil, entry_chain hP rest written text bounded counted]
    rfl

theorem events_chain (hP : P.Lawful) {head : Head}
    (h : Chain P store.pages head.tail refs told) (hcount : head.events = told.length) :
    events P store (some head) = .ok told := by
  simp only [events, hcount, references_chain hP h, bind, Except.bind]
  exact entries_chain hP h

end Reading

section Frames

variable {P : Platform ε} {pages pages' : Uuid → Nat → Option Bytes}

variable {id : Uuid}

theorem PagesAt.congr {parts : List Bytes} {count : Nat} (heq : pages' id = pages id)
    (h : PagesAt P pages id parts count) : PagesAt P pages' id parts count := by
  intro i hi hlt
  rw [heq]
  exact h i hi hlt

theorem Chain.congr {tail : Option BlobReference} {refs : List BlobReference} {told : List ε}
    (h : Chain P pages tail refs told) (heq : ∀ ref ∈ refs, pages' ref.id = pages ref.id) :
    Chain P pages' tail refs told := by
  induction h with
  | origin => exact .origin
  | @link previous refs told ref bytes event rest written text bounded counted ih =>
    obtain ⟨parts, hflat, href, hpages⟩ := written
    exact .link (ih fun r hr => heq r (by simp [hr])) ⟨parts, hflat, href, hpages.congr (heq ref (by simp))⟩ text
      bounded counted

theorem put_other (store : NbtRecoveryStore) {other : Uuid} (index : Nat) (bytes : Bytes) (h : other ≠ id) :
    (store.put id index bytes).pages other = store.pages other := by
  simp only [NbtRecoveryStore.put, update_of_ne h]

theorem PagesAt.put {store : NbtRecoveryStore} {parts : List Bytes} {count nonce : Nat}
    (h : PagesAt P store.pages id parts count) (hcount : count < parts.length) :
    PagesAt P (store.put id count (P.encrypt (.page id count) nonce parts[count])).pages id parts (count + 1) := by
  intro i hi hlt
  simp only [NbtRecoveryStore.put, update_self]
  rcases Nat.lt_or_ge i count with hlt' | hge
  · rw [update_of_ne (by omega)]
    exact h i hi hlt'
  · have : i = count := by omega
    subst this
    exact ⟨nonce, update_self ..⟩

end Frames

end Cantrip.Recovery
