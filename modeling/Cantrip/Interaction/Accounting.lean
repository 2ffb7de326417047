import Cantrip.Interaction.Methods
import Mathlib.Algebra.Order.BigOperators.Group.List
import Mathlib.Algebra.Order.Ring.Nat

/-!
# The account of the ownership table

The answers of a run tell which releases were stored and handed out, which tokens were given, which sequence
numbers were accepted, and what each participant holds in the order of acquisition (`acquired`). The table agrees
with all of it after every run (`Sound`): one lemma says what follows when one session is written
(`Sound.update`), and every operation but the opening and the close is such a write.
-/

namespace Cantrip.Interaction

open Lib List Function AList

variable {C R : Type} [DecidableEq C]

/-! ## Bindings and releases -/

theorem entries_perm {κ α : Type} [DecidableEq κ] {map : Map κ α} {key : κ} {value : α} (h : map.lookup key = some value) :
    map.entries.Perm (⟨key, value⟩ :: (map.erase key).entries) := by
  have hmem : (⟨key, value⟩ : Σ _ : κ, α) ∈ map.entries := mem_lookup_iff.mp h
  obtain ⟨value', before, after, -, hentries, herase⟩ := exists_of_kerase (mem_keys_of_mem hmem)
  have hsame : value' = value := by
    have hmem' : (⟨key, value'⟩ : Σ _ : κ, α) ∈ map.entries := by simp [hentries]
    exact Option.some.inj ((mem_lookup_iff.mpr hmem').symm.trans h)
  subst hsame
  rw [show (map.erase key).entries = map.entries.kerase key from rfl, herase, hentries]
  exact perm_middle

theorem ne_of_mem_erase {κ α : Type} [DecidableEq κ] {map : Map κ α} {key : κ} {binding : Σ _ : κ, α}
    (h : binding ∈ (map.erase key).entries) : binding.1 ≠ key := by
  have hkey : binding.1 ∈ map.erase key := mem_keys_of_mem h
  exact (mem_erase.mp hkey).1

def Session.releases (session : Session C R) : List R := session.holds.entries.map fun binding => binding.2.release

def releasesOf (sessions : Map Participant (Session C R)) : List R :=
  sessions.entries.flatMap fun binding => binding.2.releases

omit [DecidableEq C] in
theorem releasesOf_perm {sessions : Map Participant (Session C R)} {owner : Participant} {session : Session C R}
    (h : sessions.lookup owner = some session) :
    (releasesOf sessions).Perm (session.releases ++ releasesOf (sessions.erase owner)) :=
  (entries_perm h).flatMap_right _

omit [DecidableEq C] in
theorem releasesOf_insert (sessions : Map Participant (Session C R)) (owner : Participant) (session : Session C R) :
    releasesOf (sessions.insert owner session) = session.releases ++ releasesOf (sessions.erase owner) := rfl

theorem perm_of_counts {α : Type} {xs ys : List α} (h : ∀ [DecidableEq α] (a : α), xs.count a = ys.count a) : xs.Perm ys := by
  classical
  exact perm_iff_count.mpr h

/-! ## What the answers say -/

structure Entry (C R : Type) where
  operation : Operation C R
  answer : Except OwnershipError (Returned R)

namespace Entry

def stored : Entry C R → List R
  | ⟨.hold _ _ release, .ok _⟩ => [release]
  | ⟨.replaceRelease _ _ release, .ok _⟩ => [release]
  | _ => []

def handedOut : Entry C R → List R
  | ⟨_, .ok (.taken release)⟩ => [release]
  | ⟨_, .ok (.closed releases)⟩ => releases
  | _ => []

def opened : Entry C R → List Participant
  | ⟨_, .ok (.opened owner)⟩ => [owner]
  | _ => []

def accepted (participant : Participant) : Entry C R → List Nat
  | ⟨.acceptSequence owner sequence, .ok _⟩ => if owner = participant then [sequence] else []
  | _ => []

def acquire (participant : Participant) (held : List (C × R)) : Entry C R → List (C × R)
  | ⟨.hold owner control release, .ok _⟩ => if owner = participant then held ++ [(control, release)] else held
  | ⟨.replaceRelease owner control release, .ok _⟩ =>
    if owner = participant then held.map fun hold => if hold.1 = control then (control, release) else hold else held
  | ⟨.release owner control, .ok _⟩ => if owner = participant then held.filter fun hold => hold.1 ≠ control else held
  | ⟨.close owner, .ok _⟩ => if owner = participant then [] else held
  | _ => held

end Entry

/-- The tokens given, in order. -/
def opened (log : List (Entry C R)) : List Participant := log.flatMap Entry.opened

def accepted (log : List (Entry C R)) (participant : Participant) : List Nat := log.flatMap (Entry.accepted participant)

def acquired (log : List (Entry C R)) (participant : Participant) : List (C × R) :=
  log.foldl (Entry.acquire participant) []

def Operation.step (state : Ownership C R × List (Entry C R)) (operation : Operation C R) :
    Ownership C R × List (Entry C R) :=
  match operation.perform state.1 with
  | .ok answer table => (table, state.2 ++ [⟨operation, .ok answer⟩])
  | .error error table => (table, state.2 ++ [⟨operation, .error error⟩])

def Operation.run (table : Ownership C R) (operations : List (Operation C R)) : Ownership C R × List (Entry C R) :=
  operations.foldl Operation.step (table, [])

/-! ## The invariant -/

/-- A session against what the log says of its participant. -/
structure Session.Keeps (maxHeld : Nat) (acquired : List (C × R)) (accepted : List Nat) (session : Session C R) : Prop where
  room : session.holds.entries.length ≤ maxHeld
  ordered : ∃ held : List (Σ _ : C, Hold R), held.Perm session.holds.entries ∧
    held.Pairwise (fun a b => a.2.ordinal < b.2.ordinal) ∧ (∀ b ∈ held, b.2.ordinal ≤ session.ordinal) ∧
    held.map (fun b => (b.1, b.2.release)) = acquired
  last : ∀ n ∈ accepted, ∃ last, session.lastSequence = some last ∧ n ≤ last

structure Ownership.Sound (maxSessions maxHeld : Nat) (table : Ownership C R) (log : List (Entry C R)) : Prop where
  limits : table.maxSessions = maxSessions ∧ table.maxHeld = maxHeld
  room : table.sessions.entries.length ≤ maxSessions
  owners : ∀ domain control owner, table.owners.lookup (domain, control) = some owner ↔
    ∃ session, table.sessions.lookup owner = some session ∧ session.domain = domain ∧ (session.holds.lookup control).isSome
  keeps : ∀ owner session, table.sessions.lookup owner = some session →
    session.Keeps maxHeld (acquired log owner) (accepted log owner) ∧ owner ∈ opened log
  closed : ∀ owner, table.sessions.lookup owner = none → acquired log owner = []
  increasing : ∀ owner, (accepted log owner).Pairwise (· < ·)
  unopened : ∀ owner, owner ∉ opened log → accepted log owner = []
  fresh : ∀ owner ∈ opened log, owner.sequence ≤ table.next
  tokens : (opened log).Nodup
  stored : (log.flatMap Entry.stored).Perm (log.flatMap Entry.handedOut ++ releasesOf table.sessions)

section Append

variable (log : List (Entry C R)) (entry : Entry C R) (participant : Participant)

omit [DecidableEq C] in
@[simp] theorem opened_concat : opened (log ++ [entry]) = opened log ++ entry.opened := by simp [opened]

omit [DecidableEq C] in
@[simp] theorem accepted_concat :
    accepted (log ++ [entry]) participant = accepted log participant ++ entry.accepted participant := by simp [accepted]

@[simp] theorem acquired_concat : acquired (log ++ [entry]) participant = entry.acquire participant (acquired log participant) := by
  simp [acquired]

end Append

namespace Ownership.Sound

variable {maxSessions maxHeld : Nat} {table : Ownership C R} {log : List (Entry C R)}

theorem start (registry maxSessions maxHeld : Nat) :
    (Ownership.new registry maxSessions maxHeld : Ownership C R).Sound maxSessions maxHeld [] where
  limits := ⟨rfl, rfl⟩
  room := Nat.zero_le _
  owners domain control owner := by simp [Ownership.new]
  keeps owner session h := by simp [Ownership.new] at h
  closed _ _ := rfl
  increasing _ := List.Pairwise.nil
  unopened _ _ := rfl
  fresh owner h := by simp [opened] at h
  tokens := nodup_nil
  stored := by simp [releasesOf, Ownership.new]

theorem refused (h : table.Sound maxSessions maxHeld log) (operation : Operation C R) (error : OwnershipError) :
    table.Sound maxSessions maxHeld (log ++ [⟨operation, .error error⟩]) := by
  have hopened : opened (log ++ [⟨operation, .error error⟩]) = opened log := by simp [Entry.opened]
  have haccepted : accepted (log ++ [⟨operation, .error error⟩]) = accepted log := by
    funext participant
    simp [Entry.accepted]
  have hacquired : acquired (log ++ [⟨operation, .error error⟩]) = acquired log := by
    funext participant
    simp [Entry.acquire]
  refine ⟨h.limits, h.room, h.owners, ?_, ?_, ?_, ?_, ?_, ?_, ?_⟩
  · rw [hacquired, haccepted, hopened]
    exact h.keeps
  · rw [hacquired]
    exact h.closed
  · rw [haccepted]
    exact h.increasing
  · rw [hopened, haccepted]
    exact h.unopened
  · rw [hopened]
    exact h.fresh
  · rw [hopened]
    exact h.tokens
  · simpa [Entry.stored, Entry.handedOut] using h.stored

theorem update (h : table.Sound maxSessions maxHeld log) {owner : Participant} {session session' : Session C R}
    {owners : Map (String × C) Participant} {entry : Entry C R} (hsession : table.sessions.lookup owner = some session)
    (howners : ∀ domain control p, owners.lookup (domain, control) = some p ↔
      if p = owner then session'.domain = domain ∧ (session'.holds.lookup control).isSome
      else table.owners.lookup (domain, control) = some p)
    (hkeeps : session'.Keeps maxHeld (acquired (log ++ [entry]) owner) (accepted (log ++ [entry]) owner))
    (hincreasing : (accepted (log ++ [entry]) owner).Pairwise (· < ·))
    (hopened : entry.opened = []) (haccepted : ∀ p ≠ owner, entry.accepted p = [])
    (hacquire : ∀ p ≠ owner, ∀ held, entry.acquire p held = held)
    (hstored : (entry.stored ++ session.releases).Perm (entry.handedOut ++ session'.releases)) :
    { table.putSession owner session' with owners }.Sound maxSessions maxHeld (log ++ [entry]) := by
  have hlookup : ∀ p ≠ owner, (table.putSession owner session').sessions.lookup p = table.sessions.lookup p :=
    fun p hp => lookup_insert_ne hp
  have hself : (table.putSession owner session').sessions.lookup owner = some session' := lookup_insert _
  refine ⟨h.limits, ?_, ?_, ?_, ?_, ?_, ?_, ?_, ?_, ?_⟩
  · have hlength := (entries_perm hsession).length_eq
    have hroom := h.room
    rw [hlength] at hroom
    exact hroom
  · intro domain control p
    refine (howners domain control p).trans ?_
    by_cases hp : p = owner
    · subst hp
      simp [hself]
    · rw [if_neg hp, h.owners]
      exact iff_of_eq (by rw [hlookup p hp])
  · intro p session'' hp
    by_cases hsame : p = owner
    · subst hsame
      obtain rfl := Option.some.inj (hself.symm.trans hp)
      refine ⟨hkeeps, ?_⟩
      rw [opened_concat]
      exact mem_append_left _ (h.keeps p session hsession).2
    · rw [hlookup p hsame] at hp
      obtain ⟨hkept, hmem⟩ := h.keeps p session'' hp
      rw [acquired_concat, hacquire p hsame, accepted_concat, haccepted p hsame, append_nil, opened_concat]
      exact ⟨hkept, mem_append_left _ hmem⟩
  · intro p hp
    by_cases hsame : p = owner
    · subst hsame
      rw [hself] at hp
      cases hp
    · rw [acquired_concat, hacquire p hsame]
      exact h.closed p ((hlookup p hsame).symm.trans hp)
  · intro p
    by_cases hsame : p = owner
    · subst hsame
      exact hincreasing
    · rw [accepted_concat, haccepted p hsame, append_nil]
      exact h.increasing p
  · intro p hp
    rw [opened_concat, hopened, append_nil] at hp
    by_cases hsame : p = owner
    · subst hsame
      exact absurd (h.keeps p session hsession).2 hp
    · rw [accepted_concat, haccepted p hsame, append_nil]
      exact h.unopened p hp
  · rw [opened_concat, hopened, append_nil]
    exact h.fresh
  · rw [opened_concat, hopened, append_nil]
    exact h.tokens
  · refine perm_of_counts fun r => ?_
    have hbefore := h.stored.count_eq r
    have hsplit := (releasesOf_perm hsession).count_eq r
    have hstep := hstored.count_eq r
    simp only [Ownership.putSession, releasesOf_insert, flatMap_append, flatMap_singleton, count_append] at *
    omega

/-! ## The operations -/

variable {control : C} {table' : Ownership C R}

section

variable (h : table.Sound maxSessions maxHeld log)
include h

theorem acceptSequence {owner : Participant} {sequence : Nat}
    (hrun : table.acceptSequence owner sequence = .ok table') :
    table'.Sound maxSessions maxHeld (log ++ [⟨.acceptSequence owner sequence, .ok .done⟩]) := by
  obtain ⟨session, hsession, hrun⟩ := bind_eq_ok.mp hrun
  have hlookup := session_eq_ok.mp hsession
  split at hrun
  · cases hrun
  next hnew =>
  cases hrun
  obtain ⟨hkept, -⟩ := h.keeps owner session hlookup
  -- every number accepted before is below the last one, and the new one is above it
  have hbelow : ∀ n ∈ accepted log owner, n < sequence := by
    intro n hn
    obtain ⟨last, hlast, hle⟩ := hkept.last n hn
    rw [hlast] at hnew
    have hlt : last < sequence := by simpa using hnew
    exact lt_of_le_of_lt hle hlt
  have haccepted : accepted (log ++ [(⟨.acceptSequence owner sequence, .ok .done⟩ : Entry C R)]) owner =
      accepted log owner ++ [sequence] := by simp [Entry.accepted]
  refine @update _ _ _ _ _ _ _ h owner session { session with lastSequence := some sequence } _ _ hlookup ?_ ?_ ?_ rfl ?_ ?_ ?_
  · intro domain control p
    by_cases hp : p = owner
    · subst hp
      rw [if_pos rfl, h.owners, hlookup]
      simp
    · rw [if_neg hp]
  · rw [haccepted, acquired_concat]
    refine ⟨hkept.room, hkept.ordered, fun n hn => ⟨sequence, rfl, ?_⟩⟩
    rcases mem_append.mp hn with hn | hn
    · exact (hbelow n hn).le
    · exact (mem_singleton.mp hn).le
  · rw [haccepted, pairwise_append]
    refine ⟨h.increasing owner, pairwise_singleton _ _, fun n hn m hm => ?_⟩
    rw [mem_singleton.mp hm]
    exact hbelow n hn
  · intro p hp
    exact if_neg (Ne.symm hp)
  · exact fun _ _ _ => rfl
  · exact List.Perm.refl _

theorem hold {owner : Participant} {release : R}
    (hrun : table.hold owner control release = .ok table') :
    table'.Sound maxSessions maxHeld (log ++ [⟨.hold owner control release, .ok .done⟩]) := by
  obtain ⟨session, hsession, hrun⟩ := bind_eq_ok.mp hrun
  have hlookup := session_eq_ok.mp hsession
  split at hrun
  · cases hrun
  next hfree =>
  split at hrun
  · cases hrun
  next hroom =>
  split at hrun
  · cases hrun
  next hunowned =>
  split at hrun
  · cases hrun
  cases hrun
  obtain ⟨hkept, -⟩ := h.keeps owner session hlookup
  have hnone : session.holds.lookup control = none := by simpa using hfree
  have hentries : (session.holds.insert control { release, ordinal := session.ordinal + 1 }).entries =
      ⟨control, { release, ordinal := session.ordinal + 1 }⟩ :: session.holds.entries :=
    entries_insert_of_notMem (lookup_eq_none.mp hnone)
  refine h.update hlookup ?_ ?_ ?_ rfl (fun _ _ => rfl) ?_ ?_
  · intro domain control' p
    by_cases hkey : (domain, control') = (session.domain, control)
    · obtain ⟨rfl, rfl⟩ := Prod.mk.inj hkey
      rw [lookup_insert, Option.some.injEq]
      by_cases hp : p = owner
      · simp [hp]
      · rw [if_neg hp]
        have hnobody : table.owners.lookup (session.domain, control') = none := by simpa using hunowned
        simp [hnobody, Ne.symm hp]
    · rw [lookup_insert_ne hkey]
      by_cases hp : p = owner
      · subst hp
        rw [if_pos rfl, h.owners]
        simp only [hlookup, Option.some.injEq, exists_eq_left']
        refine and_congr_right fun hdomain => ?_
        rw [lookup_insert_ne fun hcontrol => hkey (by rw [hdomain, hcontrol])]
      · rw [if_neg hp]
  · obtain ⟨held, hperm, hsorted, hbound, hmap⟩ := hkept.ordered
    refine ⟨?_, ⟨held ++ [⟨control, { release, ordinal := session.ordinal + 1 }⟩], ?_, ?_, ?_, ?_⟩, ?_⟩
    · rw [hentries, length_cons]
      rw [h.limits.2] at hroom
      omega
    · rw [hentries]
      exact (perm_append_singleton _ _).trans (hperm.cons _)
    · rw [pairwise_append]
      refine ⟨hsorted, pairwise_singleton _ _, fun a ha b hb => ?_⟩
      rw [mem_singleton.mp hb]
      exact Nat.lt_succ_of_le (hbound a ha)
    · intro b hb
      rcases mem_append.mp hb with hb | hb
      · exact (hbound b hb).trans (Nat.le_succ _)
      · rw [mem_singleton.mp hb]
    · rw [map_append, hmap, acquired_concat]
      simp [Entry.acquire]
    · simpa [Entry.accepted] using hkept.last
  · simpa [Entry.accepted] using h.increasing owner
  · exact fun p hp held => if_neg (Ne.symm hp)
  · simp only [Session.releases, hentries, map_cons, Entry.stored, Entry.handedOut, nil_append]
    exact List.Perm.refl _

theorem replaceRelease {owner : Participant} {release old : R}
    (hrun : table.replaceRelease owner control release = .ok (table', old)) :
    table'.Sound maxSessions maxHeld (log ++ [⟨.replaceRelease owner control release, .ok (.taken old)⟩]) := by
  obtain ⟨session, hsession, hrun⟩ := bind_eq_ok.mp hrun
  have hlookup := session_eq_ok.mp hsession
  split at hrun
  next hold hhold =>
    cases hrun
    obtain ⟨hkept, -⟩ := h.keeps owner session hlookup
    have hperm := entries_perm hhold
    have hentries : (session.holds.insert control { hold with release }).entries =
        ⟨control, { hold with release }⟩ :: (session.holds.erase control).entries := rfl
    refine h.update hlookup ?_ ?_ ?_ rfl (fun _ _ => rfl) ?_ ?_
    · intro domain control' p
      by_cases hp : p = owner
      · subst hp
        rw [if_pos rfl, h.owners]
        simp only [hlookup, Option.some.injEq, exists_eq_left']
        refine and_congr_right fun _ => ?_
        by_cases hcontrol : control' = control
        · rw [hcontrol, lookup_insert, hhold]
          simp
        · rw [lookup_insert_ne hcontrol]
      · rw [if_neg hp]
    · obtain ⟨held, hsame, hsorted, hbound, hmap⟩ := hkept.ordered
      let swap (b : Σ _ : C, Hold R) : Σ _ : C, Hold R := if b.1 = control then ⟨b.1, { b.2 with release }⟩ else b
      have hordinal : ∀ b, (swap b).2.ordinal = b.2.ordinal := by
        intro b
        simp only [swap]
        split <;> rfl
      refine ⟨?_, ⟨held.map swap, ?_, ?_, ?_, ?_⟩, ?_⟩
      · have hroom := hkept.room
        rw [hperm.length_eq] at hroom
        exact hroom
      · have hrest : (session.holds.erase control).entries.map swap = (session.holds.erase control).entries := by
          refine (map_congr_left fun b hb => ?_).trans (List.map_id _)
          simp only [swap, if_neg (ne_of_mem_erase hb), id]
        refine ((hsame.trans hperm).map swap).trans ?_
        rw [hentries, map_cons, hrest]
        simp only [swap, if_true]
        exact List.Perm.refl _
      · rw [pairwise_map]
        exact hsorted.imp fun hlt => by rwa [hordinal, hordinal]
      · intro b hb
        obtain ⟨b₀, hb₀, rfl⟩ := List.mem_map.mp hb
        rw [hordinal]
        exact hbound b₀ hb₀
      · rw [acquired_concat, ← hmap]
        simp only [Entry.acquire, if_true, List.map_map]
        refine map_congr_left fun b _ => ?_
        simp only [comp_apply, swap]
        split
        · next hcontrol => simp [hcontrol]
        · rfl
      · simpa [Entry.accepted] using hkept.last
    · simpa [Entry.accepted] using h.increasing owner
    · exact fun p hp held => if_neg (Ne.symm hp)
    · simp only [Session.releases, hentries, map_cons, Entry.stored, Entry.handedOut]
      refine ((hperm.map _).append_left _).trans ?_
      exact List.Perm.swap _ _ _
  next => cases hrun

theorem release {owner : Participant} {taken : R}
    (hrun : table.release owner control = .ok (table', taken)) :
    table'.Sound maxSessions maxHeld (log ++ [⟨.release owner control, .ok (.taken taken)⟩]) := by
  obtain ⟨session, hsession, hrun⟩ := bind_eq_ok.mp hrun
  have hlookup := session_eq_ok.mp hsession
  split at hrun
  next hold hhold =>
    cases hrun
    obtain ⟨hkept, -⟩ := h.keeps owner session hlookup
    have hperm := entries_perm hhold
    refine h.update hlookup ?_ ?_ ?_ rfl (fun _ _ => rfl) ?_ ?_
    · intro domain control' p
      by_cases hkey : (domain, control') = (session.domain, control)
      · obtain ⟨rfl, rfl⟩ := Prod.mk.inj hkey
        rw [lookup_erase]
        by_cases hp : p = owner
        · simp [hp]
        · -- the control was owned by the caller, so by nobody else
          have howned : table.owners.lookup (session.domain, control') = some owner :=
            (h.owners _ _ _).mpr ⟨session, hlookup, rfl, by simp [hhold]⟩
          simp [hp, howned, Ne.symm hp]
      · rw [lookup_erase_ne hkey]
        by_cases hp : p = owner
        · subst hp
          rw [if_pos rfl]
          refine (h.owners domain control' p).trans ?_
          simp only [hlookup, Option.some.injEq, exists_eq_left']
          refine and_congr_right fun hdomain => ?_
          rw [lookup_erase_ne fun hcontrol => hkey (by rw [hdomain, hcontrol])]
        · exact iff_of_eq (if_neg hp).symm
    · obtain ⟨held, hsame, hsorted, hbound, hmap⟩ := hkept.ordered
      refine ⟨?_, ⟨held.filter fun b => b.1 ≠ control, ?_, hsorted.filter _, ?_, ?_⟩, ?_⟩
      · have hroom := hkept.room
        rw [hperm.length_eq] at hroom
        exact Nat.le_of_succ_le hroom
      · refine ((hsame.trans hperm).filter _).trans ?_
        have hrest : (session.holds.erase control).entries.filter (fun b => b.1 ≠ control) =
            (session.holds.erase control).entries :=
          filter_eq_self.mpr fun b hb => by simpa using ne_of_mem_erase hb
        rw [filter_cons_of_neg (by simp), hrest]
      · exact fun b hb => hbound b (mem_of_mem_filter hb)
      · rw [acquired_concat, ← hmap]
        simp only [Entry.acquire, if_true, List.filter_map]
        rfl
      · simpa [Entry.accepted] using hkept.last
    · simpa [Entry.accepted] using h.increasing owner
    · exact fun p hp held => if_neg (Ne.symm hp)
    · exact hperm.map _
  next => cases hrun

end

omit [DecidableEq C] in
theorem descending_eq {held entries : List (Σ _ : C, Hold R)} (hsame : held.Perm entries)
    (hsorted : held.Pairwise fun a b => a.2.ordinal < b.2.ordinal) :
    (entries.insertionSort fun a b => b.2.ordinal ≤ a.2.ordinal) = held.reverse := by
  have : Std.Total fun a b : Σ _ : C, Hold R => b.2.ordinal ≤ a.2.ordinal := ⟨fun a b => le_total _ _⟩
  have : IsTrans (Σ _ : C, Hold R) fun a b => b.2.ordinal ≤ a.2.ordinal := ⟨fun a b c hab hbc => hbc.trans hab⟩
  have hnodup : (held.map fun b => b.2.ordinal).Nodup := (pairwise_map.mpr hsorted).imp ne_of_lt
  have hperm := perm_insertionSort (fun a b : Σ _ : C, Hold R => b.2.ordinal ≤ a.2.ordinal) entries
  refine List.Perm.eq_of_pairwise (fun a b ha hb hba hab => ?_) (pairwise_insertionSort _ _)
    (pairwise_reverse.mpr (hsorted.imp le_of_lt)) (hperm.trans (hsame.symm.trans held.reverse_perm.symm))
  have ha' : a ∈ held := hsame.mem_iff.mpr (hperm.mem_iff.mp ha)
  exact inj_on_of_nodup_map hnodup ha' (mem_reverse.mp hb) (le_antisymm hab hba)

theorem closed_releases (h : table.Sound maxSessions maxHeld log) (owner : Participant) :
    (table.close owner).2 = (acquired log owner).reverse := by
  unfold close
  cases hlookup : table.sessions.lookup owner with
  | none => rw [h.closed owner hlookup, reverse_nil]
  | some session =>
    obtain ⟨hkept, -⟩ := h.keeps owner session hlookup
    obtain ⟨held, hsame, hsorted, -, hmap⟩ := hkept.ordered
    simp only
    rw [descending_eq hsame hsorted, ← hmap, map_reverse]

theorem lookup_foldl_erase (domain domain' : String) (control : C) (controls : List C)
    (owners : Map (String × C) Participant) :
    (controls.foldl (fun owners control => owners.erase (domain, control)) owners).lookup (domain', control) =
      if domain' = domain ∧ control ∈ controls then none else owners.lookup (domain', control) := by
  induction controls generalizing owners with
  | nil => simp
  | cons first controls ih =>
    rw [foldl_cons, ih]
    by_cases hsame : (domain', control) = (domain, first)
    · obtain ⟨rfl, rfl⟩ := Prod.mk.inj hsame
      simp
    · rw [lookup_erase_ne hsame]
      have hne : domain' = domain → control ≠ first := fun hdomain hcontrol => hsame (by rw [hdomain, hcontrol])
      refine if_congr (and_congr_right fun hdomain => ?_) rfl rfl
      simp [hne hdomain]

theorem close (h : table.Sound maxSessions maxHeld log) (owner : Participant) :
    (table.close owner).1.Sound maxSessions maxHeld
      (log ++ [⟨.close owner, .ok (.closed ((table.close owner).2.map Prod.snd))⟩]) := by
  have hreleases := h.closed_releases owner
  unfold Ownership.close at hreleases ⊢
  have hopened : ∀ releases : List R, opened (log ++ [⟨.close owner, .ok (.closed releases)⟩]) = opened log := by
    intro releases
    simp [Entry.opened]
  have haccepted : ∀ releases : List R, accepted (log ++ [⟨.close owner, .ok (.closed releases)⟩]) = accepted log := by
    intro releases
    funext p
    simp [Entry.accepted]
  have hacquired : ∀ (releases : List R) p, acquired (log ++ [⟨.close owner, .ok (.closed releases)⟩]) p =
      if owner = p then [] else acquired log p := by
    intro releases p
    simp [Entry.acquire]
  cases hlookup : table.sessions.lookup owner with
  | none =>
    have hsame : ∀ p, (if owner = p then [] else acquired log p) = acquired log p := by
      intro p
      by_cases hp : owner = p
      · rw [if_pos hp, ← hp, h.closed owner hlookup]
      · rw [if_neg hp]
    simp only
    refine ⟨h.limits, h.room, h.owners, ?_, ?_, ?_, ?_, ?_, ?_, ?_⟩
    · intro p session hp
      rw [hacquired, hsame, haccepted, hopened]
      exact h.keeps p session hp
    · intro p hp
      rw [hacquired, hsame]
      exact h.closed p hp
    · rw [haccepted]
      exact h.increasing
    · rw [haccepted, hopened]
      exact h.unopened
    · rw [hopened]
      exact h.fresh
    · rw [hopened]
      exact h.tokens
    · simpa [Entry.stored, Entry.handedOut] using h.stored
  | some session =>
    simp only [hlookup] at hreleases ⊢
    have hother : ∀ p ≠ owner, (table.sessions.erase owner).lookup p = table.sessions.lookup p :=
      fun p hp => lookup_erase_ne hp
    refine ⟨h.limits, ?_, ?_, ?_, ?_, ?_, ?_, ?_, ?_, ?_⟩
    · have hroom := h.room
      rw [(entries_perm hlookup).length_eq] at hroom
      exact Nat.le_of_succ_le hroom
    · intro domain control p
      rw [lookup_foldl_erase]
      by_cases hgone : domain = session.domain ∧ control ∈ session.holds.keys
      · -- the participant owned it, so nobody does now
        rw [if_pos hgone]
        have howned : table.owners.lookup (domain, control) = some owner :=
          (h.owners _ _ _).mpr ⟨session, hlookup, hgone.1.symm, lookup_isSome.mpr hgone.2⟩
        refine iff_of_false (by simp) ?_
        rintro ⟨session', hp, hdomain, hheld⟩
        by_cases hsame : p = owner
        · rw [hsame, lookup_erase] at hp
          cases hp
        · rw [hother p hsame] at hp
          have hagain := (h.owners domain control p).mpr ⟨session', hp, hdomain, hheld⟩
          exact hsame (Option.some.inj (hagain.symm.trans howned))
      · rw [if_neg hgone, h.owners]
        by_cases hsame : p = owner
        · subst hsame
          rw [lookup_erase]
          refine iff_of_false ?_ (by simp)
          rintro ⟨session', hp, hdomain, hheld⟩
          obtain rfl := Option.some.inj (hlookup.symm.trans hp)
          exact hgone ⟨hdomain.symm, lookup_isSome.mp hheld⟩
        · rw [hother p hsame]
    · intro p session' hp
      by_cases hsame : p = owner
      · rw [hsame, lookup_erase] at hp
        cases hp
      · rw [hother p hsame] at hp
        rw [hacquired, if_neg (Ne.symm hsame), haccepted, hopened]
        exact h.keeps p session' hp
    · intro p hp
      rw [hacquired]
      by_cases hsame : owner = p
      · rw [if_pos hsame]
      · rw [if_neg hsame]
        exact h.closed p ((hother p (Ne.symm hsame)).symm.trans hp)
    · rw [haccepted]
      exact h.increasing
    · rw [haccepted, hopened]
      exact h.unopened
    · rw [hopened]
      exact h.fresh
    · rw [hopened]
      exact h.tokens
    · refine perm_of_counts fun r => ?_
      have hbefore := h.stored.count_eq r
      have hsplit := (releasesOf_perm hlookup).count_eq r
      have hsorted := ((perm_insertionSort (fun a b : Σ _ : C, Hold R => b.2.ordinal ≤ a.2.ordinal)
        session.holds.entries).map fun b => b.2.release).count_eq r
      simp only [flatMap_append, flatMap_singleton, count_append, Entry.stored, Entry.handedOut,
        count_nil, List.map_map, comp_def, Session.releases] at *
      omega

theorem open_ (h : table.Sound maxSessions maxHeld log) {target : TargetIdentity} {domain : String}
    {owner : Participant} (hrun : table.open_ target domain = .ok (table', owner)) :
    table'.Sound maxSessions maxHeld (log ++ [⟨.open_ target domain, .ok (.opened owner)⟩]) := by
  unfold Ownership.open_ at hrun
  split at hrun
  · cases hrun
  next hroom =>
  split at hrun
  · cases hrun
  cases hrun
  set owner : Participant := ⟨table.registry, table.next + 1⟩ with howner
  set session : Session C R := { target, domain, holds := ∅, ordinal := 0, lastSequence := none } with hempty
  have hnew : owner ∉ opened log := fun hmem => Nat.not_succ_le_self _ (h.fresh _ hmem)
  have hclosed : table.sessions.lookup owner = none := by
    cases hlookup : table.sessions.lookup owner with
    | none => rfl
    | some session => exact absurd (h.keeps _ session hlookup).2 hnew
  have hopened : opened (log ++ [(⟨.open_ target domain, .ok (.opened owner)⟩ : Entry C R)]) = opened log ++ [owner] := by
    simp [Entry.opened]
  have haccepted : accepted (log ++ [(⟨.open_ target domain, .ok (.opened owner)⟩ : Entry C R)]) = accepted log := by
    funext p
    simp [Entry.accepted]
  have hacquired : acquired (log ++ [(⟨.open_ target domain, .ok (.opened owner)⟩ : Entry C R)]) = acquired log := by
    funext p
    simp [Entry.acquire]
  refine ⟨h.limits, ?_, ?_, ?_, ?_, ?_, ?_, ?_, ?_, ?_⟩
  · rw [entries_insert_of_notMem (lookup_eq_none.mp hclosed), length_cons]
    rw [h.limits.1] at hroom
    omega
  · intro domain' control p
    rw [h.owners]
    by_cases hp : p = owner
    · rw [hp, lookup_insert, hclosed]
      simp [hempty]
    · rw [lookup_insert_ne hp]
  · intro p session hp
    rw [hacquired, haccepted, hopened]
    by_cases hsame : p = owner
    · subst hsame
      rw [lookup_insert] at hp
      cases hp
      rw [h.closed _ hclosed, h.unopened _ hnew]
      refine ⟨⟨Nat.zero_le _, ⟨[], List.Perm.refl _, List.Pairwise.nil, by simp, rfl⟩, by simp⟩, by simp⟩
    · rw [lookup_insert_ne hsame] at hp
      obtain ⟨hkept, hmem⟩ := h.keeps p session hp
      exact ⟨hkept, mem_append_left _ hmem⟩
  · intro p hp
    rw [hacquired]
    refine h.closed p ?_
    by_cases hsame : p = owner
    · rw [hsame, lookup_insert] at hp
      cases hp
    · rwa [lookup_insert_ne hsame] at hp
  · rw [haccepted]
    exact h.increasing
  · intro p hp
    rw [haccepted]
    rw [hopened] at hp
    exact h.unopened p fun hmem => hp (mem_append_left _ hmem)
  · intro p hp
    rw [hopened] at hp
    rcases mem_append.mp hp with hp | hp
    · exact (h.fresh p hp).trans (Nat.le_succ _)
    · rw [mem_singleton.mp hp]
  · rw [hopened, nodup_append]
    refine ⟨h.tokens, nodup_singleton _, fun p hp q hq hpq => hnew ?_⟩
    rw [← mem_singleton.mp hq, ← hpq]
    exact hp
  · have hentries : (table.sessions.insert owner session).entries = ⟨owner, session⟩ :: table.sessions.entries :=
      entries_insert_of_notMem (lookup_eq_none.mp hclosed)
    have hreleases : releasesOf (table.sessions.insert owner session) = releasesOf table.sessions := by
      rw [releasesOf, hentries]
      rfl
    rw [hreleases]
    simpa [Entry.stored, Entry.handedOut] using h.stored

theorem step {state : Ownership C R × List (Entry C R)} (h : state.1.Sound maxSessions maxHeld state.2)
    (operation : Operation C R) :
    (operation.step state).1.Sound maxSessions maxHeld (operation.step state).2 := by
  obtain ⟨table, log⟩ := state
  simp only [Operation.step, Operation.perform_eq]
  cases hrun : operation.apply table with
  | error error => exact h.refused operation error
  | ok result =>
    obtain ⟨table', answer⟩ := result
    simp only [Operation.outcome]
    cases operation with
    | open_ target domain =>
      obtain ⟨⟨opened, owner⟩, hopen, heq⟩ := bind_eq_ok.mp hrun
      cases heq
      exact h.open_ hopen
    | acceptSequence owner sequence =>
      obtain ⟨accepted, haccept, heq⟩ := bind_eq_ok.mp hrun
      cases heq
      exact h.acceptSequence haccept
    | hold owner control prepared =>
      obtain ⟨held, hhold, heq⟩ := bind_eq_ok.mp hrun
      cases heq
      exact h.hold hhold
    | replaceRelease owner control prepared =>
      obtain ⟨⟨replaced, old⟩, hreplace, heq⟩ := bind_eq_ok.mp hrun
      cases heq
      exact h.replaceRelease hreplace
    | release owner control =>
      obtain ⟨⟨released, taken⟩, hrelease, heq⟩ := bind_eq_ok.mp hrun
      cases heq
      exact h.release hrelease
    | close owner =>
      cases hrun
      exact h.close owner

theorem run (registry maxSessions maxHeld : Nat) (operations : List (Operation C R)) :
    (Operation.run (.new registry maxSessions maxHeld) operations).1.Sound maxSessions maxHeld
      (Operation.run (.new registry maxSessions maxHeld) operations).2 := by
  have hsteps : ∀ state : Ownership C R × List (Entry C R), state.1.Sound maxSessions maxHeld state.2 →
      (operations.foldl Operation.step state).1.Sound maxSessions maxHeld (operations.foldl Operation.step state).2 := by
    induction operations with
    | nil => exact fun _ h => h
    | cons operation operations ih => exact fun state h => ih _ (h.step operation)
  exact hsteps (_, []) (start registry maxSessions maxHeld)

theorem owners_length_le (h : table.Sound maxSessions maxHeld log) : table.owners.entries.length ≤ maxSessions * maxHeld := by
  have hsubset : table.owners.keys ⊆
      table.sessions.entries.flatMap fun b => b.2.holds.keys.map fun control => (b.2.domain, control) := by
    rintro ⟨domain, control⟩ hkey
    obtain ⟨owner, howner⟩ := Option.isSome_iff_exists.mp (lookup_isSome.mpr hkey)
    obtain ⟨session, hsession, hdomain, hheld⟩ := (h.owners domain control owner).mp howner
    refine mem_flatMap.mpr ⟨⟨owner, session⟩, mem_lookup_iff.mp hsession, ?_⟩
    exact List.mem_map.mpr ⟨control, lookup_isSome.mp hheld, by rw [← hdomain]⟩
  have hle := (subperm_of_subset table.owners.keys_nodup hsubset).length_le
  rw [show table.owners.keys.length = table.owners.entries.length from length_map _, length_flatMap] at hle
  refine hle.trans ((sum_le_card_nsmul _ maxHeld ?_).trans ?_)
  · intro n hn
    obtain ⟨⟨owner, session⟩, hmem, rfl⟩ := List.mem_map.mp hn
    have hroom := (h.keeps owner session (mem_lookup_iff.mpr hmem)).1.room
    simpa [AList.keys, List.keys] using hroom
  · rw [length_map, nsmul_eq_mul, Nat.cast_id]
    exact Nat.mul_le_mul_right _ h.room

end Ownership.Sound

def Ownership.Holds (table : Ownership C R) (owner : Participant) (domain : String) (control : C) : Prop :=
  ∃ session, table.sessions.lookup owner = some session ∧ session.domain = domain ∧ (session.holds.lookup control).isSome

/-- What a table that has answered `log` owes its callers. -/
structure Ownership.Accounted (maxSessions maxHeld : Nat) (table : Ownership C R) (log : List (Entry C R)) : Prop where
  owners : ∀ domain control owner, table.owners.lookup (domain, control) = some owner ↔ table.Holds owner domain control
  exclusive : ∀ domain control p q, table.Holds p domain control → table.Holds q domain control → p = q
  sessions_le : table.sessions.entries.length ≤ maxSessions
  held_le : ∀ owner session, table.sessions.lookup owner = some session → session.holds.entries.length ≤ maxHeld
  owners_le : table.owners.entries.length ≤ maxSessions * maxHeld
  handed_out_once : (log.flatMap Entry.stored).Perm (log.flatMap Entry.handedOut ++ releasesOf table.sessions)
  close_reverse : ∀ owner, ∃ table',
    (Operation.close owner).perform table = .ok (.closed ((acquired log owner).reverse.map Prod.snd)) table' ∧
      (Operation.close owner).perform table' = .ok (.closed []) table'
  tokens : (opened log).Nodup
  increasing : ∀ owner, (accepted log owner).Pairwise (· < ·)
  unchanged : ∀ (operation : Operation C R) error table', operation.perform table = .error error table' → table' = table

theorem ownership_accounting (registry maxSessions maxHeld : Nat) (operations : List (Operation C R)) :
    (Operation.run (.new registry maxSessions maxHeld) operations).1.Accounted maxSessions maxHeld
      (Operation.run (.new registry maxSessions maxHeld) operations).2 := by
  have h := Ownership.Sound.run registry maxSessions maxHeld operations
  set table := (Operation.run (.new registry maxSessions maxHeld) operations).1
  set log := (Operation.run (.new registry maxSessions maxHeld) operations).2
  refine ⟨h.owners, ?_, h.room, ?_, h.owners_length_le, h.stored, ?_, h.tokens, h.increasing, ?_⟩
  · intro domain control p q hp hq
    have hfirst := (h.owners domain control p).mpr hp
    have hsecond := (h.owners domain control q).mpr hq
    exact Option.some.inj (hfirst.symm.trans hsecond)
  · exact fun owner session hsession => (h.keeps owner session hsession).1.room
  · intro owner
    have hreleases := h.closed_releases owner
    refine ⟨(table.close owner).1, ?_, ?_⟩
    · rw [Operation.perform_eq, ← hreleases]
      rfl
    · have hgone : (table.close owner).1.sessions.lookup owner = none := (Ownership.close_spec table owner).2.2.2.2.1
      have hclose : (table.close owner).1.close owner = ((table.close owner).1, []) := by
        generalize (table.close owner).1 = closed at hgone
        rw [Ownership.close, hgone]
      rw [Operation.perform_eq]
      show Operation.outcome _ (.ok (((table.close owner).1.close owner).1,
        (.closed (((table.close owner).1.close owner).2.map Prod.snd) : Returned R))) = _
      rw [hclose]
      rfl
  · intro operation error table' hrun
    rw [Operation.perform_eq] at hrun
    cases happly : operation.apply table with
    | ok result =>
      rw [happly] at hrun
      cases hrun
    | error error' =>
      rw [happly] at hrun
      cases hrun
      rfl

end Cantrip.Interaction
