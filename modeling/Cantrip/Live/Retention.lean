import Cantrip.Live.Sending

/-!
# What is retained

The events of an owner are numbered from one, and the events for replay are the last ones of the log (`Retains`). A
cursor that can be resumed has every later event of the owner retained (`retained_of_resumable`).
-/

namespace Cantrip.Live

open Hub List Function

def Entry.publishedEvent : Entry → Option Event
  | .published e => some e
  | _ => none

def published (log : List Entry) : List Event := log.filterMap Entry.publishedEvent

@[simp] theorem published_append (log more : List Entry) : published (log ++ more) = published log ++ published more :=
  filterMap_append

@[simp] theorem published_nil : published [] = [] := rfl

theorem published_of_done {id : Nat} {more : List Entry} (h : ∀ entry ∈ more, entry = .closed id ∨ ∃ m, entry = .sent id m) :
    published more = [] := by
  unfold published
  rw [filterMap_eq_nil_iff]
  intro entry hentry
  obtain rfl | ⟨m, rfl⟩ := h entry hentry <;> rfl

namespace Hub

variable {o : Options} {socket : Nat → Answer} {h h' : Hub} {id : Nat}

structure Retains (h : Hub) : Prop where
  numbered : ∀ owner, ((published h.log).filter fun e => e.owner = owner).map Event.cursor = List.range' 1 (h.cursors owner)
  suffix : h.replay <:+ published h.log

theorem Does.entries {sent : List Message} (hd : Does id h h' sent) :
    ∃ more, h'.log = h.log ++ more ∧ ∀ entry ∈ more, entry = .closed id ∨ ∃ m ∈ sent, entry = .sent id m := by
  obtain ⟨part, rest, hlog, hpart, hrest, -, -⟩ := hd.log
  refine ⟨part.map (Entry.sent id) ++ rest, by rw [hlog, append_assoc], fun entry hentry => ?_⟩
  rcases mem_append.mp hentry with hentry | hentry
  · obtain ⟨m, hm, rfl⟩ := mem_map.mp hentry
    exact .inr ⟨m, hpart.subset hm, rfl⟩
  · exact .inl (hrest entry hentry)

theorem Does.retains {sent : List Message} (hd : Does id h h' sent) (hretains : h.Retains) : h'.Retains := by
  obtain ⟨more, hlog, hmore⟩ := hd.entries
  have hpublished : published h'.log = published h.log := by
    rw [hlog, published_append, published_of_done fun entry hentry => (hmore entry hentry).imp_right fun ⟨m, _, hm⟩ => ⟨m, hm⟩,
      append_nil]
  exact ⟨fun owner => by rw [hpublished, hd.cursors]; exact hretains.numbered owner,
    by rw [hpublished, hd.replay]; exact hretains.suffix⟩

theorem evict_suffix (events : List Event) (bytes : Nat) : (evict o events bytes).1 <:+ events := by
  induction events generalizing bytes with
  | nil => exact suffix_rfl
  | cons e events ih =>
    unfold evict
    split
    · exact (ih _).trans (suffix_cons e events)
    · exact suffix_rfl

theorem retains_retain {e : Event} (hretains : h.Retains) (hcursor : e.cursor = h.cursors e.owner + 1) : (h.retain o e).Retains := by
  have hpublished : published (h.retain o e).log = published h.log ++ [e] := published_append h.log [.published e]
  constructor
  · intro owner
    rw [hpublished, filter_append, map_append, hretains.numbered owner]
    show _ = range' 1 (update h.cursors e.owner e.cursor owner)
    by_cases howner : owner = e.owner
    · subst howner
      rw [update_self, hcursor, range'_1_concat]
      simp [hcursor, Nat.add_comm]
    · rw [update_of_ne howner]
      simp [Ne.symm howner]
  · rw [hpublished]
    obtain ⟨front, hfront⟩ := hretains.suffix
    exact (evict_suffix _ _).trans ⟨front, by rw [← append_assoc, hfront]⟩

theorem Retains.lt {front back : List Event} {e first : Event} (hretains : h.Retains) (hsplit : published h.log = front ++ back)
    (he : e ∈ front) (hfirst : first ∈ back) (howner : e.owner = first.owner) : e.cursor < first.cursor := by
  have hnumbered := hretains.numbered first.owner
  rw [hsplit, filter_append, map_append] at hnumbered
  have hsorted : (range' 1 (h.cursors first.owner)).Pairwise (· < ·) := pairwise_lt_range'
  rw [← hnumbered, pairwise_append] at hsorted
  refine hsorted.2.2 _ (mem_map_of_mem ?_) _ (mem_map_of_mem ?_)
  · exact mem_filter.mpr ⟨he, by simpa using howner⟩
  · exact mem_filter.mpr ⟨hfirst, by simp⟩

theorem Retains.le {e : Event} (hretains : h.Retains) (he : e ∈ published h.log) : e.cursor ≤ h.cursors e.owner := by
  have hmem : e.cursor ∈ ((published h.log).filter fun x => x.owner = e.owner).map Event.cursor :=
    mem_map_of_mem (mem_filter.mpr ⟨he, by simp⟩)
  rw [hretains.numbered, mem_range'_1] at hmem
  omega

theorem retained_of_resumable {owner epoch : String} {cursor : Nat} {e : Event} (hretains : h.Retains)
    (hresumable : h.resumeReason o owner epoch cursor = none) (he : e ∈ published h.log) (howner : e.owner = owner)
    (hlater : cursor < e.cursor) : e ∈ h.replay := by
  unfold resumeReason at hresumable
  split at hresumable
  · cases hresumable
  · dsimp only at hresumable
    split at hresumable
    · cases hresumable
    · rename_i hcovered
      rw [not_or, not_or] at hcovered
      obtain ⟨hcurrent, holdest, hnone⟩ := hcovered
      obtain ⟨front, hfront⟩ := hretains.suffix
      rcases mem_append.mp (hfront ▸ he : e ∈ front ++ h.replay) with hmem | hmem
      · exfalso
        obtain hempty | ⟨first, hfirst⟩ := Option.eq_none_or_eq_some (h.replay.find? fun e => e.owner = owner)
        · have hle := hretains.le he
          rw [howner] at hle
          have heq : ¬ cursor ≠ h.cursors owner := fun hne => hnone ⟨by rw [hempty]; rfl, hne⟩
          omega
        · have hsame : first.owner = owner := by simpa using find?_some hfirst
          have hlt := hretains.lt hfront.symm hmem (mem_of_find?_eq_some hfirst) (howner.trans hsame.symm)
          have hold : ¬ cursor < first.cursor - 1 := by simpa [hfirst] using holdest
          omega
      · exact hmem

def eventsAfter (log : List Entry) (c : Connection) (cursor : Nat) : List Event :=
  (published log).filter fun e => e.owner = c.owner ∧ e.cursor > cursor ∧ e.scope ∈ c.scopes

theorem toReplay_eq {cursor : Nat} (hretains : h.Retains)
    (hkept : ∀ e ∈ eventsAfter h.log (h.connection id) cursor, e ∈ h.replay) :
    h.toReplay id cursor = eventsAfter h.log (h.connection id) cursor := by
  obtain ⟨front, hfront⟩ := hretains.suffix
  unfold eventsAfter at hkept ⊢
  unfold toReplay
  rw [← hfront] at hkept ⊢
  rw [filter_append]
  have hnone : (front.filter fun e => e.owner = (h.connection id).owner ∧ e.cursor > cursor ∧ e.scope ∈ (h.connection id).scopes) = [] := by
    rw [filter_eq_nil_iff]
    intro e he hwanted
    have hmem := hkept e (mem_filter.mpr ⟨mem_append_left _ he, hwanted⟩)
    exact Nat.lt_irrefl _ (hretains.lt hfront.symm he hmem rfl)
  rw [hnone, nil_append]

end Hub

end Cantrip.Live
