import Cantrip.Interaction.Host
import Cantrip.Lib.History

/-!
# No stuck and no foreign input

What was posted tells which controls are down: `outstanding` reads from the log the release that is due for every
control of every participant. A post that the backend certifies as not dispatched changes nothing, any other
counts as delivered, and an Up or a release is over once it was attempted. A host holds at every moment what is
outstanding (`Sound`), so a participant that is closed has nothing outstanding.
-/

namespace Cantrip.Interaction

open Lib List Except Bool AList

variable {B : InputBackend}

/-! ## What the log says -/

def Outcome.certified {E : Type} : Outcome (Except (PostFailure E) Unit) → Bool
  | .returned (.error (.notDispatched _)) => true
  | _ => false

def Post.change (post : Post B) : Option (B.Control × Option B.Packet) :=
  match post.purpose with
  | .down control release | .moveHeld control release =>
    if post.outcome.certified then none else some (control, some release)
  | .up control | .release control => some (control, none)
  | .repeat _ | .action => none

def Post.settle (due : Participant → B.Control → Option B.Packet) (post : Post B) : Participant → B.Control → Option B.Packet :=
  match post.change with
  | some (control, release) => setRelease due post.owner control release
  | none => due

def outstanding (log : List (Post B)) : Participant → B.Control → Option B.Packet := log.foldl Post.settle fun _ _ => none

@[simp] theorem outstanding_nil : outstanding ([] : List (Post B)) = fun _ _ => none := rfl

theorem outstanding_concat (log : List (Post B)) (post : Post B) :
    outstanding (log ++ [post]) = post.settle (outstanding log) := by
  simp [outstanding]

def Post.Retries (post : Post B) (log : List (Post B)) : Prop :=
  ∃ before last, log = before ++ [last] ∧ last.owner = post.owner ∧ last.purpose = post.purpose ∧
    last.packet = post.packet ∧ last.outcome.certified = true

/-- The participant may post this after the log: a Down of a control that it does not hold, anything else of one
that it holds, and a release as it is due. -/
def Post.Legal (log : List (Post B)) (post : Post B) : Prop :=
  match post.purpose with
  | .down control _ => outstanding log post.owner control = none
  | .moveHeld control _ | .repeat control => (outstanding log post.owner control).isSome
  | .up control => (outstanding log post.owner control).isSome ∨ post.Retries log
  | .release control => outstanding log post.owner control = some post.packet
  | .action => True

def Justified (log : List (Post B)) : Prop := Each (fun before post => post.Legal before) log

/-! ## The invariant -/

/-- The host holds what is outstanding, every post was legal, and every open participant has its target. -/
structure InputHost.Sound (host : InputHost B) : Prop where
  held : host.ownership.heldRelease = outstanding host.log
  justified : Justified host.log
  targets : ∀ p, (host.targets.lookup p).isSome = (host.ownership.sessions.lookup p).isSome
  fresh : ∀ p, (host.ownership.sessions.lookup p).isSome → p.sequence ≤ host.ownership.next

structure InputHost.Only (host host' : InputHost B) (owner : Participant) : Prop where
  sessions : ∀ p ≠ owner, host'.ownership.sessions.lookup p = host.ownership.sessions.lookup p
  targets : ∀ p ≠ owner, host'.targets.lookup p = host.targets.lookup p
  posts : ∃ posts, host'.log = host.log ++ posts ∧ ∀ post ∈ posts, post.owner = owner

namespace InputHost

variable {host host' host'' : InputHost B} {owner : Participant}

theorem Only.refl (host : InputHost B) (owner : Participant) : host.Only host owner :=
  ⟨fun _ _ => rfl, fun _ _ => rfl, [], by simp, by simp⟩

theorem Only.trans (h : host.Only host' owner) (h' : host'.Only host'' owner) : host.Only host'' owner := by
  obtain ⟨posts, hlog, hposts⟩ := h.posts
  obtain ⟨posts', hlog', hposts'⟩ := h'.posts
  refine ⟨fun p hp => (h'.sessions p hp).trans (h.sessions p hp), fun p hp => (h'.targets p hp).trans (h.targets p hp),
    posts ++ posts', by rw [hlog', hlog, append_assoc], ?_⟩
  intro post hpost
  rcases mem_append.mp hpost with hmem | hmem
  · exact hposts post hmem
  · exact hposts' post hmem

structure Keeps (host host' : InputHost B) (owner : Participant) : Prop where
  sound : host'.Sound
  only : host.Only host' owner

theorem Keeps.trans (h : host.Keeps host' owner) (h' : host'.Keeps host'' owner) : host.Keeps host'' owner :=
  ⟨h'.sound, h.only.trans h'.only⟩

theorem Sound.keeps (h : host.Sound) (owner : Participant) : host.Keeps host owner := ⟨h, .refl host owner⟩

theorem Sound.withBackend (h : host.Sound) (backend : B.State) : { host with backend }.Sound :=
  ⟨h.held, h.justified, h.targets, h.fresh⟩

theorem Keeps.withBackend (h : host.Keeps host' owner) (backend : B.State) : host.Keeps { host' with backend } owner :=
  ⟨h.sound.withBackend backend, h.only.sessions, h.only.targets, h.only.posts⟩

theorem Sound.keeps_of {ownership : Ownership B.Control B.Packet} (h : host.Sound) (posts : List (Post B))
    (hwithin : host.ownership.Within ownership owner) (hposts : ∀ post ∈ posts, post.owner = owner)
    (hheld : ownership.heldRelease = outstanding (host.log ++ posts)) (hjustified : Justified (host.log ++ posts))
    (backend : B.State) :
    host.Keeps { backend, ownership, targets := host.targets, log := host.log ++ posts } owner := by
  refine ⟨⟨hheld, hjustified, fun p => ?_, fun p hp => ?_⟩, hwithin.others, fun _ _ => rfl, posts, rfl, hposts⟩
  · rw [hwithin.keys p]
    exact h.targets p
  · rw [hwithin.next]
    exact h.fresh p (by rwa [hwithin.keys p] at hp)

theorem post_eq (host : InputHost B) (owner : Participant) (target : B.Target) (purpose : Purpose B) (packet : B.Packet) :
    (host.post owner target purpose packet).1 = { host with
        backend := (B.post host.backend target packet).1
        log := host.log ++ [{ owner, purpose, packet, outcome := (host.post owner target purpose packet).2 }] } := rfl

theorem postReleases_spec (host : InputHost B) (owner : Participant) (target : B.Target)
    (releases : List (B.Control × B.Packet)) (hjustified : Justified host.log)
    (hdue : ∀ release ∈ releases, outstanding host.log owner release.1 = some release.2)
    (hnodup : (releases.map Prod.fst).Nodup) :
    ∃ backend posts, (host.postReleases owner target releases).1 = { host with backend, log := host.log ++ posts } ∧
      (∀ post ∈ posts, post.owner = owner) ∧ Justified (host.log ++ posts) ∧
      ∀ p c, outstanding (host.log ++ posts) p c =
        if p = owner ∧ c ∈ releases.map Prod.fst then none else outstanding host.log p c := by
  induction releases generalizing host with
  | nil => exact ⟨host.backend, [], by simp [postReleases], by simp, by simpa using hjustified, by simp⟩
  | cons release releases ih =>
    obtain ⟨control, packet⟩ := release
    obtain ⟨hnew, hnodup⟩ := nodup_cons.mp hnodup
    let post : Post B :=
      { owner, purpose := .release control, packet, outcome := (host.post owner target (.release control) packet).2 }
    have hlog : (host.post owner target (.release control) packet).1.log = host.log ++ [post] := rfl
    have hsettle : outstanding (host.log ++ [post]) = setRelease (outstanding host.log) owner control none :=
      outstanding_concat host.log post
    have hlegal : post.Legal host.log := hdue (control, packet) (by simp)
    have hothers : ∀ r ∈ releases, outstanding (host.post owner target (.release control) packet).1.log owner r.1 = some r.2 := by
      intro r hr
      rw [hlog, hsettle, setRelease, if_neg]
      · exact hdue r (by simp [hr])
      · rintro ⟨-, hsame⟩
        have hmem : r.1 ∈ releases.map Prod.fst := List.mem_map_of_mem hr
        exact hnew (hsame ▸ hmem)
    obtain ⟨backend, posts, hhost, hposts, hjustified', hafter⟩ :=
      ih _ (hlog ▸ hjustified.concat hlegal) hothers hnodup
    refine ⟨backend, post :: posts, ?_, ?_, ?_, ?_⟩
    · have hend : (host.postReleases owner target ((control, packet) :: releases)).1 =
          ((host.post owner target (.release control) packet).1.postReleases owner target releases).1 := by
        simp only [postReleases]
        split <;> rfl
      rw [hend, hhost, hlog]
      simp [post_eq]
    · intro p hp
      rcases mem_cons.mp hp with rfl | hmem
      · rfl
      · exact hposts p hmem
    · rw [hlog] at hjustified'
      simpa using hjustified'
    · intro p c
      have hstep := hafter p c
      rw [hlog] at hstep
      rw [append_cons, hstep, hsettle]
      by_cases hmem : p = owner ∧ c ∈ releases.map Prod.fst
      · rw [if_pos hmem, if_pos ⟨hmem.1, mem_cons_of_mem _ hmem.2⟩]
      · rw [if_neg hmem, setRelease]
        refine if_congr ?_ rfl rfl
        rw [map_cons, mem_cons]
        tauto

theorem Sound.close (h : host.Sound) (owner : Participant) :
    host.Keeps (host.close owner).1 owner ∧ (host.close owner).1.ownership.sessions.lookup owner = none := by
  obtain ⟨hheld, hreleases, hnodup, hothers, hclosed, hnext⟩ := host.ownership.close_spec owner
  cases htarget : host.targets.lookup owner with
  | none =>
    have hnone : host.ownership.sessions.lookup owner = none := by
      have hsome := h.targets owner
      rw [htarget] at hsome
      simpa using hsome.symm
    have hself : (host.close owner).1 = host := by
      simp [InputHost.close, htarget, Ownership.close, hnone]
    rw [hself]
    exact ⟨h.keeps owner, hnone⟩
  | some target =>
    obtain ⟨backend, posts, hhost, hposts, hjustified, hafter⟩ := postReleases_spec
      { host with ownership := (host.ownership.close owner).1, targets := host.targets.erase owner } owner target
      (host.ownership.close owner).2 h.justified
      (fun release hrelease => by rw [← h.held]; exact (hreleases release.1 release.2).mp hrelease) hnodup
    have hend : ∃ backend', (host.close owner).1 =
        { backend := backend', ownership := (host.ownership.close owner).1, targets := host.targets.erase owner,
          log := host.log ++ posts } := by
      simp only [InputHost.close, htarget]
      rw [hhost]
      split
      · exact ⟨_, rfl⟩
      · exact ⟨_, rfl⟩
    obtain ⟨backend', hend⟩ := hend
    rw [hend]
    have hsome : ∀ p, p ≠ owner → ((host.ownership.close owner).1.sessions.lookup p).isSome =
        (host.ownership.sessions.lookup p).isSome := fun p hp => by rw [hothers p hp]
    refine ⟨⟨⟨?_, hjustified, fun p => ?_, fun p hp => ?_⟩, hothers, fun p hp => lookup_erase_ne hp, posts, rfl, hposts⟩,
      hclosed⟩
    · funext p c
      rw [hheld p c, hafter p c]
      by_cases hp : p = owner
      · subst hp
        rw [if_pos rfl]
        split
        · rfl
        · next hno =>
          rw [← h.held]
          cases hrelease : host.ownership.heldRelease p c with
          | none => rfl
          | some r => exact absurd ⟨rfl, List.mem_map_of_mem ((hreleases c r).mpr hrelease)⟩ hno
      · simp [hp, h.held]
    · by_cases hp : p = owner
      · subst hp
        simp [hclosed]
      · rw [hsome p hp, lookup_erase_ne hp]
        exact h.targets p
    · have hne : p ≠ owner := by
        rintro rfl
        simp [hclosed] at hp
      rw [hnext]
      exact h.fresh p (by rwa [hsome p hne] at hp)

end InputHost

/-! ## Dispatching -/

structure Reservation.Fits (ownership : Ownership B.Control B.Packet) (owner : Participant) (reserved : Reservation B) :
    Prop where
  within : ownership.Within reserved.ownership owner
  held : match reserved.purpose with
    | .down control release => ownership.heldRelease owner control = none ∧
      reserved.ownership.heldRelease = setRelease ownership.heldRelease owner control (some release)
    | .up control => (ownership.heldRelease owner control).isSome ∧
      reserved.ownership.heldRelease = setRelease ownership.heldRelease owner control none
    | .repeat control => (ownership.heldRelease owner control).isSome ∧ reserved.ownership.heldRelease = ownership.heldRelease
    | .moveHeld control release => ∃ old, reserved.moved = some old ∧ ownership.heldRelease owner control = some old ∧
      reserved.ownership.heldRelease = setRelease ownership.heldRelease owner control (some release)
    | .action => reserved.ownership.heldRelease = ownership.heldRelease
    | .release _ => False

theorem reserve_fits {ownership : Ownership B.Control B.Packet} {owner : Participant} {reserved : Reservation B}
    {prepared : Prepared B.Control B.Packet} (h : InputHost.reserve ownership owner prepared = .ok reserved) :
    reserved.Fits ownership owner := by
  cases prepared with
  | down control packet release =>
    obtain ⟨ownership', hhold, hrun⟩ := bind_eq_ok.mp h
    obtain rfl := ok.inj hrun
    obtain ⟨hnone, hheld, hwithin⟩ := Ownership.hold_eq_ok hhold
    exact ⟨hwithin, hnone, hheld⟩
  | up control packet =>
    obtain ⟨⟨ownership', taken⟩, hrelease, hrun⟩ := bind_eq_ok.mp h
    obtain rfl := ok.inj hrun
    obtain ⟨hsome, hheld, hwithin⟩ := Ownership.release_eq_ok hrelease
    exact ⟨hwithin, by simp [hsome], hheld⟩
  | «repeat» control packet =>
    obtain ⟨taken, hheld, hrun⟩ := bind_eq_ok.mp h
    obtain rfl := ok.inj hrun
    exact ⟨.refl _ _, by simp [Ownership.held_eq_ok hheld], rfl⟩
  | moveHeld control packet release =>
    obtain ⟨⟨ownership', old⟩, hreplace, hrun⟩ := bind_eq_ok.mp h
    obtain rfl := ok.inj hrun
    obtain ⟨hsome, hheld, hwithin⟩ := Ownership.replaceRelease_eq_ok hreplace
    exact ⟨hwithin, old, rfl, hsome, hheld⟩
  | action controls packet =>
    obtain ⟨_, -, hrun⟩ := bind_eq_ok.mp h
    obtain rfl := ok.inj hrun
    exact ⟨.refl _ _, rfl⟩

namespace Reservation.Fits

variable {ownership : Ownership B.Control B.Packet} {owner : Participant} {reserved : Reservation B}

theorem legal {log : List (Post B)} (h : reserved.Fits ownership owner) (hheld : ownership.heldRelease = outstanding log)
    (outcome : Outcome (Except (PostFailure B.Error) Unit)) :
    Post.Legal log { owner, purpose := reserved.purpose, packet := reserved.packet, outcome } := by
  have hfits := h.held
  rw [hheld] at hfits
  unfold Post.Legal
  dsimp only
  cases hpurpose : reserved.purpose with
  | down control release =>
    rw [hpurpose] at hfits
    exact hfits.1
  | up control =>
    rw [hpurpose] at hfits
    exact .inl hfits.1
  | «repeat» control =>
    rw [hpurpose] at hfits
    exact hfits.1
  | moveHeld control release =>
    rw [hpurpose] at hfits
    obtain ⟨old, -, hsome, -⟩ := hfits
    simp [hsome]
  | action => trivial
  | release control =>
    rw [hpurpose] at hfits
    exact hfits.elim

theorem settled (h : reserved.Fits ownership owner) {outcome : Outcome (Except (PostFailure B.Error) Unit)}
    (hcertified : outcome.certified = false) : reserved.ownership.heldRelease =
      Post.settle ownership.heldRelease { owner, purpose := reserved.purpose, packet := reserved.packet, outcome } := by
  have hfits := h.held
  unfold Post.settle Post.change
  dsimp only
  rw [hcertified]
  cases hpurpose : reserved.purpose with
  | down control release =>
    rw [hpurpose] at hfits
    exact hfits.2
  | up control =>
    rw [hpurpose] at hfits
    exact hfits.2
  | «repeat» control =>
    rw [hpurpose] at hfits
    exact hfits.2
  | moveHeld control release =>
    rw [hpurpose] at hfits
    obtain ⟨old, -, -, hheld⟩ := hfits
    exact hheld
  | action =>
    rw [hpurpose] at hfits
    exact hfits
  | release control =>
    rw [hpurpose] at hfits
    exact hfits.elim

theorem rolledBack (h : reserved.Fits ownership owner) (outcome : Outcome (Except (PostFailure B.Error) Unit))
    (hcertified : outcome.certified = true) :
    (InputHost.rollback reserved owner reserved.ownership).heldRelease =
      Post.settle ownership.heldRelease { owner, purpose := reserved.purpose, packet := reserved.packet, outcome } ∧
    ownership.Within (InputHost.rollback reserved owner reserved.ownership) owner := by
  have hfits := h.held
  unfold Post.settle Post.change InputHost.rollback
  dsimp only
  rw [hcertified]
  cases hpurpose : reserved.purpose with
  | down control release =>
    rw [hpurpose] at hfits
    obtain ⟨hnone, hheld⟩ := hfits
    have hdown : reserved.ownership.heldRelease owner control = some release := by rw [hheld, setRelease_self]
    obtain ⟨table, hrelease⟩ := Ownership.release_of_held hdown
    obtain ⟨-, hback, hwithin⟩ := Ownership.release_eq_ok hrelease
    dsimp only
    rw [hrelease]
    refine ⟨?_, h.within.trans hwithin⟩
    dsimp only
    rw [hback, hheld, setRelease_setRelease]
    exact setRelease_eq_self hnone
  | up control =>
    rw [hpurpose] at hfits
    exact ⟨hfits.2, h.within⟩
  | «repeat» control =>
    rw [hpurpose] at hfits
    exact ⟨hfits.2, h.within⟩
  | moveHeld control release =>
    rw [hpurpose] at hfits
    obtain ⟨old, hmoved, hold, hheld⟩ := hfits
    have hnow : reserved.ownership.heldRelease owner control = some release := by rw [hheld, setRelease_self]
    obtain ⟨table, hupdate, hback, hwithin⟩ := Ownership.updateRelease_of_held old hnow
    rw [hmoved]
    dsimp only
    rw [hupdate]
    refine ⟨?_, h.within.trans hwithin⟩
    dsimp only
    rw [hback, hheld, setRelease_setRelease]
    exact setRelease_eq_self hold
  | action =>
    rw [hpurpose] at hfits
    exact ⟨hfits, h.within⟩
  | release control =>
    rw [hpurpose] at hfits
    exact hfits.elim

end Reservation.Fits

namespace InputHost

variable {host host' host'' : InputHost B} {owner : Participant}

theorem Sound.posted {reserved : Reservation B} {outcome : Outcome (Except (PostFailure B.Error) Unit)}
    {ownership : Ownership B.Control B.Packet} (h : host.Sound) (hfits : reserved.Fits host.ownership owner)
    (hwithin : host.ownership.Within ownership owner)
    (hheld : ownership.heldRelease = Post.settle host.ownership.heldRelease
      { owner, purpose := reserved.purpose, packet := reserved.packet, outcome })
    (backend : B.State) :
    host.Keeps { backend, ownership, targets := host.targets, log := host.log ++
      [{ owner, purpose := reserved.purpose, packet := reserved.packet, outcome }] } owner := by
  refine h.keeps_of _ hwithin (by simp) ?_ (h.justified.concat (hfits.legal h.held outcome)) backend
  rw [hheld, h.held, outstanding_concat]

theorem retry_keeps (h : host.Sound) (target : B.Target) (reserved : Reservation B) (log : List (Post B)) (last : Post B)
    (hlog : host.log = log ++ [last]) (howner : last.owner = owner) (hpurpose : last.purpose = reserved.purpose)
    (hpacket : last.packet = reserved.packet) (hcertified : last.outcome.certified = true) :
    host.Keeps (host.retry owner target reserved).1 owner := by
  unfold retry
  split
  · next control hup =>
    have hover : outstanding host.log owner control = none := by
      rw [hlog, outstanding_concat, Post.settle, Post.change, hpurpose, hup, howner]
      exact setRelease_self _ _ _ _
    let post : Post B :=
      { owner, purpose := .up control, packet := reserved.packet,
        outcome := (host.post owner target (.up control) reserved.packet).2 }
    have hlegal : post.Legal host.log := .inr ⟨log, last, hlog, howner, hpurpose.trans hup, hpacket, hcertified⟩
    have hkeeps : host.Keeps (host.post owner target (.up control) reserved.packet).1 owner := by
      refine h.keeps_of [post] (.refl _ _) (by simp [post]) ?_ (h.justified.concat hlegal) _
      rw [outstanding_concat, h.held]
      exact (setRelease_eq_self hover).symm
    split
    · next he => simpa [he] using hkeeps
    · next he => simpa [he] using hkeeps
    · next he => simpa [he] using hkeeps
  · exact h.keeps owner

structure Settles (host : InputHost B) (owner : Participant) (done : InputHost B × Outcome (Except (InputFailure B) Unit)) :
    Prop extends host.Keeps done.1 owner where
  closes : ∀ failure cleanup, done.2 = .returned (.error (.post failure cleanup)) →
    done.1.ownership.sessions.lookup owner = none

theorem dispatch_settles (h : host.Sound) (hopen : (host.ownership.sessions.lookup owner).isSome)
    (prepared : Prepared B.Control B.Packet) : host.Settles owner (host.dispatch owner prepared) := by
  unfold dispatch
  split
  · exact ⟨h.keeps owner, by simp⟩
  next reserved hreserve =>
  have hfits := reserve_fits hreserve
  dsimp only
  split
  · next hnone =>
    have htargets := h.targets owner
    rw [hopen, hnone] at htargets
    simp at htargets
  next target htarget =>
  have hposted : ∀ outcome : Outcome (Except (PostFailure B.Error) Unit), outcome.certified = false → ∀ backend,
      host.Keeps { backend, ownership := reserved.ownership, targets := host.targets, log := host.log ++
        [{ owner, purpose := reserved.purpose, packet := reserved.packet, outcome }] } owner :=
    fun outcome hcertified backend => h.posted hfits hfits.within (hfits.settled hcertified) backend
  have hpost := post_eq { host with ownership := reserved.ownership } owner target reserved.purpose reserved.packet
  split
  · next host' he =>
    rw [he] at hpost
    dsimp only at hpost ⊢
    rw [hpost]
    exact ⟨hposted .panicked rfl _, by simp⟩
  · next host' value he =>
    rw [he] at hpost
    dsimp only at hpost ⊢
    rw [hpost]
    exact ⟨hposted (.returned (.ok value)) rfl _, by simp⟩
  · next host' error he =>
    rw [he] at hpost
    dsimp only at hpost ⊢
    obtain ⟨hback, hwithin⟩ := hfits.rolledBack (.returned (.error (.notDispatched error))) rfl
    have hkeeps : host.Keeps { host' with ownership := rollback reserved owner host'.ownership } owner := by
      rw [hpost]
      exact h.posted hfits hwithin hback _
    have hretry := retry_keeps hkeeps.sound target reserved host.log
      { owner, purpose := reserved.purpose, packet := reserved.packet, outcome := .returned (.error (.notDispatched error)) }
      (by rw [hpost]) rfl rfl rfl rfl
    split
    · next he' =>
      rw [he'] at hretry
      exact ⟨hkeeps.trans hretry, by simp⟩
    · next he' =>
      rw [he'] at hretry
      obtain ⟨hclose, hclosed⟩ := hretry.sound.close owner
      exact ⟨(hkeeps.trans hretry).trans hclose, fun _ _ _ => hclosed⟩
  · next host' failure hnot he =>
    rw [he] at hpost
    dsimp only at hpost ⊢
    have hcertified : Outcome.certified (.returned (.error failure) : Outcome (Except (PostFailure B.Error) Unit)) = false := by
      cases failure with
      | notDispatched error => exact absurd rfl (hnot error)
      | uncertain error => rfl
      | backendPanicked => rfl
    have hkeeps := hposted (.returned (.error failure)) hcertified (B.post host.backend target reserved.packet).1
    rw [hpost]
    obtain ⟨hclose, hclosed⟩ := hkeeps.sound.close owner
    exact ⟨hkeeps.trans hclose, fun _ _ _ => hclosed⟩

/-! ## Every call -/

theorem accept_keeps {identity : TargetIdentity} {sequence : Nat} (h : host.Sound)
    (haccept : host.accept owner identity sequence = .ok host') :
    host.Keeps host' owner ∧ (host'.ownership.sessions.lookup owner).isSome := by
  obtain ⟨current, -, hrun⟩ := bind_eq_ok.mp haccept
  split at hrun
  · simp at hrun
  obtain ⟨ownership, hsequence, hrun⟩ := bind_eq_ok.mp hrun
  obtain rfl := ok.inj hrun
  obtain ⟨hheld, hwithin, hopen⟩ := Ownership.acceptSequence_eq_ok hsequence
  have hkeeps := h.keeps_of [] hwithin (by simp) (by rw [hheld, h.held, append_nil]) (by simpa using h.justified) host.backend
  rw [append_nil] at hkeeps
  exact ⟨hkeeps, by rw [hwithin.keys owner]; exact hopen⟩

theorem translate_keeps (h : host.Sound) (owner : Participant) (event : B.Event) :
    host.Keeps (host.translate owner event).1 owner ∧ (host.translate owner event).1.ownership = host.ownership ∧
      ∀ failure, (host.translate owner event).2 = .returned (.error failure) → ∀ f cleanup, failure ≠ .post f cleanup := by
  unfold translate
  split
  · exact ⟨h.keeps owner, rfl, by simp⟩
  split
  · exact ⟨h.keeps owner, rfl, by rintro _ ⟨⟩; simp⟩
  split
  · exact ⟨(h.keeps owner).withBackend _, rfl, by simp⟩
  · exact ⟨(h.keeps owner).withBackend _, rfl, by rintro _ ⟨⟩; simp⟩
  · exact ⟨(h.keeps owner).withBackend _, rfl, by simp⟩

/-- A call on one participant, which is closed where a post failed or a panic unwound. -/
structure Concludes (host : InputHost B) (owner : Participant) (done : InputHost B × Outcome (Except (InputFailure B) Unit)) :
    Prop extends host.Settles owner done where
  unwinds : done.2 = .panicked → done.1.ownership.sessions.lookup owner = none

theorem Keeps.refuses (h : host.Keeps host' owner) {failure : InputFailure B}
    (hfailure : ∀ f cleanup, failure ≠ .post f cleanup) : host.Concludes owner (host', .returned (.error failure)) :=
  ⟨⟨h, fun f cleanup he => absurd (Except.error.inj (Outcome.returned.inj he)) (hfailure f cleanup)⟩, by simp⟩

theorem unwindScoped_concludes {operation : InputHost B → InputHost B × Outcome (Except (InputFailure B) Unit)}
    (hkeeps : host.Keeps host' owner) (h : host'.Settles owner (operation host')) :
    host.Concludes owner (host'.unwindScoped owner operation) := by
  unfold unwindScoped
  split
  · next he =>
    rw [he] at h
    exact ⟨⟨hkeeps.trans h.toKeeps, h.closes⟩, by simp⟩
  · next he =>
    rw [he] at h
    obtain ⟨hclose, hclosed⟩ := h.sound.close owner
    exact ⟨⟨(hkeeps.trans h.toKeeps).trans hclose, by simp⟩, fun _ => hclosed⟩

theorem submit_concludes (h : host.Sound) (owner : Participant) (identity : TargetIdentity) (sequence : Nat) (event : B.Event) :
    host.Concludes owner (host.submit owner identity sequence event) := by
  unfold submit
  split
  · exact (h.keeps owner).refuses (by simp)
  next host' haccept =>
  obtain ⟨hkeeps, hopen⟩ := accept_keeps h haccept
  split
  · exact hkeeps.refuses (by simp)
  refine unwindScoped_concludes hkeeps ?_
  obtain ⟨htranslate, hsame, hplain⟩ := translate_keeps hkeeps.sound owner event
  split
  · next he =>
    rw [he] at htranslate
    exact ⟨htranslate, by simp⟩
  · next failure he =>
    rw [he] at htranslate hplain
    exact ((htranslate.refuses (hplain failure rfl)).toSettles)
  · next prepared he =>
    rw [he] at htranslate hsame
    have hdispatch := dispatch_settles htranslate.sound (hsame ▸ hopen) prepared
    exact ⟨htranslate.trans hdispatch.toKeeps, hdispatch.closes⟩

theorem submitPrepared_concludes (h : host.Sound) (owner : Participant) (identity : TargetIdentity) (sequence : Nat)
    (packet : Prepared B.Control B.Packet) : host.Concludes owner (host.submitPrepared owner identity sequence packet) := by
  unfold submitPrepared
  split
  · exact (h.keeps owner).refuses (by simp)
  next host' haccept =>
  obtain ⟨hkeeps, hopen⟩ := accept_keeps h haccept
  exact unwindScoped_concludes hkeeps (dispatch_settles hkeeps.sound hopen packet)

theorem submitAction_concludes (h : host.Sound) (owner : Participant) (identity : TargetIdentity) (sequence : Nat)
    (controls : List B.Control) (action : B.State → B.Target → B.State × Outcome (Except (PostFailure B.Error) Unit)) :
    host.Concludes owner (host.submitAction owner identity sequence controls action) := by
  unfold submitAction
  split
  · exact (h.keeps owner).refuses (by simp)
  next host' haccept =>
  obtain ⟨hkeeps, -⟩ := accept_keeps h haccept
  split
  · exact hkeeps.refuses (by simp)
  refine unwindScoped_concludes hkeeps ?_
  have hsame := hkeeps.sound.keeps owner
  split
  · exact ⟨hsame, by simp⟩
  split
  · exact ⟨hsame.withBackend _, by simp⟩
  · exact ⟨hsame.withBackend _, by simp⟩
  · next backend failure _ =>
    obtain ⟨hclose, hclosed⟩ := (hkeeps.sound.withBackend backend).close owner
    exact ⟨(hsame.withBackend backend).trans hclose, fun _ _ _ => hclosed⟩

theorem updateDestination_spec (h : host.Sound) (owner : Participant) (identity : TargetIdentity) (target : B.Target) :
    host.Keeps (host.updateDestination owner identity target).1 owner ∧
      ((host.updateDestination owner identity target).2 = .panicked →
        (host.updateDestination owner identity target).1.ownership.sessions.lookup owner = none) := by
  unfold updateDestination
  split
  · exact ⟨h.keeps owner, by simp⟩
  split
  · exact ⟨h.keeps owner, by simp⟩
  have hclose := fun backend => (h.withBackend backend).close owner
  have hsame := h.keeps owner
  unfold unwindScoped
  dsimp only
  cases hprevious : host.targets.lookup owner with
  | none => exact ⟨hsame.trans (h.close owner).1, fun _ => (h.close owner).2⟩
  | some previous =>
    dsimp only
    cases hrefreshed : B.refreshed host.backend previous target with
    | mk backend outcome =>
      cases outcome with
      | panicked => exact ⟨(hsame.withBackend backend).trans (hclose backend).1, fun _ => (hclose backend).2⟩
      | returned done =>
        refine ⟨⟨⟨h.held, h.justified, fun p => ?_, h.fresh⟩, fun _ _ => rfl, fun p hp => lookup_insert_ne hp, [],
          by simp, by simp⟩, by simp⟩
        by_cases hp : p = owner
        · subst hp
          rw [← h.targets p, hprevious]
          simp
        · rw [← h.targets p]
          exact congrArg Option.isSome (lookup_insert_ne hp)

theorem open_keeps (h : host.Sound) (identity : TargetIdentity) (collisionDomain : String) (target : B.Target) :
    (host.open_ identity collisionDomain target).1.Sound ∧ (host.open_ identity collisionDomain target).1.log = host.log ∧
      ∀ p, (host.ownership.sessions.lookup p).isSome →
        (host.open_ identity collisionDomain target).1.ownership.sessions.lookup p = host.ownership.sessions.lookup p ∧
        (host.open_ identity collisionDomain target).1.targets.lookup p = host.targets.lookup p := by
  unfold open_
  split
  · exact ⟨h, rfl, fun _ _ => ⟨rfl, rfl⟩⟩
  next ownership owner hopen =>
  obtain ⟨hnone, hheld, hothers, hsome, hnext, hsequence⟩ := Ownership.open_eq_ok hopen h.fresh
  refine ⟨⟨hheld.trans h.held, h.justified, fun p => ?_, fun p hp => ?_⟩, rfl, fun p hp => ?_⟩
  · by_cases hp : p = owner
    · subst hp
      simp [hsome]
    · rw [hothers p hp, ← h.targets p]
      exact congrArg Option.isSome (lookup_insert_ne hp)
  · dsimp only at hp ⊢
    rw [hnext]
    by_cases howner : p = owner
    · rw [howner, hsequence]
    · rw [hothers p howner] at hp
      exact Nat.le_succ_of_le (h.fresh p hp)
  · have howner : p ≠ owner := by
      rintro rfl
      simp [hnone] at hp
    exact ⟨hothers p howner, lookup_insert_ne howner⟩

end InputHost

def Answer.broken : Answer B → Bool
  | .failed (.post _ _) | .unwound => true
  | _ => false

def Call.owner : Call B → Option Participant
  | .open .. => none
  | .submit owner _ _ _ | .submitPrepared owner _ _ _ | .submitAction owner _ _ _ _ | .updateDestination owner _ _
  | .close owner => some owner

namespace InputHost

variable {host : InputHost B}

theorem step_keeps (h : host.Sound) {call : Call B} {owner : Participant} (howner : call.owner = some owner) :
    host.Keeps (host.step call).1 owner ∧
      ((host.step call).2.broken = true → (host.step call).1.ownership.sessions.lookup owner = none) := by
  have hconcludes : ∀ done, host.Concludes owner done → host.Keeps done.1 owner ∧
      (done.2.answer.broken = true → done.1.ownership.sessions.lookup owner = none) := by
    rintro ⟨host', outcome⟩ hdone
    refine ⟨hdone.toKeeps, fun hbroken => ?_⟩
    rcases outcome with (failure | done) | _
    · cases failure with
      | post failure cleanup => exact hdone.closes failure cleanup rfl
      | _ => simp [Outcome.answer, Answer.broken] at hbroken
    · simp [Outcome.answer, Answer.broken] at hbroken
    · exact hdone.unwinds rfl
  cases call with
  | «open» identity collisionDomain target => simp [Call.owner] at howner
  | submit p identity sequence event =>
    obtain rfl := Option.some.inj howner
    exact hconcludes _ (submit_concludes h p identity sequence event)
  | submitPrepared p identity sequence packet =>
    obtain rfl := Option.some.inj howner
    exact hconcludes _ (submitPrepared_concludes h p identity sequence packet)
  | submitAction p identity sequence controls action =>
    obtain rfl := Option.some.inj howner
    exact hconcludes _ (submitAction_concludes h p identity sequence controls action)
  | updateDestination p identity target =>
    obtain rfl := Option.some.inj howner
    obtain ⟨hkeeps, hpanicked⟩ := updateDestination_spec h p identity target
    unfold step
    dsimp only
    split
    · next he =>
      rw [he] at hkeeps
      exact ⟨hkeeps, by simp [Answer.broken]⟩
    · next he =>
      rw [he] at hkeeps
      exact ⟨hkeeps, by simp [Answer.broken]⟩
    · next he =>
      rw [he] at hkeeps hpanicked
      exact ⟨hkeeps, fun _ => hpanicked rfl⟩
  | close p =>
    obtain rfl := Option.some.inj howner
    exact ⟨(h.close p).1, fun _ => (h.close p).2⟩

theorem step_sound (h : host.Sound) (call : Call B) : (host.step call).1.Sound := by
  cases hcall : call.owner with
  | some owner => exact (step_keeps h hcall).1.sound
  | none =>
    cases call with
    | «open» identity collisionDomain target =>
      have hopen := (open_keeps h identity collisionDomain target).1
      unfold step
      dsimp only
      split
      · next he => rwa [he] at hopen
      · next he => rwa [he] at hopen
    | _ => simp [Call.owner] at hcall

theorem run_sound (h : host.Sound) (calls : List (Call B)) : (host.run calls).Sound := by
  induction calls generalizing host with
  | nil => exact h
  | cons call calls ih => exact ih (step_sound h call)

theorem new_sound (backend : B.State) (registry maxSessions maxHeld : Nat) :
    (InputHost.new backend registry maxSessions maxHeld).Sound := by
  refine ⟨rfl, Each.nil, fun _ => rfl, fun p hp => ?_⟩
  simp [InputHost.new, Ownership.new] at hp

theorem foldl_close_spec (h : host.Sound) (owners : List Participant) :
    (owners.foldl (fun host owner => (host.close owner).1) host).Sound ∧
      (∀ p, p ∈ owners ∨ host.ownership.sessions.lookup p = none →
        (owners.foldl (fun host owner => (host.close owner).1) host).ownership.sessions.lookup p = none) ∧
      host.log <+: (owners.foldl (fun host owner => (host.close owner).1) host).log := by
  induction owners generalizing host with
  | nil => exact ⟨h, fun p hp => hp.resolve_left (by simp), prefix_rfl⟩
  | cons owner owners ih =>
    obtain ⟨hkeeps, hclosed⟩ := h.close owner
    obtain ⟨hsound, hnone, hlog⟩ := ih hkeeps.sound
    refine ⟨hsound, fun p hp => hnone p ?_, ?_⟩
    · by_cases hsame : p = owner
      · subst hsame
        exact .inr hclosed
      · rw [hkeeps.only.sessions p hsame]
        exact hp.imp_left fun hmem => (mem_cons.mp hmem).resolve_left hsame
    · obtain ⟨posts, hposts, -⟩ := hkeeps.only.posts
      exact (hposts ▸ prefix_append _ _).trans hlog

theorem drop_spec (h : host.Sound) :
    host.drop.Sound ∧ (∀ p, host.drop.ownership.sessions.lookup p = none) ∧ host.log <+: host.drop.log := by
  obtain ⟨hsound, hnone, hlog⟩ := foldl_close_spec h host.ownership.participants
  refine ⟨hsound, fun p => hnone p ?_, hlog⟩
  cases hlookup : host.ownership.sessions.lookup p with
  | none => exact .inr rfl
  | some session =>
    refine .inl ((perm_insertionSort _ _).mem_iff.mpr ?_)
    exact lookup_isSome.mp (by simp [hlookup])

end InputHost

/-! ## What the log of a closed participant shows -/

def Post.Ends (post : Post B) (owner : Participant) (control : B.Control) : Prop :=
  post.owner = owner ∧ (post.purpose = .up control ∨ post.purpose = .release control)

variable {control : B.Control}

theorem isSome_settle {due : Participant → B.Control → Option B.Packet} {post : Post B} {owner : Participant}
    (hdue : (due owner control).isSome) (h : ¬post.Ends owner control) : (post.settle due owner control).isSome := by
  unfold Post.settle Post.change
  unfold Post.Ends at h
  cases hpurpose : post.purpose with
  | down c release =>
    cases hcertified : post.outcome.certified with
    | true => simpa using hdue
    | false =>
      simp only [false_eq_true, if_false, setRelease]
      split
      · rfl
      · exact hdue
  | moveHeld c release =>
    cases hcertified : post.outcome.certified with
    | true => simpa using hdue
    | false =>
      simp only [false_eq_true, if_false, setRelease]
      split
      · rfl
      · exact hdue
  | up c =>
    simp only [setRelease]
    split
    · next hsame => exact absurd ⟨hsame.1.symm, .inl (hsame.2 ▸ hpurpose)⟩ h
    · exact hdue
  | release c =>
    simp only [setRelease]
    split
    · next hsame => exact absurd ⟨hsame.1.symm, .inr (hsame.2 ▸ hpurpose)⟩ h
    · exact hdue
  | «repeat» c => exact hdue
  | action => exact hdue

theorem exists_ends {log later : List (Post B)} {owner : Participant}
    (hdue : (outstanding log owner control).isSome) (hover : outstanding (log ++ later) owner control = none) :
    ∃ between last rest, later = between ++ last :: rest ∧ last.Ends owner control := by
  induction later generalizing log with
  | nil =>
    rw [append_nil] at hover
    simp [hover] at hdue
  | cons post later ih =>
    by_cases hends : post.Ends owner control
    · exact ⟨[], post, later, rfl, hends⟩
    · have hstill : (outstanding (log ++ [post]) owner control).isSome := by
        rw [outstanding_concat]
        exact isSome_settle hdue hends
      obtain ⟨between, last, rest, rfl, hlast⟩ := ih hstill (by simpa using hover)
      exact ⟨post :: between, last, rest, rfl, hlast⟩

/-- After the Down, an explicit Up of the control or its current release is attempted. -/
def Attempted (log : List (Post B)) (owner : Participant) (control : B.Control) (later : List (Post B)) : Prop :=
  ∃ between last rest, later = between ++ last :: rest ∧ last.owner = owner ∧ (last.purpose = .up control ∨
      (last.purpose = .release control ∧ outstanding (log ++ between) owner control = some last.packet))

theorem InputHost.Sound.attempted {host : InputHost B} (h : host.Sound) {before later : List (Post B)} {post : Post B}
    {release : B.Packet} (hlog : host.log = before ++ post :: later)
    (hdown : post.purpose = .down control release) (hcertified : post.outcome.certified = false)
    (hclosed : host.ownership.sessions.lookup post.owner = none) :
    Attempted (before ++ [post]) post.owner control later := by
  have hover : outstanding host.log post.owner control = none := by
    rw [← h.held, Ownership.heldRelease, hclosed]
    rfl
  have hdue : (outstanding (before ++ [post]) post.owner control).isSome := by
    simp [outstanding_concat, Post.settle, Post.change, hdown, hcertified]
  rw [hlog, append_cons] at hover
  obtain ⟨between, last, rest, rfl, howner, hends⟩ := exists_ends hdue hover
  refine ⟨between, last, rest, rfl, howner, hends.imp_right fun hrelease => ⟨hrelease, ?_⟩⟩
  have hplace : host.log = (before ++ [post] ++ between) ++ last :: rest := by
    rw [hlog]
    simp
  have hlegal : last.Legal (before ++ [post] ++ between) := h.justified.get hplace
  rw [Post.Legal, hrelease, howner] at hlegal
  exact hlegal

def Call.Stale (host : InputHost B) : Call B → Prop
  | .submit owner identity sequence _ | .submitPrepared owner identity sequence _
  | .submitAction owner identity sequence _ _ => ∃ session, host.ownership.sessions.lookup owner = some session ∧
    (session.target ≠ identity ∨ ∃ last, session.lastSequence = some last ∧ sequence ≤ last)
  | .updateDestination owner identity _ => ∃ session, host.ownership.sessions.lookup owner = some session ∧
    session.target ≠ identity
  | .open .. | .close _ => False

theorem accept_stale {host : InputHost B} {owner : Participant} {identity : TargetIdentity} {sequence : Nat}
    {session : Session B.Control B.Packet} (hsession : host.ownership.sessions.lookup owner = some session)
    (h : session.target ≠ identity ∨ ∃ last, session.lastSequence = some last ∧ sequence ≤ last) :
    host.accept owner identity sequence = .error .staleInput := by
  have htarget : host.ownership.target owner = .ok session.target := Ownership.target_eq_ok.mpr ⟨session, hsession, rfl⟩
  by_cases hidentity : session.target = identity
  · obtain ⟨last, hlast, hle⟩ := h.resolve_left fun hne => hne hidentity
    simp [InputHost.accept, htarget, hidentity, Ownership.acceptSequence, Ownership.session, hsession, hlast, hle, bind,
      Except.bind]
  · simp [InputHost.accept, htarget, hidentity, bind, Except.bind]

theorem step_stale {host : InputHost B} {call : Call B} (h : call.Stale host) :
    host.step call = (host, .failed (.ownership .staleInput)) := by
  cases call with
  | submit owner identity sequence event =>
    obtain ⟨session, hsession, hstale⟩ := h
    simp [InputHost.step, InputHost.submit, accept_stale hsession hstale, Outcome.answer]
  | submitPrepared owner identity sequence packet =>
    obtain ⟨session, hsession, hstale⟩ := h
    simp [InputHost.step, InputHost.submitPrepared, accept_stale hsession hstale, Outcome.answer]
  | submitAction owner identity sequence controls action =>
    obtain ⟨session, hsession, hstale⟩ := h
    simp [InputHost.step, InputHost.submitAction, accept_stale hsession hstale, Outcome.answer]
  | updateDestination owner identity target =>
    obtain ⟨session, hsession, hstale⟩ := h
    have htarget : host.ownership.target owner = .ok session.target := Ownership.target_eq_ok.mpr ⟨session, hsession, rfl⟩
    simp [InputHost.step, InputHost.updateDestination, htarget, hstale]
  | «open» identity collisionDomain target => exact h.elim
  | close owner => exact h.elim

def InputHost.Reachable (host : InputHost B) : Prop :=
  ∃ backend registry maxSessions maxHeld calls, host = (InputHost.new backend registry maxSessions maxHeld).run calls

theorem InputHost.Reachable.sound {host : InputHost B} (h : host.Reachable) : host.Sound := by
  obtain ⟨backend, registry, maxSessions, maxHeld, calls, rfl⟩ := h
  exact run_sound (new_sound backend registry maxSessions maxHeld) calls

/-- Whatever the calls and however the backend answers each post:
a control whose Down may have been dispatched has an Up or its current release attempted by the time its participant is
closed, and by the time the host is dropped;
nothing is released that the participant does not hold, and a release is posted as it is due;
the host holds what is outstanding, where a Down that was not dispatched leaves nothing to hold and a move that was
not dispatched leaves the release as it was;
a call touches only its own participant, which is closed where a post failed, and opening one touches none;
and a stale call changes nothing. -/
theorem no_stuck_input {host : InputHost B} (h : host.Reachable) :
    (∀ before post later control release, host.log = before ++ post :: later → post.purpose = .down control release →
      post.outcome.certified = false → host.ownership.sessions.lookup post.owner = none →
      Attempted (before ++ [post]) post.owner control later) ∧
    (∀ before post later control release, host.drop.log = before ++ post :: later → post.purpose = .down control release →
      post.outcome.certified = false → Attempted (before ++ [post]) post.owner control later) ∧
    (∀ before post later, host.drop.log = before ++ post :: later → post.Legal before) ∧ host.log <+: host.drop.log ∧
    host.ownership.heldRelease = outstanding host.log ∧
    (∀ before post later control release, host.log = before ++ post :: later → post.outcome.certified = true →
      (post.purpose = .down control release → outstanding (before ++ [post]) post.owner control = none) ∧
      (post.purpose = .moveHeld control release → ∃ previous, outstanding before post.owner control = some previous ∧
        outstanding (before ++ [post]) post.owner control = some previous)) ∧
    (∀ call owner, call.owner = some owner →
      (∀ p ≠ owner, (host.step call).1.ownership.sessions.lookup p = host.ownership.sessions.lookup p ∧
        (host.step call).1.targets.lookup p = host.targets.lookup p) ∧
      (∃ posts, (host.step call).1.log = host.log ++ posts ∧ ∀ post ∈ posts, post.owner = owner) ∧
      ((host.step call).2.broken = true → (host.step call).1.ownership.sessions.lookup owner = none)) ∧
    (∀ identity domain target p, (host.ownership.sessions.lookup p).isSome →
      (host.step (.open identity domain target)).1.ownership.sessions.lookup p = host.ownership.sessions.lookup p ∧
      (host.step (.open identity domain target)).1.log = host.log) ∧
    (∀ call : Call B, call.Stale host → host.step call = (host, .failed (.ownership .staleInput))) := by
  have hsound := h.sound
  obtain ⟨hdropped, hclosed, hprefix⟩ := InputHost.drop_spec hsound
  refine ⟨?_, ?_, ?_, hprefix, hsound.held, ?_, ?_, ?_, fun call => step_stale⟩
  · intro before post later control release hlog hdown hcertified hgone
    exact hsound.attempted hlog hdown hcertified hgone
  · intro before post later control release hlog hdown hcertified
    exact hdropped.attempted hlog hdown hcertified (hclosed post.owner)
  · intro before post later hlog
    exact hdropped.justified.get hlog
  · intro before post later control release hlog hcertified
    have hlegal : post.Legal before := hsound.justified.get hlog
    constructor
    · intro hdown
      rw [Post.Legal, hdown] at hlegal
      simpa [outstanding_concat, Post.settle, Post.change, hdown, hcertified] using hlegal
    · intro hmoved
      rw [Post.Legal, hmoved] at hlegal
      obtain ⟨previous, hprevious⟩ := Option.isSome_iff_exists.mp hlegal
      refine ⟨previous, hprevious, ?_⟩
      simpa [outstanding_concat, Post.settle, Post.change, hmoved, hcertified] using hprevious
  · intro call owner howner
    obtain ⟨hkeeps, hbroken⟩ := InputHost.step_keeps hsound howner
    exact ⟨fun p hp => ⟨hkeeps.only.sessions p hp, hkeeps.only.targets p hp⟩, hkeeps.only.posts, hbroken⟩
  · intro identity domain target p hp
    obtain ⟨-, hlog, hothers⟩ := InputHost.open_keeps hsound identity domain target
    unfold InputHost.step
    dsimp only
    split
    · next he =>
      rw [he] at hlog hothers
      exact ⟨(hothers p hp).1, hlog⟩
    · next he =>
      rw [he] at hlog hothers
      exact ⟨(hothers p hp).1, hlog⟩

/-- A backend with one key that never knows whether its packets arrived. -/
def doubtful : InputBackend where
  State := Unit
  Target := Unit
  Control := Unit
  Packet := Bool
  Error := Unit
  Event := Unit
  Invalid := Unit
  control := inferInstance
  validate := fun _ => .ok ()
  prepare := fun state _ _ _ => (state, .returned (.ok (.down () true false)))
  post := fun state _ _ => (state, .returned (.error (.uncertain ())))
  refreshed := fun state _ _ => (state, .returned ())
  closed := fun state _ => (state, .returned ())

def doubtfulHost : InputHost doubtful :=
  (InputHost.new () 1 1 1).run [.open ⟨"surface", 1⟩ "application" (), .submit ⟨1, 1⟩ ⟨"surface", 1⟩ 1 ()]

theorem doubtful_key_released : doubtfulHost.Reachable ∧ ∃ post later, doubtfulHost.log = post :: later ∧
    post.purpose = .down () false ∧ Attempted [post] post.owner () later := by
  have hreachable : doubtfulHost.Reachable := ⟨(), 1, 1, 1, _, rfl⟩
  have hlog : doubtfulHost.log =
      { owner := ⟨1, 1⟩, purpose := .down () false, packet := true, outcome := .returned (.error (.uncertain ())) } ::
        doubtfulHost.log.tail := rfl
  exact ⟨hreachable, _, _, hlog, rfl, (no_stuck_input hreachable).1 [] _ _ () false hlog rfl rfl rfl⟩

end Cantrip.Interaction
