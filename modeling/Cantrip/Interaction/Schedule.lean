import Cantrip.Lib.Post
import Mathlib.Data.List.GetD
import Mathlib.Data.List.Nodup
import Mathlib.Data.List.Basic
import Mathlib.Data.List.Induction

/-!
# Scheduled input (`cantrip_interaction/src/schedule.rs`)

The callbacks answer as they like: every answer may depend on all calls before it. A run is the list of these
calls with their answers, from which everything else is read: what was posted (`posted`), what the waits returned
(`elapsed`), which keys are down (`holding`) and what failed first.
-/

namespace Cantrip.Interaction.Schedule

open Lib List

variable {P E : Type}

inductive Transition (P : Type)
  | down (key : Nat)
  | up (key : Nat)
  /-- Custom-cursor presentation only. -/
  | move (point : P)

/-- Times are in nanoseconds. -/
structure Frame (P : Type) where
  at_ : Nat
  events : List (Transition P)

inductive Call (P E : Type)
  | wait (at_ : Nat) (answer : Except E Nat)
  | check (answer : Except E Unit)
  | prepare (event : Transition P) (answer : Except E Unit)
  | post (event : Transition P) (answer : Except E Unit)
  /-- The Up that `release_all` posts. -/
  | cleanup (key : Nat) (answer : Except E Unit)

structure Callbacks (P E : Type) where
  wait : List (Call P E) → Nat → Except E Nat
  check : List (Call P E) → Except E Unit
  prepare : List (Call P E) → Transition P → Except E Unit
  post : List (Call P E) → Transition P → Except E Unit

structure DispatchFailure (E : Type) where
  source : E
  inputBegan : Bool

/-- The variables of `dispatch_fallible`, with all calls made so far. -/
structure State (P E : Type) where
  keys : List Bool
  began : Bool
  trace : List (Call P E)

abbrev Dispatch (P E α : Type) := EStateM E (State P E) α

section

variable (callbacks : Callbacks P E)

def ask {α : Type} (answer : List (Call P E) → Except E α) (call : Except E α → Call P E) : Dispatch P E α := fun s =>
  let a := answer s.trace
  let s := { s with trace := s.trace ++ [call a] }
  match a with
  | .ok value => .ok value s
  | .error error => .error error s

def wait (at_ : Nat) : Dispatch P E Nat := ask (callbacks.wait · at_) (.wait at_)

def check : Dispatch P E Unit := ask callbacks.check .check

def prepare (event : Transition P) : Dispatch P E Unit := ask (callbacks.prepare · event) (.prepare event)

def post (event : Transition P) : Dispatch P E Unit := ask (callbacks.post · event) (.post event)

def arm (s : State P E) : Transition P → State P E
  | .down key => { s with keys := s.keys.set key true, began := true }
  | .up key => { s with keys := s.keys.set key false, began := true }
  | .move _ => s

/-- `late_visual && matches!(event, Transition::Move(_))`. -/
def skipped (late : Bool) : Transition P → Bool
  | .move _ => late
  | _ => false

def dispatchEvents (late : Bool) : List (Transition P) → Dispatch P E Unit
  | [] => pure ()
  | event :: events =>
    if skipped late event then dispatchEvents late events
    else do
      check callbacks
      prepare callbacks event
      modify (arm · event)
      post callbacks event
      dispatchEvents late events

def lateVisual (elapsed at_ : Nat) : Bool := 16000000 < elapsed - at_

def dispatchFrames : List (Frame P) → Dispatch P E Unit
  | [] => pure ()
  | frame :: frames => do
    let elapsed ← wait callbacks frame.at_
    check callbacks
    dispatchEvents callbacks (lateVisual elapsed frame.at_) frame.events
    dispatchFrames frames

/-- The loop of `release_all` over the keys that are left, with its result so far. -/
def releaseKeys : List Nat → State P E → Except E Unit → State P E × Except E Unit
  | [], s, result => (s, result)
  | key :: keys, s, result =>
    if s.keys.getD key false then
      let answer := callbacks.post s.trace (.up key)
      let s := { s with keys := s.keys.set key false, trace := s.trace ++ [.cleanup key answer] }
      match answer, result with
      | .error error, .ok () => releaseKeys keys s (.error error)
      | _, result => releaseKeys keys s result
    else releaseKeys keys s result

def releaseAll (s : State P E) : State P E × Except E Unit :=
  releaseKeys callbacks (List.range s.keys.length).reverse s (.ok ())

/-- The result with all calls that were made. `held` is dropped at the end, which releases once more. -/
def dispatchFallible (frames : List (Frame P)) (count : Nat) : Except (DispatchFailure E) Unit × List (Call P E) :=
  let start : State P E := { keys := List.replicate count false, began := false, trace := [] }
  let (s, result) : State P E × Except E Unit :=
    match dispatchFrames callbacks frames start with
    | .ok () s => (s, .ok ())
    | .error error s => (s, .error error)
  let (s, cleanup) := releaseAll callbacks s
  let result := match result with
    | .ok () => cleanup
    | .error error => .error error
  let (dropped, _) := releaseAll callbacks s
  (result.mapError fun source => { source, inputBegan := s.began }, dropped.trace)

end

/-! ## What the calls say -/

namespace Call

def error : Call P E → Option E
  | .wait _ (.error e) | .check (.error e) | .prepare _ (.error e) | .post _ (.error e) | .cleanup _ (.error e) => some e
  | _ => none

def posted : Call P E → Option (Transition P)
  | .post event _ => some event
  | _ => none

def released : Call P E → Option Nat
  | .cleanup key _ => some key
  | _ => none

def elapsed : Call P E → Option Nat
  | .wait _ (.ok elapsed) => some elapsed
  | _ => none

def isInput : Call P E → Bool
  | .post (.down _) _ | .post (.up _) _ | .cleanup _ _ => true
  | _ => false

def Lifts (key : Nat) : Call P E → Prop
  | .post (.up k) _ | .cleanup k _ => k = key
  | _ => False

def hold (key : Nat) (held : Bool) : Call P E → Bool
  | .post (.down k) _ => if k = key then true else held
  | .post (.up k) _ | .cleanup k _ => if k = key then false else held
  | _ => held

end Call

/-- The last post of the key was a Down. -/
def holding (trace : List (Call P E)) (key : Nat) : Bool := trace.foldl (Call.hold key) false

def Transition.InRange (count : Nat) : Transition P → Prop
  | .down key | .up key => key < count
  | .move _ => True

def due (frames : List (Frame P)) (waits : List Nat) : List (Transition P) :=
  (frames.zip waits).flatMap fun (frame, elapsed) =>
    frame.events.filter fun event => !skipped (lateVisual elapsed frame.at_) event

/-! ## One call -/

section

variable {callbacks : Callbacks P E} {count : Nat} {s : State P E}

/-- The variables agree with the calls made so far, and nothing was cleaned up yet. -/
structure Steady (count : Nat) (s : State P E) : Prop where
  length : s.keys.length = count
  keys : ∀ key, s.keys.getD key false = holding s.trace key
  began : s.began = s.trace.any Call.isInput
  scheduled : ∀ call ∈ s.trace, call.released = none

/-- No call has failed; these events were posted, and the waits returned this. -/
structure After (count : Nat) (posts : List (Transition P)) (waits : List Nat) (s : State P E) : Prop where
  steady : Steady count s
  clean : ∀ call ∈ s.trace, call.error = none
  posted : s.trace.filterMap Call.posted = posts
  elapsed : s.trace.filterMap Call.elapsed = waits

/-- The last call has failed, and no other; of these events the first were posted. -/
structure Stopped (count : Nat) (posts : List (Transition P)) (waits : List Nat) (error : E) (s : State P E) : Prop where
  steady : Steady count s
  stop : ∃ before last, s.trace = before ++ [last] ∧ last.error = some error ∧ ∀ call ∈ before, call.error = none
  posted : s.trace.filterMap Call.posted <+: posts
  elapsed : s.trace.filterMap Call.elapsed = waits

/-- What holds when a computation returns, and when it fails. -/
def Ends {α : Type} (result : EStateM.Result E (State P E) α) (ok : α → State P E → Prop)
    (failed : E → State P E → Prop) : Prop :=
  match result with
  | .ok a s => ok a s
  | .error e s => failed e s

theorem Ends.bind {α β : Type} {x : Dispatch P E α} {f : α → Dispatch P E β} {between : α → State P E → Prop}
    {ok : β → State P E → Prop} {failed : E → State P E → Prop} (hx : Ends (x s) between failed)
    (hf : ∀ a s', between a s' → Ends (f a s') ok failed) : Ends ((x >>= f) s) ok failed := by
  simp only [Bind.bind, EStateM.bind]
  cases hrun : x s with
  | ok a s' =>
    rw [hrun] at hx
    exact hf a s' hx
  | error e s' =>
    rw [hrun] at hx
    exact hx

theorem Ends.imp {α : Type} {result : EStateM.Result E (State P E) α} {ok ok' : α → State P E → Prop}
    {failed failed' : E → State P E → Prop} (h : Ends result ok failed) (hok : ∀ a s, ok a s → ok' a s)
    (hfailed : ∀ e s, failed e s → failed' e s) : Ends result ok' failed' := by
  cases result with
  | ok a s => exact hok a s h
  | error e s => exact hfailed e s h

@[simp] theorem holding_concat (trace : List (Call P E)) (call : Call P E) (key : Nat) :
    holding (trace ++ [call]) key = call.hold key (holding trace key) := by simp [holding]

variable {call : Call P E} {posts : List (Transition P)} {waits : List Nat} {event : Transition P}

theorem Steady.push (h : Steady count s) (hhold : ∀ key held, call.hold key held = held)
    (hinput : call.isInput = false) (hreleased : call.released = none) :
    Steady count { s with trace := s.trace ++ [call] } := by
  refine ⟨h.length, fun key => ?_, ?_, fun c hc => ?_⟩
  · rw [holding_concat, hhold]
    exact h.keys key
  · simpa [hinput] using h.began
  · rcases mem_append.mp hc with hc | hc
    · exact h.scheduled c hc
    · rw [mem_singleton.mp hc]
      exact hreleased

theorem getD_set (keys : List Bool) (key key' : Nat) (value : Bool) (h : key < keys.length) :
    (keys.set key value).getD key' false = if key = key' then value else keys.getD key' false := by
  rw [getD_eq_getElem?_getD, getElem?_set, getD_eq_getElem?_getD]
  split_ifs with hkey
  · rfl
  · rfl

theorem Steady.post (h : Steady count s) (hrange : event.InRange count) (answer : Except E Unit) :
    Steady count { arm s event with trace := s.trace ++ [.post event answer] } := by
  have hscheduled : ∀ call ∈ s.trace ++ [Call.post event answer], call.released = none := by
    intro call hcall
    rcases mem_append.mp hcall with hcall | hcall
    · exact h.scheduled call hcall
    · rw [mem_singleton.mp hcall]
      rfl
  cases event with
  | down key =>
    have hkey : key < s.keys.length := by
      rw [h.length]
      exact hrange
    refine ⟨(length_set).trans h.length, fun key' => ?_, by simp [arm, Call.isInput], hscheduled⟩
    rw [holding_concat, ← h.keys]
    exact getD_set s.keys key key' true hkey
  | up key =>
    have hkey : key < s.keys.length := by
      rw [h.length]
      exact hrange
    refine ⟨(length_set).trans h.length, fun key' => ?_, by simp [arm, Call.isInput], hscheduled⟩
    rw [holding_concat, ← h.keys]
    exact getD_set s.keys key key' false hkey
  | move point => exact h.push (fun _ _ => rfl) rfl rfl

theorem After.push (h : After count posts waits s)
    {keys : List Bool} {began : Bool} (hsteady : Steady count { keys, began, trace := s.trace ++ [call] })
    (hclean : call.error = none) :
    After count (posts ++ call.posted.toList) (waits ++ call.elapsed.toList)
      { keys, began, trace := s.trace ++ [call] } := by
  refine ⟨hsteady, fun c hc => ?_, ?_, ?_⟩
  · rcases mem_append.mp hc with hc | hc
    · exact h.clean c hc
    · rw [mem_singleton.mp hc]
      exact hclean
  · rw [filterMap_append, h.posted]
    cases hposted : call.posted <;> simp [hposted]
  · rw [filterMap_append, h.elapsed]
    cases helapsed : call.elapsed <;> simp [helapsed]

theorem After.stop (h : After count posts waits s) {keys : List Bool} {began : Bool} {error : E}
    (hsteady : Steady count { keys, began, trace := s.trace ++ [call] }) (hfailed : call.error = some error)
    (helapsed : call.elapsed = none) :
    Stopped count (posts ++ call.posted.toList) waits error { keys, began, trace := s.trace ++ [call] } := by
  refine ⟨hsteady, ⟨s.trace, call, rfl, hfailed, h.clean⟩, ?_, ?_⟩
  · rw [filterMap_append, h.posted]
    cases hposted : call.posted <;> simp [hposted]
  · rw [filterMap_append, h.elapsed]
    simp [helapsed]

theorem Stopped.mono {posts' : List (Transition P)} {error : E}
    (h : Stopped count posts waits error s) (hposts : posts <+: posts') : Stopped count posts' waits error s :=
  ⟨h.steady, h.stop, h.posted.trans hposts, h.elapsed⟩

structure Quiet {α : Type} (call : Except E α → Call P E) : Prop where
  hold : ∀ answer key held, (call answer).hold key held = held
  isInput : ∀ answer, (call answer).isInput = false
  released : ∀ answer, (call answer).released = none
  posted : ∀ answer, (call answer).posted = none
  ok : ∀ a, (call (.ok a)).error = none
  error : ∀ e, (call (.error e)).error = some e
  elapsed : ∀ e, (call (.error e)).elapsed = none

theorem quiet_wait (at_ : Nat) : Quiet (Call.wait at_ : Except E Nat → Call P E) :=
  ⟨fun _ _ _ => rfl, fun _ => rfl, fun _ => rfl, fun _ => rfl, fun _ => rfl, fun _ => rfl, fun _ => rfl⟩

theorem quiet_check : Quiet (Call.check : Except E Unit → Call P E) :=
  ⟨fun _ _ _ => rfl, fun _ => rfl, fun _ => rfl, fun _ => rfl, fun _ => rfl, fun _ => rfl, fun _ => rfl⟩

theorem quiet_prepare (event : Transition P) : Quiet (Call.prepare event : Except E Unit → Call P E) :=
  ⟨fun _ _ _ => rfl, fun _ => rfl, fun _ => rfl, fun _ => rfl, fun _ => rfl, fun _ => rfl, fun _ => rfl⟩

theorem ask_ends {α : Type} {answer : List (Call P E) → Except E α} {call : Except E α → Call P E} (hquiet : Quiet call)
    (h : After count posts waits s) :
    Ends (ask answer call s) (fun a s' => After count posts (waits ++ (call (.ok a)).elapsed.toList) s')
      (Stopped count posts waits) := by
  have hsteady := h.steady.push (hquiet.hold (answer s.trace)) (hquiet.isInput _) (hquiet.released _)
  unfold ask
  cases hanswer : answer s.trace with
  | ok value =>
    rw [hanswer] at hsteady
    simpa [Ends, hquiet.posted] using h.push hsteady (hquiet.ok value)
  | error error =>
    rw [hanswer] at hsteady
    simpa [Ends, hquiet.posted] using h.stop hsteady (hquiet.error error) (hquiet.elapsed error)

theorem wait_ends {at_ : Nat} (h : After count posts waits s) :
    Ends (wait callbacks at_ s) (fun elapsed s' => After count posts (waits ++ [elapsed]) s') (Stopped count posts waits) :=
  ask_ends (quiet_wait at_) h

theorem check_ends (h : After count posts waits s) :
    Ends (check callbacks s) (fun _ s' => After count posts waits s') (Stopped count posts waits) := by
  simpa [check, Call.elapsed] using ask_ends quiet_check h

theorem prepare_ends (h : After count posts waits s) :
    Ends (prepare callbacks event s) (fun _ s' => After count posts waits s') (Stopped count posts waits) := by
  simpa [prepare, Call.elapsed] using ask_ends (quiet_prepare event) h

theorem post_ends (hrange : event.InRange count) (h : After count posts waits s) : Ends ((do
        modify (arm · event)
        post callbacks event : Dispatch P E Unit) s)
      (fun _ s' => After count (posts ++ [event]) waits s') (Stopped count (posts ++ [event]) waits) := by
  have htrace : (arm s event).trace = s.trace := by cases event <;> rfl
  rw [run_modify, post, ask]
  cases hanswer : callbacks.post (arm s event).trace event with
  | ok value =>
    have hafter := h.push (h.steady.post hrange (.ok value)) rfl
    simpa [Ends, hanswer, htrace, Call.posted, Call.elapsed] using hafter
  | error error =>
    have hstop := h.stop (h.steady.post hrange (.error error)) rfl rfl
    simpa [Ends, hanswer, htrace, Call.posted] using hstop

theorem dispatchEvents_ends {late : Bool} {events : List (Transition P)} (hrange : ∀ event ∈ events, event.InRange count)
    (h : After count posts waits s) :
    Ends (dispatchEvents callbacks late events s)
      (fun _ s' => After count (posts ++ events.filter fun event => !skipped late event) waits s')
      (Stopped count (posts ++ events.filter fun event => !skipped late event) waits) := by
  induction events generalizing s posts with
  | nil => simpa [dispatchEvents, Ends, pure, EStateM.pure] using h
  | cons event events ih =>
    have hrest : ∀ event ∈ events, event.InRange count := fun e he => hrange e (mem_cons_of_mem _ he)
    rw [dispatchEvents]
    by_cases hskipped : skipped late event
    · rw [if_pos hskipped, filter_cons_of_neg (by simp [hskipped])]
      exact ih hrest h
    · rw [if_neg hskipped, filter_cons_of_pos (by simp [hskipped])]
      -- before the event is posted, what is posted is a beginning of what is due
      have hearlier : posts <+: posts ++ event :: events.filter fun event => !skipped late event := prefix_append _ _
      have hposted : posts ++ [event] <+: posts ++ event :: events.filter fun event => !skipped late event :=
        ⟨_, append_assoc _ _ _⟩
      refine Ends.bind ((check_ends h).imp (fun _ _ h => h) fun _ _ h => h.mono hearlier) fun _ s₁ h₁ => ?_
      refine Ends.bind ((prepare_ends h₁).imp (fun _ _ h => h) fun _ _ h => h.mono hearlier) fun _ s₂ h₂ => ?_
      rw [← bind_assoc]
      refine Ends.bind ((post_ends (hrange event mem_cons_self) h₂).imp (fun _ _ h => h)
        fun _ _ h => h.mono hposted) fun _ s₃ h₃ => ?_
      simpa using ih hrest h₃

variable (callbacks) in
theorem dispatchFrames_ends {frames : List (Frame P)}
    (hrange : ∀ frame ∈ frames, ∀ event ∈ frame.events, event.InRange count) (h : After count posts waits s) :
    Ends (dispatchFrames callbacks frames s)
      (fun _ s' => ∃ more, more.length = frames.length ∧ After count (posts ++ due frames more) (waits ++ more) s')
      (fun error s' => ∃ more, Stopped count (posts ++ due frames more) (waits ++ more) error s') := by
  induction frames generalizing s posts waits with
  | nil => exact ⟨[], rfl, by simpa [due] using h⟩
  | cons frame frames ih =>
    have hrest : ∀ frame ∈ frames, ∀ event ∈ frame.events, event.InRange count :=
      fun f hf => hrange f (mem_cons_of_mem _ hf)
    rw [dispatchFrames]
    refine Ends.bind ((wait_ends h).imp (fun _ _ h => h) fun _ _ h => ⟨[], by simpa [due] using h⟩) fun elapsed s₁ h₁ => ?_
    have hfirst : ∀ more, due (frame :: frames) (elapsed :: more) =
        (frame.events.filter fun event => !skipped (lateVisual elapsed frame.at_) event) ++ due frames more :=
      fun more => by simp [due]
    refine Ends.bind ((check_ends h₁).imp (fun _ _ h => h) fun _ _ h =>
      ⟨[elapsed], h.mono (prefix_append _ _)⟩) fun _ s₂ h₂ => ?_
    refine Ends.bind ((dispatchEvents_ends (hrange frame mem_cons_self) h₂).imp (fun _ _ h => h) fun _ _ h =>
      ⟨[elapsed], h.mono (by simp [due])⟩) fun _ s₃ h₃ => ?_
    refine (ih hrest h₃).imp ?_ ?_
    · rintro _ s' ⟨more, hlength, hafter⟩
      refine ⟨elapsed :: more, by rw [length_cons, length_cons, hlength], ?_⟩
      rw [hfirst, ← append_assoc]
      simpa using hafter
    · rintro error s' ⟨more, hstopped⟩
      refine ⟨elapsed :: more, ?_⟩
      rw [hfirst, ← append_assoc]
      simpa using hstopped

/-! ## The cleanup -/

def orFailure : Except E Unit → Option E → Except E Unit
  | .ok (), some error => .error error
  | result, _ => result

theorem releaseKeys_held {key : Nat} {keys : List Nat} {result : Except E Unit} (h : s.keys.getD key false = true) :
    releaseKeys callbacks (key :: keys) s result =
      releaseKeys callbacks keys
        { s with keys := s.keys.set key false,
                 trace := s.trace ++ [.cleanup key (callbacks.post s.trace (.up key))] }
        (orFailure result (Call.cleanup (P := P) key (callbacks.post s.trace (.up key))).error) := by
  rw [releaseKeys, if_pos h]
  cases callbacks.post s.trace (.up key) <;> cases result <;> rfl

/-- What the cleanup of these keys adds: one Up for each that is held, and the first failure. -/
structure Released (keys : List Nat) (s : State P E) (result : Except E Unit) (after : State P E × Except E Unit)
    (calls : List (Call P E)) : Prop where
  trace : after.1.trace = s.trace ++ calls
  posted : ∀ call ∈ calls, call.posted = none
  elapsed : ∀ call ∈ calls, call.elapsed = none
  released : calls.map Call.released = (keys.filter (s.keys.getD · false)).map some
  length : after.1.keys.length = s.keys.length
  keys : ∀ key, after.1.keys.getD key false = (s.keys.getD key false && !decide (key ∈ keys))
  began : after.1.began = s.began
  result : after.2 = orFailure result (calls.findSome? Call.error)

theorem releaseKeys_spec {keys : List Nat} (hnodup : keys.Nodup) (s : State P E) (result : Except E Unit) :
    ∃ calls, Released keys s result (releaseKeys callbacks keys s result) calls := by
  induction keys generalizing s result with
  | nil =>
    refine ⟨[], by simp [releaseKeys], by simp, by simp, rfl, rfl, by simp [releaseKeys], rfl, ?_⟩
    cases result <;> rfl
  | cons key keys ih =>
    obtain ⟨hnew, hrest⟩ := nodup_cons.mp hnodup
    cases hheld : s.keys.getD key false with
    | false =>
      have hskip : releaseKeys callbacks (key :: keys) s result = releaseKeys callbacks keys s result := by
        rw [releaseKeys, hheld]
        rfl
      obtain ⟨calls, h⟩ := ih hrest s result
      rw [hskip]
      refine ⟨calls, h.trace, h.posted, h.elapsed, ?_, h.length, fun k => ?_, h.began, h.result⟩
      · rw [h.released, filter_cons_of_neg (by simp only [hheld, Bool.false_eq_true, not_false_eq_true])]
      · rw [h.keys]
        by_cases hk : k = key
        · rw [hk, hheld, Bool.false_and, Bool.false_and]
        · simp only [mem_cons, hk, false_or]
    | true =>
      have hlt : key < s.keys.length := by
        by_contra hge
        rw [getD_eq_default _ _ (by omega)] at hheld
        cases hheld
      rw [releaseKeys_held hheld]
      set call : Call P E := .cleanup key (callbacks.post s.trace (.up key))
      obtain ⟨calls, h⟩ := ih hrest { s with keys := s.keys.set key false, trace := s.trace ++ [call] }
        (orFailure result call.error)
      have hset := fun k => getD_set s.keys key k false hlt
      refine ⟨call :: calls, ?_, ?_, ?_, ?_, ?_, fun k => ?_, h.began, ?_⟩
      · rw [h.trace, append_assoc, singleton_append]
      · exact forall_mem_cons.mpr ⟨rfl, h.posted⟩
      · exact forall_mem_cons.mpr ⟨rfl, h.elapsed⟩
      · have hsame : keys.filter (fun k => (s.keys.set key false).getD k false) = keys.filter (s.keys.getD · false) := by
          refine filter_congr fun k hk => ?_
          rw [hset, if_neg (ne_of_mem_of_not_mem hk hnew).symm]
        rw [map_cons, h.released, hsame, filter_cons_of_pos (p := fun k => s.keys.getD k false) hheld]
        rfl
      · rw [h.length, length_set]
      · rw [h.keys, hset]
        by_cases hk : k = key
        · simp [hk]
        · simp only [if_neg (Ne.symm hk), mem_cons, hk, false_or]
      · rw [h.result, findSome?_cons]
        cases result <;> cases call.error <;> rfl

variable (callbacks) in
theorem releaseAll_spec (s : State P E) :
    ∃ calls, Released (range s.keys.length).reverse s (.ok ()) (releaseAll callbacks s) calls :=
  releaseKeys_spec (nodup_reverse.mpr nodup_range) s (.ok ())

theorem releaseAll_twice (s : State P E) : (releaseAll callbacks (releaseAll callbacks s).1).1.trace = (releaseAll callbacks s).1.trace := by
  obtain ⟨calls, h⟩ := releaseAll_spec callbacks s
  obtain ⟨calls', h'⟩ := releaseAll_spec callbacks (releaseAll callbacks s).1
  have hnone : ∀ key, (releaseAll callbacks s).1.keys.getD key false = false := by
    intro key
    rw [h.keys]
    by_cases hkey : key < s.keys.length
    · simp [hkey]
    · rw [getD_eq_default _ _ (by omega), Bool.false_and]
  have hcalls : calls' = [] := by
    have hreleased := h'.released
    rw [filter_eq_nil_iff.mpr fun key _ => by rw [hnone]; exact Bool.false_ne_true, map_nil] at hreleased
    exact map_eq_nil_iff.mp hreleased
  rw [h'.trace, hcalls, append_nil]

end

section

variable {trace calls : List (Call P E)} {key : Nat}

theorem foldl_hold_true (h : ∀ call ∈ calls, ¬call.Lifts key) : calls.foldl (Call.hold key) true = true := by
  induction calls with
  | nil => rfl
  | cons call calls ih =>
    obtain ⟨hcall, hrest⟩ := forall_mem_cons.mp h
    have hstays : call.hold key true = true := by
      cases call with
      | post event answer =>
        cases event with
        | down k =>
          by_cases hk : k = key
          · simp [Call.hold, hk]
          · simp [Call.hold, hk]
        | up k => exact if_neg hcall
        | move point => rfl
      | cleanup k answer => exact if_neg hcall
      | _ => rfl
    rw [foldl_cons, hstays]
    exact ih hrest

theorem exists_lifts {before after : List (Call P E)} {answer : Except E Unit}
    (h : holding (before ++ .post (.down key) answer :: after) key = false) : ∃ call ∈ after, call.Lifts key := by
  by_contra hnone
  push Not at hnone
  have hdown : (Call.post (.down key) answer : Call P E).hold key (before.foldl (Call.hold key) false) = true := if_pos rfl
  rw [holding, foldl_append, foldl_cons, hdown, foldl_hold_true hnone] at h
  cases h

theorem isInput_of_holding (h : holding trace key = true) : trace.any Call.isInput = true := by
  induction trace using reverseRecOn with
  | nil => cases h
  | append_singleton trace call ih =>
    rw [holding_concat] at h
    rw [any_append, Bool.or_eq_true]
    by_cases hinput : call.isInput = true
    · right
      simpa using hinput
    · left
      refine ih ?_
      have hsame : ∀ held, call.hold key held = held := by
        intro held
        cases call with
        | post event answer =>
          cases event with
          | move point => rfl
          | _ => exact absurd rfl hinput
        | cleanup k answer => exact absurd rfl hinput
        | _ => rfl
      rwa [hsame] at h

end

/-! ## The whole run -/

structure Ended (frames : List (Frame P)) (count : Nat) (result : Except (DispatchFailure E) Unit)
    (schedule cleanup : List (Call P E)) : Prop where
  scheduled : ∀ call ∈ schedule, call.released = none
  /-- No call of the schedule follows one that failed. -/
  stops : ∀ before call after, schedule = before ++ call :: after → call.error.isSome → after = []
  returns : result =
    match (schedule ++ cleanup).findSome? Call.error with
    | none => .ok ()
    | some source => .error { source, inputBegan := (schedule ++ cleanup).any Call.isInput }
  /-- One Up for each key that is down when the schedule stops, the last key first, and nothing else. -/
  released : cleanup.map Call.released = ((List.range count).reverse.filter (holding schedule)).map some
  lifted : ∀ key before answer after, schedule ++ cleanup = before ++ .post (.down key) answer :: after →
    ∃ call ∈ after, call.Lifts key
  posted : schedule.filterMap Call.posted <+: due frames (schedule.filterMap Call.elapsed)
  complete : (∀ call ∈ schedule, call.error = none) →
    schedule.filterMap Call.posted = due frames (schedule.filterMap Call.elapsed) ∧
      (schedule.filterMap Call.elapsed).length = frames.length

section

variable {callbacks : Callbacks P E} {count : Nat} {s : State P E}

variable (callbacks) in
theorem cleanup_spec (h : Steady count s) :
    ∃ cleanup, (releaseAll callbacks s).1.trace = s.trace ++ cleanup ∧
      cleanup.map Call.released = ((range count).reverse.filter (holding s.trace)).map some ∧
      (∀ key before answer after, s.trace ++ cleanup = before ++ .post (.down key) answer :: after →
        ∃ call ∈ after, call.Lifts key) ∧
      (releaseAll callbacks s).1.began = (s.trace ++ cleanup).any Call.isInput ∧
      (releaseAll callbacks s).2 = orFailure (.ok ()) (cleanup.findSome? Call.error) := by
  obtain ⟨cleanup, hreleased⟩ := releaseAll_spec callbacks s
  have hkeys : cleanup.map Call.released = ((range count).reverse.filter (holding s.trace)).map some := by
    rw [hreleased.released, h.length]
    exact congrArg _ (filter_congr fun key _ => h.keys key)
  refine ⟨cleanup, hreleased.trace, hkeys, ?_, ?_, hreleased.result⟩
  · intro key before answer after hsplit
    -- the Down is a call of the schedule
    obtain ⟨middle, hschedule, rfl⟩ : ∃ middle, s.trace = before ++ .post (.down key) answer :: middle ∧
        after = middle ++ cleanup := by
      rcases append_eq_append_iff.mp hsplit with ⟨rest, -, hrest⟩ | ⟨rest, hschedule, hrest⟩
      · have hmem : Call.post (.down key) answer ∈ cleanup := by simp [hrest]
        cases hreleased.posted _ hmem
      · cases rest with
        | nil =>
          have hmem : Call.post (.down key) answer ∈ cleanup := by
            rw [← nil_append cleanup, ← hrest]
            exact mem_cons_self
          cases hreleased.posted _ hmem
        | cons call rest =>
          obtain ⟨rfl, rfl⟩ := List.cons.inj hrest
          exact ⟨rest, hschedule, rfl⟩
    cases hheld : holding s.trace key with
    | false =>
      rw [hschedule] at hheld
      obtain ⟨call, hmem, hlifts⟩ := exists_lifts hheld
      exact ⟨call, mem_append_left _ hmem, hlifts⟩
    | true =>
      have hlt : key < count := by
        by_contra hge
        have hkey := h.keys key
        rw [getD_eq_default _ _ (by rw [h.length]; omega), hheld] at hkey
        cases hkey
      have hmem : some key ∈ cleanup.map Call.released := by
        rw [hkeys]
        simp [hlt, hheld]
      obtain ⟨call, hcall, hkey⟩ := mem_map.mp hmem
      refine ⟨call, mem_append_right _ hcall, ?_⟩
      cases call with
      | cleanup k answer => exact Option.some.inj hkey
      | _ => cases hkey
  · rw [hreleased.began, h.began, any_append]
    cases cleanup with
    | nil => simp
    | cons call cleanup =>
      -- a key that is released was pressed
      have hmem : call.released ∈ ((range count).reverse.filter (holding s.trace)).map some := by
        rw [← hkeys]
        simp
      obtain ⟨key, hkey, -⟩ := mem_map.mp hmem
      rw [isInput_of_holding (mem_filter.mp hkey).2, Bool.true_or]

theorem findSome?_error_eq_none {calls : List (Call P E)} (h : ∀ call ∈ calls, call.error = none) :
    calls.findSome? Call.error = none := findSome?_eq_none_iff.mpr h

/-- The variables at the start. -/
def initial (count : Nat) : State P E := { keys := List.replicate count false, began := false, trace := [] }

theorem dispatchFallible_ok {frames : List (Frame P)} (h : dispatchFrames callbacks frames (initial count) = .ok () s) :
    dispatchFallible callbacks frames count =
      ((releaseAll callbacks s).2.mapError fun source => { source, inputBegan := (releaseAll callbacks s).1.began },
        (releaseAll callbacks (releaseAll callbacks s).1).1.trace) := by
  rw [initial] at h
  unfold dispatchFallible
  simp only [h]

theorem dispatchFallible_error {frames : List (Frame P)} {error : E}
    (h : dispatchFrames callbacks frames (initial count) = .error error s) :
    dispatchFallible callbacks frames count =
      (.error { source := error, inputBegan := (releaseAll callbacks s).1.began },
        (releaseAll callbacks (releaseAll callbacks s).1).1.trace) := by
  rw [initial] at h
  unfold dispatchFallible
  simp only [h]
  rfl

/-- Scheduled input ends released, whatever the callbacks answer. -/
theorem input_ends_released (callbacks : Callbacks P E) (frames : List (Frame P)) (count : Nat)
    (hrange : ∀ frame ∈ frames, ∀ event ∈ frame.events, event.InRange count) :
    ∃ schedule cleanup, (dispatchFallible callbacks frames count).2 = schedule ++ cleanup ∧
      Ended frames count (dispatchFallible callbacks frames count).1 schedule cleanup := by
  have hstart : After count [] [] (initial count : State P E) := by
    refine ⟨⟨length_replicate, fun key => ?_, rfl, by simp [initial]⟩, by simp [initial], rfl, rfl⟩
    by_cases hkey : key < count
    · simp [initial, holding, hkey]
    · simp [initial, holding, hkey]
  have hends := dispatchFrames_ends callbacks hrange hstart
  cases hrun : dispatchFrames callbacks frames (initial count) with
  | ok value s =>
    rw [hrun] at hends
    obtain ⟨waits, hlength, hafter⟩ := hends
    simp only [nil_append] at hafter
    obtain ⟨cleanup, htrace, hreleased, hlifted, hbegan, hresult⟩ := cleanup_spec callbacks hafter.steady
    rw [dispatchFallible_ok hrun]
    refine ⟨s.trace, cleanup, (releaseAll_twice s).trans htrace, hafter.steady.scheduled, ?_, ?_, hreleased, hlifted, ?_, ?_⟩
    · intro before call after hsplit hfailed
      rw [hafter.clean call (by simp [hsplit])] at hfailed
      cases hfailed
    · rw [findSome?_append, findSome?_error_eq_none hafter.clean, Option.none_or, ← hbegan]
      cases herror : cleanup.findSome? Call.error with
      | none => simp [hresult, herror, orFailure, Except.mapError]
      | some error => simp [hresult, herror, orFailure, Except.mapError]
    · exact ⟨[], by rw [append_nil, hafter.posted, hafter.elapsed]⟩
    · exact fun _ => ⟨by rw [hafter.posted, hafter.elapsed], by rw [hafter.elapsed, hlength]⟩
  | error error s =>
    rw [hrun] at hends
    obtain ⟨waits, hstopped⟩ := hends
    simp only [nil_append] at hstopped
    obtain ⟨cleanup, htrace, hreleased, hlifted, hbegan, -⟩ := cleanup_spec callbacks hstopped.steady
    obtain ⟨before, last, hlast, herror, hclean⟩ := hstopped.stop
    rw [dispatchFallible_error hrun]
    refine ⟨s.trace, cleanup, (releaseAll_twice s).trans htrace, hstopped.steady.scheduled, ?_, ?_, hreleased, hlifted, ?_, ?_⟩
    · intro earlier call after hsplit hfailed
      rw [hlast] at hsplit
      rcases eq_nil_or_concat after with rfl | ⟨more, final, rfl⟩
      · rfl
      · -- a call before the last one has not failed
        rw [concat_eq_append, ← cons_append, ← append_assoc] at hsplit
        have hmem : call ∈ before := by simp [(append_inj' hsplit rfl).1]
        rw [hclean call hmem] at hfailed
        cases hfailed
    · rw [← hbegan, hlast, findSome?_append, findSome?_append, findSome?_error_eq_none hclean]
      simp only [Option.none_or, findSome?_singleton, herror, Option.some_or]
    · rw [hstopped.elapsed]
      exact hstopped.posted
    · intro hnone
      rw [hnone last (by simp [hlast])] at herror
      cases herror

def twoKeys : List (Frame Unit) := [⟨0, [.down 0, .down 1]⟩, ⟨150000000000, [.up 0, .up 1]⟩]

def cancelling : Callbacks Unit String where
  wait _ at_ := .ok at_
  check trace := if trace.any fun call => call.elapsed.any (0 < ·) then .error "cancelled" else .ok ()
  prepare _ _ := .ok ()
  post _ _ := .ok ()

theorem input_ends_released_cancelled :
    ∃ schedule cleanup, (dispatchFallible cancelling twoKeys 2).2 = schedule ++ cleanup ∧
      Ended twoKeys 2 (dispatchFallible cancelling twoKeys 2).1 schedule cleanup :=
  input_ends_released cancelling twoKeys 2 (by simp [twoKeys, Transition.InRange])

example : (dispatchFallible cancelling twoKeys 2).2.filterMap Call.released = [1, 0] := by decide

end

end Cantrip.Interaction.Schedule
