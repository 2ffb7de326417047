import Mathlib.Logic.Function.Basic
import Cantrip.Lib.Semaphore

/-!
# Web reads (`web/safe-fetch.ts`, `web/robots.ts`, `web/service.ts`)

A fetch holds a permit of all fetches while it lasts, and for each of its requests a permit of the host. Before each
request the fetch of a page asks the robots policy of the origin, which may fetch the rules first: with permits of its
own, while the fetch of the page keeps both of its. While a page is rendered (`managed-runtimes/playwright.ts`) each
document request of it asks the policy too, several at once, and the read does not wait for them. The sessions of the
browser, which ask it as well, are left out.

What runs up to an await is one step. The answers of DNS and HTTP, what the rules say and the clock are the inputs of the
steps. A fetch that is over is settled until whoever started it goes on.
-/

namespace Cantrip.Web

open Lib

/-- The protocol and the host: an origin, and what of a URL matters here. -/
structure Url where
  https : Bool
  hostname : String
  deriving DecidableEq

def maxRedirects : Nat := 5
def robotsTtlMs : Nat := 10 * 60000

/-- Who a fetch is for. -/
inductive Owner
  /-- A read, or a navigation of a page that is rendered. -/
  | task (id : Nat)
  /-- The hook before a request of a fetch. -/
  | hook (id : Nat)
  deriving DecidableEq

inductive Stage
  | waitingGlobal
  | grantedGlobal
  | waitingHost
  | grantedHost
  /-- The hook waits for the fetch of the robots rules. -/
  | beforeRequest (robots : Nat)
  | requesting
  | settled (ok : Bool)
  deriving DecidableEq

structure Fetch where
  /-- With a hook, a page; without one, robots rules. -/
  page : Bool
  owner : Owner
  current : Url
  redirect : Nat
  stage : Stage
  deriving DecidableEq

inductive Phase
  /-- The rules of the origin are fetched. -/
  | checking (fetch : Nat) (url : Url) (always : Bool)
  | fetching (fetch : Nat)
  /-- The browser renders the page. -/
  | rendering
  /-- No read, but a document request of the page that a read renders, to an origin whose rules are fetched. -/
  | navigating (fetch : Nat) (url : Url) (reader : Nat)
  deriving DecidableEq

structure State where
  global : Semaphore Nat
  hosts : String → Option (Semaphore Nat)
  /-- The origins with rules, and when they expire. -/
  cache : List (Url × Nat)
  next : Nat
  fetches : Nat → Option Fetch
  tasks : Nat → Option Phase

def State.start : State :=
  { global := .empty, hosts := fun _ => none, cache := [], next := 0, fetches := fun _ => none, tasks := fun _ => none }

namespace State

def setFetch (s : State) (id : Nat) (f : Fetch) : State := { s with fetches := Function.update s.fetches id (some f) }

def setTask (s : State) (id : Nat) (phase : Option Phase) : State := { s with tasks := Function.update s.tasks id phase }

def grant (s : State) (stage : Stage) (id : Option Nat) : State :=
  match id with
  | none => s
  | some id => { s with fetches := Function.update s.fetches id ((s.fetches id).map fun f => { f with stage }) }

/-! ## `safeFetch` -/

/-- `safeFetch` up to the first await. -/
def safeFetch (s : State) (page : Bool) (owner : Owner) (url : Url) : State :=
  let acquired := s.global.acquire 8 s.next
  { s.setFetch s.next { page, owner, current := url, redirect := 0, stage := if acquired.2 then .grantedGlobal else .waitingGlobal } with
    global := acquired.1, next := s.next + 1 }

/-- The semaphore of a host is made where there is none. -/
def acquireHost (s : State) (id : Nat) (f : Fetch) : State :=
  let acquired := ((s.hosts f.current.hostname).getD .empty).acquire 2 id
  { s.setFetch id { f with stage := if acquired.2 then .grantedHost else .waitingHost } with
    hosts := Function.update s.hosts f.current.hostname (some acquired.1) }

def releaseHost (s : State) (hostname : String) : State :=
  match s.hosts hostname with
  | none => s
  | some semaphore =>
    let released := semaphore.release
    { s with hosts := Function.update s.hosts hostname (if released.1.idle then none else some released.1) }.grant .grantedHost released.2

def releaseGlobal (s : State) : State :=
  let released := s.global.release
  { s with global := released.1 }.grant .grantedGlobal released.2

/-- The fetch is over, and gives back its permits. -/
def settle (s : State) (id : Nat) (f : Fetch) (ok : Bool) : State :=
  ((s.setFetch id { f with stage := .settled ok }).releaseHost f.current.hostname).releaseGlobal

/-- A redirect gives back the permit of the host and takes one of the next. -/
def followRedirect (s : State) (id : Nat) (f : Fetch) (redirected : Url) : State :=
  if f.redirect = maxRedirects then s.settle id f false
  else if f.current.https = true ∧ redirected.https = false then s.settle id f false
  else
    let next := { f with current := redirected, redirect := f.redirect + 1, stage := .grantedGlobal }
    ((s.setFetch id next).releaseHost f.current.hostname).acquireHost id next

/-! ## `RobotsPolicy` -/

def cached (s : State) (origin : Url) (now : Nat) : Bool := s.cache.any fun e => e.1 = origin ∧ now < e.2

/-- `Map.set`, and the oldest of more than 500 is dropped. -/
def setCache (s : State) (origin : Url) (expiresAt : Nat) : State :=
  let entries :=
    if s.cache.any fun e => e.1 = origin then s.cache.map fun e => if e.1 = origin then (origin, expiresAt) else e
    else s.cache ++ [(origin, expiresAt)]
  { s with cache := if entries.length > 500 then entries.tail else entries }

end State

/-- What the rules say, or the answer for them: nothing is remembered of a refusal. -/
inductive Verdict
  | refused
  | rules (allowed : Bool)
  deriving DecidableEq

def Verdict.allowed : Verdict → Bool
  | .refused => false
  | .rules allowed => allowed

namespace State

/-- The rest of `assertAllowed` where the rules were fetched. -/
def remember (s : State) (origin : Url) (now : Nat) : Verdict → State
  | .refused => s
  | .rules _ => s.setCache origin (now + robotsTtlMs)

/-- The fetch of rules is picked up by whoever waits for it. -/
def drop (s : State) (id : Nat) : State := { s with fetches := Function.update s.fetches id none }

/-! ## `WorkerWebService.read` -/

/-- The robots policy lets the read go on. -/
def permitted (s : State) (id : Nat) (url : Url) (always : Bool) : State :=
  if always then s.setTask id (some .rendering)
  else (s.setTask id (some (.fetching s.next))).safeFetch true (.task id) url

end State

inductive Outcome
  | failed
  | redirected (url : Url)
  | answered
  deriving DecidableEq

inductive Act
  /-- A read of a URL starts. -/
  | read (url : Url) (always : Bool) (now : Nat) (allowed : Bool)
  /-- A fetch that has a permit goes on. -/
  | proceed (id : Nat) (now : Nat) (allowed : Bool)
  /-- The rules that a hook waits for are there. -/
  | checked (id : Nat) (now : Nat) (verdict : Verdict)
  | respond (id : Nat) (outcome : Outcome)
  /-- What a read waits for is there. -/
  | resume (id : Nat) (now : Nat) (verdict : Verdict) (render : Bool)
  /-- The page that a read renders, or a frame of it, is to go to an origin. -/
  | navigate (id : Nat) (url : Url) (now : Nat)
  | rendered (id : Nat)
  deriving DecidableEq

namespace State

def startRead (s : State) (url : Url) (always : Bool) (now : Nat) (allowed : Bool) : State :=
  let id := s.next
  let s := { s with next := s.next + 1 }
  if s.cached url now then if allowed then s.permitted id url always else s
  else (s.setTask id (some (.checking s.next url always))).safeFetch false (.task id) url

def hook (s : State) (id : Nat) (f : Fetch) (now : Nat) (allowed : Bool) : State :=
  if f.page = false then s.setFetch id { f with stage := .requesting }
  else if s.cached f.current now then if allowed then s.setFetch id { f with stage := .requesting } else s.settle id f false
  else (s.setFetch id { f with stage := .beforeRequest s.next }).safeFetch false (.hook id) f.current

def proceed (s : State) (id : Nat) (now : Nat) (allowed : Bool) : Option State :=
  (s.fetches id).bind fun f =>
    match f.stage with
    | .grantedGlobal => some (s.acquireHost id f)
    | .grantedHost => some (s.hook id f now allowed)
    | _ => none

def checked (s : State) (id : Nat) (now : Nat) (verdict : Verdict) : Option State :=
  (s.fetches id).bind fun f =>
    match f.stage with
    | .beforeRequest robots =>
      match (s.fetches robots).map Fetch.stage with
      | some (.settled true) =>
        let s := (s.drop robots).remember f.current now verdict
        some (if verdict.allowed then s.setFetch id { f with stage := .requesting } else s.settle id f false)
      | some (.settled false) => some ((s.drop robots).settle id f false)
      | _ => none
    | _ => none

def respond (s : State) (id : Nat) (outcome : Outcome) : Option State :=
  (s.fetches id).bind fun f =>
    if f.stage = .requesting then
      some (match outcome with
        | .failed => s.settle id f false
        | .redirected url => s.followRedirect id f url
        | .answered => s.settle id f true)
    else none

/-- The read goes on with its settled fetch. -/
def resumed (s : State) (id : Nat) (ok : Bool) (now : Nat) (verdict : Verdict) (render : Bool) : Phase → State
  | .checking _ url always =>
    if ok then
      let s := s.remember url now verdict
      if verdict.allowed then s.permitted id url always else s.setTask id none
    else s.setTask id none
  | .fetching _ => s.setTask id (if ok && render then some .rendering else none)
  | .rendering => s
  | .navigating _ url _ => (if ok then s.remember url now verdict else s).setTask id none

end State

def Phase.fetch? : Phase → Option Nat
  | .checking fetch _ _ => some fetch
  | .fetching fetch => some fetch
  | .rendering => none
  | .navigating fetch _ _ => some fetch

namespace State

def resume (s : State) (id : Nat) (now : Nat) (verdict : Verdict) (render : Bool) : Option State :=
  (s.tasks id).bind fun phase => phase.fetch?.bind fun fetch =>
    match (s.fetches fetch).map Fetch.stage with
    | some (.settled ok) => some ((s.drop fetch).resumed id ok now verdict render phase)
    | _ => none

/-- The handler of a document request. What the rules say is nothing to the read, which ends when `goto` does. -/
def navigate (s : State) (id : Nat) (url : Url) (now : Nat) : Option State :=
  if s.tasks id = some .rendering then
    let handler := s.next
    let s' := { s with next := s.next + 1 }
    some (if s.cached url now then s
      else (s'.setTask handler (some (.navigating s'.next url id))).safeFetch false (.task handler) url)
  else none

def step (s : State) : Act → Option State
  | .read url always now allowed => some (s.startRead url always now allowed)
  | .proceed id now allowed => s.proceed id now allowed
  | .checked id now verdict => s.checked id now verdict
  | .respond id outcome => s.respond id outcome
  | .resume id now verdict render => s.resume id now verdict render
  | .navigate id url now => s.navigate id url now
  -- `render` does not wait for the handlers.
  | .rendered id => if s.tasks id = some .rendering then some (s.setTask id none) else none

def run (s : State) : List Act → Option State
  | [] => some s
  | act :: acts => (s.step act).bind fun s => s.run acts

end State

end Cantrip.Web
