import Cantrip.Lib.Post
import Mathlib.Data.List.Basic

/-!
# The page store that falls back (`storage/fallback.ts`)

A failed write of the current backing store has every page copied to the next one that opens, and only a complete copy
takes the current one's place. The calls of the backing stores are numbered, and each one fails or not as `Backends`
says for its number, so that a statement about every `Backends` is one about every pattern of failures.
-/

namespace Cantrip.Nbt

open Lib List

/-! ## Backing stores -/

inductive StorageError (E : Type)
  /-- What a backing store threw. -/
  | backing (e : E)
  | closed
  | unavailable
  | disappeared
  deriving DecidableEq, Repr

/-- A backing store: its pages in the order in which `keys` lists them. -/
structure Backing (K V : Type) where
  pages : List (K × V)
  closed : Bool
  deriving DecidableEq, Repr

structure Backends (K V E : Type) where
  factories : Nat
  /-- What a factory does at a call: it fails, or it opens a store that holds these pages. -/
  opens : Nat → Nat → Except E (List (K × V))
  fails : Nat → Option E

/-- The stores that were opened, the number of calls made, and the variables of the store. -/
structure PageStore (K V : Type) where
  stores : List (Backing K V)
  calls : Nat
  current : Nat
  index : Nat
  deriving DecidableEq, Repr

abbrev StoreM (K V E α : Type) := EStateM (StorageError E) (PageStore K V) α

variable {K V E : Type} [DecidableEq K]

def readPage (key : K) : List (K × V) → Option V
  | [] => none
  | (k, v) :: rest => if k = key then some v else readPage key rest

def putPage (key : K) (bytes : V) : List (K × V) → List (K × V)
  | [] => [(key, bytes)]
  | (k, v) :: rest => if k = key then (key, bytes) :: rest else (k, v) :: putPage key bytes rest

namespace Backends

variable (env : Backends K V E)

def answer : StoreM K V E Unit := do
  let calls := (← get).calls
  modify fun s => { s with calls := calls + 1 }
  match env.fails calls with
  | some e => throw (.backing e)
  | none => pure ()

def opened (id : Nat) : StoreM K V E (Backing K V) := do
  match (← get).stores[id]? with
  | some store => if store.closed then throw .closed else pure store
  | none => throw .closed

def getPage (id : Nat) (key : K) : StoreM K V E (Option V) := do
  let store ← opened id
  env.answer
  pure (readPage key store.pages)

def setPage (id : Nat) (key : K) (bytes : V) : StoreM K V E Unit := do
  let store ← opened id
  env.answer
  modify fun s => { s with stores := s.stores.set id { store with pages := putPage key bytes store.pages } }

/-- `close(true)`: the store is closed, also where its pages cannot be removed. -/
def closeStore (id : Nat) : StoreM K V E Unit := do
  modify fun s => { s with stores := s.stores.modify id fun store => { store with closed := true } }
  env.answer

/-! ## The store -/

/-- The result of a part that may throw. -/
def result {α : Type} (m : StoreM K V E α) : StoreM K V E (Except (StorageError E) α) := fun s =>
  match m s with
  | .ok a s' => .ok (.ok a) s'
  | .error e s' => .ok (.error e) s'

/-- The first of so many factories, from the `i`th on, that opens a store. -/
def nextFrom : Nat → Nat → StorageError E → StoreM K V E (Nat × Nat)
  | 0, _, error => throw error
  | left + 1, i, _ => do
    let s ← get
    match env.opens i s.calls with
    | .ok pages => do
      set { s with calls := s.calls + 1, stores := s.stores ++ [Backing.mk pages false] }
      pure (s.stores.length, i)
    | .error e => do
      set { s with calls := s.calls + 1 }
      nextFrom left (i + 1) (.backing e)

/-- `next`, from the factory after the last one tried. -/
def next (first : Nat) : StoreM K V E (Nat × Nat) := env.nextFrom (env.factories - first) first .unavailable

/-- The loop over `keys` that copies one page at a time. -/
def copyPages (current candidate : Nat) : List K → StoreM K V E Unit
  | [] => env.answer
  | existing :: rest => do
    env.answer
    match ← env.getPage current existing with
    | none => throw .disappeared
    | some data => do
      env.setPage candidate existing data
      copyPages current candidate rest

def migrate (candidate : Nat) (key : K) (bytes : V) : StoreM K V E Unit := do
  let current := (← get).current
  let source ← opened current
  env.copyPages current candidate (source.pages.map Prod.fst)
  env.setPage candidate key bytes

def switch (candidate index : Nat) (key : K) (bytes : V) : StoreM K V E Bool := do
  match ← result (env.migrate candidate key bytes) with
  | .ok _ => do
    let previous := (← get).current
    modify fun s => { s with current := candidate, index }
    let _ ← result (env.closeStore previous)
    pure true
  | .error _ => do
    let _ ← result (env.closeStore candidate)
    pure false

/-- The loop over the candidates, each of a later factory than the one before. -/
def fallBack (key : K) (bytes : V) (original : StorageError E) : Nat → Nat → StoreM K V E Unit
  | 0, _ => throw original
  | left + 1, after => do
    match ← result (env.next (after + 1)) with
    | .error _ => throw original
    | .ok (candidate, index) =>
      if ← env.switch candidate index key bytes then pure () else fallBack key bytes original left index

def getKey (key : K) : StoreM K V E (Option V) := do env.getPage (← get).current key

def setKey (key : K) (bytes : V) : StoreM K V E Unit := do
  let s ← get
  match ← result (env.setPage s.current key bytes) with
  | .ok _ => pure ()
  | .error original => env.fallBack key bytes original env.factories s.index

/-- `openNbtPageStore`, before any store is open. -/
def openPageStore : StoreM K V E Unit := do
  let (current, index) ← env.next 0
  modify fun s => { s with current, index }

end Backends

/-! ## Single calls -/

theorem readPage_putPage (key : K) (bytes : V) (pages : List (K × V)) (k : K) :
    readPage k (putPage key bytes pages) = if key = k then some bytes else readPage k pages := by
  induction pages with
  | nil => rfl
  | cons page pages ih =>
    obtain ⟨k', v'⟩ := page
    unfold putPage
    by_cases hkey : k' = key
    · rw [if_pos hkey, readPage, readPage, hkey]
      split <;> rfl
    · rw [if_neg hkey, readPage, readPage, ih]
      by_cases h : k' = k
      · rw [if_pos h, if_pos h, if_neg (fun heq => hkey (h.trans heq.symm))]
      · rw [if_neg h, if_neg h]

section Frame

omit [DecidableEq K]

def Open (s : PageStore K V) (id : Nat) (store : Backing K V) : Prop := s.stores[id]? = some store ∧ store.closed = false

/-- All stores but one are kept, and the choice of the one in use. -/
structure Keeps (changed : Nat) (s s' : PageStore K V) : Prop where
  current : s'.current = s.current
  index : s'.index = s.index
  stores : ∀ id store, id ≠ changed → s.stores[id]? = some store → s'.stores[id]? = some store

theorem Keeps.refl (changed : Nat) (s : PageStore K V) : Keeps changed s s := ⟨rfl, rfl, fun _ _ _ h => h⟩

variable {store : Backing K V} {id : Nat} {s : PageStore K V}

theorem Keeps.trans {changed : Nat} {t u : PageStore K V} (h : Keeps changed s t) (h' : Keeps changed t u) : Keeps changed s u :=
  ⟨h'.current.trans h.current, h'.index.trans h.index, fun id store hne hs => h'.stores id store hne (h.stores id store hne hs)⟩

theorem Keeps.isOpen {changed : Nat} {s' : PageStore K V} (h : Keeps changed s s') (hid : id ≠ changed)
    (hopen : Open s id store) : Open s' id store :=
  ⟨h.stores id store hid hopen.1, hopen.2⟩

def PageStore.called (s : PageStore K V) : PageStore K V := { s with calls := s.calls + 1 }

theorem keeps_called (changed : Nat) (s : PageStore K V) : Keeps changed s s.called := ⟨rfl, rfl, fun _ _ _ h => h⟩

def PageStore.put (s : PageStore K V) (id : Nat) (store : Backing K V) : PageStore K V :=
  { s with stores := s.stores.set id store }

theorem keeps_put (s : PageStore K V) (id : Nat) (store : Backing K V) : Keeps id s (s.put id store) := by
  refine ⟨rfl, rfl, fun j other hne hj => ?_⟩
  unfold PageStore.put
  rw [getElem?_set_ne hne.symm]
  exact hj

theorem open_put {store' : Backing K V} (h : Open s id store) (hopen : store'.closed = false) :
    Open (s.put id store') id store' := by
  have hlt : id < s.stores.length := (List.getElem?_eq_some_iff.mp h.1).1
  refine ⟨?_, hopen⟩
  unfold PageStore.put
  exact getElem?_set_self hlt

variable (env : Backends K V E)

theorem answer_fail {e : E} (h : env.fails s.calls = some e) : env.answer s = .error (.backing e) s.called := by
  unfold Backends.answer
  simp only [run_get, run_modify, h]
  rfl

theorem answer_ok (h : env.fails s.calls = none) : env.answer s = .ok ⟨⟩ s.called := by
  unfold Backends.answer
  simp only [run_get, run_modify, h]
  rfl

theorem opened_eq (h : Open s id store) : (Backends.opened id : StoreM K V E (Backing K V)) s = .ok store s := by
  unfold Backends.opened
  simp only [run_get, h.1, h.2, Bool.false_eq_true, if_false]
  rfl

theorem answer_post (s : PageStore K V) : Post env.answer s (· = s.called) (fun _ s' => s' = s.called) := by
  unfold Post
  cases h : env.fails s.calls with
  | none => rw [answer_ok env h]
  | some e => rw [answer_fail env h]

theorem opened_post {α : Type} (h : Open s id store)
    {f : Backing K V → StoreM K V E α} {F : PageStore K V → Prop} {Q : α → PageStore K V → Prop} (hf : Post (f store) s F Q) :
    Post (Backends.opened id >>= f) s F Q := by
  unfold Post
  rw [run_bind (opened_eq h)]
  exact hf

end Frame

variable (env : Backends K V E)

variable {source : Backing K V} {pages : List (K × V)} {candidate : Nat} {s : PageStore K V}

theorem getPage_post {id : Nat} {store : Backing K V} (h : Open s id store) (key : K) :
    Post (env.getPage id key) s (· = s.called) (fun page s' => page = readPage key store.pages ∧ s' = s.called) := by
  apply opened_post h
  apply Post.bind
  apply (answer_post env s).mono
  rintro - s' rfl
  exact ⟨rfl, rfl⟩

theorem setPage_post {id : Nat} {store : Backing K V} (h : Open s id store) (key : K) (bytes : V) :
    Post (env.setPage id key bytes) s (· = s.called)
      (fun _ s' => s' = s.called.put id { store with pages := putPage key bytes store.pages }) := by
  apply opened_post h
  apply Post.bind
  apply (answer_post env s).mono
  rintro - s' rfl
  rfl

omit [DecidableEq K] in
theorem result_post {α : Type} {m : StoreM K V E α} {F G : PageStore K V → Prop} {Q : α → PageStore K V → Prop}
    (h : Post m s F Q) :
    Post (Backends.result m) s G (fun r s' => (∀ a, r = .ok a → Q a s') ∧ (∀ e, r = .error e → F s')) := by
  unfold Post Backends.result
  cases hm : m s with
  | ok a s' =>
    refine ⟨fun b hb => ?_, fun e he => ?_⟩
    · cases hb
      exact h.ok hm
    · cases he
  | error e s' =>
    refine ⟨fun b hb => ?_, fun e he => ?_⟩
    · cases hb
    · exact h.error hm

omit [DecidableEq K] in
theorem result_bind {α β : Type} {m : StoreM K V E α} {f : Except (StorageError E) α → StoreM K V E β}
    {F G : PageStore K V → Prop} {Q : α → PageStore K V → Prop} {R : β → PageStore K V → Prop} (h : Post m s F Q)
    (hok : ∀ a s', Q a s' → Post (f (.ok a)) s' G R) (herror : ∀ e s', F s' → Post (f (.error e)) s' G R) :
    Post (Backends.result m >>= f) s G R := by
  apply Post.bind
  apply (result_post h).mono
  rintro r s' ⟨hr, hr'⟩
  cases r with
  | ok a => exact hok a s' (hr a rfl)
  | error e => exact herror e s' (hr' e rfl)

omit [DecidableEq K] in
theorem closeStore_post (s : PageStore K V) (id : Nat) :
    Post (env.closeStore id) s (Keeps id s) (fun _ s' => Keeps id s s') := by
  have hkeeps : Keeps id s { s with stores := s.stores.modify id fun store => { store with closed := true } } := by
    refine ⟨rfl, rfl, fun j other hne hj => ?_⟩
    change (s.stores.modify id _)[j]? = some other
    rw [getElem?_modify_ne _ _ hne.symm]
    exact hj
  apply Post.update
  apply (answer_post env _).imp
  · rintro s' rfl
    exact hkeeps.trans (keeps_called id _)
  · rintro - s' rfl
    exact hkeeps.trans (keeps_called id _)

structure NewlyOpen (s s' : PageStore K V) (candidate index : Nat) (pages : List (K × V)) : Prop where
  keeps : ∀ changed, Keeps changed s s'
  new : s.stores.length ≤ candidate
  isOpen : Open s' candidate ⟨pages, false⟩
  origin : ∃ call, env.opens index call = .ok pages

omit [DecidableEq K] in
theorem nextFrom_post (left : Nat) : ∀ (i : Nat) (error : StorageError E) (s : PageStore K V),
    Post (env.nextFrom left i error) s (fun s' => ∀ changed, Keeps changed s s')
      (fun found s' => ∃ pages, NewlyOpen env s s' found.1 found.2 pages) := by
  induction left with
  | zero => exact fun i error s changed => Keeps.refl changed s
  | succ left ih =>
    intro i error s
    apply Post.get
    cases hopen : env.opens i s.calls with
    | ok pages =>
      have hkeeps : ∀ changed, Keeps changed s { s with calls := s.calls + 1, stores := s.stores ++ [Backing.mk pages false] } := by
        refine fun changed => ⟨rfl, rfl, fun id store _ hid => ?_⟩
        have hlt : id < s.stores.length := (List.getElem?_eq_some_iff.mp hid).1
        change (s.stores ++ [Backing.mk pages false])[id]? = some store
        rw [getElem?_append_left hlt]
        exact hid
      apply Post.set
      refine ⟨pages, hkeeps, Nat.le_refl _, ⟨?_, rfl⟩, s.calls, hopen⟩
      exact getElem?_concat_length
    | error e =>
      apply Post.set
      apply (ih (i + 1) (.backing e) _).imp
      · exact fun s' hs' changed => (keeps_called changed s).trans (hs' changed)
      · rintro found s' ⟨pages, hkeeps, hnew, hopened, horigin⟩
        exact ⟨pages, fun changed => (keeps_called changed s).trans (hkeeps changed), hnew, hopened, horigin⟩

/-! ## The copy -/

theorem copyPages_post {current : Nat} (hne : current ≠ candidate) (keys : List K) :
    ∀ (s : PageStore K V) (copy : Backing K V), Open s current source → Open s candidate copy →
      Post (env.copyPages current candidate keys) s (Keeps candidate s) (fun _ s' => Keeps candidate s s' ∧
        ∃ copy', Open s' candidate copy' ∧ ∀ k, readPage k copy'.pages =
          if k ∈ keys then readPage k source.pages else readPage k copy.pages) := by
  induction keys with
  | nil =>
    intro s copy hsource hcopy
    apply (answer_post env s).imp
    · rintro s' rfl
      exact keeps_called candidate s
    · rintro - s' rfl
      exact ⟨keeps_called candidate s, copy, hcopy, fun k => (if_neg not_mem_nil).symm⟩
  | cons existing keys ih =>
    intro s copy hsource hcopy
    have hkeeps := keeps_called candidate s
    apply Post.bind
    apply (answer_post env s).imp
    · rintro s' rfl
      exact hkeeps
    rintro - s' rfl
    have hkeeps' := hkeeps.trans (keeps_called candidate s.called)
    apply Post.bind
    apply (getPage_post env (hkeeps.isOpen hne hsource) existing).imp
    · rintro s' rfl
      exact hkeeps'
    rintro page s' ⟨rfl, rfl⟩
    cases hpage : readPage existing source.pages with
    | none => exact hkeeps'
    | some data =>
      have hcopy' : Open s.called.called candidate copy := hcopy
      apply Post.bind
      apply (setPage_post env hcopy' existing data).imp
      · rintro s' rfl
        exact hkeeps'.trans (keeps_called candidate _)
      rintro - s' rfl
      have hput := (hkeeps'.trans (keeps_called candidate _)).trans
        (keeps_put s.called.called.called candidate { copy with pages := putPage existing data copy.pages })
      have hopened : Open (s.called.called.called.put candidate { copy with pages := putPage existing data copy.pages }) candidate
          { copy with pages := putPage existing data copy.pages } := open_put hcopy' hcopy.2
      apply (ih _ _ (hput.isOpen hne hsource) hopened).imp
      · exact fun s' hs' => hput.trans hs'
      · rintro - s' ⟨hs', copy', hcopied, hpages⟩
        refine ⟨hput.trans hs', copy', hcopied, fun k => ?_⟩
        rw [hpages k, readPage_putPage]
        by_cases hmem : k ∈ keys
        · rw [if_pos hmem, if_pos (mem_cons_of_mem _ hmem)]
        · rw [if_neg hmem]
          by_cases heq : existing = k
          · rw [if_pos heq, ← heq, if_pos mem_cons_self, hpage]
          · rw [if_neg heq, if_neg (fun h => (mem_cons.mp h).elim (fun h => heq h.symm) hmem)]

theorem mem_keys {k : K} {v : V} (h : readPage k pages = some v) : k ∈ pages.map Prod.fst := by
  induction pages with
  | nil => cases h
  | cons page pages ih =>
    obtain ⟨k', v'⟩ := page
    rw [readPage] at h
    by_cases heq : k' = k
    · rw [heq]
      exact mem_cons_self
    · rw [if_neg heq] at h
      exact mem_cons_of_mem _ (ih h)

/-- The pages after a write: those of before under the other keys, or pages that the new store already held. -/
structure Written (env : Backends K V E) (key : K) (bytes : V) (pages pages' : List (K × V)) : Prop where
  written : readPage key pages' = some bytes
  kept : ∀ k v, k ≠ key → readPage k pages = some v → readPage k pages' = some v
  origin : ∀ k v, k ≠ key → readPage k pages' = some v → readPage k pages = some v ∨
    ∃ index call held, env.opens index call = .ok held ∧ readPage k held = some v

theorem migrate_post {copy : Backing K V} {index call : Nat} (hne : s.current ≠ candidate)
    (hsource : Open s s.current source) (hcopy : Open s candidate copy) (horigin : env.opens index call = .ok copy.pages)
    (key : K) (bytes : V) :
    Post (env.migrate candidate key bytes) s (Keeps candidate s) (fun _ s' => Keeps candidate s s' ∧
      ∃ copy', Open s' candidate copy' ∧ Written env key bytes source.pages copy'.pages) := by
  apply Post.get
  apply opened_post hsource
  apply Post.bind
  apply (copyPages_post env hne (source.pages.map Prod.fst) s copy hsource hcopy).imp
  · exact fun s' hs' => hs'
  rintro - s' ⟨hkeeps, copied, hcopied, hpages⟩
  apply (setPage_post env hcopied key bytes).imp
  · rintro s'' rfl
    exact hkeeps.trans (keeps_called candidate s')
  rintro - s'' rfl
  refine ⟨(hkeeps.trans (keeps_called candidate s')).trans (keeps_put _ candidate _), _, open_put hcopied hcopied.2, ?_, ?_, ?_⟩
  · rw [readPage_putPage, if_pos rfl]
  · intro k v hk hv
    rw [readPage_putPage, if_neg hk.symm, hpages k, if_pos (mem_keys hv)]
    exact hv
  · intro k v hk hv
    rw [readPage_putPage, if_neg hk.symm, hpages k] at hv
    by_cases hmem : k ∈ source.pages.map Prod.fst
    · rw [if_pos hmem] at hv
      exact .inl hv
    · rw [if_neg hmem] at hv
      exact .inr ⟨index, call, copy.pages, horigin, hv⟩

theorem switch_post {copy : Backing K V} {index call : Nat} (hne : s.current ≠ candidate)
    (hsource : Open s s.current source) (hcopy : Open s candidate copy) (horigin : env.opens index call = .ok copy.pages)
    (key : K) (bytes : V) :
    Post (env.switch candidate index key bytes) s (fun _ => False) (fun switched s' =>
      if switched then s'.current = candidate ∧ s'.index = index ∧
        ∃ copy', Open s' candidate copy' ∧ Written env key bytes source.pages copy'.pages
      else s'.current = s.current ∧ s'.index = s.index ∧ Open s' s.current source) := by
  apply result_bind (migrate_post env hne hsource hcopy horigin key bytes)
  · rintro - s' ⟨hkeeps, copy', hopen, hwritten⟩
    apply Post.get
    apply Post.update
    apply result_bind (closeStore_post env _ s'.current)
    all_goals
      intro r s'' hs''
      apply Post.pure
      rw [if_pos rfl]
      refine ⟨hs''.current, hs''.index, copy', hs''.isOpen ?_ hopen, hwritten⟩
      rw [hkeeps.current]
      exact hne.symm
  · intro e s' hs'
    apply result_bind (closeStore_post env s' candidate)
    all_goals
      intro r s'' hs''
      apply Post.pure
      rw [if_neg Bool.false_ne_true]
      have hkept := hs'.trans hs''
      exact ⟨hkept.current, hkept.index, hkept.isOpen hne hsource⟩

def InUse (s : PageStore K V) (pages : List (K × V)) : Prop := Open s s.current ⟨pages, false⟩

theorem fallBack_post (key : K) (bytes : V) (original : StorageError E) (left : Nat) :
    ∀ (after : Nat) (s : PageStore K V) (pages : List (K × V)), InUse s pages →
      Post (env.fallBack key bytes original left after) s (fun s' => s'.current = s.current ∧ InUse s' pages)
        (fun _ s' => ∃ pages', InUse s' pages' ∧ Written env key bytes pages pages') := by
  induction left with
  | zero => exact fun after s pages hs => ⟨rfl, hs⟩
  | succ left ih =>
    intro after s pages hs
    apply result_bind (nextFrom_post env _ _ _ s)
    · rintro ⟨candidate, index⟩ s' ⟨held, hkeeps, hnew, hopen, call, horigin⟩
      have hcurrent : s'.current = s.current := (hkeeps candidate).current
      have hlt : s.current < s.stores.length := (List.getElem?_eq_some_iff.mp hs.1).1
      have hne : s'.current ≠ candidate := by
        rw [hcurrent]
        exact Nat.ne_of_lt (Nat.lt_of_lt_of_le hlt hnew)
      have hsource : Open s' s'.current ⟨pages, false⟩ := by
        rw [hcurrent] at hne ⊢
        exact (hkeeps candidate).isOpen hne hs
      apply Post.bind
      apply (switch_post env hne hsource hopen horigin key bytes).imp
      · exact fun s'' hs'' => hs''.elim
      rintro switched s'' hs''
      cases switched with
      | true =>
        rw [if_pos rfl] at hs''
        obtain ⟨hc, -, copy', hopen', hwritten⟩ := hs''
        apply Post.pure
        refine ⟨copy'.pages, ?_, hwritten⟩
        unfold InUse
        rw [hc]
        exact ⟨hopen'.1.trans (congrArg some (by rw [← hopen'.2])), rfl⟩
      | false =>
        rw [if_neg Bool.false_ne_true] at hs''
        obtain ⟨hc, -, hkept⟩ := hs''
        have hinuse : InUse s'' pages := by
          unfold InUse
          rw [hc]
          exact hkept
        apply (ih index s'' pages hinuse).imp
        · rintro t ⟨ht, hopen'⟩
          exact ⟨ht.trans (hc.trans hcurrent), hopen'⟩
        · exact fun _ t ht => ht
    · intro e s' hs'
      apply Post.throw
      have hcurrent := (hs' s.stores.length).current
      refine ⟨hcurrent, ?_⟩
      unfold InUse
      rw [hcurrent]
      have hlt : s.current < s.stores.length := (List.getElem?_eq_some_iff.mp hs.1).1
      exact (hs' s.stores.length).isOpen (Nat.ne_of_lt hlt) hs

/-! ## Runs -/

/-- Nothing is open. -/
def PageStore.unopened : PageStore K V := ⟨[], 0, 0, 0⟩

/-- What a run of calls comes to, with the writes that were acknowledged, the last one first. The calls are made one
after the other, as `serial` has it. -/
inductive Reached : PageStore K V → List (K × V) → Prop
  | start {s : PageStore K V} : env.openPageStore .unopened = .ok ⟨⟩ s → Reached s []
  | got {s s' : PageStore K V} {acknowledged : List (K × V)} {key : K} {page : Option V} :
      Reached s acknowledged → env.getKey key s = .ok page s' → Reached s' acknowledged
  | notGot {s s' : PageStore K V} {acknowledged : List (K × V)} {key : K} {e : StorageError E} :
      Reached s acknowledged → env.getKey key s = .error e s' → Reached s' acknowledged
  | set {s s' : PageStore K V} {acknowledged : List (K × V)} {key : K} {bytes : V} :
      Reached s acknowledged → env.setKey key bytes s = .ok ⟨⟩ s' → Reached s' ((key, bytes) :: acknowledged)
  | notSet {s s' : PageStore K V} {acknowledged : List (K × V)} {key : K} {bytes : V} {e : StorageError E} :
      Reached s acknowledged → env.setKey key bytes s = .error e s' → Reached s' acknowledged

structure Current (s : PageStore K V) (acknowledged pages : List (K × V)) : Prop where
  inUse : InUse s pages
  kept : ∀ k v, readPage k acknowledged = some v → readPage k pages = some v
  origin : ∀ k v, readPage k acknowledged = none → readPage k pages = some v →
    ∃ index call held, env.opens index call = .ok held ∧ readPage k held = some v

omit [DecidableEq K] in
theorem openPageStore_post : Post env.openPageStore (.unopened : PageStore K V) (fun _ => True) (fun _ s =>
    ∃ pages, InUse s pages ∧ ∃ index call, env.opens index call = .ok pages) := by
  apply Post.bind
  apply (nextFrom_post env _ _ _ _).imp
  · exact fun _ _ => trivial
  rintro ⟨current, index⟩ s ⟨pages, -, -, hopen, call, horigin⟩
  exact ⟨pages, hopen, index, call, horigin⟩

theorem getKey_post (h : InUse s pages) (key : K) :
    Post (env.getKey key) s (· = s.called) (fun page s' => page = readPage key pages ∧ s' = s.called) := by
  apply Post.get
  exact getPage_post env h key

theorem setKey_post (h : InUse s pages) (key : K) (bytes : V) :
    Post (env.setKey key bytes) s (fun s' => s'.current = s.current ∧ InUse s' pages)
      (fun _ s' => ∃ pages', InUse s' pages' ∧ Written env key bytes pages pages') := by
  apply Post.get
  apply result_bind (setPage_post env h key bytes)
  · rintro - s' rfl
    apply Post.pure
    refine ⟨putPage key bytes pages, open_put h rfl, ?_, ?_, ?_⟩
    · rw [readPage_putPage, if_pos rfl]
    · intro k v hk hv
      rw [readPage_putPage, if_neg hk.symm]
      exact hv
    · intro k v hk hv
      rw [readPage_putPage, if_neg hk.symm] at hv
      exact .inl hv
  · rintro original s' rfl
    exact fallBack_post env key bytes original _ _ s.called pages h

theorem Written.current {acknowledged pages' : List (K × V)} {key : K} {bytes : V} {s' : PageStore K V}
    (h : Current env s acknowledged pages) (hwritten : Written env key bytes pages pages') (hs' : InUse s' pages') :
    Current env s' ((key, bytes) :: acknowledged) pages' := by
  refine ⟨hs', fun k v hk => ?_, fun k v hk hv => ?_⟩
  · rw [readPage] at hk
    by_cases heq : key = k
    · rw [if_pos heq] at hk
      rw [← heq, hwritten.written]
      exact hk
    · rw [if_neg heq] at hk
      exact hwritten.kept k v (fun h => heq h.symm) (h.kept k v hk)
  · rw [readPage] at hk
    by_cases heq : key = k
    · rw [if_pos heq] at hk
      cases hk
    · rw [if_neg heq] at hk
      obtain hold | hheld := hwritten.origin k v (fun h => heq h.symm) hv
      · exact h.origin k v hk hold
      · exact hheld

theorem Reached.current {acknowledged : List (K × V)} (h : Reached env s acknowledged) :
    ∃ pages, Current env s acknowledged pages := by
  induction h with
  | start hopen =>
    obtain ⟨pages, hinuse, index, call, horigin⟩ := (openPageStore_post env).ok hopen
    refine ⟨pages, hinuse, fun k v hk => ?_, fun k v _ hv => ⟨index, call, pages, horigin, hv⟩⟩
    cases hk
  | got _ hget ih =>
    obtain ⟨pages, hinuse, hkept, horigin⟩ := ih
    obtain ⟨-, rfl⟩ := (getKey_post env hinuse _).ok hget
    exact ⟨pages, hinuse, hkept, horigin⟩
  | notGot _ hget ih =>
    obtain ⟨pages, hinuse, hkept, horigin⟩ := ih
    have hcalled := (getKey_post env hinuse _).error hget
    subst hcalled
    exact ⟨pages, hinuse, hkept, horigin⟩
  | set _ hset ih =>
    obtain ⟨pages, hcurrent⟩ := ih
    obtain ⟨pages', hinuse, hwritten⟩ := (setKey_post env hcurrent.inUse _ _).ok hset
    exact ⟨pages', hwritten.current env hcurrent hinuse⟩
  | notSet _ hset ih =>
    obtain ⟨pages, hinuse, hkept, horigin⟩ := ih
    obtain ⟨-, hinuse'⟩ := (setKey_post env hinuse _ _).error hset
    exact ⟨pages, hinuse', hkept, horigin⟩

theorem getKey_returns (h : InUse s pages) (key : K) (hfails : env.fails s.calls = none) :
    env.getKey key s = .ok (readPage key pages) s.called := by
  unfold Backends.getKey Backends.getPage
  rw [run_get, run_bind (opened_eq h), run_bind (answer_ok env hfails)]
  rfl

/-- Whatever the backing stores do: a `get` that is answered returns the last acknowledged page of its key, and none
where no page was acknowledged and no store held one when it was opened; a `set` that fails leaves the store and all its
pages in use; and a candidate that fails takes neither the place of the store nor closes it. -/
theorem failover_keeps_pages {s : PageStore K V} {acknowledged : List (K × V)} (h : Reached env s acknowledged) :
    (∀ key, env.fails s.calls = none → ∃ page, env.getKey key s = .ok page s.called ∧
      (∀ v, readPage key acknowledged = some v → page = some v) ∧
      (readPage key acknowledged = none →
        (∀ index call held, env.opens index call = .ok held → readPage key held = none) → page = none)) ∧
    (∀ key bytes e s', env.setKey key bytes s = .error e s' →
      s'.current = s.current ∧ ∃ pages, InUse s pages ∧ InUse s' pages) ∧
    (∀ t pages candidate copy index call key bytes t', InUse t pages → t.current ≠ candidate → Open t candidate copy →
      env.opens index call = .ok copy.pages → env.switch candidate index key bytes t = .ok false t' →
      t'.current = t.current ∧ InUse t' pages) := by
  obtain ⟨pages, hcurrent⟩ := h.current
  refine ⟨fun key hfails => ?_, fun key bytes e s' hset => ?_, ?_⟩
  · refine ⟨_, getKey_returns env hcurrent.inUse key hfails, fun v hv => hcurrent.kept key v hv, fun hnone hfresh => ?_⟩
    cases hpage : readPage key pages with
    | none => rfl
    | some v =>
      obtain ⟨index, call, held, hopened, hheld⟩ := hcurrent.origin key v hnone hpage
      rw [hfresh index call held hopened] at hheld
      cases hheld
  · obtain ⟨hsame, hinuse⟩ := (setKey_post env hcurrent.inUse key bytes).error hset
    exact ⟨hsame, pages, hcurrent.inUse, hinuse⟩
  · intro t pages candidate copy index call key bytes t' hinuse hne hcopy horigin hswitch
    have hkept := (switch_post env hne hinuse hcopy horigin key bytes).ok hswitch
    rw [if_neg Bool.false_ne_true] at hkept
    refine ⟨hkept.1, ?_⟩
    unfold InUse
    rw [hkept.1]
    exact hkept.2.2

def twoStores : Backends String Nat String := ⟨2, fun _ _ => .ok [], fun call => if call = 2 then some "full" else none⟩

/-- The second write moves both pages to the second store. -/
theorem failover_keeps_pages_moved : ∃ s, Reached twoStores s [("two", 2), ("one", 1)] ∧ s.current = 1 ∧
    ∃ page, twoStores.getKey "one" s = .ok page s.called ∧ page = some 1 := by
  have hopen : twoStores.openPageStore .unopened = .ok ⟨⟩ ⟨[⟨[], false⟩], 1, 0, 0⟩ := rfl
  have hone : twoStores.setKey "one" 1 ⟨[⟨[], false⟩], 1, 0, 0⟩ = .ok ⟨⟩ ⟨[⟨[("one", 1)], false⟩], 2, 0, 0⟩ := rfl
  have htwo : twoStores.setKey "two" 2 ⟨[⟨[("one", 1)], false⟩], 2, 0, 0⟩ =
      .ok ⟨⟩ ⟨[⟨[("one", 1)], true⟩, ⟨[("one", 1), ("two", 2)], false⟩], 10, 1, 1⟩ := rfl
  have hrun := ((Reached.start hopen).set hone).set htwo
  obtain ⟨page, hget, hpage, -⟩ := (failover_keeps_pages twoStores hrun).1 "one" rfl
  exact ⟨_, hrun, rfl, page, hget, hpage 1 rfl⟩

end Cantrip.Nbt
