import Cantrip.Lib.Post
import Mathlib.Data.List.Nodup
import Mathlib.Logic.Function.Basic

/-!
# A write-back cache of decoded pages

Decoded pages are kept in order of use over a store of encoded ones. At most `maxPages` stay decoded: room
is made by writing back the least recently used page that is not pinned. `view` is what the cache stands
for: the decoded page of a key, or else what the store decodes to. Using a page changes the view at its key
only (`withPage_spec`), whatever is evicted on the way, and after `flush` the store alone shows the view.
-/

namespace Cantrip.Lib

open List

variable {κ π β ε α : Type} [DecidableEq κ]

/-- How pages are stored, and the errors of the cache itself. -/
structure PageCodec (π β ε : Type) where
  encode : π → Except ε β
  decode : β → Except ε π
  pinBudget : ε
  unavailable : ε

/-- A page that survives being written and read. -/
def PageCodec.Faithful (codec : PageCodec π β ε) (page : π) : Prop :=
  ∃ b, codec.encode page = .ok b ∧ codec.decode b = .ok page

structure PageEntry (π : Type) where
  page : π
  pins : Nat
  dirty : Bool

/-- `pages` holds the decoded pages, the least recently used first. -/
structure WriteBack (κ π β : Type) where
  pages : List (κ × PageEntry π)
  store : κ → Option β
  peak : Nat

abbrev WriteBackM (κ π β ε : Type) := EStateM ε (WriteBack κ π β)

section Assoc

def mapEntry (key : κ) (f : PageEntry π → PageEntry π) (pages : List (κ × PageEntry π)) : List (κ × PageEntry π) :=
  pages.map fun p => if p.1 = key then (p.1, f p.2) else p

def eraseEntry (key : κ) (pages : List (κ × PageEntry π)) : List (κ × PageEntry π) := pages.filter (·.1 ≠ key)

variable {pages : List (κ × PageEntry π)} {key k : κ} {entry : PageEntry π}

theorem lookup_append (pages rest : List (κ × PageEntry π)) :
    (pages ++ rest).lookup k = ((pages.lookup k).or (rest.lookup k)) := by
  induction pages with
  | nil => simp
  | cons p ps ih =>
    obtain ⟨k', e⟩ := p
    by_cases hk : k = k'
    · subst hk
      simp
    · have hne : (k == k') = false := by simpa using hk
      simp [lookup_cons, hne, ih]

theorem lookup_eraseEntry (pages : List (κ × PageEntry π)) :
    (eraseEntry key pages).lookup k = if k = key then none else pages.lookup k := by
  induction pages with
  | nil => simp [eraseEntry]
  | cons p ps ih =>
    obtain ⟨k', e⟩ := p
    simp only [eraseEntry] at ih ⊢
    by_cases hk' : k' = key
    · subst hk'
      rw [filter_cons_of_neg (by simp), ih]
      by_cases hk : k = k'
      · simp [hk]
      · have hne : (k == k') = false := by simpa using hk
        simp [lookup_cons, hk, hne]
    · rw [filter_cons_of_pos (by simpa using hk'), lookup_cons, lookup_cons, ih]
      by_cases hk : k = k'
      · subst hk
        simp [hk']
      · have hne : (k == k') = false := by simpa using hk
        simp [hne]

theorem lookup_mapEntry (f : PageEntry π → PageEntry π) (pages : List (κ × PageEntry π)) :
    (mapEntry key f pages).lookup k = if k = key then (pages.lookup k).map f else pages.lookup k := by
  induction pages with
  | nil => simp [mapEntry]
  | cons p ps ih =>
    obtain ⟨k', e⟩ := p
    simp only [mapEntry] at ih ⊢
    rw [map_cons]
    by_cases hk : k = k'
    · subst hk
      by_cases hk' : k = key
      · simp [hk']
      · simp [hk']
    · have hne : (k == k') = false := by simpa using hk
      by_cases hk' : k' = key
      · simp only [if_pos hk', lookup_cons, hne, ih]
      · simp only [if_neg hk', lookup_cons, hne, ih]

theorem mem_of_lookup (h : pages.lookup k = some entry) : (k, entry) ∈ pages := by
  induction pages with
  | nil => cases h
  | cons p ps ih =>
    obtain ⟨k', e⟩ := p
    rw [lookup_cons] at h
    by_cases hk : k = k'
    · subst hk
      simp only [beq_self_eq_true, Option.some.injEq] at h
      simp [h]
    · have hne : (k == k') = false := by simpa using hk
      rw [hne] at h
      exact mem_cons_of_mem _ (ih h)

theorem lookup_of_mem (hnodup : (pages.map Prod.fst).Nodup) (h : (k, entry) ∈ pages) : pages.lookup k = some entry := by
  induction pages with
  | nil => cases h
  | cons p ps ih =>
    obtain ⟨k', e⟩ := p
    rw [map_cons, nodup_cons] at hnodup
    rw [lookup_cons]
    rcases mem_cons.mp h with heq | hmem
    · cases heq
      simp
    · have hne : k ≠ k' := by
        rintro rfl
        exact hnodup.1 (mem_map.mpr ⟨_, hmem, rfl⟩)
      have hb : (k == k') = false := by simpa using hne
      rw [hb]
      exact ih hnodup.2 hmem

theorem eraseEntry_of_lookup_none (h : pages.lookup key = none) : eraseEntry key pages = pages := by
  apply filter_eq_self.mpr
  intro p hp
  have hne : p.1 ≠ key := by
    rintro rfl
    rw [lookup_eq_none_iff] at h
    simpa using h p hp
  simpa using hne

theorem mapEntry_insert (f : PageEntry π → PageEntry π) :
    mapEntry key f (eraseEntry key pages ++ [(key, entry)]) = eraseEntry key pages ++ [(key, f entry)] := by
  rw [mapEntry, map_append]
  congr 1
  · conv_rhs => rw [← map_id (eraseEntry key pages)]
    apply map_congr_left
    intro p hp
    have hne : p.1 ≠ key := by simpa using (mem_filter.mp hp).2
    rw [if_neg hne]
    rfl
  · simp

theorem mapEntry_keys (f : PageEntry π → PageEntry π) (pages : List (κ × PageEntry π)) :
    (mapEntry key f pages).map Prod.fst = pages.map Prod.fst := by
  rw [mapEntry, map_map]
  apply map_congr_left
  intro p _
  by_cases h : p.1 = key <;> simp [h]

theorem eraseEntry_nodup (h : (pages.map Prod.fst).Nodup) : ((eraseEntry key pages).map Prod.fst).Nodup :=
  h.sublist (filter_sublist.map _)

theorem insert_nodup (h : (pages.map Prod.fst).Nodup) :
    ((eraseEntry key pages ++ [(key, entry)]).map Prod.fst).Nodup := by
  rw [map_append, nodup_append]
  refine ⟨eraseEntry_nodup h, by simp, ?_⟩
  intro a ha b hb
  obtain ⟨p, hp, rfl⟩ := mem_map.mp ha
  have hne : p.1 ≠ key := by simpa using (mem_filter.mp hp).2
  simp only [map_cons, map_nil, mem_singleton] at hb
  rw [hb]
  exact hne

theorem eraseEntry_length_lt (h : pages.lookup key = some entry) : (eraseEntry key pages).length < pages.length := by
  apply length_filter_lt_length_iff_exists.mpr
  exact ⟨(key, entry), mem_of_lookup h, by simp⟩

end Assoc

/-! ## Operations -/

namespace WriteBack

variable (codec : PageCodec π β ε)

def write (key : κ) (entry : PageEntry π) : WriteBackM κ π β ε Unit := fun st =>
  if entry.dirty then
    match codec.encode entry.page with
    | .ok b =>
      .ok () { st with
        store := Function.update st.store key (some b)
        pages := mapEntry key (fun e => { e with dirty := false }) st.pages }
    | .error e => .error e st
  else .ok () st

/-- Write back and drop unpinned pages until one more fits. Every turn drops a page, so that `fuel` need not
exceed their number. -/
def room (maxPages : Nat) : Nat → WriteBackM κ π β ε Unit
  | 0 => pure ()
  | fuel + 1 => do
    let st ← get
    if maxPages ≤ st.pages.length then
      match st.pages.find? (·.2.pins = 0) with
      | none => throw codec.pinBudget
      | some (key, entry) =>
        write codec key entry
        modify fun st => { st with pages := eraseEntry key st.pages }
        room maxPages fuel
    else pure ()

/-- The page to decode, unless the caller brings a new one. -/
def loadPage (key : κ) (create : Option π) : WriteBackM κ π β ε π := fun st =>
  match create with
  | some page => .ok page st
  | none =>
    match st.store key with
    | none => .error codec.unavailable st
    | some b =>
      match codec.decode b with
      | .ok page => .ok page st
      | .error e => .error e st

/-- Decode a page unless it is there, make it the most recently used one and pin it. -/
def acquire (maxPages : Nat) (key : κ) (create : Option π) : WriteBackM κ π β ε π := do
  let st ← get
  match st.pages.lookup key with
  | some entry =>
    set { st with pages := eraseEntry key st.pages ++ [(key, { entry with pins := entry.pins + 1 })] }
    pure entry.page
  | none =>
    room codec maxPages st.pages.length
    let page ← loadPage codec key create
    modify fun st => { st with
      pages := st.pages ++ [(key, ⟨page, 1, create.isSome⟩)]
      peak := max st.peak (st.pages.length + 1) }
    pure page

def release (key : κ) (changed : Option π) : WriteBackM κ π β ε Unit := modify fun st =>
  { st with pages := mapEntry key (fun e => ⟨changed.getD e.page, e.pins - 1, e.dirty || changed.isSome⟩) st.pages }

/-- Use a page between `acquire` and `release`; the body says what the page becomes if it changes it. -/
def withPage (maxPages : Nat) (key : κ) (create : Option π) (body : π → Except ε (α × Option π)) :
    WriteBackM κ π β ε α := do
  let page ← acquire codec maxPages key create
  match body page with
  | .ok (a, changed) =>
    release key changed
    pure a
  | .error e =>
    release key none
    throw e

def flush : WriteBackM κ π β ε Unit := do
  let st ← get
  st.pages.forM fun p => write codec p.1 p.2

/-- What the cache stands for. -/
def view (st : WriteBack κ π β) (key : κ) : Option π :=
  match st.pages.lookup key with
  | some entry => some entry.page
  | none =>
    match st.store key with
    | none => none
    | some b => (codec.decode b).toOption

/-! ## What the operations keep -/

/-- Between two uses: no page is pinned, the number of pages is bounded, a page that is not dirty is in the
store, and every page of the view survives being written. -/
structure Sound (maxPages : Nat) (st : WriteBack κ π β) : Prop where
  nodup : (st.pages.map Prod.fst).Nodup
  unpinned : ∀ key entry, st.pages.lookup key = some entry → entry.pins = 0
  bounded : st.pages.length ≤ maxPages
  peak : st.peak ≤ maxPages
  faithful : ∀ key page, view codec st key = some page → codec.Faithful page
  clean : ∀ key entry, st.pages.lookup key = some entry → entry.dirty = false →
    ∃ b, st.store key = some b ∧ codec.decode b = .ok entry.page

variable {codec} {maxPages : Nat} {st : WriteBack κ π β} {key : κ}

theorem view_of_lookup {entry : PageEntry π} (h : st.pages.lookup key = some entry) :
    view codec st key = some entry.page := by
  simp [view, h]

theorem view_of_store {b : β} {page : π} (h : st.pages.lookup key = none) (hstore : st.store key = some b)
    (hdecode : codec.decode b = .ok page) : view codec st key = some page := by
  simp [view, h, hstore, hdecode, Except.toOption]

theorem write_spec (hs : Sound codec maxPages st) {entry : PageEntry π} (h : st.pages.lookup key = some entry) :
    ∃ st', write codec key entry st = .ok () st' ∧ Sound codec maxPages st' ∧
      (∀ k, view codec st' k = view codec st k) ∧ st'.pages.length = st.pages.length ∧
      st'.pages.lookup key = some { entry with dirty := false } ∧
      (∀ k, k ≠ key → st'.pages.lookup k = st.pages.lookup k) ∧
      ∃ b, st'.store key = some b ∧ codec.decode b = .ok entry.page := by
  by_cases hdirty : entry.dirty = true
  · obtain ⟨b, hencode, hdecode⟩ := hs.faithful key _ (view_of_lookup h)
    let st' : WriteBack κ π β := { st with
      store := Function.update st.store key (some b)
      pages := mapEntry key (fun e => { e with dirty := false }) st.pages }
    have hlookup : ∀ k, st'.pages.lookup k =
        if k = key then (st.pages.lookup k).map fun e => { e with dirty := false } else st.pages.lookup k :=
      fun k => lookup_mapEntry (fun e => { e with dirty := false }) st.pages
    have hkey : st'.pages.lookup key = some { entry with dirty := false } := by rw [hlookup, if_pos rfl, h]; rfl
    have hother : ∀ k, k ≠ key → st'.pages.lookup k = st.pages.lookup k := fun k hk => by rw [hlookup, if_neg hk]
    have hstore : ∀ k, k ≠ key → st'.store k = st.store k := fun k hk => Function.update_of_ne hk _ _
    have hview : ∀ k, view codec st' k = view codec st k := by
      intro k
      by_cases hk : k = key
      · subst hk
        rw [view_of_lookup hkey, view_of_lookup h]
      · simp only [view, hother k hk, hstore k hk]
    refine ⟨st', by simp only [write, if_pos hdirty, hencode]; rfl, ?_, hview, by simp [st', mapEntry], hkey, hother,
      b, Function.update_self _ _ _, hdecode⟩
    refine ⟨by rw [mapEntry_keys]; exact hs.nodup, ?_, by simpa [st', mapEntry] using hs.bounded, hs.peak, ?_, ?_⟩
    · intro k e he
      by_cases hk : k = key
      · subst hk
        rw [hkey] at he
        cases he
        exact hs.unpinned k entry h
      · rw [hother k hk] at he
        exact hs.unpinned k e he
    · intro k page hp
      rw [hview] at hp
      exact hs.faithful k page hp
    · intro k e he hclean
      by_cases hk : k = key
      · subst hk
        rw [hkey] at he
        cases he
        exact ⟨b, Function.update_self _ _ _, hdecode⟩
      · rw [hother k hk] at he
        rw [hstore k hk]
        exact hs.clean k e he hclean
  · have hclean : entry.dirty = false := by simpa using hdirty
    refine ⟨st, by simp only [write, if_neg hdirty], hs, fun _ => rfl, rfl, ?_, fun _ _ => rfl, hs.clean key entry h hclean⟩
    rw [h, ← hclean]

theorem erase_spec (hs : Sound codec maxPages st) {entry : PageEntry π} {b : β}
    (h : st.pages.lookup key = some entry) (hstore : st.store key = some b) (hdecode : codec.decode b = .ok entry.page) :
    Sound codec maxPages { st with pages := eraseEntry key st.pages } ∧
      ∀ k, view codec { st with pages := eraseEntry key st.pages } k = view codec st k := by
  have hview : ∀ k, view codec { st with pages := eraseEntry key st.pages } k = view codec st k := by
    intro k
    by_cases hk : k = key
    · subst hk
      rw [view_of_lookup h]
      exact view_of_store (by simp [lookup_eraseEntry]) hstore hdecode
    · simp only [view, lookup_eraseEntry, if_neg hk]
  have hlookup : ∀ k e, (eraseEntry key st.pages).lookup k = some e → st.pages.lookup k = some e := by
    intro k e he
    rw [lookup_eraseEntry] at he
    split_ifs at he
    exact he
  refine ⟨⟨eraseEntry_nodup hs.nodup, ?_, ?_, hs.peak, ?_, ?_⟩, hview⟩
  · intro k e he
    exact hs.unpinned k e (hlookup k e he)
  · exact Nat.le_trans (length_filter_le _ _) hs.bounded
  · intro k page hp
    rw [hview] at hp
    exact hs.faithful k page hp
  · intro k e he
    exact hs.clean k e (hlookup k e he)

theorem room_spec (hpos : 0 < maxPages) (fuel : Nat) :
    ∀ st : WriteBack κ π β, Sound codec maxPages st → st.pages.length ≤ fuel →
      ∃ st', room codec maxPages fuel st = .ok () st' ∧ Sound codec maxPages st' ∧
        (∀ k, view codec st' k = view codec st k) ∧ st'.pages.length < maxPages ∧
        ∀ k, st.pages.lookup k = none → st'.pages.lookup k = none := by
  induction fuel with
  | zero =>
    intro st hs hfuel
    exact ⟨st, rfl, hs, fun _ => rfl, by omega, fun _ h => h⟩
  | succ fuel ih =>
    intro st hs hfuel
    by_cases hfull : maxPages ≤ st.pages.length
    · -- the first page is unpinned, as all are
      obtain ⟨⟨key, entry⟩, rest, hpages⟩ := exists_cons_of_length_pos (show 0 < st.pages.length by omega)
      have hlookup : st.pages.lookup key = some entry := by
        rw [hpages]
        simp
      have hfind : st.pages.find? (·.2.pins = 0) = some (key, entry) := by
        rw [hpages]
        simp [hs.unpinned key entry hlookup]
      obtain ⟨st₁, hwrite, hs₁, hview₁, hlen₁, hkey₁, hother₁, b, hstore₁, hdecode₁⟩ := write_spec hs hlookup
      obtain ⟨hs₂, hview₂⟩ := erase_spec hs₁ hkey₁ hstore₁ hdecode₁
      have hlt := eraseEntry_length_lt hkey₁
      obtain ⟨st₃, hroom, hs₃, hview₃, hlen₃, hnone₃⟩ := ih _ hs₂ (by simp only; omega)
      refine ⟨st₃, ?_, hs₃, fun k => by rw [hview₃, hview₂, hview₁], hlen₃, ?_⟩
      · rw [room, run_get, if_pos hfull, hfind]
        dsimp only
        rw [run_bind hwrite, run_modify, hroom]
      · intro k hk
        apply hnone₃
        have hne : k ≠ key := by
          rintro rfl
          rw [hlookup] at hk
          cases hk
        rw [lookup_eraseEntry, if_neg hne, hother₁ k hne]
        exact hk
    · refine ⟨st, ?_, hs, fun _ => rfl, by omega, fun _ h => h⟩
      rw [room, run_get, if_neg hfull]
      rfl

/-- A page put at the end of the order of use. -/
def insert (st : WriteBack κ π β) (key : κ) (entry : PageEntry π) (peak : Nat) : WriteBack κ π β :=
  { st with pages := eraseEntry key st.pages ++ [(key, entry)], peak := peak }

theorem lookup_insert (st : WriteBack κ π β) (key : κ) (entry : PageEntry π) (peak : Nat) (k : κ) :
    (st.insert key entry peak).pages.lookup k = if k = key then some entry else st.pages.lookup k := by
  rw [insert, lookup_append, lookup_eraseEntry]
  by_cases hk : k = key
  · simp [hk]
  · have hne : (k == key) = false := by simpa using hk
    simp [hk, lookup_cons, hne]

theorem view_insert (st : WriteBack κ π β) (key : κ) (entry : PageEntry π) (peak : Nat) (k : κ) :
    view codec (st.insert key entry peak) k = if k = key then some entry.page else view codec st k := by
  by_cases hk : k = key
  · rw [if_pos hk]
    exact view_of_lookup (by rw [lookup_insert, if_pos hk])
  · simp only [view, lookup_insert, if_neg hk]
    rfl

theorem sound_insert (hs : Sound codec maxPages st) {entry : PageEntry π} {peak : Nat} (hpins : entry.pins = 0)
    (hroom : (eraseEntry key st.pages).length < maxPages) (hpeak : peak ≤ maxPages)
    (hfaithful : codec.Faithful entry.page)
    (hclean : entry.dirty = false → ∃ b, st.store key = some b ∧ codec.decode b = .ok entry.page) :
    Sound codec maxPages (st.insert key entry peak) := by
  refine ⟨insert_nodup hs.nodup, ?_, ?_, hpeak, ?_, ?_⟩
  · intro k e he
    rw [lookup_insert] at he
    split_ifs at he
    · cases he
      exact hpins
    · exact hs.unpinned k e he
  · simp only [insert, length_append, length_singleton]
    omega
  · intro k page hp
    rw [view_insert] at hp
    split_ifs at hp
    · cases hp
      exact hfaithful
    · exact hs.faithful k page hp
  · intro k e he
    rw [lookup_insert] at he
    split_ifs at he with hk
    · cases he
      subst hk
      exact hclean
    · exact hs.clean k e he

/-- The page a use of `key` sees: the one of the view, or the new one the caller brings. -/
def Opens (codec : PageCodec π β ε) (st : WriteBack κ π β) (key : κ) (create : Option π) (page : π) : Prop :=
  (create = none ∧ view codec st key = some page) ∨ (create = some page ∧ view codec st key = none)

theorem acquire_spec (hpos : 0 < maxPages) (hs : Sound codec maxPages st) {create : Option π} {page : π}
    (hopen : Opens codec st key create page) :
    ∃ st₁ dirty peak, acquire codec maxPages key create st = .ok page (st₁.insert key ⟨page, 1, dirty⟩ peak) ∧
      Sound codec maxPages st₁ ∧ (∀ k, view codec st₁ k = view codec st k) ∧
      (eraseEntry key st₁.pages).length < maxPages ∧ peak ≤ maxPages ∧
      (dirty = false → ∃ b, st₁.store key = some b ∧ codec.decode b = .ok page) := by
  cases hlookup : st.pages.lookup key with
  | some entry =>
    -- the page is decoded already, so that it is not a new one
    have hview : view codec st key = some entry.page := view_of_lookup hlookup
    have hpage : entry.page = page := by
      rcases hopen with ⟨-, h⟩ | ⟨-, h⟩
      · rw [hview] at h
        exact Option.some.inj h
      · rw [hview] at h
        cases h
    subst hpage
    refine ⟨st, entry.dirty, st.peak, ?_, hs, fun _ => rfl, ?_, hs.peak, hs.clean key entry hlookup⟩
    · rw [acquire, run_get, hlookup]
      dsimp only
      rw [run_set, hs.unpinned key entry hlookup]
      rfl
    · have := eraseEntry_length_lt hlookup
      have := hs.bounded
      omega
  | none =>
    obtain ⟨st₁, hroom, hs₁, hview₁, hlen₁, hnone₁⟩ := room_spec hpos _ st hs (Nat.le_refl _)
    have hnone := hnone₁ key hlookup
    have herase := eraseEntry_of_lookup_none hnone
    have hload : ∃ dirty, loadPage codec key create st₁ = .ok page st₁ ∧ create.isSome = dirty ∧
        (dirty = false → ∃ b, st₁.store key = some b ∧ codec.decode b = .ok page) := by
      rcases hopen with ⟨rfl, h⟩ | ⟨rfl, h⟩
      · rw [← hview₁, view, hnone] at h
        cases hstore : st₁.store key with
        | none =>
          rw [hstore] at h
          cases h
        | some b =>
          rw [hstore] at h
          cases hdecode : codec.decode b with
          | error e =>
            simp only [hdecode, Except.toOption] at h
            cases h
          | ok p =>
            simp only [hdecode, Except.toOption] at h
            cases h
            exact ⟨false, by simp [loadPage, hstore, hdecode], rfl, fun _ => ⟨b, rfl, hdecode⟩⟩
      · exact ⟨true, rfl, rfl, by simp⟩
    obtain ⟨dirty, hload, hdirty, hclean⟩ := hload
    refine ⟨st₁, dirty, max st₁.peak (st₁.pages.length + 1), ?_, hs₁, hview₁, by rw [herase]; exact hlen₁, ?_, hclean⟩
    · rw [acquire, run_get, hlookup]
      dsimp only
      rw [run_bind hroom, run_bind hload, run_modify, hdirty, insert, herase]
      rfl
    · have := hs₁.peak
      omega

theorem withPage_spec (hpos : 0 < maxPages) (hs : Sound codec maxPages st) {create : Option π} {page : π} {a : α}
    {changed : Option π} {body : π → Except ε (α × Option π)} (hopen : Opens codec st key create page)
    (hbody : body page = .ok (a, changed)) (hfaithful : codec.Faithful (changed.getD page)) :
    ∃ st', withPage codec maxPages key create body st = .ok a st' ∧ Sound codec maxPages st' ∧
      ∀ k, view codec st' k = if k = key then some (changed.getD page) else view codec st k := by
  obtain ⟨st₁, dirty, peak, hacquire, hs₁, hview₁, hlen, hpeak, hclean⟩ := acquire_spec hpos hs hopen
  refine ⟨st₁.insert key ⟨changed.getD page, 0, dirty || changed.isSome⟩ peak, ?_, ?_, ?_⟩
  · rw [withPage, run_bind hacquire, hbody]
    dsimp only
    rw [release, run_modify, insert, mapEntry_insert]
    rfl
  · refine sound_insert hs₁ rfl hlen hpeak hfaithful ?_
    intro hd
    obtain ⟨hd', hsome⟩ := Bool.or_eq_false_iff.mp hd
    cases changed with
    | none => exact hclean hd'
    | some _ => cases hsome
  · intro k
    rw [view_insert]
    simp only [hview₁]

theorem writes_spec (todo : List (κ × PageEntry π)) :
    ∀ st : WriteBack κ π β, Sound codec maxPages st → (todo.map Prod.fst).Nodup →
      (∀ p ∈ todo, st.pages.lookup p.1 = some p.2) →
      ∃ st', todo.forM (fun p => write codec p.1 p.2) st = .ok () st' ∧ Sound codec maxPages st' ∧
        (∀ k, view codec st' k = view codec st k) ∧
        ∀ k entry, st'.pages.lookup k = some entry →
          (k ∈ todo.map Prod.fst ∧ entry.dirty = false) ∨ (k ∉ todo.map Prod.fst ∧ st.pages.lookup k = some entry) := by
  induction todo with
  | nil =>
    intro st hs _ _
    exact ⟨st, rfl, hs, fun _ => rfl, fun k entry h => .inr ⟨by simp, h⟩⟩
  | cons p todo ih =>
    intro st hs hnodup hlookup
    obtain ⟨key, entry⟩ := p
    rw [map_cons, nodup_cons] at hnodup
    obtain ⟨st₁, hwrite, hs₁, hview₁, -, hkey₁, hother₁, -⟩ := write_spec hs (hlookup (key, entry) (by simp))
    have hrest : ∀ p ∈ todo, st₁.pages.lookup p.1 = some p.2 := by
      intro p hp
      have hne : p.1 ≠ key := by
        intro h
        exact hnodup.1 (mem_map.mpr ⟨p, hp, h⟩)
      rw [hother₁ p.1 hne]
      exact hlookup p (mem_cons_of_mem _ hp)
    obtain ⟨st₂, hrun, hs₂, hview₂, hafter⟩ := ih st₁ hs₁ hnodup.2 hrest
    refine ⟨st₂, ?_, hs₂, fun k => by rw [hview₂, hview₁], ?_⟩
    · show (write codec key entry >>= fun _ => todo.forM fun p => write codec p.1 p.2) st = _
      simp only [bind, EStateM.bind, hwrite]
      exact hrun
    · intro k e he
      rcases hafter k e he with ⟨hmem, hclean⟩ | ⟨hmem, hold⟩
      · exact .inl ⟨by simp [hmem], hclean⟩
      · by_cases hk : k = key
        · subst hk
          rw [hkey₁] at hold
          cases hold
          exact .inl ⟨by simp, rfl⟩
        · rw [hother₁ k hk] at hold
          exact .inr ⟨by simp [hk, hmem], hold⟩

theorem flush_spec (hs : Sound codec maxPages st) :
    ∃ st', flush codec st = .ok () st' ∧ Sound codec maxPages st' ∧ (∀ k, view codec st' k = view codec st k) ∧
      ∀ k, view codec (⟨[], st'.store, 0⟩ : WriteBack κ π β) k = view codec st k := by
  obtain ⟨st', hrun, hs', hview, hafter⟩ := writes_spec st.pages st hs hs.nodup
    (fun p hp => lookup_of_mem hs.nodup hp)
  refine ⟨st', by rw [flush, run_get]; exact hrun, hs',
    hview, ?_⟩
  intro k
  rw [← hview]
  cases hlookup : st'.pages.lookup k with
  | none => simp [view, hlookup]
  | some entry =>
    have hclean : entry.dirty = false := by
      rcases hafter k entry hlookup with ⟨-, h⟩ | ⟨hmem, hold⟩
      · exact h
      · exact absurd (mem_map_of_mem (mem_of_lookup hold)) hmem
    obtain ⟨b, hstore, hdecode⟩ := hs'.clean k entry hlookup hclean
    rw [view_of_lookup hlookup]
    exact view_of_store rfl hstore hdecode

theorem sound_start (store : κ → Option β)
    (hfaithful : ∀ key page, view codec (⟨[], store, 0⟩ : WriteBack κ π β) key = some page → codec.Faithful page) :
    Sound codec maxPages (⟨[], store, 0⟩ : WriteBack κ π β) :=
  { nodup := nodup_nil
    unpinned := fun _ _ h => by cases h
    bounded := Nat.zero_le _
    peak := Nat.zero_le _
    faithful := hfaithful
    clean := fun _ _ h => by cases h }

end WriteBack

end Cantrip.Lib
