import Cantrip.Lib.Buffer
import Cantrip.Nbt.SearchRows
import Mathlib.Logic.Function.Basic

/-!
# Search results (`packages/nbt/src/search/results.ts`)

`NbtSearchResults` keeps runs of matches: a row stands for `count` results from rank `rank` on. The last rows wait in
`pending`; full pages are flushed to an encrypted cache as JSON texts, cut into parts, with a manifest. A read finds
the page of a rank by binary search over the ranks and goes on with the pending rows. The cache is taken to keep what
it is given; the abort signal is left out.
-/

namespace Cantrip.Nbt

open Lib List Function

inductive NbtSearchField
  | name | value | type | path
  deriving DecidableEq, Repr

/-- What a call of `appendRange` asks for. Indices of elements are safe integers, as those of an array are. -/
structure NbtMatchRange where
  nodeId : Utf16
  elementIndex : Option Nat
  count : Nat
  matched : List NbtSearchField
  safe : ∀ e, elementIndex = some e → e + count ≤ maxSafeInteger

structure NbtSearchResult where
  id : String
  nodeId : Utf16
  elementIndex : Option Nat
  fields : List NbtSearchField
  deriving DecidableEq, Repr

namespace SearchResults

def fields : List NbtSearchField := [.name, .value, .type, .path]

def PAGE : Nat := 256

inductive Failure
  | range (error : NbtError)
  | message (text : String)
  deriving DecidableEq, Repr

inductive Key
  | manifest (page : Nat)
  | part (page part : Nat)
  deriving DecidableEq

structure State where
  pending : List RecordRow := []
  pages : Nat := 0
  pendingBytes : Nat := 0
  total : Nat := 0
  pendingStart : Nat := 0
  cache : Key → Option Bytes := fun _ => none

/-! ## Pages -/

/-- Parts of a page of `length` bytes. -/
def partCount (length : Nat) : Nat := (length + NBT_PAGE_BYTES - 1) / NBT_PAGE_BYTES

def storeParts (cache : Key → Option Bytes) (page : Nat) (bytes : Bytes) : Key → Option Bytes :=
  (List.range (partCount bytes.length)).foldl (fun cache part =>
    Function.update cache (.part page part) (some (pageAt NBT_PAGE_BYTES bytes part))) cache

def flush (s : State) : Except Failure State :=
  if s.pending = [] then .ok s
  else
    let bytes := textBytes (rowsText s.pending)
    if 256 * 1024 < bytes.length then .error (.message "NBT result identity exceeds the bounded page size.")
    else
      let manifest := textBytes (ResultManifest.text ⟨1, bytes.length, partCount bytes.length⟩)
      .ok { s with
        cache := Function.update (storeParts s.cache s.pages bytes) (.manifest s.pages) (some manifest)
        pages := s.pages + 1
        pending := []
        pendingBytes := 0
        pendingStart := s.total }

/-- The parts from `part` on, `n` of them. -/
def joinParts (cache : Key → Option Bytes) (index length : Nat) : Nat → Nat → Bytes → Except Failure Bytes
  | 0, _, bytes => .ok bytes
  | n + 1, part, bytes =>
    match cache (.part index part) with
    | none => .error (.message "NBT search result page is incomplete.")
    | some page =>
      if page.length ≠ min NBT_PAGE_BYTES (length - part * NBT_PAGE_BYTES) then
        .error (.message "Invalid NBT result page size.")
      else joinParts cache index length n (part + 1) (overwrite bytes (part * NBT_PAGE_BYTES) page)

def load (cache : Key → Option Bytes) (index : Nat) : Except Failure (List RecordRow) :=
  match cache (.manifest index) with
  | none => .error (.message "NBT search results are unavailable.")
  | some manifest =>
    match (bytesText manifest).bind parseManifest with
    | none => .error (.message "SyntaxError")
    | some m =>
      if m.version ≠ 1 ∨ maxSafeInteger < m.length ∨ m.length < 1 ∨ 256 * 1024 < m.length ∨ m.parts ≠ partCount m.length then
        .error (.message "Invalid NBT result manifest.")
      else
        match joinParts cache index m.length m.parts 0 (zeros m.length) with
        | .error e => .error e
        | .ok bytes =>
          match (bytesText bytes).bind parseRows with
          | none => .error (.message "SyntaxError")
          | some records =>
            if records = [] ∨ PAGE < records.length then .error (.message "Invalid NBT result page.") else .ok records

def page (s : State) (index : Nat) : Except Failure (List RecordRow) :=
  if index = s.pages then .ok s.pending else load s.cache index

def fieldMask (matched : List NbtSearchField) : Nat := matched.foldl (fun bits field => bits ||| 1 <<< fields.idxOf field) 0

def merge (s : State) (m : NbtMatchRange) (mask : Nat) : Option (List RecordRow) :=
  match m.elementIndex, s.pending.getLast? with
  | some element, some last =>
    if last.nodeId = m.nodeId ∧ 0 ≤ last.element ∧ last.element + last.count = element ∧ last.mask = mask then
      some (s.pending.dropLast ++ [{ last with count := last.count + m.count }])
    else none
  | _, _ => none

/-- The end of `appendRange`. -/
def counted (s : State) (count : Nat) : State × Except Failure Unit :=
  let s := { s with total := s.total + count }
  if s.pending.length = PAGE then
    match flush s with
    | .ok s => (s, .ok ())
    | .error e => (s, .error e)
  else (s, .ok ())

/-- The state after the call, and whether it threw. -/
def appendRange (s : State) (m : NbtMatchRange) : State × Except Failure Unit :=
  if m.nodeId = [] then (s, .error (.message "Invalid NBT result identity."))
  else
    match assertRange s.total m.count with
    | .error e => (s, .error (.range e))
    | .ok () =>
      if m.count = 0 then (s, .ok ())
      else
        let mask := fieldMask m.matched
        match merge s m mask with
        | some pending => counted { s with pending } m.count
        | none =>
          let cost := m.nodeId.length * 6 + 128
          match if s.pending ≠ [] ∧ 32768 < s.pendingBytes + cost then flush s else .ok s with
          | .error e => (s, .error e)
          | .ok s =>
            let element : Int := match m.elementIndex with
              | some e => e
              | none => -1
            counted { s with
              pendingBytes := s.pendingBytes + cost
              pending := s.pending ++ [⟨m.nodeId, element, m.count, mask, s.total⟩] } m.count

/-! ## Reading -/

/-- The binary search of `locate` over the pages from `lo` up to `hi` (one more than the source's). -/
def search (s : State) (rank : Nat) : Nat → Nat → Nat → Except Failure (List RecordRow)
  | 0, _, _ => .error (.message "NBT search result rank is unavailable.")
  | fuel + 1, lo, hi =>
    if lo < hi then
      let mid := (lo + (hi - 1)) / 2
      match page s mid with
      | .error e => .error e
      | .ok records =>
        match records.head?, records.getLast? with
        | some first, some last =>
          if rank < first.rank then search s rank fuel lo mid
          else if last.rank + last.count ≤ rank then search s rank fuel (mid + 1) hi
          else .ok records
        | _, _ => .error (.message "TypeError")
    else .error (.message "NBT search result rank is unavailable.")

def locate (s : State) (rank : Nat) : Except Failure (List RecordRow) :=
  if s.pendingStart ≤ rank then page s s.pages else search s rank (s.pages + 1) 0 s.pages

def maskFields (mask : Nat) : List NbtSearchField :=
  (fields.zipIdx.filter fun f => mask &&& 1 <<< f.2 ≠ 0).map Prod.fst

/-- The result of rank `rank` in a row. -/
def rowResult (row : RecordRow) (rank : Nat) : NbtSearchResult where
  id := "result:" ++ toString rank
  nodeId := row.nodeId
  elementIndex := if row.element < 0 then none else some (row.element + rank - row.rank).toNat
  fields := maskFields row.mask

/-- The loop over the rows of a page, with the rank it has come to and whether it moved. -/
def takeRows (end_ : Nat) : List RecordRow → Nat → List NbtSearchResult → Bool → Nat × List NbtSearchResult × Bool
  | [], rank, result, advanced => (rank, result, advanced)
  | row :: rows, rank, result, advanced =>
    if rank < row.rank ∨ row.rank + row.count ≤ rank then takeRows end_ rows rank result advanced
    else
      let count := min (end_ - rank) (row.rank + row.count - rank)
      let result := result ++ (List.range count).map fun i => rowResult row (rank + i)
      if end_ ≤ rank + count then (rank + count, result, true) else takeRows end_ rows (rank + count) result true

def readLoop (s : State) (end_ : Nat) : Nat → Nat → List NbtSearchResult → Except Failure (List NbtSearchResult)
  | 0, _, result => .ok result
  | fuel + 1, rank, result =>
    if rank < end_ then
      match locate s rank with
      | .error e => .error e
      | .ok records =>
        match takeRows end_ records rank result false with
        | (rank, result, true) => readLoop s end_ fuel rank result
        | (_, _, false) => .error (.message "NBT search result page is incomplete.")
    else .ok result

def read (s : State) (offset limit : Nat) : Except Failure (List NbtSearchResult) :=
  match assertRange offset limit with
  | .error e => .error (.range e)
  | .ok () =>
    if 128 < limit then .error (.message "Search pages are limited to 128 results.")
    else
      let end_ := min s.total (offset + limit)
      readLoop s end_ (end_ - offset + 1) offset []

theorem testBit_fieldMask (matched : List NbtSearchField) (i : Nat) :
    (fieldMask matched).testBit i = matched.any fun field => decide (fields.idxOf field = i) := by
  have hfold : ∀ bits, (matched.foldl (fun bits field => bits ||| 1 <<< fields.idxOf field) bits).testBit i
      = (bits.testBit i || matched.any fun field => decide (fields.idxOf field = i)) := by
    induction matched with
    | nil => simp
    | cons field matched ih =>
      intro bits
      rw [foldl_cons, ih, Nat.testBit_or, Nat.one_shiftLeft, Nat.testBit_two_pow, any_cons, Bool.or_assoc]
  rw [fieldMask, hfold, Nat.zero_testBit, Bool.false_or]

theorem fieldMask_lt (matched : List NbtSearchField) : fieldMask matched < 2 ^ 4 := by
  refine Nat.lt_pow_two_of_testBit _ fun i hi => ?_
  rw [testBit_fieldMask, any_eq_false]
  intro field _
  have hlt : fields.idxOf field < 4 := by cases field <;> decide
  simp only [decide_eq_true_eq]
  omega

theorem maskFields_fieldMask (matched : List NbtSearchField) :
    maskFields (fieldMask matched) = fields.filter fun field => decide (field ∈ matched) := by
  have hbit : ∀ i, decide (fieldMask matched &&& 1 <<< i ≠ 0) = matched.any fun field => decide (fields.idxOf field = i) := by
    intro i
    rw [← testBit_fieldMask, Nat.one_shiftLeft, Nat.and_two_pow]
    cases (fieldMask matched).testBit i <;> simp
  have hmem : ∀ field, (matched.any fun f => decide (fields.idxOf f = fields.idxOf field)) = decide (field ∈ matched) := by
    intro field
    rw [Bool.eq_iff_iff, any_eq_true, decide_eq_true_iff]
    have hinj : ∀ f, fields.idxOf f = fields.idxOf field → f = field := by
      intro f
      cases f <;> cases field <;> decide
    refine ⟨fun ⟨f, hf, heq⟩ => ?_, fun hf => ⟨field, hf, decide_eq_true rfl⟩⟩
    rw [← hinj f (of_decide_eq_true heq)]
    exact hf
  have hzip : fields.zipIdx = fields.map fun field => (field, fields.idxOf field) := by decide
  rw [maskFields, hzip, filter_map, map_map]
  refine (map_id _).trans (filter_congr fun field _ => ?_)
  rw [← hmem field, ← hbit]
  rfl

/-! ## The flat list of results -/

/-- A result without its rank. -/
structure Entry where
  nodeId : Utf16
  elementIndex : Option Nat
  fields : List NbtSearchField
  deriving DecidableEq, Repr

/-- What a call contributes: a result for each element, or for the tag as often as it says. -/
def entries (m : NbtMatchRange) : List Entry :=
  (List.range m.count).map fun i =>
    ⟨m.nodeId, m.elementIndex.map (· + i), fields.filter fun field => decide (field ∈ m.matched)⟩

/-- Results with their ranks, from `rank` on. -/
def numbered (rank : Nat) (flat : List Entry) : List NbtSearchResult :=
  (flat.zipIdx rank).map fun e => ⟨"result:" ++ toString e.2, e.1.nodeId, e.1.elementIndex, e.1.fields⟩

theorem numbered_append (rank : Nat) (a b : List Entry) :
    numbered rank (a ++ b) = numbered rank a ++ numbered (rank + a.length) b := by
  rw [numbered, zipIdx_append, map_append]
  rfl

def expand (row : RecordRow) : List Entry :=
  (List.range row.count).map fun (i : Nat) =>
    ⟨row.nodeId, if row.element < 0 then none else some (row.element + (i : Int)).toNat, maskFields row.mask⟩

@[simp] theorem expand_length (row : RecordRow) : (expand row).length = row.count := by simp [expand]

/-- Results in some rows. -/
def size (rows : List RecordRow) : Nat := (rows.map RecordRow.count).sum

@[simp] theorem size_nil : size [] = 0 := rfl

@[simp] theorem size_cons (row : RecordRow) (rows : List RecordRow) : size (row :: rows) = row.count + size rows := rfl

@[simp] theorem size_append (a b : List RecordRow) : size (a ++ b) = size a + size b := by simp [size]

theorem flatMap_expand_length (rows : List RecordRow) : (rows.flatMap expand).length = size rows := by
  induction rows with
  | nil => rfl
  | cons row rows ih => rw [flatMap_cons, length_append, expand_length, ih, size_cons]

def Ranked : Nat → List RecordRow → Prop
  | _, [] => True
  | start, row :: rows => row.rank = start ∧ 0 < row.count ∧ Ranked (start + row.count) rows

theorem ranked_append (start : Nat) (a b : List RecordRow) :
    Ranked start (a ++ b) ↔ Ranked start a ∧ Ranked (start + size a) b := by
  induction a generalizing start with
  | nil => simp [Ranked]
  | cons row a ih =>
    rw [cons_append, Ranked, Ranked, ih, size_cons, Nat.add_assoc, and_assoc, and_assoc]

theorem map_rowResult {row : RecordRow} {rank count : Nat} (hlow : row.rank ≤ rank) (hhigh : rank + count ≤ row.rank + row.count) :
    ((List.range count).map fun i => rowResult row (rank + i)) = numbered rank (slice (expand row) (rank - row.rank) count) := by
  have hlen : (slice (expand row) (rank - row.rank) count).length = count :=
    slice_length _ (by rw [expand_length]; omega)
  refine ext_getElem ?_ fun i hi hi' => ?_
  · rw [length_map, length_range, numbered, length_map, length_zipIdx, hlen]
  · rw [length_map, length_range] at hi
    have hsum : row.element + ((rank + i : Nat) : Int) - row.rank = row.element + ((rank - row.rank + i : Nat) : Int) := by omega
    simp only [numbered, slice, expand, getElem_map, getElem_zipIdx, getElem_take, getElem_drop,
      getElem_range, rowResult, hsum]

theorem takeRows_eq {end_ : Nat} (rows : List RecordRow) :
    ∀ {start rank : Nat} (result : List NbtSearchResult) (advanced : Bool), Ranked start rows → start ≤ rank → rank < end_ →
      takeRows end_ rows rank result advanced = (max rank (min end_ (start + size rows)),
          result ++ numbered rank (slice (rows.flatMap expand) (rank - start) (min end_ (start + size rows) - rank)),
          advanced || decide (rank < start + size rows)) := by
  induction rows with
  | nil =>
    intro start rank result advanced _ hlow hend
    have hnone : min end_ (start + size []) - rank = 0 := by
      rw [size_nil]
      omega
    have hmax : max rank (min end_ (start + size [])) = rank := by
      rw [size_nil]
      omega
    have hpast : ¬rank < start + size [] := by
      rw [size_nil]
      omega
    rw [takeRows, hnone, hmax, decide_eq_false hpast, slice_zero]
    simp [numbered]
  | cons row rows ih =>
    intro start rank result advanced hranked hlow hend
    obtain ⟨hrank, hpos, hrest⟩ := hranked
    rw [takeRows, flatMap_cons, size_cons]
    by_cases hskip : rank < row.rank ∨ row.rank + row.count ≤ rank
    · rw [if_pos hskip, ih result advanced hrest (by omega) hend, ← Nat.add_assoc]
      have hoffset : rank - start = (expand row).length + (rank - (start + row.count)) := by
        rw [expand_length]
        omega
      rw [hoffset, slice_append_right]
    · rw [if_neg hskip]
      set count := min (end_ - rank) (row.rank + row.count - rank) with hcount
      have hfits : rank - start + count ≤ (expand row).length := by
        rw [expand_length]
        omega
      have hpiece := @map_rowResult row rank count (by omega) (by omega)
      rw [hrank, ← @slice_append_of_le _ (expand row) (rows.flatMap expand) _ _ hfits] at hpiece
      have hin : rank < start + (row.count + size rows) := by omega
      simp only [hpiece]
      by_cases hstop : end_ ≤ rank + count
      · have hmin : min end_ (start + (row.count + size rows)) = rank + count := by omega
        rw [if_pos hstop, hmin, Nat.max_eq_right (Nat.le_add_right _ _), Nat.add_sub_cancel_left, decide_eq_true hin,
          Bool.or_true]
      · have hnext : rank + count = start + row.count := by omega
        have hmin : rank + count ≤ min end_ (start + (row.count + size rows)) := by omega
        set last := min end_ (start + (row.count + size rows)) with hlast
        have hwhole : slice (expand row ++ rows.flatMap expand) (rank - start) (last - rank)
            = slice (expand row ++ rows.flatMap expand) (rank - start) count
              ++ slice (rows.flatMap expand) 0 (last - (rank + count)) := by
          have hsplit := slice_append_slice (expand row ++ rows.flatMap expand) (rank - start) count (last - (rank + count))
          have hoffset : rank - start + count = (expand row).length + 0 := by
            rw [expand_length]
            omega
          rw [hoffset, slice_append_right] at hsplit
          rw [hsplit]
          congr 1
          omega
        have hcut : (slice (expand row ++ rows.flatMap expand) (rank - start) count).length = count := by
          rw [slice_append_of_le hfits]
          exact slice_length _ hfits
        rw [if_neg hstop, ih _ true hrest (by omega) (by omega), decide_eq_true hin, Bool.or_true, Bool.true_or, Nat.add_assoc,
          ← hlast, hnext, Nat.sub_self, ← hnext, hwhole, numbered_append, hcut, append_assoc, Nat.max_eq_right hmin,
          Nat.max_eq_right (by omega)]

/-! ## Pages of the cache -/

theorem storeParts_apply (cache : Key → Option Bytes) (page : Nat) (bytes : Bytes) (key : Key) :
    (∃ part < partCount bytes.length, key = .part page part ∧
      storeParts cache page bytes key = some (pageAt NBT_PAGE_BYTES bytes part)) ∨
    (∀ part < partCount bytes.length, key ≠ .part page part) ∧ storeParts cache page bytes key = cache key := by
  unfold storeParts
  generalize partCount bytes.length = n
  induction n with
  | zero => exact .inr ⟨fun part hpart => absurd hpart (Nat.not_lt_zero _), rfl⟩
  | succ n ih =>
    rw [range_succ, foldl_append, foldl_cons, foldl_nil]
    by_cases hkey : key = .part page n
    · subst hkey
      exact .inl ⟨n, Nat.lt_succ_self n, rfl, update_self _ _ _⟩
    · rw [update_of_ne hkey]
      rcases ih with ⟨part, hpart, hpage, hstored⟩ | ⟨hother, hsame⟩
      · exact .inl ⟨part, hpart.trans (Nat.lt_succ_self n), hpage, hstored⟩
      · refine .inr ⟨fun part hpart => ?_, hsame⟩
        rcases Nat.lt_succ_iff_lt_or_eq.mp hpart with hlt | rfl
        · exact hother part hlt
        · exact hkey

theorem lt_partCount {length part : Nat} : part < partCount length ↔ part * NBT_PAGE_BYTES < length := by
  simp only [partCount, NBT_PAGE_BYTES]
  omega

variable {cache : Key → Option Bytes} {flat : List Entry} {m : NbtMatchRange} {s : State}

theorem joinParts_stored {index : Nat} {bytes : Bytes}
    (hcache : ∀ part < partCount bytes.length, cache (.part index part) = some (pageAt NBT_PAGE_BYTES bytes part)) (n : Nat) :
    ∀ (part : Nat) (buffer : Bytes), part + n = partCount bytes.length → buffer.length = bytes.length →
      buffer.take (part * NBT_PAGE_BYTES) = bytes.take (part * NBT_PAGE_BYTES) →
      joinParts cache index bytes.length n part buffer = .ok bytes := by
  induction n with
  | zero =>
    intro part buffer hpart hlength htake
    have hall : ¬part * NBT_PAGE_BYTES < bytes.length := fun hlt => absurd (lt_partCount.mpr hlt) (by omega)
    rw [take_of_length_le (by omega), take_of_length_le (by omega)] at htake
    rw [joinParts, htake]
  | succ n ih =>
    intro part buffer hpart hlength htake
    have hlt : part * NBT_PAGE_BYTES < bytes.length := lt_partCount.mp (by omega)
    have hpage : (pageAt NBT_PAGE_BYTES bytes part).length = min NBT_PAGE_BYTES (bytes.length - part * NBT_PAGE_BYTES) := by
      simp [pageAt, slice]
    rw [joinParts, hcache part (by omega)]
    simp only [hpage, ne_eq, not_true_eq_false, if_false]
    have hfits : part * NBT_PAGE_BYTES + (pageAt NBT_PAGE_BYTES bytes part).length ≤ buffer.length := by omega
    have hnext := @overwrite_take buffer (pageAt NBT_PAGE_BYTES bytes part) (part * NBT_PAGE_BYTES) (by omega)
    refine ih (part + 1) _ (by omega) ((overwrite_length hfits).trans hlength) ?_
    have hwhole : buffer.take (part * NBT_PAGE_BYTES) ++ pageAt NBT_PAGE_BYTES bytes part
        = bytes.take ((part + 1) * NBT_PAGE_BYTES) := by
      rw [htake, Nat.add_mul, Nat.one_mul, take_add]
      rfl
    have hnew := overwrite_length hfits
    rw [hwhole] at hnext
    rw [← hnext]
    by_cases hfull : (pageAt NBT_PAGE_BYTES bytes part).length = NBT_PAGE_BYTES
    · rw [hfull, Nat.add_mul, Nat.one_mul]
    · -- the last part: both are all of the buffer
      have hend : part * NBT_PAGE_BYTES + (pageAt NBT_PAGE_BYTES bytes part).length = bytes.length := by omega
      rw [take_of_length_le, take_of_length_le]
      · omega
      · rw [Nat.add_mul, Nat.one_mul]
        omega

theorem joinParts_congr {cache' : Key → Option Bytes} {index : Nat} (length : Nat)
    (h : ∀ part, cache' (.part index part) = cache (.part index part)) (n : Nat) :
    ∀ part buffer, joinParts cache' index length n part buffer = joinParts cache index length n part buffer := by
  induction n with
  | zero => exact fun _ _ => rfl
  | succ n ih =>
    intro part buffer
    rw [joinParts, joinParts, h]
    simp only [ih]

theorem load_congr {cache' : Key → Option Bytes} {index : Nat}
    (hmanifest : cache' (.manifest index) = cache (.manifest index))
    (h : ∀ part, cache' (.part index part) = cache (.part index part)) : load cache' index = load cache index := by
  simp only [load, hmanifest, joinParts_congr _ h]

theorem load_stored {rows : List RecordRow} (hrows : rows ≠ []) (hshort : rows.length ≤ PAGE)
    (hbytes : (textBytes (rowsText rows)).length ≤ 256 * 1024) (cache : Key → Option Bytes) (index : Nat) :
    load (Function.update (storeParts cache index (textBytes (rowsText rows))) (.manifest index) (some (textBytes
      (ResultManifest.text ⟨1, (textBytes (rowsText rows)).length, partCount (textBytes (rowsText rows)).length⟩)))) index
      = .ok rows := by
  set bytes := textBytes (rowsText rows) with hb
  have hpos : 1 ≤ bytes.length := by
    rw [hb, rowsText, append_assoc, textBytes_append, length_append]
    exact Nat.le_add_right _ _
  have hparts : ∀ part < partCount bytes.length, Function.update (storeParts cache index bytes) (.manifest index)
      (some (textBytes (ResultManifest.text ⟨1, bytes.length, partCount bytes.length⟩))) (.part index part)
      = some (pageAt NBT_PAGE_BYTES bytes part) := by
    intro part hpart
    rw [update_of_ne (by simp)]
    rcases storeParts_apply cache index bytes (.part index part) with ⟨part', _, hkey, hstored⟩ | ⟨hother, -⟩
    · cases hkey
      exact hstored
    · exact absurd rfl (hother part hpart)
  have hsound : ¬(1 ≠ 1 ∨ maxSafeInteger < bytes.length ∨ bytes.length < 1 ∨ 256 * 1024 < bytes.length ∨
      partCount bytes.length ≠ partCount bytes.length) := by
    have hsafe : 256 * 1024 ≤ maxSafeInteger := by decide
    simp only [ne_eq, not_true_eq_false, false_or, or_false]
    omega
  rw [load, update_self]
  simp only [bytesText_textBytes, Option.bind_some, parseManifest_text, if_neg hsound]
  rw [joinParts_stored hparts _ 0 _ (Nat.zero_add _) (zeros_length _) (by rw [Nat.zero_mul, take_zero, take_zero])]
  simp only [hb, bytesText_textBytes, Option.bind_some, parseRows_text]
  rw [if_neg]
  rw [not_or]
  exact ⟨hrows, Nat.not_lt.mpr hshort⟩

theorem load_other {i index : Nat} (hother : i ≠ index) (cache : Key → Option Bytes) (bytes manifest : Bytes) :
    load (Function.update (storeParts cache index bytes) (.manifest index) (some manifest)) i = load cache i := by
  have hsame (key : Key) (hkey : ∀ part, key ≠ .part index part) : storeParts cache index bytes key = cache key := by
    rcases storeParts_apply cache index bytes key with ⟨part, _, hpart, _⟩ | ⟨-, hsame⟩
    · exact absurd hpart (hkey part)
    · exact hsame
  refine load_congr ?_ fun part => ?_
  · have hmanifest : Key.manifest i ≠ .manifest index := fun heq => hother (Key.manifest.inj heq)
    rw [update_of_ne hmanifest]
    exact hsame _ fun part heq => (nomatch heq)
  · have hpart : Key.part i part ≠ .manifest index := fun heq => (nomatch heq)
    rw [update_of_ne hpart]
    exact hsame _ fun part' heq => hother (Key.part.inj heq).1

/-! ## The invariant -/

structure Holds (s : State) (stored : List (List RecordRow)) (flat : List Entry) : Prop where
  pages : stored.length = s.pages
  loads : ∀ i rows, stored[i]? = some rows → load s.cache i = .ok rows
  nonempty : ∀ rows ∈ stored, rows ≠ []
  ranked : Ranked 0 (stored.flatten ++ s.pending)
  total : s.total = size (stored.flatten ++ s.pending)
  start : s.pendingStart = size stored.flatten
  entries : (stored.flatten ++ s.pending).flatMap expand = flat
  limit : s.total ≤ maxSafeInteger
  bytes : s.pendingBytes = (s.pending.map RecordRow.cost).sum
  bounded : s.pending.length ≤ 1 ∨ s.pendingBytes ≤ 32768
  short : s.pending.length ≤ PAGE
  safe : ∀ row ∈ s.pending, row.Safe

/-- Between two calls there is room for a row. -/
def Inv (s : State) (flat : List Entry) : Prop := ∃ stored, Holds s stored flat ∧ s.pending.length < PAGE

theorem Holds.length {stored : List (List RecordRow)} (h : Holds s stored flat) : flat.length = s.total := by
  rw [← h.entries, flatMap_expand_length, h.total]

theorem flush_holds {stored : List (List RecordRow)} (h : Holds s stored flat) :
    (∃ s' stored', flush s = .ok s' ∧ Holds s' stored' flat ∧ s'.pending = [] ∧ s'.pendingBytes = 0 ∧ s'.total = s.total) ∨
      ∃ e row, flush s = .error e ∧ s.pending = [row] ∧ 43669 < row.nodeId.length := by
  by_cases hnone : s.pending = []
  · refine .inl ⟨s, stored, if_pos hnone, h, hnone, ?_, rfl⟩
    rw [h.bytes, hnone]
    rfl
  · have hlong := rowsText_length h.safe
    rw [← h.bytes] at hlong
    by_cases hfits : (textBytes (rowsText s.pending)).length ≤ 256 * 1024
    · have hgoes : flush s = .ok _ := (if_neg hnone).trans (if_neg (Nat.not_lt.mpr hfits))
      refine .inl ⟨_, stored ++ [s.pending], hgoes, ?_, rfl, rfl, rfl⟩
      have hflat : (stored ++ [s.pending]).flatten ++ [] = stored.flatten ++ s.pending := by
        rw [flatten_append, flatten_singleton, append_nil]
      refine ⟨?_, ?_, ?_, ?_, ?_, ?_, ?_, h.limit, rfl, .inl (Nat.zero_le _), Nat.zero_le _, fun row hrow => nomatch hrow⟩
      · rw [length_append, h.pages]
        rfl
      · intro i rows hget
        rcases Nat.lt_or_ge i stored.length with hold | hnew
        · rw [getElem?_append_left hold] at hget
          rw [← h.loads i rows hget]
          have hother : i ≠ s.pages := by
            rw [← h.pages]
            exact hold.ne
          exact load_other hother s.cache _ _
        · rw [getElem?_append_right hnew] at hget
          obtain ⟨hzero, hrows⟩ := List.getElem?_eq_some_iff.mp hget
          rw [length_singleton] at hzero
          have hlast : i = s.pages := by
            rw [← h.pages]
            omega
          rw [getElem_singleton] at hrows
          rw [hlast, ← hrows]
          exact load_stored hnone h.short hfits s.cache s.pages
      · intro rows hrows
        rcases mem_append.mp hrows with hold | hnew
        · exact h.nonempty rows hold
        · rw [mem_singleton.mp hnew]
          exact hnone
      · exact hflat ▸ h.ranked
      · exact hflat ▸ h.total
      · rw [← append_nil (stored ++ [s.pending]).flatten, hflat]
        exact h.total
      · exact hflat ▸ h.entries
    · have hpos := length_pos_iff.mpr hnone
      obtain ⟨row, hrow⟩ : ∃ row, s.pending = [row] := by
        refine length_eq_one_iff.mp ?_
        rcases h.bounded with hone | hbounded
        · omega
        · omega
      refine .inr ⟨_, row, (if_neg hnone).trans (if_pos (Nat.not_le.mp hfits)), hrow, ?_⟩
      rw [h.bytes, hrow, map_singleton, sum_singleton, RecordRow.cost, ← hrow] at hlong
      omega

theorem counted_holds {s : State} {stored : List (List RecordRow)} {flat : List Entry} {count : Nat}
    (h : Holds { s with total := s.total + count } stored flat) : ∃ s', counted s count = (s', .ok ()) ∧ Inv s' flat := by
  unfold counted
  dsimp only
  by_cases hfull : s.pending.length = PAGE
  · rw [if_pos hfull]
    rcases flush_holds h with ⟨s', stored', hflush, hholds, hempty, -, -⟩ | ⟨e, row, -, hone, -⟩
    · rw [hflush]
      refine ⟨s', rfl, stored', hholds, ?_⟩
      rw [hempty]
      decide
    · rw [show s.pending = [row] from hone] at hfull
      cases hfull
  · rw [if_neg hfull]
    exact ⟨_, rfl, stored, h, lt_of_le_of_ne h.short hfull⟩

/-! ## Appending -/

theorem expand_merge {row : RecordRow} (hnode : row.nodeId = m.nodeId) (hpos : 0 ≤ row.element)
    (hnext : m.elementIndex = some (row.element + row.count).toNat) (hmask : row.mask = fieldMask m.matched) :
    expand { row with count := row.count + m.count } = expand row ++ entries m := by
  have hsign : ¬row.element < 0 := by omega
  simp only [expand, entries, range_add, map_append, map_map, hsign, if_false]
  congr 1
  refine map_congr_left fun i _ => ?_
  simp only [Function.comp, hnode, hnext, hmask, maskFields_fieldMask, Option.map_some]
  congr 2
  push_cast
  omega

theorem expand_row (m : NbtMatchRange) (rank : Nat) : expand ⟨m.nodeId, match m.elementIndex with
    | some e => e
    | none => -1, m.count, fieldMask m.matched, rank⟩ = entries m := by
  simp only [expand, entries, maskFields_fieldMask]
  refine map_congr_left fun i _ => ?_
  match m.elementIndex with
  | none => rfl
  | some e =>
    have hsign : ¬(e : Int) < 0 := by omega
    simp only [hsign, if_false, Option.map_some]
    congr 2

theorem merge_holds {stored : List (List RecordRow)} (h : Holds s stored flat)
    (hsafe : s.total + m.count ≤ maxSafeInteger) {pending : List RecordRow}
    (hmerge : merge s m (fieldMask m.matched) = some pending) :
    Holds { s with pending := pending, total := s.total + m.count } stored (flat ++ entries m) := by
  unfold merge at hmerge
  split at hmerge
  · next element last helement hlast =>
    obtain ⟨⟨hnode, hsign, hnext, hmask⟩, hpending⟩ := Option.ite_none_right_eq_some.mp hmerge
    obtain rfl := Option.some.inj hpending
    obtain ⟨init, hinit⟩ := getLast?_eq_some_iff.mp hlast
    have hranked := h.ranked
    have htotal := h.total
    have hentries := h.entries
    have hbytes := h.bytes
    rw [hinit, ← append_assoc, ranked_append] at hranked
    rw [hinit] at htotal hentries hbytes
    obtain ⟨hbefore, hrank, hcount, -⟩ := hranked
    have hdrop : s.pending.dropLast = init := by rw [hinit, dropLast_concat]
    have hlength : (init ++ [{ last with count := last.count + m.count }]).length = s.pending.length := by
      rw [hinit, length_append, length_append, length_singleton, length_singleton]
    have hrow : last.Safe := h.safe last (by rw [hinit]; exact mem_append_right _ (mem_singleton.mpr rfl))
    have hmerged : m.elementIndex = some (last.element + last.count).toNat := by
      rw [helement, hnext]
      rfl
    simp only [size_append, size_cons, size_nil] at htotal
    rw [hdrop]
    refine ⟨h.pages, h.loads, h.nonempty, ?_, ?_, h.start, ?_, hsafe, ?_, ?_, ?_, ?_⟩
    · simp only
      rw [← append_assoc, ranked_append]
      exact ⟨hbefore, hrank, Nat.add_pos_left hcount _, trivial⟩
    · simp only [size_append, size_cons, size_nil]
      omega
    · simp only [flatMap_append, flatMap_singleton, expand_merge hnode hsign hmerged hmask, ← hentries, append_assoc]
    · simp only [hbytes, map_append, map_cons, map_nil]
      rfl
    · simp only [hlength]
      exact h.bounded
    · simp only [hlength]
      exact h.short
    · intro row hin
      rcases mem_append.mp hin with hold | hnew
      · exact h.safe row (by rw [hinit]; exact mem_append_left _ hold)
      · rw [mem_singleton.mp hnew]
        exact ⟨hrow.element, by simp only; omega, hrow.mask, hrow.rank⟩
  · cases hmerge

theorem room_holds {s₁ : State} {stored : List (List RecordRow)} {cost : Nat} (h : Holds s stored flat)
    (hroom : s.pending.length < PAGE)
    (hflush : (if s.pending ≠ [] ∧ 32768 < s.pendingBytes + cost then flush s else .ok s) = .ok s₁) :
    ∃ stored₁, Holds s₁ stored₁ flat ∧ s₁.total = s.total ∧ s₁.pending.length < PAGE ∧
      (s₁.pending = [] ∨ s₁.pendingBytes + cost ≤ 32768) := by
  split at hflush
  · rcases flush_holds h with ⟨s', stored', hgoes, hholds, hempty, -, htotal⟩ | ⟨e, row, hthrows, -⟩
    · rw [hgoes] at hflush
      cases hflush
      exact ⟨stored', hholds, htotal, by rw [hempty]; decide, .inl hempty⟩
    · rw [hthrows] at hflush
      cases hflush
  · next hshort =>
    cases hflush
    refine ⟨stored, h, rfl, hroom, ?_⟩
    rw [not_and_or, not_not, Nat.not_lt] at hshort
    exact hshort

theorem push_holds {stored : List (List RecordRow)} (h : Holds s stored flat)
    (hpos : 0 < m.count) (hsafe : s.total + m.count ≤ maxSafeInteger) (hroom : s.pending.length < PAGE)
    (hbounded : s.pending = [] ∨ s.pendingBytes + (m.nodeId.length * 6 + 128) ≤ 32768) :
    Holds { s with
      pendingBytes := s.pendingBytes + (m.nodeId.length * 6 + 128)
      pending := s.pending ++ [⟨m.nodeId, match m.elementIndex with
        | some e => e
        | none => -1, m.count, fieldMask m.matched, s.total⟩]
      total := s.total + m.count } stored (flat ++ entries m) := by
  have hmask := fieldMask_lt m.matched
  have htotal := h.total
  refine ⟨h.pages, h.loads, h.nonempty, ?_, ?_, h.start, ?_, hsafe, ?_, ?_, ?_, ?_⟩
  · simp only
    rw [← append_assoc, ranked_append, ← htotal, Nat.zero_add]
    exact ⟨h.ranked, rfl, hpos, trivial⟩
  · simp only [size_append, size_cons, size_nil] at htotal ⊢
    omega
  · simp only
    rw [← append_assoc, flatMap_append, h.entries, flatMap_singleton, expand_row]
  · simp only [h.bytes, map_append, map_cons, map_nil, sum_append, sum_cons, sum_nil]
    rfl
  · simp only [length_append, length_singleton]
    exact hbounded.imp (fun hnone => by rw [hnone]; exact le_rfl) id
  · simp only [length_append, length_singleton]
    exact hroom
  · intro row hin
    rcases mem_append.mp hin with hold | hnew
    · exact h.safe row hold
    · rw [mem_singleton.mp hnew]
      have hlimit : (16 : Nat) ≤ maxSafeInteger := by decide
      refine ⟨?_, ?_, ?_, ?_⟩
      · simp only
        split
        · next e he =>
          have hindex := m.safe e he
          omega
        · exact ⟨le_rfl, by decide⟩
      · simp only
        omega
      · simp only
        omega
      · simp only
        omega

/-- Why a call throws: it names no node, its ranks are no safe integers, or the pending row cannot be flushed. -/
def Refused (s : State) (m : NbtMatchRange) : Prop :=
  m.nodeId = [] ∨ maxSafeInteger < s.total + m.count ∨ ∃ row, s.pending = [row] ∧ 43669 < row.nodeId.length

theorem appendRange_inv (h : Inv s flat) (m : NbtMatchRange) :
    (∃ s', appendRange s m = (s', .ok ()) ∧ Inv s' (flat ++ entries m)) ∨
      (∃ e, appendRange s m = (s, .error e)) ∧ Refused s m := by
  obtain ⟨stored, h, hroom⟩ := h
  unfold appendRange
  by_cases hnode : m.nodeId = []
  · rw [if_pos hnode]
    exact .inr ⟨⟨_, rfl⟩, .inl hnode⟩
  · rw [if_neg hnode]
    by_cases hsafe : s.total + m.count ≤ maxSafeInteger
    · rw [assertRange_ok hsafe]
      dsimp only
      by_cases hzero : m.count = 0
      · rw [if_pos hzero]
        refine .inl ⟨s, rfl, stored, ?_, hroom⟩
        rw [entries, hzero, range_zero, map_nil, append_nil]
        exact h
      · rw [if_neg hzero]
        match hmerge : merge s m (fieldMask m.matched) with
        | some pending =>
          dsimp only
          obtain ⟨s', hcounted, hinv⟩ :=
            @counted_holds { s with pending := pending } stored (flat ++ entries m) m.count (merge_holds h hsafe hmerge)
          exact .inl ⟨s', hcounted, hinv⟩
        | none =>
          dsimp only
          split
          · next e hflush =>
            refine .inr ⟨⟨e, rfl⟩, .inr (.inr ?_)⟩
            split at hflush
            · rcases flush_holds h with ⟨s', _, hgoes, -⟩ | ⟨_, row, -, hrow, hlong⟩
              · rw [hgoes] at hflush
                cases hflush
              · exact ⟨row, hrow, hlong⟩
            · cases hflush
          · next s₁ hflush =>
            obtain ⟨stored₁, h₁, htotal, hroom₁, hbounded⟩ := room_holds h hroom hflush
            obtain ⟨s', hcounted, hinv⟩ := @counted_holds { s₁ with
              pendingBytes := s₁.pendingBytes + (m.nodeId.length * 6 + 128)
              pending := s₁.pending ++ [⟨m.nodeId, match m.elementIndex with
                | some e => e
                | none => -1, m.count, fieldMask m.matched, s₁.total⟩] } stored₁ (flat ++ entries m) m.count
              (push_holds h₁ (Nat.pos_of_ne_zero hzero) (htotal.symm ▸ hsafe) hroom₁ hbounded)
            exact .inl ⟨s', hcounted, hinv⟩
    · rw [assertRange, if_neg hsafe]
      exact .inr ⟨⟨_, rfl⟩, .inr (.inl (Nat.not_le.mp hsafe))⟩

/-! ## Reading -/

theorem Holds.page_stored {stored : List (List RecordRow)} (h : Holds s stored flat) {i : Nat}
    {rows : List RecordRow} (hget : stored[i]? = some rows) : page s i = .ok rows := by
  obtain ⟨hi, -⟩ := List.getElem?_eq_some_iff.mp hget
  rw [page, if_neg (by rw [← h.pages]; exact hi.ne)]
  exact h.loads i rows hget

/-- The rows that `locate` finds are some of all rows, and the rank is one of theirs. -/
structure Located (s : State) (stored : List (List RecordRow)) (rank : Nat) (records : List RecordRow) : Prop where
  part : ∃ before after, stored.flatten ++ s.pending = before ++ records ++ after ∧ size before ≤ rank ∧
    rank < size before + size records

theorem size_take_succ {stored : List (List RecordRow)} {i : Nat} {rows : List RecordRow} (hget : stored[i]? = some rows) :
    (stored.take (i + 1)).flatten = (stored.take i).flatten ++ rows := by
  obtain ⟨hi, hrows⟩ := List.getElem?_eq_some_iff.mp hget
  rw [take_succ_eq_append_getElem hi, flatten_append, hrows, flatten_singleton]

theorem Ranked.ends {start : Nat} {rows : List RecordRow} (h : Ranked start rows) (hrows : rows ≠ []) :
    ∃ first last, rows.head? = some first ∧ rows.getLast? = some last ∧ first.rank = start ∧
      last.rank + last.count = start + size rows := by
  obtain ⟨init, last, rfl⟩ := eq_nil_or_concat' rows |>.resolve_left hrows
  obtain ⟨hinit, hlast, -, -⟩ := (ranked_append start init [last]).mp h
  refine ⟨(init ++ [last]).head (by simp), last, head?_eq_some_head _, getLast?_concat, ?_, ?_⟩
  · match init, hinit, hlast with
    | [], _, hlast => exact hlast
    | row :: init, hinit, _ => exact hinit.1
  · rw [hlast, size_append, size_cons, size_nil]
    omega

theorem search_located {stored : List (List RecordRow)} (h : Holds s stored flat) {rank : Nat}
    (fuel : Nat) : ∀ lo hi, hi ≤ stored.length → hi - lo < fuel → size (stored.take lo).flatten ≤ rank →
      rank < size (stored.take hi).flatten → ∃ records, search s rank fuel lo hi = .ok records ∧ Located s stored rank records := by
  induction fuel with
  | zero => exact fun lo hi _ hfuel => absurd hfuel (Nat.not_lt_zero _)
  | succ fuel ih =>
    intro lo hi hhi hfuel hlow hhigh
    have hlt : lo < hi := by
      by_contra hle
      have hmono : size (stored.take hi).flatten ≤ size (stored.take lo).flatten := by
        obtain ⟨more, hmore⟩ := take_prefix_take_left (l := stored) (Nat.not_lt.mp hle)
        rw [← hmore, flatten_append, size_append]
        exact Nat.le_add_right _ _
      omega
    rw [search, if_pos hlt]
    dsimp only
    set mid := (lo + (hi - 1)) / 2 with hmid
    obtain ⟨rows, hget⟩ : ∃ rows, stored[mid]? = some rows := ⟨_, getElem?_eq_getElem (by omega)⟩
    have hsplit := size_take_succ hget
    have hall : stored.flatten ++ s.pending = (stored.take mid).flatten ++ rows ++ ((stored.drop (mid + 1)).flatten ++ s.pending) := by
      rw [← hsplit, ← append_assoc, ← flatten_append, take_append_drop]
    have hranked := h.ranked
    rw [hall, append_assoc, ranked_append, Nat.zero_add, ranked_append] at hranked
    obtain ⟨first, last, hfirst, hlast, hstart, hend⟩ := hranked.2.1.ends (h.nonempty rows (mem_of_getElem? hget))
    rw [h.page_stored hget]
    simp only [hfirst, hlast]
    by_cases hbefore : rank < first.rank
    · rw [if_pos hbefore]
      exact ih lo mid (by omega) (by omega) hlow (by omega)
    · rw [if_neg hbefore]
      by_cases hafter : last.rank + last.count ≤ rank
      · rw [if_pos hafter]
        refine ih (mid + 1) hi hhi (by omega) ?_ hhigh
        rw [hsplit, size_append]
        omega
      · rw [if_neg hafter]
        exact ⟨rows, rfl, _, _, hall, by omega, by omega⟩

theorem locate_located {stored : List (List RecordRow)} (h : Holds s stored flat) {rank : Nat}
    (hrank : rank < s.total) : ∃ records, locate s rank = .ok records ∧ Located s stored rank records := by
  have htotal := h.total
  rw [size_append] at htotal
  unfold locate
  by_cases hpending : s.pendingStart ≤ rank
  · rw [if_pos hpending]
    refine ⟨s.pending, if_pos rfl, stored.flatten, [], ?_, ?_, ?_⟩
    · rw [append_nil]
    · rw [← h.start]
      exact hpending
    · omega
  · rw [if_neg hpending]
    refine search_located h _ 0 s.pages h.pages.ge (by omega) (Nat.zero_le _) ?_
    rw [← h.pages, take_length, ← h.start]
    omega

theorem readLoop_eq {stored : List (List RecordRow)} (h : Holds s stored flat) {end_ : Nat}
    (hend : end_ ≤ s.total) (fuel : Nat) : ∀ rank result, end_ - rank < fuel →
      readLoop s end_ fuel rank result = .ok (result ++ numbered rank (slice flat rank (end_ - rank))) := by
  induction fuel with
  | zero => exact fun rank result hfuel => absurd hfuel (Nat.not_lt_zero _)
  | succ fuel ih =>
    intro rank result hfuel
    rw [readLoop]
    by_cases hmore : rank < end_
    · rw [if_pos hmore]
      obtain ⟨records, hlocate, ⟨before, after, hall, hlow, hhigh⟩⟩ := locate_located h (hmore.trans_le hend)
      have hranked := h.ranked
      rw [hall, append_assoc, ranked_append, Nat.zero_add, ranked_append] at hranked
      rw [hlocate]
      simp only [takeRows_eq records result false hranked.2.1 hlow hmore, decide_eq_true hhigh, Bool.or_true]
      set next := min end_ (size before + size records) with hnext
      have hflat : flat = before.flatMap expand ++ (records.flatMap expand ++ after.flatMap expand) := by
        rw [← h.entries, hall, flatMap_append, flatMap_append, append_assoc]
      have hbefore := flatMap_expand_length before
      have hrecords := flatMap_expand_length records
      -- the rows of the page spell this part of the flat list
      have hpiece : slice (records.flatMap expand) (rank - size before) (next - rank) = slice flat rank (next - rank) := by
        rw [hflat, show rank = (before.flatMap expand).length + (rank - size before) by omega, slice_append_right, hbefore,
          Nat.add_sub_cancel_left, slice_append_of_le (by omega)]
      have hlen : (slice flat rank (next - rank)).length = next - rank := by
        refine slice_length _ ?_
        rw [h.length]
        omega
      rw [Nat.max_eq_right (by omega), ih next _ (by omega), hpiece, append_assoc]
      congr 2
      have hsplit := slice_append_slice flat rank (next - rank) (end_ - next)
      rw [show next - rank + (end_ - next) = end_ - rank by omega, show rank + (next - rank) = next by omega] at hsplit
      rw [← hsplit, numbered_append, hlen, show rank + (next - rank) = next by omega]
    · rw [if_neg hmore, Nat.sub_eq_zero_of_le (Nat.not_lt.mp hmore), slice_zero]
      simp [numbered]

theorem read_eq (h : Inv s flat) {offset limit : Nat} (hlimit : limit ≤ 128)
    (hrange : offset + limit ≤ maxSafeInteger) : read s offset limit = .ok (numbered offset (slice flat offset limit)) := by
  obtain ⟨stored, h, -⟩ := h
  rw [read, assertRange_ok hrange]
  dsimp only
  rw [if_neg (Nat.not_lt.mpr hlimit), readLoop_eq h (Nat.min_le_left _ _) _ _ _ (Nat.lt_succ_self _), nil_append]
  congr 2
  rw [slice, slice, ← h.length, take_eq_take_iff, length_drop]
  omega

/-! ## Every sequence of calls -/

/-- The store after some calls, and what the calls that did not throw contribute. -/
def run (calls : List NbtMatchRange) : State × List Entry :=
  calls.foldl (fun r m =>
    match appendRange r.1 m with
    | (s, .ok ()) => (s, r.2 ++ entries m)
    | (s, .error _) => (s, r.2)) ({}, [])

theorem inv_start : Inv {} [] :=
  ⟨[], ⟨rfl, fun i rows hget => (nomatch hget), fun rows hrows => (nomatch hrows), trivial, rfl, rfl, rfl, Nat.zero_le _, rfl,
    .inl (Nat.zero_le _), Nat.zero_le _, fun row hrow => (nomatch hrow)⟩, by decide⟩

theorem run_inv (calls : List NbtMatchRange) : Inv (run calls).1 (run calls).2 := by
  induction calls using reverseRecOn with
  | nil => exact inv_start
  | append_singleton calls m ih =>
    rw [run, foldl_append, foldl_cons, foldl_nil]
    rw [run] at ih
    rcases appendRange_inv ih m with ⟨s', happend, hinv⟩ | ⟨⟨e, happend⟩, -⟩
    · rw [happend]
      exact hinv
    · rw [happend]
      exact ih

/-- Search results read back exactly, whatever calls came before: the count is the length of the flat list that the
calls contribute, a read of at most 128 results gives those of its range, and the next call contributes its results
unless it is refused. -/
theorem search_results_exact (calls : List NbtMatchRange) : (run calls).1.total = (run calls).2.length ∧
    (∀ offset limit, limit ≤ 128 → read (run calls).1 offset limit =
      match assertRange offset limit with
      | .ok () => .ok (numbered offset (slice (run calls).2 offset limit))
      | .error e => .error (.range e)) ∧
    ∀ m, (run (calls ++ [m])).2 = (run calls).2 ++ entries m ∨ Refused (run calls).1 m := by
  have hinv := run_inv calls
  obtain ⟨stored, hholds, -⟩ := id hinv
  refine ⟨hholds.length.symm, fun offset limit hlimit => ?_, fun m => ?_⟩
  · by_cases hrange : offset + limit ≤ maxSafeInteger
    · rw [assertRange_ok hrange]
      exact read_eq hinv hlimit hrange
    · rw [read, assertRange, if_neg hrange]
  · rcases appendRange_inv hinv m with ⟨s', happend, -⟩ | ⟨-, hrefused⟩
    · left
      rw [run] at happend
      rw [run, run, foldl_append, foldl_cons, foldl_nil, happend]
    · exact .inr hrefused

/-- Two runs of an array that become one row, and a tag. -/
theorem search_results_exact_merged :
    let calls : List NbtMatchRange :=
      [⟨[110], some 4, 2, [.value], by decide⟩, ⟨[110], some 6, 1, [.value], by decide⟩, ⟨[109], none, 1, [.path, .name], by decide⟩]
    (run calls).1.pending.length = 2 ∧ read (run calls).1 1 3 = .ok
      [⟨"result:1", [110], some 5, [.value]⟩, ⟨"result:2", [110], some 6, [.value]⟩, ⟨"result:3", [109], none, [.name, .path]⟩] := by
  refine ⟨by decide, ?_⟩
  rw [(search_results_exact _).2.1 1 3 (by decide)]
  decide

/-- What waits between two calls is small, counted and in the order of its ranks, and it can be flushed unless it is one
row with an identity that no page has room for. The flushed state still reads the same results. -/
theorem pending_bounded (calls : List NbtMatchRange) :
    let s := (run calls).1
    s.pending.length < PAGE ∧ s.pendingBytes = (s.pending.map RecordRow.cost).sum ∧
      (s.pending.length ≤ 1 ∨ s.pendingBytes ≤ 32768) ∧ Ranked s.pendingStart s.pending ∧ s.total = s.pendingStart + size s.pending ∧
      ((∃ row, s.pending = [row] ∧ 43669 < row.nodeId.length) ∨ ∃ s', flush s = .ok s' ∧ s'.pending = [] ∧
        ∀ offset limit, limit ≤ 128 → offset + limit ≤ maxSafeInteger → read s' offset limit = read s offset limit) := by
  intro s
  have hinv : Inv s _ := run_inv calls
  obtain ⟨stored, h, hroom⟩ := id hinv
  have hranked := ((ranked_append 0 stored.flatten _).mp h.ranked).2
  rw [Nat.zero_add, ← h.start] at hranked
  have htotal := h.total
  rw [size_append, ← h.start] at htotal
  refine ⟨hroom, h.bytes, h.bounded, hranked, htotal, ?_⟩
  rcases flush_holds h with ⟨s', stored', hflush, h', hempty, -, -⟩ | ⟨e, row, -, hrow, hlong⟩
  · refine .inr ⟨s', hflush, hempty, fun offset limit hlimit hrange => ?_⟩
    rw [read_eq hinv hlimit hrange, read_eq ⟨stored', h', ?_⟩ hlimit hrange]
    rw [hempty]
    decide
  · exact .inl ⟨row, hrow, hlong⟩

end SearchResults

end Cantrip.Nbt
