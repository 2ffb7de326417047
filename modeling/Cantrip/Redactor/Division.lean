import Cantrip.Redactor.Output

/-!
# How the redactor divides a text

However a text is written it is cut in one way (`Cuts`), and what is taken divides the text (`Divides`). Secrets that begin with
each other are found early when a write ends inside the longer one (`streamed_early`); a text of which no taken secret is broken
so comes out as if it were whole (`streamed_eq_redactComplete`).
-/

namespace Cantrip.Redactor

open List

variable {values : List Units} {ends ends' : Nat → Prop} {data text pending rest secret complete : Units} {c : UInt16}
  {writes chunks chunks' : List Units} {output : List Piece}

def keptUnit : Piece → Option UInt16
  | .removed => none
  | .kept unit => some unit

def Bare (values : List Units) (text : Units) : Prop := ∀ secret ∈ values, secret ≠ [] → ¬ secret <+: text

/-- How a text is cut, given what is written and not cut yet, and what is still to be written: the longest secret that is
there to read is removed, a unit is kept where none is and none can come, and else the next write is waited for. -/
inductive Cuts (values : List Units) : Units → List Units → List Piece → Prop
  | done : Cuts values [] [] []
  | found {pending rest secret : Units} {writes : List Units} {output : List Piece} (split : pending = secret ++ rest)
    (mem : secret ∈ values) (ne : secret ≠ []) (longest : ∀ longer ∈ values, longer <+: pending → longer.length ≤ secret.length)
    (next : Cuts values rest writes output) : Cuts values pending writes (.removed :: output)
  | kept {c : UInt16} {rest : Units} {writes : List Units} {output : List Piece} (bare : Bare values (c :: rest))
    (decided : writes ≠ [] → ∀ secret ∈ values, ¬ c :: rest <+: secret) (next : Cuts values rest writes output) :
    Cuts values (c :: rest) writes (.kept c :: output)
  | waits {pending data : Units} {writes : List Units} {output : List Piece} (bare : Bare values pending)
    (undecided : pending = [] ∨ ∃ secret ∈ values, pending <+: secret) (next : Cuts values (pending ++ data) writes output) :
    Cuts values pending (data :: writes) output

/-- A text divided from the left into secrets and single units: a unit stands alone where no secret begins; where secrets begin
the longest one is taken, or a shorter one if the text ends for a while (at one of `ends`) after it and inside each longer one. -/
inductive Divides (values : List Units) : (Nat → Prop) → Units → List Units → Prop
  | nil {ends : Nat → Prop} : Divides values ends [] []
  | unit {ends : Nat → Prop} {c : UInt16} {rest : Units} {chunks : List Units} (bare : Bare values (c :: rest))
    (next : Divides values (fun place => ends (place + 1)) rest chunks) : Divides values ends (c :: rest) ([c] :: chunks)
  | secret {ends : Nat → Prop} {secret rest : Units} {chunks : List Units} (mem : secret ∈ values) (ne : secret ≠ [])
    (longest : ∀ longer ∈ values, longer <+: secret ++ rest → secret.length < longer.length →
      ∃ place, ends place ∧ secret.length ≤ place ∧ place < longer.length)
    (next : Divides values (fun place => ends (secret.length + place)) rest chunks) :
    Divides values ends (secret ++ rest) (secret :: chunks)

/-- The places at which a write ends and another one follows, when `written` units came before. -/
def writeEnds (written : Nat) : List Units → List Nat
  | [] => []
  | data :: writes => written :: writeEnds (written + data.length) writes

/-- Of the division of the whole text, by the longest secret at each place, no secret is broken after a shorter one that it begins
with. -/
def Unbroken (values : List Units) (ends : Nat → Prop) (text : Units) : Prop :=
  ∀ front long back, Divides values (fun _ => False) text (front ++ long :: back) →
    ∀ short ∈ values, short ≠ [] → short <+: long → short.length < long.length →
      ∀ place, ends (front.flatten.length + place) → short.length ≤ place → long.length ≤ place

def singles (values chunks : List Units) : Units := (chunks.filter fun chunk => !values.contains chunk).flatten

/-- What is pushed for a part of a division. -/
def Piece.of (values : List Units) (chunk : Units) : Piece := if values.contains chunk then .removed else .kept (chunk.headD 0)

theorem mem_writeEnds_add {place written : Nat} (count : Nat) (h : place ∈ writeEnds written writes) :
    count + place ∈ writeEnds (count + written) writes := by
  induction writes generalizing written with
  | nil => exact absurd h not_mem_nil
  | cons data writes ih =>
    obtain rfl | h := mem_cons.mp h
    · exact mem_cons_self
    · refine mem_cons_of_mem _ ?_
      rw [Nat.add_assoc]
      exact ih h

theorem Divides.mono (h : Divides values ends text chunks) (hends : ∀ place, ends place → ends' place) :
    Divides values ends' text chunks := by
  induction h generalizing ends' with
  | nil => exact .nil
  | unit bare _ ih => exact .unit bare (ih fun place => hends (place + 1))
  | secret mem ne longest _ ih =>
    refine .secret mem ne (fun longer hlonger hbegins hlength => ?_) (ih fun place => hends _)
    obtain ⟨place, hplace, hinside⟩ := longest longer hlonger hbegins hlength
    exact ⟨place, hends place hplace, hinside⟩

theorem Divides.unique (h : Divides values (fun _ => False) text chunks) (h' : Divides values (fun _ => False) text chunks') :
    chunks = chunks' := by
  generalize hends : (fun _ : Nat => False) = ends at h
  induction h generalizing chunks' with
  | nil =>
    generalize htext : ([] : Units) = text at h'
    cases h' with
    | nil => rfl
    | unit => simp at htext
    | secret _ ne => exact absurd (append_eq_nil_iff.mp htext.symm).1 ne
  | @unit _ c rest _ bare _ ih =>
    generalize htext : c :: rest = text at h'
    cases h' with
    | nil => simp at htext
    | unit _ next' =>
      obtain ⟨rfl, rfl⟩ := cons_eq_cons.mp htext
      subst hends
      rw [ih next' rfl]
    | secret mem ne => exact absurd ⟨_, htext.symm⟩ (bare _ mem ne)
  | @secret _ secret rest _ mem ne longest _ ih =>
    subst hends
    generalize htext : secret ++ rest = text at h' longest
    have hbegins : secret <+: text := ⟨rest, htext⟩
    cases h' with
    | nil => exact absurd (append_eq_nil_iff.mp htext).1 ne
    | unit bare => exact absurd hbegins (bare secret mem ne)
    | @secret _ secret' rest' _ mem' ne' longest' next' =>
      have hlength : secret.length = secret'.length := by
        refine Nat.le_antisymm (Nat.le_of_not_lt fun hlt => ?_) (Nat.le_of_not_lt fun hlt => ?_)
        · exact (longest' secret mem hbegins hlt).elim fun _ hplace => hplace.1
        · exact (longest secret' mem' (prefix_append ..) hlt).elim fun _ hplace => hplace.1
      obtain ⟨rfl, rfl⟩ := append_inj htext hlength
      rw [ih next' rfl]

theorem Divides.taken (mem : secret ∈ values) (ne : secret ≠ [])
    (longest : ∀ longer ∈ values, longer <+: secret ++ rest → longer.length ≤ secret.length)
    (next : Divides values (fun _ => False) rest chunks) :
    Divides values (fun _ => False) (secret ++ rest) (secret :: chunks) :=
  .secret mem ne (fun longer hlonger hbegins hlength => absurd hlength (Nat.not_lt_of_le (longest longer hlonger hbegins))) next

theorem Divides.kept (h : Divides values ends text chunks) :
    (chunks.map (Piece.of values)).filterMap keptUnit = singles values chunks := by
  induction h with
  | nil => rfl
  | @unit _ c rest chunks bare _ ih =>
    have hnone : [c] ∉ values := fun hmem => bare [c] hmem (cons_ne_nil _ _) ⟨rest, rfl⟩
    rw [map_cons, filterMap_cons_some (b := c) (by simp [Piece.of, hnone, keptUnit]), ih]
    simp [singles, hnone]
  | secret mem _ _ _ ih =>
    rw [map_cons, filterMap_cons_none (by simp [Piece.of, mem, keptUnit]), ih]
    simp [singles, mem]

theorem Bare.decided (bare : Bare values (c :: rest)) (decided : writes ≠ [] → ∀ secret ∈ values, ¬ c :: rest <+: secret) :
    Bare values (c :: rest ++ writes.flatten) := by
  intro secret hsecret hne hbegins
  by_cases hwrites : writes = []
  · subst hwrites
    rw [flatten_nil, append_nil] at hbegins
    exact bare secret hsecret hne hbegins
  · obtain hshort | hlong := prefix_or_prefix_of_prefix hbegins (prefix_append (c :: rest) writes.flatten)
    · exact bare secret hsecret hne hshort
    · exact decided hwrites secret hsecret hlong

theorem Cuts.divides (h : Cuts values pending writes output) : ∃ chunks,
    Divides values (· ∈ writeEnds pending.length writes) (pending ++ writes.flatten) chunks ∧
      output = chunks.map (Piece.of values) := by
  induction h with
  | done => exact ⟨[], .nil, rfl⟩
  | @found pending rest secret writes output split mem ne longest _ ih =>
    subst split
    obtain ⟨chunks, hdivides, rfl⟩ := ih
    refine ⟨secret :: chunks, ?_, by simp [Piece.of, mem]⟩
    rw [append_assoc, length_append]
    refine .secret mem ne (fun longer hlonger hbegins hlength => ?_) (hdivides.mono fun place => mem_writeEnds_add secret.length)
    have hunwritten : ¬ longer <+: secret ++ rest := fun hwritten => Nat.not_le_of_lt hlength (longest longer hlonger hwritten)
    rw [← append_assoc] at hbegins
    have hinside : (secret ++ rest).length < longer.length := by
      by_contra hshort
      exact hunwritten (prefix_of_prefix_length_le hbegins (prefix_append _ _) (Nat.le_of_not_lt hshort))
    rw [length_append] at hinside
    cases writes with
    | nil => exact absurd (by simpa using hbegins) hunwritten
    | cons data writes => exact ⟨_, mem_cons_self, Nat.le_add_right _ _, hinside⟩
  | @kept c rest writes output bare decided _ ih =>
    obtain ⟨chunks, hdivides, rfl⟩ := ih
    have hbare := bare.decided decided
    have hnone : [c] ∉ values := fun hmem => hbare [c] hmem (cons_ne_nil _ _) ⟨_, rfl⟩
    refine ⟨[c] :: chunks, .unit hbare (hdivides.mono fun place hplace => ?_), by simp [Piece.of, hnone]⟩
    rw [length_cons, Nat.add_comm rest.length, Nat.add_comm place]
    exact mem_writeEnds_add 1 hplace
  | waits _ _ _ ih =>
    obtain ⟨chunks, hdivides, rfl⟩ := ih
    rw [append_assoc, length_append] at hdivides
    exact ⟨chunks, hdivides.mono fun _ => mem_cons_of_mem _, rfl⟩

namespace Secrets

theorem mem_candidates {secret : Units} (h : secret ∈ (new values).candidates c) : secret ∈ values ∧ secret ≠ [] :=
  mem_normalizedSecrets.mp (mem_of_mem_filter h)

theorem mem_candidates_of_begins {secret : Units} (hsecret : secret ∈ values) (hne : secret ≠ []) (h : secret <+: c :: data) :
    secret ∈ (new values).candidates c := by
  refine mem_filter.mpr ⟨mem_normalizedSecrets.mpr ⟨hsecret, hne⟩, ?_⟩
  cases secret with
  | nil => exact absurd rfl hne
  | cons first units => simp [(cons_prefix_cons.mp h).1]

theorem find_longest {rest longer : Units} (h : (new values).find c (c :: rest) = some complete) (hlonger : longer ∈ values)
    (hbegins : longer <+: c :: rest) : longer.length ≤ complete.length := by
  by_cases hne : longer = []
  · rw [hne]
    exact Nat.zero_le _
  · obtain ⟨-, before, after, hsplit, hearlier⟩ := find?_eq_some_iff_append.mp h
    have hordered := (new values).ordered c
    have hmem := mem_candidates_of_begins hlonger hne hbegins
    rw [hsplit] at hordered hmem
    obtain hmem | hmem := mem_append.mp hmem
    · simpa [hbegins] using hearlier longer hmem
    · obtain rfl | hmem := mem_cons.mp hmem
      · exact Nat.le_refl _
      · exact rel_of_pairwise_cons (pairwise_append.mp hordered).2.1 hmem

theorem bare_of_find {rest : Units} (h : (new values).find c (c :: rest) = none) : Bare values (c :: rest) := by
  intro secret hsecret hne hbegins
  simpa [hbegins] using find?_eq_none.mp h secret (mem_candidates_of_begins hsecret hne hbegins)

theorem open_of_waits {rest : Units} (h : (new values).waits c (c :: rest) = true) : ∃ secret ∈ values,
    c :: rest <+: secret := by
  unfold waits at h
  split at h
  · simp at h
  · next longest others hcandidates =>
    obtain ⟨secret, hsecret, hlong⟩ := any_eq_true.mp (Bool.and_eq_true_iff.mp h).2
    rw [← hcandidates] at hsecret
    exact ⟨secret, (mem_candidates hsecret).1, of_decide_eq_true (Bool.and_eq_true_iff.mp hlong).2⟩

theorem decided_of_waits {rest : Units} (hfind : (new values).find c (c :: rest) = none)
    (h : (new values).waits c (c :: rest) = false) : ∀ secret ∈ values, ¬ c :: rest <+: secret := by
  rintro _ hsecret ⟨more, rfl⟩
  have hmem := mem_candidates_of_begins hsecret (cons_ne_nil _ _) ⟨[], by rw [append_nil, cons_append]⟩
  have hnone : ¬ c :: rest ++ more <+: c :: rest ++ more := not_begins_of_kept hfind h hmem
  exact hnone prefix_rfl

theorem cuts_transform (final : Bool) (hwrites : final = true → writes = []) (data : Units)
    (h : Cuts values ((new values).transform final data).2 writes output) :
    Cuts values data writes (((new values).transform final data).1 ++ output) := by
  induction data using transform_cases (r := new values) final with
  | nil => simpa using h
  | found c rest complete hfind ih =>
    rw [transform_found hfind] at h ⊢
    obtain ⟨hmem, hbegins⟩ := find_eq_some hfind
    obtain ⟨hsecret, hne⟩ := mem_candidates hmem
    refine .found ?_ hsecret hne (fun longer => find_longest hfind) (ih h)
    exact (prefix_iff_eq_append.mp hbegins).symm
  | held c rest hfinal hfind hwaits =>
    subst hfinal
    rw [transform_held hfind hwaits] at h ⊢
    exact h
  | kept c rest hfind hgoes ih =>
    rw [transform_kept hfind hgoes] at h ⊢
    refine .kept (bare_of_find hfind) (fun hmore => ?_) (ih h)
    obtain hfinal | hwaits := hgoes
    · exact absurd (hwrites hfinal) hmore
    · exact decided_of_waits hfind hwaits

theorem held_transform (final : Bool) (data : Units) : Bare values ((new values).transform final data).2 ∧
    (((new values).transform final data).2 = [] ∨
      final = false ∧ ∃ secret ∈ values, ((new values).transform final data).2 <+: secret) := by
  induction data using transform_cases (r := new values) final with
  | nil =>
    rw [transform_nil]
    exact ⟨fun secret _ hne hbegins => hne (prefix_nil.mp hbegins), .inl rfl⟩
  | found c rest complete hfind ih =>
    rw [transform_found hfind]
    exact ih
  | held c rest hfinal hfind hwaits =>
    subst hfinal
    rw [transform_held hfind hwaits]
    exact ⟨bare_of_find hfind, .inr ⟨rfl, open_of_waits hwaits⟩⟩
  | kept c rest hfind hgoes ih =>
    rw [transform_kept hfind hgoes]
    exact ih

theorem cuts_complete (values : List Units) (data : Units) : Cuts values data [] ((new values).transform true data).1 := by
  have hrest : ((new values).transform true data).2 = [] := (held_transform true data).2.resolve_right fun h =>
    Bool.noConfusion h.1
  have hcuts : Cuts values data [] (((new values).transform true data).1 ++ []) :=
    cuts_transform true (fun _ => rfl) data (by rw [hrest]; exact .done)
  rwa [append_nil] at hcuts

theorem cuts_stream {pending : Units} (hbare : Bare values pending)
    (hopen : pending = [] ∨ ∃ secret ∈ values, pending <+: secret)
    (writes : List Units) : Cuts values pending writes ((new values).stream pending writes) := by
  induction writes generalizing pending with
  | nil => exact cuts_complete values pending
  | cons data writes ih =>
    have hheld := @held_transform values false (pending ++ data)
    exact .waits hbare hopen (cuts_transform false (fun hfinal => absurd hfinal Bool.false_ne_true) _
      (ih hheld.1 (hheld.2.imp_right And.right)))

theorem cuts_streamed (values writes : List Units) : Cuts values [] writes ((new values).stream [] writes) :=
  cuts_stream (fun _ _ hne hbegins => hne (prefix_nil.mp hbegins)) (.inl rfl) writes

end Secrets

/-! ## Secrets that are not broken -/

theorem exists_divides (values : List Units) (text : Units) : ∃ chunks, Divides values (fun _ => False) text chunks := by
  obtain ⟨chunks, hdivides, -⟩ := (Secrets.cuts_complete values text).divides
  rw [flatten_nil, append_nil] at hdivides
  exact ⟨chunks, hdivides.mono fun _ => not_mem_nil⟩

theorem Unbroken.longest (h : Unbroken values ends (secret ++ rest)) (mem : secret ∈ values) (ne : secret ≠ [])
    (longest : ∀ longer ∈ values, longer <+: secret ++ rest → secret.length < longer.length →
      ∃ place, ends place ∧ secret.length ≤ place ∧ place < longer.length) :
    ∀ longer ∈ values, longer <+: secret ++ rest → longer.length ≤ secret.length := by
  intro longer hlonger hbegins
  by_contra hlong
  obtain ⟨chunks, hdivides⟩ := exists_divides values (secret ++ rest)
  have hbroken := h []
  have hstarts : secret <+: secret ++ rest := prefix_append _ _
  generalize secret ++ rest = text at hdivides hbegins longest hbroken hstarts
  cases hdivides with
  | nil => exact ne (prefix_nil.mp hstarts)
  | unit bare => exact bare secret mem ne hstarts
  | @secret _ taken after chunks hmem hne htaken hnext =>
    have hreach : longer.length ≤ taken.length := by
      by_contra hshort
      exact (htaken longer hlonger hbegins (Nat.lt_of_not_le hshort)).elim fun _ hplace => hplace.1
    have hshorter : secret.length < taken.length := by omega
    obtain ⟨place, hplace, hafter, hinside⟩ := longest taken hmem (prefix_append _ _) hshorter
    have hends := hbroken taken chunks (.secret hmem hne htaken hnext) secret mem ne
      (prefix_of_prefix_length_le hstarts (prefix_append _ _) hshorter.le) hshorter place (by simpa using hplace) hafter
    omega

theorem Unbroken.past_unit (bare : Bare values (c :: rest)) (h : Unbroken values ends (c :: rest)) :
    Unbroken values (fun place => ends (place + 1)) rest := by
  intro front long back hdivides short hshort hne hbegins hlength place hplace
  refine h ([c] :: front) long back (.unit bare hdivides) short hshort hne hbegins hlength place ?_
  rw [flatten_cons, length_append, length_singleton]
  rwa [show 1 + front.flatten.length + place = front.flatten.length + place + 1 by omega]

theorem Unbroken.past_secret (mem : secret ∈ values) (ne : secret ≠ [])
    (longest : ∀ longer ∈ values, longer <+: secret ++ rest → longer.length ≤ secret.length)
    (h : Unbroken values ends (secret ++ rest)) : Unbroken values (fun place => ends (secret.length + place)) rest := by
  intro front long back hdivides short hshort hne hbegins hlength place hplace
  refine h (secret :: front) long back (.taken mem ne longest hdivides) short hshort hne hbegins hlength place ?_
  rwa [flatten_cons, length_append, Nat.add_assoc]

theorem Divides.whole (h : Divides values ends text chunks) (hunbroken : Unbroken values ends text) :
    Divides values (fun _ => False) text chunks := by
  induction h with
  | nil => exact .nil
  | unit bare _ ih => exact .unit bare (ih (hunbroken.past_unit bare))
  | @secret ends secret rest chunks mem ne longest _ ih =>
    have hlongest := hunbroken.longest mem ne longest
    exact .taken mem ne hlongest (ih (hunbroken.past_secret mem ne hlongest))

namespace Secrets

theorem streamed_divides (values writes : List Units) : ∃ chunks, Divides values (· ∈ writeEnds 0 writes) writes.flatten chunks ∧
    (new values).stream [] writes = chunks.map (Piece.of values) := (cuts_streamed values writes).divides

theorem complete_divides (values : List Units) (text : Units) : ∃ chunks, Divides values (fun _ => False) text chunks ∧
    ((new values).transform true text).1 = chunks.map (Piece.of values) := by
  obtain ⟨chunks, hdivides, houtput⟩ := (cuts_complete values text).divides
  rw [flatten_nil, append_nil] at hdivides
  exact ⟨chunks, hdivides.mono fun _ => not_mem_nil, houtput⟩

theorem streamed_eq_redactComplete (values writes : List Units)
    (h : Unbroken values (· ∈ writeEnds 0 writes) writes.flatten) :
    (new values).streamed writes = (new values).redactComplete writes.flatten := by
  obtain ⟨chunks, hdivides, hstream⟩ := streamed_divides values writes
  obtain ⟨chunks', hdivides', hcomplete⟩ := complete_divides values writes.flatten
  rw [streamed, redactComplete, hstream, hcomplete, (hdivides.whole h).unique hdivides']

namespace Sample

/-- `token` -/
def token : Units := [116, 111, 107, 101, 110]

/-- `-2` -/
def tail : Units := [45, 50]

theorem streamed_early : (new [token, token ++ tail]).streamed [token, tail] ≠
    (new [token, token ++ tail]).redactComplete (token ++ tail) := by
  have hwrite : (new [token, token ++ tail]).transform false token = ([.removed], []) := transform_secret (by decide)
  have hnext : (new [token, token ++ tail]).transform false tail = ([.kept 45, .kept 50], []) := by
    rw [tail, transform_kept (by decide) (.inr (by decide)), transform_kept (by decide) (.inr (by decide)), transform_nil]
  have hwhole : (new [token, token ++ tail]).transform true (token ++ tail) = ([.removed], []) := transform_secret (by decide)
  rw [streamed, stream, nil_append, hwrite, stream, nil_append, hnext, stream, transform_nil, redactComplete, hwhole]
  decide

/-- `x` -/
def lead : Units := [120]

theorem divides_lead : Divides [token, token ++ tail, lead ++ token] (fun _ => False) (lead ++ token ++ (tail ++ (token ++ tail)))
    [lead ++ token, [45], [50], token ++ tail ++ []] := by
  have hlast : Divides [token, token ++ tail, lead ++ token] (fun _ => False) (token ++ tail ++ []) [token ++ tail] :=
    .taken (by decide) (by decide) (by decide) .nil
  exact .taken (by decide) (by decide) (by decide) (.unit (by unfold Bare; decide) (.unit (by unfold Bare; decide) hlast))

/-- The first write ends inside a `token-2` that is not taken, as `xtoken` is taken before it. -/
theorem streamed_eq_redactComplete_cut :
    (new [token, token ++ tail, lead ++ token]).streamed [lead ++ token, tail ++ [116, 111], [107, 101, 110] ++ tail] =
    (new [token, token ++ tail, lead ++ token]).redactComplete (lead ++ token ++ (tail ++ (token ++ tail))) := by
  refine streamed_eq_redactComplete _ [lead ++ token, tail ++ [116, 111], [107, 101, 110] ++ tail]
    fun front long back hdivides short hshort hne hbegins hlength place hplace hafter => ?_
  change front.flatten.length + place ∈ [0, 6, 10] at hplace
  have hchunks := hdivides.unique divides_lead
  have hlong : 5 ≤ short.length :=
    (by decide : ∀ short ∈ [token, token ++ tail, lead ++ token], 5 ≤ short.length) short hshort
  rcases front with _ | ⟨first, _ | ⟨second, _ | ⟨third, _ | ⟨fourth, front⟩⟩⟩⟩ <;> simp at hchunks
  · obtain ⟨rfl, -⟩ := hchunks
    simp [lead, token] at hplace ⊢
    omega
  · rw [hchunks.2.1, length_singleton] at hlength
    omega
  · rw [hchunks.2.2.1, length_singleton] at hlength
    omega
  · obtain ⟨rfl, rfl, rfl, rfl, -⟩ := hchunks
    simp [lead, token] at hplace
    omega

end Sample

end Secrets

end Cantrip.Redactor
