import Mathlib.Data.List.Sort

/-!
# The redactor of run output (`run-configuration-output-redactor.ts`)

Output of a run is cut from the left: where a secret begins the longest one is taken and the marker put in its place, else
one unit is kept. A write holds back an end of its text that a secret may still begin with. The secrets are kept by their
first unit, the longest first.
-/

namespace Cantrip.Redactor

open List

abbrev Units := List UInt16

def bullet : UInt16 := 0x2022

def REDACTION_MARKER : Units := [bullet, bullet, bullet, bullet]

def normalizedSecrets (values : List Units) : List Units :=
  (values.filter fun value => 0 < value.length).eraseDups.insertionSort fun left right => right.length ≤ left.length

def secretsByFirstCharacter (secrets : List Units) (first : UInt16) : List Units :=
  secrets.filter fun secret => secret.head? = some first

/-- `RunConfigurationOutputRedactor`, without what it holds back. -/
structure Secrets where
  marker : Units
  candidates : UInt16 → List Units
  begins : ∀ first, ∀ secret ∈ candidates first, secret.head? = some first
  ordered : ∀ first, (candidates first).Pairwise fun left right => right.length ≤ left.length

theorem mem_normalizedSecrets {values : List Units} {secret : Units} :
    secret ∈ normalizedSecrets values ↔ secret ∈ values ∧ secret ≠ [] := by
  rw [normalizedSecrets, mem_insertionSort, mem_eraseDups, mem_filter, decide_eq_true_eq, length_pos_iff]

theorem normalizedSecrets_ordered (values : List Units) : (normalizedSecrets values).Pairwise fun left right =>
    right.length ≤ left.length :=
  have : Std.Total fun left right : Units => right.length ≤ left.length :=
    ⟨fun left right => Nat.le_total right.length left.length⟩
  have : IsTrans Units fun left right => right.length ≤ left.length := ⟨fun _ _ _ hab hbc => Nat.le_trans hbc hab⟩
  pairwise_insertionSort _ _

def Secrets.new (values : List Units) : Secrets where
  marker := if (normalizedSecrets values).any (·.contains bullet) then [] else REDACTION_MARKER
  candidates := secretsByFirstCharacter (normalizedSecrets values)
  begins first secret h := by simpa using (mem_filter.mp h).2
  ordered first := (normalizedSecrets_ordered values).filter _

/-- What `#transform` pushes on its output. -/
inductive Piece
  | removed
  | kept (unit : UInt16)
  deriving DecidableEq

namespace Secrets

variable {r : Secrets} {final : Bool} {data more text secret complete : Units} {c : UInt16} {writes : List Units}

def find (r : Secrets) (c : UInt16) (data : Units) : Option Units := (r.candidates c).find? fun secret => secret <+: data

/-- The end of the text is the beginning of a secret. -/
def waits (r : Secrets) (c : UInt16) (remainder : Units) : Bool :=
  match r.candidates c with
  | [] => false
  | longest :: others => decide (remainder.length < longest.length) &&
      (longest :: others).any fun secret => decide (remainder.length < secret.length) && decide (remainder <+: secret)

theorem find_eq_some (h : r.find c data = some complete) : complete ∈ r.candidates c ∧ complete <+: data :=
  ⟨mem_of_find?_eq_some h, by simpa using find?_some h⟩

theorem length_pos (h : secret ∈ r.candidates c) : 0 < secret.length := by
  have hhead := r.begins c secret h
  cases secret with
  | nil => simp at hhead
  | cons => simp

/-- `#transform`: what it pushes, and what it holds back unless the text is `final`. -/
def transform (r : Secrets) (final : Bool) : Units → List Piece × Units
  | [] => ([], [])
  | c :: rest =>
    match _h : r.find c (c :: rest) with
    | some complete =>
      let after := transform r final ((c :: rest).drop complete.length)
      (.removed :: after.1, after.2)
    | none =>
      if !final && r.waits c (c :: rest) then ([], c :: rest)
      else
        let after := transform r final rest
        (.kept c :: after.1, after.2)
  termination_by data => data.length
  decreasing_by
    · have hpos := length_pos (find_eq_some _h).1
      rw [length_drop, length_cons]
      omega
    · simp

/-- `output.join("")` -/
def join (r : Secrets) (output : List Piece) : Units :=
  output.flatMap fun
    | .removed => r.marker
    | .kept unit => [unit]

def redactComplete (r : Secrets) (data : Units) : Units := r.join (r.transform true data).1

/-- `write` for each part, then `flush`: what is pushed from what is held back on. -/
def stream (r : Secrets) (pending : Units) : List Units → List Piece
  | [] => (r.transform true pending).1
  | data :: writes =>
    let transformed := r.transform false (pending ++ data)
    transformed.1 ++ r.stream transformed.2 writes

/-- The outputs of the writes and of `flush` in one. -/
def streamed (r : Secrets) (writes : List Units) : Units := r.join (r.stream [] writes)

@[simp] theorem transform_nil : r.transform final [] = ([], []) := by
  rw [transform]

theorem transform_found {rest : Units} (h : r.find c (c :: rest) = some complete) : r.transform final (c :: rest) =
    (.removed :: (r.transform final ((c :: rest).drop complete.length)).1,
    (r.transform final ((c :: rest).drop complete.length)).2) := by
  rw [transform]
  split
  · next complete' h' =>
    obtain rfl := Option.some.inj (h'.symm.trans h)
    rfl
  · next h' => simp [h] at h'

theorem transform_secret {rest : Units} (h : r.find c (c :: rest) = some (c :: rest)) : r.transform final (c :: rest) =
    ([.removed], []) := by
  rw [transform_found h, drop_length, transform_nil]

theorem transform_held {rest : Units} (h : r.find c (c :: rest) = none) (hwaits : r.waits c (c :: rest) = true) :
    r.transform false (c :: rest) = ([], c :: rest) := by
  rw [transform]
  split
  · next h' => simp [h] at h'
  · rw [hwaits]
    rfl

theorem transform_kept {rest : Units} (h : r.find c (c :: rest) = none) (hgoes : final = true ∨ r.waits c (c :: rest) = false) :
    r.transform final (c :: rest) = (.kept c :: (r.transform final rest).1, (r.transform final rest).2) := by
  rw [transform]
  split
  · next h' => simp [h] at h'
  · have hgo : (!final && r.waits c (c :: rest)) = false := by
      obtain rfl | hwaits := hgoes
      · rfl
      · rw [hwaits, Bool.and_false]
    rw [hgo]
    rfl

theorem transform_cases {motive : Units → Prop} (final : Bool) (nil : motive [])
    (found : ∀ c rest complete, r.find c (c :: rest) = some complete → motive ((c :: rest).drop complete.length) →
    motive (c :: rest))
    (held : ∀ c rest, final = false → r.find c (c :: rest) = none → r.waits c (c :: rest) = true → motive (c :: rest))
    (kept : ∀ c rest, r.find c (c :: rest) = none → (final = true ∨ r.waits c (c :: rest) = false) → motive rest →
      motive (c :: rest)) :
    ∀ data, motive data := by
  intro data
  induction hn : data.length using Nat.strong_induction_on generalizing data with
  | _ n ih =>
    subst hn
    cases data with
    | nil => exact nil
    | cons c rest =>
      cases hfind : r.find c (c :: rest) with
      | some complete =>
        have hpos := length_pos (find_eq_some hfind).1
        refine found c rest complete hfind (ih _ ?_ _ rfl)
        rw [length_drop, length_cons]
        omega
      | none =>
        by_cases hgoes : final = true ∨ r.waits c (c :: rest) = false
        · exact kept c rest hfind hgoes (ih _ (by simp) _ rfl)
        · rw [not_or, Bool.not_eq_true, Bool.not_eq_false] at hgoes
          exact held c rest hgoes.1 hfind hgoes.2

theorem not_begins_of_kept (hfind : r.find c data = none) (hwaits : r.waits c data = false)
    (hsecret : secret ∈ r.candidates c) :
    ¬ secret <+: data ++ more := by
  intro hbegins
  by_cases hshort : secret.length ≤ data.length
  · have hstarts : secret <+: data := prefix_of_prefix_length_le hbegins (prefix_append _ _) hshort
    simpa [hstarts] using find?_eq_none.mp hfind secret hsecret
  · have hlong : data.length < secret.length := Nat.lt_of_not_le hshort
    have hstarts : data <+: secret := prefix_of_prefix_length_le (prefix_append _ _) hbegins hlong.le
    have hordered := r.ordered c
    unfold waits at hwaits
    cases hcandidates : r.candidates c with
    | nil => simp [hcandidates] at hsecret
    | cons longest others =>
      rw [hcandidates] at hwaits hsecret hordered
      have hlongest : data.length < longest.length := by
        obtain rfl | hmem := mem_cons.mp hsecret
        · exact hlong
        · exact Nat.lt_of_lt_of_le hlong (rel_of_pairwise_cons hordered hmem)
      have hany : (longest :: others).any (fun secret => decide (data.length < secret.length) && decide (data <+: secret)) =
        true :=
        any_eq_true.mpr ⟨secret, hsecret, by simp [hlong, hstarts]⟩
      dsimp only at hwaits
      rw [hany, Bool.and_true, decide_eq_false_iff_not] at hwaits
      exact hwaits hlongest

end Secrets

end Cantrip.Redactor
