import Cantrip.Nbt.Raw
import Mathlib.Data.Nat.Digits.Defs

/-!
# How integers are spelled

What the cursor reads as a fixed or a variable-length integer, said without the cursor.
-/

namespace Cantrip.Nbt

open Lib List

variable {encoding : NbtEncoding} {bytes bs : Bytes} {known : Bool} {p q n : Nat} {v : Int}

theorem flatByte_bound {b : UInt8} (h : flatByte bytes p = .ok (b, q)) : q = p + 1 ∧ q ≤ bytes.length := by
  unfold flatByte at h
  split at h
  · next b' hb =>
    cases h
    obtain ⟨hlt, -⟩ := List.getElem?_eq_some_iff.mp hb
    exact ⟨rfl, hlt⟩
  · cases h

theorem flatBytes_bound (hp : p ≤ bytes.length) {bs : Bytes} (h : flatBytes bytes n p = .ok (bs, q)) :
    q = p + n ∧ q ≤ bytes.length ∧ bs.length = n := by
  induction n generalizing p bs with
  | zero =>
    cases h
    exact ⟨rfl, hp, rfl⟩
  | succ n ih =>
    rw [flatBytes] at h
    rcases hb : flatByte bytes p with e | ⟨b, p₁⟩
    · rw [hb] at h
      cases h
    · obtain ⟨rfl, hp₁⟩ := flatByte_bound hb
      rw [hb] at h
      simp only [bind, Except.bind] at h
      rcases hbs : flatBytes bytes n (p + 1) with e | ⟨bs', q'⟩
      · rw [hbs] at h
        cases h
      · rw [hbs] at h
        cases h
        obtain ⟨rfl, hq, hlen⟩ := ih hp₁ hbs
        exact ⟨by omega, hq, by simp [hlen]⟩

theorem fixed_bound {unsigned : Bool} (hp : p ≤ bytes.length)
    (h : (flatCursor bytes known encoding).fixed n unsigned p = .ok (v, q)) :
    q = p + n ∧ q ≤ bytes.length ∧ ∃ bs : Bytes, bs.length = n ∧ v = viewInt encoding.isLittle unsigned bs := by
  simp only [flatCursor, bind, Except.bind] at h
  match hbs : flatBytes bytes n p with
  | .error e =>
    rw [hbs] at h
    cases h
  | .ok (bs, q') =>
    rw [hbs] at h
    cases h
    obtain ⟨h1, h2, h3⟩ := flatBytes_bound hp hbs
    exact ⟨h1, h2, bs, h3, rfl⟩

theorem varintGo_bound {bits offset count : Nat} : ∀ {i value p result : Nat},
    (flatCursor bytes known encoding).varintGo bits offset count i value p = .ok (result, q) →
      p < q ∧ q ≤ bytes.length ∧ result < 2 ^ bits := by
  induction count with
  | zero =>
    intro i value p result h
    cases h
  | succ count ih =>
    intro i value p result h
    rw [CursorOps.varintGo, show (flatCursor bytes known encoding).byte p = flatByte bytes p from rfl] at h
    match hb : flatByte bytes p with
    | .error e =>
      rw [hb] at h
      cases h
    | .ok (b, p₁) =>
      obtain ⟨rfl, hp₁⟩ := flatByte_bound hb
      simp only [hb, bind, Except.bind] at h
      split_ifs at h with hmore hlarge
      · obtain ⟨h1, h2, h3⟩ := ih h
        exact ⟨by omega, h2, h3⟩
      · cases h
        exact ⟨by omega, hp₁, by omega⟩

theorem fixed_holds (encoding : NbtEncoding) {p : Nat} (known unsigned : Bool) (h : Holds bytes p bs) :
    (flatCursor bytes known encoding).fixed bs.length unsigned p
      = .ok (viewInt encoding.isLittle unsigned bs, p + bs.length) := by
  simp only [flatCursor, flatBytes_holds h, bind, Except.bind]

/-- Said without the cursor: the bytes of a view on the integer. -/
theorem spellsFixed_iff {unsigned : Bool} :
    SpellsFixed encoding n unsigned bs v ↔ bs.length = n ∧ v = viewInt encoding.isLittle unsigned bs := by
  constructor
  · intro h
    have hself := h bs 0 false (holds_self bs)
    obtain ⟨hn, -⟩ := fixed_bound (Nat.zero_le _) hself
    obtain rfl : n = bs.length := by omega
    rw [fixed_holds encoding false unsigned (holds_self bs)] at hself
    cases hself
    exact ⟨rfl, rfl⟩
  · rintro ⟨rfl, rfl⟩ bytes p known hat
    exact fixed_holds encoding known unsigned hat

/-- Each byte but the last says that another follows. -/
def Grouped : Bytes → Prop
  | [] => False
  | b :: bs => if continues b then Grouped bs else bs = []

theorem varintGo_iff {bits count offset i value result : Nat} (hat : Holds bytes p bs) (hvalue : value < 2 ^ (i * 7)) :
    (flatCursor bytes known encoding).varintGo bits offset count i value p = .ok (result, p + bs.length) ↔
      Grouped bs ∧ bs.length ≤ count ∧ result = value + 2 ^ (i * 7) * Nat.ofDigits 128 (bs.map payload7) ∧ result < 2 ^ bits := by
  induction bs generalizing count i value p with
  | nil =>
    refine ⟨fun h => ?_, fun h => h.1.elim⟩
    have hmoves := (varintGo_bound h).1
    rw [length_nil] at hmoves
    omega
  | cons b bs ih =>
    obtain ⟨hb, hbs⟩ := holds_cons.mp hat
    cases count with
    | zero => simp [CursorOps.varintGo]
    | succ count =>
      rw [CursorOps.varintGo, show (flatCursor bytes known encoding).byte p = flatByte bytes p from rfl, flatByte_holds hb]
      have hpayload : payload7 b < 128 := payload7_eq b ▸ Nat.mod_lt _ (by decide)
      have hor : value ||| payload7 b <<< (i * 7) = value + 2 ^ (i * 7) * payload7 b := by
        rw [Nat.or_comm, ← Nat.shiftLeft_add_eq_or_of_lt hvalue, Nat.shiftLeft_eq, Nat.add_comm, Nat.mul_comm]
      simp only [bind, Except.bind, hor, Grouped, length_cons, Nat.add_le_add_iff_right, List.map_cons, Nat.ofDigits_cons]
      have hnext : 2 ^ ((i + 1) * 7) = 2 ^ (i * 7) * 128 := by rw [Nat.add_mul, pow_add]; rfl
      split
      · rw [← Nat.add_assoc, Nat.add_right_comm p, ih hbs (by rw [hnext]; nlinarith)]
        rw [hnext, Nat.mul_add, Nat.mul_assoc, ← Nat.add_assoc]
      · have hlength : p + 1 = p + (bs.length + 1) ↔ bs = [] := by
          rw [← length_eq_zero_iff]
          omega
        split
        · next hlarge =>
          refine ⟨fun h => (nomatch h), ?_⟩
          rintro ⟨rfl, -, rfl, hsmall⟩
          simp at hsmall
          omega
        · next hsmall =>
          simp only [Except.ok.injEq, Prod.mk.injEq, hlength]
          constructor
          · rintro ⟨rfl, rfl⟩
            simpa using hsmall
          · rintro ⟨rfl, -, rfl, -⟩
            simp

/-- Said without the cursor: groups of seven bits, the lowest first. -/
theorem spellsVarint_iff {bits : Nat} {zigzag : Bool} : SpellsVarint encoding bits zigzag bs v ↔
    Grouped bs ∧ bs.length ≤ (bits + 6) / 7 ∧ Nat.ofDigits 128 (bs.map payload7) < 2 ^ bits ∧
      v = if zigzag then unzigzag (Nat.ofDigits 128 (bs.map payload7)) else (Nat.ofDigits 128 (bs.map payload7) : Nat) := by
  have hgo {bytes : Bytes} {p : Nat} (known : Bool) (hat : Holds bytes p bs) (offset result : Nat) :=
    @varintGo_iff encoding bytes bs known p bits ((bits + 6) / 7) offset 0 0 result hat Nat.one_pos
  simp only [Nat.zero_mul, pow_zero, Nat.one_mul, Nat.zero_add] at hgo
  constructor
  · intro h
    have hself := h bs 0 false (holds_self bs)
    simp only [CursorOps.varint, bind, Except.bind] at hself
    split at hself
    · cases hself
    · next pair hresult =>
      obtain ⟨result, q⟩ := pair
      simp only [Except.ok.injEq, Prod.mk.injEq] at hself
      obtain ⟨rfl, rfl⟩ := hself
      obtain ⟨hgrouped, hle, rfl, hlt⟩ := (hgo false (holds_self bs) _ _).mp hresult
      exact ⟨hgrouped, hle, hlt, rfl⟩
  · rintro ⟨hgrouped, hle, hlt, rfl⟩ bytes p known hat
    have hread := (hgo known hat ((flatCursor bytes known encoding).position p) _).mpr ⟨hgrouped, hle, rfl, hlt⟩
    simp only [CursorOps.varint, bind, Except.bind, hread]

theorem spellsInt_iff : SpellsInt encoding bs v ↔
    if encoding.varints then SpellsVarint encoding 32 true bs v else SpellsFixed encoding 4 false bs v := by
  unfold SpellsInt CursorOps.int
  split <;> rfl

theorem RawText.valid_iff {t : RawText} : t.Valid encoding ↔
    if encoding.varints then SpellsVarint encoding 32 false t.lengthBytes t.content.length
    else SpellsFixed encoding 2 true t.lengthBytes t.content.length := by
  unfold RawText.Valid CursorOps.stringLength
  split <;> rfl

end Cantrip.Nbt
