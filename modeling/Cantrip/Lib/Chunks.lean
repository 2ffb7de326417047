import Cantrip.Lib.Bytes

/-!
# Packing a stream into chunks

A writer that fills a buffer of `chunk` bytes from parts of any size and gives it away when it is full.
The chunks hold the bytes of the parts in order (`packParts_flatten`), all of them full but the last
(`packParts_chunked`), so that chunk `i` stands for the bytes from `i * chunk` on.
-/

namespace Cantrip.Lib

open List

def packPart (chunk : Nat) : Nat → Bytes → Bytes → List Bytes × Bytes
  | 0, buffer, _ => ([], buffer)
  | fuel + 1, buffer, part =>
    if part = [] then ([], buffer)
    else
      let count := min part.length (chunk - buffer.length)
      let buffer := buffer ++ part.take count
      if buffer.length = chunk then
        let (full, last) := packPart chunk fuel [] (part.drop count)
        (buffer :: full, last)
      else packPart chunk fuel buffer (part.drop count)

/-- The chunks made of a run of parts, with `buffer` begun. -/
def packParts (chunk : Nat) (buffer : Bytes) : List Bytes → List Bytes
  | [] => if buffer = [] then [] else [buffer]
  | part :: rest =>
    let (full, last) := packPart chunk part.length buffer part
    full ++ packParts chunk last rest

variable {chunk : Nat}

theorem packPart_flatten (hchunk : 0 < chunk) (fuel : Nat) : ∀ buffer part, part.length ≤ fuel → buffer.length < chunk →
      (packPart chunk fuel buffer part).1.flatten ++ (packPart chunk fuel buffer part).2 = buffer ++ part ∧
        (packPart chunk fuel buffer part).2.length < chunk := by
  induction fuel with
  | zero =>
    intro buffer part hfuel hbuffer
    have : part = [] := length_eq_zero_iff.mp (by omega)
    simp [packPart, this, hbuffer]
  | succ fuel ih =>
    intro buffer part hfuel hbuffer
    rw [packPart]
    by_cases hempty : part = []
    · simp [hempty, hbuffer]
    rw [if_neg hempty]
    have hpos := length_pos_iff.mpr hempty
    dsimp only
    split_ifs with hfull
    · -- the buffer is full: it is yielded and an empty one takes its place
      obtain ⟨hflat, hlast⟩ := ih [] (part.drop (min part.length (chunk - buffer.length))) (by rw [length_drop]; omega) hchunk
      refine ⟨?_, hlast⟩
      rw [nil_append] at hflat
      rw [flatten_cons, append_assoc, hflat, append_assoc, take_append_drop]
    · rw [length_append, length_take] at hfull
      obtain ⟨hflat, hlast⟩ := ih (buffer ++ part.take (min part.length (chunk - buffer.length)))
        (part.drop (min part.length (chunk - buffer.length))) (by rw [length_drop]; omega)
        (by rw [length_append, length_take]; omega)
      refine ⟨?_, hlast⟩
      rw [hflat, append_assoc, take_append_drop]

theorem packParts_flatten (hchunk : 0 < chunk) (ps : List Bytes) :
    ∀ buffer, buffer.length < chunk → (packParts chunk buffer ps).flatten = buffer ++ ps.flatten := by
  induction ps with
  | nil =>
    intro buffer _
    rw [packParts]
    split_ifs with h <;> simp [h]
  | cons part rest ih =>
    intro buffer hbuffer
    obtain ⟨hflat, hlast⟩ := packPart_flatten hchunk part.length buffer part le_rfl hbuffer
    rw [packParts]
    simp only [flatten_append, flatten_cons]
    rw [ih _ hlast, ← append_assoc, hflat, append_assoc]

def Chunked (chunk : Nat) : List Bytes → Prop
  | [] => True
  | [p] => 0 < p.length ∧ p.length ≤ chunk
  | p :: q :: rest => p.length = chunk ∧ Chunked chunk (q :: rest)

theorem chunked_cons {p : Bytes} {rest : List Bytes} (hchunk : 0 < chunk) (hp : p.length = chunk)
    (h : Chunked chunk rest) : Chunked chunk (p :: rest) := by
  match rest with
  | [] => exact ⟨by omega, by omega⟩
  | q :: rest => exact ⟨hp, h⟩

theorem chunked_append (hchunk : 0 < chunk) {full rest : List Bytes} (hfull : ∀ p ∈ full, p.length = chunk)
    (h : Chunked chunk rest) : Chunked chunk (full ++ rest) := by
  induction full with
  | nil => exact h
  | cons p full ih =>
    exact chunked_cons hchunk (hfull p (by simp)) (ih fun q hq => hfull q (by simp [hq]))

theorem packPart_full (fuel : Nat) : ∀ buffer part, ∀ p ∈ (packPart chunk fuel buffer part).1, p.length = chunk := by
  induction fuel with
  | zero =>
    intro buffer part p hp
    simp [packPart] at hp
  | succ fuel ih =>
    intro buffer part p hp
    rw [packPart] at hp
    by_cases hempty : part = []
    · simp [hempty] at hp
    rw [if_neg hempty] at hp
    dsimp only at hp
    split_ifs at hp with hfull
    · rcases mem_cons.mp hp with rfl | hp
      · exact hfull
      · exact ih _ _ p hp
    · exact ih _ _ p hp

theorem packParts_chunked (hchunk : 0 < chunk) (ps : List Bytes) :
    ∀ buffer, buffer.length < chunk → Chunked chunk (packParts chunk buffer ps) := by
  induction ps with
  | nil =>
    intro buffer hbuffer
    rw [packParts]
    split_ifs with h
    · trivial
    · exact ⟨length_pos_iff.mpr h, by omega⟩
  | cons part rest ih =>
    intro buffer hbuffer
    obtain ⟨-, hlast⟩ := packPart_flatten hchunk part.length buffer part le_rfl hbuffer
    rw [packParts]
    exact chunked_append hchunk (packPart_full _ _ _) (ih _ hlast)

theorem Chunked.sizes (hchunk : 0 < chunk) {parts : List Bytes} (h : Chunked chunk parts) :
    parts.length = (parts.flatten.length + chunk - 1) / chunk ∧
      ∀ i (hi : i < parts.length), parts[i].length = min chunk (parts.flatten.length - i * chunk) := by
  induction parts with
  | nil =>
    refine ⟨?_, fun i hi => absurd hi (by simp)⟩
    rw [flatten_nil, length_nil, length_nil, Nat.div_eq_of_lt (by omega)]
  | cons p rest ih =>
    match rest with
    | [] =>
      obtain ⟨hpos, hle⟩ := h
      simp only [flatten_cons, flatten_nil, append_nil, length_cons, length_nil]
      constructor
      · rw [show p.length + chunk - 1 = chunk * 1 + (p.length - 1) by omega, Nat.mul_add_div hchunk,
          Nat.div_eq_of_lt (by omega)]
      · intro i hi
        have : i = 0 := by omega
        subst this
        simp only [getElem_cons_zero]
        omega
    | q :: rest =>
      obtain ⟨hp, hrest⟩ := h
      obtain ⟨hcount, hsizes⟩ := ih hrest
      have htotal : (p :: q :: rest).flatten.length = chunk + (q :: rest).flatten.length := by
        rw [flatten_cons, length_append, hp]
      rw [htotal]
      constructor
      · rw [length_cons, hcount, show chunk + (q :: rest).flatten.length + chunk - 1
          = chunk * 1 + ((q :: rest).flatten.length + chunk - 1) by omega, Nat.mul_add_div hchunk]
        omega
      · intro i hi
        match i with
        | 0 =>
          rw [getElem_cons_zero, hp]
          omega
        | i + 1 =>
          rw [getElem_cons_succ, hsizes i (by simpa using hi), Nat.add_mul]
          congr 1
          omega

end Cantrip.Lib
