import CodeSignature.Proofs.Signature.Scan
import CodeSignature.Proofs.Signature.Trim
import Mathlib.Data.List.Basic

/-! # Signatures written as numbers

A signature that is written as numbers with a mask of bits reads back as it is. The numbers hold
neither masks nor bits, the bits hold no number, and there are as many of them as there are numbers.
-/

namespace CodeSignature

namespace Dialect

open Signature

variable {cs : List Char} {s : Signature} {b : UInt8}

theorem foldr_of_numbers {α : Type} {f : List Char → α} {g : UInt8 → α → α}
    (hnumber : ∀ (b : UInt8) (c : Char) (cs : List Char), c = ',' ∨ c = ' ' →
      f (numberByte b ++ c :: cs) = g b (f (c :: cs)))
    (hcomma : ∀ cs, f (',' :: ' ' :: cs) = f cs) (bytes : List UInt8) (cs : List Char) :
    f ([',', ' '].intercalate (bytes.map numberByte) ++ ' ' :: cs) =
      bytes.foldr g (f (' ' :: cs)) := by
  induction bytes with
  | nil => rfl
  | cons b bytes ih =>
    cases bytes with
    | nil => simpa using hnumber b ' ' cs (.inr rfl)
    | cons b' bytes =>
      rw [List.map_cons, List.map_cons, List.intercalate_cons_cons, List.append_assoc,
        List.append_assoc, List.cons_append, hnumber b ',' _ (.inl rfl), List.cons_append,
        List.nil_append, hcomma, List.foldr_cons, ← List.map_cons, ih]

theorem findMaskRun_numbers (bytes : List UInt8) (cs : List Char) :
    findMaskRun ([',', ' '].intercalate (bytes.map numberByte) ++ ' ' :: cs) =
      findMaskRun (' ' :: cs) := by
  rw [foldr_of_numbers (f := findMaskRun) (g := fun _ r => r)]
  · exact List.foldr_fixed _
  · intro b c cs _
    obtain ⟨hhigh, hlow⟩ := Hex.upperDigit_ne (x := 'x') (by decide) b
    simp only [numberByte, Hex.upperByte, List.cons_append, List.nil_append]
    rw [findMaskRun_cons_of_ne (by decide), findMaskRun_lone (isMaskChar_upperDigit b),
      findMaskRun_cons_of_ne hhigh, findMaskRun_cons_of_ne hlow]
  · intro cs
    rw [findMaskRun_cons_of_ne (by decide), findMaskRun_cons_of_ne (by decide)]

theorem findBits_numbers (bytes : List UInt8) (cs : List Char) :
    findBits ([',', ' '].intercalate (bytes.map numberByte) ++ ' ' :: cs) =
      findBits (' ' :: cs) := by
  rw [foldr_of_numbers (f := findBits) (g := fun _ r => r)]
  · exact List.foldr_fixed _
  · intro b c cs hc
    obtain ⟨hhigh, hlow⟩ := Hex.upperDigit_ne (x := 'b') (by decide) b
    have hnext : c ≠ 'b' := by rcases hc with rfl | rfl <;> decide
    simp only [numberByte, Hex.upperByte, List.cons_append, List.nil_append]
    rw [findBits_cons_cons_of_ne (by decide), findBits_cons_of_ne (by decide),
      findBits_cons_cons_of_ne hlow, findBits_cons_cons_of_ne hnext]
  · intro cs
    rw [findBits_cons_of_ne (by decide), findBits_cons_of_ne (by decide)]

theorem findBytes_numbers (bytes : List UInt8) (cs : List Char) :
    findBytes '0' ([',', ' '].intercalate (bytes.map numberByte) ++ ' ' :: cs) =
      bytes ++ findBytes '0' (' ' :: cs) := by
  rw [foldr_of_numbers (f := findBytes '0') (g := List.cons)]
  · exact List.foldr_cons_eq_append'
  · intro b c cs _
    simp only [numberByte, List.cons_append]
    exact findBytes_digits '0' b _
  · intro cs
    rw [findBytes_cons_of_ne (by decide), findBytes_cons_of_ne (by decide)]

theorem findBytes_escape_numbers (bytes : List UInt8) (cs : List Char) :
    findBytes '\\' ([',', ' '].intercalate (bytes.map numberByte) ++ ' ' :: cs) =
      findBytes '\\' (' ' :: cs) := by
  rw [foldr_of_numbers (f := findBytes '\\') (g := fun _ r => r)]
  · exact List.foldr_fixed _
  · intro b c cs _
    obtain ⟨hhigh, hlow⟩ := Hex.upperDigit_ne (x := '\\') (by decide) b
    simp only [numberByte, Hex.upperByte, List.cons_append, List.nil_append]
    rw [findBytes_cons_of_ne (by decide), findBytes_cons_of_ne (by decide),
      findBytes_cons_of_ne hhigh, findBytes_cons_of_ne hlow]
  · intro cs
    rw [findBytes_cons_of_ne (by decide), findBytes_cons_of_ne (by decide)]

end Dialect

namespace Signature

open Dialect

@[simp] theorem length_maskChars (s : Signature) : s.maskChars.length = s.length :=
  List.length_map _

theorem underMask_maskChars (s : Signature) : underMask s.values s.maskChars = s := by
  induction s with
  | nil => rfl
  | cons c s ih =>
    obtain ⟨value, wildcard⟩ := c
    simp only [values, maskChars, underMask, List.map_cons, List.zipWith_cons_cons] at ih ⊢
    rw [ih]
    cases wildcard <;> rfl

/-- The bits of a signature, from its last cell to its first. -/
def bits (s : Signature) : List Char := (s.map fun c => if c.wildcard then '0' else '1').reverse

theorem isBit_of_mem_bits (s : Signature) : ∀ b ∈ s.bits, isBit b = true := by
  intro b hb
  obtain ⟨c, -, rfl⟩ := List.mem_map.mp (List.mem_reverse.mp hb)
  split <;> rfl

theorem x_not_mem_bits (s : Signature) : 'x' ∉ ' ' :: '0' :: 'b' :: s.bits := by
  intro hmem
  have hbit : 'x' ∈ s.bits := by simpa using hmem
  exact absurd (isBit_of_mem_bits s _ hbit) (by decide)

theorem reverse_map_bits (s : Signature) :
    (s.bits.map fun b => if b = '1' then 'x' else '?').reverse = s.maskChars := by
  rw [bits, List.map_reverse, List.reverse_reverse, List.map_map, maskChars]
  refine List.map_congr_left fun c _ => ?_
  rw [Function.comp_apply]
  cases c.wildcard <;> rfl

variable {s : Signature}

theorem numbers_eq (h : s ≠ []) :
    numbers s = [',', ' '].intercalate (s.values.map numberByte) ++ ' ' :: '0' :: 'b' :: s.bits :=
  if_neg h

theorem findMask_numbers (h : s ≠ []) : findMask (numbers s) = some s.maskChars := by
  have hbits : s.bits ≠ [] := by simpa [bits] using h
  have hx : 'x' ∉ ' ' :: '0' :: 'b' :: s.bits := x_not_mem_bits s
  rw [findMask, numbers_eq h, findMaskRun_numbers, findMaskRun_eq_none hx, findBits_numbers,
    findBits_cons_of_ne (by decide), findBits_cons hbits (isBit_of_mem_bits s), Option.map_some,
    reverse_map_bits]

theorem findBytes_of_numbers (h : s ≠ []) :
    findBytes '0' (numbers s) = s.values ∧ findBytes '\\' (numbers s) = [] := by
  have hx : 'x' ∉ ' ' :: '0' :: 'b' :: s.bits := x_not_mem_bits s
  rw [numbers_eq h, findBytes_numbers, findBytes_escape_numbers, findBytes_eq_nil hx,
    findBytes_eq_nil hx, List.append_nil]
  exact ⟨rfl, rfl⟩

theorem read_numbers (h : s ≠ []) : readChars (numbers s) = .ok s := by
  obtain ⟨hnumbers, hescapes⟩ := findBytes_of_numbers h
  have hlead : leads.find? (fun lead => (findBytes lead (numbers s)).length = s.maskChars.length) =
      some '0' := by
    have hlength : s.length ≠ 0 := List.length_eq_zero_iff.not.mpr h
    simp [leads, hnumbers, hescapes, Ne.symm hlength]
  rw [readChars, findMask_numbers h]
  simp only [readMasked, hlead, hnumbers, underMask_maskChars]

/-- Numbers with a mask of bits are read as the signature that they were written for, with the
values under all its wildcards. -/
theorem read_render_bitmask (h : s ≠ []) : read (Dialect.bitmask.render s) = .ok s := by
  rw [read, render, String.toList_ofList]
  exact read_numbers h

/-- A value under a wildcard at the end, and digits that look like a mask of bits. -/
theorem read_render_bitmask_tail :
    let s : Signature := [⟨0x0B, true⟩, ⟨0xB0, false⟩, ⟨0x01, true⟩]
    s ≠ [] ∧ read (Dialect.bitmask.render s) = .ok s :=
  ⟨by decide, read_render_bitmask (by decide)⟩

end Signature

end CodeSignature
