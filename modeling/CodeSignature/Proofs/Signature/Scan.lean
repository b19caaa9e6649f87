import CodeSignature.Proofs.Signature.PatternText
import Mathlib.Data.List.TakeWhile

/-! # Masks and bytes in a text

What a reader passes over while it looks for a mask, for bits or for bytes. An `x` that no mask
character follows is no mask, and without an `x` there are neither masks nor bytes.
-/

namespace CodeSignature

namespace Signature

variable {cs : List Char} {a c lead : Char}

theorem findMaskRun_cons_of_ne (h : a ≠ 'x') (cs : List Char) :
    findMaskRun (a :: cs) = findMaskRun cs := by
  rw [findMaskRun, if_neg h]

theorem isMaskChar_upperDigit (b : UInt8) :
    isMaskChar (Hex.upperDigit (b.toNat / 16)) = false := by
  obtain ⟨hx, -⟩ := Hex.upperDigit_ne (x := 'x') (by decide) b
  obtain ⟨hmark, -⟩ := Hex.upperDigit_ne (x := '?') (by decide) b
  simp [isMaskChar, hx, hmark]

theorem findMaskRun_lone (h : isMaskChar c = false) (cs : List Char) :
    findMaskRun ('x' :: c :: cs) = findMaskRun (c :: cs) := by
  rw [findMaskRun, if_pos rfl, List.takeWhile_cons_of_neg (by simp [h])]

theorem findMaskRun_eq_none (h : 'x' ∉ cs) : findMaskRun cs = none := by
  induction cs with
  | nil => rfl
  | cons a cs ih =>
    rw [List.mem_cons, not_or] at h
    rw [findMaskRun_cons_of_ne (Ne.symm h.1), ih h.2]

theorem findBits_cons_of_ne (h : a ≠ '0') (cs : List Char) : findBits (a :: cs) = findBits cs := by
  cases cs with
  | nil => rfl
  | cons b cs => rw [findBits, if_neg (fun hm => h hm.1)]

theorem findBits_cons_cons_of_ne (h : c ≠ 'b') (cs : List Char) :
    findBits (a :: c :: cs) = findBits (c :: cs) := by
  rw [findBits, if_neg (fun hm => h hm.2)]

theorem findBits_eq_none (h : 'b' ∉ cs) : findBits cs = none := by
  induction cs with
  | nil => rfl
  | cons a cs ih =>
    rw [List.mem_cons, not_or] at h
    cases cs with
    | nil => rfl
    | cons b cs =>
      have hb : b ≠ 'b' := fun hb => h.2 (hb ▸ List.mem_cons_self)
      rw [findBits_cons_cons_of_ne hb, ih h.2]

theorem findBits_cons {bits : List Char} (hne : bits ≠ []) (h : ∀ b ∈ bits, isBit b = true) :
    findBits ('0' :: 'b' :: bits) = some bits := by
  have hrun : bits.takeWhile isBit = bits := List.takeWhile_eq_self_iff.mpr h
  rw [findBits, if_pos ⟨rfl, rfl⟩, hrun]
  cases bits with
  | nil => exact absurd rfl hne
  | cons b bits => rfl

theorem findBytes_cons_of_ne (h : a ≠ lead) (cs : List Char) :
    findBytes lead (a :: cs) = findBytes lead cs := by
  match cs with
  | [] => rfl
  | [_] => rfl
  | [_, _] => rfl
  | x :: high :: low :: rest => rw [findBytes, if_neg (fun hm => h hm.1)]

theorem findBytes_cons_cons_of_ne (h : c ≠ 'x') (cs : List Char) :
    findBytes lead (a :: c :: cs) = findBytes lead (c :: cs) := by
  match cs with
  | [] => rfl
  | [_] => rfl
  | high :: low :: rest => rw [findBytes, if_neg (fun hm => h hm.2)]

theorem findBytes_eq_nil (h : 'x' ∉ cs) (lead : Char) : findBytes lead cs = [] := by
  induction cs with
  | nil => rfl
  | cons a cs ih =>
    rw [List.mem_cons, not_or] at h
    cases cs with
    | nil => rfl
    | cons c cs =>
      have hx : c ≠ 'x' := fun hx => h.2 (hx ▸ List.mem_cons_self)
      rw [findBytes_cons_cons_of_ne hx, ih h.2]

theorem findBytes_digits (lead : Char) (b : UInt8) (cs : List Char) :
    findBytes lead (lead :: 'x' :: (Hex.upperByte b ++ cs)) = b :: findBytes lead cs := by
  simp only [Hex.upperByte, List.cons_append, List.nil_append]
  rw [findBytes, if_pos ⟨rfl, rfl⟩, Hex.byte?_upperByte]

end Signature

end CodeSignature
