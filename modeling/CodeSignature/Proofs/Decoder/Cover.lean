import CodeSignature.Proofs.Decoder.Walk

/-! # Covering a range

The instructions that cover a range are decoded one after the other until the end of the range is
reached or none is known. If instructions are not empty, then every range is covered.
-/

namespace CodeSignature

namespace Decoder

/-- Consecutive instructions that begin before an end, up to the first boundary that does not, or to
the first address at which none is known. -/
inductive Covers (d : Decoder) (stop : Int) : Int → List Instruction → Int → Prop where
  | reached {x : Int} : stop ≤ x → Covers d stop x [] x
  | unknown {x : Int} : x < stop → d.decode? x = none → Covers d stop x [] x
  | next {x y : Int} {i : Instruction} {is : List Instruction} :
      x < stop → d.decode? x = some i → Covers d stop (x + i.size) is y → Covers d stop x (i :: is) y

variable {d : Decoder} {x y stop : Int} {is : List Instruction}

theorem Covers.walk (h : d.Covers stop x is y) : d.Walk x is y := by
  induction h with
  | reached => exact .nil _
  | unknown => exact .nil _
  | next _ hd _ ih => exact .cons hd ih

section NonEmpty

variable (hpos : ∀ x i, d.decode? x = some i → 0 < i.size)
include hpos

theorem exists_covers (x : Int) : ∃ is y, d.Covers stop x is y := by
  induction hn : (stop - x).toNat using Nat.strong_induction_on generalizing x with
  | _ n ih =>
    rcases Int.lt_or_le x stop with hx | hx
    · cases hd : d.decode? x with
      | none => exact ⟨[], x, .unknown hx hd⟩
      | some i =>
        have := hpos x i hd
        obtain ⟨is, y, h⟩ := ih (stop - (x + i.size)).toNat (by omega) (x + i.size) rfl
        exact ⟨i :: is, y, .next hx hd h⟩
    · exact ⟨[], x, .reached hx⟩

theorem Covers.length_le (h : d.Covers stop x is y) : is.length ≤ (stop - x).toNat := by
  induction h with
  | reached => exact Nat.zero_le _
  | unknown => exact Nat.zero_le _
  | next hx hd _ ih =>
    have := hpos _ _ hd
    rw [List.length_cons]
    omega

theorem Walk.le (h : d.Walk x is y) : x ≤ y := by
  induction h with
  | nil => exact Int.le_refl _
  | cons hd _ ih =>
    have := hpos _ _ hd
    omega

theorem Walk.covers (h : d.Walk x is y) : d.Covers y x is y := by
  induction h with
  | nil => exact .reached (Int.le_refl _)
  | cons hd hw ih =>
    have := hpos _ _ hd
    have := Walk.le hpos hw
    exact .next (by omega) hd ih

end NonEmpty

theorem Covers.le_stop {image : Image} {mode : Mode} {s : Segment} (hi : image.Separated)
    (hs : s ∈ image.segments) (hstop : stop ≤ s.stop) (h : (ofImage image mode).Covers stop x is y)
    (hc : s.contains x = true) : y ≤ s.stop := by
  induction h with
  | reached => exact Int.le_of_lt (Segment.contains_iff.mp hc).2
  | unknown => exact Int.le_of_lt (Segment.contains_iff.mp hc).2
  | next hx hd h ih =>
    obtain ⟨-, hp, hle, -⟩ := bytes_of_decode?_ofImage hi hs hc hd
    have := Segment.contains_iff.mp hc
    cases h with
    | reached => exact hle
    | unknown => exact hle
    | next hx' hd' h' => exact ih (Segment.contains_iff.mpr ⟨by omega, by omega⟩)

end Decoder

end CodeSignature
