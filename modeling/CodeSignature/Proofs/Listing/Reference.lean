import CodeSignature.Listing.Reference
import CodeSignature.Proofs.Listing.Run
import Mathlib.Data.List.Sort

/-! # References of a listing

The references to an address that are looked up in a listing that is laid are the addresses of the
instructions with an operand that refers to it, each once and in the order of the listing.
-/

namespace CodeSignature

def Instruction.refersTo (i : Instruction) (target : Int) : Bool :=
  i.operands.any fun p => referringKinds.contains p.kind && p.value = some target

variable {l : Listing} {i : Instruction} {range : Option (Int × Int)} {target x : Int}

def References.targets (r : References) : List Int := r.entries.map (·.1)

theorem References.targets_ofPairs (pairs : List (Int × Int)) :
    (ofPairs pairs).targets = Sequence.ascending (pairs.map (·.1)) := by
  simp [targets, ofPairs, Function.comp_def]

theorem References.origins_ofPairs (pairs : List (Int × Int)) (target : Int) :
    (ofPairs pairs).origins target =
      Sequence.ascending ((pairs.filter (·.1 = target)).map (·.2)) := by
  rw [origins, ofPairs]
  cases hfind : List.find? _ _ with
  | some entry =>
    obtain ⟨t, -, rfl⟩ := List.mem_map.mp (List.mem_of_find?_eq_some hfind)
    obtain rfl : t = target := by simpa using List.find?_some hfind
    rfl
  | none =>
    -- A target without an entry is the target of no pair.
    have hnone : pairs.filter (·.1 = target) = [] := by
      refine List.filter_eq_nil_iff.mpr ?_
      intro p hp
      have hmem := Sequence.mem_ascending.mpr (List.mem_map_of_mem (f := (·.1)) hp)
      have := List.find?_eq_none.mp hfind _ (List.mem_map_of_mem hmem)
      simpa using this
    rw [hnone]
    rfl

namespace Listing

theorem mem_references :
    (target, x) ∈ references range l ↔
      inRange range target = true ∧ ∃ i ∈ l, i.address = x ∧ i.refersTo target = true := by
  simp only [references, List.mem_flatMap, List.mem_filterMap, Instruction.refersTo,
    List.any_eq_true]
  constructor
  · rintro ⟨i, hi, p, hp, h⟩
    cases hvalue : p.value with
    | none => simp [hvalue] at h
    | some t =>
      simp only [hvalue, Option.ite_none_right_eq_some, Bool.and_eq_true, Option.some.injEq,
        Prod.mk.injEq] at h
      obtain ⟨⟨hkind, hrange⟩, rfl, rfl⟩ := h
      exact ⟨hrange, i, hi, rfl, p, hp, by simpa [hvalue] using hkind⟩
  · rintro ⟨hrange, i, hi, rfl, p, hp, h⟩
    simp only [Bool.and_eq_true, decide_eq_true_eq] at h
    exact ⟨i, hi, p, hp, by simpa [h.2, hrange] using h.1⟩

/-- The recorded targets are those in the range that an instruction refers to. -/
theorem mem_targets_references :
    target ∈ (References.ofPairs (references range l)).targets ↔
      inRange range target = true ∧ ∃ i ∈ l, i.refersTo target = true := by
  rw [References.targets_ofPairs, Sequence.mem_ascending, List.mem_map]
  constructor
  · rintro ⟨⟨t, x⟩, hmem, rfl⟩
    obtain ⟨hrange, i, hi, -, hrefers⟩ := mem_references.mp hmem
    exact ⟨hrange, i, hi, hrefers⟩
  · rintro ⟨hrange, i, hi, hrefers⟩
    exact ⟨(target, i.address), mem_references.mpr ⟨hrange, i, hi, rfl, hrefers⟩, rfl⟩

theorem Laid.pairwise_addresses (h : Laid l) : (l.map (·.address)).Pairwise (· < ·) := by
  rw [List.pairwise_map]
  refine h.ordered.imp_of_mem ?_
  intro i j hi _ hle
  have := h.size_pos i hi
  unfold Instruction.next at hle
  omega

theorem Laid.origins_references (h : Laid l) (ht : inRange range target = true) :
    (References.ofPairs (references range l)).origins target =
      (l.filter (·.refersTo target)).map (·.address) := by
  rw [References.origins_ofPairs]
  have hfiltered := h.pairwise_addresses.sublist
    (List.filter_sublist (p := (·.refersTo target)) (l := l) |>.map (·.address))
  refine (Sequence.pairwise_ascending _).eq_of_mem_iff hfiltered ?_
  intro x
  rw [Sequence.mem_ascending, List.mem_map, List.mem_map]
  constructor
  · rintro ⟨⟨t, x⟩, hmem, rfl⟩
    obtain ⟨hpair, ht'⟩ := List.mem_filter.mp hmem
    obtain rfl : t = target := by simpa using ht'
    obtain ⟨-, i, hi, rfl, hrefers⟩ := mem_references.mp hpair
    exact ⟨i, List.mem_filter.mpr ⟨hi, hrefers⟩, rfl⟩
  · rintro ⟨i, hmem, rfl⟩
    obtain ⟨hi, hrefers⟩ := List.mem_filter.mp hmem
    refine ⟨(target, i.address), List.mem_filter.mpr ⟨?_, by simp⟩, rfl⟩
    exact mem_references.mpr ⟨ht, i, hi, rfl, hrefers⟩

end Listing

end CodeSignature
