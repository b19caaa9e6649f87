import CodeSignature.Proofs.Signature.EscapeText
import Mathlib

/-! # Searching for what has been written

A signature that begins with a literal and has another cell is read back from every dialect. Words
lose its trailing wildcards and a mask keeps them, so under a mask it is only found where there is
room for all its cells.
-/

namespace CodeSignature

namespace Dialect

def isMasked : Dialect → Bool
  | .ida | .x64dbg => false
  | .mask | .bitmask => true

/-- The signature that is read back from a dialect. -/
def readBack (d : Dialect) (s : Signature) : Signature :=
  if d.isMasked then s else s.trim.cleared

end Dialect

namespace Signature

open Dialect

variable {s : Signature}

theorem pattern_cleared (s : Signature) : s.cleared.pattern = s.pattern := by
  rw [pattern, cleared, List.map_map, pattern]
  refine List.map_congr_left fun c _ => ?_
  rw [Function.comp_apply]
  cases hc : c.wildcard <;> simp [hc]

theorem Anchored.trim_ne_nil (h : s.Anchored) : s.trim ≠ [] := by
  obtain ⟨c, s, rfl⟩ := List.exists_cons_of_ne_nil h.ne_nil
  exact Signature.trim_ne_nil List.mem_cons_self (anchored_cons.mp h).2

theorem read_render_of_anchored (h : s.Anchored) (d : Dialect) :
    read (d.render s) = .ok (d.readBack s) := by
  rw [read, render, String.toList_ofList]
  cases d with
  | ida => exact (read_words (.inl rfl) s).trans (if_neg h.trim_ne_nil)
  | x64dbg => exact (read_words (.inr rfl) s).trans (if_neg h.trim_ne_nil)
  | mask =>
    have hwhole : s.fromLiteral.length = s.length := (length_fromLiteral_eq_iff h.ne_nil).mpr h.2
    have hlength : 2 ≤ s.fromLiteral.length := hwhole.symm ▸ h.1
    exact (read_escapes h.ne_nil).trans (by rw [if_pos hlength, if_pos hwhole]; rfl)
  | bitmask => exact read_numbers h.ne_nil

end Signature

namespace Image

variable {image : Image} {segment : Segment} {s : Signature} {x : Int} {n : Nat}

def hasRoom (image : Image) (n : Nat) (x : Int) : Bool :=
  match image.segmentAt? x with
  | some s => x + n ≤ s.stop
  | none => false

theorem Separated.hasRoom_eq (hi : image.Separated) (hs : segment ∈ image.segments)
    (hc : segment.contains x = true) : image.hasRoom n x = decide (x + n ≤ segment.stop) := by
  rw [hasRoom, hi.segmentAt?_eq_some_iff.mpr ⟨hs, hc⟩]

/-- A signature occurs where its trimmed form does, as far as there is room for the rest of it. -/
theorem Separated.occurrences_eq_filter (hi : image.Separated) (s : Signature) :
    image.occurrences s.pattern =
      (image.occurrences s.trim.pattern).filter (image.hasRoom s.length) := by
  have hfiltered := (hi.pairwise_occurrences s.trim.pattern).filter (image.hasRoom s.length)
  refine (hi.pairwise_occurrences _).eq_of_mem_iff hfiltered fun x => ?_
  rw [Signature.mem_occurrences_iff_trim, List.mem_filter, mem_occurrences_iff]
  constructor
  · rintro ⟨t, ht, hc, hm, hroom⟩
    exact ⟨⟨t, ht, hc, hm⟩, by rw [hi.hasRoom_eq ht hc]; exact decide_eq_true hroom⟩
  · rintro ⟨⟨t, ht, hc, hm⟩, hroom⟩
    rw [hi.hasRoom_eq ht hc, decide_eq_true_eq] at hroom
    exact ⟨t, ht, hc, hm, hroom⟩

theorem search_render (h : s.Anchored) (image : Image) (d : Dialect) :
    image.search (d.render s) =
      .ok (d.readBack s, image.occurrences (if d.isMasked then s.pattern else s.trim.pattern)) := by
  have hpattern :
      (d.readBack s).pattern = if d.isMasked then s.pattern else s.trim.pattern := by
    rw [Dialect.readBack]
    split
    next => rfl
    next => exact Signature.pattern_cleared _
  rw [search_of_read (Signature.read_render_of_anchored h d), hpattern]

/-- Every dialect of a signature is found where the trimmed signature is, and without trailing
wildcards there is no difference. With them, the dialects with a mask are only found where there is
room, so all dialects are found in the same places exactly if there is room in all of these. -/
theorem search_render_eq_iff (hi : image.Separated) (h : s.Anchored) :
    let found := image.occurrences s.trim.pattern
    (∀ d : Dialect, image.search (d.render s) =
      .ok (d.readBack s, if d.isMasked then found.filter (image.hasRoom s.length) else found)) ∧
    ((∀ d e : Dialect,
        (image.search (d.render s)).map Prod.snd = (image.search (e.render s)).map Prod.snd) ↔
      ∀ x ∈ found, image.hasRoom s.length x = true) ∧
    (s.trim = s → ∀ x ∈ found, image.hasRoom s.length x = true) := by
  intro found
  have heach (d : Dialect) : image.search (d.render s) =
      .ok (d.readBack s, if d.isMasked then found.filter (image.hasRoom s.length) else found) := by
    rw [search_render h, ← hi.occurrences_eq_filter s]
    cases d <;> rfl
  refine ⟨heach, ⟨?_, ?_⟩, ?_⟩
  · intro hsame
    have hfilter := hsame .mask .ida
    rw [heach, heach] at hfilter
    exact List.filter_eq_self.mp (Except.ok.inj hfilter)
  · intro hroom d e
    have hfilter := List.filter_eq_self.mpr hroom
    rw [heach, heach, hfilter, ite_self, ite_self]
    rfl
  · intro htrim
    refine List.filter_eq_self.mp ?_
    rw [← hi.occurrences_eq_filter s]
    simp only [found, htrim]

/-- Of two places, the last one has no byte left for the wildcard. -/
theorem search_render_eq_iff_tail :
    let s : Signature := [⟨0x48, false⟩, ⟨0x8B, false⟩, ⟨0x00, true⟩]
    let image := flat [0x48, 0x8B, 0x90, 0x48, 0x8B] 0x1000 true "metapc" 64
    image.Separated ∧ s.Anchored ∧
      (∀ d : Dialect, image.search (d.render s) =
        .ok (d.readBack s, if d.isMasked then [0x1000] else [0x1000, 0x1003])) ∧
      ¬ ∀ x ∈ image.occurrences s.trim.pattern, image.hasRoom s.length x = true := by
  intro s image
  have hi : image.Separated := separated_flat (by decide) _ _ _ _
  have h : s.Anchored := by decide
  have hfound : image.occurrences s.trim.pattern = [0x1000, 0x1003] := by cbv
  have hroom : [0x1000, 0x1003].filter (image.hasRoom s.length) = [0x1000] := by cbv
  obtain ⟨heach, -, -⟩ := search_render_eq_iff hi h
  rw [hfound, hroom] at heach
  refine ⟨hi, h, heach, ?_⟩
  rw [hfound, ← List.filter_eq_self, hroom]
  decide

/-- As words the signature is found, and with a mask it is not. -/
theorem search_render_ne :
    let s : Signature := [⟨0x48, false⟩, ⟨0x8B, false⟩, ⟨0x00, true⟩]
    let image := flat [0x48, 0x8B] 0 true "metapc" 64
    image.Separated ∧ s.Anchored ∧
      (image.search (Dialect.ida.render s)).map Prod.snd = .ok [0] ∧
      (image.search (Dialect.x64dbg.render s)).map Prod.snd = .ok [0] ∧
      (image.search (Dialect.mask.render s)).map Prod.snd = .ok [] ∧
      (image.search (Dialect.bitmask.render s)).map Prod.snd = .ok [] := by
  refine ⟨separated_flat (by decide) _ _ _ _, by decide, ?_, ?_, ?_, ?_⟩
  all_goals cbv

end Image

end CodeSignature
