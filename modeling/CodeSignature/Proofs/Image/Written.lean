import CodeSignature.Proofs.Image.Pasted
import CodeSignature.Proofs.Image.Scan

/-! # Where a written signature is found

A signature that is written as words is found at every address where its literal bytes are, as far
as there is room for all its cells. Without its trailing wildcards it needs less room, and that is
all the difference they make.
-/

namespace CodeSignature

namespace Signature

variable {s : Signature}

theorem getElem?_pattern_eq_some_iff {k : Nat} {v : UInt8} :
    s.pattern[k]? = some (some v) ↔
      ∃ c, s[k]? = some c ∧ c.wildcard = false ∧ c.value = v := by
  rw [Signature.pattern, List.getElem?_map, Option.map_eq_some_iff]
  refine exists_congr fun c => and_congr_right fun _ => ?_
  cases c.wildcard <;> simp

end Signature

namespace Segment

variable {s : Segment} {signature : Signature} {x : Int}

/-- Whether a signature lies at an address of a segment, byte by byte. -/
def Holds (s : Segment) (signature : Signature) (x : Int) : Prop :=
  s.start ≤ x ∧ x + signature.length ≤ s.stop ∧
    ∀ (k : Nat) (c : Cell), signature[k]? = some c → c.wildcard = false →
      s.data[(x + k - s.start).toNat]? = some c.value

theorem holds_iff (hne : signature ≠ []) :
    s.Holds signature x ↔
      s.contains x = true ∧ signature.pattern.matchesFront (s.rest x) = true := by
  have hpos : 0 < signature.length := List.length_pos_iff.mpr hne
  have hbytes (hx : s.start ≤ x) (k : Nat) :
      (s.rest x)[k]? = s.data[(x + k - s.start).toNat]? := by
    rw [rest, List.getElem?_drop]
    congr 1
    omega
  rw [Pattern.matchesFront_iff, Signature.length_pattern]
  constructor
  · rintro ⟨hstart, hstop, hcells⟩
    have hc : s.contains x = true := contains_iff.mpr ⟨hstart, by omega⟩
    have hroom := length_rest_of_contains hc
    refine ⟨hc, by omega, fun k v hv => ?_⟩
    obtain ⟨c, hk, hliteral, rfl⟩ := Signature.getElem?_pattern_eq_some_iff.mp hv
    rw [hbytes hstart]
    exact hcells k c hk hliteral
  · rintro ⟨hc, hroom, hplaces⟩
    have hrest := length_rest_of_contains hc
    have hstart := (contains_iff.mp hc).1
    refine ⟨hstart, by omega, fun k c hk hliteral => ?_⟩
    rw [← hbytes hstart]
    exact hplaces k c.value
      (Signature.getElem?_pattern_eq_some_iff.mpr ⟨c, hk, hliteral, rfl⟩)

end Segment

namespace Image

variable {image : Image} {s : Signature} {x : Int}

theorem mem_occurrences_iff_holds (hne : s ≠ []) :
    x ∈ image.occurrences s.pattern ↔ ∃ t ∈ image.segments, t.Holds s x := by
  simp only [mem_occurrences_iff, Segment.holds_iff hne]

end Image

namespace Scan

variable {s : Signature} {segments : List Segment}

/-- A scan for a written signature finds every address at which it lies in a segment, and no other
address, in ascending order. What stands under wildcards makes no difference. -/
theorem find_written (hne : s ≠ []) (hd : segments.Pairwise Segment.Disjoint) (processor : String)
    (bitness : Int) (entryPoint : Option Int) :
    ∃ found, find segments (Dialect.ida.render s) none = .ok found ∧
      (Image.ofSegments segments processor bitness entryPoint).find (Dialect.ida.render s) none =
        .ok found ∧
      found.Pairwise (· < ·) ∧
      (∀ x, x ∈ found ↔ ∃ t ∈ segments, t.start ≤ x ∧ x + s.length ≤ t.stop ∧
        ∀ (k : Nat) (c : Cell), s[k]? = some c → c.wildcard = false →
          t.data[(x + k - t.start).toNat]? = some c.value) ∧
      ∀ r : Signature, r.pattern = s.pattern →
        find segments (Dialect.ida.render r) none = .ok found := by
  let image := Image.ofSegments segments processor bitness entryPoint
  have hdisjoint : image.segments.Pairwise Segment.Disjoint :=
    hd.perm (List.mergeSort_perm segments _).symm fun h => h.symm
  have hfind (r : Signature) (hr : r.pattern = s.pattern) :
      image.find (Dialect.ida.render r) none = .ok (image.occurrences s.pattern) := by
    have hrne : r ≠ [] := by
      rintro rfl
      exact hne (List.map_eq_nil_iff.mp hr.symm)
    rw [Image.find_render hrne, hr]
  have hscan (r : Signature) (hr : r.pattern = s.pattern) :
      find segments (Dialect.ida.render r) none = .ok (image.occurrences s.pattern) := by
    rw [find_ofSegments segments processor bitness entryPoint, hfind r hr, raised_ok]
  refine ⟨image.occurrences s.pattern, hscan s rfl, hfind s rfl,
    Image.pairwise_occurrences_of_disjoint hdisjoint _, fun x => ?_, hscan⟩
  rw [Image.mem_occurrences_iff_holds hne]
  simp only [image, Image.ofSegments, Image.mem_arrange, Segment.Holds]

/-- Hits overlap, a dot and a line feed count as bytes, and the segments may be in any order. -/
theorem find_written_overlapping :
    let s : Signature := [⟨0x2E, false⟩, ⟨0x7F, true⟩, ⟨0x0A, false⟩]
    let segments : List Segment :=
      [⟨"b", 8, [0x2E, 0x2E, 0x0A, 0x41], false⟩, ⟨"empty", 9, [], true⟩,
        ⟨"a", 0, [0x2E, 0x2E, 0x0A, 0x0A, 0x2E, 0x2E], true⟩]
    s ≠ [] ∧ segments.Pairwise Segment.Disjoint ∧
      find segments (Dialect.ida.render s) none = .ok [0, 1, 8] ∧
      ∀ x, x ∈ ([0, 1, 8] : List Int) ↔ ∃ t ∈ segments, t.start ≤ x ∧ x + s.length ≤ t.stop ∧
        ∀ (k : Nat) (c : Cell), s[k]? = some c → c.wildcard = false →
          t.data[(x + k - t.start).toNat]? = some c.value := by
  intro s segments
  have hne : s ≠ [] := List.cons_ne_nil _ _
  have hd : segments.Pairwise Segment.Disjoint := by
    simp [segments, Segment.Disjoint, Segment.contains, Segment.stop]
    omega
  obtain ⟨found, hfind, himage, -, hmem, -⟩ := find_written hne hd "metapc" 64 none
  have hfound : (Image.ofSegments segments "metapc" 64 none).find (Dialect.ida.render s) none =
      .ok [0, 1, 8] := by cbv
  obtain rfl := Except.ok.inj (himage.symm.trans hfound)
  exact ⟨hne, hd, hfind, hmem⟩

end Scan

namespace Image

variable {image : Image} {s : Signature}

/-- Trailing wildcards cost a signature those of its hits that are too close to the end of their
segment, and nothing else. -/
theorem find_trimmed (hi : image.Separated) (htrim : s.trim ≠ []) :
    ∃ whole trimmed, image.find (Dialect.ida.render s) none = .ok whole ∧
      image.find (Dialect.ida.render s.trim) none = .ok trimmed ∧
      whole = trimmed.filter (image.hasRoom s.length) ∧
      (∀ x, x ∈ whole ↔ x ∈ trimmed ∧
        ∃ t ∈ image.segments, t.contains x = true ∧ x + s.length ≤ t.stop) ∧
      ∀ x ∈ trimmed, x ∉ whole →
        ∃ t ∈ image.segments, t.contains x = true ∧ t.stop - x < s.length := by
  have hne : s ≠ [] := by
    rintro rfl
    exact htrim rfl
  have hwhole := hi.occurrences_eq_filter s
  have hroom {x : Int} (hx : x ∈ image.occurrences s.trim.pattern) :
      ∃ t ∈ image.segments, t.contains x = true ∧
        (image.hasRoom s.length x = true ↔ x + s.length ≤ t.stop) := by
    obtain ⟨t, ht, hc, -⟩ := mem_occurrences_iff.mp hx
    exact ⟨t, ht, hc, by rw [hi.hasRoom_eq ht hc, decide_eq_true_eq]⟩
  refine ⟨_, _, find_render hne, find_render htrim, hwhole, fun x => ?_, fun x hx hnot => ?_⟩
  · rw [hwhole, List.mem_filter]
    refine and_congr_right fun hx => ?_
    obtain ⟨t, ht, hc, hiff⟩ := hroom hx
    refine ⟨fun h => ⟨t, ht, hc, hiff.mp h⟩, ?_⟩
    rintro ⟨u, hu, huc, hstop⟩
    rw [hiff, hi.eq_of_contains ht hu hc huc]
    exact hstop
  · obtain ⟨t, ht, hc, hiff⟩ := hroom hx
    rw [hwhole, List.mem_filter, hiff] at hnot
    have hshort : ¬ x + s.length ≤ t.stop := fun h => hnot ⟨hx, h⟩
    exact ⟨t, ht, hc, by omega⟩

/-- The second of two hits of a byte is at the end, where no byte is left for the wildcard. -/
theorem find_trimmed_end :
    let s : Signature := [⟨0xE8, false⟩, ⟨0x00, true⟩]
    let image := flat [0xE8, 0x90, 0xE8] 0x1000 true "metapc" 64
    image.Separated ∧ s.trim ≠ [] ∧
      image.find (Dialect.ida.render s) none = .ok [0x1000] ∧
      image.find (Dialect.ida.render s.trim) none = .ok [0x1000, 0x1002] ∧
      ∃ t ∈ image.segments, t.contains 0x1002 = true ∧ t.stop - 0x1002 < s.length := by
  intro s image
  have hi : image.Separated := separated_flat (by decide) _ _ _ _
  have htrim : s.trim ≠ [] := by decide
  have hs : image.find (Dialect.ida.render s) none = .ok [0x1000] := by cbv
  have ht : image.find (Dialect.ida.render s.trim) none = .ok [0x1000, 0x1002] := by cbv
  obtain ⟨whole, trimmed, hwhole, htrimmed, -, -, hlost⟩ := find_trimmed hi htrim
  obtain rfl := Except.ok.inj (hwhole.symm.trans hs)
  obtain rfl := Except.ok.inj (htrimmed.symm.trans ht)
  exact ⟨hi, htrim, hs, ht, hlost 0x1002 (by decide) (by decide)⟩

end Image

end CodeSignature
