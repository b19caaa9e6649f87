import CodeSignature.Proofs.Search.Run
import CodeSignature.Proofs.Signature.PatternText
import Mathlib

/-! # What a delivered signature finds

Growth tests the untrimmed signature and counts its occurrences without regard to where they are.
The trimmed signature that is delivered finds the requested address exactly if it fits into the
segment of that address. In a flat image it always does, and then finds nothing else exactly if no
other match is so close to the end that the untrimmed signature had no room there.
-/

namespace CodeSignature

namespace Analysis

variable {a : Analysis} {image : Image} {h : Heuristics} {o : GrowthOptions} {x y m : Int}
  {d : Dialogue} {s : Signature} {is : List Instruction} {t : Segment}

section BuiltIn

variable (hb : a.BuiltIn) (hi : a.image.Separated)
include hb hi

theorem trim_cellsOf_ne_nil (hw : a.decoder.Walk x is y) (hne : is ≠ []) (wildcards : Bool) :
    (a.cellsOf wildcards is).trim ≠ [] := by
  cases hw with
  | nil => exact absurd rfl hne
  | cons hd _ =>
    obtain ⟨c, hc, hl⟩ := exists_literal_mem_cells hb hi hd wildcards
    exact Signature.trim_ne_nil (List.mem_append_left _ hc) hl

end BuiltIn

/-- A delivered signature finds the requested address exactly if the segment of that address has
room for it. It has if no segment begins where that one ends. -/
theorem mem_found_iff_room (hi : image.Separated) (ha : ofImage image h = .ok a)
    (hg : (a.grow o x d).1 = .ok s) :
    ∃ t ∈ image.segments, t.contains x = true ∧
      ∃ found, image.find (Dialect.ida.render s) none = .ok found ∧
        (x ∈ found ↔ x + s.length ≤ t.stop) ∧
        ((∀ u ∈ image.segments, u.start ≠ t.stop) → x ∈ found) := by
  have hb := builtIn_of_ofImage ha
  obtain rfl := image_of_ofImage ha
  obtain ⟨hcode, is, i, y, -, hw, rfl, -, -⟩ := exists_walk_of_grow hg
  obtain ⟨t, ht, -, hc⟩ := Image.exists_segment_of_isCode hcode
  have hprefix := Signature.trim_prefix (a.cellsOf o.wildcards (is ++ [i]))
  have hroom := mem_occurrences_start_iff hb hi ht hc hw hprefix
  refine ⟨t, ht, hc, _, Image.find_render (trim_cellsOf_ne_nil hb hi hw (by simp) _), hroom,
    fun hend => hroom.mpr ?_⟩
  obtain ⟨mode, hd⟩ := hb.decoder
  have hlen := length_cellsOf hb hi hw o.wildcards
  have htrim := hprefix.length_le
  rw [hd] at hw
  have := hw.le_stop hi ht hend hc
  omega

/-- Two adjacent segments: the signature of the first byte has room in the first one. -/
theorem mem_found_iff_room_adjacent :
    let image := Image.ofSegments [⟨"second", 1, [0xC3], true⟩, ⟨"first", 0, [0x90], true⟩]
      "metapc" 64 none
    let s : Signature := [⟨0x90, false⟩]
    ∃ a, image.Separated ∧ ofImage image ⟨true, true, true⟩ = .ok a ∧
      (a.grow ⟨true, false, .bytes 1000, true⟩ 0 .quiet).1 = .ok s ∧
      ∃ t ∈ image.segments, t.contains 0 = true ∧
        ∃ found, image.find (Dialect.ida.render s) none = .ok found ∧
          (0 ∈ found ↔ 0 + (s.length : Int) ≤ t.stop) ∧
          ((∀ u ∈ image.segments, u.start ≠ t.stop) → 0 ∈ found) := by
  intro image s
  have hi : image.Separated :=
    Image.separated_ofSegments (by decide) (by simp [Segment.Apart, Segment.stop])
  have hg : ((ofDecoder image (.ofImage image .bits64) ⟨true, true, true⟩).grow
      ⟨true, false, .bytes 1000, true⟩ 0 .quiet).1 = .ok s := by cbv
  exact ⟨_, hi, rfl, hg, mem_found_iff_room hi rfl hg⟩

/-- The walk leaves its segment for an adjacent one, and the signature only matches elsewhere. -/
theorem found_only_elsewhere :
    let image := Image.ofSegments [⟨"first", 0, [0x90], true⟩, ⟨"second", 1, [0xC3], true⟩,
      ⟨"third", 100, [0x90, 0xC3], false⟩] "metapc" 64 none
    let s : Signature := [⟨0x90, false⟩, ⟨0xC3, false⟩]
    image.Separated ∧
      ∃ a, ofImage image ⟨true, true, true⟩ = .ok a ∧
        (a.grow ⟨true, false, .bytes 1000, true⟩ 0 .quiet).1 = .ok s ∧
        image.find (Dialect.ida.render s) none = .ok [100] := by
  refine ⟨Image.separated_ofSegments (by decide) ?_, _, rfl, by cbv, by cbv⟩
  simp [Segment.Apart, Segment.stop]

section Flat

variable {data : List UInt8} {base bitness : Int} {executable : Bool} {processor : String}

/-- In a flat image a grown signature matches at the requested address, and its trimmed form
elsewhere only where the whole has no room. -/
theorem mem_occurrences_flat_iff (hb : a.BuiltIn)
    (himage : a.image = .flat data base executable processor bitness) (hi : a.image.Separated)
    (hc : a.image.contains x = true) (hw : a.decoder.Walk x is y) {wildcards : Bool}
    (honce : a.image.occursOnce (a.cellsOf wildcards is).pattern = true) :
    x ∈ a.image.occurrences (a.cellsOf wildcards is).trim.pattern ∧
      ∀ m ∈ a.image.occurrences (a.cellsOf wildcards is).trim.pattern,
        (m = x ↔ m + (y - x) ≤ base + data.length) := by
  have hsegments : a.image.segments = [⟨".flat", base, data, executable⟩] := by
    rw [himage]; exact Image.segments_flat ..
  obtain ⟨t, ht, htc⟩ := hi.contains_iff.mp hc
  have hstop : t.stop = base + data.length := by
    rw [hsegments, List.mem_singleton] at ht
    rw [ht]; rfl
  have hlt := Segment.start_lt_stop (hi.data_ne_nil t ht)
  have hy : y ≤ t.stop := by
    obtain ⟨mode, hd⟩ := hb.decoder
    rw [hd] at hw
    refine hw.le_stop hi ht (fun u hu => ?_) htc
    rw [hsegments, List.mem_singleton] at hu ht
    rw [hu, ← ht]; omega
  have hlen := length_cellsOf hb hi hw wildcards
  have hprefix := Signature.trim_prefix (a.cellsOf wildcards is)
  have htrim := hprefix.length_le
  have hwhole :=
    mem_occurrences_start_iff hb hi ht htc hw (List.prefix_refl (a.cellsOf wildcards is))
  have hpart := mem_occurrences_start_iff hb hi ht htc hw hprefix
  obtain ⟨z, hz⟩ := Image.occursOnce_iff.mp honce
  have hx : x = z := by simpa [hz] using hwhole.mpr (by omega)
  refine ⟨hpart.mpr (by omega), fun m hm => ⟨fun he => by omega, fun hroom => ?_⟩⟩
  obtain ⟨u, hu, huc, hmatch⟩ := Image.mem_occurrences_iff.mp hm
  have hut : u = t := by
    rw [hsegments, List.mem_singleton] at hu ht
    rw [hu, ht]
  have hmem : m ∈ a.image.occurrences (a.cellsOf wildcards is).pattern :=
    (Signature.mem_occurrences_iff_trim _).mpr ⟨u, hu, huc, hmatch, by rw [hut]; omega⟩
  rw [hz, List.mem_singleton] at hmem
  rw [hmem, hx]

/-- In a flat image a delivered signature finds the requested address, and no other one exactly if
wherever it matches there is room for all the bytes that were grown. Without wildcards there is. -/
theorem found_flat_eq_iff
    (ha : ofImage (.flat data base executable processor bitness) h = .ok a)
    (hg : (a.grow o x d).1 = .ok s) :
    ∃ is y found, a.decoder.Walk x is y ∧ s = (a.cellsOf o.wildcards is).trim ∧
      (Image.flat data base executable processor bitness).find (Dialect.ida.render s) none =
        .ok found ∧
      x ∈ found ∧ (∀ m ∈ found, m = x ∨ base + data.length < m + (y - x)) ∧
      (found = [x] ↔ ∀ m ∈ found, m + (y - x) ≤ base + data.length) ∧
      (o.wildcards = false → found = [x]) := by
  have hb := builtIn_of_ofImage ha
  have himage := image_of_ofImage ha
  obtain ⟨hcode, is, i, y, -, hw, rfl, honce, -⟩ := exists_walk_of_grow hg
  obtain ⟨t, ht, -, hc⟩ := Image.exists_segment_of_isCode hcode
  have hne : data ≠ [] := by
    rw [himage, Image.segments_flat, List.mem_singleton] at ht
    have hdata := Segment.data_ne_nil_of_contains hc
    rwa [ht] at hdata
  have hi : a.image.Separated := himage ▸ Image.separated_flat hne ..
  have hcontains := hi.contains_iff.mpr ⟨t, ht, hc⟩
  obtain ⟨hx, hall⟩ := mem_occurrences_flat_iff hb himage hi hcontains hw honce
  have hone : (∀ m ∈ a.image.occurrences (a.cellsOf o.wildcards (is ++ [i])).trim.pattern, m = x) →
      a.image.occurrences (a.cellsOf o.wildcards (is ++ [i])).trim.pattern = [x] :=
    Sequence.eq_singleton_of_pairwise (hi.pairwise_occurrences _) hx
  refine ⟨is ++ [i], y, _, hw, rfl,
    Image.find_render (trim_cellsOf_ne_nil hb hi hw (by simp) _), ?_⟩
  rw [← himage]
  refine ⟨hx, fun m hm => ?_, ⟨fun hf m hm => ?_, fun hroom => ?_⟩, fun hliteral => ?_⟩
  · rcases Int.lt_or_le (base + data.length) (m + (y - x)) with hlt | hle
    · exact Or.inr hlt
    · exact Or.inl ((hall m hm).mpr hle)
  · have hmx := hm
    rw [hf, List.mem_singleton] at hmx
    exact (hall m hm).mp hmx
  · exact hone fun m hm => (hall m hm).mpr (hroom m hm)
  · rw [hliteral] at honce hx ⊢
    have htrim : (a.cellsOf false (is ++ [i])).trim = a.cellsOf false (is ++ [i]) :=
      Signature.trim_eq_self fun c => literal_of_mem_cellsOf
    rw [htrim] at hx ⊢
    obtain ⟨z, hz⟩ := Image.occursOnce_iff.mp honce
    rw [hz, List.mem_singleton] at hx
    rw [hz, hx]

/-- A call at the start of the image is delivered without its distance. -/
theorem found_flat_eq_iff_call :
    let image := Image.flat [0xE8, 0, 0, 0, 0, 0x90] 0x1000 true "metapc" 64
    let s : Signature := [⟨0xE8, false⟩]
    ∃ a, ofImage image ⟨true, true, true⟩ = .ok a ∧
      (a.grow ⟨true, false, .bytes 1000, true⟩ 0x1000 .quiet).1 = .ok s ∧
      ∃ is y found, a.decoder.Walk 0x1000 is y ∧ s = (a.cellsOf true is).trim ∧
        image.find (Dialect.ida.render s) none = .ok found ∧
        0x1000 ∈ found ∧ (∀ m ∈ found, m = 0x1000 ∨ 0x1000 + 6 < m + (y - 0x1000)) ∧
        (found = [0x1000] ↔ ∀ m ∈ found, m + (y - 0x1000) ≤ 0x1000 + 6) ∧
        (true = false → found = [0x1000]) := by
  intro image s
  have hg : ((ofDecoder image (.ofImage image .bits64) ⟨true, true, true⟩).grow
      ⟨true, false, .bytes 1000, true⟩ 0x1000 .quiet).1 = .ok s := by cbv
  exact ⟨_, rfl, hg, found_flat_eq_iff rfl hg⟩

/-- The same opcode at the end of the image has no room for a distance, so it is no occurrence of
the grown signature but one of the delivered signature. -/
theorem found_twice_after_trim :
    let image := Image.flat [0xE8, 0, 0, 0, 0, 0xE8] 0 true "metapc" 64
    let s : Signature := [⟨0xE8, false⟩]
    ∃ a, ofImage image ⟨true, true, true⟩ = .ok a ∧
      (a.grow ⟨true, false, .bytes 1000, true⟩ 0 .quiet).1 = .ok s ∧
      image.find (Dialect.ida.render s) none = .ok [0, 5] :=
  ⟨_, rfl, by cbv, by cbv⟩

end Flat

end Analysis

end CodeSignature
