import CodeSignature.Proofs.Search.Delivery

/-! # The first unique signature

Growth stops at the first front part of the code whose signature occurs exactly once. A longer
signature occurs at no further places, so each shorter one that was passed over is ambiguous, also
where the search walks across the end of a segment.
-/

namespace CodeSignature

namespace Analysis

variable {a : Analysis} {image : Image} {h : Heuristics} {o : GrowthOptions} {x y : Int}
  {d : Dialogue} {s : Signature} {is js : List Instruction}

theorem cellsOf_ne_nil (hb : a.BuiltIn) (hi : a.image.Separated) (hw : a.decoder.Walk x is y)
    (hne : is ≠ []) (wildcards : Bool) : a.cellsOf wildcards is ≠ [] := by
  intro hnil
  have htrim := trim_cellsOf_ne_nil hb hi hw hne wildcards
  rw [hnil] at htrim
  exact htrim rfl

theorem exists_find_front (hi : a.image.Separated) {wildcards : Bool} (hjs : js <+: is)
    (hne : a.cellsOf wildcards js ≠ [])
    (honce : a.image.occursOnce (a.cellsOf wildcards is).pattern = true)
    (hbefore : a.image.occursOnce (a.cellsOf wildcards js).pattern = false) :
    ∃ found, a.image.find (Dialect.ida.render (a.cellsOf wildcards js)) none = .ok found ∧
      found.Pairwise (· < ·) ∧ 2 ≤ found.length := by
  have hpattern : (a.cellsOf wildcards js).pattern <+: (a.cellsOf wildcards is).pattern :=
    (a.cellsOf_prefix wildcards hjs).map _
  exact ⟨_, Image.find_render hne, hi.pairwise_occurrences _,
    Image.two_le_of_prefix hpattern honce hbefore⟩

/-- A delivered signature is that of consecutive instructions, trimmed. Untrimmed it is found at one
place, and those of fewer instructions are found at several. It ends with a literal byte. -/
theorem grow_first_unique (hi : image.Separated) (ha : ofImage image h = .ok a)
    (hg : (a.grow o x d).1 = .ok s) :
    ∃ is y, is ≠ [] ∧ a.decoder.Walk x is y ∧ s = (a.cellsOf o.wildcards is).trim ∧
      (∃ m, image.find (Dialect.ida.render (a.cellsOf o.wildcards is)) none = .ok [m]) ∧
      (∀ k, 0 < k → k < is.length →
        ∃ found, image.find (Dialect.ida.render (a.cellsOf o.wildcards (is.take k))) none =
            .ok found ∧
          found.Pairwise (· < ·) ∧ 2 ≤ found.length) ∧
      ∃ (front : Signature) (c : Cell), s = front ++ [c] ∧ c.wildcard = false := by
  have hb := builtIn_of_ofImage ha
  obtain rfl := image_of_ofImage ha
  obtain ⟨-, is, i, y, -, hw, rfl, honce, hbefore⟩ := exists_walk_of_grow hg
  have hne : is ++ [i] ≠ [] := by simp
  refine ⟨is ++ [i], y, hne, hw, rfl, ?_, ?_, ?_⟩
  · obtain ⟨m, hm⟩ := Image.occursOnce_iff.mp honce
    exact ⟨m, hm ▸ Image.find_render (cellsOf_ne_nil hb hi hw hne _)⟩
  · intro k hk hlt
    rw [List.length_append, List.length_singleton] at hlt
    have htake : (is ++ [i]).take k = is.take k := List.take_append_of_le_length (by omega)
    have hprefix : is.take k <+: is ++ [i] := (List.take_prefix k is).trans (List.prefix_append ..)
    have hjs : is.take k ≠ [] := by
      rw [ne_eq, List.take_eq_nil_iff, not_or]
      exact ⟨by omega, fun hnil => by simp [hnil] at hlt; omega⟩
    obtain ⟨z, hfront⟩ := hw.of_prefix hprefix
    rw [htake]
    exact exists_find_front hi hprefix (cellsOf_ne_nil hb hi hfront hjs _) honce
      (hbefore _ (List.take_prefix k is) hjs)
  · exact Signature.exists_trim_eq_append (trim_cellsOf_ne_nil hb hi hw hne _)

/-- The frame set-up of a function occurs a second time in the data, the load after it does not. -/
theorem grow_first_unique_load :
    let image := Image.ofSegments [⟨".data", 0x2000, [0x55, 0x48, 0x89, 0xE5], false⟩,
      ⟨".text", 0x1000, [0x55, 0x48, 0x89, 0xE5, 0x8B, 5, 0, 0, 0, 0], true⟩] "metapc" 64 none
    let s : Signature := [0x55, 0x48, 0x89, 0xE5, 0x8B, 5].map (⟨·, false⟩)
    ∃ a, image.Separated ∧ ofImage image ⟨true, true, true⟩ = .ok a ∧
      (a.grow ⟨true, false, .bytes 1000, true⟩ 0x1000 .quiet).1 = .ok s ∧
      ∃ is y, is ≠ [] ∧ a.decoder.Walk 0x1000 is y ∧ s = (a.cellsOf true is).trim ∧
        (∃ m, image.find (Dialect.ida.render (a.cellsOf true is)) none = .ok [m]) ∧
        (∀ k, 0 < k → k < is.length →
          ∃ found, image.find (Dialect.ida.render (a.cellsOf true (is.take k))) none =
              .ok found ∧
            found.Pairwise (· < ·) ∧ 2 ≤ found.length) ∧
        ∃ (front : Signature) (c : Cell), s = front ++ [c] ∧ c.wildcard = false := by
  intro image s
  have hi : image.Separated :=
    Image.separated_ofSegments (by decide) (by simp [Segment.Apart, Segment.stop])
  have hg : ((ofDecoder image (.ofImage image .bits64) ⟨true, true, true⟩).grow
      ⟨true, false, .bytes 1000, true⟩ 0x1000 .quiet).1 = .ok s := by cbv
  exact ⟨_, hi, rfl, hg, grow_first_unique hi rfl hg⟩

end Analysis

end CodeSignature
