import CodeSignature.Proofs.Search.Cells
import CodeSignature.Proofs.Search.Run
import Mathlib.Data.Finset.Prod
import Mathlib.Data.Finset.Card

/-! # How long a search can take

A search that comes back to an address with as many cells as before has gone in a circle and gains
nothing by it. Since the cells of a success fit into a segment, it takes no more turns than there are
addresses and lengths, which is within the patience of a search: a run is never cut short on the way
to a success.
-/

namespace CodeSignature

namespace Decoder

/-- The decoder knows instructions at no more addresses than its reach says. -/
def Bounded (d : Decoder) : Prop :=
  ∃ known : List Int, known.length ≤ d.reach ∧ ∀ x i, d.decode? x = some i → x ∈ known

theorem bounded_ofImage (image : Image) (mode : Mode) : (ofImage image mode).Bounded := by
  refine ⟨image.segments.flatMap fun s => (List.range s.data.length).map fun (n : Nat) => s.start + n,
    ?_, fun x i h => ?_⟩
  · rw [Sequence.length_flatMap]
    simp [ofImage]
  · obtain ⟨s, hs, -⟩ := Option.bind_eq_some_iff.mp h
    have hc := Segment.contains_iff.mp (by simpa using List.find?_some hs)
    unfold Segment.stop at hc
    refine List.mem_flatMap.mpr ⟨s, List.mem_of_find?_eq_some hs, List.mem_map.mpr ?_⟩
    exact ⟨(x - s.start).toNat, List.mem_range.mpr (by omega), by omega⟩

end Decoder

namespace Analysis

variable {a : Analysis} {o : GrowthOptions} {wildcards : Bool} {x y : Int} {d : Dialogue}
  {s : Signature} {is js : List Instruction} {j k : Nat}

theorem length_le_of_occursOnce
    (h : a.image.occursOnce (a.cellsOf wildcards is).pattern = true) :
    (a.cellsOf wildcards is).length ≤ Sequence.total (a.image.segments.map (·.data.length)) := by
  obtain ⟨z, hz⟩ := Image.occursOnce_iff.mp h
  have hmem : z ∈ a.image.occurrences (a.cellsOf wildcards is).pattern := by simp [hz]
  obtain ⟨t, ht, -, hmatch⟩ := Image.mem_occurrences_iff.mp hmem
  have hroom := Pattern.length_le_of_matchesFront hmatch
  have hdata : t.data.length ≤ Sequence.total (a.image.segments.map (·.data.length)) :=
    Sequence.le_total_of_mem (List.mem_map.mpr ⟨t, ht, rfl⟩)
  rw [Signature.length_pattern, Segment.rest, List.length_drop] at hroom
  omega

theorem cellsOf_eq_of_circle (hw : a.decoder.Walk x is y) (hjk : j < k) (hk : k < is.length)
    (haddress : ((is.take j).map (·.size)).sum = ((is.take k).map (·.size)).sum)
    (hlength : (a.cellsOf wildcards (is.take j)).length =
      (a.cellsOf wildcards (is.take k)).length) :
    a.cellsOf wildcards is = a.cellsOf wildcards (is.take (j + (is.length - k))) := by
  have hcells : a.cellsOf wildcards (is.take j) = a.cellsOf wildcards (is.take k) :=
    (List.prefix_of_prefix_length_le (a.cellsOf_prefix wildcards (List.take_prefix j is))
      (a.cellsOf_prefix wildcards (List.take_prefix k is)) hlength.le).eq_of_length hlength
  have hfrom : ∀ n, a.decoder.Walk (x + ((is.take n).map (·.size)).sum) (is.drop n) y := by
    intro n
    exact Decoder.Walk.of_append (by rwa [List.take_append_drop])
  have hprefix : is.drop k <+: is.drop j :=
    (hfrom k).prefix_of_length_le (haddress ▸ hfrom j) (by simp; omega)
  have hdrop : is.drop k = (is.drop j).take (is.length - k) := by
    simpa using List.prefix_iff_eq_take.mp hprefix
  calc a.cellsOf wildcards is
      = a.cellsOf wildcards (is.take k) ++ a.cellsOf wildcards (is.drop k) := by
        rw [← cellsOf_append, List.take_append_drop]
    _ = a.cellsOf wildcards (is.take j ++ (is.drop j).take (is.length - k)) := by
        rw [← hcells, hdrop, cellsOf_append]
    _ = a.cellsOf wildcards (is.take (j + (is.length - k))) := by rw [List.take_add]

/-- A walk up to the first signature that occurs once goes in no circle, so it has at most as many
instructions as there are addresses and lengths. -/
theorem length_le_of_first (hb : a.decoder.Bounded) (hw : a.decoder.Walk x is y)
    (honce : a.image.occursOnce (a.cellsOf wildcards is).pattern = true)
    (hbefore : ∀ js, js <+: is → js ≠ [] → js.length < is.length →
      a.image.occursOnce (a.cellsOf wildcards js).pattern = false) :
    is.length ≤ a.decoder.reach * (Sequence.total (a.image.segments.map (·.data.length)) + 1) := by
  obtain ⟨known, hreach, hknown⟩ := hb
  by_contra hlt
  let state : Nat → Int × Nat := fun n =>
    (x + ((is.take n).map (·.size)).sum, (a.cellsOf wildcards (is.take n)).length)
  let states := known.toFinset ×ˢ
    Finset.range (Sequence.total (a.image.segments.map (·.data.length)) + 1)
  have hcard : states.card < (Finset.range is.length).card := by
    have hdistinct := known.toFinset_card_le
    rw [Finset.card_product, Finset.card_range, Finset.card_range]
    have := Nat.mul_le_mul_right (Sequence.total (a.image.segments.map (·.data.length)) + 1)
      (hdistinct.trans hreach)
    omega
  have hmaps : ∀ n ∈ Finset.range is.length, state n ∈ states := by
    intro n hn
    rw [Finset.mem_range] at hn
    refine Finset.mem_product.mpr ⟨List.mem_toFinset.mpr ?_, Finset.mem_range.mpr ?_⟩
    · have hfrom : a.decoder.Walk (x + ((is.take n).map (·.size)).sum) (is.drop n) y :=
        Decoder.Walk.of_append (by rwa [List.take_append_drop])
      rw [List.drop_eq_getElem_cons hn] at hfrom
      cases hfrom with
      | cons hd _ => exact hknown _ _ hd
    · have hfront := (a.cellsOf_prefix wildcards (List.take_prefix n is)).length_le
      have := length_le_of_occursOnce honce
      exact Nat.lt_succ_of_le (hfront.trans this)
  have hcircle : ∀ j k, j < k → k < is.length → state j ≠ state k := by
    intro j k hjk hk hstate
    obtain ⟨haddress, hcells⟩ := Prod.mk.inj hstate
    rw [cellsOf_eq_of_circle hw hjk hk (by omega) hcells] at honce
    have hlength : (is.take (j + (is.length - k))).length = j + (is.length - k) := by
      rw [List.length_take]
      omega
    have hne : is.take (j + (is.length - k)) ≠ [] :=
      List.ne_nil_of_length_pos (by omega)
    have hfalse := hbefore _ (List.take_prefix _ _) hne (by omega)
    simp [honce] at hfalse
  obtain ⟨j, hj, k, hk, hne, hsame⟩ := Finset.exists_ne_map_eq_of_card_lt_of_maps_to hcard hmaps
  rw [Finset.mem_range] at hj hk
  rcases Nat.lt_or_gt_of_ne hne with hjk | hkj
  · exact hcircle j k hjk hk hsame
  · exact hcircle k j hkj hj hsame.symm

/-- A search succeeds if any run does, however long. -/
theorem grow_eq_ok_iff_run (hb : a.decoder.Bounded) :
    (a.grow o x d).1 = .ok s ↔
      (x ≠ Image.badAddress ∧ a.image.isCode x = true) ∧
        ∃ n d', Growth.run a o x (a.routines.containing? x) n (.start x) d = (.ok s, d') := by
  rw [grow_eq_ok_iff]
  refine and_congr_right fun _ => ⟨fun ⟨d', h⟩ => ⟨_, d', h⟩, fun ⟨n, d', h⟩ => ⟨d', ?_⟩⟩
  obtain ⟨is, i, y, -, hrun, hw, -, honce, hbefore⟩ := Growth.exists_walk_of_run h
  refine Growth.run_mono ?_ hrun
  have hlength := length_le_of_first hb hw honce fun js hjs hne hlt => by
    refine hbefore js ?_ hne
    exact List.prefix_of_prefix_length_le hjs (List.prefix_append is [i])
      (by simp at hlt; omega)
  rw [List.length_append, List.length_singleton] at hlength
  exact hlength.trans (Nat.mul_le_mul_left _ (by omega))

end Analysis

end CodeSignature
