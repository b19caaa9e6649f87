import CodeSignature.Proofs.Decoder.Sweep
import CodeSignature.Proofs.Listing.Routine
import CodeSignature.Proofs.Search.Outcome
import Mathlib

/-! # Searches that stay in their function

A search that may not leave its function only looks at the function between two instructions. That
is enough from an instruction of the listing on: what is decoded there is the instruction of the
listing, which does not go past the end of the function, and the next one is in the listing again.
-/

namespace CodeSignature

variable {a : Analysis} {image : Image} {h : Heuristics} {o : GrowthOptions} {f : Routine}
  {x origin : Int} {d : Dialogue} {i : Instruction} {n : Nat} {g : Growth}

theorem Analysis.containing?_of_contains (ha : ofImage image h = .ok a)
    (hf : f ∈ a.routines.routines) (hc : f.contains x = true) :
    a.routines.containing? x = some f := by
  obtain ⟨-, rfl⟩ := eq_of_ofImage ha
  exact Listing.containing?_ofList (Listing.routines_ofList .. ▸ hf) hc

theorem Analysis.exists_next_of_decode? (hi : image.Separated) (ha : ofImage image h = .ok a)
    (hf : f ∈ a.routines.routines) (hx : x ∈ Listing.addresses a.decoder.listing)
    (hc : f.contains x = true) (hdec : a.decoder.decode? x = some i) :
    x + i.size ≤ f.stop ∧
      (x + i.size = f.stop ∨ x + i.size ∈ Listing.addresses a.decoder.listing) := by
  obtain ⟨-, rfl⟩ := eq_of_ofImage ha
  obtain ⟨j, hj, rfl⟩ := Listing.mem_addresses.mp hx
  obtain rfl := Decoder.eq_of_decode?_of_mem_listing hi hj hdec
  have hlaid := Decoder.laid_listing hi (Decoder.modeOf image)
  obtain ⟨hle, hnext⟩ := hlaid.exists_next (Listing.routines_ofList .. ▸ hf) hj hc
  exact ⟨hle, hnext.imp_right Listing.mem_addresses.mpr⟩

/-- A run that has to stay in a function walks to its end at most. -/
theorem Growth.exists_walk_inside (hi : image.Separated) (ha : Analysis.ofImage image h = .ok a)
    (hf : f ∈ a.routines.routines) (ho : o.outside = false)
    (hx : g.address ∈ Listing.addresses a.decoder.listing) (hc : f.contains g.address = true)
    (n : Nat) (d : Dialogue) :
    ∃ y ≤ f.stop, a.decoder.Walk g.address (appended a o origin (some f) n g d) y := by
  induction n generalizing g d with
  | zero => exact ⟨_, (Routine.contains_iff.mp hc).2.le, .nil _⟩
  | succ n ih =>
    rcases run_cases a o origin (some f) n g d with
      ⟨-, -, -, -, happended⟩ | ⟨i, g', d', hdec, haddress, -, ⟨-, -, -, happended⟩ | hmore⟩
    · rw [happended]
      exact ⟨_, (Routine.contains_iff.mp hc).2.le, .nil _⟩
    · rw [happended]
      exact ⟨_, (Analysis.exists_next_of_decode? hi ha hf hx hc hdec).1, .single hdec⟩
    · obtain ⟨hjudge, -, happended⟩ := hmore
      obtain ⟨-, hnext⟩ := Analysis.exists_next_of_decode? hi ha hf hx hc hdec
      -- The run only goes on if the function of the next address is the same one.
      have hinside : f.contains g'.address = true := by
        have hstay := (judge_eq_grown_iff.mp hjudge).2.2.2
        simp only [staysInside, ho, Option.isNone_some, Bool.or_self, Bool.false_or,
          beq_iff_eq] at hstay
        exact (Option.filter_eq_some_iff.mp hstay).2
      have hlisted : g'.address ∈ Listing.addresses a.decoder.listing := by
        rw [haddress]
        have hbefore := (Routine.contains_iff.mp hinside).2
        exact hnext.resolve_left (by omega)
      obtain ⟨y, hy, hwalk⟩ := ih hlisted hinside d'
      rw [haddress] at hwalk
      rw [happended]
      exact ⟨y, hy, .cons hdec hwalk⟩

namespace Analysis

/-- A search from an instruction of a function, which may not leave it, only appends bytes of the
function. Its signatures are no longer than what is left of the function. -/
theorem grow_inside (hi : image.Separated) (ha : ofImage image h = .ok a)
    (hf : f ∈ a.routines.routines) (hx : x ∈ Listing.addresses a.decoder.listing)
    (hc : f.contains x = true) (ho : o.outside = false) (d : Dialogue) :
    (∀ i ∈ a.appended o x d, x ≤ i.address ∧ i.next ≤ f.stop ∧
        (a.cells o.wildcards i).values = image.read i.address i.size) ∧
      (∀ s, (a.grow o x d).1 = .ok s →
        s = (a.cellsOf o.wildcards (a.appended o x d)).trim ∧ (s.length : Int) ≤ f.stop - x) ∧
      ∀ u, (a.grow o x d).1 = .error (.notUnique u) →
        u = a.cellsOf o.wildcards (a.appended o x d) ∧ (u.length : Int) ≤ f.stop - x := by
  have hb := builtIn_of_ofImage ha
  obtain rfl := image_of_ofImage ha
  obtain ⟨y, hy, hwalk⟩ : ∃ y ≤ f.stop, a.decoder.Walk x (a.appended o x d) y := by
    by_cases hstart : x ≠ Image.badAddress ∧ a.image.isCode x = true
    · rw [appended_eq hstart.1 hstart.2, containing?_of_contains ha hf hc]
      exact Growth.exists_walk_inside (g := .start x) hi ha hf ho hx hc _ d
    · rw [(grow_of_not_isCode o d hstart).1]
      exact ⟨x, (Routine.contains_iff.mp hc).2.le, .nil x⟩
  have hlength := length_cellsOf hb hi hwalk o.wildcards
  obtain ⟨-, hdelivered, hcarried⟩ := exists_walk_of_appended a o x d
  refine ⟨?_, ?_, ?_⟩
  · intro i hmem
    obtain ⟨z, hdec⟩ := hwalk.exists_of_mem hmem
    have hvalues := values_cells hb hi hdec o.wildcards
    obtain ⟨mode, hdecoder⟩ := hb.decoder
    rw [hdecoder] at hwalk
    obtain ⟨hle, hnext⟩ := (hwalk.contiguous hi).bounds hmem
    exact ⟨hle, hnext.trans hy, hvalues⟩
  · intro s hs
    obtain rfl := hdelivered s hs
    have htrim := (Signature.trim_prefix (a.cellsOf o.wildcards (a.appended o x d))).length_le
    exact ⟨rfl, by omega⟩
  · intro u hu
    obtain rfl := hcarried u hu
    exact ⟨rfl, by omega⟩

/-- A function that is called. Its first two bytes are unique together. -/
theorem grow_inside_called :
    let image :=
      Image.flat [0xE8, 2, 0, 0, 0, 0x50, 0xC3, 0x50, 0x50, 0xC3] 0x1000 true "metapc" 64
    let o : GrowthOptions := ⟨true, false, .bytes 1000, true⟩
    let f : Routine := ⟨0x1007, 0x100A, "sub_1007"⟩
    let s : Signature := [⟨0x50, false⟩, ⟨0x50, false⟩]
    ∃ a, image.Separated ∧ ofImage image ⟨true, true, true⟩ = .ok a ∧ f ∈ a.routines.routines ∧
      0x1007 ∈ Listing.addresses a.decoder.listing ∧ f.contains 0x1007 = true ∧
      o.outside = false ∧ (a.grow o 0x1007 .quiet).1 = .ok s ∧
      (∀ i ∈ a.appended o 0x1007 .quiet, 0x1007 ≤ i.address ∧ i.next ≤ f.stop ∧
        (a.cells true i).values = image.read i.address i.size) ∧
      s = (a.cellsOf true (a.appended o 0x1007 .quiet)).trim ∧ (s.length : Int) ≤ f.stop - 0x1007 := by
  intro image o f s
  have hi : image.Separated := Image.separated_flat (by decide) ..
  have ha : ofImage image ⟨true, true, true⟩ =
      .ok (ofDecoder image (.ofImage image .bits64) ⟨true, true, true⟩) := rfl
  have hf : f ∈ (ofDecoder image (.ofImage image .bits64) ⟨true, true, true⟩).routines.routines := by
    have : RoutineMap.routines (ofDecoder image (.ofImage image .bits64) ⟨true, true, true⟩).routines =
        [f] := by cbv
    simp [this]
  have hx : 0x1007 ∈ Listing.addresses
      (ofDecoder image (.ofImage image .bits64) ⟨true, true, true⟩).decoder.listing := by
    have : Listing.addresses (Decoder.ofImage image .bits64).listing =
        [0x1000, 0x1005, 0x1006, 0x1007, 0x1008, 0x1009] := by cbv
    simp [ofDecoder, this]
  have hs : ((ofDecoder image (.ofImage image .bits64) ⟨true, true, true⟩).grow o 0x1007
      .quiet).1 = .ok s := by cbv
  obtain ⟨happended, hdelivered, -⟩ := grow_inside hi ha hf hx rfl (o := o) rfl .quiet
  exact ⟨_, hi, ha, hf, hx, rfl, rfl, hs, happended, hdelivered s hs⟩

end Analysis

end CodeSignature
