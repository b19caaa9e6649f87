import CodeSignature.Proofs.Listing.Division
import CodeSignature.Proofs.Listing.Start
import Mathlib

/-! # More heuristics refine the division

With more heuristics more functions start, and none of the old starts is lost. So the functions only
become shorter, and together they cover more.
-/

namespace CodeSignature

/-- All heuristics of the first choice are in the second. -/
structure Heuristics.Within (few more : Heuristics) : Prop where
  prologues : few.prologues = true → more.prologues = true
  separators : few.separators = true → more.separators = true
  padding : few.padding = true → more.padding = true

namespace Listing

variable {l : Listing} {entry : Option Int} {labels : List (Int × String)} {few more : Heuristics}
  {f g : Routine} {x : Int}

theorem Suggested.mono (h : few.Within more) (hx : l.Suggested few x) : l.Suggested more x := by
  cases hx with
  | prologue hchosen hx => exact .prologue (h.prologues hchosen) hx
  | separator hchosen hx => exact .separator (h.separators hchosen) hx
  | padding hchosen hx => exact .padding (h.padding hchosen) hx

theorem mem_starts_mono (h : few.Within more) (hx : x ∈ l.starts entry few) :
    x ∈ l.starts entry more := by
  rw [mem_starts_iff] at hx ⊢
  obtain ⟨hx, hstart⟩ := hx
  refine ⟨hx, ?_⟩
  rcases hstart with hentered | hcalled | ⟨hsuggested, hnot⟩
  · exact Or.inl hentered
  · exact Or.inr (Or.inl hcalled)
  · exact Or.inr (Or.inr ⟨hsuggested.mono h, hnot⟩)

theorem exists_routine_start_mono (h : few.Within more) (hf : f ∈ l.routines entry labels few) :
    ∃ g ∈ l.routines entry labels more, g.start = f.start :=
  exists_routine_start labels (mem_starts_mono h (mem_starts_of_mem_routines hf))

namespace Laid

theorem reached_mono (h : few.Within more) (hx : l.Reached (l.routines entry labels few) x) :
    l.Reached (l.routines entry labels more) x := by
  obtain ⟨r, hr, hbegin, hend, f, hf, hrf, hfx⟩ := hx
  obtain ⟨g, hg, hstart⟩ := exists_routine_start_mono h hf
  exact ⟨r, hr, hbegin, hend, g, hg, by omega, by omega⟩

theorem routine_within (hl : Laid l) (h : few.Within more) (hf : f ∈ l.routines entry labels few)
    (hg : g ∈ l.routines entry labels more) (hfx : f.contains x = true) (hgx : g.contains x = true) :
    f.start ≤ g.start ∧ g.stop ≤ f.stop := by
  obtain ⟨hfstart, hfstop⟩ := Routine.contains_iff.mp hfx
  obtain ⟨hgstart, hgstop⟩ := Routine.contains_iff.mp hgx
  -- The old starts are among the new ones, so none of them lies inside a new function.
  have hinside : ∀ y ∈ l.starts entry few, g.start < y → g.stop ≤ y := fun y hy =>
    (of_mem_cut (pairwise_starts l entry more) hg).2.2.2 y (mem_starts_mono h hy)
  constructor
  · by_contra hlt
    have := hinside f.start (mem_starts_of_mem_routines hf) (by omega)
    omega
  · obtain ⟨r, hr, hrf, -, hfr, hstop⟩ := hl.exists_isRun_of_routine hf
    obtain ⟨s, hs, hsg, -, hgs, -⟩ := hl.exists_isRun_of_routine hg
    obtain rfl := hr.eq_of_mem hs (x := x) ⟨by omega, by omega⟩ ⟨by omega, by omega⟩
    rcases (hstop f.stop).mp (Int.le_refl _) with hend | ⟨f', hf', hafter, hle⟩
    · omega
    · have hnext := (hstop f'.start).mpr (Or.inr ⟨f', hf', hafter, Int.le_refl _⟩)
      have := hinside f'.start (mem_starts_of_mem_routines hf') (by omega)
      omega

end Laid

/-- More heuristics keep the function starts and the addresses that lie in functions. The function that
is looked up for such an address lies inside the one that was looked up with fewer heuristics. -/
theorem routines_refine {blocks : List Block} (hblocks : blocks.Pairwise fun b c => b.stop ≤ c.base)
    (entry : Option Int) (labels : List (Int × String)) (h : few.Within more) :
    let l : Listing := blocks.flatMap Block.sweep
    let fs := l.routines entry labels few
    let gs := l.routines entry labels more
    (∀ f ∈ fs, ∃ g ∈ gs, g.start = f.start) ∧
      ∀ x, ∀ f ∈ fs, f.contains x = true →
        (RoutineMap.ofList fs).containing? x = some f ∧
          ∃ g ∈ gs, g.contains x = true ∧ (RoutineMap.ofList gs).containing? x = some g ∧
            f.start ≤ g.start ∧ g.stop ≤ f.stop := by
  intro l fs gs
  have hl : Laid l := Laid.flatMap Block.contiguous_sweep hblocks
  refine ⟨fun f hf => exists_routine_start_mono h hf, fun x f hf hc => ?_⟩
  have hreached := Laid.reached_mono h (hl.reached_of_contains hf hc)
  obtain ⟨g, hg, hgc⟩ := hl.exists_routine_of_reached hreached
  exact ⟨containing?_ofList hf hc, g, hg, hgc, containing?_ofList hg hgc,
    hl.routine_within h hf hg hc hgc⟩

/-- Padding, which separators alone do not see, divides a function that goes on into a second block. -/
theorem routines_refine_padding :
    let blocks : List Block := [⟨.bits64, 0x1000, [0x55, 0x48, 0x89, 0xE5, 0xC3, 0x31, 0xC0]⟩,
      ⟨.bits64, 0x1007, [0x90, 0x90, 0x31, 0xC0]⟩]
    let l : Listing := blocks.flatMap Block.sweep
    let f : Routine := ⟨0x1005, 0x100B, "sub_1005"⟩
    let g : Routine := ⟨0x1009, 0x100B, "sub_1009"⟩
    let few : Heuristics := ⟨false, true, false⟩
    let more : Heuristics := ⟨true, true, true⟩
    blocks.Pairwise (fun b c => b.stop ≤ c.base) ∧ few.Within more ∧
      l.routines (some 0x1000) [] few = [⟨0x1000, 0x1005, "sub_1000"⟩, f] ∧
      l.routines (some 0x1000) [] more =
        [⟨0x1000, 0x1005, "sub_1000"⟩, ⟨0x1005, 0x1009, "sub_1005"⟩, g] ∧
      f.contains 0x100A = true ∧
      (RoutineMap.ofList (l.routines (some 0x1000) [] few)).containing? 0x100A = some f ∧
      (RoutineMap.ofList (l.routines (some 0x1000) [] more)).containing? 0x100A = some g ∧
      f.start ≤ g.start ∧ g.stop ≤ f.stop := by
  intro blocks l f g few more
  have hblocks : blocks.Pairwise fun b c => b.stop ≤ c.base := by simp [blocks, Block.stop]
  have h : few.Within more := ⟨fun _ => rfl, fun _ => rfl, fun _ => rfl⟩
  have hfs : l.routines (some 0x1000) [] few = [⟨0x1000, 0x1005, "sub_1000"⟩, f] := by
    unfold l
    cbv
  have hgs : l.routines (some 0x1000) [] more =
      [⟨0x1000, 0x1005, "sub_1000"⟩, ⟨0x1005, 0x1009, "sub_1005"⟩, g] := by
    unfold l
    cbv
  have hf : f ∈ l.routines (some 0x1000) [] few := by simp [hfs]
  have hc : f.contains 0x100A = true := by decide
  obtain ⟨hfound, g', hg', hgc, hfound', hinside⟩ :=
    (routines_refine hblocks (some 0x1000) [] h).2 0x100A f hf hc
  obtain rfl : g' = g := by
    rw [hgs] at hg'
    simp only [List.mem_cons, List.not_mem_nil, or_false] at hg'
    rcases hg' with rfl | rfl | rfl
    · exact absurd hgc (by decide)
    · exact absurd hgc (by decide)
    · rfl
  exact ⟨hblocks, h, hfs, hgs, hc, hfound, hfound', hinside⟩

end Listing

end CodeSignature
