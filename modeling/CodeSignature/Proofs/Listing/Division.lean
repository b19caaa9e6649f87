import CodeSignature.Proofs.Decoder.Sweep
import CodeSignature.Proofs.Listing.Extent
import CodeSignature.Proofs.Listing.Routine
import Mathlib

/-! # The division of code into functions

From the first start of a run on, the functions of a laid listing divide the run: each address lies in
exactly one of them, which is the one that is looked up. The sweeps of blocks of code that are in
order and apart are such a listing.
-/

namespace CodeSignature

/-- A block of code, and the mode in which it is swept. -/
structure Block where
  mode : Mode
  base : Int
  code : List UInt8

namespace Block

def stop (b : Block) : Int := b.base + b.code.length

def sweep (b : Block) : Listing := Encoding.sweep b.mode b.base b.code

theorem contiguous_sweep (b : Block) : Listing.Contiguous b.base b.sweep b.stop :=
  Listing.contiguous_sweep b.mode b.base b.code

end Block

namespace Listing

variable {l : Listing} {entry : Option Int} {labels : List (Int × String)}
  {heuristics : Heuristics} {f g : Routine} {r : Run} {x y : Int}

/-- The address lies in a run, at a function start in this run or after it. -/
def Reached (l : Listing) (fs : List Routine) (x : Int) : Prop :=
  ∃ r, l.IsRun r ∧ r.start ≤ x ∧ x < r.stop ∧ ∃ f ∈ fs, r.start ≤ f.start ∧ f.start ≤ x

theorem containing?_ofList_eq_some_iff :
    (RoutineMap.ofList (l.routines entry labels heuristics)).containing? x = some f ↔
      f ∈ l.routines entry labels heuristics ∧ f.contains x = true := by
  constructor
  · intro h
    obtain ⟨hlast, hc⟩ := Option.filter_eq_some_iff.mp h
    rw [routines_ofList] at hlast
    exact ⟨Sequence.mem_of_lastAtMost? hlast, hc⟩
  · rintro ⟨hf, hc⟩
    exact containing?_ofList hf hc

namespace Laid

/-- A function lies in a run and ends at the next start or, if none is left in the run, with the
run. -/
theorem exists_isRun_of_routine (h : Laid l) (hf : f ∈ l.routines entry labels heuristics) :
    ∃ r, l.IsRun r ∧ r.start ≤ f.start ∧ f.start < f.stop ∧ f.stop ≤ r.stop ∧
      ∀ y, f.stop ≤ y ↔
        r.stop ≤ y ∨ ∃ g ∈ l.routines entry labels heuristics, f.start < g.start ∧ g.start ≤ y := by
  obtain ⟨hstart, hlimit, hstop, hnext⟩ := of_mem_cut (pairwise_starts l entry heuristics) hf
  obtain ⟨i, hi, hfirst⟩ := exists_of_mem_starts hstart
  obtain ⟨r, hr, hbegin, hend, hr_limit⟩ := h.exists_isRun hi
  rw [hfirst] at hbegin hend hr_limit
  rw [hr_limit] at hlimit hstop
  refine ⟨r, hr, hbegin, ?_, hlimit, fun y => ⟨fun hy => ?_, ?_⟩⟩
  · rcases hstop with hstop | ⟨-, hlt⟩ <;> omega
  · rcases hstop with hstop | ⟨hstop, hlt⟩
    · exact Or.inl (by omega)
    · obtain ⟨g, hg, hgstart⟩ := exists_routine_start labels hstop
      exact Or.inr ⟨g, hg, by omega, by omega⟩
  · rintro (hy | ⟨g, hg, hlt, hy⟩)
    · omega
    · have := hnext g.start (mem_starts_of_mem_routines hg) hlt
      omega

/-- After a function start of its run each address lies in a function: the last one that starts no
later. -/
theorem exists_routine_of_reached (h : Laid l)
    (hx : l.Reached (l.routines entry labels heuristics) x) :
    ∃ f ∈ l.routines entry labels heuristics, f.contains x = true := by
  obtain ⟨r, hr, hbegin, hend, g, hg, hgr, hgx⟩ := hx
  obtain ⟨y, ⟨hy, hyx⟩, hlast⟩ := Int.exists_greatest_of_bdd
    (P := fun y => y ∈ l.starts entry heuristics ∧ y ≤ x) ⟨x, fun y hy => hy.2⟩
    ⟨g.start, mem_starts_of_mem_routines hg, hgx⟩
  obtain ⟨f, hf, rfl⟩ := exists_routine_start labels hy
  have hle := hlast g.start ⟨mem_starts_of_mem_routines hg, hgx⟩
  obtain ⟨s, hs, hsbegin, hlt, hsend, hstop⟩ := h.exists_isRun_of_routine hf
  obtain rfl := hr.eq_of_mem hs (x := f.start) ⟨by omega, by omega⟩ ⟨hsbegin, by omega⟩
  refine ⟨f, hf, Routine.contains_iff.mpr ⟨hyx, ?_⟩⟩
  by_contra hge
  rcases (hstop x).mp (by omega) with hover | ⟨f', hf', hafter, hf'x⟩
  · omega
  · have := hlast f'.start ⟨mem_starts_of_mem_routines hf', hf'x⟩
    omega

theorem reached_of_contains (h : Laid l) (hf : f ∈ l.routines entry labels heuristics)
    (hc : f.contains x = true) : l.Reached (l.routines entry labels heuristics) x := by
  obtain ⟨r, hr, hbegin, -, hend, -⟩ := h.exists_isRun_of_routine hf
  obtain ⟨hstart, hstop⟩ := Routine.contains_iff.mp hc
  exact ⟨r, hr, by omega, by omega, f, hf, hbegin, hstart⟩

end Laid

/-- The functions of swept blocks are in order and share no address. Each of them is not empty, begins
at an instruction and lies in one run. An address that is reached lies in exactly one function, which
is looked up for it, and for any other address none is found. -/
theorem routines_divide {blocks : List Block} (hblocks : blocks.Pairwise fun b c => b.stop ≤ c.base)
    (entry : Option Int) (labels : List (Int × String)) (heuristics : Heuristics) :
    let l : Listing := blocks.flatMap Block.sweep
    let fs := l.routines entry labels heuristics
    fs.Pairwise (fun f g => f.start < g.start ∧ f.stop ≤ g.start) ∧
      (∀ f ∈ fs, f.start < f.stop ∧ f.start ∈ l.addresses ∧
        ∃ r, l.IsRun r ∧ r.start ≤ f.start ∧ f.stop ≤ r.stop) ∧
      ∀ x,
        (l.Reached fs x → ∃ f ∈ fs, (RoutineMap.ofList fs).containing? x = some f ∧
          ∀ g ∈ fs, g.contains x = true ↔ g = f) ∧
        (¬ l.Reached fs x → (RoutineMap.ofList fs).containing? x = none) := by
  intro l fs
  have h : Laid l := Laid.flatMap Block.contiguous_sweep hblocks
  refine ⟨pairwise_cut (pairwise_starts l entry heuristics), ?_, fun x => ⟨?_, ?_⟩⟩
  · intro f hf
    obtain ⟨r, hr, hbegin, hlt, hend, -⟩ := h.exists_isRun_of_routine hf
    have hfirst := mem_addresses.mpr (exists_of_mem_starts (mem_starts_of_mem_routines hf))
    exact ⟨hlt, hfirst, r, hr, hbegin, hend⟩
  · intro hx
    obtain ⟨f, hf, hc⟩ := h.exists_routine_of_reached hx
    have hfound := containing?_ofList hf hc
    refine ⟨f, hf, hfound, fun g hg => ⟨fun hg' => ?_, ?_⟩⟩
    · exact Option.some.inj ((containing?_ofList hg hg').symm.trans hfound)
    · rintro rfl
      exact hc
  · intro hx
    refine Option.eq_none_iff_forall_ne_some.mpr fun f hfound => ?_
    obtain ⟨hf, hc⟩ := containing?_ofList_eq_some_iff.mp hfound
    exact hx (h.reached_of_contains hf hc)

/-- A function goes on into the next block, since there is no gap between them. Nothing is found
before the first start. -/
theorem routines_divide_adjacent :
    let blocks : List Block := [⟨.bits64, 0x1000, [0x90, 0x55, 0x48, 0x89, 0xE5]⟩,
      ⟨.bits64, 0x1005, [0xC3, 0x31, 0xC0]⟩, ⟨.bits32, 0x2000, [0x90]⟩]
    let l : Listing := blocks.flatMap Block.sweep
    let f : Routine := ⟨0x1001, 0x1006, "sub_1001"⟩
    let g : Routine := ⟨0x1006, 0x1008, "sub_1006"⟩
    blocks.Pairwise (fun b c => b.stop ≤ c.base) ∧
      l.routines none [] ⟨true, true, true⟩ = [f, g] ∧
      (∃ r, l.IsRun r ∧ r.start ≤ f.start ∧ f.stop ≤ r.stop) ∧
      (RoutineMap.ofList [f, g]).containing? 0x1005 = some f ∧
      (RoutineMap.ofList [f, g]).containing? 0x1000 = none := by
  intro blocks l f g
  have hblocks : blocks.Pairwise fun b c => b.stop ≤ c.base := by simp [blocks, Block.stop]
  have hfs : l.routines none [] ⟨true, true, true⟩ = [f, g] := by
    unfold l
    cbv
  obtain ⟨-, hinside, hlookup⟩ := routines_divide hblocks none [] ⟨true, true, true⟩
  rw [hfs] at hinside hlookup
  obtain ⟨-, -, r, hr, hstart, hstop⟩ := hinside f List.mem_cons_self
  have hreached : l.Reached [f, g] 0x1005 :=
    ⟨r, hr, Int.le_trans hstart (by decide), Int.lt_of_lt_of_le (by decide) hstop, f,
      List.mem_cons_self, hstart, by decide⟩
  have hunreached : ¬ l.Reached [f, g] 0x1000 := by
    rintro ⟨-, -, -, -, f', hf', -, hle⟩
    simp only [List.mem_cons, List.not_mem_nil, or_false] at hf'
    rcases hf' with rfl | rfl <;> exact absurd hle (by decide)
  obtain ⟨f', hf', hfound, hunique⟩ := (hlookup 0x1005).1 hreached
  obtain rfl : f = f' := (hunique f List.mem_cons_self).mp rfl
  exact ⟨hblocks, hfs, ⟨r, hr, hstart, hstop⟩, hfound, (hlookup 0x1000).2 hunreached⟩

end Listing

end CodeSignature
