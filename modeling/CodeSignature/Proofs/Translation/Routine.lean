import CodeSignature.Listing.Routine
import CodeSignature.Proofs.Translation.Start

/-! # Functions of a moved listing

The starts, the runs and the functions of a moved listing are the moved ones, where a function takes
its name from its new address. The entry point 0 means none, so no entry point may move there.
-/

namespace CodeSignature

/-- The function at another base, named by its address. -/
def Routine.moved (δ : Int) (r : Routine) : Routine :=
  ⟨r.start + δ, r.stop + δ, Listing.defaultName (r.start + δ)⟩

def Run.moved (δ : Int) (r : Run) : Run := ⟨r.start + δ, r.stop + δ⟩

def RoutineMap.moved (δ : Int) (m : RoutineMap) : RoutineMap := ⟨m.routines.map (·.moved δ)⟩

namespace Listing

variable {δ : Int} {l l' : Listing}

theorem entryStarts_eq_toList {entry : Option Int} (h : entry ≠ some 0) :
    entryStarts entry = entry.toList := by
  cases entry with
  | none => rfl
  | some a =>
    have ha : a ≠ 0 := fun he => h (congrArg some he)
    simp [entryStarts, ha]

section Moved

variable (h : List.Forall₂ (Instruction.Moved δ) l l')
include h

theorem heuristicStarts_moved (heuristics : Heuristics) :
    heuristicStarts l' heuristics = (heuristicStarts l heuristics).map (· + δ) := by
  have hnil : ∀ (b : Bool) (xs : List Int),
      (if b then xs.map (· + δ) else []) = (if b then xs else []).map (· + δ) := by
    intro b xs
    cases b <;> rfl
  have hprologues : prologues l' = (prologues l).map (· + δ) := prologuesApart_moved h []
  have hpadding : afterPadding l' = (afterPadding l).map (· + δ) := afterPaddingRun_moved h 0 false
  simp only [heuristicStarts, hprologues, afterSeparators_moved h, hpadding, jumpTargets_moved h,
    hnil, ← List.map_append]
  rw [List.filter_map]
  congr 2
  funext a
  exact congrArg _ (Sequence.contains_map_add δ a _)

theorem starts_moved {entry : Option Int} (he : entry ≠ some 0)
    (he' : entry.map (· + δ) ≠ some 0) (heuristics : Heuristics) :
    starts l' (entry.map (· + δ)) heuristics = (starts l entry heuristics).map (· + δ) := by
  have hentry : (entry.map (· + δ)).toList = entry.toList.map (· + δ) := by cases entry <;> rfl
  simp only [starts, entryStarts_eq_toList he, entryStarts_eq_toList he', hentry,
    callTargets_moved h, heuristicStarts_moved h, addresses_moved h, ← List.map_append,
    Sequence.filter_contains_map_add, Sequence.ascending_map_add]

theorem runsFrom_moved (start : Int) {i i' : Instruction} (hi : i.Moved δ i') :
    runsFrom (start + δ) i' l' = (runsFrom start i l).map (·.moved δ) := by
  induction h generalizing start i i' with
  | nil => simp [runsFrom, hi.next, Run.moved]
  | cons hj _ ih =>
    have heq : ∀ a b : Int, a + δ = b + δ ↔ a = b := fun a b => by omega
    simp only [runsFrom, hi.next, hj.address, heq, ih _ hj]
    split <;> rfl

theorem runs_moved : runs l' = (runs l).map (·.moved δ) := by
  cases h with
  | nil => rfl
  | cons hi hl =>
    simp only [runs, hi.address]
    exact runsFrom_moved hl _ hi

theorem orderedRuns_moved : orderedRuns l' = (orderedRuns l).map (·.moved δ) := by
  rw [orderedRuns, runs_moved h, orderedRuns]
  refine (List.map_mergeSort fun r _ t _ => ?_).symm
  simp [startsBefore, Run.moved]

end Moved

theorem limitIn_moved {ordered : List Run} (hne : ordered ≠ []) (δ a : Int) :
    limitIn (ordered.map (·.moved δ)) (a + δ) = limitIn ordered a + δ := by
  have hstart : ∀ r : Run, (r.moved δ).start = r.start + δ := fun _ => rfl
  rw [limitIn, Sequence.lastAtMost?_map hstart, limitIn]
  cases Sequence.lastAtMost? (·.start) a ordered with
  | some run => rfl
  | none =>
    have hlast := List.getLast?_eq_some_getLast hne
    simp [List.getLast?_map, hlast, Run.moved]

theorem runsFrom_ne_nil (start : Int) (i : Instruction) (l : Listing) :
    runsFrom start i l ≠ [] := by
  induction l generalizing start i with
  | nil => simp [runsFrom]
  | cons j l ih =>
    simp only [runsFrom]
    split
    · exact ih _ _
    · simp

theorem orderedRuns_ne_nil (h : l ≠ []) : orderedRuns l ≠ [] := by
  cases l with
  | nil => exact absurd rfl h
  | cons i l =>
    rw [orderedRuns, ← List.length_pos_iff, List.length_mergeSort, List.length_pos_iff]
    exact runsFrom_ne_nil _ _ _

theorem cut_moved {limit limit' : Int → Int} (hlimit : ∀ a, limit' (a + δ) = limit a + δ)
    (starts : List Int) :
    cut (nameOf []) limit' (starts.map (· + δ)) =
      (cut (nameOf []) limit starts).map (·.moved δ) := by
  induction starts with
  | nil => rfl
  | cons a rest ih =>
    cases rest with
    | nil => simp [cut, hlimit, nameOf, Routine.moved]
    | cons b rest =>
      have hmin : min (b + δ) (limit a + δ) = min b (limit a) + δ := by omega
      simp only [List.map_cons] at ih
      simp only [List.map_cons, cut, hlimit, hmin, ih]
      rfl

/-- The functions of a moved listing are the moved functions. -/
theorem routines_moved (h : List.Forall₂ (Instruction.Moved δ) l l') {entry : Option Int}
    (he : entry ≠ some 0) (he' : entry.map (· + δ) ≠ some 0) (heuristics : Heuristics) :
    routines l' (entry.map (· + δ)) [] heuristics =
      (routines l entry [] heuristics).map (·.moved δ) := by
  rw [routines, starts_moved h he he', orderedRuns_moved h, routines]
  by_cases hl : l = []
  · -- Without code there is no start, so it does not matter which limit stands for none.
    have hnil : starts l entry heuristics = [] := by
      rw [List.eq_nil_iff_forall_not_mem]
      intro a ha
      simp [starts, Sequence.mem_ascending, hl, addresses] at ha
    rw [hnil]
    rfl
  · exact cut_moved (limitIn_moved (orderedRuns_ne_nil hl) δ) _

theorem name_of_mem_cut {limit : Int → Int} {starts : List Int} {r : Routine}
    (hr : r ∈ cut (nameOf []) limit starts) : r.name = defaultName r.start := by
  induction starts with
  | nil => simp [cut] at hr
  | cons a rest ih =>
    cases rest with
    | nil =>
      obtain rfl : r = _ := by simpa [cut] using hr
      rfl
    | cons b rest =>
      simp only [cut, List.mem_cons] at hr
      rcases hr with rfl | hr
      · rfl
      · exact ih hr

end Listing

namespace RoutineMap

variable {m : RoutineMap} {r : Routine}

theorem ofList_moved (δ : Int) (routines : List Routine) :
    ofList (routines.map (·.moved δ)) = (ofList routines).moved δ := by
  simp only [ofList, moved, mk.injEq]
  refine (List.map_mergeSort fun r _ t _ => ?_).symm
  simp [startsBefore, Routine.moved]

theorem containing?_moved (δ : Int) (m : RoutineMap) (x : Int) :
    (m.moved δ).containing? (x + δ) = (m.containing? x).map (·.moved δ) := by
  have hstart : ∀ r : Routine, (r.moved δ).start = r.start + δ := fun _ => rfl
  rw [containing?, moved, Sequence.lastAtMost?_map hstart, Option.filter_map, containing?]
  congr 2
  funext r
  simp [Routine.contains, Routine.moved]

def Unlabelled (m : RoutineMap) : Prop :=
  ∀ r ∈ m.routines, r.name = Listing.defaultName r.start

theorem mem_of_containing? {x : Int} (h : m.containing? x = some r) : r ∈ m.routines :=
  Sequence.mem_of_lastAtMost? (Option.filter_eq_some_iff.mp h).1

theorem unlabelled_ofList_routines (l : Listing) (entry : Option Int) (h : Heuristics) :
    (ofList (Listing.routines l entry [] h)).Unlabelled := by
  intro r hr
  exact Listing.name_of_mem_cut (List.mem_mergeSort.mp hr)

theorem Unlabelled.containing?_beq_moved (hm : m.Unlabelled) (δ x y : Int) :
    ((m.moved δ).containing? (y + δ) == (m.moved δ).containing? (x + δ)) =
      (m.containing? y == m.containing? x) := by
  rw [containing?_moved, containing?_moved, Bool.eq_iff_iff, beq_iff_eq, beq_iff_eq]
  refine ⟨fun h => ?_, fun h => by rw [h]⟩
  cases hy : m.containing? y <;> cases hx : m.containing? x <;> rw [hy, hx] at h
  case none.some => cases h
  case some.none => cases h
  case some.some r r' =>
    simp only [Option.map_some, Option.some.injEq, Routine.moved, Routine.mk.injEq] at h
    have hname := hm r (mem_of_containing? hy)
    have hname' := hm r' (mem_of_containing? hx)
    have hstart : r.start = r'.start := by omega
    have hstop : r.stop = r'.stop := by omega
    have hnames : r.name = r'.name := by rw [hname, hname', hstart]
    rw [Option.some.injEq, Routine.mk.injEq]
    exact ⟨hstart, hstop, hnames⟩

end RoutineMap

end CodeSignature
