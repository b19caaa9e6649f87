import CodeSignature.Proofs.Listing.Run

/-! # Functions of a listing

The functions begin at instructions, are in order and do not overlap, so the one that contains an
address is found. In a listing that is laid, a function ends where an instruction ends, and from an
instruction inside it the next address is that of another instruction or the end of the function.
-/

namespace CodeSignature

theorem Routine.contains_iff {r : Routine} {x : Int} :
    r.contains x = true ↔ r.start ≤ x ∧ x < r.stop := by
  simp [Routine.contains]

namespace Listing

variable {l : Listing} {i : Instruction} {entry : Option Int} {labels : List (Int × String)}
  {heuristics : Heuristics} {name : Int → String} {limit : Int → Int} {starts : List Int}
  {r : Routine} {x : Int}

theorem mem_addresses : x ∈ l.addresses ↔ ∃ i ∈ l, i.address = x := List.mem_map

theorem exists_of_mem_starts (h : x ∈ l.starts entry heuristics) : ∃ i ∈ l, i.address = x := by
  simp only [Listing.starts, Sequence.mem_ascending, List.mem_filter, List.contains_iff_mem] at h
  exact mem_addresses.mp h.2

theorem pairwise_starts (l : Listing) (entry : Option Int) (heuristics : Heuristics) :
    (l.starts entry heuristics).Pairwise (· < ·) :=
  Sequence.pairwise_ascending _

/-- A function is cut at its limit or at a later start, and no later start lies inside it. -/
theorem of_mem_cut (hs : starts.Pairwise (· < ·)) (hr : r ∈ cut name limit starts) :
    r.start ∈ starts ∧ r.stop ≤ limit r.start ∧
      (r.stop = limit r.start ∨ r.stop ∈ starts ∧ r.start < r.stop) ∧
        ∀ x ∈ starts, r.start < x → r.stop ≤ x := by
  induction starts with
  | nil => simp [cut] at hr
  | cons a rest ih =>
    obtain ⟨ha, hrest⟩ := List.pairwise_cons.mp hs
    cases rest with
    | nil =>
      obtain rfl : r = ⟨a, limit a, name a⟩ := List.mem_singleton.mp hr
      simp
    | cons b rest =>
      rw [cut] at hr
      rcases List.mem_cons.mp hr with rfl | hr
      · refine ⟨List.mem_cons_self, Int.min_le_right _ _, ?_, ?_⟩
        · rcases Int.le_total b (limit a) with hle | hle
          · right
            have hlt := ha b List.mem_cons_self
            simp [Int.min_eq_left hle, hlt]
          · left
            exact Int.min_eq_right hle
        · intro x hx hlt
          dsimp only at hlt ⊢
          rcases List.mem_cons.mp hx with rfl | hx
          · omega
          · rcases List.mem_cons.mp hx with rfl | hx
            · exact Int.min_le_left _ _
            · have := (List.pairwise_cons.mp hrest).1 x hx
              omega
      · obtain ⟨hstart, hlimit, hstop, hnext⟩ := ih hrest hr
        refine ⟨List.mem_cons_of_mem _ hstart, hlimit,
          hstop.imp_right fun h => ⟨List.mem_cons_of_mem _ h.1, h.2⟩, ?_⟩
        intro x hx hlt
        rcases List.mem_cons.mp hx with rfl | hx
        · have := ha _ hstart
          omega
        · exact hnext x hx hlt

theorem map_start_cut (name : Int → String) (limit : Int → Int) (starts : List Int) :
    (cut name limit starts).map (·.start) = starts := by
  induction starts with
  | nil => rfl
  | cons a rest ih =>
    cases rest with
    | nil => rfl
    | cons b rest => rw [cut, List.map_cons, ih]

theorem pairwise_cut (hs : starts.Pairwise (· < ·)) :
    (cut name limit starts).Pairwise fun r r' => r.start < r'.start ∧ r.stop ≤ r'.start := by
  have hstarts : (cut name limit starts).Pairwise fun r r' => r.start < r'.start := by
    rw [← List.pairwise_map, map_start_cut]
    exact hs
  refine hstarts.imp_of_mem ?_
  intro r r' hr hr' hlt
  exact ⟨hlt, (of_mem_cut hs hr).2.2.2 _ (of_mem_cut hs hr').1 hlt⟩

theorem exists_routine_start (labels : List (Int × String)) (h : x ∈ l.starts entry heuristics) :
    ∃ r ∈ l.routines entry labels heuristics, r.start = x := by
  rw [← map_start_cut (nameOf labels) (limitIn l.orderedRuns) (l.starts entry heuristics)] at h
  exact List.mem_map.mp h

theorem mem_starts_of_mem_routines (hr : r ∈ l.routines entry labels heuristics) :
    r.start ∈ l.starts entry heuristics :=
  (of_mem_cut (pairwise_starts l entry heuristics) hr).1

theorem routines_ofList (l : Listing) (entry : Option Int) (labels : List (Int × String))
    (heuristics : Heuristics) :
    (RoutineMap.ofList (l.routines entry labels heuristics)).routines =
      l.routines entry labels heuristics := by
  refine List.mergeSort_of_pairwise ((pairwise_cut (pairwise_starts l entry heuristics)).imp ?_)
  rintro r r' ⟨hstart, -⟩
  exact decide_eq_true (Int.le_of_lt hstart)

theorem containing?_ofList (hr : r ∈ l.routines entry labels heuristics)
    (hc : r.contains x = true) :
    (RoutineMap.ofList (l.routines entry labels heuristics)).containing? x = some r := by
  obtain ⟨hstart, hstop⟩ := Routine.contains_iff.mp hc
  rw [RoutineMap.containing?, routines_ofList]
  refine Option.filter_eq_some_iff.mpr ⟨?_, hc⟩
  exact Sequence.lastAtMost?_of_between (pairwise_cut (pairwise_starts l entry heuristics)) hr
    hstart hstop

theorem Laid.exists_next (h : Laid l) (hr : r ∈ l.routines entry labels heuristics) (hi : i ∈ l)
    (hc : r.contains i.address = true) :
    i.next ≤ r.stop ∧ (i.next = r.stop ∨ ∃ j ∈ l, j.address = i.next) := by
  obtain ⟨hstart, hlimit, hstop, -⟩ := of_mem_cut (pairwise_starts l entry heuristics) hr
  obtain ⟨k, hk, hfirst⟩ := exists_of_mem_starts hstart
  obtain ⟨run, hrun, hbegin, -, hend⟩ := h.exists_run hk
  rw [hfirst] at hbegin hend
  rw [hend] at hlimit hstop
  have hx := Routine.contains_iff.mp hc
  obtain ⟨hle, hnext⟩ := h.parted.exists_next h hrun hi ⟨by omega, by omega⟩
  rcases hstop with hstop | ⟨hstop, -⟩
  · rw [hstop]
    exact ⟨hle, hnext⟩
  · obtain ⟨j, hj, hcut⟩ := exists_of_mem_starts hstop
    have hbefore := h.next_le hi hj (by omega)
    refine ⟨by omega, ?_⟩
    rcases hnext with hlast | hmore
    · exact Or.inl (by omega)
    · exact Or.inr hmore

end Listing

end CodeSignature
