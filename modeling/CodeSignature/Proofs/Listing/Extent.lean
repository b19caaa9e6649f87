import CodeSignature.Proofs.Listing.Run
import Mathlib.Data.List.Pairwise

/-! # The extent of runs

A run is a range of addresses inside instructions that cannot be made longer, so two runs that share
an address are the same. The runs of a listing that is laid are of this kind, and each instruction
lies in one.
-/

namespace CodeSignature

namespace Listing

/-- The address lies in an instruction of the listing. -/
def Spans (l : Listing) (x : Int) : Prop := ∃ i ∈ l, i.address ≤ x ∧ x < i.next

/-- All addresses of the run lie in instructions, and those right before and right after it do not. -/
structure IsRun (l : Listing) (r : Run) : Prop where
  start_lt_stop : r.start < r.stop
  spans : ∀ x, r.start ≤ x → x < r.stop → l.Spans x
  before : ¬ l.Spans (r.start - 1)
  after : ¬ l.Spans r.stop

variable {l p : Listing} {i : Instruction} {r s : Run} {rs : List Run} {x y z : Int}

namespace IsRun

theorem le_stop (hr : l.IsRun r) (hx : x < r.stop) (h : ∀ z, x ≤ z → z < y → l.Spans z) :
    y ≤ r.stop := by
  by_contra hlt
  exact hr.after (h r.stop (by omega) (by omega))

theorem start_le (hr : l.IsRun r) (hx : r.start ≤ x) (h : ∀ z, y ≤ z → z ≤ x → l.Spans z) :
    r.start ≤ y := by
  by_contra hlt
  exact hr.before (h (r.start - 1) (by omega) (by omega))

theorem eq_of_mem (hr : l.IsRun r) (hs : l.IsRun s) (hrx : r.start ≤ x ∧ x < r.stop)
    (hsx : s.start ≤ x ∧ x < s.stop) : r = s := by
  have hstart : r.start = s.start := by
    refine Int.le_antisymm ?_ ?_
    · exact hr.start_le hrx.1 fun z hz hzx => hs.spans z hz (by omega)
    · exact hs.start_le hsx.1 fun z hz hzx => hr.spans z hz (by omega)
  have hstop : r.stop = s.stop := by
    refine Int.le_antisymm ?_ ?_
    · exact hs.le_stop hsx.2 fun z hxz hz => hr.spans z (by omega) hz
    · exact hr.le_stop hrx.2 fun z hxz hz => hs.spans z (by omega) hz
  cases r
  cases s
  exact Run.mk.injEq .. ▸ ⟨hstart, hstop⟩

end IsRun

theorem Contiguous.exists_spanning (h : Contiguous x p y) (hx : x ≤ z) (hy : z < y) :
    ∃ i ∈ p, i.address ≤ z ∧ z < i.next := by
  induction h with
  | nil => omega
  | @cons x y i p haddress _ _ ih =>
    rcases Int.lt_or_le z i.next with hz | hz
    · exact ⟨i, List.mem_cons_self, by omega, hz⟩
    · obtain ⟨j, hj, hspan⟩ := ih hz hy
      exact ⟨j, List.mem_cons_of_mem _ hj, hspan⟩

namespace Parted

theorem exists_piece (h : Parted rs l) (hr : r ∈ rs) :
    ∃ p, p ≠ [] ∧ Contiguous r.start p r.stop ∧ ∀ i ∈ p, i ∈ l := by
  induction h with
  | nil => simp at hr
  | @cons s rs p l hne hp _ _ ih =>
    rcases List.mem_cons.mp hr with rfl | hr
    · exact ⟨p, hne, hp, fun i hi => List.mem_append_left _ hi⟩
    · obtain ⟨q, hq, hcontiguous, hmem⟩ := ih hr
      exact ⟨q, hq, hcontiguous, fun i hi => List.mem_append_right _ (hmem i hi)⟩

theorem eq_or_gap (h : Parted rs l) (hl : Laid l) (hr : r ∈ rs) (hs : s ∈ rs) :
    r = s ∨ r.stop < s.start ∨ s.stop < r.start := by
  by_cases heq : r = s
  · exact Or.inl heq
  · have : Std.Symm fun r s : Run => r.stop < s.start ∨ s.stop < r.start := ⟨fun _ _ => Or.symm⟩
    have hgaps : rs.Pairwise fun r s => r.stop < s.start ∨ s.stop < r.start :=
      (h.pairwise hl).imp fun hrs => Or.inl hrs.2
    exact Or.inr (hgaps.forall hr hs heq)

theorem isRun (h : Parted rs l) (hl : Laid l) (hr : r ∈ rs) : l.IsRun r := by
  obtain ⟨p, hne, hp, hmem⟩ := h.exists_piece hr
  obtain ⟨first, hfirst, haddress⟩ := hp.exists_first hne
  have hsize := hl.size_pos first (hmem first hfirst)
  have hle := (hp.bounds hfirst).2
  unfold Instruction.next at hle
  constructor
  · omega
  · intro x hx hy
    obtain ⟨i, hi, hspan⟩ := hp.exists_spanning hx hy
    exact ⟨i, hmem i hi, hspan⟩
  -- An instruction next to the run would lie in another run without a gap between them.
  · rintro ⟨i, hi, hbegin, hend⟩
    obtain ⟨s, hs, hstart, hstop⟩ := h.exists_run hi
    rcases h.eq_or_gap hl hr hs with rfl | hgap | hgap <;> omega
  · rintro ⟨i, hi, hbegin, hend⟩
    obtain ⟨s, hs, hstart, hstop⟩ := h.exists_run hi
    rcases h.eq_or_gap hl hr hs with rfl | hgap | hgap <;> omega

end Parted

/-- An instruction lies in a run that ends at the limit of its address. -/
theorem Laid.exists_isRun (h : Laid l) (hi : i ∈ l) :
    ∃ r, l.IsRun r ∧ r.start ≤ i.address ∧ i.address < r.stop ∧
      limitIn l.orderedRuns i.address = r.stop := by
  obtain ⟨r, hr, hstart, hstop, hlimit⟩ := h.exists_run hi
  have hsize := h.size_pos i hi
  unfold Instruction.next at hstop
  exact ⟨r, h.parted.isRun h hr, hstart, by omega, hlimit⟩

end Listing

end CodeSignature
