import CodeSignature.Listing.Routine
import CodeSignature.Proofs.Sequence
import Mathlib.Data.List.Basic
import Mathlib.Algebra.Order.Ring.Int

/-! # Runs of a listing

The runs part a listing into pieces without gaps. If no instruction begins before the one in front of
it has ended, then the runs are apart and in order, and from an instruction of a run the next address
is that of another instruction or the end of the run.
-/

namespace CodeSignature

namespace Listing

/-- Instructions that are not empty and follow one another without a gap, from an address up to the
end of the last one. -/
inductive Contiguous : Int → Listing → Int → Prop where
  | nil (x : Int) : Contiguous x [] x
  | cons {x y : Int} {i : Instruction} {is : Listing} :
      i.address = x → 0 < i.size → Contiguous i.next is y → Contiguous x (i :: is) y

/-- Instructions that are not empty, each of which has ended where the later ones begin. -/
structure Laid (l : Listing) : Prop where
  size_pos : ∀ i ∈ l, 0 < i.size
  ordered : l.Pairwise fun i j => i.next ≤ j.address

/-- Runs that a listing consists of, each as long as it can be. -/
inductive Parted : List Run → Listing → Prop where
  | nil : Parted [] []
  | cons {r : Run} {rs : List Run} {p l : Listing} :
      p ≠ [] → Contiguous r.start p r.stop → (∀ j ∈ l.head?, j.address ≠ r.stop) →
        Parted rs l → Parted (r :: rs) (p ++ l)

variable {l p q : Listing} {i j : Instruction} {r s : Run} {rs : List Run} {x y z : Int}

namespace Contiguous

theorem append (h : Contiguous x p y) (h' : Contiguous y q z) : Contiguous x (p ++ q) z := by
  induction h with
  | nil => exact h'
  | cons haddress hsize _ ih => exact .cons haddress hsize (ih h')

theorem le (h : Contiguous x p y) : x ≤ y := by
  induction h with
  | nil => exact Int.le_refl _
  | cons haddress hsize _ ih =>
    unfold Instruction.next at ih
    omega

theorem bounds (h : Contiguous x p y) (hi : i ∈ p) : x ≤ i.address ∧ i.next ≤ y := by
  induction h with
  | nil => simp at hi
  | @cons x y j p haddress hsize hp ih =>
    have hle := hp.le
    rcases List.mem_cons.mp hi with rfl | hi
    · exact ⟨haddress.ge, hle⟩
    · obtain ⟨hx, hy⟩ := ih hi
      unfold Instruction.next at hx
      exact ⟨by omega, hy⟩

theorem laid (h : Contiguous x p y) : Laid p := by
  induction h with
  | nil => exact ⟨nofun, List.Pairwise.nil⟩
  | cons haddress hsize hp ih =>
    constructor
    · exact List.forall_mem_cons.mpr ⟨hsize, ih.size_pos⟩
    · exact List.pairwise_cons.mpr ⟨fun j hj => (hp.bounds hj).1, ih.ordered⟩

theorem exists_first (h : Contiguous x p y) (hne : p ≠ []) : ∃ i ∈ p, i.address = x := by
  cases h with
  | nil => exact absurd rfl hne
  | cons haddress _ _ => exact ⟨_, List.mem_cons_self, haddress⟩

theorem exists_last (h : Contiguous x p y) (hne : p ≠ []) : ∃ i ∈ p, i.next = y := by
  induction h with
  | nil => exact absurd rfl hne
  | @cons x y i p haddress hsize hp ih =>
    cases p with
    | nil =>
      cases hp
      exact ⟨i, List.mem_cons_self, rfl⟩
    | cons j p =>
      obtain ⟨k, hk, hnext⟩ := ih (List.cons_ne_nil _ _)
      exact ⟨k, List.mem_cons_of_mem _ hk, hnext⟩

theorem exists_next (h : Contiguous x p y) (hi : i ∈ p) :
    i.next = y ∨ ∃ j ∈ p, j.address = i.next := by
  induction h with
  | nil => simp at hi
  | @cons x y k p haddress hsize hp ih =>
    rcases List.mem_cons.mp hi with rfl | hi
    · by_cases hnil : p = []
      · subst hnil
        cases hp
        exact Or.inl rfl
      · obtain ⟨j, hj, hnext⟩ := hp.exists_first hnil
        exact Or.inr ⟨j, List.mem_cons_of_mem _ hj, hnext⟩
    · rcases ih hi with hlast | ⟨j, hj, hnext⟩
      · exact Or.inl hlast
      · exact Or.inr ⟨j, List.mem_cons_of_mem _ hj, hnext⟩

end Contiguous

namespace Laid

theorem of_append (h : Laid (p ++ l)) :
    Laid p ∧ Laid l ∧ ∀ i ∈ p, ∀ j ∈ l, i.next ≤ j.address := by
  obtain ⟨hp, hl, hbetween⟩ := List.pairwise_append.mp h.ordered
  exact ⟨⟨fun i hi => h.size_pos i (List.mem_append_left _ hi), hp⟩,
    ⟨fun i hi => h.size_pos i (List.mem_append_right _ hi), hl⟩, hbetween⟩

theorem head_le (h : Laid (j :: l)) (hi : i ∈ j :: l) : j.address ≤ i.address := by
  rcases List.mem_cons.mp hi with rfl | hi
  · exact Int.le_refl _
  · have hsize := h.size_pos j List.mem_cons_self
    have hle := (List.pairwise_cons.mp h.ordered).1 i hi
    unfold Instruction.next at hle
    omega

theorem next_le (h : Laid l) (hi : i ∈ l) (hj : j ∈ l) (hlt : i.address < j.address) :
    i.next ≤ j.address := by
  obtain ⟨front, back, rfl⟩ := List.append_of_mem hi
  have hsize := h.size_pos j hj
  obtain ⟨-, -, hfront⟩ := List.pairwise_append.mp h.ordered
  obtain ⟨hback, -⟩ := List.pairwise_cons.mp (List.pairwise_append.mp h.ordered).2.1
  rcases List.mem_append.mp hj with hj | hj
  · have hle := hfront j hj i List.mem_cons_self
    unfold Instruction.next at hle
    omega
  · rcases List.mem_cons.mp hj with rfl | hj
    · omega
    · exact hback j hj

theorem flatMap {α : Type} {xs : List α} {start stop : α → Int} {piece : α → Listing}
    (hpiece : ∀ a, Contiguous (start a) (piece a) (stop a))
    (h : xs.Pairwise fun a b => stop a ≤ start b) : Laid (xs.flatMap piece) := by
  constructor
  · intro i hi
    obtain ⟨a, -, hi⟩ := List.mem_flatMap.mp hi
    exact (hpiece a).laid.size_pos i hi
  · refine List.pairwise_flatMap.mpr ⟨fun a _ => (hpiece a).laid.ordered, h.imp ?_⟩
    intro a b hab i hi j hj
    have hstop := ((hpiece a).bounds hi).2
    have hstart := ((hpiece b).bounds hj).1
    omega

end Laid

theorem parted_runsFrom (hpos : ∀ j ∈ l, 0 < j.size) (hp : Contiguous x p i.next) (hne : p ≠ []) :
    Parted (runsFrom x i l) (p ++ l) := by
  induction l generalizing x p i with
  | nil => exact .cons (r := ⟨x, i.next⟩) hne hp nofun .nil
  | cons j l ih =>
    rw [List.forall_mem_cons] at hpos
    rw [runsFrom]
    split
    next heq =>
      have hj : Contiguous i.next [j] j.next := .cons heq.symm hpos.1 (.nil _)
      have hparted := ih hpos.2 (hp.append hj) (by simp)
      rwa [List.append_assoc] at hparted
    next hgap =>
      refine .cons (r := ⟨x, i.next⟩) hne hp ?_
        (ih hpos.2 (p := [j]) (.cons rfl hpos.1 (.nil _)) (List.cons_ne_nil _ _))
      simpa using Ne.symm hgap

theorem Laid.parted (h : Laid l) : Parted l.runs l := by
  cases l with
  | nil => exact .nil
  | cons i l =>
    have hpos := List.forall_mem_cons.mp h.size_pos
    exact parted_runsFrom hpos.2 (p := [i]) (.cons rfl hpos.1 (.nil _)) (List.cons_ne_nil _ _)

namespace Parted

theorem exists_first (h : Parted rs l) (hr : r ∈ rs) : ∃ i ∈ l, i.address = r.start := by
  induction h with
  | nil => simp at hr
  | cons hne hp _ _ ih =>
    rcases List.mem_cons.mp hr with rfl | hr
    · obtain ⟨i, hi, haddress⟩ := hp.exists_first hne
      exact ⟨i, List.mem_append_left _ hi, haddress⟩
    · obtain ⟨i, hi, haddress⟩ := ih hr
      exact ⟨i, List.mem_append_right _ hi, haddress⟩

theorem exists_run (h : Parted rs l) (hi : i ∈ l) :
    ∃ r ∈ rs, r.start ≤ i.address ∧ i.next ≤ r.stop := by
  induction h with
  | nil => simp at hi
  | cons _ hp _ _ ih =>
    rcases List.mem_append.mp hi with hi | hi
    · exact ⟨_, List.mem_cons_self, hp.bounds hi⟩
    · obtain ⟨r, hr, hbounds⟩ := ih hi
      exact ⟨r, List.mem_cons_of_mem _ hr, hbounds⟩

theorem pairwise (h : Parted rs l) (hl : Laid l) :
    rs.Pairwise fun r s => r.start < s.start ∧ r.stop < s.start := by
  induction h with
  | nil => exact List.Pairwise.nil
  | @cons r rs p l hne hp hgap hrest ih =>
    obtain ⟨-, hl, hbetween⟩ := hl.of_append
    refine List.pairwise_cons.mpr ⟨?_, ih hl⟩
    intro s hs
    have hle := hp.le
    obtain ⟨i, hi, hlast⟩ := hp.exists_last hne
    obtain ⟨j, hj, hfirst⟩ := hrest.exists_first hs
    cases l with
    | nil => simp at hj
    | cons k l =>
      have hk := hbetween i hi k List.mem_cons_self
      have hkj := hl.head_le hj
      have hapart : k.address ≠ r.stop := hgap k rfl
      omega

/-- From an instruction that begins in a run the next address is that of another instruction, or the
end of the run. -/
theorem exists_next (h : Parted rs l) (hl : Laid l) (hr : r ∈ rs) (hi : i ∈ l)
    (hc : r.start ≤ i.address ∧ i.address < r.stop) :
    i.next ≤ r.stop ∧ (i.next = r.stop ∨ ∃ j ∈ l, j.address = i.next) := by
  induction h with
  | nil => simp at hr
  | @cons s rs p l hne hp _ hrest ih =>
    obtain ⟨-, hl', hbetween⟩ := hl.of_append
    have hsize := hl.size_pos i hi
    rcases List.mem_cons.mp hr with rfl | hr <;> rcases List.mem_append.mp hi with hi | hi
    · refine ⟨(hp.bounds hi).2, ?_⟩
      rcases hp.exists_next hi with hlast | ⟨j, hj, hnext⟩
      · exact Or.inl hlast
      · exact Or.inr ⟨j, List.mem_append_left _ hj, hnext⟩
    · -- The run has ended before this instruction begins.
      obtain ⟨j, hj, hlast⟩ := hp.exists_last hne
      have := hbetween j hj i hi
      omega
    · -- The run only begins after this instruction.
      obtain ⟨j, hj, hfirst⟩ := hrest.exists_first hr
      have := hbetween i hi j hj
      unfold Instruction.next at this
      omega
    · obtain ⟨hle, hnext⟩ := ih hl' hr hi
      refine ⟨hle, hnext.imp_right ?_⟩
      rintro ⟨j, hj, haddress⟩
      exact ⟨j, List.mem_append_right _ hj, haddress⟩

end Parted

namespace Laid

theorem orderedRuns_eq (h : Laid l) : l.orderedRuns = l.runs := by
  refine List.mergeSort_of_pairwise ((h.parted.pairwise h).imp ?_)
  rintro r s ⟨hstart, -⟩
  exact decide_eq_true (Int.le_of_lt hstart)

theorem limitIn_eq (h : Laid l) (hr : r ∈ l.runs) (hc : r.start ≤ x ∧ x < r.stop) :
    limitIn l.orderedRuns x = r.stop := by
  have hordered : l.runs.Pairwise fun r s => r.start < s.start ∧ r.stop ≤ s.start :=
    (h.parted.pairwise h).imp fun hrs => ⟨hrs.1, Int.le_of_lt hrs.2⟩
  rw [limitIn, h.orderedRuns_eq, Sequence.lastAtMost?_of_between hordered hr hc.1 hc.2]

theorem exists_run (h : Laid l) (hi : i ∈ l) :
    ∃ r ∈ l.runs, r.start ≤ i.address ∧ i.next ≤ r.stop ∧
      limitIn l.orderedRuns i.address = r.stop := by
  obtain ⟨r, hr, hstart, hstop⟩ := h.parted.exists_run hi
  have hsize := h.size_pos i hi
  unfold Instruction.next at hstop
  exact ⟨r, hr, hstart, hstop, h.limitIn_eq hr ⟨hstart, by omega⟩⟩

end Laid

end Listing

end CodeSignature
