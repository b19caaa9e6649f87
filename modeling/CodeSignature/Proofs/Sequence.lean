import CodeSignature.Sequence
import Mathlib.Data.List.TakeWhile

/-! # Look-ups in ascending sequences

Looking up the last entry at or below a key finds the entry that splits the sequence there. The
look-up, and putting numbers in order, commute with a shift of all of them. Dropping a run at the
end leaves a front part, and the member that ends a run in front ends it whatever follows. Members
that count as equal keep their order in a sorted list. What is left from an index on begins with the
member at that index.
-/

namespace CodeSignature.Sequence

variable {α β : Type} {key : α → Int} {bound : Int} {xs front back : List α} {x : α}

theorem lastAtMost?_append_cons (hf : ∀ y ∈ front, key y ≤ bound) (hx : key x ≤ bound)
    (hb : ∀ y ∈ back, bound < key y) : lastAtMost? key bound (front ++ x :: back) = some x := by
  have hback : back.takeWhile (fun y => decide (key y ≤ bound)) = [] := by
    cases back with
    | nil => rfl
    | cons y rest =>
      have hy := hb y List.mem_cons_self
      rw [List.takeWhile_cons_of_neg (by simpa using hy)]
  rw [lastAtMost?, List.takeWhile_append_of_pos (fun y hy => by simpa using hf y hy),
    List.takeWhile_cons_of_pos (by simpa using hx), hback]
  simp

theorem lastAtMost?_of_between {stop : α → Int}
    (h : xs.Pairwise fun x y => key x < key y ∧ stop x ≤ key y) (hx : x ∈ xs)
    (hkey : key x ≤ bound) (hstop : bound < stop x) : lastAtMost? key bound xs = some x := by
  obtain ⟨front, back, rfl⟩ := List.append_of_mem hx
  obtain ⟨-, hback, hfront⟩ := List.pairwise_append.mp h
  refine lastAtMost?_append_cons ?_ hkey ?_
  · intro y hy
    have := (hfront y hy x List.mem_cons_self).1
    omega
  · intro y hy
    have := ((List.pairwise_cons.mp hback).1 y hy).2
    omega

theorem mem_of_lastAtMost? (h : lastAtMost? key bound xs = some x) : x ∈ xs :=
  (List.takeWhile_sublist _).mem (List.mem_of_getLast? h)

theorem lastAtMost?_map {key' : β → Int} {f : α → β} {δ : Int}
    (hf : ∀ x, key' (f x) = key x + δ) (bound : Int) (xs : List α) :
    lastAtMost? key' (bound + δ) (xs.map f) = (lastAtMost? key bound xs).map f := by
  have hp : ((fun y => decide (key' y ≤ bound + δ)) ∘ f) = fun x => decide (key x ≤ bound) := by
    funext x
    simp [hf]
  rw [lastAtMost?, List.takeWhile_map, hp, List.getLast?_map, lastAtMost?]

theorem span_append_cons {test : α → Bool} (h : xs.dropWhile test = x :: back) (more : List α) :
    (xs.takeWhile test ++ x :: more).takeWhile test = xs.takeWhile test ∧
      (xs.takeWhile test ++ x :: more).dropWhile test = x :: more := by
  have hrun : ∀ y ∈ xs.takeWhile test, test y = true := fun y hy => List.mem_takeWhile_imp hy
  have hx : ¬ test x = true := by
    have hhead := List.head?_dropWhile_not test xs
    rw [h] at hhead
    simpa using hhead
  constructor
  · rw [List.takeWhile_append_of_pos hrun, List.takeWhile_cons_of_neg hx, List.append_nil]
  · rw [List.dropWhile_append_of_pos hrun, List.dropWhile_cons_of_neg hx]

theorem exists_eq_dropEndWhile_append (test : α → Bool) (xs : List α) :
    ∃ tail, xs = dropEndWhile test xs ++ tail ∧ ∀ x ∈ tail, test x = true := by
  induction xs with
  | nil => exact ⟨[], rfl, by simp⟩
  | cons x rest ih =>
    obtain ⟨tail, hr, ht⟩ := ih
    simp only [dropEndWhile]
    split
    next hnil =>
      rw [hnil, List.nil_append] at hr
      subst hr
      split
      next hx => exact ⟨x :: rest, rfl, by simpa [hx] using ht⟩
      next => exact ⟨rest, rfl, ht⟩
    next => exact ⟨tail, by rw [List.cons_append, ← hr], ht⟩

theorem last_dropEndWhile {test : α → Bool} (h : dropEndWhile test xs = front ++ [x]) :
    test x = false := by
  induction xs generalizing front with
  | nil => simp at h
  | cons y rest ih =>
    simp only [dropEndWhile] at h
    split at h
    · split at h
      · simp at h
      next hy =>
        cases front with
        | nil =>
          obtain rfl := List.singleton_inj.mp h
          simpa using hy
        | cons z front => simp at h
    next hkept =>
      cases front with
      | nil =>
        obtain ⟨-, hnil⟩ := List.cons_eq_cons.mp h
        exact absurd hnil (by simpa using hkept)
      | cons z front => exact ih (List.cons_eq_cons.mp h).2

theorem dropEndWhile_concat {test : α → Bool} (h : test x = false) (front : List α) :
    dropEndWhile test (front ++ [x]) = front ++ [x] := by
  induction front with
  | nil => simp [dropEndWhile, h]
  | cons y front ih =>
    rw [List.cons_append, dropEndWhile, ih]
    simp

theorem dropEndWhile_append_of_forall {test : α → Bool} {tail : List α}
    (h : ∀ x ∈ tail, test x = true) (front : List α) :
    dropEndWhile test (front ++ tail) = dropEndWhile test front := by
  have htail : dropEndWhile test tail = [] := by
    induction tail with
    | nil => rfl
    | cons x tail ih =>
      rw [List.forall_mem_cons] at h
      simp [dropEndWhile, ih h.2, h.1]
  induction front with
  | nil => exact htail
  | cons x front ih => simp only [List.cons_append, dropEndWhile, ih]

theorem exists_dropEndWhile_append {test : α → Bool} (h : ∀ x ∈ front, test x = false)
    (back : List α) :
    ∃ kept, dropEndWhile test (front ++ back) = front ++ kept ∧ kept <+: back := by
  obtain ⟨tail, heq, htail⟩ := exists_eq_dropEndWhile_append test (front ++ back)
  rcases List.append_eq_append_iff.mp heq with ⟨kept, hkept, hback⟩ | ⟨cut, hcut, hback⟩
  · exact ⟨kept, hkept, tail, hback.symm⟩
  · -- What is cut off the front part satisfies the test, so it is nothing.
    cases cut with
    | nil => exact ⟨[], by simpa using hcut.symm, List.nil_prefix⟩
    | cons x cut =>
      have hx := h x (hcut ▸ List.mem_append_right _ List.mem_cons_self)
      rw [htail x (hback ▸ List.mem_append_left _ List.mem_cons_self)] at hx
      cases hx

theorem dropEndWhile_eq_self {test : α → Bool} (h : ∀ x ∈ xs, test x = false) :
    dropEndWhile test xs = xs := by
  obtain ⟨kept, heq, hkept⟩ := exists_dropEndWhile_append h []
  rwa [List.prefix_nil.mp hkept, List.append_nil] at heq

theorem mem_dropWhile {test : α → Bool} (hx : x ∈ xs) (h : test x = false) :
    x ∈ xs.dropWhile test := by
  rw [← List.takeWhile_append_dropWhile (p := test) (l := xs), List.mem_append] at hx
  rcases hx with hx | hx
  · simp [List.mem_takeWhile_imp hx] at h
  · exact hx

theorem mem_dropEndWhile {test : α → Bool} (hx : x ∈ xs) (h : test x = false) :
    x ∈ dropEndWhile test xs := by
  obtain ⟨tail, hxs, htail⟩ := exists_eq_dropEndWhile_append test xs
  rw [hxs, List.mem_append] at hx
  rcases hx with hx | hx
  · exact hx
  · simp [htail x hx] at h

theorem le_total_of_mem {n : Nat} {ns : List Nat} (h : n ∈ ns) : n ≤ total ns := by
  induction ns with
  | nil => simp at h
  | cons m rest ih =>
    rw [total_cons]
    rcases List.mem_cons.mp h with rfl | h
    · exact Nat.le_add_right _ _
    · exact (ih h).trans (Nat.le_add_left _ _)

theorem length_flatMap (f : α → List β) (xs : List α) :
    (xs.flatMap f).length = total (xs.map fun x => (f x).length) := by
  induction xs with
  | nil => rfl
  | cons x rest ih => rw [List.flatMap_cons, List.length_append, ih, List.map_cons, total_cons]

theorem contains_map_add (δ a : Int) (ns : List Int) :
    (ns.map (· + δ)).contains (a + δ) = ns.contains a := by
  simp

theorem filter_contains_map_add (δ : Int) (ns ks : List Int) :
    ((ns.map (· + δ)).filter fun a => (ks.map (· + δ)).contains a) =
      (ns.filter fun a => ks.contains a).map (· + δ) := by
  rw [List.filter_map]
  congr 2
  funext a
  exact contains_map_add δ a ks

theorem insertAscending_map_add (δ n : Int) (ns : List Int) :
    insertAscending (n + δ) (ns.map (· + δ)) = (insertAscending n ns).map (· + δ) := by
  induction ns with
  | nil => rfl
  | cons m rest ih =>
    have hlt : n + δ < m + δ ↔ n < m := by omega
    have heq : n + δ = m + δ ↔ n = m := by omega
    simp only [List.map_cons, insertAscending, hlt, heq, ih]
    split
    · rfl
    · split <;> rfl

theorem ascending_map_add (δ : Int) (ns : List Int) :
    ascending (ns.map (· + δ)) = (ascending ns).map (· + δ) := by
  induction ns with
  | nil => rfl
  | cons n rest ih =>
    simp only [ascending, List.map_cons, List.foldr_cons] at ih ⊢
    rw [ih, insertAscending_map_add]

theorem eq_singleton_of_pairwise {ns : List Int} {n : Int} (h : ns.Pairwise (· < ·)) (hn : n ∈ ns)
    (hall : ∀ m ∈ ns, m = n) : ns = [n] := by
  cases ns with
  | nil => simp at hn
  | cons m rest =>
    rw [List.forall_mem_cons] at hall
    obtain ⟨rfl, hrest⟩ := hall
    cases rest with
    | nil => rfl
    | cons k rest =>
      have hlt := (List.pairwise_cons.mp h).1 k List.mem_cons_self
      have := hrest k List.mem_cons_self
      omega

/-- A stable sort keeps the order of members that count as equal. -/
theorem pairwise_mergeSort_stable {le : α → α → Bool} {r : α → α → Prop}
    (trans : ∀ x y z, le x y = true → le y z = true → le x z = true)
    (total : ∀ x y, (le x y || le y x) = true) (h : xs.Pairwise r) :
    (xs.mergeSort le).Pairwise fun x y => le x y = true ∧ (le y x = true → r x y) := by
  refine (List.pairwise_mergeSort trans total xs).and (List.pairwise_iff_forall_sublist.mpr ?_)
  intro x y hxy hle
  have hle' := List.pairwise_iff_forall_sublist.mp (List.pairwise_mergeSort trans total xs) hxy
  -- The members that count as equal to `x` are in order already, so the sort keeps them as they are.
  let alike (z : α) : Bool := le x z && le z x
  have hkept : (xs.filter alike).Sublist (xs.mergeSort le) := by
    refine List.sublist_mergeSort trans total ?_ List.filter_sublist
    refine List.pairwise_iff_forall_sublist.mpr fun {u v} huv => ?_
    have hu := (List.mem_filter.mp (huv.mem (a := u) (by simp))).2
    have hv := (List.mem_filter.mp (huv.mem (a := v) (by simp))).2
    simp only [alike, Bool.and_eq_true] at hu hv
    exact trans _ _ _ hu.2 hv.1
  have hsame : xs.filter alike = (xs.mergeSort le).filter alike := by
    refine List.Sublist.eq_of_length ?_ ((List.mergeSort_perm xs le).filter alike).length_eq.symm
    simpa [List.filter_filter] using hkept.filter alike
  have hpair : [x, y].Sublist (xs.filter alike) := by
    have hx : alike x = true := by
      have := total x x
      simpa [alike] using this
    have hy : alike y = true := by simp [alike, hle, hle']
    have := hxy.filter alike
    rwa [List.filter_cons_of_pos hx, List.filter_cons_of_pos hy, List.filter_nil, ← hsame] at this
  exact List.pairwise_iff_forall_sublist.mp h (hpair.trans List.filter_sublist)

theorem drop_eq_cons_iff {n : Nat} :
    xs.drop n = x :: back ↔ xs[n]? = some x ∧ xs.drop (n + 1) = back := by
  rw [← List.head?_drop, ← List.tail_drop]
  cases xs.drop n <;> simp

end CodeSignature.Sequence
