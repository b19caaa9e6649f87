/-! # Sequences

General operations on lists: dropping a run at the end, looking up the last entry at or below a
key, strictly ascending lists as sets, and sums.
-/

namespace CodeSignature.Sequence

def dropEndWhile {α : Type} (test : α → Bool) : List α → List α
  | [] => []
  | x :: rest =>
    match dropEndWhile test rest with
    | [] => if test x then [] else [x]
    | kept => x :: kept

/-- The last entry of the front run of entries with keys at most a bound. In a list that is
ascending by key it is the last entry with such a key. -/
def lastAtMost? {α : Type} (key : α → Int) (bound : Int) (xs : List α) : Option α :=
  (xs.takeWhile fun x => key x ≤ bound).getLast?

/-- Puts a number into a strictly ascending list, unless it is there. -/
def insertAscending (n : Int) : List Int → List Int
  | [] => [n]
  | m :: rest =>
    if n < m then n :: m :: rest
    else if n = m then m :: rest
    else m :: insertAscending n rest

def ascending (xs : List Int) : List Int := xs.foldr insertAscending []

def total (ns : List Nat) : Nat := ns.foldr (· + ·) 0

@[simp] theorem total_nil : total [] = 0 := rfl

@[simp] theorem total_cons (n : Nat) (ns : List Nat) : total (n :: ns) = n + total ns := rfl

@[simp] theorem dropEndWhile_nil {α : Type} (test : α → Bool) : dropEndWhile test [] = [] := rfl

theorem mem_insertAscending {n k : Int} {xs : List Int} :
    k ∈ insertAscending n xs ↔ k = n ∨ k ∈ xs := by
  induction xs with
  | nil => simp [insertAscending]
  | cons m rest ih =>
    simp only [insertAscending]
    split
    · simp
    · split
      · next h => subst h; simp
      · simp only [List.mem_cons, ih]; grind

theorem mem_ascending {k : Int} {xs : List Int} : k ∈ ascending xs ↔ k ∈ xs := by
  induction xs with
  | nil => simp [ascending]
  | cons n rest ih =>
    simp only [ascending, List.foldr_cons, mem_insertAscending, List.mem_cons] at ih ⊢
    rw [ih]

theorem pairwise_insertAscending {n : Int} {xs : List Int} (h : xs.Pairwise (· < ·)) :
    (insertAscending n xs).Pairwise (· < ·) := by
  induction xs with
  | nil => simp [insertAscending]
  | cons m rest ih =>
    obtain ⟨hm, hrest⟩ := List.pairwise_cons.1 h
    simp only [insertAscending]
    split
    · next hlt =>
      refine List.pairwise_cons.2 ⟨fun k hk => ?_, h⟩
      rcases List.mem_cons.1 hk with rfl | hk
      · exact hlt
      · exact Int.lt_trans hlt (hm k hk)
    · split
      · exact h
      · refine List.pairwise_cons.2 ⟨fun k hk => ?_, ih hrest⟩
        rcases mem_insertAscending.1 hk with rfl | hk
        · omega
        · exact hm k hk

theorem pairwise_ascending (xs : List Int) : (ascending xs).Pairwise (· < ·) := by
  induction xs with
  | nil => simp [ascending]
  | cons n rest ih => exact pairwise_insertAscending ih

end CodeSignature.Sequence
