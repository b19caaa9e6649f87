import CodeSignature.Listing.Start

/-! # Padding block by block

The search for code after padding as a walk by index. An inner walk passes a whole block of padding, and
the outer walk goes on at the index at which the inner one has stopped.
-/

namespace CodeSignature

namespace Listing

def paddedAt (l : Listing) (k : Nat) : Bool := (l[k]?).any isPadding

theorem lt_length_of_paddedAt {l : Listing} {k : Nat} (h : l.paddedAt k = true) : k < l.length := by
  refine Nat.lt_of_not_le fun hk => ?_
  simp [paddedAt, List.getElem?_eq_none hk] at h

/-- The first index from an index on at which no padding stands. -/
def blockStop (l : Listing) (k : Nat) : Nat :=
  if h : l.paddedAt k = true then
    have := lt_length_of_paddedAt h
    blockStop l (k + 1)
  else k
termination_by l.length - k

theorem le_blockStop (l : Listing) (k : Nat) : k ≤ l.blockStop k := by
  fun_induction blockStop l k with
  | case1 k _ _ ih => exact Nat.le_of_succ_le ih
  | case2 => exact Nat.le_refl _

theorem lt_blockStop {l : Listing} {k : Nat} (h : l.paddedAt k = true) : k < l.blockStop k := by
  rw [blockStop, dif_pos h]
  exact l.le_blockStop (k + 1)

def isTerminator (i : Instruction) : Bool := terminators.contains i.mnemonic

def terminatedAt (l : Listing) (k : Nat) : Bool := 0 < k && (l[k - 1]?).any isTerminator

def separates (l : Listing) (start stop : Nat) : Bool :=
  2 ≤ stop - start || (stop - start = 1 && l.terminatedAt start)

def foundAt (l : Listing) (start stop : Nat) : List Int :=
  match l[stop]? with
  | some i => if l.separates start stop && i.mnemonic ≠ "db" then [i.address] else []
  | none => []

def afterBlocksFrom (l : Listing) (k : Nat) : List Int :=
  if k < l.length then
    if h : l.paddedAt k = true then
      have := lt_blockStop h
      l.foundAt k (l.blockStop k) ++ afterBlocksFrom l (l.blockStop k)
    else afterBlocksFrom l (k + 1)
  else []
termination_by l.length - k

def afterBlocks (l : Listing) : List Int := l.afterBlocksFrom 0

end Listing

end CodeSignature
