/-! # Associations

Keys with values, in the order in which the keys were first given. A key that is given again keeps its
place, and keeps its first form where keys of different forms count as one.
-/

namespace CodeSignature

abbrev Association (κ α : Type) := List (κ × α)

namespace Association

variable {κ α : Type} [BEq κ]

def get? (a : Association κ α) (key : κ) : Option α := (a.find? (·.1 == key)).map (·.2)

/-- Gives a key a value: in its place if the key is there, at the end otherwise. -/
def set : Association κ α → κ → α → Association κ α
  | [], key, value => [(key, value)]
  | (k, v) :: rest, key, value =>
    if k == key then (k, value) :: rest else (k, v) :: set rest key value

def update (a : Association κ α) (changes : List (κ × α)) : Association κ α :=
  changes.foldl (fun a (key, value) => set a key value) a

@[simp] theorem update_nil (a : Association κ α) : update a [] = a := rfl

@[simp] theorem update_cons (a : Association κ α) (key : κ) (value : α) (rest : List (κ × α)) :
    update a ((key, value) :: rest) = update (set a key value) rest := rfl

theorem get?_set [EquivBEq κ] (a : Association κ α) (key k : κ) (value : α) :
    get? (set a key value) k = if key == k then some value else get? a k := by
  induction a with
  | nil => by_cases h : key == k <;> simp [set, get?, h]
  | cons entry rest ih =>
    obtain ⟨k', v⟩ := entry
    simp only [get?] at ih
    by_cases h : k' == key
    · have hk : (k' == k) = (key == k) := BEq.congr_left h
      by_cases hk' : key == k <;> simp [set, get?, h, hk, hk']
    · by_cases hk : k' == k
      · have hn : (key == k) = false := by
          have := BEq.congr_right (a := k') (BEq.symm hk)
          grind [BEq.symm, BEq.trans]
        simp [set, get?, h, hk, hn]
      · simp [set, get?, h, hk, ih]

end Association

end CodeSignature
