import CodeSignature.Association
import Mathlib.Data.List.Nodup
import Mathlib.Data.List.Perm.Basic

/-! # Changed associations

No key is ever lost. If no key is given twice, an update gives the look-ups of the changes where they
have a value, and those of before where they have none.
-/

namespace CodeSignature.Association

section Lookup

variable {κ α : Type} [BEq κ] [EquivBEq κ] {a : Association κ α} {key : κ}

theorem isSome_get?_set (h : (get? a key).isSome) (k : κ) (value : α) :
    (get? (set a k value) key).isSome := by
  rw [get?_set]
  split
  · rfl
  · exact h

theorem isSome_get?_update (h : (get? a key).isSome) (changes : List (κ × α)) :
    (get? (update a changes) key).isSome := by
  induction changes generalizing a with
  | nil => exact h
  | cons change rest ih => exact ih (isSome_get?_set h change.1 change.2)

end Lookup

section Rename

variable {κ κ' α : Type} [BEq κ] [BEq κ'] {f : κ → κ'}

def rename (f : κ → κ') (a : Association κ α) : Association κ' α :=
  a.map fun (key, value) => (f key, value)

theorem rename_set (hf : ∀ k l, (f k == f l) = (k == l)) (a : Association κ α) (key : κ)
    (value : α) :
    rename f (set a key value) = set (rename f a) (f key) value := by
  induction a with
  | nil => rfl
  | cons entry rest ih =>
    obtain ⟨k, v⟩ := entry
    by_cases h : k == key
    · simp [rename, set, hf, h]
    · simp only [rename] at ih
      simp [rename, set, hf, h, ih]

theorem rename_update (hf : ∀ k l, (f k == f l) = (k == l)) (a : Association κ α)
    (changes : List (κ × α)) :
    rename f (update a changes) = update (rename f a) (rename f changes) := by
  induction changes generalizing a with
  | nil => rfl
  | cons change rest ih => rw [update_cons, ih, rename_set hf]; rfl

end Rename

section Distinct

variable {κ α : Type} [DecidableEq κ] {a changes : Association κ α} {key : κ} {value : α}

/-- No key has two entries. -/
def Distinct (a : Association κ α) : Prop := (a.map Prod.fst).Nodup

theorem set_of_not_mem (h : key ∉ a.map Prod.fst) (value : α) :
    set a key value = a ++ [(key, value)] := by
  induction a with
  | nil => rfl
  | cons entry rest ih =>
    obtain ⟨k, v⟩ := entry
    rw [List.map_cons, List.mem_cons, not_or] at h
    rw [set, if_neg (by simpa using Ne.symm h.1), ih h.2, List.cons_append]

theorem update_of_nodup (h : Distinct (a ++ changes)) : update a changes = a ++ changes := by
  induction changes generalizing a with
  | nil => rw [update_nil, List.append_nil]
  | cons change rest ih =>
    obtain ⟨key, value⟩ := change
    have hnew : key ∉ a.map Prod.fst := by
      rw [Distinct, List.map_append, List.nodup_append] at h
      exact fun hmem => h.2.2 key hmem key (.head _) rfl
    rw [update_cons, set_of_not_mem hnew, ih (by rwa [List.append_assoc]), List.append_assoc]
    rfl

theorem mem_keys_set (key : κ) (value : α) (k : κ) :
    k ∈ (set a key value).map Prod.fst ↔ k = key ∨ k ∈ a.map Prod.fst := by
  induction a with
  | nil => simp [set]
  | cons entry rest ih =>
    obtain ⟨l, v⟩ := entry
    by_cases h : l = key
    · simp [set, h]
    · rw [set, if_neg (by simpa using h)]
      simp only [List.map_cons, List.mem_cons, ih]
      tauto

theorem Distinct.set (h : Distinct a) (key : κ) (value : α) : Distinct (set a key value) := by
  induction a with
  | nil => simp [Distinct, Association.set]
  | cons entry rest ih =>
    obtain ⟨l, v⟩ := entry
    obtain ⟨hl, hrest⟩ := List.nodup_cons.mp h
    by_cases heq : l = key
    · rw [Association.set, if_pos (by simpa using heq)]
      exact h
    · rw [Association.set, if_neg (by simpa using heq)]
      refine List.nodup_cons.mpr ⟨fun hmem => ?_, ih hrest⟩
      exact ((mem_keys_set key value l).mp hmem).elim heq hl

theorem Distinct.update (h : Distinct a) (changes : List (κ × α)) :
    Distinct (update a changes) := by
  induction changes generalizing a with
  | nil => exact h
  | cons change rest ih => exact ih (h.set change.1 change.2)

theorem get?_eq_none_iff : get? a key = none ↔ key ∉ a.map Prod.fst := by
  simp only [get?, Option.map_eq_none_iff, List.find?_eq_none, List.mem_map, beq_iff_eq, not_exists,
    not_and]

theorem mem_iff_get?_eq_some (h : Distinct a) : (key, value) ∈ a ↔ get? a key = some value := by
  induction a with
  | nil => simp [get?]
  | cons entry rest ih =>
    obtain ⟨k, v⟩ := entry
    obtain ⟨hk, hrest⟩ := List.nodup_cons.mp h
    have ih := ih hrest
    by_cases heq : k = key
    · subst heq
      have hnot : (k, value) ∉ rest := fun hmem => hk (List.mem_map.mpr ⟨_, hmem, rfl⟩)
      simp [get?, hnot, eq_comm]
    · simp only [get?] at ih
      simp [get?, heq, Ne.symm heq, ih]

theorem get?_update (h : Distinct changes) (a : Association κ α) (key : κ) :
    get? (update a changes) key = (get? changes key).or (get? a key) := by
  induction changes generalizing a with
  | nil => rfl
  | cons change rest ih =>
    obtain ⟨k, v⟩ := change
    obtain ⟨hk, hrest⟩ := List.nodup_cons.mp h
    rw [update_cons, ih hrest, get?_set]
    by_cases heq : k = key
    · subst heq
      rw [get?_eq_none_iff.mpr hk]
      simp [get?]
    · simp [get?, heq]

theorem get?_update_of_mem (h : Distinct changes) (hmem : (key, value) ∈ changes)
    (a : Association κ α) : get? (update a changes) key = some value := by
  rw [get?_update h, (mem_iff_get?_eq_some h).mp hmem, Option.some_or]

theorem mem_or_mem_of_mem_update (ha : Distinct a) (h : Distinct changes)
    (hmem : (key, value) ∈ update a changes) : (key, value) ∈ changes ∨ (key, value) ∈ a := by
  rw [mem_iff_get?_eq_some (ha.update changes), get?_update h, Option.or_eq_some_iff] at hmem
  exact hmem.imp (mem_iff_get?_eq_some h).mpr fun hnone => (mem_iff_get?_eq_some ha).mpr hnone.2

theorem mem_keys_update (h : key ∈ a.map Prod.fst) (changes : List (κ × α)) :
    key ∈ (update a changes).map Prod.fst := by
  induction changes generalizing a with
  | nil => exact h
  | cons change rest ih => exact ih ((mem_keys_set change.1 change.2 key).mpr (.inr h))

/-- Two associations with the same look-ups have the same entries. -/
theorem perm_of_get?_eq {b : Association κ α} (ha : Distinct a) (hb : Distinct b)
    (h : ∀ key, get? a key = get? b key) : a.Perm b := by
  refine (List.perm_ext_iff_of_nodup (.of_map _ ha) (.of_map _ hb)).mpr fun (key, value) => ?_
  rw [mem_iff_get?_eq_some ha, mem_iff_get?_eq_some hb, h key]

theorem set_eq_self (h : get? a key = some value) : set a key value = a := by
  induction a with
  | nil => cases h
  | cons entry rest ih =>
    obtain ⟨k, v⟩ := entry
    by_cases heq : k = key
    · subst heq
      obtain rfl : v = value := by simpa [get?] using h
      simp [set]
    · have hrest : get? rest key = some value := by simpa [get?, heq] using h
      rw [set, if_neg (by simpa using heq), ih hrest]

theorem update_eq_self (h : ∀ change ∈ changes, get? a change.1 = some change.2) :
    update a changes = a := by
  induction changes with
  | nil => rfl
  | cons change rest ih =>
    rw [update_cons, set_eq_self (h change (.head _)), ih fun x hx => h x (.tail _ hx)]

end Distinct

end CodeSignature.Association
