import CodeSignature.Image.Occurrences
import CodeSignature.Proofs.Image.Separated

/-! # Where patterns match

The occurrences of a pattern are the addresses at which it matches the rest of a segment, in
ascending order within a segment. A limited search finds the first of them, so two hits decide
whether there is exactly one.
-/

namespace CodeSignature

namespace Pattern

variable {p q : Pattern} {bytes : List UInt8} {x a : Int}

theorem fits_iff {place : Option UInt8} {b : UInt8} :
    fits place b = true ↔ ∀ v, place = some v → b = v := by
  cases place with
  | none => simp [fits]
  | some v => simp [fits, eq_comm]

theorem length_le_of_matchesFront (h : p.matchesFront bytes = true) : p.length ≤ bytes.length := by
  induction p generalizing bytes with
  | nil => simp
  | cons place p ih =>
    cases bytes with
    | nil => simp [matchesFront] at h
    | cons b bytes =>
      simp only [matchesFront, Bool.and_eq_true] at h
      simpa using ih h.2

theorem matchesFront_append :
    (p ++ q).matchesFront bytes = true ↔
      p.matchesFront bytes = true ∧ q.matchesFront (bytes.drop p.length) = true := by
  induction p generalizing bytes with
  | nil => simp [matchesFront]
  | cons place p ih =>
    cases bytes with
    | nil => simp [matchesFront]
    | cons b bytes => simp [matchesFront, ih, and_assoc]

theorem matchesFront_wildcards (n : Nat) :
    matchesFront (List.replicate n none) bytes = true ↔ n ≤ bytes.length := by
  induction n generalizing bytes with
  | zero => simp [matchesFront]
  | succ n ih =>
    cases bytes with
    | nil => simp [List.replicate_succ, matchesFront]
    | cons b bytes => simp [List.replicate_succ, matchesFront, fits, ih]

/-- A pattern matches where it has room and every literal place meets its byte. -/
theorem matchesFront_iff :
    p.matchesFront bytes = true ↔
      p.length ≤ bytes.length ∧
        ∀ (k : Nat) (v : UInt8), p[k]? = some (some v) → bytes[k]? = some v := by
  induction p generalizing bytes with
  | nil => simp [matchesFront]
  | cons place p ih =>
    cases bytes with
    | nil => simp [matchesFront]
    | cons b bytes =>
      simp only [matchesFront, Bool.and_eq_true, fits_iff, ih, List.length_cons,
        Nat.add_le_add_iff_right]
      constructor
      · rintro ⟨hb, hl, hk⟩
        refine ⟨hl, fun k v hv => ?_⟩
        cases k with
        | zero => simpa using hb v (by simpa using hv)
        | succ k => simpa using hk k v (by simpa using hv)
      · rintro ⟨hl, hk⟩
        refine ⟨fun v hv => ?_, hl, fun k v hv => ?_⟩
        · simpa using hk 0 v (by simpa using hv)
        · simpa using hk (k + 1) v (by simpa using hv)

theorem matchesFront_literals {literals : List UInt8} :
    matchesFront (literals.map some) bytes = true ↔ literals <+: bytes := by
  induction literals generalizing bytes with
  | nil => simp [matchesFront]
  | cons v literals ih =>
    cases bytes with
    | nil => simp [matchesFront]
    | cons b bytes => simp [matchesFront, fits, ih, List.cons_prefix_cons]

theorem mem_occurrences_iff :
    x ∈ p.occurrences a bytes ↔
      a ≤ x ∧ x < a + bytes.length ∧ p.matchesFront (bytes.drop (x - a).toNat) = true := by
  induction bytes generalizing a with
  | nil => simp [occurrences]; omega
  | cons b bytes ih =>
    have hstep : x ∈ p.occurrences (a + 1) bytes ↔ a < x ∧ x < a + (b :: bytes).length ∧
        p.matchesFront ((b :: bytes).drop (x - a).toNat) = true := by
      rw [ih, List.length_cons]
      constructor
      · rintro ⟨h₁, h₂, h₃⟩
        have hs : (x - a).toNat = (x - (a + 1)).toNat + 1 := by omega
        exact ⟨by omega, by omega, by rwa [hs, List.drop_succ_cons]⟩
      · rintro ⟨h₁, h₂, h₃⟩
        have hs : (x - a).toNat = (x - (a + 1)).toNat + 1 := by omega
        rw [hs, List.drop_succ_cons] at h₃
        exact ⟨by omega, by omega, h₃⟩
    have hfront : x = a → (b :: bytes).drop (x - a).toNat = b :: bytes := by
      rintro rfl; simp
    simp only [occurrences]
    split
    next h =>
      rw [List.mem_cons, hstep]
      constructor
      · rintro (hx | ⟨h₁, h₂, h₃⟩)
        · exact ⟨by omega, by rw [List.length_cons]; omega, by rw [hfront hx]; exact h⟩
        · exact ⟨by omega, h₂, h₃⟩
      · rintro ⟨h₁, h₂, h₃⟩
        rcases Int.lt_or_eq_of_le h₁ with hlt | heq
        · exact Or.inr ⟨hlt, h₂, h₃⟩
        · exact Or.inl heq.symm
    next h =>
      rw [hstep]
      constructor
      · rintro ⟨h₁, h₂, h₃⟩; exact ⟨by omega, h₂, h₃⟩
      · rintro ⟨h₁, h₂, h₃⟩
        rcases Int.lt_or_eq_of_le h₁ with hlt | heq
        · exact ⟨hlt, h₂, h₃⟩
        · rw [hfront heq.symm] at h₃
          exact absurd h₃ h

theorem pairwise_occurrences (p : Pattern) (a : Int) (bytes : List UInt8) :
    (p.occurrences a bytes).Pairwise (· < ·) := by
  induction bytes generalizing a with
  | nil => simp [occurrences]
  | cons b bytes ih =>
    simp only [occurrences]
    split
    · refine List.pairwise_cons.mpr ⟨fun x hx => ?_, ih _⟩
      have := (mem_occurrences_iff.mp hx).1
      omega
    · exact ih _

theorem firstOccurrences_eq_take (p : Pattern) (n : Nat) (a : Int) (bytes : List UInt8) :
    p.firstOccurrences n a bytes = (p.occurrences a bytes).take n := by
  induction bytes generalizing n a with
  | nil => cases n <;> simp [firstOccurrences, occurrences]
  | cons b bytes ih =>
    cases n with
    | zero => simp [firstOccurrences]
    | succ n =>
      simp only [firstOccurrences, occurrences]
      split <;> simp [ih]

end Pattern

namespace Image

variable {image : Image} {p : Pattern} {x : Int}

theorem firstIn_eq_take (p : Pattern) (n : Nat) (segments : List Segment) :
    firstIn p n segments =
      (segments.flatMap fun s => p.occurrences s.start s.data).take n := by
  induction segments generalizing n with
  | nil => simp [firstIn]
  | cons s rest ih =>
    simp only [firstIn, Pattern.firstOccurrences_eq_take, ih, List.flatMap_cons, List.take_append,
      List.length_take]
    congr 2
    omega

theorem firstOccurrences_eq_take (image : Image) (p : Pattern) (limit : Int) :
    image.firstOccurrences p limit = (image.occurrences p).take (max limit.toNat 1) :=
  firstIn_eq_take p _ _

theorem occursOnce_iff : image.occursOnce p = true ↔ ∃ x, image.occurrences p = [x] := by
  rw [occursOnce, firstOccurrences_eq_take, decide_eq_true_eq, List.length_take,
    ← List.length_eq_one_iff]
  have htwo : max (2 : Int).toNat 1 = 2 := rfl
  omega

theorem mem_occurrences_iff :
    x ∈ image.occurrences p ↔
      ∃ s ∈ image.segments, s.contains x = true ∧ p.matchesFront (s.rest x) = true := by
  simp only [occurrences, List.mem_flatMap, Pattern.mem_occurrences_iff, Segment.contains_iff,
    Segment.rest, Segment.stop, and_assoc]

theorem mem_occurrences_of_prefix {q : Pattern} (h : p <+: q) (hx : x ∈ image.occurrences q) :
    x ∈ image.occurrences p := by
  obtain ⟨tail, rfl⟩ := h
  obtain ⟨s, hs, hc, hm⟩ := mem_occurrences_iff.mp hx
  exact mem_occurrences_iff.mpr ⟨s, hs, hc, (Pattern.matchesFront_append.mp hm).1⟩

/-- Of two patterns, one a front part of the other, let the longer one occur once and the other one
not. Then the other one is ambiguous. -/
theorem two_le_of_prefix {q : Pattern} (h : p <+: q) (hq : image.occursOnce q = true)
    (hp : image.occursOnce p = false) : 2 ≤ (image.occurrences p).length := by
  obtain ⟨z, hz⟩ := occursOnce_iff.mp hq
  have hmem : z ∈ image.occurrences p := mem_occurrences_of_prefix h (by simp [hz])
  have hpos : 0 < (image.occurrences p).length := List.length_pos_of_mem hmem
  have hone : (image.occurrences p).length ≠ 1 := by
    intro hl
    rw [occursOnce_iff.mpr (List.length_eq_one_iff.mp hl)] at hp
    simp at hp
  omega

theorem pairwise_occurrences_of_disjoint (h : image.segments.Pairwise Segment.Disjoint)
    (p : Pattern) : (image.occurrences p).Pairwise (· < ·) := by
  refine List.pairwise_flatMap.mpr ⟨fun s _ => p.pairwise_occurrences _ _, ?_⟩
  refine (h.and image.ascending).imp fun {s t} hst x hx y hy => ?_
  obtain ⟨hdisjoint, hle⟩ := hst
  obtain ⟨-, hx, -⟩ := Pattern.mem_occurrences_iff.mp hx
  obtain ⟨hy, hstop, -⟩ := Pattern.mem_occurrences_iff.mp hy
  -- The second segment begins no earlier than the first one and not in it.
  have hfirst : t.contains t.start = true :=
    Segment.contains_iff.mpr ⟨Int.le_refl _, by unfold Segment.stop; omega⟩
  have hoff := hdisjoint.symm _ hfirst
  rw [Segment.contains_iff, Segment.stop] at hoff
  omega

theorem Separated.pairwise_occurrences (hi : image.Separated) (p : Pattern) :
    (image.occurrences p).Pairwise (· < ·) :=
  pairwise_occurrences_of_disjoint (hi.apart.imp Segment.Apart.disjoint) p

theorem add_length_le_of_matchesFront {s : Segment} (hc : s.contains x = true)
    (h : p.matchesFront (s.rest x) = true) : x + p.length ≤ s.stop := by
  have hl := Pattern.length_le_of_matchesFront h
  have hr := Segment.length_rest_of_contains hc
  omega

end Image

end CodeSignature
