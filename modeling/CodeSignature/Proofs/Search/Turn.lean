import CodeSignature.Proofs.Decoder.Walk
import CodeSignature.Proofs.Search.Cells
import CodeSignature.Search.Growth

/-! # The turns of a search

A search repeats one turn: poll, decode, ask if the signature is long, append, and look for
occurrences. A turn that does not fail has gone through all of these.
-/

namespace CodeSignature

namespace Growth

inductive Turn where
  | finished (result : Except Failure Signature)
  | grown (g : Growth)

/-- What becomes of a signature to which an instruction was appended. -/
def judge (a : Analysis) (o : GrowthOptions) (routine : Option Routine) (g : Growth) : Turn :=
  if g.cells = [] then .finished (.error .emptyPattern)
  else if a.image.occursOnce g.cells.pattern then .finished (.ok g.cells.trim)
  else if staysInside a o routine g.address then .grown g
  else .finished (.error .leftFunction)

def turn (a : Analysis) (o : GrowthOptions) (origin : Int) (routine : Option Routine) (g : Growth)
    (d : Dialogue) : Turn × Dialogue :=
  match d.poll with
  | (true, d) => (.finished (.error .aborted), d)
  | (false, d) =>
    match a.decoder.decode? g.address with
    | none => (.finished (.error (g.atEnd origin d).1), (g.atEnd origin d).2)
    | some i =>
      match g.allow o origin d with
      | (.error f, d) => (.finished (.error f), d)
      | (.ok g, d) =>
        (judge a o routine (g.append a o.wildcards i),
          writeTrial origin (g.append a o.wildcards i).cells d)

variable {a : Analysis} {o : GrowthOptions} {origin : Int} {routine : Option Routine} {n : Nat}
  {g g' : Growth} {d d' : Dialogue} {s : Signature}

theorem run_succ (a : Analysis) (o : GrowthOptions) (origin : Int) (routine : Option Routine)
    (n : Nat) (g : Growth) (d : Dialogue) :
    run a o origin routine (n + 1) g d =
      match turn a o origin routine g d with
      | (.finished result, d) => (result, d)
      | (.grown g, d) => run a o origin routine n g d := by
  rw [run, turn]
  rcases d.poll with ⟨_ | _, d⟩
  · cases a.decoder.decode? g.address with
    | none => rfl
    | some i =>
      rcases hallow : g.allow o origin d with ⟨f | g, d⟩
      · simp only [hallow]
      · simp only [hallow, judge]
        split
        · rfl
        · split
          · rfl
          · split <;> rfl
  · rfl

theorem run_zero (a : Analysis) (o : GrowthOptions) (origin : Int) (routine : Option Routine)
    (g : Growth) (d : Dialogue) :
    run a o origin routine 0 g d =
      match d.poll with
      | (true, d) => (.error .aborted, d)
      | (false, d) => (.error (g.atEnd origin d).1, (g.atEnd origin d).2) := by
  unfold run
  rcases d.poll with ⟨_ | _, d⟩ <;> rfl

theorem eq_of_allow_ok (h : g.allow o origin d = (.ok g', d')) :
    g'.address = g.address ∧ g'.cells = g.cells := by
  unfold allow at h
  split at h
  · simp at h
  · simp only [Prod.mk.injEq, Except.ok.injEq] at h
    exact h.1 ▸ ⟨rfl, rfl⟩
  · split at h
    · simp only [afterAnswer] at h
      split at h
      · simp only [Prod.mk.injEq, Except.ok.injEq] at h
        exact h.1 ▸ ⟨rfl, rfl⟩
      · simp at h
      · simp at h
    · simp at h

theorem turn_eq_judge {i : Instruction} {d₁ d₂ : Dialogue} (routine : Option Routine)
    (hpoll : d.poll = (false, d₁)) (hdec : a.decoder.decode? g.address = some i)
    (hallow : g.allow o origin d₁ = (.ok g', d₂)) :
    turn a o origin routine g d =
      (judge a o routine (g'.append a o.wildcards i),
        writeTrial origin (g'.append a o.wildcards i).cells d₂) := by
  simp only [turn, hpoll, hdec, hallow]

theorem exists_of_turn {t : Turn} (h : turn a o origin routine g d = (t, d'))
    (ht : ∀ f, t ≠ .finished (.error f)) :
    ∃ i g₁ d₁ d₂, d.poll = (false, d₁) ∧ a.decoder.decode? g.address = some i ∧
      g.allow o origin d₁ = (.ok g₁, d₂) ∧ g₁.address = g.address ∧ g₁.cells = g.cells ∧
      t = judge a o routine (g₁.append a o.wildcards i) ∧
      d' = writeTrial origin (g₁.append a o.wildcards i).cells d₂ := by
  unfold turn at h
  split at h
  · exact absurd (Prod.mk.inj h).1.symm (ht _)
  next d₁ hpoll =>
    split at h
    · exact absurd (Prod.mk.inj h).1.symm (ht _)
    next i hdec =>
      split at h
      · exact absurd (Prod.mk.inj h).1.symm (ht _)
      next g₁ d₂ hallow =>
        obtain ⟨haddress, hcells⟩ := eq_of_allow_ok hallow
        obtain ⟨rfl, rfl⟩ := Prod.mk.inj h
        exact ⟨i, g₁, d₁, d₂, hpoll, hdec, hallow, haddress, hcells, rfl, rfl⟩

theorem judge_cases {f : Failure} (h : judge a o routine g = .finished (.error f)) :
    f = .emptyPattern ∨ f = .leftFunction := by
  unfold judge at h
  split at h
  · cases h
    exact Or.inl rfl
  · split at h
    · cases h
    · split at h
      · cases h
      · cases h
        exact Or.inr rfl

theorem judge_eq_ok_iff :
    judge a o routine g = .finished (.ok s) ↔
      g.cells ≠ [] ∧ a.image.occursOnce g.cells.pattern = true ∧ s = g.cells.trim := by
  unfold judge
  by_cases hn : g.cells = []
  · simp [hn]
  by_cases honce : a.image.occursOnce g.cells.pattern = true
  · rw [if_neg hn, if_pos honce, Turn.finished.injEq, Except.ok.injEq]
    exact ⟨fun h => ⟨hn, honce, h.symm⟩, fun h => h.2.2.symm⟩
  · rw [if_neg hn, if_neg honce]
    refine ⟨fun h => ?_, fun h => absurd h.2.1 honce⟩
    split at h <;> simp at h

theorem judge_eq_grown_iff :
    judge a o routine g = .grown g' ↔
      g' = g ∧ g.cells ≠ [] ∧ a.image.occursOnce g.cells.pattern = false ∧
        staysInside a o routine g.address = true := by
  unfold judge
  by_cases hn : g.cells = []
  · simp [hn]
  by_cases honce : a.image.occursOnce g.cells.pattern = true
  · simp [hn, honce]
  by_cases hstay : staysInside a o routine g.address = true
  · rw [if_neg hn, if_neg honce, if_pos hstay, Turn.grown.injEq]
    exact ⟨fun h => ⟨h.symm, hn, by simpa using honce, hstay⟩, fun h => h.1.symm⟩
  · rw [if_neg hn, if_neg honce, if_neg hstay]
    exact ⟨fun h => by simp at h, fun h => absurd h.2.2.2 hstay⟩

end Growth

end CodeSignature
