import CodeSignature.Proofs.Search.Run

/-! # The outcomes of a search

Whatever ends a search, the instructions that it has appended form a walk. A signature that is
delivered is theirs, trimmed, and one that is carried by a failure is theirs as it stands.
-/

namespace CodeSignature

namespace Growth

variable {a : Analysis} {o : GrowthOptions} {origin : Int} {routine : Option Routine} {n : Nat}
  {g g' : Growth} {d d' : Dialogue} {s u : Signature} {i : Instruction}

theorem eq_of_atEnd (h : (g.atEnd origin d).1 = .notUnique u) : u = g.cells := by
  unfold atEnd at h
  split at h
  · cases h
  · exact (Failure.notUnique.inj h).symm

theorem eq_of_allow_error (h : g.allow o origin d = (.error (.notUnique u), d')) :
    u = g.cells := by
  unfold allow at h
  split at h
  · simp at h
  · simp at h
  · split at h
    · simp only [afterAnswer] at h
      split at h
      · simp at h
      · simp only [Prod.mk.injEq, Except.error.injEq, Failure.notUnique.injEq] at h
        exact h.1.symm
      · simp at h
    · simp at h

theorem run_cases (a : Analysis) (o : GrowthOptions) (origin : Int) (routine : Option Routine)
    (n : Nat) (g : Growth) (d : Dialogue) :
    (∃ f d', run a o origin routine (n + 1) g d = (.error f, d') ∧
        (∀ u, f = .notUnique u → u = g.cells) ∧ appended a o origin routine (n + 1) g d = []) ∨
      ∃ (i : Instruction) (g' : Growth) (d' : Dialogue),
        a.decoder.decode? g.address = some i ∧ g'.address = g.address + i.size ∧
        g'.cells = g.cells ++ a.cells o.wildcards i ∧
        ((∃ result, judge a o routine g' = .finished result ∧
            run a o origin routine (n + 1) g d = (result, d') ∧
            appended a o origin routine (n + 1) g d = [i]) ∨
          judge a o routine g' = .grown g' ∧
            run a o origin routine (n + 1) g d = run a o origin routine n g' d' ∧
            appended a o origin routine (n + 1) g d =
              i :: appended a o origin routine n g' d') := by
  rw [run_succ, turn]
  rcases hpoll : d.poll with ⟨_ | _, d₁⟩
  · cases hdec : a.decoder.decode? g.address with
    | none =>
      left
      exact ⟨_, _, rfl, fun u => eq_of_atEnd, by simp only [appended, hpoll, hdec]⟩
    | some i =>
      rcases hallow : g.allow o origin d₁ with ⟨f | g₁, d₂⟩
      · left
        refine ⟨f, d₂, by simp only [hallow], ?_, by simp only [appended, hpoll, hdec, hallow]⟩
        rintro u rfl
        exact eq_of_allow_error hallow
      · right
        obtain ⟨haddress, hcells⟩ := eq_of_allow_ok hallow
        refine ⟨i, g₁.append a o.wildcards i,
          writeTrial origin (g₁.append a o.wildcards i).cells d₂, rfl, ?_, ?_, ?_⟩
        · rw [append, haddress]
        · rw [append, hcells]
        · rcases hjudge : judge a o routine (g₁.append a o.wildcards i) with result | g'
          · left
            refine ⟨result, rfl, by simp only [hallow, hjudge], ?_⟩
            simp only [appended, hpoll, hdec, hallow, hjudge]
          · right
            obtain rfl := (judge_eq_grown_iff.mp hjudge).1
            refine ⟨rfl, by simp only [hallow, hjudge], ?_⟩
            simp only [appended, hpoll, hdec, hallow, hjudge]
  · left
    refine ⟨.aborted, d₁, rfl, ?_, by simp only [appended, hpoll]⟩
    rintro u ⟨⟩

theorem judge_ne_notUnique : judge a o routine g ≠ .finished (.error (.notUnique u)) := by
  intro h
  rcases judge_cases h with hf | hf <;> cases hf

/-- Whatever a run comes to, it has walked over the instructions that it appended, and a signature
among its results is that of these instructions. -/
theorem exists_walk_appended (n : Nat) (g : Growth) (d : Dialogue) :
    (∃ y, a.decoder.Walk g.address (appended a o origin routine n g d) y) ∧
      (∀ s, (run a o origin routine n g d).1 = .ok s →
        s = (g.cells ++ a.cellsOf o.wildcards (appended a o origin routine n g d)).trim) ∧
      ∀ u, (run a o origin routine n g d).1 = .error (.notUnique u) →
        u = g.cells ++ a.cellsOf o.wildcards (appended a o origin routine n g d) := by
  induction n generalizing g d with
  | zero =>
    simp only [appended, Analysis.cellsOf_nil, List.append_nil, run_zero]
    rcases d.poll with ⟨_ | _, d₁⟩
    · refine ⟨⟨_, .nil _⟩, ?_, fun u hu => eq_of_atEnd (Except.error.inj hu)⟩
      rintro s ⟨⟩
    · refine ⟨⟨_, .nil _⟩, ?_, ?_⟩
      · rintro s ⟨⟩
      · rintro u ⟨⟩
  | succ n ih =>
    rcases run_cases a o origin routine n g d with
      ⟨f, d₁, hrun, hf, happended⟩ | ⟨i, g', d₁, hdec, haddress, hcells, hlast | hmore⟩
    · rw [hrun, happended]
      refine ⟨⟨_, .nil _⟩, ?_, ?_⟩
      · rintro s ⟨⟩
      · intro u hu
        simpa using hf u (Except.error.inj hu)
    · obtain ⟨result, hjudge, hrun, happended⟩ := hlast
      rw [hrun, happended]
      refine ⟨⟨_, .single hdec⟩, ?_, ?_⟩
      · rintro s rfl
        rw [(judge_eq_ok_iff.mp hjudge).2.2, hcells]
        simp
      · rintro u rfl
        exact absurd hjudge judge_ne_notUnique
    · obtain ⟨-, hrun, happended⟩ := hmore
      obtain ⟨⟨y, hwalk⟩, hs, hu⟩ := ih g' d₁
      rw [haddress] at hwalk
      rw [hcells, List.append_assoc] at hs hu
      rw [hrun, happended]
      exact ⟨⟨y, .cons hdec hwalk⟩, hs, hu⟩

end Growth

namespace Analysis

variable {a : Analysis} {o : GrowthOptions} {x : Int} {d : Dialogue}

theorem grow_eq_run (a : Analysis) (o : GrowthOptions) (d : Dialogue)
    (hx : x ≠ Image.badAddress) (hcode : a.image.isCode x = true) :
    a.grow o x d =
      Growth.run a o x (a.routines.containing? x) (a.patience d) (.start x) d := by
  simp [grow, hx, hcode, contains_of_isCode hcode]

theorem grow_of_not_isCode (o : GrowthOptions) (d : Dialogue)
    (h : ¬ (x ≠ Image.badAddress ∧ a.image.isCode x = true)) :
    a.appended o x d = [] ∧
      ((a.grow o x d).1 = .error .invalidAddress ∨ (a.grow o x d).1 = .error .notCode) := by
  have hrefused : x = Image.badAddress ∨ !a.image.isCode x := by
    rcases not_and_or.mp h with hx | hcode
    · exact Or.inl (by simpa using hx)
    · exact Or.inr (by simpa using hcode)
  refine ⟨if_pos hrefused, ?_⟩
  unfold grow
  split
  · exact Or.inl rfl
  next hcontained =>
    split
    · exact Or.inr rfl
    next hcode => exact absurd (hrefused.resolve_left fun hx => hcontained (Or.inl hx)) hcode

theorem exists_walk_of_appended (a : Analysis) (o : GrowthOptions) (x : Int) (d : Dialogue) :
    (∃ y, a.decoder.Walk x (a.appended o x d) y) ∧
      (∀ s, (a.grow o x d).1 = .ok s → s = (a.cellsOf o.wildcards (a.appended o x d)).trim) ∧
      ∀ u, (a.grow o x d).1 = .error (.notUnique u) →
        u = a.cellsOf o.wildcards (a.appended o x d) := by
  by_cases hx : x ≠ Image.badAddress ∧ a.image.isCode x = true
  · rw [appended_eq hx.1 hx.2, grow_eq_run a o d hx.1 hx.2]
    exact Growth.exists_walk_appended _ (.start x) d
  · obtain ⟨happended, hgrow | hgrow⟩ := grow_of_not_isCode o d hx
    · rw [happended, hgrow]
      exact ⟨⟨x, .nil x⟩, nofun, nofun⟩
    · rw [happended, hgrow]
      exact ⟨⟨x, .nil x⟩, nofun, nofun⟩

end Analysis

end CodeSignature
