import CodeSignature.Proofs.Search.Turn

/-! # The runs of a search

A search that succeeds has walked over the instructions that it appended, and as many turns are all
it needs. Its result is the trimmed signature of them, which is the first of the grown signatures
that occurs exactly once.
-/

namespace CodeSignature

namespace Growth

def appended (a : Analysis) (o : GrowthOptions) (origin : Int) (routine : Option Routine) :
    Nat → Growth → Dialogue → List Instruction
  | 0, _, _ => []
  | steps + 1, g, d =>
    match d.poll with
    | (true, _) => []
    | (false, d) =>
      match a.decoder.decode? g.address with
      | none => []
      | some i =>
        match g.allow o origin d with
        | (.error _, _) => []
        | (.ok g, d) =>
          let g := g.append a o.wildcards i
          match judge a o routine g with
          | .finished _ => [i]
          | .grown g => i :: appended a o origin routine steps g (writeTrial origin g.cells d)

variable {a : Analysis} {o : GrowthOptions} {origin : Int} {routine : Option Routine} {m n : Nat}
  {g g' : Growth} {d d' : Dialogue} {s : Signature} {i : Instruction}

theorem exists_of_turn_ok (h : turn a o origin routine g d = (.finished (.ok s), d')) (n : Nat) :
    ∃ i, a.decoder.decode? g.address = some i ∧ appended a o origin routine (n + 1) g d = [i] ∧
      a.image.occursOnce (g.cells ++ a.cells o.wildcards i).pattern = true ∧
      s = (g.cells ++ a.cells o.wildcards i).trim := by
  obtain ⟨i, g₁, d₁, d₂, hpoll, hdec, hallow, -, hcells, hjudge, -⟩ := exists_of_turn h (by simp)
  obtain ⟨-, honce, hs⟩ := judge_eq_ok_iff.mp hjudge.symm
  have hgrown : (g₁.append a o.wildcards i).cells = g.cells ++ a.cells o.wildcards i := by
    rw [append, hcells]
  rw [hgrown] at honce hs
  refine ⟨i, hdec, ?_, honce, hs⟩
  simp only [appended, hpoll, hdec, hallow, ← hjudge]

theorem exists_of_turn_grown (h : turn a o origin routine g d = (.grown g', d')) (n : Nat) :
    ∃ i, a.decoder.decode? g.address = some i ∧
      appended a o origin routine (n + 1) g d = i :: appended a o origin routine n g' d' ∧
      g'.address = g.address + i.size ∧ g'.cells = g.cells ++ a.cells o.wildcards i ∧
      a.image.occursOnce g'.cells.pattern = false ∧
      staysInside a o routine g'.address = true := by
  obtain ⟨i, g₁, d₁, d₂, hpoll, hdec, hallow, haddress, hcells, hjudge, rfl⟩ :=
    exists_of_turn h (by simp)
  obtain ⟨rfl, -, honce, hstay⟩ := judge_eq_grown_iff.mp hjudge.symm
  refine ⟨i, hdec, ?_, by rw [append, haddress], by rw [append, hcells], honce, hstay⟩
  simp only [appended, hpoll, hdec, hallow, ← hjudge]

theorem run_succ_of_finished {result : Except Failure Signature}
    (h : turn a o origin routine g d = (.finished result, d')) (n : Nat) :
    run a o origin routine (n + 1) g d = (result, d') := by
  rw [run_succ, h]

theorem run_succ_of_grown (h : turn a o origin routine g d = (.grown g', d')) (n : Nat) :
    run a o origin routine (n + 1) g d = run a o origin routine n g' d' := by
  rw [run_succ, h]

theorem run_zero_ne_ok : run a o origin routine 0 g d ≠ (.ok s, d') := by
  rw [run_zero]
  split <;> simp

theorem run_succ_eq_ok_iff :
    run a o origin routine (n + 1) g d = (.ok s, d') ↔
      turn a o origin routine g d = (.finished (.ok s), d') ∨
        ∃ g' d₁, turn a o origin routine g d = (.grown g', d₁) ∧
          run a o origin routine n g' d₁ = (.ok s, d') := by
  rw [run_succ]
  rcases turn a o origin routine g d with ⟨result | g', d₁⟩
  · simp
  · constructor
    · intro h
      exact Or.inr ⟨g', d₁, rfl, h⟩
    · rintro (h | ⟨g₂, d₂, h, hrun⟩)
      · simp at h
      · cases h
        exact hrun

theorem run_mono (hmn : m ≤ n) (h : run a o origin routine m g d = (.ok s, d')) :
    run a o origin routine n g d = (.ok s, d') := by
  induction m generalizing n g d with
  | zero => exact absurd h run_zero_ne_ok
  | succ m ih =>
    obtain ⟨n, rfl⟩ := Nat.exists_eq_add_one_of_ne_zero (by omega : n ≠ 0)
    rcases run_succ_eq_ok_iff.mp h with hturn | ⟨g', d₁, hturn, hrun⟩
    · exact run_succ_eq_ok_iff.mpr (Or.inl hturn)
    · exact run_succ_eq_ok_iff.mpr (Or.inr ⟨g', d₁, hturn, ih (by omega) hrun⟩)

/-- A successful run walks over the instructions that it appends, until the grown signature occurs
exactly once; none of the shorter ones did. It needs no more turns than instructions. -/
theorem exists_walk_of_run (h : run a o origin routine n g d = (.ok s, d')) :
    ∃ is i y, appended a o origin routine n g d = is ++ [i] ∧
      run a o origin routine (is.length + 1) g d = (.ok s, d') ∧
      a.decoder.Walk g.address (is ++ [i]) y ∧
      s = (g.cells ++ a.cellsOf o.wildcards (is ++ [i])).trim ∧
      a.image.occursOnce (g.cells ++ a.cellsOf o.wildcards (is ++ [i])).pattern = true ∧
      ∀ js, js <+: is → js ≠ [] →
        a.image.occursOnce (g.cells ++ a.cellsOf o.wildcards js).pattern = false := by
  induction n generalizing g d with
  | zero => exact absurd h run_zero_ne_ok
  | succ n ih =>
    rcases run_succ_eq_ok_iff.mp h with hturn | ⟨g', d₁, hturn, hrun⟩
    · obtain ⟨i, hdec, happended, honce, hs⟩ := exists_of_turn_ok hturn n
      refine ⟨[], i, _, happended, run_succ_of_finished hturn _, .single hdec, by simpa using hs,
        by simpa using honce, ?_⟩
      intro js hjs hne
      exact absurd (List.prefix_nil.mp hjs) hne
    · obtain ⟨i, hdec, happended, haddress, hcells, honce, -⟩ := exists_of_turn_grown hturn n
      obtain ⟨is, j, y, his, hrun', hwalk, hs, honce', hbefore⟩ := ih hrun
      rw [haddress] at hwalk
      rw [hcells] at honce hs honce' hbefore
      refine ⟨i :: is, j, y, by rw [happended, his]; rfl, ?_, .cons hdec hwalk, by simpa using hs,
        by simpa using honce', ?_⟩
      · rw [List.length_cons, run_succ_of_grown hturn]
        exact hrun'
      · intro js hjs hne
        cases js with
        | nil => exact absurd rfl hne
        | cons k js =>
          obtain ⟨rfl, hjs'⟩ := List.cons_prefix_cons.mp hjs
          rcases eq_or_ne js [] with rfl | hjsne
          · simpa using honce
          · simpa using hbefore js hjs' hjsne

end Growth

namespace Analysis

/-- The instructions that growing a signature from an address appends, in order. -/
def appended (a : Analysis) (o : GrowthOptions) (address : Int) (d : Dialogue) :
    List Instruction :=
  if address = Image.badAddress ∨ !a.image.isCode address then []
  else
    Growth.appended a o address (a.routines.containing? address) (a.patience d) (.start address) d

variable {a : Analysis} {o : GrowthOptions} {x : Int} {d : Dialogue} {s : Signature}

theorem contains_of_isCode (h : a.image.isCode x = true) : a.image.contains x = true := by
  unfold Image.isCode at h
  unfold Image.contains
  split at h
  next t hat => rw [hat]; rfl
  next => simp at h

theorem grow_eq_ok_iff :
    (a.grow o x d).1 = .ok s ↔
      (x ≠ Image.badAddress ∧ a.image.isCode x = true) ∧
        ∃ d', Growth.run a o x (a.routines.containing? x) (a.patience d) (.start x) d =
          (.ok s, d') := by
  constructor
  · intro h
    unfold grow at h
    split at h
    · simp at h
    next hx =>
      split at h
      · simp at h
      next hcode =>
        exact ⟨⟨fun he => hx (Or.inl he), by simpa using hcode⟩, _, Prod.ext h rfl⟩
  · rintro ⟨⟨hx, hcode⟩, d', hrun⟩
    simp [grow, hx, hcode, contains_of_isCode hcode, hrun]

theorem appended_eq (hx : x ≠ Image.badAddress) (hcode : a.image.isCode x = true) :
    a.appended o x d =
      Growth.appended a o x (a.routines.containing? x) (a.patience d) (.start x) d := by
  simp [appended, hx, hcode]

theorem exists_walk_of_grow (h : (a.grow o x d).1 = .ok s) :
    a.image.isCode x = true ∧ ∃ is i y, a.appended o x d = is ++ [i] ∧
      a.decoder.Walk x (is ++ [i]) y ∧
      s = (a.cellsOf o.wildcards (is ++ [i])).trim ∧
      a.image.occursOnce (a.cellsOf o.wildcards (is ++ [i])).pattern = true ∧
      ∀ js, js <+: is → js ≠ [] →
        a.image.occursOnce (a.cellsOf o.wildcards js).pattern = false := by
  obtain ⟨⟨hx, hcode⟩, d', hrun⟩ := grow_eq_ok_iff.mp h
  obtain ⟨is, i, y, happended, -, hrest⟩ := Growth.exists_walk_of_run hrun
  exact ⟨hcode, is, i, y, by rw [appended_eq hx hcode, happended], hrest⟩

end Analysis

end CodeSignature
