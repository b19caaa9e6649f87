import CodeSignature.Proofs.Dialogue.Cancelled
import CodeSignature.Proofs.Search.Turn
import CodeSignature.Search.Ranking
import CodeSignature.Search.Transcript
import Mathlib

/-! # Searches heed their dialogue

Beside the same work with a dialogue in which nothing is cancelled, each turn, each search and each
reference either does the same or was asked to stop and is aborted. A ranking goes on after a failed
reference, but not after an aborted one, so it never leaves out the references that are still to
come.
-/

namespace CodeSignature

open Dialogue

namespace Growth

variable {a : Analysis} {o : GrowthOptions} {origin : Int} {routine : Option Routine} {n : Nat}
  {g : Growth} {d : Dialogue}

theorem atEnd_heeded (origin : Int) (g : Growth) (d : Dialogue) :
    d.Continued (g.atEnd origin d).2 ∧ (g.atEnd origin d).1 ≠ .aborted ∧
      g.atEnd origin d.uncancelled = ((g.atEnd origin d).1, (g.atEnd origin d).2.uncancelled) := by
  unfold atEnd
  split
  · exact ⟨.refl d, by simp, rfl⟩
  · refine ⟨(continued_write d _ _).trans (continued_write _ _ _), by simp, ?_⟩
    rw [writeNotUnique, writeNotUnique, Analysis.writeEnd, Analysis.writeEnd, write_uncancelled,
      write_uncancelled]

theorem allow_heeded (o : GrowthOptions) (origin : Int) (g : Growth) (d : Dialogue) :
    Heeded (.error .aborted) d (g.allow o origin d) (g.allow o origin d.uncancelled) := by
  unfold allow
  split
  · exact .continued (.refl d) (by simp)
  · exact .continued (.refl d) (by simp)
  · split
    · obtain ⟨answer, e, hask, hask', hevents⟩ := d.ask_cases (question g.cells.length)
      simp only [hask, hask', afterAnswer]
      cases answer with
      | yes => exact .continued (.of_record hevents rfl) (by simp)
      | no =>
        rw [writeNotUnique, writeNotUnique, write_uncancelled]
        exact .continued ((Continued.of_record hevents rfl).trans (continued_write e _ _)) (by simp)
      | cancel => exact .stopped (.of_record hevents rfl)
    · exact .continued (.refl d) (by simp)

theorem judge_ne_aborted : judge a o routine g ≠ .finished (.error .aborted) := by
  intro h
  rcases judge_cases h with hf | hf <;> cases hf

theorem turn_heeded (a : Analysis) (o : GrowthOptions) (origin : Int) (routine : Option Routine)
    (g : Growth) (d : Dialogue) :
    Heeded (.finished (.error .aborted)) d (turn a o origin routine g d)
      (turn a o origin routine g d.uncancelled) := by
  refine Heeded.of_poll (fun e => ?_) d
  cases a.decoder.decode? g.address with
  | none =>
    obtain ⟨hend, hne, hend'⟩ := atEnd_heeded origin g e
    dsimp only
    rw [hend']
    exact .continued hend (by simpa using hne)
  | some i =>
    have hallow := allow_heeded o origin g e
    dsimp only
    generalize g.allow o origin e = p at hallow ⊢
    generalize g.allow o origin e.uncancelled = q at hallow ⊢
    cases hallow with
    | stopped h => exact .stopped h
    | @continued r f h hne =>
      rcases r with failure | g'
      · exact .continued h (by simpa using hne)
      · dsimp only
        rw [writeTrial, writeTrial, write_uncancelled]
        exact .continued (h.trans (continued_write f _ _)) judge_ne_aborted

theorem run_heeded (a : Analysis) (o : GrowthOptions) (origin : Int) (routine : Option Routine)
    (n : Nat) (g : Growth) (d : Dialogue) :
    Heeded (.error .aborted) d (run a o origin routine n g d)
      (run a o origin routine n g d.uncancelled) := by
  induction n generalizing g d with
  | zero =>
    rw [run_zero, run_zero]
    refine Heeded.of_poll (fun e => ?_) d
    obtain ⟨hend, hne, hend'⟩ := atEnd_heeded origin g e
    rw [hend']
    exact .continued hend (by simpa using hne)
  | succ n ih =>
    have hturn := turn_heeded a o origin routine g d
    rw [run_succ, run_succ]
    generalize turn a o origin routine g d = p at hturn ⊢
    generalize turn a o origin routine g d.uncancelled = q at hturn ⊢
    cases hturn with
    | stopped h => exact .stopped h
    | @continued t e h hne =>
      cases t with
      | finished result => exact .continued h (by simpa using hne)
      | grown g' => exact (ih g' e).trans h

end Growth

namespace Analysis

variable {a : Analysis} {o : GrowthOptions} {d : Dialogue}

theorem patience_uncancelled (a : Analysis) (d : Dialogue) :
    a.patience d.uncancelled = a.patience d := by
  simp [patience, uncancelled]

theorem grow_heeded (a : Analysis) (o : GrowthOptions) (x : Int) (d : Dialogue) :
    Heeded (.error .aborted) d (a.grow o x d) (a.grow o x d.uncancelled) := by
  unfold grow
  rw [patience_uncancelled]
  split
  · exact .continued (.refl d) (by simp)
  · split
    · exact .continued (.refl d) (by simp)
    · exact Growth.run_heeded ..

/-- How a transcription ends where no instruction is known. -/
def transcribeEnd (a : Analysis) (stop x : Int) (cells : Signature) (d : Dialogue) :
    Except Failure Signature × Dialogue :=
  if cells = [] then (.error .decodeFailed, d)
  else (.ok (cells ++ a.bytes false x (stop - x)).trim, writeEnd x d)

theorem transcribeEnd_heeded (a : Analysis) (stop x : Int) (cells : Signature) (d : Dialogue) :
    Heeded (.error .aborted) d (a.transcribeEnd stop x cells d)
      (a.transcribeEnd stop x cells d.uncancelled) := by
  unfold transcribeEnd
  split
  · exact .continued (.refl d) (by simp)
  · rw [writeEnd, writeEnd, write_uncancelled]
    exact .continued (continued_write d _ _) (by simp)

theorem transcribeFrom_heeded (a : Analysis) (wildcards : Bool) (stop : Int) (n : Nat) (x : Int)
    (cells : Signature) (d : Dialogue) :
    Heeded (.error .aborted) d (a.transcribeFrom wildcards stop n x cells d)
      (a.transcribeFrom wildcards stop n x cells d.uncancelled) := by
  induction n generalizing x cells d with
  | zero =>
    unfold transcribeFrom
    exact Heeded.of_poll (a.transcribeEnd_heeded stop x cells) d
  | succ n ih =>
    unfold transcribeFrom
    refine Heeded.of_poll (fun e => ?_) d
    cases a.decoder.decode? x with
    | none => exact a.transcribeEnd_heeded stop x cells e
    | some i =>
      dsimp only
      split
      · exact .continued (.refl e) (by simp)
      · exact ih _ _ e

theorem transcribe_heeded (a : Analysis) (wildcards : Bool) (start stop : Int) (d : Dialogue) :
    Heeded (.error .aborted) d (a.transcribe wildcards start stop d)
      (a.transcribe wildcards start stop d.uncancelled) := by
  unfold transcribe
  rw [patience_uncancelled]
  split
  · exact .continued (.refl d) (by simp)
  · split
    · exact .continued (.refl d) (by simp)
    · exact transcribeFrom_heeded ..

theorem consRanked_heeded (r : Ranked) {p q : Except Failure (List Ranked) × Dialogue}
    (h : Heeded (.error .aborted) d p q) :
    Heeded (.error .aborted) d (consRanked r p) (consRanked r q) := by
  cases h with
  | stopped h => exact .stopped h
  | @continued result e h hne =>
    rcases result with f | more
    · exact .continued h hne
    · exact .continued h (by simp)

theorem growEach_heeded (a : Analysis) (o : GrowthOptions) (total done : Nat) (origins : List Int)
    (d : Dialogue) :
    Heeded (.error .aborted) d (a.growEach o total done origins d)
      (a.growEach o total done origins d.uncancelled) := by
  induction origins generalizing done d with
  | nil => exact .continued (.refl d) (by simp)
  | cons origin rest ih =>
    refine Heeded.of_poll (fun e => ?_) d
    rw [progress_uncancelled]
    have hgrow := (a.grow_heeded o origin (e.progress (done + 1) total)).trans
      (continued_progress e _ _)
    generalize a.grow o origin (e.progress (done + 1) total) = p at hgrow ⊢
    generalize a.grow o origin (e.progress (done + 1) total).uncancelled = q at hgrow ⊢
    cases hgrow with
    | stopped h => exact .stopped h
    | @continued r f h hne =>
      rcases r with failure | s
      · dsimp only
        split
        -- Only a fault is left to end the ranking, since the search was not aborted.
        · exact .continued h (by simpa using hne)
        · rw [writeSkipped, writeSkipped, write_uncancelled]
          exact (ih _ _).trans (h.trans (continued_write f _ _))
      · exact consRanked_heeded _ ((ih _ _).trans h)

theorem rank_heeded (a : Analysis) (o : GrowthOptions) (target : Int) (d : Dialogue) :
    Heeded (.error .aborted) d (a.rank o target d) (a.rank o target d.uncancelled) := by
  have heach := a.growEach_heeded { o with prompt := false } (a.codeOrigins target).length 0
    (a.codeOrigins target) d
  unfold rank
  dsimp only
  generalize a.growEach { o with prompt := false } (a.codeOrigins target).length 0
    (a.codeOrigins target) d = p at heach ⊢
  generalize a.growEach { o with prompt := false } (a.codeOrigins target).length 0
    (a.codeOrigins target) d.uncancelled = q at heach ⊢
  cases heach with
  | stopped h => exact .stopped h
  | @continued r e h hne =>
    rcases r with f | results
    · exact .continued h hne
    · exact .continued h (by simp)

theorem eq_of_consRanked {r : Ranked} {p : Except Failure (List Ranked) × Dialogue}
    {results : List Ranked} (h : (consRanked r p).1 = .ok results) :
    ∃ more, p.1 = .ok more ∧ results = r :: more := by
  rcases p with ⟨f | more, e⟩
  · cases h
  · exact ⟨more, rfl, (Except.ok.inj h).symm⟩

theorem eq_of_rank {target : Int} {results : List Ranked}
    (h : (a.rank o target d).1 = .ok results) :
    ∃ found, (a.growEach { o with prompt := false } (a.codeOrigins target).length 0
      (a.codeOrigins target) d).1 = .ok found ∧ results = ordered found := by
  unfold rank at h
  dsimp only at h
  split at h
  next found e heach => exact ⟨found, by rw [heach], (Except.ok.inj h).symm⟩
  next => cases h

theorem mem_ordered {r : Ranked} {results : List Ranked} : r ∈ ordered results ↔ r ∈ results :=
  List.mem_mergeSort

theorem exists_of_growEach {total done : Nat} {origins : List Int} {results : List Ranked}
    (h : (a.growEach o total done origins d).1 = .ok results) :
    ∀ origin ∈ origins, (∃ s, ⟨origin, s⟩ ∈ results) ∨
      ∃ e f, e.NeverCancelled ∧ (a.grow o origin e).1 = .error f := by
  induction origins generalizing done d results with
  | nil => nofun
  | cons origin rest ih =>
    unfold growEach at h
    rcases d.poll_cases with ⟨e, hpoll, -⟩ | ⟨e, hpoll, -, -⟩
    · rw [hpoll] at h
      cases h
    · rw [hpoll] at h
      dsimp only at h
      obtain ⟨hsame, -⟩ := (a.grow_heeded o origin (e.progress (done + 1) total)).heeds
      rcases hgrow : a.grow o origin (e.progress (done + 1) total) with ⟨f | s, e'⟩
      · rw [hgrow] at h hsame
        dsimp only at h hsame
        split at h
        · cases h
        next hends =>
          have hne : f ≠ .aborted := by
            rintro rfl
            exact hends rfl
          have hfails := (hsame.resolve_left (by simpa using hne)).symm
          exact List.forall_mem_cons.mpr
            ⟨.inr ⟨_, f, neverCancelled_uncancelled _, hfails⟩, ih h⟩
      · rw [hgrow] at h
        obtain ⟨more, hmore, rfl⟩ := eq_of_consRanked h
        refine List.forall_mem_cons.mpr ⟨.inl ⟨s, List.mem_cons_self⟩, ?_⟩
        intro origin' hmem
        refine (ih hmore origin' hmem).imp_left ?_
        rintro ⟨s', hs'⟩
        exact ⟨s', List.mem_cons_of_mem _ hs'⟩

/-- Cancellation replaces a result and never changes one. Beside the dialogue with the same answers
in which nothing is cancelled, each kind of work has the same result or is aborted, and it is aborted
exactly if it was asked to stop. A ranking leaves out no reference but those without a signature. -/
theorem heeds_cancellation (a : Analysis) (o : GrowthOptions) (x start stop target : Int)
    (d : Dialogue) :
    d.uncancelled.NeverCancelled ∧ d.Heeds (a.grow o x) ∧
      d.Heeds (a.transcribe o.wildcards start stop) ∧ d.Heeds (a.rank o target) ∧
      ∀ results, (a.rank o target d).1 = .ok results →
        ∀ origin ∈ a.codeOrigins target, (∃ s, ⟨origin, s⟩ ∈ results) ∨
          ∃ e f, e.NeverCancelled ∧
            (a.grow { o with prompt := false } origin e).1 = .error f := by
  refine ⟨d.neverCancelled_uncancelled, (a.grow_heeded o x d).heeds,
    (a.transcribe_heeded o.wildcards start stop d).heeds, (a.rank_heeded o target d).heeds, ?_⟩
  intro results h
  obtain ⟨found, hfound, rfl⟩ := eq_of_rank h
  intro origin hmem
  refine (exists_of_growEach hfound origin hmem).imp_left ?_
  rintro ⟨s, hs⟩
  exact ⟨s, mem_ordered.mpr hs⟩

/-- A call is ranked, and nothing is ranked if the second poll says to stop. -/
theorem heeds_cancellation_call :
    let image :=
      Image.flat [0xE8, 2, 0, 0, 0, 0x50, 0xC3, 0x50, 0x50, 0xC3] 0x1000 true "metapc" 64
    let o : GrowthOptions := ⟨true, true, .bytes 250, true⟩
    let results : List Ranked := [⟨0x1000, [⟨0xE8, false⟩]⟩]
    let stopping : Dialogue := { Dialogue.quiet with polls := [false, true] }
    ∃ a, ofImage image ⟨true, true, true⟩ = .ok a ∧ (a.rank o 0x1007 .quiet).1 = .ok results ∧
      0x1000 ∈ a.codeOrigins 0x1007 ∧
      ((∃ s, ⟨0x1000, s⟩ ∈ results) ∨
        ∃ e f, e.NeverCancelled ∧ (a.grow { o with prompt := false } 0x1000 e).1 = .error f) ∧
      (a.rank o 0x1007 stopping).1 = .error .aborted ∧
      stopping.Stopped (a.rank o 0x1007 stopping).2 := by
  intro image o results stopping
  let a := ofDecoder image (.ofImage image .bits64) ⟨true, true, true⟩
  have hrank : (a.rank o 0x1007 .quiet).1 = .ok results := by cbv
  have horigin : 0x1000 ∈ a.codeOrigins 0x1007 := by
    have : a.codeOrigins 0x1007 = [0x1000] := by cbv
    simp [this]
  have haborted : (a.rank o 0x1007 stopping).1 = .error .aborted := by cbv
  obtain ⟨-, -, -, -, hcomplete⟩ := heeds_cancellation a o 0 0 0 0x1007 .quiet
  obtain ⟨-, -, -, hstops, -⟩ := heeds_cancellation a o 0 0 0 0x1007 stopping
  exact ⟨a, rfl, hrank, horigin, hcomplete _ hrank _ horigin, haborted, hstops.2.mp haborted⟩

end Analysis

end CodeSignature
