import CodeSignature.Proofs.Dialogue.Course
import CodeSignature.Proofs.Search.Turn
import CodeSignature.Search.Ranking
import CodeSignature.Search.Transcript

/-! # The course of a search

Growing, transcribing and ranking lead from one dialogue to another by exchanges alone, whatever comes
of them, and hand nothing out to be copied.
-/

namespace CodeSignature

open Dialogue

namespace Growth

variable {a : Analysis} {o : GrowthOptions} {origin : Int} {routine : Option Routine} {n : Nat}
  {g : Growth} {d : Dialogue}

theorem consults_atEnd (origin : Int) (g : Growth) (d : Dialogue) :
    d.Consults (g.atEnd origin d).2 := by
  unfold atEnd
  split
  · exact .refl
  · exact (Consults.refl.write _ _).write _ _

theorem consults_allow (o : GrowthOptions) (origin : Int) (g : Growth) (d : Dialogue) :
    d.Consults (g.allow o origin d).2 := by
  unfold allow
  split
  · exact .refl
  · exact .refl
  · split
    · dsimp only
      unfold afterAnswer
      split
      · exact Consults.refl.ask _
      · exact (Consults.refl.ask _).write _ _
      · exact Consults.refl.ask _
    · exact .refl

theorem consults_turn (a : Analysis) (o : GrowthOptions) (origin : Int) (routine : Option Routine)
    (g : Growth) (d : Dialogue) : d.Consults (turn a o origin routine g d).2 := by
  unfold turn
  split
  next e hpoll => exact consults_poll hpoll
  next e hpoll =>
    have he := consults_poll hpoll
    split
    · exact he.trans (consults_atEnd origin g e)
    · have hallow := he.trans (consults_allow o origin g e)
      split
      next f e' heq => rwa [heq] at hallow
      next g' e' heq =>
        rw [heq] at hallow
        exact hallow.write _ _

theorem consults_run (a : Analysis) (o : GrowthOptions) (origin : Int) (routine : Option Routine)
    (n : Nat) (g : Growth) (d : Dialogue) : d.Consults (run a o origin routine n g d).2 := by
  induction n generalizing g d with
  | zero =>
    rw [run_zero]
    split
    next e hpoll => exact consults_poll hpoll
    next e hpoll => exact (consults_poll hpoll).trans (consults_atEnd origin g e)
  | succ n ih =>
    have hturn := consults_turn a o origin routine g d
    rw [run_succ]
    split
    next result e heq => rwa [heq] at hturn
    next g' e heq =>
      rw [heq] at hturn
      exact hturn.trans (ih g' e)

end Growth

namespace Analysis

variable {a : Analysis} {o : GrowthOptions} {d : Dialogue}

theorem consults_grow (a : Analysis) (o : GrowthOptions) (x : Int) (d : Dialogue) :
    d.Consults (a.grow o x d).2 := by
  unfold grow
  split
  · exact .refl
  · split
    · exact .refl
    · exact Growth.consults_run ..

theorem consults_transcribeFrom (a : Analysis) (wildcards : Bool) (stop : Int) (n : Nat) (x : Int)
    (cells : Signature) (d : Dialogue) :
    d.Consults (a.transcribeFrom wildcards stop n x cells d).2 := by
  induction n generalizing x cells d with
  | zero =>
    unfold transcribeFrom
    split
    next e hpoll => exact consults_poll hpoll
    next e hpoll =>
      dsimp only
      split
      · exact consults_poll hpoll
      · exact (consults_poll hpoll).write _ _
  | succ n ih =>
    unfold transcribeFrom
    split
    next e hpoll => exact consults_poll hpoll
    next e hpoll =>
      have he := consults_poll hpoll
      cases a.decoder.decode? x with
      | none =>
        dsimp only
        split
        · exact he
        · exact he.write _ _
      | some i =>
        dsimp only
        split
        · exact he
        · exact he.trans (ih _ _ e)

theorem consults_transcribe (a : Analysis) (wildcards : Bool) (start stop : Int) (d : Dialogue) :
    d.Consults (a.transcribe wildcards start stop d).2 := by
  unfold transcribe
  split
  · exact .refl
  · split
    · exact .refl
    · exact consults_transcribeFrom ..

theorem snd_consRanked (r : Ranked) (p : Except Failure (List Ranked) × Dialogue) :
    (consRanked r p).2 = p.2 := by
  rcases p with ⟨f | more, e⟩ <;> rfl

theorem consults_growEach (a : Analysis) (o : GrowthOptions) (total done : Nat) (origins : List Int)
    (d : Dialogue) : d.Consults (a.growEach o total done origins d).2 := by
  induction origins generalizing done d with
  | nil => exact .refl
  | cons origin rest ih =>
    unfold growEach
    split
    next e hpoll => exact consults_poll hpoll
    next e hpoll =>
      have hgrow := ((consults_poll hpoll).progress (done + 1) total).trans
        (consults_grow a o origin (e.progress (done + 1) total))
      split
      next s e' heq =>
        rw [heq] at hgrow
        rw [snd_consRanked]
        exact hgrow.trans (ih _ _)
      next f e' heq =>
        rw [heq] at hgrow
        split
        · exact hgrow
        · exact (hgrow.write _ _).trans (ih _ _)

theorem consults_rank (a : Analysis) (o : GrowthOptions) (target : Int) (d : Dialogue) :
    d.Consults (a.rank o target d).2 := by
  have heach := consults_growEach a { o with prompt := false } (a.codeOrigins target).length 0
    (a.codeOrigins target) d
  unfold rank
  dsimp only
  split
  next results e heq => rwa [heq] at heach
  next f e heq => rwa [heq] at heach

end Analysis

end CodeSignature
