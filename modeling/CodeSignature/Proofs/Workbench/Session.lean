import CodeSignature.Proofs.Workbench.Course
import Mathlib

/-! # Sessions at the workbench

A session is a sequence of tasks, changes of the settings and interruptions. What comes of a task
depends on the image, the settings it was loaded under and the present ones, and on what is answered
and interrupted during the task itself. Nothing else is left over from the tasks before.
-/

namespace CodeSignature

open Dialogue

inductive Task where
  | unique (address : Int)
  | references (target : Int)
  | range (start stop : Int)
  | search (text : String)

namespace Task

inductive Result where
  | text (found : Option String)
  | texts (found : List String)
  | addresses (found : List Int)
deriving DecidableEq, Repr

def perform (w : Workbench) (t : Task) (d : Dialogue) : Except Fault Result × Dialogue :=
  match t with
  | .unique address =>
    let (result, d) := w.uniqueSignature address d
    (result.map .text, d)
  | .references target =>
    let (result, d) := w.referenceSignatures target d
    (result.map .texts, d)
  | .range start stop =>
    let (result, d) := w.rangeSignature start stop d
    (result.map .text, d)
  | .search text =>
    let (result, d) := w.search text d
    (result.map .addresses, d)

variable {w : Workbench} {d e : Dialogue}

/-- Every task but a look-up begins by forgetting what was cancelled. -/
theorem perform_resume (w : Workbench) (t : Task) :
    (∀ d, t.perform w d.resume = t.perform w d) ∨ ∃ text, t = .search text := by
  cases t with
  | search text => exact Or.inr ⟨text, rfl⟩
  | _ => exact Or.inl fun d => rfl

theorem perform_congr (h : d.resume = e.resume) (w : Workbench) (t : Task) :
    (t.perform w d).1 = (t.perform w e).1 ∧
      (t.perform w d).2.resume = (t.perform w e).2.resume := by
  rcases t.perform_resume w with hresume | ⟨text, rfl⟩
  · rw [← hresume d, h, hresume e]
    exact ⟨rfl, rfl⟩
  · obtain ⟨hresult, hdialogue⟩ := w.search_congr h text
    exact ⟨congrArg (Except.map Result.addresses) hresult, hdialogue⟩

theorem reaches_perform (w : Workbench) (t : Task) (d : Dialogue) :
    d.resume.Reaches (t.perform w d.resume).2 := by
  cases t with
  | unique address => exact w.reaches_uniqueSignature address d.resume
  | references target => exact w.reaches_referenceSignatures target d.resume
  | range start stop => exact w.reaches_rangeSignature start stop d.resume
  | search text => exact w.reaches_search text d.resume

end Task

structure Outcome where
  result : Except Fault Task.Result
  events : List Event

/-- A workbench in use. What was cancelled and not forgotten since is left over for the next task. -/
structure Desk where
  workbench : Workbench
  cancelled : Bool

namespace Desk

inductive Step where
  | perform (t : Task) (d : Dialogue)
  | change (changes : Fields)
  /-- An interruption between two tasks, or after the last poll of a task. -/
  | interrupt

/-- The dialogue of a task: it has a record of its own, and what is left over is cancelled. -/
def opening (desk : Desk) (d : Dialogue) : Dialogue :=
  { d with cancelled := desk.cancelled, events := [] }

def outcome (desk : Desk) (t : Task) (d : Dialogue) : Outcome :=
  let (result, e) := t.perform desk.workbench (desk.opening d)
  ⟨result, e.events⟩

/-- The desk after something has happened. A poll that says to stop tells of a cancellation. -/
def step (desk : Desk) : Step → Desk
  | .perform t d =>
    let (_, e) := t.perform desk.workbench (desk.opening d)
    { desk with cancelled := e.cancelled || e.polled.contains true }
  | .change changes => { desk with workbench := desk.workbench.update changes }
  | .interrupt => { desk with cancelled := true }

def after (desk : Desk) (steps : List Step) : Desk := steps.foldl step desk

end Desk

/-- The settings after a session, which only the changes in it matter for. -/
def Settings.after (s : Settings) (steps : List Desk.Step) : Settings :=
  steps.foldl (fun s x => match x with
    | .change changes => s.change changes
    | _ => s) s

namespace Desk

variable {desk : Desk} {d e : Dialogue}

theorem workbench_after (desk : Desk) (steps : List Step) :
    (desk.after steps).workbench =
      { desk.workbench with settings := desk.workbench.settings.after steps } := by
  induction steps generalizing desk with
  | nil => rfl
  | cons x steps ih =>
    cases x with
    | perform t d => exact ih (desk.step (.perform t d))
    | change changes => exact ih (desk.step (.change changes))
    | interrupt => exact ih (desk.step .interrupt)

theorem outcome_congr (w : Workbench) (cancelled cancelled' : Bool) (t : Task) (d : Dialogue) :
    (Desk.mk w cancelled).outcome t d = (Desk.mk w cancelled').outcome t d := by
  have hsame : ((Desk.mk w cancelled).opening d).resume =
      ((Desk.mk w cancelled').opening d).resume := rfl
  obtain ⟨hresult, hdialogue⟩ := Task.perform_congr hsame w t
  have hevents := congrArg Dialogue.events hdialogue
  exact congrArg₂ Outcome.mk hresult hevents

theorem unpolled_outcome (hd : d.resume.NeverCancelled) (desk : Desk) (t : Task) :
    .polled true ∉ (desk.outcome t d).events := by
  have hopening : ((Desk.mk desk.workbench false).opening d).Undisturbed :=
    ⟨⟨hd.polls, rfl, hd.interruptAt, hd.replies⟩, List.not_mem_nil⟩
  have hreaches := t.reaches_perform desk.workbench ((Desk.mk desk.workbench false).opening d)
  rw [outcome_congr desk.workbench desk.cancelled false t d]
  exact (hopening.of_reaches hreaches).unpolled

/-- What comes of a task at the end of a session comes of it at a fresh workbench with the same image
that has taken the present settings, whatever was left over. If nothing cancels the task itself then
none of its polls says to stop. -/
theorem outcome_after {settings : Settings} {image : Image} {w : Workbench} {d₀ d₁ : Dialogue}
    (hload : (Workbench.empty settings).load image d₀ = (.ok w, d₁)) (cancelled : Bool)
    (steps : List Step) (t : Task) (d e₀ : Dialogue) :
    ∃ fresh e₁, (Workbench.empty settings).load image e₀ = (.ok fresh, e₁) ∧
      ((Desk.mk w cancelled).after steps).outcome t d =
        (Desk.mk { fresh with settings := settings.after steps } false).outcome t d ∧
      (d.resume.NeverCancelled →
        .polled true ∉ (((Desk.mk w cancelled).after steps).outcome t d).events) := by
  obtain ⟨e₁, hfresh, hsettings⟩ := Workbench.load_congr hload e₀
  refine ⟨w, e₁, hfresh, ?_, fun hd => unpolled_outcome hd _ t⟩
  have hworkbench := workbench_after ⟨w, cancelled⟩ steps
  rw [hsettings] at hworkbench
  rw [← hworkbench]
  exact outcome_congr ..

/-- An interruption while places are looked up is left over. It does not stop the transcription of a
range. -/
theorem outcome_after_interrupt :
    let image := Image.flat [0xB8, 1, 0, 0, 0, 0xC3] 0x1000 true "metapc" 64
    let steps : List Step := [.change [("output_format", .text "x64dbg")],
      .perform (.search "C3") { quiet with interruptAt := some 1 }]
    ∃ w d₁, (Workbench.empty .defaults).load image .quiet = (.ok w, d₁) ∧
      quiet.resume.NeverCancelled ∧ ((Desk.mk w false).after steps).cancelled = true ∧
      let o := ((Desk.mk w false).after steps).outcome (.range 0x1000 0x1006) .quiet
      o.result = .ok (.text (some "B8 ?? ?? ?? ?? C3")) ∧ .polled true ∉ o.events := by
  intro image steps
  let a := Analysis.ofDecoder image (.ofImage image .bits64) ⟨true, true, true⟩
  have hload : (Workbench.empty .defaults).load image .quiet =
      (.ok ⟨.defaults, some a⟩, a.announce .quiet) := rfl
  obtain ⟨fresh, e₁, hfresh, hsame, hunpolled⟩ :=
    outcome_after hload false steps (.range 0x1000 0x1006) .quiet .quiet
  have hcancelled : ((Desk.mk ⟨.defaults, some a⟩ false).after steps).cancelled = true := by
    unfold steps a image
    cbv
  have hresult : (((Desk.mk ⟨.defaults, some a⟩ false).after steps).outcome
      (.range 0x1000 0x1006) .quiet).result = .ok (.text (some "B8 ?? ?? ?? ?? C3")) := by
    obtain ⟨hw, -⟩ := Prod.mk.inj (hload.symm.trans hfresh)
    obtain rfl := Except.ok.inj hw
    rw [hsame]
    unfold steps a image
    cbv
  exact ⟨_, _, hload, neverCancelled_quiet, hcancelled, hresult, hunpolled neverCancelled_quiet⟩

end Desk

end CodeSignature
