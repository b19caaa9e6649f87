import CodeSignature.Proofs.Search.Termination

/-! # Questions about long signatures

A search with a limit asks before it appends an instruction to a signature that has grown by more than
the limit since the last question. It counts these bytes on its own, apart from the signature; over a
separated image the count is the length of the signature less the length that was named last.
-/

namespace CodeSignature

open Dialogue

namespace Growth

def next? (a : Analysis) (t : Growth × Dialogue) : Option Instruction :=
  if t.2.poll.1 then none else a.decoder.decode? t.1.address

def asks (a : Analysis) (o : GrowthOptions) (origin : Int) (routine : Option Routine)
    (t : Growth × Dialogue) : Bool :=
  (turn a o origin routine t.1 t.2).2.asked ≠ t.2.asked

/-- The lengths of the signature at the questions of some turns. -/
def named (a : Analysis) (o : GrowthOptions) (origin : Int) (routine : Option Routine)
    (ts : List (Growth × Dialogue)) : List Nat :=
  (ts.filter (asks a o origin routine)).map (·.1.cells.length)

/-- The length at the last question of some turns, or the one from before if there is none. -/
def lastNamed (a : Analysis) (o : GrowthOptions) (origin : Int) (routine : Option Routine)
    (before : Nat) (ts : List (Growth × Dialogue)) : Nat :=
  (named a o origin routine ts).getLastD before

variable {a : Analysis} {o : GrowthOptions} {origin x limit : Int} {routine : Option Routine}
  {m n : Nat} {g g' : Growth} {d d' e : Dialogue} {i : Instruction} {answer : Answer}
  {ts before after : List (Growth × Dialogue)} {t : Growth × Dialogue} {f : Failure}
  {result : Except Failure Signature} {p : Except Failure Signature × Dialogue}

theorem next?_eq_some_iff :
    next? a (g, d) = some i ↔ ∃ e, d.poll = (false, e) ∧ a.decoder.decode? g.address = some i := by
  unfold next?
  rcases d.poll with ⟨_ | _, e⟩ <;> simp

theorem asked_atEnd (origin : Int) (g : Growth) (d : Dialogue) :
    (g.atEnd origin d).2.asked = d.asked := by
  unfold atEnd
  split
  · rfl
  · simp [writeNotUnique, Analysis.writeEnd]

theorem asked_afterAnswer (origin : Int) (g : Growth) (answer : Answer) (d : Dialogue) :
    (g.afterAnswer origin answer d).2.asked = d.asked := by
  cases answer <;> simp [afterAnswer, writeNotUnique]

section Limit

variable (ho : o.limit = .bytes limit)
include ho

theorem allow_of_le (h : g.part ≤ limit) (origin : Int) (d : Dialogue) :
    g.allow o origin d = (.ok g, d) := by
  simp [allow, ho, Limit.exceeded, Int.not_lt.mpr h]

variable (hp : o.prompt = true)
include hp

theorem allow_of_lt (h : limit < g.part) (origin : Int) (d : Dialogue) :
    g.allow o origin d =
      g.afterAnswer origin (d.ask (question g.cells.length)).1 (d.ask (question g.cells.length)).2 := by
  simp [allow, ho, hp, Limit.exceeded, h]

theorem asked_turn (g : Growth) (d : Dialogue) :
    (turn a o origin routine g d).2.asked =
      d.asked ++
        if (next? a (g, d)).isSome ∧ limit < g.part then [question g.cells.length] else [] := by
  unfold turn next?
  rcases hpoll : d.poll with ⟨_ | _, e⟩
  · have hasked := asked_of_poll hpoll
    dsimp only
    cases a.decoder.decode? g.address with
    | none => simp [asked_atEnd, hasked]
    | some i =>
      rcases Int.lt_or_le limit g.part with hlt | hle
      · have hallow := congrArg (·.2.asked) (allow_of_lt ho hp hlt origin e)
        simp only [asked_afterAnswer, asked_ask, hasked] at hallow
        rcases hresult : g.allow o origin e with ⟨f | g', e'⟩
        · simpa [hresult, hlt] using hallow
        · simpa [hresult, hlt, writeTrial] using hallow
      · simp [allow_of_le ho hle, writeTrial, hasked, Int.not_lt.mpr hle]
  · simp [asked_of_poll hpoll]

theorem asks_iff :
    asks a o origin routine (g, d) = true ↔ next? a (g, d) ≠ none ∧ limit < g.part := by
  simp [asks, asked_turn ho hp, Option.isSome_iff_ne_none]

theorem part_of_allow (h : g.allow o origin d = (.ok g', d')) :
    g'.part = if limit < g.part then 0 else g.part := by
  rcases Int.lt_or_le limit g.part with hlt | hle
  · rw [allow_of_lt ho hp hlt] at h
    rw [if_pos hlt]
    cases hanswer : (d.ask (question g.cells.length)).1 with
    | yes =>
      rw [hanswer] at h
      exact congrArg part (Except.ok.inj (Prod.mk.inj h).1).symm
    | no =>
      rw [hanswer] at h
      cases (Prod.mk.inj h).1
    | cancel =>
      rw [hanswer] at h
      cases (Prod.mk.inj h).1
  · rw [allow_of_le ho hle] at h
    rw [if_neg (Int.not_lt.mpr hle), Except.ok.inj (Prod.mk.inj h).1]

/-! ### What an answer leads to -/

variable (hasks : asks a o origin routine (g, d) = true)
include hasks

theorem exists_of_asks : ∃ e i, d.poll = (false, e) ∧ a.decoder.decode? g.address = some i ∧
    g.allow o origin e = g.afterAnswer origin (e.ask (question g.cells.length)).1
      (e.ask (question g.cells.length)).2 := by
  obtain ⟨hnext, hlt⟩ := (asks_iff ho hp).mp hasks
  obtain ⟨i, hi⟩ := Option.ne_none_iff_exists'.mp hnext
  obtain ⟨e, hpoll, hdec⟩ := next?_eq_some_iff.mp hi
  exact ⟨e, i, hpoll, hdec, allow_of_lt ho hp hlt origin e⟩

theorem turn_of_yes (hlimit : 0 ≤ limit)
    (hanswer : (d.poll.2.ask (question g.cells.length)).1 = .yes) :
    (turn a o origin routine g d).1 = (turn a o origin routine { g with part := 0 } d).1 := by
  obtain ⟨e, i, hpoll, hdec, hallow⟩ := exists_of_asks ho hp hasks
  rw [hpoll] at hanswer
  rw [hanswer] at hallow
  have hreset : Growth.allow o origin { g with part := 0 } e = (.ok { g with part := 0 }, e) :=
    allow_of_le ho hlimit origin e
  have hsame : turn a o origin routine { g with part := 0 } d = _ :=
    turn_eq_judge routine hpoll hdec hreset
  rw [turn_eq_judge routine hpoll hdec hallow, hsame]

theorem exists_turn_of_refusal
    (hanswer : (d.poll.2.ask (question g.cells.length)).1 ≠ .yes) :
    ∃ e, turn a o origin routine g d = (.finished (.error
        (if (d.poll.2.ask (question g.cells.length)).1 = .no then .notUnique g.cells else .aborted)),
        e) ∧
      ∀ n, appended a o origin routine n g d = [] := by
  obtain ⟨e, i, hpoll, hdec, hallow⟩ := exists_of_asks ho hp hasks
  rw [hpoll] at hanswer ⊢
  dsimp only at hanswer ⊢
  have happended : ∀ {f : Failure} {e' : Dialogue}, g.allow o origin e = (.error f, e') →
      ∀ n, appended a o origin routine n g d = [] := by
    intro f e' hrefused n
    cases n with
    | zero => rfl
    | succ n => simp only [appended, hpoll, hdec, hrefused]
  cases hreply : (e.ask (question g.cells.length)).1 with
  | yes => exact absurd hreply hanswer
  | no =>
    rw [hreply] at hallow
    exact ⟨_, by simp only [turn, hpoll, hdec, hallow, afterAnswer]; rfl, happended hallow⟩
  | cancel =>
    rw [hreply] at hallow
    exact ⟨_, by simp only [turn, hpoll, hdec, hallow, afterAnswer]; rfl, happended hallow⟩

end Limit

/-! ### Whole runs -/

theorem named_cons (t : Growth × Dialogue) (ts : List (Growth × Dialogue)) :
    named a o origin routine (t :: ts) =
      if asks a o origin routine t then t.1.cells.length :: named a o origin routine ts
      else named a o origin routine ts := by
  unfold named
  rw [List.filter_cons]
  split <;> rfl

theorem lastNamed_concat (m : Nat) (ts : List (Growth × Dialogue)) (t : Growth × Dialogue) :
    lastNamed a o origin routine m (ts ++ [t]) =
      if asks a o origin routine t then t.1.cells.length else lastNamed a o origin routine m ts := by
  have hnamed : named a o origin routine (ts ++ [t]) =
      named a o origin routine ts ++ named a o origin routine [t] := by
    simp [named]
  unfold lastNamed
  rw [hnamed, named_cons]
  split
  · exact List.getLastD_concat ..
  · exact congrArg (·.getLastD m) (List.append_nil _)

theorem Turns.split {P : List (Growth × Dialogue) → Growth → Dialogue → Prop}
    (h : Turns a o origin routine g d ts p) (hts : ts = before ++ (g', e) :: after)
    (hfirst : P [] g d)
    (hstep : ∀ {before : List (Growth × Dialogue)} {g g' : Growth} {d d' : Dialogue},
      P before g d → turn a o origin routine g d = (.grown g', d') → P (before ++ [(g, d)]) g' d') :
    P before g' e ∧ Turns a o origin routine g' e ((g', e) :: after) p := by
  induction h generalizing before P with
  | last hlast =>
    obtain ⟨rfl, hsingle⟩ | ⟨rfl, hnil⟩ := List.singleton_eq_append_iff.mp hts
    · obtain ⟨⟨rfl, rfl⟩, rfl⟩ := List.cons.inj hsingle |>.imp_left Prod.mk.inj
      exact ⟨hfirst, .last hlast⟩
    · cases hnil
  | @more g g₁ d d₁ ts p hmore hrest ih =>
    cases before with
    | nil =>
      obtain ⟨⟨rfl, rfl⟩, rfl⟩ := List.cons.inj hts |>.imp_left Prod.mk.inj
      exact ⟨hfirst, .more hmore hrest⟩
    | cons t before =>
      obtain ⟨rfl, htail⟩ := List.cons.inj hts
      exact ih (P := fun front => P ((g, d) :: front)) htail (hstep hfirst hmore) hstep

theorem Turns.eq_of_finished (h : Turns a o origin routine g d ts p)
    (hts : ts = before ++ (g', e) :: after)
    (hturn : turn a o origin routine g' e = (.finished result, d')) :
    after = [] ∧ p = (result, d') := by
  obtain ⟨-, hrest⟩ := h.split (P := fun _ _ _ => True) hts trivial fun _ _ => trivial
  cases hrest with
  | last hlast =>
    rw [hlast] at hturn
    cases hturn
    exact ⟨rfl, rfl⟩
  | more hmore =>
    rw [hmore] at hturn
    cases hturn

theorem Turns.cells_eq (h : Turns a o origin routine g d ts p)
    (hts : ts = before ++ (g', e) :: after) (n : Nat) :
    g.cells ++ a.cellsOf o.wildcards (appended a o origin routine (before.length + n) g d) =
      g'.cells ++ a.cellsOf o.wildcards (appended a o origin routine n g' e) := by
  refine (h.split (P := fun before g' e => ∀ n,
    g.cells ++ a.cellsOf o.wildcards (appended a o origin routine (before.length + n) g d) =
      g'.cells ++ a.cellsOf o.wildcards (appended a o origin routine n g' e)) hts ?_ ?_).1 n
  · simp
  · intro before g₁ g₂ d₁ d₂ hcells hturn n
    obtain ⟨i, -, happended, -, hgrown, -⟩ := exists_of_turn_grown hturn n
    rw [List.length_append, List.length_singleton, Nat.add_assoc, Nat.add_comm 1, hcells, happended,
      Analysis.cellsOf_cons, ← List.append_assoc, hgrown]

section Separated

variable (ho : o.limit = .bytes limit) (hp : o.prompt = true)
include ho hp

theorem Turns.asked_eq (h : Turns a o origin routine g d ts p) :
    p.2.asked = d.asked ++ (named a o origin routine ts).map question := by
  have hturn : ∀ (g : Growth) (d : Dialogue), (turn a o origin routine g d).2.asked =
      d.asked ++ (named a o origin routine [(g, d)]).map question := by
    intro g d
    rw [asked_turn ho hp, named_cons]
    simp only [asks_iff ho hp, Option.isSome_iff_ne_none]
    split <;> rfl
  induction h with
  | @last g d d' result hlast => simpa [hlast] using hturn g d
  | @more g g' d d' ts p hmore _ ih =>
    have hfirst := hturn g d
    rw [hmore] at hfirst
    rw [ih, hfirst, named_cons, named_cons, List.append_assoc, ← List.map_append]
    split <;> rfl

variable (hb : a.BuiltIn) (hi : a.image.Separated)
include hb hi

theorem part_of_turn (hturn : turn a o origin routine g d = (.grown g', d'))
    (hm : g.part + m = g.cells.length) :
    g'.part + (if asks a o origin routine (g, d) then g.cells.length else m : Nat) =
      g'.cells.length := by
  obtain ⟨i, g₁, d₁, d₂, hpoll, hdec, hallow, -, hcells, hjudge, -⟩ :=
    exists_of_turn hturn (by simp)
  obtain ⟨rfl, -⟩ := judge_eq_grown_iff.mp hjudge.symm
  have hpart := part_of_allow ho hp hallow
  have hsize := Analysis.length_cells hb hi hdec o.wildcards
  have hnext : next? a (g, d) ≠ none := by
    simp [next?_eq_some_iff.mpr ⟨d₁, hpoll, hdec⟩]
  simp only [append, hcells, hpart, List.length_append, asks_iff ho hp, hnext, not_false_eq_true,
    ne_eq, true_and]
  split <;> omega

/-- In each turn the count is the length of the signature less the length that was named last. -/
theorem Turns.part_eq (h : Turns a o origin routine g d ts p) (hm : g.part + m = g.cells.length)
    (hts : ts = before ++ (g', e) :: after) :
    g'.part + lastNamed a o origin routine m before = g'.cells.length := by
  refine (h.split (P := fun before g' _ =>
    g'.part + lastNamed a o origin routine m before = g'.cells.length) hts hm ?_).1
  intro before g₁ g₂ d₁ d₂ hpart hturn
  rw [lastNamed_concat]
  exact part_of_turn ho hp hb hi hturn hpart

theorem Turns.isChain_named (h : Turns a o origin routine g d ts p)
    (hm : g.part + m = g.cells.length) :
    (m :: named a o origin routine ts).IsChain fun m n : Nat => m + limit < n := by
  have hfirst : ∀ {g : Growth} {d : Dialogue} {m : Nat}, g.part + m = g.cells.length →
      asks a o origin routine (g, d) = true → m + limit < g.cells.length := by
    intro g d m hm hasks
    have := ((asks_iff ho hp).mp hasks).2
    omega
  induction h generalizing m with
  | last =>
    rw [named_cons]
    split
    next hasks => exact .cons_cons (hfirst hm hasks) (.singleton _)
    next => exact .singleton _
  | more hmore _ ih =>
    have hpart := part_of_turn ho hp hb hi hmore hm
    rw [named_cons]
    split
    next hasks =>
      rw [if_pos hasks] at hpart
      exact .cons_cons (hfirst hm hasks) (ih hpart)
    next hasks =>
      rw [if_neg hasks] at hpart
      exact ih hpart

end Separated

end Growth

namespace Analysis

open Growth

variable {a : Analysis} {limit x : Int}

theorem asked_of_refused {o : GrowthOptions} {d : Dialogue}
    (h : ¬ (x ≠ Image.badAddress ∧ a.image.isCode x = true)) : (a.grow o x d).2 = d := by
  unfold grow
  split
  · rfl
  next hx =>
    have hcode : a.image.isCode x = false := by
      by_contra hcode
      exact h ⟨fun hbad => hx (.inl hbad), by simpa using hcode⟩
    simp [hcode]

/-- The questions of a search that may ask, with a limit of bytes. A turn asks exactly if it comes to
an instruction while the signature is longer by more than the limit than it was at the last question,
or than nothing, and the question names its length. After yes the turn comes to the same as if nothing
had been counted. After no the search has failed with the signature of the length named, and after
cancel it is aborted; it has not appended anything else. Without code at the address nothing is
asked. -/
theorem grow_asks (hb : a.BuiltIn) (hi : a.image.Separated) (hlimit : 0 ≤ limit)
    (wildcards outside : Bool) (x : Int) (d : Dialogue) :
    let o : GrowthOptions := ⟨wildcards, outside, .bytes limit, true⟩
    let routine := a.routines.containing? x
    (¬ (x ≠ Image.badAddress ∧ a.image.isCode x = true) → (a.grow o x d).2 = d) ∧
    (x ≠ Image.badAddress ∧ a.image.isCode x = true →
      ∃ ts, Turns a o x routine (.start x) d ts (a.grow o x d) ∧
        (a.grow o x d).2.asked = d.asked ++ (named a o x routine ts).map question ∧
        (0 :: named a o x routine ts).IsChain (fun m n : Nat => m + limit < n) ∧
        ∀ before g e after, ts = before ++ (g, e) :: after →
          (asks a o x routine (g, e) = true ↔ next? a (g, e) ≠ none ∧
            limit < g.cells.length - lastNamed a o x routine 0 before) ∧
          (asks a o x routine (g, e) = true →
            let answer := (e.poll.2.ask (question g.cells.length)).1
            (answer = .yes →
              (turn a o x routine g e).1 = (turn a o x routine { g with part := 0 } e).1) ∧
            (answer = .no → after = [] ∧ (a.grow o x d).1 = .error (.notUnique g.cells) ∧
              a.cellsOf wildcards (a.appended o x d) = g.cells) ∧
            (answer = .cancel → after = [] ∧ (a.grow o x d).1 = .error .aborted ∧
              a.cellsOf wildcards (a.appended o x d) = g.cells))) := by
  intro o routine
  refine ⟨asked_of_refused, fun ⟨hx, hcode⟩ => ?_⟩
  obtain ⟨mode, hdecoder⟩ := hb.decoder
  obtain ⟨ts, hts, -, hpatience⟩ := exists_turns_grow hdecoder hi hx hcode o d
  have hstart : (Growth.start x).part + (0 : Nat) = (Growth.start x).cells.length := rfl
  refine ⟨ts, hts, hts.asked_eq rfl rfl, hts.isChain_named rfl rfl hb hi hstart, ?_⟩
  intro before g e after hsplit
  have hpart : g.part + lastNamed a o x routine 0 before = g.cells.length :=
    hts.part_eq rfl rfl hb hi hstart hsplit
  refine ⟨?_, fun hasks => ?_⟩
  · rw [asks_iff rfl rfl, ← hpart]
    simp
  -- A refusal ends the search in this turn, before anything is appended.
  have hrefused : (e.poll.2.ask (question g.cells.length)).1 ≠ .yes →
      after = [] ∧ (a.grow o x d).1 = .error
        (if (e.poll.2.ask (question g.cells.length)).1 = .no then .notUnique g.cells
          else .aborted) ∧
      a.cellsOf wildcards (a.appended o x d) = g.cells := by
    intro hanswer
    obtain ⟨e', hturn, hnone⟩ := exists_turn_of_refusal rfl rfl hasks hanswer
    obtain ⟨rfl, hresult⟩ := hts.eq_of_finished hsplit hturn
    refine ⟨rfl, by rw [hresult], ?_⟩
    have hcells := hts.cells_eq hsplit (a.patience d - before.length)
    rw [hsplit, List.length_append, List.length_singleton] at hpatience
    rw [hnone, cellsOf_nil, List.append_nil, Nat.add_sub_cancel' (by omega)] at hcells
    rw [appended_eq hx hcode]
    exact hcells
  refine ⟨turn_of_yes rfl rfl hasks hlimit, fun hno => ?_, fun hcancel => ?_⟩
  · simpa [hno] using hrefused (by simp [hno])
  · simpa [hcancel] using hrefused (by simp [hcancel])

/-- Two instructions alike, where one byte is too long already and the question is answered with
no. -/
theorem grow_asks_refused :
    let image := Image.flat [0x90, 0x90] 0 true "metapc" 64
    let o : GrowthOptions := ⟨true, true, .bytes 0, true⟩
    let d : Dialogue := { Dialogue.quiet with fallback := .no }
    let s : Signature := [⟨0x90, false⟩]
    ∃ a, ofImage image ⟨true, true, true⟩ = .ok a ∧ a.BuiltIn ∧ a.image.Separated ∧ (0 : Int) ≤ 0 ∧
      (0 : Int) ≠ Image.badAddress ∧ a.image.isCode 0 = true ∧
      (a.grow o 0 d).1 = .error (.notUnique s) ∧ (a.grow o 0 d).2.asked = [question 1] ∧
      a.cellsOf true (a.appended o 0 d) = s := by
  intro image o d s
  let a := ofDecoder image (.ofImage image .bits64) ⟨true, true, true⟩
  have hb : a.BuiltIn := ⟨⟨_, rfl⟩, rfl⟩
  have hi : a.image.Separated := Image.separated_flat (by decide) ..
  have hx : (0 : Int) ≠ Image.badAddress := by decide
  have hcode : a.image.isCode 0 = true := by cbv
  have hfirst : turn a o 0 (a.routines.containing? 0) (.start 0) d = (.grown ⟨1, s, 1⟩, d.poll.2) := by
    cbv
  have hnext : next? a (⟨1, s, 1⟩, d.poll.2) ≠ none := by
    have : (next? a (⟨1, s, 1⟩, d.poll.2)).isSome = true := by cbv
    exact Option.isSome_iff_ne_none.mp this
  obtain ⟨ts, hts, hasked, -, hturns⟩ :=
    (grow_asks hb hi (Int.le_refl 0) true true 0 d).2 ⟨hx, hcode⟩
  obtain ⟨after, rfl⟩ : ∃ after, ts = (.start 0, d) :: (⟨1, s, 1⟩, d.poll.2) :: after := by
    have hcopy := hts
    generalize a.grow o 0 d = p at hcopy
    cases hcopy with
    | last hlast => cases hfirst.symm.trans hlast
    | more hmore hrest =>
      cases hfirst.symm.trans hmore
      cases hrest with
      | last => exact ⟨_, rfl⟩
      | more => exact ⟨_, rfl⟩
  have hquiet : asks a o 0 (a.routines.containing? 0) (.start 0, d) = false := by
    rw [← Bool.not_eq_true, (hturns [] _ _ _ rfl).1]
    exact fun h => absurd h.2 (by decide)
  obtain ⟨hasks, hanswers⟩ := hturns [(.start 0, d)] _ _ _ rfl
  have hlong := hasks.mpr ⟨hnext, by rw [lastNamed, named_cons, hquiet]; decide⟩
  obtain ⟨-, hno, -⟩ := hanswers hlong
  obtain ⟨rfl, hresult, hcells⟩ := hno rfl
  refine ⟨a, rfl, hb, hi, Int.le_refl 0, hx, hcode, hresult, ?_, hcells⟩
  rw [hasked, named_cons, hquiet, named_cons, hlong]
  rfl

end Analysis

end CodeSignature
