import CodeSignature.Proofs.Dialogue.Uncancelled
import CodeSignature.Proofs.Search.Patience
import Mathlib

/-! # Looser options

The limit, the scope of the function and the question only decide where a search is cut off. So a
search that succeeds without a question does the same under a higher limit, a wider scope and with
questions allowed, whatever is answered. If every answer is yes then the limit makes no difference
at all.
-/

namespace CodeSignature

/-- Under the second options a search goes on wherever it does under the first ones, which ask
nothing. -/
structure GrowthOptions.Loosened (o o' : GrowthOptions) : Prop where
  wildcards : o'.wildcards = o.wildcards
  outside : o.outside = true → o'.outside = true
  limit : ∀ n, o.limit.exceeded n = .ok false → o'.limit.exceeded n = .ok false
  prompt : o.prompt = false

theorem GrowthOptions.loosened {c c' : Bool} {limit limit' : Int} (wildcards p : Bool)
    (hc : c' = c ∨ c' = true) (hl : limit ≤ limit') :
    Loosened ⟨wildcards, c, .bytes limit, false⟩ ⟨wildcards, c', .bytes limit', p⟩ where
  wildcards := rfl
  outside h := by
    rcases hc with rfl | rfl
    · exact h
    · rfl
  limit n h := by
    simp only [Limit.exceeded, Except.ok.injEq, decide_eq_false_iff_not] at h ⊢
    omega
  prompt := rfl

namespace Growth

variable {a : Analysis} {o o' : GrowthOptions} {origin : Int} {routine : Option Routine}
  {n : Nat} {g g' : Growth} {d d' : Dialogue} {s : Signature}

theorem allow_of_within (h : o.limit.exceeded g.part = .ok false) (origin : Int) (d : Dialogue) :
    g.allow o origin d = (.ok g, d) := by
  simp only [allow, h]

theorem within_of_allow (hp : o.prompt = false) (h : g.allow o origin d = (.ok g', d')) :
    o.limit.exceeded g.part = .ok false := by
  unfold allow at h
  split at h
  · simp at h
  · assumption
  · simp [hp] at h

section Loosened

variable (ho : o.Loosened o')
include ho

theorem judge_loosened {t : Turn} (h : t = judge a o routine g)
    (ht : ∀ f, t ≠ .finished (.error f)) : t = judge a o' routine g := by
  rcases t with (f | s) | g'
  · exact absurd rfl (ht f)
  · exact (judge_eq_ok_iff.mpr (judge_eq_ok_iff.mp h.symm)).symm
  · obtain ⟨rfl, hne, honce, hstay⟩ := judge_eq_grown_iff.mp h.symm
    refine (judge_eq_grown_iff.mpr ⟨rfl, hne, honce, ?_⟩).symm
    simp only [staysInside, Bool.or_eq_true] at hstay ⊢
    exact hstay.imp_left (Or.imp_left ho.outside)

theorem turn_loosened {t : Turn} (h : turn a o origin routine g d = (t, d'))
    (ht : ∀ f, t ≠ .finished (.error f)) {e : Dialogue} (he : e.NeverCancelled) :
    ∃ e', turn a o' origin routine g e = (t, e') ∧ e'.NeverCancelled := by
  obtain ⟨i, g₁, d₁, d₂, -, hdec, hallow, -, -, hjudge, -⟩ := exists_of_turn h ht
  have hwithin := within_of_allow ho.prompt hallow
  rw [allow_of_within hwithin] at hallow
  obtain ⟨rfl, rfl⟩ : g = g₁ ∧ d₁ = d₂ := by simpa using hallow
  obtain ⟨e₁, hpoll, he₁⟩ := he.exists_poll_eq
  have hturn := turn_eq_judge routine hpoll hdec
    (allow_of_within (ho.limit _ hwithin) origin e₁)
  rw [ho.wildcards, ← judge_loosened ho hjudge ht] at hturn
  exact ⟨_, hturn, he₁.write _ _⟩

/-- A run that succeeds does so under looser options, whatever is answered. -/
theorem run_loosened (h : run a o origin routine n g d = (.ok s, d')) {e : Dialogue}
    (he : e.NeverCancelled) : ∃ e', run a o' origin routine n g e = (.ok s, e') := by
  induction n generalizing g d e with
  | zero => exact absurd h run_zero_ne_ok
  | succ n ih =>
    rcases run_succ_eq_ok_iff.mp h with hturn | ⟨g', d₁, hturn, hrun⟩
    · obtain ⟨e', hturn', -⟩ := turn_loosened ho hturn (by simp) he
      exact ⟨e', run_succ_of_finished hturn' n⟩
    · obtain ⟨e₁, hturn', he₁⟩ := turn_loosened ho hturn (by simp) he
      obtain ⟨e', hrun'⟩ := ih hrun he₁
      exact ⟨e', (run_succ_of_grown hturn' n).trans hrun'⟩

end Loosened

section Limit

/-- The same cells up to the same address; the counts since the last question may differ. -/
def Alike (g g' : Growth) : Prop := g.address = g'.address ∧ g.cells = g'.cells

/-- Both turns end the search with one result, or both go on alike. -/
inductive Turn.Alike : Turn → Turn → Prop where
  | finished (result : Except Failure Signature) : Alike (.finished result) (.finished result)
  | grown {g g' : Growth} : g.Alike g' → Alike (.grown g) (.grown g')

theorem atEnd_alike (h : g.Alike g') (origin : Int) (d d' : Dialogue) :
    (g.atEnd origin d).1 = (g'.atEnd origin d').1 := by
  unfold atEnd
  rw [h.2]
  split <;> rfl

variable {wildcards c : Bool} {limit limit' : Int}

theorem exists_allow_eq (hd : d.Agreeable) (wildcards c : Bool) (limit : Int) (origin : Int)
    (g : Growth) :
    ∃ g' d', g.allow ⟨wildcards, c, .bytes limit, true⟩ origin d = (.ok g', d') ∧
      g.Alike g' ∧ d'.Agreeable := by
  by_cases hl : limit < g.part
  · obtain ⟨d', hask, hd'⟩ := hd.exists_ask_eq (question g.cells.length)
    refine ⟨{ g with part := 0 }, d', ?_, ⟨rfl, rfl⟩, hd'⟩
    simp only [allow, Limit.exceeded, hl, decide_true, if_true, hask, afterAnswer]
  · exact ⟨g, d, allow_of_within (by simpa [Limit.exceeded] using hl) origin d, ⟨rfl, rfl⟩, hd⟩

theorem judge_alike (h : g.Alike g') :
    (judge a ⟨wildcards, c, .bytes limit, true⟩ routine g).Alike
      (judge a ⟨wildcards, c, .bytes limit', true⟩ routine g') := by
  have hstay : staysInside a ⟨wildcards, c, .bytes limit, true⟩ routine g.address =
      staysInside a ⟨wildcards, c, .bytes limit', true⟩ routine g'.address := by
    rw [h.1]
    rfl
  simp only [judge, h.2, hstay]
  split
  · exact .finished _
  · split
    · exact .finished _
    · split
      · exact .grown h
      · exact .finished _

theorem turn_alike {e : Dialogue} (h : g.Alike g') (hd : d.Agreeable) (he : e.Agreeable)
    (a : Analysis) (wildcards c : Bool) (limit limit' : Int) (origin : Int)
    (routine : Option Routine) :
    ∃ t d' t' e', turn a ⟨wildcards, c, .bytes limit, true⟩ origin routine g d = (t, d') ∧
      turn a ⟨wildcards, c, .bytes limit', true⟩ origin routine g' e = (t', e') ∧
      t.Alike t' ∧ d'.Agreeable ∧ e'.Agreeable := by
  obtain ⟨d₁, hpoll, hd₁⟩ := hd.exists_poll_eq
  obtain ⟨e₁, hpoll', he₁⟩ := he.exists_poll_eq
  cases hdec : a.decoder.decode? g.address with
  | none =>
    have hend := atEnd_alike h origin d₁ e₁
    simp only [turn, hpoll, hpoll', ← h.1, hdec]
    refine ⟨_, _, _, _, rfl, rfl, hend ▸ .finished _, ?_, ?_⟩
    all_goals
      unfold atEnd
      split
    · exact hd₁
    · exact (hd₁.write _ _).write _ _
    · exact he₁
    · exact (he₁.write _ _).write _ _
  | some i =>
    obtain ⟨g₁, d₂, hallow, hg, hd₂⟩ := exists_allow_eq hd₁ wildcards c limit origin g
    obtain ⟨g₁', e₂, hallow', hg', he₂⟩ := exists_allow_eq he₁ wildcards c limit' origin g'
    have halike : (g₁.append a wildcards i).Alike (g₁'.append a wildcards i) := by
      simp only [Alike, append, ← hg.1, ← hg.2, ← hg'.1, ← hg'.2, h.1, h.2, and_self]
    exact ⟨_, _, _, _, turn_eq_judge routine hpoll hdec hallow,
      turn_eq_judge routine hpoll' (h.1 ▸ hdec) hallow', judge_alike halike, hd₂.write _ _,
      he₂.write _ _⟩

theorem run_alike {e : Dialogue} (h : g.Alike g') (hd : d.Agreeable) (he : e.Agreeable) :
    (run a ⟨wildcards, c, .bytes limit, true⟩ origin routine n g d).1 =
      (run a ⟨wildcards, c, .bytes limit', true⟩ origin routine n g' e).1 := by
  induction n generalizing g g' d e with
  | zero =>
    obtain ⟨d₁, hpoll, -⟩ := hd.exists_poll_eq
    obtain ⟨e₁, hpoll', -⟩ := he.exists_poll_eq
    rw [run_zero, run_zero, hpoll, hpoll']
    exact congrArg Except.error (atEnd_alike h origin d₁ e₁)
  | succ n ih =>
    obtain ⟨t, d', t', e', hturn, hturn', ht, hd', he'⟩ :=
      turn_alike h hd he a wildcards c limit limit' origin routine
    cases ht with
    | finished result => rw [run_succ_of_finished hturn, run_succ_of_finished hturn']
    | grown hg =>
      rw [run_succ_of_grown hturn, run_succ_of_grown hturn']
      exact ih hg hd' he'

end Limit

end Growth

namespace Analysis

/-- In a search that is never cancelled, looser options keep a success. A success without questions
stays the same under a higher limit, a wider scope and any answers to questions; those of another
dialogue may be fewer, and then it is the bounded decoder that leaves the search time enough. If
every answer is yes then all limits come to the same. -/
theorem grow_loosened (a : Analysis) (x : Int) (wildcards : Bool) {d : Dialogue}
    (hd : d.NeverCancelled) :
    (∀ (c : Bool) (limit : Int) (s : Signature),
      (a.grow ⟨wildcards, c, .bytes limit, false⟩ x d).1 = .ok s →
      ∀ (c' : Bool) (limit' : Int) (p : Bool), (c' = c ∨ c' = true) → limit ≤ limit' →
        (a.grow ⟨wildcards, c', .bytes limit', p⟩ x d).1 = .ok s ∧
        (a.decoder.Bounded → ∀ e : Dialogue, e.NeverCancelled →
          (a.grow ⟨wildcards, c', .bytes limit', p⟩ x e).1 = .ok s)) ∧
    (d.Agreeable → ∀ (c : Bool) (limit limit' : Int),
      (a.grow ⟨wildcards, c, .bytes limit, true⟩ x d).1 =
        (a.grow ⟨wildcards, c, .bytes limit', true⟩ x d).1) := by
  refine ⟨fun c limit s h c' limit' p hc hl => ?_, fun hy c limit limit' => ?_⟩
  · have ho := GrowthOptions.loosened wildcards p hc hl
    obtain ⟨hcode, d', hrun⟩ := grow_eq_ok_iff.mp h
    refine ⟨grow_eq_ok_iff.mpr ⟨hcode, Growth.run_loosened ho hrun hd⟩, fun hb e he => ?_⟩
    exact (grow_eq_ok_iff_run hb).mpr ⟨hcode, _, Growth.run_loosened ho hrun he⟩
  · unfold grow
    split
    · rfl
    · split
      · rfl
      · exact Growth.run_alike ⟨rfl, rfl⟩ hy hy

/-- Three instructions, of which the first two are within a limit of four bytes: the success stays the
same where questions would be refused, and under a limit that is exceeded after each instruction. -/
theorem grow_loosened_load :
    let image := Image.ofSegments [⟨".data", 0x2000, [0x55, 0x48, 0x89, 0xE5], false⟩,
      ⟨".text", 0x1000, [0x55, 0x48, 0x89, 0xE5, 0x8B, 5, 0, 0, 0, 0], true⟩] "metapc" 64 none
    let s : Signature := [0x55, 0x48, 0x89, 0xE5, 0x8B, 5].map (⟨·, false⟩)
    let refusing : Dialogue := { Dialogue.quiet with fallback := .no }
    ∃ a, ofImage image ⟨true, true, true⟩ = .ok a ∧ a.decoder.Bounded ∧
      Dialogue.quiet.Agreeable ∧ refusing.NeverCancelled ∧ (4 : Int) ≤ 1000 ∧
      (a.grow ⟨true, false, .bytes 4, false⟩ 0x1000 .quiet).1 = .ok s ∧
      (a.grow ⟨true, true, .bytes 1000, true⟩ 0x1000 .quiet).1 = .ok s ∧
      (a.grow ⟨true, true, .bytes 1000, true⟩ 0x1000 refusing).1 = .ok s ∧
      (a.grow ⟨true, false, .bytes 0, true⟩ 0x1000 .quiet).1 = .ok s := by
  intro image s refusing
  have hy := Dialogue.agreeable_quiet
  have he : refusing.NeverCancelled := ⟨hy.polls, rfl, rfl, hy.replies⟩
  have hg : ((ofDecoder image (.ofImage image .bits64) ⟨true, true, true⟩).grow
      ⟨true, false, .bytes 4, false⟩ 0x1000 .quiet).1 = .ok s := by cbv
  have hb : (ofDecoder image (.ofImage image .bits64) ⟨true, true, true⟩).decoder.Bounded :=
    Decoder.bounded_ofImage image .bits64
  obtain ⟨hloose, hlimit⟩ := grow_loosened
    (ofDecoder image (.ofImage image .bits64) ⟨true, true, true⟩) 0x1000 true hy.toNeverCancelled
  obtain ⟨hwide, hrefused⟩ := hloose false 4 s hg true 1000 true (Or.inr rfl) (by decide)
  obtain ⟨hasked, -⟩ := hloose false 4 s hg false 4 true (Or.inl rfl) (by decide)
  exact ⟨_, rfl, hb, hy, he, by decide, hg, hwide, hrefused hb refusing he,
    (hlimit hy false 0 4).trans hasked⟩

end Analysis

end CodeSignature
