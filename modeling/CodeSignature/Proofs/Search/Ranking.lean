import CodeSignature.Proofs.Decoder.Sweep
import CodeSignature.Proofs.Listing.Reference
import CodeSignature.Proofs.Search.Cancellation
import CodeSignature.Proofs.Search.Loosening
import Mathlib

/-! # What a ranking lists

A search without questions in a dialogue that is not cancelled ends with a signature or with a
failure that only costs its own reference, and which signature it finds does not depend on the
dialogue. So a ranking works through all references in the order of their addresses, and a stable
sort by length puts the results in order.
-/

namespace CodeSignature

open Dialogue

/-- Shorter signatures come first, and of equally long ones that of the lower address. -/
def Ranked.Before (r r' : Ranked) : Prop :=
  r.signature.length < r'.signature.length ∨
    r.signature.length = r'.signature.length ∧ r.origin < r'.origin

def Tolerated {α : Type} : Except Failure α → Prop
  | .ok _ => True
  | .error f => f.endsRanking = false

theorem GrowthOptions.Loosened.refl {o : GrowthOptions} (ho : o.prompt = false) :
    o.Loosened o where
  wildcards := rfl
  outside := id
  limit _ h := h
  prompt := ho

namespace Growth

def Turn.Tolerated : Turn → Prop
  | .finished result => CodeSignature.Tolerated result
  | .grown _ => True

variable {a : Analysis} {o : GrowthOptions} {origin : Int} {routine : Option Routine} {n : Nat}
  {g : Growth} {d : Dialogue}

theorem atEnd_tolerated (hd : d.NeverCancelled) (origin : Int) (g : Growth) :
    d.Advances [] (g.atEnd origin d).2 ∧ (g.atEnd origin d).1.endsRanking = false := by
  unfold atEnd
  split
  · exact ⟨hd.advances, rfl⟩
  · exact ⟨(hd.advances_write _ _).trans ((hd.write _ _).advances_write _ _), rfl⟩

theorem allow_cases (ho : o.prompt = false) (hlimit : o.limit ≠ .unusable) (origin : Int)
    (g : Growth) (d : Dialogue) :
    g.allow o origin d = (.ok g, d) ∨ g.allow o origin d = (.error .lengthExceeded, d) := by
  unfold allow
  split
  next cause hexceeded =>
    exfalso
    unfold Limit.exceeded at hexceeded
    split at hexceeded
    · cases hexceeded
    · cases hexceeded
    · contradiction
  next => exact .inl rfl
  next => simp [ho]

theorem judge_tolerated (a : Analysis) (o : GrowthOptions) (routine : Option Routine)
    (g : Growth) : (judge a o routine g).Tolerated := by
  rcases hjudge : judge a o routine g with (f | s) | g'
  · rcases judge_cases hjudge with rfl | rfl <;> rfl
  · trivial
  · trivial

section Tolerated

variable (ho : o.prompt = false) (hlimit : o.limit ≠ .unusable)
include ho hlimit

theorem turn_tolerated (hd : d.NeverCancelled) (a : Analysis) (origin : Int)
    (routine : Option Routine) (g : Growth) :
    d.Advances [] (turn a o origin routine g d).2 ∧
      (turn a o origin routine g d).1.Tolerated := by
  obtain ⟨e, hpoll, he⟩ := hd.exists_advances_poll
  simp only [turn, hpoll]
  cases a.decoder.decode? g.address with
  | none =>
    obtain ⟨hend, htolerated⟩ := atEnd_tolerated he.never origin g
    exact ⟨he.trans hend, htolerated⟩
  | some i =>
    rcases allow_cases ho hlimit origin g e with hallow | hallow
    · simp only [hallow]
      exact ⟨he.trans (he.never.advances_write _ _), judge_tolerated ..⟩
    · simp only [hallow]
      exact ⟨he, rfl⟩

theorem run_tolerated (hd : d.NeverCancelled) (a : Analysis) (origin : Int)
    (routine : Option Routine) (n : Nat) (g : Growth) :
    d.Advances [] (run a o origin routine n g d).2 ∧
      Tolerated (run a o origin routine n g d).1 := by
  induction n generalizing g d with
  | zero =>
    obtain ⟨e, hpoll, he⟩ := hd.exists_advances_poll
    obtain ⟨hend, htolerated⟩ := atEnd_tolerated he.never origin g
    rw [run_zero, hpoll]
    exact ⟨he.trans hend, htolerated⟩
  | succ n ih =>
    obtain ⟨hadvances, htolerated⟩ := turn_tolerated ho hlimit hd a origin routine g
    rw [run_succ]
    rcases hturn : turn a o origin routine g d with ⟨result | g', e⟩
    · rw [hturn] at hadvances htolerated
      exact ⟨hadvances, htolerated⟩
    · rw [hturn] at hadvances
      obtain ⟨hrest, htolerated⟩ := ih hadvances.never g'
      exact ⟨hadvances.trans hrest, htolerated⟩

end Tolerated

end Growth

namespace Analysis

variable {a : Analysis} {o : GrowthOptions} {x : Int} {d e : Dialogue} {s : Signature}

theorem grow_tolerated (ho : o.prompt = false) (hlimit : o.limit ≠ .unusable)
    (hd : d.NeverCancelled) (a : Analysis) (x : Int) :
    d.Advances [] (a.grow o x d).2 ∧ Tolerated (a.grow o x d).1 := by
  unfold grow
  split
  · exact ⟨hd.advances, rfl⟩
  · split
    · exact ⟨hd.advances, rfl⟩
    · exact Growth.run_tolerated ho hlimit hd ..

theorem grow_ok_congr (hb : a.decoder.Bounded) (ho : o.prompt = false) (hd : d.NeverCancelled)
    (he : e.NeverCancelled) : (a.grow o x d).1 = .ok s ↔ (a.grow o x e).1 = .ok s := by
  have himp : ∀ {d e : Dialogue}, e.NeverCancelled →
      (a.grow o x d).1 = .ok s → (a.grow o x e).1 = .ok s := by
    intro d e he h
    obtain ⟨hcode, n, d', hrun⟩ := (grow_eq_ok_iff_run hb).mp h
    exact (grow_eq_ok_iff_run hb).mpr ⟨hcode, n, Growth.run_loosened (.refl ho) hrun he⟩
  exact ⟨himp he, himp hd⟩

/-- A reference with its signature, if a search without cancellation finds one. -/
def ranked? (a : Analysis) (o : GrowthOptions) (origin : Int) : Option Ranked :=
  match (a.grow o origin .quiet).1 with
  | .ok s => some ⟨origin, s⟩
  | .error _ => none

theorem ranked?_eq_some_iff {r : Ranked} :
    a.ranked? o x = some r ↔ r.origin = x ∧ (a.grow o x .quiet).1 = .ok r.signature := by
  unfold ranked?
  cases (a.grow o x .quiet).1 with
  | error f => simp
  | ok s =>
    constructor
    · rintro ⟨⟩
      exact ⟨rfl, rfl⟩
    · rintro ⟨rfl, ⟨⟩⟩
      rfl

theorem advances_writeSkipped (hd : d.NeverCancelled) (origin : Int) (f : Failure) :
    d.Advances [] (writeSkipped origin f d) := hd.advances_write _ _

section WithoutQuestions

variable (hb : a.decoder.Bounded) (ho : o.prompt = false) (hlimit : o.limit ≠ .unusable)
include hb ho hlimit

theorem exists_grow_progress (hd : d.NeverCancelled) (x : Int) (current total : Nat) :
    ∃ e result e', d.poll = (false, e) ∧ a.grow o x (e.progress current total) = (result, e') ∧
      d.Advances [(current, total)] e' ∧ Tolerated result ∧
      ∀ s, result = .ok s ↔ a.ranked? o x = some ⟨x, s⟩ := by
  obtain ⟨e, hpoll, he⟩ := hd.exists_advances_poll
  have hprogress := he.never.advances_progress current total
  obtain ⟨hadvances, htolerated⟩ := grow_tolerated ho hlimit hprogress.never a x
  refine ⟨e, (a.grow o x (e.progress current total)).1, _, hpoll, rfl,
    he.trans (hprogress.trans hadvances), htolerated, ?_⟩
  intro s
  rw [grow_ok_congr hb ho hprogress.never neverCancelled_quiet, ranked?_eq_some_iff]
  simp

theorem exists_growEach (total : Nat) (origins : List Int) (done : Nat) (hd : d.NeverCancelled) :
    ∃ d', a.growEach o total done origins d = (.ok (origins.filterMap (a.ranked? o)), d') ∧
      d.Advances ((List.range' (done + 1) origins.length).map fun k => (k, total)) d' := by
  induction origins generalizing done d with
  | nil => exact ⟨d, rfl, hd.advances⟩
  | cons origin rest ih =>
    obtain ⟨e, result, e', hpoll, hgrow, hfirst, htolerated, hranked⟩ :=
      exists_grow_progress hb ho hlimit hd origin (done + 1) total
    simp only [growEach, hpoll, hgrow]
    rcases result with f | s
    · -- A reference without a signature only leaves a log line.
      have hnone : a.ranked? o origin = none := by
        refine Option.eq_none_iff_forall_ne_some.mpr ?_
        rintro r hr
        obtain ⟨rfl, -⟩ := ranked?_eq_some_iff.mp hr
        cases (hranked r.signature).mpr hr
      have hskipped := advances_writeSkipped hfirst.never origin f
      obtain ⟨d', hrest, hreports⟩ := ih (done + 1) hskipped.never
      refine ⟨d', ?_, hfirst.trans (hskipped.trans hreports)⟩
      rw [List.filterMap_cons_none hnone, ← hrest]
      exact if_neg (by simpa [Tolerated] using htolerated)
    · obtain ⟨d', hrest, hreports⟩ := ih (done + 1) hfirst.never
      refine ⟨d', ?_, hfirst.trans hreports⟩
      rw [List.filterMap_cons_some ((hranked s).mp rfl)]
      exact congrArg (consRanked ⟨origin, s⟩) hrest

end WithoutQuestions

/-- A ranking that is not cancelled orders what searches without questions find. -/
theorem exists_rank (hb : a.decoder.Bounded) (hlimit : o.limit ≠ .unusable) (target : Int)
    (hd : d.NeverCancelled) :
    ∃ d', a.rank o target d =
        (.ok (ordered ((a.codeOrigins target).filterMap
          (a.ranked? { o with prompt := false }))), d') ∧
      d.Advances ((List.range' 1 (a.codeOrigins target).length).map
        fun k => (k, (a.codeOrigins target).length)) d' := by
  obtain ⟨d', heach, hadvances⟩ := exists_growEach (o := { o with prompt := false }) hb rfl hlimit
    (a.codeOrigins target).length (a.codeOrigins target) 0 hd
  exact ⟨d', by rw [rank, heach], hadvances⟩

theorem pairwise_filterMap_ranked? {origins : List Int} (h : origins.Pairwise (· < ·)) :
    (origins.filterMap (a.ranked? o)).Pairwise fun r r' => r.origin < r'.origin := by
  refine List.pairwise_filterMap.mpr (h.imp ?_)
  intro x y hxy r hr r' hr'
  rwa [(ranked?_eq_some_iff.mp hr).1, (ranked?_eq_some_iff.mp hr').1]

theorem nodup_ordered {results : List Ranked}
    (h : results.Pairwise fun r r' => r.origin < r'.origin) :
    ((ordered results).map (·.origin)).Nodup := by
  have hnodup : (results.map (·.origin)).Nodup := List.pairwise_map.mpr (h.imp Int.ne_of_lt)
  exact ((List.mergeSort_perm results _).map _).nodup_iff.mpr hnodup

theorem pairwise_ordered {results : List Ranked}
    (h : results.Pairwise fun r r' => r.origin < r'.origin) :
    (ordered results).Pairwise Ranked.Before := by
  unfold ordered
  refine List.Pairwise.imp ?_ (Sequence.pairwise_mergeSort_stable ?_ ?_ h)
  · intro r r' hr
    simp only [Ranked.noLonger, decide_eq_true_eq] at hr
    unfold Ranked.Before
    omega
  · intro x y z
    simp only [Ranked.noLonger, decide_eq_true_eq]
    omega
  · intro x y
    simp only [Ranked.noLonger, Bool.or_eq_true, decide_eq_true_eq]
    omega

section OfImage

variable {image : Image} {h : Heuristics} {target : Int}

theorem bounded_of_ofImage (ha : ofImage image h = .ok a) : a.decoder.Bounded := by
  obtain ⟨-, rfl⟩ := eq_of_ofImage ha
  exact Decoder.bounded_ofImage ..

theorem codeOrigins_eq (hi : image.Separated) (ha : ofImage image h = .ok a)
    (hlow : image.lowest ≤ target) (hhigh : target < image.highest) :
    a.codeOrigins target = (a.decoder.listing.filter (·.refersTo target)).map (·.address) := by
  obtain ⟨-, rfl⟩ := eq_of_ofImage ha
  have hlaid := Decoder.laid_listing hi (Decoder.modeOf image)
  have hrange : inRange (some (image.lowest, image.highest)) target = true := by
    simp [inRange, hlow, hhigh]
  rw [codeOrigins]
  dsimp only [ofDecoder]
  rw [hlaid.origins_references hrange]
  refine List.filter_eq_self.mpr ?_
  intro x hx
  obtain ⟨i, hmem, rfl⟩ := List.mem_map.mp hx
  exact Decoder.isCode_of_mem_listing hi (List.mem_filter.mp hmem).1

theorem pairwise_codeOrigins (hi : image.Separated) (ha : ofImage image h = .ok a)
    (hlow : image.lowest ≤ target) (hhigh : target < image.highest) :
    (a.codeOrigins target).Pairwise (· < ·) := by
  rw [codeOrigins_eq hi ha hlow hhigh]
  obtain ⟨-, rfl⟩ := eq_of_ofImage ha
  exact (Decoder.laid_listing hi _).pairwise_addresses.sublist (List.filter_sublist.map _)

/-- A ranking that is not cancelled, with a number as its limit, lists exactly the pairs of an
instruction that refers to the target and the signature that a search without questions finds at it.
Each instruction is listed once, in the order of the lengths and addresses. Nothing is asked, and all
the instructions that refer to the target are counted in the progress. -/
theorem rank_complete (hi : image.Separated) (ha : ofImage image h = .ok a)
    (hd : d.NeverCancelled) (hlow : image.lowest ≤ target) (hhigh : target < image.highest)
    (hlimit : o.limit ≠ .unusable) :
    let total := (a.decoder.listing.filter (·.refersTo target)).length
    ∃ results d', a.rank o target d = (.ok results, d') ∧
      (∀ e : Dialogue, e.NeverCancelled → ∀ r, r ∈ results ↔
        (∃ i ∈ a.decoder.listing, i.address = r.origin ∧ i.refersTo target = true) ∧
          (a.grow { o with prompt := false } r.origin e).1 = .ok r.signature) ∧
      (results.map (·.origin)).Nodup ∧ results.Pairwise Ranked.Before ∧ d'.asked = d.asked ∧
      (d.progressLabel = none →
        d'.progressed = d.progressed ++ (List.range' 1 total).map fun k => (k, total)) := by
  intro total
  have hb := bounded_of_ofImage ha
  have horigins := codeOrigins_eq hi ha hlow hhigh
  have hlength : (a.codeOrigins target).length = total := by rw [horigins, List.length_map]
  obtain ⟨d', hrank, hadvances⟩ := exists_rank hb hlimit target hd
  have hfound := pairwise_filterMap_ranked? (a := a) (o := { o with prompt := false })
    (pairwise_codeOrigins hi ha hlow hhigh)
  refine ⟨_, d', hrank, ?_, nodup_ordered hfound, pairwise_ordered hfound, hadvances.asked, ?_⟩
  · intro e he r
    rw [mem_ordered, List.mem_filterMap, grow_ok_congr hb rfl he neverCancelled_quiet, horigins]
    simp only [ranked?_eq_some_iff, List.mem_map, List.mem_filter]
    constructor
    · rintro ⟨x, ⟨i, ⟨hmem, hrefers⟩, hx⟩, hr, hs⟩
      rw [hr]
      exact ⟨⟨i, hmem, hx, hrefers⟩, hs⟩
    · rintro ⟨⟨i, hmem, hx, hrefers⟩, hs⟩
      exact ⟨r.origin, ⟨i, ⟨hmem, hrefers⟩, hx⟩, rfl, hs⟩
  · intro hlabel
    rw [hadvances.progressed hlabel, hlength]

/-- Three references to a function. The shortest signature is that of the second one, and the last
one has none. -/
theorem rank_complete_calls :
    let image := Image.flat [0xE8, 0xFB, 0xFF, 0xFF, 0xFF, 0x68, 0, 0x10, 0, 0, 0xE8, 0xF1, 0xFF,
      0xFF, 0xFF] 0x1000 true "metapc" 64
    let o : GrowthOptions := ⟨true, true, .bytes 250, true⟩
    let results : List Ranked := [⟨0x1005, [⟨0x68, false⟩]⟩, ⟨0x1000, [⟨0xE8, false⟩, ⟨0xFB, true⟩,
      ⟨0xFF, true⟩, ⟨0xFF, true⟩, ⟨0xFF, true⟩, ⟨0x68, false⟩]⟩]
    ∃ a d', image.Separated ∧ ofImage image ⟨true, true, true⟩ = .ok a ∧
      Dialogue.quiet.NeverCancelled ∧ image.lowest ≤ 0x1000 ∧ 0x1000 < image.highest ∧
      o.limit ≠ .unusable ∧ a.rank o 0x1000 .quiet = (.ok results, d') ∧
      (results.map (·.origin)).Nodup ∧ results.Pairwise Ranked.Before ∧ d'.asked = [] ∧
      d'.progressed = [(1, 3), (2, 3), (3, 3)] := by
  intro image o results
  let a := ofDecoder image (.ofImage image .bits64) ⟨true, true, true⟩
  have hi : image.Separated := Image.separated_flat (by decide) ..
  have ha : ofImage image ⟨true, true, true⟩ = .ok a := rfl
  have hlowest : image.lowest = 0x1000 := by cbv
  have hhighest : image.highest = 0x100F := by cbv
  have hlow : image.lowest ≤ 0x1000 := by omega
  have hhigh : 0x1000 < image.highest := by omega
  have hlimit : o.limit ≠ .unusable := by simp [o]
  have hd := Dialogue.neverCancelled_quiet
  have horigins : a.codeOrigins 0x1000 = [0x1000, 0x1005, 0x100A] := by cbv
  have hfirst : a.ranked? { o with prompt := false } 0x1000 = results[1]? := by cbv
  have hsecond : a.ranked? { o with prompt := false } 0x1005 = results[0]? := by cbv
  have hthird : a.ranked? { o with prompt := false } 0x100A = none := by cbv
  have hsorted : ordered ((a.codeOrigins 0x1000).filterMap
      (a.ranked? { o with prompt := false })) = results := by
    rw [horigins, List.filterMap_cons_some hfirst, List.filterMap_cons_some hsecond,
      List.filterMap_cons_none hthird]
    cbv
  have htotal : (a.decoder.listing.filter (·.refersTo 0x1000)).length = 3 := by
    have hlength := congrArg List.length (codeOrigins_eq hi ha hlow hhigh)
    rwa [horigins, List.length_map, eq_comm] at hlength
  obtain ⟨_, hranked, -⟩ := exists_rank (bounded_of_ofImage ha) hlimit 0x1000 hd
  rw [hsorted] at hranked
  obtain ⟨found, d', hrank, -, hnodup, hbefore, hasked, hprogressed⟩ :=
    rank_complete hi ha hd hlow hhigh hlimit
  rw [htotal] at hprogressed
  obtain ⟨rfl, -⟩ : found = results ∧ _ := by simpa [hrank] using hranked
  exact ⟨a, d', hi, ha, hd, hlow, hhigh, hlimit, hrank, hnodup, hbefore, hasked, hprogressed rfl⟩

end OfImage

end Analysis

end CodeSignature
