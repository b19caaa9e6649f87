import CodeSignature.Proofs.Dialogue.Record
import CodeSignature.Proofs.Search.Ranking
import CodeSignature.Proofs.Workbench.Course
import Mathlib

/-! # What is shown of a ranking

The first signatures of a ranking are listed under a heading that tells their number, and the first one is
handed out to be copied. A number of signatures below one is taken as it is: it is told in the heading, a
negative one leaves signatures out at the end, and where none is left there is none to hand out.
-/

namespace CodeSignature

open Dialogue

namespace Share

variable {α : Type} {n : Int} {xs : List α}

theorem take_prefix (count : Int) (xs : List α) : take count xs <+: xs := List.take_prefix _ _

theorem take_min_of_nonneg (h : 0 ≤ n) (xs : List α) :
    take (min n xs.length) xs = xs.take n.toNat := by
  unfold take
  rw [if_neg (by omega), List.take_eq_take_iff]
  omega

theorem take_min_of_neg (h : n < 0) (xs : List α) :
    take (min n xs.length) xs = xs.take (n + xs.length).toNat := by
  unfold take
  rw [if_pos (by omega)]
  congr 1
  omega

theorem take_min_eq_nil_iff (hne : xs ≠ []) :
    take (min n xs.length) xs = [] ↔ n = 0 ∨ n + xs.length ≤ 0 := by
  have hpos := List.length_pos_iff.mpr hne
  rcases lt_or_ge n 0 with hn | hn
  · rw [take_min_of_neg hn, List.take_eq_nil_iff]
    simp only [hne, or_false]
    omega
  · rw [take_min_of_nonneg hn, List.take_eq_nil_iff]
    simp only [hne, or_false]
    omega

theorem length_take_min (h : 0 ≤ n) (xs : List α) :
    ((take (min n xs.length) xs).length : Int) = min n xs.length := by
  rw [take_min_of_nonneg h, List.length_take]
  omega

end Share

namespace Workbench

variable {w : Workbench} {settings : Settings} {dialect : Dialect} {ranking : List Ranked}
  {d e d' : Dialogue} {target n : Int} {texts : List String} {before : Nat}

theorem rankingHeading_inj {m n : Int} {available : Nat} :
    rankingHeading m available target = rankingHeading n available target ↔ m = n := by
  simp [rankingHeading]

def rankingLines (dialect : Dialect) (before : Nat) (ranking : List Ranked) :
    List (Level × String) :=
  (ranking.zipIdx (before + 1)).map fun (r, place) =>
    (.info, rankingLine place r.origin (dialect.render r.signature))

theorem fst_showRanked (dialect : Dialect) (before : Nat) (ranking : List Ranked) (d : Dialogue) :
    (showRanked dialect before ranking d).1 = ranking.map (dialect.render ·.signature) := by
  induction ranking generalizing before d with
  | nil => rfl
  | cons r rest ih => exact congrArg (dialect.render r.signature :: ·) (ih _ _)

theorem log_showRanked (h : d.threshold.rank ≤ Level.info.rank) (dialect : Dialect) (before : Nat)
    (ranking : List Ranked) :
    (showRanked dialect before ranking d).2.log = d.log ++ rankingLines dialect before ranking := by
  induction ranking generalizing before d with
  | nil => simp [showRanked, rankingLines]
  | cons r rest ih =>
    have hrest := ih (d := d.write .info (rankingLine (before + 1) r.origin
      (dialect.render r.signature))) (by rwa [threshold_write]) (before + 1)
    rw [log_write h, List.append_assoc] at hrest
    simpa [showRanked, rankingLines] using hrest

theorem copied_copy (w : Workbench) (text : String) (d : Dialogue) :
    (w.copy text d).copied =
      d.copied ++ if w.settings.enables .copyToClipboard then [text] else [] := by
  unfold copy
  split
  · split <;> rename_i heq <;> obtain ⟨-, rfl⟩ := Prod.mk.inj heq
    · simp [Dialogue.copied, record]
    · rw [copied_write]
      simp [Dialogue.copied, record]
  · simp

theorem log_copy (h : d.threshold.rank ≤ Level.info.rank) (w : Workbench) (text : String) :
    ∃ failures, (w.copy text d).log = d.log ++ failures ∧ ∀ line ∈ failures, line.1 = .error := by
  unfold copy
  split
  · have hlog : (d.copy text).2.log = d.log := by simp [Dialogue.copy, log, record, lineOf?]
    split <;> rename_i e heq <;> obtain rfl : (d.copy text).2 = e := congrArg Prod.snd heq
    · exact ⟨[], by rw [hlog, List.append_nil], by simp⟩
    · have hshown : (d.copy text).2.threshold.rank ≤ Level.error.rank := h.trans (by decide)
      exact ⟨_, by rw [log_write hshown, hlog], by simp⟩
  · exact ⟨[], (List.append_nil _).symm, by simp⟩

/-- What an action tells of a ranking: why there is none, that it is empty, or a front part of it under a
heading with the number of what is listed. After the list only errors are told. Of all that is listed the
first text is handed out, if that is wanted, and nothing else. -/
inductive Reports (settings : Settings) (dialect : Dialect) (target : Int) (d : Dialogue) :
    Except Failure (List Ranked) × Dialogue → List String × Dialogue → Prop where
  | failed {f : Failure} {e : Dialogue} : (writeFailure f e).copied = d.copied →
      Reports settings dialect target d (.error f, e) ([], writeFailure f e)
  | empty {e d' : Dialogue} : d' = e.write .info "No XREFs have been found for your address" →
      d'.copied = d.copied → Reports settings dialect target d (.ok [], e) ([], d')
  | listed {ranking : List Ranked} {texts : List String} {failures : List (Level × String)}
      {e d' : Dialogue} : ranking ≠ [] → texts <+: ranking.map (dialect.render ·.signature) →
      d'.log = e.log ++ (.info, rankingHeading texts.length ranking.length target) ::
        (rankingLines dialect 0 (ranking.take texts.length) ++ failures) →
      (∀ line ∈ failures, line.1 = .error) →
      d'.copied = d.copied ++
        (if settings.enables .copyToClipboard then texts.head?.toList else []) →
      Reports settings dialect target d (.ok ranking, e) (texts, d')

theorem Reports.exists_log_eq
    (h : Reports settings dialect target d (.ok ranking, e) (texts, d')) (hne : ranking ≠ []) :
    ∃ lines, d'.log = e.log ++ (.info, rankingHeading texts.length ranking.length target) ::
      lines := by
  cases h with
  | empty => exact absurd rfl hne
  | listed _ _ hlog _ _ => exact ⟨_, hlog⟩

theorem showRanking_of_nil (hcount : w.settings.get .referenceCount = .integer n)
    (h : Share.take (min n ranking.length) ranking = []) (target : Int) (d : Dialogue) :
    (w.showRanking target ranking d).1 = .error .noResult := by
  simp only [showRanking, hcount, Share.ofJson, h, showBest]

theorem exists_showRanking (hdialect : w.settings.dialect = .ok dialect)
    (hcount : w.settings.get .referenceCount = .integer n)
    (h : Share.take (min n ranking.length) ranking ≠ [])
    (hinfo : d.threshold.rank ≤ Level.info.rank) (target : Int) :
    let shown := Share.take (min n ranking.length) ranking
    let texts := shown.map (dialect.render ·.signature)
    ∃ d' failures, w.showRanking target ranking d = (.ok texts, d') ∧
      d'.log = d.log ++ (.info, rankingHeading (min n ranking.length) ranking.length target) ::
        (rankingLines dialect 0 shown ++ failures) ∧
      (∀ line ∈ failures, line.1 = .error) ∧
      d'.copied = d.copied ++
        if w.settings.enables .copyToClipboard then texts.head?.toList else [] := by
  intro shown texts
  obtain ⟨first, rest, hshown⟩ := List.exists_cons_of_ne_nil h
  let headed := d.write .info (rankingHeading (min n ranking.length) ranking.length target)
  let listed := (showRanked dialect 0 shown headed).2
  have hheaded : headed.threshold.rank ≤ Level.info.rank := by rwa [threshold_write]
  have hconsults : headed.Consults listed := consults_showRanked ..
  have hlisted : listed.threshold.rank ≤ Level.info.rank := by rwa [hconsults.threshold]
  obtain ⟨failures, hlog, hfailures⟩ := log_copy hlisted w (dialect.render first.signature)
  refine ⟨w.copy (dialect.render first.signature) listed, failures, ?_, ?_, hfailures, ?_⟩
  · have hbest : w.showRanking target ranking d = w.showBest shown headed := by
      simp only [showRanking, hcount, Share.ofJson, shown, headed]
    have htexts : (showRanked dialect 0 shown headed).1 = texts := fst_showRanked ..
    rw [hbest, ← htexts]
    simp only [showBest, hdialect, hshown, shown, listed]
  · rw [hlog, log_showRanked hheaded, log_write hinfo]
    simp
  · rw [copied_copy, hconsults.copied, copied_write]
    simp [texts, shown, hshown]

/-- A ranking with signatures is reported exactly if one signature at least is asked for. -/
theorem reports_showRanking_iff (hdialect : w.settings.dialect = .ok dialect)
    (hcount : w.settings.get .referenceCount = .integer n) (hne : ranking ≠ [])
    (hinfo : e.threshold.rank ≤ Level.info.rank) (hcopied : e.copied = d.copied) (target : Int) :
    (∃ texts d', w.showRanking target ranking e = (.ok texts, d') ∧
        Reports w.settings dialect target d (.ok ranking, e) (texts, d')) ↔ 1 ≤ n := by
  have hpos := List.length_pos_iff.mpr hne
  by_cases hnil : Share.take (min n ranking.length) ranking = []
  · have hnone := showRanking_of_nil hcount hnil target e
    have hn := (Share.take_min_eq_nil_iff hne).mp hnil
    refine ⟨?_, fun h => by omega⟩
    rintro ⟨texts, d', hshow, -⟩
    rw [hshow] at hnone
    cases hnone
  obtain ⟨d', failures, hshow, hlog, hfailures, htaken⟩ :=
    exists_showRanking hdialect hcount hnil hinfo target
  have hshown := List.length_pos_iff.mpr hnil
  constructor
  · rintro ⟨texts, e', hshow', hreports⟩
    obtain ⟨htexts, rfl⟩ := Prod.mk.inj (hshow.symm.trans hshow')
    obtain rfl := Except.ok.inj htexts
    obtain ⟨lines, hlog'⟩ := hreports.exists_log_eq hne
    have hlines := List.append_cancel_left (hlog.symm.trans hlog')
    have hheading := rankingHeading_inj.mp (Prod.mk.inj (List.cons.inj hlines).1).2
    rw [List.length_map] at hheading
    omega
  · intro hn
    have hlength := Share.length_take_min (Int.le_trans (by decide) hn) ranking
    have hleading := Share.take_prefix (min n ranking.length) ranking
    refine ⟨_, d', hshow, .listed hne (hleading.map _) ?_ hfailures ?_⟩
    · rw [List.length_map, hlength, ← List.prefix_iff_eq_take.mp hleading, hlog]
    · rw [htaken, hcopied]

theorem showRanking_listed (hdialect : w.settings.dialect = .ok dialect)
    (hcount : w.settings.get .referenceCount = .integer n) (hne : ranking ≠ [])
    (hinfo : e.threshold.rank ≤ Level.info.rank) (target : Int) :
    let action := w.showRanking target ranking e
    (1 ≤ n → action.1 = .ok ((ranking.take n.toNat).map (dialect.render ·.signature))) ∧
      (n = 0 ∨ n + ranking.length ≤ 0 → action.1 = .error .noResult) ∧
      (n < 0 → 0 < n + ranking.length →
        action.1 = .ok ((ranking.take (n + ranking.length).toNat).map
            (dialect.render ·.signature)) ∧
          (.info, rankingHeading n ranking.length target) ∈ action.2.log) := by
  intro action
  have hnil := Share.take_min_eq_nil_iff (n := n) hne
  refine ⟨fun hn => ?_, fun hn => showRanking_of_nil hcount (hnil.mpr hn) target e,
    fun hn hpos => ?_⟩
  · obtain ⟨d', failures, hshow, -⟩ :=
      exists_showRanking hdialect hcount (by rw [Ne, hnil]; omega) hinfo target
    rw [← Share.take_min_of_nonneg (Int.le_trans (by decide) hn)]
    exact congrArg Prod.fst hshow
  · obtain ⟨d', failures, hshow, hlog, -⟩ :=
      exists_showRanking hdialect hcount (by rw [Ne, hnil]; omega) hinfo target
    have hmin : min n (ranking.length : Int) = n := by omega
    rw [← Share.take_min_of_neg hn]
    refine ⟨congrArg Prod.fst hshow, ?_⟩
    rw [show action.2 = d' from congrArg Prod.snd hshow, hlog, hmin]
    exact List.mem_append_right _ List.mem_cons_self

end Workbench

theorem Analysis.rank_cases {a : Analysis} {image : Image} {h : Heuristics} {o : GrowthOptions}
    (ha : ofImage image h = .ok a) (hlimit : o.limit ≠ .unusable) (target : Int) (d : Dialogue) :
    (a.rank o target d).1 = .error .aborted ∨ ∃ ranking, (a.rank o target d).1 = .ok ranking := by
  obtain ⟨hsame, -⟩ := (a.rank_heeded o target d).heeds
  refine hsame.imp_right fun hresult => ?_
  obtain ⟨e, hrank, -⟩ :=
    exists_rank (bounded_of_ofImage ha) hlimit target d.neverCancelled_uncancelled
  exact ⟨_, hresult.trans (congrArg Prod.fst hrank)⟩

namespace Workbench

variable {a : Analysis} {settings : Settings} {dialect : Dialect} {ranking : List Ranked}
  {result : Except Failure (List Ranked)} {d e : Dialogue} {target n : Int}

theorem referenceSignatures_of_ok
    (hrank : a.rank settings.referenceOptions target d.resume = (.ok ranking, e))
    (hne : ranking ≠ []) :
    (⟨settings, some a⟩ : Workbench).referenceSignatures target d =
      (⟨settings, some a⟩ : Workbench).showRanking target ranking e := by
  obtain ⟨r, rest, rfl⟩ := List.exists_cons_of_ne_nil hne
  simp only [referenceSignatures, hrank]

theorem reports_of_none (dialect : Dialect)
    (hranked : a.rank settings.referenceOptions target d.resume = (result, e))
    (hnone : ∀ ranking, result = .ok ranking → ranking = [])
    (hfault : ∀ cause, result ≠ .error (.fault cause)) :
    ∃ d', (⟨settings, some a⟩ : Workbench).referenceSignatures target d = (.ok [], d') ∧
      Reports settings dialect target d (result, e) ([], d') := by
  have hcopied : e.copied = d.copied := by
    have hconsults := a.consults_rank settings.referenceOptions target d.resume
    rw [hranked] at hconsults
    exact hconsults.copied
  rcases result with f | ranking
  · refine ⟨writeFailure f e, ?_, .failed (by rw [writeFailure, copied_write, hcopied])⟩
    cases f with
    | fault cause => exact absurd rfl (hfault cause)
    | _ => simp only [referenceSignatures, hranked]
  · obtain rfl := hnone ranking rfl
    exact ⟨_, by simp only [referenceSignatures, hranked],
      .empty rfl (by rw [copied_write, hcopied])⟩

/-- The ranking of the code that refers to an address is reported exactly if it is aborted, it is empty, or
one signature at least is asked for. Otherwise a fault ends the action where no signature is left to
list, and where some are left the heading tells another number than theirs. -/
theorem reports_ranking_iff {image : Image} {h : Heuristics} (ha : Analysis.ofImage image h = .ok a)
    (hdialect : settings.dialect = .ok dialect)
    (hlimit : settings.referenceOptions.limit ≠ .unusable)
    (hcount : settings.get .referenceCount = .integer n)
    (hinfo : d.threshold.rank ≤ Level.info.rank) (target : Int) :
    let ranked := a.rank settings.referenceOptions target d.resume
    let action := (⟨settings, some a⟩ : Workbench).referenceSignatures target d
    ((∃ texts d', action = (.ok texts, d') ∧
        Reports settings dialect target d ranked (texts, d')) ↔
      ∀ ranking, ranked.1 = .ok ranking → ranking ≠ [] → 1 ≤ n) ∧
    ∀ ranking, ranked.1 = .ok ranking → ranking ≠ [] →
      (1 ≤ n → action.1 = .ok ((ranking.take n.toNat).map (dialect.render ·.signature))) ∧
      (n = 0 ∨ n + ranking.length ≤ 0 → action.1 = .error .noResult) ∧
      (n < 0 → 0 < n + ranking.length →
        action.1 = .ok ((ranking.take (n + ranking.length).toNat).map
            (dialect.render ·.signature)) ∧
          (.info, rankingHeading n ranking.length target) ∈ action.2.log) := by
  intro ranked action
  rcases hranked : ranked with ⟨result, e⟩
  have hcases := Analysis.rank_cases ha hlimit target d.resume
  have hconsults := a.consults_rank settings.referenceOptions target d.resume
  rw [show a.rank settings.referenceOptions target d.resume = (result, e) from hranked]
    at hcases hconsults
  by_cases hnone : ∀ ranking, result = .ok ranking → ranking = []
  · have hfault : ∀ cause, result ≠ .error (.fault cause) := by
      rintro cause rfl
      simp at hcases
    obtain ⟨d', haction, hreports⟩ := reports_of_none dialect hranked hnone hfault
    exact ⟨iff_of_true ⟨[], d', haction, hreports⟩ fun list hlist hne =>
        absurd (hnone list hlist) hne,
      fun list hlist hne => absurd (hnone list hlist) hne⟩
  · push Not at hnone
    obtain ⟨ranking, rfl, hne⟩ := hnone
    have hinfo' : e.threshold.rank ≤ Level.info.rank := by
      rw [hconsults.threshold]
      exact hinfo
    have haction : action = (⟨settings, some a⟩ : Workbench).showRanking target ranking e :=
      referenceSignatures_of_ok hranked hne
    rw [haction]
    constructor
    · have hiff := reports_showRanking_iff (w := ⟨settings, some a⟩) hdialect hcount hne hinfo'
        (d := d) hconsults.copied target
      exact hiff.trans ⟨fun hn _ _ _ => hn, fun hn => hn ranking rfl hne⟩
    · rintro _ ⟨⟩ -
      exact showRanking_listed hdialect hcount hne hinfo' target

/-- A call and a jump are ranked, and one of them is asked for. -/
theorem reports_ranking_iff_call :
    let image := Image.flat [0xE8, 5, 0, 0, 0, 0xE9, 0, 0, 0, 0, 0xC3] 0x1000 true "metapc" 64
    let settings := Settings.defaults.set .referenceCount (.integer 1)
    let ranking : List Ranked := [⟨0x1000, [⟨0xE8, false⟩]⟩, ⟨0x1005, [⟨0xE9, false⟩]⟩]
    ∃ a d', Analysis.ofImage image settings.heuristics = .ok a ∧
      settings.dialect = .ok .ida ∧ settings.referenceOptions.limit ≠ .unusable ∧
      settings.get .referenceCount = .integer 1 ∧ quiet.threshold.rank ≤ Level.info.rank ∧
      (a.rank settings.referenceOptions 0x100A quiet.resume).1 = .ok ranking ∧
      (⟨settings, some a⟩ : Workbench).referenceSignatures 0x100A .quiet = (.ok ["E8"], d') ∧
      Reports settings .ida 0x100A .quiet (a.rank settings.referenceOptions 0x100A quiet.resume)
        (["E8"], d') := by
  intro image settings ranking
  let a := Analysis.ofDecoder image (.ofImage image .bits64) ⟨true, true, true⟩
  have hheuristics : settings.heuristics = ⟨true, true, true⟩ := by cbv
  have hoptions : settings.referenceOptions = ⟨true, false, .bytes 250, false⟩ := by cbv
  have ha : Analysis.ofImage image settings.heuristics = .ok a := by rw [hheuristics]; rfl
  have hdialect : settings.dialect = .ok .ida := by cbv
  have hlimit : settings.referenceOptions.limit ≠ .unusable := by simp [hoptions]
  have hcount : settings.get .referenceCount = .integer 1 := by cbv
  have hinfo : quiet.threshold.rank ≤ Level.info.rank := by decide
  have hranking : (a.rank settings.referenceOptions 0x100A quiet.resume).1 = .ok ranking := by
    rw [hoptions]
    cbv
  obtain ⟨hiff, hlisted⟩ := reports_ranking_iff ha hdialect hlimit hcount hinfo 0x100A
  obtain ⟨texts, d', haction, hreports⟩ := hiff.mpr fun _ _ _ => Int.le_refl 1
  have htexts : Except.ok texts = .ok ["E8"] :=
    (congrArg Prod.fst haction).symm.trans <|
      ((hlisted ranking hranking (by simp [ranking])).1 (Int.le_refl 1)).trans (by cbv)
  obtain rfl := Except.ok.inj htexts
  exact ⟨a, d', ha, hdialect, hlimit, hcount, hinfo, hranking, haction, hreports⟩

/-- No signature at all is asked for, and the first one is missed. -/
theorem not_reports_of_count_zero :
    let image := Image.flat [0xE8, 5, 0, 0, 0, 0xE9, 0, 0, 0, 0, 0xC3] 0x1000 true "metapc" 64
    let settings := Settings.defaults.set .referenceCount (.integer 0)
    ∃ a, Analysis.ofImage image settings.heuristics = .ok a ∧ settings.dialect = .ok .ida ∧
      settings.referenceOptions.limit = .bytes 250 ∧
      ((⟨settings, some a⟩ : Workbench).referenceSignatures 0x100A .quiet).1 =
        .error .noResult := by
  intro image settings
  let a := Analysis.ofDecoder image (.ofImage image .bits64) ⟨true, true, true⟩
  have hheuristics : settings.heuristics = ⟨true, true, true⟩ := by cbv
  have hoptions : settings.referenceOptions = ⟨true, false, .bytes 250, false⟩ := by cbv
  have hcount : settings.get .referenceCount = .integer 0 := by cbv
  refine ⟨a, by rw [hheuristics]; rfl, by cbv, by rw [hoptions], ?_⟩
  have hrank : (a.rank settings.referenceOptions 0x100A quiet.resume).1 =
      .ok [⟨0x1000, [⟨0xE8, false⟩]⟩, ⟨0x1005, [⟨0xE9, false⟩]⟩] := by
    rw [hoptions]
    cbv
  rw [referenceSignatures_of_ok (Prod.ext hrank rfl) (by simp)]
  exact showRanking_of_nil hcount rfl _ _

end Workbench

end CodeSignature
