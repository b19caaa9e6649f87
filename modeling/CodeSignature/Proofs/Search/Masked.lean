import CodeSignature.Proofs.Dialogue.Wording
import CodeSignature.Proofs.Search.Delivery

/-! # Growing with and without wildcards

Wherever the literal signature of a walk occurs, so does the masked one. So two searches from one
address, of which one masks operands and the other does not, take the same turns until the literal
signature occurs once, which is no later than the masked one does.
-/

namespace CodeSignature

namespace Signature

variable {s t : Signature} {bytes : List UInt8}

theorem pattern_eq_map_values (h : ∀ c ∈ s, c.wildcard = false) :
    s.pattern = s.values.map some := by
  rw [pattern, values, List.map_map]
  refine List.map_congr_left fun c hc => ?_
  simp [h c hc]

theorem matchesFront_of_values (h : s.values <+: bytes) :
    s.pattern.matchesFront bytes = true := by
  have hlength : s.length ≤ bytes.length := s.length_values ▸ h.length_le
  have htake : s.values = bytes.take s.length := by
    rw [← s.length_values]
    exact List.prefix_iff_eq_take.mp h
  have hagree : Agrees (s ++ []) bytes := Agrees.append htake (agrees_nil _)
  rw [List.append_nil] at hagree
  exact hagree.matchesFront_iff.mpr hlength

theorem mem_occurrences_of_literal {image : Image} {x : Int} (hv : s.values = t.values)
    (ht : ∀ c ∈ t, c.wildcard = false) (hx : x ∈ image.occurrences t.pattern) :
    x ∈ image.occurrences s.pattern := by
  obtain ⟨u, hu, hc, hm⟩ := Image.mem_occurrences_iff.mp hx
  rw [pattern_eq_map_values ht, Pattern.matchesFront_literals, ← hv] at hm
  exact Image.mem_occurrences_iff.mpr ⟨u, hu, hc, matchesFront_of_values hm⟩

end Signature

namespace Analysis

variable {a : Analysis} {x y : Int} {is : List Instruction} {t : Segment}
  (hb : a.BuiltIn) (hi : a.image.Separated)
include hb hi

theorem values_cellsOf (hw : a.decoder.Walk x is y) (wildcards : Bool) :
    (a.cellsOf wildcards is).values = is.flatMap (·.bytes) := by
  induction hw with
  | nil => rfl
  | cons hd _ ih =>
    rw [cellsOf_cons, Signature.values_append, ih, cells_eq_masked hb hi hd,
      Instruction.values_masked, List.flatMap_cons]

/-- If a walk cannot leave its segment, then its literal signature occurs once where the masked one
does. -/
theorem occursOnce_literal (ht : t ∈ a.image.segments) (hc : t.contains x = true)
    (hend : ∀ u ∈ a.image.segments, u.start ≠ t.stop) (hw : a.decoder.Walk x is y)
    (honce : a.image.occursOnce (a.cellsOf true is).pattern = true) :
    a.image.occursOnce (a.cellsOf false is).pattern = true := by
  have hstop : y ≤ t.stop := by
    obtain ⟨mode, hd⟩ := hb.decoder
    rw [hd] at hw
    exact hw.le_stop hi ht hend hc
  have hstart : ∀ wildcards, x ∈ a.image.occurrences (a.cellsOf wildcards is).pattern := by
    intro wildcards
    have hlen := length_cellsOf hb hi hw wildcards
    exact (mem_occurrences_start_iff hb hi ht hc hw (List.prefix_refl _)).mpr (by omega)
  obtain ⟨z, hz⟩ := Image.occursOnce_iff.mp honce
  have hx : x = z := by simpa [hz] using hstart true
  refine Image.occursOnce_iff.mpr ⟨x, Sequence.eq_singleton_of_pairwise
    (hi.pairwise_occurrences _) (hstart false) fun m hm => ?_⟩
  have hvalues := (values_cellsOf hb hi hw true).trans (values_cellsOf hb hi hw false).symm
  have hmasked := Signature.mem_occurrences_of_literal hvalues
    (fun c => literal_of_mem_cellsOf) hm
  rw [hz, List.mem_singleton] at hmasked
  rw [hmasked, hx]

end Analysis

namespace Growth

/-- Two searches after the same instructions, the second one without wildcards. -/
structure Beside (a : Analysis) (x : Int) (g g' : Growth) : Prop where
  address : g'.address = g.address
  part : g'.part = g.part
  walk : ∃ is, a.decoder.Walk x is g.address ∧ g.cells = a.cellsOf true is ∧
    g'.cells = a.cellsOf false is

variable {a : Analysis} {x origin : Int} {o : GrowthOptions} {routine : Option Routine} {n : Nat}
  {g g' g₁ : Growth} {d d' e : Dialogue} {s : Signature} {i : Instruction} {t : Segment}

theorem beside_start (a : Analysis) (x : Int) : Beside a x (.start x) (.start x) where
  address := rfl
  part := rfl
  walk := ⟨[], .nil x, rfl, rfl⟩

theorem Beside.eq_of_decode? {j : Instruction} (h : Beside a x g g')
    (hdec : a.decoder.decode? g.address = some i)
    (hdec' : a.decoder.decode? g'.address = some j) : i = j := by
  rw [h.address, hdec] at hdec'
  exact Option.some.inj hdec'

theorem Beside.append (h : Beside a x g g') (hdec : a.decoder.decode? g.address = some i) :
    Beside a x (g.append a true i) (g'.append a false i) := by
  obtain ⟨is, hw, hcells, hcells'⟩ := h.walk
  refine ⟨?_, ?_, is ++ [i], hw.append (.single hdec), ?_, ?_⟩
  · rw [Growth.append, Growth.append, h.address]
  · rw [Growth.append, Growth.append, h.part]
  · rw [Growth.append, hcells, Analysis.cellsOf_append]
    simp [Analysis.cellsOf]
  · rw [Growth.append, hcells', Analysis.cellsOf_append]
    simp [Analysis.cellsOf]

section BuiltIn

variable (hb : a.BuiltIn) (hi : a.image.Separated)
include hb hi

theorem Beside.length_cells (h : Beside a x g g') : g'.cells.length = g.cells.length := by
  obtain ⟨is, hw, hcells, hcells'⟩ := h.walk
  have hlen := Analysis.length_cellsOf hb hi hw true
  have hlen' := Analysis.length_cellsOf hb hi hw false
  rw [hcells, hcells']
  omega

theorem Beside.exists_allow_eq (h : Beside a x g g') (hd : e.unworded = d.unworded)
    (hallow : g.allow o origin d = (.ok g₁, d')) :
    ∃ g₁' e', g'.allow o origin e = (.ok g₁', e') ∧ e'.unworded = d'.unworded ∧
      Beside a x g₁ g₁' := by
  unfold allow at hallow ⊢
  rw [h.part, h.length_cells hb hi]
  split at hallow
  · simp at hallow
  · obtain ⟨rfl, rfl⟩ : g = g₁ ∧ d = d' := by simpa using hallow
    exact ⟨g', e, rfl, hd, h⟩
  · split at hallow
    next hprompt =>
      have hask := Dialogue.ask_corresponds hd (question g.cells.length)
      rcases ha : d.ask (question g.cells.length) with ⟨answer, d₁⟩
      rw [ha] at hask hallow
      obtain ⟨e₁, ha', hd₁⟩ := hask.exists_eq
      rw [if_pos hprompt, ha']
      cases answer with
      | yes =>
        obtain ⟨rfl, rfl⟩ : { g with part := 0 } = g₁ ∧ d₁ = d' := by
          simpa [afterAnswer] using hallow
        exact ⟨{ g' with part := 0 }, e₁, rfl, hd₁, h.address, rfl, h.walk⟩
      | no => simp [afterAnswer] at hallow
      | cancel => simp [afterAnswer] at hallow
    · simp at hallow

variable (ht : t ∈ a.image.segments) (hc : t.contains x = true)
  (hend : ∀ u ∈ a.image.segments, u.start ≠ t.stop)
include ht hc hend

theorem Beside.judge (h : Beside a x g g')
    (hjudge : ∀ f, judge a { o with wildcards := true } routine g ≠ .finished (.error f)) :
    judge a { o with wildcards := false } routine g' = .finished (.ok g'.cells.trim) ∨
      judge a { o with wildcards := true } routine g = .grown g ∧
        judge a { o with wildcards := false } routine g' = .grown g' := by
  obtain ⟨is, hw, hcells, hcells'⟩ := h.walk
  have hne : g'.cells ≠ [] := by
    intro hnil
    have hlength := h.length_cells hb hi
    rw [hnil, eq_comm, List.length_nil, List.length_eq_zero_iff] at hlength
    exact hjudge .emptyPattern (by simp [Growth.judge, hlength])
  cases honce' : a.image.occursOnce g'.cells.pattern with
  | true => exact Or.inl (judge_eq_ok_iff.mpr ⟨hne, honce', rfl⟩)
  | false =>
    right
    rcases hj : Growth.judge a { o with wildcards := true } routine g with (f | s) | g₁
    · exact absurd hj (hjudge f)
    · obtain ⟨-, honce, -⟩ := judge_eq_ok_iff.mp hj
      rw [hcells] at honce
      rw [hcells', Analysis.occursOnce_literal hb hi ht hc hend hw honce] at honce'
      cases honce'
    · obtain ⟨rfl, -, -, hstay⟩ := judge_eq_grown_iff.mp hj
      exact ⟨rfl, judge_eq_grown_iff.mpr ⟨rfl, hne, honce', h.address ▸ hstay⟩⟩

theorem Beside.turn (h : Beside a x g g') (hd : e.unworded = d.unworded) {turned : Turn}
    (hturn : turn a { o with wildcards := true } origin routine g d = (turned, d'))
    (hok : ∀ f, turned ≠ .finished (.error f)) :
    (∃ s' e', turn a { o with wildcards := false } origin routine g' e =
        (.finished (.ok s'), e')) ∨
      ∃ g₁ g₁' e', turned = .grown g₁ ∧
        turn a { o with wildcards := false } origin routine g' e = (.grown g₁', e') ∧
        e'.unworded = d'.unworded ∧ Beside a x g₁ g₁' := by
  obtain ⟨i, g₁, d₁, d₂, hpoll, hdec, hallow, haddress, -, rfl, rfl⟩ := exists_of_turn hturn hok
  have hpolls := Dialogue.poll_corresponds hd
  rw [hpoll] at hpolls
  obtain ⟨e₁, hpoll', hd₁⟩ := hpolls.exists_eq
  obtain ⟨g₁', e₂, hallow', hd₂, h₁⟩ := h.exists_allow_eq hb hi hd₁ hallow
  have hturn' := turn_eq_judge (o := { o with wildcards := false }) routine hpoll'
    (h.address ▸ hdec) hallow'
  have hlonger := h₁.append (haddress ▸ hdec)
  rcases hlonger.judge hb hi ht hc hend hok with hlast | ⟨hgrown, hgrown'⟩
  · left
    rw [hlast] at hturn'
    exact ⟨_, _, hturn'⟩
  · right
    rw [hgrown'] at hturn'
    exact ⟨_, _, _, hgrown, hturn', Dialogue.write_congr hd₂, hlonger⟩

/-- If a search with wildcards succeeds, then so does the one without, after the same instructions or
the first of them. -/
theorem Beside.run (h : Beside a x g g') (hd : e.unworded = d.unworded)
    (hrun : run a { o with wildcards := true } origin routine n g d = (.ok s, d')) :
    ∃ s' e', run a { o with wildcards := false } origin routine n g' e = (.ok s', e') ∧
      appended a { o with wildcards := false } origin routine n g' e <+:
        appended a { o with wildcards := true } origin routine n g d := by
  induction n generalizing g g' d e with
  | zero => exact absurd hrun run_zero_ne_ok
  | succ n ih =>
    rcases run_succ_eq_ok_iff.mp hrun with hturn | ⟨g₁, d₁, hturn, hrun₁⟩
    · obtain ⟨i, hdec, happended, -⟩ := exists_of_turn_ok hturn n
      rcases h.turn hb hi ht hc hend hd hturn (by simp) with ⟨s', e', hturn'⟩ | ⟨_, _, _, hgrown, -⟩
      · obtain ⟨j, hdec', happended', -⟩ := exists_of_turn_ok hturn' n
        obtain rfl := h.eq_of_decode? hdec hdec'
        have hsame := happended'.trans happended.symm
        exact ⟨s', e', run_succ_of_finished hturn' n, hsame ▸ List.prefix_refl _⟩
      · cases hgrown
    · obtain ⟨i, hdec, happended, -⟩ := exists_of_turn_grown hturn n
      rcases h.turn hb hi ht hc hend hd hturn (by simp) with
        ⟨s', e', hturn'⟩ | ⟨g₂, g₁', e₁, hgrown, hturn', hd₁, h₁⟩
      · obtain ⟨j, hdec', happended', -⟩ := exists_of_turn_ok hturn' n
        obtain rfl := h.eq_of_decode? hdec hdec'
        refine ⟨s', e', run_succ_of_finished hturn' n, ?_⟩
        rw [happended, happended']
        exact List.cons_prefix_cons.mpr ⟨rfl, List.nil_prefix⟩
      · obtain rfl : g₁ = g₂ := by simpa using hgrown
        obtain ⟨j, hdec', happended', -⟩ := exists_of_turn_grown hturn' n
        obtain rfl := h.eq_of_decode? hdec hdec'
        obtain ⟨s', e', hrun', hprefix⟩ := ih h₁ hd₁ hrun₁
        refine ⟨s', e', (run_succ_of_grown hturn' n).trans hrun', ?_⟩
        rw [happended, happended']
        exact List.cons_prefix_cons.mpr ⟨rfl, hprefix⟩

end BuiltIn

end Growth

namespace Analysis

variable {a : Analysis} {data : List UInt8} {base bitness x : Int} {executable : Bool}
  {processor : String} {h : Heuristics} {o : GrowthOptions} {d : Dialogue} {s : Signature}

/-- In a flat image masking operands only makes growth longer: if it succeeds with wildcards then it
does so without, under the same limit, scope and answers, and appends the first of the same
instructions. -/
theorem grow_literal_of_masked
    (ha : ofImage (.flat data base executable processor bitness) h = .ok a)
    (hg : (a.grow { o with wildcards := true } x d).1 = .ok s) :
    ∃ s' is js y, (a.grow { o with wildcards := false } x d).1 = .ok s' ∧
      a.appended { o with wildcards := true } x d = is ∧
      a.appended { o with wildcards := false } x d = js ∧
      js <+: is ∧ js ≠ [] ∧ a.decoder.Walk x is y ∧
      s = (a.cellsOf true is).trim ∧ s' = a.cellsOf false js ∧
      s'.values = js.flatMap (·.bytes) := by
  have hb := builtIn_of_ofImage ha
  have himage := image_of_ofImage ha
  obtain ⟨hcode, is, i, y, happended, hw, hs, -, -⟩ := exists_walk_of_grow hg
  obtain ⟨t, ht, -, hc⟩ := Image.exists_segment_of_isCode hcode
  have hsegments : a.image.segments = [⟨".flat", base, data, executable⟩] := by
    rw [himage]; exact Image.segments_flat ..
  have hne : data ≠ [] := by
    have hdata := Segment.data_ne_nil_of_contains hc
    rw [hsegments, List.mem_singleton] at ht
    rwa [ht] at hdata
  have hi : a.image.Separated := himage ▸ Image.separated_flat hne ..
  have hend : ∀ u ∈ a.image.segments, u.start ≠ t.stop := by
    intro u hu
    have hlt := Segment.start_lt_stop (hi.data_ne_nil t ht)
    rw [hsegments, List.mem_singleton] at hu ht
    rw [hu, ← ht]; omega
  obtain ⟨hstart, d', hrun⟩ := grow_eq_ok_iff.mp hg
  obtain ⟨s', e', hrun', hprefix⟩ :=
    (Growth.beside_start a x).run hb hi ht hc hend rfl hrun
  have hg' : (a.grow { o with wildcards := false } x d).1 = .ok s' :=
    grow_eq_ok_iff.mpr ⟨hstart, e', hrun'⟩
  obtain ⟨-, js, j, z, happended', hw', hs', -, -⟩ := exists_walk_of_grow hg'
  have hliteral : s' = a.cellsOf false (js ++ [j]) :=
    hs'.trans (Signature.trim_eq_self fun c => literal_of_mem_cellsOf)
  refine ⟨s', is ++ [i], js ++ [j], y, hg', happended, happended', ?_, by simp, hw, hs, hliteral,
    hliteral ▸ values_cellsOf hb hi hw' false⟩
  rw [← happended, ← happended', appended_eq hstart.1 hstart.2, appended_eq hstart.1 hstart.2]
  exact hprefix

/-- Two calls with different distances: the first one is unique as it stands, and with its operand
masked it takes the instruction after it. -/
theorem grow_literal_of_masked_calls :
    let image := Image.flat [0xE8, 1, 0, 0, 0, 0x90, 0xE8, 0, 0, 0, 0, 0xC3] 0 true "metapc" 64
    let o : GrowthOptions := ⟨true, true, .bytes 1000, true⟩
    let s : Signature := [⟨0xE8, false⟩, ⟨1, true⟩, ⟨0, true⟩, ⟨0, true⟩, ⟨0, true⟩, ⟨0x90, false⟩]
    ∃ a, ofImage image ⟨true, true, true⟩ = .ok a ∧
      (a.grow { o with wildcards := true } 0 .quiet).1 = .ok s ∧
      ∃ s' is js y, (a.grow { o with wildcards := false } 0 .quiet).1 = .ok s' ∧
        a.appended { o with wildcards := true } 0 .quiet = is ∧
        a.appended { o with wildcards := false } 0 .quiet = js ∧
        js <+: is ∧ js ≠ [] ∧ a.decoder.Walk 0 is y ∧
        s = (a.cellsOf true is).trim ∧ s' = a.cellsOf false js ∧
        s'.values = js.flatMap (·.bytes) := by
  intro image o s
  have ha : ofImage image ⟨true, true, true⟩ =
      .ok (ofDecoder image (.ofImage image .bits64) ⟨true, true, true⟩) := rfl
  have hg : ((ofDecoder image (.ofImage image .bits64) ⟨true, true, true⟩).grow
      { o with wildcards := true } 0 .quiet).1 = .ok s := by cbv
  exact ⟨_, ha, hg, grow_literal_of_masked ha hg⟩

end Analysis

end CodeSignature
