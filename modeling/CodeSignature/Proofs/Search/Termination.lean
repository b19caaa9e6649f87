import CodeSignature.Proofs.Dialogue.Record
import CodeSignature.Proofs.Image.Gap
import CodeSignature.Proofs.Search.Cancellation
import CodeSignature.Proofs.Search.Outcome
import CodeSignature.Proofs.Search.Patience
import CodeSignature.Proofs.Search.Transcript

/-! # How searches end

Growing and transcribing repeat a turn without a bound of their own. Over a separated image every turn
but the last moves on to a later address at which there still is code, so there are no more turns than
addresses, whatever is answered. The patience of a search never cuts it short.
-/

namespace CodeSignature

open Dialogue

theorem Decoder.bounds_of_decode?_ofImage {image : Image} {mode : Mode} {x : Int} {i : Instruction}
    (hi : image.Separated) (h : (ofImage image mode).decode? x = some i) :
    0 < i.size ∧ x + i.size ≤ image.highest := by
  obtain ⟨s, hs, hc, -⟩ := (decode?_ofImage_iff hi).mp h
  obtain ⟨-, hpos, hstop, -⟩ := bytes_of_decode?_ofImage hi hs hc h
  exact ⟨hpos, hstop.trans (Image.stop_le_highest hs)⟩

/-! ### Growing -/

namespace Growth

/-- The turns of a search to its very end, by the states that they begin in, and what the search comes
to. -/
inductive Turns (a : Analysis) (o : GrowthOptions) (origin : Int) (routine : Option Routine) :
    Growth → Dialogue → List (Growth × Dialogue) → Except Failure Signature × Dialogue → Prop where
  | last {g : Growth} {d d' : Dialogue} {result : Except Failure Signature} :
      turn a o origin routine g d = (.finished result, d') →
      Turns a o origin routine g d [(g, d)] (result, d')
  | more {g g' : Growth} {d d' : Dialogue} {ts : List (Growth × Dialogue)}
      {p : Except Failure Signature × Dialogue} :
      turn a o origin routine g d = (.grown g', d') → Turns a o origin routine g' d' ts p →
      Turns a o origin routine g d ((g, d) :: ts) p

variable {a : Analysis} {o : GrowthOptions} {origin : Int} {routine : Option Routine} {n : Nat}
  {g : Growth} {d : Dialogue} {ts : List (Growth × Dialogue)}
  {p : Except Failure Signature × Dialogue} {mode : Mode}

theorem Turns.run_eq (h : Turns a o origin routine g d ts p) (hn : ts.length ≤ n) :
    run a o origin routine n g d = p := by
  induction h generalizing n with
  | last hturn =>
    obtain ⟨n, rfl⟩ := Nat.exists_eq_add_one_of_ne_zero (by simp at hn; omega : n ≠ 0)
    exact run_succ_of_finished hturn n
  | more hturn _ ih =>
    obtain ⟨n, rfl⟩ := Nat.exists_eq_add_one_of_ne_zero (by simp at hn; omega : n ≠ 0)
    rw [run_succ_of_grown hturn]
    exact ih (by simpa using hn)

theorem polled_atEnd (origin : Int) (g : Growth) (d : Dialogue) :
    (g.atEnd origin d).2.polled = d.polled := by
  unfold atEnd
  split
  · rfl
  · simp [writeNotUnique, Analysis.writeEnd]

theorem polled_allow (o : GrowthOptions) (origin : Int) (g : Growth) (d : Dialogue) :
    (g.allow o origin d).2.polled = d.polled := by
  unfold allow
  split
  · rfl
  · rfl
  · split
    · dsimp only [afterAnswer]
      split <;> simp [writeNotUnique]
    · rfl

theorem polled_turn (a : Analysis) (o : GrowthOptions) (origin : Int) (routine : Option Routine)
    (g : Growth) (d : Dialogue) :
    (turn a o origin routine g d).2.polled = d.polled ++ [d.poll.1] := by
  unfold turn
  rcases hpoll : d.poll with ⟨_ | _, e⟩
  · have hpolled := polled_of_poll hpoll
    dsimp only
    cases a.decoder.decode? g.address with
    | none => exact (polled_atEnd origin g e).trans hpolled
    | some i =>
      have hallow := (polled_allow o origin g e).trans hpolled
      rcases hresult : g.allow o origin e with ⟨f | g', e'⟩
      · rwa [hresult] at hallow
      · rw [hresult] at hallow
        simpa [writeTrial] using hallow
  · exact polled_of_poll hpoll

theorem Turns.length_polled (h : Turns a o origin routine g d ts p) :
    p.2.polled.length = d.polled.length + ts.length := by
  induction h with
  | @last g d d' result hturn =>
    have hpolled := polled_turn a o origin routine g d
    rw [hturn] at hpolled
    simp [hpolled]
  | @more g g' d d' ts p hturn _ ih =>
    have hpolled := polled_turn a o origin routine g d
    rw [hturn] at hpolled
    have hone : d'.polled.length = d.polled.length + 1 := by simp [hpolled]
    rw [ih, hone, List.length_cons]
    omega

section OfImage

variable (hdecoder : a.decoder = .ofImage a.image mode) (hi : a.image.Separated)
include hdecoder hi

theorem advance_of_turn {g' : Growth} {d' : Dialogue}
    (h : turn a o origin routine g d = (.grown g', d')) :
    g.address < g'.address ∧ g'.address ≤ a.image.highest ∧
      a.decoder.decode? g.address ≠ none := by
  obtain ⟨i, hdec, -, haddress, -⟩ := exists_of_turn_grown h 0
  have hbounds := hdec
  rw [hdecoder] at hbounds
  obtain ⟨hpos, hle⟩ := Decoder.bounds_of_decode?_ofImage hi hbounds
  exact ⟨by omega, by omega, by simp [hdec]⟩

/-- A search ends. It takes a turn for each address from where it is to the end of the image, and one
more, at most. -/
theorem exists_turns (o : GrowthOptions) (origin : Int) (routine : Option Routine) (g : Growth)
    (d : Dialogue) :
    ∃ ts p, Turns a o origin routine g d ts p ∧
      ts.length ≤ (a.image.highest - g.address).toNat + 1 := by
  induction hleft : (a.image.highest - g.address).toNat using Nat.strong_induction_on
    generalizing g d with
  | _ left ih =>
    rcases hturn : turn a o origin routine g d with ⟨result | g', d'⟩
    · exact ⟨_, _, .last hturn, by simp⟩
    · obtain ⟨hlt, hle, -⟩ := advance_of_turn hdecoder hi hturn
      obtain ⟨ts, p, hts, hlength⟩ := ih _ (by omega) g' d' rfl
      refine ⟨_, p, .more hturn hts, ?_⟩
      rw [List.length_cons]
      omega

theorem Turns.exists_addresses (h : Turns a o origin routine g d ts p) :
    ∃ xs : List Int, ts.length = xs.length + 1 ∧ xs.Pairwise (· < ·) ∧
      ∀ x ∈ xs, g.address ≤ x ∧ a.decoder.decode? x ≠ none := by
  induction h with
  | last => exact ⟨[], rfl, .nil, nofun⟩
  | @more g g' d d' ts p hturn _ ih =>
    obtain ⟨hlt, -, hdec⟩ := advance_of_turn hdecoder hi hturn
    obtain ⟨xs, hlength, hascending, hknown⟩ := ih
    refine ⟨g.address :: xs, by simp [hlength], List.pairwise_cons.mpr ⟨fun x hx => ?_, hascending⟩,
      List.forall_mem_cons.mpr ⟨⟨Int.le_refl _, hdec⟩, fun x hx => ?_⟩⟩
    · exact Int.lt_of_lt_of_le hlt (hknown x hx).1
    · exact ⟨by have := (hknown x hx).1; omega, (hknown x hx).2⟩

theorem Turns.length_le_reach (h : Turns a o origin routine g d ts p) :
    ts.length ≤ a.decoder.reach + 1 := by
  obtain ⟨known, hreach, hknown⟩ : a.decoder.Bounded := hdecoder ▸ Decoder.bounded_ofImage ..
  obtain ⟨xs, hlength, hascending, hdec⟩ := h.exists_addresses hdecoder hi
  have hsubset : xs ⊆ known := by
    intro x hx
    obtain ⟨i, hi⟩ := Option.ne_none_iff_exists'.mp (hdec x hx).2
    exact hknown x i hi
  have hnodup : xs.Nodup := hascending.imp Int.ne_of_lt
  have := (hnodup.subperm hsubset).length_le
  omega

end OfImage

end Growth

/-! ### Transcribing -/

namespace Analysis

/-- The transcription of code to its very end, from an address and the cells so far on: the number of
its turns and what it comes to. -/
inductive Transcribes (a : Analysis) (wildcards : Bool) (stop : Int) :
    Nat → Int → Signature → Dialogue → Except Failure Signature × Dialogue → Prop where
  | cancelled {x : Int} {cells : Signature} {d d' : Dialogue} :
      d.poll = (true, d') → Transcribes a wildcards stop 1 x cells d (.error .aborted, d')
  | unknown {x : Int} {cells : Signature} {d d' : Dialogue} :
      d.poll = (false, d') → a.decoder.decode? x = none →
      Transcribes a wildcards stop 1 x cells d (a.transcribeEnd stop x cells d')
  | reached {x : Int} {cells : Signature} {d d' : Dialogue} {i : Instruction} :
      d.poll = (false, d') → a.decoder.decode? x = some i → stop ≤ x + i.size →
      Transcribes a wildcards stop 1 x cells d (.ok (cells ++ a.cells wildcards i).trim, d')
  | next {n : Nat} {x : Int} {cells : Signature} {d d' : Dialogue} {i : Instruction}
      {p : Except Failure Signature × Dialogue} :
      d.poll = (false, d') → a.decoder.decode? x = some i → x + i.size < stop →
      Transcribes a wildcards stop n (x + i.size) (cells ++ a.cells wildcards i) d' p →
      Transcribes a wildcards stop (n + 1) x cells d p

variable {a : Analysis} {wildcards : Bool} {x start stop : Int} {cells : Signature} {d : Dialogue}
  {m n : Nat} {p : Except Failure Signature × Dialogue} {mode : Mode}

theorem Transcribes.pos (h : a.Transcribes wildcards stop n x cells d p) : 0 < n := by
  cases h <;> omega

theorem Transcribes.transcribeFrom_eq (h : a.Transcribes wildcards stop n x cells d p) (hm : n ≤ m) :
    a.transcribeFrom wildcards stop m x cells d = p := by
  have hpos := h.pos
  obtain ⟨m, rfl⟩ := Nat.exists_eq_add_one_of_ne_zero (by omega : m ≠ 0)
  induction h generalizing m with
  | cancelled hpoll => rw [transcribeFrom, hpoll]
  | unknown hpoll hdec =>
    rw [transcribeFrom, hpoll, hdec]
    rfl
  | reached hpoll hdec hstop =>
    rw [transcribeFrom, hpoll, hdec]
    exact if_pos hstop
  | next hpoll hdec hstop hrest ih =>
    have hpos := hrest.pos
    obtain ⟨m, rfl⟩ := Nat.exists_eq_add_one_of_ne_zero (by omega : m ≠ 0)
    rw [transcribeFrom, hpoll, hdec]
    exact (if_neg (by omega)).trans (ih hpos m (by omega))

theorem polled_transcribeEnd (a : Analysis) (stop x : Int) (cells : Signature) (d : Dialogue) :
    (a.transcribeEnd stop x cells d).2.polled = d.polled := by
  unfold transcribeEnd
  split
  · rfl
  · simp [writeEnd]

theorem Transcribes.length_polled (h : a.Transcribes wildcards stop n x cells d p) :
    p.2.polled.length = d.polled.length + n := by
  induction h with
  | cancelled hpoll => simp [polled_of_poll hpoll]
  | unknown hpoll => simp [polled_transcribeEnd, polled_of_poll hpoll]
  | reached hpoll => simp [polled_of_poll hpoll]
  | next hpoll _ _ _ ih =>
    rw [ih, polled_of_poll hpoll, List.length_append, List.length_singleton]
    omega

section OfImage

variable (hdecoder : a.decoder = .ofImage a.image mode) (hi : a.image.Separated)
include hdecoder hi

theorem exists_transcribes (hx : x < stop) (wildcards : Bool) (cells : Signature) (d : Dialogue) :
    ∃ n p, a.Transcribes wildcards stop n x cells d p ∧ n ≤ (stop - x).toNat := by
  induction hleft : (stop - x).toNat using Nat.strong_induction_on generalizing x cells d with
  | _ left ih =>
    rcases hpoll : d.poll with ⟨_ | _, d'⟩
    · cases hdec : a.decoder.decode? x with
      | none => exact ⟨1, _, .unknown hpoll hdec, by omega⟩
      | some i =>
        have hbounds := hdec
        rw [hdecoder] at hbounds
        have hpos := (Decoder.bounds_of_decode?_ofImage hi hbounds).1
        rcases Int.lt_or_le (x + i.size) stop with hlt | hle
        · obtain ⟨n, p, hn, hlength⟩ := ih _ (by omega) hlt (cells ++ a.cells wildcards i) d' rfl
          exact ⟨n + 1, p, .next hpoll hdec hlt hn, by omega⟩
        · exact ⟨1, _, .reached hpoll hdec hle, by omega⟩
    · exact ⟨1, _, .cancelled hpoll, by omega⟩

end OfImage

/-! ### Both -/

theorem data_length_le_reach (hdecoder : a.decoder = .ofImage a.image mode) {s : Segment}
    (hs : s ∈ a.image.segments) : s.data.length ≤ a.decoder.reach := by
  rw [hdecoder]
  exact Sequence.le_total_of_mem (List.mem_map.mpr ⟨s, hs, rfl⟩)

theorem exists_turns_grow (hdecoder : a.decoder = .ofImage a.image mode) (hi : a.image.Separated)
    (hx : x ≠ Image.badAddress) (hcode : a.image.isCode x = true) (o : GrowthOptions)
    (d : Dialogue) :
    ∃ ts, Growth.Turns a o x (a.routines.containing? x) (.start x) d ts (a.grow o x d) ∧
      (ts.length : Int) ≤ a.image.highest - x + 1 ∧ ts.length ≤ a.patience d := by
  obtain ⟨s, hs, -, hc⟩ := Image.exists_segment_of_isCode hcode
  have hhighest := Image.stop_le_highest hs
  have hstop := (Segment.contains_iff.mp hc).2
  have hdata := List.length_pos_iff.mpr (Segment.data_ne_nil_of_contains hc)
  have hreach := data_length_le_reach hdecoder hs
  obtain ⟨ts, p, hts, hlength⟩ :=
    Growth.exists_turns hdecoder hi o x (a.routines.containing? x) (.start x) d
  have hpatience : ts.length ≤ a.patience d := by
    have hshort := hts.length_le_reach hdecoder hi
    have htwice : a.decoder.reach * 2 ≤ a.patience d := Nat.mul_le_mul_left _ (by omega)
    omega
  obtain rfl : a.grow o x d = p := (grow_eq_run a o d hx hcode).trans (hts.run_eq hpatience)
  refine ⟨ts, hts, ?_, hpatience⟩
  change ts.length ≤ (a.image.highest - x).toNat + 1 at hlength
  omega

theorem transcribe_of_not_isRange (h : a.isRange start stop = false) (wildcards : Bool)
    (d : Dialogue) : a.transcribe wildcards start stop d = (.error .invalidAddress, d) := by
  simp [transcribe, h]

theorem exists_transcribes_range (hdecoder : a.decoder = .ofImage a.image mode)
    (hi : a.image.Separated) (hrange : a.isRange start stop = true)
    (hcode : a.image.isCode start = true) (wildcards : Bool) (d : Dialogue) :
    ∃ n, a.Transcribes wildcards stop n start [] d (a.transcribe wildcards start stop d) ∧
      (n : Int) ≤ stop - start := by
  obtain ⟨-, -, hlt, s, hs, hc, hstop⟩ := (isRange_iff hi).mp hrange
  have hstart := (Segment.contains_iff.mp hc).1
  have hreach := data_length_le_reach hdecoder hs
  obtain ⟨n, p, hn, hlength⟩ := exists_transcribes hdecoder hi hlt wildcards [] d
  have hpatience : n ≤ a.patience d := by
    have htwice : a.decoder.reach * 2 ≤ a.patience d := Nat.mul_le_mul_left _ (by omega)
    unfold Segment.stop at hstop
    omega
  obtain rfl : a.transcribe wildcards start stop d = p := by
    rw [← hn.transcribeFrom_eq hpatience]
    simp [transcribe, hrange, hcode]
  exact ⟨n, hn, by omega⟩

/-- Both kinds of search end, whatever the dialogue says. Growing from code polls at most once for
each address from there to the end of the image and once more, and not at all from the address that
stands for none. Transcribing a range that is accepted polls at most once for each of its addresses if
it is code, and not at all if it is data. -/
theorem searches_end (hdecoder : a.decoder = .ofImage a.image mode) (hi : a.image.Separated)
    (d : Dialogue) :
    (∀ (o : GrowthOptions) (x : Int), a.image.isCode x = true →
      (x = Image.badAddress → a.grow o x d = (.error .invalidAddress, d)) ∧
      (x ≠ Image.badAddress →
        ∃ ts, Growth.Turns a o x (a.routines.containing? x) (.start x) d ts (a.grow o x d) ∧
          (a.grow o x d).2.polled.length = d.polled.length + ts.length ∧
          (ts.length : Int) ≤ a.image.highest - x + 1)) ∧
    ∀ (wildcards : Bool) (start stop : Int),
      (a.transcribe wildcards start stop d).1 ≠ .error .invalidAddress →
      (a.image.isCode start = true →
        ∃ n, a.Transcribes wildcards stop n start [] d (a.transcribe wildcards start stop d) ∧
          (a.transcribe wildcards start stop d).2.polled.length = d.polled.length + n ∧
          (n : Int) ≤ stop - start) ∧
      (a.image.isCode start = false → (a.transcribe wildcards start stop d).2 = d) := by
  constructor
  · intro o x hcode
    refine ⟨fun hbad => by simp [grow, hbad], fun hx => ?_⟩
    obtain ⟨ts, hts, hlength, -⟩ := exists_turns_grow hdecoder hi hx hcode o d
    exact ⟨ts, hts, hts.length_polled, hlength⟩
  · intro wildcards start stop haccepted
    have hrange : a.isRange start stop = true := by
      by_contra hrange
      rw [transcribe_of_not_isRange (by simpa using hrange)] at haccepted
      exact haccepted rfl
    constructor
    · intro hcode
      obtain ⟨n, hn, hlength⟩ := exists_transcribes_range hdecoder hi hrange hcode wildcards d
      exact ⟨n, hn, hn.length_polled, hlength⟩
    · intro hdata
      simp [transcribe, hrange, hdata]

/-- A search that goes on into the next segment. It takes as many turns as it may. -/
theorem searches_end_adjacent :
    let image := Image.ofSegments [⟨".text", 0x1000, [0x90], true⟩, ⟨".init", 0x1001, [0x90], true⟩]
      "metapc" 64 none
    let o : GrowthOptions := ⟨true, true, .unlimited, true⟩
    ∃ a, ofImage image ⟨true, true, true⟩ = .ok a ∧ a.decoder = .ofImage a.image .bits64 ∧
      a.image.Separated ∧ a.image.isCode 0x1000 = true ∧ (0x1000 : Int) ≠ Image.badAddress ∧
      (a.grow o 0x1000 .quiet).2.polled.length = 3 ∧
      (∃ ts, Growth.Turns a o 0x1000 (a.routines.containing? 0x1000) (.start 0x1000) .quiet ts
          (a.grow o 0x1000 .quiet) ∧
        ts.length = 3 ∧ (ts.length : Int) ≤ a.image.highest - 0x1000 + 1) ∧
      (a.transcribe true 0x1000 0x1001 .quiet).1 ≠ .error .invalidAddress ∧
      ∃ n, a.Transcribes true 0x1001 n 0x1000 [] .quiet (a.transcribe true 0x1000 0x1001 .quiet) ∧
        (n : Int) ≤ 0x1001 - 0x1000 := by
  intro image o
  let a := ofDecoder image (.ofImage image .bits64) ⟨true, true, true⟩
  have hi : a.image.Separated :=
    Image.separated_ofSegments (by decide) (by simp [Segment.Apart, Segment.stop])
  have hcode : a.image.isCode 0x1000 = true := by cbv
  have hx : (0x1000 : Int) ≠ Image.badAddress := by decide
  have hpolls : (a.grow o 0x1000 .quiet).2.polled.length = 3 := by cbv
  have haccepted : (a.transcribe true 0x1000 0x1001 .quiet).1 ≠ .error .invalidAddress := by
    have : (a.transcribe true 0x1000 0x1001 .quiet).1 = .ok [⟨0x90, false⟩] := by cbv
    simp [this]
  have hdecoder : a.decoder = .ofImage a.image .bits64 := rfl
  obtain ⟨hgrow, htranscribe⟩ := searches_end hdecoder hi .quiet
  obtain ⟨ts, hts, hlength, hbound⟩ := (hgrow o 0x1000 hcode).2 hx
  obtain ⟨n, hn, -, hshort⟩ := (htranscribe true 0x1000 0x1001 haccepted).1 hcode
  have hquiet : Dialogue.quiet.polled.length = 0 := rfl
  exact ⟨a, rfl, hdecoder, hi, hcode, hx, hpolls, ⟨ts, hts, by omega, hbound⟩, haccepted, n, hn,
    hshort⟩

end Analysis

end CodeSignature
