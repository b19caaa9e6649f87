import CodeSignature.Proofs.Decoder.Cover
import CodeSignature.Proofs.Dialogue.Uncancelled
import CodeSignature.Proofs.Search.Cells
import CodeSignature.Search.Transcript
import Mathlib

/-! # What a transcribed range holds

The signature of a range of code is that of the instructions which cover it, and of the bytes that
remain after the last of them. It begins with the bytes of the range and does not leave their
segment. Data is transcribed as it is, and no other ranges are accepted.
-/

namespace CodeSignature

namespace Signature

variable {s : Signature} {bytes : List UInt8}

theorem Agrees.values_eq (h : s.Agrees bytes) (hl : s.length ≤ bytes.length) :
    s.values = bytes.take s.length := by
  refine List.ext_getElem (by simp [hl]) fun k hk _ => ?_
  rw [length_values] at hk
  simp only [values, List.getElem_map, List.getElem_take]
  exact h k s[k] bytes[k] (List.getElem?_eq_getElem hk) (List.getElem?_eq_getElem (by omega))

end Signature

namespace Analysis

variable {a : Analysis} {image : Image} {h : Heuristics} {wildcards : Bool} {x y start stop : Int}
  {d : Dialogue} {cells : Signature} {is : List Instruction} {s : Segment} {n : Nat}

theorem bytes_of_nonpos {count : Int} (hcount : count ≤ 0) (wildcard : Bool) (x : Int) :
    a.bytes wildcard x count = [] := by
  have hnat : count.toNat = 0 := by omega
  unfold bytes Image.read
  split
  · simp [Segment.read, hnat, Signature.ofBytes]
  · rfl

section BuiltIn

variable (hb : a.BuiltIn) (hi : a.image.Separated)
include hb hi

theorem size_pos_of_decode? (x : Int) (i : Instruction) (h : a.decoder.decode? x = some i) :
    0 < i.size := by
  obtain ⟨mode, hd⟩ := hb.decoder
  rw [hd] at h
  exact Decoder.size_pos_of_decode?_ofImage hi h

theorem transcribeFrom_of_covers (hd : d.NeverCancelled) (hc : a.decoder.Covers stop x is y)
    (hx : x < stop) (hn : is.length ≤ n) (hne : cells ≠ [] ∨ is ≠ []) :
    (a.transcribeFrom wildcards stop n x cells d).1 =
      .ok (cells ++ a.cellsOf wildcards is ++ a.bytes false y (stop - y)).trim := by
  induction hc generalizing cells d n with
  | reached h => omega
  | unknown h hdec =>
    obtain ⟨d₁, hpoll, -⟩ := hd.exists_poll_eq
    have hcells : cells ≠ [] := hne.resolve_right (not_not_intro rfl)
    unfold transcribeFrom
    rw [hpoll, hdec]
    cases n <;> simp [hcells]
  | @next x y i is h hdec hrest ih =>
    obtain ⟨n, rfl⟩ := Nat.exists_eq_add_one_of_ne_zero (by simp at hn; omega : n ≠ 0)
    obtain ⟨d₁, hpoll, hd₁⟩ := hd.exists_poll_eq
    obtain ⟨c, hc, -⟩ := exists_literal_mem_cells hb hi hdec wildcards
    have hcells : cells ++ a.cells wildcards i ≠ [] :=
      List.append_ne_nil_of_right_ne_nil _ (List.ne_nil_of_mem hc)
    rw [transcribeFrom, hpoll, hdec]
    dsimp only
    split
    next hend =>
      cases hrest with
      | reached => simp [bytes_of_nonpos (a := a) (by omega : stop - (x + i.size) ≤ 0)]
      | unknown h => omega
      | next h => omega
    next hend =>
      rw [ih hd₁ (by omega) (by simpa using hn) (Or.inl hcells), cellsOf_cons]
      simp only [List.append_assoc]

theorem values_transcript (hs : s ∈ a.image.segments) (hx : s.contains x = true)
    (hstop : stop ≤ s.stop) (hc : a.decoder.Covers stop x is y) (wildcards : Bool) :
    (a.cellsOf wildcards is ++ a.bytes false y (stop - y)).values =
        a.image.read x (max y stop - x) ∧
      max y stop ≤ s.stop := by
  obtain ⟨mode, hdecoder⟩ := hb.decoder
  have hy : y ≤ s.stop := by
    rw [hdecoder] at hc
    exact hc.le_stop hi hs hstop hx
  have hxy : x ≤ y := hc.walk.le (size_pos_of_decode? hb hi)
  have hlength := length_cellsOf hb hi hc.walk wildcards
  have hrest := Segment.length_rest_of_contains hx
  have hcells : (a.cellsOf wildcards is).values = (s.rest x).take (y - x).toNat := by
    rw [(agrees_cellsOf hb hi hs hx hc.walk wildcards).values_eq (by omega)]
    congr 1
    omega
  refine ⟨?_, by omega⟩
  rw [Signature.values_append, hcells, hi.read_eq hs hx]
  rcases Int.lt_or_le y stop with hlt | hle
  · have hyc : s.contains y = true :=
      Segment.contains_iff.mpr ⟨(Segment.contains_iff.mp hx).1.trans hxy, by omega⟩
    have hdrop : s.rest y = (s.rest x).drop (y - x).toNat := by
      rw [← Segment.rest_add (Segment.contains_iff.mp hx).1]
      congr 1
      omega
    have hsum : (max y stop - x).toNat = (y - x).toNat + (stop - y).toNat := by omega
    rw [bytes, Signature.values_ofBytes, hi.read_eq hs hyc, hdrop, hsum, List.take_add]
  · rw [bytes_of_nonpos (by omega), Int.max_eq_left hle]
    exact List.append_nil _

end BuiltIn

theorem length_le_patience (hb : a.BuiltIn) (hs : s ∈ a.image.segments) (d : Dialogue) :
    s.data.length ≤ a.patience d := by
  obtain ⟨mode, hdecoder⟩ := hb.decoder
  have hreach : s.data.length ≤ a.decoder.reach := by
    rw [hdecoder]
    exact Sequence.le_total_of_mem (List.mem_map.mpr ⟨s, hs, rfl⟩)
  exact hreach.trans (Nat.le_mul_of_pos_right _ (by omega))

theorem isRange_iff (hi : a.image.Separated) :
    a.isRange start stop = true ↔
      start ≠ Image.badAddress ∧ stop ≠ Image.badAddress ∧ start < stop ∧
        ∃ s ∈ a.image.segments, s.contains start = true ∧ stop ≤ s.stop := by
  simp only [isRange, Bool.and_eq_true, decide_eq_true_eq, and_assoc]
  refine and_congr_right fun _ => and_congr_right fun _ => and_congr_right fun _ => ?_
  cases hat : a.image.segmentAt? start with
  | none =>
    refine ⟨nofun, ?_⟩
    rintro ⟨s, hs, hc, -⟩
    rw [hi.segmentAt?_eq_some_iff.mpr ⟨hs, hc⟩] at hat
    cases hat
  | some s =>
    obtain ⟨hs, hc⟩ := hi.segmentAt?_eq_some_iff.mp hat
    simp only [decide_eq_true_eq]
    constructor
    · intro hle
      exact ⟨s, hs, hc, hle⟩
    · rintro ⟨t, ht, htc, hle⟩
      rwa [hi.eq_of_contains hs ht hc htc]

theorem transcribe_of_covers (hb : a.BuiltIn) (hi : a.image.Separated) (hd : d.NeverCancelled)
    (hrange : a.isRange start stop = true) (hcode : a.image.isCode start = true)
    (hc : a.decoder.Covers stop start is y) (hne : is ≠ []) (wildcards : Bool) :
    (a.transcribe wildcards start stop d).1 =
      .ok (a.cellsOf wildcards is ++ a.bytes false y (stop - y)).trim := by
  obtain ⟨-, -, hlt, s, hs, hstart, hstop⟩ := (isRange_iff hi).mp hrange
  have hlength := hc.length_le (size_pos_of_decode? hb hi)
  have hpatience := length_le_patience hb hs d
  have hx := Segment.contains_iff.mp hstart
  unfold Segment.stop at hx hstop
  simp only [transcribe, hrange, hcode, Bool.not_true, if_false, Bool.false_eq_true]
  rw [transcribeFrom_of_covers hb hi hd hc hlt (by omega) (Or.inr hne)]
  rfl

theorem transcribe_of_decode?_eq_none (hd : d.NeverCancelled)
    (hrange : a.isRange start stop = true) (hcode : a.image.isCode start = true)
    (hdec : a.decoder.decode? start = none) (wildcards : Bool) :
    (a.transcribe wildcards start stop d).1 = .error .decodeFailed := by
  obtain ⟨d₁, hpoll, -⟩ := hd.exists_poll_eq
  simp only [transcribe, hrange, hcode, Bool.not_true, if_false, Bool.false_eq_true]
  unfold transcribeFrom
  rw [hpoll, hdec]
  cases a.patience d <;> rfl

theorem cellsOf_eq_flatMap_masked (hb : a.BuiltIn) (hi : a.image.Separated)
    (hw : a.decoder.Walk x is y) (wildcards : Bool) :
    a.cellsOf wildcards is = is.flatMap (·.masked wildcards) := by
  induction hw with
  | nil => rfl
  | cons hdec _ ih => rw [cellsOf_cons, cells_eq_masked hb hi hdec, ih, List.flatMap_cons]

/-- Code from a known instruction on is transcribed to the masked cells of what covers its range and
literal cells of what remains of it. Together they hold the bytes of the segment. -/
theorem exists_transcript (hb : a.BuiltIn) (hi : a.image.Separated) (hd : d.NeverCancelled)
    (hs : s ∈ a.image.segments) (hc : s.contains start = true) (hstop : stop ≤ s.stop)
    (hrange : a.isRange start stop = true) (hcode : a.image.isCode start = true)
    (hdec : a.decoder.decode? start ≠ none) (wildcards : Bool) :
    ∃ (is : List Instruction) (y : Int) (u : Signature), a.decoder.Covers stop start is y ∧
      u = is.flatMap (·.masked wildcards) ++ Signature.ofBytes false (a.image.read y (stop - y)) ∧
      (a.transcribe wildcards start stop d).1 = .ok u.trim ∧ u.trim ≠ [] ∧
      u.values = a.image.read start u.length ∧ start + u.length = max y stop ∧
      start + u.length ≤ s.stop ∧ (wildcards = false → ∀ c ∈ u, c.wildcard = false) := by
  have hlt := ((isRange_iff hi).mp hrange).2.2.1
  obtain ⟨is, y, hcover⟩ : ∃ is y, a.decoder.Covers stop start is y :=
    Decoder.exists_covers (size_pos_of_decode? hb hi) start
  have hne : is ≠ [] := by
    rintro rfl
    cases hcover with
    | reached h => omega
    | unknown _ h => exact hdec h
  obtain ⟨hvalues, hle⟩ := values_transcript hb hi hs hc hstop hcover wildcards
  have hlength : ((a.cellsOf wildcards is ++ a.bytes false y (stop - y)).length : Int) =
      max y stop - start := by
    have hread := congrArg List.length hvalues
    have hrest := Segment.length_rest_of_contains hc
    rw [Signature.length_values, hi.read_eq hs hc, List.length_take] at hread
    omega
  refine ⟨is, y, a.cellsOf wildcards is ++ a.bytes false y (stop - y), hcover, ?_,
    transcribe_of_covers hb hi hd hrange hcode hcover hne wildcards, ?_, ?_, by omega, by omega, ?_⟩
  · rw [cellsOf_eq_flatMap_masked hb hi hcover.walk, bytes]
  · cases hcover with
    | reached => exact absurd rfl hne
    | unknown => exact absurd rfl hne
    | next _ hfirst _ =>
      obtain ⟨c, hmem, hliteral⟩ := exists_literal_mem_cells hb hi hfirst wildcards
      refine Signature.trim_ne_nil (c := c) ?_ hliteral
      rw [cellsOf_cons, List.append_assoc]
      exact List.mem_append_left _ hmem
  · rw [hvalues, hlength]
  · rintro rfl c hmem
    rcases List.mem_append.mp hmem with hmem | hmem
    · exact literal_of_mem_cellsOf hmem
    · obtain ⟨b, -, rfl⟩ := List.mem_map.mp hmem
      rfl

/-- A range is transcribed if it lies in one segment. Data is literal. Code is transcribed from a
known instruction on, by the instructions that cover the range and the bytes that remain of it. -/
theorem transcribe_range (hi : image.Separated) (ha : ofImage image h = .ok a)
    (hd : d.NeverCancelled) (wildcards : Bool) (start stop : Int) :
    (¬ (start ≠ Image.badAddress ∧ stop ≠ Image.badAddress ∧ start < stop ∧
        ∃ s ∈ image.segments, s.contains start = true ∧ stop ≤ s.stop) →
      (a.transcribe wildcards start stop d).1 = .error .invalidAddress) ∧
    ∀ s ∈ image.segments, s.contains start = true → stop ≤ s.stop → start < stop →
      start ≠ Image.badAddress → stop ≠ Image.badAddress →
      (s.executable = false →
        (a.transcribe wildcards start stop d).1 =
          .ok (.ofBytes false (image.read start (stop - start)))) ∧
      (s.executable = true →
        ((a.transcribe wildcards start stop d).1 = .error .decodeFailed ↔
          a.decoder.decode? start = none) ∧
        (a.decoder.decode? start ≠ none →
          ∃ (is : List Instruction) (y : Int) (u : Signature), a.decoder.Covers stop start is y ∧
            u = is.flatMap (·.masked wildcards) ++
              Signature.ofBytes false (image.read y (stop - y)) ∧
            (a.transcribe wildcards start stop d).1 = .ok u.trim ∧ u.trim ≠ [] ∧
            u.values = image.read start u.length ∧ start + u.length = max y stop ∧
            start + u.length ≤ s.stop ∧ (wildcards = false → ∀ c ∈ u, c.wildcard = false))) := by
  have hb := builtIn_of_ofImage ha
  obtain rfl := image_of_ofImage ha
  constructor
  · intro hrange
    rw [← isRange_iff hi, Bool.not_eq_true] at hrange
    simp [transcribe, hrange]
  · intro s hs hc hstop hlt hstart hbad
    have hrange := (isRange_iff hi).mpr ⟨hstart, hbad, hlt, s, hs, hc, hstop⟩
    have hcode := hi.isCode_eq hs hc
    constructor
    · intro hexec
      rw [hexec] at hcode
      simp [transcribe, hrange, hcode, bytes]
    · intro hexec
      rw [hexec] at hcode
      have hknown := fun hdec : a.decoder.decode? start ≠ none =>
        exists_transcript hb hi hd hs hc hstop hrange hcode hdec wildcards
      refine ⟨⟨?_, ?_⟩, hknown⟩
      · intro hfailed
        by_contra hdec
        obtain ⟨is, y, u, -, -, hok, -⟩ := hknown hdec
        rw [hfailed] at hok
        cases hok
      · intro hdec
        exact transcribe_of_decode?_eq_none hd hrange hcode hdec wildcards

/-- A load, a byte that begins no instruction and one that does, beside a byte of data. -/
theorem transcribe_range_load :
    let text : Segment := ⟨".text", 0x1000, [0x8B, 5, 0, 0, 0, 0, 0x06, 0x90], true⟩
    let data : Segment := ⟨".data", 0x1008, [0x55], false⟩
    let image := Image.ofSegments [data, text] "metapc" 64 none
    ∃ a, image.Separated ∧ ofImage image ⟨true, true, true⟩ = .ok a ∧
      Dialogue.quiet.NeverCancelled ∧ a.decoder.decode? 0x1000 ≠ none ∧
      (a.transcribe true 0x1007 0x1009 .quiet).1 = .error .invalidAddress ∧
      (a.transcribe true 0x1008 0x1009 .quiet).1 = .ok (.ofBytes false (image.read 0x1008 1)) ∧
      ∃ (is : List Instruction) (y : Int) (u : Signature), a.decoder.Covers 0x1008 0x1000 is y ∧
        u = is.flatMap (·.masked true) ++ Signature.ofBytes false (image.read y (0x1008 - y)) ∧
        (a.transcribe true 0x1000 0x1008 .quiet).1 = .ok u.trim ∧ u.trim ≠ [] ∧
        u.values = image.read 0x1000 u.length ∧ 0x1000 + u.length = max y 0x1008 ∧
        0x1000 + (u.length : Int) ≤ text.stop ∧ (true = false → ∀ c ∈ u, c.wildcard = false) := by
  intro text data image
  have hi : image.Separated :=
    Image.separated_ofSegments (by decide) (by simp [Segment.Apart, Segment.stop, text, data])
  have ha : ofImage image ⟨true, true, true⟩ = .ok _ := rfl
  have hd := Dialogue.neverCancelled_quiet
  have htext : text ∈ image.segments := Image.mem_arrange.mpr (by simp)
  have hdata : data ∈ image.segments := Image.mem_arrange.mpr (by simp)
  have hspan : ¬ ∃ s ∈ image.segments, s.contains 0x1007 = true ∧ 0x1009 ≤ s.stop := by
    rintro ⟨s, hs, hc, hstop⟩
    obtain rfl := hi.eq_of_contains htext hs rfl hc
    revert hstop
    decide
  have hdec : (Decoder.ofImage image .bits64).decode? 0x1000 ≠ none := by
    have : (Decoder.ofImage image .bits64).decode? 0x1000 = some
      ⟨0x1000, 6, "mov", "eax, dword ptr [0x1006]", [0x8B, 5, 0, 0, 0, 0], false,
        [⟨.register, 0, none⟩, ⟨.memory, 2, some 0x1006⟩]⟩ := by cbv
    simp [this]
  exact ⟨_, hi, ha, hd, hdec,
    (transcribe_range hi ha hd true 0x1007 0x1009).1 fun h => hspan h.2.2.2,
    ((transcribe_range hi ha hd true 0x1008 0x1009).2 data hdata rfl (by decide) (by decide)
      (by decide) (by decide)).1 rfl,
    (((transcribe_range hi ha hd true 0x1000 0x1008).2 text htext rfl (by decide) (by decide)
      (by decide) (by decide)).2 rfl).2 hdec⟩

end Analysis

end CodeSignature
