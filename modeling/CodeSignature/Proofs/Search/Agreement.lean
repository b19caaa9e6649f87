import CodeSignature.Proofs.Search.Delivery
import CodeSignature.Proofs.Search.Outcome
import CodeSignature.Proofs.Search.Transcript
import Mathlib

/-! # Searches and transcriptions agree

The instructions that a search appends are those that cover the range up to the address it has come
to. In a flat image a transcription of that range hence has the same cells, whatever ended the
search.
-/

namespace CodeSignature.Analysis

variable {a : Analysis} {h : Heuristics} {o : GrowthOptions} {x y : Int} {d e : Dialogue}
  {s u : Signature} {is : List Instruction} {t : Segment}

theorem transcribe_of_walk (hb : a.BuiltIn) (hi : a.image.Separated) (he : e.NeverCancelled)
    (ht : t ∈ a.image.segments) (hc : t.contains x = true) (hy : y ≤ t.stop)
    (hcode : a.image.isCode x = true) (hx : x ≠ Image.badAddress) (hbad : y ≠ Image.badAddress)
    (hw : a.decoder.Walk x is y) (hne : is ≠ []) (wildcards : Bool) :
    (a.transcribe wildcards x y e).1 = .ok (a.cellsOf wildcards is).trim := by
  have hpos := size_pos_of_decode? hb hi
  have hlt : x < y := by
    cases hw with
    | nil => exact absurd rfl hne
    | cons hdec hrest =>
      have hsize := hpos _ _ hdec
      have hle := hrest.le hpos
      omega
  have hrange : a.isRange x y = true := (isRange_iff hi).mpr ⟨hx, hbad, hlt, t, ht, hc, hy⟩
  rw [transcribe_of_covers hb hi he hrange hcode (hw.covers hpos) hne,
    bytes_of_nonpos (by omega), List.append_nil]

theorem isCode_of_appended_ne_nil (h : a.appended o x d ≠ []) :
    x ≠ Image.badAddress ∧ a.image.isCode x = true := by
  by_contra hx
  exact h (grow_of_not_isCode o d hx).1

section Flat

variable {data : List UInt8} {base bitness : Int} {executable : Bool} {processor : String}

theorem exists_segment_flat (himage : a.image = .flat data base executable processor bitness)
    (hcode : a.image.isCode x = true) :
    a.image.Separated ∧ ∃ t ∈ a.image.segments, t.contains x = true ∧
      t.stop = base + data.length ∧ ∀ r ∈ a.image.segments, r.start ≠ t.stop := by
  have hsegments : a.image.segments = [⟨".flat", base, data, executable⟩] := by
    rw [himage, Image.segments_flat]
  obtain ⟨t, ht, -, hc⟩ := Image.exists_segment_of_isCode hcode
  have hdata := Segment.data_ne_nil_of_contains hc
  have hlt := Segment.start_lt_stop hdata
  obtain rfl : t = ⟨".flat", base, data, executable⟩ := by
    rwa [hsegments, List.mem_singleton] at ht
  refine ⟨himage ▸ Image.separated_flat hdata .., _, ht, hc, rfl, ?_⟩
  intro r hr
  rw [hsegments, List.mem_singleton] at hr
  rw [hr]
  exact Int.ne_of_lt hlt

/-- What a search has appended in a flat image is transcribed to its cells. -/
theorem transcribe_appended (hb : a.BuiltIn)
    (himage : a.image = .flat data base executable processor bitness)
    (hend : base + data.length < Image.badAddress) (he : e.NeverCancelled)
    (hne : a.appended o x d ≠ []) :
    (a.transcribe o.wildcards x (x + (a.cellsOf o.wildcards (a.appended o x d)).length) e).1 =
      .ok (a.cellsOf o.wildcards (a.appended o x d)).trim := by
  obtain ⟨hx, hcode⟩ := isCode_of_appended_ne_nil hne
  obtain ⟨hi, t, ht, hc, hstop, hlast⟩ := exists_segment_flat himage hcode
  obtain ⟨⟨y, hw⟩, -, -⟩ := exists_walk_of_appended a o x d
  have hy : y ≤ t.stop := by
    obtain ⟨mode, hdecoder⟩ := hb.decoder
    rw [hdecoder] at hw
    exact hw.le_stop hi ht hlast hc
  have hlength := length_cellsOf hb hi hw o.wildcards
  obtain rfl : y = x + (a.cellsOf o.wildcards (a.appended o x d)).length := by omega
  exact transcribe_of_walk hb hi he ht hc hy hcode hx (by omega) hw hne o.wildcards

/-- In a flat image, a signature that a search delivers is the transcription of a range that is at
least as long, and one that it fails with is, untrimmed, that of a range of its own length. -/
theorem transcribe_of_grow
    (ha : ofImage (.flat data base executable processor bitness) h = .ok a)
    (hend : base + data.length < Image.badAddress) (he : e.NeverCancelled) :
    (∀ s, (a.grow o x d).1 = .ok s →
        ∃ n : Nat, s.length ≤ n ∧ (a.transcribe o.wildcards x (x + n) e).1 = .ok s) ∧
      ∀ u, (a.grow o x d).1 = .error (.notUnique u) → u ≠ [] →
        (a.transcribe o.wildcards x (x + u.length) e).1 = .ok u.trim := by
  have hb := builtIn_of_ofImage ha
  have himage := image_of_ofImage ha
  obtain ⟨-, hdelivered, hcarried⟩ := exists_walk_of_appended a o x d
  constructor
  · intro s hs
    obtain ⟨-, is, i, -, happended, -⟩ := exists_walk_of_grow hs
    have hne : a.appended o x d ≠ [] := by simp [happended]
    rw [hdelivered s hs]
    exact ⟨_, (Signature.trim_prefix _).length_le, transcribe_appended hb himage hend he hne⟩
  · intro u hu hne
    obtain rfl := hcarried u hu
    apply transcribe_appended hb himage hend he
    intro hnil
    exact hne (by rw [hnil, cellsOf_nil])

/-- A call that is delivered without its distance, and the last of two equal bytes, which is not
unique. -/
theorem transcribe_of_grow_call :
    let image := Image.flat [0xE8, 0, 0, 0, 0, 0x90, 0x90] 0x1000 true "metapc" 64
    let o : GrowthOptions := ⟨true, true, .bytes 1000, true⟩
    let s : Signature := [⟨0xE8, false⟩]
    let u : Signature := [⟨0x90, false⟩]
    ∃ a, ofImage image ⟨true, true, true⟩ = .ok a ∧ 0x1000 + 7 < Image.badAddress ∧
      Dialogue.quiet.NeverCancelled ∧ (a.grow o 0x1000 .quiet).1 = .ok s ∧
      (∃ n : Nat, s.length ≤ n ∧ (a.transcribe true 0x1000 (0x1000 + n) .quiet).1 = .ok s) ∧
      (a.grow o 0x1006 .quiet).1 = .error (.notUnique u) ∧ u ≠ [] ∧
      (a.transcribe true 0x1006 (0x1006 + u.length) .quiet).1 = .ok u.trim := by
  intro image o s u
  have ha : ofImage image ⟨true, true, true⟩ = .ok _ := rfl
  have hend : 0x1000 + (7 : Int) < Image.badAddress := by decide
  have hs : ((ofDecoder image (.ofImage image .bits64) ⟨true, true, true⟩).grow o 0x1000
      .quiet).1 = .ok s := by cbv
  have hu : ((ofDecoder image (.ofImage image .bits64) ⟨true, true, true⟩).grow o 0x1006
      .quiet).1 = .error (.notUnique u) := by cbv
  have he := Dialogue.neverCancelled_quiet
  exact ⟨_, ha, hend, he, hs, (transcribe_of_grow ha hend he).1 s hs, hu, by decide,
    (transcribe_of_grow ha hend he).2 u hu (by decide)⟩

end Flat

end CodeSignature.Analysis
