import CodeSignature.Proofs.Image.Pasted
import CodeSignature.Proofs.Search.Cancellation
import CodeSignature.Proofs.Search.Transcript
import Mathlib

/-! # Copied code is found again

A range that has been transcribed begins with a literal, ends with one, and holds what its segment
holds. So if it has two cells at least, it is found at its start in whichever dialect it is written.
-/

namespace CodeSignature.Analysis

variable {a : Analysis} {image : Image} {h : Heuristics} {wildcards : Bool} {start stop : Int}
  {d : Dialogue} {s : Signature} {t : Segment}

/-- Cells that hold what a segment holds from an address on, with room for all of them and a literal
at either end. -/
structure Copy (t : Segment) (x : Int) (s : Signature) : Prop where
  agrees : s.Agrees (t.rest x)
  room : x + s.length ≤ t.stop
  trimmed : s.trim = s
  literal : s.head?.map (·.wildcard) = some false

theorem Copy.mem_occurrences (hs : Copy t start s) (ht : t ∈ image.segments)
    (hc : t.contains start = true) : start ∈ image.occurrences s.pattern := by
  refine Image.mem_occurrences_iff.mpr ⟨t, ht, hc, hs.agrees.matchesFront_iff.mpr ?_⟩
  have hrest := Segment.length_rest_of_contains hc
  have hroom := hs.room
  omega

theorem copy_of_data (hi : a.image.Separated) (ht : t ∈ a.image.segments)
    (hc : t.contains start = true) (hlt : start < stop) (hstop : stop ≤ t.stop) :
    Copy t start (a.bytes false start (stop - start)) := by
  have hrest := Segment.length_rest_of_contains hc
  have hvalues : (a.bytes false start (stop - start)).values =
      (t.rest start).take (stop - start).toNat := by
    rw [bytes, Signature.values_ofBytes, hi.read_eq ht hc]
  have hlength : (a.bytes false start (stop - start)).length = (stop - start).toNat := by
    rw [← Signature.length_values, hvalues, List.length_take]
    omega
  have hliteral : ∀ c ∈ a.bytes false start (stop - start), c.wildcard = false := by
    intro c hmem
    obtain ⟨b, -, rfl⟩ := List.mem_map.mp hmem
    rfl
  constructor
  case agrees => exact Signature.agrees_of_values (by rw [hvalues, hlength])
  case room => omega
  case trimmed => exact Signature.trim_eq_self hliteral
  case literal =>
    obtain ⟨c, rest, hcells⟩ : ∃ c rest, a.bytes false start (stop - start) = c :: rest := by
      refine List.exists_cons_of_ne_nil fun hnil => ?_
      rw [hnil, List.length_nil] at hlength
      omega
    rw [hcells] at hliteral ⊢
    rw [List.head?_cons, Option.map_some, hliteral c List.mem_cons_self]

theorem copy_of_code (hb : a.BuiltIn) (hi : a.image.Separated) (hd : d.NeverCancelled)
    (ht : t ∈ a.image.segments) (hc : t.contains start = true) (hstop : stop ≤ t.stop)
    (hrange : a.isRange start stop = true) (hcode : a.image.isCode start = true)
    (hs : (a.transcribe wildcards start stop d).1 = .ok s) : Copy t start s := by
  have hdec : a.decoder.decode? start ≠ none := by
    intro hnone
    rw [transcribe_of_decode?_eq_none hd hrange hcode hnone] at hs
    cases hs
  obtain ⟨is, y, u, hcover, hu, hok, -, hvalues, -, hroom, -⟩ :=
    exists_transcript hb hi hd ht hc hstop hrange hcode hdec wildcards
  obtain rfl : s = u.trim := Except.ok.inj (hs.symm.trans hok)
  have hprefix := u.trim_prefix
  constructor
  case agrees =>
    refine Signature.Agrees.of_front (Signature.agrees_of_values ?_) hprefix
    rw [hvalues, hi.read_eq ht hc, Int.toNat_natCast]
  case room =>
    have hlength := hprefix.length_le
    omega
  case trimmed => exact u.trim_trim
  case literal =>
    cases hcover with
    | reached hend => exact absurd ((isRange_iff hi).mp hrange).2.2.1 (by omega)
    | unknown _ hnone => exact absurd hnone hdec
    | next _ hfirst _ =>
      obtain ⟨c, rest, hcells, hliteral⟩ := exists_cells_eq_cons hb hi hfirst wildcards
      rw [cells_eq_masked hb hi hfirst] at hcells
      rw [hu, List.flatMap_cons, hcells, List.cons_append, List.cons_append,
        Signature.trim_cons hliteral, List.head?_cons, Option.map_some, hliteral]

/-- What is transcribed is a copy of what its segment holds from the start on. -/
theorem exists_copy_of_transcribe (hb : a.BuiltIn) (hi : a.image.Separated)
    (hs : (a.transcribe wildcards start stop d).1 = .ok s) :
    ∃ t ∈ a.image.segments, t.contains start = true ∧ Copy t start s := by
  -- A cancelled transcription has no result, so this one is also made without cancellation.
  have hs' : (a.transcribe wildcards start stop d.uncancelled).1 = .ok s := by
    rcases (a.transcribe_heeded wildcards start stop d).heeds.1 with haborted | hsame
    · rw [hs] at haborted
      cases haborted
    · rw [← hsame, hs]
  have hrange : a.isRange start stop = true := by
    by_contra hno
    rw [Bool.not_eq_true] at hno
    simp [transcribe, hno] at hs'
  obtain ⟨-, -, hlt, t, ht, hc, hstop⟩ := (isRange_iff hi).mp hrange
  refine ⟨t, ht, hc, ?_⟩
  cases hcode : a.image.isCode start with
  | true =>
    exact copy_of_code hb hi d.neverCancelled_uncancelled ht hc hstop hrange hcode hs'
  | false =>
    obtain rfl : a.bytes false start (stop - start) = s := by
      simpa [transcribe, hrange, hcode] using hs'
    exact copy_of_data hi ht hc hlt hstop

/-- A transcribed range of two cells at least is found at its start in every dialect. -/
theorem mem_search_of_transcribe (hi : image.Separated) (ha : ofImage image h = .ok a)
    (hs : (a.transcribe wildcards start stop d).1 = .ok s) (hlength : 2 ≤ s.length)
    (dialect : Dialect) :
    ∃ u found, image.search (dialect.render s) = .ok (u, found) ∧ start ∈ found := by
  have hb := builtIn_of_ofImage ha
  obtain rfl := image_of_ofImage ha
  obtain ⟨t, ht, hc, hcopy⟩ := exists_copy_of_transcribe hb hi hs
  refine ⟨_, _, Image.search_render ⟨hlength, hcopy.literal⟩ a.image dialect, ?_⟩
  rw [hcopy.trimmed, ite_self]
  exact hcopy.mem_occurrences ht hc

/-- A call without its distance and the byte after it, of which there is another one elsewhere. -/
theorem mem_search_of_transcribe_call :
    let image :=
      Image.flat [0xE8, 0, 0, 0, 0, 0x90, 0xE8, 1, 2, 3, 4, 0x90] 0x1000 true "metapc" 64
    let s : Signature :=
      [⟨0xE8, false⟩, ⟨0, true⟩, ⟨0, true⟩, ⟨0, true⟩, ⟨0, true⟩, ⟨0x90, false⟩]
    ∃ a, image.Separated ∧ ofImage image ⟨true, true, true⟩ = .ok a ∧
      (a.transcribe true 0x1000 0x1006 .quiet).1 = .ok s ∧ 2 ≤ s.length ∧
      ∀ dialect : Dialect,
        ∃ u found, image.search (dialect.render s) = .ok (u, found) ∧ 0x1000 ∈ found := by
  intro image s
  have hi : image.Separated := Image.separated_flat (by decide) _ _ _ _
  have ha : ofImage image ⟨true, true, true⟩ = .ok _ := rfl
  have hs : ((ofDecoder image (.ofImage image .bits64) ⟨true, true, true⟩).transcribe true 0x1000
      0x1006 .quiet).1 = .ok s := by cbv
  exact ⟨_, hi, ha, hs, by decide, mem_search_of_transcribe hi ha hs (by decide)⟩

end CodeSignature.Analysis
