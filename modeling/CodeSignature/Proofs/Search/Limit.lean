import CodeSignature.Proofs.Search.Alignment
import CodeSignature.Proofs.Search.Ranking
import Mathlib

/-! # What a limit lets through

A search that may not ask compares the bytes so far with its limit before it appends an instruction, and
not after. So the limit bounds what stands in front of the last instruction, and the signature ends
with the literal bytes of that instruction wherever they end.
-/

namespace CodeSignature

theorem Image.length_read_le (image : Image) (x n : Int) : (image.read x n).length ≤ n.toNat := by
  unfold read
  split
  · exact List.length_take_le ..
  · exact Nat.zero_le _

/-- The bytes in front of the last one of consecutive instructions. -/
def Instruction.lead (is : List Instruction) : Int := (is.dropLast.map (·.size)).sum

namespace Instruction

variable {i : Instruction} {is : List Instruction}

@[simp] theorem lead_singleton (i : Instruction) : lead [i] = 0 := rfl

theorem lead_cons (h : is ≠ []) (i : Instruction) : lead (i :: is) = i.size + lead is := by
  simp [lead, List.dropLast_cons_of_ne_nil h]

@[simp] theorem lead_concat (is : List Instruction) (i : Instruction) :
    lead (is ++ [i]) = (is.map (·.size)).sum := by
  simp [lead]

theorem lead_nonneg (h : ∀ i ∈ is, 0 ≤ i.size) : 0 ≤ lead is := by
  refine List.sum_nonneg fun n hn => ?_
  obtain ⟨i, hi, rfl⟩ := List.mem_map.mp hn
  exact h i (List.mem_of_mem_dropLast hi)

end Instruction

open Instruction (lead lead_cons lead_concat lead_nonneg)

namespace Growth

variable {a : Analysis} {wildcards outside : Bool} {origin limit : Int} {routine : Option Routine}
  {n : Nat} {g g' : Growth} {d d' : Dialogue} {s : Signature} {t : Turn}

theorem turn_eq_unlimited (h : g.part ≤ limit) (origin : Int) (routine : Option Routine)
    (d : Dialogue) :
    turn a ⟨wildcards, outside, .bytes limit, false⟩ origin routine g d =
      turn a ⟨wildcards, outside, .unlimited, false⟩ origin routine g d := by
  have hallow : ∀ e, g.allow ⟨wildcards, outside, .bytes limit, false⟩ origin e = (.ok g, e) :=
    allow_of_within (by simpa [Limit.exceeded] using h) origin
  have hallow' : ∀ e, g.allow ⟨wildcards, outside, .unlimited, false⟩ origin e = (.ok g, e) :=
    allow_of_within rfl origin
  simp only [turn, hallow, hallow']
  rfl

theorem le_of_turn (h : turn a ⟨wildcards, outside, .bytes limit, false⟩ origin routine g d = (t, d'))
    (ht : ∀ f, t ≠ .finished (.error f)) : g.part ≤ limit := by
  obtain ⟨i, g₁, d₁, d₂, -, -, hallow, -⟩ := exists_of_turn h ht
  simpa [Limit.exceeded] using within_of_allow rfl hallow

theorem part_of_turn_unlimited {i : Instruction}
    (h : turn a ⟨wildcards, outside, .unlimited, false⟩ origin routine g d = (.grown g', d'))
    (hdec : a.decoder.decode? g.address = some i) : g'.part = g.part + i.size := by
  obtain ⟨j, g₁, d₁, d₂, -, hdec', hallow, -, -, hjudge, -⟩ := exists_of_turn h (by simp)
  obtain rfl := Option.some.inj (hdec.symm.trans hdec')
  obtain ⟨rfl, -⟩ := judge_eq_grown_iff.mp hjudge.symm
  rw [allow_of_within rfl] at hallow
  obtain ⟨rfl, -⟩ : g = g₁ ∧ d₁ = d₂ := by simpa using hallow
  rfl

/-- A run succeeds under a limit exactly if it does without one and what it appends in front of the last
instruction is within the limit. -/
theorem run_limited_iff (hsize : ∀ x i, a.decoder.decode? x = some i → 0 ≤ i.size) :
    run a ⟨wildcards, outside, .bytes limit, false⟩ origin routine n g d = (.ok s, d') ↔
      run a ⟨wildcards, outside, .unlimited, false⟩ origin routine n g d = (.ok s, d') ∧
        g.part + lead (appended a ⟨wildcards, outside, .unlimited, false⟩ origin routine n g d) ≤
          limit := by
  induction n generalizing g d with
  | zero => exact iff_of_false run_zero_ne_ok fun h => run_zero_ne_ok h.1
  | succ n ih =>
    rcases Int.lt_or_le limit g.part with hlt | hle
    -- Past the limit the search fails in this turn, and without a limit its count would only grow.
    · refine iff_of_false (fun h => ?_) fun ⟨hrun, hlead⟩ => ?_
      · rcases run_succ_eq_ok_iff.mp h with hturn | ⟨g', d₁, hturn, -⟩
        · exact absurd (le_of_turn hturn (by simp)) (by omega)
        · exact absurd (le_of_turn hturn (by simp)) (by omega)
      · obtain ⟨is, i, y, happended, -, hwalk, -⟩ := exists_walk_of_run hrun
        rw [happended] at hlead
        have hnonneg : 0 ≤ lead (is ++ [i]) := lead_nonneg fun j hj => by
          obtain ⟨z, hz⟩ := hwalk.exists_of_mem hj
          exact hsize z j hz
        omega
    · have hsame : turn a ⟨wildcards, outside, .bytes limit, false⟩ origin routine g d = _ :=
        turn_eq_unlimited hle origin routine d
      rcases hturn : turn a ⟨wildcards, outside, .unlimited, false⟩ origin routine g d with
        ⟨result | g', d₁⟩
      · rw [run_succ_of_finished (hsame.trans hturn), run_succ_of_finished hturn]
        refine (and_iff_left_of_imp fun hok => ?_).symm
        obtain ⟨rfl, -⟩ := Prod.mk.inj hok
        obtain ⟨i, -, happended, -⟩ := exists_of_turn_ok hturn n
        simpa [happended] using hle
      · rw [run_succ_of_grown (hsame.trans hturn), run_succ_of_grown hturn, ih]
        refine and_congr_right fun hrun => ?_
        obtain ⟨i, hdec, happended, -⟩ := exists_of_turn_grown hturn n
        have hpart := part_of_turn_unlimited hturn hdec
        obtain ⟨is, j, y, hrest, -⟩ := exists_walk_of_run hrun
        rw [happended, lead_cons (by simp [hrest]), hpart]
        omega

end Growth

namespace Analysis

variable {a : Analysis} {image : Image} {h : Heuristics} {wildcards outside : Bool}
  {limit target x y : Int} {d : Dialogue} {s : Signature} {i : Instruction} {is : List Instruction}

theorem grow_limited_iff (hsize : ∀ x i, a.decoder.decode? x = some i → 0 ≤ i.size) :
    (a.grow ⟨wildcards, outside, .bytes limit, false⟩ x d).1 = .ok s ↔
      (a.grow ⟨wildcards, outside, .unlimited, false⟩ x d).1 = .ok s ∧
        lead (a.appended ⟨wildcards, outside, .unlimited, false⟩ x d) ≤ limit := by
  simp only [grow_eq_ok_iff, and_assoc]
  refine and_congr_right fun hx => and_congr_right fun hcode => ?_
  simp only [Growth.run_limited_iff hsize, exists_and_right, appended_eq hx hcode, Growth.start,
    Int.zero_add]

/-! ### Lengths -/

theorem length_bytes_le (a : Analysis) (wildcard : Bool) (x n : Int) :
    (a.bytes wildcard x n).length ≤ n.toNat := by
  simpa [bytes, Signature.ofBytes] using a.image.length_read_le x n

theorem wildcard_of_mem_bytes {c : Cell} {wildcard : Bool} {n : Int} (h : c ∈ a.bytes wildcard x n) :
    c.wildcard = wildcard := by
  obtain ⟨b, -, rfl⟩ := List.mem_map.mp h
  rfl

section BuiltIn

variable (hb : a.BuiltIn)
include hb

theorem exists_encoding_of_decode? (h : a.decoder.decode? x = some i) :
    ∃ mode bytes, Encoding.decode? mode x bytes = some i := by
  obtain ⟨mode, hd⟩ := hb.decoder
  rw [hd] at h
  obtain ⟨s, -, hdec⟩ := Option.bind_eq_some_iff.mp h
  unfold Encoding.decodeAt? at hdec
  split at hdec
  · exact ⟨mode, _, hdec⟩
  · cases hdec

theorem size_nonneg_of_decode? (h : a.decoder.decode? x = some i) : 0 ≤ i.size := by
  obtain ⟨mode, bytes, hdec⟩ := exists_encoding_of_decode? hb h
  exact (Encoding.bytes_of_decode? hdec).2.1.le

theorem keptSize_pos (h : a.decoder.decode? x = some i) (wildcards : Bool) :
    0 < i.keptSize wildcards ∧ i.keptSize wildcards ≤ i.size := by
  obtain ⟨mode, bytes, hdec⟩ := exists_encoding_of_decode? hb h
  have hpos := (Encoding.bytes_of_decode? hdec).2.1
  unfold Instruction.keptSize
  split
  · rcases Encoding.range?_cases hdec with ⟨-, hall⟩ | ⟨-, hkept, hlt⟩
    · omega
    · omega
  · omega

theorem exists_cells_eq_append (h : a.decoder.decode? x = some i) (wildcards : Bool) :
    ∃ kept masked : Signature, a.cells wildcards i = kept ++ masked ∧
      (∀ c ∈ kept, c.wildcard = false) ∧ (∀ c ∈ masked, c.wildcard = true) ∧
      kept.length ≤ i.keptSize wildcards ∧
      i.keptSize wildcards + masked.length ≤ i.size := by
  obtain ⟨mode, bytes, hdec⟩ := exists_encoding_of_decode? hb h
  have hsize := size_nonneg_of_decode? hb h
  have hall : i.keptSize wildcards = i.size.toNat → ∃ kept masked : Signature,
      a.bytes false i.address i.size = kept ++ masked ∧
        (∀ c ∈ kept, c.wildcard = false) ∧ (∀ c ∈ masked, c.wildcard = true) ∧
        kept.length ≤ i.keptSize wildcards ∧ i.keptSize wildcards + masked.length ≤ i.size := by
    intro hkept
    have hlength := a.length_bytes_le false i.address i.size
    refine ⟨_, [], (List.append_nil _).symm, fun c => wildcard_of_mem_bytes, nofun, ?_, ?_⟩
    · rwa [hkept]
    · rw [List.length_nil]
      omega
  unfold cells
  cases wildcards with
  | false => exact hall rfl
  | true =>
    rw [if_pos rfl, hb.masking]
    rcases Encoding.range?_cases hdec with ⟨hrange, hkept⟩ | ⟨hrange, hpos, hlt⟩
    · rw [hrange]
      exact hall hkept
    · have hkept : i.keptSize true = i.literalSize := rfl
      have hfront := a.length_bytes_le false i.address i.literalSize
      have hrest := a.length_bytes_le true (i.address + i.literalSize) (i.size - i.literalSize)
      rw [hrange]
      dsimp only
      rw [if_pos (by omega), if_neg (by omega), List.append_nil]
      refine ⟨_, _, rfl, fun c => wildcard_of_mem_bytes, fun c => wildcard_of_mem_bytes, ?_, ?_⟩
      · omega
      · omega

theorem length_cellsOf_le (hw : a.decoder.Walk x is y) (wildcards : Bool) :
    ((a.cellsOf wildcards is).length : Int) ≤ (is.map (·.size)).sum := by
  induction hw with
  | nil => exact Int.le_refl 0
  | cons hdec _ ih =>
    obtain ⟨kept, masked, hcells, -, -, hkept, hmasked⟩ := exists_cells_eq_append hb hdec wildcards
    rw [cellsOf_cons, hcells, List.length_append, List.length_append, List.map_cons, List.sum_cons]
    omega

/-- A signature ends with the literal bytes of its last instruction, or earlier where reading stops
before these. -/
theorem length_trim_cellsOf (hw : a.decoder.Walk x (is ++ [i]) y) (wildcards : Bool) :
    ((a.cellsOf wildcards (is ++ [i])).trim.length : Int) ≤
        lead (is ++ [i]) + i.keptSize wildcards ∧
      (a.image.Separated → ((a.cellsOf wildcards (is ++ [i])).trim.length : Int) =
        lead (is ++ [i]) + i.keptSize wildcards) := by
  obtain ⟨z, hfront⟩ := hw.of_prefix (List.prefix_append is [i])
  obtain ⟨z', hdec⟩ := hw.exists_of_mem List.mem_concat_self
  obtain ⟨kept, masked, hcells, hliteral, hwild, hkept, hmasked⟩ :=
    exists_cells_eq_append hb hdec wildcards
  have hall : a.cellsOf wildcards (is ++ [i]) = a.cellsOf wildcards is ++ kept ++ masked := by
    rw [cellsOf_append, cellsOf_cons, cellsOf_nil, List.append_nil, hcells, List.append_assoc]
  rw [hall, Signature.trim_append_of_wildcards hwild, lead_concat]
  constructor
  · have htrim := (Signature.trim_prefix (a.cellsOf wildcards is ++ kept)).length_le
    have hcount := length_cellsOf_le hb hfront wildcards
    rw [List.length_append] at htrim
    omega
  · intro hi
    have hlast := length_cells hb hi hdec wildcards
    have hcount := length_cellsOf hb hi hfront wildcards
    have hstop := hfront.stop_eq
    have hpos := (keptSize_pos hb hdec wildcards).1
    rw [hcells, List.length_append] at hlast
    rw [Signature.trim_append_of_literals (List.ne_nil_of_length_pos (by omega)) hliteral,
      List.length_append]
    omega

end BuiltIn

/-! ### Rankings -/

theorem mem_rank_iff {o : GrowthOptions} {results : List Ranked} {r : Ranked}
    (hb : a.decoder.Bounded) (hlimit : o.limit ≠ .unusable)
    (hrank : (a.rank o target d).1 = .ok results) :
    r ∈ results ↔ r.origin ∈ a.codeOrigins target ∧
      (a.grow { o with prompt := false } r.origin .quiet).1 = .ok r.signature := by
  obtain ⟨d', hquiet, -⟩ := exists_rank hb hlimit target d.neverCancelled_uncancelled
  have hsame := (a.rank_heeded o target d).heeds.1.resolve_left (by simp [hrank])
  rw [hrank, hquiet] at hsame
  rw [Except.ok.inj hsame, mem_ordered, List.mem_filterMap]
  simp only [ranked?_eq_some_iff]
  constructor
  · rintro ⟨x, hx, rfl, hgrow⟩
    exact ⟨hx, hgrow⟩
  · rintro ⟨hx, hgrow⟩
    exact ⟨_, hx, rfl, hgrow⟩

/-- With a limit of bytes, a ranking lists exactly the signatures that are found without one and whose
last instruction begins within the limit. Such a signature ends with the literal bytes of that
instruction, which may be past the limit, or earlier where reading stops before these. -/
theorem mem_rank_limited_iff (ha : ofImage image h = .ok a) {p : Bool} {results : List Ranked}
    (hrank : (a.rank ⟨wildcards, outside, .bytes limit, p⟩ target d).1 = .ok results)
    (r : Ranked) :
    let whole : GrowthOptions := ⟨wildcards, outside, .unlimited, false⟩
    let is := a.appended whole r.origin .quiet
    (r ∈ results ↔ r.origin ∈ a.codeOrigins target ∧
      (a.grow whole r.origin .quiet).1 = .ok r.signature ∧ lead is ≤ limit) ∧
    (r ∈ results → ∃ i y, is.getLast? = some i ∧ a.decoder.Walk r.origin is y ∧
      r.signature = (a.cellsOf wildcards is).trim ∧
      (r.signature.length : Int) ≤ lead is + i.keptSize wildcards ∧
      (image.Separated → (r.signature.length : Int) = lead is + i.keptSize wildcards)) := by
  intro whole is
  have hb := builtIn_of_ofImage ha
  have hiff : r ∈ results ↔ r.origin ∈ a.codeOrigins target ∧
      (a.grow whole r.origin .quiet).1 = .ok r.signature ∧ lead is ≤ limit := by
    rw [mem_rank_iff (bounded_of_ofImage ha) (by simp) hrank]
    exact and_congr_right fun _ => grow_limited_iff fun x i => size_nonneg_of_decode? hb
  refine ⟨hiff, fun hmem => ?_⟩
  obtain ⟨-, js, i, y, happended, hwalk, hs, -⟩ := exists_walk_of_grow (hiff.mp hmem).2.1
  have his : is = js ++ [i] := happended
  have hlength := length_trim_cellsOf hb hwalk wildcards
  rw [image_of_ofImage ha] at hlength
  rw [his, hs]
  exact ⟨i, y, List.getLast?_concat, hwalk, rfl, hlength⟩

/-- A call and a push are found together, and the push is where the limit is reached. -/
theorem mem_rank_limited_iff_push :
    let image := Image.flat [0xE8, 6, 0, 0, 0, 0x50, 0xE8, 1, 0, 0, 0, 0xC3, 0xC3] 0x1000 true
      "metapc" 64
    let r : Ranked := ⟨0x1000, [⟨0xE8, false⟩, ⟨6, true⟩, ⟨0, true⟩, ⟨0, true⟩, ⟨0, true⟩,
      ⟨0x50, false⟩]⟩
    ∃ a i y, ofImage image ⟨true, true, true⟩ = .ok a ∧
      (a.rank ⟨true, true, .bytes 5, true⟩ 0x100B .quiet).1 = .ok [r] ∧
      let is := a.appended ⟨true, true, .unlimited, false⟩ 0x1000 .quiet
      is.getLast? = some i ∧ a.decoder.Walk 0x1000 is y ∧ lead is ≤ 5 ∧
        (6 : Int) = lead is + i.keptSize true := by
  intro image r
  let a := ofDecoder image (.ofImage image .bits64) ⟨true, true, true⟩
  have hrank : (a.rank ⟨true, true, .bytes 5, true⟩ 0x100B .quiet).1 = .ok [r] := by cbv
  have hmem : r ∈ [r] := List.mem_singleton_self r
  have ha : ofImage image ⟨true, true, true⟩ = .ok a := rfl
  obtain ⟨hiff, hlast⟩ := mem_rank_limited_iff ha hrank r
  obtain ⟨i, y, hi, hwalk, -, -, hlength⟩ := hlast hmem
  exact ⟨a, i, y, ha, hrank, hi, hwalk, (hiff.mp hmem).2.2,
    hlength (Image.separated_flat (by decide) ..)⟩

/-- A signature of three bytes under a limit of one. -/
theorem rank_exceeds_limit :
    let image := Image.flat [0x48, 0x8D, 5, 0xF9, 0xFF, 0xFF, 0xFF] 0 true "metapc" 64
    let s : Signature := [0x48, 0x8D, 5].map (⟨·, false⟩)
    ∃ a, ofImage image ⟨true, true, true⟩ = .ok a ∧
      (a.rank ⟨true, false, .bytes 1, false⟩ 0 .quiet).1 = .ok [⟨0, s⟩] ∧ 1 < s.length := by
  intro image s
  exact ⟨ofDecoder image (.ofImage image .bits64) ⟨true, true, true⟩, rfl, by cbv, by decide⟩

end Analysis

end CodeSignature
