import CodeSignature.Image.Scan
import CodeSignature.Proofs.Image.Occurrences
import CodeSignature.Proofs.Signature.Token
import Mathlib

/-! # What a scan finds

The expression that is written for a pattern stands for that pattern and nothing else, so a scan
finds its occurrences. With a limit it finds the first of them, one at least.
-/

namespace CodeSignature

namespace Scan

variable {p : Pattern} {b : UInt8} {bytes : List UInt8}

theorem isWordByte_of_escaped (h : escaped.contains b = true) : isWordByte b = false := by
  have hall : escaped.all (fun b => !isWordByte b) = true := by decide
  simpa using List.all_eq_true.mp hall b (List.contains_iff_mem.mp h)

theorem contains_escaped_of_operator (h : operators.contains b = true) :
    escaped.contains b = true := by
  have hall : operators.all escaped.contains = true := by decide
  exact List.all_eq_true.mp hall b (List.contains_iff_mem.mp h)

theorem places?_literal (b : UInt8) (bytes : List UInt8) :
    places? (literal b ++ bytes) = (places? bytes).map (some b :: ·) := by
  unfold literal
  split
  next hescaped =>
    rw [List.cons_append, List.cons_append, List.nil_append, places?, if_neg (by decide),
      if_pos rfl]
    simp [isWordByte_of_escaped hescaped]
  next hplain =>
    have hdot : b ≠ dot := by
      rintro rfl
      exact hplain (by decide)
    have hbackslash : b ≠ backslash := by
      rintro rfl
      exact hplain (by decide)
    have hoperator : ¬ operators.contains b = true :=
      fun h => hplain (contains_escaped_of_operator h)
    rw [List.singleton_append, places?.eq_def]
    simp only [if_neg hdot, if_neg hbackslash, if_neg hoperator]

theorem places?_items (p : Pattern) : places? (p.flatMap item) = some p := by
  induction p with
  | nil => rfl
  | cons place p ih =>
    rw [List.flatMap_cons]
    cases place with
    | none =>
      rw [item, List.singleton_append, places?.eq_def]
      simp only [if_pos, ih, Option.map_some]
    | some b =>
      rw [item, places?_literal, ih]
      rfl

/-- The expression of a pattern stands for that pattern, whatever its bytes are. -/
theorem read?_expression (p : Pattern) : read? (expression p) = some p := by
  have htake : (expression p).take opening.length = opening := by
    rw [expression, List.append_assoc, List.take_left]
  have hlast : (expression p).getLast? = closing.head? := by
    rw [expression, List.getLast?_append]
    rfl
  have hinside : ((expression p).drop opening.length).dropLast = p.flatMap item := by
    rw [expression, List.append_assoc, List.drop_left]
    exact List.dropLast_concat
  rw [read?, if_pos ⟨htake, hlast⟩, hinside, places?_items]

theorem offsets_cons (p : Pattern) (b : UInt8) (bytes : List UInt8) :
    offsets p (b :: bytes) =
      (if p.matchesFront (b :: bytes) then [0] else []) ++ (offsets p bytes).map (· + 1) := by
  rw [offsets, List.length_cons, List.range_succ_eq_map, List.filter_cons, List.filter_map]
  have hshift : (fun i => p.matchesFront ((b :: bytes).drop i)) ∘ Nat.succ =
      fun i => p.matchesFront (bytes.drop i) := rfl
  rw [hshift, List.drop_zero]
  split <;> rfl

theorem hits_eq (hp : p ≠ []) (s : Segment) : hits p s = p.occurrences s.start s.data := by
  unfold hits
  generalize s.start = a
  induction s.data generalizing a with
  | nil =>
    obtain ⟨place, p, rfl⟩ := List.exists_cons_of_ne_nil hp
    rfl
  | cons b bytes ih =>
    have hrest : (offsets p bytes).map (fun (i : Nat) => a + (i + 1 : Nat)) =
        p.occurrences (a + 1) bytes := by
      rw [← ih]
      refine List.map_congr_left fun i _ => ?_
      push_cast
      omega
    rw [offsets_cons, Pattern.occurrences, List.map_append, List.map_map]
    split
    · rw [← hrest]
      simp [Function.comp_def]
    · rw [← hrest]
      simp [Function.comp_def]

section Collection

variable {limit : Int} {found : List Int}

theorem collect_none (found xs : List Int) : collect none found xs = .yield (found ++ xs) := by
  induction xs generalizing found with
  | nil => rw [collect, List.append_nil]
  | cons x xs ih =>
    rw [collect, isEnough, if_neg (by simp), ih, List.append_assoc, List.singleton_append]

theorem collectEach_none (p : Pattern) (found : List Int) (segments : List Segment) :
    collectEach p none found segments = found ++ segments.flatMap (hits p) := by
  induction segments generalizing found with
  | nil => rw [collectEach, List.flatMap_nil, List.append_nil]
  | cons s rest ih =>
    simp only [collectEach, collect_none, ih, List.flatMap_cons, List.append_assoc]

theorem collect_some (h : found.length < (max limit 1).toNat) (xs : List Int) :
    collect (some limit) found xs =
      if (max limit 1).toNat ≤ (found ++ xs).length then
        .done ((found ++ xs).take (max limit 1).toNat)
      else .yield (found ++ xs) := by
  induction xs generalizing found with
  | nil => rw [collect, List.append_nil, if_neg (by omega)]
  | cons x xs ih =>
    have hlength : (found ++ [x]).length = found.length + 1 := by simp
    have hassoc : found ++ x :: xs = (found ++ [x]) ++ xs := by simp
    rw [collect, isEnough, hassoc]
    by_cases henough : limit ≤ (found ++ [x]).length
    · have hn : (max limit 1).toNat = (found ++ [x]).length := by omega
      rw [if_pos (by simpa using henough), hn, List.take_left, if_pos (by simp)]
    · rw [if_neg (by simpa using henough), ih (by omega)]

theorem collectEach_some (p : Pattern) (h : found.length < (max limit 1).toNat)
    (segments : List Segment) :
    collectEach p (some limit) found segments =
      (found ++ segments.flatMap (hits p)).take (max limit 1).toNat := by
  induction segments generalizing found with
  | nil => rw [collectEach, List.flatMap_nil, List.append_nil, List.take_of_length_le (by omega)]
  | cons s rest ih =>
    rw [collectEach, collect_some h, List.flatMap_cons, ← List.append_assoc]
    by_cases hdone : (max limit 1).toNat ≤ (found ++ hits p s).length
    · rw [if_pos hdone, List.take_append_of_le_length hdone]
    · rw [if_neg hdone]
      exact ih (by omega)

end Collection

theorem arrange_segments (image : Image) : Image.arrange image.segments = image.segments :=
  List.mergeSort_of_pairwise (image.ascending.imp fun h => decide_eq_true h)

def raised {α : Type} : Except Failure α → Except Cause α :=
  Except.mapError fun f => .refusal (.failure f)

@[simp] theorem raised_ok {α : Type} (x : α) : raised (.ok x) = .ok x := rfl

theorem toNat_max_one (limit : Int) : (max limit 1).toNat = max limit.toNat 1 := by omega

theorem collectEach_eq (hp : p ≠ []) (image : Image) (limit : Option Int) :
    collectEach p limit [] image.segments =
      match limit with
      | some limit => image.firstOccurrences p limit
      | none => image.occurrences p := by
  have hall : image.segments.flatMap (hits p) = image.occurrences p := by
    rw [Image.occurrences]
    exact List.flatMap_congr fun s _ => hits_eq hp s
  cases limit with
  | none => rw [collectEach_none, List.nil_append, hall]
  | some limit =>
    rw [collectEach_some p (by rw [List.length_nil]; omega), List.nil_append, hall, toNat_max_one]
    exact (Image.firstOccurrences_eq_take _ _ _).symm

/-- The scan of an image is the search: no conversion is refused, and every expression is read back
as the pattern that it is written for. -/
theorem find_eq (image : Image) (text : String) (limit : Option Int) :
    find image.segments text limit = raised (image.find text limit) := by
  rw [find, Staged.pattern_eq, Image.find]
  cases hread : Pattern.read text with
  | error f => rfl
  | ok p =>
    have hp := (Pattern.read_eq_ok_iff.mp hread).1
    simp only [Staged.staged_ok, id_eq, read?_expression, arrange_segments, collectEach_eq hp]
    rfl

theorem isUnique_eq (image : Image) (text : String) :
    isUnique image text = raised (image.isUnique text) := by
  rw [isUnique, find_eq, Image.isUnique, Image.find]
  cases Pattern.read text with
  | error f => rfl
  | ok p => rfl

theorem find_ofSegments (segments : List Segment) (processor : String) (bitness : Int)
    (entryPoint : Option Int) (text : String) (limit : Option Int) :
    find segments text limit =
      raised ((Image.ofSegments segments processor bitness entryPoint).find text limit) := by
  rw [← find_eq, find, find, arrange_segments]
  rfl

section Limited

variable {text : String} (segments : List Segment) (processor : String) (bitness : Int)
  (entryPoint : Option Int)

/-- With a limit the search is cut short after so many hits, one at least, wherever they are. So a
pattern text is held to be unique exactly if there is one hit in all. -/
theorem find_limited (h : Pattern.read text = .ok p) :
    let image := Image.ofSegments segments processor bitness entryPoint
    ∃ found, image.find text none = .ok found ∧ find segments text none = .ok found ∧
      (∀ limit : Int, image.find text (some limit) = .ok (found.take (max limit 1).toNat) ∧
        find segments text (some limit) = .ok (found.take (max limit 1).toNat)) ∧
      image.isUnique text = .ok (decide (found.length = 1)) ∧
      isUnique image text = .ok (decide (found.length = 1)) := by
  intro image
  have hfind (limit : Int) :
      image.find text (some limit) = .ok ((image.occurrences p).take (max limit 1).toNat) := by
    rw [Image.find_limit_of_read h, toNat_max_one, Image.firstOccurrences_eq_take]
  have hnone : image.find text none = .ok (image.occurrences p) := Image.find_of_read h image
  have hunique :
      image.isUnique text = .ok (decide ((image.occurrences p).length = 1)) := by
    have honce : image.occursOnce p = decide ((image.occurrences p).length = 1) := by
      rw [Bool.eq_iff_iff, Image.occursOnce_iff, decide_eq_true_eq, List.length_eq_one_iff]
    rw [Image.isUnique_of_read h, honce]
  have hscan (limit : Option Int) : find segments text limit = raised (image.find text limit) :=
    find_ofSegments segments processor bitness entryPoint text limit
  refine ⟨image.occurrences p, hnone, ?_, fun limit => ⟨hfind limit, ?_⟩, hunique, ?_⟩
  · rw [hscan, hnone, raised_ok]
  · rw [hscan, hfind, raised_ok]
  · rw [isUnique_eq, hunique, raised_ok]

/-- Segments may overlap, and an address of two segments counts twice. No limit is too low for the
first hit. -/
theorem find_limited_overlapping :
    let text := "90 ??"
    let segments : List Segment :=
      [⟨"b", 1, [0x90, 0x90, 0xC3], true⟩, ⟨"a", 0, [0x90, 0x90, 0x90], true⟩]
    let image := Image.ofSegments segments "metapc" 64 none
    Pattern.read text = .ok [some 0x90, none] ∧ find segments text none = .ok [0, 1, 1, 2] ∧
      find segments text (some (-5)) = .ok [0] ∧ find segments text (some 0) = .ok [0] ∧
      find segments text (some 3) = .ok [0, 1, 1] ∧
      find segments text (some 9) = .ok [0, 1, 1, 2] ∧ isUnique image text = .ok false := by
  intro text segments image
  have h : Pattern.read text = .ok [some 0x90, none] := by decide +kernel
  obtain ⟨found, himage, hfind, hlimit, -, hunique⟩ := find_limited segments "metapc" 64 none h
  have hoccurrences : image.occurrences [some 0x90, none] = [0, 1, 1, 2] := by cbv
  have hfound : image.find text none = .ok [0, 1, 1, 2] := by
    rw [Image.find_of_read h, hoccurrences]
  obtain rfl := Except.ok.inj (himage.symm.trans hfound)
  exact ⟨h, hfind, (hlimit (-5)).2, (hlimit 0).2, (hlimit 3).2, (hlimit 9).2, hunique⟩

end Limited

end Scan

end CodeSignature
