import CodeSignature.Proofs.Sequence
import CodeSignature.Proofs.Signature.Scan
import CodeSignature.Proofs.Signature.Trim

/-! # Signatures written as words

A signature that is written as words reads back without its trailing wildcards, and with zeros under
the others. No mark of another dialect occurs among the words. With a blank after each of them, the
words tell where they end.
-/

namespace CodeSignature

namespace Signature

variable {cs : List Char} {a : Char}

def cleared (s : Signature) : Signature := s.map fun c => if c.wildcard then ⟨0, true⟩ else c

theorem singleMarks_cons_of_ne (h : a ≠ '?') (cs : List Char) :
    singleMarks (a :: cs) = a :: singleMarks cs := by
  match cs with
  | [] => rfl
  | [_] => rfl
  | b :: c :: rest => rw [singleMarks, if_neg (fun hm => h hm.1)]

theorem singleMarks_mark (cs : List Char) :
    singleMarks ('?' :: ' ' :: cs) = '?' :: ' ' :: singleMarks cs := by
  cases cs with
  | nil => rfl
  | cons c cs =>
    rw [singleMarks, if_neg (by simp), singleMarks_cons_of_ne (by decide)]

end Signature

namespace Dialect

open Signature

variable {mark cs : List Char} {s : Signature} {c : Cell} {x : Char}

def spaced (mark : List Char) (s : Signature) : List Char :=
  s.flatMap fun c => word mark c ++ [' ']

theorem spaced_cons (mark : List Char) (c : Cell) (s : Signature) :
    spaced mark (c :: s) = word mark c ++ ' ' :: spaced mark s := by
  simp [spaced]

theorem spaced_append (mark : List Char) (s t : Signature) :
    spaced mark (s ++ t) = spaced mark s ++ spaced mark t := List.flatMap_append

theorem exists_words_cons (mark : List Char) (c : Cell) (s : Signature) :
    ∃ rest, words mark (c :: s) = word mark c ++ rest := by
  rw [words_eq]
  cases s with
  | nil => exact ⟨[], by simp⟩
  | cons c' s =>
    refine ⟨[' '] ++ words mark (c' :: s), ?_⟩
    rw [words_eq, List.map_cons, List.map_cons, List.intercalate_cons_cons, List.append_assoc]

theorem words_concat_blank (mark : List Char) (h : s ≠ []) :
    words mark s ++ [' '] = spaced mark s := by
  rw [words_eq]
  induction s with
  | nil => exact absurd rfl h
  | cons c s ih =>
    cases s with
    | nil => simp [spaced]
    | cons c' s =>
      rw [spaced_cons, ← ih (List.cons_ne_nil _ _), List.map_cons, List.map_cons,
        List.intercalate_cons_cons]
      simp

theorem forall_mem_words {P : Char → Prop} (hblank : P ' ') (hmark : ∀ x ∈ mark, P x)
    (hdigit : ∀ n : Fin 16, P (Hex.upperDigit n)) (s : Signature) : ∀ x ∈ words mark s, P x := by
  intro x hx
  have hne : s ≠ [] := by
    rintro rfl
    simp [words] at hx
  have hmem : x ∈ spaced mark s := words_concat_blank mark hne ▸ List.mem_append_left _ hx
  obtain ⟨c, -, hc⟩ := List.mem_flatMap.mp hmem
  rw [List.mem_append, List.mem_singleton] at hc
  rcases hc with hc | rfl
  · have hb : c.value.toNat < 256 := c.value.toNat_lt
    unfold word at hc
    split at hc
    · exact hmark x hc
    · rw [Hex.upperByte, List.mem_cons, List.mem_singleton] at hc
      rcases hc with rfl | rfl
      · exact hdigit ⟨_, by omega⟩
      · exact hdigit ⟨_, by omega⟩
  · exact hblank

section Marks

variable (hmark : mark = ['?'] ∨ mark = ['?', '?'])
include hmark

theorem findMask_words (s : Signature) : findMask (words mark s) = none := by
  have hx : 'x' ∉ words mark s := by
    intro hmem
    refine forall_mem_words (P := (· ≠ 'x')) (by decide) ?_ (by decide) s _ hmem rfl
    rcases hmark with rfl | rfl <;> simp
  have hb : 'b' ∉ words mark s := by
    intro hmem
    refine forall_mem_words (P := (· ≠ 'b')) (by decide) ?_ (by decide) s _ hmem rfl
    rcases hmark with rfl | rfl <;> simp
  rw [findMask, findMaskRun_eq_none hx, findBits_eq_none hb]
  rfl

theorem filter_words (s : Signature) :
    (words mark s).filter (fun c => !isBracket c) = words mark s := by
  refine List.filter_eq_self.mpr fun x hx => ?_
  refine forall_mem_words (P := fun x => (!isBracket x) = true) (by decide) ?_ (by decide) s x hx
  rcases hmark with rfl | rfl <;> simp [isBracket]

theorem stripFront_words (s : Signature) : Text.stripFront (words mark s) = words mark s := by
  cases s with
  | nil => rfl
  | cons c s =>
    obtain ⟨rest, hrest⟩ := exists_words_cons mark c s
    obtain ⟨a, w, hw, ha⟩ : ∃ a w, word mark c = a :: w ∧ isBlank a = false := by
      have hb : c.value.toNat < 256 := c.value.toNat_lt
      unfold word
      split
      · rcases hmark with rfl | rfl <;> exact ⟨_, _, rfl, rfl⟩
      · exact ⟨_, _, rfl, Hex.isBlank_upperDigit (by omega)⟩
    rw [hrest, hw, Text.stripFront, List.cons_append, List.dropWhile_cons_of_neg (by simp [ha])]

theorem isTail_of_mem_spaced (h : ∀ c ∈ s, c.wildcard = true) :
    ∀ x ∈ spaced mark s, isTail x = true := by
  intro x hx
  obtain ⟨c, hc, hx⟩ := List.mem_flatMap.mp hx
  rw [word, if_pos (h c hc), List.mem_append, List.mem_singleton] at hx
  rcases hx with hx | rfl
  · have hx : x = '?' := by rcases hmark with rfl | rfl <;> simpa using hx
    rw [hx]
    rfl
  · rfl

theorem dropEndWhile_words (s : Signature) :
    Sequence.dropEndWhile isTail (words mark s) ++ [' '] =
      if s.trim = [] then [' '] else spaced mark s.trim := by
  have hblank : ∀ x ∈ [' '], isTail x = true := List.forall_mem_singleton.mpr rfl
  have hdrop : Sequence.dropEndWhile isTail (words mark s) =
      Sequence.dropEndWhile isTail (spaced mark s.trim) := by
    rcases eq_or_ne s [] with rfl | hne
    · rfl
    obtain ⟨tail, hs, htail⟩ := s.exists_eq_trim_append
    calc Sequence.dropEndWhile isTail (words mark s)
        = Sequence.dropEndWhile isTail (words mark s ++ [' ']) :=
          (Sequence.dropEndWhile_append_of_forall hblank _).symm
      _ = Sequence.dropEndWhile isTail (spaced mark s.trim ++ spaced mark tail) := by
          rw [words_concat_blank mark hne, ← spaced_append, ← hs]
      _ = Sequence.dropEndWhile isTail (spaced mark s.trim) :=
          Sequence.dropEndWhile_append_of_forall (isTail_of_mem_spaced hmark htail) _
  rw [hdrop]
  split
  next hnil => rw [hnil]; rfl
  next hne =>
    -- The low digit of the last literal byte is no tail, and the blank after it is.
    obtain ⟨front, c, htrim, hc⟩ := Signature.exists_trim_eq_append hne
    have hlow : isTail (Hex.upperDigit (c.value.toNat % 16)) = false := by
      have : ∀ n : Fin 16, isTail (Hex.upperDigit n) = false := by decide
      exact this ⟨_, Nat.mod_lt _ (by decide)⟩
    have hspaced : spaced mark s.trim =
        (spaced mark front ++ [Hex.upperDigit (c.value.toNat / 16)]) ++
          [Hex.upperDigit (c.value.toNat % 16)] ++ [' '] := by
      rw [htrim, spaced_append]
      simp [spaced, word, hc, Hex.upperByte]
    rw [hspaced, Sequence.dropEndWhile_append_of_forall hblank,
      Sequence.dropEndWhile_concat hlow]

theorem singleMarks_word (c : Cell) (cs : List Char) :
    singleMarks (word mark c ++ ' ' :: cs) = word ['?'] c ++ ' ' :: singleMarks cs := by
  unfold word
  split
  · rcases hmark with rfl | rfl
    · exact singleMarks_mark cs
    · rw [List.cons_append, List.cons_append, List.nil_append, singleMarks, if_pos ⟨rfl, rfl, rfl⟩]
      rfl
  · obtain ⟨hhigh, hlow⟩ := Hex.upperDigit_ne (x := '?') (by decide) c.value
    simp only [Hex.upperByte, List.cons_append, List.nil_append]
    rw [singleMarks_cons_of_ne hhigh, singleMarks_cons_of_ne hlow,
      singleMarks_cons_of_ne (by decide)]

theorem singleMarks_spaced (s : Signature) : singleMarks (spaced mark s) = spaced ['?'] s := by
  induction s with
  | nil => rfl
  | cons c s ih => rw [spaced_cons, spaced_cons, singleMarks_word hmark, ih]

theorem normalize_words (s : Signature) :
    normalize (words mark s) = if s.trim = [] then [' '] else spaced ['?'] s.trim := by
  rw [Signature.normalize, filter_words hmark, stripFront_words hmark, dropEndWhile_words hmark]
  split
  · rfl
  · exact singleMarks_spaced hmark _

end Marks

theorem words_spaced (s : Signature) : Text.words (spaced ['?'] s) = s.map (word ['?']) := by
  induction s with
  | nil => rfl
  | cons c s ih =>
    rw [spaced_cons, Text.words_append_blank (word_ne_nil c) (isBlank_word c), ih, List.map_cons]

theorem ofWord?_word (c : Cell) :
    ofWord? (word ['?'] c) = some (if c.wildcard then ⟨0, true⟩ else c) := by
  unfold word
  split
  · rfl
  next hc =>
    obtain ⟨hhigh, -⟩ := Hex.upperDigit_ne (x := '?') (by decide) c.value
    simp only [Hex.upperByte, ofWord?, Hex.byte?_upperByte, Option.map_some]
    rw [Bool.not_eq_true] at hc
    rw [← hc]

theorem ofWords?_spaced (h : s ≠ []) : ofWords? (spaced ['?'] s) = some (cleared s) := by
  have hall : (s.map (word ['?'])).mapM ofWord? = some (cleared s) := by
    clear h
    induction s with
    | nil => rfl
    | cons c s ih =>
      rw [List.map_cons, List.mapM_cons, ofWord?_word, ih]
      rfl
  rw [ofWords?, words_spaced]
  cases s with
  | nil => exact absurd rfl h
  | cons c s => exact hall

end Dialect

namespace Signature

open Dialect

theorem read_words {mark : List Char} (hmark : mark = ['?'] ∨ mark = ['?', '?']) (s : Signature) :
    readChars (words mark s) =
      if s.trim = [] then .error .unrecognizedText else .ok (cleared s.trim) := by
  rw [readChars, findMask_words hmark]
  simp only [readPlain, normalize_words hmark]
  by_cases hnil : s.trim = []
  · rw [if_pos hnil, if_pos hnil]
    rfl
  · rw [if_neg hnil, if_neg hnil, ofWords?_spaced hnil]

/-- Words, with single or double marks for wildcards, are read as the trimmed signature without the
values under its wildcards. Of wildcards alone nothing is recognised. -/
theorem read_render_words (s : Signature) :
    read (Dialect.ida.render s) =
        (if s.trim = [] then .error .unrecognizedText else .ok (cleared s.trim)) ∧
      read (Dialect.x64dbg.render s) =
        if s.trim = [] then .error .unrecognizedText else .ok (cleared s.trim) := by
  constructor
  · rw [read, render, String.toList_ofList]
    exact read_words (.inl rfl) s
  · rw [read, render, String.toList_ofList]
    exact read_words (.inr rfl) s

example :
    read (Dialect.x64dbg.render [⟨1, true⟩, ⟨0x8B, false⟩, ⟨2, true⟩, ⟨0x05, false⟩, ⟨3, true⟩]) =
      .ok [⟨0, true⟩, ⟨0x8B, false⟩, ⟨0, true⟩, ⟨0x05, false⟩] := by
  decide +kernel

end Signature

end CodeSignature
