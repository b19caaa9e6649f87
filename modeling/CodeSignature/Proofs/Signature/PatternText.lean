import CodeSignature.Image.Occurrences
import CodeSignature.Signature.Dialect
import Mathlib.Data.List.TakeWhile

/-! # Written patterns

A signature written as words reads back as its own pattern, so a search for the written text is a
search for the pattern.
-/

namespace CodeSignature

namespace Text

variable {word cs : List Char}

theorem splitWord_of_blank {c : Char} (h : isBlank c = true) (cs : List Char) :
    splitWord (c :: cs) = ([], words cs) := by
  simp [splitWord, words, h]

theorem words_of_blank {c : Char} (h : isBlank c = true) (cs : List Char) :
    words (c :: cs) = words cs := by
  simp [words, splitWord, h]

theorem splitWord_append (h : ∀ c ∈ word, isBlank c = false) (cs : List Char) :
    splitWord (word ++ cs) = (word ++ (splitWord cs).1, (splitWord cs).2) := by
  induction word with
  | nil => rfl
  | cons c word ih =>
    rw [List.forall_mem_cons] at h
    simp [splitWord, ih h.2, h.1]

theorem words_of_word (hn : word ≠ []) (h : ∀ c ∈ word, isBlank c = false) :
    words word = [word] := by
  have hs := splitWord_append h []
  rw [List.append_nil] at hs
  simp [words, hs, splitWord, hn]

theorem words_append_of_blank (hn : word ≠ []) (h : ∀ c ∈ word, isBlank c = false) {c : Char}
    (hc : isBlank c = true) (cs : List Char) : words (word ++ c :: cs) = word :: words cs := by
  have hs := splitWord_append h (c :: cs)
  rw [splitWord_of_blank hc] at hs
  simp [words, hs, hn]

theorem words_append_blank (hn : word ≠ []) (h : ∀ c ∈ word, isBlank c = false)
    (cs : List Char) : words (word ++ ' ' :: cs) = word :: words cs :=
  words_append_of_blank hn h (by decide) cs

theorem exists_word_append {c : Char} (hc : isBlank c = false) (cs : List Char) :
    ∃ word rest : List Char, c :: cs = word ++ rest ∧ word ≠ [] ∧
      (∀ a ∈ word, isBlank a = false) ∧ ∀ a ∈ rest.head?, isBlank a = true := by
  refine ⟨(c :: cs).takeWhile (fun a => !isBlank a), (c :: cs).dropWhile (fun a => !isBlank a),
    List.takeWhile_append_dropWhile.symm, ?_, ?_, ?_⟩
  · rw [List.takeWhile_cons_of_pos (by simp [hc])]
    exact List.cons_ne_nil _ _
  · intro a ha
    simpa using List.mem_takeWhile_imp ha
  · intro a ha
    have hhead := List.head?_dropWhile_not (fun a => !isBlank a) (c :: cs)
    rw [Option.mem_def.mp ha] at hhead
    simpa using hhead

theorem words_intercalate {ws : List (List Char)} (hn : ∀ w ∈ ws, w ≠ [])
    (h : ∀ w ∈ ws, ∀ c ∈ w, isBlank c = false) : words ([' '].intercalate ws) = ws := by
  induction ws with
  | nil => rfl
  | cons w rest ih =>
    rw [List.forall_mem_cons] at hn h
    cases rest with
    | nil => simpa using words_of_word hn.1 h.1
    | cons w' rest =>
      rw [List.intercalate_cons_cons, List.append_assoc, List.singleton_append,
        words_append_blank hn.1 h.1, ih hn.2 h.2]

end Text

namespace Hex

theorem digit?_upperDigit {n : Nat} (h : n < 16) : digit? (upperDigit n) = some n := by
  have : ∀ n : Fin 16, digit? (upperDigit n) = some n.val := by decide
  exact this ⟨n, h⟩

theorem isBlank_upperDigit {n : Nat} (h : n < 16) : isBlank (upperDigit n) = false := by
  have : ∀ n : Fin 16, isBlank (upperDigit n) = false := by decide
  exact this ⟨n, h⟩

theorem upperDigit_ne {x : Char} (h : ∀ n : Fin 16, upperDigit n ≠ x) (b : UInt8) :
    upperDigit (b.toNat / 16) ≠ x ∧ upperDigit (b.toNat % 16) ≠ x := by
  have hb : b.toNat < 256 := b.toNat_lt
  exact ⟨h ⟨_, by omega⟩, h ⟨_, by omega⟩⟩

theorem byte?_upperByte (b : UInt8) :
    byte? (upperDigit (b.toNat / 16)) (upperDigit (b.toNat % 16)) = some b := by
  have hb : b.toNat < 256 := b.toNat_lt
  rw [byte?, digit?_upperDigit (by omega), digit?_upperDigit (by omega)]
  simp only [Option.bind_eq_bind, Option.bind_some, Option.pure_def, Option.some.injEq]
  rw [Nat.div_add_mod, UInt8.ofNat_toNat]

end Hex

namespace Dialect

def word (mark : List Char) (c : Cell) : List Char :=
  if c.wildcard then mark else Hex.upperByte c.value

theorem words_eq (mark : List Char) (s : Signature) :
    words mark s = [' '].intercalate (s.map (word mark)) := rfl

theorem word_ne_nil (c : Cell) : word ['?'] c ≠ [] := by
  unfold word
  split <;> simp [Hex.upperByte]

theorem isBlank_word (c : Cell) : ∀ x ∈ word ['?'] c, isBlank x = false := by
  have hb : c.value.toNat < 256 := c.value.toNat_lt
  intro x hx
  unfold word at hx
  split at hx
  · obtain rfl := List.mem_singleton.mp hx
    decide
  · rw [Hex.upperByte, List.mem_cons, List.mem_singleton] at hx
    rcases hx with rfl | rfl
    · exact Hex.isBlank_upperDigit (by omega)
    · exact Hex.isBlank_upperDigit (by omega)

theorem ofToken_word (c : Cell) :
    Pattern.ofToken (word ['?'] c) = .ok (if c.wildcard then none else some c.value) := by
  unfold word
  split
  · rfl
  · obtain ⟨h, -⟩ := Hex.upperDigit_ne (x := '?') (by decide) c.value
    simp [Pattern.ofToken, Hex.upperByte, Hex.byte?_upperByte, h]

end Dialect

namespace Pattern

/-- A written signature reads as its pattern. -/
theorem read_render {s : Signature} (h : s ≠ []) :
    Pattern.read (Dialect.ida.render s) = .ok s.pattern := by
  have hw : Text.words (Dialect.ida.render s).toList = s.map (Dialect.word ['?']) := by
    rw [Dialect.render, String.toList_ofList, Dialect.renderChars, Dialect.words_eq]
    refine Text.words_intercalate ?_ ?_
    · simpa using fun c _ => Dialect.word_ne_nil c
    · simpa using fun c _ => Dialect.isBlank_word c
  have hm : (s.map (Dialect.word ['?'])).mapM ofToken = .ok s.pattern := by
    clear h hw
    induction s with
    | nil => rfl
    | cons c s ih =>
      rw [List.map_cons, List.mapM_cons, Dialect.ofToken_word, ih]
      rfl
  unfold Pattern.read
  rw [hw]
  cases s with
  | nil => exact absurd rfl h
  | cons c s => exact hm

end Pattern

namespace Image

variable {image : Image} {s : Signature} {text : String} {p : Pattern}

theorem find_of_read (h : Pattern.read text = .ok p) (image : Image) :
    image.find text none = .ok (image.occurrences p) := by
  rw [find, h]
  rfl

theorem find_limit_of_read (h : Pattern.read text = .ok p) (image : Image) (limit : Int) :
    image.find text (some limit) = .ok (image.firstOccurrences p limit) := by
  rw [find, h]
  rfl

theorem isUnique_of_read (h : Pattern.read text = .ok p) (image : Image) :
    image.isUnique text = .ok (image.occursOnce p) := by
  rw [isUnique, h]
  rfl

theorem search_of_read (h : Signature.read text = .ok s) (image : Image) :
    image.search text = .ok (s, image.occurrences s.pattern) := by
  rw [search, h]
  rfl

theorem find_render (h : s ≠ []) :
    image.find (Dialect.ida.render s) none = .ok (image.occurrences s.pattern) :=
  find_of_read (Pattern.read_render h) image

end Image

end CodeSignature
