import CodeSignature.Proofs.Signature.Staged
import CodeSignature.Proofs.Text.Piece

/-! # Words of pattern texts

A text is a pattern if it has a word and each of its words is a mark or two digits. So it has no
characters but blanks, marks and digits, and no three in a row without a blank.
-/

namespace CodeSignature

namespace Pattern

variable {cs word : List Char} {p : Pattern} {place : Option UInt8} {c : Char} {text : String}

/-- A word of a pattern text and the place that it stands for. -/
inductive Token : List Char → Option UInt8 → Prop
  | mark : Token ['?'] none
  | doubleMark : Token ['?', '?'] none
  | digits {high low : Char} {b : UInt8} : Hex.byte? high low = some b →
      Token [high, low] (some b)

theorem digitOf_of_byte? {high low : Char} {b : UInt8} (h : Hex.byte? high low = some b) :
    (∃ m, Staged.DigitOf m high) ∧ ∃ n, Staged.DigitOf n low := by
  obtain ⟨hhigh, hlow⟩ := Staged.byte?_isSome_iff.mp (Option.isSome_of_eq_some h)
  exact ⟨(Staged.isHexDigit_iff.mp hhigh).imp fun _ => Staged.digitOf,
    (Staged.isHexDigit_iff.mp hlow).imp fun _ => Staged.digitOf⟩

theorem ofToken_eq_ok_iff : ofToken word = .ok place ↔ Token word place := by
  constructor
  · intro h
    unfold ofToken at h
    split at h
    next hmark =>
      obtain rfl := Except.ok.inj h
      rcases hmark with rfl | rfl
      · exact .mark
      · exact .doubleMark
    next =>
      split at h
      next high low =>
        split at h
        next b hb =>
          obtain rfl := Except.ok.inj h
          exact .digits hb
        next => cases h
      next => cases h
  · rintro (- | - | hb)
    · rfl
    · rfl
    · obtain ⟨⟨m, hhigh⟩, -⟩ := digitOf_of_byte? hb
      rw [ofToken, if_neg (by simp [hhigh.ne_mark])]
      simp only [hb]

theorem mapM_ofToken_eq_ok_iff {words : List (List Char)} :
    words.mapM ofToken = .ok p ↔ List.Forall₂ Token words p := by
  induction words generalizing p with
  | nil =>
    rw [List.forall₂_nil_left_iff]
    exact ⟨fun h => (Except.ok.inj h).symm, fun h => h ▸ rfl⟩
  | cons word words ih =>
    rw [List.mapM_cons, List.forall₂_cons_left_iff]
    constructor
    · intro h
      cases hword : ofToken word with
      | error f => rw [hword] at h; cases h
      | ok place =>
        cases hwords : words.mapM ofToken with
        | error f => rw [hword, hwords] at h; cases h
        | ok places =>
          rw [hword, hwords] at h
          exact ⟨place, places, ofToken_eq_ok_iff.mp hword, ih.mp hwords, (Except.ok.inj h).symm⟩
    · rintro ⟨place, places, hword, hwords, rfl⟩
      rw [ofToken_eq_ok_iff.mpr hword, ih.mpr hwords]
      rfl

/-- A text is a pattern if it has a word and all words stand for places. -/
theorem read_eq_ok_iff :
    read text = .ok p ↔ p ≠ [] ∧ List.Forall₂ Token (Text.words text.toList) p := by
  unfold read
  cases hwords : Text.words text.toList with
  | nil =>
    refine ⟨nofun, ?_⟩
    rintro ⟨hne, hnil⟩
    exact absurd (List.forall₂_nil_left_iff.mp hnil) hne
  | cons word words =>
    refine mapM_ofToken_eq_ok_iff.trans ⟨fun h => ⟨?_, h⟩, And.right⟩
    rintro rfl
    cases h

theorem Token.length_le (h : Token word place) : word.length ≤ 2 := by
  cases h <;> simp

theorem Token.eq_mark_or_digit (h : Token word place) (hc : c ∈ word) :
    c = '?' ∨ ∃ n, Staged.DigitOf n c := by
  cases h with
  | mark => exact .inl (by simpa using hc)
  | doubleMark => exact .inl (by simpa using hc)
  | digits hb =>
    obtain ⟨hhigh, hlow⟩ := digitOf_of_byte? hb
    rw [List.mem_cons, List.mem_singleton] at hc
    rcases hc with rfl | rfl
    · exact .inr hhigh
    · exact .inr hlow

section Tokens

variable (htokens : ∀ word ∈ Text.words cs, ∃ place, Token word place)
include htokens

theorem eq_mark_or_digit_of_mem (hc : c ∈ cs) :
    isBlank c = true ∨ c = '?' ∨ ∃ n, Staged.DigitOf n c := by
  cases hblank : isBlank c with
  | true => exact .inl rfl
  | false =>
    obtain ⟨word, hword, hin⟩ := Text.exists_word_of_infix (List.cons_ne_nil c [])
      (List.forall_mem_singleton.mpr hblank) ((List.singleton_infix_iff c cs).mpr hc)
    obtain ⟨place, htoken⟩ := htokens word hword
    exact .inr (htoken.eq_mark_or_digit ((List.singleton_infix_iff c word).mp hin))

theorem ne_x_of_mem (hc : c ∈ cs) : c ≠ 'x' := by
  rintro rfl
  rcases eq_mark_or_digit_of_mem htokens hc with hblank | hmark | ⟨n, hdigit⟩
  · cases hblank
  · cases hmark
  · exact hdigit.ne_x.1 rfl

theorem not_isBracket_of_mem (hc : c ∈ cs) : Signature.isBracket c = false := by
  cases hbracket : Signature.isBracket c with
  | false => rfl
  | true =>
    have hc' : c = '(' ∨ c = ')' ∨ c = '[' ∨ c = ']' := by
      simpa [Signature.isBracket, or_assoc] using hbracket
    rcases eq_mark_or_digit_of_mem htokens hc with hblank | rfl | ⟨n, hdigit⟩
    · rcases hc' with rfl | rfl | rfl | rfl <;> cases hblank
    · cases hbracket
    · have := hdigit.value
      rcases hc' with rfl | rfl | rfl | rfl <;> cases this

theorem exists_blank_of_infix {a b : Char} (h : [a, b, c] <:+: cs) :
    isBlank a = true ∨ isBlank b = true ∨ isBlank c = true := by
  by_contra hnot
  simp only [not_or, Bool.not_eq_true] at hnot
  obtain ⟨ha, hb, hc⟩ := hnot
  obtain ⟨word, hword, hin⟩ := Text.exists_word_of_infix (List.cons_ne_nil a [b, c])
    (by simp [ha, hb, hc]) h
  obtain ⟨place, htoken⟩ := htokens word hword
  have hlength := hin.length_le.trans htoken.length_le
  simp at hlength

end Tokens

end Pattern

end CodeSignature
