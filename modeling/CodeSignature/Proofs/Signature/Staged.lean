import CodeSignature.Proofs.Sequence
import CodeSignature.Proofs.Signature.Reading
import CodeSignature.Signature.Staged
import Mathlib.Data.List.Forall2
import Mathlib.Tactic.IntervalCases

/-! # No conversion is refused

What the patterns accept is what the conversions take, so the reader in stages is the reader. The
same holds of a search: what has been read is written as words, and these are read as its pattern.
-/

namespace CodeSignature

namespace Staged

open Signature

variable {α β : Type} {cs mask word : List Char} {c high low lead : Char} {m n : Nat}

def hexDigits : List Char := "0123456789abcdefABCDEF".toList

theorem mem_hexDigits_of_digit? (h : Hex.digit? c = some n) : c ∈ hexDigits := by
  have hrange : 48 ≤ c.toNat ∧ c.toNat ≤ 57 ∨ 97 ≤ c.toNat ∧ c.toNat ≤ 102 ∨
      65 ≤ c.toNat ∧ c.toNat ≤ 70 := by
    unfold Hex.digit? at h
    split at h
    next hd => exact .inl hd
    next =>
      split at h
      next hd => exact .inr (.inl hd)
      next =>
        split at h
        next hd => exact .inr (.inr hd)
        next => cases h
  rw [← Char.ofNat_toNat c]
  generalize c.toNat = k at hrange
  rcases hrange with ⟨hl, hu⟩ | ⟨hl, hu⟩ | ⟨hl, hu⟩ <;> interval_cases k <;> decide

theorem isHexDigit_iff : isHexDigit c = true ↔ ∃ n, Hex.digit? c = some n := by
  simp only [isHexDigit, Bool.or_eq_true, Bool.and_eq_true, decide_eq_true_eq]
  unfold Hex.digit?
  split_ifs <;> grind

/-- What a reader of words and of numerals makes of a digit. -/
structure DigitOf (n : Nat) (c : Char) : Prop where
  value : Numeral.digit? 16 c = some n
  lt : n < 16
  not_isMargin : Numeral.isMargin c = false
  not_isBlank : isBlank c = false
  ne_mark : c ≠ '?'
  ne_minus : c ≠ '-'
  ne_plus : c ≠ '+'
  ne_underscore : c ≠ '_'
  ne_x : c ≠ 'x' ∧ c ≠ 'X'

theorem digitOf (h : Hex.digit? c = some n) : DigitOf n c := by
  have hdigits : hexDigits.all fun c => Numeral.digit? 16 c = Hex.digit? c ∧
      (Hex.digit? c).getD 16 < 16 ∧ Numeral.isMargin c = false ∧ isBlank c = false ∧ c ≠ '?' ∧
      c ≠ '-' ∧ c ≠ '+' ∧ c ≠ '_' ∧ c ≠ 'x' ∧ c ≠ 'X' := by
    decide +kernel
  obtain ⟨hvalue, hlt, hmargin, hblank, hmark, hminus, hplus, hunderscore, hx⟩ :=
    of_decide_eq_true (List.all_eq_true.mp hdigits c (mem_hexDigits_of_digit? h))
  rw [h] at hvalue hlt
  exact ⟨hvalue, hlt, hmargin, hblank, hmark, hminus, hplus, hunderscore, hx⟩

theorem number_pair (hhigh : DigitOf m high) (hlow : DigitOf n low) :
    number [high, low] = .ok (16 * m + n : Nat) := by
  have hstrip : Sequence.dropEndWhile Numeral.isMargin ([high, low].dropWhile Numeral.isMargin) =
      [high, low] := by
    simp [Sequence.dropEndWhile, hhigh.not_isMargin, hlow.not_isMargin]
  have hsign : Numeral.splitSign [high, low] = (false, [high, low]) := by
    unfold Numeral.splitSign
    split
    next heq => exact absurd (List.cons.inj heq).1 hhigh.ne_minus
    next heq => exact absurd (List.cons.inj heq).1 hhigh.ne_plus
    next => rfl
  have hmark : Numeral.dropMark 16 [high, low] = [high, low] := by
    simp [Numeral.dropMark, hlow.ne_x]
  have hmagnitude : Numeral.magnitude 16 [high, low] = some (16 * m + n) := by
    simp [Numeral.magnitude, Numeral.digits, hhigh.value, hlow.value, hlow.ne_underscore]
  have hread : Numeral.read? 16 (String.ofList [high, low]) = some ((16 * m + n : Nat) : Int) := by
    simp only [Numeral.read?, String.toList_ofList, hstrip, hsign, hmark, hmagnitude]
    rfl
  rw [number, hread]

theorem number_of_byte? {b : UInt8} (h : Hex.byte? high low = some b) :
    number [high, low] = .ok (b.toNat : Int) := by
  simp only [Hex.byte?, Option.bind_eq_bind, Option.bind_eq_some_iff, Option.pure_def,
    Option.some.injEq] at h
  obtain ⟨m, hhigh, n, hlow, rfl⟩ := h
  have hm := (digitOf hhigh).lt
  have hn := (digitOf hlow).lt
  rw [number_pair (digitOf hhigh) (digitOf hlow), UInt8.toNat_ofNat',
    Nat.mod_eq_of_lt (by omega)]

theorem byte?_isSome_iff :
    (Hex.byte? high low).isSome = true ↔ isHexDigit high = true ∧ isHexDigit low = true := by
  simp only [isHexDigit_iff, Hex.byte?]
  cases Hex.digit? high <;> cases Hex.digit? low <;> simp

def entry (c : Cell) : Entry := ⟨c.value.toNat, c.wildcard⟩

/-- A result of the reader as a result of the stages. -/
def staged (f : α → β) : Except Failure α → Except Refusal β
  | .ok x => .ok (f x)
  | .error cause => .error (.failure cause)

@[simp] theorem staged_ok (f : α → β) (x : α) : staged f (.ok x) = .ok (f x) := rfl

@[simp] theorem staged_error (f : α → β) (cause : Failure) :
    staged f (.error cause) = .error (.failure cause) := rfl

theorem mapM_eq_ok {f : α → Except Refusal β} {xs : List α} {ys : List β}
    (h : List.Forall₂ (fun x y => f x = .ok y) xs ys) : xs.mapM f = .ok ys := by
  induction h with
  | nil => rfl
  | cons hxy _ ih =>
    rw [List.mapM_cons, hxy, ih]
    rfl

theorem forall₂_pieces (lead : Char) (cs : List Char) :
    List.Forall₂ (fun piece (b : UInt8) => number piece = .ok (b.toNat : Int)) (pieces lead cs)
      (findBytes lead cs) := by
  fun_induction findBytes lead cs with
  | case1 a x high low rest hlead b hb ih =>
    have hdigits := byte?_isSome_iff.mp (Option.isSome_of_eq_some hb)
    rw [pieces, if_pos ⟨hlead.1, hlead.2, hdigits⟩]
    exact .cons (number_of_byte? hb) ih
  | case2 a x high low rest hlead hb ih =>
    have hdigits : ¬ (isHexDigit high = true ∧ isHexDigit low = true) := by
      rw [← byte?_isSome_iff, hb]
      nofun
    rw [pieces, if_neg fun h => hdigits h.2.2]
    exact ih
  | case3 a x high low rest hlead ih =>
    rw [pieces, if_neg fun h => hlead ⟨h.1, h.2.1⟩]
    exact ih
  | case4 cs hshort =>
    rw [pieces]
    · exact .nil
    · exact hshort

theorem length_pieces (lead : Char) (cs : List Char) :
    (pieces lead cs).length = (findBytes lead cs).length := (forall₂_pieces lead cs).length_eq

theorem mapM_underMask {pieces : List (List Char)} {bytes : List UInt8}
    (h : List.Forall₂ (fun piece (b : UInt8) => number piece = .ok (b.toNat : Int)) pieces bytes)
    (mask : List Char) :
    (pieces.zip mask).mapM (fun (piece, mark) => underMask piece mark) =
      .ok ((Signature.underMask bytes mask).map entry) := by
  refine mapM_eq_ok ?_
  induction h generalizing mask with
  | nil => exact .nil
  | cons hnumber _ ih =>
    cases mask with
    | nil => exact .nil
    | cons mark mask =>
      refine .cons ?_ (ih mask)
      simp only [Staged.underMask, hnumber]
      rfl

theorem readMasked_eq (cs : List Char) (hmask : mask ≠ []) :
    readMasked cs mask = staged (List.map entry) (Signature.readMasked cs mask) := by
  have htest : (fun lead => decide (pieces lead cs ≠ [] ∧ (pieces lead cs).length = mask.length)) =
      fun lead => decide ((findBytes lead cs).length = mask.length) := by
    ext lead
    rw [length_pieces, decide_eq_decide]
    refine ⟨And.right, fun hlength => ⟨?_, hlength⟩⟩
    rintro hnil
    rw [← length_pieces, hnil] at hlength
    exact hmask (List.length_eq_zero_iff.mp hlength.symm)
  rw [readMasked, Signature.readMasked, htest]
  cases leads.find? fun lead => decide ((findBytes lead cs).length = mask.length) with
  | none => rfl
  | some lead => exact mapM_underMask (forall₂_pieces lead cs) mask

theorem ofWord_of_ofWord? {cell : Cell} (h : ofWord? word = some cell) :
    ofWord word = .ok (entry cell) := by
  unfold ofWord? at h
  split at h
  · obtain rfl := Option.some.inj h
    rfl
  next high low =>
    obtain ⟨b, hb, rfl⟩ := Option.map_eq_some_iff.mp h
    rw [ofWord, if_neg (by simp), literal, number_of_byte? hb]
    rfl
  · cases h

theorem ofWord?_isSome (word : List Char) :
    (ofWord? word).isSome = (word = ['?'] || isPair word) := by
  unfold ofWord?
  split
  · rfl
  next high low =>
    rw [Option.isSome_map, Bool.eq_iff_iff, byte?_isSome_iff]
    simp [isPair]
  next hmark hpair =>
    have hne : isPair word = false := by
      unfold isPair
      split
      next high low => exact absurd rfl (hpair high low)
      next => rfl
    have hword : word ≠ ['?'] := hmark
    simp [hword, hne]

theorem isHexDigit_of_blank (h : isBlank c = true) : isHexDigit c = false := by
  by_contra hdigit
  obtain ⟨n, hn⟩ := isHexDigit_iff.mp (by simpa using hdigit)
  rw [(digitOf hn).not_isBlank] at h
  cases h

section Accepts

theorem accepts_digit_cons (c : Char) (cs : List Char) :
    accepts .digit (c :: cs) = (isHexDigit c && accepts .blank cs) := by
  rw [accepts, Expected.after?]
  cases isHexDigit c <;> rfl

theorem accepts_blank_cons (c : Char) (cs : List Char) :
    accepts .blank (c :: cs) = (isBlank c && accepts .blankOrWord cs) := by
  rw [accepts, Expected.after?]
  cases isBlank c <;> rfl

theorem accepts_of_blank (h : isBlank c = true) (cs : List Char) :
    accepts .blankOrWord (c :: cs) = accepts .blankOrWord cs := by
  rw [accepts, Expected.after?, if_pos h]

theorem accepts_word_of_not_blank (h : isBlank c = false) (cs : List Char) :
    accepts .word (c :: cs) = accepts .blankOrWord (c :: cs) := by
  simp [accepts, Expected.after?, h]

theorem accepts_of_not_blank (h : isBlank c = false) (cs : List Char) :
    accepts .blankOrWord (c :: cs) =
      if c = '?' then accepts .blank cs else isHexDigit c && accepts .digit cs := by
  rw [accepts, Expected.after?, if_neg (by simp [h]), Expected.afterFirst?]
  by_cases ha : c = '?'
  · rw [if_pos ha, if_pos ha]
  · rw [if_neg ha, if_neg ha]
    cases isHexDigit c <;> rfl

theorem accepts_word (hword : word ≠ []) (hblank : ∀ c ∈ word, isBlank c = false)
    (hc : isBlank c = true) (cs : List Char) :
    accepts .blankOrWord (word ++ c :: cs) =
      ((ofWord? word).isSome && accepts .blankOrWord cs) := by
  obtain ⟨a, rest, rfl⟩ := List.exists_cons_of_ne_nil hword
  rw [List.forall_mem_cons] at hblank
  rw [List.cons_append, accepts_of_not_blank hblank.1, ofWord?_isSome]
  have hmark : isHexDigit '?' = false := by decide
  -- One character has to be a mark, two have to be digits, and no word is longer.
  rcases rest with - | ⟨b, - | ⟨d, rest⟩⟩
  · simp [accepts_blank_cons, accepts_digit_cons, hc, isHexDigit_of_blank hc, isPair]
  · have hb := hblank.2 b List.mem_cons_self
    split
    next ha => simp [accepts_blank_cons, ha, hb, hmark, isPair]
    next => simp [accepts_blank_cons, accepts_digit_cons, hc, isPair, Bool.and_assoc]
  · have hb := hblank.2 b List.mem_cons_self
    have hd := hblank.2 d (List.mem_cons_of_mem _ List.mem_cons_self)
    simp [accepts_blank_cons, accepts_digit_cons, hb, hd, isPair]

/-- A text that ends with a blank is as expected exactly if the reader knows all its words. -/
theorem accepts_eq_all (cs : List Char) :
    accepts .blankOrWord (cs ++ [' ']) =
      (Text.words (cs ++ [' '])).all fun word => (ofWord? word).isSome := by
  induction hn : cs.length using Nat.strong_induction_on generalizing cs with
  | _ n ih =>
    cases cs with
    | nil => rfl
    | cons c cs =>
      cases hc : isBlank c with
      | true =>
        rw [List.cons_append, accepts_of_blank hc, Text.words_of_blank hc]
        exact ih _ (by rw [← hn, List.length_cons]; omega) cs rfl
      | false =>
        obtain ⟨word, rest, heq, hne, hword, hrest⟩ := Text.exists_word_append hc cs
        rw [heq, List.append_assoc]
        cases rest with
        | nil =>
          rw [List.nil_append, accepts_word hne hword (by decide),
            Text.words_append_blank hne hword, List.all_cons]
          rfl
        | cons a rest =>
          have ha : isBlank a = true := hrest a rfl
          have hlength : rest.length < n := by
            rw [← hn, heq, List.length_append, List.length_cons]
            omega
          rw [List.cons_append, accepts_word hne hword ha, Text.words_append_of_blank hne hword ha,
            List.all_cons, ih _ hlength rest rfl]

end Accepts

theorem exists_singleMarks_concat : ∀ cs : List Char,
    ∃ body, singleMarks (cs ++ [' ']) = body ++ [' '] ∧ body.head? = cs.head?
  | [] => ⟨[], rfl, rfl⟩
  | [a] => ⟨[a], rfl, rfl⟩
  | [a, b] => by
    by_cases h : a = '?' ∧ b = '?'
    · exact ⟨['?'], by simp [singleMarks, h], by simp [h]⟩
    · exact ⟨[a, b], by simp [singleMarks, h], rfl⟩
  | a :: b :: c :: rest => by
    by_cases h : a = '?' ∧ b = '?' ∧ c = ' '
    · obtain ⟨body, hbody, -⟩ := exists_singleMarks_concat rest
      exact ⟨'?' :: ' ' :: body, by simp [singleMarks, h, hbody], by simp [h]⟩
    · obtain ⟨body, hbody, -⟩ := exists_singleMarks_concat (b :: c :: rest)
      refine ⟨a :: body, ?_, rfl⟩
      simp only [List.cons_append] at hbody ⊢
      rw [singleMarks, if_neg h, hbody]

theorem normalize_cases (cs : List Char) :
    Signature.normalize cs = [' '] ∨
      ∃ c body, isBlank c = false ∧ Signature.normalize cs = c :: body ++ [' '] := by
  obtain ⟨body, hbody, hhead⟩ := exists_singleMarks_concat
    (Sequence.dropEndWhile isTail (Text.stripFront (cs.filter fun c => !isBracket c)))
  rw [Signature.normalize, hbody]
  cases body with
  | nil => exact .inl rfl
  | cons c body =>
    refine .inr ⟨c, body, ?_, rfl⟩
    obtain ⟨tail, htail, -⟩ := Sequence.exists_eq_dropEndWhile_append isTail
      (Text.stripFront (cs.filter fun c => !isBracket c))
    have hfirst : (Text.stripFront (cs.filter fun c => !isBracket c)).head? = some c := by
      rw [htail, List.head?_append, ← hhead]
      rfl
    have hnot := List.head?_dropWhile_not isBlank (cs.filter fun c => !isBracket c)
    rw [Text.stripFront] at hfirst
    rw [hfirst] at hnot
    simpa using hnot

theorem mapM_ofWord (words : List (List Char)) :
    if words.all fun word => (ofWord? word).isSome then
      ∃ s, words.mapM ofWord? = some s ∧ words.mapM ofWord = .ok (s.map entry)
    else words.mapM ofWord? = none := by
  induction words with
  | nil => exact ⟨[], rfl, rfl⟩
  | cons word words ih =>
    rw [List.all_cons, List.mapM_cons, List.mapM_cons]
    cases hword : ofWord? word with
    | none => rfl
    | some cell =>
      rw [ofWord_of_ofWord? hword]
      split at ih
      next hall =>
        obtain ⟨s, hs, hentries⟩ := ih
        rw [hall, hs, hentries]
        exact ⟨cell :: s, rfl, rfl⟩
      next hall =>
        rw [Bool.not_eq_true] at hall
        rw [hall, ih]
        rfl

theorem ofWords?_normalize (cs : List Char) :
    if accepts .word (Signature.normalize cs) then
      ∃ s, ofWords? (Signature.normalize cs) = some s ∧
        (Text.words (Signature.normalize cs)).mapM ofWord = .ok (s.map entry)
    else ofWords? (Signature.normalize cs) = none := by
  rcases normalize_cases cs with h | ⟨c, body, hc, h⟩
  · rw [h, if_neg (by decide)]
    rfl
  · have hwords : Text.words (Signature.normalize cs) ≠ [] := by
      rw [h, Text.words, List.cons_append, Text.splitWord]
      simp [hc]
    have haccepts : accepts .word (Signature.normalize cs) =
        (Text.words (Signature.normalize cs)).all fun word => (ofWord? word).isSome := by
      rw [h, List.cons_append, accepts_word_of_not_blank hc, ← List.cons_append, accepts_eq_all]
    have hofWords : ofWords? (Signature.normalize cs) =
        (Text.words (Signature.normalize cs)).mapM ofWord? := by
      rw [ofWords?]
      split
      next hnil => exact absurd hnil hwords
      next => rfl
    rw [haccepts, hofWords]
    exact mapM_ofWord _

theorem readPlain_eq (cs : List Char) :
    readPlain cs = staged (List.map entry) (Signature.readPlain cs) := by
  have hwords := ofWords?_normalize cs
  rw [readPlain, Signature.readPlain]
  split at hwords
  next haccepts =>
    obtain ⟨s, hs, hentries⟩ := hwords
    simp only [haccepts, if_true, hs, hentries, staged_ok]
  next hrefused =>
    have hlead : (fun lead => decide (1 < (pieces lead (Signature.normalize cs)).length)) =
        fun lead => decide (1 < (findBytes lead (Signature.normalize cs)).length) := by
      ext lead
      rw [length_pieces]
    simp only [hrefused, if_false, Bool.false_eq_true, hwords, ofLiterals?, hlead]
    cases leads.find? fun lead => decide (1 < (findBytes lead (Signature.normalize cs)).length) with
    | none => rfl
    | some lead =>
      refine mapM_eq_ok ?_
      rw [show Signature.ofBytes false = List.map fun b => ⟨b, false⟩ from rfl, List.map_map,
        List.forall₂_map_right_iff]
      apply (forall₂_pieces lead (Signature.normalize cs)).imp
      intro piece b hnumber
      rw [literal, hnumber]
      rfl

/-- The reader in stages is the reader: no piece is refused, and every value is that of a byte. -/
theorem read_eq (text : String) : read text = staged (List.map entry) (Signature.read text) := by
  unfold read Signature.read readChars
  cases hmask : findMask text.toList with
  | none => exact readPlain_eq _
  | some mask => exact readMasked_eq _ (findMask_spec hmask).1

theorem byte_toNat (b : UInt8) : byte (b.toNat : Int) = .ok b := by
  have hb : b.toNat < 256 := b.toNat_lt
  rw [byte, if_pos (by omega), Int.toNat_natCast, UInt8.ofNat_toNat]

theorem place_eq (token : List Char) : place token = staged id (Pattern.ofToken token) := by
  unfold place Pattern.ofToken
  by_cases hmark : token = ['?'] ∨ token = ['?', '?']
  · rw [if_pos hmark, if_pos hmark]
    rfl
  rw [if_neg hmark, if_neg hmark]
  -- Both look for digits in a token of two characters only.
  rcases token with - | ⟨high, - | ⟨low, - | ⟨d, rest⟩⟩⟩
  · rfl
  · rfl
  · have hpair : isPair [high, low] = (Hex.byte? high low).isSome := by
      rw [Bool.eq_iff_iff, byte?_isSome_iff]
      simp [isPair]
    rw [hpair]
    cases hb : Hex.byte? high low with
    | none => simp [hb]
    | some b =>
      simp only [hb, number_of_byte? hb, byte_toNat, bind, Except.bind, pure, Except.pure]
      rfl
  · rfl

theorem pattern_eq (text : String) : pattern text.toList = staged id (Pattern.read text) := by
  have hplaces : ∀ tokens : List (List Char),
      tokens.mapM place = staged id (tokens.mapM Pattern.ofToken) := by
    intro tokens
    induction tokens with
    | nil => rfl
    | cons token tokens ih =>
      rw [List.mapM_cons, List.mapM_cons, place_eq, ih]
      cases Pattern.ofToken token with
      | error f => rfl
      | ok p => cases tokens.mapM Pattern.ofToken <;> rfl
  unfold pattern Pattern.read
  cases Text.words text.toList with
  | nil => rfl
  | cons token tokens => exact hplaces _

theorem render_map_entry (s : Signature) :
    render (s.map entry) = (Dialect.ida.render s).toList := by
  have hdigits : ∀ n : Fin 256, digits (n.val : Int) =
      [Hex.upperDigit (n.val / 16), Hex.upperDigit (n.val % 16)] := by
    decide +kernel
  have hword : word ∘ entry = Dialect.word ['?'] := by
    ext c : 1
    have hvalue := hdigits ⟨c.value.toNat, c.value.toNat_lt⟩
    rw [Function.comp_apply, word, Dialect.word, entry, hvalue]
    rfl
  rw [render, List.map_map, hword, Dialect.render, String.toList_ofList]
  rfl

theorem search_eq (image : Image) (text : String) :
    search image text = staged (Prod.map (List.map entry) id) (image.search text) := by
  rw [search, Image.search, read_eq]
  cases hread : Signature.read text with
  | error f => rfl
  | ok s =>
    change (pattern (render (s.map entry)) >>= fun p => pure (s.map entry, image.occurrences p)) = _
    rw [render_map_entry, pattern_eq, Pattern.read_render (ne_nil_of_read hread)]
    rfl

theorem entry_value_mem (c : Cell) : 0 ≤ (entry c).value ∧ (entry c).value ≤ 255 := by
  have hvalue : c.value.toNat < 256 := c.value.toNat_lt
  simp only [entry]
  omega

theorem wildcards_eq_of_maskChars {s : Signature} (h : s.maskChars = mask) :
    s.map Cell.wildcard = mask.map fun c => decide (c = '?') := by
  rw [← h, maskChars, List.map_map]
  refine List.map_congr_left fun c _ => ?_
  cases hc : c.wildcard <;> simp [hc]

/-- Any text is read as bytes, under its mask if it holds one, and can then be searched for in every
image; or it is refused as a whole, as no signature or as bytes that do not go with the mask. -/
theorem read_safe (text : String) :
    (∃ s, Signature.read text = .ok s ∧ read text = .ok (s.map entry) ∧ s ≠ [] ∧
        (∀ e ∈ s.map entry, 0 ≤ e.value ∧ e.value ≤ 255) ∧
        (∀ mask, findMask text.toList = some mask →
          s.length = mask.length ∧
            s.map Cell.wildcard = mask.map fun c => decide (c = '?')) ∧
        ∀ image : Image, image.search text = .ok (s, image.occurrences s.pattern) ∧
          search image text = .ok (s.map entry, image.occurrences s.pattern)) ∨
      ∃ f, Signature.read text = .error f ∧ read text = .error (.failure f) ∧
        (f = .unrecognizedText ∨
          ∃ mask, findMask text.toList = some mask ∧ f = .maskMismatch (String.ofList mask)) := by
  rcases read_cases text with ⟨s, hread, hne, hmask⟩ | ⟨f, hread, hcause⟩
  · have hsearch (image : Image) : image.search text = .ok (s, image.occurrences s.pattern) := by
      rw [Image.search, hread]
      rfl
    left
    refine ⟨s, hread, by rw [read_eq, hread, staged_ok], hne, ?_, ?_, ?_⟩
    · simp only [List.forall_mem_map]
      exact fun c _ => entry_value_mem c
    · intro mask hfind
      have hself := hmask mask hfind
      refine ⟨?_, wildcards_eq_of_maskChars hself⟩
      rw [← hself, maskChars, List.length_map]
    · intro image
      exact ⟨hsearch image, by rw [search_eq, hsearch image]; rfl⟩
  · right
    exact ⟨f, hread, by rw [read_eq, hread, staged_error], hcause⟩

end Staged

end CodeSignature
