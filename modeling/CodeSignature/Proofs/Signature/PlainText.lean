import CodeSignature.Proofs.Signature.EscapeText
import CodeSignature.Proofs.Signature.Token

/-! # Pattern texts as signatures

A search takes words with any blanks between them, and the reader of signatures looks for a space
after a double mark. A pattern text that ends with a byte is read as the pattern that a search takes
it for, exactly if no other blank than a space comes after a double mark. Otherwise it is refused.
-/

namespace CodeSignature

namespace Text

variable {gap run cs : List Char} {c : Char} {pieces : List Piece}

/-- The piece with a single mark in place of a double mark with a space after it. -/
def Piece.single (p : Piece) : Piece :=
  if p.word = ['?', '?'] ∧ p.gap.head? = some ' ' then
    { p with
      word := ['?'], word_ne_nil := by simp, not_blank := List.forall_mem_singleton.mpr rfl }
  else p

@[simp] theorem Piece.gap_single (p : Piece) : p.single.gap = p.gap := by
  unfold single
  split <;> rfl

theorem Piece.word_single (p : Piece) :
    p.single.word = if p.word = ['?', '?'] ∧ p.gap.head? = some ' ' then ['?'] else p.word := by
  unfold single
  split <;> rfl

def Piece.closed (p : Piece) : Piece :=
  { p with gap := [' '], gap_ne_nil := by simp, blank := List.forall_mem_singleton.mpr rfl }

@[simp] theorem Piece.word_closed (p : Piece) : p.closed.word = p.word := rfl

@[simp] theorem Piece.gap_closed (p : Piece) : p.closed.gap = [' '] := rfl

/-- Whether no other blank than a space comes after a double mark. -/
def SpacedMarks (cs : List Char) : Prop := ∀ c, ['?', '?', c] <:+: cs → c = ' '

theorem ne_mark_of_isBlank (h : isBlank c = true) : c ≠ '?' := by
  rintro rfl
  cases h

theorem mark_infix_append_of_blanks (h : ∀ c ∈ gap, isBlank c = true) :
    '?' :: run <:+: gap ++ cs ↔ '?' :: run <:+: cs := by
  induction gap with
  | nil => rfl
  | cons a gap ih =>
    rw [List.forall_mem_cons] at h
    rw [List.cons_append, List.infix_cons_iff, ih h.2, List.cons_prefix_cons]
    simp [(ne_mark_of_isBlank h.1).symm]

theorem singleMarks_cons_cons_of_ne {a b : Char} (h : b ≠ '?') (cs : List Char) :
    Signature.singleMarks (a :: b :: cs) = a :: Signature.singleMarks (b :: cs) := by
  cases cs with
  | nil => rfl
  | cons c cs => rw [Signature.singleMarks, if_neg (fun hm => h hm.2.1)]

theorem singleMarks_append_of_blanks (h : ∀ c ∈ gap, isBlank c = true) (cs : List Char) :
    Signature.singleMarks (gap ++ cs) = gap ++ Signature.singleMarks cs := by
  induction gap with
  | nil => rfl
  | cons a gap ih =>
    rw [List.forall_mem_cons] at h
    rw [List.cons_append, Signature.singleMarks_cons_of_ne (ne_mark_of_isBlank h.1), ih h.2,
      List.cons_append]

section Piece

variable {p : Piece} (htoken : ∃ place, Pattern.Token p.word place)
include htoken

theorem doubleMark_infix_piece_iff :
    ['?', '?', c] <:+: p.word ++ (p.gap ++ cs) ↔
      (p.word = ['?', '?'] ∧ p.gap.head? = some c) ∨ ['?', '?', c] <:+: cs := by
  obtain ⟨a, gap, hgap, hblank, -⟩ := p.exists_gap_eq_cons
  have ha : '?' ≠ a := (ne_mark_of_isBlank hblank).symm
  obtain ⟨place, htoken⟩ := htoken
  have hrest : ['?', '?', c] <:+: p.gap ++ cs ↔ ['?', '?', c] <:+: cs :=
    mark_infix_append_of_blanks p.blank
  rw [← hrest]
  generalize p.word = word at htoken
  cases htoken with
  | mark =>
    rw [hgap, List.cons_append, List.infix_cons_iff]
    simp [List.cons_prefix_cons, ha]
  | doubleMark =>
    rw [hgap, List.cons_append, List.cons_append, List.infix_cons_iff, List.infix_cons_iff]
    simp [List.cons_prefix_cons, ha, eq_comm]
  | digits hb =>
    obtain ⟨⟨m, hhigh⟩, n, hlow⟩ := Pattern.digitOf_of_byte? hb
    rw [List.cons_append, List.cons_append, List.infix_cons_iff, List.infix_cons_iff]
    simp [List.cons_prefix_cons, hhigh.ne_mark.symm, hlow.ne_mark.symm, hhigh.ne_mark]

theorem singleMarks_piece (cs : List Char) :
    Signature.singleMarks (p.word ++ (p.gap ++ cs)) =
      p.single.word ++ (p.gap ++ Signature.singleMarks cs) := by
  obtain ⟨a, gap, hgap, hblank, -⟩ := p.exists_gap_eq_cons
  have ha : a ≠ '?' := ne_mark_of_isBlank hblank
  obtain ⟨place, htoken⟩ := htoken
  rw [← singleMarks_append_of_blanks p.blank, p.word_single, hgap, List.head?_cons,
    List.cons_append]
  generalize p.word = word at htoken
  cases htoken with
  | mark =>
    rw [if_neg (by simp)]
    exact singleMarks_cons_cons_of_ne ha _
  | doubleMark =>
    simp only [List.cons_append, List.nil_append, true_and, Option.some.injEq]
    by_cases hspace : a = ' '
    · rw [if_pos hspace, hspace, Signature.singleMarks, if_pos ⟨rfl, rfl, rfl⟩,
        Signature.singleMarks_cons_of_ne (by decide)]
      rfl
    · rw [if_neg hspace, Signature.singleMarks, if_neg (by simp [hspace]),
        singleMarks_cons_cons_of_ne ha]
      rfl
  | digits hb =>
    obtain ⟨⟨m, hhigh⟩, n, hlow⟩ := Pattern.digitOf_of_byte? hb
    rw [if_neg (by simp [hhigh.ne_mark])]
    simp only [List.cons_append, List.nil_append]
    rw [Signature.singleMarks_cons_of_ne hhigh.ne_mark,
      Signature.singleMarks_cons_of_ne hlow.ne_mark]

end Piece

section Pieces

variable (htokens : ∀ p ∈ pieces, ∃ place, Pattern.Token p.word place)
include htokens

theorem doubleMark_infix_join_iff :
    ['?', '?', c] <:+: join pieces ↔
      ∃ p ∈ pieces, p.word = ['?', '?'] ∧ p.gap.head? = some c := by
  induction pieces with
  | nil => simp
  | cons p pieces ih =>
    rw [List.forall_mem_cons] at htokens
    rw [join_cons, doubleMark_infix_piece_iff htokens.1, ih htokens.2]
    simp

theorem spacedMarks_join_iff :
    SpacedMarks (join pieces) ↔
      ∀ p ∈ pieces, p.word = ['?', '?'] → p.gap.head? = some ' ' := by
  simp only [SpacedMarks, doubleMark_infix_join_iff htokens]
  constructor
  · intro h p hp hword
    obtain ⟨a, gap, hgap, -⟩ := p.exists_gap_eq_cons
    have hhead : p.gap.head? = some a := by rw [hgap, List.head?_cons]
    rw [hhead, h a ⟨p, hp, hword, hhead⟩]
  · rintro h c ⟨p, hp, hword, hhead⟩
    exact Option.some.inj (hhead.symm.trans (h p hp hword))

theorem singleMarks_join :
    Signature.singleMarks (join pieces) = join (pieces.map Piece.single) := by
  induction pieces with
  | nil => rfl
  | cons p pieces ih =>
    rw [List.forall_mem_cons] at htokens
    rw [join_cons, singleMarks_piece htokens.1, ih htokens.2, List.map_cons, join_cons,
      p.gap_single]

end Pieces

theorem spacedMarks_stripFront_iff (cs : List Char) :
    SpacedMarks (stripFront cs ++ [' ']) ↔ SpacedMarks cs := by
  have hblanks : ∀ c ∈ cs.takeWhile isBlank, isBlank c = true :=
    fun c hc => List.mem_takeWhile_imp hc
  have hfront (c : Char) : ['?', '?', c] <:+: stripFront cs ↔ ['?', '?', c] <:+: cs := by
    rw [← mark_infix_append_of_blanks hblanks, stripFront, List.takeWhile_append_dropWhile]
  constructor
  · intro h c hc
    exact h c (List.infix_concat_iff.mpr (.inr ((hfront c).mpr hc)))
  · intro h c hc
    rcases List.infix_concat_iff.mp hc with hsuffix | hinfix
    · rcases List.suffix_concat_iff.mp hsuffix with hnil | ⟨front, hfront', -⟩
      · cases hnil
      · have hconcat : ['?', '?'] ++ [c] = front ++ [' '] := hfront'
        exact List.singleton_inj.mp (List.append_inj' hconcat rfl).2
    · exact h c ((hfront c).mp hinfix)

end Text

namespace Cell

def ofPlace : Option UInt8 → Cell
  | none => ⟨0, true⟩
  | some b => ⟨b, false⟩

end Cell

namespace Signature

open Text Pattern

variable {cs : List Char} {p : Pattern} {b : UInt8} {c : Char} {text : String}

/-- The signature of a pattern, with zeros under its wildcards. -/
def ofPattern (p : Pattern) : Signature := p.map Cell.ofPlace

theorem pattern_ofPattern (p : Pattern) : (ofPattern p).pattern = p := by
  have hplace : ∀ place, (if (Cell.ofPlace place).wildcard then none
      else some (Cell.ofPlace place).value) = place := by
    rintro (- | b) <;> rfl
  rw [pattern, ofPattern, List.map_map]
  exact (List.map_congr_left fun place _ => hplace place).trans (List.map_id p)

theorem mem_of_mem_normalize (h : c ∈ normalize cs) : c ∈ cs ∨ c = ' ' := by
  rcases List.mem_append.mp (mem_of_mem_singleMarks h) with hbare | hspace
  · obtain ⟨tail, htail, -⟩ := Sequence.exists_eq_dropEndWhile_append isTail
      (stripFront (cs.filter fun c => !isBracket c))
    have hmem : c ∈ stripFront (cs.filter fun c => !isBracket c) :=
      htail ▸ List.mem_append_left _ hbare
    exact .inl (List.mem_filter.mp ((List.dropWhile_suffix _).subset hmem)).1
  · exact .inr (List.mem_singleton.mp hspace)

theorem exists_infix_of_findBits {bits : List Char} (h : findBits cs = some bits) :
    ∃ d, isBit d = true ∧ ['0', 'b', d] <:+: cs := by
  fun_induction findBits cs with
  | case1 c b rest hlead hrun ih =>
    obtain ⟨d, hd, hin⟩ := ih h
    exact ⟨d, hd, List.infix_cons hin⟩
  | case2 c b rest hlead hrun =>
    obtain ⟨d, bits, hbits⟩ := List.exists_cons_of_ne_nil hrun
    obtain ⟨rest, rfl⟩ : ∃ more, rest = d :: more := by
      have hprefix := List.takeWhile_prefix (l := rest) isBit
      rw [hbits] at hprefix
      obtain ⟨more, hmore⟩ := hprefix
      exact ⟨bits ++ more, hmore.symm⟩
    have hd : isBit d = true := List.mem_takeWhile_imp (hbits ▸ List.mem_cons_self)
    rw [hlead.1, hlead.2]
    exact ⟨d, hd, [], rest, rfl⟩
  | case3 c b rest hlead ih =>
    obtain ⟨d, hd, hin⟩ := ih h
    exact ⟨d, hd, List.infix_cons hin⟩
  | case4 => cases h

theorem findMask_of_tokens (htokens : ∀ word ∈ Text.words cs, ∃ place, Token word place) :
    findMask cs = none := by
  have hx : 'x' ∉ cs := fun hx => ne_x_of_mem htokens hx rfl
  rw [findMask, findMaskRun_eq_none hx]
  cases hbits : findBits cs with
  | none => rfl
  | some bits =>
    obtain ⟨d, hd, hin⟩ := exists_infix_of_findBits hbits
    rcases exists_blank_of_infix htokens hin with hzero | hb | hblank
    · cases hzero
    · cases hb
    · have hd' : d = '0' ∨ d = '1' := by simpa [isBit] using hd
      rcases hd' with rfl | rfl <;> cases hblank

theorem ofLiterals?_eq_none (h : 'x' ∉ cs) : ofLiterals? cs = none := by
  simp [ofLiterals?, leads, findBytes_eq_nil h]

theorem exists_token_of_mem {words : List (List Char)} (h : List.Forall₂ Token words p) :
    ∀ word ∈ words, ∃ place, Token word place := by
  induction h with
  | nil => nofun
  | cons htoken _ ih => exact List.forall_mem_cons.mpr ⟨⟨_, htoken⟩, ih⟩

theorem exists_last_piece {pieces : List Piece}
    (h : List.Forall₂ Token (pieces.map Piece.word) p) (hlast : p.getLast? = some (some b)) :
    ∃ front last, pieces = front ++ [last] ∧ Token last.word (some b) := by
  obtain ⟨places, rfl⟩ := List.getLast?_eq_some_iff.mp hlast
  have hdrop := List.forall₂_drop_append _ _ _ h
  rw [← List.map_drop] at hdrop
  obtain ⟨word, rest, htoken, hrest, hwords⟩ := List.forall₂_cons_right_iff.mp hdrop
  rw [List.forall₂_nil_right_iff.mp hrest] at hwords
  obtain ⟨last, hpiece, rfl⟩ := List.map_eq_singleton_iff.mp hwords
  exact ⟨pieces.take places.length, last, by rw [← hpiece, List.take_append_drop], htoken⟩

theorem dropEndWhile_isTail {front : List Piece} {last : Piece}
    (hjoin : stripFront cs ++ [' '] = join (front ++ [last])) (htoken : Token last.word (some b)) :
    Sequence.dropEndWhile isTail (stripFront cs) = join front ++ last.word := by
  have hgap : last.gap = last.gap.dropLast ++ [last.gap.getLast last.gap_ne_nil] :=
    (List.dropLast_concat_getLast _).symm
  rw [join_concat, hgap, ← List.append_assoc, ← List.append_assoc] at hjoin
  have hblanks : ∀ x ∈ last.gap.dropLast, isTail x = true := fun x hx => by
    simp [isTail, last.blank x (List.dropLast_subset _ hx)]
  rw [(List.append_inj' hjoin rfl).1, Sequence.dropEndWhile_append_of_forall hblanks]
  generalize last.word = word at htoken
  cases htoken with
  | @digits high low b hb =>
    obtain ⟨-, n, hlow⟩ := digitOf_of_byte? hb
    have htail : isTail low = false := by simp [isTail, hlow.ne_mark, hlow.not_isBlank]
    have hconcat : join front ++ [high, low] = (join front ++ [high]) ++ [low] := by simp
    rw [hconcat, Sequence.dropEndWhile_concat htail]

theorem forall_token_closed {front : List Piece} {last : Piece}
    (h : ∀ q ∈ front ++ [last], ∃ place, Token q.word place) :
    ∀ q ∈ front ++ [last.closed], ∃ place, Token q.word place := by
  rw [List.forall_mem_append, List.forall_mem_singleton] at h ⊢
  exact h

theorem normalize_of_pieces {front : List Piece} {last : Piece}
    (hjoin : stripFront cs ++ [' '] = join (front ++ [last])) (htoken : Token last.word (some b))
    (hbrackets : ∀ c ∈ cs, isBracket c = false)
    (htokens : ∀ q ∈ front ++ [last], ∃ place, Token q.word place) :
    normalize cs = join ((front ++ [last.closed]).map Piece.single) := by
  have hfilter : cs.filter (fun c => !isBracket c) = cs :=
    List.filter_eq_self.mpr fun c hc => by simp [hbrackets c hc]
  rw [normalize, hfilter, dropEndWhile_isTail hjoin htoken,
    ← singleMarks_join (forall_token_closed htokens), join_concat, last.word_closed,
    last.gap_closed, List.append_assoc]

theorem spacedMarks_iff_pieces {front : List Piece} {last : Piece}
    (hjoin : stripFront cs ++ [' '] = join (front ++ [last])) (htoken : Token last.word (some b))
    (htokens : ∀ q ∈ front ++ [last], ∃ place, Token q.word place) :
    SpacedMarks cs ↔
      ∀ q ∈ front ++ [last.closed], q.word = ['?', '?'] → q.gap.head? = some ' ' := by
  have hword : last.word ≠ ['?', '?'] := by
    rintro heq
    rw [heq] at htoken
    cases htoken with
    | digits hb => cases hb
  rw [← spacedMarks_stripFront_iff, hjoin, spacedMarks_join_iff htokens, List.forall_mem_append,
    List.forall_mem_append, List.forall_mem_singleton, List.forall_mem_singleton]
  refine and_congr_right fun _ => iff_of_true ?_ ?_
  · exact fun heq => absurd heq hword
  · exact fun heq => absurd heq hword

/-- A text that ends with a byte is normalized piece by piece. -/
theorem exists_normalize (h : List.Forall₂ Token (words cs) p)
    (hlast : p.getLast? = some (some b)) :
    ∃ pieces : List Piece, pieces.map Piece.word = words cs ∧
      normalize cs = join (pieces.map Piece.single) ∧
      (SpacedMarks cs ↔ ∀ q ∈ pieces, q.word = ['?', '?'] → q.gap.head? = some ' ') := by
  have hne : words cs ≠ [] := by
    rintro hnil
    rw [hnil, List.forall₂_nil_left_iff] at h
    rw [h] at hlast
    cases hlast
  obtain ⟨pieces, hjoin, hwords⟩ := exists_pieces hne
  obtain ⟨front, last, rfl, htoken⟩ := exists_last_piece (hwords ▸ h) hlast
  have hbrackets : ∀ c ∈ cs, isBracket c = false :=
    fun c hc => not_isBracket_of_mem (exists_token_of_mem h) hc
  have htokens : ∀ q ∈ front ++ [last], ∃ place, Token q.word place :=
    fun q hq => exists_token_of_mem h q.word (hwords ▸ List.mem_map_of_mem hq)
  refine ⟨front ++ [last.closed], ?_, ?_, ?_⟩
  · rw [← hwords, List.map_append, List.map_append]
    rfl
  · exact normalize_of_pieces hjoin htoken hbrackets htokens
  · exact spacedMarks_iff_pieces hjoin htoken htokens

theorem ofWord?_single {q : Piece} {place : Option UInt8} (h : Token q.word place)
    (hspace : q.word = ['?', '?'] → q.gap.head? = some ' ') :
    ofWord? q.single.word = some (Cell.ofPlace place) := by
  rw [q.word_single]
  generalize q.word = word at h hspace
  cases h with
  | mark => rfl
  | doubleMark =>
    rw [if_pos ⟨rfl, hspace rfl⟩]
    rfl
  | digits hb =>
    obtain ⟨⟨m, hhigh⟩, -⟩ := digitOf_of_byte? hb
    rw [if_neg (by simp [hhigh.ne_mark]), ofWord?, hb]
    rfl

theorem mapM_ofWord?_single {pieces : List Piece}
    (h : List.Forall₂ Token (pieces.map Piece.word) p)
    (hspace : ∀ q ∈ pieces, q.word = ['?', '?'] → q.gap.head? = some ' ') :
    (pieces.map fun q => q.single.word).mapM ofWord? = some (ofPattern p) := by
  induction pieces generalizing p with
  | nil =>
    obtain rfl := List.forall₂_nil_left_iff.mp h
    rfl
  | cons q pieces ih =>
    rw [List.forall_mem_cons] at hspace
    obtain ⟨place, places, hq, hpieces, rfl⟩ := List.forall₂_cons_left_iff.mp h
    rw [List.map_cons, List.mapM_cons, ofWord?_single hq hspace.1, ih hpieces hspace.2]
    rfl

theorem mapM_ofWord?_eq_none {words : List (List Char)} (h : ['?', '?'] ∈ words) :
    words.mapM ofWord? = none := by
  have hmapM := Staged.mapM_ofWord words
  rw [if_neg] at hmapM
  · exact hmapM
  · intro hall
    cases List.all_eq_true.mp hall _ h

theorem ofWords?_normalize (h : List.Forall₂ Token (words cs) p)
    (hlast : p.getLast? = some (some b)) :
    (SpacedMarks cs → ofWords? (normalize cs) = some (ofPattern p)) ∧
      (¬ SpacedMarks cs → ofWords? (normalize cs) = none) := by
  obtain ⟨pieces, hwords, hnormalize, hspaced⟩ := exists_normalize h hlast
  have hnormal : words (normalize cs) = pieces.map fun q => q.single.word := by
    rw [hnormalize, words_join, List.map_map]
    rfl
  have hofWords : ofWords? (normalize cs) = (words (normalize cs)).mapM ofWord? := by
    rw [ofWords?]
    split
    next hnil =>
      rw [hnormal, List.map_eq_nil_iff] at hnil
      rw [← hwords, hnil, List.map_nil, List.forall₂_nil_left_iff] at h
      rw [h] at hlast
      cases hlast
    next => rfl
  rw [hofWords, hnormal, hspaced]
  constructor
  · exact mapM_ofWord?_single (hwords ▸ h)
  · intro hnot
    push Not at hnot
    obtain ⟨q, hq, hword, hgap⟩ := hnot
    refine mapM_ofWord?_eq_none (List.mem_map.mpr ⟨q, hq, ?_⟩)
    rw [q.word_single, if_neg (fun hsingle => hgap hsingle.2), hword]

theorem read_of_tokens (h : List.Forall₂ Token (words text.toList) p)
    (hlast : p.getLast? = some (some b)) :
    (SpacedMarks text.toList → read text = .ok (ofPattern p)) ∧
      (¬ SpacedMarks text.toList → read text = .error .unrecognizedText) := by
  have htokens := exists_token_of_mem h
  obtain ⟨hspaced, hnot⟩ := ofWords?_normalize h hlast
  have hx : 'x' ∉ normalize text.toList := by
    intro hmem
    rcases mem_of_mem_normalize hmem with hmem | hspace
    · exact ne_x_of_mem htokens hmem rfl
    · cases hspace
  rw [read, readChars, findMask_of_tokens htokens]
  constructor
  · intro hs
    simp only [readPlain, hspaced hs]
  · intro hs
    simp only [readPlain, hnot hs, ofLiterals?_eq_none hx]

end Signature

namespace Image

open Text

variable {text : String} {p : Pattern} {b : UInt8}

/-- A text of words that ends with a byte is a pattern for every image. It is read as that pattern,
and found where the pattern is, if no other blank than a space comes after a double mark. With
another blank there it is refused, whatever the image. -/
theorem search_pattern_text (h : Pattern.read text = .ok p) (hlast : p.getLast? = some (some b)) :
    (∀ image : Image, image.find text none = .ok (image.occurrences p)) ∧
    (SpacedMarks text.toList → Signature.read text = .ok (Signature.ofPattern p) ∧
      ∀ image : Image, image.search text = .ok (Signature.ofPattern p, image.occurrences p)) ∧
    (¬ SpacedMarks text.toList → Signature.read text = .error .unrecognizedText ∧
      ∀ image : Image, image.search text = .error .unrecognizedText) := by
  obtain ⟨hspaced, hnot⟩ := Signature.read_of_tokens (Pattern.read_eq_ok_iff.mp h).2 hlast
  refine ⟨find_of_read h, fun hs => ⟨hspaced hs, fun image => ?_⟩,
    fun hs => ⟨hnot hs, fun image => ?_⟩⟩
  · rw [search_of_read (hspaced hs), Signature.pattern_ofPattern]
  · rw [search, hnot hs]
    rfl

/-- A tab may come after a single mark, and a line feed at the end. -/
theorem search_pattern_text_tab :
    let text := " e8 ?? ?\t05\n"
    let p : Pattern := [some 0xE8, none, none, some 0x05]
    let s : Signature := [⟨0xE8, false⟩, ⟨0, true⟩, ⟨0, true⟩, ⟨0x05, false⟩]
    Pattern.read text = .ok p ∧ p.getLast? = some (some 0x05) ∧ SpacedMarks text.toList ∧
      Signature.read text = .ok s ∧
      ∀ image : Image, image.find text none = .ok (image.occurrences p) ∧
        image.search text = .ok (s, image.occurrences p) := by
  intro text p s
  have h : Pattern.read text = .ok p := by decide +kernel
  have hs : SpacedMarks text.toList := by
    intro c hc
    simp [text, List.infix_cons_iff] at hc
    simpa using hc
  obtain ⟨hfind, hspaced, -⟩ := search_pattern_text h (b := 0x05) rfl
  exact ⟨h, rfl, hs, (hspaced hs).1, fun image => ⟨hfind image, (hspaced hs).2 image⟩⟩

/-- With a tab after a double mark, the pattern is found and the text is no signature. -/
theorem search_refused_pattern_text :
    let text := "48 ??\t90"
    let image := flat [0x48, 0x8B, 0x90] 0 true "metapc" 64
    Pattern.read text = .ok [some 0x48, none, some 0x90] ∧ image.find text none = .ok [0] ∧
      Signature.read text = .error .unrecognizedText ∧
      image.search text = .error .unrecognizedText := by
  intro text image
  have h : Pattern.read text = .ok [some 0x48, none, some 0x90] := by decide +kernel
  have hread : Signature.read text = .error .unrecognizedText := by decide +kernel
  have hfound : image.occurrences [some 0x48, none, some 0x90] = [0] := by
    rw [occurrences, segments_flat]
    decide
  refine ⟨h, ?_, hread, ?_⟩
  · rw [find_of_read h, hfound]
  · rw [search, hread]
    rfl

end Image

end CodeSignature
