import CodeSignature.Proofs.Signature.PatternText
import Mathlib.Data.List.Infix

/-! # Texts as words and gaps

A text that begins with a word and ends with a blank is a sequence of pieces, a word and the blanks
after it each. Characters in a row, none of them blank, lie in one word.
-/

namespace CodeSignature.Text

/-- A word and the blanks after it. -/
structure Piece where
  word : List Char
  gap : List Char
  word_ne_nil : word ≠ []
  gap_ne_nil : gap ≠ []
  not_blank : ∀ c ∈ word, isBlank c = false
  blank : ∀ c ∈ gap, isBlank c = true

variable {cs gap run : List Char} {c : Char} {pieces : List Piece}

theorem Piece.exists_gap_eq_cons (p : Piece) :
    ∃ c gap, p.gap = c :: gap ∧ isBlank c = true ∧ ∀ x ∈ gap, isBlank x = true := by
  obtain ⟨c, gap, hgap⟩ := List.exists_cons_of_ne_nil p.gap_ne_nil
  exact ⟨c, gap, hgap, List.forall_mem_cons.mp (hgap ▸ p.blank)⟩

def join (pieces : List Piece) : List Char := pieces.flatMap fun p => p.word ++ p.gap

@[simp] theorem join_nil : join [] = [] := rfl

theorem join_cons (p : Piece) (pieces : List Piece) :
    join (p :: pieces) = p.word ++ (p.gap ++ join pieces) := by
  rw [join, List.flatMap_cons, List.append_assoc]
  rfl

theorem join_concat (pieces : List Piece) (p : Piece) :
    join (pieces ++ [p]) = join pieces ++ (p.word ++ p.gap) := by
  simp [join]

theorem words_append_of_blanks (h : ∀ c ∈ gap, isBlank c = true) (cs : List Char) :
    words (gap ++ cs) = words cs := by
  induction gap with
  | nil => rfl
  | cons c gap ih =>
    rw [List.forall_mem_cons] at h
    rw [List.cons_append, words_of_blank h.1, ih h.2]

theorem words_stripFront (cs : List Char) : words (stripFront cs) = words cs := by
  have hcs : cs = cs.takeWhile isBlank ++ stripFront cs := List.takeWhile_append_dropWhile.symm
  rw [hcs, words_append_of_blanks fun c hc => List.mem_takeWhile_imp hc, ← hcs]

theorem words_join (pieces : List Piece) : words (join pieces) = pieces.map Piece.word := by
  induction pieces with
  | nil => rfl
  | cons p pieces ih =>
    obtain ⟨c, gap, hgap, hc, hblank⟩ := p.exists_gap_eq_cons
    rw [join_cons, hgap, List.cons_append, words_append_of_blank p.word_ne_nil p.not_blank hc,
      words_append_of_blanks hblank, ih, List.map_cons]

theorem words_append_space (cs : List Char) : words (cs ++ [' ']) = words cs := by
  have hsplit : splitWord (cs ++ [' ']) = splitWord cs := by
    induction cs with
    | nil => rfl
    | cons c cs ih => rw [List.cons_append, splitWord, splitWord, ih]
  rw [words, words, hsplit]

theorem exists_run_append (cs : List Char) :
    ∃ run gap pieces, cs ++ [' '] = run ++ (gap ++ join pieces) ∧
      (∀ c ∈ run, isBlank c = false) ∧ gap ≠ [] ∧ ∀ c ∈ gap, isBlank c = true := by
  induction cs with
  | nil => exact ⟨[], [' '], [], rfl, nofun, by simp, List.forall_mem_singleton.mpr rfl⟩
  | cons c cs ih =>
    obtain ⟨run, gap, pieces, heq, hrun, hne, hgap⟩ := ih
    rw [List.cons_append, heq]
    cases hc : isBlank c with
    | false => exact ⟨c :: run, gap, pieces, rfl, List.forall_mem_cons.mpr ⟨hc, hrun⟩, hne, hgap⟩
    | true =>
      -- A blank in front of a word completes the piece of that word.
      by_cases hempty : run = []
      · subst hempty
        exact ⟨[], c :: gap, pieces, rfl, nofun, by simp, List.forall_mem_cons.mpr ⟨hc, hgap⟩⟩
      · refine ⟨[], [c], ⟨run, gap, hempty, hne, hrun, hgap⟩ :: pieces, ?_, nofun, by simp,
          List.forall_mem_singleton.mpr hc⟩
        rw [join_cons]
        rfl

theorem exists_join (hc : isBlank c = false) (cs : List Char) :
    ∃ pieces, c :: cs ++ [' '] = join pieces := by
  obtain ⟨run, gap, pieces, heq, hrun, hne, hgap⟩ := exists_run_append cs
  have hword : ∀ x ∈ c :: run, isBlank x = false := List.forall_mem_cons.mpr ⟨hc, hrun⟩
  refine ⟨⟨c :: run, gap, List.cons_ne_nil c run, hne, hword, hgap⟩ :: pieces, ?_⟩
  rw [List.cons_append, heq, join_cons]
  rfl

theorem exists_pieces (h : words cs ≠ []) :
    ∃ pieces, stripFront cs ++ [' '] = join pieces ∧ pieces.map Piece.word = words cs := by
  cases hfront : stripFront cs with
  | nil =>
    rw [← words_stripFront, hfront] at h
    exact absurd rfl h
  | cons c rest =>
    have hc : isBlank c = false := by
      have hhead := List.head?_dropWhile_not isBlank cs
      rw [stripFront] at hfront
      rw [hfront] at hhead
      simpa using hhead
    obtain ⟨pieces, hpieces⟩ := exists_join hc rest
    refine ⟨pieces, hpieces, ?_⟩
    rw [← words_join, ← hpieces, words_append_space, ← hfront, words_stripFront]

theorem words_eq_ite (cs : List Char) :
    words cs = if (splitWord cs).1 = [] then (splitWord cs).2
      else (splitWord cs).1 :: (splitWord cs).2 := rfl

theorem prefix_splitWord (hrun : ∀ c ∈ run, isBlank c = false) (h : run <+: cs) :
    run <+: (splitWord cs).1 := by
  obtain ⟨tail, rfl⟩ := h
  rw [splitWord_append hrun]
  exact List.prefix_append _ _

theorem exists_word_of_prefix (hne : run ≠ []) (hrun : ∀ c ∈ run, isBlank c = false)
    (h : run <+: cs) : ∃ word ∈ words cs, run <:+: word := by
  have hword := prefix_splitWord hrun h
  have hwordne : (splitWord cs).1 ≠ [] := by
    rintro hnil
    rw [hnil, List.prefix_nil] at hword
    exact hne hword
  refine ⟨_, ?_, hword.isInfix⟩
  rw [words_eq_ite, if_neg hwordne]
  exact List.mem_cons_self

theorem exists_word_of_infix (hne : run ≠ []) (hrun : ∀ c ∈ run, isBlank c = false)
    (h : run <:+: cs) : ∃ word ∈ words cs, run <:+: word := by
  induction cs with
  | nil => exact exists_word_of_prefix hne hrun (List.infix_nil.mp h ▸ List.prefix_rfl)
  | cons c cs ih =>
    rcases List.infix_cons_iff.mp h with hprefix | hinfix
    · exact exists_word_of_prefix hne hrun hprefix
    · obtain ⟨word, hword, hin⟩ := ih hinfix
      cases hc : isBlank c with
      | true => exact ⟨word, by rwa [words_of_blank hc], hin⟩
      | false =>
        -- The word that `c` begins goes on with the first word of the rest, if there is one.
        have hwords : words (c :: cs) = (c :: (splitWord cs).1) :: (splitWord cs).2 := by
          simp [words, splitWord, hc]
        rw [words_eq_ite] at hword
        rw [hwords]
        split at hword
        · exact ⟨word, List.mem_cons_of_mem _ hword, hin⟩
        · rcases List.mem_cons.mp hword with rfl | hmore
          · exact ⟨_, List.mem_cons_self, List.infix_cons hin⟩
          · exact ⟨word, List.mem_cons_of_mem _ hmore, hin⟩

end CodeSignature.Text
