import CodeSignature.Proofs.Signature.NumberText
import CodeSignature.Proofs.Signature.WordText

/-! # Signatures written as escapes

A mask is looked for as an `x` and more mask characters after it. So what is found of the mask of a
signature begins with its first literal, and nothing is found if that is the last cell. A signature
reads back as it is exactly if it begins with a literal and has another cell.
-/

namespace CodeSignature

namespace Signature

variable {s : Signature} {cs : List Char} {lead x : Char}

def fromLiteral (s : Signature) : Signature := s.dropWhile (·.wildcard)

/-- Two cells or more, of which the first is literal. -/
def Anchored (s : Signature) : Prop := 2 ≤ s.length ∧ s.head?.map (·.wildcard) = some false

instance (s : Signature) : Decidable s.Anchored := inferInstanceAs (Decidable (_ ∧ _))

theorem Anchored.ne_nil (h : s.Anchored) : s ≠ [] := by
  rintro rfl
  exact absurd h.1 (by decide)

theorem anchored_cons {c : Cell} : Anchored (c :: s) ↔ s ≠ [] ∧ c.wildcard = false := by
  simp [Anchored, Nat.succ_le_iff, List.length_pos_iff]

theorem fromLiteral_of_literal {c : Cell} (h : c.wildcard = false) (s : Signature) :
    fromLiteral (c :: s) = c :: s :=
  List.dropWhile_cons_of_neg (by simp [h])

theorem fromLiteral_of_wildcard {c : Cell} (h : c.wildcard = true) (s : Signature) :
    fromLiteral (c :: s) = fromLiteral s :=
  List.dropWhile_cons_of_pos h

theorem length_fromLiteral_le (s : Signature) : s.fromLiteral.length ≤ s.length :=
  (List.dropWhile_suffix _).length_le

theorem length_fromLiteral_eq_iff (h : s ≠ []) :
    s.fromLiteral.length = s.length ↔ s.head?.map (·.wildcard) = some false := by
  cases s with
  | nil => exact absurd rfl h
  | cons c s =>
    cases hc : c.wildcard
    · simp [fromLiteral_of_literal hc, hc]
    · have hle := length_fromLiteral_le s
      rw [fromLiteral_of_wildcard hc, List.head?_cons, Option.map_some, hc, List.length_cons]
      constructor
      · intro heq
        omega
      · nofun

theorem isMaskChar_of_mem_maskChars (s : Signature) : ∀ a ∈ s.maskChars, isMaskChar a = true := by
  rintro a ha
  obtain ⟨c, -, rfl⟩ := List.mem_map.mp ha
  split <;> rfl

/-- Of a mask only the part from the first literal on is found, and no single `x`. -/
theorem findMaskRun_maskChars (s : Signature) :
    findMaskRun s.maskChars =
      if 2 ≤ s.fromLiteral.length then some s.fromLiteral.maskChars else none := by
  induction s with
  | nil => rfl
  | cons c s ih =>
    cases hc : c.wildcard
    · have hrun : (maskChars s).takeWhile isMaskChar = maskChars s :=
        List.takeWhile_eq_self_iff.mpr (isMaskChar_of_mem_maskChars s)
      have hmask : maskChars (c :: s) = 'x' :: maskChars s := by simp [maskChars, hc]
      rw [fromLiteral_of_literal hc, hmask, findMaskRun, if_pos rfl, hrun]
      cases s <;> rfl
    · have hmask : maskChars (c :: s) = '?' :: maskChars s := by simp [maskChars, hc]
      rw [fromLiteral_of_wildcard hc, hmask, findMaskRun_cons_of_ne (by decide), ih]

theorem findBytes_eq_nil_of_lead (h : lead ∉ cs) : findBytes lead cs = [] := by
  induction cs with
  | nil => cases lead; rfl
  | cons a cs ih =>
    rw [List.mem_cons, not_or] at h
    rw [findBytes_cons_of_ne (Ne.symm h.1), ih h.2]

theorem mem_of_mem_singleMarks (h : x ∈ singleMarks cs) : x ∈ cs := by
  fun_induction singleMarks cs with
  | case1 a b c rest hm ih => grind
  | case2 a b c rest hm ih => grind
  | case3 cs => exact h

end Signature

namespace Dialect

open Signature

variable {cs : List Char} {s : Signature} {b : UInt8}

theorem foldr_of_escapes {α : Type} {f : List Char → α} {g : UInt8 → α → α}
    (hescape : ∀ (b : UInt8) (c : Char) (cs : List Char), c = '\\' ∨ c = ' ' →
      f (escapedByte b ++ c :: cs) = g b (f (c :: cs))) (bytes : List UInt8) (cs : List Char) :
    f (bytes.flatMap escapedByte ++ ' ' :: cs) = bytes.foldr g (f (' ' :: cs)) := by
  induction bytes with
  | nil => rfl
  | cons b bytes ih =>
    rw [List.flatMap_cons, List.append_assoc, List.foldr_cons, ← ih]
    cases bytes with
    | nil => exact hescape b ' ' cs (.inr rfl)
    | cons b' bytes => exact hescape b '\\' _ (.inl rfl)

theorem findMaskRun_escapes (bytes : List UInt8) (cs : List Char) :
    findMaskRun (bytes.flatMap escapedByte ++ ' ' :: cs) = findMaskRun (' ' :: cs) := by
  rw [foldr_of_escapes (f := findMaskRun) (g := fun _ r => r)]
  · exact List.foldr_fixed _
  · intro b c cs _
    obtain ⟨hhigh, hlow⟩ := Hex.upperDigit_ne (x := 'x') (by decide) b
    simp only [escapedByte, Hex.upperByte, List.cons_append, List.nil_append]
    rw [findMaskRun_cons_of_ne (by decide), findMaskRun_lone (isMaskChar_upperDigit b),
      findMaskRun_cons_of_ne hhigh, findMaskRun_cons_of_ne hlow]

theorem findBytes_escapes (bytes : List UInt8) (cs : List Char) :
    findBytes '\\' (bytes.flatMap escapedByte ++ ' ' :: cs) =
      bytes ++ findBytes '\\' (' ' :: cs) := by
  rw [foldr_of_escapes (f := findBytes '\\') (g := List.cons)]
  · exact List.foldr_cons_eq_append'
  · intro b c cs _
    exact findBytes_digits '\\' b _

theorem findBytes_number_escapes (bytes : List UInt8) (cs : List Char) :
    findBytes '0' (bytes.flatMap escapedByte ++ ' ' :: cs) = findBytes '0' (' ' :: cs) := by
  rw [foldr_of_escapes (f := findBytes '0') (g := fun _ r => r)]
  · exact List.foldr_fixed _
  · intro b c cs hc
    obtain ⟨-, hlow⟩ := Hex.upperDigit_ne (x := 'x') (by decide) b
    have hnext : c ≠ 'x' := by rcases hc with rfl | rfl <;> decide
    simp only [escapedByte, Hex.upperByte, List.cons_append, List.nil_append]
    rw [findBytes_cons_of_ne (by decide), findBytes_cons_of_ne (by decide),
      findBytes_cons_cons_of_ne hlow, findBytes_cons_cons_of_ne hnext]

theorem singleMarks_escapes (bytes : List UInt8) (cs : List Char) :
    singleMarks (bytes.flatMap escapedByte ++ ' ' :: cs) =
      bytes.flatMap escapedByte ++ singleMarks (' ' :: cs) := by
  rw [foldr_of_escapes (f := singleMarks) (g := fun b r => escapedByte b ++ r)]
  · rw [List.foldr_append_eq_append, List.flatMap_def]
  · intro b c cs _
    obtain ⟨hhigh, hlow⟩ := Hex.upperDigit_ne (x := '?') (by decide) b
    simp only [escapedByte, Hex.upperByte, List.cons_append, List.nil_append]
    rw [singleMarks_cons_of_ne (by decide), singleMarks_cons_of_ne (by decide),
      singleMarks_cons_of_ne hhigh, singleMarks_cons_of_ne hlow]

theorem forall_mem_escapes {P : Char → Prop} (hescape : P '\\') (hx : P 'x')
    (hdigit : ∀ n : Fin 16, P (Hex.upperDigit n)) (bytes : List UInt8) :
    ∀ a ∈ bytes.flatMap escapedByte, P a := by
  intro a ha
  obtain ⟨b, -, ha⟩ := List.mem_flatMap.mp ha
  have hb : b.toNat < 256 := b.toNat_lt
  simp only [escapedByte, Hex.upperByte, List.mem_cons, List.not_mem_nil, or_false] at ha
  rcases ha with rfl | rfl | rfl | rfl
  · exact hescape
  · exact hx
  · exact hdigit ⟨_, by omega⟩
  · exact hdigit ⟨_, by omega⟩

theorem forall_mem_escapes_mask {P : Char → Prop} (hescape : P '\\') (hx : P 'x') (hmark : P '?')
    (hblank : P ' ') (hdigit : ∀ n : Fin 16, P (Hex.upperDigit n)) (s : Signature) :
    ∀ a ∈ escapes s, P a := by
  intro a ha
  unfold escapes at ha
  split at ha
  · cases ha
  · rw [List.mem_append, List.mem_cons] at ha
    rcases ha with ha | rfl | ha
    · exact forall_mem_escapes hescape hx hdigit _ a ha
    · exact hblank
    · obtain ⟨c, -, rfl⟩ := List.mem_map.mp ha
      split
      · exact hmark
      · exact hx

theorem isTail_of_mem_escapes (bytes : List UInt8) :
    ∀ x ∈ bytes.flatMap escapedByte, isTail x = false :=
  forall_mem_escapes (by decide) (by decide) (by decide) bytes

end Dialect

namespace Signature

open Dialect

variable {s : Signature}

theorem escapes_eq (h : s ≠ []) :
    escapes s = s.values.flatMap escapedByte ++ ' ' :: s.maskChars := if_neg h

theorem findMask_escapes (h : s ≠ []) :
    findMask (escapes s) =
      if 2 ≤ s.fromLiteral.length then some s.fromLiteral.maskChars else none := by
  have hb : 'b' ∉ escapes s := fun hmem =>
    forall_mem_escapes_mask (P := (· ≠ 'b')) (by decide) (by decide) (by decide) (by decide)
      (by decide) s _ hmem rfl
  have hrun : findMaskRun (escapes s) =
      if 2 ≤ s.fromLiteral.length then some s.fromLiteral.maskChars else none := by
    rw [escapes_eq h, findMaskRun_escapes, findMaskRun_cons_of_ne (by decide),
      findMaskRun_maskChars]
  rw [findMask, hrun, findBits_eq_none hb]
  by_cases hlength : 2 ≤ s.fromLiteral.length
  · rw [if_pos hlength]
  · rw [if_neg hlength]
    rfl

theorem not_mem_maskChars_of_mem_leads {lead : Char} (hlead : lead ∈ leads) (s : Signature) :
    lead ∉ ' ' :: s.maskChars := by
  have hleads : leads.all fun lead => lead ≠ ' ' ∧ isMaskChar lead = false := by decide
  obtain ⟨hblank, hmark⟩ := of_decide_eq_true (List.all_eq_true.mp hleads lead hlead)
  rw [List.mem_cons, not_or]
  refine ⟨hblank, fun hmem => ?_⟩
  rw [isMaskChar_of_mem_maskChars s lead hmem] at hmark
  cases hmark

theorem findBytes_of_escapes (h : s ≠ []) :
    findBytes '\\' (escapes s) = s.values ∧ findBytes '0' (escapes s) = [] := by
  rw [escapes_eq h, findBytes_escapes, findBytes_number_escapes,
    findBytes_eq_nil_of_lead (not_mem_maskChars_of_mem_leads (by decide) s),
    findBytes_eq_nil_of_lead (not_mem_maskChars_of_mem_leads (by decide) s), List.append_nil]
  exact ⟨rfl, rfl⟩

theorem readMasked_escapes (h : s ≠ []) {mask : List Char} (hmask : mask ≠ []) :
    readMasked (escapes s) mask =
      if mask.length = s.length then .ok (underMask s.values mask)
      else .error (.maskMismatch (String.ofList mask)) := by
  obtain ⟨hescapes, hnumbers⟩ := findBytes_of_escapes h
  have hpos : mask.length ≠ 0 := List.length_eq_zero_iff.not.mpr hmask
  unfold readMasked
  by_cases hlength : mask.length = s.length
  · have hlead : leads.find? (fun lead => (findBytes lead (escapes s)).length = mask.length) =
        some '\\' := by
      simp [leads, hescapes, hlength]
    simp only [hlead, if_pos hlength, hescapes]
  · have hlead : leads.find? (fun lead => (findBytes lead (escapes s)).length = mask.length) =
        none := by
      simp [leads, hescapes, hnumbers, Ne.symm hlength, Ne.symm hpos]
    rw [hlead, if_neg hlength]

theorem exists_normalize_escapes (h : s ≠ []) :
    ∃ cs, normalize (escapes s) = s.values.flatMap escapedByte ++ ' ' :: cs ∧
      ∀ lead ∈ leads, lead ∉ cs := by
  have hbrackets : (escapes s).filter (fun c => !isBracket c) = escapes s := by
    refine List.filter_eq_self.mpr fun x hx => ?_
    exact forall_mem_escapes_mask (P := fun x => (!isBracket x) = true) (by decide) (by decide)
      (by decide) (by decide) (by decide) s x hx
  have hfront : Text.stripFront (escapes s) = escapes s := by
    rw [escapes_eq h]
    cases s with
    | nil => exact absurd rfl h
    | cons c s => rfl
  obtain ⟨kept, hkept, hfront'⟩ :=
    Sequence.exists_dropEndWhile_append (isTail_of_mem_escapes s.values) (' ' :: s.maskChars)
  -- The blank after the text stands in for the one in front of the mask.
  obtain ⟨cs, hcs, hmem⟩ : ∃ cs, kept ++ [' '] = ' ' :: cs ∧ ∀ x ∈ cs, x ∈ ' ' :: s.maskChars := by
    cases kept with
    | nil => exact ⟨[], rfl, nofun⟩
    | cons x kept =>
      obtain ⟨rfl, hmask⟩ := List.cons_prefix_cons.mp hfront'
      refine ⟨kept ++ [' '], rfl, ?_⟩
      intro x hx
      rcases List.mem_append.mp hx with hx | hx
      · exact List.mem_cons_of_mem _ (hmask.subset hx)
      · rw [List.mem_singleton.mp hx]
        exact List.mem_cons_self
  refine ⟨singleMarks cs, ?_, ?_⟩
  · rw [normalize, hbrackets, hfront, escapes_eq h, hkept, List.append_assoc, hcs,
      singleMarks_escapes, singleMarks_cons_of_ne (by decide)]
  · intro lead hlead hx
    exact not_mem_maskChars_of_mem_leads hlead s (hmem lead (mem_of_mem_singleMarks hx))

theorem ofWords?_escapes (h : s ≠ []) (cs : List Char) :
    ofWords? (s.values.flatMap escapedByte ++ ' ' :: cs) = none := by
  have hblank : ∀ x ∈ s.values.flatMap escapedByte, isBlank x = false := fun x hx =>
    (Bool.or_eq_false_iff.mp (isTail_of_mem_escapes s.values x hx)).2
  have hne : s.values.flatMap escapedByte ≠ [] := by
    cases s with
    | nil => exact absurd rfl h
    | cons c s => exact List.cons_ne_nil _ _
  have hword : ofWord? (s.values.flatMap escapedByte) = none := by
    cases s with
    | nil => rfl
    | cons c s => rfl
  rw [ofWords?, Text.words_append_blank hne hblank]
  simp [hword]

theorem readPlain_escapes (h : s ≠ []) :
    readPlain (escapes s) =
      if 2 ≤ s.length then .ok (ofBytes false s.values) else .error .unrecognizedText := by
  obtain ⟨cs, hnormal, hleads⟩ := exists_normalize_escapes h
  have hbytes : findBytes '\\' (normalize (escapes s)) = s.values := by
    rw [hnormal, findBytes_escapes, findBytes_cons_of_ne (by decide),
      findBytes_eq_nil_of_lead (hleads _ (by decide)), List.append_nil]
  have hnumbers : findBytes '0' (normalize (escapes s)) = [] := by
    rw [hnormal, findBytes_number_escapes, findBytes_cons_of_ne (by decide),
      findBytes_eq_nil_of_lead (hleads _ (by decide))]
  have hwords : ofWords? (normalize (escapes s)) = none := by
    rw [hnormal]
    exact ofWords?_escapes h cs
  unfold readPlain ofLiterals?
  by_cases hlength : 2 ≤ s.length
  · have hlead : leads.find? (fun lead => 1 < (findBytes lead (normalize (escapes s))).length) =
        some '\\' := by
      simp [leads, hbytes, Nat.lt_of_succ_le hlength]
    simp only [hwords, hlead, Option.map_some, hbytes, if_pos hlength]
  · have hlead : leads.find? (fun lead => 1 < (findBytes lead (normalize (escapes s))).length) =
        none := by
      simp [leads, hbytes, hnumbers, Nat.le_of_lt_succ (Nat.lt_of_not_le hlength)]
    simp only [hwords, hlead, Option.map_none, if_neg hlength]

/-- What escapes with a mask are read as. A mask that does not begin with a literal is found from its
first literal on, and then there are too many bytes for it. If it is not found at all, the bytes are
read as literals. -/
theorem read_escapes (h : s ≠ []) :
    readChars (escapes s) =
      if 2 ≤ s.fromLiteral.length then
        if s.fromLiteral.length = s.length then .ok s
        else .error (.maskMismatch (String.ofList s.fromLiteral.maskChars))
      else if 2 ≤ s.length then .ok (ofBytes false s.values) else .error .unrecognizedText := by
  rw [readChars, findMask_escapes h]
  by_cases hrun : 2 ≤ s.fromLiteral.length
  · have hmask : s.fromLiteral.maskChars ≠ [] := by
      intro hnil
      have := congrArg List.length hnil
      rw [length_maskChars, List.length_nil] at this
      omega
    simp only [if_pos hrun, readMasked_escapes h hmask, length_maskChars]
    by_cases hwhole : s.fromLiteral.length = s.length
    · have hself : s.fromLiteral = s := (List.dropWhile_suffix _).eq_of_length hwhole
      rw [hself, if_pos rfl, if_pos rfl, underMask_maskChars]
    · rw [if_neg hwhole, if_neg hwhole]
  · simp only [if_neg hrun, readPlain_escapes h]

/-- Escapes with a mask are read as the signature that they were written for, with the values under
its wildcards, exactly if it begins with a literal and has another cell. -/
theorem read_render_mask_iff (s : Signature) :
    read (Dialect.mask.render s) = .ok s ↔ s.Anchored := by
  rw [read, render, String.toList_ofList]
  change readChars (escapes s) = .ok s ↔ _
  by_cases hne : s = []
  · subst hne
    decide
  have hfirst := length_fromLiteral_eq_iff hne
  have hle := length_fromLiteral_le s
  rw [read_escapes hne, Anchored, ← hfirst]
  split
  next hrun =>
    split
    next hwhole => exact iff_of_true rfl ⟨by omega, hwhole⟩
    next hpart =>
      refine iff_of_false ?_ fun ha => hpart ha.2
      rintro ⟨⟩
  next hrun =>
    refine iff_of_false ?_ fun ha => hrun (by omega)
    split
    next hlength =>
      -- The first cell is a wildcard, and it is read as a literal.
      intro heq
      have heq := Except.ok.inj heq
      have hliteral : s.head?.map (·.wildcard) = some false := by
        rw [← heq]
        cases s with
        | nil => exact absurd rfl hne
        | cons c s => rfl
      exact hrun (by rw [hfirst.mpr hliteral]; exact hlength)
    next => rintro ⟨⟩

/-- A wildcard in front of the only literal: no mask is found, and the wildcard is read as a byte. -/
theorem read_render_mask_misread :
    let s : Signature := [⟨0x00, true⟩, ⟨0x90, false⟩]
    s ≠ [] ∧ s.trim = s ∧ read (Dialect.mask.render s) = .ok [⟨0x00, false⟩, ⟨0x90, false⟩] ∧
      read (Dialect.mask.render s) ≠ .ok s := by
  decide +kernel

/-- The place of the first literal cell, or the length if there is none. -/
def firstLiteral (s : Signature) : Nat := s.findIdx fun c => !c.wildcard

theorem fromLiteral_eq_drop (s : Signature) : s.fromLiteral = s.drop s.firstLiteral :=
  List.dropWhile_eq_drop_findIdx_not

theorem length_fromLiteral (s : Signature) :
    s.fromLiteral.length = s.length - s.firstLiteral := by
  rw [fromLiteral_eq_drop, List.length_drop]

/-- What becomes of a signature that is written as escapes with a mask. It is read back if it begins
with a literal. If its first literal is neither in front nor the last cell, then the mask is reported
from there on, and if it is the last cell or missing, then all bytes are literal. One byte is not
recognized. -/
theorem read_render_mask (s : Signature) :
    read (Dialect.mask.render s) =
      if s.length < 2 then .error .unrecognizedText
      else if s.firstLiteral = 0 then .ok s
      else if s.firstLiteral + 1 < s.length then
        .error (.maskMismatch (mask (s.drop s.firstLiteral)))
      else .ok (ofBytes false s.values) := by
  rw [read, render, String.toList_ofList]
  change readChars (escapes s) = _
  rcases eq_or_ne s [] with rfl | hne
  · decide +kernel
  have hlength := length_fromLiteral s
  rw [read_escapes hne, mask, ← fromLiteral_eq_drop]
  by_cases hshort : s.length < 2
  · rw [if_neg (by omega), if_neg (by omega), if_pos hshort]
  · by_cases hfirst : s.firstLiteral = 0
    · rw [if_pos (by omega), if_pos (by omega), if_neg hshort, if_pos hfirst]
    · by_cases hrest : s.firstLiteral + 1 < s.length
      · rw [if_pos (by omega), if_neg (by omega), if_neg hshort, if_neg hfirst, if_pos hrest]
      · rw [if_neg (by omega), if_pos (by omega), if_neg hshort, if_neg hfirst, if_neg hrest]

example :
    read (Dialect.mask.render [⟨0x00, true⟩, ⟨0x90, false⟩, ⟨0xC3, true⟩]) =
      .error (.maskMismatch "x?") := by
  decide +kernel

end Signature

end CodeSignature
