import CodeSignature.Proofs.Image.Occurrences

/-! # Trimmed signatures

A signature is its trimmed form and some trailing wildcards. Each of these still needs a byte to
stand on, so the signature matches exactly where its trimmed form does and there is room for all.
-/

namespace CodeSignature

namespace Signature

variable {s t : Signature} {bytes : List UInt8}

@[simp] theorem pattern_append (s t : Signature) : pattern (s ++ t) = s.pattern ++ t.pattern :=
  List.map_append

@[simp] theorem length_pattern (s : Signature) : s.pattern.length = s.length := List.length_map _

@[simp] theorem values_append (s t : Signature) : values (s ++ t) = s.values ++ t.values :=
  List.map_append

@[simp] theorem length_values (s : Signature) : s.values.length = s.length := List.length_map _

@[simp] theorem values_ofBytes (w : Bool) (bytes : List UInt8) :
    (ofBytes w bytes).values = bytes := by
  simp [values, ofBytes, Function.comp_def]

theorem pattern_ofBytes_literal (bytes : List UInt8) :
    (ofBytes false bytes).pattern = bytes.map some := by
  simp [pattern, ofBytes]

theorem pattern_eq_replicate (h : ∀ c ∈ s, c.wildcard = true) :
    s.pattern = List.replicate s.length none := by
  rw [List.eq_replicate_iff]
  refine ⟨length_pattern s, fun place hp => ?_⟩
  obtain ⟨c, hc, rfl⟩ := List.mem_map.mp hp
  simp [h c hc]

theorem exists_eq_trim_append (s : Signature) :
    ∃ tail : Signature, s = s.trim ++ tail ∧ ∀ c ∈ tail, c.wildcard = true :=
  Sequence.exists_eq_dropEndWhile_append _ _

theorem trim_prefix (s : Signature) : s.trim <+: s := by
  obtain ⟨tail, hs, -⟩ := s.exists_eq_trim_append
  exact ⟨tail, hs.symm⟩

theorem trim_eq_self (h : ∀ c ∈ s, c.wildcard = false) : s.trim = s :=
  Sequence.dropEndWhile_eq_self h

theorem trim_ne_nil {c : Cell} (hc : c ∈ s) (hl : c.wildcard = false) : s.trim ≠ [] := by
  intro hn
  obtain ⟨tail, hs, ht⟩ := s.exists_eq_trim_append
  rw [hn, List.nil_append] at hs
  have := ht c (hs ▸ hc)
  simp [hl] at this

theorem trim_append_of_wildcards (h : ∀ c ∈ t, c.wildcard = true)
    (s : Signature) : (s ++ t).trim = s.trim :=
  Sequence.dropEndWhile_append_of_forall h s

theorem trim_append_of_literals (hne : t ≠ [])
    (h : ∀ c ∈ t, c.wildcard = false) (s : Signature) : (s ++ t).trim = s ++ t := by
  rw [← List.dropLast_concat_getLast hne, ← List.append_assoc]
  exact Sequence.dropEndWhile_concat (h _ (List.getLast_mem hne)) _

theorem exists_trim_eq_append (h : s.trim ≠ []) :
    ∃ (front : Signature) (c : Cell), s.trim = front ++ [c] ∧ c.wildcard = false := by
  have hlast := (List.dropLast_concat_getLast h).symm
  exact ⟨_, _, hlast, Sequence.last_dropEndWhile hlast⟩

theorem trim_trim (s : Signature) : s.trim.trim = s.trim := by
  by_cases hnil : s.trim = []
  · rw [hnil]
    rfl
  · obtain ⟨front, c, htrim, hliteral⟩ := exists_trim_eq_append hnil
    rw [htrim]
    exact Sequence.dropEndWhile_concat hliteral front

theorem trim_cons {c : Cell} (h : c.wildcard = false) (s : Signature) :
    trim (c :: s) = c :: s.trim := by
  unfold trim
  rw [Sequence.dropEndWhile]
  split
  next hnil => rw [if_neg (by simp [h]), hnil]
  next => rfl

/-- Cells hold the bytes in front of which they are laid, as far as both go. -/
def Agrees (s : Signature) (bytes : List UInt8) : Prop :=
  ∀ (k : Nat) (c : Cell) (b : UInt8), s[k]? = some c → bytes[k]? = some b → c.value = b

theorem agrees_nil (bytes : List UInt8) : Agrees [] bytes := by
  intro k c b hc
  simp at hc

theorem Agrees.append (hv : s.values = bytes.take s.length) (ht : Agrees t (bytes.drop s.length)) :
    Agrees (s ++ t) bytes := by
  intro k c b hc hb
  rcases Nat.lt_or_ge k s.length with hk | hk
  · rw [List.getElem?_append_left hk] at hc
    have hvalue : s.values[k]? = some c.value := by simp [values, hc]
    rw [hv, List.getElem?_take_of_lt hk, hb] at hvalue
    exact (Option.some.inj hvalue).symm
  · rw [List.getElem?_append_right hk] at hc
    exact ht (k - s.length) c b hc (by rw [List.getElem?_drop, Nat.add_sub_cancel' hk]; exact hb)

theorem agrees_of_values (h : s.values = bytes.take s.length) : s.Agrees bytes := by
  have := Agrees.append h (agrees_nil _)
  rwa [List.append_nil] at this

theorem Agrees.of_front (h : Agrees t bytes) (hp : s <+: t) : Agrees s bytes := by
  obtain ⟨tail, rfl⟩ := hp
  intro k c b hc hb
  refine h k c b ?_ hb
  rw [List.getElem?_append_left (List.getElem?_eq_some_iff.mp hc).1, hc]

theorem Agrees.matchesFront_iff (h : Agrees s bytes) :
    s.pattern.matchesFront bytes = true ↔ s.length ≤ bytes.length := by
  rw [Pattern.matchesFront_iff, length_pattern]
  refine ⟨And.left, fun hl => ⟨hl, fun k v hv => ?_⟩⟩
  obtain ⟨c, hc, hcv⟩ : ∃ c, s[k]? = some c ∧
      (if c.wildcard then none else some c.value) = some v := by
    simpa [pattern] using hv
  have hk : k < bytes.length := Nat.lt_of_lt_of_le (List.getElem?_eq_some_iff.mp hc).1 hl
  have hb : bytes[k]? = some bytes[k] := List.getElem?_eq_getElem hk
  have hvalue := h k c _ hc hb
  split at hcv
  · simp at hcv
  · rw [hb, ← hvalue, hcv]

theorem matchesFront_iff_trim (s : Signature) (bytes : List UInt8) :
    s.pattern.matchesFront bytes = true ↔
      s.trim.pattern.matchesFront bytes = true ∧ s.length ≤ bytes.length := by
  obtain ⟨tail, hs, ht⟩ := s.exists_eq_trim_append
  have hp : s.pattern = s.trim.pattern ++ List.replicate tail.length none := by
    rw [← pattern_eq_replicate ht, ← pattern_append, ← hs]
  have hl : s.length = s.trim.length + tail.length := by
    rw [← List.length_append, ← hs]
  rw [hp, Pattern.matchesFront_append, Pattern.matchesFront_wildcards, List.length_drop,
    length_pattern, hl]
  refine and_congr_right fun hm => ?_
  have := Pattern.length_le_of_matchesFront hm
  rw [length_pattern] at this
  omega

/-- A signature occurs where its trimmed form does and the segment has room for all its cells. -/
theorem mem_occurrences_iff_trim {image : Image} {x : Int} (s : Signature) :
    x ∈ image.occurrences s.pattern ↔
      ∃ t ∈ image.segments, t.contains x = true ∧
        s.trim.pattern.matchesFront (t.rest x) = true ∧ x + s.length ≤ t.stop := by
  rw [Image.mem_occurrences_iff]
  refine exists_congr fun t => and_congr_right fun _ => and_congr_right fun hc => ?_
  rw [matchesFront_iff_trim]
  refine and_congr_right fun _ => ?_
  have := Segment.length_rest_of_contains hc
  omega

end Signature

end CodeSignature
