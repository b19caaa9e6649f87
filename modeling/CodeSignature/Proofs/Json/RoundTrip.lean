import CodeSignature.Proofs.Association
import CodeSignature.Proofs.Json.Number
import CodeSignature.Proofs.Json.Text
import Mathlib

/-! # What is written is read again

A value without real numbers and surrogates is read as it was written, if its numbers are not too long,
no object has a key twice, and it is not nested too deeply.
-/

namespace CodeSignature.Json

variable {depth level outer steps : Nat} {v item : Json} {items : List Json} {fields : Fields}
  {c : Char} {cs rest : List Char}

/-- Values that can be read again where so many arrays and objects may be nested. -/
inductive Readable : Nat → Json → Prop where
  | null (depth : Nat) : Readable depth .null
  | bool (depth : Nat) (b : Bool) : Readable depth (.bool b)
  | integer (depth : Nat) {n : Int} (h : n.natAbs < 10 ^ maxDigits) : Readable depth (.integer n)
  | text (depth : Nat) (s : String) : Readable depth (.text (.ofString s))
  | array {depth : Nat} {items : List Json} (hitems : ∀ item ∈ items, Readable depth item) :
      Readable (depth + 1) (.array items)
  | object {depth : Nat} {fields : Fields} (hkeys : (fields.map Prod.fst).Nodup)
      (hnames : ∀ field ∈ fields, ∃ s : String, field.1 = .ofString s)
      (hvalues : ∀ field ∈ fields, Readable depth field.2) : Readable (depth + 1) (.object fields)

theorem skipGap_of_not_isGap (h : isGap c = false) (cs : List Char) :
    skipGap (c :: cs) = c :: cs := by
  simp [skipGap, h]

theorem skipGap_lineBreak (level : Nat) (rest : List Char) :
    skipGap (lineBreak level rest) = skipGap rest := by
  have hblanks : ∀ c ∈ List.replicate (4 * level) ' ', isGap c = true := by simp [isGap]
  rw [skipGap, lineBreak, List.dropWhile_cons_of_pos (by decide),
    List.dropWhile_append_of_pos hblanks, skipGap]

theorem length_lineBreak (level : Nat) (rest : List Char) :
    (lineBreak level rest).length = 4 * level + rest.length + 1 := by
  simp [lineBreak]

theorem writeItems_cons_cons (next : Json) (more : List Json) :
    writeItems level (item :: next :: more) rest =
      lineBreak level (item.write level (',' :: writeItems level (next :: more) rest)) := rfl

theorem writeFields_cons_cons (key : WideString) (value : Json) (next : WideString × Json)
    (more : Fields) :
    writeFields level ((key, value) :: next :: more) rest =
      lineBreak level (quote key
        (':' :: ' ' :: value.write level (',' :: writeFields level (next :: more) rest))) := rfl

/-- A written value starts with a character that is neither a gap nor a closing bracket. -/
structure Opens (written rest : List Char) : Prop where
  head : ∃ c cs, written = c :: cs ∧ isGap c = false ∧ c ≠ ']'
  length : rest.length < written.length

theorem Opens.skipGap_eq {written : List Char} (h : Opens written rest) :
    skipGap written = written := by
  obtain ⟨c, cs, rfl, hc, -⟩ := h.head
  exact skipGap_of_not_isGap hc cs

theorem length_le_writeItems (h : ∀ item ∈ items, ∀ level rest, Opens (item.write level rest) rest)
    (level : Nat) (rest : List Char) : rest.length ≤ (writeItems level items rest).length := by
  induction items with
  | nil => exact Nat.le_refl _
  | cons item more ih =>
    have hmore := ih fun x hx => h x (.tail _ hx)
    cases more with
    | nil =>
      have hitem := (h item (.head _) level rest).length
      simp only [writeItems, length_lineBreak]
      omega
    | cons next more =>
      have hitem := (h item (.head _) level (',' :: writeItems level (next :: more) rest)).length
      simp only [List.length_cons] at hitem
      simp only [writeItems, length_lineBreak]
      omega

theorem length_le_writeFields
    (h : ∀ field ∈ fields, ∀ level rest, Opens (field.2.write level rest) rest)
    (level : Nat) (rest : List Char) : rest.length ≤ (writeFields level fields rest).length := by
  induction fields with
  | nil => exact Nat.le_refl _
  | cons field more ih =>
    obtain ⟨key, value⟩ := field
    have hmore := ih fun x hx => h x (.tail _ hx)
    cases more with
    | nil =>
      have hvalue : rest.length < (value.write level rest).length :=
        (h (key, value) (.head _) level rest).length
      simp only [writeFields, length_lineBreak, quote, List.length_cons, List.length_append]
      omega
    | cons next more =>
      have hopens := h (key, value) (.head _) level (',' :: writeFields level (next :: more) rest)
      have hvalue := hopens.length
      simp only [List.length_cons] at hvalue
      simp only [writeFields, length_lineBreak, quote, List.length_cons, List.length_append]
      omega

theorem Opens.cons (hc : isGap c = false) (hne : c ≠ ']') (h : rest.length ≤ cs.length) :
    Opens (c :: cs) rest :=
  ⟨⟨c, cs, rfl, hc, hne⟩, Nat.lt_succ_of_le h⟩

theorem opens_integer (n : Int) (rest : List Char) : Opens ((toString n).toList ++ rest) rest := by
  obtain ⟨c, cs, hcons, hc, hlength⟩ := exists_toString_eq_cons n rest
  rw [hcons]
  refine .cons ?_ ?_ hlength
  · by_contra hgap
    simp only [isGap, Bool.not_eq_false, Bool.or_eq_true, decide_eq_true_eq] at hgap
    rcases hgap with ((rfl | rfl) | rfl) | rfl <;> simp at hc
  · rintro rfl
    simp at hc

theorem opens_write (h : Readable depth v) (level : Nat) (rest : List Char) :
    Opens (v.write level rest) rest := by
  induction h generalizing level rest with
  | null depth =>
    show Opens ('n' :: 'u' :: 'l' :: 'l' :: rest) rest
    exact .cons (by decide) (by decide) (Nat.le_add_right _ 3)
  | bool depth b =>
    cases b with
    | false =>
      show Opens ('f' :: 'a' :: 'l' :: 's' :: 'e' :: rest) rest
      exact .cons (by decide) (by decide) (Nat.le_add_right _ 4)
    | true =>
      show Opens ('t' :: 'r' :: 'u' :: 'e' :: rest) rest
      exact .cons (by decide) (by decide) (Nat.le_add_right _ 3)
  | integer depth h => exact opens_integer _ rest
  | text depth s =>
    refine .cons (by decide) (by decide) ?_
    simp only [List.length_cons, List.length_append]
    omega
  | @array depth items hitems ih =>
    cases items with
    | nil => exact .cons (by decide) (by decide) (by simp)
    | cons item more =>
      have hlength := length_le_writeItems ih (level + 1) (lineBreak level (']' :: rest))
      simp only [length_lineBreak, List.length_cons] at hlength
      rw [write]
      · exact .cons (by decide) (by decide) (by omega)
      · nofun
  | @object depth fields hkeys hnames hvalues ih =>
    cases fields with
    | nil => exact .cons (by decide) (by decide) (by simp)
    | cons field more =>
      have hlength := length_le_writeFields ih (level + 1) (lineBreak level ('\x7d' :: rest))
      simp only [length_lineBreak, List.length_cons] at hlength
      rw [write]
      · exact .cons (by decide) (by decide) (by omega)
      · nofun

/-- A value is read as it is written, wherever it stands. Each character takes two steps at most. -/
def Reads (depth : Nat) (v : Json) : Prop :=
  ∀ ⦃steps level rest⦄, 2 * (v.write level rest).length ≤ steps + 2 * rest.length → Ends rest →
    readValue steps depth (v.write level rest) = .ok (v, rest)

theorem readItems_last {tail : List Char} (hvalue : readValue steps depth cs = .ok (item, tail))
    (htail : skipGap tail = ']' :: rest) : readItems (steps + 1) depth cs = .ok ([item], rest) := by
  simp only [readItems, hvalue, htail]

theorem readItems_next {tail more : List Char}
    (hvalue : readValue steps depth cs = .ok (item, tail))
    (htail : skipGap tail = ',' :: more)
    (hitems : readItems steps depth (skipGap more) = .ok (items, rest)) :
    readItems (steps + 1) depth cs = .ok (item :: items, rest) := by
  simp only [readItems, hvalue, htail, hitems]

theorem readItems_writeItems (hne : items ≠ [])
    (hopens : ∀ item ∈ items, ∀ level rest, Opens (item.write level rest) rest)
    (hreads : ∀ item ∈ items, Reads depth item)
    (hsteps : 2 * (writeItems level items (lineBreak outer (']' :: rest))).length ≤
      steps + 2 * rest.length) :
    readItems steps depth (skipGap (writeItems level items (lineBreak outer (']' :: rest)))) =
      .ok (items, rest) := by
  induction items generalizing steps with
  | nil => exact absurd rfl hne
  | cons item more ih =>
    cases more with
    | nil =>
      have hwritten := hopens item (.head _) level (lineBreak outer (']' :: rest))
      have hlength := hwritten.length
      simp only [writeItems, length_lineBreak, List.length_cons] at hsteps hlength
      obtain ⟨steps, rfl⟩ : ∃ n, steps = n + 1 := ⟨steps - 1, by omega⟩
      rw [writeItems, skipGap_lineBreak, hwritten.skipGap_eq]
      refine readItems_last (hreads item (.head _) ?_ (ends_lineBreak _ _)) (skipGap_lineBreak _ _)
      simp only [length_lineBreak, List.length_cons]
      omega
    | cons next more =>
      have hrest := length_le_writeItems (fun x hx => hopens x (.tail _ hx)) level
        (lineBreak outer (']' :: rest))
      have hmore := @ih (steps - 1) (by simp) (fun x hx => hopens x (.tail _ hx))
        (fun x hx => hreads x (.tail _ hx))
      rw [writeItems_cons_cons] at hsteps ⊢
      generalize writeItems level (next :: more) (lineBreak outer (']' :: rest)) = following at *
      have hwritten := hopens item (.head _) level (',' :: following)
      have hlength := hwritten.length
      simp only [length_lineBreak, List.length_cons] at hsteps hlength hrest
      obtain ⟨steps, rfl⟩ : ∃ n, steps = n + 1 := ⟨steps - 1, by omega⟩
      rw [skipGap_lineBreak, hwritten.skipGap_eq]
      refine readItems_next (hreads item (.head _) ?_ (ends_comma _)) rfl (hmore (by omega))
      simp only [List.length_cons]
      omega

theorem readFields_last {key : WideString} {after tail : List Char}
    (hkey : readText cs = some (key, ':' :: ' ' :: after)) (hafter : skipGap after = after)
    (hvalue : readValue steps depth after = .ok (v, tail)) (htail : skipGap tail = '\x7d' :: rest) :
    readFields (steps + 1) depth ('\x22' :: cs) = .ok ([(key, v)], rest) := by
  have hcolon : skipGap (':' :: ' ' :: after) = ':' :: ' ' :: after := rfl
  have hblank : skipGap (' ' :: after) = after := hafter
  simp only [readFields, hkey, hcolon, hblank, hvalue, htail]

theorem readFields_next {key : WideString} {after tail more : List Char}
    (hkey : readText cs = some (key, ':' :: ' ' :: after)) (hafter : skipGap after = after)
    (hvalue : readValue steps depth after = .ok (v, tail)) (htail : skipGap tail = ',' :: more)
    (hfields : readFields steps depth (skipGap more) = .ok (fields, rest)) :
    readFields (steps + 1) depth ('\x22' :: cs) = .ok ((key, v) :: fields, rest) := by
  have hcolon : skipGap (':' :: ' ' :: after) = ':' :: ' ' :: after := rfl
  have hblank : skipGap (' ' :: after) = after := hafter
  simp only [readFields, hkey, hcolon, hblank, hvalue, htail, hfields]

theorem readFields_writeFields (hne : fields ≠ [])
    (hnames : ∀ field ∈ fields, ∃ s : String, field.1 = .ofString s)
    (hopens : ∀ field ∈ fields, ∀ level rest, Opens (field.2.write level rest) rest)
    (hreads : ∀ field ∈ fields, Reads depth field.2)
    (hsteps : 2 * (writeFields level fields (lineBreak outer ('\x7d' :: rest))).length ≤
      steps + 2 * rest.length) :
    readFields steps depth (skipGap (writeFields level fields (lineBreak outer ('\x7d' :: rest)))) =
      .ok (fields, rest) := by
  induction fields generalizing steps with
  | nil => exact absurd rfl hne
  | cons field more ih =>
    obtain ⟨key, value⟩ := field
    obtain ⟨s, rfl⟩ : ∃ s : String, key = .ofString s := hnames _ (.head _)
    cases more with
    | nil =>
      have hwritten : Opens (value.write level (lineBreak outer ('\x7d' :: rest))) _ :=
        hopens _ (.head _) level _
      have hlength := hwritten.length
      rw [writeFields] at hsteps ⊢
      simp only [quote, length_lineBreak, List.length_cons, List.length_append] at hsteps hlength
      obtain ⟨steps, rfl⟩ : ∃ n, steps = n + 1 := ⟨steps - 1, by omega⟩
      rw [skipGap_lineBreak]
      refine readFields_last (readText_quoted s _) hwritten.skipGap_eq
        (hreads _ (.head _) ?_ (ends_lineBreak _ _)) (skipGap_lineBreak _ _)
      simp only [length_lineBreak, List.length_cons]
      omega
    | cons next more =>
      have hrest := length_le_writeFields (fun x hx => hopens x (.tail _ hx)) level
        (lineBreak outer ('\x7d' :: rest))
      have hmore := @ih (steps - 1) (by simp) (fun x hx => hnames x (.tail _ hx))
        (fun x hx => hopens x (.tail _ hx)) (fun x hx => hreads x (.tail _ hx))
      rw [writeFields_cons_cons] at hsteps ⊢
      generalize writeFields level (next :: more) (lineBreak outer ('\x7d' :: rest)) = following
        at *
      have hwritten : Opens (value.write level (',' :: following)) _ := hopens _ (.head _) level _
      have hlength := hwritten.length
      simp only [quote, length_lineBreak, List.length_cons, List.length_append]
        at hsteps hlength hrest
      obtain ⟨steps, rfl⟩ : ∃ n, steps = n + 1 := ⟨steps - 1, by omega⟩
      rw [skipGap_lineBreak]
      refine readFields_next (readText_quoted s _) hwritten.skipGap_eq
        (hreads _ (.head _) ?_ (ends_comma _)) rfl (hmore (by omega))
      simp only [List.length_cons]
      omega

theorem readValue_array (hcs : skipGap cs = c :: rest) (hne : c ≠ ']') :
    readValue (steps + 1) (depth + 1) ('[' :: cs) =
      (readItems steps depth (skipGap cs)).map fun (items, rest) => (.array items, rest) := by
  have hbracket : ('[' : Char) ≠ '\x22' := by decide
  simp only [readValue, if_neg hbracket, if_true, hcs]
  split
  next => contradiction
  next heq => exact absurd (List.cons.inj heq).1 hne
  next heq _ =>
    obtain rfl := Nat.succ.inj heq
    cases readItems steps depth (c :: rest) <;> rfl

theorem readValue_object (hcs : skipGap cs = c :: rest) (hne : c ≠ '\x7d') :
    readValue (steps + 1) (depth + 1) ('\x7b' :: cs) =
      (readFields steps depth (skipGap cs)).map fun (fields, rest) =>
        (.object (Association.update [] fields), rest) := by
  have hbrace : ('\x7b' : Char) ≠ '\x22' ∧ ('\x7b' : Char) ≠ '[' := by decide
  simp only [readValue, if_neg hbrace.1, if_neg hbrace.2, if_true, hcs]
  split
  next => contradiction
  next heq => exact absurd (List.cons.inj heq).1 hne
  next heq _ =>
    obtain rfl := Nat.succ.inj heq
    cases readFields steps depth (c :: rest) <;> rfl

theorem readValue_scalar (h : c ≠ '\x22' ∧ c ≠ '[' ∧ c ≠ '\x7b') (cs : List Char) :
    readValue (steps + 1) depth (c :: cs) = readScalar (c :: cs) := by
  obtain ⟨hquote, hbracket, hbrace⟩ := h
  simp only [readValue, if_neg hquote, if_neg hbracket, if_neg hbrace]

theorem readValue_integer {n : Int} (hn : n.natAbs < 10 ^ maxDigits) (h : Ends rest) :
    readValue (steps + 1) depth ((toString n).toList ++ rest) = .ok (.integer n, rest) := by
  have hread := readScalar_integer hn h
  obtain ⟨c, cs, hcons, hc, -⟩ := exists_toString_eq_cons n rest
  rw [hcons] at hread ⊢
  rw [readValue_scalar ⟨?_, ?_, ?_⟩, hread]
  all_goals
    rintro rfl
    simp at hc

theorem exists_skipGap_writeItems (level : Nat) (rest : List Char) (hne : items ≠ [])
    (hopens : ∀ item ∈ items, ∀ level rest, Opens (item.write level rest) rest) :
    ∃ c cs, skipGap (writeItems level items rest) = c :: cs ∧ c ≠ ']' := by
  match items with
  | [item] =>
    have hitem := hopens item (.head _) level rest
    obtain ⟨c, cs, hwritten, -, hc⟩ := hitem.head
    exact ⟨c, cs, by rw [writeItems, skipGap_lineBreak, hitem.skipGap_eq, hwritten], hc⟩
  | item :: next :: more =>
    have hitem := hopens item (.head _) level (',' :: writeItems level (next :: more) rest)
    obtain ⟨c, cs, hwritten, -, hc⟩ := hitem.head
    exact ⟨c, cs, by rw [writeItems_cons_cons, skipGap_lineBreak, hitem.skipGap_eq, hwritten], hc⟩

theorem exists_skipGap_writeFields (level : Nat) (rest : List Char) (hne : fields ≠ []) :
    ∃ cs, skipGap (writeFields level fields rest) = '\x22' :: cs := by
  match fields with
  | [(key, value)] => exact ⟨_, by rw [writeFields, skipGap_lineBreak]; rfl⟩
  | (key, value) :: next :: more =>
    exact ⟨_, by rw [writeFields_cons_cons, skipGap_lineBreak]; rfl⟩

theorem Reads.of_succ (hopens : ∀ level rest, Opens (v.write level rest) rest)
    (h : ∀ {steps level rest}, 2 * (v.write level rest).length ≤ steps + 1 + 2 * rest.length →
      Ends rest → readValue (steps + 1) depth (v.write level rest) = .ok (v, rest)) :
    Reads depth v := by
  intro steps level rest hsteps hends
  have hlength := (hopens level rest).length
  obtain ⟨steps, rfl⟩ : ∃ n, steps = n + 1 := ⟨steps - 1, by omega⟩
  exact h hsteps hends

theorem reads (h : Readable depth v) : Reads depth v := by
  have hopens := opens_write h
  -- the constructors of `Readable` give the hypotheses for all items and all fields at once
  induction h with
  | null depth =>
    exact .of_succ hopens fun _ _ => by
      simp [write, readValue, readScalar, wordValues, dropWord?]
  | bool depth b =>
    exact .of_succ hopens fun _ _ => by
      cases b <;> simp [write, readValue, readScalar, wordValues, dropWord?]
  | integer depth h => exact .of_succ hopens fun _ hends => readValue_integer h hends
  | text depth s =>
    exact .of_succ hopens fun _ _ => by simp [write, quote, readValue, readText_quoted]
  | @array depth items hitems ih =>
    refine .of_succ hopens fun {steps level rest} hsteps _ => ?_
    cases items with
    | nil => simp [write, readValue, skipGap_of_not_isGap (show isGap ']' = false by decide)]
    | cons item more =>
      have hwritten : ∀ x ∈ item :: more, ∀ level rest, Opens (x.write level rest) rest :=
        fun x hx => opens_write (hitems x hx)
      have hreads : ∀ x ∈ item :: more, Reads depth x := fun x hx => ih x hx (hwritten x hx)
      obtain ⟨c, cs, hstart, hc⟩ := exists_skipGap_writeItems (level + 1)
        (lineBreak level (']' :: rest)) (List.cons_ne_nil item more) hwritten
      have hwrite : (array (item :: more)).write level rest =
          '[' :: writeItems (level + 1) (item :: more) (lineBreak level (']' :: rest)) := rfl
      rw [hwrite, List.length_cons] at hsteps
      rw [hwrite, readValue_array hstart hc,
        readItems_writeItems (List.cons_ne_nil item more) hwritten hreads (by omega)]
      rfl
  | @object depth fields hkeys hnames hvalues ih =>
    refine .of_succ hopens fun {steps level rest} hsteps _ => ?_
    cases fields with
    | nil => simp [write, readValue, skipGap_of_not_isGap (show isGap '\x7d' = false by decide)]
    | cons field more =>
      have hwritten : ∀ x ∈ field :: more, ∀ level rest, Opens (x.2.write level rest) rest :=
        fun x hx => opens_write (hvalues x hx)
      have hreads : ∀ x ∈ field :: more, Reads depth x.2 := fun x hx => ih x hx (hwritten x hx)
      obtain ⟨cs, hstart⟩ := exists_skipGap_writeFields (level + 1)
        (lineBreak level ('\x7d' :: rest)) (List.cons_ne_nil field more)
      have hwrite : (object (field :: more)).write level rest =
          '\x7b' :: writeFields (level + 1) (field :: more) (lineBreak level ('\x7d' :: rest)) :=
        rfl
      rw [hwrite, List.length_cons] at hsteps
      rw [hwrite, readValue_object hstart (by decide),
        readFields_writeFields (List.cons_ne_nil field more) hnames hwritten hreads (by omega)]
      have hupdate : Association.update [] (field :: more) = field :: more :=
        Association.update_of_nodup hkeys
      simp only [Except.map, hupdate]

/-- The text of a value is read as the value. -/
theorem read_toText (h : Readable maxDepth v) : read v.toText = .ok v := by
  have hopens := opens_write h 0 []
  have hread : readValue (2 * (v.write 0 []).length + 1) maxDepth (v.write 0 []) = .ok (v, []) :=
    reads h (by simp) ends_nil
  simp only [read, toText, String.toList_ofList, hopens.skipGap_eq, hread]
  rfl

theorem not_mem_lineBreak (level : Nat) (h : '\r' ∉ rest) : '\r' ∉ lineBreak level rest := by
  simp [lineBreak, h]

theorem not_mem_writeItems
    (h : ∀ item ∈ items, ∀ level rest, '\r' ∉ rest → '\r' ∉ item.write level rest)
    (level : Nat) (hrest : '\r' ∉ rest) : '\r' ∉ writeItems level items rest := by
  induction items with
  | nil => exact hrest
  | cons item more ih =>
    have hmore := ih fun x hx => h x (.tail _ hx)
    cases more with
    | nil => exact not_mem_lineBreak level (h item (.head _) level rest hrest)
    | cons next more =>
      exact not_mem_lineBreak level (h item (.head _) level _ (by simp [hmore]))

theorem not_mem_quote (s : String) (h : '\r' ∉ rest) : '\r' ∉ quote (.ofString s) rest := by
  simp [quote, WideString.ofString, h, not_mem_escapePoint]

theorem not_mem_writeFields (hnames : ∀ field ∈ fields, ∃ s : String, field.1 = .ofString s)
    (h : ∀ field ∈ fields, ∀ level rest, '\r' ∉ rest → '\r' ∉ field.2.write level rest)
    (level : Nat) (hrest : '\r' ∉ rest) : '\r' ∉ writeFields level fields rest := by
  induction fields with
  | nil => exact hrest
  | cons field more ih =>
    obtain ⟨key, value⟩ := field
    obtain ⟨s, rfl⟩ : ∃ s : String, key = .ofString s := hnames _ (.head _)
    have hmore := ih (fun x hx => hnames x (.tail _ hx)) fun x hx => h x (.tail _ hx)
    cases more with
    | nil =>
      have hvalue := h _ (.head _) level rest hrest
      exact not_mem_lineBreak level (not_mem_quote s (by simp [hvalue]))
    | cons next more =>
      have hvalue := h _ (.head _) level (',' :: writeFields level (next :: more) rest)
        (by simp [hmore])
      exact not_mem_lineBreak level (not_mem_quote s (by simp [hvalue]))

theorem not_mem_write (h : Readable depth v) (level : Nat) (hrest : '\r' ∉ rest) :
    '\r' ∉ v.write level rest := by
  induction h generalizing level rest with
  | null depth => simpa [write] using hrest
  | bool depth b => cases b <;> simpa [write] using hrest
  | integer depth h => exact not_mem_toString _ hrest
  | text depth s => exact not_mem_quote s hrest
  | @array depth items hitems ih =>
    cases items with
    | nil => simpa [write] using hrest
    | cons item more =>
      rw [write]
      · have hend : '\r' ∉ lineBreak level (']' :: rest) :=
          not_mem_lineBreak level (by simp [hrest])
        simpa using not_mem_writeItems (fun x hx level rest => ih x hx level) (level + 1) hend
      · nofun
  | @object depth fields hkeys hnames hvalues ih =>
    cases fields with
    | nil => simpa [write] using hrest
    | cons field more =>
      rw [write]
      · have hend : '\r' ∉ lineBreak level ('\x7d' :: rest) :=
          not_mem_lineBreak level (by simp [hrest])
        simpa using
          not_mem_writeFields hnames (fun x hx level rest => ih x hx level) (level + 1) hend
      · nofun

end CodeSignature.Json
