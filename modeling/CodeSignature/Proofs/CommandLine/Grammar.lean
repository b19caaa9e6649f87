import CodeSignature.CommandLine.Grammar
import Mathlib.Data.List.TakeDrop

/-! # What the reading of a command line keeps

Values are only taken by the options and the positional arguments of a grammar. What each of them keeps,
the reading of any command line keeps.
-/

namespace CodeSignature.CommandLine.Grammar

variable {α β ε σ : Type} {g : Grammar σ} {P : σ → Prop} {c : Choice σ} {item : Item σ}
  {items rest : List (Item σ)} {word name : String} {s t : State σ} {value after : σ}

theorem bind_eq_ok {x : Except ε α} {f : α → Except ε β} {b : β} :
    x >>= f = .ok b ↔ ∃ a, x = .ok a ∧ f a = .ok b := by
  cases x <;> simp [bind, Except.bind]

/-- Each option and each positional argument keeps a property of the accumulator. -/
structure Keeps (g : Grammar σ) (P : σ → Prop) : Prop where
  choice : ∀ c ∈ g.choices, ∀ {words value after}, P value →
    c.take words value = .ok after → P after
  positional : ∀ p ∈ g.positionals, ∀ {words value after}, P value →
    p.take words value = .ok after → P after

def Belongs (g : Grammar σ) : Item σ → Prop
  | .known _ c _ _ => c ∈ g.choices
  | _ => True

theorem mem_of_choice? (h : g.choice? name = some c) : c ∈ g.choices := List.mem_of_find?_eq_some h

theorem mem_of_names (h : (name, c) ∈ g.names) : c ∈ g.choices := by
  obtain ⟨c', hc, hname⟩ := List.mem_flatMap.mp h
  obtain ⟨_, -, heq⟩ := List.mem_map.mp hname
  obtain rfl := (Prod.mk.inj heq).2
  exact hc

theorem belongs_of_longCandidates {word : List Char} (h : item ∈ g.longCandidates word) :
    g.Belongs item := by
  obtain ⟨⟨name, c⟩, hname, hitem⟩ := List.mem_filterMap.mp h
  obtain ⟨-, hitem⟩ := Option.ite_none_right_eq_some.mp hitem
  obtain rfl := Option.some.inj hitem
  exact mem_of_names hname

theorem belongs_of_shortCandidates {letter : Char} {more : List Char}
    (h : item ∈ g.shortCandidates letter more) : g.Belongs item := by
  obtain ⟨⟨name, c⟩, hname, hitem⟩ := List.mem_filterMap.mp h
  dsimp only at hitem
  split at hitem
  · obtain rfl := Option.some.inj hitem
    exact mem_of_names hname
  · obtain ⟨-, hitem⟩ := Option.ite_none_right_eq_some.mp hitem
    obtain rfl := Option.some.inj hitem
    exact mem_of_names hname

theorem belongs_of_candidates {word : List Char} (h : item ∈ g.candidates word) :
    g.Belongs item := by
  unfold candidates at h
  split at h
  · exact belongs_of_longCandidates h
  · exact belongs_of_shortCandidates h
  · cases h

theorem belongs_of_classifyPartial (h : g.classifyPartial word = .ok item) : g.Belongs item := by
  unfold classifyPartial at h
  split at h
  next hfound =>
    obtain rfl := Except.ok.inj h
    exact belongs_of_candidates (hfound ▸ List.mem_singleton_self _)
  next =>
    split at h <;> obtain rfl := Except.ok.inj h <;> trivial
  next => cases h

theorem belongs_of_classify (h : g.classify word = .ok item) : g.Belongs item := by
  unfold classify at h
  split at h
  · obtain rfl := Except.ok.inj h
    trivial
  split at h
  next hc =>
    obtain rfl := Except.ok.inj h
    exact mem_of_choice? hc
  split at h
  · obtain rfl := Except.ok.inj h
    trivial
  split at h
  · split at h
    next hc =>
      obtain rfl := Except.ok.inj h
      exact mem_of_choice? hc
    · exact belongs_of_classifyPartial h
  · exact belongs_of_classifyPartial h

theorem belongs_of_items {words : List String} (h : g.items words = .ok items) :
    ∀ item ∈ items, g.Belongs item := by
  induction words generalizing items with
  | nil =>
    obtain rfl := Except.ok.inj h
    nofun
  | cons word rest ih =>
    rw [Grammar.items] at h
    split at h
    · obtain rfl := Except.ok.inj h
      simp [Belongs]
    · obtain ⟨item, hitem, h⟩ := bind_eq_ok.mp h
      obtain ⟨more, hmore, h⟩ := bind_eq_ok.mp h
      obtain rfl := Except.ok.inj h
      exact List.forall_mem_cons.mpr ⟨belongs_of_classify hitem, ih hmore⟩

/-- The options that a word stands for are options of the grammar, and what follows stood behind it. -/
structure Uses.IsFrom (found : Uses σ) (g : Grammar σ) (items : List (Item σ)) : Prop where
  uses : ∀ use ∈ found.uses, use.1 ∈ g.choices
  rest : found.rest ⊆ items

theorem isFrom_of_useNext {found : Uses σ} (hc : c ∈ g.choices) (h : g.useNext c rest = .ok found) :
    found.IsFrom g rest := by
  unfold useNext at h
  split at h
  · split at h
    · obtain rfl := Except.ok.inj h
      exact ⟨by simpa using hc, List.subset_cons_self _ _⟩
    · cases h
  · obtain rfl := Except.ok.inj h
    exact ⟨by simpa using hc, List.Subset.refl _⟩

theorem isFrom_of_useValue {found : Uses σ} {text : List Char} (hc : c ∈ g.choices)
    (h : g.useValue c text rest = .ok found) : found.IsFrom g rest := by
  unfold useValue at h
  split at h
  · obtain rfl := Except.ok.inj h
    exact ⟨by simpa using hc, List.Subset.refl _⟩
  · cases h

theorem isFrom_of_useLetters {found : Uses σ} {letters : List Char} (hc : c ∈ g.choices)
    (h : g.useLetters rest c letters = .ok found) : found.IsFrom g rest := by
  induction letters generalizing c found with
  | nil => exact isFrom_of_useNext hc h
  | cons letter more ih =>
    rw [useLetters] at h
    split at h
    · exact isFrom_of_useValue hc h
    · split at h
      · cases h
      next further hfurther =>
        obtain ⟨later, hlater, h⟩ := bind_eq_ok.mp h
        obtain rfl := Except.ok.inj h
        obtain ⟨huses, hrest⟩ := ih (mem_of_choice? hfurther) hlater
        exact ⟨List.forall_mem_cons.mpr ⟨hc, huses⟩, hrest⟩

theorem isFrom_of_use {found : Uses σ} {attached : Option (List Char)} (hc : c ∈ g.choices)
    (h : g.use c name attached rest = .ok found) : found.IsFrom g rest := by
  unfold use at h
  split at h
  · exact isFrom_of_useNext hc h
  · split at h
    · exact isFrom_of_useLetters hc h
    · exact isFrom_of_useValue hc h

theorem ok_of_takeFor {result : Except Refusal α} {a : α} {argument : String}
    (h : g.takeFor argument result = .ok a) : result = .ok a := by
  unfold takeFor at h
  split at h
  · exact congrArg _ (Except.ok.inj h)
  all_goals cases h

theorem subset_of_wordsFor {p : Positional σ} {words : List String}
    (h : wordsFor p items = some (words, rest)) : rest ⊆ items := by
  unfold wordsFor at h
  split at h
  · unfold allArguments at h
    split at h
    · obtain ⟨-, rfl⟩ := Prod.mk.inj (Option.some.inj h)
      exact List.nil_subset _
    · cases h
  · simp only [oneArgument, List.span_eq_takeWhile_dropWhile] at h
    split at h
    next text more heq =>
      obtain ⟨-, rfl⟩ := Prod.mk.inj (Option.some.inj h)
      have hmore : more ⊆ items.dropWhile Item.isSeparator := by
        rw [heq]
        exact List.subset_cons_self _ _
      exact List.Subset.trans (List.dropWhile_suffix _).subset
        (List.Subset.trans hmore (List.dropWhile_suffix _).subset)
    · cases h

theorem subset_of_pair (pending : List (Positional σ)) (items : List (Item σ)) :
    (∀ entry ∈ (pair pending items).1, entry.1 ∈ pending) ∧
      (pair pending items).2.1 ⊆ pending ∧ (pair pending items).2.2 ⊆ items := by
  induction pending generalizing items with
  | nil => exact ⟨nofun, List.Subset.refl _, List.Subset.refl _⟩
  | cons p more ih =>
    rw [pair]
    split
    next words between hwords =>
      obtain ⟨hfound, hleft, hrest⟩ := ih between
      exact ⟨List.forall_mem_cons.mpr ⟨.head _, fun entry hentry => .tail _ (hfound entry hentry)⟩,
        List.Subset.trans hleft (List.subset_cons_self _ _),
        List.Subset.trans hrest (subset_of_wordsFor hwords)⟩
    next => exact ⟨nofun, List.Subset.refl _, List.Subset.refl _⟩

/-- A property of the accumulator holds, and what is pending belongs to the grammar. -/
structure Sound (g : Grammar σ) (P : σ → Prop) (s : State σ) : Prop where
  value : P s.value
  pending : s.pending ⊆ g.positionals

theorem Sound.leave (hs : g.Sound P s) (words : List String) : g.Sound P (leave s words) :=
  ⟨hs.value, hs.pending⟩

namespace Keeps

variable (hg : g.Keeps P)
include hg

theorem takeUses {uses : List (Use σ)} (huses : ∀ use ∈ uses, use.1 ∈ g.choices)
    (hs : g.Sound P s) (h : g.takeUses uses s = .ok t) : g.Sound P t := by
  induction uses generalizing s with
  | nil =>
    obtain rfl := Except.ok.inj h
    exact hs
  | cons use rest ih =>
    obtain ⟨value, hvalue, h⟩ := bind_eq_ok.mp h
    have hkept := hg.choice use.1 (huses use (.head _)) hs.value (ok_of_takeFor hvalue)
    exact ih (s := { s with value := value }) (fun x hx => huses x (.tail _ hx))
      ⟨hkept, hs.pending⟩ h

theorem takePositionals {found : List (Positional σ × List String)}
    (hfound : ∀ entry ∈ found, entry.1 ∈ g.positionals) (hvalue : P value)
    (h : g.takePositionals found value = .ok after) : P after := by
  induction found generalizing value with
  | nil =>
    obtain rfl := Except.ok.inj h
    exact hvalue
  | cons entry rest ih =>
    obtain ⟨next, hnext, h⟩ := bind_eq_ok.mp h
    exact ih (fun x hx => hfound x (.tail _ hx))
      (hg.positional entry.1 (hfound entry (.head _)) hvalue (ok_of_takeFor hnext)) h

theorem finish (hs : g.Sound P s) (h : g.finish items s = .ok t) : g.Sound P t := by
  obtain ⟨hfound, hleft, -⟩ := subset_of_pair s.pending items
  obtain ⟨value, hvalue, h⟩ := bind_eq_ok.mp h
  obtain rfl := Except.ok.inj h
  exact ⟨hg.takePositionals (fun entry hentry => hs.pending (hfound entry hentry)) hs.value hvalue,
    List.Subset.trans hleft hs.pending⟩

theorem readItems (steps : Nat) (hitems : ∀ item ∈ items, g.Belongs item) (hs : g.Sound P s)
    (h : g.readItems steps items s = .ok t) : g.Sound P t := by
  induction steps generalizing items s with
  | zero => exact hg.finish hs h
  | succ steps ih =>
    unfold Grammar.readItems at h
    split at h
    · exact hg.finish hs h
    split at h
    next text c name attached rest =>
      obtain ⟨found, hfound, h⟩ := bind_eq_ok.mp h
      obtain ⟨next, hnext, h⟩ := bind_eq_ok.mp h
      obtain ⟨huses, hrest⟩ := isFrom_of_use (hitems _ (.head _)) hfound
      exact ih (fun x hx => hitems x (.tail _ (hrest hx))) (hg.takeUses huses hs hnext) h
    next => exact ih (fun x hx => hitems x (.tail _ hx)) (hs.leave _) h
    next =>
      obtain ⟨hfound, hleft, hrest⟩ := subset_of_pair s.pending items
      split at h
      next =>
        simp only [List.span_eq_takeWhile_dropWhile] at h
        exact ih (fun x hx => hitems x ((List.dropWhile_suffix _).subset hx)) (hs.leave _) h
      next found pending rest _ hpair =>
        rw [hpair] at hfound hleft hrest
        obtain ⟨value, hvalue, h⟩ := bind_eq_ok.mp h
        have hkept := hg.takePositionals (fun entry hentry => hs.pending (hfound entry hentry))
          hs.value hvalue
        exact ih (fun x hx => hitems x (hrest hx)) ⟨hkept, List.Subset.trans hleft hs.pending⟩ h

end Keeps

/-- What every argument keeps is kept by reading a command line. -/
theorem Keeps.read (hg : g.Keeps P) {words extras : List String} (hvalue : P value)
    (h : g.read words value = .ok (after, extras)) : P after := by
  obtain ⟨items, hitems, h⟩ := bind_eq_ok.mp h
  obtain ⟨t, ht, h⟩ := bind_eq_ok.mp h
  have hsound := hg.readItems _ (belongs_of_items hitems) ⟨hvalue, List.Subset.refl _⟩ ht
  split at h
  · obtain ⟨rfl, -⟩ := Prod.mk.inj (Except.ok.inj h)
    exact hsound.value
  · cases h

end CodeSignature.CommandLine.Grammar
