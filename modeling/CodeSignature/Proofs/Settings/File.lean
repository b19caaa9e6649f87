import CodeSignature.Proofs.Association
import CodeSignature.Settings.File
import Mathlib

/-! # What a settings file may hold

A text that is no JSON leaves the settings as nobody has changed them, and so it should be for any text
that holds no object. But the items of an array are taken as pairs that change the settings, and a text
that can be read but not be taken apart is a fault.
-/

namespace CodeSignature.Settings

variable {s : Settings} {index : Nat} {item : Json} {items : List Json} {field : SettingKey × Json}
  {fields : List (SettingKey × Json)} {cause : Fault} {text path : String}

/-- The settings have the known keys and no others, each with a value that equals its default. Numbers
are compared as they are for keys. -/
structure IsUnchanged (s : Settings) : Prop where
  known : ∀ field ∈ s.fields, ∃ k : Setting, field.1 == k.key
  kept : ∀ k : Setting, ∃ value, s.fields.get? k.key = some value ∧
    SettingKey.ofJson? value == SettingKey.ofJson? k.default

def IsComplete (s : Settings) : Prop := ∀ k : Setting, (s.fields.get? k.key).isSome

/-- The text does no harm: it gives settings, with every known key, and changes nothing unless it holds an
object. -/
def IsHarmless (text : String) (result : Except Fault Settings) : Prop :=
  ∃ s, result = .ok s ∧ s.IsComplete ∧
    ((∀ fields, Json.read text ≠ .ok (.object fields)) → s.IsUnchanged)

/-- The field that a pair stands for: two items, two characters, or two keys. -/
inductive IsPair : Json → SettingKey × Json → Prop where
  | items {first value : Json} {key : SettingKey} (h : SettingKey.ofJson? first = some key) :
      IsPair (.array [first, value]) (key, value)
  | points (p q : CodePoint) : IsPair (.text ⟨[p, q]⟩) (.text ⟨[p]⟩, .text ⟨[q]⟩)
  | keys (first second : WideString) (v w : Json) :
      IsPair (.object [(first, v), (second, w)]) (.text first, .text second)

/-- Why an item of a list stands for no field. -/
inductive IsMisfit (index : Nat) (item : Json) : Fault → Prop where
  | single (h : membersOf item = .error .wrongType) : IsMisfit index item .wrongType
  | length (members : List Json) (h : membersOf item = .ok members) (hne : members.length ≠ 2) :
      IsMisfit index item (.notPair index members.length)
  | key {first value : Json} (h : membersOf item = .ok [first, value])
      (hkey : SettingKey.ofJson? first = none) : IsMisfit index item .wrongType

theorem fieldOf_of_isPair (h : IsPair item field) (index : Nat) :
    fieldOf index item = .ok field := by
  cases h with
  | items h => simp [fieldOf, membersOf, keyOf, h, bind, Except.bind, pure, Except.pure]
  | points p q => rfl
  | keys first second v w => rfl

theorem fieldOf_of_isMisfit (h : IsMisfit index item cause) :
    fieldOf index item = .error cause := by
  cases h with
  | single h => simp [fieldOf, h, bind, Except.bind]
  | length members h hne =>
    match members, hne with
    | [], _ | [_], _ | _ :: _ :: _ :: _, _ => simp [fieldOf, h, bind, Except.bind]
  | key h hkey => simp [fieldOf, h, keyOf, hkey, bind, Except.bind]

theorem isPair_or_isMisfit (index : Nat) (item : Json) :
    (∃ field, IsPair item field) ∨ ∃ cause, IsMisfit index item cause := by
  cases item with
  | null | bool _ | integer _ | real _ => exact .inr ⟨_, .single rfl⟩
  | text s =>
    obtain ⟨points⟩ := s
    match points with
    | [p, q] => exact .inl ⟨_, .points p q⟩
    | [] | [_] | _ :: _ :: _ :: _ => exact .inr ⟨_, .length _ rfl (by simp)⟩
  | array items =>
    match items with
    | [first, value] =>
      cases h : SettingKey.ofJson? first with
      | some key => exact .inl ⟨_, .items h⟩
      | none => exact .inr ⟨_, .key rfl h⟩
    | [] | [_] | _ :: _ :: _ :: _ => exact .inr ⟨_, .length _ rfl (by simp)⟩
  | object fields =>
    match fields with
    | [(first, v), (second, w)] => exact .inl ⟨_, .keys first second v w⟩
    | [] | [_] | _ :: _ :: _ :: _ => exact .inr ⟨_, .length _ rfl (by simp)⟩

def IsRefused (index : Nat) (items : List Json) (cause : Fault) : Prop :=
  ∃ before item after, items = before ++ item :: after ∧ (∀ x ∈ before, ∃ field, IsPair x field) ∧
    IsMisfit (index + before.length) item cause

theorem fieldsFrom_of_forall₂ (h : List.Forall₂ IsPair items fields) (index : Nat) :
    fieldsFrom index items = .ok fields := by
  induction h generalizing index with
  | nil => rfl
  | cons hpair _ ih =>
    simp only [fieldsFrom, fieldOf_of_isPair hpair, ih, bind, Except.bind, pure, Except.pure]

theorem fieldsFrom_of_isRefused (h : IsRefused index items cause) :
    fieldsFrom index items = .error cause := by
  obtain ⟨before, item, after, rfl, hbefore, hmisfit⟩ := h
  induction before generalizing index with
  | nil =>
    have hitem : fieldOf index item = .error cause := fieldOf_of_isMisfit hmisfit
    simp only [List.nil_append, fieldsFrom, hitem, bind, Except.bind]
  | cons x before ih =>
    obtain ⟨field, hpair⟩ := hbefore x List.mem_cons_self
    have hrest := @ih (index + 1) (fun y hy => hbefore y (List.mem_cons_of_mem x hy))
      (by rwa [Nat.add_right_comm])
    simp only [List.cons_append, fieldsFrom, fieldOf_of_isPair hpair, hrest, bind, Except.bind]

theorem forall₂_or_isRefused (index : Nat) (items : List Json) :
    (∃ fields, List.Forall₂ IsPair items fields) ∨ ∃ cause, IsRefused index items cause := by
  induction items generalizing index with
  | nil => exact .inl ⟨[], .nil⟩
  | cons item rest ih =>
    rcases isPair_or_isMisfit index item with ⟨field, hpair⟩ | ⟨cause, hmisfit⟩
    · rcases ih (index + 1) with
        ⟨fields, hfields⟩ | ⟨cause, before, x, after, rfl, hbefore, hmisfit⟩
      · exact .inl ⟨_, .cons hpair hfields⟩
      · rw [Nat.add_right_comm] at hmisfit
        refine .inr ⟨cause, item :: before, x, after, rfl, ?_, hmisfit⟩
        rintro y (_ | ⟨_, hy⟩)
        · exact ⟨field, hpair⟩
        · exact hbefore y hy
    · exact .inr ⟨cause, [], item, rest, rfl, nofun, hmisfit⟩

@[simp] theorem get?_defaults (k : Setting) : defaults.fields.get? k.key = some k.default := by
  cases k <;> cbv

theorem isUnchanged_defaults : IsUnchanged defaults where
  known field hfield := by
    obtain ⟨k, -, rfl⟩ := List.mem_map.mp hfield
    exact ⟨k, BEq.rfl⟩
  kept k := ⟨k.default, get?_defaults k, by cases k <;> rfl⟩

theorem isComplete_update (changes : List (SettingKey × Json)) :
    (defaults.update changes).IsComplete := fun k =>
  Association.isSome_get?_update (by rw [get?_defaults]; rfl) changes

/-- The settings that a text gives. -/
inductive Gives (text : String) : Settings → Prop where
  | malformed (h : Json.read text = .error .malformed) : Gives text defaults
  | object {fields : Fields} (h : Json.read text = .ok (.object fields)) :
      Gives text (defaults.change fields)
  | emptyText (h : Json.read text = .ok (.text ⟨[]⟩)) : Gives text defaults
  | pairs {items : List Json} {fields : List (SettingKey × Json)}
      (h : Json.read text = .ok (.array items)) (hpairs : List.Forall₂ IsPair items fields) :
      Gives text (defaults.update fields)

/-- Why a text gives no settings. -/
inductive Breaks (text : String) : Fault → Prop where
  | longInteger {digits : Nat} (h : Json.read text = .error (.longInteger digits)) :
      Breaks text (.longInteger digits)
  | nested (h : Json.read text = .error .tooDeep) : Breaks text .deepNesting
  | single {value : Json} (h : Json.read text = .ok value)
      (hmembers : membersOf value = .error .wrongType) : Breaks text .wrongType
  | points {p : CodePoint} {more : List CodePoint} (h : Json.read text = .ok (.text ⟨p :: more⟩)) :
      Breaks text (.notPair 0 1)
  | item {items : List Json} {cause : Fault} (h : Json.read text = .ok (.array items))
      (hrefused : IsRefused 0 items cause) : Breaks text cause

theorem ofText_of_gives (h : Gives text s) : ofText text = .ok s := by
  cases h with
  | malformed h => simp only [ofText, h]
  | object h => simp only [ofText, h, merge]
  | emptyText h => simp [ofText, h, merge, membersOf, fieldsFrom, bind, Except.bind, update,
      pure, Except.pure]
  | pairs h hpairs => simp only [ofText, h, merge, membersOf, fieldsFrom_of_forall₂ hpairs, bind,
      Except.bind, pure, Except.pure]

theorem ofText_of_breaks (h : Breaks text cause) : ofText text = .error cause := by
  cases h with
  | longInteger h | nested h => simp only [ofText, h]
  | @single value h hmembers =>
    cases value with
    | null | bool _ | integer _ | real _ => simp only [ofText, h, merge]
    | text _ | array _ | object _ => cases hmembers
  | @points p more h =>
    have hsingle : IsMisfit 0 (.text ⟨[p]⟩) (.notPair 0 1) :=
      .length [.text ⟨[p]⟩] rfl (by simp)
    have hrefused : IsRefused 0 ((p :: more).map fun p => Json.text ⟨[p]⟩) (.notPair 0 1) :=
      ⟨[], _, _, rfl, nofun, hsingle⟩
    simp only [ofText, h, merge, membersOf, fieldsFrom_of_isRefused hrefused, bind, Except.bind]
  | item h hrefused =>
    simp only [ofText, h, merge, membersOf, fieldsFrom_of_isRefused hrefused, bind, Except.bind]

theorem gives_or_breaks (text : String) : (∃ s, Gives text s) ∨ ∃ cause, Breaks text cause := by
  cases h : Json.read text with
  | error e =>
    cases e with
    | malformed => exact .inl ⟨_, .malformed h⟩
    | longInteger digits => exact .inr ⟨_, .longInteger h⟩
    | tooDeep => exact .inr ⟨_, .nested h⟩
  | ok value =>
    cases value with
    | null | bool _ | integer _ | real _ => exact .inr ⟨_, .single h rfl⟩
    | text content =>
      obtain ⟨_ | ⟨p, more⟩⟩ := content
      · exact .inl ⟨_, .emptyText h⟩
      · exact .inr ⟨_, .points h⟩
    | array items =>
      rcases forall₂_or_isRefused 0 items with ⟨fields, hpairs⟩ | ⟨cause, hrefused⟩
      · exact .inl ⟨_, .pairs h hpairs⟩
      · exact .inr ⟨cause, .item h hrefused⟩
    | object fields => exact .inl ⟨_, .object h⟩

theorem ofText_eq_ok_iff : ofText text = .ok s ↔ Gives text s := by
  refine ⟨fun h => ?_, ofText_of_gives⟩
  rcases gives_or_breaks text with ⟨found, hgives⟩ | ⟨cause, hbreaks⟩
  · obtain rfl := Except.ok.inj (h.symm.trans (ofText_of_gives hgives))
    exact hgives
  · cases h.symm.trans (ofText_of_breaks hbreaks)

theorem ofText_eq_error_iff : ofText text = .error cause ↔ Breaks text cause := by
  refine ⟨fun h => ?_, ofText_of_breaks⟩
  rcases gives_or_breaks text with ⟨found, hgives⟩ | ⟨found, hbreaks⟩
  · cases h.symm.trans (ofText_of_gives hgives)
  · obtain rfl := Except.error.inj (h.symm.trans (ofText_of_breaks hbreaks))
    exact hbreaks

theorem Gives.isComplete (h : Gives text s) : s.IsComplete := by
  cases h with
  | malformed _ | emptyText _ => exact isComplete_update []
  | object _ => exact isComplete_update _
  | pairs _ _ => exact isComplete_update _

theorem load_text (hpath : isBroken path = false) (text : String) :
    load path (.ok text) = ofText text := by
  simp only [load, hpath, Bool.false_eq_true, if_false]

/-- A settings file does no harm exactly if its text does not break the reading and the pairs of an array
change nothing. Settings that are given always have every known key. -/
theorem isHarmless_iff (hpath : isBroken path = false) (text : String) :
    let result := load path (.ok text)
    (IsHarmless text result ↔
      (∀ cause, ¬Breaks text cause) ∧
        ∀ items fields, Json.read text = .ok (.array items) → List.Forall₂ IsPair items fields →
          (defaults.update fields).IsUnchanged) ∧
    (∀ cause, result = .error cause ↔ Breaks text cause) ∧
    ∀ s, result = .ok s ↔ Gives text s ∧ s.IsComplete := by
  rw [load_text hpath]
  refine ⟨?_, fun _ => ofText_eq_error_iff, fun s => ofText_eq_ok_iff.trans
    ⟨fun h => ⟨h, h.isComplete⟩, And.left⟩⟩
  simp only [IsHarmless, ofText_eq_ok_iff]
  constructor
  · rintro ⟨s, hgives, -, hunchanged⟩
    refine ⟨fun cause hbreaks => ?_, fun items fields hread hpairs => ?_⟩
    · cases (ofText_of_gives hgives).symm.trans (ofText_of_breaks hbreaks)
    · have hs := (ofText_of_gives hgives).symm.trans (ofText_of_gives (.pairs hread hpairs))
      obtain rfl := Except.ok.inj hs
      exact hunchanged fun fields h => by cases hread.symm.trans h
  · rintro ⟨hbreaks, hpairs⟩
    obtain ⟨s, hgives⟩ := (gives_or_breaks text).resolve_right fun ⟨cause, h⟩ => hbreaks cause h
    refine ⟨s, hgives, hgives.isComplete, fun hobject => ?_⟩
    cases hgives with
    | malformed _ | emptyText _ => exact isUnchanged_defaults
    | object h => exact absurd h (hobject _)
    | pairs h hfields => exact hpairs _ _ h hfields

/-- A pair that keeps a number does no harm, and an item that is no pair breaks the reading. -/
theorem isHarmless_iff_pairs :
    isBroken "settings.json" = false ∧
      IsHarmless "[[\"xref_top_count\", 5]]"
        (load "settings.json" (.ok "[[\"xref_top_count\", 5]]")) ∧
      load "settings.json" (.ok "[\"ab\", [1, 2, 3]]") = .error (.notPair 1 3) := by
  have hpath : isBroken "settings.json" = false := by decide
  have hkept : Json.read "[[\"xref_top_count\", 5]]" =
      .ok (.array [.array [.text "xref_top_count", .integer 5]]) := by cbv
  have hchanged : Json.read "[\"ab\", [1, 2, 3]]" =
      .ok (.array [.text "ab", .array [.integer 1, .integer 2, .integer 3]]) := by cbv
  have hpair : IsPair (.array [.text "xref_top_count", .integer 5])
    (.text "xref_top_count", .integer 5) := .items rfl
  have hgives := ofText_of_gives (.pairs hkept (.cons hpair .nil))
  have hsame : defaults.update [(.text "xref_top_count", .integer 5)] = defaults := by cbv
  have hrefused : IsRefused 0 [.text "ab", .array [.integer 1, .integer 2, .integer 3]]
      (.notPair 1 3) :=
    ⟨[.text "ab"], _, [], rfl, by simpa using ⟨_, _, .points (.char 'a') (.char 'b')⟩,
      .length [.integer 1, .integer 2, .integer 3] rfl (by decide)⟩
  obtain ⟨hharmless, -, -⟩ := isHarmless_iff hpath "[[\"xref_top_count\", 5]]"
  obtain ⟨-, herror, -⟩ := isHarmless_iff hpath "[\"ab\", [1, 2, 3]]"
  refine ⟨hpath, hharmless.mpr ⟨fun cause hbreaks => ?_, fun items fields hread hpairs => ?_⟩,
    (herror _).mpr (.item hchanged hrefused)⟩
  · cases hgives.symm.trans (ofText_of_breaks hbreaks)
  · have h := hgives.symm.trans (ofText_of_gives (.pairs hread hpairs))
    rw [← Except.ok.inj h, hsame]
    exact isUnchanged_defaults

/-- A number alone ends the reading of the settings. -/
theorem not_isHarmless_number :
    load "settings.json" (.ok "5") = .error .wrongType ∧
      ¬IsHarmless "5" (load "settings.json" (.ok "5")) := by
  have hread : Json.read "5" = .ok (.integer 5) := by cbv
  have hload : load "settings.json" (.ok "5") = .error .wrongType := by
    rw [load_text (by decide), ofText_of_breaks (.single hread rfl)]
  exact ⟨hload, fun ⟨s, h, _⟩ => by cases hload.symm.trans h⟩

end CodeSignature.Settings
