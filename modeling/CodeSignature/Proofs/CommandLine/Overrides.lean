import CodeSignature.CommandLine.Arguments
import CodeSignature.Proofs.CommandLine.Grammar
import CodeSignature.Proofs.Settings.Saved
import CodeSignature.Proofs.Text.Numeral
import Mathlib

/-! # What the command line changes

The arguments change the settings under a few names, each at most once, by values that can be saved. So
saved settings are those of the next run, and the same arguments change nothing in them.
-/

namespace CodeSignature.CommandLine

open Json (Readable maxDepth maxDigits)

theorem Given.read_eq_value {α : Type} {readText : String → Except String α} {words : List String}
    {a : α} (h : Given.read readText words = .ok (.value a)) : ∃ text, readText text = .ok a := by
  unfold Given.read at h
  split at h
  · cases h
  next text _ =>
    split at h
    next b hb =>
      obtain rfl := Given.value.inj (Except.ok.inj h)
      exact ⟨text, hb⟩
    · cases h

namespace Arguments

variable {a : Arguments} {d e : Draft} {words : List String} {entries : Association String Json}

/-- The whole numbers have no more digits than are converted. -/
structure WithinDigits (a : Arguments) : Prop where
  maxLength : ∀ n, a.maxLength = some (.value n) → n.natAbs < 10 ^ maxDigits
  top : ∀ n, a.top = some (.value n) → n.natAbs < 10 ^ maxDigits

theorem WithinDigits.of_eq {b : Arguments} (h : a.WithinDigits)
    (hlength : b.maxLength = a.maxLength) (htop : b.top = a.top) : b.WithinDigits :=
  ⟨fun n hn => h.maxLength n (hlength ▸ hn), fun n hn => h.top n (htop ▸ hn)⟩

theorem withinDigits_start : WithinDigits start := ⟨nofun, nofun⟩

theorem natAbs_lt_of_readInteger {text : String} {n : Int} (h : readInteger text = .ok n) :
    n.natAbs < 10 ^ maxDigits := by
  unfold readInteger at h
  split at h
  next hread =>
    obtain rfl := Except.ok.inj h
    have hbound : Numeral.maxDecimalDigits = maxDigits := rfl
    rw [← hbound]
    exact Numeral.natAbs_lt_of_read? hread
  · cases h

def Bounds (c : Choice Draft) : Prop :=
  ∀ words d e, d.arguments.WithinDigits → c.take words d = .ok e → e.arguments.WithinDigits

theorem bounds_help : Bounds help := fun _ _ _ _ h => by cases h

theorem bounds_switch {names : List String} {turnOn : Arguments → Arguments}
    (h : ∀ a, (turnOn a).maxLength = a.maxLength ∧ (turnOn a).top = a.top) :
    Bounds (switch names (Draft.change turnOn)) := by
  intro words d e hd htake
  obtain rfl := Except.ok.inj htake
  exact hd.of_eq (h d.arguments).1 (h d.arguments).2

theorem bounds_setting {α : Type} {name : String} {readText : String → Except String α}
    {put : Given α → Arguments → Arguments}
    (h : ∀ given, (∀ x, given = .value x → ∃ text, readText text = .ok x) →
      ∀ a, a.WithinDigits → (put given a).WithinDigits) :
    Bounds (setting name readText fun given => Draft.change (put given)) := by
  intro words d e hd htake
  obtain ⟨given, hgiven, htake⟩ := Grammar.bind_eq_ok.mp htake
  obtain rfl := Except.ok.inj htake
  exact h given (fun x hx => Given.read_eq_value (hx ▸ hgiven)) d.arguments hd

theorem bounds_of_mem_choices : ∀ c ∈ choices, Bounds c := by
  simp only [choices, List.forall_mem_cons]
  refine ⟨bounds_help, bounds_setting fun _ _ a ha => ha.of_eq rfl rfl,
    bounds_setting fun _ _ a ha => ha.of_eq rfl rfl, bounds_switch fun _ => ⟨rfl, rfl⟩,
    bounds_switch fun _ => ⟨rfl, rfl⟩, ?maxLength, ?top, bounds_switch fun _ => ⟨rfl, rfl⟩,
    bounds_switch fun _ => ⟨rfl, rfl⟩, bounds_switch fun _ => ⟨rfl, rfl⟩,
    bounds_switch fun _ => ⟨rfl, rfl⟩, nofun⟩
  case maxLength =>
    refine bounds_setting fun given hgiven a ha => ⟨fun n hn => ?_, ha.top⟩
    obtain ⟨text, htext⟩ := hgiven n (Option.some.inj hn)
    exact natAbs_lt_of_readInteger htext
  case top =>
    refine bounds_setting fun given hgiven a ha => ⟨ha.maxLength, fun n hn => ?_⟩
    obtain ⟨text, htext⟩ := hgiven n (Option.some.inj hn)
    exact natAbs_lt_of_readInteger htext

theorem takeAction_withinDigits (hd : d.arguments.WithinDigits) (h : takeAction words d = .ok e) :
    e.arguments.WithinDigits := by
  unfold takeAction at h
  split at h
  · obtain rfl := Except.ok.inj h
    exact hd
  · split at h
    · cases h
    · split at h
      · cases h
      · obtain rfl := Except.ok.inj h
        exact ⟨hd.maxLength, hd.top⟩

theorem keeps_withinDigits : grammar.Keeps fun d => d.arguments.WithinDigits where
  choice c hc words d e := bounds_of_mem_choices c hc words d e
  positional := by
    simp only [grammar, List.forall_mem_cons]
    refine ⟨fun {words d e} hd h => ?_, fun hd h => takeAction_withinDigits hd h, nofun⟩
    obtain ⟨given, -, h⟩ := Grammar.bind_eq_ok.mp h
    cases given with
    | nothing =>
      obtain rfl := Except.ok.inj h
      exact hd
    | value file =>
      obtain rfl := Except.ok.inj h
      exact ⟨hd.maxLength, hd.top⟩

theorem withinDigits_of_read (h : read words = .ok a) : a.WithinDigits := by
  obtain ⟨⟨d, extras⟩, hread, h⟩ := Grammar.bind_eq_ok.mp h
  have hd := keeps_withinDigits.read withinDigits_start hread
  dsimp only at h
  split at h
  · obtain rfl := Except.ok.inj h
    exact hd
  · cases h

/-- The settings that the arguments may change, with the values that they get. -/
def overrides (a : Arguments) : List (Setting × Option Json) :=
  [(.outputFormat, a.format.bind formatToSet),
    (.wildcardOperands, whenSaid a.noWildcards false),
    (.continueOutside, whenSaid a.continueOutside true),
    (.signatureLimit, a.maxLength.map (Given.toJson .integer)),
    (.referenceCount, a.top.map (Given.toJson .integer)),
    (.copyToClipboard, whenSaid a.noClipboard false),
    (.askLonger, whenSaid a.noPrompt false)]

def changes (a : Arguments) : Association String Json :=
  a.overrides.filterMap fun (k, value) => value.map (k.name, ·)

theorem foldl_override (s : Settings) (l : List (Setting × Option Json)) :
    l.foldl (fun s (k, value) => override k value s) s =
      s.update (Association.rename Settings.keyNamed
        (l.filterMap fun (k, value) => value.map (k.name, ·))) := by
  induction l generalizing s with
  | nil => rfl
  | cons entry rest ih =>
    obtain ⟨k, _ | value⟩ := entry
    · exact ih s
    · exact ih (s.set k value)

/-- The arguments change entries. -/
theorem apply_ofEntries (a : Arguments) (entries : Association String Json) :
    a.apply (.ofEntries entries) = .ofEntries (entries.update a.changes) := by
  rw [Settings.ofEntries_update]
  exact foldl_override _ a.overrides

theorem distinct_changes (a : Arguments) : a.changes.Distinct := by
  have hsub : ∀ l : List (Setting × Option Json),
      List.Sublist ((l.filterMap fun (k, value) => value.map (k.name, ·)).map Prod.fst)
        (l.map (·.1.name)) := by
    intro l
    induction l with
    | nil => exact .slnil
    | cons entry rest ih =>
      obtain ⟨k, _ | value⟩ := entry
      · exact ih.cons _
      · exact ih.cons_cons _
  refine (hsub a.overrides).nodup ?_
  show (["output_format", "wildcard_operands", "continue_outside_function", "max_signature_length",
    "xref_top_count", "copy_to_clipboard", "ask_longer_signature"] : List String).Nodup
  decide

variable {depth : Nat}

theorem readable_format {format : Option (Given String)} :
    ∀ v ∈ format.bind formatToSet, Readable depth v := by
  intro v hv
  obtain ⟨given, -, hv⟩ := Option.bind_eq_some_iff.mp hv
  cases given with
  | nothing => cases hv
  | value name =>
    obtain rfl := Option.some.inj hv
    exact .text depth name

theorem readable_whenSaid {said b : Bool} : ∀ v ∈ whenSaid said b, Readable depth v := by
  intro v hv
  obtain ⟨-, hv⟩ := Option.ite_none_right_eq_some.mp hv
  obtain rfl := Option.some.inj hv
  exact .bool depth b

theorem readable_integer {given : Option (Given Int)}
    (h : ∀ n, given = some (.value n) → n.natAbs < 10 ^ maxDigits) :
    ∀ v ∈ given.map (Given.toJson .integer), Readable (depth + 1) v := by
  intro v hv
  obtain ⟨x, rfl, rfl⟩ := Option.map_eq_some_iff.mp hv
  cases x with
  | nothing => exact .array nofun
  | value n => exact .integer _ (h n rfl)

theorem readable_changes (ha : a.WithinDigits) :
    ∀ entry ∈ a.changes, Readable (maxDepth - 1) entry.2 := by
  have hoverrides : ∀ o ∈ a.overrides, ∀ v ∈ o.2, Readable (maxDepth - 1) v := by
    simp only [overrides, List.forall_mem_cons]
    exact ⟨readable_format, readable_whenSaid, readable_whenSaid, readable_integer ha.maxLength,
      readable_integer ha.top, readable_whenSaid, readable_whenSaid, nofun⟩
  intro entry hentry
  obtain ⟨o, ho, hvalue⟩ := List.mem_filterMap.mp hentry
  obtain ⟨v, hv, rfl⟩ := Option.map_eq_some_iff.mp hvalue
  exact hoverrides o ho v hv

/-- Saved settings are the settings of the next run. The keys are texts, each there once and the known
ones among them; the values are null, truth values, whole numbers that are not too long and texts, or
arrays and objects of these. What a command line makes of them is saved and loaded with the same
entries, and the same command line changes nothing in it. -/
theorem load_saved {d d' : Directory} {path : String} (hnames : entries.Distinct)
    (hcomplete : ∀ k : Setting, k.name ∈ entries.map Prod.fst)
    (hvalues : ∀ entry ∈ entries, Readable (maxDepth - 1) entry.2)
    (hread : read words = .ok a) (hpath : Settings.isBroken path = false)
    (hsave : (a.apply (.ofEntries entries)).save d path = .ok d') :
    ∃ loaded, Settings.load path (d'.read path) = .ok loaded ∧
      loaded.fields.Perm (a.apply (.ofEntries entries)).fields ∧ a.apply loaded = loaded := by
  let changed := entries.update a.changes
  have hchanged : changed.Distinct := hnames.update a.changes
  have hreadable : ∀ entry ∈ changed, Readable (maxDepth - 1) entry.2 := by
    intro entry hentry
    rcases Association.mem_or_mem_of_mem_update hnames a.distinct_changes hentry with h | h
    · exact readable_changes (withinDigits_of_read hread) entry h
    · exact hvalues entry h
  have hkeys : ∀ k : Setting, k.name ∈ changed.map Prod.fst := fun k =>
    Association.mem_keys_update (hcomplete k) a.changes
  have hget : ∀ change ∈ a.changes,
      (Settings.defaultEntries.update changed).get? change.1 = some change.2 := by
    intro change hchange
    have hlast : changed.get? change.1 = some change.2 :=
      Association.get?_update_of_mem a.distinct_changes hchange entries
    rw [Association.get?_update hchanged, hlast, Option.some_or]
  rw [apply_ofEntries] at hsave ⊢
  refine ⟨_, Settings.load_of_save hchanged hreadable hpath hsave, ?_, ?_⟩
  · exact (Settings.update_perm hchanged hkeys).map _
  · rw [apply_ofEntries, Association.update_eq_self hget]

/-- A name and a text with marks, a control character and a character beyond the basic plane, and a
number that the command line changes. -/
theorem load_saved_notes :
    let entries := Settings.defaultEntries ++
      [("a \"note\"", .text "\\ \x01 \t 😀 é"), ("largest", .integer (-123456789012345678901)),
        ("nothing", .null)]
    let words := ["--top", "3", "--save-settings", "sample.exe", "unique", "401000"]
    entries.Distinct ∧ (∀ k : Setting, k.name ∈ entries.map Prod.fst) ∧
      (∀ entry ∈ entries, Readable (maxDepth - 1) entry.2) ∧
      Settings.isBroken "settings.json" = false ∧
      ∃ a d' loaded, read words = .ok a ∧ a.top = some (.value 3) ∧
        (a.apply (.ofEntries entries)).save ⟨[]⟩ "settings.json" = .ok d' ∧
        Settings.load "settings.json" (d'.read "settings.json") = .ok loaded ∧
        loaded.fields.Perm (a.apply (.ofEntries entries)).fields ∧ a.apply loaded = loaded ∧
        (Settings.ofEntries entries).get .referenceCount = .integer 5 ∧
        loaded.get .referenceCount = .integer 3 := by
  intro entries words
  let a : Arguments :=
    { start with
      file := "sample.exe", top := some (.value 3), saveSettings := true
      action := .unique 0x401000 }
  have hnames : entries.Distinct := by
    show (entries.map Prod.fst).Nodup
    decide
  have hcomplete : ∀ k : Setting, k.name ∈ entries.map Prod.fst := by
    intro k
    cases k <;> decide
  have hvalues : ∀ entry ∈ entries, Readable (maxDepth - 1) entry.2 := by
    refine List.forall_mem_append.mpr ⟨Settings.readable_defaultEntries, ?_⟩
    simp only [List.forall_mem_cons]
    exact ⟨.text _ _, Settings.readable_integer _ (by decide), .null _, nofun⟩
  have hread : read words = .ok a := by decide +kernel
  have hpath : Settings.isBroken "settings.json" = false := by decide
  have hresolve : (⟨[]⟩ : Directory).resolve "settings.json" = .ok (.file "settings.json") := by
    decide +kernel
  have hsave : (a.apply (.ofEntries entries)).save ⟨[]⟩ "settings.json" =
      .ok ((⟨[]⟩ : Directory).put "settings.json" (a.apply (.ofEntries entries)).toText) := by
    rw [Settings.save, Directory.write, hresolve]
  obtain ⟨loaded, hload, hsame, hagain⟩ :=
    load_saved hnames hcomplete hvalues hread hpath hsave
  have hgiven : (Settings.ofEntries entries).get .referenceCount = .integer 5 := rfl
  have happly : ∀ s, a.apply s = s.set .referenceCount (.integer 3) := fun _ => rfl
  have hchanged : loaded.get .referenceCount = .integer 3 := by
    rw [← hagain, happly, Settings.get_set, if_pos (by decide)]
  exact ⟨hnames, hcomplete, hvalues, hpath, a, _, loaded, hread, rfl, hsave, hload, hsame, hagain,
    hgiven, hchanged⟩

end Arguments

end CodeSignature.CommandLine
