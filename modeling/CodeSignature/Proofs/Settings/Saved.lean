import CodeSignature.Proofs.Json.RoundTrip
import CodeSignature.Settings.File
import Mathlib

/-! # Saved settings

What is written in a directory is read from it again, and settings whose keys are texts are loaded as they
were saved, with the defaults of known keys that they lack.
-/

namespace CodeSignature

namespace Text

theorem unifyBreaks_of_not_mem {cs : List Char} (h : '\r' ∉ cs) : unifyBreaks cs = cs := by
  induction cs with
  | nil => rfl
  | cons c rest ih =>
    rw [List.mem_cons, not_or] at h
    rw [unifyBreaks, if_neg (Ne.symm h.1), ih h.2]
    rintro more rfl
    exact absurd rfl h.1

end Text

namespace Directory

variable {d e : Directory} {path name content : String} {parts : List String}

@[simp] theorem get?_put (d : Directory) (name content : String) :
    (d.put name content).get? name = some content := by
  simp [get?, put]

theorem follow_eq_file (h : d.follow parts = .ok (.file name)) (e : Directory) :
    e.follow parts = .ok (.file name) := by
  induction parts with
  | nil => cases h
  | cons part rest ih =>
    rw [follow] at h ⊢
    split_ifs at h ⊢
    all_goals first | exact ih h | exact h | cases h

theorem resolve_eq_file (h : d.resolve path = .ok (.file name)) (e : Directory) :
    e.resolve path = .ok (.file name) := by
  dsimp only [resolve] at h ⊢
  split_ifs at h ⊢
  · cases h
  · exact follow_eq_file h e

theorem read_of_write (h : d.write path content = .ok e) (hlines : '\r' ∉ content.toList) :
    e.read path = .ok content := by
  unfold write at h
  split at h
  · cases h
  next name hresolve =>
    obtain rfl := Except.ok.inj h
    rw [read, resolve_eq_file hresolve]
    simp [Text.unifyBreaks_of_not_mem hlines]
  · cases h

end Directory

namespace Settings

open Json (Readable maxDepth)

variable {entries changes : Association String Json}

def keyNamed (name : String) : SettingKey := .text (.ofString name)

def ofEntries (entries : Association String Json) : Settings := ⟨entries.rename keyNamed⟩

def defaultEntries : Association String Json := Setting.all.map fun k => (k.name, k.default)

theorem ofEntries_defaultEntries : ofEntries defaultEntries = defaults := rfl

theorem ofString_injective : Function.Injective WideString.ofString := by
  intro a b h
  have := congrArg WideString.toString? h
  simpa using this

theorem keyNamed_beq (a b : String) : (keyNamed a == keyNamed b) = (a == b) := by
  rw [Bool.eq_iff_iff, SettingKey.beq_iff, beq_iff_eq]
  simp [keyNamed, SettingKey.identity, ofString_injective.eq_iff]

theorem ofEntries_update (entries changes : Association String Json) :
    ofEntries (entries.update changes) = (ofEntries entries).update (changes.rename keyNamed) := by
  rw [ofEntries, Association.rename_update keyNamed_beq]
  rfl

theorem readable_integer {n : Int} (depth : Nat) (h : n.natAbs < 10 ^ 21) :
    Readable depth (.integer n) :=
  .integer depth (h.trans_le (Nat.pow_le_pow_right (by decide) (by decide)))

theorem readable_default (depth : Nat) (k : Setting) : Readable depth k.default := by
  cases k with
  | outputFormat => exact .text depth _
  | signatureLimit | referenceLimit | referenceCount => exact readable_integer depth (by decide)
  | _ => exact .bool depth _

theorem readable_defaultEntries {depth : Nat} :
    ∀ entry ∈ defaultEntries, Readable depth entry.2 := by
  intro entry hentry
  obtain ⟨k, -, rfl⟩ := List.mem_map.mp hentry
  exact readable_default depth k

theorem toJson_ofEntries (entries : Association String Json) :
    (ofEntries entries).toJson = .object (entries.rename .ofString) := by
  simp [ofEntries, toJson, Association.rename, keyNamed, SettingKey.name]

theorem readable_toJson (hnames : entries.Distinct)
    (hvalues : ∀ entry ∈ entries, Readable (maxDepth - 1) entry.2) :
    Readable maxDepth (ofEntries entries).toJson := by
  rw [toJson_ofEntries]
  show Readable (maxDepth - 1 + 1) _
  refine .object ?_ ?_ ?_
  · have hkeys : (entries.rename WideString.ofString).map Prod.fst =
        (entries.map Prod.fst).map WideString.ofString := by
      simp [Association.rename]
    rw [hkeys]
    exact hnames.map ofString_injective
  · intro field hfield
    obtain ⟨entry, -, rfl⟩ := List.mem_map.mp hfield
    exact ⟨entry.1, rfl⟩
  · intro field hfield
    obtain ⟨entry, hentry, rfl⟩ := List.mem_map.mp hfield
    exact hvalues entry hentry

theorem ofText_toText (hnames : entries.Distinct)
    (hvalues : ∀ entry ∈ entries, Readable (maxDepth - 1) entry.2) :
    ofText (ofEntries entries).toText = .ok (ofEntries (defaultEntries.update entries)) := by
  have hread : Json.read (ofEntries entries).toText = .ok (ofEntries entries).toJson :=
    Json.read_toText (readable_toJson hnames hvalues)
  have hchanges : (entries.rename WideString.ofString).map
      (fun field => (SettingKey.text field.1, field.2)) = entries.rename keyNamed := by
    simp [Association.rename, keyNamed]
  rw [toJson_ofEntries] at hread
  simp only [ofText, hread, merge, change, hchanges, ofEntries_update, ofEntries_defaultEntries]

theorem update_perm (hnames : entries.Distinct)
    (hcomplete : ∀ k : Setting, k.name ∈ entries.map Prod.fst) :
    (defaultEntries.update entries).Perm entries := by
  have hdefaults : (defaultEntries.map Prod.fst).Nodup := by decide
  refine Association.perm_of_get?_eq (.update hdefaults entries) hnames fun name => ?_
  rw [Association.get?_update hnames]
  cases hget : entries.get? name with
  | some value => rfl
  | none =>
    refine Association.get?_eq_none_iff.mpr fun hmem => Association.get?_eq_none_iff.mp hget ?_
    obtain ⟨entry, hentry, rfl⟩ := List.mem_map.mp hmem
    obtain ⟨k, -, rfl⟩ := List.mem_map.mp hentry
    exact hcomplete k

/-- Settings are loaded as they were saved. -/
theorem load_of_save {d e : Directory} {path : String} (hnames : entries.Distinct)
    (hvalues : ∀ entry ∈ entries, Readable (maxDepth - 1) entry.2) (hpath : isBroken path = false)
    (hsave : (ofEntries entries).save d path = .ok e) :
    load path (e.read path) = .ok (ofEntries (defaultEntries.update entries)) := by
  have hlines : '\r' ∉ (ofEntries entries).toText.toList := by
    rw [toText, Json.toText, String.toList_ofList]
    exact Json.not_mem_write (readable_toJson hnames hvalues) 0 List.not_mem_nil
  rw [Directory.read_of_write hsave hlines, load, if_neg (by simp [hpath]),
    ofText_toText hnames hvalues]

end Settings

end CodeSignature
