import CodeSignature.Proofs.Dialogue.Wording
import CodeSignature.Proofs.Search.Turn
import CodeSignature.Proofs.Translation.Analysis
import Mathlib

/-! # Growing a signature at another base

The turns of a search in a moved image are those of the search in the image itself, with the same
polls, questions and answers. The two logs name different addresses, but have the same lines. So the
outcome does not depend on the base that an image is loaded at.
-/

namespace CodeSignature

namespace Growth

open Dialogue

def moved (δ : Int) (g : Growth) : Growth := { g with address := g.address + δ }

def Turn.moved (δ : Int) : Turn → Turn
  | .finished result => .finished result
  | .grown g => .grown (g.moved δ)

variable {a a' : Analysis} {δ : Int} {g : Growth} {d d' : Dialogue}

@[simp] theorem address_moved (δ : Int) (g : Growth) : (g.moved δ).address = g.address + δ := rfl

@[simp] theorem cells_moved (δ : Int) (g : Growth) : (g.moved δ).cells = g.cells := rfl

theorem atEnd_moved (δ : Int) (hd : d'.unworded = d.unworded) (g : Growth) (x : Int) :
    Corresponds (fun f => f) (g.atEnd x d) ((g.moved δ).atEnd (x + δ) d') := by
  by_cases hg : g.cells = []
  · rw [atEnd, atEnd, cells_moved, if_pos hg, if_pos hg]
    exact ⟨rfl, hd⟩
  · rw [atEnd, atEnd, cells_moved, if_neg hg, if_neg hg]
    exact ⟨rfl, write_congr (write_congr hd)⟩

theorem allow_moved (δ : Int) (hd : d'.unworded = d.unworded) (o : GrowthOptions) (g : Growth)
    (x : Int) :
    Corresponds (Except.map (·.moved δ)) (g.allow o x d) ((g.moved δ).allow o (x + δ) d') := by
  have hpart : (g.moved δ).part = g.part := rfl
  simp only [allow, hpart, cells_moved]
  split
  · exact ⟨rfl, hd⟩
  · exact ⟨rfl, hd⟩
  · split
    · have hask := ask_corresponds hd (question g.cells.length)
      rcases ha : d.ask (question g.cells.length) with ⟨answer, d₁⟩
      rw [ha] at hask
      obtain ⟨d₁', ha', hd⟩ := hask.exists_eq
      rw [ha']
      cases answer with
      | yes => exact ⟨rfl, hd⟩
      | no => exact ⟨rfl, write_congr hd⟩
      | cancel => exact ⟨rfl, hd⟩
    · exact ⟨rfl, hd⟩

section Moved

variable (hm : a.Moved δ a')
include hm

theorem append_moved (wildcards : Bool) {i i' : Instruction} (hi : i.Moved δ i') (g : Growth) :
    (g.moved δ).append a' wildcards i' = (g.append a wildcards i).moved δ := by
  have hadd : g.address + δ + i.size = g.address + i.size + δ := by omega
  simp only [append, moved, hm.cells wildcards hi, hi.size, hadd]

theorem judge_moved (o : GrowthOptions) (g : Growth) (x : Int) :
    judge a' o (a'.routines.containing? (x + δ)) (g.moved δ) =
      (judge a o (a.routines.containing? x) g).moved δ := by
  have hstay : staysInside a' o (a'.routines.containing? (x + δ)) (g.address + δ) =
      staysInside a o (a.routines.containing? x) g.address := by
    have hnone : (a'.routines.containing? (x + δ)).isNone =
        (a.routines.containing? x).isNone := by
      rw [hm.routines, RoutineMap.containing?_moved, Option.isNone_map]
    rw [staysInside, hnone, hm.routines, hm.unlabelled.containing?_beq_moved, staysInside]
  simp only [judge, cells_moved, address_moved, hm.image, Image.occursOnce_moved, hstay]
  split
  · rfl
  · split
    · rfl
    · split <;> rfl

theorem turn_moved (hd : d'.unworded = d.unworded) (o : GrowthOptions) (g : Growth) (x : Int) :
    Corresponds (Turn.moved δ) (turn a o x (a.routines.containing? x) g d)
      (turn a' o (x + δ) (a'.routines.containing? (x + δ)) (g.moved δ) d') := by
  have hpoll := poll_corresponds hd
  unfold turn
  rcases hp : d.poll with ⟨stop, d₁⟩
  rw [hp] at hpoll
  obtain ⟨d₁', hp', hd⟩ := hpoll.exists_eq
  rw [hp']
  cases stop with
  | true => exact ⟨rfl, hd⟩
  | false =>
    have hdec := hm.decode? g.address
    dsimp only
    rw [address_moved]
    cases hi : a.decoder.decode? g.address with
    | none =>
      rw [hi] at hdec
      cases hi' : a'.decoder.decode? (g.address + δ) with
      | some i' => rw [hi'] at hdec; cases hdec
      | none =>
        obtain ⟨hf, hd⟩ := atEnd_moved δ hd g x
        exact ⟨congrArg (fun f => Turn.finished (.error f)) hf, hd⟩
    | some i =>
      rw [hi] at hdec
      cases hi' : a'.decoder.decode? (g.address + δ) with
      | none => rw [hi'] at hdec; cases hdec
      | some i' =>
        rw [hi'] at hdec
        obtain ⟨hmoved⟩ := hdec
        have hallow := allow_moved δ hd o g x
        dsimp only
        rcases ha : g.allow o x d₁ with ⟨result, d₂⟩
        rw [ha] at hallow
        obtain ⟨d₂', ha', hd⟩ := hallow.exists_eq
        rw [ha']
        cases result with
        | error f => exact ⟨rfl, hd⟩
        | ok g₁ =>
          simp only [Except.map, append_moved hm o.wildcards hmoved]
          exact ⟨judge_moved hm o _ x, write_congr hd⟩

theorem run_moved (hd : d'.unworded = d.unworded) (o : GrowthOptions) (n : Nat) (g : Growth)
    (x : Int) :
    Corresponds (fun result => result) (run a o x (a.routines.containing? x) n g d)
      (run a' o (x + δ) (a'.routines.containing? (x + δ)) n (g.moved δ) d') := by
  induction n generalizing g d d' with
  | zero =>
    have hpoll := poll_corresponds hd
    rw [run_zero, run_zero]
    rcases hp : d.poll with ⟨stop, d₁⟩
    rw [hp] at hpoll
    obtain ⟨d₁', hp', hd⟩ := hpoll.exists_eq
    rw [hp']
    cases stop with
    | true => exact ⟨rfl, hd⟩
    | false =>
      obtain ⟨hf, hd⟩ := atEnd_moved δ hd g x
      exact ⟨congrArg Except.error hf, hd⟩
  | succ n ih =>
    have hturn := turn_moved hm hd o g x
    rw [run_succ, run_succ]
    rcases ht : turn a o x (a.routines.containing? x) g d with ⟨t, d₁⟩
    rw [ht] at hturn
    obtain ⟨d₁', ht', hd⟩ := hturn.exists_eq
    rw [ht']
    cases t with
    | finished result => exact ⟨rfl, hd⟩
    | grown g₁ => exact ih hd g₁

end Moved

end Growth

namespace Analysis

variable {a a' : Analysis} {image : Image} {h : Heuristics} {x δ : Int}

theorem Moved.grow (hm : a.Moved δ a') (hx : x ≠ Image.badAddress)
    (hx' : x + δ ≠ Image.badAddress) (o : GrowthOptions) (d : Dialogue) :
    (a'.grow o (x + δ) d).1 = (a.grow o x d).1 ∧
      (a'.grow o (x + δ) d).2.unworded = (a.grow o x d).2.unworded := by
  have hpatience := hm.patience d
  simp only [Analysis.grow, hx, hx', hm.image, Image.contains_moved, Image.isCode_moved, hpatience,
    false_or]
  split
  · exact ⟨rfl, rfl⟩
  · split
    · exact ⟨rfl, rfl⟩
    · exact Growth.run_moved hm rfl o _ (.start x) x

/-- Signatures do not depend on the base that an image is loaded at: what a search comes to is the
same at the moved address, and its log differs in the wording alone. -/
theorem grow_moved (he : image.entryPoint ≠ some 0) (he' : (image.moved δ).entryPoint ≠ some 0)
    (ha : ofImage image h = .ok a) (hx : x ≠ Image.badAddress)
    (hx' : x + δ ≠ Image.badAddress) :
    ∃ a', ofImage (image.moved δ) h = .ok a' ∧ ∀ (o : GrowthOptions) (d : Dialogue),
      (a'.grow o (x + δ) d).1 = (a.grow o x d).1 ∧
        (a'.grow o (x + δ) d).2.unworded = (a.grow o x d).2.unworded := by
  obtain ⟨a', ha', hm⟩ := moved_ofImage he he' ha
  exact ⟨a', ha', hm.grow hx hx'⟩

/-- A function with a call in front of it and a load relative to its address, in an image that is
loaded high up. -/
theorem grow_moved_load :
    let code : List UInt8 :=
      [0xE8, 1, 0, 0, 0, 0xC3, 0x55, 0x48, 0x89, 0xE5, 0x8B, 5, 0, 0, 0, 0, 0xC3]
    let image := Image.ofSegments [⟨".text", 0x1000, code, true⟩,
      ⟨".data", 0x2000, [0x55, 0x48, 0x89, 0xE5], false⟩] "metapc" 64 (some 0x1000)
    let δ := 0x7FF600000000
    let s : Signature := [0x55, 0x48, 0x89, 0xE5, 0x8B, 5].map (⟨·, false⟩)
    image.entryPoint ≠ some 0 ∧ (image.moved δ).entryPoint ≠ some 0 ∧
      0x1006 ≠ Image.badAddress ∧ 0x1006 + δ ≠ Image.badAddress ∧
      ∃ a a', ofImage image ⟨true, true, true⟩ = .ok a ∧
        ofImage (image.moved δ) ⟨true, true, true⟩ = .ok a' ∧
        (a.grow ⟨true, false, .bytes 1000, true⟩ 0x1006 .quiet).1 = .ok s ∧
        (a'.grow ⟨true, false, .bytes 1000, true⟩ (0x1006 + δ) .quiet).1 = .ok s := by
  intro code image δ s
  have he : image.entryPoint ≠ some 0 := by decide
  have he' : (image.moved δ).entryPoint ≠ some 0 := by decide
  have hx : (0x1006 : Int) ≠ Image.badAddress := by decide
  have hx' : 0x1006 + δ ≠ Image.badAddress := by decide
  have hg : ((ofDecoder image (.ofImage image .bits64) ⟨true, true, true⟩).grow
      ⟨true, false, .bytes 1000, true⟩ 0x1006 .quiet).1 = .ok s := by cbv
  obtain ⟨a', ha', hsame⟩ := grow_moved (h := ⟨true, true, true⟩) he he' rfl hx hx'
  exact ⟨he, he', hx, hx', _, a', rfl, ha', hg, (hsame _ _).1.trans hg⟩

end Analysis

end CodeSignature
