import CodeSignature.Proofs.Encoding.Indexed
import Mathlib.Algebra.Ring.Int.Defs

/-! # The linear sweep

A sweep cuts the code into entries that lie one after another and leave nothing out. By position,
it gets to the end without a failure.
-/

namespace CodeSignature

/-- Entries that make up the given bytes, from an address on. -/
inductive Tiles : Int → List Instruction → List UInt8 → Prop
  | nil (x : Int) : Tiles x [] []
  | cons {x : Int} {i : Instruction} {is : List Instruction} {rest : List UInt8}
      (address : i.address = x) (size : 0 < i.size) (bytes : (i.bytes.length : Int) = i.size)
      (tail : Tiles (x + i.size) is rest) : Tiles x (i :: is) (i.bytes ++ rest)

namespace Tiles

variable {x : Int} {is : List Instruction} {code : List UInt8}

theorem size_pos (h : Tiles x is code) : ∀ i ∈ is, 1 ≤ i.size ∧ (i.bytes.length : Int) = i.size := by
  induction h with
  | nil => simp
  | cons address size bytes tail ih => exact List.forall_mem_cons.mpr ⟨⟨size, bytes⟩, ih⟩

theorem flatMap_bytes (h : Tiles x is code) : is.flatMap (·.bytes) = code := by
  induction h with
  | nil => rfl
  | cons address size bytes tail ih => rw [List.flatMap_cons, ih]

theorem address_eq (h : Tiles x is code) {k : Nat} {i : Instruction} (hi : is[k]? = some i) :
    i.address = x + ((is.take k).map (·.size)).sum := by
  induction h generalizing k with
  | nil => simp at hi
  | cons address size bytes tail ih =>
    cases k with
    | zero =>
      obtain rfl := Option.some.inj hi
      simpa using address
    | succ k =>
      rw [ih hi, List.take_succ_cons, List.map_cons, List.sum_cons, Int.add_assoc]

end Tiles

namespace Encoding

variable {mode : Mode} {x : Int} {bytes code : List UInt8} {offset : Nat}

theorem unknownSize_mem (mode : Mode) (hne : bytes ≠ []) :
    0 < unknownSize mode bytes ∧ unknownSize mode bytes ≤ bytes.length := by
  rcases hp : Prefixes.read mode bytes with ⟨p, rest⟩
  cases rest with
  | nil =>
    have hpos := List.length_pos_iff.mpr hne
    simpa [unknownSize, hp] using hpos
  | cons b rest =>
    obtain ⟨own, rfl, hown⟩ := Prefixes.exists_own_of_read hp
    rw [Indexed.unknownSize_eq hp, List.length_append, List.length_cons]
    split <;> omega

theorem bytes_of_decodeOne (mode : Mode) (x : Int) (hne : bytes ≠ []) :
    (decodeOne mode x bytes).address = x ∧ 0 < (decodeOne mode x bytes).size ∧
      (decodeOne mode x bytes).size ≤ bytes.length ∧
      (decodeOne mode x bytes).bytes = bytes.take (decodeOne mode x bytes).size.toNat := by
  rw [decodeOne, if_neg hne]
  cases hi : decode? mode x bytes with
  | some i => exact bytes_of_decode? hi
  | none =>
    obtain ⟨hpos, hle⟩ := unknownSize_mem mode hne
    have hlength : (bytes.take (unknownSize mode bytes)).length = unknownSize mode bytes := by
      rw [List.length_take, Nat.min_eq_left hle]
    simp only [Option.getD_none, unknown, hlength]
    exact ⟨trivial, by omega, by omega, by simp⟩

theorem sweep_of_ne_nil (mode : Mode) (x : Int) (hne : bytes ≠ []) :
    sweep mode x bytes = decodeOne mode x bytes ::
      sweep mode (x + (decodeOne mode x bytes).size)
        (bytes.drop (decodeOne mode x bytes).size.toNat) := by
  obtain ⟨haddress, hpos, hle, hbytes⟩ := bytes_of_decodeOne mode x hne
  have hlength : (decodeOne mode x bytes).bytes.length = (decodeOne mode x bytes).size.toNat := by
    rw [hbytes, List.length_take, Nat.min_eq_left (by omega)]
  cases bytes with
  | nil => exact absurd rfl hne
  | cons b rest =>
    rw [sweep]
    simp only [hlength, Instruction.next, haddress]
    congr 2
    obtain ⟨n, hn⟩ : ∃ n, (decodeOne mode x (b :: rest)).size.toNat = n + 1 :=
      ⟨_, (Nat.succ_pred_eq_of_pos (by omega)).symm⟩
    rw [hn, List.drop_succ_cons, Nat.add_sub_cancel]

theorem tiles_sweep (mode : Mode) (x : Int) (bytes : List UInt8) :
    Tiles x (sweep mode x bytes) bytes := by
  induction hn : bytes.length using Nat.strong_induction_on generalizing x bytes with
  | _ n ih =>
    by_cases hne : bytes = []
    · rw [hne, sweep]
      exact .nil x
    · obtain ⟨haddress, hpos, hle, hbytes⟩ := bytes_of_decodeOne mode x hne
      have hlength : ((decodeOne mode x bytes).bytes.length : Int) =
          (decodeOne mode x bytes).size := by
        rw [hbytes, List.length_take]
        omega
      have hshorter : (bytes.drop (decodeOne mode x bytes).size.toNat).length < n := by
        rw [List.length_drop]
        omega
      have htiles := Tiles.cons haddress hpos hlength (ih _ hshorter _ _ rfl)
      rwa [← sweep_of_ne_nil mode x hne, hbytes, List.take_append_drop] at htiles

end Encoding

namespace Indexed

theorem sweepFrom_eq (mode : Mode) (base : Int) (code : List UInt8) (offset : Nat) :
    sweepFrom mode base code offset =
      .ok (Encoding.sweep mode (base + offset) (code.drop offset)) := by
  induction offset using sweepFrom.induct code with
  | case1 offset hlt ih =>
    have hne : code.drop offset ≠ [] := by
      rw [ne_eq, List.drop_eq_nil_iff]
      omega
    obtain ⟨-, hpos, -, -⟩ := Encoding.bytes_of_decodeOne mode (base + offset) hne
    have hnext : base + offset + (Encoding.decodeOne mode (base + offset) (code.drop offset)).size =
        base + (offset + (Encoding.decodeOne mode (base + offset)
          (code.drop offset)).size.toNat : Nat) := by
      omega
    rw [sweepFrom, if_pos hlt, entry_eq hlt, ok_bind, if_pos hpos, ih _ hpos, ok_bind,
      Encoding.sweep_of_ne_nil mode _ hne, List.drop_drop, hnext]
    rfl
  | case2 offset hge =>
    rw [sweepFrom, if_neg hge, List.drop_eq_nil_of_le (by omega), Encoding.sweep]
    rfl

/-- The sweep of any code ends without a failure, with the entries of the decoder. They have a byte
at least, hold as many bytes as their size tells, make up the code, and lie one after another. -/
theorem sweep_partitions (mode : Mode) (base : Int) (code : List UInt8) :
    ∃ is, sweep mode base code = .ok is ∧ is = Encoding.sweep mode base code ∧
      (∀ i ∈ is, 1 ≤ i.size ∧ (i.bytes.length : Int) = i.size) ∧
      is.flatMap (·.bytes) = code ∧
      ∀ k i, is[k]? = some i → i.address = base + ((is.take k).map (·.size)).sum := by
  have hsweep : sweep mode base code = .ok (Encoding.sweep mode base code) := by
    simpa [sweep] using sweepFrom_eq mode base code 0
  have htiles := Encoding.tiles_sweep mode base code
  exact ⟨_, hsweep, rfl, htiles.size_pos, htiles.flatMap_bytes, fun k i hi => htiles.address_eq hi⟩

end Indexed

end CodeSignature
