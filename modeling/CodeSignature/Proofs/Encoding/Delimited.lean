import CodeSignature.Proofs.Encoding.Partition
import Mathlib

/-! # Instructions delimit themselves

The bytes of an instruction determine it together with its address and the mode. What surrounds
them has no influence, neither on whether they are decoded nor on the result, so no instruction is a
proper front part of another one.
-/

namespace CodeSignature

def Opcode.Named : Opcode → Prop
  | .plain t => t.mnemonic ≠ "db"
  | .modRM group => ∀ reg : Fin 8, ∀ t ∈ group reg, t.mnemonic ≠ "db"

instance : DecidablePred Opcode.Named
  | .plain t => inferInstanceAs (Decidable (t.mnemonic ≠ "db"))
  | .modRM group =>
    inferInstanceAs (Decidable (∀ reg : Fin 8, ∀ t ∈ group reg, t.mnemonic ≠ "db"))

variable {mode : Mode} {p : Prefixes} {bytes bytes' rest : List UInt8} {meaning : Opcode}
  {x y : Int} {i j : Instruction}

namespace Opcode

theorem named_oneByte? {opcode : UInt8} (h : oneByte? mode opcode = some meaning) :
    meaning.Named := by
  have hall : ∀ n : Fin 256, ∀ found ∈ oneByte? mode (UInt8.ofFin n), found.Named := by
    cases mode <;> decide +kernel
  exact hall opcode.toFin meaning h

theorem named_twoByte? {opcode : UInt8} (h : twoByte? opcode = some meaning) :
    meaning.Named := by
  have hall : ∀ n : Fin 256, ∀ found ∈ twoByte? (UInt8.ofFin n), found.Named := by
    decide +kernel
  exact hall opcode.toFin meaning h

theorem named_of_read {last : UInt8} (h : read mode bytes = some (meaning, last, rest)) :
    meaning.Named := by
  rcases eq_of_read h with ⟨-, -, hm⟩ | ⟨-, hm⟩
  · exact named_oneByte? hm
  · exact named_twoByte? hm

end Opcode

theorem Head.mnemonic_ne_db {head : Head} (h : read mode bytes = some head) :
    head.mnemonic ≠ "db" := by
  obtain ⟨p, r, meaning, last, r', m, rest, t, -, hopcode, hoperands, ht, rfl⟩ :=
    exists_template h
  have hnamed := Opcode.named_of_read hopcode
  cases meaning with
  | plain u =>
    obtain rfl : u = t := by simpa [Opcode.template?] using ht
    exact hnamed
  | modRM group =>
    obtain ⟨hm, -⟩ := ModRM.sound_of_read hoperands
    exact hnamed ⟨m.reg, hm.reg⟩ t ht

namespace Encoding

/-- An instruction is decoded from its own bytes, whatever follows them. -/
theorem decode?_bytes_append (h : decode? mode x bytes = some i) (more : List UInt8) :
    decode? mode x (i.bytes ++ more) = some i := by
  obtain ⟨head, hread, htotal, rfl⟩ := decode?_eq_some_iff.mp h
  have hlength : (bytes.take head.total).length = head.total := by
    rw [List.length_take, Nat.min_eq_left htotal]
  have hfront : head.size ≤ head.total := by
    simp only [Head.total]
    omega
  refine decode?_eq_some_iff.mpr ⟨head, Head.read_of_take_eq hread ?_, ?_, ?_⟩
  · simp only [Head.instruction]
    rw [List.take_append_of_le_length (by omega), List.take_take, Nat.min_eq_left hfront]
  · simp only [Head.instruction, List.length_append]
    omega
  · simp only [Head.instruction]
    rw [List.take_append_of_le_length (by omega), List.take_take, Nat.min_self]

theorem decode?_bytes (h : decode? mode x bytes = some i) : decode? mode x i.bytes = some i := by
  simpa using decode?_bytes_append h []

theorem bytes_eq_of_decode? (h : decode? mode x bytes = some i)
    (h' : decode? mode y bytes = some j) : i.bytes = j.bytes := by
  obtain ⟨head, hread, -, rfl⟩ := decode?_eq_some_iff.mp h
  obtain ⟨head', hread', -, rfl⟩ := decode?_eq_some_iff.mp h'
  obtain rfl : head = head' := Option.some.inj (hread.symm.trans hread')
  rfl

/-- No instruction is a proper front part of another one. -/
theorem bytes_eq_of_prefix (h : decode? mode x bytes = some i) (h' : decode? mode y bytes' = some j)
    (hp : i.bytes <+: j.bytes) : i.bytes = j.bytes := by
  obtain ⟨more, hmore⟩ := hp
  have hj := decode?_bytes_append h' []
  rw [List.append_nil, ← hmore] at hj
  exact bytes_eq_of_decode? (decode?_bytes_append h more) hj

theorem decodeOne_eq (mode : Mode) (x : Int) (hne : bytes ≠ []) :
    (if (decodeOne mode x bytes).mnemonic = "db" ∨ (decodeOne mode x bytes).size = 0 then none
      else some (decodeOne mode x bytes)) = decode? mode x bytes := by
  obtain ⟨-, hpos, -, -⟩ := bytes_of_decodeOne mode x hne
  rw [decodeOne, if_neg hne] at hpos ⊢
  cases hi : decode? mode x bytes with
  | none => exact if_pos (Or.inl rfl)
  | some i =>
    rw [hi, Option.getD_some] at hpos
    obtain ⟨head, hread, -, rfl⟩ := decode?_eq_some_iff.mp hi
    refine if_neg ?_
    rintro (hdb | hzero)
    · exact Head.mnemonic_ne_db hread hdb
    · exact absurd hzero (Int.ne_of_gt hpos)

theorem decodeAt?_eq_some_iff {base : Int} {code : List UInt8} :
    decodeAt? mode base code x = some i ↔
      (base ≤ x ∧ x < base + code.length) ∧
        decode? mode x (code.drop (x - base).toNat) = some i :=
  Option.ite_none_right_eq_some

end Encoding

theorem Indexed.decodeAt?_eq (mode : Mode) (base : Int) (code : List UInt8) (x : Int) :
    decodeAt? mode base code x = .ok (Encoding.decodeAt? mode base code x) := by
  unfold decodeAt? Encoding.decodeAt?
  by_cases hx : base ≤ x ∧ x < base + code.length
  · have hoffset : (x - base).toNat < code.length := by omega
    have haddress : base + ((x - base).toNat : Int) = x := by omega
    have hne : code.drop (x - base).toNat ≠ [] := by
      rw [ne_eq, List.drop_eq_nil_iff]
      omega
    simp only
    rw [if_neg (by omega), if_pos hx, entry_eq hoffset, ok_bind, haddress,
      Encoding.decodeOne_eq mode x hne]
    rfl
  · simp only
    rw [if_neg hx, if_pos (by omega)]
    rfl

namespace Encoding

/-- An instruction is decoded from its own bytes wherever they stand, in front of anything or
nothing, by the decoder and by position. No other instruction has them as a proper front part. -/
theorem decodeAt?_delimited (h : decodeAt? mode x bytes x = some i) :
    i.bytes = bytes.take i.size.toNat ∧
      (∀ front back : List UInt8,
        decodeAt? mode (x - front.length) (front ++ bytes.take i.size.toNat ++ back) x = some i ∧
        Indexed.decodeAt? mode (x - front.length) (front ++ bytes.take i.size.toNat ++ back) x =
          .ok (some i)) ∧
      ∀ base code y j, decodeAt? mode base code y = some j → i.bytes <+: j.bytes →
        i.bytes = j.bytes := by
  obtain ⟨-, hdecode⟩ := decodeAt?_eq_some_iff.mp h
  rw [Int.sub_self, Int.toNat_zero, List.drop_zero] at hdecode
  obtain ⟨-, hpos, hle, hbytes⟩ := bytes_of_decode? hdecode
  have hlength : (i.bytes.length : Int) = i.size := by
    rw [hbytes, List.length_take]
    omega
  have hat : ∀ front back : List UInt8,
      decodeAt? mode (x - front.length) (front ++ bytes.take i.size.toNat ++ back) x = some i := by
    intro front back
    have hoffset : (x - (x - front.length)).toNat = front.length := by omega
    rw [← hbytes, List.append_assoc]
    refine decodeAt?_eq_some_iff.mpr ⟨?_, ?_⟩
    · simp only [List.length_append]
      omega
    · rw [hoffset, List.drop_left]
      exact decode?_bytes_append hdecode back
  refine ⟨hbytes, ?_, ?_⟩
  · intro front back
    exact ⟨hat front back, by rw [Indexed.decodeAt?_eq, hat]⟩
  · intro base code y j hj hp
    exact bytes_eq_of_prefix hdecode (decodeAt?_eq_some_iff.mp hj).2 hp

/-- A comparison with two prefixes, a SIB byte, a displacement and an immediate. -/
theorem decodeAt?_delimited_compare :
    let own : List UInt8 := [0x66, 0x41, 0x81, 0x7C, 0x24, 0x08, 0x34, 0x12]
    let i : Instruction := ⟨0x1000, 8, "cmp", "word ptr [r12 + 0x8], 0x1234", own, false,
      [⟨.displaced, 5, none⟩, ⟨.immediate, 6, some 0x1234⟩]⟩
    decodeAt? .bits64 0x1000 (own ++ [0x90, 0xC3]) 0x1000 = some i ∧
      i.bytes = (own ++ [0x90, 0xC3]).take i.size.toNat ∧
      (∀ front back : List UInt8,
        decodeAt? .bits64 (0x1000 - front.length)
          (front ++ (own ++ [0x90, 0xC3]).take i.size.toNat ++ back) 0x1000 = some i ∧
        Indexed.decodeAt? .bits64 (0x1000 - front.length)
          (front ++ (own ++ [0x90, 0xC3]).take i.size.toNat ++ back) 0x1000 = .ok (some i)) ∧
      ∀ base code y j, decodeAt? .bits64 base code y = some j → i.bytes <+: j.bytes →
        i.bytes = j.bytes := by
  intro own i
  have h : decodeAt? .bits64 0x1000 (own ++ [0x90, 0xC3]) 0x1000 = some i := by cbv
  exact ⟨h, decodeAt?_delimited h⟩

end Encoding

end CodeSignature
