import CodeSignature.Text.Numeral
import Mathlib

/-! # How large a numeral can be

A decimal numeral has a largest number of digits, and so its value has a bound.
-/

namespace CodeSignature.Numeral

variable {base n value : Nat} {c : Char} {cs : List Char} {separated : Bool}

/-- The digits of a numeral, without the underscores between them. -/
def significant (cs : List Char) : List Char := cs.filter (· ≠ '_')

theorem lt_of_digit? (h : digit? 10 c = some n) : n < 10 ∧ c ≠ '_' := by
  constructor
  · unfold digit? at h
    split at h
    · split at h
      · obtain rfl := Option.some.inj h
        assumption
      · cases h
    · cases h
  · rintro rfl
    revert h
    decide +revert

theorem lt_of_digits (h : digits 10 separated value cs = some n) :
    n < (value + 1) * 10 ^ (significant cs).length := by
  induction cs generalizing separated value with
  | nil =>
    cases separated
    · obtain rfl := Option.some.inj h
      simp [significant]
    · cases h
  | cons c rest ih =>
    rw [digits] at h
    split at h
    next hc =>
      subst hc
      cases separated
      · simpa [significant] using ih h
      · cases h
    next hc =>
      obtain ⟨d, hd, hrest⟩ := Option.bind_eq_some_iff.mp h
      have hlt := (lt_of_digit? hd).1
      have hlength : (significant (c :: rest)).length = (significant rest).length + 1 := by
        simp [significant, hc]
      calc n < (10 * value + d + 1) * 10 ^ (significant rest).length := ih hrest
        _ ≤ ((value + 1) * 10) * 10 ^ (significant rest).length := by gcongr; omega
        _ = (value + 1) * 10 ^ (significant (c :: rest)).length := by
          rw [hlength, pow_succ, mul_assoc, mul_comm 10]

theorem lt_of_magnitude (h : magnitude 10 cs = some n) : n < 10 ^ (significant cs).length := by
  cases cs with
  | nil => cases h
  | cons c rest =>
    obtain ⟨d, hd, hrest⟩ := Option.bind_eq_some_iff.mp h
    obtain ⟨hlt, hc⟩ := lt_of_digit? hd
    have hlength : (significant (c :: rest)).length = (significant rest).length + 1 := by
      simp [significant, hc]
    calc n < (d + 1) * 10 ^ (significant rest).length := lt_of_digits hrest
      _ ≤ 10 * 10 ^ (significant rest).length := by gcongr; omega
      _ = 10 ^ (significant (c :: rest)).length := by rw [hlength, pow_succ, mul_comm]

theorem dropMark_ten (cs : List Char) : dropMark 10 cs = cs := by
  unfold dropMark
  split
  · exact if_neg fun h => absurd h.1 (by decide)
  · rfl

theorem natAbs_lt_of_read? {text : String} {value : Int} (h : read? 10 text = some value) :
    value.natAbs < 10 ^ maxDecimalDigits := by
  unfold read? at h
  generalize splitSign _ = signed at h
  obtain ⟨negative, cs⟩ := signed
  simp only [dropMark_ten] at h
  obtain ⟨n, hn, hvalue⟩ := Option.bind_eq_some_iff.mp h
  split at hvalue
  next => cases hvalue
  next hbound =>
    have hlength : (significant cs).length ≤ maxDecimalDigits :=
      Nat.le_of_not_lt fun hlt => hbound ⟨trivial, hlt⟩
    have habs : value.natAbs = n := by
      obtain rfl := Option.some.inj hvalue
      cases negative <;> simp
    rw [habs]
    exact (lt_of_magnitude hn).trans_le (Nat.pow_le_pow_right (by decide) hlength)

end CodeSignature.Numeral
