/-! # Double precision numbers

Numbers with 53 significant bits, in exact arithmetic. Rounding goes to the nearest such number, a
tie to the even one.
-/

namespace CodeSignature

/-- The integer nearest to a quotient; a tie goes to the even one. -/
def roundQuotient (num den : Nat) : Nat :=
  let q := num / den
  let r := num % den
  if 2 * r < den then q else if den < 2 * r then q + 1 else q + q % 2

/-- A double precision number. A finite one is `mantissa * 2 ^ exponent` with its sign. -/
inductive Binary64 where
  | nan
  | infinite (negative : Bool)
  | finite (negative : Bool) (mantissa : Nat) (exponent : Int)
deriving DecidableEq, Repr

namespace Binary64

def shifted (num den : Nat) (exponent : Int) : Nat × Nat :=
  if 0 ≤ exponent then (num <<< exponent.toNat, den) else (num, den <<< (-exponent).toNat)

def mantissaAt (num den : Nat) (exponent : Int) : Nat :=
  let (n, d) := shifted num den (-exponent)
  roundQuotient n d

/-- The exponent that leaves 53 bits to the mantissa of a quotient, or the least one there is. -/
def exponentFor (num den : Nat) : Int :=
  let e : Int := (Nat.log2 num : Int) - Nat.log2 den - 53
  let (n, d) := shifted num den (-e)
  max (if n < d <<< 53 then e else e + 1) (-1074)

def ofQuotient (negative : Bool) (num den : Nat) : Binary64 :=
  if num = 0 then .finite negative 0 0
  else
    let e := exponentFor num den
    let m := mantissaAt num den e
    if 971 < e ∨ (e = 971 ∧ 1 <<< 53 ≤ m) then .infinite negative else .finite negative m e

/-- The number nearest to `digits * 10 ^ exponent`. Exponents far out of range are decided by the
number of digits, without computing the power. -/
def ofDecimal (negative : Bool) (digits : Nat) (exponent : Int) : Binary64 :=
  let magnitude : Int := exponent + (Nat.toDigits 10 digits).length
  if digits = 0 ∨ magnitude < -400 then .finite negative 0 0
  else if 400 < magnitude then .infinite negative
  else if 0 ≤ exponent then ofQuotient negative (digits * Nat.pow 10 exponent.toNat) 1
  else ofQuotient negative digits (Nat.pow 10 (-exponent).toNat)

def scale (x : Binary64) (factor : Nat) : Binary64 :=
  match x with
  | .finite negative m e =>
    let (n, d) := shifted (m * factor) 1 e
    ofQuotient negative n d
  | x => x

def isZero : Binary64 → Bool
  | .finite _ m _ => m = 0
  | _ => false

def greaterThanInt (x : Binary64) (n : Int) : Bool :=
  match x with
  | .nan => false
  | .infinite negative => !negative
  | .finite negative m e =>
    let (num, den) := shifted m 1 e
    n * den < (if negative then -(num : Int) else num)

def truncate : Binary64 → Int
  | .finite negative m e =>
    let (num, den) := shifted m 1 e
    if negative then -(num / den : Nat) else (num / den : Nat)
  | _ => 0

def floor : Binary64 → Int
  | .finite negative m e =>
    let (num, den) := shifted m 1 e
    (if negative then -(num : Int) else num) / den
  | _ => 0

def lowestTerms : Binary64 → Int × Nat
  | .finite negative m e =>
    let (num, den) := shifted m 1 e
    let common := Nat.gcd num den
    ((if negative then -(num / common : Nat) else (num / common : Nat)), den / common)
  | _ => (0, 1)

/-- One decimal place, rounded on the exact value. The sign of zero is kept. -/
def oneDecimal : Binary64 → String
  | .nan => "nan"
  | .infinite negative => if negative then "-inf" else "inf"
  | .finite negative m e =>
    let (num, den) := shifted (10 * m) 1 e
    let tenths := roundQuotient num den
    (if negative then "-" else "") ++ toString (tenths / 10) ++ "." ++ toString (tenths % 10)

end Binary64

end CodeSignature
