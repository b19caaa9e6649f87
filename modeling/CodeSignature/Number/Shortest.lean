import CodeSignature.Number.Binary64

/-! # Shortest decimal text

The text of a double precision number: the fewest digits that read back as it and, among those, the
nearest.
-/

namespace CodeSignature.Binary64

def readsBackAs (m : Nat) (e : Int) (digits : Nat) (exponent : Int) : Bool :=
  match ofDecimal false digits exponent with
  | .finite _ m' e' =>
    let (a, b) := shifted m 1 e
    let (c, d) := shifted m' 1 e'
    a * d = c * b
  | _ => false

/-- The multiples of `10 ^ exponent` next to a positive number, the nearer one first. -/
def neighbours (m : Nat) (e exponent : Int) : List Nat :=
  let (num, den) := shifted m 1 e
  let (num, den) :=
    if 0 ≤ exponent then (num, den * Nat.pow 10 exponent.toNat)
    else (num * Nat.pow 10 (-exponent).toNat, den)
  let low := num / den
  if roundQuotient num den = low then [low, low + 1] else [low + 1, low]

/-- The decimal exponent of the leading digit of a positive quotient, at least `guess`. -/
def leadingExponent (num den : Nat) : Nat → Int → Int
  | 0, guess => guess
  | fuel + 1, guess =>
    let next := guess + 1
    let reached :=
      if 0 ≤ next then den * Nat.pow 10 next.toNat ≤ num
      else den ≤ num * Nat.pow 10 (-next).toNat
    if reached then leadingExponent num den fuel next else guess

/-- The shortest digits of a positive number, tried from one digit to seventeen, and the exponent of
the last digit. -/
def shortest (m : Nat) (e : Int) : Nat × Int :=
  let (num, den) := shifted m 1 e
  let lead := leadingExponent num den 700 (-330)
  let attempts := (List.range 17).flatMap fun (k : Nat) =>
    let exponent := lead - (k : Nat)
    (neighbours m e exponent).map (·, exponent)
  (attempts.find? fun (digits, exponent) => readsBackAs m e digits exponent).getD (0, 0)

def normalized : Nat → Nat → Int → Nat × Int
  | 0, digits, exponent => (digits, exponent)
  | fuel + 1, digits, exponent =>
    if digits ≠ 0 ∧ digits % 10 = 0 then normalized fuel (digits / 10) (exponent + 1)
    else (digits, exponent)

/-- Exponents from -4 to 15 of the leading digit are written positionally. -/
def decimalText (digits : Nat) (exponent : Int) : String :=
  let ds := Nat.toDigits 10 digits
  let point : Int := ds.length + exponent
  if -4 < point ∧ point ≤ 16 then
    if 0 ≤ exponent then String.ofList (ds ++ List.replicate exponent.toNat '0') ++ ".0"
    else if 0 < point then
      String.ofList (ds.take point.toNat) ++ "." ++ String.ofList (ds.drop point.toNat)
    else "0." ++ String.ofList (List.replicate (-point).toNat '0' ++ ds)
  else
    let power := point - 1
    let written := toString power.natAbs
    let written := if written.length < 2 then "0" ++ written else written
    String.ofList (ds.take 1) ++
      (if ds.length = 1 then "" else "." ++ String.ofList (ds.drop 1)) ++
      (if power < 0 then "e-" else "e+") ++ written

def text (nan infinity : String) : Binary64 → String
  | .nan => nan
  | .infinite negative => (if negative then "-" else "") ++ infinity
  | .finite negative m e =>
    let (digits, exponent) :=
      if m = 0 then (0, 0)
      else
        let (digits, exponent) := shortest m e
        normalized 17 digits exponent
    (if negative then "-" else "") ++ decimalText digits exponent

end CodeSignature.Binary64
