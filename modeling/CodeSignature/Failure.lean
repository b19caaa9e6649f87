import CodeSignature.Signature.Basic

/-! # Failures

A failure is why no signature can be made or read; the user is told and work goes on. A fault is
anything else that stops an action.
-/

namespace CodeSignature

/-- What stops an action besides a failure to make or read a signature. -/
inductive Fault where
  | wrongType
  | noResult
  | noImage
  | noInstruction
  | outsideCode
  | noDecoder (processor : String)
  /-- A value that should name a dialect does not; the text shows it. -/
  | unknownDialect (shown : String)
  /-- A name was given in place of the dialect it names. -/
  | unsupportedDialect (name : String)
  /-- Pairs were expected, and the item at an index has another length. -/
  | notPair (index length : Nat)
  | longInteger (digits : Nat)
  | deepNesting
  /-- A result is too large for a double precision number. -/
  | outOfRange
  | noIntegerOfNaN
  | noIntegerOfInfinity
  | nulInPath
  | unreadable (reason : String)
  /-- The interrupt signal came when nothing was ready for it. -/
  | interrupted
deriving DecidableEq, Repr

inductive Failure where
  | invalidAddress
  | notCode
  | decodeFailed
  /-- Growth ended before the signature was unique; the signature so far is kept. -/
  | notUnique (grown : Signature)
  | lengthExceeded
  | leftFunction
  | aborted
  | unrecognizedText
  | emptyPattern
  | invalidToken (token : String)
  /-- A mask was found but the bytes do not line up with it. -/
  | maskMismatch (mask : String)
  | fault (cause : Fault)
deriving DecidableEq, Repr

def Fault.message : Fault → String
  | .wrongType => "Value of the wrong type"
  | .noResult => "No result"
  | .noImage => "No image"
  | .noInstruction => "No instruction"
  | .outsideCode => "Outside the code"
  | .noDecoder processor => "No instruction decoder for " ++ processor ++ " images"
  | .unknownDialect shown => shown ++ " is not a valid SignatureType"
  | .unsupportedDialect name => "Unsupported signature type: " ++ name
  | .notPair index length =>
    "dictionary update sequence element #" ++ toString index ++ " has length " ++
      toString length ++ "; 2 is required"
  | .longInteger digits =>
    "Exceeds the limit (4300 digits) for integer string conversion: value has " ++
      toString digits ++ " digits; use sys.set_int_max_str_digits() to increase the limit"
  | .deepNesting => "Nesting too deep"
  | .outOfRange => "Result too large"
  | .noIntegerOfNaN => "cannot convert float NaN to integer"
  | .noIntegerOfInfinity => "cannot convert float infinity to integer"
  | .nulInPath => "embedded null byte"
  | .unreadable reason => reason
  | .interrupted => "Interrupted"

def Failure.message : Failure → String
  | .invalidAddress => "Invalid address"
  | .notCode => "Can not create code signature for data"
  | .decodeFailed => "Failed to decode first instruction"
  | .notUnique _ => "Signature not unique"
  | .lengthExceeded => "Signature exceeded maximum length"
  | .leftFunction => "Signature left function scope"
  | .aborted => "Aborted"
  | .unrecognizedText => "Unrecognized signature type"
  | .emptyPattern => "Empty signature"
  | .invalidToken token => "Invalid signature token '" ++ token ++ "'"
  | .maskMismatch mask =>
    "Detected mask \"" ++ mask ++ "\" but failed to match corresponding bytes"
  | .fault cause => cause.message

end CodeSignature
