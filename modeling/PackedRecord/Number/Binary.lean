/-!
# Binary floating point words

A float is kept as the word that goes over the wire, because the format promises the word and not
only the number: payloads of NaN and the sign of zero survive.  This file reads such words as exact
numbers and rounds exact numbers back to words, for both widths at once.

* `Format.decode` takes a word apart into a sign and `significand * 2 ^ exponent`.
* `Format.round` is the word nearest to a fraction, a tie going to the even word.
* `Format.equal` is numeric equality of words.
-/

namespace PackedRecord.Number

structure Format where
  exponentBits : Nat
  fractionBits : Nat

def Format.single : Format := ⟨8, 23⟩

def Format.double : Format := ⟨11, 52⟩

inductive Datum where
  | nan (negative : Bool)
  | infinite (negative : Bool)
  | finite (negative : Bool) (significand : Nat) (exponent : Int)
  deriving DecidableEq

namespace Format

def minExponent (f : Format) : Int :=
  (2 : Int) - Nat.pow 2 (f.exponentBits - 1) - f.fractionBits

/-- The word of positive infinity, which is also the first word past every finite number. -/
def infinityWord (f : Format) : Nat :=
  (Nat.pow 2 f.exponentBits - 1) * Nat.pow 2 f.fractionBits

def signWord (f : Format) : Nat :=
  Nat.pow 2 (f.exponentBits + f.fractionBits)

def decode (f : Format) (word : Nat) : Datum :=
  let negative := word / f.signWord % 2 = 1
  let exponent := word / Nat.pow 2 f.fractionBits % Nat.pow 2 f.exponentBits
  let fraction := word % Nat.pow 2 f.fractionBits
  if exponent = Nat.pow 2 f.exponentBits - 1 then
    if fraction = 0 then .infinite negative else .nan negative
  else if exponent = 0 then
    .finite negative fraction f.minExponent
  else
    .finite negative (Nat.pow 2 f.fractionBits + fraction) (f.minExponent + (exponent - 1 : Nat))

/-- `num / den` as the nearest multiple of one, a tie going to the even one. -/
def roundQuotient (num den : Nat) : Nat :=
  let q := num / den
  let r := num % den
  if 2 * r < den then q
  else if den < 2 * r then q + 1
  else q + q % 2

/-- The place of the last digit of the word nearest to `num / den`: the quotient by it has
`fractionBits + 1` binary digits, unless the number is too small for that. -/
def lastPlace (f : Format) (num den : Nat) : Int :=
  let guess : Int := (num.log2 : Int) - den.log2 - 1 - f.fractionBits
  let scaled := num * Nat.pow 2 (-guess).toNat / (den * Nat.pow 2 guess.toNat)
  let exact := if scaled < Nat.pow 2 (f.fractionBits + 1) then guess else guess + 1
  max exact f.minExponent

/-- The word of the number nearest to `num / den`, a tie going to the even word.  Past the largest
number it is infinity.  The exponent is added to the rounded significand rather than put beside it,
so that a significand that rounds up to the next power of two carries into the exponent. -/
def round (f : Format) (negative : Bool) (num den : Nat) : Nat :=
  let sign := if negative then f.signWord else 0
  if num = 0 then sign
  else
    let place := f.lastPlace num den
    let significand := roundQuotient (num * Nat.pow 2 (-place).toNat) (den * Nat.pow 2 place.toNat)
    let magnitude := (place - f.minExponent).toNat * Nat.pow 2 f.fractionBits + significand
    sign + min magnitude f.infinityWord

def encode (f : Format) : Datum → Nat
  | .nan negative =>
    (if negative then f.signWord else 0) + f.infinityWord + Nat.pow 2 (f.fractionBits - 1)
  | .infinite negative => (if negative then f.signWord else 0) + f.infinityWord
  | .finite negative significand exponent =>
    f.round negative (significand * Nat.pow 2 exponent.toNat) (Nat.pow 2 (-exponent).toNat)

/-- Numeric equality: NaN differs from everything, and the two zeros are equal. -/
def equal (f : Format) (a b : Nat) : Bool :=
  match f.decode a, f.decode b with
  | .nan _, _ => false
  | _, .nan _ => false
  | .finite _ 0 _, .finite _ 0 _ => true
  | _, _ => a = b

end Format

def narrow (word : UInt64) : UInt32 :=
  (Format.single.encode (Format.double.decode word.toNat)).toUInt32

def widen (word : UInt32) : UInt64 :=
  (Format.double.encode (Format.single.decode word.toNat)).toUInt64

def doubleOfNat (n : Nat) : UInt64 :=
  (Format.double.round false n 1).toUInt64

def isFinite (word : UInt64) : Bool :=
  match Format.double.decode word.toNat with
  | .finite .. => true
  | _ => false

/-- The nearest eight byte word to `± digits * 10 ^ exponent`, or nothing when that is infinite.
A decimal exponent far outside the format's range is settled without computing the power. -/
def doubleOfDecimal? (negative : Bool) (digits : Nat) (exponent : Int) : Option UInt64 :=
  let magnitude : Int := (Nat.toDigits 10 digits).length + exponent
  if digits = 0 ∨ magnitude < -400 then
    some (Format.double.round negative 0 1).toUInt64
  else if 400 < magnitude then
    none
  else
    let num := digits * Nat.pow 10 exponent.toNat
    let word := Format.double.round negative num (Nat.pow 10 (-exponent).toNat)
    if isFinite word.toUInt64 then some word.toUInt64 else none

end PackedRecord.Number
