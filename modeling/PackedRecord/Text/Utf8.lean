/-!
# UTF-8

Strings as bytes and bytes as strings.

* `Utf8.encode` writes a string, one to four bytes per character.
* `Utf8.decodeLossy` reads any byte list.  What is not UTF-8 does not fail: every longest run of
  bytes that starts some character but does not finish it, and every byte that starts none, reads
  as one replacement character.

Bytes are split by `/ 64` and `% 64` rather than by shifts and masks, so that everything about them
is linear arithmetic.
-/

namespace PackedRecord.Utf8

def encodeChar (c : Char) : List UInt8 :=
  let n := c.toNat
  if n < 0x80 then
    [n.toUInt8]
  else if n < 0x800 then
    [(0xC0 + n / 64).toUInt8, (0x80 + n % 64).toUInt8]
  else if n < 0x10000 then
    [(0xE0 + n / 4096).toUInt8, (0x80 + n / 64 % 64).toUInt8, (0x80 + n % 64).toUInt8]
  else
    [(0xF0 + n / 262144).toUInt8, (0x80 + n / 4096 % 64).toUInt8, (0x80 + n / 64 % 64).toUInt8,
      (0x80 + n % 64).toUInt8]

def encode (s : String) : List UInt8 :=
  s.toList.flatMap encodeChar

def replacement : Char := Char.ofNat 0xFFFD

/-- A character that has been started: the bits read so far, how many bytes are still missing, and
the range in which the next one must lie.  Only the second byte of a character is ever held to a
range narrower than `80` to `BF`; that is what keeps out overlong forms, surrogates and values past
the last code point. -/
structure Pending where
  value : Nat
  missing : Nat
  low : Nat
  high : Nat

inductive Lead where
  | complete (c : Char)
  | started (p : Pending)
  | invalid

def lead (b : UInt8) : Lead :=
  let n := b.toNat
  if n < 0x80 then .complete (Char.ofNat n)
  else if n < 0xC2 then .invalid
  else if n < 0xE0 then .started ⟨n - 0xC0, 1, 0x80, 0xBF⟩
  else if n = 0xE0 then .started ⟨0, 2, 0xA0, 0xBF⟩
  else if n = 0xED then .started ⟨0xD, 2, 0x80, 0x9F⟩
  else if n < 0xF0 then .started ⟨n - 0xE0, 2, 0x80, 0xBF⟩
  else if n = 0xF0 then .started ⟨0, 3, 0x90, 0xBF⟩
  else if n < 0xF4 then .started ⟨n - 0xF0, 3, 0x80, 0xBF⟩
  else if n = 0xF4 then .started ⟨4, 3, 0x80, 0x8F⟩
  else .invalid

/-- The characters that `bytes` stand for, when `pending` has already been read. -/
def decodeFrom (pending : Option Pending) (bytes : List UInt8) : List Char :=
  match pending, bytes with
  | none, [] => []
  | some _, [] => [replacement]
  | none, b :: rest =>
    match lead b with
    | .complete c => c :: decodeFrom none rest
    | .started p => decodeFrom (some p) rest
    | .invalid => replacement :: decodeFrom none rest
  | some p, b :: rest =>
    if p.low ≤ b.toNat ∧ b.toNat ≤ p.high then
      let value := p.value * 64 + (b.toNat - 0x80)
      if p.missing ≤ 1 then
        Char.ofNat value :: decodeFrom none rest
      else
        decodeFrom (some ⟨value, p.missing - 1, 0x80, 0xBF⟩) rest
    else
      -- The byte does not continue the character, so it is read anew.
      match lead b with
      | .complete c => replacement :: c :: decodeFrom none rest
      | .started p => replacement :: decodeFrom (some p) rest
      | .invalid => replacement :: replacement :: decodeFrom none rest

def decodeLossy (bytes : List UInt8) : String :=
  String.ofList (decodeFrom none bytes)

def decode? (bytes : List UInt8) : Option String :=
  let s := decodeLossy bytes
  if encode s = bytes then some s else none

end PackedRecord.Utf8
