import PackedRecord.Text.Utf8

/-!
# Well-formed text survives lossy reading

Lossy reading replaces what is not UTF-8, so on the bytes of a string it has nothing to replace:

* `decodeLossy_encode`: reading the bytes of a string gives the string back.
* `encode_decodeLossy_eq_iff`: only then are the bytes of what was read those that were read.
* `takeWhile_encode`: the bytes before the first NUL byte are those of the characters before the
  first NUL character, since no other character has a NUL byte in it.
-/

namespace PackedRecord.Utf8

theorem toNat_toUInt8 {n : Nat} (small : n < 256) : n.toUInt8.toNat = n := by
  simp only [Nat.toUInt8, UInt8.toNat_ofNat']
  omega

/-- Code points are below the surrogates, or between them and the end of the range. -/
theorem codePoint_range (c : Char) : c.toNat < 0xD800 ∨ (0xDFFF < c.toNat ∧ c.toNat < 0x110000) :=
  c.valid

/-- A byte in the range that a started character asks for, when it is the last one missing. -/
theorem decodeFrom_last {p : Pending} {b : UInt8} {rest : List UInt8}
    (inRange : p.low ≤ b.toNat ∧ b.toNat ≤ p.high) (last : p.missing ≤ 1) :
    decodeFrom (some p) (b :: rest) =
      Char.ofNat (p.value * 64 + (b.toNat - 0x80)) :: decodeFrom none rest := by
  simp only [decodeFrom, if_pos inRange, if_pos last]

/-- A byte in the range that a started character asks for, when more are missing after it. -/
theorem decodeFrom_more {p : Pending} {b : UInt8} {rest : List UInt8}
    (inRange : p.low ≤ b.toNat ∧ b.toNat ≤ p.high) (more : ¬ p.missing ≤ 1) :
    decodeFrom (some p) (b :: rest) =
      decodeFrom (some ⟨p.value * 64 + (b.toNat - 0x80), p.missing - 1, 0x80, 0xBF⟩) rest := by
  simp only [decodeFrom, if_pos inRange, if_neg more]

/-- A lead byte leaves its character pending. -/
theorem decodeFrom_started {b : UInt8} {p : Pending} {rest : List UInt8} (leads : lead b = .started p) :
    decodeFrom none (b :: rest) = decodeFrom (some p) rest := by
  simp only [decodeFrom, leads]

theorem lead_two {n : Nat} (low : 0x80 ≤ n) (high : n < 0x800) :
    lead (0xC0 + n / 64).toUInt8 = .started ⟨n / 64, 1, 0x80, 0xBF⟩ := by
  have byte : (0xC0 + n / 64).toUInt8.toNat = 0xC0 + n / 64 := toNat_toUInt8 (by omega)
  simp only [lead, byte]
  rw [if_neg (by omega), if_neg (by omega), if_pos (by omega), Nat.add_sub_cancel_left]

/-- What the lead byte of a three byte character announces: the second byte of the first and of the
fourteenth block is held to half of its range. -/
theorem lead_three {n : Nat} (low : 0x800 ≤ n) (high : n < 0x10000) :
    lead (0xE0 + n / 4096).toUInt8 = .started ⟨n / 4096, 2,
      if n / 4096 = 0 then 0xA0 else 0x80, if n / 4096 = 0xD then 0x9F else 0xBF⟩ := by
  have byte : (0xE0 + n / 4096).toUInt8.toNat = 0xE0 + n / 4096 := toNat_toUInt8 (by omega)
  simp only [lead, byte]
  rw [if_neg (by omega), if_neg (by omega), if_neg (by omega)]
  by_cases first : n / 4096 = 0
  · simp [first]
  · by_cases surrogate : n / 4096 = 0xD
    · simp [surrogate]
    · rw [if_neg (by omega), if_neg (by omega), if_pos (by omega), if_neg first, if_neg surrogate,
        Nat.add_sub_cancel_left]

/-- What the lead byte of a four byte character announces: the second byte of the first block and
of the last one is held to part of its range. -/
theorem lead_four {n : Nat} (low : 0x10000 ≤ n) (high : n < 0x110000) :
    lead (0xF0 + n / 262144).toUInt8 = .started ⟨n / 262144, 3,
      if n / 262144 = 0 then 0x90 else 0x80, if n / 262144 = 4 then 0x8F else 0xBF⟩ := by
  have byte : (0xF0 + n / 262144).toUInt8.toNat = 0xF0 + n / 262144 := toNat_toUInt8 (by omega)
  simp only [lead, byte]
  rw [if_neg (by omega), if_neg (by omega), if_neg (by omega), if_neg (by omega), if_neg (by omega),
    if_neg (by omega)]
  by_cases first : n / 262144 = 0
  · simp [first]
  · by_cases last : n / 262144 = 4
    · simp [last]
    · rw [if_neg (by omega), if_pos (by omega), if_neg first, if_neg last, Nat.add_sub_cancel_left]

/-- The bytes of a character read as that character, whatever follows them. -/
theorem decodeFrom_encodeChar (c : Char) (rest : List UInt8) :
    decodeFrom none (encodeChar c ++ rest) = c :: decodeFrom none rest := by
  have range := codePoint_range c
  have back : Char.ofNat c.toNat = c := Char.ofNat_toNat c
  have trail : ∀ x, (0x80 + x % 64).toUInt8.toNat = 0x80 + x % 64 := fun x => toNat_toUInt8 (by omega)
  -- One case per length; in each the bytes give back the digits of the code point in base 64.
  unfold encodeChar
  generalize c.toNat = n at range back
  simp only
  split
  · have byte : n.toUInt8.toNat = n := toNat_toUInt8 (by omega)
    have leads : lead n.toUInt8 = .complete c := by
      simp only [lead, byte, back, if_pos (by assumption : n < 0x80)]
    simp only [List.cons_append, List.nil_append, decodeFrom, leads]
  split
  · simp only [List.cons_append, List.nil_append]
    rw [decodeFrom_started (lead_two (by omega) (by omega)),
      decodeFrom_last (by simp only [trail]; omega) (by simp)]
    simp only [trail]
    rw [show n / 64 * 64 + (0x80 + n % 64 - 0x80) = n by omega, back]
  split
  · simp only [List.cons_append, List.nil_append]
    rw [decodeFrom_started (lead_three (by omega) (by omega)),
      decodeFrom_more (by simp only [trail]; split <;> split <;> omega) (by simp),
      decodeFrom_last (by simp only [trail]; omega) (by simp)]
    simp only [trail]
    rw [show (n / 4096 * 64 + (0x80 + n / 64 % 64 - 0x80)) * 64 + (0x80 + n % 64 - 0x80) = n by omega,
      back]
  · simp only [List.cons_append, List.nil_append]
    rw [decodeFrom_started (lead_four (by omega) (by omega)),
      decodeFrom_more (by simp only [trail]; split <;> split <;> omega) (by simp),
      decodeFrom_more (by simp only [trail]; omega) (by simp),
      decodeFrom_last (by simp only [trail]; omega) (by simp)]
    simp only [trail]
    rw [show ((n / 262144 * 64 + (0x80 + n / 4096 % 64 - 0x80)) * 64
        + (0x80 + n / 64 % 64 - 0x80)) * 64 + (0x80 + n % 64 - 0x80) = n by omega, back]

theorem decodeFrom_flatMap_encodeChar (chars : List Char) :
    decodeFrom none (chars.flatMap encodeChar) = chars := by
  induction chars with
  | nil => rfl
  | cons c chars inductionHypothesis =>
    rw [List.flatMap_cons, decodeFrom_encodeChar, inductionHypothesis]

@[simp]
theorem decodeLossy_encode (s : String) : decodeLossy (encode s) = s := by
  simp only [decodeLossy, encode, decodeFrom_flatMap_encodeChar, String.ofList_toList]

def WellFormed (bytes : List UInt8) : Prop :=
  ∃ s, encode s = bytes

/-- Lossy reading loses something just where the bytes are not UTF-8. -/
theorem encode_decodeLossy_eq_iff {bytes : List UInt8} :
    encode (decodeLossy bytes) = bytes ↔ WellFormed bytes := by
  constructor
  · intro same
    exact ⟨decodeLossy bytes, same⟩
  · rintro ⟨s, rfl⟩
    rw [decodeLossy_encode]

theorem encodeChar_nul : encodeChar '\x00' = [0] := by decide

/-- No other character has a NUL byte in it. -/
theorem encodeChar_ne_zero {c : Char} (notNul : c ≠ '\x00') : ∀ b ∈ encodeChar c, b ≠ 0 := by
  have range := codePoint_range c
  have positive : c.toNat ≠ 0 := by
    intro zero
    apply notNul
    rw [← Char.ofNat_toNat c, zero]
  have nonzero : ∀ {n : Nat}, n ≠ 0 → n < 256 → n.toUInt8 ≠ 0 := by
    intro n notZero small equal
    apply notZero
    rw [← toNat_toUInt8 small, equal]
    rfl
  intro b member
  unfold encodeChar at member
  simp only at member
  split at member
  · simp only [List.mem_singleton] at member
    exact member ▸ nonzero positive (by omega)
  split at member
  · simp only [List.mem_cons, List.not_mem_nil, or_false] at member
    rcases member with rfl | rfl <;> exact nonzero (by omega) (by omega)
  split at member
  · simp only [List.mem_cons, List.not_mem_nil, or_false] at member
    rcases member with rfl | rfl | rfl <;> exact nonzero (by omega) (by omega)
  · simp only [List.mem_cons, List.not_mem_nil, or_false] at member
    rcases member with rfl | rfl | rfl | rfl <;> exact nonzero (by omega) (by omega)

/-- Cutting bytes at the first NUL byte is cutting characters at the first NUL. -/
theorem takeWhile_flatMap_encodeChar (chars : List Char) :
    (chars.flatMap encodeChar).takeWhile (· ≠ 0) =
      (chars.takeWhile (· ≠ '\x00')).flatMap encodeChar := by
  induction chars with
  | nil => rfl
  | cons c chars inductionHypothesis =>
    by_cases nul : c = '\x00'
    · subst nul
      simp [List.flatMap_cons, encodeChar_nul]
    · have whole : ∀ b ∈ encodeChar c, decide (b ≠ 0) = true := fun b member => by
        simpa using encodeChar_ne_zero nul b member
      rw [List.flatMap_cons, List.takeWhile_append_of_pos whole, inductionHypothesis,
        List.takeWhile_cons_of_pos (by simpa using nul), List.flatMap_cons]

/-- The bytes of a string before its first NUL byte are a string's bytes again. -/
theorem takeWhile_encode (s : String) :
    (encode s).takeWhile (· ≠ 0) = encode (String.ofList (s.toList.takeWhile (· ≠ '\x00'))) := by
  simp only [encode, takeWhile_flatMap_encodeChar, String.toList_ofList]

end PackedRecord.Utf8
