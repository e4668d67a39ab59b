import PackedRecord.Number.Binary

/-!
# Rounding never gives NaN

A word that is rounded to is a magnitude no larger than that of infinity, with or without a sign, and
NaN lies past infinity (`Format.notNan_of_magnitude`).  A float that comes from a number, or from a float
of the other width, is therefore equal to itself.
-/

namespace PackedRecord.Number

namespace Format

/-- A word that stands for a number, finite or not. -/
def NotNan (f : Format) (word : Nat) : Prop :=
  ∀ negative, f.decode word ≠ .nan negative

theorem equal_self {f : Format} {word : Nat} (number : f.NotNan word) : f.equal word word = true := by
  rw [equal]
  cases found : f.decode word with
  | nan negative => exact absurd found (number negative)
  | infinite negative => simp
  | finite negative significand exponent => cases significand <;> simp

def sign (f : Format) (negative : Bool) : Nat :=
  if negative then f.signWord else 0

theorem notNan_of_magnitude (f : Format) (negative : Bool) {magnitude : Nat}
    (small : magnitude ≤ f.infinityWord) : f.NotNan (f.sign negative + magnitude) := by
  intro negative'
  have fraction : 0 < Nat.pow 2 f.fractionBits := Nat.pow_pos (by decide)
  have exponent : 0 < Nat.pow 2 f.exponentBits := Nat.pow_pos (by decide)
  have signed : f.signWord = Nat.pow 2 f.exponentBits * Nat.pow 2 f.fractionBits :=
    Nat.pow_add 2 f.exponentBits f.fractionBits
  rw [infinityWord] at small
  simp only [decode, sign, signed]
  generalize Nat.pow 2 f.fractionBits = base at *
  generalize Nat.pow 2 f.exponentBits = top at *
  have low : ((if negative then top * base else 0) + magnitude) % base = magnitude % base := by
    cases negative <;> simp
  have high : ((if negative then top * base else 0) + magnitude) / base % top = magnitude / base % top := by
    cases negative with
    | false => simp
    | true => rw [if_pos rfl, Nat.mul_comm, Nat.mul_add_div fraction, Nat.add_mod_left]
  rw [low, high]
  by_cases full : magnitude / base % top = top - 1
  · have within : magnitude / base ≤ top - 1 := Nat.div_le_of_le_mul (by rwa [Nat.mul_comm])
    have quotient : magnitude / base = top - 1 := by rwa [Nat.mod_eq_of_lt (by omega)] at full
    have reached : magnitude = (top - 1) * base :=
      Nat.le_antisymm small (quotient ▸ Nat.div_mul_le_self magnitude base)
    rw [if_pos full, if_pos (by rw [reached, Nat.mul_mod_left])]
    simp
  · rw [if_neg full]
    split <;> simp

/-! ## Rounded words -/

theorem exists_round_eq (f : Format) (negative : Bool) (num den : Nat) :
    ∃ magnitude ≤ f.infinityWord, f.round negative num den = f.sign negative + magnitude := by
  rw [round]
  split
  · exact ⟨0, Nat.zero_le _, rfl⟩
  · exact ⟨_, Nat.min_le_right _ _, rfl⟩

theorem exists_encode_eq (f : Format) {datum : Datum} (number : ∀ negative, datum ≠ .nan negative) :
    ∃ negative, ∃ magnitude ≤ f.infinityWord, f.encode datum = f.sign negative + magnitude := by
  cases datum with
  | nan negative => exact absurd rfl (number negative)
  | infinite negative => exact ⟨negative, f.infinityWord, Nat.le_refl _, rfl⟩
  | finite negative significand exponent => exact ⟨negative, f.exists_round_eq negative _ _⟩

theorem sign_le (f : Format) (negative : Bool) : f.sign negative ≤ f.signWord := by
  cases negative <;> simp [sign]

end Format

theorem notNan_round_double (negative : Bool) (num den : Nat) :
    Format.double.NotNan (Format.double.round negative num den).toUInt64.toNat := by
  obtain ⟨magnitude, small, rounded⟩ := Format.double.exists_round_eq negative num den
  have bits := Format.double.sign_le negative
  have fits : Format.double.signWord + Format.double.infinityWord < UInt64.size := by decide
  rw [rounded, UInt64.toNat_ofNat_of_lt' (by omega)]
  exact Format.notNan_of_magnitude _ negative small

theorem notNan_doubleOfNat (n : Nat) : Format.double.NotNan (doubleOfNat n).toNat :=
  notNan_round_double false n 1

/-- The nearest word of the other width to a number is a number. -/
theorem notNan_narrow {word : UInt64} (number : Format.double.NotNan word.toNat) :
    Format.single.NotNan (narrow word).toNat := by
  obtain ⟨negative, magnitude, small, encoded⟩ := Format.single.exists_encode_eq number
  have bits := Format.single.sign_le negative
  have fits : Format.single.signWord + Format.single.infinityWord < UInt32.size := by decide
  rw [narrow, encoded, UInt32.toNat_ofNat_of_lt' (by omega)]
  exact Format.notNan_of_magnitude _ negative small

/-- Decimal numbers are read as finite floats. -/
theorem notNan_doubleOfDecimal {negative : Bool} {digits : Nat} {exponent : Int} {word : UInt64}
    (read : doubleOfDecimal? negative digits exponent = some word) : Format.double.NotNan word.toNat := by
  simp only [doubleOfDecimal?] at read
  split at read
  · cases read
    exact notNan_round_double negative 0 1
  · split at read
    · cases read
    · split at read
      · cases read
        exact notNan_round_double negative _ _
      · cases read

end PackedRecord.Number
