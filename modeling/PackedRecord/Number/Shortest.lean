import PackedRecord.Number.Binary

/-!
# Shortest decimals

The decimal with the fewest digits that reads back as a given eight byte float.

The reals that round to `m * 2 ^ q` form an interval: from halfway to the neighbour below to halfway
to the neighbour above, with its ends exactly when `m` is even.  For one digit, two digits and so
on, the value has two neighbours on the grid of decimals with that many digits; the first grid that
has one of them in the interval gives the answer, and of two the nearer one is taken.  Everything is
exact arithmetic on naturals.
-/

namespace PackedRecord.Number

structure Decimal where
  digits : Nat
  exponent : Int
  deriving DecidableEq

def compareScaled (a : Nat) (i : Int) (b : Nat) (j : Int) : Ordering :=
  compare (a * Nat.pow 10 i.toNat * Nat.pow 2 (-j).toNat)
    (b * Nat.pow 2 j.toNat * Nat.pow 10 (-i).toNat)

/-- Whether a decimal lies among the reals that round to `m * 2 ^ q`.  The neighbour below is only
half as far away when `m` is the least significand of its binade, unless the numbers do not get
finer there. -/
def readsBack (m : Nat) (q : Int) (d : Decimal) : Bool :=
  let least := m = Nat.pow 2 Format.double.fractionBits ∧ q ≠ Format.double.minExponent
  let low := if least then 4 * m - 1 else 4 * m - 2
  let ends := m % 2 = 0
  let below := compareScaled d.digits d.exponent low (q - 2)
  let above := compareScaled d.digits d.exponent (4 * m + 2) (q - 2)
  (below == .gt || (ends && below == .eq)) && (above == .lt || (ends && above == .eq))

/-- The least `k` with `m * 2 ^ q < 10 ^ k`.  The binary logarithm times `log 2` is at most one
short, and three steps settle it. -/
def decimalScale (m : Nat) (q : Int) : Int :=
  let guess : Int := ((m.log2 : Int) + q) * 1233 / 4096
  let fits (k : Int) := compareScaled 1 k m q == .gt
  if fits (guess - 1) then guess - 1
  else if fits guess then guess
  else if fits (guess + 1) then guess + 1
  else guess + 2

/-- The nearer neighbour of `m * 2 ^ q` on the grid `10 ^ g` that reads back, a tie going to the
even one. -/
def nearestOnGrid? (m : Nat) (q g : Int) : Option Decimal :=
  let num := m * Nat.pow 2 q.toNat * Nat.pow 10 (-g).toNat
  let den := Nat.pow 2 (-q).toNat * Nat.pow 10 g.toNat
  let below : Decimal := ⟨num / den, g⟩
  let above : Decimal := ⟨num / den + 1, g⟩
  let rest := 2 * (num % den)
  let preferBelow := rest < den ∨ (rest = den ∧ num / den % 2 = 0)
  let candidates := if preferBelow then [below, above] else [above, below]
  candidates.find? (readsBack m q)

def Decimal.stripZeros (d : Decimal) : (fuel : Nat) → Decimal
  | 0 => d
  | fuel + 1 =>
    if d.digits ≠ 0 ∧ d.digits % 10 = 0 then
      Decimal.stripZeros ⟨d.digits / 10, d.exponent + 1⟩ fuel
    else d

/-- The decimal with the fewest digits that reads back as `m * 2 ^ q`, the nearest of those.
Seventeen digits always suffice; past them stands the exact value. -/
def shortest (m : Nat) (q : Int) : Decimal :=
  if m = 0 then ⟨0, 0⟩
  else
    let scale := decimalScale m q
    let found := (List.range 17).findSome? fun n => nearestOnGrid? m q (scale - (n + 1 : Nat))
    match found with
    | some d => d.stripZeros 20
    | none => ⟨m * Nat.pow 2 q.toNat * Nat.pow 5 (-q).toNat, min q 0⟩

end PackedRecord.Number
