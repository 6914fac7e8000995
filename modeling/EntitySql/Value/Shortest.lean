import EntitySql.Value.Binary64
import EntitySql.Value.Calendar

/-!
The decimal text of a double: the fewest digits that read back as the same double, and of those
the nearest to its exact value, always written positionally.

A decimal reads back when it lies in the interval of reals that round to the double. The grids
`10 ^ k · ℕ` are tried from coarse to fine, so the first one with a point in the interval has
the fewest digits; only the two grid points around the exact value need a look.
-/

namespace EntitySql.Binary64

/-- The reals that round to a double, all scaled to naturals by one factor: the exact value and
the ends halfway to its neighbours. The ends round to the double when its significand is even. -/
structure Rounding where
  exact : Nat
  lower : Nat
  upper : Nat
  closed : Bool
  deriving DecidableEq, Repr

def Rounding.contains (r : Rounding) (x : Nat) : Bool :=
  if r.closed then r.lower ≤ x && x ≤ r.upper else r.lower < x && x < r.upper

/-- The reals that round to `m · 2 ^ q`, scaled so that a quarter of the gap to the next larger
double is `quarter`. Below a power of two the gap is half as wide. -/
def rounding (m : Nat) (q : Int) (quarter : Nat) : Rounding :=
  { exact := 4 * m * quarter
    lower := (4 * m - if m = exponentWeight ∧ q ≠ -1074 then 1 else 2) * quarter
    upper := (4 * m + 2) * quarter
    closed := m % 2 == 0 }

/-- A multiple of `unit` that rounds to the double, as a factor of it: the nearest if both
neighbours of the exact value do, the larger on a tie. -/
def Rounding.onGrid (r : Rounding) (unit : Nat) : Option Nat :=
  let below := r.exact / unit
  match r.contains (below * unit), r.contains ((below + 1) * unit) with
  | true, true => some (if 2 * r.exact < (2 * below + 1) * unit then below else below + 1)
  | true, false => some below
  | false, true => some (below + 1)
  | false, false => none

structure Decimal where
  digits : Nat
  power : Int
  deriving DecidableEq, Repr

/-- A decimal on the grid of `10 ^ k` that reads back as `m · 2 ^ q`. Both are scaled by a power
of two and one of ten that leave no negative exponent. -/
def decimalAt? (m : Nat) (q k : Int) : Option Decimal :=
  let quarter := Nat.pow 10 (-k).toNat <<< (q - 2).toNat
  let unit := Nat.pow 10 k.toNat <<< (2 - q).toNat
  ((rounding m q quarter).onGrid unit).map fun digits => ⟨digits, k⟩

/-- The exponents of the grids that doubles need, from coarse to fine. No double is as large as
`10 ^ 309`, and seventeen digits of the smallest normal one end at `10 ^ -324`. -/
def gridPowers : List Int := (List.range 634).map fun (i : Nat) => (309 : Int) - (i : Int)

def shortest (m : Nat) (q : Int) : Decimal :=
  (gridPowers.findSome? (decimalAt? m q)).getD ⟨0, 0⟩

/-- Digits of the whole part, then, after a point, those of the fraction if it is not zero. -/
def Decimal.chars (x : Decimal) : List Char :=
  let places := (-x.power).toNat
  let scaled := x.digits * Nat.pow 10 x.power.toNat
  let whole := Digits.nat (scaled / Nat.pow 10 places)
  let rest := scaled % Nat.pow 10 places
  if rest = 0 then whole
  else whole ++ '.' :: ((Digits.padded places rest).reverse.dropWhile (· == '0')).reverse

/-- The text of a double. Infinity and zero keep their sign; NaN has none. -/
def chars (x : Binary64) : List Char :=
  if x.isNaN then ['N', 'a', 'N']
  else
    let magnitude :=
      if x.isInfinite then ['i', 'n', 'f']
      else if x.isZero then ['0']
      else (shortest x.significand x.power).chars
    if x.isNegative then '-' :: magnitude else magnitude

end EntitySql.Binary64
