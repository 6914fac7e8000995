/-!
Double-precision numbers as their IEEE 754 bits. Keeping the bits makes every question about a
number a question about natural numbers: which class it belongs to, whether two are equal, and
what its exact value is.
-/

namespace EntitySql

/-- A double. Two doubles are the same term only if all their bits agree, NaN payloads and the
sign of zero included; numerical equality is `Binary64.equal`. -/
structure Binary64 where
  bits : UInt64
  deriving DecidableEq, Repr, Inhabited

namespace Binary64

def signWeight : Nat := 0x8000000000000000

/-- The weight of the lowest exponent bit, `2 ^ 52`, which is also the leading one that the
significand of a normal number has and does not store. -/
def exponentWeight : Nat := 0x10000000000000

def specialExponent : Nat := 2047

def isNegative (x : Binary64) : Bool := signWeight ≤ x.bits.toNat

def exponentField (x : Binary64) : Nat := x.bits.toNat / exponentWeight % 2048

def fraction (x : Binary64) : Nat := x.bits.toNat % exponentWeight

def ofFields (negative : Bool) (exponentField fraction : Nat) : Binary64 :=
  ⟨UInt64.ofNat ((if negative then signWeight else 0) + exponentField * exponentWeight + fraction)⟩

def isNaN (x : Binary64) : Bool := x.exponentField == specialExponent && x.fraction != 0

def isInfinite (x : Binary64) : Bool := x.exponentField == specialExponent && x.fraction == 0

def isZero (x : Binary64) : Bool := x.exponentField == 0 && x.fraction == 0

/-- Numerical equality: NaN differs from everything, itself included, and the two zeros agree. -/
def equal (x y : Binary64) : Bool :=
  !x.isNaN && !y.isNaN && (x == y || x.isZero && y.isZero)

/-- The integer `m` of a finite double `m · 2 ^ x.power`, sign aside. -/
def significand (x : Binary64) : Nat :=
  if x.exponentField = 0 then x.fraction else exponentWeight + x.fraction

/-- The exponent `q` of a finite double `x.significand · 2 ^ q`. -/
def power (x : Binary64) : Int :=
  if x.exponentField = 0 then -1074 else (x.exponentField : Int) - 1075

/-- The double of the same value as a single-precision number given by its bits. A single
subnormal becomes normal: the leading one of its fraction turns into the one that is not
stored. -/
def ofBinary32 (bits : UInt32) : Binary64 :=
  let negative : Bool := 0x80000000 ≤ bits.toNat
  let exponent := bits.toNat / 0x800000 % 256
  let fraction := bits.toNat % 0x800000
  if exponent = 255 then ofFields negative specialExponent (fraction <<< 29)
  else if exponent = 0 then
    if fraction = 0 then ofFields negative 0 0
    else
      let lead := Nat.log2 fraction
      ofFields negative (lead + 874) ((fraction <<< (52 - lead)) - exponentWeight)
  else ofFields negative (exponent + 896) (fraction <<< 29)

end Binary64
end EntitySql
