/-!
Integers and decimal numerals. Integers are 64-bit words in two's complement, met from the unbounded
integers by a range check or by saturation. A numeral with a fraction or an exponent stands for the
binary64 number nearest to it, found in exact arithmetic, and of that only the integer part is used.
-/

namespace ObjectLang

namespace Integer

def least : Int := -0x8000000000000000
def greatest : Int := 0x7FFFFFFFFFFFFFFF

def ofInt? (z : Int) : Option Int64 :=
  if least ≤ z ∧ z ≤ greatest then some (Int64.ofInt z) else none

def saturate (z : Int) : Int64 :=
  if z < least then Int64.ofInt least
  else if greatest < z then Int64.ofInt greatest
  else Int64.ofInt z

def render (n : Int64) : String := toString n.toInt

end Integer

namespace Decimal

/- Runs of ASCII digits, with an optional sign for integers. -/

def digitValue (c : Char) : Nat := c.toNat - '0'.toNat

def ofDigits (cs : List Char) : Nat :=
  cs.foldl (fun n c => 10 * n + digitValue c) 0

def natural? (cs : List Char) : Option Nat :=
  if !cs.isEmpty && cs.all Char.isDigit then some (ofDigits cs) else none

def splitSign : List Char → Bool × List Char
  | '-' :: cs => (true, cs)
  | '+' :: cs => (false, cs)
  | cs => (false, cs)

def signed (negative : Bool) (n : Nat) : Int := if negative then -n else n

def integer? (cs : List Char) : Option Int :=
  let (negative, digits) := splitSign cs
  (natural? digits).map (signed negative)

def word? (cs : List Char) : Option Int64 := (integer? cs).bind Integer.ofInt?

/- Binary64 numbers: a significand of at most 53 bits times a power of two. A tie goes to the even
significand. -/

def roundHalfEven (num den : Nat) : Nat :=
  let q := num / den
  let twice := 2 * (num % den)
  if twice < den then q
  else if den < twice then q + 1
  else if q % 2 = 0 then q else q + 1

/-- The exponent `k` with `2 ^ k ≤ num / den < 2 ^ (k + 1)`. -/
def binaryExponent (num den : Nat) : Int :=
  let k : Int := (num.log2 : Int) - den.log2
  if den <<< k.toNat ≤ num <<< (-k).toNat then k else k - 1

structure Binary64 where
  significand : Nat
  exponent : Int

/-- The number nearest to `num / den`, with the exponent range unbounded above. -/
def Binary64.nearest (num den : Nat) : Binary64 :=
  if num = 0 then ⟨0, 0⟩
  else
    let k := binaryExponent num den - 52
    let e := if k < -1074 then -1074 else k
    ⟨roundHalfEven (num <<< (-e).toNat) (den <<< e.toNat), e⟩

def Binary64.isFinite (x : Binary64) : Bool := x.significand <<< x.exponent.toNat < 1 <<< 1024

def Binary64.truncate (x : Binary64) : Nat :=
  x.significand <<< x.exponent.toNat >>> (-x.exponent).toNat

/- Numerals with a fraction or an exponent. -/

/-- `mantissa * 10 ^ exponent`, with a sign. -/
structure Scientific where
  negative : Bool
  mantissa : Nat
  exponent : Int

namespace Scientific

def exponent? : List Char → Option Int
  | [] => some 0
  | c :: cs => if c = 'e' || c = 'E' then integer? cs else none

def splitFraction : List Char → List Char × List Char
  | '.' :: cs => (cs.takeWhile Char.isDigit, cs.dropWhile Char.isDigit)
  | cs => ([], cs)

/-- A sign, digits around an optional point with at least one digit, and an optional exponent. -/
def ofChars? (cs : List Char) : Option Scientific :=
  let (negative, body) := splitSign cs
  let whole := body.takeWhile Char.isDigit
  let (fraction, tail) := splitFraction (body.dropWhile Char.isDigit)
  if whole.isEmpty && fraction.isEmpty then none
  else (exponent? tail).map fun e =>
    ⟨negative, ofDigits (whole ++ fraction), e - fraction.length⟩

def magnitude (x : Scientific) : Int := (Nat.toDigits 10 x.mantissa).length + x.exponent

def tenTo (e : Int) : Nat := Nat.pow 10 e.toNat

/-- The integer part of the binary64 number nearest to the absolute value, if that number is finite.
Values from `10 ^ 309` on are not, and values below a tenth have integer part zero, so that only
moderate powers of ten are ever written out. -/
def wholePart? (x : Scientific) : Option Nat :=
  if x.mantissa = 0 || x.magnitude < 0 then some 0
  else if 309 < x.magnitude then none
  else
    let y := Binary64.nearest (x.mantissa * tenTo x.exponent) (tenTo (-x.exponent))
    if y.isFinite then some y.truncate else none

def truncate? (x : Scientific) : Option Int := x.wholePart?.map (signed x.negative)

end Scientific

end Decimal

end ObjectLang
