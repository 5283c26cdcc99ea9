import ScalarFusion.Real.Binary

/-!
Decimal text of doubles: the fewest digits that read back as the same double, of those the
nearest, then laid out in positional or exponent form.
-/
namespace ScalarFusion.Real

structure Decimal where
  digits : Nat
  scale : Int
  deriving DecidableEq, Repr

/-- Three points of the line scaled alike: a double and the two ends of the interval of reals that
    round to it. `closed` says whether the ends belong to it. -/
structure Span where
  low : Nat
  value : Nat
  high : Nat
  exponent : Int
  closed : Bool

/-- The interval of a positive double `m · 2^q`. The gap below a power of two is half as wide. -/
def Span.of (m : Nat) (q : Int) : Span where
  low := if m = pow2 52 ∧ -1074 < q then 4 * m - 1 else 4 * m - 2
  value := 4 * m
  high := 4 * m + 2
  exponent := q - 2
  closed := m % 2 == 0

def scaled (n : Nat) (a b : Int) : Nat × Nat :=
  (n * pow2 a.toNat * Nat.pow 10 b.toNat, pow2 (-a).toNat * Nat.pow 10 (-b).toNat)

def Span.holds (s : Span) (d : Decimal) : Bool :=
  let (lowNum, lowDen) := scaled s.low s.exponent (-d.scale)
  let (highNum, highDen) := scaled s.high s.exponent (-d.scale)
  if s.closed then lowNum ≤ d.digits * lowDen && d.digits * highDen ≤ highNum
  else lowNum < d.digits * lowDen && d.digits * highDen < highNum

/-- The point of the grid of multiples of `10^scale` that reads back, if one does: of the two
    neighbours of the value the nearer, and the upper one of two equally near. -/
def Span.onGrid? (s : Span) (scale : Int) : Option Decimal :=
  let (num, den) := scaled s.value s.exponent (-scale)
  let below : Decimal := ⟨num / den, scale⟩
  let above : Decimal := ⟨num / den + 1, scale⟩
  match s.holds below, s.holds above with
  | true, true => some (if 2 * (num % den) < den then below else above)
  | true, false => some below
  | false, true => some above
  | false, false => none

def decade (m : Nat) (q : Int) : Int :=
  let atMost := fun (e : Int) =>
    let (num, den) := scaled m q (-e)
    decide (den ≤ num)
  let guess := (q + bitLength m - 1) * 1233 / 4096
  if atMost (guess + 1) then guess + 1 else if atMost guess then guess else guess - 1

def Span.search (s : Span) (scale : Int) : Nat → Decimal
  | 0 =>
    let (num, den) := scaled s.value s.exponent (-scale)
    ⟨num / den, scale⟩
  | n + 1 =>
    match s.onGrid? scale with
    | some d => d
    | none => s.search (scale - 1) n

/-- The fewest digits that read back as `m · 2^q`; seventeen always do. -/
def shortest (m : Nat) (q : Int) : Decimal :=
  (Span.of m q).search (decade m q) 17

def significant (n : Nat) : List Char :=
  ((Nat.toDigits 10 n).reverse.dropWhile (· == '0')).reverse

structure Layout where
  least : Int
  bound : Int

/-- Literals keep at least one digit after the point and turn to exponents from `10^16` and below
    `10^(-4)`. -/
def Layout.literal : Layout := ⟨-4, 16⟩

def Layout.write (l : Layout) (digits : List Char) (e : Int) : List Char :=
  if l.least ≤ e ∧ e < l.bound then
    if 0 ≤ e then
      let width := e.toNat + 1
      let whole := digits.take width
      let rest := digits.drop width
      whole ++ List.replicate (width - whole.length) '0' ++
        '.' :: (if rest.isEmpty then ['0'] else rest)
    else '0' :: '.' :: List.replicate ((-e).toNat - 1) '0' ++ digits
  else
    let tail := digits.drop 1
    digits.take 1 ++ (if tail.isEmpty then [] else '.' :: tail) ++ 'e' :: (toString e).toList

def Layout.magnitude (l : Layout) (m : Nat) (q : Int) : List Char :=
  if m = 0 then ['0', '.', '0'] else
    let d := shortest m q
    let all := Nat.toDigits 10 d.digits
    l.write (significant d.digits) (d.scale + all.length - 1)

def text (x : Float) : String :=
  match read x with
  | .nan => "NaN"
  | .infinite negative => if negative then "-inf" else "inf"
  | .finite negative m q =>
    (if negative then "-" else "") ++ String.ofList (Layout.literal.magnitude m q)

end ScalarFusion.Real
