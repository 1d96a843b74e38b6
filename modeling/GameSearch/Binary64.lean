/-!
# Floating-point numbers

Floating-point numbers of 64 bits, known by their bits, so that what is no number keeps its sign and
its payload.  On numbers, the operations are those of `Float`.  An operand that is no number is
passed on, the first one if both are none, and where numbers have no result it is
`Binary64.undefined`.
-/

namespace GameSearch

/-- A floating-point number of 64 bits. -/
structure Binary64 where
  bits : UInt64

namespace Binary64

/-- The bit that says the sign. -/
def signBit : UInt64 := 0x8000000000000000

/-- The bits of an infinity; greater magnitudes are no numbers. -/
def infiniteBits : UInt64 := 0x7ff0000000000000

/-- The bit that marks what is no number as a result of operations. -/
def quietBit : UInt64 := 0x0008000000000000

/-- The bits without the sign. -/
def magnitude (x : Binary64) : UInt64 := x.bits &&& (signBit - 1)

/-- Whether the bits stand for no number. -/
def isNaN (x : Binary64) : Bool := infiniteBits < x.magnitude

/-- Whether the number is an infinity. -/
def isInfinite (x : Binary64) : Bool := x.magnitude == infiniteBits

def infinity : Binary64 := ⟨infiniteBits⟩

/-- What is no number, without a minus. -/
def nan : Binary64 := ⟨infiniteBits ||| quietBit⟩

/-- The result of operations that have none. -/
def undefined : Binary64 := ⟨signBit ||| infiniteBits ||| quietBit⟩

/-- The number for the operations of `Float`. -/
def toFloat (x : Binary64) : Float := Float.ofBits x.bits

/-- The result of an operation on numbers. -/
def ofFloat (x : Float) : Binary64 := if x.isNaN then undefined else ⟨x.toBits⟩

/-- What an operation makes of an operand that is no number. -/
def quiet (x : Binary64) : Binary64 := ⟨x.bits ||| quietBit⟩

@[inline] def map (f : Float → Float) (x : Binary64) : Binary64 :=
  if x.isNaN then x.quiet else ofFloat (f x.toFloat)

@[inline] def combine (f : Float → Float → Float) (x y : Binary64) : Binary64 :=
  if x.isNaN then x.quiet else if y.isNaN then y.quiet else ofFloat (f x.toFloat y.toFloat)

instance : Add Binary64 := ⟨combine (· + ·)⟩

instance : Sub Binary64 := ⟨combine (· - ·)⟩

instance : Mul Binary64 := ⟨combine (· * ·)⟩

instance : Div Binary64 := ⟨combine (· / ·)⟩

/-- The other sign, also of what is no number. -/
instance : Neg Binary64 := ⟨fun x => ⟨x.bits ^^^ signBit⟩⟩

instance : LT Binary64 := ⟨fun x y => x.toFloat < y.toFloat⟩

instance : LE Binary64 := ⟨fun x y => x.toFloat ≤ y.toFloat⟩

instance : BEq Binary64 := ⟨fun x y => x.toFloat == y.toFloat⟩

instance : DecidableLT Binary64 := fun x y =>
  inferInstanceAs (Decidable (x.toFloat < y.toFloat))

instance : DecidableLE Binary64 := fun x y =>
  inferInstanceAs (Decidable (x.toFloat ≤ y.toFloat))

instance (n : Nat) : OfNat Binary64 n := ⟨ofFloat (Float.ofNat n)⟩

instance : OfScientific Binary64 :=
  ⟨fun mantissa isSmall exponent => ofFloat (Float.ofScientific mantissa isSmall exponent)⟩

/-- The nearest number to a whole number. -/
def ofInt (n : Int) : Binary64 := ofFloat (Float.ofInt n)

def sqrt (x : Binary64) : Binary64 := x.map Float.sqrt

def log (x : Binary64) : Binary64 := x.map Float.log

/-- The nearest whole number, the one farther from zero if there are two. -/
def round (x : Binary64) : Binary64 := x.map Float.round

/-- The number without its fraction as a signed word; what does not fit into one becomes the
smallest. -/
def toWord (x : Binary64) : Int :=
  if x.toFloat < 9223372036854775808 then x.toFloat.toInt64.toInt else Int64.minValue.toInt

end Binary64

end GameSearch
