import EmbeddedRuby.Number.Double

/-!
# The integer types of the host

The host has ten types of integers, with and without sign, of 8 to 64 bits; those of the size of an
address have 64.
-/

namespace EmbeddedRuby

/-- An integer type of the host. -/
inductive IntType where
  | u8
  | u16
  | u32
  | u64
  | usize
  | i8
  | i16
  | i32
  | i64
  | isize
deriving DecidableEq, Repr

namespace IntType

def name : IntType → String
  | u8 => "u8"
  | u16 => "u16"
  | u32 => "u32"
  | u64 => "u64"
  | usize => "usize"
  | i8 => "i8"
  | i16 => "i16"
  | i32 => "i32"
  | i64 => "i64"
  | isize => "isize"

def isSigned : IntType → Bool
  | u8 | u16 | u32 | u64 | usize => false
  | i8 | i16 | i32 | i64 | isize => true

def bits : IntType → Nat
  | u8 | i8 => 8
  | u16 | i16 => 16
  | u32 | i32 => 32
  | u64 | usize | i64 | isize => 64

def minValue (t : IntType) : Int :=
  if t.isSigned then -(Nat.pow 2 (t.bits - 1) : Int) else 0

def maxValue (t : IntType) : Int :=
  if t.isSigned then (Nat.pow 2 (t.bits - 1) : Int) - 1 else (Nat.pow 2 t.bits : Int) - 1

/-- Is `n` one of the numbers of the type? -/
def holds (t : IntType) (n : Int) : Bool :=
  t.minValue ≤ n && n ≤ t.maxValue

end IntType

/-- The largest finite number of single precision. -/
def Single.maxValue : Rat := ((Nat.pow 2 24 - 1) * Nat.pow 2 104 : Nat)

end EmbeddedRuby
