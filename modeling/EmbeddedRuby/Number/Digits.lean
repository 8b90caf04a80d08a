/-!
# Numerals

Natural numbers in a base, and back.  `digits` writes a number with no leading zeros, `ofDigits?`
reads any digits of the base, capital letters included.  Main statement: reading what was written
gives the number (`ofDigits?_digits`).
-/

namespace EmbeddedRuby.Numeral

/-- The character of a digit below 36. -/
def digitChar (d : Nat) : Char :=
  if d < 10 then Char.ofNat (0x30 + d) else Char.ofNat (0x57 + d)

/-- The digit that a character stands for in some base up to 36. -/
def digitValue? (c : Char) : Option Nat :=
  let n := c.toNat
  if 0x30 ≤ n && n ≤ 0x39 then some (n - 0x30)
  else if 0x61 ≤ n && n ≤ 0x7A then some (n - 0x57)
  else if 0x41 ≤ n && n ≤ 0x5A then some (n - 0x37)
  else none

/-- The digit that a character stands for in the base. -/
def digitIn? (base : Nat) (c : Char) : Option Nat :=
  (digitValue? c).filter (· < base)

/-- The digits of `n`, the most significant first; zero is one digit. -/
def digits (base n : Nat) : List Char :=
  if _h : 2 ≤ base ∧ base ≤ n then digits base (n / base) ++ [digitChar (n % base)]
  else [digitChar n]
termination_by n
decreasing_by exact Nat.div_lt_self (by omega) (by omega)

/-- The decimal digits of `n`. -/
def decimal (n : Nat) : List Char := digits 10 n

/-- The decimal text of an integer. -/
def decimalInt (n : Int) : List Char :=
  if n < 0 then '-' :: decimal n.natAbs else decimal n.natAbs

/-- The value of digits, continuing from `acc`. -/
def ofDigitsFrom (base : Nat) : Nat → List Char → Option Nat
  | acc, [] => some acc
  | acc, c :: rest => (digitIn? base c).bind fun d => ofDigitsFrom base (acc * base + d) rest

/-- The value of digits of the base; none of them is zero. -/
def ofDigits? (base : Nat) (text : List Char) : Option Nat :=
  ofDigitsFrom base 0 text

theorem digitValue?_digitChar {d : Nat} (h : d < 36) : digitValue? (digitChar d) = some d := by
  have all : ∀ d : Fin 36, digitValue? (digitChar d.val) = some d.val := by decide
  exact all ⟨d, h⟩

theorem digitIn?_digitChar {base d : Nat} (hbase : base ≤ 36) (h : d < base) :
    digitIn? base (digitChar d) = some d := by
  simp [digitIn?, digitValue?_digitChar (Nat.lt_of_lt_of_le h hbase), h]

theorem ofDigitsFrom_append (base acc : Nat) (front back : List Char) :
    ofDigitsFrom base acc (front ++ back) =
      (ofDigitsFrom base acc front).bind fun acc => ofDigitsFrom base acc back := by
  induction front generalizing acc with
  | nil => rfl
  | cons c front ih =>
    simp only [List.cons_append, ofDigitsFrom, Option.bind_assoc]
    congr 1
    funext d
    exact ih _

/-- Reading the digits of a number gives the number. -/
theorem ofDigits?_digits {base : Nat} (hlow : 2 ≤ base) (hhigh : base ≤ 36) (n : Nat) :
    ofDigits? base (digits base n) = some n := by
  induction n using Nat.strongRecOn with
  | ind n ih =>
    unfold digits
    split
    · rename_i h
      have hdiv := ih (n / base) (Nat.div_lt_self (by omega) (by omega))
      have hmod : n % base < base := Nat.mod_lt _ (by omega)
      simp only [ofDigits?] at hdiv ⊢
      rw [ofDigitsFrom_append, hdiv]
      simp only [Option.bind_some, ofDigitsFrom, digitIn?_digitChar hhigh hmod]
      rw [Nat.mul_comm, Nat.div_add_mod]
    · have hlt : n < base := by omega
      simp [ofDigits?, ofDigitsFrom, digitIn?_digitChar hhigh hlt]

/-- A number in hexadecimal, padded with zeros to at least `width` digits. -/
def hex (width n : Nat) : List Char :=
  let text := digits 16 n
  List.replicate (width - text.length) '0' ++ text

end EmbeddedRuby.Numeral
