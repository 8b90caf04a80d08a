/-!
# Values: objects as machine words

The interpreter refers to every object by a word of 64 bits.  Four kinds share the words:

* the constants false, nil, true and undef have words of their own;
* an odd word is a small integer (**fixnum**), shifted left by one;
* a word that ends in the byte `0x0c` is a symbol, its number in the bits above;
* a multiple of eight from `0x1000` on is a slot of the heap.

Other words name nothing; the interpreter treats them as objects without a class of their own.

Main statements: what is made from a small integer, a symbol or a slot is recognised as such and
gives back what it was made from (`fixnum?_ofFixnum`, `symbol?_ofSymbol`, `slot?_ofSlot`).
-/

namespace EmbeddedRuby

/-- A word that refers to an object. -/
structure Value where
  word : UInt64
deriving DecidableEq, Repr, Inhabited

/-- The number under which a name is interned; the first name has number one. -/
structure SymbolId where
  number : Nat
deriving DecidableEq, Repr, Inhabited

/-- The kinds of objects that conversions tell apart. -/
inductive ValueType where
  | nil
  | true
  | false
  | undef
  | fixnum
  | float
  | bignum
  | symbol
  | string
  | array
  | hash
  | module
  | object
deriving DecidableEq, Repr

/-- The smallest integer that fits in a word beside its mark. -/
def fixnumMin : Int := -0x4000000000000000

/-- The largest integer that fits in a word beside its mark. -/
def fixnumMax : Int := 0x3FFFFFFFFFFFFFFF

namespace Value

/-- The object with this word. -/
def ofWord (word : Nat) : Value := ⟨UInt64.ofNat word⟩

def nil : Value := ofWord 0x04

/-- The object that stands for the lack of a result. -/
def undef : Value := ofWord 0x24

def ofBool (b : Bool) : Value := ofWord (if b then 0x14 else 0x00)

/-- Everything is true but nil and false. -/
def isTruthy (v : Value) : Bool :=
  v != nil && v != ofBool false

/-- The word of a small integer: doubled, and odd. -/
def ofFixnum (n : Int) : Value :=
  ofWord ((2 * n + 1) % 0x10000000000000000).toNat

/-- The word of a symbol. -/
def ofSymbol (id : SymbolId) : Value :=
  ofWord (id.number * 256 + 0x0c)

/-- The first word of the heap. -/
def heapBase : Nat := 0x1000

/-- The word of a slot of the heap. -/
def ofSlot (index : Nat) : Value :=
  ofWord (heapBase + index * 8)

/-- The word read as a signed number. -/
def signed (v : Value) : Int :=
  if v.word.toNat < 0x8000000000000000 then v.word.toNat
  else (v.word.toNat : Int) - 0x10000000000000000

/-- The integer in a word, whether it is marked as one or not. -/
def fixnumBits (v : Value) : Int :=
  v.signed / 2

/-- The small integer that the word is. -/
def fixnum? (v : Value) : Option Int :=
  if v.word.toNat % 2 = 1 then some v.fixnumBits else none

/-- The symbol that the word is. -/
def symbol? (v : Value) : Option SymbolId :=
  if v.word.toNat % 256 = 0x0c then some ⟨v.word.toNat / 256⟩ else none

/-- The slot of the heap that the word refers to. -/
def slot? (v : Value) : Option Nat :=
  if v.word.toNat < heapBase ∨ v.word.toNat % 8 ≠ 0 then none
  else some ((v.word.toNat - heapBase) / 8)

theorem word_ofWord {n : Nat} (h : n < 0x10000000000000000) : (ofWord n).word.toNat = n := by
  simp only [ofWord, UInt64.toNat_ofNat']
  exact Nat.mod_eq_of_lt h

/-- A small integer comes back from its word. -/
theorem fixnum?_ofFixnum {n : Int} (hlow : fixnumMin ≤ n) (hhigh : n ≤ fixnumMax) :
    (ofFixnum n).fixnum? = some n := by
  simp only [fixnumMin, fixnumMax] at hlow hhigh
  have hword : (ofFixnum n).word.toNat = ((2 * n + 1) % 0x10000000000000000).toNat := by
    unfold ofFixnum
    exact word_ofWord (by omega)
  unfold fixnum? fixnumBits signed
  rw [hword, if_pos (by omega)]
  congr 1
  split <;> omega

/-- A symbol comes back from its word. -/
theorem symbol?_ofSymbol {id : SymbolId} (h : id.number < 0x100000000000000) :
    (ofSymbol id).symbol? = some id := by
  obtain ⟨number⟩ := id
  have hword : (ofSymbol ⟨number⟩).word.toNat = number * 256 + 0x0c := by
    have : number < 0x100000000000000 := h
    exact word_ofWord (by omega)
  unfold symbol?
  rw [hword, if_pos (by omega)]
  congr
  omega

/-- A slot comes back from its word. -/
theorem slot?_ofSlot {index : Nat} (h : heapBase + index * 8 < 0x10000000000000000) :
    (ofSlot index).slot? = some index := by
  have hword : (ofSlot index).word.toNat = heapBase + index * 8 := word_ofWord h
  unfold slot?
  rw [hword, if_neg (by simp only [heapBase]; omega)]
  congr
  omega

end Value

end EmbeddedRuby
