import EmbeddedRuby.Object.Value

/-!
# The core classes

The classes that the interpreter itself refers to, in the order in which they fill the heap: each
comes after its superclass, and each has its slot for good.  `Kernel`, the last, is a plain module.

Main statement: a class other than `Object` comes after its superclass
(`CoreClass.superclass?_lt`), so following superclasses ends.
-/

namespace EmbeddedRuby

/-- A class that exists from the start, or the module `Kernel`. -/
inductive CoreClass where
  | object
  | moduleClass
  | classClass
  | nilClass
  | trueClass
  | falseClass
  | integer
  | float
  | string
  | symbol
  | array
  | hash
  | procClass
  | exception
  | scriptError
  | loadError
  | syntaxError
  | standardError
  | runtimeError
  | typeError
  | argumentError
  | nameError
  | noMethodError
  | rangeError
  | floatDomainError
  | zeroDivisionError
  | localJumpError
  | indexError
  | keyError
  | kernel
deriving DecidableEq, Repr

namespace CoreClass

/-- All of them, in the order of their slots. -/
def all : List CoreClass :=
  [object, moduleClass, classClass, nilClass, trueClass, falseClass, integer, float, string, symbol,
    array, hash, procClass, exception, scriptError, loadError, syntaxError, standardError,
    runtimeError, typeError, argumentError, nameError, noMethodError, rangeError, floatDomainError,
    zeroDivisionError, localJumpError, indexError, keyError, kernel]

/-- The slot of the heap that holds the class. -/
def slot (c : CoreClass) : Nat := c.ctorIdx

/-- The class as an object. -/
def value (c : CoreClass) : Value := Value.ofSlot c.slot

/-- The name of the constant that holds the class. -/
def name : CoreClass → String
  | object => "Object"
  | moduleClass => "Module"
  | classClass => "Class"
  | nilClass => "NilClass"
  | trueClass => "TrueClass"
  | falseClass => "FalseClass"
  | integer => "Integer"
  | float => "Float"
  | string => "String"
  | symbol => "Symbol"
  | array => "Array"
  | hash => "Hash"
  | procClass => "Proc"
  | exception => "Exception"
  | scriptError => "ScriptError"
  | loadError => "LoadError"
  | syntaxError => "SyntaxError"
  | standardError => "StandardError"
  | runtimeError => "RuntimeError"
  | typeError => "TypeError"
  | argumentError => "ArgumentError"
  | nameError => "NameError"
  | noMethodError => "NoMethodError"
  | rangeError => "RangeError"
  | floatDomainError => "FloatDomainError"
  | zeroDivisionError => "ZeroDivisionError"
  | localJumpError => "LocalJumpError"
  | indexError => "IndexError"
  | keyError => "KeyError"
  | kernel => "Kernel"

/-- The superclass; `Object` and the module `Kernel` have none. -/
def superclass? : CoreClass → Option CoreClass
  | object | kernel => none
  | classClass => some moduleClass
  | scriptError | standardError => some exception
  | loadError | syntaxError => some scriptError
  | runtimeError | typeError | argumentError | nameError | rangeError | zeroDivisionError
  | localJumpError | indexError => some standardError
  | noMethodError => some nameError
  | floatDomainError => some rangeError
  | keyError => some indexError
  | moduleClass | nilClass | trueClass | falseClass | integer | float | string | symbol | array
  | hash | procClass | exception => some object

theorem mem_all (c : CoreClass) : c ∈ all := by
  cases c <;> decide

/-- The slot of a class is its place among all of them. -/
theorem getElem?_all_slot (c : CoreClass) : all[c.slot]? = some c := by
  cases c <;> rfl

/-- A class comes after its superclass. -/
theorem superclass?_lt {c parent : CoreClass} (h : c.superclass? = some parent) :
    parent.slot < c.slot := by
  revert h
  cases c <;> cases parent <;> decide

end CoreClass

end EmbeddedRuby
