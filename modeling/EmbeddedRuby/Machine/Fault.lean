import EmbeddedRuby.Object.CoreClass
import EmbeddedRuby.Source.Syntax

/-!
# Faults: the exceptions that the interpreter raises itself

Each constructor is a cause; `Fault.cls` says which class of exception it becomes and
`Fault.message` with what text.  Descriptions of objects (`nil`, `an instance of Foo`, `class Foo`)
and names of classes come in as text, since they depend on the heap at that moment.
-/

namespace EmbeddedRuby

/-- A reason for the interpreter to raise an exception. -/
inductive Fault where
  | exceptionExpected
  | undefinedMethod (name description : String)
  /-- `given` arguments where between `least` and `most` are taken. -/
  | argumentCount (given least most : Nat)
  | tooManyArguments
  | procExpected (description : String)
  | noBlock
  | noImplicitString (description : String)
  | notClassVarName (name : String)
  | uninitializedClassVar (name module : String)
  | noStringForm (cls : String)
  | stringExpected (cls : String)
  | hashExpected (cls : String)
  | moduleRequired
  | notAName (text : String)
  | notCoercible (subject cls : String)
  | integerOverflow
  | dividedByZero
  | notComparable (cls text : String)
  | noIntegerPart (text : String)
  | badInteger (quoted : String)
  | badFloat (quoted : String)
  | notConvertible (subject target : String)
  | wrongConversion (subject target method given : String)
  | nilToInteger
  | noImplicitInteger (subject : String)
  | bignumBeyondLong
  | bignumBeyondUnsigned
  | floatBeyondInteger (text : String)
  | noImplicitFloat (kind : String)
  | notAModule (text : String)
  | wrongConstantName (name : String)
  | uninitializedConstant (path : String)
  | cannotLoad (path : String)
  | syntaxFault (file : String) (error : SyntaxError)
  | otherKind (name kind : String)
  | superclassMismatch (name : String)
  | superclassNotClass (description : String)
  | unhandled
  | classVarAtTop
  | negativeUnsigned
  | noCallback
  | callbackPanicked
  | corruptReturn (tag : Nat)
  /-- A type error with a text of the host's choice. -/
  | typeError (message : String)
  /-- A runtime error with a text of the host's choice. -/
  | runtimeError (message : String)
deriving DecidableEq, Repr

namespace Fault

/-- The class of the exception. -/
def cls : Fault → CoreClass
  | undefinedMethod .. => .noMethodError
  | argumentCount .. | tooManyArguments | notComparable .. | badInteger _ | badFloat _ =>
    .argumentError
  | noBlock => .localJumpError
  | notClassVarName _ | uninitializedClassVar .. | wrongConstantName _ | uninitializedConstant _ =>
    .nameError
  | integerOverflow | bignumBeyondLong | bignumBeyondUnsigned | floatBeyondInteger _ => .rangeError
  | dividedByZero => .zeroDivisionError
  | noIntegerPart _ => .floatDomainError
  | cannotLoad _ => .loadError
  | syntaxFault .. => .syntaxError
  | unhandled | classVarAtTop | noCallback | callbackPanicked | corruptReturn _ | runtimeError _ =>
    .runtimeError
  | exceptionExpected | procExpected _ | noImplicitString _ | noStringForm _ | stringExpected _
  | hashExpected _ | moduleRequired | notAName _ | notCoercible .. | notConvertible ..
  | wrongConversion .. | nilToInteger | noImplicitInteger _ | noImplicitFloat _ | notAModule _
  | otherKind .. | superclassMismatch _ | superclassNotClass _ | negativeUnsigned | typeError _ =>
    .typeError

/-- How many arguments are taken, as text. -/
def arityText (least most : Nat) : String :=
  if least = most then s!"{least}" else s!"{least}..{most}"

/-- The message of the exception. -/
def message : Fault → String
  | exceptionExpected => "exception class/object expected"
  | undefinedMethod name description => s!"undefined method '{name}' for {description}"
  | argumentCount given least most =>
    s!"wrong number of arguments (given {given}, expected " ++ arityText least most ++ ")"
  | tooManyArguments => "too many arguments"
  | procExpected description => s!"wrong argument type {description} (expected Proc)"
  | noBlock => "no block given (yield)"
  | noImplicitString description => s!"no implicit conversion of {description} into String"
  | notClassVarName name => s!"'{name}' is not allowed as a class variable name"
  | uninitializedClassVar name module => s!"uninitialized class variable {name} in {module}"
  | noStringForm cls => s!"can't convert {cls} to String"
  | stringExpected cls => s!"wrong argument type {cls} (expected String)"
  | hashExpected cls => s!"wrong argument type {cls} (expected Hash)"
  | moduleRequired => "class or module required"
  | notAName text => s!"{text} is not a symbol nor a string"
  | notCoercible subject cls => s!"{subject} can't be coerced into {cls}"
  | integerOverflow => "integer overflow"
  | dividedByZero => "divided by 0"
  | notComparable cls text => s!"comparison of {cls} with {text} failed"
  | noIntegerPart text => text
  | badInteger quoted => s!"invalid value for Integer(): {quoted}"
  | badFloat quoted => s!"invalid value for Float(): {quoted}"
  | notConvertible subject target => s!"can't convert {subject} into {target}"
  | wrongConversion subject target method given =>
    s!"can't convert {subject} to {target} ({subject}#{method} gives {given})"
  | nilToInteger => "no implicit conversion from nil to integer"
  | noImplicitInteger subject => s!"no implicit conversion of {subject} into Integer"
  | bignumBeyondLong => "bignum too big to convert into 'long'"
  | bignumBeyondUnsigned => "bignum out of range of unsigned long"
  | floatBeyondInteger text => s!"float {text} out of range of integer"
  | noImplicitFloat kind => s!"no implicit conversion to float from {kind}"
  | notAModule text => s!"{text} is not a class/module"
  | wrongConstantName name => s!"wrong constant name {name}"
  | uninitializedConstant path => s!"uninitialized constant {path}"
  | cannotLoad path => s!"cannot load such file -- {path}"
  | syntaxFault file error => s!"{file}:{error.line}: " ++ error.fault.message
  | otherKind name kind => s!"{name} is not a {kind}"
  | superclassMismatch name => s!"superclass mismatch for class {name}"
  | superclassNotClass description =>
    s!"superclass must be an instance of Class (given {description})"
  | unhandled => "unhandled exception"
  | classVarAtTop => "class variable access from toplevel"
  | negativeUnsigned => "can't convert negative value to unsigned integer"
  | noCallback => "no host callback registered"
  | callbackPanicked => "host callback panicked"
  | corruptReturn tag => s!"corrupt block return tag {tag}"
  | typeError message => message
  | runtimeError message => message

end Fault

end EmbeddedRuby
