/-!
# Errors as the host sees them

An `Error` says why an operation on the interpreter failed: before it was tried (a bad name, a bad
parameter), because the interpreter is not up, because of a value that does not fit, or by a
non-local exit, which is an exception or some other jump.

`History` keeps the errors that were handed out last, up to its capacity; recording into a full one
drops the oldest.
-/

namespace EmbeddedRuby

/-- The names of the ways to leave a call. -/
def tagName (tag : Int) : String :=
  match tag with
  | 0 => "none"
  | 1 => "return"
  | 2 => "break"
  | 3 => "next"
  | 4 => "retry"
  | 5 => "redo"
  | 6 => "raise"
  | 7 => "throw"
  | 8 => "fatal"
  | _ => "unknown"

/-- What a name is meant for. -/
inductive IdentifierKind where
  | method
  | constant
  | classVariable
  | symbol
deriving DecidableEq, Repr

/-- The kind of a name in messages. -/
def IdentifierKind.text : IdentifierKind → String
  | method => "method"
  | constant => "constant"
  | classVariable => "class variable"
  | symbol => "symbol"

/-- An exception that came out of the interpreter, as text. -/
structure ExceptionReport where
  description : String
  backtrace : List String
deriving DecidableEq, Repr

/-- The description, and a line for each line of the backtrace. -/
def ExceptionReport.message (e : ExceptionReport) : String :=
  e.description ++ String.join (e.backtrace.map fun line => "\n\tfrom " ++ line)

/-- Why an operation failed. -/
inductive Error where
  /-- The interpreter could not be brought up, or is gone. -/
  | setup (reason : String)
  /-- A value was not of the requested type, or did not fit in it. -/
  | badType (reason : String)
  | badIdentifier (kind : IdentifierKind) (name : String)
  | duplicateKeyword (name : String)
  | badParameter (reason : String)
  /-- A non-local exit that is no exception. -/
  | jump (tag : Int)
  | exception (report : ExceptionReport)
deriving DecidableEq, Repr

/-- The text of an error. -/
def Error.message : Error → String
  | setup reason => "Ruby VM setup error: " ++ reason
  | badType reason => "bad type: " ++ reason
  | badIdentifier kind name => s!"bad {kind.text} identifier: '{name}'"
  | duplicateKeyword name => s!"duplicate keyword argument: '{name}'"
  | badParameter reason => "bad parameter: " ++ reason
  | jump tag => s!"unexpected non-local exit, tag {tag} (" ++ tagName tag ++ ")"
  | exception report => report.message

/-- The errors handed out last, oldest first. -/
structure History where
  capacity : Nat
  errors : List Error := []
deriving Repr

namespace History

/-- An empty history; one that could hold nothing holds one error. -/
def ofCapacity (capacity : Nat) : History :=
  ⟨max capacity 1, []⟩

/-- How many errors a history keeps if nothing is said about it. -/
def defaultCapacity : Nat := 12

/-- The history with one more error, without the oldest if it was full. -/
def record (h : History) (error : Error) : History :=
  if h.errors.length = h.capacity then { h with errors := h.errors.drop 1 ++ [error] }
  else { h with errors := h.errors ++ [error] }

/-- The history without its errors. -/
def clear (h : History) : History :=
  { h with errors := [] }

def mostRecent? (h : History) : Option Error :=
  h.errors.getLast?

def length (h : History) : Nat :=
  h.errors.length

def isEmpty (h : History) : Bool :=
  h.errors.isEmpty

end History

end EmbeddedRuby
