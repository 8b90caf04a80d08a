import EmbeddedRuby.Host.Error
import EmbeddedRuby.Text.Utf8

/-!
# How the interpreter is started

`BootInfo` is what the host wants of a new interpreter, and `BootInfo.arguments` the command line
that says so: the name of the program, the options, and an empty program, which keeps the
interpreter from reading one from elsewhere.  An argument with a NUL cannot be passed on.
-/

namespace EmbeddedRuby

/-- What the host wants of a new interpreter. -/
structure BootInfo where
  programName : Option String := none
  loadPaths : List String := []
  disableGems : Bool := false
  extraArgs : List String := []
deriving Repr

namespace BootInfo

/-- The name of the program if the host gives none. -/
def defaultProgramName : String := "rubygate"

/-- The command line. -/
def commandLine (info : BootInfo) : List String :=
  [info.programName.getD defaultProgramName] ++
    (if info.disableGems then ["--disable-gems"] else []) ++
    info.loadPaths.map ("-I" ++ ·) ++ info.extraArgs ++ ["-e", ""]

/-- Where the first NUL of a text is, in bytes. -/
def nulPosition? (text : String) : Option Nat :=
  (Utf8.encodeString text).findIdx? (· == 0)

/-- The command line, if no argument has a NUL. -/
def arguments (info : BootInfo) : Except Error (List String) :=
  match info.commandLine.findSome? nulPosition? with
  | some position =>
    .error (.badParameter (s!"bootstrap argument contains NUL: nul byte found in provided data " ++
      s!"at position: {position}"))
  | none => .ok info.commandLine

end BootInfo

end EmbeddedRuby
