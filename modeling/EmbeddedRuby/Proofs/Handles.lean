import EmbeddedRuby.Proofs.HashKeys
import EmbeddedRuby.Vm.Run

/-!
# Handles

A word that refers to a slot of the heap is a handle.  The interpreter gives out handles for slots
that it has filled; the slots are filled in order, so what can be known at a moment is the slots below
some number.  `Within known a` says that all words in the data `a` that are handles are for slots below
`known`.  At a moment when the heap has that many slots, such a handle is no forgery (`Heap.Knows` is
`Within` for the size of the heap).

A program of the host's is **honest** (`Program.Honest`) if it makes up no handles: what it passes on
is within what was known when it started and what the answers since then have shown.  The same goes
for the methods of the host's (`Routine.Honest`) and for the bodies that it hands over.

More being known does no harm (`Handled.mono`).
-/

namespace EmbeddedRuby

/-- Data in which there may be handles. -/
class Handled (α : Type) where
  /-- All handles in the data are for slots below `known`. -/
  Within (known : Nat) (a : α) : Prop
  mono {known later : Nat} {a : α} (hle : known ≤ later) (ha : Within known a) : Within later a

export Handled (Within)

/-! ### Data -/

namespace Handled

/-- Data without handles. -/
@[reducible] def plain (α : Type) : Handled α where
  Within _ _ := True
  mono _ _ := trivial

instance : Handled Empty := plain Empty
instance : Handled Unit := plain Unit
instance : Handled Bool := plain Bool
instance : Handled Nat := plain Nat
instance : Handled Int := plain Int
instance : Handled UInt8 := plain UInt8
instance : Handled Char := plain Char
instance : Handled String := plain String
instance : Handled Double := plain Double
instance : Handled Single := plain Single
instance : Handled Number := plain Number
instance : Handled SymbolId := plain SymbolId
instance : Handled ValueType := plain ValueType
instance : Handled VmState := plain VmState
instance : Handled Counts := plain Counts
instance : Handled Panic := plain Panic
instance : Handled Error := plain Error
instance : Handled ExceptionReport := plain ExceptionReport

/-- A machine is looked at, but no handles are taken from it unless this is said. -/
instance : Handled Machine := plain Machine

/-- A word is a handle if it refers to a slot. -/
instance : Handled Value where
  Within known v := ∀ index, v.slot? = some index → index < known
  mono hle hv index hindex := Nat.lt_of_lt_of_le (hv index hindex) hle

variable {α β : Type} [Handled α] [Handled β]

instance : Handled (List α) where
  Within known items := ∀ a ∈ items, Within known a
  mono hle hitems a ha := mono hle (hitems a ha)

instance : Handled (Option α) where
  Within known a? := ∀ a ∈ a?, Within known a
  mono hle ha? a ha := mono hle (ha? a ha)

instance : Handled (α × β) where
  Within known pair := Within known pair.1 ∧ Within known pair.2
  mono hle hpair := ⟨mono hle hpair.1, mono hle hpair.2⟩

instance : Handled (α ⊕ β) where
  Within known
    | .inl a => Within known a
    | .inr b => Within known b
  mono {_ _ a} hle ha := by
    cases a <;> exact mono hle ha

instance : Handled (Except α β) where
  Within known
    | .ok b => Within known b
    | .error a => Within known a
  mono {_ _ a} hle ha := by
    cases a <;> exact mono hle ha

instance {κ : Type} [Handled κ] : Handled (Table κ α) where
  Within known t := Within known t.entries
  mono hle ht := mono hle ht

/-! ### What the interpreter keeps -/

instance : Handled ModuleData where
  Within known data :=
    Within known data.superclass ∧ Within known data.constants ∧ Within known data.classVars
  mono hle hdata := ⟨mono hle hdata.1, mono hle hdata.2.1, mono hle hdata.2.2⟩

instance : Handled Body where
  Within known
    | .array items => Within known items
    | .hash pairs => Within known pairs
    | .ofModule data => Within known data
    | .exception message backtrace => Within known (message, backtrace)
    | .float _ | .bignum _ | .string _ | .plain | .proc _ => True
  mono {_ _ body} hle hbody := by
    cases body with
    | float | bignum | string | plain | proc => trivial
    | array | hash | ofModule | exception => exact mono hle hbody

instance : Handled Slot where
  Within known slot := Within known slot.cls ∧ Within known slot.body
  mono hle hslot := ⟨mono hle hslot.1, mono hle hslot.2⟩

/-! ### How runs end -/

instance : Handled Jump where
  Within known
    | .breakTo _ value => Within known value
    | .raised exception => Within known exception
  mono {_ _ jump} hle hjump := by
    cases jump <;> exact mono hle hjump

instance : Handled Exit where
  Within known
    | .jump jump => Within known jump
    | .panic _ | .exhausted => True
  mono {_ _ exit} hle hexit := by
    cases exit with
    | jump jump => exact mono hle hexit
    | panic | exhausted => trivial

instance : Handled Failure where
  Within known
    | .refused _ => True
    | .exited jump => Within known jump
  mono {_ _ failure} hle hfailure := by
    cases failure with
    | refused => trivial
    | exited jump => exact mono hle hfailure

instance : Handled BlockReturn where
  Within known
    | .value v | .breakValue v | .raise v => Within known v
    | .breakOff => True
  mono {_ _ outcome} hle houtcome := by
    cases outcome with
    | value | breakValue | raise => exact mono hle houtcome
    | breakOff => trivial

instance : Handled RawReturn where
  Within known raw := Within known raw.value
  mono hle hraw := mono hle hraw

/-! ### What is asked for -/

instance : Handled Datum where
  Within known
    | .array items => Within known items
    | .hash pairs => Within known pairs
    | .int _ | .float _ | .string _ | .symbol _ => True
  mono {_ _ datum} hle hdatum := by
    cases datum with
    | int | float | string | symbol => trivial
    | array | hash => exact mono hle hdatum

end Handled

/-- The words that a task is given. -/
def Task.values : Task → List Value
  | load v _ | constant v _ | constantAt v _ | classVar v _ | toUnsigned v | toSigned v
  | toDouble v | inspectBytes v | stringBytes v | integer v | float v | long v | unsignedLong v
  | doubleOf v | inspect v | string v | bytes v | floatNumber v | isNegative v | raise v
  | breakOut v => [v]
  | call receiver _ args _ | callWithBareBlock receiver _ args => receiver :: args
  | callWithProc receiver _ args proc => receiver :: proc :: args
  | callProc proc args block => proc :: block :: args
  | keywordHash pairs => pairs.map Prod.snd
  | storeInHash hash key value => [hash, key, value]
  | intern _ | raiseTypeError _ | raiseRuntimeError _ | panic _ => []

/-- The words that an operation is given. -/
def Operation.values : Operation → List Value
  | setup _ | cleanUp | state | errors | mostRecentError | clearErrors | raise _ | version
  | description | objectClass | internedName _ | load .. | constant _ | newException .. | writeInt ..
  | writeDouble _ | writeSingle _ | writeBool _ | writeText _ | unpin _ => []
  | constantIn v _ | constantAt v _ | classVar v _ | inspect v | toText v | toUnsigned v | toSigned v
  | toDouble v | readInt _ v | readDouble v | readSingle v | readBool v | readText v | pin v => [v]
  | call receiver _ args => receiver :: args
  | callWithKeywords receiver _ args keywords => receiver :: (args ++ keywords.map Prod.snd)
  | callWithProc receiver _ args proc => receiver :: proc :: args
  | callProc proc args block => proc :: (block.toList ++ args)

namespace Handled

instance : Handled Task where
  Within known task := Within known task.values
  mono hle htask := mono hle htask

instance : Handled Operation where
  Within known operation := Within known operation.values
  mono hle hoperation := mono hle hoperation

instance : Handled Invocation where
  Within known invocation := Within known invocation.receiver ∧ Within known invocation.args
  mono hle h := ⟨mono hle h.1, mono hle h.2⟩

instance : Handled CallbackInput where
  Within known input := Within known input.args ∧ Within known input.blockArg
  mono hle h := ⟨mono hle h.1, mono hle h.2⟩

/-! ### What is answered -/

instance result : (task : Task) → Handled task.Result
  | .load .. | .constant .. | .constantAt .. | .classVar .. | .call .. | .callWithProc ..
  | .callWithBareBlock .. | .callProc .. | .keywordHash _ | .integer _ | .float _ | .inspect _
  | .string _ => inferInstanceAs (Handled Value)
  | .intern _ => inferInstanceAs (Handled SymbolId)
  | .toUnsigned _ | .unsignedLong _ => inferInstanceAs (Handled Nat)
  | .toSigned _ | .long _ => inferInstanceAs (Handled Int)
  | .toDouble _ | .doubleOf _ | .floatNumber _ => inferInstanceAs (Handled Double)
  | .inspectBytes _ | .stringBytes _ | .bytes _ => inferInstanceAs (Handled (List UInt8))
  | .storeInHash .. => inferInstanceAs (Handled Unit)
  | .isNegative _ => inferInstanceAs (Handled Bool)
  | .raiseTypeError _ | .raiseRuntimeError _ | .raise _ | .breakOut _ | .panic _ =>
    inferInstanceAs (Handled Empty)

instance reply : (operation : Operation) → Handled operation.Reply
  | .setup _ => inferInstanceAs (Handled (Except Error Bool))
  | .cleanUp => inferInstanceAs (Handled Int)
  | .state => inferInstanceAs (Handled VmState)
  | .errors => inferInstanceAs (Handled (List Error))
  | .mostRecentError => inferInstanceAs (Handled (Option Error))
  | .clearErrors | .unpin _ => inferInstanceAs (Handled Unit)
  | .raise _ => inferInstanceAs (Handled Error)
  | .version | .description | .inspect _ | .toText _ => inferInstanceAs (Handled (Except Error String))
  | .objectClass | .constant _ | .constantIn .. | .constantAt .. | .classVar .. | .call ..
  | .callWithKeywords .. | .callWithProc .. | .callProc .. | .newException .. | .writeInt ..
  | .writeDouble _ | .writeSingle _ | .writeBool _ | .writeText _ =>
    inferInstanceAs (Handled (Except Error Value))
  | .internedName _ => inferInstanceAs (Handled (Except Error SymbolId))
  | .load .. => inferInstanceAs (Handled (Except Error Unit))
  | .toUnsigned _ => inferInstanceAs (Handled (Except Error Nat))
  | .toSigned _ => inferInstanceAs (Handled (Except Error Int))
  | .toDouble _ => inferInstanceAs (Handled (Except Error Double))
  | .readInt .. => inferInstanceAs (Handled (Option Int))
  | .readDouble _ => inferInstanceAs (Handled (Option Double))
  | .readSingle _ => inferInstanceAs (Handled (Option Single))
  | .readBool _ => inferInstanceAs (Handled (Option Bool))
  | .readText _ => inferInstanceAs (Handled (Option String))
  | .pin _ => inferInstanceAs (Handled (Except Error Nat))

instance probed : (probe : Probe) → Handled probe.Reply
  | .make _ | .pending => inferInstanceAs (Handled Value)
  | .typeOf _ => inferInstanceAs (Handled ValueType)
  | .setPending _ | .define .. => inferInstanceAs (Handled Unit)
  | .attempt task => inferInstanceAs (Handled (Except Int task.Result))
  | .counts => inferInstanceAs (Handled Counts)
  | .takePrinted => inferInstanceAs (Handled String)
  | .options _ => inferInstanceAs (Handled Bool)
  | .internedName _ => inferInstanceAs (Handled SymbolId)

instance role : (role : Role) → Handled role.Result
  | .block => inferInstanceAs (Handled BlockReturn)
  | .callback => inferInstanceAs (Handled RawReturn)
  | .main => inferInstanceAs (Handled Unit)

end Handled

/-! ### Code -/

/-- The property holds from now on of all data within what is known at its time. -/
def Henceforth {α : Type} [Handled α] (known : Nat) (P : Nat → α → Prop) : Prop :=
  ∀ later, known ≤ later → ∀ a, Within later a → P later a

theorem Henceforth.mono {α : Type} [Handled α] {known later : Nat} {P : Nat → α → Prop}
    (hP : Henceforth known P) (hle : known ≤ later) : Henceforth later P :=
  fun last hlast => hP last (Nat.le_trans hle hlast)

/-- The method of the host's makes up no handles. -/
def Routine.Honest (known : Nat) : Routine → Prop
  | .done value => Handled.Within known value
  | .panic _ => True
  | .perform task next =>
    Handled.Within known task ∧ Henceforth known fun later result => (next result).Honest later
  | .send receiver _ args next =>
    Handled.Within known (receiver, args) ∧ Henceforth known fun later value => (next value).Honest later
  | .yield args next =>
    Handled.Within known args ∧ Henceforth known fun later value => (next value).Honest later
  | .make datum next =>
    Handled.Within known datum ∧ Henceforth known fun later value => (next value).Honest later

/-- Neither the probe nor a method that it defines makes up handles. -/
def Probe.Honest (known : Nat) : Probe → Prop
  | .make datum => Within known datum
  | .typeOf value | .setPending value => Within known value
  | .attempt task => Within known task
  | .define _ _ body => Henceforth known fun later invocation => (body invocation).Honest later
  | .pending | .counts | .takePrinted | .options _ | .internedName _ => True

variable {σ : Type} [Handled σ]

/-- The program makes up no handles, and neither does the code that it hands over.  What it puts in the
host's memory is known too. -/
def Program.Honest : {role : Role} → Nat → Program σ role → Prop
  | _, known, .done result => Within known result
  | _, _, .panic _ => True
  | _, known, .recall next => Henceforth known fun later memory => (next memory).Honest later
  | _, known, .remember memory next => Within known memory ∧ next.Honest known
  | _, known, .ask operation next =>
    Within known operation ∧ Henceforth known fun later answer => (next answer).Honest later
  | _, known, .probe request next =>
    request.Honest known ∧ Henceforth known fun later answer => (next answer).Honest later
  | _, known, .callWithBlock receiver _ args body next =>
    Within known (receiver, args) ∧ (Henceforth known fun later args => (body args).Honest later) ∧
      Henceforth known fun later answer => (next answer).Honest later
  | _, known, .newProc body next =>
    (Henceforth known fun later args => (body args).Honest later) ∧
      Henceforth known fun later answer => (next answer).Honest later
  | _, known, .register _ callback next =>
    (Henceforth known fun later input => (callback input).Honest later) ∧
      Henceforth known fun later answer => (next answer).Honest later

/-- A body of the host's that makes up no handles, whatever it is given. -/
def Closure.Honest (known : Nat) (body : Closure σ) : Prop :=
  Henceforth known fun later args => (body args).Honest later

end EmbeddedRuby
