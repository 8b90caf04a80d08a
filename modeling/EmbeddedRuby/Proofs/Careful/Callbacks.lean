import EmbeddedRuby.Proofs.Careful.Basic

/-!
# Careful calls and conversions

Calls by name, blocks and procs, texts of objects, constants and the conversions between objects and
numbers are careful, as long as methods are called and programs of the host's are run in a careful way
(`Reentry.Sound`).
-/

namespace EmbeddedRuby

variable {σ : Type} [Handled σ]

/-- The block of a call makes up no handles. -/
def Block.Honest (known : Nat) : Block σ → Prop
  | .none => True
  | .host body _ => ∀ code ∈ body, Closure.Honest known code
  | .proc handle _ => Within known handle

/-- The call makes up no handles. -/
structure Call.Honest (known : Nat) (call : Call σ) : Prop where
  receiver : Within known call.receiver
  args : Within known call.args
  block : call.block.Honest known

/-- A block that is honest about little is honest about more. -/
theorem Block.Honest.mono {known later : Nat} {block : Block σ} (hblock : block.Honest known)
    (hle : known ≤ later) : block.Honest later := by
  cases block with
  | none => trivial
  | host body target => exact fun code hcode => Henceforth.mono (hblock code hcode) hle
  | proc proc target => exact Handled.mono hle hblock

/-- A call that is honest about little is honest about more: what it refers to stays known. -/
theorem Call.Honest.mono {known later : Nat} {call : Call σ} (hcall : call.Honest known)
    (hle : known ≤ later) : call.Honest later :=
  ⟨Handled.mono hle hcall.receiver, Handled.mono hle hcall.args, hcall.block.mono hle⟩

/-- A missing argument is nil, which is always known. -/
theorem Call.Honest.arg {known : Nat} {call : Call σ} (hcall : call.Honest known) (index : Nat) :
    Within known (call.arg index) := by
  unfold Call.arg
  cases hfound : call.args[index]? with
  | none => exact within_nil known
  | some v => exact hcall.args v (List.mem_of_getElem? hfound)

/-- Methods are called and programs are run in a careful way. -/
structure Reentry.Sound (r : Reentry σ) : Prop where
  send : ∀ {known : Nat} {call : Call σ}, call.Honest known → Eval.Careful known (r.send call)
  run : ∀ {known : Nat} {role : Role} {program : Program σ role}, program.Honest known →
    Eval.Careful known (r.run program)

/-- What is read off the raw form was in it. -/
theorem BlockReturn.within_of_ofRaw {known : Nat} {raw : RawReturn} {outcome : BlockReturn}
    (hraw : Within known raw) (hread : ofRaw raw = .ok outcome) : Within known outcome := by
  unfold ofRaw at hread
  split at hread <;> cases hread
  · exact hraw
  · trivial
  · exact hraw
  · exact hraw

/-- The raw form of an outcome holds nothing that the outcome does not. -/
theorem BlockReturn.within_toRaw {known : Nat} {outcome : BlockReturn}
    (houtcome : Within known outcome) : Within known outcome.toRaw := by
  cases outcome with
  | value | breakValue | raise => exact houtcome
  | breakOff => exact within_of_slot?_none (by decide) known

namespace Eval.Careful

variable {r : Reentry σ} {known : Nat}

/-- Reading a text takes no handle from the machine. -/
theorem textOf (v : Value) : Careful known (Eval.textOf v : Eval σ String) :=
  .look fun _ => .pure trivial

/-- Reading bytes takes no handle from the machine. -/
theorem bytesOf (v : Value) : Careful known (Eval.bytesOf v : Eval σ (List UInt8)) := by
  refine Careful.look fun m => ?_
  split
  · exact .pure fun _ _ => trivial
  · exact .raise _

/-- The pair that is stored is known. -/
theorem storeInHash (hash : Value) {key value : Value} (hkey : Within known key)
    (hvalue : Within known value) : Careful known (Eval.storeInHash hash key value : Eval σ Unit) := by
  refine Careful.look fun m => .ite ?_ (.raise _)
  exact .changeMachine fun m _ hknown =>
    .storeInHash hash (Handled.mono hknown hkey) (Handled.mono hknown hvalue)

/-- A class variable that is found is known, since its world is sound. -/
theorem classVar (cls : Value) (id : SymbolId) :
    Careful known (Eval.classVar cls id : Eval σ Value) := by
  refine Careful.inside fun m hm _ => ?_
  split
  · rename_i value hvalue
    exact .pure (hm.closed.classVar hvalue)
  · exact .ite (.raise _) (.raise _)

/-- Whether there is a method is a truth value. -/
theorem respondsTo (receiver : Value) (name : String) :
    Careful known (Eval.respondsTo receiver name : Eval σ Bool) :=
  (Careful.intern name).bind fun _ => .look fun _ => .pure trivial

/-- The number of arguments is a number. -/
theorem checkArity (call : Call σ) (least most : Nat) :
    Careful known (Eval.checkArity call least most) :=
  .ite (.raise _) (.pure trivial)

/-! ### Calls by name -/

/-- A call by name is careful as calls are. -/
theorem sendNamed (hr : r.Sound) {receiver : Value} (hreceiver : Within known receiver)
    (name : String) {args : List Value} (hargs : Within known args) :
    Careful known (r.sendNamed receiver name args) :=
  (Careful.intern name).bind fun _ => hr.send ⟨hreceiver, hargs, trivial⟩

/-- Inspecting gives a text. -/
theorem inspectText (hr : r.Sound) {v : Value} (hv : Within known v) :
    Careful known (r.inspectText v) :=
  (sendNamed hr hv "inspect" (within_of_eq_nil rfl)).bind fun shown => .textOf shown

/-- Displaying gives a text. -/
theorem displayText (hr : r.Sound) {v : Value} (hv : Within known v) :
    Careful known (r.displayText v) := by
  refine Careful.look fun m => .ite (.textOf v) ?_
  exact (sendNamed hr hv "to_s" (within_of_eq_nil rfl)).bind fun shown => .textOf shown

/-- The string of an object is the object, or what a careful call gives. -/
theorem stringOf (hr : r.Sound) {v : Value} (hv : Within known v) :
    Careful known (r.stringOf v) := by
  refine Careful.look fun m => .ite (.pure hv) ?_
  refine (sendNamed hr hv "to_s" (within_of_eq_nil rfl)).keep fun later _ converted hconverted => ?_
  exact .look fun m => .ite (.pure hconverted) (.raise _)

/-- The string that shows an object is what a careful call gives. -/
theorem inspectString (hr : r.Sound) {v : Value} (hv : Within known v) :
    Careful known (r.inspectString v) :=
  (sendNamed hr hv "inspect" (within_of_eq_nil rfl)).keep fun _ _ _ hshown => .stringOf hr hshown

/-- A name is text, whether it is read off a symbol or a string. -/
theorem nameOf (hr : r.Sound) {v : Value} (hv : Within known v) : Careful known (r.nameOf v) := by
  refine Careful.look fun m => ?_
  split
  · exact .pure trivial
  · split
    · exact .pure trivial
    · exact (inspectText hr hv).bind fun _ => .raise _

/-- A constant that is found is known, since its world is sound. -/
theorem constant (hr : r.Sound) {module : Value} (hmodule : Within known module) (id : SymbolId)
    (only : Bool) : Careful known (r.constant module id only) := by
  refine Careful.inside fun m hm hknown => .ite ?_ (.ite ?_ (.raise _))
  · exact (inspectText hr (Handled.mono hknown hmodule)).bind fun _ => .raise _
  · split
    · rename_i value hvalue
      cases only with
      | true => exact .pure (hm.closed.constantAt hvalue)
      | false => exact .pure (hm.closed.constant hvalue)
    · exact .raise _

/-- Each module on a path is known from the one before it. -/
theorem constantPath (hr : r.Sound) {module : Value} (hmodule : Within known module)
    (path : List String) : Careful known (r.constantPath module path) := by
  induction path generalizing known module with
  | nil => exact .pure hmodule
  | cons name rest ih =>
      refine (Careful.intern name).bind fun id => ?_
      exact (constant hr hmodule id false).keep fun _ _ _ hfound => ih hfound

/-! ### Blocks and procs -/

/-- A callback's own code is honest, so what it comes to is known. -/
theorem callbackResult (hr : r.Sound) {callback : Callback σ} {body : Option (Closure σ)}
    {args : List Value} {blockArg : Value}
    (hcallback : ∀ run, callback = .custom run →
      Henceforth known fun later input => (run input).Honest later)
    (hbody : ∀ code ∈ body, Closure.Honest known code) (hargs : Within known args)
    (hblockArg : Within known blockArg) :
    Careful known (r.callbackResult callback body args blockArg) := by
  unfold Reentry.callbackResult
  split
  · rename_i code
    have hcode := hbody code rfl known (Nat.le_refl known) args hargs
    exact (hr.run hcode).keep fun _ _ _ houtcome => .pure (BlockReturn.within_toRaw houtcome)
  · exact .exhausted
  · rename_i run
    exact hr.run (hcallback run rfl known (Nat.le_refl known) _ ⟨hargs, hblockArg⟩)

/-- Entering a callback is careful: a panic that is stopped carries no handle. -/
theorem enterCallback (hr : r.Sound) (kind : CallbackKind) {body : Option (Closure σ)}
    {args : List Value} {blockArg : Value} (hbody : ∀ code ∈ body, Closure.Honest known code)
    (hargs : Within known args) (hblockArg : Within known blockArg) :
    Careful known (r.enterCallback kind body args blockArg) := by
  refine Careful.insideWorld fun w hw hknown => ?_
  split
  · exact .raise _
  · rename_i callback hcallback
    have hrun : Careful w.machine.heap.slots.size (r.callbackResult callback body args blockArg) := by
      refine callbackResult hr (fun run hrun => ?_) (fun code hcode => ?_)
        (Handled.mono hknown hargs) (Handled.mono hknown hblockArg)
      · rw [hrun] at hcallback
        exact hw.callbacks hcallback
      · exact Henceforth.mono (hbody code hcode) hknown
    refine (Careful.catchPanic hrun).keep fun later _ answer hanswer => ?_
    split
    · rename_i p
      have hpark : Careful later (modify fun w => w.park p : Eval σ PUnit) :=
        .change fun w hw _ => ⟨.refl _, hw.machine, hw.memory, hw.bodies, hw.callbacks⟩
      exact hpark.bind fun _ => .raise _
    · rename_i raw
      have hread : ∀ outcome, BlockReturn.ofRaw raw = .ok outcome → Within later outcome :=
        fun _ => BlockReturn.within_of_ofRaw hanswer
      split
      · rename_i v hv
        exact .pure (hread _ hv)
      · exact .breakOut (within_nil later)
      · rename_i v hv
        exact .breakOut (hread _ hv)
      · rename_i exception hraise
        exact .raiseObject (hread _ hraise)
      · exact .raise _

/-- The body of a proc is honest, since the world in which the proc is found is sound. -/
theorem callProc (hr : r.Sound) (proc : Value) {args : List Value} (hargs : Within known args)
    (target : Option Nat) {blockArg : Value} (hblockArg : Within known blockArg) :
    Careful known (r.callProc proc args target blockArg) := by
  refine Careful.look fun m => ?_
  split
  · rename_i code _
    refine Careful.insideWorld fun w hw hknown => .asBlock target args ?_
    refine enterCallback hr .proc (fun body hbody => ?_) (Handled.mono hknown hargs)
      (Handled.mono hknown hblockArg)
    exact hw.bodies hbody
  · exact Careful.look fun _ => .raise _

/-- Yielding is careful where the call is honest about its block. -/
theorem yieldBlock (hr : r.Sound) {call : Call σ} (hblock : call.block.Honest known)
    {args : List Value} (hargs : Within known args) : Careful known (r.yieldBlock call args) := by
  unfold Reentry.yieldBlock
  split
  · exact .raise _
  · rename_i body target hhost
    rw [hhost] at hblock
    exact .asBlock _ args (enterCallback hr .block hblock hargs (within_nil known))
  · rename_i proc target hproc
    exact callProc hr proc hargs _ (within_nil known)

/-- A method is called with a block for an iteration of its own. -/
theorem iteration (hr : r.Sound) {call : Nat → Call σ} (hcall : ∀ target, (call target).Honest known) :
    Careful known (do
      let target ← Eval.newTarget
      Eval.iterate target (r.send (call target))) :=
  Careful.newTarget.bind fun target => .iterate target (hr.send (hcall target))

/-! ### Conversions -/

/-- The integer part of a Float is made, not found. -/
theorem integerPart (x : Double) : Careful known (Reentry.integerPart x : Eval σ Value) := by
  unfold Reentry.integerPart
  split
  · exact .newInteger _
  · exact .raise _

/-- The name of a method is text. -/
theorem firstMethod? (v : Value) (methods : List String) :
    Careful known (Reentry.firstMethod? v methods : Eval σ (Option String)) := by
  induction methods with
  | nil => exact .pure fun _ _ => trivial
  | cons name rest ih =>
      exact (respondsTo v name).bind fun _ => .ite (.pure fun _ _ => trivial) ih

/-- What a conversion gives is what a careful call gives. -/
theorem convertBy (hr : r.Sound) {v : Value} (hv : Within known v) (methods : List String)
    (target : String) (accepts : ValueType → Bool) :
    Careful known (r.convertBy v methods target accepts) := by
  refine Careful.look fun m => (firstMethod? v methods).bind fun method => ?_
  split
  · exact .raise _
  · refine (sendNamed hr hv _ (within_of_eq_nil rfl)).keep fun later _ converted hconverted => ?_
    exact .look fun m => .ite (.pure hconverted) (.raise _)

/-- An Integer is the object itself, a new one, or what a conversion gives. -/
theorem toInteger (hr : r.Sound) {v : Value} (hv : Within known v) :
    Careful known (r.toInteger v) := by
  refine Careful.look fun m => ?_
  split
  · exact .pure hv
  · exact .pure hv
  · exact integerPart _
  · dsimp only
    split
    · exact .newInteger _
    · exact .raise _
  · exact .raise _
  · exact convertBy hr hv _ _ _

/-- A Float is the object itself, a new one, or what a conversion gives. -/
theorem toFloat (hr : r.Sound) {v : Value} (hv : Within known v) :
    Careful known (r.toFloat v) := by
  have hnumber : Careful known (Eval.onMachine fun m =>
      m.newFloat (Double.ofInt ((m.heap.int? v).getD 0)) : Eval σ Value) :=
    .onMachine fun m hm _ => ⟨⟨m.develops_newFloat hm.core _, rfl, rfl⟩, m.heap.knows_alloc _ _⟩
  refine Careful.look fun m => ?_
  split
  · exact .pure hv
  · exact hnumber
  · exact hnumber
  · dsimp only
    split
    · exact .newFloat _
    · exact .raise _
  · exact .raise _
  · exact .raise _
  · exact .raise _
  · exact convertBy hr hv _ _ _

/-- A refusal makes its own exception. -/
theorem refuseInteger {α : Type} [Handled α] (v : Value) :
    Careful known (Reentry.refuseInteger v : Eval σ α) :=
  .look fun _ => .ite (.raise _) (.raise _)

/-- A number is read off the object, or off what `to_int` gives. -/
theorem numberOf (hr : r.Sound) {v : Value} (hv : Within known v) :
    Careful known (r.numberOf v) := by
  have hrefuse : Careful known (Reentry.refuseInteger v : Eval σ (Int ⊕ Double)) := refuseInteger v
  refine Careful.look fun m => ?_
  split
  · exact .pure trivial
  · exact .pure trivial
  · split
    · exact hrefuse
    · exact hrefuse
    · exact hrefuse
    · refine (respondsTo v "to_int").bind fun _ => .ite ?_ hrefuse
      refine (sendNamed hr hv "to_int" (within_of_eq_nil rfl)).bind fun converted => .look fun m => ?_
      split
      · exact .pure trivial
      · exact hrefuse

/-- A word with sign is a number. -/
theorem toLong (hr : r.Sound) {v : Value} (hv : Within known v) : Careful known (r.toLong v) := by
  refine (numberOf hr hv).bind fun number => ?_
  split
  · exact .ite (.pure trivial) (.raise _)
  · split
    · exact .ite (.pure trivial) (.raise _)
    · exact .raise _

/-- A word without sign is a number. -/
theorem toUnsignedLong (hr : r.Sound) {v : Value} (hv : Within known v) :
    Careful known (r.toUnsignedLong v) := by
  refine (numberOf hr hv).bind fun number => ?_
  split
  · exact .ite (.pure trivial) (.raise _)
  · split
    · exact .ite (.pure trivial) (.raise _)
    · exact .raise _

/-- A double is a number. -/
theorem toDouble (v : Value) : Careful known (Reentry.toDouble v : Eval σ Double) := by
  refine Careful.look fun m => ?_
  split
  · exact .pure trivial
  · exact .pure trivial
  · split <;> exact .raise _

/-- Each round converts an object that is known, by induction on the rounds left. -/
theorem coerce (hr : r.Sound) (rounds : Nat) {v : Value} (hv : Within known v) :
    Careful known (r.coerce rounds v) := by
  induction rounds generalizing known v with
  | zero => exact .exhausted
  | succ rounds ih =>
      refine Careful.look fun m => ?_
      split
      · exact .pure hv
      · exact .pure hv
      · exact .pure hv
      · exact .pure hv
      · exact (toInteger hr hv).keep fun _ _ _ hconverted => ih hconverted

/-- What is coerced is known, and is read without sign. -/
theorem toUnsigned (hr : r.Sound) {v : Value} (hv : Within known v) :
    Careful known (r.toUnsigned v) :=
  (coerce hr r.rounds hv).keep fun _ _ _ hnumber => .look fun _ =>
    .ite (.raise _) (toUnsignedLong hr hnumber)

end Eval.Careful

end EmbeddedRuby
