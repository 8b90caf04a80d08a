import EmbeddedRuby.Proofs.Accounts.Operations
import EmbeddedRuby.Vm.Run

/-!
# Accounts of requests

A `Request` is one call of the host's into the interpreter: an operation, or one of the three calls
that hand over code.  The requests that can fail are the settling of an operation (`Vm.Fallible`,
`Request.exists_operation`).  All operations but two take their steps one after the other: one fills
the place of a callback, and the other asks for the text of an object before it fails, and drops the
error that this may end with.

What an account tells of all that a program of the host's may do (`Account.ProgramRules`) it tells of
each request, and no jump comes out of one (`Request.told_answer`).
-/

namespace EmbeddedRuby

open Eval

variable {σ : Type}

/-- The rules of an account of what a program does that uses the probes that `P` allows. -/
structure Account.ProgramRules (S : Account σ) (P : Probe → Prop) : Prop
    extends Account.OperationRules S (Closure.Uses P) where
  record : ∀ (w : World σ) (error : Error), S w .value (w.recorded error)
  clearErrors : ∀ w : World σ, S w .value { w with history := w.history.clear }
  remember : ∀ (w : World σ) (memory : σ), S w .value { w with memory }
  unboxed : ∀ (w : World σ) {root : Nat}, root ∈ w.boxes → S w .value (w.unboxed root)
  cleanUp : ∀ {w : World σ}, w.state = .up → S w .value w.takenDown
  /-- A callback fills an empty place. -/
  register : ∀ {w : World σ} {kind : CallbackKind} {run : CallbackInput → Program σ .callback},
    w.callback kind = none → (∀ input, Program.Uses P (run input)) →
      S w .value (w.setCallback kind (.custom run))
  /-- A panic is given to the host's code that asked for what has panicked. -/
  caught : ∀ {w w₁ : World σ} {p : Panic}, S w (.panic p) w₁ → S w .value w₁
  probe : ∀ {w w' : World σ} {probe : Probe}, P probe → probe.Step w w' → S w .value w'
  counted : ∀ {name : String}, P (.attempt (.intern name)) → ∀ w : World σ,
    S w .value (w.onMachine fun m => { m with internCalls := m.internCalls + 1 })
  /-- A jump is stopped at the barrier of a probe. -/
  attempted : ∀ {w w₁ : World σ} {task : Task} {jump : Jump}, P (.attempt task) →
    S w (.jump jump) w₁ → S w .value (w₁.restored w)

namespace Vm

variable {α : Type} {P : Probe → Prop} {S : Account σ} {r : Reentry σ}

/-! ### The operations that can fail -/

/-- The operations that can fail. -/
inductive Fallible (P : Probe → Prop) (r : Reentry σ) : {α : Type} → Checked σ α → Prop
  | setup (info : BootInfo) : Fallible P r (setup info)
  | version : Fallible P r (do ensureSetup; return version)
  | description : Fallible P r (do ensureSetup; return description)
  | objectClass : Fallible P r objectClass
  | internedName (name : String) : Fallible P r (internedName r name)
  | register (kind : CallbackKind) {run : CallbackInput → Program σ .callback}
      (hrun : ∀ input, Program.Uses P (run input)) : Fallible P r (register kind (.custom run))
  | load (path : List UInt8) (wrap : Bool) : Fallible P r (load r path wrap)
  | constant (path : String) : Fallible P r (constant r path)
  | constantIn (module : Value) (name : String) : Fallible P r (constantIn r module name)
  | constantAt (module : Value) (name : String) : Fallible P r (constantAt r module name)
  | classVar (cls : Value) (name : String) : Fallible P r (classVar r cls name)
  | call (receiver : Value) (method : String) (args : List Value) :
      Fallible P r (call r receiver method args)
  | callWithKeywords (receiver : Value) (method : String) (args : List Value)
      (keywords : List (String × Value)) :
      Fallible P r (callWithKeywords r receiver method args keywords)
  | callWithBlock (receiver : Value) (method : String) (args : List Value) {body : Closure σ}
      (hbody : Closure.Uses P body) : Fallible P r (callWithBlock r receiver method args body)
  | callWithProc (receiver : Value) (method : String) (args : List Value) (proc : Value) :
      Fallible P r (callWithProc r receiver method args proc)
  | callProc (proc : Value) (args : List Value) (block : Option Value) :
      Fallible P r (callProc r proc args block)
  | newProc {body : Closure σ} (hbody : Closure.Uses P body) : Fallible P r (newProc body)
  | newException (cls message : String) : Fallible P r (newException r cls message)
  | inspect (v : Value) : Fallible P r (inspect r v)
  | toText (v : Value) : Fallible P r (toText r v)
  | toUnsigned (v : Value) : Fallible P r (toUnsigned r v)
  | toSigned (v : Value) : Fallible P r (toSigned r v)
  | toDouble (v : Value) : Fallible P r (toDouble r v)
  | readInt (type : IntType) (v : Value) : Fallible P r (readInt r type v)
  | readSingle (v : Value) : Fallible P r (readSingle r v)
  | readBool (v : Value) : Fallible P r (readBool r v)
  | write (datum : Datum) : Fallible P r (write datum)
  | writeBool (b : Bool) : Fallible P r (writeBool b)
  | pin : Fallible P r pin

/-- Filling the place of a callback is told of, and so is refusing to. -/
theorem told_register (hS : S.ProgramRules P) (kind : CallbackKind)
    {run : CallbackInput → Program σ .callback} (hrun : ∀ input, Program.Uses P (run input))
    (w : World σ) : ToldChecked S (register kind (.custom run)) w := by
  unfold register
  refine .get_bind ?_
  cases hempty : w.callback kind with
  | some callback =>
      refine told_fail hS.toRules ?_ w
      trivial
  | none => exact hS.register hempty hrun

/-- Reading a truth value is told of, though the text that it asks for may be dropped. -/
theorem told_readBool (hS : S.ProgramRules P) (hr : r.ToldBy S (Closure.Uses P))
    (htask : ∀ task : Task, task.IsUncounted → ToldBy S (perform r task)) (v : Value)
    (w : World σ) : ToldChecked S (readBool r v) w := by
  have hanswered := (Stepwise.inspect v).settled hS.toOperationRules hr htask w
  have hfail : ∀ reason w₁, ToldChecked S (fail (.badType reason) : Checked σ Bool) w₁ :=
    fun reason => told_fail hS.toRules trivial
  unfold readBool
  split
  · exact hS.done w
  split
  · exact hS.done w
  refine .of_eq (run_lift_bind_apply (settled r (inspect r v)) _ w) ?_
  rw [bind_apply]
  cases hrun : settled r (inspect r v) w with
  | error exit w₁ =>
      rw [hrun] at hanswered
      exact hanswered
  | ok answer w₁ =>
      rw [hrun] at hanswered
      cases answer with
      | ok text => exact Ended.seq hS.toRules hanswered (hfail _ w₁)
      | error error =>
          obtain ⟨u, hu, rfl⟩ := hanswered
          have hdropped := hS.seq hu (hS.record u error)
          exact Ended.seq hS.toRules hdropped (hfail _ _)

/-- Each operation that can fail is told of. -/
theorem Fallible.told (hS : S.ProgramRules P) (hr : r.ToldBy S (Closure.Uses P))
    (htask : ∀ task : Task, task.IsUncounted → ToldBy S (perform r task)) {operation : Checked σ α}
    (h : Fallible P r operation) (w : World σ) : ToldChecked S operation w := by
  have stepwise : ∀ {β : Type} {other : Checked σ β}, Stepwise r (Closure.Uses P) other →
      ToldChecked S other w := fun hother => hother.told hS.toOperationRules hr htask w
  cases h with
  | register kind hrun => exact told_register hS kind hrun w
  | readBool v => exact told_readBool hS hr htask v w
  | setup info => exact stepwise (.setup info)
  | version | description => exact stepwise (Stepwise.ensureSetup.bind fun _ => .pure _)
  | objectClass => exact stepwise .objectClass
  | internedName name => exact stepwise (.internedName name)
  | load path wrap => exact stepwise (.load path wrap)
  | constant path => exact stepwise (.constant path)
  | constantIn module name => exact stepwise (.constantIn module name)
  | constantAt module name => exact stepwise (.constantAt module name)
  | classVar cls name => exact stepwise (.classVar cls name)
  | call receiver method args => exact stepwise (.call receiver method args)
  | callWithKeywords receiver method args keywords =>
      exact stepwise (.callWithKeywords receiver method args keywords)
  | callWithBlock receiver method args hbody =>
      exact stepwise (.callWithBlock receiver method args hbody)
  | callWithProc receiver method args proc =>
      exact stepwise (.callWithProc receiver method args proc)
  | callProc proc args block => exact stepwise (.callProc proc args block)
  | newProc hbody => exact stepwise (.newProc hbody)
  | newException cls message => exact stepwise (.newException cls message)
  | inspect v => exact stepwise (.inspect v)
  | toText v => exact stepwise (.toText v)
  | toUnsigned v => exact stepwise (.toUnsigned v)
  | toSigned v => exact stepwise (.toSigned v)
  | toDouble v => exact stepwise (.toDouble v)
  | readInt type v => exact stepwise (.readInt type v)
  | readSingle v => exact stepwise (.readSingle v)
  | write datum => exact stepwise (.write datum)
  | writeBool b => exact stepwise (.writeBool b)
  | pin => exact stepwise .pin

end Vm

open Vm

variable {α : Type} {P : Probe → Prop} {S : Account σ} {r : Reentry σ}

/-- One call of the host's. -/
inductive Request (σ : Type) where
  | operation (op : Operation)
  | callWithBlock (receiver : Value) (method : String) (args : List Value) (body : Closure σ)
  | newProc (body : Closure σ)
  | register (kind : CallbackKind) (run : CallbackInput → Program σ .callback)

namespace Request

/-- The type of the answer. -/
def Reply : Request σ → Type
  | operation op => op.Reply
  | callWithBlock .. | newProc _ => Except Error Value
  | register .. => Except Error Unit

/-- Carry out a request. -/
def answer (r : Reentry σ) : (request : Request σ) → Eval σ request.Reply
  | operation op => op.answer r
  | callWithBlock receiver method args body =>
    Vm.settled r (Vm.callWithBlock r receiver method args body)
  | newProc body => Vm.settled r (Vm.newProc body)
  | register kind run => Vm.settled r (Vm.register kind (.custom run))

/-- The code that is handed over uses no probes but those that `P` allows. -/
def Uses (P : Probe → Prop) : Request σ → Prop
  | operation _ => True
  | callWithBlock _ _ _ body | newProc body => Closure.Uses P body
  | register _ run => ∀ input, Program.Uses P (run input)

/-- Can it go wrong?  What only looks at the host's side of the border, or takes the interpreter
down, cannot. -/
def CanFail : Request σ → Prop
  | operation .cleanUp | operation .state | operation .errors | operation .mostRecentError
  | operation .clearErrors | operation (.raise _) | operation (.unpin _) => False
  | _ => True

/-- What can fail is the settling of an operation, up to the form of the answer. -/
theorem exists_operation (request : Request σ) (hrequest : request.Uses P)
    (hfail : request.CanFail) :
    ∃ (α : Type) (operation : Checked σ α) (reply : Except Error α → request.Reply),
      Fallible P r operation ∧ request.answer r = reply <$> settled r operation := by
  cases request with
  | callWithBlock receiver method args body =>
      exact ⟨_, _, id, .callWithBlock receiver method args hrequest, (id_map _).symm⟩
  | newProc body => exact ⟨_, _, id, .newProc hrequest, (id_map _).symm⟩
  | register kind run => exact ⟨_, _, id, .register kind hrequest, (id_map _).symm⟩
  | operation op =>
      cases op with
      | setup info => exact ⟨_, _, id, .setup info, (id_map _).symm⟩
      | version => exact ⟨_, _, id, .version, (id_map _).symm⟩
      | description => exact ⟨_, _, id, .description, (id_map _).symm⟩
      | objectClass => exact ⟨_, _, id, .objectClass, (id_map _).symm⟩
      | internedName name => exact ⟨_, _, id, .internedName name, (id_map _).symm⟩
      | load path wrap => exact ⟨_, _, id, .load path wrap, (id_map _).symm⟩
      | constant path => exact ⟨_, _, id, .constant path, (id_map _).symm⟩
      | constantIn module name => exact ⟨_, _, id, .constantIn module name, (id_map _).symm⟩
      | constantAt module name => exact ⟨_, _, id, .constantAt module name, (id_map _).symm⟩
      | classVar cls name => exact ⟨_, _, id, .classVar cls name, (id_map _).symm⟩
      | call receiver method args =>
          exact ⟨_, _, id, .call receiver method args, (id_map _).symm⟩
      | callWithKeywords receiver method args keywords =>
          exact ⟨_, _, id, .callWithKeywords receiver method args keywords, (id_map _).symm⟩
      | callWithProc receiver method args proc =>
          exact ⟨_, _, id, .callWithProc receiver method args proc, (id_map _).symm⟩
      | callProc proc args block => exact ⟨_, _, id, .callProc proc args block, (id_map _).symm⟩
      | newException cls message => exact ⟨_, _, id, .newException cls message, (id_map _).symm⟩
      | inspect v => exact ⟨_, _, id, .inspect v, (id_map _).symm⟩
      | toText v => exact ⟨_, _, id, .toText v, (id_map _).symm⟩
      | toUnsigned v => exact ⟨_, _, id, .toUnsigned v, (id_map _).symm⟩
      | toSigned v => exact ⟨_, _, id, .toSigned v, (id_map _).symm⟩
      | toDouble v => exact ⟨_, _, id, .toDouble v, (id_map _).symm⟩
      | readInt type v =>
          exact ⟨_, _, Except.toOption, .readInt type v, (map_eq_pure_bind _ _).symm⟩
      | readDouble v => exact ⟨_, _, Except.toOption, .toDouble v, (map_eq_pure_bind _ _).symm⟩
      | readSingle v => exact ⟨_, _, Except.toOption, .readSingle v, (map_eq_pure_bind _ _).symm⟩
      | readBool v => exact ⟨_, _, Except.toOption, .readBool v, (map_eq_pure_bind _ _).symm⟩
      | readText v => exact ⟨_, _, Except.toOption, .toText v, (map_eq_pure_bind _ _).symm⟩
      | writeInt type n => exact ⟨_, _, id, .write _, (id_map _).symm⟩
      | writeDouble x => exact ⟨_, _, id, .write _, (id_map _).symm⟩
      | writeSingle x => exact ⟨_, _, id, .write _, (id_map _).symm⟩
      | writeText text => exact ⟨_, _, id, .write _, (id_map _).symm⟩
      | writeBool b => exact ⟨_, _, id, .writeBool b, (id_map _).symm⟩
      | pin v => exact ⟨_, _, id, .pin, (id_map _).symm⟩
      | _ => exact hfail.elim

end Request

/-! ### What is told of requests -/

/-- The account tells of the run, and no jump comes out of it. -/
structure Eval.SettledBy (S : Account σ) (action : Eval σ α) : Prop where
  told : ToldBy S action
  noJump : action.NoJump

namespace Eval.SettledBy

variable {β : Type}

/-- Two parts of a request: what goes on after the first is told of from where that has ended. -/
theorem bind (hS : S.Rules) {x : Eval σ α} {f : α → Eval σ β} (hx : SettledBy S x)
    (hf : ∀ a, SettledBy S (f a)) : SettledBy S (x >>= f) :=
  ⟨hx.told.bind hS fun a => (hf a).told, hx.noJump.bind fun a => (hf a).noJump⟩

/-- Giving a value is told of, and is no jump. -/
theorem pure (hS : S.Rules) (a : α) : SettledBy S (Pure.pure a : Eval σ α) :=
  ⟨.pure hS a, noJump_pure a⟩

/-- What gives a value settles. -/
theorem of_value {action : Eval σ α} (h : ∀ w, ∃ a w', action w = .ok a w' ∧ S w .value w') :
    SettledBy S action := by
  refine ⟨fun w => ?_, fun w jump w' hjump => ?_⟩
  · obtain ⟨a, w₁, hrun, htold⟩ := h w
    exact .of_eq hrun htold
  · obtain ⟨a, w₁, hrun, -⟩ := h w
    rw [hrun] at hjump
    cases hjump

/-- A crash is told of, and is no jump. -/
theorem crash (hS : S.Rules) (message : String) :
    SettledBy S (Eval.crash message : Eval σ α) := by
  refine ⟨fun w => hS.crash w ⟨message⟩, ?_⟩
  intro w jump w' h
  cases h

end Eval.SettledBy

/-- An operation settles that is told of up to its settling. -/
theorem Vm.settledBy_settled (hS : S.ProgramRules P)
    (htask : ∀ task : Task, task.IsUncounted → ToldBy S (perform r task)) {operation : Checked σ α}
    (h : ∀ w, ToldChecked S operation w) : SettledBy S (Vm.settled r operation) := by
  have hanswered : ∀ w, Answered S w (Vm.settled r operation w) := fun w =>
    (h w).settled hS.toOperationRules htask
  refine ⟨fun w => ?_, fun w jump w' hjump => ?_⟩
  · have hw := hanswered w
    unfold ToldAt
    cases hrun : Vm.settled r operation w with
    | error exit w₁ =>
        rw [hrun] at hw
        exact hw.1
    | ok answer w₁ =>
        rw [hrun] at hw
        cases answer with
        | ok a => exact hw
        | error error =>
            obtain ⟨u, hu, rfl⟩ := hw
            exact hS.seq hu (hS.record u error)
  · have hw := hanswered w
    rw [hjump] at hw
    exact hw.2 jump rfl

/-- Taking the interpreter down is told of, and no jump comes out of it. -/
theorem Vm.settledBy_cleanUp (hS : S.ProgramRules P) : SettledBy S (Vm.cleanUp : Eval σ Int) := by
  refine .of_value fun w => ?_
  unfold Vm.cleanUp
  rw [get_bind_apply]
  cases hstate : w.state with
  | up => exact ⟨_, _, rfl, hS.cleanUp hstate⟩
  | _ => exact ⟨_, w, rfl, hS.done w⟩

/-- Only a root that is held is given up. -/
theorem Vm.unpin_apply (root : Nat) (w : World σ) :
    Vm.unpin root w = .ok () (if root ∈ w.boxes then w.unboxed root else w) := by
  unfold Vm.unpin
  rw [get_bind_apply]
  by_cases hheld : root ∈ w.boxes
  · by_cases hup : w.state = .up
    · simp only [if_pos hheld, if_pos hup, World.unboxed]
      rfl
    · simp only [if_pos hheld, if_neg hup, World.unboxed]
      rfl
  · simp only [if_neg hheld]
    rfl

/-- Dropping a box is told of, and no jump comes out of it. -/
theorem Vm.settledBy_unpin (hS : S.ProgramRules P) (root : Nat) :
    SettledBy S (Vm.unpin root : Eval σ Unit) := by
  refine .of_value fun w => ⟨(), _, Vm.unpin_apply root w, ?_⟩
  by_cases hheld : root ∈ w.boxes
  · rw [if_pos hheld]
    exact hS.unboxed w hheld
  · rw [if_neg hheld]
    exact hS.done w

/-- **Each request is told of**, and no jump comes out of it. -/
theorem Request.told_answer (hS : S.ProgramRules P) (hr : r.ToldBy S (Closure.Uses P))
    (htask : ∀ task : Task, task.IsUncounted → ToldBy S (perform r task)) (request : Request σ)
    (hrequest : request.Uses P) : SettledBy S (request.answer r) := by
  have look : ∀ {β : Type} (f : World σ → β), SettledBy S (do return f (← get) : Eval σ β) :=
    fun f => .of_value fun w => ⟨f w, w, rfl, hS.done w⟩
  by_cases hfail : request.CanFail
  · obtain ⟨α, operation, reply, hoperation, hanswer⟩ :=
      request.exists_operation (r := r) hrequest hfail
    rw [hanswer, map_eq_pure_bind]
    have hsettled := settledBy_settled hS htask (hoperation.told hS hr htask)
    exact hsettled.bind hS.toRules fun _ => .pure hS.toRules _
  · cases request with
    | operation op =>
        cases op with
        | cleanUp => exact settledBy_cleanUp hS
        | state | errors | mostRecentError => exact look _
        | clearErrors => exact .of_value fun w => ⟨_, _, rfl, hS.clearErrors w⟩
        | raise error => exact .of_value fun w => ⟨_, _, rfl, hS.record w error⟩
        | unpin root => exact settledBy_unpin hS root
        | _ => exact absurd trivial hfail
    | _ => exact absurd trivial hfail

end EmbeddedRuby
