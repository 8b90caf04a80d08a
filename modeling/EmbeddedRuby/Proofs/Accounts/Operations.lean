import EmbeddedRuby.Proofs.Accounts.Tasks
import EmbeddedRuby.Proofs.Surfacing

/-!
# Accounts of operations

An operation takes steps of a few kinds (`Vm.Stepwise`): it looks at the world, checks what it was
given, brings the interpreter up, asks for names, makes objects, and runs tasks behind the barrier.
It has three endings in order: with a value, or refused, where the error has been put in the history;
or left by a jump that was stopped at the barrier.  Settling it turns the last into an error too, for
which the exception is described.

What an account tells of the steps (`Account.OperationRules`) it tells of the operation as a whole:
if the answer is an error, then all has been told when it is put in the history, and that is the last
thing that happens (`Vm.Stepwise.settled`).
-/

namespace EmbeddedRuby

open Eval

/-- The error is neither an exception nor another jump: it was found on the host's side. -/
def Error.IsRefusal : Error → Prop
  | .jump _ | .exception _ => False
  | _ => True

variable {σ : Type}

/-- The rules of an account of what an operation does.  It hands over the bodies that are `handed`
to it. -/
structure Account.OperationRules (S : Account σ) (handed : Closure σ → Prop) : Prop
    extends Account.BlockRules S where
  setup : ∀ {w w₁ : World σ} {info : BootInfo} {result : Except Error Unit}, w.state = .unknown →
    (Vm.start info).run w = .ok result w₁ →
      S w .value { w₁ with state := World.stateAfter result }
  learn : ∀ {w : World σ} {name : String}, w.ids.get? name = none →
    (w.state = .up ∨ name ∈ World.describingNames) → Vm.isName .symbol name = true →
      S w .value (w.learn name)
  boxed : ∀ {w : World σ}, w.state = .up → S w .value w.boxed
  addProc : ∀ {w : World σ} {body : Closure σ}, w.state = .up → handed body →
    S w .value (w.addProc body)
  /-- A jump is stopped at the barrier of an operation, which makes an error of it. -/
  settled : ∀ {w w₁ : World σ} {jump : Jump}, S w (.jump jump) w₁ → w₁.parked = none →
    S w .value (w₁.restored w).withoutPending
  /-- A jump is stopped at the barrier of an operation while a panic waits, which goes on. -/
  resumed : ∀ {w w₁ : World σ} {jump : Jump} {p : Panic}, S w (.jump jump) w₁ →
    w₁.parked = some p → S w (.panic p) ((w₁.restored w).withoutPending.resume p)
  /-- A jump is stopped at the barrier of a quiet task, and a panic that waits is passed over. -/
  quiet : ∀ {w w₁ : World σ} {jump : Jump}, S w (.jump jump) w₁ →
    S w .value (w₁.restored w).withoutPending.overlook

namespace Vm

variable {α β : Type} {S : Account σ} {handed : Closure σ → Prop} {r : Reentry σ}

/-- Asking for the number of a name that the host does not know. -/
theorem attempt_intern_run_apply (name : String) (w : World σ) :
    (do
      let id : SymbolId ← attempt r (.intern name)
      modify fun w => { w with ids := w.ids.insert name id }
      return id : Checked σ SymbolId).run w =
      .ok (.ok (w.machine.intern name).1) (w.learn name) := rfl

/-! ### The steps of operations -/

/-- The operation, or a part of it, takes its steps one after the other. -/
inductive Stepwise (r : Reentry σ) (handed : Closure σ → Prop) : {α : Type} → Checked σ α → Prop
  | pure {α : Type} (a : α) : Stepwise r handed (Pure.pure a)
  | bind {α β : Type} {x : Checked σ α} {f : α → Checked σ β} (first : Stepwise r handed x)
      (rest : ∀ a, Stepwise r handed (f a)) : Stepwise r handed (x >>= f)
  | look : Stepwise r handed (get : Checked σ (World σ))
  | fail {α : Type} {error : Error} (herror : error.IsRefusal) :
      Stepwise r handed (Vm.fail error : Checked σ α)
  | setup (info : BootInfo) : Stepwise r handed (Vm.setup info)
  | internedName (name : String) : Stepwise r handed (Vm.internedName r name)
  | works {α : Type} {f : Machine → α × Machine} (h : ∀ m : Machine, m.Works (f m).2) :
      Stepwise r handed (ExceptT.lift (onMachine f))
  | attempt (task : Task) (htask : task.IsUncounted) : Stepwise r handed (Vm.attempt r task)
  | callWithClosure (receiver : Value) (method : SymbolId) (args : List Value) {body : Closure σ}
      (hbody : handed body) :
      Stepwise r handed (guarded (EmbeddedRuby.callWithClosure r receiver method args body))
  | pin : Stepwise r handed Vm.pin
  | newProc {body : Closure σ} (hbody : handed body) : Stepwise r handed (Vm.newProc body)

namespace Stepwise

/-- A choice is stepwise if both its branches are. -/
theorem ite {p : Prop} [Decidable p] {x y : Checked σ α} (hx : Stepwise r handed x)
    (hy : Stepwise r handed y) : Stepwise r handed (if p then x else y) := by
  split
  · exact hx
  · exact hy

/-- The interpreter is brought up if it is not, and that is one step. -/
theorem ensureSetup : Stepwise r handed Vm.ensureSetup :=
  (Stepwise.setup {}).bind fun _ => .pure ()

/-! ### Names, calls and procs -/

/-- A name is checked by looking at it, and refused if it is malformed. -/
theorem checkName (kind : IdentifierKind) (name : String) :
    Stepwise r handed (Vm.checkName kind name) := by
  unfold Vm.checkName
  exact .ite (.pure ()) (.fail trivial)

/-- A name is checked and then asked for. -/
theorem checkedName (kind : IdentifierKind) (name : String) :
    Stepwise r handed (Vm.checkedName r kind name) :=
  (checkName kind name).bind fun _ => .internedName name

/-- A constant takes a name and a task. -/
theorem constantIn (module : Value) (name : String) :
    Stepwise r handed (Vm.constantIn r module name) :=
  (checkedName .constant name).bind fun id => .attempt (.constant module id) trivial

/-- A constant of the module itself takes a name and a task. -/
theorem constantAt (module : Value) (name : String) :
    Stepwise r handed (Vm.constantAt r module name) :=
  (checkedName .constant name).bind fun id => .attempt (.constantAt module id) trivial

/-- `Object` takes bringing the interpreter up, and no task. -/
theorem objectClass : Stepwise r handed Vm.objectClass :=
  ensureSetup.bind fun _ => .pure _

/-- The constants of a path are looked for one in the other, by induction over the names. -/
theorem path (names : List String) (start : Value) :
    Stepwise r handed (names.foldlM (Vm.constantIn r) start) := by
  induction names generalizing start with
  | nil => exact .pure start
  | cons name rest ih =>
      rw [List.foldlM_cons]
      exact (constantIn start name).bind ih

/-- A path starts from `Object`. -/
theorem constant (path : String) : Stepwise r handed (Vm.constant r path) :=
  objectClass.bind fun start => .path (pathNames path) start

/-- A class variable takes a name and a task. -/
theorem classVar (cls : Value) (name : String) : Stepwise r handed (Vm.classVar r cls name) :=
  (checkedName .classVariable name).bind fun id => .attempt (.classVar cls id) trivial

/-- More arguments than can be counted are refused. -/
theorem checkCount (count : Nat) : Stepwise r handed (Vm.checkCount count) := by
  unfold Vm.checkCount
  exact .ite (.fail trivial) (.pure ())

/-- A call takes a name, the count of its arguments and a task. -/
theorem call (receiver : Value) (method : String) (args : List Value) :
    Stepwise r handed (Vm.call r receiver method args) :=
  (checkedName .method method).bind fun id => (checkCount _).bind fun _ =>
    .attempt (.call receiver id args false) trivial

/-- The names of keywords are asked for one by one, by induction over the keywords. -/
theorem keywordIds (keywords : List (String × Value)) :
    Stepwise r handed (Vm.keywordIds r keywords) := by
  induction keywords with
  | nil => exact .pure []
  | cons keyword rest ih =>
      exact (Stepwise.internedName keyword.1).bind fun id => ih.bind fun pairs => .pure _

/-- The keywords are put in a hash, which is the last argument of the call. -/
theorem callWithKeywords (receiver : Value) (method : String) (args : List Value)
    (keywords : List (String × Value)) :
    Stepwise r handed (Vm.callWithKeywords r receiver method args keywords) := by
  unfold Vm.callWithKeywords
  refine (checkName .method method).bind fun _ => ?_
  split
  · exact .fail trivial
  · exact call receiver method args
  · refine (Stepwise.internedName method).bind fun id => (keywordIds _).bind fun pairs => ?_
    refine (Stepwise.attempt (.keywordHash pairs) trivial).bind fun hash => ?_
    exact (checkCount _).bind fun _ => .attempt (.call receiver id _ true) trivial

/-- A call with a block hands its body over. -/
theorem callWithBlock (receiver : Value) (method : String) (args : List Value) {body : Closure σ}
    (hbody : handed body) : Stepwise r handed (Vm.callWithBlock r receiver method args body) := by
  unfold Vm.callWithBlock
  refine (checkedName .method method).bind fun id => (checkCount _).bind fun _ => ?_
  refine Stepwise.look.bind fun w => ?_
  split
  · exact .callWithClosure receiver id args hbody
  · exact .fail trivial

/-- A call with a proc for its block is a task like another. -/
theorem callWithProc (receiver : Value) (method : String) (args : List Value) (proc : Value) :
    Stepwise r handed (Vm.callWithProc r receiver method args proc) :=
  (checkedName .method method).bind fun id => (checkCount _).bind fun _ =>
    .attempt (.callWithProc receiver id args proc) trivial

/-- Calling a proc takes one task. -/
theorem callProc (proc : Value) (args : List Value) (block : Option Value) :
    Stepwise r handed (Vm.callProc r proc args block) :=
  ensureSetup.bind fun _ => (checkCount _).bind fun _ => .attempt (.callProc proc args _) trivial

/-- A string is made in one step. -/
theorem newString (bytes : List UInt8) :
    Stepwise r handed (ExceptT.lift (onMachine fun m => m.newString bytes)) :=
  .works fun m => .string m bytes

/-- An exception is made by calling `new` of its class with a string. -/
theorem newException (cls message : String) :
    Stepwise r handed (Vm.newException r cls message) :=
  (constant cls).bind fun cls => (newString (Utf8.encodeString message)).bind fun message =>
    call cls "new" [message]

/-- A script is loaded by one task, after its path was made a string. -/
theorem load (path : List UInt8) (wrap : Bool) : Stepwise r handed (Vm.load r path wrap) := by
  unfold Vm.load
  refine ensureSetup.bind fun _ => ?_
  split
  · exact .fail trivial
  · exact (newString path).bind fun script =>
      (Stepwise.attempt (.load script wrap) trivial).bind fun _ => .pure ()

/-! ### Scalars -/

/-- An object is inspected by one task. -/
theorem inspect (v : Value) : Stepwise r handed (Vm.inspect r v) :=
  ensureSetup.bind fun _ => (Stepwise.attempt (.inspectBytes v) trivial).bind fun _ => .pure _

/-- An object is asked for its text by one task. -/
theorem toText (v : Value) : Stepwise r handed (Vm.toText r v) := by
  unfold Vm.toText
  refine ensureSetup.bind fun _ => (Stepwise.attempt (.stringBytes v) trivial).bind fun bytes => ?_
  split
  · exact .pure _
  · exact .fail trivial

/-- An object is converted without sign by one task. -/
theorem toUnsigned (v : Value) : Stepwise r handed (Vm.toUnsigned r v) :=
  ensureSetup.bind fun _ => .attempt (.toUnsigned v) trivial

/-- An object is converted with sign by one task. -/
theorem toSigned (v : Value) : Stepwise r handed (Vm.toSigned r v) :=
  ensureSetup.bind fun _ => .attempt (.toSigned v) trivial

/-- An object is converted to a double by one task. -/
theorem toDouble (v : Value) : Stepwise r handed (Vm.toDouble r v) :=
  ensureSetup.bind fun _ => .attempt (.toDouble v) trivial

/-- A number out of range is refused, which takes no task. -/
theorem ensureHeld (type : IntType) (n : Int) : Stepwise r handed (Vm.ensureHeld type n) := by
  unfold Vm.ensureHeld
  exact .ite (.pure n) (.fail trivial)

/-- An integer type converts first and then checks the range. -/
theorem readInt (type : IntType) (v : Value) : Stepwise r handed (Vm.readInt r type v) := by
  unfold Vm.readInt
  split
  · exact (toSigned v).bind fun n => ensureHeld type n
  · exact (toUnsigned v).bind fun n => ensureHeld type n

/-- Single precision converts to a double first and then checks the range. -/
theorem readSingle (v : Value) : Stepwise r handed (Vm.readSingle r v) :=
  (toDouble v).bind fun _ => .ite (.fail trivial) (.pure _)

/-- A datum is made into objects in one step. -/
theorem write (datum : Datum) : Stepwise r handed (Vm.write datum) :=
  ensureSetup.bind fun _ => .works fun m => .make m datum

/-- A boolean is there already. -/
theorem writeBool (b : Bool) : Stepwise r handed (Vm.writeBool b) :=
  ensureSetup.bind fun _ => .pure _

end Stepwise

/-! ### What is told of them -/

/-- A task has been left by a jump, which was stopped at the barrier. -/
def ExitedBy (S : Account σ) (w : World σ) (jump : Jump) (w' : World σ) : Prop :=
  ∃ w₀ w₁, S w .value w₀ ∧ S w₀ (.jump jump) w₁ ∧ w' = w₁.restored w₀

/-- The account tells of how an operation, or a part of it, ends.  If it is refused, then with an error
of the host's side, or with the one for which the interpreter could not be brought up. -/
def Ended (S : Account σ) (w : World σ) : Outcome σ (Except Failure α) → Prop
  | .ok (.ok _) w' => S w .value w'
  | .ok (.error (.refused error)) w' =>
    (∃ u, S w .value u ∧ w' = u.recorded error) ∧ (error.IsRefusal ∨ w'.state = .failed error)
  | .ok (.error (.exited jump)) w' => ExitedBy S w jump w'
  | .error exit w' => S w (.exit exit) w' ∧ ∀ jump, exit ≠ .jump jump

/-- The account tells of an operation, or a part of it, from a world. -/
def ToldChecked (S : Account σ) (operation : Checked σ α) (w : World σ) : Prop :=
  Ended S w (operation.run w)

/-- The account tells of an operation if it does of how it ends. -/
theorem ToldChecked.of_eq {operation : Checked σ α} {w : World σ}
    {result : Outcome σ (Except Failure α)} (hrun : operation.run w = result)
    (h : Ended S w result) : ToldChecked S operation w := by
  unfold ToldChecked
  rwa [hrun]

/-- What is told of an operation is told of how it ends. -/
theorem ToldChecked.of_run {operation : Checked σ α} {w : World σ}
    {result : Outcome σ (Except Failure α)} (h : ToldChecked S operation w)
    (hrun : operation.run w = result) : Ended S w result := by
  unfold ToldChecked at h
  rwa [hrun] at h

/-- Looking at the world is not told of separately. -/
theorem ToldChecked.get_bind {f : World σ → Checked σ β} {w : World σ}
    (h : ToldChecked S (f w) w) : ToldChecked S ((get : Checked σ (World σ)) >>= f) w :=
  h

/-- What goes on after a part has been told of is told of from the beginning. -/
theorem Ended.seq (hS : S.Rules) {w w₁ : World σ} {result : Outcome σ (Except Failure α)}
    (hfirst : S w .value w₁) (h : Ended S w₁ result) : Ended S w result := by
  match result with
  | .error exit w₂ => exact ⟨hS.seq hfirst h.1, h.2⟩
  | .ok (.ok b) w₂ => exact hS.seq hfirst h
  | .ok (.error (.refused error)) w₂ =>
      obtain ⟨⟨u, hu, heq⟩, hkind⟩ := h
      exact ⟨⟨u, hS.seq hfirst hu, heq⟩, hkind⟩
  | .ok (.error (.exited jump)) w₂ =>
      obtain ⟨v, v₁, hbefore, hleft, heq⟩ := h
      exact ⟨v, v₁, hS.seq hfirst hbefore, hleft, heq⟩

/-- Two parts of an operation: the second is told of from where the first has given its value. -/
theorem ToldChecked.bind (hS : S.Rules) {x : Checked σ α} {f : α → Checked σ β} {w : World σ}
    (hx : ToldChecked S x w)
    (hf : ∀ a w', x.run w = .ok (.ok a) w' → ToldChecked S (f a) w') :
    ToldChecked S (x >>= f) w := by
  have hopen := run_bind_apply x f w
  cases hrun : x.run w with
  | error exit w₁ =>
      rw [hrun] at hopen
      exact .of_eq hopen (hx.of_run hrun)
  | ok result w₁ =>
      have hfirst := hx.of_run hrun
      rw [hrun] at hopen
      match result with
      | .error (.refused error) => exact .of_eq hopen hfirst
      | .error (.exited jump) => exact .of_eq hopen hfirst
      | .ok a => exact .of_eq hopen (Ended.seq hS hfirst (hf a w₁ hrun))

/-- A refusal puts its error in the history, and nothing else happens. -/
theorem told_fail (hS : S.Rules) {error : Error} (herror : error.IsRefusal) (w : World σ) :
    ToldChecked S (fail error : Checked σ α) w :=
  ⟨⟨w, hS.done w, rfl⟩, .inl herror⟩

/-- A task behind the barrier. -/
theorem told_guarded (hS : S.Rules) {action : Eval σ α} {w : World σ} (h : ToldAt S action w) :
    ToldChecked S (guarded action) w := by
  have hopen := guarded_run_apply action w
  cases hrun : action w with
  | ok a w' =>
      rw [hrun] at hopen
      exact .of_eq hopen (h.of_run hrun)
  | error exit w' =>
      have htold := h.of_run hrun
      rw [hrun] at hopen
      refine .of_eq hopen ?_
      cases exit with
      | jump jump => exact ⟨w, w', hS.done w, htold, rfl⟩
      | panic p => exact ⟨htold, by simp⟩
      | exhausted => exact ⟨htold, by simp⟩

/-- Bringing the interpreter up is told of, whether its options are taken or refused. -/
theorem told_setup (hS : S.OperationRules handed) (info : BootInfo) (w : World σ) :
    ToldChecked S (setup info : Checked σ Bool) w := by
  have hopen := setup_run_apply info w
  cases hstate : w.state with
  | up =>
      rw [hstate] at hopen
      exact .of_eq hopen (hS.done w)
  | failed error =>
      rw [hstate] at hopen
      exact .of_eq hopen ⟨⟨w, hS.done w, rfl⟩, .inr hstate⟩
  | cleanedUp =>
      rw [hstate] at hopen
      exact .of_eq hopen ⟨⟨w, hS.done w, rfl⟩, .inl trivial⟩
  | unknown =>
      rw [hstate] at hopen
      simp only at hopen
      cases hrun : (start info).run w with
      | error exit w₁ =>
          rw [hrun] at hopen
          obtain ⟨-, p, rfl, rfl⟩ := start_error hrun
          exact .of_eq hopen ⟨hS.crash w₁ p, by simp⟩
      | ok result w₁ =>
          rw [hrun] at hopen
          have hstep := hS.setup hstate hrun
          cases result with
          | ok _ => exact .of_eq hopen hstep
          | error error => exact .of_eq hopen ⟨⟨_, hstep, rfl⟩, .inr rfl⟩

/-- Making sure that it is up is told of, from wherever it stands. -/
theorem told_ensureSetup (hS : S.OperationRules handed) (w : World σ) :
    ToldChecked S (ensureSetup : Checked σ Unit) w :=
  (told_setup hS {} w).bind hS.toRules fun _ w' _ => hS.done w'

/-- Asking for a name is told of, whether the host knows its number or not. -/
theorem told_internedName (hS : S.OperationRules handed) (name : String) (w : World σ) :
    ToldChecked S (internedName r name) w := by
  refine (told_ensureSetup hS w).bind hS.toRules fun _ w₁ hsetup => ?_
  have hup : w₁.state = .up := state_of_ensureSetup hsetup
  refine .get_bind ?_
  cases hid : w₁.ids.get? name with
  | some id => exact hS.done w₁
  | none =>
      unfold checkName
      by_cases hname : isName .symbol name
      · simp only [hname, if_true]
        exact .of_eq (attempt_intern_run_apply (r := r) name w₁) (hS.learn hid (.inl hup) hname)
      · simp only [hname]
        exact ⟨⟨w₁, hS.done w₁, rfl⟩, .inl trivial⟩

/-- What an operation does stepwise is told of, if its tasks are. -/
theorem Stepwise.told (hS : S.OperationRules handed) (hr : r.ToldBy S handed)
    (htask : ∀ task : Task, task.IsUncounted → ToldBy S (perform r task)) {operation : Checked σ α}
    (h : Stepwise r handed operation) : ∀ w, ToldChecked S operation w := by
  induction h with
  | pure a => exact fun w => hS.done w
  | bind first rest ih₁ ih₂ => exact fun w => (ih₁ w).bind hS.toRules fun a w' _ => ih₂ a w'
  | look => exact fun w => hS.done w
  | fail herror => exact told_fail hS.toRules herror
  | setup info => exact told_setup hS info
  | internedName name => exact told_internedName hS name
  | works h => exact fun w => hS.works w (h w.machine)
  | attempt task hcounted => exact fun w => told_guarded hS.toRules (htask _ hcounted w)
  | callWithClosure receiver method args hbody =>
      exact fun w =>
        told_guarded hS.toRules (hS.toBlockRules.callWithClosure hr receiver method args hbody w)
  | pin =>
      exact fun w => (told_ensureSetup hS w).bind hS.toRules fun _ w₁ hsetup =>
        hS.boxed (state_of_ensureSetup hsetup)
  | newProc hbody =>
      exact fun w => (told_ensureSetup hS w).bind hS.toRules fun _ w₁ hsetup =>
        hS.addProc (state_of_ensureSetup hsetup) hbody

/-! ### Quiet tasks and the settling -/

/-- Two parts of a description: where the first finds nothing, the second does not happen. -/
theorem told_option_bind (hS : S.Rules) {x : OptionT (Eval σ) α} {f : α → OptionT (Eval σ) β}
    (hx : ToldBy S x.run) (hf : ∀ a, ToldBy S (f a).run) : ToldBy S (x >>= f).run :=
  ToldBy.bind hS hx fun
    | some a => hf a
    | none => .pure hS none

/-- A quiet task is told of if it is by itself: what it leaves pending is taken back. -/
theorem told_quietly (hS : S.OperationRules handed) {task : Task}
    (htask : ToldBy S (perform r task)) : ToldBy S (quietly r task).run := by
  intro w
  have hopen := quietly_run_apply (r := r) task w
  cases hperform : perform r task w with
  | ok a w' =>
      rw [hperform] at hopen
      exact .of_eq hopen ((htask w).of_run hperform)
  | error exit w' =>
      have htold := (htask w).of_run hperform
      rw [hperform] at hopen
      refine .of_eq hopen ?_
      cases exit with
      | jump jump => exact hS.quiet htold
      | panic p => exact htold
      | exhausted => exact htold

/-- A name asked for quietly is one of those that describing takes. -/
theorem told_quietName (hS : S.OperationRules handed) {name : String}
    (hname : name ∈ World.describingNames) : ToldBy S (quietName r name).run := by
  intro w
  have hopen := quietName_run_apply (r := r) name w
  cases hid : w.ids.get? name with
  | some id =>
      rw [hid] at hopen
      exact .of_eq hopen (hS.done w)
  | none =>
      rw [hid] at hopen
      have hlegal : ∀ known ∈ World.describingNames, isName .symbol known = true := by decide
      exact .of_eq hopen (hS.learn hid (.inr hname) (hlegal name hname))

/-- Showing an exception is one quiet task. -/
theorem told_shown (hS : S.OperationRules handed)
    (htask : ∀ task : Task, task.IsUncounted → ToldBy S (perform r task)) (exception : Value) :
    ToldBy S (shown r exception).run :=
  told_option_bind hS.toRules (told_quietly hS (htask (.inspectBytes exception) trivial)) fun _ =>
    .pure hS.toRules _

/-- What is done for the lines of a backtrace, once the two names are known. -/
theorem backtraceLines_parts (exception : Value) :
    ∃ rest : SymbolId → SymbolId → OptionT (Eval σ) (List String),
      (backtraceLines r exception = quietName r "backtrace" >>= fun backtrace =>
        quietName r "join" >>= fun join => rest backtrace join) ∧
      ∀ {S : Account σ} {handed : Closure σ → Prop}, S.OperationRules handed →
        (∀ task : Task, task.IsUncounted → ToldBy S (perform r task)) →
        ∀ backtrace join, ToldBy S (rest backtrace join).run := by
  refine ⟨_, rfl, fun {S handed} hS htask backtrace join => ?_⟩
  have hcall : ∀ receiver method args,
      ToldBy S (quietly r (.call receiver method args false)).run := fun receiver method args =>
    told_quietly hS (htask _ trivial)
  refine told_option_bind hS.toRules (hcall exception backtrace []) fun lines => ?_
  have hlook : ToldBy S (OptionT.lift machine : OptionT (Eval σ) Machine).run := fun w => hS.done w
  have hnewline : ToldBy S (OptionT.lift (newText "\n") : OptionT (Eval σ) Value).run := fun w =>
    hS.works w (.string w.machine _)
  refine told_option_bind hS.toRules hlook fun m => ?_
  split
  · refine told_option_bind hS.toRules hnewline fun separator => ?_
    refine told_option_bind hS.toRules (hcall lines join [separator]) fun joined => ?_
    exact told_option_bind hS.toRules (told_quietly hS (htask (.stringBytes joined) trivial))
      fun _ => .pure hS.toRules _
  · exact .pure hS.toRules none

/-- The lines of a backtrace take two names, a call, a string and another call, all quiet. -/
theorem told_backtraceLines (hS : S.OperationRules handed)
    (htask : ∀ task : Task, task.IsUncounted → ToldBy S (perform r task)) (exception : Value) :
    ToldBy S (backtraceLines r exception).run := by
  obtain ⟨rest, heq, hrest⟩ := backtraceLines_parts (r := r) exception
  rw [heq]
  refine told_option_bind hS.toRules (told_quietName hS (by decide)) fun backtrace => ?_
  refine told_option_bind hS.toRules (told_quietName hS (by decide)) fun join => ?_
  exact hrest hS htask backtrace join

/-- Describing an exception is showing it and reading its backtrace. -/
theorem told_report (hS : S.OperationRules handed)
    (htask : ∀ task : Task, task.IsUncounted → ToldBy S (perform r task)) (exception : Value) :
    ToldBy S (report r exception) :=
  ToldBy.bind hS.toRules (told_shown hS htask exception) fun _ =>
    (told_backtraceLines hS htask exception).bind hS.toRules fun _ => .pure hS.toRules _

/-- The account tells of how an operation ends that was settled; if with an error, of all but that it
was put in the history. -/
def Answered (S : Account σ) (w : World σ) : Outcome σ (Except Error α) → Prop
  | .ok (.ok _) w' => S w .value w'
  | .ok (.error error) w' => ∃ u, S w .value u ∧ w' = u.recorded error
  | .error exit w' => S w (.exit exit) w' ∧ ∀ jump, exit ≠ .jump jump

/-- A jump that was stopped becomes an error. -/
theorem told_surface (hS : S.OperationRules handed)
    (htask : ∀ task : Task, task.IsUncounted → ToldBy S (perform r task)) {w w' : World σ}
    {jump : Jump} (h : ExitedBy S w jump w') :
    match surface r jump w' with
    | .ok error w'' => ∃ u, S w .value u ∧ w'' = u.recorded error
    | .error exit w'' => S w (.exit exit) w'' := by
  obtain ⟨w₀, w₁, hbefore, hleft, rfl⟩ := h
  have hparked : (w₁.restored w₀).parked = w₁.parked := rfl
  rw [surface_apply, hparked]
  cases hp : w₁.parked with
  | some p => exact hS.seq hbefore (hS.resumed hleft hp)
  | none =>
      have hsettled : S w .value (w₁.restored w₀).withoutPending :=
        hS.seq hbefore (hS.settled hleft hp)
      simp only
      by_cases hnil : (w₁.restored w₀).machine.errinfo = Value.nil
      · rw [if_pos hnil]
        exact ⟨_, hsettled, rfl⟩
      · rw [if_neg hnil, bind_apply]
        have htold := told_report hS htask (w₁.restored w₀).machine.errinfo
          (w₁.restored w₀).withoutPending
        cases hreport : report r (w₁.restored w₀).machine.errinfo
            (w₁.restored w₀).withoutPending with
        | ok found w₂ => exact ⟨w₂, hS.seq hsettled (htold.of_run hreport), rfl⟩
        | error exit w₂ => exact hS.seq hsettled (htold.of_run hreport)

/-- The account tells of an operation as a whole if it does up to its settling. -/
theorem ToldChecked.settled (hS : S.OperationRules handed)
    (htask : ∀ task : Task, task.IsUncounted → ToldBy S (perform r task)) {operation : Checked σ α}
    {w : World σ} (h : ToldChecked S operation w) :
    Answered S w (Vm.settled r operation w) := by
  rw [settled_apply]
  cases hrun : operation.run w with
  | error exit w₁ => exact h.of_run hrun
  | ok result w₁ =>
      have hended := h.of_run hrun
      match result with
      | .ok a => exact hended
      | .error (.refused error) => exact hended.1
      | .error (.exited jump) =>
          have hsurface := told_surface hS htask hended
          simp only [map_eq_pure_bind, bind_apply]
          cases hs : surface r jump w₁ with
          | ok error w₂ =>
              rw [hs] at hsurface
              exact hsurface
          | error exit w₂ =>
              rw [hs] at hsurface
              refine ⟨hsurface, ?_⟩
              rintro other rfl
              exact noJump_surface jump w₁ other w₂ hs

/-- **An account tells of an operation as a whole**, and if that ends with an error, of everything
before it was put in the history. -/
theorem Stepwise.settled (hS : S.OperationRules handed) (hr : r.ToldBy S handed)
    (htask : ∀ task : Task, task.IsUncounted → ToldBy S (perform r task)) {operation : Checked σ α}
    (h : Stepwise r handed operation) (w : World σ) : Answered S w (Vm.settled r operation w) :=
  (h.told hS hr htask w).settled hS htask

end Vm

end EmbeddedRuby
