import EmbeddedRuby.Proofs.Composed.Tasks

/-!
# Accounts of runs

What is to be said of all runs relates the world before a run, its ending and the world after it.
Such a relation is an **account**.  The rules that an account has to obey (`Account.Rules`) say what
it tells of each thing that the interpreter does by itself, and of the few ways in which a part of a
run is enclosed in another; they are the rules of courses, and courses are the account that tells
nothing else.

From the rules it follows that the account tells of everything that runs (`Eval.ToldBy`), if it does
of calling back (`Reentry.ToldBy`).  Of the host's code it has to tell only what the world offers: the
bodies of its procs, its callbacks, and the bodies that were handed over for the blocks of calls
(`World.Offers`).

The main statement is `Account.Rules.composed`: what is composed of what the interpreter does is told
of.  An account that tells of blocks whatever runs in them (`Account.BlockRules`) needs no more than
that.  Panics do not come out of callbacks (`Reentry.enterCallback_noPanic`), so they do not come out of
blocks and procs.
-/

namespace EmbeddedRuby

variable {σ : Type}

/-- What is told of runs: the world before, the ending, and the world after. -/
abbrev Account (σ : Type) := World σ → Ending → World σ → Prop

namespace Eval

variable {α β : Type} {S : Account σ}

/-- The account tells of the run from a world. -/
def ToldAt (S : Account σ) (action : Eval σ α) (w : World σ) : Prop :=
  S w (Outcome.ending (action w)) (Outcome.world (action w))

/-- The account tells of the run from every world. -/
def ToldBy (S : Account σ) (action : Eval σ α) : Prop :=
  ∀ w, ToldAt S action w

/-- No panic comes out of the run. -/
def NoPanic (action : Eval σ α) : Prop :=
  ∀ w p w', action w ≠ .error (.panic p) w'

/-- The account tells of a run if it does of what the run comes to. -/
theorem ToldAt.of_eq {action : Eval σ α} {w : World σ} {result : Outcome σ α} (hrun : action w = result)
    (h : S w (Outcome.ending result) (Outcome.world result)) : ToldAt S action w := by
  unfold ToldAt
  rw [hrun]
  exact h

/-- What is told of a run is told of what it comes to. -/
theorem ToldAt.of_run {action : Eval σ α} {w : World σ} {result : Outcome σ α}
    (h : ToldAt S action w) (hrun : action w = result) :
    S w (Outcome.ending result) (Outcome.world result) := by
  unfold ToldAt at h
  rwa [hrun] at h

end Eval

/-- The rules of an account of what the interpreter does. -/
structure Account.Rules (S : Account σ) : Prop where
  /-- Nothing happens. -/
  done : ∀ w, S w .value w
  /-- One part follows another. -/
  seq : ∀ {w w₁ w₂ : World σ} {ending : Ending}, S w .value w₁ → S w₁ ending w₂ → S w ending w₂
  works : ∀ (w : World σ) {m : Machine}, w.machine.Works m → S w .value { w with machine := m }
  raise : ∀ (w : World σ) (fault : Fault),
    S w (.raised (w.machine.newException fault).1) (w.raising fault)
  raiseObject : ∀ (w : World σ) {exception : Value},
    w.machine.heap.isKindOf exception CoreClass.exception.value →
      S w (.raised exception) (w.raisingObject exception)
  breakOut : ∀ (w : World σ) (value : Value),
    S w (.jump (.breakTo w.machine.yields.head?.join value)) w
  crash : ∀ (w : World σ) (p : Panic), S w (.panic p) w
  exhausted : ∀ w, S w (.exit .exhausted) w
  /-- A break ends the iteration that it is for. -/
  iterate : ∀ {w w₁ : World σ} {target : Nat} {value : Value},
    S w (.jump (.breakTo (some target) value)) w₁ → S w .value (w₁.restored w)

/-- The rules of an account that tells of blocks too, whatever code of the host's runs in them. -/
structure Account.BlockRules (S : Account σ) : Prop extends Account.Rules S where
  /-- A block runs to its end. -/
  block : ∀ {w w₁ : World σ} {target : Option Nat},
    S (w.enterBlock target) .value w₁ → S w .value (w₁.leaveBlock w)
  /-- A block is left; panics do not leave blocks. -/
  blockLeft : ∀ {w w₁ : World σ} {target : Option Nat} {exit : Exit},
    S (w.enterBlock target) (.exit exit) w₁ → (∀ p, exit ≠ .panic p) → S w (.exit exit) w₁
  /-- A panic of a callback is parked, and an exception raised in its place. -/
  callback : ∀ {w w₁ : World σ} {p : Panic}, S w (.panic p) w₁ →
    S w (.raised ((w₁.park p).machine.newException .callbackPanicked).1)
      ((w₁.park p).raising .callbackPanicked)

/-! ### Code of the host's -/

/-- If the block is code of the host's, it was handed over. -/
def Block.HandedBy (handed : Closure σ → Prop) : Block σ → Prop
  | .host (.some body) _ => handed body
  | .host .none _ | .none | .proc .. => True

/-- The code of the host's that can be called: a body that was handed over, the body of a proc, or a
callback. -/
inductive World.Offers (handed : Closure σ → Prop) (w : World σ) : {role : Role} →
    Program σ role → Prop
  | handed {body : Closure σ} (hbody : handed body) (args : List Value) :
      Offers handed w (body args)
  | proc {body : Closure σ} (hbody : body ∈ w.procs) (args : List Value) :
      Offers handed w (body args)
  | callback {kind : CallbackKind} {run : CallbackInput → Program σ .callback}
      (hrun : w.callback kind = some (.custom run)) (input : CallbackInput) :
      Offers handed w (run input)

/-- The account tells of calling back. -/
structure Reentry.ToldBy (S : Account σ) (handed : Closure σ → Prop) (r : Reentry σ) : Prop where
  send : ∀ call, call.block.HandedBy handed → Eval.ToldBy S (r.send call)
  run : ∀ {role : Role} {w : World σ} (program : Program σ role), w.Offers handed program →
    Eval.ToldAt S (r.run program) w

namespace Eval

variable {α β : Type} {S : Account σ}

/-! ### Putting runs together -/

/-- Two runs one after the other: the second is told of from where the first has ended. -/
theorem ToldAt.bind (hS : S.Rules) {x : Eval σ α} {f : α → Eval σ β} {w : World σ}
    (hx : ToldAt S x w) (hf : ∀ a w', x w = .ok a w' → ToldAt S (f a) w') :
    ToldAt S (x >>= f) w := by
  cases hrun : x w with
  | ok a w₁ =>
      have hopen : (x >>= f) w = f a w₁ := by rw [bind_apply, hrun]
      exact .of_eq hopen (hS.seq (hx.of_run hrun) (hf a w₁ hrun))
  | error exit w₁ =>
      have hopen : (x >>= f) w = .error exit w₁ := by rw [bind_apply, hrun]
      exact .of_eq hopen (hx.of_run hrun)

/-- Two runs are told of one after the other, if the second is told of wherever it starts. -/
theorem ToldBy.bind (hS : S.Rules) {x : Eval σ α} {f : α → Eval σ β} (hx : ToldBy S x)
    (hf : ∀ a, ToldBy S (f a)) : ToldBy S (x >>= f) :=
  fun w => (hx w).bind hS fun a w' _ => hf a w'

/-- Looking at the machine does nothing to the world. -/
theorem ToldAt.machine_bind {f : Machine → Eval σ α} {w : World σ} (h : ToldAt S (f w.machine) w) :
    ToldAt S (machine >>= f) w :=
  h

/-- Looking at the world does nothing to it. -/
theorem ToldAt.get_bind {f : World σ → Eval σ α} {w : World σ} (h : ToldAt S (f w) w) :
    ToldAt S ((get : Eval σ (World σ)) >>= f) w :=
  h

/-- A run that only gives a value is told of. -/
theorem ToldBy.pure (hS : S.Rules) (a : α) : ToldBy S (pure a : Eval σ α) :=
  fun w => hS.done w

/-- A work of the machine's is told of. -/
theorem ToldBy.onMachine (hS : S.Rules) {f : Machine → α × Machine}
    (h : ∀ m : Machine, m.Works (f m).2) : ToldBy S (onMachine f : Eval σ α) :=
  fun w => hS.works w (h w.machine)

/-- Raising for a fault is told of: the exception is made, put in its place, and the run is left. -/
theorem ToldBy.raise (hS : S.Rules) (fault : Fault) : ToldBy S (raise fault : Eval σ α) :=
  fun w => hS.raise w fault

/-- Raising an exception that is there is told of; it may be given a backtrace first. -/
theorem ToldBy.raiseObject (hS : S.Rules) (exception : Value) :
    ToldBy S (raiseObject exception : Eval σ α) := by
  intro w
  unfold ToldAt Eval.raiseObject
  rw [machine_bind_apply]
  split
  · exact hS.raiseObject w ‹_›
  · exact hS.raise w .exceptionExpected

/-! ### Enclosed runs -/

/-- A block is over when its action has given a value. -/
theorem asBlock_apply (target : Option Nat) {args : List Value}
    (hargs : args.length < argumentLimit) (action : Eval σ Value) (w : World σ) :
    asBlock target args action w =
      match action (w.enterBlock target) with
      | .ok v w' => .ok v (w'.leaveBlock w)
      | .error exit w' => .error exit w' := by
  unfold Eval.asBlock
  rw [machine_bind_apply, changeMachine_bind_apply, if_neg (Nat.not_le_of_lt hargs)]
  change (action >>= _) (w.enterBlock target) = _
  rw [bind_apply]
  cases action (w.enterBlock target) with
  | ok v w' => rfl
  | error exit w' => rfl

/-- A block is not entered with more arguments than can be counted. -/
theorem asBlock_of_tooMany (target : Option Nat) {args : List Value}
    (hargs : argumentLimit ≤ args.length) (action : Eval σ Value) (w : World σ) :
    asBlock target args action w =
      (Eval.raise .tooManyArguments : Eval σ Value) (w.enterBlock target) := by
  unfold Eval.asBlock
  rw [machine_bind_apply, changeMachine_bind_apply, if_pos hargs]
  rfl

/-- The account tells of a block if it tells of its body, which lets no panic out. -/
theorem ToldAt.asBlock (hS : S.BlockRules) {action : Eval σ Value} {target : Option Nat} {w : World σ}
    (args : List Value) (h : ToldAt S action (w.enterBlock target)) (hpanic : NoPanic action) :
    ToldAt S (asBlock target args action) w := by
  by_cases hargs : args.length < argumentLimit
  · have hopen := asBlock_apply target hargs action w
    cases hrun : action (w.enterBlock target) with
    | ok v w₁ =>
        rw [hrun] at hopen
        exact .of_eq hopen (hS.block (h.of_run hrun))
    | error exit w₁ =>
        rw [hrun] at hopen
        refine .of_eq hopen (hS.blockLeft (h.of_run hrun) ?_)
        rintro p rfl
        exact hpanic _ _ _ hrun
  · refine .of_eq (asBlock_of_tooMany target (Nat.le_of_not_lt hargs) action w) ?_
    exact hS.blockLeft (hS.raise (w.enterBlock target) .tooManyArguments) (by simp)

/-- An iteration is told of if what runs in it is. -/
theorem ToldBy.iterate (hS : S.Rules) {action : Eval σ Value} (target : Nat)
    (h : ToldBy S action) : ToldBy S (iterate target action) := by
  intro w
  rcases iterate_cases target action w with ⟨v, w₁, hbreak, hvalue⟩ | ⟨-, hsame⟩
  · exact .of_eq hvalue (hS.iterate ((h w).of_run hbreak))
  · exact .of_eq hsame (h w)

/-! ### Runs without panics -/

/-- Two runs without panics make one without panics. -/
theorem NoPanic.bind {x : Eval σ α} {f : α → Eval σ β} (hx : NoPanic x)
    (hf : ∀ a, NoPanic (f a)) : NoPanic (x >>= f) := by
  intro w p w' h
  rcases bind_error_iff.mp h with h | ⟨a, w₁, _, h⟩
  · exact hx w p w' h
  · exact hf a w₁ p w' h

/-- Giving a value is no panic. -/
theorem NoPanic.pure (a : α) : NoPanic (pure a : Eval σ α) := by
  intro w p w' h
  cases h

/-- Raising for a fault is no panic. -/
theorem NoPanic.raise (fault : Fault) : NoPanic (raise fault : Eval σ α) := by
  intro w p w' h
  cases h

/-- Raising an exception is no panic. -/
theorem NoPanic.raiseObject (exception : Value) :
    NoPanic (raiseObject exception : Eval σ α) := by
  intro w p w' h
  unfold Eval.raiseObject at h
  rw [machine_bind_apply] at h
  split at h <;> cases h

/-- A break is no panic. -/
theorem NoPanic.breakOut (value : Value) : NoPanic (breakOut value : Eval σ α) := by
  intro w p w' h
  cases h

/-- Out of a run whose panics are caught there come none. -/
theorem NoPanic.catchPanic (action : Eval σ α) : NoPanic (catchPanic action) := by
  intro w p w' h
  unfold Eval.catchPanic at h
  cases hrun : action w with
  | ok a w₁ =>
      rw [hrun] at h
      cases h
  | error exit w₁ =>
      rw [hrun] at h
      cases exit <;> cases h

end Eval

/-! ### Calling the host -/

namespace Reentry

open Eval

variable {S : Account σ} {handed : Closure σ → Prop} {r : Reentry σ}

/-- What a callback has come to decides how it is left. -/
def afterCallback (raw : RawReturn) : Eval σ Value :=
  match BlockReturn.ofRaw raw with
  | .ok (.value v) => return v
  | .ok .breakOff => breakOut Value.nil
  | .ok (.breakValue v) => breakOut v
  | .ok (.raise exception) => raiseObject exception
  | .error tag => raise (.corruptReturn tag)

/-- However a callback has to be left, the account tells of it. -/
theorem told_afterCallback (hS : S.Rules) (raw : RawReturn) :
    Eval.ToldBy S (afterCallback raw : Eval σ Value) := by
  unfold afterCallback
  split
  · exact .pure hS _
  · exact fun w => hS.breakOut w _
  · exact fun w => hS.breakOut w _
  · exact .raiseObject hS _
  · exact .raise hS _

/-- No panic comes out of a callback. -/
theorem enterCallback_noPanic (kind : CallbackKind) (body : Option (Closure σ))
    (args : List Value) (blockArg : Value) :
    NoPanic (r.enterCallback kind body args blockArg) := by
  unfold enterCallback
  refine NoPanic.bind (fun w p w' h => by cases h) fun w => ?_
  split
  · exact .raise _
  · refine (NoPanic.catchPanic _).bind fun answer => ?_
    split
    · exact NoPanic.bind (fun w p w' h => by cases h) fun _ => .raise _
    · split
      · exact .pure _
      · exact .breakOut _
      · exact .breakOut _
      · exact .raiseObject _
      · exact .raise _

/-- The account tells of a callback's own code: the host's body, or that of a custom callback. -/
theorem ToldBy.callbackResult (hS : S.BlockRules) (hr : r.ToldBy S handed) {w : World σ}
    {kind : CallbackKind} {callback : Callback σ} (hcallback : w.callback kind = some callback)
    {body : Option (Closure σ)}
    (hbody : ∀ b, body = some b → ∀ args, w.Offers handed (b args)) (args : List Value)
    (blockArg : Value) : ToldAt S (r.callbackResult callback body args blockArg) w := by
  unfold Reentry.callbackResult
  split
  · exact (hr.run _ (hbody _ rfl args)).bind hS.toRules fun outcome w' _ => hS.done w'
  · exact hS.exhausted w
  · exact hr.run _ (.callback hcallback _)

/-- A panic of a callback becomes an exception. -/
theorem ToldBy.enterCallback (hS : S.BlockRules) (hr : r.ToldBy S handed) {w : World σ}
    (kind : CallbackKind) {body : Option (Closure σ)}
    (hbody : ∀ b, body = some b → ∀ args, w.Offers handed (b args)) (args : List Value)
    (blockArg : Value) : ToldAt S (r.enterCallback kind body args blockArg) w := by
  unfold Reentry.enterCallback
  unfold ToldAt
  rw [get_bind_apply]
  cases hcallback : w.callback kind with
  | none => exact hS.raise w _
  | some callback =>
      have hinner := hr.callbackResult hS hcallback hbody args blockArg
      simp only [bind_apply, catchPanic_apply]
      cases hrun : r.callbackResult callback body args blockArg w with
      | ok raw w₁ => exact hS.seq (hinner.of_run hrun) (told_afterCallback hS.toRules raw w₁)
      | error exit w₁ =>
          cases exit with
          | panic p => exact hS.callback (hinner.of_run hrun)
          | jump jump => exact hinner.of_run hrun
          | exhausted => exact hinner.of_run hrun

/-- Calling a proc is told of: its body is one that the world offers. -/
theorem ToldBy.callProc (hS : S.BlockRules) (hr : r.ToldBy S handed) (proc : Value)
    (args : List Value) (target : Option Nat) (blockArg : Value) :
    Eval.ToldBy S (r.callProc proc args target blockArg) := by
  intro w
  unfold Reentry.callProc
  refine .machine_bind ?_
  split
  · rename_i code _
    refine .get_bind ?_
    have hbody : ∀ b, w.procs[code]? = some b →
        ∀ args, (w.enterBlock target).Offers handed (b args) := fun b hb =>
      .proc (Array.mem_of_getElem? hb)
    exact (hr.enterCallback hS .proc hbody args blockArg).asBlock hS args
      (enterCallback_noPanic .proc _ args blockArg)
  · exact hS.raise w _

/-- Yielding to the block of a call is told of: its body was handed over, if it is the host's. -/
theorem ToldBy.yieldBlock (hS : S.BlockRules) (hr : r.ToldBy S handed) {call : Call σ}
    (hcall : call.block.HandedBy handed) (args : List Value) :
    Eval.ToldBy S (r.yieldBlock call args) := by
  intro w
  unfold Reentry.yieldBlock
  split
  · exact hS.raise w _
  · rename_i body target hblock
    rw [hblock] at hcall
    have hbody : ∀ b, body = some b →
        ∀ args, (w.enterBlock (some target)).Offers handed (b args) := by
      rintro b rfl args
      exact .handed hcall args
    exact (hr.enterCallback hS .block hbody args Value.nil).asBlock hS args
      (enterCallback_noPanic .block body args Value.nil)
  · exact hr.callProc hS _ _ _ _ w

end Reentry

/-! ### What is composed of what the interpreter does -/

/-- The account tells of what is composed of what the interpreter does, where no block is called and
no task is asked for. -/
def Account.TellsOrdinary (S : Account σ) (r : Reentry σ) : Prop :=
  ∀ {α : Type} {action : Eval σ α}, Eval.Composed r .none (fun _ => False) action →
    Eval.ToldBy S action

namespace Account

open Eval

variable {α : Type} {S : Account σ} {handed : Closure σ → Prop} {r : Reentry σ}

/-- **What is composed of what the interpreter does is told of**, if all calls in it are, and all
tasks. -/
theorem Rules.composed (hS : S.Rules) {block : Block σ} {allowed : Task → Prop}
    (hsend : ∀ call : Call σ, call.block = .none → ToldBy S (r.send call))
    (hyield : ∀ call args, call.block = block → ToldBy S (r.yieldBlock call args))
    (hproc : ∀ proc args blockArg, ToldBy S (r.callProc proc args none blockArg))
    (hiteration : ∀ call : Nat → Call σ, (∀ target, (call target).block.IsBare target) →
      ToldBy S (do
        let target ← newTarget
        Eval.iterate target (r.send (call target)) : Eval σ Value))
    (htask : ∀ task, allowed task → ToldBy S (perform r task)) {action : Eval σ α}
    (h : Composed r block allowed action) : ToldBy S action := by
  induction h with
  | pure a => exact .pure hS a
  | bind first rest ih₁ ih₂ => exact ih₁.bind hS ih₂
  | machine => exact fun w => hS.done w
  | works h => exact .onMachine hS h
  | raise fault => exact .raise hS fault
  | raiseObject exception => exact .raiseObject hS exception
  | breakOut value => exact fun w => hS.breakOut w value
  | crash message => exact fun w => hS.crash w ⟨message⟩
  | exhausted => exact fun w => hS.exhausted w
  | send hnone => exact hsend _ hnone
  | yieldBlock hsame args => exact hyield _ args hsame
  | callProc proc args blockArg => exact hproc proc args blockArg
  | iteration hbare => exact hiteration _ hbare
  | perform hallowed => exact htask _ hallowed

/-- A method is called with a block for an iteration of its own. -/
theorem Rules.iteration (hS : S.Rules) {call : Nat → Call σ}
    (hsend : ∀ target, ToldBy S (r.send (call target))) :
    ToldBy S (do
      let target ← newTarget
      Eval.iterate target (r.send (call target)) : Eval σ Value) := by
  have htarget : ToldBy S (newTarget : Eval σ Nat) :=
    .onMachine hS fun m => .newTarget m
  exact htarget.bind hS fun target => .iterate hS target (hsend target)

namespace BlockRules

/-- An account that tells of blocks tells of what is composed if it does of calling back. -/
theorem composed (hS : S.BlockRules) (hr : r.ToldBy S handed) {block : Block σ}
    (hblock : block.HandedBy handed) {allowed : Task → Prop}
    (htask : ∀ task, allowed task → ToldBy S (perform r task)) {action : Eval σ α}
    (h : Composed r block allowed action) : ToldBy S action := by
  refine hS.toRules.composed (fun call hnone => ?_) (fun call args hsame => ?_)
    (fun proc args blockArg => ?_) (fun call hbare => ?_) htask h
  · refine hr.send call ?_
    rw [hnone]
    trivial
  · exact hr.yieldBlock hS (hsame ▸ hblock) args
  · exact hr.callProc hS proc args none blockArg
  · refine hS.toRules.iteration fun target => hr.send _ ?_
    have hkind := hbare target
    match hcase : (call target).block with
    | .host none goal | .proc proc goal | .none => trivial
    | .host (some body) goal =>
        rw [hcase] at hkind
        exact hkind.elim

/-- What calls no block and asks for no task is told of. -/
theorem ordinary (hS : S.BlockRules) (hr : r.ToldBy S handed) : S.TellsOrdinary r := by
  intro α action h
  have hnone : (Block.none : Block σ).HandedBy handed := trivial
  exact hS.composed hr hnone (fun _ hfalse => hfalse.elim) h

/-- Calling a method with a closure for its block is told of, if the closure was handed over. -/
theorem callWithClosure (hS : S.BlockRules) (hr : r.ToldBy S handed) (receiver : Value)
    (method : SymbolId) (args : List Value) {body : Closure σ} (hbody : handed body) :
    ToldBy S (callWithClosure r receiver method args body) :=
  hS.toRules.iteration fun _ => hr.send _ hbody

/-- The call of a method is told of from a world if the tasks are that a method of the host's may ask
for there. -/
theorem dispatch (hS : S.BlockRules) (hr : r.ToldBy S handed) {call : Call σ}
    (hcall : call.block.HandedBy handed) {allowed : Task → Prop}
    (htask : ∀ task, allowed task → ToldBy S (perform r task)) {w : World σ}
    (hroutine : ∀ cls body, w.machine.findMethod cls call.method = some (.routine body) →
      ∀ invocation, (body invocation).Within allowed) :
    ToldAt S (dispatch r call) w := by
  unfold EmbeddedRuby.dispatch
  refine .machine_bind ?_
  split
  · exact hS.composed hr hcall htask (Builtin.composed_run _) w
  · rename_i body hfound
    exact hS.composed hr hcall htask (Routine.composed_run (hroutine _ body hfound _)) w
  · exact hS.raise w _

end BlockRules

end Account

end EmbeddedRuby
