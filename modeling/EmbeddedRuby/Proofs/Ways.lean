import EmbeddedRuby.Proofs.Iterations
import EmbeddedRuby.Proofs.ProtectedStacks

/-!
# The way to a part of a run

A run is put together from other runs: one goes on where another one ends, and a few things stand
around a run and look at what comes out of it.  How a run comes to a part of it is a relation between
the two (`Eval.ComesTo`), with one case for each of these ways of putting runs together.  What comes
out of the part by an exit goes back the same way.

Of all that a break can meet on its way back two things stop it: the iteration that it is for, and a
barrier.  They are written down along the way, the outermost first (`Stop`).

The second half follows the interpreter on such ways: from a program of the host's to the call that
it asks for, from there to the block of the call, and into the body of the host's in it.
-/

namespace EmbeddedRuby

open Eval

variable {σ α β : Type}

/-- What can stop a break on its way. -/
inductive Stop where
  | iteration (target : Nat)
  | barrier

/-- A part of a run from `w` has come to its end in `w₁`, and the same blocks are running. -/
structure World.GoesOn (w w₁ : World σ) : Prop where
  reached : w.Reaches AnyProbe w₁
  yields : w₁.machine.yields = w.machine.yields

/-- A world goes on in itself. -/
theorem World.GoesOn.refl (w : World σ) : w.GoesOn w :=
  ⟨.refl, rfl⟩

/-- A world goes on by a course that gives a value, since such a course leaves the blocks alone. -/
theorem World.GoesOn.of_course {script : Option Nat} {w w₁ : World σ}
    (h : Course AnyProbe script w .value w₁) : w.GoesOn w₁ :=
  ⟨h.reaches, h.yields_eq trivial⟩

namespace Eval

/-- A method is called with a block for an iteration of its own. -/
def iterated (r : Reentry σ) (call : Nat → Call σ) : Eval σ Value := do
  let target ← newTarget
  iterate target (r.send (call target))

/-- The iteration gets the next number. -/
theorem iterated_apply (r : Reentry σ) (call : Nat → Call σ) (w : World σ) :
    iterated r call w =
      iterate (w.machine.lastTarget + 1) (r.send (call (w.machine.lastTarget + 1))) w.iterating :=
  rfl

/-- On its way the run `x` from `w` comes to the run `y` from `u`, and passes what is `within`. -/
inductive ComesTo {β : Type} (y : Eval σ β) (u : World σ) :
    List Stop → {α : Type} → Eval σ α → World σ → Prop
  | here : ComesTo y u [] y u
  | first {α γ : Type} {x : Eval σ γ} {f : γ → Eval σ α} {w : World σ} {within : List Stop}
      (h : ComesTo y u within x w) : ComesTo y u within (x >>= f) w
  | rest {α γ : Type} {x : Eval σ γ} {f : γ → Eval σ α} {w w₁ : World σ} {a : γ}
      {within : List Stop} (hfirst : x w = .ok a w₁) (hon : w.GoesOn w₁)
      (h : ComesTo y u within (f a) w₁) : ComesTo y u within (x >>= f) w
  /-- Inside a block. -/
  | block {target : Option Nat} {args : List Value} {action : Eval σ Value} {w : World σ}
      {within : List Stop} (hargs : args.length < argumentLimit)
      (h : ComesTo y u within action (w.enterBlock target)) :
      ComesTo y u within (asBlock target args action) w
  /-- In what a panic does not come out of. -/
  | caught {α : Type} {action : Eval σ α} {w : World σ} {within : List Stop}
      (h : ComesTo y u within action w) : ComesTo y u within (catchPanic action) w
  | iterate {fuel : Nat} {call : Nat → Call σ} {w : World σ} {within : List Stop}
      (h : ComesTo y u within ((Reentry.ofFuel fuel).send (call (w.machine.lastTarget + 1)))
        w.iterating) :
      ComesTo y u (.iteration (w.machine.lastTarget + 1) :: within) (iterated (.ofFuel fuel) call) w
  | barrier {α : Type} {fuel : Nat} {job : Eval σ α} {w : World σ} {within : List Stop}
      (hjob : Vm.Job AnyProbe (.ofFuel fuel) job) (h : ComesTo y u within job w) :
      ComesTo y u (.barrier :: within) (protect job) w

namespace ComesTo

variable {γ : Type} {z : Eval σ γ} {y : Eval σ β} {x : Eval σ α} {s u w : World σ}
  {within outer inner : List Stop}

/-- What a part of a run comes to, the run comes to. -/
theorem trans (h : ComesTo y u outer x w) (hinner : ComesTo z s inner y u) :
    ComesTo z s (outer ++ inner) x w := by
  induction h with
  | here => exact hinner
  | first _ ih => exact .first ih
  | rest hfirst hon _ ih => exact .rest hfirst hon ih
  | block hargs _ ih => exact .block hargs ih
  | caught _ ih => exact .caught ih
  | iterate _ ih => exact .iterate ih
  | barrier hjob _ ih => exact .barrier hjob ih

/-- A look at the interpreter passes nothing. -/
theorem look {f : Machine → Eval σ α} (h : ComesTo y u within (f w.machine) w) :
    ComesTo y u within (machine >>= f) w := by
  have hlook : (machine : Eval σ Machine) w = .ok w.machine w := rfl
  exact .rest hlook (.refl w) h

/-- A look at the world passes nothing. -/
theorem lookAround {f : World σ → Eval σ α} (h : ComesTo y u within (f w) w) :
    ComesTo y u within (get >>= f) w := by
  have hlook : (get : Eval σ (World σ)) w = .ok w w := rfl
  exact .rest hlook (.refl w) h

/-- The world in which a part begins is one to which the run comes. -/
theorem reaches (h : ComesTo y u within x w) : w.Reaches AnyProbe u := by
  induction h with
  | here => exact .refl
  | first _ ih | caught _ ih | barrier _ _ ih => exact ih
  | rest _ hon _ ih => exact hon.reached.trans ih
  | @block target _ _ w _ _ _ ih => exact .head (.restack w _ _) ih
  | @iterate _ _ w _ _ ih => exact .head (.step (.machine w (.newTarget w.machine))) ih

/-- The blocks that were running when the run began are running still. -/
theorem yields_suffix (h : ComesTo y u within x w) : w.machine.yields <:+ u.machine.yields := by
  induction h with
  | here => exact List.suffix_refl _
  | first _ ih | caught _ ih | barrier _ _ ih | iterate _ ih => exact ih
  | rest _ hon _ ih => exact hon.yields ▸ ih
  | block _ _ ih => exact (List.suffix_cons _ _).trans ih

end ComesTo

end Eval

/-- **The numbers of iterations are not given twice**: at no moment after an iteration has begun is
its number still to be given. -/
theorem World.Reaches.lastTarget_le {P : Probe → Prop} {w w' : World σ} (h : w.Reaches P w') :
    w.machine.lastTarget ≤ w'.machine.lastTarget := by
  induction h with
  | refl => exact Nat.le_refl _
  | tail _ last ih => exact Nat.le_trans ih last.countsUp.lastTarget

/-! ### Through the interpreter -/

namespace Eval

namespace ComesTo

variable {ε γ : Type} {y : Eval σ β} {u w w₁ : World σ} {within : List Stop}

/-- The first step of an operation is on the way of the operation. -/
theorem runFirst {x : ExceptT ε (Eval σ) γ} {f : γ → ExceptT ε (Eval σ) α}
    (h : ComesTo y u within x.run w) : ComesTo y u within (x >>= f).run w := by
  rw [ExceptT.run_bind]
  exact .first h

/-- The later steps of an operation are on its way. -/
theorem runRest {x : ExceptT ε (Eval σ) γ} {f : γ → ExceptT ε (Eval σ) α} {a : γ}
    (hfirst : x.run w = .ok (.ok a) w₁) (hon : w.GoesOn w₁)
    (h : ComesTo y u within (f a).run w₁) : ComesTo y u within (x >>= f).run w := by
  rw [ExceptT.run_bind]
  exact .rest hfirst hon h

/-- A part of an evaluation is come to in an operation that has the evaluation for a part. -/
theorem runLift {x : Eval σ α} (h : ComesTo y u within x w) :
    ComesTo y u within (ExceptT.lift x : ExceptT ε (Eval σ) α).run w := by
  rw [ExceptT.run_lift, map_eq_pure_bind]
  exact .first h

/-- What an operation runs behind a barrier is on its way. -/
theorem guarded {job : Eval σ α} (h : ComesTo y u within (protect job) w) :
    ComesTo y u within (Vm.guarded job).run w :=
  .runFirst (.runLift h)

/-- The steps of an operation are on its way. -/
theorem settled {r : Reentry σ} {operation : Checked σ α} (h : ComesTo y u within operation.run w) :
    ComesTo y u within (Vm.settled r operation) w :=
  .first h

end ComesTo

end Eval

section

variable {r : Reentry σ} {role : Role} {w : World σ}

/-- Getting to know a name leaves all blocks running. -/
theorem World.goesOn_knowing {name : String} (hup : w.state = .up) : w.GoesOn (w.knowing name) := by
  unfold World.knowing
  cases hid : w.ids.get? name with
  | some id => exact .refl w
  | none => exact .of_course (.step (.learn w hid (.inl hup)))

/-- A program that has a method called with a body comes to the call, behind a barrier. -/
theorem Program.comesTo_callWithBlock {method : String} (hmethod : Vm.isName .method method)
    (hsymbol : Vm.isName .symbol method) {args : List Value} (hargs : args.length < argumentLimit)
    (hup : w.state = .up) (hclosures : w.blockCallback = some .closures) (receiver : Value)
    (body : Closure σ) (next : Answer (Except Error Value) → Program σ role) :
    ComesTo (protect (callWithClosure r receiver (w.idOf method) args body)) (w.knowing method) []
      (Program.run r (.callWithBlock receiver method args body next)) w := by
  have hknown : (w.knowing method).blockCallback = some .closures :=
    (w.knowing_callback method .block).trans hclosures
  have hcount : (Vm.checkCount args.length : Checked σ Unit).run (w.knowing method) =
      .ok (.ok ()) (w.knowing method) := by
    unfold Vm.checkCount
    rw [if_neg (Nat.not_le_of_lt hargs), run_pure_apply]
  refine .first (.caught (.settled ?_))
  refine .runRest (Vm.checkedName_run_of_up hmethod hsymbol hup) (World.goesOn_knowing hup) ?_
  refine .runRest hcount (.refl _) ?_
  have hlook : (get : Checked σ (World σ)).run (w.knowing method) =
      .ok (.ok (w.knowing method)) (w.knowing method) := rfl
  refine .runRest hlook (.refl _) ?_
  rw [hknown]
  exact .guarded .here

/-- A program that calls a proc comes to the call, behind a barrier. -/
theorem Program.comesTo_callProc (hup : w.state = .up) (proc : Value)
    (next : Answer (Except Error Value) → Program σ role) :
    ComesTo (protect (perform r (.callProc proc [] Value.nil))) w []
      (Program.run r (.ask (.callProc proc [] none) next)) w := by
  refine .first (.caught (.settled ?_))
  refine .runRest (Vm.ensureSetup_run_of_up hup) (.refl w) ?_
  have hcount : (Vm.checkCount ([] : List Value).length : Checked σ Unit).run w = .ok (.ok ()) w := rfl
  exact .runRest hcount (.refl w) (.guarded .here)

/-- A callback comes to the body that the block was handed. -/
theorem Reentry.comesTo_enterCallback {kind : CallbackKind} (hclosures : w.callback kind = some .closures)
    (body : Closure σ) (args : List Value) (blockArg : Value) :
    ComesTo (r.run (body args)) w [] (r.enterCallback kind (some body) args blockArg) w := by
  refine .lookAround ?_
  rw [hclosures]
  exact .first (.caught (.first .here))

/-- A call comes to the code of its method. -/
theorem Reentry.comesTo_send {fuel : Nat} {call : Call σ} {method : Method}
    (h : w.machine.findMethod (w.machine.heap.classOf call.receiver) call.method = some method) :
    ComesTo (method.body (.ofFuel fuel) call) w [] ((Reentry.ofFuel (fuel + 1)).send call) w := by
  refine .look ?_
  rw [h]
  cases method <;> exact .here

/-- Counting comes to the block with the first number. -/
theorem comesTo_times {call : Call σ} {n : Int} (hcount : w.machine.heap.int? call.receiver = some n)
    (hpositive : 0 < n) {rounds : Nat} (hrounds : r.rounds = rounds + 1) :
    ComesTo (r.yieldBlock call [(w.machine.newInteger 0).1])
      (w.onMachine fun m => (m.newInteger 0).2) [] (Builtin.integerTimes.run r call) w := by
  have hmake : (onMachine fun m => m.newInteger 0 : Eval σ Value) w =
      .ok (w.machine.newInteger 0).1 (w.onMachine fun m => (m.newInteger 0).2) := rfl
  refine .look ?_
  rw [hcount, hrounds]
  unfold Methods.timesFrom
  rw [Option.getD_some, if_pos hpositive]
  exact .rest hmake (.of_course (.step (.machine w (.integer w.machine 0)))) (.first .here)

end

end EmbeddedRuby
