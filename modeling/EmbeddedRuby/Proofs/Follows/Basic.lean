import EmbeddedRuby.Proofs.Accounts.Programs

/-!
# Runs that follow courses

A run **follows** its course if from every world that holds no code beyond what `P` allows there is
a course with the ending of the run to the world after it (`Eval.Follows`).  Courses are an account of
runs: one that obeys all rules, and tells nothing else (`Course.account`).  So what follows a course is
found as what is told of by any account, if calling back follows (`Reentry.Follows`), which the next
module assumes and the last one proves.

The rules leave open how scripts follow; that is a matter of the script that a statement stands in.
-/

namespace EmbeddedRuby

namespace Eval

variable {σ α β : Type} {P : Probe → Prop}

/-- The run from a world follows a course. -/
def FollowsAt (P : Probe → Prop) (action : Eval σ α) (w : World σ) : Prop :=
  Course P none w (Outcome.ending (action w)) (Outcome.world (action w))

/-- A run that follows a course leads by it to where it ends. -/
theorem FollowsAt.of_run {action : Eval σ α} {w : World σ} {result : Outcome σ α}
    (h : FollowsAt P action w) (hrun : action w = result) :
    Course P none w (Outcome.ending result) (Outcome.world result) := by
  subst hrun
  exact h

/-- The run follows a course from every world, as far as the host's code in it allows. -/
def Follows (P : Probe → Prop) (action : Eval σ α) : Prop :=
  ∀ w, w.HostCode P → FollowsAt P action w

/-- The run from a world follows a course, and no jump comes out of it. -/
structure SettlesAt (P : Probe → Prop) (action : Eval σ α) (w : World σ) : Prop where
  follows : FollowsAt P action w
  noJump : ∀ jump w', action w ≠ .error (.jump jump) w'

/-- No jump comes out of a run that settles. -/
theorem SettlesAt.ending_ne_jump {action : Eval σ α} {w : World σ} (h : SettlesAt P action w)
    (jump : Jump) : Outcome.ending (action w) ≠ .jump jump := by
  intro hjump
  cases hrun : action w with
  | ok a w' =>
      rw [hrun] at hjump
      cases hjump
  | error exit w' =>
      rw [hrun] at hjump
      cases hjump
      exact h.noJump jump w' hrun

/-- A run settles that follows a course to a value. -/
theorem SettlesAt.value {action : Eval σ α} {w w' : World σ} {a : α} (hrun : action w = .ok a w')
    (h : Course P none w .value w') : SettlesAt P action w := by
  constructor
  · unfold FollowsAt
    rw [hrun]
    exact h
  · intro jump w₁ hjump
    rw [hrun] at hjump
    cases hjump

/-- A run settles that follows a course and is left by anything but a jump. -/
theorem SettlesAt.exit {action : Eval σ α} {w w' : World σ} {exit : Exit}
    (hrun : action w = .error exit w') (h : Course P none w (.exit exit) w')
    (hexit : ∀ jump, exit ≠ .jump jump) : SettlesAt P action w := by
  constructor
  · unfold FollowsAt
    rw [hrun]
    exact h
  · intro jump w₁ hjump
    rw [hrun] at hjump
    cases hjump
    exact hexit jump rfl

/-- The run follows a course from every world, as far as the host's code in it allows, and no jump
comes out of it. -/
def Settles (P : Probe → Prop) (action : Eval σ α) : Prop :=
  ∀ w, w.HostCode P → SettlesAt P action w

end Eval

variable {σ : Type} {P : Probe → Prop}

/-! ### Courses as an account -/

/-- Steps of the interpreter are a course. -/
theorem Course.of_steps {m m' : Machine} (h : m.Steps m') (w : World σ) (hm : w.machine = m) :
    Course P none w .value { w with machine := m' } := by
  induction h with
  | refl =>
      subst hm
      exact .done w
  | tail before last ih => exact .seq ih (.step (.machine _ last))

/-- The account that courses give, from worlds that hold no code beyond what `P` allows. -/
def Course.account (P : Probe → Prop) : Account σ :=
  fun w ending w' => w.HostCode P → Course P none w ending w'

/-- Courses obey the rules of what the interpreter does. -/
theorem Course.rules : (Course.account P : Account σ).Rules where
  done w _ := .done w
  seq hfirst hrest hw := .seq (hfirst hw) (hrest ((hfirst hw).hostCode hw))
  works w _ h _ := .of_steps h.steps w rfl
  raise w fault _ := .raise w fault
  raiseObject _ _ hexception _ := .raiseObject hexception
  breakOut w value _ := .breakOut w value
  crash w p _ := .crash w p
  exhausted w _ := .exhausted w
  iterate hinner hw := .iterate (hinner hw)

/-- Courses obey the rules of blocks. -/
theorem Course.blockRules : (Course.account P : Account σ).BlockRules where
  toRules := Course.rules
  block hinner hw := .block (hinner (hw.of_eq rfl rfl rfl))
  blockLeft hinner hexit hw := .blockLeft (hinner (hw.of_eq rfl rfl rfl)) hexit
  callback hinner hw := .callback (hinner hw)

/-- Courses obey the rules of operations. -/
theorem Course.operationRules :
    (Course.account P : Account σ).OperationRules (Closure.Uses P) where
  toBlockRules := Course.blockRules
  setup hunknown hstart _ := .step (.setup hunknown hstart)
  learn hnew hasked _ _ := .step (.learn _ hnew hasked)
  boxed hup _ := .step (.boxed hup)
  addProc hup hbody _ := .addProc hup hbody
  settled hinner hparked hw := .settled (hinner hw) hparked
  resumed hinner hparked hw := .resumed (hinner hw) hparked
  quiet hinner hw := .quiet (hinner hw)

/-- Courses obey the rules of programs. -/
theorem Course.programRules : (Course.account P : Account σ).ProgramRules P where
  toOperationRules := Course.operationRules
  record w error _ := .step (.record w error)
  clearErrors w _ := .step (.clearErrors w)
  remember w memory _ := .step (.remember w memory)
  unboxed w _ hheld _ := .step (.unboxed w hheld)
  cleanUp hup _ := .step (.cleanUp _ hup)
  register hempty hrun _ := .register hempty hrun
  caught hinner hw := .caught (hinner hw)
  probe hprobe h _ := .probe hprobe h
  counted _ w _ := .step (.machine w (.countIntern w.machine))
  attempted hprobe hinner hw := .attempt hprobe (hinner hw)

/-- What courses tell of what no jump comes out of is that it settles. -/
theorem Eval.SettledBy.settles {α : Type} {action : Eval σ α}
    (h : SettledBy (Course.account P) action) : Settles P action :=
  fun w hw => ⟨h.told w hw, h.noJump w⟩

/-! ### Calling back -/

/-- The host's code in a block uses no probes but those that `P` allows. -/
def Block.Uses (P : Probe → Prop) : Block σ → Prop
  | .host (.some body) _ => Closure.Uses P body
  | .host .none _ | .none | .proc .. => True

/-- The host's code in a block is what was handed over for it. -/
theorem Block.uses_iff {block : Block σ} : block.Uses P ↔ block.HandedBy (Closure.Uses P) := by
  match block with
  | .host (some _) _ | .host .none _ | .none | .proc .. => exact Iff.rfl

/-- Where every probe is allowed a block uses none but these. -/
theorem Block.uses_anyProbe (block : Block σ) : block.Uses AnyProbe := by
  match block with
  | .host (some body) _ => exact fun args => (body args).uses_anyProbe
  | .host .none _ | .none | .proc .. => trivial

/-- Calling back follows courses. -/
structure Reentry.Follows (P : Probe → Prop) (r : Reentry σ) : Prop where
  send : ∀ call, call.block.Uses P → Eval.Follows P (r.send call)
  run : ∀ {role : Role} (program : Program σ role), program.Uses P → Eval.Settles P (r.run program)

/-- What a world offers uses no probes but those that are allowed, if its code does not. -/
theorem World.Offers.uses {w : World σ} {role : Role} {program : Program σ role}
    (h : w.Offers (Closure.Uses P) program) (hw : w.HostCode P) : program.Uses P := by
  cases h with
  | handed hbody args => exact hbody args
  | proc hbody args => exact hw.procs _ hbody args
  | callback hrun input => exact hw.callbacks _ _ hrun input

/-- Calling back is told of by courses if it follows them. -/
theorem Reentry.Follows.told {r : Reentry σ} (hr : r.Follows P) :
    r.ToldBy (Course.account P) (Closure.Uses P) := by
  refine ⟨fun call hcall => ?_, fun program hoffers hw => ?_⟩
  · exact hr.send call (Block.uses_iff.mpr hcall)
  · exact (hr.run program (hoffers.uses hw) _ hw).follows

/-- What is composed of what the interpreter does follows a course. -/
theorem Reentry.Follows.composed {α : Type} {r : Reentry σ} (hr : r.Follows P) {action : Eval σ α}
    (h : Eval.Composed r .none (fun _ => False) action) : Eval.Follows P action :=
  Course.blockRules.ordinary hr.told h

/-- The definitions of statements follow a course. -/
theorem Reentry.Follows.tellsDefinitions {r : Reentry σ} (hr : r.Follows P) :
    (Course.account P).TellsDefinitions r :=
  .of_deeds Course.rules hr.composed fun w _ hdeeds _ => .of_steps hdeeds.steps w rfl

end EmbeddedRuby
