import EmbeddedRuby.Proofs.Ways

/-!
# Breaks that come out of a call

A block that breaks ends an iteration.  Which one is read off the stack of running blocks at the
moment of the break, so it is the right one only if everything that ran in the block before has left
that stack as it found it.

A block or proc of the host's is entered as an `Entry`, and breaks if the host's code in it has come
to a break (`Entry.Breaks`).  The jump goes to the target that the entry was made with
(`Entry.run_eq_break_iff`).

No call of a method is left for an iteration but by a block that was entered for it, or by a method
of the host's that breaks out in the open, outside of all blocks of its own (`World.BreaksOpenly`,
`Reentry.ConfinesBreaks`, `Reentry.entry_of_send_break`).  The two are told apart by the stack of
running blocks: a jump leaves it as it was at the break, and a block that was entered stands on it.
-/

namespace EmbeddedRuby

open Eval

variable {σ α β : Type}

/-! ### Entering a block -/

/-- The host's code has come to a break with this value. -/
inductive BlockReturn.Breaks : BlockReturn → Value → Prop
  | off : Breaks .breakOff Value.nil
  | value (v : Value) : Breaks (.breakValue v) v

namespace Reentry

variable {r : Reentry σ}

/-- What the host comes to when it is called back is not a jump. -/
theorem callbackResult_noJump (hr : r.Follows AnyProbe) (callback : Callback σ)
    (body : Option (Closure σ)) (args : List Value) (blockArg : Value) (w : World σ) (jump : Jump)
    (w' : World σ) : r.callbackResult callback body args blockArg w ≠ .error (.jump jump) w' := by
  intro h
  have settles : ∀ {role : Role} (program : Program σ role), Settles AnyProbe (r.run program) :=
    fun program => hr.run program program.uses_anyProbe
  match callback, body with
  | .closures, some body =>
      rcases bind_error_iff.mp h with hjump | ⟨outcome, w₁, _, hpure⟩
      · exact (settles (body args) w w.hostCode_anyProbe).noJump jump w' hjump
      · cases hpure
  | .closures, none => cases h
  | .custom run, body => exact (settles _ w w.hostCode_anyProbe).noJump jump w' h

/-- What has been called back has left the stack of running blocks as it was. -/
theorem yields_of_callbackResult (hr : r.Follows AnyProbe) {callback : Callback σ}
    {body : Option (Closure σ)} {args : List Value} {blockArg : Value} {w w' : World σ}
    {kind : CallbackKind} {raw : RawReturn} (hcallback : w.callback kind = some callback)
    (hrun : r.callbackResult callback body args blockArg w = .ok raw w') :
    w'.machine.yields = w.machine.yields := by
  have hbody : ∀ b, body = some b → ∀ args, w.Offers (Closure.Uses AnyProbe) (b args) :=
    fun b _ args => .handed (fun args => (b args).uses_anyProbe) args
  have htold := hr.told.callbackResult Course.blockRules hcallback hbody args blockArg
  have hcourse : Course AnyProbe none w .value w' := htold.of_run hrun w.hostCode_anyProbe
  exact hcourse.yields_eq trivial

/-- What the host has come to is a break if that is what it says. -/
theorem afterCallback_eq_break_iff {raw : RawReturn} {goal : Option Nat} {v : Value}
    {w w' : World σ} :
    (afterCallback raw : Eval σ Value) w = .error (.jump (.breakTo goal v)) w' ↔
      w' = w ∧ goal = w.machine.yields.head?.join ∧
        ∃ outcome, BlockReturn.ofRaw raw = .ok outcome ∧ outcome.Breaks v := by
  unfold afterCallback
  constructor
  · intro h
    cases hraw : BlockReturn.ofRaw raw with
    | error tag =>
        rw [hraw] at h
        cases h
    | ok outcome =>
        rw [hraw] at h
        cases outcome with
        | value value => cases h
        | breakOff =>
            cases h
            exact ⟨rfl, rfl, .breakOff, rfl, .off⟩
        | breakValue value =>
            cases h
            exact ⟨rfl, rfl, .breakValue v, rfl, .value v⟩
        | raise exception =>
            simp only [raiseObject] at h
            rw [machine_bind_apply] at h
            split at h <;> cases h
  · rintro ⟨rfl, rfl, outcome, hraw, hbreak⟩
    rw [hraw]
    cases hbreak <;> rfl

end Reentry

/-- A block or a proc that is entered: the host's code in it, its arguments, and where a break out of
it goes. -/
structure Entry (σ : Type) where
  kind : CallbackKind
  body : Option (Closure σ)
  args : List Value
  blockArg : Value
  target : Option Nat

namespace Entry

variable {r : Reentry σ} {e : Entry σ} {goal : Option Nat} {v : Value} {u u' : World σ}

def run (r : Reentry σ) (e : Entry σ) : Eval σ Value :=
  asBlock e.target e.args (r.enterCallback e.kind e.body e.args e.blockArg)

/-- The host is called back for a block that was entered in the world `u`, and says that it breaks
with the value `v`. -/
def SaysBreak (r : Reentry σ) (e : Entry σ) (u : World σ) (v : Value) (u' : World σ) : Prop :=
  ∃ callback raw outcome, u.callback e.kind = some callback ∧
    r.callbackResult callback e.body e.args e.blockArg (u.enterBlock e.target) = .ok raw u' ∧
    BlockReturn.ofRaw raw = .ok outcome ∧ outcome.Breaks v

/-- The block is entered in the world `u` and breaks with the value `v`. -/
structure Breaks (r : Reentry σ) (e : Entry σ) (u : World σ) (v : Value) (u' : World σ) : Prop where
  counted : e.args.length < argumentLimit
  saysBreak : e.SaysBreak r u v u'

/-- A callback is left by a break if the host says so, and the break goes to the target of the block:
all that has run in the block has left the stack of running blocks as it found it. -/
theorem enterCallback_eq_break_iff (hr : r.Follows AnyProbe) :
    r.enterCallback e.kind e.body e.args e.blockArg (u.enterBlock e.target) =
        .error (.jump (.breakTo goal v)) u' ↔
      goal = e.target ∧ e.SaysBreak r u v u' := by
  unfold Reentry.enterCallback SaysBreak
  rw [get_bind_apply]
  have hsame : (u.enterBlock e.target).callback e.kind = u.callback e.kind := rfl
  rw [hsame]
  cases hcallback : u.callback e.kind with
  | none =>
      constructor
      · intro h
        cases h
      · rintro ⟨-, callback, raw, outcome, hfound, -⟩
        cases hfound
  | some callback =>
      simp only [bind_apply, catchPanic_apply]
      cases hrun : r.callbackResult callback e.body e.args e.blockArg (u.enterBlock e.target) with
      | error exit u₁ =>
          constructor
          · intro h
            cases exit with
            | jump jump => exact absurd hrun (Reentry.callbackResult_noJump hr _ _ _ _ _ _ _)
            | panic p => cases h
            | exhausted => cases h
          · rintro ⟨-, found, raw, outcome, hfound, hraw, -⟩
            cases hfound
            rw [hrun] at hraw
            cases hraw
      | ok raw u₁ =>
          have hyields : u₁.machine.yields = e.target :: u.machine.yields :=
            Reentry.yields_of_callbackResult hr (hsame.trans hcallback) hrun
          change (Reentry.afterCallback raw : Eval σ Value) u₁ = _ ↔ _
          rw [Reentry.afterCallback_eq_break_iff, hyields]
          constructor
          · rintro ⟨rfl, hgoal, outcome, hraw, hbreak⟩
            exact ⟨hgoal, callback, raw, outcome, rfl, hrun, hraw, hbreak⟩
          · rintro ⟨hgoal, found, raw', outcome, hfound, hrun', hraw, hbreak⟩
            cases hfound
            rw [hrun] at hrun'
            cases hrun'
            exact ⟨rfl, hgoal, outcome, hraw, hbreak⟩

/-- **A block is left by a break if it breaks**, and the break goes to the target that it was entered
with. -/
theorem run_eq_break_iff (hr : r.Follows AnyProbe) :
    e.run r u = .error (.jump (.breakTo goal v)) u' ↔ goal = e.target ∧ e.Breaks r u v u' := by
  unfold run
  by_cases hargs : e.args.length < argumentLimit
  · have hinner : r.enterCallback e.kind e.body e.args e.blockArg (u.enterBlock e.target) =
        .error (.jump (.breakTo goal v)) u' ↔ goal = e.target ∧ e.SaysBreak r u v u' :=
      enterCallback_eq_break_iff hr
    rw [asBlock_apply e.target hargs]
    constructor
    · intro h
      have hleft : r.enterCallback e.kind e.body e.args e.blockArg (u.enterBlock e.target) =
          .error (.jump (.breakTo goal v)) u' := by
        cases hrun : r.enterCallback e.kind e.body e.args e.blockArg (u.enterBlock e.target) with
        | ok a u₁ =>
            rw [hrun] at h
            cases h
        | error exit u₁ =>
            rw [hrun] at h
            exact h
      exact ⟨(hinner.mp hleft).1, hargs, (hinner.mp hleft).2⟩
    · rintro ⟨hgoal, hbreaks⟩
      rw [hinner.mpr ⟨hgoal, hbreaks.saysBreak⟩]
  · rw [asBlock_of_tooMany e.target (Nat.le_of_not_lt hargs)]
    constructor
    · intro h
      cases h
    · rintro ⟨-, hbreaks⟩
      exact absurd hbreaks.counted hargs

/-- The block is still running when it breaks. -/
theorem Breaks.yields (hr : r.Follows AnyProbe) (h : e.Breaks r u v u') :
    u'.machine.yields = e.target :: u.machine.yields := by
  obtain ⟨callback, raw, outcome, hcallback, hrun, -⟩ := h.saysBreak
  have hsame : (u.enterBlock e.target).callback e.kind = some callback := hcallback
  exact Reentry.yields_of_callbackResult hr hsame hrun

end Entry

/-! ### How blocks come to be entered -/

/-- The iteration that a break out of the block ends. -/
def Block.target? : Block σ → Option Nat
  | .none => Option.none
  | .host _ target | .proc _ target => some target

namespace Reentry

variable {r : Reentry σ} {goal : Option Nat} {v : Value} {u u' : World σ}

/-- A proc that is called is entered, if it is one. -/
theorem comesTo_of_callProc {proc : Value} {code : Nat}
    (hproc : u.machine.heap.body? proc = some (.proc code)) (args : List Value)
    (target : Option Nat) (blockArg : Value) :
    ComesTo (Entry.run r ⟨.proc, u.procs[code]?, args, blockArg, target⟩) u []
      (r.callProc proc args target blockArg) u := by
  unfold callProc
  refine .look ?_
  rw [hproc]
  exact .lookAround .here

/-- If the call of a proc is left by a break, the proc was entered and has broken. -/
theorem entry_of_callProc_break (hr : r.Follows AnyProbe) {proc : Value} {args : List Value}
    {target : Option Nat} {blockArg : Value}
    (h : r.callProc proc args target blockArg u = .error (.jump (.breakTo goal v)) u') :
    ∃ e : Entry σ, e.target = target ∧ goal = target ∧
      ComesTo (e.run r) u [] (r.callProc proc args target blockArg) u ∧ e.Breaks r u v u' := by
  cases hbody : u.machine.heap.body? proc with
  | some body =>
      match body with
      | .proc code =>
          have hway := comesTo_of_callProc (r := r) hbody args target blockArg
          have hopen : r.callProc proc args target blockArg u =
              Entry.run r ⟨.proc, u.procs[code]?, args, blockArg, target⟩ u := by
            unfold callProc
            rw [machine_bind_apply, hbody]
            rfl
          rw [hopen] at h
          obtain ⟨hgoal, hbreaks⟩ := (Entry.run_eq_break_iff hr).mp h
          exact ⟨_, rfl, hgoal, hway, hbreaks⟩
      | .string _ | .array _ | .hash _ | .plain | .exception .. | .float _ | .bignum _
      | .ofModule _ =>
          unfold callProc at h
          rw [machine_bind_apply, hbody] at h
          cases h
  | none =>
      unfold callProc at h
      rw [machine_bind_apply, hbody] at h
      cases h

/-- If the call of a block is left by a break, the block was entered and has broken, and it is for the
iteration that the break goes to. -/
theorem entry_of_yieldBlock_break (hr : r.Follows AnyProbe) {call : Call σ} {args : List Value}
    (h : r.yieldBlock call args u = .error (.jump (.breakTo goal v)) u') :
    call.block.target? = goal ∧ ∃ e : Entry σ, e.target = goal ∧
      ComesTo (e.run r) u [] (r.yieldBlock call args) u ∧ e.Breaks r u v u' := by
  unfold yieldBlock at h ⊢
  cases hblock : call.block with
  | none =>
      rw [hblock] at h
      cases h
  | host body target =>
      rw [hblock] at h
      obtain ⟨hgoal, hbreaks⟩ :=
        (Entry.run_eq_break_iff (e := ⟨.block, body, args, Value.nil, some target⟩) hr).mp h
      exact ⟨hgoal.symm, _, hgoal.symm, .here, hbreaks⟩
  | proc proc target =>
      rw [hblock] at h
      obtain ⟨e, htarget, hgoal, hway, hbreaks⟩ := entry_of_callProc_break hr h
      exact ⟨hgoal.symm, e, htarget.trans hgoal.symm, hway, hbreaks⟩

end Reentry

/-! ### Breaking out in the open -/

namespace World

/-- A run from `w` was left in `w'` by a break out in the open: the iteration `goal` is that of the
innermost block that was running, and the break stands in no block that was entered since. -/
structure LeftOpenly (w : World σ) (goal : Nat) (w' : World σ) : Prop where
  innermost : w.machine.yields.head? = some (some goal)
  yields : w'.machine.yields = w.machine.yields

/-- What is told of runs in which no block is entered that belongs outside: the stack of running
blocks is kept, and a break to an iteration is one out in the open. -/
structure BreaksOpenly (w : World σ) (ending : Ending) (w' : World σ) : Prop where
  suffix : w.machine.yields <:+ w'.machine.yields
  same : ending = .value → w'.machine.yields = w.machine.yields
  goal : ∀ {goal v}, ending = .jump (.breakTo (some goal) v) → w.LeftOpenly goal w'

/-- A run that leaves the blocks as they were breaks openly if what it breaks out of is the
innermost one. -/
theorem BreaksOpenly.of_same {w w' : World σ} {ending : Ending}
    (hsame : w'.machine.yields = w.machine.yields)
    (hgoal : ∀ {goal v}, ending = .jump (.breakTo (some goal) v) →
      w.machine.yields.head? = some (some goal)) : w.BreaksOpenly ending w' := by
  have hsuffix : w.machine.yields <:+ w'.machine.yields := hsame ▸ List.suffix_refl _
  exact ⟨hsuffix, fun _ => hsame, fun h => ⟨hgoal h, hsame⟩⟩

/-- The account of runs that break openly. -/
def openly : Account σ :=
  fun w ending w' => w.BreaksOpenly ending w'

/-- What the interpreter does by itself is left for an iteration openly, if at all. -/
theorem openly_rules : (openly : Account σ).Rules where
  done w := .of_same rfl (by simp)
  seq {w w₁ w₂ ending} hfirst hrest := by
    have hsame := hfirst.same rfl
    refine ⟨hfirst.suffix.trans hrest.suffix, fun h => (hrest.same h).trans hsame, fun h => ?_⟩
    obtain ⟨hinnermost, hyields⟩ := hrest.goal h
    exact ⟨hsame ▸ hinnermost, hyields.trans hsame⟩
  works w m h := .of_same h.steps.sameStacks.yields (by simp)
  raise w fault := .of_same (w.machine.newException_sameStacks fault).yields (by simp)
  raiseObject w exception _ := .of_same (w.machine.fillBacktrace_sameStacks exception).yields (by simp)
  breakOut w value := by
    refine .of_same rfl fun {goal v} h => ?_
    injection h with h
    injection h with h
    injection h with h
    cases hhead : w.machine.yields.head? with
    | none =>
        rw [hhead] at h
        cases h
    | some target =>
        rw [hhead] at h
        exact congrArg some h
  crash w p := .of_same rfl (by simp)
  exhausted w := .of_same rfl (by simp)
  iterate hinner := .of_same (truncate_of_suffix hinner.suffix) (by simp)

end World

/-- What follows a course breaks openly, if a break to an iteration does. -/
theorem Eval.Follows.breaksOpenly {x : Eval σ α} (hx : Follows AnyProbe x)
    (hgoal : ∀ {w goal v w'}, x w = .error (.jump (.breakTo (some goal) v)) w' →
      w.LeftOpenly goal w') : Eval.ToldBy World.openly x := by
  intro w
  have hcourse := hx w w.hostCode_anyProbe
  unfold FollowsAt at hcourse
  refine ⟨hcourse.yields_suffix, fun hvalue => hcourse.yields_eq (by rw [hvalue]; trivial), ?_⟩
  intro goal v hending
  cases hrun : x w with
  | ok a w' =>
      rw [hrun] at hending
      cases hending
  | error exit w' =>
      rw [hrun] at hending
      cases hending
      exact hgoal hrun

/-- A call of a method is left for an iteration only if that is the one of its block, or openly. -/
structure Reentry.ConfinesBreaks (r : Reentry σ) : Prop where
  goal : ∀ {call : Call σ} {w w' : World σ} {goal : Nat} {v : Value},
    r.send call w = .error (.jump (.breakTo (some goal) v)) w' →
      call.block.target? = some goal ∨ w.LeftOpenly goal w'

namespace Reentry

variable {r : Reentry σ}

/-- Every call follows a course, whatever its block is. -/
theorem Follows.send_any (hr : r.Follows AnyProbe) (call : Call σ) : Eval.Follows AnyProbe (r.send call) :=
  hr.send call call.block.uses_anyProbe

/-- A call with a block for an iteration of its own is not left for that iteration. -/
theorem ConfinesBreaks.iteration (hconfines : r.ConfinesBreaks) (hr : r.Follows AnyProbe)
    {call : Nat → Call σ} (hcall : ∀ target, (call target).block.target? = some target) :
    Eval.ToldBy World.openly (do
      let target ← newTarget
      Eval.iterate target (r.send (call target)) : Eval σ Value) := by
  have htarget : Eval.ToldBy World.openly (newTarget : Eval σ Nat) :=
    .onMachine World.openly_rules fun m => .newTarget m
  refine htarget.bind World.openly_rules fun target => ?_
  have hfollows : Eval.Follows AnyProbe (Eval.iterate target (r.send (call target))) :=
    Eval.ToldBy.iterate Course.rules target (hr.send_any (call target))
  refine hfollows.breaksOpenly fun {w goal v w'} h => ?_
  obtain ⟨hsend, hgoal⟩ := iterate_eq_break h
  rcases hconfines.goal hsend with hown | hopen
  · rw [hcall] at hown
    exact absurd hown.symm hgoal
  · exact hopen

/-- What calls no block is left for an iteration openly, if at all, where calls confine breaks. -/
theorem ConfinesBreaks.composed (hconfines : r.ConfinesBreaks) (hr : r.Follows AnyProbe)
    {allowed : Task → Prop} (htask : ∀ task, allowed task → Eval.ToldBy World.openly (perform r task))
    {x : Eval σ α} (h : Composed r .none allowed x) : Eval.ToldBy World.openly x := by
  refine World.openly_rules.composed (fun call hnone => ?_) (fun call args hnone w => ?_)
    (fun proc args blockArg => ?_) (fun call hbare => ?_) htask h
  · refine (hr.send_any call).breaksOpenly fun {w goal v w'} hsend => ?_
    have hown := (hconfines.goal hsend).resolve_left
    rw [hnone] at hown
    exact hown (by simp [Block.target?])
  · unfold yieldBlock
    rw [hnone]
    exact World.openly_rules.raise w .noBlock
  · have hfollows : Eval.Follows AnyProbe (r.callProc proc args none blockArg) :=
      hr.told.callProc Course.blockRules proc args none blockArg
    refine hfollows.breaksOpenly fun {w goal v w'} hbreak => ?_
    obtain ⟨e, -, hgoal, -⟩ := entry_of_callProc_break hr hbreak
    cases hgoal
  · refine hconfines.iteration hr fun target => ?_
    have hkind := hbare target
    match hblock : (call target).block with
    | .host .none goal | .proc proc goal =>
        rw [hblock] at hkind
        exact congrArg some hkind
    | .host (some body) goal | .none =>
        rw [hblock] at hkind
        exact hkind.elim

/-- A task is left for an iteration openly, if at all, where calls confine breaks. -/
theorem ConfinesBreaks.perform (hconfines : r.ConfinesBreaks) (hr : r.Follows AnyProbe)
    (task : Task) : Eval.ToldBy World.openly (EmbeddedRuby.perform r task) := by
  have hordinary : (World.openly : Account σ).TellsOrdinary r := fun h =>
    hconfines.composed hr (fun _ hfalse => hfalse.elim) h
  have hframes : (World.openly : Account σ).LetsFramesChange := fun w frames =>
    .of_same rfl (by simp)
  have hdefs : (World.openly : Account σ).TellsDefinitions r :=
    .of_deeds World.openly_rules hordinary fun w m h =>
      .of_same h.steps.sameStacks.yields (by simp)
  have hload := World.openly_rules.loadObject hordinary hframes hdefs
  have hcount : ∀ w : World σ, w.BreaksOpenly .value
      (w.onMachine fun m => { m with internCalls := m.internCalls + 1 }) := fun w =>
    .of_same rfl (by simp)
  exact World.openly_rules.perform_any hordinary hload hcount task

/-! ### The breaks of a method -/

/-- What a method is composed of is left for an iteration by its block, or openly. -/
theorem ConfinesBreaks.yields (hconfines : r.ConfinesBreaks) (hr : r.Follows AnyProbe)
    {block : Block σ} {allowed : Task → Prop} {x : Eval σ α} (h : Composed r block allowed x)
    {w w' : World σ} {goal : Nat} {v : Value}
    (hleft : x w = .error (.jump (.breakTo (some goal) v)) w') :
    w.LeftOpenly goal w' ∨
      ∃ call args u, call.block = block ∧ ComesTo (r.yieldBlock call args) u [] x w ∧
        r.yieldBlock call args u = .error (.jump (.breakTo (some goal) v)) w' := by
  have told : ∀ {γ : Type} {y : Eval σ γ} {u : World σ}, Composed r .none allowed y →
      y u = .error (.jump (.breakTo (some goal) v)) w' → u.LeftOpenly goal w' :=
    fun {γ y u} hy hrun =>
    ((hconfines.composed hr (fun task _ => hconfines.perform hr task) hy u).of_run hrun).goal rfl
  induction h generalizing w with
  | @bind α β x f first rest ih₁ ih₂ =>
      rcases bind_error_iff.mp hleft with hfirst | ⟨a, w₁, hok, hrest⟩
      · refine (ih₁ hfirst).imp_right ?_
        rintro ⟨call, args, u, hsame, hway, hyield⟩
        exact ⟨call, args, u, hsame, .first hway, hyield⟩
      · have hblock := Block.uses_iff.mp block.uses_anyProbe
        have hcourse : Course AnyProbe none w .value w₁ :=
          (Course.blockRules.composed hr.told hblock (fun task _ => follows_perform hr task) first
            w).of_run hok w.hostCode_anyProbe
        have hon : w.GoesOn w₁ := .of_course hcourse
        rcases ih₂ a hrest with ⟨hinnermost, hyields⟩ | ⟨call, args, u, hsame, hway, hyield⟩
        · exact .inl ⟨hon.yields ▸ hinnermost, hyields.trans hon.yields⟩
        · exact .inr ⟨call, args, u, hsame, .rest hok hon hway, hyield⟩
  | @yieldBlock call hsame args => exact .inr ⟨call, args, w, hsame, .here, hleft⟩
  | pure a => exact .inl (told (.pure a) hleft)
  | machine => exact .inl (told .machine hleft)
  | works h => exact .inl (told (.works h) hleft)
  | raise fault => exact .inl (told (.raise fault) hleft)
  | raiseObject exception => exact .inl (told (.raiseObject exception) hleft)
  | breakOut value => exact .inl (told (.breakOut value) hleft)
  | crash message => exact .inl (told (.crash message) hleft)
  | exhausted => exact .inl (told .exhausted hleft)
  | send hnone => exact .inl (told (.send hnone) hleft)
  | callProc proc args blockArg => exact .inl (told (.callProc proc args blockArg) hleft)
  | iteration hbare => exact .inl (told (.iteration hbare) hleft)
  | perform hallowed => exact .inl (told (.perform hallowed) hleft)

/-- The method of a call is left for an iteration by the block of the call, or openly. -/
theorem ConfinesBreaks.entry_of_dispatch (hconfines : r.ConfinesBreaks) (hr : r.Follows AnyProbe)
    {call : Call σ} {w w' : World σ} {goal : Nat} {v : Value}
    (hleft : dispatch r call w = .error (.jump (.breakTo (some goal) v)) w') :
    w.LeftOpenly goal w' ∨
      (call.block.target? = some goal ∧ ∃ e : Entry σ, ∃ u, e.target = some goal ∧
        ComesTo (e.run r) u [] (dispatch r call) w ∧ e.Breaks r u v w') := by
  unfold dispatch at hleft ⊢
  rw [machine_bind_apply] at hleft
  have entered : ∀ {x : Eval σ Value}, Composed r call.block (fun _ => True) x →
      x w = .error (.jump (.breakTo (some goal) v)) w' →
        w.LeftOpenly goal w' ∨
          (call.block.target? = some goal ∧ ∃ e : Entry σ, ∃ u, e.target = some goal ∧
            ComesTo (e.run r) u [] x w ∧ e.Breaks r u v w') := by
    intro x hx hrun
    refine (hconfines.yields hr hx hrun).imp_right ?_
    rintro ⟨own, args, u, hsame, hway, hyield⟩
    obtain ⟨htarget, e, he, hentered, hbreaks⟩ := entry_of_yieldBlock_break hr hyield
    exact ⟨hsame ▸ htarget, e, u, he, hway.trans hentered, hbreaks⟩
  cases hmethod : w.machine.findMethod (w.machine.heap.classOf call.receiver) call.method with
  | none =>
      rw [hmethod] at hleft
      cases hleft
  | some method =>
      rw [hmethod] at hleft
      cases method with
      | builtin b =>
          refine (entered (Builtin.composed_run b) hleft).imp_right ?_
          rintro ⟨htarget, e, u, he, hway, hbreaks⟩
          refine ⟨htarget, e, u, he, .look ?_, hbreaks⟩
          rw [hmethod]
          exact hway
      | routine body =>
          have hroutine : Composed r call.block (fun _ => True)
              (Routine.run r call (body call.toInvocation)) :=
            Routine.composed_run (body call.toInvocation).within_any
          refine (entered hroutine hleft).imp_right ?_
          rintro ⟨htarget, e, u, he, hway, hbreaks⟩
          refine ⟨htarget, e, u, he, .look ?_, hbreaks⟩
          rw [hmethod]
          exact hway

/-- However deep calls are nested, they are left for no iterations but those of their blocks. -/
theorem confinesBreaks_ofFuel (fuel : Nat) : (Reentry.ofFuel fuel : Reentry σ).ConfinesBreaks := by
  induction fuel with
  | zero =>
      refine ⟨fun {call w w' goal v} h => ?_⟩
      cases h
  | succ fuel ih =>
      refine ⟨fun {call w w' goal v} h => ?_⟩
      have hr := Reentry.follows_ofFuel (σ := σ) AnyProbe fuel
      rcases ih.entry_of_dispatch hr h with hopen | ⟨htarget, -⟩
      · exact .inr hopen
      · exact .inl htarget

/-- A call is left for an iteration by a block that was entered for it and has broken, or openly. -/
theorem entry_of_send_break {fuel : Nat} {call : Call σ} {w w' : World σ} {goal : Nat} {v : Value}
    (hleft : (Reentry.ofFuel fuel).send call w = .error (.jump (.breakTo (some goal) v)) w') :
    w.LeftOpenly goal w' ∨
      (call.block.target? = some goal ∧ ∃ depth, ∃ e : Entry σ, ∃ u, e.target = some goal ∧
        ComesTo (e.run (.ofFuel depth)) u [] ((Reentry.ofFuel fuel).send call) w ∧
        e.Breaks (.ofFuel depth) u v w') := by
  cases fuel with
  | zero => cases hleft
  | succ depth =>
      have hr := Reentry.follows_ofFuel (σ := σ) AnyProbe depth
      refine ((confinesBreaks_ofFuel depth).entry_of_dispatch hr hleft).imp_right ?_
      rintro ⟨htarget, e, u, he, hway, hbreaks⟩
      exact ⟨htarget, depth, e, u, he, hway, hbreaks⟩

end Reentry

end EmbeddedRuby
