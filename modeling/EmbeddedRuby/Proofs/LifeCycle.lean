import EmbeddedRuby.Proofs.Changes

/-!
# The life of the interpreter

The interpreter is brought up by the first operation that needs it, and operations may begin inside
others, so it can be brought up and taken down at any moment of a run.  Yet its life is a path
without a way back: from unknown to up or failed, and from up to cleaned up (`VmState.Next`).

What carries the proofs is an inversion: a change brings the interpreter up, or takes it down, or
leaves its life alone (`World.Change.life`).  From it follow the transitions (`Change.state_next`)
and the invariant that ties the counts of the runtime to the state (`World.LifeCounted`).

`Vm.NeedsRuntime` lists the operations that need the interpreter up.  What the host's side does not
refuse whatever the world is (`Vm.HostRefuses`), the state refuses, if it is final
(`NeedsRuntime.refusedAt`).

The main statement is `World.Fresh.life_cycle`.
-/

namespace EmbeddedRuby

open Eval

variable {σ : Type} {P : Probe → Prop}

/-! ### The states of a life -/

namespace VmState

/-- The steps that a life can take. -/
inductive Next : VmState → VmState → Prop
  | broughtUp : Next .unknown .up
  | failed (error : Error) : Next .unknown (.failed error)
  | takenDown : Next .up .cleanedUp

/-- Any number of such steps. -/
abbrev Leads : VmState → VmState → Prop :=
  Relation.ReflTransGen Next

/-- Nothing leads back to the beginning. -/
theorem Leads.ne_unknown {a b : VmState} (h : a.Leads b) (ha : a ≠ .unknown) : b ≠ .unknown := by
  induction h with
  | refl => exact ha
  | tail _ last _ =>
      rintro rfl
      cases last

/-- What is asked of the interpreter when it is too late. -/
def refusal? : VmState → Option Error
  | .failed error => some error
  | .cleanedUp => some (.setup Vm.cleanedUpReason)
  | .unknown | .up => none

end VmState

/-! ### What each change does -/

/-- The interpreter has not been brought up or taken down. -/
structure Machine.SameLife (m m' : Machine) : Prop where
  setupCalls : m'.setupCalls = m.setupCalls
  cleanupCalls : m'.cleanupCalls = m.cleanupCalls
  initialized : m'.initialized = m.initialized

/-- The life of the interpreter is the same as long as nothing happens. -/
theorem Machine.SameLife.refl (m : Machine) : m.SameLife m :=
  ⟨rfl, rfl, rfl⟩

/-- The life of the interpreter is the same after two parts of a run, if each has left it so. -/
theorem Machine.SameLife.trans {m m₁ m₂ : Machine} (h₁ : m.SameLife m₁) (h₂ : m₁.SameLife m₂) :
    m.SameLife m₂ :=
  ⟨h₂.setupCalls.trans h₁.setupCalls, h₂.cleanupCalls.trans h₁.cleanupCalls,
    h₂.initialized.trans h₁.initialized⟩

/-- No step of the interpreter brings it up or takes it down. -/
theorem Machine.Steps.sameLife {m m' : Machine} (h : m.Steps m') : m.SameLife m' := by
  have hframe := Machine.Steps.frame h
  refine ⟨?_, ?_, ?_⟩ <;> rw [hframe]

/-- Giving an exception a backtrace does not concern the life of the interpreter. -/
theorem Machine.fillBacktrace_sameLife (m : Machine) (exception : Value) :
    m.SameLife (m.fillBacktrace exception) := by
  obtain ⟨m₁, heap, hsteps, heq⟩ := m.fillBacktrace_eq exception
  rw [heq]
  exact hsteps.sameLife.trans ⟨rfl, rfl, rfl⟩

/-- Reading a command line does not bring the interpreter up. -/
theorem Machine.options_sameLife (m : Machine) (argv : List String) :
    m.SameLife (m.options argv).2 := by
  obtain ⟨loadPath, heq⟩ := m.options_eq argv
  rw [heq]
  exact ⟨rfl, rfl, rfl⟩

/-- Nothing has happened to the life of the interpreter. -/
structure World.SameLife (w w' : World σ) : Prop where
  state : w'.state = w.state
  machine : w.machine.SameLife w'.machine

/-- Probes do not concern the life of the interpreter. -/
theorem Probe.Step.sameLife {probe : Probe} {w w' : World σ} (h : probe.Step w w') :
    w.SameLife w' := by
  cases h with
  | options w argv => exact ⟨rfl, Machine.options_sameLife _ argv⟩
  | _ => exact ⟨rfl, ⟨rfl, rfl, rfl⟩⟩

namespace World

variable {w w' : World σ}

/-- The interpreter is brought up, or fails to come up. -/
structure BroughtUp (w w' : World σ) : Prop where
  unknown : w.state = .unknown
  state : w.state.Next w'.state
  setupCalls : w'.machine.setupCalls = w.machine.setupCalls + 1
  cleanupCalls : w'.machine.cleanupCalls = w.machine.cleanupCalls

/-- What a change does to the life of the interpreter. -/
inductive LifeChange (w w' : World σ) : Prop
  | none (h : w.SameLife w')
  | broughtUp (h : w.BroughtUp w')
  | takenDown (hup : w.state = .up) (h : w' = w.takenDown)

/-- The state after the attempt to bring the interpreter up. -/
theorem next_stateAfter (result : Except Error Unit) :
    VmState.unknown.Next (stateAfter result) := by
  cases result with
  | ok _ => exact .broughtUp
  | error error => exact .failed error

/-- An attempt to start brings the interpreter up or fails, and is counted either way. -/
theorem broughtUp_of_start {info : BootInfo} {result : Except Error Unit} {w₁ : World σ}
    (hunknown : w.state = .unknown) (hstart : (Vm.start info).run w = .ok result w₁) :
    w.BroughtUp { w₁ with state := stateAfter result } := by
  have hnext : w.state.Next (stateAfter result) := hunknown ▸ next_stateAfter result
  cases (Vm.start_cases hstart).2 with
  | refused | badArguments => exact ⟨hunknown, hnext, rfl, rfl⟩
  | ran =>
      have hsame := Machine.options_sameLife w.machine.setUp.2
      exact ⟨hunknown, hnext, (hsame _).setupCalls, (hsame _).cleanupCalls⟩

/-- A step brings the interpreter up, or takes it down, or leaves its life alone. -/
theorem Step.life (h : w.Step w') : w.LifeChange w' := by
  cases h with
  | machine h => exact .none ⟨rfl, Machine.Steps.sameLife (.single h)⟩
  | record | clearErrors | learn | remember | boxed | unboxed => exact .none ⟨rfl, ⟨rfl, rfl, rfl⟩⟩
  | setup hunknown hstart => exact .broughtUp (broughtUp_of_start hunknown hstart)
  | cleanUp hup => exact .takenDown hup rfl

/-- A change brings the interpreter up, or takes it down, or leaves its life alone. -/
theorem Change.life (h : w.Change P w') : w.LifeChange w' := by
  cases h with
  | step h => exact h.life
  | probe hprobe h => exact .none h.sameLife
  | @register kind run =>
      refine .none ⟨by cases kind <;> rfl, ?_⟩
      rw [setCallback_machine]
      exact .refl _
  | raising fault =>
      have hmade := Machine.Steps.sameLife (w.machine.newException_steps fault)
      exact .none ⟨rfl, hmade.trans ⟨rfl, rfl, rfl⟩⟩
  | @raisingObject exception =>
      exact .none ⟨rfl, (w.machine.fillBacktrace_sameLife exception).trans ⟨rfl, rfl, rfl⟩⟩
  | overlook =>
      obtain ⟨panicLog, hoverlook⟩ := w.overlook_eq
      rw [hoverlook]
      exact .none ⟨rfl, .refl _⟩
  | addProc | restack | withoutPending | park | resume => exact .none ⟨rfl, ⟨rfl, rfl, rfl⟩⟩

/-- The only transitions are the steps of a life. -/
theorem Change.state_next (h : w.Change P w') : w'.state = w.state ∨ w.state.Next w'.state := by
  cases h.life with
  | none h => exact .inl h.state
  | broughtUp h => exact .inr h.state
  | takenDown hup h =>
      subst h
      exact .inr (hup ▸ .takenDown)

/-- Nothing leads back from an interpreter that was taken down. -/
theorem Change.cleanedUp_kept (h : w.Change P w') (hdown : w.state = .cleanedUp) :
    w'.state = .cleanedUp := by
  rcases h.state_next with hsame | hnext
  · exact hsame.trans hdown
  · rw [hdown] at hnext
    cases hnext

/-- What is not taken down after a change was not taken down before it. -/
theorem Change.not_cleanedUp (h : w.Change P w') (hstate : w'.state ≠ .cleanedUp) :
    w.state ≠ .cleanedUp :=
  fun hdown => hstate (h.cleanedUp_kept hdown)

/-- What is neither up nor taken down was not up before. -/
theorem Change.not_up (h : w.Change P w') (hup : w'.state ≠ .up) (hdown : w'.state ≠ .cleanedUp) :
    w.state ≠ .up := by
  intro hbefore
  rcases h.state_next with hsame | hnext
  · exact hup (hsame.trans hbefore)
  · rw [hbefore] at hnext
    generalize w'.state = after at hnext hdown
    cases hnext
    exact hdown rfl

/-- The state at a later moment of a run is one that the first leads to. -/
theorem Reaches.state_leads (h : w.Reaches P w') : w.state.Leads w'.state := by
  induction h with
  | refl => exact .refl
  | tail _ last ih =>
      rcases last.state_next with hsame | hnext
      · exact hsame ▸ ih
      · exact ih.tail hnext

/-- Once taken down, the interpreter stays so. -/
theorem Reaches.cleanedUp_kept (h : w.Reaches P w') (hdown : w.state = .cleanedUp) :
    w'.state = .cleanedUp :=
  h.kept (fun hchange => hchange.cleanedUp_kept) hdown

/-! ### The counts of the runtime -/

/-- The runtime was asked to come up once unless nobody has tried, and to go down once if it is
down; and nobody else has brought it up. -/
structure LifeCounted (w : World σ) : Prop where
  setupCalls : w.machine.setupCalls = if w.state = .unknown then 0 else 1
  cleanupCalls : w.machine.cleanupCalls = if w.state = .cleanedUp then 1 else 0
  untouched : w.state = .unknown → w.machine.initialized = false

/-- The interpreter has not been touched. -/
structure Fresh (w : World σ) : Prop where
  state : w.state = .unknown
  initialized : w.machine.initialized = false
  setupCalls : w.machine.setupCalls = 0
  cleanupCalls : w.machine.cleanupCalls = 0

/-- Nobody has asked for anything yet, so the counts are nought. -/
theorem Fresh.lifeCounted (h : w.Fresh) : w.LifeCounted := by
  refine ⟨?_, ?_, fun _ => h.initialized⟩
  · rw [h.setupCalls, if_pos h.state]
  · rw [h.cleanupCalls, h.state]
    rfl

/-- Each change keeps the counts tied to the state. -/
theorem Change.lifeCounted (h : w.Change P w') (hw : w.LifeCounted) : w'.LifeCounted := by
  cases h.life with
  | none h =>
      refine ⟨?_, ?_, ?_⟩
      · rw [h.machine.setupCalls, h.state]
        exact hw.setupCalls
      · rw [h.machine.cleanupCalls, h.state]
        exact hw.cleanupCalls
      · rw [h.machine.initialized, h.state]
        exact hw.untouched
  | broughtUp h =>
      have hsetup := hw.setupCalls
      have hcleanup := hw.cleanupCalls
      rw [if_pos h.unknown] at hsetup
      rw [h.unknown, if_neg (by simp)] at hcleanup
      obtain ⟨hknown, hnotDown⟩ : w'.state ≠ .unknown ∧ w'.state ≠ .cleanedUp := by
        have hnext := h.state
        rw [h.unknown] at hnext
        generalize w'.state = after at hnext
        cases hnext <;> simp
      refine ⟨?_, ?_, fun hunknown => absurd hunknown hknown⟩
      · rw [h.setupCalls, hsetup, if_neg hknown]
      · rw [h.cleanupCalls, hcleanup, if_neg hnotDown]
  | takenDown hup h =>
      subst h
      have hsetup := hw.setupCalls
      have hcleanup := hw.cleanupCalls
      rw [hup, if_neg (by simp)] at hsetup hcleanup
      refine ⟨hsetup, ?_, by simp [takenDown]⟩
      show w.machine.cleanupCalls + 1 = 1
      rw [hcleanup]

/-- The counts are tied to the state at every moment of a run. -/
theorem Reaches.lifeCounted (h : w.Reaches P w') (hw : w.LifeCounted) : w'.LifeCounted :=
  h.kept (fun hchange => hchange.lifeCounted) hw

end World

/-! ### What is refused, and by whom -/

namespace Vm

variable {α β : Type} {r : Reentry σ} {w : World σ} {error : Error}

/-- The operation is refused in a world with an error, and nothing else happens than that the error
is put in the history. -/
def RefusedAt (operation : Checked σ α) (error : Error) (w : World σ) : Prop :=
  operation.run w = .ok (.error (.refused error)) (w.recorded error)

/-- The host's side refuses the operation, whatever the world is. -/
def HostRefuses (operation : Checked σ α) : Prop :=
  ∃ error, ∀ w, RefusedAt operation error w

/-- Unless the host's side refuses the operation, a state that is final refuses it. -/
def Gated (operation : Checked σ α) : Prop :=
  HostRefuses operation ∨
    ∀ w error, w.state.refusal? = some error → RefusedAt operation error w

/-- An operation whose first part is refused is refused. -/
theorem RefusedAt.bind {x : Checked σ α} (h : RefusedAt x error w) (f : α → Checked σ β) :
    RefusedAt (x >>= f) error w := by
  unfold RefusedAt at h ⊢
  rw [run_bind_apply, h]

/-- An operation is refused by the host's side if its first part is. -/
theorem HostRefuses.bind {x : Checked σ α} (h : HostRefuses x) (f : α → Checked σ β) :
    HostRefuses (x >>= f) := by
  obtain ⟨error, hrefused⟩ := h
  exact ⟨error, fun w => (hrefused w).bind f⟩

/-- What fails without looking at the world is refused by the host's side. -/
theorem hostRefuses_fail (error : Error) : HostRefuses (fail error : Checked σ α) :=
  ⟨error, fun _ => rfl⟩

/-- An operation is gated by its first part. -/
theorem Gated.bind {x : Checked σ α} (h : Gated x) (f : α → Checked σ β) : Gated (x >>= f) :=
  h.imp (fun hhost => hhost.bind f) fun hstate w error herror => (hstate w error herror).bind f

/-- The error of a refusal is the answer. -/
theorem RefusedAt.settled {operation : Checked σ α} (h : RefusedAt operation error w) :
    settled r operation w = .ok (.error error) (w.recorded error) := by
  unfold RefusedAt at h
  rw [settled_apply, h]

/-- Bringing the interpreter up is refused by a state that is final. -/
theorem gated_setup (info : BootInfo) : Gated (setup info : Checked σ Bool) := by
  right
  intro w error herror
  unfold RefusedAt
  rw [setup_run_apply]
  cases hstate : w.state with
  | unknown | up =>
      rw [hstate] at herror
      cases herror
  | failed found | cleanedUp =>
      rw [hstate] at herror
      cases herror
      rfl

/-- Making sure that the interpreter is up is refused by a state that is final. -/
theorem gated_ensureSetup : Gated (ensureSetup : Checked σ Unit) :=
  (gated_setup {}).bind _

/-- Asking for a name makes sure of this first, whether the host knows the name or not. -/
theorem gated_internedName (name : String) : Gated (internedName r name) :=
  gated_ensureSetup.bind _

/-- A name that cannot be right is refused before anything else. -/
theorem gated_checkName_bind {kind : IdentifierKind} {name : String} {f : Unit → Checked σ α}
    (hf : Gated (f ())) : Gated (checkName kind name >>= f) := by
  unfold checkName
  by_cases hname : isName kind name
  · rw [if_pos hname, pure_bind]
    exact hf
  · rw [if_neg hname]
    exact .inl ((hostRefuses_fail _).bind f)

/-- Asking for a name that was checked is refused by a state that is final, unless the check refuses
it. -/
theorem gated_checkedName (kind : IdentifierKind) (name : String) :
    Gated (checkedName r kind name) :=
  gated_checkName_bind (gated_internedName name)

/-- A call asks for the name of its method first. -/
theorem gated_call (receiver : Value) (method : String) (args : List Value) :
    Gated (call r receiver method args) :=
  (gated_checkedName .method method).bind _

/-- A call with keywords asks for the name of its method first, unless a keyword stands twice. -/
theorem gated_callWithKeywords (receiver : Value) (method : String) (args : List Value)
    (keywords : List (String × Value)) :
    Gated (callWithKeywords r receiver method args keywords) := by
  unfold callWithKeywords
  apply gated_checkName_bind
  split
  · exact .inl (hostRefuses_fail _)
  · exact gated_call receiver method args
  · exact (gated_internedName method).bind _

/-- Reading an integer type makes sure of the interpreter before it converts. -/
theorem gated_readInt (type : IntType) (v : Value) : Gated (readInt r type v) := by
  unfold readInt
  split
  · exact (gated_ensureSetup.bind _).bind _
  · exact (gated_ensureSetup.bind _).bind _

/-- The operations that need the interpreter up.  Filling the place of a callback does not, nor does
it take the interpreter to tell true and false from everything else. -/
inductive NeedsRuntime (r : Reentry σ) : {α : Type} → Checked σ α → Prop
  | setup (info : BootInfo) : NeedsRuntime r (setup info)
  | version : NeedsRuntime r (do ensureSetup; return version)
  | description : NeedsRuntime r (do ensureSetup; return description)
  | objectClass : NeedsRuntime r objectClass
  | internedName (name : String) : NeedsRuntime r (internedName r name)
  | load (path : List UInt8) (wrap : Bool) : NeedsRuntime r (load r path wrap)
  | constant (path : String) : NeedsRuntime r (constant r path)
  | constantIn (module : Value) (name : String) : NeedsRuntime r (constantIn r module name)
  | constantAt (module : Value) (name : String) : NeedsRuntime r (constantAt r module name)
  | classVar (cls : Value) (name : String) : NeedsRuntime r (classVar r cls name)
  | call (receiver : Value) (method : String) (args : List Value) :
      NeedsRuntime r (call r receiver method args)
  | callWithKeywords (receiver : Value) (method : String) (args : List Value)
      (keywords : List (String × Value)) :
      NeedsRuntime r (callWithKeywords r receiver method args keywords)
  | callWithBlock (receiver : Value) (method : String) (args : List Value) (body : Closure σ) :
      NeedsRuntime r (callWithBlock r receiver method args body)
  | callWithProc (receiver : Value) (method : String) (args : List Value) (proc : Value) :
      NeedsRuntime r (callWithProc r receiver method args proc)
  | callProc (proc : Value) (args : List Value) (block : Option Value) :
      NeedsRuntime r (callProc r proc args block)
  | newProc (body : Closure σ) : NeedsRuntime r (newProc body)
  | newException (cls message : String) : NeedsRuntime r (newException r cls message)
  | inspect (v : Value) : NeedsRuntime r (inspect r v)
  | toText (v : Value) : NeedsRuntime r (toText r v)
  | toUnsigned (v : Value) : NeedsRuntime r (toUnsigned r v)
  | toSigned (v : Value) : NeedsRuntime r (toSigned r v)
  | toDouble (v : Value) : NeedsRuntime r (toDouble r v)
  | readInt (type : IntType) (v : Value) : NeedsRuntime r (readInt r type v)
  | readSingle (v : Value) : NeedsRuntime r (readSingle r v)
  | write (datum : Datum) : NeedsRuntime r (write datum)
  | writeBool (b : Bool) : NeedsRuntime r (writeBool b)
  | pin : NeedsRuntime r pin

/-- All operations that need the runtime are gated, one case for each. -/
theorem NeedsRuntime.gated {operation : Checked σ α} (h : NeedsRuntime r operation) :
    Gated operation := by
  cases h with
  | setup info => exact gated_setup info
  | version | description | objectClass | load | callProc | newProc | inspect | toText | toUnsigned
  | toSigned | toDouble | write | writeBool | pin => exact gated_ensureSetup.bind _
  | internedName name => exact gated_internedName name
  | constant | readSingle => exact (gated_ensureSetup.bind _).bind _
  | newException => exact ((gated_ensureSetup.bind _).bind _).bind _
  | constantIn module name | constantAt module name =>
      exact (gated_checkedName .constant name).bind _
  | classVar cls name => exact (gated_checkedName .classVariable name).bind _
  | call receiver method args => exact gated_call receiver method args
  | callWithKeywords receiver method args keywords =>
      exact gated_callWithKeywords receiver method args keywords
  | callWithBlock receiver method args | callWithProc receiver method args =>
      exact (gated_checkedName .method method).bind _
  | readInt type v => exact gated_readInt type v

/-- What needs the runtime and has passed the checks on the host's side is refused by a state that
is final. -/
theorem NeedsRuntime.refusedAt {operation : Checked σ α} (h : NeedsRuntime r operation)
    (hpassed : ¬HostRefuses operation) (herror : w.state.refusal? = some error) :
    RefusedAt operation error w :=
  (h.gated.resolve_left hpassed) w error herror

end Vm

/-! ### The life as the host sees it -/

namespace World

variable {w v u : World σ} {r : Reentry σ}

/-- What a call to bring the interpreter up answers, and the world after it. -/
inductive SetupAnswers (v : World σ) : Except Error Bool → World σ → Prop
  | broughtUp {v' : World σ} (hunknown : v.state = .unknown) (hup : v'.state = .up) :
      SetupAnswers v (.ok true) v'
  | failed {v' : World σ} {error : Error} (hunknown : v.state = .unknown)
      (hfailed : v'.state = .failed error) : SetupAnswers v (.error error) v'
  | alreadyUp (hup : v.state = .up) : SetupAnswers v (.ok false) v
  | refused {error : Error} (herror : v.state.refusal? = some error) :
      SetupAnswers v (.error error) (v.recorded error)

/-- Unless somebody else has brought the interpreter up, bringing it up comes to an end. -/
theorem LifeCounted.setup_answers (h : v.LifeCounted) (info : BootInfo) :
    ∃ answer v', Vm.settled r (Vm.setup info) v = .ok answer v' ∧ v.SetupAnswers answer v' := by
  have hopen := Vm.settled_apply r (Vm.setup info) v
  rw [Vm.setup_run_apply] at hopen
  cases hstate : v.state with
  | up =>
      rw [hstate] at hopen
      exact ⟨_, _, hopen, .alreadyUp hstate⟩
  | failed error | cleanedUp =>
      rw [hstate] at hopen
      exact ⟨_, _, hopen, .refused (by rw [hstate]; rfl)⟩
  | unknown =>
      rw [hstate] at hopen
      simp only at hopen
      cases hstart : (Vm.start info).run v with
      | error exit v₁ =>
          have hinitialized := (Vm.start_error hstart).1
          rw [h.untouched hstate] at hinitialized
          cases hinitialized
      | ok result v₁ =>
          rw [hstart] at hopen
          cases result with
          | ok _ => exact ⟨_, _, hopen, .broughtUp hstate rfl⟩
          | error error => exact ⟨_, _, hopen, .failed hstate rfl⟩

/-- The interpreter is brought up by one call at most. -/
theorem LifeCounted.setup_once (h : v.LifeCounted) {info info' : BootInfo} {v' u' : World σ}
    (hsetup : Vm.settled r (Vm.setup info) v = .ok (.ok true) v') (hu : v'.Reaches P u) :
    Vm.settled r (Vm.setup info') u ≠ .ok (.ok true) u' := by
  intro hagain
  obtain ⟨answer, v₁, hanswer, hcase⟩ := h.setup_answers (r := r) info
  obtain ⟨rfl, rfl⟩ : answer = .ok true ∧ v₁ = v' := by
    rw [hsetup] at hanswer
    cases hanswer
    exact ⟨rfl, rfl⟩
  have hknown : u.state ≠ .unknown := by
    cases hcase with
    | broughtUp hunknown hup => exact hu.state_leads.ne_unknown (by simp [hup])
  rw [Vm.settled_apply, Vm.setup_run_apply] at hagain
  cases hstate : u.state with
  | unknown => exact hknown hstate
  | up | failed error | cleanedUp =>
      rw [hstate] at hagain
      cases hagain

/-- Taking down what is not up does nothing. -/
theorem cleanUp_of_not_up (hnot : v.state ≠ .up) : Vm.cleanUp v = .ok 0 v := by
  unfold Vm.cleanUp
  rw [get_bind_apply]
  cases hstate : v.state with
  | up => exact absurd hstate hnot
  | unknown | failed error | cleanedUp => rfl

/-- What is up is taken down, with the status that the interpreter gives. -/
theorem cleanUp_of_up (hup : v.state = .up) :
    Vm.cleanUp v = .ok (v.machine.cleanUp 0).1 v.takenDown := by
  unfold Vm.cleanUp
  rw [get_bind_apply, hup]
  rfl

/-- **The life of the interpreter.**  At every moment of every run from a world in which nobody has
touched the interpreter, whatever codes it reports:

* it was asked to come up once at most, and to go down once at most;
* the next change leaves the state as it is, or takes a step of a life;
* `setup` answers that this call has brought the interpreter up exactly if it has, which no later
  call does; that it was up already if it was; and otherwise the error for which it is not up;
* so does every operation that needs it, unless the host's side refuses the operation;
* `cleanUp` takes it down if it is up, and does nothing if it is not. -/
theorem Fresh.life_cycle (fuel : Nat)
    (hfresh : w.Fresh)
    (hreached : w.Reaches AnyProbe v) :
    let r : Reentry σ := .ofFuel fuel
    let setUp : BootInfo → Eval σ (Except Error Bool) := fun info =>
      (Operation.setup info).answer r
    let cleanUp : Eval σ Int := Operation.cleanUp.answer r
    v.machine.setupCalls ≤ 1 ∧ v.machine.cleanupCalls ≤ 1 ∧
    (∀ v', v.Change AnyProbe v' → v'.state = v.state ∨ v.state.Next v'.state) ∧
    (∀ info, ∃ answer v', setUp info v = .ok answer v' ∧ v.SetupAnswers answer v') ∧
    (∀ info v', setUp info v = .ok (.ok true) v' →
      ∀ u, v'.Reaches AnyProbe u → ∀ info' u', setUp info' u ≠ .ok (.ok true) u') ∧
    (∀ {α : Type} (operation : Checked σ α) (error : Error),
      Vm.NeedsRuntime r operation → ¬Vm.HostRefuses operation → v.state.refusal? = some error →
        Vm.settled r operation v = .ok (.error error) (v.recorded error)) ∧
    (v.state = .up → ∃ code, cleanUp v = .ok code v.takenDown) ∧
    (v.state ≠ .up → cleanUp v = .ok 0 v) := by
  intro r setUp cleanUp
  have hcounted : v.LifeCounted := hreached.lifeCounted hfresh.lifeCounted
  refine ⟨?_, ?_, fun v' h => h.state_next, fun info => hcounted.setup_answers info, ?_, ?_,
    fun hup => ⟨_, cleanUp_of_up hup⟩, cleanUp_of_not_up⟩
  · rw [hcounted.setupCalls]
    split <;> omega
  · rw [hcounted.cleanupCalls]
    split <;> omega
  · intro info v' hsetup u hu info' u'
    exact hcounted.setup_once hsetup hu
  · intro α operation error hneeds hpassed herror
    exact (hneeds.refusedAt hpassed herror).settled

/-- A fresh interpreter that reports a failure when it comes up. -/
def refusing : World Unit where
  machine := { heap := ⟨Machine.coreSlots⟩, setupCode := 3 }
  memory := ()

/-- An interpreter that could not be brought up is not asked again: after one operation that has
needed it, another is refused for the same reason. -/
theorem life_cycle_refusing :
    let program : Program Unit .main := .ask (.inspect Value.nil) fun _ => .done ()
    let v := Outcome.world (program.run (.ofFuel 1) refusing)
    let error := Error.setup "ruby_setup() failed with code 3"
    refusing.Fresh ∧ refusing.Reaches AnyProbe v ∧ v.state.refusal? = some error ∧
      ¬Vm.HostRefuses (Vm.pin : Checked Unit Nat) ∧ v.machine.setupCalls ≤ 1 ∧
      Vm.settled (.ofFuel 1) Vm.pin v = .ok (.error error) (v.recorded error) := by
  intro program v error
  have hfresh : refusing.Fresh := ⟨rfl, rfl, rfl, rfl⟩
  have hreached : refusing.Reaches AnyProbe v := program.reaches_run 1 refusing
  have hfailed : v.state.refusal? = some error := by decide +kernel
  -- Where the interpreter is up, a root is not refused, so the host's side does not refuse it.
  have hpassed : ¬Vm.HostRefuses (Vm.pin : Checked Unit Nat) := by
    rintro ⟨found, hrefused⟩
    cases hrefused bare
  obtain ⟨honce, -, -, -, -, hrefused, -⟩ := Fresh.life_cycle 1 hfresh hreached
  exact ⟨hfresh, hreached, hfailed, hpassed, honce, hrefused _ _ .pin hpassed hfailed⟩

end World

end EmbeddedRuby
