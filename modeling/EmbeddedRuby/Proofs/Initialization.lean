import EmbeddedRuby.Proofs.LifeCycle

/-!
# Interpreters that are initialized and not up

An interpreter that reports no failure when it is set up is initialized from then on.  To be up it
also needs a command line, which the host must be able to pass on and the interpreter must take
(`BootInfo.isRunnable`).  Where it gets none, it is left **stranded** (`World.Stranded`): it is
initialized, but its state says that it failed, and only an interpreter that is up is taken down.

What carries the proofs is that the state and the reported code tell whether the interpreter is
initialized (`World.InitializedAsTold`).  The state is left as unknown until an attempt to bring the
interpreter up is made (`World.Change.start_of_known`), so that one has to look at these attempts
alone.

The main statement is `World.Fresh.initialized_iff`.
-/

namespace EmbeddedRuby

open Eval

variable {σ : Type} {P : Probe → Prop}

/-! ### Attempts to bring the interpreter up -/

/-- The command line can be passed on, and the interpreter takes it. -/
def BootInfo.isRunnable (info : BootInfo) : Bool :=
  match info.arguments with
  | .ok arguments => (Machine.readOptions (arguments.drop 1)).isSome
  | .error _ => false

/-- The command line that the host passes on by itself is taken. -/
theorem BootInfo.isRunnable_default : ({} : BootInfo).isRunnable := by
  decide +kernel

/-- An option that the interpreter does not know, and one that the host cannot pass on. -/
example : ({ extraArgs := ["--no-such-option"] } : BootInfo).isRunnable = false ∧
    ({ extraArgs := ["-w\u0000"] } : BootInfo).isRunnable = false := by
  decide +kernel

/-- A command line is taken if its options can be read. -/
theorem Machine.options_fst (m : Machine) (argv : List String) :
    (m.options argv).1 = (readOptions (argv.drop 1)).isSome := by
  unfold options
  cases readOptions (argv.drop 1) <;> rfl

/-- Reading it does not initialize anything. -/
theorem Machine.options_initialized (m : Machine) (argv : List String) :
    (m.options argv).2.initialized = m.initialized :=
  (m.options_sameLife argv).initialized

namespace Vm

variable {info : BootInfo} {w w' : World σ} {result : Except Error Unit}

/-- Whatever becomes of the attempt, the interpreter is initialized if it reports no failure. -/
theorem Started.initialized (h : Started info w result w') :
    w'.machine.initialized = (w.machine.initialized || w.machine.setupCode == 0) := by
  cases h with
  | refused | badArguments => rfl
  | @ran arguments => exact Machine.options_initialized _ arguments

/-- The interpreter comes up if it reports no failure and takes its command line. -/
theorem Started.ok_iff (h : Started info w result w') :
    result = .ok () ↔ w.machine.setupCode = 0 ∧ info.isRunnable := by
  cases h with
  | refused hcode => simp [hcode]
  | badArguments hcode harguments => simp [BootInfo.isRunnable, harguments]
  | @ran arguments hcode harguments =>
      simp only [Machine.options_fst, BootInfo.isRunnable, harguments]
      generalize (Machine.readOptions (arguments.drop 1)).isSome = taken
      cases taken <;> simp [hcode]

end Vm

/-! ### What tells whether the interpreter is initialized -/

/-- Is the interpreter initialized in this state, if it reports this code when it is set up? -/
def VmState.tellsInitialized (code : Int) : VmState → Bool
  | .unknown | .cleanedUp => false
  | .up => true
  | .failed _ => code == 0

namespace World

variable {w w' v : World σ}

/-- The state and the code tell whether the interpreter is initialized. -/
def InitializedAsTold (w : World σ) : Prop :=
  w.machine.initialized = w.state.tellsInitialized w.machine.setupCode

/-- The state stops to be unknown with an attempt to bring the interpreter up. -/
theorem Change.start_of_known (h : w.Change P w') (hunknown : w.state = .unknown)
    (hknown : w'.state ≠ .unknown) :
    ∃ info result w₁, (Vm.start info).run w = .ok result w₁ ∧
      w' = { w₁ with state := stateAfter result } := by
  cases h.host with
  | same hsame => exact absurd (hsame.state.trans hunknown) hknown
  | learn _ _ heq | addProc _ heq =>
      subst heq
      exact absurd hunknown hknown
  | @register kind run _ _ heq =>
      subst heq
      cases kind <;> exact absurd hunknown hknown
  | setup _ hstart heq => exact ⟨_, _, _, hstart, heq⟩
  | cleanUp hup => cases hup.symm.trans hunknown

/-- An attempt leaves the state and the code in agreement with what has become of the
interpreter. -/
theorem initializedAsTold_of_start {info : BootInfo} {result : Except Error Unit} {w₁ : World σ}
    (hstart : (Vm.start info).run w = .ok result w₁)
    (hcode : w₁.machine.setupCode = w.machine.setupCode) :
    InitializedAsTold { w₁ with state := stateAfter result } := by
  obtain ⟨hnot, hstarted⟩ := Vm.start_cases hstart
  have hinitialized : w₁.machine.initialized = (w.machine.setupCode == 0) := by
    rw [hstarted.initialized, hnot, Bool.false_or]
  unfold InitializedAsTold
  rw [hinitialized, hcode]
  cases result with
  | error error => rfl
  | ok _ => simp [stateAfter, VmState.tellsInitialized, (hstarted.ok_iff.1 rfl).1]

/-- After each change state and code still tell. -/
theorem Change.initializedAsTold (h : w.Change P w') (hw : w.InitializedAsTold) :
    w'.InitializedAsTold := by
  have hcode := h.sameGiven.setupCode
  cases h.life with
  | none hsame =>
      unfold InitializedAsTold at hw ⊢
      rw [hsame.machine.initialized, hsame.state, hcode]
      exact hw
  | broughtUp hbrought =>
      have hknown : w'.state ≠ .unknown := by
        have hnext := hbrought.state
        rw [hbrought.unknown] at hnext
        generalize w'.state = after at hnext
        cases hnext <;> simp
      obtain ⟨info, result, w₁, hstart, rfl⟩ := h.start_of_known hbrought.unknown hknown
      exact initializedAsTold_of_start hstart hcode
  | takenDown hup heq =>
      subst heq
      rfl

/-- State and code tell at every moment of a run. -/
theorem Reaches.initializedAsTold (h : w.Reaches P w') (hw : w.InitializedAsTold) :
    w'.InitializedAsTold :=
  h.kept (fun hchange => hchange.initializedAsTold) hw

/-- Nobody has initialized an interpreter that nobody has touched. -/
theorem Fresh.initializedAsTold (h : w.Fresh) : w.InitializedAsTold := by
  unfold InitializedAsTold
  rw [h.initialized, h.state]
  rfl

/-! ### Stranded interpreters -/

/-- The interpreter is initialized, but it is not up. -/
def Stranded (w : World σ) : Prop :=
  w.machine.initialized = true ∧ w.state ≠ .up

/-- An interpreter is stranded if it failed, and not for a code that it reported. -/
theorem InitializedAsTold.stranded_iff (h : w.InitializedAsTold) :
    w.Stranded ↔ (∃ error, w.state = .failed error) ∧ w.machine.setupCode = 0 := by
  unfold Stranded
  rw [h]
  cases w.state <;> simp [VmState.tellsInitialized]

/-- What an attempt comes to: the interpreter is up if it reports no failure and gets a command
line, and stranded if it reports none and gets no command line. -/
theorem InitializedAsTold.setup_run (h : w.InitializedAsTold) (hunknown : w.state = .unknown)
    (info : BootInfo) :
    ∃ (result : Except Error Unit) (w' : World σ),
      (Vm.setup info).run w = .ok ((result.map fun _ => true).mapError .refused) w' ∧
      (result = .ok () ↔ w.machine.setupCode = 0 ∧ info.isRunnable) ∧
      (w'.Stranded ↔ w.machine.setupCode = 0 ∧ ¬info.isRunnable) := by
  have hopen := Vm.setup_run_apply info w
  rw [hunknown] at hopen
  simp only at hopen
  have hnot : w.machine.initialized = false := by
    rw [h, hunknown]
    rfl
  cases hstart : (Vm.start info).run w with
  | error exit w₁ => cases hnot.symm.trans (Vm.start_error hstart).1
  | ok result w₁ =>
      have hstarted := (Vm.start_cases hstart).2
      have hinitialized : w₁.machine.initialized = (w.machine.setupCode == 0) := by
        rw [hstarted.initialized, hnot, Bool.false_or]
      have hok := hstarted.ok_iff
      rw [hstart] at hopen
      cases result with
      | ok _ =>
          refine ⟨.ok (), _, hopen, hok, ?_⟩
          obtain ⟨hcode, hrunnable⟩ := hok.1 rfl
          simp [Stranded, hrunnable]
      | error error =>
          refine ⟨.error error, _, hopen, hok, ?_⟩
          have hfailed : ¬(w.machine.setupCode = 0 ∧ info.isRunnable) := fun hboth => by
            cases hok.2 hboth
          have hstranded : Stranded ({ w₁ with state := .failed error }.recorded error) ↔
              w.machine.setupCode = 0 := by
            simp [Stranded, recorded, hinitialized]
          rw [hstranded]
          exact ⟨fun hcode => ⟨hcode, fun hrunnable => hfailed ⟨hcode, hrunnable⟩⟩, And.left⟩

/-- An operation that needs the interpreter does not strand it. -/
theorem InitializedAsTold.ensureSetup_run (h : w.InitializedAsTold) (hunknown : w.state = .unknown) :
    ∃ answer w', (Vm.ensureSetup : Checked σ Unit).run w = .ok answer w' ∧ ¬w'.Stranded := by
  obtain ⟨result, w', hrun, -, hstranded⟩ := h.setup_run hunknown {}
  have hnot : ¬w'.Stranded := fun hleft =>
    (hstranded.1 hleft).2 BootInfo.isRunnable_default
  rw [Vm.ensureSetup_run_apply, hrun]
  cases result <;> exact ⟨_, _, rfl, hnot⟩

/-- A failure is final. -/
theorem Reaches.failed_kept {error : Error} (h : w.Reaches P w') (hw : w.state = .failed error) :
    w'.state = .failed error := by
  have hleads := h.state_leads
  rw [hw] at hleads
  rcases Relation.ReflTransGen.cases_head hleads with hsame | ⟨_, hnext, -⟩
  · exact hsame.symm
  · cases hnext

/-- **When the interpreter is initialized.**  At every moment of every run from a world in which
nobody has touched the interpreter, it is initialized exactly if it is up, or if it has reported no
failure when it was set up and yet could not be brought up.

* It is stranded in the latter case, and a call to bring it up leads there exactly if it reports no
  failure and the command line cannot be passed on or is not taken.
* An operation that needs the interpreter does not lead there, as the command line that it gives is
  taken.
* Once the interpreter is stranded it is so forever: it is never asked to go down, and to clean up
  does nothing. -/
theorem Fresh.initialized_iff (fuel : Nat)
    (hfresh : w.Fresh)
    (hreached : w.Reaches AnyProbe v) :
    let r : Reentry σ := .ofFuel fuel
    let setUp : BootInfo → Eval σ (Except Error Bool) := fun info =>
      (Operation.setup info).answer r
    let cleanUp : Eval σ Int := Operation.cleanUp.answer r
    (v.machine.initialized = true ↔
      v.state = .up ∨ (∃ error, v.state = .failed error) ∧ v.machine.setupCode = 0) ∧
    (v.state = .unknown → ∀ info, ∃ answer v',
      setUp info v = .ok answer v' ∧
      (answer = .ok true ↔ v.machine.setupCode = 0 ∧ info.isRunnable) ∧
      (v'.Stranded ↔ v.machine.setupCode = 0 ∧ ¬info.isRunnable)) ∧
    (v.state = .unknown → ∃ answer v',
      (Vm.ensureSetup : Checked σ Unit).run v = .ok answer v' ∧ ¬v'.Stranded) ∧
    (v.Stranded → ∀ u, v.Reaches AnyProbe u →
      u.Stranded ∧ u.state = v.state ∧ u.machine.cleanupCalls = 0 ∧ cleanUp u = .ok 0 u) := by
  intro r setUp cleanUp
  have htold : v.InitializedAsTold := hreached.initializedAsTold hfresh.initializedAsTold
  refine ⟨?_, ?_, htold.ensureSetup_run, ?_⟩
  · rw [← htold.stranded_iff, Stranded]
    constructor
    · intro hinitialized
      by_cases hup : v.state = .up
      · exact .inl hup
      · exact .inr ⟨hinitialized, hup⟩
    · rintro (hup | hstranded)
      · rw [htold, hup]
        rfl
      · exact hstranded.1
  · intro hunknown info
    obtain ⟨result, v', hrun, hok, hstranded⟩ := htold.setup_run hunknown info
    have hsettled : setUp info v = .ok (result.map fun _ => true) v' := by
      have happly := Vm.settled_apply r (Vm.setup info) v
      rw [hrun] at happly
      cases result <;> exact happly
    refine ⟨_, _, hsettled, ?_, hstranded⟩
    rw [← hok]
    cases result <;> simp [Except.map]
  · intro hstranded u hu
    obtain ⟨⟨error, hfailed⟩, hcode⟩ := htold.stranded_iff.1 hstranded
    have hstate : u.state = .failed error := hu.failed_kept hfailed
    have htold' : u.InitializedAsTold := hu.initializedAsTold htold
    have hcounted : u.LifeCounted :=
      Reaches.lifeCounted (hreached.trans hu) hfresh.lifeCounted
    have hcode' : u.machine.setupCode = 0 :=
      hu.kept (fun hchange hkept => hchange.sameGiven.setupCode.trans hkept) hcode
    have hnotUp : u.state ≠ .up := by simp [hstate]
    refine ⟨htold'.stranded_iff.2 ⟨⟨error, hstate⟩, hcode'⟩, hstate.trans hfailed.symm, ?_,
      cleanUp_of_not_up hnotUp⟩
    rw [hcounted.cleanupCalls, hstate]
    rfl

/-- After a command line that it does not take the interpreter is initialized and has failed, and
cleaning up does not change that. -/
theorem initialized_iff_of_unknown_option :
    let info : BootInfo := { extraArgs := ["--no-such-option"] }
    let program : Program Unit .main := .ask (.setup info) fun _ => .done ()
    let v := Outcome.world (program.run (.ofFuel 1) willing)
    willing.Fresh ∧ willing.Reaches AnyProbe v ∧ v.Stranded ∧
      v.machine.initialized = true ∧ v.state = .failed (.setup Vm.notRunnable) ∧
      v.machine.cleanupCalls = 0 ∧ Vm.cleanUp v = .ok 0 v := by
  intro info program v
  have hfresh : willing.Fresh := ⟨rfl, rfl, rfl, rfl⟩
  have hreached : willing.Reaches AnyProbe v := program.reaches_run 1 willing
  have hfailed : v.state = .failed (.setup Vm.notRunnable) := by decide +kernel
  have hcode : v.machine.setupCode = 0 := by decide +kernel
  obtain ⟨hiff, -, -, hforever⟩ := Fresh.initialized_iff 1 hfresh hreached
  have hinitialized : v.machine.initialized = true := hiff.2 (.inr ⟨⟨_, hfailed⟩, hcode⟩)
  have hstranded : v.Stranded := ⟨hinitialized, by simp [hfailed]⟩
  obtain ⟨-, -, hnever, hcleanUp⟩ := hforever hstranded v .refl
  exact ⟨hfresh, hreached, hstranded, hinitialized, hfailed, hnever, hcleanUp⟩

end World

end EmbeddedRuby
