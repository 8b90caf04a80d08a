import EmbeddedRuby.Proofs.Barrier

/-!
# Bringing the interpreter up

`Vm.start` has three ways to fail and one to succeed, and each leaves another world behind.
`Started` lists them, so that nobody has to open the function again (`start_cases`, `start_error`).  `Vm.setup`
calls it only where that was not tried before, and otherwise answers from the state alone
(`setup_run_apply`).
-/

namespace EmbeddedRuby

/-- The world with one more error in the history. -/
def World.recorded {σ : Type} (w : World σ) (error : Error) : World σ :=
  { w with history := w.history.record error }

namespace Vm

open Eval

variable {σ : Type}

/-- The reason given when the interpreter refuses its command line. -/
def notRunnable : String := "ruby_options() did not produce a runnable program, status 1"

/-- How bringing the interpreter up ends: the interpreter refuses; the command line has a NUL; or the
interpreter has run with the command line, which it may refuse. -/
inductive Started (info : BootInfo) (w : World σ) : Except Error Unit → World σ → Prop
  | refused (hcode : w.machine.setupCode ≠ 0) :
      Started info w
        (.error (.setup s!"ruby_setup() failed with code {w.machine.setupCode}"))
        { w with machine := w.machine.setUp.2 }
  | badArguments {error : Error} (hcode : w.machine.setupCode = 0)
      (harguments : info.arguments = .error error) :
      Started info w (.error error) { w.fillCallbacks with machine := w.machine.setUp.2 }
  | ran {arguments : List String} (hcode : w.machine.setupCode = 0)
      (harguments : info.arguments = .ok arguments) :
      Started info w
        (if (w.machine.setUp.2.options arguments).1 then .ok () else .error (.setup notRunnable))
        { w.fillCallbacks with machine := (w.machine.setUp.2.options arguments).2 }

/-- What bringing the interpreter up comes to, unless somebody else has brought it up. -/
theorem start_cases {info : BootInfo} {w w' : World σ} {result : Except Error Unit}
    (h : (start info).run w = .ok result w') :
    w.machine.initialized = false ∧ Started info w result w' := by
  unfold start at h
  simp only [run_lift_bind_apply, machine_bind_apply] at h
  cases hinit : w.machine.initialized with
  | true =>
      rw [hinit] at h
      cases h
  | false =>
      refine ⟨rfl, ?_⟩
      simp only [hinit, Bool.false_eq_true, if_false, run_lift_bind_apply,
        onMachine_bind_apply] at h
      have hcode : w.machine.setUp.1 = w.machine.setupCode := rfl
      rw [hcode] at h
      by_cases hzero : w.machine.setupCode = 0
      · rw [if_neg (not_not_intro hzero), run_modify_bind_apply] at h
        cases harguments : info.arguments with
        | error error =>
            rw [harguments] at h
            cases h
            exact .badArguments hzero harguments
        | ok arguments =>
            have hran := Started.ran hzero harguments
            rw [harguments, run_liftM_ok_bind_apply, run_lift_bind_apply,
              onMachine_bind_apply] at h
            have hmachine : ({ w with machine := w.machine.setUp.2 }.fillCallbacks).machine =
              w.machine.setUp.2 := rfl
            rw [hmachine] at h
            cases hoptions : (w.machine.setUp.2.options arguments).1 <;>
              simp only [hoptions, Bool.false_eq_true, if_true, if_false] at h hran <;>
              cases h <;> exact hran
      · rw [if_pos hzero] at h
        cases h
        exact .refused hzero

/-- Nothing but a panic comes out of bringing the interpreter up, before anything is done, and only
where somebody else has brought it up. -/
theorem start_error {info : BootInfo} {w w' : World σ} {exit : Exit}
    (h : (start info).run w = .error exit w') :
    w.machine.initialized = true ∧ ∃ p, exit = .panic p ∧ w' = w := by
  unfold start at h
  simp only [run_lift_bind_apply, machine_bind_apply] at h
  cases hinit : w.machine.initialized with
  | true =>
      rw [hinit] at h
      cases h
      exact ⟨rfl, _, rfl, rfl⟩
  | false =>
      simp only [hinit, Bool.false_eq_true, if_false, run_lift_bind_apply,
        onMachine_bind_apply] at h
      split at h
      · cases h
      · rw [run_modify_bind_apply] at h
        cases harguments : info.arguments with
        | error error =>
            rw [harguments] at h
            cases h
        | ok arguments =>
            rw [harguments, run_liftM_ok_bind_apply, run_lift_bind_apply,
              onMachine_bind_apply] at h
            split at h <;> cases h

/-- What is said of an interpreter that is gone. -/
def cleanedUpReason : String := "Ruby VM has already been cleaned up"

/-- Only where it was not tried before is the interpreter brought up; everything else is answered
from the state. -/
theorem setup_run_apply (info : BootInfo) (w : World σ) :
    (setup info).run w =
      match w.state with
      | .up => .ok (.ok false) w
      | .failed error => .ok (.error (.refused error)) (w.recorded error)
      | .cleanedUp =>
        .ok (.error (.refused (.setup cleanedUpReason))) (w.recorded (.setup cleanedUpReason))
      | .unknown =>
        match (start info).run w with
        | .ok (.ok ()) w' => .ok (.ok true) { w' with state := .up }
        | .ok (.error error) w' =>
          .ok (.error (.refused error)) ({ w' with state := .failed error }.recorded error)
        | .error exit w' => .error exit w' := by
  unfold setup
  rw [run_get_bind_apply]
  cases w.state with
  | up | failed error | cleanedUp => rfl
  | unknown =>
      simp only
      rw [run_lift_bind_apply, bind_apply]
      cases (start info).run w with
      | error exit w' => rfl
      | ok result w' => cases result <;> rfl

/-- An operation that has brought the interpreter up, or found it up, goes on with it up. -/
theorem state_of_setup {info : BootInfo} {b : Bool} {w w' : World σ}
    (h : (setup info).run w = .ok (.ok b) w') : w'.state = .up := by
  rw [setup_run_apply] at h
  cases hstate : w.state with
  | up =>
      rw [hstate] at h
      cases h
      exact hstate
  | failed error | cleanedUp =>
      rw [hstate] at h
      cases h
  | unknown =>
      rw [hstate] at h
      simp only at h
      cases hstart : (start info).run w with
      | error exit w₁ =>
          rw [hstart] at h
          cases h
      | ok result w₁ =>
          rw [hstart] at h
          cases result <;> cases h
          rfl

theorem ensureSetup_run_apply (w : World σ) :
    (ensureSetup : Checked σ Unit).run w =
      match (setup {}).run w with
      | .ok (.ok _) w' => .ok (.ok ()) w'
      | .ok (.error failure) w' => .ok (.error failure) w'
      | .error exit w' => .error exit w' := by
  unfold ensureSetup
  rw [run_bind_apply]
  cases (setup {} : Checked σ Bool).run w with
  | error exit w' => rfl
  | ok result w' => cases result <;> rfl

theorem state_of_ensureSetup {w w' : World σ}
    (h : (ensureSetup : Checked σ Unit).run w = .ok (.ok ()) w') : w'.state = .up := by
  rw [ensureSetup_run_apply] at h
  cases hsetup : (setup {} : Checked σ Bool).run w with
  | error exit w₁ =>
      rw [hsetup] at h
      cases h
  | ok result w₁ =>
      rw [hsetup] at h
      cases result <;> cases h
      exact state_of_setup hsetup

/-- After the interpreter was brought up it makes no difference that it was not up before. -/
theorem ensureSetup_bind_run {α : Type} {w w' : World σ}
    (hsetup : (ensureSetup : Checked σ Unit).run w = .ok (.ok ()) w')
    (f : Unit → Checked σ α) : (ensureSetup >>= f).run w = (ensureSetup >>= f).run w' := by
  rw [run_bind_apply, run_bind_apply, hsetup, ensureSetup_run_of_up (state_of_ensureSetup hsetup)]

end Vm

/-- A world whose interpreter is up and has the core classes, but no methods. -/
def World.bare : World Unit where
  machine := { heap := ⟨Machine.coreSlots⟩ }
  state := .up
  memory := ()

/-- Such a world whose interpreter nobody has touched. -/
def World.willing : World Unit where
  machine := { heap := ⟨Machine.coreSlots⟩ }
  memory := ()

end EmbeddedRuby
