import EmbeddedRuby.Proofs.PendingException

/-!
# What the host is told of a jump

An operation runs its tasks behind a barrier, and the first jump that comes out of one ends it.  The
host is then told of an exception or of a break; which of the two is read off from what is pending,
and the exception is described by calls of its own methods, which may fail in turn.

The main statement is `Vm.Fallible.settled_spec`: whatever the methods that are called do, the host
is told of the exception that has come out, with the text that shows it or `unprintable`; of a break
as a break; of neither if no task was left by a jump; and nothing is pending afterwards.
-/

namespace EmbeddedRuby

open Eval

namespace Vm

variable {σ α : Type} {P : Probe → Prop} {r : Reentry σ}

/-- The text that shows an exception, or what stands for it if that cannot be had. -/
def shownText (r : Reentry σ) (exception : Value) (w : World σ) : String :=
  match perform r (.inspectBytes exception) w with
  | .ok bytes _ => Utf8.stringLossy bytes
  | .error _ _ => unprintable

theorem shown_run_apply (exception : Value) (w : World σ) :
    (shown r exception).run w =
      match perform r (.inspectBytes exception) w with
      | .ok bytes w' => .ok (some (Utf8.stringLossy bytes)) w'
      | .error (.jump _) w' => .ok none (w'.restored w).withoutPending.overlook
      | .error exit w' => .error exit w' := by
  have hopen := option_run_bind_apply (quietly r (.inspectBytes exception))
    (fun bytes : List UInt8 => pure (Utf8.stringLossy bytes)) w
  refine hopen.trans ?_
  rw [quietly_run_apply]
  cases perform r (.inspectBytes exception) w with
  | ok bytes w' => rfl
  | error exit w' => cases exit <;> rfl

/-- An exception is described by the text that shows it. -/
theorem description_of_report {exception : Value} {found : ExceptionReport} {w w' : World σ}
    (h : report r exception w = .ok found w') : found.description = shownText r exception w := by
  unfold report at h
  obtain ⟨shown?, w₁, hshown, h⟩ := bind_ok_iff.mp h
  obtain ⟨lines, w₂, -, h⟩ := bind_ok_iff.mp h
  cases h
  rw [shown_run_apply] at hshown
  unfold shownText
  cases hrun : perform r (.inspectBytes exception) w with
  | ok bytes w₃ =>
      rw [hrun] at hshown
      cases hshown
      rfl
  | error exit w₃ =>
      rw [hrun] at hshown
      cases exit with
      | jump jump =>
          cases hshown
          rfl
      | panic p => cases hshown
      | exhausted => cases hshown

/-- An operation that terminates has an answer. -/
theorem exists_answer (hr : r.Follows P) {operation : Checked σ α}
    (hfollows : CheckedFollows P operation) {w : World σ} (hhost : w.HostCode P)
    (hends : (settled r operation).Terminates w) :
    ∃ answer w', settled r operation w = .ok answer w' := by
  cases hrun : settled r operation w with
  | ok answer w' => exact ⟨answer, w', rfl⟩
  | error exit w' =>
      obtain ⟨jump, rfl⟩ := hends exit w' hrun
      exact absurd hrun ((settles_settled hr hfollows w hhost).noJump jump w')

/-- What a jump surfaces as: the exception that is pending, or else the jump itself. -/
theorem error_of_surface {jump : Jump} {error : Error} {w w' : World σ}
    (h : surface r jump w = .ok error w') :
    (w.machine.errinfo = Value.nil ∧ error = .jump jump.tag) ∨
      (w.machine.errinfo ≠ Value.nil ∧ ∃ found, error = .exception found ∧
        found.description = shownText r w.machine.errinfo w.withoutPending) := by
  rw [surface_apply] at h
  cases hparked : w.parked with
  | some p =>
      rw [hparked] at h
      cases h
  | none =>
      rw [hparked] at h
      simp only at h
      by_cases hnil : w.machine.errinfo = Value.nil
      · rw [if_pos hnil] at h
        cases h
        exact .inl ⟨hnil, rfl⟩
      · rw [if_neg hnil] at h
        obtain ⟨found, w₁, hreport, hrecord⟩ := bind_ok_iff.mp h
        cases hrecord
        exact .inr ⟨hnil, found, rfl, description_of_report hreport⟩

/-- An exception that is pending surfaces as itself, if it can be described at all. -/
theorem exists_exception_of_surface (jump : Jump) {exception : Value} {w : World σ}
    (hparked : w.parked = none) (hpending : w.machine.errinfo = exception)
    (hne : exception ≠ Value.nil)
    (hends : (report r exception).Terminates w.withoutPending) :
    ∃ found w', surface r jump w = .ok (.exception found) w' ∧
      found.description = shownText r exception w.withoutPending := by
  obtain ⟨found, w₁, hreport⟩ := (noJump_report exception).exists_value hends
  refine ⟨found, { w₁ with history := w₁.history.record (.exception found) }, ?_,
    description_of_report hreport⟩
  rw [surface_apply, hparked, hpending]
  simp only
  rw [if_neg hne, bind_apply, hreport]
  rfl

/-- The jump that has left a task is told apart by what is pending, if nothing was before. -/
theorem error_of_exited {jump : Jump} {error : Error} {w w₁ w₂ : World σ}
    (hexited : Exited NoProbes w jump w₁) (horder : w.InOrder)
    (hnil : w.machine.errinfo = Value.nil) (hsurface : surface r jump w₁ = .ok error w₂) :
    match jump with
    | .breakTo _ _ => error = .jump 2
    | .raised exception =>
      ∃ backtrace, error = .exception ⟨shownText r exception w₁.withoutPending, backtrace⟩ := by
  obtain ⟨w₀, w₃, hbefore, hleft, rfl⟩ := hexited
  have herrinfo : (w₃.restored w₀).machine.errinfo = (Ending.jump jump).pending :=
    hleft.pending (hbefore.pending hnil)
  rcases error_of_surface hsurface with ⟨hnone, rfl⟩ | ⟨hsome, found, rfl, hfound⟩
  · cases jump with
    | breakTo target value => rfl
    | raised exception =>
        have hne := hleft.raised_ne_nil (hbefore.inOrder horder)
        exact absurd (herrinfo.symm.trans hnone) hne
  · cases jump with
    | breakTo target value => exact absurd herrinfo hsome
    | raised exception =>
        have hdescription :
            found.description = shownText r exception (w₃.restored w₀).withoutPending := by
          rw [herrinfo] at hfound
          exact hfound
        refine ⟨found.backtrace, ?_⟩
        rw [← hdescription]

/-- **What the host is told.**  An operation that terminates, begun with nothing pending, has an
answer, and nothing is pending afterwards.  If a task of it was left by an exception, the answer is
this exception with the text that shows it; if by a break, the answer is the tag of breaks; and if
no task was left, the answer is neither an exception nor a jump. -/
theorem Fallible.settled_spec (fuel : Nat) {operation : Checked σ α} {w : World σ}
    (hoperation : Fallible NoProbes (.ofFuel fuel) operation)
    (hhost : w.HostCode NoProbes)
    (horder : w.InOrder)
    (hnil : w.machine.errinfo = Value.nil)
    (hends : (settled (.ofFuel fuel) operation).Terminates w) :
    ∃ answer w', settled (.ofFuel fuel) operation w = .ok answer w' ∧
      w'.machine.errinfo = Value.nil ∧
      match operation.run w with
      | .ok (.ok a) _ => answer = .ok a
      | .ok (.error (.refused error)) _ => answer = .error error ∧ error.IsRefusal
      | .ok (.error (.exited (.breakTo _ _))) _ => answer = .error (.jump 2)
      | .ok (.error (.exited (.raised exception))) w₁ =>
        ∃ backtrace, answer = .error (.exception
          ⟨shownText (.ofFuel fuel) exception w₁.withoutPending, backtrace⟩)
      | .error _ _ => False := by
  have hr := Reentry.follows_ofFuel NoProbes fuel (σ := σ)
  have hfollows := hoperation.follows hr
  obtain ⟨answer, w', hrun⟩ := exists_answer hr hfollows hhost hends
  have hcourse := (settles_settled hr hfollows w hhost).follows
  unfold FollowsAt at hcourse
  rw [hrun] at hcourse
  refine ⟨answer, w', hrun, hcourse.pending hnil, ?_⟩
  have hpart := hfollows w hhost
  unfold CheckedAt at hpart
  rw [settled_apply] at hrun
  cases hopen : operation.run w with
  | error exit w₁ =>
      rw [hopen] at hrun
      cases hrun
  | ok result w₁ =>
      rw [hopen] at hrun hpart
      match result with
      | .ok a =>
          cases hrun
          rfl
      | .error (.refused error) =>
          cases hrun
          refine ⟨rfl, ?_⟩
          rcases hpart.2 with hrefusal | hfailed
          · exact hrefusal
          · exact (hpart.1.inOrder horder).failure error hfailed
      | .error (.exited jump) =>
          simp only [map_eq_pure_bind] at hrun
          obtain ⟨error, w₂, hsurface, hanswer⟩ := bind_ok_iff.mp hrun
          cases hanswer
          have herror := error_of_exited hpart horder hnil hsurface
          cases jump with
          | breakTo target value => exact congrArg Except.error herror
          | raised exception =>
              obtain ⟨backtrace, rfl⟩ := herror
              exact ⟨backtrace, rfl⟩

/-- Where nil is called in place of a proc, in an interpreter without methods, the exception cannot
be shown, and nothing is pending after that. -/
theorem Fallible.settled_spec_bare :
    let operation : Checked Unit Value := Vm.callProc (.ofFuel 2) Value.nil [] none
    ∃ answer w', settled (.ofFuel 2) operation World.bare = .ok answer w' ∧
      w'.machine.errinfo = Value.nil ∧
      ∃ backtrace, answer = .error (.exception ⟨unprintable, backtrace⟩) := by
  have hends : (settled (.ofFuel 2) (Vm.callProc (.ofFuel 2) Value.nil [] none)).Terminates
      World.bare := by
    apply terminates_of_ending
    decide +kernel
  obtain ⟨answer, w', hrun, hnil, hspec⟩ :=
    Fallible.settled_spec 2 (.callProc Value.nil [] none) World.hostCode_bare World.inOrder_bare rfl
      hends
  exact ⟨answer, w', hrun, hnil, hspec⟩

end Vm

end EmbeddedRuby
