import EmbeddedRuby.Proofs.Follows.Scripts
import EmbeddedRuby.Vm.Operation

/-!
# Tasks and operations follow courses

What a task does follows a course, and so does an operation.  Up to its settling an operation has
three endings in order: with a value or refused, where it has followed a course; or left by a jump
that was stopped at the barrier, where it has followed a course up to a task and that task has
followed one to the jump (`Vm.Exited`).  Settling turns the last into a course with a value, or with
the panic that waited.
-/

namespace EmbeddedRuby

open Eval

variable {σ α : Type} {P : Probe → Prop} {r : Reentry σ}

/-! ### Tasks and methods -/

/-- Each task follows a course. -/
theorem follows_perform (hr : r.Follows P) (task : Task) : Follows P (perform r task) := by
  have hcount : ∀ w : World σ, Course.account P w .value
      (w.onMachine fun m => { m with internCalls := m.internCalls + 1 }) := fun w _ =>
    .step (.machine w (.countIntern w.machine))
  exact Course.rules.perform_any hr.composed (Loader.follows_loadObject hr) hcount task

theorem follows_callWithClosure (hr : r.Follows P) (receiver : Value) (method : SymbolId)
    (args : List Value) {body : Closure σ} (hbody : Closure.Uses P body) :
    Follows P (callWithClosure r receiver method args body) :=
  Course.blockRules.callWithClosure hr.told receiver method args hbody

/-- The call of a method follows a course, whatever a method of the host's asks for. -/
theorem follows_dispatch (hr : r.Follows P) {call : Call σ} (hcall : call.block.Uses P) :
    Follows P (dispatch r call) := by
  have htask : ∀ task, True → Follows P (perform r task) := fun task _ => follows_perform hr task
  intro w
  exact Course.blockRules.dispatch hr.told (Block.uses_iff.mp hcall) htask fun _ body _ invocation =>
    (body invocation).within_any

namespace Vm

/-! ### Operations up to their settling -/

/-- A part of an operation has come to a task that was left by a jump, which was stopped. -/
def Exited (P : Probe → Prop) (w : World σ) (jump : Jump) (w' : World σ) : Prop :=
  ∃ w₀ w₁, Course P none w .value w₀ ∧ Course P none w₀ (.jump jump) w₁ ∧ w' = w₁.restored w₀

/-- A part of an operation follows a course from a world.  If it is refused, then with an error of
the host's side, or with the one for which the interpreter could not be brought up. -/
def CheckedAt (P : Probe → Prop) (operation : Checked σ α) (w : World σ) : Prop :=
  match operation.run w with
  | .ok (.ok _) w' => Course P none w .value w'
  | .ok (.error (.refused error)) w' =>
    Course P none w .value w' ∧ (error.IsRefusal ∨ w'.state = .failed error)
  | .ok (.error (.exited jump)) w' => Exited P w jump w'
  | .error exit w' => Course P none w (.exit exit) w' ∧ ∀ jump, exit ≠ .jump jump

/-- A part of an operation follows a course. -/
def CheckedFollows (P : Probe → Prop) (operation : Checked σ α) : Prop :=
  ∀ w, w.HostCode P → CheckedAt P operation w

/-- What courses tell of an operation is that it follows one. -/
theorem ToldChecked.checkedAt {operation : Checked σ α} {w : World σ} (hw : w.HostCode P)
    (h : ToldChecked (Course.account P) operation w) : CheckedAt P operation w := by
  unfold ToldChecked at h
  unfold CheckedAt
  cases hrun : operation.run w with
  | error exit w₁ =>
      rw [hrun] at h
      exact ⟨h.1 hw, h.2⟩
  | ok result w₁ =>
      rw [hrun] at h
      match result with
      | .ok a => exact h hw
      | .error (.refused error) =>
          obtain ⟨⟨u, hu, rfl⟩, hkind⟩ := h
          exact ⟨.seq (hu hw) (.step (.record u error)), hkind⟩
      | .error (.exited jump) =>
          obtain ⟨w₀, w₂, hbefore, hleft, heq⟩ := h
          have hcourse := hbefore hw
          exact ⟨w₀, w₂, hcourse, hleft (hcourse.hostCode hw), heq⟩

/-- Each operation that can fail follows a course. -/
theorem Fallible.follows (hr : r.Follows P) {operation : Checked σ α}
    (h : Fallible P r operation) : CheckedFollows P operation := by
  intro w hw
  have htold := h.told Course.programRules hr.told (fun task _ => follows_perform hr task) w
  exact htold.checkedAt hw

/-! ### The settling -/

theorem follows_shown (hr : r.Follows P) (exception : Value) :
    Follows P (shown r exception).run :=
  told_shown Course.operationRules (fun task _ => follows_perform hr task) exception

/-- The lines of a backtrace are had in three parts: two names, and what is done with them. -/
theorem backtraceLines_eq (hr : r.Follows P) (exception : Value) :
    ∃ rest : SymbolId → SymbolId → OptionT (Eval σ) (List String),
      (backtraceLines r exception = quietName r "backtrace" >>= fun backtrace =>
        quietName r "join" >>= fun join => rest backtrace join) ∧
      ∀ backtrace join, Follows P (rest backtrace join).run := by
  obtain ⟨rest, heq, htold⟩ := backtraceLines_parts (r := r) exception
  exact ⟨rest, heq, htold Course.operationRules fun task _ => follows_perform hr task⟩

/-- After a task was left by a jump, making an error of it completes the course. -/
theorem course_surface (hr : r.Follows P) {w w' : World σ} {jump : Jump} (hw : w.HostCode P)
    (h : Exited P w jump w') :
    Course P none w (Outcome.ending (surface r jump w')) (Outcome.world (surface r jump w')) := by
  obtain ⟨w₀, w₁, hbefore, hleft, rfl⟩ := h
  have hexited : ExitedBy (Course.account P) w jump (w₁.restored w₀) :=
    ⟨w₀, w₁, fun _ => hbefore, fun _ => hleft, rfl⟩
  have htold := told_surface (r := r) Course.operationRules
    (fun task _ => follows_perform hr task) hexited
  cases hrun : surface r jump (w₁.restored w₀) with
  | ok error w₂ =>
      rw [hrun] at htold
      obtain ⟨u, hu, rfl⟩ := htold
      exact .seq (hu hw) (.step (.record u error))
  | error exit w₂ =>
      rw [hrun] at htold
      exact htold hw

/-- A settled operation settles. -/
theorem settles_settled (hr : r.Follows P) {operation : Checked σ α}
    (h : CheckedFollows P operation) : Settles P (settled r operation) := by
  intro w hw
  have hinner := h w hw
  unfold CheckedAt at hinner
  have hopen := settled_apply r operation w
  cases hrun : operation.run w with
  | error exit w₁ =>
      rw [hrun] at hinner hopen
      exact .exit hopen hinner.1 hinner.2
  | ok result w₁ =>
      rw [hrun] at hinner hopen
      match result with
      | .ok a => exact .value hopen hinner
      | .error (.refused error) => exact .value hopen hinner.1
      | .error (.exited jump) =>
          have hcourse := course_surface hr hw hinner
          simp only [map_eq_pure_bind, bind_apply] at hopen
          cases hs : surface r jump w₁ with
          | ok error w₂ =>
              rw [hs] at hcourse hopen
              exact .value hopen hcourse
          | error exit w₂ =>
              rw [hs] at hcourse hopen
              refine .exit hopen hcourse ?_
              rintro other rfl
              exact noJump_surface jump w₁ other w₂ hs

end Vm

end EmbeddedRuby
