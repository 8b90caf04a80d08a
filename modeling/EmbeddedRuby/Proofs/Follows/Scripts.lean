import EmbeddedRuby.Proofs.Follows.Basic
import EmbeddedRuby.Proofs.Stacks

/-!
# Scripts follow courses

The parts of a statement follow courses as everything else does.  The statements themselves open and
close bodies, which is a matter of the script that they stand in: each runs on a course within the
script (`ScriptAt`), as long as some frame of the script is left and no body was opened below the
first of its frames (`Bodies.Above`).
-/

namespace EmbeddedRuby

open Eval

namespace Loader

variable {σ : Type} {P : Probe → Prop} {r : Reentry σ}

/-! ### Statements -/

/-- The run from a world follows a course within a script. -/
def ScriptAt {α : Type} (P : Probe → Prop) (base : Nat) (action : Eval σ α) (w : World σ) :
    Prop :=
  Course P (some base) w (Outcome.ending (action w)) (Outcome.world (action w))

/-- All bodies that are open were opened above the first frame of the script. -/
def Above (base : Nat) (b : Bodies) : Prop :=
  ∀ mark ∈ b.marks, base < mark

/-- A part of a script runs on a course within it, and leaves only bodies open that were opened
above the first frame of the script. -/
structure Advances (P : Probe → Prop) (base : Nat) (action : Eval σ Bodies) (w : World σ) :
    Prop where
  course : ScriptAt P base action w
  above : ∀ b w', action w = .ok b w' → Above base b

/-- What any run does can be done within a script. -/
theorem ScriptAt.bind {α β : Type} {base : Nat} {x : Eval σ α} {f : α → Eval σ β} {w : World σ}
    (hx : ScriptAt P base x w) (hf : ∀ a w', x w = .ok a w' → ScriptAt P base (f a) w') :
    ScriptAt P base (x >>= f) w := by
  unfold ScriptAt at *
  rw [bind_apply]
  cases hrun : x w with
  | ok a w₁ =>
      rw [hrun] at hx
      exact .seq hx (hf a w₁ hrun)
  | error exit w₁ =>
      rw [hrun] at hx
      exact hx

theorem Advances.bind {α : Type} {base : Nat} {x : Eval σ α} {f : α → Eval σ Bodies}
    {w : World σ} (hw : w.HostCode P) (hbase : base < w.machine.frames.length)
    (hx : ScriptAt P base x w)
    (hf : ∀ a w', w'.HostCode P → base < w'.machine.frames.length → Advances P base (f a) w') :
    Advances P base (x >>= f) w := by
  have hnext : ∀ a w', x w = .ok a w' → Advances P base (f a) w' := by
    intro a w' hrun
    unfold ScriptAt at hx
    rw [hrun] at hx
    exact hf a w' (hx.hostCode hw) (hx.base_lt hbase)
  refine ⟨hx.bind fun a w' hrun => (hnext a w' hrun).course, ?_⟩
  intro b w' hrun
  obtain ⟨a, w₁, hfirst, hrest⟩ := bind_ok_iff.mp hrun
  exact (hnext a w₁ hfirst).above b w' hrest

/-- What any run does can be done within a script. -/
theorem Follows.scriptAt {α : Type} {base : Nat} {action : Eval σ α} {w : World σ}
    (h : Follows P action) (hw : w.HostCode P) : ScriptAt P base action w :=
  .ordinary (h w hw)

theorem Advances.pure {base : Nat} {b : Bodies} {w : World σ} (hb : Above base b) :
    Advances P base (return b) w := by
  refine ⟨.ordinary (.done w), ?_⟩
  intro b' w' h
  cases h
  exact hb

theorem advances_enter {base : Nat} {b : Bodies} {w : World σ} (file label : String) (line : Nat)
    (module : Value) (hb : Above base b) (hbase : base < w.machine.frames.length) :
    Advances P base (enter b file label line module) w := by
  refine ⟨.openBody w file label line, ?_⟩
  intro b' w' h
  cases h
  intro mark hmark
  rcases List.mem_cons.mp hmark with rfl | hold
  · exact hbase
  · exact hb mark hold

theorem advances_leave {base : Nat} {b : Bodies} {w : World σ} (hb : Above base b) :
    Advances P base (leave b) w := by
  obtain ⟨scopes, marks⟩ := b
  cases marks with
  | nil => exact .pure fun mark hmark => by cases hmark
  | cons depth marks =>
      refine ⟨.closeBody w (hb depth List.mem_cons_self), ?_⟩
      intro b' w' h
      cases h
      exact fun mark hmark => hb mark (List.mem_cons_of_mem _ hmark)

/-- A statement advances a script: apart from what it does to the stack of bodies, it follows a course
as everything else does. -/
theorem advances_runStatement (hr : r.Follows P) {base : Nat} (file : String) {b : Bodies}
    {entry : Nat × Statement} (hread : entry.2.NamesRead) {w : World σ} (hw : w.HostCode P)
    (hb : Above base b) (hbase : base < w.machine.frames.length) :
    Advances P base (runStatement r file b entry) w := by
  obtain ⟨action, hexecution, hopen⟩ :=
    Course.rules.exists_execution hr.composed hr.tellsDefinitions file b hread
  rw [hopen]
  refine .bind hw hbase (.setLine w entry.1) fun _ v hv hlow => ?_
  generalize entry.2.bodyChange = change at hexecution
  cases hexecution with
  | opens label htold =>
      exact .bind hv hlow (Follows.scriptAt htold hv) fun module v' _ hlow' =>
        advances_enter file label entry.1 module hb hlow'
  | closes => exact advances_leave hb
  | keeps htold hkept =>
      exact ⟨Follows.scriptAt htold hv, fun b' v' hrun => hkept v b' v' hrun ▸ hb⟩

/-- Statements one after the other advance a script. -/
theorem advances_statements (hr : r.Follows P) {base : Nat} (file : String)
    {statements : List (Nat × Statement)} (hread : ∀ entry ∈ statements, entry.2.NamesRead)
    {b : Bodies} {w : World σ} (hw : w.HostCode P) (hb : Above base b)
    (hbase : base < w.machine.frames.length) :
    Advances P base (statements.foldlM (runStatement r file) b) w := by
  induction statements generalizing b w with
  | nil => exact .pure hb
  | cons entry rest ih =>
      obtain ⟨hentry, hlater⟩ := List.forall_mem_cons.mp hread
      have hfirst := advances_runStatement hr file hentry hw hb hbase
      rw [List.foldlM_cons]
      have hnext : ∀ b' w', runStatement r file b entry w = .ok b' w' →
          Advances P base (rest.foldlM (runStatement r file) b') w' := by
        intro b' w' hrun
        have hcourse := hfirst.course
        unfold ScriptAt at hcourse
        rw [hrun] at hcourse
        exact ih hlater (hcourse.hostCode hw) (hfirst.above b' w' hrun) (hcourse.base_lt hbase)
      refine ⟨hfirst.course.bind fun b' w' hrun => (hnext b' w' hrun).course, ?_⟩
      intro b' w' hrun
      obtain ⟨b₁, w₁, hrun₁, hrun₂⟩ := bind_ok_iff.mp hrun
      exact (hnext b₁ w₁ hrun₁).above b' w' hrun₂

/-! ### Scripts -/

/-- The statements of a script run on a course within it, after its frame was entered. -/
theorem scriptAt_statements (hr : r.Follows P) (file : String) (top : Value)
    {statements : List (Nat × Statement)} (hread : ∀ entry ∈ statements, entry.2.NamesRead)
    {w : World σ} (hw : w.HostCode P) :
    ScriptAt P w.machine.frames.length (statements.foldlM (runStatement r file) ⟨[top], []⟩)
      (w.onMachine fun m => m.pushFrame file topLabel 0) := by
  have hnone : Above w.machine.frames.length ⟨[top], []⟩ := fun mark hmark => by cases hmark
  have hentered : (w.onMachine fun m => m.pushFrame file topLabel 0).HostCode P :=
    hw.of_eq rfl rfl rfl
  exact (advances_statements hr file hread hentered hnone
    (Nat.lt_succ_self w.machine.frames.length)).course

/-- Running the statements of a script is a script on the course. -/
theorem follows_runScript (hr : r.Follows P) (file : String) (top : Value)
    {statements : List (Nat × Statement)} (hread : ∀ entry ∈ statements, entry.2.NamesRead) :
    Follows P (runScript r file top statements) := by
  intro w hw
  have hinner := scriptAt_statements hr file top hread hw
  unfold ScriptAt at hinner
  unfold FollowsAt runScript
  rw [machine_bind_apply, changeMachine_bind_apply, bind_apply]
  cases hrun : statements.foldlM (runStatement r file) ⟨[top], []⟩
      (w.onMachine fun m => m.pushFrame file topLabel 0) with
  | ok b w₁ =>
      rw [hrun] at hinner
      exact .script hinner
  | error exit w₁ =>
      rw [hrun] at hinner
      exact .scriptLeft hinner

theorem follows_loadObject (hr : r.Follows P) (path : Value) (wrap : Bool) :
    Follows P (loadObject r path wrap) := by
  intro w hw
  unfold FollowsAt
  rcases loadObject_cases r path wrap w with
    ⟨fault, hrefused⟩ | ⟨file, top, statements, m, hmade, hread, hran⟩
  · rw [hrefused]
    exact .raise w fault
  · have hopened : Course P none w .value { w with machine := m } := .of_steps hmade.steps w rfl
    rw [hran]
    exact .seq hopened (follows_runScript hr file top hread _ (hopened.hostCode hw))

/-- A script that has run to its end has left no frames. -/
theorem frames_of_loadObject (hr : r.Follows P) {path : Value} {wrap : Bool} {w w' : World σ}
    {result : Unit} (hw : w.HostCode P) (h : loadObject r path wrap w = .ok result w') :
    w'.machine.frames = w.machine.frames := by
  rcases loadObject_cases r path wrap w with
    ⟨fault, hrefused⟩ | ⟨file, top, statements, m, hmade, hread, hran⟩
  · exact absurd (hrefused.symm.trans h) raise_ne_ok
  · rw [hran] at h
    unfold runScript at h
    rw [machine_bind_apply, changeMachine_bind_apply] at h
    obtain ⟨b, w₁, hrun, hleft⟩ := bind_ok_iff.mp h
    have hopened : ({ w with machine := m } : World σ).HostCode P := hw.of_eq rfl rfl rfl
    have hinner := scriptAt_statements hr file top hread hopened
    unfold ScriptAt at hinner
    rw [hrun] at hinner
    cases hleft
    exact hinner.framesKept.below_script.trans hmade.steps.sameStacks.frames

end Loader

end EmbeddedRuby
