import EmbeddedRuby.Proofs.HostClosures

/-!
# The roots of boxes and procs

The host keeps an object alive by a root, which it holds in a box, and each proc that it has made by
a root of its own.  A box can be dropped at any time, but roots are registered and given up only with
an interpreter that is up.

What carries the proofs is an inversion: a change leaves roots, boxes and procs alone, or makes or
drops a box, or makes a proc, or takes the interpreter down (`World.RootChange`).  As long as the
interpreter is not taken down, there is a root for each box and one for each proc, and no other
(`World.RootsHeld`).

The main statement is `World.Fresh.roots_held`.
-/

namespace EmbeddedRuby

open Eval

variable {σ : Type} {P : Probe → Prop}

namespace World

variable {w w' v u : World σ}

/-! ### What each change does -/

/-- Nothing has happened to the roots, the boxes and the procs. -/
structure SameRoots (w w' : World σ) : Prop where
  roots : w'.machine.roots = w.machine.roots
  boxes : w'.boxes = w.boxes
  procRoots : w'.procRoots = w.procRoots
  procs : w'.procs = w.procs
  nextRoot : w'.nextRoot = w.nextRoot

/-- Roots that are the same over two parts of a run are the same over both. -/
theorem SameRoots.trans {w₁ w₂ : World σ} (h₁ : w.SameRoots w₁) (h₂ : w₁.SameRoots w₂) :
    w.SameRoots w₂ :=
  ⟨h₂.roots.trans h₁.roots, h₂.boxes.trans h₁.boxes, h₂.procRoots.trans h₁.procRoots,
    h₂.procs.trans h₁.procs, h₂.nextRoot.trans h₁.nextRoot⟩

/-- The history has nothing to do with roots. -/
theorem sameRoots_recorded (w : World σ) (error : Error) : w.SameRoots (w.recorded error) :=
  ⟨rfl, rfl, rfl, rfl, rfl⟩

/-- A machine with the same roots leaves them as they are. -/
theorem sameRoots_machine {m : Machine} (hroots : m.roots = w.machine.roots) :
    w.SameRoots { w with machine := m } :=
  ⟨hroots, rfl, rfl, rfl, rfl⟩

/-- What a change does to the roots, and to those for whom they are registered. -/
inductive RootChange (w w' : World σ) : Prop
  | none (h : w.SameRoots w')
  | boxed (hup : w.state = .up) (h : w' = w.boxed)
  | unboxed {root : Nat} (hheld : root ∈ w.boxes) (h : w' = w.unboxed root)
  | addProc {body : Closure σ} (hup : w.state = .up) (h : w' = w.addProc body)
  | takenDown (hup : w.state = .up) (h : w' = w.takenDown)

/-- No step of the interpreter registers a root. -/
theorem steps_roots_eq {m m' : Machine} (h : m.Steps m') : m'.roots = m.roots := by
  have hframe := Machine.Steps.frame h
  rw [hframe]

/-- Reading a command line registers no root. -/
theorem options_roots_eq (m : Machine) (argv : List String) :
    (m.options argv).2.roots = m.roots := by
  obtain ⟨loadPath, heq⟩ := m.options_eq argv
  rw [heq]

/-- An attempt to bring the interpreter up touches no root. -/
theorem sameRoots_of_start {info : BootInfo} {result : Except Error Unit} {w₁ : World σ}
    (hstart : (Vm.start info).run w = .ok result w₁) (state : VmState) :
    w.SameRoots { w₁ with state } := by
  cases (Vm.start_cases hstart).2 with
  | refused | badArguments => exact ⟨rfl, rfl, rfl, rfl, rfl⟩
  | ran => exact ⟨options_roots_eq _ _, rfl, rfl, rfl, rfl⟩

/-- A step makes a box, drops one, takes the interpreter down, or leaves all roots alone. -/
theorem Step.roots (h : w.Step w') : w.RootChange w' := by
  cases h with
  | machine h => exact .none (sameRoots_machine (steps_roots_eq (.single h)))
  | record | clearErrors | learn | remember => exact .none ⟨rfl, rfl, rfl, rfl, rfl⟩
  | boxed hup => exact .boxed hup rfl
  | unboxed hheld => exact .unboxed hheld rfl
  | setup _ hstart => exact .none (sameRoots_of_start hstart _)
  | cleanUp hup => exact .takenDown hup rfl

/-- A change makes a box, drops one, makes a proc, takes the interpreter down, or leaves all roots
alone. -/
theorem Change.roots (h : w.Change P w') : w.RootChange w' := by
  cases h with
  | step h => exact h.roots
  | addProc hup => exact .addProc hup rfl
  | probe hprobe h =>
      cases h with
      | options w argv => exact .none (sameRoots_machine (options_roots_eq _ argv))
      | _ => exact .none (sameRoots_machine rfl)
  | @register kind run => cases kind <;> exact .none ⟨rfl, rfl, rfl, rfl, rfl⟩
  | raising fault =>
      have hsame := steps_roots_eq (w.machine.newException_steps fault)
      exact .none (sameRoots_machine hsame)
  | @raisingObject exception =>
      obtain ⟨m₁, heap, hsteps, heq⟩ := w.machine.fillBacktrace_eq exception
      have hsame : m₁.roots = w.machine.roots := steps_roots_eq hsteps
      exact .none (sameRoots_machine ((congrArg Machine.roots heq).trans hsame))
  | overlook =>
      obtain ⟨panicLog, hoverlook⟩ := w.overlook_eq
      rw [hoverlook]
      exact .none ⟨rfl, rfl, rfl, rfl, rfl⟩
  | restack | withoutPending | park | resume => exact .none ⟨rfl, rfl, rfl, rfl, rfl⟩

/-! ### Who holds the roots -/

/-- The roots are those of the boxes and those of the procs, each of them once; there is one for each
proc; and a new root is another one. -/
structure RootsHeld (w : World σ) : Prop where
  perm : w.machine.roots.Perm (w.boxes ++ w.procRoots)
  nodup : w.machine.roots.Nodup
  procs : w.procRoots.length = w.procs.size
  below : ∀ root ∈ w.machine.roots, root < w.nextRoot

/-- Roots are held as they were as long as nothing happens to them. -/
theorem RootsHeld.of_same (h : w.RootsHeld) (hsame : w.SameRoots w') : w'.RootsHeld := by
  refine ⟨?_, ?_, ?_, ?_⟩
  · rw [hsame.roots, hsame.boxes, hsame.procRoots]
    exact h.perm
  · rw [hsame.roots]
    exact h.nodup
  · rw [hsame.procRoots, hsame.procs]
    exact h.procs
  · rw [hsame.roots, hsame.nextRoot]
    exact h.below

/-- A new root is registered nowhere yet. -/
theorem RootsHeld.nodup_cons (h : w.RootsHeld) : (w.nextRoot :: w.machine.roots).Nodup := by
  rw [List.nodup_cons]
  refine ⟨fun hmem => ?_, h.nodup⟩
  exact Nat.lt_irrefl _ (h.below _ hmem)

/-- A new root is above all that there were, and the next one will be above it. -/
theorem RootsHeld.below_cons (h : w.RootsHeld) :
    ∀ root ∈ w.nextRoot :: w.machine.roots, root < w.nextRoot + 1 := by
  intro root hmem
  rcases List.mem_cons.mp hmem with rfl | hold
  · exact Nat.lt_succ_self _
  · exact Nat.lt_succ_of_lt (h.below root hold)

/-- A new box has a root of its own. -/
theorem RootsHeld.boxed (h : w.RootsHeld) : w.boxed.RootsHeld :=
  ⟨h.perm.cons _, h.nodup_cons, h.procs, h.below_cons⟩

/-- A new proc has a root of its own. -/
theorem RootsHeld.addProc (h : w.RootsHeld) (body : Closure σ) : (w.addProc body).RootsHeld := by
  refine ⟨?_, h.nodup_cons, ?_, h.below_cons⟩
  · exact (h.perm.cons _).trans List.perm_middle.symm
  · have hsize : (w.procs.push body).size = w.procs.size + 1 := Array.size_push body
    show w.procRoots.length + 1 = (w.procs.push body).size
    rw [hsize, h.procs]

/-- A box that is dropped takes its root with it. -/
theorem RootsHeld.unboxed (h : w.RootsHeld) (hup : w.state = .up) {root : Nat}
    (hheld : root ∈ w.boxes) : (w.unboxed root).RootsHeld := by
  have hroots : (w.unboxed root).machine.roots = w.machine.roots.erase root := if_pos hup
  refine ⟨?_, ?_, h.procs, ?_⟩
  · rw [hroots]
    have hfirst := h.perm.erase root
    rwa [List.erase_append_left _ hheld] at hfirst
  · rw [hroots]
    exact h.nodup.erase root
  · rw [hroots]
    exact fun other hmem => h.below other (List.mem_of_mem_erase hmem)

/-! ### The roots in the states of a life -/

/-- Until the interpreter is taken down, the roots are those of boxes and procs, and before it is up
there are none. -/
structure RootsInOrder (w : World σ) : Prop where
  held : w.state ≠ .cleanedUp → w.RootsHeld
  none : w.state ≠ .up → w.state ≠ .cleanedUp → w.machine.roots = []

/-- Where no root is registered nobody holds one. -/
theorem RootsHeld.boxes_eq_nil (h : w.RootsHeld) (hnone : w.machine.roots = []) : w.boxes = [] := by
  have hperm := h.perm
  rw [hnone] at hperm
  exact (List.append_eq_nil_iff.mp hperm.symm.eq_nil).1

/-- Each change keeps the roots in order. -/
theorem Change.rootsInOrder (h : w.Change P w') (hw : w.RootsInOrder) : w'.RootsInOrder := by
  cases h.roots with
  | none hsame =>
      refine ⟨fun hnot => (hw.held (h.not_cleanedUp hnot)).of_same hsame, fun hup hnot => ?_⟩
      rw [hsame.roots]
      exact hw.none (h.not_up hup hnot) (h.not_cleanedUp hnot)
  | boxed hup heq =>
      subst heq
      have hheld := hw.held (by simp [hup])
      exact ⟨fun _ => hheld.boxed, fun hnot => absurd hup hnot⟩
  | addProc hup heq =>
      subst heq
      have hheld := hw.held (by simp [hup])
      exact ⟨fun _ => hheld.addProc _, fun hnot => absurd hup hnot⟩
  | @unboxed root hmem heq =>
      subst heq
      by_cases hup : w.state = .up
      · have hheld := hw.held (by simp [hup])
        exact ⟨fun _ => hheld.unboxed hup hmem, fun hnot => absurd hup hnot⟩
      · by_cases hdown : w.state = .cleanedUp
        · exact ⟨fun hnot => absurd hdown hnot, fun _ hnot => absurd hdown hnot⟩
        · -- Before the interpreter is up there is no box that could be dropped.
          rw [(hw.held hdown).boxes_eq_nil (hw.none hup hdown)] at hmem
          cases hmem
  | takenDown hup heq =>
      subst heq
      exact ⟨fun hnot => absurd rfl hnot, fun _ hnot => absurd rfl hnot⟩

/-- The roots are in order at every moment of a run. -/
theorem Reaches.rootsInOrder (h : w.Reaches P w') (hw : w.RootsInOrder) : w'.RootsInOrder :=
  h.kept (fun hchange => hchange.rootsInOrder) hw

/-- With an interpreter that is not up roots are neither registered nor given up. -/
theorem Change.roots_eq (h : w.Change P w') (hup : w.state ≠ .up) :
    w'.machine.roots = w.machine.roots := by
  cases h.roots with
  | none hsame => exact hsame.roots
  | unboxed _ heq =>
      subst heq
      exact if_neg hup
  | boxed hup' | addProc hup' | takenDown hup' => exact absurd hup' hup

/-- The roots that are left when the interpreter is taken down stay as they are. -/
theorem Reaches.roots_eq (h : w.Reaches P w') (hdown : w.state = .cleanedUp) :
    w'.machine.roots = w.machine.roots := by
  induction h with
  | refl => rfl
  | @tail u u' before last ih =>
      have hu : u.state = .cleanedUp := Reaches.cleanedUp_kept before hdown
      exact (last.roots_eq (by simp [hu])).trans ih

/-! ### The roots as the host sees them -/

/-- Nobody has registered a root or made anything that needs one. -/
structure Rootless (w : World σ) : Prop where
  roots : w.machine.roots = []
  boxes : w.boxes = []
  procRoots : w.procRoots = []
  procs : w.procs = #[]

/-- Where there are no roots they are in order. -/
theorem Rootless.rootsInOrder (h : w.Rootless) : w.RootsInOrder := by
  refine ⟨fun _ => ⟨?_, ?_, ?_, ?_⟩, fun _ _ => h.roots⟩
  · rw [h.roots, h.boxes, h.procRoots]
    exact .nil
  · rw [h.roots]
    exact .nil
  · rw [h.procRoots, h.procs]
    rfl
  · rw [h.roots]
    exact nofun

/-- Unless somebody else has brought it up, the interpreter is up in the end or this is refused; and
no root is touched. -/
theorem LifeCounted.ensureSetup_run (h : v.LifeCounted) :
    (v.state ≠ .cleanedUp ∧ ∃ v₁, v.SameRoots v₁ ∧
      (Vm.ensureSetup : Checked σ Unit).run v = .ok (.ok ()) v₁) ∨
    ∃ error v₁, v.SameRoots v₁ ∧ v₁.state ≠ .up ∧
      (Vm.ensureSetup : Checked σ Unit).run v = .ok (.error (.refused error)) v₁ := by
  have hopen := Vm.ensureSetup_run_apply v
  rw [Vm.setup_run_apply] at hopen
  cases hstate : v.state with
  | up =>
      rw [hstate] at hopen
      exact .inl ⟨by simp, v, ⟨rfl, rfl, rfl, rfl, rfl⟩, hopen⟩
  | failed error | cleanedUp =>
      rw [hstate] at hopen
      refine .inr ⟨_, v.recorded _, v.sameRoots_recorded _, ?_, hopen⟩
      show v.state ≠ .up
      simp [hstate]
  | unknown =>
      rw [hstate] at hopen
      simp only at hopen
      cases hstart : (Vm.start {}).run v with
      | error exit v₁ => cases (h.untouched hstate).symm.trans (Vm.start_error hstart).1
      | ok result v₁ =>
          rw [hstart] at hopen
          cases result with
          | ok _ => exact .inl ⟨by simp, _, sameRoots_of_start hstart .up, hopen⟩
          | error error =>
              have hfailed := sameRoots_of_start hstart (.failed error)
              refine .inr ⟨_, recorded _ _, hfailed.trans (sameRoots_recorded _ error), ?_, hopen⟩
              show VmState.failed error ≠ .up
              simp

/-- What is refused for want of an interpreter that is up touches no root. -/
theorem settled_of_ensureSetup_refused {α : Type} {r : Reentry σ} {v₁ : World σ} {error : Error}
    (hrefused : (Vm.ensureSetup : Checked σ Unit).run v = .ok (.error (.refused error)) v₁)
    (f : Unit → Checked σ α) :
    Vm.settled r (Vm.ensureSetup >>= f) v = .ok (.error error) v₁ := by
  rw [Vm.settled_bind_apply, hrefused]

/-- Pinning registers the next root, once the interpreter is up. -/
theorem pin_settled {r : Reentry σ} {v₁ : World σ}
    (hsetup : (Vm.ensureSetup : Checked σ Unit).run v = .ok (.ok ()) v₁) :
    Vm.settled r Vm.pin v = .ok (.ok v₁.nextRoot) v₁.boxed := by
  unfold Vm.pin
  rw [Vm.settled_bind_apply, hsetup]
  rfl

/-- Making a proc registers the next root, too, and gives the proc's handle. -/
theorem newProc_settled {r : Reentry σ} {v₁ : World σ}
    (hsetup : (Vm.ensureSetup : Checked σ Unit).run v = .ok (.ok ()) v₁) (body : Closure σ) :
    Vm.settled r (Vm.newProc body) v = .ok (.ok v₁.lastProc) (v₁.addProc body) := by
  rw [Vm.settled_apply, Vm.newProc_run hsetup]

/-- **Roots are registered for boxes and procs, and for nothing else.**  At every moment of every run
from a world in which nobody has touched the interpreter or registered a root:

* while the interpreter is up, the roots are those of the boxes that the host holds and those of the
  procs that it has made, each of them once, with one for each proc; so as many are counted;
* before it is up, or where it could not be brought up, there are none;
* only with an interpreter that is up roots are registered or given up, so those that are left when
  it is taken down stay as they are;
* to pin an object, which is also how a box is copied, gives a box with a root of its own where the
  interpreter is up, or else fails and registers nothing; and so it is with the proc of a closure;
* to drop a box takes the box away, and its root if the interpreter is up.

What a box holds is up to the host's memory, so to point it at another object changes none of this. -/
theorem Fresh.roots_held (fuel : Nat)
    (hfresh : w.Fresh)
    (hrootless : w.Rootless)
    (hreached : w.Reaches AnyProbe v) :
    let r : Reentry σ := .ofFuel fuel
    let pin : Value → Eval σ (Except Error Nat) := fun value => (Operation.pin value).answer r
    let unpin : Nat → Eval σ Unit := fun root => (Operation.unpin root).answer r
    let newProc : Closure σ → Eval σ (Except Error Value) := fun body =>
      (Request.newProc body).answer r
    (v.state = .up →
      v.machine.roots.Perm (v.boxes ++ v.procRoots) ∧ v.machine.roots.Nodup ∧
      v.procRoots.length = v.procs.size ∧ v.counts.pinned = v.boxes.length + v.procs.size) ∧
    (v.state ≠ .up → v.state ≠ .cleanedUp → v.machine.roots = []) ∧
    (∀ v', v.Change AnyProbe v' → v.state ≠ .up → v'.machine.roots = v.machine.roots) ∧
    (v.state = .cleanedUp → ∀ u, v.Reaches AnyProbe u → u.machine.roots = v.machine.roots) ∧
    (∀ value, ∃ answer v', pin value v = .ok answer v' ∧
      match answer with
      | .ok root => v'.state = .up ∧ root ∉ v.machine.roots ∧
          v'.machine.roots = root :: v.machine.roots ∧ v'.boxes = root :: v.boxes
      | .error _ => v'.state ≠ .up ∧ v'.machine.roots = v.machine.roots ∧ v'.boxes = v.boxes) ∧
    (∀ body, ∃ answer v', newProc body v = .ok answer v' ∧
      match answer with
      | .ok _ => v'.state = .up ∧ ∃ root ∉ v.machine.roots,
          v'.machine.roots = root :: v.machine.roots ∧ v'.procRoots = root :: v.procRoots ∧
          v'.procs = v.procs.push body
      | .error _ => v'.state ≠ .up ∧ v'.machine.roots = v.machine.roots ∧ v'.procs = v.procs) ∧
    ∀ root, ∃ v', unpin root v = .ok () v' ∧ v'.boxes = v.boxes.erase root ∧
      v'.machine.roots =
        if root ∈ v.boxes ∧ v.state = .up then v.machine.roots.erase root
        else v.machine.roots := by
  intro r pin unpin newProc
  have horder : v.RootsInOrder := hreached.rootsInOrder hrootless.rootsInOrder
  have hcounted : v.LifeCounted := hreached.lifeCounted hfresh.lifeCounted
  have hnew : v.state ≠ .cleanedUp → v.nextRoot ∉ v.machine.roots := fun hnot hmem =>
    Nat.lt_irrefl _ ((horder.held hnot).below _ hmem)
  refine ⟨fun hup => ?_, horder.none, fun v' h => h.roots_eq, fun hdown u hu => hu.roots_eq hdown,
    fun value => ?_, fun body => ?_, fun root => ?_⟩
  · have hheld := horder.held (by simp [hup])
    refine ⟨hheld.perm, hheld.nodup, hheld.procs, ?_⟩
    show v.machine.roots.length = v.boxes.length + v.procs.size
    rw [hheld.perm.length_eq, List.length_append, hheld.procs]
  · rcases hcounted.ensureSetup_run with
      ⟨hnot, v₁, hsame, hsetup⟩ | ⟨error, v₁, hsame, hup, hrefused⟩
    · have hup : v₁.state = .up := Vm.state_of_ensureSetup hsetup
      refine ⟨_, _, pin_settled hsetup, hup, ?_, ?_, ?_⟩
      · rw [hsame.nextRoot]
        exact hnew hnot
      · rw [← hsame.roots]
        rfl
      · rw [← hsame.boxes]
        rfl
    · exact ⟨_, _, settled_of_ensureSetup_refused hrefused _, hup, hsame.roots, hsame.boxes⟩
  · rcases hcounted.ensureSetup_run with
      ⟨hnot, v₁, hsame, hsetup⟩ | ⟨error, v₁, hsame, hup, hrefused⟩
    · have hup : v₁.state = .up := Vm.state_of_ensureSetup hsetup
      refine ⟨_, _, newProc_settled hsetup body, hup, v₁.nextRoot, ?_, ?_, ?_, ?_⟩
      · rw [hsame.nextRoot]
        exact hnew hnot
      · rw [← hsame.roots]
        rfl
      · rw [← hsame.procRoots]
        rfl
      · rw [← hsame.procs]
        rfl
    · exact ⟨_, _, settled_of_ensureSetup_refused hrefused _, hup, hsame.roots, hsame.procs⟩
  · refine ⟨_, Vm.unpin_apply root v, ?_⟩
    by_cases hheld : root ∈ v.boxes
    · simp [hheld, unboxed]
    · simp [hheld, List.erase_of_not_mem hheld]

/-- A program that pins an object, and another one inside a proc, and then drops the first box. -/
def pinning : Program Unit .main :=
  .ask (.pin Value.nil) fun
    | .ok (.ok root) =>
      .newProc (fun _ => .ask (.pin Value.nil) fun _ => .done (.value Value.nil : BlockReturn)) fun
        | .ok (.ok proc) =>
          .ask (.callProc proc [] none) fun _ => .ask (.unpin root) fun _ => .done ()
        | _ => .done ()
    | _ => .done ()

/-- The roots that are left are those of the proc and of the box that was made in it. -/
theorem roots_held_pinning :
    let v := Outcome.world (pinning.run (.ofFuel 2) willing)
    willing.Fresh ∧ willing.Rootless ∧ willing.Reaches AnyProbe v ∧ v.state = .up ∧
      v.boxes = [2] ∧ v.procRoots = [1] ∧ v.machine.roots.Perm [2, 1] ∧ v.counts.pinned = 2 := by
  intro v
  have hfresh : willing.Fresh := ⟨rfl, rfl, rfl, rfl⟩
  have hrootless : willing.Rootless := ⟨rfl, rfl, rfl, rfl⟩
  have hreached : willing.Reaches AnyProbe v := pinning.reaches_run 2 willing
  have hup : v.state = .up := by decide +kernel
  have hboxes : v.boxes = [2] := by decide +kernel
  have hprocRoots : v.procRoots = [1] := by decide +kernel
  obtain ⟨hroots, -⟩ := Fresh.roots_held 2 hfresh hrootless hreached
  obtain ⟨hperm, -, hprocs, hcount⟩ := hroots hup
  rw [hboxes, hprocRoots] at hperm
  rw [hprocRoots] at hprocs
  rw [hboxes, ← hprocs] at hcount
  exact ⟨hfresh, hrootless, hreached, hup, hboxes, hprocRoots, hperm, hcount⟩

end World

end EmbeddedRuby
