import EmbeddedRuby.Proofs.AbandonedScripts

/-!
# The stacks behind a barrier

Scripts and blocks put entries on the two stacks of the interpreter and take them away again when
they come to an end; when a jump leaves them they do not.  The barrier makes up for that: it cuts both
stacks back to the depths that they had when it was put up.  It does so for jumps alone.

So after a barrier the stack of blocks is always as it was, and so is the stack of script bodies if a
jump was stopped.  If the job has given a value there is one way in which frames are left over: a
script was left by a panic in the job, which the host's code caught, and nobody has stopped a jump
around it since (`World.Abandons`).

A panic goes through the barrier, which then does nothing at all.  The stack of blocks is as it was all
the same; the frames of a script that is abandoned by the panic stay.

The main statements are `Vm.Job.stacks_after_barrier` and `Vm.Job.stacks_after_panic`.
-/

namespace EmbeddedRuby

open Eval

variable {σ : Type} {P : Probe → Prop}

/-! ### Jobs -/

/-- Whatever a run was left by, the stacks can be cut back to what they were. -/
theorem Eval.FollowsAt.sameStacks_restored {α : Type} {x : Eval σ α} {w w' : World σ} {exit : Exit}
    (h : FollowsAt P x w) (hleft : x w = .error exit w') :
    w.machine.SameStacks (w'.restored w).machine := by
  have hcourse := h.of_run hleft
  exact ⟨truncate_of_suffix hcourse.frames_suffix, truncate_of_suffix hcourse.yields_suffix⟩

namespace Vm

variable {α : Type} {r : Reentry σ}

/-- What the host runs behind a barrier: the tasks, and a call with a body of its own. -/
inductive Job (P : Probe → Prop) (r : Reentry σ) : {α : Type} → Eval σ α → Prop
  | task (task : Task) : Job P r (perform r task)
  | callWithClosure (receiver : Value) (method : SymbolId) (args : List Value) {body : Closure σ}
      (hbody : Closure.Uses P body) : Job P r (callWithClosure r receiver method args body)

/-- A barrier lets panics through, and nothing else makes a panic come out of it. -/
theorem protect_eq_panic {job : Eval σ α} {p : Panic} {w w' : World σ}
    (h : protect job w = .error (.panic p) w') : job w = .error (.panic p) w' := by
  rw [protect_apply] at h
  cases hrun : job w with
  | ok a w₁ =>
      rw [hrun] at h
      cases h
  | error exit w₁ =>
      rw [hrun] at h
      cases exit with
      | panic q =>
          cases h
          rfl
      | jump jump => cases h
      | exhausted => cases h

/-- Each job follows a course. -/
theorem Job.follows (hr : r.Follows P) {job : Eval σ α} (h : Job P r job) : Follows P job := by
  cases h with
  | task task => exact follows_perform hr task
  | callWithClosure receiver method args hbody =>
      exact follows_callWithClosure hr receiver method args hbody

/-- Each job leaves frames over by scripts that were abandoned only. -/
theorem Job.leaves {fuel : Nat} {job : Eval σ α} (h : Job P (.ofFuel fuel) job) :
    ToldBy (World.leavingAccount P) job := by
  have hr := Reentry.leaves_ofFuel (σ := σ) P fuel
  cases h with
  | task task => exact perform_leaves hr task
  | callWithClosure receiver method args hbody =>
      exact World.leaving_blockRules.callWithClosure hr receiver method args hbody

/-- **The stacks after a barrier.**  However a job has ended that was run behind a barrier, in value
or by a jump:

* the same blocks are running as before, with the same targets;
* the frames of script bodies that were there before are there still;
* if a jump was stopped, there are no others;
* and there are others only if a script was abandoned in the job, and then the oldest of them is the
  frame of a script. -/
theorem Job.stacks_after_barrier {fuel : Nat} {job : Eval σ α} {result : Except Jump α}
    {w w' : World σ} (hjob : Job P (.ofFuel fuel) job) (hw : w.HostCode P)
    (hrun : protect job w = .ok result w') :
    w'.machine.yields = w.machine.yields ∧
    w.machine.frames <:+ w'.machine.frames ∧
    (∀ jump, result = .error jump → w'.machine.frames = w.machine.frames) ∧
    (w'.machine.frames = w.machine.frames ∨ w.Abandons P w') := by
  have hfollows := hjob.follows (Reentry.follows_ofFuel P fuel) w hw
  rw [protect_apply] at hrun
  cases hopen : job w with
  | ok a w₁ =>
      rw [hopen] at hrun
      cases hrun
      have hleaving := ((hjob.leaves w).of_run hopen) hw
      refine ⟨hleaving.course.yields_eq trivial, hleaving.course.frames_suffix, ?_,
        hleaving.leaves trivial⟩
      rintro jump hjump
      cases hjump
  | error exit w₁ =>
      rw [hopen] at hrun
      cases exit with
      | panic p => cases hrun
      | exhausted => cases hrun
      | jump jump =>
          cases hrun
          obtain ⟨hframes, hyields⟩ := hfollows.sameStacks_restored hopen
          exact ⟨hyields, hframes ▸ List.suffix_refl _, fun _ _ => hframes, .inl hframes⟩

/-- A body that has a script run and goes on, whatever becomes of it. -/
def loadAnyway : Closure Unit :=
  fun _ => .ask (.load "t.rb".toUTF8.toList false) fun _ => .done (.value Value.nil : BlockReturn)

/-- A world with a proc of that body, and with a script that calls a method with a bug. -/
def faulty : World Unit :=
  { World.bare.addProc loadAnyway with
    machine := { (World.bare.addProc loadAnyway).machine with
      files := { nodes := [(["work", "t.rb"], .file "p".toUTF8.toList)] }
      methods := ⟨[((CoreClass.object.value, ⟨1⟩), .routine fun _ => .panic "bug")]⟩ }
    procCallback := some .closures }

/-- The one proc of that world goes by operations. -/
theorem hostCode_faulty : faulty.HostCode NoProbes := by
  have hbody : Closure.Uses NoProbes loadAnyway := fun _ _ => trivial
  have hadded : (World.bare.addProc loadAnyway).HostCode NoProbes := World.hostCode_bare.addProc hbody
  refine ⟨hadded.procs, fun kind run hrun => ?_⟩
  cases kind <;> cases hrun

/-- The proc gives a value and leaves the frame of the script that has panicked in it. -/
theorem stacks_after_barrier_faulty :
    let proc := (World.bare.machine.alloc CoreClass.procClass.value (.proc 0)).1
    ∃ v w', protect (perform (.ofFuel 4) (.callProc proc [] Value.nil)) faulty = .ok (.ok v) w' ∧
      w'.machine.yields = faulty.machine.yields ∧ faulty.machine.frames = [] ∧
      w'.machine.frames.map Frame.render = ["t.rb:1:in '<top (required)>'"] ∧
      faulty.Abandons NoProbes w' := by
  intro proc
  have hanswer : (match protect (perform (.ofFuel 4) (.callProc proc [] Value.nil)) faulty with
      | .ok (.ok _) w' => w'.machine.frames.map Frame.render
      | _ => []) = ["t.rb:1:in '<top (required)>'"] := by
    decide +kernel
  have hjob : Job NoProbes (.ofFuel 4 : Reentry Unit)
      (perform (.ofFuel 4) (.callProc proc [] Value.nil)) := .task (.callProc proc [] Value.nil)
  match hrun : protect (perform (.ofFuel 4) (.callProc proc [] Value.nil)) faulty with
  | .ok (.ok v) w' =>
      rw [hrun] at hanswer
      obtain ⟨hyields, -, -, hframes⟩ := Job.stacks_after_barrier hjob hostCode_faulty hrun
      refine ⟨v, w', rfl, hyields, rfl, hanswer, hframes.resolve_left fun hsame => ?_⟩
      simp only [hsame] at hanswer
      cases hanswer
  | .ok (.error jump) w' | .error exit w' =>
      rw [hrun] at hanswer
      cases hanswer

/-- **The stacks after a panic.**  A barrier does nothing for a panic that goes through it.  Whatever
job was left by it:

* the same blocks are running as before, with the same targets, since no panic leaves a block;
* the frames of script bodies that were there before are there still;
* there are others only if a script was abandoned in the job, and then the oldest of them is the
  frame of a script.

A job that runs a script and is left by a panic always abandons it, so that others are there. -/
theorem Job.stacks_after_panic (fuel : Nat) {w : World σ} (hw : w.HostCode P) :
    (∀ {α : Type} {job : Eval σ α} {p : Panic} {w' : World σ}, Job P (.ofFuel fuel) job →
      protect job w = .error (.panic p) w' →
        w'.machine.yields = w.machine.yields ∧
        w.machine.frames <:+ w'.machine.frames ∧
        (w'.machine.frames = w.machine.frames ∨ w.Abandons P w')) ∧
    (∀ (path : Value) (wrap : Bool) (p : Panic) (w' : World σ),
      protect (perform (.ofFuel fuel) (.load path wrap)) w = .error (.panic p) w' →
        w.Abandons P w' ∧ w'.machine.frames ≠ w.machine.frames) := by
  constructor
  · intro α job p w' hjob hrun
    have hopen : job w = .error (.panic p) w' := protect_eq_panic hrun
    have hleaving := ((hjob.leaves w).of_run hopen) hw
    exact ⟨hleaving.course.yields_eq trivial, hleaving.course.frames_suffix,
      hleaving.leaves trivial⟩
  · intro path wrap p w' hrun
    have hload : Loader.loadObject (.ofFuel fuel) path wrap w = .error (.panic p) w' := by
      rcases bind_error_iff.mp (protect_eq_panic hrun) with hload | ⟨_, _, -, hvalue⟩
      · exact hload
      · cases hvalue
    have hleft := Loader.leftOver_of_loadObject (Reentry.follows_ofFuel P fuel) hw hload
    exact ⟨⟨⟨w, fuel, path, wrap, p, w', .refl, hload, .refl⟩, hleft⟩, hleft.ne⟩

/-- The panic that a run was left by, and the world at that moment. -/
def panic? {α : Type} : Outcome σ α → Option (Panic × World σ)
  | .error (.panic p) w => some (p, w)
  | .error (.jump _) _ | .error .exhausted _ | .ok _ _ => none

/-- What is found as a panic is what the run has ended with. -/
theorem panic?_eq_some {α : Type} {outcome : Outcome σ α} {found : Panic × World σ}
    (hfound : panic? outcome = some found) : outcome = .error (.panic found.1) found.2 := by
  cases outcome with
  | ok => cases hfound
  | error exit w =>
      cases exit with
      | panic p =>
          cases hfound
          rfl
      | jump | exhausted => cases hfound

/-- The same world with the path of the script as a string. -/
def faultyPath : World Unit :=
  { faulty with machine := (faulty.machine.newString "t.rb".toUTF8.toList).2 }

/-- The script with the bug is abandoned, and its frame is left over. -/
theorem stacks_after_panic_faulty :
    let path := (faulty.machine.newString "t.rb".toUTF8.toList).1
    ∃ w', protect (perform (.ofFuel 3) (.load path false)) faultyPath = .error (.panic ⟨"bug"⟩) w' ∧
      w'.machine.yields = faultyPath.machine.yields ∧ faultyPath.machine.frames = [] ∧
      faultyPath.Abandons NoProbes w' ∧
      w'.machine.frames.map Frame.render = ["t.rb:1:in '<top (required)>'"] := by
  intro path
  have hcode : faultyPath.HostCode NoProbes := hostCode_faulty.of_eq rfl rfl rfl
  have hanswer : (panic? (protect (perform (.ofFuel 3) (.load path false)) faultyPath)).map
      (fun found => (found.1, found.2.machine.frames.map Frame.render)) =
        some (⟨"bug"⟩, ["t.rb:1:in '<top (required)>'"]) := by
    decide +kernel
  obtain ⟨hjobs, hloads⟩ := Job.stacks_after_panic 3 hcode
  obtain ⟨⟨p, w'⟩, hfound, hshown⟩ := Option.map_eq_some_iff.mp hanswer
  obtain ⟨rfl, hframes⟩ := Prod.mk.inj hshown
  have hrun := panic?_eq_some hfound
  obtain ⟨hyields, -, -⟩ := hjobs (.task (.load path false)) hrun
  exact ⟨w', hrun, hyields, rfl, (hloads path false _ w' hrun).1, hframes⟩

end Vm

end EmbeddedRuby
