import EmbeddedRuby.Proofs.Changes

/-!
# Scripts that are left by a panic

A script takes its frames away when it comes to its end.  A panic leaves the script before that, and
neither a barrier nor the host's code that catches the panic takes the frames away: the script is
**abandoned** (`World.Abandons`), and the oldest of the frames that it leaves over is the one of its
top level (`Loader.leftOver_of_loadObject`).

Nothing else leaves frames over in a run that ends with a value or a panic.  This is an account of runs
(`World.leavingAccount`): what is told of each of them is that the stack of script bodies is as it was,
or that a script was abandoned.

The main statements are `perform_leaves` and `Reentry.leaves_ofFuel`.
-/

namespace EmbeddedRuby

open Eval

variable {σ : Type} {P : Probe → Prop}

/-! ### The frame of a script -/

/-- Frames are left over above those that were there before, and the oldest of them is that of a
script. -/
def LeftOver (before after : List Frame) : Prop :=
  ∃ above file line, after = above ++ ⟨file, line, Loader.topLabel⟩ :: before

/-- Frames that are left over twice are left over, and the oldest is that of the first script. -/
theorem LeftOver.trans {before between after : List Frame} (h₁ : LeftOver before between)
    (h₂ : LeftOver between after) : LeftOver before after := by
  obtain ⟨above, file, line, rfl⟩ := h₁
  obtain ⟨above', file', line', rfl⟩ := h₂
  exact ⟨above' ++ ⟨file', line', Loader.topLabel⟩ :: above, file, line, by simp⟩

/-- A body that is opened above them leaves them where they are. -/
theorem LeftOver.cons {before after : List Frame} (h : LeftOver before after) (frame : Frame) :
    LeftOver before (frame :: after) := by
  obtain ⟨above, file, line, rfl⟩ := h
  exact ⟨frame :: above, file, line, rfl⟩

/-- Frames that are left over make another stack. -/
theorem LeftOver.ne {before after : List Frame} (h : LeftOver before after) : after ≠ before := by
  obtain ⟨above, file, line, rfl⟩ := h
  intro heq
  have hlength := congrArg List.length heq
  simp only [List.length_append, List.length_cons] at hlength
  omega

/-- Going on to another line leaves the oldest frame of a script in its place. -/
theorem LeftOver.setLine {below : List Frame} {m : Machine} (h : LeftOver below m.frames)
    (line : Nat) : LeftOver below (m.setLine line).frames := by
  obtain ⟨above, file, old, hframes⟩ := h
  cases above with
  | nil =>
      refine ⟨[], file, line, ?_⟩
      unfold Machine.setLine
      rw [hframes]
      rfl
  | cons frame rest =>
      refine ⟨{ frame with line } :: rest, file, old, ?_⟩
      unfold Machine.setLine
      rw [hframes]
      rfl

/-- Leaving a body that was opened in the script leaves the oldest frame of the script in its place.
-/
theorem LeftOver.truncate {below frames : List Frame} (h : LeftOver below frames) {depth : Nat}
    (hdepth : below.length < depth) : LeftOver below (truncate depth frames) := by
  obtain ⟨above, file, line, rfl⟩ := h
  refine ⟨EmbeddedRuby.truncate (depth - (below.length + 1)) above, file, line, ?_⟩
  have hlength : (above ++ (⟨file, line, Loader.topLabel⟩ :: below : List Frame)).length - depth =
      above.length - (depth - (below.length + 1)) := by
    simp only [List.length_append, List.length_cons]
    omega
  unfold EmbeddedRuby.truncate
  rw [hlength, List.drop_append_of_le_length (by omega)]

/-- While a script is being run, its oldest frame is there. -/
theorem Course.leftOver {base : Nat} {w w' : World σ} {ending : Ending} {below : List Frame}
    (h : Course P (some base) w ending w') (hbase : below.length = base)
    (hw : LeftOver below w.machine.frames) : LeftOver below w'.machine.frames := by
  generalize hscript : some base = script at h
  induction h with
  | seq first rest ih₁ ih₂ => exact ih₂ (ih₁ hw hscript) hscript
  | ordinary inner =>
      obtain ⟨above, file, line, hframes⟩ := hw
      obtain ⟨top, htop⟩ := inner.frames_suffix
      exact ⟨top ++ above, file, line, by rw [← htop, hframes, List.append_assoc]⟩
  | setLine w line => exact hw.setLine line
  | openBody w file label line =>
      obtain ⟨above, top, old, hframes⟩ := hw
      exact ⟨⟨file, line, label⟩ :: above, top, old, congrArg _ hframes⟩
  | closeBody w hdepth =>
      cases hscript
      exact hw.truncate (hbase ▸ hdepth)
  | _ => cases hscript

namespace Loader

variable {r : Reentry σ}

/-- A script that is left by a panic leaves its frames over. -/
theorem leftOver_of_loadObject (hr : r.Follows P) {path : Value} {wrap : Bool} {w w' : World σ}
    {p : Panic} (hw : w.HostCode P) (h : loadObject r path wrap w = .error (.panic p) w') :
    LeftOver w.machine.frames w'.machine.frames := by
  rcases loadObject_cases r path wrap w with
    ⟨fault, hrefused⟩ | ⟨file, top, statements, m, hmade, hread, hran⟩
  · cases hrefused.symm.trans h
  · rw [hran] at h
    unfold runScript at h
    rw [machine_bind_apply, changeMachine_bind_apply] at h
    let w₁ : World σ := { w with machine := m }
    have hopened : w₁.HostCode P := hw.of_eq rfl rfl rfl
    have hentered : LeftOver w₁.machine.frames
        (w₁.onMachine fun m => m.pushFrame file topLabel 0).machine.frames := ⟨[], file, 0, rfl⟩
    have hsame : w₁.machine.frames = w.machine.frames := hmade.steps.sameStacks.frames
    rcases bind_error_iff.mp h with hrun | ⟨b, w₂, -, hleft⟩
    · have hinner := scriptAt_statements hr file top hread hopened
      unfold ScriptAt at hinner
      rw [hrun] at hinner
      exact hsame ▸ hinner.leftOver rfl hentered
    · cases hleft

end Loader

/-! ### Runs that leave frames over -/

namespace World

variable {w w₁ w₂ w' : World σ}

/-- Between these moments of a run a script was left by a panic. -/
abbrev AbandonsScript (P : Probe → Prop) (w w' : World σ) : Prop :=
  ∃ u fuel path wrap p u', w.Reaches P u ∧
    Loader.loadObject (.ofFuel fuel) path wrap u = .error (.panic p) u' ∧ u'.Reaches P w'

/-- A script that was abandoned in a part of a run was abandoned in the run. -/
theorem AbandonsScript.widen (h : w₁.AbandonsScript P w₂) (hbefore : w.Reaches P w₁)
    (hafter : w₂.Reaches P w') : w.AbandonsScript P w' := by
  obtain ⟨u, fuel, path, wrap, p, u', hu, hpanic, hu'⟩ := h
  exact ⟨u, fuel, path, wrap, p, u', hbefore.trans hu, hpanic, hu'.trans hafter⟩

/-- Between these moments of a run a script was left by a panic, and frames are left over, the
oldest of them that of a script. -/
structure Abandons (P : Probe → Prop) (w w' : World σ) : Prop where
  script : w.AbandonsScript P w'
  frames : LeftOver w.machine.frames w'.machine.frames

/-- A script that was abandoned in a part of a run leaves its frames over in the run, if they are
above those that there were. -/
theorem Abandons.widen (h : w₁.Abandons P w₂) (hbefore : w.Reaches P w₁) (hafter : w₂.Reaches P w')
    (hframes : LeftOver w.machine.frames w'.machine.frames) : w.Abandons P w' :=
  ⟨h.script.widen hbefore hafter, hframes⟩

/-- Either the stack of script bodies is as it was, or a script was abandoned. -/
def LeavesFrames (P : Probe → Prop) (w w' : World σ) : Prop :=
  w'.machine.frames = w.machine.frames ∨ w.Abandons P w'

/-- Frames are left by scripts that were abandoned, in the one part of a run or in the other. -/
theorem LeavesFrames.trans (h₁ : w.LeavesFrames P w₁) (h₂ : w₁.LeavesFrames P w₂)
    (hfirst : w.Reaches P w₁) (hsecond : w₁.Reaches P w₂) : w.LeavesFrames P w₂ := by
  rcases h₁ with hsame₁ | hleft₁
  · rcases h₂ with hsame₂ | hleft₂
    · exact .inl (hsame₂.trans hsame₁)
    · exact .inr (hleft₂.widen hfirst .refl (hsame₁ ▸ hleft₂.frames))
  · refine .inr (hleft₁.widen .refl hsecond ?_)
    rcases h₂ with hsame₂ | hleft₂
    · exact hsame₂ ▸ hleft₁.frames
    · exact hleft₁.frames.trans hleft₂.frames

/-- The exception by which the run was left has come out of a script that was run in it, above the
frames that there were. -/
def ThrownInScript (P : Probe → Prop) (w : World σ) (exception : Value) (w' : World σ) : Prop :=
  ∃ u fuel path wrap, w.Reaches P u ∧ w.machine.frames <:+ u.machine.frames ∧
    Loader.loadObject (.ofFuel fuel) path wrap u = .error (.jump (.raised exception)) w'

/-- An exception that came out of a script in a part of a run came out of it in the run. -/
theorem ThrownInScript.after {exception : Value} (h : w₁.ThrownInScript P exception w')
    (hbefore : w.Reaches P w₁) (hframes : w.machine.frames <:+ w₁.machine.frames) :
    w.ThrownInScript P exception w' := by
  obtain ⟨u, fuel, path, wrap, hu, habove, hthrown⟩ := h
  exact ⟨u, fuel, path, wrap, hbefore.trans hu, hframes.trans habove, hthrown⟩

/-- What is told of a run: it follows a course, and if it ends with a value or a panic, only scripts
that were abandoned in it have left frames over.  If it is left by an exception, that has come out of
a script perhaps, whose frames are there still. -/
structure Leaving (P : Probe → Prop) (w : World σ) (ending : Ending) (w' : World σ) : Prop where
  course : Course P none w ending w'
  leaves : ending.EndsBlocks → w.LeavesFrames P w'
  raised : ∀ exception, ending = .raised exception →
    w.LeavesFrames P w' ∨ w.ThrownInScript P exception w'

/-- The account of what runs leave over, from worlds that hold no code beyond what `P` allows. -/
def leavingAccount (P : Probe → Prop) : Account σ :=
  fun w ending w' => w.HostCode P → w.Leaving P ending w'

/-- Where no script is run, nothing is left over. -/
theorem Leaving.of_same {ending : Ending} (hcourse : Course P none w ending w')
    (hframes : w'.machine.frames = w.machine.frames) : w.Leaving P ending w' :=
  ⟨hcourse, fun _ => .inl hframes, fun _ _ => .inl (.inl hframes)⟩

/-- Where a stack is cut back to its depth, nothing is left over. -/
theorem Leaving.cutBack {ending ending' : Ending} (h : w.Leaving P ending w₁)
    (hcourse : Course P none w ending' w')
    (hframes : w'.machine.frames = truncate w.machine.frames.length w₁.machine.frames) :
    w.Leaving P ending' w' :=
  .of_same hcourse (hframes.trans (truncate_of_suffix h.course.frames_suffix))

/-- What the interpreter does by itself leaves no frames over. -/
theorem leaving_rules : (leavingAccount P : Account σ).Rules where
  done w _ := .of_same (.done w) rfl
  seq {w w₁ w₂ ending} hfirst hrest hw := by
    have hkept := hfirst hw
    have hlater := hrest (hkept.course.hostCode hw)
    have hboth : w₁.LeavesFrames P w₂ → w.LeavesFrames P w₂ := fun hleft =>
      (hkept.leaves trivial).trans hleft hkept.course.reaches hlater.course.reaches
    refine ⟨.seq hkept.course hlater.course, fun hends => hboth (hlater.leaves hends), ?_⟩
    intro exception hraised
    rcases hlater.raised exception hraised with hleft | hthrown
    · exact .inl (hboth hleft)
    · exact .inr (hthrown.after hkept.course.reaches hkept.course.frames_suffix)
  works w _ h _ := .of_same (.of_steps h.steps w rfl) h.steps.sameStacks.frames
  raise w fault _ := .of_same (.raise w fault) (w.machine.newException_sameStacks fault).frames
  raiseObject w exception hexception _ :=
    .of_same (.raiseObject hexception) (w.machine.fillBacktrace_sameStacks exception).frames
  breakOut w value _ := .of_same (.breakOut w value) rfl
  crash w p _ := .of_same (.crash w p) rfl
  exhausted w _ := .of_same (.exhausted w) rfl
  iterate hinner hw := (hinner hw).cutBack (.iterate (hinner hw).course) rfl

/-- Entering a block brings in no code, and leaves the stack of script bodies alone. -/
theorem leavingAccount_enterBlock {target : Option Nat} {ending : Ending}
    (hinner : leavingAccount P (w.enterBlock target) ending w₁) (hw : w.HostCode P) :
    (w.enterBlock target).Leaving P ending w₁ :=
  hinner (hw.of_eq rfl rfl rfl)

/-- Blocks leave no frames over, apart from what runs in them. -/
theorem leaving_blockRules : (leavingAccount P : Account σ).BlockRules where
  toRules := leaving_rules
  block {w w₁ target} hinner hw := by
    have hkept := leavingAccount_enterBlock hinner hw
    have hentered : w.Reaches P (w.enterBlock target) := (Change.restack w _ _).reaches
    have hleft : w₁.Reaches P (w₁.leaveBlock w) := (Change.restack w₁ _ _).reaches
    refine ⟨.block hkept.course, fun _ => ?_, nofun⟩
    rcases hkept.leaves trivial with hsame | habandoned
    · exact .inl hsame
    · exact .inr (habandoned.widen hentered hleft habandoned.frames)
  blockLeft {w w₁ target exit} hinner hexit hw := by
    have hkept := leavingAccount_enterBlock hinner hw
    have hentered : w.Reaches P (w.enterBlock target) := (Change.restack w _ _).reaches
    refine ⟨.blockLeft hkept.course hexit, fun hends => ?_, fun exception hraised => ?_⟩
    · cases exit with
      | panic p => exact absurd rfl (hexit p)
      | jump jump => exact hends.elim
      | exhausted => exact hends.elim
    · rcases hkept.raised exception hraised with (hsame | habandoned) | hthrown
      · exact .inl (.inl hsame)
      · exact .inl (.inr (habandoned.widen hentered .refl habandoned.frames))
      · exact .inr (hthrown.after hentered (List.suffix_refl _))
  callback {w w₁ p} hinner hw := by
    have hkept := hinner hw
    have hframes : ((w₁.park p).raising .callbackPanicked).machine.frames = w₁.machine.frames :=
      (w₁.machine.newException_sameStacks .callbackPanicked).frames
    have hraised : w₁.Reaches P ((w₁.park p).raising .callbackPanicked) :=
      .tail (.single (.park w₁ p)) (.raising _ _)
    exact ⟨.callback hkept.course, False.elim, fun _ _ =>
      .inl ((hkept.leaves trivial).trans (.inl hframes) hkept.course.reaches hraised)⟩

/-- Operations leave no frames over, apart from their tasks. -/
theorem leaving_operationRules :
    (leavingAccount P : Account σ).OperationRules (Closure.Uses P) where
  toBlockRules := leaving_blockRules
  setup hunknown hstart _ := by
    have hstep := Step.setup hunknown hstart
    exact .of_same (.step hstep) hstep.sameStacks.frames
  learn hnew hasked _ _ := by
    have hstep := Step.learn _ hnew hasked
    exact .of_same (.step hstep) hstep.sameStacks.frames
  boxed hup _ := .of_same (.step (.boxed hup)) rfl
  addProc hup hbody _ := .of_same (.addProc hup hbody) rfl
  settled hinner hparked hw := (hinner hw).cutBack (.settled (hinner hw).course hparked) rfl
  resumed hinner hparked hw := (hinner hw).cutBack (.resumed (hinner hw).course hparked) rfl
  quiet hinner hw :=
    (hinner hw).cutBack (.quiet (hinner hw).course) (congrArg Machine.frames (overlook_machine _))

/-- Programs leave no frames over, apart from what they ask for. -/
theorem leaving_programRules : (leavingAccount P : Account σ).ProgramRules P where
  toOperationRules := leaving_operationRules
  record w error _ := .of_same (.step (.record w error)) rfl
  clearErrors w _ := .of_same (.step (.clearErrors w)) rfl
  remember w memory _ := .of_same (.step (.remember w memory)) rfl
  unboxed w _ hheld _ := .of_same (.step (.unboxed w hheld)) rfl
  cleanUp hup _ := .of_same (.step (.cleanUp _ hup)) rfl
  register {w kind run} hempty hrun _ :=
    .of_same (.register hempty hrun)
      (congrArg Machine.frames (w.setCallback_machine kind (.custom run)))
  caught hinner hw := ⟨.caught (hinner hw).course, fun _ => (hinner hw).leaves trivial, nofun⟩
  probe hprobe h _ := .of_same (.probe hprobe h) h.sameStacks.frames
  counted _ w _ := .of_same (.step (.machine w (.countIntern w.machine))) rfl
  attempted hprobe hinner hw := (hinner hw).cutBack (.attempt hprobe (hinner hw).course) rfl

end World

/-- A script that has come to its end leaves nothing over, one that is left by a panic is abandoned,
and an exception by which one is left has come out of it. -/
theorem Loader.loadObject_leaves (fuel : Nat) (path : Value) (wrap : Bool) :
    ToldBy (World.leavingAccount P) (loadObject (.ofFuel fuel : Reentry σ) path wrap) := by
  intro w hw
  have hr := Reentry.follows_ofFuel (σ := σ) P fuel
  refine ⟨follows_loadObject hr path wrap w hw, fun hends => ?_, fun exception hraised => ?_⟩
  · cases hrun : loadObject (.ofFuel fuel) path wrap w with
    | ok result w' => exact .inl (frames_of_loadObject hr hw hrun)
    | error exit w' =>
        rw [hrun] at hends
        cases exit with
        | panic p =>
            exact .inr ⟨⟨w, fuel, path, wrap, p, w', .refl, hrun, .refl⟩,
              leftOver_of_loadObject hr hw hrun⟩
        | jump jump => exact hends.elim
        | exhausted => exact hends.elim
  · cases hrun : loadObject (.ofFuel fuel) path wrap w with
    | ok result w' =>
        rw [hrun] at hraised
        cases hraised
    | error exit w' =>
        rw [hrun] at hraised
        cases hraised
        exact .inr ⟨w, fuel, path, wrap, .refl, List.suffix_refl _, hrun⟩

/-- Tasks leave frames over by abandoned scripts only, if calling back does. -/
theorem perform_leaves {fuel : Nat}
    (hr : (Reentry.ofFuel fuel : Reentry σ).ToldBy (World.leavingAccount P) (Closure.Uses P))
    (task : Task) : ToldBy (World.leavingAccount P) (perform (.ofFuel fuel : Reentry σ) task) := by
  have hcount : ∀ w : World σ, World.leavingAccount P w .value
      (w.onMachine fun m => { m with internCalls := m.internCalls + 1 }) := fun w _ =>
    .of_same (.step (.machine w (.countIntern w.machine))) rfl
  have hordinary : (World.leavingAccount P).TellsOrdinary (.ofFuel fuel) :=
    World.leaving_blockRules.ordinary hr
  exact World.leaving_rules.perform_any hordinary (Loader.loadObject_leaves fuel) hcount task

/-- However deep calls are nested, only scripts that are abandoned leave frames over. -/
theorem Reentry.leaves_ofFuel (P : Probe → Prop) (fuel : Nat) :
    (Reentry.ofFuel fuel : Reentry σ).ToldBy (World.leavingAccount P) (Closure.Uses P) := by
  induction fuel with
  | zero =>
      exact ⟨fun _ _ => World.leaving_rules.exhausted, fun _ _ => World.leaving_rules.exhausted _⟩
  | succ fuel ih =>
      refine ⟨fun call hcall w => ?_, fun program hoffers hw => ?_⟩
      · exact World.leaving_blockRules.dispatch ih hcall (fun task _ => perform_leaves ih task)
          fun _ body _ invocation => (body invocation).within_any
      · have hrun := program.told_run World.leaving_programRules ih
          (fun task _ => perform_leaves ih task) (hoffers.uses hw)
        exact hrun.told _ hw

end EmbeddedRuby
