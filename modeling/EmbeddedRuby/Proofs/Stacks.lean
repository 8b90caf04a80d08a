import EmbeddedRuby.Proofs.Course

/-!
# The stacks of a run

The interpreter keeps two stacks, of the script bodies that are being run and of the blocks.  This
module says what a run does to them.

No run takes away an entry that was there before it (`Course.frames_suffix`,
`Course.yields_suffix`), so truncating a stack to its old depth always gives the old stack.  The
stack of blocks is even the same after a run that gives a value, and after one that panics
(`Course.yields_eq`), since a panic does not come out of a block.  The stack of script bodies need
not be: a panic may come out of a script, and if the host's code goes on after it, the frames of the
script stay.
-/

namespace EmbeddedRuby

variable {σ : Type} {P : Probe → Prop}

/-! ### Truncating a stack -/

/-- Truncating a stack to the depth of a stack below it gives that stack. -/
theorem truncate_of_suffix {α : Type} {below stack : List α} (h : below <:+ stack) :
    truncate below.length stack = below := by
  obtain ⟨top, rfl⟩ := h
  simp [truncate]

/-- A truncated stack is no deeper than asked for. -/
theorem length_truncate {α : Type} (depth : Nat) (stack : List α) :
    (truncate depth stack).length = min depth stack.length := by
  simp only [truncate, List.length_drop]
  omega

/-- A truncated stack is the lower part of the stack. -/
theorem truncate_suffix {α : Type} (depth : Nat) (stack : List α) :
    truncate depth stack <:+ stack :=
  List.drop_suffix _ _

/-- Truncating twice is truncating to the smaller depth. -/
theorem truncate_truncate {α : Type} {base depth : Nat} (h : base ≤ depth) (stack : List α) :
    truncate base (truncate depth stack) = truncate base stack := by
  simp only [truncate, List.drop_drop, List.length_drop]
  congr 1
  omega

/-- What is below a part of a stack is not seen to change when the stack grows. -/
theorem truncate_append {α : Type} {base : Nat} {stack : List α} (h : base ≤ stack.length)
    (top : List α) : truncate base (top ++ stack) = truncate base stack := by
  have hdrop : (top ++ stack).length - base = top.length + (stack.length - base) := by
    rw [List.length_append]
    omega
  unfold truncate
  rw [hdrop, ← List.drop_drop, List.drop_left]

/-! ### What steps do to the stacks -/

/-- The two stacks of one machine are those of another. -/
structure Machine.SameStacks (m m' : Machine) : Prop where
  frames : m'.frames = m.frames
  yields : m'.yields = m.yields

/-- Stacks that are the same over two parts of a run are the same over both. -/
theorem Machine.SameStacks.trans {m m₁ m₂ : Machine} (h₁ : m.SameStacks m₁)
    (h₂ : m₁.SameStacks m₂) : m.SameStacks m₂ :=
  ⟨h₂.frames.trans h₁.frames, h₂.yields.trans h₁.yields⟩

/-- No step of the interpreter touches the stacks. -/
theorem Machine.Step.sameStacks {m m' : Machine} (h : m.Step m') : m.SameStacks m' := by
  cases h with
  | storeInHash hash key value =>
      unfold Machine.storeInHash
      split <;> exact ⟨rfl, rfl⟩
  | _ => exact ⟨rfl, rfl⟩

/-- Any number of steps leave the stacks alone. -/
theorem Machine.Steps.sameStacks {m m' : Machine} (h : m.Steps m') : m.SameStacks m' := by
  induction h with
  | refl => exact ⟨rfl, rfl⟩
  | tail before last ih => exact ih.trans last.sameStacks

/-- Making an exception leaves the stacks alone. -/
theorem Machine.newException_sameStacks (m : Machine) (fault : Fault) :
    m.SameStacks (m.newException fault).2 :=
  Machine.Steps.sameStacks (m.newException_steps fault)

/-- Giving an exception its backtrace leaves the stacks alone. -/
theorem Machine.fillBacktrace_sameStacks (m : Machine) (exception : Value) :
    m.SameStacks (m.fillBacktrace exception) := by
  unfold fillBacktrace
  split
  · split
    · exact (Machine.Steps.sameStacks m.backtrace_steps).trans ⟨rfl, rfl⟩
    · exact ⟨rfl, rfl⟩
  · exact ⟨rfl, rfl⟩

/-- An interpreter that comes up leaves its stacks alone. -/
theorem Machine.setUp_sameStacks (m : Machine) : m.SameStacks m.setUp.2 :=
  ⟨rfl, rfl⟩

/-- Reading a command line leaves the stacks alone. -/
theorem Machine.options_sameStacks (m : Machine) (argv : List String) :
    m.SameStacks (m.options argv).2 := by
  unfold options
  split <;> exact ⟨rfl, rfl⟩

/-- No step of a run touches the stacks. -/
theorem World.Step.sameStacks {w w' : World σ} (h : w.Step w') :
    w.machine.SameStacks w'.machine := by
  cases h with
  | machine h => exact h.sameStacks
  | setup hunknown hstart =>
      cases (Vm.start_cases hstart).2 with
      | refused | badArguments => exact w.machine.setUp_sameStacks
      | ran => exact w.machine.setUp_sameStacks.trans (Machine.options_sameStacks _ _)
  | _ => exact ⟨rfl, rfl⟩

/-- Bringing the interpreter up is a step, unless it is up already. -/
theorem Vm.step_of_ensureSetup {w w' : World σ}
    (h : (ensureSetup : Checked σ Unit).run w = .ok (.ok ()) w') : w' = w ∨ w.Step w' := by
  rw [ensureSetup_run_apply, setup_run_apply] at h
  cases hstate : w.state with
  | up =>
      rw [hstate] at h
      cases h
      exact .inl rfl
  | failed error | cleanedUp =>
      rw [hstate] at h
      cases h
  | unknown =>
      rw [hstate] at h
      simp only at h
      cases hstart : (start {}).run w with
      | error exit w₁ =>
          rw [hstart] at h
          cases h
      | ok result w₁ =>
          rw [hstart] at h
          cases result <;> cases h
          exact .inr (.setup hstate hstart)

/-- No probe touches the stacks. -/
theorem Probe.Step.sameStacks {probe : Probe} {w w' : World σ} (h : probe.Step w w') :
    w.machine.SameStacks w'.machine := by
  cases h with
  | options => exact Machine.options_sameStacks _ _
  | _ => exact ⟨rfl, rfl⟩

/-- Moving on to another line does not concern the blocks. -/
theorem Machine.setLine_yields (m : Machine) (line : Nat) :
    (m.setLine line).yields = m.yields := by
  unfold setLine
  split <;> rfl

/-- Callbacks are on the host's side. -/
theorem World.setCallback_machine (w : World σ) (kind : CallbackKind) (callback : Callback σ) :
    (w.setCallback kind callback).machine = w.machine := by
  cases kind <;> rfl

/-! ### The blocks -/

/-- Blocks that are being run are all over when a run ends like this. -/
def Ending.EndsBlocks : Ending → Prop
  | .value => True
  | .exit (.panic _) => True
  | .exit _ => False

/-- No run takes away a block that was running before it, and what gives a value or panics leaves no
block running. -/
theorem Course.yields_spec {script : Option Nat} {w w' : World σ} {ending : Ending}
    (h : Course P script w ending w') :
    w.machine.yields <:+ w'.machine.yields ∧
      (ending.EndsBlocks → w'.machine.yields = w.machine.yields) := by
  have same : ∀ {v v' : World σ} {e : Ending}, v'.machine.yields = v.machine.yields →
      v.machine.yields <:+ v'.machine.yields ∧
        (e.EndsBlocks → v'.machine.yields = v.machine.yields) := by
    intro v v' e hsame
    rw [hsame]
    exact ⟨List.suffix_refl _, fun _ => rfl⟩
  induction h with
  | done | breakOut | crash | exhausted | openBody | closeBody | addProc => exact same rfl
  | setLine w line => exact same (w.machine.setLine_yields line)
  | step h => exact same h.sameStacks.yields
  | @register w kind run =>
      exact same (congrArg Machine.yields (w.setCallback_machine kind (.custom run)))
  | probe hprobe h => exact same h.sameStacks.yields
  | raise w fault => exact same (w.machine.newException_sameStacks fault).yields
  | @raiseObject w exception => exact same (w.machine.fillBacktrace_sameStacks exception).yields
  | seq first rest ih₁ ih₂ =>
      obtain ⟨hkept, hsame⟩ := ih₁
      rw [hsame trivial] at ih₂
      exact ih₂
  | block inner ih => exact same (truncate_of_suffix ((List.suffix_cons _ _).trans ih.1))
  | @blockLeft w w₁ target exit inner hexit ih =>
      refine ⟨(List.suffix_cons _ _).trans ih.1, ?_⟩
      intro hends
      cases exit with
      | panic p => exact absurd rfl (hexit p)
      | jump jump => exact hends.elim
      | exhausted => exact hends.elim
  | iterate inner ih | settled inner hparked ih | resumed inner hparked ih
  | attempt hprobe inner ih => exact same (truncate_of_suffix ih.1)
  | quiet inner ih =>
      refine same (.trans (congrArg Machine.yields (World.overlook_machine _)) ?_)
      exact truncate_of_suffix ih.1
  | callback inner ih =>
      -- The callback has ended with a panic, so the blocks in it are over.
      refine same ?_
      exact (Machine.newException_sameStacks _ _).yields.trans (ih.2 trivial)
  | script inner ih => exact same (ih.2 trivial)
  | scriptLeft inner ih => exact ih
  | ordinary inner ih => exact ih
  | caught inner ih => exact same (ih.2 trivial)

/-- No run takes away a block that was running before it. -/
theorem Course.yields_suffix {script : Option Nat} {w w' : World σ} {ending : Ending}
    (h : Course P script w ending w') : w.machine.yields <:+ w'.machine.yields :=
  h.yields_spec.1

/-- A run that gives a value or panics leaves the blocks as they were. -/
theorem Course.yields_eq {script : Option Nat} {w w' : World σ} {ending : Ending}
    (h : Course P script w ending w') (hends : ending.EndsBlocks) :
    w'.machine.yields = w.machine.yields :=
  h.yields_spec.2 hends

/-! ### The script bodies -/

/-- What a run leaves alone of the stack of script bodies: all of it, or, in a script, what is below
the frames of the script, which are not all gone. -/
def FramesKept (script : Option Nat) (before after : List Frame) : Prop :=
  match script with
  | none => before <:+ after
  | some base =>
    base < before.length → base < after.length ∧ truncate base after = truncate base before

/-- A run that does nothing leaves all frames. -/
theorem FramesKept.refl (script : Option Nat) (frames : List Frame) :
    FramesKept script frames frames := by
  cases script with
  | none => exact List.suffix_refl _
  | some base => exact fun h => ⟨h, rfl⟩

/-- What is left alone by two parts of a run is left alone by both. -/
theorem FramesKept.trans {script : Option Nat} {before between after : List Frame}
    (h₁ : FramesKept script before between) (h₂ : FramesKept script between after) :
    FramesKept script before after := by
  cases script with
  | none => exact List.IsSuffix.trans h₁ h₂
  | some base =>
      intro hbase
      obtain ⟨hbetween, heq₁⟩ := h₁ hbase
      obtain ⟨hafter, heq₂⟩ := h₂ hbetween
      exact ⟨hafter, heq₂.trans heq₁⟩

/-- Where no frame is gone at all, none is gone below those of a script. -/
theorem FramesKept.of_suffix {before after : List Frame} (h : before <:+ after) (base : Nat) :
    FramesKept (some base) before after := by
  intro hbase
  obtain ⟨top, rfl⟩ := h
  refine ⟨?_, truncate_append (Nat.le_of_lt hbase) top⟩
  rw [List.length_append]
  omega

/-- A script does not touch what is below its first frame. -/
theorem FramesKept.below_script {frame : Frame} {before after : List Frame}
    (h : FramesKept (some before.length) (frame :: before) after) :
    truncate before.length after = before := by
  obtain ⟨_, hkept⟩ := h (by simp)
  exact hkept.trans (truncate_of_suffix (List.suffix_cons frame before))

/-- Moving on to another line changes the topmost frame, which is the script's own. -/
theorem Machine.setLine_kept (m : Machine) (line base : Nat) :
    FramesKept (some base) m.frames (m.setLine line).frames := by
  intro hbase
  cases hframes : m.frames with
  | nil =>
      rw [hframes] at hbase
      cases hbase
  | cons frame rest =>
      have hset : (m.setLine line).frames = { frame with line } :: rest := by
        unfold setLine
        rw [hframes]
      rw [hframes, List.length_cons] at hbase
      have hrest : base ≤ rest.length := by omega
      rw [hset]
      refine ⟨by simpa using hbase, ?_⟩
      exact (truncate_append hrest [_]).trans (truncate_append hrest [frame]).symm

/-- No run takes away a frame that was there before it. -/
theorem Course.framesKept {script : Option Nat} {w w' : World σ} {ending : Ending}
    (h : Course P script w ending w') :
    FramesKept script w.machine.frames w'.machine.frames := by
  have same : ∀ {v v' : World σ}, v'.machine.frames = v.machine.frames →
      FramesKept none v.machine.frames v'.machine.frames := by
    intro v v' hsame
    rw [hsame]
    exact .refl none _
  induction h with
  | done | breakOut | crash | exhausted | addProc => exact same rfl
  | setLine w line => exact w.machine.setLine_kept line _
  | openBody w file label line =>
      intro hbase
      have hlow := Nat.le_of_lt hbase
      exact ⟨Nat.lt_succ_of_lt hbase, truncate_append hlow [_]⟩
  | @closeBody base w depth hdepth =>
      intro hbase
      refine ⟨?_, truncate_truncate (Nat.le_of_lt hdepth) _⟩
      show base < (truncate depth w.machine.frames).length
      rw [length_truncate]
      omega
  | step h => exact same h.sameStacks.frames
  | @register w kind run =>
      exact same (congrArg Machine.frames (w.setCallback_machine kind (.custom run)))
  | probe hprobe h => exact same h.sameStacks.frames
  | raise w fault => exact same (w.machine.newException_sameStacks fault).frames
  | @raiseObject w exception => exact same (w.machine.fillBacktrace_sameStacks exception).frames
  | seq first rest ih₁ ih₂ => exact ih₁.trans ih₂
  | block inner ih => exact ih
  | blockLeft inner hexit ih => exact ih
  | iterate inner ih | settled inner hparked ih | resumed inner hparked ih
  | attempt hprobe inner ih => exact same (truncate_of_suffix ih)
  | quiet inner ih =>
      refine same (.trans (congrArg Machine.frames (World.overlook_machine _)) ?_)
      exact truncate_of_suffix ih
  | callback inner ih =>
      exact ih.trans (same (Machine.newException_sameStacks _ _).frames)
  | script inner ih => exact same ih.below_script
  | @scriptLeft w w₁ file label exit inner ih =>
      have hsuffix := truncate_suffix w.machine.frames.length w₁.machine.frames
      rw [ih.below_script] at hsuffix
      exact hsuffix
  | ordinary inner ih => exact .of_suffix ih _
  | caught inner ih => exact ih

/-- Outside of scripts no run takes a frame away. -/
theorem Course.frames_suffix {w w' : World σ} {ending : Ending}
    (h : Course P none w ending w') : w.machine.frames <:+ w'.machine.frames :=
  h.framesKept

/-- While a script is being run, its own frames are not all gone. -/
theorem Course.base_lt {base : Nat} {w w' : World σ} {ending : Ending}
    (h : Course P (some base) w ending w') (hbase : base < w.machine.frames.length) :
    base < w'.machine.frames.length :=
  (h.framesKept hbase).1

end EmbeddedRuby
