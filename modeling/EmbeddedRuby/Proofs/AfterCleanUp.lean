import EmbeddedRuby.Proofs.CachedNames

/-!
# After the interpreter was taken down

A block or a proc can take the interpreter down while it is being used.  The operation that has led
to the block is still in progress then, and goes on; so the question is what it can still do, and
what can be begun after it.

The answer has two parts.  Nothing that needs the interpreter is begun any more, and the numbers of
names are forgotten.  But an operation that a jump comes out of is still surfaced, and surfacing
does not look at the state: if an exception is pending it is described, and for that the runtime is
asked for two names and calls methods.  Everything else that surfaces leaves the runtime alone.

The count of names that were asked for pays for the names that are known
(`World.Change.describing_paid`), so it is known to grow where a description has made a name known.
Where the host goes by operations, it grows for nothing else (`World.Turn.describing_counted`): neither
name is asked for a second time.

The main statement is `World.after_cleanUp`.
-/

namespace EmbeddedRuby

open Eval

variable {σ : Type} {P : Probe → Prop}

namespace World

variable {w w' v u : World σ}

/-! ### What is still known -/

/-- The interpreter is down, and of the numbers of names only those are known that it takes to
describe an exception. -/
structure Gone (w : World σ) : Prop where
  state : w.state = .cleanedUp
  ids : ∀ name id, w.ids.get? name = some id → name ∈ describingNames

/-- Right after it was taken down the interpreter is gone, and no name is known. -/
theorem gone_takenDown (w : World σ) : w.takenDown.Gone := by
  refine ⟨rfl, ?_⟩
  intro name id hid
  cases hid

/-- A name that was learned is known. -/
theorem get?_learn_self (w : World σ) (name : String) :
    ((w.learn name).ids.get? name).isSome := by
  rw [learn, Table.get?_insert_self]
  rfl

/-- What is known after a name was learned was known before, or is that name. -/
theorem isSome_learn_iff (w : World σ) (name other : String) :
    ((w.learn name).ids.get? other).isSome ↔ other = name ∨ (w.ids.get? other).isSome := by
  by_cases hother : other = name
  · subst hother
    simp [get?_learn_self]
  · simp [get?_learn_of_ne w hother, hother]

/-- What is gone stays gone. -/
theorem Change.gone (h : w.Change P w') (hw : w.Gone) : w'.Gone := by
  cases h.host with
  | same h => exact ⟨h.state.trans hw.state, h.ids ▸ hw.ids⟩
  | @learn name hnew hasked h =>
      subst h
      have hname : name ∈ describingNames := by
        rcases hasked with hup | hname
        · rw [hw.state] at hup
          cases hup
        · exact hname
      refine ⟨hw.state, ?_⟩
      intro other id hid
      by_cases hother : other = name
      · exact hother ▸ hname
      · exact hw.ids other id ((get?_learn_of_ne w hother).symm.trans hid)
  | addProc hbody h =>
      subst h
      exact ⟨hw.state, hw.ids⟩
  | @register kind run hempty hrun h =>
      subst h
      exact ⟨(w.setCallback_state kind _).trans hw.state, (w.setCallback_ids kind _).symm ▸ hw.ids⟩
  | setup hunknown =>
      rw [hw.state] at hunknown
      cases hunknown
  | cleanUp hup =>
      rw [hw.state] at hup
      cases hup

/-- What is gone is gone at every later moment. -/
theorem Reaches.gone (h : w.Reaches P w') (hw : w.Gone) : w'.Gone :=
  h.kept (fun hchange => hchange.gone) hw

/-- Once the interpreter is down, a name that is known stays known. -/
theorem Change.known (h : w.Change P w') (hw : w.Gone) {name : String}
    (hname : (w.ids.get? name).isSome) : (w'.ids.get? name).isSome := by
  cases h.host with
  | same h => exact h.ids ▸ hname
  | @learn learned hnew hasked h =>
      subst h
      exact (isSome_learn_iff w learned name).mpr (.inr hname)
  | addProc hbody h =>
      subst h
      exact hname
  | @register kind run hempty hrun h =>
      subst h
      exact (w.setCallback_ids kind _).symm ▸ hname
  | setup hunknown =>
      rw [hw.state] at hunknown
      cases hunknown
  | cleanUp hup =>
      rw [hw.state] at hup
      cases hup

/-- A name that is known once the interpreter is down is known at every later moment. -/
theorem Reaches.known (h : w.Reaches P w') (hw : w.Gone) {name : String}
    (hname : (w.ids.get? name).isSome) : (w'.ids.get? name).isSome := by
  let Kept : World σ → Prop := fun u => u.Gone ∧ (u.ids.get? name).isSome
  have hstep : ∀ {u u' : World σ}, u.Change P u' → Kept u → Kept u' :=
    fun hchange hu => ⟨hchange.gone hu.1, hchange.known hu.1 hu.2⟩
  have hboth : Kept w' := h.kept hstep ⟨hw, hname⟩
  exact hboth.2

/-! ### What it has cost -/

/-- How many of the names that describe exceptions are known. -/
def knownDescribing (w : World σ) : Nat :=
  describingNames.countP fun name => (w.ids.get? name).isSome

/-- There are two names that describe exceptions. -/
theorem knownDescribing_le (w : World σ) : w.knownDescribing ≤ describingNames.length :=
  List.countP_le_length

/-- How many of them are known is a matter of the names that the host knows. -/
theorem knownDescribing_congr (h : w'.ids = w.ids) : w'.knownDescribing = w.knownDescribing := by
  unfold knownDescribing
  rw [h]

/-- With a name that is learned one more of them is known at most. -/
theorem knownDescribing_learn_le (w : World σ) (name : String) :
    (w.learn name).knownDescribing ≤ w.knownDescribing + 1 := by
  unfold knownDescribing describingNames
  simp only [List.countP_cons, List.countP_nil, isSome_learn_iff]
  by_cases hbacktrace : "backtrace" = name
  · subst hbacktrace
    simp
  · by_cases hjoin : "join" = name
    · subst hjoin
      simp
      split <;> omega
    · simp [hbacktrace, hjoin]

/-- Every name that has become known was asked for. -/
theorem Change.describing_paid (h : w.Change P w') :
    w'.knownDescribing + w.machine.internCalls ≤
      w.knownDescribing + w'.machine.internCalls := by
  have hcalls := h.countsUp.internCalls
  cases h.host with
  | same h =>
      rw [knownDescribing_congr h.ids]
      omega
  | @learn name hnew hasked h =>
      subst h
      have hcount : (w.learn name).machine.internCalls = w.machine.internCalls + 1 := rfl
      have hknown := w.knownDescribing_learn_le name
      omega
  | addProc hbody h =>
      subst h
      exact Nat.add_le_add_left hcalls _
  | @register kind run hempty hrun h =>
      subst h
      rw [knownDescribing_congr (w.setCallback_ids kind _)]
      omega
  | setup hunknown hstart h =>
      have hids : w'.ids = w.ids := by
        rw [h]
        cases (Vm.start_cases hstart).2 <;> rfl
      rw [knownDescribing_congr hids]
      omega
  | cleanUp hup h =>
      subst h
      exact Nat.add_le_add (Nat.zero_le _) hcalls

/-- The names that became known over a run were all asked for. -/
theorem Reaches.describing_paid (h : w.Reaches P w') :
    w'.knownDescribing + w.machine.internCalls ≤
      w.knownDescribing + w'.machine.internCalls := by
  induction h with
  | refl => exact Nat.le_refl _
  | tail _ last ih =>
      have hlast := last.describing_paid
      omega

/-- With one of them that was not known it is one more. -/
theorem knownDescribing_learn {name : String} (hname : name ∈ describingNames)
    (hnew : w.ids.get? name = none) : (w.learn name).knownDescribing = w.knownDescribing + 1 := by
  unfold knownDescribing describingNames at *
  rcases List.mem_pair.mp hname with rfl | rfl <;>
    simp [List.countP_cons, isSome_learn_iff, hnew, Nat.add_comm]

/-- Once the interpreter is down none of them is forgotten. -/
theorem Change.knownDescribing_le (h : w.Change P w') (hw : w.Gone) :
    w.knownDescribing ≤ w'.knownDescribing :=
  List.countP_mono_left fun _ _ hname => h.known hw hname

/-- Once the interpreter is down, a name is asked for in a turn just in case it becomes known. -/
theorem Turn.describing_counted (h : w.Turn w') (hw : w.Gone) :
    w'.knownDescribing + w.machine.internCalls = w.knownDescribing + w'.machine.internCalls := by
  rcases h.counted with hsame | ⟨name, hnew, -, rfl⟩
  · have hpaid := h.change.describing_paid
    have hkept := h.change.knownDescribing_le hw
    omega
  · obtain ⟨id, hid⟩ := Option.isSome_iff_exists.mp (w.get?_learn_self name)
    have hname : name ∈ describingNames := (h.change.gone hw).ids name id hid
    have hcount : (w.learn name).machine.internCalls = w.machine.internCalls + 1 := rfl
    have hknown := knownDescribing_learn hname hnew
    omega

/-- Once the interpreter is down, the names that were asked for over any number of turns are those
that became known. -/
theorem Turns.describing_counted (h : w.Turns w') (hw : w.Gone) :
    w'.knownDescribing + w.machine.internCalls = w.knownDescribing + w'.machine.internCalls := by
  induction h with
  | refl => rfl
  | tail before last ih =>
      have hlast := last.describing_counted ((Turns.reaches before).gone hw)
      omega

/-! ### The life that is over -/

/-- Nothing brings the interpreter up again, and nothing takes it down twice. -/
theorem Change.sameLife_of_gone (h : w.Change P w') (hw : w.Gone) : w.SameLife w' := by
  cases h.life with
  | none h => exact h
  | broughtUp h => exact absurd (hw.state.symm.trans h.unknown) nofun
  | takenDown hup => exact absurd (hw.state.symm.trans hup) nofun

/-- The life of an interpreter that is gone is over. -/
theorem Reaches.sameLife_of_gone (h : w.Reaches P w') (hw : w.Gone) : w.SameLife w' := by
  induction h with
  | refl => exact ⟨rfl, .refl w.machine⟩
  | tail before last ih =>
      have hlast := last.sameLife_of_gone (Reaches.gone before hw)
      exact ⟨hlast.state.trans ih.state, ih.machine.trans hlast.machine⟩

/-! ### What surfaces -/

variable {r : Reentry σ}

/-- Asking for a name in the course of a description makes it known. -/
theorem quietName_known (r : Reentry σ) {name : String} (hname : name ∈ describingNames)
    (w : World σ) :
    ∃ id w', (Vm.quietName r name).run w = .ok (some id) w' ∧ w.Reaches AnyProbe w' ∧
      (w'.ids.get? name).isSome := by
  rw [Vm.quietName_run_apply]
  cases hid : w.ids.get? name with
  | some id =>
      refine ⟨id, w, rfl, .refl, ?_⟩
      rw [hid]
      rfl
  | none =>
      have hstep : w.Step (w.learn name) := .learn w hid (.inr hname)
      exact ⟨_, w.learn name, rfl, (Change.step hstep).reaches, w.get?_learn_self name⟩

/-- Describing an exception makes both names known, whatever else it comes to. -/
theorem Gone.known_of_report (hr : r.Follows AnyProbe) (hw : w.Gone) {exception : Value}
    {found : ExceptionReport} (h : Vm.report r exception w = .ok found w') :
    w.Reaches AnyProbe w' ∧ w'.knownDescribing = describingNames.length := by
  unfold Vm.report at h
  obtain ⟨description, w₁, hshown, h⟩ := bind_ok_iff.mp h
  obtain ⟨lines, w₂, hlines, h⟩ := bind_ok_iff.mp h
  cases h
  have hfirst : w.Reaches AnyProbe w₁ := by
    have hreached := reaches_of_follows (Vm.follows_shown hr exception) w
    rwa [hshown] at hreached
  obtain ⟨rest, heq, hrest⟩ := Vm.backtraceLines_eq hr exception
  have hbacktraceAsked : "backtrace" ∈ describingNames := by decide
  have hjoinAsked : "join" ∈ describingNames := by decide
  obtain ⟨backtrace, v₁, hbacktrace, hreached₁, hknown₁⟩ := quietName_known r hbacktraceAsked w₁
  obtain ⟨join, v₂, hjoin, hreached₂, hknown₂⟩ := quietName_known r hjoinAsked v₁
  have hreached₃ : v₂.Reaches AnyProbe w' := by
    have hreached := reaches_of_follows (hrest backtrace join) v₂
    rw [heq, Vm.option_run_bind_apply, hbacktrace] at hlines
    simp only at hlines
    rw [Vm.option_run_bind_apply, hjoin] at hlines
    simp only at hlines
    rwa [hlines] at hreached
  -- From the moment on at which a name is known it stays known.
  have hgone₁ : v₁.Gone := Reaches.gone (hfirst.trans hreached₁) hw
  have hgone₂ : v₂.Gone := hreached₂.gone hgone₁
  have hjoined : (w'.ids.get? "join").isSome := hreached₃.known hgone₂ hknown₂
  have htraced : (w'.ids.get? "backtrace").isSome :=
    Reaches.known (hreached₂.trans hreached₃) hgone₁ hknown₁
  refine ⟨((hfirst.trans hreached₁).trans hreached₂).trans hreached₃, ?_⟩
  simp [knownDescribing, describingNames, hjoined, htraced]

/-- **What is left when the interpreter was taken down.**  At every moment after that:

* the interpreter is down, and of the numbers of names only those of the two names are known that
  it takes to describe an exception;
* whatever needs the interpreter is refused and changes nothing but the history, unless the host's
  side refuses it; and taking the interpreter down does nothing;
* a jump that surfaces with nothing pending changes nothing but the history, and a panic that waits
  goes on;
* but a jump that surfaces with an exception pending has it described in the runtime that is gone:
  when that ends both names are known, and each that was not known before was asked for;
* the interpreter is neither brought up nor taken down again, and where the host goes by operations,
  the two names are all that it is asked for, each of them once at most. -/
theorem after_cleanUp (fuel : Nat) {code : Int}
    (hup : v.state = .up)
    (hdown : Vm.cleanUp v = .ok code w)
    (hreached : w.Reaches AnyProbe u) :
    let r : Reentry σ := .ofFuel fuel
    let gone := Error.setup Vm.cleanedUpReason
    u.state = .cleanedUp ∧
    (∀ name id, u.ids.get? name = some id → name ∈ describingNames) ∧
    (∀ {α : Type} (operation : Checked σ α),
      Vm.NeedsRuntime r operation → ¬Vm.HostRefuses operation →
        Vm.settled r operation u = .ok (.error gone) (u.recorded gone)) ∧
    Vm.cleanUp u = .ok 0 u ∧
    (∀ jump,
      match u.parked with
      | some p => Vm.surface r jump u = .error (.panic p) (u.withoutPending.resume p)
      | none =>
        if u.machine.errinfo = Value.nil then
          Vm.surface r jump u = .ok (.jump jump.tag) (u.recorded (.jump jump.tag))
        else
          ∀ error u', Vm.surface r jump u = .ok error u' →
            u'.knownDescribing = describingNames.length ∧
            u.machine.internCalls + (describingNames.length - u.knownDescribing) ≤
              u'.machine.internCalls) ∧
    u.machine.setupCalls = w.machine.setupCalls ∧ u.machine.cleanupCalls = w.machine.cleanupCalls ∧
    (w.OperationsOnly → w.Turns u →
      u.machine.internCalls = w.machine.internCalls + u.knownDescribing ∧
      u.knownDescribing ≤ describingNames.length ∧
      ∀ (fuel : Nat) (role : Role) (program : Program σ role), program.Uses NoProbes →
        u.Turns (Outcome.world (program.run (.ofFuel fuel) u))) := by
  intro r gone
  rw [cleanUp_of_up hup] at hdown
  cases hdown
  have hgone : u.Gone := hreached.gone v.gone_takenDown
  have hrefusal : u.state.refusal? = some gone := by
    rw [hgone.state]
    rfl
  have hlife := hreached.sameLife_of_gone v.gone_takenDown
  refine ⟨hgone.state, hgone.ids, ?_, cleanUp_of_not_up (by simp [hgone.state]), ?_,
    hlife.machine.setupCalls, hlife.machine.cleanupCalls, fun hoperations hturns => ⟨?_, ?_, ?_⟩⟩
  · intro α operation hneeds hpassed
    exact (hneeds.refusedAt hpassed hrefusal).settled
  · intro jump
    have hsurface := Vm.surface_apply (r := r) jump u
    cases hparked : u.parked with
    | some p =>
        rw [hparked] at hsurface
        exact hsurface
    | none =>
        rw [hparked] at hsurface
        simp only at hsurface ⊢
        by_cases hnil : u.machine.errinfo = Value.nil
        · rw [if_pos hnil, Vm.withoutPending_of_nil hnil] at hsurface
          rw [if_pos hnil]
          exact hsurface
        · rw [if_neg hnil] at hsurface ⊢
          intro error u' hended
          rw [hsurface] at hended
          obtain ⟨found, u₁, hreport, hrecord⟩ := bind_ok_iff.mp hended
          cases hrecord
          have hcleared : u.withoutPending.Gone := ⟨hgone.state, hgone.ids⟩
          obtain ⟨hreached', hknown⟩ :=
            hcleared.known_of_report (Reentry.follows_ofFuel AnyProbe fuel) hreport
          have hpaid := hreached'.describing_paid
          have hbound := u.knownDescribing_le
          have hsame : u.withoutPending.knownDescribing = u.knownDescribing := rfl
          have hcount : u.withoutPending.machine.internCalls = u.machine.internCalls := rfl
          refine ⟨hknown, ?_⟩
          show _ ≤ u₁.machine.internCalls
          omega
  · have hcounted := hturns.describing_counted v.gone_takenDown
    have hnone : v.takenDown.knownDescribing = 0 := rfl
    omega
  · exact u.knownDescribing_le
  · exact fun fuel role program huses => program.turns_run fuel huses (hoperations.turns hturns)

/-- Where an exception is raised after the interpreter was taken down, describing it asks the
runtime for both names. -/
theorem after_cleanUp_raising :
    let u : World Unit := bare.takenDown.raising .exceptionExpected
    bare.state = .up ∧ Vm.cleanUp bare = .ok 0 bare.takenDown ∧
      bare.takenDown.Reaches AnyProbe u ∧ u.state = .cleanedUp ∧
      ∃ error u', Vm.surface (.ofFuel 1) (.raised u.machine.errinfo) u = .ok error u' ∧
        u.machine.internCalls + 2 ≤ u'.machine.internCalls := by
  intro u
  have hdown : Vm.cleanUp bare = .ok 0 bare.takenDown := rfl
  have hreached : bare.takenDown.Reaches AnyProbe u := (Change.raising _ .exceptionExpected).reaches
  obtain ⟨hstate, -, -, -, hsurface, -⟩ := after_cleanUp 1 rfl hdown hreached
  have hends : (Vm.surface (.ofFuel 1) (.raised u.machine.errinfo)).Terminates u := by
    apply terminates_of_ending
    decide +kernel
  obtain ⟨error, u', hrun⟩ := (Vm.noJump_surface (.raised u.machine.errinfo)).exists_value hends
  refine ⟨rfl, hdown, hreached, hstate, error, u', hrun, ?_⟩
  have hpending : u.machine.errinfo ≠ Value.nil := by decide +kernel
  have hdescribed := hsurface (.raised u.machine.errinfo)
  rw [show u.parked = none from rfl] at hdescribed
  simp only at hdescribed
  rw [if_neg hpending] at hdescribed
  exact (hdescribed error u' hrun).2

end World

end EmbeddedRuby
