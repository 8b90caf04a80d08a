import EmbeddedRuby.Proofs.Careful.Tasks
import EmbeddedRuby.Proofs.Life
import EmbeddedRuby.Vm.Operation

/-!
# Careful operations

What can be asked for in the regular way is careful, up to the error that a jump is made into: the words
that an operation is given are known, and so is what it gives.  What can be done to the runtime
underneath is careful if no handles are made up for it.
-/

namespace EmbeddedRuby

open Eval

/-- The callbacks that are filled in run the bodies that they are given, and have no code of their
own. -/
theorem World.callback_of_fillCallbacks {σ : Type} {w : World σ} {kind : CallbackKind}
    {run : CallbackInput → Program σ .callback}
    (hrun : w.fillCallbacks.callback kind = some (.custom run)) :
    w.callback kind = some (.custom run) := by
  have hfilled : w.fillCallbacks.callback kind = some ((w.callback kind).getD .closures) := by
    cases kind <;> rfl
  rw [hfilled] at hrun
  cases hcallback : w.callback kind with
  | none =>
      rw [hcallback] at hrun
      cases hrun
  | some callback =>
      rw [hcallback] at hrun
      exact hrun

variable {σ α β : Type} [Handled σ] [Handled α] [Handled β] {r : Reentry σ} {known : Nat}

/-! ### The host's side -/

/-- The host's books are changed: the history, the names it knows, its roots and the panic that waits. -/
theorem Eval.Careful.books {f : World σ → World σ} (hmachine : ∀ w, (f w).machine = w.machine)
    (hmemory : ∀ w, (f w).memory = w.memory) (hprocs : ∀ w, (f w).procs = w.procs)
    (hcallbacks : ∀ w kind, (f w).callback kind = w.callback kind) :
    Careful known (modify f : Eval σ PUnit) := by
  refine .change fun w hw _ => hw.books ?_ (hmemory w) (fun hbody => ?_) fun {kind _} hrun => ?_
  · rw [hmachine]
    exact .refl _
  · rw [hprocs] at hbody
    exact hbody
  · rw [hcallbacks w kind] at hrun
    exact hrun

/-- An operation, up to the error that a jump is made into, is careful. -/
def Checked.Careful (known : Nat) (x : Checked σ α) : Prop :=
  Eval.Careful known x.run

/-- A part of a description that may be missing is careful. -/
def CarefulPart (known : Nat) (x : OptionT (Eval σ) α) : Prop :=
  Eval.Careful known x.run

namespace Checked.Careful

variable {x : Checked σ α}

/-- What is careful with few known objects is careful with more of them known. -/
theorem mono {later : Nat} (hx : Checked.Careful known x) (hle : known ≤ later) :
    Checked.Careful later x :=
  Eval.Careful.mono hx hle

/-- Returning is careful with a result that is within what is known. -/
theorem pure {a : α} (ha : Within known a) : Checked.Careful known (Pure.pure a : Checked σ α) :=
  Eval.Careful.pure (a := Except.ok a) ha

/-- Chaining careful steps where the second uses the first one's result: it is then within what is
known by that time. -/
theorem keep {f : α → Checked σ β} (hx : Checked.Careful known x)
    (hf : ∀ later, known ≤ later → ∀ a, Within later a → Checked.Careful later (f a)) :
    Checked.Careful known (x >>= f) := by
  refine Eval.Careful.keep hx fun later hle result hresult => ?_
  cases result with
  | ok a => exact hf later hle a hresult
  | error failure => exact Eval.Careful.pure (a := Except.error failure) hresult

/-- Chaining careful steps where the second is careful whatever the first one gives. -/
theorem bind {f : α → Checked σ β} (hx : Checked.Careful known x)
    (hf : ∀ a, Checked.Careful known (f a)) : Checked.Careful known (x >>= f) :=
  hx.keep fun _ hle a _ => (hf a).mono hle

/-- Whichever branch is taken is careful, if both are. -/
theorem ite {p : Prop} [Decidable p] {y : Checked σ α} (hx : Checked.Careful known x)
    (hy : Checked.Careful known y) : Checked.Careful known (if p then x else y) := by
  split
  · exact hx
  · exact hy

/-- A careful evaluation stays careful as part of an operation that may be refused. -/
theorem lift {x : Eval σ α} (hx : Eval.Careful known x) :
    Checked.Careful known (ExceptT.lift x : Checked σ α) :=
  Eval.Careful.keep hx fun _ _ a ha => Eval.Careful.pure (a := Except.ok a) ha

/-- An operation that reads the world need only be careful in sound worlds, with all their objects
known. -/
theorem insideWorld {f : World σ → Checked σ β}
    (hf : ∀ w : World σ, w.Sound → known ≤ w.machine.heap.slots.size →
      Checked.Careful w.machine.heap.slots.size (f w)) :
    Checked.Careful known ((get : Checked σ (World σ)) >>= f) :=
  fun w hw hknown => hf w hw hknown w hw (Nat.le_refl _)

/-- The operation looks at the host's books. -/
theorem look {f : World σ → Checked σ β} (hf : ∀ w, Checked.Careful known (f w)) :
    Checked.Careful known ((get : Checked σ (World σ)) >>= f) :=
  insideWorld fun w _ hknown => (hf w).mono hknown

/-- A change of the world that is careful by itself is careful within an operation. -/
theorem change {f : World σ → World σ} (hf : Eval.Careful known (modify f : Eval σ PUnit)) :
    Checked.Careful known (modify f : Checked σ PUnit) :=
  lift hf

/-- The core classes are known from the start, so naming one is careful. -/
theorem coreClass (c : CoreClass) : Checked.Careful known (Pure.pure c.value : Checked σ Value) :=
  fun _ hw _ => ⟨hw.passes, hw.machine.core.within c⟩

end Checked.Careful

/-! ### Descriptions -/

namespace CarefulPart

variable {x : OptionT (Eval σ) α}

/-- Returning is careful with a result that is within what is known. -/
theorem pure {a : α} (ha : Within known a) : CarefulPart known (Pure.pure a : OptionT (Eval σ) α) :=
  Eval.Careful.pure (a := some a) (within_some ha)

/-- The same chaining for steps that may find nothing. -/
theorem keep {f : α → OptionT (Eval σ) β} (hx : CarefulPart known x)
    (hf : ∀ later, known ≤ later → ∀ a, Within later a → CarefulPart later (f a)) :
    CarefulPart known (x >>= f) := by
  refine Eval.Careful.keep hx fun later hle result hresult => ?_
  cases result with
  | some a => exact hf later hle a (hresult a rfl)
  | none => exact Eval.Careful.pure within_none

/-- Chaining steps of which the second is careful whatever the first one found. -/
theorem bind {f : α → OptionT (Eval σ) β} (hx : CarefulPart known x)
    (hf : ∀ a, CarefulPart known (f a)) : CarefulPart known (x >>= f) :=
  hx.keep fun _ hle a _ => Eval.Careful.mono (hf a) hle

/-- A careful evaluation that always finds something. -/
theorem lift {x : Eval σ α} (hx : Eval.Careful known x) :
    CarefulPart known (OptionT.lift x : OptionT (Eval σ) α) :=
  Eval.Careful.keep hx fun _ _ _ ha => Eval.Careful.pure (within_some ha)

/-- The part goes on with the world as it is. -/
theorem insideWorld {f : World σ → OptionT (Eval σ) β}
    (hf : ∀ w : World σ, w.Sound → known ≤ w.machine.heap.slots.size →
      CarefulPart w.machine.heap.slots.size (f w)) :
    CarefulPart known ((get : OptionT (Eval σ) (World σ)) >>= f) :=
  fun w hw hknown => hf w hw hknown w hw (Nat.le_refl _)

/-- Whichever branch is taken is careful, if both are. -/
theorem ite {p : Prop} [Decidable p] {y : OptionT (Eval σ) α} (hx : CarefulPart known x)
    (hy : CarefulPart known y) : CarefulPart known (if p then x else y) := by
  split
  · exact hx
  · exact hy

end CarefulPart

namespace Vm

/-- Recording an error puts a text into the history, and hands out no object. -/
theorem careful_record (error : Error) : Eval.Careful known (record error : Eval σ Error) := by
  refine Eval.Careful.bind ?_ fun _ => .pure trivial
  exact .books (fun _ => rfl) (fun _ => rfl) (fun _ => rfl) fun _ kind => by cases kind <;> rfl

/-- A refusal is recorded and returned, with no object in it. -/
theorem careful_fail (error : Error) : Checked.Careful known (fail error : Checked σ α) :=
  (Checked.Careful.lift (careful_record error)).bind fun error =>
    Eval.Careful.pure (a := Except.error (Failure.refused error)) trivial

/-- Resuming a parked panic ends the run, if there is one, and else does nothing. -/
theorem careful_resumeParked : Eval.Careful known (resumeParked : Eval σ Unit) := by
  refine Eval.Careful.insideWorld fun w _ _ => ?_
  split
  · exact .pure trivial
  · rename_i p _
    have hexit : Within w.machine.heap.slots.size (Exit.panic p) := trivial
    refine Eval.Careful.bind ?_ fun _ => .throw hexit
    exact .books (fun _ => rfl) (fun _ => rfl) (fun _ => rfl) fun _ kind => by cases kind <;> rfl

/-- Leaving a parked panic where it is touches no object. -/
theorem careful_overlook : Eval.Careful known (modify World.overlook : Eval σ PUnit) := by
  refine .change fun w hw _ => ?_
  unfold World.overlook
  split
  · exact hw.books (.refl _) rfl id fun {kind _} hrun => by cases kind <;> exact hrun
  · exact hw.passes

/-- A job done quietly is careful when what it works on is known. -/
theorem careful_quietly (hr : r.Sound) {task : Task} (htask : Within known task) :
    CarefulPart known (quietly r task) := by
  refine (CarefulPart.lift (careful_perform hr htask).protect).keep fun later _ result hresult => ?_
  cases result with
  | ok a => exact .pure hresult
  | error jump =>
      refine (CarefulPart.lift (.setPending (within_nil later))).bind fun _ => ?_
      exact (CarefulPart.lift careful_overlook).bind fun _ => Eval.Careful.pure within_none

/-- A name is put in the host's list of names. -/
theorem careful_learn (name : String) (id : SymbolId) :
    Eval.Careful known (modify fun w => { w with ids := w.ids.insert name id } : Eval σ PUnit) :=
  .books (fun _ => rfl) (fun _ => rfl) (fun _ => rfl) fun _ kind => by cases kind <;> rfl

/-- A name interned quietly gives an id and no object. -/
theorem careful_quietName (hr : r.Sound) (name : String) : CarefulPart known (quietName r name) := by
  refine CarefulPart.insideWorld fun w _ _ => ?_
  split
  · exact .pure trivial
  · refine (careful_quietly hr (within_of_eq_nil rfl)).bind fun id => ?_
    exact (CarefulPart.lift (careful_learn name id)).bind fun _ => .pure trivial

/-- Showing a known exception is careful. -/
theorem careful_shown (hr : r.Sound) {exception : Value} (hexception : Within known exception) :
    CarefulPart known (shown r exception) :=
  (careful_quietly hr (within_cons hexception (within_of_eq_nil rfl))).bind fun _ => .pure trivial

/-- Reading a known exception's backtrace is careful. -/
theorem careful_backtraceLines (hr : r.Sound) {exception : Value}
    (hexception : Within known exception) : CarefulPart known (backtraceLines r exception) := by
  refine (careful_quietName hr "backtrace").bind fun backtrace => ?_
  refine (careful_quietName hr "join").bind fun join => ?_
  refine (careful_quietly hr (within_cons hexception (within_of_eq_nil rfl))).keep
    fun later _ lines hlines => ?_
  have hlook : CarefulPart later (OptionT.lift machine : OptionT (Eval σ) Machine) := .lift .machine
  refine hlook.bind fun m => .ite ?_ (Eval.Careful.pure within_none)
  refine (CarefulPart.lift (.newText "\n")).keep fun last hlast separator hseparator => ?_
  have hcall : Within last (Task.call lines join [separator] false) :=
    within_cons (Handled.mono hlast hlines) (within_cons hseparator (within_of_eq_nil rfl))
  refine (careful_quietly hr hcall).keep fun _ _ joined hjoined => ?_
  exact (careful_quietly hr (within_cons hjoined (within_of_eq_nil rfl))).bind fun _ =>
    .pure fun _ _ => trivial

/-- Reporting a known exception gathers texts only, each of them careful. -/
theorem careful_report (hr : r.Sound) {exception : Value} (hexception : Within known exception) :
    Eval.Careful known (report r exception) :=
  Eval.Careful.bind (careful_shown hr hexception) fun _ =>
    Eval.Careful.bind (careful_backtraceLines hr hexception) fun _ => .pure trivial

/-- The error for a jump: the pending exception, which is described, is known. -/
theorem careful_surface (hr : r.Sound) (jump : Jump) : Eval.Careful known (surface r jump) := by
  intro w hw hknown
  have hexception := hw.machine.pending
  have hrest : Eval.Careful w.machine.heap.slots.size (do
      if w.machine.errinfo = Value.nil then
        resumeParked
        record (.jump jump.tag)
      else
        setPending Value.nil
        resumeParked
        record (.exception (← report r w.machine.errinfo)) : Eval σ Error) := by
    refine .ite (careful_resumeParked.bind fun _ => careful_record _) ?_
    refine (Eval.Careful.setPending (within_nil _)).bind fun _ => careful_resumeParked.bind fun _ => ?_
    exact (careful_report hr hexception).bind fun found => careful_record _
  exact hrest w hw (Nat.le_refl _)

/-! ### Tasks behind the barrier -/

/-- A careful step is careful behind the barrier, whether it ends in a value or a jump. -/
theorem careful_guarded {x : Eval σ α} (hx : Eval.Careful known x) :
    Checked.Careful known (guarded x) := by
  refine (Checked.Careful.lift (Eval.Careful.protect hx)).keep fun later _ result hresult => ?_
  cases result with
  | ok a => exact .pure hresult
  | error jump => exact Eval.Careful.pure (a := Except.error (Failure.exited jump)) hresult

/-- Attempting a job whose values are known gives a result that is known afterwards. -/
theorem careful_attempt (hr : r.Sound) {task : Task} (htask : Within known task) :
    Checked.Careful known (attempt r task) :=
  careful_guarded (careful_perform hr htask)

/-- Settling the outcome of a careful operation is careful: what is settled is texts. -/
theorem careful_settled (hr : r.Sound) {operation : Checked σ α}
    (hoperation : Checked.Careful known operation) : Eval.Careful known (settled r operation) := by
  refine Eval.Careful.keep hoperation fun later _ result hresult => ?_
  cases result with
  | ok a => exact .pure (a := Except.ok a) hresult
  | error failure =>
      cases failure with
      | refused error => exact .pure (a := Except.error error) trivial
      | exited jump =>
          exact (careful_surface hr jump).bind fun error => .pure (a := Except.error error) trivial

/-! ### Bringing the interpreter up, and taking it down -/

/-- Reading the start options leaves the heap's objects where they are. -/
theorem tends_options (m : Machine) (argv : List String) : m.Tends (m.options argv).2 := by
  unfold Machine.options
  split <;> exact ⟨.refl _, rfl, rfl⟩

/-- Starting up takes a sound world to a sound one, whatever becomes of the options. -/
theorem passes_of_started {info : BootInfo} {w w₁ : World σ} {result : Except Error Unit}
    (hw : w.Sound) (hstarted : Started info w result w₁) : w.Passes w₁ := by
  have hup : w.machine.Tends w.machine.setUp.2 := ⟨.refl _, rfl, rfl⟩
  cases hstarted with
  | refused => exact hw.tends hup
  | badArguments => exact hw.books hup rfl id fun hrun => World.callback_of_fillCallbacks hrun
  | ran =>
      exact hw.books (hup.trans (tends_options _ _)) rfl id fun hrun => World.callback_of_fillCallbacks hrun

/-- Setting up is careful, since it follows no value of the host's. -/
theorem careful_setup (info : BootInfo) : Checked.Careful known (setup info : Checked σ Bool) := by
  have hrecorded : ∀ {w : World σ} (error : Error), w.Sound → w.Passes (w.recorded error) :=
    fun error hw => hw.books (.refl _) rfl id fun {kind _} hrun => by cases kind <;> exact hrun
  have hstate : ∀ {w : World σ} (state : VmState), w.Sound → w.Passes { w with state } :=
    fun state hw => hw.books (.refl _) rfl id fun {kind _} hrun => by cases kind <;> exact hrun
  intro w hw hknown
  rw [setup_run_apply]
  cases w.state with
  | up => exact ⟨hw.passes, trivial⟩
  | failed error => exact ⟨hrecorded error hw, trivial⟩
  | cleanedUp => exact ⟨hrecorded _ hw, trivial⟩
  | unknown =>
      cases hrun : (start info).run w with
      | ok result w₁ =>
          have hpasses := passes_of_started hw (start_cases hrun).2
          cases result with
          | ok =>
              exact ⟨hpasses.trans (hstate _ hpasses.sound), trivial⟩
          | error error =>
              have hfailed := hstate (.failed error) hpasses.sound
              exact ⟨(hpasses.trans hfailed).trans (hrecorded error hfailed.sound), trivial⟩
      | error exit w₁ =>
          obtain ⟨-, p, rfl, rfl⟩ := start_error hrun
          exact ⟨hw.passes, trivial⟩

/-- Making sure of the setup is careful, from either side of it. -/
theorem careful_ensureSetup : Checked.Careful known (ensureSetup : Checked σ Unit) :=
  (careful_setup {}).bind fun _ => .pure trivial

/-- Cleaning up hands out nothing but a status. -/
theorem careful_cleanUp : Eval.Careful known (cleanUp : Eval σ Int) := by
  refine Eval.Careful.insideWorld fun w _ _ => ?_
  split
  · have hdown : Eval.Careful w.machine.heap.slots.size
        (onMachine fun m => m.cleanUp 0 : Eval σ Int) :=
      .onMachine fun m _ _ => ⟨⟨.refl _, rfl, rfl⟩, trivial⟩
    refine hdown.bind fun code => Eval.Careful.bind (.change fun v hv _ => ?_) fun _ => .pure trivial
    exact hv.books (.refl _) rfl (fun hbody => nomatch hbody) fun {kind _} hrun => by
      cases kind <;> exact hrun
  · exact .pure trivial

/-- Registering an honest callback is careful: it will run with what is known then. -/
theorem careful_register (kind : CallbackKind) {run : CallbackInput → Program σ .callback}
    (hrun : Henceforth known fun later input => (run input).Honest later) :
    Checked.Careful known (register kind (.custom run)) := by
  refine .insideWorld fun w _ hknown => ?_
  split
  · exact careful_fail _
  · refine .change (.change fun v hv hlater => ⟨?_, ?_⟩)
    · cases kind <;> exact .refl _
    · have hcallbacks : ∀ {other run'},
          (v.setCallback kind (.custom run)).callback other = some (.custom run') →
            Henceforth v.machine.heap.slots.size fun later input => (run' input).Honest later := by
        intro other run' hfound
        by_cases hsame : other = kind
        · subst hsame
          have hset : (v.setCallback other (.custom run)).callback other = some (.custom run) := by
            cases other <;> rfl
          rw [hset] at hfound
          cases hfound
          exact hrun.mono (Nat.le_trans hknown hlater)
        · have hother : (v.setCallback kind (.custom run)).callback other = v.callback other := by
            cases kind <;> cases other <;> first | rfl | exact absurd rfl hsame
          rw [hother] at hfound
          exact hv.callbacks hfound
      cases kind <;> exact ⟨hv.machine, hv.memory, hv.bodies, hcallbacks⟩

/-! ### Names, constants and calls -/

/-- Checking a name is careful: it looks at the text alone. -/
theorem careful_checkName (kind : IdentifierKind) (name : String) :
    Checked.Careful known (checkName kind name : Checked σ Unit) :=
  .ite (.pure trivial) (careful_fail _)

/-- Interning a name on the host's behalf is careful. -/
theorem careful_internedName (hr : r.Sound) (name : String) :
    Checked.Careful known (internedName r name) := by
  refine careful_ensureSetup.bind fun _ => .look fun w => ?_
  split
  · exact .pure trivial
  · refine (careful_checkName .symbol name).bind fun _ => ?_
    refine (careful_attempt hr (within_of_eq_nil rfl)).bind fun id => ?_
    exact (Checked.Careful.change (careful_learn name id)).bind fun _ => .pure trivial

/-- Checking and then interning a name is careful. -/
theorem careful_checkedName (hr : r.Sound) (kind : IdentifierKind) (name : String) :
    Checked.Careful known (checkedName r kind name) :=
  (careful_checkName kind name).bind fun _ => careful_internedName hr name

/-- `Object` is known from the start. -/
theorem careful_objectClass : Checked.Careful known (objectClass : Checked σ Value) :=
  careful_ensureSetup.bind fun _ => .coreClass .object

/-- A constant found from a known module is known from then on. -/
theorem careful_constantIn (hr : r.Sound) {module : Value} (hmodule : Within known module)
    (name : String) : Checked.Careful known (constantIn r module name) :=
  (careful_checkedName hr .constant name).bind fun _ =>
    careful_attempt hr (within_cons hmodule (within_of_eq_nil rfl))

/-- A constant found in a known module itself is known from then on. -/
theorem careful_constantAt (hr : r.Sound) {module : Value} (hmodule : Within known module)
    (name : String) : Checked.Careful known (constantAt r module name) :=
  (careful_checkedName hr .constant name).bind fun _ =>
    careful_attempt hr (within_cons hmodule (within_of_eq_nil rfl))

/-- Following a path of constants from `Object` stays within what is known. -/
theorem careful_constant (hr : r.Sound) (path : String) :
    Checked.Careful known (constant r path) := by
  have hpath : ∀ (names : List String) {later : Nat} {start : Value}, Within later start →
      Checked.Careful later (names.foldlM (constantIn r) start) := by
    intro names
    induction names with
    | nil => exact fun hstart => .pure hstart
    | cons name rest ih =>
        intro later start hstart
        rw [List.foldlM_cons]
        exact (careful_constantIn hr hstart name).keep fun _ _ _ hfound => ih hfound
  exact careful_objectClass.keep fun _ _ _ hstart => hpath (pathNames path) hstart

/-- A class variable of a known class is known, once it has been found. -/
theorem careful_classVar (hr : r.Sound) {cls : Value} (hcls : Within known cls) (name : String) :
    Checked.Careful known (classVar r cls name) :=
  (careful_checkedName hr .classVariable name).bind fun _ =>
    careful_attempt hr (within_cons hcls (within_of_eq_nil rfl))

/-- The limit on arguments concerns their number only. -/
theorem careful_checkCount (count : Nat) : Checked.Careful known (checkCount count : Checked σ Unit) :=
  .ite (careful_fail _) (.pure trivial)

/-- A call on known values gives a known result. -/
theorem careful_call (hr : r.Sound) {receiver : Value} (hreceiver : Within known receiver)
    (method : String) {args : List Value} (hargs : Within known args) :
    Checked.Careful known (call r receiver method args) :=
  (careful_checkedName hr .method method).bind fun _ => (careful_checkCount _).bind fun _ =>
    careful_attempt hr (within_cons hreceiver hargs)

/-- Interning the keywords keeps their values, which are known. -/
theorem careful_keywordIds (hr : r.Sound) {keywords : List (String × Value)}
    (hkeywords : Within known keywords) : Checked.Careful known (keywordIds r keywords) := by
  induction keywords with
  | nil => exact .pure (within_of_eq_nil rfl)
  | cons keyword rest ih =>
      refine (careful_internedName hr keyword.1).bind fun id => ?_
      refine (ih fun pair hpair => hkeywords pair (.tail keyword hpair)).keep fun later hle pairs hpairs => ?_
      exact .pure (within_cons ⟨trivial, Handled.mono hle (hkeywords keyword (.head rest)).2⟩ hpairs)

/-- A call with keywords is careful when receiver, arguments and keyword values are known. -/
theorem careful_callWithKeywords (hr : r.Sound) {receiver : Value}
    (hreceiver : Within known receiver) (method : String) {args : List Value}
    (hargs : Within known args) {keywords : List (String × Value)}
    (hkeywords : Within known keywords) :
    Checked.Careful known (callWithKeywords r receiver method args keywords) := by
  refine (careful_checkName .method method).bind fun _ => ?_
  split
  · exact careful_fail _
  · exact careful_call hr hreceiver method hargs
  · refine (careful_internedName hr method).bind fun id => ?_
    refine (careful_keywordIds hr hkeywords).keep fun later hle pairs hpairs => ?_
    have hvalues : Within later (Task.keywordHash pairs) := by
      intro v hv
      obtain ⟨pair, hpair, rfl⟩ := List.mem_map.mp hv
      exact (hpairs pair hpair).2
    refine (careful_attempt hr hvalues).keep fun last hlast hash hhash => ?_
    have hlater := Nat.le_trans hle hlast
    refine (careful_checkCount _).bind fun _ => careful_attempt hr ?_
    exact within_cons (Handled.mono hlater hreceiver)
      (within_append (Handled.mono hlater hargs) (within_cons hhash (within_of_eq_nil rfl)))

/-- A call with a block is careful when the block's body is honest about what it uses. -/
theorem careful_callWithBlock (hr : r.Sound) {receiver : Value} (hreceiver : Within known receiver)
    (method : String) {args : List Value} (hargs : Within known args) {body : Closure σ}
    (hbody : body.Honest known) :
    Checked.Careful known (callWithBlock r receiver method args body) := by
  refine (careful_checkedName hr .method method).bind fun id => (careful_checkCount _).bind fun _ => ?_
  refine .look fun w => ?_
  split
  · exact careful_guarded (careful_callWithClosure hr hreceiver id hargs hbody)
  · exact careful_fail _

/-- A call with a proc for its block is careful when the proc is known. -/
theorem careful_callWithProc (hr : r.Sound) {receiver : Value} (hreceiver : Within known receiver)
    (method : String) {args : List Value} (hargs : Within known args) {proc : Value}
    (hproc : Within known proc) :
    Checked.Careful known (callWithProc r receiver method args proc) :=
  (careful_checkedName hr .method method).bind fun _ => (careful_checkCount _).bind fun _ =>
    careful_attempt hr (within_cons hreceiver (within_cons hproc hargs))

/-- Calling a known proc with known arguments is careful. -/
theorem careful_callProc (hr : r.Sound) {proc : Value} (hproc : Within known proc)
    {args : List Value} (hargs : Within known args) {block : Option Value}
    (hblock : Within known block) : Checked.Careful known (callProc r proc args block) := by
  refine careful_ensureSetup.bind fun _ => (careful_checkCount _).bind fun _ => ?_
  have hvalue : Within known (block.getD Value.nil) := by
    cases block with
    | none => exact within_nil _
    | some block => exact hblock block rfl
  exact careful_attempt hr (within_cons hproc (within_cons hvalue hargs))

/-- A new exception is known from then on, under a class found by name. -/
theorem careful_newException (hr : r.Sound) (cls message : String) :
    Checked.Careful known (newException r cls message) :=
  (careful_constant hr cls).keep fun _ _ _ hcls =>
    (Checked.Careful.lift (.newText message)).keep fun _ hle _ hmessage =>
      careful_call hr (Handled.mono hle hcls) "new" (within_cons hmessage (within_of_eq_nil rfl))

/-- Loading a script is careful: a script can only name what it makes or what is known. -/
theorem careful_load (hr : r.Sound) (path : List UInt8) (wrap : Bool) :
    Checked.Careful known (load r path wrap) := by
  refine careful_ensureSetup.bind fun _ => ?_
  split
  · exact careful_fail _
  · refine (Checked.Careful.lift (.newString path)).keep fun _ _ script hscript => ?_
    exact (careful_attempt hr (within_cons hscript (within_of_eq_nil rfl))).bind fun _ => .pure trivial

/-! ### Roots and procs -/

/-- A new root is a number. -/
theorem careful_newRoot : Eval.Careful known (newRoot : Eval σ Nat) :=
  fun w hw _ => ⟨hw.books ⟨.refl _, rfl, rfl⟩ rfl id fun {kind _} hrun => by
    cases kind <;> exact hrun, trivial⟩

/-- Pinning a value gives a number back. -/
theorem careful_pin : Checked.Careful known (pin : Checked σ Nat) := by
  refine careful_ensureSetup.bind fun _ => (Checked.Careful.lift careful_newRoot).bind fun root => ?_
  refine Checked.Careful.bind (.change (.books ?_ ?_ ?_ ?_)) fun _ => .pure trivial
  · exact fun _ => rfl
  · exact fun _ => rfl
  · exact fun _ => rfl
  · exact fun _ kind => by cases kind <;> rfl

/-- Dropping a root hands out nothing. -/
theorem careful_unpin (root : Nat) : Eval.Careful known (unpin root : Eval σ Unit) := by
  have hboxes : Eval.Careful known
      (modify fun w => { w with boxes := w.boxes.erase root } : Eval σ PUnit) :=
    .books (fun _ => rfl) (fun _ => rfl) (fun _ => rfl) fun _ kind => by cases kind <;> rfl
  have hroots : Eval.Careful known
      (changeMachine fun m => { m with roots := m.roots.erase root } : Eval σ Unit) :=
    .changeOther (fun _ => rfl) (fun _ => rfl) fun _ => rfl
  refine Eval.Careful.insideWorld fun w _ hknown => .ite ?_ (.pure trivial)
  exact (hboxes.mono hknown).bind fun _ => .ite (hroots.mono hknown) (.pure trivial)

/-- A proc made from an honest body is known from then on. -/
theorem careful_newProc {body : Closure σ} (hbody : body.Honest known) :
    Checked.Careful known (newProc body) := by
  refine careful_ensureSetup.bind fun _ => .look fun w => ?_
  have hmade : Eval.Careful known
      (onMachine fun m => m.alloc CoreClass.procClass.value (.proc w.procs.size) : Eval σ Value) :=
    .onMachine fun m hm _ => ⟨.act (.alloc rfl (hm.core.within _) trivial), m.heap.knows_alloc _ _⟩
  refine (Checked.Careful.lift hmade).keep fun later hle proc hproc => ?_
  refine (Checked.Careful.lift careful_newRoot).bind fun root => ?_
  refine Checked.Careful.bind (.change (.change fun v hv hlater => ⟨.refl _, ?_⟩)) fun _ => .pure hproc
  refine ⟨hv.machine, hv.memory, fun {code found} hfound => ?_, fun {kind run} hrun => ?_⟩
  · rw [Array.getElem?_push] at hfound
    split at hfound
    · cases hfound
      exact Henceforth.mono hbody (Nat.le_trans hle hlater)
    · exact hv.bodies hfound
  · have hold : v.callback kind = some (.custom run) := by
      cases kind <;> exact hrun
    exact hv.callbacks hold

/-! ### Scalars -/

/-- Inspecting a known value gives a text. -/
theorem careful_inspect (hr : r.Sound) {v : Value} (hv : Within known v) :
    Checked.Careful known (inspect r v) :=
  careful_ensureSetup.bind fun _ =>
    (careful_attempt hr (within_cons hv (within_of_eq_nil rfl))).bind fun _ => .pure trivial

/-- Asking a known value for its text gives a text. -/
theorem careful_toText (hr : r.Sound) {v : Value} (hv : Within known v) :
    Checked.Careful known (toText r v) := by
  refine careful_ensureSetup.bind fun _ =>
    (careful_attempt hr (within_cons hv (within_of_eq_nil rfl))).bind fun bytes => ?_
  split
  · exact .pure trivial
  · exact careful_fail _

/-- Reading an unsigned word from a known value gives a number. -/
theorem careful_toUnsigned (hr : r.Sound) {v : Value} (hv : Within known v) :
    Checked.Careful known (toUnsigned r v) :=
  careful_ensureSetup.bind fun _ => careful_attempt hr (within_cons hv (within_of_eq_nil rfl))

/-- Reading a signed word from a known value gives a number. -/
theorem careful_toSigned (hr : r.Sound) {v : Value} (hv : Within known v) :
    Checked.Careful known (toSigned r v) :=
  careful_ensureSetup.bind fun _ => careful_attempt hr (within_cons hv (within_of_eq_nil rfl))

/-- Reading a double from a known value gives a number. -/
theorem careful_toDouble (hr : r.Sound) {v : Value} (hv : Within known v) :
    Checked.Careful known (toDouble r v) :=
  careful_ensureSetup.bind fun _ => careful_attempt hr (within_cons hv (within_of_eq_nil rfl))

/-- Checking that a number fits its type involves no object. -/
theorem careful_ensureHeld (type : IntType) (n : Int) :
    Checked.Careful known (ensureHeld type n : Checked σ Int) :=
  .ite (.pure trivial) (careful_fail _)

/-- Reading any integer type from a known value is careful. -/
theorem careful_readInt (hr : r.Sound) (type : IntType) {v : Value} (hv : Within known v) :
    Checked.Careful known (readInt r type v) :=
  .ite ((careful_toSigned hr hv).bind fun _ => careful_ensureHeld type _)
    ((careful_toUnsigned hr hv).bind fun _ => careful_ensureHeld type _)

/-- Reading a single-precision number is careful. -/
theorem careful_readSingle (hr : r.Sound) {v : Value} (hv : Within known v) :
    Checked.Careful known (readSingle r v) :=
  (careful_toDouble hr hv).bind fun _ => .ite (careful_fail _) (.pure trivial)

/-- Reading a boolean is careful. -/
theorem careful_readBool (hr : r.Sound) {v : Value} (hv : Within known v) :
    Checked.Careful known (readBool r v) := by
  refine .ite (.pure trivial) (.ite (.pure trivial) ?_)
  refine (Checked.Careful.lift (careful_settled hr (careful_inspect hr hv))).bind fun result => ?_
  split <;> exact careful_fail _

/-- Writing a datum gives a value that is known, new or within the datum. -/
theorem careful_write {datum : Datum} (hdatum : Within known datum) :
    Checked.Careful known (write datum : Checked σ Value) :=
  careful_ensureSetup.bind fun _ => .lift (.make hdatum)

/-- A boolean is written as one of two immediate values. -/
theorem careful_writeBool (b : Bool) : Checked.Careful known (writeBool b : Checked σ Value) :=
  careful_ensureSetup.bind fun _ => .pure (within_ofBool b _)

end Vm

/-! ### Answers -/

/-- Every operation on known values is careful, one case per operation. -/
theorem Operation.careful_answer (hr : r.Sound) {operation : Operation}
    (hoperation : Within known operation) : Eval.Careful known (operation.answer r) := by
  have hvalues : ∀ v ∈ operation.values, Within known v := hoperation
  have hoption : ∀ {γ : Type} [Handled γ] {x : Checked σ γ}, Checked.Careful known x →
      Eval.Careful known (do return (← Vm.settled r x).toOption : Eval σ (Option γ)) := by
    intro γ _ x hx
    refine (Vm.careful_settled hr hx).keep fun later _ result hresult => .pure ?_
    cases result with
    | ok a => exact within_some hresult
    | error error => exact within_none
  cases operation with
  | setup info => exact Vm.careful_settled hr (Vm.careful_setup info)
  | cleanUp => exact Vm.careful_cleanUp
  | state => exact .insideWorld fun _ _ _ => .pure trivial
  | errors => exact .insideWorld fun _ _ _ => .pure fun _ _ => trivial
  | mostRecentError => exact .insideWorld fun _ _ _ => .pure fun _ _ => trivial
  | clearErrors =>
      exact .books (fun _ => rfl) (fun _ => rfl) (fun _ => rfl) fun _ kind => by cases kind <;> rfl
  | raise error => exact Vm.careful_record error
  | version | description =>
      exact Vm.careful_settled hr (Vm.careful_ensureSetup.bind fun _ => .pure trivial)
  | objectClass => exact Vm.careful_settled hr Vm.careful_objectClass
  | internedName name => exact Vm.careful_settled hr (Vm.careful_internedName hr name)
  | load path wrap => exact Vm.careful_settled hr (Vm.careful_load hr path wrap)
  | constant path => exact Vm.careful_settled hr (Vm.careful_constant hr path)
  | constantIn module name =>
      exact Vm.careful_settled hr (Vm.careful_constantIn hr (hvalues _ (.head _)) name)
  | constantAt module name =>
      exact Vm.careful_settled hr (Vm.careful_constantAt hr (hvalues _ (.head _)) name)
  | classVar cls name =>
      exact Vm.careful_settled hr (Vm.careful_classVar hr (hvalues _ (.head _)) name)
  | call receiver method args =>
      have hargs : Within known args := fun v hv => hvalues v (.tail _ hv)
      exact Vm.careful_settled hr (Vm.careful_call hr (hvalues _ (.head _)) method hargs)
  | callWithKeywords receiver method args keywords =>
      have hargs : Within known args := fun v hv => hvalues v (.tail _ (List.mem_append_left _ hv))
      have hkeywords : Within known keywords := fun pair hpair =>
        ⟨trivial, hvalues _ (.tail _ (List.mem_append_right _ (List.mem_map_of_mem hpair)))⟩
      exact Vm.careful_settled hr
        (Vm.careful_callWithKeywords hr (hvalues _ (.head _)) method hargs hkeywords)
  | callWithProc receiver method args proc =>
      have hargs : Within known args := fun v hv => hvalues v (.tail _ (.tail _ hv))
      exact Vm.careful_settled hr (Vm.careful_callWithProc hr (hvalues _ (.head _)) method hargs
        (hvalues _ (.tail _ (.head _))))
  | callProc proc args block =>
      have hargs : Within known args := fun v hv => hvalues v (.tail _ (List.mem_append_right _ hv))
      have hblock : Within known block := fun v hv =>
        hvalues v (.tail _ (List.mem_append_left _ (Option.mem_toList.mpr hv)))
      exact Vm.careful_settled hr (Vm.careful_callProc hr (hvalues _ (.head _)) hargs hblock)
  | newException cls message => exact Vm.careful_settled hr (Vm.careful_newException hr cls message)
  | inspect v => exact Vm.careful_settled hr (Vm.careful_inspect hr (hvalues v (.head _)))
  | toText v => exact Vm.careful_settled hr (Vm.careful_toText hr (hvalues v (.head _)))
  | toUnsigned v => exact Vm.careful_settled hr (Vm.careful_toUnsigned hr (hvalues v (.head _)))
  | toSigned v => exact Vm.careful_settled hr (Vm.careful_toSigned hr (hvalues v (.head _)))
  | toDouble v => exact Vm.careful_settled hr (Vm.careful_toDouble hr (hvalues v (.head _)))
  | readInt type v => exact hoption (Vm.careful_readInt hr type (hvalues v (.head _)))
  | readDouble v => exact hoption (Vm.careful_toDouble hr (hvalues v (.head _)))
  | readSingle v => exact hoption (Vm.careful_readSingle hr (hvalues v (.head _)))
  | readBool v => exact hoption (Vm.careful_readBool hr (hvalues v (.head _)))
  | readText v => exact hoption (Vm.careful_toText hr (hvalues v (.head _)))
  | writeInt _ n | writeDouble number | writeSingle number | writeText text =>
      exact Vm.careful_settled hr (Vm.careful_write trivial)
  | writeBool b => exact Vm.careful_settled hr (Vm.careful_writeBool b)
  | pin v => exact Vm.careful_settled hr Vm.careful_pin
  | unpin root => exact Vm.careful_unpin root

/-- A method of the host's that makes up no handles is put among the methods. -/
theorem careful_define (cls : Value) (name : String) {body : Invocation → Routine}
    (hbody : Henceforth known fun later invocation => (body invocation).Honest later) :
    Eval.Careful known (changeMachine fun m => m.define cls name (.routine body) : Eval σ Unit) := by
  intro w hw hknown
  refine ⟨hw.withMachine ⟨hw.machine.closed, hw.machine.core, hw.machine.pending, ?_⟩ (.refl _),
    trivial⟩
  intro key other hother
  let id := (w.machine.intern name).1
  have hfound : (w.machine.methods.insert (cls, id) (.routine body)).get? key =
      some (.routine other) := hother
  by_cases hsame : key = (cls, id)
  · rw [hsame, Table.get?_insert_self] at hfound
    cases hfound
    exact hbody.mono hknown
  · rw [Table.get?_insert_of_ne _ _ hsame] at hfound
    exact hw.machine.routines hfound

/-- Every probe that keeps to what is known gives an answer that is known. -/
theorem Probe.careful_answer (hr : r.Sound) {probe : Probe} (hprobe : probe.Honest known) :
    Eval.Careful known (probe.answer r) := by
  cases probe with
  | make datum => exact .make hprobe
  | typeOf value => exact .look fun _ => .pure trivial
  | pending => exact .inside fun m hm _ => .pure hm.pending
  | setPending value => exact .setPending hprobe
  | attempt task =>
      refine (careful_perform hr hprobe).protect.keep fun later _ result hresult => .pure ?_
      cases result with
      | ok a => exact hresult
      | error jump => trivial
  | counts => exact .insideWorld fun _ _ _ => .pure trivial
  | takePrinted =>
      have hprinted : Eval.Careful known
          (onMachine fun m => (m.output, { m with printed := [] }) : Eval σ String) :=
        .onMachine fun m _ _ => ⟨⟨.refl _, rfl, rfl⟩, trivial⟩
      exact hprinted
  | options argv =>
      have htaken : Eval.Careful known (onMachine fun m => m.options argv : Eval σ Bool) :=
        .onMachine fun m _ _ => ⟨Vm.tends_options m argv, trivial⟩
      exact htaken
  | define cls name body => exact careful_define cls name hprobe
  | internedName name => exact .intern name

end EmbeddedRuby
