import EmbeddedRuby.Proofs.OwnMethods

/-!
# The host asks for each name once

The host keeps the number of each name that it has asked for and does not ask again.  Others give
numbers to names too, scripts and methods among them, but what they do is not counted.  So as long as
the host goes by operations, the count of the names that were asked for is the number of names that
the host knows.

A run is taken as a sequence of **turns** (`World.Turn`): changes in which nothing is counted, or one
name is, which the host did not know and knows from then on.  What each turn keeps is said by
`World.NamesCached`.

The main statement is `World.names_cached`.
-/

namespace EmbeddedRuby

open Eval

/-- Where a key has no entry there is nothing to take away. -/
theorem Table.filter_of_get?_none {κ α : Type} [DecidableEq κ] {t : Table κ α} {key : κ}
    (h : t.get? key = none) : t.entries.filter (fun entry => entry.1 != key) = t.entries := by
  rw [List.filter_eq_self]
  intro entry hentry
  unfold get? at h
  rw [Option.map_eq_none_iff, List.find?_eq_none] at h
  have hother := h entry hentry
  simpa using hother

/-- Giving an exception a backtrace asks for no name. -/
theorem Machine.fillBacktrace_internCalls (m : Machine) (exception : Value) :
    (m.fillBacktrace exception).internCalls = m.internCalls := by
  unfold fillBacktrace
  split
  · split
    · exact (Machine.Works.backtrace m).internCalls
    · rfl
  · rfl

variable {σ : Type}

namespace World

variable {w w' v u : World σ}

/-! ### Turns -/

/-- A change in a run that uses operations only: nothing is counted, or one name is, which the host
learns with it. -/
structure Turn (w w' : World σ) : Prop where
  change : w.Change NoProbes w'
  counted : w'.machine.internCalls = w.machine.internCalls ∨
    ∃ name, w.ids.get? name = none ∧ Vm.isName .symbol name = true ∧ w' = w.learn name

/-- Any number of turns. -/
abbrev Turns : World σ → World σ → Prop :=
  Relation.ReflTransGen Turn

/-- A sequence of turns is a run. -/
theorem Turns.reaches (h : w.Turns w') : w.Reaches NoProbes w' := by
  induction h with
  | refl => exact .refl
  | tail _ last ih => exact ih.tail last.change

/-- A change in which nothing is counted is a turn. -/
theorem Turn.uncounted (change : w.Change NoProbes w')
    (hsame : w'.machine.internCalls = w.machine.internCalls) : w.Turns w' :=
  .single ⟨change, .inl hsame⟩

/-- The host has no code that does more than ask for operations, and methods of the host's ask for no
names that are counted. -/
structure OperationsOnly (w : World σ) : Prop where
  code : w.HostCode NoProbes
  methods : ∀ key body, w.machine.methods.get? key = some (.routine body) →
    ∀ invocation, (body invocation).Within Task.IsUncounted

/-- No operation defines a method. -/
theorem Change.methods_eq (h : w.Change NoProbes w') : w'.machine.methods = w.machine.methods := by
  cases h with
  | step h => exact h.methods_eq
  | register => rw [setCallback_machine]
  | probe hprobe => exact hprobe.elim
  | raising fault =>
      have hkept := Machine.Steps.methods_eq (w.machine.newException_steps fault)
      exact hkept
  | @raisingObject exception => exact w.machine.fillBacktrace_methods exception
  | overlook => rw [overlook_machine]
  | addProc | restack | withoutPending | park | resume => rfl

/-- The host goes by operations at the end of any number of turns. -/
theorem OperationsOnly.turns (h : w.Turns w') (hw : w.OperationsOnly) : w'.OperationsOnly := by
  induction h with
  | refl => exact hw
  | tail _ last ih =>
      refine ⟨last.change.hostCode ih.code, ?_⟩
      rw [last.change.methods_eq]
      exact ih.methods

/-! ### Runs as sequences of turns -/

/-- The account by which a run is a sequence of turns, from worlds in which the host goes by
operations. -/
def turnAccount : Account σ :=
  fun w _ w' => w.OperationsOnly → w.Turns w'

/-- Steps that count nothing as a whole count nothing one by one. -/
theorem turns_deeds {m : Machine} (h : w.machine.Deeds m) : w.Turns { w with machine := m } := by
  suffices hall : ∀ {m₁ : Machine}, w.machine.Steps m₁ →
      m₁.internCalls = w.machine.internCalls → w.Turns { w with machine := m₁ } from
    hall h.steps h.internCalls
  intro m₁ hsteps
  induction hsteps with
  | refl => exact fun _ => .refl
  | @tail m₁ m₂ before last ih =>
      intro hcalls
      have hfirst := (Machine.Steps.countsUp before).internCalls
      have hlast := last.countsUp.internCalls
      have hbefore : w.Turns { w with machine := m₁ } := ih (by omega)
      have hsame : m₂.internCalls = m₁.internCalls := by omega
      exact hbefore.tail ⟨.step (.machine _ last), .inl hsame⟩

/-- The stacks may be anything; no name is counted. -/
theorem turns_restack (w : World σ) (frames : List Frame) (yields : List (Option Nat)) :
    w.Turns (w.onMachine fun m => { m with frames, yields }) :=
  Turn.uncounted (.restack w frames yields) rfl

/-- The stacks are cut back after an exit, and nothing is pending any more. -/
theorem turns_afterExit (w w₁ : World σ) : w₁.Turns (w₁.restored w).withoutPending :=
  (turns_restack w₁ _ _).trans (Turn.uncounted (.withoutPending _) rfl)

/-- Raising for a fault makes an exception, and no name is counted. -/
theorem turns_raising (w : World σ) (fault : Fault) : w.Turns (w.raising fault) :=
  Turn.uncounted (.raising w fault) (Machine.Works.newException w.machine fault).internCalls

/-- What the interpreter does by itself comes to turns: it asks for no name on the host's behalf. -/
theorem turn_rules : (turnAccount : Account σ).Rules where
  done _ _ := .refl
  seq hfirst hrest hw := (hfirst hw).trans (hrest (hw.turns (hfirst hw)))
  works _ _ h _ := turns_deeds h.toDeeds
  raise w fault _ := turns_raising w fault
  raiseObject w exception hexception _ :=
    Turn.uncounted (.raisingObject hexception) (w.machine.fillBacktrace_internCalls exception)
  breakOut _ _ _ := .refl
  crash _ _ _ := .refl
  exhausted _ _ := .refl
  iterate {_ w₁ _ _} hinner hw := (hinner hw).trans (turns_restack w₁ _ _)

/-- Blocks come to turns, as what runs in them goes by operations. -/
theorem turn_blockRules : (turnAccount : Account σ).BlockRules where
  toRules := turn_rules
  block {w w₁ _} hinner hw := by
    have hentered : w.Turns w₁ :=
      (turns_restack w _ _).trans (hinner (hw.turns (turns_restack w _ _)))
    exact hentered.trans (turns_restack w₁ _ _)
  blockLeft {w _ _ _} hinner _ hw :=
    (turns_restack w _ _).trans (hinner (hw.turns (turns_restack w _ _)))
  callback {_ w₁ p} hinner hw :=
    (hinner hw).trans ((Turn.uncounted (.park w₁ p) rfl).trans (turns_raising _ _))

/-- Operations come to turns: a name that one of them asks for is learned at once. -/
theorem turn_operationRules :
    (turnAccount : Account σ).OperationRules (Closure.Uses NoProbes) where
  toBlockRules := turn_blockRules
  setup {w w₁ info result} hunknown hstart _ := by
    refine Turn.uncounted (.step (.setup hunknown hstart)) ?_
    cases (Vm.start_cases hstart).2 with
    | refused | badArguments => rfl
    | @ran arguments => exact w.machine.setUp.2.options_internCalls arguments
  learn {_ name} hnew hasked hlegal _ :=
    .single ⟨.step (.learn _ hnew hasked), .inr ⟨name, hnew, hlegal, rfl⟩⟩
  boxed hup _ := Turn.uncounted (.step (.boxed hup)) rfl
  addProc hup hbody _ := Turn.uncounted (.addProc hup hbody) rfl
  settled {w w₁ _} hinner _ hw := (hinner hw).trans (turns_afterExit w w₁)
  resumed {w w₁ _ p} hinner _ hw := by
    have hcleared := (hinner hw).trans (turns_afterExit w w₁)
    exact hcleared.trans (Turn.uncounted (.resume _ p) rfl)
  quiet {w w₁ _} hinner hw := by
    have hcleared := (hinner hw).trans (turns_afterExit w w₁)
    refine hcleared.trans (Turn.uncounted (.overlook _) ?_)
    exact congrArg Machine.internCalls (overlook_machine _)

/-- Programs without probes come to turns. -/
theorem turn_programRules : (turnAccount : Account σ).ProgramRules NoProbes where
  toOperationRules := turn_operationRules
  record w error _ := Turn.uncounted (.step (.record w error)) rfl
  clearErrors w _ := Turn.uncounted (.step (.clearErrors w)) rfl
  remember w memory _ := Turn.uncounted (.step (.remember w memory)) rfl
  unboxed w _ hheld _ := Turn.uncounted (.step (.unboxed w hheld)) rfl
  cleanUp hup _ := Turn.uncounted (.step (.cleanUp _ hup)) rfl
  register {w kind run} hempty hrun _ :=
    Turn.uncounted (.register hempty hrun)
      (congrArg Machine.internCalls (w.setCallback_machine kind (.custom run)))
  caught hinner hw := hinner hw
  probe hprobe _ := hprobe.elim
  counted hprobe _ := hprobe.elim
  attempted hprobe _ := hprobe.elim

end World

variable {r : Reentry σ}

/-- A task in which no name is counted comes to turns. -/
theorem turns_perform (hr : r.ToldBy World.turnAccount (Closure.Uses NoProbes)) (task : Task)
    (htask : task.IsUncounted) : ToldBy World.turnAccount (perform r task) := by
  have hframes : (World.turnAccount : Account σ).LetsFramesChange := fun w frames _ =>
    World.turns_restack w frames _
  have hordinary : World.turnAccount.TellsOrdinary r := World.turn_blockRules.ordinary hr
  have hdefs : (World.turnAccount : Account σ).TellsDefinitions r :=
    .of_deeds World.turn_rules hordinary fun _ _ hdeeds _ => World.turns_deeds hdeeds
  have hload := World.turn_rules.loadObject hordinary hframes hdefs
  exact World.turn_rules.perform hordinary hload htask

/-- However deep calls are nested, they come to turns. -/
theorem Reentry.turns_ofFuel (fuel : Nat) :
    (Reentry.ofFuel fuel : Reentry σ).ToldBy World.turnAccount (Closure.Uses NoProbes) := by
  induction fuel with
  | zero => exact ⟨fun _ _ _ _ => .refl, fun _ _ _ => .refl⟩
  | succ fuel ih =>
      refine ⟨fun call hcall w hw => ?_, fun program hoffers hw => ?_⟩
      · refine World.turn_blockRules.dispatch ih hcall (turns_perform ih) ?_ hw
        intro cls body hfound invocation
        obtain ⟨module, -, hmethod⟩ := List.exists_of_findSome?_eq_some hfound
        exact hw.methods _ body hmethod invocation
      · have hrun := program.told_run World.turn_programRules ih (turns_perform ih)
          (hoffers.uses hw.code)
        exact hrun.told _ hw

/-- A program that uses operations only comes to turns. -/
theorem Program.turns_run (fuel : Nat) {role : Role} {program : Program σ role}
    (hprogram : program.Uses NoProbes) {w : World σ} (hw : w.OperationsOnly) :
    w.Turns (Outcome.world (program.run (.ofFuel fuel) w)) := by
  have hr := Reentry.turns_ofFuel fuel (σ := σ)
  exact (program.told_run World.turn_programRules hr (turns_perform hr) hprogram).told w hw

namespace World

variable {w w' v u : World σ}

/-! ### What the host knows -/

/-- The host knows the interpreter's own numbers, of names that may be interned and of each name
once; and before the interpreter was taken down, as many names were asked for as are known. -/
structure NamesCached (w : World σ) : Prop where
  agree : w.NamesAgree
  legal : ∀ name id, w.ids.get? name = some id → Vm.isName .symbol name = true
  nodup : (w.ids.entries.map Prod.fst).Nodup
  counted : w.state ≠ .cleanedUp → w.machine.internCalls = w.ids.entries.length

/-- A name that was not known is put before those that are. -/
theorem entries_learn {name : String} (hnew : w.ids.get? name = none) :
    (w.learn name).ids.entries = (name, (w.machine.intern name).1) :: w.ids.entries := by
  have hkept := Table.filter_of_get?_none hnew
  exact congrArg (List.cons _) hkept

/-- Learning a name that was not known keeps what the host knows in order. -/
theorem NamesCached.learn (hw : w.NamesCached) {name : String} (hnew : w.ids.get? name = none)
    (hlegal : Vm.isName .symbol name = true) : (w.learn name).NamesCached := by
  refine ⟨hw.agree.learn name, ?_, ?_, ?_⟩
  · intro other id hid
    by_cases hsame : other = name
    · exact hsame ▸ hlegal
    · rw [get?_learn_of_ne w hsame] at hid
      exact hw.legal other id hid
  · rw [entries_learn hnew, List.map_cons, List.nodup_cons]
    refine ⟨?_, hw.nodup⟩
    intro hmem
    obtain ⟨entry, hentry, hname⟩ := List.mem_map.mp hmem
    unfold Table.get? at hnew
    rw [Option.map_eq_none_iff, List.find?_eq_none] at hnew
    exact hnew entry hentry (by simpa using hname)
  · intro hstate
    have hcalls : (w.learn name).machine.internCalls = w.machine.internCalls + 1 := rfl
    rw [hcalls, entries_learn hnew, hw.counted hstate, List.length_cons]

/-- Where the host learns nothing, it is enough that nothing is counted. -/
theorem NamesCached.of_ids (hw : w.NamesCached) (hids : w'.ids = w.ids) (hagree : w'.NamesAgree)
    (hcalls : w'.machine.internCalls = w.machine.internCalls)
    (hstate : w'.state ≠ .cleanedUp → w.state ≠ .cleanedUp) : w'.NamesCached := by
  refine ⟨hagree, ?_, ?_, fun hup => ?_⟩
  · rw [hids]
    exact hw.legal
  · rw [hids]
    exact hw.nodup
  · rw [hids, hcalls, hw.counted (hstate hup)]

/-- Where nobody has asked for a name, all is in order. -/
theorem namesCached_of_unasked (hids : w.ids = {}) (hcalls : w.machine.internCalls = 0) :
    w.NamesCached := by
  have hunknown : ∀ name, w.ids.get? name = none := fun _ => hids ▸ rfl
  refine ⟨fun name id hid => ?_, fun name id hid => ?_, ?_, fun _ => ?_⟩
  · rw [hunknown] at hid
    cases hid
  · rw [hunknown] at hid
    cases hid
  · rw [hids]
    exact List.nodup_nil
  · rw [hids, hcalls]
    rfl

/-- **Each turn keeps what the host knows in order.** -/
theorem Turn.namesCached (h : w.Turn w') (hw : w.NamesCached) : w'.NamesCached := by
  obtain ⟨hchange, hcalls | ⟨name, hnew, hlegal, rfl⟩⟩ := h
  · have hagree : w'.NamesAgree := hchange.namesAgree hw.agree
    cases hchange.host with
    | same hsame => exact hw.of_ids hsame.ids hagree hcalls fun hup => hsame.state ▸ hup
    | @learn name _ _ heq =>
        subst heq
        have hcounted : (w.learn name).machine.internCalls = w.machine.internCalls + 1 := rfl
        omega
    | addProc _ heq =>
        subst heq
        exact hw.of_ids rfl hagree hcalls id
    | @register kind run _ _ heq =>
        subst heq
        refine hw.of_ids (w.setCallback_ids kind _) hagree hcalls fun hup => ?_
        rwa [setCallback_state] at hup
    | setup hunknown hstart heq =>
        subst heq
        refine hw.of_ids ?_ hagree hcalls fun _ => ?_
        · cases (Vm.start_cases hstart).2 <;> rfl
        · rw [hunknown]
          exact nofun
    | cleanUp _ heq =>
        subst heq
        refine ⟨hagree, ?_, List.nodup_nil, fun hup => absurd rfl hup⟩
        intro name id hid
        cases hid
  · exact hw.learn hnew hlegal

/-- So what the host knows is in order after any number of turns. -/
theorem Turns.namesCached (h : w.Turns w') (hw : w.NamesCached) : w'.NamesCached := by
  induction h with
  | refl => exact hw
  | tail _ last ih => exact last.namesCached ih

/-! ### What the host is told -/

/-- A number that the host knows it knows as long as the interpreter is not taken down. -/
theorem Change.id_kept {P : Probe → Prop} {name : String} {id : SymbolId} (h : w.Change P w')
    (hstate : w'.state ≠ .cleanedUp) (hid : w.ids.get? name = some id) :
    w'.ids.get? name = some id := by
  cases h.host with
  | same hsame => exact hsame.ids ▸ hid
  | @learn other hnew _ heq =>
      subst heq
      have hother : name ≠ other := by
        rintro rfl
        rw [hnew] at hid
        cases hid
      rwa [get?_learn_of_ne w hother]
  | addProc _ heq =>
      subst heq
      exact hid
  | @register kind run _ _ heq =>
      subst heq
      rwa [setCallback_ids]
  | setup hunknown hstart heq =>
      subst heq
      cases (Vm.start_cases hstart).2 <;> exact hid
  | cleanUp _ heq =>
      subst heq
      exact absurd rfl hstate

/-- A number that was known is known until the interpreter is taken down. -/
theorem Turns.id_kept {name : String} {id : SymbolId} (h : w.Turns w')
    (hid : w.ids.get? name = some id) : w'.state ≠ .cleanedUp → w'.ids.get? name = some id := by
  induction h with
  | refl => exact fun _ => hid
  | tail _ last ih =>
      exact fun hstate => last.change.id_kept hstate (ih (last.change.not_cleanedUp hstate))

/-- Names without NUL can be interned. -/
theorem isName_symbol_iff (name : String) :
    Vm.isName .symbol name = true ↔ '\x00' ∉ name.toList := by
  simp [Vm.isName]

/-- While the interpreter is up the host is told the number of a name, and knows it from then on. -/
theorem settled_internedName {r : Reentry σ} {name : String} (hname : '\x00' ∉ name.toList)
    (hup : w.state = .up) :
    Vm.settled r (Vm.internedName r name) w = .ok (.ok (w.idOf name)) (w.knowing name) := by
  rw [Vm.settled_apply, Vm.internedName_run_of_up ((isName_symbol_iff name).mpr hname) hup]

/-- A name with a NUL is refused, and nothing is done but that this goes into the history. -/
theorem settled_internedName_nul {r : Reentry σ} {name : String} (hw : w.NamesCached)
    (hname : '\x00' ∈ name.toList) (hup : w.state = .up) :
    Vm.settled r (Vm.internedName r name) w =
      .ok (.error (.badIdentifier .symbol name)) (w.recorded (.badIdentifier .symbol name)) := by
  have hillegal : ¬Vm.isName .symbol name = true := fun hlegal =>
    (isName_symbol_iff name).mp hlegal hname
  have hunknown : w.ids.get? name = none := by
    cases hid : w.ids.get? name with
    | none => rfl
    | some id => exact absurd (hw.legal name id hid) hillegal
  rw [Vm.settled_apply]
  unfold Vm.internedName Vm.checkName
  rw [run_bind_apply, Vm.ensureSetup_run_of_up hup]
  simp only
  rw [run_get_bind_apply, hunknown, if_neg hillegal]
  rfl

/-- The host knows the name that it has just asked for. -/
theorem get?_knowing (w : World σ) (name : String) :
    (w.knowing name).ids.get? name = some (w.idOf name) := by
  unfold knowing idOf
  cases hid : w.ids.get? name with
  | some id => exact hid
  | none => exact Table.get?_insert_self _ _ _

/-- The number of a name that is known is the one that is known. -/
theorem idOf_of_known {name : String} {id : SymbolId} (hid : w.ids.get? name = some id) :
    w.idOf name = id := by
  unfold idOf
  rw [hid]
  rfl

/-- Asking for a name that is known changes nothing. -/
theorem knowing_of_known {name : String} {id : SymbolId} (hid : w.ids.get? name = some id) :
    w.knowing name = w := by
  unfold knowing
  rw [hid]
  exact if_pos rfl

/-- Getting to know a name does not concern the life of the interpreter. -/
theorem knowing_state (w : World σ) (name : String) : (w.knowing name).state = w.state := by
  unfold knowing
  split <;> rfl

/-- Getting to know the numbers of names does nothing to objects, and the names keep the numbers that
they had. -/
theorem knowings_kept (names : List String) (w : World σ) :
    w.machine.Steps (names.foldl knowing w).machine ∧
      (names.foldl knowing w).machine.heap = w.machine.heap ∧
      (names.foldl knowing w).state = w.state := by
  induction names generalizing w with
  | nil => exact ⟨.refl, rfl, rfl⟩
  | cons name rest ih =>
      obtain ⟨hsteps, hheap, hstate⟩ := ih (w.knowing name)
      exact ⟨(w.knowing_steps name).trans hsteps, hheap.trans (w.knowing_heap name),
        hstate.trans (w.knowing_state name)⟩

/-- Names that agree go on agreeing as the host gets to know more. -/
theorem NamesAgree.knowings (hw : w.NamesAgree) (names : List String) :
    (names.foldl World.knowing w).NamesAgree := by
  induction names generalizing w with
  | nil => exact hw
  | cons name rest ih => exact ih (hw.knowing name)

/-- Getting to know a name is one turn, or none if it is known. -/
theorem turns_knowing {name : String} (hname : '\x00' ∉ name.toList) (hup : w.state = .up) :
    w.Turns (w.knowing name) := by
  unfold knowing
  cases hid : w.ids.get? name with
  | some id => exact .refl
  | none =>
      have hlegal := (isName_symbol_iff name).mpr hname
      exact .single ⟨.step (.learn w hid (.inl hup)), .inr ⟨name, hid, hlegal, rfl⟩⟩

/-- Different names have different numbers. -/
theorem NamesCached.injective (hw : w.NamesCached) {name other : String} {id : SymbolId}
    (hname : w.ids.get? name = some id) (hother : w.ids.get? other = some id) : other = name := by
  have hback := SymbolTable.name_of_find? (hw.agree name id hname)
  have hotherBack := SymbolTable.name_of_find? (hw.agree other id hother)
  exact hotherBack.symm.trans hback

/-- Where the host knows the number of one name, it is told that number for no other. -/
theorem NamesCached.idOf_eq_iff (hw : w.NamesCached) (hup : w.state = .up) {name other : String}
    {id : SymbolId} (hid : w.ids.get? name = some id) (hother : '\x00' ∉ other.toList) :
    w.idOf other = id ↔ other = name := by
  constructor
  · intro hsame
    have hturns := turns_knowing hother hup
    have hstillKnown : (w.knowing other).ids.get? name = some id :=
      hturns.id_kept hid (by simp [knowing_state, hup])
    have hotherKnown := w.get?_knowing other
    rw [hsame] at hotherKnown
    exact (hturns.namesCached hw).injective hstillKnown hotherKnown
  · rintro rfl
    exact idOf_of_known hid

/-- **What the host knows of names.**  From a world in which nobody has asked for a name, where the
host goes by operations, every run is a sequence of turns.  At every moment of it at which the
interpreter is up:

* the numbers that the host knows are the interpreter's own, and as many names were asked for as it
  knows;
* a name with a NUL is refused, and nothing changes but the history;
* for any other name the host is told a number.  Whenever it asks for that name again while the
  interpreter is up it is told the same number, and nothing happens; and whenever it is told a number
  for any name, it is that number exactly if it is that name. -/
theorem names_cached (hids : w.ids = {}) (hcalls : w.machine.internCalls = 0)
    (hoperations : w.OperationsOnly) (hreached : w.Turns v) :
    (∀ (fuel : Nat) (role : Role) (program : Program σ role), program.Uses NoProbes →
      v.Turns (Outcome.world (program.run (.ofFuel fuel) v))) ∧
    (v.state = .up →
      (∀ name id, v.ids.get? name = some id → v.machine.symbols.find? name = some id) ∧
      (v.ids.entries.map Prod.fst).Nodup ∧
      v.machine.internCalls = v.ids.entries.length ∧
      ∀ (r : Reentry σ) (name : String),
        let asked := Vm.settled r (Vm.internedName r name) v
        let refusal := Error.badIdentifier .symbol name
        if '\x00' ∈ name.toList then asked = .ok (.error refusal) (v.recorded refusal)
        else ∃ id v', asked = .ok (.ok id) v' ∧ v.Turns v' ∧
          ∀ u, v'.Turns u → u.state = .up →
            Vm.settled r (Vm.internedName r name) u = .ok (.ok id) u ∧
            ∀ other otherId u', Vm.settled r (Vm.internedName r other) u = .ok (.ok otherId) u' →
              (otherId = id ↔ other = name)) := by
  have hcached : v.NamesCached := hreached.namesCached (namesCached_of_unasked hids hcalls)
  refine ⟨fun fuel role program huses => ?_, fun hup => ?_⟩
  · exact program.turns_run fuel huses (hoperations.turns hreached)
  have hnotDown : v.state ≠ .cleanedUp := by simp [hup]
  refine ⟨hcached.agree, hcached.nodup, hcached.counted hnotDown, fun r name => ?_⟩
  intro asked refusal
  split
  · rename_i hnul
    exact settled_internedName_nul hcached hnul hup
  · rename_i hname
    have hasked : v.Turns (v.knowing name) := turns_knowing hname hup
    refine ⟨v.idOf name, v.knowing name, settled_internedName hname hup, hasked, ?_⟩
    intro u hlater huup
    have hcachedLater : u.NamesCached := Turns.namesCached (hasked.trans hlater) hcached
    have hknown : u.ids.get? name = some (v.idOf name) :=
      hlater.id_kept (v.get?_knowing name) (by simp [huup])
    refine ⟨?_, fun other otherId u' hother => ?_⟩
    · rw [settled_internedName hname huup, idOf_of_known hknown, knowing_of_known hknown]
    · by_cases hotherNul : '\x00' ∈ other.toList
      · rw [settled_internedName_nul hcachedLater hotherNul huup] at hother
        cases hother
      · rw [settled_internedName hotherNul huup] at hother
        cases hother
        exact hcachedLater.idOf_eq_iff huup hknown hotherNul

/-- Where there is no code of the host's at all, the host goes by operations. -/
theorem operationsOnly_bare : bare.OperationsOnly := by
  refine ⟨hostCode_bare, ?_⟩
  intro key body hbody
  cases hbody

/-- After a program has asked for a name one name was asked for, and is not asked for again; a name
with a NUL is refused. -/
theorem names_cached_asking :
    let program : Program Unit .main := .ask (.internedName "each") fun _ => .done ()
    let v := Outcome.world (program.run (.ofFuel 1) bare)
    let refusal := Error.badIdentifier .symbol "a\x00b"
    bare.Turns v ∧ v.machine.internCalls = 1 ∧ v.ids.entries.length = 1 ∧
      Vm.settled (.ofFuel 1) (Vm.internedName (.ofFuel 1) "a\x00b") v =
        .ok (.error refusal) (v.recorded refusal) ∧
      ∃ id v', Vm.settled (.ofFuel 1) (Vm.internedName (.ofFuel 1) "each") v = .ok (.ok id) v' ∧
        Vm.settled (.ofFuel 1) (Vm.internedName (.ofFuel 1) "each") v' = .ok (.ok id) v' := by
  intro program v refusal
  have hturns : bare.Turns v :=
    (names_cached rfl rfl operationsOnly_bare .refl).1 1 .main program fun _ => trivial
  have hup : v.state = .up := rfl
  obtain ⟨-, -, hcounted, hasked⟩ := (names_cached rfl rfl operationsOnly_bare hturns).2 hup
  have hnul := hasked (.ofFuel 1) "a\x00b"
  have heach := hasked (.ofFuel 1) "each"
  rw [if_pos (by decide)] at hnul
  rw [if_neg (by decide)] at heach
  obtain ⟨id, v', hfirst, -, hagain⟩ := heach
  have hknown : v' = v := by
    have hcomputed : Vm.settled (.ofFuel 1) (Vm.internedName (.ofFuel 1) "each") v =
        .ok (.ok (v.idOf "each")) v := rfl
    rw [hcomputed] at hfirst
    cases hfirst
    rfl
  subst hknown
  exact ⟨hturns, rfl, hcounted, hnul, id, v, hfirst, (hagain v .refl hup).1⟩

end World

end EmbeddedRuby
