import EmbeddedRuby.Proofs.Accounts.Basic
import EmbeddedRuby.Proofs.ReadNames

/-!
# Accounts of scripts and tasks

Scripts enter and leave their bodies, open modules and set constants, and do nothing besides that is
not composed of what the interpreter does.  So an account that lets the stack of script bodies change
at any time and tells of the definitions (`Account.TellsDefinitions`) tells of the running of scripts
(`Account.Rules.loadObject`), and thereby of all tasks but the one that is counted.
-/

namespace EmbeddedRuby

open Eval

variable {σ : Type} {S : Account σ} {r : Reentry σ}

/-- The task is not the one that is counted. -/
def Task.IsUncounted : Task → Prop
  | .intern _ => False
  | _ => True

/-- The account lets the stack of script bodies change. -/
def Account.LetsFramesChange (S : Account σ) : Prop :=
  ∀ (w : World σ) (frames : List Frame), S w .value (w.onMachine fun m => { m with frames })

/-- The account tells of the definitions that scripts make: of the modules that they open, under the
names that they can read, and of the constants that they set. -/
structure Account.TellsDefinitions (S : Account σ) (r : Reentry σ) : Prop where
  opens : ∀ (b : Bodies) {name : String} (path : Option (List (List Char))) (isClass : Bool),
    IsIdentifier name.toList → ToldBy S (Loader.openModule r b name path isClass)
  assigns : ∀ (w : World σ) (module : Value) (id : SymbolId) (value : Value),
    S w .value (w.onMachine fun m => m.setConstant module id value)

/-- A module that is opened is made by a few steps, if it is not there yet. -/
theorem Account.told_openModule (hS : S.Rules) (hordinary : S.TellsOrdinary r)
    (hdeeds : ∀ (w : World σ) {m : Machine}, w.machine.Deeds m → S w .value { w with machine := m })
    (b : Bodies) (name : String) (path : Option (List (List Char))) (isClass : Bool) :
    ToldBy S (Loader.openModule r b name path isClass) := by
  have hdefine : ∀ (w : World σ) (id : SymbolId) (superclass : Option Value),
      (∀ parent, superclass = some parent → w.machine.heap.IsClass parent) →
      ToldAt S (Loader.defineModule b.innermost id name superclass) w := by
    intro w id superclass hsuper
    have hmade : w.machine.Deeds
        (w.machine.newModule (some (w.machine.qualifiedName b.innermost name)) superclass).2 := by
      cases superclass with
      | none => exact .plainModule _ _
      | some parent => exact .named _ _ (hsuper parent rfl)
    exact hdeeds w (hmade.trans (.setConstant _ b.innermost id _))
  unfold Loader.openModule
  refine (hordinary (.intern name)).bind hS fun id => ?_
  dsimp only
  split
  case' h_1 path => refine (hordinary (Loader.composed_resolve b path)).bind hS fun _ => ?_
  all_goals
    refine (ToldBy.pure hS _).bind hS fun superclass w => .machine_bind ?_
    split
    · exact hordinary (Loader.composed_reopen _ _ _ _) w
    · split
      · refine .machine_bind ?_
        split
        · rename_i hclass
          exact hdefine w id _ fun parent hparent =>
            Option.some.inj hparent ▸ Heap.any_isClass_iff.mp hclass
        · exact hS.raise w _
      · exact hdefine w id none nofun

/-- Most accounts tell of definitions step by step. -/
theorem Account.TellsDefinitions.of_deeds (hS : S.Rules) (hordinary : S.TellsOrdinary r)
    (hdeeds : ∀ (w : World σ) {m : Machine}, w.machine.Deeds m →
      S w .value { w with machine := m }) : S.TellsDefinitions r where
  opens b name path isClass _ := told_openModule hS hordinary hdeeds b name path isClass
  assigns w module id value := hdeeds w (.setConstant w.machine module id value)

/-- Going on to another line concerns the stack of script bodies alone. -/
theorem Machine.setLine_eq (m : Machine) (line : Nat) :
    ∃ frames, m.setLine line = { m with frames } := by
  unfold setLine
  cases m.frames with
  | nil => exact ⟨m.frames, rfl⟩
  | cons frame rest => exact ⟨_, rfl⟩

/-! ### Statements -/

/-- What a statement does to the bodies that are open. -/
inductive BodyChange where
  | opens (label : String)
  | closes
  | keeps

/-- What the statement does to the bodies that are open.  A body has the name of its module in its
label. -/
def Statement.bodyChange : Statement → BodyChange
  | .openClass name _ => .opens s!"<class:{String.ofList name}>"
  | .openModule name => .opens s!"<module:{String.ofList name}>"
  | .close => .closes
  | .setConstant _ _ | .setClassVar _ _ | .raise _ _ | .puts _ | .p _ => .keeps

namespace Loader

/-- A `raise` statement never gives a value. -/
theorem raiseStatement_ne_ok {α : Type} {b : Bodies} {cls : Option (List (List Char))}
    {message : Option Literal} {w w' : World σ} {a : α} :
    raiseStatement r b cls message w ≠ .ok a w' := by
  intro h
  unfold raiseStatement at h
  dsimp only at h
  split at h
  case' h_1 => obtain ⟨_, _, _, h⟩ := bind_ok_iff.mp h
  all_goals
    obtain ⟨message, _, _, h⟩ := bind_ok_iff.mp h
    split at h
    · obtain ⟨_, _, _, h⟩ := bind_ok_iff.mp h
      obtain ⟨_, _, _, h⟩ := bind_ok_iff.mp h
      exact raiseObject_ne_ok h
    · obtain ⟨_, _, _, h⟩ := bind_ok_iff.mp h
      split at h
      · obtain ⟨_, _, _, h⟩ := bind_ok_iff.mp h
        exact raiseObject_ne_ok h
      · exact raise_ne_ok h
    · exact raise_ne_ok h

/-- How the statement finds or makes the module whose body it opens, if it opens one. -/
def opened? (r : Reentry σ) (b : Bodies) : Statement → Option (Eval σ Value)
  | .openClass name path => some (openModule r b (String.ofList name) path true)
  | .openModule name => some (openModule r b (String.ofList name) none false)
  | _ => none

/-- An account that tells of definitions tells of this. -/
theorem told_opened (hdefs : S.TellsDefinitions r) {b : Bodies} {statement : Statement}
    {action : Eval σ Value} (haction : opened? r b statement = some action)
    (hread : statement.NamesRead) : ToldBy S action := by
  cases statement with
  | openClass name path =>
      cases haction
      exact hdefs.opens b path true (String.toList_ofList ▸ hread.1)
  | openModule name =>
      cases haction
      exact hdefs.opens b none false (String.toList_ofList ▸ hread.1)
  | _ => cases haction

/-- The run gives the bodies that were open, if it gives a value. -/
def KeepsBodies (b : Bodies) (action : Eval σ Bodies) : Prop :=
  ∀ w b' w', action w = .ok b' w' → b' = b

namespace KeepsBodies

variable {b : Bodies}

/-- Giving the bodies that are open is giving them. -/
theorem pure (b : Bodies) : KeepsBodies b (return b : Eval σ Bodies) := by
  intro w b' w' h
  cases h
  rfl

/-- A run that raises gives no bodies at all. -/
theorem raise (fault : Fault) : KeepsBodies b (Eval.raise fault : Eval σ Bodies) :=
  fun _ _ _ h => absurd h raise_ne_ok

/-- A run gives the bodies that were open if its last part does. -/
theorem bind {α : Type} {x : Eval σ α} {f : α → Eval σ Bodies} (hf : ∀ a, KeepsBodies b (f a)) :
    KeepsBodies b (x >>= f) := by
  intro w b' w' h
  obtain ⟨a, w₁, -, hrest⟩ := bind_ok_iff.mp h
  exact hf a w₁ b' w' hrest

/-- A `raise` never comes to a value, so it gives no other bodies. -/
theorem raiseStatement (cls : Option (List (List Char))) (message : Option Literal) :
    KeepsBodies b (Loader.raiseStatement r b cls message) :=
  fun _ _ _ h => absurd h raiseStatement_ne_ok

end KeepsBodies

/-- How a statement that does this to the bodies is executed on its line.  Apart from what is done to
the stack of bodies, it is told of. -/
inductive Execution (S : Account σ) (file : String) (b : Bodies) (line : Nat) :
    BodyChange → Eval σ Bodies → Prop
  | opens (label : String) {opened : Eval σ Value} (htold : ToldBy S opened) :
      Execution S file b line (.opens label) (opened >>= enter b file label line)
  | closes : Execution S file b line .closes (leave b)
  | keeps {action : Eval σ Bodies} (htold : ToldBy S action) (hkept : KeepsBodies b action) :
      Execution S file b line .keeps action

end Loader

/-! ### Scripts -/

namespace Loader

/-- The label of the frame of a script's top level. -/
def topLabel : String := "<top (required)>"

/-- The module at the top of a script, and the machine in which the script is run. -/
def topOf (wrap : Bool) (m : Machine) : Value × Machine :=
  if wrap then m.newModule none none else (CoreClass.object.value, m)

/-- The module at the top of a script has no name. -/
theorem works_topOf (wrap : Bool) (m : Machine) : m.Works (topOf wrap m).2 := by
  cases wrap with
  | true => exact .anonymous m none
  | false => exact .refl m

/-- Run the statements of a script, with a frame for its top level. -/
def runScript (r : Reentry σ) (file : String) (top : Value)
    (statements : List (Nat × Statement)) : Eval σ Unit := do
  let depth := (← machine).frames.length
  changeMachine fun m => m.pushFrame file topLabel 0
  let _ ← statements.foldlM (runStatement r file) ⟨[top], []⟩
  changeMachine fun m => { m with frames := truncate depth m.frames }

/-- A script that is found and can be read is run. -/
theorem load_eq_runScript {path file : String} {text : List Char}
    {statements : List (Nat × Statement)} {w : World σ}
    (hfound : read? w.machine path = some (file, text))
    (hparsed : Source.parse text = .ok statements) (wrap : Bool) :
    load r path wrap w = runScript r file (topOf wrap w.machine).1 statements
      { w with machine := (topOf wrap w.machine).2 } := by
  unfold load
  rw [machine_bind_apply, hfound]
  dsimp only
  rw [hparsed]
  cases wrap <;> rfl

/-- Loading comes to one of two things: it is refused, or the statements of a script are run. -/
theorem loadObject_cases (r : Reentry σ) (path : Value) (wrap : Bool) (w : World σ) :
    (∃ fault, loadObject r path wrap w = Eval.raise fault w) ∨
    ∃ file top statements m, w.machine.Works m ∧ (∀ entry ∈ statements, entry.2.NamesRead) ∧
      loadObject r path wrap w = runScript r file top statements { w with machine := m } := by
  unfold loadObject
  rw [machine_bind_apply]
  cases w.machine.heap.bytes? path with
  | none => exact .inl ⟨_, rfl⟩
  | some bytes =>
      dsimp only
      cases hfound : read? w.machine (Utf8.stringLossy bytes) with
      | none =>
          refine .inl ⟨.cannotLoad (Utf8.stringLossy bytes), ?_⟩
          unfold load
          rw [machine_bind_apply, hfound]
      | some found =>
          obtain ⟨file, text⟩ := found
          cases hparsed : Source.parse text with
          | error e =>
              refine .inl ⟨.syntaxFault file e, ?_⟩
              unfold load
              rw [machine_bind_apply, hfound]
              dsimp only
              rw [hparsed]
          | ok statements =>
              exact .inr ⟨file, _, statements, _, works_topOf wrap w.machine,
                Source.namesRead_parse hparsed, load_eq_runScript hfound hparsed wrap⟩

end Loader

namespace Account.Rules

/-- Going on to another line changes the stack of script bodies. -/
theorem setLine (hframes : S.LetsFramesChange) (line : Nat) :
    ToldBy S (changeMachine fun m => m.setLine line : Eval σ PUnit) := by
  intro w
  obtain ⟨frames, heq⟩ := w.machine.setLine_eq line
  change S w .value { w with machine := w.machine.setLine line }
  rw [heq]
  exact hframes w frames

/-- Entering a body changes the stack of script bodies. -/
theorem enter (hS : S.Rules) (hframes : S.LetsFramesChange) (b : Bodies) (file label : String)
    (line : Nat) (module : Value) : ToldBy S (Loader.enter b file label line module) :=
  fun w => hS.seq (hframes w _) (hS.done _)

/-- Leaving a body changes the stack of script bodies. -/
theorem leave (hS : S.Rules) (hframes : S.LetsFramesChange) (b : Bodies) :
    ToldBy S (Loader.leave b : Eval σ Bodies) := by
  intro w
  unfold Loader.leave
  split
  · exact hS.seq (hframes w _) (hS.done _)
  · exact hS.done w

/-- A statement goes on to its line, and then it is executed. -/
theorem exists_execution (hS : S.Rules) (hordinary : S.TellsOrdinary r)
    (hdefs : S.TellsDefinitions r) (file : String) (b : Bodies) {entry : Nat × Statement}
    (hread : entry.2.NamesRead) :
    ∃ action, Loader.Execution S file b entry.1 entry.2.bodyChange action ∧
      Loader.runStatement r file b entry =
        (changeMachine fun m => m.setLine entry.1) >>= fun _ => action := by
  have part : ∀ {α : Type} {x : Eval σ α} {f : α → Eval σ Bodies},
      Composed r .none (fun _ => False) x → (∀ a, ToldBy S (f a)) → ToldBy S (x >>= f) :=
    fun hx hf => (hordinary hx).bind hS hf
  obtain ⟨line, statement⟩ := entry
  unfold Loader.runStatement
  cases statement with
  | openClass name path => exact ⟨_, .opens _ (Loader.told_opened hdefs rfl hread), rfl⟩
  | openModule name => exact ⟨_, .opens _ (Loader.told_opened hdefs rfl hread), rfl⟩
  | close => exact ⟨_, .closes, rfl⟩
  | setConstant name value =>
      refine ⟨_, .keeps ?_ ?_, rfl⟩
      · refine part (Loader.composed_evaluate b value) fun value => part (.intern _) fun id => ?_
        exact fun w => hS.seq (hdefs.assigns w _ id value) (hS.done _)
      · exact .bind fun _ => .bind fun _ => .bind fun _ => .pure b
  | setClassVar name value =>
      refine ⟨_, .keeps ?_ ?_, rfl⟩
      · dsimp only
        split
        · exact .raise hS _
        · refine part (Loader.composed_evaluate b value) fun value => part (.intern _) fun id => ?_
          refine part (.changeMachine fun m => ?_) fun _ => .pure hS b
          exact .setClassVar m _ id value
      · dsimp only
        split
        · exact .raise _
        · exact .bind fun _ => .bind fun _ => .bind fun _ => .pure b
  | raise cls message =>
      refine ⟨_, .keeps (hordinary (Loader.composed_raiseStatement b cls message)) ?_, rfl⟩
      exact .raiseStatement cls message
  | puts args =>
      refine ⟨_, .keeps ?_ ?_, rfl⟩
      · exact part (Loader.composed_evaluateAll b args) fun values =>
          part (.sendNamed _ "puts" values) fun _ => .pure hS b
      · exact .bind fun _ => .bind fun _ => .pure b
  | p args =>
      refine ⟨_, .keeps ?_ ?_, rfl⟩
      · exact part (Loader.composed_evaluateAll b args) fun values =>
          part (.sendNamed _ "p" values) fun _ => .pure hS b
      · exact .bind fun _ => .bind fun _ => .pure b

/-- Each statement is told of. -/
theorem runStatement (hS : S.Rules) (hordinary : S.TellsOrdinary r) (hframes : S.LetsFramesChange)
    (hdefs : S.TellsDefinitions r) (file : String) (b : Bodies) {entry : Nat × Statement}
    (hread : entry.2.NamesRead) : ToldBy S (Loader.runStatement r file b entry) := by
  obtain ⟨action, hexecution, hopen⟩ := hS.exists_execution hordinary hdefs file b hread
  rw [hopen]
  refine ToldBy.bind hS (setLine hframes entry.1) fun _ => ?_
  generalize entry.2.bodyChange = change at hexecution
  cases hexecution with
  | opens label htold =>
      exact htold.bind hS fun module => enter hS hframes b file label entry.1 module
  | closes => exact leave hS hframes b
  | keeps htold => exact htold

/-- Statements are told of one after the other, by induction over them. -/
theorem statements (hS : S.Rules) (hordinary : S.TellsOrdinary r) (hframes : S.LetsFramesChange)
    (hdefs : S.TellsDefinitions r) (file : String) {statements : List (Nat × Statement)}
    (hread : ∀ entry ∈ statements, entry.2.NamesRead) (b : Bodies) :
    ToldBy S (statements.foldlM (Loader.runStatement r file) b) := by
  induction statements generalizing b with
  | nil => exact .pure hS b
  | cons entry rest ih =>
      obtain ⟨hentry, hrest⟩ := List.forall_mem_cons.mp hread
      rw [List.foldlM_cons]
      exact (hS.runStatement hordinary hframes hdefs file b hentry).bind hS (ih hrest)

/-- A script that is run is told of, as its statements are. -/
theorem runScript (hS : S.Rules) (hordinary : S.TellsOrdinary r) (hframes : S.LetsFramesChange)
    (hdefs : S.TellsDefinitions r) (file : String) (top : Value)
    {statements : List (Nat × Statement)} (hread : ∀ entry ∈ statements, entry.2.NamesRead) :
    ToldBy S (Loader.runScript r file top statements) := by
  intro w
  have hentered : ToldBy S (changeMachine fun m => m.pushFrame file Loader.topLabel 0 :
      Eval σ PUnit) := fun w => hframes w _
  refine .machine_bind (ToldBy.bind hS hentered (fun _ => ?_) w)
  exact (hS.statements hordinary hframes hdefs file hread _).bind hS fun _ w => hframes w _

/-- Loading is told of, which comes to running a script and to nothing else. -/
theorem loadObject (hS : S.Rules) (hordinary : S.TellsOrdinary r) (hframes : S.LetsFramesChange)
    (hdefs : S.TellsDefinitions r) (path : Value) (wrap : Bool) :
    ToldBy S (Loader.loadObject r path wrap) := by
  intro w
  rcases Loader.loadObject_cases r path wrap w with
    ⟨fault, hrefused⟩ | ⟨file, top, statements, m, hmade, hread, hran⟩
  · exact .of_eq hrefused (hS.raise w fault)
  · have hscript := hS.runScript hordinary hframes hdefs file top hread { w with machine := m }
    exact .of_eq hran (hS.seq (hS.works w hmade) hscript)

/-- **An account tells of the tasks that are not counted** if it tells of the running of scripts. -/
theorem perform (hS : S.Rules) (hordinary : S.TellsOrdinary r)
    (hload : ∀ path wrap, ToldBy S (Loader.loadObject r path wrap)) {task : Task}
    (htask : task.IsUncounted) : ToldBy S (perform r task) := by
  cases task with
  | load path wrap => exact (hload path wrap).bind hS fun _ => .pure hS _
  | intern name => exact htask.elim
  | _ => exact hordinary (composed_perform trivial)

/-- An account tells of the task that is counted if it tells of the counting. -/
theorem perform_intern (hS : S.Rules)
    (hcount : ∀ w : World σ,
      S w .value (w.onMachine fun m => { m with internCalls := m.internCalls + 1 }))
    (name : String) : ToldBy S (EmbeddedRuby.perform r (.intern name)) := by
  have hinterned : ToldBy S (intern name : Eval σ SymbolId) :=
    .onMachine hS fun m => .intern m name
  exact fun w => hS.seq (hcount w) (hinterned _)

/-- All tasks are told of, if scripts and the one that is counted are. -/
theorem perform_any (hS : S.Rules) (hordinary : S.TellsOrdinary r)
    (hload : ∀ path wrap, ToldBy S (Loader.loadObject r path wrap))
    (hcount : ∀ w : World σ,
      S w .value (w.onMachine fun m => { m with internCalls := m.internCalls + 1 }))
    (task : Task) : ToldBy S (EmbeddedRuby.perform r task) := by
  cases task with
  | intern name => exact hS.perform_intern hcount name
  | _ => exact hS.perform hordinary hload trivial

end Account.Rules

end EmbeddedRuby
