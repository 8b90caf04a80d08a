import EmbeddedRuby.Proofs.Sequences
import EmbeddedRuby.Proofs.SparedModules

/-!
# Runs in which no constant is overwritten

The tables of constants are a matter of scripts: a script opens a module, which is made and put under a
constant if there is none of this name yet, or it sets a constant, whether there is one or not.  A run
is therefore taken as a sequence of **stages** (`World.Stage`), which overwrite no constant, and of
assignments that do (`World.Overwrites`).  Whatever programs the host runs, and whatever they load,
comes to such a sequence (`Program.stages_run`).

A run is **tidy** if it has stages only (`World.Tidy`).  The interpreter counts the constants that are
overwritten (`Machine.overwrites`), and stages leave this count alone.  So a run is tidy if it has not
counted anything (`World.Stages.tidy`), and otherwise it comes to an assignment that overwrites a
constant (`World.Stages.counted_or`).
-/

namespace EmbeddedRuby

open Eval

variable {σ : Type}

/-- Giving an exception a backtrace sets no constant. -/
theorem Machine.fillBacktrace_overwrites (m : Machine) (exception : Value) :
    (m.fillBacktrace exception).overwrites = m.overwrites := by
  unfold fillBacktrace
  split
  · split
    · exact (Machine.Works.backtrace m).overwrites
    · rfl
  · rfl

/-- Steps of the interpreter are a run. -/
theorem World.reaches_steps {P : Probe → Prop} (w : World σ) {m : Machine}
    (h : w.machine.Steps m) : w.Reaches P { w with machine := m } :=
  h.lift (fun m => { w with machine := m }) fun _ _ step => .step (.machine _ step)

namespace World

variable {w w' w₁ w₂ : World σ}

/-! ### Stages -/

/-- The world after a constant of a module was set. -/
def assigned (w : World σ) (module : Value) (id : SymbolId) (value : Value) : World σ :=
  w.onMachine fun m => m.setConstant module id value

/-- The world after a module was made and put under a constant of its parent. -/
def defining (w : World σ) (parent : Value) (id : SymbolId) (name : String)
    (superclass : Option Value) : World σ :=
  let made := w.machine.newModule (some (w.machine.qualifiedName parent name)) superclass
  { w with machine := made.2.setConstant parent id made.1 }

/-- A part of a run that overwrites no constant.  Mostly constants are no matter of it at all. -/
inductive Stage : World σ → World σ → Prop
  | quiet {w w' : World σ} (hreaches : w.Reaches AnyProbe w')
      (hconstants : w.machine.heap.KeepsConstants w'.machine.heap)
      (hcount : w'.machine.overwrites = w.machine.overwrites) : Stage w w'
  /-- A script opens a module that is not there yet. -/
  | define (w : World σ) {parent : Value} {id : SymbolId} {name : String}
      (superclass : Option Value) (hname : IsIdentifier name.toList)
      (hid : w.machine.symbols.find? name = some id)
      (hnew : w.machine.heap.constantAt? parent id = none) :
      Stage w (w.defining parent id name superclass)
  /-- A script sets a constant that is not there yet. -/
  | assign (w : World σ) {module : Value} {id : SymbolId} (value : Value)
      (hnew : w.machine.heap.constantAt? module id = none) : Stage w (w.assigned module id value)

/-- A script sets a constant that its module has already. -/
def Overwrites (w w' : World σ) : Prop :=
  ∃ module id old value, w.machine.heap.constantAt? module id = some old ∧
    w' = w.assigned module id value

/-- A run that overwrites no constant. -/
abbrev Tidy : World σ → World σ → Prop :=
  Relation.ReflTransGen Stage

/-- A stage, or an assignment that overwrites a constant. -/
def Advance (w w' : World σ) : Prop :=
  w.Stage w' ∨ w.Overwrites w'

/-- A run that may overwrite constants. -/
abbrev Stages : World σ → World σ → Prop :=
  Relation.ReflTransGen Advance

/-- A tidy run may overwrite constants, though it does not. -/
theorem Tidy.stages (h : w.Tidy w') : w.Stages w' :=
  h.lift id fun _ _ => .inl

/-- A run is tidy or comes to an assignment that overwrites a constant. -/
theorem Stages.tidy_or (h : w.Stages w') :
    w.Tidy w' ∨ ∃ u u', w.Stages u ∧ u.Overwrites u' ∧ u'.Stages w' := by
  induction h with
  | refl => exact .inl .refl
  | @tail u u' before last ih =>
      rcases ih with htidy | ⟨v, v', hbefore, hoverwrites, hafter⟩
      · rcases last with hstage | hoverwrites
        · exact .inl (htidy.tail hstage)
        · exact .inr ⟨u, u', before, hoverwrites, .refl⟩
      · exact .inr ⟨v, v', hbefore, hoverwrites, hafter.tail last⟩

/-- Setting a constant is a run. -/
theorem reaches_assigned (w : World σ) (module : Value) (id : SymbolId) (value : Value) :
    w.Reaches AnyProbe (w.assigned module id value) :=
  w.reaches_steps (.single (.setConstant w.machine module id value))

/-- Each stage is a run. -/
theorem Stage.reaches (h : w.Stage w') : w.Reaches AnyProbe w' := by
  cases h with
  | quiet hreaches => exact hreaches
  | @define parent id name superclass =>
      have hmade : w.machine.Steps _ :=
        .single (.module w.machine (some (w.machine.qualifiedName parent name)) superclass)
      exact w.reaches_steps (hmade.tail (.setConstant _ parent id _))
  | @assign module id value => exact w.reaches_assigned module id value

/-- A stage counts nothing. -/
theorem Stage.overwrites_eq (h : w.Stage w') :
    w'.machine.overwrites = w.machine.overwrites := by
  cases h with
  | quiet hreaches hconstants hcount => exact hcount
  | @define parent id name superclass hname hid hnew =>
      let made := w.machine.newModule (some (w.machine.qualifiedName parent name)) superclass
      have hmade : made.2.heap.constantAt? parent id = none :=
        Heap.constantAt?_alloc_of_none hnew _ rfl
      exact if_neg (by simpa using hmade)
  | assign value hnew => exact if_neg (by simpa using hnew)

/-- An assignment that overwrites a constant is counted. -/
theorem Overwrites.overwrites_eq (h : w.Overwrites w') :
    w'.machine.overwrites = w.machine.overwrites + 1 := by
  obtain ⟨module, id, old, value, hold, rfl⟩ := h
  exact if_pos (by simp [hold])

/-- A tidy run counts no overwriting. -/
theorem Tidy.overwrites_eq (h : w.Tidy w') : w'.machine.overwrites = w.machine.overwrites := by
  induction h with
  | refl => rfl
  | tail _ last ih => exact last.overwrites_eq.trans ih

/-- Stages are what a run comes to on its way. -/
theorem Stages.reaches (h : w.Stages w') : w.Reaches AnyProbe w' := by
  induction h with
  | refl => exact .refl
  | tail _ last ih =>
      rcases last with hstage | ⟨module, id, old, value, -, rfl⟩
      · exact ih.trans hstage.reaches
      · exact ih.trans (reaches_assigned _ module id value)

/-- What was counted stays counted. -/
theorem Reaches.overwrites_le (h : w.Reaches AnyProbe w') :
    w.machine.overwrites ≤ w'.machine.overwrites := by
  induction h with
  | refl => exact Nat.le_refl _
  | tail _ last ih => exact Nat.le_trans ih last.countsUp.overwrites

/-- **A run that counts no constant as overwritten is tidy.** -/
theorem Stages.tidy (h : w.Stages w')
    (hcount : w'.machine.overwrites = w.machine.overwrites) : w.Tidy w' := by
  rcases h.tidy_or with htidy | ⟨u, u', hbefore, hoverwrites, hafter⟩
  · exact htidy
  · have hstart := hbefore.reaches.overwrites_le
    have hone := hoverwrites.overwrites_eq
    have hend := hafter.reaches.overwrites_le
    omega

/-- **A run that counts one comes to an assignment that overwrites it.** -/
theorem Stages.counted_or (h : w.Stages w') :
    w'.machine.overwrites = w.machine.overwrites ∨
      ∃ u u', w.Stages u ∧ u.Overwrites u' ∧ u'.Stages w' :=
  h.tidy_or.imp_left Tidy.overwrites_eq

/-! ### Runs as sequences of stages -/

/-- Whatever is done outside of scripts comes to stages. -/
theorem sequenced_advance : Sequenced (Advance : World σ → World σ → Prop) where
  elsewhere h hheap hcount := .inl (.quiet (.single h) (hheap ▸ .refl _) hcount)
  works w _ h := .single (.inl (.quiet (w.reaches_steps h.steps) h.constants h.overwrites))
  raising w fault := by
    have hmade := Machine.Works.newException w.machine fault
    exact .inl (.quiet (.single (.raising w fault)) hmade.constants hmade.overwrites)
  raisingObject w exception hexception := by
    have hspares := w.machine.fillBacktrace_sparesModules exception
    exact .inl (.quiet (.single (.raisingObject hexception)) hspares.keepsConstants
      (w.machine.fillBacktrace_overwrites exception))
  addProc {w body} hup hbody := by
    have hspares : w.machine.heap.SparesModules (w.addProc body).machine.heap :=
      .alloc w.machine.heap _ nofun
    exact .inl (.quiet (.single (.addProc hup hbody)) hspares.keepsConstants rfl)

/-- A module that is opened is there already, or is defined under a name that has a number by then. -/
theorem advances_openModule {r : Reentry σ} (hordinary : (sequences Advance).TellsOrdinary r)
    (b : Bodies) {name : String} (path : Option (List (List Char))) (isClass : Bool)
    (hname : IsIdentifier name.toList) :
    ToldBy (sequences Advance) (Loader.openModule r b name path isClass) := by
  have hS := sequenced_advance.rules (σ := σ)
  have hdefine : ∀ {w : World σ} {id : SymbolId}, w.machine.symbols.find? name = some id →
      w.machine.heap.constantAt? b.innermost id = none → ∀ superclass,
      ToldAt (sequences Advance) (Loader.defineModule b.innermost id name superclass) w := by
    intro w id hid hnew superclass
    have hdefined : w.Stage (w.defining b.innermost id name superclass) :=
      .define w superclass hname hid hnew
    exact .single (.inl hdefined)
  intro w
  unfold Loader.openModule
  refine (hordinary (.intern name) w).bind hS fun id w₁ hrun => ?_
  have hid : w₁.machine.symbols.find? name = some id := by
    cases hrun
    exact w.machine.symbols.find?_intern_self name
  dsimp only
  split
  case' h_1 path =>
    have hresolve := hordinary (Loader.composed_resolve b path) w₁
    refine hresolve.bind hS fun found w₂ hresolved => ?_
    have hreached : w₁.Stages w₂ := hresolve.of_run hresolved
    replace hid := hreached.reaches.find?_kept hid
  all_goals
    refine ToldAt.bind hS (hS.done _) fun superclass w₃ hsame => ?_
    cases hsame
    refine .machine_bind ?_
    split
    · exact hordinary (Loader.composed_reopen _ _ _ _) _
    · rename_i hnew
      split
      · refine .machine_bind ?_
        split
        · exact hdefine hid hnew _
        · exact hS.raise _ _
      · exact hdefine hid hnew none

/-- Whatever a script defines comes to stages, or overwrites a constant. -/
theorem tellDefinitions_advance : TellDefinitions (Advance : World σ → World σ → Prop) := by
  intro r hordinary
  refine ⟨fun b _ path isClass hname => advances_openModule hordinary b path isClass hname, ?_⟩
  intro w module id value
  refine .single ?_
  cases hold : w.machine.heap.constantAt? module id with
  | none => exact .inl (.assign w value hold)
  | some old => exact .inr ⟨module, id, old, value, hold, rfl⟩

end World

/-- **Whatever a program of the host's does comes to stages**, and to assignments that overwrite a
constant. -/
theorem Program.stages_run (fuel : Nat) {role : Role} (program : Program σ role) (w : World σ) :
    w.Stages (Outcome.world (program.run (.ofFuel fuel) w)) :=
  World.sequenced_advance.run World.tellDefinitions_advance fuel program w

end EmbeddedRuby
