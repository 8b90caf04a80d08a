import EmbeddedRuby.Proofs.BalancedScripts
import EmbeddedRuby.Proofs.ConfinedDefinitions
import EmbeddedRuby.Proofs.Follows.Scripts

/-!
# Wrapped scripts

A script that is loaded with a module of its own around it defines nothing outside of that module.  The
bodies that are open while it runs were made beneath the wrapping module (`Bodies.Within`), since a body
is either new or found as a constant of the innermost one; definitions go to the innermost body; and
all else that a statement does spares the modules.  One statement keeps this up
(`Loader.keeps_runStatement`), and so does the whole script (`Loader.keeps_script`).  Whether the script
comes to its end or is left on the way makes no difference to this.  What a statement defines has landed
in the wrapping module or beneath it (`Statement.Lands`), and as no definition is taken back, a script
that comes to its end has all it defines there.

The one way out would be a constant that is assigned a module of elsewhere, which a later statement
could open (`Statement.Aliases`).  Without such a statement the main result is
`World.wrapped_load_confines`.
-/

namespace EmbeddedRuby

open Eval

/-! ### What a script says -/

/-- The statement assigns what a path of constants means to a constant. -/
def Statement.Aliases : Statement → Prop
  | .setConstant _ (.constant _) => True
  | _ => False

instance : DecidablePred Statement.Aliases := fun statement =>
  match statement with
  | .setConstant _ (.constant _) => .isTrue trivial
  | .setConstant _ .nil | .setConstant _ .true | .setConstant _ .false | .setConstant _ (.int _)
  | .setConstant _ (.float _) | .setConstant _ (.string _) | .setConstant _ (.symbol _)
  | .setConstant _ (.array _) | .openClass _ _ | .openModule _ | .close | .setClassVar _ _
  | .raise _ _ | .puts _ | .p _ => .isFalse id

/-- The table in which the statement defines something, and the name under which it does. -/
def Statement.defines? : Statement → Option (ModuleTable × String)
  | .openClass name _ | .openModule name | .setConstant name _ =>
    some (.constants, String.ofList name)
  | .setClassVar name _ => some (.classVars, String.ofList name)
  | .close | .raise _ _ | .puts _ | .p _ => none

/-- What the statement defines, if it defines something, is in the wrapping module or beneath it. -/
def Statement.Lands (before : Heap) (m : Machine) (top : Value) (statement : Statement) : Prop :=
  ∀ kind name, statement.defines? = some (kind, name) → m.Lands before top kind name

namespace Statement.Lands

variable {before : Heap} {m : Machine} {top : Value} {statement : Statement}

/-- A statement lands by what it defines. -/
theorem of_defines {kind : ModuleTable} {name : String}
    (hdefines : statement.defines? = some (kind, name)) (h : m.Lands before top kind name) :
    statement.Lands before m top := by
  intro kind' name' hother
  cases hdefines.symm.trans hother
  exact h

/-- A statement that defines nothing has landed. -/
theorem of_none (hnone : statement.defines? = none) : statement.Lands before m top := by
  intro kind name hother
  cases hnone.symm.trans hother

end Statement.Lands

namespace Loader

variable {σ : Type} {r : Reentry σ}

/-! ### What defines nothing -/

/-- Looking up a path of constants defines none. -/
theorem sparesModules_resolve (hr : r.SparesModules) (b : Bodies) (path : List (List Char)) :
    SparesModules (resolve r b path) := by
  unfold resolve
  split
  · exact .pure _
  · rename_i first rest
    have hrest : ∀ start, SparesModules (r.constantPath start (rest.map String.ofList)) :=
      fun start => hr.constantPath start _
    refine .ite ((SparesModules.pure _).bind hrest) ?_
    refine (SparesModules.intern _).bind fun id => SparesModules.machine.bind fun m => ?_
    dsimp only
    split
    · exact (SparesModules.pure _).bind hrest
    · exact (hr.constant _ id false).bind hrest

mutual

/-- Evaluating a literal makes objects that are no modules, by induction on the literal. -/
theorem sparesModules_evaluate (hr : r.SparesModules) (b : Bodies) (literal : Literal) :
    SparesModules (evaluate r b literal) := by
  cases literal with
  | nil | true | false =>
      unfold evaluate
      exact .pure _
  | int n =>
      unfold evaluate
      exact .newInteger n
  | float x =>
      unfold evaluate
      exact .newFloat x
  | string text =>
      unfold evaluate
      exact .newText _
  | symbol name =>
      unfold evaluate
      exact (SparesModules.intern _).bind fun _ => .pure _
  | array items =>
      unfold evaluate
      exact (sparesModules_evaluateAll hr b items).bind fun values => .newArray values
  | constant path =>
      unfold evaluate
      exact sparesModules_resolve hr b path

/-- Evaluating arguments makes objects that are no modules, one after the other. -/
theorem sparesModules_evaluateAll (hr : r.SparesModules) (b : Bodies) (literals : List Literal) :
    SparesModules (evaluateAll r b literals) := by
  cases literals with
  | nil =>
      unfold evaluateAll
      exact .pure _
  | cons item rest =>
      unfold evaluateAll
      exact (sparesModules_evaluate hr b item).bind fun value =>
        (sparesModules_evaluateAll hr b rest).bind fun values => .pure _

end

/-- Raising spares the modules: the exception is none. -/
theorem sparesModules_raiseStatement (hr : r.SparesModules) {α : Type} (b : Bodies)
    (cls : Option (List (List Char))) (message : Option Literal) :
    SparesModules (raiseStatement r b cls message : Eval σ α) := by
  unfold raiseStatement
  dsimp only
  split
  case' h_1 message => refine (sparesModules_evaluate hr b message).bind fun _ => ?_
  all_goals
    refine (SparesModules.pure _).bind fun message => ?_
    split
    · refine (sparesModules_resolve hr b _).bind fun cls => ?_
      exact (hr.sendNamed (by decide) cls _).bind fun exception => .raiseObject exception
    · refine SparesModules.machine.bind fun m => .ite ?_ (.raise _)
      exact (hr.sendNamed (by decide) _ _).bind fun exception => .raiseObject exception
    · exact .raise _

/-- Opening a body again does nothing to the world, and the module of the body was there. -/
theorem reopen_ok {name : String} {isClass : Bool} {existing module : Value}
    {superclass : Option Value} {w w' : World σ}
    (h : reopen name isClass existing superclass w = .ok module w') :
    module = existing ∧ w' = w ∧ ∃ data, w.machine.heap.module? existing = some data := by
  unfold reopen at h
  rw [machine_bind_apply] at h
  cases hdata : w.machine.heap.module? existing with
  | none =>
      rw [hdata] at h
      exact absurd h raise_ne_ok
  | some data =>
      rw [hdata] at h
      dsimp only at h
      split at h
      · exact absurd h raise_ne_ok
      · split at h
        · exact absurd h raise_ne_ok
        · cases h
          exact ⟨rfl, rfl, data, rfl⟩

/-- Opening a module again defines nothing yet. -/
theorem sparesModules_reopen (name : String) (isClass : Bool) (existing : Value)
    (superclass : Option Value) :
    SparesModules (reopen name isClass existing superclass : Eval σ Value) := by
  unfold reopen
  refine SparesModules.machine.bind fun m => ?_
  split
  · exact .ite (.raise _) (.ite (.raise _) (.pure _))
  · exact .raise _

/-- What a literal means is no module, unless it is a path of constants. -/
theorem evaluate_neverModule {b : Bodies} {literal : Literal} {v : Value} {w w' : World σ}
    (hrun : evaluate r b literal w = .ok v w') (hroom : w'.machine.heap.HasRoom 0)
    (hliteral : ∀ path, literal ≠ .constant path) : w'.machine.heap.NeverModule v := by
  cases literal with
  | nil | true | false =>
      unfold evaluate at hrun
      cases hrun
      exact .inl (by decide)
  | int n =>
      unfold evaluate at hrun
      cases hrun
      exact Heap.neverModule_ofInteger hroom
  | float | string =>
      unfold evaluate at hrun
      cases hrun
      exact Heap.neverModule_alloc hroom nofun
  | symbol name =>
      unfold evaluate at hrun
      cases hrun
      exact Heap.neverModule_ofSymbol _ _
  | array items =>
      unfold evaluate at hrun
      obtain ⟨values, w₁, -, hmade⟩ := bind_ok_iff.mp hrun
      cases hmade
      exact Heap.neverModule_alloc hroom nofun
  | constant path => exact absurd rfl (hliteral path)

end Loader

/-! ### The course of a wrapped script -/

section Course

variable {σ α β : Type} {w₀ w w' : World σ} {top parent : Value}

/-- The one world is reached from the other, and what was defined is defined still. -/
structure World.LeadsTo (w w' : World σ) : Prop where
  reaches : w.Reaches NoProbes w'
  defined : w.machine.heap.KeepsDefined w'.machine.heap

namespace World.LeadsTo

variable {w₁ : World σ}

/-- A world leads to itself. -/
theorem refl (w : World σ) : w.LeadsTo w :=
  ⟨.refl, .refl _⟩

/-- Ways between worlds go on in one another, and what is defined stays defined. -/
theorem trans (hfirst : w.LeadsTo w₁) (hlater : w₁.LeadsTo w') : w.LeadsTo w' :=
  ⟨hfirst.reaches.trans hlater.reaches, hfirst.defined.trans hlater.defined⟩

/-- What spares the modules takes no definition back. -/
theorem of_spares (hspares : w.SparesModules w') : w.LeadsTo w' :=
  ⟨hspares.reaches, .of_kept hspares.modules.kept⟩

/-- On the way from world to world the heap evolves. -/
theorem evolves (h : w.LeadsTo w') : w.machine.heap.Evolves w'.machine.heap :=
  h.reaches.evolves

/-- Setting a constant takes no other definition back. -/
theorem setConstant (w : World σ) (parent : Value) (id : SymbolId) (c : Value) :
    w.LeadsTo (w.onMachine fun m => m.setConstant parent id c) :=
  ⟨.single (.step (.machine w (.setConstant w.machine parent id c))), .setConstant _ parent id c⟩

/-- Setting a class variable takes no definition back. -/
theorem setClassVar (w : World σ) (parent : Value) (id : SymbolId) (c : Value) :
    w.LeadsTo (w.onMachine fun m => { m with heap := m.heap.setClassVar parent id c }) :=
  ⟨.single (.step (.machine w (.setClassVar w.machine parent id c))), .setClassVar _ parent id c⟩

/-- Making a module takes no definition back. -/
theorem newModule (w : World σ) (name : Option String) (superclass : Option Value) :
    w.LeadsTo { w with machine := (w.machine.newModule name superclass).2 } :=
  ⟨.single (.step (.machine w (.module w.machine name superclass))), .alloc w.machine.heap _ _⟩

/-- What has landed beneath the wrapping module is there later, too. -/
theorem lands (h : w.LeadsTo w') {before : Heap} {kind : ModuleTable} {name : String}
    (hlands : w.machine.Lands before top kind name) : w'.machine.Lands before top kind name := by
  obtain ⟨v, id, hmade, hid, hdefined⟩ := hlands
  exact ⟨v, id, hmade.of_evolves h.evolves, h.reaches.find?_kept hid, h.defined v kind id hdefined⟩

/-- What a statement has defined is there later, too. -/
theorem statement_lands (h : w.LeadsTo w') {before : Heap} {statement : Statement}
    (hlands : statement.Lands before w.machine top) : statement.Lands before w'.machine top :=
  fun kind name hdefines => h.lands (hlands kind name hdefines)

end World.LeadsTo

/-- The number that a name is given is the one by which it is found. -/
theorem Eval.find?_of_intern {name : String} {id : SymbolId} (h : intern name w = .ok id w') :
    w'.machine.symbols.find? name = some id := by
  cases h
  exact w.machine.symbols.find?_intern_self name

/-- A moment of a wrapped script: definitions have been confined since the world before it, as far as
the heap fits in the words there are. -/
structure World.Wraps (w₀ : World σ) (top : Value) (w : World σ) : Prop where
  reaches : w₀.Reaches NoProbes w
  confines : w.machine.heap.HasRoom 0 → w.machine.Confines w₀.machine.heap top

/-- The bodies that are open were made beneath the wrapping module, and there are so many of them in
it. -/
structure Bodies.Within (b : Bodies) (before : Heap) (top : Value) (depth : Nat) (m : Machine) :
    Prop where
  length : b.scopes.length = depth + 1
  beneath : ∀ scope ∈ b.scopes, m.MadeBeneath before top scope

namespace Bodies.Within

variable {b : Bodies} {before : Heap} {depth : Nat} {m m' : Machine}

/-- The innermost body is of a module made beneath the wrapping one. -/
theorem innermost (hb : b.Within before top depth m) : m.MadeBeneath before top b.innermost := by
  obtain ⟨scope, rest, hscopes⟩ := List.exists_cons_of_length_eq_add_one hb.length
  have hfirst : b.innermost = scope := by
    unfold Bodies.innermost
    rw [hscopes]
    rfl
  rw [hfirst]
  exact hb.beneath scope (by rw [hscopes]; exact List.mem_cons_self)

/-- Modules made beneath the wrapping one stay so as the heap evolves. -/
theorem of_evolves (hb : b.Within before top depth m) (hevolves : m.heap.Evolves m'.heap) :
    b.Within before top depth m' :=
  ⟨hb.length, fun scope hscope => (hb.beneath scope hscope).of_evolves hevolves⟩

end Bodies.Within

/-- The bodies that are open stay beneath the wrapping module. -/
theorem World.LeadsTo.within (h : w.LeadsTo w') {b : Bodies} {depth : Nat}
    (hb : w.machine.heap.HasRoom 0 → b.Within w₀.machine.heap top depth w.machine)
    (hroom : w'.machine.heap.HasRoom 0) : b.Within w₀.machine.heap top depth w'.machine :=
  (hb (hroom.of_evolves h.evolves)).of_evolves h.evolves

namespace World.Wraps

/-- While a script runs that defines no methods, all methods are the interpreter's own. -/
theorem onlyOwn (hw : w₀.Wraps top w) (hown : w₀.OnlyOwn) : w.OnlyOwn :=
  hw.reaches.onlyOwn hown

/-- Definitions stay confined while the modules are spared. -/
theorem of_spares (hw : w₀.Wraps top w) (hspares : w.SparesModules w') : w₀.Wraps top w' := by
  refine ⟨hw.reaches.trans hspares.reaches, fun hroom => ?_⟩
  have hevolves := hspares.reaches.evolves
  exact (hw.confines (hroom.of_evolves hevolves)).of_spares hevolves hspares.modules

/-- A constant set beneath the wrapping module keeps definitions confined, if it holds no module of
elsewhere. -/
theorem setConstant (hw : w₀.Wraps top w) (id : SymbolId) (c : Value)
    (hput : w.machine.heap.HasRoom 0 → w.machine.MadeBeneath w₀.machine.heap top parent ∧
      w.machine.Holdable w₀.machine.heap top c) :
    w₀.Wraps top (w.onMachine fun m => m.setConstant parent id c) := by
  have hled := World.LeadsTo.setConstant w parent id c
  refine ⟨hw.reaches.trans hled.reaches, fun hroom => ?_⟩
  have hbefore := hroom.of_evolves hled.evolves
  obtain ⟨hparent, hc⟩ := hput hbefore
  exact (hw.confines hbefore).setConstant hparent id hc

/-- A class variable set beneath the wrapping module keeps definitions confined. -/
theorem setClassVar (hw : w₀.Wraps top w) (id : SymbolId) (value : Value)
    (hparent : w.machine.heap.HasRoom 0 → w.machine.MadeBeneath w₀.machine.heap top parent) :
    w₀.Wraps top (w.onMachine fun m => { m with heap := m.heap.setClassVar parent id value }) := by
  have hled := World.LeadsTo.setClassVar w parent id value
  refine ⟨hw.reaches.trans hled.reaches, fun hroom => ?_⟩
  have hbefore := hroom.of_evolves hled.evolves
  exact (hw.confines hbefore).setClassVar (hparent hbefore) id value

/-- A module that is made in one beneath the wrapping module is made beneath it itself. -/
theorem newModule (hw : w₀.Wraps top w) (name : String) (superclass : Option Value)
    (hparent : w.machine.heap.HasRoom 0 → w.machine.MadeBeneath w₀.machine.heap top parent) :
    let made := w.machine.newModule (some (w.machine.qualifiedName parent name)) superclass
    w₀.Wraps top { w with machine := made.2 } ∧
      (made.2.heap.HasRoom 0 → made.2.MadeBeneath w₀.machine.heap top made.1) := by
  intro made
  have hled : w.LeadsTo { w with machine := made.2 } := .newModule w _ superclass
  have hmade : made.2.heap.HasRoom 0 → made.2.Confines w₀.machine.heap top ∧
      made.2.MadeBeneath w₀.machine.heap top made.1 := by
    intro hroom
    have hbefore := hroom.of_evolves hled.evolves
    exact (hw.confines hbefore).newModule (hparent hbefore) (Heap.addressable_of_alloc hroom) name
      superclass
  exact ⟨⟨hw.reaches.trans hled.reaches, fun hroom => (hmade hroom).1⟩, fun hroom => (hmade hroom).2⟩

end World.Wraps

namespace Loader

/-- Definitions are confined after the run, however it ends, and none is taken back; and if it gives a
value, this is as it should be, as far as the heap fits in the words there are. -/
structure Keeps (w₀ : World σ) (top : Value) (action : Eval σ α) (w : World σ)
    (Good : α → Machine → Prop) : Prop where
  wraps : w₀.Wraps top (Outcome.world (action w))
  leadsTo : w.LeadsTo (Outcome.world (action w))
  good : ∀ a w', action w = .ok a w' → w'.machine.heap.HasRoom 0 → Good a w'.machine

namespace Keeps

variable {Good : α → Machine → Prop} {Better : β → Machine → Prop}

/-- What keeps definitions confined is told by what the run comes to. -/
theorem of_eq {action : Eval σ α} {outcome : Outcome σ α} (hrun : action w = outcome)
    (hwraps : w₀.Wraps top (Outcome.world outcome)) (hled : w.LeadsTo (Outcome.world outcome))
    (hgood : ∀ a w', outcome = .ok a w' → w'.machine.heap.HasRoom 0 → Good a w'.machine) :
    Keeps w₀ top action w Good := by
  subst hrun
  exact ⟨hwraps, hled, hgood⟩

/-- Giving a value defines nothing. -/
theorem pure (hw : w₀.Wraps top w) {a : α} (ha : w.machine.heap.HasRoom 0 → Good a w.machine) :
    Keeps w₀ top (pure a) w Good := by
  refine ⟨hw, .refl w, fun a' w' h hroom => ?_⟩
  cases h
  exact ha hroom

/-- What spares the modules keeps definitions confined. -/
theorem of_spares {action : Eval σ α} (hspares : SparesModules action) (hown : w₀.OnlyOwn)
    (hw : w₀.Wraps top w)
    (hgood : ∀ a w', action w = .ok a w' → w'.machine.heap.HasRoom 0 → Good a w'.machine) :
    Keeps w₀ top action w Good := by
  have hrun := hspares w (hw.onlyOwn hown)
  exact ⟨hw.of_spares hrun, .of_spares hrun, hgood⟩

/-- Raising for a fault keeps definitions confined. -/
theorem raise (hown : w₀.OnlyOwn) (hw : w₀.Wraps top w) (fault : Fault) :
    Keeps w₀ top (raise fault) w Good :=
  of_spares (.raise fault) hown hw fun _ _ h => absurd h raise_ne_ok

/-- Looking at the machine keeps definitions confined. -/
theorem look {f : Machine → Eval σ α} (h : Keeps w₀ top (f w.machine) w Good) :
    Keeps w₀ top (machine >>= f) w Good :=
  ⟨h.wraps, h.leadsTo, h.good⟩

/-- Two runs one after the other: the second starts from a moment at which definitions are confined.
-/
theorem bind {x : Eval σ α} {f : α → Eval σ β} (hx : Keeps w₀ top x w Good)
    (hf : ∀ a w', x w = .ok a w' → w₀.Wraps top w' → w.LeadsTo w' →
      (w'.machine.heap.HasRoom 0 → Good a w'.machine) → Keeps w₀ top (f a) w' Better) :
    Keeps w₀ top (x >>= f) w Better := by
  obtain ⟨hwraps, hled, hgood⟩ := hx
  cases hrun : x w with
  | ok a w₁ =>
      rw [hrun] at hwraps hled
      have hopen : (x >>= f) w = f a w₁ := by rw [bind_apply, hrun]
      obtain ⟨hwraps', hled', hgood'⟩ := hf a w₁ hrun hwraps hled (hgood a w₁ hrun)
      rw [← hopen] at hwraps' hled' hgood'
      exact ⟨hwraps', hled.trans hled', hgood'⟩
  | error exit w₁ =>
      rw [hrun] at hwraps hled
      have hopen : (x >>= f) w = .error exit w₁ := by rw [bind_apply, hrun]
      have hsame : Outcome.world ((x >>= f) w) = w₁ := by rw [hopen, Outcome.world]
      refine ⟨hsame ▸ hwraps, hsame ▸ hled, fun b w' hvalue _ => ?_⟩
      rw [hopen] at hvalue
      cases hvalue

/-- First something is done that spares the modules. -/
theorem after {x : Eval σ α} {f : α → Eval σ β} (hx : SparesModules x) (hown : w₀.OnlyOwn)
    (hw : w₀.Wraps top w)
    (hf : ∀ a w', x w = .ok a w' → w₀.Wraps top w' → w.LeadsTo w' →
      Keeps w₀ top (f a) w' Better) :
    Keeps w₀ top (x >>= f) w Better := by
  have hfirst : Keeps w₀ top x w fun _ _ => True := .of_spares hx hown hw fun _ _ _ _ => trivial
  exact hfirst.bind fun a w' hrun hw' hled _ => hf a w' hrun hw' hled

/-- More can be said of the value from what the run has led to. -/
theorem imp {action : Eval σ α} {Also : α → Machine → Prop} (h : Keeps w₀ top action w Good)
    (himp : ∀ a w', w.LeadsTo w' → w'.machine.heap.HasRoom 0 → Good a w'.machine →
      Also a w'.machine) : Keeps w₀ top action w Also := by
  refine ⟨h.wraps, h.leadsTo, fun a w' hrun hroom => ?_⟩
  have hled := h.leadsTo
  rw [hrun] at hled
  exact himp a w' hled hroom (h.good a w' hrun hroom)

end Keeps

variable {r : Reentry σ} {b : Bodies} {depth : Nat}

/-- A module that a script defines is made beneath the wrapping module, and the module in which it is
defined has it as a constant. -/
theorem keeps_defineModule (hw : w₀.Wraps top w)
    (hparent : w.machine.heap.HasRoom 0 → w.machine.MadeBeneath w₀.machine.heap top parent)
    (id : SymbolId) (name : String) (superclass : Option Value) :
    Keeps w₀ top (defineModule parent id name superclass) w fun module m =>
      m.MadeBeneath w₀.machine.heap top module ∧ m.heap.Defines parent .constants id := by
  let made := w.machine.newModule (some (w.machine.qualifiedName parent name)) superclass
  let w₁ : World σ := { w with machine := made.2 }
  obtain ⟨hmade, hbeneath⟩ := hw.newModule name superclass hparent
  have hgrown : w.LeadsTo w₁ := .newModule w _ superclass
  have hnamed := World.LeadsTo.setConstant w₁ parent id made.1
  have hparent₁ : made.2.heap.HasRoom 0 → made.2.MadeBeneath w₀.machine.heap top parent :=
    fun hroom => (hparent (hroom.of_evolves hgrown.evolves)).of_evolves hgrown.evolves
  have hput : made.2.heap.HasRoom 0 → made.2.MadeBeneath w₀.machine.heap top parent ∧
      made.2.Holdable w₀.machine.heap top made.1 := fun hroom =>
    ⟨hparent₁ hroom, .inl (hbeneath hroom)⟩
  refine ⟨hmade.setConstant id made.1 hput, hgrown.trans hnamed, fun module w' hrun hroom => ?_⟩
  cases hrun
  have hroom₁ := hroom.of_evolves hnamed.evolves
  obtain ⟨data, hdata⟩ := (hparent₁ hroom₁).exists_data
  exact ⟨(hbeneath hroom₁).of_evolves hnamed.evolves, Heap.defines_setConstant hdata id made.1⟩

/-- The module whose body is opened was made beneath the wrapping module: it is a new one, or a constant
of one that was made there. -/
theorem keeps_openModule (hr : r.SparesModules) (hown : w₀.OnlyOwn) (hw : w₀.Wraps top w)
    (hinnermost : w.machine.heap.HasRoom 0 →
      w.machine.MadeBeneath w₀.machine.heap top b.innermost)
    (name : String) (path : Option (List (List Char))) (isClass : Bool) :
    Keeps w₀ top (openModule r b name path isClass) w fun module m =>
      m.MadeBeneath w₀.machine.heap top module ∧
        m.Lands w₀.machine.heap top .constants name := by
  unfold openModule
  refine .after (.intern name) hown hw fun id v hinterned hv hled => ?_
  have hid := find?_of_intern hinterned
  extract_lets opened
  have hopened : ∀ superclass u, w₀.Wraps top u → v.LeadsTo u →
      Keeps w₀ top (opened superclass) u fun module m =>
        m.MadeBeneath w₀.machine.heap top module ∧
          m.Lands w₀.machine.heap top .constants name := by
    intro superclass u hu hled₁
    have hparent : ∀ {u' : World σ}, u.LeadsTo u' → u'.machine.heap.HasRoom 0 →
        u'.machine.MadeBeneath w₀.machine.heap top b.innermost := fun hled₂ hroom =>
      have hevolves := ((hled.trans hled₁).trans hled₂).evolves
      (hinnermost (hroom.of_evolves hevolves)).of_evolves hevolves
    -- The name has its number, so a definition in the innermost body has landed.
    have hlands : ∀ {u' : World σ}, u.LeadsTo u' → u'.machine.heap.HasRoom 0 →
        u'.machine.heap.Defines b.innermost .constants id →
        u'.machine.Lands w₀.machine.heap top .constants name := fun hled₂ hroom hdefined =>
      ⟨b.innermost, id, hparent hled₂ hroom, (hled₁.trans hled₂).reaches.find?_kept hid, hdefined⟩
    have hdefine : ∀ superclass,
        Keeps w₀ top (defineModule b.innermost id name superclass) u fun module m =>
          m.MadeBeneath w₀.machine.heap top module ∧
            m.Lands w₀.machine.heap top .constants name := by
      intro superclass
      have hdefined := keeps_defineModule hu (hparent (.refl u)) id name superclass
      exact hdefined.imp fun module u' hled₂ hroom hgood =>
        ⟨hgood.1, hlands hled₂ hroom hgood.2⟩
    refine .look ?_
    cases hfound : u.machine.heap.constantAt? b.innermost id with
    | some existing =>
        refine .of_spares (sparesModules_reopen _ _ _ _) hown hu fun module u' hrun hroom => ?_
        obtain ⟨rfl, rfl, data, hdata⟩ := reopen_ok hrun
        exact ⟨((hu.confines hroom).held (hparent (.refl _) hroom) hfound).madeBeneath hdata,
          hlands (.refl _) hroom (Heap.defines_of_constantAt? hfound)⟩
    | none =>
        dsimp only
        split
        · refine .look ?_
          split
          · exact hdefine _
          · exact .raise hown hu _
        · exact hdefine none
  cases path with
  | some path =>
      refine .after (sparesModules_resolve hr b path) hown hv fun cls u _ hu hled₁ => ?_
      exact hopened (some cls) u hu hled₁
  | none => exact hopened none v hv (.refl v)

/-- Entering the body of a module made beneath the wrapping one keeps all bodies there. -/
theorem keeps_enter (hw : w₀.Wraps top w)
    (hb : w.machine.heap.HasRoom 0 → b.Within w₀.machine.heap top depth w.machine)
    {module : Value} (hmodule : w.machine.heap.HasRoom 0 →
      w.machine.MadeBeneath w₀.machine.heap top module)
    (file label : String) (line : Nat) :
    Keeps w₀ top (enter b file label line module) w fun b' m =>
      b'.Within w₀.machine.heap top (depth + 1) m := by
  have hspares : w.SparesModules (w.onMachine fun m => m.pushFrame file label line) :=
    .restack w _ w.machine.yields
  refine ⟨hw.of_spares hspares, .of_spares hspares, fun b' w' hrun hroom => ?_⟩
  cases hrun
  -- A frame is no matter of modules, so those in the machine with the frame are the same.
  have hsame : ∀ {v}, w.machine.MadeBeneath w₀.machine.heap top v →
      (w.machine.pushFrame file label line).MadeBeneath w₀.machine.heap top v := fun hmade =>
    hmade.of_evolves (.refl _)
  refine ⟨congrArg (· + 1) (hb hroom).length, fun scope hscope => ?_⟩
  rcases List.mem_cons.mp hscope with rfl | hold
  · exact hsame (hmodule hroom)
  · exact hsame ((hb hroom).beneath scope hold)

/-- Leaving a body leaves the others there. -/
theorem keeps_leave (hw : w₀.Wraps top w)
    (hb : w.machine.heap.HasRoom 0 → b.Within w₀.machine.heap top (depth + 1) w.machine) :
    Keeps w₀ top (leave b) w fun b' m => b'.Within w₀.machine.heap top depth m := by
  obtain ⟨scopes, marks⟩ := b
  have hleft : ∀ {marks' : List Nat} {m : Machine}, m.heap = w.machine.heap → m.heap.HasRoom 0 →
      (⟨scopes.drop 1, marks'⟩ : Bodies).Within w₀.machine.heap top depth m := by
    intro marks' m hheap hroom
    have hevolves : w.machine.heap.Evolves m.heap := hheap ▸ .refl _
    obtain ⟨hlength, hbeneath⟩ := hb (hroom.of_evolves hevolves)
    refine ⟨?_, fun scope hscope => (hbeneath scope (List.mem_of_mem_drop hscope)).of_evolves hevolves⟩
    simp only [List.length_drop]
    exact Nat.sub_eq_of_eq_add hlength
  cases marks with
  | nil => exact .pure hw (hleft rfl)
  | cons mark marks =>
      have hspares : w.SparesModules (w.onMachine fun m =>
          { m with frames := truncate mark m.frames }) := .restack w _ w.machine.yields
      refine ⟨hw.of_spares hspares, .of_spares hspares, fun b' w' hrun hroom => ?_⟩
      cases hrun
      exact hleft rfl hroom

/-- The module of a body that is opened has landed beneath the wrapping module, and the body is one
more. -/
theorem keeps_openBody (hr : r.SparesModules) (hown : w₀.OnlyOwn) (hw : w₀.Wraps top w)
    (hb : w.machine.heap.HasRoom 0 → b.Within w₀.machine.heap top depth w.machine)
    (name : String) (path : Option (List (List Char))) (isClass : Bool)
    (file label : String) (line : Nat) :
    Keeps w₀ top (openModule r b name path isClass >>= enter b file label line) w fun b' m =>
      b'.Within w₀.machine.heap top (depth + 1) m ∧ m.Lands w₀.machine.heap top .constants name := by
  have hopened := keeps_openModule hr hown hw (fun hroom => (hb hroom).innermost) name path isClass
  refine hopened.bind fun module w₁ _ hw₁ hled hmodule => ?_
  have hentered := keeps_enter hw₁ (hled.within hb) (fun hroom => (hmodule hroom).1) file label line
  exact hentered.imp fun b' w₂ hled₁ hroom hb' =>
    ⟨hb', hled₁.lands (hmodule (hroom.of_evolves hled₁.evolves)).2⟩

/-- A definition in the innermost body has landed beneath the wrapping module. -/
theorem keeps_define {change : Machine → Machine} (hw : w₀.Wraps top (w.onMachine change))
    (hled : w.LeadsTo (w.onMachine change))
    (hb : w.machine.heap.HasRoom 0 → b.Within w₀.machine.heap top depth w.machine)
    {kind : ModuleTable} {name : String} {id : SymbolId}
    (hid : w.machine.symbols.find? name = some id)
    (hdefines : ∀ {data}, w.machine.heap.module? b.innermost = some data →
      (change w.machine).heap.Defines b.innermost kind id) :
    Keeps w₀ top (do
      changeMachine change
      return b) w fun b' m =>
      b'.Within w₀.machine.heap top depth m ∧ m.Lands w₀.machine.heap top kind name := by
  refine ⟨hw, hled, fun b' w' hrun hroom => ?_⟩
  cases hrun
  have hbefore := hb (hroom.of_evolves hled.evolves)
  obtain ⟨data, hdata⟩ := hbefore.innermost.exists_data
  have hinnermost := hbefore.innermost.of_evolves hled.evolves
  exact ⟨hbefore.of_evolves hled.evolves, b.innermost, id, hinnermost, hled.reaches.find?_kept hid,
    hdefines hdata⟩

/-- Printing defines nothing. -/
theorem keeps_print (hr : r.SparesModules) (hown : w₀.OnlyOwn) (hw : w₀.Wraps top w)
    (hb : w.machine.heap.HasRoom 0 → b.Within w₀.machine.heap top depth w.machine)
    {method : String} (hmethod : method ∈ sparingNames) (args : List Literal) :
    Keeps w₀ top (do
      let values ← evaluateAll r b args
      let _ ← r.sendNamed b.innermost method values
      return b) w fun b' m => b'.Within w₀.machine.heap top depth m := by
  refine .after (sparesModules_evaluateAll hr b args) hown hw fun values w₁ _ hw₁ hled => ?_
  refine .after (hr.sendNamed hmethod _ values) hown hw₁ fun _ w₂ _ hw₂ hled₁ => ?_
  exact .pure hw₂ ((hled.trans hled₁).within hb)

/-- **A statement keeps definitions confined.**  The bodies that are open after it were made beneath
the wrapping module, and what it defines is there. -/
theorem keeps_runStatement (hr : r.SparesModules) (hown : w₀.OnlyOwn) (hw : w₀.Wraps top w)
    (hb : w.machine.heap.HasRoom 0 → b.Within w₀.machine.heap top depth w.machine) (file : String)
    {entry : Nat × Statement} (hentry : ¬ entry.2.Aliases) {next : Nat}
    (hnext : Source.depthAfter depth entry.2 = some next) :
    Keeps w₀ top (runStatement r file b entry) w fun b' m =>
      b'.Within w₀.machine.heap top next m ∧ entry.2.Lands w₀.machine.heap m top := by
  obtain ⟨line, statement⟩ := entry
  unfold runStatement
  refine .after (.setLine line) hown hw fun _ v _ hv hled => ?_
  have hwithin := hled.within hb
  dsimp only
  cases statement with
  | openClass name path =>
      cases hnext
      exact (keeps_openBody hr hown hv hwithin _ path true file _ line).imp
        fun _ _ _ _ hgood => ⟨hgood.1, .of_defines rfl hgood.2⟩
  | openModule name =>
      cases hnext
      exact (keeps_openBody hr hown hv hwithin _ none false file _ line).imp
        fun _ _ _ _ hgood => ⟨hgood.1, .of_defines rfl hgood.2⟩
  | close =>
      change (if depth = 0 then none else some (depth - 1)) = some next at hnext
      split at hnext
      · cases hnext
      · rename_i hopen
        cases hnext
        obtain ⟨outer, rfl⟩ := Nat.exists_eq_succ_of_ne_zero hopen
        exact (keeps_leave hv hwithin).imp fun _ _ _ _ hb' => ⟨hb', .of_none rfl⟩
  | setConstant name value =>
      cases hnext
      have hliteral : ∀ path, value ≠ .constant path := by
        rintro path rfl
        exact hentry trivial
      refine .after (sparesModules_evaluate hr b value) hown hv fun value v₁ hrun hv₁ hled₁ => ?_
      refine .after (.intern _) hown hv₁ fun id v₂ hinterned hv₂ hled₂ => ?_
      have hwithin₂ := (hled₁.trans hled₂).within hwithin
      have hput := hv₂.setConstant id value fun hroom => ⟨(hwithin₂ hroom).innermost, .inr <|
        (evaluate_neverModule hrun (hroom.of_evolves hled₂.evolves) hliteral).of_evolves
          hled₂.evolves⟩
      have hdefined := keeps_define hput
        (.setConstant v₂ b.innermost id value) hwithin₂ (find?_of_intern hinterned)
        fun hdata => Heap.defines_setConstant hdata id value
      exact hdefined.imp fun _ _ _ _ hgood => ⟨hgood.1, .of_defines rfl hgood.2⟩
  | setClassVar name value =>
      cases hnext
      dsimp only
      split
      · exact .raise hown hv _
      · refine .after (sparesModules_evaluate hr b value) hown hv fun value v₁ _ hv₁ hled₁ => ?_
        refine .after (.intern _) hown hv₁ fun id v₂ hinterned hv₂ hled₂ => ?_
        have hwithin₂ := (hled₁.trans hled₂).within hwithin
        have hput := hv₂.setClassVar id value fun hroom => (hwithin₂ hroom).innermost
        have hdefined := keeps_define hput
          (.setClassVar v₂ b.innermost id value) hwithin₂ (find?_of_intern hinterned)
          fun hdata => Heap.defines_setClassVar hdata id value
        exact hdefined.imp fun _ _ _ _ hgood => ⟨hgood.1, .of_defines rfl hgood.2⟩
  | raise cls message =>
      cases hnext
      exact .of_spares (sparesModules_raiseStatement hr b cls message) hown hv
        fun b' v' h => absurd h raiseStatement_ne_ok
  | puts args =>
      cases hnext
      exact (keeps_print hr hown hv hwithin (by decide) args).imp
        fun _ _ _ _ hb' => ⟨hb', .of_none rfl⟩
  | p args =>
      cases hnext
      exact (keeps_print hr hown hv hwithin (by decide) args).imp
        fun _ _ _ _ hb' => ⟨hb', .of_none rfl⟩

/-- Statements one after the other keep definitions confined. -/
theorem keeps_statements (hr : r.SparesModules) (hown : w₀.OnlyOwn) (file : String)
    (statements : List (Nat × Statement)) (hnests : Source.Nests depth statements)
    (hstatements : ∀ entry ∈ statements, ¬ entry.2.Aliases) (hw : w₀.Wraps top w)
    (hb : w.machine.heap.HasRoom 0 → b.Within w₀.machine.heap top depth w.machine) :
    Keeps w₀ top (statements.foldlM (runStatement r file) b) w fun _ m =>
      ∀ entry ∈ statements, entry.2.Lands w₀.machine.heap m top := by
  induction statements generalizing b w depth with
  | nil => exact .pure hw fun _ _ hentry => nomatch hentry
  | cons entry rest ih =>
      obtain ⟨next, hnext, hrest⟩ := hnests
      have hfirst := keeps_runStatement hr hown hw hb file
        (hstatements entry List.mem_cons_self) hnext
      rw [List.foldlM_cons]
      refine hfirst.bind fun b' w₁ _ hw₁ _ hgood => ?_
      have hlater := ih hrest (fun other hother => hstatements other (List.mem_cons_of_mem entry hother))
        hw₁ fun hroom => (hgood hroom).1
      -- What the first statement has defined is still there after the others.
      refine hlater.imp fun _ w₂ hled hroom hothers => ?_
      have hlands := (hgood (hroom.of_evolves hled.evolves)).2
      exact List.forall_mem_cons.mpr ⟨hled.statement_lands hlands, hothers⟩

/-- A whole script around which there is a new module keeps definitions confined, with the frame
that it has. -/
theorem keeps_script (hr : r.SparesModules) (hown : w₀.OnlyOwn) (file : String)
    (statements : List (Nat × Statement)) (hnests : Source.Nests 0 statements)
    (hstatements : ∀ entry ∈ statements, ¬ entry.2.Aliases) (hw : w₀.Wraps top w)
    (htop : w.machine.heap.HasRoom 0 → w.machine.MadeBeneath w₀.machine.heap top top) :
    Keeps w₀ top (runScript r file top statements) w
      fun _ m => ∀ entry ∈ statements, entry.2.Lands w₀.machine.heap m top := by
  unfold runScript
  refine .look ?_
  refine .after (.changeFrames _) hown hw fun _ w₁ _ hw₁ hled => ?_
  have hbodies : w₁.machine.heap.HasRoom 0 →
      (⟨[top], []⟩ : Bodies).Within w₀.machine.heap top 0 w₁.machine := fun hroom =>
    have htop₁ := (htop (hroom.of_evolves hled.evolves)).of_evolves hled.evolves
    ⟨rfl, fun scope hscope => List.mem_singleton.mp hscope ▸ htop₁⟩
  have hrun := keeps_statements hr hown file statements hnests hstatements hw₁ hbodies
  refine hrun.bind fun _ w₂ _ hw₂ _ hlands => ?_
  have hframes : SparesModules (changeMachine fun m =>
      { m with frames := truncate w.machine.frames.length m.frames } : Eval σ Unit) :=
    .changeFrames _
  have hleft : Keeps w₀ top _ w₂ fun _ _ => True :=
    .of_spares hframes hown hw₂ fun _ _ _ _ => trivial
  exact hleft.imp fun _ w₃ hled₂ hroom _ entry hentry =>
    hled₂.statement_lands (hlands (hroom.of_evolves hled₂.evolves) entry hentry)

/-- The statements of the script at a path, and none if there is no script that can be run. -/
def statementsAt (m : Machine) (path : String) : List (Nat × Statement) :=
  match read? m path with
  | some (_, text) =>
    match Source.parse text with
    | .ok statements => statements
    | .error _ => []
  | none => []

/-- A script that can be run gets a new module around it, and its definitions are confined to that. -/
theorem keeps_load_of_parsed (hr : r.SparesModules) (hown : w₀.OnlyOwn)
    (hspares : w₀.SparesModules w) {path file : String} {text : List Char}
    {statements : List (Nat × Statement)} (hread : read? w.machine path = some (file, text))
    (hparse : Source.parse text = .ok statements)
    (hscript : ∀ entry ∈ statements, ¬ entry.2.Aliases) :
    ∃ top, Keeps w₀ top (load r path true) w fun _ m =>
      ∀ entry ∈ statements, entry.2.Lands w₀.machine.heap m top := by
  let made := w.machine.newModule none none
  let w₁ : World σ := { w with machine := made.2 }
  have hled : w.LeadsTo w₁ := .newModule w none none
  have hmade : made.2.heap.HasRoom 0 → made.2.Confines w₀.machine.heap made.1 ∧
      made.2.MadeBeneath w₀.machine.heap made.1 made.1 := fun hroom =>
    Machine.Confines.wrap hspares.modules (Heap.addressable_of_alloc hroom)
  have hw₁ : w₀.Wraps made.1 w₁ :=
    ⟨hspares.reaches.trans hled.reaches, fun hroom => (hmade hroom).1⟩
  have hrun := keeps_script hr hown file statements (Source.nests_parse hparse) hscript hw₁
    fun hroom => (hmade hroom).2
  exact ⟨made.1, .of_eq (load_eq_runScript hread hparse true) hrun.wraps
    (hled.trans hrun.leadsTo) hrun.good⟩

/-- Loading a script with a module around it keeps definitions confined, and what the script defines is
in that module or beneath it. -/
theorem keeps_load (hr : r.SparesModules) (hown : w₀.OnlyOwn) (hspares : w₀.SparesModules w)
    {path : String} (hscript : ∀ entry ∈ statementsAt w.machine path, ¬ entry.2.Aliases) :
    ∃ top, Keeps w₀ top (load r path true) w fun _ m =>
      ∀ entry ∈ statementsAt w.machine path, entry.2.Lands w₀.machine.heap m top := by
  -- Where no script is run, there is no wrapping module, and any word may stand for it.
  have hspared : w₀.Wraps Value.nil w := ⟨hspares.reaches, fun _ => .of_spared hspares.modules⟩
  cases hread : read? w.machine path with
  | none =>
      refine ⟨Value.nil, .look ?_⟩
      rw [hread]
      exact .raise hown hspared _
  | some found =>
      obtain ⟨file, text⟩ := found
      cases hparse : Source.parse text with
      | error e =>
          refine ⟨Value.nil, .look ?_⟩
          rw [hread]
          dsimp only
          rw [hparse]
          exact .raise hown hspared _
      | ok statements =>
          have hsaid : statementsAt w.machine path = statements := by
            unfold statementsAt
            rw [hread]
            dsimp only
            rw [hparse]
          rw [hsaid] at hscript ⊢
          exact keeps_load_of_parsed hr hown hspares hread hparse hscript

/-- The task of loading a script keeps definitions confined, for a path that is a string. -/
theorem keeps_perform (hr : r.SparesModules) (hown : w₀.OnlyOwn) (hspares : w₀.SparesModules w)
    {script : Value} {path : List UInt8} (hpath : w.machine.heap.bytes? script = some path)
    (hscript : ∀ entry ∈ statementsAt w.machine (Utf8.stringLossy path), ¬ entry.2.Aliases) :
    ∃ top, Keeps w₀ top (perform r (.load script true)) w fun _ m =>
      ∀ entry ∈ statementsAt w.machine (Utf8.stringLossy path),
        entry.2.Lands w₀.machine.heap m top := by
  obtain ⟨top, hload⟩ := keeps_load hr hown hspares hscript
  have hobject : loadObject r script true w = load r (Utf8.stringLossy path) true w := by
    unfold loadObject
    rw [machine_bind_apply, hpath]
  have hloaded : Keeps w₀ top (loadObject r script true) w fun _ m =>
      ∀ entry ∈ statementsAt w.machine (Utf8.stringLossy path),
        entry.2.Lands w₀.machine.heap m top :=
    .of_eq hobject hload.wraps hload.leadsTo hload.good
  exact ⟨top, hloaded.bind fun _ w' _ hw' _ hlands => .pure hw' hlands⟩

end Loader

/-! ### The operation -/

namespace Vm

open Loader (Keeps statementsAt)

variable {r : Reentry σ}

/-- An operation does nothing after its task but make an error of the jump that left it. -/
theorem keeps_settled (hr : r.SparesModules) (hown : w₀.OnlyOwn) {action : Eval σ α}
    {Good : Machine → Prop} (h : Keeps w₀ top action w fun _ m => Good m) (f : α → β) :
    Keeps w₀ top (settled r (guarded action >>= fun a => pure (f a))) w fun answer m =>
      (∃ b, answer = .ok b) → Good m := by
  obtain ⟨hwraps, hled, hgood⟩ := h
  have hopen := settled_bind_apply r (guarded action) (fun a => pure (f a)) w
  rw [guarded_run_apply] at hopen
  cases hrun : action w with
  | ok a w₁ =>
      rw [hrun] at hopen hwraps hled
      refine .of_eq hopen hwraps hled fun answer w' hanswer hroom _ => ?_
      cases hanswer
      exact hgood a w₁ hrun hroom
  | error exit w₁ =>
      rw [hrun] at hopen hwraps hled
      cases exit with
      | panic p => exact .of_eq hopen hwraps hled fun _ _ h => by cases h
      | exhausted => exact .of_eq hopen hwraps hled fun _ _ h => by cases h
      | jump jump =>
          have hrestored : w₁.SparesModules (w₁.restored w) := .restored w₁ w
          have hown₁ := hrestored.onlyOwn (hwraps.onlyOwn hown)
          have hspares := hrestored.trans (sparesModules_surfaced hr β jump _ hown₁)
          refine .of_eq hopen (hwraps.of_spares hspares) (hled.trans (.of_spares hspares)) ?_
          rintro answer w' hanswer - ⟨b, rfl⟩
          exact absurd hanswer (surfaced_ne_ok r)

/-- The operation keeps definitions confined: it brings the interpreter up, makes a string of the path
and has the script of this path loaded, and if a jump leaves the script, it makes an error of it. -/
theorem keeps_load (hr : r.SparesModules) (hfollows : r.Follows AnyProbe) {path : List UInt8}
    (hown : w.OnlyOwn)
    {statements : List (Nat × Statement)}
    (hsaid : statementsAt (Outcome.world ((ensureSetup : Checked σ Unit).run w)).machine
      (Utf8.stringLossy path) = statements)
    (hscript : ∀ entry ∈ statements, ¬ entry.2.Aliases)
    (hroom : (Outcome.world (settled r (load r path true) w)).machine.heap.HasRoom 0) :
    ∃ top, Keeps w top (settled r (load r path true)) w fun answer m =>
      (∃ b, answer = .ok b) → ∀ entry ∈ statements, entry.2.Lands w.machine.heap m top := by
  have hspared : ∀ {outcome}, settled r (load r path true) w = outcome →
      w.SparesModules (Outcome.world outcome) → (∀ b w', outcome ≠ .ok (.ok b) w') →
      ∃ top, Keeps w top (settled r (load r path true)) w fun answer m =>
        (∃ b, answer = .ok b) → ∀ entry ∈ statements, entry.2.Lands w.machine.heap m top := by
    intro outcome hrun hspares hnone
    refine ⟨Value.nil, .of_eq hrun ⟨hspares.reaches, fun _ => .of_spared hspares.modules⟩
      (.of_spares hspares) ?_⟩
    rintro answer w' hanswer - ⟨b, rfl⟩
    exact absurd hanswer (hnone b w')
  have hsetup := sparesModules_ensureSetup w
  have hopen : settled r (load r path true) w = _ := settled_bind_apply r ensureSetup _ w
  cases hrun : (ensureSetup : Checked σ Unit).run w with
  | error exit w₁ =>
      rw [hrun] at hsetup hopen
      exact hspared hopen hsetup fun _ _ h => by cases h
  | ok result w₁ =>
      rw [hrun] at hsetup hsaid hopen
      have hown₁ := hsetup.onlyOwn hown
      match result with
      | .error (.refused error) => exact hspared hopen hsetup fun _ _ h => by cases h
      | .error (.exited jump) =>
          have hsurfaced := hsetup.trans (sparesModules_surfaced hr Unit jump w₁ hown₁)
          exact hspared hopen hsurfaced fun b w' => surfaced_ne_ok r
      | .ok () =>
          dsimp only at hopen
          cases hdecoded : Utf8.decode? path with
          | error e =>
              rw [hdecoded] at hopen
              exact hspared hopen (hsetup.trans (.recorded w₁ _)) fun _ _ h => by cases h
          | ok text =>
              rw [hdecoded] at hopen
              let script := (w₁.machine.newString path).1
              let w₂ : World σ := { w₁ with machine := (w₁.machine.newString path).2 }
              change settled r (load r path true) w =
                settled r (attempt r (.load script true) >>= fun _ => pure ()) w₂ at hopen
              rw [hopen] at hroom
              have hmade : w.SparesModules w₂ :=
                hsetup.trans (SparesModules.newString path w₁ hown₁)
              have htask : (Task.load script true).IsUncounted := trivial
              have hsteps : Stepwise r (Closure.Uses AnyProbe)
                  (attempt r (.load script true) >>= fun _ => pure ()) :=
                (Stepwise.attempt _ htask).bind fun _ => .pure ()
              have hgrown := evolves_settled hfollows hsteps w₂
              have hbody : w₂.machine.heap.body? script = some (.string path) :=
                Heap.body?_alloc (Heap.addressable_of_alloc (hroom.of_evolves hgrown)) _ _
              have hpath : w₂.machine.heap.bytes? script = some path := by
                unfold Heap.bytes?
                rw [hbody]
              subst hsaid
              obtain ⟨top, hperformed⟩ := Loader.keeps_perform hr hown hmade hpath hscript
              obtain ⟨hwraps, hled, hgood⟩ := keeps_settled hr hown hperformed fun _ => ()
              exact ⟨top, .of_eq hopen hwraps ((World.LeadsTo.of_spares hmade).trans hled) hgood⟩

end Vm

end Course

namespace World

variable {σ : Type} {w₀ w : World σ}

/-- **Wrapped scripts define nothing outside.**  Where nobody has defined a method, a script with a
module of its own around it may do whatever it says, unless it assigns a path of constants to a
constant, and it may end in any way: every module that was there before is as it was, with its
constants and class variables, and a module that is new was made beneath the wrapping one, or is
blank.  If the script comes to its end, whatever it defines is in modules beneath the wrapping one. -/
theorem wrapped_load_confines (fuel : Nat) {path : List UInt8} {statements : List (Nat × Statement)}
    (hids : w₀.ids = {})
    (hreached : w₀.Reaches AnyProbe w)
    (hown : w.machine.OnlyOwn)
    (hsaid : Loader.statementsAt
      (Outcome.world ((Vm.ensureSetup : Checked σ Unit).run w)).machine (Utf8.stringLossy path) =
        statements)
    (hscript : ∀ entry ∈ statements, ¬ entry.2.Aliases)
    (hroom : (Outcome.world
      ((Operation.load path true).answer (.ofFuel fuel) w)).machine.heap.HasRoom 0) :
    let w' := Outcome.world ((Operation.load path true).answer (.ofFuel fuel) w)
    (∀ v data, w.machine.heap.module? v = some data → w'.machine.heap.module? v = some data) ∧
    ∃ top,
      (∀ v data, w.machine.heap.module? v = none → w'.machine.heap.module? v = some data →
        w'.machine.MadeBeneath w.machine.heap top v ∨ data.Blank) ∧
      ((Operation.load path true).answer (.ofFuel fuel) w = .ok (.ok ()) w' →
        ∀ entry ∈ statements, entry.2.Lands w.machine.heap w'.machine top) := by
  intro w'
  have hnames : w.NamesAgree := hreached.namesAgree (World.namesAgree_of_unasked hids)
  obtain ⟨top, hwraps, -, hlands⟩ := Vm.keeps_load (Reentry.sparesModules_ofFuel fuel)
    (Reentry.follows_ofFuel AnyProbe fuel) ⟨hown, hnames⟩ hsaid hscript hroom
  obtain ⟨hkept, hnew⟩ := hwraps.confines hroom
  refine ⟨hkept, top, fun v data hbefore hdata => (hnew v data hbefore hdata).place, ?_⟩
  exact fun hanswer => hlands (.ok ()) w' hanswer hroom ⟨(), rfl⟩

/-- A world with two scripts that have a class by the name of a core class.  One of them comes to its
end, the other does not. -/
def namesake : World Unit :=
  let text := "class String\nWidth = 8\n@@count = 0\nend\n"
  { World.willing with
    machine := { World.willing.machine with
      files := { nodes := [(["work", "done.rb"], .file text.toUTF8.toList),
        (["work", "stopped.rb"], .file (text ++ "raise \"stop\"").toUTF8.toList)] } } }

/-- The script has come to its end, and nothing was raised. -/
def cameToItsEnd (answer : Outcome σ (Except Error Unit)) : Bool :=
  match answer with
  | .ok (.ok ()) _ => true
  | _ => false

/-- What an answer that has come to its end looks like. -/
theorem eq_of_cameToItsEnd {answer : Outcome σ (Except Error Unit)}
    (h : cameToItsEnd answer = true) : answer = .ok (.ok ()) (Outcome.world answer) := by
  rcases answer with ⟨_ | _, w'⟩ | ⟨exit, w'⟩
  · cases h
  · rfl
  · cases h

/-- Whether the script comes to its end or not, its class is not the core class, which is as it was; and
if it does, the class variable is that of a class beneath the wrapping module. -/
theorem wrapped_load_confines_namesake :
    let w := namesake
    let done := (Operation.load "done.rb".toUTF8.toList true).answer (.ofFuel 4 : Reentry Unit) w
    let stopped :=
      (Operation.load "stopped.rb".toUTF8.toList true).answer (.ofFuel 4 : Reentry Unit) w
    w.ids = {} ∧ w.Reaches AnyProbe w ∧ w.machine.OnlyOwn ∧
    (Outcome.world stopped).history.errors.length = 1 ∧
    (∃ data, w.machine.heap.module? CoreClass.string.value = some data ∧
      (Outcome.world stopped).machine.heap.module? CoreClass.string.value = some data ∧
      (Outcome.world done).machine.heap.module? CoreClass.string.value = some data) ∧
    ∃ top, (Outcome.world done).machine.Lands w.machine.heap top .classVars "@@count" := by
  intro w done stopped
  have hended : cameToItsEnd ((Operation.load "done.rb".toUTF8.toList true).answer
      (.ofFuel 4 : Reentry Unit) namesake) = true := by decide +kernel
  have hids : w.ids = {} := rfl
  have hown : w.machine.OnlyOwn := fun module id method hmethod => by cases hmethod
  have hroom : (Outcome.world done).machine.heap.HasRoom 0 := by decide +kernel
  have hroom' : (Outcome.world stopped).machine.heap.HasRoom 0 := by decide +kernel
  obtain ⟨hkept, top, -, hlands⟩ :=
    wrapped_load_confines 4 hids .refl hown rfl (by decide +kernel) hroom
  obtain ⟨hkept', -⟩ := wrapped_load_confines 4 hids .refl hown rfl (by decide +kernel) hroom'
  have hleft : (Outcome.world stopped).history.errors.length = 1 := by decide +kernel
  have hcore : (w.machine.heap.module? CoreClass.string.value).isSome = true := by decide +kernel
  obtain ⟨data, hdata⟩ := Option.isSome_iff_exists.mp hcore
  have hdefines : ∃ entry ∈ Loader.statementsAt
      (Outcome.world ((Vm.ensureSetup : Checked Unit Unit).run w)).machine
      (Utf8.stringLossy "done.rb".toUTF8.toList),
        entry.2.defines? = some (.classVars, "@@count") := by
    decide +kernel
  obtain ⟨entry, hentry, hcount⟩ := hdefines
  exact ⟨rfl, .refl, hown, hleft, ⟨data, hdata, hkept' _ data hdata, hkept _ data hdata⟩, top,
    hlands (eq_of_cameToItsEnd hended) entry hentry _ _ hcount⟩

end World

end EmbeddedRuby
