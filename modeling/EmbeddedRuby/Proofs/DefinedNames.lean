import EmbeddedRuby.Proofs.CachedNames
import EmbeddedRuby.Proofs.ReadNames
import EmbeddedRuby.Proofs.SettledErrors
import EmbeddedRuby.Proofs.WrappedScripts

/-!
# The names that scripts define

What a name may be is said on two sides.  A script names what it defines with identifiers; the host
refuses a name that cannot be right before it looks anything up.  An identifier of a script may end in
`?` or `!`, as a symbol may, and that is the only thing on which the two sides differ
(`DefinedName.isName_iff`): `Foo? = 1` is a statement, and its constant is one that the host cannot
ask for.

Main statement: what a script defines the host can look up just in case no such mark ends its name
(`Source.defined_name_found_iff_unmarked`).
-/

namespace EmbeddedRuby

open Eval Text

/-! ### What statements define -/

/-- What the host calls a name in such a table. -/
def ModuleTable.identifierKind : ModuleTable → IdentifierKind
  | .constants => .constant
  | .classVars => .classVariable

/-- A name as scripts write it for something in such a table. -/
def DefinedName : ModuleTable → List Char → Prop
  | .constants, name => IsIdentifier name ∧ name.head?.any isCapital = true
  | .classVars, name => ∃ body, name = '@' :: '@' :: body ∧ IsIdentifier body

namespace DefinedName

variable {kind : ModuleTable} {name : String}

/-- **The two sides differ on nothing but a mark.** -/
theorem isName_iff (h : DefinedName kind name.toList) :
    Vm.isName kind.identifierKind name = true ↔ ¬Marked name.toList := by
  cases kind with
  | constants =>
      obtain ⟨hidentifier, hcapital⟩ := h
      have hsides : Vm.isName ModuleTable.constants.identifierKind name =
          (name.toList.head?.any isCapital && name.toList.all isWordChar) := rfl
      rw [hsides, hcapital, Bool.true_and]
      exact hidentifier.all_isWordChar_iff
  | classVars =>
      obtain ⟨body, hname, hidentifier⟩ := h
      have hsides : Vm.isName ModuleTable.classVars.identifierKind name =
          (!body.isEmpty && body.all isWordChar) := by
        change Vm.isClassVarName name = _
        unfold Vm.isClassVarName
        rw [hname]
        rfl
      have hbody : body.isEmpty = false := by
        simpa using hidentifier.ne_nil
      have hlast : Marked name.toList ↔ Marked body := by
        obtain ⟨c, rest, rfl⟩ := List.exists_cons_of_ne_nil hidentifier.ne_nil
        simp [hname, Marked, List.getLast?_cons_cons]
      rw [hsides, hbody, Bool.not_false, Bool.true_and, hlast]
      exact hidentifier.all_isWordChar_iff

/-- No such name is refused as a symbol. -/
theorem isName_symbol (h : DefinedName kind name.toList) : Vm.isName .symbol name = true := by
  rw [World.isName_symbol_iff]
  cases kind with
  | constants => exact h.1.not_mem (by decide) (by decide)
  | classVars =>
      obtain ⟨body, hname, hidentifier⟩ := h
      rw [hname]
      simpa using hidentifier.not_mem (c := '\x00') (by decide) (by decide)

/-- Whatever a statement defines is named so if it was read. -/
theorem of_namesRead {statement : Statement} (hread : statement.NamesRead)
    (hdefines : statement.defines? = some (kind, name)) : DefinedName kind name.toList := by
  cases statement with
  | openClass | openModule | setConstant | setClassVar =>
      cases hdefines
      simpa [DefinedName, Statement.NamesRead] using hread
  | close | raise | puts | p => cases hdefines

/-- A name that the host may give for a constant is one that scripts can write. -/
theorem of_isName (hname : Vm.isName .constant name = true) : DefinedName .constants name.toList := by
  change (name.toList.head?.any isCapital && name.toList.all isWordChar) = true at hname
  obtain ⟨hcapital, hword⟩ := Bool.and_eq_true_iff.mp hname
  refine ⟨⟨name.toList, [], (List.append_nil _).symm, ?_, List.all_eq_true.mp hword, by simp⟩, hcapital⟩
  intro hnil
  rw [hnil] at hcapital
  cases hcapital

end DefinedName

/-! ### What the host can look up -/

namespace Heap

variable {h : Heap} {module value : Value} {id : SymbolId}

/-- A constant that the module itself has hides those of the modules above it. -/
theorem constant?_of_constantAt? (hvalue : h.constantAt? module id = some value) :
    h.constant? module id = some value := by
  obtain ⟨above, habove⟩ := h.ancestors_eq_cons module
  rw [constant?, habove, List.cons_append, List.findSome?_cons, hvalue]

/-- A class variable that the class itself has hides those of the classes above it. -/
theorem classVar?_of_own {data : ModuleData} (hdata : h.module? module = some data)
    (hvalue : data.classVars.get? id = some value) : h.classVar? module id = some value := by
  obtain ⟨above, habove⟩ := h.ancestors_eq_cons module
  rw [classVar?, habove, List.findSome?_cons, hdata, Option.bind_some, hvalue]

end Heap

variable {σ : Type}

/-- A constant of the module's own is found, from the module as in it alone. -/
theorem Reentry.constant_apply_of_constantAt? {r : Reentry σ} {module value : Value} {id : SymbolId}
    {w : World σ} (hvalue : w.machine.heap.constantAt? module id = some value)
    (hname : startsWithCapital (w.machine.symbols.name id) = true) (only : Bool) :
    r.constant module id only w = .ok value w := by
  obtain ⟨data, hdata, -⟩ := Option.bind_eq_some_iff.mp hvalue
  have hfound : (if only = true then w.machine.heap.constantAt? module id
      else w.machine.heap.constant? module id) = some value := by
    split
    · exact hvalue
    · exact Heap.constant?_of_constantAt? hvalue
  unfold Reentry.constant
  rw [machine_bind_apply, if_neg (by simp [hdata]), if_pos hname, hfound]
  rfl

/-- A class variable of the class's own is found. -/
theorem Eval.classVar_apply_of_own {cls value : Value} {id : SymbolId} {data : ModuleData}
    {w : World σ} (hdata : w.machine.heap.module? cls = some data)
    (hvalue : data.classVars.get? id = some value) : Eval.classVar cls id w = .ok value w := by
  unfold Eval.classVar
  rw [machine_bind_apply, Heap.classVar?_of_own hdata hvalue]
  rfl

namespace Vm

variable {r : Reentry σ} {module : Value} {name : String} {kind : ModuleTable}
  {operation : Checked σ Value}

/-- The operations that look a name up in such a table of a module. -/
inductive LooksUp (r : Reentry σ) (module : Value) (name : String) :
    ModuleTable → Checked σ Value → Prop
  | constantIn : LooksUp r module name .constants (constantIn r module name)
  | constantAt : LooksUp r module name .constants (constantAt r module name)
  | classVar : LooksUp r module name .classVars (classVar r module name)

/-- A name that cannot be right is refused before anything else is done. -/
theorem refusedAt_checkedName {kind : IdentifierKind} (hname : isName kind name = false)
    (w : World σ) : RefusedAt (checkedName r kind name) (.badIdentifier kind name) w := by
  unfold RefusedAt checkedName checkName
  rw [if_neg (by simp [hname])]
  rfl

/-- The answer to a jump is no word about a name. -/
theorem surfaced_ne_badIdentifier {α : Type} {jump : Jump} {w w' : World σ} {kind : IdentifierKind} :
    (Except.error <$> surface r jump : Eval σ (Except Error α)) w ≠
      .ok (.error (.badIdentifier kind name)) w' := by
  intro h
  rw [map_eq_pure_bind] at h
  obtain ⟨error, w₁, hsurface, hgiven⟩ := bind_ok_iff.mp h
  cases hgiven
  rcases error_of_surface hsurface with ⟨-, hjump⟩ | ⟨-, found, hexception, -⟩
  · cases hjump
  · cases hexception

namespace LooksUp

/-- All of them check the name, ask for its number, and then look: in the module's own table first. -/
theorem exists_look (h : LooksUp r module name kind operation) :
    ∃ look : SymbolId → Eval σ Value,
      operation = (checkedName r kind.identifierKind name >>= fun id => guarded (look id)) ∧
      ∀ {w : World σ} {id data value}, DefinedName kind name.toList →
        w.machine.symbols.find? name = some id → w.machine.heap.module? module = some data →
        (data.table kind).get? id = some value → look id w = .ok value w := by
  -- Both operations on constants are one task with a different flag.
  have hconstant : ∀ (only : Bool) {w : World σ} {id data value},
      DefinedName .constants name.toList → w.machine.symbols.find? name = some id →
      w.machine.heap.module? module = some data → data.constants.get? id = some value →
      r.constant module id only w = .ok value w := by
    intro only w id data value hdefined hid hdata hvalue
    have hown : w.machine.heap.constantAt? module id = some value :=
      Option.bind_eq_some_iff.mpr ⟨data, hdata, hvalue⟩
    refine Reentry.constant_apply_of_constantAt? hown ?_ only
    rw [SymbolTable.name_of_find? hid]
    exact hdefined.2
  cases h with
  | constantIn => exact ⟨fun id => r.constant module id false, rfl, hconstant false⟩
  | constantAt => exact ⟨fun id => r.constant module id true, rfl, hconstant true⟩
  | classVar =>
      exact ⟨fun id => Eval.classVar module id, rfl,
        fun _ _ hdata hvalue => Eval.classVar_apply_of_own hdata hvalue⟩

/-- A name that cannot be right is all that is said about. -/
theorem settled_of_illegal (h : LooksUp r module name kind operation)
    (hname : isName kind.identifierKind name = false) (w : World σ) :
    settled r operation w = .ok (.error (.badIdentifier kind.identifierKind name))
      (w.recorded (.badIdentifier kind.identifierKind name)) := by
  obtain ⟨look, rfl, -⟩ := h.exists_look
  exact ((refusedAt_checkedName hname w).bind _).settled

/-- While the interpreter is up, a name that scripts define and the host may give is looked up. -/
theorem settled_ne_badIdentifier (h : LooksUp r module name kind operation)
    (hdefined : DefinedName kind name.toList) (hname : isName kind.identifierKind name = true)
    {w w' : World σ} (hup : w.state = .up) (other : IdentifierKind) (text : String) :
    settled r operation w ≠ .ok (.error (.badIdentifier other text)) w' := by
  obtain ⟨look, rfl, -⟩ := h.exists_look
  rw [settled_bind_apply, checkedName_run_of_up hname hdefined.isName_symbol hup]
  dsimp only
  rw [settled_guarded_apply]
  cases look (w.idOf name) (w.knowing name) with
  | ok value w₁ => simp
  | error exit w₁ =>
      cases exit with
      | jump jump => exact surfaced_ne_badIdentifier
      | panic p => simp
      | exhausted => simp

/-- What a module has under the name is found. -/
theorem run_of_table (h : LooksUp r module name kind operation)
    (hdefined : DefinedName kind name.toList) (hname : isName kind.identifierKind name = true)
    {w : World σ} (hup : w.state = .up) (hagree : w.NamesAgree) {id : SymbolId} {data : ModuleData}
    {value : Value} (hid : w.machine.symbols.find? name = some id)
    (hdata : w.machine.heap.module? module = some data)
    (hvalue : (data.table kind).get? id = some value) :
    operation.run w = .ok (.ok value) (w.knowing name) := by
  obtain ⟨look, rfl, hlook⟩ := h.exists_look
  have hnumber : w.idOf name = id :=
    Option.some.inj ((hagree.find?_idOf hid).symm.trans hid)
  have hknown : (w.knowing name).machine.symbols.find? name = some id :=
    Machine.Steps.find?_kept (w.knowing_steps name) hid
  rw [run_bind_apply, checkedName_run_of_up hname hdefined.isName_symbol hup]
  dsimp only
  rw [hnumber, guarded_run_apply,
    hlook hdefined hknown ((w.knowing_heap name).symm ▸ hdata) hvalue]

end LooksUp

end Vm

namespace Source

variable {source : List Char} {statements : List (Nat × Statement)} {entry : Nat × Statement}
  {kind : ModuleTable} {name : String}

/-- **What a script defines the host can look up just in case no mark ends its name.**  The name of
whatever a statement defines passes the host's check unless it ends in `?` or `!`.  With such a mark
every way to look it up is refused, in every world; without one none is refused while the interpreter
is up, and from a module that has the definition it is given. -/
theorem defined_name_found_iff_unmarked (hparse : parse source = .ok statements)
    (hentry : entry ∈ statements) (hdefines : entry.2.defines? = some (kind, name)) :
    (Vm.isName kind.identifierKind name = true ↔ ¬Marked name.toList) ∧
    ∀ {r : Reentry σ} {module operation}, Vm.LooksUp r module name kind operation →
      (Marked name.toList → ∀ w,
        Vm.settled r operation w = .ok (.error (.badIdentifier kind.identifierKind name))
          (w.recorded (.badIdentifier kind.identifierKind name))) ∧
      (¬Marked name.toList → ∀ w, w.state = .up →
        (∀ other text w',
          Vm.settled r operation w ≠ .ok (.error (.badIdentifier other text)) w') ∧
        (w.NamesAgree → ∀ id data value, w.machine.symbols.find? name = some id →
          w.machine.heap.module? module = some data → (data.table kind).get? id = some value →
          Vm.settled r operation w = .ok (.ok value) (w.knowing name))) := by
  have hdefined : DefinedName kind name.toList :=
    .of_namesRead (namesRead_parse hparse entry hentry) hdefines
  refine ⟨hdefined.isName_iff, fun {r module operation} hlooks => ⟨fun hmarked w => ?_, ?_⟩⟩
  · have hname : Vm.isName kind.identifierKind name = false := by
      rw [Bool.eq_false_iff]
      exact fun hlegal => hdefined.isName_iff.mp hlegal hmarked
    exact hlooks.settled_of_illegal hname w
  · intro hunmarked w hup
    have hname : Vm.isName kind.identifierKind name = true := hdefined.isName_iff.mpr hunmarked
    exact ⟨fun other text w' => hlooks.settled_ne_badIdentifier hdefined hname hup other text,
      fun hagree id data value hid hdata hvalue =>
        by rw [Vm.settled_apply, hlooks.run_of_table hdefined hname hup hagree hid hdata hvalue]⟩

/-- A script that defines a class, a class variable, and a constant with a mark behind its name. -/
def markedSource : List Char :=
  "class Foo\n@@count = 1\nBar? = 2\nend\n".toList

/-- The class variable can be asked for, and `Bar?` cannot. -/
theorem defined_name_found_iff_unmarked_markedSource :
    ∃ statements, parse markedSource = .ok statements ∧
      statements.map (fun entry => entry.2.defines?) =
        [some (.constants, "Foo"), some (.classVars, "@@count"), some (.constants, "Bar?"), none] ∧
    Vm.isName .classVariable "@@count" = true ∧
    Vm.settled (.ofFuel 1) (Vm.constantAt (.ofFuel 1) CoreClass.object.value "Bar?")
        (World.bare : World Unit) =
      .ok (.error (.badIdentifier .constant "Bar?"))
        (World.bare.recorded (.badIdentifier .constant "Bar?")) := by
  have hread : (parse markedSource).toOption.map (fun statements =>
      statements.map fun entry => entry.2.defines?) = some
        [some (.constants, "Foo"), some (.classVars, "@@count"), some (.constants, "Bar?"), none] := by
    decide +kernel
  cases hparse : parse markedSource with
  | error fault =>
      rw [hparse] at hread
      cases hread
  | ok statements =>
      rw [hparse] at hread
      have hdefines : statements.map (fun entry => entry.2.defines?) =
          [some (.constants, "Foo"), some (.classVars, "@@count"), some (.constants, "Bar?"), none] :=
        Option.some.inj hread
      have hsecond : some (.classVars, "@@count") ∈
          statements.map fun entry => entry.2.defines? := by
        rw [hdefines]
        simp
      have hthird : some (.constants, "Bar?") ∈
          statements.map fun entry => entry.2.defines? := by
        rw [hdefines]
        simp
      obtain ⟨counting, hcounting, hcount⟩ := List.mem_map.mp hsecond
      obtain ⟨naming, hnaming, hbar⟩ := List.mem_map.mp hthird
      obtain ⟨hlegal, -⟩ := defined_name_found_iff_unmarked (σ := Unit) hparse hcounting hcount
      obtain ⟨-, hlooked⟩ := defined_name_found_iff_unmarked (σ := Unit) hparse hnaming hbar
      exact ⟨statements, rfl, hdefines, hlegal.mpr (by decide +kernel),
        (hlooked .constantAt).1 (by decide +kernel) World.bare⟩

end Source

end EmbeddedRuby
