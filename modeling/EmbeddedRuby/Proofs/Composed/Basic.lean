import EmbeddedRuby.Machine.Perform
import EmbeddedRuby.Proofs.KeptConstants

/-!
# What the interpreter's functions are composed of

The interpreter has many functions that run, but there are few things that they do: they look at the
machine and change it, raise, call methods, and call blocks and procs.  `Eval.Composed` says that a
run is composed of these, one after the other.  Each function is shown to be so composed once, in the
modules that follow; what is to be said of all of them is then an induction over `Eval.Composed`, with
one case for each thing that can be done.

A method of the host's may ask for tasks besides.  Most tasks are composed of the same things; two are
not: one runs scripts, which enter and leave their bodies, and one counts that it was asked for a
name.  Which tasks there are in a run is therefore a parameter.
-/

namespace EmbeddedRuby

variable {σ : Type}

/-- A step of the interpreter that puts no class with a name below what is no class. -/
structure Machine.Deed (m m' : Machine) : Prop where
  step : m.Step m'
  classes : m.heap.NewStand m'.heap

/-- Such steps, in which it is not counted that a name was asked for. -/
structure Machine.Deeds (m m' : Machine) : Prop where
  deeds : Relation.ReflTransGen Machine.Deed m m'
  internCalls : m'.internCalls = m.internCalls

/-- Such steps, in which no module is given a name and no constant something else to hold, and no
constant is set that is there already. -/
structure Machine.Works (m m' : Machine) : Prop extends Machine.Deeds m m' where
  constants : m.heap.KeepsConstants m'.heap
  overwrites : m'.overwrites = m.overwrites

namespace Machine.Deeds

variable {m m₁ m₂ : Machine}

/-- Deeds are steps of the interpreter. -/
theorem steps (h : m.Deeds m₁) : m.Steps m₁ :=
  h.deeds.lift id fun _ _ deed => deed.step

/-- Deeds put new classes with names below classes only. -/
theorem classes (h : m.Deeds m₁) : m.heap.NewStand m₁.heap := by
  obtain ⟨hdeeds, -⟩ := h
  induction hdeeds with
  | refl => exact .refl m.heap
  | tail _ last ih => exact ih.trans last.classes last.step.evolves

/-- No deed at all is among the ways to proceed. -/
theorem refl (m : Machine) : m.Deeds m :=
  ⟨.refl, rfl⟩

/-- Deeds follow one another. -/
theorem trans (h₁ : m.Deeds m₁) (h₂ : m₁.Deeds m₂) : m.Deeds m₂ :=
  ⟨h₁.deeds.trans h₂.deeds, h₂.internCalls.trans h₁.internCalls⟩

/-- A single step, if no class is put below what is no class and no name is counted. -/
theorem of_step (h : m.Step m₁) (hclasses : m.heap.NewStand m₁.heap)
    (hcalls : m₁.internCalls = m.internCalls) : m.Deeds m₁ :=
  ⟨.single ⟨h, hclasses⟩, hcalls⟩

/-- A class with a name is put below a class. -/
theorem named (m : Machine) (name : String) {superclass : Value}
    (hsuper : m.heap.IsClass superclass) :
    m.Deeds (m.newModule (some name) (some superclass)).2 := by
  refine .of_step (.module m (some name) (some superclass)) (.alloc m.heap _ ?_) rfl
  rintro data hdata -
  cases hdata
  exact ⟨superclass, rfl, fun _ => hsuper⟩

/-- A module is no class. -/
theorem plainModule (m : Machine) (name : Option String) : m.Deeds (m.newModule name none).2 := by
  refine .of_step (.module m name none) (.alloc m.heap _ ?_) rfl
  rintro data hdata hclass
  cases hdata
  cases hclass

/-- A constant is set, which makes no object. -/
theorem setConstant (m : Machine) (module : Value) (id : SymbolId) (value : Value) :
    m.Deeds (m.setConstant module id value) := by
  have hstep : m.Step _ := .setConstant m module id value
  exact .of_step hstep (.of_size hstep.evolves (m.heap.size_changeModule _ _)) rfl

end Machine.Deeds

namespace Machine.Works

variable {m m₁ m₂ : Machine}

/-- Having nothing to do is work as well. -/
theorem refl (m : Machine) : m.Works m :=
  ⟨.refl m, .refl m.heap, rfl⟩

/-- Works follow one another, and what holds of constants and names in both holds of the whole. -/
theorem trans (h₁ : m.Works m₁) (h₂ : m₁.Works m₂) : m.Works m₂ :=
  ⟨h₁.toDeeds.trans h₂.toDeeds, h₁.constants.trans h₂.constants h₂.steps.evolves,
    h₂.overwrites.trans h₁.overwrites⟩

/-- A new object that is no module. -/
theorem of_alloc {cls : Value} {b : Body} (h : m.Step (m.alloc cls b).2)
    (hother : ∀ data, b ≠ .ofModule data) : m.Works (m.alloc cls b).2 := by
  have hspares : m.heap.SparesModules (m.heap.alloc cls b).2 :=
    .alloc m.heap cls fun data hdata => absurd hdata (hother data)
  exact ⟨.of_step h (.alloc_other m.heap cls hother) rfl, hspares.keepsConstants, rfl⟩

/-- A step that makes no object makes no class. -/
theorem of_size (h : m.Step m₁) (hsize : m₁.heap.slots.size = m.heap.slots.size)
    (hconstants : m.heap.KeepsConstants m₁.heap) (hcalls : m₁.internCalls = m.internCalls)
    (hoverwrites : m₁.overwrites = m.overwrites) : m.Works m₁ :=
  ⟨.of_step h (.of_size h.evolves hsize) hcalls, hconstants, hoverwrites⟩

/-- A step that does not concern the objects at all makes no class. -/
theorem of_heap (h : m.Step m₁) (hheap : m₁.heap = m.heap)
    (hcalls : m₁.internCalls = m.internCalls) (hoverwrites : m₁.overwrites = m.overwrites) :
    m.Works m₁ :=
  .of_size h (by rw [hheap]) (hheap ▸ .refl m.heap) hcalls hoverwrites

/-- A new string is no module. -/
theorem string (m : Machine) (bytes : List UInt8) : m.Works (m.newString bytes).2 :=
  .of_alloc (.string m bytes) nofun

/-- A new Float is no module. -/
theorem float (m : Machine) (x : Double) : m.Works (m.newFloat x).2 :=
  .of_alloc (.float m x) nofun

/-- An Integer is no module, with or without an object of its own. -/
theorem integer (m : Machine) (n : Int) : m.Works (m.newInteger n).2 :=
  ⟨.of_step (.integer m n) (.ofInteger m.heap n) rfl,
    (Heap.SparesModules.ofInteger m.heap n).keepsConstants, rfl⟩

/-- A new array is no module. -/
theorem array (m : Machine) (items : List Value) : m.Works (m.newArray items).2 :=
  .of_alloc (.array m items) nofun

/-- A new object that is an instance is no class. -/
theorem «instance» (m : Machine) (cls : Value) {body : Body} (hbody : body.IsInstance) :
    m.Works (m.alloc cls body).2 := by
  refine .of_alloc (.instance m cls hbody) ?_
  rintro data rfl
  exact hbody

/-- A class without a name may be put below anything. -/
theorem anonymous (m : Machine) (superclass : Option Value) :
    m.Works (m.newModule none superclass).2 := by
  refine ⟨.of_step (.module m none superclass) (.alloc m.heap _ ?_) rfl,
    (Heap.SparesModules.alloc m.heap _ ?_).keepsConstants, rfl⟩
  · rintro data hdata hclass
    cases hdata
    obtain ⟨parent, hparent⟩ := Option.isSome_iff_exists.mp hclass
    exact ⟨parent, hparent, nofun⟩
  · rintro data hdata
    cases hdata
    exact ⟨rfl, rfl, rfl⟩

/-- Interning a name does not concern the objects. -/
theorem intern (m : Machine) (name : String) : m.Works (m.intern name).2 :=
  .of_heap (.intern m name) rfl rfl rfl

/-- The number of an iteration does not concern the objects. -/
theorem newTarget (m : Machine) : m.Works { m with lastTarget := m.lastTarget + 1 } :=
  .of_heap (.newTarget m) rfl rfl rfl

/-- The output does not concern the objects. -/
theorem print (m : Machine) (text : String) : m.Works (m.print text) :=
  .of_heap (.print m text) rfl rfl rfl

/-- A class variable is no constant. -/
theorem setClassVar (m : Machine) (cls : Value) (id : SymbolId) (value : Value) :
    m.Works { m with heap := m.heap.setClassVar cls id value } :=
  .of_size (.setClassVar m cls id value) (m.heap.size_changeModule _ _)
    (.setClassVar m.heap cls id value) rfl rfl

/-- Items are added to an array that is there. -/
theorem pushItems (m : Machine) (array : Value) (items : List Value) :
    m.Works { m with heap := Methods.pushItems m.heap array items } := by
  have hspares : m.heap.SparesModules (Methods.pushItems m.heap array items) := by
    unfold Methods.pushItems
    split
    · rename_i found hitems
      exact .setBody (Heap.body?_of_items? hitems) nofun nofun
    · exact .refl m.heap
  refine .of_size (.pushItems m array items) ?_ hspares.keepsConstants rfl rfl
  unfold Methods.pushItems
  split
  · exact m.heap.size_setBody _ _
  · rfl

/-- A pair is stored in a hash that is there. -/
theorem storeInHash (m : Machine) (hash key value : Value) :
    m.Works (m.storeInHash hash key value) := by
  have hspares : m.heap.SparesModules (m.storeInHash hash key value).heap := by
    unfold Machine.storeInHash
    split
    · rename_i pairs hpairs
      exact .setBody (Heap.body?_of_pairs? hpairs) nofun nofun
    · exact .refl m.heap
  refine .of_size (.storeInHash m hash key value) ?_ hspares.keepsConstants ?_ ?_ <;>
    unfold Machine.storeInHash <;> split
  · exact m.heap.size_setBody _ _
  all_goals rfl

/-- Pairs are stored one by one, by induction over them. -/
theorem storePairs (hash : Value) (pairs : List (Value × Value)) (m : Machine) :
    m.Works (pairs.foldl (fun m pair => m.storeInHash hash pair.1 pair.2) m) := by
  induction pairs generalizing m with
  | nil => exact .refl m
  | cons pair rest ih => exact (storeInHash m hash pair.1 pair.2).trans (ih _)

/-- A datum is made of objects none of which is a module. -/
theorem make (m : Machine) (datum : Datum) : m.Works (m.make datum).2 := by
  cases datum with
  | int n => exact .integer m n
  | float x => exact .float m x
  | string bytes => exact .string m bytes
  | symbol name => exact .intern m name
  | array items => exact .array m items
  | hash pairs =>
      have hempty : (Body.hash []).IsInstance := trivial
      have hmade : m.Works (m.alloc CoreClass.hash.value (.hash [])).2 :=
        .instance m CoreClass.hash.value hempty
      exact hmade.trans (storePairs _ pairs _)

/-- Texts are made one by one. -/
theorem newTexts (m : Machine) (texts : List String) : m.Works (m.newTexts texts).2 := by
  induction texts generalizing m with
  | nil => exact .refl m
  | cons text rest ih =>
      have hmade : m.Works (m.newText text).2 := .string m _
      exact hmade.trans (ih _)

/-- A backtrace is an array of new texts. -/
theorem backtrace (m : Machine) : m.Works m.backtrace.2 :=
  (newTexts m (m.frames.map Frame.render)).trans (.array _ _)

/-- An exception is made after its message and its backtrace. -/
theorem newException (m : Machine) (fault : Fault) : m.Works (m.newException fault).2 := by
  have hmessage : m.Works (m.newText fault.message).2 := .string m _
  have htraced := hmessage.trans (backtrace _)
  exact htraced.trans (.instance _ _ trivial)

end Machine.Works

/-- The block is one for an iteration, without code of the host's in it. -/
def Block.IsBare (target : Nat) : Block σ → Prop
  | .host .none goal | .proc _ goal => goal = target
  | .none | .host (.some _) _ => False

namespace Eval

/-- The run is composed of what the interpreter does, inside a call with this block, and of tasks
that are allowed. -/
inductive Composed (r : Reentry σ) (block : Block σ) (allowed : Task → Prop) :
    {α : Type} → Eval σ α → Prop
  | pure {α : Type} (a : α) : Composed r block allowed (Pure.pure a)
  | bind {α β : Type} {x : Eval σ α} {f : α → Eval σ β} (first : Composed r block allowed x)
      (rest : ∀ a, Composed r block allowed (f a)) : Composed r block allowed (x >>= f)
  | machine : Composed r block allowed Eval.machine
  | works {α : Type} {f : Machine → α × Machine} (h : ∀ m : Machine, m.Works (f m).2) :
      Composed r block allowed (onMachine f)
  | raise {α : Type} (fault : Fault) : Composed r block allowed (Eval.raise fault : Eval σ α)
  | raiseObject {α : Type} (exception : Value) :
      Composed r block allowed (Eval.raiseObject exception : Eval σ α)
  | breakOut {α : Type} (value : Value) :
      Composed r block allowed (Eval.breakOut value : Eval σ α)
  | crash {α : Type} (message : String) :
      Composed r block allowed (Eval.crash message : Eval σ α)
  | exhausted {α : Type} : Composed r block allowed (Eval.exhausted : Eval σ α)
  /-- A method is called without a block. -/
  | send {call : Call σ} (hblock : call.block = .none) : Composed r block allowed (r.send call)
  /-- The block of the call is called. -/
  | yieldBlock {call : Call σ} (hblock : call.block = block) (args : List Value) :
      Composed r block allowed (r.yieldBlock call args)
  /-- A proc is called directly. -/
  | callProc (proc : Value) (args : List Value) (blockArg : Value) :
      Composed r block allowed (r.callProc proc args none blockArg)
  /-- A method is called with a block for an iteration of its own. -/
  | iteration {call : Nat → Call σ} (hcall : ∀ target, (call target).block.IsBare target) :
      Composed r block allowed (do
        let target ← newTarget
        iterate target (r.send (call target)))
  | perform {task : Task} (hallowed : allowed task) : Composed r block allowed (perform r task)

namespace Composed

variable {α β : Type} {r : Reentry σ} {block : Block σ} {allowed : Task → Prop}

/-- A change of the machine is one thing that the interpreter does, if it is a work. -/
theorem changeMachine {f : Machine → Machine} (h : ∀ m : Machine, m.Works (f m)) :
    Composed r block allowed (Eval.changeMachine f) :=
  works (f := fun m => (PUnit.unit, f m)) h

/-- A choice is composed of what its branches are composed of. -/
theorem ite {p : Prop} [Decidable p] {x y : Eval σ α} (hx : Composed r block allowed x)
    (hy : Composed r block allowed y) : Composed r block allowed (if p then x else y) := by
  split
  · exact hx
  · exact hy

/-- Going over a list is composed of what its steps are, by induction over the list. -/
theorem mapM {f : α → Eval σ β} (hf : ∀ a, Composed r block allowed (f a)) (items : List α) :
    Composed r block allowed (items.mapM f) := by
  induction items with
  | nil => exact .pure []
  | cons item rest ih =>
      rw [List.mapM_cons]
      exact (hf item).bind fun b => ih.bind fun bs => .pure (b :: bs)

/-- A traversal that collects nothing is composed of what its steps are. -/
theorem forM {f : α → Eval σ PUnit} (hf : ∀ a, Composed r block allowed (f a)) (items : List α) :
    Composed r block allowed (items.forM f) := by
  induction items with
  | nil => exact .pure PUnit.unit
  | cons item rest ih => exact (hf item).bind fun _ => ih

/-- Making a string is one step. -/
theorem newString (bytes : List UInt8) :
    Composed r block allowed (onMachine fun m => m.newString bytes) :=
  .works fun m => .string m bytes

/-- Making a text is one step. -/
theorem newText (text : String) : Composed r block allowed (Eval.newText text) :=
  .newString (Utf8.encodeString text)

/-- Making a Float is one step. -/
theorem newFloat (x : Double) : Composed r block allowed (onMachine fun m => m.newFloat x) :=
  .works fun m => .float m x

/-- Making an Integer is one step. -/
theorem newInteger (n : Int) : Composed r block allowed (onMachine fun m => m.newInteger n) :=
  .works fun m => .integer m n

/-- Making an array is one step. -/
theorem newArray (items : List Value) :
    Composed r block allowed (onMachine fun m => m.newArray items) :=
  .works fun m => .array m items

/-- Making a class or module without a name is one step. -/
theorem newModule (superclass : Option Value) :
    Composed r block allowed (onMachine fun m => m.newModule none superclass) :=
  .works fun m => .anonymous m superclass

/-- Making an instance of a class is one step. -/
theorem newInstance (cls : Value) {body : Body} (hbody : body.IsInstance) :
    Composed r block allowed (onMachine fun m => m.alloc cls body) :=
  .works fun m => .instance m cls hbody

/-- Interning a name is one step. -/
theorem intern (name : String) : Composed r block allowed (Eval.intern name) :=
  .works fun m => .intern m name

/-- Printing is one step. -/
theorem print (text : String) : Composed r block allowed (Eval.print text) :=
  .changeMachine fun m => .print m text

/-- A datum is made in one step, however many objects it has. -/
theorem make (datum : Datum) : Composed r block allowed (onMachine fun m => m.make datum) :=
  .works fun m => .make m datum

end Composed

end Eval

end EmbeddedRuby
