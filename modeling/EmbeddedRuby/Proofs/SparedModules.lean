import EmbeddedRuby.Proofs.CachedNames
import EmbeddedRuby.Proofs.ShownObjects

/-!
# Runs that leave the modules alone

Most of what the interpreter does defines nothing: it makes texts, numbers and other objects, raises
exceptions and shows objects.  Such a run **spares the modules** (`World.SparesModules`): what was a
module before is the same module after it, with the constants and class variables that it had, and a
module that is new has neither a name nor anything in it.

Which method a call comes to is a matter of its name.  Where all methods are the interpreter's own
(`Machine.OnlyOwn`), the names by which the interpreter itself calls methods lead to methods that spare
the modules (`sparingNames`, `Reentry.sparesModules_ofFuel`); code of the host's is reached by other
names only.
-/

namespace EmbeddedRuby

open Eval

namespace Machine

variable {m m' : Machine}

/-- However many texts are made, no module is among the new objects. -/
theorem newTexts_sparesModules (m : Machine) (texts : List String) :
    m.heap.SparesModules (m.newTexts texts).2.heap := by
  induction texts generalizing m with
  | nil => exact .refl m.heap
  | cons text rest ih =>
      have hmade : m.heap.SparesModules (m.newText text).2.heap := .alloc m.heap _ nofun
      exact hmade.trans (ih (m.newText text).2)

/-- A backtrace is an array of new texts, with no module among them. -/
theorem backtrace_sparesModules (m : Machine) : m.heap.SparesModules m.backtrace.2.heap :=
  (m.newTexts_sparesModules (m.frames.map Frame.render)).trans (.alloc _ _ nofun)

/-- Making an exception adds its message, its backtrace and itself, none of them a module. -/
theorem newException_sparesModules (m : Machine) (fault : Fault) :
    m.heap.SparesModules (m.newException fault).2.heap := by
  have hmessage : m.heap.SparesModules (m.newText fault.message).2.heap := .alloc m.heap _ nofun
  exact (hmessage.trans (backtrace_sparesModules _)).trans (.alloc _ _ nofun)

/-- Giving an exception its backtrace changes that exception and no module. -/
theorem fillBacktrace_sparesModules (m : Machine) (exception : Value) :
    m.heap.SparesModules (m.fillBacktrace exception).heap := by
  unfold fillBacktrace
  split
  · rename_i message backtrace hbody
    split
    · exact m.backtrace_sparesModules.trans (.setBody (backtrace_body? hbody) nofun nofun)
    · exact .refl m.heap
  · exact .refl m.heap

/-! ### No methods but the interpreter's own -/

/-- Every method is one of the interpreter's own, under its own name. -/
def OnlyOwn (m : Machine) : Prop :=
  ∀ module id method, m.methods.get? (module, id) = some method →
    ∃ entry ∈ ownMethods, m.symbols.find? entry.2.1 = some id ∧ method = .builtin entry.2.2

/-- Nobody else's method comes in while the method table stays as it is and names keep their ids. -/
theorem OnlyOwn.of_kept (hm : m.OnlyOwn) (hmethods : m'.methods = m.methods)
    (hnames : ∀ name id, m.symbols.find? name = some id → m'.symbols.find? name = some id) :
    m'.OnlyOwn := by
  intro module id method hmethod
  rw [hmethods] at hmethod
  obtain ⟨entry, hentry, hid, rfl⟩ := hm module id method hmethod
  exact ⟨entry, hentry, hnames _ _ hid, rfl⟩

/-- Putting one of the interpreter's own methods in place brings in nobody else's. -/
theorem OnlyOwn.defineOwn (hm : m.OnlyOwn) {entry : CoreClass × String × Builtin}
    (hentry : entry ∈ ownMethods) : (m.defineOwn entry).OnlyOwn := by
  intro module id method hmethod
  change (m.methods.insert (entry.1.value, (m.symbols.intern entry.2.1).1)
    (Method.builtin entry.2.2)).get? (module, id) = some method at hmethod
  by_cases hkey : (module, id) = (entry.1.value, (m.symbols.intern entry.2.1).1)
  · rw [hkey, Table.get?_insert_self, Option.some.injEq] at hmethod
    obtain rfl : id = (m.symbols.intern entry.2.1).1 := (Prod.mk.inj hkey).2
    exact ⟨entry, hentry, m.symbols.find?_intern_self entry.2.1, hmethod.symm⟩
  · rw [Table.get?_insert_of_ne _ _ hkey] at hmethod
    obtain ⟨other, hother, hid, rfl⟩ := hm module id method hmethod
    exact ⟨other, hother, SymbolTable.find?_intern_of_find? hid entry.2.1, rfl⟩

/-- A fresh interpreter has its own methods only. -/
theorem boot_onlyOwn : boot.OnlyOwn := by
  have hall : ∀ (entries : List (CoreClass × String × Builtin)) (m : Machine), m.OnlyOwn →
      (∀ entry ∈ entries, entry ∈ ownMethods) → (entries.foldl Machine.defineOwn m).OnlyOwn := by
    intro entries
    induction entries with
    | nil => exact fun m hm _ => hm
    | cons entry rest ih =>
        intro m hm hown
        exact ih _ (hm.defineOwn (hown entry List.mem_cons_self)) fun other hother =>
          hown other (List.mem_cons_of_mem entry hother)
  have hnone : bootClasses.OnlyOwn := by
    obtain ⟨heap, symbols, hclasses, -⟩ := bootClasses_frame
    intro module id method hmethod
    rw [hclasses] at hmethod
    cases hmethod
  rw [boot_eq]
  exact hall ownMethods _ hnone fun _ hentry => hentry

/-- What is found by the number of a name is one of the methods that have this name. -/
theorem OnlyOwn.findMethod (hm : m.OnlyOwn) {name : String} {cls : Value} {id : SymbolId}
    {method : Method} (hid : m.symbols.find? name = some id)
    (hfound : m.findMethod cls id = some method) :
    ∃ c b, (c, name, b) ∈ ownMethods ∧ method = .builtin b := by
  obtain ⟨module, -, hmethod⟩ := List.exists_of_findSome?_eq_some hfound
  obtain ⟨⟨c, other, b⟩, hentry, hother, rfl⟩ := hm module id method hmethod
  obtain rfl : other = name :=
    (SymbolTable.name_of_find? hother).symm.trans (SymbolTable.name_of_find? hid)
  exact ⟨c, b, hentry, rfl⟩

end Machine

variable {σ : Type}

/-- The interpreter has its own methods only, and the host knows names by the right numbers. -/
structure World.OnlyOwn (w : World σ) : Prop where
  methods : w.machine.OnlyOwn
  names : w.NamesAgree

/-- A name keeps its id over every development, whatever the program does. -/
theorem World.Reaches.find?_kept {P : Probe → Prop} {w w' : World σ} (h : w.Reaches P w')
    {name : String} {id : SymbolId} (hid : w.machine.symbols.find? name = some id) :
    w'.machine.symbols.find? name = some id := by
  have hstep : ∀ {u u' : World σ}, u.Change P u' →
      u.machine.symbols.find? name = some id → u'.machine.symbols.find? name = some id :=
    fun hchange hu => hchange.find?_kept hu
  exact h.kept hstep hid

/-- No operation adds a method, and names keep their numbers. -/
theorem World.Reaches.onlyOwn {w w' : World σ} (h : w.Reaches NoProbes w') (hw : w.OnlyOwn) :
    w'.OnlyOwn where
  methods := by
    have hstep : ∀ {u u' : World σ}, u.Change NoProbes u' → u.machine.OnlyOwn →
        u'.machine.OnlyOwn := fun hchange hu =>
      hu.of_kept hchange.methods_eq fun _ _ => hchange.find?_kept
    exact h.kept hstep hw.methods
  names := h.namesAgree hw.names

/-! ### Worlds and runs -/

/-- The one world is reached from the other, and the modules are spared on the way. -/
structure World.SparesModules (w w' : World σ) : Prop where
  reaches : w.Reaches NoProbes w'
  modules : w.machine.heap.SparesModules w'.machine.heap

namespace World.SparesModules

variable {w w₁ w₂ : World σ}

/-- A world spares the modules on the way to itself. -/
theorem refl (w : World σ) : w.SparesModules w :=
  ⟨.refl, .refl _⟩

/-- Sparing the modules composes: what is blank after the first part is blank after the second. -/
theorem trans (hfirst : w.SparesModules w₁) (hlater : w₁.SparesModules w₂) : w.SparesModules w₂ :=
  ⟨hfirst.reaches.trans hlater.reaches, hfirst.modules.trans hlater.modules⟩

/-- A change without probes spares the modules as soon as its heap does. -/
theorem of_change (h : w.Change NoProbes w₁)
    (hmodules : w.machine.heap.SparesModules w₁.machine.heap) : w.SparesModules w₁ :=
  ⟨.single h, hmodules⟩

/-- A change that leaves the heap alone. -/
theorem of_heap (h : w.Change NoProbes w₁) (hheap : w₁.machine.heap = w.machine.heap) :
    w.SparesModules w₁ :=
  of_change h (hheap ▸ .refl _)

/-- Raising spares the modules: the exception is the only thing made. -/
theorem raising (w : World σ) (fault : Fault) : w.SparesModules (w.raising fault) :=
  of_change (.raising w fault) (w.machine.newException_sparesModules fault)

/-- The two stacks of the interpreter hold no modules, so any other pair will do. -/
theorem restack (w : World σ) (frames : List Frame) (yields : List (Option Nat)) :
    w.SparesModules (w.onMachine fun m => { m with frames, yields }) :=
  of_heap (.restack w frames yields) rfl

/-- Putting the stacks back as they stood before a job spares the modules. -/
theorem restored (w before : World σ) : w.SparesModules (w.restored before) :=
  restack w _ _

/-- Where all methods are the interpreter's own, a run that spares the modules leaves it so. -/
theorem onlyOwn (h : w.SparesModules w₁) (hw : w.OnlyOwn) : w₁.OnlyOwn :=
  h.reaches.onlyOwn hw

/-- A run that spares the modules leaves every name its id. -/
theorem find?_kept (h : w.SparesModules w₁) {name : String} {id : SymbolId}
    (hid : w.machine.symbols.find? name = some id) : w₁.machine.symbols.find? name = some id :=
  h.reaches.find?_kept hid

end World.SparesModules

namespace Eval

variable {α β : Type}

/-- The run spares the modules, however it ends, where all methods are the interpreter's own. -/
def SparesModules (action : Eval σ α) : Prop :=
  ∀ w : World σ, w.OnlyOwn → w.SparesModules (Outcome.world (action w))

namespace SparesModules

/-- A computation that only returns spares the modules. -/
theorem pure (a : α) : SparesModules (pure a : Eval σ α) :=
  fun w _ => .refl w

/-- Two computations that spare the modules do so one after the other, whichever way the first ends.
-/
theorem bind {x : Eval σ α} {f : α → Eval σ β} (hx : SparesModules x)
    (hf : ∀ a, SparesModules (f a)) : SparesModules (x >>= f) := by
  intro w hw
  have hfirst := hx w hw
  rw [bind_apply]
  cases hrun : x w with
  | ok a w₁ =>
      rw [hrun] at hfirst
      exact hfirst.trans (hf a w₁ (hfirst.onlyOwn hw))
  | error exit w₁ =>
      rw [hrun] at hfirst
      exact hfirst

/-- Reading the interpreter changes nothing. -/
theorem machine : SparesModules (machine : Eval σ Machine) :=
  fun w _ => .refl w

/-- A step of the interpreter spares the modules when it leaves the heap's modules alone. -/
theorem onMachine {f : Machine → α × Machine} (hstep : ∀ m : Machine, m.Step (f m).2)
    (hmodules : ∀ m : Machine, m.heap.SparesModules (f m).2.heap) :
    SparesModules (onMachine f : Eval σ α) :=
  fun w _ => .of_change (.step (.machine w (hstep w.machine))) (hmodules w.machine)

/-- Interning a name makes an id, not an object. -/
theorem intern (name : String) : SparesModules (intern name : Eval σ SymbolId) :=
  onMachine (fun m => .intern m name) fun m => .refl m.heap

/-- A new string is no module. -/
theorem newString (bytes : List UInt8) :
    SparesModules (Eval.onMachine fun m => m.newString bytes : Eval σ Value) :=
  onMachine (fun m => .string m bytes) fun m => .alloc m.heap _ nofun

/-- A new text is no module. -/
theorem newText (text : String) : SparesModules (newText text : Eval σ Value) :=
  newString (Utf8.encodeString text)

/-- A new Integer is no module, whether it needs an object or not. -/
theorem newInteger (n : Int) :
    SparesModules (Eval.onMachine fun m => m.newInteger n : Eval σ Value) :=
  onMachine (fun m => .integer m n) fun m => .ofInteger m.heap n

/-- A new Float is no module. -/
theorem newFloat (x : Double) :
    SparesModules (Eval.onMachine fun m => m.newFloat x : Eval σ Value) :=
  onMachine (fun m => .float m x) fun m => .alloc m.heap _ nofun

/-- A new array is no module, whatever it holds. -/
theorem newArray (items : List Value) :
    SparesModules (Eval.onMachine fun m => m.newArray items : Eval σ Value) :=
  onMachine (fun m => .array m items) fun m => .alloc m.heap _ nofun

/-- An instance of a class is no module, so making one spares them. -/
theorem newInstance (cls : Value) {b : Body} (hb : b.IsInstance) :
    SparesModules (Eval.onMachine fun m => m.alloc cls b : Eval σ Value) := by
  refine onMachine (fun m => .instance m cls hb) fun m => .alloc m.heap cls ?_
  rintro data rfl
  exact hb.elim

/-- A module without a name is blank when it is made. -/
theorem newModule (superclass : Option Value) :
    SparesModules (Eval.onMachine fun m => m.newModule none superclass : Eval σ Value) := by
  refine onMachine (fun m => .module m none superclass) fun m => .alloc m.heap _ ?_
  rintro data hdata
  cases hdata
  exact ⟨rfl, rfl, rfl⟩

/-- What is printed goes to the output and touches no object. -/
theorem print (text : String) : SparesModules (print text : Eval σ Unit) :=
  onMachine (f := fun m => (PUnit.unit, m.print text)) (fun m => .print m text)
    fun m => .refl m.heap

/-- Which script bodies are run is no matter of modules. -/
theorem changeFrames (frames : Machine → List Frame) :
    SparesModules (changeMachine fun m => { m with frames := frames m } : Eval σ Unit) :=
  fun w _ => .restack w (frames w.machine) w.machine.yields

/-- Moving on to another line touches the top frame only. -/
theorem setLine (line : Nat) :
    SparesModules (changeMachine fun m => m.setLine line : Eval σ Unit) :=
  fun w _ => .of_heap (.setLine w line) (w.machine.setLine_heap line)

/-- A fault of the interpreter's own makes an exception and ends the computation. -/
theorem raise (fault : Fault) : SparesModules (raise fault : Eval σ α) :=
  fun w _ => .raising w fault

/-- Raising an exception that exists makes nothing. -/
theorem raiseObject (exception : Value) : SparesModules (raiseObject exception : Eval σ α) := by
  intro w hw
  unfold Eval.raiseObject
  rw [machine_bind_apply]
  split
  · rename_i hexception
    exact .of_change (.raisingObject hexception) (w.machine.fillBacktrace_sparesModules exception)
  · exact raise _ w hw

/-- A crash leaves the world as it is. -/
theorem crash (message : String) : SparesModules (crash message : Eval σ α) :=
  fun w _ => .refl w

/-- Running out of depth leaves the world as it is. -/
theorem exhausted : SparesModules (exhausted : Eval σ α) :=
  fun w _ => .refl w

/-- Whichever branch is taken spares the modules, if both do. -/
theorem ite {p : Prop} [Decidable p] {x y : Eval σ α} (hx : SparesModules x)
    (hy : SparesModules y) : SparesModules (if p then x else y) := by
  split
  · exact hx
  · exact hy

/-- Going over a list spares the modules when each step does, by induction over the list. -/
theorem mapM {f : α → Eval σ β} (hf : ∀ a, SparesModules (f a)) (items : List α) :
    SparesModules (items.mapM f) := by
  induction items with
  | nil => exact .pure []
  | cons item rest ih =>
      rw [List.mapM_cons]
      exact (hf item).bind fun b => ih.bind fun bs => .pure (b :: bs)

/-- A traversal that collects nothing spares the modules when each step does. -/
theorem forM {f : α → Eval σ PUnit} (hf : ∀ a, SparesModules (f a)) (items : List α) :
    SparesModules (items.forM f) := by
  induction items with
  | nil => exact .pure PUnit.unit
  | cons item rest ih => exact (hf item).bind fun _ => ih

/-- Reading a string's text changes nothing. -/
theorem textOf (v : Value) : SparesModules (textOf v : Eval σ String) :=
  machine.bind fun _ => .pure _

/-- Reading its bytes changes nothing; what is no string is a fault. -/
theorem bytesOf (v : Value) : SparesModules (bytesOf v : Eval σ (List UInt8)) := by
  unfold Eval.bytesOf
  refine machine.bind fun m => ?_
  split
  · exact .pure _
  · exact .raise _

/-- Asking whether a method exists interns its name at most. -/
theorem respondsTo (receiver : Value) (name : String) :
    SparesModules (respondsTo receiver name : Eval σ Bool) :=
  (intern name).bind fun _ => machine.bind fun _ => .pure _

/-- A call with the wrong number of arguments is a fault, and any other passes unchanged. -/
theorem checkArity (call : Call σ) (least most : Nat) :
    SparesModules (checkArity call least most) := by
  unfold Eval.checkArity
  exact .ite (.raise _) (.pure _)

end SparesModules

end Eval

/-! ### Calls by name -/

/-- The names by which the interpreter calls methods while it runs a script or describes an
exception. -/
def sparingNames : List String :=
  ["new", "initialize", "puts", "p", "inspect", "to_s", "to_int", "backtrace", "join"]

/-- The methods to which these names lead. -/
def sparingForms : List Builtin :=
  plainForms ++ [.arrayInspect, .hashInspect, .exceptionInspect, .exceptionToS, .classNew, .puts,
    .p, .integerToI, .floatToI, .exceptionBacktrace, .arrayJoin]

/-- Among the interpreter's own methods, each of the sparing names leads to a sparing form only. -/
theorem sparing_forms : ∀ entry ∈ ownMethods, entry.2.1 ∈ sparingNames →
    entry.2.2 ∈ sparingForms := by
  decide +kernel

/-- Calls by the names that lead to such methods spare the modules. -/
def Reentry.SparesModules (r : Reentry σ) : Prop :=
  ∀ name ∈ sparingNames, ∀ (call : Call σ) (w : World σ), w.OnlyOwn →
    w.machine.symbols.find? name = some call.method → w.SparesModules (Outcome.world (r.send call w))

namespace Reentry.SparesModules

variable {r : Reentry σ} (hr : r.SparesModules)
include hr

/-- Sending by one of the sparing names spares the modules, since no method of the host's can
answer. -/
theorem sendNamed {name : String} (hname : name ∈ sparingNames) (receiver : Value)
    (args : List Value) : Eval.SparesModules (r.sendNamed receiver name args) := by
  intro w hw
  have hinterned := Eval.SparesModules.intern name w hw
  have hknown := w.machine.symbols.find?_intern_self name
  exact hinterned.trans (hr name hname _ _ (hinterned.onlyOwn hw) hknown)

/-- Inspecting a value as a text sends it `inspect` and reads the string. -/
theorem inspectText (v : Value) : Eval.SparesModules (r.inspectText v) :=
  (hr.sendNamed (by decide) v []).bind fun shown => .textOf shown

/-- Displaying as a text sends `to_s` and reads the string. -/
theorem displayText (v : Value) : Eval.SparesModules (r.displayText v) := by
  unfold Reentry.displayText
  refine Eval.SparesModules.machine.bind fun m => .ite (.textOf v) ?_
  exact (hr.sendNamed (by decide) v []).bind fun shown => .textOf shown

/-- Asking for a value's string sends `to_s`, unless it is a string already. -/
theorem stringOf (v : Value) : Eval.SparesModules (r.stringOf v) := by
  unfold Reentry.stringOf
  refine Eval.SparesModules.machine.bind fun m => .ite (.pure v) ?_
  refine (hr.sendNamed (by decide) v []).bind fun converted => ?_
  exact Eval.SparesModules.machine.bind fun m => .ite (.pure converted) (.raise _)

/-- Asking for a value's inspection sends `inspect`. -/
theorem inspectString (v : Value) : Eval.SparesModules (r.inspectString v) :=
  (hr.sendNamed (by decide) v []).bind fun shown => hr.stringOf shown

/-- Looking a constant up defines none. -/
theorem constant (module : Value) (id : SymbolId) (only : Bool) :
    Eval.SparesModules (r.constant module id only) := by
  unfold Reentry.constant
  refine Eval.SparesModules.machine.bind fun m => .ite ?_ (.ite ?_ (.raise _))
  · exact (hr.inspectText module).bind fun _ => .raise _
  · split
    · exact .pure _
    · exact .raise _

/-- Following a path of constants defines none of them. -/
theorem constantPath (module : Value) (path : List String) :
    Eval.SparesModules (r.constantPath module path) := by
  induction path generalizing module with
  | nil => exact .pure module
  | cons name rest ih =>
      exact (Eval.SparesModules.intern name).bind fun id => (hr.constant module id false).bind ih

omit hr in
/-- The refusal of what is no number makes a text and an exception. -/
theorem refuseInteger {α : Type} (v : Value) :
    Eval.SparesModules (Reentry.refuseInteger v : Eval σ α) :=
  Eval.SparesModules.machine.bind fun _ => .ite (.raise _) (.raise _)

omit hr in
/-- The integer part of a Float is a new Integer, or a fault where there is none. -/
theorem integerPart (x : Double) : Eval.SparesModules (Reentry.integerPart x : Eval σ Value) := by
  unfold Reentry.integerPart
  split
  · exact .newInteger _
  · exact .raise _

/-- Reading a number may send `to_int`, which leads to the interpreter's own methods. -/
theorem numberOf (v : Value) : Eval.SparesModules (r.numberOf v) := by
  unfold Reentry.numberOf
  refine Eval.SparesModules.machine.bind fun m => ?_
  split
  · exact .pure _
  · exact .pure _
  · split
    · exact refuseInteger v
    · exact refuseInteger v
    · exact refuseInteger v
    · refine (Eval.SparesModules.respondsTo v "to_int").bind fun _ => .ite ?_ (refuseInteger v)
      refine (hr.sendNamed (by decide) v []).bind fun converted => ?_
      refine Eval.SparesModules.machine.bind fun m => ?_
      split
      · exact .pure _
      · exact refuseInteger v

/-- Reading a machine word reads a number first and checks its range. -/
theorem toLong (v : Value) : Eval.SparesModules (r.toLong v) := by
  unfold Reentry.toLong
  refine (hr.numberOf v).bind fun number => ?_
  split
  · exact .ite (.pure _) (.raise _)
  · split
    · exact .ite (.pure _) (.raise _)
    · exact .raise _

end Reentry.SparesModules

namespace Methods

variable {r : Reentry σ} {call : Call σ} (hr : r.SparesModules)
include hr

/-- The items of a new array are one value, repeated. -/
theorem sparesModules_newItems : SparesModules (newItems r call) := by
  unfold newItems
  have hrest : ∀ size : Int, SparesModules (do
      if arrayLimit ≤ size then crash "capacity overflow"
      return List.replicate size.toNat (call.arg 1) : Eval σ (List Value)) := fun size =>
    .ite ((SparesModules.crash _).bind fun _ => .pure _) (.pure _)
  refine (SparesModules.checkArity call 0 2).bind fun _ => ?_
  split
  · exact (hr.toLong _).bind hrest
  · exact (SparesModules.pure _).bind hrest

/-- A new plain object is an instance, and its `initialize` is a method of the interpreter's. -/
theorem sparesModules_newPlain : SparesModules (newPlain r call) := by
  unfold newPlain
  have hplain : Body.plain.IsInstance := trivial
  refine (SparesModules.newInstance call.receiver hplain).bind fun object => ?_
  refine (SparesModules.respondsTo object "initialize").bind fun _ => .ite ?_ (.pure _)
  exact (hr.sendNamed (by decide) object call.args).bind fun _ => .pure _

/-- What `new` makes is an instance, or a module without a name. -/
theorem sparesModules_new : SparesModules (new r call) := by
  have halloc : ∀ {b : Body}, b.IsInstance →
      SparesModules (onMachine fun m => m.alloc call.receiver b : Eval σ Value) := fun hb =>
    .newInstance call.receiver hb
  unfold new
  refine SparesModules.machine.bind fun m => ?_
  split
  · exact (sparesModules_newItems hr).bind fun items => halloc trivial
  · exact halloc trivial
  · refine (SparesModules.checkArity call 0 1).bind fun _ => ?_
    split
    · exact (hr.displayText _).bind fun text => halloc trivial
    · exact (SparesModules.pure _).bind fun text => halloc trivial
  · exact (SparesModules.checkArity call 0 1).bind fun _ => halloc trivial
  · exact (SparesModules.checkArity call 0 1).bind fun _ => .newModule _
  · exact .newModule _
  · exact SparesModules.machine.bind fun _ => .raise _
  · exact sparesModules_newPlain hr

/-- Printing a value on a line of its own shows it first. -/
theorem sparesModules_putsOne (v : Value) : SparesModules (putsOne r v) := by
  unfold putsOne
  refine SparesModules.machine.bind fun m => ?_
  split
  · refine (SparesModules.mapM hr.displayText _).bind fun texts => ?_
    exact .forM (fun text => .print (asLine text)) texts
  · exact (hr.displayText v).bind fun text => .print (asLine text)

/-- Printing all arguments spares the modules, one after the other. -/
theorem sparesModules_putsAll : SparesModules (putsAll r call) := by
  unfold putsAll
  have hrest : SparesModules (do
      call.args.forM (putsOne r)
      return Value.nil : Eval σ Value) :=
    (SparesModules.forM (sparesModules_putsOne hr) call.args).bind fun _ => .pure _
  exact .ite ((SparesModules.print "\n").bind fun _ => hrest) hrest

/-- Inspecting all arguments, which is what `p` does, spares the modules. -/
theorem sparesModules_showAll : SparesModules (showAll r call) := by
  unfold showAll
  have hline : ∀ v, SparesModules (do print ((← r.inspectText v) ++ "\n") : Eval σ Unit) := fun v =>
    (hr.inspectText v).bind fun _ => .print _
  refine (SparesModules.forM hline call.args).bind fun _ => ?_
  split
  · exact .pure _
  · exact .pure _
  · exact .newArray _

/-- Joining goes down into the arrays among the items, by induction on the depth that is left. -/
theorem sparesModules_joinItems (separator : String) (depth : Nat) (array : Value) :
    SparesModules (joinItems r separator depth array) := by
  induction depth generalizing array with
  | zero => exact .exhausted
  | succ depth ih =>
      unfold joinItems
      refine (SparesModules.machine.bind fun _ => .pure _).bind fun items => ?_
      refine (SparesModules.mapM (fun item => ?_) items).bind fun texts => .pure _
      exact SparesModules.machine.bind fun m => .ite (ih item) (hr.displayText item)

/-- The joined text is the only object that is made. -/
theorem sparesModules_join : SparesModules (join r call) := by
  have hrest : ∀ separator, SparesModules (do
      newText (← joinItems r separator r.rounds call.receiver) : Eval σ Value) := fun separator =>
    (sparesModules_joinItems hr separator _ _).bind fun text => .newText text
  unfold join
  refine (SparesModules.checkArity call 0 1).bind fun _ => ?_
  split
  · exact (hr.displayText _).bind hrest
  · exact (SparesModules.pure _).bind hrest

/-- Showing an array shows its items. -/
theorem sparesModules_showArray : SparesModules (showArray r call) :=
  (SparesModules.machine.bind fun _ => .pure _).bind fun items =>
    (SparesModules.mapM hr.inspectText items).bind fun _ => .newText _

/-- Showing a pair shows the key and the value. -/
theorem sparesModules_showPair (pair : Value × Value) : SparesModules (showPair r pair) := by
  have harrow : ∀ value : String, SparesModules (do
      return (← r.inspectText pair.1) ++ " => " ++ value : Eval σ String) := fun value =>
    (hr.inspectText pair.1).bind fun _ => .pure _
  unfold showPair
  refine (hr.inspectText pair.2).bind fun value => SparesModules.machine.bind fun m => ?_
  dsimp only
  split
  · exact .ite (.pure _) (harrow value)
  · exact harrow value

/-- Showing a hash shows its pairs. -/
theorem sparesModules_showHash : SparesModules (showHash r call) :=
  (SparesModules.machine.bind fun _ => .pure _).bind fun pairs =>
    (SparesModules.mapM (sparesModules_showPair hr) pairs).bind fun _ => .newText _

/-- An exception's text is its message's, or the name of its class. -/
theorem sparesModules_exceptionText : SparesModules (exceptionText r call) :=
  SparesModules.machine.bind fun _ =>
    .ite (.newText _) (.ite (.pure _) (hr.sendNamed (by decide) _ []))

/-- Showing an exception puts the class before the text. -/
theorem sparesModules_showException : SparesModules (showException r call) :=
  SparesModules.machine.bind fun _ => (hr.sendNamed (by decide) _ []).bind fun text =>
    (SparesModules.textOf text).bind fun _ => .ite (.newText _) (.newText _)

end Methods

open Methods in
/-- The methods to which the names lead spare the modules. -/
theorem Builtin.sparesModules_run {r : Reentry σ} {call : Call σ} (hr : r.SparesModules)
    {b : Builtin} (hb : b ∈ sparingForms) : SparesModules (b.run r call) := by
  have hname : SparesModules (symbolName call.receiver : Eval σ String) := by
    unfold symbolName
    split
    · exact SparesModules.machine.bind fun _ => .pure _
    · exact .pure _
  cases b with
  | objectInspect | moduleToS => exact SparesModules.machine.bind fun _ => .newText _
  | stringInspect => exact (SparesModules.machine.bind fun _ => .pure _).bind fun _ => .newText _
  | nilToS | nilInspect | trueToS | falseToS => exact .newText _
  | numberToS =>
      refine SparesModules.machine.bind fun m => ?_
      split <;> exact .newText _
  | stringToS | integerToI => exact .pure call.receiver
  | symbolToS | symbolInspect => exact hname.bind fun name => .newText _
  | floatToI =>
      exact (SparesModules.machine.bind fun _ => .pure _).bind fun x =>
        Reentry.SparesModules.integerPart x
  | exceptionBacktrace => exact SparesModules.machine.bind fun _ => .pure _
  | arrayInspect => exact sparesModules_showArray hr
  | hashInspect => exact sparesModules_showHash hr
  | exceptionInspect => exact sparesModules_showException hr
  | exceptionToS => exact sparesModules_exceptionText hr
  | classNew => exact sparesModules_new hr
  | puts => exact sparesModules_putsAll hr
  | p => exact sparesModules_showAll hr
  | arrayJoin => exact sparesModules_join hr
  | _ => exact absurd hb (by decide)

/-- **However deep calls are nested, the modules are spared.** -/
theorem Reentry.sparesModules_ofFuel (fuel : Nat) :
    (Reentry.ofFuel fuel : Reentry σ).SparesModules := by
  induction fuel with
  | zero => exact fun _ _ _ w _ _ => .refl w
  | succ fuel ih =>
      intro name hname call w hw hid
      change w.SparesModules (Outcome.world (dispatch (.ofFuel fuel) call w))
      unfold dispatch
      rw [machine_bind_apply]
      cases hfound : w.machine.findMethod (w.machine.heap.classOf call.receiver) call.method with
      | none => exact .raising w _
      | some method =>
          obtain ⟨c, b, hentry, rfl⟩ := hw.methods.findMethod hid hfound
          exact Builtin.sparesModules_run ih (sparing_forms _ hentry hname) w hw

/-! ### What the host does around a task -/

namespace World.SparesModules

variable {w w₁ : World σ}

/-- An error is recorded in the history, which holds no objects of the heap. -/
theorem recorded (w : World σ) (error : Error) : w.SparesModules (w.recorded error) :=
  of_heap (.step (.record w error)) rfl

/-- The stacks are cut back after an exit, and nothing is pending any more. -/
theorem afterExit (w before : World σ) : w.SparesModules (w.restored before).withoutPending :=
  (restored w before).trans (of_heap (.withoutPending _) rfl)

end World.SparesModules

namespace Vm

variable {r : Reentry σ} {w : World σ}

/-- Bringing the interpreter up makes no objects. -/
theorem sparesModules_ensureSetup (w : World σ) :
    w.SparesModules (Outcome.world ((ensureSetup : Checked σ Unit).run w)) := by
  rw [ensureSetup_run_apply, setup_run_apply]
  cases hstate : w.state with
  | up => exact .refl w
  | failed error => exact .recorded w error
  | cleanedUp => exact .recorded w _
  | unknown =>
      simp only
      cases hstart : (start {}).run w with
      | error exit w₁ =>
          obtain ⟨-, p, rfl, rfl⟩ := start_error hstart
          exact .refl w₁
      | ok result w₁ =>
          have hheap : w₁.machine.heap = w.machine.heap := by
            cases (start_cases hstart).2 with
            | refused | badArguments => rfl
            | @ran arguments => exact w.machine.setUp.2.options_heap arguments
          have hchange : w.SparesModules { w₁ with state := World.stateAfter result } :=
            .of_heap (.step (.setup hstate hstart)) hheap
          cases result with
          | ok value => exact hchange
          | error error => exact hchange.trans (.recorded _ error)

/-- A part of a description spares the modules if its steps do. -/
theorem sparesModules_option_bind {α β : Type} {x : OptionT (Eval σ) α}
    {f : α → OptionT (Eval σ) β} (hx : w.SparesModules (Outcome.world (x.run w)))
    (hf : ∀ a w', x.run w = .ok (some a) w' → w.SparesModules w' →
      w'.SparesModules (Outcome.world ((f a).run w'))) :
    w.SparesModules (Outcome.world ((x >>= f).run w)) := by
  rw [option_run_bind_apply]
  cases hrun : x.run w with
  | error exit w₁ =>
      rw [hrun] at hx
      exact hx
  | ok result w₁ =>
      rw [hrun] at hx
      cases result with
      | none => exact hx
      | some a => exact hx.trans (hf a w₁ hrun hx)

/-- A job done quietly spares the modules if it does so by itself: its failure is cleared. -/
theorem sparesModules_quietly {task : Task}
    (htask : w.SparesModules (Outcome.world (perform r task w))) :
    w.SparesModules (Outcome.world ((quietly r task).run w)) := by
  rw [quietly_run_apply]
  cases hrun : perform r task w with
  | ok a w₁ =>
      rw [hrun] at htask
      exact htask
  | error exit w₁ =>
      rw [hrun] at htask
      cases exit with
      | jump jump =>
          refine (htask.trans (.afterExit w₁ w)).trans (.of_heap (.overlook _) ?_)
          exact congrArg Machine.heap (World.overlook_machine _)
      | panic p => exact htask
      | exhausted => exact htask

/-- Looking up a name for a description, and what is known of its number then. -/
theorem sparesModules_quietName {name : String} (hname : name ∈ World.describingNames)
    (hnames : w.NamesAgree) :
    w.SparesModules (Outcome.world ((quietName r name).run w)) ∧
      ∀ id w', (quietName r name).run w = .ok (some id) w' →
        w'.machine.symbols.find? name = some id := by
  rw [quietName_run_apply]
  cases hid : w.ids.get? name with
  | some id =>
      refine ⟨.refl w, fun found w' hrun => ?_⟩
      cases hrun
      exact hnames name _ hid
  | none =>
      refine ⟨.of_heap (.step (.learn w hid (.inr hname))) rfl, fun found w' hrun => ?_⟩
      cases hrun
      exact w.machine.symbols.find?_intern_self name

/-- The job that inspects a value, for the report of an error. -/
theorem sparesModules_inspectBytes (hr : r.SparesModules) (v : Value) :
    SparesModules (perform r (.inspectBytes v)) :=
  (hr.inspectString v).bind fun shown => .bytesOf shown

/-- The job that asks for a value's string, for the same report. -/
theorem sparesModules_stringBytes (hr : r.SparesModules) (v : Value) :
    SparesModules (perform r (.stringBytes v)) :=
  (hr.stringOf v).bind fun text => .bytesOf text

/-- A quiet call by the number of a name that leads to such methods. -/
theorem sparesModules_quietCall (hr : r.SparesModules) {name : String} (hname : name ∈ sparingNames)
    {id : SymbolId} (hid : w.machine.symbols.find? name = some id) (hw : w.OnlyOwn)
    (receiver : Value) (args : List Value) :
    w.SparesModules (Outcome.world ((quietly r (.call receiver id args false)).run w)) :=
  sparesModules_quietly (hr name hname { receiver, method := id, args } w hw hid)

/-- Reading the lines of a backtrace shows each of its items, all quietly. -/
theorem sparesModules_backtraceLines (hr : r.SparesModules) (exception : Value)
    (hw : w.OnlyOwn) : w.SparesModules (Outcome.world ((backtraceLines r exception).run w)) := by
  unfold backtraceLines
  obtain ⟨hasked, hknown⟩ := sparesModules_quietName (r := r) (by decide : "backtrace" ∈ _)
    hw.names
  refine sparesModules_option_bind hasked fun backtrace w₁ hrun hspared => ?_
  have hbacktrace := hknown backtrace w₁ hrun
  have hw₁ := hspared.onlyOwn hw
  obtain ⟨hasked₁, hknown₁⟩ := sparesModules_quietName (r := r) (by decide : "join" ∈ _)
    hw₁.names
  refine sparesModules_option_bind hasked₁ fun join w₂ hrun₁ hspared₁ => ?_
  have hjoin := hknown₁ join w₂ hrun₁
  have hw₂ := hspared₁.onlyOwn hw₁
  have hcalled := sparesModules_quietCall hr (by decide) (hspared₁.find?_kept hbacktrace) hw₂
    exception []
  refine sparesModules_option_bind hcalled fun lines w₃ _ hspared₂ => ?_
  have hjoin₃ := hspared₂.find?_kept hjoin
  have hw₃ := hspared₂.onlyOwn hw₂
  refine sparesModules_option_bind (.refl w₃) fun m w₄ hrun₃ _ => ?_
  cases hrun₃
  split
  · have hmade := SparesModules.newText "\n" w₃ hw₃
    refine sparesModules_option_bind hmade fun separator w₄ _ hspared₃ => ?_
    have hw₄ := hspared₃.onlyOwn hw₃
    have hjoined := sparesModules_quietCall hr (by decide) (hspared₃.find?_kept hjoin₃) hw₄ lines
      [separator]
    refine sparesModules_option_bind hjoined fun joined w₅ _ hspared₄ => ?_
    have hread := sparesModules_quietly
      (sparesModules_stringBytes hr joined w₅ (hspared₄.onlyOwn hw₄))
    exact sparesModules_option_bind hread fun bytes w₆ _ _ => .refl w₆
  · exact .refl w₃

/-- Describing an exception spares the modules. -/
theorem sparesModules_report (hr : r.SparesModules) (exception : Value) :
    SparesModules (report r exception) := by
  have hshown : SparesModules (shown r exception).run := fun w hw =>
    sparesModules_option_bind
      (sparesModules_quietly (sparesModules_inspectBytes hr exception w hw)) fun _ w' _ _ => .refl w'
  have hlines : SparesModules (backtraceLines r exception).run := fun w hw =>
    sparesModules_backtraceLines hr exception hw
  exact hshown.bind fun _ => hlines.bind fun _ => .pure _

/-- **Surfacing spares the modules.** -/
theorem sparesModules_surface (hr : r.SparesModules) (jump : Jump) :
    SparesModules (surface r jump) := by
  intro w hw
  have hcleared : w.SparesModules w.withoutPending := .of_heap (.withoutPending w) rfl
  have hrecord : ∀ error, SparesModules (record error : Eval σ Error) := fun error w _ =>
    .recorded w error
  rw [surface_apply]
  cases w.parked with
  | some p => exact hcleared.trans (.of_heap (.resume _ p) rfl)
  | none =>
      simp only
      split
      · exact hcleared.trans (.recorded _ _)
      · have hreported := (sparesModules_report hr w.machine.errinfo).bind fun found =>
          hrecord (.exception found)
        exact hcleared.trans (hreported _ (hcleared.onlyOwn hw))

/-- The answer of an operation that is left by a jump spares the modules. -/
theorem sparesModules_surfaced (hr : r.SparesModules) (α : Type) (jump : Jump) :
    SparesModules (Except.error <$> surface r jump : Eval σ (Except Error α)) := by
  rw [map_eq_pure_bind]
  exact (sparesModules_surface hr jump).bind fun _ => .pure _

end Vm

end EmbeddedRuby
