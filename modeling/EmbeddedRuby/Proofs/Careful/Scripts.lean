import EmbeddedRuby.Proofs.Careful.Methods

/-!
# Careful scripts

Running a script is careful: what it evaluates is known, and so are the modules whose bodies it opens.
-/

namespace EmbeddedRuby

open Eval

variable {σ : Type} [Handled σ] {r : Reentry σ} {known : Nat}

namespace Handled

instance : Handled Bodies where
  Within known b := Within known b.scopes
  mono hle hb := mono hle hb

end Handled

namespace Bodies

/-- The module that definitions go to is among those that are open, or is a core class. -/
theorem within_innermost {b : Bodies} (hb : Within known b) (hobject : Within known CoreClass.object.value) :
    Within known b.innermost := by
  unfold innermost
  cases hfirst : b.scopes.head? with
  | none => exact hobject
  | some module => exact hb module (List.mem_of_mem_head? hfirst)

end Bodies

/-- The core classes are always known. -/
theorem Eval.Careful.withCore {α : Type} [Handled α] {x : Eval σ α}
    (hx : ∀ later, known ≤ later → (∀ c : CoreClass, Within later c.value) → Careful later x) :
    Careful known x :=
  fun w hw hknown => hx _ hknown hw.machine.core.within w hw (Nat.le_refl _)

/-- Going over items with something in hand is careful when each step is, by induction over the
items. -/
theorem Eval.Careful.foldlM {α β : Type} [Handled β] {f : β → α → Eval σ β}
    (hf : ∀ later, known ≤ later → ∀ b, Within later b → ∀ a, Careful later (f b a)) {b : β}
    (hb : Within known b) (items : List α) : Careful known (items.foldlM f b) := by
  induction items generalizing known b with
  | nil => exact .pure hb
  | cons item rest ih =>
      rw [List.foldlM_cons]
      refine (hf known (Nat.le_refl known) b hb item).keep fun later hle b₁ hb₁ => ?_
      exact ih (fun last hlast => hf last (Nat.le_trans hle hlast)) hb₁

namespace Loader

/-! ### Expressions -/

/-- The modules that a path leads through are known one from the other. -/
theorem careful_resolve (hr : r.Sound) {b : Bodies} (hb : Within known b) (path : List (List Char)) :
    Careful known (resolve r b path) := by
  unfold resolve
  split
  · exact .pure (within_nil _)
  · rename_i first rest
    have hrest : ∀ {later : Nat} {start : Value}, Within later start →
        Careful later (r.constantPath start (rest.map String.ofList)) := fun hstart =>
      .constantPath hr hstart _
    refine .withCore fun later hle hcore => .ite ?_ ?_
    · exact (Careful.pure (hcore .object)).keep fun _ _ _ hstart => hrest hstart
    · refine (Careful.intern _).bind fun id => Careful.inside fun m hm hlater => ?_
      dsimp only
      split
      · rename_i value hvalue
        obtain ⟨scope, -, hscope⟩ := List.exists_of_findSome?_eq_some hvalue
        exact (Careful.pure (hm.closed.constantAt hscope)).keep fun _ _ _ hstart => hrest hstart
      · have hinnermost := b.within_innermost (Handled.mono (Nat.le_trans hle hlater) hb) (hm.core.within .object)
        exact (Careful.constant hr hinnermost id false).keep fun _ _ _ hstart => hrest hstart

mutual

/-- A literal means a word, a new object, or a constant that is known, by induction on it. -/
theorem careful_evaluate (hr : r.Sound) {known : Nat} {b : Bodies} (hb : Within known b)
    (literal : Literal) : Careful known (evaluate r b literal) := by
  cases literal with
  | nil =>
      unfold evaluate
      exact .pure (within_nil _)
  | true | false =>
      unfold evaluate
      exact .pure (within_ofBool _ _)
  | int n =>
      unfold evaluate
      exact .newInteger n
  | float x =>
      unfold evaluate
      exact .newFloat x
  | string text =>
      unfold evaluate
      exact .newText _
  | symbol name =>
      unfold evaluate
      exact (Careful.intern _).bind fun _ => .pure (within_ofSymbol _ _)
  | array items =>
      unfold evaluate
      exact (careful_evaluateAll hr hb items).keep fun _ _ _ hvalues => .newArray hvalues
  | constant path =>
      unfold evaluate
      exact careful_resolve hr hb path

/-- Literals one after the other are careful, and what the first ones mean stays known. -/
theorem careful_evaluateAll (hr : r.Sound) {known : Nat} {b : Bodies} (hb : Within known b)
    (literals : List Literal) : Careful known (evaluateAll r b literals) := by
  cases literals with
  | nil =>
      unfold evaluateAll
      exact .pure (within_of_eq_nil rfl)
  | cons item rest =>
      unfold evaluateAll
      refine (careful_evaluate hr hb item).keep fun later hle value hvalue => ?_
      refine (careful_evaluateAll hr (Handled.mono hle hb) rest).keep fun last hlast values hvalues => ?_
      exact .pure (within_cons (Handled.mono hlast hvalue) hvalues)

end

/-! ### Modules -/

/-- Opening a module again gives the module that was there. -/
theorem careful_reopen (name : String) (isClass : Bool) {existing : Value}
    (hexisting : Within known existing) (superclass : Option Value) :
    Careful known (reopen name isClass existing superclass : Eval σ Value) := by
  refine Careful.look fun m => ?_
  split
  · exact .ite (.raise _) (.ite (.raise _) (.pure hexisting))
  · exact .raise _

/-- A module that is defined is new, and known from then on. -/
theorem careful_defineModule (parent : Value) (id : SymbolId) (name : String)
    {superclass : Option Value} (hsuper : Within known superclass) :
    Careful known (defineModule parent id name superclass : Eval σ Value) := by
  refine .onMachine fun m hm hknown => ?_
  let made := (m.newModule (some (m.qualifiedName parent name)) superclass).2
  let module := (m.newModule (some (m.qualifiedName parent name)) superclass).1
  have hmade : m.heap.Develops made.heap :=
    m.develops_newModule hm.core _ (Handled.mono hknown hsuper)
  have hmodule : Within made.heap.slots.size module := m.heap.knows_alloc _ _
  have hset : made.heap.Act (made.heap.setConstant parent id module) := .setConstant parent id hmodule
  exact ⟨⟨hmade.trans (.act hset), rfl, rfl⟩,
    Handled.mono (Heap.Develops.act hset).size_le hmodule⟩

/-- The module of a body is defined or opened again, in either case below what is known. -/
theorem careful_openModule (hr : r.Sound) {b : Bodies} (hb : Within known b) (name : String)
    (path : Option (List (List Char))) (isClass : Bool) :
    Careful known (openModule r b name path isClass) := by
  unfold openModule
  refine (Careful.intern name).bind fun id => ?_
  -- Whether a superclass is named or not, the rest is the same.
  cases path
  case' none => refine (Careful.pure within_none).keep fun later _ superclass hsuper => ?_
  case' some path =>
    refine (careful_resolve hr hb path).keep fun _ _ parent hparent => ?_
    refine (Careful.pure (within_some hparent)).keep fun later _ superclass hsuper => ?_
  all_goals
    refine Careful.inside fun m hm hlater => ?_
    split
    · rename_i existing hexisting
      exact careful_reopen name isClass (hm.closed.constantAt hexisting) superclass
    · refine .ite ?_ (careful_defineModule _ id name within_none)
      refine Careful.look fun _ => .ite (careful_defineModule _ id name (within_some ?_)) (.raise _)
      cases superclass with
      | none => exact hm.core.within .object
      | some parent => exact Handled.mono hlater (hsuper parent rfl)

/-- The bodies that are open stay known when one more is entered. -/
theorem careful_enter {b : Bodies} (hb : Within known b) (file label : String) (line : Nat)
    {module : Value} (hmodule : Within known module) :
    Careful known (enter b file label line module : Eval σ Bodies) := by
  have hopen : Within known (module :: b.scopes) := within_cons hmodule hb
  refine Careful.look fun m => Careful.bind ?_ fun _ => .pure hopen
  exact .changeOther (fun _ => rfl) (fun _ => rfl) fun _ => rfl

/-- The bodies that are open stay known when one is left. -/
theorem careful_leave {b : Bodies} (hb : Within known b) :
    Careful known (leave b : Eval σ Bodies) := by
  have hclosed : Within known (b.scopes.drop 1) := fun module hmodule =>
    hb module (List.mem_of_mem_drop hmodule)
  unfold leave
  split
  · refine Careful.bind ?_ fun _ => .pure hclosed
    exact .changeOther (fun _ => rfl) (fun _ => rfl) fun _ => rfl
  · exact .pure hclosed

/-! ### Statements -/

/-- The class and the message that are raised are known. -/
theorem careful_raiseStatement {α : Type} [Handled α] (hr : r.Sound) {b : Bodies}
    (hb : Within known b) (cls : Option (List (List Char))) (message : Option Literal) :
    Careful known (raiseStatement r b cls message : Eval σ α) := by
  have hnew : ∀ {later : Nat} {cls : Value} {args : List Value}, Within later cls →
      Within later args →
        Careful later (do raiseObject (← r.sendNamed cls "new" args) : Eval σ α) := fun hcls hargs =>
    (Careful.sendNamed hr hcls "new" hargs).keep fun _ _ _ hexception => .raiseObject hexception
  unfold raiseStatement
  -- Whether there is a message or not, the rest is the same.
  cases message
  case' none => refine (Careful.pure within_none).keep fun later hle text? htext? => ?_
  case' some literal =>
    refine (careful_evaluate hr hb literal).keep fun _ hfirst text htext => ?_
    refine (Careful.pure (within_some htext)).keep fun later hlater text? htext? => ?_
    have hle := Nat.le_trans hfirst hlater
  all_goals
    beta_reduce
    split
    · refine (careful_resolve hr (Handled.mono hle hb) _).keep fun last hlast cls hcls =>
        hnew hcls fun v hv => ?_
      exact Handled.mono hlast (htext? v (Option.mem_toList.mp hv))
    · rename_i text
      refine Careful.inside fun m hm hknown => .ite (hnew (hm.core.within _) ?_) (.raise _)
      exact within_cons (Handled.mono hknown (htext? text rfl)) (within_of_eq_nil rfl)
    · exact .raise _

/-- The line of a frame is a number. -/
theorem careful_setLine (line : Nat) :
    Careful known (changeMachine fun m => m.setLine line : Eval σ Unit) := by
  refine .changeOther (fun m => m.setLine_heap line) (fun m => ?_) fun m => ?_ <;>
    unfold Machine.setLine <;> split <;> rfl

/-- Each statement is careful, one case for each. -/
theorem careful_runStatement (hr : r.Sound) (file : String) {b : Bodies} (hb : Within known b)
    (entry : Nat × Statement) : Careful known (runStatement r file b entry) := by
  have hprinted : ∀ {later : Nat} {values : List Value} (method : String), known ≤ later →
      Within later values → Careful later (do
        let _ ← r.sendNamed b.innermost method values
        return b : Eval σ Bodies) := by
    intro later values method hle hvalues
    refine .withCore fun last hlast hcore => ?_
    have hinner := b.within_innermost (Handled.mono (Nat.le_trans hle hlast) hb) (hcore .object)
    exact (Careful.sendNamed hr hinner method (Handled.mono hlast hvalues)).bind fun _ =>
      .pure (Handled.mono (Nat.le_trans hle hlast) hb)
  unfold runStatement
  refine (careful_setLine entry.1).bind fun _ => ?_
  split
  · exact (careful_openModule hr hb _ _ true).keep fun later hle module hmodule =>
      careful_enter (Handled.mono hle hb) file _ _ hmodule
  · exact (careful_openModule hr hb _ none false).keep fun later hle module hmodule =>
      careful_enter (Handled.mono hle hb) file _ _ hmodule
  · exact careful_leave hb
  · refine (careful_evaluate hr hb _).keep fun later hle value hvalue => ?_
    refine (Careful.intern _).bind fun id => Careful.bind (.changeMachine fun m _ hknown => ?_)
      fun _ => .pure (Handled.mono hle hb)
    exact .setConstant _ id (Handled.mono hknown hvalue)
  · refine .ite (.raise _) ?_
    refine (careful_evaluate hr hb _).keep fun later hle value hvalue => ?_
    refine (Careful.intern _).bind fun id => Careful.bind (.changeMachine fun m _ hknown => ?_)
      fun _ => .pure (Handled.mono hle hb)
    exact .act (.setClassVar _ id (Handled.mono hknown hvalue))
  · exact careful_raiseStatement hr hb _ _
  · exact (careful_evaluateAll hr hb _).keep fun _ hle _ hvalues => hprinted "puts" hle hvalues
  · exact (careful_evaluateAll hr hb _).keep fun _ hle _ hvalues => hprinted "p" hle hvalues

/-! ### Scripts -/

/-- A script is careful, statement by statement. -/
theorem careful_load (hr : r.Sound) (path : String) (wrap : Bool) :
    Careful known (load r path wrap) := by
  refine Careful.look fun m => ?_
  split
  · exact .raise _
  · rename_i file text _
    split
    · exact .raise _
    · rename_i statements _
      have hrest : ∀ {later : Nat} {top : Value}, Within later top → Careful later (do
          let depth := (← machine).frames.length
          changeMachine fun m => m.pushFrame file "<top (required)>" 0
          let _ ← statements.foldlM (runStatement r file) ⟨[top], []⟩
          changeMachine fun m => { m with frames := truncate depth m.frames } : Eval σ Unit) := by
        intro later top htop
        have hbodies : Within later (⟨[top], []⟩ : Bodies) := within_cons htop (within_of_eq_nil rfl)
        refine Careful.look fun m => Careful.bind ?_ fun _ => ?_
        · exact .changeOther (fun _ => rfl) (fun _ => rfl) fun _ => rfl
        · refine (Careful.foldlM (fun _ _ _ hb entry => careful_runStatement hr file hb entry)
            hbodies statements).bind fun _ => ?_
          exact .changeOther (fun _ => rfl) (fun _ => rfl) fun _ => rfl
      refine .withCore fun later hle hcore => ?_
      cases wrap with
      | true => exact (Careful.newModule none within_none).keep fun _ _ _ htop => hrest htop
      | false => exact (Careful.pure (hcore .object)).keep fun _ _ _ htop => hrest htop

/-- A script is careful when its path is the string of an object. -/
theorem careful_loadObject (hr : r.Sound) (path : Value) (wrap : Bool) :
    Careful known (loadObject r path wrap) := by
  refine Careful.look fun m => ?_
  split
  · exact careful_load hr _ wrap
  · exact .raise _

end Loader

end EmbeddedRuby
