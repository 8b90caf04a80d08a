import EmbeddedRuby.Proofs.LifeCycle

/-!
# Names keep their numbers

The interpreter gives each name a number once, and no run takes it back (`World.Change.find?_kept`).
The host keeps the numbers that it has asked for on its own side, and does not ask again; so it
matters that they are the ones that the interpreter goes by (`World.NamesAgree`).  That holds at
every moment of a run if it holds at its beginning (`World.Reaches.namesAgree`), as it does where
the host has asked for nothing yet.
-/

namespace EmbeddedRuby

/-- The number of a name is the one by which it is found afterwards. -/
theorem SymbolTable.find?_intern_self (t : SymbolTable) (name : String) :
    (t.intern name).2.find? name = some (t.intern name).1 := by
  unfold intern
  cases h : t.find? name with
  | some id => exact h
  | none =>
      simp only [find?, Option.map_eq_none_iff] at h
      simp [find?, List.findIdx?_append, h]

namespace Machine

variable {m m' : Machine} {name : String} {id : SymbolId}

/-- No step of the interpreter takes a number back. -/
theorem Step.find?_kept (h : m.Step m') (hname : m.symbols.find? name = some id) :
    m'.symbols.find? name = some id := by
  cases h with
  | intern other => exact SymbolTable.find?_intern_of_find? hname other
  | storeInHash hash key value =>
      unfold Machine.storeInHash
      split <;> exact hname
  | _ => exact hname

/-- Any number of steps take no number back. -/
theorem Steps.find?_kept (h : m.Steps m') (hname : m.symbols.find? name = some id) :
    m'.symbols.find? name = some id := by
  induction h with
  | refl => exact hname
  | tail before last ih => exact last.find?_kept ih

end Machine

namespace World

variable {σ : Type} {P : Probe → Prop} {w w' : World σ} {name : String} {id : SymbolId}

/-- No step of a run takes a number back. -/
theorem Step.find?_kept (h : w.Step w') (hname : w.machine.symbols.find? name = some id) :
    w'.machine.symbols.find? name = some id := by
  cases h with
  | machine h => exact h.find?_kept hname
  | learn => exact SymbolTable.find?_intern_of_find? hname _
  | setup hunknown hstart =>
      cases (Vm.start_cases hstart).2 with
      | refused | badArguments => exact hname
      | @ran arguments =>
          obtain ⟨loadPath, heq⟩ := w.machine.setUp.2.options_eq arguments
          simp only [heq]
          exact hname
  | record | clearErrors | remember | boxed | unboxed | cleanUp => exact hname

/-- A name that has a number keeps it. -/
theorem Change.find?_kept (h : w.Change P w') (hname : w.machine.symbols.find? name = some id) :
    w'.machine.symbols.find? name = some id := by
  cases h with
  | step h => exact h.find?_kept hname
  | @register kind run =>
      rw [setCallback_machine]
      exact hname
  | probe hprobe h =>
      cases h with
      | options w argv =>
          obtain ⟨loadPath, heq⟩ := w.machine.options_eq argv
          simp only [heq]
          exact hname
      | define w cls other body => exact SymbolTable.find?_intern_of_find? hname other
      | _ => exact hname
  | raising fault =>
      have hkept := Machine.Steps.find?_kept (w.machine.newException_steps fault) hname
      exact hkept
  | @raisingObject exception =>
      obtain ⟨m₁, heap, hsteps, heq⟩ := w.machine.fillBacktrace_eq exception
      simp only [World.raisingObject, onMachine, heq]
      exact Machine.Steps.find?_kept hsteps hname
  | overlook =>
      rw [overlook_machine]
      exact hname
  | addProc | restack | withoutPending | park | resume => exact hname

/-- The numbers that the host has looked up are those that the interpreter has given. -/
def NamesAgree (w : World σ) : Prop :=
  ∀ name id, w.ids.get? name = some id → w.machine.symbols.find? name = some id

/-- Learning a name does not concern the others. -/
theorem get?_learn_of_ne (w : World σ) {name other : String} (hother : other ≠ name) :
    (w.learn name).ids.get? other = w.ids.get? other :=
  Table.get?_insert_of_ne w.ids _ hother

/-- Filling the place of a callback does not concern the life of the interpreter. -/
theorem setCallback_state (w : World σ) (kind : CallbackKind) (callback : Callback σ) :
    (w.setCallback kind callback).state = w.state := by
  cases kind <;> rfl

/-- Filling the place of a callback does not concern the names that the host knows. -/
theorem setCallback_ids (w : World σ) (kind : CallbackKind) (callback : Callback σ) :
    (w.setCallback kind callback).ids = w.ids := by
  cases kind <;> rfl

/-- A host that has looked up nothing goes by no wrong numbers. -/
theorem namesAgree_of_unasked (hids : w.ids = {}) : w.NamesAgree := by
  intro name id hid
  rw [hids] at hid
  cases hid

/-- The number that the host is told is the one that the interpreter goes by. -/
theorem NamesAgree.learn (hw : w.NamesAgree) (name : String) : (w.learn name).NamesAgree := by
  intro other id hid
  by_cases hsame : other = name
  · subst hsame
    rw [World.learn, Table.get?_insert_self, Option.some.injEq] at hid
    subst hid
    exact w.machine.symbols.find?_intern_self other
  · rw [get?_learn_of_ne w hsame] at hid
    exact SymbolTable.find?_intern_of_find? (hw other id hid) name

/-- Each change lets the names agree that agreed before it. -/
theorem Change.namesAgree (h : w.Change P w') (hw : w.NamesAgree) : w'.NamesAgree := by
  -- Where the host learns nothing, it is enough that the interpreter forgets nothing.
  have hsame : w'.ids = w.ids → w'.NamesAgree := by
    intro hids name id hid
    exact h.find?_kept (hw name id (hids ▸ hid))
  cases h.host with
  | same hhost => exact hsame hhost.ids
  | learn _ _ heq =>
      subst heq
      exact hw.learn _
  | addProc _ heq =>
      subst heq
      exact hsame rfl
  | @register kind run _ _ heq =>
      subst heq
      exact hsame (w.setCallback_ids kind _)
  | setup hunknown hstart heq =>
      subst heq
      apply hsame
      cases (Vm.start_cases hstart).2 <;> rfl
  | cleanUp hup heq =>
      subst heq
      intro name id hid
      cases hid

/-- The host goes by the right numbers at every moment of a run. -/
theorem Reaches.namesAgree (h : w.Reaches P w') (hw : w.NamesAgree) : w'.NamesAgree :=
  h.kept (fun hchange => hchange.namesAgree) hw

end World

end EmbeddedRuby
