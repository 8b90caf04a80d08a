import EmbeddedRuby.Proofs.InspectedLiterals
import EmbeddedRuby.Proofs.Nesting

/-!
# Objects that can be shown

Where the host has an object shown, the interpreter asks it for `inspect` or `to_s`, and the method
asks the parts of the object in their turn.  Each of these calls is one more inside the others.  The
bound on nested calls stands for the stack of the process, and so a run that reaches it, however
large it is, has no end.

As long as there are no methods under these two names but the interpreter's own
(`Machine.ShowsByOwn`), all that they do to the world is to make texts, unless they are left
(`Eval.MakesTexts`, `Builtin.makesTexts_own`).  By induction on its parts, a grounded object is
asked in time from some bound on (`asksFor_of_grounded`).  From there the tasks of showing it come
to their ends (`endsAt_showingTask`), and an array is joined in the same way
(`Methods.endsAt_join`).
-/

namespace EmbeddedRuby

open Eval

/-- The names of the methods that show objects. -/
def showingNames : List String := ["inspect", "to_s"]

/-! ### Names under which there are the interpreter's own methods -/

namespace Machine

variable {m m' : Machine} {name : String}

/-- Under this name there are no methods but the interpreter's own. -/
def OwnUnder (m : Machine) (name : String) : Prop :=
  ∃ id, m.symbols.find? name = some id ∧ ∀ module method,
    m.methods.get? (module, id) = some method →
      ∃ c b, (c, name, b) ∈ ownMethods ∧ method = .builtin b

/-- It is enough to look at the entries of the method table with the number of the name. -/
theorem OwnUnder.of_entries {id : SymbolId}
    (hid : m.symbols.find? name = some id)
    (hentries : ∀ entry ∈ m.methods.entries, entry.1.2 = id →
      ∃ c b, (c, name, b) ∈ ownMethods ∧ entry.2 = .builtin b) : m.OwnUnder name := by
  refine ⟨id, hid, fun module method hget => ?_⟩
  obtain ⟨entry, hfound, rfl⟩ := Option.map_eq_some_iff.mp hget
  have hmatch := List.find?_some hfound
  have hkey : entry.1 = (module, id) := by simpa using hmatch
  exact hentries entry (List.mem_of_find?_eq_some hfound) (congrArg Prod.snd hkey)

/-- Nothing changes under a name as long as its number and its methods stay. -/
theorem OwnUnder.of_kept (hm : m.OwnUnder name)
    (hkept : ∀ id, m.symbols.find? name = some id → m'.symbols.find? name = some id ∧
      ∀ module, m'.methods.get? (module, id) = m.methods.get? (module, id)) : m'.OwnUnder name := by
  obtain ⟨id, hid, hmethods⟩ := hm
  obtain ⟨hid', hsame⟩ := hkept id hid
  refine ⟨id, hid', fun module method hmethod => ?_⟩
  rw [hsame] at hmethod
  exact hmethods module method hmethod

/-- The interpreter's steps define no methods. -/
theorem OwnUnder.of_steps (hm : m.OwnUnder name) (h : m.Steps m') : m'.OwnUnder name :=
  hm.of_kept fun id hid => ⟨Steps.find?_kept h hid, fun module => by rw [Steps.methods_eq h]⟩

/-- A method that was defined is in the list, under its own name, or was there before. -/
theorem get?_foldl_defineOwn_cases (entries : List (CoreClass × String × Builtin)) {module : Value}
    {id : SymbolId} {method : Method}
    (hname : (entries.foldl defineOwn m).symbols.find? name = some id)
    (hmethod : (entries.foldl defineOwn m).methods.get? (module, id) = some method) :
    (∃ c b, (c, name, b) ∈ entries ∧ method = .builtin b) ∨
      m.methods.get? (module, id) = some method := by
  induction entries generalizing m with
  | nil => exact .inr hmethod
  | cons entry rest ih =>
      rcases ih (m := m.defineOwn entry) hname hmethod with ⟨c, b, hentry, hbuiltin⟩ | hdefined
      · exact .inl ⟨c, b, List.mem_cons_of_mem entry hentry, hbuiltin⟩
      · -- At the end a number belongs to one name only.
        have hentry : ((entry :: rest).foldl defineOwn m).symbols.find? entry.2.1 =
            some (m.symbols.intern entry.2.1).1 :=
          find?_foldl_defineOwn rest (m.symbols.find?_intern_self entry.2.1)
        change (m.methods.insert (entry.1.value, (m.symbols.intern entry.2.1).1)
          (Method.builtin entry.2.2)).get? (module, id) = some method at hdefined
        by_cases hkey : (module, id) = (entry.1.value, (m.symbols.intern entry.2.1).1)
        · rw [hkey, Table.get?_insert_self, Option.some.injEq] at hdefined
          have hid : id = (m.symbols.intern entry.2.1).1 := (Prod.mk.inj hkey).2
          have hsame : entry.2.1 = name := by
            rw [← SymbolTable.name_of_find? hentry, ← hid, SymbolTable.name_of_find? hname]
          exact .inl ⟨entry.1, entry.2.2, hsame ▸ List.mem_cons_self, hdefined.symm⟩
        · rw [Table.get?_insert_of_ne _ _ hkey] at hdefined
          exact .inr hdefined

/-- In a fresh interpreter there are its own methods only. -/
theorem boot_ownUnder {c : CoreClass} {b : Builtin} (hentry : (c, name, b) ∈ ownMethods) :
    boot.OwnUnder name := by
  obtain ⟨id, hid⟩ := exists_find?_foldl_defineOwn (m := bootClasses) hentry
  rw [boot_eq]
  refine ⟨id, hid, fun module method hmethod => ?_⟩
  rcases get?_foldl_defineOwn_cases ownMethods hid hmethod with hlisted | hbefore
  · exact hlisted
  · obtain ⟨heap, symbols, hclasses, -⟩ := bootClasses_frame
    rw [hclasses] at hbefore
    cases hbefore

end Machine

/-- There go on being the interpreter's own methods under a name that the host spares. -/
theorem World.Reaches.ownUnder {σ : Type} {P : Probe → Prop} {w w' : World σ} {name : String}
    (h : w.Reaches P w') (hspared : ∀ probe, P probe → probe.Spares name)
    (hw : w.machine.OwnUnder name) : w'.machine.OwnUnder name := by
  let Kept : World σ → Prop := fun u => u.machine.OwnUnder name
  have hstep : ∀ {u u' : World σ}, u.Change P u' → Kept u → Kept u' := fun hchange hu =>
    hu.of_kept fun _ hid => ⟨hchange.find?_kept hid, hchange.get?_kept hspared hid⟩
  exact h.kept hstep hw

/-! ### Which methods these are -/

/-- The methods that make a text of an object without asking for another. -/
def plainForms : List Builtin := [
  .objectInspect, .moduleToS, .nilToS, .nilInspect, .trueToS, .falseToS, .numberToS, .stringToS,
  .stringInspect, .symbolToS, .symbolInspect]

/-- The interpreter's own `inspect` methods, as the list of its methods has them. -/
theorem inspect_forms : ∀ entry ∈ ownMethods, entry.2.1 = "inspect" →
    entry.2.2 ∈ plainForms ++ [.arrayInspect, .hashInspect, .exceptionInspect] := by
  decide +kernel

/-- Its own `to_s` methods, from the same list. -/
theorem toS_forms : ∀ entry ∈ ownMethods, entry.2.1 = "to_s" →
    entry.2.2 ∈ plainForms ++ [.arrayInspect, .hashInspect, .exceptionToS] := by
  decide +kernel

variable {σ : Type}

/-! ### Runs that make texts -/

namespace World

variable {w : World σ}

/-- New texts are no parts of the objects that were there, nor have such objects lost any. -/
theorem addTexts_partsOf (w : World σ) (texts : List String) (v : Value) :
    (w.addTexts texts).machine.heap.partsOf v = w.machine.heap.partsOf v := by
  induction texts generalizing w with
  | nil => rfl
  | cons text rest ih => exact (ih (w.addText text)).trans (Heap.partsOf_alloc _ rfl v)

/-- The parts of an object are the same after any number of texts. -/
theorem addTexts_contains_iff (w : World σ) (texts : List String) (v part : Value) :
    (w.addTexts texts).machine.heap.Contains v part ↔ w.machine.heap.Contains v part := by
  unfold Heap.Contains
  rw [w.addTexts_partsOf]

/-- The objects that are grounded are the same after any number of texts. -/
theorem addTexts_grounded_iff (w : World σ) (texts : List String) (v : Value) :
    (w.addTexts texts).machine.heap.Grounded v ↔ w.machine.heap.Grounded v :=
  Heap.grounded_iff_of_partsOf (w.addTexts_partsOf texts) v

end World

namespace Eval

variable {α β : Type} {Left : Exit → World σ → Prop} {w : World σ}

/-- The run makes texts and nothing else and gives a value, or it is left in this way. -/
def MakesTexts (Left : Exit → World σ → Prop) (action : Eval σ α) (w : World σ) : Prop :=
  (∃ a texts, action w = .ok a (w.addTexts texts)) ∨
    ∃ exit w', action w = .error exit w' ∧ Left exit w'

/-- Being left by an exception for a fault is one of these ways, after however many texts. -/
def AllowsFaults (Left : Exit → World σ → Prop) (w : World σ) : Prop :=
  ∀ (fault : Fault) (texts : List String),
    Left (.jump (.raised ((w.addTexts texts).machine.newException fault).1))
      ((w.addTexts texts).raising fault)

/-- A fault may come after any number of texts, and so after some more. -/
theorem AllowsFaults.addTexts (h : AllowsFaults Left w) (texts : List String) :
    AllowsFaults Left (w.addTexts texts) := by
  intro fault more
  rw [← World.addTexts_append]
  exact h fault (texts ++ more)

namespace MakesTexts

/-- Giving a value makes no text at all. -/
theorem pure (a : α) : MakesTexts Left (pure a) w :=
  .inl ⟨a, [], rfl⟩

/-- A new text is one text. -/
theorem newText (text : String) : MakesTexts Left (newText text) w :=
  .inl ⟨_, [text], rfl⟩

/-- A run that is left in one of the ways allowed need not have made texts only. -/
theorem left {action : Eval σ α} {exit : Exit} {w' : World σ} (hrun : action w = .error exit w')
    (hexit : Left exit w') : MakesTexts Left action w :=
  .inr ⟨exit, w', hrun, hexit⟩

/-- A fault is one of the ways allowed, where faults are. -/
theorem raise (h : AllowsFaults Left w) (fault : Fault) :
    MakesTexts Left (raise fault : Eval σ α) w :=
  .left rfl (h fault [])

/-- A run that does the same makes the same texts. -/
theorem of_eq {action action' : Eval σ α} (hrun : action w = action' w)
    (h : MakesTexts Left action' w) : MakesTexts Left action w := by
  unfold MakesTexts
  rw [hrun]
  exact h

/-- Looking at the machine does nothing to the world. -/
theorem machine_bind {f : Machine → Eval σ α} (h : MakesTexts Left (f w.machine) w) :
    MakesTexts Left (machine >>= f) w :=
  h

/-- The texts of two runs follow one another; the second starts after those of the first. -/
theorem bind {x : Eval σ α} {f : α → Eval σ β} (hx : MakesTexts Left x w)
    (hf : ∀ a texts, MakesTexts Left (f a) (w.addTexts texts)) : MakesTexts Left (x >>= f) w := by
  rcases hx with ⟨a, texts, hrun⟩ | ⟨exit, w', hrun, hexit⟩
  · have hopen : (x >>= f) w = f a (w.addTexts texts) := by rw [bind_apply, hrun]
    rcases hf a texts with ⟨b, more, hrest⟩ | ⟨exit, w', hrest, hexit⟩
    · refine .inl ⟨b, texts ++ more, ?_⟩
      rw [hopen, hrest, World.addTexts_append]
    · exact .left (hopen.trans hrest) hexit
  · have hopen : (x >>= f) w = .error exit w' := by rw [bind_apply, hrun]
    exact .left hopen hexit

/-- Going over a list makes the texts of its steps, by induction over the list. -/
theorem mapM {f : α → Eval σ β} {items : List α}
    (hf : ∀ item ∈ items, ∀ texts, MakesTexts Left (f item) (w.addTexts texts)) :
    MakesTexts Left (items.mapM f) w := by
  induction items generalizing w with
  | nil => exact .pure []
  | cons item rest ih =>
      have hrest : ∀ texts, MakesTexts Left (rest.mapM f) (w.addTexts texts) := by
        intro texts
        refine ih fun other hother more => ?_
        rw [← World.addTexts_append]
        exact hf other (List.mem_cons_of_mem item hother) (texts ++ more)
      rw [List.mapM_cons]
      refine (hf item List.mem_cons_self []).bind fun b texts => ?_
      exact (hrest texts).bind fun bs more => .pure (b :: bs)

/-- Reading a text makes none. -/
theorem textOf (v : Value) : MakesTexts Left (textOf v) w :=
  .inl ⟨_, [], rfl⟩

end MakesTexts

end Eval

/-! ### What is asked for -/

namespace Heap

variable {h : Heap} {v : Value}

/-- The items of an array are its parts. -/
theorem contains_of_items {item : Value} (hitem : item ∈ (h.items? v).getD []) :
    h.Contains v item := by
  cases hitems : h.items? v with
  | none =>
      rw [hitems] at hitem
      cases hitem
  | some items =>
      rw [hitems, Option.getD_some] at hitem
      exact contains_of_body? (body?_of_items? hitems) hitem

/-- The keys and values of a hash are its parts. -/
theorem contains_of_pairs {pair : Value × Value} (hpair : pair ∈ (h.pairs? v).getD []) :
    h.Contains v pair.1 ∧ h.Contains v pair.2 := by
  cases hpairs : h.pairs? v with
  | none =>
      rw [hpairs] at hpair
      cases hpair
  | some pairs =>
      rw [hpairs, Option.getD_some] at hpair
      have hbody := body?_of_pairs? hpairs
      have hmem : ∀ part ∈ [pair.1, pair.2], part ∈ (Body.hash pairs).parts := fun part hpart =>
        List.mem_flatMap.mpr ⟨pair, hpair, hpart⟩
      exact ⟨contains_of_body? hbody (hmem _ List.mem_cons_self),
        contains_of_body? hbody (hmem _ (by simp))⟩

/-- A message that is there is a part of the exception. -/
theorem contains_message (hmessage : (h.exceptionParts v).1 ≠ Value.nil) :
    h.Contains v (h.exceptionParts v).1 := by
  unfold exceptionParts at hmessage ⊢
  split
  · rename_i message backtrace hbody
    exact contains_of_body? hbody List.mem_cons_self
  · rename_i hother
    split at hmessage
    · rename_i hbody
      exact absurd hbody (hother _ _)
    · exact absurd rfl hmessage

end Heap

section Forms

variable {Left : Exit → World σ → Prop} {r : Reentry σ} {w : World σ} {v : Value} {call : Call σ}

/-- Asking for the text of the object makes texts, after however many others. -/
def AsksFor (Left : Exit → World σ → Prop) (r : Reentry σ) (w : World σ) (v : Value)
    (name : String) : Prop :=
  ∀ texts, MakesTexts Left (r.sendNamed v name []) (w.addTexts texts)

/-- Asking after some texts is asking after however many. -/
theorem AsksFor.addTexts {name : String} (h : AsksFor Left r w v name) (texts : List String) :
    AsksFor Left r (w.addTexts texts) v name := by
  intro more
  rw [← World.addTexts_append]
  exact h (texts ++ more)

/-- What can be asked for `inspect` can be inspected. -/
theorem AsksFor.inspectText (h : AsksFor Left r w v "inspect") :
    MakesTexts Left (r.inspectText v) w :=
  (h []).bind fun shown _ => .textOf shown

/-- What can be asked for `to_s` can be displayed. -/
theorem AsksFor.displayText (h : AsksFor Left r w v "to_s") :
    MakesTexts Left (r.displayText v) w := by
  unfold Reentry.displayText
  refine .machine_bind ?_
  split
  · exact .textOf v
  · exact (h []).bind fun shown _ => .textOf shown

/-- Asking for the texts of the parts of the object makes texts. -/
def AsksForParts (Left : Exit → World σ → Prop) (r : Reentry σ) (w : World σ) (v : Value) : Prop :=
  ∀ part, w.machine.heap.Contains v part → ∀ name ∈ showingNames, AsksFor Left r w part name

/-- Each part of an object can be asked for `inspect`, if its parts can be asked. -/
theorem AsksForParts.inspect (h : AsksForParts Left r w v) {part : Value}
    (hpart : w.machine.heap.Contains v part) : AsksFor Left r w part "inspect" :=
  h part hpart "inspect" (by decide)

/-- Each part can be asked for `to_s` as well. -/
theorem AsksForParts.text (h : AsksForParts Left r w v) {part : Value}
    (hpart : w.machine.heap.Contains v part) : AsksFor Left r w part "to_s" :=
  h part hpart "to_s" (by decide)

namespace Methods

/-- Showing an array makes the texts of its items and one more. -/
theorem makesTexts_showArray (h : AsksForParts Left r w call.receiver) :
    MakesTexts Left (showArray r call) w := by
  have hitems : MakesTexts Left
      (((w.machine.heap.items? call.receiver).getD []).mapM r.inspectText) w := by
    refine .mapM fun item hitem texts => ?_
    have hasked := h.inspect (Heap.contains_of_items hitem)
    exact (hasked.addTexts texts).inspectText
  exact hitems.bind fun texts _ => .newText _

/-- Showing a pair makes the texts of its key and its value. -/
theorem makesTexts_showPair {pair : Value × Value} (hkey : AsksFor Left r w pair.1 "inspect")
    (hvalue : AsksFor Left r w pair.2 "inspect") : MakesTexts Left (showPair r pair) w := by
  unfold showPair
  refine hvalue.inspectText.bind fun value texts => .machine_bind ?_
  have hshown := (hkey.addTexts texts).inspectText
  dsimp only
  split
  · split
    · exact .pure _
    · exact hshown.bind fun key _ => .pure _
  · exact hshown.bind fun key _ => .pure _

/-- Showing a hash makes the texts of its pairs and one more. -/
theorem makesTexts_showHash (h : AsksForParts Left r w call.receiver) :
    MakesTexts Left (showHash r call) w := by
  have hpairs : MakesTexts Left
      (((w.machine.heap.pairs? call.receiver).getD []).mapM (showPair r)) w := by
    refine .mapM fun pair hpair texts => ?_
    obtain ⟨hkey, hvalue⟩ := Heap.contains_of_pairs hpair
    exact makesTexts_showPair ((h.inspect hkey).addTexts texts) ((h.inspect hvalue).addTexts texts)
  exact hpairs.bind fun texts _ => .newText _

/-- The text of an exception is that of its message, or a new one. -/
theorem makesTexts_exceptionText (h : AsksForParts Left r w call.receiver) :
    MakesTexts Left (exceptionText r call) w := by
  unfold exceptionText
  refine .machine_bind ?_
  dsimp only
  split
  · exact .newText _
  · rename_i hmessage
    split
    · exact .pure _
    · exact h.text (Heap.contains_message hmessage) []

/-- Showing an exception asks for its text and makes one more. -/
theorem makesTexts_showException (h : AsksFor Left r w call.receiver "to_s") :
    MakesTexts Left (showException r call) w := by
  unfold showException
  refine .machine_bind ((h []).bind fun shown _ => ?_)
  refine (MakesTexts.textOf shown).bind fun message _ => ?_
  split
  · exact .newText _
  · exact .newText _

end Methods

namespace Builtin

/-- The plain methods make one text at most and ask for nothing. -/
theorem makesTexts_plain {b : Builtin} (hb : b ∈ plainForms) :
    MakesTexts Left (b.run r call) w := by
  have hname : MakesTexts Left (Methods.symbolName call.receiver) w := by
    unfold Methods.symbolName
    split
    · exact .machine_bind (.pure _)
    · exact .pure _
  cases b with
  | objectInspect | moduleToS => exact .machine_bind (.newText _)
  | nilToS | nilInspect | trueToS | falseToS => exact .newText _
  | numberToS =>
      refine .machine_bind ?_
      split <;> exact .newText _
  | stringToS => exact .pure call.receiver
  | stringInspect => exact MakesTexts.bind (.machine_bind (.pure _)) fun chars _ => .newText _
  | symbolToS | symbolInspect => exact hname.bind fun name _ => .newText _
  | _ => exact absurd hb (by decide)

/-- A method that shows an object asks for its parts, and the one that shows an exception for the
text of that exception too. -/
theorem makesTexts_own {name : String} (hname : name ∈ showingNames) {c : CoreClass} {b : Builtin}
    (hentry : (c, name, b) ∈ ownMethods) (h : AsksForParts Left r w call.receiver)
    (hself : name = "inspect" → AsksFor Left r w call.receiver "to_s") :
    MakesTexts Left (b.run r call) w := by
  simp only [showingNames, List.mem_cons, List.not_mem_nil, or_false] at hname
  rcases hname with rfl | rfl
  · rcases List.mem_append.mp (inspect_forms _ hentry rfl) with hplain | hform
    · exact makesTexts_plain hplain
    · simp only [List.mem_cons, List.not_mem_nil, or_false] at hform
      rcases hform with rfl | rfl | rfl
      · exact Methods.makesTexts_showArray h
      · exact Methods.makesTexts_showHash h
      · exact Methods.makesTexts_showException (hself rfl)
  · rcases List.mem_append.mp (toS_forms _ hentry rfl) with hplain | hform
    · exact makesTexts_plain hplain
    · simp only [List.mem_cons, List.not_mem_nil, or_false] at hform
      rcases hform with rfl | rfl | rfl
      · exact Methods.makesTexts_showArray h
      · exact Methods.makesTexts_showHash h
      · exact Methods.makesTexts_exceptionText h

end Builtin

end Forms

/-! ### Calls -/

section Calls

variable {Left : Exit → World σ → Prop} {w : World σ} {name : String}

/-- A call under a name with the interpreter's own methods finds none, or one of them. -/
theorem Reentry.sendNamed_of_ownUnder (hown : w.machine.OwnUnder name) (fuel : Nat) (v : Value) :
    (∃ fault, (Reentry.ofFuel (fuel + 1)).sendNamed v name [] w = (raise fault : Eval σ Value) w) ∨
      ∃ c b method, (c, name, b) ∈ ownMethods ∧
        (Reentry.ofFuel (fuel + 1)).sendNamed v name [] w =
          b.run (.ofFuel fuel) { receiver := v, method, args := [] } w := by
  obtain ⟨id, hid, hmethods⟩ := hown
  have hintern : w.machine.intern name = (id, w.machine) := by
    unfold Machine.intern SymbolTable.intern
    rw [hid]
  have hcalled : (Reentry.ofFuel (fuel + 1)).sendNamed v name [] w =
      dispatch (.ofFuel fuel) { receiver := v, method := id, args := [] } w := by
    unfold Reentry.sendNamed Eval.intern
    rw [onMachine_bind_apply, hintern]
    rfl
  rw [hcalled]
  unfold dispatch
  rw [machine_bind_apply]
  cases hfound : w.machine.findMethod (w.machine.heap.classOf v) id with
  | none => exact .inl ⟨_, rfl⟩
  | some method =>
      obtain ⟨module, -, hmethod⟩ := List.exists_of_findSome?_eq_some hfound
      obtain ⟨c, b, hentry, rfl⟩ := hmethods module method hmethod
      exact .inr ⟨c, b, id, hentry, rfl⟩

/-- Under the names of the methods that show objects there are the interpreter's own. -/
def Machine.ShowsByOwn (m : Machine) : Prop :=
  ∀ name ∈ showingNames, m.OwnUnder name

/-- New texts define no methods. -/
theorem Machine.ShowsByOwn.addTexts (hown : w.machine.ShowsByOwn) (texts : List String) :
    (w.addTexts texts).machine.ShowsByOwn :=
  fun name hname => (hown name hname).of_steps (w.addTexts_makes texts).steps

/-- Asking the parts after some texts is asking them after however many. -/
theorem AsksForParts.addTexts {r : Reentry σ} {v : Value}
    (h : AsksForParts Left r w v) (texts : List String) :
    AsksForParts Left r (w.addTexts texts) v := by
  intro part hpart name hname
  have hbefore : w.machine.heap.Contains v part := (w.addTexts_contains_iff texts v part).mp hpart
  exact (h part hbefore name hname).addTexts texts

/-- One more call makes texts if the calls within it do. -/
theorem AsksForParts.asksFor {fuel : Nat} {v : Value} (hown : w.machine.ShowsByOwn)
    (hfaults : AllowsFaults Left w) (h : AsksForParts Left (.ofFuel fuel) w v)
    (hname : name ∈ showingNames)
    (hself : name = "inspect" → AsksFor Left (.ofFuel fuel) w v "to_s") :
    AsksFor Left (.ofFuel (fuel + 1)) w v name := by
  intro texts
  have hnames := hown.addTexts texts name hname
  rcases Reentry.sendNamed_of_ownUnder hnames fuel v with
    ⟨fault, hrun⟩ | ⟨c, b, method, hentry, hrun⟩
  · exact .of_eq hrun (.raise (hfaults.addTexts texts) fault)
  · exact .of_eq hrun (Builtin.makesTexts_own hname hentry (h.addTexts texts) fun hinspect =>
      (hself hinspect).addTexts texts)

/-! ### Objects that are grounded -/

/-- The run is over before the bound on nested calls is reached. -/
def Eval.EndsAt {α : Type} (action : Eval σ α) (w : World σ) : Prop :=
  ∀ w', action w ≠ .error .exhausted w'

/-- Being left in an orderly way. -/
abbrev Exit.InTime (exit : Exit) (_ : World σ) : Prop :=
  exit ≠ .exhausted

/-- Being left by an exception is being left in time. -/
theorem Eval.allowsFaults_inTime (w : World σ) : AllowsFaults Exit.InTime w :=
  fun _ _ => nofun

/-- A run that makes texts or is left in time comes to its end. -/
theorem Eval.MakesTexts.endsAt {α : Type} {action : Eval σ α}
    (h : MakesTexts Exit.InTime action w) : EndsAt action w := by
  intro w' hrun
  rcases h with ⟨a, texts, hvalue⟩ | ⟨exit, w₁, hleft, hexit⟩
  · rw [hvalue] at hrun
    cases hrun
  · rw [hleft] at hrun
    cases hrun
    exact hexit rfl

/-- What holds of each of some items from some number on holds of all of them from some number on.
-/
theorem exists_forall_of_forall_exists {α : Type} {p : α → Nat → Prop} (items : List α)
    (h : ∀ item ∈ items, ∃ n, ∀ k, n ≤ k → p item k) :
    ∃ n, ∀ k, n ≤ k → ∀ item ∈ items, p item k := by
  induction items with
  | nil => exact ⟨0, fun k _ item hitem => absurd hitem List.not_mem_nil⟩
  | cons item rest ih =>
      obtain ⟨n, hitem⟩ := h item List.mem_cons_self
      obtain ⟨k, hrest⟩ := ih fun other hother => h other (List.mem_cons_of_mem item hother)
      refine ⟨n + k, fun bound hbound other hother => ?_⟩
      rcases List.mem_cons.mp hother with rfl | hother
      · exact hitem bound (by omega)
      · exact hrest bound (by omega) other hother

/-- **There is time to ask for a grounded object**, by induction on its parts. -/
theorem asksFor_of_grounded (hown : w.machine.ShowsByOwn) {v : Value}
    (hv : w.machine.heap.Grounded v) :
    ∃ n, ∀ fuel, n ≤ fuel → ∀ name ∈ showingNames, AsksFor Exit.InTime (.ofFuel fuel) w v name := by
  induction hv with
  | intro v _ ih =>
      obtain ⟨n, hparts⟩ := exists_forall_of_forall_exists (w.machine.heap.partsOf v) ih
      have hasks : ∀ fuel, n ≤ fuel → AsksForParts Exit.InTime (.ofFuel fuel) w v :=
        fun fuel hfuel part hpart => hparts fuel hfuel part hpart
      have hfaults := allowsFaults_inTime w
      refine ⟨n + 2, fun fuel hfuel name hname => ?_⟩
      obtain ⟨fuel, rfl⟩ : ∃ fewer, fuel = fewer + 2 := ⟨fuel - 2, by omega⟩
      have htext : AsksFor Exit.InTime (.ofFuel (fuel + 1)) w v "to_s" :=
        (hasks fuel (by omega)).asksFor hown hfaults (by decide) nofun
      exact (hasks (fuel + 1) (by omega)).asksFor hown hfaults hname fun _ => htext

/-! ### What ends in a new text -/

/-- If the run gives a value, that is a text that was made last. -/
def Eval.EndsInText (action : Eval σ Value) : Prop :=
  ∀ w a w', action w = .ok a w' → ∃ text w₁, newText text w₁ = .ok a w'

/-- A new text is the last thing made. -/
theorem Eval.EndsInText.newText (text : String) : EndsInText (newText text : Eval σ Value) :=
  fun w _ _ hrun => ⟨text, w, hrun⟩

/-- What comes last decides what is made last. -/
theorem Eval.EndsInText.bind {α : Type} {x : Eval σ α} {f : α → Eval σ Value}
    (hf : ∀ a, EndsInText (f a)) : EndsInText (x >>= f) := by
  intro w a w' hrun
  obtain ⟨b, w₁, -, hrest⟩ := bind_ok_iff.mp hrun
  exact hf b w₁ a w' hrest

/-- A text that was made last is a string, if there was room for it. -/
theorem isString_of_newText {text : String} {a : Value} {w₁ w' : World σ}
    (hrun : newText text w₁ = .ok a w') (hroom : w'.machine.heap.HasRoom 0) :
    w'.machine.heap.IsString a := by
  have hmade : a = (w₁.machine.newText text).1 ∧ w' = w₁.addText text := by
    cases hrun
    exact ⟨rfl, rfl⟩
  obtain ⟨rfl, rfl⟩ := hmade
  have hbefore : w₁.machine.heap.Addressable := by
    have hsize : (w₁.addText text).machine.heap.slots.size = w₁.machine.heap.slots.size + 1 :=
      Array.size_push _
    unfold Heap.HasRoom at hroom
    unfold Heap.Addressable
    omega
  exact ⟨_, Heap.body?_alloc hbefore _ _⟩

/-- The methods by which objects are inspected make a text at their end. -/
theorem Builtin.endsInText_inspect {c : CoreClass} {b : Builtin}
    (hentry : (c, "inspect", b) ∈ ownMethods) (r : Reentry σ) (call : Call σ) :
    EndsInText (b.run r call) := by
  have hforms : ∀ entry ∈ ownMethods, entry.2.1 = "inspect" → entry.2.2 ≠ .stringToS := by
    decide +kernel
  have hother := hforms _ hentry rfl
  have hform : b ∈ plainForms ++ [.arrayInspect, .hashInspect, .exceptionInspect] :=
    inspect_forms _ hentry rfl
  have number : EndsInText (Methods.numberText call) := by
    refine .bind fun m => ?_
    split <;> exact .newText _
  have exception : EndsInText (Methods.showException r call) := by
    refine .bind fun m => .bind fun shown => .bind fun message => ?_
    split <;> exact .newText _
  cases b with
  | objectInspect | moduleToS | stringInspect | symbolToS | symbolInspect =>
      exact .bind fun _ => .newText _
  | nilToS | nilInspect | trueToS | falseToS => exact .newText _
  | numberToS => exact number
  | arrayInspect | hashInspect => exact .bind fun _ => .bind fun _ => .newText _
  | exceptionInspect => exact exception
  | stringToS => exact absurd rfl hother
  | _ => exact absurd hform (by decide)

/-! ### There is time -/

/-- The tasks by which the host has an object shown. -/
def showingTasks (v : Value) : List Task :=
  [.inspect v, .inspectBytes v, .string v, .stringBytes v]

/-- A string is one without a call. -/
theorem Reentry.stringOf_of_isString {r : Reentry σ} {v : Value} (hv : w.machine.heap.IsString v) :
    r.stringOf v w = .ok v w := by
  unfold Reentry.stringOf
  rw [machine_bind_apply, if_pos hv.typeOf]
  rfl

/-- Reading bytes makes no text but that of a fault. -/
theorem Eval.makesTexts_bytesOf (hfaults : AllowsFaults Left w) (v : Value) :
    MakesTexts Left (bytesOf v) w := by
  unfold bytesOf
  refine .machine_bind ?_
  split
  · exact .pure _
  · exact .raise hfaults _

/-- Making sure of a string asks for `to_s` at most. -/
theorem Eval.makesTexts_stringOf {r : Reentry σ} {v : Value} (hfaults : AllowsFaults Left w)
    (h : AsksFor Left r w v "to_s") : MakesTexts Left (r.stringOf v) w := by
  unfold Reentry.stringOf
  refine .machine_bind ?_
  split
  · exact .pure v
  · refine (h []).bind fun converted texts => .machine_bind ?_
    split
    · exact .pure converted
    · exact .raise (hfaults.addTexts texts) _

/-- What shows an object is a string, if there was room for it. -/
theorem Reentry.isString_of_inspect (hown : w.machine.ShowsByOwn) {fuel : Nat} {v a : Value}
    {w' : World σ} (hrun : (Reentry.ofFuel fuel).sendNamed v "inspect" [] w = .ok a w')
    (hroom : w'.machine.heap.HasRoom 0) : w'.machine.heap.IsString a := by
  cases fuel with
  | zero =>
      obtain ⟨id, w₁, -, hsend⟩ := bind_ok_iff.mp hrun
      cases hsend
  | succ fuel =>
      rcases sendNamed_of_ownUnder (hown "inspect" (by decide)) fuel v with
        ⟨fault, hraised⟩ | ⟨c, b, method, hentry, hcalled⟩
      · rw [hraised] at hrun
        exact absurd hrun raise_ne_ok
      · rw [hcalled] at hrun
        obtain ⟨text, w₁, hmade⟩ := Builtin.endsInText_inspect hentry _ _ w a w' hrun
        exact isString_of_newText hmade hroom

/-- Where an object can be asked for `inspect` in time, inspecting it does not run out of calls. -/
theorem inspectString_ne_exhausted (hown : w.machine.ShowsByOwn) {fuel : Nat} {v : Value}
    (h : AsksFor Exit.InTime (.ofFuel fuel) w v "inspect") {w' : World σ}
    (hroom : w'.machine.heap.HasRoom 0) :
    (Reentry.ofFuel fuel).inspectString v w ≠ .error .exhausted w' := by
  intro hrun
  rcases bind_error_iff.mp hrun with hasked | ⟨shown, w₁, hshown, hconverted⟩
  · exact (h []).endsAt w' hasked
  · -- Whatever converting does, it takes no object away, so there was room for the text.
    have hfollows := (Reentry.follows_ofFuel (σ := σ) AnyProbe fuel).composed (.stringOf shown)
    have hreached : w₁.Reaches AnyProbe w' := by
      have hworld := World.reaches_of_follows hfollows w₁
      rwa [hconverted] at hworld
    have hbefore : w₁.machine.heap.HasRoom 0 := by
      have hsize := hreached.evolves.size_le
      unfold Heap.HasRoom at hroom ⊢
      omega
    have hstring := Reentry.isString_of_inspect hown hshown hbefore
    rw [Reentry.stringOf_of_isString hstring] at hconverted
    cases hconverted

/-- **There is time to show an object if there is time to ask for it**, as long as the texts have
room. -/
theorem endsAt_showingTask (hown : w.machine.ShowsByOwn) {fuel : Nat} {v : Value}
    (h : ∀ name ∈ showingNames, AsksFor Exit.InTime (.ofFuel fuel) w v name) {task : Task}
    (htask : task ∈ showingTasks v)
    (hroom : (Outcome.world (perform (.ofFuel fuel) task w)).machine.heap.HasRoom 0) :
    EndsAt (perform (.ofFuel fuel) task) w := by
  have hinspect := h "inspect" (by decide)
  have hfaults := allowsFaults_inTime (σ := σ)
  have htext := makesTexts_stringOf (hfaults w) (h "to_s" (by decide))
  intro w' hrun
  rw [hrun] at hroom
  simp only [showingTasks, List.mem_cons, List.not_mem_nil, or_false] at htask
  rcases htask with rfl | rfl | rfl | rfl
  · exact inspectString_ne_exhausted hown hinspect hroom hrun
  · rcases bind_error_iff.mp hrun with hshown | ⟨shown, w₁, -, hread⟩
    · exact inspectString_ne_exhausted hown hinspect hroom hshown
    · exact (makesTexts_bytesOf (hfaults w₁) shown).endsAt w' hread
  · exact htext.endsAt w' hrun
  · exact (htext.bind fun text texts => makesTexts_bytesOf (hfaults _) text).endsAt w' hrun

/-! ### Joining -/

namespace Methods

section Items

variable {Left : Exit → World σ → Prop} {r : Reentry σ} {separator : String} {depth : Nat} {item v : Value}

/-- An array among the items is joined, and any other item is asked for its text. -/
theorem makesTexts_joinedItem (hasked : AsksFor Left r w item "to_s")
    (hjoined : ∀ texts, MakesTexts Left (joinItems r separator depth item) (w.addTexts texts))
    (texts : List String) :
    MakesTexts Left (do
      if (← machine).heap.typeOf item = .array then joinItems r separator depth item
      else r.displayText item : Eval σ String) (w.addTexts texts) := by
  refine .machine_bind ?_
  split
  · exact hjoined texts
  · exact (hasked.addTexts texts).displayText

/-- Joining an array joins or asks its items, at a depth one less. -/
theorem makesTexts_joinItems
    (hitems : ∀ item, w.machine.heap.Contains v item → AsksFor Left r w item "to_s" ∧
      ∀ texts, MakesTexts Left (joinItems r separator depth item) (w.addTexts texts))
    (texts : List String) :
    MakesTexts Left (joinItems r separator (depth + 1) v) (w.addTexts texts) := by
  have hmapped : MakesTexts Left
      ((((w.addTexts texts).machine.heap.items? v).getD []).mapM fun item => (do
        if (← machine).heap.typeOf item = .array then joinItems r separator depth item
        else r.displayText item : Eval σ String)) (w.addTexts texts) := by
    refine .mapM fun item hitem more => ?_
    have hpart : w.machine.heap.Contains v item :=
      (w.addTexts_contains_iff texts v item).mp (Heap.contains_of_items hitem)
    obtain ⟨hasked, hjoined⟩ := hitems item hpart
    rw [← World.addTexts_append]
    exact makesTexts_joinedItem hasked hjoined (texts ++ more)
  exact hmapped.bind fun joined _ => .pure _

end Items

/-- There is time to join a grounded array: the arrays in it are joined, and its other items are
asked for their texts. -/
theorem makesTexts_joinItems_of_grounded (hown : w.machine.ShowsByOwn) {v : Value}
    (hv : w.machine.heap.Grounded v) :
    ∃ n, ∀ fuel, n ≤ fuel → ∀ depth, n ≤ depth → ∀ separator texts,
      MakesTexts Exit.InTime (joinItems (.ofFuel fuel) separator depth v) (w.addTexts texts) := by
  induction hv with
  | intro v hparts ih =>
      have hboth : ∀ part ∈ w.machine.heap.partsOf v, ∃ n, ∀ bound, n ≤ bound →
          ∀ fuel, bound ≤ fuel → AsksFor Exit.InTime (.ofFuel fuel) w part "to_s" ∧
            ∀ depth, bound ≤ depth → ∀ separator texts, MakesTexts Exit.InTime
              (joinItems (.ofFuel fuel) separator depth part) (w.addTexts texts) := by
        intro part hpart
        obtain ⟨n, hasked⟩ := asksFor_of_grounded hown (hparts part hpart)
        obtain ⟨k, hjoined⟩ := ih part hpart
        refine ⟨n + k, fun bound hbound fuel hfuel => ⟨?_, fun depth hdepth => ?_⟩⟩
        · exact hasked fuel (by omega) "to_s" (by decide)
        · exact hjoined fuel (by omega) depth (by omega)
      obtain ⟨n, hitems⟩ := exists_forall_of_forall_exists (w.machine.heap.partsOf v) hboth
      refine ⟨n + 1, fun fuel hfuel depth hdepth separator texts => ?_⟩
      obtain ⟨depth, rfl⟩ : ∃ fewer, depth = fewer + 1 := ⟨depth - 1, by omega⟩
      refine makesTexts_joinItems (fun item hitem => ?_) texts
      obtain ⟨hasked, hjoined⟩ := hitems n (Nat.le_refl n) item hitem fuel (by omega)
      exact ⟨hasked, hjoined depth (by omega) separator⟩

/-- There is time to join a grounded array with a grounded separator. -/
theorem endsAt_join (hown : w.machine.ShowsByOwn) (call : Call σ)
    (hreceiver : w.machine.heap.Grounded call.receiver)
    (hargs : ∀ arg ∈ call.args, w.machine.heap.Grounded arg) :
    ∃ n, ∀ fuel, n ≤ fuel → EndsAt (join (.ofFuel fuel) call) w := by
  obtain ⟨n, hjoined⟩ := makesTexts_joinItems_of_grounded hown hreceiver
  obtain ⟨k, hseparator⟩ := exists_forall_of_forall_exists call.args fun arg harg =>
    asksFor_of_grounded hown (hargs arg harg)
  refine ⟨n + k + 1, fun fuel hfuel => MakesTexts.endsAt ?_⟩
  obtain ⟨fuel, rfl⟩ : ∃ fewer, fuel = fewer + 1 := ⟨fuel - 1, by omega⟩
  have hrounds : (Reentry.ofFuel (fuel + 1) : Reentry σ).rounds = fuel := rfl
  have harity : MakesTexts Exit.InTime (checkArity call 0 1) w := by
    unfold checkArity
    dsimp only
    split
    · exact .raise (allowsFaults_inTime w) _
    · exact .pure _
  have hrest : ∀ separator texts, MakesTexts Exit.InTime (do
      newText (← joinItems (.ofFuel (fuel + 1)) separator fuel call.receiver) : Eval σ Value)
      (w.addTexts texts) := by
    intro separator texts
    have hitems := hjoined (fuel + 1) (by omega) fuel (by omega) separator texts
    exact hitems.bind fun text _ => .newText text
  unfold join
  refine harity.bind fun _ texts => ?_
  rw [hrounds]
  dsimp only
  split
  · rename_i separator hhead
    have hmem : separator ∈ call.args := List.mem_of_mem_head? hhead
    have hasked := hseparator (fuel + 1) (by omega) separator hmem "to_s" (by decide)
    refine (hasked.addTexts texts).displayText.bind fun between more => ?_
    rw [← World.addTexts_append]
    exact hrest between _
  · refine (MakesTexts.pure "").bind fun between more => ?_
    rw [← World.addTexts_append]
    exact hrest between _

end Methods

end Calls

end EmbeddedRuby
