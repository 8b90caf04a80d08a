import Mathlib.Algebra.Group.Int.Defs
import EmbeddedRuby.Proofs.HeldLiterals
import EmbeddedRuby.Proofs.OwnMethods
import EmbeddedRuby.Proofs.Utf8

/-!
# Literals that are inspected and read again

Objects are shown by the interpreter's own methods (`Machine.OwnInspects`) from the start
(`Machine.ownInspects_boot`), and as long as the host puts no other in their place
(`World.Reaches.ownInspects`).  Then an object that holds a literal is shown as that literal is
written, and showing it does nothing but make texts (`World.addTexts`), one for each part of the
literal.  The proof is by induction on the literal: an array asks each of its items for its text,
through the interpreter.

The reader takes a literal as it was written.  So what a script says in a literal comes back as the
literal when the host has the object shown and reads the text again
(`Loader.parse_inspect_evaluate`).
-/

namespace EmbeddedRuby

open Eval

/-- The methods by which the objects that hold literals are shown. -/
def showingMethods : List (CoreClass × Builtin) := [
  (.nilClass, .nilInspect), (.trueClass, .trueToS), (.falseClass, .falseToS),
  (.integer, .numberToS), (.string, .stringInspect), (.symbol, .symbolInspect),
  (.array, .arrayInspect)]

/-- Objects are shown by the interpreter's own methods. -/
def Machine.OwnInspects (m : Machine) : Prop :=
  ∀ entry ∈ showingMethods, m.Answers entry.1.value "inspect" entry.2

/-- Literals go on being inspected by the interpreter's own methods, as no step defines a method. -/
theorem Machine.OwnInspects.of_steps {m m' : Machine} (hm : m.OwnInspects) (h : m.Steps m') :
    m'.OwnInspects :=
  fun entry hentry => Machine.Steps.answers h (hm entry hentry)

/-- In a fresh interpreter objects are shown by its own methods. -/
theorem Machine.ownInspects_boot : Machine.boot.OwnInspects := by
  have htable : ∀ entry ∈ showingMethods, entry.1.ownMethod? "inspect" = some entry.2 := by
    decide +kernel
  exact fun entry hentry => boot_answers (htable entry hentry)

/-- Objects go on being shown by the interpreter's own methods where the host spares the name. -/
theorem World.Reaches.ownInspects {σ : Type} {P : Probe → Prop} {w w' : World σ}
    (h : w.Reaches P w') (hspared : ∀ probe, P probe → probe.Spares "inspect")
    (hw : w.machine.OwnInspects) : w'.machine.OwnInspects :=
  fun entry hentry => h.answers hspared (hw entry hentry)

variable {σ : Type} {w : World σ} {v : Value} {lit : Literal}

/-! ### Texts that are made -/

/-- The world with more texts. -/
def World.addTexts (w : World σ) (texts : List String) : World σ :=
  texts.foldl World.addText w

namespace World

/-- Texts that are made in two goes are made one after the other. -/
theorem addTexts_append (w : World σ) (front back : List String) :
    w.addTexts (front ++ back) = (w.addTexts front).addTexts back :=
  List.foldl_append

/-- New texts leave the arrays alone. -/
theorem addTexts_makes (w : World σ) (texts : List String) :
    w.machine.Makes (w.addTexts texts).machine := by
  induction texts generalizing w with
  | nil => exact .refl _
  | cons text rest ih => exact (Machine.Makes.text w.machine text).trans (ih (w.addText text))

/-- Texts stand beside the objects that there were. -/
theorem addTexts_keepsSlots (w : World σ) (texts : List String) :
    w.machine.heap.KeepsSlots (w.addTexts texts).machine.heap := by
  induction texts generalizing w with
  | nil => exact .refl _
  | cons text rest ih => exact (Heap.KeepsSlots.alloc _ _ _).trans (ih (w.addText text))

/-- New texts take as much room as there are of them. -/
theorem addTexts_hasRoom {texts : List String} {count : Nat}
    (hroom : w.machine.heap.HasRoom (count + texts.length)) :
    (w.addTexts texts).machine.heap.HasRoom count := by
  induction texts generalizing w with
  | nil => exact hroom
  | cons text rest ih => exact ih (w := w.addText text) (hroom.alloc _ _)

end World

/-! ### The classes of objects that hold literals -/

namespace Heap

variable {h : Heap}

/-- A symbol is of the class `Symbol`, wherever it comes from. -/
theorem classOf_of_symbol? {id : SymbolId} (hid : v.symbol? = some id) :
    h.classOf v = CoreClass.symbol.value := by
  unfold classOf
  rw [typeOf_of_symbol? hid]

end Heap

/-! ### How an object is shown -/

/-- Showing the object makes so many texts and gives the last of them, which is `text`. -/
def World.Shows (w : World σ) (fuel : Nat) (v : Value) (text : List Char) (count : Nat) : Prop :=
  ∃ shown texts, texts.length = count ∧
    (Reentry.ofFuel fuel).sendNamed v "inspect" [] w = .ok shown (w.addTexts texts) ∧
    (w.addTexts texts).machine.heap.body? shown = some (.string (Utf8.encode text))

/-- An object is shown by the method that its class answers with, which makes a text after some others.
-/
theorem World.shows_of_answers {fuel count : Nat} {text : List Char} {b : Builtin}
    (hanswers : w.machine.Answers (w.machine.heap.classOf v) "inspect" b)
    (hroom : w.machine.heap.HasRoom (count + 1))
    (hrun : ∀ method, ∃ texts, texts.length = count ∧
      b.run (.ofFuel fuel) { receiver := v, method, args := [] } w =
        newText (String.ofList text) (w.addTexts texts)) :
    w.Shows (fuel + 1) v text (count + 1) := by
  obtain ⟨method, hsend⟩ := Reentry.sendNamed_of_answers fuel hanswers []
  obtain ⟨texts, hlength, hmade⟩ := hrun method
  have hleft : (w.addTexts texts).machine.heap.HasRoom 1 :=
    addTexts_hasRoom (hroom.mono (by omega))
  have hslot := Machine.slot?_newText hleft.addressable text
  refine ⟨((w.addTexts texts).machine.newText (String.ofList text)).1,
    texts ++ [String.ofList text], by simp [hlength], ?_, ?_⟩
  · rw [hsend, hmade, addTexts_append]
    rfl
  · rw [addTexts_append]
    exact Heap.body?_of_slot? hslot

/-- A literal is shown by the method of its class. -/
theorem World.shows_of_run {fuel count : Nat} {text : List Char} (entry : CoreClass × Builtin)
    (hentry : entry ∈ showingMethods) (hclass : w.machine.heap.classOf v = entry.1.value)
    (hown : w.machine.OwnInspects) (hroom : w.machine.heap.HasRoom (count + 1))
    (hrun : ∀ method, ∃ texts, texts.length = count ∧
      entry.2.run (.ofFuel fuel) { receiver := v, method, args := [] } w =
        newText (String.ofList text) (w.addTexts texts)) :
    w.Shows (fuel + 1) v text (count + 1) := by
  have hanswers : w.machine.Answers (w.machine.heap.classOf v) "inspect" entry.2 :=
    hclass ▸ hown entry hentry
  exact shows_of_answers hanswers hroom hrun

namespace World.Shows

variable {fuel count : Nat} {text : List Char}

/-- The text that shows the object. -/
theorem inspectText_apply (h : w.Shows fuel v text count) :
    ∃ texts, texts.length = count ∧
      (Reentry.ofFuel fuel).inspectText v w = .ok (String.ofList text) (w.addTexts texts) := by
  obtain ⟨shown, texts, hlength, hsend, hbody⟩ := h
  have hread : textOf shown (w.addTexts texts) = .ok (String.ofList text) (w.addTexts texts) := by
    unfold textOf Heap.bytes?
    rw [machine_bind_apply, hbody]
    simp [Utf8.stringLossy, Utf8.decodeLossy_encode]
  refine ⟨texts, hlength, ?_⟩
  unfold Reentry.inspectText
  rw [bind_apply, hsend]
  exact hread

/-- The host is given the text that shows the object. -/
theorem settled_inspect (h : w.Shows fuel v text count) (hup : w.state = .up) :
    ∃ w', Vm.settled (.ofFuel fuel) (Vm.inspect (.ofFuel fuel) v) w =
      .ok (.ok (String.ofList text)) w' := by
  obtain ⟨shown, texts, -, hsend, hbody⟩ := h
  have hbytes := perform_inspectBytes_of_send hsend hbody
  refine ⟨w.addTexts texts, ?_⟩
  refine (Vm.settled_ensureSetup_of_up _ hup _).trans ?_
  refine (Vm.settled_guarded_bind_of_ok _ hbytes _).trans ?_
  unfold Utf8.stringLossy
  rw [Utf8.decodeLossy_encode]
  rfl

end World.Shows

/-! ### How a literal is shown -/

/-- An object that holds the literal is shown as the literal is written. -/
def Shown (σ : Type) (lit : Literal) : Prop :=
  ∀ (w : World σ) (fuel : Nat) (v : Value), w.machine.Holds v lit → w.machine.OwnInspects →
    w.machine.heap.HasRoom lit.size → lit.size ≤ fuel → w.Shows fuel v lit.written lit.size

/-- The items of an array are shown one after the other; the texts that show one of them change
nothing about those that come after it. -/
theorem mapM_inspectText {items : List Literal} (hitems : ∀ item ∈ items, Shown σ item)
    {values : List Value} (hlength : values.length = items.length)
    (hheld : ∀ pair ∈ values.zip items, w.machine.Holds pair.1 pair.2)
    (hown : w.machine.OwnInspects) (hroom : w.machine.heap.HasRoom (Literal.sizes items))
    {fuel : Nat} (hfuel : Literal.sizes items ≤ fuel) :
    ∃ texts, texts.length = Literal.sizes items ∧
      values.mapM (Reentry.ofFuel fuel).inspectText w =
        .ok ((Literal.writtenItems items).map String.ofList) (w.addTexts texts) := by
  induction items generalizing w values with
  | nil =>
      obtain rfl := List.eq_nil_of_length_eq_zero hlength
      exact ⟨[], rfl, rfl⟩
  | cons item rest ih =>
      cases values with
      | nil => cases hlength
      | cons v values =>
          rw [Literal.sizes] at hroom hfuel
          obtain ⟨texts, hcount, hfirst⟩ := (hitems item List.mem_cons_self w fuel v
            (hheld (v, item) List.mem_cons_self) hown (hroom.mono (by omega))
            (by omega)).inspectText_apply
          obtain ⟨more, hmore, hrest⟩ := ih (w := w.addTexts texts)
            (fun other hother => hitems other (List.mem_cons_of_mem item hother))
            (Nat.succ.inj hlength)
            (fun pair hpair => (hheld pair (List.mem_cons_of_mem _ hpair)).of_makes
              (w.addTexts_makes texts))
            (hown.of_steps (w.addTexts_makes texts).steps)
            (World.addTexts_hasRoom (hroom.mono (by omega))) (by omega)
          refine ⟨texts ++ more, ?_, ?_⟩
          · rw [List.length_append, hcount, hmore, Literal.sizes]
          · rw [List.mapM_cons, bind_apply, hfirst]
            simp only
            rw [bind_apply, hrest, World.addTexts_append]
            rfl

/-- The texts of items, between commas and in brackets. -/
theorem brackets_ofList (texts : List (List Char)) :
    "[" ++ ", ".intercalate (texts.map String.ofList) ++ "]" =
      String.ofList ('[' :: ([',', ' '].intercalate texts ++ [']'])) := by
  apply String.toList_inj.mp
  have hback : (texts.map String.ofList).map String.toList = texts := by
    rw [List.map_map]
    exact (List.map_congr_left fun text _ => String.toList_ofList).trans (List.map_id texts)
  rw [String.toList_append, String.toList_append, String.toList_intercalate, hback,
    String.toList_ofList]
  simp

/-- An object that is shown by the method of its class without another call. -/
theorem shown_of_newText (hsize : lit.size = 1) (entry : CoreClass × Builtin)
    (hentry : entry ∈ showingMethods)
    (hclass : ∀ (m : Machine) (v : Value), m.Holds v lit → m.heap.classOf v = entry.1.value)
    (hrun : ∀ (w : World σ) (fuel : Nat) (v : Value) (method : SymbolId), w.machine.Holds v lit →
      entry.2.run (.ofFuel fuel) { receiver := v, method, args := [] } w =
        newText (String.ofList lit.written) w) : Shown σ lit := by
  intro w fuel v hheld hown hroom hfuel
  rw [hsize] at hroom hfuel ⊢
  obtain ⟨fuel, rfl⟩ : ∃ fewer, fuel = fewer + 1 := ⟨fuel - 1, by omega⟩
  exact World.shows_of_run entry hentry (hclass _ v hheld) hown hroom
    fun method => ⟨[], rfl, hrun w fuel v method hheld⟩

/-- The digits of an integer. -/
theorem numberText_apply {n : Int} (hheld : w.machine.Holds v (.int n)) (method : SymbolId) :
    Methods.numberText { receiver := v, method, args := [] } w =
      newText (String.ofList (Numeral.decimalInt n)) w := by
  have hn : w.machine.heap.int? v = some n := by
    unfold Heap.int?
    cases hheld with
    | fixnum hn => rw [hn]
    | bignum hslot =>
        obtain ⟨index, hindex⟩ := Heap.slot?_of_body? (Heap.body?_of_slot? hslot)
        rw [Value.fixnum?_of_slot? hindex, Heap.body?_of_slot? hslot]
  have hnumber : Number.of? w.machine.heap v = some (.int n) := by
    unfold Number.of?
    rw [hn]
  unfold Methods.numberText
  rw [machine_bind_apply, hnumber]
  rfl

/-- The characters of a string, quoted. -/
theorem showString_of_bytes? {bytes : List UInt8} (hbytes : w.machine.heap.bytes? v = some bytes)
    (method : SymbolId) :
    Methods.showString { receiver := v, method, args := [] } w =
      newText (String.ofList (Text.quote (Utf8.decodeLossy bytes))) w := by
  have hchars : Methods.charsOf v w = .ok (Utf8.decodeLossy bytes) w := by
    unfold Methods.charsOf
    rw [machine_bind_apply, hbytes]
    rfl
  unfold Methods.showString
  rw [bind_apply, hchars]

/-- A string that holds a text is shown as that text between quotes. -/
theorem showString_apply {text : List Char} (hheld : w.machine.Holds v (.string text))
    (method : SymbolId) :
    Methods.showString { receiver := v, method, args := [] } w =
      newText (String.ofList (Text.quote text)) w := by
  have hbytes : w.machine.heap.bytes? v = some (Utf8.encode text) := by
    cases hheld with
    | string hslot =>
        unfold Heap.bytes?
        rw [Heap.body?_of_slot? hslot]
  rw [showString_of_bytes? hbytes method, Utf8.decodeLossy_encode]

/-- The name of a symbol, quoted if it is not plain. -/
theorem showSymbol_apply {name : List Char} (hheld : w.machine.Holds v (.symbol name))
    (method : SymbolId) :
    Methods.showSymbol { receiver := v, method, args := [] } w =
      newText (String.ofList (Text.quoteSymbol name)) w := by
  have hnamed : Methods.symbolName v w = .ok (String.ofList name) w := by
    cases hheld with
    | symbol hid hname =>
        unfold Methods.symbolName
        rw [hid]
        simp only [machine_bind_apply, SymbolTable.name_of_find? hname, pure_apply]
  unfold Methods.showSymbol
  rw [bind_apply, hnamed]
  simp only [String.toList_ofList]

/-- The items of an array, between commas and in brackets. -/
theorem showArray_apply {items : List Literal} (hitems : ∀ item ∈ items, Shown σ item)
    (hheld : w.machine.Holds v (.array items)) (hown : w.machine.OwnInspects)
    (hroom : w.machine.heap.HasRoom (Literal.sizes items)) {fuel : Nat}
    (hfuel : Literal.sizes items ≤ fuel) (method : SymbolId) :
    ∃ texts, texts.length = Literal.sizes items ∧
      Methods.showArray (.ofFuel fuel) { receiver := v, method, args := [] } w =
        newText (String.ofList (Literal.array items).written) (w.addTexts texts) := by
  cases hheld with
  | @array v values items hslot hlength hvalues =>
      obtain ⟨texts, hcount, hshown⟩ := mapM_inspectText hitems hlength hvalues hown hroom hfuel
      have hread : Methods.itemsOf v w = .ok values w := by
        unfold Methods.itemsOf Heap.items?
        rw [machine_bind_apply, Heap.body?_of_slot? hslot]
        rfl
      refine ⟨texts, hcount, ?_⟩
      unfold Methods.showArray
      rw [bind_apply, hread]
      simp only
      rw [bind_apply, hshown]
      simp only
      rw [brackets_ofList]
      rfl

/-- **An object that holds a literal is shown as the literal is written**, by induction on the
literal. -/
theorem shown_of_readable (h : lit.Readable) : Shown σ lit := by
  induction h with
  | nil =>
      refine shown_of_newText rfl (.nilClass, .nilInspect) (by decide) ?_ ?_
      · rintro m v ⟨⟩
        rfl
      · exact fun w fuel v method _ => rfl
  | true =>
      refine shown_of_newText rfl (.trueClass, .trueToS) (by decide) ?_ ?_
      · rintro m v ⟨⟩
        rfl
      · exact fun w fuel v method _ => rfl
  | false =>
      refine shown_of_newText rfl (.falseClass, .falseToS) (by decide) ?_ ?_
      · rintro m v ⟨⟩
        rfl
      · exact fun w fuel v method _ => rfl
  | @int n hn =>
      refine shown_of_newText rfl (.integer, .numberToS) (by decide) ?_ ?_
      · intro m v hheld
        cases hheld with
        | fixnum hn => exact Heap.classOf_of_fixnum? hn
        | bignum hslot => exact Heap.classOf_of_slot? hslot
      · exact fun w fuel v method hheld => numberText_apply hheld method
  | @string text htext =>
      refine shown_of_newText rfl (.string, .stringInspect) (by decide) ?_ ?_
      · intro m v hheld
        cases hheld with
        | string hslot => exact Heap.classOf_of_slot? hslot
      · exact fun w fuel v method hheld => showString_apply hheld method
  | @symbol name hname hequals =>
      refine shown_of_newText rfl (.symbol, .symbolInspect) (by decide) ?_ ?_
      · intro m v hheld
        cases hheld with
        | symbol hid => exact Heap.classOf_of_symbol? hid
      · exact fun w fuel v method hheld => showSymbol_apply hheld method
  | @array items hitems ih =>
      -- The only method that calls others: its items have the room and the calls that it has, but
      -- for its own text and its own call.
      intro w fuel v hheld hown hroom hfuel
      simp only [Literal.size] at hroom hfuel ⊢
      obtain ⟨fuel, rfl⟩ : ∃ fewer, fuel = fewer + 1 := ⟨fuel - 1, by omega⟩
      have hclass : w.machine.heap.classOf v = CoreClass.array.value := by
        cases hheld with
        | array hslot => exact Heap.classOf_of_slot? hslot
      exact World.shows_of_run (.array, .arrayInspect) (by decide) hclass hown hroom
        (showArray_apply ih hheld hown (hroom.mono (Nat.le_succ _)) (Nat.le_of_succ_le_succ hfuel))

/-! ### There and back -/

namespace Loader

/-- **A literal comes back from its text.**  The loader evaluates a literal to an object, and the
interpreter is changed by steps of its own and nothing else.  At every later moment at which the
interpreter is up, objects are shown by its own methods, and the arrays have the items that they
had, the host is given a text for the object; and a line that assigns this text to a constant is
read as one statement, the assignment of that literal.

The literal is one of `nil`, `true`, `false`, the numbers that the reader holds, and texts and
symbols without any but four control characters, or an array of such literals, nested to any depth;
but for symbols that are plain names with an equals sign at their end.  There has to be room for the
objects and names that it takes, and for as many texts when it is shown; and the bound on nested
calls has to be as large. -/
theorem parse_inspect_evaluate (hlit : lit.Readable) (r : Reentry σ) (b : Bodies)
    (hroom : w.machine.HasRoom lit.size) :
    ∃ v m, w.machine.Steps m ∧ evaluate r b lit w = .ok v { w with machine := m } ∧
      ∀ u : World σ, World.Reaches AnyProbe { w with machine := m } u → u.state = .up →
        u.machine.OwnInspects → m.heap.KeepsArrays u.machine.heap →
        u.machine.heap.HasRoom lit.size → ∀ fuel, lit.size ≤ fuel →
        ∃ text u', Vm.settled (.ofFuel fuel) (Vm.inspect (.ofFuel fuel) v) u = .ok (.ok text) u' ∧
          Source.parse ("X = " ++ text).toList = .ok [(1, .setConstant ['X'] lit)] := by
  obtain ⟨v, m, hvalue, hholds, hmakes, -⟩ :=
    evaluate_holds (r := r) (b := b) hlit w 0 (hroom.mono (by omega))
  refine ⟨v, m, hmakes.steps, hvalue, ?_⟩
  intro u hreached hup hown harrays hspare fuel hfuel
  have hheld : u.machine.Holds v lit := hreached.holdsLiteral harrays hholds
  obtain ⟨u', hshown⟩ :=
    (shown_of_readable hlit u fuel v hheld hown hspare hfuel).settled_inspect hup
  refine ⟨String.ofList lit.written, u', hshown, ?_⟩
  have hline : ("X = " ++ String.ofList lit.written).toList =
      ['X'] ++ " = ".toList ++ lit.written := by
    rw [String.toList_append]
    exact congrArg ("X = ".toList ++ ·) String.toList_ofList
  rw [hline]
  exact Source.parse_assignment hlit (by decide) (by simp)

/-- A literal of every kind, with what the reader could trip over in its texts. -/
def assorted : Literal := .array [
  .nil, .true, .false, .int (-7), .int (2 ^ 126),
  .string "a \"#\", \\ and \n".toList, .symbol "ready?".toList, .symbol "two, three".toList,
  .array [.array [], .string "]'".toList, .symbol "".toList]]

/-- An interpreter with the methods by which objects are shown. -/
def inspecting : World Unit where
  machine := {
    heap := ⟨Machine.coreSlots⟩
    symbols := ⟨#["inspect"]⟩
    methods := ⟨showingMethods.map fun entry => ((entry.1.value, ⟨1⟩), .builtin entry.2)⟩ }
  state := .up
  memory := ()

/-- That literal comes back at once. -/
theorem parse_inspect_evaluate_assorted :
    assorted.Readable ∧ inspecting.machine.HasRoom assorted.size ∧
    ∃ v m, evaluate (.ofFuel 0) ⟨[CoreClass.object.value], []⟩ assorted inspecting =
        .ok v { inspecting with machine := m } ∧
      m.OwnInspects ∧ m.heap.HasRoom assorted.size ∧
      ∃ text w, Vm.settled (.ofFuel 13) (Vm.inspect (.ofFuel 13) v) { inspecting with machine := m } =
          .ok (.ok text) w ∧
        Source.parse ("X = " ++ text).toList = .ok [(1, .setConstant ['X'] assorted)] := by
  have hinner : (Literal.array [.array [], .string "]'".toList, .symbol "".toList]).Readable := by
    refine .array ?_
    simp only [List.forall_mem_cons]
    exact ⟨.array (by simp), .string (List.all_eq_true.mp (by decide)), .symbol (by simp) (by simp),
      by simp⟩
  have hlit : assorted.Readable := by
    refine .array ?_
    simp only [List.forall_mem_cons]
    exact ⟨.nil, .true, .false, .int (by decide), .int (by decide +kernel),
      .string (List.all_eq_true.mp (by decide)),
      .symbol (List.all_eq_true.mp (by decide)) (by decide),
      .symbol (List.all_eq_true.mp (by decide)) (by decide), hinner, by simp⟩
  have hroom : inspecting.machine.HasRoom assorted.size := ⟨by decide +kernel, by decide +kernel⟩
  obtain ⟨v, m, hsteps, hvalue, hback⟩ :=
    parse_inspect_evaluate hlit (.ofFuel 0) ⟨[CoreClass.object.value], []⟩ hroom
  have hown : m.OwnInspects := by
    have hshown : inspecting.machine.OwnInspects := by
      have hname : inspecting.machine.symbols.find? "inspect" = some ⟨1⟩ := by decide +kernel
      intro entry hentry
      simp only [showingMethods, List.mem_cons, List.not_mem_nil, or_false] at hentry
      rcases hentry with rfl | rfl | rfl | rfl | rfl | rfl | rfl <;> exact ⟨⟨1⟩, hname, rfl⟩
    exact hshown.of_steps hsteps
  have hspare : m.heap.HasRoom assorted.size := by
    have hworld : { inspecting with machine := m } = Outcome.world
        (evaluate (.ofFuel 0) ⟨[CoreClass.object.value], []⟩ assorted inspecting) := by
      rw [hvalue]
      rfl
    have hafter : (Outcome.world (evaluate (.ofFuel 0) ⟨[CoreClass.object.value], []⟩ assorted
        inspecting)).machine.heap.HasRoom assorted.size := by
      decide +kernel
    rwa [← hworld] at hafter
  refine ⟨hlit, hroom, v, m, hvalue, hown, hspare, ?_⟩
  exact hback _ .refl rfl hown (fun _ _ h => h) hspare 13 (by decide +kernel)

end Loader

end EmbeddedRuby
