import EmbeddedRuby.Proofs.Growth
import EmbeddedRuby.Proofs.Iterations

/-!
# Describing an exception by the interpreter's own methods

What an exception is told as is up to its methods, which the host may have replaced.  Here they are
the interpreter's own (`Machine.OwnDescriptions`), and the exception was made for a fault.  Then
describing it comes to an end and does nothing but make texts and let the host know two names
(`World.Describable.report_run`); so the fault surfaces as one error, which tells the class and the
message (`World.surface_raising_recounts`).

The proof goes down the calls and back: the text of the exception (`exceptionText_apply`), how it is
shown (`showException_apply`), the lines of its backtrace (`joinItems_apply`, `join_apply`).
-/

namespace EmbeddedRuby

open Eval

/-- Exceptions made for faults are described by the interpreter's own methods. -/
structure Machine.OwnDescriptions (m : Machine) : Prop where
  shown : ∀ fault : Fault, m.Answers fault.cls.value "inspect" .exceptionInspect
  text : ∀ fault : Fault, m.Answers fault.cls.value "to_s" .exceptionToS
  traced : ∀ fault : Fault, m.Answers fault.cls.value "backtrace" .exceptionBacktrace
  joined : m.Answers CoreClass.array.value "join" .arrayJoin

/-- Exceptions go on being described by the interpreter's own methods, as no step defines a method.
-/
theorem Machine.OwnDescriptions.of_steps {m m' : Machine} (hm : m.OwnDescriptions)
    (h : m.Steps m') : m'.OwnDescriptions where
  shown := fun fault => Machine.Steps.answers h (hm.shown fault)
  text := fun fault => Machine.Steps.answers h (hm.text fault)
  traced := fun fault => Machine.Steps.answers h (hm.traced fault)
  joined := Machine.Steps.answers h hm.joined

variable {σ : Type} (fuel : Nat) {w : World σ} {exception message trace : Value}
  {texts : List String} {fault : Fault}

/-- The world with one more text. -/
def World.addText (w : World σ) (text : String) : World σ :=
  w.onMachine fun m => (m.newText text).2

/-- A method of the interpreter's own is called by the number of its name. -/
theorem Reentry.send_of_answers {receiver : Value} {name : String} {id : SymbolId} {b : Builtin}
    (h : w.machine.Answers (w.machine.heap.classOf receiver) name b)
    (hid : w.machine.symbols.find? name = some id) (args : List Value) :
    (Reentry.ofFuel (fuel + 1)).send { receiver, method := id, args } w =
      b.run (.ofFuel fuel) { receiver, method := id, args } w := by
  obtain ⟨found, hfound, hmethod⟩ := h
  obtain rfl : id = found := Option.some.inj (hid.symm.trans hfound)
  exact Vm.send_of_findMethod hmethod

/-- A method of the interpreter's own is called by its name. -/
theorem Reentry.sendNamed_of_answers {receiver : Value} {name : String} {b : Builtin}
    (h : w.machine.Answers (w.machine.heap.classOf receiver) name b) (args : List Value) :
    ∃ method, (Reentry.ofFuel (fuel + 1)).sendNamed receiver name args w =
      b.run (.ofFuel fuel) { receiver, method, args } w := by
  have hcopy := h
  obtain ⟨id, hid, -⟩ := hcopy
  have hintern : w.machine.intern name = (id, w.machine) := by
    unfold Machine.intern SymbolTable.intern
    rw [hid]
  refine ⟨id, ?_⟩
  unfold Reentry.sendNamed Eval.intern
  rw [onMachine_bind_apply, hintern]
  exact Reentry.send_of_answers fuel h hid args

/-- A string is taken as the text that it is read as. -/
theorem Eval.textOf_of_reads {v : Value} {text : String} (hv : w.machine.heap.Reads v text) :
    textOf v w = .ok text w := by
  obtain ⟨bytes, hbytes, rfl⟩ := hv
  unfold textOf Heap.bytes?
  rw [machine_bind_apply, hbytes]
  rfl

/-! ### How an exception is shown -/

namespace Methods

variable {r : Reentry σ}

/-- The text of an exception with a message is that message. -/
theorem exceptionText_apply {call : Call σ}
    (he : w.machine.heap.ExceptionAt fault.cls.value call.receiver message trace texts) :
    exceptionText r call w = .ok message w := by
  have hnil : message ≠ Value.nil := by
    rintro rfl
    obtain ⟨bytes, hbytes⟩ := he.message
    rw [Heap.body?_nil] at hbytes
    cases hbytes
  unfold exceptionText
  rw [machine_bind_apply, he.exceptionParts, if_neg hnil, if_pos he.message.typeOf, pure_apply]

/-- How an exception of this class is shown, with this message. -/
def shownAs (cls said : String) : String :=
  if said = "" then cls else s!"#<{cls}: {said}>"

/-- Showing an exception comes to making a text of its class and its message. -/
theorem showException_apply (call : Call σ) {said : String}
    (he : w.machine.heap.ExceptionAt fault.cls.value call.receiver message trace texts)
    (hsaid : w.machine.heap.Reads message said) (hown : w.machine.OwnDescriptions) :
    showException (.ofFuel (fuel + 1)) call w =
      newText (shownAs (w.machine.moduleName fault.cls.value) said) w := by
  have hclass := he.classOf
  have htext : w.machine.Answers (w.machine.heap.classOf call.receiver) "to_s" .exceptionToS :=
    hclass ▸ hown.text fault
  obtain ⟨method, hsend⟩ := Reentry.sendNamed_of_answers fuel htext []
  have hto_s : (Reentry.ofFuel (fuel + 1)).sendNamed call.receiver "to_s" [] w =
      .ok message w := by
    rw [hsend]
    exact exceptionText_apply he
  unfold showException shownAs Machine.className
  rw [machine_bind_apply, bind_apply, hto_s, hclass]
  simp only [bind_apply, textOf_of_reads hsaid]
  split <;> rfl

end Methods

/-- The bytes of a string are had without a call. -/
theorem perform_stringBytes {r : Reentry σ} {v : Value} {bytes : List UInt8}
    (hbytes : w.machine.heap.body? v = some (.string bytes)) :
    perform r (.stringBytes v) w = .ok bytes w := by
  have htype : w.machine.heap.typeOf v = .string := Heap.typeOf_of_body? hbytes
  have hstring : r.stringOf v w = .ok v w := by
    unfold Reentry.stringOf
    rw [machine_bind_apply, if_pos htype]
    rfl
  have hread : bytesOf v w = .ok bytes w := by
    unfold bytesOf Heap.bytes?
    rw [machine_bind_apply, hbytes]
    rfl
  change (r.stringOf v >>= fun v => bytesOf v) w = _
  rw [bind_apply, hstring]
  exact hread

/-- The bytes that show an object are those of the string that its method gives. -/
theorem perform_inspectBytes_of_send {r : Reentry σ} {v shown : Value} {bytes : List UInt8}
    {w' : World σ} (hsend : r.sendNamed v "inspect" [] w = .ok shown w')
    (hbytes : w'.machine.heap.body? shown = some (.string bytes)) :
    perform r (.inspectBytes v) w = .ok bytes w' := by
  have hread := perform_stringBytes (r := r) hbytes
  change ((r.sendNamed v "inspect" [] >>= fun v => r.stringOf v) >>= fun v => bytesOf v) w = _
  rw [bind_assoc, bind_apply, hsend]
  exact hread

/-- The bytes that show an exception are had by making a text. -/
theorem perform_inspectBytes {said : String}
    (he : w.machine.heap.ExceptionAt fault.cls.value exception message trace texts)
    (hsaid : w.machine.heap.Reads message said) (hown : w.machine.OwnDescriptions)
    (hroom : w.machine.heap.Addressable) :
    let text := Methods.shownAs (w.machine.moduleName fault.cls.value) said
    perform (.ofFuel (fuel + 2)) (.inspectBytes exception) w =
      .ok (Utf8.encodeString text) (w.addText text) := by
  intro text
  have hshown : w.machine.Answers (w.machine.heap.classOf exception) "inspect" .exceptionInspect :=
    he.classOf ▸ hown.shown fault
  obtain ⟨method, hsend⟩ := Reentry.sendNamed_of_answers (fuel + 1) hshown []
  have htext := Methods.showException_apply fuel { receiver := exception, method, args := [] } he
    hsaid hown
  have hinspect : (Reentry.ofFuel (fuel + 2)).sendNamed exception "inspect" [] w =
      .ok (w.machine.newText text).1 (w.addText text) := hsend.trans htext
  have hbytes : (w.addText text).machine.heap.body? (w.machine.newText text).1 =
      some (.string (Utf8.encodeString text)) := Heap.body?_alloc hroom _ _
  exact perform_inspectBytes_of_send hinspect hbytes

/-! ### The lines of a backtrace -/

/-- A string is displayed as the text that it is read as, which takes no call. -/
theorem Reentry.displayText_apply {r : Reentry σ} {v : Value} {text : String}
    (hv : w.machine.heap.Reads v text) : r.displayText v w = .ok text w := by
  unfold Reentry.displayText
  rw [machine_bind_apply, if_pos hv.isString.typeOf]
  exact textOf_of_reads hv

namespace Methods

variable {r : Reentry σ} {array : Value}

/-- Joining an array of strings only reads them. -/
theorem joinItems_apply (separator : String) (depth : Nat)
    (harray : w.machine.heap.ReadsAll array texts) :
    joinItems r separator (depth + 1) array w = .ok (separator.intercalate texts) w := by
  obtain ⟨lines, hslot, hlines⟩ := harray
  -- Each item is read by itself.
  have hmapped : (lines.mapM fun item => (do
      if (← machine).heap.typeOf item = .array then joinItems r separator depth item
      else r.displayText item : Eval σ String)) w = .ok texts w := by
    clear hslot
    induction hlines with
    | nil => rfl
    | @cons line _ _ _ hline _ ih =>
        have hnot : w.machine.heap.typeOf line ≠ .array := by
          rw [hline.isString.typeOf]
          decide
        rw [List.mapM_cons, bind_apply, machine_bind_apply, if_neg hnot,
          Reentry.displayText_apply hline]
        simp only [bind_apply, ih]
        rfl
  have hitems : itemsOf array w = .ok lines w := by
    unfold itemsOf Heap.items?
    rw [machine_bind_apply, Heap.body?_of_slot? hslot]
    rfl
  unfold joinItems
  rw [bind_apply, hitems]
  simp only [bind_apply, hmapped]
  rfl

/-- Joining an array of strings comes to making a text. -/
theorem join_apply (method : SymbolId) {separator : Value} {between : String} {depth : Nat}
    (hrounds : r.rounds = depth + 1) (harray : w.machine.heap.ReadsAll array texts)
    (hseparator : w.machine.heap.Reads separator between) :
    join r { receiver := array, method, args := [separator] } w =
      newText (between.intercalate texts) w := by
  have harity : checkArity { receiver := array, method, args := [separator] } 0 1 w =
      .ok () w := rfl
  unfold join
  rw [bind_apply, harity, hrounds]
  simp only [List.head?_cons, bind_apply, Reentry.displayText_apply hseparator,
    joinItems_apply between depth harray]

end Methods

/-! ### The names that the host asks for -/

namespace World

/-- Nothing has happened but that texts were made and that the host got to know names. -/
inductive Recounts (w : World σ) : World σ → Prop
  | refl : Recounts w w
  | addText {w' : World σ} (h : Recounts w w') (text : String) : Recounts w (w'.addText text)
  | knowing {w' : World σ} (h : Recounts w w') (name : String) : Recounts w (w'.knowing name)

/-- Getting to know a name takes steps of the interpreter. -/
theorem knowing_steps (w : World σ) (name : String) :
    w.machine.Steps (w.knowing name).machine := by
  unfold knowing
  split
  · exact .refl
  · exact .tail (.single (.countIntern w.machine)) (.intern _ name)

/-- Getting to know a name leaves the objects as they are. -/
theorem knowing_heap (w : World σ) (name : String) :
    (w.knowing name).machine.heap = w.machine.heap := by
  unfold knowing
  split <;> rfl

/-- Getting to know a name leaves the history as it is. -/
theorem knowing_history (w : World σ) (name : String) :
    (w.knowing name).history = w.history := by
  unfold knowing
  split <;> rfl

/-- What is only recounted twice is only recounted. -/
theorem Recounts.trans {w₁ w₂ : World σ} (hfirst : w.Recounts w₁) (hlater : w₁.Recounts w₂) :
    w.Recounts w₂ := by
  induction hlater with
  | refl => exact hfirst
  | addText _ text ih => exact ih.addText text
  | knowing _ name ih => exact ih.knowing name

/-- Recounting records no error. -/
theorem Recounts.history {w' : World σ} (h : w.Recounts w') : w'.history = w.history := by
  induction h with
  | refl => rfl
  | addText _ text ih => exact ih
  | knowing _ name ih => rw [knowing_history, ih]

/-- The names that the host knows agree with the interpreter's when there is one more. -/
theorem NamesAgree.knowing (hw : w.NamesAgree) (name : String) : (w.knowing name).NamesAgree := by
  unfold World.knowing
  split
  · exact hw
  · exact hw.learn name

/-- The number that the host gets to know is the one that the interpreter goes by. -/
theorem NamesAgree.find?_idOf (hw : w.NamesAgree) {name : String} {id : SymbolId}
    (hid : w.machine.symbols.find? name = some id) :
    w.machine.symbols.find? name = some (w.idOf name) := by
  unfold World.idOf
  cases hknown : w.ids.get? name with
  | some found => exact hw name found hknown
  | none =>
      unfold Machine.intern SymbolTable.intern
      rw [hid]
      rfl

end World

namespace Vm

/-- A name is always had quietly. -/
theorem quietName_run {r : Reentry σ} (name : String) (w : World σ) :
    (quietName r name).run w = .ok (some (w.idOf name)) (w.knowing name) := by
  rw [quietName_run_apply]
  unfold World.idOf World.knowing
  cases w.ids.get? name with
  | some id => rfl
  | none => rfl

/-- What goes on after a part that was found goes on from there. -/
theorem option_run_bind_of_some {α β : Type} {x : OptionT (Eval σ) α} {a : α} {w' : World σ}
    (h : x.run w = .ok (some a) w') (f : α → OptionT (Eval σ) β) :
    (x >>= f).run w = (f a).run w' := by
  rw [option_run_bind_apply, h]

/-- A task that gives a value gives it quietly. -/
theorem quietly_run_of_ok {r : Reentry σ} {task : Task} {a : task.Result} {w' : World σ}
    (h : perform r task w = .ok a w') : (quietly r task).run w = .ok (some a) w' := by
  rw [quietly_run_apply, h]

end Vm

/-! ### The backtrace as a whole -/

namespace Heap

variable {h h' : Heap} {cls : Value}

/-- The exception is of this class, and has a backtrace of these lines. -/
def TracedBy (h : Heap) (cls exception : Value) (texts : List String) : Prop :=
  ∃ message trace, h.slot? exception = some ⟨cls, .exception message trace⟩ ∧ h.ReadsAll trace texts

/-- An exception keeps its backtrace as long as the objects are kept. -/
theorem TracedBy.kept (he : h.TracedBy cls exception texts) (hkept : h.KeepsSlots h') :
    h'.TracedBy cls exception texts := by
  obtain ⟨message, trace, hslot, htrace⟩ := he
  exact ⟨message, trace, hkept _ _ hslot, htrace.kept hkept⟩

/-- An exception that stands with all its parts has the backtrace that it stands with. -/
theorem ExceptionAt.tracedBy (he : h.ExceptionAt cls exception message trace texts) :
    h.TracedBy cls exception texts :=
  ⟨message, trace, he.slot, he.trace⟩

end Heap

/-- An exception with a backtrace of these lines, which it gives by the interpreter's own method. -/
structure World.Traceable (w : World σ) (cls exception : Value) (texts : List String) : Prop where
  traced : w.machine.heap.TracedBy cls exception texts
  answers : w.machine.Answers cls "backtrace" .exceptionBacktrace
  joined : w.machine.Answers CoreClass.array.value "join" .arrayJoin
  names : w.NamesAgree

namespace World.Traceable

variable {cls : Value}

/-- Getting to know a name does not concern the backtrace. -/
theorem knowing (hw : w.Traceable cls exception texts) (name : String) :
    (w.knowing name).Traceable cls exception texts where
  traced := (w.knowing_heap name).symm ▸ hw.traced
  answers := Machine.Steps.answers (w.knowing_steps name) hw.answers
  joined := Machine.Steps.answers (w.knowing_steps name) hw.joined
  names := hw.names.knowing name

/-- Another text does not concern the backtrace. -/
theorem addText (hw : w.Traceable cls exception texts) (text : String) :
    (w.addText text).Traceable cls exception texts where
  traced := hw.traced.kept (.alloc _ _ _)
  answers := Machine.Steps.answers (.single (.string w.machine _)) hw.answers
  joined := Machine.Steps.answers (.single (.string w.machine _)) hw.joined
  names := hw.names

/-- The backtrace is asked for by its number. -/
theorem perform_backtrace (hw : w.Traceable cls exception texts) {id : SymbolId}
    (hid : w.machine.symbols.find? "backtrace" = some id) :
    ∃ trace, w.machine.heap.ReadsAll trace texts ∧
      perform (.ofFuel (fuel + 1)) (.call exception id [] false) w = .ok trace w := by
  obtain ⟨message, trace, hslot, htrace⟩ := hw.traced
  have hanswers := hw.answers
  rw [← Heap.classOf_of_slot? hslot] at hanswers
  refine ⟨trace, htrace, (Reentry.send_of_answers fuel hanswers hid []).trans ?_⟩
  change Methods.backtraceOf _ w = _
  unfold Methods.backtraceOf Heap.exceptionParts
  rw [machine_bind_apply, Heap.body?_of_slot? hslot]
  rfl

/-- The lines of the backtrace are joined to a text. -/
theorem perform_join (hw : w.Traceable cls exception texts) {id : SymbolId}
    (hid : w.machine.symbols.find? "join" = some id)
    (htrace : w.machine.heap.ReadsAll trace texts) {separator : Value} {between : String}
    (hseparator : w.machine.heap.Reads separator between) :
    perform (.ofFuel (fuel + 3)) (.call trace id [separator] false) w =
      .ok (w.machine.newText (between.intercalate texts)).1
        (w.addText (between.intercalate texts)) := by
  have hjoined : w.machine.Answers (w.machine.heap.classOf trace) "join" .arrayJoin :=
    htrace.classOf ▸ hw.joined
  have hrounds : (Reentry.ofFuel (fuel + 2) : Reentry σ).rounds = fuel + 1 := rfl
  have hmade := Methods.join_apply id hrounds htrace hseparator
  exact (Reentry.send_of_answers (fuel + 2) hjoined hid [separator]).trans hmade

/-- **The lines of the backtrace are had**, as far as line feeds part them, at the cost of texts and
of names. -/
theorem backtraceLines_run (hw : w.Traceable cls exception texts) (hroom : w.machine.heap.HasRoom 2) :
    ∃ w', (Vm.backtraceLines (.ofFuel (fuel + 3)) exception).run w =
      .ok (some ((Text.lines ("\n".intercalate texts).toList).map String.ofList)) w' ∧
      w.Recounts w' := by
  -- The host gets to know both names.
  let w₁ := (w.knowing "backtrace").knowing "join"
  have hw₁ : w₁.Traceable cls exception texts := (hw.knowing _).knowing _
  have hheap₁ : w₁.machine.heap = w.machine.heap :=
    ((w.knowing "backtrace").knowing_heap "join").trans (w.knowing_heap "backtrace")
  have hroom₁ : w₁.machine.heap.HasRoom 2 := hheap₁ ▸ hroom
  obtain ⟨id, hid, -⟩ := hw.answers
  have hbacktrace : w₁.machine.symbols.find? "backtrace" = some (w.idOf "backtrace") :=
    Machine.Steps.find?_kept ((w.knowing_steps _).trans (knowing_steps _ _)) (hw.names.find?_idOf hid)
  obtain ⟨id', hid', -⟩ := (hw.knowing "backtrace").joined
  have hjoin : w₁.machine.symbols.find? "join" = some ((w.knowing "backtrace").idOf "join") :=
    Machine.Steps.find?_kept (knowing_steps _ _) ((hw.knowing "backtrace").names.find?_idOf hid')
  obtain ⟨trace, htrace, hasked⟩ := hw₁.perform_backtrace (fuel + 2) hbacktrace
  -- The backtrace is an array, so a separator is made, with which its lines are joined to a text.
  let separator := (w₁.machine.newText "\n").1
  let w₂ := w₁.addText "\n"
  have hseparator : w₂.machine.heap.Reads separator "\n" := .new hroom₁.addressable "\n"
  have hroom₂ : w₂.machine.heap.HasRoom 1 := hroom₁.alloc _ _
  let text := "\n".intercalate texts
  have hjoined := (hw₁.addText "\n").perform_join fuel hjoin (htrace.kept (.alloc _ _ _))
    hseparator
  have hbytes := perform_stringBytes (r := .ofFuel (fuel + 3)) (w := w₂.addText text)
    (Heap.body?_alloc hroom₂.addressable CoreClass.string.value
      (.string (Utf8.encodeString text)))
  have hread : Utf8.decodeLossy (Utf8.encodeString text) = text.toList := Utf8.decodeLossy_encode _
  refine ⟨w₂.addText text, ?_, .addText (.addText (.knowing (.knowing .refl _) _) _) _⟩
  have hmachine : (OptionT.lift Eval.machine : OptionT (Eval σ) Machine).run w₁ =
      .ok (some w₁.machine) w₁ := rfl
  have hnewline : (OptionT.lift (newText "\n") : OptionT (Eval σ) Value).run w₁ =
      .ok (some separator) w₂ := rfl
  rw [← hread]
  unfold Vm.backtraceLines
  refine (Vm.option_run_bind_of_some (Vm.quietName_run "backtrace" w) _).trans ?_
  refine (Vm.option_run_bind_of_some (Vm.quietName_run "join" _) _).trans ?_
  refine (Vm.option_run_bind_of_some (Vm.quietly_run_of_ok hasked) _).trans ?_
  refine (Vm.option_run_bind_of_some hmachine _).trans ?_
  rw [if_pos htrace.typeOf]
  refine (Vm.option_run_bind_of_some hnewline _).trans ?_
  refine (Vm.option_run_bind_of_some (Vm.quietly_run_of_ok hjoined) _).trans ?_
  exact Vm.option_run_bind_of_some (Vm.quietly_run_of_ok hbytes) _

end World.Traceable

/-! ### The description as a whole -/

/-- An exception made for a fault that the interpreter's own methods describe. -/
structure World.Describable (w : World σ) (fault : Fault) (exception message trace : Value)
    (texts : List String) : Prop where
  exception : w.machine.heap.ExceptionAt fault.cls.value exception message trace texts
  own : w.machine.OwnDescriptions
  names : w.NamesAgree

namespace World.Describable

/-- An exception that can be described can be after another text. -/
theorem addText (hw : w.Describable fault exception message trace texts) (text : String) :
    (w.addText text).Describable fault exception message trace texts where
  exception := hw.exception.alloc _ _
  own := hw.own.of_steps (.single (.string w.machine _))
  names := hw.names

/-- Its backtrace can be had. -/
theorem traceable (hw : w.Describable fault exception message trace texts) :
    w.Traceable fault.cls.value exception texts where
  traced := hw.exception.tracedBy
  answers := hw.own.traced fault
  joined := hw.own.joined
  names := hw.names

/-- The description comes to an end, with the class and the message of the exception, and all that it
does is to make texts and to let the host know names. -/
theorem report_run {said : String} (hw : w.Describable fault exception message trace texts)
    (hsaid : w.machine.heap.Reads message said) (hroom : w.machine.heap.HasRoom 3) :
    ∃ lines w', Vm.report (.ofFuel (fuel + 3)) exception w =
      .ok ⟨Methods.shownAs (w.machine.moduleName fault.cls.value) said, lines⟩ w' ∧
      w.Recounts w' := by
  let text := Methods.shownAs (w.machine.moduleName fault.cls.value) said
  have hinspected := perform_inspectBytes (fuel + 1) hw.exception hsaid hw.own hroom.addressable
  have hshown : (Vm.shown (.ofFuel (fuel + 3)) exception).run w =
      .ok (some text) (w.addText text) := by
    rw [Vm.shown_run_apply, hinspected]
    exact congrArg (fun shown => EStateM.Result.ok (some shown) (w.addText text))
      (Utf8.stringLossy_encodeString text)
  obtain ⟨w', hlines, hrecounts⟩ :=
    (hw.addText text).traceable.backtraceLines_run fuel (hroom.alloc _ _)
  refine ⟨(Text.lines ("\n".intercalate texts).toList).map String.ofList, w', ?_,
    (Recounts.refl.addText text).trans hrecounts⟩
  unfold Vm.report
  rw [bind_apply, hshown]
  simp only [bind_apply, hlines, pure_apply, Option.getD_some]
  rfl

end World.Describable

/-! ### Surfacing -/

namespace World

/-- How much room it takes to raise an exception and describe it. -/
def roomToRaise (w : World σ) : Nat :=
  w.machine.frames.length + 6

/-- An exception that was made for a fault can be described, and its message is the one of the fault. -/
theorem describable_raising (fault : Fault) (hown : w.machine.OwnDescriptions)
    (hnames : w.NamesAgree) (hroom : w.machine.heap.HasRoom w.roomToRaise) :
    (∃ message trace, (w.raising fault).Describable fault
      (w.machine.newException fault).1 message trace (w.machine.frames.map Frame.render) ∧
      (w.raising fault).machine.heap.Reads message fault.message) ∧
    (w.raising fault).machine.heap.HasRoom 3 := by
  have hspare : w.machine.heap.HasRoom (3 + w.machine.frames.length + 3) := by
    refine hroom.mono ?_
    unfold roomToRaise
    omega
  obtain ⟨⟨message, trace, hexception⟩, hroom'⟩ :=
    w.machine.newException_spec fault hspare
  have hmade : (w.machine.newException fault).2.OwnDescriptions :=
    hown.of_steps (w.machine.newException_steps fault)
  have hchange : w.Change AnyProbe (w.raising fault) := .raising w fault
  refine ⟨⟨message, trace, ⟨hexception, ?_, hchange.namesAgree hnames⟩, ?_⟩, hroom'⟩
  · exact ⟨hmade.shown, hmade.text, hmade.traced, hmade.joined⟩
  · exact Machine.newException_reads fault hspare hexception.slot

/-- The world in which the exception for a fault has left an operation, and is described. -/
def described (w : World σ) (fault : Fault) : World σ :=
  ((w.raising fault).restored w).withoutPending

/-- **A fault surfaces as one error**, which tells its class and its message. -/
theorem surface_raising_recounts (fault : Fault) (hown : w.machine.OwnDescriptions)
    (hnames : w.NamesAgree) (hparked : w.parked = none)
    (hroom : w.machine.heap.HasRoom w.roomToRaise) :
    ∃ lines w', (w.described fault).Recounts w' ∧
      let error := Error.exception ⟨Methods.shownAs
        ((w.raising fault).machine.moduleName fault.cls.value) fault.message, lines⟩
      Vm.surface (.ofFuel (fuel + 3)) (.raised (w.machine.newException fault).1)
        ((w.raising fault).restored w) = .ok error (w'.recorded error) := by
  obtain ⟨⟨message, trace, hraised, hsaid⟩, hspare⟩ := describable_raising fault hown hnames hroom
  have hw₁ : (w.described fault).Describable fault (w.machine.newException fault).1 message trace
      (w.machine.frames.map Frame.render) :=
    ⟨hraised.exception, ⟨hraised.own.shown, hraised.own.text, hraised.own.traced,
      hraised.own.joined⟩, hraised.names⟩
  have hne : (w.machine.newException fault).1 ≠ Value.nil := by
    intro hnil
    have hbody := Heap.body?_of_slot? hraised.exception.slot
    rw [hnil, Heap.body?_nil] at hbody
    cases hbody
  obtain ⟨lines, w₂, hreport, hrecounts⟩ := hw₁.report_run fuel hsaid hspare
  refine ⟨lines, w₂, hrecounts, ?_⟩
  have hwaiting : ((w.raising fault).restored w).parked = none := hparked
  rw [Vm.surface_apply, hwaiting]
  simp only
  refine (if_neg hne).trans ?_
  exact bind_ok_iff.mpr ⟨_, w₂, hreport, rfl⟩

/-- A fault that surfaces puts one error into the history. -/
theorem surface_raising (fault : Fault) (hown : w.machine.OwnDescriptions)
    (hnames : w.NamesAgree) (hparked : w.parked = none)
    (hroom : w.machine.heap.HasRoom w.roomToRaise) :
    ∃ error w', Vm.surface (.ofFuel (fuel + 3)) (.raised (w.machine.newException fault).1)
      ((w.raising fault).restored w) = .ok error w' ∧ w'.history = w.history.record error := by
  obtain ⟨lines, w₂, hrecounts, hsurfaced⟩ :=
    surface_raising_recounts fuel fault hown hnames hparked hroom
  refine ⟨_, _, hsurfaced, ?_⟩
  show w₂.history.record _ = _
  rw [hrecounts.history]
  rfl

end World

end EmbeddedRuby
