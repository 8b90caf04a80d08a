import EmbeddedRuby.Builtin.Run
import EmbeddedRuby.Proofs.Composed.Callbacks

/-!
# The interpreter's own methods

Each of them is composed of what the interpreter does: one lemma for each method that does more than
compute a value, and `Builtin.composed_run` for all of them together.
-/

namespace EmbeddedRuby

open Eval

namespace Methods

variable {σ : Type} {r : Reentry σ} {call : Call σ} {block : Block σ}
  {allowed : Task → Prop}

/-! ### Objects, modules and classes -/

/-- `showPlain` reads the class and makes a text. -/
theorem composed_showPlain : Composed r block allowed (showPlain call) :=
  Composed.machine.bind fun _ => .newText _

/-- `isSame` compares two words. -/
theorem composed_isSame : Composed r block allowed (isSame call) :=
  (Composed.checkArity call 1 1).bind fun _ => .pure _

/-- `isA` looks up through the classes. -/
theorem composed_isA : Composed r block allowed (isA call) :=
  (Composed.checkArity call 1 1).bind fun _ => Composed.machine.bind fun _ =>
    .ite (.pure _) (.raise _)

/-- `pathOfModule` makes a text of the module's path. -/
theorem composed_pathOfModule : Composed r block allowed (pathOfModule call) := by
  unfold pathOfModule
  refine Composed.machine.bind fun m => ?_
  split
  · exact .newText _
  · exact .pure _

/-- `notEqual` sends `==`. -/
theorem composed_notEqual : Composed r block allowed (notEqual r call) :=
  (Composed.checkArity call 1 1).bind fun _ => (Composed.sendNamed _ "==" _).bind fun _ => .pure _

/-- `respondTo` interns the name and looks for a method. -/
theorem composed_respondTo : Composed r block allowed (respondTo r call) :=
  (Composed.checkArity call 1 2).bind fun _ => (Composed.nameOf _).bind fun name =>
    (Composed.respondsTo _ name).bind fun _ => .pure _

/-- `putsOne` shows the value, or the items of an array, and prints a line for each. -/
theorem composed_putsOne (v : Value) : Composed r block allowed (putsOne r v) := by
  unfold putsOne
  refine Composed.machine.bind fun m => ?_
  split
  · refine (Composed.mapM Composed.displayText _).bind fun texts => ?_
    exact .forM (fun text => .print (asLine text)) texts
  · exact (Composed.displayText v).bind fun text => .print (asLine text)

/-- `putsAll` prints the arguments one by one. -/
theorem composed_putsAll : Composed r block allowed (putsAll r call) := by
  unfold putsAll
  have hrest : Composed r block allowed (do
      call.args.forM (putsOne r)
      return Value.nil : Eval σ Value) :=
    (Composed.forM (composed_putsOne) call.args).bind fun _ => .pure _
  exact .ite ((Composed.print "\n").bind fun _ => hrest) hrest

/-- `showAll` inspects and prints the arguments one by one. -/
theorem composed_showAll : Composed r block allowed (showAll r call) := by
  unfold showAll
  have hline : ∀ v, Composed r block allowed (do print ((← r.inspectText v) ++ "\n") : Eval σ Unit) := fun v =>
    (Composed.inspectText v).bind fun _ => .print _
  refine (Composed.forM hline call.args).bind fun _ => ?_
  split
  · exact .pure _
  · exact .pure _
  · exact .newArray _

/-- `constGet` looks for the constants of a path one by one. -/
theorem composed_constGet : Composed r block allowed (constGet r call) :=
  (Composed.checkArity call 1 2).bind fun _ => (Composed.nameOf _).bind fun name =>
    Composed.constantPath _ (pathNames name)

/-- `classVariableGet` interns the name and looks for the class variable. -/
theorem composed_classVariableGet : Composed r block allowed (classVariableGet r call) :=
  (Composed.checkArity call 1 1).bind fun _ => (Composed.nameOf _).bind fun name =>
    (Composed.intern name).bind fun id => .classVar _ id

/-- `newItems` reads the size and repeats the argument. -/
theorem composed_newItems : Composed r block allowed (newItems r call) := by
  unfold newItems
  refine (Composed.checkArity call 0 2).bind fun _ => ?_
  have hrest : ∀ size : Int, Composed r block allowed (do
      if arrayLimit ≤ size then crash "capacity overflow"
      return List.replicate size.toNat (call.arg 1) : Eval σ (List Value)) := fun size =>
    .ite ((Composed.crash _).bind fun _ => .pure _) (.pure _)
  split
  · exact (Composed.toLong _).bind hrest
  · exact (Composed.pure _).bind hrest

/-- `newPlain` makes the object and sends it `initialize`, if it has that. -/
theorem composed_newPlain : Composed r block allowed (newPlain r call) := by
  unfold newPlain
  have hplain : Body.plain.IsInstance := trivial
  refine (Composed.newInstance call.receiver hplain).bind fun object => ?_
  refine (Composed.respondsTo object "initialize").bind fun _ => .ite ?_ (.pure _)
  exact (Composed.sendNamed object "initialize" call.args).bind fun _ => .pure _

/-- `new` makes an object of the kind that the class stands for. -/
theorem composed_new : Composed r block allowed (new r call) := by
  have halloc : ∀ {body : Body}, body.IsInstance →
      Composed r block allowed (onMachine fun m => m.alloc call.receiver body : Eval σ Value) := fun hbody =>
    .newInstance call.receiver hbody
  unfold new
  refine Composed.machine.bind fun m => ?_
  split
  · exact (composed_newItems).bind fun items => halloc trivial
  · exact halloc trivial
  · refine (Composed.checkArity call 0 1).bind fun _ => ?_
    split
    · exact (Composed.displayText _).bind fun text => halloc trivial
    · exact (Composed.pure _).bind fun text => halloc trivial
  · exact (Composed.checkArity call 0 1).bind fun _ => halloc trivial
  · refine (Composed.checkArity call 0 1).bind fun _ => ?_
    exact .newModule _
  · exact .newModule _
  · exact Composed.machine.bind fun _ => .raise _
  · exact composed_newPlain

/-! ### Numbers -/

/-- `ofNumber` makes the number. -/
theorem composed_ofNumber (n : Number) : Composed r block allowed (ofNumber n : Eval σ Value) := by
  cases n with
  | int n => exact .newInteger n
  | float x => exact .newFloat x

/-- `operands` reads both numbers or refuses the argument. -/
theorem composed_operands : Composed r block allowed (operands call) := by
  unfold operands
  refine (Composed.checkArity call 1 1).bind fun _ => Composed.machine.bind fun m => ?_
  split
  · exact .pure _
  · exact .raise _

/-- `arithmetic` reads the operands, and makes the result or raises. -/
theorem composed_arithmetic (op : Arithmetic) : Composed r block allowed (arithmetic op call) := by
  unfold arithmetic
  refine composed_operands.bind fun numbers => ?_
  split
  · refine .ite (.raise _) ?_
    split
    · exact composed_ofNumber _
    · exact .raise _
  · exact composed_ofNumber _

/-- `negated` makes the number with the other sign. -/
theorem composed_negated : Composed r block allowed (negated call) := by
  unfold negated
  refine Composed.machine.bind fun m => ?_
  split
  · exact .ite (.crash _) (composed_ofNumber _)
  · exact composed_ofNumber _
  · exact .pure _

/-- `numbersEqual` reads both numbers. -/
theorem composed_numbersEqual : Composed r block allowed (numbersEqual call) := by
  unfold numbersEqual
  refine (Composed.checkArity call 1 1).bind fun _ => Composed.machine.bind fun m => ?_
  dsimp only
  split <;> exact .pure _

/-- `comparison` reads both numbers; the argument is inspected for the message if it does not
compare. -/
theorem composed_comparison (accepts : Ordering → Bool) :
    Composed r block allowed (comparison r accepts call) := by
  unfold comparison
  refine (Composed.checkArity call 1 1).bind fun _ => Composed.machine.bind fun m => ?_
  dsimp only
  split
  · exact .pure _
  · exact (Composed.inspectText _).bind fun _ => .raise _

/-- `numberText` makes the text of the number. -/
theorem composed_numberText : Composed r block allowed (numberText call) := by
  unfold numberText
  refine Composed.machine.bind fun m => ?_
  split <;> exact .newText _

/-- `numberAsFloat` makes the Float. -/
theorem composed_numberAsFloat : Composed r block allowed (numberAsFloat call) := by
  unfold numberAsFloat
  refine Composed.machine.bind fun m => ?_
  split <;> exact composed_ofNumber _

/-- `isZero` reads the number. -/
theorem composed_isZero : Composed r block allowed (isZero call) :=
  Composed.machine.bind fun _ => .pure _

/-- `timesFrom` calls the block round by round, by induction on the rounds left. -/
theorem composed_timesFrom (count : Int)
    (rounds : Nat) (index : Int) : Composed r call.block allowed (timesFrom r call count rounds index) := by
  induction rounds generalizing index with
  | zero => exact .exhausted
  | succ rounds ih =>
      unfold timesFrom
      refine .ite ?_ (.pure _)
      refine (Composed.newInteger index).bind fun current => ?_
      exact (Composed.yieldBlock rfl [current]).bind fun _ => ih (index + 1)

/-- `times` makes a target and counts inside its iteration. -/
theorem composed_times :
    Composed r call.block allowed (times r call) :=
  Composed.machine.bind fun _ => composed_timesFrom _ _ 0

/-- `floatOf` reads the Float. -/
theorem composed_floatOf : Composed r block allowed (floatOf call) :=
  Composed.machine.bind fun _ => .pure _

/-! ### Strings and symbols -/

/-- `charsOf` reads the characters. -/
theorem composed_charsOf (v : Value) : Composed r block allowed (charsOf v : Eval σ (List Char)) :=
  Composed.machine.bind fun _ => .pure _

/-- `showString` makes the quoted text. -/
theorem composed_showString : Composed r block allowed (showString call) :=
  (composed_charsOf _).bind fun _ => .newText _

/-- `stringLength` counts the characters. -/
theorem composed_stringLength : Composed r block allowed (stringLength call) :=
  (composed_charsOf _).bind fun _ => .newInteger _

/-- `joinStrings` makes the string that both give together. -/
theorem composed_joinStrings : Composed r block allowed (joinStrings call) := by
  unfold joinStrings
  refine (Composed.checkArity call 1 1).bind fun _ => Composed.machine.bind fun m => ?_
  split
  · exact .newString _
  · exact .raise _

/-- `stringsEqual` compares the bytes. -/
theorem composed_stringsEqual : Composed r block allowed (stringsEqual call) := by
  unfold stringsEqual
  refine (Composed.checkArity call 1 1).bind fun _ => Composed.machine.bind fun m => ?_
  dsimp only
  split <;> exact .pure _

/-- `stringAsInteger` makes the Integer that the text is read as. -/
theorem composed_stringAsInteger : Composed r block allowed (stringAsInteger call) :=
  (composed_charsOf _).bind fun _ => .newInteger _

/-- `stringAsFloat` makes the Float that the text is read as. -/
theorem composed_stringAsFloat : Composed r block allowed (stringAsFloat call) :=
  (composed_charsOf _).bind fun _ => .newFloat _

/-- `stringAsSymbol` interns the text. -/
theorem composed_stringAsSymbol : Composed r block allowed (stringAsSymbol call) :=
  (Composed.textOf _).bind fun text => (Composed.intern text).bind fun _ => .pure _

/-- `symbolName` reads the name. -/
theorem composed_symbolName (v : Value) : Composed r block allowed (symbolName v : Eval σ String) := by
  unfold symbolName
  split
  · exact Composed.machine.bind fun _ => .pure _
  · exact .pure _

/-- `symbolText` makes the text of the name. -/
theorem composed_symbolText : Composed r block allowed (symbolText call) :=
  (composed_symbolName _).bind fun name => .newText name

/-- `showSymbol` makes the text of the name, quoted where it must be. -/
theorem composed_showSymbol : Composed r block allowed (showSymbol call) :=
  (composed_symbolName _).bind fun _ => .newText _

/-! ### Arrays, hashes, procs and exceptions -/

/-- `item?` reads one item. -/
theorem composed_item? (v : Value) (index : Nat) :
    Composed r block allowed (item? v index : Eval σ (Option Value)) :=
  Composed.machine.bind fun _ => .pure _

/-- `itemsOf` reads all items. -/
theorem composed_itemsOf (v : Value) : Composed r block allowed (itemsOf v : Eval σ (List Value)) :=
  Composed.machine.bind fun _ => .pure _

/-- `pairsOf` reads all pairs. -/
theorem composed_pairsOf (v : Value) : Composed r block allowed (pairsOf v : Eval σ (List (Value × Value))) :=
  Composed.machine.bind fun _ => .pure _

/-- `eachFrom` calls the block on the items that are there by then, by induction on the rounds left.
-/
theorem composed_eachFrom (rounds index : Nat)
    (results : List Value) : Composed r call.block allowed (eachFrom r call rounds index results) := by
  induction rounds generalizing index results with
  | zero => exact .exhausted
  | succ rounds ih =>
      unfold eachFrom
      refine (composed_item? _ index).bind fun item => ?_
      split
      · exact .pure _
      · exact (Composed.yieldBlock rfl _).bind fun result => ih (index + 1) (result :: results)

/-- `each` goes over the items inside an iteration of its own. -/
theorem composed_each : Composed r call.block allowed (each r call) :=
  (composed_eachFrom _ 0 []).bind fun _ => .pure _

/-- `map` does so as well, and makes an array of what the block gives. -/
theorem composed_map : Composed r call.block allowed (map r call) :=
  (composed_eachFrom _ 0 []).bind fun results => .newArray results

/-- `push` adds the arguments to the array. -/
theorem composed_push : Composed r block allowed (push call) :=
  (Composed.changeMachine fun m => .pushItems m _ _).bind fun _ => .pure _

/-- `itemAtArg` reads the index and picks the item. -/
theorem composed_itemAtArg : Composed r block allowed (itemAtArg r call) :=
  (Composed.checkArity call 1 1).bind fun _ => (Composed.toLong _).bind fun _ =>
    (composed_itemsOf _).bind fun _ => .pure _

/-- `joinItems` shows the items, and joins those that are arrays, by induction on the depth left. -/
theorem composed_joinItems (separator : String) (depth : Nat) (array : Value) :
    Composed r block allowed (joinItems r separator depth array) := by
  induction depth generalizing array with
  | zero => exact .exhausted
  | succ depth ih =>
      unfold joinItems
      refine (composed_itemsOf array).bind fun items => ?_
      refine (Composed.mapM (fun item => ?_) items).bind fun texts => .pure _
      exact Composed.machine.bind fun m => .ite (ih item) (Composed.displayText item)

/-- `join` makes the text of the joined items. -/
theorem composed_join : Composed r block allowed (join r call) := by
  have hrest : ∀ separator, Composed r block allowed (do
      newText (← joinItems r separator r.rounds call.receiver) : Eval σ Value) := fun separator =>
    (composed_joinItems separator _ _).bind fun text => .newText text
  unfold join
  refine (Composed.checkArity call 0 1).bind fun _ => ?_
  split
  · exact (Composed.displayText _).bind hrest
  · exact (Composed.pure _).bind hrest

/-- `showArray` inspects the items and makes the text. -/
theorem composed_showArray : Composed r block allowed (showArray r call) :=
  (composed_itemsOf _).bind fun items => (Composed.mapM Composed.inspectText items).bind fun _ =>
    .newText _

/-- `hashGet` looks the key up. -/
theorem composed_hashGet : Composed r block allowed (hashGet call) :=
  (Composed.checkArity call 1 1).bind fun _ => Composed.machine.bind fun _ => .pure _

/-- `hashSet` stores the pair it is given. -/
theorem composed_hashSet : Composed r block allowed (hashSet call) :=
  (Composed.checkArity call 2 2).bind fun _ => (Composed.storeInHash _ _ _).bind fun _ => .pure _

/-- `hashKeys` makes an array of the keys. -/
theorem composed_hashKeys : Composed r block allowed (hashKeys call) :=
  (composed_pairsOf _).bind fun _ => .newArray _

/-- `showPair` inspects the key and the value. -/
theorem composed_showPair (pair : Value × Value) :
    Composed r block allowed (showPair r pair) := by
  have harrow : ∀ value : String, Composed r block allowed (do
      return (← r.inspectText pair.1) ++ " => " ++ value : Eval σ String) := fun value =>
    (Composed.inspectText pair.1).bind fun _ => .pure _
  unfold showPair
  refine (Composed.inspectText pair.2).bind fun value => Composed.machine.bind fun m => ?_
  dsimp only
  split
  · exact .ite (.pure _) (harrow value)
  · exact harrow value

/-- `showHash` inspects the pairs and makes the text. -/
theorem composed_showHash : Composed r block allowed (showHash r call) :=
  (composed_pairsOf _).bind fun pairs => (Composed.mapM (composed_showPair) pairs).bind fun _ =>
    .newText _

/-- `callReceiver` calls the proc, with the block's proc if there is one. -/
theorem composed_callReceiver : Composed r block allowed (callReceiver r call) :=
  .callProc _ _ _

/-- `exceptionText` shows the message, or makes a text of the class's name. -/
theorem composed_exceptionText : Composed r block allowed (exceptionText r call) :=
  Composed.machine.bind fun _ =>
    .ite (.newText _) (.ite (.pure _) (Composed.sendNamed _ "to_s" []))

/-- `showException` sends `to_s` and puts the class before it. -/
theorem composed_showException : Composed r block allowed (showException r call) :=
  Composed.machine.bind fun _ => (Composed.sendNamed _ "to_s" []).bind fun text =>
    (Composed.textOf text).bind fun _ => .ite (.newText _) (.newText _)

end Methods

namespace Builtin

open Methods

variable {σ : Type} {r : Reentry σ} {allowed : Task → Prop}

/-- Each of the interpreter's own methods follows a course. -/
theorem composed_run (b : Builtin) {call : Call σ}
    : Composed r call.block allowed (b.run r call) := by
  have hvalue : ∀ f : Machine → Value, Composed r call.block allowed (do return f (← machine) : Eval σ Value) :=
    fun f => Composed.machine.bind fun _ => .pure _
  cases b with
  | objectIsNil | nilToI | nilIsNil | integerToI | stringToS | symbolToSym | procToProc
  | procIsLambda => exact .pure _
  | nilToS | nilInspect | trueToS | falseToS => exact .newText _
  | objectClass => exact hvalue fun m => m.heap.classOf call.receiver
  | objectInspect => exact composed_showPlain
  | objectEqual => exact composed_isSame
  | objectNotEqual => exact composed_notEqual
  | objectIsA => exact composed_isA
  | objectRespondTo => exact composed_respondTo
  | puts => exact composed_putsAll
  | p => exact composed_showAll
  | moduleName => exact composed_pathOfModule
  | moduleToS => exact Composed.machine.bind fun _ => .newText _
  | moduleCaseEqual =>
      exact (Composed.checkArity call 1 1).bind fun _ => Composed.machine.bind fun _ => .pure _
  | moduleConstGet => exact composed_constGet
  | moduleClassVariableGet => exact composed_classVariableGet
  | classNew => exact composed_new
  | classSuperclass => exact Composed.machine.bind fun _ => .pure _
  | nilToA => exact .newArray []
  | nilToF => exact composed_ofNumber (.float (Double.zero false))
  | add | sub | mul | div | mod => exact composed_arithmetic _
  | negate => exact composed_negated
  | numberEqual => exact composed_numbersEqual
  | less | greater | lessEqual | greaterEqual => exact composed_comparison _
  | numberToS => exact composed_numberText
  | numberToF => exact composed_numberAsFloat
  | numberIsZero => exact composed_isZero
  | integerTimes => exact composed_times
  | floatToI => exact composed_floatOf.bind fun x => Composed.integerPart x
  | floatIsNan => exact composed_floatOf.bind fun _ => .pure _
  | stringInspect => exact composed_showString
  | stringLength => exact composed_stringLength
  | stringPlus => exact composed_joinStrings
  | stringEqual => exact composed_stringsEqual
  | stringToI => exact composed_stringAsInteger
  | stringToF => exact composed_stringAsFloat
  | stringToSym => exact composed_stringAsSymbol
  | symbolToS => exact composed_symbolText
  | symbolInspect => exact composed_showSymbol
  | arrayEach => exact composed_each
  | arrayMap => exact composed_map
  | arrayPush => exact composed_push
  | arrayLength | arrayLast => exact (composed_itemsOf _).bind fun _ => .pure _
  | arrayFirst => exact (composed_item? _ 0).bind fun _ => .pure _
  | arrayAt => exact composed_itemAtArg
  | arrayJoin => exact composed_join
  | arrayInspect => exact composed_showArray
  | hashGet => exact composed_hashGet
  | hashSet => exact composed_hashSet
  | hashLength => exact (composed_pairsOf _).bind fun _ => .pure _
  | hashKeys => exact composed_hashKeys
  | hashInspect => exact composed_showHash
  | procCall => exact composed_callReceiver
  | exceptionMessage => exact Composed.sendNamed _ "to_s" []
  | exceptionToS => exact composed_exceptionText
  | exceptionInspect => exact composed_showException
  | exceptionBacktrace => exact Composed.machine.bind fun _ => .pure _

end Builtin

end EmbeddedRuby
