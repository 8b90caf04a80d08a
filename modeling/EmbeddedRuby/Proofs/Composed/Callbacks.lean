import EmbeddedRuby.Proofs.Composed.Basic

/-!
# Calls and conversions

Calls by name, texts of objects, constants and the conversions between objects and numbers, each
composed of what the interpreter does.
-/

namespace EmbeddedRuby.Eval.Composed

open Eval Reentry

variable {σ : Type} {r : Reentry σ} {block : Block σ} {allowed : Task → Prop}

/-- A value is read off the machine. -/
theorem look {α : Type} (f : Machine → α) :
    Composed r block allowed (do return f (← Eval.machine) : Eval σ α) :=
  Composed.machine.bind fun _ => .pure _

/-- The text of a string is read off the machine. -/
theorem textOf (v : Value) : Composed r block allowed (Eval.textOf v) :=
  .look _

/-- The bytes of a string are read off the machine, and an object that is no string raises. -/
theorem bytesOf (v : Value) : Composed r block allowed (Eval.bytesOf v) := by
  unfold Eval.bytesOf
  refine Composed.machine.bind fun m => ?_
  split
  · exact .pure _
  · exact .raise _

/-- A pair is stored if there is a hash to store it in. -/
theorem storeInHash (hash key value : Value) :
    Composed r block allowed (Eval.storeInHash hash key value) := by
  unfold Eval.storeInHash
  refine Composed.machine.bind fun m => .ite ?_ (.raise _)
  exact .changeMachine fun m => .storeInHash m hash key value

/-- A class variable is read off the machine, or its absence raises. -/
theorem classVar (cls : Value) (id : SymbolId) :
    Composed r block allowed (Eval.classVar cls id) := by
  unfold Eval.classVar
  refine Composed.machine.bind fun m => ?_
  split
  · exact .pure _
  · exact .ite (.raise _) (.raise _)

/-- The name is given a number, by which the method is looked for. -/
theorem respondsTo (receiver : Value) (name : String) :
    Composed r block allowed (Eval.respondsTo receiver name) :=
  (Composed.intern name).bind fun _ => .look _

/-- The number of arguments is compared, and raises if it is not right. -/
theorem checkArity (call : Call σ) (least most : Nat) :
    Composed r block allowed (Eval.checkArity call least most) := by
  unfold Eval.checkArity
  exact .ite (.raise _) (.pure _)

/-! ### Calls by name -/

/-- A call by name interns the name and calls the method. -/
theorem sendNamed (receiver : Value) (name : String) (args : List Value) :
    Composed r block allowed (r.sendNamed receiver name args) :=
  (Composed.intern name).bind fun _ => .send rfl

/-- Inspecting is a call by name, and reading the text of what it gives. -/
theorem inspectText (v : Value) : Composed r block allowed (r.inspectText v) :=
  (sendNamed v "inspect" []).bind fun shown => .textOf shown

/-- Displaying is a call by name, and reading the text of what it gives. -/
theorem displayText (v : Value) : Composed r block allowed (r.displayText v) := by
  unfold Reentry.displayText
  refine Composed.machine.bind fun m => .ite (.textOf v) ?_
  exact (sendNamed v "to_s" []).bind fun shown => .textOf shown

/-- A string is taken as it is; anything else is asked for `to_s`. -/
theorem stringOf (v : Value) : Composed r block allowed (r.stringOf v) := by
  unfold Reentry.stringOf
  refine Composed.machine.bind fun m => .ite (.pure v) ?_
  refine (sendNamed v "to_s" []).bind fun converted => Composed.machine.bind fun m => ?_
  exact .ite (.pure converted) (.raise _)

/-- Inspecting as a string is a call by name, with `to_s` behind it if it gives no string. -/
theorem inspectString (v : Value) : Composed r block allowed (r.inspectString v) :=
  (sendNamed v "inspect" []).bind fun shown => stringOf shown

/-- A name is read off a symbol or a string, and anything else raises after it was inspected. -/
theorem nameOf (v : Value) : Composed r block allowed (r.nameOf v) := by
  unfold Reentry.nameOf
  refine Composed.machine.bind fun m => ?_
  split
  · exact .pure _
  · split
    · exact .pure _
    · exact (inspectText v).bind fun _ => .raise _

/-- A constant is read off the machine, or an exception says why there is none. -/
theorem constant (module : Value) (id : SymbolId) (only : Bool) :
    Composed r block allowed (r.constant module id only) := by
  unfold Reentry.constant
  refine Composed.machine.bind fun m => .ite ?_ (.ite ?_ (.raise _))
  · exact (inspectText module).bind fun _ => .raise _
  · split
    · exact .pure _
    · exact .raise _

/-- A path takes its constants one in the other, by induction over the names. -/
theorem constantPath (module : Value) (path : List String) :
    Composed r block allowed (r.constantPath module path) := by
  induction path generalizing module with
  | nil => exact .pure module
  | cons name rest ih =>
      exact (Composed.intern name).bind fun id => (constant module id false).bind ih

/-! ### Conversions -/

/-- A Float that has an integer part is made an Integer. -/
theorem integerPart (x : Double) : Composed r block allowed (Reentry.integerPart x) := by
  unfold Reentry.integerPart
  split
  · exact .newInteger _
  · exact .raise _

/-- The methods are looked for one by one, by induction over their names. -/
theorem firstMethod? (v : Value) (methods : List String) :
    Composed r block allowed (Reentry.firstMethod? v methods) := by
  induction methods with
  | nil => exact .pure none
  | cons name rest ih => exact (respondsTo v name).bind fun _ => .ite (.pure _) ih

/-- The first method that the object has is called, and what it gives is checked. -/
theorem convertBy (v : Value) (methods : List String) (target : String)
    (accepts : ValueType → Bool) :
    Composed r block allowed (r.convertBy v methods target accepts) := by
  unfold Reentry.convertBy
  refine Composed.machine.bind fun m => (firstMethod? v methods).bind fun method => ?_
  split
  · exact .raise _
  · refine (sendNamed v _ []).bind fun converted => Composed.machine.bind fun m => ?_
    exact .ite (.pure converted) (.raise _)

/-- Numbers and texts are read, and other objects are converted by their methods. -/
theorem toInteger (v : Value) : Composed r block allowed (r.toInteger v) := by
  unfold Reentry.toInteger
  refine Composed.machine.bind fun m => ?_
  split
  · exact .pure v
  · exact .pure v
  · exact integerPart _
  · dsimp only
    split
    · exact .newInteger _
    · exact .raise _
  · exact .raise _
  · exact convertBy v _ _ _

/-- A Float is read off a number or a text, and other objects are converted by their method. -/
theorem toFloat (v : Value) : Composed r block allowed (r.toFloat v) := by
  unfold Reentry.toFloat
  refine Composed.machine.bind fun m => ?_
  split
  · exact .pure v
  · exact .works fun m => .float m _
  · exact .works fun m => .float m _
  · dsimp only
    split
    · exact .newFloat _
    · exact .raise _
  · exact .raise _
  · exact .raise _
  · exact .raise _
  · exact convertBy v _ _ _

/-- The object is named in the message. -/
theorem refuseInteger {α : Type} (v : Value) :
    Composed r block allowed (Reentry.refuseInteger v : Eval σ α) :=
  Composed.machine.bind fun _ => .ite (.raise _) (.raise _)

/-- An object that is no number is asked for `to_int`, if it has it. -/
theorem numberOf (v : Value) : Composed r block allowed (r.numberOf v) := by
  have hrefuse : Composed r block allowed (Reentry.refuseInteger v : Eval σ (Int ⊕ Double)) :=
    refuseInteger v
  unfold Reentry.numberOf
  refine Composed.machine.bind fun m => ?_
  split
  · exact .pure _
  · exact .pure _
  · split
    · exact hrefuse
    · exact hrefuse
    · exact hrefuse
    · refine (respondsTo v "to_int").bind fun _ => .ite ?_ hrefuse
      refine (sendNamed v "to_int" []).bind fun converted => Composed.machine.bind fun m => ?_
      split
      · exact .pure _
      · exact hrefuse

/-- The number is checked against the range of the type. -/
theorem toLong (v : Value) : Composed r block allowed (r.toLong v) := by
  unfold Reentry.toLong
  refine (numberOf v).bind fun number => ?_
  split
  · exact .ite (.pure _) (.raise _)
  · split
    · exact .ite (.pure _) (.raise _)
    · exact .raise _

/-- The number is checked against the range of the type without sign. -/
theorem toUnsignedLong (v : Value) : Composed r block allowed (r.toUnsignedLong v) := by
  unfold Reentry.toUnsignedLong
  refine (numberOf v).bind fun number => ?_
  split
  · exact .ite (.pure _) (.raise _)
  · split
    · exact .ite (.pure _) (.raise _)
    · exact .raise _

/-- A double is read off a number, and raises for anything else. -/
theorem toDouble (v : Value) : Composed r block allowed (Reentry.toDouble v) := by
  unfold Reentry.toDouble
  refine Composed.machine.bind fun m => ?_
  split
  · exact .pure _
  · exact .pure _
  · split <;> exact .raise _

/-- Conversions are tried round by round, by induction on the rounds left. -/
theorem coerce (rounds : Nat) (v : Value) : Composed r block allowed (r.coerce rounds v) := by
  induction rounds generalizing v with
  | zero => exact .exhausted
  | succ rounds ih =>
      unfold Reentry.coerce
      refine Composed.machine.bind fun m => ?_
      split
      · exact .pure v
      · exact .pure v
      · exact .pure v
      · exact .pure v
      · exact (toInteger v).bind ih

/-- An object is coerced before it is read without sign. -/
theorem toUnsigned (v : Value) : Composed r block allowed (r.toUnsigned v) :=
  (coerce r.rounds v).bind fun number => Composed.machine.bind fun _ =>
    .ite (.raise _) (toUnsignedLong number)

end EmbeddedRuby.Eval.Composed
