import EmbeddedRuby.Proofs.Growth
import EmbeddedRuby.Proofs.WrittenLiterals

/-!
# Objects that hold a literal

What the loader makes of a literal is a tree of objects (`Machine.Holds`).  Strings and numbers stay
what they are, and so do arrays unless somebody changes them; so an object holds its literal at
every later moment at which the arrays have the items that they had
(`World.Reaches.holdsLiteral`).

The main statement is `Loader.evaluate_holds`, by induction on the literal: evaluating it gives an
object that holds it, as long as there is room for the objects and the names.
-/

namespace EmbeddedRuby

open Eval

/-! ### Room for names -/

namespace SymbolTable

variable {t : SymbolTable} {name : String} {id : SymbolId} {count : Nat}

/-- So many more names have words of their own. -/
def HasRoom (t : SymbolTable) (count : Nat) : Prop :=
  t.names.size + count < 0x100000000000000

instance (t : SymbolTable) (count : Nat) : Decidable (t.HasRoom count) := by
  unfold HasRoom
  infer_instance

/-- The number of a name is one of those that were given. -/
theorem number_le_of_find? (h : t.find? name = some id) : id.number ≤ t.names.size := by
  unfold find? at h
  obtain ⟨index, hindex, rfl⟩ := Option.map_eq_some_iff.mp h
  exact (List.findIdx?_eq_some_iff_getElem.mp hindex).1

/-- A name takes the room of one at most. -/
theorem HasRoom.intern (hroom : t.HasRoom (count + 1)) (name : String) :
    (t.intern name).2.HasRoom count := by
  unfold HasRoom at hroom ⊢
  unfold SymbolTable.intern
  cases t.find? name with
  | some id => exact Nat.lt_of_succ_lt hroom
  | none =>
      rw [Array.size_push]
      omega

/-- A name that is given a number is told by its word. -/
theorem HasRoom.symbol?_intern (hroom : t.HasRoom (count + 1)) (name : String) :
    (Value.ofSymbol (t.intern name).1).symbol? = some (t.intern name).1 := by
  have hfound := number_le_of_find? (t.find?_intern_self name)
  have hsize := hroom.intern name
  unfold HasRoom at hsize
  exact Value.symbol?_ofSymbol (by omega)

end SymbolTable

/-! ### What is made beside what is there -/

/-- The arrays have the items that they had. -/
def Heap.KeepsArrays (h h' : Heap) : Prop :=
  ∀ v items, h.items? v = some items → h'.items? v = some items

/-- A new object changes no array. -/
theorem Heap.KeepsArrays.alloc (h : Heap) (cls : Value) (body : Body) :
    h.KeepsArrays (h.alloc cls body).2 := by
  intro v items hitems
  unfold Heap.items?
  rw [Heap.body?_alloc_of_some (Heap.body?_of_items? hitems) cls body]

/-- The interpreter takes steps that leave the arrays alone. -/
structure Machine.Makes (m m' : Machine) : Prop where
  steps : m.Steps m'
  arrays : m.heap.KeepsArrays m'.heap

namespace Machine.Makes

variable {m m₁ m₂ : Machine}

/-- Making nothing leaves the arrays alone. -/
theorem refl (m : Machine) : m.Makes m :=
  ⟨.refl, fun _ _ h => h⟩

/-- What is made twice is made, and the arrays are kept over both. -/
theorem trans (h₁ : m.Makes m₁) (h₂ : m₁.Makes m₂) : m.Makes m₂ :=
  ⟨h₁.steps.trans h₂.steps, fun v items h => h₂.arrays v items (h₁.arrays v items h)⟩

/-- Making a text leaves the arrays alone. -/
theorem text (m : Machine) (text : String) : m.Makes (m.newText text).2 :=
  ⟨.single (.string m _), .alloc _ _ _⟩

/-- Making another array leaves the arrays alone. -/
theorem array (m : Machine) (items : List Value) : m.Makes (m.newArray items).2 :=
  ⟨.single (.array m items), .alloc _ _ _⟩

/-- Making an Integer leaves the arrays alone. -/
theorem integer (m : Machine) (n : Int) : m.Makes (m.newInteger n).2 := by
  refine ⟨.single (.integer m n), ?_⟩
  unfold Machine.newInteger Heap.ofInteger
  by_cases hfits : fixnumMin ≤ n ∧ n ≤ fixnumMax
  · rw [if_pos hfits]
    exact fun _ _ h => h
  · rw [if_neg hfits]
    exact .alloc _ _ _

/-- Giving a name a number leaves the arrays alone. -/
theorem name (m : Machine) (name : String) : m.Makes (m.intern name).2 :=
  ⟨.single (.intern m name), fun _ _ h => h⟩

end Machine.Makes

/-! ### What an object holds -/

/-- The object is what the literal says. -/
inductive Machine.Holds (m : Machine) : Value → Literal → Prop
  | nil : m.Holds Value.nil .nil
  | true : m.Holds (Value.ofBool true) .true
  | false : m.Holds (Value.ofBool false) .false
  | fixnum {v : Value} {n : Int} (hn : v.fixnum? = some n) : m.Holds v (.int n)
  | bignum {v : Value} {n : Int}
      (hslot : m.heap.slot? v = some ⟨CoreClass.integer.value, .bignum n⟩) : m.Holds v (.int n)
  | string {v : Value} {text : List Char}
      (hslot : m.heap.slot? v = some ⟨CoreClass.string.value, .string (Utf8.encode text)⟩) :
      m.Holds v (.string text)
  | symbol {v : Value} {name : List Char} {id : SymbolId} (hid : v.symbol? = some id)
      (hname : m.symbols.find? (String.ofList name) = some id) : m.Holds v (.symbol name)
  | array {v : Value} {values : List Value} {items : List Literal}
      (hslot : m.heap.slot? v = some ⟨CoreClass.array.value, .array values⟩)
      (hlength : values.length = items.length)
      (hitems : ∀ pair ∈ values.zip items, m.Holds pair.1 pair.2) : m.Holds v (.array items)

/-- **An object goes on holding its literal** as long as the arrays are kept. -/
theorem Machine.Holds.of_evolves {m m' : Machine} {v : Value} {lit : Literal} (h : m.Holds v lit)
    (hevolves : m.heap.Evolves m'.heap)
    (hnames : ∀ name id, m.symbols.find? name = some id → m'.symbols.find? name = some id)
    (harrays : m.heap.KeepsArrays m'.heap) : m'.Holds v lit := by
  induction h with
  | nil => exact .nil
  | true => exact .true
  | false => exact .false
  | fixnum hn => exact .fixnum hn
  | bignum hslot =>
      obtain ⟨⟨cls, body⟩, hslot', rfl, hbecomes⟩ := hevolves.slot? hslot
      cases hbecomes
      exact .bignum hslot'
  | string hslot =>
      obtain ⟨⟨cls, body⟩, hslot', rfl, hbecomes⟩ := hevolves.slot? hslot
      cases hbecomes
      exact .string hslot'
  | symbol hid hname => exact .symbol hid (hnames _ _ hname)
  | @array v values items hslot hlength hitems ih =>
      obtain ⟨⟨cls, body⟩, hslot', rfl, -⟩ := hevolves.slot? hslot
      have hkept : m'.heap.items? v = some values := by
        apply harrays
        unfold Heap.items?
        rw [Heap.body?_of_slot? hslot]
      have hbody := Heap.body?_of_items? hkept
      rw [Heap.body?_of_slot? hslot'] at hbody
      obtain rfl : body = .array values := Option.some.inj hbody
      exact .array hslot' hlength ih

/-- An object goes on holding its literal while other things are made. -/
theorem Machine.Holds.of_makes {m m' : Machine} {v : Value} {lit : Literal} (h : m.Holds v lit)
    (hmakes : m.Makes m') : m'.Holds v lit :=
  h.of_evolves (Steps.evolves hmakes.steps) (fun _ _ => Steps.find?_kept hmakes.steps) hmakes.arrays

/-- A new integer holds the number it was made of. -/
theorem Machine.newInteger_holds {m : Machine} (hroom : m.heap.Addressable) (n : Int) :
    (m.newInteger n).2.Holds (m.newInteger n).1 (.int n) := by
  unfold Machine.newInteger Heap.ofInteger
  by_cases hfits : fixnumMin ≤ n ∧ n ≤ fixnumMax
  · rw [if_pos hfits]
    exact .fixnum (Value.fixnum?_ofFixnum hfits.1 hfits.2)
  · rw [if_neg hfits]
    exact .bignum (Heap.slot?_alloc hroom _ _)

/-- A new text is there with the characters it was made of. -/
theorem Machine.slot?_newText {m : Machine} (hroom : m.heap.Addressable) (text : List Char) :
    (m.newText (String.ofList text)).2.heap.slot? (m.newText (String.ofList text)).1 =
      some ⟨CoreClass.string.value, .string (Utf8.encode text)⟩ := by
  have hbytes : Utf8.encodeString (String.ofList text) = Utf8.encode text :=
    congrArg Utf8.encode String.toList_ofList
  unfold Machine.newText
  rw [hbytes]
  exact Heap.slot?_alloc hroom _ _

/-- At every later moment at which the arrays have the items that they had, an object holds the
literal that it held. -/
theorem World.Reaches.holdsLiteral {σ : Type} {P : Probe → Prop} {w u : World σ} {v : Value}
    {lit : Literal} (hreached : w.Reaches P u)
    (harrays : w.machine.heap.KeepsArrays u.machine.heap) (h : w.machine.Holds v lit) :
    u.machine.Holds v lit := by
  refine h.of_evolves hreached.evolves (fun name id hname => ?_) harrays
  let Kept : World σ → Prop := fun u => u.machine.symbols.find? name = some id
  have hstep : ∀ {u u' : World σ}, u.Change P u' → Kept u → Kept u' :=
    fun hchange hu => hchange.find?_kept hu
  exact hreached.kept hstep hname

/-! ### What a literal is evaluated to -/

namespace Literal

mutual

/-- How many objects and names a literal takes at most. -/
def size : Literal → Nat
  | .array items => sizes items + 1
  | _ => 1

/-- How many objects and names the items of an array take at most. -/
def sizes : List Literal → Nat
  | [] => 0
  | item :: rest => size item + sizes rest

end

end Literal

/-- There is room for so many more objects and names. -/
structure Machine.HasRoom (m : Machine) (count : Nat) : Prop where
  heap : m.heap.HasRoom count
  symbols : m.symbols.HasRoom count

/-- Where there is room for some objects and names there is room for fewer. -/
theorem Machine.HasRoom.mono {m : Machine} {count fewer : Nat} (hroom : m.HasRoom count)
    (hle : fewer ≤ count) : m.HasRoom fewer where
  heap := hroom.heap.mono hle
  symbols := by
    have hsymbols := hroom.symbols
    unfold SymbolTable.HasRoom at hsymbols ⊢
    omega

namespace Loader

variable {σ : Type} (r : Reentry σ) (b : Bodies)

/-- Evaluating gives an object that holds the literal, and leaves the rest of the room. -/
def Evaluates (lit : Literal) : Prop :=
  ∀ (w : World σ) (count : Nat), w.machine.HasRoom (count + lit.size) →
    ∃ v m, evaluate r b lit w = .ok v { w with machine := m } ∧ m.Holds v lit ∧
      w.machine.Makes m ∧ m.HasRoom count

variable {r b}

/-- Literals that are evaluated are evaluated one after the other, and what the first ones hold is
held by them still at the end. -/
theorem evaluateAll_holds {items : List Literal} (hitems : ∀ item ∈ items, Evaluates r b item)
    (w : World σ) (count : Nat) (hroom : w.machine.HasRoom (count + Literal.sizes items)) :
    ∃ values m, evaluateAll r b items w = .ok values { w with machine := m } ∧
      values.length = items.length ∧ (∀ pair ∈ values.zip items, m.Holds pair.1 pair.2) ∧
      w.machine.Makes m ∧ m.HasRoom count := by
  induction items generalizing w with
  | nil =>
      refine ⟨[], w.machine, ?_, rfl, by simp, .refl _, hroom⟩
      rw [evaluateAll, pure_apply]
  | cons item rest ih =>
      rw [Literal.sizes, Nat.add_comm item.size, ← Nat.add_assoc] at hroom
      obtain ⟨v, m₁, hfirst, hholds, hmakes₁, hroom₁⟩ :=
        hitems item List.mem_cons_self w (count + Literal.sizes rest) hroom
      obtain ⟨values, m₂, hrest, hlength, hall, hmakes₂, hroom₂⟩ :=
        ih (fun other hother => hitems other (List.mem_cons_of_mem item hother))
          { w with machine := m₁ } hroom₁
      refine ⟨v :: values, m₂, ?_, congrArg Nat.succ hlength, ?_, hmakes₁.trans hmakes₂, hroom₂⟩
      · rw [evaluateAll, bind_apply, hfirst]
        simp only
        rw [bind_apply, hrest]
        rfl
      · intro pair hpair
        rcases List.mem_cons.mp hpair with rfl | hmem
        · exact hholds.of_makes hmakes₂
        · exact hall pair hmem

/-- **A literal is evaluated to an object that holds it**, by induction on the literal. -/
theorem evaluate_holds {lit : Literal} (h : lit.Readable) : Evaluates r b lit := by
  induction h with
  | nil => exact fun w count hroom => ⟨_, w.machine, rfl, .nil, .refl _, hroom.mono (by omega)⟩
  | true => exact fun w count hroom => ⟨_, w.machine, rfl, .true, .refl _, hroom.mono (by omega)⟩
  | false => exact fun w count hroom => ⟨_, w.machine, rfl, .false, .refl _, hroom.mono (by omega)⟩
  | @int n hn =>
      intro w count hroom
      refine ⟨_, (w.machine.newInteger n).2, rfl, ?_, .integer _ n, ?_⟩
      · exact Machine.newInteger_holds hroom.heap.addressable n
      · exact ⟨hroom.heap.ofInteger n, (hroom.mono (Nat.le_add_right count 1)).symbols⟩
  | @string text htext =>
      intro w count hroom
      refine ⟨_, (w.machine.newText (String.ofList text)).2, rfl, ?_, .text _ _, ?_⟩
      · exact .string (Machine.slot?_newText hroom.heap.addressable text)
      · exact ⟨hroom.heap.alloc _ _, (hroom.mono (Nat.le_add_right count 1)).symbols⟩
  | @symbol name hname hequals =>
      intro w count hroom
      refine ⟨_, (w.machine.intern (String.ofList name)).2, rfl, ?_, .name _ _, ?_⟩
      · exact .symbol (hroom.symbols.symbol?_intern _) (SymbolTable.find?_intern_self _ _)
      · exact ⟨hroom.heap.mono (Nat.le_add_right count 1), hroom.symbols.intern _⟩
  | @array items hitems ih =>
      intro w count hroom
      have hall : w.machine.HasRoom (count + 1 + Literal.sizes items) :=
        hroom.mono (by simp only [Literal.size]; omega)
      obtain ⟨values, m, hvalues, hlength, hheld, hmakes, hleft⟩ :=
        evaluateAll_holds ih w (count + 1) hall
      have hmade := Machine.Makes.array m values
      refine ⟨(m.newArray values).1, (m.newArray values).2, ?_, ?_, hmakes.trans hmade, ?_⟩
      · rw [evaluate, bind_apply, hvalues]
        rfl
      · exact .array (Heap.slot?_alloc hleft.heap.addressable _ _) hlength
          fun pair hpair => (hheld pair hpair).of_makes hmade
      · exact ⟨hleft.heap.alloc _ _, (hleft.mono (Nat.le_add_right count 1)).symbols⟩

end Loader

end EmbeddedRuby
