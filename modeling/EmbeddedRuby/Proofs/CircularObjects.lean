import EmbeddedRuby.Proofs.HashKeys
import EmbeddedRuby.Proofs.ShownObjects

/-!
# Objects that cannot be shown

An object that is not grounded has a part that is not.  If the interpreter's own methods show the
object and all that it leads to (`Machine.Presentable`), then nothing raises on the way, so that the
part is asked, and by induction on the bound on nested calls the bound is reached
(`stuck_of_not_grounded`).  The same holds of joining an array (`Methods.joinItems_exhausts`).

The main statement is `World.showing_ends_iff`: which objects can be shown, and by what an
interpreter in which all can be shown comes to one in which some cannot.
-/

namespace EmbeddedRuby

open Eval

/-- The method by which an object with these contents shows its parts. -/
def Body.form? : Body → String → Option Builtin
  | .array _, _ => some .arrayInspect
  | .hash _, _ => some .hashInspect
  | .exception .., name => some (if name = "inspect" then .exceptionInspect else .exceptionToS)
  | .float _, _ | .bignum _, _ | .string _, _ | .ofModule _, _ | .plain, _ | .proc _, _ => none

/-- What has parts has a method that shows them. -/
theorem Body.exists_form {b : Body} {part : Value} (hpart : part ∈ b.parts) (name : String) :
    ∃ form, b.form? name = some form := by
  cases b with
  | array | hash | exception => exact ⟨_, rfl⟩
  | float | bignum | string | ofModule | plain | proc => cases hpart

/-- The object is there and can be shown by the interpreter's own methods, and if it has parts by
the methods for these. -/
structure Machine.Presentable (m : Machine) (v : Value) : Prop where
  there : v.slot? = none ∨ (m.heap.slot? v).isSome = true
  answers : ∀ name ∈ showingNames, ∃ c b, (c, name, b) ∈ ownMethods ∧
    m.Answers (m.heap.classOf v) name b ∧
      ∀ contents form, m.heap.body? v = some contents → contents.form? name = some form → b = form

/-- An array can be shown, if the interpreter was brought to where it is by its own steps. -/
theorem Machine.presentable_array {m : Machine} {v : Value} {items : List Value}
    (hsteps : boot.Steps m)
    (hslot : m.heap.slot? v = some ⟨CoreClass.array.value, .array items⟩) : m.Presentable v := by
  have hbody : m.heap.body? v = some (.array items) := Heap.body?_of_slot? hslot
  refine ⟨.inr (by rw [hslot, Option.isSome_some]), fun name hname => ?_⟩
  refine ⟨.array, .arrayInspect, ?_, ?_, fun contents form hcontents hform => ?_⟩
  · revert name
    decide +kernel
  · rw [Heap.classOf_of_slot? hslot]
    refine hsteps.answers (boot_answers ?_)
    revert name
    decide +kernel
  · rw [hbody] at hcontents
    cases hcontents
    cases hform
    rfl

variable {σ : Type} {w : World σ} {v : Value}

/-! ### Texts beside objects -/

namespace World

/-- An object that was there, or a word without a place, is not touched by new texts. -/
theorem addTexts_slot? (hthere : v.slot? = none ∨ (w.machine.heap.slot? v).isSome = true)
    (texts : List String) :
    (w.addTexts texts).machine.heap.slot? v = w.machine.heap.slot? v := by
  rcases hthere with hword | hslot
  · unfold Heap.slot?
    rw [hword]
    rfl
  · obtain ⟨slot, hslot⟩ := Option.isSome_iff_exists.mp hslot
    rw [hslot]
    exact w.addTexts_keepsSlots texts v slot hslot

end World

/-- What can be shown can be shown after some texts. -/
theorem Machine.Presentable.addTexts (hv : w.machine.Presentable v) (texts : List String) :
    (w.addTexts texts).machine.Presentable v := by
  have hslot := World.addTexts_slot? hv.there texts
  have hclass := Heap.classOf_eq_of_slot? hslot
  have hbody : (w.addTexts texts).machine.heap.body? v = w.machine.heap.body? v := by
    unfold Heap.body?
    rw [hslot]
  refine ⟨by rw [hslot]; exact hv.there, fun name hname => ?_⟩
  obtain ⟨c, b, hentry, hanswers, hform⟩ := hv.answers name hname
  refine ⟨c, b, hentry, ?_, ?_⟩
  · rw [hclass]
    exact Machine.Steps.answers (w.addTexts_makes texts).steps hanswers
  · rw [hbody]
    exact hform

/-! ### Runs that come to no end -/

/-- Being left because the bound was reached. -/
abbrev Exit.OutOfTime (exit : Exit) (_ : World σ) : Prop :=
  exit = .exhausted

namespace Eval

variable {α β : Type}

/-- The bound on nested calls is reached. -/
def Exhausts (action : Eval σ α) (w : World σ) : Prop :=
  ∃ w', action w = .error .exhausted w'

/-- The run does not raise. -/
abbrev MakesTextsOnly (action : Eval σ α) (w : World σ) : Prop :=
  MakesTexts Exit.OutOfTime action w

namespace Exhausts

/-- What reaches the bound does not end before it. -/
theorem not_endsAt {action : Eval σ α} (h : Exhausts action w) : ¬ EndsAt action w := by
  obtain ⟨w', hrun⟩ := h
  exact fun hends => hends w' hrun

/-- What does the same as a run that reaches the bound reaches it. -/
theorem of_eq {action action' : Eval σ α} (hrun : action w = action' w)
    (h : Exhausts action' w) : Exhausts action w := by
  obtain ⟨w', hrun'⟩ := h
  exact ⟨w', hrun.trans hrun'⟩

/-- Looking at the machine does not help. -/
theorem machine_bind {f : Machine → Eval σ α} (h : Exhausts (f w.machine) w) :
    Exhausts (machine >>= f) w :=
  h

/-- A run whose first part reaches the bound reaches it. -/
theorem bind {x : Eval σ α} (h : Exhausts x w) (f : α → Eval σ β) : Exhausts (x >>= f) w := by
  obtain ⟨w', hrun⟩ := h
  exact ⟨w', by rw [bind_apply, hrun]⟩

/-- If the first part does not raise, the second one is come to. -/
theorem bind_of_rest {x : Eval σ α} {f : α → Eval σ β} (hx : MakesTextsOnly x w)
    (hf : ∀ a texts, Exhausts (f a) (w.addTexts texts)) : Exhausts (x >>= f) w := by
  rcases hx with ⟨a, texts, hrun⟩ | ⟨exit, w', hrun, rfl⟩
  · obtain ⟨w', hrest⟩ := hf a texts
    exact ⟨w', by rw [bind_apply, hrun]; exact hrest⟩
  · exact .bind ⟨w', hrun⟩ f

/-- If one of the items comes to no end, those before it do not matter. -/
theorem mapM {f : α → Eval σ β} {items : List α}
    (hitems : ∀ item ∈ items, ∀ texts, MakesTextsOnly (f item) (w.addTexts texts)) {item : α}
    (hitem : item ∈ items) (h : ∀ texts, Exhausts (f item) (w.addTexts texts)) :
    Exhausts (items.mapM f) w := by
  induction items generalizing w with
  | nil => cases hitem
  | cons first rest ih =>
      rw [List.mapM_cons]
      rcases List.mem_cons.mp hitem with rfl | hlater
      · exact (h []).bind _
      · refine bind_of_rest (hitems first List.mem_cons_self []) fun b texts => ?_
        refine bind (ih (fun other hother more => ?_) hlater fun more => ?_) _
        · rw [← World.addTexts_append]
          exact hitems other (List.mem_cons_of_mem first hother) (texts ++ more)
        · rw [← World.addTexts_append]
          exact h (texts ++ more)

end Exhausts

end Eval

/-- Asking for a text of the object comes to no end, after however many others. -/
def Stuck (r : Reentry σ) (w : World σ) (v : Value) : Prop :=
  ∀ name ∈ showingNames, ∀ texts, Exhausts (r.sendNamed v name []) (w.addTexts texts)

section Stuck

variable {r : Reentry σ} {call : Call σ} {part : Value}

/-- What is stuck is stuck after some texts. -/
theorem Stuck.addTexts (h : Stuck r w v) (texts : List String) : Stuck r (w.addTexts texts) v := by
  intro name hname more
  rw [← World.addTexts_append]
  exact h name hname (texts ++ more)

/-- Inspecting it reaches the bound. -/
theorem Stuck.inspectText (h : Stuck r w v) : Exhausts (r.inspectText v) w :=
  (h "inspect" (by decide) []).bind _

/-- Displaying what is stuck reaches the bound, unless it is a string already. -/
theorem Stuck.displayText (h : Stuck r w v) (htype : w.machine.heap.typeOf v ≠ .string) :
    Exhausts (r.displayText v) w := by
  unfold Reentry.displayText
  refine .machine_bind ?_
  rw [if_neg htype]
  exact (h "to_s" (by decide) []).bind _

/-- A string is grounded. -/
theorem Heap.grounded_of_typeOf_string {h : Heap} (htype : h.typeOf v = .string) :
    h.Grounded v := by
  obtain ⟨contents, hcontents, hkind⟩ := exists_body?_of_typeOf htype (by decide)
  cases contents <;> cases hkind
  exact grounded_of_partsOf (partsOf_of_body? hcontents)

/-- `nil` has no contents, and so it is grounded. -/
theorem Heap.grounded_nil (h : Heap) : h.Grounded Value.nil := by
  refine grounded_of_partsOf ?_
  unfold partsOf
  rw [body?_nil, Option.elim_none]

/-- A symbol has no contents, and so it is grounded. -/
theorem Heap.grounded_of_symbol? {h : Heap} {id : SymbolId} (hid : v.symbol? = some id) :
    h.Grounded v := by
  refine grounded_of_partsOf ?_
  unfold partsOf
  cases hbody : h.body? v with
  | none => rfl
  | some contents =>
      obtain ⟨place, hplace⟩ := slot?_of_body? hbody
      rw [Value.symbol?_of_slot? hplace] at hid
      cases hid

namespace Methods

/-- An array with an item that is stuck is not shown. -/
theorem showArray_exhausts {items : List Value}
    (hitems : w.machine.heap.items? call.receiver = some items)
    (h : AsksForParts Exit.OutOfTime r w call.receiver) (hpart : part ∈ items)
    (hstuck : Stuck r w part) : Exhausts (showArray r call) w := by
  have hread : (w.machine.heap.items? call.receiver).getD [] = items := by
    rw [hitems, Option.getD_some]
  have hmapped :
      Exhausts (((w.machine.heap.items? call.receiver).getD []).mapM r.inspectText) w := by
    refine .mapM (fun item hitem texts => ?_) (hread ▸ hpart) fun texts =>
      (hstuck.addTexts texts).inspectText
    have hasked := h.inspect (Heap.contains_of_items hitem)
    exact (hasked.addTexts texts).inspectText
  exact hmapped.bind _

/-- A pair with a key that is stuck is not shown. -/
theorem showPair_exhausts {pair : Value × Value}
    (hvalue : AsksFor Exit.OutOfTime r w pair.2 "inspect") (hname : pair.1.symbol? = none)
    (hstuck : Stuck r w pair.1) : Exhausts (showPair r pair) w := by
  unfold showPair
  refine .bind_of_rest hvalue.inspectText fun value texts => .machine_bind ?_
  rw [hname]
  exact (hstuck.addTexts texts).inspectText.bind _

/-- A hash with a key or a value that is stuck is not shown. -/
theorem showHash_exhausts {pairs : List (Value × Value)}
    (hpairs : w.machine.heap.pairs? call.receiver = some pairs)
    (h : AsksForParts Exit.OutOfTime r w call.receiver)
    (hpart : part ∈ (Body.hash pairs).parts) (hground : ¬ w.machine.heap.Grounded part)
    (hstuck : Stuck r w part) : Exhausts (showHash r call) w := by
  have hread : (w.machine.heap.pairs? call.receiver).getD [] = pairs := by
    rw [hpairs, Option.getD_some]
  obtain ⟨pair, hpair, hmem⟩ := List.mem_flatMap.mp hpart
  have hasked : ∀ other ∈ (w.machine.heap.pairs? call.receiver).getD [],
      AsksFor Exit.OutOfTime r w other.1 "inspect" ∧
        AsksFor Exit.OutOfTime r w other.2 "inspect" := by
    intro other hother
    obtain ⟨hkey, hvalue⟩ := Heap.contains_of_pairs hother
    exact ⟨h.inspect hkey, h.inspect hvalue⟩
  have hmapped :
      Exhausts (((w.machine.heap.pairs? call.receiver).getD []).mapM (showPair r)) w := by
    refine .mapM (fun other hother texts => ?_) (hread ▸ hpair) fun texts => ?_
    · obtain ⟨hkey, hvalue⟩ := hasked other hother
      exact makesTexts_showPair (hkey.addTexts texts) (hvalue.addTexts texts)
    · simp only [List.mem_cons, List.not_mem_nil, or_false] at hmem
      rcases hmem with rfl | rfl
      · have hname : pair.1.symbol? = none := by
          cases hsymbol : pair.1.symbol? with
          | none => rfl
          | some id => exact absurd (Heap.grounded_of_symbol? hsymbol) hground
        have hvalue := (hasked pair (hread ▸ hpair)).2
        exact showPair_exhausts (hvalue.addTexts texts) hname (hstuck.addTexts texts)
      · exact (hstuck.addTexts texts).inspectText.bind _
  exact hmapped.bind _

/-- An exception with a message that is stuck has no text. -/
theorem exceptionText_exhausts {message backtrace : Value}
    (hbody : w.machine.heap.body? call.receiver = some (.exception message backtrace))
    (hground : ¬ w.machine.heap.Grounded message) (hstuck : Stuck r w message) :
    Exhausts (exceptionText r call) w := by
  have hparts : (w.machine.heap.exceptionParts call.receiver).1 = message := by
    unfold Heap.exceptionParts
    rw [hbody]
  have hnil : message ≠ Value.nil := by
    rintro rfl
    exact hground w.machine.heap.grounded_nil
  have hstring : w.machine.heap.typeOf message ≠ .string :=
    fun htype => hground (Heap.grounded_of_typeOf_string htype)
  unfold exceptionText
  refine .machine_bind ?_
  dsimp only
  rw [hparts, if_neg hnil, if_neg hstring]
  exact hstuck "to_s" (by decide) []

/-- An exception that is stuck is not shown. -/
theorem showException_exhausts (hstuck : Stuck r w call.receiver) :
    Exhausts (showException r call) w := by
  unfold showException
  exact .machine_bind ((hstuck "to_s" (by decide) []).bind _)

end Methods

/-- The method that shows the parts of an object comes to no end if asking for one of them does not.
-/
theorem Body.form_exhausts {contents : Body} {form : Builtin} {name : String}
    (hname : name ∈ showingNames) (hcontents : w.machine.heap.body? call.receiver = some contents)
    (hform : contents.form? name = some form) (h : AsksForParts Exit.OutOfTime r w call.receiver)
    (hself : Stuck r w call.receiver) (hpart : part ∈ contents.parts)
    (hground : ¬ w.machine.heap.Grounded part) (hstuck : Stuck r w part) :
    Exhausts (form.run r call) w := by
  cases contents with
  | array items =>
      cases hform
      exact Methods.showArray_exhausts (Heap.items?_of_body? hcontents) h hpart hstuck
  | hash pairs =>
      cases hform
      exact Methods.showHash_exhausts (Heap.pairs?_of_body? hcontents) h hpart hground hstuck
  | exception message backtrace =>
      obtain rfl : part = message := List.mem_singleton.mp hpart
      simp only [showingNames, List.mem_cons, List.not_mem_nil, or_false] at hname
      rcases hname with rfl | rfl
      · cases hform
        exact Methods.showException_exhausts hself
      · cases hform
        exact Methods.exceptionText_exhausts hcontents hground hstuck
  | float | bignum | string | ofModule | plain | proc => cases hpart

end Stuck

/-! ### Objects that are not grounded -/

/-- An object that can be shown is shown by the interpreter's own method for it. -/
theorem Machine.Presentable.sendNamed (hv : w.machine.Presentable v) {name : String}
    (hname : name ∈ showingNames) (fuel : Nat) :
    ∃ c b method, (c, name, b) ∈ ownMethods ∧
      (Reentry.ofFuel (fuel + 1)).sendNamed v name [] w =
        b.run (.ofFuel fuel) { receiver := v, method, args := [] } w ∧
      ∀ contents form, w.machine.heap.body? v = some contents → contents.form? name = some form →
        b = form := by
  obtain ⟨c, b, hentry, hanswers, hform⟩ := hv.answers name hname
  obtain ⟨method, hsend⟩ := Reentry.sendNamed_of_answers fuel hanswers []
  exact ⟨c, b, method, hentry, hsend, hform⟩

section Circular

variable {root : Value}

/-- Nothing raises where all can be shown. -/
theorem asksFor_of_presentable
    (hall : ∀ v, w.machine.heap.LeadsTo root v → w.machine.Presentable v) (fuel : Nat) :
    ∀ v, w.machine.heap.LeadsTo root v → ∀ name ∈ showingNames,
      AsksFor Exit.OutOfTime (.ofFuel fuel) w v name := by
  induction fuel with
  | zero => exact fun v _ name _ texts => .left rfl rfl
  | succ fuel ih =>
      intro v hv name hname texts
      have hparts : AsksForParts Exit.OutOfTime (.ofFuel fuel) w v := fun part hpart =>
        ih part (hv.tail hpart)
      have hself := ih v hv "to_s" (by decide)
      obtain ⟨c, b, method, hentry, hsend, -⟩ := ((hall v hv).addTexts texts).sendNamed hname fuel
      exact .of_eq hsend
        (Builtin.makesTexts_own hname hentry (hparts.addTexts texts) fun _ => hself.addTexts texts)

/-- The contents of what can be shown are what they were before some texts. -/
theorem addTexts_body? (hv : w.machine.Presentable v) (texts : List String) :
    (w.addTexts texts).machine.heap.body? v = w.machine.heap.body? v := by
  unfold Heap.body?
  rw [World.addTexts_slot? hv.there]

/-- **Showing an object that is not grounded comes to no end**, by induction on the bound: it has a
part that is not grounded. -/
theorem stuck_of_not_grounded
    (hall : ∀ v, w.machine.heap.LeadsTo root v → w.machine.Presentable v) (fuel : Nat) :
    ∀ v, w.machine.heap.LeadsTo root v → ¬ w.machine.heap.Grounded v →
      Stuck (.ofFuel fuel) w v := by
  induction fuel with
  | zero => exact fun v _ _ name _ texts => ⟨_, rfl⟩
  | succ fuel ih =>
      intro v hv hground name hname texts
      obtain ⟨part, hpart, hpartGround⟩ := Heap.exists_part_of_not_grounded hground
      obtain ⟨contents, hcontents, hmem⟩ := hpart.exists_body?
      have hparts : AsksForParts Exit.OutOfTime (.ofFuel fuel) w v := fun other hother =>
        asksFor_of_presentable hall fuel other (hv.tail hother)
      have hself : Stuck (.ofFuel fuel) w v := ih v hv hground
      have hstuck : Stuck (.ofFuel fuel) w part := ih part (hv.tail hpart) hpartGround
      have hstill : ¬ (w.addTexts texts).machine.heap.Grounded part :=
        fun hlater => hpartGround ((w.addTexts_grounded_iff texts part).mp hlater)
      have hbody : (w.addTexts texts).machine.heap.body? v = some contents :=
        (addTexts_body? (hall v hv) texts).trans hcontents
      obtain ⟨c, b, method, -, hsend, hshown⟩ := ((hall v hv).addTexts texts).sendNamed hname fuel
      obtain ⟨form, hform⟩ := contents.exists_form hmem name
      obtain rfl : b = form := hshown contents form hbody hform
      exact .of_eq hsend (Body.form_exhausts hname hbody hform (hparts.addTexts texts)
        (hself.addTexts texts) hmem hstill (hstuck.addTexts texts))

/-! ### Joining -/

namespace Methods

/-- Joining does not raise where all can be shown. -/
theorem joinItems_of_presentable
    (hall : ∀ v, w.machine.heap.LeadsTo root v → w.machine.Presentable v) (fuel : Nat)
    (separator : String) (depth : Nat) :
    ∀ v, w.machine.heap.LeadsTo root v → ∀ texts,
      MakesTextsOnly (joinItems (.ofFuel fuel) separator depth v) (w.addTexts texts) := by
  induction depth with
  | zero => exact fun v _ texts => .left rfl rfl
  | succ depth ih =>
      intro v hv
      refine makesTexts_joinItems fun item hitem => ⟨?_, ih item (hv.tail hitem)⟩
      exact asksFor_of_presentable hall fuel item (hv.tail hitem) "to_s" (by decide)

/-- Joining an array that is not grounded comes to no end: an item is not grounded, and that is an
array itself or is asked for its text. -/
theorem joinItems_exhausts
    (hall : ∀ v, w.machine.heap.LeadsTo root v → w.machine.Presentable v) (fuel : Nat)
    (separator : String) (depth : Nat) :
    ∀ v, w.machine.heap.LeadsTo root v → ¬ w.machine.heap.Grounded v → ∀ items,
      w.machine.heap.items? v = some items → ∀ texts,
        Exhausts (joinItems (.ofFuel fuel) separator depth v) (w.addTexts texts) := by
  induction depth with
  | zero => exact fun v _ _ items _ texts => ⟨_, rfl⟩
  | succ depth ih =>
      intro v hv hground items hitems texts
      obtain ⟨part, hpart, hpartGround⟩ := Heap.exists_part_of_not_grounded hground
      have hmem : part ∈ items := hpart.mem_parts (Heap.body?_of_items? hitems)
      have hread : ((w.addTexts texts).machine.heap.items? v).getD [] = items := by
        have hbody := (addTexts_body? (hall v hv) texts).trans (Heap.body?_of_items? hitems)
        rw [Heap.items?_of_body? hbody, Option.getD_some]
      have hstuck := stuck_of_not_grounded hall fuel part (hv.tail hpart) hpartGround
      have hmapped : Exhausts
          ((((w.addTexts texts).machine.heap.items? v).getD []).mapM fun item => (do
            if (← machine).heap.typeOf item = .array then
              joinItems (.ofFuel fuel) separator depth item
            else (Reentry.ofFuel fuel).displayText item : Eval σ String)) (w.addTexts texts) := by
        rw [hread]
        refine .mapM (fun item hitem more => ?_) hmem fun more => ?_
        · have hheld : w.machine.heap.Contains v item :=
            Heap.contains_of_body? (Heap.body?_of_items? hitems) hitem
          rw [← World.addTexts_append]
          exact makesTexts_joinedItem
            (asksFor_of_presentable hall fuel item (hv.tail hheld) "to_s" (by decide))
            (joinItems_of_presentable hall fuel separator depth item (hv.tail hheld)) _
        · rw [← World.addTexts_append]
          refine .machine_bind ?_
          split
          · rename_i hkind
            obtain ⟨contents, hcontents, harray⟩ := Heap.exists_body?_of_typeOf hkind (by decide)
            rw [addTexts_body? (hall part (hv.tail hpart))] at hcontents
            cases contents with
            | array inner =>
                have hinner : w.machine.heap.items? part = some inner :=
                  Heap.items?_of_body? hcontents
                exact ih part (hv.tail hpart) hpartGround inner hinner _
            | _ => cases harray
          · refine (hstuck.addTexts _).displayText fun hkind => hpartGround ?_
            exact (w.addTexts_grounded_iff _ part).mp (Heap.grounded_of_typeOf_string hkind)
      exact hmapped.bind _

end Methods

/-! ### Both together -/

/-- The tasks by which an object is shown come to no end if it is not grounded. -/
theorem showingTask_exhausts (hall : ∀ v, w.machine.heap.LeadsTo root v → w.machine.Presentable v)
    (hground : ¬ w.machine.heap.Grounded root) (fuel : Nat) {task : Task}
    (htask : task ∈ showingTasks root) : Exhausts (perform (.ofFuel fuel) task) w := by
  have hstuck := stuck_of_not_grounded hall fuel root .refl hground
  have hinspect : Exhausts ((Reentry.ofFuel fuel).sendNamed root "inspect" []) w :=
    hstuck "inspect" (by decide) []
  have htext : Exhausts ((Reentry.ofFuel fuel).stringOf root) w := by
    unfold Reentry.stringOf
    refine .machine_bind ?_
    rw [if_neg fun hkind => hground (Heap.grounded_of_typeOf_string hkind)]
    exact (hstuck "to_s" (by decide) []).bind _
  simp only [showingTasks, List.mem_cons, List.not_mem_nil, or_false] at htask
  rcases htask with rfl | rfl | rfl | rfl
  · exact hinspect.bind _
  · exact (hinspect.bind _).bind _
  · exact htext
  · exact htext.bind _

/-- The method that joins an array comes to no end if the array is not grounded. -/
theorem join_exhausts (hall : ∀ v, w.machine.heap.LeadsTo root v → w.machine.Presentable v)
    (hground : ¬ w.machine.heap.Grounded root) {items : List Value}
    (hitems : w.machine.heap.items? root = some items) (fuel : Nat) (method : SymbolId) :
    Exhausts (Methods.join (.ofFuel fuel) { receiver := root, method, args := [] }) w := by
  have hjoined := Methods.joinItems_exhausts hall fuel ""
    (Reentry.ofFuel fuel : Reentry σ).rounds root .refl hground items hitems []
  exact hjoined.bind _

end Circular

namespace World

variable {P : Probe → Prop} {u : World σ}

/-- The interpreter of a world that was reached shows objects by its own methods, if the host puts
no others in their place. -/
theorem Reaches.showsByOwn (hreached : w.Reaches P u) (hboot : w.machine = Machine.boot)
    (hspared : ∀ name ∈ showingNames, ∀ probe, P probe → probe.Spares name) :
    u.machine.ShowsByOwn := by
  have hlisted : ∀ name ∈ showingNames, ∃ b, (CoreClass.object, name, b) ∈ ownMethods := by
    intro name hname
    simp only [showingNames, List.mem_cons, List.not_mem_nil, or_false] at hname
    rcases hname with rfl | rfl
    · exact ⟨.objectInspect, by decide +kernel⟩
    · exact ⟨.objectInspect, by decide +kernel⟩
  intro name hname
  obtain ⟨b, hentry⟩ := hlisted name hname
  refine hreached.ownUnder (hspared name hname) ?_
  rw [hboot]
  exact Machine.boot_ownUnder hentry

/-- **The objects that can be shown are those that are grounded**, at every moment of a run out of a
fresh interpreter in which the host defines no `inspect` and no `to_s`.  In the fresh interpreter
all objects are grounded.  Showing a grounded object comes to an end if the bound on nested calls is
high enough, and so does joining a grounded array.  An object that is not grounded is never shown or
joined, whatever the bound, where the interpreter's own methods show all that it leads to.

A step keeps all objects grounded just in case it gives none of them a part that leads back to it.
No method asks whether a part does: `push` keeps all objects grounded just in case nothing that is
pushed leads to the array, and storing in a hash, by its method or by the host, just in case the
value does not lead to the hash, nor the key where it is new. -/
theorem showing_ends_iff (hboot : w.machine = Machine.boot)
    (hspared : ∀ name ∈ showingNames, ∀ probe, P probe → probe.Spares name)
    (hreached : w.Reaches P u) :
    (∀ object, w.machine.heap.Grounded object) ∧
    (∀ object, u.machine.heap.Grounded object → ∃ n, ∀ fuel, n ≤ fuel →
      ∀ task ∈ showingTasks object,
        (Outcome.world (perform (.ofFuel fuel) task u)).machine.heap.HasRoom 0 →
          EndsAt (perform (.ofFuel fuel) task) u) ∧
    (∀ call : Call σ, u.machine.heap.Grounded call.receiver →
      (∀ arg ∈ call.args, u.machine.heap.Grounded arg) →
        ∃ n, ∀ fuel, n ≤ fuel → EndsAt (Builtin.arrayJoin.run (.ofFuel fuel) call) u) ∧
    (∀ object, ¬ u.machine.heap.Grounded object →
      (∀ part, u.machine.heap.LeadsTo object part → u.machine.Presentable part) → ∀ fuel,
        (∀ task ∈ showingTasks object, ¬ EndsAt (perform (.ofFuel fuel) task) u) ∧
        ∀ items method, u.machine.heap.items? object = some items →
          ¬ EndsAt (Builtin.arrayJoin.run (.ofFuel fuel)
            { receiver := object, method, args := [] }) u) ∧
    ((∀ object, u.machine.heap.Grounded object) →
      (∀ m, u.machine.Step m → ((∀ object, m.heap.Grounded object) ↔
        ∀ object part, m.heap.Contains object part →
          u.machine.heap.Contains object part ∨ ¬ u.machine.heap.LeadsTo part object)) ∧
      (∀ (r : Reentry σ) (call : Call σ) old, u.machine.heap.items? call.receiver = some old →
        let u' := Outcome.world (Builtin.arrayPush.run r call u)
        (∀ object, u'.machine.heap.Grounded object) ↔
          ∀ item ∈ call.args, ¬ u.machine.heap.LeadsTo item call.receiver) ∧
      ∀ (r : Reentry σ) (call : Call σ) pairs key value,
        u.machine.heap.pairs? call.receiver = some pairs → call.args = [key, value] →
        let u' := Outcome.world (Builtin.hashSet.run r call u)
        u' = Outcome.world (perform r (.storeInHash call.receiver key value) u) ∧
        ((∀ object, u'.machine.heap.Grounded object) ↔
          ¬ u.machine.heap.LeadsTo value call.receiver ∧
            ((∀ pair ∈ pairs, u.machine.sameKey pair.1 key = false) →
              ¬ u.machine.heap.LeadsTo key call.receiver))) := by
  have hown : u.machine.ShowsByOwn := hreached.showsByOwn hboot hspared
  refine ⟨fun object => ?_, fun object hground => ?_, fun call hreceiver hargs => ?_,
    fun object hground hall fuel => ⟨fun task htask => ?_, fun items method hitems => ?_⟩,
    fun hall => ⟨fun m hstep => hstep.grounded_iff hall, fun r call old hold => ?_,
      fun r call pairs key value hpairs hargs => ?_⟩⟩
  · rw [hboot]
    exact Machine.boot_grounded object
  · obtain ⟨n, hasked⟩ := asksFor_of_grounded hown hground
    exact ⟨n, fun fuel hfuel task htask hroom =>
      endsAt_showingTask hown (hasked fuel hfuel) htask hroom⟩
  · exact Methods.endsAt_join hown call hreceiver hargs
  · exact (showingTask_exhausts hall hground fuel htask).not_endsAt
  · exact (join_exhausts hall hground hitems fuel method).not_endsAt
  · exact Heap.grounded_pushItems_iff hall hold call.args
  · have hstored := storeInHash_apply hpairs key value
    have hperformed : perform r (.storeInHash call.receiver key value) u = _ := hstored
    rw [hashSet_apply r hpairs hargs, hperformed]
    exact ⟨rfl, Machine.grounded_storeInHash_iff hall hpairs key value⟩

/-- In a fresh interpreter an array can be made that has itself for its one item.  It is never shown
and never joined, and another array beside it can be joined. -/
theorem showing_ends_iff_circular :
    ∃ (u : World Unit) (array other : Value), ({ memory := () } : World Unit).Reaches NoProbes u ∧
      u.machine.heap.items? array = some [array] ∧ u.machine.heap.items? other = some [Value.nil] ∧
      (∃ n, ∀ fuel, n ≤ fuel → EndsAt (Builtin.arrayJoin.run (.ofFuel fuel)
        { receiver := other, method := ⟨1⟩, args := [] }) u) ∧
      ∀ fuel, (∀ task ∈ showingTasks array, ¬ EndsAt (perform (.ofFuel fuel) task) u) ∧
        ¬ EndsAt (Builtin.arrayJoin.run (.ofFuel fuel)
          { receiver := array, method := ⟨1⟩, args := [] }) u := by
  obtain ⟨w, hfresh, hboot⟩ :
      ∃ w : World Unit, w = { memory := () } ∧ w.machine = Machine.boot := ⟨_, rfl, rfl⟩
  rw [← hfresh]
  let array := w.machine.newArray []
  let filled : Machine := { array.2 with heap := Methods.pushItems array.2.heap array.1 [array.1] }
  let other := filled.newArray [Value.nil]
  let u : World Unit := { w with machine := other.2 }
  have hsize : w.machine.heap.slots.size = CoreClass.all.length := by
    rw [hboot, Machine.boot_size]
  have hroom : w.machine.heap.Addressable := by
    unfold Heap.Addressable
    rw [hsize]
    decide
  have hmade : array.2.heap.slot? array.1 = some ⟨CoreClass.array.value, .array []⟩ :=
    Heap.slot?_alloc hroom _ _
  have hfilled : filled.heap = array.2.heap.setBody array.1 (.array [array.1]) :=
    Heap.pushItems_of_items (Heap.items?_of_body? (Heap.body?_of_slot? hmade)) [array.1]
  have hslot : u.machine.heap.slot? array.1 = some ⟨CoreClass.array.value, .array [array.1]⟩ := by
    refine Heap.slot?_alloc_of_some ?_ _ _
    rw [hfilled]
    exact Heap.slot?_setBody_self hmade _
  have hbeside : u.machine.heap.body? other.1 = some (.array [Value.nil]) := by
    have hbefore : filled.heap.slots.size = CoreClass.all.length + 1 := by
      rw [hfilled, Heap.size_setBody, ← hsize]
      exact Array.size_push _
    refine Heap.body?_alloc ?_ _ _
    unfold Heap.Addressable
    rw [hbefore]
    decide
  have hfirst : w.machine.Step array.2 := .array _ []
  have hpush : array.2.Step filled := .pushItems _ array.1 [array.1]
  have hlast : filled.Step u.machine := .array _ [Value.nil]
  have hreached : w.Reaches NoProbes u :=
    ((Relation.ReflTransGen.single (.step (.machine w hfirst))).tail
      (.step (.machine { w with machine := array.2 } hpush))).tail
        (.step (.machine { w with machine := filled } hlast))
  obtain ⟨-, -, hjoined, hcircular, -⟩ := showing_ends_iff hboot (P := NoProbes) (u := u)
    (fun _ _ _ hnone => hnone.elim) hreached
  have hself : u.machine.heap.Contains array.1 array.1 :=
    Heap.contains_of_body? (Heap.body?_of_slot? hslot) List.mem_cons_self
  have honly : ∀ part, u.machine.heap.Contains array.1 part → part = array.1 := fun part hpart =>
    List.mem_singleton.mp (hpart.mem_parts (Heap.body?_of_slot? hslot))
  have hshows : ∀ part, u.machine.heap.LeadsTo array.1 part → u.machine.Presentable part := by
    intro part hleads
    have hsteps : w.machine.Steps u.machine :=
      ((Relation.ReflTransGen.single hfirst).tail hpush).tail hlast
    rw [hleads.eq_of_contains honly]
    exact Machine.presentable_array (hboot ▸ hsteps) hslot
  have hground : u.machine.heap.Grounded other.1 := by
    refine Heap.grounded_of_parts fun part hpart => ?_
    obtain rfl : part = Value.nil := List.mem_singleton.mp (hpart.mem_parts hbeside)
    exact Heap.grounded_nil _
  have hitems : u.machine.heap.items? array.1 = some [array.1] :=
    Heap.items?_of_body? (Heap.body?_of_slot? hslot)
  refine ⟨u, array.1, other.1, hreached, hitems, Heap.items?_of_body? hbeside,
    hjoined _ hground nofun, fun fuel => ?_⟩
  obtain ⟨hshown, hnever⟩ :=
    hcircular array.1 (Heap.not_grounded_of_contains_self hself) hshows fuel
  exact ⟨hshown, hnever [array.1] ⟨1⟩ hitems⟩

end World

end EmbeddedRuby
