import EmbeddedRuby.Proofs.OwnMethods
import EmbeddedRuby.Proofs.SixtyFourBits
import EmbeddedRuby.Proofs.Utf8

/-!
# What was written is read again

The host makes an object of a number, a truth value or a text, and reads the object again.  Between
an integer and its object lie the words of small integers and the heap, and between the object and
the integer two tasks, each with a range of its own, and at last the check that the number is one of
the type.

The main statement is `World.round_trips`: a number is read exactly if it is one of the type that it
is read as, whatever type it was written as, and then it is the number that was written and nothing
goes into the history; if it is not, one error does.  Truth values and texts are always read as they
were written.
-/

namespace EmbeddedRuby

open Eval
open Integer (longMin longEnd unsignedEnd)

/-! ### The ranges of the types -/

namespace IntType

/-- A type holds the integers of its range. -/
theorem holds_iff {type : IntType} {n : Int} :
    type.holds n = true ↔ type.minValue ≤ n ∧ n ≤ type.maxValue := by
  unfold holds
  rw [Bool.and_eq_true, decide_eq_true_eq, decide_eq_true_eq]

/-- All integer types lie between the smallest number with sign and the largest without. -/
theorem range_of_holds {type : IntType} {n : Int} (hn : type.holds n = true) :
    longMin ≤ n ∧ n < unsignedEnd := by
  have hbounds : longMin ≤ type.minValue ∧ type.maxValue < unsignedEnd := by
    cases type <;> decide
  obtain ⟨hlow, hhigh⟩ := holds_iff.mp hn
  exact ⟨Int.le_trans hbounds.1 hlow, Int.lt_of_le_of_lt hhigh hbounds.2⟩

/-- A type with sign has its range within that of the words with sign. -/
theorem range_of_signed {type : IntType} (hsigned : type.isSigned = true) {n : Int}
    (hn : type.holds n = true) : longMin ≤ n ∧ n < longEnd := by
  have hbounds : longMin ≤ type.minValue ∧ type.maxValue < longEnd := by
    revert hsigned
    cases type <;> decide
  obtain ⟨hlow, hhigh⟩ := holds_iff.mp hn
  exact ⟨Int.le_trans hbounds.1 hlow, Int.lt_of_le_of_lt hhigh hbounds.2⟩

/-- A type without sign holds no negative integer. -/
theorem nonneg_of_unsigned {type : IntType} (hunsigned : type.isSigned = false) {n : Int}
    (hn : type.holds n = true) : 0 ≤ n := by
  have hzero : type.minValue = 0 := by
    revert hunsigned
    cases type <;> decide
  exact hzero ▸ (holds_iff.mp hn).1

end IntType

variable {σ : Type} {r : Reentry σ} {w : World σ} {v : Value} {n : Int}

/-! ### Taking the number out of its object -/

namespace Reentry

/-- An integer is not converted. -/
theorem toInteger_of_isInteger (hv : w.machine.heap.IsInteger v) : r.toInteger v w = .ok v w := by
  unfold toInteger
  rw [machine_bind_apply]
  rcases hv with hv | hv <;> rw [hv] <;> rfl

/-- An Integer is coerced to itself. -/
theorem coerced_of_isInteger (hv : w.machine.heap.IsInteger v) : r.coerced v w = .ok v w := by
  unfold coerced
  rw [machine_bind_apply]
  rcases hv with hv | hv <;> rw [hv] <;> rfl

/-- Taking a number without sign out of an Integer gives what there is in range. -/
theorem toUnsigned_takes (hv : w.machine.heap.IsInteger v) (hn : w.machine.heap.int? v = some n)
    (hrounds : 2 ≤ r.rounds) (hroom : w.machine.heap.Addressable) :
    Takes (r.toUnsigned v) (Number.int n).toUnsigned? w := by
  have hsame : r.toUnsigned v w = r.unsignedOf v w := by
    rw [r.toUnsigned_apply hrounds hroom, bind_apply, coerced_of_isInteger hv]
  unfold Takes
  rw [hsame]
  exact unsignedOf_takes_int r hv hn

/-- Taking a number with sign out of an Integer gives what there is in range. -/
theorem toSigned_takes (hv : w.machine.heap.IsInteger v) (hn : w.machine.heap.int? v = some n) :
    Takes (r.toInteger v >>= fun k => r.toLong k)
      (if longMin ≤ n ∧ n < longEnd then some n else none) w := by
  have hsame : (r.toInteger v >>= fun k => r.toLong k) w = r.toLong v w := by
    rw [bind_apply, toInteger_of_isInteger hv]
  unfold Takes
  rw [hsame]
  exact toLong_takes r hn

end Reentry

/-! ### From the number to the answer -/

namespace Vm

/-- How the reading of a number as one of a type ends: it is given, and nothing has changed; or it is
none of the type, and then the host's side refuses it, or a fault surfaces. -/
def Reads (r : Reentry σ) (reading : Eval σ (Except Error Int)) (type : IntType) (n : Int)
    (w : World σ) : Prop :=
  (type.holds n = true ∧ reading w = .ok (.ok n) w) ∨
  (¬type.holds n = true ∧
    ((∃ error, reading w = .ok (.error error) (w.recorded error)) ∨
      ∃ fault, reading w =
        (Except.error <$> surface r (.raised (w.machine.newException fault).1))
          ((w.raising fault).restored w)))

/-- A number that was taken is checked. -/
theorem reads_of_taken {α : Type} (toInt : α → Int) {take : Eval σ α} {a : α}
    (htaken : take w = .ok a w) (hn : toInt a = n) (type : IntType) :
    Reads r (settled r (guarded take >>= fun a => ensureHeld type (toInt a))) type n w := by
  have hchecked : settled r (guarded take >>= fun a => ensureHeld type (toInt a)) w =
      settled r (ensureHeld type n) w := by
    rw [settled_guarded_bind_of_ok r htaken, hn]
  unfold Reads
  rw [hchecked]
  unfold ensureHeld
  by_cases hheld : type.holds n = true
  · refine .inl ⟨hheld, ?_⟩
    rw [if_pos hheld]
    rfl
  · let error := misfit (String.ofList (Numeral.decimalInt n)) type.name
    refine .inr ⟨hheld, .inl ⟨error, ?_⟩⟩
    rw [if_neg hheld]
    rfl

/-- A number in place of which a fault is raised has to be none of the type. -/
theorem reads_of_raise {α : Type} {take : Eval σ α} {fault : Fault} {type : IntType}
    (hraised : take w = raise fault w) (hheld : ¬type.holds n = true) (rest : α → Checked σ Int) :
    Reads r (settled r (guarded take >>= rest)) type n w := by
  refine .inr ⟨hheld, .inr ⟨fault, ?_⟩⟩
  rw [settled_apply, run_bind_apply, guarded_run_apply, hraised]
  rfl

/-- The object of a number of 64 bits is read as that number, if it is one of the type. -/
theorem reads_readInt (type : IntType) (hup : w.state = .up)
    (hv : w.machine.heap.IsInteger v) (hn : w.machine.heap.int? v = some n)
    (hrange : longMin ≤ n ∧ n < unsignedEnd) (hrounds : 2 ≤ r.rounds)
    (hroom : w.machine.heap.Addressable) :
    Reads r (settled r (readInt r type v)) type n w := by
  cases hsigned : type.isSigned with
  | true =>
      have hreading : readInt r type v = ensureSetup >>= fun _ =>
          guarded (r.toInteger v >>= fun k => r.toLong k) >>= fun k => ensureHeld type k := by
        unfold readInt
        rw [if_pos hsigned]
        exact bind_assoc _ _ _
      have htakes := Reentry.toSigned_takes (r := r) hv hn
      unfold Reads
      rw [hreading, settled_ensureSetup_of_up r hup]
      by_cases hlong : longMin ≤ n ∧ n < longEnd
      · rw [if_pos hlong] at htakes
        exact reads_of_taken id htakes rfl type
      · rw [if_neg hlong] at htakes
        obtain ⟨fault, hraised⟩ := htakes
        exact reads_of_raise hraised (fun h => hlong (IntType.range_of_signed hsigned h)) _
  | false =>
      have hreading : readInt r type v = ensureSetup >>= fun _ =>
          guarded (r.toUnsigned v) >>= fun k => ensureHeld type (k : Int) := by
        unfold readInt
        rw [if_neg (by simp [hsigned])]
        exact bind_assoc _ _ _
      have hnumber : (Number.int n).toUnsigned? =
        if 0 ≤ n ∧ n < unsignedEnd then some n.toNat else none := rfl
      have htakes := Reentry.toUnsigned_takes hv hn hrounds hroom
      rw [hnumber] at htakes
      unfold Reads
      rw [hreading, settled_ensureSetup_of_up r hup]
      by_cases hpositive : 0 ≤ n
      · rw [if_pos ⟨hpositive, hrange.2⟩] at htakes
        exact reads_of_taken Int.ofNat htakes (Int.toNat_of_nonneg hpositive) type
      · rw [if_neg fun h => hpositive h.1] at htakes
        obtain ⟨fault, hraised⟩ := htakes
        exact reads_of_raise hraised
          (fun h => hpositive (IntType.nonneg_of_unsigned hsigned h)) _

/-! ### What is written, and read again -/

/-- What is made into an object is there, and nothing else has changed. -/
theorem settled_write (hup : w.state = .up) (datum : Datum) :
    settled r (write datum) w =
      .ok (.ok (w.machine.make datum).1) (w.onMachine fun m => (m.make datum).2) := by
  unfold write
  rw [settled_ensureSetup_of_up r hup]
  rfl

/-- A number is given to the host if it was read, and nothing is if it was not. -/
theorem toOption_apply {α : Type} {reading : Eval σ (Except Error α)} {result : Except Error α}
    {w' : World σ} (h : reading w = .ok result w') :
    (do return (← reading).toOption : Eval σ (Option α)) w = .ok result.toOption w' := by
  rw [bind_apply, h]
  rfl

/-- A number of the type is given, and nothing has changed. -/
theorem Reads.held {type : IntType} (h : Reads r (settled r (readInt r type v)) type n w)
    (hheld : type.holds n = true) : (Operation.readInt type v).answer r w = .ok (some n) w := by
  rcases h with ⟨-, hread⟩ | ⟨hnot, -⟩
  · exact toOption_apply hread
  · exact absurd hheld hnot

end Vm

namespace World

variable (fuel : Nat)

/-- What comes of a fault is one error, or the panic that waits. -/
theorem surface_raising_cases (fault : Fault) (hown : w.machine.OwnDescriptions)
    (hnames : w.NamesAgree) (hroom : w.machine.heap.HasRoom w.roomToRaise) :
    let jump := Jump.raised (w.machine.newException fault).1
    let w₁ := (w.raising fault).restored w
    (∃ error w', Vm.surface (.ofFuel (fuel + 3)) jump w₁ = .ok error w' ∧
      w'.history = w.history.record error) ∨
    ∃ p w', w.parked = some p ∧ w'.history = w.history ∧
      Vm.surface (.ofFuel (fuel + 3)) jump w₁ = .error (.panic p) w' := by
  intro jump w₁
  cases hparked : w.parked with
  | none => exact .inl (surface_raising fuel fault hown hnames hparked hroom)
  | some p =>
      have hwaiting : w₁.parked = some p := hparked
      refine .inr ⟨p, w₁.withoutPending.resume p, rfl, rfl, ?_⟩
      rw [Vm.surface_apply, hwaiting]

/-- A number that is none of the type is not given, and one error goes into the history, unless a
panic waits, which may go on. -/
theorem readInt_unheld (type : IntType) (hown : w.machine.OwnDescriptions)
    (hnames : w.NamesAgree) (hroom : w.machine.heap.HasRoom w.roomToRaise)
    (hreads :
      let r : Reentry σ := .ofFuel (fuel + 3)
      Vm.Reads r (Vm.settled r (Vm.readInt r type v)) type n w)
    (hheld : ¬type.holds n = true) :
    let answer := (Operation.readInt type v).answer (.ofFuel (fuel + 3))
    (∃ error w', answer w = .ok none w' ∧ w'.history = w.history.record error) ∨
    ∃ p w', w.parked = some p ∧ w'.history = w.history ∧ answer w = .error (.panic p) w' := by
  intro answer
  rcases hreads with ⟨hholds, -⟩ | ⟨-, ⟨error, hrefused⟩ | ⟨fault, hraised⟩⟩
  · exact absurd hholds hheld
  · exact .inl ⟨error, w.recorded error, Vm.toOption_apply hrefused, rfl⟩
  · rw [map_eq_pure_bind] at hraised
    rcases surface_raising_cases fuel fault hown hnames hroom with
      ⟨error, w', hsurface, hhistory⟩ | ⟨p, w', hparked, hhistory, hsurface⟩
    · have hsettled := hraised.trans (bind_ok_iff.mpr ⟨error, w', hsurface, rfl⟩)
      exact .inl ⟨error, w', Vm.toOption_apply hsettled, hhistory⟩
    · have hsettled := hraised.trans (bind_error_iff.mpr (.inl hsurface))
      refine .inr ⟨p, w', hparked, hhistory, ?_⟩
      exact bind_error_iff.mpr (.inl hsettled)

/-- Truth values are read as they were written. -/
theorem readBool_writeBool {r : Reentry σ} (hup : w.state = .up) (b : Bool) :
    (Operation.writeBool b).answer r w = .ok (.ok (Value.ofBool b)) w ∧
    (Operation.readBool (Value.ofBool b)).answer r w = .ok (some b) w := by
  have hwritten : Vm.settled r (Vm.writeBool b) w = .ok (.ok (Value.ofBool b)) w :=
    Vm.settled_ensureSetup_of_up r hup (pure (Value.ofBool b))
  have hread : Vm.settled r (Vm.readBool r (Value.ofBool b)) w = .ok (.ok b) w := by
    unfold Vm.readBool
    cases b with
    | true =>
        rw [if_pos rfl]
        rfl
    | false =>
        rw [if_neg (by decide), if_pos rfl]
        rfl
  exact ⟨hwritten, Vm.toOption_apply hread⟩

/-- Texts are read as they were written. -/
theorem readText_writeText {r : Reentry σ} (hup : w.state = .up)
    (hroom : w.machine.heap.Addressable) (text : String) :
    let v := (w.machine.newText text).1
    (Operation.writeText text).answer r w = .ok (.ok v) (w.addText text) ∧
    (Operation.readText v).answer r (w.addText text) = .ok (some text) (w.addText text) := by
  intro v
  have hbytes : (w.addText text).machine.heap.body? v = some (.string (Utf8.encodeString text)) :=
    Heap.body?_alloc hroom _ _
  have hread : Vm.settled r (Vm.toText r v) (w.addText text) = .ok (.ok text) (w.addText text) := by
    refine (Vm.settled_ensureSetup_of_up r (w := w.addText text) hup _).trans ?_
    refine (Vm.settled_guarded_bind_of_ok _ (perform_stringBytes hbytes) _).trans ?_
    simp only [Utf8.decode?_encodeString, String.ofList_toList]
    rfl
  exact ⟨Vm.settled_write hup _, Vm.toOption_apply hread⟩

/-- A number that was written is read by every type that has it, and by no other. -/
theorem readInt_writeInt (hown : w.machine.OwnDescriptions) (hnames : w.NamesAgree)
    (hup : w.state = .up) (hroom : w.machine.heap.HasRoom (w.roomToRaise + 1))
    {source : IntType} (hn : source.holds n = true) :
    let r : Reentry σ := .ofFuel (fuel + 3)
    let v := (w.machine.newInteger n).1
    let w₁ := w.onMachine fun m => (m.newInteger n).2
    (Operation.writeInt source n).answer r w = .ok (.ok v) w₁ ∧
    ∀ target : IntType,
      (target.holds n = true → (Operation.readInt target v).answer r w₁ = .ok (some n) w₁) ∧
      (¬target.holds n = true →
        (∃ error w₂, (Operation.readInt target v).answer r w₁ = .ok none w₂ ∧
          w₂.history = w.history.record error) ∨
        ∃ p w₂, w.parked = some p ∧ w₂.history = w.history ∧
          (Operation.readInt target v).answer r w₁ = .error (.panic p) w₂) := by
  intro r v w₁
  have hstep : w.machine.Step w₁.machine := .integer w.machine n
  have hchange : w.Change AnyProbe w₁ := .step (.machine w hstep)
  have hroom₁ : w₁.machine.heap.HasRoom w₁.roomToRaise := hroom.ofInteger n
  obtain ⟨hinteger, hint⟩ := w.machine.newInteger_spec n hroom.addressable
  refine ⟨Vm.settled_write hup (.int n), fun target => ?_⟩
  have hreads := Vm.reads_readInt (r := r) target (w := w₁) hup hinteger hint
    (IntType.range_of_holds hn) (Nat.le_add_left 2 fuel)
    (hroom₁.mono (Nat.le_add_left _ _)).addressable
  exact ⟨hreads.held, readInt_unheld fuel target (hown.of_steps (.single hstep))
    (hchange.namesAgree hnames) hroom₁ hreads⟩

/-- **What was written is read again.**  At every moment of a run which the host has begun without
knowing the number of any name, if the interpreter is up, describes exceptions by its own methods, as
it does while nobody replaces them (`Reaches.ownDescriptions`), and has room for a number and an
exception:

* a number that was written as one of some type is read as one of another exactly if it is one of
  that type too, and then it is the same number; otherwise nothing is read, and one error goes into
  the history;
* truth values and texts are read as they were written.

Where something is written or read, nothing goes into the history.  The second ending of a reading
that fails is that of a panic left behind: one that was passed over when an exception was described
by a method that had been replaced goes on with the next fault. -/
theorem round_trips (fuel : Nat) {w₀ w : World σ}
    (hids : w₀.ids = {})
    (hreached : w₀.Reaches AnyProbe w)
    (hup : w.state = .up)
    (hown : w.machine.OwnDescriptions)
    (hroom : w.machine.heap.HasRoom (w.roomToRaise + 1)) :
    let r : Reentry σ := .ofFuel (fuel + 3)
    (∀ (source : IntType) (x : Int), source.holds x = true →
      ∃ v w₁, (Operation.writeInt source x).answer r w = .ok (.ok v) w₁ ∧ w₁.history = w.history ∧
        ∀ target : IntType,
          (target.holds x = true →
            (Operation.readInt target v).answer r w₁ = .ok (some x) w₁) ∧
          (¬target.holds x = true →
            (∃ error w₂, (Operation.readInt target v).answer r w₁ = .ok none w₂ ∧
              w₂.history = w.history.record error) ∨
            ∃ p w₂, w.parked = some p ∧ w₂.history = w.history ∧
              (Operation.readInt target v).answer r w₁ = .error (.panic p) w₂)) ∧
    (∀ b : Bool, ∃ v w₁, (Operation.writeBool b).answer r w = .ok (.ok v) w₁ ∧
      w₁.history = w.history ∧ (Operation.readBool v).answer r w₁ = .ok (some b) w₁) ∧
    (∀ text : String, ∃ v w₁, (Operation.writeText text).answer r w = .ok (.ok v) w₁ ∧
      w₁.history = w.history ∧ (Operation.readText v).answer r w₁ = .ok (some text) w₁) := by
  intro r
  have hnames : w.NamesAgree := hreached.namesAgree (namesAgree_of_unasked hids)
  refine ⟨fun source x hx => ?_, fun b => ?_, fun text => ?_⟩
  · obtain ⟨hwritten, hread⟩ := readInt_writeInt fuel hown hnames hup hroom hx
    exact ⟨_, _, hwritten, rfl, hread⟩
  · obtain ⟨hwritten, hread⟩ := readBool_writeBool (r := r) hup b
    exact ⟨_, w, hwritten, rfl, hread⟩
  · obtain ⟨hwritten, hread⟩ := readText_writeText (r := r) hup hroom.addressable text
    exact ⟨_, w.addText text, hwritten, rfl, hread⟩

/-- A fresh interpreter is brought up. -/
def bringUp : Program Unit .main :=
  .ask (.setup {}) fun _ => .done ()

/-- The world in which a fresh interpreter was brought up. -/
def broughtUp : World Unit :=
  Outcome.world (bringUp.run (.ofFuel 1) { memory := () })

/-- No probes were needed for it. -/
theorem reaches_broughtUp {P : Probe → Prop} :
    ({ memory := () } : World Unit).Reaches P broughtUp := by
  have hhost : ({ memory := () } : World Unit).HostCode P := hostCode_bare.of_eq rfl rfl rfl
  have hfollows := Reentry.follows_ofFuel (σ := Unit) P 1
  exact (bringUp.settles_run hfollows (fun _ => trivial) _ hhost).follows.reaches

/-- It has the core classes and nothing else, and nothing is going on in it. -/
theorem broughtUp_idle : broughtUp.state = .up ∧ broughtUp.parked = none ∧
    broughtUp.machine.frames = [] ∧
    broughtUp.machine.heap.slots.size = CoreClass.all.length := by
  obtain ⟨heap, symbols, methods, hboot, hsize, -⟩ := Machine.boot_frame
  unfold broughtUp
  rw [hboot]
  exact ⟨rfl, rfl, rfl, hsize⟩

/-- There is room for an exception and its description beside the core classes. -/
theorem hasRoom_of_core (hframes : w.machine.frames = [])
    (hsize : w.machine.heap.slots.size = CoreClass.all.length) :
    w.machine.heap.HasRoom (w.roomToRaise + 1) := by
  unfold Heap.HasRoom roomToRaise
  rw [hsize, hframes]
  decide

/-- There 300 is read as a number of 16 bits, and minus one as none without a sign. -/
theorem round_trips_broughtUp :
    let r : Reentry Unit := .ofFuel 3
    let w₀ : World Unit := { memory := () }
    let w := broughtUp
    w₀.ids = {} ∧ w₀.Reaches AnyProbe w ∧ w.state = .up ∧ w.machine.OwnDescriptions ∧
    w.machine.heap.HasRoom (w.roomToRaise + 1) ∧
    (∃ v w₁, (Operation.writeInt .i64 300).answer r w = .ok (.ok v) w₁ ∧
      (Operation.readInt .u16 v).answer r w₁ = .ok (some 300) w₁) ∧
    ∃ v w₁ error w₂, (Operation.writeInt .i8 (-1)).answer r w = .ok (.ok v) w₁ ∧
      (Operation.readInt .usize v).answer r w₁ = .ok none w₂ ∧
      w₂.history = w.history.record error := by
  intro r w₀ w
  obtain ⟨hup, hparked, hframes, hsize⟩ := broughtUp_idle
  have hroom := hasRoom_of_core hframes hsize
  have hspared : w₀.Reaches (fun _ => False) w := reaches_broughtUp
  have hown : w.machine.OwnDescriptions :=
    hspared.ownDescriptions (fun _ _ _ hprobe => hprobe.elim) Machine.ownDescriptions_boot
  obtain ⟨hnumbers, -, -⟩ := round_trips 0 rfl reaches_broughtUp hup hown hroom
  refine ⟨rfl, reaches_broughtUp, hup, hown, hroom, ?_, ?_⟩
  · obtain ⟨v, w₁, hwritten, -, hread⟩ := hnumbers .i64 300 (by decide)
    exact ⟨v, w₁, hwritten, (hread .u16).1 (by decide)⟩
  · obtain ⟨v, w₁, hwritten, -, hread⟩ := hnumbers .i8 (-1) (by decide)
    rcases (hread .usize).2 (by decide) with ⟨error, w₂, hnone, hhistory⟩ | ⟨p, w₂, hwaits, -⟩
    · exact ⟨v, w₁, error, w₂, hwritten, hnone, hhistory⟩
    · rw [hparked] at hwaits
      cases hwaits

end World

end EmbeddedRuby
