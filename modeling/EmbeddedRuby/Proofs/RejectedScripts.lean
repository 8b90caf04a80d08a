import EmbeddedRuby.Proofs.Backtraces
import EmbeddedRuby.Proofs.RoundTrips
import EmbeddedRuby.Proofs.SyntaxFaults

/-!
# Scripts that are rejected

A script with a fault in it is not run at all, whatever stands before the fault.  The host is told of a
`SyntaxError` with the line and the message of the first fault, or a panic that waits goes on; either
way all modules are as they were, no method has been defined and nothing has been printed
(`Machine.DefinesNothing`).

The main statement is `Vm.load_of_rejected`.
-/

namespace EmbeddedRuby

open Eval

variable {σ : Type}

/-! ### Nothing is defined -/

/-- A new object that is no module changes none, and becomes none. -/
theorem Heap.module?_alloc (h : Heap) (cls : Value) {b : Body} (hother : ∀ data, b ≠ .ofModule data)
    (v : Value) : (h.alloc cls b).2.module? v = h.module? v := by
  cases hbefore : h.module? v with
  | some data =>
      exact module?_eq_some_iff.mpr (body?_alloc_of_some (module?_eq_some_iff.mp hbefore) cls b)
  | none =>
      refine Option.eq_none_iff_forall_ne_some.mpr fun data hdata => ?_
      exact hother data (module?_alloc_new hbefore hdata).2

/-- The same modules are there, with the same constants and class variables, and the same methods; and
nothing was printed. -/
structure Machine.DefinesNothing (m m' : Machine) : Prop where
  modules : ∀ v, m'.heap.module? v = m.heap.module? v
  methods : m'.methods = m.methods
  printed : m'.printed = m.printed

namespace Machine.DefinesNothing

variable {m m₁ m₂ : Machine}

/-- Nothing is defined where objects, methods and output are as they were. -/
theorem of_heap (hheap : m₁.heap = m.heap) (hmethods : m₁.methods = m.methods)
    (hprinted : m₁.printed = m.printed) : m.DefinesNothing m₁ :=
  ⟨fun _ => by rw [hheap], hmethods, hprinted⟩

/-- Nothing is defined in two stretches if nothing is in each. -/
theorem trans (hfirst : m.DefinesNothing m₁) (hlater : m₁.DefinesNothing m₂) :
    m.DefinesNothing m₂ where
  modules v := (hlater.modules v).trans (hfirst.modules v)
  methods := hlater.methods.trans hfirst.methods
  printed := hlater.printed.trans hfirst.printed

/-- A new object that is no module defines nothing. -/
theorem alloc (m : Machine) (cls : Value) {b : Body} (hother : ∀ data, b ≠ .ofModule data) :
    m.DefinesNothing (m.alloc cls b).2 :=
  ⟨m.heap.module?_alloc cls hother, rfl, rfl⟩

/-- A new text defines nothing. -/
theorem newText (m : Machine) (text : String) : m.DefinesNothing (m.newText text).2 :=
  alloc m _ nofun

/-- Any number of new texts define nothing. -/
theorem newTexts (m : Machine) (texts : List String) : m.DefinesNothing (m.newTexts texts).2 := by
  induction texts generalizing m with
  | nil => exact .of_heap rfl rfl rfl
  | cons text rest ih => exact (newText m text).trans (ih _)

/-- A new exception defines nothing. -/
theorem newException (m : Machine) (fault : Fault) : m.DefinesNothing (m.newException fault).2 := by
  let made := (m.newText fault.message).2
  have htrace : made.DefinesNothing made.backtrace.2 :=
    (newTexts made (made.frames.map Frame.render)).trans (alloc _ _ nofun)
  exact ((newText m fault.message).trans htrace).trans (alloc _ _ nofun)

end Machine.DefinesNothing

namespace World

variable {w w' : World σ}

/-- Raising an exception for a fault defines nothing, and neither does leaving an operation with it. -/
theorem definesNothing_described (w : World σ) (fault : Fault) :
    w.machine.DefinesNothing (w.described fault).machine :=
  (Machine.DefinesNothing.newException w.machine fault).trans (.of_heap rfl rfl rfl)

/-- Getting to know a name defines nothing. -/
theorem definesNothing_knowing (w : World σ) (name : String) :
    w.machine.DefinesNothing (w.knowing name).machine := by
  unfold knowing
  split <;> exact .of_heap rfl rfl rfl

/-- Nothing is defined where an exception is described by the interpreter's own methods. -/
theorem Recounts.definesNothing (h : w.Recounts w') : w.machine.DefinesNothing w'.machine := by
  induction h with
  | refl => exact .of_heap rfl rfl rfl
  | addText _ text ih => exact ih.trans (.newText _ text)
  | knowing _ name ih => exact ih.trans (definesNothing_knowing _ name)

end World

/-- How the host is told of a fault of the script at this path. -/
def SyntaxError.shownIn (file : String) (e : SyntaxError) : String :=
  s!"#<SyntaxError: {file}:{e.line}: {e.fault.message}>"

namespace Vm

variable {w w₀ : World σ} {path file : String} {text : List Char} {e : SyntaxError}

/-- An interpreter that is brought up gets to know where scripts are looked for, and it is counted. -/
theorem ensureSetup_cases (hup : ensureSetup.run w = .ok (.ok ()) w₀) :
    w₀ = w ∨ ∃ loadPath, w₀ =
      { w.fillCallbacks with machine := { w.machine.setUp.2 with loadPath }, state := .up } := by
  rw [ensureSetup_run_apply, setup_run_apply] at hup
  cases hstate : w.state with
  | up =>
      rw [hstate] at hup
      cases hup
      exact .inl rfl
  | failed error | cleanedUp =>
      rw [hstate] at hup
      cases hup
  | unknown =>
      rw [hstate] at hup
      simp only at hup
      cases hstart : (start {}).run w with
      | error exit w₁ =>
          rw [hstart] at hup
          cases hup
      | ok result w₁ =>
          rw [hstart] at hup
          cases result with
          | error error => cases hup
          | ok value =>
              cases hup
              generalize hresult : (Except.ok value : Except Error Unit) = result at hstart
              cases (start_cases hstart).2 with
              | refused | badArguments => cases hresult
              | @ran arguments =>
                  obtain ⟨loadPath, heq⟩ := w.machine.setUp.2.options_eq arguments
                  exact .inr ⟨loadPath, by rw [heq]⟩

/-- Nothing is defined by that, and a panic that waits goes on waiting. -/
theorem definesNothing_ensureSetup (hup : ensureSetup.run w = .ok (.ok ()) w₀) :
    w.machine.DefinesNothing w₀.machine ∧ w₀.parked = w.parked := by
  rcases ensureSetup_cases hup with rfl | ⟨loadPath, rfl⟩
  · exact ⟨.of_heap rfl rfl rfl, rfl⟩
  · exact ⟨.of_heap rfl rfl rfl, rfl⟩

/-- Loading a script that is rejected raises the fault and does nothing else. -/
theorem load_eq_raise {r : Reentry σ} {wrap : Bool}
    (hfound : Loader.read? w.machine path = some (file, text))
    (hrejected : Source.parse text = .error e) :
    Loader.load r path wrap w = raise (.syntaxFault file e) w := by
  unfold Loader.load
  rw [machine_bind_apply, hfound]
  dsimp only
  rw [hrejected]

/-- The fault of a script that is rejected leaves the operation by its barrier, and surfaces. -/
theorem answer_of_rejected {r : Reentry σ} {u : World σ} {fault : Fault}
    (hu : u = withPath w₀ path) (hfault : fault = .syntaxFault file e)
    (hup : ensureSetup.run w = .ok (.ok ()) w₀) (hroom : w₀.machine.heap.Addressable)
    (hfound : Loader.read? w₀.machine path = some (file, text))
    (hrejected : Source.parse text = .error e) (wrap : Bool) :
    Operation.answer r (.load (Utf8.encodeString path) wrap) w =
      (surface r (.raised (u.machine.newException fault).1) >>= fun error => pure (Except.error error))
        ((u.raising fault).restored u) := by
  subst hu hfault
  have hraised : Loader.load r path wrap (withPath w₀ path) =
      .error (.jump (.raised ((withPath w₀ path).machine.newException (.syntaxFault file e)).1))
        ((withPath w₀ path).raising (.syntaxFault file e)) :=
    load_eq_raise hfound hrejected
  change settled r (load r (Utf8.encodeString path) wrap) w = _
  rw [settled_apply, load_run_of_raised hup hroom hraised, ← map_eq_pure_bind]

/-- The exception shows the path of the script and the line. -/
theorem shownAs_syntaxFault {m : Machine} (hnamed : m.heap.CoreNamed) {fault : Fault}
    (hfault : fault = .syntaxFault file e) :
    Methods.shownAs (m.moduleName fault.cls.value) fault.message = e.shownIn file := by
  subst hfault
  have hsaid : (Fault.syntaxFault file e).message = s!"{file}:{e.line}: " ++ e.fault.message := rfl
  have htext : ∀ text : String, toString text = text := fun _ => rfl
  have hsome : (Fault.syntaxFault file e).message ≠ "" := by
    rw [hsaid]
    simp [htext]
  have hcls : (Fault.syntaxFault file e).cls = .syntaxError := rfl
  have hclass : "#<" ++ CoreClass.syntaxError.name ++ ": " = "#<SyntaxError: " := by decide
  unfold Methods.shownAs SyntaxError.shownIn
  rw [hcls, Machine.moduleName_core hnamed, if_neg hsome, hsaid]
  simp only [htext, hclass, String.append_assoc]

section

variable (hup : ensureSetup.run w = .ok (.ok ()) w₀)
  (hroom : w₀.machine.heap.HasRoom (w₀.roomToRaise + 1))
  (hfound : Loader.read? w₀.machine path = some (file, text))
  (hrejected : Source.parse text = .error e) (wrap : Bool)

include hup

/-- Nothing has been defined when the fault of a script is described. -/
theorem definesNothing_rejected (path : String) (fault : Fault) :
    w.machine.DefinesNothing ((withPath w₀ path).described fault).machine := by
  have hpath : w₀.machine.DefinesNothing (withPath w₀ path).machine := .newText w₀.machine path
  exact ((definesNothing_ensureSetup hup).1.trans hpath).trans
    ((withPath w₀ path).definesNothing_described fault)

include hroom hfound hrejected

/-- A panic that waits goes on in the place of the fault. -/
theorem panics_of_rejected {r : Reentry σ} {p : Panic} (hparked : w.parked = some p) :
    ∃ w', w.machine.DefinesNothing w'.machine ∧
      Operation.answer r (.load (Utf8.encodeString path) wrap) w = .error (.panic p) w' := by
  let fault := Fault.syntaxFault file e
  let u := withPath w₀ path
  have hanswer := answer_of_rejected (r := r) (u := u) rfl (rfl : fault = .syntaxFault file e) hup
    hroom.addressable hfound hrejected wrap
  have hleft : ((u.raising fault).restored u).parked = some p :=
    (definesNothing_ensureSetup hup).2.trans hparked
  have hsurfaced : surface r (.raised (u.machine.newException fault).1)
      ((u.raising fault).restored u) = .error (.panic p) ((u.described fault).resume p) := by
    rw [surface_apply, hleft]
    rfl
  exact ⟨(u.described fault).resume p,
    (definesNothing_rejected hup path fault).trans (.of_heap rfl rfl rfl),
    hanswer.trans (bind_error_iff.mpr (.inl hsurfaced))⟩

/-- The host is told of the fault if no panic waits. -/
theorem told_of_rejected (fuel : Nat) (hcore : w.machine.heap.CoreNamed) (hnames : w.NamesAgree)
    (hown : w.machine.OwnDescriptions) (hparked : w.parked = none) :
    ∃ lines w', w.machine.DefinesNothing w'.machine ∧
      Operation.answer (.ofFuel (fuel + 3)) (.load (Utf8.encodeString path) wrap) w =
        .ok (.error (.exception ⟨e.shownIn file, lines⟩)) w' := by
  let fault := Fault.syntaxFault file e
  let u := withPath w₀ path
  have hanswer := answer_of_rejected (r := .ofFuel (fuel + 3)) (u := u) rfl
    (rfl : fault = .syntaxFault file e) hup hroom.addressable hfound hrejected wrap
  have hwaiting : u.parked = none := (definesNothing_ensureSetup hup).2.trans hparked
  -- The class has the name that it was made with, and the methods that describe it are its own.
  have hreached : w.Reaches NoProbes u := reaches_withPath hup path
  have hnamed : (u.raising fault).machine.heap.CoreNamed :=
    hcore.of_evolves (hreached.evolves.trans (u.machine.newException_evolves fault))
  obtain ⟨lines, w', hrecounts, hsurfaced⟩ := World.surface_raising_recounts fuel fault
    (hreached.ownDescriptions (fun _ _ _ hprobe => hprobe.elim) hown)
    (hreached.namesAgree hnames) hwaiting (hroom.alloc _ _)
  rw [shownAs_syntaxFault hnamed rfl] at hsurfaced
  refine ⟨lines, _, ?_, hanswer.trans (bind_ok_iff.mpr ⟨_, _, hsurfaced, rfl⟩)⟩
  exact ((definesNothing_rejected hup path fault).trans hrecounts.definesNothing).trans
    (.of_heap rfl rfl rfl)

end

/-- **A script that is rejected.**  At every moment of a run which the host has begun with the core
classes and without knowing the number of any name, let the interpreter be up or come up, describe
exceptions by its own methods, and have room for an exception and its description; and let a script be
loaded that the parser refuses.  Then the fault `e` for which it is refused is the first one of its
lines, and

* the host is told of a `SyntaxError` with the path of the script, the line and the message of that
  fault, if no panic waits;
* a panic that was left behind by an earlier operation goes on in its place, if one waits.

Either way no module, constant or class variable was made or changed, and nothing was printed. -/
theorem load_of_rejected (fuel : Nat) {v : World σ} (hids : v.ids = {})
    (hcore : v.machine.heap.CoreNamed) (hreached : v.Reaches AnyProbe w)
    (hown : w.machine.OwnDescriptions) (hup : ensureSetup.run w = .ok (.ok ()) w₀)
    (hroom : w₀.machine.heap.HasRoom (w₀.roomToRaise + 1))
    (hfound : Loader.read? w₀.machine path = some (file, text))
    (hrejected : Source.parse text = .error e) (wrap : Bool) :
    Source.FirstFault (Text.lines text) e ∧
    ∃ w', w.machine.DefinesNothing w'.machine ∧
      let answer := Operation.answer (.ofFuel (fuel + 3)) (.load (Utf8.encodeString path) wrap) w
      (w.parked = none →
        ∃ lines, answer = .ok (.error (.exception ⟨e.shownIn file, lines⟩)) w') ∧
      ∀ p, w.parked = some p → answer = .error (.panic p) w' := by
  refine ⟨(Source.parse_eq_error_iff text e).mp hrejected, ?_⟩
  cases hparked : w.parked with
  | some p =>
      obtain ⟨w', hnothing, hpanics⟩ := panics_of_rejected hup hroom hfound hrejected wrap hparked
      exact ⟨w', hnothing, nofun, fun q hq => Option.some.inj hq ▸ hpanics⟩
  | none =>
      obtain ⟨lines, w', hnothing, htold⟩ := told_of_rejected hup hroom hfound hrejected wrap fuel
        (hcore.of_evolves hreached.evolves)
        (hreached.namesAgree (World.namesAgree_of_unasked hids)) hown hparked
      exact ⟨w', hnothing, fun _ => ⟨lines, htold⟩, nofun⟩

/-- A script in which something is misspelt, after a constant was defined. -/
def misspeltText : String :=
  "class K\n  A = 1\n  bogus\nend\n"

/-- A world with that script, in which nothing has been done yet; a panic may wait there. -/
def misspelt (m : Machine) (parked : Option Panic) : World Unit where
  machine := { m with files := { nodes := [(["work", "k.rb"], .file misspeltText.toUTF8.toList)] } }
  parked := parked
  memory := ()

/-- The misspelt script is found under its path. -/
theorem read?_misspelt {m : Machine} (hpath : m.loadPath = [])
    (hfiles : m.files = { nodes := [(["work", "k.rb"], .file misspeltText.toUTF8.toList)] }) :
    Loader.read? m "k.rb" = some ("k.rb", misspeltText.toList) := by
  unfold Loader.read? Loader.find?
  rw [hpath, hfiles]
  decide +kernel

/-- The interpreter describes exceptions there as it does without the script. -/
theorem ownDescriptions_misspelt {m : Machine} (hm : m.OwnDescriptions) (parked : Option Panic) :
    (misspelt m parked).machine.OwnDescriptions :=
  ⟨hm.shown, hm.text, hm.traced, hm.joined⟩

/-- A fresh interpreter comes up in that world, and finds the script. -/
theorem exists_up_misspelt (parked : Option Panic) :
    ∃ w₀, ensureSetup.run (misspelt Machine.boot parked) = .ok (.ok ()) w₀ ∧
      w₀.machine.heap.HasRoom (w₀.roomToRaise + 1) ∧
      Loader.read? w₀.machine "k.rb" = some ("k.rb", misspeltText.toList) := by
  obtain ⟨heap, symbols, methods, hboot, hsize, -⟩ := Machine.boot_frame
  rw [hboot]
  let w := misspelt { heap, symbols, methods } parked
  let w₀ : World Unit := { w.fillCallbacks with machine := w.machine.setUp.2, state := .up }
  exact ⟨w₀, rfl, World.hasRoom_of_core rfl hsize, read?_misspelt rfl rfl⟩

/-- The script is refused for its third line. -/
theorem parse_misspelt :
    Source.parse misspeltText.toList = .error ⟨3, .unexpected "bogus".toList⟩ := by
  have hrefused : (Source.parse misspeltText.toList).map (fun _ => ()) =
      .error ⟨3, .unexpected "bogus".toList⟩ := by
    decide +kernel
  cases hparse : Source.parse misspeltText.toList with
  | error e =>
      rw [hparse] at hrefused
      rw [Except.error.inj hrefused]
  | ok statements =>
      rw [hparse] at hrefused
      cases hrefused

/-- The host is told of that line, unless a panic waits. -/
theorem load_of_rejected_misspelt :
    (∃ lines w', Operation.answer (.ofFuel 3) (.load (Utf8.encodeString "k.rb") false)
          (misspelt Machine.boot none) =
        .ok (.error (.exception ⟨"#<SyntaxError: k.rb:3: unexpected 'bogus'>", lines⟩)) w' ∧
      (misspelt Machine.boot none).machine.DefinesNothing w'.machine) ∧
    ∀ p, ∃ w', Operation.answer (.ofFuel 3) (.load (Utf8.encodeString "k.rb") false)
      (misspelt Machine.boot (some p)) = .error (.panic p) w' := by
  have hcore : ∀ {m : Machine} parked, m.heap.CoreNamed → (misspelt m parked).machine.heap.CoreNamed :=
    fun _ hm => hm
  constructor
  · obtain ⟨w₀, hup, hroom, hfound⟩ := exists_up_misspelt none
    obtain ⟨-, w', hnothing, htold, -⟩ := load_of_rejected 0 rfl (hcore none Machine.boot_coreNamed)
      .refl (ownDescriptions_misspelt Machine.ownDescriptions_boot none) hup hroom hfound
      parse_misspelt false
    obtain ⟨lines, hanswer⟩ := htold rfl
    have hshown : SyntaxError.shownIn "k.rb" ⟨3, .unexpected "bogus".toList⟩ =
        "#<SyntaxError: k.rb:3: unexpected 'bogus'>" := by
      decide +kernel
    rw [hshown] at hanswer
    exact ⟨lines, w', hanswer, hnothing⟩
  · intro p
    obtain ⟨w₀, hup, hroom, hfound⟩ := exists_up_misspelt (some p)
    obtain ⟨-, w', -, -, hpanics⟩ := load_of_rejected 0 rfl
      (hcore (some p) Machine.boot_coreNamed) .refl
      (ownDescriptions_misspelt Machine.ownDescriptions_boot (some p)) hup hroom hfound
      parse_misspelt false
    exact ⟨w', hpanics p rfl⟩

end Vm

end EmbeddedRuby
