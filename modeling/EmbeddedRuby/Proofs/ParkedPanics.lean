import EmbeddedRuby.Proofs.Follows.Programs

/-!
# What becomes of the panics of callbacks

A panic of a callback cannot pass through the interpreter.  It is parked, an exception is raised in
its place, and the operation whose barrier stops that exception goes on with the panic.  But not
every barrier belongs to an operation: while an exception is described, methods of it are called by
quiet tasks, and a quiet task that fails takes notice of nothing.  A panic that was parked in it
goes on waiting, and the next operation that is left by a jump takes it up.

The log of a world (`World.panicLog`) says what has become of the panics so far.  What is stated
here holds as long as the host does not run tasks past the operations (`NoAttempts`).  The main
statements are:

* `Course.panicsKept`: in every run a panic that is parked is taken up or passed over before
  anything else happens to panics, and only what waits is taken up;
* `Program.panicsKept_run`: what these statements assume of a world holds in every world that a
  program leads to from a fresh one;
* `Request.parked_iff_overlooked`: after a request a panic waits if and only if the last thing that
  has happened to panics is that a quiet task passed one over; what was taken up in the request was
  parked in it, or waited when it began.
-/

namespace EmbeddedRuby

open Eval

variable {σ : Type}

namespace PanicEvent

/-- The panic that waits after these events, the latest first. -/
def waiting : List PanicEvent → Option Panic
  | parked p :: _ | overlooked p :: _ => some p
  | resumed _ :: _ | [] => none

/-- The latest event is not that a panic was parked. -/
def AtRest (log : List PanicEvent) : Prop :=
  ∀ p, log.head? ≠ some (parked p)

/-- A panic is parked only at rest, and only the panic that waits is passed over or taken up. -/
def Orderly : List PanicEvent → Prop
  | [] => True
  | parked _ :: log => AtRest log ∧ Orderly log
  | overlooked p :: log | resumed p :: log => waiting log = some p ∧ Orderly log

/-- Where no panic waits, none was parked last. -/
theorem atRest_of_waiting_none {log : List PanicEvent} (h : waiting log = none) : AtRest log := by
  intro p hp
  cases log with
  | nil => cases hp
  | cons event rest =>
      simp only [List.head?_cons, Option.some.injEq] at hp
      subst hp
      cases h

/-- At rest, a panic waits exactly if it was passed over last. -/
theorem waiting_eq_some_iff {log : List PanicEvent} (h : AtRest log) (p : Panic) :
    waiting log = some p ↔ log.head? = some (overlooked p) := by
  cases log with
  | nil => simp [waiting]
  | cons event rest =>
      cases event with
      | parked q => exact absurd rfl (h q)
      | overlooked q => simp [waiting]
      | resumed q => simp [waiting]

/-- What happened first in an orderly log is orderly by itself. -/
theorem Orderly.of_append {front back : List PanicEvent} (h : Orderly (front ++ back)) :
    Orderly back := by
  induction front with
  | nil => exact h
  | cons event rest ih =>
      apply ih
      cases event <;> exact h.2

/-- The event after a panic was parked is that this panic was passed over or taken up. -/
theorem Orderly.after_parked {event : PanicEvent} {p : Panic} {earlier : List PanicEvent}
    (h : Orderly (event :: parked p :: earlier)) : event = overlooked p ∨ event = resumed p := by
  cases event with
  | parked q => exact absurd rfl (h.1 p)
  | overlooked q =>
      obtain rfl : p = q := Option.some.inj h.1
      exact .inl rfl
  | resumed q =>
      obtain rfl : p = q := Option.some.inj h.1
      exact .inr rfl

/-- If all ends at rest, what has happened next to a panic that was parked is known. -/
theorem Orderly.next_after_parked {later earlier : List PanicEvent} {p : Panic}
    (h : Orderly (later ++ parked p :: earlier))
    (hrest : AtRest (later ++ parked p :: earlier)) :
    ∃ rest, later = rest ++ [resumed p] ∨ later = rest ++ [overlooked p] := by
  rcases List.eq_nil_or_concat later with rfl | ⟨rest, event, rfl⟩
  · exact absurd rfl (hrest p)
  · rw [List.concat_eq_append, List.append_assoc] at h
    refine ⟨rest, ?_⟩
    rcases h.of_append.after_parked with rfl | rfl
    · exact .inr List.concat_eq_append
    · exact .inl List.concat_eq_append

/-- A panic that waits was parked since then, or waited then already. -/
theorem Orderly.parked_mem_of_waiting {new old : List PanicEvent} (h : Orderly (new ++ old))
    {p : Panic} (hp : waiting (new ++ old) = some p) : parked p ∈ new ∨ waiting old = some p := by
  induction new with
  | nil => exact .inr hp
  | cons event rest ih =>
      cases event with
      | parked q =>
          obtain rfl : q = p := Option.some.inj hp
          exact .inl List.mem_cons_self
      | overlooked q =>
          obtain rfl : q = p := Option.some.inj hp
          exact (ih h.2 h.1).imp_left (List.mem_cons_of_mem _)
      | resumed q => cases hp

/-- What is taken up was parked since then, or waited then already. -/
theorem Orderly.parked_mem_of_resumed {new old : List PanicEvent} (h : Orderly (new ++ old))
    {p : Panic} (hp : resumed p ∈ new) : parked p ∈ new ∨ waiting old = some p := by
  obtain ⟨later, earlier, rfl⟩ := List.append_of_mem hp
  rw [List.append_assoc, List.cons_append] at h
  obtain ⟨hwaiting, hearlier⟩ := h.of_append
  refine (hearlier.parked_mem_of_waiting hwaiting).imp_left fun hmem => ?_
  exact List.mem_append_right _ (List.mem_cons_of_mem _ hmem)

end PanicEvent

open PanicEvent

/-- The panic that waits is the one that its log says waits, and the log is in order. -/
structure World.PanicsKept (w : World σ) : Prop where
  parked : w.parked = waiting w.panicLog
  orderly : Orderly w.panicLog

/-- Panics are in order as long as nothing happens to them. -/
theorem World.PanicsKept.of_eq {w w' : World σ} (h : w.PanicsKept)
    (hparked : w'.parked = w.parked) (hlog : w'.panicLog = w.panicLog) : w'.PanicsKept := by
  refine ⟨?_, ?_⟩
  · rw [hparked, hlog]
    exact h.parked
  · rw [hlog]
    exact h.orderly

/-- After a quiet task has failed everything is in order and at rest. -/
theorem World.PanicsKept.overlook {w : World σ} (h : w.PanicsKept) :
    w.overlook.PanicsKept ∧ AtRest w.overlook.panicLog := by
  unfold World.overlook
  cases hparked : w.parked with
  | none => exact ⟨h, atRest_of_waiting_none (h.parked.symm.trans hparked)⟩
  | some p =>
      have hwaiting : waiting w.panicLog = some p := h.parked.symm.trans hparked
      refine ⟨⟨rfl, hwaiting, h.orderly⟩, ?_⟩
      intro q hq
      cases hq

/-- What a part of a run that begins at rest leaves behind: everything in order, and at rest again
unless an exception has come out. -/
structure PanicsAfter (ending : Ending) (w' : World σ) : Prop where
  kept : w'.PanicsKept
  rest : (∀ exception, ending ≠ .raised exception) → AtRest w'.panicLog

/-- Panics are in order after a part of a run in which nothing happens to them. -/
theorem PanicsAfter.of_eq {w w' : World σ} {ending : Ending} (hkept : w.PanicsKept)
    (hrest : AtRest w.panicLog) (hparked : w'.parked = w.parked)
    (hlog : w'.panicLog = w.panicLog) : PanicsAfter ending w' := by
  refine ⟨hkept.of_eq hparked hlog, ?_⟩
  rw [hlog]
  exact fun _ => hrest

/-- No step of a run does anything to panics. -/
theorem World.Step.panics_eq {w w' : World σ} (h : w.Step w') :
    w'.parked = w.parked ∧ w'.panicLog = w.panicLog := by
  cases h with
  | setup hunknown hstart =>
      cases (Vm.start_cases hstart).2 <;> exact ⟨rfl, rfl⟩
  | _ => exact ⟨rfl, rfl⟩

/-- A probe does nothing to panics. -/
theorem Probe.Step.panics_eq {probe : Probe} {w w' : World σ} (h : probe.Step w w') :
    w'.parked = w.parked ∧ w'.panicLog = w.panicLog := by
  cases h <;> exact ⟨rfl, rfl⟩

/-- Filling the place of a callback does nothing to panics. -/
theorem World.setCallback_panics (w : World σ) (kind : CallbackKind) (callback : Callback σ) :
    (w.setCallback kind callback).parked = w.parked ∧
      (w.setCallback kind callback).panicLog = w.panicLog := by
  cases kind <;> exact ⟨rfl, rfl⟩

/-- The log of a run is longer than the log before it, or the same, and then the same panic waits.
-/
def PanicsLogged (w w' : World σ) : Prop :=
  w.panicLog.length < w'.panicLog.length ∧ w.panicLog <:+ w'.panicLog ∨
    w'.parked = w.parked ∧ w'.panicLog = w.panicLog

/-- What has happened stays in the log. -/
theorem PanicsLogged.suffix {w w' : World σ} (h : PanicsLogged w w') :
    w.panicLog <:+ w'.panicLog := by
  rcases h with ⟨_, hsuffix⟩ | ⟨_, hsame⟩
  · exact hsuffix
  · exact hsame ▸ List.suffix_refl _

/-- If nothing has been added to the log, the same panic waits. -/
theorem PanicsLogged.parked_eq {w w' : World σ} (h : PanicsLogged w w')
    (hlog : w'.panicLog = w.panicLog) : w'.parked = w.parked := by
  rcases h with ⟨hlonger, _⟩ | ⟨hparked, _⟩
  · rw [hlog] at hlonger
    exact absurd hlonger (Nat.lt_irrefl _)
  · exact hparked

/-- Two parts of a run log one after the other. -/
theorem PanicsLogged.trans {w w₁ w₂ : World σ} (h₁ : PanicsLogged w w₁)
    (h₂ : PanicsLogged w₁ w₂) : PanicsLogged w w₂ := by
  have hsuffix := h₁.suffix.trans h₂.suffix
  rcases h₁ with ⟨hlonger, _⟩ | ⟨hparked, hlog⟩
  · exact .inl ⟨Nat.lt_of_lt_of_le hlonger h₂.suffix.length_le, hsuffix⟩
  · rcases h₂ with ⟨hlonger, _⟩ | ⟨hparked', hlog'⟩
    · rw [hlog] at hlonger
      exact .inl ⟨hlonger, hsuffix⟩
    · exact .inr ⟨hparked'.trans hparked, hlog'.trans hlog⟩

/-- One event more makes the log longer. -/
theorem PanicsLogged.cons {w w' : World σ} {event : PanicEvent}
    (h : w'.panicLog = event :: w.panicLog) : PanicsLogged w w' := by
  refine .inl ⟨?_, ?_⟩
  · rw [h]
    exact Nat.lt_succ_self _
  · rw [h]
    exact List.suffix_cons _ _

/-- Passing a panic over is one event, if one waits. -/
theorem World.overlook_panicsLogged (w : World σ) : PanicsLogged w w.overlook := by
  unfold World.overlook
  cases w.parked with
  | none => exact .inr ⟨rfl, rfl⟩
  | some p => exact .cons rfl

/-- Nothing happens to panics that is not in the log. -/
theorem Course.panicsLogged {P : Probe → Prop} {script : Option Nat} {w w' : World σ}
    {ending : Ending} (h : Course P script w ending w') : PanicsLogged w w' := by
  induction h with
  | done | raise | raiseObject | breakOut | crash | exhausted | setLine | openBody | closeBody
  | addProc => exact .inr ⟨rfl, rfl⟩
  | step h => exact .inr h.panics_eq
  | @register w kind run => exact .inr (w.setCallback_panics kind (.custom run))
  | probe hprobe h => exact .inr h.panics_eq
  | seq first rest ih₁ ih₂ => exact ih₁.trans ih₂
  | block inner ih | blockLeft inner hexit ih | script inner ih | scriptLeft inner ih
  | iterate inner ih | settled inner hparked ih | attempt hprobe inner ih | ordinary inner ih
  | caught inner ih => exact ih
  | @callback w w₁ p inner ih =>
      have hpark : PanicsLogged w₁ ((w₁.park p).raising .callbackPanicked) := .cons rfl
      exact ih.trans hpark
  | @resumed w w₁ jump p inner hparked ih =>
      have hresume : PanicsLogged w₁ ((w₁.restored w).withoutPending.resume p) := .cons rfl
      exact ih.trans hresume
  | @quiet w w₁ jump inner ih =>
      exact PanicsLogged.trans ih (World.overlook_panicsLogged (w₁.restored w).withoutPending)

/-- The host runs no tasks past the operations. -/
def NoAttempts : Probe → Prop
  | .attempt _ => False
  | _ => True

/-- In every run a panic that is parked is taken up or passed over before anything else happens to
panics, and only what waits is taken up. -/
theorem Course.panicsKept {script : Option Nat} {w w' : World σ} {ending : Ending}
    (h : Course NoAttempts script w ending w') (hkept : w.PanicsKept)
    (hrest : AtRest w.panicLog) : PanicsAfter ending w' := by
  induction h with
  | done | raise | raiseObject | breakOut | crash | exhausted | setLine | openBody | closeBody
  | addProc => exact .of_eq hkept hrest rfl rfl
  | step h => exact .of_eq hkept hrest h.panics_eq.1 h.panics_eq.2
  | @register w kind run =>
      obtain ⟨hparked, hlog⟩ := w.setCallback_panics kind (.custom run)
      exact .of_eq hkept hrest hparked hlog
  | probe _ h => exact .of_eq hkept hrest h.panics_eq.1 h.panics_eq.2
  | attempt hprobe => exact hprobe.elim
  | seq first rest ih₁ ih₂ =>
      have hfirst := ih₁ hkept hrest
      exact ih₂ hfirst.kept (hfirst.rest (by simp))
  | block inner ih | blockLeft inner hexit ih | script inner ih | scriptLeft inner ih =>
      have hinner := ih (hkept.of_eq rfl rfl) hrest
      exact ⟨hinner.kept.of_eq rfl rfl, hinner.rest⟩
  | iterate inner ih | caught inner ih =>
      have hinner := ih hkept hrest
      exact ⟨hinner.kept.of_eq rfl rfl, fun _ => hinner.rest (by simp)⟩
  | ordinary inner ih => exact ih hkept hrest
  | @callback w w₁ p inner ih =>
      have hinner := ih hkept hrest
      -- A panic has come out of the callback and no exception, so the log is at rest.
      have horder : Orderly (w₁.park p).panicLog := ⟨hinner.rest (by simp), hinner.kept.orderly⟩
      exact ⟨⟨rfl, horder⟩, fun hraised => absurd rfl (hraised _)⟩
  | @settled w w₁ jump inner hparked ih =>
      have hinner := ih hkept hrest
      refine ⟨hinner.kept.of_eq rfl rfl, fun _ => ?_⟩
      apply atRest_of_waiting_none
      exact hinner.kept.parked.symm.trans hparked
  | @resumed w w₁ jump p inner hparked ih =>
      have hinner := ih hkept hrest
      have hwaiting : waiting w₁.panicLog = some p := hinner.kept.parked.symm.trans hparked
      refine ⟨⟨rfl, hwaiting, hinner.kept.orderly⟩, ?_⟩
      intro _ q hq
      cases hq
  | @quiet w w₁ jump inner ih =>
      have hinner := ih hkept hrest
      have hcleared : (w₁.restored w).withoutPending.PanicsKept := hinner.kept.of_eq rfl rfl
      exact ⟨hcleared.overlook.1, fun _ => hcleared.overlook.2⟩

/-- In a fresh world no panic has come up. -/
theorem World.panicsKept_fresh (memory : σ) :
    ({ memory } : World σ).PanicsKept ∧ AtRest ({ memory } : World σ).panicLog :=
  ⟨⟨rfl, trivial⟩, atRest_of_waiting_none rfl⟩

/-- A program keeps the panics in order, whatever it gives. -/
theorem Program.panicsKept_run (fuel : Nat) {role : Role} (program : Program σ role) (w : World σ)
    (hprogram : program.Uses NoAttempts)
    (hhost : w.HostCode NoAttempts)
    (hkept : w.PanicsKept)
    (hrest : AtRest w.panicLog) :
    let w' := Outcome.world (program.run (.ofFuel fuel) w)
    w'.PanicsKept ∧ AtRest w'.panicLog := by
  have hsettles := program.settles_run (Reentry.follows_ofFuel NoAttempts fuel) hprogram w hhost
  obtain ⟨hkept', hrest'⟩ := hsettles.follows.panicsKept hkept hrest
  exact ⟨hkept', hrest' fun exception => hsettles.ending_ne_jump (.raised exception)⟩

/-- **Where panics are left behind.**  After every request everything is in order again.  A panic
waits then exactly if the last thing that has happened to panics is that a quiet task passed it
over; every panic that was parked in the request was taken up next, or passed over next; and every
panic that was taken up in it was parked in it, or waited when it began. -/
theorem Request.parked_iff_overlooked (fuel : Nat) (request : Request σ) (w : World σ)
    (hrequest : request.Uses NoAttempts)
    (hhost : w.HostCode NoAttempts)
    (hkept : w.PanicsKept)
    (hrest : AtRest w.panicLog) :
    let w' := Outcome.world (request.answer (.ofFuel fuel) w)
    w'.PanicsKept ∧ AtRest w'.panicLog ∧
    ∃ new, w'.panicLog = new ++ w.panicLog ∧
      (∀ p, w'.parked = some p ↔ w'.panicLog.head? = some (.overlooked p)) ∧
      (∀ later p earlier, new = later ++ .parked p :: earlier →
        ∃ rest, later = rest ++ [.resumed p] ∨ later = rest ++ [.overlooked p]) ∧
      (∀ p, .resumed p ∈ new → .parked p ∈ new ∨ w.parked = some p) := by
  have hsettles := request.settles_answer (Reentry.follows_ofFuel NoAttempts fuel) hrequest w hhost
  obtain ⟨hkept', hrest'⟩ := hsettles.follows.panicsKept hkept hrest
  obtain ⟨new, hnew⟩ := hsettles.follows.panicsLogged.suffix
  have hatRest : AtRest (Outcome.world (request.answer (.ofFuel fuel) w)).panicLog :=
    hrest' fun exception => hsettles.ending_ne_jump (.raised exception)
  refine ⟨hkept', hatRest, new, hnew.symm, ?_, ?_, ?_⟩
  · intro p
    rw [hkept'.parked]
    exact waiting_eq_some_iff hatRest p
  · rintro later p earlier rfl
    rw [← hnew, List.append_assoc, List.cons_append] at hatRest
    refine Orderly.next_after_parked ?_ hatRest
    rw [← List.cons_append, ← List.append_assoc, hnew]
    exact hkept'.orderly
  · intro p hp
    rw [hkept.parked]
    refine Orderly.parked_mem_of_resumed ?_ hp
    rw [hnew]
    exact hkept'.orderly

/-- A world in which exceptions are shown by a proc of the host's that panics. -/
def World.unshowable : World Unit where
  machine := {
    heap := ⟨Machine.coreSlots.push ⟨CoreClass.procClass.value, .proc 0⟩⟩
    symbols := ⟨#["inspect"]⟩
    methods := ⟨[((CoreClass.exception.value, ⟨1⟩), .routine fun _ =>
      .perform (.callProc (Value.ofSlot Machine.coreSlots.size) [] Value.nil) .done)]⟩ }
  state := .up
  ids := ⟨[("backtrace", ⟨2⟩), ("join", ⟨3⟩)]⟩
  procs := #[fun _ => .panic "boom"]
  procCallback := some .closures
  memory := ()

/-- Where nil is called in place of a proc in that world, the panic of the proc that should show the
exception is left behind. -/
theorem Request.parked_of_unshowable :
    let w := World.unshowable
    let w' := Outcome.world ((Request.operation (.callProc Value.nil [] none)).answer (.ofFuel 2) w)
    w.HostCode NoAttempts ∧ w.PanicsKept ∧ AtRest w.panicLog ∧ w.parked = none ∧
      w'.parked = some ⟨"boom"⟩ := by
  have hhost : World.unshowable.HostCode NoAttempts := by
    refine ⟨?_, ?_⟩
    · intro body hbody args
      obtain rfl := Array.mem_singleton.mp hbody
      trivial
    · intro kind run hrun
      cases kind <;> cases hrun
  have hkept : World.unshowable.PanicsKept := ⟨rfl, trivial⟩
  have hrest : AtRest World.unshowable.panicLog := atRest_of_waiting_none rfl
  obtain ⟨-, -, new, -, hparked, -⟩ :=
    parked_iff_overlooked 2 (.operation (.callProc Value.nil [] none)) World.unshowable trivial
      hhost hkept hrest
  refine ⟨hhost, hkept, hrest, rfl, (hparked _).mpr ?_⟩
  decide +kernel

end EmbeddedRuby
