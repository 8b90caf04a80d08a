import EmbeddedRuby.Proofs.OpenBodies
import EmbeddedRuby.Proofs.ProtectedStacks
import EmbeddedRuby.Proofs.TracedExceptions

/-!
# Backtraces of scripts

A script that is stopped by an exception (`Loader.Stop`) has run some of its statements, and which
bodies are open when the next one raises can be read off those.  If the exception is raised for the
first time, its backtrace tells where the script was stopped: one line for each open body and one for
the top level, from the inside out, and below them the frames that had been there before.

The main statement is `Vm.backtrace_of_stop`.  A statement can leave the frames of another script over
that was abandoned in it, and then they may be in the backtrace as well.
-/

namespace EmbeddedRuby

open Eval

variable {σ : Type} {P : Probe → Prop}

/-! ### Scripts that are stopped -/

namespace Loader

/-- The bodies and the world in which the statements of a script begin. -/
def beginning (file : String) (wrap : Bool) (w : World σ) : Bodies × World σ :=
  let (top, m) := topOf wrap w.machine
  (⟨[top], []⟩, { w with machine := m.pushFrame file topLabel 0 })

/-- A script is stopped by an exception that one of its statements raises. -/
structure Stop (r : Reentry σ) (path : String) (wrap : Bool) (w : World σ) where
  file : String
  text : List Char
  /-- The statements that have been run by then. -/
  before : List (Nat × Statement)
  line : Nat
  statement : Statement
  /-- The statements that are not run any more. -/
  after : List (Nat × Statement)
  bodies : Bodies
  /-- The world in which the statement begins. -/
  reached : World σ
  exception : Value
  /-- The world in which the script is left. -/
  left : World σ
  found : read? w.machine path = some (file, text)
  parsed : Source.parse text = .ok (before ++ (line, statement) :: after)
  ran : before.foldlM (runStatement r file) (beginning file wrap w).1 (beginning file wrap w).2 =
    .ok bodies reached
  raised : runStatement r file bodies (line, statement) reached =
    .error (.jump (.raised exception)) left

namespace Stop

variable {path : String} {wrap : Bool} {w : World σ}

/-- The bodies that are open when the script is stopped. -/
def openBodies {r : Reentry σ} (stop : Stop r path wrap w) : List OpenBody :=
  EmbeddedRuby.openBodies stop.before

/-- The frames of the script when it is stopped. -/
def frames {r : Reentry σ} (stop : Stop r path wrap w) : List Frame :=
  scriptFrames stop.file stop.line stop.openBodies

/-- The statements before a stop, and the one at it, have names as scripts write them. -/
theorem namesRead {r : Reentry σ} (stop : Stop r path wrap w) :
    (∀ entry ∈ stop.before, entry.2.NamesRead) ∧ stop.statement.NamesRead := by
  have hread := Source.namesRead_parse stop.parsed
  exact ⟨fun entry hentry => hread entry (List.mem_append_left _ hentry),
    hread (stop.line, stop.statement) (by simp)⟩

/-- The script is left by the exception. -/
theorem load_eq {r : Reentry σ} (stop : Stop r path wrap w) :
    load r path wrap w = .error (.jump (.raised stop.exception)) stop.left := by
  have hstatements : (stop.before ++ (stop.line, stop.statement) :: stop.after).foldlM
      (runStatement r stop.file) (beginning stop.file wrap w).1 (beginning stop.file wrap w).2 =
        .error (.jump (.raised stop.exception)) stop.left := by
    rw [List.foldlM_append, bind_apply, stop.ran]
    simp only [List.foldlM_cons, bind_apply, stop.raised]
  rw [load_eq_runScript stop.found stop.parsed wrap]
  unfold runScript
  rw [machine_bind_apply, changeMachine_bind_apply]
  exact bind_error_iff.mpr (.inl hstatements)

/-- Making the module at the top of a script is a run. -/
theorem reaches_topOf (wrap : Bool) (w : World σ) :
    w.Reaches P { w with machine := (topOf wrap w.machine).2 } :=
  (Course.of_steps (works_topOf wrap w.machine).steps w rfl).reaches

/-- Coming to the first statement of a script is a run. -/
theorem reaches_beginning (file : String) (wrap : Bool) (w : World σ) :
    w.Reaches P (beginning file wrap w).2 :=
  (reaches_topOf wrap w).tail (.restack _ _ _)

/-- What the script does until it is left is a run. -/
theorem reaches_left {fuel : Nat} (stop : Stop (.ofFuel fuel) path wrap w) (hw : w.HostCode P) :
    w.Reaches P stop.left := by
  have hmade : w.Reaches P { w with machine := (topOf wrap w.machine).2 } := reaches_topOf wrap w
  have hrun := (load_eq_runScript stop.found stop.parsed wrap).symm.trans stop.load_eq
  have hr : (Reentry.ofFuel fuel : Reentry σ).Follows P := Reentry.follows_ofFuel P fuel
  have hfollows := follows_runScript hr stop.file (topOf wrap w.machine).1
    (Source.namesRead_parse stop.parsed)
  exact hmade.trans ((hfollows _ (hmade.hostCode hw)).of_run hrun).reaches

/-- There the frame of the top level is above those that there were. -/
theorem frames_beginning (file : String) (wrap : Bool) (w : World σ) :
    (beginning file wrap w).2.machine.frames = ⟨file, 0, topLabel⟩ :: w.machine.frames := by
  cases wrap <;> rfl

/-- A statement of those that were run, or the one that has stopped the script, has left the frames of
another script over that was abandoned in it. -/
def LeavesOver {r : Reentry σ} (P : Probe → Prop) (stop : Stop r path wrap w) : Prop :=
  LeaveOver P r stop.file (beginning stop.file wrap w).1
    (stop.before ++ [(stop.line, stop.statement)]) (beginning stop.file wrap w).2

/-- The world in which the script has come to the line of the statement that stops it. -/
def onLine {r : Reentry σ} (stop : Stop r path wrap w) : World σ :=
  stop.reached.onLine stop.line

/-- **The exception finds the frames of the script** above those that were there before, unless others
were left over. -/
theorem raisedAbove {fuel : Nat} (stop : Stop (.ofFuel fuel) path wrap w) (hw : w.HostCode P) :
    (stop.onLine.machine.frames = stop.frames ++ w.machine.frames ∧
      stop.onLine.RaisedAbove P stop.exception stop.left) ∨ stop.LeavesOver P := by
  have hbegun : (beginning stop.file wrap w).1.Stand stop.file [] w.machine.frames
      (beginning stop.file wrap w).2.machine := by
    refine ⟨⟨0, frames_beginning stop.file wrap w⟩, ?_⟩
    cases wrap <;> rfl
  have hcode := (reaches_beginning stop.file wrap w).hostCode hw
  obtain ⟨hread, hstatement⟩ := stop.namesRead
  exact raisedAbove_statements hcode hbegun hread hstatement stop.ran stop.raised

/-- Each frame of the script is told of in one line, if its path is without line feeds. -/
theorem lines_frames {r : Reentry σ} (stop : Stop r path wrap w) (hfile : '\n' ∉ stop.file.toList) :
    stop.frames.flatMap Frame.lines = stop.frames.map Frame.render :=
  lines_scriptFrames hfile stop.line (noLineFeed_openedBy stop.namesRead.1 nofun)

end Stop

end Loader

/-! ### What the host is told -/

namespace Vm

variable {w w₀ : World σ}

/-- The world in which a script is looked for: its path has been made a string. -/
def withPath (w : World σ) (path : String) : World σ :=
  w.onMachine fun m => (m.newString (Utf8.encodeString path)).2

/-- An exception with which loading a script ends leaves the operation by its barrier. -/
theorem load_run_of_raised {r : Reentry σ} {path : String} {wrap : Bool} {exception : Value}
    {left : World σ} (hup : ensureSetup.run w = .ok (.ok ()) w₀)
    (hroom : w₀.machine.heap.Addressable)
    (hraised : Loader.load r path wrap (withPath w₀ path) = .error (.jump (.raised exception)) left) :
    (load r (Utf8.encodeString path) wrap).run w =
      .ok (.error (.exited (.raised exception))) (left.restored (withPath w₀ path)) := by
  let script := (w₀.machine.newString (Utf8.encodeString path)).1
  have hbytes : (withPath w₀ path).machine.heap.bytes? script = some (Utf8.encodeString path) := by
    have hbody : (withPath w₀ path).machine.heap.body? script =
        some (.string (Utf8.encodeString path)) := Heap.body?_alloc hroom _ _
    unfold Heap.bytes?
    rw [hbody]
  have htask : perform r (.load script wrap) (withPath w₀ path) =
      .error (.jump (.raised exception)) left := by
    change (Loader.loadObject r script wrap >>= fun _ => pure Value.nil) (withPath w₀ path) = _
    have hobject : Loader.loadObject r script wrap (withPath w₀ path) =
        .error (.jump (.raised exception)) left := by
      unfold Loader.loadObject
      rw [machine_bind_apply, hbytes]
      dsimp only
      rw [Utf8.stringLossy_encodeString]
      exact hraised
    exact bind_error_iff.mpr (.inl hobject)
  have hattempt : (attempt r (.load script wrap)).run (withPath w₀ path) =
      .ok (.error (.exited (.raised exception))) (left.restored (withPath w₀ path)) := by
    unfold attempt
    rw [guarded_run_apply, htask]
  unfold load
  rw [run_bind_apply, hup]
  simp only [Utf8.decode?_encodeString]
  refine (run_lift_bind_apply _ _ w₀).trans ?_
  refine (run_bind_apply (attempt r (.load script wrap)) _ (withPath w₀ path)).trans ?_
  rw [hattempt]

/-- The exception that stops a script leaves the operation by its barrier. -/
theorem load_run_of_stop {r : Reentry σ} {path : String} {wrap : Bool}
    (hup : ensureSetup.run w = .ok (.ok ()) w₀) (hroom : w₀.machine.heap.Addressable)
    (stop : Loader.Stop r path wrap (withPath w₀ path)) :
    (load r (Utf8.encodeString path) wrap).run w =
      .ok (.error (.exited (.raised stop.exception))) (stop.left.restored (withPath w₀ path)) :=
  load_run_of_raised hup hroom stop.load_eq

/-- How an operation ends that ends with the description of an exception. -/
def reported (described : Outcome σ ExceptionReport) : Outcome σ (Except Error Unit) :=
  match described with
  | .ok found w => .ok (.error (.exception found)) (w.recorded (.exception found))
  | .error exit w => .error exit w

/-- If no panic waits, an exception that has left an operation is reported. -/
theorem surfaced_raised_apply {r : Reentry σ} {exception : Value}
    (hpending : w.machine.errinfo = exception) (hnil : exception ≠ Value.nil)
    (hparked : w.parked = none) :
    (Except.error <$> surface r (.raised exception) : Eval σ (Except Error Unit)) w =
      reported (report r exception w.withoutPending) := by
  rw [map_eq_pure_bind, bind_apply, surface_apply, hparked]
  simp only
  rw [hpending, if_neg hnil, bind_apply]
  cases report r exception w.withoutPending with
  | ok found w' => rfl
  | error exit w' => rfl

/-- A description comes to its end if the operation does that ends with it. -/
theorem endsAt_report {r : Reentry σ} {exception : Value}
    (hends : ∀ w', reported (report r exception w) ≠ .error .exhausted w') :
    EndsAt (report r exception) w := by
  intro w' hreport
  rw [hreport] at hends
  exact hends w' rfl

/-- The operation has as much room left as the description. -/
theorem hasRoom_reported {described : Outcome σ ExceptionReport} {count : Nat} :
    (Outcome.world (reported described)).machine.heap.HasRoom count ↔
      (Outcome.world described).machine.heap.HasRoom count := by
  cases described <;> rfl

/-- Bringing the interpreter up and making a string of the path is a run. -/
theorem reaches_withPath (hup : (ensureSetup : Checked σ Unit).run w = .ok (.ok ()) w₀)
    (path : String) : w.Reaches P (withPath w₀ path) :=
  (reaches_of_ensureSetup hup).tail (.step (.machine w₀ (.string w₀.machine _)))

/-- What the interpreter has when it is up is there still when the operation is over. -/
theorem evolves_load {r : Reentry σ} (hr : r.Follows AnyProbe) {path : List UInt8} {wrap : Bool}
    (hup : (ensureSetup : Checked σ Unit).run w = .ok (.ok ()) w₀) :
    w₀.machine.heap.Evolves (Outcome.world (settled r (load r path wrap) w)).machine.heap := by
  have hsame : settled r (load r path wrap) w = settled r (load r path wrap) w₀ := by
    rw [settled_apply, settled_apply]
    unfold load
    rw [ensureSetup_bind_run hup]
  rw [hsame]
  exact evolves_settled hr (.load path wrap) w₀

/-- **The backtrace of a script that was stopped.**  Exceptions are described by the interpreter's own
methods, and the host puts no others in their place.  If a script that is loaded is stopped by an
exception that is raised for the first time, then the host is told of an exception with a backtrace of
these lines, from the inside out:

* one line for each body that is open where the script is stopped, and one for its top level; the
  innermost tells the line of the statement that has raised, each other the line on which the body
  above it was opened;
* the lines of the frames that there were before.

There are others only if the exception has come out of a script that the statement has run, and then
they stand above these; or a statement has left the frames of a script over. -/
theorem backtrace_of_stop {fuel : Nat} {path : String} {wrap : Bool} (hcode : w.HostCode P)
    (hspared : ∀ name ∈ World.describingMethods, ∀ probe, P probe → probe.Spares name)
    (hnames : w.NamesAgree) (hown : w.machine.DescribesByOwn)
    (hup : ensureSetup.run w = .ok (.ok ()) w₀)
    (stop : Loader.Stop (.ofFuel (fuel + 3)) path wrap (withPath w₀ path))
    (hfresh : World.RaisedAfresh stop.exception stop.left) (hfile : '\n' ∉ stop.file.toList)
    (hparked : stop.left.parked = none)
    (hends : EndsAt (Operation.answer (.ofFuel (fuel + 3))
      (.load (Utf8.encodeString path) wrap)) w)
    (hroom : (Outcome.world (Operation.answer (.ofFuel (fuel + 3))
      (.load (Utf8.encodeString path) wrap) w)).machine.heap.HasRoom 2) :
    ∃ found w', Operation.answer (.ofFuel (fuel + 3)) (.load (Utf8.encodeString path) wrap) w =
        .ok (.error (.exception found)) w' ∧
      ((∃ above, found.backtrace = above.flatMap Frame.lines ++
          (stop.frames.map Frame.render ++ w.machine.frames.flatMap Frame.lines) ∧
          (above = [] ∨ stop.onLine.ThrownInScript P stop.exception stop.left)) ∨
        stop.LeavesOver P) := by
  let r : Reentry σ := .ofFuel (fuel + 3)
  let outcome := Operation.answer r (.load (Utf8.encodeString path) wrap) w
  have hfollows : r.Follows AnyProbe := Reentry.follows_ofFuel AnyProbe (fuel + 3)
  have hroom₀ : w₀.machine.heap.HasRoom 2 := hroom.of_evolves (evolves_load hfollows hup)
  -- The exception leaves the script, and is stopped at the barrier of the operation.
  let stopped := stop.left.restored (withPath w₀ path)
  have hanswer : outcome = (Except.error <$> surface r (.raised stop.exception)) stopped := by
    change settled r (load r (Utf8.encodeString path) wrap) w = _
    rw [settled_apply, load_run_of_stop hup hroom₀.addressable stop]
  have hroom₁ : stop.left.machine.heap.HasRoom 2 := by
    have hgrown := evolves_surfaced (α := Unit) hfollows (.raised stop.exception) stopped
    rw [← hanswer] at hgrown
    exact hroom.of_evolves hgrown
  -- Its backtrace was made when it was raised, of the frames that there were.
  have hfound : w.Reaches P (withPath w₀ path) := reaches_withPath hup path
  have hreached : w.Reaches P stop.left := hfound.trans (stop.reaches_left (hfound.hostCode hcode))
  have hown₁ := hreached.describesByOwn hspared hown
  obtain ⟨cls, htraced, hbelow⟩ := hfresh.tracedBy hown₁.core (hroom₁.mono (Nat.zero_le 2))
  have hnil : stop.exception ≠ Value.nil := by
    intro hnil
    obtain ⟨message, trace, hslot, -⟩ := htraced
    have hbody := Heap.body?_of_slot? hslot
    rw [hnil, Heap.body?_nil] at hbody
    cases hbody
  have hpending : stopped.machine.errinfo = stop.exception := hfresh.errinfo
  have hwaiting : stopped.parked = none := hparked
  rw [surfaced_raised_apply hpending hnil hwaiting] at hanswer
  -- It is described then, which does nothing to its backtrace.
  let u := stopped.withoutPending
  have hdescribed : w.Reaches P u := (hreached.tail (.restack _ _ _)).tail (.withoutPending _)
  have hreportEnds : EndsAt (report r stop.exception) u := endsAt_report (hanswer ▸ hends)
  have hreportRoom : (Outcome.world (report r stop.exception u)).machine.heap.HasRoom 2 :=
    hasRoom_reported.mp (hanswer ▸ hroom)
  obtain ⟨found, w', hreport, hlines⟩ := World.report_spec (hdescribed.hostCode hcode) hspared
    (hdescribed.namesAgree hnames) (hdescribed.describesByOwn hspared hown) htraced hbelow
    hreportEnds hreportRoom
  refine ⟨found, w'.recorded (.exception found), hanswer.trans (by rw [hreport]; rfl), ?_⟩
  rcases stop.raisedAbove (hfound.hostCode hcode) with
    ⟨hstand, above, hframes, hwhere⟩ | habandoned
  · refine .inl ⟨above, ?_, hwhere⟩
    have hbefore : (withPath w₀ path).machine.frames = w.machine.frames := by
      rcases step_of_ensureSetup hup with rfl | hstep
      · rfl
      · exact hstep.sameStacks.frames
    rw [hlines, Frame.lines_join, hframes, hstand, hbefore, List.flatMap_append, List.flatMap_append,
      stop.lines_frames hfile]
  · exact .inr habandoned

/-- Two bodies are open and one is closed, in a script that another one has loaded. -/
example :
    let w : World Unit := { World.bare with machine := { World.bare.machine with
      frames := [⟨"outer.rb", 3, Loader.topLabel⟩]
      symbols := ⟨#["backtrace", "join"]⟩
      methods := ⟨[((CoreClass.exception.value, ⟨1⟩), .builtin .exceptionBacktrace),
        ((CoreClass.array.value, ⟨2⟩), .builtin .arrayJoin)]⟩
      files := { nodes := [(["work", "t.rb"], .file
        "class A\nmodule B\nend\nmodule C\n\nraise\nend\nend\n".toUTF8.toList)] } } }
    (match Operation.answer (.ofFuel 4) (.load (Utf8.encodeString "t.rb") false) w with
      | .ok (.error (.exception found)) _ => found.backtrace
      | _ => []) = ["t.rb:6:in '<module:C>'", "t.rb:4:in '<class:A>'",
        "t.rb:1:in '<top (required)>'", "outer.rb:3:in '<top (required)>'"] := by
  decide +kernel

/-- A script that closes one body, and in another calls a method and raises an exception. -/
def interruptedText : String :=
  "class A\nmodule B\nend\nmodule C\np\nraise\nend\nend\n"

/-- What is run of it. -/
def interruptedBefore : List (Nat × Statement) :=
  [(1, .openClass "A".toList none), (2, .openModule "B".toList), (3, .close),
    (4, .openModule "C".toList), (5, .p [])]

/-- A world in which that method runs another script, which calls a method with a bug. -/
def interrupted : World Unit :=
  let proc := (World.bare.machine.alloc CoreClass.procClass.value (.proc 0)).1
  { faulty with machine := { faulty.machine with
      symbols := ⟨#["inspect", "to_s", "backtrace", "join", "puts", "p"]⟩
      files := { nodes := [(["work", "t.rb"], .file "puts".toUTF8.toList),
        (["work", "main.rb"], .file interruptedText.toUTF8.toList)] }
      methods := ⟨[((CoreClass.exception.value, ⟨1⟩), .builtin .exceptionInspect),
        ((CoreClass.exception.value, ⟨2⟩), .builtin .exceptionToS),
        ((CoreClass.exception.value, ⟨3⟩), .builtin .exceptionBacktrace),
        ((CoreClass.array.value, ⟨4⟩), .builtin .arrayJoin),
        ((CoreClass.object.value, ⟨5⟩), .routine fun _ => .panic "bug"),
        ((CoreClass.object.value, ⟨6⟩), .routine fun _ =>
          .perform (.callProc proc [] Value.nil) .done)]⟩ } }

/-- Exceptions are described in that world as in a fresh interpreter. -/
theorem describesByOwn_interrupted : interrupted.machine.DescribesByOwn where
  names := by
    intro name hname
    have hlisted : ∀ name ∈ World.describingMethods,
        (interrupted.machine.symbols.find? name).any (fun id => id.number ≤ 4) = true := by
      decide +kernel
    have hown : ∀ entry ∈ interrupted.machine.methods.entries, entry.1.2.number ≤ 4 →
        ∃ c b, (c, interrupted.machine.symbols.name entry.1.2, b) ∈ ownMethods ∧
          entry.2 = .builtin b := by
      intro entry hentry hle
      simp only [interrupted, List.mem_cons, List.not_mem_nil, or_false] at hentry
      rcases hentry with rfl | rfl | rfl | rfl | rfl | rfl
      · exact ⟨.exception, _, by decide +kernel, rfl⟩
      · exact ⟨.exception, _, by decide +kernel, rfl⟩
      · exact ⟨.exception, _, by decide +kernel, rfl⟩
      · exact ⟨.array, _, by decide +kernel, rfl⟩
      · exact absurd hle (by decide)
      · exact absurd hle (by decide)
    obtain ⟨hsome, hle⟩ := (Option.any_eq_true_iff_get _ _).mp (hlisted name hname)
    have hid := (Option.some_get hsome).symm
    refine .of_entries hid fun entry hentry hkey => ?_
    have hname : interrupted.machine.symbols.name entry.1.2 = name :=
      hkey ▸ SymbolTable.name_of_find? hid
    exact hname ▸ hown entry hentry (hkey ▸ of_decide_eq_true hle)
  traced := ⟨⟨3⟩, by decide +kernel, rfl⟩
  joined := ⟨⟨4⟩, by decide +kernel, rfl⟩
  core := Machine.coreSlots_coreStanding.of_evolves (.alloc _ _ _)

/-- The script is stopped on its sixth line, by an exception that is raised for the first time. -/
theorem exists_stop_interrupted :
    ∃ stop : Loader.Stop (.ofFuel 7) "main.rb" false (withPath interrupted "main.rb"),
      stop.frames.map Frame.render = ["main.rb:6:in '<module:C>'", "main.rb:4:in '<class:A>'",
        "main.rb:1:in '<top (required)>'"] ∧
      '\n' ∉ stop.file.toList ∧ World.RaisedAfresh stop.exception stop.left ∧
      stop.left.parked = none := by
  let begun := Loader.beginning "main.rb" false (withPath interrupted "main.rb")
  have hran : (match interruptedBefore.foldlM (Loader.runStatement (.ofFuel 7) "main.rb")
      begun.1 begun.2 with
    | .ok _ reached => reached.parked.isNone
    | .error _ _ => false) = true := by
    decide +kernel
  match hbefore : interruptedBefore.foldlM (Loader.runStatement (.ofFuel 7) "main.rb")
      begun.1 begun.2 with
  | .error _ _ =>
      rw [hbefore] at hran
      cases hran
  | .ok bodies reached =>
      rw [hbefore] at hran
      let onLine := reached.onMachine fun m => m.setLine 6
      let stop : Loader.Stop (.ofFuel 7) "main.rb" false (withPath interrupted "main.rb") := {
        file := "main.rb"
        text := interruptedText.toList
        before := interruptedBefore
        line := 6
        statement := .raise none none
        after := [(7, .close), (8, .close)]
        bodies := bodies
        reached := reached
        exception := (onLine.machine.newException .unhandled).1
        left := onLine.raising .unhandled
        found := by decide +kernel
        parsed := by with_unfolding_all rfl
        ran := hbefore
        raised := rfl }
      have hframes : (scriptFrames "main.rb" 6 (openBodies interruptedBefore)).map Frame.render =
          ["main.rb:6:in '<module:C>'", "main.rb:4:in '<class:A>'",
            "main.rb:1:in '<top (required)>'"] := by
        decide +kernel
      have hfile : '\n' ∉ "main.rb".toList := by decide
      exact ⟨stop, hframes, hfile, .fault onLine .unhandled, Option.isNone_iff_eq_none.mp hran⟩

/-- What the host is told of an exception that has come out of an operation, and the world after it. -/
def told? {α : Type} : Outcome σ (Except Error α) → Option (ExceptionReport × World σ)
  | .ok (.error (.exception found)) w => some (found, w)
  | .ok (.error _) _ | .ok (.ok _) _ | .error _ _ => none

/-- What the host is found to have been told of is what the operation has ended with. -/
theorem told?_eq_some {α : Type} {outcome : Outcome σ (Except Error α)}
    {found : ExceptionReport × World σ} (hfound : told? outcome = some found) :
    outcome = .ok (.error (.exception found.1)) found.2 := by
  unfold told? at hfound
  split at hfound
  · cases hfound
    rfl
  · cases hfound
  · cases hfound
  · cases hfound

/-- The script that was abandoned is the innermost in the backtrace. -/
theorem backtrace_of_stop_interrupted :
    ∃ (stop : Loader.Stop (.ofFuel 7) "main.rb" false (withPath interrupted "main.rb"))
      (found : ExceptionReport) (w' : World Unit),
      Operation.answer (.ofFuel 7) (.load (Utf8.encodeString "main.rb") false) interrupted =
        .ok (.error (.exception found)) w' ∧
      found.backtrace = ["t.rb:6:in '<top (required)>'", "main.rb:5:in '<module:C>'",
        "main.rb:4:in '<class:A>'", "main.rb:1:in '<top (required)>'"] ∧
      stop.LeavesOver NoProbes := by
  obtain ⟨stop, hframes, hfile, hfresh, hparked⟩ := exists_stop_interrupted
  have hanswer : (told? (Operation.answer (.ofFuel 7)
      (.load (Utf8.encodeString "main.rb") false) interrupted)).map (fun told =>
        (told.1.backtrace, decide (told.2.machine.heap.HasRoom 2))) =
      some (["t.rb:6:in '<top (required)>'", "main.rb:5:in '<module:C>'",
        "main.rb:4:in '<class:A>'", "main.rb:1:in '<top (required)>'"], true) := by
    decide +kernel
  obtain ⟨⟨found, w'⟩, htold, hshown⟩ := Option.map_eq_some_iff.mp hanswer
  obtain ⟨hlines, hroom⟩ := Prod.mk.inj hshown
  have hrun := told?_eq_some htold
  have hcode : interrupted.HostCode NoProbes := hostCode_faulty.of_eq rfl rfl rfl
  have hends : EndsAt (Operation.answer (.ofFuel 7)
      (.load (Utf8.encodeString "main.rb") false)) interrupted := by
    intro u hexhausted
    cases hrun.symm.trans hexhausted
  obtain ⟨found', u, hrun', hraised⟩ := backtrace_of_stop hcode (fun _ _ _ hprobe => hprobe.elim)
    (World.namesAgree_of_unasked rfl) describesByOwn_interrupted (ensureSetup_run_of_up rfl) stop
    hfresh hfile hparked hends (by rw [hrun]; exact of_decide_eq_true hroom)
  cases hrun.symm.trans hrun'
  refine ⟨stop, found, w', hrun, hlines, ?_⟩
  rcases hraised with ⟨above, hbacktrace, -⟩ | habandoned
  · -- The innermost frame of the script is on another line than its backtrace says.
    have hends : stop.frames.map Frame.render ++ interrupted.machine.frames.flatMap Frame.lines <:+
        found.backtrace := ⟨_, hbacktrace.symm⟩
    rw [hlines, hframes] at hends
    exact absurd hends (by decide)
  · exact habandoned

end Vm

end EmbeddedRuby
