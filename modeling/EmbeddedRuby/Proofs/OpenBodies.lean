import EmbeddedRuby.Proofs.AbandonedScripts
import EmbeddedRuby.Proofs.TraceLines

/-!
# The frames of open bodies

While a script runs, each of its open bodies has a frame on the stack, and below them is the frame of
its top level.  Each statement goes on to its line in the innermost frame only; so a frame with a body
opened above it stays on the line on which that body was opened, however many other bodies have been
opened and closed again in the meantime.

Which bodies are open after some statements can be read off the statements (`openBodies`), and the
frames from that (`scriptFrames`).  That a statement leaves these frames behind (`Bodies.Stand`) is
shown for each change that it can make to the open bodies (`Loader.stand_runStatement`), as long as no
script is abandoned in it whose frames are left over.  So an exception that is raised after some
statements finds them, on the line of the statement that raises it (`Loader.raisedAbove_statements`).
-/

namespace EmbeddedRuby

open Eval

variable {σ : Type} {P : Probe → Prop}

/-! ### What can be read off the statements -/

/-- A body of a script that is open: the line on which it was opened, and its label. -/
structure OpenBody where
  line : Nat
  label : String
deriving DecidableEq, Repr

/-- The bodies that are open after a statement on this line. -/
def BodyChange.apply (line : Nat) (bodies : List OpenBody) : BodyChange → List OpenBody
  | .opens label => ⟨line, label⟩ :: bodies
  | .closes => bodies.tail
  | .keeps => bodies

/-- The bodies that are open after these statements, the innermost first, if `bodies` are before
them. -/
def openedBy (bodies : List OpenBody) (statements : List (Nat × Statement)) : List OpenBody :=
  statements.foldl (fun bodies entry => entry.2.bodyChange.apply entry.1 bodies) bodies

/-- The bodies that are open after the first statements of a script. -/
abbrev openBodies (statements : List (Nat × Statement)) : List OpenBody :=
  openedBy [] statements

/-- The frames of a script that is being run on this line: those of its open bodies, and that of its
top level. -/
def scriptFrames (file : String) (line : Nat) : List OpenBody → List Frame
  | [] => [⟨file, line, Loader.topLabel⟩]
  | body :: rest => ⟨file, line, body.label⟩ :: scriptFrames file body.line rest

/-- How many frames there were before each of the bodies was opened. -/
def bodyMarks (base : Nat) : List OpenBody → List Nat
  | [] => []
  | _ :: rest => (base + rest.length + 1) :: bodyMarks base rest

theorem length_scriptFrames (file : String) (line : Nat) (bodies : List OpenBody) :
    (scriptFrames file line bodies).length = bodies.length + 1 := by
  induction bodies generalizing line with
  | nil => rfl
  | cons body rest ih => exact congrArg (· + 1) (ih body.line)

/-- The label of a body is without line feeds, since the name of its module is. -/
theorem Statement.noLineFeed_label {statement : Statement} (hread : statement.NamesRead)
    {label : String} (hopens : statement.bodyChange = .opens label) : '\n' ∉ label.toList := by
  have hlabel : ∀ (before : String) {name : List Char}, IsIdentifier name →
      '\n' ∉ before.toList → '\n' ∉ (before ++ String.ofList name ++ ">").toList := by
    intro before name hname hbefore
    have hnone : '\n' ∉ name := fun hmem => hname.not_mem (by decide) (by decide) hmem
    simp [String.toList_append, String.toList_ofList, hbefore, hnone]
  cases statement with
  | openClass name path =>
      cases hopens
      exact hlabel "<class:" hread.1 (by decide)
  | openModule name =>
      cases hopens
      exact hlabel "<module:" hread.1 (by decide)
  | _ => cases hopens

theorem noLineFeed_openedBy {statements : List (Nat × Statement)}
    (hread : ∀ entry ∈ statements, entry.2.NamesRead) {bodies : List OpenBody}
    (hbodies : ∀ body ∈ bodies, '\n' ∉ body.label.toList) :
    ∀ body ∈ openedBy bodies statements, '\n' ∉ body.label.toList := by
  induction statements generalizing bodies with
  | nil => exact hbodies
  | cons entry rest ih =>
      obtain ⟨hentry, hrest⟩ := List.forall_mem_cons.mp hread
      have hchanged : ∀ body ∈ entry.2.bodyChange.apply entry.1 bodies,
          '\n' ∉ body.label.toList := by
        cases hchange : entry.2.bodyChange with
        | opens label =>
            exact List.forall_mem_cons.mpr ⟨Statement.noLineFeed_label hentry hchange, hbodies⟩
        | closes => exact fun body hbody => hbodies body (List.mem_of_mem_tail hbody)
        | keeps => exact hbodies
      exact ih hrest hchanged

/-- So the frames of a script are told of in one line each, if its path is without line feeds. -/
theorem lines_scriptFrames {file : String} (hfile : '\n' ∉ file.toList) (line : Nat)
    {bodies : List OpenBody} (hbodies : ∀ body ∈ bodies, '\n' ∉ body.label.toList) :
    (scriptFrames file line bodies).flatMap Frame.lines =
      (scriptFrames file line bodies).map Frame.render := by
  induction bodies generalizing line with
  | nil =>
      have htop : '\n' ∉ Loader.topLabel.toList := by decide
      simp only [scriptFrames, List.flatMap_singleton, List.map_singleton]
      exact Frame.lines_eq hfile htop
  | cons body rest ih =>
      obtain ⟨hlabel, hrest⟩ := List.forall_mem_cons.mp hbodies
      simp only [scriptFrames, List.flatMap_cons, List.map_cons]
      rw [ih body.line hrest, Frame.lines_eq hfile hlabel]
      rfl

/-! ### The parts of statements -/

/-- The world in which a script goes on to another line. -/
abbrev World.onLine (w : World σ) (line : Nat) : World σ :=
  w.onMachine fun m => m.setLine line

namespace World

variable {w w' : World σ} {exception : Value}

/-- How an exception finds the frames that there were: with others above them only if it has come out
of a script. -/
def RaisedAbove (P : Probe → Prop) (w : World σ) (exception : Value) (w' : World σ) : Prop :=
  ∃ above, w'.machine.frames = above ++ w.machine.frames ∧
    (above = [] ∨ w.ThrownInScript P exception w')

theorem Leaving.raisedAbove_or (h : w.Leaving P (.raised exception) w') :
    w.RaisedAbove P exception w' ∨ w.Abandons P w' := by
  rcases h.raised exception rfl with (hsame | habandoned) | hthrown
  · exact .inl ⟨[], hsame, .inl rfl⟩
  · exact .inr habandoned
  · obtain ⟨above, habove⟩ := h.course.frames_suffix
    exact .inl ⟨above, habove.symm, .inr hthrown⟩

/-- Statements are told of by what they leave over. -/
theorem leaving_tellsDefinitions (P : Probe → Prop) (fuel : Nat) :
    (leavingAccount P : Account σ).TellsDefinitions (.ofFuel fuel) :=
  .of_deeds leaving_rules (leaving_blockRules.ordinary (Reentry.leaves_ofFuel P fuel))
    fun w _ hdeeds _ => .of_same (.of_steps hdeeds.steps w rfl) hdeeds.steps.sameStacks.frames

end World

/-! ### Statement by statement -/

/-- The frames of the script and of these open bodies are on the stack above those that were there
before, and closing a body will take its frame away. -/
structure Bodies.Stand (b : Bodies) (file : String) (bodies : List OpenBody) (below : List Frame)
    (m : Machine) : Prop where
  frames : ∃ line, m.frames = scriptFrames file line bodies ++ below
  marks : b.marks = bodyMarks below.length bodies

namespace Loader

variable {fuel : Nat} {file : String} {line : Nat} {bodies : List OpenBody} {below : List Frame}
  {b b' : Bodies} {w w' : World σ} {exception : Value}

theorem setLine_scriptFrames {m : Machine} {old : Nat}
    (hframes : m.frames = scriptFrames file old bodies ++ below) (line : Nat) :
    (m.setLine line).frames = scriptFrames file line bodies ++ below := by
  unfold Machine.setLine
  rw [hframes]
  cases bodies <;> rfl

/-- A body that is opened stands above the others. -/
theorem stand_enter (hframes : w.machine.frames = scriptFrames file line bodies ++ below)
    (hmarks : b.marks = bodyMarks below.length bodies) {label : String} {module : Value}
    (hrun : enter b file label line module w = .ok b' w') :
    b'.Stand file (⟨line, label⟩ :: bodies) below w'.machine := by
  cases hrun
  refine ⟨⟨line, congrArg (List.cons _) hframes⟩, ?_⟩
  have hdepth : w.machine.frames.length = below.length + bodies.length + 1 := by
    rw [hframes, List.length_append, length_scriptFrames]
    omega
  exact congrArg₂ List.cons hdepth hmarks

/-- Closing a body takes its frame away. -/
theorem stand_leave (hframes : w.machine.frames = scriptFrames file line bodies ++ below)
    (hmarks : b.marks = bodyMarks below.length bodies) (hrun : leave b w = .ok b' w') :
    b'.Stand file bodies.tail below w'.machine := by
  obtain ⟨scopes, marks⟩ := b
  cases bodies with
  | nil =>
      cases hmarks
      cases hrun
      exact ⟨⟨line, hframes⟩, rfl⟩
  | cons body rest =>
      cases hmarks
      cases hrun
      refine ⟨⟨body.line, ?_⟩, rfl⟩
      have hdepth : below.length + rest.length + 1 =
          (scriptFrames file body.line rest ++ below).length := by
        rw [List.length_append, length_scriptFrames]
        omega
      change truncate _ w.machine.frames = _
      rw [hdepth, hframes]
      exact truncate_of_suffix (List.suffix_cons _ _)

theorem reaches_leave (hrun : leave b w = .ok b' w') : w.Reaches P w' := by
  obtain ⟨scopes, marks⟩ := b
  cases marks with
  | nil =>
      cases hrun
      exact .refl
  | cons depth marks =>
      cases hrun
      exact (World.Change.restack w _ _).reaches

/-- The bodies that a statement leaves behind are those that are open after it, unless a script is
abandoned in it. -/
theorem stand_execution {change : BodyChange} {action : Eval σ Bodies}
    (hexecution : Execution (World.leavingAccount P) file b line change action) (hw : w.HostCode P)
    (hframes : w.machine.frames = scriptFrames file line bodies ++ below)
    (hmarks : b.marks = bodyMarks below.length bodies) (hrun : action w = .ok b' w') :
    w.Reaches P w' ∧
      (b'.Stand file (change.apply line bodies) below w'.machine ∨ w.Abandons P w') := by
  cases hexecution with
  | opens label htold =>
      obtain ⟨module, w₁, hopened, hentered⟩ := bind_ok_iff.mp hrun
      have hleaving := (htold w).of_run hopened hw
      have hpushed : w₁.Reaches P w' := by
        cases hentered
        exact (World.Change.restack w₁ _ _).reaches
      refine ⟨hleaving.course.reaches.trans hpushed, ?_⟩
      rcases hleaving.leaves trivial with hsame | habandoned
      · exact .inl (stand_enter (hsame.trans hframes) hmarks hentered)
      · have habove : w'.machine.frames = ⟨file, line, label⟩ :: w₁.machine.frames := by
          cases hentered
          rfl
        refine .inr (habandoned.widen .refl hpushed ?_)
        exact habove ▸ habandoned.frames.cons _
  | closes => exact ⟨reaches_leave hrun, .inl (stand_leave hframes hmarks hrun)⟩
  | keeps htold hkept =>
      have hleaving := (htold w).of_run hrun hw
      obtain rfl := hkept w b' w' hrun
      refine ⟨hleaving.course.reaches, ?_⟩
      exact (hleaving.leaves trivial).imp_left fun hsame => ⟨⟨line, hsame.trans hframes⟩, hmarks⟩

/-- An exception that a statement raises finds the frames as they are, unless a script is abandoned in
the statement. -/
theorem raisedAbove_execution {change : BodyChange} {action : Eval σ Bodies}
    (hexecution : Execution (World.leavingAccount P) file b line change action) (hw : w.HostCode P)
    (hrun : action w = .error (.jump (.raised exception)) w') :
    w.RaisedAbove P exception w' ∨ w.Abandons P w' := by
  cases hexecution with
  | opens label htold =>
      rcases bind_error_iff.mp hrun with hraised | ⟨module, w₁, -, hentered⟩
      · exact ((htold w).of_run hraised hw).raisedAbove_or
      · cases hentered
  | closes =>
      obtain ⟨scopes, marks⟩ := b
      cases marks <;> cases hrun
  | keeps htold => exact ((htold w).of_run hrun hw).raisedAbove_or

/-- A statement goes on to its line before it does anything else. -/
theorem exists_execution_ofFuel (P : Probe → Prop) (fuel : Nat) (file : String) (b : Bodies)
    {entry : Nat × Statement} (hread : entry.2.NamesRead) :
    ∃ action : Eval σ Bodies,
      Execution (World.leavingAccount P) file b entry.1 entry.2.bodyChange action ∧
      ∀ w, runStatement (.ofFuel fuel) file b entry w = action (w.onLine entry.1) := by
  obtain ⟨action, hexecution, hopen⟩ := World.leaving_rules.exists_execution
    (World.leaving_blockRules.ordinary (Reentry.leaves_ofFuel P fuel))
    (World.leaving_tellsDefinitions P fuel) file b hread
  refine ⟨action, hexecution, fun w => ?_⟩
  rw [hopen, changeMachine_bind_apply]

/-! ### Statements one after the other -/

/-- Of these statements, which are run one after the other, one leaves the frames of a script over that
was abandoned in it. -/
inductive LeaveOver (P : Probe → Prop) (r : Reentry σ) (file : String) :
    Bodies → List (Nat × Statement) → World σ → Prop
  | here {b : Bodies} {entry : Nat × Statement} {rest : List (Nat × Statement)} {w : World σ}
      (h : (w.onLine entry.1).Abandons P (Outcome.world (runStatement r file b entry w))) :
      LeaveOver P r file b (entry :: rest) w
  | later {b b' : Bodies} {entry : Nat × Statement} {rest : List (Nat × Statement)} {w w' : World σ}
      (hrun : runStatement r file b entry w = .ok b' w') (h : LeaveOver P r file b' rest w') :
      LeaveOver P r file b (entry :: rest) w

/-- So one does of these and others after them. -/
theorem LeaveOver.append {r : Reentry σ} {first : List (Nat × Statement)}
    (h : LeaveOver P r file b first w) (rest : List (Nat × Statement)) :
    LeaveOver P r file b (first ++ rest) w := by
  induction h with
  | here h => exact .here h
  | later hrun _ ih => exact .later hrun ih

/-- And of these and others that have been run before them. -/
theorem LeaveOver.after {r : Reentry σ} {first rest : List (Nat × Statement)}
    (h : LeaveOver P r file b' rest w') (hran : first.foldlM (runStatement r file) b w = .ok b' w') :
    LeaveOver P r file b (first ++ rest) w := by
  induction first generalizing b w with
  | nil =>
      cases hran
      exact h
  | cons entry first ih =>
      rw [List.foldlM_cons] at hran
      obtain ⟨b₁, w₁, hrun, hlater⟩ := bind_ok_iff.mp hran
      exact .later hrun (ih hlater)

variable {entry : Nat × Statement}

/-- A statement goes on from the frames of the open bodies to those of the bodies that are open after
it, unless it leaves others over. -/
theorem stand_runStatement (hw : w.HostCode P) (hb : b.Stand file bodies below w.machine)
    (hread : entry.2.NamesRead) (hrun : runStatement (.ofFuel fuel) file b entry w = .ok b' w') :
    w.Reaches P w' ∧ (b'.Stand file (entry.2.bodyChange.apply entry.1 bodies) below w'.machine ∨
      (w.onLine entry.1).Abandons P w') := by
  obtain ⟨⟨old, hframes⟩, hmarks⟩ := hb
  obtain ⟨action, hexecution, hopen⟩ := exists_execution_ofFuel P fuel file b hread
  have hline : w.Reaches P (w.onLine entry.1) := (World.Change.setLine w entry.1).reaches
  obtain ⟨hreaches, hstand⟩ := stand_execution hexecution (hline.hostCode hw)
    (setLine_scriptFrames hframes entry.1) hmarks ((hopen w).symm.trans hrun)
  exact ⟨hline.trans hreaches, hstand⟩

/-- An exception that is raised after some statements finds the frames of the bodies that are open then,
the innermost of them on the line of the statement that raises it, unless a statement has left others
over. -/
theorem raisedAbove_statements {statements : List (Nat × Statement)} {w₁ : World σ}
    (hw : w.HostCode P) (hb : b.Stand file bodies below w.machine)
    (hread : ∀ earlier ∈ statements, earlier.2.NamesRead) (hentry : entry.2.NamesRead)
    (hran : statements.foldlM (runStatement (.ofFuel fuel) file) b w = .ok b' w₁)
    (hraised : runStatement (.ofFuel fuel) file b' entry w₁ =
      .error (.jump (.raised exception)) w') :
    ((w₁.onLine entry.1).machine.frames =
        scriptFrames file entry.1 (openedBy bodies statements) ++ below ∧
      (w₁.onLine entry.1).RaisedAbove P exception w') ∨
    LeaveOver P (.ofFuel fuel) file b (statements ++ [entry]) w := by
  induction statements generalizing b bodies w with
  | nil =>
      cases hran
      obtain ⟨⟨old, hframes⟩, -⟩ := hb
      obtain ⟨action, hexecution, hopen⟩ := exists_execution_ofFuel P fuel file b' hentry
      have hline : w₁.Reaches P (w₁.onLine entry.1) := (World.Change.setLine w₁ entry.1).reaches
      rcases raisedAbove_execution hexecution (hline.hostCode hw) ((hopen w₁).symm.trans hraised) with
        habove | habandoned
      · exact .inl ⟨setLine_scriptFrames hframes entry.1, habove⟩
      · refine .inr (.here ?_)
        rw [hraised]
        exact habandoned
  | cons first rest ih =>
      obtain ⟨hfirst, hrest⟩ := List.forall_mem_cons.mp hread
      rw [List.foldlM_cons] at hran
      obtain ⟨b₁, w₂, hrun, hlater⟩ := bind_ok_iff.mp hran
      obtain ⟨hreaches, hstand | habandoned⟩ := stand_runStatement hw hb hfirst hrun
      · exact (ih (hreaches.hostCode hw) hstand hrest hlater).imp_right (.later hrun)
      · refine .inr (.here ?_)
        rw [hrun]
        exact habandoned

end Loader

end EmbeddedRuby
