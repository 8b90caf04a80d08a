import EmbeddedRuby.Proofs.BalancedScripts
import EmbeddedRuby.Proofs.OpenBodies

/-!
# The bodies that a script has open

The statements of a script are run one after the other: each is given the bodies that are open
(`Bodies`), and gives those that are open after it.  Nothing in this looks for the `end` of a body.
What makes it come out right is that the statements are balanced (`Source.Balanced`).

Balanced statements that have come to their end leave the same bodies open as before them, and no frame
that there was is gone (`Loader.returns_balanced`).  So an `end` finds the bodies as they were when its
own was opened, and takes away what opening it had added (`Loader.runStatement_close`).  And wherever a
script has got to, the bodies that are open are those of the statements that have not been matched, one
for each, above the top level (`Loader.standing_of_unfinished`).

The main statement is `Loader.bodies_nest`.
-/

namespace EmbeddedRuby

open Eval

variable {σ : Type}

/-! ### The same frames, but for a line -/

/-- Going on to another line changes the innermost frame alone. -/
theorem Machine.frames_setLine (m : Machine) (line : Nat) :
    (m.setLine line).frames = m.frames.modifyHead fun frame => { frame with line } := by
  unfold setLine
  split
  · rename_i frame rest hframes
    rw [hframes]
    rfl
  · rename_i hnone
    rw [hnone]
    rfl

/-- The stacks of script bodies are the same, but the innermost body may be on another line. -/
def Machine.SameBodies (m m' : Machine) : Prop :=
  ∀ line, (m'.setLine line).frames = (m.setLine line).frames

namespace Machine.SameBodies

variable {m m₁ m' : Machine}

theorem trans (h₁ : m.SameBodies m₁) (h₂ : m₁.SameBodies m') : m.SameBodies m' :=
  fun line => (h₂ line).trans (h₁ line)

theorem of_frames (h : m'.frames = m.frames) : m.SameBodies m' := by
  intro line
  rw [frames_setLine, frames_setLine, h]

theorem setLine (m : Machine) (line : Nat) : m.SameBodies (m.setLine line) := by
  intro next
  rw [frames_setLine, frames_setLine, frames_setLine, List.modifyHead_modifyHead]
  rfl

end Machine.SameBodies

/-! ### One body in another -/

/-- The bodies after that of a module has been opened in them, in this machine. -/
def Bodies.inside (b : Bodies) (module : Value) (m : Machine) : Bodies :=
  ⟨module :: b.scopes, m.frames.length :: b.marks⟩

/-- The world in which a body begins: it has a frame of its own. -/
abbrev World.inBody (w : World σ) (file label : String) (line : Nat) : World σ :=
  w.onMachine fun m => m.pushFrame file label line

namespace Loader

variable {r : Reentry σ} {fuel : Nat} {file label : String} {top module : Value} {b b' b₁ : Bodies}
  {w w₁ u u₁ : World σ} {entry opening closing : Nat × Statement}
  {statements before first inner rest : List (Nat × Statement)}

/-- In these bodies the statement goes on to its line, and this is the module whose body it opens. -/
def Opens (r : Reentry σ) (b : Bodies) (opening : Nat × Statement) (w : World σ) (module : Value)
    (w₁ : World σ) : Prop :=
  ∃ action, opened? r b opening.2 = some action ∧ action (w.onLine opening.1) = .ok module w₁

/-- A statement that opens a body opens that of its module, and adds a frame. -/
theorem runStatement_opens (hopens : opening.2.bodyChange = .opens label)
    (hrun : runStatement r file b opening w = .ok b' u) :
    ∃ module w₁, Opens r b opening w module w₁ ∧ b' = b.inside module w₁.machine ∧
      u = w₁.inBody file label opening.1 := by
  obtain ⟨line, statement⟩ := opening
  unfold runStatement at hrun
  rw [changeMachine_bind_apply] at hrun
  cases statement with
  | openClass name path =>
      cases hopens
      obtain ⟨module, w₁, hopened, hentered⟩ := bind_ok_iff.mp hrun
      cases hentered
      exact ⟨module, w₁, ⟨_, rfl, hopened⟩, rfl, rfl⟩
  | openModule name =>
      cases hopens
      obtain ⟨module, w₁, hopened, hentered⟩ := bind_ok_iff.mp hrun
      cases hentered
      exact ⟨module, w₁, ⟨_, rfl, hopened⟩, rfl, rfl⟩
  | _ => cases hopens

/-- Finding or making the module leaves no frames over, unless a script is abandoned in it. -/
theorem Opens.leaving (hopened : Opens (.ofFuel fuel) b opening w module w₁)
    (hread : opening.2.NamesRead) : (w.onLine opening.1).Leaving AnyProbe .value w₁ := by
  obtain ⟨action, haction, hran⟩ := hopened
  have htold := told_opened (World.leaving_tellsDefinitions AnyProbe fuel) haction hread
  exact (htold _).of_run hran (World.hostCode_anyProbe _)

/-- **An `end` undoes what its opening did**, if no frame that there was then is gone: the bodies are
those in which its body was opened, and the frames are those that there were. -/
theorem runStatement_close (hcloses : closing.2 = .close)
    (hkept : FramesKept (some w₁.machine.frames.length)
      (w₁.inBody file label opening.1).machine.frames u.machine.frames) :
    runStatement r file (b.inside module w₁.machine) closing u =
      .ok b ((u.onLine closing.1).onMachine fun m => { m with frames := w₁.machine.frames }) := by
  obtain ⟨line, statement⟩ := closing
  cases hcloses
  have hcut : truncate w₁.machine.frames.length (u.onLine line).machine.frames =
      w₁.machine.frames :=
    (hkept.trans (u.machine.setLine_kept line _)).below_script
  rw [← hcut]
  rfl

/-! ### Balanced statements -/

/-- What statements have left alone when they have come to their end: the bodies that were open, and
the frames, unless one of the statements has left those of a script over that was abandoned in it. -/
structure Returns (fuel : Nat) (file : String) (statements : List (Nat × Statement)) (b : Bodies)
    (w : World σ) (b' : Bodies) (w' : World σ) : Prop where
  bodies : b' = b
  kept : ∀ base, FramesKept (some base) w.machine.frames w'.machine.frames
  same : w.machine.SameBodies w'.machine ∨ LeaveOver AnyProbe (.ofFuel fuel) file b statements w

theorem Returns.nil (b : Bodies) (w : World σ) : Returns fuel file [] b w b w :=
  ⟨rfl, fun base => .refl (some base) _, .inl (.of_frames rfl)⟩

/-- What statements leave alone one after the other. -/
theorem Returns.append (hran : first.foldlM (runStatement (.ofFuel fuel) file) b w = .ok b₁ u₁)
    (hfirst : Returns fuel file first b w b₁ u₁) (hrest : Returns fuel file rest b₁ u₁ b' u) :
    Returns fuel file (first ++ rest) b w b' u := by
  refine ⟨hrest.bodies.trans hfirst.bodies,
    fun base => (hfirst.kept base).trans (hrest.kept base), ?_⟩
  rcases hfirst.same with hsame | hleft
  · exact hrest.same.imp hsame.trans fun hleft => hleft.after hran
  · exact .inr (hleft.append rest)

/-- Statements that come back to the bodies that were open, with the frames that the first of them found
on its line or left over. -/
theorem Returns.of_leaving {line : Nat} (hbodies : b' = b)
    (hleaving : (w.onLine line).Leaving AnyProbe .value w₁)
    (hframes : u.machine.frames = w₁.machine.frames)
    (hleft : (w.onLine line).Abandons AnyProbe w₁ →
      LeaveOver AnyProbe (.ofFuel fuel) file b statements w) :
    Returns fuel file statements b w b' u := by
  refine ⟨hbodies, fun base => ?_, ?_⟩
  · rw [hframes]
    exact (w.machine.setLine_kept line base).trans (.of_suffix hleaving.course.frames_suffix base)
  · refine (hleaving.leaves trivial).imp (fun hsame => ?_) hleft
    exact .trans (.setLine w.machine line) (.of_frames (hframes.trans hsame))

/-- A statement that neither opens nor closes a body. -/
theorem returns_keeps (hkeeps : entry.2.bodyChange = .keeps) (hread : entry.2.NamesRead)
    (hrun : runStatement (.ofFuel fuel) file b entry w = .ok b' u) :
    Returns fuel file [entry] b w b' u := by
  obtain ⟨action, hexecution, hopen⟩ := exists_execution_ofFuel AnyProbe fuel file b hread
  rw [hkeeps] at hexecution
  cases hexecution with
  | keeps htold hkept =>
      have hran : action (w.onLine entry.1) = .ok b' u := (hopen w).symm.trans hrun
      have hleaving := (htold _).of_run hran (World.hostCode_anyProbe _)
      refine .of_leaving (hkept _ _ _ hran) hleaving rfl fun habandoned => .here ?_
      rw [hrun]
      exact habandoned

/-- A whole body, if the statements in it leave alone what was there before them. -/
theorem returns_body (hopens : opening.2.bodyChange = .opens label) (hread : opening.2.NamesRead)
    (hcloses : closing.2 = .close)
    (hinner : ∀ {b b' : Bodies} {w u : World σ},
      inner.foldlM (runStatement (.ofFuel fuel) file) b w = .ok b' u →
        Returns fuel file inner b w b' u)
    (hran : (opening :: inner ++ [closing]).foldlM (runStatement (.ofFuel fuel) file) b w =
      .ok b' u) :
    Returns fuel file (opening :: inner ++ [closing]) b w b' u := by
  rw [List.cons_append, List.foldlM_cons] at hran
  obtain ⟨b₁, u₁, hopened, hran⟩ := bind_ok_iff.mp hran
  rw [List.foldlM_append] at hran
  obtain ⟨b₂, u₂, hwithin, hclosed⟩ := bind_ok_iff.mp hran
  obtain ⟨module, w₁, hmodule, rfl, rfl⟩ := runStatement_opens hopens hopened
  have hreturns := hinner hwithin
  obtain rfl := hreturns.bodies
  rw [List.foldlM_cons, bind_apply, runStatement_close hcloses (hreturns.kept _)] at hclosed
  cases hclosed
  -- What was left over in the body is gone; what was left over in opening it is not.
  refine .of_leaving rfl (hmodule.leaving hread) rfl fun habandoned => .here ?_
  rw [hopened]
  exact habandoned.widen .refl (World.Change.restack w₁ _ _).reaches (habandoned.frames.cons _)

/-- **Balanced statements leave alone what was there before them.** -/
theorem returns_balanced (hbalanced : Source.Balanced statements)
    (hread : ∀ entry ∈ statements, entry.2.NamesRead)
    (hran : statements.foldlM (runStatement (.ofFuel fuel) file) b w = .ok b' u) :
    Returns fuel file statements b w b' u := by
  induction hbalanced generalizing b w b' u with
  | nil =>
      cases hran
      exact .nil b w
  | @keeps entry rest hkeeps _ ih =>
      obtain ⟨hentry, hrest⟩ := List.forall_mem_cons.mp hread
      rw [List.foldlM_cons] at hran
      obtain ⟨b₁, u₁, hrun, hlater⟩ := bind_ok_iff.mp hran
      have halone : [entry].foldlM (runStatement (.ofFuel fuel) file) b w = .ok b₁ u₁ := by
        rw [List.foldlM_cons, bind_apply, hrun]
        rfl
      exact (returns_keeps hkeeps hentry hrun).append halone (ih hrest hlater)
  | @body label opening closing inner rest hopens _ hcloses _ ihinner ihrest =>
      have hparts : opening :: inner ++ closing :: rest = opening :: inner ++ [closing] ++ rest := by
        simp
      rw [hparts, List.forall_mem_append] at hread
      rw [hparts, List.foldlM_append] at hran
      rw [hparts]
      obtain ⟨b₁, u₁, hbody, hlater⟩ := bind_ok_iff.mp hran
      have hinner : ∀ entry ∈ inner, entry.2.NamesRead := fun entry hentry =>
        hread.1 entry (by simp [hentry])
      have hwhole := returns_body hopens (hread.1 opening (by simp)) hcloses (ihinner hinner) hbody
      exact hwhole.append hbody (ihrest hread.2 hlater)

/-! ### The bodies that are open -/

/-- A run that has got into a body has opened it on the way, and then has run the statements in it. -/
theorem exists_opens (hopens : opening.2.bodyChange = .opens label)
    (hran : (before ++ opening :: inner).foldlM (runStatement r file) b w = .ok b' u) :
    ∃ b₀ w₀ module w₁, before.foldlM (runStatement r file) b w = .ok b₀ w₀ ∧
      Opens r b₀ opening w₀ module w₁ ∧
      inner.foldlM (runStatement r file) (b₀.inside module w₁.machine)
        (w₁.inBody file label opening.1) = .ok b' u := by
  rw [List.foldlM_append] at hran
  obtain ⟨b₀, w₀, hbefore, hran⟩ := bind_ok_iff.mp hran
  rw [List.foldlM_cons] at hran
  obtain ⟨b₁, u₁, hopened, hran⟩ := bind_ok_iff.mp hran
  obtain ⟨module, w₁, hmodule, rfl, rfl⟩ := runStatement_opens hopens hopened
  exact ⟨b₀, w₀, module, w₁, hbefore, hmodule, hran⟩

/-- A body that is open: the statement that opened it, and its module. -/
structure Opened where
  opening : Nat × Statement
  module : Value

/-- **The bodies that are open after these statements**, the innermost first: from the top level on,
each of them was opened in the one before it, and in between balanced statements were run. -/
inductive Standing (r : Reentry σ) (file : String) (top : Value) (w : World σ) :
    List (Nat × Statement) → List Opened → Bodies → World σ → Prop
  | top {inner : List (Nat × Statement)} {u : World σ} (hinner : Source.Balanced inner)
      (hran : inner.foldlM (runStatement r file) ⟨[top], []⟩ w = .ok ⟨[top], []⟩ u) :
      Standing r file top w inner [] ⟨[top], []⟩ u
  | body {label : String} {opened : List Opened} {opening : Nat × Statement} {module : Value}
      {before inner : List (Nat × Statement)} {b : Bodies} {w₀ w₁ u : World σ}
      (houter : Standing r file top w before opened b w₀)
      (hopens : opening.2.bodyChange = .opens label) (hmodule : Opens r b opening w₀ module w₁)
      (hinner : Source.Balanced inner)
      (hran : inner.foldlM (runStatement r file) (b.inside module w₁.machine)
        (w₁.inBody file label opening.1) = .ok (b.inside module w₁.machine) u) :
      Standing r file top w (before ++ opening :: inner) (⟨opening, module⟩ :: opened)
        (b.inside module w₁.machine) u

variable {opened : List Opened} {openings : List (Nat × Statement)}

/-- The scopes are the modules of the open bodies, and below them the top level. -/
theorem Standing.scopes_eq (h : Standing r file top w before opened b u) :
    b.scopes = opened.map Opened.module ++ [top] := by
  induction h with
  | top => rfl
  | body _ _ _ _ _ ih => exact congrArg (List.cons _) ih

theorem Standing.length_marks (h : Standing r file top w before opened b u) :
    b.marks.length = opened.length := by
  induction h with
  | top => rfl
  | body _ _ _ _ _ ih => exact congrArg (· + 1) ih

/-- So there is always an innermost one, and no other stands in for it. -/
theorem Standing.head?_scopes (h : Standing r file top w before opened b u) :
    b.scopes.head? = some b.innermost := by
  unfold Bodies.innermost
  rw [h.scopes_eq]
  cases opened <;> rfl

/-- **Where a script has got to, the bodies that are open are those of the statements that have not
been matched.** -/
theorem standing_of_unfinished (hbefore : Source.Unfinished openings before)
    (hread : ∀ entry ∈ before, entry.2.NamesRead)
    (hran : before.foldlM (runStatement (.ofFuel fuel) file) ⟨[top], []⟩ w = .ok b u) :
    ∃ opened, Standing (.ofFuel fuel) file top w before opened b u := by
  induction hbefore generalizing b u with
  | top hinner =>
      obtain rfl := (returns_balanced hinner hread hran).bodies
      exact ⟨[], .top hinner hran⟩
  | @body label opening openings before inner houter hopens hinner ih =>
      obtain ⟨hearlier, hlater⟩ := List.forall_mem_append.mp hread
      obtain ⟨b₀, w₀, module, w₁, houtside, hmodule, hran⟩ := exists_opens hopens hran
      obtain rfl := (returns_balanced hinner (List.forall_mem_cons.mp hlater).2 hran).bodies
      obtain ⟨opened, hstanding⟩ := ih hearlier houtside
      exact ⟨⟨opening, module⟩ :: opened, .body hstanding hopens hmodule hinner hran⟩

/-! ### Scripts -/

/-- The script has got to this `end`, which closes the body of the statement that it matches: since that
one was run, the statements have been balanced, and after the `end` the bodies are those before it, and
the frames are those above which it set the one of its body. -/
structure Matched (r : Reentry σ) (file : String) (top : Value) (w : World σ)
    (before : List (Nat × Statement)) (closing : Nat × Statement) (b : Bodies) (u : World σ) where
  /-- The statements before the one that is matched. -/
  front : List (Nat × Statement)
  opening : Nat × Statement
  /-- The statements in the body. -/
  inner : List (Nat × Statement)
  label : String
  /-- The bodies in which the body was opened. -/
  outside : Bodies
  reached : World σ
  module : Value
  /-- The world in which the body was opened, after its module had been found or made. -/
  entered : World σ
  parts : before = front ++ opening :: inner
  opens : opening.2.bodyChange = .opens label
  balanced : Source.Balanced inner
  ran : front.foldlM (runStatement r file) ⟨[top], []⟩ w = .ok outside reached
  opened : Opens r outside opening reached module entered
  inside : b = outside.inside module entered.machine
  closed : runStatement r file b closing u = .ok outside
    ((u.onLine closing.1).onMachine fun m => { m with frames := entered.machine.frames })

/-- What is told of the bodies of a script whose statements are run from the top level on. -/
structure NestsBodies (fuel : Nat) (file : String) (top : Value)
    (statements : List (Nat × Statement)) (w : World σ) : Prop where
  /-- Wherever the script has got to, the scopes are the top level and, above it, the modules of the
  statements that have opened a body and are not matched yet.  There is always an innermost one. -/
  standing : ∀ {before rest : List (Nat × Statement)} {b : Bodies} {u : World σ},
    statements = before ++ rest →
    before.foldlM (runStatement (.ofFuel fuel) file) ⟨[top], []⟩ w = .ok b u →
    ∃ opened, Standing (.ofFuel fuel) file top w before opened b u ∧
      b.scopes = opened.map Opened.module ++ [top] ∧ b.marks.length = opened.length ∧
      b.scopes.head? = some b.innermost
  /-- Each `end` that the script gets to closes the body that it matches. -/
  closes : ∀ {before rest : List (Nat × Statement)} {closing : Nat × Statement} {b : Bodies}
    {u : World σ}, statements = before ++ closing :: rest → closing.2 = .close →
    before.foldlM (runStatement (.ofFuel fuel) file) ⟨[top], []⟩ w = .ok b u →
    Nonempty (Matched (.ofFuel fuel) file top w before closing b u)
  /-- A script that has come to its end is at the top level again, with the frames that it had. -/
  returns : ∀ {b : Bodies} {u : World σ},
    statements.foldlM (runStatement (.ofFuel fuel) file) ⟨[top], []⟩ w = .ok b u →
    Returns fuel file statements ⟨[top], []⟩ w b u
  /-- And when its own frame is taken away, the frames are those before it. -/
  frames : ∀ {u : World σ}, runScript (.ofFuel fuel) file top statements w = .ok () u →
    u.machine.frames = w.machine.frames

/-- The running of statements that close what they open. -/
theorem nestsBodies (hnests : Source.Nests 0 statements)
    (hread : ∀ entry ∈ statements, entry.2.NamesRead) (fuel : Nat) (file : String) (top : Value)
    (w : World σ) : NestsBodies fuel file top statements w where
  standing {before rest b u} hparts hran := by
    subst hparts
    obtain ⟨openings, hbefore, -⟩ := Source.exists_unfinished hnests
    obtain ⟨opened, hstanding⟩ :=
      standing_of_unfinished hbefore (List.forall_mem_append.mp hread).1 hran
    exact ⟨opened, hstanding, hstanding.scopes_eq, hstanding.length_marks, hstanding.head?_scopes⟩
  closes {before rest closing b u} hparts hcloses hran := by
    subst hparts
    obtain ⟨front, opening, label, inner, rfl, hopens, hinner⟩ := hnests.exists_matching hcloses
    have hbefore := (List.forall_mem_append.mp hread).1
    obtain ⟨b₀, w₀, module, w₁, hfront, hmodule, hran⟩ := exists_opens hopens hran
    have hreturns := returns_balanced hinner
      (fun entry hentry => hbefore entry (by simp [hentry])) hran
    obtain rfl := hreturns.bodies
    exact ⟨{
      front, opening, inner, label, module
      outside := b₀
      reached := w₀
      entered := w₁
      parts := rfl
      opens := hopens
      balanced := hinner
      ran := hfront
      opened := hmodule
      inside := rfl
      closed := runStatement_close hcloses (hreturns.kept _) }⟩
  returns hran := returns_balanced hnests.balanced hread hran
  frames {u} hran := by
    unfold runScript at hran
    rw [machine_bind_apply, changeMachine_bind_apply] at hran
    obtain ⟨b, u₁, hstatements, hcut⟩ := bind_ok_iff.mp hran
    cases hcut
    exact ((returns_balanced hnests.balanced hread hstatements).kept _).below_script

/-- **The bodies of a script are closed as they were opened.**  A text that is read has one statement
for each line that is not blank, with the number of that line, and its statements are balanced.  However
they are run, each `end` closes the body that it matches, and at the end all are closed. -/
theorem bodies_nest {source : List Char} (hparse : Source.parse source = .ok statements) :
    List.Forall₂ Source.Says (Source.writtenLines 1 (Text.lines source)) statements ∧
    statements.Pairwise (fun earlier later => earlier.1 < later.1) ∧
    Source.Balanced statements ∧
    ∀ (fuel : Nat) (file : String) (top : Value) (w : World σ),
      NestsBodies fuel file top statements w := by
  have hlines := Source.statements_parse hparse
  have hnests := Source.nests_parse hparse
  exact ⟨hlines, Source.pairwise_numbers hlines, hnests.balanced,
    nestsBodies hnests (Source.namesRead_parse hparse)⟩

/-- A script with one body in another. -/
def nestedText : String :=
  "class Run # of the host\n\n  module Limits\n  end\nend\n"

/-- Its statements before the last `end`. -/
def nestedBefore : List (Nat × Statement) :=
  [(1, .openClass "Run".toList none), (3, .openModule "Limits".toList), (4, .close)]

/-- The script gets to its last `end` in a bare world, and one body is open then. -/
theorem exists_run_nestedBefore :
    ∃ b u, nestedBefore.foldlM (runStatement (.ofFuel 1) "run.rb") ⟨[CoreClass.object.value], []⟩
        World.bare = .ok b u ∧ b.marks = [0] := by
  have hmarks : (match nestedBefore.foldlM (runStatement (.ofFuel 1) "run.rb")
      ⟨[CoreClass.object.value], []⟩ World.bare with
    | .ok b _ => b.marks == [0]
    | .error _ _ => false) = true := by
    decide +kernel
  match hbefore : nestedBefore.foldlM (runStatement (.ofFuel 1) "run.rb")
      ⟨[CoreClass.object.value], []⟩ World.bare with
  | .ok b u =>
      rw [hbefore] at hmarks
      exact ⟨b, u, rfl, eq_of_beq hmarks⟩
  | .error _ _ =>
      rw [hbefore] at hmarks
      cases hmarks

/-- The `end` closes that body, and then the script is at the top level again. -/
theorem bodies_nest_nested :
    let object := CoreClass.object.value
    let statements := nestedBefore ++ [(5, .close)]
    Source.parse nestedText.toList = .ok statements ∧ Source.Balanced statements ∧
    ∃ b u u',
      nestedBefore.foldlM (runStatement (.ofFuel 1) "run.rb") ⟨[object], []⟩ World.bare =
        .ok b u ∧ b.marks = [0] ∧
      Nonempty (Matched (.ofFuel 1) "run.rb" object World.bare nestedBefore (5, .close) b u) ∧
      statements.foldlM (runStatement (.ofFuel 1) "run.rb") ⟨[object], []⟩ World.bare =
        .ok ⟨[object], []⟩ u' := by
  intro object statements
  have hparse : Source.parse nestedText.toList = .ok statements := by with_unfolding_all rfl
  obtain ⟨-, -, hbalanced, hnests⟩ := bodies_nest (σ := Unit) hparse
  have hrun := hnests 1 "run.rb" object World.bare
  obtain ⟨b, u, hbefore, hmarks⟩ := exists_run_nestedBefore
  have hmatched : Nonempty (Matched (.ofFuel 1) "run.rb" object World.bare nestedBefore
      (5, .close) b u) := hrun.closes rfl rfl hbefore
  obtain ⟨b₀, u', hended⟩ : ∃ b₀ u', statements.foldlM (runStatement (.ofFuel 1) "run.rb")
      ⟨[object], []⟩ World.bare = .ok b₀ u' := by
    obtain ⟨matched⟩ := hmatched
    rw [List.foldlM_append]
    exact ⟨_, _, bind_ok_iff.mpr ⟨b, u, hbefore, bind_ok_iff.mpr ⟨_, _, matched.closed, rfl⟩⟩⟩
  obtain rfl := (hrun.returns hended).bodies
  exact ⟨hparse, hbalanced, b, u, u', hbefore, hmarks, hmatched, hended⟩

end Loader

end EmbeddedRuby
