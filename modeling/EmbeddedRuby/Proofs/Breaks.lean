import EmbeddedRuby.Proofs.ConfinedBreaks

/-!
# Where breaks go

A block that breaks is left by a jump, and the jump has to get past all that is still running.  On
the way to the block a run has passed blocks, callbacks of the host's, iterations and barriers; the
jump goes back the same way (`Eval.ComesTo`).

The numbers of iterations only grow, so there is one iteration at most on the way that a jump can be
for.  A barrier cannot stand behind it: what runs behind a barrier is left for an iteration only out
in the open, with the stack of running blocks as it was before, and a block that breaks stands on that
stack itself.  So the break arrives at its iteration (`Eval.ComesTo.endsIteration`).  A proc that was
called directly is entered for no iteration, and a break out of it arrives at the barrier that is
next (`Eval.ComesTo.stopsAtBarrier`).

The main statement is `Vm.breaks_reach_their_iteration`.  It says where the breaks of blocks and procs
arrive in any program of the host's, and also that nothing else is left for an iteration.
-/

namespace EmbeddedRuby

open Eval

variable {σ α β : Type}

namespace Vm

/-- Jobs are left for iterations only out in the open. -/
theorem Job.breaksOpenly {fuel : Nat} {job : Eval σ α} (hjob : Job AnyProbe (.ofFuel fuel) job) :
    ToldBy World.openly job := by
  have hconfines := Reentry.confinesBreaks_ofFuel (σ := σ) fuel
  have hr := Reentry.follows_ofFuel (σ := σ) AnyProbe fuel
  cases hjob with
  | task task => exact hconfines.perform hr task
  | callWithClosure receiver method args hbody => exact hconfines.iteration hr fun _ => rfl

end Vm

namespace Eval

/-! ### What a break gets past -/

variable {x : Eval σ α} {y : Eval σ β} {w u u' : World σ} {within : List Stop} {target : Nat}
  {goal : Option Nat} {v : Value}

/-- A break gets out of the run `x`, past all that is `within`. -/
structure GetsOut (x : Eval σ α) (w : World σ) (within : List Stop) (goal : Option Nat) (v : Value)
    (u' : World σ) : Prop where
  left : x w = .error (.jump (.breakTo goal v)) u'
  unprotected : .barrier ∉ within
  otherIterations : ∀ target, goal = some target → .iteration target ∉ within

/-- Of what is `within` the run `x` the iteration `target` ends with the value `v`: it is there once,
it was given this number when it began, no barrier stands behind it, and both stacks are as they were
when it began. -/
def EndsIteration (x : Eval σ α) (w : World σ) (within : List Stop) (target : Nat) (v : Value)
    (u' : World σ) : Prop :=
  ∃ outer inner fuel call begun,
    within = outer ++ .iteration target :: inner ∧
    .iteration target ∉ outer ++ inner ∧
    .barrier ∉ inner ∧
    begun.machine.lastTarget + 1 = target ∧
    ComesTo (iterated (.ofFuel fuel) call) begun outer x w ∧
    iterated (.ofFuel fuel) call begun = .ok v (u'.restored begun) ∧
    begun.machine.SameStacks (u'.restored begun).machine

/-- Of what is `within` the run `x` the last barrier stops a jump: it has the tag of breaks to report,
and both stacks are as they were when the barrier was put up. -/
def StopsAtBarrier (x : Eval σ α) (w : World σ) (within : List Stop) (v : Value) (u' : World σ) :
    Prop :=
  ∃ outer inner, ∃ γ : Type, ∃ (job : Eval σ γ) (jump : Jump) (begun : World σ),
    within = outer ++ .barrier :: inner ∧
    .barrier ∉ inner ∧
    ComesTo (protect job) begun outer x w ∧
    protect job begun = .ok (.error jump) (u'.restored begun) ∧
    jump = .breakTo none v ∧ jump.tag = 2 ∧
    begun.machine.SameStacks (u'.restored begun).machine

/-- An iteration on the way begins later than the run, so its number is greater. -/
theorem EndsIteration.lastTarget_lt (h : EndsIteration x w within target v u') :
    w.machine.lastTarget < target := by
  obtain ⟨outer, inner, fuel, call, begun, -, -, -, hnumber, hway, -⟩ := h
  exact hnumber ▸ Nat.lt_succ_of_le hway.reaches.lastTarget_le

/-- What ends in a part of a run ends in the run. -/
theorem EndsIteration.widen {γ : Type} {x' : Eval σ γ} {w' : World σ} {stops : List Stop}
    (h : EndsIteration x w within target v u') (hstops : .iteration target ∉ stops)
    (hway : ComesTo x w stops x' w') : EndsIteration x' w' (stops ++ within) target v u' := by
  obtain ⟨outer, inner, fuel, call, begun, rfl, honly, hopen, hnumber, hinner, hends⟩ := h
  refine ⟨stops ++ outer, inner, fuel, call, begun, by simp, ?_, hopen, hnumber,
    hway.trans hinner, hends⟩
  rw [List.append_assoc, List.mem_append]
  rintro (hbefore | hafter)
  · exact hstops hbefore
  · exact honly hafter

theorem StopsAtBarrier.widen {γ : Type} {x' : Eval σ γ} {w' : World σ} {stops : List Stop}
    (h : StopsAtBarrier x w within v u') (hway : ComesTo x w stops x' w') :
    StopsAtBarrier x' w' (stops ++ within) v u' := by
  obtain ⟨outer, inner, γ, job, jump, begun, rfl, hopen, hinner, hends⟩ := h
  exact ⟨stops ++ outer, inner, γ, job, jump, begun, by simp, hopen, hway.trans hinner, hends⟩

/-- An iteration ends with a break that is for it. -/
theorem endsIteration_here {fuel : Nat} {call : Nat → Call σ} (hnumber : w.machine.lastTarget + 1 = target)
    (h : GetsOut ((Reentry.ofFuel fuel).send (call target)) w.iterating within (some target) v u') :
    EndsIteration (iterated (.ofFuel fuel) call) w (.iteration target :: within) target v u' := by
  have hends : iterated (.ofFuel fuel) call w = .ok v (u'.restored w) := by
    rw [iterated_apply, hnumber]
    exact iterate_of_break h.left
  have hfollows := (Reentry.follows_ofFuel (σ := σ) AnyProbe fuel).send_any (call target) w.iterating
    w.iterating.hostCode_anyProbe
  obtain ⟨hframes, hyields⟩ := hfollows.sameStacks_restored h.left
  exact ⟨[], within, fuel, call, w, rfl, h.otherIterations target rfl, h.unprotected, hnumber, .here,
    hends, hframes, hyields⟩

/-- A barrier stops a break that is for no iteration. -/
theorem stopsAtBarrier_here {fuel : Nat} (hjob : Vm.Job AnyProbe (.ofFuel fuel) x)
    (h : GetsOut x w within none v u') : StopsAtBarrier (protect x) w (.barrier :: within) v u' := by
  have hfollows := hjob.follows (Reentry.follows_ofFuel AnyProbe fuel) w w.hostCode_anyProbe
  refine ⟨[], within, α, x, _, w, rfl, h.unprotected, .here, ?_, rfl, rfl,
    hfollows.sameStacks_restored h.left⟩
  rw [protect_apply, h.left]

/-! ### Where a break arrives -/

/-- A break gets out of the run or arrives on the way, if this is so for what stands around the
iterations and the barriers that it meets: it gets past all else. -/
theorem ComesTo.getsOut_or (Arrives : {α : Type} → Eval σ α → World σ → List Stop → Prop)
    (hwiden : ∀ {α γ : Type} {x : Eval σ α} {x' : Eval σ γ} {w w' : World σ} {within : List Stop},
      Arrives x w within → ComesTo x w [] x' w' → Arrives x' w' within)
    (hiterate : ∀ {fuel : Nat} {call : Nat → Call σ} {w : World σ} {within : List Stop},
      let number := w.machine.lastTarget + 1
      let sent := (Reentry.ofFuel fuel).send (call number)
      GetsOut sent w.iterating within goal v u' ∨ Arrives sent w.iterating within →
        GetsOut (iterated (.ofFuel fuel) call) w (.iteration number :: within) goal v u' ∨
          Arrives (iterated (.ofFuel fuel) call) w (.iteration number :: within))
    (hbarrier : ∀ {α : Type} {fuel : Nat} {job : Eval σ α} {w : World σ} {within : List Stop},
      Vm.Job AnyProbe (.ofFuel fuel) job → ComesTo y u within job w →
      GetsOut job w within goal v u' ∨ Arrives job w within →
        GetsOut (protect job) w (.barrier :: within) goal v u' ∨
          Arrives (protect job) w (.barrier :: within))
    (h : ComesTo y u within x w) (hbreak : y u = .error (.jump (.breakTo goal v)) u') :
    GetsOut x w within goal v u' ∨ Arrives x w within := by
  have lift : ∀ {α γ : Type} {x : Eval σ α} {x' : Eval σ γ} {w w' : World σ} {within : List Stop},
      GetsOut x w within goal v u' ∨ Arrives x w within → ComesTo x w [] x' w' →
      (x w = .error (.jump (.breakTo goal v)) u' → x' w' = .error (.jump (.breakTo goal v)) u') →
        GetsOut x' w' within goal v u' ∨ Arrives x' w' within := by
    rintro α γ x x' w w' within (hout | harrives) hway hleft
    · exact .inl ⟨hleft hout.left, hout.unprotected, hout.otherIterations⟩
    · exact .inr (hwiden harrives hway)
  induction h with
  | here => exact .inl ⟨hbreak, List.not_mem_nil, fun _ _ => List.not_mem_nil⟩
  | first _ ih => exact lift ih (.first .here) fun hleft => bind_error_iff.mpr (.inl hleft)
  | rest hfirst hon _ ih =>
      exact lift ih (.rest hfirst hon .here) fun hleft =>
        bind_error_iff.mpr (.inr ⟨_, _, hfirst, hleft⟩)
  | block hargs _ ih =>
      refine lift ih (.block hargs .here) fun hleft => ?_
      rw [asBlock_apply _ hargs, hleft]
  | caught _ ih =>
      refine lift ih (.caught .here) fun hleft => ?_
      rw [catchPanic_apply, hleft]
  | iterate _ ih => exact hiterate ih
  | barrier hjob hway ih => exact hbarrier hjob hway ih

/-- **A break for an iteration arrives there**, if the iteration is on the way and the block that
breaks is still running.  It cannot arrive at a barrier before. -/
theorem ComesTo.endsIteration (h : ComesTo y u within x w)
    (hbreak : y u = .error (.jump (.breakTo (some target) v)) u')
    (hinside : u.machine.yields.length < u'.machine.yields.length) :
    GetsOut x w within (some target) v u' ∨ EndsIteration x w within target v u' := by
  refine ComesTo.getsOut_or (fun x w within => EndsIteration x w within target v u')
    (fun hends hway => hends.widen List.not_mem_nil hway) ?_ ?_ h hbreak
  · rintro fuel call w within number sent (hout | hends)
    · by_cases hown : number = target
      · subst hown
        exact .inr (endsIteration_here rfl hout)
      · have hother : Stop.iteration target ≠ .iteration number := fun heq =>
          hown (Stop.iteration.inj heq).symm
        have hleft : iterated (.ofFuel fuel) call w = .error (.jump (.breakTo (some target) v)) u' := by
          rw [iterated_apply]
          refine iterate_of_otherExit hout.left fun value heq => ?_
          cases heq
          exact hown rfl
        refine .inl ⟨hleft, List.not_mem_cons_of_ne_of_not_mem nofun hout.unprotected, ?_⟩
        rintro other ⟨⟩
        exact List.not_mem_cons_of_ne_of_not_mem hother (hout.otherIterations target rfl)
    · have hlater : number < target := hends.lastTarget_lt
      refine .inr (hends.widen ?_ (.iterate .here))
      rw [List.mem_singleton]
      exact fun heq => Nat.ne_of_gt hlater (Stop.iteration.inj heq)
  · rintro α fuel job w within hjob hway (hout | hends)
    · -- a break out in the open leaves the stack of running blocks as it was before the job, while
      -- the block that breaks stands on it
      have hopen : w.LeftOpenly target u' := ((hjob.breaksOpenly w).of_run hout.left).goal rfl
      have hbelow := hway.yields_suffix.length_le
      rw [hopen.yields] at hinside
      omega
    · exact .inr (hends.widen (by simp) (.barrier hjob .here))

/-- **A break for no iteration arrives at the next barrier**, if there is one on the way. -/
theorem ComesTo.stopsAtBarrier (h : ComesTo y u within x w)
    (hbreak : y u = .error (.jump (.breakTo none v)) u') :
    GetsOut x w within none v u' ∨ StopsAtBarrier x w within v u' := by
  refine ComesTo.getsOut_or (fun x w within => StopsAtBarrier x w within v u')
    (fun hstops hway => hstops.widen hway) ?_ ?_ h hbreak
  · rintro fuel call w within number sent (hout | hstops)
    · refine .inl ⟨?_, List.not_mem_cons_of_ne_of_not_mem nofun hout.unprotected, nofun⟩
      rw [iterated_apply]
      exact iterate_of_otherExit hout.left nofun
    · exact .inr (hstops.widen (.iterate .here))
  · rintro α fuel job w within hjob - (hout | hstops)
    · exact .inr (stopsAtBarrier_here hjob hout)
    · exact .inr (hstops.widen (.barrier hjob .here))

end Eval

namespace Vm

/-- **Where breaks go**, in any program of the host's, from whatever world, and however deep it is
nested.  Whenever it comes to a block or a proc that breaks, past blocks, callbacks, iterations and
barriers:

* if the block was entered for an iteration, the break ends this one: of what is on the way it is the
  only one that was given the number, no barrier stands behind it, it gives the value of the break,
  which is nil if the host gave none, and both stacks are as they were when it began;
* if it was entered for none, because a proc was called directly, no iteration stops the jump.  The
  next barrier does, puts both stacks back as they were, and has the tag of breaks to report.

No other jump goes to an iteration.  A call of a method is left for one only if a block of this call
was entered for it and has broken, or else, as jobs are, if a method of the host's has broken out in
the open; that goes to the iteration of the block that was running before. -/
theorem breaks_reach_their_iteration (fuel : Nat) :
    (∀ {role : Role} (program : Program σ role) {depth : Nat} {e : Entry σ} {w u u' : World σ}
        {within : List Stop} {v : Value},
      ComesTo (e.run (.ofFuel depth)) u within ((Reentry.ofFuel fuel).run program) w →
      e.Breaks (.ofFuel depth) u v u' →
        (∀ target, e.target = some target →
          EndsIteration ((Reentry.ofFuel fuel).run program) w within target v u') ∧
        (e.target = none → StopsAtBarrier ((Reentry.ofFuel fuel).run program) w within v u')) ∧
    (∀ {α : Type} {job : Eval σ α}, Job AnyProbe (.ofFuel fuel) job →
      ∀ {w w' : World σ} {goal : Nat} {v : Value},
        job w = .error (.jump (.breakTo (some goal) v)) w' → w.LeftOpenly goal w') ∧
    ∀ {call : Call σ} {w w' : World σ} {goal : Nat} {v : Value},
      (Reentry.ofFuel fuel).send call w = .error (.jump (.breakTo (some goal) v)) w' →
        w.LeftOpenly goal w' ∨
          (call.block.target? = some goal ∧ ∃ depth, ∃ e : Entry σ, ∃ u, e.target = some goal ∧
            ComesTo (e.run (.ofFuel depth)) u [] ((Reentry.ofFuel fuel).send call) w ∧
            e.Breaks (.ofFuel depth) u v w') := by
  refine ⟨fun {_} program {depth e w u u' within v} hway hbreaks => ?_, ?_,
    Reentry.entry_of_send_break⟩
  · have hr := Reentry.follows_ofFuel (σ := σ) AnyProbe depth
    have hbroken : e.run (.ofFuel depth) u = .error (.jump (.breakTo e.target v)) u' :=
      (Entry.run_eq_break_iff hr).mpr ⟨rfl, hbreaks⟩
    have hsettles := (Reentry.follows_ofFuel (σ := σ) AnyProbe fuel).run program
      program.uses_anyProbe w w.hostCode_anyProbe
    constructor
    · intro target htarget
      rw [htarget] at hbroken
      have hinside : u.machine.yields.length < u'.machine.yields.length := by
        rw [hbreaks.yields hr]
        exact Nat.lt_succ_self _
      exact (hway.endsIteration hbroken hinside).resolve_left fun hout =>
        hsettles.noJump _ _ hout.left
    · intro htarget
      rw [htarget] at hbroken
      exact (hway.stopsAtBarrier hbroken).resolve_left fun hout => hsettles.noJump _ _ hout.left
  · exact fun {_ _} hjob {w w' goal v} hleft => ((hjob.breaksOpenly w).of_run hleft).goal rfl

/-- A program that counts to three with a body. -/
def countWith {role : Role} (body : Closure Unit)
    (next : Answer (Except Error Value) → Program Unit role) : Program Unit role :=
  .callWithBlock (Value.ofFixnum 3) "times" [] body next

/-- The block with that body, when it is entered for the first number. -/
def firstCount (body : Closure Unit) (target : Nat) : Entry Unit :=
  ⟨.block, some body, [Value.ofFixnum 0], Value.nil, some target⟩

/-- The program comes to this block, past a barrier and an iteration. -/
theorem comesTo_firstCount {role : Role} (fuel : Nat) {w : World Unit} (hup : w.state = .up)
    (hclosures : w.blockCallback = some .closures) (hknown : w.knowing "times" = w)
    (hmethod : w.machine.findMethod (w.machine.heap.classOf (Value.ofFixnum 3)) (w.idOf "times") =
      some (.builtin .integerTimes))
    (body : Closure Unit) (next : Answer (Except Error Value) → Program Unit role) :
    ComesTo ((firstCount body (w.machine.lastTarget + 1)).run (.ofFuel (fuel + 2))) w.iterating
      [.barrier, .iteration (w.machine.lastTarget + 1)]
      (Program.run (.ofFuel (fuel + 3)) (countWith body next)) w := by
  have hjob : Job AnyProbe (.ofFuel (fuel + 3) : Reentry Unit)
      (callWithClosure (.ofFuel (fuel + 3)) (Value.ofFixnum 3) (w.idOf "times") [] body) :=
    .callWithClosure _ _ _ fun args => (body args).uses_anyProbe
  have hcall : ComesTo (protect (callWithClosure (.ofFuel (fuel + 3)) (Value.ofFixnum 3)
      (w.idOf "times") [] body)) (w.knowing "times") []
      (Program.run (.ofFuel (fuel + 3)) (countWith body next)) w :=
    Program.comesTo_callWithBlock (by decide) (by decide) (by decide) hup hclosures _ body next
  rw [hknown] at hcall
  let call : Call Unit :=
    { receiver := Value.ofFixnum 3, method := w.idOf "times", args := [],
      block := .host (some body) (w.machine.lastTarget + 1) }
  have hfound : w.iterating.machine.findMethod (w.iterating.machine.heap.classOf call.receiver)
      call.method = some (.builtin .integerTimes) := hmethod
  have hsend : ComesTo ((Method.builtin .integerTimes).body (.ofFuel (fuel + 2)) call) w.iterating []
      ((Reentry.ofFuel (fuel + 3)).send call) w.iterating := Reentry.comesTo_send hfound
  have hthree : (Value.ofFixnum 3).fixnum? = some 3 := by decide
  have hcount : w.iterating.machine.heap.int? call.receiver = some 3 := by
    unfold Heap.int?
    rw [hthree]
  have hyield : ComesTo ((firstCount body (w.machine.lastTarget + 1)).run (.ofFuel (fuel + 2)))
      w.iterating [] (Builtin.integerTimes.run (.ofFuel (fuel + 2)) call) w.iterating :=
    comesTo_times hcount (by decide) rfl
  exact hcall.trans (.barrier hjob (.iterate (hsend.trans hyield)))

/-- A body that breaks with seven. -/
def breakSeven : Closure Unit :=
  fun _ => .done (.breakValue (Value.ofFixnum 7))

/-- A world like `counting`, with a proc of that body. -/
def countingProc : World Unit :=
  { counting.addProc breakSeven with procCallback := some .closures }

/-- That proc. -/
def sevenProc : Value :=
  (counting.machine.alloc CoreClass.procClass.value (.proc 0)).1

/-- A body that counts itself, with the body that breaks. -/
def countInside : Closure Unit :=
  fun _ => countWith breakSeven fun _ => .done (.value Value.nil)

/-- A body that calls the proc. -/
def callInside : Closure Unit :=
  fun _ => .ask (.callProc sevenProc [] none) fun _ => .done (.value Value.nil)

/-- A program that counts with a body. -/
def counts (body : Closure Unit) : Program Unit .main :=
  countWith body fun _ => .done ()

/-- The block in which the program has a body run for the first time. -/
def countingBlock : World Unit :=
  countingProc.iterating.enterBlock (some 2)

/-- The program comes to the first run of the body. -/
theorem comesTo_firstBody (fuel : Nat) (body : Closure Unit) :
    ComesTo ((Reentry.ofFuel (fuel + 2)).run (body [Value.ofFixnum 0])) countingBlock
      [.barrier, .iteration 2] ((Reentry.ofFuel (fuel + 4)).run (counts body)) countingProc := by
  have hmethod : countingProc.machine.findMethod
      (countingProc.machine.heap.classOf (Value.ofFixnum 3)) (countingProc.idOf "times") =
        some (.builtin .integerTimes) := by rfl
  have hblock : ComesTo ((firstCount body 2).run (.ofFuel (fuel + 2))) countingProc.iterating
      [.barrier, .iteration 2] ((Reentry.ofFuel (fuel + 4)).run (counts body)) countingProc :=
    comesTo_firstCount fuel rfl rfl rfl hmethod body _
  have hargs : [Value.ofFixnum 0].length < argumentLimit := by decide
  have hbody : ComesTo ((Reentry.ofFuel (fuel + 2)).run (body [Value.ofFixnum 0])) countingBlock []
      ((firstCount body 2).run (.ofFuel (fuel + 2))) countingProc.iterating :=
    .block hargs (Reentry.comesTo_enterCallback rfl body _ _)
  exact hblock.trans hbody

/-- What breaks with seven in these worlds. -/
theorem breaks_breakSeven {fuel : Nat} {e : Entry Unit} {u : World Unit}
    (hbody : e.body = some breakSeven) (hargs : e.args.length < argumentLimit)
    (hclosures : u.callback e.kind = some .closures) :
    e.Breaks (.ofFuel (fuel + 1)) u (Value.ofFixnum 7) (u.enterBlock e.target) := by
  obtain ⟨kind, body, args, blockArg, target⟩ := e
  cases hbody
  exact ⟨hargs, .closures, ⟨2, Value.ofFixnum 7⟩, _, hclosures, rfl, rfl, .value _⟩

/-- Where the body counts itself, the break ends the inner count and not the outer one, and no barrier
stops it; where the body calls the proc, the inner barrier stops the break, in front of the count. -/
theorem breaks_reach_their_iteration_counting :
    (∃ u', EndsIteration ((Reentry.ofFuel 6).run (counts countInside)) countingProc
      [.barrier, .iteration 2, .barrier, .iteration 3] 3 (Value.ofFixnum 7) u') ∧
    ∃ u', StopsAtBarrier ((Reentry.ofFuel 6).run (counts callInside)) countingProc
      [.barrier, .iteration 2, .barrier] (Value.ofFixnum 7) u' := by
  obtain ⟨harrive, -⟩ := breaks_reach_their_iteration (σ := Unit) 6
  constructor
  · have hmethod : countingBlock.machine.findMethod
        (countingBlock.machine.heap.classOf (Value.ofFixnum 3)) (countingBlock.idOf "times") =
          some (.builtin .integerTimes) := by rfl
    have hinner : ComesTo ((firstCount breakSeven 3).run (.ofFuel 2)) countingBlock.iterating
        [.barrier, .iteration 3] ((Reentry.ofFuel 4).run (countInside [Value.ofFixnum 0]))
        countingBlock := comesTo_firstCount 0 rfl rfl rfl hmethod breakSeven _
    have hway := (comesTo_firstBody 2 countInside).trans hinner
    exact ⟨_, (harrive _ hway (breaks_breakSeven rfl (by decide) rfl)).1 3 rfl⟩
  · have hcall := Program.comesTo_callProc (r := .ofFuel 3) (w := countingBlock) rfl sevenProc
      fun _ => (.done (.value Value.nil) : Program Unit .block)
    have hproc : countingBlock.machine.heap.body? sevenProc = some (.proc 0) := by rfl
    have hentry := Reentry.comesTo_of_callProc (r := .ofFuel 3) hproc [] none Value.nil
    have hway := (comesTo_firstBody 2 callInside).trans
      (hcall.trans (.barrier (.task (.callProc sevenProc [] Value.nil)) hentry))
    exact ⟨_, (harrive _ hway (breaks_breakSeven rfl (by decide) rfl)).2 rfl⟩

end Vm

end EmbeddedRuby
