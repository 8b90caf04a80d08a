import EmbeddedRuby.Proofs.ShownObjects

/-!
# Exceptions with a backtrace

An exception that is raised for the first time is given the frames that there are for a backtrace
(`World.RaisedAfresh.tracedBy`).  The host is told of these when it has the exception described, for
which the interpreter calls methods; the backtrace that these might put in the place of the other is
nothing that the interpreter's own methods do.

So as long as there are no methods but the interpreter's own under the names by which exceptions are
described (`Machine.DescribesByOwn`), the exception is shown, or fails to be, with its backtrace
unharmed (`World.tracedBy_of_shown`), and it is this backtrace of which the host is told
(`World.report_spec`).
-/

namespace EmbeddedRuby

open Eval

variable {σ : Type} {P : Probe → Prop}

/-! ### Exceptions that are raised for the first time -/

namespace Heap

variable {h : Heap} {exception array message trace : Value} {texts : List String}

/-- Other contents for an exception leave the arrays of strings alone. -/
theorem ReadsAll.setBody (ha : h.ReadsAll array texts)
    (he : h.body? exception = some (.exception message trace)) (b : Body) :
    (h.setBody exception b).ReadsAll array texts := by
  obtain ⟨lines, hslot, hlines⟩ := ha
  have harray : array ≠ exception := by
    rintro rfl
    rw [body?_of_slot? hslot] at he
    cases he
  refine ⟨lines, (slot?_setBody_of_ne harray b).trans hslot, hlines.imp fun line text hline => ?_⟩
  obtain ⟨bytes, hbytes, htext⟩ := hline
  have hother : line ≠ exception := by
    rintro rfl
    rw [hbytes] at he
    cases he
  exact ⟨bytes, (body?_setBody_of_ne hother b).trans hbytes, htext⟩

end Heap

/-- How much is made for a backtrace. -/
theorem Machine.size_newTexts (m : Machine) (texts : List String) :
    (m.newTexts texts).2.heap.slots.size = m.heap.slots.size + texts.length := by
  induction texts generalizing m with
  | nil => rfl
  | cons text rest ih =>
      have hmade : (m.newText text).2.heap.slots.size = m.heap.slots.size + 1 := Array.size_push _
      have hrest := ih (m.newText text).2
      rw [hmade] at hrest
      rw [List.length_cons]
      exact hrest.trans (by omega)

/-- A backtrace takes an object for each frame, and one for the array. -/
theorem Machine.size_backtrace (m : Machine) :
    m.backtrace.2.heap.slots.size = m.heap.slots.size + m.frames.length + 1 := by
  have hmade : m.backtrace.2.heap.slots.size =
      (m.newTexts (m.frames.map Frame.render)).2.heap.slots.size + 1 := Array.size_push _
  rw [hmade, size_newTexts, List.length_map]

/-- An exception takes two objects besides, its message and itself. -/
theorem Machine.size_newException (m : Machine) (fault : Fault) :
    (m.newException fault).2.heap.slots.size = m.heap.slots.size + m.frames.length + 3 := by
  have hmade : (m.newException fault).2.heap.slots.size =
      (m.newText fault.message).2.backtrace.2.heap.slots.size + 1 := Array.size_push _
  have htext : (m.newText fault.message).2.heap.slots.size = m.heap.slots.size + 1 :=
    Array.size_push _
  rw [hmade, size_backtrace, htext]
  change _ + m.frames.length + 1 + 1 = _
  omega

/-- A heap with the core classes has a slot for each of them. -/
theorem Heap.CoreStanding.size_le {h : Heap} (hcore : h.CoreStanding) :
    CoreClass.all.length ≤ h.slots.size := by
  obtain ⟨data, hdata, -⟩ := Option.map_eq_some_iff.mp (hcore .kernel)
  obtain ⟨slot, hslot, -⟩ := Option.map_eq_some_iff.mp (Heap.module?_eq_some_iff.mp hdata)
  obtain ⟨place, hplace, hget⟩ := Option.bind_eq_some_iff.mp hslot
  rw [CoreClass.slot?_value, Option.some.injEq] at hplace
  have hlt : place < h.slots.size := (Array.getElem?_eq_some_iff.mp hget).1
  have hlast : CoreClass.kernel.slot + 1 = CoreClass.all.length := rfl
  omega

/-- What is an exception in the list of the core classes is one in the heap. -/
theorem Heap.CoreStanding.exception_mem_ancestors {h : Heap} (hcore : h.CoreStanding)
    (fault : Fault) : CoreClass.exception.value ∈ h.ancestors fault.cls.value := by
  have hbegins : h.chain CoreClass.all.length fault.cls.value <+: h.ancestors fault.cls.value :=
    Heap.Evolves.chain_prefix (.refl h) hcore.size_le _
  refine hbegins.subset ?_
  rw [hcore.chain]
  exact List.mem_map_of_mem fault.exception_mem_chain

/-- The backtrace is made first, and then stands in the place of none. -/
theorem Machine.fillBacktrace_of_nil {m : Machine} {exception message : Value}
    (hbody : m.heap.body? exception = some (.exception message Value.nil)) :
    m.fillBacktrace exception = { m.backtrace.2 with
      heap := m.backtrace.2.heap.setBody exception (.exception message m.backtrace.1) } := by
  unfold Machine.fillBacktrace
  rw [hbody]
  rfl

/-- An exception without a backtrace is filled with the frames that there are. -/
theorem Machine.tracedBy_fillBacktrace {m : Machine} {cls exception message : Value}
    (hslot : m.heap.slot? exception = some ⟨cls, .exception message Value.nil⟩)
    (hroom : (m.fillBacktrace exception).heap.HasRoom 0) :
    (m.fillBacktrace exception).heap.TracedBy cls exception (m.frames.map Frame.render) := by
  have hbody := Heap.body?_of_slot? hslot
  rw [fillBacktrace_of_nil hbody] at hroom ⊢
  have hspare : m.heap.HasRoom (0 + m.frames.length + 1) := by
    have hsize := m.size_backtrace
    unfold Heap.HasRoom at hroom ⊢
    rw [Heap.size_setBody] at hroom
    omega
  obtain ⟨htrace, -⟩ := backtrace_spec hspare
  have hkept := m.backtrace_keepsSlots
  exact ⟨message, m.backtrace.1, Heap.slot?_setBody_self (hkept _ _ hslot) _,
    htrace.setBody (hkept.body? hbody) _⟩

/-- What is an exception is one still when its heap has evolved. -/
theorem Heap.exception_mem_ancestors_of_isKindOf {h h' : Heap} {v cls : Value}
    (hkind : h.isKindOf v CoreClass.exception.value) (hcls : h.classOf v = cls)
    (hevolves : h.Evolves h') : CoreClass.exception.value ∈ h'.ancestors cls := by
  have hbegins : h.ancestors cls <+: h'.ancestors cls :=
    hevolves.chain_prefix hevolves.size_le cls
  unfold Heap.isKindOf Heap.isSubclass at hkind
  rw [hcls] at hkind
  exact hbegins.subset (List.contains_iff_mem.mp hkind)

namespace World

/-- The exception has been raised for the first time: for a fault of the interpreter's, or as an object
that had no backtrace. -/
inductive RaisedAfresh : Value → World σ → Prop
  | fault (u : World σ) (fault : Fault) :
      RaisedAfresh (u.machine.newException fault).1 (u.raising fault)
  | object {u : World σ} {exception message : Value}
      (hkind : u.machine.heap.isKindOf exception CoreClass.exception.value)
      (hbody : u.machine.heap.body? exception = some (.exception message Value.nil)) :
      RaisedAfresh exception (u.raisingObject exception)

variable {w : World σ} {exception : Value}

/-- An exception that was raised for the first time is the one that is pending. -/
theorem RaisedAfresh.errinfo (h : RaisedAfresh exception w) : w.machine.errinfo = exception := by
  cases h <;> rfl

/-- An exception that is raised for the first time has the frames that there are for a backtrace. -/
theorem RaisedAfresh.tracedBy (h : RaisedAfresh exception w) (hcore : w.machine.heap.CoreStanding)
    (hroom : w.machine.heap.HasRoom 0) :
    ∃ cls, w.machine.heap.TracedBy cls exception (w.machine.frames.map Frame.render) ∧
      CoreClass.exception.value ∈ w.machine.heap.ancestors cls := by
  cases h with
  | fault u fault =>
      have hspare : u.machine.heap.HasRoom (0 + u.machine.frames.length + 3) := by
        have hsize := u.machine.size_newException fault
        unfold Heap.HasRoom at hroom ⊢
        change _ + ((u.machine.newException fault).2.heap.slots.size + 0) * 8 ≤ _ at hroom
        omega
      obtain ⟨⟨message, trace, hmade⟩, -⟩ := u.machine.newException_spec fault hspare
      have hframes : (u.raising fault).machine.frames = u.machine.frames :=
        (u.machine.newException_sameStacks fault).frames
      exact ⟨fault.cls.value, hframes ▸ hmade.tracedBy, hcore.exception_mem_ancestors fault⟩
  | @object u _ message hkind hbody =>
      obtain ⟨⟨cls, body⟩, hslot, rfl⟩ := Option.map_eq_some_iff.mp hbody
      have hframes : (u.raisingObject exception).machine.frames = u.machine.frames :=
        (u.machine.fillBacktrace_sameStacks exception).frames
      have htraced := Machine.tracedBy_fillBacktrace hslot hroom
      have hancestors := Heap.exception_mem_ancestors_of_isKindOf hkind
        (Heap.classOf_of_slot? hslot) (u.machine.fillBacktrace_evolves exception)
      exact ⟨cls, hframes ▸ htraced, hancestors⟩

end World

/-! ### Methods of the interpreter's own -/

namespace Machine

variable {m : Machine} {c : CoreClass} {name : String} {b : Builtin} {cls : Value}

/-- The class itself has this method of the interpreter's own under the name. -/
def HasOwn (m : Machine) (c : CoreClass) (name : String) (b : Builtin) : Prop :=
  ∃ id, m.symbols.find? name = some id ∧ m.methods.get? (c.value, id) = some (.builtin b)

/-- What is below a class that has a method answers with it, if there is no other under its name. -/
theorem HasOwn.answers (h : m.HasOwn c name b) (hunder : m.OwnUnder name)
    (honly : ∀ entry ∈ ownMethods, entry.2.1 = name → entry.2.2 = b)
    (hbelow : c.value ∈ m.heap.ancestors cls) : m.Answers cls name b := by
  obtain ⟨id, hid, hmethod⟩ := h
  obtain ⟨found, hfound, hmethods⟩ := hunder
  obtain rfl : id = found := Option.some.inj (hid.symm.trans hfound)
  refine ⟨id, hid, ?_⟩
  unfold findMethod
  cases hfirst : (m.heap.ancestors cls).findSome? fun module => m.methods.get? (module, id) with
  | none =>
      have hnone := List.findSome?_eq_none_iff.mp hfirst c.value hbelow
      rw [hmethod] at hnone
      cases hnone
  | some method =>
      obtain ⟨module, -, hget⟩ := List.exists_of_findSome?_eq_some hfirst
      obtain ⟨other, builtin, hentry, rfl⟩ := hmethods module method hget
      obtain rfl : builtin = b := honly _ hentry rfl
      rfl

/-- Exceptions are described by methods of the interpreter's own, and by no others. -/
structure DescribesByOwn (m : Machine) : Prop where
  names : ∀ name ∈ World.describingMethods, m.OwnUnder name
  traced : m.HasOwn .exception "backtrace" .exceptionBacktrace
  joined : m.HasOwn .array "join" .arrayJoin
  core : m.heap.CoreStanding

namespace DescribesByOwn

/-- What describes exceptions shows them, and all that they are made of. -/
theorem showsByOwn (hm : m.DescribesByOwn) : m.ShowsByOwn := by
  have hlisted : ∀ name ∈ showingNames, name ∈ World.describingMethods := by decide
  exact fun name hname => hm.names name (hlisted name hname)

/-- An exception of any class is asked for its backtrace by the interpreter's own method. -/
theorem answers_backtrace (hm : m.DescribesByOwn)
    (hbelow : CoreClass.exception.value ∈ m.heap.ancestors cls) :
    m.Answers cls "backtrace" .exceptionBacktrace := by
  have honly : ∀ entry ∈ ownMethods, entry.2.1 = "backtrace" → entry.2.2 = .exceptionBacktrace := by
    decide +kernel
  exact hm.traced.answers (hm.names _ (by decide)) honly hbelow

/-- An array is joined by the interpreter's own method. -/
theorem answers_join (hm : m.DescribesByOwn) :
    m.Answers CoreClass.array.value "join" .arrayJoin := by
  have honly : ∀ entry ∈ ownMethods, entry.2.1 = "join" → entry.2.2 = .arrayJoin := by
    decide +kernel
  refine hm.joined.answers (hm.names _ (by decide)) honly ?_
  unfold Heap.ancestors Heap.chain
  split <;> try split
  all_goals exact List.mem_cons_self

end DescribesByOwn

end Machine

namespace World

variable {w w' : World σ}

/-- A class keeps a method of the interpreter's own, if the host spares its name. -/
theorem Reaches.hasOwn {c : CoreClass} {name : String} {b : Builtin} (h : w.Reaches P w')
    (hspared : ∀ probe, P probe → probe.Spares name) (hw : w.machine.HasOwn c name b) :
    w'.machine.HasOwn c name b := by
  let Kept : World σ → Prop := fun u => u.machine.HasOwn c name b
  have hstep : ∀ {u u' : World σ}, u.Change P u' → Kept u → Kept u' := by
    rintro u u' hchange ⟨id, hid, hmethod⟩
    exact ⟨id, hchange.find?_kept hid, (hchange.get?_kept hspared hid _).trans hmethod⟩
  exact h.kept hstep hw

/-- **Exceptions go on being described by the interpreter's own methods** where the host spares the
names of these. -/
theorem Reaches.describesByOwn (h : w.Reaches P w')
    (hspared : ∀ name ∈ describingMethods, ∀ probe, P probe → probe.Spares name)
    (hw : w.machine.DescribesByOwn) : w'.machine.DescribesByOwn where
  names name hname := h.ownUnder (hspared name hname) (hw.names name hname)
  traced := h.hasOwn (hspared _ (by decide)) hw.traced
  joined := h.hasOwn (hspared _ (by decide)) hw.joined
  core := hw.core.of_evolves h.evolves

end World

/-! ### While the exception is shown -/

section Shown

variable {w w' : World σ} {cls exception : Value} {texts : List String}

/-- The run is left by no panic, and the exception has its backtrace. -/
structure KeepsTrace (cls exception : Value) (texts : List String) (exit : Exit) (w : World σ) :
    Prop where
  noPanic : ∀ p, exit ≠ .panic p
  traced : w.machine.heap.TracedBy cls exception texts

/-- A fault on the way does not harm the backtrace of another exception. -/
theorem allowsFaults_keepsTrace (htraced : w.machine.heap.TracedBy cls exception texts) :
    AllowsFaults (KeepsTrace cls exception texts) w := fun fault more =>
  ⟨nofun,
    htraced.kept ((w.addTexts_keepsSlots more).trans (Machine.newException_keepsSlots _ fault))⟩

/-- Whatever is asked for a text, the exception keeps its backtrace, by induction on the bound on
nested calls. -/
theorem asksFor_keepsTrace (hown : w.machine.ShowsByOwn)
    (htraced : w.machine.heap.TracedBy cls exception texts) (fuel : Nat) (v : Value) :
    ∀ name ∈ showingNames, AsksFor (KeepsTrace cls exception texts) (.ofFuel fuel) w v name := by
  induction fuel generalizing v with
  | zero =>
      exact fun name _ more => .left rfl ⟨nofun, htraced.kept (w.addTexts_keepsSlots more)⟩
  | succ fuel ih =>
      intro name hname
      have hparts : AsksForParts (KeepsTrace cls exception texts) (.ofFuel fuel) w v :=
        fun part _ => ih part
      exact hparts.asksFor hown (allowsFaults_keepsTrace htraced) hname fun _ =>
        ih v "to_s" (by decide)

/-- Showing an object makes texts, if asking for texts does. -/
theorem makesTexts_inspectBytes {Left : Exit → World σ → Prop} {r : Reentry σ}
    (hfaults : AllowsFaults Left w)
    (h : ∀ v, ∀ name ∈ showingNames, AsksFor Left r w v name) (v : Value) :
    MakesTexts Left (perform r (.inspectBytes v)) w := by
  have hstring : MakesTexts Left (r.inspectString v) w := by
    refine (h v "inspect" (by decide) []).bind fun shown more => ?_
    exact makesTexts_stringOf (hfaults.addTexts more) ((h shown "to_s" (by decide)).addTexts more)
  exact hstring.bind fun shown more => makesTexts_bytesOf (hfaults.addTexts more) shown

/-- **An exception that has been shown, or could not be, has the backtrace that it had**, unless the
bound on nested calls was reached. -/
theorem World.tracedBy_of_shown (fuel : Nat) (hown : w.machine.ShowsByOwn)
    (htraced : w.machine.heap.TracedBy cls exception texts) :
    (∃ found w', (Vm.shown (.ofFuel fuel) exception).run w = .ok found w' ∧
      w'.machine.heap.TracedBy cls exception texts) ∨
    ∃ w', (Vm.shown (.ofFuel fuel) exception).run w = .error .exhausted w' := by
  have hmakes := makesTexts_inspectBytes (allowsFaults_keepsTrace htraced)
    (asksFor_keepsTrace hown htraced fuel) exception
  rw [Vm.shown_run_apply]
  rcases hmakes with ⟨bytes, more, hshown⟩ | ⟨exit, w₁, hleft, hkept⟩
  · rw [hshown]
    exact .inl ⟨_, _, rfl, htraced.kept (w.addTexts_keepsSlots more)⟩
  · rw [hleft]
    cases exit with
    | jump jump =>
        refine .inl ⟨_, _, rfl, ?_⟩
        rw [overlook_machine]
        exact hkept.traced
    | panic p => exact absurd rfl (hkept.noPanic p)
    | exhausted => exact .inr ⟨w₁, rfl⟩

/-- **The host is told of the backtrace of the exception**, as far as line feeds part its lines. -/
theorem World.report_spec {fuel : Nat} (hw : w.HostCode P)
    (hspared : ∀ name ∈ World.describingMethods, ∀ probe, P probe → probe.Spares name)
    (hnames : w.NamesAgree) (hown : w.machine.DescribesByOwn)
    (htraced : w.machine.heap.TracedBy cls exception texts)
    (hbelow : CoreClass.exception.value ∈ w.machine.heap.ancestors cls)
    (hends : EndsAt (Vm.report (.ofFuel (fuel + 3)) exception) w)
    (hroom : (Outcome.world (Vm.report (.ofFuel (fuel + 3)) exception w)).machine.heap.HasRoom 2) :
    ∃ found w', Vm.report (.ofFuel (fuel + 3)) exception w = .ok found w' ∧
      found.backtrace = (Text.lines ("\n".intercalate texts).toList).map String.ofList := by
  have hfollows := Reentry.follows_ofFuel (σ := σ) P (fuel + 3)
  rcases tracedBy_of_shown (fuel + 3) hown.showsByOwn htraced with
    ⟨text, w₁, hshown, htraced₁⟩ | ⟨w₁, hexhausted⟩
  · have hfirst : w.Reaches P w₁ :=
      ((Vm.follows_shown hfollows exception w hw).of_run hshown).reaches
    have htraceable : w₁.Traceable cls exception texts := {
      traced := htraced₁
      answers := hfirst.answers (hspared _ (by decide)) (hown.answers_backtrace hbelow)
      joined := hfirst.answers (hspared _ (by decide)) hown.answers_join
      names := hfirst.namesAgree hnames }
    have hopen : Vm.report (.ofFuel (fuel + 3)) exception w =
        ((Vm.backtraceLines (.ofFuel (fuel + 3)) exception).run >>= fun lines =>
          return ⟨text.getD Vm.unprintable, lines.getD []⟩ : Eval σ ExceptionReport) w₁ := by
      unfold Vm.report
      rw [bind_apply, hshown]
    -- Whatever is made on the way is there at the end, so that there was room for it.
    have hlater : w₁.machine.heap.Evolves
        (Outcome.world (Vm.report (.ofFuel (fuel + 3)) exception w)).machine.heap := by
      have htold := Vm.told_backtraceLines Course.operationRules
        (fun task _ => follows_perform hfollows task) exception
      have hrest := ToldBy.bind Course.rules htold fun lines => ToldBy.pure Course.rules
        (⟨text.getD Vm.unprintable, lines.getD []⟩ : ExceptionReport)
      rw [hopen]
      exact (hrest w₁ (hfirst.hostCode hw)).reaches.evolves
    obtain ⟨w₂, hlines, -⟩ := htraceable.backtraceLines_run fuel (hroom.of_evolves hlater)
    exact ⟨_, w₂, by rw [hopen, bind_apply, hlines]; rfl, rfl⟩
  · have hleft : Vm.report (.ofFuel (fuel + 3)) exception w = .error .exhausted w₁ := by
      unfold Vm.report
      rw [bind_apply, hexhausted]
    exact absurd hleft (hends w₁)

end Shown

end EmbeddedRuby
