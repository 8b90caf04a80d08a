import EmbeddedRuby.Proofs.Development

/-!
# Careful runs

A world is **sound** (`World.Sound`) if nothing in it is made up: the handles in the objects, in the
pending exception and in the host's memory are for slots that are filled, and the host's methods, bodies
and callbacks make up none.  A run is **careful** (`Eval.Careful`) if it leads from sound worlds to sound
ones, the objects develop by the interpreter's acts on the way, and what the run gives is known at its
end.

What a run may refer to is what is known at its start, together with what its earlier parts gave; so
there are two rules for sequences.  `Careful.bind` forgets what the first part gave, `Careful.keep` has
it known from then on.  Where a run looks at the machine, all that is there is known
(`Careful.inside`).
-/

namespace EmbeddedRuby

/-- Nothing in the machine is made up. -/
structure Machine.Sound (m : Machine) : Prop where
  closed : m.heap.Closed
  core : m.heap.CoreStanding
  pending : Within m.heap.slots.size m.errinfo
  routines : ∀ {key : Value × SymbolId} {body : Invocation → Routine},
    m.methods.get? key = some (.routine body) →
      Henceforth m.heap.slots.size fun later invocation => (body invocation).Honest later

/-- The machine does something to its objects alone. -/
structure Machine.Tends (m m' : Machine) : Prop where
  develops : m.heap.Develops m'.heap
  errinfo : m'.errinfo = m.errinfo
  methods : m'.methods = m.methods

namespace Machine

variable {m m₁ m₂ : Machine}

/-- A machine that only does something to its objects stays sound. -/
theorem Sound.tends (hm : m.Sound) (htends : m.Tends m₁) : m₁.Sound where
  closed := htends.develops.closed hm.closed
  core := hm.core.of_evolves htends.develops.evolves
  pending := by
    rw [htends.errinfo]
    exact Handled.mono htends.develops.size_le hm.pending
  routines hbody := by
    rw [htends.methods] at hbody
    exact (hm.routines hbody).mono htends.develops.size_le

namespace Tends

/-- Doing nothing is one way of tending the objects. -/
theorem refl (m : Machine) : m.Tends m :=
  ⟨.refl m.heap, rfl, rfl⟩

/-- Tending the objects composes. -/
theorem trans (hfirst : m.Tends m₁) (hlater : m₁.Tends m₂) : m.Tends m₂ :=
  ⟨hfirst.develops.trans hlater.develops, hlater.errinfo.trans hfirst.errinfo,
    hlater.methods.trans hfirst.methods⟩

/-- Only the objects are concerned. -/
theorem of_frame (hframe : ∃ heap, m₁ = { m with heap }) (hdevelops : m.heap.Develops m₁.heap) :
    m.Tends m₁ := by
  obtain ⟨heap, rfl⟩ := hframe
  exact ⟨hdevelops, rfl, rfl⟩

/-- An act on the heap, with the rest of the machine as it was. -/
theorem act {heap : Heap} (hact : m.heap.Act heap) : m.Tends { m with heap } :=
  ⟨.act hact, rfl, rfl⟩

/-- A definition stores a value that is known. -/
theorem setConstant (module : Value) (id : SymbolId) {value : Value}
    (hvalue : Within m.heap.slots.size value) : m.Tends (m.setConstant module id value) :=
  ⟨.act (.setConstant module id hvalue), rfl, rfl⟩

/-- A new exception is made of new objects, under a class that the machine knows. -/
theorem newException (hm : m.Sound) (fault : Fault) : m.Tends (m.newException fault).2 :=
  .of_frame (m.newException_frame fault) (develops_newException hm.core fault)

/-- A backtrace is made of new objects and put into an exception that was there. -/
theorem fillBacktrace (hm : m.Sound) (exception : Value) : m.Tends (m.fillBacktrace exception) :=
  .of_frame (m.fillBacktrace_frame exception) (develops_fillBacktrace hm.core exception)

/-- A pair that goes into a hash is known already. -/
theorem storeInHash (hash : Value) {key value : Value} (hkey : Within m.heap.slots.size key)
    (hvalue : Within m.heap.slots.size value) : m.Tends (m.storeInHash hash key value) := by
  refine .of_frame ?_ (.act (.storeInHash hash hkey hvalue))
  unfold Machine.storeInHash
  split
  · exact ⟨_, rfl⟩
  · exact ⟨m.heap, rfl⟩

/-- A datum becomes objects that are new, apart from those it refers to. -/
theorem make (hm : m.Sound) {datum : Datum} (hdatum : Within m.heap.slots.size datum) :
    m.Tends (m.make datum).2 := by
  have hdevelops := develops_make hm.core hdatum
  cases datum with
  | int | float | string | symbol | array => exact ⟨hdevelops, rfl, rfl⟩
  | hash pairs =>
      have hstores : ∀ (pairs : List (Value × Value)) (m : Machine) (hash : Value), ∃ heap,
          pairs.foldl (fun m pair => m.storeInHash hash pair.1 pair.2) m = { m with heap } := by
        intro pairs
        induction pairs with
        | nil => exact fun m hash => ⟨m.heap, rfl⟩
        | cons pair rest ih =>
            intro m hash
            obtain ⟨heap, heq⟩ := ih (m.storeInHash hash pair.1 pair.2) hash
            rw [List.foldl_cons, heq]
            unfold Machine.storeInHash
            split
            · exact ⟨heap, rfl⟩
            · exact ⟨heap, rfl⟩
      exact .of_frame (hstores pairs (m.alloc CoreClass.hash.value (.hash [])).2 _) hdevelops

end Tends

end Machine

variable {σ : Type} [Handled σ]

/-! ### Sound worlds -/

namespace World

/-- Nothing in the world is made up. -/
structure Sound (w : World σ) : Prop where
  machine : w.machine.Sound
  memory : Within w.machine.heap.slots.size w.memory
  bodies : ∀ {code : Nat} {body : Closure σ}, w.procs[code]? = some body →
    body.Honest w.machine.heap.slots.size
  callbacks : ∀ {kind : CallbackKind} {run : CallbackInput → Program σ .callback},
    w.callback kind = some (.custom run) →
      Henceforth w.machine.heap.slots.size fun later input => (run input).Honest later

/-- The objects develop, and nothing is made up. -/
structure Passes (w w' : World σ) : Prop where
  develops : w.machine.heap.Develops w'.machine.heap
  sound : w'.Sound

variable {w w₁ w₂ : World σ}

/-- A sound world passes to itself. -/
theorem Sound.passes (hw : w.Sound) : w.Passes w :=
  ⟨.refl _, hw⟩

/-- Passing on composes. -/
theorem Passes.trans (hfirst : w.Passes w₁) (hlater : w₁.Passes w₂) : w.Passes w₂ :=
  ⟨hfirst.develops.trans hlater.develops, hlater.sound⟩

/-- No slot is ever taken back, so what is known stays known. -/
theorem Passes.size_le (hpasses : w.Passes w₁) :
    w.machine.heap.slots.size ≤ w₁.machine.heap.slots.size :=
  hpasses.develops.size_le

/-- Another machine in a sound world. -/
theorem Sound.withMachine (hw : w.Sound) {m : Machine} (hm : m.Sound)
    (hdevelops : w.machine.heap.Develops m.heap) : w.Passes { w with machine := m } where
  develops := hdevelops
  sound := {
    machine := hm
    memory := Handled.mono hdevelops.size_le hw.memory
    bodies := fun hbody => (hw.bodies hbody).mono hdevelops.size_le
    callbacks := fun {kind run} hrun => by
      have hold : w.callback kind = some (.custom run) := by
        cases kind <;> exact hrun
      exact (hw.callbacks hold).mono hdevelops.size_le }

/-- A machine that tends its objects takes a sound world on. -/
theorem Sound.tends (hw : w.Sound) {m : Machine} (htends : w.machine.Tends m) :
    w.Passes { w with machine := m } :=
  hw.withMachine (hw.machine.tends htends) htends.develops

/-- The host's books may be changed, as long as there is no code in them that was not there before. -/
theorem Sound.books (hw : w.Sound) (htends : w.machine.Tends w₁.machine)
    (hmemory : w₁.memory = w.memory)
    (hbodies : ∀ {code : Nat} {body : Closure σ}, w₁.procs[code]? = some body →
      w.procs[code]? = some body)
    (hcallbacks : ∀ {kind : CallbackKind} {run : CallbackInput → Program σ .callback},
      w₁.callback kind = some (.custom run) → w.callback kind = some (.custom run)) :
    w.Passes w₁ where
  develops := htends.develops
  sound := {
    machine := hw.machine.tends htends
    memory := by
      rw [hmemory]
      exact Handled.mono htends.develops.size_le hw.memory
    bodies := fun hbody => (hw.bodies (hbodies hbody)).mono htends.develops.size_le
    callbacks := fun hrun => (hw.callbacks (hcallbacks hrun)).mono htends.develops.size_le }

/-- How a careful run ends. -/
def Ends {α : Type} [Handled α] (w : World σ) : Eval.Outcome σ α → Prop
  | .ok a w' => w.Passes w' ∧ Within w'.machine.heap.slots.size a
  | .error exit w' => w.Passes w' ∧ Within w'.machine.heap.slots.size exit

/-- The second part of a run goes on where the first has ended. -/
theorem Ends.bind {α β : Type} [Handled α] [Handled β] {x : Eval σ α} {f : α → Eval σ β}
    (hfirst : w.Ends (x w))
    (hrest : ∀ w₁, w.Passes w₁ → ∀ a, Within w₁.machine.heap.slots.size a → w₁.Ends (f a w₁)) :
    w.Ends ((x >>= f) w) := by
  rw [Eval.bind_apply]
  cases hrun : x w with
  | error exit w₁ =>
      rw [hrun] at hfirst
      exact hfirst
  | ok a w₁ =>
      rw [hrun] at hfirst
      obtain ⟨hpasses, ha⟩ := hfirst
      have hsecond := hrest w₁ hpasses a ha
      dsimp only
      cases hrunRest : f a w₁ with
      | ok b w₂ =>
          rw [hrunRest] at hsecond
          exact ⟨hpasses.trans hsecond.1, hsecond.2⟩
      | error exit w₂ =>
          rw [hrunRest] at hsecond
          exact ⟨hpasses.trans hsecond.1, hsecond.2⟩

end World

namespace Eval

variable {α β : Type} [Handled α] [Handled β]

/-- The run makes up no handles, but uses what is known. -/
def Careful (known : Nat) (x : Eval σ α) : Prop :=
  ∀ w : World σ, w.Sound → known ≤ w.machine.heap.slots.size → w.Ends (x w)

namespace Careful

variable {known later : Nat} {x : Eval σ α}

/-- A run that is careful with little known is careful with more. -/
theorem mono (hx : Careful known x) (hle : known ≤ later) : Careful later x :=
  fun w hw hlater => hx w hw (Nat.le_trans hle hlater)

/-- Returning something known is careful. -/
theorem pure {a : α} (ha : Within known a) : Careful known (Pure.pure a : Eval σ α) :=
  fun _ hw hknown => ⟨hw.passes, Handled.mono hknown ha⟩

/-- What the first part gives is known in the second. -/
theorem keep {f : α → Eval σ β} (hx : Careful known x)
    (hf : ∀ later, known ≤ later → ∀ a, Within later a → Careful later (f a)) :
    Careful known (x >>= f) := by
  intro w hw hknown
  refine (hx w hw hknown).bind fun w₁ hpasses a ha => ?_
  exact hf _ (Nat.le_trans hknown hpasses.size_le) a ha w₁ hpasses.sound (Nat.le_refl _)

/-- Nothing needs to be known of what the first part gives. -/
theorem bind {f : α → Eval σ β} (hx : Careful known x) (hf : ∀ a, Careful known (f a)) :
    Careful known (x >>= f) :=
  hx.keep fun _ hle a _ => (hf a).mono hle

/-- Whichever branch is taken is careful, if both are. -/
theorem ite {p : Prop} [Decidable p] {y : Eval σ α} (hx : Careful known x) (hy : Careful known y) :
    Careful known (if p then x else y) := by
  split
  · exact hx
  · exact hy

/-! ### Looking -/

/-- The run goes on with the world as it is. -/
theorem insideWorld {f : World σ → Eval σ β}
    (hf : ∀ w : World σ, w.Sound → known ≤ w.machine.heap.slots.size →
      Careful w.machine.heap.slots.size (f w)) :
    Careful known ((get : Eval σ (World σ)) >>= f) :=
  fun w hw hknown => hf w hw hknown w hw (Nat.le_refl _)

/-- The run goes on with the machine as it is. -/
theorem inside {f : Machine → Eval σ β}
    (hf : ∀ m : Machine, m.Sound → known ≤ m.heap.slots.size → Careful m.heap.slots.size (f m)) :
    Careful known (machine >>= f) :=
  insideWorld fun w hw hknown => hf w.machine hw.machine hknown

/-- Looking at the machine hands out what a sound world knows. -/
theorem machine : Careful known (Eval.machine : Eval σ Machine) :=
  fun _ hw _ => ⟨hw.passes, trivial⟩

/-- The run looks at the machine, but takes no handles from it. -/
theorem look {f : Machine → Eval σ β} (hf : ∀ m, Careful known (f m)) :
    Careful known (Eval.machine >>= f) :=
  machine.bind hf

/-! ### Changing the machine -/

/-- A step that tends the objects is careful, if what it gives is known after it. -/
theorem onMachine {f : Machine → α × Machine}
    (hf : ∀ m : Machine, m.Sound → known ≤ m.heap.slots.size →
      m.Tends (f m).2 ∧ Within (f m).2.heap.slots.size (f m).1) :
    Careful known (Eval.onMachine f : Eval σ α) := by
  intro w hw hknown
  obtain ⟨htends, ha⟩ := hf w.machine hw.machine hknown
  exact ⟨hw.tends htends, ha⟩

/-- A step that tends the objects and gives nothing is careful. -/
theorem changeMachine {f : Machine → Machine}
    (hf : ∀ m : Machine, m.Sound → known ≤ m.heap.slots.size → m.Tends (f m)) :
    Careful known (Eval.changeMachine f : Eval σ Unit) :=
  fun w hw hknown => ⟨hw.tends (hf w.machine hw.machine hknown), trivial⟩

/-- A change of the world that leaves the machine, the memory and the code alone. -/
theorem change {f : World σ → World σ}
    (hf : ∀ w : World σ, w.Sound → known ≤ w.machine.heap.slots.size → w.Passes (f w)) :
    Careful known (modify f : Eval σ PUnit) :=
  fun w hw hknown => ⟨hf w hw hknown, trivial⟩

/-! ### New objects and names -/

/-- A new string is known from then on. -/
theorem newString (bytes : List UInt8) :
    Careful known (Eval.onMachine fun m => m.newString bytes : Eval σ Value) :=
  .onMachine fun m hm _ => ⟨⟨m.develops_newString hm.core bytes, rfl, rfl⟩, m.heap.knows_alloc _ _⟩

/-- A new text is known from then on. -/
theorem newText (text : String) : Careful known (Eval.newText text : Eval σ Value) :=
  .newString (Utf8.encodeString text)

/-- A new Float is known from then on. -/
theorem newFloat (x : Double) :
    Careful known (Eval.onMachine fun m => m.newFloat x : Eval σ Value) :=
  .onMachine fun m hm _ => ⟨⟨m.develops_newFloat hm.core x, rfl, rfl⟩, m.heap.knows_alloc _ _⟩

/-- An Integer is known from then on, or needs no object. -/
theorem newInteger (n : Int) :
    Careful known (Eval.onMachine fun m => m.newInteger n : Eval σ Value) :=
  .onMachine fun m hm _ => ⟨⟨m.develops_newInteger hm.core n, rfl, rfl⟩, m.within_newInteger n⟩

/-- A new array may hold only items that are known. -/
theorem newArray {items : List Value} (hitems : Within known items) :
    Careful known (Eval.onMachine fun m => m.newArray items : Eval σ Value) :=
  .onMachine fun m hm hknown =>
    ⟨⟨m.develops_newArray hm.core (Handled.mono hknown hitems), rfl, rfl⟩, m.heap.knows_alloc _ _⟩

/-- A new module may stand under a class that is known. -/
theorem newModule (name : Option String) {superclass : Option Value}
    (hsuper : Within known superclass) :
    Careful known (Eval.onMachine fun m => m.newModule name superclass : Eval σ Value) :=
  .onMachine fun m hm hknown =>
    ⟨⟨m.develops_newModule hm.core name (Handled.mono hknown hsuper), rfl, rfl⟩,
      m.heap.knows_alloc _ _⟩

/-- Making a datum is careful when its handles are known. -/
theorem make {datum : Datum} (hdatum : Within known datum) :
    Careful known (Eval.onMachine fun m => m.make datum : Eval σ Value) :=
  .onMachine fun m hm hknown =>
    ⟨.make hm (Handled.mono hknown hdatum), m.within_make (Handled.mono hknown hdatum)⟩

/-- A name has an id and no handle. -/
theorem intern (name : String) : Careful known (Eval.intern name : Eval σ SymbolId) :=
  .onMachine fun m _ _ => ⟨⟨.refl m.heap, rfl, rfl⟩, trivial⟩

/-- The target of an iteration is a number. -/
theorem newTarget : Careful known (Eval.newTarget : Eval σ Nat) :=
  .onMachine fun m _ _ => ⟨⟨.refl m.heap, rfl, rfl⟩, trivial⟩

/-- The objects are left alone, and so are the pending exception and the methods. -/
theorem changeOther {f : Machine → Machine} (hheap : ∀ m, (f m).heap = m.heap)
    (herrinfo : ∀ m, (f m).errinfo = m.errinfo) (hmethods : ∀ m, (f m).methods = m.methods) :
    Careful known (Eval.changeMachine f : Eval σ Unit) :=
  .changeMachine fun m _ _ => ⟨hheap m ▸ .refl m.heap, herrinfo m, hmethods m⟩

/-- Printing hands nothing out. -/
theorem print (text : String) : Careful known (Eval.print text : Eval σ Unit) :=
  .changeOther (fun _ => rfl) (fun _ => rfl) fun _ => rfl

/-- The pending exception must be one that is known. -/
theorem setPending {v : Value} (hv : Within known v) :
    Careful known (Eval.setPending v : Eval σ Unit) := by
  intro w hw hknown
  have hm := hw.machine
  have hpending : Within w.machine.heap.slots.size v := Handled.mono hknown hv
  exact ⟨hw.withMachine ⟨hm.closed, hm.core, hpending, hm.routines⟩ (.refl _), trivial⟩

/-! ### Leaving -/

/-- Leaving is careful when what the exit carries is known. -/
theorem throw {exit : Exit} (hexit : Within known exit) :
    Careful known (MonadExcept.throw exit : Eval σ α) :=
  fun _ hw hknown => ⟨hw.passes, Handled.mono hknown hexit⟩

/-- A crash carries a message only. -/
theorem crash (message : String) : Careful known (Eval.crash message : Eval σ α) := by
  have hexit : Within known (Exit.panic ⟨message⟩) := trivial
  exact .throw hexit

/-- Running out of depth carries nothing. -/
theorem exhausted : Careful known (Eval.exhausted : Eval σ α) := by
  have hexit : Within known Exit.exhausted := trivial
  exact .throw hexit

/-- Raising puts a known exception into the pending slot and leaves. -/
theorem throwRaised {exception : Value} (hexception : Within known exception) :
    Careful known (Eval.throwRaised exception : Eval σ α) := by
  have hexit : Within known (Exit.jump (.raised exception)) := hexception
  exact (Careful.setPending hexception).bind fun _ => .throw hexit

/-- A fault makes its own exception, which is known by the time it is raised. -/
theorem raise (fault : Fault) : Careful known (Eval.raise fault : Eval σ α) := by
  have hmade : Careful known (Eval.onMachine fun m => m.newException fault : Eval σ Value) :=
    .onMachine fun m hm _ => ⟨.newException hm fault, Heap.knows_alloc _ _ _⟩
  exact hmade.keep fun _ _ _ hexception => .throwRaised hexception

/-- An exception that is raised again is given its backtrace first. -/
theorem raiseObject {exception : Value} (hexception : Within known exception) :
    Careful known (Eval.raiseObject exception : Eval σ α) := by
  refine Careful.look fun m => .ite ?_ (.raise _)
  have hfilled : Careful known (Eval.changeMachine fun m => m.fillBacktrace exception : Eval σ Unit) :=
    .changeMachine fun m hm _ => .fillBacktrace hm exception
  exact hfilled.bind fun _ => .throwRaised hexception

/-- A break carries a known value. -/
theorem breakOut {value : Value} (hvalue : Within known value) :
    Careful known (Eval.breakOut value : Eval σ α) := by
  refine Careful.look fun m => ?_
  have hexit : Within known (Exit.jump (.breakTo m.yields.head?.join value)) := hvalue
  exact .throw hexit

/-! ### Stopping what leaves -/

/-- A careful run is careful behind the barrier, where its exit has become a result. -/
theorem protect (hx : Careful known x) : Careful known (Eval.protect x) := by
  intro w hw hknown
  have hends := hx w hw hknown
  unfold Eval.protect
  cases hrun : x w with
  | ok a w₁ =>
      rw [hrun] at hends
      exact hends
  | error exit w₁ =>
      rw [hrun] at hends
      obtain ⟨hpasses, hexit⟩ := hends
      cases exit with
      | panic | exhausted => exact ⟨hpasses, trivial⟩
      | jump jump =>
          have hrestored : w₁.machine.Tends (w₁.machine.restoreStacks w.machine) :=
            ⟨.refl _, rfl, rfl⟩
          exact ⟨hpasses.trans (hpasses.sound.tends hrestored), hexit⟩

/-- Catching a panic leaves the other exits as they are. -/
theorem catchPanic (hx : Careful known x) : Careful known (Eval.catchPanic x) := by
  intro w hw hknown
  have hends := hx w hw hknown
  unfold Eval.catchPanic
  cases hrun : x w with
  | ok a w₁ =>
      rw [hrun] at hends
      exact hends
  | error exit w₁ =>
      rw [hrun] at hends
      cases exit with
      | panic => exact ⟨hends.1, trivial⟩
      | jump | exhausted => exact hends

/-- An iteration catches the breaks that are for it, and their value is known. -/
theorem iterate (target : Nat) {x : Eval σ Value} (hx : Careful known x) :
    Careful known (Eval.iterate target x) := by
  intro w hw hknown
  have hends := hx w hw hknown
  unfold Eval.iterate
  split
  · rename_i goal value w₁ hrun
    rw [hrun] at hends
    obtain ⟨hpasses, hvalue⟩ := hends
    have hrestored : w₁.machine.Tends (w₁.machine.restoreStacks w.machine) := ⟨.refl _, rfl, rfl⟩
    split
    · exact ⟨hpasses.trans (hpasses.sound.tends hrestored), hvalue⟩
    · exact ⟨hpasses, hvalue⟩
  · exact hends

/-- A body run as a block is careful if the body is; the two stacks hold no handles. -/
theorem asBlock (target : Option Nat) (args : List Value) {x : Eval σ Value} (hx : Careful known x) :
    Careful known (Eval.asBlock target args x) := by
  refine Careful.look fun m => Careful.bind ?_ fun _ => .ite (.raise _) (hx.keep ?_)
  · exact .changeOther (fun _ => rfl) (fun _ => rfl) fun _ => rfl
  · intro later _ result hresult
    exact Careful.bind (.changeOther (fun _ => rfl) (fun _ => rfl) fun _ => rfl) fun _ =>
      .pure hresult

/-! ### Lists -/

/-- Going over known items is careful when each step is, by induction over the items. -/
theorem mapM {γ : Type} [Handled γ] {f : γ → Eval σ β}
    (hf : ∀ later, known ≤ later → ∀ a, Within later a → Careful later (f a)) {items : List γ}
    (hitems : Within known items) : Careful known (items.mapM f) := by
  induction items generalizing known with
  | nil => exact .pure (within_of_eq_nil rfl)
  | cons item rest ih =>
      rw [List.mapM_cons]
      refine (hf known (Nat.le_refl _) item (hitems item (.head rest))).keep fun later hle b hb => ?_
      refine (ih (fun last hlast => hf last (Nat.le_trans hle hlast)) fun a ha =>
        Handled.mono hle (hitems a (.tail item ha))).keep fun last hlast bs hbs => ?_
      exact .pure (within_cons (Handled.mono hlast hb) hbs)

/-- A traversal of known items that collects nothing is careful when each step is. -/
theorem forM {γ : Type} [Handled γ] {f : γ → Eval σ PUnit}
    (hf : ∀ a, Within known a → Careful known (f a)) {items : List γ} (hitems : Within known items) :
    Careful known (items.forM f) := by
  induction items with
  | nil => exact .pure trivial
  | cons item rest ih =>
      exact (hf item (hitems item (.head rest))).bind fun _ =>
        ih fun a ha => hitems a (.tail item ha)

end Careful

end Eval

end EmbeddedRuby
