import EmbeddedRuby.Proofs.CachedNames
import EmbeddedRuby.Proofs.HashKeys
import EmbeddedRuby.Proofs.HeldLiterals
import Mathlib.Data.List.Forall2

/-!
# Calls with keywords

The host may end a call with keywords, a list of names and values.  The names are texts, and whether
one is given twice is decided on the texts.  The method is given one more argument, a hash with the
symbols of the names for its keys; these are words with the numbers of the names in them, and the hash
takes keys together that it holds for the same.  Between the two the names are looked up one after
the other, which may give numbers to them.

No keyword is lost on the way, as long as there is room for the numbers in words of their own: names
that differ have numbers that differ (`Vm.keywordIds_run`), so their symbols are distinct keys
(`Machine.distinctKeys_of_numbered`), and the hash has just the pairs that it was made of.

The main statement is `World.keywords_called`.
-/

namespace EmbeddedRuby

open Eval

variable {σ : Type}

/-! ### Names given twice -/

namespace Vm

variable {names seen : List String} {name : String}

theorem firstRepeated?_eq_none_iff :
    firstRepeated? seen names = none ↔ names.Nodup ∧ ∀ name ∈ names, name ∉ seen := by
  induction names generalizing seen with
  | nil => simp [firstRepeated?]
  | cons name rest ih =>
      by_cases hseen : name ∈ seen
      · simp [firstRepeated?, hseen]
      · rw [firstRepeated?, if_neg hseen, ih, List.nodup_cons]
        constructor
        · rintro ⟨hrest, hnew⟩
          refine ⟨⟨fun hmem => hnew name hmem List.mem_cons_self, hrest⟩, fun other hother => ?_⟩
          rcases List.mem_cons.mp hother with rfl | hother
          · exact hseen
          · exact fun hmem => hnew other hother (List.mem_cons_of_mem _ hmem)
        · rintro ⟨⟨hname, hrest⟩, hnew⟩
          refine ⟨hrest, fun other hother hmem => ?_⟩
          rcases List.mem_cons.mp hmem with rfl | hmem
          · exact hname hother
          · exact hnew other (List.mem_cons_of_mem _ hother) hmem

/-- What is found is the first name that stood in the list, or among those seen, before. -/
theorem exists_of_firstRepeated? (h : firstRepeated? seen names = some name) :
    ∃ front back, names = front ++ name :: back ∧ front.Nodup ∧ (∀ other ∈ front, other ∉ seen) ∧
      (name ∈ seen ∨ name ∈ front) := by
  induction names generalizing seen with
  | nil => cases h
  | cons first rest ih =>
      by_cases hseen : first ∈ seen
      · rw [firstRepeated?, if_pos hseen] at h
        cases h
        exact ⟨[], rest, rfl, List.nodup_nil, nofun, .inl hseen⟩
      · rw [firstRepeated?, if_neg hseen] at h
        obtain ⟨front, back, rfl, hnodup, hnew, hrepeats⟩ := ih h
        refine ⟨first :: front, back, rfl, ?_, fun other hother => ?_, ?_⟩
        · exact List.nodup_cons.mpr ⟨fun hmem => hnew first hmem List.mem_cons_self, hnodup⟩
        · rcases List.mem_cons.mp hother with rfl | hother
          · exact hseen
          · exact fun hmem => hnew other hother (List.mem_cons_of_mem _ hmem)
        · rcases hrepeats with hmem | hmem
          · rcases List.mem_cons.mp hmem with rfl | hmem
            · exact .inr List.mem_cons_self
            · exact .inl hmem
          · exact .inr (List.mem_cons_of_mem _ hmem)

end Vm

/-! ### Names and their numbers -/

/-- The pairs are the keywords with the numbers of their names, in the same order. -/
def Machine.Numbered (m : Machine) (keywords : List (String × Value))
    (pairs : List (SymbolId × Value)) : Prop :=
  List.Forall₂ (fun keyword pair => m.symbols.find? keyword.1 = some pair.1 ∧ pair.2 = keyword.2)
    keywords pairs

/-- The pairs as they stand in a hash, under symbols. -/
def symbolPairs (pairs : List (SymbolId × Value)) : List (Value × Value) :=
  pairs.map fun pair => (Value.ofSymbol pair.1, pair.2)

namespace World

variable {w : World σ} {name : String}

theorem NamesAgree.find?_knowing (hw : w.NamesAgree) (name : String) :
    (w.knowing name).machine.symbols.find? name = some (w.idOf name) :=
  hw.knowing name name (w.idOf name) (w.get?_knowing name)

/-- The host has asked for the numbers of names, and nothing else has changed. -/
def Asked (w v : World σ) : Prop :=
  ∃ ids symbols internCalls,
    v = { w with ids := ids, machine := { w.machine with symbols, internCalls } }

theorem Asked.heap {v : World σ} (h : w.Asked v) : v.machine.heap = w.machine.heap := by
  obtain ⟨ids, symbols, internCalls, rfl⟩ := h
  rfl

theorem asked_knowings (names : List String) (w : World σ) : w.Asked (names.foldl knowing w) := by
  induction names generalizing w with
  | nil => exact ⟨w.ids, w.machine.symbols, w.machine.internCalls, rfl⟩
  | cons name rest ih =>
      obtain ⟨ids, symbols, internCalls, heq⟩ := ih (w.knowing name)
      refine ⟨ids, symbols, internCalls, ?_⟩
      rw [List.foldl_cons, heq]
      unfold knowing
      split <;> rfl

/-- Each name that the host gets to know takes up the room of one at most. -/
theorem hasRoom_knowings (names : List String) {count : Nat} {w : World σ}
    (hroom : w.machine.symbols.HasRoom (count + names.length)) :
    (names.foldl knowing w).machine.symbols.HasRoom count := by
  induction names generalizing w with
  | nil => exact hroom
  | cons name rest ih =>
      apply ih
      have hroom : w.machine.symbols.HasRoom (count + rest.length + 1) := hroom
      unfold knowing
      split
      · unfold SymbolTable.HasRoom at hroom ⊢
        omega
      · exact hroom.intern name

end World

namespace Vm

/-- The names of keywords are looked up one after the other; in the end the keywords have the numbers
by which the interpreter goes. -/
theorem keywordIds_run {keywords : List (String × Value)} {w : World σ} (hup : w.state = .up)
    (hagree : w.NamesAgree) (hnames : ∀ name ∈ keywords.map Prod.fst, '\x00' ∉ name.toList) :
    ∃ pairs, (∀ r, (keywordIds r keywords).run w =
        .ok (.ok pairs) ((keywords.map Prod.fst).foldl World.knowing w)) ∧
      ((keywords.map Prod.fst).foldl World.knowing w).machine.Numbered keywords pairs := by
  induction keywords generalizing w with
  | nil => exact ⟨[], fun _ => rfl, .nil⟩
  | cons keyword rest ih =>
      obtain ⟨name, value⟩ := keyword
      have hname : isName .symbol name = true :=
        (World.isName_symbol_iff name).mpr (hnames name List.mem_cons_self)
      obtain ⟨pairs, hrun, hpairs⟩ := ih ((w.knowing_state name).trans hup) (hagree.knowing name)
        fun other hother => hnames other (List.mem_cons_of_mem _ hother)
      have hkept := (World.knowings_kept (rest.map Prod.fst) (w.knowing name)).1
      refine ⟨(w.idOf name, value) :: pairs, fun r => ?_, .cons ⟨?_, rfl⟩ hpairs⟩
      · unfold keywordIds
        rw [run_bind_apply, internedName_run_of_up hname hup]
        dsimp only
        rw [run_bind_apply, hrun]
        rfl
      · exact Machine.Steps.find?_kept hkept (hagree.find?_knowing name)

end Vm

namespace Machine

variable {m : Machine} {keywords : List (String × Value)} {pairs : List (SymbolId × Value)}

theorem Numbered.exists_keyword (h : m.Numbered keywords pairs) {pair : SymbolId × Value}
    (hmem : pair ∈ pairs) : ∃ keyword ∈ keywords, m.symbols.find? keyword.1 = some pair.1 := by
  unfold Numbered at h
  induction h with
  | nil => cases hmem
  | @cons keyword first keywords pairs hfirst hrest ih =>
      rcases List.mem_cons.mp hmem with rfl | hmem
      · exact ⟨keyword, List.mem_cons_self, hfirst.1⟩
      · obtain ⟨found, hfound, hid⟩ := ih hmem
        exact ⟨found, List.mem_cons_of_mem _ hfound, hid⟩

/-- The word of a symbol tells its number, as long as there is room for the numbers in words. -/
theorem symbol?_of_find? (hroom : m.symbols.HasRoom 0) {name : String} {id : SymbolId}
    (hid : m.symbols.find? name = some id) : (Value.ofSymbol id).symbol? = some id := by
  have hle := SymbolTable.number_le_of_find? hid
  unfold SymbolTable.HasRoom at hroom
  exact Value.symbol?_ofSymbol (by omega)

/-- Names that differ have symbols that differ as keys. -/
theorem distinctKeys_of_numbered (hroom : m.symbols.HasRoom 0) (h : m.Numbered keywords pairs)
    (hnames : (keywords.map Prod.fst).Nodup) (m' : Machine) : m'.DistinctKeys (symbolPairs pairs) := by
  unfold Numbered at h
  induction h with
  | nil => exact .nil
  | @cons keyword pair keywords pairs hpair hrest ih =>
      obtain ⟨hfresh, hnodup⟩ := List.nodup_cons.mp hnames
      refine List.pairwise_cons.mpr ⟨fun other hother => ?_, ih hnodup⟩
      obtain ⟨later, hlater, rfl⟩ := List.mem_map.mp hother
      obtain ⟨found, hfound, hid⟩ := Numbered.exists_keyword hrest hlater
      have hfirst := symbol?_of_find? hroom hpair.1
      have hsecond := symbol?_of_find? hroom hid
      rw [sameKey_eq_false_iff, Heap.keyForm_of_symbol? hfirst, Heap.keyForm_of_symbol? hsecond]
      intro hsame
      have hnumber : pair.1 = later.1 := by
        rw [KeyForm.self.inj hsame, hsecond] at hfirst
        exact (Option.some.inj hfirst).symm
      apply hfresh
      rw [← SymbolTable.name_of_find? hpair.1, hnumber, SymbolTable.name_of_find? hid]
      exact List.mem_map_of_mem hfound

/-- Under this name the object has this method. -/
def Responds (m : Machine) (receiver : Value) (name : String) (method : Method) : Prop :=
  ∃ id, m.symbols.find? name = some id ∧
    m.findMethod (m.heap.classOf receiver) id = some method

/-- An object responds as it did after names were looked up and another object was made. -/
theorem Responds.alloc {m' : Machine} {receiver : Value} {name : String} {method : Method}
    (h : m.Responds receiver name method) (hsteps : m.Steps m') (hheap : m'.heap = m.heap)
    (hknown : m.heap.Knows receiver) (cls : Value) (b : Body) :
    (m'.alloc cls b).2.Responds receiver name method := by
  obtain ⟨id, hid, hmethod⟩ := h
  have hfound : m'.symbols.find? name = some id := Steps.find?_kept hsteps hid
  refine ⟨id, hfound, ?_⟩
  have hclass : (m'.alloc cls b).2.heap.classOf receiver = m.heap.classOf receiver := by
    apply Heap.classOf_eq_of_slot?
    rw [← hheap] at hknown ⊢
    exact hknown.slot?_alloc cls b
  rw [hclass]
  refine findMethod_of_kept hmethod ?_ fun module => ?_
  · rw [← hheap]
    exact Heap.Evolves.alloc m'.heap cls b
  · exact congrArg (fun methods => methods.get? (module, id)) (Steps.methods_eq hsteps)

end Machine

/-! ### The call -/

namespace Vm

variable {r : Reentry σ} {receiver : Value} {method : String} {args : List Value}
  {keywords : List (String × Value)} {w : World σ}

/-- Without keywords it is a call. -/
theorem callWithKeywords_nil_run (w : World σ) :
    (callWithKeywords r receiver method args []).run w = (call r receiver method args).run w := by
  unfold callWithKeywords call checkedName
  by_cases hmethod : isName .method method = true
  · have hcheck : (checkName .method method : Checked σ Unit) = pure () := if_pos hmethod
    rw [hcheck]
    rfl
  · unfold checkName
    rw [if_neg hmethod]
    rfl

/-- What is said where there are too many arguments. -/
def tooManyReason (count : Nat) : String :=
  s!"too many arguments: {count}"

/-- Too many arguments are refused, and others change nothing. -/
theorem settled_checkCount (count : Nat) (x : Checked σ Value) (w : World σ) :
    settled r (do checkCount count; x) w =
      if argumentLimit ≤ count then
        .ok (.error (.badParameter (tooManyReason count)))
          (w.recorded (.badParameter (tooManyReason count)))
      else settled r x w := by
  rw [settled_apply]
  unfold checkCount
  by_cases hcount : argumentLimit ≤ count
  · rw [if_pos hcount, if_pos hcount]
    rfl
  · rw [if_neg hcount, if_neg hcount, run_bind_apply, run_pure_apply, settled_apply]

/-- Where the method has a name and no keyword is given twice, the numbers of the names are asked for,
the hash is made and the method is called. -/
theorem callWithKeywords_run (hmethod : isName .method method = true) (hsome : keywords ≠ [])
    (hnodup : (keywords.map Prod.fst).Nodup) (w : World σ) :
    (callWithKeywords r receiver method args keywords).run w =
      (do let id ← internedName r method
          let pairs ← keywordIds r keywords
          let hash : Value ← attempt r (.keywordHash pairs)
          checkCount (args.length + 1)
          attempt r (.call receiver id (args ++ [hash]) true) : Checked σ Value).run w := by
  have hcheck : (checkName .method method : Checked σ Unit) = pure () := if_pos hmethod
  have hnone : firstRepeated? [] (keywords.map Prod.fst) = none :=
    firstRepeated?_eq_none_iff.mpr ⟨hnodup, fun _ _ => List.not_mem_nil⟩
  obtain ⟨keyword, rest, rfl⟩ := List.exists_cons_of_ne_nil hsome
  unfold callWithKeywords
  rw [run_bind_apply, hcheck, run_pure_apply]
  dsimp only
  rw [hnone]

/-- The hash of distinct keywords is the one object that is made. -/
theorem attempt_keywordHash_run {pairs : List (SymbolId × Value)} {w : World σ}
    (hmade : w.machine.make (.hash (symbolPairs pairs)) =
      w.machine.alloc CoreClass.hash.value (.hash (symbolPairs pairs))) :
    (attempt r (.keywordHash pairs) : Checked σ Value).run w =
      .ok (.ok (w.machine.alloc CoreClass.hash.value (.hash (symbolPairs pairs))).1)
        (w.onMachine fun m => (m.alloc CoreClass.hash.value (.hash (symbolPairs pairs))).2) := by
  have hperform : perform r (.keywordHash pairs) w =
      .ok (w.machine.alloc CoreClass.hash.value (.hash (symbolPairs pairs))).1
        (w.onMachine fun m => (m.alloc CoreClass.hash.value (.hash (symbolPairs pairs))).2) := by
    change onMachine (fun m => m.make (.hash (symbolPairs pairs))) w = _
    rw [onMachine_apply, hmade]
    rfl
  unfold attempt
  rw [guarded_run_apply, hperform]

/-- Up to the call of the method the names get their numbers and the hash is made. -/
theorem settled_callWithKeywords (hup : w.state = .up) (hagree : w.NamesAgree)
    (hmethod : isName .method method = true) (hnul : '\x00' ∉ method.toList)
    (hsome : keywords ≠ []) (hnodup : (keywords.map Prod.fst).Nodup)
    (hnames : ∀ name ∈ keywords.map Prod.fst, '\x00' ∉ name.toList)
    (hsymbols : w.machine.symbols.HasRoom (keywords.length + 1)) (hheap : w.machine.heap.Addressable)
    (receiver : Value) (args : List Value) :
    ∃ pairs, ∃ v : World σ, w.Asked v ∧ w.machine.Steps v.machine ∧
      v.machine.Numbered keywords pairs ∧ v.machine.symbols.HasRoom 0 ∧
      v.machine.symbols.find? method = some (w.idOf method) ∧
      let hash := (v.machine.alloc CoreClass.hash.value (.hash (symbolPairs pairs))).1
      let w₁ := v.onMachine fun m => (m.alloc CoreClass.hash.value (.hash (symbolPairs pairs))).2
      ∀ r, settled r (callWithKeywords r receiver method args keywords) w =
        if argumentLimit ≤ args.length + 1 then
          .ok (.error (.badParameter (tooManyReason (args.length + 1))))
            (w₁.recorded (.badParameter (tooManyReason (args.length + 1))))
        else
          settled r (guarded (r.send
            { receiver, method := w.idOf method, args := args ++ [hash], kwSplat := true })) w₁ := by
  have hid : ∀ r, (internedName r method).run w = .ok (.ok (w.idOf method)) (w.knowing method) :=
    fun _ => internedName_run_of_up ((World.isName_symbol_iff method).mpr hnul) hup
  obtain ⟨pairs, hpairs, hnumbered⟩ := keywordIds_run ((w.knowing_state method).trans hup)
    (hagree.knowing method) hnames
  have hsteps := (World.knowings_kept (method :: keywords.map Prod.fst) w).1
  have hasked := World.asked_knowings (method :: keywords.map Prod.fst) w
  have hfound := Machine.Steps.find?_kept
    (World.knowings_kept (keywords.map Prod.fst) (w.knowing method)).1 (hagree.find?_knowing method)
  have hroom : ((keywords.map Prod.fst).foldl World.knowing
      (w.knowing method)).machine.symbols.HasRoom 0 := by
    apply World.hasRoom_knowings (method :: keywords.map Prod.fst)
    rw [Nat.zero_add, List.length_cons, List.length_map]
    exact hsymbols
  rw [List.foldl_cons] at hsteps hasked
  generalize (keywords.map Prod.fst).foldl World.knowing (w.knowing method) = v at *
  have hmade : v.machine.make (.hash (symbolPairs pairs)) =
      v.machine.alloc CoreClass.hash.value (.hash (symbolPairs pairs)) :=
    Machine.make_hash (hasked.heap.symm ▸ hheap)
      (Machine.distinctKeys_of_numbered hroom hnumbered hnodup _)
  refine ⟨pairs, v, hasked, hsteps, hnumbered, hroom, hfound, ?_⟩
  intro hash w₁ r
  have hhash : (attempt r (.keywordHash pairs) : Checked σ Value).run v = .ok (.ok hash) w₁ :=
    attempt_keywordHash_run hmade
  have hrun : (callWithKeywords r receiver method args keywords).run w =
      (do checkCount (args.length + 1)
          attempt r (.call receiver (w.idOf method) (args ++ [hash]) true) :
            Checked σ Value).run w₁ := by
    rw [callWithKeywords_run hmethod hsome hnodup, run_bind_apply, hid]
    dsimp only
    rw [run_bind_apply, hpairs]
    dsimp only
    refine (run_bind_apply (attempt r (.keywordHash pairs) : Checked σ Value) _ v).trans ?_
    rw [hhash]
    rfl
  have hsettled : settled r (callWithKeywords r receiver method args keywords) w =
      settled r (do checkCount (args.length + 1)
                    attempt r (.call receiver (w.idOf method) (args ++ [hash]) true)) w₁ := by
    rw [settled_apply, settled_apply, hrun]
    rfl
  exact hsettled.trans (settled_checkCount _ _ w₁)

/-- A name that is given twice is refused before anything is asked of the interpreter. -/
theorem settled_callWithKeywords_repeated (hmethod : isName .method method = true) {name : String}
    (hrepeated : firstRepeated? [] (keywords.map Prod.fst) = some name) (w : World σ) :
    settled r (callWithKeywords r receiver method args keywords) w =
      .ok (.error (.duplicateKeyword name)) (w.recorded (.duplicateKeyword name)) := by
  have hcheck : (checkName .method method : Checked σ Unit) = pure () := if_pos hmethod
  rw [settled_apply]
  unfold callWithKeywords
  rw [run_bind_apply, hcheck, run_pure_apply]
  dsimp only
  rw [hrepeated]
  rfl

end Vm

namespace World

variable {w₀ w : World σ} {method : String}

/-- **What becomes of keywords.**  The host calls a method by a valid name, with keywords after the
other arguments.

* Without keywords the call is the call without them.
* If a name is given twice, the call is refused for the first name that repeats an earlier one, and
  nothing changes but that this goes into the history.
* If all names differ, the interpreter is up and the object has a method under the name, then a hash is
  made that has the symbols of the names for its keys, in their order, with the values that were given;
  it is the one object that is made, and all that the host gets to know is the numbers of the names.
  Then the method runs, with the hash after the other arguments and the mark that it holds keywords.

Arguments that are too many to be counted are refused, the hash being made already. -/
theorem keywords_called (hids : w₀.ids = {}) (hreached : w₀.Reaches AnyProbe w)
    (hmethod : Vm.isName .method method = true) (receiver : Value) (args : List Value)
    (keywords : List (String × Value)) :
    (keywords = [] → ∀ r, (Operation.callWithKeywords receiver method args keywords).answer r w =
      (Operation.call receiver method args).answer r w) ∧
    (¬(keywords.map Prod.fst).Nodup → ∃ front name back,
      keywords.map Prod.fst = front ++ name :: back ∧ front.Nodup ∧ name ∈ front ∧
      (∀ r, (Operation.callWithKeywords receiver method args keywords).answer r w =
        .ok (.error (.duplicateKeyword name)) (w.recorded (.duplicateKeyword name))) ∧
      (w.recorded (.duplicateKeyword name)).machine = w.machine ∧
      (w.recorded (.duplicateKeyword name)).ids = w.ids) ∧
    (keywords ≠ [] → (keywords.map Prod.fst).Nodup → w.state = .up → '\x00' ∉ method.toList →
      (∀ name ∈ keywords.map Prod.fst, '\x00' ∉ name.toList) →
      w.machine.symbols.HasRoom (keywords.length + 1) → w.machine.heap.Addressable →
      w.machine.heap.Knows receiver → ∀ code, w.machine.Responds receiver method code →
      ∃ (hash : Value) (pairs : List (Value × Value)) (id : SymbolId) (w₁ : World σ),
        (hash, w₁.machine.heap) = w.machine.heap.alloc CoreClass.hash.value (.hash pairs) ∧
        w₁.machine.heap.typeOf hash = .hash ∧ w₁.machine.heap.pairs? hash = some pairs ∧
        List.Forall₂ (fun keyword pair => ∃ number,
            w₁.machine.symbols.find? keyword.1 = some number ∧
            pair.1.symbol? = some number ∧ pair.2 = keyword.2) keywords pairs ∧
        w₁.machine.symbols.find? method = some id ∧
        (∃ v, w.Asked v ∧ w₁ = v.onMachine fun m => { m with heap := w₁.machine.heap }) ∧
        ∀ fuel,
          (Operation.callWithKeywords receiver method args keywords).answer (.ofFuel (fuel + 1)) w =
            if argumentLimit ≤ args.length + 1 then
              .ok (.error (.badParameter (Vm.tooManyReason (args.length + 1))))
                (w₁.recorded (.badParameter (Vm.tooManyReason (args.length + 1))))
            else
              Vm.settled (.ofFuel (fuel + 1)) (Vm.guarded (code.body (.ofFuel fuel)
                { receiver, method := id, args := args ++ [hash], kwSplat := true })) w₁) := by
  refine ⟨?_, ?_, ?_⟩
  · rintro rfl r
    change Vm.settled r _ w = Vm.settled r _ w
    rw [Vm.settled_apply, Vm.settled_apply, Vm.callWithKeywords_nil_run]
  · intro hrepeats
    have hsome : Vm.firstRepeated? [] (keywords.map Prod.fst) ≠ none := by
      intro hnone
      exact hrepeats (Vm.firstRepeated?_eq_none_iff.mp hnone).1
    obtain ⟨name, hname⟩ := Option.ne_none_iff_exists'.mp hsome
    obtain ⟨front, back, hsplit, hnodup, -, hrepeated⟩ := Vm.exists_of_firstRepeated? hname
    have hmem : name ∈ front := hrepeated.resolve_left List.not_mem_nil
    exact ⟨front, name, back, hsplit, hnodup, hmem,
      fun r => Vm.settled_callWithKeywords_repeated hmethod hname w, rfl, rfl⟩
  · intro hsome hnodup hup hnul hnames hsymbols hheap hknown code hresponds
    have hagree : w.NamesAgree := hreached.namesAgree (namesAgree_of_unasked hids)
    obtain ⟨pairs, v, hasked, hsteps, hnumbered, hroom, hid, hanswer⟩ :=
      Vm.settled_callWithKeywords hup hagree hmethod hnul hsome hnodup hnames hsymbols hheap receiver
        args
    let hash := (v.machine.alloc CoreClass.hash.value (.hash (symbolPairs pairs))).1
    let w₁ := v.onMachine fun m => (m.alloc CoreClass.hash.value (.hash (symbolPairs pairs))).2
    have hmade : w₁.machine.heap.body? hash = some (.hash (symbolPairs pairs)) :=
      Heap.body?_alloc (hasked.heap.symm ▸ hheap) CoreClass.hash.value _
    have hkeys : List.Forall₂ (fun keyword pair => ∃ number,
        w₁.machine.symbols.find? keyword.1 = some number ∧ pair.1.symbol? = some number ∧
          pair.2 = keyword.2) keywords (symbolPairs pairs) := by
      refine List.forall₂_map_right_iff.mpr (hnumbered.imp fun keyword pair hpair => ?_)
      exact ⟨pair.1, hpair.1, Machine.symbol?_of_find? hroom hpair.1, hpair.2⟩
    refine ⟨hash, symbolPairs pairs, w.idOf method, w₁, ?_, Heap.typeOf_of_body? hmade,
      Heap.pairs?_of_body? hmade, hkeys, hid, ⟨v, hasked, rfl⟩, fun fuel => ?_⟩
    · rw [← hasked.heap]
      rfl
    · change Vm.settled _ _ w = _
      rw [hanswer]
      obtain ⟨found, hfound, hmethod⟩ := hresponds.alloc hsteps hasked.heap hknown
        CoreClass.hash.value (.hash (symbolPairs pairs))
      obtain rfl : w.idOf method = found := Option.some.inj (hid.symm.trans hfound)
      have hsend : (Reentry.ofFuel (fuel + 1)).send
          { receiver, method := w.idOf method, args := args ++ [hash], kwSplat := true } w₁ =
            code.body (.ofFuel fuel)
              { receiver, method := w.idOf method, args := args ++ [hash], kwSplat := true } w₁ :=
        Vm.send_of_method hmethod
      split
      · rfl
      · rw [Vm.settled_guarded_apply, Vm.settled_guarded_apply, hsend]

/-- A method of the host's that gives back its keywords gives back a hash with both of them; a keyword
that is given twice is refused. -/
theorem keywords_called_sizes :
    let code : Method := .routine fun invocation =>
      .done (if invocation.kwSplat then invocation.args.getLast?.getD Value.nil else Value.nil)
    let named := World.bare.machine.intern "kwargs"
    let methods := named.2.methods.insert (CoreClass.nilClass.value, named.1) code
    let w : World Unit := { World.bare with machine := { named.2 with methods } }
    let one := Value.ofFixnum 1
    let called := fun keywords =>
      (Operation.callWithKeywords Value.nil "kwargs" [] keywords).answer (.ofFuel 2) w
    w.machine.Responds Value.nil "kwargs" code ∧
      (∃ hash pairs w₁, called [("size", one), ("mode", Value.nil)] = .ok (.ok hash) w₁ ∧
        w₁.machine.heap.pairs? hash = some pairs ∧ pairs.map Prod.snd = [one, Value.nil]) ∧
      called [("size", one), ("size", one)] =
        .ok (.error (.duplicateKeyword "size")) (w.recorded (.duplicateKeyword "size")) := by
  intro code named methods w one called
  have hresponds : w.machine.Responds Value.nil "kwargs" code := by
    have hclass : w.machine.heap.classOf Value.nil = CoreClass.nilClass.value := by decide +kernel
    refine ⟨named.1, by decide +kernel, ?_⟩
    rw [hclass]
    obtain ⟨above, habove⟩ := w.machine.heap.ancestors_eq_cons CoreClass.nilClass.value
    unfold Machine.findMethod
    rw [habove, List.findSome?_cons, Table.get?_insert_self]
  have hknown : w.machine.heap.Knows Value.nil := Heap.knows_of_slot?_none (by decide) _
  have hmethod : Vm.isName .method "kwargs" = true := by decide +kernel
  have hunasked : w.ids = {} := rfl
  have hcalled := fun keywords =>
    keywords_called hunasked .refl hmethod Value.nil [] keywords
  refine ⟨hresponds, ?_, ?_⟩
  · obtain ⟨-, -, hpassed⟩ := hcalled [("size", one), ("mode", Value.nil)]
    obtain ⟨hash, pairs, id, w₁, -, -, hpairs, hkeys, -, -, hanswer⟩ := hpassed (by simp) (by decide)
      rfl (by decide) (by simp) (by decide +kernel) (by decide +kernel) hknown code hresponds
    refine ⟨hash, pairs, w₁, ?_, hpairs, ?_⟩
    · have hrun := hanswer 1
      rw [if_neg (by decide)] at hrun
      exact hrun
    · obtain ⟨-, hvalues⟩ : True ∧ pairs.map Prod.snd = [one, Value.nil] := by
        cases hkeys with
        | cons hfirst hrest =>
            cases hrest with
            | cons hsecond hlast =>
                cases hlast
                obtain ⟨_, -, -, hone⟩ := hfirst
                obtain ⟨_, -, -, hnil⟩ := hsecond
                exact ⟨trivial, by simp [hone, hnil]⟩
      exact hvalues
  · obtain ⟨-, hrepeated, -⟩ := hcalled [("size", one), ("size", one)]
    obtain ⟨front, name, back, hsplit, -, hmem, hanswer, -⟩ := hrepeated (by decide)
    have hname : name = "size" := by
      have hall : name ∈ ["size", "size"] := by
        have hwhole : name ∈ front ++ name :: back := List.mem_append_left _ hmem
        rw [← hsplit] at hwhole
        exact hwhole
      simpa using hall
    rw [hname] at hanswer
    exact hanswer (.ofFuel 2)

end World

end EmbeddedRuby
