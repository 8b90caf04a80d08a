import EmbeddedRuby.Proofs.Initialization
import EmbeddedRuby.Proofs.Surfacing
import EmbeddedRuby.Proofs.Utf8

/-!
# Load paths on the command line

The host puts each load path on the command line as one argument, `-I` with the path behind it.  The
interpreter reads such an argument as one directory, but a bare `-I` takes the argument after it for
its directory.  So the path that is empty does not stand for itself: what follows it is swallowed,
be it the next load path or the `-e` of the empty program, and in the latter case the command line
is not taken (`BootInfo.readBack`).

The main statement is `World.setup_loadPath_iff`.
-/

namespace EmbeddedRuby

/-! ### Arguments that can be passed on -/

/-- Only the NUL has a byte that is zero. -/
theorem Utf8.zero_mem_encodeChar_iff {c : Char} : 0 ∈ encodeChar c ↔ c = Char.ofNat 0 := by
  have hbyte : ∀ {n : Nat}, n < 256 → ((0 : UInt8) = UInt8.ofNat n ↔ n = 0) := by
    intro n hn
    have hsame := ofNat_beq_iff (show 0 < 256 by omega) hn
    rw [beq_iff_eq] at hsame
    exact hsame.trans eq_comm
  have hchar : c = Char.ofNat 0 ↔ c.toNat = 0 := by
    constructor
    · rintro rfl
      rfl
    · intro hzero
      rw [← hzero, Char.ofNat_toNat]
  have hvalid : c.toNat < 0x110000 := by
    have := c.valid
    unfold Char.toNat
    unfold UInt32.isValidChar Nat.isValidChar at this
    omega
  rw [hchar]
  simp only [encodeChar]
  split
  · rw [List.mem_singleton, hbyte (by omega)]
  · split
    · simp only [List.mem_cons, List.not_mem_nil, or_false]
      rw [hbyte (by omega), hbyte (by omega)]
      omega
    · split
      · simp only [List.mem_cons, List.not_mem_nil, or_false]
        rw [hbyte (by omega), hbyte (by omega), hbyte (by omega)]
        omega
      · simp only [List.mem_cons, List.not_mem_nil, or_false]
        rw [hbyte (by omega), hbyte (by omega), hbyte (by omega), hbyte (by omega)]
        omega

namespace BootInfo

variable {info : BootInfo}

theorem nulPosition?_eq_none_iff {text : String} :
    nulPosition? text = none ↔ Char.ofNat 0 ∉ text.toList := by
  unfold nulPosition? Utf8.encodeString Utf8.encode
  rw [List.findIdx?_eq_none_iff]
  constructor
  · intro hnone hmem
    have hzero : (0 : UInt8) ∈ text.toList.flatMap Utf8.encodeChar :=
      List.mem_flatMap.2 ⟨_, hmem, Utf8.zero_mem_encodeChar_iff.2 rfl⟩
    simpa using hnone 0 hzero
  · intro hmem b hb
    obtain ⟨c, hc, hbyte⟩ := List.mem_flatMap.1 hb
    cases hzero : b == 0 with
    | false => rfl
    | true =>
        rw [beq_iff_eq.1 hzero, Utf8.zero_mem_encodeChar_iff] at hbyte
        exact absurd (hbyte ▸ hc) hmem

/-- Nothing that the host wants has a NUL in it. -/
def NulFree (info : BootInfo) : Prop :=
  ∀ text ∈ info.programName.toList ++ info.loadPaths ++ info.extraArgs, Char.ofNat 0 ∉ text.toList

/-- A command line is passed on as it is if nothing that the host wants has a NUL in it. -/
theorem NulFree.arguments (h : info.NulFree) : info.arguments = .ok info.commandLine := by
  have hnone : info.commandLine.findSome? nulPosition? = none := by
    rw [List.findSome?_eq_none_iff]
    intro argument hargument
    rw [nulPosition?_eq_none_iff]
    simp only [commandLine, List.mem_append, List.mem_map, List.mem_cons,
      List.not_mem_nil, or_false] at hargument
    have hfree : ∀ text, (text ∈ info.programName ∨ text ∈ info.loadPaths ∨
        text ∈ info.extraArgs) → Char.ofNat 0 ∉ text.toList := by
      intro text htext
      apply h
      simpa [or_assoc] using htext
    rcases hargument with (((rfl | hgems) | ⟨path, hpath, rfl⟩) | hextra) | rfl | rfl
    · cases hname : info.programName with
      | none => decide
      | some name => exact hfree name (.inl hname)
    · split at hgems
      · rw [List.mem_singleton] at hgems
        subst hgems
        decide
      · cases hgems
    · have := hfree path (.inr (.inl hpath))
      rw [String.toList_append, List.mem_append, not_or]
      exact ⟨by decide, this⟩
    · exact hfree argument (.inr (.inr hextra))
    · decide
    · decide
  unfold BootInfo.arguments
  rw [hnone]

/-! ### What is read of the load paths -/

/-- The directories that are read where these load paths were put, if nothing but the empty program
follows them.  An empty path takes what follows it for its directory. -/
def readBack : List String → Option (List String)
  | [] => some []
  | path :: rest =>
    if path = "" then
      match rest with
      | [] => none
      | next :: rest => (readBack rest).map (("-I" ++ next) :: ·)
    else (readBack rest).map (path :: ·)

theorem readBack_cons {path : String} (hpath : path ≠ "") (rest : List String) :
    readBack (path :: rest) = (readBack rest).map (path :: ·) := by
  rw [readBack.eq_def]
  simp only [if_neg hpath]

/-- What is swallowed is read with its `-I`, and so is another path than the one that was put in. -/
theorem readBack_eq_some_iff {paths : List String} : readBack paths = some paths ↔ "" ∉ paths := by
  induction paths using readBack.induct with
  | case1 => simp [readBack]
  | case2 => simp [readBack]
  | case3 next rest _ =>
      have hne : "-I" ++ next ≠ "" := fun heq => by
        have hlist := congrArg String.toList heq
        simp at hlist
      simp [readBack, hne]
  | case4 path rest hpath ih =>
      simp only [readBack_cons hpath, Option.map_eq_some_iff, List.cons.injEq, true_and,
        exists_eq_right, List.mem_cons, not_or, ih]
      exact ⟨fun hrest => ⟨Ne.symm hpath, hrest⟩, And.right⟩

/-- The next path is taken for the directory of the bare option, with its own option before it. -/
example : readBack ["lib", "", "ext", "vendor"] = some ["lib", "-Iext", "vendor"] := by
  decide

/-- The command line after the name of the program. -/
theorem drop_commandLine (hextra : info.extraArgs = []) :
    info.commandLine.drop 1 =
      (if info.disableGems then ["--disable-gems"] else []) ++
        (info.loadPaths.map ("-I" ++ ·) ++ ["-e", ""]) := by
  simp [commandLine, hextra]

end BootInfo

namespace Machine

/-- A path is read off its argument, unless it is empty. -/
theorem readOptions_path {path : String} (hpath : path ≠ "") (rest : List String) :
    readOptions (("-I" ++ path) :: rest) = (readOptions rest).map (path :: ·) := by
  have hlist : ("-I" ++ path).toList = ['-', 'I'] ++ path.toList := by
    rw [String.toList_append]
    rfl
  have hother : ∀ text : String, text.toList.take 2 ≠ ['-', 'I'] → "-I" ++ path ≠ text := by
    rintro text htext rfl
    rw [hlist] at htext
    exact htext rfl
  have hswitch : "-I" ++ path ∉
      ["--disable-gems", "--disable=gems", "-w", "-W", "-W0", "-W1", "-W2"] := by
    simp only [List.mem_cons, List.not_mem_nil, or_false]
    rintro (h | h | h | h | h | h | h) <;> exact hother _ (by decide) h
  have hbare : "-I" ++ path ≠ "-I" := by
    intro heq
    have htail := congrArg String.toList heq
    rw [hlist] at htail
    exact hpath (String.toList_inj.1 (List.append_cancel_left htail))
  have hdrop : Text.dropFront? ['-', 'I'] ("-I" ++ path).toList = some path.toList :=
    Text.dropFront?_eq_some_iff.2 hlist
  rw [readOptions.eq_def]
  simp only [if_neg hswitch, if_neg (hother "-e" (by decide)), if_neg hbare, hdrop,
    String.ofList_toList]

/-- A bare option takes the next argument, whatever that is. -/
theorem readOptions_bare (argument : String) (rest : List String) :
    readOptions ("-I" :: argument :: rest) = (readOptions rest).map (argument :: ·) := by
  rw [readOptions.eq_def]
  rfl

theorem readOptions_loadPaths (paths : List String) :
    readOptions (paths.map ("-I" ++ ·) ++ ["-e", ""]) = BootInfo.readBack paths := by
  induction paths using BootInfo.readBack.induct with
  | case1 => rfl
  | case2 => decide
  | case3 next rest ih =>
      have hcons : ("" :: next :: rest).map ("-I" ++ ·) ++ ["-e", ""] =
          "-I" :: ("-I" ++ next) :: (rest.map ("-I" ++ ·) ++ ["-e", ""]) := rfl
      rw [hcons, readOptions_bare, ih]
      rfl
  | case4 path rest hpath ih =>
      rw [List.map_cons, List.cons_append, readOptions_path hpath, ih,
        BootInfo.readBack_cons hpath]

/-- The directories of the search path. -/
def searched (m : Machine) : List String :=
  (m.searchPath.map searchDirectories).getD []

/-- What the interpreter makes of a command line that has no further options. -/
theorem options_commandLine (m : Machine) {info : BootInfo} (hextra : info.extraArgs = []) :
    m.options info.commandLine =
      match BootInfo.readBack info.loadPaths with
      | none => (false, m)
      | some directories =>
        (true, { m with loadPath := m.loadPath ++ directories ++ m.searched }) := by
  have hread : readOptions (info.commandLine.drop 1) = BootInfo.readBack info.loadPaths := by
    rw [BootInfo.drop_commandLine hextra, ← readOptions_loadPaths]
    cases info.disableGems with
    | false => rfl
    | true =>
        rw [if_pos rfl, List.singleton_append, readOptions.eq_def]
        exact if_pos (by decide)
  unfold options
  rw [hread]
  rfl

end Machine

namespace World

variable {σ : Type} {w : World σ}

/-- What the interpreter comes up with, or why it does not. -/
theorem setup_readBack {info : BootInfo} (fuel : Nat)
    (hunknown : w.state = .unknown)
    (hnot : w.machine.initialized = false)
    (hcode : w.machine.setupCode = 0)
    (hextra : info.extraArgs = [])
    (hfree : info.NulFree) :
    ∃ answer w', (Operation.setup info).answer (.ofFuel fuel) w = .ok answer w' ∧
      match BootInfo.readBack info.loadPaths with
      | some directories =>
        answer = .ok true ∧ w'.state = .up ∧
          w'.machine.loadPath = w.machine.loadPath ++ directories ++ w.machine.searched
      | none =>
        answer = .error (.setup Vm.notRunnable) ∧ w'.state = .failed (.setup Vm.notRunnable) ∧
          w'.machine.loadPath = w.machine.loadPath := by
  have hsetup := Vm.setup_run_apply info w
  rw [hunknown] at hsetup
  simp only at hsetup
  have hsettled := Vm.settled_apply (.ofFuel fuel) (Vm.setup info) w
  cases hstart : (Vm.start info).run w with
  | error exit w₁ => cases hnot.symm.trans (Vm.start_error hstart).1
  | ok result w₁ =>
      rw [hstart] at hsetup
      cases (Vm.start_cases hstart).2 with
      | refused hrefused => exact absurd hcode hrefused
      | badArguments _ hbad => cases hbad.symm.trans hfree.arguments
      | @ran arguments _ harguments =>
          obtain rfl : info.commandLine = arguments :=
            Except.ok.inj (hfree.arguments.symm.trans harguments)
          have hoptions := Machine.options_commandLine w.machine.setUp.2 hextra
          cases hread : BootInfo.readBack info.loadPaths with
          | none =>
              rw [hread] at hoptions
              simp only [hoptions] at hsetup
              simp only [hsetup] at hsettled
              exact ⟨_, _, hsettled, rfl, rfl, rfl⟩
          | some directories =>
              rw [hread] at hoptions
              simp only [hoptions] at hsetup
              simp only [hsetup] at hsettled
              exact ⟨_, _, hsettled, rfl, rfl, rfl⟩

/-- **When the load paths are read as they were put in.**  Where nobody has brought the interpreter
up and it reports no failure, it is asked to come up with load paths and no further options, and
with no NUL anywhere.  It comes up with exactly these paths, in their order and behind them the
entries of the search path, if and only if none of them is empty.

If one of them is empty, what comes of it is what is read back: other directories, or no command
line that is taken, and then the interpreter does not come up.  Neither the name of the program nor
the option that disables the gems makes a difference. -/
theorem setup_loadPath_iff {info : BootInfo} (fuel : Nat)
    (hunknown : w.state = .unknown)
    (hnot : w.machine.initialized = false)
    (hcode : w.machine.setupCode = 0)
    (hextra : info.extraArgs = [])
    (hfree : info.NulFree) :
    ∃ answer w', (Operation.setup info).answer (.ofFuel fuel) w = .ok answer w' ∧
      (answer = .ok true ∧
          w'.machine.loadPath = w.machine.loadPath ++ info.loadPaths ++ w.machine.searched ↔
        "" ∉ info.loadPaths) ∧
      match BootInfo.readBack info.loadPaths with
      | some directories =>
        answer = .ok true ∧ w'.state = .up ∧
          w'.machine.loadPath = w.machine.loadPath ++ directories ++ w.machine.searched
      | none =>
        answer = .error (.setup Vm.notRunnable) ∧ w'.state = .failed (.setup Vm.notRunnable) ∧
          w'.machine.loadPath = w.machine.loadPath := by
  rw [← BootInfo.readBack_eq_some_iff]
  obtain ⟨answer, w', hrun, hread⟩ := setup_readBack fuel hunknown hnot hcode hextra hfree
  refine ⟨answer, w', hrun, ?_, hread⟩
  cases hback : BootInfo.readBack info.loadPaths with
  | none =>
      rw [hback] at hread
      obtain ⟨rfl, -, -⟩ := hread
      simp
  | some directories =>
      rw [hback] at hread
      obtain ⟨rfl, -, hpath⟩ := hread
      simp only [hpath, List.append_cancel_left_eq, List.append_cancel_right_eq,
        Option.some.injEq]
      exact and_iff_right rfl

/-- The path that is empty swallows the option of the empty program. -/
theorem setup_loadPath_iff_of_empty :
    let info : BootInfo := { loadPaths := [""] }
    let r : Reentry Unit := .ofFuel 1
    info.NulFree ∧ ∃ answer w', (Operation.setup info).answer r willing = .ok answer w' ∧
      ¬(answer = .ok true ∧
          w'.machine.loadPath = willing.machine.loadPath ++ [""] ++ willing.machine.searched) ∧
      answer = .error (.setup Vm.notRunnable) ∧ w'.state = .failed (.setup Vm.notRunnable) ∧
      w'.machine.loadPath = [] := by
  intro info r
  have hfree : info.NulFree := by
    intro text htext
    obtain rfl : text = "" := by simpa [info] using htext
    decide
  obtain ⟨answer, w', hrun, hiff, hanswer, hstate, hpath⟩ :=
    setup_loadPath_iff (w := willing) 1 rfl rfl rfl rfl hfree
  exact ⟨hfree, answer, w', hrun, fun hread => hiff.1 hread (by decide), hanswer, hstate, hpath⟩

end World

end EmbeddedRuby
