import EmbeddedRuby.Proofs.DefinedNames

/-!
# Paths of modules

The name of a module is the path of the constants that it was made under, the parts joined with double
colons; the host takes such a path apart again (`Vm.pathNames_intercalate`).  A path **leads** to a
module if each of its names is a constant of the module before (`Machine.Leads`): then the host finds
the module by its path (`Vm.constant_settled_of_leads`), for a constant of the module's own hides all
others.

What a wrapped script makes is named after a module without a name, and such a text is no path of
constants (`Vm.not_isName_of_sign`).
-/

namespace EmbeddedRuby

open Eval

/-! ### Paths as texts -/

/-- A text that can be a part of a path. -/
structure IsPathPart (name : String) : Prop where
  nonempty : name.toList ≠ []
  noColon : ':' ∉ name.toList

theorem IsIdentifier.isPathPart {name : String} (h : IsIdentifier name.toList) : IsPathPart name :=
  ⟨h.ne_nil, h.not_mem (by decide) (by decide)⟩

namespace Text

/-- What has no colon is read as a part. -/
theorem splitOn_go_part {name : List Char} (hname : ':' ∉ name) (fuel : Nat) (part rest : List Char) :
    splitOn.go [':', ':'] (name.length + fuel) part (name ++ rest) =
      splitOn.go [':', ':'] fuel (name.reverse ++ part) rest := by
  induction name generalizing part with
  | nil => rw [List.length_nil, Nat.zero_add, List.nil_append, List.reverse_nil, List.nil_append]
  | cons c name ih =>
      obtain ⟨hc, hrest⟩ := not_or.mp (mt List.mem_cons.mpr hname)
      have hother : dropFront? [':', ':'] (c :: (name ++ rest)) = none := if_neg hc
      rw [List.length_cons, Nat.add_right_comm, List.cons_append, splitOn.go]
      simp only [hother]
      rw [ih hrest, List.reverse_cons, List.append_assoc]
      rfl

/-- The end of the text is the end of the last part. -/
theorem splitOn_go_nil (fuel : Nat) (part : List Char) :
    splitOn.go [':', ':'] fuel part [] = [part.reverse] := by
  cases fuel with
  | zero => rw [splitOn.go, List.append_nil]
  | succ fuel => rfl

/-- Between two parts there are two colons. -/
theorem splitOn_go_intercalate {names : List (List Char)} (hnames : names ≠ [])
    (hcolon : ∀ name ∈ names, ':' ∉ name) (more : Nat) :
    splitOn.go [':', ':'] (([':', ':'].intercalate names).length + more) []
      ([':', ':'].intercalate names) = names := by
  induction names generalizing more with
  | nil => exact absurd rfl hnames
  | cons name rest ih =>
      obtain ⟨hname, hrest⟩ := List.forall_mem_cons.mp hcolon
      cases rest with
      | nil =>
          have hread := splitOn_go_part hname more [] []
          rw [List.append_nil, List.append_nil] at hread
          rw [List.intercalate_singleton, hread, splitOn_go_nil, List.reverse_reverse]
      | cons next others =>
          have hcount : ([':', ':'].intercalate (name :: next :: others)).length + more =
              name.length + (([':', ':'].intercalate (next :: others)).length + (more + 1) + 1) := by
            rw [List.intercalate_cons_cons]
            simp only [List.length_append, List.length_cons, List.length_nil]
            omega
          rw [hcount, List.intercalate_cons_cons, List.append_assoc, splitOn_go_part hname,
            List.append_nil]
          have htail := ih (List.cons_ne_nil next others) hrest (more + 1)
          change name.reverse.reverse :: splitOn.go [':', ':'] _ [] ([':', ':'].intercalate _) = _
          rw [List.reverse_reverse, htail]

/-- The first part begins as it was begun. -/
theorem head?_splitOn_go (fuel : Nat) {part : List Char} {c : Char} (hpart : part.getLast? = some c)
    (text : List Char) :
    (splitOn.go [':', ':'] fuel part text).head?.bind List.head? = some c := by
  have hbegun : ∀ {part : List Char}, part.getLast? = some c →
      ∀ rest, (part.reverse ++ rest).head? = some c := by
    intro part hpart rest
    rw [List.head?_append, List.head?_reverse, hpart, Option.some_or]
  induction fuel generalizing part text with
  | zero => exact hbegun hpart text
  | succ fuel ih =>
      have hended : part.reverse.head? = some c := by
        rw [List.head?_reverse, hpart]
      unfold splitOn.go
      split
      · exact hended
      · split
        · exact hended
        · rename_i next rest _
          apply ih
          rw [List.getLast?_cons, hpart, Option.getD_some]

end Text

namespace Vm

open Text

/-- **A path is taken apart where it was put together.** -/
theorem pathNames_intercalate {names : List String} (hnames : names ≠ [])
    (hparts : ∀ name ∈ names, IsPathPart name) : pathNames ("::".intercalate names) = names := by
  have htexts : names.map String.toList ≠ [] := by
    intro hnil
    exact hnames (List.map_eq_nil_iff.mp hnil)
  have hcolon : ∀ text ∈ names.map String.toList, ':' ∉ text := by
    intro text htext
    obtain ⟨name, hname, rfl⟩ := List.mem_map.mp htext
    exact (hparts name hname).noColon
  have hstart : dropFront? [':', ':'] ([':', ':'].intercalate (names.map String.toList)) = none := by
    cases names with
    | nil => exact absurd rfl hnames
    | cons name rest =>
        obtain ⟨hne, hfree⟩ := hparts name List.mem_cons_self
        obtain ⟨c, cs, hc⟩ := List.exists_cons_of_ne_nil hne
        have hother : ':' ≠ c := by
          rintro rfl
          exact hfree (hc ▸ List.mem_cons_self)
        rw [List.map_cons, hc]
        cases rest <;> exact if_neg hother
  have hsplit := splitOn_go_intercalate htexts hcolon 0
  have hsame : dropFronts [':', ':'] ([':', ':'].intercalate (names.map String.toList)) =
      [':', ':'].intercalate (names.map String.toList) := by
    rw [dropFronts]
    split
    · rename_i rest hrest
      rw [hstart] at hrest
      cases hrest
    · rfl
  have htext : ("::".intercalate names).toList =
      [':', ':'].intercalate (names.map String.toList) := String.toList_intercalate
  unfold pathNames
  rw [htext, hsame]
  unfold splitOn
  rw [Nat.add_zero] at hsplit
  rw [hsplit, List.map_map]
  simp

/-- A text that begins with the sign for objects without names is no path of constants. -/
theorem not_isName_of_sign {path : String} (hsign : path.toList.head? = some '#') :
    ∃ name ∈ pathNames path, isName .constant name = false := by
  obtain ⟨rest, hpath⟩ : ∃ rest, path.toList = '#' :: rest := List.head?_eq_some_iff.mp hsign
  have hnone : dropFronts [':', ':'] ('#' :: rest) = '#' :: rest := by
    rw [dropFronts]
    rfl
  have hbegin : (splitOn [':', ':'] ('#' :: rest)).head?.bind List.head? = some '#' := by
    unfold splitOn
    exact head?_splitOn_go rest.length rfl rest
  obtain ⟨first, hfirst, hhead⟩ := Option.bind_eq_some_iff.mp hbegin
  refine ⟨String.ofList first, ?_, ?_⟩
  · unfold pathNames
    rw [hpath, hnone]
    exact List.mem_map.mpr ⟨first, List.mem_of_head? hfirst, rfl⟩
  · change isConstantName (String.ofList first) = false
    unfold isConstantName
    rw [String.toList_ofList, hhead]
    rfl

end Vm

/-! ### Paths through the modules -/

/-- From module to module, each a constant of the one before, the names lead from the one to the
other. -/
inductive Machine.Leads (m : Machine) (start : Value) : List String → Value → Prop
  | here : Leads m start [] start
  | next {names : List String} {u v : Value} {name : String} {id : SymbolId}
      (before : Leads m start names u) (hid : m.symbols.find? name = some id)
      (hconstant : m.heap.constantAt? u id = some v) : Leads m start (names ++ [name]) v

theorem Machine.Leads.of_kept {m m' : Machine} {start v : Value} {names : List String}
    (h : m.Leads start names v)
    (hnames : ∀ name id, m.symbols.find? name = some id → m'.symbols.find? name = some id)
    (hconstants : ∀ u id c, m.heap.constantAt? u id = some c → m'.heap.constantAt? u id = some c) :
    m'.Leads start names v := by
  induction h with
  | here => exact .here
  | next before hid hconstant ih => exact .next ih (hnames _ _ hid) (hconstants _ _ _ hconstant)

variable {σ : Type}

namespace Vm

variable {r : Reentry σ} {start v : Value} {w : World σ}

/-- **A path that leads to a module is one by which the host finds it.** -/
theorem constants_run_of_leads {names : List String} (hleads : w.machine.Leads start names v)
    (hlegal : ∀ name ∈ names, isName .constant name = true) (hup : w.state = .up)
    (hagree : w.NamesAgree) :
    (names.foldlM (constantIn r) start).run w = .ok (.ok v) (names.foldl World.knowing w) := by
  induction hleads with
  | here => rfl
  | @next names u v name id before hid hconstant ih =>
      obtain ⟨hbefore, hlast⟩ := List.forall_mem_append.mp hlegal
      obtain ⟨hsteps, hheap, hstate⟩ := World.knowings_kept names w
      obtain ⟨data, hdata, hvalue⟩ := Option.bind_eq_some_iff.mp hconstant
      have hname : isName .constant name = true := hlast name List.mem_cons_self
      have hlooks : LooksUp r u name .constants (constantIn r u name) := .constantIn
      have hfound := hlooks.run_of_table
        (.of_isName hname) hname (hstate.trans hup) (hagree.knowings names)
        (Machine.Steps.find?_kept hsteps hid) (hheap.symm ▸ hdata) hvalue
      rw [List.foldlM_append, run_bind_apply, ih hbefore]
      dsimp only
      rw [List.foldlM_cons, run_bind_apply, hfound, List.foldl_append]
      rfl

/-- The host may put the names of the path together to a text. -/
theorem constant_settled_of_leads {names : List String}
    (hleads : w.machine.Leads CoreClass.object.value names v) (hnames : names ≠ [])
    (hlegal : ∀ name ∈ names, isName .constant name = true) (hup : w.state = .up)
    (hagree : w.NamesAgree) :
    (Operation.constant ("::".intercalate names)).answer r w =
      .ok (.ok v) (names.foldl World.knowing w) := by
  have hparts : ∀ name ∈ names, IsPathPart name := by
    intro name hname
    exact (DefinedName.of_isName (hlegal name hname)).1.isPathPart
  have hobject : (objectClass : Checked σ Value).run w = .ok (.ok CoreClass.object.value) w := by
    unfold objectClass
    rw [run_bind_apply, ensureSetup_run_of_up hup]
    rfl
  change settled r (constant r ("::".intercalate names)) w = _
  unfold constant
  rw [settled_bind_apply, hobject]
  dsimp only
  rw [settled_apply, pathNames_intercalate hnames hparts,
    constants_run_of_leads hleads hlegal hup hagree]
  rfl

end Vm

end EmbeddedRuby
