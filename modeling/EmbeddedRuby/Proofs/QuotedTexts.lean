import EmbeddedRuby.Proofs.InspectedLiterals

/-!
# Texts are told apart by how they are shown

What is written for a character between double quotes tells where it ends, whatever is written after
it: the letter of an escape stands alone, but for an `x`, after which come two digits and no more.  So
the first character can be read back (`Text.firstQuoted?_quoteChar`), and from this it follows, one
character after the other, that no two texts are quoted alike (`Text.quote_injective`).  Neither are
the names of two symbols, since a quoted name is not a plain one (`Text.quoteSymbol_injective`).

Strings are bytes.  Bytes that are no text are shown with replacement characters, which may be in
another string as well; bytes that are a text are shown as nothing else is
(`Utf8.quote_decodeLossy_inj`).

The main statement is `World.texts_shown_apart`: what the host is told of a string or a symbol that
the interpreter's own method shows is told of nothing else that is a string or a symbol.
-/

namespace EmbeddedRuby

/-! ### Numbers in hexadecimal -/

namespace Numeral

/-- A capital letter is the digit that the small one is. -/
theorem digitValue?_toUpper (c : Char) : digitValue? c.toUpper = digitValue? c := by
  unfold Char.toUpper
  split
  · rename_i h
    have hlow : 0x61 ≤ c.toNat := h.1
    have hhigh : c.toNat ≤ 0x7A := h.2
    have hupper : (c.val + ('A'.val - 'a'.val)).toNat = c.toNat - 0x20 := by
      have hshift : ('A'.val - 'a'.val).toNat = 2 ^ 32 - 0x20 := by decide
      rw [UInt32.toNat_add, hshift]
      change (c.toNat + (2 ^ 32 - 0x20)) % 2 ^ 32 = c.toNat - 0x20
      omega
    have hvalue : ∀ d : Char, d.toNat = c.toNat - 0x20 → digitValue? d = digitValue? c := by
      intro d hd
      simp only [digitValue?, hd, Bool.and_eq_true, decide_eq_true_eq]
      grind
    exact hvalue _ hupper
  · rfl

theorem ofDigitsFrom_map_toUpper (base acc : Nat) (text : List Char) :
    ofDigitsFrom base acc (text.map Char.toUpper) = ofDigitsFrom base acc text := by
  induction text generalizing acc with
  | nil => rfl
  | cons c rest ih =>
      have hdigit : digitIn? base c.toUpper = digitIn? base c := by
        unfold digitIn?
        rw [digitValue?_toUpper]
      rw [List.map_cons, ofDigitsFrom, ofDigitsFrom, hdigit]
      simp only [ih]

/-- Zeros at the front do not matter. -/
theorem ofDigitsFrom_replicate_zero {base : Nat} (hbase : 0 < base) (count : Nat)
    (text : List Char) :
    ofDigitsFrom base 0 (List.replicate count '0' ++ text) = ofDigitsFrom base 0 text := by
  have hzero : digitIn? base '0' = some 0 := by
    simp [digitIn?, digitValue?, hbase]
  induction count with
  | zero => rfl
  | succ count ih =>
      rw [List.replicate_succ, List.cons_append, ofDigitsFrom, hzero, Option.bind_some,
        Nat.zero_mul, Nat.add_zero, ih]

/-- A padded number is read as the number. -/
theorem ofDigits?_hex (width n : Nat) : ofDigits? 16 (hex width n) = some n := by
  unfold ofDigits? hex
  rw [ofDigitsFrom_replicate_zero (by decide)]
  exact ofDigits?_digits (by decide) (by decide) n

theorem length_digits_le {base : Nat} (hbase : 2 ≤ base) {count n : Nat}
    (h : n < base ^ (count + 1)) : (digits base n).length ≤ count + 1 := by
  induction count generalizing n with
  | zero =>
      rw [Nat.zero_add, Nat.pow_one] at h
      unfold digits
      rw [dif_neg (by omega)]
      exact Nat.le_refl _
  | succ count ih =>
      unfold digits
      split
      · have hless : n / base < base ^ (count + 1) := by
          rw [Nat.div_lt_iff_lt_mul (by omega), ← Nat.pow_succ]
          exact h
        rw [List.length_append, List.length_singleton]
        exact Nat.succ_le_succ (ih hless)
      · simp

/-- A number that has no more digits than its width is exactly as wide. -/
theorem length_hex {width n : Nat} (h : n < 16 ^ (width + 1)) :
    (hex (width + 1) n).length = width + 1 := by
  have hle := length_digits_le (by decide) h
  unfold hex
  rw [List.length_append, List.length_replicate]
  omega

end Numeral

namespace Text

/-! ### Quoted characters -/

/-- The two digits of a byte are read as the byte. -/
theorem ofDigits?_hexByte (n : Nat) : Numeral.ofDigits? 16 (hexByte n) = some n := by
  unfold hexByte Numeral.ofDigits?
  rw [Numeral.ofDigitsFrom_map_toUpper]
  exact Numeral.ofDigits?_hex 2 n

theorem length_hexByte {n : Nat} (h : n < 0x100) : (hexByte n).length = 2 := by
  unfold hexByte
  rw [List.length_map, Numeral.length_hex h]

/-- The first of the characters that are written between double quotes, with what is written after
it. -/
def firstQuoted? : List Char → Option (Char × List Char)
  | '\\' :: letter :: rest =>
    if letter = 'x' then
      (Numeral.ofDigits? 16 (rest.take 2)).map fun n => (Char.ofNat n, rest.drop 2)
    else (Source.unescape doubleQuote letter).head?.map fun c => (c, rest)
  | c :: rest => some (c, rest)
  | [] => none

/-- A control character without a letter of its own is written with two digits. -/
theorem quoteChar_of_not_legible {c : Char} (hc : isLegible c = false) :
    quoteChar c = '\\' :: 'x' :: hexByte c.toNat ∧ c.toNat < 0x100 := by
  simp only [isLegible, Bool.or_eq_false_iff, Bool.not_eq_false', List.contains_eq_mem,
    decide_eq_false_iff_not, List.mem_cons, List.not_mem_nil, or_false, not_or] at hc
  obtain ⟨hcontrol, hfeed, htab, hreturn, hescape⟩ := hc
  have hquote : c ≠ doubleQuote := by
    rintro rfl
    cases hcontrol
  have hbackslash : c ≠ '\\' := by
    rintro rfl
    cases hcontrol
  constructor
  · unfold quoteChar
    rw [if_neg hquote, if_neg hbackslash, if_neg hfeed, if_neg htab, if_neg hreturn,
      if_neg hescape, if_pos hcontrol]
  · simp only [isControl, Bool.or_eq_true, Bool.and_eq_true, decide_eq_true_eq] at hcontrol
    omega

/-- **What is written for a character tells where it ends**, whatever is written after it. -/
theorem firstQuoted?_quoteChar (c : Char) (rest : List Char) :
    firstQuoted? (quoteChar c ++ rest) = some (c, rest) := by
  by_cases hc : isLegible c = true
  · rcases quoteChar_cases hc with ⟨letter, hquoted, hstands, -⟩ | ⟨hquoted, -, hbackslash, -⟩
    · -- No letter is taken for the `x` of two digits: an `x` stands for nothing by itself.
      have hletter : letter ≠ 'x' := by
        rintro rfl
        cases hstands
      rw [hquoted, List.cons_append, List.singleton_append, firstQuoted?, if_neg hletter, hstands]
      rfl
    · rw [hquoted, List.singleton_append, firstQuoted?.eq_def]
      split
      · rename_i heq
        exact absurd (List.cons.inj heq).1 hbackslash
      · rename_i heq
        cases heq
        rfl
      · rename_i heq
        cases heq
  · obtain ⟨hquoted, hbyte⟩ := quoteChar_of_not_legible (Bool.eq_false_iff.mpr hc)
    have hlength := length_hexByte hbyte
    rw [hquoted, List.cons_append, List.cons_append, firstQuoted?, if_pos rfl,
      List.take_left' hlength, List.drop_left' hlength, ofDigits?_hexByte, Option.map_some,
      Char.ofNat_toNat]

/-! ### Quoted texts and symbols -/

/-- Texts are told apart by what is written between the quotes, by induction on the one text and a
look at the first character of the other. -/
theorem flatMap_quoteChar_injective :
    Function.Injective fun text : List Char => text.flatMap quoteChar := by
  intro text
  induction text with
  | nil =>
      intro other h
      cases other with
      | nil => rfl
      | cons d more =>
          have hfirst := congrArg firstQuoted? h
          simp only [List.flatMap_cons, firstQuoted?_quoteChar] at hfirst
          cases hfirst
  | cons c rest ih =>
      intro other h
      have hfirst := congrArg firstQuoted? h
      cases other with
      | nil =>
          simp only [List.flatMap_cons, firstQuoted?_quoteChar] at hfirst
          cases hfirst
      | cons d more =>
          simp only [List.flatMap_cons, firstQuoted?_quoteChar, Option.some.injEq,
            Prod.mk.injEq] at hfirst
          obtain ⟨rfl, hrest⟩ := hfirst
          rw [ih hrest]

/-- **No two texts are quoted alike.** -/
theorem quote_injective : Function.Injective quote := by
  intro text other h
  unfold quote at h
  exact flatMap_quoteChar_injective (List.append_cancel_right (List.cons.inj h).2)

/-- A quoted text is no plain name: it ends in no mark, and starts with a quote. -/
theorem isPlainName_quote (text : List Char) : isPlainName (quote text) = false := by
  have hlast : (quote text).getLast? = some doubleQuote := List.getLast?_concat
  have hmark : ¬(doubleQuote = '?' ∨ doubleQuote = '!' ∨ doubleQuote = '=') := by decide
  unfold isPlainName
  rw [hlast]
  simp only [if_neg hmark]
  rfl

theorem ne_quote_of_isPlainName {name : List Char} (hname : isPlainName name = true)
    (text : List Char) : name ≠ quote text := by
  rintro rfl
  rw [isPlainName_quote] at hname
  cases hname

/-- **No two symbols are written alike**, plain and quoted ones together. -/
theorem quoteSymbol_injective : Function.Injective quoteSymbol := by
  intro name other h
  have hwritten := (List.cons.inj h).2
  by_cases hname : isPlainName name = true
  · by_cases hother : isPlainName other = true
    · rwa [if_pos hname, if_pos hother] at hwritten
    · rw [if_pos hname, if_neg hother] at hwritten
      exact absurd hwritten (ne_quote_of_isPlainName hname other)
  · by_cases hother : isPlainName other = true
    · rw [if_neg hname, if_pos hother] at hwritten
      exact absurd hwritten.symm (ne_quote_of_isPlainName hother name)
    · rw [if_neg hname, if_neg hother] at hwritten
      exact quote_injective hwritten

/-- A quoted text is not what a symbol is written as. -/
theorem quote_ne_quoteSymbol (text name : List Char) : quote text ≠ quoteSymbol name := by
  intro h
  exact absurd (List.cons.inj h).1 (by decide)

end Text

/-- Bytes that are a text are shown as no others that are a text. -/
theorem Utf8.quote_decodeLossy_inj {bytes other : List UInt8} {text text' : List Char}
    (htext : Utf8.decode? bytes = .ok text) (htext' : Utf8.decode? other = .ok text') :
    Text.quote (Utf8.decodeLossy bytes) = Text.quote (Utf8.decodeLossy other) ↔ bytes = other := by
  obtain rfl := Utf8.decode?_eq_ok_iff.mp htext
  obtain rfl := Utf8.decode?_eq_ok_iff.mp htext'
  rw [Utf8.decodeLossy_encode, Utf8.decodeLossy_encode]
  constructor
  · intro h
    rw [Text.quote_injective h]
  · intro h
    rw [← Utf8.decodeLossy_encode text, h, Utf8.decodeLossy_encode]

/-! ### Strings and symbols -/

/-- What a string or a symbol says: its bytes, or its name. -/
inductive Wording where
  | string (bytes : List UInt8)
  | symbol (name : String)
deriving DecidableEq

namespace Wording

/-- It is a text, as names are anyway. -/
def IsText : Wording → Prop
  | string bytes => ∃ text, Utf8.decode? bytes = .ok text
  | symbol _ => True

/-- How the interpreter's own methods show it. -/
def shown : Wording → List Char
  | string bytes => Text.quote (Utf8.decodeLossy bytes)
  | symbol name => Text.quoteSymbol name.toList

variable {x y : Wording}

/-- **Texts are told apart by how they are shown**, strings from symbols too. -/
theorem shown_inj (hx : x.IsText) (hy : y.IsText) : x.shown = y.shown ↔ x = y := by
  cases x with
  | string bytes =>
      cases y with
      | string other =>
          obtain ⟨text, htext⟩ := hx
          obtain ⟨text', htext'⟩ := hy
          rw [string.injEq]
          exact Utf8.quote_decodeLossy_inj htext htext'
      | symbol name => exact iff_of_false (Text.quote_ne_quoteSymbol _ _) nofun
  | symbol name =>
      cases y with
      | string other => exact iff_of_false (Text.quote_ne_quoteSymbol _ _).symm nofun
      | symbol name' =>
          rw [symbol.injEq, ← String.toList_inj]
          exact Text.quoteSymbol_injective.eq_iff

end Wording

/-- The object is a string or a symbol of this wording, and the interpreter's own method shows it. -/
inductive Machine.Worded (m : Machine) : Value → Wording → Prop
  | string {v : Value} {bytes : List UInt8} (hbytes : m.heap.bytes? v = some bytes)
      (hown : m.Answers (m.heap.classOf v) "inspect" .stringInspect) : m.Worded v (.string bytes)
  | symbol {v : Value} {name : String} {id : SymbolId} (hid : v.symbol? = some id)
      (hname : m.symbols.find? name = some id)
      (hown : m.Answers CoreClass.symbol.value "inspect" .symbolInspect) :
      m.Worded v (.symbol name)

/-- The word of a symbol is made of its number. -/
theorem Value.eq_ofSymbol_of_symbol? {v : Value} {id : SymbolId} (hid : v.symbol? = some id) :
    v = ofSymbol id := by
  unfold symbol? at hid
  split at hid
  · rename_i hmark
    cases hid
    have hword : v.word.toNat / 256 * 256 + 0x0c = v.word.toNat := by omega
    unfold ofSymbol ofWord
    rw [hword, UInt64.ofNat_toNat]
  · cases hid

namespace Machine.Worded

variable {m : Machine} {v v' : Value}

/-- A string of the class of strings has its bytes for a wording, as long as objects are shown by the
interpreter's own methods. -/
theorem of_slot? (hown : m.OwnInspects) {bytes : List UInt8}
    (hslot : m.heap.slot? v = some ⟨CoreClass.string.value, .string bytes⟩) :
    m.Worded v (.string bytes) := by
  have hbytes : m.heap.bytes? v = some bytes := by
    unfold Heap.bytes?
    rw [Heap.body?_of_slot? hslot]
  refine .string hbytes ?_
  rw [Heap.classOf_of_slot? hslot]
  exact hown (.string, .stringInspect) (by decide)

/-- A symbol has its name for a wording. -/
theorem of_find? (hown : m.OwnInspects) {id : SymbolId} {name : String}
    (hid : v.symbol? = some id) (hname : m.symbols.find? name = some id) :
    m.Worded v (.symbol name) :=
  .symbol hid hname (hown (.symbol, .symbolInspect) (by decide))

/-- A symbol is told by its name. -/
theorem symbol_unique {name : String} (h : m.Worded v (.symbol name))
    (h' : m.Worded v' (.symbol name)) : v = v' := by
  cases h with
  | symbol hid hname =>
      cases h' with
      | symbol hid' hname' =>
          cases hname.symm.trans hname'
          rw [Value.eq_ofSymbol_of_symbol? hid, Value.eq_ofSymbol_of_symbol? hid']

/-- Showing the object makes one text, its wording as it is shown. -/
theorem shows {σ : Type} {w : World σ} {x : Wording} (h : w.machine.Worded v x)
    (hroom : w.machine.heap.HasRoom 1) (fuel : Nat) : w.Shows (fuel + 1) v x.shown 1 := by
  cases h with
  | string hbytes hown =>
      exact World.shows_of_answers hown hroom
        fun method => ⟨[], rfl, showString_of_bytes? hbytes method⟩
  | @symbol name id hid hname hown =>
      have hclass : w.machine.heap.classOf v = CoreClass.symbol.value :=
        Heap.classOf_of_symbol? hid
      have hheld : w.machine.Holds v (.symbol name.toList) :=
        .symbol hid (by rwa [String.ofList_toList])
      have hanswers : w.machine.Answers (w.machine.heap.classOf v) "inspect" .symbolInspect :=
        hclass ▸ hown
      exact World.shows_of_answers hanswers hroom
        fun method => ⟨[], rfl, showSymbol_apply hheld method⟩

end Machine.Worded

namespace World

/-- The host can have the object shown: the interpreter is up, has room for one more text, and shows
the object, which is a text of this wording, by its own method. -/
structure CanShow {σ : Type} (w : World σ) (v : Value) (x : Wording) : Prop where
  worded : w.machine.Worded v x
  isText : x.IsText
  up : w.state = .up
  room : w.machine.heap.HasRoom 1

/-- **No two texts are shown alike.**  Bytes that are a text are quoted as no others are that are a
text.  So the host is told the same of two objects, strings that are texts or symbols, just in case
these are strings with the same bytes or symbols with the same name, be it in one interpreter or in
two, at one moment or at two; and in one interpreter a name belongs to one symbol only.

The objects are shown by the interpreter's own methods.  They are, all strings of the class of strings
and all symbols, at every moment of a run in which the host puts no other method in their place. -/
theorem texts_shown_apart :
    (∀ (bytes other : List UInt8) (text text' : List Char), Utf8.decode? bytes = .ok text →
      Utf8.decode? other = .ok text' →
      (Text.quote (Utf8.decodeLossy bytes) = Text.quote (Utf8.decodeLossy other) ↔
        bytes = other)) ∧
    (∀ (σ : Type) (w w' : World σ) (v v' : Value) (x y : Wording) (fuel fuel' : Nat),
      w.CanShow v x → w'.CanShow v' y → ∃ shown shown' u u',
        Vm.settled (.ofFuel (fuel + 1)) (Vm.inspect (.ofFuel (fuel + 1)) v) w =
          .ok (.ok shown) u ∧
        Vm.settled (.ofFuel (fuel' + 1)) (Vm.inspect (.ofFuel (fuel' + 1)) v') w' =
          .ok (.ok shown') u' ∧
        (shown = shown' ↔ x = y)) ∧
    (∀ (m : Machine) (v v' : Value) (name : String), m.Worded v (.symbol name) →
      m.Worded v' (.symbol name) → v = v') ∧
    ∀ (σ : Type) (P : Probe → Prop) (fresh w : World σ), fresh.machine = Machine.boot →
      fresh.Reaches P w → (∀ probe, P probe → probe.Spares "inspect") →
      (∀ v bytes, w.machine.heap.slot? v = some ⟨CoreClass.string.value, .string bytes⟩ →
        w.machine.Worded v (.string bytes)) ∧
      ∀ v id name, v.symbol? = some id → w.machine.symbols.find? name = some id →
        w.machine.Worded v (.symbol name) := by
  refine ⟨fun bytes other text text' => Utf8.quote_decodeLossy_inj, ?_,
    fun m v v' name => Machine.Worded.symbol_unique, ?_⟩
  · intro σ w w' v v' x y fuel fuel' hw hw'
    obtain ⟨u, hshown⟩ := (hw.worded.shows hw.room fuel).settled_inspect hw.up
    obtain ⟨u', hshown'⟩ := (hw'.worded.shows hw'.room fuel').settled_inspect hw'.up
    refine ⟨_, _, u, u', hshown, hshown', ?_⟩
    rw [String.ofList_inj]
    exact Wording.shown_inj hw.isText hw'.isText
  · intro σ P fresh w hboot hreaches hspared
    have hfresh : fresh.machine.OwnInspects := hboot ▸ Machine.ownInspects_boot
    have hown : w.machine.OwnInspects := hreaches.ownInspects hspared hfresh
    exact ⟨fun v bytes => .of_slot? hown, fun v id name => .of_find? hown⟩

/-- An interpreter with two strings: a control character, and the four characters that are written
for it between quotes. -/
def escaping : World Unit := (Loader.inspecting.addText "\x01").addText "\\x01"

/-- They are shown differently, the backslash of the second being doubled. -/
theorem texts_shown_apart_escaping :
    let control := (Loader.inspecting.machine.newText "\x01").1
    let written := ((Loader.inspecting.addText "\x01").machine.newText "\\x01").1
    escaping.CanShow control (.string [0x01]) ∧
    escaping.CanShow written (.string [0x5C, 0x78, 0x30, 0x31]) ∧
    ∃ shown shown' u u',
      Vm.settled (.ofFuel 1) (Vm.inspect (.ofFuel 1) control) escaping = .ok (.ok shown) u ∧
      Vm.settled (.ofFuel 1) (Vm.inspect (.ofFuel 1) written) escaping = .ok (.ok shown') u' ∧
      shown ≠ shown' := by
  intro control written
  have hown : ∀ v, escaping.machine.heap.classOf v = CoreClass.string.value →
      escaping.machine.Answers (escaping.machine.heap.classOf v) "inspect" .stringInspect := by
    intro v hclass
    rw [hclass]
    exact ⟨⟨1⟩, by decide +kernel, rfl⟩
  have hroom : escaping.machine.heap.HasRoom 1 := by decide +kernel
  have hcontrol : escaping.CanShow control (.string [0x01]) :=
    ⟨.string (by decide +kernel) (hown control (by decide +kernel)),
      ⟨['\x01'], Utf8.decode?_eq_ok_iff.mpr rfl⟩, rfl, hroom⟩
  have hwritten : escaping.CanShow written (.string [0x5C, 0x78, 0x30, 0x31]) :=
    ⟨.string (by decide +kernel) (hown written (by decide +kernel)),
      ⟨['\\', 'x', '0', '1'], Utf8.decode?_eq_ok_iff.mpr rfl⟩, rfl, hroom⟩
  obtain ⟨shown, shown', u, u', hshown, hshown', hsame⟩ :=
    texts_shown_apart.2.1 Unit escaping escaping control written _ _ 0 0 hcontrol hwritten
  exact ⟨hcontrol, hwritten, shown, shown', u, u', hshown, hshown', mt hsame.mp (by decide)⟩

end World

end EmbeddedRuby
