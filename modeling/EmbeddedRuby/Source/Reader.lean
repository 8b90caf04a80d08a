import EmbeddedRuby.Source.Syntax

/-!
# Reading scripts

A script is read line by line.  `stripComment` cuts a line before the first `#` outside quotes,
`wholeStatement` reads what is left, and `parse` puts the lines together and checks that each body
that is opened is closed.

Every reader takes text and gives what it read with the text that follows it, or a fault.  A reader
that does not find what it looks for leaves the text as it was, apart from blanks at the front.
Literals nest, so their readers are given `fuel`, a bound on the nesting and on the number of items
side by side; the length of the line is enough, as each level and each item takes a character.
-/

namespace EmbeddedRuby.Source

open EmbeddedRuby.Text

/-- What a reader gives: a result and the text after it. -/
abbrev Read (α : Type) := Except SyntaxFault (α × List Char)

/-- The fault of finding this text where something else was looked for. -/
def unexpected (text : List Char) : SyntaxFault :=
  match firstToken? text with
  | some token => .unexpected token
  | none => .endOfInput

/-- The text after `token`, if it stands first after blanks. -/
def token? (token : List Char) (text : List Char) : Option (List Char) :=
  dropFront? token (trimStart text)

/-- The text after the word, if it stands first after blanks and does not go on. -/
def keyword? (word : List Char) (text : List Char) : Option (List Char) :=
  match token? word text with
  | some rest => if rest.head?.any isWordChar then none else some rest
  | none => none

/-- The identifier that stands first after blanks; one `?` or `!` may end it. -/
def identifier? (text : List Char) : Option (List Char × List Char) :=
  let text := trimStart text
  if text.head?.any isNameStart then
    let name := text.takeWhile isWordChar
    match text.dropWhile isWordChar with
    | c :: rest => if c = '?' ∨ c = '!' then some (name ++ [c], rest) else some (name, c :: rest)
    | [] => some (name, [])
  else none

/-- The name of a constant. -/
def constantName (text : List Char) : Read (List Char) :=
  match identifier? text with
  | some (name, rest) =>
    if name.head?.any isCapital then .ok (name, rest) else .error (.constantExpected name)
  | none => .error (unexpected text)

/-- The names that follow the first one of a path; at most `fuel` of them. -/
def pathRest : Nat → List Char → Read (List (List Char))
  | 0, text => .ok ([], text)
  | fuel + 1, text =>
    match token? [':', ':'] text with
    | none => .ok ([], text)
    | some rest =>
      match constantName rest with
      | .error fault => .error fault
      | .ok (name, rest) =>
        match pathRest fuel rest with
        | .error fault => .error fault
        | .ok (names, rest) => .ok (name :: names, rest)

/-- The path of a constant. -/
def constantPath (text : List Char) : Read (List (List Char)) :=
  let (front, start) :=
    match token? [':', ':'] text with
    | some rest => ([[]], rest)
    | none => ([], text)
  match constantName start with
  | .error fault => .error fault
  | .ok (name, rest) =>
    match pathRest rest.length rest with
    | .error fault => .error fault
    | .ok (names, rest) => .ok (front ++ name :: names, rest)

/-- What an escaped character stands for between quotes of the given kind. -/
def unescape (quote c : Char) : List Char :=
  if quote = doubleQuote ∧ c = 'n' then ['\n']
  else if quote = doubleQuote ∧ c = 't' then ['\t']
  else if quote = doubleQuote ∧ c = 'r' then ['\r']
  else if quote = doubleQuote ∧ c = 'e' then [escapeChar]
  else if quote = doubleQuote ∧ c = '0' then ['\x00']
  else if c = quote ∨ c = '\\' then [c]
  else ['\\', c]

/-- The text up to the closing quote, escapes undone. -/
def quotedText (quote : Char) : List Char → Read (List Char)
  | [] => .error .openString
  | c :: rest =>
    if c = quote then .ok ([], rest)
    else if c = '\\' then
      match rest with
      | [] => .error .openString
      | escaped :: rest =>
        match quotedText quote rest with
        | .error fault => .error fault
        | .ok (text, rest) => .ok (unescape quote escaped ++ text, rest)
    else
      match quotedText quote rest with
      | .error fault => .error fault
      | .ok (text, rest) => .ok (c :: text, rest)

/-- What the reader of numbers has met so far. -/
structure NumberState where
  /-- The character before. -/
  previous : Char
  /-- Has a radix mark `x` been met, so that letters are digits? -/
  hexadecimal : Bool
  /-- Has a point or an exponent been met? -/
  float : Bool

/-- A digit of a hexadecimal number that is a letter. -/
def isHexLetter (c : Char) : Bool :=
  let n := c.toNat
  (0x61 ≤ n && n ≤ 0x66) || (0x41 ≤ n && n ≤ 0x46)

/-- Does the number go on with `c`, which `rest` follows?  If so, the state after it. -/
def NumberState.step (s : NumberState) (c : Char) (rest : List Char) : Option NumberState :=
  let next := { s with previous := c }
  if isDigit c || c == '_' then some next
  else if s.hexadecimal && isHexLetter c then some next
  else if c = 'x' ∨ c = 'X' then
    if s.previous = '0' then some { next with hexadecimal := true } else none
  else if c = 'b' ∨ c = 'B' ∨ c = 'o' ∨ c = 'O' then
    if s.previous = '0' then some next else none
  else if c = '.' ∧ s.float = false ∧ rest.head?.any isDigit then some { next with float := true }
  else if c = 'e' ∨ c = 'E' then some { next with float := true }
  else if c = '+' ∨ c = '-' then
    if s.previous = 'e' ∨ s.previous = 'E' then some next else none
  else none

/-- The characters with which a number goes on, whether it is a float, and the text after it. -/
def numberChars (s : NumberState) : List Char → List Char × Bool × List Char
  | [] => ([], s.float, [])
  | c :: rest =>
    match s.step c rest with
    | none => ([], s.float, c :: rest)
    | some s =>
      let (chars, float, rest) := numberChars s rest
      (c :: chars, float, rest)

/-- A number whose first character, a sign or a digit, is `first`. -/
def number (first : Char) (text : List Char) : Read Literal :=
  let (chars, float, rest) := numberChars ⟨first, false, false⟩ text
  let text := first :: chars
  let value :=
    if float then (Double.parse? text).map Literal.float else (Integer.parse? text).map Literal.int
  match value with
  | some value => .ok (value, rest)
  | none => .error (.badNumber text)

/-- A symbol, after its colon. -/
def symbolName (text : List Char) : Read Literal :=
  let name :=
    match identifier? text with
    | some (name, rest) => .ok (.symbol name, rest)
    | none => .error (unexpected text)
  match text with
  | c :: rest =>
    if c = doubleQuote ∨ c = singleQuote then
      match quotedText c rest with
      | .ok (name, rest) => .ok (.symbol name, rest)
      | .error fault => .error fault
    else name
  | [] => name

/-- `nil`, `true` or `false`. -/
def wordLiteral (text : List Char) : Read Literal :=
  match keyword? "nil".toList text with
  | some rest => .ok (.nil, rest)
  | none =>
    match keyword? "true".toList text with
    | some rest => .ok (.true, rest)
    | none =>
      match keyword? "false".toList text with
      | some rest => .ok (.false, rest)
      | none => .error (unexpected text)

mutual

/-- The expression that stands first after blanks. -/
def literal : Nat → List Char → Read Literal
  | 0, text => .error (unexpected text)
  | fuel + 1, text =>
    match trimStart text with
    | [] => .error .endOfInput
    | c :: rest =>
      if c = doubleQuote ∨ c = singleQuote then
        match quotedText c rest with
        | .ok (text, rest) => .ok (.string text, rest)
        | .error fault => .error fault
      else if c = ':' then
        if rest.head? = some ':' then
          match constantPath (c :: rest) with
          | .ok (path, rest) => .ok (.constant path, rest)
          | .error fault => .error fault
        else symbolName rest
      else if c = '[' then
        match token? [']'] rest with
        | some rest => .ok (.array [], rest)
        | none =>
          match items fuel rest with
          | .ok (items, rest) => .ok (.array items, rest)
          | .error fault => .error fault
      else if isDigit c || ((c == '-' || c == '+') && rest.head?.any isDigit) then number c rest
      else if isCapital c then
        match constantPath (c :: rest) with
        | .ok (path, rest) => .ok (.constant path, rest)
        | .error fault => .error fault
      else wordLiteral (c :: rest)

/-- Expressions with commas between them, up to the closing bracket. -/
def items : Nat → List Char → Read (List Literal)
  | 0, text => .error (unexpected text)
  | fuel + 1, text =>
    match literal fuel text with
    | .error fault => .error fault
    | .ok (item, rest) =>
      match token? [']'] rest with
      | some rest => .ok ([item], rest)
      | none =>
        match token? [','] rest with
        | none => .error (unexpected rest)
        | some rest =>
          match items fuel rest with
          | .error fault => .error fault
          | .ok (items, rest) => .ok (item :: items, rest)

end

/-- The expression that stands first after blanks, nested however deep. -/
def expression (text : List Char) : Read Literal :=
  literal (2 * text.length + 2) text

/-- At most `fuel` expressions with commas between them, at least one. -/
def argumentList : Nat → List Char → Read (List Literal)
  | 0, text => .error (unexpected text)
  | fuel + 1, text =>
    match expression text with
    | .error fault => .error fault
    | .ok (item, rest) =>
      match token? [','] rest with
      | none => .ok ([item], rest)
      | some rest =>
        match argumentList fuel rest with
        | .error fault => .error fault
        | .ok (items, rest) => .ok (item :: items, rest)

/-- Is nothing left but blanks? -/
def atEnd (text : List Char) : Bool :=
  (trimStart text).isEmpty

/-- The arguments of `puts` and `p`, if any. -/
def arguments (text : List Char) : Read (List Literal) :=
  if atEnd text then .ok ([], trimStart text) else argumentList (text.length + 1) text

/-- The value of an assignment, after an equals sign that is not part of `==`. -/
def assignedValue (text : List Char) : Read Literal :=
  match token? ['='] text with
  | some rest => if rest.head? = some '=' then .error (unexpected text) else expression rest
  | none => .error (unexpected text)

/-- The statement after `class`. -/
def classHead (text : List Char) : Read Statement :=
  match constantName text with
  | .error fault => .error fault
  | .ok (name, rest) =>
    match token? ['<'] rest with
    | none => .ok (.openClass name none, rest)
    | some rest =>
      match constantPath rest with
      | .error fault => .error fault
      | .ok (path, rest) => .ok (.openClass name (some path), rest)

/-- The statement after `raise`. -/
def raiseRest (text : List Char) : Read Statement :=
  if atEnd text then .ok (.raise none none, trimStart text)
  else if (trimStart text).head?.any isCapital then
    match constantPath text with
    | .error fault => .error fault
    | .ok (path, rest) =>
      match token? [','] rest with
      | none => .ok (.raise (some path) none, rest)
      | some rest =>
        match expression rest with
        | .error fault => .error fault
        | .ok (message, rest) => .ok (.raise (some path) (some message), rest)
  else
    match expression text with
    | .error fault => .error fault
    | .ok (message, rest) => .ok (.raise none (some message), rest)

/-- An assignment to a class variable, after the `@@` of its name. -/
def classVarRest (text : List Char) : Read Statement :=
  match identifier? text with
  | none => .error (unexpected text)
  | some (name, rest) =>
    match assignedValue rest with
    | .error fault => .error fault
    | .ok (value, rest) => .ok (.setClassVar ('@' :: '@' :: name) value, rest)

/-- An assignment to a constant. -/
def constantAssignment (text : List Char) : Read Statement :=
  match constantName text with
  | .error fault => .error fault
  | .ok (name, rest) =>
    match assignedValue rest with
    | .error fault => .error fault
    | .ok (value, rest) => .ok (.setConstant name value, rest)

/-- A statement that is no keyword's: an assignment. -/
def assignment (text : List Char) : Read Statement :=
  match token? ['@', '@'] text with
  | some rest => classVarRest rest
  | none =>
    if (trimStart text).head?.any isCapital then constantAssignment text
    else .error (unexpected text)

/-- The statement that stands first. -/
def statement (text : List Char) : Read Statement :=
  match keyword? "end".toList text with
  | some rest => .ok (.close, rest)
  | none =>
  match keyword? "class".toList text with
  | some rest => classHead rest
  | none =>
  match keyword? "module".toList text with
  | some rest => (constantName rest).map fun (name, rest) => (.openModule name, rest)
  | none =>
  match keyword? "raise".toList text with
  | some rest => raiseRest rest
  | none =>
  match keyword? "puts".toList text with
  | some rest => (arguments rest).map fun (args, rest) => (.puts args, rest)
  | none =>
  match keyword? ['p'] text with
  | some rest => (arguments rest).map fun (args, rest) => (.p args, rest)
  | none => assignment text

/-- The statement that the whole line is. -/
def wholeStatement (line : List Char) : Except SyntaxFault Statement :=
  match statement line with
  | .error fault => .error fault
  | .ok (statement, rest) => if atEnd rest then .ok statement else .error (unexpected rest)

/-- The line up to its comment, continuing inside the given quotes if any; `escaped` says that a
backslash inside quotes stands before. -/
def stripCommentFrom : Option Char → Bool → List Char → List Char
  | _, _, [] => []
  | some quote, true, c :: rest => c :: stripCommentFrom (some quote) false rest
  | some quote, false, c :: rest =>
    if c = '\\' then c :: stripCommentFrom (some quote) true rest
    else if c = quote then c :: stripCommentFrom none false rest
    else c :: stripCommentFrom (some quote) false rest
  | none, escaped, c :: rest =>
    if c = doubleQuote ∨ c = singleQuote then c :: stripCommentFrom (some c) escaped rest
    else if c = '#' then []
    else c :: stripCommentFrom none escaped rest

/-- The line up to its comment, which starts at the first `#` outside quotes. -/
def stripComment (line : List Char) : List Char :=
  stripCommentFrom none false line

/-- How many bodies are open after a statement, if `depth` were before it. -/
def depthAfter (depth : Nat) : Statement → Option Nat
  | .openClass _ _ | .openModule _ => some (depth + 1)
  | .close => if depth = 0 then none else some (depth - 1)
  | _ => some depth

/-- The statements of the lines after line number `line`, where `depth` bodies are open. -/
def parseLines (line depth : Nat) : List (List Char) → Except SyntaxError (List (Nat × Statement))
  | [] => if depth = 0 then .ok [] else .error ⟨line, .missingEnd⟩
  | text :: rest =>
    let code := stripComment text
    if atEnd code then parseLines (line + 1) depth rest
    else
      match wholeStatement code with
      | .error fault => .error ⟨line + 1, fault⟩
      | .ok statement =>
        match depthAfter depth statement with
        | none => .error ⟨line + 1, .strayEnd⟩
        | some depth =>
          match parseLines (line + 1) depth rest with
          | .error e => .error e
          | .ok statements => .ok ((line + 1, statement) :: statements)

/-- The statements of a script with the numbers of their lines. -/
def parse (source : List Char) : Except SyntaxError (List (Nat × Statement)) :=
  parseLines 0 0 (lines source)

end EmbeddedRuby.Source
