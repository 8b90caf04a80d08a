/-!
# UTF-8, read leniently and read strictly

Strings of the interpreter are bytes and may hold anything; the host and the scripts deal in text.
`encode` goes from text to bytes.  The way back starts with `pieces`, which cuts a byte string into
characters and faulty stretches, and forks there:

* `decodeLossy` puts one replacement character for each faulty stretch;
* `decode?` refuses the first faulty stretch and says where it is.

A faulty stretch is as long as it can be while being the beginning of some character, so a broken
three-byte character is one stretch and not three.  The lengths and the starting ranges are those
of the table of well-formed byte sequences of the Unicode standard.
-/

namespace EmbeddedRuby.Utf8

/-- The bytes of one character. -/
def encodeChar (c : Char) : List UInt8 :=
  let n := c.toNat
  if n < 0x80 then [UInt8.ofNat n]
  else if n < 0x800 then [UInt8.ofNat (0xC0 + n / 64), UInt8.ofNat (0x80 + n % 64)]
  else if n < 0x10000 then
    [UInt8.ofNat (0xE0 + n / 4096), UInt8.ofNat (0x80 + n / 64 % 64), UInt8.ofNat (0x80 + n % 64)]
  else
    [UInt8.ofNat (0xF0 + n / 262144), UInt8.ofNat (0x80 + n / 4096 % 64),
      UInt8.ofNat (0x80 + n / 64 % 64), UInt8.ofNat (0x80 + n % 64)]

/-- The bytes of a text. -/
def encode (text : List Char) : List UInt8 :=
  text.flatMap encodeChar

/-- The bytes of a string. -/
def encodeString (text : String) : List UInt8 :=
  encode text.toList

/-- A byte that goes on with a character rather than starting one. -/
def isContinuation (b : UInt8) : Bool :=
  0x80 ≤ b.toNat && b.toNat < 0xC0

/-- May `second` follow the leading byte `lead` of a character of three or four bytes?  The tighter
ranges keep out overlong forms, surrogates and what lies beyond the last code point. -/
def isSecond (lead second : UInt8) : Bool :=
  let low := if lead == 0xE0 then 0xA0 else if lead == 0xF0 then 0x90 else 0x80
  let high := if lead == 0xED then 0xA0 else if lead == 0xF4 then 0x90 else 0xC0
  low ≤ second.toNat && second.toNat < high

/-- A stretch of a byte string: a character, or a faulty stretch of one to three bytes. -/
inductive Piece where
  | char (c : Char)
  /-- A stretch that what follows it keeps from being a character. -/
  | broken (width : Nat)
  /-- The beginning of a character that the end of the bytes cuts off. -/
  | cutOff (width : Nat)
deriving DecidableEq, Repr

/-- How many bytes the piece takes. -/
def Piece.width : Piece → Nat
  | .char c => (encodeChar c).length
  | .broken width => width
  | .cutOff width => width

/-- The value of a continuation byte. -/
def payload (b : UInt8) : Nat :=
  b.toNat % 64

/-- The first piece of `b :: rest`, with what comes after it. -/
def firstPiece (b : UInt8) (rest : List UInt8) : Piece × List UInt8 :=
  let n := b.toNat
  if n < 0x80 then (.char (Char.ofNat n), rest)
  else if n < 0xC2 then (.broken 1, rest)
  else if n < 0xE0 then
    match rest with
    | [] => (.cutOff 1, [])
    | b₁ :: rest₁ =>
      if isContinuation b₁ then (.char (Char.ofNat (n % 32 * 64 + payload b₁)), rest₁)
      else (.broken 1, rest)
  else if n < 0xF0 then
    match rest with
    | [] => (.cutOff 1, [])
    | b₁ :: rest₁ =>
      if isSecond b b₁ then
        match rest₁ with
        | [] => (.cutOff 2, [])
        | b₂ :: rest₂ =>
          if isContinuation b₂ then
            (.char (Char.ofNat (n % 16 * 4096 + payload b₁ * 64 + payload b₂)), rest₂)
          else (.broken 2, rest₁)
      else (.broken 1, rest)
  else if n < 0xF5 then
    match rest with
    | [] => (.cutOff 1, [])
    | b₁ :: rest₁ =>
      if isSecond b b₁ then
        match rest₁ with
        | [] => (.cutOff 2, [])
        | b₂ :: rest₂ =>
          if isContinuation b₂ then
            match rest₂ with
            | [] => (.cutOff 3, [])
            | b₃ :: rest₃ =>
              if isContinuation b₃ then
                (.char (Char.ofNat
                  (n % 8 * 262144 + payload b₁ * 4096 + payload b₂ * 64 + payload b₃)), rest₃)
              else (.broken 3, rest₂)
          else (.broken 2, rest₁)
      else (.broken 1, rest)
  else (.broken 1, rest)

theorem firstPiece_rest_length (b : UInt8) (rest : List UInt8) :
    (firstPiece b rest).2.length ≤ rest.length := by
  unfold firstPiece
  grind

/-- The bytes cut into characters and faulty stretches. -/
def pieces : List UInt8 → List Piece
  | [] => []
  | b :: rest => (firstPiece b rest).1 :: pieces (firstPiece b rest).2
termination_by bytes => bytes.length
decreasing_by
  have := firstPiece_rest_length b rest
  simp only [List.length_cons]
  omega

/-- The character that stands for what cannot be read. -/
def replacement : Char := Char.ofNat 0xFFFD

/-- The text of the bytes, with a replacement character for each faulty stretch. -/
def decodeLossy (bytes : List UInt8) : List Char :=
  (pieces bytes).map fun
    | .char c => c
    | .broken _ => replacement
    | .cutOff _ => replacement

/-- The text of the bytes as a string, with a replacement character for each faulty stretch. -/
def stringLossy (bytes : List UInt8) : String :=
  String.ofList (decodeLossy bytes)

/-- Why bytes are not UTF-8: where the first faulty stretch starts, and its width unless the bytes
simply end too soon. -/
structure Fault where
  index : Nat
  width : Option Nat
deriving DecidableEq, Repr

/-- The text of a fault. -/
def Fault.message : Fault → String
  | ⟨index, some width⟩ => s!"invalid utf-8 sequence of {width} bytes from index {index}"
  | ⟨index, none⟩ => s!"incomplete utf-8 byte sequence from index {index}"

/-- The characters of the pieces, the first of which starts at `index`. -/
def charsOfPieces : Nat → List Piece → Except Fault (List Char)
  | _, [] => .ok []
  | index, .char c :: rest =>
    (charsOfPieces (index + (encodeChar c).length) rest).map (c :: ·)
  | index, .broken width :: _ => .error ⟨index, some width⟩
  | index, .cutOff _ :: _ => .error ⟨index, none⟩

/-- The text of the bytes, or the first fault in them. -/
def decode? (bytes : List UInt8) : Except Fault (List Char) :=
  charsOfPieces 0 (pieces bytes)

end EmbeddedRuby.Utf8
