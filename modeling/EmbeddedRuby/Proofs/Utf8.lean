import EmbeddedRuby.Text.Utf8

/-!
# Text comes back from its bytes

The bytes of a text are cut into the characters that they were made of and nothing else
(`pieces_encode`), so the text is had again from them (`decode?_encodeString`).  The other way round,
bytes that are read as a text are the bytes of that text (`decode?_eq_ok_iff`).

A character takes one to four bytes.  In each case the leading byte tells how many follow, and every
byte that follows is one that may follow; the tighter ranges for the second byte hold because a
character is neither a surrogate nor beyond the last code point.
-/

namespace EmbeddedRuby.Utf8

/-! ### Bytes -/

/-- A byte has the number that it was made from. -/
theorem toNat_ofNat {n : Nat} (h : n < 256) : (UInt8.ofNat n).toNat = n := by
  rw [UInt8.toNat_ofNat']
  exact Nat.mod_eq_of_lt h

/-- A byte that follows carries six bits. -/
theorem payload_ofNat (n : Nat) : payload (UInt8.ofNat (0x80 + n % 64)) = n % 64 := by
  unfold payload
  rw [toNat_ofNat (by omega)]
  omega

/-- A byte made from six bits is one that may follow. -/
theorem isContinuation_ofNat (n : Nat) : isContinuation (UInt8.ofNat (0x80 + n % 64)) = true := by
  unfold isContinuation
  rw [toNat_ofNat (by omega)]
  simp only [Bool.and_eq_true, decide_eq_true_eq]
  omega

/-- Bytes are told apart by their numbers. -/
theorem ofNat_beq_iff {n k : Nat} (hn : n < 256) (hk : k < 256) :
    (UInt8.ofNat n == UInt8.ofNat k) = true ↔ n = k := by
  rw [beq_iff_eq]
  constructor
  · intro h
    have hnat := congrArg UInt8.toNat h
    rwa [toNat_ofNat hn, toNat_ofNat hk] at hnat
  · rintro rfl
    rfl

/-- A byte that may follow any leading byte may follow each, but for four of them, which leave out
overlong forms, surrogates, and what lies beyond the last code point. -/
theorem isSecond_ofNat {lead n : Nat} (hlead : lead < 256)
    (hE0 : lead = 0xE0 → 0x20 ≤ n % 64) (hED : lead = 0xED → n % 64 < 0x20)
    (hF0 : lead = 0xF0 → 0x10 ≤ n % 64) (hF4 : lead = 0xF4 → n % 64 < 0x10) :
    isSecond (UInt8.ofNat lead) (UInt8.ofNat (0x80 + n % 64)) = true := by
  have hsame : ∀ k : Nat, k < 256 → ((UInt8.ofNat lead == UInt8.ofNat k) = true ↔ lead = k) :=
    fun k hk => ofNat_beq_iff hlead hk
  have hE0' := hsame 0xE0 (by omega)
  have hED' := hsame 0xED (by omega)
  have hF0' := hsame 0xF0 (by omega)
  have hF4' := hsame 0xF4 (by omega)
  unfold isSecond
  rw [toNat_ofNat (by omega)]
  simp only [Bool.and_eq_true, decide_eq_true_eq]
  grind

/-! ### One character -/

/-- A character of one byte is cut off. -/
theorem firstPiece_one {n : Nat} (hhigh : n < 0x80) (rest : List UInt8) :
    firstPiece (UInt8.ofNat n) rest = (.char (Char.ofNat n), rest) := by
  unfold firstPiece
  simp only [toNat_ofNat (show n < 256 by omega)]
  rw [if_pos hhigh]

/-- A character of two bytes is cut off. -/
theorem firstPiece_two {n : Nat} (hlow : 0x80 ≤ n) (hhigh : n < 0x800) (rest : List UInt8) :
    firstPiece (UInt8.ofNat (0xC0 + n / 64)) (UInt8.ofNat (0x80 + n % 64) :: rest) =
      (.char (Char.ofNat n), rest) := by
  have hnumber : (0xC0 + n / 64) % 32 * 64 + n % 64 = n := by omega
  unfold firstPiece
  simp only [toNat_ofNat (show 0xC0 + n / 64 < 256 by omega), isContinuation_ofNat, payload_ofNat,
    hnumber, if_true]
  rw [if_neg (by omega), if_neg (by omega), if_pos (by omega)]

/-- A character of three bytes is cut off, if it is no surrogate. -/
theorem firstPiece_three {n : Nat} (hlow : 0x800 ≤ n) (hhigh : n < 0x10000)
    (hvalid : n < 0xD800 ∨ 0xDFFF < n) (rest : List UInt8) :
    firstPiece (UInt8.ofNat (0xE0 + n / 4096))
        (UInt8.ofNat (0x80 + n / 64 % 64) :: UInt8.ofNat (0x80 + n % 64) :: rest) =
      (.char (Char.ofNat n), rest) := by
  have hnumber : (0xE0 + n / 4096) % 16 * 4096 + n / 64 % 64 * 64 + n % 64 = n := by omega
  have hsecond : isSecond (UInt8.ofNat (0xE0 + n / 4096)) (UInt8.ofNat (0x80 + n / 64 % 64)) =
      true := by
    apply isSecond_ofNat <;> omega
  unfold firstPiece
  simp only [toNat_ofNat (show 0xE0 + n / 4096 < 256 by omega), hsecond, isContinuation_ofNat,
    payload_ofNat, hnumber, if_true]
  rw [if_neg (by omega), if_neg (by omega), if_neg (by omega), if_pos (by omega)]

/-- A character of four bytes is cut off, up to the last code point. -/
theorem firstPiece_four {n : Nat} (hlow : 0x10000 ≤ n) (hhigh : n < 0x110000)
    (rest : List UInt8) :
    firstPiece (UInt8.ofNat (0xF0 + n / 262144))
        (UInt8.ofNat (0x80 + n / 4096 % 64) :: UInt8.ofNat (0x80 + n / 64 % 64) ::
          UInt8.ofNat (0x80 + n % 64) :: rest) =
      (.char (Char.ofNat n), rest) := by
  have hnumber : (0xF0 + n / 262144) % 8 * 262144 + n / 4096 % 64 * 4096 + n / 64 % 64 * 64 +
      n % 64 = n := by omega
  have hsecond : isSecond (UInt8.ofNat (0xF0 + n / 262144))
      (UInt8.ofNat (0x80 + n / 4096 % 64)) = true := by
    apply isSecond_ofNat <;> omega
  unfold firstPiece
  simp only [toNat_ofNat (show 0xF0 + n / 262144 < 256 by omega), hsecond, isContinuation_ofNat,
    payload_ofNat, hnumber, if_true]
  rw [if_neg (by omega), if_neg (by omega), if_neg (by omega), if_neg (by omega),
    if_pos (by omega)]

/-- The first piece of bytes that begin with those of a character is that character. -/
theorem firstPiece_encodeChar (c : Char) (rest : List UInt8) :
    ∃ b tail, encodeChar c = b :: tail ∧ firstPiece b (tail ++ rest) = (.char c, rest) := by
  have hvalid : c.toNat < 0xD800 ∨ 0xDFFF < c.toNat ∧ c.toNat < 0x110000 := c.valid
  have hchar : Char.ofNat c.toNat = c := Char.ofNat_toNat c
  unfold encodeChar
  dsimp only
  by_cases hone : c.toNat < 0x80
  · have hfirst := firstPiece_one hone rest
    rw [hchar] at hfirst
    rw [if_pos hone]
    exact ⟨_, _, rfl, hfirst⟩
  by_cases htwo : c.toNat < 0x800
  · have hfirst := firstPiece_two (Nat.le_of_not_lt hone) htwo rest
    rw [hchar] at hfirst
    rw [if_neg hone, if_pos htwo]
    exact ⟨_, _, rfl, hfirst⟩
  by_cases hthree : c.toNat < 0x10000
  · have hfirst := firstPiece_three (Nat.le_of_not_lt htwo) hthree (hvalid.imp_right And.left) rest
    rw [hchar] at hfirst
    rw [if_neg hone, if_neg htwo, if_pos hthree]
    exact ⟨_, _, rfl, hfirst⟩
  · have hlast : c.toNat < 0x110000 := by omega
    have hfirst := firstPiece_four (Nat.le_of_not_lt hthree) hlast rest
    rw [hchar] at hfirst
    rw [if_neg hone, if_neg htwo, if_neg hthree]
    exact ⟨_, _, rfl, hfirst⟩

/-! ### Texts -/

/-- The bytes of a text are cut into its characters. -/
theorem pieces_encode (text : List Char) : pieces (encode text) = text.map Piece.char := by
  induction text with
  | nil => simp [encode, pieces]
  | cons c text ih =>
      obtain ⟨b, tail, hbytes, hfirst⟩ := firstPiece_encodeChar c (encode text)
      have hencode : encode (c :: text) = b :: (tail ++ encode text) := by
        rw [encode, List.flatMap_cons, hbytes]
        rfl
      rw [hencode, pieces, hfirst, ih]
      rfl

/-- The bytes of a text are that text, read leniently. -/
theorem decodeLossy_encode (text : List Char) : decodeLossy (encode text) = text := by
  unfold decodeLossy
  rw [pieces_encode, List.map_map]
  exact List.map_id text

/-- The bytes of a string are that string, read leniently. -/
theorem stringLossy_encodeString (text : String) : stringLossy (encodeString text) = text := by
  unfold stringLossy encodeString
  rw [decodeLossy_encode, String.ofList_toList]

/-- Pieces that are characters are these characters. -/
theorem charsOfPieces_map_char (index : Nat) (text : List Char) :
    charsOfPieces index (text.map Piece.char) = .ok text := by
  induction text generalizing index with
  | nil => rfl
  | cons c text ih =>
      rw [List.map_cons, charsOfPieces, ih]
      rfl

/-- The bytes of a text are that text. -/
theorem decode?_encodeString (text : String) : decode? (encodeString text) = .ok text.toList := by
  unfold decode? encodeString
  rw [pieces_encode, charsOfPieces_map_char]

/-! ### Bytes that are a text -/

/-- A byte that follows carries less than sixty-four. -/
theorem payload_lt (b : UInt8) : payload b < 64 :=
  Nat.mod_lt _ (by decide)

/-- A byte that follows is had again from its six bits. -/
theorem ofNat_payload {b : UInt8} (h : isContinuation b = true) :
    UInt8.ofNat (0x80 + payload b) = b := by
  unfold isContinuation at h
  simp only [Bool.and_eq_true, decide_eq_true_eq] at h
  have hnumber : 0x80 + payload b = b.toNat := by
    unfold payload
    omega
  rw [hnumber, UInt8.ofNat_toNat]

/-- What a second byte may be: one that follows, and after four leading bytes not each of these. -/
theorem isSecond_bounds {lead b : UInt8} (h : isSecond lead b = true) :
    isContinuation b = true ∧ (lead.toNat = 0xE0 → 0x20 ≤ payload b) ∧
      (lead.toNat = 0xED → payload b < 0x20) ∧ (lead.toNat = 0xF0 → 0x10 ≤ payload b) ∧
      (lead.toNat = 0xF4 → payload b < 0x10) := by
  have hsame : ∀ k : UInt8, (lead == k) = true ↔ lead.toNat = k.toNat := by
    intro k
    rw [beq_iff_eq, UInt8.toNat_inj]
  have hE0 : (lead == 0xE0) = true ↔ lead.toNat = 0xE0 := hsame 0xE0
  have hED : (lead == 0xED) = true ↔ lead.toNat = 0xED := hsame 0xED
  have hF0 : (lead == 0xF0) = true ↔ lead.toNat = 0xF0 := hsame 0xF0
  have hF4 : (lead == 0xF4) = true ↔ lead.toNat = 0xF4 := hsame 0xF4
  unfold isSecond at h
  unfold isContinuation payload
  simp only [Bool.and_eq_true, decide_eq_true_eq] at h ⊢
  grind

/-- A number that is neither a surrogate nor beyond the last code point is that of a character. -/
theorem toNat_charOfNat {n : Nat} (h : n < 0xD800 ∨ 0xDFFF < n ∧ n < 0x110000) :
    (Char.ofNat n).toNat = n := by
  have hvalid : n.isValidChar := h
  rw [Char.ofNat, dif_pos hvalid]
  rfl

/-- A byte below 128 is the character with its number. -/
theorem encodeChar_one {b : UInt8} (hb : b.toNat < 0x80) : encodeChar (Char.ofNat b.toNat) = [b] := by
  unfold encodeChar
  simp only [toNat_charOfNat (show b.toNat < 0xD800 ∨ _ by omega), if_pos hb, UInt8.ofNat_toNat]

/-- Two bytes are those of the character that they carry the bits of. -/
theorem encodeChar_two {b b₁ : UInt8} (hlow : 0xC2 ≤ b.toNat) (hhigh : b.toNat < 0xE0)
    (h₁ : isContinuation b₁ = true) :
    encodeChar (Char.ofNat (b.toNat % 32 * 64 + payload b₁)) = [b, b₁] := by
  have hp₁ := payload_lt b₁
  generalize hn : b.toNat % 32 * 64 + payload b₁ = n
  have hlead : 0xC0 + n / 64 = b.toNat := by omega
  have hlast : n % 64 = payload b₁ := by omega
  unfold encodeChar
  simp only [toNat_charOfNat (show n < 0xD800 ∨ _ by omega)]
  rw [if_neg (by omega), if_pos (by omega), hlead, hlast, ofNat_payload h₁, UInt8.ofNat_toNat]

/-- Three bytes are those of the character that they carry the bits of. -/
theorem encodeChar_three {b b₁ b₂ : UInt8} (hlow : 0xE0 ≤ b.toNat) (hhigh : b.toNat < 0xF0)
    (h₁ : isSecond b b₁ = true) (h₂ : isContinuation b₂ = true) :
    encodeChar (Char.ofNat (b.toNat % 16 * 4096 + payload b₁ * 64 + payload b₂)) = [b, b₁, b₂] := by
  obtain ⟨hfollows, hE0, hED, -, -⟩ := isSecond_bounds h₁
  have hp₁ := payload_lt b₁
  have hp₂ := payload_lt b₂
  generalize hn : b.toNat % 16 * 4096 + payload b₁ * 64 + payload b₂ = n
  have hlead : 0xE0 + n / 4096 = b.toNat := by omega
  have hsecond : n / 64 % 64 = payload b₁ := by omega
  have hlast : n % 64 = payload b₂ := by omega
  unfold encodeChar
  simp only [toNat_charOfNat (show n < 0xD800 ∨ _ by omega)]
  rw [if_neg (by omega), if_neg (by omega), if_pos (by omega), hlead, hsecond, hlast,
    ofNat_payload hfollows, ofNat_payload h₂, UInt8.ofNat_toNat]

/-- Four bytes are those of the character that they carry the bits of. -/
theorem encodeChar_four {b b₁ b₂ b₃ : UInt8} (hlow : 0xF0 ≤ b.toNat) (hhigh : b.toNat < 0xF5)
    (h₁ : isSecond b b₁ = true) (h₂ : isContinuation b₂ = true) (h₃ : isContinuation b₃ = true) :
    encodeChar (Char.ofNat
      (b.toNat % 8 * 262144 + payload b₁ * 4096 + payload b₂ * 64 + payload b₃)) =
        [b, b₁, b₂, b₃] := by
  obtain ⟨hfollows, -, -, hF0, hF4⟩ := isSecond_bounds h₁
  have hp₁ := payload_lt b₁
  have hp₂ := payload_lt b₂
  have hp₃ := payload_lt b₃
  generalize hn : b.toNat % 8 * 262144 + payload b₁ * 4096 + payload b₂ * 64 + payload b₃ = n
  have hlead : 0xF0 + n / 262144 = b.toNat := by omega
  have hsecond : n / 4096 % 64 = payload b₁ := by omega
  have hthird : n / 64 % 64 = payload b₂ := by omega
  have hlast : n % 64 = payload b₃ := by omega
  unfold encodeChar
  simp only [toNat_charOfNat (show n < 0xD800 ∨ _ by omega)]
  rw [if_neg (by omega), if_neg (by omega), if_neg (by omega), hlead, hsecond, hthird, hlast,
    ofNat_payload hfollows, ofNat_payload h₂, ofNat_payload h₃, UInt8.ofNat_toNat]

/-- A first piece that is a character is made of the bytes of that character. -/
theorem encodeChar_of_firstPiece {b : UInt8} {rest tail : List UInt8} {c : Char}
    (h : firstPiece b rest = (.char c, tail)) : b :: rest = encodeChar c ++ tail := by
  unfold firstPiece at h
  dsimp only at h
  repeat' split at h
  all_goals cases h
  · rename_i hhigh
    rw [encodeChar_one hhigh]
    rfl
  · rename_i _ hlow hhigh _ _ h₁
    rw [encodeChar_two (Nat.le_of_not_lt hlow) hhigh h₁]
    rfl
  · rename_i _ _ hlow hhigh _ _ h₁ _ _ h₂
    rw [encodeChar_three (Nat.le_of_not_lt hlow) hhigh h₁ h₂]
    rfl
  · rename_i _ _ _ hlow hhigh _ _ h₁ _ _ h₂ _ _ h₃
    rw [encodeChar_four (Nat.le_of_not_lt hlow) hhigh h₁ h₂ h₃]
    rfl

/-- Bytes that are read as characters only are the bytes of these characters. -/
theorem encode_of_charsOfPieces {bytes : List UInt8} {text : List Char} {index : Nat}
    (h : charsOfPieces index (pieces bytes) = .ok text) : bytes = encode text := by
  induction bytes using pieces.induct generalizing index text with
  | case1 =>
      rw [pieces] at h
      cases h
      rfl
  | case2 b rest ih =>
      rw [pieces] at h
      cases hpiece : firstPiece b rest with
      | mk piece tail =>
          rw [hpiece] at h ih
          cases piece with
          | char c =>
              rw [charsOfPieces] at h
              cases hmore : charsOfPieces (index + (encodeChar c).length) (pieces tail) with
              | error fault =>
                  rw [hmore] at h
                  cases h
              | ok more =>
                  rw [hmore] at h
                  cases h
                  have htail : tail = encode more := ih hmore
                  rw [encodeChar_of_firstPiece hpiece, htail]
                  rfl
          | broken | cutOff => cases h

/-- **The bytes of a text are the only ones that are that text.** -/
theorem decode?_eq_ok_iff {bytes : List UInt8} {text : List Char} :
    decode? bytes = .ok text ↔ bytes = encode text := by
  refine ⟨encode_of_charsOfPieces, ?_⟩
  rintro rfl
  unfold decode?
  rw [pieces_encode, charsOfPieces_map_char]

end EmbeddedRuby.Utf8
