import Resumable.Text.Quoted

/-!
# Quoted texts read back

Reading a quoted text gives the octets that were written (`unquote_quoteBytes`), whether they are
valid UTF-8 or not: the pieces of a text make up its octets, and each piece is written in a form that
stands for it alone.
-/

set_option autoImplicit false

namespace Resumable.Text

/-! ## Octets of characters -/

theorem bytes_char (c : Char) : bytes c.toString = String.utf8EncodeChar c := by
  show (String.singleton c).toByteArray.data.toList = _
  rw [String.toByteArray_singleton, List.utf8Encode_singleton]
  simp

section CodePoint

variable {n : Nat} {b₀ b₁ b₂ b₃ : UInt8}

theorem toNat_ofNat (h : n.isValidChar) : (Char.ofNat n).val.toNat = n := by
  rw [Char.ofNat, dif_pos h]
  rfl

theorem octet_eq (h : n = b₀.toNat) : UInt8.ofNat n = b₀ := by
  rw [h, UInt8.ofNat_toNat]

theorem encode_one (hfits : n < 0x80) (h₀ : n = b₀.toNat) : bytes (Char.ofNat n).toString = [b₀] := by
  rw [bytes_char, String.utf8EncodeChar, toNat_ofNat (.inl (by omega)), if_pos (by omega),
    octet_eq h₀]

theorem encode_two (hlong : 0x80 ≤ n) (hfits : n < 0x800) (h₀ : n / 64 % 32 + 0xC0 = b₀.toNat)
    (h₁ : n % 64 + 0x80 = b₁.toNat) : bytes (Char.ofNat n).toString = [b₀, b₁] := by
  rw [bytes_char, String.utf8EncodeChar, toNat_ofNat (.inl (by omega)), if_neg (by omega),
    if_pos (by omega), octet_eq h₀, octet_eq h₁]

theorem encode_three (hvalid : n.isValidChar) (hlong : 0x800 ≤ n) (hfits : n < 0x10000)
    (h₀ : n / 4096 % 16 + 0xE0 = b₀.toNat) (h₁ : n / 64 % 64 + 0x80 = b₁.toNat)
    (h₂ : n % 64 + 0x80 = b₂.toNat) : bytes (Char.ofNat n).toString = [b₀, b₁, b₂] := by
  rw [bytes_char, String.utf8EncodeChar, toNat_ofNat hvalid, if_neg (by omega),
    if_neg (by omega), if_pos (by omega), octet_eq h₀, octet_eq h₁, octet_eq h₂]

theorem encode_four (hvalid : n.isValidChar) (hlong : 0x10000 ≤ n)
    (h₀ : n / 262144 % 8 + 0xF0 = b₀.toNat) (h₁ : n / 4096 % 64 + 0x80 = b₁.toNat)
    (h₂ : n / 64 % 64 + 0x80 = b₂.toNat) (h₃ : n % 64 + 0x80 = b₃.toNat) :
    bytes (Char.ofNat n).toString = [b₀, b₁, b₂, b₃] := by
  rw [bytes_char, String.utf8EncodeChar, toNat_ofNat hvalid, if_neg (by omega),
    if_neg (by omega), if_neg (by omega), octet_eq h₀, octet_eq h₁, octet_eq h₂, octet_eq h₃]

end CodePoint

/-! ## Pieces of texts -/

/-- The octets of a piece. -/
def Piece.octets : Piece → Bytes
  | .scalar c => bytes c.toString
  | .stray b => [b]

namespace Bytes

theorem range_of_continues {low high b : UInt8} (h : continues low high b = true) :
    low.toNat ≤ b.toNat ∧ b.toNat ≤ high.toNat := by
  simpa [continues, UInt8.le_iff_toNat_le] using h

theorem toNat_of_ite {b lead tight loose x : UInt8} (h : x = if b = lead then tight else loose) :
    b.toNat = lead.toNat ∧ x.toNat = tight.toNat ∨ b.toNat ≠ lead.toNat ∧ x.toNat = loose.toNat := by
  by_cases hb : b = lead
  · rw [if_pos hb] at h
    exact .inl ⟨by rw [hb], by rw [h]⟩
  · rw [if_neg hb] at h
    exact .inr ⟨fun heq => hb (UInt8.toNat_inj.mp heq), by rw [h]⟩

/-- A character at the front of a text stands for the octets that it takes. -/
theorem front?_octets {text : Bytes} {c : Char} {size : Nat} (h : front? text = some (c, size)) :
    ∃ b more rest, text = b :: (more ++ rest) ∧ bytes c.toString = b :: more ∧
      size = more.length + 1 := by
  unfold front? at h
  split at h
  case h_2 => cases h
  case h_1 b₀ rest =>
  split at h
  case isTrue hb₀ =>
    cases h
    have hb₀ : b₀.toNat < 0x80 := by simpa [UInt8.lt_iff_toNat_lt] using hb₀
    exact ⟨b₀, [], rest, rfl, encode_one hb₀ rfl, rfl⟩
  split at h
  case isTrue hb₀ =>
    have hb₀ : 0xC2 ≤ b₀.toNat ∧ b₀.toNat ≤ 0xDF := by simpa [UInt8.le_iff_toNat_le] using hb₀
    split at h
    case h_2 => cases h
    case h_1 b₁ rest =>
    split at h
    case isFalse => cases h
    case isTrue hb₁ =>
    cases h
    have hb₁ : 0x80 ≤ b₁.toNat ∧ b₁.toNat ≤ 0xBF := range_of_continues hb₁
    refine ⟨b₀, [b₁], rest, rfl, ?_, rfl⟩
    unfold payload
    apply encode_two <;> omega
  split at h
  case isTrue hb₀ =>
    have hb₀ : 0xE0 ≤ b₀.toNat ∧ b₀.toNat ≤ 0xEF := by simpa [UInt8.le_iff_toNat_le] using hb₀
    split at h
    case h_2 => cases h
    case h_1 b₁ b₂ rest =>
    obtain ⟨low, hlow⟩ : ∃ x, x = if b₀ = 0xE0 then (0xA0 : UInt8) else 0x80 := ⟨_, rfl⟩
    obtain ⟨high, hhigh⟩ : ∃ x, x = if b₀ = 0xED then (0x9F : UInt8) else 0xBF := ⟨_, rfl⟩
    rw [← hlow, ← hhigh] at h
    dsimp only at h
    split at h
    case isFalse => cases h
    case isTrue hcontinues =>
    cases h
    obtain ⟨hb₁, hb₂⟩ := Bool.and_eq_true_iff.mp hcontinues
    have hb₁ := range_of_continues hb₁
    have hb₂ : 0x80 ≤ b₂.toNat ∧ b₂.toNat ≤ 0xBF := range_of_continues hb₂
    have hlow : b₀.toNat = 0xE0 ∧ low.toNat = 0xA0 ∨ b₀.toNat ≠ 0xE0 ∧ low.toNat = 0x80 :=
      toNat_of_ite hlow
    have hhigh : b₀.toNat = 0xED ∧ high.toNat = 0x9F ∨ b₀.toNat ≠ 0xED ∧ high.toNat = 0xBF :=
      toNat_of_ite hhigh
    have hvalid : (b₀.toNat % 16 * 4096 + b₁.toNat % 64 * 64 + b₂.toNat % 64).isValidChar := by
      unfold Nat.isValidChar
      omega
    refine ⟨b₀, [b₁, b₂], rest, rfl, ?_, rfl⟩
    unfold payload
    apply encode_three hvalid <;> omega
  split at h
  case isFalse => cases h
  case isTrue hb₀ =>
    have hb₀ : 0xF0 ≤ b₀.toNat ∧ b₀.toNat ≤ 0xF4 := by simpa [UInt8.le_iff_toNat_le] using hb₀
    split at h
    case h_2 => cases h
    case h_1 b₁ b₂ b₃ rest =>
    obtain ⟨low, hlow⟩ : ∃ x, x = if b₀ = 0xF0 then (0x90 : UInt8) else 0x80 := ⟨_, rfl⟩
    obtain ⟨high, hhigh⟩ : ∃ x, x = if b₀ = 0xF4 then (0x8F : UInt8) else 0xBF := ⟨_, rfl⟩
    rw [← hlow, ← hhigh] at h
    dsimp only at h
    split at h
    case isFalse => cases h
    case isTrue hcontinues =>
    cases h
    obtain ⟨hcontinues, hb₃⟩ := Bool.and_eq_true_iff.mp hcontinues
    obtain ⟨hb₁, hb₂⟩ := Bool.and_eq_true_iff.mp hcontinues
    have hb₁ := range_of_continues hb₁
    have hb₂ : 0x80 ≤ b₂.toNat ∧ b₂.toNat ≤ 0xBF := range_of_continues hb₂
    have hb₃ : 0x80 ≤ b₃.toNat ∧ b₃.toNat ≤ 0xBF := range_of_continues hb₃
    have hlow : b₀.toNat = 0xF0 ∧ low.toNat = 0x90 ∨ b₀.toNat ≠ 0xF0 ∧ low.toNat = 0x80 :=
      toNat_of_ite hlow
    have hhigh : b₀.toNat = 0xF4 ∧ high.toNat = 0x8F ∨ b₀.toNat ≠ 0xF4 ∧ high.toNat = 0xBF :=
      toNat_of_ite hhigh
    have hvalid : (b₀.toNat % 8 * 262144 + b₁.toNat % 64 * 4096 + b₂.toNat % 64 * 64 +
        b₃.toNat % 64).isValidChar := by
      unfold Nat.isValidChar
      omega
    refine ⟨b₀, [b₁, b₂, b₃], rest, rfl, ?_, rfl⟩
    unfold payload
    apply encode_four hvalid <;> omega

/-- The pieces of a text make up its octets. -/
theorem piecesAfter_octets (skip : Nat) (text : Bytes) :
    (piecesAfter skip text).flatMap Piece.octets = text.drop skip := by
  fun_induction piecesAfter skip text with
  | case1 skip => simp
  | case2 skip b rest ih => rw [ih, List.drop_succ_cons]
  | case3 b rest c size hfront ih =>
    obtain ⟨b', more, behind, htext, hoctets, rfl⟩ := front?_octets hfront
    obtain ⟨rfl, rfl⟩ := List.cons.inj htext
    rw [List.flatMap_cons, ih, Piece.octets, hoctets]
    simp
  | case4 b rest hfront ih =>
    rw [List.flatMap_cons, ih]
    rfl

theorem pieces_octets (text : Bytes) : text.pieces.flatMap Piece.octets = text :=
  piecesAfter_octets 0 text

/-! ## Hexadecimal digits -/

theorem hexValue?_hexDigit : ∀ n < 16, hexValue? (hexDigit n) = some n := by
  decide

theorem hexDigit_plain : ∀ n < 16, hexDigit n ≠ '"' ∧ hexDigit n ≠ '\\' := by
  decide

end Bytes

theorem hexPadded_succ (width n : Nat) :
    hexPadded (width + 1) n =
      Bytes.hexDigit (n / Nat.pow 16 width % 16) :: hexPadded width n := by
  simp [hexPadded, List.range_succ]

theorem hexPadded_plain {width n : Nat} {c : Char} (h : c ∈ hexPadded width n) :
    c ≠ '"' ∧ c ≠ '\\' := by
  obtain ⟨i, -, rfl⟩ := List.mem_map.mp h
  exact Bytes.hexDigit_plain _ (Nat.mod_lt _ (by decide))

/-- Padded digits are read back as far as they go. -/
theorem digits?_hexPadded (n : Nat) (rest : List Char) :
    ∀ width, digits? 16 width (hexPadded width n ++ rest) = some (n % Nat.pow 16 width, rest)
  | 0 => by simp [digits?, hexPadded, Nat.mod_one]
  | width + 1 => by
    have hlt : n / Nat.pow 16 width % 16 < 16 := Nat.mod_lt _ (by decide)
    have hsum : n % Nat.pow 16 (width + 1) =
        n / Nat.pow 16 width % 16 * Nat.pow 16 width + n % Nat.pow 16 width :=
      Nat.mod_pow_succ.trans (by rw [Nat.mul_comm, Nat.add_comm]; rfl)
    rw [hexPadded_succ, List.cons_append, digits?, Bytes.hexValue?_hexDigit _ hlt, hsum]
    simp only [Option.bind_eq_bind, Option.bind_some, if_pos hlt, digits?_hexPadded n rest width]
    rfl

/-- A number that the digits have room for is read back. -/
theorem digits?_hexPadded_of_lt {width n : Nat} (h : n < Nat.pow 16 width) (rest : List Char) :
    digits? 16 width (hexPadded width n ++ rest) = some (n, rest) := by
  rw [digits?_hexPadded, Nat.mod_eq_of_lt h]

/-! ## Pieces inside quotes -/

/-- Characters that stand for octets inside quotes: one that stands for itself, or an escape. -/
inductive Stands : List Char → Bytes → Prop where
  | plain {c : Char} (hmark : c ≠ '"') (hslash : c ≠ '\\') (hline : c ≠ '\n') :
    Stands [c] (bytes c.toString)
  | escape {c : Char} {inner : List Char} {octets : Bytes} (hline : c ≠ '\n')
    (hinner : ∀ d ∈ inner, d ≠ '"' ∧ d ≠ '\\')
    (hreads : ∀ rest, escape? (c :: (inner ++ rest)) = some (octets, rest)) :
    Stands ('\\' :: c :: inner) octets

theorem Stands.length_pos {written : List Char} {octets : Bytes} (h : Stands written octets) :
    0 < written.length := by
  cases h <;> exact Nat.succ_pos _

/-- A number below 256 stands for an octet. -/
theorem stands_octet {n : Nat} {b : UInt8} (h : n = b.toNat) :
    Stands ('\\' :: 'x' :: hexPadded 2 n) [b] := by
  refine .escape (by decide) (fun d hd => hexPadded_plain hd) fun rest => ?_
  have hlt := b.toNat_lt
  have hdigits : digits? 16 2 (hexPadded 2 n ++ rest) = some (n, rest) :=
    digits?_hexPadded_of_lt (h ▸ hlt) rest
  simp [escape?, hdigits, octet_eq h]

theorem codePoint?_toNat (c : Char) : codePoint? c.toNat = some (bytes c.toString) := by
  have hvalid : c.toNat < 0xD800 ∨ (0xDFFF < c.toNat ∧ c.toNat < 0x110000) := c.valid
  rw [codePoint?, if_pos hvalid, Char.ofNat_toNat]

/-- What is written for a character stands for it. -/
theorem stands_quoteChar (c : Char) : Stands (quoteChar c) (bytes c.toString) := by
  unfold quoteChar
  split
  case h_1 letter hletter =>
    unfold shortEscape? at hletter
    split at hletter <;> cases hletter <;>
      exact .escape (by decide) (by simp) fun rest => by simp [escape?, ofShortEscape?]
  case h_2 hnone =>
    split
    · have hspecial : ∀ d : Char, (shortEscape? d).isSome = true → c ≠ d := by
        rintro d hd rfl
        rw [hnone] at hd
        cases hd
      exact .plain (hspecial _ rfl) (hspecial _ rfl) (hspecial _ rfl)
    split
    · rename_i hlow
      have hoctet : c.toNat = (UInt8.ofNat c.toNat).toNat :=
        (UInt8.toNat_ofNat_of_lt' (Nat.lt_trans hlow (by decide))).symm
      have hencoded := encode_one hlow hoctet
      rw [Char.ofNat_toNat] at hencoded
      rw [hencoded]
      exact stands_octet hoctet
    split
    · rename_i hshort
      refine .escape (by decide) (fun d hd => hexPadded_plain hd) fun rest => ?_
      have hdigits : digits? 16 4 (hexPadded 4 c.toNat ++ rest) = some (c.toNat, rest) :=
        digits?_hexPadded_of_lt hshort rest
      simp [escape?, hdigits, codePoint?_toNat]
    · refine .escape (by decide) (fun d hd => hexPadded_plain hd) fun rest => ?_
      have hlong : c.toNat < Nat.pow 16 8 := by
        have hvalid : c.toNat < 0xD800 ∨ (0xDFFF < c.toNat ∧ c.toNat < 0x110000) := c.valid
        exact Nat.lt_trans (by omega : c.toNat < 0x110000) (by decide)
      have hdigits := digits?_hexPadded_of_lt hlong rest
      simp [escape?, hdigits, codePoint?_toNat]

/-- What is written for a piece stands for its octets. -/
theorem stands_quotePiece : ∀ p : Piece, Stands (quotePiece p) p.octets
  | .scalar c => stands_quoteChar c
  | .stray _ => stands_octet rfl

/-! ## Quoted texts -/

/-- Reading goes past what stands for octets, if there are rounds enough. -/
theorem unquoteInside_stands {written rest : List Char} {octets more : Bytes} {rounds : Nat}
    (h : Stands written octets) (hrest : unquoteInside rounds rest = some more) :
    unquoteInside (rounds + 1) (written ++ rest) = some (octets ++ more) := by
  cases h with
  | plain hmark hslash hline =>
    rw [List.singleton_append]
    unfold unquoteInside
    split <;> simp_all
  | escape hline hinner hreads => simp [unquoteInside, hreads, hrest]

theorem unquoteInside_pieces : ∀ (ps : List Piece) (rounds : Nat), ps.length < rounds →
    unquoteInside rounds (ps.flatMap quotePiece ++ ['"']) = some (ps.flatMap Piece.octets)
  | [], rounds + 1, _ => rfl
  | p :: ps, rounds + 1, h => by
    rw [List.flatMap_cons, List.append_assoc, List.flatMap_cons]
    exact unquoteInside_stands (stands_quotePiece p)
      (unquoteInside_pieces ps rounds (Nat.lt_of_succ_lt_succ h))

theorem length_flatMap_quotePiece (ps : List Piece) : ps.length ≤ (ps.flatMap quotePiece).length := by
  induction ps with
  | nil => exact Nat.le_refl _
  | cons p ps ih =>
    have hpos := (stands_quotePiece p).length_pos
    rw [List.flatMap_cons, List.length_append, List.length_cons]
    omega

/-- **Quoted texts read back.** -/
theorem unquote_quoteBytes (text : Bytes) : unquote? (quoteBytes text) = some text := by
  have hrounds : text.pieces.length < (text.pieces.flatMap quotePiece ++ ['"']).length := by
    rw [List.length_append]
    exact Nat.lt_succ_of_le (length_flatMap_quotePiece _)
  rw [unquote?, quoteBytes, String.toList_ofList]
  exact (unquoteInside_pieces _ _ hrounds).trans (congrArg some (Bytes.pieces_octets text))

end Resumable.Text
