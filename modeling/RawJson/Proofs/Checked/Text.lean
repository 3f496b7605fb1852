/-
Texts as buffers. A program that reads a text goes by positions in its UTF-8
bytes and looks at one byte at a time, but it can cut the text only between
characters. All bytes that the format of paths knows are those of single
characters: no byte of a longer character is below `0x80`, so a position where
one of them stands is the start of a character.
-/
import RawJson.Proofs.Checked.Run

namespace RawJson.Checked

variable {ε : Type}

/-- The UTF-8 bytes of a text. -/
def encode (text : List Char) : Bytes := text.flatMap String.utf8EncodeChar

/-- A text in front of a position in its bytes and from there on, unless that is
inside a character or past the end. -/
def splitAt? : List Char → Nat → Option (List Char × List Char)
  | text, 0 => some ([], text)
  | [], _ + 1 => none
  | c :: text, n + 1 =>
    if c.utf8Size ≤ n + 1 then
      (splitAt? text (n + 1 - c.utf8Size)).map fun (front, back) => (c :: front, back)
    else none

/-- The text from a position on. -/
def sliceFrom (text : List Char) (i : Nat) : Checked ε (List Char) :=
  ofOption ((splitAt? text i).map Prod.snd)

/-- The text between two positions. -/
def slice (text : List Char) (i j : Nat) : Checked ε (List Char) :=
  ofOption do
    let (front, _) ← splitAt? text j
    let (_, piece) ← splitAt? front i
    some piece

/-- The byte at a position, if the text goes on there. -/
def peek (text : List Char) (i : Nat) : Option UInt8 := (encode text)[i]?

/-- The text does not go on at a position. -/
def isOver (text : List Char) (i : Nat) : Bool := (encode text).length ≤ i

/-- Goes on over the bytes that satisfy `p`. -/
noncomputable def skipText (p : UInt8 → Bool) (text : List Char) (i : Nat) : Checked ε Nat :=
  skipWhile p (encode text) i

/-! ## Cutting between characters -/

theorem splitAt?_append (front back : List Char) :
    splitAt? (front ++ back) (Bytes.utf8Length front) = some (front, back) := by
  induction front with
  | nil =>
    rw [List.nil_append, Bytes.utf8Length_nil]
    cases back <;> rfl
  | cons c front ih =>
    have hsize : c.utf8Size + Bytes.utf8Length front =
        (c.utf8Size - 1 + Bytes.utf8Length front) + 1 := by
      have := c.utf8Size_pos
      omega
    rw [List.cons_append, Bytes.utf8Length_cons, hsize, splitAt?, ← hsize,
      if_pos (Nat.le_add_right _ _), Nat.add_sub_cancel_left, ih]
    rfl

theorem sliceFrom_append (front back : List Char) :
    (sliceFrom (front ++ back) (Bytes.utf8Length front) : Checked ε (List Char)) =
      done (.ok back) := by
  rw [sliceFrom, splitAt?_append]
  rfl

theorem slice_append (front piece back : List Char) :
    (slice (front ++ piece ++ back) (Bytes.utf8Length front) (Bytes.utf8Length (front ++ piece)) :
      Checked ε (List Char)) = done (.ok piece) := by
  rw [slice, splitAt?_append]
  dsimp only [bind, Option.bind]
  rw [splitAt?_append]
  rfl

/-! ## Boundaries -/

theorem toByteArray_eq (s : String) : s.toByteArray = List.toByteArray (Bytes.ofString s) := by
  rw [← String.utf8Encode_toList]
  rfl

theorem byteIdx_rawEndPos (s : String) : s.rawEndPos.byteIdx = Bytes.utf8Length s.toList := by
  rw [← Bytes.length_ofString, String.byteIdx_rawEndPos, ← String.size_toByteArray, toByteArray_eq,
    List.size_toByteArray]

/-- A character of a text starts at a position, or the text is over there, exactly
where the text can be cut. -/
theorem isValid_iff {text : String} {i : Nat} :
    (⟨i⟩ : String.Pos.Raw).IsValid text ↔
      ∃ front back, text.toList = front ++ back ∧ Bytes.utf8Length front = i := by
  rw [String.Pos.Raw.isValid_iff_exists_append]
  constructor
  · rintro ⟨front, back, rfl, hi⟩
    refine ⟨front.toList, back.toList, String.toList_append, ?_⟩
    rw [← byteIdx_rawEndPos, ← hi]
  · rintro ⟨front, back, htext, rfl⟩
    refine ⟨String.ofList front, String.ofList back, ?_, ?_⟩
    · rw [← String.ofList_append, ← htext, String.ofList_toList]
    · rw [String.Pos.Raw.ext_iff, byteIdx_rawEndPos, String.toList_ofList]

/-! ## Bytes of characters -/

@[simp] theorem encode_cons (c : Char) (text : List Char) :
    encode (c :: text) = String.utf8EncodeChar c ++ encode text := rfl

@[simp] theorem encode_append (front back : List Char) :
    encode (front ++ back) = encode front ++ encode back := List.flatMap_append

theorem length_encode (text : List Char) : (encode text).length = Bytes.utf8Length text := by
  induction text with
  | nil => rfl
  | cons c text ih => simp [ih]

theorem utf8Length_eq_zero_iff {text : List Char} : Bytes.utf8Length text = 0 ↔ text = [] := by
  cases text with
  | nil => exact ⟨fun _ => rfl, fun _ => rfl⟩
  | cons c text =>
    have hsize := c.utf8Size_pos
    rw [Bytes.utf8Length_cons]
    exact ⟨fun h => absurd h (by omega), nofun⟩

theorem isOver_append (front back : List Char) :
    isOver (front ++ back) (Bytes.utf8Length front) = back.isEmpty := by
  rw [isOver, Bool.eq_iff_iff, decide_eq_true_iff, length_encode, Bytes.utf8Length_append,
    List.isEmpty_iff, ← utf8Length_eq_zero_iff]
  omega

theorem peek_append (front back : List Char) :
    peek (front ++ back) (Bytes.utf8Length front) = (encode back).head? := by
  rw [peek, encode_append, ← length_encode, List.getElem?_append_right (Nat.le_refl _),
    Nat.sub_self, List.head?_eq_getElem?]

/-- A character of one byte. -/
def IsAscii (c : Char) : Prop := c.val ≤ 0x7f

instance (c : Char) : Decidable (IsAscii c) := inferInstanceAs (Decidable (c.val ≤ 0x7f))

theorem IsAscii.encode {c : Char} (h : IsAscii c) :
    String.utf8EncodeChar c = [c.val.toUInt8] :=
  String.utf8EncodeChar_eq_singleton (Char.utf8Size_eq_one_iff.mpr h)

theorem encodeChar_eq_cons (c : Char) : ∃ b bytes, String.utf8EncodeChar c = b :: bytes := by
  refine List.exists_cons_of_ne_nil fun hnil => ?_
  have hsize := String.length_utf8EncodeChar c
  rw [hnil, List.length_nil] at hsize
  exact absurd c.utf8Size_pos (by omega)

/-- A longer character has only bytes above those of the shorter ones. -/
theorem high_of_not_isAscii {c : Char} (h : ¬IsAscii c) :
    ∀ b ∈ String.utf8EncodeChar c, 0x80 ≤ b := by
  have hhigh : ∀ n : Nat, 0x80 ≤ n → n < 0x100 → 0x80 ≤ UInt8.ofNat n := by
    intro n hlow hlt
    rw [UInt8.le_iff_toNat_le, UInt8.toNat_ofNat_of_lt' hlt]
    exact hlow
  have hcode : ¬c.val.toNat ≤ 0x7f := h
  unfold String.utf8EncodeChar
  dsimp only
  rw [if_neg hcode]
  split
  · rw [List.forall_mem_cons, List.forall_mem_singleton]
    exact ⟨hhigh _ (by omega) (by omega), hhigh _ (by omega) (by omega)⟩
  split
  · rw [List.forall_mem_cons, List.forall_mem_cons, List.forall_mem_singleton]
    exact ⟨hhigh _ (by omega) (by omega), hhigh _ (by omega) (by omega),
      hhigh _ (by omega) (by omega)⟩
  · rw [List.forall_mem_cons, List.forall_mem_cons, List.forall_mem_cons,
      List.forall_mem_singleton]
    exact ⟨hhigh _ (by omega) (by omega), hhigh _ (by omega) (by omega),
      hhigh _ (by omega) (by omega), hhigh _ (by omega) (by omega)⟩

theorem IsAscii.toNat {c : Char} (h : IsAscii c) : c.val.toUInt8.toNat = c.val.toNat := by
  rw [UInt32.toNat_toUInt8]
  exact Nat.mod_eq_of_lt (Nat.lt_of_le_of_lt h (by decide))

/-- The byte of an ASCII character stands for no other one. -/
theorem mem_encodeChar_iff {c d : Char} (hd : IsAscii d) {b : UInt8}
    (hmem : b ∈ String.utf8EncodeChar c) : b = d.val.toUInt8 ↔ c = d := by
  by_cases hc : IsAscii c
  · rw [hc.encode, List.mem_singleton] at hmem
    rw [hmem]
    refine ⟨fun h => ?_, fun h => h ▸ rfl⟩
    have hcode := congrArg UInt8.toNat h
    rw [hc.toNat, hd.toNat] at hcode
    exact Char.ext (UInt32.toNat_inj.mp hcode)
  · have hhigh := high_of_not_isAscii hc b hmem
    refine ⟨fun h => ?_, fun h => absurd (h ▸ hd) hc⟩
    rw [h, UInt8.le_iff_toNat_le, hd.toNat] at hhigh
    exact absurd hd (Nat.not_le.mpr (Nat.lt_of_lt_of_le (by decide) hhigh))

/-- Where the byte of an ASCII character stands, that character does. -/
theorem head?_encode_eq_iff {d : Char} (hd : IsAscii d) (text : List Char) :
    (encode text).head? = some d.val.toUInt8 ↔ text.head? = some d := by
  cases text with
  | nil => exact ⟨nofun, nofun⟩
  | cons c text =>
    obtain ⟨b, bytes, hbytes⟩ := encodeChar_eq_cons c
    rw [encode_cons, hbytes, List.cons_append, List.head?_cons, List.head?_cons,
      Option.some.injEq, Option.some.injEq]
    exact mem_encodeChar_iff hd (by rw [hbytes]; exact List.mem_cons_self)

/-- A run of bytes is a run of characters, if each byte tells what its character
does. -/
theorem dropWhile_encode {p : UInt8 → Bool} {q : Char → Bool}
    (h : ∀ c, ∀ b ∈ String.utf8EncodeChar c, p b = q c) (text : List Char) :
    (encode text).dropWhile p = encode (text.dropWhile q) := by
  induction text with
  | nil => rfl
  | cons c text ih =>
    rw [encode_cons, List.dropWhile_cons]
    cases hq : q c with
    | true =>
      rw [if_pos rfl, List.dropWhile_append_of_pos fun b hb => (h c b hb).trans hq, ih]
    | false =>
      obtain ⟨b, bytes, hbytes⟩ := encodeChar_eq_cons c
      have hb : p b = false := (h c b (by rw [hbytes]; exact List.mem_cons_self)).trans hq
      rw [if_neg Bool.false_ne_true, encode_cons, hbytes, List.cons_append, List.dropWhile_cons, hb,
        if_neg Bool.false_ne_true]

/-- The bytes behind a part of a text start at its length. -/
theorem position_encode (front back : List Char) :
    position (encode (front ++ back)) (encode back) = Bytes.utf8Length front := by
  rw [position, encode_append, List.length_append, Nat.add_sub_cancel_right, length_encode]

theorem skipText_append {p : UInt8 → Bool} {q : Char → Bool}
    (h : ∀ c, ∀ b ∈ String.utf8EncodeChar c, p b = q c) {front back : List Char}
    (hlength : Bytes.utf8Length (front ++ back) < Decimal.signedLimit) :
    (skipText p (front ++ back) (Bytes.utf8Length front) : Checked ε Nat) =
      done (.ok (Bytes.utf8Length (front ++ back.takeWhile q))) := by
  have hsuffix : encode back <:+ encode (front ++ back) := by
    rw [encode_append]
    exact List.suffix_append ..
  rw [← length_encode] at hlength
  have hskip : (skipWhile p (encode (front ++ back)) (position (encode (front ++ back))
      (encode back)) : Checked ε Nat) = _ := skipWhile_eq p hlength hsuffix
  have hsplit : front ++ back = front ++ back.takeWhile q ++ back.dropWhile q := by
    rw [List.append_assoc, List.takeWhile_append_dropWhile]
  rw [position_encode, dropWhile_encode h] at hskip
  rw [skipText, hskip, hsplit, position_encode]

end RawJson.Checked
