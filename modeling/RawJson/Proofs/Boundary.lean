/-
Documents that are texts. A scan goes by bytes: a backslash in a string hides the one
byte behind it, and a bare scalar is whatever it runs over. It still keeps to the
characters of a text, because all the bytes that it stops at are ASCII, and no byte of a
longer character is. So the place that a scan comes to has such a byte in front of it or
behind it, or is an end of the document, and there a text can be cut.

What a scan leaves of a text is therefore a text again, well formed as a document or not.
-/
import RawJson.Proofs.Checked.Lookup
import RawJson.Proofs.Checked.Text
import RawJson.Proofs.Delimitation

namespace RawJson

namespace Bytes

/-! ## Texts -/

/-- The bytes are valid UTF-8: those of a string. -/
def IsText (bytes : Bytes) : Prop := ∃ text, ofString text = bytes

theorem isText_ofString (text : String) : IsText (ofString text) := ⟨text, rfl⟩

theorem isText_encode (chars : List Char) : IsText (Checked.encode chars) :=
  ⟨String.ofList chars, by rw [ofString, String.toList_ofList]; rfl⟩

theorem isText_nil : IsText [] := ⟨"", rfl⟩

theorem IsText.append {front back : Bytes} (hfront : IsText front) (hback : IsText back) :
    IsText (front ++ back) := by
  obtain ⟨s, rfl⟩ := hfront
  obtain ⟨t, rfl⟩ := hback
  exact ⟨s ++ t, ofString_append s t⟩

/-- A byte that is a character. -/
def IsAscii (b : UInt8) : Prop := b < 0x80

instance (b : UInt8) : Decidable (IsAscii b) := inferInstanceAs (Decidable (b < 0x80))

theorem IsAscii.isFirst {b : UInt8} (h : IsAscii b) : b.IsUTF8FirstByte := by
  have hlow : ∀ n < 0x80, UInt8.ofNat n &&& 0x80 = 0 := by decide
  have hb := hlow b.toNat h
  rw [UInt8.ofNat_toNat] at hb
  exact .inl hb

theorem IsText.isFirst {rest : Bytes} (h : IsText rest) : ∀ b ∈ rest.head?, b.IsUTF8FirstByte := by
  obtain ⟨text, rfl⟩ := h
  intro b hb
  obtain ⟨rest, htext⟩ := List.head?_eq_some_iff.mp hb
  have hvalid := text.isValidUTF8
  rw [Checked.toByteArray_eq, htext] at hvalid
  have hfirst := hvalid.isUTF8FirstByte_getElem_zero
    (by rw [List.size_toByteArray]; exact Nat.succ_pos _)
  rwa [List.getElem_toByteArray, List.getElem_cons_zero] at hfirst

/-- A string can be cut where the first byte of a character stands. -/
theorem isValid_of_isFirst {text : String} {front rest : Bytes}
    (htext : ofString text = front ++ rest) (hfirst : ∀ b ∈ rest.head?, b.IsUTF8FirstByte) :
    (⟨front.length⟩ : String.Pos.Raw).IsValid text := by
  have hend : text.rawEndPos.byteIdx = front.length + rest.length := by
    rw [Checked.byteIdx_rawEndPos, ← length_ofString, htext, List.length_append]
  rw [String.Pos.Raw.isValid_iff_isUTF8FirstByte]
  cases rest with
  | nil => exact .inl (String.Pos.Raw.ext hend.symm)
  | cons b rest =>
    have hlt : (⟨front.length⟩ : String.Pos.Raw) < text.rawEndPos := by
      rw [String.Pos.Raw.lt_iff, hend]
      exact Nat.lt_add_of_pos_right (Nat.succ_pos _)
    have hbyte : text.getUTF8Byte ⟨front.length⟩ hlt = b := by
      simp [String.getUTF8Byte, Checked.toByteArray_eq, htext, List.getElem_toByteArray,
        -List.toByteArray_append]
    exact .inr ⟨hlt, hbyte ▸ hfirst b rfl⟩

/-- Both parts of a string that is cut between characters are texts. -/
theorem isText_of_isValid {text : String} {front rest : Bytes}
    (htext : ofString text = front ++ rest)
    (hvalid : (⟨front.length⟩ : String.Pos.Raw).IsValid text) : IsText front ∧ IsText rest := by
  obtain ⟨chars, others, hchars, hlength⟩ := Checked.isValid_iff.mp hvalid
  have hsplit : Checked.encode chars ++ Checked.encode others = front ++ rest := by
    rw [← Checked.encode_append, ← hchars]
    exact htext
  rw [← Checked.length_encode] at hlength
  obtain ⟨rfl, rfl⟩ := List.append_inj hsplit hlength
  exact ⟨isText_encode chars, isText_encode others⟩

/-- A text can be cut where the first byte of a character stands. -/
theorem IsText.split {front rest : Bytes} (h : IsText (front ++ rest))
    (hfirst : ∀ b ∈ rest.head?, b.IsUTF8FirstByte) : IsText front ∧ IsText rest := by
  obtain ⟨text, htext⟩ := h
  exact isText_of_isValid htext (isValid_of_isFirst htext hfirst)

theorem IsText.split_ascii {front rest : Bytes} {b : UInt8} (h : IsText (front ++ b :: rest))
    (hb : IsAscii b) : IsText front ∧ IsText (b :: rest) :=
  h.split fun _ hc => Option.mem_some_iff.mp hc ▸ hb.isFirst

theorem IsText.tail {b : UInt8} {rest : Bytes} (h : IsText (b :: rest)) (hb : IsAscii b) :
    IsText rest := by
  obtain ⟨text, htext⟩ := h
  cases hchars : text.toList with
  | nil =>
    rw [ofString, hchars] at htext
    cases htext
  | cons c others =>
    obtain ⟨first, more, hc⟩ := Checked.encodeChar_eq_cons c
    have hsplit : String.utf8EncodeChar c ++ Checked.encode others = b :: rest := by
      rw [← Checked.encode_cons, ← hchars]
      exact htext
    by_cases hascii : Checked.IsAscii c
    · rw [hascii.encode, List.singleton_append] at hsplit
      obtain ⟨-, rfl⟩ := List.cons.inj hsplit
      exact isText_encode others
    · have hhigh := Checked.high_of_not_isAscii hascii first (by rw [hc]; exact List.mem_cons_self)
      rw [hc, List.cons_append] at hsplit
      obtain ⟨rfl, -⟩ := List.cons.inj hsplit
      exact absurd hb (UInt8.not_lt.mpr hhigh)

theorem IsText.behind {front rest : Bytes} (h : IsText (front ++ rest))
    (hlast : ∀ b ∈ front.getLast?, IsAscii b) : IsText rest := by
  rcases front.eq_nil_or_concat with rfl | ⟨init, b, rfl⟩
  · exact h
  · rw [List.concat_eq_append] at h hlast
    have hb : IsAscii b := hlast b List.getLast?_concat
    rw [List.append_assoc, List.singleton_append] at h
    exact (h.split_ascii hb).2.tail hb

end Bytes

/-! ## Scans -/

open Bytes

theorem Byte.isAscii_of_endsScalar {b : UInt8} (h : Byte.endsScalar b = true) : IsAscii b := by
  simp only [Byte.endsScalar, Byte.isSeparator, Bool.or_eq_true, beq_iff_eq] at h
  grind [IsAscii]

theorem Byte.isAscii_of_isSeparator {b : UInt8} (h : Byte.isSeparator b = true) : IsAscii b :=
  Byte.isAscii_of_endsScalar (by rw [Byte.endsScalar, h]; rfl)

theorem Bracket.isAscii_closing (bracket : Bracket) : IsAscii bracket.closing := by
  cases bracket <;> decide

theorem Bytes.IsText.afterGap {doc rest : Bytes} {b : UInt8} (h : IsText doc)
    (hgap : afterGap doc = .ok (b, rest)) : IsText (b :: rest) := by
  obtain ⟨gap, hseparators, -, rfl⟩ := afterGap_eq_ok_iff.mp hgap
  exact h.behind fun c hc => Byte.isAscii_of_isSeparator (hseparators c (List.mem_of_getLast? hc))

theorem Bytes.IsText.splitString {doc body beyond : Bytes} (h : IsText doc)
    (hsplit : splitString doc = some (body, beyond)) :
    IsText body ∧ IsText (Byte.quote :: beyond) ∧ IsText beyond := by
  have hquote : IsAscii Byte.quote := by decide
  obtain ⟨-, rfl⟩ := splitString_eq_some_iff.mp hsplit
  obtain ⟨hbody, hrest⟩ := h.split_ascii hquote
  exact ⟨hbody, hrest, hrest.tail hquote⟩

/-- A value that is no bare scalar ends with a quote or a bracket. -/
theorem IsToken.isAscii_getLast {b : UInt8} {text : Bytes} (h : IsToken b text)
    (hb : Byte.startsScalar b = false) : ∀ c ∈ (b :: text).getLast?, IsAscii c := by
  intro c hc
  cases h with
  | string =>
    rw [← List.cons_append, List.getLast?_concat] at hc
    exact Option.mem_some_iff.mp hc ▸ by decide
  | container bracket hcloses =>
    rw [List.getLast?_cons, hcloses.getLast?] at hc
    exact Option.mem_some_iff.mp hc ▸ bracket.isAscii_closing
  | scalar hstarts => cases hb.symm.trans hstarts

theorem Bytes.IsText.afterToken {b : UInt8} {rest stop : Bytes} (h : IsText (b :: rest))
    (htoken : afterToken b rest = .ok stop) : IsText stop := by
  obtain ⟨text, htext, rfl, hdelimited⟩ := afterToken_eq_ok_iff.mp htoken
  rw [← List.cons_append] at h
  cases hb : Byte.startsScalar b with
  | true =>
    exact (h.split fun c hc => (Byte.isAscii_of_endsScalar (hdelimited hb c hc)).isFirst).2
  | false => exact h.behind (htext.isAscii_getLast hb)

theorem Bytes.IsText.afterValue {doc stop : Bytes} (h : IsText doc)
    (hvalue : afterValue doc = .ok stop) : IsText stop := by
  unfold RawJson.afterValue at hvalue
  split at hvalue
  · cases hvalue
  · next hgap => exact (h.afterGap hgap).afterToken hvalue

theorem Bytes.IsText.afterColon {doc value : Bytes} (h : IsText doc)
    (hcolon : Checked.afterColon doc = .ok value) : IsText value := by
  unfold Checked.afterColon at hcolon
  split at hcolon
  · cases hcolon
  next b rest hgap =>
  split at hcolon
  · next hb =>
    have hrest : IsText rest := (h.afterGap hgap).tail (by rw [hb]; decide)
    split at hcolon
    · cases hcolon
    · next hvalue =>
      cases hcolon
      exact hrest.afterGap hvalue
  · cases hcolon

namespace Member

theorem isText_next {doc : Bytes} {member : Member} (h : IsText doc)
    (hnext : next doc = .ok (some member)) : IsText member.value := by
  rw [Checked.member_next] at hnext
  split at hnext
  · cases hnext
  next b rest hgap =>
  split at hnext
  · cases hnext
  split at hnext
  · next hb =>
    have hrest : IsText rest := (h.afterGap hgap).tail (by rw [hb]; decide)
    split at hnext
    · cases hnext
    next key beyond hsplit =>
    obtain ⟨value, hcolon, hvalue⟩ := map_eq_ok_iff.mp hnext
    cases hvalue
    exact (hrest.splitString hsplit).2.2.afterColon hcolon
  · cases hnext

/-- A lookup in an object that is a text comes to a text. -/
theorem isText_find {key doc value : Bytes} (h : IsText doc)
    (hfind : find key doc = .ok (some value)) : IsText value := by
  rw [find_eq] at hfind
  split at hfind
  · cases hfind
  · cases hfind
  next member hnext =>
  have hvalue := isText_next h hnext
  split at hfind
  · cases hfind
    exact hvalue
  split at hfind
  · cases hfind
  next rest hrest =>
  have hlt : rest.length < doc.length := Nat.lt_trans (afterValue_length hrest) (next_length hnext)
  exact isText_find (hvalue.afterValue hrest) hfind
termination_by doc.length
decreasing_by assumption

end Member

namespace Element

theorem isText_next {doc : Bytes} {element : Element} (h : IsText doc)
    (hnext : next doc = .ok (some element)) : IsText element.start ∧ IsText element.stop := by
  unfold next at hnext
  split at hnext
  · cases hnext
  next b rest hgap =>
  have hstart := h.afterGap hgap
  split at hnext
  · cases hnext
  split at hnext
  · cases hnext
  next stop htoken =>
  cases hnext
  exact ⟨hstart, hstart.afterToken htoken⟩

/-- **An array that is a text has texts for elements**, each with a text behind it. -/
theorem Lists.isText {doc : Bytes} {items : List Element} (hlists : Lists doc items)
    (h : IsText doc) : ∀ element ∈ items, IsText element.start ∧ IsText element.stop := by
  induction hlists with
  | nil => exact fun _ hmem => nomatch hmem
  | cons hnext _ ih =>
    have hfirst := isText_next h hnext
    rw [List.forall_mem_cons]
    exact ⟨hfirst, ih hfirst.2⟩

end Element

end RawJson
