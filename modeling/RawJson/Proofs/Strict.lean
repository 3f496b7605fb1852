/-
JSON as its standard has it, next to what the scans take for JSON. The grammar
of values (`IsJson`) is written over bytes and knows of no tree: whitespace
where it may stand, one comma between neighbours and none elsewhere, strings
in UTF-8 with the escapes that there are, numbers digit by digit.

Its texts are exactly those of the trees that keep to these rules
(`isJson_iff`, `Node.Strict`), and in such a tree every bare scalar is delimited
(`Node.Strict.spaced`), so that all that holds of documents with the text of a
tree holds of JSON documents (`IsDocument.exists_layout`).
-/
import RawJson.Proofs.Checked.Text
import RawJson.Proofs.Elements
import RawJson.Proofs.Walk

namespace RawJson

/-! ## The grammar -/

/-- Whitespace, any amount of it. -/
def IsBlank (text : Bytes) : Prop := ∀ b ∈ text, b ∈ Bytes.ofString " \t\n\r"

/-- One digit or more. -/
def IsDigits (text : Bytes) : Prop := text ≠ [] ∧ ∀ b ∈ text, b ∈ Bytes.ofString "0123456789"

/-- The whole part of a number, without superfluous zeros. -/
def IsWhole (text : Bytes) : Prop :=
  text = Bytes.ofString "0" ∨ IsDigits text ∧ text.head? ≠ (Bytes.ofString "0").head?

/-- A fraction, or none. -/
def IsFraction (text : Bytes) : Prop :=
  text = [] ∨ ∃ digits, IsDigits digits ∧ text = Bytes.ofString "." ++ digits

/-- An exponent, or none. -/
def IsExponent (text : Bytes) : Prop :=
  text = [] ∨ ∃ mark ∈ Bytes.ofString "eE", ∃ sign digits,
    sign.length ≤ 1 ∧ (∀ b ∈ sign, b ∈ Bytes.ofString "+-") ∧ IsDigits digits ∧
      text = mark :: (sign ++ digits)

/-- The text of a number. -/
inductive IsNumber : Bytes → Prop
  | parts {sign whole fraction exponent : Bytes} (hsign : sign ∈ [[], Bytes.ofString "-"])
    (hwhole : IsWhole whole) (hfraction : IsFraction fraction) (hexponent : IsExponent exponent) :
    IsNumber (sign ++ (whole ++ (fraction ++ exponent)))

/-- The text of a string between its quotes: characters, but no control
characters, and escapes. -/
inductive IsCharacters : Bytes → Prop
  | nil : IsCharacters []
  | plain {c : Char} {text : Bytes} (hspace : ' ' ≤ c) (hquote : c ≠ '"') (hslash : c ≠ '\\') :
    IsCharacters text → IsCharacters (String.utf8EncodeChar c ++ text)
  | escape {b : UInt8} {text : Bytes} (hb : b ∈ Bytes.ofString "\"\\/bfnrt") :
    IsCharacters text → IsCharacters (Byte.backslash :: b :: text)
  | numbered {digits text : Bytes} (hlength : digits.length = 4)
    (hdigits : ∀ b ∈ digits, b ∈ Bytes.ofString "0123456789abcdefABCDEF") :
    IsCharacters text →
      IsCharacters (Bytes.ofString "\\u" ++ (digits ++ text))

/-- What stands in front of the value of a member. -/
inductive IsLabel : Bytes → Prop
  | parts {before key after last : Bytes} : IsBlank before → IsCharacters key → IsBlank after →
    IsBlank last →
      IsLabel (before ++ Byte.quote :: (key ++ Byte.quote :: (after ++ Byte.colon :: last)))

mutual

/-- The text of a JSON value. -/
inductive IsJson : Bytes → Prop
  | literal {text : Bytes}
    (h : text ∈ [Bytes.ofString "true", Bytes.ofString "false", Bytes.ofString "null"]) :
    IsJson text
  | number {text : Bytes} : IsNumber text → IsJson text
  | string {text : Bytes} : IsCharacters text → IsJson (Byte.quote :: (text ++ [Byte.quote]))
  | emptyObject {blank : Bytes} : IsBlank blank →
    IsJson (Byte.openBrace :: (blank ++ [Byte.closeBrace]))
  | object {text : Bytes} : IsMembers text →
    IsJson (Byte.openBrace :: (text ++ [Byte.closeBrace]))
  | emptyArray {blank : Bytes} : IsBlank blank →
    IsJson (Byte.openSquare :: (blank ++ [Byte.closeSquare]))
  | array {text : Bytes} : IsElements text →
    IsJson (Byte.openSquare :: (text ++ [Byte.closeSquare]))

/-- Members with a comma between neighbours. -/
inductive IsMembers : Bytes → Prop
  | last {label value after : Bytes} : IsLabel label → IsJson value → IsBlank after →
    IsMembers (label ++ (value ++ after))
  | more {label value after others : Bytes} : IsLabel label → IsJson value → IsBlank after →
    IsMembers others → IsMembers (label ++ (value ++ (after ++ Byte.comma :: others)))

/-- Elements with a comma between neighbours. -/
inductive IsElements : Bytes → Prop
  | last {before value after : Bytes} : IsBlank before → IsJson value → IsBlank after →
    IsElements (before ++ (value ++ after))
  | more {before value after others : Bytes} : IsBlank before → IsJson value → IsBlank after →
    IsElements others → IsElements (before ++ (value ++ (after ++ Byte.comma :: others)))

end

/-- A JSON document: a value in whitespace. -/
inductive IsDocument : Bytes → Prop
  | parts {before value after : Bytes} : IsBlank before → IsJson value → IsBlank after →
    IsDocument (before ++ (value ++ after))

/-! ## Leaves -/

theorem isBlank_nil : IsBlank [] := nofun

theorem IsBlank.separators {text : Bytes} (h : IsBlank text) :
    ∀ b ∈ text, Byte.isSeparator b = true := by
  have hall : ∀ b ∈ Bytes.ofString " \t\n\r", Byte.isSeparator b = true :=
    List.all_iff_forall_prop.mp (by decide)
  exact fun b hb => hall b (h b hb)

/-- The characters of a string leave its quotes alone. -/
theorem IsCharacters.isBody {text : Bytes} (h : IsCharacters text) : IsBody text := by
  have plain {bytes text : Bytes} (hbytes : ∀ b ∈ bytes, b ≠ Byte.quote ∧ b ≠ Byte.backslash)
      (htext : IsBody text) : IsBody (bytes ++ text) := by
    induction bytes with
    | nil => exact htext
    | cons b bytes ih =>
      obtain ⟨hb, hbytes⟩ := List.forall_mem_cons.mp hbytes
      exact .plain hb.1 hb.2 (ih hbytes)
  induction h with
  | nil => exact .nil
  | @plain c text hspace hquote hslash _ ih =>
    refine plain (fun b hb => ⟨fun h => hquote ?_, fun h => hslash ?_⟩) ih
    · exact (Checked.mem_encodeChar_iff (d := '"') (by decide) hb).mp h
    · exact (Checked.mem_encodeChar_iff (d := '\\') (by decide) hb).mp h
  | escape _ _ ih => exact .escaped ih
  | @numbered digits text _ hdigits _ ih =>
    have hhex : ∀ b ∈ Bytes.ofString "0123456789abcdefABCDEF",
        b ≠ Byte.quote ∧ b ≠ Byte.backslash := List.all_iff_forall_prop.mp (by decide)
    change IsBody (Byte.backslash :: 0x75 :: (digits ++ text))
    exact .escaped (plain (fun b hb => hhex b (hdigits b hb)) ih)

theorem IsWhole.isDigits {text : Bytes} (h : IsWhole text) : IsDigits text := by
  rcases h with rfl | ⟨hdigits, -⟩
  · exact ⟨by decide, List.all_iff_forall_prop.mp (by decide)⟩
  · exact hdigits

theorem IsDigits.inner {text : Bytes} (h : IsDigits text) : ∀ b ∈ text, b ∈ Numeral.inner := by
  have hall : ∀ b ∈ Bytes.ofString "0123456789", b ∈ Numeral.inner :=
    List.all_iff_forall_prop.mp (by decide)
  exact fun b hb => hall b (h.2 b hb)

theorem IsFraction.inner {text : Bytes} (h : IsFraction text) : ∀ b ∈ text, b ∈ Numeral.inner := by
  rcases h with rfl | ⟨digits, hdigits, rfl⟩
  · exact nofun
  · exact List.forall_mem_append.mpr ⟨List.all_iff_forall_prop.mp (by decide), hdigits.inner⟩

theorem IsExponent.inner {text : Bytes} (h : IsExponent text) : ∀ b ∈ text, b ∈ Numeral.inner := by
  have hmarks : ∀ b ∈ Bytes.ofString "eE", b ∈ Numeral.inner :=
    List.all_iff_forall_prop.mp (by decide)
  have hsigns : ∀ b ∈ Bytes.ofString "+-", b ∈ Numeral.inner :=
    List.all_iff_forall_prop.mp (by decide)
  rcases h with rfl | ⟨mark, hmark, sign, digits, -, hsign, hdigits, rfl⟩
  · exact nofun
  · exact List.forall_mem_cons.mpr ⟨hmarks mark hmark,
      List.forall_mem_append.mpr ⟨fun b hb => hsigns b (hsign b hb), hdigits.inner⟩⟩

/-- A number is written in the alphabet of numbers. -/
theorem IsNumber.exists_numeral {text : Bytes} (h : IsNumber text) :
    ∃ numeral : Numeral, numeral.first :: numeral.others = text := by
  obtain ⟨hsign, hwhole, hfraction, hexponent⟩ := h
  have hlead : ∀ b ∈ Bytes.ofString "0123456789", b ∈ Numeral.leading :=
    List.all_iff_forall_prop.mp (by decide)
  obtain ⟨hne, hdigits⟩ := hwhole.isDigits
  have hbehind : ∀ {whole}, (∀ b ∈ whole, b ∈ Numeral.inner) →
      ∀ b ∈ whole ++ (_ ++ _), b ∈ Numeral.inner := fun hwhole =>
    List.forall_mem_append.mpr
      ⟨hwhole, List.forall_mem_append.mpr ⟨hfraction.inner, hexponent.inner⟩⟩
  obtain ⟨b, whole, rfl⟩ := List.exists_cons_of_ne_nil hne
  have hinner := hwhole.isDigits.inner
  simp only [List.mem_cons, List.not_mem_nil, or_false] at hsign
  rcases hsign with rfl | rfl
  · exact ⟨⟨b, _, hlead b (hdigits b List.mem_cons_self),
      hbehind (List.forall_mem_cons.mp hinner).2⟩, rfl⟩
  · exact ⟨⟨0x2D, _, by decide, hbehind hinner⟩, rfl⟩

/-! ## Trees -/

/-- A gap of whitespace. -/
def Gap.Blank (gap : Gap) : Prop := IsBlank gap.bytes

/-- A gap with one comma. -/
def Gap.Parts (gap : Gap) : Prop :=
  ∃ before after, IsBlank before ∧ IsBlank after ∧ gap.bytes = before ++ Byte.comma :: after

/-- A label of JSON, if its first gap is as `first` says. -/
structure Label.Strict (first : Gap → Prop) (label : Label) : Prop where
  before : first label.before
  key : IsCharacters label.key.bytes
  beforeColon : label.beforeColon.Blank
  afterColon : label.afterColon.Blank

/-- A number keeps to the grammar of numbers; a keyword always does. -/
def Scalar.Strict : Scalar → Prop
  | .boolean _ | .null => True
  | .number numeral => IsNumber (numeral.first :: numeral.others)

namespace Node

mutual

/-- The tree keeps to the grammar. -/
def Strict : Node → Prop
  | .scalar value => value.Strict
  | .string body => IsCharacters body.bytes
  | .object members closing => MembersStrict Gap.Blank members ∧ closing.Blank
  | .array elements closing => ElementsStrict Gap.Blank elements ∧ closing.Blank

/-- The same of members, the first gap being as `first` says and the others
having a comma. -/
def MembersStrict (first : Gap → Prop) : List (Label × Node) → Prop
  | [] => True
  | (label, value) :: others =>
    label.Strict first ∧ value.Strict ∧ MembersStrict Gap.Parts others

/-- The same of elements. -/
def ElementsStrict (first : Gap → Prop) : List (Gap × Node) → Prop
  | [] => True
  | (gap, value) :: others => first gap ∧ value.Strict ∧ ElementsStrict Gap.Parts others

end

/-! ### Bare scalars are delimited -/

/-- Separators in front of a delimiter delimit. -/
theorem delimited_separators {text : Bytes} (h : ∀ b ∈ text, Byte.isSeparator b = true) {b : UInt8}
    (hb : Byte.endsScalar b = true) (rest : Bytes) : Delimited (text ++ b :: rest) := by
  cases text with
  | nil => exact delimited_cons.mpr hb
  | cons c text =>
    refine delimited_cons.mpr ?_
    rw [Byte.endsScalar, h c List.mem_cons_self]
    rfl

theorem delimited_parts {gap : Gap} (h : gap.Parts) (rest : Bytes) :
    Delimited (gap.bytes ++ rest) := by
  obtain ⟨before, after, hbefore, -, hgap⟩ := h
  rw [hgap, List.append_assoc]
  exact delimited_separators hbefore.separators rfl _

theorem delimited_membersText {members : List (Label × Node)} (h : MembersStrict Gap.Parts members)
    (closing : Gap) :
    Delimited (membersText members ++ (closing.bytes ++ [Byte.closeBrace])) := by
  cases members with
  | nil =>
    rw [membersText, List.nil_append]
    exact delimited_separators closing.separators rfl []
  | cons member others =>
    rw [membersText, Label.text]
    simp only [List.append_assoc]
    exact delimited_parts h.1.before _

theorem delimited_elementsText {elements : List (Gap × Node)}
    (h : ElementsStrict Gap.Parts elements) (closing : Gap) :
    Delimited (elementsText elements ++ (closing.bytes ++ [Byte.closeSquare])) := by
  cases elements with
  | nil =>
    rw [elementsText, List.nil_append]
    exact delimited_separators closing.separators rfl []
  | cons element others =>
    rw [elementsText]
    simp only [List.append_assoc]
    exact delimited_parts h.1 _

mutual

theorem Strict.spaced : ∀ {node : Node}, node.Strict → node.Spaced
  | .scalar _, _ | .string _, _ => trivial
  | .object _ closing, h => membersSpaced closing h.1
  | .array _ closing, h => elementsSpaced closing h.1

theorem membersSpaced (closing : Gap) {first : Gap → Prop} : ∀ {members : List (Label × Node)},
    MembersStrict first members → MembersSpaced (closing.bytes ++ [Byte.closeBrace]) members
  | [], _ => trivial
  | (_, _) :: _, ⟨_, hvalue, hothers⟩ =>
    ⟨hvalue.spaced, fun _ => delimited_membersText hothers closing, membersSpaced closing hothers⟩

theorem elementsSpaced (closing : Gap) {first : Gap → Prop} : ∀ {elements : List (Gap × Node)},
    ElementsStrict first elements → ElementsSpaced (closing.bytes ++ [Byte.closeSquare]) elements
  | [], _ => trivial
  | (_, _) :: _, ⟨_, hvalue, hothers⟩ =>
    ⟨hvalue.spaced, fun _ => delimited_elementsText hothers closing, elementsSpaced closing hothers⟩

end

/-! ### The text of a strict tree is JSON -/

theorem Label.Strict.isLabel {label : Label} (h : label.Strict Gap.Blank) : IsLabel label.text :=
  .parts h.before h.key h.beforeColon h.afterColon

theorem Scalar.Strict.isJson : ∀ {value : Scalar}, value.Strict → IsJson value.text
  | .boolean true, _ => .literal (.head _)
  | .boolean false, _ => .literal (.tail _ (.head _))
  | .null, _ => .literal (.tail _ (.tail _ (.head _)))
  | .number _, h => .number h

mutual

theorem Strict.isJson : ∀ {node : Node}, node.Strict → IsJson node.text
  | .scalar _, h => Scalar.Strict.isJson h
  | .string _, h => .string h
  | .object [] closing, h => .emptyObject h.2
  | .object ((label, value) :: others) closing, h => by
    obtain ⟨⟨hlabel, hvalue, hothers⟩, hclosing⟩ := h
    have hmembers := isMembers hclosing hothers (Label.Strict.isLabel hlabel) hvalue.isJson
    rw [text, membersText]
    simpa only [List.append_assoc] using IsJson.object hmembers
  | .array [] closing, h => .emptyArray h.2
  | .array ((gap, value) :: others) closing, h => by
    obtain ⟨⟨hgap, hvalue, hothers⟩, hclosing⟩ := h
    have helements := isElements hclosing hothers hgap hvalue.isJson
    rw [text, elementsText]
    simpa only [List.append_assoc] using IsJson.array helements

theorem isMembers {closing : Bytes} (hclosing : IsBlank closing) :
    ∀ {others : List (Label × Node)} {label value : Bytes}, MembersStrict Gap.Parts others →
      IsLabel label → IsJson value → IsMembers (label ++ (value ++ (membersText others ++ closing)))
  | [], _, _, _, hlabel, hvalue => .last hlabel hvalue hclosing
  | (next, value) :: others, _, _, h, hlabel, htext => by
    obtain ⟨⟨⟨ahead, behind, hahead, hbehind, hgap⟩, hkey, hcolon, hlast⟩, hvalue, hothers⟩ := h
    have hmore := isMembers hclosing hothers (.parts hbehind hkey hcolon hlast) hvalue.isJson
    have hwhole := IsMembers.more hlabel htext hahead hmore
    rw [membersText, Label.text, hgap]
    simpa only [List.append_assoc, List.cons_append] using hwhole

theorem isElements {closing : Bytes} (hclosing : IsBlank closing) :
    ∀ {others : List (Gap × Node)} {before value : Bytes}, ElementsStrict Gap.Parts others →
      IsBlank before → IsJson value →
      IsElements (before ++ (value ++ (elementsText others ++ closing)))
  | [], _, _, _, hbefore, hvalue => .last hbefore hvalue hclosing
  | (gap, value) :: others, _, _, h, hbefore, htext => by
    obtain ⟨⟨ahead, behind, hahead, hbehind, hgap⟩, hvalue, hothers⟩ := h
    have hmore := isElements hclosing hothers hbehind hvalue.isJson
    have hwhole := IsElements.more hbefore htext hahead hmore
    rw [elementsText, hgap]
    simpa only [List.append_assoc, List.cons_append] using hwhole

end

end Node

/-! ### JSON is the text of a strict tree -/

/-- With any whitespace behind it, `front` makes such a gap. -/
def Fronts (front : Bytes) (first : Gap → Prop) : Prop :=
  ∀ blank, IsBlank blank → ∃ gap : Gap, gap.bytes = front ++ blank ∧ first gap

theorem fronts_nil : Fronts [] Gap.Blank := fun blank h => ⟨⟨blank, h.separators⟩, rfl, h⟩

/-- What stands between two neighbours. -/
theorem fronts_comma {after : Bytes} (hafter : IsBlank after) :
    Fronts (after ++ [Byte.comma]) Gap.Parts := by
  intro blank hblank
  have hseparators : ∀ b ∈ after ++ Byte.comma :: blank, Byte.isSeparator b = true :=
    List.forall_mem_append.mpr
      ⟨hafter.separators, List.forall_mem_cons.mpr ⟨rfl, hblank.separators⟩⟩
  refine ⟨⟨_, hseparators⟩, ?_, after, blank, hafter, hblank, rfl⟩
  rw [List.append_assoc, List.singleton_append]

theorem IsLabel.exists_label {text : Bytes} (h : IsLabel text) {front : Bytes} {first : Gap → Prop}
    (hfront : Fronts front first) :
    ∃ label : Label, label.Strict first ∧ label.text = front ++ text := by
  obtain ⟨hbefore, hkey, hafter, hlast⟩ := h
  obtain ⟨gap, hgap, hfirst⟩ := hfront _ hbefore
  refine ⟨⟨gap, ⟨_, hkey.isBody⟩, ⟨_, hafter.separators⟩, ⟨_, hlast.separators⟩⟩,
    ⟨hfirst, hkey, hafter, hlast⟩, ?_⟩
  rw [Label.text, hgap, List.append_assoc]

mutual

theorem IsJson.exists_node : ∀ {text : Bytes}, IsJson text →
    ∃ node : Node, node.Strict ∧ node.text = text
  | _, .literal h => by
    simp only [List.mem_cons, List.not_mem_nil, or_false] at h
    rcases h with rfl | rfl | rfl
    · exact ⟨.scalar (.boolean true), trivial, rfl⟩
    · exact ⟨.scalar (.boolean false), trivial, rfl⟩
    · exact ⟨.scalar .null, trivial, rfl⟩
  | _, .number h => by
    obtain ⟨numeral, rfl⟩ := h.exists_numeral
    exact ⟨.scalar (.number numeral), h, rfl⟩
  | _, .string h => ⟨.string ⟨_, h.isBody⟩, h, rfl⟩
  | _, .emptyObject h => ⟨.object [] ⟨_, h.separators⟩, ⟨trivial, h⟩, rfl⟩
  | _, .object h => by
    obtain ⟨members, closing, hmembers, hclosing, htext⟩ := h.exists_members fronts_nil
    refine ⟨.object members closing, ⟨hmembers, hclosing⟩, ?_⟩
    rw [Node.text, htext, List.nil_append]
  | _, .emptyArray h => ⟨.array [] ⟨_, h.separators⟩, ⟨trivial, h⟩, rfl⟩
  | _, .array h => by
    obtain ⟨elements, closing, helements, hclosing, htext⟩ := h.exists_elements fronts_nil
    refine ⟨.array elements closing, ⟨helements, hclosing⟩, ?_⟩
    rw [Node.text, htext, List.nil_append]

theorem IsMembers.exists_members : ∀ {text : Bytes}, IsMembers text →
    ∀ {front : Bytes} {first : Gap → Prop}, Fronts front first →
      ∃ (members : List (Label × Node)) (closing : Gap), Node.MembersStrict first members ∧
        closing.Blank ∧ Node.membersText members ++ closing.bytes = front ++ text
  | _, .last hlabel hvalue hafter, _, _, hfront => by
    obtain ⟨label, hstrict, htext⟩ := hlabel.exists_label hfront
    obtain ⟨node, hnode, rfl⟩ := hvalue.exists_node
    refine ⟨[(label, node)], ⟨_, hafter.separators⟩, ⟨hstrict, hnode, trivial⟩, hafter, ?_⟩
    simp only [Node.membersText, htext, List.append_assoc, List.nil_append]
  | _, .more hlabel hvalue hafter hothers, _, _, hfront => by
    obtain ⟨label, hstrict, htext⟩ := hlabel.exists_label hfront
    obtain ⟨node, hnode, rfl⟩ := hvalue.exists_node
    obtain ⟨others, closing, hmembers, hclosing, hrest⟩ :=
      hothers.exists_members (fronts_comma hafter)
    refine ⟨(label, node) :: others, closing, ⟨hstrict, hnode, hmembers⟩, hclosing, ?_⟩
    simp only [Node.membersText, htext, List.append_assoc, hrest, List.singleton_append]

theorem IsElements.exists_elements : ∀ {text : Bytes}, IsElements text →
    ∀ {front : Bytes} {first : Gap → Prop}, Fronts front first →
      ∃ (elements : List (Gap × Node)) (closing : Gap), Node.ElementsStrict first elements ∧
        closing.Blank ∧ Node.elementsText elements ++ closing.bytes = front ++ text
  | _, .last hbefore hvalue hafter, _, _, hfront => by
    obtain ⟨gap, hgap, hfirst⟩ := hfront _ hbefore
    obtain ⟨node, hnode, rfl⟩ := hvalue.exists_node
    refine ⟨[(gap, node)], ⟨_, hafter.separators⟩, ⟨hfirst, hnode, trivial⟩, hafter, ?_⟩
    simp only [Node.elementsText, hgap, List.append_assoc, List.nil_append]
  | _, .more hbefore hvalue hafter hothers, _, _, hfront => by
    obtain ⟨gap, hgap, hfirst⟩ := hfront _ hbefore
    obtain ⟨node, hnode, rfl⟩ := hvalue.exists_node
    obtain ⟨others, closing, helements, hclosing, hrest⟩ :=
      hothers.exists_elements (fronts_comma hafter)
    refine ⟨(gap, node) :: others, closing, ⟨hfirst, hnode, helements⟩, hclosing, ?_⟩
    simp only [Node.elementsText, hgap, List.append_assoc, hrest, List.singleton_append]

end

/-- **JSON values are the texts of strict trees.** -/
theorem isJson_iff {text : Bytes} : IsJson text ↔ ∃ node : Node, node.Strict ∧ node.text = text :=
  ⟨IsJson.exists_node, fun ⟨_, hstrict, htext⟩ => htext ▸ hstrict.isJson⟩

/-- A JSON document has the text of a strict tree at its start. -/
theorem IsDocument.exists_layout {doc : Bytes} (h : IsDocument doc) :
    ∃ layout : Layout, layout.bytes = doc ∧ layout.root.Strict := by
  obtain ⟨hbefore, hvalue, -⟩ := h
  obtain ⟨node, hstrict, rfl⟩ := isJson_iff.mp hvalue
  exact ⟨⟨⟨_, hbefore.separators⟩, node, hstrict.spaced, _⟩, rfl, hstrict⟩

/-- A JSON value is one value to the scans. -/
theorem IsJson.isValue {text : Bytes} (h : IsJson text) : IsValue text := by
  obtain ⟨node, -, rfl⟩ := isJson_iff.mp h
  obtain ⟨b, rest, htext, htoken, -, -⟩ := node.isToken
  exact ⟨b, rest, htext, htoken⟩

end RawJson
