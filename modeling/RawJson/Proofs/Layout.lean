/-
Documents as trees that know their layout: an object is a list of members in
order, an array a list of elements, and every gap of the text, before a key,
around a colon, before an element or a closing bracket, is kept as the run of
separators it is. `Node.text` writes a tree out.

A scan that stands at the text of a node passes exactly that text
(`Node.isToken`), and one that meets it inside a container goes over it with
its count of brackets unchanged (`Node.passes`). Both need only that the
brackets of a tree are balanced and its strings closed, which its form grants;
what the form does not grant is that a bare scalar ends where the node ends,
so `Node.Spaced` asks for a delimiter behind each.
-/
import Mathlib.Data.Bool.AllAny
import RawJson.Element
import RawJson.Kind
import RawJson.Member
import RawJson.Proofs.Extent

namespace RawJson

/-- A run of whitespace and commas. -/
structure Gap where
  bytes : Bytes
  separators : ∀ b ∈ bytes, Byte.isSeparator b = true

/-- A gap of no bytes. -/
def Gap.none : Gap := ⟨[], by simp⟩

/-- The text of a string between its quotes. -/
structure Body where
  bytes : Bytes
  isBody : IsBody bytes

/-- The bytes a number can start with. -/
def Numeral.leading : Bytes := Bytes.ofString "-0123456789"

/-- The bytes a number can go on with. -/
def Numeral.inner : Bytes := Bytes.ofString "+-.0123456789Ee"

/-- The text of a number. All that is asked of it is its alphabet, so that
every number of JSON is one. -/
structure Numeral where
  first : UInt8
  others : Bytes
  first_mem : first ∈ Numeral.leading
  others_mem : ∀ b ∈ others, b ∈ Numeral.inner

/-- The values without quotes or brackets. -/
inductive Scalar where
  | boolean (value : Bool)
  | null
  | number (numeral : Numeral)

namespace Scalar

/-- The bytes of a scalar: a keyword as it is, a number as its numeral spells it. -/
def text : Scalar → Bytes
  | .boolean true => Bytes.ofString "true"
  | .boolean false => Bytes.ofString "false"
  | .null => Bytes.ofString "null"
  | .number numeral => numeral.first :: numeral.others

/-- The kind of value that a scalar is. -/
def kind : Scalar → Kind
  | .boolean _ => .boolean
  | .null => .null
  | .number _ => .number

end Scalar

/-- What stands in front of the value of a member. -/
structure Label where
  before : Gap
  key : Body
  beforeColon : Gap
  afterColon : Gap

/-- The bytes of a label, from the gap in front of the key to the one behind the colon. -/
def Label.text (label : Label) : Bytes :=
  label.before.bytes ++ Byte.quote :: (label.key.bytes ++ Byte.quote ::
    (label.beforeColon.bytes ++ Byte.colon :: label.afterColon.bytes))

/-- A value of a document, with the layout of its text. -/
inductive Node where
  | scalar (value : Scalar)
  | string (body : Body)
  /-- `closing` is the gap in front of the closing brace. -/
  | object (members : List (Label × Node)) (closing : Gap)
  /-- Each element has the gap in front of it. -/
  | array (elements : List (Gap × Node)) (closing : Gap)

namespace Node

/-- The node is a bare scalar, the one kind of value with no end of its own. -/
def isScalar : Node → Bool
  | .scalar _ => true
  | _ => false

/-- The kind of value that a node is. -/
def kind : Node → Kind
  | .scalar value => value.kind
  | .string _ => .string
  | .object _ _ => .object
  | .array _ _ => .array

mutual

/-- The bytes of a node. -/
def text : Node → Bytes
  | .scalar value => value.text
  | .string body => Byte.quote :: (body.bytes ++ [Byte.quote])
  | .object members closing =>
    Byte.openBrace :: (membersText members ++ closing.bytes ++ [Byte.closeBrace])
  | .array elements closing =>
    Byte.openSquare :: (elementsText elements ++ closing.bytes ++ [Byte.closeSquare])

/-- Members in order, each behind its label. -/
def membersText : List (Label × Node) → Bytes
  | [] => []
  | (label, value) :: others => label.text ++ value.text ++ membersText others

/-- Elements in order, each behind its gap. -/
def elementsText : List (Gap × Node) → Bytes
  | [] => []
  | (gap, value) :: others => gap.bytes ++ value.text ++ elementsText others

end

mutual

/-- Every bare scalar inside a node is followed by a separator or a closing
bracket. -/
def Spaced : Node → Prop
  | .scalar _ | .string _ => True
  | .object members closing => MembersSpaced (closing.bytes ++ [Byte.closeBrace]) members
  | .array elements closing => ElementsSpaced (closing.bytes ++ [Byte.closeSquare]) elements

/-- The same of members, in front of the `ending` of their object. -/
def MembersSpaced (ending : Bytes) : List (Label × Node) → Prop
  | [] => True
  | (_, value) :: others =>
    value.Spaced ∧ (value.isScalar = true → Delimited (membersText others ++ ending)) ∧
      MembersSpaced ending others

/-- The same of elements, in front of the `ending` of their array. -/
def ElementsSpaced (ending : Bytes) : List (Gap × Node) → Prop
  | [] => True
  | (_, value) :: others =>
    value.Spaced ∧ (value.isScalar = true → Delimited (elementsText others ++ ending)) ∧
      ElementsSpaced ending others

end

end Node

/-! ## Leaves -/

theorem Gap.passes (bracket : Bracket) (gap : Gap) : Passes bracket gap.bytes :=
  Passes.plain fun b hb => by
    have hsep := gap.separators b hb
    cases bracket <;> refine ⟨?_, ?_, ?_⟩ <;> rintro rfl <;> revert hsep <;> decide

/-- The bytes of a bare scalar are no end of one, no quote and no bracket. -/
structure IsPlain (b : UInt8) : Prop where
  inside : Byte.endsScalar b = false
  noQuote : b ≠ Byte.quote
  noBracket : ∀ bracket : Bracket, b ≠ bracket.opening ∧ b ≠ bracket.closing

theorem IsPlain.startsScalar {b : UInt8} (h : IsPlain b) : Byte.startsScalar b = true :=
  Byte.startsScalar_iff.mpr
    ⟨h.noQuote, (h.noBracket .brace).1, (h.noBracket .square).1, h.inside⟩

instance (b : UInt8) : Decidable (IsPlain b) :=
  decidable_of_iff (Byte.endsScalar b = false ∧ b ≠ Byte.quote ∧
    (b ≠ Bracket.brace.opening ∧ b ≠ Bracket.brace.closing) ∧
    (b ≠ Bracket.square.opening ∧ b ≠ Bracket.square.closing)) (by
    constructor
    · rintro ⟨he, hq, hb, hs⟩
      refine ⟨he, hq, fun bracket => ?_⟩
      cases bracket
      · exact hb
      · exact hs
    · rintro ⟨he, hq, hb⟩
      exact ⟨he, hq, hb .brace, hb .square⟩)

theorem Scalar.text_plain (scalar : Scalar) : ∀ b ∈ scalar.text, IsPlain b := by
  have hlead : ∀ b ∈ Numeral.leading, IsPlain b := List.all_iff_forall_prop.mp (by decide)
  have hinner : ∀ b ∈ Numeral.inner, IsPlain b := List.all_iff_forall_prop.mp (by decide)
  match scalar with
  | .boolean true => exact List.all_iff_forall_prop.mp (by decide)
  | .boolean false => exact List.all_iff_forall_prop.mp (by decide)
  | .null => exact List.all_iff_forall_prop.mp (by decide)
  | .number numeral =>
    intro b hb
    rcases List.mem_cons.mp hb with rfl | hb
    · exact hlead _ numeral.first_mem
    · exact hinner _ (numeral.others_mem b hb)

/-- A scalar's kind can be told from its first byte. -/
theorem Scalar.text_eq (scalar : Scalar) :
    ∃ b rest, scalar.text = b :: rest ∧ Kind.ofByte b = scalar.kind := by
  have hlead : ∀ b ∈ Numeral.leading, Kind.ofByte b = .number :=
    List.all_iff_forall_prop.mp (by decide)
  match scalar with
  | .boolean true => exact ⟨_, _, rfl, by decide⟩
  | .boolean false => exact ⟨_, _, rfl, by decide⟩
  | .null => exact ⟨_, _, rfl, by decide⟩
  | .number numeral => exact ⟨_, _, rfl, hlead _ numeral.first_mem⟩

theorem Label.passes (bracket : Bracket) (label : Label) : Passes bracket label.text := by
  have hcolon : Passes bracket [Byte.colon] := by
    cases bracket <;> exact Passes.plain (List.all_iff_forall_prop.mp (by decide))
  have heq : label.text = label.before.bytes ++ Byte.quote :: (label.key.bytes ++ [Byte.quote]) ++
      label.beforeColon.bytes ++ [Byte.colon] ++ label.afterColon.bytes := by
    simp [Label.text]
  rw [heq]
  exact ((((label.before.passes bracket).append (.string label.key.isBody)).append
    (label.beforeColon.passes bracket)).append hcolon).append (label.afterColon.passes bracket)

theorem Gap.afterGap_append (gap : Gap) {b : UInt8} (hb : Byte.isSeparator b = false)
    (rest : Bytes) : afterGap (gap.bytes ++ b :: rest) = .ok (b, rest) := by
  rw [RawJson.afterGap_append gap.separators, afterGap_cons hb]

/-- A label is read as the key in it, and leads to the byte behind it. -/
theorem Label.next_member (label : Label) {b : UInt8} (hb : Byte.isSeparator b = false)
    (rest : Bytes) :
    Member.next (label.text ++ b :: rest) = .ok (some ⟨label.key.bytes, b :: rest⟩) := by
  have hquote : Byte.isSeparator Byte.quote = false := by decide
  have hcolon : Byte.isSeparator Byte.colon = false := by decide
  have hbrace : Byte.quote ≠ Byte.closeBrace := by decide
  rw [Member.next]
  simp only [Label.text, List.append_assoc, List.cons_append, label.before.afterGap_append hquote,
    hbrace, splitString_isBody label.key.isBody, label.beforeColon.afterGap_append hcolon,
    label.afterColon.afterGap_append hb, if_true, if_false]

/-! ## A scan inside a container goes over a node -/

namespace Node

mutual

theorem passes (bracket : Bracket) : ∀ node : Node, Passes bracket node.text
  | .scalar value => by
    simp only [text]
    exact Passes.plain fun b hb =>
      ⟨(value.text_plain b hb).noQuote, (value.text_plain b hb).noBracket bracket⟩
  | .string body => by
    simp only [text]
    exact Passes.string body.isBody
  | .object members closing => by
    simp only [text]
    exact ((membersPass bracket members).append (closing.passes bracket)).between .brace
  | .array elements closing => by
    simp only [text]
    exact ((elementsPass bracket elements).append (closing.passes bracket)).between .square

theorem membersPass (bracket : Bracket) :
    ∀ members : List (Label × Node), Passes bracket (membersText members)
  | [] => Passes.nil
  | (label, value) :: others => by
    simp only [membersText]
    exact ((label.passes bracket).append (passes bracket value)).append
      (membersPass bracket others)

theorem elementsPass (bracket : Bracket) :
    ∀ elements : List (Gap × Node), Passes bracket (elementsText elements)
  | [] => Passes.nil
  | (gap, value) :: others => by
    simp only [elementsText]
    exact ((gap.passes bracket).append (passes bracket value)).append
      (elementsPass bracket others)

end

/-! ## A scan of a node stops at its end -/

/-- The text of a node is that of one value, and its first byte gives the kind
away. -/
theorem isToken (node : Node) : ∃ b rest, node.text = b :: rest ∧ IsToken b rest ∧
    Byte.startsScalar b = node.isScalar ∧ Kind.ofByte b = node.kind := by
  cases node with
  | scalar value =>
    obtain ⟨b, rest, heq, hkind⟩ := value.text_eq
    have hplain := heq ▸ value.text_plain
    have hstart : Byte.startsScalar b = true := (hplain b (by simp)).startsScalar
    refine ⟨b, rest, by simp only [text, heq], .scalar hstart fun c hc => ?_, hstart, hkind⟩
    exact (hplain c (by simp [hc])).inside
  | string body =>
    exact ⟨_, _, by simp only [text], .string body.isBody, rfl, rfl⟩
  | object members closing =>
    refine ⟨_, _, by rw [text]; rfl, .container .brace ?_, rfl, rfl⟩
    exact ((membersPass .brace members).append (closing.passes .brace)).closes
  | array elements closing =>
    refine ⟨_, _, by rw [text]; rfl, .container .square ?_, rfl, rfl⟩
    exact ((elementsPass .square elements).append (closing.passes .square)).closes

/-- The value of `doc` is this node: its text stands at the very start, a bare
scalar with a delimiter behind it. -/
structure Stands (node : Node) (doc : Bytes) : Prop where
  spaced : node.Spaced
  here : ∃ rest, doc = node.text ++ rest ∧ (node.isScalar = true → Delimited rest)

/-- A node's own text is a document it stands in. -/
theorem Stands.alone {node : Node} (h : node.Spaced) : node.Stands node.text :=
  ⟨h, [], by simp, fun _ => delimited_nil⟩

theorem afterToken_text (node : Node) {rest : Bytes}
    (hd : node.isScalar = true → Delimited rest) :
    ∃ b more, node.text ++ rest = b :: (more ++ rest) ∧ Byte.isSeparator b = false ∧
      b ≠ Byte.closeSquare ∧ Kind.ofByte b = node.kind ∧
        afterToken b (more ++ rest) = .ok rest := by
  obtain ⟨b, more, heq, htoken, hstart, hkind⟩ := node.isToken
  have hlead := htoken.lead
  simp only [Byte.endsScalar, Bool.or_eq_false_iff, beq_eq_false_iff_ne] at hlead
  refine ⟨b, more, by simp [heq], hlead.1.1, hlead.2, hkind, ?_⟩
  exact htoken.afterToken fun h => hd (hstart ▸ h)

theorem afterValue_text (node : Node) {rest : Bytes}
    (hd : node.isScalar = true → Delimited rest) : afterValue (node.text ++ rest) = .ok rest := by
  obtain ⟨b, more, heq, hsep, -, -, hscan⟩ := node.afterToken_text hd
  rw [heq, afterValue, afterGap_cons hsep]
  exact hscan

/-! ## Members are met in order -/

/-- The members of an object, its closing brace, and whatever follows. -/
def objectText (members : List (Label × Node)) (closing : Gap) (rest : Bytes) : Bytes :=
  membersText members ++ (closing.bytes ++ Byte.closeBrace :: rest)

theorem next_label (label : Label) (value : Node) {rest : Bytes}
    (hd : value.isScalar = true → Delimited rest) :
    Member.next (label.text ++ (value.text ++ rest)) =
      .ok (some ⟨label.key.bytes, value.text ++ rest⟩) := by
  obtain ⟨b, more, heq, hsep, -, -, -⟩ := value.afterToken_text hd
  rw [heq]
  exact label.next_member hsep (more ++ rest)

theorem next_closeBrace (closing : Gap) (rest : Bytes) :
    Member.next (closing.bytes ++ Byte.closeBrace :: rest) = .ok none := by
  have hbrace : Byte.isSeparator Byte.closeBrace = false := by decide
  simp only [Member.next, afterGap_append closing.separators, afterGap_cons hbrace, if_true]

theorem find_nil (key : Bytes) (closing : Gap) (rest : Bytes) :
    Member.find key (objectText [] closing rest) = .ok none := by
  have hnext : Member.next (objectText [] closing rest) = .ok none := by
    simp only [objectText, membersText, List.nil_append]
    exact next_closeBrace closing rest
  rw [Member.find_eq, hnext]

theorem find_cons (key : Bytes) (label : Label) (value : Node) (others : List (Label × Node))
    (closing : Gap) (rest : Bytes)
    (hd : value.isScalar = true → Delimited (objectText others closing rest)) :
    Member.find key (objectText ((label, value) :: others) closing rest) =
      if label.key.bytes = key then .ok (some (value.text ++ objectText others closing rest))
      else Member.find key (objectText others closing rest) := by
  have hnext : Member.next (objectText ((label, value) :: others) closing rest) =
      .ok (some ⟨label.key.bytes, value.text ++ objectText others closing rest⟩) := by
    rw [← next_label label value hd]
    simp only [objectText, membersText, List.append_assoc]
  have hskip := value.afterValue_text hd
  rw [Member.find_eq, hnext]
  dsimp only
  rw [hskip]

/-- A scalar with a member or the closing brace behind it has a delimiter there. -/
theorem delimited_objectText {members : List (Label × Node)} {closing : Gap}
    (h : Delimited (membersText members ++ (closing.bytes ++ [Byte.closeBrace]))) (rest : Bytes) :
    Delimited (objectText members closing rest) := by
  have heq : objectText members closing rest =
      membersText members ++ (closing.bytes ++ [Byte.closeBrace]) ++ rest := by
    simp [objectText]
  rw [heq]
  exact h.append (by simp) rest

/-- **Lookup in a tree**: the first member with the key, or none. -/
theorem find_objectText (key : Bytes) (closing : Gap) (rest : Bytes) :
    ∀ members : List (Label × Node),
      MembersSpaced (closing.bytes ++ [Byte.closeBrace]) members →
      match members.find? fun member => member.1.key.bytes == key with
      | none => Member.find key (objectText members closing rest) = .ok none
      | some member => ∃ doc, Member.find key (objectText members closing rest) = .ok (some doc) ∧
          member.2.Stands doc
  | [], _ => find_nil key closing rest
  | (label, value) :: others, h => by
    simp only [MembersSpaced] at h
    obtain ⟨hspaced, hdelimited, hothers⟩ := h
    have hd := fun hs => delimited_objectText (hdelimited hs) rest
    rw [find_cons key label value others closing rest hd, List.find?_cons]
    by_cases hkey : label.key.bytes = key
    · simp only [hkey, beq_self_eq_true, if_true]
      exact ⟨_, rfl, hspaced, _, rfl, hd⟩
    · have hne : (label.key.bytes == key) = false := beq_eq_false_iff_ne.mpr hkey
      simp only [hne, hkey, if_false]
      exact find_objectText key closing rest others hothers

/-! ## Elements are met in order -/

/-- The elements of an array, its closing bracket, and whatever follows. -/
def arrayText (elements : List (Gap × Node)) (closing : Gap) (rest : Bytes) : Bytes :=
  elementsText elements ++ (closing.bytes ++ Byte.closeSquare :: rest)

/-- Where the elements of an array stand. -/
def spans (closing : Gap) (rest : Bytes) : List (Gap × Node) → List Element
  | [] => []
  | (_, value) :: others =>
    ⟨value.text ++ arrayText others closing rest, arrayText others closing rest⟩ ::
      spans closing rest others

theorem delimited_arrayText {elements : List (Gap × Node)} {closing : Gap}
    (h : Delimited (elementsText elements ++ (closing.bytes ++ [Byte.closeSquare])))
    (rest : Bytes) : Delimited (arrayText elements closing rest) := by
  have heq : arrayText elements closing rest =
      elementsText elements ++ (closing.bytes ++ [Byte.closeSquare]) ++ rest := by
    simp [arrayText]
  rw [heq]
  exact h.append (by simp) rest

theorem next_closeSquare (closing : Gap) (rest : Bytes) :
    Element.next (closing.bytes ++ Byte.closeSquare :: rest) = .ok none := by
  have hsquare : Byte.isSeparator Byte.closeSquare = false := by decide
  simp only [Element.next, afterGap_append closing.separators, afterGap_cons hsquare, if_true]

theorem next_element (gap : Gap) (value : Node) {rest : Bytes}
    (hd : value.isScalar = true → Delimited rest) :
    Element.next (gap.bytes ++ (value.text ++ rest)) = .ok (some ⟨value.text ++ rest, rest⟩) := by
  obtain ⟨b, more, heq, hsep, hsquare, -, hscan⟩ := value.afterToken_text hd
  rw [heq, Element.next, afterGap_append gap.separators, afterGap_cons hsep]
  simp only [hsquare, hscan, if_false]

theorem listFrom_arrayText (closing : Gap) (rest : Bytes) :
    ∀ (elements : List (Gap × Node)) (found : List Element),
      ElementsSpaced (closing.bytes ++ [Byte.closeSquare]) elements →
      Element.listFrom found (arrayText elements closing rest) =
        .ok (found.reverse ++ spans closing rest elements)
  | [], found, _ => by
    have hnext : Element.next (arrayText [] closing rest) = .ok none := by
      simp only [arrayText, elementsText, List.nil_append]
      exact next_closeSquare closing rest
    rw [Element.listFrom_eq, hnext]
    simp [spans]
  | (gap, value) :: others, found, h => by
    simp only [ElementsSpaced] at h
    obtain ⟨hspaced, hdelimited, hothers⟩ := h
    have hnext : Element.next (arrayText ((gap, value) :: others) closing rest) =
        .ok (some
          ⟨value.text ++ arrayText others closing rest, arrayText others closing rest⟩) := by
      rw [← next_element gap value fun hs => delimited_arrayText (hdelimited hs) rest]
      simp only [arrayText, elementsText, List.append_assoc]
    rw [Element.listFrom_eq, hnext]
    dsimp only
    rw [listFrom_arrayText closing rest others _ hothers]
    simp [spans]

/-- **The elements of a tree**: a scan of the array finds each where it stands. -/
theorem list_arrayText {elements : List (Gap × Node)} {closing : Gap} (rest : Bytes)
    (h : ElementsSpaced (closing.bytes ++ [Byte.closeSquare]) elements) :
    Element.list (arrayText elements closing rest) = .ok (spans closing rest elements) :=
  listFrom_arrayText closing rest elements [] h

@[simp] theorem length_spans (closing : Gap) (rest : Bytes) (elements : List (Gap × Node)) :
    (spans closing rest elements).length = elements.length := by
  induction elements with
  | nil => rfl
  | cons element others ih => simp [spans, ih]

theorem getElem?_spans (closing : Gap) (rest : Bytes) (elements : List (Gap × Node)) (i : Nat) :
    (spans closing rest elements)[i]? = elements[i]?.map fun element =>
      ⟨element.2.text ++ arrayText (elements.drop (i + 1)) closing rest,
        arrayText (elements.drop (i + 1)) closing rest⟩ := by
  induction elements generalizing i with
  | nil => simp [spans]
  | cons element others ih =>
    cases i with
    | zero => simp [spans]
    | succ i => simp [spans, ih]

theorem elementsText_append (elements others : List (Gap × Node)) :
    elementsText (elements ++ others) = elementsText elements ++ elementsText others := by
  induction elements with
  | nil => simp [elementsText]
  | cons element elements ih =>
    obtain ⟨gap, value⟩ := element
    simp [elementsText, ih]

theorem ElementsSpaced.getElem? {ending : Bytes} {elements : List (Gap × Node)} {i : Nat}
    {element : Gap × Node} (h : ElementsSpaced ending elements) (hi : elements[i]? = some element) :
    element.2.Spaced := by
  induction elements generalizing i with
  | nil => simp at hi
  | cons first others ih =>
    obtain ⟨gap, value⟩ := first
    simp only [ElementsSpaced] at h
    cases i with
    | zero =>
      simp only [List.getElem?_cons_zero, Option.some.injEq] at hi
      subst hi
      exact h.1
    | succ i => exact ih h.2.2 (by simpa using hi)

end Node

end RawJson
