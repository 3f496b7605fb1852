/-
Paths followed through a tree instead of a text. `Node.walk` knows nothing of
bytes to skip: it takes the first member with a key, the element at a place,
and reports what a token needs and does not find. It is what a path means, and
`Path.get` agrees with it on every document with the text of a tree, answer
for answer and error for error (`get_bytes`).

The text scanned is not the tree's alone. After a lookup the rest of the
document still stands behind the value, after an index nothing does, and
anything at all may follow the root; `Node.Stands` is what all of these have
in common.
-/
import RawJson.Lookup
import RawJson.Proofs.Layout

namespace RawJson

/-! ## Places in a list -/

/-- Where a position lies in a list of `count`; a negative one counts from the
end. -/
def place? (count : Nat) (position : Int64) : Option Nat :=
  let steps := position.toInt.natAbs
  if position.toInt < 0 then if steps ≤ count then some (count - steps) else none
  else if steps < count then some steps else none

/-- Where a range ends in a list of `count`: just past its last item. Zero is
the end of the list. -/
def limit? (count : Nat) (right : Int64) : Option Nat :=
  let steps := right.toInt.natAbs
  if right.toInt = 0 then some count
  else if steps ≤ count then some (if right.toInt < 0 then count - steps else steps) else none

/-- The first and the last place of a range, if any item lies in it. -/
def places? (count : Nat) (left right : Int64) : Option (Nat × Nat) :=
  match place? count left, limit? count right with
  | some first, some limit => if first < limit then some (first, limit - 1) else none
  | _, _ => none

/-! ## The walk -/

namespace Node

/-- The value under a key: the first member of that name, and for the root key
the container itself. -/
def under (key : String) : Node → Except LookupError Node
  | .scalar _ | .string _ => .error (.expectedContainer key)
  | .array elements closing =>
    if key = Token.rootKey then .ok (.array elements closing) else .error (.expectedObject key)
  | .object members closing =>
    if key = Token.rootKey then .ok (.object members closing)
    else
      match members.find? fun member => member.1.key.bytes == Bytes.ofString key with
      | none => .error (.keyNotFound key)
      | some member => .ok member.2

/-- What a token needs its value to be, for itself or for the tokens after it. -/
def fits (token : Token) (following : List Token) (node : Node) : Except LookupError Unit :=
  match token.isArray, node with
  | true, .array _ _ => .ok ()
  | true, _ => .error (.typeMismatch token.key .array)
  | false, node =>
    if Token.isTerminal following || Token.isSubject following then .ok ()
    else
      match node with
      | .object _ _ => .ok ()
      | .array _ _ => .error (.typeMismatch token.key .object)
      | _ => .error (.typeMismatch token.key .container)

/-- Some neighbours of an array, without the gap in front of the first. -/
def stretchText : List (Gap × Node) → Bytes
  | [] => []
  | (_, value) :: others => value.text ++ elementsText others

/-- The element at a position. -/
def element (key : String) (position : Int64) (elements : List (Gap × Node)) :
    Except LookupError Node :=
  match (place? elements.length position).bind (elements[·]?) with
  | none => .error (.indexOutOfRange key position none elements.length)
  | some (_, value) => .ok value

/-- An array of its own for the elements of a range. -/
def stretch (key : String) (left right : Int64) (elements : List (Gap × Node)) :
    Except LookupError Bytes :=
  match places? elements.length left right with
  | none => .error (.indexOutOfRange key left (some right) elements.length)
  | some (first, last) =>
    .ok (Byte.openSquare :: (stretchText ((elements.take (last + 1)).drop first) ++
      [Byte.closeSquare]))

/-- What the last token of a path selects. -/
def select (token : Token) (node : Node) : Except LookupError Slice :=
  match token.selector, node with
  | .index position, .array elements _ =>
    (element token.key position elements).map fun value => .verbatim value.text
  | .range left right, .array elements _ =>
    (stretch token.key left right elements).map .assembled
  | _, node => .ok (.verbatim node.text)

/-- The value that the tokens after this one start at. -/
def narrow (token : Token) (node : Node) : Except LookupError Node :=
  match token.selector, node with
  | .index position, .array elements _ => element token.key position elements
  | _, node => .ok node

/-- The number a function gives for a node. -/
def measure : Function → Node → Except LookupError Nat
  | .size, node => .ok node.text.length
  | .length, .string body => .ok (body.bytes.length + 2)
  | .length, .array elements _ => .ok elements.length
  | .length, node => .error (.functionNotApplicable .length node.kind)

/-- The value under a token, fit for the tokens that follow. -/
def enter (token : Token) (following : List Token) (node : Node) : Except LookupError Node := do
  let value ← node.under token.key
  value.fits token following
  return value

/-- Follows a token and those after it from a node. -/
def walk (token : Token) : List Token → Node → Except LookupError Slice
  | [], node => do
    let value ← node.enter token []
    value.select token
  | next :: following, node => do
    let value ← node.enter token (next :: following)
    let value ← value.narrow token
    match next.selector with
    | .function function => return .assembled (Bytes.ofString (← value.measure function).repr)
    | _ => walk next following value

end Node

/-- What a path selects from a tree. -/
def Path.walk (path : Path) (node : Node) : Except LookupError Slice :=
  node.walk path.head path.tail

/-! ## The two ways to count agree -/

theorem fromFront_eq (position : Int64) (count : Nat) : Element.fromFront position count =
    if position.toInt < 0 then position.toInt + count else position.toInt := by
  simp only [Element.fromFront, Int64.lt_iff_toInt_lt, Int64.toInt_zero]

theorem upperBound_eq (right : Int64) (count : Nat) : Element.upperBound right count =
    if right.toInt = 0 then (count : Int)
    else if right.toInt < 0 then right.toInt + count else right.toInt := by
  have hzero : right = 0 ↔ right.toInt = 0 := by rw [← Int64.toInt_inj, Int64.toInt_zero]
  simp only [Element.upperBound, fromFront_eq, hzero]

theorem place?_eq (count : Nat) (position : Int64) : place? count position =
    let index := Element.fromFront position count
    if 0 ≤ index ∧ index < count then some index.toNat else none := by
  rw [fromFront_eq]
  unfold place?
  dsimp only
  by_cases hneg : position.toInt < 0
  · rw [if_pos hneg, if_pos hneg]
    by_cases hn : position.toInt.natAbs ≤ count
    · have heq : (position.toInt + count).toNat = count - position.toInt.natAbs := by omega
      rw [if_pos hn, if_pos (by omega), heq]
    · rw [if_neg hn, if_neg (by omega)]
  · rw [if_neg hneg, if_neg hneg]
    by_cases hn : position.toInt.natAbs < count
    · have heq : position.toInt.toNat = position.toInt.natAbs := by omega
      rw [if_pos hn, if_pos (by omega), heq]
    · rw [if_neg hn, if_neg (by omega)]

theorem limit?_eq (count : Nat) (right : Int64) : limit? count right =
    let limit := Element.upperBound right count
    if 0 ≤ limit ∧ limit ≤ count then some limit.toNat else none := by
  rw [upperBound_eq]
  unfold limit?
  dsimp only
  by_cases hzero : right.toInt = 0
  · rw [if_pos hzero, if_pos hzero, if_pos (by omega), Int.toNat_natCast]
  · rw [if_neg hzero, if_neg hzero]
    by_cases hneg : right.toInt < 0
    · rw [if_pos hneg, if_pos hneg]
      by_cases hn : right.toInt.natAbs ≤ count
      · have heq : (right.toInt + count).toNat = count - right.toInt.natAbs := by omega
        rw [if_pos hn, if_pos (by omega), heq]
      · rw [if_neg hn, if_neg (by omega)]
    · rw [if_neg hneg, if_neg hneg]
      by_cases hn : right.toInt.natAbs ≤ count
      · have heq : right.toInt.toNat = right.toInt.natAbs := by omega
        rw [if_pos hn, if_pos (by omega), heq]
      · rw [if_neg hn, if_neg (by omega)]

theorem places?_eq (count : Nat) (left right : Int64) : places? count left right =
    let first := Element.fromFront left count
    let limit := Element.upperBound right count
    if 0 ≤ first ∧ first < limit ∧ limit ≤ count then some (first.toNat, limit.toNat - 1)
    else none := by
  unfold places?
  rw [place?_eq, limit?_eq]
  dsimp only
  by_cases hfirst : 0 ≤ Element.fromFront left count ∧ Element.fromFront left count < count
  · rw [if_pos hfirst]
    by_cases hlimit : 0 ≤ Element.upperBound right count ∧ Element.upperBound right count ≤ count
    · rw [if_pos hlimit]
      dsimp only
      by_cases hlt : Element.fromFront left count < Element.upperBound right count
      · rw [if_pos (by omega), if_pos (by omega)]
      · rw [if_neg (by omega), if_neg (by omega)]
    · rw [if_neg hlimit, if_neg (by omega)]
  · rw [if_neg hfirst]
    by_cases hends : 0 ≤ Element.fromFront left count ∧
        Element.fromFront left count < Element.upperBound right count ∧
        Element.upperBound right count ≤ count
    · omega
    · rw [if_neg hends]

theorem at?_eq_place? (items : List Element) (position : Int64) :
    Element.at? items position = (place? items.length position).bind fun i => items[i]? := by
  rw [place?_eq]
  unfold Element.at?
  dsimp only
  by_cases hpos : 0 ≤ Element.fromFront position items.length
  · by_cases hlt : Element.fromFront position items.length < items.length
    · rw [if_pos hpos, if_pos ⟨hpos, hlt⟩, Option.bind_some]
    · rw [if_pos hpos, if_neg (by omega), Option.bind_none, List.getElem?_eq_none (by omega)]
  · rw [if_neg hpos, if_neg (by omega), Option.bind_none]

theorem window_eq_places? (items : List Element) (left right : Int64) :
    Element.window items left right = (places? items.length left right).bind fun ends =>
      match items[ends.1]?, items[ends.2]? with
      | some first, some last => some (first, last)
      | _, _ => none := by
  unfold Element.window
  dsimp only
  by_cases hlimit : Element.upperBound right items.length ≤ items.length
  · by_cases hends : 0 ≤ Element.fromFront left items.length ∧
        Element.fromFront left items.length < Element.upperBound right items.length
    · have hplaces : places? items.length left right =
          some ((Element.fromFront left items.length).toNat,
            (Element.upperBound right items.length).toNat - 1) := by
        rw [places?_eq]
        exact if_pos ⟨hends.1, hends.2, hlimit⟩
      refine Eq.trans ?_ (congrFun (congrArg Option.bind hplaces.symm) _)
      exact if_pos hends
    · rw [places?_eq, if_neg hends, if_neg (by omega), Option.bind_none]
  · have hlast : items[(Element.upperBound right items.length).toNat - 1]? = none :=
      List.getElem?_eq_none (by omega)
    rw [places?_eq, if_neg (by omega : ¬ (_ ∧ _ ∧ _)), Option.bind_none, hlast]
    split
    · cases items[(Element.fromFront left items.length).toNat]? <;> rfl
    · rfl

/-! ## Each step finds the same -/

/-- A step through the text and one through the tree fail alike, or the second
arrives at the node that stands where the first arrives. -/
def Agrees (found : Except LookupError Bytes) (node : Except LookupError Node) : Prop :=
  match node with
  | .error error => found = .error error
  | .ok node => ∃ doc, found = .ok doc ∧ node.Stands doc

@[simp] theorem Scalar.kind_ne_object (value : Scalar) : value.kind ≠ .object := by
  cases value <;> simp [Scalar.kind]

@[simp] theorem Scalar.kind_ne_array (value : Scalar) : value.kind ≠ .array := by
  cases value <;> simp [Scalar.kind]

theorem Kind.ofByte_eq_object {b : UInt8} : Kind.ofByte b = .object ↔ b = Byte.openBrace := by
  unfold Kind.ofByte
  by_cases hb : b = Byte.openBrace
  · simp [hb]
  · rw [if_neg hb]
    simp only [hb, iff_false]
    repeat' split
    all_goals simp

theorem Kind.ofByte_eq_array {b : UInt8} : Kind.ofByte b = .array ↔ b = Byte.openSquare := by
  unfold Kind.ofByte
  by_cases hs : b = Byte.openSquare
  · subst hs
    decide
  · simp only [hs, if_false, iff_false]
    repeat' split
    all_goals simp

namespace Node

/-- The first byte of a node tells an object and an array from all else. -/
theorem text_head (node : Node) : ∃ b more, node.text = b :: more ∧ Byte.isSeparator b = false ∧
    (b = Byte.openBrace ↔ node.kind = .object) ∧ (b = Byte.openSquare ↔ node.kind = .array) := by
  obtain ⟨b, more, heq, htoken, -, hkind⟩ := node.isToken
  have hlead := htoken.lead
  simp only [Byte.endsScalar, Bool.or_eq_false_iff] at hlead
  exact ⟨b, more, heq, hlead.1.1, hkind ▸ Kind.ofByte_eq_object.symm,
    hkind ▸ Kind.ofByte_eq_array.symm⟩

theorem locate_agrees (key : String) {node : Node} (h : node.Spaced) (gap : Gap) (rest : Bytes) :
    Agrees (Token.locate key (gap.bytes ++ (node.text ++ rest))) (node.under key) := by
  obtain ⟨b, more, heq, hsep, hobject, harray⟩ := node.text_head
  have hgap : afterGap (gap.bytes ++ (node.text ++ rest)) = .ok (b, more ++ rest) := by
    rw [afterGap_append gap.separators, heq, List.cons_append, afterGap_cons hsep]
  unfold Token.locate
  rw [hgap]
  dsimp only
  cases node with
  | scalar value =>
    simp only [kind, Scalar.kind_ne_object, Scalar.kind_ne_array, iff_false] at hobject harray
    simp [Agrees, under, hobject, harray]
  | string body =>
    simp only [kind, reduceCtorEq, iff_false] at hobject harray
    simp [Agrees, under, hobject, harray]
  | array elements closing =>
    simp only [kind, reduceCtorEq, iff_false, iff_true] at hobject harray
    subst harray
    by_cases hroot : key = Token.rootKey
    · simp only [under, hroot, Agrees]
      refine ⟨Byte.openSquare :: (more ++ rest), by simp, h, rest, by simp [heq],
        by simp [isScalar]⟩
    · have hbrace : Byte.openSquare ≠ Byte.openBrace := by decide
      simp [Agrees, under, hroot, hbrace]
  | object members closing =>
    simp only [kind, reduceCtorEq, iff_false, iff_true] at hobject harray
    subst hobject
    by_cases hroot : key = Token.rootKey
    · simp only [under, hroot, Agrees]
      refine ⟨Byte.openBrace :: (more ++ rest), by simp, h, rest, by simp [heq], by simp [isScalar]⟩
    · have hmore : more ++ rest = objectText members closing rest := by
        rw [text, List.cons.injEq] at heq
        simp [objectText, ← heq.2]
      have hfind := find_objectText (Bytes.ofString key) closing rest members
        (by simpa only [Spaced] using h)
      simp only [under, hroot, hmore]
      cases hmember : members.find? fun member => member.1.key.bytes == Bytes.ofString key with
      | none =>
        rw [hmember] at hfind
        simp [Agrees, hfind]
      | some member =>
        rw [hmember] at hfind
        obtain ⟨doc, hdoc, hstands⟩ := hfind
        simp [Agrees, hdoc, hstands]

theorem checkShape_eq_fits (token : Token) (following : List Token) {node : Node} {doc : Bytes}
    (h : node.Stands doc) : token.checkShape following doc = node.fits token following := by
  obtain ⟨rest, rfl, -⟩ := h.here
  obtain ⟨b, more, heq, -, hobject, harray⟩ := node.text_head
  unfold Token.checkShape fits
  simp only [heq, List.cons_append, List.head?_cons, Option.some.injEq, hobject, harray]
  cases node <;> cases token.isArray <;> simp [kind]

/-! ### Arrays -/

theorem arrayText_append (elements others : List (Gap × Node)) (closing : Gap) (rest : Bytes) :
    arrayText (elements ++ others) closing rest =
      elementsText elements ++ arrayText others closing rest := by
  simp [arrayText, elementsText_append]

theorem elementsOf_eq (key : String) {elements : List (Gap × Node)} {closing : Gap} {rest : Bytes}
    (h : (array elements closing).Spaced) :
    Token.elementsOf key ((array elements closing).text ++ rest) =
      .ok (spans closing rest elements) := by
  have htail : ((array elements closing).text ++ rest).tail = arrayText elements closing rest := by
    simp [text, arrayText]
  unfold Token.elementsOf
  rw [htail, list_arrayText rest (by simpa only [Spaced] using h)]

theorem elementOf_eq (key : String) (position : Int64) {elements : List (Gap × Node)}
    {closing : Gap} {rest : Bytes} (h : (array elements closing).Spaced) :
    Token.elementOf key position ((array elements closing).text ++ rest) =
      (element key position elements).map text := by
  unfold Token.elementOf element
  rw [elementsOf_eq key h]
  dsimp only
  rw [at?_eq_place?, length_spans]
  cases hplace : place? elements.length position with
  | none => rfl
  | some i =>
    simp only [Option.bind_some, getElem?_spans]
    cases elements[i]? with
    | none => rfl
    | some item =>
      obtain ⟨gap, value⟩ := item
      simp [Element.text, Except.map]

/-- Between the first byte of one element and the last of another stand the
elements from the one to the other. -/
theorem upTo_spans (elements : List (Gap × Node)) (closing : Gap) (rest : Bytes) {i j : Nat}
    (hij : i ≤ j) (hj : j < elements.length) {a b : Element}
    (ha : (spans closing rest elements)[i]? = some a)
    (hb : (spans closing rest elements)[j]? = some b) :
    Bytes.upTo a.start b.stop = stretchText ((elements.take (j + 1)).drop i) := by
  have hi : i < (elements.take (j + 1)).length := by
    rw [List.length_take]; omega
  have hdrop : elements.drop (i + 1) =
      (elements.take (j + 1)).drop (i + 1) ++ elements.drop (j + 1) := by
    rw [← List.drop_append_of_le_length (by rw [List.length_take]; omega), List.take_append_drop]
  rw [getElem?_spans, List.getElem?_eq_getElem (by omega), Option.map_some,
    Option.some.injEq] at ha hb
  subst ha hb
  rw [List.drop_eq_getElem_cons hi, List.getElem_take, hdrop, arrayText_append]
  generalize elements[i] = item
  obtain ⟨gap, value⟩ := item
  simp only [stretchText]
  rw [← List.append_assoc, Bytes.upTo_append]

theorem rangeOf_eq (key : String) (left right : Int64) {elements : List (Gap × Node)}
    {closing : Gap} {rest : Bytes} (h : (array elements closing).Spaced) :
    Token.rangeOf key left right ((array elements closing).text ++ rest) =
      stretch key left right elements := by
  unfold Token.rangeOf stretch
  rw [elementsOf_eq key h]
  dsimp only
  rw [window_eq_places?, length_spans]
  cases hplaces : places? elements.length left right with
  | none => rfl
  | some ends =>
    obtain ⟨i, j⟩ := ends
    have hends : i ≤ j ∧ j < elements.length := by
      rw [places?_eq] at hplaces
      dsimp only at hplaces
      split at hplaces
      · simp only [Option.some.injEq, Prod.mk.injEq] at hplaces; omega
      · simp at hplaces
    have hi : i < (spans closing rest elements).length := by rw [length_spans]; omega
    have hj : j < (spans closing rest elements).length := by rw [length_spans]; omega
    have ha := List.getElem?_eq_getElem hi
    have hb := List.getElem?_eq_getElem hj
    simp only [Option.bind_some, ha, hb, Element.arrayOf,
      upTo_spans elements closing rest hends.1 hends.2 ha hb]

/-! ### The last step -/

theorem result_eq_select {token : Token} {node : Node} {doc : Bytes} (h : node.Stands doc)
    (hfits : node.fits token [] = .ok ()) : token.result doc = node.select token := by
  obtain ⟨hspaced, rest, rfl, hd⟩ := h
  have hvalue : Token.valueText token.key (node.text ++ rest) = .ok node.text := by
    unfold Token.valueText
    rw [node.afterValue_text hd]
    dsimp only
    rw [Bytes.upTo_append]
  unfold Token.result select
  cases hselector : token.selector with
  | member => simp [hvalue, Except.map]
  | function function => simp [hvalue, Except.map]
  | index position =>
    cases node with
    | array elements closing =>
      dsimp only
      rw [elementOf_eq token.key position hspaced]
      cases element token.key position elements <;> rfl
    | _ => simp [fits, Token.isArray, hselector] at hfits
  | range left right =>
    cases node with
    | array elements closing =>
      dsimp only
      rw [rangeOf_eq token.key left right hspaced]
    | _ => simp [fits, Token.isArray, hselector] at hfits

/-! ### The steps before it -/

theorem element_spaced {key : String} {position : Int64} {elements : List (Gap × Node)}
    {closing : Gap} {node : Node} (h : (array elements closing).Spaced)
    (helement : element key position elements = .ok node) : node.Spaced := by
  unfold element at helement
  split at helement
  · simp at helement
  · next gap value hitem =>
    simp only [Except.ok.injEq] at helement
    subst helement
    obtain ⟨i, -, hi⟩ := Option.bind_eq_some_iff.mp hitem
    exact ElementsSpaced.getElem? (by simpa only [Spaced] using h) hi

theorem narrow_agrees {token : Token} {following : List Token} {node : Node} {doc : Bytes}
    (h : node.Stands doc) (hfits : node.fits token following = .ok ()) :
    Agrees (token.narrow doc) (node.narrow token) := by
  unfold Token.narrow narrow
  cases hselector : token.selector with
  | index position =>
    cases node with
    | array elements closing =>
      obtain ⟨hspaced, rest, rfl, -⟩ := h
      dsimp only
      rw [elementOf_eq token.key position hspaced]
      cases helement : element token.key position elements with
      | error error => rfl
      | ok value => exact ⟨value.text, rfl, .alone (element_spaced hspaced helement)⟩
    | _ => simp [fits, Token.isArray, hselector] at hfits
  | _ => exact ⟨doc, rfl, h⟩

theorem sizeOf_eq {node : Node} {rest : Bytes} (hd : node.isScalar = true → Delimited rest) :
    Function.sizeOf (node.text ++ rest) = .ok node.text.length := by
  unfold Function.sizeOf
  rw [node.afterValue_text hd]
  simp

theorem lengthOf_eq {node : Node} (h : node.Spaced) (rest : Bytes) :
    Function.lengthOf (node.text ++ rest) =
      match node with
      | .string body => .ok (body.bytes.length + 2)
      | .array elements _ => .ok elements.length
      | node => .error (.notApplicable node.kind) := by
  obtain ⟨b, more, heq, htoken, hstart, hkind⟩ := node.isToken
  cases node with
  | scalar value =>
    obtain ⟨hquote, -, hsquare, -⟩ := Byte.startsScalar_iff.mp (hstart.trans rfl)
    simp [heq, Function.lengthOf, hquote, hsquare, hkind]
  | object members closing =>
    have hbrace : Byte.openBrace ≠ Byte.quote ∧ Byte.openBrace ≠ Byte.openSquare := by decide
    simp [text, Function.lengthOf, Kind.ofByte, kind, hbrace]
  | string body => simp [text, Function.lengthOf, splitString_isBody body.isBody]
  | array elements closing =>
    have hsquare : Byte.openSquare ≠ Byte.quote := by decide
    have hlist := list_arrayText rest (by simpa only [Spaced] using h)
    have hdoc : (array elements closing).text ++ rest =
        Byte.openSquare :: arrayText elements closing rest := by
      simp [text, arrayText]
    simp [hdoc, Function.lengthOf, hsquare, hlist]

/-- The answer of a function as the answer of a path. -/
theorem call_eq_measure (key : String) (function : Function) {node : Node} {doc : Bytes}
    (h : node.Stands doc) :
    (match function.call doc with
      | .error failure => .error (.ofFailure key function failure)
      | .ok number => .ok (.assembled number)) =
    (node.measure function).map fun n => Slice.assembled (Bytes.ofString n.repr) := by
  obtain ⟨hspaced, rest, rfl, hd⟩ := h
  cases function with
  | size =>
    simp only [Function.call, Function.measure, sizeOf_eq hd, measure]
    rfl
  | length =>
    simp only [Function.call, Function.measure, lengthOf_eq hspaced, measure]
    cases node <;> rfl

/-! ### The whole way -/

theorem enter_agrees (token : Token) (following : List Token) {node : Node} (h : node.Spaced)
    (gap : Gap) (rest : Bytes) :
    Agrees (token.enter following (gap.bytes ++ (node.text ++ rest)))
      (node.enter token following) := by
  have hlocate := locate_agrees token.key h gap rest
  unfold Token.enter enter
  cases hunder : node.under token.key with
  | error error =>
    rw [hunder] at hlocate
    simp only [Agrees] at hlocate
    rw [hlocate]
    rfl
  | ok value =>
    rw [hunder] at hlocate
    obtain ⟨doc, hdoc, hstands⟩ := hlocate
    rw [hdoc]
    dsimp only
    rw [checkShape_eq_fits token following hstands]
    cases hfits : value.fits token following with
    | error error => simp [Agrees, bind, Except.bind, hfits]
    | ok _ =>
      simp only [hfits, bind, Except.bind, pure, Except.pure, Agrees]
      exact ⟨doc, rfl, hstands⟩

theorem fits_of_enter {token : Token} {following : List Token} {node value : Node}
    (h : node.enter token following = .ok value) : value.fits token following = .ok () := by
  unfold enter at h
  cases hunder : node.under token.key with
  | error error => simp [hunder, bind, Except.bind] at h
  | ok found =>
    cases hfits : found.fits token following with
    | error error => simp [hunder, hfits, bind, Except.bind] at h
    | ok _ =>
      simp only [hunder, hfits, bind, Except.bind, pure, Except.pure, Except.ok.injEq] at h
      exact h ▸ hfits

theorem follow_eq_walk : ∀ (following : List Token) (token : Token) {node : Node},
    node.Spaced → ∀ (gap : Gap) (rest : Bytes),
      token.follow following (gap.bytes ++ (node.text ++ rest)) = node.walk token following
  | [], token, node, h, gap, rest => by
    have hentry := enter_agrees token [] h gap rest
    unfold Token.follow walk
    cases henter : node.enter token [] with
    | error error =>
      rw [henter] at hentry
      simp only [Agrees] at hentry
      rw [hentry]
      rfl
    | ok value =>
      rw [henter] at hentry
      obtain ⟨doc, hdoc, hstands⟩ := hentry
      rw [hdoc]
      exact result_eq_select hstands (fits_of_enter henter)
  | next :: following, token, node, h, gap, rest => by
    have hentry := enter_agrees token (next :: following) h gap rest
    unfold Token.follow walk
    cases henter : node.enter token (next :: following) with
    | error error =>
      rw [henter] at hentry
      simp only [Agrees] at hentry
      rw [hentry]
      rfl
    | ok value =>
      rw [henter] at hentry
      obtain ⟨doc, hdoc, hstands⟩ := hentry
      have hnarrow := narrow_agrees hstands (fits_of_enter henter)
      rw [hdoc]
      dsimp only [bind, Except.bind]
      cases hvalue : value.narrow token with
      | error error =>
        rw [hvalue] at hnarrow
        simp only [Agrees] at hnarrow
        rw [hnarrow]
      | ok value =>
        rw [hvalue] at hnarrow
        obtain ⟨doc, hdoc, hstands⟩ := hnarrow
        rw [hdoc]
        dsimp only
        cases next.selector with
        | function function =>
          dsimp only
          refine (call_eq_measure token.key function hstands).trans ?_
          cases value.measure function <;> rfl
        | _ =>
          obtain ⟨hspaced, rest, rfl, -⟩ := hstands
          exact follow_eq_walk following next hspaced .none rest

end Node

/-! ## Documents -/

/-- A document with the text of a tree at its start. Nothing is said of what
follows that text. -/
structure Layout where
  before : Gap
  root : Node
  spaced : root.Spaced
  trailing : Bytes

/-- The document: what stands in front of the root, the root, and what trails it. -/
def Layout.bytes (layout : Layout) : Bytes :=
  layout.before.bytes ++ (layout.root.text ++ layout.trailing)

/-- **The scanner walks the tree.** On every document with the text of a tree,
whatever its gaps and whatever comes behind it, a path selects from the bytes
what it selects from the tree, and fails on them as it fails on the tree. -/
theorem get_bytes (layout : Layout) (path : Path) :
    path.get layout.bytes = path.walk layout.root :=
  Node.follow_eq_walk path.tail path.head layout.spaced layout.before layout.trailing

/-- Blanks and commas as they come, and anything at all behind the last brace. -/
theorem get_bytes_loose : ∃ layout : Layout,
    layout.bytes =
      Bytes.ofString " ,\x7b\"a\" :[1 \"x\",\x7b\"b\":null\x7d] \x7d ]junk" ∧
    Path.get ⟨⟨"$", .member⟩, [⟨"a", .index (-1)⟩, ⟨"b", .member⟩]⟩ layout.bytes =
      .ok (.verbatim (Bytes.ofString "null")) := by
  let key (b : UInt8) (h : b ≠ Byte.quote ∧ b ≠ Byte.backslash) : Body :=
    ⟨[b], .plain h.1 h.2 .nil⟩
  let blank : Gap := ⟨Bytes.ofString " ", List.all_eq_true.mp rfl⟩
  let inner : Node :=
    .object [(⟨.none, key 0x62 (by decide), .none, .none⟩, .scalar .null)] .none
  let array : Node :=
    .array [(.none, .scalar (.number ⟨0x31, [], by decide, nofun⟩)),
      (blank, .string (key 0x78 (by decide))),
      (⟨Bytes.ofString ",", List.all_eq_true.mp rfl⟩, inner)] .none
  let root : Node := .object [(⟨.none, key 0x61 (by decide), blank, .none⟩, array)] blank
  have hinner : inner.Spaced := ⟨trivial, fun _ => by decide, trivial⟩
  have harray : array.Spaced :=
    ⟨trivial, fun _ => by decide, trivial, nofun, hinner, nofun, trivial⟩
  refine ⟨⟨⟨Bytes.ofString " ,", List.all_eq_true.mp rfl⟩, root, ⟨harray, nofun, trivial⟩,
    Bytes.ofString " ]junk"⟩, rfl, ?_⟩
  rw [get_bytes]
  rfl

end RawJson
