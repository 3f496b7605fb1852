/-
Arrays as programs read them: elements are pairs of positions in the buffer, the
bounds of a path are turned into places among them by signed 64-bit arithmetic,
and a selection is cut out of the buffer between two of them. The arithmetic is
checked, and where it fails the bounds are out of range anyway; so it finds the
places that exact arithmetic finds (`resolve_eq`, `resolveRange_eq`).
-/
import RawJson.Proofs.Checked.Scan
import RawJson.Proofs.Descent
import RawJson.Proofs.Walk

namespace RawJson.Checked

noncomputable section

/-! ## Programs -/

/-- An element: where it starts, and where it is over. -/
structure Span where
  start : Nat
  stop : Nat
  deriving DecidableEq, Repr, Inhabited

/-- The next element, from between the elements of an array. -/
def advance (input : Bytes) (pos : Nat) : Checked Fault (Option Span) := do
  let start ← skipSpaces input pos
  let b ← byteAt input start
  if b = Byte.closeSquare then return none
  else
    let stop ← skipValue input start
    return some ⟨start, stop⟩

/-- The elements behind those found, of which the last comes first. -/
def collectFrom (input : Bytes) : List Span × Nat → Checked Fault (List Span) :=
  loop fun (found, pos) => do
    let span? ← advance input pos
    match span? with
    | none => return .ended found.reverse
    | some span => return .onward (span :: found, span.stop)

/-- The number of elements, those counted before included. -/
def countFrom (input : Bytes) : Nat × Nat → Checked Fault Nat :=
  loop fun (n, pos) => do
    let span? ← advance input pos
    match span? with
    | none => return .ended n
    | some span =>
      let n ← add n 1
      return .onward (n, span.stop)

/-- The start of the elements of an array. -/
def enterArray (input : Bytes) (key : String) : Checked LookupError Nat :=
  if input.head? = some Byte.openSquare then return 1 else throw (.typeMismatch key .array)

/-- The spans of the elements of the array at the start of a buffer. -/
def collect (input : Bytes) (key : String) : Checked LookupError (List Span) := do
  let pos ← enterArray input key
  ExceptT.adapt (.ofFault key) (collectFrom input ([], pos))

/-- The number of its elements, without a list of them. -/
def count (input : Bytes) (key : String) : Checked LookupError Nat := do
  let pos ← enterArray input key
  ExceptT.adapt (.ofFault key) (countFrom input (0, pos))

/-- A number as a signed 64-bit one. -/
def signed? (n : Int) : Option Int64 :=
  if -Decimal.signedLimit ≤ n ∧ n < Decimal.signedLimit then some (Int64.ofInt n) else none

/-- A bound as a place among `count` elements. -/
def resolve (position : Int64) (count : Nat) : Option Nat := do
  let count ← signed? count
  let position ← if position < 0 then signed? (position.toInt + count.toInt) else some position
  if 0 ≤ position ∧ position < count then some position.toInt.toNat else none

/-- The place of the last element in front of the upper bound of a range, which
is the end of the array where it is zero. -/
def resolveUpper (right : Int64) (count : Nat) : Option Nat :=
  let exclusive? := if right = 0 then signed? count else some right
  do
    let exclusive ← exclusive?
    let inclusive ← signed? (exclusive.toInt - 1)
    resolve inclusive count

/-- The bounds of a range as the places of its first and its last element. -/
def resolveRange (left right : Int64) (count : Nat) : Option (Nat × Nat) := do
  let first ← resolve left count
  let last ← resolveUpper right count
  if last < first then none else some (first, last)

/-- The element at a place. -/
def spanAt (spans : List Span) (i : Nat) : Checked LookupError Span := ofOption spans[i]?

/-- The bytes of the element at `position`. -/
def element (input : Bytes) (key : String) (position : Int64) : Checked LookupError Bytes := do
  let spans ← collect input key
  match resolve position spans.length with
  | none => throw (.indexOutOfRange key position none spans.length)
  | some i =>
    let span ← spanAt spans i
    cut input span.start span.stop

/-- An array of the elements from `left` up to `right`. -/
def range (input : Bytes) (key : String) (left right : Int64) : Checked LookupError Bytes := do
  let spans ← collect input key
  match resolveRange left right spans.length with
  | none => throw (.indexOutOfRange key left (some right) spans.length)
  | some (first, last) =>
    let first ← spanAt spans first
    let last ← spanAt spans last
    let body ← cut input first.start last.stop
    let _capacity ← add body.length 2
    return Byte.openSquare :: (body ++ [Byte.closeSquare])

end

/-! ## Places -/

theorem signed?_eq {n : Int} (h : -Decimal.signedLimit ≤ n) (h' : n < Decimal.signedLimit) :
    ∃ m : Int64, signed? n = some m ∧ m.toInt = n :=
  ⟨Int64.ofInt n, if_pos ⟨h, h'⟩, Int64.toInt_ofInt_of_le h h'⟩

/-- In 64 bits a bound lies where it lies among the integers. -/
theorem resolve_eq (position : Int64) {count : Nat} (h : count < Decimal.signedLimit) :
    resolve position count = place? count position := by
  have hlow : -(Decimal.signedLimit : Int) ≤ position.toInt := Int64.le_toInt position
  obtain ⟨count', hcount, hvalue⟩ := signed?_eq (n := count) (by omega) (by omega)
  have hplace : ∀ index : Int64,
      (if 0 ≤ index ∧ index < count' then some index.toInt.toNat else none) =
        if 0 ≤ index.toInt ∧ index.toInt < count then some index.toInt.toNat else none := by
    intro index
    simp only [Int64.le_iff_toInt_le, Int64.lt_iff_toInt_lt, Int64.toInt_zero, hvalue]
  have hsign : position < 0 ↔ position.toInt < 0 := by
    rw [Int64.lt_iff_toInt_lt, Int64.toInt_zero]
  rw [place?_eq, fromFront_eq, resolve, hcount]
  dsimp only [bind, Option.bind]
  by_cases hneg : position.toInt < 0
  · obtain ⟨sum, hsum, hsumValue⟩ := signed?_eq (n := position.toInt + count) (by omega) (by omega)
    rw [if_pos (hsign.mpr hneg), if_pos hneg, hvalue, hsum]
    dsimp only
    rw [hplace, hsumValue]
  · rw [if_neg (mt hsign.mp hneg), if_neg hneg]
    exact hplace position

/-- The last place of a range is the one before its bound. -/
theorem resolveUpper_eq (right : Int64) {count : Nat} (h : count < Decimal.signedLimit) :
    resolveUpper right count =
      if 1 ≤ Element.upperBound right count ∧ Element.upperBound right count ≤ count then
        some ((Element.upperBound right count).toNat - 1)
      else none := by
  have hlow : -(Decimal.signedLimit : Int) ≤ right.toInt := Int64.le_toInt right
  have hhigh : right.toInt < Decimal.signedLimit := Int64.toInt_lt right
  have hzero : right = 0 ↔ right.toInt = 0 := by rw [← Int64.toInt_inj, Int64.toInt_zero]
  obtain ⟨exclusive, hexclusive, hvalue⟩ : ∃ e : Int64,
      (if right = 0 then signed? count else some right) = some e ∧
        e.toInt = if right.toInt = 0 then (count : Int) else right.toInt := by
    by_cases hright : right = 0
    · rw [if_pos hright, if_pos (hzero.mp hright)]
      exact signed?_eq (by omega) (by omega)
    · rw [if_neg hright, if_neg (mt hzero.mpr hright)]
      exact ⟨right, rfl, rfl⟩
  unfold resolveUpper
  dsimp only [bind]
  rw [hexclusive, Option.bind_some, hvalue]
  by_cases hmin : right.toInt = -Decimal.signedLimit
  · -- Nothing is one less than the least number, and no array is that long.
    have hne : right.toInt ≠ 0 := by rw [hmin]; decide
    have hnone : signed? (right.toInt - 1) = none := if_neg (by omega)
    have hbound : Element.upperBound right count = right.toInt + count := by
      rw [upperBound_eq, if_neg hne, if_pos (by omega)]
    rw [if_neg hne, hnone, Option.bind_none, hbound, if_neg (by omega)]
  · obtain ⟨inclusive, hinclusive, hone⟩ :=
      signed?_eq (n := (if right.toInt = 0 then (count : Int) else right.toInt) - 1)
        (by split <;> omega) (by split <;> omega)
    rw [hinclusive, Option.bind_some, resolve_eq inclusive h, place?_eq, fromFront_eq, hone,
      upperBound_eq]
    dsimp only
    grind

/-- So do the bounds of a range. -/
theorem resolveRange_eq (left right : Int64) {count : Nat} (h : count < Decimal.signedLimit) :
    resolveRange left right count = places? count left right := by
  rw [resolveRange, resolve_eq left h, resolveUpper_eq right h, place?_eq, places?_eq]
  dsimp only [bind]
  by_cases hfirst : 0 ≤ Element.fromFront left count ∧ Element.fromFront left count < count
  · rw [if_pos hfirst, Option.bind_some]
    by_cases hlast : 1 ≤ Element.upperBound right count ∧ Element.upperBound right count ≤ count
    · rw [if_pos hlast, Option.bind_some]
      grind
    · rw [if_neg hlast, Option.bind_none, if_neg (by omega)]
  · rw [if_neg hfirst, Option.bind_none, if_neg (by omega)]

/-! ## Outcomes -/

variable {input doc : Bytes}

/-- Where an element stands in the buffer. -/
def spanOf (input : Bytes) (element : Element) : Span :=
  ⟨position input element.start, position input element.stop⟩

theorem advance_eq (hlength : input.length < Decimal.signedLimit) (h : doc <:+ input) :
    advance input (position input doc) =
      done ((Element.next doc).map (Option.map (spanOf input))) := by
  rw [advance, skipSpaces_eq hlength h, Element.next]
  cases hgap : afterGap doc with
  | error fault => rfl
  | ok next =>
    obtain ⟨b, rest⟩ := next
    have hrest := (afterGap_suffix hgap).trans h
    obtain ⟨-, -, hb, -⟩ := afterGap_eq_ok_iff.mp hgap
    dsimp only [Except.map]
    rw [done_ok_bind, byteAt_position hrest, done_ok_bind, skipValue_eq hlength hrest, afterValue,
      afterGap_cons hb]
    dsimp only
    split
    · rfl
    · cases afterToken b rest <;> rfl

theorem collectFrom_step (found : List Span) (pos : Nat) :
    collectFrom input (found, pos) = advance input pos >>= fun span? => span?.elim
      (done (.ok found.reverse)) fun span => collectFrom input (span :: found, span.stop) := by
  rw [collectFrom, loop_eq]
  dsimp only
  rw [bind_assoc]
  congr
  funext span?
  cases span? <;> rfl

theorem collectFrom_eq (hlength : input.length < Decimal.signedLimit) (found : List Element)
    (h : doc <:+ input) :
    collectFrom input (found.map (spanOf input), position input doc) =
      done ((Element.listFrom found doc).map (List.map (spanOf input))) := by
  fun_induction Element.listFrom found doc with
  | case1 found doc fault hnext =>
    rw [collectFrom_step, advance_eq hlength h, hnext]
    rfl
  | case2 found doc hnext =>
    rw [collectFrom_step, advance_eq hlength h, hnext]
    dsimp only [Except.map, Option.map]
    rw [done_ok_bind, List.map_reverse]
    rfl
  | case3 found doc element hnext ih =>
    obtain ⟨hstart, hstop⟩ := Element.next_suffix hnext
    rw [collectFrom_step, advance_eq hlength h, hnext]
    exact ih (hstop.trans (hstart.trans h))

theorem countFrom_step (n pos : Nat) :
    countFrom input (n, pos) = advance input pos >>= fun span? => span?.elim
      (done (.ok n)) fun span => add n 1 >>= fun n => countFrom input (n, span.stop) := by
  rw [countFrom, loop_eq]
  dsimp only
  rw [bind_assoc]
  congr
  funext span?
  cases span? with
  | none => rfl
  | some span => exact bind_assoc (add n 1) _ _

/-- There are no more elements than bytes have been passed. -/
theorem countFrom_eq (hlength : input.length < Decimal.signedLimit) (found : List Element)
    (h : doc <:+ input) (hfound : found.length ≤ position input doc) :
    countFrom input (found.length, position input doc) =
      done ((Element.listFrom found doc).map List.length) := by
  fun_induction Element.listFrom found doc with
  | case1 found doc fault hnext =>
    rw [countFrom_step, advance_eq hlength h, hnext]
    rfl
  | case2 found doc hnext =>
    rw [countFrom_step, advance_eq hlength h, hnext]
    dsimp only [Except.map, Option.map]
    rw [done_ok_bind, List.length_reverse]
    rfl
  | case3 found doc element hnext ih =>
    obtain ⟨hstart, hstop⟩ := Element.next_suffix hnext
    have hsuffix := hstop.trans (hstart.trans h)
    have hlt := Element.next_length hnext
    have hpos := position_add_length h
    have hpos' := position_add_length hsuffix
    rw [countFrom_step, advance_eq hlength h, hnext]
    dsimp only [Except.map, Option.map]
    rw [done_ok_bind, Option.elim_some, add_within hlength (by omega) (by decide), done_ok_bind]
    exact ih hsuffix (by rw [List.length_cons]; omega)

variable {array : Bytes}

theorem enterArray_eq (key : String) (h : array.head? = some Byte.openSquare) :
    enterArray array key = done (.ok (position array array.tail)) ∧ array.tail <:+ array := by
  cases array with
  | nil => cases h
  | cons b rest =>
    have hone := position_cons (List.suffix_refl (b :: rest))
    rw [position_self] at hone
    rw [enterArray, if_pos h, List.tail_cons, ← hone]
    exact ⟨rfl, List.suffix_cons ..⟩

theorem collect_eq (hlength : array.length < Decimal.signedLimit) (key : String)
    (h : array.head? = some Byte.openSquare) :
    collect array key = done ((Token.elementsOf key array).map (List.map (spanOf array))) := by
  obtain ⟨henter, hsuffix⟩ := enterArray_eq key h
  have hcollect := collectFrom_eq hlength [] hsuffix
  rw [List.map_nil] at hcollect
  rw [collect, henter, done_ok_bind, hcollect, adapt_done, Token.elementsOf, Element.list]
  cases Element.listFrom [] array.tail <;> rfl

theorem count_eq (hlength : array.length < Decimal.signedLimit) (key : String)
    (h : array.head? = some Byte.openSquare) :
    count array key = done ((Token.elementsOf key array).map List.length) := by
  obtain ⟨henter, hsuffix⟩ := enterArray_eq key h
  have hcount := countFrom_eq hlength [] hsuffix (Nat.zero_le _)
  rw [List.length_nil] at hcount
  rw [count, henter, done_ok_bind, hcount, adapt_done, Token.elementsOf, Element.list]
  cases Element.listFrom [] array.tail <;> rfl

theorem spanAt_eq {items : List Element} {i : Nat} {item : Element} (h : items[i]? = some item) :
    spanAt (items.map (spanOf input)) i = done (.ok (spanOf input item)) := by
  rw [spanAt, List.getElem?_map, h]
  rfl

/-- An array has no more elements than bytes. -/
theorem elementsOf_length {key : String} {items : List Element}
    (h : Token.elementsOf key array = .ok items) : items.length ≤ array.length :=
  Nat.le_trans (Token.elementsOf_eq_ok h).length_le (List.tail_suffix array).length_le

theorem place?_lt {count i : Nat} {position : Int64} (h : place? count position = some i) :
    i < count := by
  rw [place?_eq] at h
  grind

theorem places?_lt {count first last : Nat} {left right : Int64}
    (h : places? count left right = some (first, last)) : first ≤ last ∧ last < count := by
  rw [places?_eq] at h
  grind

theorem element_eq (hlength : array.length < Decimal.signedLimit) (key : String)
    (position : Int64) (h : array.head? = some Byte.openSquare) :
    element array key position = done (Token.elementOf key position array) := by
  rw [element, collect_eq hlength key h, Token.elementOf]
  cases hitems : Token.elementsOf key array with
  | error error => rfl
  | ok items =>
    have hlists := Token.elementsOf_eq_ok hitems
    have hcount : items.length < Decimal.signedLimit :=
      Nat.lt_of_le_of_lt (elementsOf_length hitems) hlength
    dsimp only [Except.map]
    rw [done_ok_bind, List.length_map, resolve_eq position hcount, at?_eq_place?]
    cases hplace : place? items.length position with
    | none => rfl
    | some i =>
      have hitem := List.getElem?_eq_getElem (place?_lt hplace)
      obtain ⟨hstart, hstop⟩ := hlists.suffix (List.getElem_mem (place?_lt hplace))
      dsimp only
      rw [spanAt_eq hitem, done_ok_bind, Option.bind_some, hitem]
      exact cut_position (hstart.trans (List.tail_suffix array)) hstop

theorem range_eq (hlength : array.length < Decimal.signedLimit) (key : String)
    (left right : Int64) (h : array.head? = some Byte.openSquare) :
    range array key left right = done (Token.rangeOf key left right array) := by
  rw [range, collect_eq hlength key h, Token.rangeOf]
  cases hitems : Token.elementsOf key array with
  | error error => rfl
  | ok items =>
    have hlists := Token.elementsOf_eq_ok hitems
    have hcount : items.length < Decimal.signedLimit :=
      Nat.lt_of_le_of_lt (elementsOf_length hitems) hlength
    dsimp only [Except.map]
    rw [done_ok_bind, List.length_map, resolveRange_eq left right hcount, window_eq_places?]
    cases hplaces : places? items.length left right with
    | none => rfl
    | some ends =>
      obtain ⟨i, j⟩ := ends
      obtain ⟨hle, hlt⟩ := places?_lt hplaces
      have hfirst := List.getElem?_eq_getElem (Nat.lt_of_le_of_lt hle hlt)
      have hlast := List.getElem?_eq_getElem hlt
      obtain ⟨hstart, -⟩ := hlists.suffix (List.mem_of_getElem? hfirst)
      have hstop := hlists.stop_suffix hle hfirst hlast
      dsimp only
      rw [spanAt_eq hfirst, done_ok_bind, spanAt_eq hlast, done_ok_bind]
      dsimp only [spanOf]
      have harray := hstart.trans (List.tail_suffix array)
      have hbody : (Bytes.upTo items[i].start items[j].stop).length ≤ array.length :=
        Nat.le_trans (List.length_take_le' _ _) harray.length_le
      rw [cut_position harray hstop, done_ok_bind, add_within hlength hbody (by decide),
        done_ok_bind, Option.bind_some, hfirst, hlast]
      rfl

end RawJson.Checked
