/-
The three ways to ask for the elements of an array: their number, one of them by
its position, and a range of them. All three enumerate the array to its end, so
they fail alike where it has none (`elementsOf`), and they agree on how many
elements there are and where in the document each of them stands. Where that is,
the document alone determines (`Spans.unique`).

A bound counts from the end if it is negative, and an upper bound of zero is the
end. That is settled on exact integers here. The program settles it in 64 bits,
turns the upper bound into the last place by a subtraction first, and finds the
same on every document that it can hold (`Checked.resolveRange_eq`).
-/
import RawJson.Proofs.Checked.Lookup

namespace RawJson

open Checked (Span)

/-! ## Elements in a document -/

/-- The elements of an array, from a position in a document up to the bracket
that closes it: each one value, a bare scalar to its last byte, and nothing but
separators around them. -/
inductive Spans (doc : Bytes) : Nat → List Span → Prop
  | nil {i j : Nat} (hle : i ≤ j) (hgap : ∀ b ∈ doc.extract i j, Byte.isSeparator b = true)
    (hclose : doc[j]? = some Byte.closeSquare) : Spans doc i []
  | cons {i : Nat} {span : Span} {spans : List Span} (hle : i ≤ span.start)
    (hgap : ∀ b ∈ doc.extract i span.start, Byte.isSeparator b = true)
    (hvalue : IsValue (doc.extract span.start span.stop))
    (hwhole : RunsOut (doc.extract span.start span.stop) → Delimited (doc.drop span.stop))
    (hothers : Spans doc span.stop spans) : Spans doc i (span :: spans)

/-- Where an element stands in a document, if what it was found in is over at
`stop` there. -/
def spanBefore (stop : Nat) (element : Element) : Span :=
  ⟨stop - element.start.length, stop - element.stop.length⟩

theorem extract_of_drop {doc part rest : Bytes} {i : Nat} (h : doc.drop i = part ++ rest) :
    doc.extract i (i + part.length) = part ∧ doc.drop (i + part.length) = rest := by
  constructor
  · rw [List.extract_eq_take_drop, Nat.add_sub_cancel_left, h, List.take_left]
  · rw [← List.drop_drop, h, List.drop_left]

theorem drop_eq_extract {doc : Bytes} {i j : Nat} (h : i ≤ j) :
    doc.drop i = doc.extract i j ++ doc.drop j := by
  have hsplit := List.take_append_drop (j - i) (doc.drop i)
  rw [List.drop_drop, Nat.add_sub_of_le h] at hsplit
  rw [List.extract_eq_take_drop, hsplit]

theorem IsValue.start_lt_stop {doc : Bytes} {i j : Nat} (h : IsValue (doc.extract i j)) :
    i < j := by
  refine Nat.lt_of_not_le fun hle => ?_
  rw [List.extract_eq_take_drop, Nat.sub_eq_zero_of_le hle] at h
  obtain ⟨b, rest, hcons, -⟩ := h
  cases hcons

namespace Element

theorem next_eq_none {doc : Bytes} (h : next doc = .ok none) :
    ∃ gap rest, (∀ b ∈ gap, Byte.isSeparator b = true) ∧ doc = gap ++ Byte.closeSquare :: rest := by
  unfold next at h
  split at h
  · cases h
  next b rest hgap =>
  split at h
  · next hclose =>
    obtain ⟨gap, hsep, -, rfl⟩ := afterGap_eq_ok_iff.mp hgap
    exact ⟨gap, rest, hsep, hclose ▸ rfl⟩
  · split at h
    · cases h
    · cases h

theorem Lists.ne_nil {array : Bytes} {items : List Element} (h : Lists array items) :
    array ≠ [] := by
  rintro rfl
  cases h with
  | nil hnext | cons hnext => cases hnext

/-- What an array lists stands in the document around it. -/
theorem Lists.spans {doc array back : Bytes} {items : List Element} (h : Lists array items)
    {i : Nat} (hdoc : doc.drop i = array ++ back) :
    Spans doc i (items.map (spanBefore (i + array.length))) := by
  induction h generalizing i with
  | nil hnext =>
    obtain ⟨gap, rest, hsep, rfl⟩ := next_eq_none hnext
    rw [List.append_assoc] at hdoc
    obtain ⟨hgap, hclose⟩ := extract_of_drop hdoc
    refine .nil (Nat.le_add_right i gap.length) ?_ ?_
    · rw [hgap]
      exact hsep
    · rw [← List.head?_drop, hclose]
      rfl
  | cons hnext hothers ih =>
    obtain ⟨gap, text, rest, hsep, hvalue, hd, rfl, rfl⟩ := next_eq_some_iff.mp hnext
    rw [List.append_assoc] at hdoc
    obtain ⟨hgap, htail⟩ := extract_of_drop hdoc
    rw [List.append_assoc] at htail
    obtain ⟨htext, hrest⟩ := extract_of_drop htail
    have hstop : i + (gap ++ (text ++ rest)).length =
        i + gap.length + text.length + rest.length := by
      simp only [List.length_append]
      omega
    have hspan : spanBefore (i + (gap ++ (text ++ rest)).length) ⟨text ++ rest, rest⟩ =
        ⟨i + gap.length, i + gap.length + text.length⟩ := by
      unfold spanBefore
      dsimp only
      rw [hstop, List.length_append, Span.mk.injEq]
      omega
    rw [List.map_cons, hspan, hstop]
    refine .cons (Nat.le_add_right i gap.length) ?_ ?_ ?_ (ih hrest)
    · rw [hgap]
      exact hsep
    · rw [htext]
      exact hvalue
    · rw [htext, hrest]
      exact fun hruns => (hd hruns).append hothers.ne_nil back

end Element

namespace Spans

variable {doc : Bytes} {i : Nat} {spans : List Span}

theorem lt_length (h : Spans doc i spans) : i < doc.length := by
  induction h with
  | nil hle _ hclose => exact Nat.lt_of_le_of_lt hle (List.getElem?_eq_some_iff.mp hclose).1
  | cons hle _ hvalue _ _ ih =>
    exact Nat.lt_of_le_of_lt hle (Nat.lt_trans hvalue.start_lt_stop ih)

/-- The elements that stand in a document are those that a scan of it lists. -/
theorem lists (h : Spans doc i spans) : ∃ items, Element.Lists (doc.drop i) items ∧
    spans = items.map (spanBefore doc.length) := by
  induction h with
  | @nil i j hle hgap hclose =>
    obtain ⟨hlt, hclose⟩ := List.getElem?_eq_some_iff.mp hclose
    have hnext : Element.next (doc.drop i) = .ok none := by
      rw [drop_eq_extract hle, List.drop_eq_getElem_cons hlt, hclose, Element.next,
        afterGap_append hgap]
      rfl
    exact ⟨[], .nil hnext, rfl⟩
  | @cons i span spans hle hgap hvalue hwhole hothers ih =>
    obtain ⟨items, hitems, rfl⟩ := ih
    have hlt := hvalue.start_lt_stop
    have hend := hothers.lt_length
    have hnext : Element.next (doc.drop i) =
        .ok (some ⟨doc.drop span.start, doc.drop span.stop⟩) := by
      refine Element.next_eq_some_iff.mpr ⟨_, _, _, hgap, hvalue, hwhole, ?_, ?_⟩
      · rw [← drop_eq_extract (Nat.le_of_lt hlt), ← drop_eq_extract hle]
      · rw [← drop_eq_extract (Nat.le_of_lt hlt)]
    refine ⟨_ :: items, .cons hnext hitems, ?_⟩
    have hspan : spanBefore doc.length ⟨doc.drop span.start, doc.drop span.stop⟩ = span := by
      unfold spanBefore
      rw [List.length_drop, List.length_drop, Nat.sub_sub_self (by omega),
        Nat.sub_sub_self (by omega)]
    rw [List.map_cons, hspan]

theorem unique {spans' : List Span} (h : Spans doc i spans) (h' : Spans doc i spans') :
    spans = spans' := by
  obtain ⟨items, hitems, rfl⟩ := h.lists
  obtain ⟨items', hitems', rfl⟩ := h'.lists
  have hsame := (Element.list_eq_ok_iff.mpr hitems).symm.trans (Element.list_eq_ok_iff.mpr hitems')
  rw [Except.ok.inj hsame]

end Spans

theorem extract_upTo {doc array back first last : Bytes} {i : Nat}
    (hdoc : doc.drop i = array ++ back) (hfirst : first <:+ array) (hlast : last <:+ first) :
    doc.extract (i + array.length - first.length) (i + array.length - last.length) =
      Bytes.upTo first last := by
  obtain ⟨before, rfl⟩ := hfirst
  obtain ⟨middle, rfl⟩ := hlast
  rw [List.append_assoc] at hdoc
  have hmiddle := (extract_of_drop hdoc).2
  rw [List.append_assoc] at hmiddle
  have hstart : i + (before ++ (middle ++ last)).length - (middle ++ last).length =
      i + before.length := by
    simp only [List.length_append]
    omega
  have hstop : i + (before ++ (middle ++ last)).length - last.length =
      i + before.length + middle.length := by
    simp only [List.length_append]
    omega
  rw [hstart, hstop, (extract_of_drop hmiddle).1, Bytes.upTo_append]

/-! ## Three selections of an array -/

namespace Path

/-- The walk along a path comes to this value, before the last token selects from
it. -/
def ArrivesAt (path : Path) (doc value : Bytes) : Prop :=
  (path.approach doc).bind (Token.locate path.last.key) = .ok value

/-- The call of the function that counts elements. -/
def lengthCall : Token := ⟨Function.length.name, .function .length⟩

variable {path : Path} {doc value : Bytes}

theorem enter_select {start : Bytes} {token : Token} {following : List Token}
    (hlocate : Token.locate token.key start = .ok value)
    (hopen : value.head? = some Byte.openSquare)
    (htoken : token.isArray = true ∨ Token.isSubject following = true) :
    token.enter following start = .ok value := by
  refine Token.enter_eq_ok_iff.mpr ⟨hlocate, Token.checkShape_eq_ok_iff.mpr ?_⟩
  split
  · exact hopen
  · next harray =>
    rcases htoken with h | h
    · exact absurd h harray
    · rw [h, Bool.or_true]
      exact .inl rfl

theorem length_get (hplain : path.Plain) (hmember : path.last.selector = .member)
    (harrives : path.ArrivesAt doc value) (hopen : value.head? = some Byte.openSquare) :
    (path.append [lengthCall]).get doc = (Token.elementsOf path.last.key value).map fun items =>
      .assembled (Bytes.ofString items.length.repr) := by
  obtain ⟨start, happroach, hlocate⟩ := bind_eq_ok_iff.mp harrives
  have henter : path.last.enter [lengthCall] start = .ok value :=
    enter_select hlocate hopen (.inr rfl)
  have hdescend : path.last.descend [lengthCall] start = .ok value := by
    rw [Token.descend, henter]
    unfold Token.narrow Except.bind
    rw [hmember]
  rw [append_get hplain, happroach]
  refine (Token.follow_eq_resume path.last lengthCall [] start).trans ?_
  rw [hdescend]
  refine (@Token.resume_function path.last.key lengthCall .length rfl [] value).trans ?_
  cases value with
  | nil => cases hopen
  | cons b rest =>
    obtain rfl := Option.some.inj hopen
    have hcall : Function.length.call (Byte.openSquare :: rest) =
        ((Element.list rest).map fun items =>
          Bytes.ofString items.length.repr).mapError .fault := by
      rw [Function.call, Function.measure, Function.lengthOf]
      rw [if_neg (by decide), if_pos rfl]
      cases Element.list rest <;> rfl
    rw [hcall, Token.elementsOf, List.tail_cons]
    cases Element.list rest <;> rfl

theorem select_array_get (hplain : path.Plain) (harrives : path.ArrivesAt doc value)
    (hopen : value.head? = some Byte.openSquare) {selector : Selector}
    (hselector : ∀ f, selector ≠ .function f)
    (harray : Token.isArray { path.last with selector } = true) :
    (path.select selector).get doc = Token.result { path.last with selector } value := by
  obtain ⟨start, happroach, hlocate⟩ := bind_eq_ok_iff.mp harrives
  have henter : Token.enter { path.last with selector } [] start = .ok value :=
    enter_select hlocate hopen (.inl harray)
  rw [select_get hplain hselector, happroach]
  refine (Token.follow_nil _ start).trans ?_
  rw [henter]
  rfl

theorem index_get (hplain : path.Plain) (harrives : path.ArrivesAt doc value)
    (hopen : value.head? = some Byte.openSquare) (position : Int64) :
    (path.select (.index position)).get doc =
      (Token.elementOf path.last.key position value).map .verbatim :=
  select_array_get hplain harrives hopen nofun rfl

theorem range_get (hplain : path.Plain) (harrives : path.ArrivesAt doc value)
    (hopen : value.head? = some Byte.openSquare) (left right : Int64) :
    (path.select (.range left right)).get doc =
      (Token.rangeOf path.last.key left right value).map .assembled :=
  select_array_get hplain harrives hopen nofun rfl

/-! ## Agreement -/

/-- The place in an array of `count` elements that a bound means: a negative one
counts from the end. -/
def lowerPlace (count : Nat) (bound : Int64) : Int :=
  if bound.toInt < 0 then bound.toInt + count else bound.toInt

/-- The place that ends a range; a bound of zero is the end of the array. -/
def upperPlace (count : Nat) (bound : Int64) : Int :=
  if bound.toInt = 0 then count else lowerPlace count bound

/-- What a path that leads to an array selects with each selector, if these are
the elements of the array. -/
structure SelectsFrom (path : Path) (doc : Bytes) (spans : List Span) : Prop where
  length : (path.append [lengthCall]).get doc =
    .ok (.assembled (Bytes.ofString spans.length.repr))
  /-- One element, from either end. -/
  index_within : ∀ i : Int64, -spans.length ≤ i.toInt → i.toInt < spans.length →
    ∃ span, spans[(lowerPlace spans.length i).toNat]? = some span ∧
      (path.select (.index i)).get doc = .ok (.verbatim (doc.extract span.start span.stop))
  index_beyond : ∀ i : Int64, ¬(-spans.length ≤ i.toInt ∧ i.toInt < spans.length) →
    (path.select (.index i)).get doc =
      .error (.indexOutOfRange path.last.key i none spans.length)
  /-- A position from the front and the one from the end. -/
  index_back : ∀ i : Int64, 0 ≤ i.toInt → i.toInt < spans.length →
    (path.select (.index i)).get doc =
      (path.select (.index (Int64.ofInt (i.toInt - spans.length)))).get doc
  /-- The text from the first element of a range to its last one. -/
  range_within : ∀ l r : Int64, 0 ≤ lowerPlace spans.length l →
    lowerPlace spans.length l < upperPlace spans.length r →
    upperPlace spans.length r ≤ spans.length →
    ∃ first last, spans[(lowerPlace spans.length l).toNat]? = some first ∧
      spans[(upperPlace spans.length r).toNat - 1]? = some last ∧
      (path.select (.range l r)).get doc = .ok (.assembled
        (Byte.openSquare :: (doc.extract first.start last.stop ++ [Byte.closeSquare])))
  range_beyond : ∀ l r : Int64, ¬(0 ≤ lowerPlace spans.length l ∧
      lowerPlace spans.length l < upperPlace spans.length r ∧
      upperPlace spans.length r ≤ spans.length) →
    (path.select (.range l r)).get doc =
      .error (.indexOutOfRange path.last.key l (some r) spans.length)

theorem place?_eq_lowerPlace (count : Nat) (position : Int64) : place? count position =
    if 0 ≤ lowerPlace count position ∧ lowerPlace count position < count then
      some (lowerPlace count position).toNat
    else none := by
  rw [place?_eq, fromFront_eq]
  rfl

theorem places?_eq_places (count : Nat) (left right : Int64) : places? count left right =
    if 0 ≤ lowerPlace count left ∧ lowerPlace count left < upperPlace count right ∧
        upperPlace count right ≤ count then
      some ((lowerPlace count left).toNat, (upperPlace count right).toNat - 1)
    else none := by
  rw [places?_eq, fromFront_eq, upperBound_eq]
  rfl

section Bounds

variable {key : String} {array doc back : Bytes} {offset : Nat} {items : List Element}

theorem elementOf_some (hitems : Token.elementsOf key array = .ok items) {position : Int64}
    {i : Nat} (hplace : place? items.length position = some i) {element : Element}
    (hi : items[i]? = some element) : Token.elementOf key position array = .ok element.text := by
  have hat : Element.at? items position = some element := by
    rw [at?_eq_place?, hplace, Option.bind_some, hi]
  simp only [Token.elementOf, hitems, hat]

theorem elementOf_none (hitems : Token.elementsOf key array = .ok items) {position : Int64}
    (hplace : place? items.length position = none) :
    Token.elementOf key position array =
      .error (.indexOutOfRange key position none items.length) := by
  have hat : Element.at? items position = none := by
    rw [at?_eq_place?, hplace, Option.bind_none]
  simp only [Token.elementOf, hitems, hat]

theorem rangeOf_some (hitems : Token.elementsOf key array = .ok items) {left right : Int64}
    {i j : Nat} (hplaces : places? items.length left right = some (i, j)) {first last : Element}
    (hi : items[i]? = some first) (hj : items[j]? = some last) :
    Token.rangeOf key left right array = .ok (Element.arrayOf first last) := by
  have hwindow : Element.window items left right = some (first, last) := by
    simp only [window_eq_places?, hplaces, Option.bind_some, hi, hj]
  simp only [Token.rangeOf, hitems, hwindow]

theorem rangeOf_none (hitems : Token.elementsOf key array = .ok items) {left right : Int64}
    (hplaces : places? items.length left right = none) :
    Token.rangeOf key left right array =
      .error (.indexOutOfRange key left (some right) items.length) := by
  have hwindow : Element.window items left right = none := by
    rw [window_eq_places?, hplaces, Option.bind_none]
  simp only [Token.rangeOf, hitems, hwindow]

theorem elementOf_place (hitems : Token.elementsOf key array = .ok items) {position : Int64}
    {i : Nat} (hplace : place? items.length position = some i)
    (hdoc : doc.drop offset = array ++ back) :
    ∃ span, (items.map (spanBefore (offset + array.length)))[i]? = some span ∧
      Token.elementOf key position array = .ok (doc.extract span.start span.stop) := by
  have hlists := Token.elementsOf_eq_ok hitems
  have hlt := Checked.place?_lt hplace
  have hitem := List.getElem?_eq_getElem hlt
  obtain ⟨hstart, hstop⟩ := hlists.suffix (List.getElem_mem hlt)
  refine ⟨_, by rw [List.getElem?_map, hitem, Option.map_some], ?_⟩
  rw [elementOf_some hitems hplace hitem, spanBefore,
    extract_upTo hdoc (hstart.trans (List.tail_suffix array)) hstop]
  rfl

theorem rangeOf_places (hitems : Token.elementsOf key array = .ok items) {left right : Int64}
    {i j : Nat} (hplaces : places? items.length left right = some (i, j))
    (hdoc : doc.drop offset = array ++ back) :
    ∃ first last, (items.map (spanBefore (offset + array.length)))[i]? = some first ∧
      (items.map (spanBefore (offset + array.length)))[j]? = some last ∧
      Token.rangeOf key left right array = .ok
        (Byte.openSquare :: (doc.extract first.start last.stop ++ [Byte.closeSquare])) := by
  have hlists := Token.elementsOf_eq_ok hitems
  obtain ⟨hle, hlast⟩ := Checked.places?_lt hplaces
  have hfirst := Nat.lt_of_le_of_lt hle hlast
  have hitem := List.getElem?_eq_getElem hfirst
  have hitem' := List.getElem?_eq_getElem hlast
  obtain ⟨hstart, -⟩ := hlists.suffix (List.getElem_mem hfirst)
  refine ⟨_, _, by rw [List.getElem?_map, hitem, Option.map_some],
    by rw [List.getElem?_map, hitem', Option.map_some], ?_⟩
  rw [rangeOf_some hitems hplaces hitem hitem', spanBefore, spanBefore,
    extract_upTo hdoc (hstart.trans (List.tail_suffix array))
      (hlists.stop_suffix hle hitem hitem')]
  rfl

end Bounds

theorem lowerPlace_within {count : Nat} {position : Int64} :
    0 ≤ lowerPlace count position ∧ lowerPlace count position < count ↔
      -count ≤ position.toInt ∧ position.toInt < count := by
  unfold lowerPlace
  split <;> omega

/-- A position from the front and the one from the end mean the same place. -/
theorem lowerPlace_back {count : Nat} (hcount : count < Decimal.signedLimit) {position : Int64}
    (hlow : 0 ≤ position.toInt) (hhigh : position.toInt < count) :
    lowerPlace count (Int64.ofInt (position.toInt - count)) = lowerPlace count position := by
  unfold Decimal.signedLimit at hcount
  have hvalue : (Int64.ofInt (position.toInt - count)).toInt = position.toInt - count :=
    Int64.toInt_ofInt_of_le (by omega) (by omega)
  unfold lowerPlace
  rw [hvalue, if_pos (by omega), if_neg (by omega)]
  omega

/-- An array that is listed to its end answers every question about it. -/
theorem selectsFrom_of_elementsOf (hplain : path.Plain) (hmember : path.last.selector = .member)
    (hlength : doc.length < Decimal.signedLimit) (harrives : path.ArrivesAt doc value)
    (hopen : value.head? = some Byte.openSquare) {offset : Nat} {back : Bytes}
    (hdoc : doc.drop offset = value ++ back) {items : List Element}
    (hitems : Token.elementsOf path.last.key value = .ok items) :
    path.SelectsFrom doc (items.map (spanBefore (offset + value.length))) := by
  constructor
  · rw [length_get hplain hmember harrives hopen, hitems, List.length_map]
    rfl
  · intro i hlow hhigh
    rw [List.length_map] at hlow hhigh ⊢
    have hplace := place?_eq_lowerPlace items.length i
    rw [if_pos (lowerPlace_within.mpr ⟨hlow, hhigh⟩)] at hplace
    obtain ⟨span, hspan, htext⟩ := elementOf_place hitems hplace hdoc
    refine ⟨span, hspan, ?_⟩
    rw [index_get hplain harrives hopen, htext]
    rfl
  · intro i hout
    rw [List.length_map] at hout ⊢
    have hplace := place?_eq_lowerPlace items.length i
    rw [if_neg (mt lowerPlace_within.mp hout)] at hplace
    rw [index_get hplain harrives hopen, elementOf_none hitems hplace]
    rfl
  · intro i hlow hhigh
    rw [List.length_map] at hhigh ⊢
    have hcount : items.length < Decimal.signedLimit := by
      have hle := Checked.elementsOf_length hitems
      have hfits := congrArg List.length hdoc
      rw [List.length_drop, List.length_append] at hfits
      omega
    have hplace := place?_eq_lowerPlace items.length i
    have hplace' := place?_eq_lowerPlace items.length (Int64.ofInt (i.toInt - items.length))
    rw [lowerPlace_back hcount hlow hhigh, ← hplace] at hplace'
    rw [if_pos (lowerPlace_within.mpr ⟨by omega, hhigh⟩)] at hplace
    rw [hplace] at hplace'
    have hitem := List.getElem?_eq_getElem (Checked.place?_lt hplace)
    rw [index_get hplain harrives hopen, index_get hplain harrives hopen,
      elementOf_some hitems hplace hitem, elementOf_some hitems hplace' hitem]
  · intro l r hlow hlt hhigh
    rw [List.length_map] at hlow hlt hhigh ⊢
    have hplaces := places?_eq_places items.length l r
    rw [if_pos ⟨hlow, hlt, hhigh⟩] at hplaces
    obtain ⟨first, last, hfirst, hlast, htext⟩ := rangeOf_places hitems hplaces hdoc
    refine ⟨first, last, hfirst, hlast, ?_⟩
    rw [range_get hplain harrives hopen, htext]
    rfl
  · intro l r hout
    rw [List.length_map] at hout ⊢
    have hplaces := places?_eq_places items.length l r
    rw [if_neg hout] at hplaces
    rw [range_get hplain harrives hopen, rangeOf_none hitems hplaces]
    rfl

/-- From an array that is not listed to its end nothing is selected. -/
theorem select_of_elementsOf_error (hplain : path.Plain) (harrives : path.ArrivesAt doc value)
    (hopen : value.head? = some Byte.openSquare) {error : LookupError}
    (hitems : Token.elementsOf path.last.key value = .error error) :
    (∀ i, (path.select (.index i)).get doc = .error error) ∧
    ∀ l r, (path.select (.range l r)).get doc = .error error := by
  constructor
  · intro i
    rw [index_get hplain harrives hopen, Token.elementOf, hitems]
    rfl
  · intro l r
    rw [range_get hplain harrives hopen, Token.rangeOf, hitems]
    rfl

theorem spans_of_elementsOf (hopen : value.head? = some Byte.openSquare) {offset : Nat}
    {back : Bytes} (hdoc : doc.drop offset = value ++ back) {key : String} {items : List Element}
    (hitems : Token.elementsOf key value = .ok items) :
    Spans doc (offset + 1) (items.map (spanBefore (offset + value.length))) := by
  cases value with
  | nil => cases hopen
  | cons b rest =>
    have hrest := (@extract_of_drop _ [b] _ _ hdoc).2
    have hspans := (Token.elementsOf_eq_ok hitems).spans hrest
    rwa [Nat.add_assoc, Nat.add_comm [b].length] at hspans

/-- The program for the path ends with what the path selects, with all sums of
positions, counts and bounds checked to fit 64 bits. -/
def RunsOn (path : Path) (doc : Bytes) : Prop :=
  Checked.getValue path.head path.tail doc = Checked.done (path.get doc)

/-- **Length, index and range agree.** Let a path end in a member token and come
to an array in a document. If the number of its elements is not to be had, no
selection from it is, for the same reason. Otherwise the number is that of
certain values that stand between separators in the document, up to a closing
bracket, and these are what positions and ranges select from, with every bound
of 64 bits. The programs, whose arithmetic has 64 bits, come to the same. -/
theorem length_index_range (path : Path) (hwell : path.WellFormed)
    (hmember : path.last.selector = .member) (doc value : Bytes)
    (hlength : doc.length < Decimal.signedLimit) (harrives : path.ArrivesAt doc value)
    (hopen : value.head? = some Byte.openSquare) :
    (∀ error, (path.append [lengthCall]).get doc = .error error →
      (∀ i, (path.select (.index i)).get doc = .error error) ∧
      ∀ l r, (path.select (.range l r)).get doc = .error error) ∧
    (∀ slice, (path.append [lengthCall]).get doc = .ok slice →
      ∃ offset spans, value <+: doc.drop offset ∧ Spans doc (offset + 1) spans ∧
        path.SelectsFrom doc spans) ∧
    (path.append [lengthCall]).RunsOn doc ∧
    (∀ i, (path.select (.index i)).RunsOn doc) ∧
    ∀ l r, (path.select (.range l r)).RunsOn doc := by
  have hplain : path.Plain := hwell.plain (by rw [Token.isFunction, hmember])
  have hruns : ∀ other : Path, other.RunsOn doc := fun other =>
    Checked.getValue_eq other.head other.tail hlength
  refine ⟨?_, ?_, hruns _, fun i => hruns _, fun l r => hruns _⟩
  · intro error herror
    rw [length_get hplain hmember harrives hopen] at herror
    cases hitems : Token.elementsOf path.last.key value with
    | ok items =>
      rw [hitems] at herror
      cases herror
    | error failure =>
      rw [hitems] at herror
      cases herror
      exact select_of_elementsOf_error hplain harrives hopen hitems
  · intro slice hslice
    rw [length_get hplain hmember harrives hopen] at hslice
    obtain ⟨items, hitems, -⟩ := map_eq_ok_iff.mp hslice
    obtain ⟨start, happroach, hlocate⟩ := bind_eq_ok_iff.mp harrives
    obtain ⟨front, back, rfl⟩ :=
      (Token.locate_value hlocate).1.isInfix.trans (Token.approach_part happroach)
    have hdrop : (front ++ value ++ back).drop front.length = value ++ back := by
      rw [List.append_assoc, List.drop_left]
    refine ⟨front.length, _, ?_, spans_of_elementsOf hopen hdrop hitems,
      selectsFrom_of_elementsOf hplain hmember hlength harrives hopen hdrop hitems⟩
    rw [hdrop]
    exact List.prefix_append value back

/-- An array inside an element, in a document that is no JSON and has no end. -/
theorem length_index_range_nested :
    ∃ offset spans,
      Spans (Bytes.ofString "\x7b\"a\":[0 \x7b\"b\":[x \"y\",,z]!\x7d]") (offset + 1) spans ∧
      SelectsFrom ⟨⟨"$", .member⟩, [⟨"a", .index (-1)⟩, ⟨"b", .member⟩]⟩
        (Bytes.ofString "\x7b\"a\":[0 \x7b\"b\":[x \"y\",,z]!\x7d]") spans ∧
      Checked.getValue ⟨"$", .member⟩ [⟨"a", .index (-1)⟩, ⟨"b", .range (-2) 3⟩]
        (Bytes.ofString "\x7b\"a\":[0 \x7b\"b\":[x \"y\",,z]!\x7d]") =
          Checked.done (.ok (.assembled (Bytes.ofString "[\"y\",,z]"))) := by
  have hwell : Path.WellFormed ⟨⟨"$", .member⟩, [⟨"a", .index (-1)⟩, ⟨"b", .member⟩]⟩ :=
    Path.wellFormed_of_parse (show Path.parse 3 "$.a[-1].b" = _ from rfl)
  have harrives : ArrivesAt ⟨⟨"$", .member⟩, [⟨"a", .index (-1)⟩, ⟨"b", .member⟩]⟩
      (Bytes.ofString "\x7b\"a\":[0 \x7b\"b\":[x \"y\",,z]!\x7d]")
      (Bytes.ofString "[x \"y\",,z]!\x7d") := eq_ok_of_toOption (by decide +kernel)
  obtain ⟨-, hagree, -, -, hruns⟩ := length_index_range _ hwell rfl _ _ (by decide) harrives rfl
  have hnumber : Path.get ⟨⟨"$", .member⟩, [⟨"a", .index (-1)⟩, ⟨"b", .member⟩, lengthCall]⟩
      (Bytes.ofString "\x7b\"a\":[0 \x7b\"b\":[x \"y\",,z]!\x7d]") =
        .ok (.assembled (Bytes.ofString "3")) := eq_ok_of_toOption (by decide +kernel)
  have hrange : Path.get ⟨⟨"$", .member⟩, [⟨"a", .index (-1)⟩, ⟨"b", .range (-2) 3⟩]⟩
      (Bytes.ofString "\x7b\"a\":[0 \x7b\"b\":[x \"y\",,z]!\x7d]") =
        .ok (.assembled (Bytes.ofString "[\"y\",,z]")) := eq_ok_of_toOption (by decide +kernel)
  obtain ⟨offset, spans, -, hspans, hselects⟩ := hagree _ hnumber
  exact ⟨offset, spans, hspans, hselects, (hruns (-2) 3).trans (congrArg Checked.done hrange)⟩

end Path

end RawJson
