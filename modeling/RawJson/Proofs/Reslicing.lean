/-
Ranges of ranges. A range is an array of its own: the text from the first of its
elements to the last, and brackets around it. The last element, which a separator
or the end of the array delimited where it was found, stands in front of the new
bracket now, and all others stand in front of what they stood in front of before;
so the elements of the new array are the selected ones, with the same texts and
the same text between any two (`Element.Lists.list_arrayOf`). No more is asked of the
document, whose brackets may cross in an element.

The new array as a whole is another matter. Only in a document that is JSON are
the brackets inside its elements balanced, and then it is JSON itself.
-/
import RawJson.Proofs.Composition
import RawJson.Proofs.Selection
import RawJson.Proofs.Strict

namespace RawJson

/-! ## Elements of a range -/

theorem Bytes.upTo_append_of_suffix {rest last : Bytes} (h : last <:+ rest) (text : Bytes) :
    upTo (text ++ rest) last = text ++ upTo rest last := by
  obtain ⟨front, rfl⟩ := h
  rw [upTo_append, ← List.append_assoc, upTo_append]

/-- What a bare scalar has behind it delimits it also if a bracket takes the place of
a part of that. -/
theorem Delimited.closed {rest last : Bytes} (h : Delimited rest) (hlast : last <:+ rest) :
    Delimited (Bytes.upTo rest last ++ [Byte.closeSquare]) := by
  obtain ⟨front, rfl⟩ := hlast
  rw [Bytes.upTo_append]
  cases front with
  | nil => exact delimited_cons.mpr rfl
  | cons b front => exact delimited_cons.mpr (delimited_cons.mp h)

namespace Element

/-- An element in front of a bracket that stands where `last` stood before. -/
def closedAt (last : Bytes) (element : Element) : Element :=
  ⟨Bytes.upTo element.start last ++ [Byte.closeSquare],
    Bytes.upTo element.stop last ++ [Byte.closeSquare]⟩

theorem upTo_closedAt {beyond : Bytes} {first last : Element} (hlast : last.stop <:+ first.start)
    (hbeyond : beyond <:+ last.stop) :
    Bytes.upTo (first.closedAt beyond).start (last.closedAt beyond).stop =
      Bytes.upTo first.start last.stop := by
  obtain ⟨text, htext⟩ := hlast
  obtain ⟨more, hmore⟩ := hbeyond
  unfold closedAt
  dsimp only
  rw [← htext, Bytes.upTo_append, ← hmore, Bytes.upTo_append, ← List.append_assoc,
    Bytes.upTo_append, List.append_assoc, Bytes.upTo_append]

theorem Lists.from_start {doc : Bytes} {items : List Element} (h : Lists doc items) {i : Nat}
    {first : Element} (hfirst : items[i]? = some first) : Lists first.start (items.drop i) := by
  induction h generalizing i with
  | nil => cases hfirst
  | @cons doc element items hnext hothers ih =>
    cases i with
    | zero =>
      cases hfirst
      obtain ⟨-, text, rest, -, hvalue, hd, rfl, rfl⟩ := next_eq_some_iff.mp hnext
      have hfront : next (text ++ rest) = .ok (some ⟨text ++ rest, rest⟩) :=
        next_eq_some_iff.mpr ⟨[], text, rest, nofun, hvalue, hd, rfl, rfl⟩
      exact .cons hfront hothers
    | succ i => exact ih hfirst

/-- The next element is found also in front of a bracket further on. -/
theorem next_closed {doc last : Bytes} {element : Element}
    (h : next doc = .ok (some element)) (hlast : last <:+ element.stop) :
    next (Bytes.upTo doc last ++ [Byte.closeSquare]) = .ok (some (element.closedAt last)) := by
  obtain ⟨gap, text, rest, hsep, hvalue, hd, rfl, rfl⟩ := next_eq_some_iff.mp h
  have hstart : last <:+ text ++ rest := hlast.trans (List.suffix_append text rest)
  refine next_eq_some_iff.mpr ⟨gap, text, Bytes.upTo rest last ++ [Byte.closeSquare], hsep, hvalue,
    fun hruns => (hd hruns).closed hlast, ?_, ?_⟩
  · rw [Bytes.upTo_append_of_suffix hstart, Bytes.upTo_append_of_suffix hlast, List.append_assoc,
      List.append_assoc]
  · rw [closedAt]
    dsimp only
    rw [Bytes.upTo_append_of_suffix hlast, List.append_assoc]

theorem Lists.closed {doc : Bytes} {items : List Element} (h : Lists doc items) {n : Nat}
    {last : Element} (hlast : items[n]? = some last) :
    Lists (Bytes.upTo doc last.stop ++ [Byte.closeSquare])
      ((items.take (n + 1)).map (closedAt last.stop)) := by
  induction h generalizing n with
  | nil => cases hlast
  | @cons doc element items hnext hothers ih =>
    rw [List.take_succ_cons, List.map_cons]
    cases n with
    | zero =>
      cases hlast
      have hstop : (last.closedAt last.stop).stop = [Byte.closeSquare] :=
        congrArg (· ++ [Byte.closeSquare]) (Bytes.upTo_append [] last.stop)
      refine .cons (next_closed hnext (List.suffix_refl _)) ?_
      rw [hstop]
      exact .nil rfl
    | succ n =>
      obtain ⟨hstart, hstop⟩ := hothers.suffix (List.mem_of_getElem? hlast)
      exact .cons (next_closed hnext (hstop.trans hstart)) (ih hlast)

/-- **The elements of a range** are the selected ones, in front of the new bracket. -/
theorem Lists.list_arrayOf {doc : Bytes} {items : List Element} (h : Lists doc items) {i j : Nat}
    (hle : i ≤ j) {first last : Element} (hfirst : items[i]? = some first)
    (hlast : items[j]? = some last) :
    list (arrayOf first last).tail =
      .ok (((items.drop i).take (j - i + 1)).map (closedAt last.stop)) := by
  have hlast' : (items.drop i)[j - i]? = some last := by
    rw [List.getElem?_drop, Nat.add_sub_of_le hle, hlast]
  exact list_eq_ok_iff.mpr ((h.from_start hfirst).closed hlast')

end Element

/-! ## Bounds within reach -/

theorem place?_of_toInt {count n : Nat} {position : Int64} (hposition : position.toInt = n)
    (hn : n < count) : place? count position = some n := by
  unfold place?
  rw [hposition]
  dsimp only
  rw [if_neg (by omega), Int.natAbs_natCast, if_pos hn]

theorem places?_of_toInt {count i j : Nat} {left right : Int64} (hleft : left.toInt = i)
    (hright : right.toInt = j + 1) (hle : i ≤ j) (hj : j < count) :
    places? count left right = some (i, j) := by
  have hlimit : limit? count right = some (j + 1) := by
    unfold limit?
    rw [hright]
    dsimp only
    rw [if_neg (by omega), if_pos (by omega), if_neg (by omega)]
    rfl
  unfold places?
  rw [place?_of_toInt hleft (by omega), hlimit]
  dsimp only
  rw [if_pos (by omega), Nat.add_sub_cancel]

namespace Token

theorem rangeOf_eq_ok {key : String} {left right : Int64} {array text : Bytes}
    (h : rangeOf key left right array = .ok text) :
    ∃ items i j first last, elementsOf key array = .ok items ∧
      places? items.length left right = some (i, j) ∧ items[i]? = some first ∧
      items[j]? = some last ∧ text = Element.arrayOf first last := by
  unfold rangeOf at h
  split at h
  · cases h
  next items hitems =>
  rw [window_eq_places?] at h
  cases hplaces : places? items.length left right with
  | none =>
    rw [hplaces] at h
    cases h
  | some places =>
    obtain ⟨i, j⟩ := places
    obtain ⟨hle, hj⟩ := Checked.places?_lt hplaces
    have hfirst := List.getElem?_eq_getElem (Nat.lt_of_le_of_lt hle hj)
    have hlast := List.getElem?_eq_getElem hj
    rw [hplaces, Option.bind_some] at h
    dsimp only at h
    rw [hfirst, hlast] at h
    cases h
    exact ⟨items, i, j, _, _, hitems, hplaces, hfirst, hlast, rfl⟩

section Reslicing

variable {key : String} {array : Bytes} {items : List Element} {i j : Nat}
  {first last : Element} (hitems : elementsOf key array = .ok items) (hle : i ≤ j)
  (hfirst : items[i]? = some first) (hlast : items[j]? = some last)

include hle hlast

theorem length_arrayOf :
    (((items.drop i).take (j - i + 1)).map (Element.closedAt last.stop)).length = j - i + 1 := by
  obtain ⟨hj, -⟩ := List.getElem?_eq_some_iff.mp hlast
  rw [List.length_map, List.length_take, List.length_drop]
  omega

include hitems

/-- Every place of the range is one of the array, moved up to where the range begins. -/
theorem exists_element {n : Nat} (hn : n < j - i + 1) :
    ∃ element, items[i + n]? = some element ∧
      (((items.drop i).take (j - i + 1)).map (Element.closedAt last.stop))[n]? =
        some (element.closedAt last.stop) ∧
      last.stop <:+ element.stop := by
  obtain ⟨hj, -⟩ := List.getElem?_eq_some_iff.mp hlast
  have helement := List.getElem?_eq_getElem (show i + n < items.length by omega)
  refine ⟨_, helement, ?_, ?_⟩
  · rw [List.getElem?_map, List.getElem?_take_of_lt hn, List.getElem?_drop, helement]
    rfl
  · exact (elementsOf_eq_ok hitems).stop_suffix_stop (by omega) helement hlast

include hfirst

theorem elementsOf_arrayOf (other : String) : elementsOf other (Element.arrayOf first last) =
    .ok (((items.drop i).take (j - i + 1)).map (Element.closedAt last.stop)) := by
  unfold elementsOf
  rw [(elementsOf_eq_ok hitems).list_arrayOf hle hfirst hlast]

theorem elementOf_arrayOf (other : String) {n : Nat} (hn : n < j - i + 1)
    {position position' : Int64} (hposition : position.toInt = n)
    (hposition' : position'.toInt = i + n) :
    ∃ text, elementOf other position (Element.arrayOf first last) = .ok text ∧
      elementOf key position' array = .ok text := by
  obtain ⟨element, helement, hclosed, hbeyond⟩ := exists_element hitems hle hlast hn
  obtain ⟨hlt, -⟩ := List.getElem?_eq_some_iff.mp helement
  have hinner := elementsOf_arrayOf hitems hle hfirst hlast other
  have hstop := ((elementsOf_eq_ok hitems).suffix (List.mem_of_getElem? helement)).2
  refine ⟨element.text, ?_, Path.elementOf_some hitems (place?_of_toInt hposition' hlt) helement⟩
  rw [Path.elementOf_some hinner (place?_of_toInt hposition ?_) hclosed]
  · exact congrArg Except.ok (Element.upTo_closedAt hstop hbeyond)
  · rw [length_arrayOf hle hlast]
    exact hn

theorem rangeOf_arrayOf (other : String) {m n : Nat} (hmn : m ≤ n) (hn : n < j - i + 1)
    {left right left' right' : Int64} (hleft : left.toInt = m) (hright : right.toInt = n + 1)
    (hleft' : left'.toInt = i + m) (hright' : right'.toInt = i + n + 1) :
    ∃ text, rangeOf other left right (Element.arrayOf first last) = .ok text ∧
      rangeOf key left' right' array = .ok text := by
  obtain ⟨low, hlow, hlow', -⟩ :=
    exists_element hitems hle hlast (Nat.lt_of_le_of_lt hmn hn)
  obtain ⟨high, hhigh, hhigh', hbeyond⟩ := exists_element hitems hle hlast hn
  obtain ⟨hlt, -⟩ := List.getElem?_eq_some_iff.mp hhigh
  have hinner := elementsOf_arrayOf hitems hle hfirst hlast other
  have hstop := (elementsOf_eq_ok hitems).stop_suffix (Nat.add_le_add_left hmn i) hlow hhigh
  have hplaces := places?_of_toInt hleft' hright' (Nat.add_le_add_left hmn i) hlt
  refine ⟨Element.arrayOf low high, ?_, Path.rangeOf_some hitems hplaces hlow hhigh⟩
  rw [Path.rangeOf_some hinner (places?_of_toInt hleft hright hmn ?_) hlow' hhigh']
  · rw [Element.arrayOf, Element.arrayOf, Element.upTo_closedAt hstop hbeyond]
  · rw [length_arrayOf hle hlast]
    exact hn

end Reslicing

end Token

/-! ## Paths -/

namespace Path

/-- The elements of `part` are those that the path gives from `low` up to `high`:
their number, and each position and each range in `part`, moved up by `low`. -/
structure Reslices (path : Path) (doc part : Bytes) (low high : Int) : Prop where
  length : extract "$.length()" part = .ok (.assembled (Bytes.ofString (high - low).toNat.repr))
  index : ∀ j i : Int64, 0 ≤ j.toInt → j.toInt < high - low → i.toInt = low + j.toInt →
    ∃ text, extract ("$[" ++ Decimal.ofInt j.toInt ++ "]") part = .ok (.verbatim text) ∧
      (path.select (.index i)).get doc = .ok (.verbatim text)
  range : ∀ a b l r : Int64, 0 ≤ a.toInt → a.toInt < b.toInt → b.toInt ≤ high - low →
    l.toInt = low + a.toInt → r.toInt = low + b.toInt →
    ∃ text, extract ("$[" ++ Decimal.ofInt a.toInt ++ ":" ++ Decimal.ofInt b.toInt ++ "]") part =
        .ok (.assembled text) ∧
      (path.select (.range l r)).get doc = .ok (.assembled text)

theorem extract_of_compile {text : String} {path : Path}
    (h : Extractor.compile {} text = .ok path) (doc : Bytes) :
    extract text doc = (path.get doc).mapError .lookup := by
  rw [extract, Extractor.extract, h]
  dsimp only
  cases path.get doc <;> rfl

theorem extract_length (doc : Bytes) : extract "$.length()" doc =
    (((fromRoot []).append [lengthCall]).get doc).mapError .lookup :=
  extract_of_compile rfl doc

theorem extract_select {selector : Selector} (hselector : ∀ f, selector ≠ .function f)
    (doc : Bytes) : extract (Token.text ⟨Token.rootKey, selector⟩) doc =
      (((fromRoot []).select selector).get doc).mapError .lookup := by
  have hroot : Token.rootKey.toList.head? = some '$' := by decide
  have hkey : IsKey Token.rootKey.toList := by decide
  have hwell : ((fromRoot []).select selector).WellFormed := by
    refine ⟨hroot, ?_, ?_, nofun⟩
    · cases selector with
      | function function => exact absurd rfl (hselector function)
      | _ => rfl
    · intro token hmem
      obtain rfl := List.mem_singleton.mp hmem
      exact ⟨hkey, fun function h => absurd h (hselector function)⟩
  have hroom : ((fromRoot []).select selector).length ≤ (128 : UInt64).toNat :=
    show 1 ≤ 128 by decide
  have htext : ((fromRoot []).select selector).text = Token.text ⟨Token.rootKey, selector⟩ :=
    String.append_empty
  rw [← htext]
  exact extract_of_compile (hwell.parse_text hroom) doc

theorem extract_index (position : Int64) (doc : Bytes) :
    extract ("$[" ++ Decimal.ofInt position.toInt ++ "]") doc =
      (((fromRoot []).select (.index position)).get doc).mapError .lookup := by
  have htext : "$[" ++ Decimal.ofInt position.toInt ++ "]" =
      Token.text ⟨Token.rootKey, .index position⟩ := rfl
  rw [htext]
  exact @extract_select (.index position) nofun doc

theorem extract_range (left : Int64) {right : Int64} (hright : right ≠ 0) (doc : Bytes) :
    extract ("$[" ++ Decimal.ofInt left.toInt ++ ":" ++ Decimal.ofInt right.toInt ++ "]") doc =
      (((fromRoot []).select (.range left right)).get doc).mapError .lookup := by
  have htext : "$[" ++ Decimal.ofInt left.toInt ++ ":" ++ Decimal.ofInt right.toInt ++ "]" =
      Token.text ⟨Token.rootKey, .range left right⟩ := (if_neg hright).symm
  rw [htext]
  exact @extract_select (.range left right) nofun doc

/-- A range has the elements of its array between two places. -/
theorem reslices_arrayOf {path : Path} {doc value : Bytes} (hplain : path.Plain)
    (harrives : path.ArrivesAt doc value) (hopen : value.head? = some Byte.openSquare)
    {items : List Element} (hitems : Token.elementsOf path.last.key value = .ok items) {i j : Nat}
    (hle : i ≤ j) {first last : Element} (hfirst : items[i]? = some first)
    (hlast : items[j]? = some last) :
    path.Reslices doc (Element.arrayOf first last) i (j + 1) := by
  have hroot : (fromRoot []).Plain := nofun
  have harrives' : (fromRoot []).ArrivesAt (Element.arrayOf first last)
      (Element.arrayOf first last) := Token.locate_root_opening .square _
  constructor
  · have hlength : ((j + 1 : Int) - i).toNat = j - i + 1 := by omega
    rw [extract_length, length_get hroot rfl harrives' rfl,
      Token.elementsOf_arrayOf hitems hle hfirst hlast _, hlength]
    dsimp only [Except.map, Except.mapError]
    rw [Token.length_arrayOf hle hlast]
  · intro position position' hlow hhigh hposition'
    obtain ⟨n, hn⟩ := Int.eq_ofNat_of_zero_le hlow
    rw [hn] at hhigh hposition'
    obtain ⟨text, htext, htext'⟩ := Token.elementOf_arrayOf hitems hle hfirst hlast
      (fromRoot []).last.key (by omega) hn hposition'
    refine ⟨text, ?_, ?_⟩
    · rw [extract_index, index_get hroot harrives' rfl, htext]
      rfl
    · rw [index_get hplain harrives hopen, htext']
      rfl
  · intro left right left' right' hlow hlt hhigh hleft' hright'
    obtain ⟨m, hm⟩ := Int.eq_ofNat_of_zero_le hlow
    obtain ⟨n, hn⟩ := Int.eq_ofNat_of_zero_le (show 0 ≤ right.toInt - 1 by omega)
    have hn : right.toInt = n + 1 := by omega
    rw [hm, hn] at hlt
    rw [hn] at hhigh hright'
    rw [hm] at hleft'
    have hright : right ≠ 0 := by
      rintro rfl
      rw [Int64.toInt_zero] at hn
      omega
    obtain ⟨text, htext, htext'⟩ := Token.rangeOf_arrayOf hitems hle hfirst hlast
      (fromRoot []).last.key (by omega) (by omega) hm hn hleft'
      (hright'.trans (Int.add_assoc ..).symm)
    refine ⟨text, ?_, ?_⟩
    · rw [extract_range left hright, range_get hroot harrives' rfl, htext]
      rfl
    · rw [range_get hplain harrives hopen, htext']
      rfl

/-! ## Ranges in JSON -/

theorem last_select (path : Path) (selector : Selector) :
    (path.select selector).last = { path.last with selector } := by
  obtain ⟨head, tail⟩ := path
  show (select.go selector head tail).last = _
  induction tail generalizing head with
  | nil => rfl
  | cons next tail ih => exact ih next

theorem Plain.select {path : Path} (h : path.Plain) {selector : Selector}
    (hselector : ∀ f, selector ≠ .function f) : (path.select selector).Plain := by
  obtain ⟨head, tail⟩ := path
  show (select.go selector head tail).Plain
  induction tail generalizing head with
  | nil => exact nofun
  | cons next tail ih =>
    obtain ⟨hnext, htail⟩ := List.forall_mem_cons.mp h
    exact List.forall_mem_cons.mpr ⟨select_go_head hselector tail hnext, ih next htail⟩

end Path

namespace Node

theorem MembersStrict.mem {first : Gap → Prop} : ∀ {members : List (Label × Node)},
    MembersStrict first members → ∀ member ∈ members, member.2.Strict
  | (_, _) :: _, ⟨_, hvalue, hothers⟩, member, hmem => by
    rcases List.mem_cons.mp hmem with rfl | hmem
    · exact hvalue
    · exact hothers.mem member hmem

theorem ElementsStrict.drop {first : Gap → Prop} {gap : Gap} {value : Node}
    {others : List (Gap × Node)} : ∀ {elements : List (Gap × Node)} {n : Nat},
    ElementsStrict first elements → elements.drop n = (gap, value) :: others →
      value.Strict ∧ ElementsStrict Gap.Parts others
  | [], _, _, hdrop => by
    rw [List.drop_nil] at hdrop
    cases hdrop
  | (_, _) :: _, 0, ⟨_, hvalue, hothers⟩, hdrop => by
    cases hdrop
    exact ⟨hvalue, hothers⟩
  | (_, _) :: _, _ + 1, ⟨_, _, hothers⟩, hdrop => hothers.drop hdrop

theorem ElementsStrict.take {first : Gap → Prop} : ∀ {elements : List (Gap × Node)} (n : Nat),
    ElementsStrict first elements → ElementsStrict first (elements.take n)
  | [], _, _ | _ :: _, 0, _ => by simp [ElementsStrict]
  | (_, _) :: _, n + 1, ⟨hgap, hvalue, hothers⟩ => ⟨hgap, hvalue, hothers.take n⟩

theorem inherited_strict : Inherited Strict where
  under := by
    intro key node value h hunder
    cases node with
    | scalar | string => cases hunder
    | array elements closing =>
      rw [under] at hunder
      split at hunder
      · cases hunder
        exact h
      · cases hunder
    | object members closing =>
      rw [under] at hunder
      split at hunder
      · cases hunder
        exact h
      split at hunder
      · cases hunder
      · next member hmember =>
        cases hunder
        exact h.1.mem member (List.mem_of_find?_eq_some hmember)
  narrow := by
    intro token node inner h hnarrow
    unfold narrow at hnarrow
    split at hnarrow
    · next position elements closing _ =>
      unfold element at hnarrow
      split at hnarrow
      · cases hnarrow
      · next gap value hitem =>
        cases hnarrow
        obtain ⟨i, -, hi⟩ := Option.bind_eq_some_iff.mp hitem
        obtain ⟨hlt, helement⟩ := List.getElem?_eq_some_iff.mp hi
        have hdrop := List.drop_eq_getElem_cons hlt
        rw [helement] at hdrop
        exact (h.1.drop hdrop).1
    · cases hnarrow
      exact h

theorem stretch_isJson {key : String} {left right : Int64} {elements : List (Gap × Node)}
    {closing : Gap} {text : Bytes} (h : (array elements closing).Strict)
    (hstretch : stretch key left right elements = .ok text) : IsJson text := by
  unfold stretch at hstretch
  split at hstretch
  · cases hstretch
  next first last _ =>
  cases hstretch
  cases hdrop : (elements.take (last + 1)).drop first with
  | nil => exact .emptyArray isBlank_nil
  | cons element others =>
    obtain ⟨hvalue, hothers⟩ := (h.1.take (last + 1)).drop hdrop
    have helements := isElements isBlank_nil hothers isBlank_nil hvalue.isJson
    rw [List.append_nil, List.nil_append] at helements
    exact .array helements

end Node

namespace Path

theorem range_isJson {path : Path} (hplain : path.Plain) {doc : Bytes} (hdoc : IsDocument doc)
    {l r : Int64} {slice : Slice} (hget : (path.select (.range l r)).get doc = .ok slice) :
    IsJson slice.bytes := by
  obtain ⟨layout, rfl, hstrict⟩ := hdoc.exists_layout
  rw [get_bytes] at hget
  have hselected : (path.select (.range l r)).Plain := hplain.select nofun
  obtain ⟨value, hvalue, hfits, hselect⟩ :=
    Node.walk_last Node.inherited_strict hstrict hselected hget
  change value.fits (path.select (.range l r)).last [] = .ok () at hfits
  change value.select (path.select (.range l r)).last = .ok slice at hselect
  rw [last_select] at hfits hselect
  cases value with
  | array elements closing =>
    obtain ⟨text, hstretch, rfl⟩ := map_eq_ok_iff.mp hselect
    exact Node.stretch_isJson hvalue hstretch
  | scalar | string | object => cases hfits

/-- **Ranges re-slice.** Let a path end in a member token, and let it give a range
of an array in a document, well formed or not. The range lies in the array, and
the array that it comes as has just its elements: from the root of it their number
is read, and each position and each range in it gives, byte for byte, what the
path gives with that position or range moved up by where the range begins. If the
document is JSON, so is the array, and its root key gives it back. -/
theorem range_reslices (path : Path) (hwell : path.WellFormed)
    (hmember : path.last.selector = .member) (doc : Bytes) (l r : Int64) (slice : Slice)
    (hget : (path.select (.range l r)).get doc = .ok slice) :
    (∃ count : Nat, (path.append [lengthCall]).get doc =
        .ok (.assembled (Bytes.ofString count.repr)) ∧
      0 ≤ lowerPlace count l ∧ lowerPlace count l < upperPlace count r ∧
      upperPlace count r ≤ count ∧
      path.Reslices doc slice.bytes (lowerPlace count l) (upperPlace count r)) ∧
    slice.bytes.head? = some Byte.openSquare ∧
    (IsDocument doc → IsJson slice.bytes ∧
      extract "$" slice.bytes = .ok (.verbatim slice.bytes)) := by
  have hplain : path.Plain := hwell.plain (by rw [Token.isFunction, hmember])
  have hselector : ∀ f, Selector.range l r ≠ .function f := by
    intro f h
    cases h
  have hselected := select_get hplain hselector doc
  obtain ⟨start, happroach, hfollow⟩ := bind_eq_ok_iff.mp (hselected.symm.trans hget)
  rw [Token.follow_nil] at hfollow
  obtain ⟨value, henter, hresult⟩ := bind_eq_ok_iff.mp hfollow
  obtain ⟨hlocate, hshape⟩ := Token.enter_eq_ok_iff.mp henter
  have hopen := Checked.openSquare_of_checkShape hshape rfl
  have harrives : path.ArrivesAt doc value := bind_eq_ok_iff.mpr ⟨start, happroach, hlocate⟩
  obtain ⟨text, hrange, rfl⟩ := map_eq_ok_iff.mp hresult
  obtain ⟨items, i, j, first, last, hitems, hplaces, hfirst, hlast, rfl⟩ :=
    Token.rangeOf_eq_ok hrange
  refine ⟨⟨items.length, ?_, ?_⟩, rfl, fun hdoc => ?_⟩
  · rw [length_get hplain hmember harrives hopen, hitems]
    rfl
  · obtain ⟨hle, -⟩ := Checked.places?_lt hplaces
    have hreslices := reslices_arrayOf hplain harrives hopen hitems hle hfirst hlast
    rw [places?_eq_places] at hplaces
    split at hplaces
    · next hwithin =>
      obtain ⟨hlow, hlt, hhigh⟩ := hwithin
      obtain ⟨hi, hj⟩ := Prod.mk.inj (Option.some.inj hplaces)
      have hlower : (i : Int) = lowerPlace items.length l := by omega
      have hupper : (j : Int) + 1 = upperPlace items.length r := by omega
      rw [hlower, hupper] at hreslices
      exact ⟨hlow, hlt, hhigh, hreslices⟩
    · cases hplaces
  · have hjson := range_isJson hplain hdoc hget
    exact ⟨hjson, @extract_root_of_isValue .square _ hjson.isValue rfl⟩

/-- Brackets that cross in an element, which the root key is not meant for, and a
document that is JSON. -/
theorem range_reslices_crossed :
    (∃ count : Nat, (append ⟨⟨"$", .member⟩, [⟨"a", .member⟩]⟩ [lengthCall]).get
        (Bytes.ofString "\x7b\"a\":[\"[\",\x7b]:\x7d ,x]!") =
          .ok (.assembled (Bytes.ofString count.repr)) ∧
      Reslices ⟨⟨"$", .member⟩, [⟨"a", .member⟩]⟩
        (Bytes.ofString "\x7b\"a\":[\"[\",\x7b]:\x7d ,x]!") (Bytes.ofString "[\x7b]:\x7d ,x]")
        (lowerPlace count (-2)) (upperPlace count 0)) ∧
    extract "$" (Bytes.ofString "[\x7b]:\x7d ,x]") = .ok (.verbatim (Bytes.ofString "[\x7b]")) ∧
    IsJson (Bytes.ofString "[2]") ∧
    extract "$" (Bytes.ofString "[2]") = .ok (.verbatim (Bytes.ofString "[2]")) := by
  have hwell (path : Path) (text : String) (h : Path.parse 2 text = .ok path) : path.WellFormed :=
    Path.wellFormed_of_parse h
  have hcrossed : (select ⟨⟨"$", .member⟩, [⟨"a", .member⟩]⟩ (.range (-2) 0)).get
      (Bytes.ofString "\x7b\"a\":[\"[\",\x7b]:\x7d ,x]!") =
        .ok (.assembled (Bytes.ofString "[\x7b]:\x7d ,x]")) := eq_ok_of_toOption (by decide +kernel)
  have hjson : (select ⟨⟨"$", .member⟩, []⟩ (.range 1 0)).get (Bytes.ofString "[1, 2 ]") =
      .ok (.assembled (Bytes.ofString "[2]")) := eq_ok_of_toOption (by decide +kernel)
  have hnumber (b : UInt8) (hb : b ∈ Bytes.ofString "123456789") : IsJson [b] := by
    have hall : ∀ b ∈ Bytes.ofString "123456789",
        b ∈ Bytes.ofString "0123456789" ∧ [b].head? ≠ (Bytes.ofString "0").head? :=
      List.all_iff_forall_prop.mp (by decide)
    obtain ⟨hdigit, hzero⟩ := hall b hb
    have hdigits : IsDigits [b] := ⟨List.cons_ne_nil _ _, List.forall_mem_singleton.mpr hdigit⟩
    exact .number
      (@IsNumber.parts [] [b] [] [] (.head _) (.inr ⟨hdigits, hzero⟩) (.inl rfl) (.inl rfl))
  have hblank : IsBlank [Byte.space] := List.all_iff_forall_prop.mp (by decide)
  have hpair : IsElements ([] ++ ([0x31] ++ ([] ++ Byte.comma :: ([Byte.space] ++ ([0x32] ++
      [Byte.space]))))) := .more isBlank_nil (hnumber 0x31 (by decide)) isBlank_nil
    (.last hblank (hnumber 0x32 (by decide)) hblank)
  have hdoc : IsDocument (Bytes.ofString "[1, 2 ]") :=
    @IsDocument.parts [] (Bytes.ofString "[1, 2 ]") [] isBlank_nil (.array hpair) isBlank_nil
  obtain ⟨⟨count, hcount, -, -, -, hreslices⟩, -, -⟩ :=
    range_reslices _ (hwell ⟨⟨"$", .member⟩, [⟨"a", .member⟩]⟩ "$.a" rfl) rfl _ _ _ _ hcrossed
  obtain ⟨-, -, hvalid⟩ :=
    range_reslices _ (hwell ⟨⟨"$", .member⟩, []⟩ "$" rfl) rfl _ _ _ _ hjson
  exact ⟨⟨count, hcount, hreslices⟩, eq_ok_of_toOption (by decide +kernel), hvalid hdoc⟩

end Path

end RawJson
