/-
Following a path through a text without ever cutting a character in two. The program
here takes every piece that is made on the way, the keys that are compared included, by
its place in the whole document (`Window`), and can make a piece only between
characters: where a cut would fall inside one, it comes to no end. It does come to its
end, for every path and every text, with what the path selects from the bytes of the
text (`follow_ends`). So every result is a text as well.

Nothing is asked of the text but that it is one. What a scan leaves of a text is a text
again, and that is all that a cut needs.
-/
import RawJson.Proofs.Boundary

namespace RawJson

open Bytes Checked

namespace Checked

variable {ε α α' β β' : Type}

/-- A program ends, and what it ends with shows as `shown`. -/
def Ends (program : Checked ε α) (view : α → β) (shown : Except ε β) : Prop :=
  ∃ outcome, program = done outcome ∧ outcome.map view = shown

theorem Ends.done {view : α → β} (outcome : Except ε α) :
    Ends (done outcome) view (outcome.map view) :=
  ⟨outcome, rfl, rfl⟩

theorem Ends.bind {program : Checked ε α} {view : α → β} {shown : Except ε β}
    {next : α → Checked ε α'} {view' : α' → β'} {others : β → Except ε β'}
    (h : Ends program view shown)
    (hnext : ∀ a, shown = .ok (view a) → Ends (next a) view' (others (view a))) :
    Ends (program >>= next) view' (shown.bind others) := by
  obtain ⟨outcome, rfl, rfl⟩ := h
  cases outcome with
  | error error => exact .done _
  | ok a => exact hnext a rfl

theorem Ends.map {program : Checked ε α} {view : α → β} {shown : Except ε β} {f : α → α'}
    {view' : α' → β'} {g : β → β'} (h : Ends program view shown)
    (hview : ∀ a, view' (f a) = g (view a)) :
    Ends (program >>= fun a => pure (f a)) view' (shown.map g) := by
  obtain ⟨outcome, rfl, rfl⟩ := h
  cases outcome with
  | error error => exact .done _
  | ok a => exact ⟨.ok (f a), rfl, congrArg Except.ok (hview a)⟩

end Checked

/-- A piece of a document, from one place between its characters to another. -/
structure Window (text : String) where
  start : text.Pos
  stop : text.Pos
  le : start ≤ stop

namespace Window

variable {text : String} {ε : Type}

/-- The whole document. -/
def whole (text : String) : Window text := ⟨text.startPos, text.endPos, text.startPos.le_endPos⟩

/-- The part of the text that is seen in a window, as bytes. -/
def bytes (window : Window text) : Bytes :=
  (Bytes.ofString text).extract window.start.offset.byteIdx window.stop.offset.byteIdx

/-- An array of the bytes of a window. -/
def arrayOf (window : Window text) : Bytes :=
  Byte.openSquare :: (window.bytes ++ [Byte.closeSquare])

/-- The place at an offset, if it is between characters. -/
def placeAt (text : String) (i : Nat) : Checked ε text.Pos :=
  ofOption (if h : (⟨i⟩ : String.Pos.Raw).IsValid text then some ⟨⟨i⟩, h⟩ else none)

/-- The part of a window from where `first`, the end of its bytes, starts up to where
`last` does. -/
def cut (window : Window text) (first last : Bytes) : Checked ε (Window text) := do
  let start ← placeAt text (window.stop.offset.byteIdx - first.length)
  let stop ← placeAt text (window.stop.offset.byteIdx - last.length)
  ofOption (if h : start ≤ stop then some ⟨start, stop, h⟩ else none)

theorem placeAt_eq {i : Nat} (h : (⟨i⟩ : String.Pos.Raw).IsValid text) :
    (placeAt text i : Checked ε text.Pos) = done (.ok ⟨⟨i⟩, h⟩) := by
  rw [placeAt, dif_pos h]
  rfl

@[simp] theorem bytes_whole (text : String) : (whole text).bytes = Bytes.ofString text := by
  have hstop : (whole text).stop.offset.byteIdx = (Bytes.ofString text).length := by
    rw [length_ofString, ← byteIdx_rawEndPos]
    rfl
  rw [bytes, hstop, List.extract_eq_take_drop]
  exact List.take_length

theorem offset_le (place : text.Pos) : place.offset.byteIdx ≤ (Bytes.ofString text).length := by
  have hend := String.Pos.Raw.le_iff.mp (String.Pos.le_iff.mp place.le_endPos)
  rwa [String.offset_endPos, byteIdx_rawEndPos, ← length_ofString] at hend

/-- From any place between characters on there is a text. -/
theorem isText_drop (place : text.Pos) :
    IsText ((Bytes.ofString text).drop place.offset.byteIdx) := by
  have htake := List.length_take_of_le (offset_le place)
  refine (isText_of_isValid (List.take_append_drop place.offset.byteIdx _).symm ?_).2
  rw [htake]
  exact place.isValid

theorem exists_around (window : Window text) :
    ∃ front back, Bytes.ofString text = front ++ (window.bytes ++ back) ∧
      window.stop.offset.byteIdx = front.length + window.bytes.length ∧
      IsText window.bytes ∧ IsText back := by
  have hle := String.Pos.Raw.le_iff.mp (String.Pos.le_iff.mp window.le)
  have hstop := offset_le window.stop
  have hstart := isText_drop window.start
  have hback := isText_drop window.stop
  have hdrop : (Bytes.ofString text).drop window.start.offset.byteIdx =
      window.bytes ++ (Bytes.ofString text).drop window.stop.offset.byteIdx := by
    have hbytes := List.take_append_drop (window.stop.offset.byteIdx - window.start.offset.byteIdx)
      ((Bytes.ofString text).drop window.start.offset.byteIdx)
    rwa [List.drop_drop, Nat.add_sub_cancel' hle, ← List.extract_eq_take_drop, eq_comm] at hbytes
  refine ⟨(Bytes.ofString text).take window.start.offset.byteIdx, _, ?_, ?_, ?_, hback⟩
  · rw [← hdrop, List.take_append_drop]
  · rw [List.length_take_of_le (Nat.le_trans hle hstop), bytes, List.extract_eq_take_drop,
      List.length_take_of_le (by rw [List.length_drop]; omega), Nat.add_sub_cancel' hle]
  · rw [hdrop] at hstart
    exact (hstart.split hback.isFirst).1

theorem isText (window : Window text) : IsText window.bytes := by
  obtain ⟨-, -, -, -, h, -⟩ := window.exists_around
  exact h

/-- **Windows are cut where texts start.** -/
theorem cut_eq (window : Window text) {first last : Bytes} (hfirst : first <:+ window.bytes)
    (hlast : last <:+ first) (hfirstText : IsText first) (hlastText : IsText last) :
    ∃ part : Window text, part.bytes = Bytes.upTo first last ∧
      ∀ {ε : Type}, (window.cut first last : Checked ε (Window text)) = done (.ok part) := by
  obtain ⟨front, back, htext, hstop, -, hback⟩ := window.exists_around
  obtain ⟨before, hbefore⟩ := hfirst
  obtain ⟨piece, rfl⟩ := hlast
  rw [← hbefore, List.append_assoc before, ← List.append_assoc front] at htext
  rw [← hbefore, List.length_append, ← Nat.add_assoc, ← List.length_append] at hstop
  have hstart : (⟨(front ++ before).length⟩ : String.Pos.Raw).IsValid text :=
    isValid_of_isFirst htext (hfirstText.append hback).isFirst
  have hend : (⟨(front ++ before ++ piece).length⟩ : String.Pos.Raw).IsValid text := by
    rw [List.append_assoc piece, ← List.append_assoc] at htext
    exact isValid_of_isFirst htext (hlastText.append hback).isFirst
  have hlength : (front ++ before ++ piece).length = (front ++ before).length + piece.length :=
    List.length_append
  have hle : (⟨_, hstart⟩ : text.Pos) ≤ ⟨_, hend⟩ := Nat.le.intro hlength.symm
  refine ⟨⟨⟨_, hstart⟩, ⟨_, hend⟩, hle⟩, ?_, ?_⟩
  · have hwidth : (front ++ before ++ piece).length - (front ++ before).length = piece.length := by
      rw [hlength, Nat.add_sub_cancel_left]
    rw [Bytes.upTo_append, bytes, htext, List.extract_eq_take_drop, List.drop_left]
    dsimp only
    rw [hwidth, List.append_assoc, List.take_left]
  · intro ε
    have hfrom : window.stop.offset.byteIdx - (piece ++ last).length =
        (front ++ before).length := by
      rw [hstop, Nat.add_sub_cancel]
    have hto : window.stop.offset.byteIdx - last.length = (front ++ before ++ piece).length := by
      have hrest : (piece ++ last).length = piece.length + last.length := List.length_append
      rw [hstop, hlength, hrest, ← Nat.add_assoc, Nat.add_sub_cancel]
    rw [cut, hfrom, hto, placeAt_eq hstart, done_ok_bind, placeAt_eq hend, done_ok_bind,
      dif_pos hle]
    rfl

theorem cut_nil (window : Window text) {rest : Bytes} (hrest : rest <:+ window.bytes)
    (h : IsText rest) : ∃ part : Window text, part.bytes = rest ∧
      ∀ {ε : Type}, (window.cut rest [] : Checked ε (Window text)) = done (.ok part) := by
  obtain ⟨part, hpart, hcut⟩ := window.cut_eq hrest List.nil_suffix h isText_nil
  have hall : Bytes.upTo rest [] = rest := by
    rw [Bytes.upTo, List.length_nil, Nat.sub_zero, List.take_length]
  exact ⟨part, hpart.trans hall, hcut⟩

/-! ## The program -/

/-- The outcome of a scan that is made for a token with `key`. -/
def scanned {α : Type} (key : String) (outcome : Except Fault α) : Checked LookupError α :=
  done (outcome.mapError (.ofFault key))

@[simp] theorem scanned_ok {α : Type} (key : String) (a : α) :
    scanned key (.ok a) = done (.ok a) := rfl

/-- One member of an object: the round ends the loop with the value under the key, or
goes on behind a member with another. -/
def findRound (window : Window text) (key : String) (doc : Bytes) :
    Checked LookupError (Round Bytes Bytes) := do
  let (b, rest) ← scanned key (afterGap doc)
  if b = Byte.closeBrace then throw (.keyNotFound key)
  else if b = Byte.quote then
    match splitString rest with
    | none => throw (.unexpectedEnd .string)
    | some (_, beyond) =>
      let found ← window.cut rest (Byte.quote :: beyond)
      let value ← scanned key (afterColon beyond)
      if found.bytes = Bytes.ofString key then return .ended value
      else
        let rest ← scanned key (afterValue value)
        return .onward rest
  else throw (.unexpectedByte b .objectKey)

/-- The window from the value under a key on. -/
noncomputable def findKey (window : Window text) (key : String) :
    Checked LookupError (Window text) := do
  if window.bytes.head? = some Byte.openBrace then
    let value ← loop (findRound window key) window.bytes.tail
    window.cut value []
  else throw (.expectedObject key)

/-- The window from the value under a token on, wherever in front of its container it
starts. -/
noncomputable def locate (key : String) (window : Window text) :
    Checked LookupError (Window text) := do
  let (b, rest) ← scanned key (afterGap window.bytes)
  let window ← window.cut (b :: rest) []
  if b ≠ Byte.openBrace ∧ b ≠ Byte.openSquare then throw (.expectedContainer key)
  else if Token.IsRootKey key then return window
  else findKey window key

/-- The window on the value under a token, if the token can be used on it. -/
noncomputable def enter (token : Token) (following : List Token) (window : Window text) :
    Checked LookupError (Window text) := do
  let window ← locate token.key window
  done (token.checkShape following window.bytes)
  return window

/-- The window on the element at `position`. -/
def element (key : String) (position : Int64) (window : Window text) :
    Checked LookupError (Window text) := do
  let items ← done (Token.elementsOf key window.bytes)
  match Element.at? items position with
  | none => throw (.indexOutOfRange key position none items.length)
  | some element => window.cut element.start element.stop

/-- The window on the elements from `left` up to `right` and the gaps between them. -/
def range (key : String) (left right : Int64) (window : Window text) :
    Checked LookupError (Window text) := do
  let items ← done (Token.elementsOf key window.bytes)
  match Element.window items left right with
  | none => throw (.indexOutOfRange key left (some right) items.length)
  | some (first, last) => window.cut first.start last.stop

/-- The window cut down to the element at a position, for a token that has one. -/
def narrow (token : Token) (window : Window text) : Checked LookupError (Window text) :=
  match token.selector with
  | .index position => element token.key position window
  | _ => return window

end Window

/-- What a path selects from a text: a piece of it, an array of a piece of it, or a
number. -/
inductive Cutting (text : String) where
  | piece (window : Window text)
  | array (window : Window text)
  | number (n : Nat)

/-- The result that a cutting stands for. -/
def Cutting.slice {text : String} : Cutting text → Slice
  | .piece window => .verbatim window.bytes
  | .array window => .assembled window.arrayOf
  | .number n => .assembled (Bytes.ofString n.repr)

namespace Window

variable {text : String}

/-- What the last token of a path selects. -/
def result (token : Token) (window : Window text) : Checked LookupError (Cutting text) :=
  match token.selector with
  | .index position => do
    let piece ← element token.key position window
    return .piece piece
  | .range left right => do
    let piece ← range token.key left right window
    return .array piece
  | _ => do
    let rest ← scanned token.key (afterValue window.bytes)
    let piece ← window.cut window.bytes rest
    return .piece piece

/-- What a chain of tokens selects from a window. -/
noncomputable def follow (token : Token) :
    List Token → Window text → Checked LookupError (Cutting text)
  | [], window => do
    let window ← enter token [] window
    result token window
  | next :: following, window => do
    let window ← enter token (next :: following) window
    let window ← narrow token window
    match next.selector with
    | .function function =>
      let n ← done ((function.measure window.bytes).mapError (.ofFailure token.key function))
      return .number n
    | _ => follow next following window

/-! ## Outcomes -/

/-- What a round comes to at a member. -/
def roundOf (key : String) : Option Member → Except LookupError (Round Bytes Bytes)
  | none => .error (.keyNotFound key)
  | some member =>
    if member.key = Bytes.ofString key then .ok (.ended member.value)
    else ((afterValue member.value).mapError (.ofFault key)).map .onward

theorem findRound_eq (window : Window text) (key : String) {doc : Bytes}
    (hdoc : doc <:+ window.bytes) (h : IsText doc) :
    findRound window key doc =
      done (((Member.next doc).mapError (.ofFault key)).bind (roundOf key)) := by
  rw [findRound, member_next]
  cases hgap : afterGap doc with
  | error fault => rfl
  | ok next =>
    obtain ⟨b, rest⟩ := next
    have hrest := (afterGap_suffix hgap).trans hdoc
    rw [scanned_ok, done_ok_bind]
    dsimp only
    split
    · rfl
    split
    · next hb =>
      have hrestText := (h.afterGap hgap).tail (by rw [hb]; decide)
      cases hsplit : splitString rest with
      | none => rfl
      | some split =>
        obtain ⟨body, beyond⟩ := split
        obtain ⟨-, hquote, hbeyond⟩ := hrestText.splitString hsplit
        obtain ⟨-, rfl⟩ := splitString_eq_some_iff.mp hsplit
        obtain ⟨found, hfound, hcut⟩ :=
          window.cut_eq (suffix_of_cons hrest) (List.suffix_append ..) hrestText hquote
        rw [Bytes.upTo_append] at hfound
        dsimp only
        rw [hcut, done_ok_bind, hfound]
        cases hcolon : afterColon beyond with
        | error fault => rfl
        | ok value =>
          rw [scanned_ok, done_ok_bind]
          dsimp only [Except.map, Except.mapError, Except.bind, roundOf]
          split
          · rfl
          · cases afterValue value <;> rfl
    · rfl

/-- The loop over the members of an object ends with what a lookup of the key finds. -/
theorem loop_findRound_eq (window : Window text) (key : String) {doc : Bytes}
    (hdoc : doc <:+ window.bytes) (h : IsText doc) :
    loop (findRound window key) doc =
      done (Token.found key (Member.find (Bytes.ofString key) doc)) := by
  rw [loop_eq, findRound_eq window key hdoc h, Member.find_eq]
  cases hnext : Member.next doc with
  | error fault => rfl
  | ok member? =>
    cases member? with
    | none => rfl
    | some member =>
      have hvalue := (Member.next_value hnext).1.trans hdoc
      dsimp only [mapError_ok, Except.bind, roundOf]
      by_cases hkey : member.key = Bytes.ofString key
      · rw [if_pos hkey, if_pos hkey]
        rfl
      · rw [if_neg hkey, if_neg hkey]
        cases hrest : afterValue member.value with
        | error fault => rfl
        | ok rest =>
          exact loop_findRound_eq window key ((afterValue_suffix hrest).trans hvalue)
            ((Member.isText_next h hnext).afterValue hrest)
termination_by doc.length
decreasing_by exact Nat.lt_trans (afterValue_length hrest) (Member.next_length hnext)

theorem findKey_ends (window : Window text) (key : String) {rest : Bytes}
    (hwindow : window.bytes = Byte.openBrace :: rest) :
    Ends (findKey window key) bytes (Token.found key (Member.find (Bytes.ofString key) rest)) := by
  have hrest : rest <:+ window.bytes := hwindow ▸ List.suffix_cons ..
  have htext : IsText rest := (hwindow ▸ window.isText).tail (by decide)
  rw [findKey, hwindow, List.head?_cons, if_pos rfl, List.tail_cons,
    loop_findRound_eq window key hrest htext]
  rcases hfind : Member.find (Bytes.ofString key) rest with fault | _ | value
  · exact .done _
  · exact .done _
  · obtain ⟨part, hpart, hcut⟩ := window.cut_nil ((Member.find_value hfind).1.trans hrest)
      (Member.isText_find htext hfind)
    exact ⟨.ok part, hcut, congrArg Except.ok hpart⟩

theorem locate_ends (key : String) (window : Window text) :
    Ends (locate key window) bytes (Token.locate key window.bytes) := by
  rw [locate, Token.locate]
  cases hgap : afterGap window.bytes with
  | error fault => exact .done _
  | ok next =>
    obtain ⟨b, rest⟩ := next
    obtain ⟨inner, hinner, hcut⟩ :=
      window.cut_nil (afterGap_suffix hgap) (window.isText.afterGap hgap)
    rw [scanned_ok, done_ok_bind]
    dsimp only
    rw [hcut, done_ok_bind]
    split
    · exact .done _
    split
    · exact ⟨.ok inner, rfl, congrArg Except.ok hinner⟩
    split
    · next hb =>
      rw [findKey, hinner, List.head?_cons, if_neg fun h => hb (Option.some.inj h)]
      exact .done _
    · next hb =>
      obtain rfl : b = Byte.openBrace := Decidable.not_not.mp hb
      have hfound := findKey_ends inner key hinner
      generalize Member.find (Bytes.ofString key) rest = lookup at hfound ⊢
      rcases lookup with fault | _ | value <;> exact hfound

theorem enter_ends (token : Token) (following : List Token) (window : Window text) :
    Ends (enter token following window) bytes (token.enter following window.bytes) := by
  rw [Token.enter_eq_bind]
  refine (locate_ends token.key window).bind fun inner _ => ?_
  cases token.checkShape following inner.bytes with
  | error error => exact .done _
  | ok => exact ⟨.ok inner, rfl, rfl⟩

theorem isText_elements (window : Window text) (h : window.bytes.head? = some Byte.openSquare) :
    IsText window.bytes.tail := by
  obtain ⟨rest, hrest⟩ := List.head?_eq_some_iff.mp h
  have htext := window.isText
  rw [hrest] at htext ⊢
  exact htext.tail (by decide)

theorem element_ends (key : String) (position : Int64) (window : Window text)
    (h : window.bytes.head? = some Byte.openSquare) :
    Ends (element key position window) bytes (Token.elementOf key position window.bytes) := by
  rw [element, Token.elementOf]
  cases hitems : Token.elementsOf key window.bytes with
  | error error => exact .done _
  | ok items =>
    have hlists := Token.elementsOf_eq_ok hitems
    rw [done_ok_bind]
    dsimp only
    cases hat : Element.at? items position with
    | none => exact .done _
    | some element =>
      have hmem := Element.mem_of_at? hat
      obtain ⟨hstart, hstop⟩ := hlists.suffix hmem
      obtain ⟨hstartText, hstopText⟩ := hlists.isText (window.isText_elements h) _ hmem
      obtain ⟨part, hpart, hcut⟩ := window.cut_eq (hstart.trans (List.tail_suffix _)) hstop
        hstartText hstopText
      exact ⟨.ok part, hcut, congrArg Except.ok hpart⟩

theorem range_ends (key : String) (left right : Int64) (window : Window text)
    (h : window.bytes.head? = some Byte.openSquare) :
    Ends (range key left right window) arrayOf (Token.rangeOf key left right window.bytes) := by
  rw [range, Token.rangeOf]
  cases hitems : Token.elementsOf key window.bytes with
  | error error => exact .done _
  | ok items =>
    have hlists := Token.elementsOf_eq_ok hitems
    have htexts := hlists.isText (window.isText_elements h)
    rw [done_ok_bind]
    dsimp only
    cases hwindow : Element.window items left right with
    | none => exact .done _
    | some ends =>
      obtain ⟨first, last⟩ := ends
      obtain ⟨hfirst, hlast, hstop⟩ := hlists.window hwindow
      obtain ⟨part, hpart, hcut⟩ := window.cut_eq
        ((hlists.suffix hfirst).1.trans (List.tail_suffix _)) hstop (htexts _ hfirst).1
        (htexts _ hlast).2
      refine ⟨.ok part, hcut, congrArg Except.ok ?_⟩
      rw [arrayOf, hpart]
      rfl

theorem openSquare_of_enter {token : Token} {following : List Token} {doc value : Bytes}
    (h : token.enter following doc = .ok value) (harray : token.isArray = true) :
    value.head? = some Byte.openSquare :=
  openSquare_of_checkShape (Token.enter_eq_ok_iff.mp h).2 harray

theorem narrow_ends {token : Token} {window : Window text}
    (h : token.isArray = true → window.bytes.head? = some Byte.openSquare) :
    Ends (narrow token window) bytes (token.narrow window.bytes) := by
  obtain ⟨key, selector⟩ := token
  cases selector with
  | index position => exact element_ends key position window (h rfl)
  | member | range | function => exact .done (.ok window)

theorem result_ends {token : Token} {window : Window text}
    (h : token.isArray = true → window.bytes.head? = some Byte.openSquare) :
    Ends (result token window) Cutting.slice (token.result window.bytes) := by
  have hvalue : Ends (result ⟨token.key, .member⟩ window) Cutting.slice
      ((Token.valueText token.key window.bytes).map .verbatim) := by
    unfold result Token.valueText
    cases hvalue : afterValue window.bytes with
    | error fault => exact .done _
    | ok rest =>
      obtain ⟨part, hpart, hcut⟩ := window.cut_eq (List.suffix_refl _) (afterValue_suffix hvalue)
        window.isText (window.isText.afterValue hvalue)
      dsimp only
      rw [scanned_ok, done_ok_bind, hcut, done_ok_bind, ← hpart]
      exact .done (.ok (Cutting.piece part))
  obtain ⟨key, selector⟩ := token
  cases selector with
  | index position => exact (element_ends key position window (h rfl)).map fun _ => rfl
  | range left right => exact (range_ends key left right window (h rfl)).map fun _ => rfl
  | member | function => exact hvalue

/-- **The program ends with what the path selects.** -/
theorem follow_ends (token : Token) (following : List Token) (window : Window text) :
    Ends (follow token following window) Cutting.slice (token.follow following window.bytes) := by
  induction following generalizing token window with
  | nil =>
    rw [follow, Token.follow_nil]
    exact (enter_ends token [] window).bind fun inner hinner =>
      result_ends (openSquare_of_enter hinner)
  | cons next following ih =>
    rw [follow, Token.follow_eq_resume, Token.descend, bind_bind]
    refine (enter_ends token (next :: following) window).bind fun inner hinner => ?_
    refine (narrow_ends (openSquare_of_enter hinner)).bind fun part _ => ?_
    obtain ⟨key, selector⟩ := next
    cases selector with
    | function function =>
      unfold Token.resume Function.call
      dsimp only
      cases function.measure part.bytes with
      | error failure => exact .done _
      | ok n => exact .done (.ok (Cutting.number n))
    | member | index | range => exact ih _ part

end Window

/-! ## Paths -/

theorem Cutting.isText {text : String} (cutting : Cutting text) : IsText cutting.slice.bytes := by
  cases cutting with
  | piece window => exact window.isText
  | array window =>
    have hopening : IsText [Byte.openSquare] := isText_ofString "["
    have hclosing : IsText [Byte.closeSquare] := isText_ofString "]"
    exact hopening.append (window.isText.append hclosing)
  | number n => exact isText_ofString n.repr

/-- **What a path selects from a text is a text.** Let any path be followed through any
text, a document or not. Whatever is cut out on the way is cut between characters of
the text: the program that can cut nowhere else comes to its end, with what the path
selects. So the bytes of a result, a piece of the text or made from it, are those of a
string. -/
theorem Path.get_text (path : Path) (text : String) :
    (∃ outcome, Window.follow path.head path.tail (Window.whole text) = done outcome ∧
      outcome.map Cutting.slice = path.get (Bytes.ofString text)) ∧
    ∀ slice, path.get (Bytes.ofString text) = .ok slice → IsText slice.bytes := by
  have hends := Window.follow_ends path.head path.tail (Window.whole text)
  rw [Window.bytes_whole] at hends
  refine ⟨hends, fun slice hslice => ?_⟩
  obtain ⟨outcome, -, hshown⟩ := hends
  obtain ⟨cutting, -, rfl⟩ := map_eq_ok_iff.mp (hshown.trans hslice)
  exact cutting.isText

/-- A backslash in front of a longer character, in a key and in a value of an object
without an end. -/
theorem Path.get_text_backslash :
    ∃ slice, Path.get ⟨⟨"$", .member⟩, [⟨"ß\\é", .index 1⟩]⟩
        (Bytes.ofString "\x7b\"\\é\": €, \"ß\\é\": [€, \"\\€\" ]") = .ok slice ∧
      IsText slice.bytes :=
  have hget : Path.get ⟨⟨"$", .member⟩, [⟨"ß\\é", .index 1⟩]⟩
      (Bytes.ofString "\x7b\"\\é\": €, \"ß\\é\": [€, \"\\€\" ]") =
        .ok (.verbatim (Bytes.ofString "\"\\€\"")) := by decide +kernel
  ⟨_, hget, (get_text _ _).2 _ hget⟩

end RawJson
