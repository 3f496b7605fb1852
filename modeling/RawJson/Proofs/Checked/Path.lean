/-
The reading of a path as a program on its text. One segment is read by a loop
and a few looks at single bytes, all at positions in the part of the text that
starts with the segment; the rest of the text, cut off behind the dot, is the
buffer of the next segment. The program knows how far into the whole text its
part starts, which is all that errors tell.
-/
import RawJson.Proofs.Checked.Text
import RawJson.Proofs.Grammar

namespace RawJson.Checked

noncomputable section

/-! ## Programs -/

/-- Steps over an ASCII character, if its byte stands here. -/
def consume (text : List Char) (c : Char) (i : Nat) : Checked PathError (Bool × Nat) :=
  if peek text i = some c.val.toUInt8 then do
    let i ← add i 1
    return (true, i)
  else return (false, i)

/-- The bytes that end a key. -/
def keyStops : Bytes := [0x2e, 0x5b, 0x28]

/-- The byte is an ASCII digit. -/
def isDigitByte (b : UInt8) : Bool := 0x30 ≤ b && b ≤ 0x39

/-- The number that a sign and digits spell. -/
def parseInt64? : List Char → Option Int64
  | '-' :: digits => Decimal.toInt64? true digits
  | digits => Decimal.toInt64? false digits

/-- An integer, with `none` where nothing of one stands, and `some none` where
what stands is none. -/
def readInt (text : List Char) (start : Nat) :
    Checked PathError (Option (Option Int64) × Nat) := do
  let (_, i) ← consume text '-' start
  let i ← skipText isDigitByte text i
  if i = start then return (none, i)
  else
    let literal ← slice text start i
    return (some (parseInt64? literal), i)

/-- The number from `start` on, if there is one, and where it ends. A literal that is
no number of 64 bits is an error at its start. -/
def readBound (text : List Char) (key : String) (offset start : Nat) :
    Checked PathError (Option Int64 × Nat) := do
  let pos ← add offset start
  let (int?, i) ← readInt text start
  match int? with
  | none => return (none, i)
  | some none => throw (.malformedIndex key pos)
  | some (some bound) => return (some bound, i)

/-- The upper bound of a range, from just past the colon. -/
def readUpperBound (text : List Char) (key : String) (offset i : Nat) :
    Checked PathError (Int64 × Nat) := do
  let pos ← add offset i
  let (right?, i) ← readBound text key offset i
  match right? with
  | none => return (0, i)
  | some right => if right = 0 then throw (.zeroUpperBound key pos) else return (right, i)

/-- The closing bracket of a selection. -/
def readClosing (text : List Char) (key : String) (offset : Nat) (selector : Selector) (i : Nat) :
    Checked PathError (Selector × Nat) := do
  let (closed, i) ← consume text ']' i
  if closed then return (selector, i)
  else
    let pos ← add offset i
    throw (.malformedIndex key pos)

/-- What stands between brackets, from just past the opening one. -/
def readBrackets (text : List Char) (key : String) (offset i : Nat) :
    Checked PathError (Selector × Nat) := do
  let (left?, i) ← readBound text key offset i
  let left := left?.getD 0
  let (range, i) ← consume text ':' i
  if range then
    let (right, i) ← readUpperBound text key offset i
    readClosing text key offset (.range left right) i
  else readClosing text key offset (.index left) i

/-- The dot between two segments. -/
def readDot (text : List Char) (offset : Nat) (token : Token) (i : Nat) :
    Checked PathError (Token × Option Nat) := do
  let (dot, i) ← consume text '.' i
  if dot then return (token, some i)
  else
    let rest ← sliceFrom text i
    let pos ← add offset i
    throw (.expectedDot (rest.head?.getD '\x00') pos)

/-- A function call, from its opening bracket. -/
def readCall (text : List Char) (name : String) (offset i : Nat) :
    Checked PathError (Token × Option Nat) :=
  match Function.ofName? name with
  | none => throw (.unknownFunction name offset)
  | some function => do
    let (_, i) ← consume text '(' i
    let (_, i) ← consume text ')' i
    if isOver text i then return (⟨name, .function function⟩, none)
    else
      let pos ← add offset i
      throw (.functionNotTerminal name pos)

/-- What stands behind a key and is no call. -/
def readSelection (text : List Char) (key : String) (offset i : Nat) :
    Checked PathError (Token × Option Nat) := do
  let (bracket, i) ← consume text '[' i
  if bracket then
    let (selector, i) ← readBrackets text key offset i
    let token : Token := ⟨key, selector⟩
    if isOver text i then return (token, none)
    else if token.isRange then
      let pos ← add offset i
      throw (.indefiniteReference key pos)
    else readDot text offset token i
  else readDot text offset ⟨key, .member⟩ i

/-- One segment and, unless the text ends with it, the position of the next. -/
def readSegment (text : List Char) (offset : Nat) : Checked PathError (Token × Option Nat) := do
  let i ← skipText (fun b => !keyStops.contains b) text 0
  let name ← slice text 0 i
  let key := String.ofList name
  if name.isEmpty then throw (.emptyKey offset)
  else if isOver text i then return (⟨key, .member⟩, none)
  else
    let rest ← sliceFrom text i
    if ['(', ')'].isPrefixOf rest then readCall text key offset i
    else readSelection text key offset i

/-- The segments of a text that starts at `offset` of a whole path, with `depth`
segments before, whose number the limit bounds. -/
def compileSegments (limit : UInt64) (text : List Char) (offset depth : Nat) :
    Checked PathError Path := do
  if _h : limit.toNat ≤ depth then throw (.tooManySegments limit)
  else
    let (token, next?) ← readSegment text offset
    match next? with
    | none => return ⟨token, []⟩
    | some i =>
      let rest ← sliceFrom text i
      let offset ← add offset i
      let _depth ← add depth 1
      let path ← compileSegments limit rest offset (depth + 1)
      return ⟨token, path.tokens⟩
termination_by limit.toNat - depth

/-- The path that a text spells. -/
def compile (limit : UInt64) (text : String) : Checked PathError Path :=
  match text.toList.head? with
  | none => throw .empty
  | some c =>
    if c = '$' then compileSegments limit text.toList 0 0 else throw .missingRoot

end

/-! ## Outcomes -/

/-- The first cursor comes to the second one. -/
def Reaches (start cursor : Cursor) : Prop := ∃ front, start.Reads front cursor

/-- Where a cursor stands in the text that starts at another one. -/
def offsetIn (start cursor : Cursor) : Nat := cursor.pos - start.pos

/-- The whole text ends within bounds. -/
def Fits (start : Cursor) : Prop :=
  start.pos + Bytes.utf8Length start.rest < Decimal.signedLimit

variable {start cursor next : Cursor} {ε : Type}

theorem offsetIn_eq {front : List Char} (h : start.Reads front cursor) :
    offsetIn start cursor = Bytes.utf8Length front := by
  rw [offsetIn, h.pos, Nat.add_sub_cancel_left]

theorem Reaches.refl (start : Cursor) : Reaches start start := ⟨[], .refl start⟩

theorem Reaches.append {text : List Char} (h : Reaches start cursor)
    (h' : cursor.Reads text next) : Reaches start next := by
  obtain ⟨front, hfront⟩ := h
  exact ⟨front ++ text, hfront.append h'⟩

theorem Fits.reaches (hfits : Fits start) (h : Reaches start cursor) : Fits cursor := by
  obtain ⟨front, hrest, hpos⟩ := h
  unfold Fits at hfits ⊢
  rw [hrest, Bytes.utf8Length_append] at hfits
  rw [hpos]
  omega

/-- The offset of a cursor in the whole text is found from its part. -/
theorem add_offsetIn (hfits : Fits start) (h : Reaches start cursor) :
    (add start.pos (offsetIn start cursor) : Checked ε Nat) = done (.ok cursor.pos) := by
  have hbound := hfits.reaches h
  obtain ⟨front, hfront⟩ := h
  have hpos := hfront.pos
  unfold Fits Decimal.signedLimit at hbound
  rw [offsetIn_eq hfront, add_eq (by unfold Decimal.unsignedLimit; omega), ← hpos]

theorem sliceFrom_eq (h : Reaches start cursor) :
    (sliceFrom start.rest (offsetIn start cursor) : Checked ε (List Char)) =
      done (.ok cursor.rest) := by
  obtain ⟨front, hfront⟩ := h
  rw [offsetIn_eq hfront, hfront.rest]
  exact sliceFrom_append front cursor.rest

theorem slice_eq {text : List Char} (h : Reaches start cursor) (h' : cursor.Reads text next) :
    (slice start.rest (offsetIn start cursor) (offsetIn start next) : Checked ε (List Char)) =
      done (.ok text) := by
  obtain ⟨front, hfront⟩ := h
  have hnext := hfront.append h'
  rw [offsetIn_eq hfront, offsetIn_eq hnext, hnext.rest]
  exact slice_append front text next.rest

theorem isOver_eq (h : Reaches start cursor) :
    isOver start.rest (offsetIn start cursor) = cursor.rest.isEmpty := by
  obtain ⟨front, hfront⟩ := h
  rw [offsetIn_eq hfront, hfront.rest]
  exact isOver_append front cursor.rest

/-- A character is stepped over where it stands. -/
theorem consume_eq (hfits : Fits start) (h : Reaches start cursor) {c : Char} (hc : IsAscii c) :
    consume start.rest c (offsetIn start cursor) = done (.ok
      (match cursor.eat? c with
        | none => (false, offsetIn start cursor)
        | some next => (true, offsetIn start next))) := by
  have hpeek : peek start.rest (offsetIn start cursor) = some c.val.toUInt8 ↔
      cursor.rest.head? = some c := by
    obtain ⟨front, hfront⟩ := h
    rw [offsetIn_eq hfront, hfront.rest, peek_append, head?_encode_eq_iff hc]
  rw [consume]
  cases heat : cursor.eat? c with
  | none =>
    rw [if_neg (mt hpeek.mp (Cursor.eat?_eq_none_iff.mp heat))]
    rfl
  | some next =>
    have hreads := Cursor.eat?_eq_some_iff.mp heat
    have hhead : cursor.rest.head? = some c := by
      rw [hreads.rest]
      rfl
    have hsize : c.utf8Size = 1 := Char.utf8Size_eq_one_iff.mpr hc
    have hbound := hfits.reaches (h.append hreads)
    obtain ⟨front, hfront⟩ := h
    have hnext : offsetIn start cursor + 1 = offsetIn start next := by
      rw [offsetIn_eq hfront, offsetIn_eq (hfront.append hreads), Bytes.utf8Length_append,
        Bytes.utf8Length_cons, hsize, Bytes.utf8Length_nil]
    have hpos := (hfront.append hreads).pos
    rw [← offsetIn_eq (hfront.append hreads), ← hnext] at hpos
    unfold Fits Decimal.signedLimit at hbound
    rw [if_pos (hpeek.mpr hhead), add_eq (by unfold Decimal.unsignedLimit; omega), done_ok_bind,
      hnext]
    rfl

theorem reads_span (cursor : Cursor) (q : Char → Bool) :
    cursor.Reads (cursor.span q).1 (cursor.span q).2 :=
  (Cursor.span_eq_iff.mp rfl).2.2

theorem skipText_eq (hfits : Fits start) (h : Reaches start cursor) {p : UInt8 → Bool}
    {q : Char → Bool} (hpq : ∀ c, ∀ b ∈ String.utf8EncodeChar c, p b = q c) :
    (skipText p start.rest (offsetIn start cursor) : Checked ε Nat) =
      done (.ok (offsetIn start (cursor.span q).2)) := by
  obtain ⟨front, hfront⟩ := h
  have hlength : Bytes.utf8Length (front ++ cursor.rest) < Decimal.signedLimit := by
    rw [← hfront.rest]
    exact Nat.lt_of_le_of_lt (Nat.le_add_left ..) hfits
  rw [offsetIn_eq hfront, offsetIn_eq (hfront.append (reads_span cursor q)), hfront.rest]
  exact skipText_append hpq hlength

theorem Reaches.eat? (h : Reaches start cursor) {c : Char} (heat : cursor.eat? c = some next) :
    Reaches start next :=
  h.append (Cursor.eat?_eq_some_iff.mp heat)

theorem keyStops_eq (c : Char) : ∀ b ∈ String.utf8EncodeChar c,
    (!keyStops.contains b) = !Cursor.endsKey c := by
  intro b hmem
  have hdot : b = 0x2e ↔ c = '.' := mem_encodeChar_iff (d := '.') (by decide) hmem
  have hopen : b = 0x5b ↔ c = '[' := mem_encodeChar_iff (d := '[') (by decide) hmem
  have hcall : b = 0x28 ↔ c = '(' := mem_encodeChar_iff (d := '(') (by decide) hmem
  have hkey : keyStops.contains b = true ↔ Cursor.endsKey c = true := by
    simp only [keyStops, Cursor.endsKey, List.contains_iff_mem, List.mem_cons, List.not_mem_nil,
      or_false, hdot, hopen, hcall, Bool.or_eq_true, beq_iff_eq, or_assoc]
  rw [Bool.eq_iff_iff.mpr hkey]

theorem isDigitByte_eq (c : Char) : ∀ b ∈ String.utf8EncodeChar c, isDigitByte b = c.isDigit := by
  intro b hmem
  rw [Bool.eq_iff_iff]
  simp only [isDigitByte, Char.isDigit, Bool.and_eq_true, decide_eq_true_iff, ge_iff_le,
    UInt8.le_iff_toNat_le, UInt32.le_iff_toNat_le]
  by_cases hc : IsAscii c
  · rw [hc.encode, List.mem_singleton] at hmem
    rw [hmem, hc.toNat]
    exact Iff.rfl
  · have hhigh := UInt8.le_iff_toNat_le.mp (high_of_not_isAscii hc b hmem)
    have hcode : 0x7f < c.val.toNat := Nat.not_le.mp hc
    constructor
    · rintro ⟨-, h⟩
      exact absurd (Nat.le_trans hhigh h) (by decide)
    · rintro ⟨-, h⟩
      exact absurd (Nat.lt_of_lt_of_le hcode h) (by decide)

/-- What a cursor reads in the part of the text that starts at `start`, and the
position where it is over. -/
def placed {α : Type} (start : Cursor) : α × Cursor → α × Nat := fun (a, next) =>
  (a, offsetIn start next)

theorem offsetIn_eq_iff {text : List Char} (h : Reaches start cursor)
    (h' : cursor.Reads text next) : offsetIn start next = offsetIn start cursor ↔ text = [] := by
  obtain ⟨front, hfront⟩ := h
  rw [offsetIn_eq hfront, offsetIn_eq (hfront.append h'), Bytes.utf8Length_append,
    ← utf8Length_eq_zero_iff]
  omega

theorem parseInt64?_digits {digits : List Char} (h : ∀ c ∈ digits, c.isDigit = true) :
    parseInt64? digits = Decimal.toInt64? false digits := by
  unfold parseInt64?
  split
  · exact absurd (h '-' List.mem_cons_self) (by decide)
  · rfl

/-- What a cursor finds where an integer may stand, in the terms of the program. -/
def integerAt (cursor : Cursor) : Option (Option Int64) × Cursor :=
  match cursor.eat? '-' with
  | some mid =>
    let digits := mid.span Char.isDigit
    (some (Decimal.toInt64? true digits.1), digits.2)
  | none =>
    let digits := cursor.span Char.isDigit
    if digits.1 = [] then (none, cursor) else (some (Decimal.toInt64? false digits.1), digits.2)

theorem bound_eq_integerAt (key : String) (cursor : Cursor) : Cursor.bound key cursor =
    match integerAt cursor with
    | (none, next) => .ok (none, next)
    | (some none, _) => .error (.malformedIndex key cursor.pos)
    | (some (some n), next) => .ok (some n, next) := by
  unfold Cursor.bound integerAt
  cases cursor.eat? '-' with
  | some mid =>
    dsimp only [Option.isSome, Option.getD]
    cases Decimal.toInt64? true (mid.span Char.isDigit).1 <;> rfl
  | none =>
    dsimp only [Option.isSome, Option.getD]
    cases hdigits : (cursor.span Char.isDigit).1 with
    | nil => rfl
    | cons c digits =>
      rw [if_neg (List.cons_ne_nil c digits)]
      cases Decimal.toInt64? false (c :: digits) <;> rfl

theorem readInt_eq (hfits : Fits start) (h : Reaches start cursor) :
    readInt start.rest (offsetIn start cursor) = done (.ok (placed start (integerAt cursor))) := by
  have hconsume := consume_eq hfits h (c := '-') (by decide)
  rw [readInt, hconsume, done_ok_bind, integerAt]
  cases heat : cursor.eat? '-' with
  | some mid =>
    have hmid := Cursor.eat?_eq_some_iff.mp heat
    have hliteral := hmid.append (reads_span mid Char.isDigit)
    dsimp only
    rw [skipText_eq hfits (h.append hmid) isDigitByte_eq, done_ok_bind,
      if_neg (mt (offsetIn_eq_iff h hliteral).mp (List.cons_ne_nil _ _)), slice_eq h hliteral]
    rfl
  | none =>
    have hliteral := reads_span cursor Char.isDigit
    dsimp only
    rw [skipText_eq hfits h isDigitByte_eq, done_ok_bind]
    by_cases hdigits : (cursor.span Char.isDigit).1 = []
    · have hnone := (offsetIn_eq_iff h hliteral).mpr hdigits
      rw [if_pos hnone, if_pos hdigits, hnone]
      rfl
    · have hall : ∀ c ∈ (cursor.span Char.isDigit).1, c.isDigit = true :=
        (Cursor.span_eq_iff.mp rfl).1
      rw [if_neg (mt (offsetIn_eq_iff h hliteral).mp hdigits), if_neg hdigits, slice_eq h hliteral,
        done_ok_bind, parseInt64?_digits hall]
      rfl

theorem readBound_eq (hfits : Fits start) (h : Reaches start cursor) (key : String) :
    readBound start.rest key start.pos (offsetIn start cursor) =
      done ((Cursor.bound key cursor).map (placed start)) := by
  rw [readBound, add_offsetIn hfits h, done_ok_bind, readInt_eq hfits h, done_ok_bind,
    bound_eq_integerAt]
  obtain ⟨int?, next⟩ := integerAt cursor
  match int? with
  | none => rfl
  | some none => rfl
  | some (some n) => rfl

theorem reaches_bound {key : String} {n? : Option Int64} (h : Reaches start cursor)
    (hbound : Cursor.bound key cursor = .ok (n?, next)) : Reaches start next := by
  obtain ⟨text, -, hreads, -⟩ := Cursor.bound_eq_ok_iff.mp hbound
  exact h.append hreads

theorem readUpperBound_eq (hfits : Fits start) (h : Reaches start cursor) (key : String) :
    readUpperBound start.rest key start.pos (offsetIn start cursor) =
      done ((Cursor.upperBound key cursor).map (placed start)) := by
  rw [readUpperBound, add_offsetIn hfits h, done_ok_bind, readBound_eq hfits h, Cursor.upperBound]
  cases Cursor.bound key cursor with
  | error error => rfl
  | ok bound =>
    obtain ⟨right?, next⟩ := bound
    cases right? with
    | none => rfl
    | some right =>
      dsimp only [Except.map, placed]
      rw [done_ok_bind]
      dsimp only
      split <;> rfl

theorem readClosing_eq (hfits : Fits start) (h : Reaches start cursor) (key : String)
    (selector : Selector) :
    readClosing start.rest key start.pos selector (offsetIn start cursor) =
      done ((Cursor.brackets.close key selector cursor).map (placed start)) := by
  have hconsume := consume_eq hfits h (c := ']') (by decide)
  rw [readClosing, hconsume, done_ok_bind, Cursor.brackets.close]
  cases cursor.eat? ']' with
  | some next => rfl
  | none =>
    dsimp only
    rw [if_neg Bool.false_ne_true, add_offsetIn hfits h]
    rfl

theorem readBrackets_eq (hfits : Fits start) (h : Reaches start cursor) (key : String) :
    readBrackets start.rest key start.pos (offsetIn start cursor) =
      done ((Cursor.brackets key cursor).map (placed start)) := by
  rw [readBrackets, readBound_eq hfits h, Cursor.brackets]
  cases hbound : Cursor.bound key cursor with
  | error error => rfl
  | ok bound =>
    obtain ⟨left?, mid⟩ := bound
    have hmid := reaches_bound h hbound
    have hconsume := consume_eq hfits hmid (c := ':') (by decide)
    dsimp only [Except.map, placed]
    rw [done_ok_bind]
    dsimp only
    rw [hconsume, done_ok_bind]
    cases heat : mid.eat? ':' with
    | none => exact readClosing_eq hfits hmid key _
    | some colon =>
      have hcolon := hmid.eat? heat
      dsimp only
      rw [if_pos rfl, readUpperBound_eq hfits hcolon]
      cases hupper : Cursor.upperBound key colon with
      | error error => rfl
      | ok upper =>
        obtain ⟨right, next⟩ := upper
        obtain ⟨right?, hright, -, -⟩ := Cursor.upperBound_eq_ok_iff.mp hupper
        exact readClosing_eq hfits (reaches_bound hcolon hright) key _

/-- The next segment starts where its cursor stands. -/
def placedEnd (start : Cursor) : Token × Option Cursor → Token × Option Nat := fun (token, next?) =>
  (token, next?.map (offsetIn start))

theorem finish_nil (token : Token) (h : cursor.rest = []) :
    Cursor.segment.finish token cursor = .ok (token, none) := by
  rw [Cursor.segment.finish, Cursor.ending, h]

theorem readDot_eq (hfits : Fits start) (h : Reaches start cursor) (token : Token)
    (hrest : cursor.rest ≠ []) :
    readDot start.rest start.pos token (offsetIn start cursor) =
      done ((Cursor.segment.finish token cursor).map (placedEnd start)) := by
  have hconsume := consume_eq hfits h (c := '.') (by decide)
  obtain ⟨c, rest, hcons⟩ := List.exists_cons_of_ne_nil hrest
  rw [readDot, hconsume, done_ok_bind, Cursor.segment.finish, Cursor.ending, hcons]
  have heat : cursor.eat? '.' =
      if c = '.' then some ⟨cursor.pos + 1, rest⟩ else none := by
    rw [Cursor.eat?, hcons]
    rfl
  rw [heat]
  dsimp only
  by_cases hc : c = '.'
  · rw [if_pos hc, if_pos hc]
    rfl
  · rw [if_neg hc, if_neg hc]
    dsimp only
    rw [if_neg Bool.false_ne_true, sliceFrom_eq h, done_ok_bind, add_offsetIn hfits h, hcons]
    rfl

/-- A call is read from where its brackets stand. -/
theorem readCall_eq (hfits : Fits start) (h : Reaches start cursor) (name : String)
    {beyond : Cursor} (hparens : (cursor.eat? '(').bind (Cursor.eat? ')') = some beyond) :
    readCall start.rest name start.pos (offsetIn start cursor) =
      done ((Cursor.call name start beyond).map fun token => (token, none)) := by
  obtain ⟨mid, hopen, hclose⟩ := Option.bind_eq_some_iff.mp hparens
  have hmid := h.eat? hopen
  have hbeyond := hmid.eat? hclose
  have hfirst := consume_eq hfits h (c := '(') (by decide)
  have hsecond := consume_eq hfits hmid (c := ')') (by decide)
  rw [hopen] at hfirst
  rw [hclose] at hsecond
  unfold readCall Cursor.call
  cases Function.ofName? name with
  | none => rfl
  | some function =>
    dsimp only
    rw [hfirst, done_ok_bind]
    dsimp only
    rw [hsecond, done_ok_bind]
    dsimp only
    rw [isOver_eq hbeyond, add_offsetIn hfits hbeyond]
    cases beyond.rest.isEmpty <;> rfl

theorem readSelection_eq (hfits : Fits start) (h : Reaches start cursor) (key : String)
    (hrest : cursor.rest ≠ []) :
    readSelection start.rest key start.pos (offsetIn start cursor) =
      done ((match cursor.eat? '[' with
        | none => Cursor.segment.finish ⟨key, .member⟩ cursor
        | some cursor =>
          match Cursor.brackets key cursor with
          | .error error => .error error
          | .ok (selector, cursor) =>
            let token : Token := ⟨key, selector⟩
            if token.isRange && !cursor.rest.isEmpty then
              .error (.indefiniteReference key cursor.pos)
            else Cursor.segment.finish token cursor).map (placedEnd start)) := by
  have hconsume := consume_eq hfits h (c := '[') (by decide)
  rw [readSelection, hconsume, done_ok_bind]
  cases heat : cursor.eat? '[' with
  | none => exact readDot_eq hfits h _ hrest
  | some inside =>
    have hinside := h.eat? heat
    dsimp only
    rw [if_pos rfl, readBrackets_eq hfits hinside]
    cases hbrackets : Cursor.brackets key inside with
    | error error => rfl
    | ok selection =>
      obtain ⟨selector, next⟩ := selection
      obtain ⟨text, -, hreads⟩ := Cursor.brackets_eq_ok_iff.mp hbrackets
      have hnext := hinside.append hreads
      dsimp only [Except.map, placed]
      rw [done_ok_bind]
      dsimp only
      rw [isOver_eq hnext]
      cases hover : next.rest with
      | nil =>
        rw [finish_nil _ hover, List.isEmpty_nil, Bool.not_true, Bool.and_false]
        rfl
      | cons c rest =>
        rw [List.isEmpty_cons, Bool.not_false, Bool.and_true, if_neg Bool.false_ne_true]
        cases hrange : Token.isRange ⟨key, selector⟩ with
        | true =>
          rw [if_pos rfl, if_pos rfl, add_offsetIn hfits hnext]
          rfl
        | false =>
          rw [if_neg Bool.false_ne_true, if_neg Bool.false_ne_true]
          exact readDot_eq hfits hnext _ (by rw [hover]; exact List.cons_ne_nil c rest)

theorem isPrefixOf_parens (cursor : Cursor) : ['(', ')'].isPrefixOf cursor.rest =
    ((cursor.eat? '(').bind (Cursor.eat? ')')).isSome := by
  rw [Bool.eq_iff_iff, List.isPrefixOf_iff_prefix, Option.isSome_iff_exists]
  simp only [Cursor.parens_eq_some_iff]
  constructor
  · rintro ⟨rest, hrest⟩
    exact ⟨⟨cursor.pos + Bytes.utf8Length ['(', ')'], rest⟩, hrest.symm, rfl⟩
  · rintro ⟨beyond, hreads⟩
    exact ⟨beyond.rest, hreads.rest.symm⟩

/-- A segment is read as by a cursor. -/
theorem readSegment_eq (hfits : Fits start) :
    readSegment start.rest start.pos =
      done ((Cursor.segment start).map (placedEnd start)) := by
  have hstart : offsetIn start start = 0 := Nat.sub_self _
  have hreads := reads_span start fun c => !Cursor.endsKey c
  have hskip : (skipText _ start.rest (offsetIn start start) : Checked PathError Nat) = _ :=
    skipText_eq hfits (.refl start) keyStops_eq
  have hname : (slice start.rest (offsetIn start start) _ : Checked PathError (List Char)) = _ :=
    slice_eq (.refl start) hreads
  rw [hstart] at hskip hname
  rw [readSegment, hskip, done_ok_bind, hname, done_ok_bind, Cursor.segment]
  generalize start.span (fun c => !Cursor.endsKey c) = read at hreads
  obtain ⟨name, cursor⟩ := read
  have hcursor := (Reaches.refl start).append hreads
  dsimp only at hcursor ⊢
  cases name with
  | nil => rfl
  | cons c name =>
    rw [List.isEmpty_cons, if_neg Bool.false_ne_true, if_neg Bool.false_ne_true,
      isOver_eq hcursor, sliceFrom_eq hcursor, done_ok_bind, isPrefixOf_parens]
    cases hrest : cursor.rest with
    | nil =>
      have heat : ∀ d, cursor.eat? d = none := fun d =>
        Cursor.eat?_eq_none_iff.mpr (by rw [hrest]; exact nofun)
      rw [heat, heat, Option.bind_none]
      dsimp only
      rw [finish_nil _ hrest]
      rfl
    | cons d rest =>
      have hne : cursor.rest ≠ [] := by rw [hrest]; exact List.cons_ne_nil d rest
      rw [List.isEmpty_cons, if_neg Bool.false_ne_true]
      cases hparens : (cursor.eat? '(').bind (Cursor.eat? ')') with
      | none =>
        rw [Option.isSome_none, if_neg Bool.false_ne_true]
        exact readSelection_eq hfits hcursor _ hne
      | some beyond =>
        rw [Option.isSome_some, if_pos rfl, readCall_eq hfits hcursor _ hparens]
        dsimp only
        cases Cursor.call (String.ofList (c :: name)) start beyond <;> rfl

theorem compileSegments_eq (limit : UInt64) {start : Cursor} (hfits : Fits start)
    {budget depth : Nat} (hbudget : depth + budget = limit.toNat) :
    compileSegments limit start.rest start.pos depth =
      done (Cursor.segments limit budget start) := by
  induction budget generalizing start depth with
  | zero =>
    have hover : limit.toNat ≤ depth := Nat.le_of_eq hbudget.symm
    rw [compileSegments, dif_pos hover]
    rfl
  | succ budget ih =>
    have hlimit := limit.toNat_lt_size
    rw [compileSegments, dif_neg (by omega), readSegment_eq hfits, Cursor.segments]
    cases hsegment : Cursor.segment start with
    | error error => rfl
    | ok segment =>
      obtain ⟨token, next?⟩ := segment
      cases next? with
      | none => rfl
      | some next =>
        obtain ⟨text, cursor, -, hreads, hdot, -⟩ := Cursor.segment_eq_ok_iff.mp hsegment
        have hnext : Reaches start next := ((Reaches.refl start).append hreads).append hdot
        have hdepth : (add depth 1 : Checked PathError Nat) = done (.ok (depth + 1)) :=
          add_eq (by unfold Decimal.unsignedLimit; simp only [UInt64.size] at hlimit; omega)
        dsimp only [Except.map, placedEnd, Option.map]
        rw [done_ok_bind]
        dsimp only
        rw [sliceFrom_eq hnext, done_ok_bind, add_offsetIn hfits hnext, done_ok_bind, hdepth,
          done_ok_bind, ih (hfits.reaches hnext) (by omega)]
        cases Cursor.segments limit budget next <;> rfl

/-- The program ends with the path that the text spells. -/
theorem compile_eq (limit : UInt64) {text : String}
    (h : Bytes.utf8Length text.toList < Decimal.signedLimit) :
    compile limit text = done (Path.parse limit text) := by
  have hfits : Fits (Cursor.ofString text) := by
    unfold Fits Cursor.ofString
    rwa [Nat.zero_add]
  have hsegments := compileSegments_eq limit hfits (Nat.zero_add limit.toNat)
  unfold compile Path.parse
  cases htext : text.toList with
  | nil => rfl
  | cons c rest =>
    dsimp only [List.head?_cons]
    split
    · rw [← htext]
      exact hsegments
    · rfl

end RawJson.Checked
