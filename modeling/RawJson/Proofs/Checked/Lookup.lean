/-
Following a path as a program: every token cuts the buffer down to where its
value starts, by a scan for its key or by the positions of an element, and the
next one looks at the first byte of what is left. On buffers of less than
`Decimal.signedLimit` bytes the program ends with what the path selects
(`getValue_eq`).
-/
import RawJson.Proofs.Checked.Element

namespace RawJson.Checked

noncomputable section

/-! ## Programs -/

/-- The text between the quotes of a string that starts at `i` and is over at
`stop`. -/
def between (input : Bytes) (i stop : Nat) : Checked LookupError Bytes := do
  let first ← add i 1
  let last ← sub stop 1
  cut input first last

/-- One member of the object in the buffer: the round ends the loop with the
position of the value under the key, or goes on behind a member with another. -/
def findRound (input : Bytes) (key : String) (i : Nat) :
    Checked LookupError (Round Nat Nat) := do
  let i ← ExceptT.adapt (.ofFault key) (skipSpaces input i)
  let b ← byteAt input i
  if b = Byte.closeBrace then throw (.keyNotFound key)
  else if b = Byte.quote then
    let stop ← ExceptT.adapt (.ofFault key) (skipString input i)
    let found ← between input i stop
    let value ← ExceptT.adapt (.ofFault key) (seekToValue input stop)
    if found = Bytes.ofString key then return .ended value
    else
      let i ← ExceptT.adapt (.ofFault key) (skipValue input value)
      return .onward i
  else throw (.unexpectedByte b .objectKey)

/-- Member by member to the value under a key. -/
def findFrom (input : Bytes) (key : String) : Nat → Checked LookupError Nat :=
  loop (findRound input key)

/-- The buffer from the value under a key on. -/
def findKey (input : Bytes) (key : String) : Checked LookupError Bytes := do
  if input.head? = some Byte.openBrace then
    let value ← findFrom input key 1
    cut input value input.length
  else throw (.expectedObject key)

/-- The value under a token has the shape that the rest of the path needs. -/
def checkValueType (token : Token) (following : List Token) (input : Bytes) :
    Checked LookupError Unit := do
  let first ← byteAt input 0
  if token.isArray then
    if first = Byte.openSquare then return () else throw (.typeMismatch token.key .array)
  else if Token.isTerminal following || Token.isSubject following then return ()
  else if first = Byte.openSquare then throw (.typeMismatch token.key .object)
  else if first = Byte.openBrace then return ()
  else throw (.typeMismatch token.key .container)

/-- What the last token of a path selects. -/
def terminalValue (token : Token) (input : Bytes) : Checked LookupError Slice := do
  match token.selector with
  | .index position =>
    let bytes ← element input token.key position
    return .verbatim bytes
  | .range left right =>
    let bytes ← range input token.key left right
    return .assembled bytes
  | _ =>
    let stop ← ExceptT.adapt (.ofFault token.key) (skipValue input 0)
    let bytes ← cut input 0 stop
    return .verbatim bytes

/-- The number that a function gives. -/
def measure (function : Function) (input : Bytes) (key : String) : Checked LookupError Nat :=
  match function with
  | .size => ExceptT.adapt (.ofFault key) (skipValue input 0)
  | .length =>
    match input.head? with
    | none => throw (.unexpectedEnd .input)
    | some b =>
      if b = Byte.quote then ExceptT.adapt (.ofFault key) (skipString input 0)
      else if b = Byte.openSquare then count input key
      else throw (.functionNotApplicable .length (Kind.ofByte b))

/-- The buffer from the value under a token on, wherever in front of its
container it starts. -/
def locate (key : String) (input : Bytes) : Checked LookupError Bytes := do
  let start ← ExceptT.adapt (.ofFault key) (skipSpaces input 0)
  let input ← cut input start input.length
  let first ← byteAt input 0
  if first ≠ Byte.openBrace ∧ first ≠ Byte.openSquare then throw (.expectedContainer key)
  else if Token.IsRootKey key then return input
  else findKey input key

/-- The value under a token, if it is of a kind that the token can be used on. -/
def enter (token : Token) (following : List Token) (input : Bytes) :
    Checked LookupError Bytes := do
  let input ← locate token.key input
  checkValueType token following input
  return input

/-- The buffer cut down to the element at a position, for a token that has one. -/
def narrow (token : Token) (input : Bytes) : Checked LookupError Bytes :=
  match token.selector with
  | .index position => element input token.key position
  | _ => return input

/-- What a chain of tokens selects from a buffer. -/
def getValue (token : Token) : List Token → Bytes → Checked LookupError Slice
  | [], input => do
    let input ← enter token [] input
    terminalValue token input
  | next :: following, input => do
    let input ← enter token (next :: following) input
    let input ← narrow token input
    match next.selector with
    | .function function =>
      let number ← measure function input token.key
      return .assembled (Bytes.ofString number.repr)
    | _ => getValue next following input

end

/-! ## Outcomes -/

variable {input doc : Bytes}

/-- What a round comes to at a member. -/
def roundOf (input : Bytes) (key : String) : Option Member → Except LookupError (Round Nat Nat)
  | none => .error (.keyNotFound key)
  | some member =>
    if member.key = Bytes.ofString key then .ok (.ended (position input member.value))
    else
      match afterValue member.value with
      | .error fault => .error (.ofFault key fault)
      | .ok rest => .ok (.onward (position input rest))

theorem between_eq {body beyond : Bytes} (hlength : input.length < Decimal.signedLimit)
    (h : Byte.quote :: (body ++ Byte.quote :: beyond) <:+ input) :
    between input (position input (Byte.quote :: (body ++ Byte.quote :: beyond)))
      (position input beyond) = done (.ok body) := by
  have hbody := suffix_of_cons h
  have hquote : Byte.quote :: beyond <:+ body ++ Byte.quote :: beyond := List.suffix_append ..
  rw [between, add_position_cons hlength h, done_ok_bind, ← position_cons (hquote.trans hbody),
    sub_eq (Nat.le_add_left 1 _), done_ok_bind, Nat.add_sub_cancel, cut_position hbody hquote,
    Bytes.upTo_append]

theorem member_next (doc : Bytes) : Member.next doc =
    match afterGap doc with
    | .error fault => .error fault
    | .ok (b, rest) =>
      if b = Byte.closeBrace then .ok none
      else if b = Byte.quote then
        match splitString rest with
        | none => .error (.unexpectedEnd .string)
        | some (key, beyond) => (afterColon beyond).map fun value => some ⟨key, value⟩
      else .error (.unexpectedByte b .objectKey) := by
  unfold Member.next afterColon
  rcases afterGap doc with fault | ⟨b, rest⟩
  · rfl
  dsimp only
  split
  · rfl
  split
  · rcases splitString rest with _ | ⟨key, beyond⟩
    · rfl
    dsimp only
    rcases afterGap beyond with fault | ⟨c, later⟩
    · rfl
    dsimp only
    split
    · rcases afterGap later with fault | value <;> rfl
    · rfl
  · rfl

/-- A round reads the next member. -/
theorem findRound_eq (hlength : input.length < Decimal.signedLimit) (key : String)
    (h : doc <:+ input) :
    findRound input key (position input doc) =
      done (((Member.next doc).mapError (.ofFault key)).bind (roundOf input key)) := by
  rw [findRound, skipSpaces_eq hlength h, member_next]
  cases hgap : afterGap doc with
  | error fault => rfl
  | ok next =>
    obtain ⟨b, rest⟩ := next
    have hrest := (afterGap_suffix hgap).trans h
    dsimp only [Except.map]
    rw [adapt_done, mapError_ok, done_ok_bind, byteAt_position hrest, done_ok_bind]
    split
    · rfl
    split
    · next hquote =>
      subst hquote
      rw [skipString_eq hlength hrest]
      cases hsplit : splitString rest with
      | none => rfl
      | some split =>
        obtain ⟨body, beyond⟩ := split
        have hbeyond := (splitString_suffix hsplit).trans (suffix_of_cons hrest)
        obtain ⟨-, rfl⟩ := splitString_eq_some_iff.mp hsplit
        dsimp only [stringEnd]
        rw [adapt_done, mapError_ok, done_ok_bind, between_eq hlength hrest, done_ok_bind,
          seekToValue_eq hlength hbeyond]
        cases hvalue : afterColon beyond with
        | error fault => rfl
        | ok value =>
          dsimp only [Except.map]
          rw [adapt_done, mapError_ok, mapError_ok, done_ok_bind,
            skipValue_eq hlength ((afterColon_suffix hvalue).trans hbeyond)]
          dsimp only [Except.bind, roundOf]
          split
          · rfl
          · cases afterValue value <;> rfl
    · rfl

/-- Where the value under a key starts. -/
def valueStart (input : Bytes) (key : String) : Except Fault (Option Bytes) → Except LookupError Nat
  | .error fault => .error (.ofFault key fault)
  | .ok none => .error (.keyNotFound key)
  | .ok (some value) => .ok (position input value)

theorem findFrom_eq (hlength : input.length < Decimal.signedLimit) (key : String) {doc : Bytes}
    (h : doc <:+ input) : findFrom input key (position input doc) =
      done (valueStart input key (Member.find (Bytes.ofString key) doc)) := by
  rw [findFrom, loop_eq, findRound_eq hlength key h, Member.find_eq]
  cases hnext : Member.next doc with
  | error fault => rfl
  | ok member? =>
    cases member? with
    | none => rfl
    | some member =>
      have hvalue := (Member.next_value hnext).1.trans h
      dsimp only [mapError_ok, Except.bind, roundOf]
      by_cases hkey : member.key = Bytes.ofString key
      · rw [if_pos hkey, if_pos hkey]
        rfl
      · rw [if_neg hkey, if_neg hkey]
        cases hrest : afterValue member.value with
        | error fault => rfl
        | ok rest =>
          exact findFrom_eq hlength key ((afterValue_suffix hrest).trans hvalue)
termination_by doc.length
decreasing_by exact Nat.lt_trans (afterValue_length hrest) (Member.next_length hnext)

theorem byteAt_zero {ε : Type} (b : UInt8) (rest : Bytes) :
    (byteAt (b :: rest) 0 : Checked ε UInt8) = done (.ok b) := rfl

theorem checkValueType_eq (token : Token) (following : List Token) (b : UInt8) (rest : Bytes) :
    checkValueType token following (b :: rest) = done (token.checkShape following (b :: rest)) := by
  rw [checkValueType, byteAt_zero, done_ok_bind, Token.checkShape, List.head?_cons]
  simp only [Option.some.injEq]
  split <;> split <;> try rfl
  split
  · rfl
  · split <;> rfl

/-- A lookup in an object ends with the value it finds. -/
theorem findKey_eq {key : String} {rest : Bytes}
    (hlength : (Byte.openBrace :: rest).length < Decimal.signedLimit) :
    findKey (Byte.openBrace :: rest) key =
      done (Token.found key (Member.find (Bytes.ofString key) rest)) := by
  have hrest : rest <:+ Byte.openBrace :: rest := List.suffix_cons ..
  have hfind := findFrom_eq hlength key hrest
  rw [← position_cons (List.suffix_refl (Byte.openBrace :: rest)), position_self] at hfind
  rw [findKey, List.head?_cons, if_pos rfl, hfind]
  rcases hvalue : Member.find (Bytes.ofString key) rest with fault | _ | value
  · rfl
  · rfl
  · exact cut_position_length ((Member.find_value hvalue).1.trans hrest)

theorem locate_eq (hlength : input.length < Decimal.signedLimit) (key : String) :
    locate key input = done (Token.locate key input) := by
  have hspaces := skipSpaces_eq hlength (List.suffix_refl input)
  rw [position_self] at hspaces
  rw [locate, hspaces, Token.locate]
  cases hgap : afterGap input with
  | error fault => rfl
  | ok next =>
    obtain ⟨b, rest⟩ := next
    have hrest := afterGap_suffix hgap
    dsimp only [Except.map]
    rw [adapt_done, mapError_ok, done_ok_bind, cut_position_length hrest, done_ok_bind,
      byteAt_zero, done_ok_bind]
    split
    · rfl
    split
    · rfl
    by_cases hb : b = Byte.openBrace
    · subst hb
      have hlength' := Nat.lt_of_le_of_lt hrest.length_le hlength
      rw [findKey_eq hlength', if_neg (not_not_intro rfl)]
      rcases Member.find (Bytes.ofString key) rest with fault | _ | value <;> rfl
    · rw [findKey, List.head?_cons, if_neg fun h => hb (Option.some.inj h), if_pos hb]
      rfl

theorem enter_eq (hlength : input.length < Decimal.signedLimit) (token : Token)
    (following : List Token) :
    enter token following input = done (token.enter following input) := by
  rw [enter, locate_eq hlength, Token.enter]
  cases hlocate : Token.locate token.key input with
  | error error => rfl
  | ok value =>
    obtain ⟨-, b, rest, rfl, -⟩ := Token.locate_value hlocate
    rw [done_ok_bind, checkValueType_eq]
    dsimp only
    cases token.checkShape following (b :: rest) <;> rfl

theorem measure_eq (hlength : input.length < Decimal.signedLimit) (function : Function)
    (key : String) : measure function input key =
      done ((function.measure input).mapError (.ofFailure key function)) := by
  cases function with
  | size =>
    have hskip := skipValue_eq hlength (List.suffix_refl input)
    rw [position_self] at hskip
    rw [measure, hskip, Function.measure, Function.sizeOf]
    cases afterValue input <;> rfl
  | length =>
    cases input with
    | nil => rfl
    | cons b rest =>
      unfold measure Function.measure Function.lengthOf
      dsimp only [List.head?_cons]
      by_cases hquote : b = Byte.quote
      · have hskip := skipString_eq hlength (List.suffix_refl (b :: rest))
        rw [position_self] at hskip
        rw [if_pos hquote, if_pos hquote, hskip]
        cases hsplit : splitString rest with
        | none => rfl
        | some split =>
          obtain ⟨body, beyond⟩ := split
          obtain ⟨-, rfl⟩ := splitString_eq_some_iff.mp hsplit
          have hend : position (b :: (body ++ Byte.quote :: beyond)) beyond = body.length + 2 := by
            simp only [position, List.length_cons, List.length_append]
            omega
          dsimp only [stringEnd]
          rw [hend]
          rfl
      · rw [if_neg hquote, if_neg hquote]
        by_cases hsquare : b = Byte.openSquare
        · rw [if_pos hsquare, if_pos hsquare,
            count_eq hlength key (congrArg some hsquare), Token.elementsOf, List.tail_cons]
          cases Element.list rest <;> rfl
        · rw [if_neg hsquare, if_neg hsquare]
          rfl

theorem openSquare_of_checkShape {token : Token} {following : List Token} {value : Bytes}
    (h : token.checkShape following value = .ok ()) (harray : token.isArray = true) :
    value.head? = some Byte.openSquare := by
  have hshape := Token.checkShape_eq_ok_iff.mp h
  rwa [if_pos harray] at hshape

theorem terminalValue_eq {value : Bytes} (hlength : value.length < Decimal.signedLimit)
    {token : Token} (h : token.checkShape [] value = .ok ()) :
    terminalValue token value = done (token.result value) := by
  obtain ⟨key, selector⟩ := token
  unfold terminalValue Token.result
  cases selector with
  | index position =>
    dsimp only
    rw [element_eq hlength key position (openSquare_of_checkShape h rfl)]
    cases Token.elementOf key position value <;> rfl
  | range left right =>
    dsimp only
    rw [range_eq hlength key left right (openSquare_of_checkShape h rfl)]
    cases Token.rangeOf key left right value <;> rfl
  | _ =>
    have hskip := skipValue_eq hlength (List.suffix_refl value)
    rw [position_self] at hskip
    dsimp only
    rw [hskip, Token.valueText]
    cases hrest : afterValue value with
    | error fault => rfl
    | ok rest =>
      have hcut : (cut value (position value value) (position value rest) :
          Checked LookupError Bytes) = done (.ok (Bytes.upTo value rest)) :=
        cut_position (List.suffix_refl value) (afterValue_suffix hrest)
      rw [position_self] at hcut
      dsimp only [Except.map]
      rw [adapt_done, mapError_ok, done_ok_bind, hcut]
      rfl

theorem narrow_eq {value : Bytes} (hlength : value.length < Decimal.signedLimit)
    {token : Token} {following : List Token} (h : token.checkShape following value = .ok ()) :
    narrow token value = done (token.narrow value) := by
  obtain ⟨key, selector⟩ := token
  cases selector with
  | index position => exact element_eq hlength key position (openSquare_of_checkShape h rfl)
  | _ => rfl

/-- A path ends with what it selects. -/
theorem getValue_eq (token : Token) (following : List Token) {input : Bytes}
    (hlength : input.length < Decimal.signedLimit) :
    getValue token following input = done (token.follow following input) := by
  induction following generalizing token input with
  | nil =>
    rw [getValue, enter_eq hlength, Token.follow_nil]
    cases henter : token.enter [] input with
    | error error => rfl
    | ok value =>
      have hvalue := (Token.enter_value henter).1
      exact terminalValue_eq (Nat.lt_of_le_of_lt hvalue.length_le hlength)
        (Token.enter_eq_ok_iff.mp henter).2
  | cons next following ih =>
    rw [getValue, enter_eq hlength, Token.follow_eq_resume, Token.descend]
    cases henter : token.enter (next :: following) input with
    | error error => rfl
    | ok value =>
      have hvalue := (Token.enter_value henter).1
      have hlength' := Nat.lt_of_le_of_lt hvalue.length_le hlength
      rw [done_ok_bind, narrow_eq hlength' (Token.enter_eq_ok_iff.mp henter).2, Except.bind]
      cases hnarrow : token.narrow value with
      | error error => rfl
      | ok start =>
        have hstart := Nat.lt_of_le_of_lt (Token.narrow_part hnarrow).length_le hlength'
        rw [done_ok_bind, Except.bind, Token.resume]
        cases next.selector with
        | function function =>
          dsimp only
          rw [measure_eq hstart, Function.call]
          cases function.measure start <;> rfl
        | _ => exact ih next hstart

end RawJson.Checked
