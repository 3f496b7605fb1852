/-
Paths on documents that go on, or that are cut short. An outcome on a document
stays what it is when more bytes are added at the end, unless it says that the
document ended too early, or measured a bare scalar that the document ended in
(`Path.get_append`).

Behind a position a path walks through the text of an element, which no added
byte reaches. That leaves one way for added bytes to matter: the last step
measures a value it has come to by keys alone, and that is a bare scalar
without an end. `Path.OpenEnded` says when it is, and then the longer
document's answer is the one for the scalar's longer text.
-/
import Mathlib.Data.Bool.AllAny
import RawJson.Lookup
import RawJson.Proofs.Extension

namespace RawJson

/-! ## Errors about the end -/

@[inherit_doc Fault.isEnd]
def Function.Failure.isEnd : Function.Failure → Bool
  | .fault cause => cause.isEnd
  | .notApplicable _ => false

@[inherit_doc Fault.isEnd]
def LookupError.isEnd : LookupError → Bool
  | .unexpectedEnd _ => true
  | _ => false

@[simp] theorem LookupError.isEnd_ofFault (key : String) (fault : Fault) :
    (LookupError.ofFault key fault).isEnd = fault.isEnd := by
  cases fault <;> rfl

@[simp] theorem LookupError.isEnd_ofFailure (key : String) (function : Function)
    (failure : Function.Failure) :
    (LookupError.ofFailure key function failure).isEnd = failure.isEnd := by
  cases failure with
  | fault fault => exact LookupError.isEnd_ofFault key fault
  | notApplicable => rfl

variable {w : Bytes}

/-! ## Steps of a path -/

theorem Token.locate_value {key : String} {doc value : Bytes}
    (h : Token.locate key doc = .ok value) : value <:+ doc ∧ Starts value := by
  unfold Token.locate at h
  split at h
  · exact nomatch h
  next b rest hgap =>
  split at h
  · exact nomatch h
  split at h
  · cases h
    exact ⟨afterGap_suffix hgap, starts_of_afterGap hgap⟩
  split at h
  · exact nomatch h
  split at h
  · exact nomatch h
  · exact nomatch h
  next hfind =>
  cases h
  obtain ⟨hsuffix, hstarts⟩ := Member.find_value hfind
  exact ⟨hsuffix.trans ((List.suffix_cons b rest).trans (afterGap_suffix hgap)), hstarts⟩

theorem Token.enter_value {token : Token} {following : List Token} {doc value : Bytes}
    (h : token.enter following doc = .ok value) : value <:+ doc ∧ Starts value := by
  unfold Token.enter at h
  split at h
  · exact nomatch h
  next hlocate =>
  split at h
  · exact nomatch h
  · cases h
    exact Token.locate_value hlocate

theorem Token.locate_extend {key : String} {doc : Bytes} {outcome : Except LookupError Bytes}
    (hlocate : Token.locate key doc = outcome) (h : Settled LookupError.isEnd outcome) :
    Token.locate key (doc ++ w) = outcome.map (· ++ w) := by
  subst hlocate
  unfold Token.locate at h ⊢
  cases hgap : afterGap doc with
  | error fault =>
    rw [hgap, settled_error, LookupError.isEnd_ofFault] at h
    exact absurd h (not_settled_afterGap hgap)
  | ok first =>
  rw [hgap] at h
  rw [afterGap_extend hgap]
  dsimp only at h ⊢
  by_cases hopen : first.1 ≠ Byte.openBrace ∧ first.1 ≠ Byte.openSquare
  · rw [if_pos hopen, if_pos hopen]
    rfl
  rw [if_neg hopen] at h
  rw [if_neg hopen, if_neg hopen]
  by_cases hroot : key = Token.rootKey
  · rw [if_pos hroot, if_pos hroot]
    rfl
  rw [if_neg hroot] at h
  rw [if_neg hroot, if_neg hroot]
  by_cases hbrace : first.1 ≠ Byte.openBrace
  · rw [if_pos hbrace, if_pos hbrace]
    rfl
  rw [if_neg hbrace] at h
  rw [if_neg hbrace, if_neg hbrace]
  match hfind : Member.find (Bytes.ofString key) first.2 with
  | .error fault =>
    rw [hfind, settled_error, LookupError.isEnd_ofFault] at h
    rw [Member.find_extend hfind h]
    rfl
  | .ok none =>
    rw [Member.find_extend hfind trivial]
    rfl
  | .ok (some value) =>
    rw [Member.find_extend hfind trivial]
    rfl

/-- What a value has to be is seen from its first byte. -/
theorem Token.checkShape_extend (token : Token) (following : List Token) {value : Bytes}
    (h : Starts value) :
    token.checkShape following (value ++ w) = token.checkShape following value := by
  obtain ⟨b, rest, rfl, -⟩ := h
  rfl

theorem Token.enter_extend {token : Token} {following : List Token} {doc : Bytes}
    {outcome : Except LookupError Bytes} (henter : token.enter following doc = outcome)
    (h : Settled LookupError.isEnd outcome) :
    token.enter following (doc ++ w) = outcome.map (· ++ w) := by
  subst henter
  unfold Token.enter at h ⊢
  cases hlocate : Token.locate token.key doc with
  | error error =>
    rw [hlocate] at h
    rw [Token.locate_extend hlocate h]
    rfl
  | ok value =>
    obtain ⟨-, hstarts⟩ := Token.locate_value hlocate
    rw [Token.locate_extend hlocate trivial]
    dsimp only [Except.map]
    rw [Token.checkShape_extend token following hstarts]
    cases token.checkShape following value with
    | error error => rfl
    | ok => rfl

/-! An array is read up to its closing bracket, so its elements, and what is
made of them, stay as they are. -/

theorem Token.elementsOf_extend {key : String} {array : Bytes}
    {outcome : Except LookupError (List Element)} (helements : Token.elementsOf key array = outcome)
    (hstarts : Starts array) (h : Settled LookupError.isEnd outcome) :
    Token.elementsOf key (array ++ w) = outcome.map (List.map (Element.extend w)) := by
  subst helements
  obtain ⟨b, rest, rfl, -⟩ := hstarts
  unfold Token.elementsOf at h ⊢
  rw [List.cons_append, List.tail_cons]
  rw [List.tail_cons] at h ⊢
  cases hlist : Element.list rest with
  | error fault =>
    rw [hlist, settled_error, LookupError.isEnd_ofFault] at h
    rw [Element.list_extend hlist h]
    rfl
  | ok items =>
    rw [Element.list_extend hlist trivial]
    rfl

theorem Token.elementOf_extend {key : String} {position : Int64} {array : Bytes}
    (hstarts : Starts array) (h : Settled LookupError.isEnd (Token.elementOf key position array)) :
    Token.elementOf key position (array ++ w) = Token.elementOf key position array := by
  unfold Token.elementOf at h ⊢
  cases helements : Token.elementsOf key array with
  | error error =>
    rw [helements] at h
    rw [Token.elementsOf_extend helements hstarts h]
    rfl
  | ok items =>
    rw [Token.elementsOf_extend helements hstarts trivial]
    dsimp only [Except.map]
    rw [Element.at?_extend]
    cases Element.at? items position with
    | none => simp
    | some element => simp

theorem Token.rangeOf_extend {key : String} {left right : Int64} {array : Bytes}
    (hstarts : Starts array) (h : Settled LookupError.isEnd (Token.rangeOf key left right array)) :
    Token.rangeOf key left right (array ++ w) = Token.rangeOf key left right array := by
  unfold Token.rangeOf at h ⊢
  cases helements : Token.elementsOf key array with
  | error error =>
    rw [helements] at h
    rw [Token.elementsOf_extend helements hstarts h]
    rfl
  | ok items =>
    rw [Token.elementsOf_extend helements hstarts trivial]
    dsimp only [Except.map]
    rw [Element.window_extend]
    cases Element.window items left right with
    | none => simp
    | some ends =>
      dsimp only [Option.map, Element.arrayOf, Element.extend]
      rw [upTo_extend]

/-! A value that is measured from its first byte on is the same value, unless
it runs out. -/

theorem afterValue_extend_of_starts {value : Bytes} {outcome : Except Fault Bytes}
    (hvalue : afterValue value = outcome) (hstarts : Starts value)
    (h : Settled Fault.isEnd outcome) (hopen : RunsOut value → Delimited w) :
    afterValue (value ++ w) = outcome.map (· ++ w) := by
  obtain ⟨b, rest, rfl, hb⟩ := hstarts
  rw [List.cons_append]
  unfold afterValue at hvalue ⊢
  rw [afterGap_cons hb] at hvalue ⊢
  exact afterToken_extend hvalue h hopen

theorem Token.valueText_extend {key : String} {value : Bytes} (hstarts : Starts value)
    (h : Settled LookupError.isEnd (Token.valueText key value))
    (hopen : RunsOut value → Delimited w) :
    Token.valueText key (value ++ w) = Token.valueText key value := by
  unfold Token.valueText at h ⊢
  cases hvalue : afterValue value with
  | error fault =>
    rw [hvalue, settled_error, LookupError.isEnd_ofFault] at h
    rw [afterValue_extend_of_starts hvalue hstarts h hopen]
    rfl
  | ok rest =>
    rw [afterValue_extend_of_starts hvalue hstarts trivial hopen]
    exact congrArg Except.ok (upTo_extend value rest)

theorem Function.sizeOf_extend {value : Bytes} (hstarts : Starts value)
    (h : Settled Function.Failure.isEnd (Function.sizeOf value))
    (hopen : RunsOut value → Delimited w) :
    Function.sizeOf (value ++ w) = Function.sizeOf value := by
  unfold Function.sizeOf at h ⊢
  cases hvalue : afterValue value with
  | error fault =>
    rw [hvalue] at h
    rw [afterValue_extend_of_starts hvalue hstarts h hopen]
    rfl
  | ok rest =>
    rw [afterValue_extend_of_starts hvalue hstarts trivial hopen]
    dsimp only [Except.map]
    rw [List.length_append, List.length_append, Nat.add_sub_add_right]

theorem Function.lengthOf_extend {value : Bytes} (hstarts : Starts value)
    (h : Settled Function.Failure.isEnd (Function.lengthOf value)) :
    Function.lengthOf (value ++ w) = Function.lengthOf value := by
  obtain ⟨b, rest, rfl, -⟩ := hstarts
  rw [List.cons_append]
  unfold Function.lengthOf at h ⊢
  dsimp only at h ⊢
  by_cases hquote : b = Byte.quote
  · rw [if_pos hquote] at h
    rw [if_pos hquote, if_pos hquote]
    cases hstring : splitString rest with
    | none =>
      rw [hstring] at h
      exact nomatch h
    | some split => rw [splitString_extend hstring]
  rw [if_neg hquote] at h
  rw [if_neg hquote, if_neg hquote]
  by_cases hsquare : b = Byte.openSquare
  · rw [if_pos hsquare] at h
    rw [if_pos hsquare, if_pos hsquare]
    cases hlist : Element.list rest with
    | error fault =>
      rw [hlist] at h
      rw [Element.list_extend hlist h]
      rfl
    | ok items =>
      rw [Element.list_extend hlist trivial]
      exact congrArg Except.ok (List.length_map _)
  · rw [if_neg hsquare, if_neg hsquare]

/-- A length is settled by its value alone; a size may be that of a scalar that
runs out. -/
theorem Function.call_extend {function : Function} {value : Bytes} (hstarts : Starts value)
    (h : Settled Function.Failure.isEnd (function.call value))
    (hopen : function = .size ∧ RunsOut value → Delimited w) :
    function.call (value ++ w) = function.call value := by
  have hmeasure : Settled Function.Failure.isEnd (function.measure value) := by
    unfold Function.call at h
    split at h
    · next hm => rw [hm]; exact h
    · next hm => rw [hm]; trivial
  unfold Function.call
  cases function with
  | length =>
    rw [show Function.measure .length (value ++ w) = Function.measure .length value from
      Function.lengthOf_extend hstarts hmeasure]
  | size =>
    rw [show Function.measure .size (value ++ w) = Function.measure .size value from
      Function.sizeOf_extend hstarts hmeasure fun ho => hopen ⟨rfl, ho⟩]

theorem settled_of_map {α β : Type} {f : α → β} {outcome : Except LookupError α}
    (h : Settled LookupError.isEnd (outcome.map f)) : Settled LookupError.isEnd outcome := by
  cases outcome with
  | error error => exact h
  | ok a => trivial

theorem Token.result_extend {token : Token} {value : Bytes} (hstarts : Starts value)
    (h : Settled LookupError.isEnd (token.result value))
    (hopen : token.isArray = false ∧ RunsOut value → Delimited w) :
    token.result (value ++ w) = token.result value := by
  obtain ⟨key, selector⟩ := token
  unfold Token.result at h ⊢
  cases selector with
  | member =>
    exact congrArg (Except.map Slice.verbatim)
      (Token.valueText_extend hstarts (settled_of_map h) fun ho => hopen ⟨rfl, ho⟩)
  | index position =>
    exact congrArg (Except.map Slice.verbatim) (Token.elementOf_extend hstarts (settled_of_map h))
  | range left right =>
    exact congrArg (Except.map Slice.assembled) (Token.rangeOf_extend hstarts (settled_of_map h))
  | function function =>
    exact congrArg (Except.map Slice.verbatim)
      (Token.valueText_extend hstarts (settled_of_map h) fun ho => hopen ⟨rfl, ho⟩)

/-! ## Paths -/

/-- The path measures a bare scalar that the document ends in: by keys alone it
comes to a value that runs out, which its last token gives as it stands, or the
function `size` counts. -/
def Token.OpenEnded (token : Token) : List Token → Bytes → Prop
  | [], doc =>
    token.isArray = false ∧ ∃ value, token.enter [] doc = .ok value ∧ RunsOut value
  | next :: following, doc =>
    (∀ position, token.selector ≠ .index position) ∧
      ∃ value, token.enter (next :: following) doc = .ok value ∧
        match next.selector with
        | .function function => function = .size ∧ RunsOut value
        | _ => next.OpenEnded following value

@[inherit_doc Token.OpenEnded]
def Path.OpenEnded (path : Path) (doc : Bytes) : Prop := path.head.OpenEnded path.tail doc

/-- What a chain gives for the text it measures: the text itself, or, if a
function follows, the number of its bytes. -/
def Token.answer : List Token → Bytes → Slice
  | [], text => .verbatim text
  | next :: following, text =>
    match next.selector with
    | .function _ => .assembled (Bytes.ofString text.length.repr)
    | _ => answer following text

theorem Token.narrow_of_index {token : Token} {position : Int64}
    (h : token.selector = .index position) (value : Bytes) :
    token.narrow value = Token.elementOf token.key position value := by
  rw [Token.narrow, h]

theorem Token.narrow_of_ne_index {token : Token} (h : ∀ position, token.selector ≠ .index position)
    (value : Bytes) : token.narrow value = .ok value := by
  unfold Token.narrow
  split
  · next hindex => exact absurd hindex (h _)
  · rfl

section

variable {token next : Token} {following : List Token} {doc value : Bytes}

/-- One step on from a value. -/
theorem Token.follow_step (henter : token.enter (next :: following) doc = .ok value)
    (hkeys : ∀ position, token.selector ≠ .index position)
    (hnext : ∀ function, next.selector ≠ .function function) :
    token.follow (next :: following) doc = next.follow following value := by
  rw [Token.follow, henter]
  dsimp only
  rw [Token.narrow_of_ne_index hkeys]
  dsimp only
  split
  · next hf => exact absurd hf (hnext _)
  · rfl

/-- A function of a value ends the walk. -/
theorem Token.follow_call {function : Function}
    (henter : token.enter (next :: following) doc = .ok value)
    (hkeys : ∀ position, token.selector ≠ .index position)
    (hnext : next.selector = .function function) :
    token.follow (next :: following) doc =
      ((function.call value).mapError (LookupError.ofFailure token.key function)).map
        .assembled := by
  rw [Token.follow, henter]
  dsimp only
  rw [Token.narrow_of_ne_index hkeys, hnext]
  dsimp only
  cases function.call value with
  | error failure => rfl
  | ok number => rfl

theorem Token.answer_step (hnext : ∀ function, next.selector ≠ .function function) (text : Bytes) :
    Token.answer (next :: following) text = Token.answer following text := by
  rw [Token.answer]
  split
  · next hf => exact absurd hf (hnext _)
  · rfl

theorem Token.openEnded_step (henter : token.enter (next :: following) doc = .ok value)
    (hkeys : ∀ position, token.selector ≠ .index position)
    (hnext : ∀ function, next.selector ≠ .function function) :
    token.OpenEnded (next :: following) doc ↔ next.OpenEnded following value := by
  constructor
  · rintro ⟨-, value', henter', hopen⟩
    obtain rfl := Except.ok.inj (henter'.symm.trans henter)
    split at hopen
    · next hf => exact absurd hf (hnext _)
    · exact hopen
  · intro hopen
    refine ⟨hkeys, value, henter, ?_⟩
    split
    · next hf => exact absurd hf (hnext _)
    · exact hopen

theorem Token.openEnded_call {function : Function}
    (henter : token.enter (next :: following) doc = .ok value)
    (hkeys : ∀ position, token.selector ≠ .index position)
    (hnext : next.selector = .function function) :
    token.OpenEnded (next :: following) doc ↔ function = .size ∧ RunsOut value := by
  constructor
  · rintro ⟨-, value', henter', hopen⟩
    obtain rfl := Except.ok.inj (henter'.symm.trans henter)
    rw [hnext] at hopen
    exact hopen
  · intro hopen
    refine ⟨hkeys, value, henter, ?_⟩
    rw [hnext]
    exact hopen

end

theorem Token.follow_extend (token : Token) : ∀ (following : List Token) (doc : Bytes),
    Settled LookupError.isEnd (token.follow following doc) →
    (token.OpenEnded following doc → Delimited w) →
    token.follow following (doc ++ w) = token.follow following doc
  | [], doc, h, hopen => by
    unfold Token.follow at h ⊢
    cases henter : token.enter [] doc with
    | error error =>
      rw [henter] at h
      rw [Token.enter_extend henter h]
      rfl
    | ok value =>
      rw [henter] at h
      rw [Token.enter_extend henter trivial]
      obtain ⟨-, hstarts⟩ := Token.enter_value henter
      exact Token.result_extend hstarts h fun ho => hopen ⟨ho.1, value, henter, ho.2⟩
  | next :: following, doc, h, hopen => by
    cases henter : token.enter (next :: following) doc with
    | error error =>
      unfold Token.follow at h ⊢
      rw [henter] at h
      rw [Token.enter_extend henter h, henter]
      rfl
    | ok value =>
    have henter' : token.enter (next :: following) (doc ++ w) = .ok (value ++ w) :=
      Token.enter_extend henter trivial
    obtain ⟨-, hstarts⟩ := Token.enter_value henter
    by_cases hindex : ∃ position, token.selector = .index position
    · -- From an element on, both walks are in the same text.
      obtain ⟨position, hindex⟩ := hindex
      unfold Token.follow at h ⊢
      rw [henter] at h
      rw [henter, henter']
      dsimp only at h ⊢
      rw [Token.narrow_of_index hindex] at h
      rw [Token.narrow_of_index hindex, Token.narrow_of_index hindex]
      have helement : Settled LookupError.isEnd (Token.elementOf token.key position value) := by
        split at h
        · next hnarrow => rw [hnarrow]; exact h
        · next hnarrow => rw [hnarrow]; trivial
      rw [Token.elementOf_extend hstarts helement]
    have hkeys : ∀ position, token.selector ≠ .index position := fun position hp =>
      hindex ⟨position, hp⟩
    by_cases hfunction : ∃ function, next.selector = .function function
    · obtain ⟨function, hnext⟩ := hfunction
      rw [Token.openEnded_call henter hkeys hnext] at hopen
      rw [Token.follow_call henter hkeys hnext] at h ⊢
      have hcall : Settled Function.Failure.isEnd (function.call value) := by
        cases hcall : function.call value with
        | ok number => trivial
        | error failure =>
          rw [hcall] at h
          exact (LookupError.isEnd_ofFailure token.key function failure).symm.trans h
      rw [Token.follow_call henter' hkeys hnext, Function.call_extend hstarts hcall hopen]
    · have hnext : ∀ function, next.selector ≠ .function function := fun function hf =>
        hfunction ⟨function, hf⟩
      rw [Token.openEnded_step henter hkeys hnext] at hopen
      rw [Token.follow_step henter hkeys hnext] at h ⊢
      rw [Token.follow_step henter' hkeys hnext]
      exact Token.follow_extend next following value h hopen

/-! ## The exception -/

/-- The bytes up to the end of a scalar. -/
def scalarRun (w : Bytes) : Bytes := w.takeWhile fun b => !Byte.endsScalar b

/-- A scalar that runs out goes on into what is added. -/
theorem RunsOut.afterValue_append {scalar : Bytes} (h : RunsOut scalar) (w : Bytes) :
    afterValue (scalar ++ w) = .ok (afterScalar w) := by
  cases scalar with
  | nil => exact absurd h id
  | cons b rest =>
    obtain ⟨-, -, -, hends⟩ := Byte.startsScalar_iff.mp h.1
    unfold afterValue
    rw [List.cons_append, afterGap_cons (Byte.isSeparator_of_endsScalar hends)]
    dsimp only
    rw [afterToken_scalar h.1, afterScalar_append h.2]

theorem append_scalarRun (scalar w : Bytes) :
    scalar ++ w = (scalar ++ scalarRun w) ++ afterScalar w := by
  have hsplit : scalarRun w ++ afterScalar w = w := List.takeWhile_append_dropWhile
  rw [List.append_assoc, hsplit]

theorem RunsOut.valueText_append {scalar : Bytes} (h : RunsOut scalar) (key : String) (w : Bytes) :
    Token.valueText key (scalar ++ w) = .ok (scalar ++ scalarRun w) := by
  unfold Token.valueText
  rw [h.afterValue_append w]
  dsimp only
  rw [append_scalarRun, Bytes.upTo_append]

theorem RunsOut.size_append {scalar : Bytes} (h : RunsOut scalar) (w : Bytes) :
    Function.size.call (scalar ++ w) =
      .ok (Bytes.ofString (scalar ++ scalarRun w).length.repr) := by
  have hsize : Function.sizeOf (scalar ++ w) = .ok (scalar ++ scalarRun w).length := by
    have hlength : (scalar ++ w).length =
        (scalar ++ scalarRun w).length + (afterScalar w).length := by
      rw [← List.length_append, ← append_scalarRun]
    unfold Function.sizeOf
    rw [h.afterValue_append w]
    dsimp only
    rw [hlength, Nat.add_sub_cancel]
  unfold Function.call
  rw [show Function.measure .size (scalar ++ w) = _ from hsize]

theorem Token.result_of_not_isArray {token : Token} (h : token.isArray = false) (value : Bytes) :
    token.result value = (Token.valueText token.key value).map .verbatim := by
  obtain ⟨key, selector⟩ := token
  cases selector with
  | member => rfl
  | function => rfl
  | index => exact nomatch h
  | range => exact nomatch h

/-- A path that measures a scalar that runs out gives it with what is added to it. -/
theorem Token.follow_of_openEnded (token : Token) : ∀ (following : List Token) (doc : Bytes),
    token.OpenEnded following doc → ∃ scalar, scalar <:+ doc ∧ RunsOut scalar ∧ ∀ w,
      token.follow following (doc ++ w) = .ok (Token.answer following (scalar ++ scalarRun w))
  | [], doc, h => by
    obtain ⟨harray, value, henter, hopen⟩ := h
    refine ⟨value, (Token.enter_value henter).1, hopen, fun w => ?_⟩
    unfold Token.follow
    rw [Token.enter_extend henter trivial]
    dsimp only [Except.map]
    rw [Token.result_of_not_isArray harray, hopen.valueText_append]
    rfl
  | next :: following, doc, h => by
    obtain ⟨hkeys, value, henter, -⟩ := id h
    obtain ⟨hsuffix, -⟩ := Token.enter_value henter
    have henter' (w : Bytes) : token.enter (next :: following) (doc ++ w) = .ok (value ++ w) :=
      Token.enter_extend henter trivial
    by_cases hfunction : ∃ function, next.selector = .function function
    · obtain ⟨function, hnext⟩ := hfunction
      obtain ⟨rfl, hopen⟩ := (Token.openEnded_call henter hkeys hnext).mp h
      refine ⟨value, hsuffix, hopen, fun w => ?_⟩
      rw [Token.follow_call (henter' w) hkeys hnext, hopen.size_append, Token.answer, hnext]
      rfl
    · have hnext : ∀ function, next.selector ≠ .function function := fun function hf =>
        hfunction ⟨function, hf⟩
      obtain ⟨scalar, hscalar, hruns, hanswer⟩ :=
        Token.follow_of_openEnded next following value
          ((Token.openEnded_step henter hkeys hnext).mp h)
      refine ⟨scalar, hscalar.trans hsuffix, hruns, fun w => ?_⟩
      rw [Token.follow_step (henter' w) hkeys hnext, Token.answer_step hnext, hanswer]

/-! ## More input -/

/-- **Added bytes never change an answer that was given.** Unless the outcome
on a document is that it ended too early, the outcome on a longer document is
the same if the added bytes begin with the end of a scalar, or the path does
not measure a bare scalar that the document ends in. If it does, that scalar is
the end of the document, and the longer document's answer is the one for the
scalar together with the added bytes up to the first that ends it. So a
document that is cut short gives an early end, the answer of the whole, or a
scalar cut short. -/
theorem Path.get_append (path : Path) (doc w : Bytes)
    (h : ∀ region, path.get doc ≠ .error (.unexpectedEnd region)) :
    (Delimited w ∨ ¬path.OpenEnded doc → path.get (doc ++ w) = path.get doc) ∧
    (path.OpenEnded doc → ∃ scalar, scalar <:+ doc ∧ RunsOut scalar ∧
      path.get doc = .ok (Token.answer path.tail scalar) ∧
      path.get (doc ++ w) = .ok (Token.answer path.tail (scalar ++ scalarRun w))) := by
  have hsettled : Settled LookupError.isEnd (path.get doc) := by
    cases hget : path.get doc with
    | ok slice => trivial
    | error error =>
      cases error with
      | unexpectedEnd region => exact absurd hget (h region)
      | _ => rfl
  constructor
  · rintro (hd | hopen)
    · exact Token.follow_extend path.head path.tail doc hsettled fun _ => hd
    · exact Token.follow_extend path.head path.tail doc hsettled fun ho => absurd ho hopen
  · intro hopen
    obtain ⟨scalar, hsuffix, hruns, hanswer⟩ :=
      Token.follow_of_openEnded path.head path.tail doc hopen
    have hnow := hanswer []
    rw [List.append_nil, show scalarRun [] = [] from rfl, List.append_nil] at hnow
    exact ⟨scalar, hsuffix, hruns, hnow, hanswer w⟩

theorem eq_ok_of_toOption {ε α : Type} {outcome : Except ε α} {a : α}
    (h : outcome.toOption = some a) : outcome = .ok a := by
  cases outcome with
  | error error => cases h
  | ok a => cases h; rfl

/-- A number that the document ends in: a blank behind it ends it, another digit
goes on with it. -/
theorem Path.get_append_number :
    Path.get ⟨⟨"$", .member⟩, [⟨"a", .member⟩]⟩ (Bytes.ofString "\x7b\"a\":12") =
      .ok (.verbatim (Bytes.ofString "12")) ∧
    Path.get ⟨⟨"$", .member⟩, [⟨"a", .member⟩]⟩
        (Bytes.ofString "\x7b\"a\":12" ++ Bytes.ofString " \x7d") =
      .ok (.verbatim (Bytes.ofString "12")) ∧
    Path.get ⟨⟨"$", .member⟩, [⟨"a", .member⟩]⟩
        (Bytes.ofString "\x7b\"a\":12" ++ Bytes.ofString "3\x7d") =
      .ok (.verbatim (Bytes.ofString "123")) := by
  have hnow : Path.get ⟨⟨"$", .member⟩, [⟨"a", .member⟩]⟩ (Bytes.ofString "\x7b\"a\":12") =
      .ok (.verbatim (Bytes.ofString "12")) :=
    eq_ok_of_toOption (by decide +kernel)
  have hsettled : ∀ region, Path.get ⟨⟨"$", .member⟩, [⟨"a", .member⟩]⟩
      (Bytes.ofString "\x7b\"a\":12") ≠ .error (.unexpectedEnd region) := by
    intro region hend
    rw [hnow] at hend
    cases hend
  have hopen : Path.OpenEnded ⟨⟨"$", .member⟩, [⟨"a", .member⟩]⟩
      (Bytes.ofString "\x7b\"a\":12") := by
    refine ⟨fun position hindex => (by cases hindex), Bytes.ofString "\x7b\"a\":12",
      eq_ok_of_toOption (by decide +kernel), rfl, Bytes.ofString "12",
      eq_ok_of_toOption (by decide +kernel), ?_⟩
    exact ⟨by decide, List.all_iff_forall_prop.mp (by decide)⟩
  refine ⟨hnow, ?_, ?_⟩
  · rw [(Path.get_append _ _ _ hsettled).1 (.inl (by decide)), hnow]
  · obtain ⟨scalar, -, -, hscalar, hlonger⟩ := (Path.get_append _ _ _ hsettled).2 hopen
    rw [hlonger]
    rw [hnow] at hscalar
    cases hscalar
    rfl

end RawJson
