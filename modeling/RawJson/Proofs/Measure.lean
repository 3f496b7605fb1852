/-
The size of a value and the value itself. A path that gives one value gives it
as the last token of a chain; with `size` behind it the same token hands the
value to a function instead. Each of the two checks the value for itself, and an
element is handed out as it was cut in the one case and scanned once more in the
other. Both come to the text of the value that the token leads to
(`Token.follow_text`, `Token.follow_size`), so they succeed and fail together.

`length` counts the bytes of a string, so there it is the size.
-/
import RawJson.Proofs.Selection

namespace RawJson

/-! ## Measuring a value -/

theorem length_upTo (doc rest : Bytes) :
    (Bytes.upTo doc rest).length = doc.length - rest.length := by
  rw [Bytes.upTo, List.length_take, Nat.min_eq_left (Nat.sub_le _ _)]

theorem Function.call_size (key : String) (doc : Bytes) :
    (Function.size.call doc).mapError (LookupError.ofFailure key .size) =
      (Token.valueText key doc).map fun text => Bytes.ofString text.length.repr := by
  rw [Function.call, Function.measure, Function.sizeOf, Token.valueText]
  cases afterValue doc with
  | error fault => rfl
  | ok rest =>
    dsimp only [Except.map, Except.mapError]
    rw [length_upTo]

theorem Function.lengthOf_quote (rest : Bytes) :
    Function.lengthOf (Byte.quote :: rest) = Function.sizeOf (Byte.quote :: rest) := by
  rw [Function.lengthOf, Function.sizeOf, if_pos rfl, afterValue, afterGap_cons rfl]
  dsimp only
  rw [afterToken_quote]
  cases hsplit : splitString rest with
  | none => rfl
  | some split =>
    obtain ⟨body, beyond⟩ := split
    obtain ⟨-, rfl⟩ := splitString_eq_some_iff.mp hsplit
    simp only [List.length_cons, List.length_append, Except.ok.injEq]
    omega

theorem Function.call_length_quote (key : String) (rest : Bytes) :
    (Function.length.call (Byte.quote :: rest)).mapError (LookupError.ofFailure key .length) =
      (Function.size.call (Byte.quote :: rest)).mapError (LookupError.ofFailure key .size) := by
  rw [Function.call, Function.measure, Function.lengthOf_quote, Function.call, Function.measure,
    Function.sizeOf]
  cases afterValue (Byte.quote :: rest) <;> rfl

/-! ## The last step -/

/-- The call of the function that counts bytes. -/
def Path.sizeCall : Token := ⟨Function.size.name, .function .size⟩

namespace Token

open RawJson.Path (sizeCall)

theorem enter_subject (token : Token) {next : Token} (h : next.isFunction = true) (doc : Bytes) :
    token.enter [next] doc = token.enter [] doc := by
  have hsubject : (isTerminal [next] || isSubject [next]) = true := h
  have hterminal : (isTerminal [] || isSubject []) = true := rfl
  unfold enter checkShape
  rw [hsubject, hterminal]

theorem valueText_of_isValue {key : String} {text : Bytes} (h : IsValue text) :
    valueText key text = .ok text := by
  have htext : Bytes.upTo text [] = text := by
    have := Bytes.upTo_append text []
    rwa [List.append_nil] at this
  unfold valueText
  rw [(isValue_iff.mp h).2]
  dsimp only
  rw [htext]

/-- What a token gives as the last one is the text of the value that it would
hand on. -/
theorem result_eq_narrow {token : Token} (hlast : token.endsPath = false) (value : Bytes) :
    token.result value =
      (token.narrow value).bind fun inner => (valueText token.key inner).map .verbatim := by
  obtain ⟨key, selector⟩ := token
  cases selector with
  | member => rfl
  | index position =>
    show (elementOf key position value).map Slice.verbatim = (elementOf key position value).bind _
    cases helement : elementOf key position value with
    | error error => rfl
    | ok text =>
      dsimp only [Except.bind]
      rw [valueText_of_isValue (elementOf_eq_ok helement).1]
  | range => cases hlast
  | function => cases hlast

theorem follow_text {token next : Token} (hlast : token.endsPath = false)
    (hnext : next.isFunction = true) (doc : Bytes) :
    token.follow [] doc =
      (token.descend [next] doc).bind fun inner => (valueText token.key inner).map .verbatim := by
  rw [follow_nil, descend, enter_subject token hnext]
  cases token.enter [] doc with
  | error error => rfl
  | ok value => exact result_eq_narrow hlast value

theorem follow_size (token : Token) (doc : Bytes) :
    token.follow [sizeCall] doc =
      (token.descend [sizeCall] doc).bind fun inner =>
        (valueText token.key inner).map fun text =>
          .assembled (Bytes.ofString text.length.repr) := by
  rw [follow_eq_resume]
  congr 1
  funext inner
  rw [resume_function token.key rfl [] inner, Function.call_size]
  cases valueText token.key inner <;> rfl

theorem follow_size_eq_map {token : Token} (hlast : token.endsPath = false) (doc : Bytes) :
    token.follow [sizeCall] doc =
      (token.follow [] doc).map fun slice =>
        .assembled (Bytes.ofString slice.bytes.length.repr) := by
  have hcall : sizeCall.isFunction = true := rfl
  rw [follow_size, follow_text hlast hcall]
  cases token.descend [sizeCall] doc with
  | error error => rfl
  | ok inner =>
    dsimp only [Except.bind]
    cases valueText token.key inner <;> rfl

end Token

/-! ## Paths -/

namespace Path

/-- The walk along a path comes to this value, which a function behind the path
is called on. -/
def HandsOn (path : Path) (doc value : Bytes) : Prop :=
  (path.approach doc).bind (path.last.descend [sizeCall]) = .ok value

theorem append_sizeCall_get {path : Path} (hplain : path.Plain) (hlast : path.last.endsPath = false)
    (doc : Bytes) :
    (path.append [sizeCall]).get doc =
      (path.get doc).map fun slice => .assembled (Bytes.ofString slice.bytes.length.repr) := by
  rw [append_get hplain, get_eq hplain]
  cases path.approach doc with
  | error error => rfl
  | ok start => exact Token.follow_size_eq_map hlast start

/-- What a function behind a path gives for the value that the path hands on. -/
theorem HandsOn.call_get {path : Path} (hplain : path.Plain) {doc value : Bytes}
    (h : path.HandsOn doc value) {call : Token} {function : Function}
    (hcall : call.selector = .function function) :
    (path.append [call]).get doc =
      ((function.call value).mapError (LookupError.ofFailure path.last.key function)).map
        .assembled := by
  obtain ⟨start, happroach, hdescend⟩ := bind_eq_ok_iff.mp h
  have hfunction : call.isFunction = true := by rw [Token.isFunction, hcall]
  rw [append_get hplain, happroach]
  refine (Token.follow_eq_resume path.last call [] start).trans ?_
  rw [path.last.descend_congr [] [] (hfunction.trans rfl : call.isFunction = sizeCall.isFunction),
    hdescend]
  exact Token.resume_function path.last.key hcall [] value

/-- **The size is that of the result.** Let a path end in a member token or a
single position. With `size` behind it, it gives the number of bytes of what it
gives without, on every document: the one run succeeds where the other does, and
they fail with the same error. Where the value that the path comes to is a
string, whole or cut short, `length` is `size`. -/
theorem size_get (path : Path) (hwell : path.WellFormed) (hlast : path.last.endsPath = false)
    (doc : Bytes) :
    ((path.append [sizeCall]).get doc =
      (path.get doc).map fun slice => .assembled (Bytes.ofString slice.bytes.length.repr)) ∧
    (∀ n : Nat, (path.append [sizeCall]).get doc = .ok (.assembled (Bytes.ofString n.repr)) ↔
      ∃ slice, path.get doc = .ok slice ∧ slice.bytes.length = n) ∧
    (∀ error, (path.append [sizeCall]).get doc = .error error ↔ path.get doc = .error error) ∧
    (∀ value, path.HandsOn doc value → value.head? = some Byte.quote →
      (path.append [lengthCall]).get doc = (path.append [sizeCall]).get doc) := by
  have hfunction : path.last.isFunction = false := (Bool.or_eq_false_iff.mp hlast).2
  have hplain : path.Plain := hwell.plain hfunction
  have hsize := append_sizeCall_get hplain hlast doc
  refine ⟨hsize, fun n => ?_, fun error => ?_, fun value hvalue hquote => ?_⟩
  · rw [hsize, map_eq_ok_iff]
    refine exists_congr fun slice => and_congr_right fun _ => ⟨fun h => ?_, fun h => by rw [h]⟩
    have hrepr := Bytes.ofString_injective (Slice.assembled.inj h)
    rw [← Decimal.toNat_repr slice.bytes.length, hrepr, Decimal.toNat_repr]
  · rw [hsize]
    cases path.get doc with
    | error other => exact ⟨fun h => h, fun h => h⟩
    | ok slice => exact ⟨nofun, nofun⟩
  · cases value with
    | nil => cases hquote
    | cons b rest =>
      obtain rfl := Option.some.inj hquote
      rw [hvalue.call_get hplain (rfl : lengthCall.selector = .function .length),
        hvalue.call_get hplain (rfl : sizeCall.selector = .function .size),
        Function.call_length_quote]

/-- An array that closes although its document does not: an element whose brackets
cross, a string, and a position out of reach. -/
theorem size_get_crossed :
    Path.get ⟨⟨"$", .member⟩, [⟨"a", .index (-2)⟩, sizeCall]⟩
        (Bytes.ofString "\x7b\"a\":[1 \x7b]:\x7d \"b\\\"c\"]") =
      .ok (.assembled (Bytes.ofString "4")) ∧
    (∃ error, Path.get ⟨⟨"$", .member⟩, [⟨"a", .index 7⟩, sizeCall]⟩
        (Bytes.ofString "\x7b\"a\":[1 \x7b]:\x7d \"b\\\"c\"]") = .error error ∧
      Path.get ⟨⟨"$", .member⟩, [⟨"a", .index 7⟩]⟩
        (Bytes.ofString "\x7b\"a\":[1 \x7b]:\x7d \"b\\\"c\"]") = .error error) ∧
    Path.get ⟨⟨"$", .member⟩, [⟨"a", .index (-1)⟩, lengthCall]⟩
        (Bytes.ofString "\x7b\"a\":[1 \x7b]:\x7d \"b\\\"c\"]") =
      .ok (.assembled (Bytes.ofString "6")) := by
  have hwell (position : Int64) (text : String)
      (h : Path.parse 2 text = .ok ⟨⟨"$", .member⟩, [⟨"a", .index position⟩]⟩) :
      Path.WellFormed ⟨⟨"$", .member⟩, [⟨"a", .index position⟩]⟩ := Path.wellFormed_of_parse h
  obtain ⟨hcrossed, -⟩ := size_get _ (hwell (-2) "$.a[-2]" rfl) rfl
    (Bytes.ofString "\x7b\"a\":[1 \x7b]:\x7d \"b\\\"c\"]")
  obtain ⟨-, -, hbeyond, -⟩ := size_get _ (hwell 7 "$.a[7]" rfl) rfl
    (Bytes.ofString "\x7b\"a\":[1 \x7b]:\x7d \"b\\\"c\"]")
  obtain ⟨-, hsize, -, hstring⟩ := size_get _ (hwell (-1) "$.a[-1]" rfl) rfl
    (Bytes.ofString "\x7b\"a\":[1 \x7b]:\x7d \"b\\\"c\"]")
  refine ⟨?_, ?_, ?_⟩
  · have hget : Path.get ⟨⟨"$", .member⟩, [⟨"a", .index (-2)⟩]⟩
        (Bytes.ofString "\x7b\"a\":[1 \x7b]:\x7d \"b\\\"c\"]") =
          .ok (.verbatim (Bytes.ofString "\x7b]:\x7d")) := eq_ok_of_toOption (by decide +kernel)
    rw [hget] at hcrossed
    exact hcrossed
  · have hnone : (Path.get ⟨⟨"$", .member⟩, [⟨"a", .index 7⟩]⟩
        (Bytes.ofString "\x7b\"a\":[1 \x7b]:\x7d \"b\\\"c\"]")).toOption = none := by
      decide +kernel
    cases hget : Path.get ⟨⟨"$", .member⟩, [⟨"a", .index 7⟩]⟩
        (Bytes.ofString "\x7b\"a\":[1 \x7b]:\x7d \"b\\\"c\"]") with
    | ok slice =>
      rw [hget] at hnone
      exact absurd hnone (Option.some_ne_none _)
    | error error => exact ⟨error, (hbeyond error).mpr hget, rfl⟩
  · refine (hstring (Bytes.ofString "\"b\\\"c\"")
      (eq_ok_of_toOption (by decide +kernel)) rfl).trans ?_
    exact (hsize 6).mpr ⟨.verbatim (Bytes.ofString "\"b\\\"c\""),
      eq_ok_of_toOption (by decide +kernel), rfl⟩

end Path

end RawJson
