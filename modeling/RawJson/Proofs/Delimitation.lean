/-
What a path selects, read on its own. A value is measured inside a longer text,
by a scan that sees what stands behind it; cut out, it must be one complete
value all the same, so that it can be handed on as a document of its own. That
holds for every text a path was followed through, well formed or not
(`Path.result_selfDelimiting`): the last step measures a value from its first
byte on, or takes an element that was measured so.
-/
import RawJson.Extractor
import RawJson.Proofs.Descent

namespace RawJson

/-! ## Complete values -/

/-- A text that is one value to its last byte, and shows it. -/
structure SelfDelimiting (text : Bytes) : Prop where
  starts : Starts text
  /-- A scan of the text alone ends exactly at its end. -/
  scanned : afterValue text = .ok []
  /-- A string ends in a quote, the first that is not escaped. -/
  string : ∀ rest, text = Byte.quote :: rest → ∃ body, IsBody body ∧ rest = body ++ [Byte.quote]
  /-- A container ends in the bracket that balances its first one. -/
  container : ∀ (bracket : Bracket) (rest : Bytes), text = bracket.opening :: rest →
    Closes bracket 0 rest ∧ rest.getLast? = some bracket.closing
  /-- A bare scalar has no blank, no comma and no closing bracket in it. -/
  scalar : (∀ b ∈ text.head?, b ≠ Byte.quote ∧ ∀ bracket : Bracket, b ≠ bracket.opening) →
    ∀ b ∈ text, Byte.endsScalar b = false

theorem Closes.getLast? {bracket : Bracket} {depth : Nat} {text : Bytes}
    (h : Closes bracket depth text) : text.getLast? = some bracket.closing := by
  induction h with
  | last => rfl
  | closing _ ih | opening _ ih | other _ _ _ _ ih => rw [List.getLast?_cons, ih, Option.getD_some]
  | @string depth body text _ _ ih =>
    rw [List.getLast?_cons, List.getLast?_append, List.getLast?_cons, ih]
    rfl

theorem Bracket.opening_injective {a b : Bracket} (h : a.opening = b.opening) : a = b := by
  cases a <;> cases b <;> first | rfl | exact absurd h (by decide)

theorem IsValue.selfDelimiting {text : Bytes} (h : IsValue text) : SelfDelimiting text := by
  obtain ⟨hstarts, hscan⟩ := isValue_iff.mp h
  obtain ⟨b, more, rfl, htoken⟩ := h
  refine ⟨hstarts, hscan, ?_, ?_, ?_⟩
  · intro rest heq
    cases heq
    generalize hb : Byte.quote = b at htoken
    cases htoken with
    | string hbody => exact ⟨_, hbody, rfl⟩
    | container bracket => exact absurd hb.symm bracket.opening_ne_quote
    | scalar hstart => exact absurd hb.symm (Byte.startsScalar_iff.mp hstart).1
  · intro bracket rest heq
    obtain ⟨rfl, rfl⟩ := List.cons.inj heq
    generalize hb : bracket.opening = b at htoken
    cases htoken with
    | string => exact absurd hb bracket.opening_ne_quote
    | container other hcloses =>
      obtain rfl := Bracket.opening_injective hb
      exact ⟨hcloses, hcloses.getLast?⟩
    | scalar hstart =>
      rw [← hb, Byte.startsScalar_opening] at hstart
      cases hstart
  · intro hbare
    obtain ⟨hquote, hbracket⟩ := hbare b rfl
    cases htoken with
    | string => exact absurd rfl hquote
    | container bracket => exact absurd rfl (hbracket bracket)
    | scalar hstart hmore =>
      intro c hc
      rcases List.mem_cons.mp hc with rfl | hc
      · exact (Byte.startsScalar_iff.mp hstart).2.2.2
      · exact hmore c hc

/-! ## What the last token gives -/

namespace Token

theorem valueText_eq_ok {key : String} {value text : Bytes} (hstarts : Starts value)
    (h : valueText key value = .ok text) :
    ∃ rest, IsValue text ∧ value = text ++ rest ∧ (RunsOut text → Delimited rest) := by
  unfold valueText at h
  split at h
  · cases h
  next rest hscan =>
  cases h
  obtain ⟨text, hvalue, rfl, hd⟩ := (afterValue_eq_ok_iff hstarts).mp hscan
  rw [Bytes.upTo_append]
  exact ⟨rest, hvalue, rfl, hd⟩

theorem follow_nil_eq_ok {token : Token} (hlast : token.endsPath = false) {start : Bytes}
    {slice : Slice} (h : token.follow [] start = .ok slice) :
    ∃ text, slice = .verbatim text ∧ IsValue text ∧ text <:+: start := by
  rw [follow_nil] at h
  obtain ⟨value, henter, h⟩ := bind_eq_ok_iff.mp h
  obtain ⟨hsuffix, hstarts⟩ := enter_value henter
  obtain ⟨key, selector⟩ := token
  cases selector with
  | member =>
    obtain ⟨text, htext, rfl⟩ := map_eq_ok_iff.mp h
    obtain ⟨rest, hvalue, rfl, -⟩ := valueText_eq_ok hstarts htext
    exact ⟨text, rfl, hvalue, (List.infix_append' [] text rest).trans hsuffix.isInfix⟩
  | index position =>
    obtain ⟨text, helement, rfl⟩ := map_eq_ok_iff.mp h
    obtain ⟨hvalue, hpart⟩ := elementOf_eq_ok helement
    exact ⟨text, rfl, hvalue, hpart.trans hsuffix.isInfix⟩
  | range => cases hlast
  | function => cases hlast

theorem isAssembled_result {token : Token} {value : Bytes} {slice : Slice}
    (hfirst : token.isFunction = false) (h : token.result value = .ok slice) :
    slice.isAssembled = token.endsPath := by
  obtain ⟨key, selector⟩ := token
  cases selector with
  | function => cases hfirst
  | member | index | range =>
    obtain ⟨text, -, rfl⟩ := map_eq_ok_iff.mp h
    rfl

theorem isAssembled_resume {key : String} {next : Token} {following : List Token} {start : Bytes}
    {slice : Slice} (hnext : next.isFunction = true)
    (h : resume key next following start = .ok slice) : slice.isAssembled = true := by
  cases hselector : next.selector with
  | function function =>
    rw [resume_function key hselector] at h
    obtain ⟨number, -, rfl⟩ := map_eq_ok_iff.mp h
    rfl
  | member | index | range =>
    rw [isFunction, hselector] at hnext
    cases hnext

/-- A result is assembled exactly if the last token is a range or a function. -/
theorem isAssembled_follow {token : Token} {following : List Token} {doc : Bytes} {slice : Slice}
    (hfirst : token.isFunction = false)
    (hends : ∀ t ∈ (token :: following).dropLast, t.endsPath = false)
    (h : token.follow following doc = .ok slice) :
    slice.isAssembled = (token.lastOf following).endsPath := by
  induction following generalizing token doc with
  | nil =>
    rw [follow_nil] at h
    obtain ⟨value, -, h⟩ := bind_eq_ok_iff.mp h
    exact isAssembled_result hfirst h
  | cons next following ih =>
    have hothers : ∀ t ∈ (next :: following).dropLast, t.endsPath = false := fun t ht =>
      hends t (List.mem_cons_of_mem _ ht)
    cases hnext : next.isFunction with
    | false =>
      rw [follow_cons token following doc hnext] at h
      obtain ⟨start, -, h⟩ := bind_eq_ok_iff.mp h
      exact ih hnext hothers h
    | true =>
      have hlast : next.endsPath = true := by rw [endsPath, hnext, Bool.or_true]
      rw [follow_eq_resume] at h
      obtain ⟨start, -, h⟩ := bind_eq_ok_iff.mp h
      rw [isAssembled_resume hnext h]
      -- Nothing can follow a call.
      cases following with
      | nil => exact hlast.symm
      | cons => exact absurd (hothers next List.mem_cons_self) (by rw [hlast]; decide)

theorem locate_root {doc value : Bytes} (h : locate rootKey doc = .ok value) :
    ∃ (bracket : Bracket) (rest : Bytes), value = bracket.opening :: rest := by
  unfold locate at h
  split at h
  · cases h
  next b rest hgap =>
  split at h
  · cases h
  next hopen =>
  rw [if_pos rfl] at h
  cases h
  by_cases hb : b = Byte.openBrace
  · exact ⟨.brace, rest, by rw [hb]; rfl⟩
  · have hs : b = Byte.openSquare := Decidable.byContradiction fun hs => hopen ⟨hb, hs⟩
    exact ⟨.square, rest, by rw [hs]; rfl⟩

theorem locate_root_opening (bracket : Bracket) (rest : Bytes) :
    locate rootKey (bracket.opening :: rest) = .ok (bracket.opening :: rest) := by
  cases bracket <;> rfl

end Token

/-! ## Results -/

/-- A container alone is what its root key selects from it. -/
theorem IsValue.get_root {bracket : Bracket} {rest : Bytes}
    (h : IsValue (bracket.opening :: rest)) :
    Path.get (.fromRoot []) (bracket.opening :: rest) =
      .ok (.verbatim (bracket.opening :: rest)) := by
  have henter : Token.enter ⟨Token.rootKey, .member⟩ [] (bracket.opening :: rest) =
      .ok (bracket.opening :: rest) :=
    Token.enter_eq_ok_iff.mpr ⟨Token.locate_root_opening bracket rest, rfl⟩
  have htext : Token.valueText Token.rootKey (bracket.opening :: rest) =
      .ok (bracket.opening :: rest) := by
    have hupTo := Bytes.upTo_append (bracket.opening :: rest) []
    rw [List.append_nil] at hupTo
    unfold Token.valueText
    rw [(isValue_iff.mp h).2]
    dsimp only
    rw [hupTo]
  show Token.follow ⟨Token.rootKey, .member⟩ [] (bracket.opening :: rest) = _
  rw [Token.follow_nil, henter]
  exact congrArg (Except.map Slice.verbatim) htext

theorem extract_root (doc : Bytes) :
    extract "$" doc = match Path.get (.fromRoot []) doc with
      | .error error => .error (.lookup error)
      | .ok slice => .ok slice := rfl

theorem extract_root_of_isValue {bracket : Bracket} {text : Bytes} (h : IsValue text)
    (hopen : text.head? = some bracket.opening) : extract "$" text = .ok (.verbatim text) := by
  cases text with
  | nil => cases hopen
  | cons b rest =>
    obtain rfl := Option.some.inj hopen
    rw [extract_root, h.get_root]

theorem get_root_eq_ok {doc : Bytes} {slice : Slice}
    (h : Path.get (.fromRoot []) doc = .ok slice) :
    ∃ (bracket : Bracket) (text : Bytes), slice = .verbatim text ∧ IsValue text ∧
      text.head? = some bracket.opening := by
  have h : Token.follow ⟨Token.rootKey, .member⟩ [] doc = .ok slice := h
  rw [Token.follow_nil] at h
  obtain ⟨value, henter, h⟩ := bind_eq_ok_iff.mp h
  obtain ⟨bracket, rest, rfl⟩ := Token.locate_root (Token.enter_eq_ok_iff.mp henter).1
  obtain ⟨text, htext, rfl⟩ := map_eq_ok_iff.mp h
  obtain ⟨rest', hvalue, heq, -⟩ := Token.valueText_eq_ok (Token.enter_value henter).2 htext
  refine ⟨bracket, text, rfl, hvalue, ?_⟩
  obtain ⟨b, more, rfl, -⟩ := id hvalue
  exact congrArg some (List.cons.inj heq).1.symm

/-- **A selected value is complete by itself.** On every document, well formed
or not, a path gives something assembled exactly if its last token is a range or
a function. Any other result is a piece of the document, not empty, that is one
value to its last byte and is scanned so without what stood around it; if it is
a container, the root key gives it back. So what the root key selects, from any
document, it selects from the result again. -/
theorem Path.result_selfDelimiting (doc : Bytes) :
    (∀ (path : Path) (slice : Slice), path.WellFormed → path.get doc = .ok slice →
      (slice.isAssembled = true ↔ path.last.isRange = true ∨ path.last.isFunction = true) ∧
      (path.last.isRange = false → path.last.isFunction = false →
        slice.bytes <:+: doc ∧ SelfDelimiting slice.bytes ∧
        ∀ bracket : Bracket, slice.bytes.head? = some bracket.opening →
          extract "$" slice.bytes = .ok (.verbatim slice.bytes))) ∧
    (∀ slice : Slice, extract "$" doc = .ok slice → extract "$" slice.bytes = .ok slice) := by
  constructor
  · intro path slice hwell hget
    constructor
    · rw [Token.isAssembled_follow hwell.head hwell.ends hget]
      exact Bool.or_eq_true_iff
    · intro hrange hfunction
      have hlast : path.last.endsPath = false := by rw [Token.endsPath, hrange, hfunction]; rfl
      rw [Path.get_eq (hwell.plain hfunction)] at hget
      obtain ⟨start, hstart, hget⟩ := bind_eq_ok_iff.mp hget
      obtain ⟨text, rfl, hvalue, hpart⟩ := Token.follow_nil_eq_ok hlast hget
      exact ⟨hpart.trans (Token.approach_part hstart), hvalue.selfDelimiting,
        fun bracket hopen => extract_root_of_isValue hvalue hopen⟩
  · intro slice hget
    rw [extract_root] at hget
    split at hget
    · cases hget
    next hroot =>
    cases hget
    obtain ⟨bracket, text, rfl, hvalue, hopen⟩ := get_root_eq_ok hroot
    exact extract_root_of_isValue hvalue hopen

/-- A container whose brackets cross, cut out of an array that it would not
close by itself. -/
theorem Path.result_selfDelimiting_crossed :
    SelfDelimiting (Bytes.ofString "\x7b]:\x7d") ∧
    extract "$" (Bytes.ofString "\x7b]:\x7d") = .ok (.verbatim (Bytes.ofString "\x7b]:\x7d")) := by
  obtain ⟨hresult, -⟩ := Path.result_selfDelimiting (Bytes.ofString ",\x7b\"a\":[1 \x7b]:\x7d]")
  have hwell : Path.WellFormed ⟨⟨"$", .member⟩, [⟨"a", .index (-1)⟩]⟩ :=
    Path.wellFormed_of_parse (show Path.parse 2 "$.a[-1]" = _ from rfl)
  have hget : Path.get ⟨⟨"$", .member⟩, [⟨"a", .index (-1)⟩]⟩
      (Bytes.ofString ",\x7b\"a\":[1 \x7b]:\x7d]") =
        .ok (.verbatim (Bytes.ofString "\x7b]:\x7d")) :=
    eq_ok_of_toOption (by decide +kernel)
  obtain ⟨-, hvalue⟩ := hresult _ _ hwell hget
  obtain ⟨-, hcomplete, hroot⟩ := hvalue rfl rfl
  exact ⟨hcomplete, hroot .brace rfl⟩

end RawJson
