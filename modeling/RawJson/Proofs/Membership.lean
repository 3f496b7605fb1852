/-
Members of an object, each by its key at the end of a path. Whatever characters
a key is made of, a path goes on with it if it is not empty and has no dot, `[`
or `(`, and then gives the first member of that key, where the path in front
leads to an object (`Path.get_key`).

One key is the exception. The root key stays at its object behind any path and
not only as the first key of one, so that no path gives the member of that name.
-/
import RawJson.Proofs.Composition

namespace RawJson

/-! ## A path with one more key -/

theorem IsChain.append {text more : List Char} {tokens following : List Token}
    (h : IsChain text tokens) (hends : ∀ token ∈ tokens, token.endsPath = false)
    (hmore : IsChain more following) : IsChain (text ++ '.' :: more) (tokens ++ following) := by
  induction h with
  | last hsegment => exact .dot hsegment (hends _ List.mem_cons_self) hmore
  | dot hsegment hplain _ ih =>
    rw [List.append_assoc, List.cons_append]
    exact .dot hsegment hplain (ih fun token hmem => hends token (List.mem_cons_of_mem _ hmem))

theorem IsChain.endsPath_eq_false {text : List Char} {path : Path} (h : IsChain text path.tokens)
    (hlast : path.last.endsPath = false) : ∀ token ∈ path.tokens, token.endsPath = false := by
  intro token hmem
  have hsplit := path.tokens_eq_dropLast
  rw [hsplit, List.mem_append, List.mem_singleton] at hmem
  rcases hmem with hmem | rfl
  · exact h.ends token hmem
  · exact hlast

theorem Path.parse_key {limit : UInt64} {text key : String} {path : Path}
    (h : parse limit text = .ok path) (hlast : path.last.endsPath = false)
    (hkey : IsKey key.toList) (hroom : path.length < limit.toNat) :
    parse limit (text ++ "." ++ key) = .ok (path.append [⟨key, .member⟩]) := by
  obtain ⟨hchain, -, hrooted⟩ := parse_eq_ok_iff.mp h
  have hsegment : IsSegment key.toList ⟨key, .member⟩ := by
    have hmember := IsSegment.member hkey
    rwa [String.ofList_toList] at hmember
  refine parse_eq_ok_iff.mpr ⟨?_, ?_, hrooted⟩
  · rw [String.toList_append, String.toList_append, List.append_assoc]
    exact hchain.append (hchain.endsPath_eq_false hlast) (.last hsegment)
  · rw [length, append_tokens, List.length_append]
    exact hroom

/-! ## The value under the key -/

theorem Node.walk_key (key : String) (members : List (Label × Node)) (closing : Gap) :
    (Path.fromRoot [⟨key, .member⟩]).walk (.object members closing) =
      ((Node.object members closing).under key).map fun value => .verbatim value.text := by
  have hfits (value : Node) : value.fits ⟨key, .member⟩ [] = .ok () := by cases value <;> rfl
  rw [Path.fromRoot, Path.walk, walk_cons _ _ _ rfl, enter_root_object]
  change (object members closing).walk ⟨key, .member⟩ [] = _
  rw [walk_nil, enter]
  cases (object members closing).under key with
  | error error => rfl
  | ok value =>
    dsimp only [bind, Except.bind]
    rw [hfits]
    rfl

namespace Path

/-- **A member is selected by its key.** Let a path that is read end in a member
or a single position, and let it select an object. On a document with the text of
a tree all objects it can select are nodes. Then any key goes on with the path,
if the limit permits, and on every document the longer path selects the first
member of that key; but the root key selects the object once more, and no member. -/
theorem get_key (extractor : Extractor) (text : String) (path : Path)
    (hread : extractor.compile text = .ok path) (hlast : path.last.endsPath = false) :
    (∀ (layout : Layout) (slice : Slice), path.get layout.bytes = .ok slice →
      slice.bytes.head? = some Byte.openBrace →
      ∃ members closing, (Node.object members closing).Spaced ∧
        slice = .verbatim (Node.object members closing).text) ∧
    ∀ key : String, IsKey key.toList →
      (path.length < extractor.options.maxSegments.toNat →
        extractor.compile (text ++ "." ++ key) = .ok (path.append [⟨key, .member⟩])) ∧
      ∀ (doc : Bytes) (members : List (Label × Node)) (closing : Gap) (member : Label × Node),
        (Node.object members closing).Spaced →
        path.get doc = .ok (.verbatim (Node.object members closing).text) →
        members.find? (fun member => member.1.key.bytes == Bytes.ofString key) = some member →
        (path.append [⟨key, .member⟩]).get doc =
          .ok (.verbatim (if key = Token.rootKey then (Node.object members closing).text
            else member.2.text)) := by
  obtain ⟨hchain, -, hrooted⟩ := parse_eq_ok_iff.mp hread
  have hends := hchain.endsPath_eq_false hlast
  constructor
  · intro layout slice hget hobject
    have hplain := (plain_of_endsPath hends).1
    rw [get_bytes] at hget
    obtain ⟨node, hspaced, rfl⟩ := Node.walk_eq_ok layout.spaced hplain hlast hget
    obtain ⟨b, more, htext, -, hbrace, -⟩ := node.text_head
    rw [Slice.bytes, htext, List.head?_cons, Option.some.injEq, hbrace] at hobject
    cases node with
    | scalar value => exact absurd hobject value.kind_ne_object
    | object members closing => exact ⟨members, closing, hspaced, rfl⟩
    | string | array => cases hobject
  · intro key hkey
    refine ⟨parse_key hread hlast hkey, fun doc members closing member hspaced hget hmember => ?_⟩
    have happend : (path.append [⟨key, .member⟩]).EndsLast := by
      refine ⟨(wellFormed_of_isChain hchain hrooted).head, fun token hmem => hends token ?_⟩
      rwa [append_tokens, List.dropLast_concat] at hmem
    refine join happend (List.cons_ne_nil _ _) hget ?_
    rw [Slice.bytes, Node.shows_text hspaced, Node.walk_key, Node.under]
    split
    · rfl
    · rw [hmember]
      rfl

/-- A key with a bracket and an escaped quote, twice in an object that an index
leads to. -/
theorem get_key_escaped :
    Extractor.compile {} "$.a[-1].]\\\"" =
      .ok (append ⟨⟨"$", .member⟩, [⟨"a", .index (-1)⟩]⟩ [⟨"]\\\"", .member⟩]) ∧
    (append ⟨⟨"$", .member⟩, [⟨"a", .index (-1)⟩]⟩ [⟨"]\\\"", .member⟩]).get
      (Bytes.ofString "\x7b\"a\":[\x7b\"]\\\"\":null,\"]\\\"\":true\x7d]\x7d") =
        .ok (.verbatim (Bytes.ofString "null")) := by
  have hescape : IsBody [0x5D, Byte.backslash, Byte.quote] :=
    .plain (by decide) (by decide) (.escaped .nil)
  let key (before : Gap) : Label := ⟨before, ⟨_, hescape⟩, .none, .none⟩
  let members : List (Label × Node) :=
    [(key .none, .scalar .null),
      (key ⟨Bytes.ofString ",", List.all_eq_true.mp rfl⟩, .scalar (.boolean true))]
  have hobject : (Node.object members .none).text =
      Bytes.ofString "\x7b\"]\\\"\":null,\"]\\\"\":true\x7d" := rfl
  have hspaced : (Node.object members .none).Spaced :=
    ⟨trivial, fun _ => delimited_cons.mpr (by decide),
      trivial, fun _ => delimited_cons.mpr (by decide), trivial⟩
  obtain ⟨-, hkeys⟩ := get_key {} "$.a[-1]" ⟨⟨"$", .member⟩, [⟨"a", .index (-1)⟩]⟩ rfl rfl
  obtain ⟨hcompile, hget⟩ := hkeys "]\\\"" (by decide)
  refine ⟨hcompile (by decide), hget _ members .none (key .none, .scalar .null) hspaced ?_ rfl⟩
  rw [hobject]
  exact eq_ok_of_toOption (by decide +kernel)

/-- The member of an object that the root key names is not what the path of that
key selects. -/
theorem get_key_root : ∃ (layout : Layout) (members : List (Label × Node)) (member : Label × Node),
    layout.root = .object members .none ∧
    layout.bytes = Bytes.ofString "\x7b\"$\":1\x7d" ∧
    members.find? (fun member => member.1.key.bytes == Bytes.ofString "$") = some member ∧
    member.2.text = Bytes.ofString "1" ∧
    IsKey "$".toList ∧
    extract "$" layout.bytes = .ok (.verbatim layout.root.text) ∧
    extract "$.$" layout.bytes ≠ .ok (.verbatim member.2.text) := by
  let member : Label × Node :=
    (⟨.none, ⟨[0x24], .plain (by decide) (by decide) .nil⟩, .none, .none⟩,
      .scalar (.number ⟨0x31, [], by decide, nofun⟩))
  have hspaced : (Node.object [member] .none).Spaced := ⟨trivial, fun _ => by decide, trivial⟩
  let layout : Layout := ⟨.none, .object [member] .none, hspaced, []⟩
  have hbytes : layout.bytes = Bytes.ofString "\x7b\"$\":1\x7d" := rfl
  have hroot : layout.root.text = Bytes.ofString "\x7b\"$\":1\x7d" := rfl
  have hvalue : member.2.text = Bytes.ofString "1" := rfl
  refine ⟨layout, [member], member, rfl, hbytes, rfl, hvalue,
    by decide, ?_, fun hget => ?_⟩
  · rw [hbytes, hroot]
    exact eq_ok_of_toOption (by decide +kernel)
  · have hsame : extract "$.$" (Bytes.ofString "\x7b\"$\":1\x7d") =
        .ok (.verbatim (Bytes.ofString "\x7b\"$\":1\x7d")) :=
      eq_ok_of_toOption (by decide +kernel)
    rw [hbytes, hsame, hvalue] at hget
    exact absurd (Slice.verbatim.inj (Except.ok.inj hget)) (by decide)

end Path

end RawJson
