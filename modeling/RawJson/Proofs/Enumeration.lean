/-
Lookups of all keys in one object. A lookup reads member after member and
compares keys as it goes, so it sees no more of an object than it needs and
another lookup sees more or less of it. What they see is always the beginning of
the same list: the members of the object and how the list ends (`Members`), which
the text alone determines and in which no key is asked for. A lookup gives the
first of them with its key, and only if there is none, what the list ends in
(`Member.find_eq_first`).

A list ends at the closing brace, at a place where a member should stand and
does not (`Refuses`), or in a value without an end (`Breaks`). The member with
such a value is still found.
-/
import RawJson.Proofs.Checked.Lookup
import RawJson.Proofs.Layout

namespace RawJson

/-! ## Values without an end -/

/-- A value that cannot be passed, and why: a string or a container that the
document ends in, or no value at all, but the end of a container. -/
inductive Breaks : Bytes → Fault → Prop
  | string {rest : Bytes} (hopen : ∀ body more, IsBody body → rest ≠ body ++ Byte.quote :: more) :
    Breaks (Byte.quote :: rest) (.unexpectedEnd .string)
  | container (bracket : Bracket) {rest : Bytes}
    (hopen : ∀ text more, Closes bracket 0 text → rest ≠ text ++ more) :
    Breaks (bracket.opening :: rest) (.unexpectedEnd bracket.region)
  | missing (bracket : Bracket) {rest : Bytes} :
    Breaks (bracket.closing :: rest) (.unexpectedByte bracket.closing .value)

theorem splitString_eq_none_iff {doc : Bytes} :
    splitString doc = none ↔ ∀ body more, IsBody body → doc ≠ body ++ Byte.quote :: more := by
  constructor
  · rintro hnone body more hbody rfl
    rw [splitString_isBody hbody] at hnone
    cases hnone
  · intro hopen
    cases hsplit : splitString doc with
    | none => rfl
    | some split =>
      obtain ⟨hbody, hdoc⟩ := splitString_eq_some_iff.mp hsplit
      exact absurd hdoc (hopen _ _ hbody)

theorem afterContainer_eq_none_iff {bracket : Bracket} {doc : Bytes} :
    afterContainer bracket 0 doc = none ↔
      ∀ text more, Closes bracket 0 text → doc ≠ text ++ more := by
  constructor
  · rintro hnone text more hcloses rfl
    rw [hcloses.afterContainer] at hnone
    cases hnone
  · intro hopen
    cases hscan : afterContainer bracket 0 doc with
    | none => rfl
    | some more =>
      obtain ⟨text, hcloses, hdoc⟩ := afterContainer_eq_some_iff.mp hscan
      exact absurd hdoc (hopen text more hcloses)

theorem Bracket.endsScalar_closing (bracket : Bracket) :
    Byte.endsScalar bracket.closing = true := by
  cases bracket <;> rfl

theorem closing_of_endsScalar {b : UInt8} (hends : Byte.endsScalar b = true)
    (hsep : Byte.isSeparator b = false) : ∃ bracket : Bracket, b = bracket.closing := by
  rw [Byte.endsScalar, hsep, Bool.false_or, Bool.or_eq_true, beq_iff_eq, beq_iff_eq] at hends
  rcases hends with rfl | rfl
  · exact ⟨.brace, rfl⟩
  · exact ⟨.square, rfl⟩

/-- **A scan of a value fails exactly where the value breaks.** -/
theorem afterValue_eq_error_iff {value : Bytes} {fault : Fault} (h : Starts value) :
    afterValue value = .error fault ↔ Breaks value fault := by
  obtain ⟨b, rest, rfl, hb⟩ := h
  unfold afterValue
  rw [afterGap_cons hb]
  dsimp only
  constructor
  · intro hscan
    rcases Byte.lead_cases b with rfl | ⟨bracket, rfl⟩ | hstart | hends
    · rw [afterToken_quote] at hscan
      split at hscan
      · next hsplit =>
        cases hscan
        exact .string (splitString_eq_none_iff.mp hsplit)
      · cases hscan
    · rw [afterToken_opening] at hscan
      split at hscan
      · next hcontainer =>
        cases hscan
        exact .container bracket (afterContainer_eq_none_iff.mp hcontainer)
      · cases hscan
    · rw [afterToken_scalar hstart] at hscan
      cases hscan
    · rw [afterToken_endsScalar hends] at hscan
      cases hscan
      obtain ⟨bracket, rfl⟩ := closing_of_endsScalar hends hb
      exact .missing bracket
  · intro hbreaks
    cases hbreaks with
    | string hopen => rw [afterToken_quote, splitString_eq_none_iff.mpr hopen]
    | container bracket hopen => rw [afterToken_opening, afterContainer_eq_none_iff.mpr hopen]
    | missing bracket => exact afterToken_endsScalar bracket.endsScalar_closing rest

/-! ## The next member -/

/-- Where a member should stand there is none, for this reason: the document is
over in a gap or in the key, or something else stands in place of the key or of
the colon. -/
inductive Refuses : Bytes → Fault → Prop
  | ended (gap : Gap) : Refuses gap.bytes (.unexpectedEnd .input)
  | noKey (gap : Gap) {b : UInt8} {rest : Bytes} (hsep : Byte.isSeparator b = false)
    (hclose : b ≠ Byte.closeBrace) (hquote : b ≠ Byte.quote) :
    Refuses (gap.bytes ++ b :: rest) (.unexpectedByte b .objectKey)
  | openKey (gap : Gap) {rest : Bytes}
    (hopen : ∀ body more, IsBody body → rest ≠ body ++ Byte.quote :: more) :
    Refuses (gap.bytes ++ Byte.quote :: rest) (.unexpectedEnd .string)
  | endedAfterKey (before : Gap) (key : Body) (after : Gap) :
    Refuses (before.bytes ++ Byte.quote :: (key.bytes ++ Byte.quote :: after.bytes))
      (.unexpectedEnd .input)
  | noColon (before : Gap) (key : Body) (after : Gap) {b : UInt8} {rest : Bytes}
    (hsep : Byte.isSeparator b = false) (hcolon : b ≠ Byte.colon) :
    Refuses (before.bytes ++ Byte.quote :: (key.bytes ++ Byte.quote :: (after.bytes ++ b :: rest)))
      .missingColon
  | endedAfterColon (label : Label) : Refuses label.text (.unexpectedEnd .input)

theorem Gap.afterGap_bytes (gap : Gap) : afterGap gap.bytes = .error (.unexpectedEnd .input) := by
  have happend := RawJson.afterGap_append gap.separators []
  rw [List.append_nil] at happend
  exact happend

theorem gap_cases (doc : Bytes) :
    (∃ gap : Gap, doc = gap.bytes) ∨
      ∃ (gap : Gap) (b : UInt8) (rest : Bytes), Byte.isSeparator b = false ∧
        doc = gap.bytes ++ b :: rest := by
  cases hgap : afterGap doc with
  | error fault =>
    refine .inl ⟨⟨doc, fun b hb => ?_⟩, rfl⟩
    unfold afterGap at hgap
    split at hgap
    · next hrest =>
      have hsplit := List.takeWhile_append_dropWhile (p := Byte.isSeparator) (l := doc)
      rw [hrest, List.append_nil] at hsplit
      rw [← hsplit] at hb
      exact List.all_eq_true.mp List.all_takeWhile b hb
    · cases hgap
  | ok first =>
    obtain ⟨gap, hsep, hb, rfl⟩ := afterGap_eq_ok_iff.mp hgap
    exact .inr ⟨⟨gap, hsep⟩, first.1, first.2, hb, rfl⟩

/-- What can stand where a member is due: the end of the object, nothing that is
one, or a member up to its value. -/
theorem member_cases (doc : Bytes) :
    (∃ (gap : Gap) (rest : Bytes), doc = gap.bytes ++ Byte.closeBrace :: rest) ∨
    (∃ fault, Refuses doc fault) ∨
    ∃ (label : Label) (value : Bytes), Starts value ∧ doc = label.text ++ value := by
  rcases gap_cases doc with ⟨before, rfl⟩ | ⟨before, b, rest, hb, rfl⟩
  · exact .inr (.inl ⟨_, .ended before⟩)
  by_cases hclose : b = Byte.closeBrace
  · exact .inl ⟨before, rest, by rw [hclose]⟩
  by_cases hquote : b = Byte.quote
  · subst hquote
    cases hsplit : splitString rest with
    | none => exact .inr (.inl ⟨_, .openKey before (splitString_eq_none_iff.mp hsplit)⟩)
    | some split =>
      obtain ⟨hbody, rfl⟩ := splitString_eq_some_iff.mp hsplit
      obtain ⟨key, hkey⟩ : ∃ key : Body, key.bytes = split.1 := ⟨⟨split.1, hbody⟩, rfl⟩
      rw [← hkey]
      rcases gap_cases split.2 with ⟨after, hafter⟩ | ⟨after, c, more, hc, hafter⟩
      · rw [hafter]
        exact .inr (.inl ⟨_, .endedAfterKey before key after⟩)
      rw [hafter]
      by_cases hcolon : c = Byte.colon
      · subst hcolon
        rcases gap_cases more with ⟨last, rfl⟩ | ⟨last, d, value, hd, rfl⟩
        · exact .inr (.inl ⟨_, .endedAfterColon ⟨before, key, after, last⟩⟩)
        · refine .inr (.inr ⟨⟨before, key, after, last⟩, d :: value, ⟨d, value, rfl, hd⟩, ?_⟩)
          simp only [Label.text, List.append_assoc, List.cons_append]
      · exact .inr (.inl ⟨_, .noColon before key after hc hcolon⟩)
  · exact .inr (.inl ⟨_, .noKey before hb hclose hquote⟩)

namespace Member

theorem next_of_refuses {doc : Bytes} {fault : Fault} (h : Refuses doc fault) :
    next doc = .error fault := by
  have hquote : Byte.isSeparator Byte.quote = false := rfl
  have hcolon : Byte.isSeparator Byte.colon = false := rfl
  have hbrace : Byte.quote ≠ Byte.closeBrace := by decide
  cases h with
  | ended gap => rw [next, gap.afterGap_bytes]
  | noKey gap hsep hclose hkey =>
    rw [next, gap.afterGap_append hsep]
    dsimp only
    rw [if_neg hclose, if_neg hkey]
  | openKey gap hopen =>
    rw [next, gap.afterGap_append hquote]
    dsimp only
    rw [if_neg hbrace, if_pos rfl, splitString_eq_none_iff.mpr hopen]
  | endedAfterKey before key after =>
    rw [next, before.afterGap_append hquote]
    dsimp only
    rw [if_neg hbrace, if_pos rfl, splitString_isBody key.isBody]
    dsimp only
    rw [after.afterGap_bytes]
  | noColon before key after hsep hother =>
    rw [next, before.afterGap_append hquote]
    dsimp only
    rw [if_neg hbrace, if_pos rfl, splitString_isBody key.isBody]
    dsimp only
    rw [after.afterGap_append hsep]
    dsimp only
    rw [if_neg hother]
  | endedAfterColon label =>
    rw [next, Label.text, label.before.afterGap_append hquote]
    dsimp only
    rw [if_neg hbrace, if_pos rfl, splitString_isBody label.key.isBody]
    dsimp only
    rw [label.beforeColon.afterGap_append hcolon]
    dsimp only
    rw [if_pos rfl, label.afterColon.afterGap_bytes]

theorem next_label (label : Label) {value : Bytes} (h : Starts value) :
    next (label.text ++ value) = .ok (some ⟨label.key.bytes, value⟩) := by
  obtain ⟨b, rest, rfl, hb⟩ := h
  exact label.next_member hb rest

end Member

/-! ## All members -/

/-- The members from a place in an object on and what ends them, nothing being
wrong if that is the closing brace. A member is in the list as soon as its value
has begun, and the next one is looked for behind that value, a bare scalar being
over in front of a delimiter. -/
inductive Members : Bytes → List Member → Option Fault → Prop
  | closed (gap : Gap) (rest : Bytes) : Members (gap.bytes ++ Byte.closeBrace :: rest) [] none
  | refused {doc : Bytes} {fault : Fault} : Refuses doc fault → Members doc [] (some fault)
  | broken (label : Label) {value : Bytes} {fault : Fault} (hstarts : Starts value) :
    Breaks value fault →
      Members (label.text ++ value) [⟨label.key.bytes, value⟩] (some fault)
  | cons (label : Label) {text rest : Bytes} {members : List Member} {ending : Option Fault}
    (hvalue : IsValue text) (hwhole : RunsOut text → Delimited rest) :
    Members rest members ending →
      Members (label.text ++ (text ++ rest)) (⟨label.key.bytes, text ++ rest⟩ :: members) ending

theorem IsValue.starts_append {text : Bytes} (h : IsValue text) (rest : Bytes) :
    Starts (text ++ rest) := by
  obtain ⟨b, more, rfl, hb⟩ := h.starts
  exact ⟨b, more ++ rest, rfl, hb⟩

theorem exists_members (doc : Bytes) : ∃ members ending, Members doc members ending := by
  rcases member_cases doc with ⟨gap, rest, rfl⟩ | ⟨fault, hrefuses⟩ | ⟨label, value, hstarts, hdoc⟩
  · exact ⟨_, _, .closed gap rest⟩
  · exact ⟨_, _, .refused hrefuses⟩
  cases hvalue : afterValue value with
  | error fault =>
    rw [hdoc]
    exact ⟨_, _, .broken label hstarts ((afterValue_eq_error_iff hstarts).mp hvalue)⟩
  | ok rest =>
    obtain ⟨text, htext, happend, hwhole⟩ := (afterValue_eq_ok_iff hstarts).mp hvalue
    obtain ⟨members, ending, hmembers⟩ := exists_members rest
    rw [hdoc, happend]
    exact ⟨_, _, .cons label htext hwhole hmembers⟩
termination_by doc.length
decreasing_by
  have hshort := afterValue_length hvalue
  rw [hdoc, List.length_append]
  omega

namespace Members

variable {doc : Bytes} {members : List Member} {ending : Option Fault}

theorem ordered (h : Members doc members ending) :
    (∀ member ∈ members, member.value <:+ doc) ∧
      members.Pairwise fun earlier later => later.value.length < earlier.value.length := by
  induction h with
  | closed | refused => exact ⟨nofun, .nil⟩
  | broken label =>
    refine ⟨fun member hmem => ?_, .cons nofun .nil⟩
    obtain rfl := List.mem_singleton.mp hmem
    exact List.suffix_append ..
  | @cons label text rest members ending hvalue _ _ ih =>
    obtain ⟨hsuffix, hordered⟩ := ih
    have hrest : rest <:+ label.text ++ (text ++ rest) :=
      (List.suffix_append text rest).trans (List.suffix_append ..)
    constructor
    · intro member hmem
      rcases List.mem_cons.mp hmem with rfl | hmem
      · exact List.suffix_append ..
      · exact (hsuffix member hmem).trans hrest
    · refine .cons (fun later hmem => ?_) hordered
      have hshort := (hsuffix later hmem).length_le
      obtain ⟨b, more, rfl, -⟩ := hvalue
      simp only [List.cons_append, List.length_cons, List.length_append]
      omega

end Members

namespace Member

theorem listing_eq (doc : Bytes) : listing doc =
    match next doc with
    | .error fault => ⟨[], some fault⟩
    | .ok none => ⟨[], none⟩
    | .ok (some member) =>
      match afterValue member.value with
      | .error fault => ⟨[member], some fault⟩
      | .ok rest => ⟨member :: (listing rest).members, (listing rest).fault⟩ := by
  rw [listing.eq_def]
  split
  · next h => rw [h]
  · next h => rw [h]
  · next member h =>
    rw [h]
    dsimp only
    split
    · next hv => rw [hv]
    · next hv => rw [hv]

end Member

theorem Members.listing_eq {doc : Bytes} {members : List Member} {ending : Option Fault}
    (h : Members doc members ending) : Member.listing doc = ⟨members, ending⟩ := by
  induction h with
  | closed gap rest => rw [Member.listing_eq, Node.next_closeBrace]
  | refused hrefuses => rw [Member.listing_eq, Member.next_of_refuses hrefuses]
  | broken label hstarts hbreaks =>
    rw [Member.listing_eq, Member.next_label label hstarts]
    dsimp only
    rw [(afterValue_eq_error_iff hstarts).mpr hbreaks]
  | @cons label text rest members ending hvalue hwhole _ ih =>
    rw [Member.listing_eq, Member.next_label label (hvalue.starts_append rest)]
    dsimp only
    rw [hvalue.afterValue hwhole]
    dsimp only
    rw [ih]

/-- An object determines its members. -/
theorem Members.unique {doc : Bytes} {members members' : List Member}
    {ending ending' : Option Fault} (h : Members doc members ending)
    (h' : Members doc members' ending') : members' = members ∧ ending' = ending := by
  have hsame := h'.listing_eq.symm.trans h.listing_eq
  exact ⟨congrArg Member.Listing.members hsame, congrArg Member.Listing.fault hsame⟩

/-! ## Lookups -/

namespace Member

/-- What a lookup of `key` comes to in a list of members: the first of them with
the key, or else what the list ends in. -/
def first (key : Bytes) (members : List Member) (ending : Option Fault) :
    Except Fault (Option Bytes) :=
  match members.find? (fun member => member.key == key), ending with
  | some member, _ => .ok (some member.value)
  | none, none => .ok none
  | none, some fault => .error fault

theorem first_nil (key : Bytes) (ending : Option Fault) :
    first key [] ending = match ending with | none => .ok none | some fault => .error fault := by
  cases ending <;> rfl

theorem first_cons (key : Bytes) (member : Member) (members : List Member)
    (ending : Option Fault) :
    first key (member :: members) ending =
      if member.key = key then .ok (some member.value) else first key members ending := by
  unfold first
  rw [List.find?_cons]
  by_cases hkey : member.key = key
  · rw [if_pos hkey, beq_iff_eq.mpr hkey]
  · rw [if_neg hkey, beq_eq_false_iff_ne.mpr hkey]

/-- **A lookup finds the first member with the key**, whatever the key. -/
theorem find_eq_first {doc : Bytes} {members : List Member} {ending : Option Fault}
    (h : Members doc members ending) (key : Bytes) :
    find key doc = first key members ending := by
  induction h with
  | closed gap rest => rw [find_eq, Node.next_closeBrace, first_nil]
  | refused hrefuses => rw [find_eq, next_of_refuses hrefuses, first_nil]
  | broken label hstarts hbreaks =>
    rw [find_eq, next_label label hstarts, first_cons, first_nil]
    dsimp only
    rw [(afterValue_eq_error_iff hstarts).mpr hbreaks]
  | @cons label text rest members ending hvalue hwhole _ ih =>
    rw [find_eq, next_label label (hvalue.starts_append rest), first_cons]
    dsimp only
    rw [hvalue.afterValue hwhole]
    dsimp only
    rw [ih]

/-! ## One list for every key -/

/-- **All lookups in an object read one list of members.** The list is the only
one of its text; its values stand at ascending positions, and are the document
from there on; and a key is looked up as if the list were there to search, its
first member with the key being the result, and the ending being it if there is
none. No key but the root key is kept from being looked up by what it is, and
that one only where a path is followed. -/
theorem lookups_share (input : Bytes) (hopen : input.head? = some Byte.openBrace) :
    ∃ members ending,
      (∀ members' ending', Members input.tail members' ending' ↔
        members' = members ∧ ending' = ending) ∧
      (∀ member ∈ members, input.drop (Checked.position input member.value) = member.value) ∧
      (members.Pairwise fun earlier later =>
        Checked.position input earlier.value < Checked.position input later.value) ∧
      (∀ key : Bytes, find key input.tail = first key members ending) ∧
      (∀ key, input.length < Decimal.signedLimit → Checked.findKey input key =
        Checked.done (Token.found key (first (Bytes.ofString key) members ending))) ∧
      ∀ key, key ≠ Token.rootKey → Token.locate key input =
        Token.found key (first (Bytes.ofString key) members ending) := by
  obtain ⟨rest, rfl⟩ : ∃ rest, input = Byte.openBrace :: rest := by
    cases input with
    | nil => cases hopen
    | cons b rest => exact ⟨rest, by rw [Option.some.inj hopen]⟩
  rw [List.tail_cons]
  obtain ⟨members, ending, hmembers⟩ := exists_members rest
  obtain ⟨hsuffix, hordered⟩ := hmembers.ordered
  have hinput : ∀ member ∈ members, member.value <:+ Byte.openBrace :: rest := fun member hmem =>
    (hsuffix member hmem).trans (List.suffix_cons ..)
  have hfind := find_eq_first hmembers
  refine ⟨members, ending, fun members' ending' => ⟨hmembers.unique, ?_⟩,
    fun member hmem => (List.suffix_iff_eq_drop.mp (hinput member hmem)).symm, ?_, hfind,
    fun key hlength => ?_, fun key hkey => ?_⟩
  · rintro ⟨rfl, rfl⟩
    exact hmembers
  · refine hordered.imp_of_mem fun {earlier later} hearlier _ hshort => ?_
    have hlength := (hinput earlier hearlier).length_le
    unfold Checked.position
    omega
  · rw [Checked.findKey_eq hlength, hfind]
  · rw [Token.locate_object hkey, hfind]

/-- Two members share a key, the first holds another one inside, one key has an
escaped quote, and the last value has no end. -/
theorem lookups_share_duplicates :
    (Bytes.ofString "\x7b\"k\":\x7b\"y\":0\x7d,\"k\\\"\":1 ,\"k\":2,\"z\":[").head? =
      some Byte.openBrace ∧
    ∃ members ending,
      Members
        (Bytes.ofString "\x7b\"k\":\x7b\"y\":0\x7d,\"k\\\"\":1 ,\"k\":2,\"z\":[").tail
        members ending ∧
      members.map Member.key =
        [Bytes.ofString "k", Bytes.ofString "k\\\"", Bytes.ofString "k", Bytes.ofString "z"] ∧
      ending = some (.unexpectedEnd .array) ∧
      Token.locate "k"
        (Bytes.ofString "\x7b\"k\":\x7b\"y\":0\x7d,\"k\\\"\":1 ,\"k\":2,\"z\":[") =
        .ok (Bytes.ofString "\x7b\"y\":0\x7d,\"k\\\"\":1 ,\"k\":2,\"z\":[") ∧
      Token.locate "y"
        (Bytes.ofString "\x7b\"k\":\x7b\"y\":0\x7d,\"k\\\"\":1 ,\"k\":2,\"z\":[") =
        .error (.unexpectedEnd .array) := by
  refine ⟨by decide, ?_⟩
  obtain ⟨members, ending, honly, -, -, -, -, hlocate⟩ := lookups_share
    (Bytes.ofString "\x7b\"k\":\x7b\"y\":0\x7d,\"k\\\"\":1 ,\"k\":2,\"z\":[") (by decide)
  have hlist := (honly members ending).mpr ⟨rfl, rfl⟩
  have hmembers := (congrArg Listing.members hlist.listing_eq).symm
  have hending := (congrArg Listing.fault hlist.listing_eq).symm
  dsimp only at hmembers hending
  have hbreaks : ending = some (.unexpectedEnd .array) := by
    rw [hending]
    decide +kernel
  have hnone : members.find? (fun member => member.key == Bytes.ofString "y") = none := by
    rw [hmembers]
    decide +kernel
  refine ⟨members, ending, hlist, ?_, hbreaks, (hlocate "k" (by decide)).trans ?_,
    (hlocate "y" (by decide)).trans ?_⟩
  · rw [hmembers]
    decide +kernel
  · rw [hmembers, hending]
    exact eq_ok_of_toOption (by decide +kernel)
  · unfold first
    rw [hnone, hbreaks]
    rfl

end Member

end RawJson
