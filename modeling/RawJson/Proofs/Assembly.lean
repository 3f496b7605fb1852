/-
Values put together and taken out again. A piece is any text that a scan passes
as one value: what a path selects is one, from a malformed document as well
(`Path.isPiece_of_get`). Pieces with commas between them make an array, and with
keys in front of them an object, and the library reads each of them back as it
was (`Path.extract_assembled`), whatever stray quotes and brackets it holds.

Behind a comma the first piece of what is left is measured by a scan that sees
the rest of the container, and alone by one that does not. Both end in the same
place because a comma or the closing bracket stands there, either of which ends a
bare scalar. So the induction is on the pieces behind the first, each with the
comma in front of it.
-/
import RawJson.Proofs.Enumeration
import RawJson.Proofs.Membership
import RawJson.Proofs.Reslicing

namespace RawJson

/-! ## Pieces -/

/-- A text that is one value by the scan of it alone. -/
structure IsPiece (text : Bytes) : Prop where
  starts : Starts text
  scanned : afterValue text = .ok []

theorem isPiece_iff {text : Bytes} : IsPiece text ↔ IsValue text := by
  rw [isValue_iff]
  exact ⟨fun h => ⟨h.starts, h.scanned⟩, fun h => ⟨h.1, h.2⟩⟩

/-- In a buffer of its own a piece is measured from the first byte to the last. -/
theorem isPiece_iff_skipValue {text : Bytes} (hlength : text.length < Decimal.signedLimit) :
    IsPiece text ↔
      Starts text ∧ Checked.skipValue text 0 = Checked.done (.ok text.length) := by
  have hscan := Checked.skipValue_eq hlength (List.suffix_refl text)
  rw [Checked.position_self] at hscan
  rw [hscan, Checked.done_inj, map_eq_ok_iff]
  constructor
  · intro h
    exact ⟨h.starts, [], h.scanned, Checked.position_nil text⟩
  · rintro ⟨hstarts, rest, hafter, hposition⟩
    have hshort := (afterValue_suffix hafter).length_le
    have hpositive : 0 < text.length := by
      obtain ⟨b, more, rfl, -⟩ := hstarts
      exact Nat.succ_pos _
    have hrest : rest = [] := by
      rw [Checked.position] at hposition
      exact List.length_eq_zero_iff.mp (by omega)
    exact ⟨hstarts, hrest ▸ hafter⟩

theorem Path.isPiece_of_get {path : Path} (hwell : path.WellFormed)
    (hlast : path.last.endsPath = false) {doc : Bytes} {slice : Slice}
    (hget : path.get doc = .ok slice) : IsPiece slice.bytes := by
  have hfunction : path.last.isFunction = false := (Bool.or_eq_false_iff.mp hlast).2
  rw [get_eq (hwell.plain hfunction)] at hget
  obtain ⟨start, -, hfollow⟩ := bind_eq_ok_iff.mp hget
  obtain ⟨text, rfl, hvalue, -⟩ := Token.follow_nil_eq_ok hlast hfollow
  exact isPiece_iff.mpr hvalue

/-- A key as it stands between quotes, which a path can look up: nothing in it
ends it in a path, and nothing in a document. -/
structure PlainKey (key : String) : Prop where
  isKey : IsKey key.toList
  quote : '"' ∉ key.toList
  backslash : '\\' ∉ key.toList
  not_root : key ≠ Token.rootKey

theorem isBody_of_forall {bytes : Bytes}
    (h : ∀ b ∈ bytes, b ≠ Byte.quote ∧ b ≠ Byte.backslash) : IsBody bytes := by
  induction bytes with
  | nil => exact .nil
  | cons b bytes ih =>
    obtain ⟨hb, hbytes⟩ := List.forall_mem_cons.mp h
    exact .plain hb.1 hb.2 (ih hbytes)

theorem PlainKey.isBody {key : String} (h : PlainKey key) : IsBody (Bytes.ofString key) := by
  refine isBody_of_forall fun b hb => ?_
  obtain ⟨c, hc, hbyte⟩ := List.mem_flatMap.mp hb
  constructor
  · intro hquote
    exact h.quote ((Checked.mem_encodeChar_iff (d := '"') (by decide) hbyte).mp hquote ▸ hc)
  · intro hslash
    exact h.backslash ((Checked.mem_encodeChar_iff (d := '\\') (by decide) hbyte).mp hslash ▸ hc)

namespace Pieces

/-! ## Containers made of pieces -/

/-- Texts with a comma between every two of them. -/
def joined (texts : List Bytes) : Bytes := [Byte.comma].intercalate texts

/-- The array of these values. -/
def array (values : List Bytes) : Bytes :=
  Byte.openSquare :: (joined values ++ [Byte.closeSquare])

/-- A value behind its key. -/
def member (field : String × Bytes) : Bytes :=
  Byte.quote :: (Bytes.ofString field.1 ++ Byte.quote :: Byte.colon :: field.2)

/-- The object of these members. -/
def object (fields : List (String × Bytes)) : Bytes :=
  Byte.openBrace :: (joined (fields.map member) ++ [Byte.closeBrace])

/-- Texts each behind a comma. -/
def others (texts : List Bytes) : Bytes := texts.flatMap (Byte.comma :: ·)

theorem others_cons (text : Bytes) (texts : List Bytes) :
    others (text :: texts) = Byte.comma :: (text ++ others texts) := List.flatMap_cons

theorem joined_cons (text : Bytes) (texts : List Bytes) :
    joined (text :: texts) = text ++ others texts := by
  induction texts generalizing text with
  | nil => exact (List.intercalate_singleton ..).trans (List.append_nil _).symm
  | cons next texts ih =>
    have hnext : [Byte.comma].intercalate (next :: texts) = next ++ others texts := ih next
    rw [joined, List.intercalate_cons_cons, hnext, others_cons, List.append_assoc,
      List.singleton_append]

theorem delimited_others (bracket : Bracket) (texts : List Bytes) :
    Delimited (others texts ++ [bracket.closing]) := by
  cases texts with
  | nil => exact delimited_cons.mpr bracket.endsScalar_closing
  | cons text texts =>
    rw [others_cons]
    exact delimited_cons.mpr (by decide)

/-- A comma in front makes no difference where a scan passes the gap first, so a
container can be read as if all its texts had one. -/
theorem others_eq {texts : List Bytes} (h : texts ≠ []) :
    others texts = [Byte.comma] ++ joined texts := by
  cases texts with
  | nil => exact absurd rfl h
  | cons text texts => rw [others_cons, joined_cons, List.singleton_append]

theorem comma_separates : ∀ b ∈ [Byte.comma], Byte.isSeparator b = true := List.all_eq_true.mp rfl

/-! ## Elements -/

theorem lists_of_gap {gap doc : Bytes} {items : List Element}
    (hgap : ∀ b ∈ gap, Byte.isSeparator b = true) (h : Element.Lists (gap ++ doc) items) :
    Element.Lists doc items := by
  have hnext : Element.next (gap ++ doc) = Element.next doc := by
    unfold Element.next
    rw [afterGap_append hgap]
  cases h with
  | nil hend => exact .nil (hnext.symm.trans hend)
  | cons hfirst hothers => exact .cons (hnext.symm.trans hfirst) hothers

theorem lists_others {values : List Bytes} (h : ∀ value ∈ values, IsValue value) :
    ∃ items, Element.Lists (others values ++ [Byte.closeSquare]) items ∧
      items.map Element.text = values := by
  induction values with
  | nil => exact ⟨[], .nil rfl, rfl⟩
  | cons value values ih =>
    obtain ⟨hvalue, hvalues⟩ := List.forall_mem_cons.mp h
    obtain ⟨items, hitems, htexts⟩ := ih hvalues
    have hdelimited := delimited_others .square values
    have hfirst := Element.next_eq_some_iff.mpr ⟨[Byte.comma], value, _, comma_separates, hvalue,
      fun _ => hdelimited, rfl, rfl⟩
    rw [others_cons, List.cons_append, List.append_assoc]
    refine ⟨_, .cons hfirst hitems, ?_⟩
    rw [List.map_cons, htexts, Element.text, Bytes.upTo_append]

/-- The elements of an array made of pieces are the pieces. -/
theorem list_array {values : List Bytes} (h : ∀ value ∈ values, IsValue value) :
    ∃ items, Element.list (array values).tail = .ok items ∧ items.map Element.text = values := by
  obtain ⟨items, hitems, htexts⟩ := lists_others h
  refine ⟨items, Element.list_eq_ok_iff.mpr ?_, htexts⟩
  rw [array, List.tail_cons]
  by_cases hnone : values = []
  · subst hnone
    exact hitems
  · rw [others_eq hnone, List.append_assoc] at hitems
    exact lists_of_gap comma_separates hitems

/-! ## Members -/

/-- A lookup comes to this value, or to the end of the object if there is none. -/
def Finds (key : String) (doc : Bytes) : Option Bytes → Prop
  | none => Member.find (Bytes.ofString key) doc = .ok none
  | some value => ∃ rest, Delimited rest ∧
      Member.find (Bytes.ofString key) doc = .ok (some (value ++ rest))

theorem finds_gap {gap doc : Bytes} {key : String} {found : Option Bytes}
    (hgap : ∀ b ∈ gap, Byte.isSeparator b = true) : Finds key (gap ++ doc) found ↔
      Finds key doc found := by
  have hnext : Member.next (gap ++ doc) = Member.next doc := by
    unfold Member.next
    rw [afterGap_append hgap]
  have hfind : Member.find (Bytes.ofString key) (gap ++ doc) =
      Member.find (Bytes.ofString key) doc := by
    rw [Member.find_eq, hnext, ← Member.find_eq]
  unfold Finds
  rw [hfind]

theorem finds_member {key : String} {field : String × Bytes} {rest : Bytes} {found : Option Bytes}
    (hkey : IsBody (Bytes.ofString field.1)) (hvalue : IsValue field.2) (hrest : Delimited rest)
    (hfinds : Finds key rest found) :
    Finds key (member field ++ rest) (if key = field.1 then some field.2 else found) := by
  obtain ⟨name, value⟩ := field
  have hnext : Member.next (member (name, value) ++ rest) =
      .ok (some ⟨Bytes.ofString name, value ++ rest⟩) := by
    have hlabel := Member.next_label ⟨.none, ⟨_, hkey⟩, .none, .none⟩ (hvalue.starts_append rest)
    rw [← hlabel]
    simp [member, Label.text, Gap.none]
  have hfind : Member.find (Bytes.ofString key) (member (name, value) ++ rest) =
      if key = name then .ok (some (value ++ rest)) else Member.find (Bytes.ofString key) rest := by
    rw [Member.find_eq, hnext]
    dsimp only
    rw [hvalue.afterValue fun _ => hrest]
    by_cases hsame : key = name
    · rw [if_pos hsame, hsame, if_pos rfl]
    · rw [if_neg hsame, if_neg fun h => hsame (Bytes.ofString_injective h).symm]
  by_cases hsame : key = name
  · rw [if_pos hsame] at hfind ⊢
    exact ⟨rest, hrest, hfind⟩
  · rw [if_neg hsame] at hfind ⊢
    cases found with
    | none => exact hfind.trans hfinds
    | some found =>
      obtain ⟨more, hmore, hfinds⟩ := hfinds
      exact ⟨more, hmore, hfind.trans hfinds⟩

theorem finds_others {fields : List (String × Bytes)}
    (h : ∀ field ∈ fields, IsBody (Bytes.ofString field.1) ∧ IsValue field.2) (key : String) :
    Finds key (others (fields.map member) ++ [Byte.closeBrace]) (fields.lookup key) := by
  induction fields with
  | nil => exact Member.find_eq ..
  | cons field fields ih =>
    obtain ⟨⟨hkey, hvalue⟩, hfields⟩ := List.forall_mem_cons.mp h
    have hdelimited := delimited_others .brace (fields.map member)
    have hfinds := finds_member hkey hvalue hdelimited (ih hfields)
    have hlookup : (field :: fields).lookup key =
        if key = field.1 then some field.2 else fields.lookup key := by
      rw [List.lookup_cons]
      by_cases hsame : key = field.1
      · rw [if_pos hsame, beq_iff_eq.mpr hsame]
      · rw [if_neg hsame, beq_eq_false_iff_ne.mpr hsame]
    rw [hlookup, List.map_cons, others_cons, List.cons_append, List.append_assoc]
    exact (finds_gap comma_separates).mpr hfinds

/-- A lookup in an object made of pieces finds the first piece with the key. -/
theorem finds_object {fields : List (String × Bytes)}
    (h : ∀ field ∈ fields, IsBody (Bytes.ofString field.1) ∧ IsValue field.2) (key : String) :
    Finds key (object fields).tail (fields.lookup key) := by
  have hfinds := finds_others h key
  rw [object, List.tail_cons]
  by_cases hnone : fields.map member = []
  · rw [hnone] at hfinds ⊢
    exact hfinds
  · rw [others_eq hnone, List.append_assoc] at hfinds
    exact (finds_gap comma_separates).mp hfinds

theorem lookup_of_mem {fields : List (String × Bytes)} (hkeys : (fields.map Prod.fst).Nodup)
    {key : String} {value : Bytes} (hmem : (key, value) ∈ fields) :
    fields.lookup key = some value := by
  obtain ⟨earlier, later, rfl⟩ := List.append_of_mem hmem
  refine List.lookup_eq_some_iff.mpr ⟨earlier, later, rfl, fun field hfield => ?_⟩
  rw [List.map_append, List.nodup_append] at hkeys
  have hother := hkeys.2.2 field.1 (List.mem_map_of_mem hfield) key List.mem_cons_self
  exact bne_iff_ne.mpr fun h => hother h.symm

theorem lookup_of_not_mem {fields : List (String × Bytes)} {key : String}
    (hkey : key ∉ fields.map Prod.fst) : fields.lookup key = none := by
  refine List.lookup_eq_none_iff.mpr fun field hfield => bne_iff_ne.mpr fun h => hkey ?_
  rw [h]
  exact List.mem_map_of_mem hfield

end Pieces

namespace Path

/-! ## Paths into containers -/

theorem get_root_key {key : String} (hkey : key ≠ Token.rootKey) (rest : Bytes) :
    (fromRoot [⟨key, .member⟩]).get (Byte.openBrace :: rest) =
      (Token.found key (Member.find (Bytes.ofString key) rest)).bind fun value =>
        (Token.valueText key value).map .verbatim := by
  have hroot : Token.descend ⟨Token.rootKey, .member⟩ [⟨key, .member⟩] (Byte.openBrace :: rest) =
      .ok (Byte.openBrace :: rest) := by
    have henter : Token.enter ⟨Token.rootKey, .member⟩ [⟨key, .member⟩] (Byte.openBrace :: rest) =
        .ok (Byte.openBrace :: rest) :=
      Token.enter_eq_ok_iff.mpr
        ⟨Token.locate_root_opening .brace rest, Token.checkShape_eq_ok_iff.mpr (.inr rfl)⟩
    rw [Token.descend, henter]
    rfl
  show Token.follow ⟨Token.rootKey, .member⟩ [⟨key, .member⟩] (Byte.openBrace :: rest) = _
  rw [Token.follow_cons _ _ _ rfl, hroot]
  refine (Token.follow_nil _ _).trans ?_
  rw [Token.enter_eq_bind, Token.locate_object hkey]
  cases Token.found key (Member.find (Bytes.ofString key) rest) <;> rfl

theorem extract_key {key : String} (hkey : IsKey key.toList) (doc : Bytes) :
    extract ("$." ++ key) doc =
      ((fromRoot [⟨key, .member⟩]).get doc).mapError .lookup := by
  have hroot : Path.parse 128 "$" = .ok (fromRoot []) := rfl
  exact extract_of_compile (parse_key hroot rfl hkey (by decide)) doc

theorem extract_position {i : Nat} (hi : i < Decimal.signedLimit) (doc : Bytes) :
    extract ("$[" ++ i.repr ++ "]") doc =
      (((fromRoot []).select (.index (Int64.ofNat i))).get doc).mapError .lookup := by
  have hposition : (Int64.ofNat i).toInt = i := Int64.toInt_ofNat_of_lt hi
  rw [← extract_index, hposition]
  rfl

theorem elementsOf_pieces {values : List Bytes} (hvalues : ∀ value ∈ values, IsPiece value)
    (key : String) :
    ∃ items, Token.elementsOf key (Pieces.array values) = .ok items ∧
      items.map Element.text = values := by
  obtain ⟨items, hitems, htexts⟩ := Pieces.list_array fun value hmem =>
    isPiece_iff.mp (hvalues value hmem)
  exact ⟨items, by rw [Token.elementsOf, hitems], htexts⟩

theorem arrivesAt_array (values : List Bytes) :
    (fromRoot []).ArrivesAt (Pieces.array values) (Pieces.array values) :=
  Token.locate_root_opening .square _

theorem extract_length_pieces {values : List Bytes} (hvalues : ∀ value ∈ values, IsPiece value) :
    extract "$.length()" (Pieces.array values) =
      .ok (.assembled (Bytes.ofString values.length.repr)) := by
  obtain ⟨items, hitems, htexts⟩ := elementsOf_pieces hvalues (fromRoot []).last.key
  have hcount : items.length = values.length := by rw [← htexts, List.length_map]
  have hroot : (fromRoot []).Plain := nofun
  rw [extract_length, length_get hroot rfl (arrivesAt_array values) rfl, hitems, ← hcount]
  rfl

theorem extract_position_pieces {values : List Bytes} (hvalues : ∀ value ∈ values, IsPiece value)
    {i : Nat} (hi : i < Decimal.signedLimit) {value : Bytes} (hvalue : values[i]? = some value) :
    extract ("$[" ++ i.repr ++ "]") (Pieces.array values) = .ok (.verbatim value) := by
  obtain ⟨items, hitems, rfl⟩ := elementsOf_pieces hvalues (fromRoot []).last.key
  rw [List.getElem?_map] at hvalue
  obtain ⟨element, helement, rfl⟩ := Option.map_eq_some_iff.mp hvalue
  have hlt : i < items.length := (List.getElem?_eq_some_iff.mp helement).1
  have hplace : place? items.length (Int64.ofNat i) = some i :=
    place?_of_toInt (Int64.toInt_ofNat_of_lt hi) hlt
  have hroot : (fromRoot []).Plain := nofun
  rw [extract_position hi, index_get hroot (arrivesAt_array _) rfl,
    elementOf_some hitems hplace helement]
  rfl

/-- What a key gives in an object made of pieces is what the list of its members
has under the key. -/
theorem extract_key_pieces {fields : List (String × Bytes)}
    (hfields : ∀ field ∈ fields, PlainKey field.1 ∧ IsPiece field.2) {key : String}
    (hkey : PlainKey key) :
    extract ("$." ++ key) (Pieces.object fields) =
      match fields.lookup key with
      | some value => .ok (.verbatim value)
      | none => .error (.lookup (.keyNotFound key)) := by
  have hvalues : ∀ field ∈ fields, IsBody (Bytes.ofString field.1) ∧ IsValue field.2 :=
    fun field hmem => ⟨(hfields field hmem).1.isBody, isPiece_iff.mp (hfields field hmem).2⟩
  have hfinds := Pieces.finds_object hvalues key
  have hget := get_root_key hkey.not_root (Pieces.object fields).tail
  have hobject : Byte.openBrace :: (Pieces.object fields).tail = Pieces.object fields := rfl
  rw [hobject] at hget
  rw [extract_key hkey.isKey, hget]
  cases hlookup : fields.lookup key with
  | none =>
    rw [hlookup] at hfinds
    rw [show Member.find (Bytes.ofString key) (Pieces.object fields).tail = .ok none from hfinds]
    rfl
  | some value =>
    rw [hlookup] at hfinds
    obtain ⟨rest, hrest, hfind⟩ := hfinds
    have hmem : (key, value) ∈ fields := by
      obtain ⟨earlier, later, rfl, -⟩ := List.lookup_eq_some_iff.mp hlookup
      exact List.mem_append_right _ List.mem_cons_self
    have hscan := (hvalues _ hmem).2.afterValue fun _ => hrest
    have htext : Token.valueText key (value ++ rest) = .ok value := by
      unfold Token.valueText
      rw [hscan]
      dsimp only
      rw [Bytes.upTo_append]
    rw [hfind, Token.found]
    dsimp only [Except.bind]
    rw [htext]
    rfl

/-- **What is assembled from pieces is taken apart into them.** Whatever a path
to a member or to a position gives, from any document, is a piece. The array of
any pieces has as many elements as there are pieces, and each position gives the
piece that stands there, as far as a position can be written. The object of any
pieces under keys that differ gives each piece by its key, and no other key is
found in it. -/
theorem extract_assembled :
    (∀ (path : Path) (doc : Bytes) (slice : Slice), path.WellFormed →
      path.last.endsPath = false → path.get doc = .ok slice → IsPiece slice.bytes) ∧
    (∀ values : List Bytes, (∀ value ∈ values, IsPiece value) →
      extract "$.length()" (Pieces.array values) =
        .ok (.assembled (Bytes.ofString values.length.repr)) ∧
      ∀ (i : Nat) (value : Bytes), i < Decimal.signedLimit → values[i]? = some value →
        extract ("$[" ++ i.repr ++ "]") (Pieces.array values) = .ok (.verbatim value)) ∧
    ∀ fields : List (String × Bytes),
      (∀ field ∈ fields, PlainKey field.1 ∧ IsPiece field.2) → (fields.map Prod.fst).Nodup →
      (∀ key value, (key, value) ∈ fields →
        extract ("$." ++ key) (Pieces.object fields) = .ok (.verbatim value)) ∧
      ∀ key, PlainKey key → key ∉ fields.map Prod.fst →
        extract ("$." ++ key) (Pieces.object fields) = .error (.lookup (.keyNotFound key)) := by
  refine ⟨fun path doc slice hwell hlast hget => isPiece_of_get hwell hlast hget,
    fun values hvalues => ⟨extract_length_pieces hvalues, fun i value hi hvalue =>
      extract_position_pieces hvalues hi hvalue⟩,
    fun fields hfields hkeys => ⟨fun key value hmem => ?_, fun key hkey hother => ?_⟩⟩
  · have hkey : PlainKey key := (hfields _ hmem).1
    rw [extract_key_pieces hfields hkey, Pieces.lookup_of_mem hkeys hmem]
  · rw [extract_key_pieces hfields hkey, Pieces.lookup_of_not_mem hother]

/-- Pieces with a stray quote and with brackets that cross, one of them from a
malformed document, and keys that look like the end of an array or are not ASCII. -/
theorem extract_assembled_stray :
    IsPiece (Bytes.ofString "x\"[") ∧
    extract "$.length()" (Bytes.ofString "[x\"[,\x7b]:\x7d,\"a]\"]") =
      .ok (.assembled (Bytes.ofString "3")) ∧
    extract "$[1]" (Bytes.ofString "[x\"[,\x7b]:\x7d,\"a]\"]") =
      .ok (.verbatim (Bytes.ofString "\x7b]:\x7d")) ∧
    extract "$.]" (Bytes.ofString "\x7b\"ü\":x\"[,\"]\":\x7b]:\x7d\x7d") =
      .ok (.verbatim (Bytes.ofString "\x7b]:\x7d")) ∧
    extract "$.u" (Bytes.ofString "\x7b\"ü\":x\"[,\"]\":\x7b]:\x7d\x7d") =
      .error (.lookup (.keyNotFound "u")) := by
  obtain ⟨hpiece, harray, hobject⟩ := extract_assembled
  have hscalar : IsPiece (Bytes.ofString "x\"[") := by
    have hget : get ⟨⟨"$", .member⟩, [⟨"a", .member⟩]⟩ (Bytes.ofString "\x7b\"a\":x\"[]") =
        .ok (.verbatim (Bytes.ofString "x\"[")) := eq_ok_of_toOption (by decide +kernel)
    exact hpiece _ _ _ (wellFormed_of_parse (show Path.parse 2 "$.a" = _ from rfl)) rfl hget
  have hcrossed : IsPiece (Bytes.ofString "\x7b]:\x7d") :=
    ⟨⟨_, _, rfl, rfl⟩, eq_ok_of_toOption (by decide +kernel)⟩
  have hstring : IsPiece (Bytes.ofString "\"a]\"") :=
    ⟨⟨_, _, rfl, rfl⟩, eq_ok_of_toOption (by decide +kernel)⟩
  have hletter : PlainKey "ü" := ⟨by decide, by decide, by decide, by decide⟩
  have hbracket : PlainKey "]" := ⟨by decide, by decide, by decide, by decide⟩
  have habsent : PlainKey "u" := ⟨by decide, by decide, by decide, by decide⟩
  obtain ⟨hlength, hposition⟩ := harray
    [Bytes.ofString "x\"[", Bytes.ofString "\x7b]:\x7d", Bytes.ofString "\"a]\""]
    (List.forall_mem_cons.mpr ⟨hscalar, List.forall_mem_cons.mpr
      ⟨hcrossed, List.forall_mem_singleton.mpr hstring⟩⟩)
  obtain ⟨hkey, hother⟩ := hobject
    [("ü", Bytes.ofString "x\"["), ("]", Bytes.ofString "\x7b]:\x7d")]
    (List.forall_mem_cons.mpr
      ⟨⟨hletter, hscalar⟩, List.forall_mem_singleton.mpr ⟨hbracket, hcrossed⟩⟩) (by decide)
  exact ⟨hscalar, hlength, hposition 1 _ (by decide) rfl,
    hkey "]" _ (List.mem_cons_of_mem _ List.mem_cons_self), hother "u" habsent (by decide)⟩

end Path

end RawJson
