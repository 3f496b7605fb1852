/-
Extractions one after another. What a path selects can be handed on as a
document of its own, and a path from its root followed there; the question is
when the two paths in turn select what the joined path selects from the first
document.

From the two runs to the one, always: behind a key the joined path walks
through the text that the first run measured and goes on with bytes the second
run never sees, but a container ends in a bracket, so no scan inside it runs
out, and added bytes change nothing (`Token.follow_of_narrowed`).

From the one run to the two, on documents with the text of a tree: the joined
path may never have scanned the end of the value where it is cut, and only in a
tree that end is sure to be found. There each step has a node to stand at
(`Node.walk_append`).
-/
import RawJson.Proofs.Delimitation
import RawJson.Proofs.Walk

namespace RawJson

/-! ## From two runs to one -/

/-- A container ends in a bracket, so nothing that it ends in is a bare scalar. -/
theorem IsValue.not_runsOut {bracket : Bracket} {rest scalar : Bytes}
    (h : IsValue (bracket.opening :: rest)) (hsuffix : scalar <:+ bracket.opening :: rest) :
    ¬RunsOut scalar := by
  intro hruns
  obtain ⟨hcloses, hlast⟩ := h.selfDelimiting.container bracket rest rfl
  obtain ⟨front, hfront⟩ := hsuffix
  cases scalar with
  | nil => exact hruns
  | cons b scalar =>
    have hclosing : (b :: scalar).getLast? = some bracket.closing := by
      have hwhole : (bracket.opening :: rest).getLast? = some bracket.closing := by
        rw [List.getLast?_cons, hlast, Option.getD_some]
      rw [← hfront, List.getLast?_append, List.getLast?_cons, Option.some_or] at hwhole
      rw [List.getLast?_cons, hwhole]
    have hinside : ∀ c ∈ b :: scalar, Byte.endsScalar c = false := by
      intro c hc
      rcases List.mem_cons.mp hc with rfl | hc
      · exact (Byte.startsScalar_iff.mp hruns.1).2.2.2
      · exact hruns.2 c hc
    have hends : Byte.endsScalar bracket.closing = true := by cases bracket <;> rfl
    exact absurd (hinside _ (List.mem_of_getLast? hclosing)) (by rw [hends]; exact nofun)

namespace Token

/-- The key in front is only named in errors. -/
theorem resume_key {key other : String} {next : Token} {following : List Token} {start : Bytes}
    {slice : Slice} (h : resume key next following start = .ok slice) :
    resume other next following start = .ok slice := by
  unfold resume at h ⊢
  split at h
  · split at h
    · cases h
    · exact h
  · exact h

/-- Inside a container a chain needs nothing that stands behind it. -/
theorem resume_append {key : String} {next : Token} {following : List Token} {bracket : Bracket}
    {inside rest : Bytes} {slice : Slice} (hvalue : IsValue (bracket.opening :: inside))
    (h : resume key next following (bracket.opening :: inside) = .ok slice) :
    resume key next following (bracket.opening :: inside ++ rest) = .ok slice := by
  unfold resume at h ⊢
  split at h
  · next function hfunction =>
    split at h
    · cases h
    next number hcall =>
    have hsettled : Settled Function.Failure.isEnd
        (function.call (bracket.opening :: inside)) := by
      rw [hcall]
      trivial
    rw [Function.call_extend hvalue.starts hsettled fun ho =>
      absurd ho.2 (hvalue.not_runsOut (List.suffix_refl _)), hcall]
    exact h
  · have hsettled : Settled LookupError.isEnd
        (next.follow following (bracket.opening :: inside)) := by
      rw [h]
      trivial
    refine (follow_extend next following _ hsettled fun hopen => ?_).trans h
    obtain ⟨scalar, hsuffix, hruns, -⟩ := follow_of_openEnded next following _ hopen
    exact absurd hruns (hvalue.not_runsOut hsuffix)

theorem locate_root_starts {value found : Bytes} (hstarts : Starts value)
    (h : locate rootKey value = .ok found) : found = value := by
  obtain ⟨b, rest, rfl, hb⟩ := hstarts
  unfold locate at h
  rw [afterGap_cons hb] at h
  dsimp only at h
  split at h
  · cases h
  rw [if_pos rfl] at h
  cases h
  rfl

theorem resume_of_root {next : Token} {following : List Token} {value : Bytes} {slice : Slice}
    (hstarts : Starts value) (h : Path.get (.fromRoot (next :: following)) value = .ok slice) :
    (∃ (bracket : Bracket) (inside : Bytes), value = bracket.opening :: inside) ∧
    (isSubject (next :: following) = true ∨ value.head? = some Byte.openBrace) ∧
    ∀ key, resume key next following value = .ok slice := by
  have h : follow ⟨rootKey, .member⟩ (next :: following) value = .ok slice := h
  rw [follow_eq_resume] at h
  obtain ⟨start, hdescend, hresume⟩ := bind_eq_ok_iff.mp h
  obtain ⟨found, henter, hnarrow⟩ := bind_eq_ok_iff.mp hdescend
  obtain ⟨hlocate, hshape⟩ := enter_eq_ok_iff.mp henter
  obtain rfl : found = start := Except.ok.inj hnarrow
  obtain rfl := locate_root_starts hstarts hlocate
  exact ⟨locate_root hlocate, checkShape_eq_ok_iff.mp hshape, fun key => resume_key hresume⟩

/-- What is selected from a selected value is selected by going on. -/
theorem follow_of_narrowed {token next : Token} {following : List Token} {start : Bytes}
    {slice slice' : Slice} (hlast : token.endsPath = false)
    (h : token.follow [] start = .ok slice)
    (h' : Path.get (.fromRoot (next :: following)) slice.bytes = .ok slice') :
    token.follow (next :: following) start = .ok slice' := by
  rw [follow_nil] at h
  obtain ⟨value, henter, h⟩ := bind_eq_ok_iff.mp h
  obtain ⟨hlocate, hfits⟩ := enter_eq_ok_iff.mp henter
  obtain ⟨-, hstarts⟩ := enter_value henter
  rw [follow_eq_resume]
  refine bind_eq_ok_iff.mpr ?_
  obtain ⟨key, selector⟩ := token
  cases selector with
  | member =>
    obtain ⟨text, htext, rfl⟩ := map_eq_ok_iff.mp h
    obtain ⟨rest, hvalue, rfl, -⟩ := valueText_eq_ok hstarts htext
    obtain ⟨⟨bracket, inside, rfl⟩, hshape, hresume⟩ := resume_of_root hvalue.starts h'
    have hfits' : checkShape ⟨key, .member⟩ (next :: following)
        (bracket.opening :: inside ++ rest) = .ok () := by
      rw [checkShape_extend _ _ hvalue.starts]
      exact checkShape_eq_ok_iff.mpr hshape
    refine ⟨_, bind_eq_ok_iff.mpr ⟨_, enter_eq_ok_iff.mpr ⟨hlocate, hfits'⟩, rfl⟩, ?_⟩
    exact resume_append hvalue (hresume key)
  | index position =>
    obtain ⟨text, helement, rfl⟩ := map_eq_ok_iff.mp h
    obtain ⟨-, -, hresume⟩ := resume_of_root (elementOf_eq_ok helement).1.starts h'
    have hfits' : checkShape ⟨key, .index position⟩ (next :: following) value = .ok () :=
      checkShape_eq_ok_iff.mpr (checkShape_eq_ok_iff.mp hfits)
    exact ⟨text, bind_eq_ok_iff.mpr ⟨value, enter_eq_ok_iff.mpr ⟨hlocate, hfits'⟩, helement⟩,
      hresume key⟩
  | range => cases hlast
  | function => cases hlast

end Token

/-! ## From one run to two -/

namespace Node

theorem enter_eq_ok_iff {token : Token} {following : List Token} {node value : Node} :
    node.enter token following = .ok value ↔
      node.under token.key = .ok value ∧ value.fits token following = .ok () := by
  have heq : node.enter token following =
      (node.under token.key).bind fun value =>
        (value.fits token following).bind fun _ => .ok value :=
    rfl
  rw [heq, bind_eq_ok_iff]
  constructor
  · rintro ⟨found, hunder, h⟩
    obtain ⟨_, hfits, h⟩ := bind_eq_ok_iff.mp h
    cases h
    exact ⟨hunder, hfits⟩
  · rintro ⟨hunder, hfits⟩
    exact ⟨value, hunder, bind_eq_ok_iff.mpr ⟨(), hfits, rfl⟩⟩

theorem walk_nil (token : Token) (node : Node) :
    node.walk token [] = (node.enter token []).bind (select token) := by
  rw [walk]
  rfl

theorem walk_cons (token : Token) {next : Token} (following : List Token) (node : Node)
    (h : next.isFunction = false) :
    node.walk token (next :: following) =
      ((node.enter token (next :: following)).bind (narrow token)).bind (walk next following) := by
  rw [walk]
  cases node.enter token (next :: following) with
  | error error => rfl
  | ok value =>
    dsimp only [bind, Except.bind]
    cases value.narrow token with
    | error error => rfl
    | ok value =>
      dsimp only
      split
      · next hfunction =>
        rw [Token.isFunction, hfunction] at h
        cases h
      · rfl

theorem under_spaced {key : String} {node value : Node} (h : node.Spaced)
    (hunder : node.under key = .ok value) : value.Spaced := by
  have hagrees := locate_agrees key h .none []
  rw [hunder] at hagrees
  obtain ⟨_, _, hstands⟩ := hagrees
  exact hstands.spaced

theorem enter_spaced {token : Token} {following : List Token} {node value : Node}
    (h : node.Spaced) (henter : node.enter token following = .ok value) : value.Spaced :=
  under_spaced h (enter_eq_ok_iff.mp henter).1

theorem narrow_spaced {token : Token} {node inner : Node} (h : node.Spaced)
    (hnarrow : node.narrow token = .ok inner) : inner.Spaced := by
  unfold narrow at hnarrow
  split at hnarrow
  · exact element_spaced h hnarrow
  · cases hnarrow
    exact h

theorem under_eq_ok {key : String} {node value : Node} (hkey : key ≠ Token.rootKey)
    (h : node.under key = .ok value) : ∃ members closing, node = .object members closing := by
  cases node with
  | scalar | string => cases h
  | array =>
    rw [under, if_neg hkey] at h
    cases h
  | object members closing => exact ⟨members, closing, rfl⟩

theorem select_eq_ok {token : Token} {value : Node} {slice : Slice} (h : value.Spaced)
    (hlast : token.endsPath = false) (hselect : value.select token = .ok slice) :
    ∃ inner : Node, inner.Spaced ∧ value.narrow token = .ok inner ∧
      slice = .verbatim inner.text := by
  obtain ⟨key, selector⟩ := token
  cases selector with
  | member =>
    cases hselect
    exact ⟨value, h, rfl, rfl⟩
  | index position =>
    cases value with
    | array elements closing =>
      obtain ⟨inner, helement, rfl⟩ := map_eq_ok_iff.mp hselect
      exact ⟨inner, element_spaced h helement, helement, rfl⟩
    | _ =>
      cases hselect
      exact ⟨_, h, rfl, rfl⟩
  | range => cases hlast
  | function => cases hlast

/-- With a node, the nodes that a chain can come to have the property. -/
structure Inherited (p : Node → Prop) : Prop where
  under : ∀ {key : String} {node value : Node}, p node → node.under key = .ok value → p value
  narrow : ∀ {token : Token} {node inner : Node}, p node → node.narrow token = .ok inner → p inner

theorem inherited_spaced : Inherited Spaced := ⟨under_spaced, narrow_spaced⟩

theorem walk_last {p : Node → Prop} (hp : Inherited p) {token : Token} {following : List Token}
    {node : Node} {slice : Slice} (hnode : p node)
    (hplain : ∀ t ∈ following, t.isFunction = false)
    (h : node.walk token following = .ok slice) :
    ∃ value : Node, p value ∧ value.fits (token.lastOf following) [] = .ok () ∧
      value.select (token.lastOf following) = .ok slice := by
  induction following generalizing token node with
  | nil =>
    rw [walk_nil] at h
    obtain ⟨value, henter, hselect⟩ := bind_eq_ok_iff.mp h
    obtain ⟨hunder, hfits⟩ := enter_eq_ok_iff.mp henter
    exact ⟨value, hp.under hnode hunder, hfits, hselect⟩
  | cons next following ih =>
    rw [walk_cons token following node (hplain next List.mem_cons_self)] at h
    obtain ⟨start, hstep, h⟩ := bind_eq_ok_iff.mp h
    obtain ⟨value, henter, hnarrow⟩ := bind_eq_ok_iff.mp hstep
    exact ih (hp.narrow (hp.under hnode (enter_eq_ok_iff.mp henter).1) hnarrow)
      (fun t ht => hplain t (List.mem_cons_of_mem _ ht)) h

theorem walk_eq_ok {token : Token} {following : List Token} {node : Node} {slice : Slice}
    (hspaced : node.Spaced) (hplain : ∀ t ∈ following, t.isFunction = false)
    (hlast : (token.lastOf following).endsPath = false)
    (h : node.walk token following = .ok slice) :
    ∃ inner : Node, inner.Spaced ∧ slice = .verbatim inner.text := by
  obtain ⟨value, hvalue, -, hselect⟩ := walk_last inherited_spaced hspaced hplain h
  obtain ⟨inner, hinner, -, hslice⟩ := select_eq_ok hvalue hlast hselect
  exact ⟨inner, hinner, hslice⟩

end Node

/-- The first of these tokens looks a key up. -/
def LooksUp : List Token → Prop
  | [] => False
  | next :: _ => next.isFunction = false ∧ next.key ≠ Token.rootKey

namespace Node

theorem under_of_walk {token : Token} {following : List Token} {node : Node} {slice : Slice}
    (h : node.walk token following = .ok slice) : ∃ value, node.under token.key = .ok value := by
  have henter : ∃ value, node.enter token following = .ok value := by
    cases hstep : node.enter token following with
    | ok value => exact ⟨value, rfl⟩
    | error error =>
      cases following with
      | nil =>
        rw [walk_nil, hstep] at h
        cases h
      | cons next following =>
        rw [walk, hstep] at h
        cases h
  obtain ⟨value, henter⟩ := henter
  exact ⟨value, (enter_eq_ok_iff.mp henter).1⟩

theorem fits_last {token : Token} {following : List Token} {value : Node}
    (h : value.fits token following = .ok ()) : value.fits token [] = .ok () := by
  unfold fits at h ⊢
  cases hselects : token.isArray with
  | true =>
    rw [hselects] at h
    cases value with
    | array => rfl
    | _ => cases h
  | false => cases value <;> rfl

theorem select_of_narrow {token : Token} {value inner : Node} (hlast : token.endsPath = false)
    (h : value.narrow token = .ok inner) : value.select token = .ok (.verbatim inner.text) := by
  obtain ⟨key, selector⟩ := token
  cases selector with
  | member =>
    cases h
    rfl
  | index position =>
    cases value with
    | array => exact map_eq_ok_iff.mpr ⟨inner, h, rfl⟩
    | _ =>
      cases h
      rfl
  | range => cases hlast
  | function => cases hlast

theorem enter_root_object (members : List (Label × Node)) (closing : Gap)
    (following : List Token) :
    (object members closing).enter ⟨Token.rootKey, .member⟩ following =
      .ok (.object members closing) := by
  refine enter_eq_ok_iff.mpr ⟨by rw [under, if_pos rfl], ?_⟩
  unfold fits
  dsimp only [Token.isArray]
  split <;> rfl

/-- A token that goes on to another key leads to an object, which is what it gives
as the last one. -/
theorem walk_cut {token next : Token} {following : List Token} {node : Node} {slice : Slice}
    (hspaced : node.Spaced) (hlast : token.endsPath = false) (hnext : LooksUp (next :: following))
    (h : node.walk token (next :: following) = .ok slice) :
    ∃ inner : Node, inner.Spaced ∧ node.walk token [] = .ok (.verbatim inner.text) ∧
      inner.walk ⟨Token.rootKey, .member⟩ (next :: following) = .ok slice := by
  obtain ⟨hfunction, hkey⟩ := hnext
  rw [walk_cons token following node hfunction] at h
  obtain ⟨inner, hstep, h⟩ := bind_eq_ok_iff.mp h
  obtain ⟨value, henter, hnarrow⟩ := bind_eq_ok_iff.mp hstep
  have hinner := narrow_spaced (enter_spaced hspaced henter) hnarrow
  obtain ⟨hunder, hfits⟩ := enter_eq_ok_iff.mp henter
  refine ⟨inner, hinner, ?_, ?_⟩
  · rw [walk_nil]
    exact bind_eq_ok_iff.mpr
      ⟨value, enter_eq_ok_iff.mpr ⟨hunder, fits_last hfits⟩, select_of_narrow hlast hnarrow⟩
  · obtain ⟨_, hunder'⟩ := under_of_walk h
    obtain ⟨members, closing, rfl⟩ := under_eq_ok hkey hunder'
    rw [walk_cons _ _ _ hfunction, enter_root_object]
    exact h

/-- The same of a longer chain, which can be cut behind any token that gives one
value, in front of a key that is looked up. -/
theorem walk_append {token : Token} {following more : List Token} {node : Node} {slice : Slice}
    (hspaced : node.Spaced) (hplain : ∀ t ∈ following, t.isFunction = false)
    (hlast : (token.lastOf following).endsPath = false) (hmore : LooksUp more)
    (h : node.walk token (following ++ more) = .ok slice) :
    ∃ inner : Node, inner.Spaced ∧ node.walk token following = .ok (.verbatim inner.text) ∧
      inner.walk ⟨Token.rootKey, .member⟩ more = .ok slice := by
  induction following generalizing token node with
  | nil =>
    cases more with
    | nil => exact absurd hmore id
    | cons next following => exact walk_cut hspaced hlast hmore h
  | cons next following ih =>
    have hnext := hplain next List.mem_cons_self
    have henter : node.enter token (next :: (following ++ more)) =
        node.enter token (next :: following) := rfl
    rw [List.cons_append, walk_cons _ _ _ hnext, henter] at h
    obtain ⟨start, hstep, h⟩ := bind_eq_ok_iff.mp h
    obtain ⟨value, hvalue, hnarrow⟩ := bind_eq_ok_iff.mp hstep
    obtain ⟨inner, hinner, hwalk, hroot⟩ :=
      ih (narrow_spaced (enter_spaced hspaced hvalue) hnarrow)
        (fun t ht => hplain t (List.mem_cons_of_mem _ ht)) hlast h
    refine ⟨inner, hinner, ?_, hroot⟩
    rw [walk_cons _ _ _ hnext, hstep]
    exact hwalk

/-- Every path selects from the document what it selects from the tree. -/
def Shows (node : Node) (doc : Bytes) : Prop := ∀ path : Path, path.get doc = path.walk node

theorem shows_layout (layout : Layout) : layout.root.Shows layout.bytes := fun path =>
  follow_eq_walk path.tail path.head layout.spaced layout.before layout.trailing

theorem shows_text {node : Node} (h : node.Spaced) : node.Shows node.text := by
  intro path
  have hwalk := follow_eq_walk path.tail path.head h .none []
  rwa [Gap.none, List.nil_append, List.append_nil] at hwalk

end Node

/-! ## Cutting a path -/

namespace Path

/-- Only the last token of a path, if any, is a range or a function. -/
structure EndsLast (path : Path) : Prop where
  head : path.head.isFunction = false
  ends : ∀ token ∈ path.tokens.dropLast, token.endsPath = false

theorem append_tokens (path : Path) (more : List Token) :
    (path.append more).tokens = path.tokens ++ more := rfl

theorem EndsLast.front {path : Path} {more : List Token} (h : (path.append more).EndsLast)
    (hmore : more ≠ []) : ∀ token ∈ path.tokens, token.endsPath = false := by
  intro token hmem
  refine h.ends token ?_
  rw [append_tokens, List.dropLast_append_of_ne_nil hmore]
  exact List.mem_append_left _ hmem

theorem EndsLast.back {path : Path} {more : List Token} (h : (path.append more).EndsLast)
    (hmore : more ≠ []) : (fromRoot more).EndsLast := by
  refine ⟨rfl, fun token hmem => ?_⟩
  rw [fromRoot, tokens, List.dropLast_cons_of_ne_nil hmore] at hmem
  rcases List.mem_cons.mp hmem with rfl | hmem
  · rfl
  · refine h.ends token ?_
    rw [append_tokens, List.dropLast_append_of_ne_nil hmore]
    exact List.mem_append_right _ hmem

theorem plain_of_endsPath {path : Path} (h : ∀ token ∈ path.tokens, token.endsPath = false) :
    path.Plain ∧ path.last.endsPath = false := by
  constructor
  · intro token hmem
    have hends := h token (List.mem_cons_of_mem _ hmem)
    rw [Token.endsPath, Bool.or_eq_false_iff] at hends
    exact hends.2
  · refine h path.last ?_
    rw [tokens_eq_dropLast]
    exact List.mem_append_right _ List.mem_cons_self

theorem join {path : Path} {more : List Token} (h : (path.append more).EndsLast)
    (hmore : more ≠ []) {doc : Bytes} {slice slice' : Slice} (hget : path.get doc = .ok slice)
    (hget' : (fromRoot more).get slice.bytes = .ok slice') :
    (path.append more).get doc = .ok slice' := by
  obtain ⟨hplain, hlast⟩ := plain_of_endsPath (h.front hmore)
  obtain ⟨next, following, rfl⟩ := List.exists_cons_of_ne_nil hmore
  rw [get_eq hplain] at hget
  rw [append_get hplain]
  obtain ⟨start, hstart, hget⟩ := bind_eq_ok_iff.mp hget
  exact bind_eq_ok_iff.mpr ⟨start, hstart, Token.follow_of_narrowed hlast hget hget'⟩

/-- What the joined path selects from the text of a tree is found in two steps,
the first of which leads to a node. -/
theorem cut {path : Path} {more : List Token} (h : (path.append more).EndsLast)
    (hmore : LooksUp more) {node : Node} {doc : Bytes} (hspaced : node.Spaced)
    (hshows : node.Shows doc) {slice : Slice} (hget : (path.append more).get doc = .ok slice) :
    ∃ inner : Node, inner.Spaced ∧ path.get doc = .ok (.verbatim inner.text) ∧
      (fromRoot more).get inner.text = .ok slice := by
  have hne : more ≠ [] := by
    rintro rfl
    exact hmore
  obtain ⟨hplain, hlast⟩ := plain_of_endsPath (h.front hne)
  rw [hshows] at hget
  obtain ⟨inner, hinner, hwalk, hroot⟩ := Node.walk_append hspaced hplain hlast hmore hget
  exact ⟨inner, hinner, (hshows path).trans hwalk, (Node.shows_text hinner _).trans hroot⟩

/-- Extractions one after another: the first by a path, each later one by a piece
of a path, from the root of what came out before. -/
def inTurn (path : Path) : List (List Token) → Bytes → Except LookupError Slice
  | [], doc => path.get doc
  | piece :: pieces, doc =>
    (path.get doc).bind fun slice => (fromRoot piece).inTurn pieces slice.bytes

/-- A path cut into pieces selects, from the text of a tree, what it selects whole. -/
theorem inTurn_eq_ok_iff {path : Path} {pieces : List (List Token)}
    (h : (path.append pieces.flatten).EndsLast) (hpieces : ∀ piece ∈ pieces, LooksUp piece)
    {node : Node} {doc : Bytes} (hspaced : node.Spaced) (hshows : node.Shows doc) {slice : Slice} :
    path.inTurn pieces doc = .ok slice ↔ (path.append pieces.flatten).get doc = .ok slice := by
  induction pieces generalizing path node doc with
  | nil =>
    rw [List.flatten_nil, append, List.append_nil]
    exact Iff.rfl
  | cons piece pieces ih =>
    have hpiece : LooksUp (piece ++ pieces.flatten) := by
      have hfirst := hpieces piece List.mem_cons_self
      cases piece with
      | nil => exact absurd hfirst id
      | cons next piece => exact hfirst
    have hne : piece ++ pieces.flatten ≠ [] := by
      intro hnil
      rw [hnil] at hpiece
      exact hpiece
    have hback : ((fromRoot piece).append pieces.flatten).EndsLast := h.back hne
    have hothers : ∀ piece ∈ pieces, LooksUp piece := fun piece hmem =>
      hpieces piece (List.mem_cons_of_mem _ hmem)
    rw [List.flatten_cons] at h ⊢
    constructor
    · intro hturn
      obtain ⟨slice', hget, hturn⟩ := bind_eq_ok_iff.mp hturn
      obtain ⟨hplain, hlast⟩ := plain_of_endsPath (h.front hne)
      obtain ⟨inner, hinner, rfl⟩ :=
        Node.walk_eq_ok hspaced hplain hlast ((hshows path).symm.trans hget)
      exact join h hne hget ((ih hback hothers hinner (Node.shows_text hinner)).mp hturn)
    · intro hget
      obtain ⟨inner, hinner, hfirst, hroot⟩ := cut h hpiece hspaced hshows hget
      exact bind_eq_ok_iff.mpr
        ⟨_, hfirst, (ih hback hothers hinner (Node.shows_text hinner)).mpr hroot⟩

/-- **Extractions one after another are one extraction.** Let a path go on behind
a token, which then is a member or a single position. On every document, what the
rest of the path selects from the root of what the front selects, the whole path
selects. On a document with the text of a tree at its start the converse holds
where the rest looks a key up first, and so the path can be cut in front of any
such keys, into as many extractions as there are pieces. -/
theorem get_narrowed (path : Path) (more : List Token) (hmore : more ≠ [])
    (h : (path.append more).WellFormed) :
    (∀ (doc : Bytes) (slice slice' : Slice), path.get doc = .ok slice →
      (fromRoot more).get slice.bytes = .ok slice' → (path.append more).get doc = .ok slice') ∧
    (LooksUp more → ∀ (layout : Layout) (slice' : Slice),
      (path.append more).get layout.bytes = .ok slice' →
      ∃ slice, path.get layout.bytes = .ok slice ∧
        (fromRoot more).get slice.bytes = .ok slice') ∧
    (∀ pieces : List (List Token), pieces.flatten = more → (∀ piece ∈ pieces, LooksUp piece) →
      ∀ (layout : Layout) (slice : Slice), path.inTurn pieces layout.bytes = .ok slice ↔
        (path.append more).get layout.bytes = .ok slice) := by
  have hends : (path.append more).EndsLast := ⟨h.head, h.ends⟩
  refine ⟨fun doc slice slice' => join hends hmore, ?_, ?_⟩
  · intro hlooks layout slice' hget
    obtain ⟨inner, -, hfirst, hroot⟩ :=
      cut hends hlooks layout.spaced (Node.shows_layout layout) hget
    exact ⟨_, hfirst, hroot⟩
  · rintro pieces rfl hpieces layout slice
    exact inTurn_eq_ok_iff hends hpieces layout.spaced (Node.shows_layout layout)

/-- A path in three pieces: on a document whose brackets cross, where the front
gives a value that the rest goes on from, and on the text of a tree. -/
theorem get_narrowed_pieces :
    (Path.append ⟨⟨"$", .member⟩, [⟨"a", .index 1⟩]⟩ [⟨"b", .member⟩, ⟨"c", .member⟩]).get
      (Bytes.ofString "\x7b\"a\":[1 \x7b\"b\":\x7b\"c\":null]\x7d\x7d]") =
        .ok (.verbatim (Bytes.ofString "null")) ∧
    ∃ layout : Layout,
      layout.bytes = Bytes.ofString "\x7b\"a\":[1 \x7b\"b\":\x7b\"c\":null\x7d\x7d]\x7d ]" ∧
      (∃ slice, Path.get ⟨⟨"$", .member⟩, [⟨"a", .index 1⟩]⟩ layout.bytes = .ok slice ∧
        (fromRoot [⟨"b", .member⟩, ⟨"c", .member⟩]).get slice.bytes =
          .ok (.verbatim (Bytes.ofString "null"))) ∧
      Path.inTurn ⟨⟨"$", .member⟩, [⟨"a", .index 1⟩]⟩ [[⟨"b", .member⟩], [⟨"c", .member⟩]]
        layout.bytes = .ok (.verbatim (Bytes.ofString "null")) := by
  have hwell : Path.WellFormed
      (Path.append ⟨⟨"$", .member⟩, [⟨"a", .index 1⟩]⟩ [⟨"b", .member⟩, ⟨"c", .member⟩]) :=
    Path.wellFormed_of_parse (show Path.parse 4 "$.a[1].b.c" = _ from rfl)
  obtain ⟨hjoin, hcut, hturn⟩ := get_narrowed _ _ (List.cons_ne_nil _ _) hwell
  refine ⟨?_, ?_⟩
  · refine hjoin _ (.verbatim (Bytes.ofString "\x7b\"b\":\x7b\"c\":null]\x7d\x7d")) _
      (eq_ok_of_toOption (by decide +kernel)) (eq_ok_of_toOption (by decide +kernel))
  · let object (name : UInt8) (h : name ≠ Byte.quote ∧ name ≠ Byte.backslash)
        (value : Node) : Node :=
      .object [(⟨.none, ⟨[name], .plain h.1 h.2 .nil⟩, .none, .none⟩, value)] .none
    let inner : Node :=
      object 0x62 (by decide) (object 0x63 (by decide) (.scalar .null))
    let array : Node :=
      .array [(.none, .scalar (.number ⟨0x31, [], by decide, nofun⟩)),
        (⟨Bytes.ofString " ", List.all_eq_true.mp rfl⟩, inner)] .none
    have hinner : inner.Spaced :=
      ⟨⟨trivial, fun _ => by decide, trivial⟩, nofun, trivial⟩
    have harray : array.Spaced := ⟨trivial, fun _ => by decide, hinner, nofun, trivial⟩
    let layout : Layout :=
      ⟨.none, object 0x61 (by decide) array, ⟨harray, nofun, trivial⟩, Bytes.ofString " ]"⟩
    have hbytes : layout.bytes =
        Bytes.ofString "\x7b\"a\":[1 \x7b\"b\":\x7b\"c\":null\x7d\x7d]\x7d ]" := rfl
    have hwhole : Path.get
        (Path.append ⟨⟨"$", .member⟩, [⟨"a", .index 1⟩]⟩ [⟨"b", .member⟩, ⟨"c", .member⟩])
        layout.bytes = .ok (.verbatim (Bytes.ofString "null")) := by
      rw [hbytes]
      exact eq_ok_of_toOption (by decide +kernel)
    have hpieces : ∀ piece ∈ [[⟨"b", .member⟩], [⟨"c", .member⟩]], LooksUp piece := by
      intro piece hmem
      simp only [List.mem_cons, List.not_mem_nil, or_false] at hmem
      rcases hmem with rfl | rfl <;> exact ⟨rfl, by decide⟩
    exact ⟨layout, hbytes, hcut ⟨rfl, by decide⟩ layout _ hwhole,
      (hturn [[⟨"b", .member⟩], [⟨"c", .member⟩]] rfl hpieces layout _).mpr hwhole⟩

end Path

end RawJson
