/-
Every place in a document has a path. A place is given by the steps that lead to
it from the root: into a member of an object, or to an element of an array
(`Node.at?`). A token of a path can do one of each, first a member and then one
element, so the steps are taken as they come: a member opens a token, an element
that comes next joins it, and any further element has a token of its own, which
stays where it is by the root key (`address`).

The invariant of the construction is about the token that is still open: what it
selects, from where it starts, is the node that the steps so far lead to
(`Node.Selects`). Each step keeps that (`Node.Selects.next`), and where the steps
end the walk does (`Node.walk_address`).
-/
import RawJson.Proofs.Composition
import RawJson.Proofs.Reslicing
import RawJson.Proofs.Strict

namespace RawJson

/-! ## Places -/

/-- A step from a container into it. -/
inductive Step where
  | member (key : String)
  | index (place : Nat)
  deriving DecidableEq, Repr

namespace Node

/-- The node a step leads to, for a key its first member. -/
def child? (node : Node) (step : Step) : Option Node :=
  match step, node with
  | .member key, .object members _ =>
    (members.find? fun member => member.1.key.bytes == Bytes.ofString key).map Prod.snd
  | .index place, .array elements _ => elements[place]?.map Prod.snd
  | _, _ => none

/-- The node that some steps lead to, one after another. -/
def at? (node : Node) : List Step → Option Node
  | [] => some node
  | step :: steps => (node.child? step).bind fun child => child.at? steps

theorem child?_member {node child : Node} {key : String}
    (h : node.child? (.member key) = some child) :
    ∃ members closing label, node = .object members closing ∧
      members.find? (fun member => member.1.key.bytes == Bytes.ofString key) =
        some (label, child) := by
  cases node with
  | object members closing =>
    obtain ⟨⟨label, child⟩, hfirst, rfl⟩ := Option.map_eq_some_iff.mp h
    exact ⟨members, closing, label, rfl, hfirst⟩
  | scalar | string | array => cases h

theorem child?_index {node child : Node} {place : Nat}
    (h : node.child? (.index place) = some child) :
    ∃ elements closing gap, node = .array elements closing ∧
      elements[place]? = some (gap, child) := by
  cases node with
  | array elements closing =>
    obtain ⟨⟨gap, child⟩, hplace, rfl⟩ := Option.map_eq_some_iff.mp h
    exact ⟨elements, closing, gap, rfl, hplace⟩
  | scalar | string | object => cases h

theorem text_length_pos (node : Node) : 0 < node.text.length := by
  obtain ⟨b, more, htext, -⟩ := node.text_head
  rw [htext]
  exact Nat.succ_pos _

theorem length_of_mem_members {members : List (Label × Node)} {member : Label × Node}
    (h : member ∈ members) : member.2.text.length ≤ (membersText members).length := by
  induction members with
  | nil => cases h
  | cons first others ih =>
    rw [membersText, List.length_append, List.length_append]
    rcases List.mem_cons.mp h with rfl | h
    · omega
    · have := ih h
      omega

theorem length_of_element {elements : List (Gap × Node)} {place : Nat} {element : Gap × Node}
    (h : elements[place]? = some element) :
    place + element.2.text.length ≤ (elementsText elements).length := by
  induction elements generalizing place with
  | nil => cases h
  | cons first others ih =>
    rw [elementsText, List.length_append, List.length_append]
    cases place with
    | zero =>
      cases h
      omega
    | succ place =>
      have hothers := ih h
      have hfirst := first.2.text_length_pos
      omega

theorem child?_length {node child : Node} {step : Step} (h : node.child? step = some child) :
    child.text.length ≤ node.text.length ∧
      ∀ place, step = .index place → place < node.text.length := by
  cases step with
  | member key =>
    obtain ⟨members, closing, label, rfl, hfirst⟩ := child?_member h
    have hlength := length_of_mem_members (List.mem_of_find?_eq_some hfirst)
    dsimp only at hlength
    refine ⟨?_, nofun⟩
    simp only [text, List.length_cons, List.length_append]
    omega
  | index place =>
    obtain ⟨elements, closing, gap, rfl, hplace⟩ := child?_index h
    have hlength := length_of_element hplace
    dsimp only at hlength
    have hlast : (array elements closing).text.length =
        (elementsText elements).length + closing.bytes.length + 2 := by
      simp only [text, List.length_cons, List.length_append]
      rfl
    refine ⟨by omega, fun place' heq => ?_⟩
    cases heq
    omega

end Node

/-! ## Paths to places -/

/-- A path can spell the step: a key in which no path ends and that is not the
root key, or a position of 64 bits. -/
def Step.Spelled : Step → Prop
  | .member key => IsKey key.toList ∧ key ≠ Token.rootKey
  | .index place => place < Decimal.signedLimit

/-- Positions in a document that a buffer holds have 64 bits. -/
theorem Node.spelled_of_at? {root node : Node} {steps : List Step}
    (hlength : root.text.length < Decimal.signedLimit) (h : root.at? steps = some node)
    (hkeys : ∀ key, .member key ∈ steps → IsKey key.toList ∧ key ≠ Token.rootKey) :
    ∀ step ∈ steps, step.Spelled := by
  induction steps generalizing root with
  | nil => exact nofun
  | cons step steps ih =>
    obtain ⟨child, hchild, hnode⟩ := Option.bind_eq_some_iff.mp h
    obtain ⟨hshort, hplace⟩ := child?_length hchild
    refine List.forall_mem_cons.mpr ⟨?_, ih (Nat.lt_of_le_of_lt hshort hlength) hnode
      fun key hmem => hkeys key (List.mem_cons_of_mem _ hmem)⟩
    cases step with
    | member key => exact hkeys key List.mem_cons_self
    | index place => exact Nat.lt_trans (hplace place rfl) hlength

/-- The step joins an open token: it goes to an element of the array under its key. -/
def Step.joins (token : Token) : Step → Bool
  | .member _ => false
  | .index _ => token.selector = .member

/-- The open token after a step. -/
def Step.next (token : Token) : Step → Token
  | .member key => ⟨key, .member⟩
  | .index place =>
    ⟨if token.selector = .member then token.key else Token.rootKey, .index (Int64.ofNat place)⟩

/-- The path from where an open token starts, through it and on by some steps. -/
def address (token : Token) : List Step → Path
  | [] => ⟨token, []⟩
  | step :: steps =>
    if step.joins token then address (step.next token) steps
    else ⟨token, (address (step.next token) steps).tokens⟩

/-- A token that a path can have in any place. -/
structure Token.Open (token : Token) : Prop where
  key : IsKey token.key.toList
  not_last : token.endsPath = false

theorem Token.Open.isFunction {token : Token} (h : token.Open) : token.isFunction = false :=
  (Bool.or_eq_false_iff.mp h.not_last).2

theorem Token.Open.valid {token : Token} (h : token.Open) : token.Valid := by
  refine ⟨h.key, fun function hselector => ?_⟩
  have hfunction := h.isFunction
  simp [Token.isFunction, hselector] at hfunction

theorem open_root : Token.Open ⟨Token.rootKey, .member⟩ :=
  ⟨by decide, rfl⟩

theorem Step.next_open {token : Token} (hopen : token.Open) {step : Step} (hstep : step.Spelled) :
    (step.next token).Open := by
  cases step with
  | member key => exact ⟨hstep.1, rfl⟩
  | index place =>
    refine ⟨?_, rfl⟩
    rw [next]
    split
    · exact hopen.key
    · exact open_root.key

theorem Step.next_key {token : Token} {step : Step} (hjoins : step.joins token = true) :
    (step.next token).key = token.key := by
  cases step with
  | member => cases hjoins
  | index place => exact if_pos (of_decide_eq_true hjoins)

/-- The tokens of an address begin at the key of the open token, can all have
others behind them, and are as many as the steps and one at most. -/
theorem address_tokens {token : Token} (hopen : token.Open) {steps : List Step}
    (hsteps : ∀ step ∈ steps, step.Spelled) :
    (address token steps).head.key = token.key ∧
      (∀ t ∈ (address token steps).tokens, t.Open) ∧
      (address token steps).length ≤ steps.length + 1 := by
  induction steps generalizing token with
  | nil => exact ⟨rfl, List.forall_mem_singleton.mpr hopen, Nat.le_refl 1⟩
  | cons step steps ih =>
    obtain ⟨hstep, hsteps⟩ := List.forall_mem_cons.mp hsteps
    obtain ⟨hkey, hall, hlength⟩ := ih (step.next_open hopen hstep) hsteps
    rw [address]
    split
    · next hjoins => exact ⟨hkey.trans (Step.next_key hjoins), hall, Nat.le_succ_of_le hlength⟩
    · exact ⟨rfl, List.forall_mem_cons.mpr ⟨hopen, hall⟩, Nat.succ_le_succ hlength⟩

theorem wellFormed_address {steps : List Step} (hsteps : ∀ step ∈ steps, step.Spelled) :
    (address ⟨Token.rootKey, .member⟩ steps).WellFormed := by
  obtain ⟨hkey, hall, -⟩ := address_tokens open_root hsteps
  refine ⟨?_, (hall _ List.mem_cons_self).isFunction, fun token hmem => (hall token hmem).valid,
    fun token hmem => (hall token (List.dropLast_subset _ hmem)).not_last⟩
  rw [Path.Rooted, hkey]
  decide

/-! ## The walk to a place -/

namespace Node

/-- From `start` an open token selects `inner`. -/
structure Selects (token : Token) (start inner : Node) : Prop where
  not_last : token.endsPath = false
  step : ∃ value, start.under token.key = .ok value ∧ value.fits token [] = .ok () ∧
    value.narrow token = .ok inner

variable {token : Token} {start inner value : Node}

theorem isObject_of_kind {node : Node} (h : node.kind = .object) :
    ∃ members closing, node = .object members closing := by
  cases node with
  | object members closing => exact ⟨members, closing, rfl⟩
  | scalar value => exact absurd h value.kind_ne_object
  | string | array => cases h

theorem isArray_of_kind {node : Node} (h : node.kind = .array) :
    ∃ elements closing, node = .array elements closing := by
  cases node with
  | array elements closing => exact ⟨elements, closing, rfl⟩
  | scalar value => exact absurd h value.kind_ne_array
  | string | object => cases h

theorem under_root {node : Node} (h : node.kind = .object ∨ node.kind = .array) :
    node.under Token.rootKey = .ok node := by
  rcases h with h | h
  · obtain ⟨members, closing, rfl⟩ := isObject_of_kind h
    rw [under, if_pos rfl]
  · obtain ⟨elements, closing, rfl⟩ := isArray_of_kind h
    rw [under, if_pos rfl]

theorem fits_object {members : List (Label × Node)} {closing : Gap} (key : String)
    (following : List Token) :
    (object members closing).fits ⟨key, .member⟩ following = .ok () := by
  unfold fits
  dsimp only [Token.isArray]
  split <;> rfl

theorem Selects.walk (h : Selects token start inner) :
    start.walk token [] = .ok (.verbatim inner.text) := by
  obtain ⟨value, hunder, hfits, hnarrow⟩ := h.step
  rw [walk_nil]
  exact bind_eq_ok_iff.mpr
    ⟨value, enter_eq_ok_iff.mpr ⟨hunder, hfits⟩, select_of_narrow h.not_last hnarrow⟩

theorem Selects.walk_cons (h : Selects token start inner)
    (hinner : token.selector = .member → inner.kind = .object) {next : Token}
    (hnext : next.isFunction = false) (following : List Token) :
    start.walk token (next :: following) = inner.walk next following := by
  obtain ⟨value, hunder, hfits, hnarrow⟩ := h.step
  have hmiddle : value.fits token (next :: following) = .ok () := by
    obtain ⟨key, selector⟩ := token
    cases selector with
    | member =>
      obtain ⟨members, closing, rfl⟩ := isObject_of_kind (hinner rfl)
      cases hnarrow
      exact fits_object key _
    | index position =>
      cases value with
      | array => rfl
      | scalar | string | object => cases hfits
    | range => cases h.not_last
    | function => cases h.not_last
  rw [Node.walk_cons _ _ _ hnext, enter_eq_ok_iff.mpr ⟨hunder, hmiddle⟩]
  dsimp only [Except.bind]
  rw [hnarrow]

theorem selects_member {members : List (Label × Node)} {closing : Gap} {label : Label}
    {key : String} (hkey : key ≠ Token.rootKey)
    (hfirst : members.find? (fun member => member.1.key.bytes == Bytes.ofString key) =
      some (label, value)) :
    Selects ⟨key, .member⟩ (.object members closing) value := by
  refine ⟨rfl, value, ?_, by cases value <;> rfl, rfl⟩
  rw [under, if_neg hkey, hfirst]

theorem selects_index {elements : List (Gap × Node)} {closing gap : Gap} {place : Nat}
    {key : String} (hunder : start.under key = .ok (.array elements closing))
    (hspelled : place < Decimal.signedLimit) (hplace : elements[place]? = some (gap, value)) :
    Selects ⟨key, .index (Int64.ofNat place)⟩ start value := by
  have hlt : place < elements.length := (List.getElem?_eq_some_iff.mp hplace).1
  have hposition : place? elements.length (Int64.ofNat place) = some place :=
    place?_of_toInt (Int64.toInt_ofNat_of_lt hspelled) hlt
  refine ⟨rfl, .array elements closing, hunder, rfl, ?_⟩
  show element key (Int64.ofNat place) elements = .ok value
  rw [element, hposition, Option.bind_some, hplace]

/-- **A step keeps the invariant.** A step that joins the open token is taken by
the token itself, any other one by the token it opens, from where this one leads. -/
theorem Selects.next {step : Step} (h : Selects token start inner) (hstep : step.Spelled)
    (hchild : inner.child? step = some value) :
    if step.joins token then Selects (step.next token) start value
    else Selects (step.next token) inner value ∧
      ∀ (next : Token) (following : List Token), next.isFunction = false →
        start.walk token (next :: following) = inner.walk next following := by
  cases step with
  | member key =>
    obtain ⟨members, closing, label, rfl, hfirst⟩ := child?_member hchild
    exact ⟨selects_member hstep.2 hfirst, fun next following hnext =>
      h.walk_cons (fun _ => rfl) hnext following⟩
  | index place =>
    obtain ⟨elements, closing, gap, rfl, hplace⟩ := child?_index hchild
    obtain ⟨key, selector⟩ := token
    cases selector with
    | member =>
      obtain ⟨value, hunder, -, hnarrow⟩ := h.step
      cases hnarrow
      exact selects_index hunder hstep hplace
    | index position =>
      exact ⟨selects_index (under_root (.inr rfl)) hstep hplace, fun next following hnext =>
        h.walk_cons nofun hnext following⟩
    | range => cases h.not_last
    | function => cases h.not_last

/-- **An address leads to its place**, from where its open token starts. -/
theorem walk_address {steps : List Step} {node : Node} (h : Selects token start inner)
    (hopen : token.Open) (hsteps : ∀ step ∈ steps, step.Spelled)
    (hat : inner.at? steps = some node) :
    (address token steps).walk start = .ok (.verbatim node.text) := by
  induction steps generalizing token start inner with
  | nil =>
    cases hat
    exact h.walk
  | cons step steps ih =>
    obtain ⟨hstep, hsteps⟩ := List.forall_mem_cons.mp hsteps
    obtain ⟨child, hchild, hat⟩ := Option.bind_eq_some_iff.mp hat
    have hnext := h.next hstep hchild
    have hopen' := step.next_open hopen hstep
    rw [address]
    split
    · next hjoins =>
      rw [if_pos hjoins] at hnext
      exact ih hnext hopen' hsteps hat
    · next hjoins =>
      rw [if_neg hjoins] at hnext
      obtain ⟨hselects, hwalk⟩ := hnext
      obtain ⟨-, hall, -⟩ := address_tokens hopen' hsteps
      have hfirst := (hall _ List.mem_cons_self).isFunction
      exact (hwalk _ _ hfirst).trans (ih hselects hopen' hsteps hat)

theorem selects_root {root : Node} (h : root.kind = .object ∨ root.kind = .array) :
    Selects ⟨Token.rootKey, .member⟩ root root :=
  ⟨rfl, root, under_root h, by cases root <;> rfl, rfl⟩

end Node

/-! ## Every place -/

namespace Path

/-- **Every place has a path.** A JSON document has the text of a tree, and in
every document that has one, with an object or an array as its root and no longer
than a buffer, any steps lead to a node that a path selects, if their keys can be
keys of a path. The path has a token more than there are steps at most, and is
read and followed under any options that admit as many tokens as it has. -/
theorem exists_address :
    (∀ doc : Bytes, IsDocument doc →
      ∃ layout : Layout, layout.bytes = doc ∧ layout.root.Strict) ∧
    ∀ (layout : Layout) (steps : List Step) (node : Node),
      layout.root.kind = .object ∨ layout.root.kind = .array →
      layout.bytes.length < Decimal.signedLimit → layout.root.at? steps = some node →
      (∀ key, .member key ∈ steps → IsKey key.toList ∧ key ≠ Token.rootKey) →
      ∃ (text : String) (path : Path), path.length ≤ steps.length + 1 ∧
        ∀ extractor : Extractor, path.length ≤ extractor.options.maxSegments.toNat →
          extractor.compile text = .ok path ∧
          extractor.extract text layout.bytes = .ok (.verbatim node.text) := by
  refine ⟨fun doc hdoc => hdoc.exists_layout, ?_⟩
  intro layout steps node hroot hlength hat hkeys
  have htext : layout.root.text.length < Decimal.signedLimit := by
    rw [Layout.bytes, List.length_append, List.length_append] at hlength
    omega
  have hsteps := Node.spelled_of_at? htext hat hkeys
  have hwalk := Node.walk_address (Node.selects_root hroot) open_root hsteps hat
  have hget := (Node.shows_layout layout _).trans hwalk
  have hread := wellFormed_address hsteps
  obtain ⟨-, -, hcount⟩ := address_tokens open_root hsteps
  generalize address ⟨Token.rootKey, .member⟩ steps = path at hget hread hcount
  refine ⟨path.text, path, hcount, fun extractor hroom => ?_⟩
  have hcompile : extractor.compile path.text = .ok path := hread.parse_text hroom
  refine ⟨hcompile, ?_⟩
  rw [Extractor.extract, hcompile]
  dsimp only
  rw [hget]

/-- A document that is an empty array, and an element of an element under the
first of two members of one key. -/
theorem exists_address_nested :
    (∃ layout : Layout, layout.bytes = Bytes.ofString "[]" ∧ layout.root.Strict) ∧
    ∃ layout : Layout, layout.bytes = Bytes.ofString "\x7b\"a\":[[1,null]],\"a\":0\x7d" ∧
    (address ⟨"$", .member⟩ [.member "a", .index 0, .index 1]).text = "$.a[0].$[1]" ∧
    ∃ (text : String) (path : Path), path.length ≤ 4 ∧
      Extractor.compile {} text = .ok path ∧
      extract text layout.bytes = .ok (.verbatim (Bytes.ofString "null")) := by
  obtain ⟨hdocument, haddress⟩ := exists_address
  have hempty : IsDocument (Bytes.ofString "[]") :=
    @IsDocument.parts [] (Bytes.ofString "[]") [] isBlank_nil (.emptyArray isBlank_nil) isBlank_nil
  refine ⟨hdocument _ hempty, ?_⟩
  let label (before : Gap) : Label :=
    ⟨before, ⟨[0x61], .plain (by decide) (by decide) .nil⟩, .none, .none⟩
  let comma : Gap := ⟨[Byte.comma], List.all_eq_true.mp rfl⟩
  let digit (b : UInt8) (h : b ∈ Numeral.leading) : Node := .scalar (.number ⟨b, [], h, nofun⟩)
  let inner : Node := .array [(.none, digit 0x31 (by decide)), (comma, .scalar .null)] .none
  let array : Node := .array [(.none, inner)] .none
  let root : Node := .object [(label .none, array), (label comma, digit 0x30 (by decide))] .none
  have hinner : inner.Spaced :=
    ⟨trivial, fun _ => by decide, trivial, fun _ => by decide, trivial⟩
  have hroot : root.Spaced :=
    ⟨⟨hinner, nofun, trivial⟩, nofun, trivial, fun _ => by decide, trivial⟩
  let layout : Layout := ⟨.none, root, hroot, []⟩
  have hbytes : layout.bytes = Bytes.ofString "\x7b\"a\":[[1,null]],\"a\":0\x7d" := rfl
  have hlength : layout.bytes.length < Decimal.signedLimit := by
    rw [hbytes]
    decide
  have hat : root.at? [.member "a", .index 0, .index 1] = some (.scalar .null) := rfl
  have hkey : IsKey "a".toList ∧ "a" ≠ Token.rootKey := by decide
  have hkeys : ∀ key, Step.member key ∈ [.member "a", .index 0, .index 1] →
      IsKey key.toList ∧ key ≠ Token.rootKey := by
    intro key hmem
    obtain rfl : key = "a" := by simpa using hmem
    exact hkey
  obtain ⟨text, path, hcount, hextract⟩ :=
    haddress layout _ _ (.inl rfl) hlength hat hkeys
  obtain ⟨hcompile, hget⟩ := hextract {} (Nat.le_trans hcount (by decide))
  refine ⟨layout, hbytes, rfl, text, path, hcount, hcompile, ?_⟩
  rw [extract, hget]
  rfl

end Path

end RawJson
