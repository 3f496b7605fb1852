/-
Paths taken apart at their last token. `Path.approach` is the way up to where
that token starts; what happens from there on depends on the token and on what
comes behind it, and on nothing else. So a path with more tokens at its end
(`Path.append`), or with another selector there (`Path.select`), goes the same
way first (`Path.append_get`, `Path.select_get`).

That holds for the paths whose functions, if any, come last, as they do in
every path that is read: a function in the middle would end the way there.
-/
import RawJson.Proofs.Canonical
import RawJson.Proofs.Elements
import RawJson.Proofs.Truncation

namespace RawJson

/-! ## One outcome after another -/

instance decidableEqExcept {ε α : Type} [DecidableEq ε] [DecidableEq α] : DecidableEq (Except ε α)
  | .error a, .error b => decidable_of_iff (a = b) ⟨congrArg _, Except.error.inj⟩
  | .ok a, .ok b => decidable_of_iff (a = b) ⟨congrArg _, Except.ok.inj⟩
  | .error _, .ok _ => .isFalse nofun
  | .ok _, .error _ => .isFalse nofun

theorem bind_eq_ok_iff {ε α β : Type} {x : Except ε α} {f : α → Except ε β} {b : β} :
    x.bind f = .ok b ↔ ∃ a, x = .ok a ∧ f a = .ok b := by
  cases x with
  | error error => exact ⟨nofun, fun ⟨_, h, _⟩ => nomatch h⟩
  | ok a => exact ⟨fun h => ⟨a, rfl, h⟩, fun ⟨_, h, hf⟩ => by cases h; exact hf⟩

theorem bind_bind {ε α β γ : Type} (x : Except ε α) (f : α → Except ε β) (g : β → Except ε γ) :
    (x.bind f).bind g = x.bind fun a => (f a).bind g := by
  cases x <;> rfl

theorem map_eq_ok_iff {ε α β : Type} {x : Except ε α} {f : α → β} {b : β} :
    x.map f = .ok b ↔ ∃ a, x = .ok a ∧ f a = b := by
  cases x with
  | error error => exact ⟨nofun, fun ⟨_, h, _⟩ => nomatch h⟩
  | ok a => exact ⟨fun h => ⟨a, rfl, Except.ok.inj h⟩, fun ⟨_, h, hf⟩ => by cases h; rw [← hf]; rfl⟩

theorem bind_eq_error_iff {ε α β : Type} {x : Except ε α} {f : α → Except ε β} {error : ε} :
    x.bind f = .error error ↔ x = .error error ∨ ∃ a, x = .ok a ∧ f a = .error error := by
  cases x with
  | error other =>
    constructor
    · intro h
      cases h
      exact .inl rfl
    · rintro (h | ⟨_, h, _⟩)
      · cases h
        rfl
      · cases h
  | ok a =>
    constructor
    · exact fun h => .inr ⟨a, rfl, h⟩
    · rintro (h | ⟨_, h, hf⟩)
      · cases h
      · cases h
        exact hf

theorem map_eq_error_iff {ε α β : Type} {x : Except ε α} {f : α → β} {error : ε} :
    x.map f = .error error ↔ x = .error error := by
  cases x with
  | error other => exact ⟨fun h => congrArg _ (Except.error.inj h), fun h => by cases h; rfl⟩
  | ok a => exact ⟨nofun, nofun⟩

/-! ## The way to the last token -/

namespace Token

/-- The last token of a chain. -/
def lastOf (token : Token) : List Token → Token
  | [] => token
  | next :: following => next.lastOf following

/-- One step of a chain: to the value under a token, and from there to where the
next token starts. -/
def descend (token : Token) (following : List Token) (doc : Bytes) : Except LookupError Bytes :=
  (token.enter following doc).bind token.narrow

/-- The document from where the last token of a chain starts. -/
def approach (token : Token) : List Token → Bytes → Except LookupError Bytes
  | [], doc => .ok doc
  | next :: following, doc =>
    (token.descend (next :: following) doc).bind (next.approach following)

/-- What follows a token matters to its value only in being there, and in
beginning with a function or not. -/
theorem enter_congr (token : Token) {following others : List Token}
    (hterminal : isTerminal following = isTerminal others)
    (hsubject : isSubject following = isSubject others) (doc : Bytes) :
    token.enter following doc = token.enter others doc := by
  unfold enter checkShape
  rw [hterminal, hsubject]

theorem descend_congr (token : Token) {next other : Token} (following others : List Token)
    (h : next.isFunction = other.isFunction) (doc : Bytes) :
    token.descend (next :: following) doc = token.descend (other :: others) doc := by
  have henter : token.enter (next :: following) doc = token.enter (other :: others) doc :=
    @enter_congr token (next :: following) (other :: others) rfl h doc
  rw [descend, henter, descend]

/-- What a token with `key` comes to, by what a lookup of that key found. -/
def found (key : String) : Except Fault (Option Bytes) → Except LookupError Bytes
  | .error fault => .error (.ofFault key fault)
  | .ok none => .error (.keyNotFound key)
  | .ok (some value) => .ok value

theorem locate_object {key : String} (hkey : key ≠ rootKey) (rest : Bytes) :
    locate key (Byte.openBrace :: rest) =
      found key (Member.find (Bytes.ofString key) rest) := by
  have hopen : ¬(Byte.openBrace ≠ Byte.openBrace ∧ Byte.openBrace ≠ Byte.openSquare) := fun h =>
    h.1 rfl
  rw [locate, afterGap_cons rfl]
  dsimp only
  rw [if_neg hopen, if_neg hkey, if_neg (not_not_intro rfl)]
  rcases Member.find (Bytes.ofString key) rest with fault | _ | value <;> rfl

theorem enter_eq_bind (token : Token) (following : List Token) (doc : Bytes) :
    token.enter following doc =
      (locate token.key doc).bind fun value =>
        (token.checkShape following value).map fun _ => value := by
  unfold enter
  cases locate token.key doc with
  | error error => rfl
  | ok value =>
    dsimp only [Except.bind]
    cases token.checkShape following value <;> rfl

theorem enter_eq_ok_iff {token : Token} {following : List Token} {doc value : Bytes} :
    token.enter following doc = .ok value ↔
      locate token.key doc = .ok value ∧ token.checkShape following value = .ok () := by
  unfold enter
  cases locate token.key doc with
  | error error => exact ⟨nofun, fun ⟨h, _⟩ => nomatch h⟩
  | ok found =>
    dsimp only
    cases hshape : token.checkShape following found with
    | error error =>
      refine ⟨nofun, fun ⟨h, hfits⟩ => ?_⟩
      cases h
      cases hshape.symm.trans hfits
    | ok =>
      refine ⟨fun h => ?_, fun ⟨h, _⟩ => h⟩
      cases h
      exact ⟨rfl, hshape⟩

theorem checkShape_eq_ok_iff {token : Token} {following : List Token} {value : Bytes} :
    token.checkShape following value = .ok () ↔
      if token.isArray then value.head? = some Byte.openSquare
      else (isTerminal following || isSubject following) = true ∨
        value.head? = some Byte.openBrace := by
  unfold checkShape
  dsimp only
  have hbrace : some Byte.openBrace ≠ some Byte.openSquare := by decide
  grind

theorem follow_nil (token : Token) (doc : Bytes) :
    token.follow [] doc = (token.enter [] doc).bind token.result := by
  rw [follow]
  cases token.enter [] doc <;> rfl

/-- What the tokens behind a token with `key` give from where its step leads. -/
def resume (key : String) (next : Token) (following : List Token) (start : Bytes) :
    Except LookupError Slice :=
  match next.selector with
  | .function function =>
    match function.call start with
    | .error failure => .error (.ofFailure key function failure)
    | .ok number => .ok (.assembled number)
  | _ => next.follow following start

theorem follow_eq_resume (token next : Token) (following : List Token) (doc : Bytes) :
    token.follow (next :: following) doc =
      (token.descend (next :: following) doc).bind (resume token.key next following) := by
  rw [follow, descend]
  cases token.enter (next :: following) doc with
  | error error => rfl
  | ok value =>
    dsimp only [Except.bind]
    cases token.narrow value <;> rfl

/-- A function ends the way. -/
theorem resume_function (key : String) {next : Token} {function : Function}
    (h : next.selector = .function function) (following : List Token) (start : Bytes) :
    resume key next following start =
      ((function.call start).mapError (LookupError.ofFailure key function)).map .assembled := by
  unfold resume
  rw [h]
  dsimp only
  cases function.call start <;> rfl

theorem resume_of_not_function (key : String) {next : Token} (h : next.isFunction = false)
    (following : List Token) (start : Bytes) :
    resume key next following start = next.follow following start := by
  unfold resume
  split
  · next hfunction =>
    rw [isFunction, hfunction] at h
    cases h
  · rfl

/-- A path goes on from where a step leads, unless a function ends the way. -/
theorem follow_cons (token : Token) {next : Token} (following : List Token) (doc : Bytes)
    (h : next.isFunction = false) :
    token.follow (next :: following) doc =
      (token.descend (next :: following) doc).bind (next.follow following) := by
  rw [follow_eq_resume]
  exact congrArg _ (funext fun start => resume_of_not_function token.key h following start)

/-- More tokens behind a chain take over where its last token starts. -/
theorem follow_append (token : Token) (following more : List Token) (doc : Bytes)
    (h : ∀ t ∈ following, t.isFunction = false) :
    token.follow (following ++ more) doc =
      (token.approach following doc).bind ((token.lastOf following).follow more) := by
  induction following generalizing token doc with
  | nil => rfl
  | cons next following ih =>
    rw [List.cons_append, follow_cons _ _ _ (h next List.mem_cons_self), approach,
      token.descend_congr (following ++ more) following rfl]
    cases token.descend (next :: following) doc with
    | error error => rfl
    | ok start => exact ih next start fun t ht => h t (List.mem_cons_of_mem _ ht)

/-! ## Selections lie in the array -/

theorem elementsOf_eq_ok {key : String} {array : Bytes} {items : List Element}
    (h : elementsOf key array = .ok items) : Element.Lists array.tail items := by
  unfold elementsOf at h
  split at h
  · cases h
  next hlist =>
  cases h
  exact Element.list_eq_ok_iff.mp hlist

theorem elementOf_eq_ok {key : String} {position : Int64} {array text : Bytes}
    (h : elementOf key position array = .ok text) : IsValue text ∧ text <:+: array := by
  unfold elementOf at h
  split at h
  · cases h
  next items hitems =>
  split at h
  · cases h
  next element hat =>
  cases h
  obtain ⟨hvalue, hpart⟩ := (elementsOf_eq_ok hitems).mem (Element.mem_of_at? hat)
  exact ⟨hvalue, hpart.trans (List.tail_suffix array).isInfix⟩

theorem narrow_part {token : Token} {value inner : Bytes} (h : token.narrow value = .ok inner) :
    inner <:+: value := by
  unfold narrow at h
  split at h
  · exact (elementOf_eq_ok h).2
  · cases h
    exact List.infix_refl _

theorem approach_part {token : Token} {following : List Token} {doc start : Bytes}
    (h : token.approach following doc = .ok start) : start <:+: doc := by
  induction following generalizing token doc with
  | nil =>
    cases h
    exact List.infix_refl _
  | cons next following ih =>
    obtain ⟨next, hdescend, h⟩ := bind_eq_ok_iff.mp h
    obtain ⟨value, henter, hnarrow⟩ := bind_eq_ok_iff.mp hdescend
    exact (ih h).trans ((narrow_part hnarrow).trans (enter_value henter).1.isInfix)

end Token

namespace Path

/-- The last token of a path. -/
def last (path : Path) : Token := path.head.lastOf path.tail

/-- The document from where the last token of a path starts. -/
def approach (path : Path) (doc : Bytes) : Except LookupError Bytes :=
  path.head.approach path.tail doc

/-- The path with more tokens behind it. -/
def append (path : Path) (more : List Token) : Path := ⟨path.head, path.tail ++ more⟩

/-- The path with another selector for its last token. -/
def select (path : Path) (selector : Selector) : Path := go path.head path.tail
where
  go (token : Token) : List Token → Path
    | [] => ⟨{ token with selector }, []⟩
    | next :: following => ⟨token, (go next following).tokens⟩

/-- The path that starts at the container itself and goes on with `tokens`. -/
def fromRoot (tokens : List Token) : Path := ⟨⟨Token.rootKey, .member⟩, tokens⟩

/-- No function stands before the last token. -/
def Plain (path : Path) : Prop := ∀ token ∈ path.tail, token.isFunction = false

theorem append_get {path : Path} (h : path.Plain) (more : List Token) (doc : Bytes) :
    (path.append more).get doc = (path.approach doc).bind (path.last.follow more) :=
  Token.follow_append path.head path.tail more doc h

theorem get_eq {path : Path} (h : path.Plain) (doc : Bytes) :
    path.get doc = (path.approach doc).bind (path.last.follow []) := by
  have := append_get h [] doc
  rwa [append, List.append_nil] at this

theorem select_go_head {selector : Selector} (hselector : ∀ f, selector ≠ .function f)
    {token : Token} (following : List Token) (h : token.isFunction = false) :
    (select.go selector token following).head.isFunction = false := by
  cases following with
  | nil =>
    unfold Token.isFunction select.go
    cases selector with
    | function f => exact absurd rfl (hselector f)
    | _ => rfl
  | cons => exact h

theorem select_go_get (selector : Selector) (hselector : ∀ f, selector ≠ .function f)
    (token : Token) (following : List Token) (doc : Bytes)
    (h : ∀ t ∈ following, t.isFunction = false) :
    (select.go selector token following).get doc =
      (token.approach following doc).bind
        (Token.follow { token.lastOf following with selector } []) := by
  induction following generalizing token doc with
  | nil => rfl
  | cons next following ih =>
    have ih := fun value => ih next value fun t ht => h t (List.mem_cons_of_mem _ ht)
    have hnext := select_go_head hselector following (h next List.mem_cons_self)
    have hcongr : token.descend (select.go selector next following).tokens doc =
        token.descend (next :: following) doc :=
      token.descend_congr _ _ (hnext.trans (h next List.mem_cons_self).symm) doc
    have hstep : (select.go selector token (next :: following)).get doc =
        (token.descend (select.go selector next following).tokens doc).bind
          (select.go selector next following).get := token.follow_cons _ doc hnext
    rw [hstep, hcongr, Token.approach]
    cases token.descend (next :: following) doc with
    | error error => rfl
    | ok start => exact ih start

theorem select_get {path : Path} (h : path.Plain) {selector : Selector}
    (hselector : ∀ f, selector ≠ .function f) (doc : Bytes) :
    (path.select selector).get doc =
      (path.approach doc).bind (Token.follow { path.last with selector } []) :=
  select_go_get selector hselector path.head path.tail doc h

/-! ## Well-formed paths -/

/-- Every path that is read is well formed. -/
theorem wellFormed_of_parse {limit : UInt64} {text : String} {path : Path}
    (h : Path.parse limit text = .ok path) : path.WellFormed := by
  obtain ⟨hchain, -, hroot⟩ := Path.parse_eq_ok_iff.mp h
  exact wellFormed_of_isChain hchain hroot

theorem tokens_eq_dropLast (path : Path) : path.tokens = path.tokens.dropLast ++ [path.last] := by
  obtain ⟨head, tail⟩ := path
  show head :: tail = (head :: tail).dropLast ++ [head.lastOf tail]
  induction tail generalizing head with
  | nil => rfl
  | cons next tail ih => exact congrArg (head :: ·) (ih next)

/-- In front of its last token a well-formed path has members and positions only. -/
theorem WellFormed.plain {path : Path} (h : path.WellFormed)
    (hlast : path.last.isFunction = false) : path.Plain := by
  intro token hmem
  have hmem : token ∈ path.tokens := List.mem_cons_of_mem _ hmem
  rw [tokens_eq_dropLast, List.mem_append, List.mem_singleton] at hmem
  rcases hmem with hmem | rfl
  · have hends := h.ends token hmem
    rw [Token.endsPath, Bool.or_eq_false_iff] at hends
    exact hends.2
  · exact hlast

end Path

end RawJson
