/-
The canonical text of a path. What the reader gives is well formed, the
canonical text of a well-formed path is read as that path, and so the text
that a path is shown as stands for it.

Both halves go through the grammar. Every text of a chain has well-formed
tokens, by induction on the chain; and the canonical text of well-formed tokens
is a text of their chain, by induction on the tokens. How the reader goes about
its work does not come up.
-/
import RawJson.Proofs.Grammar

namespace RawJson

/-! ## Well-formed paths -/

/-- A token that some segment spells: its key is one, and the key of a call is
the name of the function. -/
structure Token.Valid (token : Token) : Prop where
  key : IsKey token.key.toList
  name : ∀ function, token.selector = .function function → token.key = function.name

/-- A path that some text spells. The bounds of its selectors are arbitrary. -/
structure Path.WellFormed (path : Path) : Prop where
  rooted : path.Rooted
  head : path.head.isFunction = false
  valid : ∀ token ∈ path.tokens, token.Valid
  /-- A range or a call is the last token. -/
  ends : ∀ token ∈ path.tokens.dropLast, token.endsPath = false

theorem IsSegment.valid {text : List Char} {token : Token} (h : IsSegment text token) :
    token.Valid := by
  refine ⟨h.key.1, ?_⟩
  intro function hselector
  cases h with
  | member => exact nomatch hselector
  | select _ hinner =>
    cases hinner with
    | index => exact nomatch hselector
    | range => exact nomatch hselector
  | call =>
    cases hselector
    rfl

theorem IsChain.valid {text : List Char} {tokens : List Token} (h : IsChain text tokens) :
    ∀ token ∈ tokens, token.Valid := by
  induction h with
  | last hsegment =>
    intro token hmem
    obtain rfl := List.mem_singleton.mp hmem
    exact hsegment.valid
  | dot hsegment _ _ ih =>
    intro token hmem
    rcases List.mem_cons.mp hmem with rfl | hmem
    · exact hsegment.valid
    · exact ih token hmem

theorem IsChain.ends {text : List Char} {tokens : List Token} (h : IsChain text tokens) :
    ∀ token ∈ tokens.dropLast, token.endsPath = false := by
  induction h with
  | last => exact nofun
  | dot _ hends hchain ih =>
    intro token hmem
    rw [List.dropLast_cons_of_ne_nil hchain.ne_nil] at hmem
    rcases List.mem_cons.mp hmem with rfl | hmem
    · exact hends
    · exact ih token hmem

/-- No function is named as the first key of a path begins. -/
theorem Token.Valid.not_function_of_head {token : Token} (h : token.Valid)
    (hroot : token.key.toList.head? = some '$') : token.isFunction = false := by
  cases hselector : token.selector with
  | function function =>
    rw [h.name function hselector] at hroot
    cases function with
    | length => exact absurd hroot (by decide)
    | size => exact absurd hroot (by decide)
  | member => rw [Token.isFunction, hselector]
  | index => rw [Token.isFunction, hselector]
  | range => rw [Token.isFunction, hselector]

theorem Path.wellFormed_of_isChain {text : List Char} {path : Path}
    (h : IsChain text path.tokens) (hroot : path.Rooted) : path.WellFormed where
  rooted := hroot
  head := (h.valid path.head List.mem_cons_self).not_function_of_head hroot
  valid := h.valid
  ends := h.ends

/-! ## The canonical text is in the grammar -/

theorem isDigit_of_mem_repr {n : Nat} {c : Char} (h : c ∈ n.repr.toList) : c.isDigit = true := by
  rw [Nat.toList_repr] at h
  exact Nat.isDigit_of_mem_toDigits (by decide) (by decide) h

theorem repr_ne_nil (n : Nat) : n.repr.toList ≠ [] := by
  rw [Nat.toList_repr]
  exact Nat.toDigits_ne_nil

theorem isInteger_ofInt (n : Int64) : IsInteger (Decimal.ofInt n.toInt).toList n := by
  cases hn : n.toInt with
  | ofNat k =>
    refine .plain (repr_ne_nil k) (fun c => isDigit_of_mem_repr) (hn.trans ?_)
    exact congrArg Int.ofNat (Decimal.toNat_repr k).symm
  | negSucc k =>
    rw [Decimal.ofInt, String.toList_append]
    refine .negative (repr_ne_nil (k + 1)) (fun c => isDigit_of_mem_repr) (hn.trans ?_)
    exact congrArg (fun m : Nat => -(m : Int)) (Decimal.toNat_repr (k + 1)).symm

theorem Token.Valid.isSegment {token : Token} (h : token.Valid) :
    IsSegment token.text.toList token := by
  obtain ⟨key, selector⟩ := token
  have hkey : IsKey key.toList := h.key
  rw [Token.text]
  cases selector with
  | member =>
    have := IsSegment.member hkey
    rwa [String.ofList_toList] at this
  | index position =>
    have := IsSegment.select hkey (.index (.written (isInteger_ofInt position)))
    rw [String.ofList_toList] at this
    simpa using this
  | range left right =>
    dsimp only
    split
    · next hright =>
      subst hright
      have := IsSegment.select hkey (.range (.written (isInteger_ofInt left)) .absent nofun)
      rw [String.ofList_toList] at this
      simpa using this
    · next hright =>
      have := IsSegment.select hkey (.range (.written (isInteger_ofInt left))
        (.written (isInteger_ofInt right)) fun hzero => hright (Option.some.inj hzero))
      rw [String.ofList_toList] at this
      simpa using this
  | function function =>
    obtain rfl : key = function.name := h.name function rfl
    rw [String.toList_append]
    exact .call function

theorem Path.text_cons (token next : Token) (following : List Token) :
    Path.text ⟨token, next :: following⟩ = token.text ++ "." ++ Path.text ⟨next, following⟩ := by
  simp [Path.text, String.append_assoc]

theorem isChain_text (token : Token) (following : List Token)
    (hvalid : ∀ t ∈ token :: following, t.Valid)
    (hends : ∀ t ∈ (token :: following).dropLast, t.endsPath = false) :
    IsChain (Path.text ⟨token, following⟩).toList (token :: following) := by
  induction following generalizing token with
  | nil =>
    have : Path.text ⟨token, []⟩ = token.text := String.append_empty
    rw [this]
    exact .last (hvalid token List.mem_cons_self).isSegment
  | cons next following ih =>
    have hsegment := (hvalid token List.mem_cons_self).isSegment
    have hchain := ih next (fun t ht => hvalid t (List.mem_cons_of_mem _ ht))
      (fun t ht => hends t (List.mem_cons_of_mem _ ht))
    rw [Path.text_cons, String.toList_append, String.toList_append, List.append_assoc]
    exact .dot hsegment (hends token List.mem_cons_self) hchain

theorem Path.WellFormed.isChain {path : Path} (h : path.WellFormed) :
    IsChain path.text.toList path.tokens :=
  isChain_text path.head path.tail h.valid h.ends

/-- The canonical text of a well-formed path is read as that path. -/
theorem Path.WellFormed.parse_text {limit : UInt64} {path : Path} (h : path.WellFormed)
    (hlength : path.length ≤ limit.toNat) : Path.parse limit path.text = .ok path :=
  Path.parse_eq_ok_iff.mpr ⟨h.isChain, hlength, h.rooted⟩

/-! ## Where a path ends and what a function measures -/

theorem Path.steps_go_getElem? (first : Token) (rest : List Token) (i : Nat) (token : Token)
    (following : List Token) :
    (Path.steps.go first rest)[i]? = some (token, following) ↔
      (first :: rest).drop i = token :: following := by
  induction rest generalizing first i with
  | nil =>
    cases i with
    | zero => simp [steps.go]
    | succ i => simp [steps.go]
  | cons next rest ih =>
    cases i with
    | zero => simp [steps.go]
    | succ i => exact ih next i

theorem Path.steps_tokens (path : Path) : path.steps.map Prod.fst = path.tokens := by
  obtain ⟨first, rest⟩ := path
  show (steps.go first rest).map Prod.fst = first :: rest
  induction rest generalizing first with
  | nil => rfl
  | cons next rest ih => exact congrArg (first :: ·) (ih next)

/-- The last token is the terminal one, and the one before a function its subject. -/
theorem Path.steps_getElem? {path : Path} {i : Nat} {token : Token} {following : List Token}
    (h : path.steps[i]? = some (token, following)) :
    (Token.isTerminal following = true ↔ i + 1 = path.length) ∧
    (Token.isSubject following = true ↔
      ∃ next, path.tokens[i + 1]? = some next ∧ next.isFunction = true) := by
  have hdrop : path.tokens.drop i = token :: following := (steps_go_getElem? ..).mp h
  have hrest : path.tokens.drop (i + 1) = following := by
    rw [← List.drop_drop, hdrop]
    rfl
  constructor
  · have hlength : path.length - i = following.length + 1 := by
      rw [length, ← List.length_drop, hdrop]
      rfl
    rw [Token.isTerminal, List.isEmpty_iff_length_eq_zero]
    omega
  · rw [Token.isSubject, ← hrest, List.head?_drop, Option.any_eq_true]

/-! ## Reading and showing -/

/-- **Reading a path and showing it are inverse to each other**, whatever the
limit. What is read is a well-formed path within the limit, in which the last
token alone is terminal and the token before a function alone is its subject;
a well-formed path within the limit is read from its canonical text; so an
accepted text and the canonical text of its path are read alike, and two
accepted texts give the same path exactly if their canonical texts agree. -/
theorem Path.text_canonical (limit : UInt64) :
    (∀ (text : String) (path : Path), Path.parse limit text = .ok path →
      path.WellFormed ∧ path.length ≤ limit.toNat ∧
      path.steps.map Prod.fst = path.tokens ∧
      ∀ (i : Nat) (token : Token) (following : List Token),
        path.steps[i]? = some (token, following) →
        (Token.isTerminal following = true ↔ i + 1 = path.length) ∧
        (Token.isSubject following = true ↔
          ∃ next, path.tokens[i + 1]? = some next ∧ next.isFunction = true)) ∧
    (∀ path : Path, path.WellFormed → path.length ≤ limit.toNat →
      Path.parse limit path.text = .ok path) ∧
    (∀ (text : String) (path : Path), Path.parse limit text = .ok path →
      Path.parse limit path.text = .ok path) ∧
    (∀ (text₁ text₂ : String) (path₁ path₂ : Path), Path.parse limit text₁ = .ok path₁ →
      Path.parse limit text₂ = .ok path₂ → (path₁ = path₂ ↔ path₁.text = path₂.text)) := by
  have hread : ∀ {text : String} {path : Path}, Path.parse limit text = .ok path →
      path.WellFormed ∧ path.length ≤ limit.toNat := by
    intro text path hparse
    obtain ⟨hchain, hlength, hroot⟩ := Path.parse_eq_ok_iff.mp hparse
    exact ⟨Path.wellFormed_of_isChain hchain hroot, hlength⟩
  have hagain : ∀ {text : String} {path : Path}, Path.parse limit text = .ok path →
      Path.parse limit path.text = .ok path := by
    intro text path hparse
    obtain ⟨hwell, hlength⟩ := hread hparse
    exact hwell.parse_text hlength
  refine ⟨?_, fun path hwell => hwell.parse_text, fun text path => hagain, ?_⟩
  · intro text path hparse
    obtain ⟨hwell, hlength⟩ := hread hparse
    exact ⟨hwell, hlength, path.steps_tokens, fun i token following => Path.steps_getElem?⟩
  · intro text₁ text₂ path₁ path₂ hparse₁ hparse₂
    constructor
    · exact fun h => congrArg Path.text h
    · intro htext
      have h₁ := hagain hparse₁
      rw [htext, hagain hparse₂] at h₁
      exact (Except.ok.inj h₁).symm

/-- A range is shown with the lower bound that its text leaves out, and an
upper bound without leading zeros. -/
theorem Path.text_canonical_range :
    Path.parse 2 "$.a][:-07]" = .ok ⟨⟨"$", .member⟩, [⟨"a]", .range 0 (-7)⟩]⟩ ∧
    Path.WellFormed ⟨⟨"$", .member⟩, [⟨"a]", .range 0 (-7)⟩]⟩ ∧
    Path.text ⟨⟨"$", .member⟩, [⟨"a]", .range 0 (-7)⟩]⟩ = "$.a][0:-7]" ∧
    Path.parse 2 "$.a][0:-7]" = .ok ⟨⟨"$", .member⟩, [⟨"a]", .range 0 (-7)⟩]⟩ := by
  obtain ⟨hread, hshown, -, -⟩ := Path.text_canonical 2
  have hwell : Path.WellFormed ⟨⟨"$", .member⟩, [⟨"a]", .range 0 (-7)⟩]⟩ :=
    (hread "$.a][:-07]" _ rfl).1
  exact ⟨rfl, hwell, rfl, hshown _ hwell (by decide)⟩

end RawJson
