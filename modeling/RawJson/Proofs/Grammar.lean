/-
The grammar of paths, and that the reader of paths reads it. The grammar is
written down as it is explained to a user, one relation for each kind of text,
and says nothing of cursors, of the order in which anything is tried or of a
limit. Each part of the reader is shown to succeed exactly on the texts of its
relation, with the token that the relation pairs them with.

A part of the reader stops where its text is over, and whether it is over
depends on what follows: `-1` is read from `-1]` and not from `-12]`. So the
statement for a bound says what may follow it. A closing bracket settles that,
and from there on the statements are free of it.

That a text has one reading only is then a consequence of the reader being a
function.
-/
import Mathlib.Data.Bool.AllAny
import RawJson.Path.Parser

namespace RawJson

/-! ## The grammar -/

/-- A key: some characters, none of them a dot, a `[` or a `(`. -/
def IsKey (text : List Char) : Prop :=
  text ≠ [] ∧ ∀ c ∈ text, c ≠ '.' ∧ c ≠ '[' ∧ c ≠ '('

instance (text : List Char) : Decidable (IsKey text) :=
  decidable_of_iff (text ≠ [] ∧ (text.all fun c => c ≠ '.' ∧ c ≠ '[' ∧ c ≠ '(') = true)
    (and_congr_right' List.all_iff_forall_prop)

/-- An integer: at least one digit, a minus sign in front or not. It denotes
the number that the digits denote in decimal, and that number is one of 64 bits. -/
inductive IsInteger : List Char → Int64 → Prop
  | plain {digits : List Char} {n : Int64} : digits ≠ [] → (∀ c ∈ digits, c.isDigit = true) →
      n.toInt = Decimal.toNat digits → IsInteger digits n
  | negative {digits : List Char} {n : Int64} : digits ≠ [] → (∀ c ∈ digits, c.isDigit = true) →
      n.toInt = -(Decimal.toNat digits : Int) → IsInteger ('-' :: digits) n

/-- A bound: an integer, or nothing. -/
inductive IsBound : List Char → Option Int64 → Prop
  | absent : IsBound [] none
  | written {text : List Char} {n : Int64} : IsInteger text n → IsBound text (some n)

/-- What stands between brackets: a position, or the two bounds of a range. An
upper bound that is written is not zero, so zero stands for one that is not. -/
inductive IsSelection : List Char → Selector → Prop
  | index {text : List Char} {n? : Option Int64} : IsBound text n? →
      IsSelection text (.index (n?.getD 0))
  | range {lower upper : List Char} {left? right? : Option Int64} : IsBound lower left? →
      IsBound upper right? → right? ≠ some 0 →
      IsSelection (lower ++ ':' :: upper) (.range (left?.getD 0) (right?.getD 0))

/-- A segment: a key, a key and brackets, or a function call. -/
inductive IsSegment : List Char → Token → Prop
  | member {key : List Char} : IsKey key → IsSegment key ⟨String.ofList key, .member⟩
  | select {key inner : List Char} {selector : Selector} : IsKey key →
      IsSelection inner selector →
      IsSegment (key ++ '[' :: (inner ++ [']'])) ⟨String.ofList key, selector⟩
  | call (function : Function) :
      IsSegment (function.name.toList ++ ['(', ')']) ⟨function.name, .function function⟩

/-- The token can only be the last of a path. -/
def Token.endsPath (token : Token) : Bool := token.isRange || token.isFunction

/-- The segments of a path with a dot between neighbours. -/
inductive IsChain : List Char → List Token → Prop
  | last {text : List Char} {token : Token} : IsSegment text token → IsChain text [token]
  | dot {text rest : List Char} {token : Token} {following : List Token} :
      IsSegment text token → token.endsPath = false → IsChain rest following →
      IsChain (text ++ '.' :: rest) (token :: following)

/-- The first key of a path begins with `$`. -/
def Path.Rooted (path : Path) : Prop := path.head.key.toList.head? = some '$'

theorem IsChain.ne_nil {text : List Char} {tokens : List Token} (h : IsChain text tokens) :
    tokens ≠ [] := by
  cases h with
  | last => exact List.cons_ne_nil _ _
  | dot => exact List.cons_ne_nil _ _

namespace Cursor

/-! ## Text between two cursors -/

/-- The text that leads from one cursor to another. -/
structure Reads (start : Cursor) (text : List Char) (next : Cursor) : Prop where
  rest : start.rest = text ++ next.rest
  pos : next.pos = start.pos + Bytes.utf8Length text

theorem Reads.nil_iff {start next : Cursor} : Reads start [] next ↔ next = start := by
  constructor
  · rintro ⟨hrest, hpos⟩
    cases start
    cases next
    simp_all
  · rintro rfl
    exact ⟨rfl, rfl⟩

theorem Reads.refl (start : Cursor) : Reads start [] start := nil_iff.mpr rfl

theorem reads_append_iff {start next : Cursor} {a b : List Char} :
    Reads start (a ++ b) next ↔ ∃ mid, Reads start a mid ∧ Reads mid b next := by
  constructor
  · rintro ⟨hrest, hpos⟩
    refine ⟨⟨start.pos + Bytes.utf8Length a, b ++ next.rest⟩, ⟨?_, rfl⟩, ⟨rfl, ?_⟩⟩
    · rw [hrest, List.append_assoc]
    · rw [hpos, Bytes.utf8Length_append, Nat.add_assoc]
  · rintro ⟨mid, h₁, h₂⟩
    refine ⟨?_, ?_⟩
    · rw [h₁.rest, h₂.rest, List.append_assoc]
    · rw [h₂.pos, h₁.pos, Bytes.utf8Length_append, Nat.add_assoc]

theorem reads_cons_iff {start next : Cursor} {c : Char} {text : List Char} :
    Reads start (c :: text) next ↔ ∃ mid, Reads start [c] mid ∧ Reads mid text next := by
  rw [← reads_append_iff, List.singleton_append]

theorem Reads.append {start mid next : Cursor} {a b : List Char} (h₁ : Reads start a mid)
    (h₂ : Reads mid b next) : Reads start (a ++ b) next :=
  reads_append_iff.mpr ⟨mid, h₁, h₂⟩

theorem eat?_eq_some_iff {c : Char} {start next : Cursor} :
    start.eat? c = some next ↔ Reads start [c] next := by
  obtain ⟨pos, rest⟩ := start
  cases rest with
  | nil => exact ⟨(fun h => nomatch h), (fun h => nomatch h.rest)⟩
  | cons d rest =>
    unfold eat?
    dsimp only
    constructor
    · intro h
      split at h
      · next hd =>
        cases h
        exact ⟨by rw [hd]; rfl, rfl⟩
      · exact nomatch h
    · intro h
      obtain ⟨hrest, hpos⟩ := h
      cases next
      simp_all

theorem eat?_eq_none_iff {c : Char} {start : Cursor} :
    start.eat? c = none ↔ start.rest.head? ≠ some c := by
  obtain ⟨pos, rest⟩ := start
  cases rest with
  | nil => exact ⟨(fun _ h => nomatch h), (fun _ => rfl)⟩
  | cons d rest => simp [eat?]

theorem span_eq_iff {p : Char → Bool} {start next : Cursor} {taken : List Char} :
    start.span p = (taken, next) ↔
      (∀ c ∈ taken, p c = true) ∧ (∀ c ∈ next.rest.head?, p c = false) ∧
        Reads start taken next := by
  constructor
  · intro h
    cases h
    refine ⟨fun c hc => ?_, fun c hc => ?_, ⟨?_, rfl⟩⟩
    · exact List.all_eq_true.mp List.all_takeWhile c hc
    · have := List.head?_dropWhile_not p start.rest
      rw [hc] at this
      simpa using this
    · exact List.takeWhile_append_dropWhile.symm
  · rintro ⟨hall, hstop, hrest, hpos⟩
    obtain ⟨pos, rest⟩ := next
    have hhead : rest.takeWhile p = [] ∧ rest.dropWhile p = rest := by
      cases rest with
      | nil => exact ⟨rfl, rfl⟩
      | cons c rest => simp_all
    dsimp only [span] at hpos ⊢
    rw [hrest, List.takeWhile_append_of_pos hall, List.dropWhile_append_of_pos hall, hhead.1,
      hhead.2, List.append_nil, ← hpos]

/-! ## Bounds -/

/-- A bound read up to `rest` is over there: no digit follows, and no minus
sign either if nothing was read. -/
def EndsBound (n? : Option Int64) (rest : List Char) : Prop :=
  ∀ c ∈ rest.head?, c.isDigit = false ∧ (n? = none → c ≠ '-')

theorem bound_of_minus {key : String} {start mid next : Cursor} {digits : List Char}
    (hminus : Reads start ['-'] mid) (hspan : mid.span Char.isDigit = (digits, next)) :
    bound key start =
      match Decimal.toInt64? true digits with
      | none => .error (.malformedIndex key start.pos)
      | some n => .ok (some n, next) := by
  unfold bound
  rw [eat?_eq_some_iff.mpr hminus, Option.getD_some, hspan]
  rfl

theorem bound_of_digits {key : String} {start next : Cursor} {digits : List Char}
    (hminus : start.rest.head? ≠ some '-') (hspan : start.span Char.isDigit = (digits, next)) :
    bound key start =
      if digits = [] then .ok (none, start)
      else
        match Decimal.toInt64? false digits with
        | none => .error (.malformedIndex key start.pos)
        | some n => .ok (some n, next) := by
  unfold bound
  rw [eat?_eq_none_iff.mpr hminus, Option.getD_none, hspan]
  cases digits with
  | nil => rfl
  | cons c digits => rfl

theorem bound_sound {key : String} {start next : Cursor} {n? : Option Int64}
    (h : bound key start = .ok (n?, next)) :
    ∃ text, IsBound text n? ∧ Reads start text next ∧ EndsBound n? next.rest := by
  cases hminus : start.eat? '-' with
  | some mid =>
    rw [eat?_eq_some_iff] at hminus
    rcases hspan : mid.span Char.isDigit with ⟨digits, after⟩
    rw [bound_of_minus hminus hspan] at h
    obtain ⟨hall, hstop, hreads⟩ := span_eq_iff.mp hspan
    split at h
    · exact nomatch h
    · next n hn =>
      cases h
      obtain ⟨hd, hvalue⟩ := Decimal.toInt64?_eq_some_iff.mp hn
      refine ⟨'-' :: digits, .written (.negative hd hall hvalue), hminus.append hreads, ?_⟩
      exact fun c hc => ⟨hstop c hc, fun hnone => nomatch hnone⟩
  | none =>
    rw [eat?_eq_none_iff] at hminus
    rcases hspan : start.span Char.isDigit with ⟨digits, after⟩
    rw [bound_of_digits hminus hspan] at h
    obtain ⟨hall, hstop, hreads⟩ := span_eq_iff.mp hspan
    split at h
    · next hd =>
      cases h
      subst hd
      obtain rfl := Reads.nil_iff.mp hreads
      refine ⟨[], .absent, .refl _, fun c hc => ⟨hstop c hc, fun _ hm => ?_⟩⟩
      exact hminus (hm ▸ hc)
    split at h
    · exact nomatch h
    · next n hn =>
      cases h
      obtain ⟨hd, hvalue⟩ := Decimal.toInt64?_eq_some_iff.mp hn
      refine ⟨digits, .written (.plain hd hall hvalue), hreads, ?_⟩
      exact fun c hc => ⟨hstop c hc, fun hnone => nomatch hnone⟩

theorem bound_complete {key : String} {start next : Cursor} {text : List Char}
    {n? : Option Int64} (h : IsBound text n?) (hreads : Reads start text next)
    (hends : EndsBound n? next.rest) : bound key start = .ok (n?, next) := by
  have hstop : ∀ c ∈ next.rest.head?, c.isDigit = false := fun c hc => (hends c hc).1
  cases h with
  | absent =>
    obtain rfl := Reads.nil_iff.mp hreads
    have hminus : next.rest.head? ≠ some '-' := fun hc => (hends '-' hc).2 rfl rfl
    have hspan : next.span Char.isDigit = ([], next) :=
      span_eq_iff.mpr ⟨nofun, hstop, .refl next⟩
    rw [bound_of_digits hminus hspan, if_pos rfl]
  | written hn =>
    cases hn with
    | negative hd hall hvalue =>
      obtain ⟨mid, hminus, hdigits⟩ := reads_cons_iff.mp hreads
      have hspan := span_eq_iff.mpr ⟨hall, hstop, hdigits⟩
      rw [bound_of_minus hminus hspan, Decimal.toInt64?_eq_some_iff.mpr ⟨hd, hvalue⟩]
    | plain hd hall hvalue =>
      have hspan := span_eq_iff.mpr ⟨hall, hstop, hreads⟩
      have hminus : start.rest.head? ≠ some '-' := by
        rw [hreads.rest]
        cases text with
        | nil => exact absurd rfl hd
        | cons c digits =>
          intro hc
          cases hc
          exact nomatch hall '-' List.mem_cons_self
      rw [bound_of_digits hminus hspan, if_neg hd,
        Decimal.toInt64?_eq_some_iff.mpr ⟨hd, hvalue⟩]

/-- A bound is read exactly where it is over. -/
theorem bound_eq_ok_iff {key : String} {start next : Cursor} {n? : Option Int64} :
    bound key start = .ok (n?, next) ↔
      ∃ text, IsBound text n? ∧ Reads start text next ∧ EndsBound n? next.rest :=
  ⟨bound_sound, fun ⟨_, h, hreads, hends⟩ => bound_complete h hreads hends⟩

theorem upperBound_eq_ok_iff {key : String} {start next : Cursor} {right : Int64} :
    upperBound key start = .ok (right, next) ↔
      ∃ right?, bound key start = .ok (right?, next) ∧ right? ≠ some 0 ∧
        right = right?.getD 0 := by
  unfold upperBound
  constructor
  · intro h
    split at h
    · exact nomatch h
    · next hb =>
      cases h
      exact ⟨none, hb, nofun, rfl⟩
    · next n cursor hb =>
      split at h
      · exact nomatch h
      · next hn =>
        cases h
        exact ⟨some right, hb, fun hz => hn (Option.some.inj hz), rfl⟩
  · rintro ⟨right?, hb, hzero, rfl⟩
    rw [hb]
    cases right? with
    | none => rfl
    | some n => exact if_neg fun hn => hzero (congrArg some hn)

/-! ## Brackets -/

theorem close_eq_ok_iff {key : String} {selector selector' : Selector} {cursor next : Cursor} :
    brackets.close key selector cursor = .ok (selector', next) ↔
      selector' = selector ∧ Reads cursor [']'] next := by
  unfold brackets.close
  constructor
  · intro h
    split at h
    · exact nomatch h
    · next hclose =>
      cases h
      exact ⟨rfl, eat?_eq_some_iff.mp hclose⟩
  · rintro ⟨rfl, hclose⟩
    rw [eat?_eq_some_iff.mpr hclose]

theorem Reads.endsBound {c : Char} {text : List Char} {cursor next : Cursor}
    (h : Reads cursor (c :: text) next) (hdigit : c.isDigit = false) (hminus : c ≠ '-')
    (n? : Option Int64) : EndsBound n? cursor.rest := by
  rw [h.rest]
  intro d hd
  cases hd
  exact ⟨hdigit, fun _ => hminus⟩

theorem brackets_sound {key : String} {start next : Cursor} {selector : Selector}
    (h : brackets key start = .ok (selector, next)) :
    ∃ text, IsSelection text selector ∧ Reads start (text ++ [']']) next := by
  unfold brackets at h
  split at h
  · exact nomatch h
  next left? cursor hleft =>
  obtain ⟨lower, hlower, hreads, -⟩ := bound_eq_ok_iff.mp hleft
  dsimp only at h
  split at h
  · obtain ⟨rfl, hclose⟩ := close_eq_ok_iff.mp h
    exact ⟨lower, .index hlower, hreads.append hclose⟩
  next mid hcolon =>
  split at h
  · exact nomatch h
  next right last hright =>
  obtain ⟨rfl, hclose⟩ := close_eq_ok_iff.mp h
  obtain ⟨right?, hbound, hzero, rfl⟩ := upperBound_eq_ok_iff.mp hright
  obtain ⟨upper, hupper, hreads', -⟩ := bound_eq_ok_iff.mp hbound
  refine ⟨lower ++ ':' :: upper, .range hlower hupper hzero, ?_⟩
  exact (hreads.append ((eat?_eq_some_iff.mp hcolon).append hreads')).append hclose

theorem brackets_complete {key : String} {start next : Cursor} {text : List Char}
    {selector : Selector} (h : IsSelection text selector)
    (hreads : Reads start (text ++ [']']) next) :
    brackets key start = .ok (selector, next) := by
  obtain ⟨last, hreads, hclose⟩ := reads_append_iff.mp hreads
  unfold brackets
  cases h with
  | @index _ n? hbound =>
    have hends := hclose.endsBound rfl (by decide) n?
    have hcolon : last.rest.head? ≠ some ':' := by
      rw [hclose.rest]
      exact nofun
    rw [bound_eq_ok_iff.mpr ⟨text, hbound, hreads, hends⟩]
    dsimp only
    rw [eat?_eq_none_iff.mpr hcolon]
    exact close_eq_ok_iff.mpr ⟨rfl, hclose⟩
  | @range lower upper left? right? hlower hupper hzero =>
    obtain ⟨cursor, hreads, hrest⟩ := reads_append_iff.mp hreads
    obtain ⟨mid, hcolon, hreads'⟩ := reads_cons_iff.mp hrest
    have hright : upperBound key mid = .ok (right?.getD 0, last) :=
      upperBound_eq_ok_iff.mpr ⟨right?, bound_eq_ok_iff.mpr
        ⟨upper, hupper, hreads', hclose.endsBound rfl (by decide) right?⟩, hzero, rfl⟩
    have hends := hcolon.endsBound rfl (by decide) left?
    rw [bound_eq_ok_iff.mpr ⟨lower, hlower, hreads, hends⟩]
    dsimp only
    rw [eat?_eq_some_iff.mpr hcolon]
    dsimp only
    rw [hright]
    exact close_eq_ok_iff.mpr ⟨rfl, hclose⟩

/-- A position or a range is read exactly from its text and the closing bracket. -/
theorem brackets_eq_ok_iff {key : String} {start next : Cursor} {selector : Selector} :
    brackets key start = .ok (selector, next) ↔
      ∃ text, IsSelection text selector ∧ Reads start (text ++ [']']) next :=
  ⟨brackets_sound, fun ⟨_, h, hreads⟩ => brackets_complete h hreads⟩

/-! ## Segments -/

theorem endsKey_eq_false_iff {c : Char} :
    endsKey c = false ↔ c ≠ '.' ∧ c ≠ '[' ∧ c ≠ '(' := by
  simp [endsKey, and_assoc]

/-- A key is read exactly where it is over. -/
theorem key_eq_iff {start next : Cursor} {name : List Char} :
    (start.span fun c => !endsKey c) = (name, next) ∧ name ≠ [] ↔
      IsKey name ∧ (∀ c ∈ next.rest.head?, endsKey c = true) ∧ Reads start name next := by
  simp only [span_eq_iff, IsKey, Bool.not_eq_true', Bool.not_eq_false', endsKey_eq_false_iff]
  constructor
  · rintro ⟨⟨hall, hstop, hreads⟩, hne⟩
    exact ⟨⟨hne, hall⟩, hstop, hreads⟩
  · rintro ⟨⟨hne, hall⟩, hstop, hreads⟩
    exact ⟨⟨hall, hstop, hreads⟩, hne⟩

theorem parens_eq_some_iff {cursor beyond : Cursor} :
    (cursor.eat? '(').bind (eat? ')') = some beyond ↔ Reads cursor ['(', ')'] beyond := by
  rw [Option.bind_eq_some_iff, reads_cons_iff]
  simp only [eat?_eq_some_iff]

theorem call_eq_ok_iff {name : String} {start cursor : Cursor} {token : Token} :
    call name start cursor = .ok token ↔
      cursor.rest = [] ∧ ∃ function : Function, name = function.name ∧
        token = ⟨function.name, .function function⟩ := by
  unfold call
  constructor
  · intro h
    split at h
    · exact nomatch h
    next function hf =>
    split at h
    · next hrest =>
      cases h
      obtain rfl := Function.ofName?_eq_some_iff.mp hf
      exact ⟨List.isEmpty_iff.mp hrest, function, rfl, rfl⟩
    · exact nomatch h
  · rintro ⟨hrest, function, rfl, rfl⟩
    rw [Function.ofName?_name]
    exact if_pos (List.isEmpty_iff.mpr hrest)

/-- What stands behind a segment: nothing, or a dot and then the next segment. -/
def Follows (cursor : Cursor) : Option Cursor → Prop
  | none => cursor.rest = []
  | some next => Reads cursor ['.'] next

theorem ending_eq_ok_iff {cursor : Cursor} {next? : Option Cursor} :
    ending cursor = .ok next? ↔ Follows cursor next? := by
  obtain ⟨pos, rest⟩ := cursor
  unfold ending
  cases rest with
  | nil =>
    cases next? with
    | none => exact ⟨fun _ => rfl, fun _ => rfl⟩
    | some next => exact ⟨(fun h => nomatch h), (fun h => nomatch h.rest)⟩
  | cons c rest =>
    dsimp only
    by_cases hc : c = '.'
    · subst hc
      rw [if_pos rfl, Except.ok.injEq]
      cases next? with
      | none => exact ⟨(fun h => nomatch h), (fun h => nomatch h)⟩
      | some next =>
        show eat? '.' ⟨pos, '.' :: rest⟩ = some next ↔ _
        exact eat?_eq_some_iff
    · rw [if_neg hc]
      cases next? with
      | none => exact ⟨(fun h => nomatch h), (fun h => nomatch h)⟩
      | some next => exact ⟨(fun h => nomatch h), fun h => absurd (List.cons.inj h.rest).1 hc⟩

theorem finish_eq_ok_iff {token token' : Token} {cursor : Cursor} {next? : Option Cursor} :
    segment.finish token cursor = .ok (token', next?) ↔
      token' = token ∧ Follows cursor next? := by
  rw [← ending_eq_ok_iff]
  unfold segment.finish
  constructor
  · intro h
    split at h
    · exact nomatch h
    · next hending =>
      cases h
      exact ⟨rfl, hending⟩
  · rintro ⟨rfl, hending⟩
    rw [hending]

theorem Follows.head {cursor : Cursor} {next? : Option Cursor} (h : Follows cursor next?) :
    ∀ c ∈ cursor.rest.head?, c = '.' := by
  cases next? with
  | none =>
    rw [show cursor.rest = [] from h]
    exact nofun
  | some next =>
    rw [Reads.rest h]
    intro c hc
    cases hc
    rfl

theorem segment_sound {start : Cursor} {token : Token} {next? : Option Cursor}
    (h : segment start = .ok (token, next?)) :
    ∃ text cursor, IsSegment text token ∧ Reads start text cursor ∧ Follows cursor next? ∧
      (token.endsPath = true → next? = none) := by
  rcases hspan : start.span fun c => !endsKey c with ⟨name, cursor⟩
  unfold segment at h
  rw [hspan] at h
  dsimp only at h
  split at h
  · exact nomatch h
  next hne =>
  obtain ⟨hkey, -, hname⟩ := key_eq_iff.mp ⟨hspan, mt List.isEmpty_iff.mpr hne⟩
  split at h
  · next beyond hparens =>
    split at h
    · exact nomatch h
    next token hcall =>
    cases h
    obtain ⟨hend, function, hf, rfl⟩ := call_eq_ok_iff.mp hcall
    obtain rfl : name = function.name.toList := by rw [← hf, String.toList_ofList]
    exact ⟨_, beyond, .call function, hname.append (parens_eq_some_iff.mp hparens), hend,
      fun _ => rfl⟩
  · split at h
    · obtain ⟨rfl, hfollows⟩ := finish_eq_ok_iff.mp h
      exact ⟨name, cursor, .member hkey, hname, hfollows, nofun⟩
    next mid hopen =>
    split at h
    · exact nomatch h
    next selector last hbrackets =>
    split at h
    · exact nomatch h
    next hrange =>
    obtain ⟨rfl, hfollows⟩ := finish_eq_ok_iff.mp h
    obtain ⟨inner, hinner, hreads⟩ := brackets_eq_ok_iff.mp hbrackets
    refine ⟨_, last, .select hkey hinner,
      hname.append (reads_cons_iff.mpr ⟨mid, eat?_eq_some_iff.mp hopen, hreads⟩), hfollows, ?_⟩
    intro hends
    -- Brackets hold no function, so a token that ends its path is a range here.
    have hrange' : Token.isRange ⟨String.ofList name, selector⟩ = true := by
      cases hinner with
      | index => exact nomatch hends
      | range => rfl
    rw [hrange', Bool.true_and, Bool.not_eq_true', Bool.not_eq_false, List.isEmpty_iff] at hrange
    cases next? with
    | none => rfl
    | some next => exact nomatch hrange.symm.trans (Reads.rest hfollows)

theorem isKey_name (function : Function) : IsKey function.name.toList := by
  cases function with
  | length => decide
  | size => decide

theorem segment_complete {start cursor : Cursor} {text : List Char} {token : Token}
    {next? : Option Cursor} (h : IsSegment text token) (hreads : Reads start text cursor)
    (hfollows : Follows cursor next?) (hends : token.endsPath = true → next? = none) :
    segment start = .ok (token, next?) := by
  unfold segment
  cases h with
  | member hkey =>
    have hstop : ∀ c ∈ cursor.rest.head?, endsKey c = true := by
      intro c hc
      rw [hfollows.head c hc]
      rfl
    obtain ⟨hspan, hne⟩ := key_eq_iff.mpr ⟨hkey, hstop, hreads⟩
    have hparen : cursor.eat? '(' = none :=
      eat?_eq_none_iff.mpr fun hc => nomatch hfollows.head '(' hc
    have hopen : cursor.eat? '[' = none :=
      eat?_eq_none_iff.mpr fun hc => nomatch hfollows.head '[' hc
    rw [hspan]
    dsimp only
    rw [if_neg (mt List.isEmpty_iff.mp hne), hparen, hopen]
    exact finish_eq_ok_iff.mpr ⟨rfl, hfollows⟩
  | @select key inner selector hkey hinner =>
    obtain ⟨before, hname, hrest⟩ := reads_append_iff.mp hreads
    obtain ⟨mid, hopen, hbrackets⟩ := reads_cons_iff.mp hrest
    have hstop : ∀ c ∈ before.rest.head?, endsKey c = true := by
      rw [hopen.rest]
      intro c hc
      cases hc
      rfl
    obtain ⟨hspan, hne⟩ := key_eq_iff.mpr ⟨hkey, hstop, hname⟩
    have hparen : before.eat? '(' = none := by
      rw [eat?_eq_none_iff, hopen.rest]
      exact nofun
    have hrange :
        ¬((Token.isRange ⟨String.ofList key, selector⟩ && !cursor.rest.isEmpty) = true) := by
      intro h
      rw [Bool.and_eq_true] at h
      obtain ⟨hr, hne⟩ := h
      obtain rfl := hends (by rw [Token.endsPath, hr, Bool.true_or])
      rw [show cursor.rest = [] from hfollows] at hne
      exact nomatch hne
    rw [hspan]
    dsimp only
    rw [if_neg (mt List.isEmpty_iff.mp hne), hparen, eat?_eq_some_iff.mpr hopen]
    dsimp only [Option.bind_none]
    rw [brackets_eq_ok_iff.mpr ⟨inner, hinner, hbrackets⟩]
    dsimp only
    rw [if_neg hrange]
    exact finish_eq_ok_iff.mpr ⟨rfl, hfollows⟩
  | call function =>
    obtain ⟨before, hname, hparens⟩ := reads_append_iff.mp hreads
    have hstop : ∀ c ∈ before.rest.head?, endsKey c = true := by
      rw [hparens.rest]
      intro c hc
      cases hc
      rfl
    obtain ⟨hspan, hne⟩ := key_eq_iff.mpr ⟨isKey_name function, hstop, hname⟩
    obtain rfl := hends rfl
    have hcall : call function.name start cursor = .ok ⟨function.name, .function function⟩ :=
      call_eq_ok_iff.mpr ⟨hfollows, function, rfl, rfl⟩
    rw [hspan]
    dsimp only
    rw [if_neg (mt List.isEmpty_iff.mp hne), parens_eq_some_iff.mpr hparens]
    dsimp only
    rw [String.ofList_toList, hcall]

/-- A segment is read exactly where it is over, and one that must be the last
exactly at the end of the text. -/
theorem segment_eq_ok_iff {start : Cursor} {token : Token} {next? : Option Cursor} :
    segment start = .ok (token, next?) ↔
      ∃ text cursor, IsSegment text token ∧ Reads start text cursor ∧ Follows cursor next? ∧
        (token.endsPath = true → next? = none) :=
  ⟨segment_sound, fun ⟨_, _, h, hreads, hfollows, hends⟩ =>
    segment_complete h hreads hfollows hends⟩

/-! ## Chains -/

/-- **Exactly the chains within the budget are read**, whatever limit an error
would report. -/
theorem segments_eq_ok_iff (limit : UInt64) (budget : Nat) {start : Cursor} {path : Path} :
    segments limit budget start = .ok path ↔
      IsChain start.rest path.tokens ∧ path.length ≤ budget := by
  induction budget generalizing start path with
  | zero =>
    refine ⟨(fun h => nomatch h), ?_⟩
    rintro ⟨-, hlength⟩
    exact absurd hlength (Nat.not_succ_le_zero _)
  | succ budget ih =>
    rw [segments]
    constructor
    · intro h
      split at h
      · exact nomatch h
      · next token hsegment =>
        cases h
        obtain ⟨text, cursor, htoken, hreads, hend, -⟩ := segment_eq_ok_iff.mp hsegment
        refine ⟨?_, Nat.succ_le_succ (Nat.zero_le budget)⟩
        rw [hreads.rest, show cursor.rest = [] from hend, List.append_nil]
        exact .last htoken
      · next token next hsegment =>
        split at h
        · exact nomatch h
        next following hsegments =>
        cases h
        obtain ⟨text, cursor, htoken, hreads, hdot, hends⟩ := segment_eq_ok_iff.mp hsegment
        obtain ⟨hchain, hlength⟩ := ih.mp hsegments
        refine ⟨?_, Nat.succ_le_succ hlength⟩
        rw [hreads.rest, Reads.rest hdot]
        exact .dot htoken (Bool.eq_false_iff.mpr fun h => nomatch hends h) hchain
    · rintro ⟨hchain, hlength⟩
      obtain ⟨token, following⟩ := path
      dsimp only [Path.tokens] at hchain
      generalize hrest : start.rest = text at hchain
      cases hchain with
      | last htoken =>
        have hreads : Reads start text ⟨start.pos + Bytes.utf8Length text, []⟩ :=
          ⟨by rw [hrest, List.append_nil], rfl⟩
        have hend : Follows ⟨start.pos + Bytes.utf8Length text, []⟩ none := rfl
        rw [segment_eq_ok_iff.mpr ⟨text, _, htoken, hreads, hend, fun _ => rfl⟩]
      | @dot text rest _ _ htoken hends hchain =>
        obtain ⟨next, more, rfl⟩ := List.exists_cons_of_ne_nil hchain.ne_nil
        let cursor : Cursor := ⟨start.pos + Bytes.utf8Length text, '.' :: rest⟩
        have hreads : Reads start text cursor := ⟨hrest, rfl⟩
        have hdot : Follows cursor (some ⟨cursor.pos + 1, rest⟩) := ⟨rfl, rfl⟩
        have hmore : segments limit budget ⟨cursor.pos + 1, rest⟩ = .ok ⟨next, more⟩ :=
          ih.mpr ⟨hchain, Nat.le_of_succ_le_succ hlength⟩
        have hlast : token.endsPath = true → some (⟨cursor.pos + 1, rest⟩ : Cursor) = none :=
          fun h => absurd (hends.symm.trans h) Bool.false_ne_true
        rw [segment_eq_ok_iff.mpr ⟨text, cursor, htoken, hreads, hdot, hlast⟩]
        dsimp only
        rw [hmore]
        rfl

end Cursor

/-- **A text has at most one reading.** The reader finds every one of them, if
it has the budget for both. -/
theorem IsChain.unique {text : List Char} {a b : List Token} (ha : IsChain text a)
    (hb : IsChain text b) : a = b := by
  obtain ⟨x, xs, rfl⟩ := List.exists_cons_of_ne_nil ha.ne_nil
  obtain ⟨y, ys, rfl⟩ := List.exists_cons_of_ne_nil hb.ne_nil
  have hx : Cursor.segments 0 (xs.length + ys.length + 1) ⟨0, text⟩ = .ok ⟨x, xs⟩ :=
    (Cursor.segments_eq_ok_iff ..).mpr ⟨ha, Nat.succ_le_succ (Nat.le_add_right _ _)⟩
  have hy : Cursor.segments 0 (xs.length + ys.length + 1) ⟨0, text⟩ = .ok ⟨y, ys⟩ :=
    (Cursor.segments_eq_ok_iff ..).mpr ⟨hb, Nat.succ_le_succ (Nat.le_add_left _ _)⟩
  rw [hx] at hy
  cases hy
  rfl

/-! ## Paths -/

theorem IsSegment.key {text : List Char} {token : Token} (h : IsSegment text token) :
    IsKey token.key.toList ∧ ∃ more, text = token.key.toList ++ more := by
  cases h with
  | member hkey =>
    rw [String.toList_ofList]
    exact ⟨hkey, [], (List.append_nil _).symm⟩
  | select hkey =>
    rw [String.toList_ofList]
    exact ⟨hkey, _, rfl⟩
  | call function => exact ⟨Cursor.isKey_name function, _, rfl⟩

theorem IsChain.head? {text : List Char} {token : Token} {following : List Token}
    (h : IsChain text (token :: following)) : text.head? = token.key.toList.head? := by
  have head {segment rest : List Char} (hsegment : IsSegment segment token) :
      (segment ++ rest).head? = token.key.toList.head? := by
    obtain ⟨⟨hne, -⟩, more, rfl⟩ := hsegment.key
    obtain ⟨c, key, hkey⟩ := List.exists_cons_of_ne_nil hne
    rw [hkey]
    rfl
  cases h with
  | last hsegment =>
    rw [← head hsegment, List.append_nil]
  | dot hsegment => exact head hsegment

/-- A text is read as a path exactly if it is a chain within the limit and the
first key begins with `$`. -/
theorem Path.parse_eq_ok_iff {limit : UInt64} {text : String} {path : Path} :
    Path.parse limit text = .ok path ↔
      IsChain text.toList path.tokens ∧ path.length ≤ limit.toNat ∧ path.Rooted := by
  unfold Path.parse Path.Rooted
  constructor
  · intro h
    split at h
    · cases h
    next c rest htext =>
    split at h
    · next hc =>
      obtain ⟨hchain, hlength⟩ := (Cursor.segments_eq_ok_iff ..).mp h
      refine ⟨hchain, hlength, ?_⟩
      rw [← hchain.head?, show (Cursor.ofString text).rest = c :: rest from htext, hc]
      rfl
    · cases h
  · rintro ⟨hchain, hlength, hroot⟩
    have hhead := hchain.head?
    rw [hroot] at hhead
    split
    · next htext =>
      rw [htext] at hhead
      cases hhead
    next c rest htext =>
    rw [htext] at hhead
    rw [if_pos (Option.some.inj hhead)]
    exact (Cursor.segments_eq_ok_iff ..).mpr ⟨hchain, hlength⟩

/-- **The reader accepts exactly the grammar and gives the reading.** It
accepts a text if and only if the text is a chain of no more than `limit`
segments whose first key begins with `$`; a path is what it gives if and only
if the grammar pairs the text with the path's tokens; and the grammar pairs an
accepted text with no other tokens. -/
theorem Path.parse_exact (limit : UInt64) (text : String) :
    ((∃ path, Path.parse limit text = .ok path) ↔
      ∃ path : Path, IsChain text.toList path.tokens ∧ path.length ≤ limit.toNat ∧
        path.Rooted) ∧
    (∀ path : Path, Path.parse limit text = .ok path ↔
      IsChain text.toList path.tokens ∧ path.length ≤ limit.toNat ∧ path.Rooted) ∧
    (∀ (path : Path) (tokens : List Token), Path.parse limit text = .ok path →
      IsChain text.toList tokens → tokens = path.tokens) := by
  refine ⟨exists_congr fun path => Path.parse_eq_ok_iff, fun path => Path.parse_eq_ok_iff, ?_⟩
  intro path tokens hparse hchain
  obtain ⟨hchain', -, -⟩ := Path.parse_eq_ok_iff.mp hparse
  exact hchain.unique hchain'

/-- Zero spelled with a sign is a position, and no upper bound is an open range. -/
theorem Path.parse_exact_signed_zero :
    Path.parse 2 "$[-0].a[01:]" = .ok ⟨⟨"$", .index 0⟩, [⟨"a", .range 1 0⟩]⟩ ∧
    IsChain "$[-0].a[01:]".toList [⟨"$", .index 0⟩, ⟨"a", .range 1 0⟩] ∧
    ∀ tokens, IsChain "$[-0].a[01:]".toList tokens →
      tokens = [⟨"$", .index 0⟩, ⟨"a", .range 1 0⟩] := by
  have hparse : Path.parse 2 "$[-0].a[01:]" = .ok ⟨⟨"$", .index 0⟩, [⟨"a", .range 1 0⟩]⟩ := by
    rfl
  obtain ⟨-, hreading, hunique⟩ := Path.parse_exact 2 "$[-0].a[01:]"
  exact ⟨hparse, ((hreading _).mp hparse).1, fun tokens => hunique _ tokens hparse⟩

end RawJson
