/-
Texts that are no paths, and what is wrong with them. The reader of paths goes
from the left and stops at the first thing that it cannot read; its error tells
the offset of that place. What it has read up to there and what it finds there is
described here as the grammar is, by relations on texts: `BracketFlaw` for what
stands between brackets, `Flaw` for a segment, and `IsLead` for the segments in
front of it. Each part of the reader is shown to fail exactly on the texts of its
relation, at the place and with the error that the relation gives.

The text in front of the place is always the beginning of a path
(`Flaw.exists_segment`), so no other error lies further to the left.
-/
import RawJson.Proofs.Canonical
import RawJson.Proofs.Checked.Text

namespace RawJson

/-! ## Bounds that are none -/

/-- A text that begins like an integer and not with one: a minus sign without a
digit, or digits whose number has more than 64 bits. -/
inductive NoInteger : List Char → Prop
  | sign {rest : List Char} : (∀ c ∈ rest.head?, c.isDigit = false) → NoInteger ('-' :: rest)
  | above {digits rest : List Char} : (∀ c ∈ digits, c.isDigit = true) →
      (∀ c ∈ rest.head?, c.isDigit = false) →
      Decimal.signedLimit ≤ Decimal.toNat digits → NoInteger (digits ++ rest)
  | below {digits rest : List Char} : (∀ c ∈ digits, c.isDigit = true) →
      (∀ c ∈ rest.head?, c.isDigit = false) →
      Decimal.signedLimit < Decimal.toNat digits → NoInteger ('-' :: (digits ++ rest))

theorem Decimal.toInt64?_eq_none_iff {negative : Bool} {digits : List Char} :
    Decimal.toInt64? negative digits = none ↔
      digits = [] ∨
        if negative then Decimal.signedLimit < Decimal.toNat digits
        else Decimal.signedLimit ≤ Decimal.toNat digits := by
  unfold Decimal.toInt64?
  simp only [Decimal.toNatBelow?_eq]
  grind

namespace Cursor

theorem NoInteger.bound {key : String} {start : Cursor} {text : List Char}
    (h : NoInteger text) (hrest : start.rest = text) :
    bound key start = .error (.malformedIndex key start.pos) := by
  cases h with
  | @sign rest hstop =>
    have hminus : Reads start ['-'] ⟨start.pos + Bytes.utf8Length ['-'], rest⟩ := ⟨hrest, rfl⟩
    have hspan : Cursor.span Char.isDigit ⟨start.pos + Bytes.utf8Length ['-'], rest⟩ =
        ([], ⟨start.pos + Bytes.utf8Length ['-'], rest⟩) :=
      span_eq_iff.mpr ⟨(fun _ hc => nomatch hc), hstop, Reads.refl _⟩
    have hnone : Decimal.toInt64? true [] = none := rfl
    rw [bound_of_minus hminus hspan, hnone]
  | @below digits rest hall hstop hlarge =>
    obtain ⟨mid, hminus, hdigits⟩ := reads_cons_iff.mp
      (⟨hrest, rfl⟩ : Reads start ('-' :: digits)
        ⟨start.pos + Bytes.utf8Length ('-' :: digits), rest⟩)
    have hspan := span_eq_iff.mpr ⟨hall, hstop, hdigits⟩
    have hnone : Decimal.toInt64? true digits = none :=
      Decimal.toInt64?_eq_none_iff.mpr (.inr hlarge)
    rw [bound_of_minus hminus hspan, hnone]
  | @above digits rest hall hstop hlarge =>
    have hdigits : Reads start digits ⟨start.pos + Bytes.utf8Length digits, rest⟩ := ⟨hrest, rfl⟩
    have hspan := span_eq_iff.mpr ⟨hall, hstop, hdigits⟩
    have hne : digits ≠ [] := by
      rintro rfl
      exact absurd hlarge (by decide)
    have hminus : start.rest.head? ≠ some '-' := by
      obtain ⟨c, digits, rfl⟩ := List.exists_cons_of_ne_nil hne
      rw [hrest]
      intro hc
      cases hc
      exact nomatch hall '-' List.mem_cons_self
    have hnone : Decimal.toInt64? false digits = none :=
      Decimal.toInt64?_eq_none_iff.mpr (.inr hlarge)
    rw [bound_of_digits hminus hspan, if_neg hne, hnone]

theorem noInteger_of_bound {key : String} {start : Cursor} {error : PathError}
    (h : bound key start = .error error) :
    NoInteger start.rest ∧ error = .malformedIndex key start.pos := by
  cases hminus : start.eat? '-' with
  | some mid =>
    rw [eat?_eq_some_iff] at hminus
    rcases hspan : mid.span Char.isDigit with ⟨digits, after⟩
    rw [bound_of_minus hminus hspan] at h
    obtain ⟨hall, hstop, hreads⟩ := span_eq_iff.mp hspan
    split at h
    · next hnone =>
      cases h
      rw [(hminus.append hreads).rest]
      rcases Decimal.toInt64?_eq_none_iff.mp hnone with rfl | hlarge
      · exact ⟨.sign hstop, rfl⟩
      · exact ⟨.below hall hstop hlarge, rfl⟩
    · cases h
  | none =>
    rw [eat?_eq_none_iff] at hminus
    rcases hspan : start.span Char.isDigit with ⟨digits, after⟩
    rw [bound_of_digits hminus hspan] at h
    obtain ⟨hall, hstop, hreads⟩ := span_eq_iff.mp hspan
    split at h
    · cases h
    next hne =>
    split at h
    · next hnone =>
      cases h
      rw [hreads.rest]
      rcases Decimal.toInt64?_eq_none_iff.mp hnone with hnil | hlarge
      · exact absurd hnil hne
      · exact ⟨.above hall hstop hlarge, rfl⟩
    · cases h

theorem bound_eq_error_iff {key : String} {start : Cursor} {error : PathError} :
    bound key start = .error error ↔
      NoInteger start.rest ∧ error = .malformedIndex key start.pos := by
  refine ⟨noInteger_of_bound, ?_⟩
  rintro ⟨h, rfl⟩
  exact NoInteger.bound h rfl

theorem upperBound_eq_error_iff {key : String} {start : Cursor} {error : PathError} :
    upperBound key start = .error error ↔
      bound key start = .error error ∨
        ∃ next, bound key start = .ok (some 0, next) ∧ error = .zeroUpperBound key start.pos := by
  unfold upperBound
  rcases bound key start with other | ⟨_ | right, next⟩
  · simp
  · simp
  · dsimp only
    split
    · next hzero => simp [hzero, eq_comm]
    · next hne => simp [hne]

theorem close_eq_error_iff {key : String} {selector : Selector} {cursor : Cursor}
    {error : PathError} :
    brackets.close key selector cursor = .error error ↔
      cursor.rest.head? ≠ some ']' ∧ error = .malformedIndex key cursor.pos := by
  unfold brackets.close
  rw [← eat?_eq_none_iff]
  cases cursor.eat? ']' with
  | none => simp [eq_comm]
  | some next => simp

end Cursor

/-! ## Brackets that do not close -/

/-- What is wrong between brackets. Behind the opening one a text has been read, up
to the offset `pos`, and what comes there is in the way: it takes the place of a
bound and is none, it is an upper bound of zero, or it takes the place of the
closing bracket. -/
inductive BracketFlaw (key : String) (pos : Nat) : List Char → List Char → PathError → Prop
  | lower {rest : List Char} : NoInteger rest →
      BracketFlaw key pos [] rest (.malformedIndex key pos)
  | upper {lower rest : List Char} {left? : Option Int64} : IsBound lower left? →
      NoInteger rest → BracketFlaw key pos (lower ++ [':']) rest (.malformedIndex key pos)
  | zero {lower zero rest : List Char} {left? : Option Int64} : IsBound lower left? →
      IsInteger zero 0 → (∀ c ∈ rest.head?, c.isDigit = false) →
      BracketFlaw key pos (lower ++ [':']) (zero ++ rest) (.zeroUpperBound key pos)
  | position {text rest : List Char} {n? : Option Int64} : IsBound text n? →
      Cursor.EndsBound n? rest → rest.head? ≠ some ':' → rest.head? ≠ some ']' →
      BracketFlaw key pos text rest (.malformedIndex key pos)
  | range {lower upper rest : List Char} {left? right? : Option Int64} : IsBound lower left? →
      IsBound upper right? → right? ≠ some 0 → Cursor.EndsBound right? rest →
      rest.head? ≠ some ']' →
      BracketFlaw key pos (lower ++ ':' :: upper) rest (.malformedIndex key pos)

namespace Cursor

theorem isInteger_of_isBound {text : List Char} {n : Int64} (h : IsBound text (some n)) :
    IsInteger text n := by
  cases h with
  | written hn => exact hn

theorem bracketFlaw_of_brackets {key : String} {start : Cursor} {error : PathError}
    (h : brackets key start = .error error) :
    ∃ inner cursor, Reads start inner cursor ∧
      BracketFlaw key cursor.pos inner cursor.rest error := by
  unfold brackets at h
  split at h
  · next hbound =>
    cases h
    obtain ⟨hnone, rfl⟩ := bound_eq_error_iff.mp hbound
    exact ⟨[], start, .refl start, .lower hnone⟩
  next left? cursor hbound =>
  obtain ⟨lower, hlower, hreads, hends⟩ := bound_eq_ok_iff.mp hbound
  dsimp only at h
  split at h
  · next hcolon =>
    obtain ⟨hclose, rfl⟩ := close_eq_error_iff.mp h
    exact ⟨lower, cursor, hreads, .position hlower hends (eat?_eq_none_iff.mp hcolon) hclose⟩
  next mid hcolon =>
  have hcolon := eat?_eq_some_iff.mp hcolon
  split at h
  · next hright =>
    cases h
    refine ⟨lower ++ [':'], mid, hreads.append hcolon, ?_⟩
    rcases upperBound_eq_error_iff.mp hright with herror | ⟨next, hzero, rfl⟩
    · obtain ⟨hnone, rfl⟩ := bound_eq_error_iff.mp herror
      exact .upper hlower hnone
    · obtain ⟨zero, hbound, hreads', hends'⟩ := bound_eq_ok_iff.mp hzero
      rw [hreads'.rest]
      exact .zero hlower (isInteger_of_isBound hbound) fun c hc => (hends' c hc).1
  next right last hright =>
  obtain ⟨right?, hbound', hne, rfl⟩ := upperBound_eq_ok_iff.mp hright
  obtain ⟨upper, hupper, hreads', hends'⟩ := bound_eq_ok_iff.mp hbound'
  obtain ⟨hclose, rfl⟩ := close_eq_error_iff.mp h
  exact ⟨lower ++ ':' :: upper, last, hreads.append (hcolon.append hreads'),
    .range hlower hupper hne hends' hclose⟩

theorem bound_colon {key : String} {start cursor : Cursor} {lower upper : List Char}
    {left? : Option Int64} (hlower : IsBound lower left?)
    (hreads : Reads start (lower ++ ':' :: upper) cursor) :
    ∃ before mid, bound key start = .ok (left?, before) ∧ before.eat? ':' = some mid ∧
      Reads mid upper cursor := by
  obtain ⟨before, hbefore, hrest⟩ := reads_append_iff.mp hreads
  obtain ⟨mid, hcolon, hupper⟩ := reads_cons_iff.mp hrest
  have hends := hcolon.endsBound rfl (by decide) left?
  exact ⟨before, mid, bound_eq_ok_iff.mpr ⟨lower, hlower, hbefore, hends⟩,
    eat?_eq_some_iff.mpr hcolon, hupper⟩

theorem brackets_of_upperBound {key : String} {start cursor : Cursor} {lower : List Char}
    {left? : Option Int64} {error : PathError} (hlower : IsBound lower left?)
    (hreads : Reads start (lower ++ [':']) cursor)
    (hright : upperBound key cursor = .error error) : brackets key start = .error error := by
  obtain ⟨before, mid, hbound, hcolon, hmid⟩ := bound_colon hlower hreads
  obtain rfl := Reads.nil_iff.mp hmid
  unfold brackets
  rw [hbound]
  dsimp only
  rw [hcolon]
  dsimp only
  rw [hright]

theorem BracketFlaw.brackets {key : String} {start cursor : Cursor} {inner rest : List Char}
    {error : PathError} (h : BracketFlaw key cursor.pos inner rest error)
    (hrest : cursor.rest = rest) (hreads : Reads start inner cursor) :
    brackets key start = .error error := by
  cases h with
  | lower hnone =>
    obtain rfl := Reads.nil_iff.mp hreads
    unfold Cursor.brackets
    rw [bound_eq_error_iff.mpr ⟨hrest ▸ hnone, rfl⟩]
  | upper hlower hnone =>
    refine brackets_of_upperBound hlower hreads (upperBound_eq_error_iff.mpr (.inl ?_))
    exact bound_eq_error_iff.mpr ⟨hrest ▸ hnone, rfl⟩
  | @zero lower zero rest left? hlower hzero hstop =>
    refine brackets_of_upperBound hlower hreads (upperBound_eq_error_iff.mpr (.inr ?_))
    refine ⟨⟨cursor.pos + Bytes.utf8Length zero, rest⟩, bound_eq_ok_iff.mpr ?_, rfl⟩
    exact ⟨zero, .written hzero, ⟨hrest, rfl⟩, fun c hc => ⟨hstop c hc, nofun⟩⟩
  | position hbound hends hcolon hclose =>
    subst hrest
    unfold Cursor.brackets
    rw [bound_eq_ok_iff.mpr ⟨inner, hbound, hreads, hends⟩]
    dsimp only
    rw [eat?_eq_none_iff.mpr hcolon]
    exact close_eq_error_iff.mpr ⟨hclose, rfl⟩
  | @range lower upper _ left? right? hlower hupper hne hends hclose =>
    subst hrest
    obtain ⟨before, mid, hbound, hcolon, hmid⟩ := bound_colon hlower hreads
    have hright : upperBound key mid = .ok (right?.getD 0, cursor) :=
      upperBound_eq_ok_iff.mpr ⟨right?, bound_eq_ok_iff.mpr ⟨upper, hupper, hmid, hends⟩, hne, rfl⟩
    unfold Cursor.brackets
    rw [hbound]
    dsimp only
    rw [hcolon]
    dsimp only
    rw [hright]
    exact close_eq_error_iff.mpr ⟨hclose, rfl⟩

/-- Brackets are refused exactly where they have a flaw. -/
theorem brackets_eq_error_iff {key : String} {start : Cursor} {error : PathError} :
    brackets key start = .error error ↔ ∃ inner cursor, Reads start inner cursor ∧
      BracketFlaw key cursor.pos inner cursor.rest error :=
  ⟨bracketFlaw_of_brackets, fun ⟨_, _, hreads, h⟩ => BracketFlaw.brackets h rfl hreads⟩

end Cursor

/-! ## Segments that are none -/

/-- What is wrong with a segment. A text of it has been read, up to the offset
`pos`, and what comes there cannot go on with it; the name of a function that
there is none of counts as unread. -/
inductive Flaw (pos : Nat) : List Char → List Char → PathError → Prop
  | emptyKey {rest : List Char} : (∀ c ∈ rest.head?, Cursor.endsKey c = true) →
      Flaw pos [] rest (.emptyKey pos)
  | unknownFunction {name rest : List Char} : IsKey name →
      (∀ function : Function, String.ofList name ≠ function.name) →
      Flaw pos [] (name ++ '(' :: ')' :: rest) (.unknownFunction (String.ofList name) pos)
  | functionNotTerminal (function : Function) {rest : List Char} : rest ≠ [] →
      Flaw pos (function.name.toList ++ ['(', ')']) rest (.functionNotTerminal function.name pos)
  | brackets {key inner rest : List Char} {error : PathError} : IsKey key →
      BracketFlaw (String.ofList key) pos inner rest error →
      Flaw pos (key ++ '[' :: inner) rest error
  | indefiniteReference {key inner rest : List Char} {left right : Int64} : IsKey key →
      IsSelection inner (.range left right) → rest ≠ [] →
      Flaw pos (key ++ '[' :: (inner ++ [']'])) rest
        (.indefiniteReference (String.ofList key) pos)
  | afterKey {key rest : List Char} : IsKey key → rest.head? ≠ some ')' →
      Flaw pos key ('(' :: rest) (.expectedDot '(' pos)
  | afterPosition {key inner rest : List Char} {position : Int64} {c : Char} : IsKey key →
      IsSelection inner (.index position) → c ≠ '.' →
      Flaw pos (key ++ '[' :: (inner ++ [']'])) (c :: rest) (.expectedDot c pos)

namespace Cursor

theorem call_eq_error_iff {name : String} {start cursor : Cursor} {error : PathError} :
    call name start cursor = .error error ↔
      ((∀ function : Function, name ≠ function.name) ∧ error = .unknownFunction name start.pos) ∨
      ((∃ function : Function, name = function.name) ∧ cursor.rest ≠ [] ∧
        error = .functionNotTerminal name cursor.pos) := by
  unfold call
  cases hf : Function.ofName? name with
  | none =>
    have hnone (function : Function) : name ≠ function.name := by
      rintro rfl
      rw [Function.ofName?_name] at hf
      cases hf
    simp [hnone, eq_comm]
  | some function =>
    obtain rfl := Function.ofName?_eq_some_iff.mp hf
    dsimp only
    constructor
    · intro h
      split at h
      · cases h
      · next hrest =>
        cases h
        exact .inr ⟨⟨function, rfl⟩, mt List.isEmpty_iff.mpr hrest, rfl⟩
    · rintro (⟨hnone, -⟩ | ⟨-, hrest, rfl⟩)
      · exact absurd rfl (hnone function)
      · exact if_neg (mt List.isEmpty_iff.mp hrest)

theorem finish_eq_error_iff {token : Token} {cursor : Cursor} {error : PathError} :
    segment.finish token cursor = .error error ↔
      ∃ c rest, cursor.rest = c :: rest ∧ c ≠ '.' ∧ error = .expectedDot c cursor.pos := by
  unfold segment.finish ending
  cases cursor.rest with
  | nil => simp
  | cons c rest =>
    by_cases hc : c = '.'
    · simp [hc]
    · dsimp only
      rw [if_neg hc]
      constructor
      · intro h
        cases h
        exact ⟨c, rest, rfl, hc, rfl⟩
      · rintro ⟨d, more, h, -, rfl⟩
        cases h
        rfl

theorem parens_eq_none_iff {cursor : Cursor} {rest : List Char} (h : cursor.rest = '(' :: rest) :
    (cursor.eat? '(').bind (eat? ')') = none ↔ rest.head? ≠ some ')' := by
  obtain ⟨pos, _⟩ := cursor
  subst h
  have hbeyond : eat? '(' ⟨pos, '(' :: rest⟩ = some ⟨pos + ('(' : Char).utf8Size, rest⟩ := rfl
  rw [hbeyond]
  exact eat?_eq_none_iff

theorem flaw_of_segment {start : Cursor} {error : PathError} (h : segment start = .error error) :
    ∃ read cursor, Reads start read cursor ∧ Flaw cursor.pos read cursor.rest error := by
  rcases hspan : start.span fun c => !endsKey c with ⟨name, cursor⟩
  obtain ⟨hall, hstop, hname⟩ := span_eq_iff.mp hspan
  unfold segment at h
  rw [hspan] at h
  dsimp only at h
  split at h
  · next hnil =>
    cases h
    obtain rfl := List.isEmpty_iff.mp hnil
    obtain rfl := Reads.nil_iff.mp hname
    exact ⟨[], cursor, .refl cursor, .emptyKey fun c hc => by simpa using hstop c hc⟩
  next hne =>
  obtain ⟨hkey, hstop, -⟩ := key_eq_iff.mp ⟨hspan, mt List.isEmpty_iff.mpr hne⟩
  split at h
  · next beyond hparens =>
    rw [parens_eq_some_iff] at hparens
    have hcalled := hname.append hparens
    split at h
    · next hcall =>
      cases h
      rcases call_eq_error_iff.mp hcall with ⟨hnone, rfl⟩ | ⟨⟨function, hf⟩, hrest, rfl⟩
      · refine ⟨[], start, .refl start, ?_⟩
        rw [hcalled.rest, List.append_assoc]
        exact .unknownFunction hkey hnone
      · obtain rfl : name = function.name.toList := by rw [← hf, String.toList_ofList]
        rw [String.ofList_toList]
        exact ⟨_, beyond, hcalled, .functionNotTerminal function hrest⟩
    · cases h
  next hparens =>
  split at h
  · next hopen =>
    obtain ⟨c, rest, hrest, hdot, rfl⟩ := finish_eq_error_iff.mp h
    obtain rfl : c = '(' := by
      have hends : endsKey c = true := hstop c (by rw [hrest]; rfl)
      have hbracket := eat?_eq_none_iff.mp hopen
      rw [hrest, List.head?_cons] at hbracket
      simp only [endsKey, Bool.or_eq_true, beq_iff_eq] at hends
      rcases hends with (hends | hends) | hends
      · exact absurd hends hdot
      · exact absurd (congrArg some hends) hbracket
      · exact hends
    refine ⟨name, cursor, hname, ?_⟩
    rw [hrest]
    exact .afterKey hkey ((parens_eq_none_iff hrest).mp hparens)
  next mid hopen =>
  have hopened := hname.append (eat?_eq_some_iff.mp hopen)
  split at h
  · next hbrackets =>
    cases h
    obtain ⟨inner, last, hreads, hflaw⟩ := brackets_eq_error_iff.mp hbrackets
    have hread := hopened.append hreads
    rw [List.append_assoc] at hread
    exact ⟨_, last, hread, .brackets hkey hflaw⟩
  next selector last hbrackets =>
  obtain ⟨inner, hinner, hreads⟩ := brackets_eq_ok_iff.mp hbrackets
  have hread := hopened.append hreads
  rw [List.append_assoc] at hread
  split at h
  · next hrange =>
    cases h
    rw [Bool.and_eq_true, Bool.not_eq_true', ← Bool.not_eq_true, List.isEmpty_iff] at hrange
    cases hinner with
    | index => cases hrange.1
    | range hlower hupper hzero =>
      exact ⟨_, last, hread, .indefiniteReference hkey (.range hlower hupper hzero) hrange.2⟩
  · next hrange =>
    obtain ⟨c, rest, hrest, hdot, rfl⟩ := finish_eq_error_iff.mp h
    refine ⟨_, last, hread, ?_⟩
    rw [hrest]
    cases hinner with
    | index hbound => exact .afterPosition hkey (.index hbound) hdot
    | range =>
      rw [hrest] at hrange
      exact absurd rfl hrange

theorem span_key {start cursor : Cursor} {key rest : List Char} {c : Char} (hkey : IsKey key)
    (hreads : Reads start key cursor) (hrest : cursor.rest = c :: rest)
    (hends : endsKey c = true) : (start.span fun c => !endsKey c) = (key, cursor) := by
  refine (key_eq_iff.mpr ⟨hkey, fun d hd => ?_, hreads⟩).1
  rw [hrest] at hd
  cases hd
  exact hends

theorem segment_of_opening {start cursor : Cursor} {key inner : List Char} (hkey : IsKey key)
    (hreads : Reads start (key ++ '[' :: inner) cursor) :
    ∃ mid, Reads mid inner cursor ∧ segment start =
      match brackets (String.ofList key) mid with
      | .error error => .error error
      | .ok (selector, last) =>
        if (Token.isRange ⟨String.ofList key, selector⟩ && !last.rest.isEmpty) = true then
          .error (.indefiniteReference (String.ofList key) last.pos)
        else segment.finish ⟨String.ofList key, selector⟩ last := by
  obtain ⟨before, hname, hrest⟩ := reads_append_iff.mp hreads
  obtain ⟨mid, hopen, hinner⟩ := reads_cons_iff.mp hrest
  have hparen : before.eat? '(' = none := by
    rw [eat?_eq_none_iff, hopen.rest]
    exact nofun
  refine ⟨mid, hinner, ?_⟩
  unfold segment
  rw [span_key hkey hname hopen.rest rfl]
  dsimp only
  rw [if_neg (mt List.isEmpty_iff.mp hkey.1), hparen, eat?_eq_some_iff.mpr hopen]
  rfl

theorem segment_of_parens {start cursor : Cursor} {name : List Char} (hname : IsKey name)
    (hreads : Reads start (name ++ ['(', ')']) cursor) :
    segment start = (call (String.ofList name) start cursor).map fun token => (token, none) := by
  obtain ⟨before, hbefore, hparens⟩ := reads_append_iff.mp hreads
  unfold segment
  rw [span_key hname hbefore hparens.rest rfl]
  dsimp only
  rw [if_neg (mt List.isEmpty_iff.mp hname.1), parens_eq_some_iff.mpr hparens]
  dsimp only
  cases call (String.ofList name) start cursor <;> rfl

theorem Flaw.segment {start cursor : Cursor} {read rest : List Char} {error : PathError}
    (h : Flaw cursor.pos read rest error) (hrest : cursor.rest = rest)
    (hreads : Reads start read cursor) : segment start = .error error := by
  cases h with
  | emptyKey hends =>
    obtain rfl := Reads.nil_iff.mp hreads
    have hspan : (cursor.span fun c => !endsKey c) = ([], cursor) := by
      refine span_eq_iff.mpr ⟨(fun _ hc => nomatch hc), fun c hc => ?_, .refl cursor⟩
      rw [hends c (hrest ▸ hc)]
      rfl
    unfold Cursor.segment
    rw [hspan]
    rfl
  | @unknownFunction name rest hname hnone =>
    obtain rfl := Reads.nil_iff.mp hreads
    have hcalled : Reads cursor (name ++ ['(', ')'])
        ⟨cursor.pos + Bytes.utf8Length (name ++ ['(', ')']), rest⟩ :=
      ⟨by rw [hrest, List.append_assoc]; rfl, rfl⟩
    rw [segment_of_parens hname hcalled, call_eq_error_iff.mpr (.inl ⟨hnone, rfl⟩)]
    rfl
  | functionNotTerminal function hne =>
    rw [segment_of_parens (isKey_name function) hreads, String.ofList_toList,
      call_eq_error_iff.mpr (.inr ⟨⟨function, rfl⟩, hrest ▸ hne, rfl⟩)]
    rfl
  | brackets hkey hflaw =>
    obtain ⟨mid, hinner, hsegment⟩ := segment_of_opening hkey hreads
    rw [hsegment, BracketFlaw.brackets hflaw hrest hinner]
  | indefiniteReference hkey hselection hne =>
    obtain ⟨mid, hinner, hsegment⟩ := segment_of_opening hkey hreads
    rw [hsegment, brackets_eq_ok_iff.mpr ⟨_, hselection, hinner⟩]
    dsimp only
    rw [if_pos]
    rw [hrest, Token.isRange, Bool.true_and, Bool.not_eq_true', ← Bool.not_eq_true,
      List.isEmpty_iff]
    exact hne
  | afterPosition hkey hselection hdot =>
    obtain ⟨mid, hinner, hsegment⟩ := segment_of_opening hkey hreads
    rw [hsegment, brackets_eq_ok_iff.mpr ⟨_, hselection, hinner⟩]
    exact finish_eq_error_iff.mpr ⟨_, _, hrest, hdot, rfl⟩
  | afterKey hkey hparen =>
    have hopen : cursor.eat? '[' = none := by
      rw [eat?_eq_none_iff, hrest]
      exact nofun
    unfold Cursor.segment
    rw [span_key hkey hreads hrest rfl]
    dsimp only
    rw [if_neg (mt List.isEmpty_iff.mp hkey.1), (parens_eq_none_iff hrest).mpr hparen, hopen]
    exact finish_eq_error_iff.mpr ⟨_, _, hrest, by decide, rfl⟩

/-- **A segment is refused exactly where it has a flaw.** -/
theorem segment_eq_error_iff {start : Cursor} {error : PathError} :
    segment start = .error error ↔
      ∃ read cursor, Reads start read cursor ∧ Flaw cursor.pos read cursor.rest error :=
  ⟨flaw_of_segment, fun ⟨_, _, hreads, h⟩ => Flaw.segment h rfl hreads⟩

end Cursor

/-! ## Chains that break off -/

/-- The front of a chain: segments with a dot behind each. -/
inductive IsLead : List Char → List Token → Prop
  | nil : IsLead [] []
  | cons {text rest : List Char} {token : Token} {following : List Token} :
      IsSegment text token → token.endsPath = false → IsLead rest following →
      IsLead (text ++ '.' :: rest) (token :: following)

theorem IsLead.append {lead text : List Char} {tokens following : List Token}
    (h : IsLead lead tokens) (hchain : IsChain text following) :
    IsChain (lead ++ text) (tokens ++ following) := by
  induction h with
  | nil => exact hchain
  | cons hsegment hends _ ih =>
    rw [List.append_assoc, List.cons_append]
    exact .dot hsegment hends ih

theorem IsLead.getLast? {lead : List Char} {tokens : List Token} (h : IsLead lead tokens)
    (hne : lead ≠ []) : lead.getLast? = some '.' := by
  induction h with
  | nil => exact absurd rfl hne
  | @cons text rest _ _ _ _ hlead ih =>
    rw [List.getLast?_append, List.getLast?_cons]
    by_cases hrest : rest = []
    · subst hrest
      rfl
    · rw [ih hrest]
      rfl

namespace Cursor

/-- A segment goes on to a next one behind its dot. -/
theorem segment_eq_some_iff {start next : Cursor} {token : Token} :
    segment start = .ok (token, some next) ↔
      ∃ text, IsSegment text token ∧ token.endsPath = false ∧ Reads start (text ++ ['.']) next := by
  rw [segment_eq_ok_iff]
  constructor
  · rintro ⟨text, cursor, hsegment, hreads, hdot, hends⟩
    refine ⟨text, hsegment, Bool.eq_false_iff.mpr fun h => ?_, hreads.append hdot⟩
    cases hends h
  · rintro ⟨text, hsegment, hends, hreads⟩
    obtain ⟨cursor, hreads, hdot⟩ := reads_append_iff.mp hreads
    exact ⟨text, cursor, hsegment, hreads, hdot, fun h =>
      absurd (hends.symm.trans h) Bool.false_ne_true⟩

/-- What the reader of segments fails with behind the front of a chain: there is a
flaw in what follows, or no room for another segment. -/
inductive Stops (limit : UInt64) (budget : Nat) (start : Cursor) : PathError → Prop
  | full {lead : List Char} {tokens : List Token} {cursor : Cursor} : IsLead lead tokens →
      Reads start lead cursor → tokens.length = budget →
      Stops limit budget start (.tooManySegments limit)
  | flaw {lead read : List Char} {tokens : List Token} {cursor : Cursor} {error : PathError} :
      IsLead lead tokens → tokens.length < budget → Reads start (lead ++ read) cursor →
      Flaw cursor.pos read cursor.rest error → Stops limit budget start error

theorem stops_zero_iff {limit : UInt64} {start : Cursor} {error : PathError} :
    Stops limit 0 start error ↔ error = .tooManySegments limit := by
  constructor
  · intro h
    cases h with
    | full => rfl
    | flaw _ hlength => exact absurd hlength (Nat.not_lt_zero _)
  · rintro rfl
    exact .full .nil (.refl start) rfl

/-- Where there is room for a segment, the reader stops in it or behind its dot. -/
theorem stops_succ_iff {limit : UInt64} {budget : Nat} {start : Cursor} {error : PathError} :
    Stops limit (budget + 1) start error ↔
      segment start = .error error ∨
        ∃ token next, segment start = .ok (token, some next) ∧ Stops limit budget next error := by
  have step {text rest : List Char} {token : Token} {cursor : Cursor}
      (hsegment : IsSegment text token) (hends : token.endsPath = false)
      (hreads : Reads start (text ++ '.' :: rest) cursor) :
      ∃ next, segment start = .ok (token, some next) ∧ Reads next rest cursor := by
    rw [← List.singleton_append, ← List.append_assoc] at hreads
    obtain ⟨next, hreads, hrest⟩ := reads_append_iff.mp hreads
    exact ⟨next, segment_eq_some_iff.mpr ⟨text, hsegment, hends, hreads⟩, hrest⟩
  constructor
  · intro h
    cases h with
    | full hlead hreads hlength =>
      cases hlead with
      | nil => cases hlength
      | cons hsegment hends hlead =>
        obtain ⟨next, hnext, hrest⟩ := step hsegment hends hreads
        exact .inr ⟨_, next, hnext, .full hlead hrest (Nat.succ.inj hlength)⟩
    | @flaw lead read _ cursor _ hlead hlength hreads hflaw =>
      cases hlead with
      | nil => exact .inl (segment_eq_error_iff.mpr ⟨read, cursor, hreads, hflaw⟩)
      | cons hsegment hends hlead =>
        rw [List.append_assoc, List.cons_append] at hreads
        obtain ⟨next, hnext, hrest⟩ := step hsegment hends hreads
        exact .inr ⟨_, next, hnext, .flaw hlead (Nat.lt_of_succ_lt_succ hlength) hrest hflaw⟩
  · rintro (hsegment | ⟨token, next, hsegment, h⟩)
    · obtain ⟨read, cursor, hreads, hflaw⟩ := segment_eq_error_iff.mp hsegment
      exact .flaw .nil (Nat.succ_pos budget) hreads hflaw
    · obtain ⟨text, hsegment, hends, hreads⟩ := segment_eq_some_iff.mp hsegment
      cases h with
      | full hlead hlast hlength =>
        have hwhole := hreads.append hlast
        rw [List.append_assoc] at hwhole
        exact .full (.cons hsegment hends hlead) hwhole (congrArg (· + 1) hlength)
      | @flaw lead read _ _ _ hlead hlength hlast hflaw =>
        have hwhole := hreads.append hlast
        rw [← List.append_assoc, List.append_assoc text] at hwhole
        exact .flaw (.cons hsegment hends hlead) (Nat.succ_lt_succ hlength) hwhole hflaw

/-- **The reader of segments fails exactly where it stops.** -/
theorem segments_eq_error_iff (limit : UInt64) (budget : Nat) {start : Cursor}
    {error : PathError} :
    segments limit budget start = .error error ↔ Stops limit budget start error := by
  induction budget generalizing start with
  | zero =>
    rw [segments, stops_zero_iff, Except.error.injEq]
    exact eq_comm
  | succ budget ih =>
    rw [segments, stops_succ_iff]
    rcases segment start with other | ⟨token, _ | next⟩
    · simp
    · simp
    · simp only [reduceCtorEq, Except.ok.injEq, Prod.mk.injEq, Option.some.injEq, false_or,
        ← ih]
      cases hsegments : segments limit budget next with
      | error other => grind
      | ok path => grind

end Cursor

/-! ## What an error points at -/

namespace PathError

/-- The offset that an error tells. -/
def pos? : PathError → Option Nat
  | .empty | .missingRoot | .tooManySegments _ => none
  | .emptyKey pos => some pos
  | .unknownFunction _ pos => some pos
  | .functionNotTerminal _ pos => some pos
  | .malformedIndex _ pos => some pos
  | .zeroUpperBound _ pos => some pos
  | .indefiniteReference _ pos => some pos
  | .expectedDot _ pos => some pos

/-- What has to stand at the offset of an error, and nothing more, to make a path of
the text in front of it. -/
def mend : PathError → List Char
  | .emptyKey _ | .unknownFunction _ _ => ['$']
  | .malformedIndex _ _ | .zeroUpperBound _ _ => [']']
  | .empty | .missingRoot | .tooManySegments _ | .functionNotTerminal _ _
  | .indefiniteReference _ _ | .expectedDot _ _ => []

/-- What an error says of the text in front of its offset and of the text from there
on. -/
def Points (front back : List Char) : PathError → Prop
  | .empty | .missingRoot | .tooManySegments _ => False
  | .emptyKey _ =>
    front.getLast? = some '.' ∧ ∀ c ∈ back.head?, c = '.' ∨ c = '[' ∨ c = '('
  | .unknownFunction name _ =>
    (front = [] ∨ front.getLast? = some '.') ∧ name.toList ++ ['(', ')'] <+: back ∧
      name ≠ "length" ∧ name ≠ "size"
  | .functionNotTerminal name _ =>
    (name = "length" ∨ name = "size") ∧ name.toList ++ ['(', ')'] <:+ front ∧ back ≠ []
  -- A bound is due there, or the closing bracket.
  | .malformedIndex key _ => ∃ inner, key.toList ++ '[' :: inner <:+ front ∧
    ((inner = [] ∨ ∃ lower left?, IsBound lower left? ∧ inner = lower ++ [':']) ∧
        NoInteger back ∨
      ((∃ n?, IsBound inner n?) ∨ ∃ left right, IsSelection inner (.range left right)) ∧
        back.head? ≠ some ']')
  | .zeroUpperBound key _ =>
    (∃ lower left?, IsBound lower left? ∧ key.toList ++ '[' :: (lower ++ [':']) <:+ front) ∧
      ∃ zero rest, IsInteger zero 0 ∧ (∀ c ∈ rest.head?, c.isDigit = false) ∧ back = zero ++ rest
  | .indefiniteReference key _ =>
    (∃ inner left right, IsSelection inner (.range left right) ∧
      key.toList ++ '[' :: (inner ++ [']']) <:+ front) ∧ back ≠ []
  -- The segment goes on behind its key or its position where it can only be over.
  | .expectedDot found _ => back.head? = some found ∧ found ≠ '.' ∧
    ((∃ key, IsKey key ∧ key <:+ front ∧ found = '(') ∨
      ∃ key inner position, IsKey key ∧ IsSelection inner (.index position) ∧
        key ++ '[' :: (inner ++ [']']) <:+ front)

end PathError

theorem BracketFlaw.pos? {key : String} {pos : Nat} {inner rest : List Char} {error : PathError}
    (h : BracketFlaw key pos inner rest error) : error.pos? = some pos := by
  cases h <;> rfl

theorem Flaw.pos? {pos : Nat} {read rest : List Char} {error : PathError}
    (h : Flaw pos read rest error) : error.pos? = some pos := by
  cases h with
  | brackets _ hflaw => exact hflaw.pos?
  | _ => rfl

theorem BracketFlaw.selects {key : String} {pos : Nat} {inner rest : List Char}
    {error : PathError} (h : BracketFlaw key pos inner rest error) :
    error.mend = [']'] ∧ ∃ selector, IsSelection inner selector := by
  cases h with
  | lower => exact ⟨rfl, _, .index .absent⟩
  | upper hlower => exact ⟨rfl, _, .range hlower .absent nofun⟩
  | zero hlower => exact ⟨rfl, _, .range hlower .absent nofun⟩
  | position hbound => exact ⟨rfl, _, .index hbound⟩
  | range hlower hupper hne => exact ⟨rfl, _, .range hlower hupper hne⟩

theorem isKey_root : IsKey ['$'] := by decide

/-- **What has been read of a segment up to a flaw goes on to be one.** -/
theorem Flaw.exists_segment {pos : Nat} {read rest : List Char} {error : PathError}
    (h : Flaw pos read rest error) :
    (∃ token, IsSegment (read ++ error.mend) token) ∧ (read = [] → error.mend = ['$']) := by
  have whole {text : List Char} {token : Token} (hsegment : IsSegment text token) :
      ∃ token, IsSegment (text ++ []) token := by
    rw [List.append_nil]
    exact ⟨token, hsegment⟩
  cases h with
  | emptyKey => exact ⟨⟨_, .member isKey_root⟩, fun _ => rfl⟩
  | unknownFunction => exact ⟨⟨_, .member isKey_root⟩, fun _ => rfl⟩
  | functionNotTerminal function => exact ⟨whole (.call function), fun h => by simp at h⟩
  | brackets hkey hflaw =>
    obtain ⟨hmend, selector, hselection⟩ := hflaw.selects
    rw [hmend, List.append_assoc, List.cons_append]
    exact ⟨⟨_, .select hkey hselection⟩, fun h => by simp at h⟩
  | indefiniteReference hkey hselection =>
    exact ⟨whole (.select hkey hselection), fun h => by simp at h⟩
  | afterKey hkey => exact ⟨whole (.member hkey), fun h => absurd h hkey.1⟩
  | afterPosition hkey hselection =>
    exact ⟨whole (.select hkey hselection), fun h => by simp at h⟩

theorem BracketFlaw.points {key : List Char} {pos : Nat} {inner rest : List Char}
    {error : PathError} (h : BracketFlaw (String.ofList key) pos inner rest error)
    (front : List Char) : error.Points (front ++ (key ++ '[' :: inner)) rest := by
  have hkey (text : List Char) :
      (String.ofList key).toList ++ '[' :: text <:+ front ++ (key ++ '[' :: text) := by
    rw [String.toList_ofList]
    exact List.suffix_append _ _
  cases h with
  | lower hnone => exact ⟨[], hkey [], .inl ⟨.inl rfl, hnone⟩⟩
  | upper hlower hnone => exact ⟨_, hkey _, .inl ⟨.inr ⟨_, _, hlower, rfl⟩, hnone⟩⟩
  | zero hlower hzero hstop => exact ⟨⟨_, _, hlower, hkey _⟩, _, _, hzero, hstop, rfl⟩
  | position hbound _ _ hclose => exact ⟨_, hkey _, .inr ⟨.inl ⟨_, hbound⟩, hclose⟩⟩
  | range hlower hupper hne _ hclose =>
    exact ⟨_, hkey _, .inr ⟨.inr ⟨_, _, .range hlower hupper hne⟩, hclose⟩⟩

theorem Flaw.points {pos : Nat} {lead read rest : List Char} {tokens : List Token}
    {error : PathError} (h : Flaw pos read rest error) (hlead : IsLead lead tokens)
    (hroot : (lead ++ (read ++ rest)).head? = some '$') : error.Points (lead ++ read) rest := by
  have hdot : lead = [] ∨ lead.getLast? = some '.' := by
    by_cases hne : lead = []
    · exact .inl hne
    · exact .inr (hlead.getLast? hne)
  have hname (function : Function) :
      function.name = "length" ∨ function.name = "size" := by
    cases function
    · exact .inl rfl
    · exact .inr rfl
  cases h with
  | emptyKey hends =>
    rw [List.append_nil]
    refine ⟨?_, fun c hc => by simpa [Cursor.endsKey, or_assoc] using hends c hc⟩
    rcases hdot with rfl | hdot
    · exact absurd (hends '$' hroot) (by decide)
    · exact hdot
  | @unknownFunction name rest hkey hnone =>
    rw [List.append_nil]
    refine ⟨hdot, ⟨rest, ?_⟩, hnone .length, hnone .size⟩
    rw [String.toList_ofList, List.append_assoc]
    rfl
  | functionNotTerminal function hne => exact ⟨hname function, List.suffix_append _ _, hne⟩
  | brackets _ hflaw => exact hflaw.points lead
  | @indefiniteReference key inner _ left right hkey hselection hne =>
    refine ⟨⟨inner, left, right, hselection, ?_⟩, hne⟩
    rw [String.toList_ofList]
    exact List.suffix_append _ _
  | afterKey hkey =>
    exact ⟨rfl, by decide, .inl ⟨_, hkey, List.suffix_append _ _, rfl⟩⟩
  | afterPosition hkey hselection hne =>
    exact ⟨rfl, hne, .inr ⟨_, _, _, hkey, hselection, List.suffix_append _ _⟩⟩

namespace Path

theorem stops_of_parse {limit : UInt64} {text : String} {error : PathError}
    (h : parse limit text = .error error) (hpos : error.pos? ≠ none) :
    text.toList.head? = some '$' ∧
      Cursor.segments limit limit.toNat (Cursor.ofString text) = .error error := by
  unfold parse at h
  split at h
  · cases h
    exact absurd rfl hpos
  next c rest htext =>
  split at h
  · next hc =>
    rw [htext, hc]
    exact ⟨rfl, h⟩
  · cases h
    exact absurd rfl hpos

/-- **An error points at the leftmost thing that is wrong.** If a text is refused
with an error that tells an offset, the offset is one of a character of the text or
of its end. What stands in front of it and what follows is as the error says
(`PathError.Points`). The text in front of it is that of a path, but for a key or a
bracket that is due there; so nothing is wrong further to the left. And it is the one
error that the text stops with. -/
theorem parse_error_leftmost (limit : UInt64) (text : String) (error : PathError) (pos : Nat)
    (h : parse limit text = .error error) (hpos : error.pos? = some pos) :
    pos ≤ (Bytes.ofString text).length ∧ (⟨pos⟩ : String.Pos.Raw).IsValid text ∧
    (∃ front back, text.toList = front ++ back ∧ Bytes.utf8Length front = pos ∧
      error.Points front back ∧
      ∃ path, parse limit (String.ofList (front ++ error.mend)) = .ok path) ∧
    ∀ other, Cursor.Stops limit limit.toNat (Cursor.ofString text) other ↔ other = error := by
  have htold : error.pos? ≠ none := by
    rw [hpos]
    exact Option.some_ne_none pos
  obtain ⟨hroot, hsegments⟩ := stops_of_parse h htold
  have honly : ∀ other, Cursor.Stops limit limit.toNat (Cursor.ofString text) other ↔
      other = error := by
    intro other
    rw [← Cursor.segments_eq_error_iff, hsegments, Except.error.injEq]
    exact eq_comm
  cases (Cursor.segments_eq_error_iff limit limit.toNat).mp hsegments with
  | full => exact absurd rfl htold
  | @flaw lead read leading cursor _ hlead hlength hreads hflaw =>
    obtain rfl : cursor.pos = pos := Option.some.inj (hflaw.pos?.symm.trans hpos)
    have hfront : Bytes.utf8Length (lead ++ read) = cursor.pos := by
      rw [hreads.pos, show (Cursor.ofString text).pos = 0 from rfl, Nat.zero_add]
    have htext : text.toList = lead ++ read ++ cursor.rest := hreads.rest
    refine ⟨?_, Checked.isValid_iff.mpr ⟨_, _, htext, hfront⟩,
      ⟨_, _, htext, hfront, ?_, ?_⟩, honly⟩
    · rw [Bytes.length_ofString, htext, Bytes.utf8Length_append (lead ++ read), hfront]
      exact Nat.le_add_right _ _
    · rw [htext, List.append_assoc] at hroot
      exact hflaw.points hlead hroot
    · obtain ⟨⟨token, hsegment⟩, hnil⟩ := hflaw.exists_segment
      have hchain := hlead.append (.last hsegment)
      obtain ⟨head, tail, hpath⟩ := List.exists_cons_of_ne_nil hchain.ne_nil
      refine ⟨⟨head, tail⟩, parse_eq_ok_iff.mpr ⟨?_, ?_, ?_⟩⟩
      · rw [String.toList_ofList, List.append_assoc, tokens, ← hpath]
        exact hchain
      · have hcount := congrArg List.length hpath
        rw [List.length_append] at hcount
        rw [length, tokens, ← hcount]
        exact hlength
      · rw [hpath] at hchain
        rw [Rooted, ← hchain.head?]
        by_cases hempty : lead ++ read = []
        · obtain ⟨rfl, hread⟩ := List.append_eq_nil_iff.mp hempty
          rw [hread, hnil hread]
          rfl
        · rw [← List.append_assoc, List.head?_append, List.head?_eq_some_head hempty]
          rwa [htext, List.head?_append, List.head?_eq_some_head hempty] at hroot

/-- The zero of a range behind a key of three bytes. -/
theorem parse_error_leftmost_zero :
    let text := "$.€[1:-0].b"
    parse 3 text = .error (.zeroUpperBound "€" 8) ∧
    ∃ front back, text.toList = front ++ back ∧ Bytes.utf8Length front = 8 ∧
      (PathError.zeroUpperBound "€" 8).Points front back ∧
      ∃ path, parse 3 (String.ofList (front ++ [']'])) = .ok path :=
  ⟨rfl, (parse_error_leftmost 3 "$.€[1:-0].b" (.zeroUpperBound "€" 8) 8 rfl rfl).2.2.1⟩

end Path

end RawJson
