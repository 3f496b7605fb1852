/-
What a scan reads, described without the scan. `splitString`,
`afterContainer` and `afterToken` take a document and give what is left of
it; the text they pass on the way is here a text of its own: the body of a
string (`IsBody`), the inside of a container up to its last bracket
(`Closes`), a value behind its first byte (`IsToken`).

Each scan then has one equation: it stops at `rest` exactly when its document
is such a text and then `rest` (`splitString_eq_some_iff`,
`afterContainer_eq_some_iff`, `afterToken_eq_ok_iff`). Only a bare scalar
looks at what comes behind it, since its end is where something else begins.
-/
import RawJson.Scan

namespace RawJson

/-! ## Gaps -/

theorem Byte.isSeparator_of_endsScalar {b : UInt8} (h : Byte.endsScalar b = false) :
    Byte.isSeparator b = false := by
  rw [Byte.endsScalar, Bool.or_eq_false_iff, Bool.or_eq_false_iff] at h
  exact h.1.1

/-- A gap is passed whole. -/
theorem afterGap_append {gap : Bytes} (hg : ∀ b ∈ gap, Byte.isSeparator b = true) (doc : Bytes) :
    afterGap (gap ++ doc) = afterGap doc := by
  unfold afterGap
  rw [List.dropWhile_append_of_pos hg]

theorem afterGap_cons {b : UInt8} (hb : Byte.isSeparator b = false) (rest : Bytes) :
    afterGap (b :: rest) = .ok (b, rest) := by
  simp [afterGap, hb]

/-- What stands in front of the byte that ends a gap is the gap. -/
theorem afterGap_eq_ok_iff {doc rest : Bytes} {b : UInt8} :
    afterGap doc = .ok (b, rest) ↔
      ∃ gap, (∀ c ∈ gap, Byte.isSeparator c = true) ∧ Byte.isSeparator b = false ∧
        doc = gap ++ b :: rest := by
  constructor
  · intro h
    refine ⟨doc.takeWhile Byte.isSeparator,
      fun c hc => List.all_eq_true.mp List.all_takeWhile c hc, ?_⟩
    have hsplit := List.takeWhile_append_dropWhile (p := Byte.isSeparator) (l := doc)
    have hhead := List.head?_dropWhile_not Byte.isSeparator doc
    unfold afterGap at h
    split at h
    · simp at h
    · next c more hdrop =>
      simp only [Except.ok.injEq, Prod.mk.injEq] at h
      obtain ⟨rfl, rfl⟩ := h
      rw [hdrop] at hsplit hhead
      exact ⟨by simpa using hhead, hsplit.symm⟩
  · rintro ⟨gap, hg, hb, rfl⟩
    rw [afterGap_append hg, afterGap_cons hb]

/-- A gap can only fail for want of anything behind it. -/
theorem afterGap_error {doc : Bytes} {fault : Fault} (h : afterGap doc = .error fault) :
    fault = .unexpectedEnd .input := by
  unfold afterGap at h
  split at h
  · simp only [Except.error.injEq] at h
    exact h.symm
  · simp at h

/-! ## Strings -/

/-- The text between the quotes of a string: plain bytes, and backslashes
each with the byte it escapes. -/
inductive IsBody : Bytes → Prop where
  | nil : IsBody []
  | plain {b : UInt8} {body : Bytes} (hq : b ≠ Byte.quote) (hb : b ≠ Byte.backslash) :
    IsBody body → IsBody (b :: body)
  | escaped {b : UInt8} {body : Bytes} : IsBody body → IsBody (Byte.backslash :: b :: body)

theorem IsBody.splitStringFrom {body : Bytes} (h : IsBody body) (taken rest : Bytes) :
    splitStringFrom taken false (body ++ Byte.quote :: rest) =
      some (taken.reverse ++ body, rest) := by
  induction h generalizing taken with
  | nil => simp [RawJson.splitStringFrom]
  | plain hq hb _ ih =>
    have hb' : (_ == Byte.backslash) = false := beq_eq_false_iff_ne.mpr hb
    simp only [List.cons_append, RawJson.splitStringFrom, hq, hb', ih]
    simp
  | escaped _ ih =>
    have hq : Byte.backslash ≠ Byte.quote := by decide
    simp only [List.cons_append, RawJson.splitStringFrom, hq, beq_self_eq_true, ih]
    simp

/-- A scan that stands behind a backslash takes one byte as it comes. -/
theorem isBody_of_splitStringFrom {taken doc text rest : Bytes} {escaped : Bool}
    (h : splitStringFrom taken escaped doc = some (text, rest)) :
    ∃ body, (escaped = false → IsBody body) ∧ (escaped = true → IsBody (Byte.backslash :: body)) ∧
      text = taken.reverse ++ body ∧ doc = body ++ Byte.quote :: rest := by
  fun_induction RawJson.splitStringFrom taken escaped doc with
  | case1 => simp at h
  | case2 taken b doc ih =>
    obtain ⟨body, hbody, -, rfl, rfl⟩ := ih h
    exact ⟨b :: body, by simp, fun _ => .escaped (hbody rfl), by simp, rfl⟩
  | case3 taken escaped doc he =>
    simp only [Option.some.injEq, Prod.mk.injEq] at h
    obtain ⟨rfl, rfl⟩ := h
    exact ⟨[], fun _ => .nil, fun hf => absurd hf he, by simp, rfl⟩
  | case4 taken escaped b doc he hq ih =>
    obtain ⟨body, hplain, hescaped, rfl, rfl⟩ := ih h
    refine ⟨b :: body, fun _ => ?_, fun hf => absurd hf he, by simp, rfl⟩
    by_cases hb : b = Byte.backslash
    · exact hb ▸ hescaped (by simp [hb])
    · exact .plain hq hb (hplain (by simp [hb]))

/-- **The extent of a string**: it ends at the first quote that is not
escaped. -/
theorem splitString_eq_some_iff {doc body rest : Bytes} :
    splitString doc = some (body, rest) ↔ IsBody body ∧ doc = body ++ Byte.quote :: rest := by
  constructor
  · intro h
    obtain ⟨text, htext, -, rfl, rfl⟩ := isBody_of_splitStringFrom h
    exact ⟨htext rfl, rfl⟩
  · rintro ⟨h, rfl⟩
    exact h.splitStringFrom [] rest

theorem splitString_isBody {body : Bytes} (h : IsBody body) (rest : Bytes) :
    splitString (body ++ Byte.quote :: rest) = some (body, rest) :=
  splitString_eq_some_iff.mpr ⟨h, rfl⟩

/-! ## Containers -/

/-- A text that leads from inside `depth + 1` open brackets of one kind to just
past the bracket that closes the outermost. Strings count as a whole, and
brackets of the other kind do not count. -/
inductive Closes (bracket : Bracket) : Nat → Bytes → Prop where
  | last : Closes bracket 0 [bracket.closing]
  | closing {depth : Nat} {text : Bytes} :
    Closes bracket depth text → Closes bracket (depth + 1) (bracket.closing :: text)
  | opening {depth : Nat} {text : Bytes} :
    Closes bracket (depth + 1) text → Closes bracket depth (bracket.opening :: text)
  | string {depth : Nat} {body text : Bytes} :
    IsBody body → Closes bracket depth text →
      Closes bracket depth (Byte.quote :: (body ++ Byte.quote :: text))
  | other {depth : Nat} {b : UInt8} {text : Bytes} (hq : b ≠ Byte.quote)
    (ho : b ≠ bracket.opening) (hc : b ≠ bracket.closing) :
    Closes bracket depth text → Closes bracket depth (b :: text)

namespace Bracket

@[simp] theorem opening_ne_quote (bracket : Bracket) : bracket.opening ≠ Byte.quote := by
  cases bracket <;> decide

@[simp] theorem closing_ne_quote (bracket : Bracket) : bracket.closing ≠ Byte.quote := by
  cases bracket <;> decide

@[simp] theorem closing_ne_opening (bracket : Bracket) : bracket.closing ≠ bracket.opening := by
  cases bracket <;> decide

end Bracket

/-! One step of a scan of a container, byte by byte. -/

variable {bracket : Bracket} {depth : Nat}

theorem afterContainer_quote (rest : Bytes) :
    afterContainer bracket depth (Byte.quote :: rest) =
      (splitString rest).bind fun split => afterContainer bracket depth split.2 := by
  rw [afterContainer.eq_def]
  dsimp only
  rw [if_pos rfl]
  split
  · next h => rw [h]; rfl
  · next h => rw [h]; rfl

theorem afterContainer_string {body : Bytes} (h : IsBody body) (rest : Bytes) :
    afterContainer bracket depth (Byte.quote :: (body ++ Byte.quote :: rest)) =
      afterContainer bracket depth rest := by
  rw [afterContainer_quote, splitString_isBody h, Option.bind_some]

theorem afterContainer_opening (rest : Bytes) :
    afterContainer bracket depth (bracket.opening :: rest) =
      afterContainer bracket (depth + 1) rest := by
  rw [afterContainer.eq_def]
  dsimp only
  rw [if_neg bracket.opening_ne_quote, if_pos rfl]

theorem afterContainer_closing_zero (rest : Bytes) :
    afterContainer bracket 0 (bracket.closing :: rest) = some rest := by
  rw [afterContainer, if_neg bracket.closing_ne_quote, if_neg bracket.closing_ne_opening,
    if_pos rfl]

theorem afterContainer_closing_succ (rest : Bytes) :
    afterContainer bracket (depth + 1) (bracket.closing :: rest) =
      afterContainer bracket depth rest := by
  rw [afterContainer, if_neg bracket.closing_ne_quote, if_neg bracket.closing_ne_opening,
    if_pos rfl]

theorem afterContainer_other {b : UInt8} (hq : b ≠ Byte.quote) (ho : b ≠ bracket.opening)
    (hc : b ≠ bracket.closing) (rest : Bytes) :
    afterContainer bracket depth (b :: rest) = afterContainer bracket depth rest := by
  rw [afterContainer.eq_def]
  dsimp only
  rw [if_neg hq, if_neg ho, if_neg hc]

theorem Closes.afterContainer {text : Bytes} (h : Closes bracket depth text) (rest : Bytes) :
    afterContainer bracket depth (text ++ rest) = some rest := by
  induction h with
  | last => exact afterContainer_closing_zero rest
  | closing _ ih => rw [List.cons_append, afterContainer_closing_succ, ih]
  | opening _ ih => rw [List.cons_append, afterContainer_opening, ih]
  | string hbody _ ih =>
    rw [List.cons_append, List.append_assoc, List.cons_append, afterContainer_string hbody, ih]
  | other hq ho hc _ ih => rw [List.cons_append, afterContainer_other hq ho hc, ih]

theorem closes_of_afterContainer {doc rest : Bytes}
    (h : afterContainer bracket depth doc = some rest) :
    ∃ text, Closes bracket depth text ∧ doc = text ++ rest := by
  fun_induction RawJson.afterContainer bracket depth doc with
  | case1 => simp at h
  | case2 => simp at h
  | case3 depth doc body beyond hs ih =>
    obtain ⟨hbody, rfl⟩ := splitString_eq_some_iff.mp hs
    obtain ⟨text, htext, rfl⟩ := ih h
    exact ⟨Byte.quote :: (body ++ Byte.quote :: text), .string hbody htext, by simp⟩
  | case4 depth doc hq ih =>
    obtain ⟨text, htext, rfl⟩ := ih h
    exact ⟨bracket.opening :: text, .opening htext, rfl⟩
  | case5 doc hq ho =>
    simp only [Option.some.injEq] at h
    exact ⟨[bracket.closing], .last, by simp [h]⟩
  | case6 doc hq ho depth ih =>
    obtain ⟨text, htext, rfl⟩ := ih h
    exact ⟨bracket.closing :: text, .closing htext, rfl⟩
  | case7 depth b doc hq ho hc ih =>
    obtain ⟨text, htext, rfl⟩ := ih h
    exact ⟨b :: text, .other hq ho hc htext, rfl⟩

/-- **The extent of a container**: it ends at the bracket that balances the one
that opened it. -/
theorem afterContainer_eq_some_iff {doc rest : Bytes} :
    afterContainer bracket depth doc = some rest ↔
      ∃ text, Closes bracket depth text ∧ doc = text ++ rest := by
  constructor
  · exact closes_of_afterContainer
  · rintro ⟨text, h, rfl⟩
    exact h.afterContainer rest

/-! ## Texts a container scan passes over -/

/-- A scan of a container goes over this text at any depth and comes out at the
same depth. -/
def Passes (bracket : Bracket) (text : Bytes) : Prop :=
  ∀ depth rest, afterContainer bracket depth (text ++ rest) = afterContainer bracket depth rest

theorem Passes.nil : Passes bracket [] := fun _ _ => rfl

theorem Passes.append {text text' : Bytes} (h : Passes bracket text) (h' : Passes bracket text') :
    Passes bracket (text ++ text') := by
  intro depth rest
  rw [List.append_assoc, h, h']

theorem Passes.plain {text : Bytes} (h : ∀ b ∈ text, b ≠ Byte.quote ∧ b ≠ bracket.opening ∧
    b ≠ bracket.closing) : Passes bracket text := by
  intro depth rest
  induction text with
  | nil => rfl
  | cons b text ih =>
    obtain ⟨hq, ho, hc⟩ := h b (by simp)
    rw [List.cons_append, afterContainer_other hq ho hc]
    exact ih fun c hc => h c (by simp [hc])

theorem Passes.string {body : Bytes} (h : IsBody body) :
    Passes bracket (Byte.quote :: (body ++ [Byte.quote])) := by
  intro depth rest
  rw [List.cons_append, List.append_assoc, List.singleton_append, afterContainer_string h]

/-- A text between brackets of either kind: those of the kind that is counted
cancel, those of the other are bytes like any other. -/
theorem Passes.between {text : Bytes} (h : Passes bracket text) (other : Bracket) :
    Passes bracket (other.opening :: (text ++ [other.closing])) := by
  intro depth rest
  rw [List.cons_append, List.append_assoc, List.singleton_append]
  by_cases ho : bracket = other
  · subst ho
    rw [afterContainer_opening, h, afterContainer_closing_succ]
  · have hopen : other.opening ≠ bracket.opening ∧ other.opening ≠ bracket.closing := by
      cases bracket <;> cases other <;> first | exact absurd rfl ho | decide
    have hclose : other.closing ≠ bracket.opening ∧ other.closing ≠ bracket.closing := by
      cases bracket <;> cases other <;> first | exact absurd rfl ho | decide
    rw [afterContainer_other other.opening_ne_quote hopen.1 hopen.2, h,
      afterContainer_other other.closing_ne_quote hclose.1 hclose.2]

theorem Passes.closes {text : Bytes} (h : Passes bracket text) :
    Closes bracket 0 (text ++ [bracket.closing]) := by
  have hscan : afterContainer bracket 0 (text ++ [bracket.closing]) = some [] := by
    rw [h, afterContainer_closing_zero]
  obtain ⟨inner, hinner, heq⟩ := closes_of_afterContainer hscan
  rw [heq, List.append_nil]
  exact hinner

/-! ## Values -/

/-- A bare scalar can start with this byte: it is no quote, no opening bracket
and no end of a scalar. -/
def Byte.startsScalar (b : UInt8) : Bool :=
  !(b == Byte.quote || b == Byte.openBrace || b == Byte.openSquare || Byte.endsScalar b)

/-- The text of a value behind its first byte. -/
inductive IsToken : UInt8 → Bytes → Prop where
  | string {body : Bytes} : IsBody body → IsToken Byte.quote (body ++ [Byte.quote])
  | container (bracket : Bracket) {text : Bytes} :
    Closes bracket 0 text → IsToken bracket.opening text
  | scalar {b : UInt8} {text : Bytes} : Byte.startsScalar b = true →
    (∀ c ∈ text, Byte.endsScalar c = false) → IsToken b text

/-- Nothing follows, or a byte that ends a scalar. -/
def Delimited (rest : Bytes) : Prop := ∀ b ∈ rest.head?, Byte.endsScalar b = true

theorem delimited_nil : Delimited [] := by simp [Delimited]

theorem delimited_cons {b : UInt8} {rest : Bytes} :
    Delimited (b :: rest) ↔ Byte.endsScalar b = true := by
  simp [Delimited]

instance : DecidablePred Delimited
  | [] => .isTrue delimited_nil
  | b :: _ => decidable_of_iff (Byte.endsScalar b = true) delimited_cons.symm

theorem Delimited.append {text : Bytes} (h : Delimited text) (hne : text ≠ []) (rest : Bytes) :
    Delimited (text ++ rest) := by
  obtain ⟨b, text, rfl⟩ := List.exists_cons_of_ne_nil hne
  rw [List.cons_append, delimited_cons]
  exact delimited_cons.mp h

/-- The four ways a value can start, the last of them wrong. -/
theorem Byte.lead_cases (b : UInt8) :
    b = Byte.quote ∨ (∃ bracket : Bracket, b = bracket.opening) ∨ Byte.startsScalar b = true ∨
      Byte.endsScalar b = true := by
  by_cases hq : b = Byte.quote
  · exact .inl hq
  by_cases hb : b = Byte.openBrace
  · exact .inr (.inl ⟨.brace, hb⟩)
  by_cases hs : b = Byte.openSquare
  · exact .inr (.inl ⟨.square, hs⟩)
  cases he : Byte.endsScalar b with
  | true => exact .inr (.inr (.inr rfl))
  | false => exact .inr (.inr (.inl (by simp [Byte.startsScalar, hq, hb, hs, he])))

theorem Byte.startsScalar_iff {b : UInt8} :
    Byte.startsScalar b = true ↔ b ≠ Byte.quote ∧ b ≠ Byte.openBrace ∧ b ≠ Byte.openSquare ∧
      Byte.endsScalar b = false := by
  simp [Byte.startsScalar, and_assoc]

theorem Byte.startsScalar_opening (bracket : Bracket) :
    Byte.startsScalar bracket.opening = false := by
  cases bracket <;> decide

theorem afterToken_quote (rest : Bytes) :
    afterToken Byte.quote rest = match splitString rest with
      | none => .error (.unexpectedEnd .string)
      | some (_, rest) => .ok rest := by
  unfold afterToken
  exact if_pos rfl

theorem afterToken_opening (bracket : Bracket) (rest : Bytes) :
    afterToken bracket.opening rest = match afterContainer bracket 0 rest with
      | none => .error (.unexpectedEnd bracket.region)
      | some rest => .ok rest := by
  cases bracket <;> rfl

theorem afterToken_scalar {b : UInt8} (h : Byte.startsScalar b = true) (rest : Bytes) :
    afterToken b rest = .ok (afterScalar rest) := by
  obtain ⟨hq, hb, hs, he⟩ := Byte.startsScalar_iff.mp h
  simp [afterToken, hq, hb, hs, he]

theorem afterToken_endsScalar {b : UInt8} (h : Byte.endsScalar b = true) (rest : Bytes) :
    afterToken b rest = .error (.unexpectedByte b .value) := by
  have hq : b ≠ Byte.quote := by rintro rfl; revert h; decide
  have hb : b ≠ Byte.openBrace := by rintro rfl; revert h; decide
  have hs : b ≠ Byte.openSquare := by rintro rfl; revert h; decide
  simp [afterToken, hq, hb, hs, h]

theorem afterScalar_append {text : Bytes} (h : ∀ c ∈ text, Byte.endsScalar c = false)
    (rest : Bytes) : afterScalar (text ++ rest) = afterScalar rest := by
  unfold afterScalar
  exact List.dropWhile_append_of_pos fun c hc => by simp [h c hc]

theorem afterScalar_of_delimited {rest : Bytes} (h : Delimited rest) : afterScalar rest = rest := by
  cases rest with
  | nil => rfl
  | cons b rest => simp [afterScalar, delimited_cons.mp h]

theorem afterScalar_eq_nil_iff {text : Bytes} :
    afterScalar text = [] ↔ ∀ c ∈ text, Byte.endsScalar c = false := by
  constructor
  · intro h c hc
    have hsplit := List.takeWhile_append_dropWhile (p := fun b => !Byte.endsScalar b) (l := text)
    rw [show text.dropWhile (fun b => !Byte.endsScalar b) = [] from h, List.append_nil] at hsplit
    rw [← hsplit] at hc
    simpa using List.all_eq_true.mp List.all_takeWhile c hc
  · intro h
    rw [← List.append_nil text, afterScalar_append h]
    rfl

theorem delimited_afterScalar (rest : Bytes) : Delimited (afterScalar rest) := by
  intro b hb
  have := List.head?_dropWhile_not (fun b => !Byte.endsScalar b) rest
  rw [afterScalar, Option.mem_def] at hb
  rw [hb] at this
  simpa using this

theorem IsToken.lead {b : UInt8} {text : Bytes} (h : IsToken b text) :
    Byte.endsScalar b = false := by
  cases h with
  | string => decide
  | container bracket => cases bracket <;> decide
  | scalar hb => exact (Byte.startsScalar_iff.mp hb).2.2.2

theorem IsToken.afterToken {b : UInt8} {text rest : Bytes} (h : IsToken b text)
    (hd : Byte.startsScalar b = true → Delimited rest) :
    afterToken b (text ++ rest) = .ok rest := by
  cases h with
  | string hbody =>
    rw [afterToken_quote, List.append_assoc, List.singleton_append, splitString_isBody hbody]
  | container bracket htext => rw [afterToken_opening, htext.afterContainer]
  | scalar hb htext =>
    rw [afterToken_scalar hb, afterScalar_append htext, afterScalar_of_delimited (hd hb)]

/-- **The extent of a value**: what a scan of it passes is the text of a value,
and goes up to a delimiter where the value is a bare scalar. -/
theorem afterToken_eq_ok_iff {b : UInt8} {doc rest : Bytes} :
    afterToken b doc = .ok rest ↔
      ∃ text, IsToken b text ∧ doc = text ++ rest ∧
        (Byte.startsScalar b = true → Delimited rest) := by
  constructor
  · intro h
    rcases Byte.lead_cases b with rfl | ⟨bracket, rfl⟩ | hb | hb
    · rw [afterToken_quote] at h
      split at h
      · simp at h
      · next body beyond hs =>
        obtain ⟨hbody, rfl⟩ := splitString_eq_some_iff.mp hs
        simp only [Except.ok.injEq] at h
        exact ⟨body ++ [Byte.quote], .string hbody, by simp [h], by simp [Byte.startsScalar]⟩
    · rw [afterToken_opening] at h
      split at h
      · simp at h
      · next beyond hs =>
        obtain ⟨text, htext, rfl⟩ := afterContainer_eq_some_iff.mp hs
        simp only [Except.ok.injEq] at h
        exact ⟨text, .container bracket htext, by rw [h], by simp [Byte.startsScalar_opening]⟩
    · rw [afterToken_scalar hb, Except.ok.injEq] at h
      subst h
      refine ⟨doc.takeWhile fun b => !Byte.endsScalar b, .scalar hb fun c hc => ?_, ?_,
        fun _ => delimited_afterScalar doc⟩
      · simpa using List.all_eq_true.mp List.all_takeWhile c hc
      · exact List.takeWhile_append_dropWhile.symm
    · rw [afterToken_endsScalar hb] at h
      simp at h
  · rintro ⟨text, htext, rfl, hd⟩
    exact htext.afterToken hd

/-! ## What a scan leaves is the end of what it was given -/

theorem afterGap_suffix {doc rest : Bytes} {b : UInt8} (h : afterGap doc = .ok (b, rest)) :
    b :: rest <:+ doc := by
  obtain ⟨gap, -, -, rfl⟩ := afterGap_eq_ok_iff.mp h
  exact List.suffix_append gap _

theorem splitString_suffix {doc body rest : Bytes} (h : splitString doc = some (body, rest)) :
    rest <:+ doc := by
  obtain ⟨-, rfl⟩ := splitString_eq_some_iff.mp h
  exact (List.suffix_cons _ rest).trans (List.suffix_append body _)

theorem afterToken_suffix {b : UInt8} {doc rest : Bytes} (h : afterToken b doc = .ok rest) :
    rest <:+ doc := by
  obtain ⟨text, -, rfl, -⟩ := afterToken_eq_ok_iff.mp h
  exact List.suffix_append text rest

theorem afterValue_suffix {doc rest : Bytes} (h : afterValue doc = .ok rest) : rest <:+ doc := by
  unfold afterValue at h
  split at h
  · exact nomatch h
  · next hgap =>
    exact (afterToken_suffix h).trans ((List.suffix_cons _ _).trans (afterGap_suffix hgap))

end RawJson
