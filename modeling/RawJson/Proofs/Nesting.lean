/-
Brackets matched one by one, next to the scan of a container, which counts one
kind of bracket and takes the other kind for bytes like any other. Matching
keeps a stack of the brackets that are open and gives up at a closing bracket
of the wrong kind (`afterMatching`); it comes to its end on properly nested texts
and on no others (`afterMatching_eq_some_iff`).

On such a text the count agrees with the stack, for between two brackets of
either kind it comes back to where it was (`IsNested.passes`), and so the scan
stops at the same closing bracket. A nested text that is cut short closes nothing:
had the scan come to an end in it, it would come to the same end in the whole of it
(`IsNested.afterContainer_cut`).
-/
import RawJson.Proofs.Checked.Scan
import RawJson.Proofs.Extension

namespace RawJson

/-! ## Nested texts -/

/-- Every bracket in the text is closed by one of its own kind, with nested text
between the two. Strings count as a whole. -/
inductive IsNested : Bytes → Prop where
  | nil : IsNested []
  | plain {b : UInt8} {text : Bytes} (hq : b ≠ Byte.quote)
    (hb : ∀ bracket : Bracket, b ≠ bracket.opening ∧ b ≠ bracket.closing) :
    IsNested text → IsNested (b :: text)
  | string {body text : Bytes} : IsBody body → IsNested text →
    IsNested (Byte.quote :: (body ++ Byte.quote :: text))
  | group (bracket : Bracket) {inner text : Bytes} : IsNested inner → IsNested text →
    IsNested (bracket.opening :: (inner ++ bracket.closing :: text))

/-- A container, from its opening bracket to its closing one. -/
def Bracket.around (bracket : Bracket) (text : Bytes) : Bytes :=
  bracket.opening :: (text ++ [bracket.closing])

namespace IsNested

variable {text : Bytes}

theorem append {text' : Bytes} (h : IsNested text) (h' : IsNested text') :
    IsNested (text ++ text') := by
  induction h with
  | nil => exact h'
  | plain hq hb _ ih => exact .plain hq hb ih
  | string hbody _ ih => simpa using IsNested.string hbody ih
  | group bracket hinner _ _ ih => simpa using IsNested.group bracket hinner ih

theorem around (h : IsNested text) (bracket : Bracket) : IsNested (bracket.around text) :=
  .group bracket h .nil

/-- Whichever kind of bracket is counted, the count is the same behind the text. -/
theorem passes (h : IsNested text) (bracket : Bracket) : Passes bracket text := by
  induction h with
  | nil => exact .nil
  | @plain b text hq hb _ ih =>
    have hbyte : Passes bracket [b] := .plain (by simp [hq, hb])
    exact hbyte.append ih
  | string hbody _ ih => simpa using (Passes.string hbody).append ih
  | group other _ _ hinner ih => simpa using (hinner.between other).append ih

theorem afterContainer (h : IsNested text) (bracket : Bracket) (rest : Bytes) :
    afterContainer bracket 0 (text ++ bracket.closing :: rest) = some rest := by
  rw [h.passes, afterContainer_closing_zero]

/-- No part from the front of a nested text has a closing bracket too many. -/
theorem afterContainer_cut {cut : Bytes} (h : IsNested text) (hcut : cut <+: text)
    (bracket : Bracket) : RawJson.afterContainer bracket 0 cut = none := by
  obtain ⟨more, rfl⟩ := hcut
  have hwhole : RawJson.afterContainer bracket 0 (cut ++ more) = none := by
    simpa [RawJson.afterContainer] using h.passes bracket 0 []
  cases hscan : RawJson.afterContainer bracket 0 cut with
  | none => rfl
  | some rest => simp [afterContainer_extend hscan] at hwhole

end IsNested

/-! ## Matching -/

/-- What follows a container, from inside `top`, when the brackets of `outer` are
open around that, the nearest first. A bracket can only be closed by its own
kind. -/
def afterMatching (top : Bracket) (outer : List Bracket) (doc : Bytes) : Option Bytes :=
  match doc with
  | [] => none
  | b :: rest =>
    if b = Byte.quote then
      match _h : splitString rest with
      | none => none
      | some (_, rest) => afterMatching top outer rest
    else if b = Byte.openBrace then afterMatching .brace (top :: outer) rest
    else if b = Byte.openSquare then afterMatching .square (top :: outer) rest
    else if b = top.closing then
      match outer with
      | [] => some rest
      | next :: outer => afterMatching next outer rest
    else if b = Byte.closeBrace ∨ b = Byte.closeSquare then none
    else afterMatching top outer rest
termination_by doc.length
decreasing_by
  · have := splitString_length _h
    simp only [List.length_cons]; omega
  all_goals simp

variable {top : Bracket} {outer : List Bracket}

theorem afterMatching_string {body : Bytes} (h : IsBody body) (rest : Bytes) :
    afterMatching top outer (Byte.quote :: (body ++ Byte.quote :: rest)) =
      afterMatching top outer rest := by
  rw [afterMatching.eq_def]
  dsimp only
  rw [if_pos rfl]
  split <;> simp_all [splitString_isBody h]

theorem afterMatching_opening (bracket : Bracket) (rest : Bytes) :
    afterMatching top outer (bracket.opening :: rest) =
      afterMatching bracket (top :: outer) rest := by
  rw [afterMatching.eq_def]
  cases bracket <;> rfl

theorem afterMatching_closing_last (rest : Bytes) :
    afterMatching top [] (top.closing :: rest) = some rest := by
  rw [afterMatching.eq_def]
  cases top <;> rfl

theorem afterMatching_closing_next (next : Bracket) (rest : Bytes) :
    afterMatching top (next :: outer) (top.closing :: rest) = afterMatching next outer rest := by
  rw [afterMatching.eq_def]
  cases top <;> rfl

theorem afterMatching_plain {b : UInt8} (hq : b ≠ Byte.quote)
    (hb : ∀ bracket : Bracket, b ≠ bracket.opening ∧ b ≠ bracket.closing) (rest : Bytes) :
    afterMatching top outer (b :: rest) = afterMatching top outer rest := by
  obtain ⟨hob, hcb⟩ : b ≠ Byte.openBrace ∧ b ≠ Byte.closeBrace := hb .brace
  obtain ⟨hos, hcs⟩ : b ≠ Byte.openSquare ∧ b ≠ Byte.closeSquare := hb .square
  rw [afterMatching.eq_def]
  simp [hq, hob, hos, hcb, hcs, (hb top).2]

theorem IsNested.afterMatching {text : Bytes} (h : IsNested text) (rest : Bytes) :
    afterMatching top outer (text ++ rest) = RawJson.afterMatching top outer rest := by
  induction h generalizing top outer rest with
  | nil => rfl
  | plain hq hb _ ih => rw [List.cons_append, afterMatching_plain hq hb, ih]
  | string hbody _ ih =>
    rw [List.cons_append, List.append_assoc, List.cons_append, afterMatching_string hbody, ih]
  | group bracket _ _ hinner ih =>
    rw [List.cons_append, List.append_assoc, List.cons_append, afterMatching_opening, hinner,
      afterMatching_closing_next, ih]

/-- A text that closes `top` and then the brackets around it, one after another,
and is over with the last of them. -/
inductive Unwinds : Bracket → List Bracket → Bytes → Prop where
  | last {top : Bracket} {text : Bytes} : IsNested text →
    Unwinds top [] (text ++ [top.closing])
  | next {top next : Bracket} {outer : List Bracket} {text more : Bytes} : IsNested text →
    Unwinds next outer more → Unwinds top (next :: outer) (text ++ top.closing :: more)

namespace Unwinds

variable {text : Bytes}

theorem closing {next : Bracket} (h : Unwinds next outer text) :
    Unwinds top (next :: outer) (top.closing :: text) :=
  .next .nil h

theorem nested {front : Bytes} (hfront : IsNested front) (h : Unwinds top outer text) :
    Unwinds top outer (front ++ text) := by
  cases h with
  | last htext => simpa using Unwinds.last (hfront.append htext)
  | next htext hmore => simpa using Unwinds.next (hfront.append htext) hmore

theorem opening {bracket : Bracket} (h : Unwinds bracket (top :: outer) text) :
    Unwinds top outer (bracket.opening :: text) := by
  cases h with
  | next htext hmore => simpa [Bracket.around] using hmore.nested (htext.around bracket)

end Unwinds

theorem unwinds_of_afterMatching {doc rest : Bytes}
    (h : afterMatching top outer doc = some rest) :
    ∃ text, Unwinds top outer text ∧ doc = text ++ rest := by
  -- What is still to be closed is the stack: each byte is put in front of a text that
  -- closes the stack behind it.
  fun_induction RawJson.afterMatching top outer doc with
  | case1 => cases h
  | case2 => cases h
  | case3 top outer doc body beyond hs ih =>
    obtain ⟨hbody, rfl⟩ := splitString_eq_some_iff.mp hs
    obtain ⟨text, htext, rfl⟩ := ih h
    exact ⟨_, htext.nested (.string hbody .nil), by simp⟩
  | case4 top outer doc hq ih =>
    obtain ⟨text, htext, rfl⟩ := ih h
    exact ⟨_, htext.opening, rfl⟩
  | case5 top outer doc hq hb ih =>
    obtain ⟨text, htext, rfl⟩ := ih h
    exact ⟨_, htext.opening, rfl⟩
  | case6 top doc hq hb hs =>
    cases h
    exact ⟨_, .last .nil, rfl⟩
  | case7 top doc hq hb hs next outer ih =>
    obtain ⟨text, htext, rfl⟩ := ih h
    exact ⟨_, htext.closing, rfl⟩
  | case8 => cases h
  | case9 top outer b doc hq hob hos htop hclose ih =>
    obtain ⟨text, htext, rfl⟩ := ih h
    obtain ⟨hcb, hcs⟩ := not_or.mp hclose
    have hb : ∀ bracket : Bracket, b ≠ bracket.opening ∧ b ≠ bracket.closing
      | .brace => ⟨hob, hcb⟩
      | .square => ⟨hos, hcs⟩
    exact ⟨_, htext.nested (.plain hq hb .nil), rfl⟩

/-- **Matching comes to its end behind a nested text**, at the bracket that closes
the container, and nowhere else. -/
theorem afterMatching_eq_some_iff {doc rest : Bytes} :
    afterMatching top [] doc = some rest ↔
      ∃ text, IsNested text ∧ doc = text ++ top.closing :: rest := by
  constructor
  · intro h
    obtain ⟨_, htext, rfl⟩ := unwinds_of_afterMatching h
    cases htext with
    | last htext => exact ⟨_, htext, by simp⟩
  · rintro ⟨text, htext, rfl⟩
    rw [htext.afterMatching, afterMatching_closing_last]

/-- Matching tells whether a text is nested, inside a container of either kind. -/
theorem isNested_iff (top : Bracket) {text : Bytes} :
    IsNested text ↔ afterMatching top [] (text ++ [top.closing]) = some [] := by
  rw [afterMatching_eq_some_iff]
  constructor
  · exact fun h => ⟨text, h, rfl⟩
  · rintro ⟨text', h, heq⟩
    rwa [List.append_cancel_right heq]

instance : DecidablePred IsNested := fun _ => decidable_of_iff _ (isNested_iff .brace).symm

/-- Brackets that cross are not nested, although those of each kind are balanced. -/
example : ¬IsNested (Bytes.ofString "[\x7b]\x7d") := by decide +kernel

/-! ## Values -/

theorem afterValue_opening (bracket : Bracket) (rest : Bytes) :
    afterValue (bracket.opening :: rest) = match afterContainer bracket 0 rest with
      | none => .error (.unexpectedEnd bracket.region)
      | some rest => .ok rest := by
  have hsep : Byte.isSeparator bracket.opening = false := by cases bracket <;> rfl
  rw [afterValue, afterGap_cons hsep]
  exact afterToken_opening bracket rest

theorem IsNested.afterValue {text : Bytes} (h : IsNested text) (bracket : Bracket)
    (rest : Bytes) : afterValue (bracket.around text ++ rest) = .ok rest := by
  have hscan := h.afterContainer bracket rest
  rw [Bracket.around, List.cons_append, List.append_assoc, List.singleton_append,
    afterValue_opening, hscan]

/-- Wherever the container is cut short, also inside a string, that is what is
reported. -/
theorem IsNested.afterValue_cut {text cut : Bytes} {bracket : Bracket} (h : IsNested text)
    (hne : cut ≠ []) (hcut : cut <+: bracket.around text) (hshort : cut ≠ bracket.around text) :
    RawJson.afterValue cut = .error (.unexpectedEnd bracket.region) := by
  obtain ⟨b, cut, rfl⟩ := List.exists_cons_of_ne_nil hne
  obtain ⟨rfl, hinner⟩ := List.cons_prefix_cons.mp hcut
  rcases List.prefix_concat_iff.mp hinner with rfl | hopen
  · exact absurd rfl hshort
  · rw [afterValue_opening, h.afterContainer_cut hopen]

theorem Checked.skipValue_append {front doc : Bytes}
    (hlength : (front ++ doc).length < Decimal.signedLimit) :
    skipValue (front ++ doc) front.length =
      done ((RawJson.afterValue doc).map (position (front ++ doc))) := by
  have hstart : position (front ++ doc) doc = front.length := by simp [position]
  rw [← skipValue_eq hlength (List.suffix_append front doc), hstart]

/-- **Counting one kind of bracket finds the bracket that matching finds.** Where
matching, which keeps every bracket that is open, comes to the end of a container,
the scan that counts comes to the same end. So it does on every properly nested text
between two brackets, whatever follows: wherever in a buffer the container stands,
the scan stops just past its closing bracket. And if any part from the front of it is
all there is, the scan reports that a container of its kind was cut short. -/
theorem counting_matches (bracket : Bracket) :
    (∀ doc rest : Bytes, afterMatching bracket [] doc = some rest →
      afterValue (bracket.opening :: doc) = .ok rest) ∧
    ∀ text : Bytes, IsNested text →
      (∀ front rest : Bytes,
        afterMatching bracket [] (text ++ bracket.closing :: rest) = some rest ∧
        afterValue (bracket.around text ++ rest) = .ok rest ∧
        ((front ++ (bracket.around text ++ rest)).length < Decimal.signedLimit →
          Checked.skipValue (front ++ (bracket.around text ++ rest)) front.length =
            Checked.done (.ok (front.length + (bracket.around text).length)))) ∧
      ∀ front cut : Bytes, cut ≠ [] → cut <+: bracket.around text → cut ≠ bracket.around text →
        afterValue cut = .error (.unexpectedEnd bracket.region) ∧
        ((front ++ cut).length < Decimal.signedLimit →
          Checked.skipValue (front ++ cut) front.length =
            Checked.done (.error (.unexpectedEnd bracket.region))) := by
  constructor
  · intro doc rest hmatching
    obtain ⟨text, htext, rfl⟩ := afterMatching_eq_some_iff.mp hmatching
    simpa [Bracket.around] using htext.afterValue bracket rest
  intro text htext
  constructor
  · intro front rest
    have hvalue := htext.afterValue bracket rest
    refine ⟨afterMatching_eq_some_iff.mpr ⟨text, htext, rfl⟩, hvalue, fun hlength => ?_⟩
    have hstop : Checked.position (front ++ (bracket.around text ++ rest)) rest =
        front.length + (bracket.around text).length := by
      simp only [Checked.position, List.length_append]; omega
    rw [Checked.skipValue_append hlength, hvalue, Except.map, hstop]
  · intro front cut hne hcut hshort
    have hvalue := htext.afterValue_cut hne hcut hshort
    refine ⟨hvalue, fun hlength => ?_⟩
    rw [Checked.skipValue_append hlength, hvalue, Except.map]

/-- An array in an array behind a string with brackets and an escaped quote, and a
cut behind the backslash. -/
theorem counting_matches_mixed :
    afterValue (Bytes.ofString "[\x7b\"]\\\"\":[]\x7d]]") = .ok (Bytes.ofString "]") ∧
    IsNested (Bytes.ofString "\x7b\"]\\\"\":[]\x7d") ∧
    Checked.skipValue (Bytes.ofString "x[\x7b\"]\\\"\":[]\x7d]]") 1 = Checked.done (.ok 13) ∧
    afterValue (Bytes.ofString "[\x7b\"]\\") = .error (.unexpectedEnd .array) := by
  have hnested : IsNested (Bytes.ofString "\x7b\"]\\\"\":[]\x7d") := by decide +kernel
  obtain ⟨hmatching, hcontainers⟩ := counting_matches .square
  obtain ⟨hwhole, hcut⟩ := hcontainers _ hnested
  obtain ⟨-, -, hscan⟩ := hwhole (Bytes.ofString "x") (Bytes.ofString "]")
  obtain ⟨hopen, -⟩ := hcut [] (Bytes.ofString "[\x7b\"]\\") (by decide) (by decide) (by decide)
  exact ⟨hmatching _ _ (by decide +kernel), hnested, hscan (by decide), hopen⟩

end RawJson
