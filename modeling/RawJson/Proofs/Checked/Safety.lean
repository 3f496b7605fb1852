/-
No text and no document makes a program go wrong: neither the reading of a path
nor the following of one ever misses its buffer, cuts a character in two, counts
below zero or beyond 64 bits, or goes on for ever. The outcomes of the whole
programs say so at once (`compile_eq`, `getValue_eq`). What the loops owe their
ends to is said by itself: no scan goes back or past the end of its buffer, and
every round of a loop over members or elements goes forward.
-/
import RawJson.Proofs.Checked.Lookup
import RawJson.Proofs.Checked.Path

namespace RawJson.Checked

variable {input : Bytes}

/-! ## Scans stay within their buffer -/

/-- Wherever the scan starts, it never goes back, and never past the end. -/
def StaysWithin (input : Bytes) (scan : Nat → Checked Fault Nat) : Prop :=
  ∀ i j, scan i = done (.ok j) → i ≤ j ∧ j ≤ input.length

theorem position_le_of_suffix {i : Nat} {rest : Bytes} (h : rest <:+ input.drop i)
    (hi : i ≤ input.length) : i ≤ position input rest ∧ position input rest ≤ input.length := by
  have hmono := position_mono input h
  rw [position_drop hi] at hmono
  exact ⟨hmono, position_le input rest⟩

/-- A scan that comes from each byte to a suffix, and fails at the end. -/
theorem StaysWithin.of_suffix {scan : Nat → Checked Fault Nat}
    (hscan : ∀ b rest j, b :: rest <:+ input → scan (position input (b :: rest)) = done (.ok j) →
      ∃ beyond, beyond <:+ b :: rest ∧ position input beyond = j)
    (hend : ∀ i j, input.length ≤ i → scan i ≠ done (.ok j)) : StaysWithin input scan := by
  intro i j h
  rcases Nat.lt_or_ge i input.length with hlt | hge
  · have hdrop := List.drop_eq_getElem_cons hlt
    have hsuffix : input[i] :: input.drop (i + 1) <:+ input := by
      rw [← hdrop]
      exact List.drop_suffix i input
    rw [← position_drop (Nat.le_of_lt hlt), hdrop] at h
    obtain ⟨beyond, hbeyond, rfl⟩ := hscan _ _ _ hsuffix h
    rw [← hdrop] at hbeyond
    exact position_le_of_suffix hbeyond (Nat.le_of_lt hlt)
  · exact absurd h (hend i j hge)

theorem skipSpaces_end {i : Nat} (h : input.length ≤ i) :
    skipSpaces input i = done (.error (.unexpectedEnd .input)) := by
  rw [skipSpaces, skipWhile_end _ h, done_ok_bind, if_pos h, throw_eq_done]

theorem add_eq_done {ε : Type} {a b c : Nat} (h : (add a b : Checked ε Nat) = done (.ok c)) :
    c = a + b := by
  unfold add at h
  split at h
  · exact (Except.ok.inj (done_inj.mp h)).symm
  · exact absurd h (ofOption_none_ne _)

theorem skipSpaces_staysWithin (hlength : input.length < Decimal.signedLimit) :
    StaysWithin input (skipSpaces input) := by
  refine .of_suffix ?_ ?_
  · intro b rest j hsuffix h
    rw [skipSpaces_eq hlength hsuffix] at h
    obtain ⟨next, hgap, rfl⟩ := map_eq_ok_iff.mp (done_inj.mp h)
    exact ⟨_, afterGap_suffix hgap, rfl⟩
  · intro i j hge
    rw [skipSpaces_end hge]
    exact done_error_ne _ _

theorem skipString_staysWithin (hlength : input.length < Decimal.signedLimit) :
    StaysWithin input (skipString input) := by
  refine .of_suffix ?_ ?_
  · intro b rest j hsuffix h
    rw [skipString_eq hlength hsuffix] at h
    cases hsplit : splitString rest with
    | none =>
      rw [hsplit] at h
      exact absurd h (done_error_ne _ _)
    | some split =>
      rw [hsplit] at h
      exact ⟨split.2, (splitString_suffix hsplit).trans (List.suffix_cons b rest),
        Except.ok.inj (done_inj.mp h)⟩
  · intro i j hge h
    obtain ⟨k, hk, h⟩ := bind_eq_done_ok h
    rw [add_eq_done hk, skipStringFrom_end (Nat.le_succ_of_le hge)] at h
    exact done_error_ne _ _ h

theorem skipContainer_staysWithin (hlength : input.length < Decimal.signedLimit)
    (bracket : Bracket) : StaysWithin input (skipContainer input bracket) := by
  refine .of_suffix ?_ ?_
  · intro b rest j hsuffix h
    rw [skipContainer_eq hlength hsuffix] at h
    cases hclose : afterContainer bracket 0 rest with
    | none =>
      rw [hclose] at h
      exact absurd h (done_error_ne _ _)
    | some beyond =>
      rw [hclose] at h
      obtain ⟨text, -, rfl⟩ := afterContainer_eq_some_iff.mp hclose
      exact ⟨beyond, (List.suffix_append text beyond).trans (List.suffix_cons b _),
        Except.ok.inj (done_inj.mp h)⟩
  · intro i j hge h
    obtain ⟨k, hk, h⟩ := bind_eq_done_ok h
    rw [add_eq_done hk, skipContainerFrom_end (Nat.le_succ_of_le hge)] at h
    exact done_error_ne _ _ h

theorem skipValue_staysWithin (hlength : input.length < Decimal.signedLimit) :
    StaysWithin input (skipValue input) := by
  refine .of_suffix ?_ ?_
  · intro b rest j hsuffix h
    rw [skipValue_eq hlength hsuffix] at h
    obtain ⟨beyond, hvalue, rfl⟩ := map_eq_ok_iff.mp (done_inj.mp h)
    exact ⟨beyond, afterValue_suffix hvalue, rfl⟩
  · intro i j hge
    rw [skipValue, skipSpaces_end hge]
    exact done_error_ne _ _

theorem seekToValue_staysWithin (hlength : input.length < Decimal.signedLimit) :
    StaysWithin input (seekToValue input) := by
  refine .of_suffix ?_ ?_
  · intro b rest j hsuffix h
    rw [seekToValue_eq hlength hsuffix] at h
    obtain ⟨beyond, hvalue, rfl⟩ := map_eq_ok_iff.mp (done_inj.mp h)
    exact ⟨beyond, afterColon_suffix hvalue, rfl⟩
  · intro i j hge
    rw [seekToValue, skipSpaces_end hge]
    exact done_error_ne _ _

/-! ## Rounds go forward -/

theorem position_lt_of_length_lt {doc rest : Bytes} (h : rest <:+ doc) (hdoc : doc <:+ input)
    (hlt : rest.length < doc.length) : position input doc < position input rest := by
  have hpos := position_add_length hdoc
  have hpos' := position_add_length (h.trans hdoc)
  omega

theorem mapError_eq_ok_iff {ε ε' α : Type} {x : Except ε α} {f : ε → ε'} {a : α} :
    x.mapError f = .ok a ↔ x = .ok a := by
  cases x with
  | error error => constructor <;> (intro h; cases h)
  | ok b => constructor <;> (intro h; cases h; rfl)

/-- A round that goes on, goes on behind a member. -/
theorem findRound_onward (hlength : input.length < Decimal.signedLimit) {key : String} {i j : Nat}
    (h : findRound input key i = done (.ok (.onward j))) : i < j ∧ j ≤ input.length := by
  rcases Nat.lt_or_ge i input.length with hlt | hge
  · have hdrop := List.drop_suffix i input
    rw [← position_drop (Nat.le_of_lt hlt), findRound_eq hlength key hdrop] at h
    obtain ⟨member?, hnext, hround⟩ := bind_eq_ok_iff.mp (done_inj.mp h)
    rw [mapError_eq_ok_iff] at hnext
    cases member? with
    | none => cases hround
    | some member =>
      dsimp only [roundOf] at hround
      split at hround
      · cases hround
      split at hround
      · cases hround
      next rest hrest =>
      cases hround
      have hvalue := (Member.next_value hnext).1
      have hshort := Nat.lt_trans (afterValue_length hrest) (Member.next_length hnext)
      have hforward :=
        position_lt_of_length_lt ((afterValue_suffix hrest).trans hvalue) hdrop hshort
      rw [position_drop (Nat.le_of_lt hlt)] at hforward
      exact ⟨hforward, position_le input rest⟩
  · rw [findRound, skipSpaces_end hge] at h
    exact absurd h (done_error_ne _ _)

/-- The next element starts no earlier than it is looked for, and is not empty. -/
theorem advance_some (hlength : input.length < Decimal.signedLimit) {i : Nat} {span : Span}
    (h : advance input i = done (.ok (some span))) :
    i ≤ span.start ∧ span.start < span.stop ∧ span.stop ≤ input.length := by
  rcases Nat.lt_or_ge i input.length with hlt | hge
  · have hdrop := List.drop_suffix i input
    rw [← position_drop (Nat.le_of_lt hlt), advance_eq hlength hdrop] at h
    obtain ⟨element?, hnext, helement⟩ := map_eq_ok_iff.mp (done_inj.mp h)
    obtain ⟨element, rfl, rfl⟩ := Option.map_eq_some_iff.mp helement
    obtain ⟨hstart, hstop⟩ := Element.next_suffix hnext
    have hshort : element.stop.length < element.start.length := by
      obtain ⟨gap, text, rest, -, ⟨b, more, rfl, -⟩, -, -, rfl⟩ :=
        Element.next_eq_some_iff.mp hnext
      dsimp only
      rw [List.length_append, List.length_cons]
      omega
    exact ⟨(position_le_of_suffix hstart (Nat.le_of_lt hlt)).1,
      position_lt_of_length_lt hstop (hstart.trans hdrop) hshort, position_le input element.stop⟩
  · rw [advance, skipSpaces_end hge] at h
    exact absurd h (done_error_ne _ _)

/-! ## Nothing goes wrong -/

/-- **Every program comes to its end.** The reading of any text under any limit
ends with the path it spells or with why it is none, and the following of any
path through any document ends with what it selects or with why it selects
nothing: no position misses its buffer or the start of a character, no counter
passes zero or 64 bits, and no loop goes on for ever. No scan goes back, or past
the end of its buffer, and each round of a loop over the members of an object or
the elements of an array goes forward. All this holds of buffers of fewer bytes
than the largest signed 64-bit number can count. -/
theorem ends_done :
    (∀ (limit : UInt64) (text : String), (Bytes.ofString text).length < Decimal.signedLimit →
      compile limit text = done (Path.parse limit text)) ∧
    (∀ (path : Path) (doc : Bytes), doc.length < Decimal.signedLimit →
      getValue path.head path.tail doc = done (path.get doc)) ∧
    ∀ input : Bytes, input.length < Decimal.signedLimit →
      (StaysWithin input (skipSpaces input) ∧ StaysWithin input (skipString input) ∧
        (∀ bracket, StaysWithin input (skipContainer input bracket)) ∧
        StaysWithin input (skipValue input) ∧ StaysWithin input (seekToValue input)) ∧
      (∀ key i j, findRound input key i = done (.ok (.onward j)) → i < j ∧ j ≤ input.length) ∧
      (∀ i span, advance input i = done (.ok (some span)) →
        i ≤ span.start ∧ span.start < span.stop ∧ span.stop ≤ input.length) := by
  refine ⟨?_, ?_, ?_⟩
  · intro limit text hlength
    rw [Bytes.length_ofString] at hlength
    exact compile_eq limit hlength
  · intro path doc hlength
    exact getValue_eq path.head path.tail hlength
  · intro input hlength
    exact ⟨⟨skipSpaces_staysWithin hlength, skipString_staysWithin hlength,
      skipContainer_staysWithin hlength, skipValue_staysWithin hlength,
      seekToValue_staysWithin hlength⟩,
      fun key i j h => findRound_onward hlength h, fun i span h => advance_some hlength h⟩

/-- A path with a character of three bytes in a key, and a document that ends
behind a backslash, where the scan of a string steps over the end. -/
theorem ends_done_backslash :
    compile 3 "$.\u20ac[-1].size()" =
      done (.ok ⟨⟨"$", .member⟩, [⟨"\u20ac", .index (-1)⟩, ⟨"size", .function .size⟩]⟩) ∧
    (∃ error, getValue ⟨"$", .member⟩ [⟨"b", .member⟩] (Bytes.ofString "\x7b\"a\":\"\\") =
      done (.error error)) ∧
    ∀ j, skipString (Bytes.ofString "\"a\" ") 0 = done (.ok j) → j ≤ 4 := by
  obtain ⟨hcompile, hget, hrun⟩ := ends_done
  refine ⟨hcompile 3 _ (by decide), ?_, fun j h => ((hrun _ (by decide)).1.2.1 0 j h).2⟩
  have hnone : (Path.get ⟨⟨"$", .member⟩, [⟨"b", .member⟩]⟩
      (Bytes.ofString "\x7b\"a\":\"\\")).toOption = none := by decide +kernel
  have hdone := hget ⟨⟨"$", .member⟩, [⟨"b", .member⟩]⟩ (Bytes.ofString "\x7b\"a\":\"\\")
    (by decide)
  cases houtcome : Path.get ⟨⟨"$", .member⟩, [⟨"b", .member⟩]⟩
      (Bytes.ofString "\x7b\"a\":\"\\") with
  | ok slice =>
    rw [houtcome] at hnone
    exact absurd hnone (Option.some_ne_none _)
  | error error => exact ⟨error, hdone.trans (congrArg done houtcome)⟩

end RawJson.Checked
