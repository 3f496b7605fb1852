/-
The scans of a document as programs on its buffer, loop for loop, and their
outcomes. Every loop is entered at a position where a suffix of the buffer
starts and comes to the position where the scan of that suffix comes to; only
the step over an escaped byte may go past the end, by one, where the loop looks
no further.
-/
import RawJson.Proofs.Checked.Run
import RawJson.Proofs.Extent

namespace RawJson.Checked

noncomputable section

/-! ## Programs -/

/-- Goes on over a gap, behind which something has to stand. -/
def skipSpaces (input : Bytes) (i : Nat) : Checked Fault Nat := do
  let i ← skipWhile Byte.isSeparator input i
  if input.length ≤ i then throw (.unexpectedEnd .input) else return i

/-- Goes on past the quote that ends a string. -/
def skipStringFrom (input : Bytes) : Nat → Checked Fault Nat :=
  loop fun j => do
    if j < input.length then
      let b ← byteAt input j
      if b = Byte.backslash then
        let j ← add j 2
        return .onward j
      else if b = Byte.quote then
        let j ← add j 1
        return .ended j
      else
        let j ← add j 1
        return .onward j
    else throw (.unexpectedEnd .string)

/-- Goes over a string, from its opening quote. -/
def skipString (input : Bytes) (i : Nat) : Checked Fault Nat := do
  let j ← add i 1
  skipStringFrom input j

/-- Goes on from a byte inside a container that the bracket `close` ends, with
`depth` brackets open inside it. -/
def passByte (input : Bytes) (bracket : Bracket) (close : UInt8) (depth j : Nat) (b : UInt8) :
    Checked Fault (Round (Nat × Nat) Nat) := do
  if b = Byte.quote then
    let j ← ExceptT.adapt (fun _ => .unexpectedEnd bracket.region) (skipString input j)
    return .onward (depth, j)
  else if b = bracket.opening then
    let depth ← add depth 1
    let j ← add j 1
    return .onward (depth, j)
  else if b = close then
    if depth = 0 then
      let j ← add j 1
      return .ended j
    else
      let depth ← sub depth 1
      let j ← add j 1
      return .onward (depth, j)
  else
    let j ← add j 1
    return .onward (depth, j)

/-- Goes on past the bracket `close` that ends a container. -/
def skipContainerFrom (input : Bytes) (bracket : Bracket) (close : UInt8) :
    Nat × Nat → Checked Fault Nat :=
  loop fun (depth, j) => do
    if j < input.length then
      let b ← byteAt input j
      passByte input bracket close depth j b
    else throw (.unexpectedEnd bracket.region)

/-- Goes over a container, from its opening bracket. The closing one is two
further in the code. -/
def skipContainer (input : Bytes) (bracket : Bracket) (i : Nat) : Checked Fault Nat := do
  let j ← add i 1
  skipContainerFrom input bracket (bracket.opening + 2) (0, j)

/-- Goes over the next value. -/
def skipValue (input : Bytes) (i : Nat) : Checked Fault Nat := do
  let i ← skipSpaces input i
  let b ← byteAt input i
  if b = Byte.quote then skipString input i
  else if b = Byte.openBrace then skipContainer input .brace i
  else if b = Byte.openSquare then skipContainer input .square i
  else
    let j ← skipWhile (fun b => !Byte.endsScalar b) input i
    if j = i then throw (.unexpectedByte b .value) else return j

/-- Goes on over a colon to the value of a member. -/
def seekToValue (input : Bytes) (i : Nat) : Checked Fault Nat := do
  let i ← skipSpaces input i
  let b ← byteAt input i
  if b = Byte.colon then
    let i ← add i 1
    skipSpaces input i
  else throw .missingColon

end

/-! ## Outcomes -/

variable {input doc : Bytes}

theorem skipSpaces_eq (hlength : input.length < Decimal.signedLimit) (h : doc <:+ input) :
    skipSpaces input (position input doc) =
      done ((afterGap doc).map fun (b, rest) => position input (b :: rest)) := by
  rw [skipSpaces, skipWhile_eq _ hlength h, done_ok_bind, afterGap]
  have hsuffix := (List.dropWhile_suffix Byte.isSeparator (l := doc)).trans h
  cases hrest : doc.dropWhile Byte.isSeparator with
  | nil =>
    rw [position_nil, if_pos (Nat.le_refl _)]
    rfl
  | cons b rest =>
    rw [hrest] at hsuffix
    rw [if_neg (Nat.not_le.mpr (position_cons_lt hsuffix))]
    rfl

/-- Where a scan of a string ends. -/
def stringEnd (input : Bytes) : Option (Bytes × Bytes) → Except Fault Nat
  | none => .error (.unexpectedEnd .string)
  | some (_, rest) => .ok (position input rest)

theorem skipStringFrom_end {j : Nat} (h : input.length ≤ j) :
    skipStringFrom input j = done (.error (.unexpectedEnd .string)) := by
  rw [skipStringFrom, loop_eq, if_neg (Nat.not_lt.mpr h)]
  rfl

theorem skipStringFrom_eq (hlength : input.length < Decimal.signedLimit) :
    ∀ taken doc : Bytes, doc <:+ input → skipStringFrom input (position input doc) =
      done (stringEnd input (splitStringFrom taken false doc))
  | taken, [], _ => skipStringFrom_end (Nat.le_refl _)
  | taken, b :: rest, h => by
    rw [skipStringFrom, loop_eq, if_pos (position_cons_lt h), byteAt_position h, done_ok_bind,
      splitStringFrom, if_neg Bool.false_ne_true]
    have hrest := suffix_of_cons h
    by_cases hb : b = Byte.backslash
    · have hquote : b ≠ Byte.quote := by rw [hb]; decide
      rw [if_pos hb, if_neg hquote, add_within hlength (position_le _ _) (by decide), done_ok_bind,
        beq_iff_eq.mpr hb]
      cases rest with
      | nil =>
        -- The escaped byte would stand past the end.
        have hend := position_cons h
        rw [position_nil] at hend
        exact skipStringFrom_end (by omega)
      | cons c rest =>
        rw [splitStringFrom, if_pos rfl, ← Nat.add_assoc _ 1 1, position_cons h,
          position_cons hrest]
        exact skipStringFrom_eq hlength (c :: b :: taken) rest (suffix_of_cons hrest)
    · rw [if_neg hb, beq_false_of_ne hb, add_position_cons hlength h]
      split
      · rfl
      · exact skipStringFrom_eq hlength (b :: taken) rest hrest

theorem skipString_eq {b : UInt8} {rest : Bytes} (hlength : input.length < Decimal.signedLimit)
    (h : b :: rest <:+ input) :
    skipString input (position input (b :: rest)) = done (stringEnd input (splitString rest)) := by
  rw [skipString, add_position_cons hlength h, done_ok_bind]
  exact skipStringFrom_eq hlength [] rest (suffix_of_cons h)

/-- Where a scan of a container ends. -/
def containerEnd (input : Bytes) (bracket : Bracket) : Option Bytes → Except Fault Nat
  | none => .error (.unexpectedEnd bracket.region)
  | some rest => .ok (position input rest)

theorem skipContainerFrom_end {bracket : Bracket} {close : UInt8} {depth j : Nat}
    (h : input.length ≤ j) : skipContainerFrom input bracket close (depth, j) =
      done (.error (.unexpectedEnd bracket.region)) := by
  rw [skipContainerFrom, loop_eq]
  dsimp only
  rw [if_neg (Nat.not_lt.mpr h)]
  rfl

theorem skipContainerFrom_cons {bracket : Bracket} {close : UInt8} {depth : Nat} {b : UInt8}
    {rest : Bytes} (h : b :: rest <:+ input) :
    skipContainerFrom input bracket close (depth, position input (b :: rest)) =
      passByte input bracket close depth (position input (b :: rest)) b >>=
        Round.resume (skipContainerFrom input bracket close) := by
  rw [skipContainerFrom, loop_eq]
  dsimp only
  rw [if_pos (position_cons_lt h), byteAt_position h, done_ok_bind]

/-- No more brackets are open than bytes have been passed. -/
theorem skipContainerFrom_eq (hlength : input.length < Decimal.signedLimit) {bracket : Bracket}
    {depth : Nat} (h : doc <:+ input) (hdepth : depth ≤ position input doc) :
    skipContainerFrom input bracket bracket.closing (depth, position input doc) =
      done (containerEnd input bracket (afterContainer bracket depth doc)) := by
  fun_induction afterContainer bracket depth doc with
  | case1 => exact skipContainerFrom_end (Nat.le_refl _)
  | case2 depth rest hsplit =>
    rw [skipContainerFrom_cons h, passByte, if_pos rfl, skipString_eq hlength h, hsplit]
    rfl
  | case3 depth rest body beyond hsplit ih =>
    have hsuffix := splitString_suffix hsplit
    have hrest := suffix_of_cons h
    rw [skipContainerFrom_cons h, passByte, if_pos rfl, skipString_eq hlength h, hsplit]
    refine ih (hsuffix.trans hrest) ?_
    have := position_mono input hsuffix
    have := position_cons h
    omega
  | case4 depth rest hquote ih =>
    have hnext := position_cons h
    have hend := position_le input rest
    rw [skipContainerFrom_cons h, passByte, if_neg hquote, if_pos rfl,
      add_within hlength (by omega) (by decide), done_ok_bind, add_position_cons hlength h]
    exact ih (suffix_of_cons h) (by omega)
  | case5 rest hquote hopening =>
    rw [skipContainerFrom_cons h, passByte, if_neg hquote, if_neg hopening, if_pos rfl, if_pos rfl,
      add_position_cons hlength h]
    rfl
  | case6 rest depth hquote hopening ih =>
    have hnext := position_cons h
    rw [skipContainerFrom_cons h, passByte, if_neg hquote, if_neg hopening, if_pos rfl,
      if_neg (Nat.succ_ne_zero _), sub_eq (Nat.le_add_left 1 depth), done_ok_bind,
      add_position_cons hlength h]
    exact ih (suffix_of_cons h) (by omega)
  | case7 depth b rest hquote hopening hclosing ih =>
    have hnext := position_cons h
    rw [skipContainerFrom_cons h, passByte, if_neg hquote, if_neg hopening, if_neg hclosing,
      add_position_cons hlength h]
    exact ih (suffix_of_cons h) (by omega)

theorem skipContainer_eq {bracket : Bracket} {b : UInt8} {rest : Bytes}
    (hlength : input.length < Decimal.signedLimit) (h : b :: rest <:+ input) :
    skipContainer input bracket (position input (b :: rest)) =
      done (containerEnd input bracket (afterContainer bracket 0 rest)) := by
  have hclosing : bracket.opening + 2 = bracket.closing := by cases bracket <;> rfl
  rw [skipContainer, add_position_cons hlength h, done_ok_bind, hclosing]
  exact skipContainerFrom_eq hlength (suffix_of_cons h) (Nat.zero_le _)

/-- Where the next value ends. -/
theorem skipValue_eq (hlength : input.length < Decimal.signedLimit) (h : doc <:+ input) :
    skipValue input (position input doc) = done ((afterValue doc).map (position input)) := by
  rw [skipValue, skipSpaces_eq hlength h, afterValue]
  cases hgap : afterGap doc with
  | error fault => rfl
  | ok next =>
    obtain ⟨b, rest⟩ := next
    have hrest := (afterGap_suffix hgap).trans h
    dsimp only [Except.map]
    rw [done_ok_bind, byteAt_position hrest, done_ok_bind]
    unfold afterToken afterToken.container
    split
    · rw [skipString_eq hlength hrest]
      cases splitString rest <;> rfl
    split
    · rw [skipContainer_eq hlength hrest]
      cases afterContainer .brace 0 rest <;> rfl
    split
    · rw [skipContainer_eq hlength hrest]
      cases afterContainer .square 0 rest <;> rfl
    have hscalar : afterScalar (b :: rest) =
        if Byte.endsScalar b then b :: rest else afterScalar rest := by
      rw [afterScalar, List.dropWhile_cons, ← afterScalar]
      cases Byte.endsScalar b <;> rfl
    rw [skipWhile_eq _ hlength hrest, done_ok_bind, ← afterScalar, hscalar]
    split
    · rw [if_pos rfl]
      rfl
    · have hnext := position_cons hrest
      have hmono := position_mono input
        (List.dropWhile_suffix (fun b => !Byte.endsScalar b) (l := rest))
      rw [← afterScalar] at hmono
      rw [if_neg (by omega)]
      rfl

/-- The value of a member and all that follows, from just behind the key. -/
def afterColon (doc : Bytes) : Except Fault Bytes :=
  match afterGap doc with
  | .error fault => .error fault
  | .ok (b, rest) =>
    if b = Byte.colon then
      match afterGap rest with
      | .error fault => .error fault
      | .ok (b, rest) => .ok (b :: rest)
    else .error .missingColon

theorem afterColon_suffix {value : Bytes} (h : afterColon doc = .ok value) : value <:+ doc := by
  unfold afterColon at h
  split at h
  · cases h
  next b rest hgap =>
  split at h
  · split at h
    · cases h
    next hvalue =>
    cases h
    exact (afterGap_suffix hvalue).trans ((List.suffix_cons b rest).trans (afterGap_suffix hgap))
  · cases h

theorem seekToValue_eq (hlength : input.length < Decimal.signedLimit) (h : doc <:+ input) :
    seekToValue input (position input doc) = done ((afterColon doc).map (position input)) := by
  rw [seekToValue, skipSpaces_eq hlength h, afterColon]
  cases hgap : afterGap doc with
  | error fault => rfl
  | ok next =>
    obtain ⟨b, rest⟩ := next
    have hrest := (afterGap_suffix hgap).trans h
    dsimp only [Except.map]
    rw [done_ok_bind, byteAt_position hrest, done_ok_bind]
    split
    · rw [add_position_cons hlength hrest, done_ok_bind,
        skipSpaces_eq hlength (suffix_of_cons hrest)]
      cases afterGap rest <;> rfl
    · rfl

end RawJson.Checked
