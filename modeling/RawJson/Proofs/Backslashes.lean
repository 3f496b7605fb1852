/-
Which quote ends a string, told by looking back. A scan goes forward and takes
each backslash together with the byte behind it. Backward from a quote one sees a
run of backslashes; since each odd one of them takes the even one behind it, the
quote is escaped if their number is odd, and ends the string if it is even.

The two meet in what the scan remembers: it is behind a backslash that escapes
exactly if the run that ends in the bytes taken so far is odd (`Tracks`). Every byte
that it takes keeps this (`Tracks.step`), so it takes every byte up to the first
quote behind an even run (`splitStringFrom_of_isLeast`), and all of the document if
there is none (`splitStringFrom_of_none`).
-/
import Mathlib.Algebra.Group.Nat.Even
import Mathlib.Order.Bounds.Defs
import RawJson.Proofs.Checked.Scan

namespace RawJson

/-! ## Runs of backslashes -/

/-- How many backslashes the text ends in. -/
def backslashes (text : Bytes) : Nat :=
  (text.reverse.takeWhile (· == Byte.backslash)).length

@[simp] theorem backslashes_append_backslash (text : Bytes) :
    backslashes (text ++ [Byte.backslash]) = backslashes text + 1 := by
  simp [backslashes]

theorem backslashes_append_of_ne {b : UInt8} (h : b ≠ Byte.backslash) (text : Bytes) :
    backslashes (text ++ [b]) = 0 := by
  simp [backslashes, h]

/-- A scan that took these bytes, the last one first, knows whether the next one is
escaped. -/
def Tracks (taken : Bytes) (escaped : Bool) : Prop :=
  escaped = true ↔ ¬Even (backslashes taken.reverse)

theorem tracks_nil : Tracks [] false := by simp [Tracks, backslashes]

/-- One byte more escapes the next one if it is a backslash and not escaped itself. -/
theorem Tracks.step {taken : Bytes} {escaped : Bool} (h : Tracks taken escaped) (b : UInt8) :
    Tracks (b :: taken) (!escaped && b == Byte.backslash) := by
  unfold Tracks at h ⊢
  rw [List.reverse_cons]
  by_cases hb : b = Byte.backslash
  · subst hb
    rw [backslashes_append_backslash, Nat.even_add_one, ← h]
    simp
  · rw [backslashes_append_of_ne hb]
    simp [hb]

/-! ## Quotes behind even runs -/

/-- At this position of `doc` stands a quote, and an even run of backslashes in front
of it, which may go back into `front`, in front of `doc`. -/
def EndsAt (front doc : Bytes) (q : Nat) : Prop :=
  doc[q]? = some Byte.quote ∧ Even (backslashes (front ++ doc.take q))

section

variable {front doc taken : Bytes} {b : UInt8} {escaped : Bool} {q : Nat}

@[simp] theorem not_endsAt_nil : ¬EndsAt front [] q := by simp [EndsAt]

@[simp] theorem endsAt_zero :
    EndsAt front (b :: doc) 0 ↔ b = Byte.quote ∧ Even (backslashes front) := by
  simp [EndsAt]

@[simp] theorem endsAt_succ : EndsAt front (b :: doc) (q + 1) ↔ EndsAt (front ++ [b]) doc q := by
  simp [EndsAt]

theorem splitStringFrom_of_endsAt (h : Tracks taken escaped)
    (hends : EndsAt taken.reverse (b :: doc) 0) :
    splitStringFrom taken escaped (b :: doc) = some (taken.reverse, doc) := by
  obtain ⟨rfl, heven⟩ := endsAt_zero.mp hends
  have hescaped : ¬escaped = true := fun he => h.mp he heven
  rw [splitStringFrom, if_neg hescaped, if_pos rfl]

theorem splitStringFrom_of_not_endsAt (h : Tracks taken escaped)
    (hends : ¬EndsAt taken.reverse (b :: doc) 0) :
    splitStringFrom taken escaped (b :: doc) =
      splitStringFrom (b :: taken) (!escaped && b == Byte.backslash) doc := by
  rw [splitStringFrom]
  cases escaped with
  | true => rfl
  | false =>
    have heven : Even (backslashes taken.reverse) := by simpa [Tracks] using h
    have hb : b ≠ Byte.quote := fun hb => hends (endsAt_zero.mpr ⟨hb, heven⟩)
    simp [hb]

/-- A scan stops behind the first quote that ends the string. -/
theorem splitStringFrom_of_isLeast (h : Tracks taken escaped)
    (hq : IsLeast {q | EndsAt taken.reverse doc q} q) :
    splitStringFrom taken escaped doc =
      some (taken.reverse ++ doc.take q, doc.drop (q + 1)) := by
  obtain ⟨hends, hleast⟩ := hq
  induction doc generalizing taken escaped q with
  | nil => exact absurd hends not_endsAt_nil
  | cons b doc ih =>
    cases q with
    | zero => simpa using splitStringFrom_of_endsAt h hends
    | succ q =>
      have hfirst : ¬EndsAt taken.reverse (b :: doc) 0 := fun hzero => by
        have := hleast hzero
        omega
      have hothers : ∀ p, EndsAt (b :: taken).reverse doc p → q ≤ p := fun p hp => by
        have := hleast (a := p + 1) (by simpa using hp)
        omega
      rw [splitStringFrom_of_not_endsAt h hfirst,
        ih (h.step b) (by simpa using hends) hothers]
      simp

/-- A string that no quote ends takes up the document. -/
theorem splitStringFrom_of_none (h : Tracks taken escaped)
    (hnone : ∀ q, ¬EndsAt taken.reverse doc q) : splitStringFrom taken escaped doc = none := by
  induction doc generalizing taken escaped with
  | nil => rfl
  | cons b doc ih =>
    rw [splitStringFrom_of_not_endsAt h (hnone 0)]
    exact ih (h.step b) fun q => by simpa using hnone (q + 1)

end

/-! ## Strings in a buffer -/

/-- At `q`, behind the opening quote at `i`, stands a quote that is not escaped: the run
of backslashes in front of it, which goes back no further than that opening quote,
is even. -/
def Unescaped (input : Bytes) (i q : Nat) : Prop :=
  i < q ∧ input[q]? = some Byte.quote ∧ Even (backslashes (input.extract (i + 1) q))

instance (input : Bytes) (i : Nat) : DecidablePred (Unescaped input i) :=
  fun _ => inferInstanceAs (Decidable (_ ∧ _ ∧ _))

section

variable {input : Bytes} {i q : Nat}

theorem Unescaped.lt_length (h : Unescaped input i q) : q < input.length :=
  (List.getElem?_eq_some_iff.mp h.2.1).1

theorem endsAt_drop_iff {k : Nat} :
    EndsAt [] (input.drop (i + 1)) k ↔ Unescaped input i (i + 1 + k) := by
  have hbehind : i < i + 1 + k := by omega
  simp [EndsAt, Unescaped, List.extract_eq_take_drop, hbehind]

theorem isLeast_endsAt (h : IsLeast {q | Unescaped input i q} q) :
    IsLeast {k | EndsAt [] (input.drop (i + 1)) k} (q - (i + 1)) := by
  obtain ⟨hends, hleast⟩ := h
  have hq : i + 1 + (q - (i + 1)) = q := Nat.add_sub_of_le hends.1
  refine ⟨endsAt_drop_iff.mpr (by rwa [hq]), fun k hk => ?_⟩
  have := hleast (endsAt_drop_iff.mp hk)
  omega

theorem splitString_of_isLeast (h : IsLeast {q | Unescaped input i q} q) :
    splitString (input.drop (i + 1)) = some (input.extract (i + 1) q, input.drop (q + 1)) := by
  have hq : i + 1 + (q - (i + 1) + 1) = q + 1 := by
    have := h.1.1
    omega
  rw [splitString, splitStringFrom_of_isLeast tracks_nil (isLeast_endsAt h)]
  simp [List.extract_eq_take_drop, List.drop_drop, hq]

theorem splitString_of_none (h : ∀ q, ¬Unescaped input i q) :
    splitString (input.drop (i + 1)) = none :=
  splitStringFrom_of_none tracks_nil fun _ hk => h _ (endsAt_drop_iff.mp hk)

theorem Checked.skipString_at (hlength : input.length < Decimal.signedLimit)
    (h : input[i]? = some Byte.quote) :
    skipString input i = done (stringEnd input (splitString (input.drop (i + 1)))) := by
  obtain ⟨hi, hget⟩ := List.getElem?_eq_some_iff.mp h
  have hdrop : Byte.quote :: input.drop (i + 1) = input.drop i := by
    rw [List.drop_eq_getElem_cons hi, hget]
  have hscan := skipString_eq hlength (hdrop ▸ List.drop_suffix i input)
  rwa [hdrop, position_drop (Nat.le_of_lt hi)] at hscan

end

/-- **A string ends at its first quote behind an even run of backslashes.** From an
opening quote, wherever in a buffer it stands, the scan goes just past the first
quote behind it in front of which the run of backslashes, no further back than the
opening quote, is even, and the body is what is in between. If there is no such
quote, the string is cut short, also where the last byte of the buffer is a backslash. -/
theorem string_ends_unescaped (input : Bytes) (i : Nat) (h : input[i]? = some Byte.quote) :
    (∀ q, IsLeast {q | Unescaped input i q} q →
      splitString (input.drop (i + 1)) = some (input.extract (i + 1) q, input.drop (q + 1)) ∧
      (input.length < Decimal.signedLimit →
        Checked.skipString input i = Checked.done (.ok (q + 1)))) ∧
    ((∀ q, ¬Unescaped input i q) →
      splitString (input.drop (i + 1)) = none ∧
      (input.length < Decimal.signedLimit →
        Checked.skipString input i = Checked.done (.error (.unexpectedEnd .string)))) := by
  constructor
  · intro q hq
    have hsplit := splitString_of_isLeast hq
    refine ⟨hsplit, fun hlength => ?_⟩
    rw [Checked.skipString_at hlength h, hsplit, Checked.stringEnd,
      Checked.position_drop (Unescaped.lt_length hq.1)]
  · intro hnone
    have hsplit := splitString_of_none hnone
    refine ⟨hsplit, fun hlength => ?_⟩
    rw [Checked.skipString_at hlength h, hsplit, Checked.stringEnd]

/-- A quote behind three backslashes and one behind two, in a string behind a
backslash of its own; and a document that ends in a backslash. -/
theorem string_ends_unescaped_runs :
    Checked.skipString (Bytes.ofString "\\\"a\\\\\\\"b\\\\\",\"") 1 = Checked.done (.ok 11) ∧
    Checked.skipString (Bytes.ofString "\"a\\\"\\") 0 =
      Checked.done (.error (.unexpectedEnd .string)) := by
  have hquote : Unescaped (Bytes.ofString "\\\"a\\\\\\\"b\\\\\",\"") 1 10 := by decide
  have hescaped : ∀ q < 10, ¬Unescaped (Bytes.ofString "\\\"a\\\\\\\"b\\\\\",\"") 1 q := by
    decide
  have hopen : ∀ q < 5, ¬Unescaped (Bytes.ofString "\"a\\\"\\") 0 q := by decide
  obtain ⟨hends, -⟩ :=
    string_ends_unescaped (Bytes.ofString "\\\"a\\\\\\\"b\\\\\",\"") 1 (by decide)
  obtain ⟨-, hcut⟩ := string_ends_unescaped (Bytes.ofString "\"a\\\"\\") 0 (by decide)
  constructor
  · refine (hends 10 ⟨hquote, fun q hq => ?_⟩).2 (by decide)
    exact Nat.le_of_not_lt fun hlt => hescaped q hlt hq
  · exact (hcut fun q hq => hopen q hq.lt_length hq).2 (by decide)

end RawJson
