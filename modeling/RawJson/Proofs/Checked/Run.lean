/-
Programs on buffers, with every operation on them checked. The scans of a
document give back suffixes, where no access can miss. As programs they keep to
one buffer and go by positions in it: they look at the byte at a position, cut
the buffer between two positions, and count in machine words. Here each of these
is partial, and a loop has an outcome only if some number of rounds ends it. So a
program is `done` with an outcome exactly if it comes to its end, without a
position out of bounds, a counter below zero or a sum beyond 64 bits on the way.

A suffix of the buffer is a position in it, and the operations that the scans
need are total there, on buffers of less than `Decimal.signedLimit` bytes.
-/
import RawJson.Bytes
import RawJson.Decimal.Integer

namespace RawJson

/-- What comes of a program on a buffer: an outcome, or nothing at all. -/
abbrev Checked (ε α : Type) := ExceptT ε Option α

namespace Checked

variable {ε ε' σ α β : Type}

/-- The program ends with this outcome. -/
def done (outcome : Except ε α) : Checked ε α := ExceptT.mk (some outcome)

/-- The result of a partial operation. -/
def ofOption (result : Option α) : Checked ε α := ExceptT.mk (result.map .ok)

@[simp] theorem ofOption_some (a : α) : ofOption (some a) = (done (.ok a) : Checked ε α) := rfl

@[simp] theorem throw_eq_done (error : ε) : (throw error : Checked ε α) = done (.error error) := rfl

@[simp] theorem done_ok_bind (a : α) (f : α → Checked ε β) : done (.ok a) >>= f = f a := rfl

@[simp] theorem adapt_done (f : ε → ε') (outcome : Except ε α) :
    ExceptT.adapt f (done outcome) = done (outcome.mapError f) := rfl

@[simp] theorem mapError_ok (f : ε → ε') (a : α) : (Except.ok a).mapError f = .ok a := rfl

theorem done_inj {outcome outcome' : Except ε α} :
    (done outcome : Checked ε α) = done outcome' ↔ outcome = outcome' :=
  ⟨fun h => Option.some.inj h, congrArg done⟩

theorem done_error_ne (error : ε) (a : α) :
    (done (.error error) : Checked ε α) ≠ done (.ok a) := by
  intro h
  cases done_inj.mp h

theorem ofOption_none_ne (outcome : Except ε α) : (ofOption none : Checked ε α) ≠ done outcome :=
  (Option.some_ne_none outcome).symm

/-- Programs are the same if they end with the same outcomes. -/
theorem ext_done {x y : Checked ε α} (h : ∀ outcome, x = done outcome ↔ y = done outcome) :
    x = y :=
  Option.ext h

/-- A program ends as its first step fails, or as the rest of it does behind that. -/
theorem bind_eq_done_iff {x : Checked ε α} {f : α → Checked ε β} {outcome : Except ε β} :
    x >>= f = done outcome ↔ (∃ error, x = done (.error error) ∧ outcome = .error error) ∨
      ∃ a, x = done (.ok a) ∧ f a = done outcome := by
  constructor
  · intro h
    rcases x with _ | error | a
    · exact absurd h (ofOption_none_ne outcome)
    · exact .inl ⟨error, rfl, (done_inj.mp h).symm⟩
    · exact .inr ⟨a, rfl, h⟩
  · rintro (⟨error, rfl, rfl⟩ | ⟨a, rfl, h⟩)
    · rfl
    · exact h

/-- A program that ends well has ended well at each of its steps. -/
theorem bind_eq_done_ok {x : Checked ε α} {f : α → Checked ε β} {b : β}
    (h : x >>= f = done (.ok b)) : ∃ a, x = done (.ok a) ∧ f a = done (.ok b) := by
  rcases bind_eq_done_iff.mp h with ⟨error, -, herror⟩ | hok
  · cases herror
  · exact hok

/-! ## Loops -/

/-- What a round of a loop comes to: the next round, or the end of the loop. -/
inductive Round (σ β : Type) where
  | onward (state : σ)
  | ended (result : β)
  deriving DecidableEq, Repr

/-- Goes on where a round of a loop has come to. -/
def Round.resume (again : σ → Checked ε β) : Round σ β → Checked ε β
  | .onward state => again state
  | .ended result => done (.ok result)

/-- A loop that is given up after a number of rounds. -/
def loopFor (round : σ → Checked ε (Round σ β)) : Nat → σ → Checked ε β
  | 0, _ => ofOption none
  | n + 1, state => round state >>= Round.resume (loopFor round n)

open Classical in
/-- A loop, with the outcome that any number of rounds has which is enough, and
none if no number is. -/
noncomputable def loop (round : σ → Checked ε (Round σ β)) (state : σ) : Checked ε β :=
  if h : ∃ n outcome, loopFor round n state = done outcome then loopFor round h.choose state
  else ofOption none

variable {round : σ → Checked ε (Round σ β)} {state : σ}

/-- More rounds than are needed make no difference. -/
theorem loopFor_mono {n m : Nat} {outcome : Except ε β} (h : loopFor round n state = done outcome)
    (hle : n ≤ m) : loopFor round m state = done outcome := by
  induction n generalizing state m with
  | zero => exact absurd h (ofOption_none_ne outcome)
  | succ n ih =>
    obtain ⟨m, rfl⟩ := Nat.exists_eq_add_one_of_ne_zero (Nat.ne_zero_of_lt hle)
    rw [loopFor, bind_eq_done_iff] at h ⊢
    rcases h with herror | ⟨next, hround, h⟩
    · exact .inl herror
    · refine .inr ⟨next, hround, ?_⟩
      cases next with
      | onward state => exact ih h (Nat.le_of_succ_le_succ hle)
      | ended result => exact h

theorem loop_eq_done_iff {outcome : Except ε β} :
    loop round state = done outcome ↔ ∃ n, loopFor round n state = done outcome := by
  constructor
  · intro h
    rw [loop] at h
    split at h
    · exact ⟨_, h⟩
    · exact absurd h (ofOption_none_ne outcome)
  · rintro ⟨n, hn⟩
    have hends : ∃ n outcome, loopFor round n state = done outcome := ⟨n, outcome, hn⟩
    obtain ⟨outcome', hends'⟩ := hends.choose_spec
    have hsame := (loopFor_mono hn (Nat.le_max_left n hends.choose)).symm.trans
      (loopFor_mono hends' (Nat.le_max_right n hends.choose))
    rw [loop, dif_pos hends, hends', hsame]

theorem Round.resume_loop_eq_done_iff {next : Round σ β} {outcome : Except ε β} :
    next.resume (loop round) = done outcome ↔
      ∃ n, next.resume (loopFor round n) = done outcome := by
  cases next with
  | onward state => exact loop_eq_done_iff
  | ended result => exact (exists_const Nat).symm

/-- A loop is its first round and then the loop from there. -/
theorem loop_eq (round : σ → Checked ε (Round σ β)) (state : σ) :
    loop round state = round state >>= Round.resume (loop round) := by
  refine ext_done fun outcome => ?_
  rw [loop_eq_done_iff, bind_eq_done_iff]
  constructor
  · rintro ⟨_ | n, h⟩
    · exact absurd h (ofOption_none_ne outcome)
    rw [loopFor, bind_eq_done_iff] at h
    rcases h with herror | ⟨next, hround, h⟩
    · exact .inl herror
    · exact .inr ⟨next, hround, Round.resume_loop_eq_done_iff.mpr ⟨n, h⟩⟩
  · rintro (herror | ⟨next, hround, h⟩)
    · exact ⟨1, bind_eq_done_iff.mpr (.inl herror)⟩
    · obtain ⟨n, hn⟩ := Round.resume_loop_eq_done_iff.mp h
      exact ⟨n + 1, bind_eq_done_iff.mpr (.inr ⟨next, hround, hn⟩)⟩

/-! ## Operations -/

/-- The byte at a position. -/
def byteAt (input : Bytes) (i : Nat) : Checked ε UInt8 := ofOption input[i]?

/-- The part of a buffer between two positions. -/
def cut (input : Bytes) (i j : Nat) : Checked ε Bytes :=
  ofOption (if i ≤ j ∧ j ≤ input.length then some (input.extract i j) else none)

/-- The sum of two counters. -/
def add (a b : Nat) : Checked ε Nat :=
  ofOption (if a + b < Decimal.unsignedLimit then some (a + b) else none)

/-- The difference of two counters. -/
def sub (a b : Nat) : Checked ε Nat := ofOption (if b ≤ a then some (a - b) else none)

theorem add_eq {a b : Nat} (h : a + b < Decimal.unsignedLimit) :
    (add a b : Checked ε Nat) = done (.ok (a + b)) := by
  rw [add, if_pos h, ofOption_some]

theorem sub_eq {a b : Nat} (h : b ≤ a) : (sub a b : Checked ε Nat) = done (.ok (a - b)) := by
  rw [sub, if_pos h, ofOption_some]

/-! ## Positions -/

/-- Where a suffix of a buffer starts. -/
def position (input rest : Bytes) : Nat := input.length - rest.length

variable {input doc rest : Bytes} {b : UInt8}

@[simp] theorem position_self (input : Bytes) : position input input = 0 := Nat.sub_self _

@[simp] theorem position_nil (input : Bytes) : position input [] = input.length := rfl

theorem position_le (input rest : Bytes) : position input rest ≤ input.length := Nat.sub_le _ _

theorem position_add_length (h : rest <:+ input) :
    position input rest + rest.length = input.length :=
  Nat.sub_add_cancel h.length_le

theorem position_mono (input : Bytes) (h : rest <:+ doc) :
    position input doc ≤ position input rest :=
  Nat.sub_le_sub_left h.length_le _

/-- The suffix behind a byte starts behind it. -/
theorem position_cons (h : b :: rest <:+ input) :
    position input (b :: rest) + 1 = position input rest := by
  have hlength := h.length_le
  rw [List.length_cons] at hlength
  rw [position, position, List.length_cons]
  omega

theorem position_cons_lt (h : b :: rest <:+ input) : position input (b :: rest) < input.length := by
  have hsum := position_add_length h
  rw [List.length_cons] at hsum
  omega

theorem suffix_of_cons (h : b :: rest <:+ input) : rest <:+ input :=
  (List.suffix_cons b rest).trans h

theorem drop_position (h : rest <:+ input) : input.drop (position input rest) = rest :=
  (List.suffix_iff_eq_drop.mp h).symm

/-- Every position up to the end of a buffer is where a suffix starts. -/
theorem position_drop {i : Nat} (h : i ≤ input.length) : position input (input.drop i) = i := by
  rw [position, List.length_drop]
  omega

theorem byteAt_position (h : b :: rest <:+ input) :
    (byteAt input (position input (b :: rest)) : Checked ε UInt8) = done (.ok b) := by
  have hget : input[position input (b :: rest)]? = some b := by
    rw [← List.head?_drop, drop_position h]
    rfl
  rw [byteAt, hget, ofOption_some]

theorem cut_position (hdoc : doc <:+ input) (hrest : rest <:+ doc) :
    (cut input (position input doc) (position input rest) : Checked ε Bytes) =
      done (.ok (Bytes.upTo doc rest)) := by
  have hlength := position_add_length hdoc
  have hlength' := position_add_length (hrest.trans hdoc)
  have hwidth : position input rest - position input doc = doc.length - rest.length := by omega
  rw [cut, if_pos ⟨position_mono input hrest, position_le input rest⟩, ofOption_some,
    List.extract_eq_take_drop, drop_position hdoc, hwidth, Bytes.upTo]

/-- The part of a buffer from a position on. -/
theorem cut_position_length (h : doc <:+ input) :
    (cut input (position input doc) input.length : Checked ε Bytes) = done (.ok doc) := by
  have hcut : (cut input (position input doc) (position input []) : Checked ε Bytes) =
      done (.ok (Bytes.upTo doc [])) := cut_position h List.nil_suffix
  rwa [position_nil, Bytes.upTo, List.length_nil, Nat.sub_zero, List.take_length] at hcut

/-- A position can be moved a little way beyond the end. -/
theorem add_within {i n : Nat} (hlength : input.length < Decimal.signedLimit)
    (hi : i ≤ input.length) (hn : n ≤ Decimal.signedLimit) :
    (add i n : Checked ε Nat) = done (.ok (i + n)) :=
  add_eq (Nat.lt_of_lt_of_le (Nat.add_lt_add_of_lt_of_le (Nat.lt_of_le_of_lt hi hlength) hn)
    (by decide))

theorem add_position_cons (hlength : input.length < Decimal.signedLimit)
    (h : b :: rest <:+ input) :
    (add (position input (b :: rest)) 1 : Checked ε Nat) = done (.ok (position input rest)) := by
  rw [add_within hlength (position_le _ _) (by decide), position_cons h]

/-! ## Runs of bytes -/

/-- Goes on over the bytes that satisfy `p`. -/
noncomputable def skipWhile (p : UInt8 → Bool) (input : Bytes) : Nat → Checked ε Nat :=
  loop fun i => do
    if i < input.length then
      let b ← byteAt input i
      if p b then
        let i ← add i 1
        return .onward i
      else return .ended i
    else return .ended i

theorem skipWhile_end (p : UInt8 → Bool) {i : Nat} (h : input.length ≤ i) :
    (skipWhile p input i : Checked ε Nat) = done (.ok i) := by
  rw [skipWhile, loop_eq, if_neg (Nat.not_lt.mpr h)]
  rfl

theorem skipWhile_eq (p : UInt8 → Bool) (hlength : input.length < Decimal.signedLimit)
    (h : doc <:+ input) :
    (skipWhile p input (position input doc) : Checked ε Nat) =
      done (.ok (position input (doc.dropWhile p))) := by
  induction doc with
  | nil => exact skipWhile_end p (Nat.le_refl _)
  | cons b rest ih =>
    rw [skipWhile, loop_eq, if_pos (position_cons_lt h), byteAt_position h, done_ok_bind,
      List.dropWhile_cons]
    split
    · rw [add_position_cons hlength h]
      exact ih (suffix_of_cons h)
    · rfl

end Checked

end RawJson
