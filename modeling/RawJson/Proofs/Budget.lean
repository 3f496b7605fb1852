/-
What the limit on the number of segments does to a path. The reader looks at the
limit on entry to each segment and at no other time, so all that matters is how many
segments the text begins (`Cursor.begun`): where there is room for them the limit
plays no part, neither in the path nor in what is wrong with the text; where there is
not, the limit is what the text is refused for, whatever else is wrong with it.

`begun` follows the reader. It is also a number of the text alone: one more than the
dots of the longest front of a chain that the text begins with.
-/
import RawJson.Proofs.Flaw
import Mathlib.Order.Bounds.Defs

namespace RawJson

namespace Cursor

/-! ## The segments that a text begins -/

theorem segment_length_lt {start next : Cursor} {token : Token}
    (h : segment start = .ok (token, some next)) : next.rest.length < start.rest.length := by
  obtain ⟨text, -, -, hreads⟩ := segment_eq_some_iff.mp h
  rw [hreads.rest, List.length_append, List.length_append]
  exact Nat.lt_add_of_pos_left (Nat.succ_pos _)

/-- The number of segments that the reader begins from `start` on if there is room for
all of them, whether or not the last of them can be read. -/
def begun (start : Cursor) : Nat :=
  match h : segment start with
  | .ok (_, some next) => begun next + 1
  | _ => 1
termination_by start.rest.length
decreasing_by exact segment_length_lt h

theorem begun_of_next {start next : Cursor} {token : Token}
    (h : segment start = .ok (token, some next)) : begun start = begun next + 1 := by
  rw [begun]
  grind

theorem begun_of_last {start : Cursor}
    (h : ∀ token next, segment start ≠ .ok (token, some next)) : begun start = 1 := by
  rw [begun]
  grind

theorem begun_pos (start : Cursor) : 0 < begun start := by
  by_cases h : ∃ token next, segment start = .ok (token, some next)
  · obtain ⟨token, next, h⟩ := h
    rw [begun_of_next h]
    exact Nat.succ_pos _
  · rw [begun_of_last fun token next hnext => h ⟨token, next, hnext⟩]
    exact Nat.one_pos

theorem begun_le (start : Cursor) : begun start ≤ Bytes.utf8Length start.rest + 1 := by
  induction start using begun.induct with
  | case1 start token next h ih =>
    obtain ⟨text, -, -, hreads⟩ := segment_eq_some_iff.mp h
    have hdot : Bytes.utf8Length ['.'] = 1 := rfl
    rw [begun_of_next h, hreads.rest, Bytes.utf8Length_append, Bytes.utf8Length_append, hdot]
    omega
  | case2 start h =>
    rw [begun_of_last h]
    exact Nat.succ_pos _

theorem begun_of_lead {lead : List Char} {tokens : List Token} (h : IsLead lead tokens)
    {start cursor : Cursor} (hreads : Reads start lead cursor) :
    begun start = tokens.length + begun cursor := by
  induction h generalizing start with
  | nil =>
    rw [Reads.nil_iff.mp hreads]
    exact (Nat.zero_add _).symm
  | cons hsegment hends _ ih =>
    rw [← List.singleton_append, ← List.append_assoc] at hreads
    obtain ⟨next, hreads, hrest⟩ := reads_append_iff.mp hreads
    rw [begun_of_next (segment_eq_some_iff.mpr ⟨_, hsegment, hends, hreads⟩), ih hrest,
      List.length_cons, Nat.add_right_comm]

theorem exists_lead (start : Cursor) :
    ∃ lead tokens cursor, IsLead lead tokens ∧ Reads start lead cursor ∧
      begun start = tokens.length + 1 := by
  induction start using begun.induct with
  | case1 start token next h ih =>
    obtain ⟨lead, tokens, cursor, hlead, hreads, hbegun⟩ := ih
    obtain ⟨text, hsegment, hends, hdot⟩ := segment_eq_some_iff.mp h
    have hwhole := hdot.append hreads
    rw [List.append_assoc, List.singleton_append] at hwhole
    exact ⟨_, _, cursor, .cons hsegment hends hlead, hwhole, by rw [begun_of_next h, hbegun]; rfl⟩
  | case2 start h => exact ⟨[], [], start, .nil, .refl start, begun_of_last h⟩

/-- **The segments that are begun are the most that the text has dots for**: one more
than there are in the longest front of a chain that it begins with. -/
theorem begun_isGreatest (start : Cursor) :
    IsGreatest {n | ∃ lead tokens, IsLead lead tokens ∧ lead <+: start.rest ∧
      n = tokens.length + 1} (begun start) := by
  constructor
  · obtain ⟨lead, tokens, cursor, hlead, hreads, hbegun⟩ := exists_lead start
    exact ⟨lead, tokens, hlead, ⟨cursor.rest, hreads.rest.symm⟩, hbegun⟩
  · rintro n ⟨lead, tokens, hlead, ⟨rest, hrest⟩, rfl⟩
    have hreads : Reads start lead ⟨start.pos + Bytes.utf8Length lead, rest⟩ := ⟨hrest.symm, rfl⟩
    rw [begun_of_lead hlead hreads]
    exact Nat.add_le_add_left (begun_pos _) _

/-! ## Runs with more room and with less -/

/-- **With room for what is begun, the limit plays no part.** -/
theorem segments_of_begun_le {start : Cursor} {limit other : UInt64} {budget room : Nat}
    (hbudget : begun start ≤ budget) (hroom : begun start ≤ room) :
    segments limit budget start = segments other room start := by
  induction budget generalizing start room with
  | zero => exact absurd hbudget (Nat.not_le.mpr (begun_pos start))
  | succ budget ih =>
    obtain ⟨room, rfl⟩ := Nat.exists_eq_add_one.mpr (Nat.lt_of_lt_of_le (begun_pos start) hroom)
    rw [segments, segments]
    rcases h : segment start with error | ⟨token, _ | next⟩
    · rfl
    · rfl
    · rw [begun_of_next h] at hbudget hroom
      dsimp only
      rw [ih (Nat.le_of_succ_le_succ hbudget) (Nat.le_of_succ_le_succ hroom)]

/-- **With less room, the limit is what is wrong.** -/
theorem segments_of_lt_begun {start : Cursor} {limit : UInt64} {budget : Nat}
    (hbudget : budget < begun start) :
    segments limit budget start = .error (.tooManySegments limit) := by
  induction budget generalizing start with
  | zero => rfl
  | succ budget ih =>
    rw [segments]
    rcases h : segment start with error | ⟨token, _ | next⟩
    · rw [begun_of_last (by simp [h])] at hbudget
      exact absurd hbudget (by omega)
    · rw [begun_of_last (by simp [h])] at hbudget
      exact absurd hbudget (by omega)
    · rw [begun_of_next h] at hbudget
      dsimp only
      rw [ih (Nat.lt_of_succ_lt_succ hbudget)]

theorem begun_of_segments {start : Cursor} {limit : UInt64} {budget : Nat} {path : Path}
    (h : segments limit budget start = .ok path) : begun start = path.length := by
  induction budget generalizing start path with
  | zero => cases h
  | succ budget ih =>
    rw [segments] at h
    rcases hsegment : segment start with error | ⟨token, _ | next⟩
    · rw [hsegment] at h
      cases h
    · rw [hsegment] at h
      cases h
      exact begun_of_last (by rw [hsegment]; simp)
    · rw [hsegment] at h
      dsimp only at h
      cases hrest : segments limit budget next with
      | error error =>
        rw [hrest] at h
        cases h
      | ok rest =>
        rw [hrest] at h
        cases h
        rw [begun_of_next hsegment, ih hrest]
        rfl

end Cursor

/-! ## Paths -/

namespace Path

theorem parse_of_root {text : String} (hroot : text.toList.head? = some '$') (limit : UInt64) :
    parse limit text = Cursor.segments limit limit.toNat (Cursor.ofString text) := by
  obtain ⟨rest, htext⟩ := List.head?_eq_some_iff.mp hroot
  unfold parse
  rw [htext]
  rfl

/-- **The limit on segments only cuts off.** A text with the root in front begins a
number of segments, whatever the limit is. Where the limit is not below it, parsing
has the outcome that it has with as good as no limit; where it is, the text is refused
for the limit. So a path is read with the limits that are not below its length and is
always the same, and the outcome with a lower limit is the one with a higher limit or
that there are too many segments. -/
theorem parse_limit (text : String) (hroot : text.toList.head? = some '$') :
    let begun := (Cursor.ofString text).begun
    IsGreatest {n | ∃ lead tokens, IsLead lead tokens ∧ lead <+: text.toList ∧
      n = tokens.length + 1} begun ∧
    (∀ high : UInt64, (Bytes.ofString text).length < high.toNat → ∀ limit : UInt64,
      parse limit text =
        if begun ≤ limit.toNat then parse high text else .error (.tooManySegments limit)) ∧
    (∀ accepting path, parse accepting text = .ok path → ∀ limit : UInt64,
      parse limit text =
        if path.length ≤ limit.toNat then .ok path else .error (.tooManySegments limit)) ∧
    ∀ low high : UInt64, low ≤ high →
      parse low text = parse high text ∨ parse low text = .error (.tooManySegments low) := by
  intro begun
  have hcut (limit : UInt64) (hlimit : ¬ begun ≤ limit.toNat) :
      parse limit text = .error (.tooManySegments limit) := by
    rw [parse_of_root hroot]
    exact Cursor.segments_of_lt_begun (Nat.lt_of_not_le hlimit)
  have hsame (limit other : UInt64) (hlimit : begun ≤ limit.toNat)
      (hother : begun ≤ other.toNat) : parse limit text = parse other text := by
    rw [parse_of_root hroot, parse_of_root hroot]
    exact Cursor.segments_of_begun_le hlimit hother
  -- With one limit that has room for all that is begun, all the others are settled.
  have hroom (high : UInt64) (hhigh : begun ≤ high.toNat) (limit : UInt64) : parse limit text =
      if begun ≤ limit.toNat then parse high text else .error (.tooManySegments limit) := by
    split
    · next hlimit => exact hsame limit high hlimit hhigh
    · next hlimit => exact hcut limit hlimit
  refine ⟨Cursor.begun_isGreatest (Cursor.ofString text), fun high hhigh => hroom high ?_, ?_, ?_⟩
  · rw [Bytes.length_ofString] at hhigh
    exact Nat.le_trans (Cursor.begun_le (Cursor.ofString text)) (Nat.succ_le_of_lt hhigh)
  · intro accepting path hpath limit
    have hlength : begun = path.length :=
      Cursor.begun_of_segments ((parse_of_root hroot accepting).symm.trans hpath)
    have haccepting : path.length ≤ accepting.toNat := (parse_eq_ok_iff.mp hpath).2.1
    rw [← hpath, ← hlength]
    exact hroom accepting (hlength ▸ haccepting) limit
  · intro low high hle
    by_cases hlow : begun ≤ low.toNat
    · exact .inl (hsame low high hlow (Nat.le_trans hlow (UInt64.le_iff_toNat_le.mp hle)))
    · exact .inr (hcut low hlow)

/-- Two segments are read and the third is empty: its error tells the limit or the
offset. -/
theorem parse_limit_empty_key :
    parse 2 "$.a.[0]" = .error (.tooManySegments 2) ∧ parse 3 "$.a.[0]" = .error (.emptyKey 4) := by
  have hbegun : (Cursor.ofString "$.a.[0]").begun = 3 := by decide +kernel
  have h := (parse_limit "$.a.[0]" rfl).2.1 8 (by decide)
  rw [hbegun] at h
  exact ⟨h 2, h 3⟩

end Path

end RawJson
