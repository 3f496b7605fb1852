/-
The elements of an array one call at a time. An iterator has a position in its
buffer and remembers that it is done; each call passes a gap and then a value, the
closing bracket, or neither. The list of elements that selections work on is what
the calls give if they come to the bracket (`Iterator.gives_iff`), but a caller
can stop before that or go on behind it.

One call gives a span, and uses up the bytes it is of, or else it is the last to
give anything (`Iterator.Call`); the rest is by induction on the calls. The
spans up to the bracket are a partition of the array: in order, apart, and with
separators alone around them (`Spans.partition`).
-/
import RawJson.Proofs.Selection

namespace RawJson

open Checked (Span)

/-- The elements of an array in a buffer, from a position on. -/
structure Iterator where
  input : Bytes
  pos : Nat
  finished : Bool
  deriving DecidableEq, Repr

namespace Iterator

/-! ## Calls -/

/-- An iterator starts behind the bracket that opens the array. -/
def start (input : Bytes) (key : String) : Except LookupError Iterator :=
  if input.head? = some Byte.openSquare then .ok ⟨input, 1, false⟩
  else .error (.typeMismatch key .array)

/-- The next element and where it stands, none at the closing bracket. -/
def advance (it : Iterator) : Except Fault (Option Span) :=
  (Element.next (it.input.drop it.pos)).map (Option.map (Checked.spanOf it.input))

/-- What a call gives, and the iterator after it. -/
def next (it : Iterator) : Option (Except Fault Span) × Iterator :=
  if it.finished then (none, it)
  else
    match it.advance with
    | .ok (some span) => (some (.ok span), { it with pos := span.stop })
    | .ok none => (none, { it with finished := true })
    | .error fault => (some (.error fault), { it with finished := true })

/-- What so many calls give, one after another. -/
def calls : Nat → Iterator → List (Option (Except Fault Span))
  | 0, _ => []
  | n + 1, it => it.next.1 :: calls n it.next.2

/-- A call of a program on a buffer moves from one position to the next. -/
theorem advance_eq_checked {it : Iterator} (hlength : it.input.length < Decimal.signedLimit)
    (hpos : it.pos ≤ it.input.length) :
    Checked.advance it.input it.pos = Checked.done it.advance := by
  have hadvance := Checked.advance_eq hlength (List.drop_suffix it.pos it.input)
  rwa [Checked.position_drop hpos] at hadvance

/-! ## One call -/

/-- What a call can give and leave: nothing, if the iterator is done; the end, at the
closing bracket or with a fault; or a span, behind which the next call goes on. -/
inductive Call (it : Iterator) : Option (Except Fault Span) × Iterator → Prop where
  | idle (hfinished : it.finished = true) : Call it (none, it)
  | closed (hfinished : it.finished = false)
      (hnext : Element.next (it.input.drop it.pos) = .ok none) :
      Call it (none, { it with finished := true })
  | failed {fault : Fault} (hfinished : it.finished = false)
      (hnext : Element.next (it.input.drop it.pos) = .error fault) :
      Call it (some (.error fault), { it with finished := true })
  | gave {element : Element} (hfinished : it.finished = false)
      (hnext : Element.next (it.input.drop it.pos) = .ok (some element)) :
      Call it (some (.ok (Checked.spanOf it.input element)),
        { it with pos := (Checked.spanOf it.input element).stop })

theorem call_next (it : Iterator) : it.Call it.next := by
  obtain ⟨input, pos, finished⟩ := it
  cases finished with
  | true => exact .idle rfl
  | false =>
    unfold next advance
    cases hnext : Element.next (input.drop pos) with
    | error fault => exact .failed rfl hnext
    | ok element? =>
      cases element? with
      | none => exact .closed rfl hnext
      | some element => exact .gave rfl hnext

theorem drop_stop {input : Bytes} {pos : Nat} {element : Element}
    (h : Element.next (input.drop pos) = .ok (some element)) :
    input.drop (Checked.spanOf input element).stop = element.stop := by
  obtain ⟨hstart, hstop⟩ := Element.next_suffix h
  exact Checked.drop_position (hstop.trans (hstart.trans (List.drop_suffix pos input)))

/-! ## All calls -/

theorem calls_of_finished {it : Iterator} (h : it.finished = true) (n : Nat) :
    it.calls n = List.replicate n none := by
  have hnext : it.next = (none, it) := if_pos h
  induction n with
  | zero => rfl
  | succ n ih => rw [calls, hnext, ih, List.replicate_succ]

theorem calls_behind {it : Iterator} {n : Nat} {earlier later : List (Option (Except Fault Span))}
    {answer : Option (Except Fault Span)} (h : it.calls n = earlier ++ answer :: later)
    (hanswer : ∀ span, answer ≠ some (.ok span)) : ∀ other ∈ later, other = none := by
  induction earlier generalizing it n with
  | nil =>
    cases n with
    | zero => cases h
    | succ n =>
      rw [calls, List.nil_append, List.cons.injEq] at h
      obtain ⟨rfl, rfl⟩ := h
      have hfinished : it.next.2.finished = true := by
        have hcall := it.call_next
        generalize it.next = result at hcall hanswer ⊢
        cases hcall with
        | idle hfinished => exact hfinished
        | closed => rfl
        | failed => rfl
        | gave => exact absurd rfl (hanswer _)
      rw [calls_of_finished hfinished]
      exact fun other hmem => List.eq_of_mem_replicate hmem
  | cons first earlier ih =>
    cases n with
    | zero => cases h
    | succ n =>
      rw [calls, List.cons_append, List.cons.injEq] at h
      exact ih h.2

/-- The answer of a call is a span, neither a fault nor the end. -/
def isSpan : Option (Except Fault Span) → Bool
  | some (.ok _) => true
  | _ => false

/-- Every span uses up at least a byte. -/
theorem countP_calls (it : Iterator) (n : Nat) :
    (it.calls n).countP isSpan ≤ (it.input.drop it.pos).length := by
  induction n generalizing it with
  | zero => exact Nat.zero_le _
  | succ n ih =>
    rw [calls, List.countP_cons]
    have hothers := ih it.next.2
    have hcall := it.call_next
    generalize it.next = result at hcall hothers ⊢
    cases hcall with
    | idle => exact hothers
    | closed => exact hothers
    | failed => exact hothers
    | gave _ hnext =>
      dsimp only at hothers
      rw [drop_stop hnext] at hothers
      exact Nat.lt_of_le_of_lt hothers (Element.next_length hnext)

/-- Spans and then nothing: that is what the calls of a list of elements give. -/
def Gives (it : Iterator) (spans : List Span) : Prop :=
  it.calls (spans.length + 1) = spans.map (fun span => some (.ok span)) ++ [none]

theorem gives_nil_iff {it : Iterator} : it.Gives [] ↔ it.next.1 = none := by
  show [it.next.1] = [none] ↔ _
  rw [List.cons.injEq]
  exact ⟨And.left, fun h => ⟨h, rfl⟩⟩

theorem gives_cons_iff {it : Iterator} {span : Span} {spans : List Span} :
    it.Gives (span :: spans) ↔ it.next.1 = some (.ok span) ∧ it.next.2.Gives spans := by
  show _ :: _ = _ :: _ ↔ _
  rw [List.cons.injEq]
  rfl

/-- The calls of an iterator list the elements of its array. -/
theorem gives_iff {it : Iterator} (h : it.finished = false) {spans : List Span} :
    it.Gives spans ↔ ∃ items, Element.Lists (it.input.drop it.pos) items ∧
      spans = items.map (Checked.spanOf it.input) := by
  constructor
  · intro hgives
    induction spans generalizing it with
    | nil =>
      have hnone := gives_nil_iff.mp hgives
      have hcall := it.call_next
      generalize it.next = result at hcall hnone
      cases hcall with
      | idle hfinished => exact absurd hfinished (Bool.eq_false_iff.mp h)
      | closed _ hnext => exact ⟨[], .nil hnext, rfl⟩
      | failed => cases hnone
      | gave => cases hnone
    | cons span spans ih =>
      obtain ⟨hspan, hspans⟩ := gives_cons_iff.mp hgives
      have hcall := it.call_next
      generalize it.next = result at hcall hspan hspans
      cases hcall with
      | idle => cases hspan
      | closed => cases hspan
      | failed => cases hspan
      | @gave element _ hnext =>
        cases hspan
        obtain ⟨items, hitems, rfl⟩ :=
          @ih { it with pos := (Checked.spanOf it.input element).stop } h hspans
        rw [drop_stop hnext] at hitems
        exact ⟨element :: items, .cons hnext hitems, rfl⟩
  · rintro ⟨items, hitems, rfl⟩
    generalize hrest : it.input.drop it.pos = rest at hitems
    induction hitems generalizing it with
    | nil hend =>
      refine gives_nil_iff.mpr ?_
      rw [next, h, advance, hrest, hend]
      rfl
    | @cons rest element items hfound _ ih =>
      subst hrest
      have hnext : it.next = (some (.ok (Checked.spanOf it.input element)),
          { it with pos := (Checked.spanOf it.input element).stop }) := by
        rw [next, h, advance, hfound]
        rfl
      refine gives_cons_iff.mpr ?_
      rw [hnext]
      exact ⟨rfl, @ih { it with pos := (Checked.spanOf it.input element).stop } h
        (drop_stop hfound)⟩

end Iterator

/-! ## Partitions -/

/-- A byte of a document is in a span. -/
def InSpan (span : Span) (i : Nat) : Prop := span.start ≤ i ∧ i < span.stop

/-- These spans are the values of an array, from a position up to the bracket that
closes it. -/
structure Partition (input : Bytes) (i : Nat) (spans : List Span) (close : Nat) : Prop where
  le : i ≤ close
  closing : input[close]? = some Byte.closeSquare
  within : ∀ span ∈ spans, i ≤ span.start ∧ span.start < span.stop ∧ span.stop ≤ close
  ordered : spans.Pairwise fun earlier later => earlier.stop ≤ later.start
  /-- What is in no span is a separator. -/
  gaps : ∀ (j : Nat) (b : UInt8), i ≤ j → j < close → input[j]? = some b →
    (∀ span ∈ spans, ¬InSpan span j) → Byte.isSeparator b = true
  /-- A span begins with the first byte of a value. -/
  first : ∀ span ∈ spans, ∃ b, input[span.start]? = some b ∧ Byte.isSeparator b = false ∧
    b ≠ Byte.closeSquare
  /-- A scan from its start ends where it does. -/
  scanned : ∀ span ∈ spans, afterValue (input.drop span.start) = .ok (input.drop span.stop)

theorem mem_extract {doc : Bytes} {i j k : Nat} {b : UInt8} (hi : i ≤ k) (hj : k < j)
    (hb : doc[k]? = some b) : b ∈ doc.extract i j := by
  rw [List.extract_eq_take_drop]
  refine List.mem_iff_getElem?.mpr ⟨k - i, ?_⟩
  rw [List.getElem?_take_of_lt (by omega), List.getElem?_drop, Nat.add_sub_of_le hi, hb]

theorem Spans.partition {doc : Bytes} {i : Nat} {spans : List Span} (h : Spans doc i spans) :
    ∃ close, Partition doc i spans close := by
  induction h with
  | @nil i j hle hgap hclose =>
    exact ⟨j, hle, hclose, nofun, .nil, fun k b hi hj hb _ => hgap b (mem_extract hi hj hb), nofun,
      nofun⟩
  | @cons i span spans hle hgap hvalue hwhole hothers ih =>
    obtain ⟨close, ih⟩ := ih
    have hlt := hvalue.start_lt_stop
    have hdrop : doc.drop span.start = doc.extract span.start span.stop ++ doc.drop span.stop :=
      drop_eq_extract (Nat.le_of_lt hlt)
    refine ⟨close, Nat.le_trans (Nat.le_trans hle (Nat.le_of_lt hlt)) ih.le, ih.closing, ?_, ?_, ?_,
      ?_, ?_⟩
    · refine List.forall_mem_cons.mpr ⟨⟨hle, hlt, ih.le⟩, fun later hmem => ?_⟩
      obtain ⟨hstart, hstop⟩ := ih.within later hmem
      exact ⟨by omega, hstop⟩
    · exact .cons (fun later hmem => (ih.within later hmem).1) ih.ordered
    · intro j b hi hj hb hnone
      obtain ⟨hspan, hnone⟩ := List.forall_mem_cons.mp hnone
      by_cases hbefore : j < span.start
      · exact hgap b (mem_extract hi hbefore hb)
      · have hbehind : span.stop ≤ j := Nat.le_of_not_lt fun hin => hspan ⟨by omega, hin⟩
        exact ih.gaps j b hbehind hj hb hnone
    · refine List.forall_mem_cons.mpr ⟨?_, ih.first⟩
      obtain ⟨b, rest, htext, htoken⟩ := hvalue
      have hlead := htoken.lead
      refine ⟨b, ?_, Byte.isSeparator_of_endsScalar hlead, ?_⟩
      · rw [← List.head?_drop, hdrop, htext]
        rfl
      · rintro rfl
        cases hlead
    · refine List.forall_mem_cons.mpr ⟨?_, ih.scanned⟩
      rw [hdrop]
      exact hvalue.afterValue hwhole

namespace Partition

variable {input : Bytes} {i close : Nat} {spans : List Span}

theorem eq_of_inSpan (h : Partition input i spans close) {a b : Span} (ha : a ∈ spans)
    (hb : b ∈ spans) {j : Nat} (hin : InSpan a j) (hin' : InSpan b j) : a = b := by
  obtain ⟨m, hm, rfl⟩ := List.getElem_of_mem ha
  obtain ⟨n, hn, rfl⟩ := List.getElem_of_mem hb
  have hordered := List.pairwise_iff_getElem.mp h.ordered
  unfold InSpan at hin hin'
  rcases Nat.lt_trichotomy m n with hlt | rfl | hlt
  · have := hordered m n hm hn hlt
    omega
  · rfl
  · have := hordered n m hn hm hlt
    omega

theorem covers (h : Partition input i spans close) {j : Nat} {b : UInt8} (hi : i ≤ j)
    (hj : j < close) (hb : input[j]? = some b) (hsep : Byte.isSeparator b = false) :
    ∃ span ∈ spans, InSpan span j := by
  refine Classical.byContradiction fun hnone => ?_
  have hgap := h.gaps j b hi hj hb fun span hmem hin => hnone ⟨span, hmem, hin⟩
  rw [hsep] at hgap
  cases hgap

theorem skipValue (h : Partition input i spans close)
    (hlength : input.length < Decimal.signedLimit) {span : Span} (hmem : span ∈ spans) :
    Checked.skipValue input span.start = Checked.done (.ok span.stop) := by
  obtain ⟨-, hlt, hle⟩ := h.within span hmem
  have hclose : close < input.length := (List.getElem?_eq_some_iff.mp h.closing).1
  have hscan := Checked.skipValue_eq hlength (List.drop_suffix span.start input)
  rw [Checked.position_drop (by omega), h.scanned span hmem] at hscan
  rw [hscan, Except.map, Checked.position_drop (by omega)]

end Partition

namespace Iterator

theorem spans_of_gives {input : Bytes} (hopen : input.head? = some Byte.openSquare)
    {spans : List Span} (h : Gives ⟨input, 1, false⟩ spans) : Spans input 1 spans := by
  obtain ⟨items, hitems, rfl⟩ := (gives_iff rfl).mp h
  have hlength : 1 + (input.drop 1).length = input.length := by
    cases input with
    | nil => cases hopen
    | cons b rest => exact Nat.add_comm ..
  have hspans := hitems.spans (i := 1) (List.append_nil _).symm
  rwa [hlength] at hspans

/-- **The elements of an array are a partition of it.** Whatever stands behind an
opening bracket, if the calls of its iterator come to the closing bracket without
a fault, their spans are in order, each is one value from its first byte to its
last, which is where a scan stops, and every byte around them is a separator, so
that every other byte of the array is in one span and in no other. And whatever
state an iterator is in, behind a call that gives no span calls give nothing, and
no more calls give spans than the buffer has bytes. -/
theorem spans_partition :
    (∀ (input : Bytes) (key : String), input.head? = some Byte.openSquare →
      ∃ it, start input key = .ok it ∧
        ∀ spans : List Span,
          it.calls (spans.length + 1) = spans.map (fun span => some (.ok span)) ++ [none] →
          ∃ close, Partition input 1 spans close ∧
            (∀ (i : Nat) (b : UInt8), 1 ≤ i → i < close → input[i]? = some b →
              Byte.isSeparator b = false → ∃ span ∈ spans, InSpan span i ∧
                ∀ other ∈ spans, InSpan other i → other = span) ∧
            (input.length < Decimal.signedLimit → ∀ span ∈ spans,
              Checked.skipValue input span.start = Checked.done (.ok span.stop))) ∧
    ∀ (it : Iterator) (n : Nat),
      (∀ earlier answer later, it.calls n = earlier ++ answer :: later →
        (∀ span, answer ≠ some (.ok span)) → ∀ other ∈ later, other = none) ∧
      (it.calls n).countP isSpan ≤ it.input.length := by
  constructor
  · intro input key hopen
    refine ⟨⟨input, 1, false⟩, if_pos hopen, fun spans hcalls => ?_⟩
    obtain ⟨close, hpartition⟩ := (spans_of_gives hopen hcalls).partition
    refine ⟨close, hpartition, fun i b hi hclose hb hsep => ?_, fun hlength span hmem =>
      hpartition.skipValue hlength hmem⟩
    obtain ⟨span, hmem, hin⟩ := hpartition.covers hi hclose hb hsep
    exact ⟨span, hmem, hin, fun other hother hin' => hpartition.eq_of_inSpan hother hmem hin' hin⟩
  · intro it n
    exact ⟨fun earlier answer later hcalls hanswer => calls_behind hcalls hanswer,
      Nat.le_trans (it.countP_calls n) (List.drop_suffix it.pos it.input).length_le⟩

/-- A string, a bare scalar that touches it and has a quote and a brace in it, and
a call behind the one that came to the closing bracket. -/
theorem spans_partition_touching :
    ∃ it close, start (Bytes.ofString "[\"a\"x\"\x7b ,]]") "k" = .ok it ∧
      Partition (Bytes.ofString "[\"a\"x\"\x7b ,]]") 1 [⟨1, 4⟩, ⟨4, 7⟩] close ∧
      Checked.skipValue (Bytes.ofString "[\"a\"x\"\x7b ,]]") 4 = Checked.done (.ok 7) ∧
      it.calls 4 = [some (.ok ⟨1, 4⟩), some (.ok ⟨4, 7⟩), none, none] := by
  obtain ⟨hpartition, hbehind⟩ := spans_partition
  obtain ⟨it, hstart, hspans⟩ := hpartition (Bytes.ofString "[\"a\"x\"\x7b ,]]") "k" (by decide)
  have hit : ⟨Bytes.ofString "[\"a\"x\"\x7b ,]]", 1, false⟩ = it :=
    Except.ok.inj hstart
  have hcalls : it.calls 3 = [some (.ok ⟨1, 4⟩), some (.ok ⟨4, 7⟩), none] := by
    rw [← hit]
    rfl
  obtain ⟨close, hpartition, -, hscans⟩ := hspans [⟨1, 4⟩, ⟨4, 7⟩] hcalls
  refine ⟨it, close, hstart, hpartition,
    hscans (by decide) ⟨4, 7⟩ (List.mem_cons_of_mem _ List.mem_cons_self), ?_⟩
  obtain ⟨last, hlast⟩ : ∃ last, it.calls 4 =
      [some (.ok ⟨1, 4⟩), some (.ok ⟨4, 7⟩)] ++ none :: [last] := by
    rw [← hit]
    exact ⟨_, rfl⟩
  have hnone : last = none := (hbehind it 4).1 _ none [last] hlast nofun last List.mem_cons_self
  rw [hlast, hnone]
  rfl

end Iterator

end RawJson
