/-
Scans of documents that go on. A scan settles what it says from the bytes it
passes, so on a longer document it passes the same bytes and leaves the rest
with the new bytes behind. For strings, containers and gaps that is read off
their extents. A bare scalar ends where something else begins: it is safe as
soon as anything at all follows it, and in the loops over members and elements
something must, for a loop that comes to the end of the document reports that.

So each scan has one equation here, for every outcome that is not about the end
of the document (`Settled`). An element stands between two positions inside its
array, and is the same text in the longer document.
-/
import RawJson.Element
import RawJson.Member
import RawJson.Proofs.Extent

namespace RawJson

/-! ## Settled outcomes -/

/-- The document ended too early. -/
def Fault.isEnd : Fault → Bool
  | .unexpectedEnd _ => true
  | _ => false

/-- The outcome is not that the document ended too early. -/
def Settled {ε α : Type} (isEnd : ε → Bool) : Except ε α → Prop
  | .ok _ => True
  | .error error => isEnd error = false

@[simp] theorem settled_error {ε α : Type} {isEnd : ε → Bool} {error : ε} :
    Settled isEnd (.error error : Except ε α) ↔ isEnd error = false :=
  Iff.rfl

/-! ## Scans -/

variable {w : Bytes}

theorem afterGap_extend {doc rest : Bytes} {b : UInt8} (h : afterGap doc = .ok (b, rest)) :
    afterGap (doc ++ w) = .ok (b, rest ++ w) := by
  obtain ⟨gap, hg, hb, rfl⟩ := afterGap_eq_ok_iff.mp h
  exact afterGap_eq_ok_iff.mpr ⟨gap, hg, hb, by simp⟩

/-- A gap fails for want of anything behind it only. -/
theorem not_settled_afterGap {doc : Bytes} {fault : Fault} (h : afterGap doc = .error fault) :
    ¬fault.isEnd = false := by
  rw [afterGap_error h]
  exact nofun

theorem splitString_extend {doc body rest : Bytes} (h : splitString doc = some (body, rest)) :
    splitString (doc ++ w) = some (body, rest ++ w) := by
  obtain ⟨hbody, rfl⟩ := splitString_eq_some_iff.mp h
  exact splitString_eq_some_iff.mpr ⟨hbody, by simp⟩

theorem afterContainer_extend {bracket : Bracket} {depth : Nat} {doc rest : Bytes}
    (h : afterContainer bracket depth doc = some rest) :
    afterContainer bracket depth (doc ++ w) = some (rest ++ w) := by
  obtain ⟨text, htext, rfl⟩ := afterContainer_eq_some_iff.mp h
  exact afterContainer_eq_some_iff.mpr ⟨text, htext, by simp⟩

/-- The text is a bare scalar to its last byte. -/
def RunsOut : Bytes → Prop
  | [] => False
  | b :: rest => Byte.startsScalar b = true ∧ ∀ c ∈ rest, Byte.endsScalar c = false

/-- A token can only be wrong for a reason of its own by its first byte. -/
theorem afterToken_error {b : UInt8} {doc : Bytes} {fault : Fault}
    (h : afterToken b doc = .error fault) (hend : fault.isEnd = false) :
    Byte.endsScalar b = true := by
  rcases Byte.lead_cases b with rfl | ⟨bracket, rfl⟩ | hb | hb
  · rw [afterToken_quote] at h
    split at h
    · cases h
      exact nomatch hend
    · exact nomatch h
  · rw [afterToken_opening] at h
    split at h
    · cases h
      exact nomatch hend
    · exact nomatch h
  · rw [afterToken_scalar hb] at h
    exact nomatch h
  · exact hb

theorem RunsOut.afterToken {b : UInt8} {doc : Bytes} (h : RunsOut (b :: doc)) :
    afterToken b doc = .ok [] := by
  rw [afterToken_scalar h.1, afterScalar_eq_nil_iff.mpr h.2]

/-- Only a bare scalar that runs out can change with what is added. -/
theorem afterToken_extend {b : UInt8} {doc : Bytes} {outcome : Except Fault Bytes}
    (htoken : afterToken b doc = outcome) (h : Settled Fault.isEnd outcome)
    (hopen : RunsOut (b :: doc) → Delimited w) :
    afterToken b (doc ++ w) = outcome.map (· ++ w) := by
  cases outcome with
  | error fault =>
    have hb := afterToken_error htoken h
    rw [afterToken_endsScalar hb] at htoken ⊢
    cases htoken
    rfl
  | ok rest =>
    obtain ⟨text, htext, rfl, hd⟩ := afterToken_eq_ok_iff.mp htoken
    refine afterToken_eq_ok_iff.mpr ⟨text, htext, List.append_assoc .., fun hb => ?_⟩
    cases rest with
    | cons c rest => exact (hd hb).append (List.cons_ne_nil c rest) w
    | nil =>
      rw [List.append_nil, afterToken_scalar hb, Except.ok.injEq] at htoken
      rw [List.append_nil] at hopen
      exact hopen ⟨hb, afterScalar_eq_nil_iff.mp htoken⟩

/-- A value with anything at all behind it is the same in a longer document. -/
theorem afterValue_extend {doc : Bytes} {outcome : Except Fault Bytes}
    (hvalue : afterValue doc = outcome) (h : Settled Fault.isEnd outcome)
    (hrest : outcome ≠ .ok []) : afterValue (doc ++ w) = outcome.map (· ++ w) := by
  unfold afterValue at hvalue ⊢
  cases hgap : afterGap doc with
  | error fault =>
    rw [hgap] at hvalue
    subst hvalue
    exact absurd h (not_settled_afterGap hgap)
  | ok first =>
    rw [hgap] at hvalue
    rw [afterGap_extend hgap]
    exact afterToken_extend hvalue h fun hopen =>
      absurd (hvalue.symm.trans hopen.afterToken) hrest

/-! ## Members -/

theorem Member.next_extend {doc : Bytes} {outcome : Except Fault (Option Member)}
    (hnext : Member.next doc = outcome) (h : Settled Fault.isEnd outcome) :
    Member.next (doc ++ w) =
      outcome.map (Option.map fun member => { member with value := member.value ++ w }) := by
  subst hnext
  unfold Member.next at h ⊢
  cases hgap : afterGap doc with
  | error fault =>
    rw [hgap] at h
    exact absurd h (not_settled_afterGap hgap)
  | ok first =>
  rw [hgap] at h
  rw [afterGap_extend hgap]
  dsimp only at h ⊢
  by_cases hbrace : first.1 = Byte.closeBrace
  · rw [if_pos hbrace, if_pos hbrace]
    rfl
  rw [if_neg hbrace] at h
  rw [if_neg hbrace, if_neg hbrace]
  by_cases hquote : first.1 = Byte.quote
  · rw [if_pos hquote] at h
    rw [if_pos hquote, if_pos hquote]
    cases hkey : splitString first.2 with
    | none =>
      rw [hkey] at h
      exact nomatch h
    | some split =>
    rw [hkey] at h
    rw [splitString_extend hkey]
    dsimp only at h ⊢
    cases hcolon : afterGap split.2 with
    | error fault =>
      rw [hcolon] at h
      exact absurd h (not_settled_afterGap hcolon)
    | ok second =>
    rw [hcolon] at h
    rw [afterGap_extend hcolon]
    dsimp only at h ⊢
    by_cases hc : second.1 = Byte.colon
    · rw [if_pos hc] at h
      rw [if_pos hc, if_pos hc]
      cases hvalue : afterGap second.2 with
      | error fault =>
        rw [hvalue] at h
        exact absurd h (not_settled_afterGap hvalue)
      | ok third =>
        rw [afterGap_extend hvalue]
        rfl
    · rw [if_neg hc, if_neg hc]
      rfl
  · rw [if_neg hquote, if_neg hquote]
    rfl

theorem Member.not_settled_find_nil (key : Bytes) : ¬Settled Fault.isEnd (Member.find key []) := by
  rw [Member.find_eq]
  exact nofun

/-- A lookup passes over members that have something behind them. -/
theorem Member.find_extend {key doc : Bytes} {outcome : Except Fault (Option Bytes)}
    (hfind : Member.find key doc = outcome) (h : Settled Fault.isEnd outcome) :
    Member.find key (doc ++ w) = outcome.map (Option.map (· ++ w)) := by
  subst hfind
  rw [Member.find_eq key (doc ++ w)]
  rw [Member.find_eq key doc] at h ⊢
  match hnext : Member.next doc with
  | .error fault =>
    rw [hnext] at h
    rw [Member.next_extend hnext h]
    rfl
  | .ok none =>
    rw [Member.next_extend hnext trivial]
    rfl
  | .ok (some member) =>
  rw [hnext] at h
  rw [Member.next_extend hnext trivial]
  dsimp only [Except.map, Option.map] at h ⊢
  by_cases hkey : member.key = key
  · rw [if_pos hkey, if_pos hkey]
  rw [if_neg hkey] at h
  rw [if_neg hkey, if_neg hkey]
  cases hvalue : afterValue member.value with
  | error fault =>
    rw [hvalue] at h
    rw [afterValue_extend hvalue h nofun]
    rfl
  | ok rest =>
    rw [hvalue] at h
    have hrest : rest ≠ [] := by
      rintro rfl
      exact Member.not_settled_find_nil key h
    rw [afterValue_extend hvalue trivial fun hnil => hrest (Except.ok.inj hnil)]
    exact Member.find_extend rfl h
termination_by doc.length
decreasing_by
  have := Member.next_length hnext
  have := afterValue_length hvalue
  omega

/-- A value stands at the front: the text is not empty and no gap comes first. -/
def Starts (value : Bytes) : Prop := ∃ b rest, value = b :: rest ∧ Byte.isSeparator b = false

theorem starts_of_afterGap {doc rest : Bytes} {b : UInt8} (h : afterGap doc = .ok (b, rest)) :
    Starts (b :: rest) := by
  obtain ⟨-, -, hb, -⟩ := afterGap_eq_ok_iff.mp h
  exact ⟨b, rest, rfl, hb⟩

theorem Member.next_value {doc : Bytes} {member : Member}
    (h : Member.next doc = .ok (some member)) : member.value <:+ doc ∧ Starts member.value := by
  unfold Member.next at h
  split at h
  · exact nomatch h
  next b rest hgap =>
  split at h
  · exact nomatch h
  split at h
  · split at h
    · exact nomatch h
    next key beyond hkey =>
    split at h
    · exact nomatch h
    next c after hcolon =>
    split at h
    · split at h
      · exact nomatch h
      next d last hvalue =>
      cases h
      refine ⟨?_, starts_of_afterGap hvalue⟩
      have hrest := (List.suffix_cons b rest).trans (afterGap_suffix hgap)
      have hafter := (List.suffix_cons c after).trans (afterGap_suffix hcolon)
      exact (afterGap_suffix hvalue).trans (hafter.trans ((splitString_suffix hkey).trans hrest))
    · exact nomatch h
  · exact nomatch h

theorem Member.find_value {key doc value : Bytes} (h : Member.find key doc = .ok (some value)) :
    value <:+ doc ∧ Starts value := by
  rw [Member.find_eq] at h
  split at h
  · exact nomatch h
  · exact nomatch h
  next member hnext =>
  obtain ⟨hsuffix, hstarts⟩ := Member.next_value hnext
  split at h
  · cases h
    exact ⟨hsuffix, hstarts⟩
  split at h
  · exact nomatch h
  next rest hrest =>
  have hlt : rest.length < doc.length :=
    Nat.lt_trans (afterValue_length hrest) (Member.next_length hnext)
  obtain ⟨hvalue, hstarts'⟩ := Member.find_value h
  exact ⟨hvalue.trans ((afterValue_suffix hrest).trans hsuffix), hstarts'⟩
termination_by doc.length
decreasing_by assumption

/-! ## Elements -/

/-- The element in the document with `w` behind it. -/
def Element.extend (w : Bytes) (element : Element) : Element :=
  ⟨element.start ++ w, element.stop ++ w⟩

theorem upTo_extend (doc rest : Bytes) :
    Bytes.upTo (doc ++ w) (rest ++ w) = Bytes.upTo doc rest := by
  unfold Bytes.upTo
  rw [List.length_append, List.length_append, Nat.add_sub_add_right,
    List.take_append_of_le_length (Nat.sub_le _ _)]

@[simp] theorem Element.text_extend (element : Element) :
    (element.extend w).text = element.text :=
  upTo_extend element.start element.stop

theorem Element.next_extend {doc : Bytes} {outcome : Except Fault (Option Element)}
    (hnext : Element.next doc = outcome) (h : Settled Fault.isEnd outcome)
    (hstop : ∀ element, outcome = .ok (some element) → element.stop ≠ []) :
    Element.next (doc ++ w) = outcome.map (Option.map (Element.extend w)) := by
  subst hnext
  unfold Element.next at h hstop ⊢
  cases hgap : afterGap doc with
  | error fault =>
    rw [hgap] at h
    exact absurd h (not_settled_afterGap hgap)
  | ok first =>
  rw [hgap] at h hstop
  rw [afterGap_extend hgap]
  dsimp only at h hstop ⊢
  by_cases hclose : first.1 = Byte.closeSquare
  · rw [if_pos hclose, if_pos hclose]
    rfl
  rw [if_neg hclose] at h hstop
  rw [if_neg hclose, if_neg hclose]
  cases htoken : afterToken first.1 first.2 with
  | error fault =>
    rw [htoken] at h
    have hopen : ¬RunsOut (first.1 :: first.2) := fun ho => nomatch htoken.symm.trans ho.afterToken
    rw [afterToken_extend htoken h fun ho => absurd ho hopen]
    rfl
  | ok stop =>
    rw [htoken] at hstop
    have hopen : ¬RunsOut (first.1 :: first.2) := fun ho =>
      hstop _ rfl (Except.ok.inj (htoken.symm.trans ho.afterToken))
    rw [afterToken_extend htoken trivial fun ho => absurd ho hopen]
    rfl

theorem Element.not_settled_listFrom_nil (found : List Element) :
    ¬Settled Fault.isEnd (Element.listFrom found []) := by
  rw [Element.listFrom_eq]
  exact nofun

/-- A list is complete only with something behind each of its elements. -/
theorem Element.listFrom_extend {found : List Element} {doc : Bytes}
    {outcome : Except Fault (List Element)} (hlist : Element.listFrom found doc = outcome)
    (h : Settled Fault.isEnd outcome) :
    Element.listFrom (found.map (Element.extend w)) (doc ++ w) =
      outcome.map (List.map (Element.extend w)) := by
  subst hlist
  rw [Element.listFrom_eq _ (doc ++ w)]
  rw [Element.listFrom_eq found doc] at h ⊢
  match hnext : Element.next doc with
  | .error fault =>
    rw [hnext] at h
    rw [Element.next_extend hnext h nofun]
    rfl
  | .ok none =>
    rw [Element.next_extend hnext trivial nofun]
    exact congrArg Except.ok List.map_reverse.symm
  | .ok (some element) =>
    rw [hnext] at h
    dsimp only at h
    have hstop : element.stop ≠ [] := by
      intro hnil
      rw [hnil] at h
      exact Element.not_settled_listFrom_nil _ h
    rw [Element.next_extend hnext trivial fun _ heq => by cases heq; exact hstop]
    exact Element.listFrom_extend rfl h
termination_by doc.length
decreasing_by exact Element.next_length hnext

theorem Element.list_extend {doc : Bytes} {outcome : Except Fault (List Element)}
    (hlist : Element.list doc = outcome) (h : Settled Fault.isEnd outcome) :
    Element.list (doc ++ w) = outcome.map (List.map (Element.extend w)) :=
  Element.listFrom_extend hlist h

theorem Element.at?_extend (items : List Element) (position : Int64) :
    Element.at? (items.map (Element.extend w)) position =
      (Element.at? items position).map (Element.extend w) := by
  simp only [Element.at?, List.length_map, List.getElem?_map]
  split
  · rfl
  · rfl

theorem Element.window_extend (items : List Element) (left right : Int64) :
    Element.window (items.map (Element.extend w)) left right =
      (Element.window items left right).map fun ends => (ends.1.extend w, ends.2.extend w) := by
  simp only [Element.window, List.length_map, List.getElem?_map]
  generalize items[(Element.fromFront left items.length).toNat]? = first
  generalize items[(Element.upperBound right items.length).toNat - 1]? = last
  split
  · cases first <;> cases last <;> rfl
  · rfl

end RawJson
