/-
Values and arrays cut out of the text around them. `IsValue` says that a text
is one value and nothing else; a scan stops behind it wherever it stands, as
long as a bare scalar is delimited there (`afterValue_eq_ok_iff`), so the text
alone is scanned to its end (`isValue_iff`).

`Element.list` carries along what it has found. `Element.Lists` is the same
enumeration without that: each element is the next one behind the one before.
-/
import RawJson.Proofs.Extension

namespace RawJson

/-! ## Values -/

/-- The text of one value, from its first byte to its last. -/
def IsValue (text : Bytes) : Prop := ∃ b rest, text = b :: rest ∧ IsToken b rest

theorem IsValue.starts {text : Bytes} (h : IsValue text) : Starts text := by
  obtain ⟨b, rest, rfl, htoken⟩ := h
  exact ⟨b, rest, rfl, Byte.isSeparator_of_endsScalar htoken.lead⟩

theorem IsToken.runsOut_iff {b : UInt8} {text : Bytes} (h : IsToken b text) :
    RunsOut (b :: text) ↔ Byte.startsScalar b = true := by
  constructor
  · exact And.left
  · intro hb
    cases h with
    | string => cases hb
    | container bracket => exact absurd hb (by rw [Byte.startsScalar_opening]; exact nofun)
    | scalar _ htext => exact ⟨hb, htext⟩

/-- **The extent of a value at the front**: what a scan passes is one value, up
to a delimiter where the value is a bare scalar. -/
theorem afterValue_eq_ok_iff {doc rest : Bytes} (h : Starts doc) :
    afterValue doc = .ok rest ↔
      ∃ text, IsValue text ∧ doc = text ++ rest ∧ (RunsOut text → Delimited rest) := by
  obtain ⟨b, more, rfl, hb⟩ := h
  unfold afterValue
  rw [afterGap_cons hb]
  dsimp only
  rw [afterToken_eq_ok_iff]
  constructor
  · rintro ⟨text, htoken, rfl, hd⟩
    exact ⟨b :: text, ⟨b, text, rfl, htoken⟩, rfl, fun ho => hd ho.1⟩
  · rintro ⟨text, ⟨c, tail, rfl, htoken⟩, heq, hd⟩
    cases heq
    exact ⟨tail, htoken, rfl, fun hs => hd (htoken.runsOut_iff.mpr hs)⟩

theorem IsValue.afterValue {text rest : Bytes} (h : IsValue text)
    (hd : RunsOut text → Delimited rest) : RawJson.afterValue (text ++ rest) = .ok rest := by
  have hstarts : Starts (text ++ rest) := by
    obtain ⟨b, more, rfl, hb⟩ := h.starts
    exact ⟨b, more ++ rest, rfl, hb⟩
  exact (afterValue_eq_ok_iff hstarts).mpr ⟨text, h, rfl, hd⟩

/-- A text is one value exactly if a scan of it alone comes to its end. -/
theorem isValue_iff {text : Bytes} :
    IsValue text ↔ Starts text ∧ RawJson.afterValue text = .ok [] := by
  constructor
  · intro h
    have hscan : RawJson.afterValue (text ++ []) = .ok [] := h.afterValue fun _ => delimited_nil
    rw [List.append_nil] at hscan
    exact ⟨h.starts, hscan⟩
  · rintro ⟨hstarts, hscan⟩
    obtain ⟨text', h, heq, -⟩ := (afterValue_eq_ok_iff hstarts).mp hscan
    rw [heq, List.append_nil]
    exact h

/-! ## Elements -/

namespace Element

/-- The next element is a value behind a gap, a bare scalar in front of a
delimiter. -/
theorem next_eq_some_iff {doc : Bytes} {element : Element} :
    next doc = .ok (some element) ↔
      ∃ gap text rest, (∀ b ∈ gap, Byte.isSeparator b = true) ∧ IsValue text ∧
        (RunsOut text → Delimited rest) ∧ doc = gap ++ (text ++ rest) ∧
        element = ⟨text ++ rest, rest⟩ := by
  unfold next
  constructor
  · intro h
    split at h
    · cases h
    next b more hgap =>
    split at h
    · cases h
    split at h
    · cases h
    next rest htoken =>
    cases h
    obtain ⟨gap, hsep, -, rfl⟩ := afterGap_eq_ok_iff.mp hgap
    obtain ⟨text, htext, rfl, hd⟩ := afterToken_eq_ok_iff.mp htoken
    exact ⟨gap, b :: text, rest, hsep, ⟨b, text, rfl, htext⟩, fun ho => hd ho.1, rfl, rfl⟩
  · rintro ⟨gap, -, rest, hsep, ⟨b, text, rfl, htext⟩, hd, rfl, rfl⟩
    have hclose : b ≠ Byte.closeSquare := by
      rintro rfl
      cases htext.lead
    rw [afterGap_append hsep, List.cons_append,
      afterGap_cons (Byte.isSeparator_of_endsScalar htext.lead)]
    dsimp only
    rw [if_neg hclose, htext.afterToken fun hb => hd (htext.runsOut_iff.mpr hb)]

/-- The elements from a place in an array on, up to its closing bracket. -/
inductive Lists : Bytes → List Element → Prop
  | nil {doc : Bytes} : next doc = .ok none → Lists doc []
  | cons {doc : Bytes} {element : Element} {items : List Element} :
    next doc = .ok (some element) → Lists element.stop items → Lists doc (element :: items)

theorem Lists.listFrom {doc : Bytes} {items : List Element} (h : Lists doc items)
    (found : List Element) : listFrom found doc = .ok (found.reverse ++ items) := by
  induction h generalizing found with
  | nil hnext => rw [listFrom_eq, hnext, List.append_nil]
  | cons hnext _ ih =>
    rw [listFrom_eq, hnext]
    dsimp only
    rw [ih, List.reverse_cons, List.append_assoc, List.singleton_append]

theorem lists_of_listFrom {found items : List Element} {doc : Bytes}
    (h : listFrom found doc = .ok items) :
    ∃ others, items = found.reverse ++ others ∧ Lists doc others := by
  fun_induction RawJson.Element.listFrom found doc with
  | case1 => cases h
  | case2 found doc hnext =>
    cases h
    exact ⟨[], (List.append_nil _).symm, .nil hnext⟩
  | case3 found doc element hnext ih =>
    obtain ⟨others, rfl, hothers⟩ := ih h
    exact ⟨element :: others, by simp, .cons hnext hothers⟩

theorem list_eq_ok_iff {doc : Bytes} {items : List Element} :
    list doc = .ok items ↔ Lists doc items := by
  constructor
  · intro h
    obtain ⟨others, rfl, hothers⟩ := lists_of_listFrom h
    exact hothers
  · intro h
    exact h.listFrom []

theorem Lists.mem {doc : Bytes} {items : List Element} (h : Lists doc items) {element : Element}
    (hmem : element ∈ items) : IsValue element.text ∧ element.text <:+: doc := by
  induction h with
  | nil => cases hmem
  | @cons doc first items hnext _ ih =>
    obtain ⟨gap, text, rest, -, htext, -, rfl, rfl⟩ := next_eq_some_iff.mp hnext
    rcases List.mem_cons.mp hmem with rfl | hmem
    · have heq : Element.text ⟨text ++ rest, rest⟩ = text := Bytes.upTo_append text rest
      rw [heq]
      exact ⟨htext, gap, rest, List.append_assoc ..⟩
    · obtain ⟨hvalue, hpart⟩ := ih hmem
      exact ⟨hvalue, hpart.trans ⟨gap ++ text, [], by simp⟩⟩

theorem next_suffix {doc : Bytes} {element : Element} (h : next doc = .ok (some element)) :
    element.start <:+ doc ∧ element.stop <:+ element.start := by
  obtain ⟨gap, text, rest, -, -, -, rfl, rfl⟩ := next_eq_some_iff.mp h
  exact ⟨List.suffix_append .., List.suffix_append ..⟩

theorem Lists.suffix {doc : Bytes} {items : List Element} (h : Lists doc items) {element : Element}
    (hmem : element ∈ items) : element.start <:+ doc ∧ element.stop <:+ element.start := by
  induction h with
  | nil => cases hmem
  | cons hnext _ ih =>
    obtain ⟨hstart, hstop⟩ := next_suffix hnext
    rcases List.mem_cons.mp hmem with rfl | hmem
    · exact ⟨hstart, hstop⟩
    · exact ⟨(ih hmem).1.trans (hstop.trans hstart), (ih hmem).2⟩

theorem Lists.ordered {doc : Bytes} {items : List Element} (h : Lists doc items) :
    items.Pairwise fun earlier later => later.start <:+ earlier.stop := by
  induction h with
  | nil => exact .nil
  | cons _ hothers ih => exact .cons (fun _ hmem => (hothers.suffix hmem).1) ih

theorem Lists.stop_suffix_stop {doc : Bytes} {items : List Element} (h : Lists doc items)
    {i j : Nat} (hle : i ≤ j) {first last : Element} (hfirst : items[i]? = some first)
    (hlast : items[j]? = some last) : last.stop <:+ first.stop := by
  rcases Nat.eq_or_lt_of_le hle with rfl | hlt
  · cases hfirst.symm.trans hlast
    exact List.suffix_refl _
  · obtain ⟨hi, rfl⟩ := List.getElem?_eq_some_iff.mp hfirst
    obtain ⟨hj, rfl⟩ := List.getElem?_eq_some_iff.mp hlast
    have horder := List.pairwise_iff_getElem.mp h.ordered i j hi hj hlt
    exact (h.suffix (List.getElem_mem hj)).2.trans horder

theorem Lists.stop_suffix {doc : Bytes} {items : List Element} (h : Lists doc items) {i j : Nat}
    (hle : i ≤ j) {first last : Element} (hfirst : items[i]? = some first)
    (hlast : items[j]? = some last) : last.stop <:+ first.start :=
  (h.stop_suffix_stop hle hfirst hlast).trans (h.suffix (List.mem_of_getElem? hfirst)).2

theorem mem_of_at? {items : List Element} {position : Int64} {element : Element}
    (h : at? items position = some element) : element ∈ items := by
  unfold at? at h
  dsimp only at h
  split at h
  · exact List.mem_of_getElem? h
  · cases h

/-- A range goes from the start of an element to the end of it or of a later one. -/
theorem Lists.window {doc : Bytes} {items : List Element} (h : Lists doc items) {left right : Int64}
    {first last : Element} (hwindow : window items left right = some (first, last)) :
    first ∈ items ∧ last ∈ items ∧ last.stop <:+ first.start := by
  unfold Element.window at hwindow
  dsimp only at hwindow
  split at hwindow
  · next hends =>
    split at hwindow
    · next hfirst hlast =>
      cases hwindow
      exact ⟨List.mem_of_getElem? hfirst, List.mem_of_getElem? hlast,
        h.stop_suffix (by omega) hfirst hlast⟩
    · cases hwindow
  · cases hwindow

theorem Lists.length_le {doc : Bytes} {items : List Element} (h : Lists doc items) :
    items.length ≤ doc.length := by
  induction h with
  | nil => exact Nat.zero_le _
  | cons hnext _ ih =>
    have hlt := next_length hnext
    rw [List.length_cons]
    omega

end Element

end RawJson
