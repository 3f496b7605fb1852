/-
Failures of a path and of the paths that go on from it. A token that is not the
last one is treated differently: its value has to be a container, is not scanned
to its end, and is handed on. None of this comes before what keeps the token from
its value, so a path that fails at a key, a type or a position fails in the same
way whatever follows (`Token.follow_error`).

Only the scan of the value itself is left out when a path goes on, so a value
without an end is an error for the path to it and for no other. At a single
position there is no such exception: all elements have been scanned by then.
-/
import RawJson.Proofs.Composition

namespace RawJson

/-! ## Errors of a scan -/

/-- What the scan of a value can fail with: the document is over, or there is no
value. -/
def LookupError.fromValue : LookupError → Bool
  | .unexpectedEnd _ => true
  | .unexpectedByte _ .value => true
  | _ => false

theorem afterValue_error {doc : Bytes} {fault : Fault} (h : afterValue doc = .error fault)
    (key : String) : (LookupError.ofFault key fault).fromValue = true := by
  unfold afterValue at h
  split at h
  · next hgap =>
    cases h
    rw [afterGap_error hgap]
    rfl
  next b rest _ =>
  cases hend : fault.isEnd with
  | false =>
    rw [afterToken_endsScalar (afterToken_error h hend)] at h
    cases h
    rfl
  | true =>
    cases fault with
    | unexpectedEnd => rfl
    | unexpectedByte => cases hend
    | missingColon => cases hend

namespace Token

theorem valueText_error {key : String} {value : Bytes} {error : LookupError}
    (h : valueText key value = .error error) : error.fromValue = true := by
  unfold valueText at h
  split at h
  · next hvalue =>
    cases h
    exact afterValue_error hvalue key
  · cases h

/-! ## Tokens -/

theorem checkShape_error {token : Token} {value : Bytes} {error : LookupError}
    (h : token.checkShape [] value = .error error) (following : List Token) :
    token.checkShape following value = .error error := by
  unfold checkShape at h ⊢
  dsimp only at h ⊢
  split at h
  · next harray =>
    rw [if_pos harray]
    exact h
  · cases h

theorem enter_error {token : Token} {doc : Bytes} {error : LookupError}
    (h : token.enter [] doc = .error error) (following : List Token) :
    token.enter following doc = .error error := by
  rw [enter_eq_bind, bind_eq_error_iff] at h ⊢
  rcases h with hlocate | ⟨value, hlocate, hshape⟩
  · exact .inl hlocate
  · rw [map_eq_error_iff] at hshape
    exact .inr ⟨value, hlocate, map_eq_error_iff.mpr (checkShape_error hshape following)⟩

theorem enter_array {token : Token} (harray : token.isArray = true) {doc value : Bytes}
    (h : token.enter [] doc = .ok value) (following : List Token) :
    token.enter following doc = .ok value := by
  obtain ⟨hlocate, hshape⟩ := enter_eq_ok_iff.mp h
  rw [checkShape_eq_ok_iff, if_pos harray] at hshape
  exact enter_eq_ok_iff.mpr ⟨hlocate, checkShape_eq_ok_iff.mpr (by rwa [if_pos harray])⟩

/-- **A token fails as it would as the last one**, unless what failed is the scan
of its value. -/
theorem follow_error {token : Token} (hlast : token.endsPath = false) {doc : Bytes}
    {error : LookupError} (h : token.follow [] doc = .error error)
    (hkept : error.fromValue = false ∨ ∃ position, token.selector = .index position)
    (next : Token) (following : List Token) :
    token.follow (next :: following) doc = .error error := by
  rw [follow_nil, bind_eq_error_iff] at h
  rw [follow_eq_resume, bind_eq_error_iff]
  refine .inl (bind_eq_error_iff.mpr ?_)
  rcases h with henter | ⟨value, henter, hresult⟩
  · exact .inl (enter_error henter _)
  obtain ⟨key, selector⟩ := token
  cases selector with
  | member =>
    rcases hkept with hkept | ⟨_, hindex⟩
    · have hscan : valueText key value = .error error := map_eq_error_iff.mp hresult
      exact absurd (valueText_error hscan) (Bool.eq_false_iff.mp hkept)
    · cases hindex
  | index position =>
    exact .inr ⟨value, enter_array rfl henter _, map_eq_error_iff.mp hresult⟩
  | range => cases hlast
  | function => cases hlast

end Token

/-! ## Paths -/

/-- **What fails a path fails every path that goes on with it.** Let a path go on
behind a token, which then is a member or a single position. Where the path
fails, the longer one fails with the same error, if that is not one of the scan of
a value. Behind a single position it does whatever the error is. -/
theorem Path.get_append_error (path : Path) (more : List Token) (hmore : more ≠ [])
    (hwell : (path.append more).WellFormed) (doc : Bytes) (error : LookupError)
    (hget : path.get doc = .error error)
    (hkept : error.fromValue = false ∨ ∃ position, path.last.selector = .index position) :
    (path.append more).get doc = .error error := by
  have hends : (path.append more).EndsLast := ⟨hwell.head, hwell.ends⟩
  obtain ⟨hplain, hlast⟩ := plain_of_endsPath (hends.front hmore)
  obtain ⟨next, following, rfl⟩ := List.exists_cons_of_ne_nil hmore
  rw [get_eq hplain, bind_eq_error_iff] at hget
  rw [append_get hplain, bind_eq_error_iff]
  rcases hget with happroach | ⟨start, happroach, hfollow⟩
  · exact .inl happroach
  · exact .inr ⟨start, happroach, Token.follow_error hlast hfollow hkept next following⟩

/-- A position beyond the array, and an array without an end. An object without
an end is the exception: as a result it fails, and a path goes on through it. -/
theorem Path.get_append_error_open :
    Path.get ⟨⟨"$", .member⟩, [⟨"a", .index 7⟩, ⟨"b", .member⟩]⟩
        (Bytes.ofString "\x7b\"a\":[1 \x7b]:\x7d]") = .error (.indexOutOfRange "a" 7 none 2) ∧
    Path.get ⟨⟨"$", .member⟩, [⟨"a", .index 0⟩, ⟨"b", .member⟩]⟩
        (Bytes.ofString "\x7b\"a\":[\x7b\"b\":1\x7d,") = .error (.unexpectedEnd .input) ∧
    Path.get ⟨⟨"$", .member⟩, [⟨"a", .member⟩]⟩ (Bytes.ofString "\x7b\"a\":\x7b\"b\":1,") =
        .error (.unexpectedEnd .object) ∧
    Path.get ⟨⟨"$", .member⟩, [⟨"a", .member⟩, ⟨"b", .member⟩]⟩
        (Bytes.ofString "\x7b\"a\":\x7b\"b\":1,") = .ok (.verbatim (Bytes.ofString "1")) := by
  have hwell (position : Int64) (text : String)
      (h : Path.parse 3 text =
        .ok ⟨⟨"$", .member⟩, [⟨"a", .index position⟩, ⟨"b", .member⟩]⟩) :
      Path.WellFormed (Path.append ⟨⟨"$", .member⟩, [⟨"a", .index position⟩]⟩ [⟨"b", .member⟩]) :=
    Path.wellFormed_of_parse h
  refine ⟨?_, ?_, by decide +kernel, by decide +kernel⟩
  · exact get_append_error _ _ (List.cons_ne_nil _ _) (hwell 7 "$.a[7].b" rfl) _ _
      (by decide +kernel) (.inl rfl)
  · exact get_append_error _ _ (List.cons_ne_nil _ _) (hwell 0 "$.a[0].b" rfl) _ _
      (by decide +kernel) (.inr ⟨0, rfl⟩)

end RawJson
