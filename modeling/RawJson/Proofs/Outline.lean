/-
The outline of a path, which is its tokens as JSON. The text of an outline tells
everything about its path: the library's own reader gives the value that was
written (`Json.Value.parse?_text`), and the tokens can be told from that value,
their keys whatever characters they have (`Path.ofJson?_toJson`). So no two paths
have one outline.
-/
import RawJson.Path.Outline
import RawJson.Proofs.RoundTrip

namespace RawJson

open Json (Value)

/-! ## Paths from JSON values -/

/-- The selector that a JSON value stands for. -/
def Selector.ofJson? : Value → Option Selector
  | .string "member" => some .member
  | .object [("index", .number (.integer position))] => some (.index (Int64.ofInt position))
  | .object [("range", .object
      [("left", .number (.integer left)), ("right", .number (.integer right))])] =>
    some (.range (Int64.ofInt left) (Int64.ofInt right))
  | .object [("function", .string name)] => (Function.ofName? name).map .function
  | _ => none

/-- The token that a JSON value stands for. -/
def Token.ofJson? : Value → Option Token
  | .object [("key", .string key), ("selector", selector)] =>
    (Selector.ofJson? selector).map fun selector => ⟨key, selector⟩
  | _ => none

/-- The path that a JSON value stands for. -/
def Path.ofJson? : Value → Option Path
  | .array items =>
    match items.mapM Token.ofJson? with
    | some (head :: tail) => some ⟨head, tail⟩
    | _ => none
  | _ => none

theorem Selector.ofJson?_toJson (selector : Selector) :
    ofJson? selector.toJson = some selector := by
  cases selector with
  | member => rfl
  | index position => exact congrArg (some ∘ Selector.index) (Int64.ofInt_toInt position)
  | range left right =>
    have hrange : ofJson? (toJson (.range left right)) =
        some (.range (Int64.ofInt left.toInt) (Int64.ofInt right.toInt)) := rfl
    rw [hrange, Int64.ofInt_toInt, Int64.ofInt_toInt]
  | function function =>
    exact congrArg (Option.map Selector.function) (Function.ofName?_name function)

theorem Token.ofJson?_toJson (token : Token) : ofJson? token.toJson = some token :=
  congrArg (Option.map fun selector => (⟨token.key, selector⟩ : Token))
    token.selector.ofJson?_toJson

theorem Path.ofJson?_toJson (path : Path) : ofJson? path.toJson = some path := by
  have htokens (tokens : List Token) :
      (tokens.map Token.toJson).mapM Token.ofJson? = some tokens := by
    induction tokens with
    | nil => rfl
    | cons token tokens ih => simp [List.mapM_cons, Token.ofJson?_toJson, ih]
  rw [toJson, ofJson?, htokens]
  rfl

/-! ## Outlines can be read -/

theorem bounded_toInt (n : Int64) : Json.Bounded n.toInt := by
  have hlow := Int64.le_toInt n
  have hhigh := Int64.toInt_lt n
  constructor
  · exact hlow
  · exact Int.lt_trans hhigh (by decide)

theorem Selector.readable_toJson (selector : Selector) (room : Nat) :
    selector.toJson.Readable (room + 2) := by
  cases selector with
  | member => trivial
  | index position =>
    exact ⟨Nat.succ_pos _, List.pairwise_singleton .., bounded_toInt position, trivial⟩
  | range left right =>
    refine ⟨Nat.succ_pos _, List.pairwise_singleton .., ⟨Nat.succ_pos _, ?_, bounded_toInt left,
      bounded_toInt right, trivial⟩, trivial⟩
    exact List.pairwise_pair.mpr (by decide : "left" < "right")
  | function => exact ⟨Nat.succ_pos _, List.pairwise_singleton .., trivial, trivial⟩

theorem Token.readable_toJson (token : Token) (room : Nat) :
    token.toJson.Readable (room + 3) :=
  ⟨Nat.succ_pos _, List.pairwise_pair.mpr (by decide : "key" < "selector"), trivial,
    token.selector.readable_toJson room, trivial⟩

theorem Path.readable_toJson (path : Path) (room : Nat) : path.toJson.Readable (room + 4) := by
  have htokens (tokens : List Token) :
      Json.ItemsReadable (room + 3) (tokens.map Token.toJson) := by
    induction tokens with
    | nil => trivial
    | cons token tokens ih => exact ⟨token.readable_toJson room, ih⟩
  exact ⟨Nat.succ_pos _, htokens path.tokens⟩

/-! ## Outlines and paths -/

/-- The path that an outline is of. -/
def Path.ofOutline? (text : String) : Option Path := (Value.parse? text).bind Path.ofJson?

/-- **An outline tells its path.** In either layout every path is read back from
its outline, all of its tokens in order, with their keys, bounds and functions; so
paths with the same outline are the same. -/
theorem Path.ofOutline?_toJson (layout : Json.Layout) :
    (∀ path : Path, ofOutline? (path.toJson.text layout) = some path) ∧
    ∀ path path' : Path,
      path.toJson.text layout = path'.toJson.text layout ↔ path = path' := by
  have hread (path : Path) : ofOutline? (path.toJson.text layout) = some path := by
    have hreadable : path.toJson.Readable Json.depthLimit :=
      path.readable_toJson (Json.depthLimit - 4)
    rw [ofOutline?, Value.parse?_text layout hreadable]
    exact path.ofJson?_toJson
  refine ⟨hread, fun path path' => ⟨fun htext => ?_, fun h => h ▸ rfl⟩⟩
  have hpath' := hread path'
  rw [← htext, hread path] at hpath'
  exact Option.some.inj hpath'

/-- A key that looks like the end of its token is still a key. -/
example : (Path.toJson ⟨⟨"$", .member⟩, [⟨"\"\x7d,\n", .range 1 0⟩]⟩).text .compact =
    "[\x7b\"key\":\"$\",\"selector\":\"member\"\x7d," ++
      "\x7b\"key\":\"\\\"\x7d,\\n\",\"selector\":\x7b\"range\":\x7b\"left\":1,\"right\":0\x7d\x7d\x7d]" := by
  decide

end RawJson
