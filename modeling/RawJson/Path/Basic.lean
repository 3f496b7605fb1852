/-
Paths: chains of tokens, the first of which starts at the root of a document
and each later one at the value the one before it selects.

A token has a key and a selector. Whether a token is the last one, or hands
its value to a function, is a matter of the tokens that follow it, so those
two are asked of the rest of the chain.
-/
import RawJson.Decimal.Integer
import RawJson.Function

namespace RawJson

/-- What a token selects from the value under its key. -/
inductive Selector where
  /-- The value itself. -/
  | member
  /-- One element of the array there, a negative position counting from the end. -/
  | index (position : Int64)
  /-- The elements from `left` up to `right`, zero standing for the end. -/
  | range (left right : Int64)
  /-- A function of the value that the token before selects. -/
  | function (function : Function)
  deriving DecidableEq, Repr, Inhabited

/-- One segment of a path. -/
structure Token where
  key : String
  selector : Selector
  deriving DecidableEq, Repr, Inhabited

namespace Token

/-- The key that names no member: a token with it looks into the value it
starts at. -/
def rootKey : String := "$"

/-- A token with this key stays where it is, wherever in its path it stands. -/
abbrev IsRootKey (key : String) : Prop := key = rootKey

/-- The key of the token is the root key. -/
def isRoot (token : Token) : Bool := decide (IsRootKey token.key)

/-- The token selects from an array. -/
def isArray (token : Token) : Bool :=
  match token.selector with
  | .index _ | .range _ _ => true
  | _ => false

/-- The token selects a run of elements, which comes as an array of its own. -/
def isRange (token : Token) : Bool :=
  match token.selector with
  | .range _ _ => true
  | _ => false

/-- The token is a call, and selects nothing itself. -/
def isFunction (token : Token) : Bool :=
  match token.selector with
  | .function _ => true
  | _ => false

/-- Nothing follows: the token selects the result of its path. -/
def isTerminal (following : List Token) : Bool := following.isEmpty

/-- A function follows: the value selected here is what it measures. -/
def isSubject (following : List Token) : Bool := following.head?.any isFunction

/-- How a path spells a token. An open range has no upper bound. -/
def text (token : Token) : String :=
  match token.selector with
  | .member => token.key
  | .index position => token.key ++ "[" ++ Decimal.ofInt position.toInt ++ "]"
  | .range left right =>
    if right = 0 then token.key ++ "[" ++ Decimal.ofInt left.toInt ++ ":]"
    else
      token.key ++ "[" ++ Decimal.ofInt left.toInt ++ ":" ++ Decimal.ofInt right.toInt ++ "]"
  | .function function => function.name ++ "()"

end Token

/-- A path: its first token and the tokens after it. -/
structure Path where
  head : Token
  tail : List Token
  deriving DecidableEq, Repr, Inhabited

namespace Path

/-- The tokens of a path, in the order they are followed. -/
def tokens (path : Path) : List Token := path.head :: path.tail

/-- The number of segments, which the limit on a path counts. -/
def length (path : Path) : Nat := path.tokens.length

/-- The canonical text of a path: its tokens with a dot between neighbours. -/
def text (path : Path) : String :=
  path.head.text ++ String.join (path.tail.map fun token => "." ++ token.text)

/-- The tokens of a path, each with those that follow it. -/
def steps (path : Path) : List (Token × List Token) := go path.head path.tail
where
  go (token : Token) : List Token → List (Token × List Token)
    | [] => [(token, [])]
    | next :: following => (token, next :: following) :: go next following

end Path

end RawJson
