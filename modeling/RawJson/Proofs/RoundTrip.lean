/-
JSON that is written is read back. The printer and the reader are written apart
from each other, the one over a tree and the other over a flat list of lexemes
with a stack of open containers. Between them stand the lexemes of a tree
(`Value.lexemes`): in either layout the text of a value is read as its lexemes
(`Value.lexemesFrom_write`), and they make up the value again, whatever
containers are open around it (`Value.foldlM_lexemes`).

Doubles are left out, and so are integers beyond 64 bits, objects whose members
are not in the order of their names, and trees too deep for the reader
(`Value.Readable`). Strings are not restricted in any way.
-/
import RawJson.Json.Printer
import RawJson.Json.Reader
import RawJson.Proofs.Canonical

namespace RawJson.Json

/-! ## Strings -/

theorem readStringFrom_quote (mode : Surrogates) (taken rest : List Char) :
    readStringFrom mode taken ('"' :: rest) = .ok (String.ofList taken.reverse, rest) := by
  rw [readStringFrom, if_pos rfl]

theorem readStringFrom_plain (mode : Surrogates) (taken : List Char) {c : Char} (hquote : c ≠ '"')
    (hslash : c ≠ '\\') (hcontrol : ¬c.toNat < 0x20) (rest : List Char) :
    readStringFrom mode taken (c :: rest) = readStringFrom mode (c :: taken) rest := by
  rw [readStringFrom, if_neg hquote, if_neg hslash, if_neg hcontrol]

theorem readStringFrom_escape {mode : Surrogates} {taken text rest : List Char} {c : Char}
    (h : readEscape mode text = .ok (c, rest)) :
    readStringFrom mode taken ('\\' :: text) = readStringFrom mode (c :: taken) rest := by
  rw [readStringFrom, if_neg (by decide), if_pos rfl]
  split
  · next hfail =>
    rw [h] at hfail
    cases hfail
  · next hread =>
    rw [h] at hread
    cases hread
    rfl

theorem hexDigit?_digitChar : ∀ n < 16, hexDigit? (Nat.digitChar n) = some n := by decide

theorem readEscape_control (mode : Surrogates) {c : Char} (h : c.toNat < 0x20)
    (rest : List Char) :
    readEscape mode ('u' :: '0' :: '0' :: Nat.digitChar (c.toNat / 16) ::
      Nat.digitChar (c.toNat % 16) :: rest) = .ok (c, rest) := by
  have hzero : hexDigit? '0' = some 0 := by decide
  have hhigh := hexDigit?_digitChar (c.toNat / 16) (by omega)
  have hlow := hexDigit?_digitChar (c.toNat % 16) (by omega)
  have hcode : ((0 * 16 + 0) * 16 + c.toNat / 16) * 16 + c.toNat % 16 = c.toNat := by omega
  rw [readEscape, if_pos rfl, readNumbered, readUnit, hzero, hhigh, hlow]
  dsimp only
  rw [hcode, if_pos (.inr (.inl (by omega))), Char.ofNat_toNat]

/-- A character is read from the way it stands in a string. -/
theorem readStringFrom_escaped (mode : Surrogates) (taken : List Char) (c : Char)
    (rest : List Char) :
    readStringFrom mode taken (escape c ++ rest) = readStringFrom mode (c :: taken) rest := by
  unfold escape
  -- The characters that have a letter of their own.
  iterate 7
    split
    · next h =>
      subst h
      exact readStringFrom_escape rfl
  split
  · next h => exact readStringFrom_escape (readEscape_control mode h rest)
  · next hquote hslash _ _ _ _ _ hcontrol =>
    exact readStringFrom_plain mode taken hquote hslash hcontrol rest

theorem readStringFrom_flatMap (mode : Surrogates) (taken text rest : List Char) :
    readStringFrom mode taken (text.flatMap escape ++ '"' :: rest) =
      .ok (String.ofList (taken.reverse ++ text), rest) := by
  induction text generalizing taken with
  | nil => rw [List.flatMap_nil, List.nil_append, readStringFrom_quote, List.append_nil]
  | cons c text ih =>
    rw [List.flatMap_cons, List.append_assoc, readStringFrom_escaped, ih, List.reverse_cons,
      List.append_assoc, List.singleton_append]

theorem readString_escaped (mode : Surrogates) (s : String) (rest : List Char) :
    readString mode (s.toList.flatMap escape ++ '"' :: rest) = .ok (s, rest) := by
  rw [readString, readStringFrom_flatMap, List.reverse_nil, List.nil_append, String.ofList_toList]

/-! ## Integers -/

/-- A numeral is over: no digit, point or exponent goes on with it. -/
def EndsNumeral (rest : List Char) : Prop :=
  ∀ c ∈ rest.head?, c.isDigit = false ∧ c ≠ '.' ∧ c ≠ 'e' ∧ c ≠ 'E'

theorem endsNumeral_nil : EndsNumeral [] := nofun

theorem endsNumeral_cons {c : Char} {rest : List Char} :
    EndsNumeral (c :: rest) ↔ c.isDigit = false ∧ c ≠ '.' ∧ c ≠ 'e' ∧ c ≠ 'E' := by
  simp [EndsNumeral]

theorem readDigits_repr (n : Nat) {rest : List Char} (h : EndsNumeral rest) :
    readDigits (n.repr.toList ++ rest) = .ok (n.repr.toList, rest) := by
  have hdigits : ∀ c ∈ n.repr.toList, c.isDigit = true := fun c => isDigit_of_mem_repr
  have htake : rest.takeWhile Char.isDigit = [] := by
    cases rest with
    | nil => rfl
    | cons c rest => exact List.takeWhile_cons_of_neg (by simp [(endsNumeral_cons.mp h).1])
  have hdrop : rest.dropWhile Char.isDigit = rest := by
    cases rest with
    | nil => rfl
    | cons c rest => exact List.dropWhile_cons_of_neg (by simp [(endsNumeral_cons.mp h).1])
  obtain ⟨c, digits, hcons⟩ := List.exists_cons_of_ne_nil (repr_ne_nil n)
  have hc : c.isDigit = true := hdigits c (hcons ▸ List.mem_cons_self)
  have hread : readDigits (n.repr.toList ++ rest) =
      .ok ((n.repr.toList ++ rest).takeWhile Char.isDigit,
        (n.repr.toList ++ rest).dropWhile Char.isDigit) := by
    rw [hcons, List.cons_append, readDigits, if_pos hc]
  rw [hread, List.takeWhile_append_of_pos hdigits, List.dropWhile_append_of_pos hdigits, htake,
    hdrop, List.append_nil]

/-- Only zero is written with a zero in front. -/
theorem head?_repr {n : Nat} (h : n.repr.toList.head? = some '0') : n = 0 := by
  rw [Nat.toList_repr] at h
  induction n using Nat.strongRecOn with
  | ind n ih =>
    by_cases hsmall : n < 10
    · rw [Nat.toDigits_of_lt_base hsmall] at h
      have hall : ∀ n < 10, (Nat.digitChar n = '0' → n = 0) := by decide
      exact hall n hsmall (Option.some.inj h)
    · have hfront : (Nat.toDigits 10 (n / 10)).head? = some '0' := by
        obtain ⟨c, digits, hcons⟩ := List.exists_cons_of_ne_nil (Nat.toDigits_ne_nil (n := n / 10))
        rw [Nat.toDigits_of_base_le (by decide) (by omega), hcons] at h
        rw [hcons]
        exact h
      have := ih (n / 10) (by omega) hfront
      omega

theorem readWhole_repr (n : Nat) {rest : List Char} (h : EndsNumeral rest) :
    readWhole (n.repr.toList ++ rest) = .ok (n.repr.toList, rest) := by
  have hzero : ¬(n.repr.toList.head? = some '0' ∧ n.repr.toList ≠ ['0']) := by
    rintro ⟨hhead, hne⟩
    obtain rfl := head?_repr hhead
    exact hne rfl
  rw [readWhole, readDigits_repr n h]
  dsimp only
  rw [if_neg hzero]

theorem readFraction_of_ends {rest : List Char} (h : EndsNumeral rest) :
    readFraction rest = .ok ([], rest) := by
  unfold readFraction
  split
  · exact absurd rfl (endsNumeral_cons.mp h).2.1
  · rfl

theorem readExponent_of_ends {rest : List Char} (h : EndsNumeral rest) :
    readExponent rest = .ok (none, rest) := by
  unfold readExponent
  split
  · rfl
  · obtain ⟨-, -, hlower, hupper⟩ := endsNumeral_cons.mp h
    rw [if_neg fun hmark => hmark.elim hlower hupper]

/-- Digits of a number that 64 bits hold are all taken. -/
theorem accumulate_eq {digits : List Char} {n : Nat}
    (h : Nat.ofDigitChars 10 digits n < Decimal.unsignedLimit) :
    accumulate digits n = (Nat.ofDigitChars 10 digits n, 0) := by
  induction digits generalizing n with
  | nil => rfl
  | cons digit digits ih =>
    rw [Nat.ofDigitChars_cons] at h ⊢
    have hnext := Nat.lt_of_le_of_lt (Decimal.le_ofDigitChars _ digits) h
    rw [accumulate, if_pos hnext, ih h]

/-- The integers that a JSON number is read as. -/
def Bounded (n : Int) : Prop := -Decimal.signedLimit ≤ n ∧ n < Decimal.unsignedLimit

theorem readNumeral_repr (n : Nat) {rest : List Char} (hrest : EndsNumeral rest) :
    readNumeral (n.repr.toList ++ rest) = .ok (⟨false, n.repr.toList, [], none⟩, rest) := by
  have hsign : ((n.repr.toList ++ rest).head? == some '-') = false := by
    obtain ⟨c, digits, hcons⟩ := List.exists_cons_of_ne_nil (repr_ne_nil n)
    have hc : c.isDigit = true := isDigit_of_mem_repr (hcons ▸ List.mem_cons_self)
    rw [hcons, List.cons_append, List.head?_cons]
    refine beq_eq_false_iff_ne.mpr fun hminus => ?_
    rw [Option.some.inj hminus] at hc
    cases hc
  unfold readNumeral
  rw [hsign]
  simp only [Bool.false_eq_true, if_false, readWhole_repr n hrest, readFraction_of_ends hrest,
    readExponent_of_ends hrest]

theorem readNumeral_minus (n : Nat) {rest : List Char} (hrest : EndsNumeral rest) :
    readNumeral ('-' :: (n.repr.toList ++ rest)) = .ok (⟨true, n.repr.toList, [], none⟩, rest) := by
  unfold readNumeral
  simp only [List.head?_cons, beq_self_eq_true, if_true, List.tail_cons, readWhole_repr n hrest,
    readFraction_of_ends hrest, readExponent_of_ends hrest]

theorem value_repr {n : Nat} (hn : n < Decimal.unsignedLimit) (negative : Bool) :
    Numeral.value ⟨negative, n.repr.toList, [], none⟩ =
      if !negative then .ok (.integer n)
      else if 0 < n ∧ n ≤ Decimal.signedLimit then .ok (.integer (-n))
      else .ok (.float (-n.toUInt64.toFloat)) := by
  have htake : accumulate n.repr.toList 0 = (n, 0) := by
    have hvalue : Nat.ofDigitChars 10 n.repr.toList 0 = n := Decimal.toNat_repr n
    have htake := accumulate_eq (hvalue.symm ▸ hn)
    rwa [hvalue] at htake
  rw [Numeral.value, htake]
  dsimp only
  rw [if_pos ⟨rfl, rfl, rfl⟩]

/-- An integer is read back from its text. -/
theorem readNumeral_ofInt {n : Int} (hn : Bounded n) {rest : List Char} (hrest : EndsNumeral rest) :
    ∃ numeral, readNumeral ((Decimal.ofInt n).toList ++ rest) = .ok (numeral, rest) ∧
      numeral.value = .ok (.integer n) := by
  obtain ⟨hlow, hhigh⟩ := hn
  cases n with
  | ofNat k =>
    have hk : k < Decimal.unsignedLimit := Int.ofNat_lt.mp hhigh
    exact ⟨_, readNumeral_repr k hrest, value_repr hk false⟩
  | negSucc k =>
    have hk : k + 1 ≤ Decimal.signedLimit := by
      rw [Int.negSucc_eq] at hlow
      omega
    have htext : (Decimal.ofInt (.negSucc k)).toList ++ rest =
        '-' :: ((k + 1).repr.toList ++ rest) := by
      rw [Decimal.ofInt, String.toList_append]
      rfl
    rw [htext]
    refine ⟨_, readNumeral_minus (k + 1) hrest, ?_⟩
    rw [value_repr (Nat.lt_of_le_of_lt hk (by decide)), if_neg (by decide),
      if_pos ⟨Nat.succ_pos k, hk⟩]
    rfl

theorem ofInt_eq_cons (n : Int) :
    ∃ c text, (Decimal.ofInt n).toList = c :: text ∧ (c.isDigit = true ∨ c = '-') := by
  cases n with
  | ofNat k =>
    obtain ⟨c, text, hcons⟩ := List.exists_cons_of_ne_nil (repr_ne_nil k)
    exact ⟨c, text, hcons, .inl (isDigit_of_mem_repr (hcons ▸ List.mem_cons_self))⟩
  | negSucc k => exact ⟨'-', _, String.toList_append, .inr rfl⟩

/-! ## Values as lexemes -/

mutual

/-- The lexemes that the text of a value is made of. -/
def Value.lexemes : Value → List Lexeme
  | .null => [.atom .null]
  | .boolean b => [.atom (.boolean b)]
  | .number n => [.atom (.number n)]
  | .string s => [.string s]
  | .array [] => [.opening .square, .closing .square]
  | .array (item :: items) => .opening .square :: (item.lexemes ++ itemLexemes items)
  | .object [] => [.opening .brace, .closing .brace]
  | .object ((name, value) :: members) =>
    .opening .brace :: .string name :: .colon :: (value.lexemes ++ memberLexemes members)

/-- The lexemes of the items after the first, up to the closing bracket. -/
def itemLexemes : List Value → List Lexeme
  | [] => [.closing .square]
  | item :: items => .comma :: (item.lexemes ++ itemLexemes items)

/-- The lexemes of the members after the first, up to the closing brace. -/
def memberLexemes : List (String × Value) → List Lexeme
  | [] => [.closing .brace]
  | (name, value) :: members =>
    .comma :: .string name :: .colon :: (value.lexemes ++ memberLexemes members)

end

mutual

/-- A value that the reader can give, in `room` for containers inside one another. -/
def Value.Readable (room : Nat) : Value → Prop
  | .null | .boolean _ | .string _ => True
  | .number (.integer n) => Bounded n
  | .number (.float _) => False
  | .array items => 0 < room ∧ ItemsReadable (room - 1) items
  | .object members =>
    0 < room ∧ members.Pairwise (fun a b => a.1 < b.1) ∧ MembersReadable (room - 1) members

/-- Every item can be read back. -/
def ItemsReadable (room : Nat) : List Value → Prop
  | [] => True
  | item :: items => item.Readable room ∧ ItemsReadable room items

/-- Every member has a value that can be read back. -/
def MembersReadable (room : Nat) : List (String × Value) → Prop
  | [] => True
  | (_, value) :: members => value.Readable room ∧ MembersReadable room members

end

/-! ## The text of a value is its lexemes -/

theorem lexemesFrom_eq (found : List Lexeme) (text : List Char) :
    lexemesFrom found text =
      match skipBlanks text with
      | [] => .ok found.reverse
      | c :: rest =>
        match readLexeme c rest with
        | .error failure => .error failure
        | .ok (lexeme, rest) => lexemesFrom (lexeme :: found) rest := by
  rw [lexemesFrom.eq_def]
  split
  · next h => rw [h]
  · next h =>
    rw [h]
    dsimp only
    split
    · next hread => rw [hread]
    · next hread => rw [hread]

variable {found : List Lexeme}

theorem lexemesFrom_blank {c : Char} (h : isBlank c = true) (text : List Char) :
    lexemesFrom found (c :: text) = lexemesFrom found text := by
  rw [lexemesFrom_eq, skipBlanks, List.dropWhile_cons_of_pos h, ← skipBlanks, ← lexemesFrom_eq]

theorem lexemesFrom_cons {c : Char} {text rest : List Char} {lexeme : Lexeme}
    (hblank : isBlank c = false) (h : readLexeme c text = .ok (lexeme, rest)) :
    lexemesFrom found (c :: text) = lexemesFrom (lexeme :: found) rest := by
  rw [lexemesFrom_eq, skipBlanks, List.dropWhile_cons_of_neg (by rw [hblank]; decide)]
  dsimp only
  rw [h]

theorem lexemesFrom_lineBreak (layout : Layout) (level : Nat) (rest : List Char) :
    lexemesFrom found ((layout.lineBreak level).toList ++ rest) = lexemesFrom found rest := by
  cases layout with
  | compact => rfl
  | indented =>
    have hblanks (n : Nat) :
        lexemesFrom found (List.replicate n ' ' ++ rest) = lexemesFrom found rest := by
      induction n with
      | zero => rfl
      | succ n ih =>
        rw [List.replicate_succ, List.cons_append, lexemesFrom_blank rfl, ih]
    have htext : (Layout.indented.lineBreak level).toList ++ rest =
        '\n' :: (List.replicate (2 * level) ' ' ++ rest) := by simp [Layout.lineBreak]
    rw [htext, lexemesFrom_blank rfl, hblanks]

theorem lexemesFrom_quoted (s : String) (rest : List Char) :
    lexemesFrom found ((quoted s).toList ++ rest) = lexemesFrom (.string s :: found) rest := by
  have htext : (quoted s).toList ++ rest = '"' :: (s.toList.flatMap escape ++ '"' :: rest) := by
    simp [quoted]
  have hread : readLexeme '"' (s.toList.flatMap escape ++ '"' :: rest) = .ok (.string s, rest) := by
    have hmark : mark? '"' = none := rfl
    rw [readLexeme, hmark]
    dsimp only
    rw [if_pos rfl, readString_escaped]
  rw [htext]
  exact lexemesFrom_cons rfl hread

theorem lexemesFrom_memberStart (layout : Layout) (level : Nat) (name : String)
    (rest : List Char) :
    lexemesFrom found ((layout.memberStart level name).toList ++ rest) =
      lexemesFrom (.colon :: .string name :: found) rest := by
  have hcolon (found : List Lexeme) :
      lexemesFrom found (layout.colon.toList ++ rest) = lexemesFrom (.colon :: found) rest := by
    cases layout with
    | compact => exact lexemesFrom_cons rfl rfl
    | indented => exact (lexemesFrom_cons rfl rfl).trans (lexemesFrom_blank rfl rest)
  rw [Layout.memberStart, String.toList_append, String.toList_append, List.append_assoc,
    List.append_assoc, lexemesFrom_lineBreak, lexemesFrom_quoted, hcolon]

theorem lexemesFrom_null (rest : List Char) :
    lexemesFrom found ("null".toList ++ rest) = lexemesFrom (.atom .null :: found) rest := by
  have hread : readLexeme 'n' (['u', 'l', 'l'] ++ rest) = .ok (.atom .null, rest) := rfl
  exact lexemesFrom_cons rfl hread

theorem lexemesFrom_boolean (b : Bool) (rest : List Char) :
    lexemesFrom found ((if b then "true" else "false").toList ++ rest) =
      lexemesFrom (.atom (.boolean b) :: found) rest := by
  cases b with
  | true =>
    have hread : readLexeme 't' (['r', 'u', 'e'] ++ rest) = .ok (.atom (.boolean true), rest) := rfl
    exact lexemesFrom_cons rfl hread
  | false =>
    have hread : readLexeme 'f' (['a', 'l', 's', 'e'] ++ rest) =
        .ok (.atom (.boolean false), rest) := rfl
    exact lexemesFrom_cons rfl hread

theorem ne_of_leads {c d : Char} (h : c.isDigit = true ∨ c = '-')
    (hd : d.isDigit = false ∧ d ≠ '-') : c ≠ d := by
  rintro rfl
  rcases h with h | h
  · rw [hd.1] at h
    cases h
  · exact hd.2 h

/-- What starts a numeral starts nothing else. -/
theorem readLexeme_numeral {c : Char} (h : c.isDigit = true ∨ c = '-') {text rest : List Char}
    {numeral : Numeral} {n : Number} (hread : readNumeral (c :: text) = .ok (numeral, rest))
    (hvalue : numeral.value = .ok n) :
    readLexeme c text = .ok (.atom (.number n), rest) := by
  have hother (d : Char) (hd : d.isDigit = false ∧ d ≠ '-') : c ≠ d := ne_of_leads h hd
  have hmark : mark? c = none := by
    unfold mark?
    rw [if_neg (hother '[' (by decide)), if_neg (hother ']' (by decide)),
      if_neg (hother '\x7b' (by decide)), if_neg (hother '\x7d' (by decide)),
      if_neg (hother ',' (by decide)), if_neg (hother ':' (by decide))]
  rw [readLexeme, hmark]
  dsimp only
  rw [if_neg (hother '"' (by decide)), if_neg (hother 'n' (by decide)),
    if_neg (hother 't' (by decide)), if_neg (hother 'f' (by decide)), hread]
  dsimp only
  rw [hvalue]

theorem lexemesFrom_integer {n : Int} (hn : Bounded n) {rest : List Char}
    (hrest : EndsNumeral rest) :
    lexemesFrom found ((Decimal.ofInt n).toList ++ rest) =
      lexemesFrom (.atom (.number (.integer n)) :: found) rest := by
  obtain ⟨numeral, hread, hvalue⟩ := readNumeral_ofInt hn hrest
  obtain ⟨c, text, hcons, hc⟩ := ofInt_eq_cons n
  have hblank : isBlank c = false := by
    have hother (d : Char) (hd : d.isDigit = false ∧ d ≠ '-') : (c == d) = false :=
      beq_eq_false_iff_ne.mpr (ne_of_leads hc hd)
    rw [isBlank, hother ' ' (by decide), hother '\t' (by decide), hother '\n' (by decide),
      hother '\r' (by decide)]
    rfl
  rw [hcons, List.cons_append] at hread ⊢
  exact lexemesFrom_cons hblank (readLexeme_numeral hc hread hvalue)

/-! ### Containers, written piece by piece -/

section Written

variable (layout : Layout) (level : Nat) (rest : List Char)

theorem write_eq_append (value : Value) (front : String) :
    value.write layout level front = front ++ value.write layout level "" := by
  have happend := value.write_append layout level front ""
  rwa [String.append_empty] at happend

theorem writeItems_eq_append (items : List Value) (front : String) :
    writeItems layout level front items = front ++ writeItems layout level "" items := by
  have happend := writeItems_append layout level front "" items
  rwa [String.append_empty] at happend

theorem writeMembers_eq_append (members : List (String × Value)) (front : String) :
    writeMembers layout level front members = front ++ writeMembers layout level "" members := by
  have happend := writeMembers_append layout level front "" members
  rwa [String.append_empty] at happend

theorem toList_write_array (item : Value) (items : List Value) :
    ((Value.array (item :: items)).write layout level "").toList ++ rest =
      '[' :: ((layout.lineBreak (level + 1)).toList ++
        ((item.write layout (level + 1) "").toList ++
          ((writeItems layout level "" items).toList ++ rest))) := by
  rw [Value.write, writeItems_eq_append, write_eq_append]
  simp

theorem toList_writeItems_nil :
    (writeItems layout level "" []).toList ++ rest =
      (layout.lineBreak level).toList ++ ']' :: rest := by
  simp [writeItems]

theorem toList_writeItems_cons (item : Value) (items : List Value) :
    (writeItems layout level "" (item :: items)).toList ++ rest =
      ',' :: ((layout.lineBreak (level + 1)).toList ++
        ((item.write layout (level + 1) "").toList ++
          ((writeItems layout level "" items).toList ++ rest))) := by
  rw [writeItems, writeItems_eq_append, write_eq_append]
  simp

theorem toList_write_object (name : String) (value : Value) (members : List (String × Value)) :
    ((Value.object ((name, value) :: members)).write layout level "").toList ++ rest =
      '\x7b' :: ((layout.memberStart (level + 1) name).toList ++
        ((value.write layout (level + 1) "").toList ++
          ((writeMembers layout level "" members).toList ++ rest))) := by
  rw [Value.write, writeMembers_eq_append, write_eq_append]
  simp

theorem toList_writeMembers_nil :
    (writeMembers layout level "" []).toList ++ rest =
      (layout.lineBreak level).toList ++ '\x7d' :: rest := by
  simp [writeMembers]

theorem toList_writeMembers_cons (name : String) (value : Value)
    (members : List (String × Value)) :
    (writeMembers layout level "" ((name, value) :: members)).toList ++ rest =
      ',' :: ((layout.memberStart (level + 1) name).toList ++
        ((value.write layout (level + 1) "").toList ++
          ((writeMembers layout level "" members).toList ++ rest))) := by
  rw [writeMembers, writeMembers_eq_append, write_eq_append]
  simp

theorem endsNumeral_lineBreak {rest : List Char} (h : EndsNumeral rest) :
    EndsNumeral ((layout.lineBreak level).toList ++ rest) := by
  cases layout with
  | compact => exact h
  | indented =>
    have htext : (Layout.indented.lineBreak level).toList ++ rest =
        '\n' :: (List.replicate (2 * level) ' ' ++ rest) := by simp [Layout.lineBreak]
    rw [htext]
    exact endsNumeral_cons.mpr (by decide)

theorem endsNumeral_items (items : List Value) :
    EndsNumeral ((writeItems layout level "" items).toList ++ rest) := by
  cases items with
  | nil =>
    rw [toList_writeItems_nil]
    exact endsNumeral_lineBreak layout level (endsNumeral_cons.mpr (by decide))
  | cons item items =>
    rw [toList_writeItems_cons]
    exact endsNumeral_cons.mpr (by decide)

theorem endsNumeral_members (members : List (String × Value)) :
    EndsNumeral ((writeMembers layout level "" members).toList ++ rest) := by
  cases members with
  | nil =>
    rw [toList_writeMembers_nil]
    exact endsNumeral_lineBreak layout level (endsNumeral_cons.mpr (by decide))
  | cons member members =>
    rw [toList_writeMembers_cons]
    exact endsNumeral_cons.mpr (by decide)

end Written

theorem lexemesFrom_mark {c : Char} {lexeme : Lexeme} (hblank : isBlank c = false)
    (h : mark? c = some lexeme) (rest : List Char) :
    lexemesFrom found (c :: rest) = lexemesFrom (lexeme :: found) rest := by
  refine lexemesFrom_cons hblank ?_
  rw [readLexeme, h]

mutual

/-- **The text of a value is read as its lexemes**, in either layout. -/
theorem Value.lexemesFrom_write (layout : Layout) (level : Nat) (found : List Lexeme)
    {room : Nat} {value : Value} (h : value.Readable room) {rest : List Char}
    (hrest : EndsNumeral rest) :
    lexemesFrom found ((value.write layout level "").toList ++ rest) =
      lexemesFrom (value.lexemes.reverse ++ found) rest := by
  match value with
  | .null => exact lexemesFrom_null rest
  | .boolean b =>
    rw [Value.write, String.empty_append]
    exact lexemesFrom_boolean b rest
  | .number (.integer n) =>
    rw [Value.write, String.empty_append]
    exact lexemesFrom_integer h hrest
  | .string s =>
    rw [Value.write, String.empty_append]
    exact lexemesFrom_quoted s rest
  | .array [] =>
    have htext : ((Value.array []).write layout level "").toList ++ rest = '[' :: ']' :: rest := by
      simp [Value.write]
    rw [htext, lexemesFrom_mark rfl rfl, lexemesFrom_mark rfl rfl]
    rfl
  | .array (item :: items) =>
    obtain ⟨-, hitem, hitems⟩ := h
    rw [toList_write_array, lexemesFrom_mark rfl rfl, lexemesFrom_lineBreak,
      item.lexemesFrom_write layout (level + 1) _ hitem (endsNumeral_items layout level rest items),
      lexemesFrom_writeItems layout level _ hitems]
    simp [Value.lexemes]
  | .object [] =>
    have htext : ((Value.object []).write layout level "").toList ++ rest =
        '\x7b' :: '\x7d' :: rest := by
      simp [Value.write]
    rw [htext, lexemesFrom_mark rfl rfl, lexemesFrom_mark rfl rfl]
    rfl
  | .object ((name, value) :: members) =>
    obtain ⟨-, -, hvalue, hmembers⟩ := h
    rw [toList_write_object, lexemesFrom_mark rfl rfl, lexemesFrom_memberStart,
      value.lexemesFrom_write layout (level + 1) _ hvalue
        (endsNumeral_members layout level rest members),
      lexemesFrom_writeMembers layout level _ hmembers]
    simp [Value.lexemes]

theorem lexemesFrom_writeItems (layout : Layout) (level : Nat) (found : List Lexeme)
    {room : Nat} {items : List Value} (h : ItemsReadable room items) (rest : List Char) :
    lexemesFrom found ((writeItems layout level "" items).toList ++ rest) =
      lexemesFrom ((itemLexemes items).reverse ++ found) rest := by
  match items with
  | [] =>
    rw [toList_writeItems_nil, lexemesFrom_lineBreak]
    exact lexemesFrom_mark rfl rfl rest
  | item :: items =>
    obtain ⟨hitem, hitems⟩ := h
    rw [toList_writeItems_cons, lexemesFrom_mark rfl rfl, lexemesFrom_lineBreak,
      item.lexemesFrom_write layout (level + 1) _ hitem (endsNumeral_items layout level rest items),
      lexemesFrom_writeItems layout level _ hitems]
    simp [itemLexemes]

theorem lexemesFrom_writeMembers (layout : Layout) (level : Nat) (found : List Lexeme)
    {room : Nat} {members : List (String × Value)} (h : MembersReadable room members)
    (rest : List Char) :
    lexemesFrom found ((writeMembers layout level "" members).toList ++ rest) =
      lexemesFrom ((memberLexemes members).reverse ++ found) rest := by
  match members with
  | [] =>
    rw [toList_writeMembers_nil, lexemesFrom_lineBreak]
    exact lexemesFrom_mark rfl rfl rest
  | (name, value) :: members =>
    obtain ⟨hvalue, hmembers⟩ := h
    rw [toList_writeMembers_cons, lexemesFrom_mark rfl rfl, lexemesFrom_memberStart,
      value.lexemesFrom_write layout (level + 1) _ hvalue
        (endsNumeral_members layout level rest members),
      lexemesFrom_writeMembers layout level _ hmembers]
    simp [memberLexemes]

end

/-! ## The lexemes of a value make it up -/

theorem lastOfEach_of_pairwise {members : Members} (h : members.Pairwise fun a b => a.1 < b.1) :
    Members.lastOfEach members = members := by
  induction members using Members.lastOfEach.induct with
  | case1 a b rest hsame ih =>
    have hlt := List.rel_of_pairwise_cons h List.mem_cons_self
    rw [hsame] at hlt
    exact absurd hlt (String.lt_irrefl _)
  | case2 a b rest hother ih =>
    rw [Members.lastOfEach, if_neg hother, ih h.of_cons]
  | case3 members hshort =>
    rw [Members.lastOfEach]
    exact hshort

/-- Members in the order of their names stay as they are. -/
theorem normalize_of_pairwise {members : Members} (h : members.Pairwise fun a b => a.1 < b.1) :
    members.normalize = members := by
  have hsorted : (members.mergeSort fun a b => !decide (b.1 < a.1)) = members := by
    refine List.mergeSort_of_pairwise (h.imp fun {a b} hlt => ?_)
    rw [decide_eq_false (String.lt_asymm hlt)]
    rfl
  rw [Members.normalize, hsorted, lastOfEach_of_pairwise h]

theorem foldlM_step {reading next : Reading} {lexeme : Lexeme} (h : reading.step lexeme = some next)
    (more : List Lexeme) :
    (lexeme :: more).foldlM Reading.step reading = more.foldlM Reading.step next := by
  rw [List.foldlM_cons, h]
  rfl

section Opening

variable {frames : List Frame} (hroom : frames.length < depthLimit) (orClosing : Bool)

include hroom

theorem step_opening_square :
    Reading.step ⟨.value orClosing, frames⟩ (.opening .square) =
      some ⟨.value true, .array [] :: frames⟩ := if_pos hroom

theorem step_opening_brace :
    Reading.step ⟨.value orClosing, frames⟩ (.opening .brace) =
      some ⟨.name true, .object [] "" :: frames⟩ := if_pos hroom

end Opening

/-- A name and its colon, where a member is due. -/
theorem foldlM_label (orClosing : Bool) (found : Members) (last name : String)
    (frames : List Frame) (more : List Lexeme) :
    (.string name :: .colon :: more).foldlM Reading.step
        ⟨.name orClosing, .object found last :: frames⟩ =
      more.foldlM Reading.step ⟨.value false, .object found name :: frames⟩ :=
  (foldlM_step rfl _).trans (foldlM_step rfl more)

mutual

/-- **The lexemes of a value are read as the value**, in any containers that leave
room for those that it is made of. -/
theorem Value.foldlM_lexemes {room : Nat} {value : Value} (h : value.Readable room)
    {frames : List Frame} (hroom : frames.length + room ≤ depthLimit) (orClosing : Bool)
    (more : List Lexeme) :
    (value.lexemes ++ more).foldlM Reading.step ⟨.value orClosing, frames⟩ =
      more.foldlM Reading.step (Reading.complete value frames) := by
  match value with
  | .null => exact foldlM_step rfl more
  | .boolean b => exact foldlM_step rfl more
  | .number n => exact foldlM_step rfl more
  | .string s => exact foldlM_step rfl more
  | .array [] =>
    obtain ⟨hpositive, -⟩ := h
    exact (foldlM_step (step_opening_square (by omega) orClosing) _).trans (foldlM_step rfl more)
  | .array (item :: items) =>
    obtain ⟨hpositive, hitem, hitems⟩ := h
    have hinner : frames.length + 1 + (room - 1) ≤ depthLimit := by omega
    have hframe : (Frame.array [] :: frames).length + (room - 1) ≤ depthLimit := hinner
    rw [Value.lexemes, List.cons_append, List.append_assoc,
      foldlM_step (step_opening_square (by omega) orClosing),
      item.foldlM_lexemes hitem hframe, Reading.complete, foldlM_itemLexemes hitems hinner [item]]
    rfl
  | .object [] =>
    obtain ⟨hpositive, -⟩ := h
    have hclose : Reading.step ⟨.name true, .object [] "" :: frames⟩ (.closing .brace) =
        some (Reading.complete (.object (Members.normalize [])) frames) := rfl
    have hnormal : Members.normalize [] = [] := normalize_of_pairwise .nil
    rw [hnormal] at hclose
    exact (foldlM_step (step_opening_brace (by omega) orClosing) _).trans (foldlM_step hclose more)
  | .object ((name, value) :: members) =>
    obtain ⟨hpositive, hnames, hvalue, hmembers⟩ := h
    have hinner : frames.length + 1 + (room - 1) ≤ depthLimit := by omega
    have hframe : (Frame.object [] name :: frames).length + (room - 1) ≤ depthLimit := hinner
    have hnormal : Members.normalize ([(name, value)].reverse ++ members) =
        (name, value) :: members := normalize_of_pairwise hnames
    rw [Value.lexemes, List.cons_append, List.cons_append, List.cons_append, List.append_assoc,
      foldlM_step (step_opening_brace (by omega) orClosing), foldlM_label,
      value.foldlM_lexemes hvalue hframe, Reading.complete,
      foldlM_memberLexemes hmembers hinner [(name, value)], hnormal]

theorem foldlM_itemLexemes {room : Nat} {items : List Value} (h : ItemsReadable room items)
    {frames : List Frame} (hroom : frames.length + 1 + room ≤ depthLimit) (found : List Value)
    (more : List Lexeme) :
    (itemLexemes items ++ more).foldlM Reading.step ⟨.more, .array found :: frames⟩ =
      more.foldlM Reading.step (Reading.complete (.array (found.reverse ++ items)) frames) := by
  match items with
  | [] =>
    rw [List.append_nil]
    exact foldlM_step rfl more
  | item :: items =>
    obtain ⟨hitem, hitems⟩ := h
    have hcomma : Reading.step ⟨.more, .array found :: frames⟩ .comma =
        some ⟨.value false, .array found :: frames⟩ := rfl
    have hframe : (Frame.array found :: frames).length + room ≤ depthLimit := hroom
    rw [itemLexemes, List.cons_append, List.append_assoc, foldlM_step hcomma,
      item.foldlM_lexemes hitem hframe, Reading.complete,
      foldlM_itemLexemes hitems hroom (item :: found), List.reverse_cons, List.append_assoc,
      List.singleton_append]

theorem foldlM_memberLexemes {room : Nat} {members : Members} (h : MembersReadable room members)
    {frames : List Frame} (hroom : frames.length + 1 + room ≤ depthLimit) (found : Members)
    (last : String) (more : List Lexeme) :
    (memberLexemes members ++ more).foldlM Reading.step ⟨.more, .object found last :: frames⟩ =
      more.foldlM Reading.step
        (Reading.complete (.object (Members.normalize (found.reverse ++ members))) frames) := by
  match members with
  | [] =>
    rw [List.append_nil]
    exact foldlM_step rfl more
  | (name, value) :: members =>
    obtain ⟨hvalue, hmembers⟩ := h
    have hcomma : Reading.step ⟨.more, .object found last :: frames⟩ .comma =
        some ⟨.name false, .object found last :: frames⟩ := rfl
    have hframe : (Frame.object found name :: frames).length + room ≤ depthLimit := hroom
    rw [memberLexemes, List.cons_append, List.cons_append, List.cons_append, List.append_assoc,
      foldlM_step hcomma, foldlM_label, value.foldlM_lexemes hvalue hframe, Reading.complete,
      foldlM_memberLexemes hmembers hroom ((name, value) :: found), List.reverse_cons,
      List.append_assoc, List.singleton_append]

end

/-! ## Round trip -/

/-- **A value that is written is read back**, in either layout. -/
theorem Value.parse?_text (layout : Layout) {value : Value} (h : value.Readable depthLimit) :
    Value.parse? (value.text layout) = some value := by
  have hlexemes : Json.lexemes (value.text layout).toList = .ok value.lexemes := by
    have hwrite := Value.lexemesFrom_write layout 0 [] h endsNumeral_nil
    rw [List.append_nil, List.append_nil] at hwrite
    have hend : lexemesFrom value.lexemes.reverse [] = .ok value.lexemes := by
      rw [lexemesFrom_eq]
      exact congrArg Except.ok (List.reverse_reverse _)
    exact hwrite.trans hend
  have hroom : ([] : List Frame).length + depthLimit ≤ depthLimit := Nat.le_of_eq (Nat.zero_add _)
  have hread := Value.foldlM_lexemes h hroom false []
  rw [List.append_nil] at hread
  rw [Value.parse?, hlexemes]
  dsimp only
  rw [Reading.start, hread]
  rfl

end RawJson.Json
