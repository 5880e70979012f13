import ApiDoc.Text.Word

namespace ApiDoc

/-!
# Expressions for types

What may stand in quotes where a type is expected: names, attributes, types with arguments in
brackets, and alternatives between bars.

* `Expression` — the forms;
* `ExpressionToken.ofChars?` — the tokens of a text;
* `Expression.parse?` — the expression that a text is;
* `Expression.isWritten` — whether a text is one and can stand for a type inside another.
-/

/-- An expression for a type. -/
inductive Expression where
  | name (s : String)
  | attr (owner : Expression) (name : String)
  | index (owner : Expression) (arguments : List Expression)
  | either (left right : Expression)
  | nothing
  | ellipsis
  /-- A number, a text, or a list of expressions. -/
  | constant
deriving Repr, Inhabited

/-- A token of an expression. -/
inductive ExpressionToken where
  | word (s : String)
  | constant
  | ellipsis
  | sign (c : Char)
deriving DecidableEq, Repr

namespace ExpressionToken

/-- The signs of expressions. -/
def signs : List Char := ['.', ',', '|', '[', ']', '(', ')']

/-- Whether a character starts a number. -/
def startsNumber (c : Char) : Bool := '0' ≤ c && c ≤ '9'

/-- The characters after the text that a quote starts; none if it does not end on its line. -/
def afterText? (quote : Char) : List Char → Option (List Char)
  | [] => none
  | '\n' :: _ => none
  | '\\' :: _ :: cs => afterText? quote cs
  | c :: cs => if c == quote then some cs else afterText? quote cs

/-- The token at the front of characters, and what follows. -/
def next? : List Char → Option (ExpressionToken × List Char)
  | '.' :: '.' :: '.' :: cs => some (ellipsis, cs)
  | c :: cs =>
    if c == '\'' || c == '"' then (afterText? c cs).map fun rest => (constant, rest)
    else if startsNumber c then some (constant, cs.dropWhile fun d => Text.isWord d || d == '.')
    else if Text.isWord c then
      some (word (String.ofList (c :: cs.takeWhile Text.isWord)), cs.dropWhile Text.isWord)
    else if signs.contains c then some (sign c, cs)
    else none
  | [] => none

/-- The tokens of characters, with blanks between them, in at most so many steps. -/
def ofCharsIn? : (fuel : Nat) → List Char → Option (List ExpressionToken)
  | 0, _ => none
  | fuel + 1, cs =>
    match cs.dropWhile fun c => c == ' ' || c == '\t' with
    | [] => some []
    | cs => do
      let (t, rest) ← next? cs
      return t :: (← ofCharsIn? fuel rest)

/-- The tokens of characters. Ends of lines count only where they come last. -/
def ofChars? (cs : List Char) : Option (List ExpressionToken) :=
  let cs := (cs.reverse.dropWhile fun c => c == '\n' || c == ' ' || c == '\t').reverse
  ofCharsIn? (cs.length + 1) cs

end ExpressionToken

namespace Expression

/-- An expression read from the front of tokens, and those that follow. -/
abbrev Reading := Option (Expression × List ExpressionToken)

/-- Words that stand for values. -/
def constants : List String := ["True", "False"]

mutual

/-- Alternatives at the front of tokens, to so many levels. -/
def alternatives? : (fuel : Nat) → List ExpressionToken → Reading
  | 0, _ => none
  | fuel + 1, ts => do
    let (e, rest) ← unit? fuel ts
    moreAlternatives? fuel e rest

/-- Further alternatives after an expression. -/
def moreAlternatives? : (fuel : Nat) → Expression → List ExpressionToken → Reading
  | 0, _, _ => none
  | fuel + 1, e, .sign '|' :: rest => do
    let (f, rest) ← unit? fuel rest
    moreAlternatives? fuel (.either e f) rest
  | _ + 1, e, ts => some (e, ts)

/-- An expression without alternatives, unless they stand in parentheses. -/
def unit? : (fuel : Nat) → List ExpressionToken → Reading
  | 0, _ => none
  | fuel + 1, ts => do
    let (e, rest) ← atom? fuel ts
    moreParts? fuel e rest

/-- Attributes and arguments after an expression. -/
def moreParts? : (fuel : Nat) → Expression → List ExpressionToken → Reading
  | 0, _, _ => none
  | fuel + 1, e, .sign '.' :: .word s :: rest => moreParts? fuel (.attr e s) rest
  | fuel + 1, e, .sign '[' :: rest => do
    let (args, rest) ← arguments? fuel rest
    moreParts? fuel (.index e args) rest
  | _ + 1, e, ts => some (e, ts)

/-- A name, a value, or an expression in parentheses. -/
def atom? : (fuel : Nat) → List ExpressionToken → Reading
  | 0, _ => none
  | fuel + 1, ts => match ts with
    | .word "None" :: rest => some (.nothing, rest)
    | .word s :: rest => some (if constants.contains s then .constant else .name s, rest)
    | .constant :: rest => some (.constant, rest)
    | .ellipsis :: rest => some (.ellipsis, rest)
    | .sign '[' :: .sign ']' :: rest => some (.constant, rest)
    | .sign '[' :: rest => (arguments? fuel rest).map fun r => (.constant, r.2)
    | .sign '(' :: rest => do
      match ← alternatives? fuel rest with
      | (e, .sign ')' :: rest) => return (e, rest)
      | _ => none
    | _ => none

/-- Arguments up to the closing bracket. -/
def arguments? : (fuel : Nat) → List ExpressionToken →
    Option (List Expression × List ExpressionToken)
  | 0, _ => none
  | fuel + 1, ts => match ts with
    | .sign '(' :: .sign ')' :: .sign ']' :: rest => some ([], rest)
    | ts => do
      let (e, rest) ← alternatives? fuel ts
      match rest with
      | .sign ']' :: rest => return ([e], rest)
      | .sign ',' :: .sign ']' :: rest => return ([e], rest)
      | .sign ',' :: rest => do
        let (es, rest) ← arguments? fuel rest
        return (e :: es, rest)
      | _ => none

end

/-- The expression that a text is. -/
def parse? (text : String) : Option Expression := do
  let ts ← ExpressionToken.ofChars? text.toList
  match ← alternatives? (4 * ts.length + 4) ts with
  | (e, []) => return e
  | _ => none

/-- Words that are no names. -/
def reserved : List String :=
  ["and", "as", "assert", "async", "await", "break", "class", "continue", "def", "del", "elif",
   "else", "except", "finally", "for", "from", "global", "if", "import", "in", "is", "lambda",
   "nonlocal", "not", "or", "pass", "raise", "return", "try", "while", "with", "yield"]

/-- Whether a word can be read: it is not reserved. -/
def isReadable : ExpressionToken → Bool
  | .word s => !reserved.contains s
  | _ => true

/-- Whether a text is an expression that can stand for a type inside another: it starts with no
    blank. -/
def isWritten (text : String) : Bool :=
  !(text.startsWith " " || text.startsWith "\t") && (parse? text).isSome
    && ((ExpressionToken.ofChars? text.toList).getD []).all isReadable

end Expression

end ApiDoc
