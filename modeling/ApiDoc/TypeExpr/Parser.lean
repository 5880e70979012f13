import ApiDoc.Text.Blank
import ApiDoc.Text.Quoted
import ApiDoc.Text.Word
import ApiDoc.TypeExpr.Basic

namespace ApiDoc

/-!
# Reading type expressions

* `TypeToken`, `TypeToken.next?`, `TypeToken.ofChars` — the tokens of a text;
* `TypeExpr.ofTokens`, `TypeExpr.paramsOfTokens` — the type that tokens start with, and the
  parameters up to a closing bracket, each with the tokens that follow;
* `TypeExpr.parse` — the type that a whole text is.

Every step hands on fewer tokens or characters than it was given, which is why reading ends.
-/

/-- Why a text is no type expression. -/
inductive TypeSyntaxError where
  | unreadable (offset : Nat)
  | empty
  | nameExpected
  | unclosed
  | unexpected (token : String)
deriving DecidableEq, Repr

/-- The message about a text that is no type expression. -/
def TypeSyntaxError.message (text : String) : TypeSyntaxError → String
  | unreadable offset =>
    "Cannot parse type " ++ Text.quoted text ++ " at offset " ++ toString offset ++ "."
  | empty => "Empty type expression."
  | nameExpected => "Expected a type name in " ++ Text.quoted text ++ "."
  | unclosed => "Unclosed '<' in type " ++ Text.quoted text ++ "."
  | unexpected token =>
    "Unexpected " ++ Text.quoted token ++ " in type " ++ Text.quoted text ++ "."

/-! ### Tokens -/

/-- A token. A literal comes with the quote that encloses it. -/
inductive TypeToken where
  | name (s : String)
  | literal (quote : Char) (s : String)
  | opening
  | closing
  | comma
deriving DecidableEq, Repr

namespace TypeToken

/-- A token as it is written. -/
def text : TypeToken → String
  | name s => s
  | literal q s => String.ofList (q :: s.toList ++ [q])
  | opening => "<"
  | closing => ">"
  | comma => ","

/-- A character of a name: a word character, a backslash, a dot or a colon. -/
def isNameChar (c : Char) : Bool := Text.isWord c || c == '\\' || c == '.' || c == ':'

/-- The characters up to the quote `q`, and those after it. -/
def untilQuote? (q : Char) : List Char → Option (List Char × List Char)
  | [] => none
  | c :: cs =>
    if c == q then some ([], cs)
    else (untilQuote? q cs).map fun r => (c :: r.1, r.2)

/-- The token at the front of a text without leading blanks, and what follows. -/
def next? : List Char → Option (TypeToken × List Char)
  | [] => none
  | c :: cs =>
    if c == '\'' || c == '"' then
      (untilQuote? c cs).map fun r => (literal c (String.ofList r.1), r.2)
    else if isNameChar c then
      some (name (String.ofList (c :: cs.takeWhile isNameChar)), cs.dropWhile isNameChar)
    else if c == '<' then some (opening, cs)
    else if c == '>' then some (closing, cs)
    else if c == ',' then some (comma, cs)
    else none

theorem untilQuote?_length {q : Char} {cs : List Char} {r : List Char × List Char}
    (h : untilQuote? q cs = some r) : r.2.length < cs.length := by
  induction cs generalizing r with
  | nil => simp [untilQuote?] at h
  | cons c cs ih =>
    simp only [untilQuote?] at h
    split at h
    · cases h; simp
    · obtain ⟨s, hs, rfl⟩ := Option.map_eq_some_iff.1 h
      have := ih hs
      simp only [List.length_cons]; omega

theorem length_dropWhile_le (p : Char → Bool) (cs : List Char) :
    (cs.dropWhile p).length ≤ cs.length :=
  (List.dropWhile_sublist p).length_le

/-- A token takes at least one character. -/
theorem next?_length {cs : List Char} {r : TypeToken × List Char} (h : next? cs = some r) :
    r.2.length < cs.length := by
  cases cs with
  | nil => simp [next?] at h
  | cons c cs =>
    have hd := length_dropWhile_le isNameChar cs
    simp only [next?] at h
    split at h
    · obtain ⟨s, hs, rfl⟩ := Option.map_eq_some_iff.1 h
      have := untilQuote?_length hs
      simp only [List.length_cons]; omega
    split at h
    · cases h; simp only [List.length_cons]; omega
    split at h
    · cases h; simp
    split at h
    · cases h; simp
    split at h
    · cases h; simp
    · simp at h

/-- The tokens of a text that starts at an offset; blanks may stand before each. -/
def ofChars (offset : Nat) (cs : List Char) : Except TypeSyntaxError (List TypeToken) :=
  if cs.isEmpty then .ok []
  else
    match _h : next? (cs.dropWhile Text.isBlank) with
    | none => .error (.unreadable offset)
    | some (t, rest) => do
      return t :: (← ofChars (offset + (cs.length - rest.length)) rest)
termination_by cs.length
decreasing_by
  have := next?_length _h
  have := length_dropWhile_le Text.isBlank cs
  simp only at *; omega

end TypeToken

/-! ### Types -/

namespace TypeExpr

/-- What reading from tokens yields: a result and fewer tokens than there were. -/
abbrev Reading (α : Type) (ts : List TypeToken) : Type :=
  Except TypeSyntaxError (α × { rest : List TypeToken // rest.length < ts.length })

mutual

/-- The type at the front of the tokens. -/
def ofTokens (ts : List TypeToken) : Reading TypeExpr ts :=
  match ts with
  | .name n :: .opening :: ts => do
    let (ps, ⟨rest, h⟩) ← paramsOfTokens ts
    return (mk n ps, ⟨rest, by simp only [List.length_cons]; omega⟩)
  | .name n :: ts => return (mk n [], ⟨ts, by simp⟩)
  | _ => .error .nameExpected
termination_by 2 * ts.length

/-- The parameters up to the closing bracket. -/
def paramsOfTokens (ts : List TypeToken) : Reading (List TypeParam) ts := do
  let (p, ⟨rest, h⟩) ← paramOfTokens ts
  match rest, h with
  | [], _ => .error .unclosed
  | .closing :: rest, h => return ([p], ⟨rest, by simp only [List.length_cons] at h; omega⟩)
  | .comma :: rest, h =>
    let (ps, ⟨rest', h'⟩) ← paramsOfTokens rest
    return (p :: ps, ⟨rest', by simp only [List.length_cons] at h; omega⟩)
  | t :: _, _ => .error (.unexpected t.text)
termination_by 2 * ts.length + 2
decreasing_by
  · omega
  · simp only [List.length_cons] at h; omega

/-- One parameter. -/
def paramOfTokens (ts : List TypeToken) : Reading TypeParam ts :=
  match ts with
  | [] => .error .unclosed
  | .literal _ s :: rest => return (.literal s, ⟨rest, by simp⟩)
  | t :: rest => do
    let (u, r) ← ofTokens (t :: rest)
    return (.type u, r)
termination_by 2 * ts.length + 1

end

/-- The type that a text is. Blanks at its end do not count. -/
def parse (text : String) : Except TypeSyntaxError TypeExpr := do
  let ts ← TypeToken.ofChars 0 (Text.dropTrailingBlanks text.toList)
  if ts.isEmpty then throw .empty
  let (t, ⟨rest, _⟩) ← ofTokens ts
  match rest with
  | [] => return t
  | extra :: _ => throw (.unexpected extra.text)

end TypeExpr

end ApiDoc
