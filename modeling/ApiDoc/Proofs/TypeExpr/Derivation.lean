import ApiDoc.TypeExpr.Parser

namespace ApiDoc.TypeExpr

/-!
# The grammar of type expressions

    type  ::=  name  |  name '<' param (',' param)* '>'
    param ::=  type  |  literal

Blanks may stand before every token and at the end of a text.

* `Blanks`, `Name`, `Literal` — what tokens are made of; a name is a maximal run, for a mark, a
  blank or the end follows it;
* `TypeForm`, `ParamForm`, `ParamsForm` — derivations from the rules of the grammar;
* `Derivation`, `Derivation.text`, `Derivation.tree` — a derivation of a whole text, the text that
  it derives and the type that it stands for;
* `Piece`, `TypeForm.pieces` — a derivation as the row of its tokens, each with its blanks;
* `TypeForm.pieces_injective`, `ParamsForm.pieces_injective` — a row of tokens has one derivation.
-/

/-- Blanks, none or more. -/
@[ext] structure Blanks where
  chars : List Char
  blank : ∀ c ∈ chars, Text.isBlank c = true

/-- A run of name characters, at least one. -/
@[ext] structure Name where
  chars : List Char
  ne_nil : chars ≠ []
  nameChar : ∀ c ∈ chars, TypeToken.isNameChar c = true

/-- A text between two quotes that does not hold the quote itself. -/
@[ext] structure Literal where
  quote : Char
  chars : List Char
  isQuote : quote = '\'' ∨ quote = '"'
  notMem : quote ∉ chars

mutual

/-- A derivation of a type: a name alone, or a name with parameters in angle brackets. -/
inductive TypeForm where
  | bare (before : Blanks) (name : Name)
  | applied (before : Blanks) (name : Name) (beforeOpening : Blanks) (params : ParamsForm)

/-- A derivation of a parameter: a type or a quoted literal. -/
inductive ParamForm where
  | type (t : TypeForm)
  | literal (before : Blanks) (l : Literal)

/-- A derivation of parameters with commas between them, up to the closing bracket. -/
inductive ParamsForm where
  | last (p : ParamForm) (beforeClosing : Blanks)
  | more (p : ParamForm) (beforeComma : Blanks) (rest : ParamsForm)

end

mutual

/-- The characters that a derivation derives. -/
def TypeForm.chars : TypeForm → List Char
  | .bare before name => before.chars ++ name.chars
  | .applied before name beforeOpening params =>
    before.chars ++ name.chars ++ (beforeOpening.chars ++ '<' :: params.chars)

/-- The characters of a parameter. -/
def ParamForm.chars : ParamForm → List Char
  | .type t => t.chars
  | .literal before l => before.chars ++ l.quote :: (l.chars ++ [l.quote])

/-- The characters of parameters and of the closing bracket. -/
def ParamsForm.chars : ParamsForm → List Char
  | .last p beforeClosing => p.chars ++ (beforeClosing.chars ++ ['>'])
  | .more p beforeComma rest => p.chars ++ (beforeComma.chars ++ ',' :: rest.chars)

end

mutual

/-- The type that a derivation stands for. -/
def TypeForm.tree : TypeForm → TypeExpr
  | .bare _ name => .mk (String.ofList name.chars) []
  | .applied _ name _ params => .mk (String.ofList name.chars) params.trees

/-- The parameter that a derivation stands for; a literal loses its quotes. -/
def ParamForm.tree : ParamForm → TypeParam
  | .type t => .type t.tree
  | .literal _ l => .literal (String.ofList l.chars)

/-- The parameters that a derivation stands for. -/
def ParamsForm.trees : ParamsForm → List TypeParam
  | .last p _ => [p.tree]
  | .more p _ rest => p.tree :: rest.trees

end

/-- A derivation of a whole text: a type with blanks after it. -/
structure Derivation where
  type : TypeForm
  after : Blanks

namespace Derivation

/-- The text that is derived. -/
def text (d : Derivation) : String := String.ofList (d.type.chars ++ d.after.chars)

/-- The type that the text stands for. -/
def tree (d : Derivation) : TypeExpr := d.type.tree

end Derivation

/-! ### Rows of tokens -/

/-- A token that the grammar has, with the blanks before it. -/
inductive Piece where
  | name (before : Blanks) (n : Name)
  | literal (before : Blanks) (l : Literal)
  | opening (before : Blanks)
  | closing (before : Blanks)
  | comma (before : Blanks)

namespace Piece

/-- The blanks before the token. -/
def before : Piece → Blanks
  | name b _ | literal b _ | opening b | closing b | comma b => b

/-- The token without its blanks. -/
def token : Piece → TypeToken
  | name _ n => .name (String.ofList n.chars)
  | literal _ l => .literal l.quote (String.ofList l.chars)
  | opening _ => .opening
  | closing _ => .closing
  | comma _ => .comma

/-- Whether the token is a name. -/
def isName : Piece → Bool
  | name _ _ => true
  | _ => false

/-- The characters of the token. -/
def body : Piece → List Char
  | name _ n => n.chars
  | literal _ l => l.quote :: (l.chars ++ [l.quote])
  | opening _ => ['<']
  | closing _ => ['>']
  | comma _ => [',']

/-- The characters of the token, blanks first. -/
def chars (p : Piece) : List Char := p.before.chars ++ p.body

/-- A piece is its blanks and its token. -/
theorem eq_of_token {p q : Piece} (hbefore : p.before.chars = q.before.chars)
    (htoken : p.token = q.token) : p = q := by
  have hblanks : p.before = q.before := Blanks.ext hbefore
  cases p <;> cases q <;> simp only [token, reduceCtorEq] at htoken
  case name b n b' n' =>
    rw [TypeToken.name.injEq, String.ofList_inj] at htoken
    obtain rfl : b = b' := hblanks
    obtain rfl : n = n' := Name.ext htoken
    rfl
  case literal b l b' l' =>
    rw [TypeToken.literal.injEq, String.ofList_inj] at htoken
    obtain rfl : b = b' := hblanks
    obtain rfl : l = l' := Literal.ext htoken.1 htoken.2
    rfl
  case opening => exact congrArg opening hblanks
  case closing => exact congrArg closing hblanks
  case comma => exact congrArg comma hblanks

end Piece

mutual

/-- The tokens of a derivation. -/
def TypeForm.pieces : TypeForm → List Piece
  | .bare before name => [.name before name]
  | .applied before name beforeOpening params =>
    .name before name :: .opening beforeOpening :: params.pieces

/-- The tokens of a parameter. -/
def ParamForm.pieces : ParamForm → List Piece
  | .type t => t.pieces
  | .literal before l => [.literal before l]

/-- The tokens of parameters, the closing bracket last. -/
def ParamsForm.pieces : ParamsForm → List Piece
  | .last p beforeClosing => p.pieces ++ [.closing beforeClosing]
  | .more p beforeComma rest => p.pieces ++ .comma beforeComma :: rest.pieces

end

/-- A row that does not go on with an opening bracket, which would make parameters of what
    follows. -/
def Ends (rest : List Piece) : Prop := ∀ b more, rest ≠ .opening b :: more

theorem ends_nil : Ends [] := fun _ _ h => List.cons_ne_nil _ _ h.symm

theorem ends_closing (b : Blanks) (rest : List Piece) : Ends (.closing b :: rest) := by
  rintro b' more h; cases h

theorem ends_comma (b : Blanks) (rest : List Piece) : Ends (.comma b :: rest) := by
  rintro b' more h; cases h

mutual

/-- The tokens of a derivation are its characters. -/
theorem TypeForm.chars_pieces (t : TypeForm) : t.pieces.flatMap Piece.chars = t.chars := by
  cases t with
  | bare b n => simp [TypeForm.pieces, TypeForm.chars, Piece.chars, Piece.before, Piece.body]
  | applied b n o ps =>
    simp [TypeForm.pieces, TypeForm.chars, Piece.chars, Piece.before, Piece.body,
      ParamsForm.chars_pieces ps]

theorem ParamForm.chars_pieces (p : ParamForm) : p.pieces.flatMap Piece.chars = p.chars := by
  cases p with
  | type t => exact TypeForm.chars_pieces t
  | literal b l => simp [ParamForm.pieces, ParamForm.chars, Piece.chars, Piece.before, Piece.body]

theorem ParamsForm.chars_pieces (ps : ParamsForm) :
    ps.pieces.flatMap Piece.chars = ps.chars := by
  cases ps with
  | last p b =>
    simp [ParamsForm.pieces, ParamsForm.chars, Piece.chars, Piece.before, Piece.body,
      ParamForm.chars_pieces p]
  | more p b rest =>
    simp [ParamsForm.pieces, ParamsForm.chars, Piece.chars, Piece.before, Piece.body,
      ParamForm.chars_pieces p, ParamsForm.chars_pieces rest]

end

/-! ### One derivation -/

mutual

/-- Two types at the front of one row, neither of which goes on, are one. -/
theorem TypeForm.pieces_injective (t u : TypeForm) {rest more : List Piece} (hr : Ends rest)
    (hm : Ends more) (h : t.pieces ++ rest = u.pieces ++ more) : t = u ∧ rest = more := by
  cases t with
  | bare b n =>
    cases u with
    | bare b' n' =>
      simp only [TypeForm.pieces, List.cons_append, List.nil_append, List.cons.injEq,
        Piece.name.injEq] at h
      obtain ⟨⟨rfl, rfl⟩, rfl⟩ := h
      exact ⟨rfl, rfl⟩
    | applied b' n' o' ps' =>
      simp only [TypeForm.pieces, List.cons_append, List.nil_append, List.cons.injEq] at h
      exact absurd h.2 (hr _ _)
  | applied b n o ps =>
    cases u with
    | bare b' n' =>
      simp only [TypeForm.pieces, List.cons_append, List.nil_append, List.cons.injEq] at h
      exact absurd h.2.symm (hm _ _)
    | applied b' n' o' ps' =>
      simp only [TypeForm.pieces, List.cons_append, List.cons.injEq, Piece.name.injEq,
        Piece.opening.injEq] at h
      obtain ⟨⟨rfl, rfl⟩, rfl, hps⟩ := h
      obtain ⟨rfl, rfl⟩ := ParamsForm.pieces_injective ps ps' hps
      exact ⟨rfl, rfl⟩

/-- Two parameters at the front of one row, neither of which goes on, are one. -/
theorem ParamForm.pieces_injective (p q : ParamForm) {rest more : List Piece} (hr : Ends rest)
    (hm : Ends more) (h : p.pieces ++ rest = q.pieces ++ more) : p = q ∧ rest = more := by
  cases p with
  | type t =>
    cases q with
    | type u =>
      obtain ⟨rfl, rfl⟩ := TypeForm.pieces_injective t u hr hm h
      exact ⟨rfl, rfl⟩
    | literal b' l' => cases t <;> simp [ParamForm.pieces, TypeForm.pieces] at h
  | literal b l =>
    cases q with
    | type u => cases u <;> simp [ParamForm.pieces, TypeForm.pieces] at h
    | literal b' l' =>
      simp only [ParamForm.pieces, List.cons_append, List.nil_append, List.cons.injEq,
        Piece.literal.injEq] at h
      obtain ⟨⟨rfl, rfl⟩, rfl⟩ := h
      exact ⟨rfl, rfl⟩

/-- Two lists of parameters at the front of one row are one: the closing bracket ends both. -/
theorem ParamsForm.pieces_injective (ps qs : ParamsForm) {rest more : List Piece}
    (h : ps.pieces ++ rest = qs.pieces ++ more) : ps = qs ∧ rest = more := by
  cases ps with
  | last p b =>
    cases qs with
    | last q b' =>
      simp only [ParamsForm.pieces, List.append_assoc, List.cons_append, List.nil_append] at h
      obtain ⟨rfl, hclosing⟩ :=
        ParamForm.pieces_injective p q (ends_closing _ _) (ends_closing _ _) h
      cases hclosing
      exact ⟨rfl, rfl⟩
    | more q b' qs =>
      simp only [ParamsForm.pieces, List.append_assoc, List.cons_append, List.nil_append] at h
      cases (ParamForm.pieces_injective p q (ends_closing _ _) (ends_comma _ _) h).2
  | more p b ps =>
    cases qs with
    | last q b' =>
      simp only [ParamsForm.pieces, List.append_assoc, List.cons_append, List.nil_append] at h
      cases (ParamForm.pieces_injective p q (ends_comma _ _) (ends_closing _ _) h).2
    | more q b' qs =>
      simp only [ParamsForm.pieces, List.append_assoc, List.cons_append] at h
      obtain ⟨rfl, hcomma⟩ :=
        ParamForm.pieces_injective p q (ends_comma _ _) (ends_comma _ _) h
      simp only [List.cons.injEq, Piece.comma.injEq] at hcomma
      obtain ⟨rfl, hrest⟩ := hcomma
      obtain ⟨rfl, rfl⟩ := ParamsForm.pieces_injective ps qs hrest
      exact ⟨rfl, rfl⟩

end

end ApiDoc.TypeExpr
