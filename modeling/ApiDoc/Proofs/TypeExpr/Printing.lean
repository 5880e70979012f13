import ApiDoc.Proofs.TypeExpr.Reading

namespace ApiDoc.TypeExpr

/-!
# Reading what is written

A type is written with every literal in single quotes, whichever quotes it was read from. That is
read back just if no literal holds a single quote:

* `literals`, `TypeForm.literals` — the literals of a type and of a derivation;
* `toList_text_cons` — the characters of a type with parameters;
* `TypeForm.exists_printed` — what is written is derived, if no literal holds a single quote;
* `TypeForm.count_chars` — double quotes are lost in writing, two for each literal in them;
* `parse_text_iff` — the two together.
-/

/-! ### Literals -/

mutual

/-- The literals of a type, at any depth, in order. -/
def literals : TypeExpr → List String
  | .mk _ params => paramLiterals params

/-- The literals of parameters. -/
def paramLiterals : List TypeParam → List String
  | [] => []
  | .type t :: ps => literals t ++ paramLiterals ps
  | .literal s :: ps => s :: paramLiterals ps

end

mutual

/-- The literals of a derivation, with their quotes. -/
def TypeForm.literals : TypeForm → List Literal
  | .bare _ _ => []
  | .applied _ _ _ params => params.literals

/-- The literals of a parameter. -/
def ParamForm.literals : ParamForm → List Literal
  | .type t => t.literals
  | .literal _ l => [l]

/-- The literals of several parameters. -/
def ParamsForm.literals : ParamsForm → List Literal
  | .last p _ => p.literals
  | .more p _ rest => p.literals ++ rest.literals

end

/-- The text of a literal without its quotes. -/
def Literal.text (l : Literal) : String := String.ofList l.chars

/-- The literals of parameters, one after the other. -/
theorem paramLiterals_cons (p : TypeParam) (ps : List TypeParam) :
    paramLiterals (p :: ps) = paramLiterals [p] ++ paramLiterals ps := by
  cases p <;> simp [paramLiterals]

mutual

/-- A derivation has the literals of the type that it stands for. -/
theorem TypeForm.literals_tree (f : TypeForm) : f.tree.literals = f.literals.map Literal.text := by
  cases f with
  | bare b n => rfl
  | applied b n o ps => exact ParamsForm.literals_trees ps

/-- The literals of a parameter are those of its form. -/
theorem ParamForm.literals_tree (p : ParamForm) :
    paramLiterals [p.tree] = p.literals.map Literal.text := by
  cases p with
  | type t =>
    rw [ParamForm.tree, paramLiterals, paramLiterals, List.append_nil]
    exact TypeForm.literals_tree t
  | literal b l => rfl

/-- The same for a row of parameters. -/
theorem ParamsForm.literals_trees (ps : ParamsForm) :
    paramLiterals ps.trees = ps.literals.map Literal.text := by
  cases ps with
  | last p b => exact ParamForm.literals_tree p
  | more p b rest =>
    rw [ParamsForm.trees, paramLiterals_cons, ParamForm.literals_tree p,
      ParamsForm.literals_trees rest, ← List.map_append, ParamsForm.literals]

end

/-! ### Written types -/

/-- A parameter as it is written. -/
def paramChars : TypeParam → List Char
  | .type t => t.text.toList
  | .literal s => '\'' :: (s.toList ++ ['\''])

/-- Parameters as they are written, and the closing bracket. -/
def paramsChars : List TypeParam → List Char
  | [] => ['>']
  | [p] => paramChars p ++ ['>']
  | p :: q :: ps => paramChars p ++ ',' :: ' ' :: paramsChars (q :: ps)

/-- The texts of parameters, one after the other. -/
theorem paramTexts_cons (p : TypeParam) (ps : List TypeParam) :
    paramTexts (p :: ps) = String.ofList (paramChars p) :: paramTexts ps := by
  cases p with
  | type t => rw [paramTexts, paramChars, String.ofList_toList]
  | literal s =>
    have hquoted : "'" ++ s ++ "'" = String.ofList (paramChars (.literal s)) := by
      rw [← String.toList_inj]
      simp [paramChars]
    rw [paramTexts, hquoted]

/-- Parameters are written with commas between them and a closing sign. -/
theorem toList_paramTexts (p : TypeParam) (ps : List TypeParam) :
    (", ".intercalate (paramTexts (p :: ps)) ++ ">").toList = paramsChars (p :: ps) := by
  induction ps generalizing p with
  | nil => simp [paramTexts_cons, paramTexts, paramsChars]
  | cons q ps ih =>
    have hrest := ih q
    rw [paramTexts_cons] at hrest ⊢
    rw [paramTexts_cons, String.intercalate_cons_cons, paramsChars, ← hrest]
    simp

/-- The characters of a type with parameters. -/
theorem toList_text_cons (n : String) (p : TypeParam) (ps : List TypeParam) :
    (text (.mk n (p :: ps))).toList = n.toList ++ '<' :: paramsChars (p :: ps) := by
  rw [text, ← toList_paramTexts]
  · simp
  · exact List.cons_ne_nil p ps

/-! ### What is written is derived -/

/-- A number of spaces: none before most tokens, one behind a comma. -/
def Blanks.spaces (n : Nat) : Blanks where
  chars := List.replicate n ' '
  blank := by
    intro c hc
    obtain rfl : c = ' ' := List.eq_of_mem_replicate hc
    decide

/-- A row of parameters has a first one. -/
theorem ParamsForm.exists_trees (ps : ParamsForm) : ∃ p rest, ps.trees = p :: rest := by
  cases ps <;> exact ⟨_, _, rfl⟩

mutual

/-- A type without single quotes in its literals has a derivation as it is written. -/
theorem TypeForm.exists_printed (f : TypeForm) (h : ∀ l ∈ f.literals, '\'' ∉ l.chars)
    (before : Blanks) :
    ∃ g : TypeForm, g.tree = f.tree ∧ g.chars = before.chars ++ f.tree.text.toList := by
  cases f with
  | bare b n =>
    refine ⟨.bare before n, rfl, ?_⟩
    rw [TypeForm.chars, TypeForm.tree, text, String.toList_ofList]
  | applied b n o ps =>
    obtain ⟨qs, htrees, hchars⟩ := ParamsForm.exists_printed ps h (.spaces 0)
    refine ⟨.applied before n (.spaces 0) qs, by rw [TypeForm.tree, htrees, TypeForm.tree], ?_⟩
    obtain ⟨p, rest, hps⟩ := ps.exists_trees
    rw [TypeForm.chars, hchars, TypeForm.tree, hps, toList_text_cons, String.toList_ofList]
    simp [Blanks.spaces]

/-- What is written for a parameter without single quotes inside is a form of it. -/
theorem ParamForm.exists_printed (p : ParamForm) (h : ∀ l ∈ p.literals, '\'' ∉ l.chars)
    (before : Blanks) :
    ∃ q : ParamForm, q.tree = p.tree ∧ q.chars = before.chars ++ paramChars p.tree := by
  cases p with
  | type t =>
    obtain ⟨g, htree, hchars⟩ := TypeForm.exists_printed t h before
    exact ⟨.type g, by rw [ParamForm.tree, htree, ParamForm.tree], hchars⟩
  | literal b l =>
    refine ⟨.literal before ⟨'\'', l.chars, .inl rfl, h l (List.mem_singleton_self l)⟩, rfl, ?_⟩
    rw [ParamForm.chars, ParamForm.tree, paramChars, String.toList_ofList]

/-- The same for a row of parameters. -/
theorem ParamsForm.exists_printed (ps : ParamsForm) (h : ∀ l ∈ ps.literals, '\'' ∉ l.chars)
    (before : Blanks) :
    ∃ qs : ParamsForm, qs.trees = ps.trees ∧ qs.chars = before.chars ++ paramsChars ps.trees := by
  cases ps with
  | last p b =>
    obtain ⟨q, htree, hchars⟩ := ParamForm.exists_printed p h before
    refine ⟨.last q (.spaces 0), by rw [ParamsForm.trees, htree, ParamsForm.trees], ?_⟩
    rw [ParamsForm.chars, hchars, ParamsForm.trees, paramsChars]
    simp [Blanks.spaces]
  | more p b rest =>
    obtain ⟨hp, hrest⟩ := List.forall_mem_append.1 h
    obtain ⟨q, htree, hchars⟩ := ParamForm.exists_printed p hp before
    -- The comma stands at once behind the parameter, and a blank behind the comma.
    obtain ⟨qs, htrees, hchars'⟩ := ParamsForm.exists_printed rest hrest (.spaces 1)
    refine ⟨.more q (.spaces 0) qs, by rw [ParamsForm.trees, htree, htrees, ParamsForm.trees],
      ?_⟩
    obtain ⟨r, more, hr⟩ := rest.exists_trees
    rw [ParamsForm.chars, hchars, hchars', ParamsForm.trees, hr, paramsChars]
    simp [Blanks.spaces]

end

/-! ### Quotes that are lost -/

/-- Blanks hold no quotes. -/
theorem Blanks.count_quote (b : Blanks) : b.chars.count '"' = 0 :=
  List.count_eq_zero.2 fun h => absurd (b.blank _ h) (by decide)

/-- How many literals stand in double quotes. -/
def doubled (ls : List Literal) : Nat := ls.countP (·.quote == '"')

mutual

/-- A derivation has the double quotes of the written type, and two more for each literal that
    stands in double quotes. -/
theorem TypeForm.count_chars (f : TypeForm) :
    f.chars.count '"' = f.tree.text.toList.count '"' + 2 * doubled f.literals := by
  cases f with
  | bare b n =>
    rw [TypeForm.chars, TypeForm.tree, text, String.toList_ofList, List.count_append,
      b.count_quote, Nat.zero_add]
    rfl
  | applied b n o ps =>
    obtain ⟨p, rest, hps⟩ := ps.exists_trees
    have ih := ParamsForm.count_chars ps
    rw [TypeForm.tree, hps, toList_text_cons, ← hps]
    simp [TypeForm.chars, TypeForm.literals, b.count_quote, o.count_quote, ih, Nat.add_assoc]

/-- The double quotes of a form are those that are written, and two for each literal in them. -/
theorem ParamForm.count_chars (p : ParamForm) :
    p.chars.count '"' = (paramChars p.tree).count '"' + 2 * doubled p.literals := by
  cases p with
  | type t => exact TypeForm.count_chars t
  | literal b l =>
    have hlost : doubled [l] = if l.quote == '"' then 1 else 0 := List.countP_singleton
    rw [ParamForm.chars, ParamForm.tree, ParamForm.literals, hlost]
    rcases l.isQuote with hq | hq <;> simp [hq, paramChars, b.count_quote]

/-- The same for a row of parameters. -/
theorem ParamsForm.count_chars (ps : ParamsForm) :
    ps.chars.count '"' = (paramsChars ps.trees).count '"' + 2 * doubled ps.literals := by
  cases ps with
  | last p b =>
    simp [ParamsForm.chars, ParamsForm.trees, ParamsForm.literals, paramsChars, b.count_quote,
      ParamForm.count_chars p]
  | more p b rest =>
    obtain ⟨r, more, hr⟩ := rest.exists_trees
    have ih := ParamsForm.count_chars rest
    have hboth : doubled (p.literals ++ rest.literals)
        = doubled p.literals + doubled rest.literals :=
      List.countP_append
    rw [ParamsForm.trees, hr, paramsChars, ← hr]
    simp [ParamsForm.chars, ParamsForm.literals, b.count_quote, ParamForm.count_chars p, ih, hboth]
    omega

end

/-- Where the text that is written derives the type, every literal in the derivation stands in
    single quotes, and so holds none. -/
theorem Derivation.quote_notMem {d : Derivation} (h : d.text = d.tree.text) :
    ∀ l ∈ d.type.literals, '\'' ∉ l.chars := by
  have hcount : doubled d.type.literals = 0 := by
    have hchars := congrArg (fun s => s.toList.count '"') h
    simp only [toList_text, List.count_append, d.after.count_quote, Derivation.tree,
      d.type.count_chars] at hchars
    omega
  intro l hl
  have hsingle : l.quote = '\'' :=
    l.isQuote.resolve_right fun hq => List.countP_eq_zero.1 hcount l hl (beq_iff_eq.2 hq)
  exact hsingle ▸ l.notMem

/-- A type that was read is read back from the text that is written for it, if and only if no
    literal in it holds a single quote. -/
theorem parse_text_iff {source : String} {t : TypeExpr} (h : parse source = .ok t) :
    parse t.text = .ok t ↔ ∀ s ∈ t.literals, '\'' ∉ s.toList := by
  have hliterals : ∀ d : Derivation, d.tree = t →
      ((∀ s ∈ t.literals, '\'' ∉ s.toList) ↔ ∀ l ∈ d.type.literals, '\'' ∉ l.chars) := by
    rintro d rfl
    rw [Derivation.tree, d.type.literals_tree, List.forall_mem_map]
    simp only [Literal.text, String.toList_ofList]
  constructor
  · intro hback
    obtain ⟨d, htext, htree⟩ := exists_derivation hback
    exact (hliterals d htree).2 (Derivation.quote_notMem (by rw [htext, htree]))
  · intro hquotes
    obtain ⟨d, -, htree⟩ := exists_derivation h
    obtain ⟨g, hg, hchars⟩ := d.type.exists_printed ((hliterals d htree).1 hquotes) (.spaces 0)
    have htext : Derivation.text ⟨g, .spaces 0⟩ = t.text := by
      rw [Derivation.text, hchars, ← htree]
      simp [Blanks.spaces, Derivation.tree]
    have hread := Derivation.parse_text ⟨g, .spaces 0⟩
    rw [htext] at hread
    rw [hread, Derivation.tree, hg, ← htree]
    rfl

/-- A literal in double quotes is written in single ones. -/
theorem parse_text_iff_date :
    parse "array<string, DateTime<\"Y-m-d\" , 'say \"at\"'>>" = .ok (.mk "array"
      [.type (.mk "string" []), .type (.mk "DateTime" [.literal "Y-m-d", .literal "say \"at\""])]) ∧
    parse "array<string, DateTime<'Y-m-d', 'say \"at\"'>>" = .ok (.mk "array"
      [.type (.mk "string" []), .type (.mk "DateTime" [.literal "Y-m-d", .literal "say \"at\""])]) := by
  have hread : parse "array<string, DateTime<\"Y-m-d\" , 'say \"at\"'>>" = .ok (.mk "array"
      [.type (.mk "string" []), .type (.mk "DateTime" [.literal "Y-m-d", .literal "say \"at\""])]) := by
    decide +kernel
  exact ⟨hread, (parse_text_iff hread).2 (by decide +kernel)⟩

/-- What is written of a literal with a single quote is not read at all, or as another type. -/
theorem parse_text_apostrophe :
    let t := TypeExpr.mk "A" [.literal "it's"]
    let u := TypeExpr.mk "A" [.literal "','"]
    (parse "A<\"it's\">" = .ok t ∧ parse t.text = .error (.unreadable 7)) ∧
      parse "A<\"','\">" = .ok u ∧ parse u.text = .ok (.mk "A" [.literal "", .literal ""]) := by
  decide +kernel

end ApiDoc.TypeExpr
