import ApiDoc.Proofs.TypeExpr.Derivation
import Mathlib.Data.List.Chain
import Mathlib.Data.List.DropRight

namespace ApiDoc

/-!
# Reading is deriving

A text is read just if the grammar derives it, and what is read is the type of its derivation.

* `TypeToken.next?_piece`, `TypeToken.ofChars_pieces` — the tokens of a row are read off its
  characters;
* `TypeToken.exists_pieces` — tokens that are read off characters are a row of these characters;
* `pieces_eq_of_chars` — characters are those of one row only;
* `Reads`, `TypeForm.reads`, `exists_typeForm` — tokens are read as a type just if a derivation has
  them;
* `parse_derives` — the two steps together, for whole texts.
-/

namespace TypeToken

open TypeExpr

/-! ### Classes of characters -/

/-- No code point is both in a range of blanks and in a range of word characters. -/
theorem blankRanges_apart :
    ∀ r ∈ Text.blankRanges, ∀ s ∈ Text.wordRanges, r.2 < s.1 ∨ s.2 < r.1 := by
  decide +kernel

/-- No blank is part of a word. -/
theorem isWord_of_isBlank {c : Char} (h : Text.isBlank c = true) : Text.isWord c = false := by
  simp only [Text.isBlank, Text.inRanges, List.any_eq_true, Bool.and_eq_true,
    decide_eq_true_eq] at h
  obtain ⟨r, hr, hlo, hhi⟩ := h
  simp only [Text.isWord, Text.inRanges, List.any_eq_false, Bool.and_eq_true, decide_eq_true_eq]
  intro s hs
  have := blankRanges_apart r hr s hs
  omega

/-- A blank is no name character. -/
theorem isNameChar_of_isBlank {c : Char} (h : Text.isBlank c = true) :
    isNameChar c = false := by
  have hmarks : ['\\', '.', ':'].all (fun d => !Text.isBlank d) = true := by decide
  have hmark : ∀ d ∈ ['\\', '.', ':'], c ≠ d := by
    rintro d hd rfl
    simpa [h] using List.all_eq_true.1 hmarks c hd
  simp only [TypeToken.isNameChar, isWord_of_isBlank h, Bool.false_or, Bool.or_eq_false_iff,
    beq_eq_false_iff_ne]
  exact ⟨⟨hmark _ (by simp), hmark _ (by simp)⟩, hmark _ (by simp)⟩

/-- No character of a name is a blank. -/
theorem isBlank_of_isNameChar {c : Char} (h : isNameChar c = true) :
    Text.isBlank c = false :=
  Bool.eq_false_iff.2 fun hb => by simp [isNameChar_of_isBlank hb] at h

/-- Quotes and marks are neither blanks nor name characters. -/
theorem isPlain_of_mem_marks {c : Char} (h : c ∈ ['\'', '"', '<', '>', ',']) :
    Text.isBlank c = false ∧ isNameChar c = false := by
  have hmarks : ['\'', '"', '<', '>', ','].all (fun d => !Text.isBlank d && !isNameChar d)
      = true := by decide +kernel
  simpa using List.all_eq_true.1 hmarks c h

/-! ### One token -/


/-- A text that does not go on with a name character, as what follows a name. -/
def Breaks (rest : List Char) : Prop := ∀ c ∈ rest.head?, isNameChar c = false

/-- The characters of a name are read as one token, up to where the name breaks off. -/
theorem next?_name (n : Name) {rest : List Char} (h : Breaks rest) :
    next? (n.chars ++ rest) = some (.name (String.ofList n.chars), rest) := by
  obtain ⟨chars, hne, hname⟩ := n
  obtain ⟨c, cs, rfl⟩ := List.exists_cons_of_ne_nil hne
  have hc : isNameChar c = true := hname c (by simp)
  have hcs : ∀ d ∈ cs, isNameChar d = true := fun d hd => hname d (by simp [hd])
  have hquote : (c == '\'' || c == '"') = false := by
    refine Bool.eq_false_iff.2 fun hq => ?_
    have : c ∈ ['\'', '"', '<', '>', ','] := by simp at hq ⊢; tauto
    simp [(isPlain_of_mem_marks this).2] at hc
  have htake : (cs ++ rest).takeWhile isNameChar = cs := by
    rw [List.takeWhile_append_of_pos hcs]
    cases rest with
    | nil => simp
    | cons d rest => simp [h d (by simp)]
  have hdrop : (cs ++ rest).dropWhile isNameChar = rest := by
    rw [List.dropWhile_append_of_pos hcs]
    cases rest with
    | nil => simp
    | cons d rest => simp [h d (by simp)]
  simp only [List.cons_append, next?, hquote, Bool.false_eq_true, if_false, hc, if_true, htake,
    hdrop]

/-- A literal is read up to its quote. -/
theorem untilQuote?_append {q : Char} {cs : List Char} (h : q ∉ cs) (rest : List Char) :
    untilQuote? q (cs ++ q :: rest) = some (cs, rest) := by
  induction cs with
  | nil => simp [untilQuote?]
  | cons c cs ih =>
    simp only [List.mem_cons, not_or] at h
    simp [untilQuote?, Ne.symm h.1, ih h.2]

/-- What is read up to a quote does not hold it, and is followed by it. -/
theorem untilQuote?_eq_some {q : Char} {cs : List Char} {r : List Char × List Char}
    (h : untilQuote? q cs = some r) : q ∉ r.1 ∧ cs = r.1 ++ q :: r.2 := by
  induction cs generalizing r with
  | nil => simp [untilQuote?] at h
  | cons c cs ih =>
    simp only [untilQuote?] at h
    split at h
    case isTrue hc =>
      cases h
      simpa using hc
    case isFalse hc =>
      obtain ⟨s, hs, rfl⟩ := Option.map_eq_some_iff.1 h
      obtain ⟨hnot, rfl⟩ := ih hs
      refine ⟨?_, rfl⟩
      simp only [List.mem_cons, not_or]
      exact ⟨fun he => hc (by simp [he]), hnot⟩

/-- A literal in quotes is read as one token. -/
theorem next?_literal (l : Literal) (rest : List Char) :
    next? (l.quote :: (l.chars ++ [l.quote]) ++ rest)
      = some (.literal l.quote (String.ofList l.chars), rest) := by
  have hquote : (l.quote == '\'' || l.quote == '"') = true := by
    rcases l.isQuote with h | h <;> simp [h]
  simp only [List.cons_append, List.append_assoc, List.nil_append, next?, hquote, if_true,
    untilQuote?_append l.notMem, Option.map_some]

/-- The token of a piece is read off its characters, if what follows a name breaks it off. -/
theorem next?_body (p : Piece) {rest : List Char} (h : p.isName = true → Breaks rest) :
    next? (p.body ++ rest) = some (p.token, rest) := by
  cases p with
  | name _ n => exact next?_name n (h rfl)
  | literal _ l => exact next?_literal l rest
  | opening _ | closing _ | comma _ =>
    rw [Piece.body, List.cons_append, next?, (isPlain_of_mem_marks (by simp)).2]
    rfl

/-- The first character of a token is no blank, and a name character only in a name. -/
theorem exists_body (p : Piece) :
    ∃ c cs, p.body = c :: cs ∧ Text.isBlank c = false ∧
      (p.isName = false → isNameChar c = false) := by
  cases p with
  | name _ n =>
    obtain ⟨c, cs, hc⟩ := List.exists_cons_of_ne_nil n.ne_nil
    have hname := n.nameChar c (by simp [hc])
    exact ⟨c, cs, hc, isBlank_of_isNameChar hname, fun h => by cases h⟩
  | literal _ l =>
    have hmark : l.quote ∈ ['\'', '"', '<', '>', ','] := by
      rcases l.isQuote with h | h <;> simp [h]
    obtain ⟨hblank, hname⟩ := isPlain_of_mem_marks hmark
    exact ⟨_, _, rfl, hblank, fun _ => hname⟩
  | opening _ | closing _ | comma _ =>
    refine ⟨_, _, rfl, (isPlain_of_mem_marks ?_).1, fun _ => (isPlain_of_mem_marks ?_).2⟩ <;> simp

/-- Blanks before a token are skipped. -/
theorem dropWhile_chars (p : Piece) (rest : List Char) :
    (p.chars ++ rest).dropWhile Text.isBlank = p.body ++ rest := by
  obtain ⟨c, cs, hbody, hblank, -⟩ := exists_body p
  rw [Piece.chars, List.append_assoc, List.dropWhile_append_of_pos p.before.blank, hbody]
  simp [hblank]

/-- Blanks before a token are all that is skipped. -/
theorem takeWhile_chars (p : Piece) (rest : List Char) :
    (p.chars ++ rest).takeWhile Text.isBlank = p.before.chars := by
  obtain ⟨c, cs, hbody, hblank, -⟩ := exists_body p
  rw [Piece.chars, List.append_assoc, List.takeWhile_append_of_pos p.before.blank, hbody]
  simp [hblank]

/-! ### Rows of tokens -/

/-- A row in which no name directly follows a name. -/
def NamesApart (ps : List Piece) : Prop :=
  ps.IsChain fun p q => p.isName = true → q.isName = false

/-- What follows a token that is no name breaks off a name before it. -/
theorem breaks_chars {p : Piece} (h : p.isName = false) (rest : List Char) :
    Breaks (p.chars ++ rest) := by
  obtain ⟨c, cs, hbody, -, hname⟩ := exists_body p
  rw [Piece.chars, hbody]
  intro d hd
  cases hb : p.before.chars with
  | nil =>
    rw [hb] at hd
    cases hd
    exact hname h
  | cons b bs =>
    have hblank := p.before.blank b (by simp [hb])
    rw [hb] at hd
    cases hd
    exact isNameChar_of_isBlank hblank

/-- Tokens are read one by one, with the blanks before them. -/
theorem ofChars_of_next? {cs rest : List Char} {t : TypeToken}
    (h : next? (cs.dropWhile Text.isBlank) = some (t, rest)) (offset : Nat) :
    ofChars offset cs
      = (do return t :: (← ofChars (offset + (cs.length - rest.length)) rest)) := by
  have hne : cs.isEmpty = false := by
    cases cs with
    | nil => cases h
    | cons c cs => rfl
  rw [ofChars, hne]
  simp only [Bool.false_eq_true, if_false]
  split
  case h_1 hnone => rw [h] at hnone; cases hnone
  case h_2 t' rest' hsome =>
    rw [h] at hsome
    cases hsome
    rfl

/-- The tokens of a row are read off its characters. -/
theorem ofChars_pieces {ps : List Piece} (h : NamesApart ps) (offset : Nat) :
    ofChars offset (ps.flatMap Piece.chars) = .ok (ps.map Piece.token) := by
  induction ps generalizing offset with
  | nil => rw [List.flatMap_nil, ofChars]; rfl
  | cons p ps ih =>
    have hbreaks : p.isName = true → Breaks (ps.flatMap Piece.chars) := by
      intro hp
      cases ps with
      | nil => intro c hc; cases hc
      | cons q ps => exact breaks_chars ((List.isChain_cons_cons.1 h).1 hp) _
    have hnext : next? ((p.chars ++ ps.flatMap Piece.chars).dropWhile Text.isBlank)
        = some (p.token, ps.flatMap Piece.chars) := by
      rw [dropWhile_chars, next?_body p hbreaks]
    rw [List.flatMap_cons, ofChars_of_next? hnext, ih (List.isChain_cons.1 h).2]
    rfl

/-- What is read as a token is a piece with the blanks before it. -/
theorem exists_piece (b : Blanks) {cs rest : List Char} {t : TypeToken}
    (h : next? cs = some (t, rest)) :
    ∃ p : Piece, p.before = b ∧ p.token = t ∧ p.body ++ rest = cs := by
  cases cs with
  | nil => cases h
  | cons c cs =>
    simp only [next?] at h
    split at h
    case isTrue hquote =>
      obtain ⟨⟨chars, rest'⟩, huntil, heq⟩ := Option.map_eq_some_iff.1 h
      cases heq
      obtain ⟨hnot, rfl⟩ := untilQuote?_eq_some huntil
      refine ⟨.literal b ⟨c, chars, by simpa using hquote, hnot⟩, rfl, rfl, ?_⟩
      simp [Piece.body]
    split at h
    case isTrue hname =>
      cases h
      refine ⟨.name b ⟨c :: cs.takeWhile isNameChar, by simp, ?_⟩, rfl, rfl, ?_⟩
      · intro d hd
        rcases List.mem_cons.1 hd with rfl | hd
        · exact hname
        · exact List.mem_takeWhile_imp hd
      · simp [Piece.body, List.takeWhile_append_dropWhile]
    split at h
    case isTrue hc =>
      cases h
      exact ⟨.opening b, rfl, rfl, by simp [Piece.body, eq_of_beq hc]⟩
    split at h
    case isTrue hc =>
      cases h
      exact ⟨.closing b, rfl, rfl, by simp [Piece.body, eq_of_beq hc]⟩
    split at h
    case isTrue hc =>
      cases h
      exact ⟨.comma b, rfl, rfl, by simp [Piece.body, eq_of_beq hc]⟩
    case isFalse => cases h

/-- Tokens that are read off characters are a row of these characters. -/
theorem exists_pieces {offset : Nat} {cs : List Char} {ts : List TypeToken}
    (h : ofChars offset cs = .ok ts) :
    ∃ ps : List Piece, ps.flatMap Piece.chars = cs ∧ ps.map Piece.token = ts := by
  fun_induction ofChars offset cs generalizing ts with
  | case1 offset cs hempty =>
    cases h
    exact ⟨[], by simpa using hempty.symm, rfl⟩
  | case2 => cases h
  | case3 offset cs hempty t rest hnext ih =>
    cases hrest : ofChars (offset + (cs.length - rest.length)) rest with
    | error e => rw [hrest] at h; cases h
    | ok more =>
      rw [hrest] at h
      cases h
      obtain ⟨ps, rfl, rfl⟩ := ih hrest
      have hblank : ∀ c ∈ cs.takeWhile Text.isBlank, Text.isBlank c = true :=
        fun c hc => List.mem_takeWhile_imp hc
      obtain ⟨p, hbefore, rfl, hbody⟩ := exists_piece ⟨_, hblank⟩ hnext
      refine ⟨p :: ps, ?_, rfl⟩
      rw [List.flatMap_cons, Piece.chars, hbefore, List.append_assoc, hbody,
        List.takeWhile_append_dropWhile]

/-- Characters are those of one row only. -/
theorem pieces_eq_of_chars {ps qs : List Piece} (hps : NamesApart ps) (hqs : NamesApart qs)
    (h : ps.flatMap Piece.chars = qs.flatMap Piece.chars) : ps = qs := by
  induction ps generalizing qs with
  | nil =>
    cases qs with
    | nil => rfl
    | cons q qs =>
      obtain ⟨c, cs, hbody, -, -⟩ := exists_body q
      simp [Piece.chars, hbody] at h
  | cons p ps ih =>
    cases qs with
    | nil =>
      obtain ⟨c, cs, hbody, -, -⟩ := exists_body p
      simp [Piece.chars, hbody] at h
    | cons q qs =>
      -- Both rows are read off the same characters, so they have the same tokens.
      have htokens : (p :: ps).map Piece.token = (q :: qs).map Piece.token := by
        have := ofChars_pieces hps 0
        rw [h, ofChars_pieces hqs 0] at this
        exact (Except.ok.inj this).symm
      rw [List.map_cons, List.map_cons, List.cons.injEq] at htokens
      rw [List.flatMap_cons, List.flatMap_cons] at h
      have hbefore : p.before.chars = q.before.chars := by
        rw [← takeWhile_chars p, h, takeWhile_chars]
      obtain rfl := Piece.eq_of_token hbefore htokens.1
      rw [ih (List.isChain_cons.1 hps).2 (List.isChain_cons.1 hqs).2 (List.append_cancel_left h)]

end TypeToken

namespace TypeExpr

open TypeToken (NamesApart)

/-! ### The tokens of a derivation -/

mutual

/-- The tokens of a type have no name behind a name, and neither does what follows it, unless
    that starts with a name. -/
theorem TypeForm.namesApart (t : TypeForm) {rest : List Piece} (hrest : NamesApart rest)
    (hhead : ∀ p ∈ rest.head?, p.isName = false) : NamesApart (t.pieces ++ rest) := by
  cases t with
  | bare b n =>
    rw [TypeForm.pieces, List.cons_append, List.nil_append]
    exact List.isChain_cons.2 ⟨fun p hp _ => hhead p hp, hrest⟩
  | applied b n o ps =>
    rw [TypeForm.pieces, List.cons_append, List.cons_append]
    have hps : NamesApart (.opening o :: (ps.pieces ++ rest)) :=
      List.isChain_cons.2 ⟨fun p hp h => Bool.noConfusion h,
        ParamsForm.namesApart ps hrest⟩
    exact List.isChain_cons.2 ⟨fun p hp _ => by cases hp; rfl, hps⟩

/-- No two names meet in the row of pieces of a parameter. -/
theorem ParamForm.namesApart (p : ParamForm) {rest : List Piece} (hrest : NamesApart rest)
    (hhead : ∀ p ∈ rest.head?, p.isName = false) : NamesApart (p.pieces ++ rest) := by
  cases p with
  | type t => exact TypeForm.namesApart t hrest hhead
  | literal b l => exact List.isChain_cons.2 ⟨fun p hp h => Bool.noConfusion h, hrest⟩

/-- After a closing bracket anything may follow. -/
theorem ParamsForm.namesApart (ps : ParamsForm) {rest : List Piece} (hrest : NamesApart rest) :
    NamesApart (ps.pieces ++ rest) := by
  cases ps with
  | last p b =>
    rw [ParamsForm.pieces, List.append_assoc]
    refine ParamForm.namesApart p ?_ fun p hp => by cases hp; rfl
    exact List.isChain_cons.2 ⟨fun p hp h => Bool.noConfusion h, hrest⟩
  | more p b ps =>
    rw [ParamsForm.pieces, List.append_assoc]
    refine ParamForm.namesApart p ?_ fun p hp => by cases hp; rfl
    exact List.isChain_cons.2 ⟨fun p hp h => Bool.noConfusion h, ParamsForm.namesApart ps hrest⟩

end

/-! ### Reading tokens -/

/-- A reading with a result, and the tokens that follow. -/
def Reads {α : Type} {ts : List TypeToken} (x : Reading α ts) (a : α) (rest : List TypeToken) :
    Prop := ∃ h, x = .ok (a, ⟨rest, h⟩)

variable {ts rest : List TypeToken}

/-- A type is read from a name, and from parameters if an opening bracket follows it. -/
theorem reads_ofTokens_iff {t : TypeExpr} :
    Reads (ofTokens ts) t rest ↔ ∃ n,
      (∃ more ps, ts = .name n :: .opening :: more ∧ Reads (paramsOfTokens more) ps rest ∧
        t = .mk n ps) ∨
      (ts = .name n :: rest ∧ (∀ more, rest ≠ .opening :: more) ∧ t = .mk n []) := by
  constructor
  · rintro ⟨h, hok⟩
    rw [ofTokens.eq_def] at hok
    split at hok
    case h_1 n more =>
      cases hps : paramsOfTokens more with
      | error e => rw [hps] at hok; cases hok
      | ok r =>
        obtain ⟨ps, rest', h'⟩ := r
        rw [hps] at hok
        cases hok
        exact ⟨n, .inl ⟨more, ps, rfl, ⟨h', hps⟩, rfl⟩⟩
    case h_2 n more hmore =>
      cases hok
      exact ⟨n, .inr ⟨rfl, hmore, rfl⟩⟩
    case h_3 => cases hok
  · rintro ⟨n, ⟨more, ps, rfl, ⟨h, hps⟩, rfl⟩ | ⟨rfl, hrest, rfl⟩⟩
    · rw [Reads, ofTokens, hps]
      exact ⟨_, rfl⟩
    · rw [Reads, ofTokens]
      · exact ⟨_, rfl⟩
      · exact hrest

/-- A parameter is a literal, or a type is read. -/
theorem reads_paramOfTokens_iff {p : TypeParam} :
    Reads (paramOfTokens ts) p rest ↔
      (∃ q s, ts = .literal q s :: rest ∧ p = .literal s) ∨
      ∃ t, Reads (ofTokens ts) t rest ∧ p = .type t := by
  constructor
  · rintro ⟨h, hok⟩
    rw [paramOfTokens.eq_def] at hok
    split at hok
    case h_1 => cases hok
    case h_2 q s more =>
      cases hok
      exact .inl ⟨q, s, rfl, rfl⟩
    case h_3 t more hliteral =>
      cases ht : ofTokens (t :: more) with
      | error e => rw [ht] at hok; cases hok
      | ok r =>
        obtain ⟨u, rest', h'⟩ := r
        rw [ht] at hok
        cases hok
        exact .inr ⟨u, ⟨h', rfl⟩, rfl⟩
  · rintro (⟨q, s, rfl, rfl⟩ | ⟨t, ⟨h, ht⟩, rfl⟩)
    · rw [Reads, paramOfTokens]
      exact ⟨_, rfl⟩
    · -- A type starts with a name, which is no literal.
      obtain ⟨n, more, rfl⟩ : ∃ n more, ts = .name n :: more := by
        obtain ⟨n, ⟨more, ps, rfl, -, -⟩ | ⟨rfl, -, -⟩⟩ := reads_ofTokens_iff.1 ⟨h, ht⟩
        · exact ⟨n, _, rfl⟩
        · exact ⟨n, _, rfl⟩
      rw [Reads, paramOfTokens, ht]
      · exact ⟨_, rfl⟩
      · exact fun q s he => by cases he

/-- Parameters are read one by one: after each stands a comma, after the last a bracket. -/
theorem reads_paramsOfTokens_iff {ps : List TypeParam} :
    Reads (paramsOfTokens ts) ps rest ↔ ∃ p more, Reads (paramOfTokens ts) p more ∧
      ((more = .closing :: rest ∧ ps = [p]) ∨
      ∃ later qs, more = .comma :: later ∧ Reads (paramsOfTokens later) qs rest ∧
        ps = p :: qs) := by
  constructor
  · rintro ⟨h, hok⟩
    rw [paramsOfTokens] at hok
    cases hp : paramOfTokens ts with
    | error e => rw [hp] at hok; cases hok
    | ok r =>
      obtain ⟨p, more, h'⟩ := r
      rw [hp] at hok
      refine ⟨p, more, ⟨h', rfl⟩, ?_⟩
      cases more with
      | nil => cases hok
      | cons t more =>
        cases t with
        | closing =>
          cases hok
          exact .inl ⟨rfl, rfl⟩
        | comma =>
          cases hqs : paramsOfTokens more with
          | error e =>
            simp only [bind, Except.bind, hqs] at hok
            cases hok
          | ok r =>
            obtain ⟨qs, rest', h''⟩ := r
            simp only [bind, Except.bind, hqs] at hok
            cases hok
            exact .inr ⟨more, qs, rfl, ⟨h'', hqs⟩, rfl⟩
        | name | literal | opening => cases hok
  · rintro ⟨p, more, ⟨h, hp⟩, ⟨rfl, rfl⟩ | ⟨later, qs, rfl, ⟨h', hqs⟩, rfl⟩⟩
    · rw [Reads, paramsOfTokens, hp]
      exact ⟨_, rfl⟩
    · rw [Reads, paramsOfTokens, hp]
      simp only [bind, Except.bind]
      rw [hqs]
      exact ⟨_, rfl⟩

/-! ### Reading a row -/

/-- A piece that gives the token of a name is a name. -/
theorem eq_name_of_token {p : Piece} {s : String} (h : p.token = .name s) :
    ∃ b n, p = .name b n ∧ s = String.ofList n.chars := by
  cases p <;> cases h
  exact ⟨_, _, rfl, rfl⟩

/-- A piece that gives the token of a literal is a literal. -/
theorem eq_literal_of_token {p : Piece} {q : Char} {s : String} (h : p.token = .literal q s) :
    ∃ b l, p = .literal b l ∧ s = String.ofList l.chars := by
  cases p <;> cases h
  exact ⟨_, _, rfl, rfl⟩

/-- A piece that gives an opening sign is one. -/
theorem eq_opening_of_token {p : Piece} (h : p.token = .opening) : ∃ b, p = .opening b := by
  cases p <;> cases h
  exact ⟨_, rfl⟩

/-- A piece that gives a closing sign is one. -/
theorem eq_closing_of_token {p : Piece} (h : p.token = .closing) : ∃ b, p = .closing b := by
  cases p <;> cases h
  exact ⟨_, rfl⟩

/-- A piece that gives a comma is one. -/
theorem eq_comma_of_token {p : Piece} (h : p.token = .comma) : ∃ b, p = .comma b := by
  cases p <;> cases h
  exact ⟨_, rfl⟩

/-- No parameters follow where a type ends. -/
theorem Ends.tokens {rest : List Piece} (h : Ends rest) (more : List TypeToken) :
    rest.map Piece.token ≠ .opening :: more := by
  intro he
  cases rest with
  | nil => cases he
  | cons p rest =>
    obtain ⟨b, rfl⟩ := eq_opening_of_token (List.cons.inj he).1
    exact h b rest rfl

mutual

/-- The tokens of a derivation are read as the type that it stands for. -/
theorem TypeForm.reads (t : TypeForm) {rest : List Piece} (hrest : Ends rest) :
    Reads (ofTokens ((t.pieces ++ rest).map Piece.token)) t.tree (rest.map Piece.token) := by
  refine reads_ofTokens_iff.2 ?_
  cases t with
  | bare b n => exact ⟨_, .inr ⟨rfl, hrest.tokens, rfl⟩⟩
  | applied b n o ps =>
    exact ⟨_, .inl ⟨_, _, rfl, ParamsForm.reads ps rest, rfl⟩⟩

/-- The tokens of a parameter are read as its tree. -/
theorem ParamForm.reads (p : ParamForm) {rest : List Piece} (hrest : Ends rest) :
    Reads (paramOfTokens ((p.pieces ++ rest).map Piece.token)) p.tree
      (rest.map Piece.token) := by
  refine reads_paramOfTokens_iff.2 ?_
  cases p with
  | type t => exact .inr ⟨_, TypeForm.reads t hrest, rfl⟩
  | literal b l => exact .inl ⟨_, _, rfl, rfl⟩

/-- The tokens of a row of parameters are read as their trees. -/
theorem ParamsForm.reads (ps : ParamsForm) (rest : List Piece) :
    Reads (paramsOfTokens ((ps.pieces ++ rest).map Piece.token)) ps.trees
      (rest.map Piece.token) := by
  refine reads_paramsOfTokens_iff.2 ?_
  cases ps with
  | last p b =>
    rw [ParamsForm.pieces, List.append_assoc]
    exact ⟨_, _, ParamForm.reads p (ends_closing b rest), .inl ⟨rfl, rfl⟩⟩
  | more p b ps =>
    rw [ParamsForm.pieces, List.append_assoc]
    exact ⟨_, _, ParamForm.reads p (ends_comma b _),
      .inr ⟨_, _, rfl, ParamsForm.reads ps rest, rfl⟩⟩

end

mutual

/-- What is read as a type is the tokens of a derivation. -/
theorem exists_typeForm (ps : List Piece) {t : TypeExpr} {rest : List TypeToken}
    (h : Reads (ofTokens (ps.map Piece.token)) t rest) :
    ∃ (f : TypeForm) (more : List Piece),
      ps = f.pieces ++ more ∧ f.tree = t ∧ more.map Piece.token = rest := by
  obtain ⟨n, ⟨tail, qs, htokens, hqs, rfl⟩ | ⟨htokens, -, rfl⟩⟩ := reads_ofTokens_iff.1 h
  · obtain ⟨p, ps, rfl, hp, hps⟩ := List.map_eq_cons_iff.1 htokens
    obtain ⟨q, ps, rfl, hq, rfl⟩ := List.map_eq_cons_iff.1 hps
    obtain ⟨b, name, rfl, rfl⟩ := eq_name_of_token hp
    obtain ⟨o, rfl⟩ := eq_opening_of_token hq
    obtain ⟨fs, more, rfl, rfl, hmore⟩ := exists_paramsForm ps hqs
    exact ⟨.applied b name o fs, more, rfl, rfl, hmore⟩
  · obtain ⟨p, ps, rfl, hp, hps⟩ := List.map_eq_cons_iff.1 htokens
    obtain ⟨b, name, rfl, rfl⟩ := eq_name_of_token hp
    exact ⟨.bare b name, ps, rfl, rfl, hps⟩
termination_by 3 * ps.length

/-- Tokens that are read as a parameter come from a form of it. -/
theorem exists_paramForm (ps : List Piece) {p : TypeParam} {rest : List TypeToken}
    (h : Reads (paramOfTokens (ps.map Piece.token)) p rest) :
    ∃ (f : ParamForm) (more : List Piece),
      ps = f.pieces ++ more ∧ f.tree = p ∧ more.map Piece.token = rest := by
  obtain ⟨q, s, htokens, rfl⟩ | ⟨t, ht, rfl⟩ := reads_paramOfTokens_iff.1 h
  · obtain ⟨p, ps, rfl, hp, hps⟩ := List.map_eq_cons_iff.1 htokens
    obtain ⟨b, l, rfl, rfl⟩ := eq_literal_of_token hp
    exact ⟨.literal b l, ps, rfl, rfl, hps⟩
  · obtain ⟨f, more, rfl, rfl, hmore⟩ := exists_typeForm ps ht
    exact ⟨.type f, more, rfl, rfl, hmore⟩
termination_by 3 * ps.length + 1

/-- Tokens that are read as parameters come from a form of these. -/
theorem exists_paramsForm (ps : List Piece) {qs : List TypeParam} {rest : List TypeToken}
    (h : Reads (paramsOfTokens (ps.map Piece.token)) qs rest) :
    ∃ (f : ParamsForm) (more : List Piece),
      ps = f.pieces ++ more ∧ f.trees = qs ∧ more.map Piece.token = rest := by
  obtain ⟨p, tokens, hp, hrest⟩ := reads_paramsOfTokens_iff.1 h
  obtain ⟨f, more, hps, rfl, rfl⟩ := exists_paramForm ps hp
  obtain ⟨htokens, rfl⟩ | ⟨later, qs, htokens, hqs, rfl⟩ := hrest
  · obtain ⟨c, more, rfl, hc, hmore⟩ := List.map_eq_cons_iff.1 htokens
    obtain ⟨b, rfl⟩ := eq_closing_of_token hc
    exact ⟨.last f b, more, by simp [hps, ParamsForm.pieces], rfl, hmore⟩
  · obtain ⟨c, more, rfl, hc, rfl⟩ := List.map_eq_cons_iff.1 htokens
    obtain ⟨b, rfl⟩ := eq_comma_of_token hc
    have hshorter : more.length < ps.length := by simp [hps]; omega
    obtain ⟨fs, more', rfl, rfl, hmore⟩ := exists_paramsForm more hqs
    exact ⟨.more f b fs, more', by simp [hps, ParamsForm.pieces], rfl, hmore⟩
termination_by 3 * ps.length + 2

end

/-! ### Whole texts -/

/-- The last character of a token is no blank. -/
theorem Piece.exists_last (p : Piece) :
    ∃ cs c, p.body = cs ++ [c] ∧ Text.isBlank c = false := by
  cases p with
  | name _ n =>
    refine ⟨_, _, (List.dropLast_append_getLast n.ne_nil).symm, ?_⟩
    exact TypeToken.isBlank_of_isNameChar (n.nameChar _ (List.getLast_mem n.ne_nil))
  | literal _ l =>
    refine ⟨l.quote :: l.chars, l.quote, rfl, ?_⟩
    rcases l.isQuote with h | h <;> rw [h] <;> rfl
  | opening _ | closing _ | comma _ => exact ⟨[], _, rfl, rfl⟩

/-- A derivation has a token. -/
theorem TypeForm.pieces_ne_nil (t : TypeForm) : t.pieces ≠ [] := by
  cases t <;> exact List.cons_ne_nil _ _

/-- What the grammar derives does not end in a blank. -/
theorem TypeForm.exists_last (t : TypeForm) :
    ∃ cs c, t.chars = cs ++ [c] ∧ Text.isBlank c = false := by
  obtain ⟨cs, c, hbody, hc⟩ := (t.pieces.getLast t.pieces_ne_nil).exists_last
  rw [← t.chars_pieces, ← List.dropLast_append_getLast t.pieces_ne_nil, List.flatMap_append,
    List.flatMap_cons, List.flatMap_nil, List.append_nil, Piece.chars, hbody,
    ← List.append_assoc, ← List.append_assoc]
  exact ⟨_, c, rfl, hc⟩

/-- Only blanks are dropped behind a type. -/
theorem dropTrailingBlanks_append (t : TypeForm) (b : Blanks) :
    Text.dropTrailingBlanks (t.chars ++ b.chars) = t.chars := by
  obtain ⟨cs, c, ht, hc⟩ := t.exists_last
  have hb : ∀ d ∈ b.chars.reverse, Text.isBlank d = true :=
    fun d hd => b.blank d (List.mem_reverse.1 hd)
  rw [Text.dropTrailingBlanks, List.reverse_append, List.dropWhile_append_of_pos hb, ht]
  simp [hc]

/-- A text is what is left without the blanks at its end, and these blanks. -/
theorem exists_trailingBlanks (cs : List Char) :
    ∃ b : Blanks, Text.dropTrailingBlanks cs ++ b.chars = cs := by
  refine ⟨⟨(cs.reverse.takeWhile Text.isBlank).reverse, fun c hc => ?_⟩, ?_⟩
  · exact List.mem_takeWhile_imp (List.mem_reverse.1 hc)
  · rw [Text.dropTrailingBlanks, ← List.reverse_append, List.takeWhile_append_dropWhile,
      List.reverse_reverse]

/-- A text is parsed by reading all of its tokens. -/
theorem parse_eq_ok_iff {text : String} {t : TypeExpr} :
    parse text = .ok t ↔
      ∃ ts, TypeToken.ofChars 0 (Text.dropTrailingBlanks text.toList) = .ok ts ∧
        Reads (ofTokens ts) t [] := by
  constructor
  · intro h
    rw [parse] at h
    cases hts : TypeToken.ofChars 0 (Text.dropTrailingBlanks text.toList) with
    | error e => rw [hts] at h; cases h
    | ok ts =>
      rw [hts] at h
      cases ts with
      | nil => cases h
      | cons token ts =>
        cases hread : ofTokens (token :: ts) with
        | error e => simp [bind, Except.bind, hread] at h
        | ok r =>
          obtain ⟨u, rest, hlt⟩ := r
          simp only [bind, Except.bind, hread] at h
          cases rest with
          | nil => cases h; exact ⟨_, rfl, hlt, hread⟩
          | cons extra rest => cases h
  · rintro ⟨ts, hts, hlt, hread⟩
    cases ts with
    | nil => exact absurd hlt (Nat.not_lt_zero _)
    | cons token ts =>
      rw [parse, hts]
      simp only [bind, Except.bind]
      rw [hread]
      rfl

namespace Derivation

/-- No two names meet in the pieces of a derivation. -/
theorem namesApart (d : Derivation) : NamesApart d.type.pieces := by
  have h : NamesApart (d.type.pieces ++ []) := d.type.namesApart .nil fun p hp => by cases hp
  rwa [List.append_nil] at h

/-- The text of a derivation is that of its type, and blanks behind it. -/
theorem toList_text (d : Derivation) : d.text.toList = d.type.chars ++ d.after.chars :=
  String.toList_ofList

/-- A text is read as the type that its derivation stands for. -/
theorem parse_text (d : Derivation) : parse d.text = .ok d.tree := by
  refine parse_eq_ok_iff.2 ⟨d.type.pieces.map Piece.token, ?_, ?_⟩
  · rw [toList_text, dropTrailingBlanks_append, ← d.type.chars_pieces]
    exact TypeToken.ofChars_pieces d.namesApart 0
  · have := d.type.reads ends_nil
    rwa [List.append_nil] at this

/-- A text has one derivation. -/
theorem text_injective {d e : Derivation} (h : d.text = e.text) : d = e := by
  obtain ⟨t, b⟩ := d
  obtain ⟨u, c⟩ := e
  have hchars := congrArg String.toList h
  simp only [toList_text] at hchars
  have htype : t.chars = u.chars := by
    rw [← dropTrailingBlanks_append t b, hchars, dropTrailingBlanks_append]
  have hpieces : t.pieces = u.pieces := by
    refine TypeToken.pieces_eq_of_chars (namesApart ⟨t, b⟩) (namesApart ⟨u, c⟩) ?_
    rw [t.chars_pieces, u.chars_pieces, htype]
  obtain ⟨rfl, -⟩ := t.pieces_injective u ends_nil ends_nil (congrArg (· ++ []) hpieces)
  obtain rfl : b = c := Blanks.ext (List.append_cancel_left hchars)
  rfl

end Derivation

/-- A text that is read has a derivation. -/
theorem exists_derivation {text : String} {t : TypeExpr} (h : parse text = .ok t) :
    ∃ d : Derivation, d.text = text ∧ d.tree = t := by
  obtain ⟨ts, hts, hread⟩ := parse_eq_ok_iff.1 h
  obtain ⟨ps, hps, rfl⟩ := TypeToken.exists_pieces hts
  obtain ⟨f, more, rfl, rfl, hmore⟩ := exists_typeForm ps hread
  obtain rfl := List.map_eq_nil_iff.1 hmore
  obtain ⟨b, hb⟩ := exists_trailingBlanks text.toList
  rw [List.append_nil, f.chars_pieces] at hps
  refine ⟨⟨f, b⟩, ?_, rfl⟩
  rw [Derivation.text, hps, hb, String.ofList_toList]

/-- Reading accepts just what the grammar derives. A text is read as a type if and only if it has
    a derivation that stands for this type; it has one derivation at most; and a text without
    derivation is refused with the cause. -/
theorem parse_derives (text : String) :
    (∀ t, parse text = .ok t ↔ ∃ d : Derivation, d.text = text ∧ d.tree = t) ∧
    (∀ d e : Derivation, d.text = text → e.text = text → d = e) ∧
    ((¬ ∃ d : Derivation, d.text = text) → ∃ cause, parse text = .error cause) := by
  refine ⟨fun t => ⟨exists_derivation, ?_⟩, ?_, ?_⟩
  · rintro ⟨d, rfl, rfl⟩
    exact d.parse_text
  · rintro d e rfl he
    exact Derivation.text_injective he.symm
  · intro hnone
    cases h : parse text with
    | error cause => exact ⟨cause, rfl⟩
    | ok t =>
      obtain ⟨d, hd, -⟩ := exists_derivation h
      exact absurd ⟨d, hd⟩ hnone

/-- Blanks may stand around every token, and a literal may hold what marks are made of. -/
example : parse " array < string ,'<,>'>\n"
    = .ok (.mk "array" [.type (.mk "string" []), .literal "<,>"]) := by
  decide +kernel

/-- Two names in a row are no type. -/
example : parse "a b" = .error (.unexpected "b") := by
  decide +kernel

end TypeExpr

end ApiDoc
