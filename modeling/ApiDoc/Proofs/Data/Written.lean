import ApiDoc.Data.Json
import ApiDoc.Data.Json.Reader
import Mathlib.Data.List.Chain
import Mathlib.Data.Nat.Digits.Defs

namespace ApiDoc

/-!
# JSON text is read back

Values made of texts, nulls, lists and tuples are read back from their JSON text, tuples as lists:

* `Text.Whole` — texts without the two halves of a pair side by side, for which JSON text has the
  escapes of the pair;
* `Text.Whole.joinUnits` — such texts are told by their 16-bit units;
* `Json.units?_jsonChar`, `Json.string?_jsonString` — the characters of a string are read as units;
* `Json.Nest`, `Json.asLists` — the values, and what is read of them;
* `Json.Reads` — a text at the front is read as a value, whatever follows it;
* `Json.Nest.read?_json` — the JSON text of such a value is read back.
-/

/-! ### Units -/

namespace Text

/-- Whether a character stands for the first half of a pair. -/
def isFirstHalf (c : Char) : Bool := (half? c).any isFirstUnit

/-- Whether a character stands for the second half of a pair. -/
def isSecondHalf (c : Char) : Bool := (half? c).any isSecondUnit

/-- A text in which no two characters side by side stand for the halves of a pair. -/
def Whole (s : String) : Prop :=
  s.toList.IsChain fun c d => ¬(isFirstHalf c = true ∧ isSecondHalf d = true)

instance (s : String) : Decidable (Whole s) := by
  unfold Whole
  infer_instance

/-- A unit that is not the first of a pair stands for a character of its own. -/
theorem joinUnits_cons {n : Nat} (h : isFirstUnit n = false) (ns : List Nat) :
    joinUnits (n :: ns) = ofUnit n :: joinUnits ns := by
  cases ns with
  | nil => rfl
  | cons m ns => simp [joinUnits, h]

/-- The numbers of characters leave out those of halves of pairs. -/
theorem toNat_valid (c : Char) :
    c.toNat < 0xd800 ∨ 0xdfff < c.toNat ∧ c.toNat < 0x110000 := by
  have h := c.valid
  simp only [UInt32.isValidChar, Nat.isValidChar] at h
  unfold Char.toNat
  omega

/-- A character that stands for no lone half has its own units. -/
theorem units16_of_half? {c : Char} (h : half? c = none) : units16 c = unitsOf c.toNat := by
  rw [units16, h]
  rfl

/-- The unit of a character that is no half of a pair. -/
theorem joinUnits_single {n : Nat} (h : n < 0xd800 ∨ 0xdfff < n) (ns : List Nat) :
    joinUnits (n :: ns) = Char.ofNat n :: joinUnits ns := by
  have hsingle : isFirstUnit n = false ∧ isSecondUnit n = false := by
    simp only [isFirstUnit, isSecondUnit, Bool.and_eq_false_iff, decide_eq_false_iff_not]
    omega
  rw [joinUnits_cons hsingle.1, ofUnit, hsingle.1, hsingle.2]
  rfl

/-- The two units of a character beyond the first plane. -/
theorem joinUnits_pair {n : Nat} (hlow : 0x10000 ≤ n) (hhigh : n < 0x110000) (ns : List Nat) :
    joinUnits ((0xd800 + (n - 0x10000) / 0x400) :: (0xdc00 + (n - 0x10000) % 0x400) :: ns)
      = Char.ofNat n :: joinUnits ns := by
  have hpair : isFirstUnit (0xd800 + (n - 0x10000) / 0x400) = true ∧
      isSecondUnit (0xdc00 + (n - 0x10000) % 0x400) = true := by
    simp only [isFirstUnit, isSecondUnit, Bool.and_eq_true, decide_eq_true_eq]
    omega
  have hjoined : 0x10000 + (0xd800 + (n - 0x10000) / 0x400 - 0xd800) * 0x400
      + (0xdc00 + (n - 0x10000) % 0x400 - 0xdc00) = n := by
    omega
  rw [joinUnits, hpair.1, hpair.2, hjoined]
  exact if_pos rfl

/-- A character of the first plane before the halves of pairs has itself as unit. -/
theorem units16_of_lt {c : Char} (h : c.toNat < 0x80) : units16 c = [c.toNat] := by
  have hdistance : c.toNat - halfDistance = 0 := by
    unfold halfDistance
    omega
  have hhalf : half? c = none := by
    rw [half?, hdistance]
    rfl
  rw [units16_of_half? hhalf, unitsOf, if_pos (by omega)]

/-- Units of a character that is no half of a pair give the character back. -/
theorem joinUnits_units16 {c : Char} (h : half? c = none) (ns : List Nat) :
    joinUnits (units16 c ++ ns) = c :: joinUnits ns := by
  have hvalid := toNat_valid c
  rw [units16_of_half? h, unitsOf]
  split
  · rw [List.singleton_append, joinUnits_single (hvalid.imp_right And.left), Char.ofNat_toNat]
  · rename_i hbig
    rw [List.cons_append, List.singleton_append,
      joinUnits_pair (Nat.not_lt.1 hbig) (by omega), Char.ofNat_toNat]

/-- The half that a character stands for. -/
theorem half?_eq_some {c : Char} {unit : Nat} (h : half? c = some unit) :
    c.toNat = halfDistance + unit ∧ (isFirstUnit unit || isSecondUnit unit) = true := by
  unfold half? at h
  dsimp only at h
  have hsub : halfDistance ≤ c.toNat → c.toNat = halfDistance + (c.toNat - halfDistance) :=
    fun hle => (Nat.add_sub_cancel' hle).symm
  have hzero : c.toNat < halfDistance → c.toNat - halfDistance = 0 :=
    fun hlt => Nat.sub_eq_zero_of_le (Nat.le_of_lt hlt)
  revert h hsub hzero
  generalize c.toNat - halfDistance = n
  intro h hsub hzero
  split at h
  · rename_i hhalf
    obtain rfl := Option.some.inj h
    refine ⟨hsub (Nat.le_of_not_lt fun hlt => ?_), hhalf⟩
    rw [hzero hlt] at hhalf
    exact absurd hhalf (by decide)
  · exact nomatch h

/-- The units of a character begin with a second one only if it is a second half. -/
theorem isSecondUnit_head {d : Char} (h : isSecondHalf d = false) :
    ∃ n ns, units16 d = n :: ns ∧ isSecondUnit n = false := by
  have hvalid := toNat_valid d
  cases hhalf : half? d with
  | some unit =>
    have hsecond : isSecondUnit unit = false := by
      rw [isSecondHalf, hhalf, Option.any_some] at h
      exact h
    exact ⟨unit, [], by rw [units16, hhalf, Option.elim_some], hsecond⟩
  | none =>
    rw [units16_of_half? hhalf, unitsOf]
    split
    · refine ⟨_, _, rfl, ?_⟩
      simp only [isSecondUnit, Bool.and_eq_false_iff, decide_eq_false_iff_not]
      omega
    · refine ⟨_, _, rfl, ?_⟩
      simp only [isSecondUnit, Bool.and_eq_false_iff, decide_eq_false_iff_not]
      omega

/-- The unit of a half, before what does not begin with the other half. -/
theorem joinUnits_half {c : Char} {unit : Nat} (h : half? c = some unit) (cs : List Char)
    (hcs : isFirstUnit unit = true → ∀ d ∈ cs.head?, isSecondHalf d = false) :
    joinUnits (units16 c ++ cs.flatMap units16) = c :: joinUnits (cs.flatMap units16) := by
  obtain ⟨hc, hunit⟩ := half?_eq_some h
  have hchar : ofUnit unit = c := by
    rw [ofUnit, if_pos hunit, ← hc, Char.ofNat_toNat]
  rw [units16, h, Option.elim_some, List.singleton_append]
  cases hfirst : isFirstUnit unit with
  | false => rw [joinUnits_cons hfirst, hchar]
  | true =>
    cases cs with
    | nil => exact congrArg (· :: []) hchar
    | cons d cs =>
      obtain ⟨n, ns, hd, hn⟩ := isSecondUnit_head (hcs hfirst d rfl)
      rw [List.flatMap_cons, hd, List.cons_append, joinUnits, hn, Bool.and_false, hchar]
      rfl

/-- A whole text is told by its units. -/
theorem Whole.joinUnits {s : String} (h : Whole s) :
    joinUnits (s.toList.flatMap units16) = s.toList := by
  unfold Whole at h
  generalize s.toList = cs at h
  induction cs with
  | nil => rfl
  | cons c cs ih =>
    obtain ⟨hhead, htail⟩ := List.isChain_cons.1 h
    rw [List.flatMap_cons]
    cases hhalf : half? c with
    | none => rw [joinUnits_units16 hhalf, ih htail]
    | some unit =>
      rw [joinUnits_half hhalf cs, ih htail]
      intro hfirst d hd
      have hc : isFirstHalf c = true := by rw [isFirstHalf, hhalf, Option.any_some, hfirst]
      exact Bool.eq_false_iff.2 fun hsecond => hhead d hd ⟨hc, hsecond⟩

/-- Units have sixteen bits. -/
theorem units16_lt (c : Char) : ∀ n ∈ units16 c, n < 0x10000 := by
  have hvalid := toNat_valid c
  intro n hn
  cases hhalf : half? c with
  | some unit =>
    rw [units16, hhalf, Option.elim_some, List.mem_singleton] at hn
    have hunit := (half?_eq_some hhalf).2
    simp only [isFirstUnit, isSecondUnit, Bool.or_eq_true, Bool.and_eq_true,
      decide_eq_true_eq] at hunit
    omega
  | none =>
    rw [units16_of_half? hhalf, unitsOf] at hn
    split at hn
    · obtain rfl := List.mem_singleton.1 hn
      assumption
    · simp only [List.mem_cons, List.not_mem_nil, or_false] at hn
      omega

end Text

/-! ### Strings -/

namespace Json

open Text

/-- A hexadecimal digit is read back. -/
theorem digitIn?_digitChar : ∀ d, d < 16 → Numeral.digitIn? 16 d.digitChar = some d := by
  decide

/-- A hexadecimal number with one more digit. -/
theorem hexValue?_append (cs : List Char) (c : Char) :
    hexValue? (cs ++ [c]) = (hexValue? cs).bind fun n =>
      (Numeral.digitIn? 16 c).map (n * 16 + ·) := by
  simp [hexValue?, List.foldlM_append]

/-- Zeros before the digits of a number do not count. -/
theorem hexValue?_zeros (k : Nat) : hexValue? (List.replicate k '0') = some 0 := by
  induction k with
  | zero => rfl
  | succ k ih =>
    rw [List.replicate_succ', hexValue?_append, ih]
    rfl

/-- The digits of a number are read as the number. -/
theorem hexValue?_toDigits (k n : Nat) :
    hexValue? (List.replicate k '0' ++ Nat.toDigits 16 n) = some n := by
  induction n using Nat.strongRecOn with
  | ind n ih =>
    by_cases hn : n < 16
    · rw [Nat.toDigits_of_lt_base hn, hexValue?_append, hexValue?_zeros, Option.bind_some,
        digitIn?_digitChar n hn]
      simp
    · rw [Nat.toDigits_of_base_le (by decide) (Nat.not_lt.1 hn), ← List.append_assoc,
        hexValue?_append, ih (n / 16) (by omega), Option.bind_some,
        digitIn?_digitChar _ (Nat.mod_lt n (by decide))]
      simp only [Option.map_some, Option.some.injEq]
      omega

/-- A unit in four digits. -/
theorem exists_hex {n : Nat} (h : n < 0x10000) :
    ∃ a b c d, hex 4 n = [a, b, c, d] ∧ hexValue? [a, b, c, d] = some n := by
  have hdigits : (Nat.toDigits 16 n).length ≤ 4 :=
    (Nat.length_toDigits_le_iff (by decide) (by decide)).2 h
  have hlength : (hex 4 n).length = 4 := by
    rw [hex, List.length_append, List.length_replicate]
    omega
  have hvalue : hexValue? (hex 4 n) = some n := hexValue?_toDigits _ n
  match hcs : hex 4 n with
  | [a, b, c, d] => exact ⟨a, b, c, d, rfl, hcs ▸ hvalue⟩
  | [] | [_] | [_, _] | [_, _, _] | _ :: _ :: _ :: _ :: _ :: _ => simp [hcs] at hlength

/-- An escaped unit is read back. -/
theorem units?_hex {n : Nat} (h : n < 0x10000) (cs : List Char) :
    units? ('\\' :: 'u' :: hex 4 n ++ cs) = (units? cs).map fun r => (n :: r.1, r.2) := by
  obtain ⟨a, b, c, d, hhex, hvalue⟩ := exists_hex h
  rw [hhex]
  show units? ('\\' :: 'u' :: a :: b :: c :: d :: cs) = _
  rw [units?, hvalue]
  cases units? cs <;> rfl

/-- Units in four digits each. -/
theorem units?_hexes {ns : List Nat} (h : ∀ n ∈ ns, n < 0x10000) (cs : List Char) :
    units? (ns.flatMap (fun n => '\\' :: 'u' :: hex 4 n) ++ cs)
      = (units? cs).map fun r => (ns ++ r.1, r.2) := by
  induction ns with
  | nil => simp
  | cons n ns ih =>
    rw [List.flatMap_cons, List.append_assoc, units?_hex (h n List.mem_cons_self),
      ih fun m hm => h m (List.mem_cons_of_mem _ hm)]
    cases units? cs <;> rfl

/-- An escape of one letter. -/
theorem units?_escape {c e : Char} (hc : c ≠ 'u') (h : escape? c = some e) (cs : List Char) :
    units? ('\\' :: c :: cs) = (units? cs).map fun r => (e.toNat :: r.1, r.2) := by
  rw [units?.eq_3]
  · rw [h]
    cases units? cs <;> rfl
  · intro a b c d rest hcons
    simp_all

/-- A character that needs no escape. -/
theorem units?_plain {c : Char} (hquote : c ≠ '"') (hescape : c ≠ '\\') (cs : List Char) :
    units? (c :: cs) = (units? cs).map fun r => (c.toNat :: r.1, r.2) := by
  rw [units?.eq_4]
  · cases units? cs <;> rfl
  · exact hquote
  · intro a b d e rest hcons
    exact absurd hcons hescape
  · intro a rest hcons
    exact absurd hcons hescape

/-- A character of a string is read as its units. -/
theorem units?_jsonChar (c : Char) (cs : List Char) :
    units? (jsonChar true c ++ cs) = (units? cs).map fun r => (units16 c ++ r.1, r.2) := by
  -- The letters that stand for a control character, each with the character it is read as.
  have hletter : ∀ d e : Char, d ≠ 'u' → escape? d = some e → e.toNat < 0x80 → c.toNat = e.toNat →
      units? (['\\', d] ++ cs) = (units? cs).map fun r => (units16 c ++ r.1, r.2) := by
    intro d e hd he hsmall hc
    rw [units16_of_lt (hc ▸ hsmall), hc]
    exact units?_escape hd he cs
  unfold jsonChar
  split
  · rename_i h
    rw [Bool.or_eq_true, beq_iff_eq, beq_iff_eq] at h
    rcases h with rfl | rfl <;> exact hletter _ _ (by decide) (by decide) (by decide) rfl
  rename_i hplain
  split
  · rename_i h
    exact hletter 'n' '\n' (by decide) (by decide) (by decide) (congrArg _ (beq_iff_eq.1 h))
  split
  · rename_i h
    exact hletter 'r' '\r' (by decide) (by decide) (by decide) (congrArg _ (beq_iff_eq.1 h))
  split
  · rename_i h
    exact hletter 't' '\t' (by decide) (by decide) (by decide) (congrArg _ (beq_iff_eq.1 h))
  split
  · rename_i h
    exact hletter 'b' '\x08' (by decide) (by decide) (by decide) (beq_iff_eq.1 h)
  split
  · rename_i h
    exact hletter 'f' '\x0c' (by decide) (by decide) (by decide) (beq_iff_eq.1 h)
  split
  -- Everything else that is not plain is written by its hexadecimal digits.
  · exact units?_hexes (units16_lt c) cs
  · rename_i h
    rw [Bool.or_eq_true, beq_iff_eq, beq_iff_eq, not_or] at hplain
    simp only [Bool.true_and, Bool.or_eq_true, decide_eq_true_eq, not_or] at h
    rw [units16_of_lt (by omega)]
    exact units?_plain hplain.1 hplain.2 cs

/-- The characters of a string up to its closing quote. -/
theorem units?_jsonChars (cs rest : List Char) :
    units? (cs.flatMap (jsonChar true) ++ '"' :: rest) = some (cs.flatMap units16, rest) := by
  induction cs with
  | nil => rw [List.flatMap_nil, List.nil_append, units?]; rfl
  | cons c cs ih =>
    rw [List.flatMap_cons, List.append_assoc, units?_jsonChar, ih]
    rfl

/-- A string after its opening quote is read as the text that its units tell. -/
theorem string?_jsonString (s : String) (rest : List Char) :
    string? (s.toList.flatMap (jsonChar true) ++ '"' :: rest)
      = some (.ofList (joinUnits (s.toList.flatMap units16)), rest) := by
  rw [string?, units?_jsonChars]
  rfl

/-! ### Values -/

mutual

/-- A value with lists for tuples. -/
def asLists : Data → Data
  | .list xs mark => .list (asListsAll xs) mark
  | .tuple xs mark => .list (asListsAll xs) mark
  | v => v

/-- Values with lists for tuples. -/
def asListsAll : List Data → List Data
  | [] => []
  | x :: xs => asLists x :: asListsAll xs

end

/-- Values made of nulls, whole texts, lists and tuples. -/
inductive Nest : Data → Prop
  | null : Nest .null
  | text {s : String} : Whole s → Nest (.str s)
  | list {xs : List Data} : (∀ x ∈ xs, Nest x) → Nest (.ofList xs)
  | tuple {xs : List Data} : (∀ x ∈ xs, Nest x) → Nest (.ofTuple xs)

/-- A text at the front is read as a value, whatever follows it. -/
structure Reads (s : String) (v : Data) : Prop where
  start : ∃ c cs, s.toList = c :: cs ∧ (c = 'n' ∨ c = '"' ∨ c = '[')
  value : ∀ fuel rest, 2 * s.toList.length ≤ fuel →
    value? fuel (s.toList ++ rest) = some (v, rest)

/-- No blanks are skipped where a value or a sign stands. -/
theorem skip_cons {c : Char} (h : c = 'n' ∨ c = '"' ∨ c = '[' ∨ c = ']' ∨ c = ',')
    (cs : List Char) : skip (c :: cs) = c :: cs := by
  rcases h with rfl | rfl | rfl | rfl | rfl <;> rfl

/-- The text of null is read back. -/
theorem reads_null : Reads "null" .null where
  start := ⟨'n', _, rfl, .inl rfl⟩
  value := by
    intro fuel rest hfuel
    obtain ⟨fuel, rfl⟩ : ∃ k, fuel = k + 1 := ⟨fuel - 1, by simp at hfuel; omega⟩
    rfl

/-- After a quote a text is read. -/
theorem value?_string (fuel : Nat) (cs : List Char) :
    value? (fuel + 1) ('"' :: cs) = (string? cs).bind fun r => some (.str r.1, r.2) := by
  rw [value?]
  rfl

/-- After an opening bracket items are read. -/
theorem value?_list (fuel : Nat) (cs : List Char) :
    value? (fuel + 1) ('[' :: cs)
      = (items? fuel (skip cs)).bind fun r => some (.ofList r.1, r.2) := by
  rw [value?]
  rfl

/-- The text of a whole text is read back. -/
theorem reads_text {s : String} (h : Whole s) : Reads (jsonString true s) (.str s) where
  start := ⟨'"', _, String.toList_ofList .., .inr (.inl rfl)⟩
  value := by
    intro fuel rest hfuel
    rw [jsonString, String.toList_ofList] at hfuel ⊢
    obtain ⟨fuel, rfl⟩ : ∃ k, fuel = k + 1 := ⟨fuel - 1, by simp at hfuel; omega⟩
    rw [List.cons_append, List.cons_append, List.append_assoc, List.singleton_append,
      value?_string, string?_jsonString, h.joinUnits, String.ofList_toList]
    rfl

/-- No text of a value starts with blanks or a closing bracket. -/
theorem Reads.not_closing {s : String} {v : Data} (h : Reads s v) (rest : List Char) :
    skip (s.toList ++ rest) = s.toList ++ rest ∧ ∀ cs, s.toList ++ rest = ']' :: cs → False := by
  obtain ⟨c, cs, hs, hc⟩ := h.start
  rw [hs, List.cons_append]
  refine ⟨skip_cons (by tauto) _, fun cs' hcons => ?_⟩
  obtain rfl := (List.cons.inj hcons).1
  simp at hc

/-- The last item is read up to the closing bracket. -/
theorem items?_last {s : String} {v : Data} (h : Reads s v) {fuel : Nat} (rest : List Char)
    (hfuel : 2 * s.toList.length ≤ fuel) :
    items? (fuel + 1) (s.toList ++ ']' :: rest) = some ([v], rest) := by
  rw [items?.eq_3 _ _ (h.not_closing _).2, h.value _ _ hfuel]
  rfl

/-- An item is read up to the comma. -/
theorem items?_more {s : String} {v : Data} (h : Reads s v) {fuel : Nat} (rest : List Char)
    (hfuel : 2 * s.toList.length ≤ fuel) :
    items? (fuel + 1) (s.toList ++ ',' :: rest)
      = (items? fuel (skip rest)).map fun r => (v :: r.1, r.2) := by
  rw [items?.eq_3 _ _ (h.not_closing _).2, h.value _ _ hfuel]
  show (items? fuel (skip rest)).bind _ = _
  cases items? fuel (skip rest) <;> rfl

/-- No blanks are skipped in front of items. -/
theorem skip_intercalate {s : String} {v : Data} (h : Reads s v) (parts : List String)
    (rest : List Char) : skip ((", ".intercalate (s :: parts)).toList ++ rest)
      = (", ".intercalate (s :: parts)).toList ++ rest := by
  cases parts with
  | nil =>
    rw [String.intercalate_singleton]
    exact (h.not_closing rest).1
  | cons next parts =>
    rw [String.intercalate_cons_cons, String.toList_append, String.toList_append, List.append_assoc,
      List.append_assoc]
    exact (h.not_closing _).1

/-- Items are read up to the closing bracket. -/
theorem items?_intercalate {parts : List String} {vs : List Data} (h : List.Forall₂ Reads parts vs)
    (hne : parts ≠ []) (fuel : Nat) (rest : List Char)
    (hfuel : 2 * (", ".intercalate parts).toList.length + 1 ≤ fuel) :
    items? fuel ((", ".intercalate parts).toList ++ ']' :: rest) = some (vs, rest) := by
  induction h generalizing fuel with
  | nil => exact absurd rfl hne
  | @cons part v parts vs hpart hparts ih =>
    obtain ⟨fuel, rfl⟩ : ∃ k, fuel = k + 1 := ⟨fuel - 1, by omega⟩
    cases hparts with
    | nil =>
      rw [String.intercalate_singleton] at hfuel ⊢
      exact items?_last hpart rest (by omega)
    | @cons next w parts vs hnext hparts =>
      have hlater := ih (List.cons_ne_nil _ _) fuel
      rw [String.intercalate_cons_cons] at hfuel ⊢
      simp only [String.toList_append, List.length_append, List.append_assoc] at hfuel ⊢
      have hmark : ", ".toList.length = 2 := rfl
      show items? (fuel + 1) (part.toList ++ ',' :: ' ' :: _) = _
      rw [items?_more hpart _ (by omega)]
      show (items? fuel (skip ((", ".intercalate (next :: parts)).toList ++ ']' :: rest))).map _ = _
      rw [skip_intercalate hnext, hlater (by omega)]
      rfl

/-- The text of items between brackets is read as a list. -/
theorem reads_list {parts : List String} {vs : List Data} (h : List.Forall₂ Reads parts vs) :
    Reads ("[" ++ ", ".intercalate parts ++ "]") (.ofList vs) where
  start := ⟨'[', _, by simp only [String.toList_append]; rfl, .inr (.inr rfl)⟩
  value := by
    intro fuel rest hfuel
    simp only [String.toList_append, List.length_append, List.append_assoc] at hfuel ⊢
    change 2 * (1 + (_ + 1)) ≤ fuel at hfuel
    obtain ⟨fuel, rfl⟩ : ∃ k, fuel = k + 1 := ⟨fuel - 1, by omega⟩
    show value? (fuel + 1) ('[' :: ((", ".intercalate parts).toList ++ ']' :: rest)) = _
    rw [value?_list]
    cases h with
    | nil =>
      obtain ⟨fuel, rfl⟩ : ∃ k, fuel = k + 1 := ⟨fuel - 1, by omega⟩
      rfl
    | @cons part v parts vs hpart hparts =>
      rw [skip_intercalate hpart, items?_intercalate (.cons hpart hparts) (List.cons_ne_nil _ _) _ _
        (by omega)]
      rfl

/-- Items on one line stand between brackets, with commas between them. -/
theorem enclose_items (depth : Nat) (parts : List String) :
    JsonStyle.enclose {} depth "[" "]" parts = "[" ++ ", ".intercalate parts ++ "]" := by
  cases parts with
  | nil => rfl
  | cons part parts =>
    show "[" ++ "" ++ (", " ++ "").intercalate (part :: parts) ++ "" ++ "]" = _
    simp only [String.append_empty]

/-- Such values have JSON texts, the same at every depth, which are read back. -/
theorem exists_reads_items {xs : List Data}
    (h : ∀ x ∈ xs, ∃ s, (∀ depth, x.jsonAt {} depth [] = .ok s) ∧ Reads s (asLists x)) :
    ∃ parts, (∀ depth, Data.jsonItems {} depth [] xs = .ok parts) ∧
      List.Forall₂ Reads parts (asListsAll xs) := by
  induction xs with
  | nil => exact ⟨[], fun _ => rfl, .nil⟩
  | cons x xs ih =>
    obtain ⟨s, hs, hreads⟩ := h x List.mem_cons_self
    obtain ⟨parts, hparts, hall⟩ := ih fun y hy => h y (List.mem_cons_of_mem _ hy)
    refine ⟨s :: parts, fun depth => ?_, .cons hreads hall⟩
    rw [Data.jsonItems, hs, hparts]
    rfl

/-- Such a value has a JSON text, the same at every depth, which is read back. -/
theorem Nest.exists_reads {v : Data} (h : Nest v) :
    ∃ s, (∀ depth, v.jsonAt {} depth [] = .ok s) ∧ Reads s (asLists v) := by
  induction h with
  | null => exact ⟨"null", fun _ => rfl, reads_null⟩
  | @text s hs => exact ⟨jsonString true s, fun _ => rfl, reads_text hs⟩
  | @list xs hxs ih | @tuple xs hxs ih =>
    obtain ⟨parts, hparts, hall⟩ := exists_reads_items ih
    refine ⟨"[" ++ ", ".intercalate parts ++ "]", fun depth => ?_, reads_list hall⟩
    cases xs with
    | nil =>
      obtain rfl := Except.ok.inj (hparts 0)
      rfl
    | cons x xs =>
      rw [← enclose_items depth, Data.jsonAt]
      show (Data.jsonItems {} (depth + 1) [] (x :: xs)).map _ = _
      rw [hparts]
      rfl

/-- Such a value is read back from its JSON text, tuples as lists. -/
theorem Nest.read?_json {v : Data} (h : Nest v) :
    ∃ s, v.json {} = .ok s ∧ read? s = some (asLists v) := by
  obtain ⟨s, hs, hreads⟩ := h.exists_reads
  refine ⟨s, hs 0, ?_⟩
  have hvalue := hreads.value (2 * s.toList.length + 2) [] (by omega)
  rw [List.append_nil] at hvalue
  rw [read?]
  dsimp only
  rw [hvalue]
  rfl

end Json

end ApiDoc
