import ApiDoc.Proofs.Data.Written
import ApiDoc.Proofs.Groups.Closure
import ApiDoc.Proofs.Groups.Identity

namespace ApiDoc

/-!
# Models narrowed down

The type of a property is seen through the names of the scope that is given for the property. What
identifies a model tells from its end whether scopes are given:

* `Data.Writes`, `Data.Ends` — values that have JSON texts, and how these end;
* `Groups.Canonical.Flat`, `Groups.Canonical.ends_identity` — groups without scopes, and how what
  identifies a model ends;
* `Model.payload_ne_of_nested` — a model narrowed down from a model is another one.
-/

/-! ### JSON texts -/

namespace Data

variable {v x : Data} {xs : List Data} {tail : List Char} {parts : List String}

/-- A value that has a JSON text. -/
def Writes (v : Data) : Prop := ∀ depth, ∃ s, v.jsonAt {} depth [] = .ok s

namespace Writes

/-- Null can be written. -/
theorem null : Writes .null := fun _ => ⟨_, rfl⟩

/-- A text can be written. -/
theorem text (s : String) : Writes (.str s) := fun _ => ⟨_, rfl⟩

/-- Items that can be written are written one by one. -/
theorem items (h : ∀ x ∈ xs, x.Writes) (depth : Nat) :
    ∃ parts, jsonItems {} depth [] xs = .ok parts := by
  induction xs with
  | nil => exact ⟨[], rfl⟩
  | cons x xs ih =>
    obtain ⟨hx, hxs⟩ := List.forall_mem_cons.1 h
    obtain ⟨s, hs⟩ := hx depth
    obtain ⟨parts, hparts⟩ := ih hxs
    rw [jsonItems, hs, hparts]
    exact ⟨_, rfl⟩

/-- A list of what can be written can be written. -/
theorem list (h : ∀ x ∈ xs, x.Writes) : (Data.ofList xs).Writes := by
  intro depth
  cases xs with
  | nil => exact ⟨_, rfl⟩
  | cons x xs =>
    obtain ⟨parts, hparts⟩ := items h (depth + 1)
    refine ⟨JsonStyle.enclose {} depth "[" "]" parts, ?_⟩
    show (jsonItems {} (depth + 1) [] (x :: xs)).map _ = _
    rw [hparts]
    rfl

/-- So can a tuple. -/
theorem tuple (h : ∀ x ∈ xs, x.Writes) : (Data.ofTuple xs).Writes := by
  intro depth
  cases xs with
  | nil => exact ⟨_, rfl⟩
  | cons x xs =>
    obtain ⟨parts, hparts⟩ := items h (depth + 1)
    refine ⟨JsonStyle.enclose {} depth "[" "]" parts, ?_⟩
    show (jsonItems {} (depth + 1) [] (x :: xs)).map _ = _
    rw [hparts]
    rfl

end Writes

/-- The JSON text of a value, if it has one, ends in some characters. -/
def Ends (v : Data) (tail : List Char) : Prop :=
  ∀ depth s, v.jsonAt {} depth [] = .ok s → tail <:+ s.toList

namespace Ends

/-- Every text ends in nothing. -/
theorem any (v : Data) : v.Ends [] := fun _ _ _ => List.nil_suffix

/-- The text of null ends in its letters. -/
theorem null : Ends .null ['u', 'l', 'l'] := by
  rintro depth s ⟨⟩
  exact ⟨['n'], rfl⟩

/-- The text of an empty tuple is a pair of brackets. -/
theorem nil : (Data.ofTuple []).Ends ['[', ']'] := by
  rintro depth s ⟨⟩
  exact ⟨[], rfl⟩

/-- The text of the last item ends the texts of items. -/
theorem items (h : x.Ends tail) {depth : Nat}
    (hparts : jsonItems {} depth [] (xs ++ [x]) = .ok parts) :
    parts ≠ [] ∧ tail <:+ (", ".intercalate parts).toList := by
  -- The last item ends as the list does; the items in front of it only come before.
  induction xs generalizing parts with
  | nil =>
    cases hx : x.jsonAt {} depth [] with
    | error e =>
      rw [List.nil_append, jsonItems, hx] at hparts
      cases hparts
    | ok s =>
      rw [List.nil_append, jsonItems, hx] at hparts
      obtain rfl : [s] = parts := Except.ok.inj hparts
      rw [String.intercalate_singleton]
      exact ⟨List.cons_ne_nil _ _, h depth s hx⟩
  | cons y ys ih =>
    rw [List.cons_append, jsonItems] at hparts
    cases hy : y.jsonAt {} depth [] with
    | error e =>
      rw [hy] at hparts
      cases hparts
    | ok s =>
      cases hys : jsonItems {} depth [] (ys ++ [x]) with
      | error e =>
        rw [hy, hys] at hparts
        cases hparts
      | ok rest =>
        rw [hy, hys] at hparts
        obtain rfl : s :: rest = parts := Except.ok.inj hparts
        obtain ⟨hne, hsuffix⟩ := ih hys
        refine ⟨List.cons_ne_nil _ _, ?_⟩
        cases rest with
        | nil => exact absurd rfl hne
        | cons next rest =>
          rw [String.intercalate_cons_cons, String.toList_append]
          exact hsuffix.trans (List.suffix_append _ _)

variable (xs) in
/-- The text of a list ends in that of the last item and a bracket. -/
theorem enclosed (h : x.Ends tail) {depth depth' : Nat} {s : String}
    (hs : (jsonItems {} depth [] (xs ++ [x])).map (JsonStyle.enclose {} depth' "[" "]") = .ok s) :
    tail ++ [']'] <:+ s.toList := by
  cases hparts : jsonItems {} depth [] (xs ++ [x]) with
  | error e =>
    rw [hparts] at hs
    cases hs
  | ok parts =>
    rw [hparts] at hs
    obtain rfl := Except.ok.inj hs
    obtain ⟨front, hfront⟩ := (h.items hparts).2
    refine ⟨'[' :: front, ?_⟩
    rw [Json.enclose_items, String.toList_append, String.toList_append, ← hfront]
    simp

variable (xs) in
/-- The text of a list ends like its last item, and with a bracket. -/
theorem list (h : x.Ends tail) : (Data.ofList (xs ++ [x])).Ends (tail ++ [']']) := by
  intro depth s hs
  cases xs with
  | nil => exact h.enclosed [] hs
  | cons y ys => exact h.enclosed (y :: ys) hs

variable (xs) in
/-- The text of a tuple does, too. -/
theorem tuple (h : x.Ends tail) : (Data.ofTuple (xs ++ [x])).Ends (tail ++ [']']) := by
  intro depth s hs
  cases xs with
  | nil => exact h.enclosed [] hs
  | cons y ys => exact h.enclosed (y :: ys) hs

end Ends

end Data

/-! ### Ends of identities -/

namespace Groups

variable {default : String} {g : Data}

mutual

/-- Canonical forms have JSON texts. -/
theorem Canonical.writes (c : Canonical) : c.toData.Writes := by
  match c with
  | .unfiltered => exact .null
  | .filter names scopes =>
    have hnames : ∀ x ∈ names.map Data.str, x.Writes := by
      intro x hx
      obtain ⟨s, -, rfl⟩ := List.mem_map.1 hx
      exact .text s
    refine .tuple (List.forall_mem_cons.2 ⟨.tuple hnames, ?_⟩)
    exact List.forall_mem_singleton.2 (.tuple (writes_scopes scopes))

/-- Scopes can be written. -/
theorem writes_scopes (scopes : List (String × Canonical)) : ∀ x ∈ scopesData scopes, x.Writes := by
  match scopes with
  | [] => exact fun _ h => absurd h List.not_mem_nil
  | (k, c) :: scopes =>
    refine List.forall_mem_cons.2 ⟨.tuple ?_, writes_scopes scopes⟩
    exact List.forall_mem_cons.2 ⟨.text k, List.forall_mem_singleton.2 c.writes⟩

end

/-- Scopes are written pair by pair. -/
theorem scopesData_eq (scopes : List (String × Canonical)) :
    scopesData scopes = scopes.map fun e => .ofTuple [.str e.1, e.2.toData] := by
  induction scopes with
  | nil => rfl
  | cons e scopes ih => rw [scopesData, ih]; rfl

/-- A canonical form without scopes. -/
def Canonical.Flat (c : Canonical) : Prop := ∀ names scopes, c = .filter names scopes → scopes = []

/-- What identifies a model ends in four brackets, the first of which tells whether there are
    scopes. -/
theorem Canonical.ends_identity (c : Canonical) (class? : Option String) :
    (¬c.Flat → (Data.ofList [Model.nameData class?, c.toData]).Ends [']', ']', ']', ']']) ∧
      (c.Flat → (Data.ofList [Model.nameData class?, c.toData]).Ends ['u', 'l', 'l', ']'] ∨
        (Data.ofList [Model.nameData class?, c.toData]).Ends ['[', ']', ']', ']']) := by
  cases c with
  | unfiltered => exact ⟨fun h => absurd nofun h, fun _ => .inl (Data.Ends.null.list [_])⟩
  | filter names scopes =>
    refine ⟨fun h => ?_, fun h => .inr ?_⟩
    · have hne : scopes ≠ [] := fun hnil => h fun _ _ he => by
        cases he
        exact hnil
      obtain ⟨front, ⟨k, c⟩, rfl⟩ := (List.eq_nil_or_concat' scopes).resolve_left hne
      have hpair : (Data.ofTuple [.str k, c.toData]).Ends [']'] :=
        (Data.Ends.any _).tuple [_]
      have hscopes : (Data.ofTuple (scopesData (front ++ [(k, c)]))).Ends [']', ']'] := by
        rw [scopesData_eq, List.map_append]
        exact hpair.tuple _
      exact (hscopes.tuple [_]).list [_]
    · rw [h names scopes rfl]
      exact (Data.Ends.nil.tuple [_]).list [_]

/-- With a scope put among them there are scopes. -/
theorem putScope_ne_nil (k : String) (c : Canonical) (scopes : List (String × Canonical)) :
    putScope k c scopes ≠ [] := by
  unfold putScope
  split
  · exact List.cons_ne_nil _ _
  · split
    · exact List.cons_ne_nil _ _
    · split <;> exact List.cons_ne_nil _ _

/-- Collected scopes are none only where none are given. -/
theorem foldl_putScope_ne_nil {given acc : List (String × Canonical)}
    (h : given ≠ [] ∨ acc ≠ []) : given.foldl (fun acc e => putScope e.1 e.2 acc) acc ≠ [] := by
  induction given generalizing acc with
  | nil => exact h.resolve_left fun h => h rfl
  | cons e given ih => exact ih (.inr (putScope_ne_nil e.1 e.2 acc))

/-- Groups that give a scope have one in their canonical form. -/
theorem not_flat_canonical {property v : Data} (h : nested g property = some v) :
    ¬(canonical default g).Flat := by
  have hg : g ≠ .null := by
    rintro rfl
    cases h
  have hscopes : scopesOf default (entries g) ≠ [] := by
    obtain ⟨x, hx, hscope⟩ := List.exists_of_findSome?_eq_some h
    cases x with
    | map es mark =>
      obtain ⟨hget, -⟩ := Option.filter_eq_some_iff.1 hscope
      cases es with
      | nil => cases hget
      | cons e es =>
        have he : e ∈ scopeEntries (entries g) :=
          List.mem_flatMap.2 ⟨_, hx, List.mem_cons_self⟩
        rw [scopesOf_eq]
        exact List.ne_nil_of_mem (List.mem_map_of_mem he)
    | _ => cases hscope
  have hempty : (scopesOf default (entries g)).isEmpty = false := List.isEmpty_eq_false_iff.2 hscopes
  rw [canonical_eq hg, assemble, hempty]
  exact fun hflat => foldl_putScope_ne_nil (.inl hscopes) (hflat _ _ rfl)

/-- Names alone have no scopes. -/
theorem flat_canonical_normalized (g : Data) : (canonical default (normalized g)).Flat := by
  have hnone : scopesOf default (names g) = [] := by
    rw [scopesOf_eq, List.map_eq_nil_iff]
    refine List.flatMap_eq_nil_iff.2 fun x hx => ?_
    obtain ⟨-, hname⟩ := List.mem_filter.1 hx
    cases x with
    | map es mark => cases hname
    | _ => rfl
  have hnames : (canonical default (.ofList (names g))).Flat := by
    show (assemble default _ (scopesOf default (names g))).Flat
    rw [hnone, assemble]
    split
    · exact nofun
    · rintro _ _ ⟨⟩
      rfl
  unfold normalized normalize
  split
  · exact nofun
  · split
    · exact nofun
    · exact hnames

end Groups

/-! ### Models -/

namespace Model

open Groups

variable {m : Model} {property narrowed : Data}

/-- What identifies a model has a JSON text. -/
theorem json_identity (m : Model) : m.identity.json {} = .ok m.payload := by
  have hname : (nameData m.className?).Writes := by
    cases m.className? with
    | none => exact .null
    | some name => exact .text name
  obtain ⟨s, hs⟩ := Data.Writes.list (List.forall_mem_cons.2 ⟨hname,
    List.forall_mem_singleton.2 (canonical defaultGroup m.groups).writes⟩) 0
  have hs : m.identity.json {} = .ok s := hs
  rw [payload, hs]

/-- A model that is narrowed down from a model is identified by another text. -/
theorem payload_ne_of_nested (h : nested m.groups property = some narrowed) (name : String) :
    (ofClass name (normalized narrowed)).payload ≠ m.payload := by
  intro he
  have hscopes := ((canonical defaultGroup m.groups).ends_identity m.className?).1
    (not_flat_canonical h) 0 _ m.json_identity
  have hends := ((canonical defaultGroup (normalized narrowed)).ends_identity (some name)).2
    (flat_canonical_normalized narrowed)
  have hjson := (ofClass name (normalized narrowed)).json_identity
  rw [he] at hjson
  -- Two ends of one text that are as long as each other are the same.
  have hsame : ∀ tail, tail <:+ m.payload.toList → tail.length = 4 → tail = [']', ']', ']', ']'] :=
    fun tail htail hlength => (List.suffix_of_suffix_length_le htail hscopes
      (Nat.le_of_eq hlength)).eq_of_length hlength
  rcases hends with hnull | hnil
  · exact absurd (hsame _ (hnull 0 _ hjson) rfl) (by decide)
  · exact absurd (hsame _ (hnil 0 _ hjson) rfl) (by decide)

end Model

end ApiDoc
