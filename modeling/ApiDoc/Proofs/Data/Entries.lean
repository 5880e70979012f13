import ApiDoc.Data.Basic

namespace ApiDoc

/-!
# Values and entries of mappings

* `Data.str?_eq_some`, `Data.node?_eq_some` — what a text or a node is read from;
* `Data.same_str_iff`, `Data.identical_str_iff` — a text is equal to itself only;
* `mem_of_lookup` — what is looked up in a list of pairs stands in it;
* `Entries.mem_of_get?`, `Entries.mem_insert` — what is found among entries, and what setting an
  entry leaves of them;
* `Entries.text?_append`, `Entries.text?_names`, … — what stands under a text;
* `Entries.Distinct`, `Entries.update_eq_append` — entries under distinct texts, and entries set
  under texts that are not there.
-/

/-! ### Texts and nodes -/

/-- Only a text is equal to a text. -/
theorem Scalar.alike_str_iff {x : Scalar} {s : String} : x.alike (.str s) = true ↔ x = .str s := by
  cases x <;> simp [alike, integer?]

namespace Data

/-- A value is a text if it has the form of one. -/
theorem str?_eq_some {v : Data} {s : String} : v.str? = some s ↔ v = .str s := by
  cases v with
  | scalar x => cases x <;> simp [str?]
  | _ => simp [str?]

/-- A value is unset if it is the mark of this. -/
theorem isUnset_iff {v : Data} : v.isUnset = true ↔ v = .unset := by
  cases v <;> simp [isUnset]

/-- A value is a node if it has the form of one. -/
theorem node?_eq_some {v : Data} {i : NodeId} : v.node? = some i ↔ v = .node i := by
  cases v <;> simp [node?]

/-- Only a text is equal to a text. -/
theorem alike_str_iff {v : Data} {s : String} : v.alike (.str s) = true ↔ v = .str s := by
  cases v with
  | scalar x => simpa [alike] using Scalar.alike_str_iff
  | _ => simp [alike, same]

/-- The same for equality as parts of a container. -/
theorem same_str_iff {v : Data} {s : String} : v.same (.str s) = true ↔ v = .str s := by
  cases v with
  | scalar x =>
    have hsame : x.same (.str s) = x.alike (.str s) := by cases x <;> rfl
    simpa [same, hsame] using Scalar.alike_str_iff
  | _ => simp [same]

/-- The same for equality of type and value. -/
theorem identical_str_iff {v : Data} {s : String} : v.identical (.str s) = true ↔ v = .str s := by
  rw [identical, Bool.and_eq_true, alike_str_iff]
  exact ⟨And.right, fun h => ⟨by rw [h]; exact beq_self_eq_true _, h⟩⟩

end Data

/-! ### Entries -/

/-- What is looked up in a list of pairs stands in it, under the key. -/
theorem mem_of_lookup {α β : Type} [BEq α] [LawfulBEq α] {l : List (α × β)} {a : α} {b : β}
    (h : l.lookup a = some b) : (a, b) ∈ l := by
  obtain ⟨before, after, hsplit, -⟩ := List.lookup_eq_some_iff.1 h
  rw [hsplit]
  exact List.mem_append_right _ List.mem_cons_self

namespace Entries

/-- A value that is found is that of an entry. -/
theorem mem_of_get? {es : Entries} {k v : Data} (h : es.get? k = some v) :
    ∃ e ∈ es, e.2 = v := by
  induction es with
  | nil => exact nomatch h
  | cons p rest ih =>
    obtain ⟨k', v'⟩ := p
    unfold Entries.get? at h
    split at h
    · exact ⟨_, List.mem_cons_self, Option.some.inj h⟩
    · obtain ⟨e, he, hv⟩ := ih h
      exact ⟨e, List.mem_cons_of_mem _ he, hv⟩

/-- After an entry is put in, each is one of before or has its value. -/
theorem mem_insert {es : Entries} {k v : Data} {e : Data × Data} (h : e ∈ es.insert k v) :
    e ∈ es ∨ e.2 = v := by
  induction es with
  | nil => exact .inr (by rw [List.mem_singleton.1 h])
  | cons p rest ih =>
    obtain ⟨k', v'⟩ := p
    unfold Entries.insert at h
    split at h
    · rcases List.mem_cons.1 h with rfl | h
      · exact .inr rfl
      · exact .inl (List.mem_cons_of_mem _ h)
    · rcases List.mem_cons.1 h with rfl | h
      · exact .inl List.mem_cons_self
      · exact (ih h).imp_left (List.mem_cons_of_mem _)

/-- The keys that setting an entry leaves. -/
theorem key_of_mem_insert {es : Entries} {k v : Data} {e : Data × Data} (h : e ∈ es.insert k v) :
    (∃ f ∈ es, f.1 = e.1) ∨ e.1 = k := by
  induction es with
  | nil => exact .inr (by rw [List.mem_singleton.1 h])
  | cons p rest ih =>
    obtain ⟨k', v'⟩ := p
    unfold Entries.insert at h
    split at h
    · rcases List.mem_cons.1 h with rfl | h
      · exact .inl ⟨_, List.mem_cons_self, rfl⟩
      · exact .inl ⟨e, List.mem_cons_of_mem _ h, rfl⟩
    · rcases List.mem_cons.1 h with rfl | h
      · exact .inl ⟨_, List.mem_cons_self, rfl⟩
      · exact (ih h).imp_left fun ⟨f, hf, hk⟩ => ⟨f, List.mem_cons_of_mem _ hf, hk⟩

/-! ### Entries under texts -/

variable {es fs : Entries} {s : String} {v : Data}

/-- The first row of entries that has a key counts. -/
theorem get?_append (es fs : Entries) (k : Data) :
    Entries.get? (es ++ fs) k = (es.get? k).or (fs.get? k) := by
  induction es with
  | nil => rfl
  | cons e es ih =>
    obtain ⟨k', v'⟩ := e
    rw [List.cons_append, Entries.get?, Entries.get?]
    split
    · rfl
    · exact ih

/-- The same for a key that is a text. -/
theorem text?_append (es fs : Entries) (s : String) :
    Entries.text? (es ++ fs) s = (es.text? s).or (fs.text? s) :=
  get?_append es fs _

/-- The first entry counts under its own text. -/
theorem text?_cons_self : Entries.text? ((.str s, v) :: es) s = some v := by
  rw [Entries.text?, Entries.get?, if_pos (Data.same_str_iff.2 rfl)]

/-- The first entry does not count under another text. -/
theorem text?_cons_of_ne {e : Data × Data} (h : e.1 ≠ .str s) :
    Entries.text? (e :: es) s = es.text? s := by
  rw [Entries.text?, Entries.get?, if_neg fun he => h (Data.same_str_iff.1 he)]

/-- A value that is found under a text is that of an entry. -/
theorem mem_of_text? (h : es.text? s = some v) : (Data.str s, v) ∈ es := by
  induction es with
  | nil => exact nomatch h
  | cons e es ih =>
    obtain ⟨k, w⟩ := e
    by_cases hk : k = .str s
    · subst hk
      rw [text?_cons_self] at h
      exact Option.some.inj h ▸ List.mem_cons_self
    · rw [text?_cons_of_ne hk] at h
      exact List.mem_cons_of_mem _ (ih h)

/-- Nothing is found under a text that is no key. -/
theorem text?_eq_none_iff : es.text? s = none ↔ ∀ e ∈ es, e.1 ≠ .str s := by
  induction es with
  | nil => exact ⟨fun _ _ h => absurd h List.not_mem_nil, fun _ => rfl⟩
  | cons e es ih =>
    obtain ⟨k, w⟩ := e
    by_cases hk : k = .str s
    · subst hk
      simp [text?_cons_self]
    · rw [text?_cons_of_ne hk, ih]
      simp [hk]

/-- What stands under a text is found among any entries that keep it. -/
theorem text?_filter {p : Data × Data → Bool} (h : ∀ v, p (.str s, v) = true) :
    Entries.text? (es.filter p) s = es.text? s := by
  induction es with
  | nil => rfl
  | cons e es ih =>
    obtain ⟨k, w⟩ := e
    by_cases hk : k = .str s
    · subst hk
      rw [List.filter_cons_of_pos (h w), text?_cons_self, text?_cons_self]
    · rw [text?_cons_of_ne hk, ← ih, List.filter_cons]
      split
      · exact text?_cons_of_ne hk
      · rfl

/-- What stands under names, written in some way that tells them apart. -/
theorem text?_names {names : List String} {write : String → String} {f : String → Option Data}
    {name : String} (hwrite : ∀ other ∈ names, write other = write name → other = name) :
    Entries.text? (names.filterMap fun n => (f n).map fun v => (Data.str (write n), v)) (write name)
      = if name ∈ names then f name else none := by
  induction names with
  | nil => rfl
  | cons n names ih =>
    have ih := ih fun other hother => hwrite other (List.mem_cons_of_mem _ hother)
    rw [List.filterMap_cons]
    by_cases hn : n = name
    · subst hn
      rw [if_pos List.mem_cons_self]
      cases hf : f n with
      | none =>
        -- Nothing stands under the name further on either.
        rw [Option.map_none]
        refine ih.trans ?_
        rw [hf, ite_self]
      | some v => exact text?_cons_self
    · have hmem : name ∈ n :: names ↔ name ∈ names := by simp [Ne.symm hn]
      have hne : write n ≠ write name := fun he => hn (hwrite n List.mem_cons_self he)
      simp only [hmem]
      cases f n with
      | none => exact ih
      | some v =>
        refine (text?_cons_of_ne ?_).trans ih
        simpa using hne

/-- Entries whose keys are texts, no two of them the same. -/
def Distinct (es : Entries) : Prop :=
  (∀ e ∈ es, ∃ s : String, e.1 = .str s) ∧ es.Pairwise fun e f => e.1 ≠ f.1

/-- No entries have distinct texts for keys. -/
theorem Distinct.nil : Distinct [] := ⟨fun _ h => absurd h List.not_mem_nil, .nil⟩

/-- Keys are distinct without the first entry, too. -/
theorem Distinct.tail {e : Data × Data} (h : Distinct (e :: es)) : Distinct es :=
  ⟨fun f hf => h.1 f (List.mem_cons_of_mem _ hf), (List.pairwise_cons.1 h.2).2⟩

/-- Some of the entries have distinct keys, too. -/
theorem Distinct.filter (h : es.Distinct) (p : Data × Data → Bool) :
    Distinct (es.filter p) :=
  ⟨fun e he => h.1 e (List.mem_filter.1 he).1, h.2.filter p⟩

/-- Two rows of entries without a key in common. -/
theorem Distinct.append (hes : es.Distinct) (hfs : fs.Distinct)
    (h : ∀ e ∈ es, ∀ f ∈ fs, e.1 ≠ f.1) : Distinct (es ++ fs) :=
  ⟨fun e he => (List.mem_append.1 he).elim (hes.1 e) (hfs.1 e),
    List.pairwise_append.2 ⟨hes.2, hfs.2, h⟩⟩

/-- Under distinct texts every entry is found. -/
theorem Distinct.text?_eq_some_iff (h : es.Distinct) :
    es.text? s = some v ↔ (Data.str s, v) ∈ es := by
  refine ⟨mem_of_text?, fun hmem => ?_⟩
  induction es with
  | nil => exact absurd hmem List.not_mem_nil
  | cons e es ih =>
    rcases List.mem_cons.1 hmem with rfl | hmem
    · exact text?_cons_self
    · rw [text?_cons_of_ne ((List.pairwise_cons.1 h.2).1 _ hmem)]
      exact ih h.tail hmem

/-- An entry under a new key comes last. -/
theorem insert_eq_append (h : ∀ e ∈ es, e.1 ≠ .str s) (v : Data) :
    es.insert (.str s) v = es ++ [(.str s, v)] := by
  induction es with
  | nil => rfl
  | cons e es ih =>
    obtain ⟨k, w⟩ := e
    have hk : ¬k.same (.str s) = true := fun he => h _ List.mem_cons_self (Data.same_str_iff.1 he)
    rw [Entries.insert, if_neg hk, ih fun e he => h e (List.mem_cons_of_mem _ he)]
    rfl

/-- What is found after an entry is put in: its value, and elsewhere what was there. -/
theorem text?_insert (es : Entries) (s : String) (v : Data) (other : String) :
    (es.insert (.str s) v).text? other = if other = s then some v else es.text? other := by
  have hhead : ∀ (w : Data) (es : Entries), Entries.text? ((.str s, w) :: es) other
      = if other = s then some w else es.text? other := by
    intro w es
    split
    · rename_i he
      rw [he, text?_cons_self]
    · rename_i hne
      exact text?_cons_of_ne fun he => hne (by simpa using he.symm)
  induction es with
  | nil => exact hhead v []
  | cons e es ih =>
    obtain ⟨k, w⟩ := e
    unfold Entries.insert
    split
    · rename_i hk
      rw [Data.same_str_iff.1 hk, hhead, hhead]
      split <;> rfl
    · rename_i hk
      by_cases he : k = .str other
      · subst he
        have hne : other ≠ s := fun he => hk (by rw [he]; exact Data.same_str_iff.2 rfl)
        rw [text?_cons_self, text?_cons_self, if_neg hne]
      · rw [text?_cons_of_ne he, text?_cons_of_ne he, ih]

/-- Entries set under texts that are not there come to the end. -/
theorem update_eq_append (hfs : fs.Distinct) (h : ∀ e ∈ es, ∀ f ∈ fs, e.1 ≠ f.1) :
    es.update fs = es ++ fs := by
  induction fs generalizing es with
  | nil => exact (List.append_nil es).symm
  | cons f fs ih =>
    obtain ⟨s, hs⟩ := hfs.1 f List.mem_cons_self
    have hinsert : es.insert f.1 f.2 = es ++ [f] := by
      rw [hs, insert_eq_append fun e he => hs ▸ h e he f List.mem_cons_self, ← hs]
    show Entries.update (es.insert f.1 f.2) fs = _
    rw [hinsert, ih hfs.tail, List.append_assoc, List.singleton_append]
    intro e he g hg
    rcases List.mem_append.1 he with he | he
    · exact h e he g (List.mem_cons_of_mem _ hg)
    · rw [List.mem_singleton.1 he]
      exact (List.pairwise_cons.1 hfs.2).1 g hg

/-- An entry put in leaves keys distinct. -/
theorem Distinct.insert (h : es.Distinct) (s : String) (v : Data) :
    Distinct (es.insert (.str s) v) := by
  induction es with
  | nil => exact ⟨fun e he => ⟨s, by rw [List.mem_singleton.1 he]⟩, List.pairwise_singleton _ _⟩
  | cons e es ih =>
    obtain ⟨k, w⟩ := e
    obtain ⟨hhead, htail⟩ := List.pairwise_cons.1 h.2
    unfold Entries.insert
    split
    · refine ⟨List.forall_mem_cons.2 ⟨?_, h.tail.1⟩, List.pairwise_cons.2 ⟨hhead, htail⟩⟩
      exact h.1 (k, w) List.mem_cons_self
    · rename_i hk
      have hnext := ih h.tail
      refine ⟨fun f hf => ?_, List.pairwise_cons.2 ⟨fun f hf => ?_, hnext.2⟩⟩
      · rcases List.mem_cons.1 hf with rfl | hf
        · exact h.1 _ List.mem_cons_self
        · exact hnext.1 f hf
      · rcases key_of_mem_insert hf with ⟨g, hg, hkey⟩ | hkey
        · rw [← hkey]
          exact hhead g hg
        · rw [hkey]
          exact fun he => hk (Data.same_str_iff.2 he)

/-- Pairs with texts for keys leave entries under distinct texts. -/
theorem ofPairs_distinct (h : ∀ e ∈ es, ∃ s : String, e.1 = .str s) :
    Distinct (Entries.ofPairs es) := by
  suffices hgen : ∀ acc : Entries, acc.Distinct → Distinct (acc.update es) from hgen [] .nil
  induction es with
  | nil => exact fun _ hacc => hacc
  | cons e es ih =>
    obtain ⟨⟨s, hs⟩, h⟩ := List.forall_mem_cons.1 h
    intro acc hacc
    refine ih h (acc.insert e.1 e.2) ?_
    rw [hs]
    exact hacc.insert s e.2

/-- The values that pairs leave are among theirs. -/
theorem mem_ofPairs {e : Data × Data} (h : e ∈ Entries.ofPairs es) : ∃ f ∈ es, f.2 = e.2 := by
  suffices hgen : ∀ acc : Entries, e ∈ acc.update es → e ∈ acc ∨ ∃ f ∈ es, f.2 = e.2 from
    (hgen [] h).resolve_left List.not_mem_nil
  clear h
  induction es with
  | nil => exact fun _ he => .inl he
  | cons f es ih =>
    intro acc he
    rcases ih (acc.insert f.1 f.2) he with he | ⟨g, hg, hv⟩
    · exact (mem_insert he).imp_right fun hv => ⟨f, List.mem_cons_self, hv.symm⟩
    · exact .inr ⟨g, List.mem_cons_of_mem _ hg, hv⟩

/-- A mapping of some pairs has entries. -/
theorem ofPairs_ne_nil (h : es ≠ []) : Entries.ofPairs es ≠ [] := by
  have hinsert : ∀ (acc : Entries) (k v : Data), acc.insert k v ≠ [] := by
    intro acc k v
    unfold Entries.insert
    split
    · exact List.cons_ne_nil _ _
    · split <;> exact List.cons_ne_nil _ _
  have hupdate : ∀ (more acc : Entries), acc ≠ [] → acc.update more ≠ [] := by
    intro more
    induction more with
    | nil => exact fun _ hacc => hacc
    | cons e more ih => exact fun acc _ => ih _ (hinsert acc e.1 e.2)
  cases es with
  | nil => exact absurd rfl h
  | cons e es => exact hupdate es _ (hinsert [] e.1 e.2)

/-- Pairs with distinct keys are the entries of their mapping. -/
theorem ofPairs_eq (h : es.Distinct) : Entries.ofPairs es = es :=
  update_eq_append h fun _ he => absurd he List.not_mem_nil

end Entries

end ApiDoc
