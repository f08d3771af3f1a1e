/-!
# GlyphField.Keyed

Lists kept in strictly increasing order of a key: a finite map that is listed in key order.
`insert` replaces an entry of the same key in place.

Main statements: `find?_insert` and `find?_erase` give the map after a change,
`Sorted.insert` and `Sorted.erase` keep the order, `length_insert` counts.
-/

namespace GlyphField.Keyed

variable {α κ : Type} [LT κ] [LE κ] [DecidableLT κ] [DecidableEq κ]

/-- The keys increase strictly. -/
def Sorted (key : α → κ) (l : List α) : Prop := l.Pairwise fun a b => key a < key b

/-- The entry with this key. -/
def find? (key : α → κ) (k : κ) (l : List α) : Option α := l.find? fun a => key a = k

/-- Puts an entry in its place; one with the same key gives way. -/
def insert (key : α → κ) (a : α) : List α → List α
  | [] => [a]
  | b :: bs =>
    if key a < key b then a :: b :: bs
    else if key a = key b then a :: bs
    else b :: insert key a bs

/-- Leaves out the entry with this key. -/
def erase (key : α → κ) (k : κ) (l : List α) : List α := l.filter fun a => key a ≠ k

/-! ## Membership -/

omit [LE κ] in
theorem mem_insert {key : α → κ} {a b : α} {l : List α} (h : b ∈ insert key a l) :
    b = a ∨ b ∈ l := by
  induction l with
  | nil => simpa [insert] using h
  | cons c cs ih =>
    simp only [insert] at h
    split at h
    · simpa using h
    · split at h
      · rcases List.mem_cons.1 h with h | h
        · exact .inl h
        · exact .inr (List.mem_cons_of_mem _ h)
      · rcases List.mem_cons.1 h with h | h
        · exact .inr (h ▸ List.mem_cons_self)
        · exact (ih h).imp id (List.mem_cons_of_mem _)

omit [LT κ] [LE κ] [DecidableLT κ] in
theorem find?_some_key {key : α → κ} {k : κ} {l : List α} {a : α} (h : find? key k l = some a) :
    key a = k := by
  simpa using List.find?_some h

omit [LT κ] [LE κ] [DecidableLT κ] in
theorem mem_of_find? {key : α → κ} {k : κ} {l : List α} {a : α} (h : find? key k l = some a) :
    a ∈ l :=
  List.mem_of_find?_eq_some h

/-! ## Look-up after a change -/

omit [LE κ] in
theorem find?_insert (key : α → κ) (a : α) (k : κ) (l : List α) :
    find? key k (insert key a l) = if key a = k then some a else find? key k l := by
  induction l with
  | nil => by_cases h : key a = k <;> simp [insert, find?, h]
  | cons b bs ih =>
    simp only [find?] at ih ⊢
    by_cases h : key a = k <;> by_cases hb : key b = k <;> grind [insert]

omit [LT κ] [LE κ] [DecidableLT κ] in
theorem find?_erase (key : α → κ) (k k' : κ) (l : List α) :
    find? key k (erase key k' l) = if k = k' then none else find? key k l := by
  induction l with
  | nil => simp [find?, erase]
  | cons b bs ih =>
    simp only [find?, erase] at ih ⊢
    by_cases h : key b = k' <;> by_cases hb : key b = k <;> grind

/-! ## Order -/

section Order

variable [Std.IsLinearOrder κ] [Std.LawfulOrderLT κ]

omit [DecidableLT κ] [DecidableEq κ] in
/-- Of two different keys one is the smaller. -/
theorem lt_of_not_lt_of_ne {a b : κ} (h : ¬a < b) (hne : a ≠ b) : b < a :=
  Std.lt_of_le_of_ne (Std.not_lt.1 h) (Ne.symm hne)

theorem Sorted.insert {key : α → κ} {l : List α} (h : Sorted key l) (a : α) :
    Sorted key (insert key a l) := by
  induction l with
  | nil => simp [Sorted, Keyed.insert]
  | cons b bs ih =>
    have hb : ∀ c ∈ bs, key b < key c := (List.pairwise_cons.1 h).1
    have hbs : Sorted key bs := (List.pairwise_cons.1 h).2
    simp only [Keyed.insert]
    split
    · rename_i hlt
      refine List.pairwise_cons.2 ⟨fun c hc => ?_, h⟩
      rcases List.mem_cons.1 hc with rfl | hc
      · exact hlt
      · exact Std.lt_trans hlt (hb c hc)
    · split
      · rename_i heq
        exact List.pairwise_cons.2 ⟨fun c hc => heq ▸ hb c hc, hbs⟩
      · rename_i hlt hne
        refine List.pairwise_cons.2 ⟨fun c hc => ?_, ih hbs⟩
        rcases mem_insert hc with rfl | hc
        · exact lt_of_not_lt_of_ne hlt hne
        · exact hb c hc

omit [LE κ] [DecidableLT κ] [Std.IsLinearOrder κ] [Std.LawfulOrderLT κ] in
theorem Sorted.erase {key : α → κ} {l : List α} (h : Sorted key l) (k : κ) :
    Sorted key (erase key k l) :=
  List.Pairwise.filter _ h

/-- An entry behind all others is put at the end. -/
theorem insert_eq_concat {key : α → κ} {a : α} {l : List α} (h : ∀ b ∈ l, key b < key a) :
    insert key a l = l ++ [a] := by
  induction l with
  | nil => rfl
  | cons b bs ih =>
    obtain ⟨hb, hbs⟩ := List.forall_mem_cons.1 h
    have hlt : ¬key a < key b := fun hab => Std.lt_irrefl (Std.lt_trans hab hb)
    have hne : key a ≠ key b := fun heq => Std.lt_irrefl (heq ▸ hb)
    rw [Keyed.insert, if_neg hlt, if_neg hne, ih hbs, List.cons_append]

/-- A new key makes the list longer by one, a known one keeps its length. -/
theorem length_insert {key : α → κ} {l : List α} (h : Sorted key l) (a : α) :
    (insert key a l).length = if (find? key (key a) l).isSome then l.length else l.length + 1 := by
  induction l with
  | nil => simp [Keyed.insert, find?]
  | cons b bs ih =>
    have hb : ∀ c ∈ bs, key b < key c := (List.pairwise_cons.1 h).1
    have hbs : Sorted key bs := (List.pairwise_cons.1 h).2
    simp only [Keyed.insert]
    split
    · rename_i hlt
      have hnone : find? key (key a) (b :: bs) = none := by
        simp only [find?, List.find?_eq_none, decide_eq_true_eq]
        intro c hc heq
        rcases List.mem_cons.1 hc with rfl | hc
        · exact Std.lt_irrefl (heq ▸ hlt)
        · exact Std.lt_irrefl (heq ▸ Std.lt_trans hlt (hb c hc))
      simp [hnone]
    · split
      · rename_i heq
        simp [find?, heq]
      · rename_i hne
        have hfind : find? key (key a) (b :: bs) = find? key (key a) bs := by
          simp [find?, Ne.symm hne]
        rw [hfind, List.length_cons, ih hbs]
        split <;> simp

end Order

end GlyphField.Keyed
