import Mathlib.Order.Lattice
import Mathlib.Data.List.Basic
import Mathlib.Data.Nat.Basic

structure OrderedMultimap (κ α : Type) [LinearOrder κ] where
  entries : List (κ × List α)
  sorted : entries.Pairwise (fun x y => x.1 < y.1)

namespace OrderedMultimap
variable {κ α : Type} [LinearOrder κ]

def empty : OrderedMultimap κ α := ⟨[], .nil⟩

def insertEntry (k : κ) (a : α) : List (κ × List α) → List (κ × List α)
  | [] => [(k, [a])]
  | (l, as) :: rest =>
    if k < l then (k, [a]) :: (l, as) :: rest
    else if k = l then (l, as ++ [a]) :: rest
    else (l, as) :: insertEntry k a rest

def Holds (m : OrderedMultimap κ α) (k : κ) (a : α) : Prop := ∃ as, (k, as) ∈ m.entries ∧ a ∈ as

def values (m : OrderedMultimap κ α) : List α := m.entries.flatMap Prod.snd

theorem insert_key {k : κ} {a : α} {es : List (κ × List α)} {e : κ × List α}
    (h : e ∈ insertEntry k a es) : e.1 = k ∨ ∃ f ∈ es, f.1 = e.1 := by
  induction es with
  | nil =>
    simp only [insertEntry, List.mem_singleton] at h
    exact .inl (h ▸ rfl)
  | cons x rest ih =>
    obtain ⟨l, as⟩ := x
    simp only [insertEntry] at h
    split_ifs at h with hlt heq
    · rcases List.mem_cons.mp h with rfl | h
      · exact .inl rfl
      · exact .inr ⟨e, h, rfl⟩
    · rcases List.mem_cons.mp h with rfl | h
      · exact .inl heq.symm
      · exact .inr ⟨e, List.mem_cons_of_mem _ h, rfl⟩
    · rcases List.mem_cons.mp h with rfl | h
      · exact .inr ⟨_, List.mem_cons_self, rfl⟩
      · exact (ih h).imp id fun ⟨f, hf, he⟩ => ⟨f, List.mem_cons_of_mem _ hf, he⟩

theorem insert_sorted {k : κ} {a : α} {es : List (κ × List α)}
    (h : es.Pairwise (fun x y => x.1 < y.1)) :
    (insertEntry k a es).Pairwise (fun x y => x.1 < y.1) := by
  induction es with
  | nil => exact List.pairwise_singleton _ _
  | cons x rest ih =>
    obtain ⟨l, as⟩ := x
    obtain ⟨hx, hrest⟩ := List.pairwise_cons.mp h
    simp only [insertEntry]
    split_ifs with hlt heq
    · refine List.pairwise_cons.mpr ⟨fun y hy => ?_, h⟩
      rcases List.mem_cons.mp hy with rfl | hy
      · exact hlt
      · exact lt_trans hlt (hx y hy)
    · exact List.pairwise_cons.mpr ⟨hx, hrest⟩
    · refine List.pairwise_cons.mpr ⟨fun y hy => ?_, ih hrest⟩
      rcases insert_key hy with hk | ⟨f, hf, he⟩
      · exact hk ▸ lt_of_le_of_ne (not_lt.mp hlt) (Ne.symm heq)
      · exact he ▸ hx f hf

def insert (m : OrderedMultimap κ α) (k : κ) (a : α) : OrderedMultimap κ α :=
  ⟨insertEntry k a m.entries, insert_sorted m.sorted⟩

def popMin (m : OrderedMultimap κ α) : Option (κ × List α × OrderedMultimap κ α) :=
  match m with
  | ⟨[], _⟩ => none
  | ⟨(k, as) :: rest, h⟩ => some (k, as, ⟨rest, (List.pairwise_cons.mp h).2⟩)

theorem holds_insert {m : OrderedMultimap κ α} {k l : κ} {a b : α} :
    (m.insert k a).Holds l b ↔ (l = k ∧ b = a) ∨ m.Holds l b := by
  obtain ⟨es, hs⟩ := m
  simp only [Holds, insert]
  clear hs
  induction es with
  | nil => simp [insertEntry]
  | cons x rest ih =>
    obtain ⟨j, as⟩ := x
    simp only [insertEntry]
    split_ifs with hlt heq
    · simp only [List.mem_cons, Prod.mk.injEq]
      constructor
      · rintro ⟨bs, ⟨rfl, rfl⟩ | h, hb⟩
        · exact .inl ⟨rfl, by simpa using hb⟩
        · exact .inr ⟨bs, h, hb⟩
      · rintro (⟨rfl, rfl⟩ | ⟨bs, h, hb⟩)
        · exact ⟨[b], .inl ⟨rfl, rfl⟩, by simp⟩
        · exact ⟨bs, .inr h, hb⟩
    · subst heq
      simp only [List.mem_cons, Prod.mk.injEq]
      constructor
      · rintro ⟨bs, ⟨rfl, rfl⟩ | h, hb⟩
        · rcases List.mem_append.mp hb with hb | hb
          · exact .inr ⟨as, .inl ⟨rfl, rfl⟩, hb⟩
          · exact .inl ⟨rfl, by simpa using hb⟩
        · exact .inr ⟨bs, .inr h, hb⟩
      · rintro (⟨rfl, rfl⟩ | ⟨bs, ⟨rfl, rfl⟩ | h, hb⟩)
        · exact ⟨as ++ [b], .inl ⟨rfl, rfl⟩, by simp⟩
        · exact ⟨bs ++ [a], .inl ⟨rfl, rfl⟩, by simp [hb]⟩
        · exact ⟨bs, .inr h, hb⟩
    · simp only [List.mem_cons, Prod.mk.injEq]
      constructor
      · rintro ⟨bs, ⟨rfl, rfl⟩ | h, hb⟩
        · exact .inr ⟨bs, .inl ⟨rfl, rfl⟩, hb⟩
        · exact (ih.mp ⟨bs, h, hb⟩).imp id fun ⟨cs, hc, hb⟩ => ⟨cs, .inr hc, hb⟩
      · rintro (h | ⟨bs, ⟨rfl, rfl⟩ | h, hb⟩)
        · obtain ⟨bs, hm, hb⟩ := ih.mpr (.inl h)
          exact ⟨bs, .inr hm, hb⟩
        · exact ⟨bs, .inl ⟨rfl, rfl⟩, hb⟩
        · obtain ⟨cs, hm, hb⟩ := ih.mpr (.inr ⟨bs, h, hb⟩)
          exact ⟨cs, .inr hm, hb⟩

theorem values_insert (m : OrderedMultimap κ α) (k : κ) (a : α) :
    (m.insert k a).values.Perm (a :: m.values) := by
  obtain ⟨es, hs⟩ := m
  simp only [values, insert]
  clear hs
  induction es with
  | nil => simp [insertEntry]
  | cons x rest ih =>
    obtain ⟨l, as⟩ := x
    simp only [insertEntry]
    split_ifs
    · simp
    · simp only [List.flatMap_cons, List.append_assoc, List.singleton_append]
      exact List.perm_middle
    · simp only [List.flatMap_cons]
      exact (ih.append_left as).trans List.perm_middle

theorem mem_values {m : OrderedMultimap κ α} {a : α} : a ∈ m.values ↔ ∃ k, m.Holds k a := by
  simp only [values, Holds, List.mem_flatMap, Prod.exists]

theorem pop_min_values {m rest : OrderedMultimap κ α} {k : κ} {as : List α}
    (h : m.popMin = some (k, as, rest)) : m.values = as ++ rest.values := by
  obtain ⟨_ | ⟨⟨l, bs⟩, es⟩, hs⟩ := m
  · cases h
  · cases h
    rfl

theorem pop_min_holds {m rest : OrderedMultimap κ α} {k : κ} {as : List α}
    (h : m.popMin = some (k, as, rest)) {l : κ} {a : α} :
    m.Holds l a ↔ (l = k ∧ a ∈ as) ∨ rest.Holds l a := by
  obtain ⟨_ | ⟨⟨j, bs⟩, es⟩, hs⟩ := m
  · cases h
  · cases h
    simp only [Holds, List.mem_cons, Prod.mk.injEq]
    constructor
    · rintro ⟨cs, ⟨rfl, rfl⟩ | hm, ha⟩
      · exact .inl ⟨rfl, ha⟩
      · exact .inr ⟨cs, hm, ha⟩
    · rintro (⟨rfl, ha⟩ | ⟨cs, hm, ha⟩)
      · exact ⟨_, .inl ⟨rfl, rfl⟩, ha⟩
      · exact ⟨cs, .inr hm, ha⟩

def upTo (m : OrderedMultimap κ α) (r : κ) : List (κ × List α) :=
  m.entries.filter fun e => e.1 ≤ r

theorem up_to_pop_min {m rest : OrderedMultimap κ α} {k r : κ} {as : List α}
    (h : m.popMin = some (k, as, rest)) (hk : k ≤ r) : m.upTo r = (k, as) :: rest.upTo r := by
  obtain ⟨_ | ⟨⟨l, bs⟩, es⟩, hs⟩ := m
  · cases h
  · cases h
    simp only [upTo, List.filter_cons, hk, decide_true, if_true]

theorem up_to_insert {k r : κ} (h : r < k) (m : OrderedMultimap κ α) (a : α) :
    (m.insert k a).upTo r = m.upTo r := by
  obtain ⟨es, hs⟩ := m
  simp only [upTo, insert]
  clear hs
  have hk : ¬ k ≤ r := not_le.mpr h
  induction es with
  | nil => simp [insertEntry, hk]
  | cons x rest ih =>
    obtain ⟨l, as⟩ := x
    simp only [insertEntry]
    split_ifs with hlt heq
    · simp only [List.filter_cons, hk, decide_false, Bool.false_eq_true, if_false]
    · simp only [List.filter_cons, ← heq, hk, decide_false, Bool.false_eq_true, if_false]
    · simp only [List.filter_cons, ih]

theorem pop_min_none {m : OrderedMultimap κ α} (h : m.popMin = none) {l : κ} {a : α} :
    ¬ m.Holds l a := by
  obtain ⟨_ | ⟨⟨j, bs⟩, es⟩, hs⟩ := m
  · rintro ⟨as, hm, -⟩
    cases hm
  · cases h

theorem pop_min_le {m rest : OrderedMultimap κ α} {k : κ} {as : List α}
    (h : m.popMin = some (k, as, rest)) {l : κ} {a : α} (hl : m.Holds l a) : k ≤ l := by
  obtain ⟨_ | ⟨⟨j, bs⟩, es⟩, hs⟩ := m
  · cases h
  · cases h
    obtain ⟨cs, hm, -⟩ := hl
    rcases List.mem_cons.mp hm with he | hm
    · cases he
      exact le_rfl
    · exact le_of_lt ((List.pairwise_cons.mp hs).1 _ hm)

end OrderedMultimap
