namespace Pool
variable {α β : Type}

-- A pool lists the calls in progress; a step moves one of them on or drops it when it returns.
theorem split {pool : List α} {index : Nat} {a : α} (h : pool[index]? = some a) :
    ∃ before after, pool = before ++ a :: after ∧
      (∀ b, pool.set index b = before ++ b :: after) ∧ pool.eraseIdx index = before ++ after := by
  induction pool generalizing index with
  | nil => simp at h
  | cons x rest ih =>
    cases index with
    | zero =>
      simp only [List.getElem?_cons_zero, Option.some.injEq] at h
      exact ⟨[], rest, by simp [h], by simp, by simp⟩
    | succ index =>
      obtain ⟨before, after, hl, hs, he⟩ := ih (by simpa using h)
      exact ⟨x :: before, after, by simp [hl], by simp [hs], by simp [he]⟩

theorem mem_set {pool : List α} {index : Nat} {a b c : α} (h : pool[index]? = some a)
    (hc : c ∈ pool.set index b) : c = b ∨ c ∈ pool := by
  obtain ⟨before, after, hl, hs, -⟩ := split h
  rw [hs b] at hc
  rw [hl]
  simp only [List.mem_append, List.mem_cons] at hc ⊢
  rcases hc with hc | hc | hc
  · exact .inr (.inl hc)
  · exact .inl hc
  · exact .inr (.inr (.inr hc))

theorem mem_set_self {pool : List α} {index : Nat} {a b : α} (h : pool[index]? = some a) :
    b ∈ pool.set index b := by
  obtain ⟨before, after, -, hs, -⟩ := split h
  simp [hs b]

theorem map_set {pool : List α} {index : Nat} {a b : α} (f : α → β) (h : pool[index]? = some a)
    (hb : f b = f a) : (pool.set index b).map f = pool.map f := by
  obtain ⟨before, after, hl, hs, -⟩ := split h
  rw [hs b, hl]
  simp [hb]

theorem mem_set_apart {pool : List α} {index : Nat} {a b c : α} {f : α → β}
    (hn : (pool.map f).Nodup) (h : pool[index]? = some a) (hc : c ∈ pool.set index b) :
    c = b ∨ c ∈ pool ∧ f c ≠ f a := by
  obtain ⟨before, after, hl, hs, -⟩ := split h
  rw [hl, List.map_append, List.map_cons, List.perm_middle.nodup_iff, List.nodup_cons] at hn
  rw [hs b] at hc
  have hapart : c ∈ before ∨ c ∈ after → c ∈ pool ∧ f c ≠ f a := by
    intro hm
    have hm' : c ∈ before ++ after := List.mem_append.mpr hm
    refine ⟨?_, fun he => hn.1 ?_⟩
    · rw [hl]
      rcases hm with hm | hm
      · exact List.mem_append_left _ hm
      · exact List.mem_append_right _ (List.mem_cons_of_mem _ hm)
    · rw [← he, ← List.map_append]
      exact List.mem_map_of_mem hm'
  rcases List.mem_append.mp hc with hm | hm
  · exact .inr (hapart (.inl hm))
  · rcases List.mem_cons.mp hm with rfl | hm
    · exact .inl rfl
    · exact .inr (hapart (.inr hm))

theorem flat_map_set {pool : List α} {index : Nat} {a b : α} (f : α → List β)
    (h : pool[index]? = some a) :
    ((pool.set index b).flatMap f ++ f a).Perm (f b ++ pool.flatMap f) := by
  obtain ⟨before, after, hl, hs, -⟩ := split h
  rw [hs b, hl]
  simp only [List.flatMap_append, List.flatMap_cons, List.append_assoc]
  have h1 : (f b ++ (after.flatMap f ++ f a)).Perm (f b ++ (f a ++ after.flatMap f)) :=
    List.perm_append_comm.append_left _
  exact (h1.append_left _).trans (List.perm_append_comm_assoc _ _ _)

theorem flat_map_erase {pool : List α} {index : Nat} {a : α} (f : α → List β)
    (h : pool[index]? = some a) : ((pool.eraseIdx index).flatMap f).Sublist (pool.flatMap f) := by
  obtain ⟨before, after, hl, -, he⟩ := split h
  rw [he, hl]
  simp only [List.flatMap_append, List.flatMap_cons]
  exact (List.sublist_append_right _ _).append_left _

theorem flat_map_erase_perm {pool : List α} {index : Nat} {a : α} (f : α → List β)
    (h : pool[index]? = some a) : (f a ++ (pool.eraseIdx index).flatMap f).Perm (pool.flatMap f) := by
  obtain ⟨before, after, hl, -, he⟩ := split h
  rw [he, hl]
  simp only [List.flatMap_append, List.flatMap_cons]
  exact List.perm_append_comm_assoc _ _ _

theorem count_set {pool : List α} {index : Nat} {a b : α} (p : α → Bool)
    (h : pool[index]? = some a) :
    (pool.set index b).countP p + (if p a then 1 else 0) =
      pool.countP p + (if p b then 1 else 0) := by
  obtain ⟨before, after, hl, hs, -⟩ := split h
  rw [hs b, hl]
  simp only [List.countP_append, List.countP_cons]
  omega

theorem count_erase {pool : List α} {index : Nat} {a : α} (p : α → Bool)
    (h : pool[index]? = some a) :
    (pool.eraseIdx index).countP p + (if p a then 1 else 0) = pool.countP p := by
  obtain ⟨before, after, hl, -, he⟩ := split h
  rw [he, hl]
  simp only [List.countP_append, List.countP_cons]
  omega

def replace (pool : List α) (index : Nat) : Option α → List α
  | some a => pool.set index a
  | none => pool.eraseIdx index

theorem count_replace {pool : List α} {index : Nat} {a : α} (p : α → Bool) (next : Option α)
    (h : pool[index]? = some a) :
    (replace pool index next).countP p + (if p a then 1 else 0) =
      pool.countP p + next.toList.countP p := by
  cases next with
  | none => simpa [replace] using count_erase p h
  | some b => simpa [replace, List.countP_cons] using count_set (b := b) p h

theorem mem_replace {pool : List α} {index : Nat} {a c : α} {next : Option α}
    (h : pool[index]? = some a) (hc : c ∈ replace pool index next) :
    next = some c ∨ c ∈ pool := by
  cases next with
  | none => exact .inr (List.mem_of_mem_eraseIdx hc)
  | some b => exact (mem_set h hc).imp_left fun he => by rw [he]

theorem mem_replace_of_ne {pool : List α} {index : Nat} {a c : α} {next : Option α}
    (h : pool[index]? = some a) (hc : c ∈ pool) (hne : c ≠ a) : c ∈ replace pool index next := by
  obtain ⟨before, after, hl, hs, he⟩ := split h
  rw [hl] at hc
  have hrest : c ∈ before ∨ c ∈ after := by simpa [hne] using hc
  cases next with
  | none => simpa [replace, he] using hrest
  | some b =>
    simp only [replace, hs b, List.mem_append, List.mem_cons]
    exact hrest.imp_right .inr

theorem mem_replace_self {pool : List α} {index : Nat} {a b : α} (h : pool[index]? = some a) :
    b ∈ replace pool index (some b) := mem_set_self h

end Pool
