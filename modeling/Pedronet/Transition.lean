namespace Transition

structure System (S A : Type) where
  start : S → Prop
  step : S → A → Option S

namespace System
variable {S A : Type} (M : System S A)

def run : S → List A → Option S
  | s, [] => some s
  | s, a :: as => (M.step s a).bind fun t => run t as

def Along (G : S → A → Prop) : S → List A → Prop
  | _, [] => True
  | s, a :: as => ∀ t, M.step s a = some t → G s a ∧ Along G t as

def Always (P : S → Prop) : S → List A → Prop
  | s, [] => P s
  | s, a :: as => P s ∧ ∀ t, M.step s a = some t → Always P t as

def decidableAlong {G : S → A → Prop} [∀ s a, Decidable (G s a)] :
    (s : S) → (as : List A) → Decidable (M.Along G s as)
  | _, [] => isTrue trivial
  | s, a :: as =>
    match h : M.step s a with
    | none => isTrue (by simp [Along, h])
    | some t =>
      have := decidableAlong (G := G) t as
      decidable_of_iff (G s a ∧ M.Along G t as) (by simp [Along, h])

instance {G : S → A → Prop} [∀ s a, Decidable (G s a)] (s : S) (as : List A) :
    Decidable (M.Along G s as) := M.decidableAlong s as

def decidableAlways {P : S → Prop} [DecidablePred P] :
    (s : S) → (as : List A) → Decidable (M.Always P s as)
  | s, [] => inferInstanceAs (Decidable (P s))
  | s, a :: as =>
    match h : M.step s a with
    | none => decidable_of_iff (P s) (by simp [Always, h])
    | some t =>
      have := decidableAlways (P := P) t as
      decidable_of_iff (P s ∧ M.Always P t as) (by simp [Always, h])

instance {P : S → Prop} [DecidablePred P] (s : S) (as : List A) :
    Decidable (M.Always P s as) := M.decidableAlways s as

inductive Reachable : S → Prop
  | start {s : S} : M.start s → Reachable s
  | step {s t : S} {a : A} : Reachable s → M.step s a = some t → Reachable t

variable {M}

theorem run_cons {s u : S} {a : A} {as : List A} (h : M.run s (a :: as) = some u) :
    ∃ t, M.step s a = some t ∧ M.run t as = some u := by
  simpa [run, Option.bind_eq_some_iff] using h

theorem run_append {s u : S} {as bs : List A} :
    M.run s (as ++ bs) = some u ↔ ∃ t, M.run s as = some t ∧ M.run t bs = some u := by
  induction as generalizing s with
  | nil => simp [run]
  | cons a as ih =>
    simp only [List.cons_append, run, Option.bind_eq_some_iff, ih]
    constructor
    · rintro ⟨v, hv, t, ht, hu⟩
      exact ⟨t, ⟨v, hv, ht⟩, hu⟩
    · rintro ⟨t, ⟨v, hv, ht⟩, hu⟩
      exact ⟨v, hv, t, ht, hu⟩

theorem reachable_run {s u : S} {as : List A} (hs : M.Reachable s)
    (h : M.run s as = some u) : M.Reachable u := by
  induction as generalizing s with
  | nil => cases h; exact hs
  | cons a as ih =>
    obtain ⟨t, ht, hu⟩ := run_cons h
    exact ih (hs.step ht) hu

theorem invariant {I : S → Prop} (hs : ∀ s, M.start s → I s)
    (hI : ∀ s a t, I s → M.step s a = some t → I t) {s : S} (h : M.Reachable s) : I s := by
  induction h with
  | start h => exact hs _ h
  | step _ ht ih => exact hI _ _ _ ih ht

theorem run_invariant {I : S → Prop} {G : S → A → Prop}
    (hI : ∀ s a t, I s → G s a → M.step s a = some t → I t) {s u : S} {as : List A}
    (hs : I s) (hg : M.Along G s as) (h : M.run s as = some u) : I u := by
  induction as generalizing s with
  | nil => cases h; exact hs
  | cons a as ih =>
    obtain ⟨t, ht, hu⟩ := run_cons h
    obtain ⟨ga, gas⟩ := hg t ht
    exact ih (hI s a t hs ga ht) gas hu

theorem run_simulated {T B : Type} {N : System T B} {R : S → T → Prop}
    (hstep : ∀ s a t u, R s u → M.step s a = some t → ∃ bs v, N.run u bs = some v ∧ R t v)
    {s t : S} {u : T} {as : List A} (hr : R s u) (h : M.run s as = some t) :
    ∃ bs v, N.run u bs = some v ∧ R t v := by
  induction as generalizing s u with
  | nil =>
    cases h
    exact ⟨[], u, rfl, hr⟩
  | cons a as ih =>
    obtain ⟨r, hsr, hrt⟩ := run_cons h
    obtain ⟨bs, v, hb, hv⟩ := hstep s a r u hr hsr
    obtain ⟨cs, x, hc, hx⟩ := ih hv hrt
    exact ⟨bs ++ cs, x, run_append.mpr ⟨v, hb, hc⟩, hx⟩

theorem along_initial {G : S → A → Prop} {s : S} {as bs : List A} (h : M.Along G s as)
    (hb : bs <+: as) : M.Along G s bs := by
  obtain ⟨cs, rfl⟩ := hb
  induction bs generalizing s with
  | nil => trivial
  | cons b bs ih =>
    intro t ht
    obtain ⟨gb, gbs⟩ := h t ht
    exact ⟨gb, ih gbs⟩

theorem always_of_run {P : S → Prop} {s : S} {as : List A}
    (h : ∀ bs t, bs <+: as → M.run s bs = some t → P t) : M.Always P s as := by
  induction as generalizing s with
  | nil => exact h [] s List.prefix_rfl rfl
  | cons a as ih =>
    refine ⟨h [] s (List.nil_prefix) rfl, fun t ht => ih fun bs u hbs hu => ?_⟩
    exact h (a :: bs) u (by simpa using hbs) (by simp [run, ht, hu])

theorem always_head {P : S → Prop} {s : S} {as : List A} (h : M.Always P s as) : P s := by
  cases as with
  | nil => exact h
  | cons _ _ => exact h.1

theorem always_last {P : S → Prop} {s u : S} {as : List A}
    (h : M.Always P s as) (hu : M.run s as = some u) : P u := by
  induction as generalizing s with
  | nil => cases hu; exact h
  | cons a as ih =>
    obtain ⟨t, ht, hu⟩ := run_cons hu
    exact ih (h.2 t ht) hu

-- Where a step keeps `P` exactly when it meets `G`, a run stays in `P` exactly when it meets `G` throughout.
theorem always_iff_along {I P : S → Prop} {F G : S → A → Prop}
    (hI : ∀ s a t, I s → F s a → M.step s a = some t → I t)
    (hP : ∀ s a t, I s → P s → F s a → M.step s a = some t → (P t ↔ G s a))
    {s : S} {as : List A} (hs : I s) (hp : P s) (hf : M.Along F s as) :
    M.Always P s as ↔ M.Along G s as := by
  induction as generalizing s with
  | nil => exact ⟨fun _ => trivial, fun _ => hp⟩
  | cons a as ih =>
    constructor
    · rintro ⟨-, h⟩ t ht
      obtain ⟨fa, fas⟩ := hf t ht
      have hpt := always_head (h t ht)
      exact ⟨(hP s a t hs hp fa ht).mp hpt, (ih (hI s a t hs fa ht) hpt fas).mp (h t ht)⟩
    · intro h
      refine ⟨hp, fun t ht => ?_⟩
      obtain ⟨fa, fas⟩ := hf t ht
      obtain ⟨ga, gas⟩ := h t ht
      have hpt := (hP s a t hs hp fa ht).mpr ga
      exact (ih (hI s a t hs fa ht) hpt fas).mpr gas

theorem last_iff_along {I P : S → Prop} {G : S → A → Prop}
    (hI : ∀ s a t, I s → M.step s a = some t → I t)
    (hP : ∀ s a t, I s → M.step s a = some t → (P t ↔ P s ∧ G s a))
    {s u : S} {as : List A} (hs : I s) (h : M.run s as = some u) :
    P u ↔ P s ∧ M.Along G s as := by
  induction as generalizing s with
  | nil => cases h; simp [Along]
  | cons a as ih =>
    obtain ⟨t, ht, hu⟩ := run_cons h
    rw [ih (hI s a t hs ht) hu, hP s a t hs ht]
    constructor
    · rintro ⟨⟨hp, hg⟩, has⟩
      refine ⟨hp, fun t' ht' => ?_⟩
      cases ht.symm.trans ht'
      exact ⟨hg, has⟩
    · rintro ⟨hp, has⟩
      exact ⟨⟨hp, (has t ht).1⟩, (has t ht).2⟩

theorem always_of_along {I P : S → Prop} {G : S → A → Prop}
    (hI : ∀ s a t, I s → G s a → M.step s a = some t → I t) (hP : ∀ s, I s → P s) {s : S}
    {as : List A} (hs : I s) (hg : M.Along G s as) : M.Always P s as := by
  refine always_of_run fun bs t hbs ht => hP t ?_
  exact run_invariant hI hs (along_initial hg hbs) ht

theorem along_and {F G : S → A → Prop} {s : S} {as : List A} (hf : M.Along F s as)
    (hg : M.Along G s as) : M.Along (fun s a => F s a ∧ G s a) s as := by
  induction as generalizing s with
  | nil => trivial
  | cons a as ih =>
    intro t ht
    obtain ⟨fa, fas⟩ := hf t ht
    obtain ⟨ga, gas⟩ := hg t ht
    exact ⟨⟨fa, ga⟩, ih fas gas⟩

theorem along_of_forall {G : A → Prop} {s : S} {as : List A} (h : ∀ a ∈ as, G a) :
    M.Along (fun _ a => G a) s as := by
  induction as generalizing s with
  | nil => trivial
  | cons a as ih =>
    exact fun t _ => ⟨h a List.mem_cons_self, ih fun b hb => h b (List.mem_cons_of_mem _ hb)⟩

theorem along_mono {F G : S → A → Prop} (h : ∀ s a, F s a → G s a) {s : S} {as : List A}
    (hf : M.Along F s as) : M.Along G s as := by
  induction as generalizing s with
  | nil => trivial
  | cons a as ih =>
    intro t ht
    obtain ⟨fa, fas⟩ := hf t ht
    exact ⟨h s a fa, ih fas⟩

theorem along_iff_along {I : S → Prop} {F G : S → A → Prop}
    (hI : ∀ s a t, I s → G s a → M.step s a = some t → I t)
    (hG : ∀ s a t, I s → M.step s a = some t → (F s a ↔ G s a)) {s : S} {as : List A}
    (hs : I s) : M.Along F s as ↔ M.Along G s as := by
  induction as generalizing s with
  | nil => exact Iff.rfl
  | cons a as ih =>
    constructor
    · intro h t ht
      obtain ⟨fa, fas⟩ := h t ht
      have ga := (hG s a t hs ht).mp fa
      exact ⟨ga, (ih (hI s a t hs ga ht)).mp fas⟩
    · intro h t ht
      obtain ⟨ga, gas⟩ := h t ht
      exact ⟨(hG s a t hs ht).mpr ga, (ih (hI s a t hs ga ht)).mpr gas⟩

theorem along_of_along {I : S → Prop} {F G : S → A → Prop}
    (hI : ∀ s a t, I s → G s a → M.step s a = some t → I t)
    (hF : ∀ s a t, I s → G s a → M.step s a = some t → F s a) {s : S} {as : List A} (hs : I s)
    (hg : M.Along G s as) : M.Along F s as := by
  induction as generalizing s with
  | nil => trivial
  | cons a as ih =>
    intro t ht
    obtain ⟨ga, gas⟩ := hg t ht
    exact ⟨hF s a t hs ga ht, ih (hI s a t hs ga ht) gas⟩

theorem along_of_always {P : S → Prop} {s : S} {as : List A} (h : M.Always P s as) :
    M.Along (fun s a => P s ∧ ∀ t, M.step s a = some t → P t) s as := by
  induction as generalizing s with
  | nil => trivial
  | cons a as ih =>
    intro t ht
    exact ⟨⟨h.1, fun u hu => always_head (h.2 u hu)⟩, ih (h.2 t ht)⟩

theorem along_last {G : S → A → Prop} {s u v : S} {as : List A} {a : A}
    (h : M.Along G s (as ++ [a])) (hu : M.run s as = some u) (hv : M.step u a = some v) :
    G u a := by
  induction as generalizing s with
  | nil =>
    cases hu
    exact (h v hv).1
  | cons b as ih =>
    obtain ⟨t, ht, hu⟩ := run_cons hu
    exact ih (h t ht).2 hu

theorem along_cons {G : S → A → Prop} {s t : S} {a : A} {as : List A} (h : M.step s a = some t)
    (ha : G s a) (has : M.Along G t as) : M.Along G s (a :: as) := by
  intro u hu
  cases h.symm.trans hu
  exact ⟨ha, has⟩

theorem along_true {s : S} {as : List A} : M.Along (fun _ _ => True) s as :=
  along_of_forall fun _ _ => trivial

end System
end Transition
