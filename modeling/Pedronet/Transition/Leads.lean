import Pedronet.Transition

namespace Transition
namespace System
variable {S A : Type} {M : System S A} {G : S → A → Prop} {s t u : S}

variable (M) in
def Reaches (G : S → A → Prop) (s t : S) : Prop := ∃ as, M.Along G s as ∧ M.run s as = some t

variable (M) in
abbrev Leads (P : A → Prop) (s t : S) : Prop := M.Reaches (fun _ => P) s t

theorem along_append {as bs : List A} (ha : M.Along G s as) (h : M.run s as = some t)
    (hb : M.Along G t bs) : M.Along G s (as ++ bs) := by
  induction as generalizing s with
  | nil =>
    cases h
    exact hb
  | cons a as ih =>
    obtain ⟨r, hr, ht⟩ := run_cons h
    obtain ⟨hg, has⟩ := ha r hr
    exact along_cons hr hg (ih has ht)

theorem reaches_refl : M.Reaches G s s := ⟨[], trivial, rfl⟩

theorem reaches_step {a : A} (ha : G s a) (h : M.step s a = some t) : M.Reaches G s t :=
  ⟨[a], along_cons h ha trivial, by simp [run, h]⟩

theorem reaches_trans (h : M.Reaches G s t) (h' : M.Reaches G t u) : M.Reaches G s u := by
  obtain ⟨as, ha, hs⟩ := h
  obtain ⟨bs, hb, ht⟩ := h'
  exact ⟨as ++ bs, along_append ha hs hb, run_append.mpr ⟨t, hs, ht⟩⟩

theorem reaches_cons {a : A} (ha : G s a) (h : M.step s a = some t) (h' : M.Reaches G t u) :
    M.Reaches G s u := reaches_trans (reaches_step ha h) h'

theorem reaches_mono {F : S → A → Prop} (hm : ∀ s a, F s a → G s a) (h : M.Reaches F s t) :
    M.Reaches G s t := by
  obtain ⟨as, ha, hs⟩ := h
  exact ⟨as, along_mono hm ha, hs⟩

theorem reaches_invariant {I : S → Prop}
    (hI : ∀ s a t, I s → G s a → M.step s a = some t → I t) (hs : I s) (h : M.Reaches G s t) :
    I t := by
  obtain ⟨as, ha, hr⟩ := h
  exact run_invariant hI hs ha hr

-- Where some of these steps bring a measure down as long as the goal is away, they reach the goal.
theorem reaches_of_measure {I : S → Prop} {goal : S → Prop} (measure : S → Nat)
    (h : ∀ s, I s → ¬ goal s → ∃ t, M.Reaches G s t ∧ I t ∧ measure t < measure s)
    (hs : I s) : ∃ t, M.Reaches G s t ∧ I t ∧ goal t := by
  obtain ⟨n, hn⟩ : ∃ n, n = measure s := ⟨_, rfl⟩
  induction n using Nat.strongRecOn generalizing s with
  | ind n ih =>
    by_cases hg : goal s
    · exact ⟨s, reaches_refl, hs, hg⟩
    · obtain ⟨t, ht, hi, hlt⟩ := h s hs hg
      obtain ⟨u, hu, hiu, hgu⟩ := ih (measure t) (hn ▸ hlt) hi rfl
      exact ⟨u, reaches_trans ht hu, hiu, hgu⟩

end System
end Transition
