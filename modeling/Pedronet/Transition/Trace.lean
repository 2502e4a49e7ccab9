import Pedronet.Transition

namespace Transition
namespace System
variable {S A T B : Type} {M : System S A} {N : System T B}

variable (M) in
-- What a run shows: the labels of the steps it takes.
def trace (label : S → A → List B) : S → List A → List B
  | _, [] => []
  | s, a :: as =>
    label s a ++ match M.step s a with
      | some t => trace label t as
      | none => []

variable {label : S → A → List B}

theorem trace_cons {s t : S} {a : A} {as : List A} (h : M.step s a = some t) :
    M.trace label s (a :: as) = label s a ++ M.trace label t as := by
  rw [trace, h]

theorem trace_append {s t : S} {as bs : List A} (h : M.run s as = some t) :
    M.trace label s (as ++ bs) = M.trace label s as ++ M.trace label t bs := by
  induction as generalizing s with
  | nil =>
    cases h
    rfl
  | cons a as ih =>
    obtain ⟨u, hu, ht⟩ := run_cons h
    rw [List.cons_append, trace_cons hu, trace_cons hu, ih ht, List.append_assoc]

theorem mem_trace {P : B → Prop} {s : S} {as : List A} (h : ∀ a ∈ as, ∀ s, ∀ b ∈ label s a, P b) :
    ∀ b ∈ M.trace label s as, P b := by
  induction as generalizing s with
  | nil =>
    intro b hb
    cases hb
  | cons a as ih =>
    intro b hb
    rw [trace] at hb
    rcases List.mem_append.mp hb with hb | hb
    · exact h a List.mem_cons_self s b hb
    · split at hb
      · exact ih (fun a ha => h a (List.mem_cons_of_mem _ ha)) b hb
      · cases hb

theorem along_refines {R : S → T → Prop} {G : S → A → Prop}
    (hstep : ∀ s a t u, R s u → G s a → M.step s a = some t →
      ∃ v, N.run u (label s a) = some v ∧ R t v)
    {s t : S} {u : T} {as : List A} (hr : R s u) (hg : M.Along G s as) (h : M.run s as = some t) :
    ∃ v, N.run u (M.trace label s as) = some v ∧ R t v := by
  induction as generalizing s u with
  | nil =>
    cases h
    exact ⟨u, rfl, hr⟩
  | cons a as ih =>
    obtain ⟨r, hsr, hrt⟩ := run_cons h
    obtain ⟨ga, gas⟩ := hg r hsr
    obtain ⟨v, hv, hrv⟩ := hstep s a r u hr ga hsr
    obtain ⟨x, hx, htx⟩ := ih hrv gas hrt
    rw [trace_cons hsr]
    exact ⟨x, run_append.mpr ⟨v, hv, hx⟩, htx⟩

theorem run_refines {R : S → T → Prop}
    (hstep : ∀ s a t u, R s u → M.step s a = some t → ∃ v, N.run u (label s a) = some v ∧ R t v)
    {s t : S} {u : T} {as : List A} (hr : R s u) (h : M.run s as = some t) :
    ∃ v, N.run u (M.trace label s as) = some v ∧ R t v :=
  along_refines (fun s a t u hr _ hs => hstep s a t u hr hs) hr along_true h

theorem log_run {C : Type} {log : S → List C} {entries : B → List C}
    (hstep : ∀ s a t, M.step s a = some t → log t = log s ++ (label s a).flatMap entries)
    {s t : S} {as : List A} (h : M.run s as = some t) :
    log t = log s ++ (M.trace label s as).flatMap entries := by
  induction as generalizing s with
  | nil =>
    cases h
    exact (List.append_nil _).symm
  | cons a as ih =>
    obtain ⟨u, hu, ht⟩ := run_cons h
    rw [trace_cons hu, List.flatMap_append, ih ht, hstep s a u hu, List.append_assoc]

end System
end Transition
