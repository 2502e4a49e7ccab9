import Mathlib.Data.List.Basic
import Mathlib.Data.List.Nodup
import Mathlib.Data.List.Perm.Lattice

namespace Keyed
variable {α κ : Type} [DecidableEq κ] (key : α → κ)

def lookup (l : List α) (k : κ) : Option α := l.find? fun a => key a == k

variable {key} {l : List α} {a : α} {k : κ}

theorem lookup_mem (h : lookup key l k = some a) : a ∈ l ∧ key a = k := by
  rw [lookup, List.find?_eq_some_iff_append] at h
  obtain ⟨hk, before, after, rfl, -⟩ := h
  exact ⟨List.mem_append_right _ List.mem_cons_self, by simpa using hk⟩

theorem lookup_eq_some (hn : (l.map key).Nodup) :
    lookup key l k = some a ↔ a ∈ l ∧ key a = k := by
  refine ⟨lookup_mem, fun ⟨hm, hk⟩ => ?_⟩
  cases h : lookup key l k with
  | none =>
    rw [lookup, List.find?_eq_none] at h
    exact absurd hk (by simpa using h a hm)
  | some b =>
    obtain ⟨hb, hkb⟩ := lookup_mem h
    rw [List.inj_on_of_nodup_map hn hb hm (hkb.trans hk.symm)]

theorem lookup_eq_none : lookup key l k = none ↔ k ∉ l.map key := by
  rw [lookup, List.find?_eq_none]
  simp only [beq_iff_eq, List.mem_map, not_exists, not_and]

theorem lookup_isSome : (lookup key l k).isSome = true ↔ k ∈ l.map key := by
  rw [← Option.ne_none_iff_isSome, ne_eq, lookup_eq_none, not_not]

theorem lookup_append (ha : key a ∉ l.map key) :
    lookup key (l ++ [a]) k = if k = key a then some a else lookup key l k := by
  rw [lookup, List.find?_append]
  split
  · rename_i hk
    have hnone : lookup key l k = none := lookup_eq_none.mpr (hk ▸ ha)
    rw [show l.find? (fun a => key a == k) = none from hnone]
    simp [hk]
  · rename_i hk
    have hne : ¬ key a = k := fun he => hk he.symm
    simp [lookup, hne]

theorem lookup_map {f : α → α} (hf : ∀ a, key (f a) = key a) :
    lookup key (l.map f) k = (lookup key l k).map f := by
  rw [lookup, List.find?_map]
  simp only [lookup, Function.comp_def, hf]

theorem lookup_filter (k' : κ) :
    lookup key (l.filter fun a => key a ≠ k') k = if k = k' then none else lookup key l k := by
  rw [lookup, List.find?_filter]
  split
  · rename_i hk
    rw [List.find?_eq_none]
    intro a _
    simp [hk]
  · rename_i hk
    rw [lookup]
    congr 1
    funext a
    by_cases ha : key a = k <;> simp [ha, hk]

end Keyed
