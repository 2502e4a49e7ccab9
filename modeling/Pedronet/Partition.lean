import Mathlib.Data.List.Basic

namespace Partition
variable {α : Type} (p : α → Bool)

def splitLast : List α → Option (List α × α × List α)
  | [] => none
  | x :: xs =>
    match splitLast xs with
    | some (ys, y, zs) => some (x :: ys, y, zs)
    | none => if p x then some ([], x, xs) else none

-- The bidirectional form: the first rejected element changes places with the last accepted one behind it.
def partitionFuel : Nat → List α → List α
  | 0, l => l
  | _ + 1, [] => []
  | n + 1, x :: xs =>
    if p x then x :: partitionFuel n xs
    else
      match splitLast p xs with
      | none => x :: xs
      | some (ys, y, zs) => y :: partitionFuel n ys ++ x :: zs

def partition (l : List α) : List α := partitionFuel p l.length l

def Partitioned (l : List α) : Prop := l.Pairwise (fun a b => p b = true → p a = true)

variable {p}

theorem split_last_none {l : List α} (h : splitLast p l = none) : ∀ x ∈ l, p x = false := by
  induction l with
  | nil => intro x hx; cases hx
  | cons y ys ih =>
    simp only [splitLast] at h
    split at h
    · cases h
    · rename_i hys
      split_ifs at h with hy
      intro x hx
      rcases List.mem_cons.mp hx with rfl | hx
      · simpa using hy
      · exact ih hys x hx

theorem split_last_some {l ys zs : List α} {y : α} (h : splitLast p l = some (ys, y, zs)) :
    l = ys ++ y :: zs ∧ p y = true ∧ ∀ z ∈ zs, p z = false := by
  induction l generalizing ys with
  | nil => cases h
  | cons x xs ih =>
    simp only [splitLast] at h
    split at h
    · rename_i ys' y' zs' hxs
      cases h
      obtain ⟨hl, hy, hz⟩ := ih hxs
      exact ⟨by rw [hl, List.cons_append], hy, hz⟩
    · rename_i hxs
      split_ifs at h with hx
      cases h
      exact ⟨rfl, hx, split_last_none hxs⟩

theorem partition_fuel_perm (n : Nat) (l : List α) : (partitionFuel p n l).Perm l := by
  induction n generalizing l with
  | zero => exact .refl _
  | succ n ih =>
    cases l with
    | nil => exact .refl _
    | cons x xs =>
      simp only [partitionFuel]
      split_ifs with hx
      · exact (ih xs).cons x
      · split
        · exact .refl _
        · rename_i ys y zs hs
          obtain ⟨rfl, -, -⟩ := split_last_some hs
          have hx : (y :: ys ++ x :: zs).Perm (x :: (y :: ys ++ zs)) := List.perm_middle
          have hy : (y :: ys ++ zs).Perm (ys ++ y :: zs) := List.perm_middle.symm
          exact (((ih ys).cons y).append_right (x :: zs)).trans (hx.trans (hy.cons x))

theorem partition_perm (l : List α) : (partition p l).Perm l := partition_fuel_perm _ l

theorem partition_fuel_partitioned {n : Nat} {l : List α} (h : l.length ≤ n) :
    Partitioned p (partitionFuel p n l) := by
  induction n generalizing l with
  | zero =>
    have hl : l = [] := List.length_eq_zero_iff.mp (Nat.le_zero.mp h)
    subst hl
    exact .nil
  | succ n ih =>
    cases l with
    | nil => exact .nil
    | cons x xs =>
      simp only [List.length_cons, Nat.add_le_add_iff_right] at h
      simp only [partitionFuel]
      split_ifs with hx
      · exact List.pairwise_cons.mpr ⟨fun _ _ _ => hx, ih h⟩
      · split
        · rename_i hs
          have hnone := split_last_none hs
          refine List.pairwise_cons.mpr ⟨fun z hz hp => ?_, ?_⟩
          · exact absurd hp (by simp [hnone z hz])
          · exact List.pairwise_of_forall_mem_list fun a _ b hb hp => absurd hp (by simp [hnone b hb])
        · rename_i ys y zs hs
          obtain ⟨rfl, hy, hz⟩ := split_last_some hs
          have hlen : ys.length ≤ n := by simp only [List.length_append] at h; omega
          have hrest : ∀ b ∈ x :: zs, p b = false := by
            intro b hb
            rcases List.mem_cons.mp hb with rfl | hb
            · simpa using hx
            · exact hz b hb
          refine List.pairwise_cons.mpr ⟨fun _ _ _ => hy, ?_⟩
          refine List.pairwise_append.mpr ⟨ih hlen, ?_, ?_⟩
          · exact List.pairwise_of_forall_mem_list fun a _ b hb hp => absurd hp (by simp [hrest b hb])
          · exact fun a _ b hb hp => absurd hp (by simp [hrest b hb])

theorem partition_partitioned (l : List α) : Partitioned p (partition p l) :=
  partition_fuel_partitioned (Nat.le_refl _)

theorem partition_fuel_of_partitioned {n : Nat} {l : List α} (h : Partitioned p l) :
    partitionFuel p n l = l := by
  induction n generalizing l with
  | zero => rfl
  | succ n ih =>
    cases l with
    | nil => rfl
    | cons x xs =>
      obtain ⟨hx, hxs⟩ := List.pairwise_cons.mp h
      simp only [partitionFuel]
      split_ifs with hp
      · rw [ih hxs]
      · split
        · rfl
        · rename_i ys y zs hs
          obtain ⟨rfl, hy, -⟩ := split_last_some hs
          exact absurd (hx y (by simp) hy) hp

theorem partition_eq_iff {l : List α} : partition p l = l ↔ Partitioned p l :=
  ⟨fun h => h ▸ partition_partitioned l, partition_fuel_of_partitioned⟩

theorem take_partitioned {l : List α} (h : Partitioned p l) : l.take (l.countP p) = l.filter p := by
  induction l with
  | nil => rfl
  | cons x xs ih =>
    obtain ⟨hx, hxs⟩ := List.pairwise_cons.mp h
    by_cases hp : p x = true
    · rw [List.countP_cons_of_pos hp, List.filter_cons_of_pos hp, List.take_succ_cons, ih hxs]
    · have hnone : ∀ y ∈ x :: xs, ¬ p y = true := by
        intro y hy
        rcases List.mem_cons.mp hy with rfl | hy
        · exact hp
        · exact fun hpy => hp (hx y hy hpy)
      rw [List.countP_eq_zero.mpr hnone, List.filter_eq_nil_iff.mpr hnone, List.take_zero]

theorem take_partition_perm (l : List α) :
    ((partition p l).take (l.countP p)).Perm (l.filter p) := by
  rw [← (partition_perm l).countP_eq, take_partitioned (partition_partitioned l)]
  exact (partition_perm l).filter p

end Partition
