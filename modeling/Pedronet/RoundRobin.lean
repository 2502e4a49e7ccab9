namespace RoundRobin

def bit (p : Prop) [Decidable p] : Nat := if p then 1 else 0

def share (n i m : Nat) : Nat := m / n + bit (i < m % n)

def wrapped (size n i m : Nat) : Nat := m / size * share n i size + share n i (m % size)

variable {n i j : Nat}

theorem div_mod_of_eq {m r q : Nat} (hr : r < n) (hm : m = r + n * q) : m / n = q ∧ m % n = r := by
  rw [hm, Nat.add_mul_div_left _ _ (Nat.lt_of_le_of_lt (Nat.zero_le r) hr),
    Nat.add_mul_mod_self_left, Nat.div_eq_of_lt hr, Nat.mod_eq_of_lt hr]
  exact ⟨Nat.zero_add q, rfl⟩

theorem succ_cases (hn : 0 < n) (m : Nat) :
    (m % n + 1 < n ∧ (m + 1) / n = m / n ∧ (m + 1) % n = m % n + 1) ∨
      (m % n + 1 = n ∧ (m + 1) / n = m / n + 1 ∧ (m + 1) % n = 0) := by
  have hm := Nat.mod_add_div m n
  rcases Nat.lt_or_ge (m % n + 1) n with hlt | hge
  · exact .inl ⟨hlt, div_mod_of_eq hlt (by omega)⟩
  · have hlast : m % n + 1 = n := Nat.le_antisymm (Nat.mod_lt m hn) hge
    exact .inr ⟨hlast, div_mod_of_eq hn (by rw [Nat.mul_succ]; omega)⟩

theorem share_zero (n i : Nat) : share n i 0 = 0 := by
  simp [share, bit]

theorem share_succ (hi : i < n) (m : Nat) : share n i (m + 1) = share n i m + bit (m % n = i) := by
  rcases succ_cases (Nat.lt_of_le_of_lt (Nat.zero_le i) hi) m with ⟨-, hd, hm⟩ | ⟨hlast, hd, hm⟩
  · simp only [share, bit, hd, hm]
    split <;> split <;> split <;> omega
  · simp only [share, bit, hd, hm]
    split <;> split <;> split <;> omega

theorem wrapped_small {size m : Nat} (h : m < size) : wrapped size n i m = share n i m := by
  rw [wrapped, Nat.div_eq_of_lt h, Nat.mod_eq_of_lt h, Nat.zero_mul, Nat.zero_add]

theorem wrapped_succ {size : Nat} (hs : 0 < size) (hi : i < n) (m : Nat) :
    wrapped size n i (m + 1) = wrapped size n i m + bit (m % size % n = i) := by
  have hshare := share_succ hi (m % size)
  rcases succ_cases hs m with ⟨-, hd, hm⟩ | ⟨hlast, hd, hm⟩
  · simp only [wrapped, hd, hm]
    omega
  · rw [hlast] at hshare
    simp only [wrapped, hd, hm, share_zero, Nat.succ_mul]
    omega

theorem share_order (h : i ≤ j) (m : Nat) :
    share n j m ≤ share n i m ∧ share n i m ≤ share n j m + bit (m % n ≠ 0) := by
  simp only [share, bit]
  split <;> split <;> split <;> omega

theorem bit_le (p : Prop) [Decidable p] : bit p ≤ 1 := by
  unfold bit
  split <;> omega

theorem wrapped_order (h : i ≤ j) (size m : Nat) :
    wrapped size n j m ≤ wrapped size n i m ∧
      wrapped size n i m ≤ wrapped size n j m + m / size * bit (size % n ≠ 0) + 1 := by
  obtain ⟨hj, hi⟩ := share_order (n := n) h size
  obtain ⟨hj', hi'⟩ := share_order (n := n) h (m % size)
  have hlow := Nat.mul_le_mul_left (m / size) hj
  have hhigh := Nat.mul_le_mul_left (m / size) hi
  have hone := bit_le (m % size % n ≠ 0)
  rw [Nat.mul_add] at hhigh
  simp only [wrapped]
  omega

theorem wrapped_balanced {size start count a b : Nat}
    (ha : a + share n i start = wrapped size n i (start + count))
    (hb : b + share n j start = wrapped size n j (start + count)) :
    a ≤ b + (start + count) / size * bit (size % n ≠ 0) + 1 := by
  have hone := bit_le (start % n ≠ 0)
  rcases Nat.le_total i j with h | h
  all_goals
    have hstart := share_order (n := n) h start
    have hend := wrapped_order (n := n) h size (start + count)
    generalize (start + count) / size * bit (size % n ≠ 0) = wraps at hend ⊢
    omega

end RoundRobin
