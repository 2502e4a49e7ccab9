import Pedronet.TimerHashWheel.Placed

namespace Pedronet
namespace TimerHashWheel

theorem le_iff_round_slot {n t u : Nat} (h : t / n ≤ u / n) :
    t ≤ u ↔ t / n < u / n ∨ t % n ≤ u % n := by
  have ht := Nat.div_add_mod t n
  have hu := Nat.div_add_mod u n
  rcases Nat.lt_or_eq_of_le h with hlt | heq
  · exact ⟨fun _ => .inl hlt, fun _ => Nat.le_of_lt (Nat.lt_of_div_lt_div hlt)⟩
  · rw [heq] at ht
    constructor
    · intro hle; right; omega
    · rintro (hlt | hle)
      · omega
      · omega

variable (o : Options)

def NotEarly (w : World) : Prop := ∀ f ∈ w.fired, getTicks o f.expire ≤ getTicks o f.now

instance : DecidablePred (NotEarly o) := fun _ => List.decidableBAll _ _

def Pc.Reached : Pc → Prop
  | .invoke now timer _ _ todo =>
    ∀ i ∈ todo.head?, timer.rounds < getRounds o now ∨ i ≤ bucketOf o now
  | _ => True

instance : DecidablePred (Pc.Reached o)
  | .invoke _ _ _ _ _ => inferInstanceAs (Decidable (∀ i ∈ _, _))
  | .idle | .scan _ _ | .entries _ _ _ | .claimed _ _ _ _ _ | .callback _ _ _ => isTrue trivial

def Reached (w : World) (a : Action) : Prop := a = .invoke → w.pc.Reached o

instance (w : World) : DecidablePred (Reached o w) := fun _ => inferInstanceAs (Decidable (_ → _))

variable {o} {w t : World}

theorem due_iff {now due : Int} {rounds : Nat} {todo : List Nat} (h : Due o now todo due)
    (hr : rounds = getRounds o due) :
    getTicks o due ≤ getTicks o now ↔
      rounds < getRounds o now ∨ bucketOf o due ≤ bucketOf o now := by
  subst hr
  exact le_iff_round_slot h.2

theorem fired_same {a : Action} (h : step o w a = some t) (ha : a ≠ .invoke) :
    t.fired = w.fired := by
  cases step_moves h with
  | @advance index pc hi => cases pc <;> rfl
  | invoke hpc => exact absurd rfl ha
  | _ => rfl

theorem reached_iff (p : Placed o w) {now due : Int} {timer : Entry} {ids todo : List Nat}
    (hpc : w.pc = .invoke now timer due ids todo) :
    Reached o w .invoke ↔ getTicks o due ≤ getTicks o now := by
  obtain ⟨-, hdue, hr⟩ := taken_at p hpc
  simp only [Reached, forall_const, hpc, Pc.Reached, hdue.1, Option.mem_def, Option.some.injEq,
    forall_eq', ← due_iff hdue hr]

theorem not_early_step {a : Action} (p : Placed o w) (hn : NotEarly o w)
    (h : step o w a = some t) : NotEarly o t ↔ Reached o w a := by
  by_cases ha : a = .invoke
  · subst ha
    cases step_moves h with
    | @invoke now due timer ids todo hpc =>
      rw [reached_iff p hpc]
      constructor
      · intro hall
        exact hall ⟨timer.id, due, now⟩ List.mem_cons_self
      · intro hle f hf
        rcases List.mem_cons.mp hf with rfl | hf
        · exact hle
        · exact hn f hf
  · refine ⟨fun _ hi => absurd hi ha, fun _ => ?_⟩
    rw [NotEarly, fired_same h ha]
    exact hn

theorem fires_on_tick_iff (o : Options) (clock : Int) (as : List Action) :
    (system o).Always (NotEarly o) (World.init clock) as ↔
      (system o).Along (Reached o) (World.init clock) as :=
  Transition.System.always_iff_along (M := system o) (F := fun _ _ => True)
    (fun _ _ _ p _ h => placed_step p h) (fun _ _ _ p hn _ h => not_early_step p hn h)
    (placed_init clock) (fun f hf => by cases hf) Transition.System.along_true

theorem fires_early :
    ¬ ∀ o clock as, (system o).Always (NotEarly o) (World.init clock) as := by
  intro h
  have := h ⟨100, 4, by decide, by decide⟩ 300
    [.add 400 0, .advance 0, .advance 0, .advance 0, .elapse 100, .process, .pop, .claim, .rearm,
      .invoke]
  revert this
  decide

-- Only a scan that leaves the round of `now` can meet a later bucket of that round.
theorem scanned_within_round {last now : Int} {i : Nat} (hle : getTicks o last ≤ getTicks o now)
    (hr : getRounds o last = getRounds o now) (hi : i ∈ scanned o last now) : i ≤ bucketOf o now := by
  have h1 := Nat.div_add_mod (getTicks o last) o.buckets
  have h2 := Nat.div_add_mod (getTicks o now) o.buckets
  have hlt := Nat.mod_lt (getTicks o now) o.buckets_pos
  simp only [getRounds] at hr
  rw [hr] at h1
  have hspan : getTicks o now - getTicks o last < o.buckets := by omega
  have hb : getTicks o last % o.buckets ≤ getTicks o now % o.buckets := by omega
  simp only [scanned, if_pos hspan, if_pos hb, List.mem_range'_1] at hi
  simp only [bucketOf]
  omega

end TimerHashWheel
end Pedronet
