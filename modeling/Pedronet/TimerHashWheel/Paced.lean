import Pedronet.TimerHashWheel.Serves
import Pedronet.TimerHashWheel.NotEarly

namespace Pedronet
namespace TimerHashWheel
variable {o : Options} {w t u : World}

def World.turns (w : World) (id : Nat) : List Fired := w.fired.filter fun f => f.id = id

-- Each invocation was due an interval after the time that Process read for the one before; less
-- than `early` can be gained at each.
structure InTurn (early : Int) (id : Nat) (expired interval : Int) (w : World) : Prop where
  linked : TimerService.Linked expired interval ((w.turns id).map Fired.taken)
  once : interval ≤ 0 → (w.turns id).length ≤ 1
  apart : ∀ f earlier, f :: earlier <:+ w.turns id →
    expired + earlier.length * interval < f.now + (earlier.length + 1) * early
  read : ∀ f ∈ w.turns id, f.now ≤ w.clock

theorem ticks_early {due now : Int} (h0 : 0 ≤ now) (h : getTicks o due ≤ getTicks o now) :
    due < now + o.tick := by
  have hn := Int.ediv_nonneg h0 (Int.le_of_lt o.tick_pos)
  have hle : due / o.tick ≤ now / o.tick := by
    simp only [getTicks] at h
    omega
  have h1 := Int.lt_ediv_add_one_mul_self due o.tick_pos
  have h2 := Int.mul_le_mul_of_nonneg_right hle (Int.le_of_lt o.tick_pos)
  have h3 := Int.ediv_mul_le now (Int.ne_of_gt o.tick_pos)
  rw [Int.add_mul, Int.one_mul] at h1
  omega

theorem rounds_early {due now : Int} (h0 : 0 ≤ now) (h : getRounds o due ≤ getRounds o now) :
    due < now + o.tick * o.buckets := by
  have hd : getTicks o due < getTicks o due / o.buckets * o.buckets + o.buckets :=
    Nat.lt_div_mul_add o.buckets_pos
  have hn := Nat.div_mul_le_self (getTicks o now) o.buckets
  have hle := Nat.mul_le_mul_right o.buckets h
  have hlt : getTicks o due < getTicks o now + o.buckets := by
    simp only [getRounds] at hle
    omega
  have hnow := Int.ediv_nonneg h0 (Int.le_of_lt o.tick_pos)
  have hticks : due / o.tick + 1 ≤ now / o.tick + o.buckets := by
    simp only [getTicks] at hlt
    omega
  have h1 := Int.lt_ediv_add_one_mul_self due o.tick_pos
  have h2 := Int.mul_le_mul_of_nonneg_right hticks (Int.le_of_lt o.tick_pos)
  have h3 := Int.ediv_mul_le now (Int.ne_of_gt o.tick_pos)
  rw [Int.add_mul _ (o.buckets : Int), Int.mul_comm (o.buckets : Int)] at h2
  omega

theorem turns_map (w : World) (id : Nat) :
    (w.turns id).map Fired.taken = TimerService.turns id (w.fired.map Fired.taken) := by
  rw [World.turns, TimerService.turns, List.filter_map]
  rfl

theorem turns_suffix {s : TimerService} (v : Serves w s) (id : Nat) :
    (w.turns id).map Fired.taken <:+ TimerService.turns id s.taken := by
  rw [turns_map, v.taken, World.taken, List.map_append, TimerService.turns, TimerService.turns,
    List.filter_append]
  exact List.suffix_append _ _

theorem in_turn {s : TimerService} {early clock expired interval : Int} {id : Nat}
    (v : Serves w s) (d : s.Sound (policy o) clock) (f : s.Follows id expired interval)
    (he : ∀ x ∈ w.fired, x.expire < x.now + early) : InTurn early id expired interval w := by
  have hs := turns_suffix v id
  have hlinked := TimerService.linked_suffix f.linked hs
  have hmem {x : Fired} (hx : x ∈ w.turns id) : x ∈ w.fired := List.mem_of_mem_filter hx
  refine ⟨hlinked, fun hi => ?_, fun x earlier hx => ?_, fun x hx => ?_⟩
  · have hlen := hs.length_le
    rw [List.length_map] at hlen
    by_cases hnil : TimerService.turns id s.taken = []
    · rw [hnil] at hlen
      exact Nat.le_trans hlen (Nat.zero_le _)
    · exact Nat.le_trans hlen (Nat.le_of_eq (f.once hi hnil).2)
  · have hearly : ∀ y ∈ (w.turns id).map Fired.taken, y.due < y.time + early := by
      intro y hy
      obtain ⟨z, hz, rfl⟩ := List.mem_map.mp hy
      exact he z (hmem hz)
    have happart := TimerService.linked_apart hlinked hearly (hx.map Fired.taken)
    rwa [List.length_map] at happart
  · have htaken : x.taken ∈ s.taken :=
      List.mem_of_mem_filter (hs.subset (List.mem_map_of_mem hx))
    exact Int.le_trans (d.times _ htaken).2 (v.clock ▸ d.last)

variable (o) in
structure Served (clock : Int) (w : World) (s : TimerService) : Prop where
  placed : Placed o w
  serves : Serves w s
  sound : s.Sound (policy o) clock

variable {clock : Int} {s : TimerService}

theorem served_step {a : Action} (v : Served o clock w s) (h : step o w a = some t) :
    ∃ r, (TimerService.system (policy o)).run s (shows w a) = some r ∧ Served o clock t r := by
  obtain ⟨r, hr, hv⟩ := serves_step v.placed v.serves h
  exact ⟨r, hr, placed_step v.placed h, hv, TimerService.sound_run v.sound hr⟩

theorem served_run {as : List Action} (v : Served o clock w s)
    (h : (system o).run w as = some t) :
    ∃ r, (TimerService.system (policy o)).run s ((system o).trace shows w as) = some r ∧
      Served o clock t r :=
  Transition.System.run_refines (M := system o) (N := TimerService.system (policy o))
    (fun _ _ _ _ v h => served_step v h) v h

theorem served_init (clock : Int) : Served o clock (World.init clock) (.create clock) :=
  ⟨placed_init clock, serves_init clock, TimerService.sound_create clock⟩

theorem served_early (v : Served o clock w s) (h0 : 0 ≤ clock) :
    ∀ x ∈ w.fired, 0 ≤ x.now ∧ x.expire < x.now + o.tick * o.buckets := by
  intro x hx
  have hm : x.taken ∈ s.taken := by
    rw [v.serves.taken, World.taken]
    exact List.mem_map_of_mem (List.mem_append_right _ hx)
  have hnow : 0 ≤ x.now := Int.le_trans h0 (v.sound.times _ hm).1
  exact ⟨hnow, rounds_early hnow (of_decide_eq_true (v.sound.ripe _ hm))⟩

theorem fires_in_turn (o : Options) (clock : Int) (as bs : List Action) {w t u : World}
    {index id : Nat} {expired interval : Int} (h0 : 0 ≤ clock)
    (hw : (system o).run (World.init clock) as = some w)
    (hi : w.adds[index]? = some (.computed id expired interval))
    (ht : step o w (.advance index) = some t) (hu : (system o).run t bs = some u) :
    InTurn (o.tick * o.buckets) id expired interval u ∧
      ((system o).Along (Reached o) (World.init clock) (as ++ .advance index :: bs) →
        InTurn o.tick id expired interval u) := by
  obtain ⟨s, -, v⟩ := served_run (served_init clock) hw
  obtain ⟨r, hr, vr⟩ := served_step v ht
  have hadd : TimerService.step (policy o) s (.add id expired interval) = some r := by
    simpa [shows, hi, Transition.System.run, TimerService.system] using hr
  have f := TimerService.follows_add v.sound hadd
  obtain ⟨x, hx, v⟩ := served_run vr hu
  have f := TimerService.follows_run f hx
  have hearly := served_early v h0
  refine ⟨in_turn v.serves v.sound f fun y hy => (hearly y hy).2, fun hg => ?_⟩
  have hrun : (system o).run (World.init clock) (as ++ .advance index :: bs) = some u :=
    Transition.System.run_append.mpr ⟨w, hw, Option.bind_eq_some_iff.mpr ⟨t, ht, hu⟩⟩
  have hn := Transition.System.run_invariant (M := system o)
    (I := fun w => Placed o w ∧ NotEarly o w) (fun _ _ _ p hg h =>
      ⟨placed_step p.1 h, (not_early_step p.1 p.2 h).mpr hg⟩)
    ⟨placed_init clock, fun _ hf => by cases hf⟩ hg hrun
  exact in_turn v.serves v.sound f fun y hy => ticks_early (hearly y hy).1 (hn.2 y hy)

-- The first invocation is 20 ahead of its time, in the tick it is due in.
def twiceInTurn : List Action :=
  [.advance 0, .advance 0, .process, .pop, .claim, .rearm, .invoke, .resume, .claim, .pop, .finish,
    .elapse 250, .process, .pop, .pop, .pop, .claim, .rearm, .invoke]

theorem fires_in_turn_twice :
    ∃ u, (system ⟨100, 4, by decide, by decide⟩).run (World.init 300)
        ([.add 20 250] ++ .advance 0 :: twiceInTurn) = some u ∧
      u.turns 1 = [⟨1, 550, 550⟩, ⟨1, 320, 300⟩] ∧
      InTurn 100 1 320 250 u := by
  obtain ⟨w, t, u, hw, hi, ht, hu, hturns⟩ : ∃ w t u : World,
      (system ⟨100, 4, by decide, by decide⟩).run (World.init 300) [.add 20 250] = some w ∧
      w.adds[0]? = some (.computed 1 320 250) ∧
      step ⟨100, 4, by decide, by decide⟩ w (.advance 0) = some t ∧
      (system ⟨100, 4, by decide, by decide⟩).run t twiceInTurn = some u ∧
      u.turns 1 = [⟨1, 550, 550⟩, ⟨1, 320, 300⟩] :=
    ⟨_, _, _, rfl, rfl, rfl, rfl, by decide⟩
  have hg : (system ⟨100, 4, by decide, by decide⟩).Along (Reached ⟨100, 4, by decide, by decide⟩)
      (World.init 300) ([.add 20 250] ++ .advance 0 :: twiceInTurn) := by decide
  have hp := fires_in_turn ⟨100, 4, by decide, by decide⟩ 300 _ _ (by decide) hw hi ht hu
  refine ⟨u, ?_, hturns, hp.2 hg⟩
  exact Transition.System.run_append.mpr ⟨w, hw, Option.bind_eq_some_iff.mpr ⟨t, ht, hu⟩⟩

end TimerHashWheel
end Pedronet
