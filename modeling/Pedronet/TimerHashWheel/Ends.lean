import Pedronet.TimerHashWheel.Complete
import Mathlib.Data.List.Flatten
import Mathlib.Data.List.Perm.Subperm
import Mathlib.Algebra.Order.BigOperators.Group.List
import Mathlib.Algebra.Order.Group.Nat
import Mathlib.Algebra.GroupWithZero.Nat

namespace Pedronet
namespace TimerHashWheel
variable {o : Options} {w t : World}

def Action.own : Action → Bool
  | .pop | .claim | .rearm | .invoke | .resume | .finish => true
  | .elapse _ | .add _ _ | .advance _ | .cancel _ | .process => false

variable (o) in
structure Ready (w : World) : Prop where
  idle : w.pc = .idle
  table : ∀ id timer, w.wheel.table id = some timer → timer.id = id
  nodup : (stored o w).Nodup
  last : w.wheel.last ≤ w.clock

variable (o) in
structure Ends (w : World) : Prop where
  bounded : ∃ n, ∀ as t, (∀ a ∈ as, a.own) → (system o).run w (.process :: as) = some t →
    as.length ≤ n
  returns : ∃ as t, (∀ a ∈ as, a.own) ∧ (system o).run w (.process :: as) = some t ∧ t.pc = .idle
  once : ∀ as t, (∀ a ∈ as, a.own) → (system o).run w (.process :: as) = some t →
    ∀ id, invocations id t ≤ invocations id w + 1

-- A periodic timer put back at `now + interval` is not popped again from the buckets in `todo`.
variable (o) in
def Clear (now : Int) (todo : List Nat) (timer : Entry) : Prop :=
  0 < timer.interval → bucketOf o (now + timer.interval) ∈ todo →
    getRounds o now < getRounds o (now + timer.interval)

instance (now : Int) (todo : List Nat) (timer : Entry) : Decidable (Clear o now todo timer) :=
  inferInstanceAs (Decidable (_ → _ → _))

variable (o) in
def Clears (w : World) : Prop :=
  ∀ before i after, scanned o w.wheel.last w.clock = before ++ i :: after →
    ∀ rounds ≤ getRounds o w.clock, ∀ id, (w.wheel.buckets i).Holds rounds id →
      ∀ timer, w.wheel.table id = some timer → Clear o w.clock (i :: after) timer

theorem ready_of_waits (s : Waits o w) (h : w.pc = .idle) : Ready o w where
  idle := h
  table id timer ht := (s.placed.table id timer ht).1
  nodup := stored_nodup s.placed
  last := by
    have hclock := s.ahead.clock
    rwa [World.base, h] at hclock

def Pc.claimant : Pc → List Entry
  | .claimed _ timer _ _ _ => [timer]
  | .idle | .scan _ _ | .entries _ _ _ | .invoke _ _ _ _ _ | .callback _ _ _ => []

theorem base_at {pc : Pc} {now : Int} (hpc : w.pc = pc) (h : w.base = now) :
    pc.base w.wheel.last = now := by
  rw [← hpc]
  exact h

variable (o) in
structure Safe (now : Int) (w : World) : Prop where
  base : w.base = now
  table : ∀ id timer, w.wheel.table id = some timer → timer.id = id
  live : ∀ before i after, w.pc.todo = before ++ i :: after → ∀ rounds ≤ getRounds o now, ∀ id,
    (w.wheel.buckets i).Holds rounds id → ∀ timer, w.wheel.table id = some timer →
      Clear o now (i :: after) timer
  taken : ∀ id ∈ w.pc.waiting, ∀ timer, w.wheel.table id = some timer → Clear o now w.pc.todo timer
  claimed : ∀ timer ∈ w.pc.claimant, Clear o now w.pc.todo timer

theorem safe_same {now : Int} {pc : Pc} (s : Safe o now w) (hpc : w.pc = pc)
    (hl : t.pc.base t.wheel.last = pc.base w.wheel.last)
    (hb : t.wheel.buckets = w.wheel.buckets)
    (ht : ∀ id timer, t.wheel.table id = some timer → w.wheel.table id = some timer)
    (htodo : t.pc.todo <:+ pc.todo)
    (hw : ∀ id ∈ t.pc.waiting, t.pc.todo = pc.todo ∧ id ∈ pc.waiting)
    (hc : ∀ timer ∈ t.pc.claimant, t.pc.todo = pc.todo ∧ ∃ id ∈ pc.waiting,
      w.wheel.table id = some timer) : Safe o now t := by
  subst hpc
  refine ⟨hl.trans s.base, fun id timer h => s.table id timer (ht id timer h), ?_, ?_, ?_⟩
  · intro before i after he rounds hr id hid timer h
    obtain ⟨done, hdone⟩ := htodo
    rw [hb] at hid
    refine s.live (done ++ before) i after ?_ rounds hr id hid timer (ht id timer h)
    rw [← hdone, he, List.append_assoc]
  · intro id hid timer h
    obtain ⟨he, hid⟩ := hw id hid
    rw [he]
    exact s.taken id hid timer (ht id timer h)
  · intro timer htimer
    obtain ⟨he, id, hid, h⟩ := hc timer htimer
    rw [he]
    exact s.taken id hid timer h

theorem set_rounds_table {wheel : TimerHashWheel} {e : Int} {id i rounds : Nat} {entry : Entry}
    (h : ((wheel.setRounds id rounds).insert o e id).table i = some entry) :
    ∃ timer, wheel.table i = some timer ∧ entry.id = timer.id ∧ entry.interval = timer.interval := by
  simp only [TimerHashWheel.insert, setRounds] at h
  split at h
  · obtain ⟨timer, ht, rfl⟩ := Option.map_eq_some_iff.mp h
    exact ⟨timer, ht, rfl, rfl⟩
  · exact ⟨entry, h, rfl, rfl⟩

theorem safe_rearm {now due : Int} {timer : Entry} {ids todo : List Nat} (s : Safe o now w)
    (hpc : w.pc = .claimed now timer due ids todo) (hpos : 0 < timer.interval) :
    Safe o now { w.rearm o (now + timer.interval) timer with pc := .invoke now timer due ids todo } := by
  have htodo : w.pc.todo = todo := by rw [hpc]; rfl
  have hclear {todo : List Nat} {a b : Entry} (he : a.interval = b.interval)
      (h : Clear o now todo b) : Clear o now todo a := by
    rw [Clear, he]
    exact h
  have hown := s.claimed timer (by rw [hpc]; exact List.mem_cons_self)
  rw [htodo] at hown
  refine ⟨rfl, fun id entry h => ?_, ?_, ?_, fun _ h => by cases h⟩
  · obtain ⟨old, hold, hid, -⟩ := set_rounds_table h
    exact hid.trans (s.table id old hold)
  · intro before i after he rounds hr id hid entry h
    obtain ⟨old, hold, -, hint⟩ := set_rounds_table h
    change todo = before ++ i :: after at he
    rcases holds_insert.mp hid with ⟨rfl, rfl, -⟩ | hid
    · have hin : bucketOf o (now + timer.interval) ∈ todo := by
        rw [he]
        exact List.mem_append_right _ List.mem_cons_self
      exact absurd (hown hpos hin) (Nat.not_lt.mpr hr)
    · exact hclear hint (s.live before i after (htodo.trans he) rounds hr id hid old hold)
  · intro id hid entry h
    obtain ⟨old, hold, -, hint⟩ := set_rounds_table h
    have hclear' := hclear hint (s.taken id (by rw [hpc]; exact List.mem_cons_of_mem _ hid) old hold)
    rwa [htodo] at hclear'

theorem safe_taken {now : Int} {i : Nat} {todo ids : List Nat} {rest : Bucket} (s : Safe o now w)
    (hpc : w.pc = .scan now (i :: todo))
    (hpop : (w.wheel.buckets i).pop (getRounds o now) = some (ids, rest)) :
    Safe o now { w with
      wheel := { w.wheel with buckets := fun j => if j = i then rest else w.wheel.buckets j }
      pc := .entries now ids (i :: todo) } := by
  obtain ⟨first, hle, hmin⟩ := pop_some hpop
  have htodo : w.pc.todo = i :: todo := by rw [hpc]; rfl
  refine ⟨rfl, s.table, ?_, ?_, fun _ h => by cases h⟩
  · intro before j after he rounds hr id hid
    refine s.live before j after (htodo.trans he) rounds hr id ?_
    simp only at hid
    split at hid
    · rename_i hj
      rw [hj]
      exact (OrderedMultimap.pop_min_holds hmin).mpr (.inr hid)
    · exact hid
  · intro id hid
    exact s.live [] i todo htodo first hle id
      ((OrderedMultimap.pop_min_holds hmin).mpr (.inl ⟨rfl, hid⟩))

theorem safe_step {now : Int} {a : Action} (s : Safe o now w) (ha : a.own)
    (h : step o w a = some t) : Safe o now t := by
  cases step_moves h with
  | elapse | add | advance | cancel | process => cases ha
  | taken hpc hpop =>
    cases base_at hpc s.base
    exact safe_taken s hpc hpop
  | passed hpc hpop =>
    exact safe_same s hpc rfl rfl (fun _ _ h => h) (List.suffix_cons _ _) (fun _ h => by cases h)
      fun _ h => by cases h
  | @claimed now' id ids todo timer hpc ht =>
    refine safe_same s hpc rfl rfl (fun _ _ h => h) List.suffix_rfl (fun i hi => ⟨rfl, ?_⟩)
      fun i hi => ⟨rfl, id, List.mem_cons_self, ?_⟩
    · simpa [Pc.waiting, s.table id timer ht] using hi
    · rw [List.mem_singleton.mp hi]
      exact ht
  | gone hpc ht =>
    exact safe_same s hpc rfl rfl (fun _ _ h => h) List.suffix_rfl
      (fun i hi => ⟨rfl, List.mem_cons_of_mem _ hi⟩) fun _ h => by cases h
  | dropped hpc hi =>
    exact safe_same s hpc rfl rfl (fun _ _ => cancel_some) List.suffix_rfl
      (fun i hi => ⟨rfl, List.mem_cons_of_mem _ hi⟩) fun _ h => by cases h
  | rearmed hpc hpos =>
    cases base_at hpc s.base
    exact safe_rearm s hpc hpos
  | emptied hpc | finish hpc =>
    exact safe_same s hpc rfl rfl (fun _ _ h => h) List.suffix_rfl (fun _ h => by cases h)
      fun _ h => by cases h
  | invoke hpc | resume hpc =>
    exact safe_same s hpc rfl rfl (fun _ _ h => h) List.suffix_rfl (fun _ hi => ⟨rfl, hi⟩)
      fun _ h => by cases h

theorem safe_process (r : Ready o w) (c : Clears o w) (h : step o w .process = some t) :
    Safe o w.clock t := by
  cases step_moves h with
  | process hpc =>
    exact ⟨rfl, r.table, c, fun _ h => absurd h List.not_mem_nil,
      fun _ h => absurd h List.not_mem_nil⟩

variable (o) in
def load (f : List Nat → Nat) (now : Int) (todo : List Nat) (w : World) : Nat :=
  (todo.map fun i =>
    (((w.wheel.buckets i).upTo (getRounds o now)).map fun e => f e.2).sum).sum

theorem load_pop (f : List Nat → Nat) {now : Int} {i : Nat} (todo : List Nat) {ids : List Nat}
    {rest : Bucket} (hpop : (w.wheel.buckets i).pop (getRounds o now) = some (ids, rest))
    (hb : t.wheel.buckets = fun j => if j = i then rest else w.wheel.buckets j) :
    f ids + load o f now (i :: todo) t ≤ load o f now (i :: todo) w := by
  obtain ⟨first, hle, hmin⟩ := pop_some hpop
  have hup := OrderedMultimap.up_to_pop_min hmin hle
  have hrest : load o f now todo t ≤ load o f now todo w := by
    refine List.sum_le_sum fun j _ => ?_
    simp only [hb]
    split
    · rename_i hj
      rw [hj, hup, List.map_cons, List.sum_cons]
      exact Nat.le_add_left _ _
    · exact Nat.le_refl _
  simp only [load, List.map_cons, List.sum_cons, hup] at hrest ⊢
  simp only [hb, if_true] at hrest ⊢
  omega

theorem load_insert {f : List Nat → Nat} {now e : Int} (id : Nat) {todo : List Nat}
    (hb : t.wheel.buckets = (w.wheel.insert o e id).buckets)
    (h : bucketOf o e ∈ todo → getRounds o now < getRounds o e) :
    load o f now todo t = load o f now todo w := by
  refine congrArg List.sum (List.map_congr_left fun i hi => ?_)
  simp only [hb, TimerHashWheel.insert]
  split
  · rename_i he
    rw [Bucket.add, OrderedMultimap.up_to_insert (h (he ▸ hi))]
  · rfl

theorem load_same {f : List Nat → Nat} {now : Int} {todo : List Nat}
    (hb : t.wheel.buckets = w.wheel.buckets) : load o f now todo t = load o f now todo w := by
  simp only [load, hb]

def Pc.steps : Pc → Nat
  | .idle => 0
  | .scan _ _ => 1
  | .entries _ ids _ => 2 + 4 * ids.length
  | .callback _ ids _ => 3 + 4 * ids.length
  | .invoke _ _ _ ids _ => 4 + 4 * ids.length
  | .claimed _ _ _ ids _ => 5 + 4 * ids.length

variable (o) in
def work (now : Int) (w : World) : Nat :=
  w.pc.steps + w.pc.todo.length + load o (fun ids => 2 + 4 * ids.length) now w.pc.todo w

def Pc.uninvoked : Pc → List Nat
  | .idle | .scan _ _ => []
  | .entries _ ids _ | .callback _ ids _ => ids
  | .claimed _ timer _ ids _ | .invoke _ timer _ ids _ => timer.id :: ids

variable (o) in
def count (now : Int) (id : Nat) (w : World) : Nat :=
  invocations id w + w.pc.uninvoked.count id + load o (List.count id) now w.pc.todo w

theorem own_same {now : Int} {pc : Pc} (hpc : w.pc = pc)
    (hload : ∀ f, load o f now t.pc.todo t ≤ load o f now pc.todo w)
    (hs : t.pc.steps + t.pc.todo.length < pc.steps + pc.todo.length)
    (hc : ∀ id, invocations id t + t.pc.uninvoked.count id ≤
      invocations id w + pc.uninvoked.count id) :
    work o now t < work o now w ∧ ∀ id, count o now id t ≤ count o now id w := by
  subst hpc
  refine ⟨?_, fun id => Nat.add_le_add (hc id) (hload _)⟩
  have hwork := hload fun ids => 2 + 4 * ids.length
  simp only [work]
  omega

theorem own_pop {now : Int} {i : Nat} {todo ids : List Nat} {rest : Bucket}
    (hpc : w.pc = .scan now (i :: todo))
    (hpop : (w.wheel.buckets i).pop (getRounds o now) = some (ids, rest))
    (hb : t.wheel.buckets = fun j => if j = i then rest else w.wheel.buckets j)
    (ht : t.pc = .entries now ids (i :: todo)) (hf : t.fired = w.fired) :
    work o now t < work o now w ∧ ∀ id, count o now id t ≤ count o now id w := by
  have hload (f : List Nat → Nat) := load_pop f todo hpop hb
  constructor
  · have hwork := hload fun ids => 2 + 4 * ids.length
    simp only [work, hpc, ht, Pc.steps, Pc.todo]
    omega
  · intro id
    have hcount := hload (List.count id)
    simp only [count, invocations, hpc, ht, hf, Pc.uninvoked, Pc.todo, List.count_nil]
    omega

theorem own_step {now : Int} {a : Action} (s : Safe o now w) (ha : a.own)
    (h : step o w a = some t) :
    work o now t < work o now w ∧ ∀ id, count o now id t ≤ count o now id w := by
  have hload {todo : List Nat} (hb : t.wheel.buckets = w.wheel.buckets) (f : List Nat → Nat) :
      load o f now todo t ≤ load o f now todo w := Nat.le_of_eq (load_same hb)
  cases step_moves h with
  | elapse | add | advance | cancel | process => cases ha
  | taken hpc hpop =>
    cases base_at hpc s.base
    exact own_pop hpc hpop rfl rfl rfl
  | passed hpc hpop =>
    refine own_same hpc (fun f => ?_) (Nat.lt_succ_self _) fun id => Nat.le_refl _
    exact Nat.le_add_left _ _
  | @claimed now' id ids todo timer hpc ht =>
    refine own_same hpc (hload rfl) ?_ fun i => ?_
    · simp only [Pc.steps, Pc.todo, List.length_cons]
      omega
    · rw [← s.table id timer ht]
      exact Nat.le_refl _
  | gone hpc ht =>
    refine own_same hpc (hload rfl) ?_ fun i => ?_
    · simp only [Pc.steps, Pc.todo, List.length_cons]
      omega
    · exact Nat.add_le_add_left List.count_le_count_cons _
  | emptied hpc | dropped hpc | resume hpc | finish hpc =>
    exact own_same hpc (hload rfl) (by simp [Pc.steps, Pc.todo]) fun i => Nat.le_refl _
  | @rearmed now' due timer ids todo hpc hpos =>
    cases base_at hpc s.base
    have hclear := s.claimed timer (by rw [hpc]; exact List.mem_cons_self) hpos
    rw [hpc] at hclear
    refine own_same hpc (fun f => Nat.le_of_eq ?_) (by simp [Pc.steps, Pc.todo])
      fun i => Nat.le_refl _
    exact load_insert (w := w) timer.id rfl hclear
  | invoke hpc =>
    refine own_same hpc (hload rfl) (by simp [Pc.steps, Pc.todo]) fun i => ?_
    simp only [invocations, Pc.uninvoked, List.map_cons, List.count_cons]
    omega

theorem own_next (h : w.pc ≠ .idle) : ∃ a, a.own ∧ (step o w a).isSome := by
  cases hpc : w.pc with
  | idle => exact absurd hpc h
  | scan now todo =>
    cases todo with
    | nil => exact ⟨.finish, rfl, by simp [step, hpc]⟩
    | cons i todo =>
      refine ⟨.pop, rfl, ?_⟩
      simp only [step, hpc]
      split <;> rfl
  | entries now ids todo =>
    cases ids with
    | nil => exact ⟨.claim, rfl, by simp [step, hpc]⟩
    | cons id ids =>
      refine ⟨.claim, rfl, ?_⟩
      simp only [step, hpc]
      split <;> rfl
  | claimed now timer due ids todo =>
    refine ⟨.rearm, rfl, ?_⟩
    simp only [step, hpc]
    split <;> rfl
  | invoke now timer due ids todo => exact ⟨.invoke, rfl, by simp [step, hpc]⟩
  | callback now ids todo => exact ⟨.resume, rfl, by simp [step, hpc]⟩

theorem own_run {now : Int} {as : List Action} (s : Safe o now w) (ha : ∀ a ∈ as, a.own)
    (h : (system o).run w as = some t) :
    as.length + work o now t ≤ work o now w ∧ ∀ id, count o now id t ≤ count o now id w := by
  induction as generalizing w with
  | nil =>
    cases h
    exact ⟨by simp, fun id => Nat.le_refl _⟩
  | cons a as ih =>
    obtain ⟨u, hu, ht⟩ := Transition.System.run_cons h
    have hown := ha a List.mem_cons_self
    obtain ⟨hlt, hle⟩ := own_step s hown hu
    obtain ⟨hwork, hcount⟩ :=
      ih (safe_step s hown hu) (fun b hb => ha b (List.mem_cons_of_mem _ hb)) ht
    rw [List.length_cons]
    exact ⟨by omega, fun id => Nat.le_trans (hcount id) (hle id)⟩

theorem own_returns {now : Int} (s : Safe o now w) :
    ∃ as t, (∀ a ∈ as, a.own) ∧ (system o).run w as = some t ∧ t.pc = .idle := by
  induction hn : work o now w using Nat.strong_induction_on generalizing w with
  | _ n ih =>
    by_cases hidle : w.pc = .idle
    · exact ⟨[], w, fun _ h => absurd h List.not_mem_nil, rfl, hidle⟩
    · obtain ⟨a, hown, hsome⟩ := own_next (o := o) hidle
      obtain ⟨t, ht⟩ := Option.isSome_iff_exists.mp hsome
      have hlt := (own_step s hown ht).1
      obtain ⟨as, u, has, hu, hpc⟩ := ih _ (hn ▸ hlt) (safe_step s hown ht) rfl
      refine ⟨a :: as, u, fun b hb => ?_, ?_, hpc⟩
      · rcases List.mem_cons.mp hb with rfl | hb
        · exact hown
        · exact has b hb
      · rw [Transition.System.run, show (system o).step w a = some t from ht]
        exact hu

theorem scanned_subset {last now : Int} : scanned o last now ⊆ List.range o.buckets := by
  have h1 := Nat.mod_lt (getTicks o last) o.buckets_pos
  have h2 := Nat.mod_lt (getTicks o now) o.buckets_pos
  intro i hi
  rw [List.mem_range]
  simp only [scanned] at hi
  split at hi
  · split at hi
    · rw [List.mem_range'_1] at hi
      omega
    · rw [List.mem_append, List.mem_range'_1, List.mem_range'_1] at hi
      omega
  · rw [List.mem_range'_1] at hi
    omega

theorem scanned_nodup {last now : Int} : (scanned o last now).Nodup := by
  simp only [scanned]
  split
  · split
    · exact List.nodup_range'
    · rename_i hlt
      refine List.nodup_append.mpr ⟨List.nodup_range', List.nodup_range', ?_⟩
      intro i hi j hj
      rw [List.mem_range'_1] at hi hj
      omega
  · exact List.nodup_range'

theorem load_once {now : Int} {todo : List Nat} (hs : (stored o w).Nodup)
    (hsub : todo ⊆ List.range o.buckets) (hnd : todo.Nodup) (id : Nat) :
    load o (List.count id) now todo w ≤ 1 := by
  have hup : load o (List.count id) now todo w ≤
      (todo.flatMap fun i => (w.wheel.buckets i).values).count id := by
    rw [List.count_flatMap]
    refine List.sum_le_sum fun i _ => ?_
    simp only [Function.comp_apply, OrderedMultimap.values, List.count_flatMap]
    exact (List.filter_sublist.map _).sum_le_sum fun _ _ => Nat.zero_le _
  obtain ⟨found, hperm, hsublist⟩ := List.Nodup.subperm hnd hsub
  have hle := (hsublist.flatMap fun i => (w.wheel.buckets i).values).count_le id
  rw [(hperm.flatMap_right _).count_eq] at hle
  exact Nat.le_trans hup (Nat.le_trans hle (List.nodup_iff_count_le_one.mp hs id))

theorem run_process {as : List Action} (h : w.pc = .idle) :
    (system o).run w (.process :: as) =
      (system o).run { w with pc := .scan w.clock (scanned o w.wheel.last w.clock) } as := by
  simp only [Transition.System.run, system, step, h, Option.bind_some]

theorem ends_of_clears (r : Ready o w) (c : Clears o w) : Ends o w := by
  have s := safe_process r c (by rw [step, r.idle])
  refine ⟨⟨work o w.clock { w with pc := .scan w.clock (scanned o w.wheel.last w.clock) },
    fun as t ha h => ?_⟩, ?_, ?_⟩
  · rw [run_process r.idle] at h
    exact Nat.le_trans (Nat.le_add_right _ _) (own_run s ha h).1
  · obtain ⟨as, t, has, ht, hpc⟩ := own_returns s
    exact ⟨as, t, has, by rw [run_process r.idle]; exact ht, hpc⟩
  · intro as t ha h id
    rw [run_process r.idle] at h
    refine Nat.le_trans (Nat.le_add_right _ _) (Nat.le_trans (Nat.le_add_right _ _)
      (Nat.le_trans ((own_run s ha h).2 id) ?_))
    exact Nat.add_le_add_left (load_once r.nodup scanned_subset scanned_nodup id) _

variable (o) in
structure Doomed (now : Int) (id : Nat) (interval : Int) (w : World) : Prop where
  base : w.base = now
  table : ∀ i timer, w.wheel.table i = some timer → timer.id = i
  timer : ∃ timer, w.wheel.table id = some timer ∧ timer.interval = interval
  claimed : ∀ timer ∈ w.pc.claimant, timer.id = id → timer.interval = interval
  place : (id ∈ w.pc.waiting ∧ bucketOf o (now + interval) ∈ w.pc.todo) ∨
    ∃ before i after rounds, w.pc.todo = before ++ i :: after ∧
      bucketOf o (now + interval) ∈ i :: after ∧ rounds ≤ getRounds o now ∧
        (w.wheel.buckets i).Holds rounds id

theorem doomed_same {now interval : Int} {id : Nat} {pc : Pc} (d : Doomed o now id interval w)
    (hpc : w.pc = pc) (hl : t.pc.base t.wheel.last = pc.base w.wheel.last)
    (hb : t.wheel.buckets = w.wheel.buckets)
    (ht : ∀ i timer, t.wheel.table i = some timer → w.wheel.table i = some timer)
    (hid : ∀ timer, w.wheel.table id = some timer → t.wheel.table id = some timer)
    (htodo : t.pc.todo = pc.todo) (hw : id ∈ pc.waiting → id ∈ t.pc.waiting)
    (hc : ∀ timer ∈ t.pc.claimant, w.wheel.table timer.id = some timer) :
    Doomed o now id interval t := by
  subst hpc
  obtain ⟨timer, htimer, hint⟩ := d.timer
  refine ⟨hl.trans d.base, fun i timer h => d.table i timer (ht i timer h),
    ⟨timer, hid timer htimer, hint⟩, fun entry he hentry => ?_, ?_⟩
  · have he := hc entry he
    rw [hentry, htimer] at he
    cases he
    exact hint
  · rw [htodo, hb]
    exact d.place.imp_left fun ⟨hm, hin⟩ => ⟨hw hm, hin⟩

theorem doomed_pop {now interval : Int} {id i : Nat} {todo ids : List Nat} {rest : Bucket}
    (d : Doomed o now id interval w) (hpc : w.pc = .scan now (i :: todo))
    (hpop : (w.wheel.buckets i).pop (getRounds o now) = some (ids, rest)) :
    Doomed o now id interval { w with
      wheel := { w.wheel with buckets := fun j => if j = i then rest else w.wheel.buckets j }
      pc := .entries now ids (i :: todo) } := by
  obtain ⟨first, -, hmin⟩ := pop_some hpop
  have hplace := d.place
  rw [hpc] at hplace
  refine ⟨rfl, d.table, d.timer, fun _ h => absurd h List.not_mem_nil, ?_⟩
  rcases hplace with ⟨h, -⟩ | ⟨before, j, after, rounds, he, hin, hr, hid⟩
  · cases h
  · have hall : bucketOf o (now + interval) ∈ i :: todo := by
      rw [show i :: todo = before ++ j :: after from he]
      exact List.mem_append_right _ hin
    by_cases hji : j = i
    · rw [hji] at hid
      rcases (OrderedMultimap.pop_min_holds hmin).mp hid with ⟨-, hm⟩ | hid
      · exact .inl ⟨hm, hall⟩
      · exact .inr ⟨before, j, after, rounds, he, hin, hr, by simpa [hji] using hid⟩
    · exact .inr ⟨before, j, after, rounds, he, hin, hr, by simpa [hji] using hid⟩

theorem doomed_next {now interval : Int} {id i : Nat} {todo : List Nat}
    (d : Doomed o now id interval w) (hpc : w.pc = .scan now (i :: todo))
    (hpop : (w.wheel.buckets i).pop (getRounds o now) = none) :
    Doomed o now id interval { w with pc := .scan now todo } := by
  have hbase := d.base
  have hplace := d.place
  rw [World.base, hpc] at hbase
  rw [hpc] at hplace
  refine ⟨hbase, d.table, d.timer, fun _ h => absurd h List.not_mem_nil, ?_⟩
  rcases hplace with ⟨h, -⟩ | ⟨before, j, after, rounds, he, hin, hr, hid⟩
  · cases h
  · cases before with
    | nil =>
      cases he
      exact absurd (pop_none hpop hid) (Nat.not_lt.mpr hr)
    | cons x before =>
      cases he
      exact .inr ⟨before, j, after, rounds, rfl, hin, hr, hid⟩

theorem doomed_rearm {now due interval : Int} {id : Nat} {timer : Entry} {ids todo : List Nat}
    (d : Doomed o now id interval w)
    (hround : getRounds o (now + interval) ≤ getRounds o now)
    (hpc : w.pc = .claimed now timer due ids todo) :
    Doomed o now id interval
      { w.rearm o (now + timer.interval) timer with pc := .invoke now timer due ids todo } := by
  obtain ⟨entry, hentry, hint⟩ := d.timer
  have hplace := d.place
  rw [hpc] at hplace
  refine ⟨rfl, fun i entry h => ?_, ?_, fun _ h => absurd h List.not_mem_nil, ?_⟩
  · obtain ⟨old, hold, hid, -⟩ := set_rounds_table h
    exact hid.trans (d.table i old hold)
  · by_cases hid : id = timer.id
    · refine ⟨{ entry with rounds := getRounds o (now + timer.interval) }, ?_, hint⟩
      simp only [World.rearm, TimerHashWheel.insert, setRounds, if_pos hid, hentry, Option.map_some]
    · refine ⟨entry, ?_, hint⟩
      simp only [World.rearm, TimerHashWheel.insert, setRounds, if_neg hid, hentry]
  · by_cases hid : timer.id = id
    · -- It is back in its bucket, which the scan has yet to leave.
      have hin : bucketOf o (now + interval) ∈ todo := by
        rcases hplace with ⟨-, hin⟩ | ⟨before, j, after, rounds, he, hin, -, -⟩
        · exact hin
        · rw [show todo = before ++ j :: after from he]
          exact List.mem_append_right _ hin
      obtain ⟨before, after, he⟩ := List.append_of_mem hin
      have hown := d.claimed timer (by rw [hpc]; exact List.mem_cons_self) hid
      refine .inr ⟨before, _, after, _, he, List.mem_cons_self, hround, ?_⟩
      exact holds_insert.mpr (.inl ⟨by rw [hown], by rw [hown], hid.symm⟩)
    · rcases hplace with ⟨hm, hin⟩ | ⟨before, j, after, rounds, he, hin, hr, hh⟩
      · exact .inl ⟨(List.mem_cons.mp hm).resolve_left (Ne.symm hid), hin⟩
      · exact .inr ⟨before, j, after, rounds, he, hin, hr, holds_insert.mpr (.inr hh)⟩

theorem doomed_step {now interval : Int} {id : Nat} {a : Action} (d : Doomed o now id interval w)
    (hpos : 0 < interval) (hround : getRounds o (now + interval) ≤ getRounds o now) (ha : a.own)
    (h : step o w a = some t) : Doomed o now id interval t := by
  cases step_moves h with
  | elapse | add | advance | cancel | process => cases ha
  | taken hpc hpop =>
    cases base_at hpc d.base
    exact doomed_pop d hpc hpop
  | passed hpc hpop =>
    cases base_at hpc d.base
    exact doomed_next d hpc hpop
  | @claimed now' i ids todo timer hpc ht =>
    have hid := d.table i timer ht
    refine doomed_same d hpc rfl rfl (fun _ _ h => h) (fun _ h => h) rfl (fun hm => ?_)
      fun entry he => ?_
    · simpa [Pc.waiting, hid] using hm
    · rw [List.mem_singleton.mp he, hid]
      exact ht
  | gone hpc ht =>
    refine doomed_same d hpc rfl rfl (fun _ _ h => h) (fun _ h => h) rfl (fun hm => ?_)
      fun _ h => absurd h List.not_mem_nil
    refine (List.mem_cons.mp hm).resolve_left ?_
    rintro rfl
    obtain ⟨timer, htimer, -⟩ := d.timer
    rw [ht] at htimer
    cases htimer
  | @dropped now' due timer ids todo hpc hle =>
    have hne : id ≠ timer.id := by
      intro he
      have hown := d.claimed timer (by rw [hpc]; exact List.mem_cons_self) he.symm
      omega
    refine doomed_same d hpc rfl rfl (fun _ _ => cancel_some) (fun entry he => ?_) rfl
      (fun hm => (List.mem_cons.mp hm).resolve_left hne) fun _ h => absurd h List.not_mem_nil
    simpa [TimerHashWheel.cancel, hne] using he
  | rearmed hpc hi =>
    cases base_at hpc d.base
    exact doomed_rearm d hround hpc
  | emptied hpc | invoke hpc | resume hpc | finish hpc =>
    exact doomed_same d hpc rfl rfl (fun _ _ h => h) (fun _ h => h) rfl (fun hm => hm)
      fun _ h => absurd h List.not_mem_nil

theorem doomed_run {now interval : Int} {id : Nat} {as : List Action}
    (d : Doomed o now id interval w) (hpos : 0 < interval)
    (hround : getRounds o (now + interval) ≤ getRounds o now) (ha : ∀ a ∈ as, a.own)
    (h : (system o).run w as = some t) : t.pc ≠ .idle := by
  have d' : Doomed o now id interval t :=
    Transition.System.run_invariant (M := system o) (G := fun _ a => a.own)
      (fun _ _ _ d ha h => doomed_step d hpos hround ha h) d
      (Transition.System.along_of_forall ha) h
  intro hidle
  have hplace := d'.place
  rw [hidle] at hplace
  rcases hplace with ⟨hm, -⟩ | ⟨before, i, after, rounds, he, -, -, -⟩
  · cases hm
  · cases before <;> cases he

theorem endless (before after : List Nat) (i id rounds : Nat) {timer : Entry} (r : Ready o w)
    (he : scanned o w.wheel.last w.clock = before ++ i :: after)
    (hr : rounds ≤ getRounds o w.clock) (hid : (w.wheel.buckets i).Holds rounds id)
    (ht : w.wheel.table id = some timer) (hc : ¬ Clear o w.clock (i :: after) timer) :
    ¬ Ends o w := by
  simp only [Clear, Classical.not_imp, Nat.not_lt] at hc
  obtain ⟨hpos, hin, hround⟩ := hc
  intro e
  obtain ⟨as, t, has, hrun, hidle⟩ := e.returns
  rw [run_process r.idle] at hrun
  have d : Doomed o w.clock id timer.interval
      { w with pc := .scan w.clock (scanned o w.wheel.last w.clock) } :=
    ⟨rfl, r.table, ⟨timer, ht, rfl⟩, fun _ h => absurd h List.not_mem_nil,
      .inr ⟨before, i, after, rounds, he, hin, hr, hid⟩⟩
  exact doomed_run d hpos hround has hrun hidle

theorem process_ends_iff (o : Options) (w : World) (r : Ready o w) : Ends o w ↔ Clears o w := by
  refine ⟨fun e before i after he rounds hr id hid timer ht => ?_, ends_of_clears r⟩
  by_contra hc
  exact endless before after i id rounds r he hr hid ht hc e

theorem ready_of_run (clock : Int) (as : List Action)
    (ha : (system o).Along Alone (World.init clock) as)
    (h : (system o).run (World.init clock) as = some w) (hpc : w.pc = .idle) : Ready o w :=
  ready_of_waits (Transition.System.run_invariant (M := system o)
    (fun _ _ _ s ha h => waits_step s ha h) (waits_init clock) ha h) hpc

theorem clears_of_interval (h : ∀ id timer, w.wheel.table id = some timer →
    0 < timer.interval → o.tick * o.buckets ≤ timer.interval) (hclock : 0 ≤ w.clock) :
    Clears o w := by
  intro before i after _ rounds _ id _ timer ht hpos _
  have hint := h id timer ht hpos
  have hticks : getTicks o w.clock + o.buckets ≤ getTicks o (w.clock + timer.interval) := by
    have hdiv : w.clock / o.tick + o.buckets ≤ (w.clock + timer.interval) / o.tick := by
      rw [← Int.add_mul_ediv_left _ _ (Int.ne_of_gt o.tick_pos)]
      exact Int.ediv_le_ediv o.tick_pos (by omega)
    have hnonneg := Int.ediv_nonneg hclock (Int.le_of_lt o.tick_pos)
    simp only [getTicks]
    omega
  have hrounds := Nat.div_le_div_right (c := o.buckets) hticks
  rw [Nat.add_div_right _ o.buckets_pos] at hrounds
  exact hrounds

theorem process_ends_periodic : ∃ w : World,
    (system ⟨100, 4, by decide, by decide⟩).run (World.init 300)
      [.add 150 400, .advance 0, .advance 0, .advance 0, .elapse 200] = some w ∧
    Ends ⟨100, 4, by decide, by decide⟩ w := by
  refine ⟨_, rfl, (process_ends_iff _ _ (ready_of_run 300
    [.add 150 400, .advance 0, .advance 0, .advance 0, .elapse 200] (by decide) rfl rfl)).mpr
    (clears_of_interval (fun id timer h _ => ?_) (by decide))⟩
  change (if id = 1 then some _ else none) = some timer at h
  split at h
  · cases h
    decide
  · cases h

theorem process_never_ends : ∃ w : World,
    (system ⟨100, 4, by decide, by decide⟩).run (World.init 300)
      [.add 0 10, .advance 0, .advance 0, .advance 0] = some w ∧
    Ready ⟨100, 4, by decide, by decide⟩ w ∧ ¬ Ends ⟨100, 4, by decide, by decide⟩ w := by
  have r {w : World} (h : (system ⟨100, 4, by decide, by decide⟩).run (World.init 300)
      [.add 0 10, .advance 0, .advance 0, .advance 0] = some w) (hpc : w.pc = .idle) :=
    ready_of_run 300 _ (by decide) h hpc
  refine ⟨_, rfl, r rfl rfl, ?_⟩
  exact endless [] [] 3 1 0 (r rfl rfl) rfl (by decide)
    ⟨[1], List.mem_cons_self, List.mem_cons_self⟩ rfl (by decide)

end TimerHashWheel
end Pedronet
