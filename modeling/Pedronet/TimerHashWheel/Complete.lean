import Pedronet.TimerHashWheel.Waiting

namespace Pedronet
namespace TimerHashWheel
variable {o : Options} {w t : World}

theorem ticks_mono {a b : Int} (h : a ≤ b) : getTicks o a ≤ getTicks o b :=
  Int.toNat_le_toNat (Int.ediv_le_ediv o.tick_pos h)

theorem mod_between {n t1 t t2 : Nat} (h1 : t1 ≤ t) (h2 : t ≤ t2) (hn : t2 - t1 < n) :
    if t1 % n ≤ t2 % n then t1 % n ≤ t % n ∧ t % n ≤ t2 % n
    else t1 % n ≤ t % n ∨ t % n ≤ t2 % n := by
  have hpos : 0 < n := by omega
  have e1 := Nat.div_add_mod t1 n
  have e := Nat.div_add_mod t n
  have e2 := Nat.div_add_mod t2 n
  have l1 := Nat.mod_lt t1 hpos
  have l := Nat.mod_lt t hpos
  have l2 := Nat.mod_lt t2 hpos
  have hstep {a b : Nat} (hab : a < b) : n * a + n ≤ n * b := by
    rw [← Nat.mul_succ]
    exact Nat.mul_le_mul_left n hab
  rcases Nat.lt_or_eq_of_le (Nat.div_le_div_right (c := n) h1) with hlt | heq
  · -- `t` is in a later round than `t1`, so `t2` is in the round of `t`.
    have hr := hstep hlt
    rcases Nat.lt_or_eq_of_le (Nat.div_le_div_right (c := n) h2) with hlt2 | heq2
    · have hr2 := hstep hlt2
      omega
    · rw [heq2] at e hr
      split <;> omega
  · rw [← heq] at e
    rcases Nat.lt_or_eq_of_le (Nat.div_le_div_right (c := n) h2) with hlt2 | heq2
    · rw [← heq] at hlt2
      have hr2 := hstep hlt2
      split <;> omega
    · rw [← heq] at heq2
      rw [← heq2] at e2
      split <;> omega

theorem scanned_covers {last now e : Int} (h1 : getTicks o last ≤ getTicks o e)
    (h2 : getTicks o e ≤ getTicks o now) : bucketOf o e ∈ scanned o last now := by
  have hlt := Nat.mod_lt (getTicks o e) o.buckets_pos
  simp only [scanned, bucketOf]
  split
  · rename_i hn
    have hm := mod_between h1 h2 hn
    split
    · rename_i hb
      rw [if_pos hb] at hm
      rw [List.mem_range'_1]
      omega
    · rename_i hb
      rw [if_neg hb] at hm
      rw [List.mem_append, List.mem_range'_1, List.mem_range'_1]
      omega
  · rw [List.mem_range'_1]
    omega

theorem pop_none {b : Bucket} {rounds r id : Nat} (h : b.pop rounds = none) (hid : b.Holds r id) :
    rounds < r := by
  simp only [Bucket.pop] at h
  split at h
  · rename_i hp
    exact absurd hid (OrderedMultimap.pop_min_none hp)
  · rename_i first ids rest hp
    split at h
    · rename_i hlt
      exact lt_of_lt_of_le hlt (OrderedMultimap.pop_min_le hp hid)
    · cases h

def Pc.todo : Pc → List Nat
  | .idle => []
  | .scan _ todo | .entries _ _ todo | .claimed _ _ _ _ todo => todo
  | .invoke _ _ _ _ todo | .callback _ _ todo => todo

def Pc.base (last : Int) : Pc → Int
  | .idle => last
  | .scan now _ | .entries now _ _ | .claimed now _ _ _ _ => now
  | .invoke now _ _ _ _ | .callback now _ _ => now

def World.base (w : World) : Int := w.pc.base w.wheel.last

variable (o) in
structure Ahead (w : World) : Prop where
  last : w.wheel.last ≤ w.base
  clock : w.base ≤ w.clock
  adds : ∀ id ∈ w.adds.flatMap AddPc.waiting, w.base ≤ w.pending id
  bucket : ∀ i, ∀ id ∈ (w.wheel.buckets i).values,
    getTicks o w.wheel.last ≤ getTicks o (w.pending id) ∧
      (getTicks o (w.pending id) < getTicks o w.base → i ∈ w.pc.todo)

theorem ahead_at (s : Ahead o w) {pc : Pc} (h : w.pc = pc) :
    w.wheel.last ≤ pc.base w.wheel.last ∧ pc.base w.wheel.last ≤ w.clock ∧
      (∀ id ∈ w.adds.flatMap AddPc.waiting, pc.base w.wheel.last ≤ w.pending id) ∧
      ∀ i, ∀ id ∈ (w.wheel.buckets i).values,
        getTicks o w.wheel.last ≤ getTicks o (w.pending id) ∧
          (getTicks o (w.pending id) < getTicks o (pc.base w.wheel.last) → i ∈ pc.todo) := by
  subst h
  exact ⟨s.last, s.clock, s.adds, s.bucket⟩

theorem ahead_init (clock : Int) : Ahead o (World.init clock) where
  last := Int.le_refl _
  clock := Int.le_refl _
  adds id h := by simp [World.init] at h
  bucket i id h := by simp [World.init, OrderedMultimap.values, OrderedMultimap.empty] at h

theorem ahead_same (s : Ahead o w) {pc : Pc} (hpc : w.pc = pc)
    (hb : t.wheel.buckets = w.wheel.buckets) (hl : t.wheel.last = w.wheel.last)
    (hp : t.pending = w.pending) (hbase : t.pc.base w.wheel.last = pc.base w.wheel.last)
    (hc : w.clock ≤ t.clock)
    (ha : ∀ id ∈ t.adds.flatMap AddPc.waiting, id ∈ w.adds.flatMap AddPc.waiting)
    (ht : t.pc.todo = pc.todo) : Ahead o t := by
  have hbase' : t.base = w.base := by rw [World.base, World.base, hl, hbase, hpc]
  subst hpc
  exact ⟨by rw [hl, hbase']; exact s.last, by rw [hbase']; exact Int.le_trans s.clock hc,
    fun id hid => by rw [hbase', hp]; exact s.adds id (ha id hid),
    by rw [hb, hl, hp, hbase', ht]; exact s.bucket⟩

theorem ahead_insert (id : Nat) (e : Int) (s : Ahead o w) (he : w.base ≤ e)
    (hb : t.wheel.buckets = (w.wheel.insert o e id).buckets) (hl : t.wheel.last = w.wheel.last)
    (hp : t.pending = fun i => if i = id then e else w.pending i) (hbase : t.base = w.base)
    (hc : t.clock = w.clock) (ht : t.pc.todo = w.pc.todo)
    (hid : ∀ i, id ∉ (w.wheel.buckets i).values)
    (ha : ∀ i ∈ t.adds.flatMap AddPc.waiting, i ∈ w.adds.flatMap AddPc.waiting ∧ i ≠ id) :
    Ahead o t := by
  refine ⟨by rw [hl, hbase]; exact s.last, by rw [hbase, hc]; exact s.clock, ?_, ?_⟩
  · intro i hi
    obtain ⟨hw, hne⟩ := ha i hi
    rw [hbase, hp]
    simpa only [if_neg hne] using s.adds i hw
  · intro j i hi
    rw [hb, mem_values_insert] at hi
    rw [hl, hbase, ht, hp]
    rcases hi with ⟨-, rfl⟩ | hi
    · simp only [if_true]
      exact ⟨ticks_mono (Int.le_trans s.last he),
        fun hlt => absurd (ticks_mono he) (Nat.not_le.mpr hlt)⟩
    · have hne : i ≠ id := fun h => hid j (h ▸ hi)
      simpa only [if_neg hne] using s.bucket j i hi

theorem ahead_add (p : Placed o w) (s : Ahead o w) (delay : Nat) (interval : Int) :
    Ahead o (w.add delay interval) := by
  obtain ⟨hw, hb, -⟩ := p.fresh (w.wheel.counter + 1) (Nat.lt_succ_self _)
  have hold {id : Nat} (hne : id ≠ w.wheel.counter + 1) :
      (w.add delay interval).pending id = w.pending id := if_neg hne
  refine ⟨s.last, s.clock, fun id hid => ?_, fun i id hid => ?_⟩
  · rcases List.mem_cons.mp hid with rfl | hid
    · simp only [World.add, if_true]
      exact Int.le_trans s.clock (Int.le_add_of_nonneg_right (Int.natCast_nonneg _))
    · rw [hold fun he => hw (List.mem_append_left _ (he ▸ hid))]
      exact s.adds id hid
  · rw [hold fun he => hb i (he ▸ hid)]
    exact s.bucket i id hid

theorem ahead_advance (p : Placed o w) (s : Ahead o w) {index : Nat} {add : AddPc}
    (h : w.adds[index]? = some add) : Ahead o (w.advance o index add) := by
  have hadd := List.mem_of_getElem? h
  have hpend := p.adds add hadd
  cases add with
  | computed id expire interval =>
    have hwait := Pool.flat_map_set (b := .entered id expire) AddPc.waiting h
    refine ahead_same s rfl rfl rfl rfl rfl (Int.le_refl _) (fun i hi => ?_) rfl
    rcases List.mem_append.mp (hwait.subset (List.mem_append_left _ hi)) with hm | hm
    · rw [List.mem_singleton.mp hm]
      exact List.mem_flatMap.mpr ⟨_, hadd, List.mem_cons_self⟩
    · exact hm
  | entered id expire =>
    have hperm := Pool.flat_map_set (b := .inserted expire) AddPc.waiting h
    have hin : id ∈ w.adds.flatMap AddPc.waiting :=
      List.mem_flatMap.mpr ⟨_, hadd, List.mem_cons_self⟩
    have hnd := hperm.nodup_iff.mpr (List.nodup_append.mp p.waiting_nodup).1
    have hpend' : w.pending id = expire := hpend
    refine ahead_insert id expire s (hpend' ▸ s.adds id hin) rfl rfl ?_ rfl rfl rfl
      (p.apart id (List.mem_append_left _ hin)) fun i hi => ⟨?_, ?_⟩
    · funext i
      by_cases hi : i = id
      · simp [World.advance, hi, hpend']
      · simp [World.advance, hi]
    · exact hperm.subset (List.mem_append_left _ hi)
    · rintro rfl
      exact (List.nodup_append.mp hnd).2.2 i hi i List.mem_cons_self rfl
  | inserted expire =>
    have hsub := (Pool.flat_map_erase AddPc.waiting h).subset
    exact ahead_same s rfl rfl rfl rfl rfl (Int.le_refl _) (fun i hi => hsub hi) rfl

-- An Add made by the loop thread has returned when Process begins.
def Alone (w : World) (a : Action) : Prop := a = .process → w.adds = []

instance (w : World) (a : Action) : Decidable (Alone w a) := inferInstanceAs (Decidable (_ → _))

theorem popped_empty (p : Placed o w) {now : Int} {i id : Nat}
    (hpop : (w.wheel.buckets i).pop (getRounds o now) = none)
    (hid : id ∈ (w.wheel.buckets i).values) : getTicks o now ≤ getTicks o (w.pending id) := by
  obtain ⟨rounds, hh⟩ := OrderedMultimap.mem_values.mp hid
  have hr := pop_none hpop hh
  rw [← (p.bucket i rounds id hh).2] at hr
  refine Nat.le_of_not_lt fun hlt => ?_
  exact absurd (Nat.div_le_div_right (Nat.le_of_lt hlt)) (Nat.not_le.mpr hr)

theorem ahead_taken (s : Ahead o w) {now : Int} {i : Nat} {todo ids : List Nat} {rest : Bucket}
    (hpc : w.pc = .scan now (i :: todo))
    (hpop : (w.wheel.buckets i).pop (getRounds o now) = some (ids, rest)) :
    Ahead o { w with
      wheel := { w.wheel with buckets := fun j => if j = i then rest else w.wheel.buckets j }
      pc := .entries now ids (i :: todo) } := by
  obtain ⟨first, -, hmin⟩ := pop_some hpop
  obtain ⟨hlast, hclock, hadds, hbucket⟩ := ahead_at s hpc
  refine ⟨hlast, hclock, hadds, fun j id hid => hbucket j id ?_⟩
  simp only at hid
  split at hid
  · rename_i hj
    rw [hj, OrderedMultimap.pop_min_values hmin]
    exact List.mem_append_right _ hid
  · exact hid

theorem ahead_pop (p : Placed o w) (s : Ahead o w) {now : Int} {i : Nat} {todo : List Nat}
    (hpc : w.pc = .scan now (i :: todo))
    (hpop : (w.wheel.buckets i).pop (getRounds o now) = none) :
    Ahead o { w with pc := .scan now todo } := by
  obtain ⟨hlast, hclock, hadds, hbucket⟩ := ahead_at s hpc
  refine ⟨hlast, hclock, hadds, fun j id hid => ?_⟩
  obtain ⟨hle, htodo⟩ := hbucket j id hid
  refine ⟨hle, fun hlt => ?_⟩
  rcases List.mem_cons.mp (htodo hlt) with rfl | hj
  · exact absurd (popped_empty p hpop hid) (Nat.not_le.mpr hlt)
  · exact hj

theorem ahead_rearm (p : Placed o w) (s : Ahead o w) {now due : Int} {timer : Entry}
    {ids todo : List Nat} (hpc : w.pc = .claimed now timer due ids todo) {e : Int} (he : now ≤ e) :
    Ahead o { w.rearm o e timer with pc := .invoke now timer due ids todo } := by
  have hbase : w.base = now := by rw [World.base, hpc]; rfl
  have hin : timer.id ∈ w.waiting := mem_waiting_pc (by rw [hpc]; exact List.mem_cons_self)
  have hnd := p.waiting_nodup
  rw [World.waiting, hpc] at hnd
  refine ahead_insert timer.id e s (hbase ▸ he) rfl rfl rfl hbase.symm rfl (by rw [hpc]; rfl)
    (p.apart timer.id hin) fun i hi => ⟨hi, ?_⟩
  rintro rfl
  exact (List.nodup_append.mp hnd).2.2 _ hi _ List.mem_cons_self rfl

theorem ahead_step {a : Action} (p : Placed o w) (s : Ahead o w) (ha : Alone w a)
    (h : step o w a = some t) : Ahead o t := by
  cases step_moves h with
  | elapse usecs =>
    exact ahead_same s rfl rfl rfl rfl rfl (Int.le_add_of_nonneg_right (Int.natCast_nonneg _))
      (fun _ hi => hi) rfl
  | add delay interval => exact ahead_add p s delay interval
  | advance hi => exact ahead_advance p s hi
  | cancel id => exact ahead_same s rfl rfl rfl rfl rfl (Int.le_refl _) (fun _ hi => hi) rfl
  | process hpc =>
    obtain ⟨-, hclock, -, hbucket⟩ := ahead_at s hpc
    refine ⟨hclock, Int.le_refl _, ?_, fun i id hid => ?_⟩
    · intro id hid
      simp only [ha rfl] at hid
      cases hid
    · have hle := (hbucket i id hid).1
      refine ⟨hle, fun hlt => ?_⟩
      rw [← bucket_unique p hid]
      exact scanned_covers hle (Nat.le_of_lt hlt)
  | taken hpc hpop => exact ahead_taken s hpc hpop
  | passed hpc hpop => exact ahead_pop p s hpc hpop
  | claimed hpc | gone hpc | emptied hpc | dropped hpc | invoke hpc | resume hpc =>
    exact ahead_same s hpc rfl rfl rfl rfl (Int.le_refl _) (fun _ hi => hi) rfl
  | rearmed hpc hpos => exact ahead_rearm p s hpc (by omega)
  | @finish now hpc =>
    obtain ⟨-, hclock, hadds, hbucket⟩ := ahead_at s hpc
    refine ⟨Int.le_refl _, hclock, hadds, fun i id hid => ?_⟩
    have hle : getTicks o now ≤ getTicks o (w.pending id) := by
      refine Nat.not_lt.mp fun hlt => ?_
      cases (hbucket i id hid).2 hlt
    exact ⟨hle, fun hlt => absurd hle (Nat.not_le.mpr hlt)⟩

def invocations (id : Nat) (w : World) : Nat := (w.fired.map Fired.id).count id

variable (o) in
inductive Coming (now : Int) (id : Nat) (w : World) : Prop where
  | claimed (h : id ∈ w.pc.claim)
  | waiting (ht : w.wheel.table id ≠ none) (hd : getTicks o (w.pending id) ≤ getTicks o now)
      (h : id ∈ w.pc.waiting ∨ ∃ i ∈ w.pc.todo, id ∈ (w.wheel.buckets i).values)

variable (o) in
structure Tracked (now : Int) (id count : Nat) (w : World) : Prop where
  base (last : Int) : w.pc.base last = now
  before : count ≤ invocations id w
  coming : invocations id w = count → Coming o now id w

def TurnFirst (id : Nat) (w : World) (u : World) (a : Action) : Prop :=
  a = .cancel id → invocations id w < invocations id u ∨ id ∈ u.pc.claim

instance (id : Nat) (w u : World) (a : Action) : Decidable (TurnFirst id w u a) :=
  inferInstanceAs (Decidable (_ → _))

theorem tracked_same {now : Int} {id count : Nat} (k : Tracked o now id count w)
    (hb : ∀ last, t.pc.base last = w.pc.base last) (hf : t.fired = w.fired)
    (hc : Coming o now id w → Coming o now id t) : Tracked o now id count t where
  base last := (hb last).trans (k.base last)
  before := by rw [invocations, hf]; exact k.before
  coming h := by
    rw [invocations, hf] at h
    exact hc (k.coming h)

theorem coming_add {now : Int} {id : Nat} (p : Placed o w) (c : Coming o now id w) (delay : Nat)
    (interval : Int) : Coming o now id (w.add delay interval) := by
  obtain ⟨hw, hb, -⟩ := p.fresh (w.wheel.counter + 1) (Nat.lt_succ_self _)
  cases c with
  | claimed h => exact .claimed h
  | waiting ht hd h =>
    have hne : id ≠ w.wheel.counter + 1 := by
      rintro rfl
      rcases h with h | ⟨i, -, hi⟩
      · exact hw (mem_waiting_pc h)
      · exact hb i hi
    have hold : (w.add delay interval).pending id = w.pending id := if_neg hne
    exact .waiting ht (hold ▸ hd) h

theorem coming_advance {now : Int} {id : Nat} (c : Coming o now id w) {index : Nat} {add : AddPc} :
    Coming o now id (w.advance o index add) := by
  cases c with
  | claimed h => cases add <;> exact .claimed h
  | waiting ht hd h =>
    cases add with
    | computed i expire interval =>
      refine .waiting ?_ hd h
      by_cases hi : id = i
      · simp [World.advance, setEntry, hi]
      · simpa [World.advance, setEntry, hi] using ht
    | entered i expire =>
      refine .waiting ht hd (h.imp_right ?_)
      rintro ⟨j, hj, hm⟩
      exact ⟨j, hj, mem_values_insert.mpr (.inr hm)⟩
    | inserted expire => exact .waiting ht hd h

theorem coming_at {now : Int} {id : Nat} (c : Coming o now id w) {pc : Pc} (hpc : w.pc = pc)
    (hn : id ∉ pc.claim) : w.wheel.table id ≠ none ∧
      getTicks o (w.pending id) ≤ getTicks o now ∧
        (id ∈ pc.waiting ∨ ∃ i ∈ pc.todo, id ∈ (w.wheel.buckets i).values) := by
  subst hpc
  cases c with
  | claimed h => exact absurd h hn
  | waiting ht hd h => exact ⟨ht, hd, h⟩

theorem coming_moved {now : Int} {id : Nat} (c : Coming o now id w) {pc : Pc} (hpc : w.pc = pc)
    (hn : id ∉ pc.claim) (ht : t.wheel = w.wheel) (hp : t.pending = w.pending)
    (htodo : t.pc.todo = pc.todo)
    (hw : id ∈ pc.waiting → w.wheel.table id ≠ none → id ∈ t.pc.waiting) : Coming o now id t := by
  obtain ⟨hlive, hd, h⟩ := coming_at c hpc hn
  rw [← ht] at h
  rw [← htodo] at h
  exact .waiting (ht ▸ hlive) (hp ▸ hd) (h.imp_left fun h => hw h hlive)

theorem coming_pop {now : Int} {id : Nat} (p : Placed o w) (c : Coming o now id w) {i : Nat}
    {todo : List Nat} (hpc : w.pc = .scan now (i :: todo))
    (hpop : (w.wheel.buckets i).pop (getRounds o now) = none) :
    Coming o now id { w with pc := .scan now todo } := by
  obtain ⟨ht, hd, h⟩ := coming_at c hpc List.not_mem_nil
  rcases h with h | ⟨j, hj, hm⟩
  · cases h
  · rcases List.mem_cons.mp hj with rfl | hj
    · obtain ⟨rounds, hh⟩ := OrderedMultimap.mem_values.mp hm
      have hr := pop_none hpop hh
      rw [← (p.bucket j rounds id hh).2] at hr
      exact absurd (Nat.div_le_div_right hd) (Nat.not_le.mpr hr)
    · exact .waiting ht hd (.inr ⟨j, hj, hm⟩)

theorem coming_taken {now now' : Int} {id i : Nat} {todo ids : List Nat} {rest : Bucket}
    (c : Coming o now id w) (hpc : w.pc = .scan now' (i :: todo))
    (hpop : (w.wheel.buckets i).pop (getRounds o now') = some (ids, rest)) :
    Coming o now id { w with
      wheel := { w.wheel with buckets := fun j => if j = i then rest else w.wheel.buckets j }
      pc := .entries now' ids (i :: todo) } := by
  obtain ⟨first, -, hmin⟩ := pop_some hpop
  obtain ⟨ht, hd, h⟩ := coming_at c hpc List.not_mem_nil
  refine .waiting ht hd ?_
  rcases h with h | ⟨j, hj, hm⟩
  · cases h
  · by_cases hji : j = i
    · subst hji
      rw [OrderedMultimap.pop_min_values hmin] at hm
      rcases List.mem_append.mp hm with hm | hm
      · exact .inl hm
      · exact .inr ⟨j, List.mem_cons_self, by simpa using hm⟩
    · exact .inr ⟨j, hj, by simpa [hji] using hm⟩

theorem coming_rearm {now now' due e : Int} {id : Nat} {timer : Entry} {ids todo : List Nat}
    (c : Coming o now id w) (hpc : w.pc = .claimed now' timer due ids todo) :
    Coming o now id { w.rearm o e timer with pc := .invoke now' timer due ids todo } := by
  by_cases hne : id = timer.id
  · exact .claimed (by simp [Pc.claim, hne])
  · obtain ⟨ht, hd, h⟩ := coming_at c hpc (by simpa [Pc.claim] using hne)
    refine .waiting ?_ ?_ ?_
    · simpa [World.rearm, TimerHashWheel.insert, setRounds, hne] using ht
    · simpa only [World.rearm, if_neg hne] using hd
    · rcases h with h | ⟨j, hj, hm⟩
      · exact .inl ((List.mem_cons.mp h).resolve_left hne)
      · exact .inr ⟨j, hj, mem_values_insert.mpr (.inr hm)⟩

theorem coming_dropped {now now' due : Int} {id : Nat} {timer : Entry} {ids todo : List Nat}
    (c : Coming o now id w) (hpc : w.pc = .claimed now' timer due ids todo) :
    Coming o now id { w with
      wheel := w.wheel.cancel timer.id, pc := .invoke now' timer due ids todo } := by
  by_cases hne : id = timer.id
  · exact .claimed (by simp [Pc.claim, hne])
  · obtain ⟨ht, hd, h⟩ := coming_at c hpc (by simpa [Pc.claim] using hne)
    refine .waiting (by simpa [TimerHashWheel.cancel, hne] using ht) hd ?_
    exact h.imp_left fun h => (List.mem_cons.mp h).resolve_left hne

theorem coming_cancel {now : Int} {id i : Nat} (c : Coming o now id w)
    (hc : i = id → id ∈ w.pc.claim) : Coming o now id { w with wheel := w.wheel.cancel i } := by
  cases c with
  | claimed h => exact .claimed h
  | waiting ht hd h =>
    by_cases hi : i = id
    · exact .claimed (hc hi)
    · exact .waiting (by simpa [TimerHashWheel.cancel, Ne.symm hi] using ht) hd h

theorem tracked_invoke {now now' due : Int} {id count : Nat} {timer : Entry} {ids todo : List Nat}
    (k : Tracked o now id count w) (hpc : w.pc = .invoke now' timer due ids todo) :
    Tracked o now id count { w with
      pc := .callback now' ids todo, fired := ⟨timer.id, due, now'⟩ :: w.fired } := by
  have hcount : invocations id { w with
      pc := .callback now' ids todo, fired := ⟨timer.id, due, now'⟩ :: w.fired } =
      invocations id w + if timer.id = id then 1 else 0 := by
    simp [invocations, List.count_cons]
  have hbefore := k.before
  refine ⟨fun last => ?_, by omega, fun hn => ?_⟩
  · rw [← k.base last, hpc]
    rfl
  · have hne : id ≠ timer.id := by
      intro he
      rw [if_pos he.symm] at hcount
      omega
    rw [if_neg (Ne.symm hne)] at hcount
    exact coming_moved (k.coming (hcount.symm.trans hn)) hpc (by simpa [Pc.claim] using hne) rfl rfl
      rfl fun h _ => h

theorem tracked_step {now : Int} {id count : Nat} {a : Action} (p : Placed o w)
    (k : Tracked o now id count w)
    (hc : a = .cancel id → count < invocations id w ∨ id ∈ w.pc.claim) (hf : a ≠ .finish)
    (h : step o w a = some t) : Tracked o now id count t := by
  cases step_moves h with
  | elapse usecs =>
    refine tracked_same k (fun _ => rfl) rfl fun c => ?_
    cases c with
    | claimed h => exact .claimed h
    | waiting ht hd h => exact .waiting ht hd h
  | add delay interval =>
    exact tracked_same k (fun _ => rfl) rfl fun c => coming_add p c delay interval
  | @advance index pc hi =>
    have hsame : (w.advance o index pc).pc = w.pc ∧ (w.advance o index pc).fired = w.fired := by
      cases pc <;> exact ⟨rfl, rfl⟩
    exact tracked_same k (fun _ => by rw [hsame.1]) hsame.2 fun c => coming_advance c
  | cancel i =>
    refine ⟨k.base, k.before, fun hn => coming_cancel (k.coming hn) ?_⟩
    rintro rfl
    exact (hc rfl).resolve_left (Nat.not_lt.mpr (Nat.le_of_eq hn))
  | process hpc =>
    have h1 := k.base 0
    have h2 := k.base 1
    simp only [hpc, Pc.base] at h1 h2
    omega
  | taken hpc hpop =>
    exact tracked_same k (fun _ => by rw [hpc]; rfl) rfl fun c => coming_taken c hpc hpop
  | @passed now' i todo hpc hpop =>
    have hb : now' = now := by simpa [hpc, Pc.base] using k.base 0
    subst hb
    exact tracked_same k (fun _ => by rw [hpc]; rfl) rfl fun c => coming_pop p c hpc hpop
  | claimed hpc ht =>
    refine tracked_same k (fun _ => by rw [hpc]; rfl) rfl fun c => ?_
    refine coming_moved c hpc List.not_mem_nil rfl rfl rfl fun h _ => ?_
    simpa [Pc.waiting, (p.table _ _ ht).1] using h
  | gone hpc ht =>
    refine tracked_same k (fun _ => by rw [hpc]; rfl) rfl fun c => ?_
    refine coming_moved c hpc List.not_mem_nil rfl rfl rfl fun h hlive => ?_
    refine (List.mem_cons.mp h).resolve_left ?_
    rintro rfl
    exact hlive ht
  | emptied hpc | resume hpc =>
    refine tracked_same k (fun _ => by rw [hpc]; rfl) rfl fun c => ?_
    exact coming_moved c hpc List.not_mem_nil rfl rfl rfl fun h _ => h
  | dropped hpc hi =>
    exact tracked_same k (fun _ => by rw [hpc]; rfl) rfl fun c => coming_dropped c hpc
  | rearmed hpc hi =>
    exact tracked_same k (fun _ => by rw [hpc]; rfl) rfl fun c => coming_rearm c hpc
  | invoke hpc => exact tracked_invoke k hpc
  | finish hpc => exact absurd rfl hf

theorem tracked_process {id : Nat} (p : Placed o w) (l : Located w) (s : Ahead o w)
    (ha : w.adds = []) (ht : w.wheel.table id ≠ none)
    (hd : getTicks o (w.pending id) ≤ getTicks o w.clock) (h : step o w .process = some t) :
    Tracked o w.clock id (invocations id w) t := by
  cases step_moves h with
  | process hpc =>
    refine ⟨fun _ => rfl, Nat.le_refl _, fun _ => .waiting ht hd (.inr ?_)⟩
    rcases l id ht with hm | ⟨i, hi⟩
    · simp [World.waiting, ha, hpc, Pc.waiting] at hm
    · refine ⟨i, ?_, hi⟩
      rw [← bucket_unique p hi]
      exact scanned_covers (s.bucket i id hi).1 hd

theorem tracked_run {now : Int} {id count : Nat} {as : List Action} {u : World}
    (p : Placed o w) (k : Tracked o now id count w) (hf : .finish ∉ as)
    (hc : (system o).Along (fun u a => a = .cancel id → count < invocations id u ∨ id ∈ u.pc.claim)
      w as) (h : (system o).run w as = some u) : Tracked o now id count u := by
  induction as generalizing w with
  | nil =>
    cases h
    exact k
  | cons a as ih =>
    obtain ⟨t, ht, hu⟩ := Transition.System.run_cons h
    obtain ⟨ca, cas⟩ := hc t ht
    refine ih (placed_step p ht) ?_ (fun hm => hf (List.mem_cons_of_mem _ hm)) cas hu
    exact tracked_step p k ca (fun he => hf (he ▸ List.mem_cons_self)) ht

structure Waits (o : Options) (w : World) : Prop where
  placed : Placed o w
  located : Located w
  ahead : Ahead o w

theorem waits_step {a : Action} (s : Waits o w) (ha : Alone w a) (h : step o w a = some t) :
    Waits o t :=
  ⟨placed_step s.placed h, located_step s.placed s.located h, ahead_step s.placed s.ahead ha h⟩

theorem waits_init (clock : Int) : Waits o (World.init clock) :=
  ⟨placed_init clock, located_init clock, ahead_init clock⟩

theorem due_timers_invoked (o : Options) (clock : Int) (as bs : List Action) {w t : World}
    {id : Nat} (hw : (system o).run (World.init clock) as = some w)
    (ht : (system o).run w (.process :: (bs ++ [.finish])) = some t) (hf : .finish ∉ bs)
    (ha : (system o).Along Alone (World.init clock) (as ++ [.process]))
    (hid : w.wheel.table id ≠ none) (hd : getTicks o (w.pending id) ≤ getTicks o w.clock)
    (hc : (system o).Along (TurnFirst id w) w (.process :: bs)) :
    invocations id w < invocations id t := by
  have hs : Waits o w := Transition.System.run_invariant (M := system o)
    (fun _ _ _ s ha h => waits_step s ha h) (waits_init clock)
    (Transition.System.along_initial ha (List.prefix_append _ _)) hw
  obtain ⟨u, hu, hrest⟩ := Transition.System.run_cons ht
  obtain ⟨v, hv, hfin⟩ := Transition.System.run_append.mp hrest
  obtain ⟨t', hfin, hnil⟩ := Transition.System.run_cons hfin
  cases hnil
  have halone := Transition.System.along_last ha hw hu rfl
  have k := tracked_process hs.placed hs.located hs.ahead halone hid hd hu
  have hp : Placed o u := placed_step (a := .process) hs.placed hu
  have kv := tracked_run hp k hf (hc u hu).2 hv
  cases step_moves (a := .finish) hfin with
  | finish hpc =>
    refine Nat.lt_of_le_of_ne kv.before fun he => ?_
    -- At the end of the scan nothing is claimed, taken out or left to visit.
    obtain ⟨-, -, h | ⟨i, hi, -⟩⟩ := coming_at (kv.coming he.symm) hpc List.not_mem_nil
    · cases h
    · cases hi

def acrossTheEnd : List Action :=
  [.pop, .pop, .claim, .rearm, .invoke, .add 0 0, .advance 0, .advance 0, .advance 0, .resume,
    .claim, .pop, .pop, .claim, .rearm, .invoke, .resume, .claim, .pop]

theorem due_timers_invoked_across_the_end :
    ∃ w t : World,
      (system ⟨100, 4, by decide, by decide⟩).run (World.init 300)
        [.add 150 0, .advance 0, .advance 0, .advance 0, .elapse 200] = some w ∧
      (system ⟨100, 4, by decide, by decide⟩).run w (.process :: (acrossTheEnd ++ [.finish])) =
        some t ∧ invocations 1 w < invocations 1 t := by
  refine ⟨_, _, rfl, rfl, ?_⟩
  exact due_timers_invoked ⟨100, 4, by decide, by decide⟩ 300
    [.add 150 0, .advance 0, .advance 0, .advance 0, .elapse 200] acrossTheEnd rfl rfl (by decide)
    (by decide) (by decide) (by decide) (by decide)

end TimerHashWheel
end Pedronet
