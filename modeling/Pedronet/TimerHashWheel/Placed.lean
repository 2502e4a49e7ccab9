import Pedronet.TimerHashWheel
import Pedronet.Pool
import Mathlib.Data.List.Nodup

namespace Pedronet
namespace TimerHashWheel
variable {o : Options} {w t : World}

def AddPc.waiting : AddPc → List Nat
  | .computed id _ _ => [id]
  | .entered id _ => [id]
  | .inserted _ => []

def AddPc.Pending (pending : Nat → Int) : AddPc → Prop
  | .computed id expire _ => pending id = expire
  | .entered id expire => pending id = expire
  | .inserted _ => True

def Pc.waiting : Pc → List Nat
  | .idle => []
  | .scan _ _ => []
  | .entries _ ids _ => ids
  | .claimed _ timer _ ids _ => timer.id :: ids
  | .invoke _ _ _ ids _ => ids
  | .callback _ ids _ => ids

def World.waiting (w : World) : List Nat := w.adds.flatMap AddPc.waiting ++ w.pc.waiting

variable (o) in
def Due (now : Int) (todo : List Nat) (e : Int) : Prop :=
  todo.head? = some (bucketOf o e) ∧ getRounds o e ≤ getRounds o now

variable (o) in
def Pc.Taken (pending : Nat → Int) : Pc → Prop
  | .idle => True
  | .scan _ _ => True
  | .entries now ids todo => ∀ id ∈ ids, Due o now todo (pending id)
  | .claimed now timer due ids todo =>
    (∀ id ∈ ids, Due o now todo (pending id)) ∧ Due o now todo due ∧
      timer.rounds = getRounds o due ∧ due = pending timer.id
  | .invoke now timer due ids todo =>
    (∀ id ∈ ids, Due o now todo (pending id)) ∧ Due o now todo due ∧ timer.rounds = getRounds o due
  | .callback now ids todo => ∀ id ∈ ids, Due o now todo (pending id)

variable (o) in
structure Placed (w : World) : Prop where
  bucket : ∀ i rounds id, (w.wheel.buckets i).Holds rounds id →
    bucketOf o (w.pending id) = i ∧ getRounds o (w.pending id) = rounds
  table : ∀ id timer, w.wheel.table id = some timer →
    timer.id = id ∧ timer.rounds = getRounds o (w.pending id)
  adds : ∀ add ∈ w.adds, add.Pending w.pending
  taken : w.pc.Taken o w.pending
  waiting_nodup : w.waiting.Nodup
  apart : ∀ id ∈ w.waiting, ∀ i, id ∉ (w.wheel.buckets i).values
  bucket_nodup : ∀ i, (w.wheel.buckets i).values.Nodup
  fresh : ∀ id, w.wheel.counter < id →
    id ∉ w.waiting ∧ (∀ i, id ∉ (w.wheel.buckets i).values) ∧ w.wheel.table id = none

theorem holds_insert {wheel : TimerHashWheel} {e : Int} {id i rounds id' : Nat} :
    ((wheel.insert o e id).buckets i).Holds rounds id' ↔
      (i = bucketOf o e ∧ rounds = getRounds o e ∧ id' = id) ∨
        (wheel.buckets i).Holds rounds id' := by
  simp only [TimerHashWheel.insert]
  split
  · rename_i hi
    simp only [Bucket.add, OrderedMultimap.holds_insert, hi, true_and]
  · rename_i hi
    simp [hi]

theorem mem_values_insert {wheel : TimerHashWheel} {e : Int} {id i id' : Nat} :
    id' ∈ ((wheel.insert o e id).buckets i).values ↔
      (i = bucketOf o e ∧ id' = id) ∨ id' ∈ (wheel.buckets i).values := by
  simp only [OrderedMultimap.mem_values, holds_insert]
  constructor
  · rintro ⟨rounds, ⟨hi, -, he⟩ | h⟩
    · exact .inl ⟨hi, he⟩
    · exact .inr ⟨rounds, h⟩
  · rintro (⟨hi, he⟩ | ⟨rounds, h⟩)
    · exact ⟨getRounds o e, .inl ⟨hi, rfl, he⟩⟩
    · exact ⟨rounds, .inr h⟩

theorem nodup_insert {wheel : TimerHashWheel} {e : Int} {id i : Nat}
    (h : (wheel.buckets i).values.Nodup) (hid : id ∉ (wheel.buckets i).values) :
    ((wheel.insert o e id).buckets i).values.Nodup := by
  simp only [TimerHashWheel.insert]
  split
  · exact (OrderedMultimap.values_insert _ _ _).nodup_iff.mpr (List.nodup_cons.mpr ⟨hid, h⟩)
  · exact h

theorem pending_congr {add : AddPc} {pending pending' : Nat → Int}
    (h : ∀ id ∈ add.waiting, pending' id = pending id) (hp : add.Pending pending) :
    add.Pending pending' := by
  cases add with
  | computed id expire interval => exact (h id (by simp [AddPc.waiting])).trans hp
  | entered id expire => exact (h id (by simp [AddPc.waiting])).trans hp
  | inserted expire => trivial

theorem taken_congr {pc : Pc} {pending pending' : Nat → Int}
    (h : ∀ id ∈ pc.waiting, pending' id = pending id) (hp : pc.Taken o pending) :
    pc.Taken o pending' := by
  have hall {now : Int} {ids todo : List Nat} (hs : ∀ id ∈ ids, pending' id = pending id)
      (hd : ∀ id ∈ ids, Due o now todo (pending id)) : ∀ id ∈ ids, Due o now todo (pending' id) :=
    fun id hid => hs id hid ▸ hd id hid
  cases pc with
  | idle => trivial
  | scan now todo => trivial
  | entries now ids todo => exact hall h hp
  | claimed now timer due ids todo =>
    obtain ⟨hd, hdue, hr, he⟩ := hp
    exact ⟨hall (fun id hid => h id (List.mem_cons_of_mem _ hid)) hd, hdue, hr,
      he.trans (h timer.id List.mem_cons_self).symm⟩
  | invoke now timer due ids todo => exact ⟨hall h hp.1, hp.2⟩
  | callback now ids todo => exact hall h hp

theorem mem_waiting_add {w : World} {add : AddPc} {id : Nat} (ha : add ∈ w.adds)
    (hid : id ∈ add.waiting) : id ∈ w.waiting :=
  List.mem_append_left _ (List.mem_flatMap.mpr ⟨add, ha, hid⟩)

theorem mem_waiting_pc {w : World} {id : Nat} (hid : id ∈ w.pc.waiting) : id ∈ w.waiting :=
  List.mem_append_right _ hid

theorem waiting_set {index : Nat} {a b : AddPc} (h : w.adds[index]? = some a)
    (hw : b.waiting = a.waiting) :
    w.waiting.Perm ((w.adds.set index b).flatMap AddPc.waiting ++ w.pc.waiting) := by
  have hp := Pool.flat_map_set (b := b) AddPc.waiting h
  rw [hw] at hp
  exact (((List.perm_append_left_iff _).mp (hp.symm.trans List.perm_append_comm)).append_right _ :)

theorem placed_init (clock : Int) : Placed o (World.init clock) where
  bucket i rounds id h := by simp [World.init, OrderedMultimap.Holds, OrderedMultimap.empty] at h
  table id timer h := by simp [World.init] at h
  adds add h := by simp [World.init] at h
  taken := trivial
  waiting_nodup := List.nodup_nil
  apart id h := by simp [World.init, World.waiting, Pc.waiting] at h
  bucket_nodup i := List.nodup_nil
  fresh id _ := ⟨by simp [World.init, World.waiting, Pc.waiting],
    fun i => by simp [World.init, OrderedMultimap.values, OrderedMultimap.empty], rfl⟩

theorem placed_add (p : Placed o w) (delay : Nat) (interval : Int) :
    Placed o (w.add delay interval) := by
  obtain ⟨hw, hb, ht⟩ := p.fresh (w.wheel.counter + 1) (by omega)
  have hne {id : Nat} (hid : id ∈ w.waiting) : id ≠ w.wheel.counter + 1 := fun h => hw (h ▸ hid)
  refine ⟨?_, ?_, ?_, ?_, ?_, ?_, p.bucket_nodup, ?_⟩
  · intro i rounds id h
    have hid : id ≠ w.wheel.counter + 1 :=
      fun he => hb i (he ▸ OrderedMultimap.mem_values.mpr ⟨rounds, h⟩)
    simpa only [World.add, if_neg hid] using p.bucket i rounds id h
  · intro id timer h
    have hid : id ≠ w.wheel.counter + 1 := by
      rintro rfl
      simp only [World.add, ht] at h
      cases h
    simpa only [World.add, if_neg hid] using p.table id timer h
  · intro add hadd
    rcases List.mem_cons.mp hadd with rfl | hadd
    · exact if_pos rfl
    · exact pending_congr (fun id hid => if_neg (hne (mem_waiting_add hadd hid))) (p.adds add hadd)
  · exact taken_congr (fun id hid => if_neg (hne (mem_waiting_pc hid))) p.taken
  · exact List.nodup_cons.mpr ⟨hw, p.waiting_nodup⟩
  · intro id hid i
    rcases List.mem_cons.mp hid with rfl | hid
    · exact hb i
    · exact p.apart id hid i
  · intro id hid
    have hlt : w.wheel.counter < id := Nat.lt_of_succ_lt hid
    obtain ⟨h1, h2, h3⟩ := p.fresh id hlt
    refine ⟨?_, h2, h3⟩
    intro hm
    rcases List.mem_cons.mp hm with rfl | hm
    · exact Nat.lt_irrefl _ hid
    · exact h1 hm

theorem placed_same (p : Placed o w) (hp : t.pending = w.pending)
    (hb : t.wheel.buckets = w.wheel.buckets) (hc : t.wheel.counter = w.wheel.counter)
    (ht : ∀ id, t.wheel.table id = w.wheel.table id ∨ t.wheel.table id = none)
    (ha : ∀ add ∈ t.adds, add.Pending w.pending) (hk : t.pc.Taken o w.pending)
    (hw : t.waiting.Sublist w.waiting) : Placed o t where
  bucket := by rw [hb, hp]; exact p.bucket
  table id timer h := by
    rw [hp]
    rcases ht id with he | he
    · exact p.table id timer (he ▸ h)
    · rw [he] at h; cases h
  adds := by rw [hp]; exact ha
  taken := by rw [hp]; exact hk
  waiting_nodup := p.waiting_nodup.sublist hw
  apart id hid := by rw [hb]; exact p.apart id (hw.subset hid)
  bucket_nodup := by rw [hb]; exact p.bucket_nodup
  fresh id hid := by
    rw [hc] at hid
    obtain ⟨h1, h2, h3⟩ := p.fresh id hid
    refine ⟨fun hm => h1 (hw.subset hm), by rw [hb]; exact h2, ?_⟩
    exact (ht id).elim (fun he => he.trans h3) fun he => he

theorem placed_moved (p : Placed o w) {pc : Pc} (hpc : w.pc = pc) (hp : t.pending = w.pending)
    (hb : t.wheel.buckets = w.wheel.buckets) (hc : t.wheel.counter = w.wheel.counter)
    (ht : ∀ id, t.wheel.table id = w.wheel.table id ∨ t.wheel.table id = none)
    (ha : t.adds = w.adds) (hk : t.pc.Taken o w.pending)
    (hw : t.pc.waiting.Sublist pc.waiting) : Placed o t := by
  refine placed_same p hp hb hc ht (ha ▸ p.adds) hk ?_
  rw [World.waiting, World.waiting, ha, hpc]
  exact hw.append_left _

theorem taken_at (p : Placed o w) {pc : Pc} (hpc : w.pc = pc) : pc.Taken o w.pending := by
  rw [← hpc]
  exact p.taken

theorem placed_insert (id : Nat) (e : Int) (p : Placed o w)
    (hw : w.waiting.Perm (id :: t.waiting))
    (hp : t.pending = fun i => if i = id then e else w.pending i)
    (hb : t.wheel.buckets = (w.wheel.insert o e id).buckets)
    (hc : t.wheel.counter = w.wheel.counter)
    (ht : ∀ i, t.wheel.table i = w.wheel.table i ∨ i = id ∧ t.wheel.table i =
      (w.wheel.table i).map fun timer => { timer with rounds := getRounds o e })
    (hid : ∀ timer, w.wheel.table id = some timer → t.wheel.table id = w.wheel.table id →
      timer.rounds = getRounds o e)
    (ha : ∀ add ∈ t.adds, add.Pending t.pending) (hk : t.pc.Taken o t.pending) : Placed o t := by
  have hnd := hw.nodup_iff.mp p.waiting_nodup
  obtain ⟨hnot, hnd⟩ := List.nodup_cons.mp hnd
  have hmem : id ∈ w.waiting := hw.symm.subset List.mem_cons_self
  have hsub : ∀ i ∈ t.waiting, i ∈ w.waiting := fun i hi =>
    hw.symm.subset (List.mem_cons_of_mem _ hi)
  refine ⟨?_, ?_, ha, hk, hnd, ?_, ?_, ?_⟩
  · intro i rounds id' h
    rw [hb, holds_insert] at h
    rw [hp]
    rcases h with ⟨hi, hr, rfl⟩ | h
    · simp only [if_true]
      exact ⟨hi.symm, hr.symm⟩
    · have hne : id' ≠ id :=
        fun he => p.apart id hmem i (he ▸ OrderedMultimap.mem_values.mpr ⟨rounds, h⟩)
      simpa only [if_neg hne] using p.bucket i rounds id' h
  · intro i timer h
    rw [hp]
    rcases ht i with he | ⟨rfl, he⟩
    · rw [he] at h
      obtain ⟨h1, h2⟩ := p.table i timer h
      refine ⟨h1, ?_⟩
      by_cases hi : i = id
      · subst hi
        simpa using hid timer h he
      · simpa only [if_neg hi] using h2
    · rw [he] at h
      obtain ⟨old, hold, rfl⟩ := Option.map_eq_some_iff.mp h
      exact ⟨(p.table i old hold).1, by simp⟩
  · intro i hi j
    rw [hb, mem_values_insert]
    rintro (⟨-, rfl⟩ | hj)
    · exact hnot hi
    · exact p.apart i (hsub i hi) j hj
  · intro i
    rw [hb]
    exact nodup_insert (p.bucket_nodup i) (p.apart id hmem i)
  · intro i hi
    rw [hc] at hi
    obtain ⟨h1, h2, h3⟩ := p.fresh i hi
    have hne : i ≠ id := fun he => h1 (he ▸ hmem)
    refine ⟨fun hm => h1 (hsub i hm), ?_, ?_⟩
    · intro j
      rw [hb, mem_values_insert]
      rintro (⟨-, he⟩ | hj)
      · exact hne he
      · exact h2 j hj
    · rcases ht i with he | ⟨he, -⟩
      · exact he.trans h3
      · exact absurd he hne

theorem placed_advance (p : Placed o w) {index : Nat} {add : AddPc}
    (h : w.adds[index]? = some add) : Placed o (w.advance o index add) := by
  have hadd := List.mem_of_getElem? h
  have hpend := p.adds add hadd
  cases add with
  | computed id expire interval =>
    have hwait := waiting_set (w := w) (b := .entered id expire) h rfl
    have hid : id ∈ w.waiting := mem_waiting_add hadd (by simp [AddPc.waiting])
    refine ⟨p.bucket, ?_, ?_, p.taken, hwait.nodup_iff.mp p.waiting_nodup,
      fun i hi => p.apart i (hwait.symm.subset hi), p.bucket_nodup, ?_⟩
    · intro i timer ht
      by_cases hi : i = id
      · subst hi
        simp only [World.advance, setEntry, if_true, Option.some.injEq] at ht
        subst ht
        have he : w.pending i = expire := hpend
        exact ⟨rfl, congrArg (getRounds o) he.symm⟩
      · simp only [World.advance, setEntry, if_neg hi] at ht
        exact p.table i timer ht
    · intro other ho
      rcases Pool.mem_set h ho with rfl | ho
      · exact hpend
      · exact p.adds other ho
    · intro i hi
      obtain ⟨h1, h2, h3⟩ := p.fresh i hi
      refine ⟨fun hm => h1 (hwait.symm.subset hm), h2, ?_⟩
      have hne : i ≠ id := fun he => h1 (he ▸ hid)
      simpa only [World.advance, setEntry, if_neg hne] using h3
  | entered id expire =>
    have hpend' : w.pending id = expire := hpend
    have hperm := Pool.flat_map_set (b := .inserted expire) AddPc.waiting h
    refine placed_insert id expire p ?_ ?_ rfl rfl (fun i => .inl rfl) ?_ ?_ ?_
    · exact (hperm.symm.trans List.perm_append_comm).append_right w.pc.waiting
    · funext i
      by_cases hi : i = id
      · subst hi; simp [World.advance, hpend']
      · simp [World.advance, hi]
    · intro timer ht _
      rw [(p.table id timer ht).2, hpend']
    · intro other ho
      rcases Pool.mem_set h ho with rfl | ho
      · trivial
      · exact p.adds other ho
    · exact p.taken
  | inserted expire =>
    refine placed_same p rfl rfl rfl (fun id => .inl rfl) ?_ p.taken ?_
    · exact fun other ho => p.adds other (List.mem_of_mem_eraseIdx ho)
    · exact (Pool.flat_map_erase AddPc.waiting h).append_right _

theorem placed_pop (p : Placed o w) {now : Int} {i : Nat} {todo ids : List Nat} {rest : Bucket}
    (hpc : w.pc = .scan now (i :: todo))
    (hpop : (w.wheel.buckets i).pop (getRounds o now) = some (ids, rest)) :
    Placed o { w with
      wheel := { w.wheel with buckets := fun j => if j = i then rest else w.wheel.buckets j }
      pc := .entries now ids (i :: todo) } := by
  obtain ⟨first, hfirst, hmin⟩ := pop_some hpop
  have hvalues := OrderedMultimap.pop_min_values hmin
  have hnd := hvalues ▸ p.bucket_nodup i
  obtain ⟨hids, hrest, hdisj⟩ := List.nodup_append.mp hnd
  have hin {id : Nat} (h : id ∈ ids) : id ∈ (w.wheel.buckets i).values :=
    hvalues ▸ List.mem_append_left _ h
  have hsub {j id : Nat} (h : id ∈ (if j = i then rest else w.wheel.buckets j).values) :
      id ∈ (w.wheel.buckets j).values := by
    split at h
    · rename_i hj
      exact hj ▸ hvalues ▸ List.mem_append_right _ h
    · exact h
  have hwait : w.waiting = w.adds.flatMap AddPc.waiting := by
    simp [World.waiting, hpc, Pc.waiting]
  refine ⟨?_, p.table, p.adds, ?_, ?_, ?_, ?_, ?_⟩
  · intro j rounds id h
    refine p.bucket j rounds id ?_
    simp only at h
    split at h
    · rename_i hj
      exact hj ▸ (OrderedMultimap.pop_min_holds hmin).mpr (.inr h)
    · exact h
  · intro id hid
    obtain ⟨h1, h2⟩ := p.bucket i first id ((OrderedMultimap.pop_min_holds hmin).mpr (.inl ⟨rfl, hid⟩))
    exact ⟨by simp [h1], h2 ▸ hfirst⟩
  · refine List.nodup_append.mpr ⟨hwait ▸ p.waiting_nodup, hids, ?_⟩
    rintro a ha b hb rfl
    exact p.apart a (hwait ▸ ha) i (hin hb)
  · intro id hid j hj
    rcases List.mem_append.mp hid with hid | hid
    · exact p.apart id (hwait ▸ hid) j (hsub hj)
    · by_cases hji : j = i
      · simp only [if_pos hji] at hj
        exact hdisj id hid id hj rfl
      · have hbucket {k : Nat} (hk : id ∈ (w.wheel.buckets k).values) :
            bucketOf o (w.pending id) = k := by
          obtain ⟨rounds, hh⟩ := OrderedMultimap.mem_values.mp hk
          exact (p.bucket k rounds id hh).1
        exact hji ((hbucket (hsub hj)).symm.trans (hbucket (hin hid)))
  · intro j
    simp only
    split
    · exact hrest
    · exact p.bucket_nodup j
  · intro id hid
    obtain ⟨h1, h2, h3⟩ := p.fresh id hid
    refine ⟨?_, fun j hj => h2 j (hsub hj), h3⟩
    intro hm
    rcases List.mem_append.mp hm with hm | hm
    · exact h1 (hwait ▸ hm)
    · exact h2 i (hin hm)

theorem placed_rearm (p : Placed o w) {now due : Int} {timer : Entry} {ids todo : List Nat}
    (hpc : w.pc = .claimed now timer due ids todo) (e : Int) :
    Placed o { w.rearm o e timer with pc := .invoke now timer due ids todo } := by
  have hwait : w.waiting = w.adds.flatMap AddPc.waiting ++ timer.id :: ids := by
    simp [World.waiting, hpc, Pc.waiting]
  have hnd := hwait ▸ p.waiting_nodup
  obtain ⟨hids, hdue, hrounds, -⟩ := taken_at p hpc
  have hne {id : Nat} (hid : id ∈ w.adds.flatMap AddPc.waiting ∨ id ∈ ids) : id ≠ timer.id := by
    rintro rfl
    obtain ⟨-, h2, h3⟩ := List.nodup_append.mp hnd
    rcases hid with hid | hid
    · exact h3 _ hid _ List.mem_cons_self rfl
    · exact (List.nodup_cons.mp h2).1 hid
  refine placed_insert timer.id e p ?_ rfl rfl rfl ?_ ?_ ?_ ?_
  · rw [hwait]
    exact List.perm_middle
  · intro i
    by_cases hi : i = timer.id
    · exact .inr ⟨hi, by simp [World.rearm, TimerHashWheel.insert, setRounds, hi]⟩
    · exact .inl (by simp [World.rearm, TimerHashWheel.insert, setRounds, hi])
  · intro old hold hsame
    simp only [World.rearm, TimerHashWheel.insert, setRounds, if_true, hold, Option.map_some,
      Option.some.injEq] at hsame
    exact (congrArg Entry.rounds hsame).symm
  · intro add hadd
    refine pending_congr (fun id hid => if_neg (hne (.inl ?_))) (p.adds add hadd)
    exact List.mem_flatMap.mpr ⟨add, hadd, hid⟩
  · refine ⟨fun id hid => ?_, hdue, hrounds⟩
    simpa only [World.rearm, if_neg (hne (.inr hid))] using hids id hid

theorem placed_step {a : Action} (p : Placed o w) (h : step o w a = some t) : Placed o t := by
  have hsame (id : Nat) : w.wheel.table id = w.wheel.table id ∨ w.wheel.table id = none :=
    .inl rfl
  cases step_moves h with
  | elapse usecs => exact placed_moved p rfl rfl rfl rfl hsame rfl p.taken (List.Sublist.refl _)
  | add delay interval => exact placed_add p delay interval
  | advance hi => exact placed_advance p hi
  | cancel id =>
    exact placed_moved p rfl rfl rfl rfl (table_cancel _ id) rfl p.taken (List.Sublist.refl _)
  | process hpc | passed hpc _ | emptied hpc | finish hpc =>
    exact placed_moved p hpc rfl rfl rfl hsame rfl trivial (List.Sublist.refl _)
  | taken hpc hpop => exact placed_pop p hpc hpop
  | claimed hpc ht =>
    have htaken := taken_at p hpc
    obtain ⟨hid, hrounds⟩ := p.table _ _ ht
    refine placed_moved p hpc rfl rfl rfl hsame rfl ?_ (by simp [Pc.waiting, hid])
    exact ⟨fun i hi => htaken i (List.mem_cons_of_mem _ hi), htaken _ List.mem_cons_self, hrounds,
      by rw [hid]⟩
  | gone hpc ht =>
    refine placed_moved p hpc rfl rfl rfl hsame rfl ?_ (List.sublist_cons_self _ _)
    exact fun i hi => taken_at p hpc i (List.mem_cons_of_mem _ hi)
  | dropped hpc hi =>
    obtain ⟨hids, hdue, hrounds, -⟩ := taken_at p hpc
    exact placed_moved p hpc rfl rfl rfl (table_cancel _ _) rfl ⟨hids, hdue, hrounds⟩
      (List.sublist_cons_self _ _)
  | rearmed hpc hi => exact placed_rearm p hpc _
  | invoke hpc =>
    exact placed_moved p hpc rfl rfl rfl hsame rfl (taken_at p hpc).1 (List.Sublist.refl _)
  | resume hpc =>
    have htaken := taken_at p hpc
    exact placed_moved p hpc rfl rfl rfl hsame rfl htaken (List.Sublist.refl _)

end TimerHashWheel
end Pedronet
