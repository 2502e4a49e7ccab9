import Pedronet.TimerHashWheel.Placed

namespace Pedronet
namespace TimerHashWheel
variable {o : Options} {w t : World}

def Located (w : World) : Prop :=
  ∀ id, w.wheel.table id ≠ none → id ∈ w.waiting ∨ ∃ i, id ∈ (w.wheel.buckets i).values

theorem located_init (clock : Int) : Located (World.init clock) := fun _ h => absurd rfl h

theorem located_same (l : Located w)
    (ht : ∀ id, t.wheel.table id ≠ none → w.wheel.table id ≠ none)
    (hb : t.wheel.buckets = w.wheel.buckets)
    (hw : ∀ id ∈ w.waiting, t.wheel.table id ≠ none → id ∈ t.waiting) : Located t := by
  intro id h
  rcases l id (ht id h) with hid | ⟨i, hi⟩
  · exact .inl (hw id hid h)
  · exact .inr ⟨i, hb ▸ hi⟩

theorem located_moved (l : Located w) {pc : Pc} (hpc : w.pc = pc)
    (ht : ∀ id, t.wheel.table id ≠ none → w.wheel.table id ≠ none)
    (hb : t.wheel.buckets = w.wheel.buckets) (ha : t.adds = w.adds)
    (hw : ∀ id ∈ pc.waiting, t.wheel.table id ≠ none → id ∈ t.pc.waiting) : Located t := by
  refine located_same l ht hb fun id hid hlive => ?_
  rcases List.mem_append.mp hid with hid | hid
  · exact List.mem_append_left _ (ha ▸ hid)
  · exact List.mem_append_right _ (hw id (hpc ▸ hid) hlive)

theorem located_insert (id : Nat) (e : Int) (l : Located w)
    (hw : w.waiting.Perm (id :: t.waiting))
    (hb : t.wheel.buckets = (w.wheel.insert o e id).buckets)
    (ht : ∀ i, t.wheel.table i ≠ none → w.wheel.table i ≠ none) : Located t := by
  intro i h
  rcases l i (ht i h) with hi | ⟨j, hj⟩
  · rcases List.mem_cons.mp (hw.subset hi) with rfl | hi
    · exact .inr ⟨bucketOf o e, hb ▸ mem_values_insert.mpr (.inl ⟨rfl, rfl⟩)⟩
    · exact .inl hi
  · exact .inr ⟨j, hb ▸ mem_values_insert.mpr (.inr hj)⟩

theorem located_advance (l : Located w) {index : Nat} {add : AddPc}
    (h : w.adds[index]? = some add) : Located (w.advance o index add) := by
  have hadd := List.mem_of_getElem? h
  cases add with
  | computed id expire interval =>
    have hwait := waiting_set (w := w) (b := .entered id expire) h rfl
    intro i ht
    by_cases hi : i = id
    · subst hi
      exact .inl (hwait.subset (mem_waiting_add hadd (by simp [AddPc.waiting])))
    · simp only [World.advance, setEntry, if_neg hi] at ht
      exact (l i ht).imp_left fun hm => hwait.subset hm
  | entered id expire =>
    have hperm := Pool.flat_map_set (b := .inserted expire) AddPc.waiting h
    refine located_insert id expire l ?_ rfl fun _ h => h
    exact (hperm.symm.trans List.perm_append_comm).append_right w.pc.waiting
  | inserted expire =>
    have hperm := Pool.flat_map_erase_perm AddPc.waiting h
    refine located_same l (fun _ h => h) rfl fun id hid _ => ?_
    exact (hperm.append_right w.pc.waiting).symm.subset hid

theorem located_pop (l : Located w) {now : Int} {i : Nat} {todo ids : List Nat} {rest : Bucket}
    (hpc : w.pc = .scan now (i :: todo))
    (hpop : (w.wheel.buckets i).pop (getRounds o now) = some (ids, rest)) :
    Located { w with
      wheel := { w.wheel with buckets := fun j => if j = i then rest else w.wheel.buckets j }
      pc := .entries now ids (i :: todo) } := by
  obtain ⟨first, -, hmin⟩ := pop_some hpop
  have hvalues := OrderedMultimap.pop_min_values hmin
  intro id h
  rcases l id h with hid | ⟨j, hj⟩
  · simp only [World.waiting, hpc, Pc.waiting, List.append_nil] at hid
    exact .inl (List.mem_append_left _ hid)
  · by_cases hji : j = i
    · subst hji
      rw [hvalues] at hj
      rcases List.mem_append.mp hj with hj | hj
      · exact .inl (List.mem_append_right _ hj)
      · exact .inr ⟨j, by simpa using hj⟩
    · exact .inr ⟨j, by simpa [hji] using hj⟩

theorem located_step {a : Action} (p : Placed o w) (l : Located w) (h : step o w a = some t) :
    Located t := by
  cases step_moves h with
  | elapse usecs => exact l
  | add delay interval =>
    exact fun id h => (l id h).imp_left fun hm => List.mem_cons_of_mem _ hm
  | advance hi => exact located_advance l hi
  | cancel id => exact located_moved l rfl (fun _ => cancel_live) rfl rfl fun _ hi _ => hi
  | process hpc | passed hpc _ | emptied hpc | invoke hpc | resume hpc | finish hpc =>
    exact located_moved l hpc (fun _ h => h) rfl rfl fun _ hi _ => hi
  | taken hpc hpop => exact located_pop l hpc hpop
  | claimed hpc ht =>
    have hid := (p.table _ _ ht).1
    exact located_moved l hpc (fun _ h => h) rfl rfl fun i hi _ => by
      simpa [Pc.waiting, hid] using hi
  | gone hpc ht =>
    refine located_moved l hpc (fun _ h => h) rfl rfl fun i hi hne => ?_
    refine (List.mem_cons.mp hi).resolve_left ?_
    rintro rfl
    exact hne ht
  | dropped hpc hi =>
    refine located_moved l hpc (fun _ => cancel_live) rfl rfl fun i hi hne => ?_
    refine (List.mem_cons.mp hi).resolve_left ?_
    rintro rfl
    simp [TimerHashWheel.cancel] at hne
  | @rearmed now due timer ids todo hpc hi =>
    refine located_insert (o := o) timer.id (now + timer.interval) l ?_ rfl fun i hlive hn => ?_
    · simp only [World.waiting, hpc, Pc.waiting]
      exact List.perm_middle
    · exact hlive (by simp [World.rearm, TimerHashWheel.insert, setRounds, hn])

variable (o) in
def stored (w : World) : List Nat :=
  (List.range o.buckets).flatMap fun i => (w.wheel.buckets i).values

theorem bucket_unique (p : Placed o w) {id i : Nat} (h : id ∈ (w.wheel.buckets i).values) :
    bucketOf o (w.pending id) = i := by
  obtain ⟨rounds, hh⟩ := OrderedMultimap.mem_values.mp h
  exact (p.bucket i rounds id hh).1

theorem stored_nodup (p : Placed o w) : (stored o w).Nodup := by
  refine List.nodup_flatMap.mpr ⟨fun i _ => p.bucket_nodup i, ?_⟩
  refine List.nodup_range.imp fun hne => List.disjoint_left.mpr fun id hi hj => hne ?_
  exact (bucket_unique p hi).symm.trans (bucket_unique p hj)

theorem mem_stored (p : Placed o w) {id i : Nat} (h : id ∈ (w.wheel.buckets i).values) :
    id ∈ stored o w := by
  refine List.mem_flatMap.mpr ⟨i, List.mem_range.mpr ?_, h⟩
  rw [← bucket_unique p h]
  exact Nat.mod_lt _ o.buckets_pos

theorem stored_count (p : Placed o w) (l : Located w) {id : Nat} (ht : w.wheel.table id ≠ none)
    (ha : id ∉ w.adds.flatMap AddPc.waiting) :
    (stored o w).count id = if id ∈ w.pc.waiting then 0 else 1 := by
  split
  · rename_i hid
    refine List.count_eq_zero.mpr fun hm => ?_
    obtain ⟨i, -, hi⟩ := List.mem_flatMap.mp hm
    exact p.apart id (mem_waiting_pc hid) i hi
  · rename_i hid
    refine List.count_eq_one_of_mem (stored_nodup p) ?_
    rcases l id ht with hw | ⟨i, hi⟩
    · rcases List.mem_append.mp hw with hw | hw
      · exact absurd hw ha
      · exact absurd hw hid
    · exact mem_stored p hi

def AddPc.entering : AddPc → List Nat
  | .computed id _ _ => [id]
  | .entered _ _ | .inserted _ => []

def World.entering (w : World) : List Nat := w.adds.flatMap AddPc.entering

def Pc.claim : Pc → List Nat
  | .claimed _ timer _ _ _ | .invoke _ timer _ _ _ => [timer.id]
  | .idle | .scan _ _ | .entries _ _ _ | .callback _ _ _ => []

structure Cancelled (id : Nat) (w : World) : Prop where
  table : w.wheel.table id = none
  issued : id ≤ w.wheel.counter
  entering : id ∉ w.entering

def begun (id : Nat) (w : World) : Nat := (w.fired.map Fired.id).count id + w.pc.claim.count id

theorem cancelled_same {id : Nat} (c : Cancelled id w)
    (ht : w.wheel.table id = none → t.wheel.table id = none)
    (hc : t.wheel.counter = w.wheel.counter) (ha : t.adds = w.adds) : Cancelled id t :=
  ⟨ht c.table, hc ▸ c.issued, by rw [World.entering, ha]; exact c.entering⟩

theorem cancelled_advance {id index : Nat} {add : AddPc} (c : Cancelled id w)
    (h : w.adds[index]? = some add) : Cancelled id (w.advance o index add) := by
  cases add with
  | computed i expire interval =>
    have hperm := Pool.flat_map_set (b := .entered i expire) AddPc.entering h
    have hne : id ≠ i := by
      rintro rfl
      exact c.entering (List.mem_flatMap.mpr ⟨_, List.mem_of_getElem? h, List.mem_cons_self⟩)
    refine ⟨?_, c.issued, fun hm => c.entering ?_⟩
    · simpa [World.advance, setEntry, hne] using c.table
    · exact hperm.subset (List.mem_append_left _ hm)
  | entered i expire =>
    have hperm := Pool.flat_map_set (b := .inserted expire) AddPc.entering h
    exact ⟨c.table, c.issued, fun hm => c.entering (hperm.subset (List.mem_append_left _ hm))⟩
  | inserted expire =>
    have hsub := (Pool.flat_map_erase AddPc.entering h).subset
    exact ⟨c.table, c.issued, fun hm => c.entering (hsub hm)⟩

theorem cancelled_step {a : Action} {id : Nat} (p : Placed o w) (c : Cancelled id w)
    (h : step o w a = some t) : Cancelled id t ∧ begun id t ≤ begun id w := by
  have hcancel (i : Nat) (hn : w.wheel.table id = none) : (w.wheel.cancel i).table id = none :=
    (table_cancel w.wheel i id).elim (fun he => he.trans hn) fun he => he
  cases step_moves h with
  | elapse usecs => exact ⟨cancelled_same c (fun h => h) rfl rfl, Nat.le_refl _⟩
  | add delay interval =>
    refine ⟨⟨c.table, Nat.le_succ_of_le c.issued, fun hm => ?_⟩, Nat.le_refl _⟩
    rcases List.mem_cons.mp hm with he | hm
    · exact absurd c.issued (by omega)
    · exact c.entering hm
  | @advance index pc hi =>
    refine ⟨cancelled_advance c hi, ?_⟩
    cases pc <;> exact Nat.le_refl _
  | cancel i => exact ⟨cancelled_same c (hcancel i) rfl rfl, Nat.le_refl _⟩
  | process | taken | passed | gone | emptied | resume | finish =>
    exact ⟨cancelled_same c (fun h => h) rfl rfl, by simp [begun, Pc.claim]⟩
  | @claimed now i ids todo timer hpc ht =>
    refine ⟨cancelled_same c (fun h => h) rfl rfl, ?_⟩
    have hne : timer.id ≠ id := by
      rintro rfl
      have hnone := c.table
      rw [(p.table i timer ht).1, ht] at hnone
      cases hnone
    simp [begun, Pc.claim, hne]
  | dropped hpc hi =>
    exact ⟨cancelled_same c (hcancel _) rfl rfl, by simp [begun, hpc, Pc.claim]⟩
  | rearmed hpc hi =>
    refine ⟨cancelled_same c (fun hn => ?_) rfl rfl, by simp [begun, hpc, Pc.claim, World.rearm]⟩
    simp [World.rearm, TimerHashWheel.insert, setRounds, hn]
  | invoke hpc =>
    refine ⟨cancelled_same c (fun h => h) rfl rfl, ?_⟩
    simp only [begun, hpc, Pc.claim, List.map_cons, List.count_cons, List.count_nil]
    omega

end TimerHashWheel
end Pedronet
