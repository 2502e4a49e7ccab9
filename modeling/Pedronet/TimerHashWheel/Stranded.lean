import Pedronet.TimerHashWheel.Complete

namespace Pedronet
namespace TimerHashWheel
variable {o : Options} {w t : World}

-- No bucket keeps a live timer of a tick that the next Process would not look at.
variable (o) in
def Unstranded (w : World) : Prop :=
  w.adds = [] → w.pc = .idle → ∀ i rounds id, (w.wheel.buckets i).Holds rounds id →
    w.wheel.table id ≠ none → getTicks o w.wheel.last ≤ rounds * o.buckets + i

-- The insertion of an Add comes before the scan has passed the bucket, or for a timer cancelled
-- meanwhile.
variable (o) in
def InTime (w : World) : Action → Prop
  | .advance index =>
    match w.adds[index]? with
    | some (.entered id expire) =>
      w.wheel.table id = none ∨ getTicks o w.base ≤ getTicks o expire ∨
        bucketOf o expire ∈ w.pc.todo
    | some (.computed _ _ _) | some (.inserted _) | none => True
  | .elapse _ | .add _ _ | .cancel _ | .process | .pop | .claim | .rearm | .invoke | .resume
  | .finish => True

instance (w : World) : (a : Action) → Decidable (InTime o w a)
  | .advance index =>
    match h : w.adds[index]? with
    | some (.entered id expire) =>
      decidable_of_iff (w.wheel.table id = none ∨ getTicks o w.base ≤ getTicks o expire ∨
        bucketOf o expire ∈ w.pc.todo) (by simp only [InTime, h])
    | some (.computed _ _ _) | some (.inserted _) | none => isTrue (by simp only [InTime, h])
  | .elapse _ | .add _ _ | .cancel _ | .process | .pop | .claim | .rearm | .invoke | .resume
  | .finish => isTrue trivial

variable (o) in
structure Covered (w : World) : Prop where
  clock : w.base ≤ w.clock
  bucket : ∀ i, ∀ id ∈ (w.wheel.buckets i).values, w.wheel.table id ≠ none →
    getTicks o (w.pending id) < getTicks o w.base → i ∈ w.pc.todo

theorem covered_at (s : Covered o w) {pc : Pc} (h : w.pc = pc) :
    pc.base w.wheel.last ≤ w.clock ∧
      ∀ i, ∀ id ∈ (w.wheel.buckets i).values, w.wheel.table id ≠ none →
        getTicks o (w.pending id) < getTicks o (pc.base w.wheel.last) → i ∈ pc.todo := by
  subst h
  exact ⟨s.clock, s.bucket⟩

theorem covered_init (clock : Int) : Covered o (World.init clock) where
  clock := Int.le_refl _
  bucket i id h := by simp [World.init, OrderedMultimap.values, OrderedMultimap.empty] at h

theorem unstranded_covered (p : Placed o w) (s : Covered o w) : Unstranded o w := by
  intro _ hpc i rounds id hh ht
  have hid : id ∈ (w.wheel.buckets i).values := OrderedMultimap.mem_values.mpr ⟨rounds, hh⟩
  obtain ⟨hb, hr⟩ := p.bucket i rounds id hh
  have htick : rounds * o.buckets + i = getTicks o (w.pending id) := by
    rw [← hb, ← hr, Nat.mul_comm]
    exact Nat.div_add_mod _ _
  rw [htick]
  refine Nat.le_of_not_lt fun hlt => ?_
  cases (covered_at s hpc).2 i id hid ht hlt

theorem covered_same (s : Covered o w) {pc : Pc} (hpc : w.pc = pc)
    (hb : ∀ i, ∀ id ∈ (t.wheel.buckets i).values, id ∈ (w.wheel.buckets i).values ∧
      t.pending id = w.pending id ∧ (t.wheel.table id ≠ none → w.wheel.table id ≠ none))
    (hl : t.wheel.last = w.wheel.last) (hbase : t.pc.base w.wheel.last = pc.base w.wheel.last)
    (hc : w.clock ≤ t.clock) (ht : t.pc.todo = pc.todo) : Covered o t := by
  have hbase' : t.base = w.base := by rw [World.base, World.base, hl, hbase, hpc]
  subst hpc
  refine ⟨hbase' ▸ Int.le_trans s.clock hc, fun i id hid hlive hlt => ?_⟩
  obtain ⟨hw, hp, htab⟩ := hb i id hid
  rw [hbase', hp] at hlt
  rw [ht]
  exact s.bucket i id hw (htab hlive) hlt

theorem covered_insert (id : Nat) (e : Int) (s : Covered o w)
    (he : w.wheel.table id = none ∨ getTicks o w.base ≤ getTicks o e ∨ bucketOf o e ∈ w.pc.todo)
    (hb : t.wheel.buckets = (w.wheel.insert o e id).buckets)
    (ht : ∀ i, t.wheel.table i ≠ none → w.wheel.table i ≠ none)
    (hp : t.pending = fun i => if i = id then e else w.pending i) (hbase : t.base = w.base)
    (hc : t.clock = w.clock) (htodo : t.pc.todo = w.pc.todo)
    (hid : ∀ i, id ∉ (w.wheel.buckets i).values) : Covered o t := by
  refine ⟨hbase ▸ hc ▸ s.clock, fun j i hi hlive hlt => ?_⟩
  rw [hb, mem_values_insert] at hi
  rw [hbase, hp] at hlt
  rw [htodo]
  rcases hi with ⟨rfl, rfl⟩ | hi
  · simp only [if_true] at hlt
    rcases he with hnone | hle | hm
    · exact absurd hnone (ht i hlive)
    · exact absurd hle (Nat.not_le.mpr hlt)
    · exact hm
  · have hne : i ≠ id := fun h => hid j (h ▸ hi)
    simp only [if_neg hne] at hlt
    exact s.bucket j i hi (ht i hlive) hlt

theorem covered_advance (p : Placed o w) (s : Covered o w) {index : Nat} {add : AddPc}
    (h : w.adds[index]? = some add) (hi : InTime o w (.advance index)) :
    Covered o (w.advance o index add) := by
  have hadd := List.mem_of_getElem? h
  have hpend := p.adds add hadd
  cases add with
  | computed id expire interval =>
    have hin : id ∈ w.waiting := mem_waiting_add hadd (by simp [AddPc.waiting])
    refine covered_same s rfl (fun i id' hid => ⟨hid, rfl, ?_⟩) rfl rfl (Int.le_refl _) rfl
    have hne : id' ≠ id := by
      rintro rfl
      exact p.apart id' hin i hid
    simp [World.advance, setEntry, hne]
  | entered id expire =>
    have hin : id ∈ w.waiting := mem_waiting_add hadd (by simp [AddPc.waiting])
    have hpend' : w.pending id = expire := hpend
    simp only [InTime, h] at hi
    refine covered_insert id expire s hi rfl (fun _ h => h) ?_ rfl rfl rfl (p.apart id hin)
    funext i
    by_cases hi : i = id
    · simp [World.advance, hi, hpend']
    · simp [World.advance, hi]
  | inserted expire =>
    exact covered_same s rfl (fun _ _ hid => ⟨hid, rfl, fun h => h⟩) rfl rfl (Int.le_refl _) rfl

theorem covered_rearm (p : Placed o w) (s : Covered o w) {now due : Int} {timer : Entry}
    {ids todo : List Nat} (hpc : w.pc = .claimed now timer due ids todo) {e : Int} (he : now ≤ e) :
    Covered o { w.rearm o e timer with pc := .invoke now timer due ids todo } := by
  have hbase : w.base = now := by rw [World.base, hpc]; rfl
  have hin : timer.id ∈ w.waiting := mem_waiting_pc (by rw [hpc]; exact List.mem_cons_self)
  refine covered_insert timer.id e s (.inr (.inl (ticks_mono (hbase ▸ he)))) rfl
    (fun i hi => ?_) rfl hbase.symm rfl (by rw [hpc]; rfl) (p.apart timer.id hin)
  by_cases hid : i = timer.id
  · simpa [World.rearm, TimerHashWheel.insert, setRounds, hid] using hi
  · simpa [World.rearm, TimerHashWheel.insert, setRounds, hid] using hi

theorem covered_pop (p : Placed o w) (s : Covered o w) {now : Int} {i : Nat} {todo : List Nat}
    (hpc : w.pc = .scan now (i :: todo))
    (hpop : (w.wheel.buckets i).pop (getRounds o now) = none) :
    Covered o { w with pc := .scan now todo } := by
  obtain ⟨hclock, hbucket⟩ := covered_at s hpc
  refine ⟨hclock, fun j id hid hlive hlt => ?_⟩
  rcases List.mem_cons.mp (hbucket j id hid hlive hlt) with rfl | hj
  · exact absurd (popped_empty p hpop hid) (Nat.not_le.mpr hlt)
  · exact hj

theorem covered_taken (s : Covered o w) {now : Int} {i : Nat} {todo ids : List Nat}
    {rest : Bucket} (hpc : w.pc = .scan now (i :: todo))
    (hpop : (w.wheel.buckets i).pop (getRounds o now) = some (ids, rest)) :
    Covered o { w with
      wheel := { w.wheel with buckets := fun j => if j = i then rest else w.wheel.buckets j }
      pc := .entries now ids (i :: todo) } := by
  obtain ⟨first, -, hmin⟩ := pop_some hpop
  refine covered_same s hpc (fun j id hid => ⟨?_, rfl, fun h => h⟩) rfl rfl (Int.le_refl _) rfl
  simp only at hid
  split at hid
  · rename_i hj
    rw [hj, OrderedMultimap.pop_min_values hmin]
    exact List.mem_append_right _ hid
  · exact hid

theorem covered_step {a : Action} (p : Placed o w) (s : Covered o w) (hi : InTime o w a)
    (h : step o w a = some t) : Covered o t := by
  cases step_moves h with
  | elapse usecs =>
    exact covered_same s rfl (fun _ _ hid => ⟨hid, rfl, fun h => h⟩) rfl rfl
      (Int.le_add_of_nonneg_right (Int.natCast_nonneg _)) rfl
  | add delay interval =>
    obtain ⟨-, hb, -⟩ := p.fresh (w.wheel.counter + 1) (Nat.lt_succ_self _)
    refine covered_same s rfl (fun i id hid => ⟨hid, if_neg ?_, fun h => h⟩) rfl rfl
      (Int.le_refl _) rfl
    rintro rfl
    exact hb i hid
  | advance hadd => exact covered_advance p s hadd hi
  | cancel id =>
    exact covered_same s rfl (fun _ _ hid => ⟨hid, rfl, cancel_live⟩) rfl rfl (Int.le_refl _) rfl
  | process hpc =>
    obtain ⟨-, hbucket⟩ := covered_at s hpc
    refine ⟨Int.le_refl _, fun i id hid hlive hlt => ?_⟩
    have hle : getTicks o w.wheel.last ≤ getTicks o (w.pending id) := by
      refine Nat.le_of_not_lt fun hbelow => ?_
      cases hbucket i id hid hlive hbelow
    rw [← bucket_unique p hid]
    exact scanned_covers hle (Nat.le_of_lt hlt)
  | taken hpc hpop => exact covered_taken s hpc hpop
  | passed hpc hpop => exact covered_pop p s hpc hpop
  | claimed hpc | gone hpc | emptied hpc | invoke hpc | resume hpc =>
    exact covered_same s hpc (fun _ _ hid => ⟨hid, rfl, fun h => h⟩) rfl rfl (Int.le_refl _) rfl
  | dropped hpc hle =>
    exact covered_same s hpc (fun _ _ hid => ⟨hid, rfl, cancel_live⟩) rfl rfl (Int.le_refl _) rfl
  | rearmed hpc hpos => exact covered_rearm p s hpc (by omega)
  | finish hpc =>
    obtain ⟨hclock, hbucket⟩ := covered_at s hpc
    refine ⟨hclock, fun i id hid hlive hlt => ?_⟩
    cases hbucket i id hid hlive hlt

theorem unstranded (o : Options) (clock : Int) (as : List Action)
    (h : (system o).Along (InTime o) (World.init clock) as) :
    (system o).Always (Unstranded o) (World.init clock) as :=
  Transition.System.always_of_along (M := system o) (I := fun w => Placed o w ∧ Covered o w)
    (fun _ _ _ ⟨p, s⟩ hi h => ⟨placed_step p h, covered_step p s hi h⟩)
    (fun _ ⟨p, s⟩ => unstranded_covered p s) ⟨placed_init clock, covered_init clock⟩ h

-- The id enters its bucket while the scan of a later tick has not come there yet.
theorem unstranded_during_scan :
    (system ⟨100, 4, by decide, by decide⟩).Always (Unstranded ⟨100, 4, by decide, by decide⟩)
      (World.init 300) [.add 150 0, .advance 0, .elapse 200, .process, .pop, .advance 0, .pop,
        .claim, .rearm, .invoke, .resume, .claim, .pop, .pop, .finish, .advance 0] :=
  unstranded _ _ _ (by decide)

-- Add has read the clock when a Process of a later tick runs; the id goes in behind it.
def insertedLate : List Action :=
  [.add 0 0, .elapse 200, .process, .pop, .pop, .pop, .finish, .advance 0, .advance 0, .advance 0]

theorem add_strands :
    ¬ ∀ as, (system ⟨100, 4, by decide, by decide⟩).Always
      (Unstranded ⟨100, 4, by decide, by decide⟩) (World.init 300) as := by
  intro h
  have hu := Transition.System.always_last (h insertedLate) rfl
  have hle := hu rfl rfl 3 0 1 ⟨[1], by decide, by decide⟩ (by decide)
  revert hle
  decide

end TimerHashWheel
end Pedronet
