import Pedronet.TimerHeapQueue.Concurrent

namespace Pedronet
namespace TimerHeapQueue
namespace Concurrent
variable {w t : World}

def Pc.now : Pc → Option Int
  | .idle => none
  | .entered now | .loop now | .claimed now _ | .callback now _ => some now

def Pc.timer : Pc → Option Entry
  | .claimed _ timer | .callback _ timer => some timer
  | .idle | .entered _ | .loop _ => none

theorem timer_none {pc : Pc} (h : pc.timer = none) : pc.taken = [] ∧ pc.claim = [] := by
  cases pc <;> first | exact ⟨rfl, rfl⟩ | cases h

def Entered (w : World) : Prop := ∀ id ∈ w.invoked, id ≤ w.heap.counter ∧ id ∉ w.adding

theorem entered_step {a : Action} (k : Kept w) (b : Entered w) (h : step w a = some t) : Entered t := by
  cases step_moves h with
  | elapse | add | cancel | handleEvents | lock | pop | rearm | drop | finish => exact b
  | @issue _ expired interval hi =>
    have hperm := Pool.flat_map_set (b := .issued (w.heap.counter + 1) expired interval)
      AddPc.adding hi
    simp only [AddPc.adding, List.append_nil, List.singleton_append] at hperm
    refine fun id hm => ⟨Nat.le_succ_of_le (b id hm).1, fun ha => ?_⟩
    rcases List.mem_cons.mp (hperm.subset ha) with rfl | ha
    · exact Nat.not_succ_le_self _ (b _ hm).1
    · exact (b id hm).2 ha
  | enter hi =>
    have hperm := Pool.flat_map_erase_perm AddPc.adding hi
    exact fun id hm => ⟨(b id hm).1, fun ha =>
      (b id hm).2 (hperm.subset (List.mem_append_right _ ha))⟩
  | @invoke now timer hpc =>
    have htaken : timer.id ∈ w.pc.taken := by simp [hpc, Pc.taken]
    intro id hm
    rcases List.mem_cons.mp hm with rfl | hm
    · refine ⟨?_, fun ha => (k.issued _ ha).2.taken htaken⟩
      exact Nat.le_of_not_lt fun hlt => (k.fresh _ hlt).taken htaken
    · exact b id hm

-- The earliest time the next invocation may begin.
def due (id : Nat) (expired interval : Int) (w : World) : Int :=
  expired + w.invoked.count id * max interval 0

def places (id : Nat) (w : World) : Nat := waiting w.heap.queue id + w.adding.count id

structure Paced (id : Nat) (expired interval : Int) (w : World) : Prop where
  issued : id ≤ w.heap.counter
  read : ∀ now ∈ w.pc.now, now ≤ w.clock
  table : ∀ timer, w.heap.table id = some timer → timer.interval = interval
  taken : ∀ timer ∈ w.pc.timer, timer.id = id → timer.interval = interval
  adding : ∀ e i, .issued id e i ∈ w.adds → e = expired ∧ i = interval
  queue : ∀ item ∈ w.heap.queue, item.timer = id → due id expired interval w ≤ item.expire
  claim : id ∈ w.pc.claim → due id expired interval w ≤ w.clock
  running : ∀ now timer, w.pc = .callback now timer → timer.id = id → id ∈ w.invoked
  later : id ∈ w.invoked → due id expired interval w ≤ w.clock + max interval 0
  single : w.pc.taken.count id + places id w ≤ 1
  once : interval ≤ 0 → begun id w + places id w ≤ 1

def OnTime (id : Nat) (expired interval : Int) (w : World) : Prop :=
  (∀ n, n < w.invoked.count id → expired + n * max interval 0 ≤ w.clock) ∧
    (interval ≤ 0 → w.invoked.count id ≤ 1)

variable {id : Nat} {expired interval : Int}

theorem paced_on_time (p : Paced id expired interval w) : OnTime id expired interval w := by
  refine ⟨fun n hn => ?_, fun hi => ?_⟩
  · have hb := p.later (List.count_pos_iff.mp (Nat.zero_lt_of_lt hn))
    have hle : ((n + 1 : Nat) : Int) * max interval 0 ≤ w.invoked.count id * max interval 0 :=
      Int.mul_le_mul_of_nonneg_right (by omega) (by omega)
    rw [due] at hb
    rw [Int.natCast_add, Int.add_mul] at hle
    omega
  · have := p.once hi
    rw [begun] at this
    omega

theorem paced_issue (k : Kept w) (b : Entered w) (hr : ∀ now ∈ w.pc.now, now ≤ w.clock)
    {index : Nat} (hi : w.adds[index]? = some (.computed expired interval)) :
    Paced (w.heap.counter + 1) expired interval { w with
      heap := { w.heap with counter := w.heap.counter + 1 }
      adds := w.adds.set index (.issued (w.heap.counter + 1) expired interval) } := by
  have hnew := k.fresh (w.heap.counter + 1) (Nat.lt_succ_self _)
  have hnot : w.heap.counter + 1 ∉ w.invoked := fun hm => Nat.not_succ_le_self _ (b _ hm).1
  have hfree : w.heap.counter + 1 ∉ w.adding := fun hm => Nat.not_succ_le_self _ (k.issued _ hm).1
  have hperm := Pool.flat_map_set (b := .issued (w.heap.counter + 1) expired interval)
    AddPc.adding hi
  simp only [AddPc.adding, List.append_nil, List.singleton_append] at hperm
  have hnone : (w.adds.flatMap AddPc.adding).count (w.heap.counter + 1) = 0 :=
    List.count_eq_zero.mpr hfree
  have hone := hperm.count_eq (w.heap.counter + 1)
  rw [List.count_cons_self, hnone] at hone
  have hclaim : w.heap.counter + 1 ∉ w.pc.claim := by
    intro hm
    refine hnew.taken ?_
    cases hpc : w.pc <;> rw [hpc] at hm <;> first | exact hm | cases hm
  have htimer (timer : Entry) (hm : timer ∈ w.pc.timer) : timer.id ≠ w.heap.counter + 1 := by
    intro he
    refine hnew.taken (he ▸ ?_)
    cases hpc : w.pc <;> rw [hpc] at hm <;> cases hm <;> simp [Pc.taken]
  refine ⟨Nat.le_refl _, hr, ?_, ?_, ?_, ?_, fun hm => absurd hm hclaim, ?_,
    fun hm => absurd hm hnot, ?_, fun _ => ?_⟩
  · intro timer ht
    rw [hnew.table] at ht
    cases ht
  · exact fun timer hm he => absurd he (htimer timer hm)
  · intro e i hm
    rcases Pool.mem_set hi hm with he | hm
    · cases he
      exact ⟨rfl, rfl⟩
    · exact absurd (List.mem_flatMap.mpr ⟨_, hm, List.mem_singleton_self _⟩) hfree
  · intro item hm he
    have hz := hnew.waiting
    rw [waiting, List.countP_eq_zero] at hz
    exact absurd he (by simpa using hz item hm)
  · intro now timer hpc he
    have hpc : w.pc = .callback now timer := hpc
    exact absurd he (htimer timer (by rw [hpc]; rfl))
  · rw [List.count_eq_zero.mpr hnew.taken, places, hnew.waiting]
    exact Nat.le_of_eq (by rw [Nat.zero_add, Nat.zero_add]; exact hone)
  · rw [begun, List.count_eq_zero.mpr hnot, List.count_eq_zero.mpr hclaim, places, hnew.waiting]
    exact Nat.le_of_eq (by rw [Nat.zero_add, Nat.zero_add]; exact hone)

theorem paced_quiet (p : Paced id expired interval w) (hc : w.clock ≤ t.clock)
    (hr : ∀ now ∈ t.pc.now, now ≤ t.clock)
    (ht : ∀ timer, t.heap.table id = some timer → w.heap.table id = some timer)
    (hq : t.heap.queue = w.heap.queue) (hn : t.heap.counter = w.heap.counter)
    (ha : t.adds = w.adds) (hi : t.invoked = w.invoked)
    (hpc : t.pc = w.pc ∨ t.pc.timer = none) : Paced id expired interval t := by
  have hdue : due id expired interval t = due id expired interval w := by rw [due, due, hi]
  have hplaces : places id t = places id w := by
    rw [places, places, hq, World.adding, World.adding, ha]
  have htaken : t.pc.taken.count id ≤ w.pc.taken.count id := by
    rcases hpc with he | he
    · exact Nat.le_of_eq (by rw [he])
    · rw [(timer_none he).1]
      exact Nat.zero_le _
  have hclaim : t.pc.claim.count id ≤ w.pc.claim.count id := by
    rcases hpc with he | he
    · exact Nat.le_of_eq (by rw [he])
    · rw [(timer_none he).2]
      exact Nat.zero_le _
  refine ⟨hn ▸ p.issued, hr, fun timer h => p.table timer (ht timer h), ?_, ha ▸ p.adding, ?_, ?_,
    ?_, ?_, ?_, fun h => ?_⟩
  · intro timer hm
    rcases hpc with he | he
    · exact p.taken timer (he ▸ hm)
    · rw [he] at hm
      cases hm
  · rw [hq, hdue]
    exact p.queue
  · intro hm
    rw [hdue]
    refine Int.le_trans (p.claim ?_) hc
    exact List.count_pos_iff.mp (Nat.lt_of_lt_of_le (List.count_pos_iff.mpr hm) hclaim)
  · intro now timer h
    rw [hi]
    rcases hpc with he | he
    · exact p.running now timer (he ▸ h)
    · rw [h] at he
      cases he
  · intro hm
    rw [hdue]
    have := p.later (hi ▸ hm)
    omega
  · rw [hplaces]
    have := p.single
    omega
  · have := p.once h
    rw [begun] at this ⊢
    rw [hplaces, hi]
    omega

theorem paced_adds (p : Paced id expired interval w) {adds : List AddPc} {counter : Nat}
    (hc : w.heap.counter ≤ counter)
    (hn : (adds.flatMap AddPc.adding).count id = w.adding.count id)
    (ha : ∀ e i, .issued id e i ∈ adds → .issued id e i ∈ w.adds) :
    Paced id expired interval
      { w with heap := { w.heap with counter := counter }, adds := adds } := by
  have hplaces : places id { w with heap := { w.heap with counter := counter }, adds := adds } =
      places id w := congrArg (waiting w.heap.queue id + ·) hn
  refine { p with
    issued := Nat.le_trans p.issued hc
    adding := fun e i hm => p.adding e i (ha e i hm)
    single := ?_
    once := fun hi => ?_ }
  · rw [hplaces]
    exact p.single
  · rw [hplaces]
    exact p.once hi

theorem paced_issue_other (p : Paced id expired interval w) {index : Nat} {e i : Int}
    (hi : w.adds[index]? = some (.computed e i)) :
    Paced id expired interval { w with
      heap := { w.heap with counter := w.heap.counter + 1 }
      adds := w.adds.set index (.issued (w.heap.counter + 1) e i) } := by
  have hne : w.heap.counter + 1 ≠ id := fun he => Nat.not_succ_le_self _ (he ▸ p.issued)
  have hperm := Pool.flat_map_set (b := .issued (w.heap.counter + 1) e i) AddPc.adding hi
  simp only [AddPc.adding, List.append_nil, List.singleton_append] at hperm
  refine paced_adds p (Nat.le_succ _) ?_ fun e' i' hm => ?_
  · rw [hperm.count_eq, List.count_cons_of_ne hne]
    rfl
  · rcases Pool.mem_set hi hm with he | hm
    · cases he
      exact absurd rfl hne
    · exact hm

theorem paced_enter (p : Paced id expired interval w) (b : Entered w) {index i : Nat} {e n : Int}
    {c : TimerChannel} (hi : w.adds[index]? = some (.issued i e n)) :
    Paced id expired interval { w with
      heap := enter w.heap e ⟨i, n⟩
      channel := c
      adds := w.adds.eraseIdx index } := by
  have hperm := (Pool.flat_map_erase_perm AddPc.adding hi).count_eq id
  have hplaces : places id { w with
      heap := enter w.heap e ⟨i, n⟩
      channel := c
      adds := w.adds.eraseIdx index } = places id w := by
    have hcons : waiting (⟨e, i⟩ :: w.heap.queue) id =
        waiting w.heap.queue id + if i = id then 1 else 0 := waiting_cons _ _ _
    simp only [AddPc.adding, List.singleton_append, List.count_cons, beq_iff_eq] at hperm
    simp only [places, enter, emplace, World.adding] at hperm ⊢
    rw [hcons]
    omega
  refine { p with
    table := fun timer ht => ?_
    adding := fun e' i' hm => p.adding e' i' (List.mem_of_mem_eraseIdx hm)
    queue := fun item hm he => ?_
    single := hplaces ▸ p.single
    once := fun h => hplaces ▸ p.once h }
  · by_cases hid : id = i
    · subst hid
      simp only [enter, if_true, Option.some.injEq] at ht
      rw [← ht]
      exact (p.adding e n (List.mem_of_getElem? hi)).2
    · simp only [enter, if_neg hid] at ht
      exact p.table timer ht
  · rcases List.mem_cons.mp hm with rfl | hm
    · obtain rfl : i = id := he
      have hmem := List.mem_of_getElem? hi
      have hnot : i ∉ w.invoked := fun h =>
        (b i h).2 (List.mem_flatMap.mpr ⟨_, hmem, List.mem_singleton_self _⟩)
      obtain ⟨rfl, -⟩ := p.adding e n hmem
      simp [due, List.count_eq_zero.mpr hnot]
    · exact p.queue item hm he

theorem paced_pop (k : Kept w) (p : Paced id expired interval w) {now : Int} {index : Nat}
    {item : Timeout} (hpc : w.pc = .loop now) (hi : w.heap.queue[index]? = some item)
    (hdue : item.expire ≤ now) :
    Paced id expired interval { w with
      heap := { w.heap with queue := w.heap.queue.eraseIdx index }
      pc := .afterPop now (w.heap.table item.timer) } := by
  have hread : now ≤ w.clock := p.read now (by rw [hpc]; rfl)
  have herase := waiting_erase hi id
  have hsingle := p.single
  have honce := p.once
  simp only [hpc, Pc.taken, List.count_nil, begun, Pc.claim, places] at hsingle honce
  have hq (other : Timeout) (hm : other ∈ w.heap.queue.eraseIdx index) (he : other.timer = id) :=
    p.queue other (List.mem_of_mem_eraseIdx hm) he
  cases ht : w.heap.table item.timer with
  | none =>
    refine { p with
      read := fun n hm => ?_
      taken := (fun _ hm => by cases hm)
      queue := hq
      claim := (fun hm => by cases hm)
      running := (fun _ _ h => by cases h)
      single := ?_
      once := fun h => ?_ }
    · cases hm
      exact hread
    · simp only [Pc.afterPop, Pc.taken, List.count_nil, places]
      exact Nat.le_trans (Nat.add_le_add_left (Nat.add_le_add_right (by omega) _) 0) hsingle
    · have := honce h
      simp only [begun, Pc.afterPop, Pc.claim, List.count_nil, places]
      exact Nat.le_trans (Nat.add_le_add_left (Nat.add_le_add_right (by omega) _) _) this
  | some timer =>
    have hid := k.table _ _ ht
    have hone : [timer.id].count id = if item.timer = id then 1 else 0 := by
      rw [hid, List.count_singleton]
      simp only [beq_iff_eq]
    have hplaces : places id { w with
        heap := { w.heap with queue := w.heap.queue.eraseIdx index }
        pc := .claimed now timer } + [timer.id].count id = places id w := by
      rw [hone]
      simp only [places, ← herase, World.adding]
      omega
    refine { p with
      read := fun n hm => ?_
      taken := fun other hm he => ?_
      queue := hq
      claim := fun hm => ?_
      running := (fun _ _ h => by cases h)
      single := ?_
      once := fun h => ?_ }
    · cases hm
      exact hread
    · cases hm
      exact p.table timer (by rw [← he, hid]; exact ht)
    · have he : id = timer.id := List.mem_singleton.mp hm
      exact Int.le_trans (p.queue item (List.mem_of_getElem? hi) (by rw [he, hid]))
        (Int.le_trans hdue hread)
    · simp only [Pc.afterPop, Pc.taken]
      rw [Nat.add_comm, hplaces, places]
      omega
    · have := honce h
      simp only [begun, Pc.afterPop, Pc.claim]
      rw [Nat.add_assoc, Nat.add_comm ([timer.id].count id), hplaces, places]
      omega

theorem paced_invoke (p : Paced id expired interval w) {now : Int} {timer : Entry}
    (hpc : w.pc = .claimed now timer) :
    Paced id expired interval
      { w with pc := .callback now timer, invoked := timer.id :: w.invoked } := by
  have hread : now ≤ w.clock := p.read now (by rw [hpc]; rfl)
  have hsingle := p.single
  have honce := p.once
  have htaken := p.taken timer (by rw [hpc]; rfl)
  simp only [hpc, Pc.taken, begun, Pc.claim] at hsingle honce
  by_cases hid : timer.id = id
  · subst hid
    have hdue : due timer.id expired interval
        { w with pc := .callback now timer, invoked := timer.id :: w.invoked } =
        due timer.id expired interval w + max interval 0 := by
      simp only [due, List.count_cons_self, Int.natCast_add, Int.add_mul]
      omega
    have hclaim := p.claim (by rw [hpc]; exact List.mem_singleton_self _)
    rw [List.count_singleton_self] at hsingle honce
    have hempty : waiting w.heap.queue timer.id = 0 := by
      rw [places] at hsingle
      omega
    refine { p with
      read := fun n hm => ?_
      taken := fun other hm _ => ?_
      queue := fun item hm he => ?_
      claim := (fun hm => by cases hm)
      running := fun n other h _ => ?_
      later := fun _ => ?_
      single := ?_
      once := fun h => ?_ }
    · cases hm
      exact hread
    · cases hm
      exact htaken rfl
    · rw [waiting, List.countP_eq_zero] at hempty
      exact absurd he (by simpa using hempty item hm)
    · cases h
      exact List.mem_cons_self
    · rw [hdue]
      exact Int.add_le_add_right hclaim _
    · simp only [Pc.taken, List.count_singleton_self]
      exact hsingle
    · simp only [begun, Pc.claim, List.count_nil, List.count_cons_self, Nat.add_zero]
      exact honce h
  · have hcount : (timer.id :: w.invoked).count id = w.invoked.count id :=
      List.count_cons_of_ne hid
    have hdue : due id expired interval
        { w with pc := .callback now timer, invoked := timer.id :: w.invoked } =
        due id expired interval w := by
      simp only [due, hcount]
    have hmem (h : id ∈ timer.id :: w.invoked) : id ∈ w.invoked :=
      (List.mem_cons.mp h).resolve_left (Ne.symm hid)
    refine { p with
      read := fun n hm => ?_
      taken := fun other hm he => ?_
      queue := fun item hm he => hdue ▸ p.queue item hm he
      claim := (fun hm => by cases hm)
      running := fun n other h he => ?_
      later := fun hm => hdue ▸ p.later (hmem hm)
      single := hsingle
      once := fun h => ?_ }
    · cases hm
      exact hread
    · cases hm
      exact absurd he hid
    · cases h
      exact absurd he hid
    · have := honce h
      simp only [begun, Pc.claim, hcount, List.count_nil]
      exact Nat.le_trans (Nat.add_le_add_right (by omega) _) this

theorem paced_rearm (p : Paced id expired interval w) {now : Int} {timer : Entry}
    (hpc : w.pc = .callback now timer) (hi : timer.interval > 0) :
    Paced id expired interval
      { w with heap := w.heap.emplace (w.clock + timer.interval) timer, pc := .loop now } := by
  have hread : now ≤ w.clock := p.read now (by rw [hpc]; rfl)
  have hsingle := p.single
  have htaken := p.taken timer (by rw [hpc]; rfl)
  simp only [hpc, Pc.taken, List.count_singleton, beq_iff_eq] at hsingle
  have hcons : waiting (⟨w.clock + timer.interval, timer.id⟩ :: w.heap.queue) id =
      waiting w.heap.queue id + if timer.id = id then 1 else 0 := waiting_cons _ _ _
  have hplaces : places id
      { w with heap := w.heap.emplace (w.clock + timer.interval) timer, pc := .loop now } =
      (if timer.id = id then 1 else 0) + places id w := by
    simp only [places, emplace, World.adding, hcons]
    omega
  refine { p with
    read := fun n hm => ?_
    taken := (fun _ hm => by cases hm)
    queue := fun item hm he => ?_
    claim := (fun hm => by cases hm)
    running := (fun _ _ h => by cases h)
    single := ?_
    once := fun h => ?_ }
  · cases hm
    exact hread
  · rcases List.mem_cons.mp hm with rfl | hm
    · have hl := p.later (p.running now timer hpc he)
      have hn := htaken he
      have hd : due id expired interval w ≤ w.clock + timer.interval := by omega
      exact hd
    · exact p.queue item hm he
  · rw [hplaces]
    simpa only [Pc.taken, List.count_nil, Nat.zero_add] using hsingle
  · have hne : timer.id ≠ id := by
      intro he
      have := htaken he
      omega
    have := p.once h
    simpa only [begun, hpc, Pc.claim, hplaces, if_neg hne, Nat.zero_add] using this

theorem paced_step {a : Action} (k : Kept w) (b : Entered w) (p : Paced id expired interval w)
    (hf : Fits w a) (h : step w a = some t) : Paced id expired interval t := by
  cases step_moves h with
  | elapse usecs =>
    have hc : w.clock ≤ w.clock + usecs := by omega
    exact paced_quiet p hc (fun now hm => Int.le_trans (p.read now hm) hc) (fun _ h => h) rfl rfl
      rfl rfl (.inl rfl)
  | add delay interval =>
    refine paced_adds p (Nat.le_refl _) rfl fun e i hm => ?_
    exact (List.mem_cons.mp hm).resolve_left fun he => by cases he
  | issue hi => exact paced_issue_other p hi
  | enter hi => exact paced_enter p b hi
  | cancel i =>
    refine paced_quiet p (Int.le_refl _) p.read (fun timer ht => ?_) rfl rfl rfl rfl (.inl rfl)
    simp only [TimerHeapQueue.cancel] at ht
    split at ht
    · cases ht
    · exact ht
  | handleEvents hpc =>
    refine paced_quiet p (Int.le_refl _) (fun now hm => ?_) (fun _ h => h) rfl rfl rfl rfl (.inr rfl)
    cases hm
    exact Int.le_refl _
  | lock hpc =>
    refine paced_quiet p (Int.le_refl _) (fun now hm => ?_) (fun _ h => h) rfl rfl rfl rfl (.inr rfl)
    exact p.read now (by rw [hpc]; exact hm)
  | pop hpc hi hdue => exact paced_pop k p hpc hi hdue
  | invoke hpc => exact paced_invoke p hpc
  | rearm hpc hi =>
    rw [rearm_fits hf hpc hi]
    exact paced_rearm p hpc hi
  | @drop now timer hpc =>
    refine paced_quiet p (Int.le_refl _) (fun n hm => ?_) (fun other ht => ?_) rfl rfl rfl rfl
      (.inr rfl)
    · exact p.read n (by rw [hpc]; exact hm)
    · simp only [TimerHeapQueue.cancel] at ht
      split at ht
      · cases ht
      · exact ht
  | finish hpc =>
    exact paced_quiet p (Int.le_refl _) (fun _ hm => by cases hm) (fun _ h => h) rfl rfl rfl rfl
      (.inr rfl)

def Steady (w : World) : Prop := Kept w ∧ Entered w ∧ ∀ now ∈ w.pc.now, now ≤ w.clock

theorem steady_step {a : Action} (s : Steady w) (h : step w a = some t) : Steady t := by
  obtain ⟨k, b, hr⟩ := s
  refine ⟨kept_step k h, entered_step k b h, ?_⟩
  cases step_moves h with
  | elapse usecs =>
    intro now hm
    have := hr now hm
    simp only
    omega
  | add | issue | enter | cancel => exact hr
  | handleEvents hpc =>
    intro now hm
    cases hm
    exact Int.le_refl _
  | lock hpc | invoke hpc | rearm hpc | drop hpc => exact fun n hm => hr n (by rw [hpc]; exact hm)
  | @pop _ _ item hpc =>
    intro n hm
    refine hr n ?_
    rw [hpc]
    cases ht : w.heap.table item.timer <;> simpa [ht, Pc.afterPop, Pc.now] using hm
  | finish => exact fun _ hm => by cases hm

theorem steady_init (clock : Int) : Steady (.init clock) :=
  ⟨kept_init clock, (fun _ hm => by cases hm), fun _ hm => by cases hm⟩

theorem invoked_on_time (clock : Int) (as bs : List Action) {w t u : World} {index : Nat}
    {expired interval : Int} (hw : system.run (.init clock) as = some w)
    (hi : w.adds[index]? = some (.computed expired interval))
    (ht : step w (.advance index) = some t) (hf : system.Along Fits t bs)
    (hu : system.run t bs = some u) : OnTime (w.heap.counter + 1) expired interval u := by
  obtain ⟨k, b, hr⟩ : Steady w := Transition.System.run_invariant (M := system)
    (G := fun _ _ => True) (fun _ _ _ s _ h => steady_step s h) (steady_init clock)
    Transition.System.along_true hw
  have hs : Steady t := steady_step ⟨k, b, hr⟩ ht
  have hp : Paced (w.heap.counter + 1) expired interval t := by
    simp only [step, hi] at ht
    cases ht
    exact paced_issue k b hr hi
  have hlast := Transition.System.run_invariant (M := system)
    (I := fun u => Steady u ∧ Paced (w.heap.counter + 1) expired interval u)
    (fun _ _ _ s hf h => ⟨steady_step s.1 h, paced_step s.1.1 s.1.2.1 s.2 hf h⟩) ⟨hs, hp⟩ hf hu
  exact paced_on_time hlast.2

def twice : List Action :=
  [.advance 0, .elapse 5, .handleEvents, .lock, .pop 0, .invoke, .resume, .finish, .elapse 7,
    .handleEvents, .lock, .pop 0, .invoke]

theorem invoked_on_time_twice : ∃ t u : World,
    system.run (.init 0) [.add 5 7, .advance 0] = some t ∧ system.run t twice = some u ∧
      u.invoked.count 1 = 2 ∧ OnTime 1 5 7 u := by
  obtain ⟨w, hw⟩ : ∃ w, w = (⟨0, .create, create, [.computed 5 7], .idle, []⟩ : World) := ⟨_, rfl⟩
  obtain ⟨t, ht, hf, u, hu, hc⟩ : ∃ t, step w (.advance 0) = some t ∧ system.Along Fits t twice ∧
      ∃ u, system.run t twice = some u ∧ u.invoked.count 1 = 2 := by
    subst hw
    exact ⟨_, rfl, by decide, _, rfl, rfl⟩
  have hrun : system.run (.init 0) [.add 5 7] = some w := by rw [hw]; rfl
  have hc' : w.heap.counter + 1 = 1 := by rw [hw]; rfl
  refine ⟨t, u, Transition.System.run_append.mpr ⟨w, hrun, ?_⟩, hu, hc, ?_⟩
  · simp [Transition.System.run, system, ht]
  · rw [← hc']
    exact invoked_on_time 0 [.add 5 7] twice hrun (by rw [hw]; rfl) ht hf hu

end Concurrent
end TimerHeapQueue
end Pedronet
