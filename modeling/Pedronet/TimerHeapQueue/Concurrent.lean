import Pedronet.TimerHeapQueue
import Pedronet.Pool

namespace Pedronet
namespace TimerHeapQueue
namespace Concurrent

inductive AddPc where
  | computed (expired interval : Int)
  | issued (id : Nat) (expired interval : Int)
deriving DecidableEq, Repr

-- The lock is held in `loop` and is free in the other states.
inductive Pc where
  | idle
  | entered (now : Int)
  | loop (now : Int)
  | claimed (now : Int) (timer : Entry)
  | callback (now : Int) (timer : Entry)
deriving DecidableEq, Repr

def Pc.locked : Pc → Bool
  | .loop _ => true
  | _ => false

-- `invoked` is history: the ids of the callbacks begun, the last one first.
structure World where
  clock : Int
  channel : TimerChannel
  heap : TimerHeapQueue
  adds : List AddPc
  pc : Pc
  invoked : List Nat

inductive Action where
  | elapse (usecs : Nat)
  | add (delay interval : Int)
  | advance (index : Nat)
  | cancel (id : Nat)
  | handleEvents
  | lock
  | pop (index : Nat)
  | invoke
  | resume
  | finish
deriving DecidableEq, Repr

def World.init (clock : Int) : World := ⟨clock, .create, create, [], .idle, []⟩

def enter (q : TimerHeapQueue) (expired : Int) (timer : Entry) : TimerHeapQueue :=
  { q.emplace expired timer with
    table := fun i => if i = timer.id then some timer else q.table i }

def finish (q : TimerHeapQueue) (now : Int) (timer : Entry) : TimerHeapQueue :=
  if timer.interval > 0 then q.emplace (toInt64 (now + timer.interval)) timer else q.cancel timer.id

def Pc.afterPop (now : Int) : Option Entry → Pc
  | some timer => .claimed now timer
  | none => .loop now

def step (w : World) : Action → Option World
  | .elapse usecs => some { w with clock := w.clock + usecs }
  | .add delay interval => some { w with adds := .computed (toInt64 (w.clock + delay)) interval :: w.adds }
  | .advance index =>
    match w.adds[index]? with
    | some (.computed expired interval) =>
      let id := w.heap.counter + 1
      some { w with
        heap := { w.heap with counter := id }
        adds := w.adds.set index (.issued id expired interval) }
    | some (.issued id expired interval) =>
      if w.pc.locked = false then
        some { w with
          heap := enter w.heap expired ⟨id, interval⟩
          channel := w.channel.wakeUpAt w.clock expired
          adds := w.adds.eraseIdx index }
      else none
    | none => none
  | .cancel id => if w.pc.locked = false then some { w with heap := w.heap.cancel id } else none
  | .handleEvents =>
    match w.pc with
    | .idle => some { w with channel := w.channel.handleEvents w.clock, pc := .entered w.clock }
    | _ => none
  | .lock =>
    match w.pc with
    | .entered now => some { w with pc := .loop now }
    | _ => none
  | .pop index =>
    match w.pc, w.heap.queue[index]? with
    | .loop now, some item =>
      if item.expire ≤ now ∧ ∀ other ∈ w.heap.queue, item.expire ≤ other.expire then
        some { w with
          heap := { w.heap with queue := w.heap.queue.eraseIdx index }
          pc := .afterPop now (w.heap.table item.timer) }
      else none
    | _, _ => none
  | .invoke =>
    match w.pc with
    | .claimed now timer =>
      some { w with pc := .callback now timer, invoked := timer.id :: w.invoked }
    | _ => none
  | .resume =>
    match w.pc with
    | .callback now timer =>
      some { w with heap := finish w.heap w.clock timer, pc := .loop now }
    | _ => none
  | .finish =>
    match w.pc with
    | .loop now =>
      if ∀ item ∈ w.heap.queue, now < item.expire then
        some { w with channel := w.heap.wakeUpTop w.channel w.clock, pc := .idle }
      else none
    | _ => none

def system : Transition.System World Action where
  start w := ∃ clock, w = World.init clock
  step := step

-- Every sum that computes an expiry fits an int64.
def Fits (w : World) : Action → Prop
  | .add delay _ => isInt64 (w.clock + delay)
  | .resume =>
    match w.pc with
    | .callback _ timer => timer.interval > 0 → isInt64 (w.clock + timer.interval)
    | _ => True
  | _ => True

instance (w : World) : DecidablePred (Fits w)
  | .add _ _ => inferInstanceAs (Decidable (isInt64 _))
  | .resume =>
    match h : w.pc with
    | .callback _ timer =>
      decidable_of_iff (timer.interval > 0 → isInt64 (w.clock + timer.interval)) (by simp [Fits, h])
    | .idle | .entered _ | .loop _ | .claimed _ _ => isTrue (by simp [Fits, h])
  | .elapse _ | .advance _ | .cancel _ | .handleEvents | .lock | .pop _ | .invoke | .finish =>
    isTrue trivial

variable {w t : World}

inductive Moves (w : World) : Action → World → Prop where
  | elapse (usecs : Nat) : Moves w (.elapse usecs) { w with clock := w.clock + usecs }
  | add (delay interval : Int) :
    Moves w (.add delay interval)
      { w with adds := .computed (toInt64 (w.clock + delay)) interval :: w.adds }
  | issue {index : Nat} {expired interval : Int}
    (hi : w.adds[index]? = some (.computed expired interval)) :
    Moves w (.advance index) { w with
      heap := { w.heap with counter := w.heap.counter + 1 }
      adds := w.adds.set index (.issued (w.heap.counter + 1) expired interval) }
  | enter {index id : Nat} {expired interval : Int}
    (hi : w.adds[index]? = some (.issued id expired interval)) (hl : w.pc.locked = false) :
    Moves w (.advance index) { w with
      heap := enter w.heap expired ⟨id, interval⟩
      channel := w.channel.wakeUpAt w.clock expired
      adds := w.adds.eraseIdx index }
  | cancel (id : Nat) (hl : w.pc.locked = false) :
    Moves w (.cancel id) { w with heap := w.heap.cancel id }
  | handleEvents (hpc : w.pc = .idle) :
    Moves w .handleEvents
      { w with channel := w.channel.handleEvents w.clock, pc := .entered w.clock }
  | lock {now : Int} (hpc : w.pc = .entered now) : Moves w .lock { w with pc := .loop now }
  | pop {index : Nat} {now : Int} {item : Timeout} (hpc : w.pc = .loop now)
    (hi : w.heap.queue[index]? = some item) (hdue : item.expire ≤ now)
    (htop : IsTop w.heap.queue item) :
    Moves w (.pop index) { w with
      heap := { w.heap with queue := w.heap.queue.eraseIdx index }
      pc := .afterPop now (w.heap.table item.timer) }
  | invoke {now : Int} {timer : Entry} (hpc : w.pc = .claimed now timer) :
    Moves w .invoke { w with pc := .callback now timer, invoked := timer.id :: w.invoked }
  | rearm {now : Int} {timer : Entry} (hpc : w.pc = .callback now timer)
    (hi : timer.interval > 0) :
    Moves w .resume
      { w with heap := w.heap.emplace (toInt64 (w.clock + timer.interval)) timer, pc := .loop now }
  | drop {now : Int} {timer : Entry} (hpc : w.pc = .callback now timer) :
    Moves w .resume { w with heap := w.heap.cancel timer.id, pc := .loop now }
  | finish {now : Int} (hpc : w.pc = .loop now) (hlate : ∀ item ∈ w.heap.queue, now < item.expire) :
    Moves w .finish { w with channel := w.heap.wakeUpTop w.channel w.clock, pc := .idle }

theorem step_moves {a : Action} (h : step w a = some t) : Moves w a t := by
  cases a with
  | elapse usecs =>
    cases h
    exact .elapse usecs
  | add delay interval =>
    cases h
    exact .add delay interval
  | advance index =>
    simp only [step] at h
    split at h
    · cases h
      exact .issue ‹_›
    · split at h
      · cases h
        exact .enter ‹_› ‹_›
      · cases h
    · cases h
  | cancel id =>
    simp only [step] at h
    split at h
    · cases h
      exact .cancel id ‹_›
    · cases h
  | handleEvents =>
    simp only [step] at h
    split at h
    · cases h
      exact .handleEvents ‹_›
    · cases h
  | lock =>
    simp only [step] at h
    split at h
    · cases h
      exact .lock ‹_›
    · cases h
  | pop index =>
    simp only [step] at h
    split at h
    · rename_i hpc hi
      split at h
      · rename_i hdue
        cases h
        exact .pop hpc hi hdue.1 ⟨List.mem_of_getElem? hi, hdue.2⟩
      · cases h
    · cases h
  | invoke =>
    simp only [step] at h
    split at h
    · cases h
      exact .invoke ‹_›
    · cases h
  | resume =>
    simp only [step] at h
    split at h
    · cases h
      unfold finish
      split
      · exact .rearm ‹_› ‹_›
      · exact .drop ‹_›
    · cases h
  | finish =>
    simp only [step] at h
    split at h
    · split at h
      · cases h
        exact .finish ‹_› ‹_›
      · cases h
    · cases h

theorem rearm_fits {now : Int} {timer : Entry} (hf : Fits w .resume) (hpc : w.pc = .callback now timer)
    (hi : timer.interval > 0) :
    toInt64 (w.clock + timer.interval) = w.clock + timer.interval := by
  simp only [Fits, hpc] at hf
  exact to_int64_fits (hf hi)

theorem step_cancel {id : Nat} (h : step w (.cancel id) = some t) :
    t = { w with heap := w.heap.cancel id } := by
  cases step_moves h
  rfl

theorem step_pop {index : Nat} (h : step w (.pop index) = some t) :
    ∃ now item, w.pc = .loop now ∧ w.heap.queue[index]? = some item ∧ item.expire ≤ now ∧
      IsTop w.heap.queue item ∧
      t = { w with
        heap := { w.heap with queue := w.heap.queue.eraseIdx index }
        pc := .afterPop now (w.heap.table item.timer) } := by
  cases step_moves h with
  | pop hpc hi hdue htop => exact ⟨_, _, hpc, hi, hdue, htop, rfl⟩

theorem counter_step {a : Action} (h : step w a = some t) :
    t.heap.counter = w.heap.counter ∨ t.heap.counter = w.heap.counter + 1 := by
  cases step_moves h with
  | issue => exact .inr rfl
  | _ => exact .inl rfl

def Pc.taken : Pc → List Nat
  | .claimed _ timer | .callback _ timer => [timer.id]
  | .idle | .entered _ | .loop _ => []

def AddPc.adding : AddPc → List Nat
  | .computed _ _ => []
  | .issued id _ _ => [id]

def World.adding (w : World) : List Nat := w.adds.flatMap AddPc.adding

def waiting (queue : List Timeout) (id : Nat) : Nat := queue.countP fun item => item.timer = id

structure Absent (w : World) (id : Nat) : Prop where
  table : w.heap.table id = none
  waiting : waiting w.heap.queue id = 0
  taken : id ∉ w.pc.taken

structure Kept (w : World) : Prop where
  table (id : Nat) (timer : Entry) : w.heap.table id = some timer → timer.id = id
  waits (id : Nat) : w.heap.table id ≠ none →
    waiting w.heap.queue id = if id ∈ w.pc.taken then 0 else 1
  nodup : w.adding.Nodup
  issued : ∀ id ∈ w.adding, id ≤ w.heap.counter ∧ Absent w id
  fresh (id : Nat) : w.heap.counter < id → Absent w id

theorem waiting_cons (item : Timeout) (queue : List Timeout) (id : Nat) :
    waiting (item :: queue) id = waiting queue id + if item.timer = id then 1 else 0 := by
  simp [waiting, List.countP_cons]

theorem waiting_erase {queue : List Timeout} {index : Nat} {item : Timeout}
    (h : queue[index]? = some item) (id : Nat) :
    waiting (queue.eraseIdx index) id + (if item.timer = id then 1 else 0) = waiting queue id := by
  simpa [waiting] using Pool.count_erase (fun item => item.timer = id) h

theorem waiting_eq (queue : List Timeout) (id : Nat) :
    waiting queue id = (queue.map Timeout.timer).count id := by
  simp only [waiting, List.count, List.countP_map]
  rfl

theorem kept_init (clock : Int) : Kept (World.init clock) where
  table id timer h := by cases h
  waits id h := absurd rfl h
  nodup := List.nodup_nil
  issued id h := by cases h
  fresh id _ := ⟨rfl, rfl, by simp [World.init, Pc.taken]⟩

theorem kept_same (k : Kept w) (hh : t.heap = w.heap) (hp : t.pc.taken = w.pc.taken)
    (ha : t.adding = w.adding) : Kept t := by
  have habsent {id : Nat} (h : Absent w id) : Absent t id :=
    ⟨hh ▸ h.table, hh ▸ h.waiting, hp ▸ h.taken⟩
  refine ⟨?_, ?_, ha ▸ k.nodup, ?_, ?_⟩
  · rw [hh]
    exact k.table
  · rw [hh, hp]
    exact k.waits
  · rw [ha, hh]
    exact fun id hid => ⟨(k.issued id hid).1, habsent (k.issued id hid).2⟩
  · rw [hh]
    exact fun id hid => habsent (k.fresh id hid)

theorem kept_issue (k : Kept w) {index : Nat} {expired interval : Int}
    (h : w.adds[index]? = some (.computed expired interval)) :
    Kept { w with
      heap := { w.heap with counter := w.heap.counter + 1 }
      adds := w.adds.set index (.issued (w.heap.counter + 1) expired interval) } := by
  have hperm := Pool.flat_map_set (b := .issued (w.heap.counter + 1) expired interval)
    AddPc.adding h
  simp only [AddPc.adding, List.append_nil, List.singleton_append] at hperm
  have hnew := k.fresh (w.heap.counter + 1) (Nat.lt_succ_self _)
  have hnot : w.heap.counter + 1 ∉ w.adding := fun hm =>
    Nat.not_succ_le_self _ (k.issued _ hm).1
  refine ⟨k.table, k.waits, hperm.nodup_iff.mpr (List.nodup_cons.mpr ⟨hnot, k.nodup⟩), ?_, ?_⟩
  · intro id hid
    rcases List.mem_cons.mp (hperm.subset hid) with rfl | hid
    · exact ⟨Nat.le_refl _, hnew.table, hnew.waiting, hnew.taken⟩
    · obtain ⟨hle, ha⟩ := k.issued id hid
      exact ⟨Nat.le_succ_of_le hle, ha.table, ha.waiting, ha.taken⟩
  · intro id hid
    have ha := k.fresh id (Nat.lt_of_succ_lt hid)
    exact ⟨ha.table, ha.waiting, ha.taken⟩

theorem kept_enter (k : Kept w) {index id : Nat} {expired interval : Int} {c : TimerChannel}
    (h : w.adds[index]? = some (.issued id expired interval)) :
    Kept { w with
      heap := enter w.heap expired ⟨id, interval⟩
      channel := c
      adds := w.adds.eraseIdx index } := by
  have hperm := Pool.flat_map_erase_perm AddPc.adding h
  simp only [AddPc.adding, List.singleton_append] at hperm
  obtain ⟨hnot, hnd⟩ := List.nodup_cons.mp (hperm.nodup_iff.mpr k.nodup)
  obtain ⟨hle, ha⟩ := k.issued id (hperm.subset List.mem_cons_self)
  have habsent {i : Nat} (hi : i ≠ id) (h : Absent w i) : Absent { w with
      heap := enter w.heap expired ⟨id, interval⟩
      channel := c
      adds := w.adds.eraseIdx index } i := by
    refine ⟨?_, ?_, h.taken⟩
    · simpa [enter, hi] using h.table
    · simpa [enter, emplace, waiting_cons, hi.symm] using h.waiting
  refine ⟨fun i timer ht => ?_, fun i ht => ?_, hnd, fun i hi => ?_, fun i hi => ?_⟩
  · by_cases hi : i = id
    · simp only [enter, hi, if_true, Option.some.injEq] at ht
      rw [← ht, hi]
    · simp only [enter, if_neg hi] at ht
      exact k.table i timer ht
  · by_cases hi : i = id
    · subst hi
      simp [enter, emplace, waiting_cons, ha.waiting, ha.taken]
    · simp only [enter, if_neg hi] at ht
      simpa [enter, emplace, waiting_cons, Ne.symm hi] using k.waits i ht
  · obtain ⟨hle', ha'⟩ := k.issued i (hperm.subset (List.mem_cons_of_mem _ hi))
    exact ⟨hle', habsent (fun he => hnot (he ▸ hi)) ha'⟩
  · refine habsent ?_ (k.fresh i hi)
    rintro rfl
    exact absurd hle (Nat.not_le.mpr hi)

theorem kept_cancel (k : Kept w) (id : Nat) : Kept { w with heap := w.heap.cancel id } := by
  have hsome {i : Nat} {timer : Entry} (h : (w.heap.cancel id).table i = some timer) :
      w.heap.table i = some timer := by
    simp only [cancel] at h
    split at h
    · cases h
    · exact h
  have habsent {i : Nat} (h : Absent w i) : Absent { w with heap := w.heap.cancel id } i := by
    refine ⟨?_, h.waiting, h.taken⟩
    simp only [cancel]
    split
    · rfl
    · exact h.table
  refine ⟨fun i timer h => k.table i timer (hsome h), fun i h => ?_, k.nodup,
    fun i hi => ⟨(k.issued i hi).1, habsent (k.issued i hi).2⟩, fun i hi => habsent (k.fresh i hi)⟩
  obtain ⟨timer, ht⟩ := Option.ne_none_iff_exists'.mp h
  exact k.waits i (by simp [hsome ht])

theorem taken_after_pop (k : Kept w) (now : Int) {id : Nat} :
    (Pc.afterPop now (w.heap.table id)).taken = if w.heap.table id = none then [] else [id] := by
  cases ht : w.heap.table id with
  | none => rfl
  | some timer => simp [Pc.afterPop, Pc.taken, k.table id timer ht]

theorem kept_pop (k : Kept w) {now : Int} {index : Nat} {item : Timeout}
    (hpc : w.pc = .loop now) (hi : w.heap.queue[index]? = some item) :
    Kept { w with
      heap := { w.heap with queue := w.heap.queue.eraseIdx index }
      pc := .afterPop now (w.heap.table item.timer) } := by
  have htaken : w.pc.taken = [] := by rw [hpc]; rfl
  have herase := waiting_erase hi
  have hpos : 0 < waiting w.heap.queue item.timer := by
    have := herase item.timer
    simp only [if_true] at this
    omega
  have habsent {id : Nat} (h : Absent w id) : Absent { w with
      heap := { w.heap with queue := w.heap.queue.eraseIdx index }
      pc := .afterPop now (w.heap.table item.timer) } id := by
    have hne : item.timer ≠ id := by
      rintro rfl
      exact absurd h.waiting (Nat.ne_of_gt hpos)
    refine ⟨h.table, ?_, ?_⟩
    · have := herase id
      rw [if_neg hne, h.waiting] at this
      exact this
    · rw [taken_after_pop k]
      split <;> simp [hne.symm]
  refine ⟨k.table, fun id h => ?_, k.nodup, fun id hid => ⟨(k.issued id hid).1,
    habsent (k.issued id hid).2⟩, fun id hid => habsent (k.fresh id hid)⟩
  have hw := k.waits id h
  have he := herase id
  rw [htaken] at hw
  simp only [List.not_mem_nil, if_false] at hw
  rw [taken_after_pop k]
  by_cases hid : item.timer = id
  · subst hid
    simp only [if_true] at he
    simp only [if_neg h, List.mem_singleton, if_true]
    omega
  · rw [if_neg hid] at he
    have hnot : id ∉ if w.heap.table item.timer = none then [] else [item.timer] := by
      split <;> simp [Ne.symm hid]
    rw [if_neg hnot]
    exact he.trans hw

theorem kept_rearm (k : Kept w) {now expire : Int} {timer : Entry}
    (hpc : w.pc = .callback now timer) :
    Kept { w with heap := w.heap.emplace expire timer, pc := .loop now } := by
  have htaken : w.pc.taken = [timer.id] := by rw [hpc]; rfl
  have habsent {id : Nat} (h : Absent w id) :
      Absent { w with heap := w.heap.emplace expire timer, pc := .loop now } id := by
    have hne : timer.id ≠ id := by
      rintro rfl
      exact h.taken (by simp [htaken])
    refine ⟨h.table, ?_, by simp [Pc.taken]⟩
    simpa [emplace, waiting_cons, hne] using h.waiting
  refine ⟨k.table, fun id h => ?_, k.nodup, fun id hid => ?_, fun id hid => habsent (k.fresh id hid)⟩
  · have hw := k.waits id h
    rw [htaken] at hw
    by_cases hid : timer.id = id
    · subst hid
      simpa [emplace, waiting_cons, Pc.taken] using hw
    · simpa [emplace, waiting_cons, Pc.taken, hid, Ne.symm hid] using hw
  · exact ⟨(k.issued id hid).1, habsent (k.issued id hid).2⟩

theorem kept_drop (k : Kept w) {now : Int} {timer : Entry} (hpc : w.pc = .callback now timer) :
    Kept { w with heap := w.heap.cancel timer.id, pc := .loop now } := by
  have htaken : w.pc.taken = [timer.id] := by rw [hpc]; rfl
  have hc := kept_cancel k timer.id
  refine ⟨hc.table, fun id h => ?_, hc.nodup, fun id hid => ?_, fun id hid => ?_⟩
  · have hne : id ≠ timer.id := by
      rintro rfl
      exact h (by simp [cancel])
    have hw := hc.waits id h
    rw [htaken] at hw
    simpa [hne, Pc.taken] using hw
  · obtain ⟨hle, ha⟩ := hc.issued id hid
    exact ⟨hle, ha.table, ha.waiting, by simp [Pc.taken]⟩
  · have ha := hc.fresh id hid
    exact ⟨ha.table, ha.waiting, by simp [Pc.taken]⟩

theorem kept_step {a : Action} (k : Kept w) (h : step w a = some t) : Kept t := by
  cases step_moves h with
  | elapse | add => exact kept_same k rfl rfl rfl
  | issue hi => exact kept_issue k hi
  | enter hi => exact kept_enter k hi
  | cancel id => exact kept_cancel k id
  | handleEvents hpc | lock hpc | invoke hpc | finish hpc =>
    exact kept_same k rfl (by rw [hpc]; rfl) rfl
  | pop hpc hi => exact kept_pop k hpc hi
  | rearm hpc => exact kept_rearm k hpc
  | drop hpc => exact kept_drop k hpc

def Pc.claim : Pc → List Nat
  | .claimed _ timer => [timer.id]
  | .idle | .entered _ | .loop _ | .callback _ _ => []

structure Cancelled (id : Nat) (w : World) : Prop where
  table : w.heap.table id = none
  issued : id ≤ w.heap.counter
  adding : id ∉ w.adding

def begun (id : Nat) (w : World) : Nat := w.invoked.count id + w.pc.claim.count id

theorem cancelled_same {id : Nat} (c : Cancelled id w) (ht : t.heap.table = w.heap.table)
    (hc : t.heap.counter = w.heap.counter) (ha : t.adding = w.adding) : Cancelled id t :=
  ⟨ht ▸ c.table, hc ▸ c.issued, ha ▸ c.adding⟩

theorem cancel_cancelled {id : Nat} (c : Cancelled id w) (i : Nat) :
    Cancelled id { w with heap := w.heap.cancel i } := by
  refine ⟨?_, c.issued, c.adding⟩
  simp only [cancel]
  split
  · rfl
  · exact c.table

theorem cancelled_step {a : Action} {id : Nat} (k : Kept w) (c : Cancelled id w)
    (h : step w a = some t) : Cancelled id t ∧ begun id t ≤ begun id w := by
  cases step_moves h with
  | elapse | add => exact ⟨cancelled_same c rfl rfl rfl, Nat.le_refl _⟩
  | @issue _ expired interval hi =>
    have hperm := Pool.flat_map_set (b := .issued (w.heap.counter + 1) expired interval)
      AddPc.adding hi
    simp only [AddPc.adding, List.append_nil, List.singleton_append] at hperm
    refine ⟨⟨c.table, Nat.le_succ_of_le c.issued, fun hm => ?_⟩, Nat.le_refl _⟩
    rcases List.mem_cons.mp (hperm.subset hm) with he | hm
    · exact absurd c.issued (by omega)
    · exact c.adding hm
  | @enter _ i _ _ hi =>
    have hperm := Pool.flat_map_erase_perm AddPc.adding hi
    simp only [AddPc.adding, List.singleton_append] at hperm
    have hne : id ≠ i := by
      rintro rfl
      exact c.adding (hperm.subset List.mem_cons_self)
    refine ⟨⟨?_, c.issued, fun hm => ?_⟩, Nat.le_refl _⟩
    · simpa [enter, hne] using c.table
    · exact c.adding (hperm.subset (List.mem_cons_of_mem _ hm))
  | cancel i => exact ⟨cancel_cancelled c i, Nat.le_refl _⟩
  | handleEvents hpc | lock hpc | rearm hpc | finish hpc =>
    exact ⟨cancelled_same c rfl rfl rfl, by simp [begun, Pc.claim]⟩
  | @pop _ now item hpc hi =>
    refine ⟨cancelled_same c rfl rfl rfl, ?_⟩
    have hclaim : id ∉ (Pc.afterPop now (w.heap.table item.timer)).claim := by
      cases ht : w.heap.table item.timer with
      | none => simp [Pc.afterPop, Pc.claim]
      | some timer =>
        simp only [Pc.afterPop, Pc.claim, List.mem_singleton]
        rintro rfl
        have hnone := c.table
        rw [k.table _ timer ht, ht] at hnone
        cases hnone
    simp [begun, List.count_eq_zero.mpr hclaim]
  | invoke hpc =>
    refine ⟨cancelled_same c rfl rfl rfl, ?_⟩
    simp only [begun, hpc, Pc.claim, List.count_cons, List.count_nil]
    omega
  | @drop _ timer hpc =>
    have hd := cancel_cancelled c timer.id
    exact ⟨⟨hd.table, hd.issued, hd.adding⟩, by simp [begun, Pc.claim]⟩

def fine (w : TimerHeapQueue.World) (invoked : List Nat) : World where
  clock := w.clock
  channel := w.channel
  heap := w.heap
  adds := []
  pc := match w.pc with
    | .idle => .idle
    | .loop now => .loop now
    | .callback now timer => .callback now timer
  invoked := invoked

-- A step of the coarse model, where a call is one step, is a run of this one.
theorem fine_step {w t : TimerHeapQueue.World} {a : TimerHeapQueue.Action}
    (hc : 0 ≤ w.clock) (h : TimerHeapQueue.step w a = some t) (invoked : List Nat) :
    ∃ as log, system.run (fine w invoked) as = some (fine t log) := by
  have hfits {usecs : Int} (hu : 0 ≤ usecs) (hm : w.clock + usecs ≤ int64Max) :
      toInt64 (w.clock + usecs) = w.clock + usecs := by
    refine to_int64_fits ⟨?_, hm⟩
    simp only [int64Min]
    omega
  obtain ⟨clock, completed, channel, heap, pc⟩ := w
  cases a with
  | elapse usecs =>
    cases h
    exact ⟨[.elapse usecs], invoked, rfl⟩
  | add delay interval =>
    obtain ⟨rfl, hl, hd, -, hm⟩ := TimerHeapQueue.step_add h
    refine ⟨[.add delay interval, .advance 0, .advance 0], invoked, ?_⟩
    have hfit : toInt64 (clock + delay) = clock + delay := hfits hd hm
    cases pc with
    | idle =>
      simp only [Transition.System.run, system, step, fine, hfit]
      rfl
    | callback now timer =>
      simp only [Transition.System.run, system, step, fine, hfit]
      rfl
    | loop now => cases hl
  | cancel id =>
    obtain ⟨rfl, hl⟩ := TimerHeapQueue.step_cancel h
    refine ⟨[.cancel id], invoked, ?_⟩
    cases pc with
    | idle => rfl
    | callback now timer => rfl
    | loop now => cases hl
  | handleEvents =>
    obtain ⟨rfl, rfl⟩ := TimerHeapQueue.step_handle_events h
    exact ⟨[.handleEvents, .lock], invoked, rfl⟩
  | pop index =>
    obtain ⟨now, item, rfl, hi, hdue, htop, rfl⟩ := TimerHeapQueue.step_pop h
    have hp : step (fine ⟨clock, completed, channel, heap, .loop now⟩ invoked) (.pop index) =
        some ⟨clock, channel, { heap with queue := heap.queue.eraseIdx index }, [],
          .afterPop now (heap.table item.timer), invoked⟩ := by
      simp only [step, fine, hi]
      exact if_pos ⟨hdue, htop.2⟩
    cases ht : heap.table item.timer with
    | none =>
      refine ⟨[.pop index], invoked, ?_⟩
      simp only [Transition.System.run, system, hp, ht]
      rfl
    | some timer =>
      refine ⟨[.pop index, .invoke], timer.id :: invoked, ?_⟩
      simp only [Transition.System.run, system, hp, ht]
      rfl
  | resume =>
    obtain ⟨now, timer, rfl, hm, rfl⟩ := TimerHeapQueue.step_resume h
    have hfinish : finish heap clock timer = heap.finishCallback clock timer := by
      unfold finish finishCallback
      split
      · rename_i hi
        rw [hfits (Int.le_of_lt hi) hm]
      · rfl
    refine ⟨[.resume], invoked, ?_⟩
    simp only [Transition.System.run, system, step, fine, hfinish]
    rfl
  | finish =>
    obtain ⟨now, rfl, hlate, rfl⟩ := TimerHeapQueue.step_finish h
    refine ⟨[.finish], invoked, ?_⟩
    simp only [Transition.System.run, system, step, fine]
    rw [if_pos hlate]
    rfl

theorem fine_run {w : TimerHeapQueue.World} {clock : Int} {as : List TimerHeapQueue.Action}
    (hc : 0 ≤ clock) (h : TimerHeapQueue.system.run (.init clock) as = some w) :
    ∃ bs log, system.run (.init clock) bs = some (fine w log) := by
  have hstep (w : TimerHeapQueue.World) (a : TimerHeapQueue.Action) (t : TimerHeapQueue.World)
      (u : World) (hr : 0 ≤ w.clock ∧ ∃ log, u = fine w log)
      (h : TimerHeapQueue.system.step w a = some t) :
      ∃ bs v, system.run u bs = some v ∧ 0 ≤ t.clock ∧ ∃ log, v = fine t log := by
    obtain ⟨hc, log, rfl⟩ := hr
    obtain ⟨bs, log', hb⟩ := fine_step hc h log
    exact ⟨bs, fine t log', hb, Int.le_trans hc (TimerHeapQueue.clock_step h), log', rfl⟩
  obtain ⟨bs, u, hu, -, log, rfl⟩ := Transition.System.run_simulated hstep ⟨hc, [], rfl⟩ h
  exact ⟨bs, log, hu⟩

end Concurrent
end TimerHeapQueue
end Pedronet
