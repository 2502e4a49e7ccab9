import Pedronet.TimerHeapQueue.Concurrent

namespace Pedronet
namespace TimerHeapQueue
namespace Concurrent

-- One call of Process: `item` is its local variable, `fired` and `cancelled` are history.
structure Call where
  world : World
  item : Option Timeout
  fired : List Timeout
  cancelled : List Nat

variable {w t u : World} {c d : Call}

def Call.enter (w : World) : Call := ⟨w, none, [], []⟩

def Pc.inCallback : Pc → Bool
  | .callback _ _ => true
  | .idle | .entered _ | .loop _ | .claimed _ _ => false

-- Until the call returns no other thread acts, and a callback returns when its own Add has.
def Alone (w : World) : Action → Prop
  | .add delay _ => w.pc.inCallback = true ∧ w.adds = [] ∧ 0 ≤ delay
  | .cancel _ => w.pc.inCallback = true ∧ w.adds = []
  | .resume => w.adds = []
  | .advance _ => w.pc.inCallback = true
  | .elapse _ => w.pc ≠ .idle
  | .handleEvents => False
  | .lock | .pop _ | .invoke | .finish => True

instance (w : World) : DecidablePred (Alone w)
  | .add _ _ | .cancel _ => inferInstanceAs (Decidable (_ ∧ _))
  | .resume | .advance _ => inferInstanceAs (Decidable (_ = _))
  | .elapse _ => inferInstanceAs (Decidable (_ ≠ _))
  | .handleEvents => isFalse id
  | .lock | .pop _ | .invoke | .finish => isTrue trivial

def Call.record (c : Call) (t : World) : Action → Call
  | .pop index => { c with world := t, item := c.world.heap.queue[index]? }
  | .invoke => { c with world := t, fired := c.fired ++ c.item.toList }
  | .cancel id => { c with world := t, cancelled := c.cancelled ++ [id] }
  | _ => { c with world := t }

def Call.step (c : Call) (a : Action) : Option Call :=
  if Alone c.world a then (Concurrent.step c.world a).map fun t => c.record t a else none

def calls : Transition.System Call Action where
  start c := ∃ w, c = .enter w
  step := Call.step

structure FiresDue (w : World) (c : Call) : Prop where
  invoked : c.world.invoked = (c.fired.map Timeout.timer).reverse ++ w.invoked
  due : ∀ item ∈ c.fired, item.expire ≤ w.clock
  ordered : c.fired.Pairwise fun x y => x.expire ≤ y.expire
  once : (c.fired.map Timeout.timer).Nodup
  complete : ∀ item ∈ w.heap.queue, item.expire ≤ w.clock → w.heap.table item.timer ≠ none →
    item ∈ c.fired ∨ item.timer ∈ c.cancelled
  drained : ∀ item ∈ c.world.heap.queue, w.clock < item.expire

theorem call_step {a : Action} (h : c.step a = some d) :
    ∃ t, Alone c.world a ∧ Concurrent.step c.world a = some t ∧ d = c.record t a := by
  simp only [Call.step] at h
  split at h
  · rename_i ha
    obtain ⟨t, ht, rfl⟩ := Option.map_eq_some_iff.mp h
    exact ⟨t, ha, ht, rfl⟩
  · cases h

def Pc.reads (now : Int) : Pc → Prop
  | .idle => True
  | .entered n | .loop n | .claimed n _ | .callback n _ => n = now

def AddPc.expired : AddPc → Int
  | .computed expired _ | .issued _ expired _ => expired

structure Clocked (now : Int) (w : World) : Prop where
  clock : now ≤ w.clock
  reads : w.pc.reads now
  adds : ∀ add ∈ w.adds, now ≤ add.expired

theorem clocked_step {now : Int} {a : Action} (k : Clocked now w) (ha : Alone w a) (hf : Fits w a)
    (h : step w a = some t) : Clocked now t := by
  have hclock := k.clock
  cases step_moves h with
  | elapse usecs =>
    refine ⟨?_, k.reads, k.adds⟩
    change now ≤ w.clock + usecs
    omega
  | add delay interval =>
    refine ⟨hclock, k.reads, fun add hm => ?_⟩
    rcases List.mem_cons.mp hm with rfl | hm
    · have hdelay := ha.2.2
      have hfit : toInt64 (w.clock + delay) = w.clock + delay := to_int64_fits hf
      simp only [AddPc.expired, hfit]
      omega
    · exact k.adds add hm
  | @issue _ expired interval hi =>
    refine ⟨hclock, k.reads, fun add hm => ?_⟩
    rcases Pool.mem_set hi hm with rfl | hm
    · have he : now ≤ (AddPc.computed expired interval).expired :=
        k.adds _ (List.mem_of_getElem? hi)
      exact he
    · exact k.adds add hm
  | enter hi => exact ⟨hclock, k.reads, fun add hm => k.adds add (List.mem_of_mem_eraseIdx hm)⟩
  | cancel id => exact ⟨hclock, k.reads, k.adds⟩
  | handleEvents => exact ha.elim
  | lock hpc | invoke hpc | rearm hpc | drop hpc =>
    exact ⟨hclock, by simpa [hpc, Pc.reads] using k.reads, k.adds⟩
  | @pop _ _ item hpc =>
    refine ⟨hclock, ?_, k.adds⟩
    have hr := k.reads
    rw [hpc] at hr
    cases ht : w.heap.table item.timer <;> exact hr
  | finish => exact ⟨hclock, trivial, k.adds⟩

theorem queue_step {now : Int} {a : Action} (k : Clocked now w) (hf : Fits w a)
    (h : step w a = some t) : ∀ item ∈ t.heap.queue, item ∈ w.heap.queue ∨ now ≤ item.expire := by
  intro item hm
  cases step_moves h with
  | enter hi =>
    rcases List.mem_cons.mp hm with rfl | hm
    · exact .inr (k.adds _ (List.mem_of_getElem? hi))
    · exact .inl hm
  | pop => exact .inl (List.mem_of_mem_eraseIdx hm)
  | rearm hpc hpos =>
    rcases List.mem_cons.mp hm with rfl | hm
    · rw [rearm_fits hf hpc hpos]
      exact .inr (Int.le_trans k.clock (Int.le_add_of_nonneg_right (Int.le_of_lt hpos)))
    · exact .inl hm
  | _ => exact .inl hm

theorem kept_cancelled {id : Nat} (k : Kept w) (h : w.heap.table id ≠ none) :
    Cancelled id { w with heap := w.heap.cancel id } := by
  refine ⟨by simp [cancel], ?_, fun hm => h (k.issued id hm).2.table⟩
  exact Nat.le_of_not_lt fun hlt => h (k.fresh id hlt).table

def Spent (now : Int) (id : Nat) (w : World) : Prop :=
  Cancelled id w ∨
    w.heap.table id ≠ none ∧ ∀ item ∈ w.heap.queue, item.timer = id → now < item.expire

theorem spent_cancel {now : Int} {id : Nat} (k : Kept w) (s : Spent now id w) (i : Nat) :
    Spent now id { w with heap := w.heap.cancel i } := by
  rcases s with c | ⟨hs, hlate⟩
  · exact .inl (cancel_cancelled c i)
  · by_cases hi : i = id
    · subst hi
      exact .inl (kept_cancelled k hs)
    · exact .inr ⟨by simpa [cancel, Ne.symm hi] using hs, hlate⟩

theorem spent_step {now : Int} {id : Nat} {a : Action} (k : Kept w) (hc : now ≤ w.clock)
    (hf : Fits w a) (s : Spent now id w) (h : step w a = some t) : Spent now id t := by
  rcases s with c | ⟨hs, hlate⟩
  · exact .inl (cancelled_step k c h).1
  have same {v : World} (ht : v.heap.table = w.heap.table)
      (hq : ∀ item ∈ v.heap.queue, item ∈ w.heap.queue) : Spent now id v :=
    .inr ⟨ht ▸ hs, fun item hm => hlate item (hq item hm)⟩
  cases step_moves h with
  | @enter _ i _ _ hi =>
    have hadding : i ∈ w.adding :=
      List.mem_flatMap.mpr ⟨_, List.mem_of_getElem? hi, List.mem_singleton_self i⟩
    have hne : id ≠ i := by
      rintro rfl
      exact hs (k.issued id hadding).2.table
    refine .inr ⟨by simpa [enter, hne] using hs, fun item hm he => ?_⟩
    rcases List.mem_cons.mp hm with rfl | hm
    · exact absurd he.symm hne
    · exact hlate item hm he
  | cancel i => exact spent_cancel k (.inr ⟨hs, hlate⟩) i
  | pop => exact same rfl fun _ hm => List.mem_of_mem_eraseIdx hm
  | @rearm _ timer hpc hpos =>
    refine .inr ⟨hs, fun item hm he => ?_⟩
    rcases List.mem_cons.mp hm with rfl | hm
    · rw [rearm_fits hf hpc hpos]
      change now < w.clock + timer.interval
      omega
    · exact hlate item hm he
  | @drop _ timer =>
    rcases spent_cancel k (.inr ⟨hs, hlate⟩) timer.id with c | hl
    · exact .inl ⟨c.table, c.issued, c.adding⟩
    · exact .inr hl
  | _ => exact same rfl fun _ hm => hm

def Pc.begins (item : Option Timeout) : Pc → List Timeout
  | .claimed _ _ => item.toList
  | .idle | .entered _ | .loop _ | .callback _ _ => []

def Call.begun (c : Call) : List Timeout := c.fired ++ c.world.pc.begins c.item

def Covered (c : Call) (item : Timeout) : Prop :=
  item ∈ c.begun ∨ item.timer ∈ c.cancelled ∨
    item ∈ c.world.heap.queue ∧ c.world.heap.table item.timer ≠ none

structure Firing (w : World) (c : Call) : Prop where
  kept : Kept c.world
  clocked : Clocked w.clock c.world
  item : ∀ now timer, c.world.pc = .claimed now timer →
    ∃ item, c.item = some item ∧ item.timer = timer.id
  invoked : c.world.invoked = (c.fired.map Timeout.timer).reverse ++ w.invoked
  due : ∀ f ∈ c.begun, f.expire ≤ w.clock ∧ ∀ item ∈ c.world.heap.queue, f.expire ≤ item.expire
  ordered : c.begun.Pairwise fun x y => x.expire ≤ y.expire
  once : (c.begun.map Timeout.timer).Nodup
  spent : ∀ f ∈ c.begun, Spent w.clock f.timer c.world
  covered : ∀ item ∈ w.heap.queue, item.expire ≤ w.clock → w.heap.table item.timer ≠ none →
    Covered c item
  drained : c.world.pc = .idle → ∀ item ∈ c.world.heap.queue, w.clock < item.expire

theorem waiting_pos {queue : List Timeout} {item : Timeout} (h : item ∈ queue) :
    0 < waiting queue item.timer :=
  List.countP_pos_iff.mpr ⟨item, h, by simp⟩

theorem begun_step {a : Action} {t : World} (h : step c.world a = some t)
    (ha : ∀ index, a ≠ .pop index) : (c.record t a).begun = c.begun := by
  cases step_moves h with
  | elapse | add | issue | enter | cancel => rfl
  | pop => exact absurd rfl (ha _)
  | handleEvents hpc | lock hpc | invoke hpc | rearm hpc | drop hpc | finish hpc =>
    simp [Call.begun, Call.record, hpc, Pc.begins]

theorem waits_step {a : Action} {item : Timeout} (k : Kept w) (h : step w a = some t)
    (ha : ∀ index, a ≠ .pop index) (hm : item ∈ w.heap.queue)
    (hs : w.heap.table item.timer ≠ none) :
    a = .cancel item.timer ∨ item ∈ t.heap.queue ∧ t.heap.table item.timer ≠ none := by
  cases step_moves h with
  | enter =>
    refine .inr ⟨List.mem_cons_of_mem _ hm, ?_⟩
    simp only [enter]
    split
    · exact Option.some_ne_none _
    · exact hs
  | cancel id =>
    by_cases hi : item.timer = id
    · exact .inl (by rw [hi])
    · exact .inr ⟨hm, by simpa [cancel, hi] using hs⟩
  | pop => exact absurd rfl (ha _)
  | rearm => exact .inr ⟨List.mem_cons_of_mem _ hm, hs⟩
  | @drop _ timer hpc =>
    have hne : item.timer ≠ timer.id := by
      intro he
      have htaken : item.timer ∈ w.pc.taken := by
        rw [hpc]
        exact List.mem_singleton.mpr he
      have hw := k.waits item.timer hs
      rw [if_pos htaken] at hw
      exact absurd hw (Nat.ne_of_gt (waiting_pos hm))
    exact .inr ⟨hm, by simpa [cancel, hne] using hs⟩
  | _ => exact .inr ⟨hm, hs⟩

theorem spent_due {now : Int} {item : Timeout} (s : Spent now item.timer w)
    (hm : item ∈ w.heap.queue) (hd : item.expire ≤ now) : w.heap.table item.timer = none := by
  rcases s with c | ⟨-, hlate⟩
  · exact c.table
  · exact absurd (hlate item hm rfl) (Int.not_lt.mpr hd)

theorem record_world (c : Call) (t : World) (a : Action) : (c.record t a).world = t := by
  cases a <;> rfl

theorem record_cancelled (c : Call) (t : World) (a : Action) {id : Nat} :
    id ∈ (c.record t a).cancelled ↔ id ∈ c.cancelled ∨ a = .cancel id := by
  cases a with
  | cancel i => simp [Call.record, eq_comm]
  | _ => simp [Call.record]

theorem firing_item {a : Action} (f : Firing w c) (ha : Alone c.world a)
    (h : step c.world a = some t) (n : Int) (timer : Entry) (hpc : t.pc = .claimed n timer) :
    ∃ item, (c.record t a).item = some item ∧ item.timer = timer.id := by
  cases step_moves h with
  | elapse | add | issue | enter | cancel => exact f.item n timer hpc
  | handleEvents => exact ha.elim
  | @pop _ _ item _ hi =>
    refine ⟨item, hi, ?_⟩
    cases ht : c.world.heap.table item.timer with
    | none => simp [ht, Pc.afterPop] at hpc
    | some entry =>
      simp only [ht, Pc.afterPop, Pc.claimed.injEq] at hpc
      rw [← hpc.2, f.kept.table _ _ ht]
  | lock | invoke | rearm | drop | finish => cases hpc

theorem firing_invoked {a : Action} (f : Firing w c) (h : step c.world a = some t) :
    t.invoked = ((c.record t a).fired.map Timeout.timer).reverse ++ w.invoked := by
  cases step_moves h with
  | invoke hpc =>
    obtain ⟨item, hi, he⟩ := f.item _ _ hpc
    simp [Call.record, hi, he, f.invoked]
  | _ => exact f.invoked

-- An idle loop thread takes no step of the call, so the step before was its last.
theorem firing_drained {now : Int} {a : Action} (k : Clocked now w) (ha : Alone w a)
    (h : step w a = some t) (hpc : t.pc = .idle) : ∀ item ∈ t.heap.queue, now < item.expire := by
  have hbusy (hc : w.pc.inCallback = true) : w.pc ≠ .idle := by
    intro hi
    rw [hi] at hc
    cases hc
  cases step_moves h with
  | elapse => exact absurd hpc ha
  | add | cancel => exact absurd hpc (hbusy ha.1)
  | issue | enter => exact absurd hpc (hbusy ha)
  | handleEvents => exact ha.elim
  | @pop _ _ item =>
    cases ht : w.heap.table item.timer <;> rw [ht] at hpc <;> cases hpc
  | lock | invoke | rearm | drop => cases hpc
  | finish hl hlate =>
    have hr := k.reads
    rw [hl] at hr
    exact hr ▸ hlate

theorem popped_or_kept {queue : List Timeout} {index : Nat} {item other : Timeout}
    (h : queue[index]? = some item) (hm : other ∈ queue) :
    other = item ∨ other ∈ queue.eraseIdx index := by
  by_cases he : other = item
  · exact .inl he
  · have hk : other ∈ Pool.replace queue index none := Pool.mem_replace_of_ne h hm he
    exact .inr hk

theorem firing_same {a : Action} (f : Firing w c) (ha : Alone c.world a) (hf : Fits c.world a)
    (h : step c.world a = some t) (hb : (c.record t a).begun = c.begun)
    (hw : ∀ item ∈ c.world.heap.queue, c.world.heap.table item.timer ≠ none →
      a = .cancel item.timer ∨ item ∈ t.heap.queue ∧ t.heap.table item.timer ≠ none) :
    Firing w (c.record t a) := by
  have hr := record_world c t a
  have hkept := kept_step f.kept h
  have hclocked := clocked_step f.clocked ha hf h
  have hdue : ∀ g ∈ c.begun, g.expire ≤ w.clock ∧ ∀ item ∈ t.heap.queue, g.expire ≤ item.expire := by
    intro g hg
    refine ⟨(f.due g hg).1, fun item hm => ?_⟩
    rcases queue_step f.clocked hf h item hm with hm | hlate
    · exact (f.due g hg).2 item hm
    · exact Int.le_trans (f.due g hg).1 hlate
  have hspent (g : Timeout) (hg : g ∈ c.begun) : Spent w.clock g.timer t :=
    spent_step f.kept f.clocked.clock hf (f.spent g hg) h
  refine ⟨by rwa [hr], by rwa [hr], ?_, ?_, by rwa [hr, hb], hb ▸ f.ordered, hb ▸ f.once,
    by rwa [hr, hb], fun item hm hd hs => ?_, ?_⟩
  · rw [hr]
    exact firing_item f ha h
  · rw [hr]
    exact firing_invoked f h
  · simp only [Covered, hr, record_cancelled, hb]
    rcases f.covered item hm hd hs with hg | hc | ⟨hm, hs⟩
    · exact .inl hg
    · exact .inr (.inl (.inl hc))
    · exact .inr ((hw item hm hs).imp_left .inr)
  · rw [hr]
    exact firing_drained f.clocked ha h

-- The callbacks begun had no further due entry, so the one that is popped is not among them.
theorem begun_apart (f : Firing w c) {item : Timeout} (hm : item ∈ c.world.heap.queue)
    (hdue : item.expire ≤ w.clock) (hs : c.world.heap.table item.timer ≠ none) (g : Timeout)
    (hg : g ∈ c.begun) : g.timer ≠ item.timer := by
  intro he
  have hsp := f.spent g hg
  rw [he] at hsp
  exact hs (spent_due hsp hm hdue)

theorem popped_alone {index : Nat} {item : Timeout} (k : Kept w)
    (h : step w (.pop index) = some t) (hi : w.heap.queue[index]? = some item)
    (hs : w.heap.table item.timer ≠ none) : ∀ other ∈ t.heap.queue, other.timer ≠ item.timer := by
  have hkept := kept_step k h
  obtain ⟨n, top, -, hi', -, -, rfl⟩ := step_pop h
  cases hi.symm.trans hi'
  intro other hm he
  have hw := hkept.waits item.timer hs
  have htaken : item.timer ∈ (Pc.afterPop n (w.heap.table item.timer)).taken := by
    rw [taken_after_pop k, if_neg hs]
    exact List.mem_singleton_self _
  rw [if_pos htaken, ← he] at hw
  exact absurd hw (Nat.ne_of_gt (waiting_pos hm))

theorem firing_claim {index : Nat} {item : Timeout} (f : Firing w c)
    (h : step c.world (.pop index) = some t) (hi : c.world.heap.queue[index]? = some item)
    (hs : c.world.heap.table item.timer ≠ none) : Firing w (c.record t (.pop index)) := by
  have ha : Alone c.world (.pop index) := trivial
  have hf : Fits c.world (.pop index) := trivial
  have hkept := kept_step f.kept h
  have hnone := popped_alone f.kept h hi hs
  obtain ⟨n, top, hpc, hi', hdue, htop, ht⟩ := step_pop h
  cases hi.symm.trans hi'
  obtain ⟨timer, hs'⟩ := Option.ne_none_iff_exists'.mp hs
  have hb : c.begun = c.fired := by simp [Call.begun, hpc, Pc.begins]
  have hb' : (c.record t (.pop index)).begun = c.begun ++ [item] := by
    simp [Call.begun, Call.record, ht, hs', hpc, Pc.afterPop, Pc.begins, hi]
  have hr := f.clocked.reads
  rw [hpc] at hr
  cases hr
  have hmem {g : Timeout} (hg : g ∈ c.begun ++ [item]) : g ∈ c.begun ∨ g = item := by
    simpa using hg
  have hkeep (other : Timeout) (hm : other ∈ t.heap.queue) : other ∈ c.world.heap.queue := by
    rw [ht] at hm
    exact List.mem_of_mem_eraseIdx hm
  refine ⟨hkept, clocked_step f.clocked ha hf h, firing_item f ha h, firing_invoked f h,
    ?_, ?_, ?_, ?_, ?_, firing_drained f.clocked ha h⟩
  · rw [hb']
    intro g hg
    rcases hmem hg with hg | rfl
    · exact ⟨(f.due g hg).1, fun other hm => (f.due g hg).2 other (hkeep other hm)⟩
    · exact ⟨hdue, fun other hm => htop.2 other (hkeep other hm)⟩
  · rw [hb']
    refine List.pairwise_append.mpr ⟨f.ordered, List.pairwise_singleton _ _, fun g hg x hx => ?_⟩
    cases List.mem_singleton.mp hx
    exact (f.due g hg).2 item htop.1
  · rw [hb', List.map_append]
    refine List.perm_append_comm.nodup_iff.mpr (List.nodup_cons.mpr ⟨fun hm => ?_, f.once⟩)
    obtain ⟨g, hg, he⟩ := List.mem_map.mp hm
    exact begun_apart f htop.1 hdue hs g hg he
  · rw [hb']
    intro g hg
    rcases hmem hg with hg | rfl
    · exact spent_step f.kept f.clocked.clock hf (f.spent g hg) h
    · exact .inr ⟨by rwa [record_world, ht], fun other hm he => absurd he (hnone other hm)⟩
  · intro other hm hd hl
    rw [Covered, hb']
    rcases f.covered other hm hd hl with hg | hc | ⟨hm, hl⟩
    · exact .inl (List.mem_append_left _ hg)
    · exact .inr (.inl hc)
    · rcases popped_or_kept hi hm with rfl | hm
      · exact .inl (by simp)
      · exact .inr (.inr ⟨by rwa [record_world, ht], by rwa [record_world, ht]⟩)

theorem firing_step {a : Action} (f : Firing w c) (hf : Fits c.world a) (h : c.step a = some d) :
    Firing w d := by
  obtain ⟨t, ha, ht, rfl⟩ := call_step h
  by_cases hp : ∃ index, a = .pop index
  · obtain ⟨index, rfl⟩ := hp
    obtain ⟨n, item, hpc, hi, -, -, rfl⟩ := step_pop ht
    by_cases hs : c.world.heap.table item.timer = none
    · refine firing_same f ha hf ht ?_ fun other hm hl => .inr ⟨?_, hl⟩
      · simp [Call.begun, Call.record, hs, hpc, Pc.afterPop, Pc.begins]
      · rcases popped_or_kept hi hm with rfl | hm
        · exact absurd hs hl
        · exact hm
    · exact firing_claim f ht hi hs
  · have hp (index : Nat) : a ≠ .pop index := fun he => hp ⟨index, he⟩
    exact firing_same f ha hf ht (begun_step ht hp) fun item hm hl => waits_step f.kept ht hp hm hl

theorem firing_enter (k : Kept w) (ha : w.adds = []) (h : step w .handleEvents = some u) :
    Firing w (.enter u) := by
  have hkept := kept_step k h
  cases step_moves h
  refine ⟨hkept, ⟨Int.le_refl _, rfl, ?_⟩, fun _ _ h => (by cases h), rfl, ?_, .nil, List.nodup_nil,
    ?_, fun item hm hd hs => .inr (.inr ⟨hm, hs⟩), fun h => by cases h⟩
  · intro add hm
    change add ∈ w.adds at hm
    rw [ha] at hm
    cases hm
  · intro g hg
    cases hg
  · intro g hg
    cases hg

theorem process_fires_due (clock : Int) (as bs : List Action)
    (hw : system.run (.init clock) as = some w) (ha : w.adds = [])
    (hu : step w .handleEvents = some u) (hf : calls.Along (fun c a => Fits c.world a) (.enter u) bs)
    (hc : calls.run (.enter u) bs = some c) (hr : c.world.pc = .idle) : FiresDue w c := by
  have k : Kept w := Transition.System.run_invariant (M := system) (G := fun _ _ => True)
    (fun _ _ _ k _ h => kept_step k h) (kept_init clock) Transition.System.along_true hw
  have f : Firing w c := Transition.System.run_invariant (M := calls)
    (fun _ _ _ f hf h => firing_step f hf h) (firing_enter k ha hu) hf hc
  have hb : c.begun = c.fired := by simp [Call.begun, hr, Pc.begins]
  have hdrained := f.drained hr
  refine ⟨f.invoked, fun g hg => (f.due g (hb ▸ hg)).1, hb ▸ f.ordered, hb ▸ f.once,
    fun item hm hd hs => ?_, hdrained⟩
  rcases f.covered item hm hd hs with hg | hx | ⟨hm, -⟩
  · exact .inl (hb ▸ hg)
  · exact .inr hx
  · exact absurd (hdrained item hm) (Int.not_lt.mpr hd)

def threeAdded : List Action :=
  [.add 30 0, .advance 0, .advance 0, .add 10 40, .advance 0, .advance 0, .add 20 0, .advance 0,
    .advance 0, .elapse 50]

-- The callback of timer 2 cancels timer 3 and adds timer 4, due at once.
def processed : List Action :=
  [.lock, .pop 1, .invoke, .cancel 3, .add 0 0, .advance 0, .advance 0, .resume, .pop 2, .pop 2,
    .invoke, .resume, .pop 1, .invoke, .elapse 5, .resume, .finish]

theorem process_fires_due_three : ∃ w c, w.heap.queue.length = 3 ∧
    c.fired = [⟨110, 2⟩, ⟨130, 1⟩, ⟨150, 4⟩] ∧ FiresDue w c := by
  refine ⟨_, _, ?_, ?_, process_fires_due 100 threeAdded processed rfl rfl rfl (by decide) rfl rfl⟩
  · rfl
  · rfl

-- An interval whose sum with the clock wraps: the timer is due again at once.
theorem process_fires_twice :
    ¬ ∀ (clock : Int) (as bs : List Action) (w u : World) (c : Call),
      system.run (.init clock) as = some w → w.adds = [] → step w .handleEvents = some u →
      calls.run (.enter u) bs = some c → c.world.pc = .idle → FiresDue w c := by
  intro h
  have hd := h 100 [.add 10 int64Max, .advance 0, .advance 0, .elapse 50]
    [.lock, .pop 0, .invoke, .resume, .pop 0, .invoke, .cancel 1, .resume, .pop 0, .finish]
    _ _ _ rfl rfl rfl rfl rfl
  have ho := hd.once
  revert ho
  decide

end Concurrent
end TimerHeapQueue
end Pedronet
