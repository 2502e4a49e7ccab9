import Pedronet.TimerService
import Pedronet.Transition.Trace
import Pedronet.TimerHashWheel.Complete
import Pedronet.TimerHashWheel.Waiting

namespace Pedronet
namespace TimerHashWheel
variable {o : Options} {w t : World}

-- A bucket gives out what is of the round of `now` or of one before, at whatever slot `now` is.
def policy (o : Options) : TimerService.Policy where
  ripe due now := decide (getRounds o due ≤ getRounds o now)
  sooner due later time hle h := by
    simp only [decide_eq_true_eq] at h ⊢
    exact Nat.le_trans (Nat.div_le_div_right (ticks_mono hle)) h

def shows (w : World) : Action → List TimerService.Action
  | .elapse usecs => [.elapse usecs]
  | .advance index =>
    match w.adds[index]? with
    | some (.computed id expire interval) => [.add id expire interval]
    | _ => []
  | .cancel id => [.cancel id]
  | .claim =>
    match w.pc with
    | .entries now (id :: _) _ => if (w.wheel.table id).isSome then [.take id now] else []
    | _ => []
  | _ => []

def Fired.taken (f : Fired) : TimerService.Taken := ⟨f.id, f.expire, f.now⟩

def Pc.taking : Pc → List Fired
  | .claimed now timer due _ _ | .invoke now timer due _ _ => [⟨timer.id, due, now⟩]
  | .idle | .scan _ _ | .entries _ _ _ | .callback _ _ _ => []

def World.taken (w : World) : List Fired := w.pc.taking ++ w.fired

def World.timer (w : World) (id : Nat) (entry : Entry) : Option TimerService.Timer :=
  match w.pc with
  | .claimed now timer _ _ _ =>
    if timer.id = id then TimerService.again now entry.interval
    else some ⟨w.pending id, entry.interval⟩
  | _ => some ⟨w.pending id, entry.interval⟩

def World.timers (w : World) (id : Nat) : Option TimerService.Timer :=
  (w.wheel.table id).bind (w.timer id)

structure Serves (w : World) (s : TimerService) : Prop where
  clock : s.clock = w.clock
  last : s.last ≤ w.base
  read : w.base ≤ w.clock
  timers : s.timers = w.timers
  taken : s.taken = w.taken.map Fired.taken
  issued : ∀ id ∈ s.issued, id ≤ w.wheel.counter ∧ id ∉ w.entering
  interval : ∀ now timer due ids todo, w.pc = .claimed now timer due ids todo →
    ∀ entry, w.wheel.table timer.id = some entry → entry.interval = timer.interval

theorem serves_init (clock : Int) : Serves (World.init clock) (.create clock) where
  clock := rfl
  last := Int.le_refl _
  read := Int.le_refl _
  timers := rfl
  taken := rfl
  issued _ h := by cases h
  interval _ _ _ _ _ h := by cases h

def Pc.claims : Pc → Bool
  | .claimed _ _ _ _ _ => true
  | .idle | .scan _ _ | .entries _ _ _ | .invoke _ _ _ _ _ | .callback _ _ _ => false

theorem timer_waits {id : Nat} {entry : Entry} (h : w.pc.claims = false) :
    w.timer id entry = some ⟨w.pending id, entry.interval⟩ := by
  unfold World.timer
  cases hpc : w.pc with
  | claimed => rw [hpc] at h; cases h
  | _ => rfl

variable {s : TimerService}

theorem serves_quiet (v : Serves w s) (hc : t.clock = w.clock) (hb : w.base ≤ t.base)
    (hr : t.base ≤ t.clock) (ht : t.timers = w.timers) (hk : t.taken = w.taken)
    (hn : t.wheel.counter = w.wheel.counter) (ha : t.adds = w.adds)
    (hi : t.pc.claims = false) : Serves t s := by
  refine ⟨v.clock.trans hc.symm, Int.le_trans v.last hb, hr, v.timers.trans ht.symm, ?_, ?_, ?_⟩
  · rw [hk]
    exact v.taken
  · rw [hn, World.entering, ha]
    exact v.issued
  · intro now timer due ids todo hpc
    rw [hpc] at hi
    cases hi

theorem timers_moved (hw : w.pc.claims = false) (ht : t.pc.claims = false)
    (htable : t.wheel.table = w.wheel.table) (hp : t.pending = w.pending) : t.timers = w.timers := by
  funext id
  rw [World.timers, World.timers, htable]
  cases w.wheel.table id with
  | none => rfl
  | some entry => rw [Option.bind_some, Option.bind_some, timer_waits hw, timer_waits ht, hp]

theorem serves_moved (v : Serves w s) {pc : Pc} (hpc : w.pc = pc) (buckets : Nat → Bucket)
    (pc' : Pc) (hw : pc.claims = false) (hp : pc'.claims = false)
    (hb : pc'.base w.wheel.last = pc.base w.wheel.last) (hk : pc'.taking = pc.taking) :
    Serves { w with wheel := { w.wheel with buckets := buckets }, pc := pc' } s := by
  have hbase : w.base = pc.base w.wheel.last := by rw [World.base, hpc]
  refine serves_quiet v rfl (Int.le_of_eq (hbase.trans hb.symm)) ?_
    (timers_moved (hpc ▸ hw) hp rfl rfl) ?_ rfl rfl hp
  · exact Int.le_trans (Int.le_of_eq (hb.trans hbase.symm)) v.read
  · simp only [World.taken, hk, hpc]

theorem entering_sublist (w : World) : w.entering.Sublist (w.adds.flatMap AddPc.waiting) := by
  rw [World.entering]
  induction w.adds with
  | nil => exact .refl _
  | cons add adds ih =>
    refine List.Sublist.append ?_ ih
    cases add with
    | computed id expire interval => exact .refl _
    | entered id expire => exact List.nil_sublist _
    | inserted expire => exact .refl _

theorem timers_update {id : Nat} {timer : Option TimerService.Timer}
    {timers : Nat → Option TimerService.Timer} (hw : timers = w.timers) (hid : t.timers id = timer)
    (ho : ∀ i, i ≠ id → t.timers i = w.timers i) : Function.update timers id timer = t.timers := by
  subst hw
  funext i
  by_cases hi : i = id
  · subst hi
    rw [Function.update_self, hid]
  · rw [Function.update_of_ne hi, ho i hi]

theorem serves_advance (p : Placed o w) (v : Serves w s) {index : Nat} {add : AddPc}
    (h : w.adds[index]? = some add) :
    ∃ u, (TimerService.system (policy o)).run s (shows w (.advance index)) = some u ∧
      Serves (w.advance o index add) u := by
  have hadd := List.mem_of_getElem? h
  cases add with
  | computed id expire interval =>
    have hperm := Pool.flat_map_set (b := .entered id expire) AddPc.entering h
    simp only [AddPc.entering, List.nil_append] at hperm
    have hnd := hperm.symm.nodup_iff.mp
      (((List.nodup_append.mp p.waiting_nodup).1).sublist (entering_sublist w))
    have hin : id ∈ w.entering := hperm.subset (List.mem_append_right _ (List.mem_singleton_self _))
    have hnot : id ∉ s.issued := fun hm => (v.issued id hm).2 hin
    have hclaim (now : Int) (timer : Entry) (due : Int) (ids todo : List Nat)
        (hpc : w.pc = .claimed now timer due ids todo) : timer.id ≠ id := by
      rintro rfl
      refine (List.nodup_append.mp p.waiting_nodup).2.2 timer.id ?_ timer.id ?_ rfl
      · exact List.mem_flatMap.mpr ⟨_, hadd, List.mem_singleton_self _⟩
      · simp [hpc, Pc.waiting]
    have hpend : w.pending id = expire := p.adds _ hadd
    refine ⟨s.added id expire interval, ?_, v.clock, v.last, v.read, ?_, v.taken, ?_, ?_⟩
    · simp only [shows, h]
      exact TimerService.run_add hnot expire interval
    · refine timers_update v.timers ?_ fun i hi => ?_
      · simp only [World.timers, World.advance, setEntry, if_true, Option.bind_some]
        rw [World.timer]
        split
        · rename_i now timer due ids todo hpc
          rw [if_neg (hclaim now timer due ids todo hpc)]
          simp only [hpend]
        · simp only [hpend]
      · simp only [World.timers, World.advance, setEntry, if_neg hi]
        rfl
    · intro i hi
      have hdisj := (List.nodup_append.mp hnd).2.2
      rcases List.mem_cons.mp hi with rfl | hi
      · refine ⟨?_, fun hm => hdisj i hm i (List.mem_singleton_self _) rfl⟩
        exact Nat.le_of_not_lt fun hlt => (p.fresh i hlt).1 (mem_waiting_add hadd (by simp [AddPc.waiting]))
      · obtain ⟨hle, hne⟩ := v.issued i hi
        exact ⟨hle, fun hm => hne (hperm.subset (List.mem_append_left _ hm))⟩
    · intro now timer due ids todo hpc entry he
      have hne := hclaim now timer due ids todo hpc
      simp only [World.advance, setEntry, if_neg hne] at he
      exact v.interval now timer due ids todo hpc entry he
  | entered id expire =>
    have hperm := Pool.flat_map_set (b := .inserted expire) AddPc.entering h
    refine ⟨s, by simp only [shows, h, Transition.System.run], v.clock, v.last, v.read, v.timers,
      v.taken, fun i hi => ?_, v.interval⟩
    obtain ⟨hle, hne⟩ := v.issued i hi
    exact ⟨hle, fun hm => hne (hperm.subset (List.mem_append_left _ hm))⟩
  | inserted expire =>
    refine ⟨s, by simp only [shows, h, Transition.System.run], v.clock, v.last, v.read, v.timers,
      v.taken, fun i hi => ?_, v.interval⟩
    obtain ⟨hle, hne⟩ := v.issued i hi
    exact ⟨hle, fun hm => hne ((Pool.flat_map_erase AddPc.entering h).subset hm)⟩

theorem serves_cancel (v : Serves w s) (id : Nat) :
    Serves { w with wheel := w.wheel.cancel id } (s.cancelled id) where
  clock := v.clock
  last := v.last
  read := v.read
  timers := by
    refine timers_update v.timers ?_ fun i hi => ?_
    · simp [World.timers, TimerHashWheel.cancel]
    · simp only [World.timers, TimerHashWheel.cancel, if_neg hi]
      rfl
  taken := v.taken
  issued := v.issued
  interval now timer due ids todo hpc entry he :=
    v.interval now timer due ids todo hpc entry (cancel_some he)

theorem serves_claimed (p : Placed o w) (v : Serves w s) {now : Int} {id : Nat}
    {ids todo : List Nat} {timer : Entry} (hpc : w.pc = .entries now (id :: ids) todo)
    (ht : w.wheel.table id = some timer) :
    ∃ u, (TimerService.system (policy o)).run s (shows w .claim) = some u ∧
      Serves { w with pc := .claimed now timer (w.pending id) ids todo } u := by
  have hid := (p.table id timer ht).1
  have hbase : w.base = now := by rw [World.base, hpc]; rfl
  have hread := hbase ▸ v.read
  have hw : w.pc.claims = false := by rw [hpc]; rfl
  have hlive : s.timers id = some ⟨w.pending id, timer.interval⟩ := by
    rw [v.timers, World.timers, ht, Option.bind_some, timer_waits hw]
  have hripe : (policy o).ripe (w.pending id) now = true :=
    decide_eq_true (taken_at p hpc id List.mem_cons_self).2
  refine ⟨s.took id ⟨w.pending id, timer.interval⟩ now, ?_, v.clock, Int.le_refl _, hread, ?_, ?_,
    v.issued, ?_⟩
  · simp only [shows, hpc, ht, Option.isSome_some, if_true]
    exact TimerService.run_take hlive (hbase ▸ v.last) (v.clock.symm ▸ hread) hripe
  · refine timers_update v.timers ?_ fun i hi => ?_
    · simp only [World.timers, ht, Option.bind_some, World.timer, if_pos hid]
    · simp only [World.timers]
      cases hi' : w.wheel.table i with
      | none => rfl
      | some entry =>
        rw [Option.bind_some, Option.bind_some, timer_waits hw]
        simp only [World.timer, hid, if_neg (Ne.symm hi)]
  · simp only [TimerService.took, v.taken, World.taken, Pc.taking, hpc, List.nil_append,
      List.cons_append, List.map_cons, hid]
    rfl
  · intro now' timer' due ids' todo' hpc' entry he
    cases hpc'
    rw [hid, ht] at he
    cases he
    rfl

theorem serves_dropped (v : Serves w s) {now due : Int} {timer : Entry} {ids todo : List Nat}
    (hpc : w.pc = .claimed now timer due ids todo) (hi : timer.interval ≤ 0) :
    Serves { w with wheel := w.wheel.cancel timer.id, pc := .invoke now timer due ids todo } s := by
  have hbase : w.base = now := by rw [World.base, hpc]; rfl
  refine serves_quiet v rfl (Int.le_of_eq hbase) (hbase ▸ v.read) ?_ ?_ rfl rfl rfl
  · funext i
    by_cases hid : i = timer.id
    · subst hid
      simp only [World.timers, TimerHashWheel.cancel, if_true, Option.bind_none]
      cases he : w.wheel.table timer.id with
      | none => rfl
      | some entry =>
        have := v.interval now timer due ids todo hpc entry he
        rw [Option.bind_some, World.timer, hpc]
        simp only [if_true, TimerService.again, this, if_neg (Int.not_lt.mpr hi)]
    · simp only [World.timers, TimerHashWheel.cancel, if_neg hid]
      cases w.wheel.table i with
      | none => rfl
      | some entry => simp only [Option.bind_some, World.timer, hpc, if_neg (Ne.symm hid)]
  · simp only [World.taken, Pc.taking, hpc]

theorem serves_rearmed (v : Serves w s) {now due : Int} {timer : Entry} {ids todo : List Nat}
    (hpc : w.pc = .claimed now timer due ids todo) (hi : 0 < timer.interval) :
    Serves { w.rearm o (now + timer.interval) timer with pc := .invoke now timer due ids todo }
      s := by
  have hbase : w.base = now := by rw [World.base, hpc]; rfl
  refine serves_quiet v rfl (Int.le_of_eq hbase) (hbase ▸ v.read) ?_ ?_ rfl rfl rfl
  · funext i
    simp only [World.timers, World.rearm, TimerHashWheel.insert, setRounds]
    by_cases hid : i = timer.id
    · subst hid
      simp only [if_true]
      cases he : w.wheel.table timer.id with
      | none => rfl
      | some entry =>
        have := v.interval now timer due ids todo hpc entry he
        simp only [Option.map_some, Option.bind_some, World.timer, hpc, if_true,
          TimerService.again, this, if_pos hi]
    · simp only [if_neg hid]
      cases w.wheel.table i with
      | none => rfl
      | some entry => simp only [Option.bind_some, World.timer, hpc, if_neg hid, if_neg (Ne.symm hid)]
  · simp only [World.taken, Pc.taking, hpc, World.rearm]

theorem serves_table (v : Serves w s) {id : Nat} (h : s.timers id ≠ none) :
    w.wheel.table id ≠ none := by
  rw [v.timers, World.timers] at h
  intro ht
  rw [ht] at h
  exact h rfl

theorem serves_live (v : Serves w s) {id : Nat} (h : w.wheel.table id ≠ none) :
    s.timers id ≠ none ∨ id ∈ w.pc.waiting := by
  obtain ⟨entry, he⟩ := Option.ne_none_iff_exists'.mp h
  rw [v.timers, World.timers, he, Option.bind_some, World.timer]
  split
  · rename_i now timer due ids todo hpc
    by_cases hid : timer.id = id
    · exact .inr (by simp [hpc, Pc.waiting, hid])
    · rw [if_neg hid]
      exact .inl (Option.some_ne_none _)
  · exact .inl (Option.some_ne_none _)

theorem serves_taken (v : Serves w s) :
    s.taken.map TimerService.Taken.id = w.pc.claim ++ w.fired.map Fired.id := by
  rw [v.taken, List.map_map, World.taken, List.map_append]
  congr 1
  cases w.pc <;> rfl

theorem serves_step {a : Action} (p : Placed o w) (v : Serves w s) (h : step o w a = some t) :
    ∃ u, (TimerService.system (policy o)).run s (shows w a) = some u ∧ Serves t u := by
  cases step_moves h with
  | elapse usecs =>
    have hr := v.read
    refine ⟨{ s with clock := s.clock + usecs }, rfl, congrArg (· + (usecs : Int)) v.clock, v.last, ?_,
      v.timers, v.taken, v.issued, v.interval⟩
    exact Int.le_trans hr (by simp only; omega)
  | add delay interval =>
    have hnone := (p.fresh (w.wheel.counter + 1) (Nat.lt_succ_self _)).2.2
    refine ⟨s, rfl, v.clock, v.last, v.read, ?_, v.taken, fun id hid => ?_, v.interval⟩
    · rw [v.timers]
      funext id
      by_cases hid : id = w.wheel.counter + 1
      · subst hid
        simp only [World.timers, World.add, hnone, Option.bind_none]
      · cases ht : w.wheel.table id with
        | none => simp only [World.timers, World.add, ht, Option.bind_none]
        | some entry =>
          simp only [World.timers, World.add, ht, Option.bind_some, World.timer, if_neg hid]
    · obtain ⟨hle, hne⟩ := v.issued id hid
      refine ⟨Nat.le_succ_of_le hle, fun hm => ?_⟩
      rcases List.mem_cons.mp hm with rfl | hm
      · exact Nat.not_succ_le_self _ hle
      · exact hne hm
  | advance hi => exact serves_advance p v hi
  | cancel id => exact ⟨s.cancelled id, rfl, serves_cancel v id⟩
  | process hpc =>
    have hbase : w.base = w.wheel.last := by rw [World.base, hpc]; rfl
    refine ⟨s, rfl, serves_quiet v rfl v.read (Int.le_refl _) ?_ ?_ rfl rfl rfl⟩
    · exact timers_moved (by rw [hpc]; rfl) rfl rfl rfl
    · simp only [World.taken, Pc.taking, hpc]
  | taken hpc hpop => exact ⟨s, rfl, serves_moved v hpc _ (.entries _ _ _) rfl rfl rfl rfl⟩
  | passed hpc hpop =>
    exact ⟨s, rfl, serves_moved v hpc w.wheel.buckets (.scan _ _) rfl rfl rfl rfl⟩
  | claimed hpc ht => exact serves_claimed p v hpc ht
  | gone hpc ht =>
    refine ⟨s, ?_, serves_moved v hpc w.wheel.buckets (.entries _ _ _) rfl rfl rfl rfl⟩
    simp [shows, hpc, ht, Transition.System.run]
  | emptied hpc =>
    refine ⟨s, ?_, serves_moved v hpc w.wheel.buckets (.scan _ _) rfl rfl rfl rfl⟩
    simp only [shows, hpc, Transition.System.run]
  | dropped hpc hi => exact ⟨s, rfl, serves_dropped v hpc hi⟩
  | rearmed hpc hi => exact ⟨s, rfl, serves_rearmed v hpc hi⟩
  | @invoke now due timer ids todo hpc =>
    have hbase : w.base = now := by rw [World.base, hpc]; rfl
    refine ⟨s, rfl, serves_quiet v rfl (Int.le_of_eq hbase) (hbase ▸ v.read) ?_ ?_ rfl rfl rfl⟩
    · exact timers_moved (by rw [hpc]; rfl) rfl rfl rfl
    · simp only [World.taken, Pc.taking, hpc, List.nil_append, List.singleton_append]
  | resume hpc =>
    exact ⟨s, rfl, serves_moved v hpc w.wheel.buckets (.entries _ _ _) rfl rfl rfl rfl⟩
  | @finish now hpc =>
    have hbase : w.base = now := by rw [World.base, hpc]; rfl
    refine ⟨s, rfl, serves_quiet v rfl (Int.le_of_eq hbase) (hbase ▸ v.read) ?_ ?_ rfl rfl rfl⟩
    · exact timers_moved (by rw [hpc]; rfl) rfl rfl rfl
    · simp only [World.taken, Pc.taking, hpc]

end TimerHashWheel
end Pedronet
