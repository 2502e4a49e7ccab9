import Pedronet.TimerService
import Pedronet.Transition.Trace
import Pedronet.TimerHeapQueue.Paced

namespace Pedronet
namespace TimerHeapQueue
namespace Concurrent
variable {w t : World}

def policy : TimerService.Policy where
  ripe due now := decide (due ≤ now)
  sooner due later time hle h := by
    simp only [decide_eq_true_eq] at h ⊢
    exact Int.le_trans hle h

def shows (w : World) : Action → List TimerService.Action
  | .elapse usecs => [.elapse usecs]
  | .advance index =>
    match w.adds[index]? with
    | some (.issued id expired interval) => [.add id expired interval]
    | _ => []
  | .cancel id => [.cancel id]
  | .pop index =>
    match w.pc, w.heap.queue[index]? with
    | .loop now, some item =>
      if (w.heap.table item.timer).isSome then [.take item.timer now] else []
    | _, _ => []
  | _ => []

def World.live (w : World) (id : Nat) : Option Int :=
  (w.heap.table id).bind fun timer =>
    if id ∈ w.pc.taken ∧ timer.interval ≤ 0 then none else some timer.interval

structure Serves (w : World) (s : TimerService) : Prop where
  clock : s.clock = w.clock
  last : s.last ≤ w.clock
  read : ∀ now ∈ w.pc.now, s.last ≤ now ∧ now ≤ w.clock
  timers : ∀ id, (s.timers id).map TimerService.Timer.interval = w.live id
  due : ∀ id timer, s.timers id = some timer → ∀ item ∈ w.heap.queue, item.timer = id →
    timer.due ≤ item.expire
  running : ∀ entry ∈ w.pc.timer, ∀ timer, s.timers entry.id = some timer →
    timer.due ≤ w.clock + entry.interval
  same : ∀ entry ∈ w.pc.timer, ∀ other, w.heap.table entry.id = some other → other = entry
  taken : s.taken.map TimerService.Taken.id = w.pc.claim ++ w.invoked
  issued : ∀ id ∈ s.issued, id ≤ w.heap.counter ∧ id ∉ w.adding

theorem serves_init (clock : Int) : Serves (World.init clock) (.create clock) where
  clock := rfl
  last := Int.le_refl _
  read _ h := by cases h
  timers _ := rfl
  due _ _ h := by cases h
  running _ h := by cases h
  same _ h := by cases h
  taken := rfl
  issued _ h := by cases h

theorem step_resume (h : step w .resume = some t) :
    ∃ now timer, w.pc = .callback now timer ∧
      t = { w with heap := finish w.heap w.clock timer, pc := .loop now } := by
  simp only [step] at h
  split at h
  · rename_i now timer hpc
    cases h
    exact ⟨now, timer, hpc, rfl⟩
  · cases h

variable {s : TimerService}

theorem serves_quiet (v : Serves w s) {pc : Pc} (hr : ∀ now ∈ pc.now, now ∈ w.pc.now ∨ now = w.clock)
    {invoked : List Nat} (hc : pc.claim ++ invoked = w.pc.claim ++ w.invoked)
    (ht : pc.taken = w.pc.taken) (hp : pc.timer = w.pc.timer) (channel : TimerChannel) :
    Serves { w with channel := channel, pc := pc, invoked := invoked } s where
  clock := v.clock
  last := v.last
  read now hm := by
    rcases hr now hm with hm | rfl
    · exact v.read now hm
    · exact ⟨v.last, Int.le_refl _⟩
  timers id := by
    rw [v.timers id, World.live, World.live, ht]
  due := v.due
  running entry hm := v.running entry (hp ▸ hm)
  same entry hm := v.same entry (hp ▸ hm)
  taken := v.taken.trans hc.symm
  issued := v.issued

theorem serves_table (v : Serves w s) {id : Nat} (h : s.timers id ≠ none) :
    w.heap.table id ≠ none := by
  intro ht
  have hl := v.timers id
  rw [World.live, ht, Option.bind_none, Option.map_eq_none_iff] at hl
  exact h hl

theorem serves_live (v : Serves w s) {id : Nat} (h : w.heap.table id ≠ none) :
    s.timers id ≠ none ∨ id ∈ w.pc.taken := by
  obtain ⟨entry, he⟩ := Option.ne_none_iff_exists'.mp h
  by_cases ht : id ∈ w.pc.taken
  · exact .inr ht
  · refine .inl fun hn => ?_
    have hl := v.timers id
    rw [hn, World.live, he, Option.bind_some, if_neg fun hand => ht hand.1] at hl
    cases hl

theorem serves_adds (v : Serves w s) {adds : List AddPc} {counter : Nat}
    (hc : w.heap.counter ≤ counter)
    (ha : ∀ id, id ≤ w.heap.counter → id ∈ adds.flatMap AddPc.adding → id ∈ w.adding) :
    Serves { w with heap := { w.heap with counter := counter }, adds := adds } s :=
  { v with
    issued := fun id hid =>
      have ⟨hle, hn⟩ := v.issued id hid
      ⟨Nat.le_trans hle hc, fun hm => hn (ha id hle hm)⟩ }

theorem serves_cancel (v : Serves w s) (id : Nat) :
    Serves { w with heap := w.heap.cancel id } (s.cancelled id) := by
  refine { v with timers := fun i => ?_, due := fun i timer ht => ?_, running := ?_, same := ?_ }
  · by_cases hi : i = id
    · subst hi
      simp [TimerService.cancelled, World.live, TimerHeapQueue.cancel]
    · simp only [TimerService.cancelled, Function.update_of_ne hi, v.timers i, World.live,
        TimerHeapQueue.cancel, if_neg hi]
  · by_cases hi : i = id
    · subst hi
      simp [TimerService.cancelled] at ht
    · simp only [TimerService.cancelled, Function.update_of_ne hi] at ht
      exact v.due i timer ht
  · intro entry hm timer ht
    by_cases hi : entry.id = id
    · simp [TimerService.cancelled, hi] at ht
    · simp only [TimerService.cancelled, Function.update_of_ne hi] at ht
      exact v.running entry hm timer ht
  · intro entry hm other ho
    simp only [TimerHeapQueue.cancel] at ho
    split at ho
    · cases ho
    · exact v.same entry hm other ho

theorem serves_enter (k : Kept w) (v : Serves w s) {index id : Nat} {expired interval : Int}
    {c : TimerChannel} (hi : w.adds[index]? = some (.issued id expired interval)) :
    id ∉ s.issued ∧ Serves { w with
      heap := enter w.heap expired ⟨id, interval⟩
      channel := c
      adds := w.adds.eraseIdx index } (s.added id expired interval) := by
  have hperm := Pool.flat_map_erase_perm AddPc.adding hi
  simp only [AddPc.adding, List.singleton_append] at hperm
  have hadding : id ∈ w.adding := hperm.subset List.mem_cons_self
  obtain ⟨hle, habsent⟩ := k.issued id hadding
  have hnot : id ∉ s.issued := fun hm => (v.issued id hm).2 hadding
  have htaken (entry : Entry) (hm : entry ∈ w.pc.timer) : entry.id ≠ id := by
    rintro rfl
    refine habsent.taken ?_
    cases hpc : w.pc <;> rw [hpc] at hm <;> cases hm <;> exact List.mem_singleton_self _
  refine ⟨hnot, v.clock, v.last, v.read, fun i => ?_, fun i timer ht item hm he => ?_,
    fun entry hm timer ht => ?_, fun entry hm other ho => ?_, v.taken, fun i hm => ?_⟩
  · by_cases he : i = id
    · subst he
      simp [TimerService.added, World.live, enter, habsent.taken]
    · simp only [TimerService.added, Function.update_of_ne he, v.timers i, World.live, enter,
        if_neg he]
  · by_cases hid : i = id
    · subst hid
      simp only [TimerService.added, Function.update_self, Option.some.injEq] at ht
      rcases List.mem_cons.mp hm with rfl | hm
      · simp [← ht]
      · have hnone := List.countP_eq_zero.mp habsent.waiting item hm
        exact absurd he (by simpa using hnone)
    · simp only [TimerService.added, Function.update_of_ne hid] at ht
      rcases List.mem_cons.mp hm with rfl | hm
      · exact absurd he.symm hid
      · exact v.due i timer ht item hm he
  · have hne := htaken entry hm
    simp only [TimerService.added, Function.update_of_ne hne] at ht
    exact v.running entry hm timer ht
  · simp only [enter, if_neg (htaken entry hm)] at ho
    exact v.same entry hm other ho
  · have hnd := hperm.nodup_iff.mpr k.nodup
    rcases List.mem_cons.mp hm with rfl | hm
    · exact ⟨hle, (List.nodup_cons.mp hnd).1⟩
    · obtain ⟨hle, hn⟩ := v.issued i hm
      exact ⟨hle, fun ha => hn (hperm.subset (List.mem_cons_of_mem _ ha))⟩

theorem serves_pop (k : Kept w) (v : Serves w s) {now : Int} {index : Nat} {item : Timeout}
    (hpc : w.pc = .loop now) (hi : w.heap.queue[index]? = some item) (hdue : item.expire ≤ now) :
    ∃ u, (TimerService.system policy).run s (shows w (.pop index)) = some u ∧
      Serves { w with
        heap := { w.heap with queue := w.heap.queue.eraseIdx index }
        pc := .afterPop now (w.heap.table item.timer) } u := by
  have hread := v.read now (by rw [hpc]; rfl)
  have htaken : w.pc.taken = [] := by rw [hpc]; rfl
  have hclaim : w.pc.claim = [] := by rw [hpc]; rfl
  have hsub (other : Timeout) (hm : other ∈ w.heap.queue.eraseIdx index) : other ∈ w.heap.queue :=
    List.mem_of_mem_eraseIdx hm
  cases ht : w.heap.table item.timer with
  | none =>
    refine ⟨s, by simp [shows, hpc, hi, ht, Transition.System.run], v.clock, v.last, ?_, fun id => ?_,
      fun id timer h other hm => v.due id timer h other (hsub other hm), (fun _ hm => by cases hm),
      (fun _ hm => by cases hm), ?_, v.issued⟩
    · intro n hm
      cases hm
      exact hread
    · rw [v.timers id, World.live, World.live, htaken]
      rfl
    · rw [v.taken, hclaim]
      rfl
  | some entry =>
    have hid := k.table _ _ ht
    have hlive : (s.timers entry.id).map TimerService.Timer.interval = some entry.interval := by
      rw [v.timers, World.live, hid, ht, htaken]
      simp
    obtain ⟨timer, htimer, hinterval⟩ := Option.map_eq_some_iff.mp hlive
    have hripe : policy.ripe timer.due now = true := by
      refine decide_eq_true (Int.le_trans (v.due _ timer htimer item ?_ hid.symm) hdue)
      exact List.mem_of_getElem? hi
    have hgone : waiting (w.heap.queue.eraseIdx index) entry.id = 0 := by
      have herase := waiting_erase hi entry.id
      have hwaits := k.waits entry.id (by rw [hid, ht]; exact Option.some_ne_none _)
      rw [htaken] at hwaits
      simp only [List.not_mem_nil, if_false] at hwaits
      rw [if_pos hid.symm] at herase
      omega
    refine ⟨s.took entry.id timer now, ?_, v.clock, hread.2, ?_, fun id => ?_,
      fun id other h o hm he => ?_, fun e hm other h => ?_, fun e hm other h => ?_, ?_, v.issued⟩
    · have hs : shows w (.pop index) = [.take entry.id now] := by simp [shows, hpc, hi, ht, hid]
      rw [hs]
      exact TimerService.run_take htimer hread.1 (v.clock ▸ hread.2) hripe
    · intro n hm
      cases hm
      exact ⟨Int.le_refl _, hread.2⟩
    · by_cases he : id = entry.id
      · subst he
        simp only [TimerService.took, Function.update_self, TimerService.again, hinterval,
          World.live, hid, ht, Option.bind_some, Pc.afterPop, Pc.taken, List.mem_singleton, true_and]
        split
        · rw [if_neg (by omega)]
          rfl
        · rw [if_pos (by omega)]
          rfl
      · simp only [TimerService.took, Function.update_of_ne he, v.timers id, World.live, htaken]
        simp only [Pc.afterPop, Pc.taken, List.mem_singleton, he, List.not_mem_nil, false_and]
    · by_cases hne : id = entry.id
      · subst hne
        have hnone := List.countP_eq_zero.mp hgone o hm
        exact absurd he (by simpa using hnone)
      · simp only [TimerService.took, Function.update_of_ne hne] at h
        exact v.due id other h o (hsub o hm) he
    · cases hm
      simp only [TimerService.took, Function.update_self] at h
      rw [(TimerService.again_some h).2, hinterval]
      exact Int.add_le_add_right hread.2 _
    · cases hm
      rw [hid, ht] at h
      exact (Option.some.inj h).symm
    · simp only [TimerService.took, List.map_cons, v.taken, hclaim]
      rfl

theorem serves_resume (v : Serves w s) {now : Int} {timer : Entry}
    (hf : Fits w .resume) (hpc : w.pc = .callback now timer) :
    Serves { w with heap := finish w.heap w.clock timer, pc := .loop now } s := by
  have hread := v.read now (by rw [hpc]; rfl)
  have htaken : w.pc.taken = [timer.id] := by rw [hpc]; rfl
  have hclaim : w.pc.claim = [] := by rw [hpc]; rfl
  have hsame := v.same timer (by rw [hpc]; rfl)
  have hr (n : Int) (hm : n ∈ (Pc.loop now).now) : s.last ≤ n ∧ n ≤ w.clock := by
    cases hm
    exact hread
  have ht : s.taken.map TimerService.Taken.id = (Pc.loop now).claim ++ w.invoked := by
    rw [v.taken, hclaim]
    rfl
  unfold finish
  split
  · rename_i hi
    refine ⟨v.clock, v.last, hr, fun id => ?_, fun id other h item hm he => ?_,
      (fun _ hm => by cases hm), (fun _ hm => by cases hm), ht, v.issued⟩
    · rw [v.timers id, World.live, World.live, htaken]
      simp only [emplace, Pc.taken, List.mem_singleton, List.not_mem_nil, false_and, if_false]
      cases he : w.heap.table id with
      | none => rfl
      | some entry =>
        rw [Option.bind_some, Option.bind_some, if_neg]
        rintro ⟨rfl, hle⟩
        rw [hsame entry he] at hle
        omega
    · rcases List.mem_cons.mp hm with rfl | hm
      · obtain rfl : timer.id = id := he
        rw [rearm_fits hf hpc hi]
        exact v.running timer (by rw [hpc]; rfl) other h
      · exact v.due id other h item hm he
  · rename_i hi
    refine ⟨v.clock, v.last, hr, fun id => ?_, v.due, (fun _ hm => by cases hm),
      (fun _ hm => by cases hm), ht, v.issued⟩
    rw [v.timers id, World.live, World.live, htaken]
    simp only [TimerHeapQueue.cancel, Pc.taken, List.mem_singleton, List.not_mem_nil, false_and,
      if_false]
    by_cases hid : id = timer.id
    · subst hid
      rw [if_pos rfl]
      cases he : w.heap.table timer.id with
      | none => rfl
      | some entry =>
        rw [Option.bind_some, Option.bind_none, if_pos]
        refine ⟨rfl, ?_⟩
        rw [hsame entry he]
        omega
    · simp only [hid, false_and, if_false]

theorem serves_step {a : Action} (k : Kept w) (v : Serves w s) (hf : Fits w a)
    (h : step w a = some t) :
    ∃ u, (TimerService.system policy).run s (shows w a) = some u ∧ Serves t u := by
  cases a with
  | elapse usecs =>
    cases h
    have hc : w.clock ≤ w.clock + usecs := by omega
    refine ⟨{ s with clock := s.clock + usecs }, rfl,
      { v with
        clock := congrArg (· + (usecs : Int)) v.clock
        last := Int.le_trans v.last hc
        read := fun now hm => ⟨(v.read now hm).1, Int.le_trans (v.read now hm).2 hc⟩
        running := fun entry hm timer ht => ?_ }⟩
    have := v.running entry hm timer ht
    simp only
    omega
  | add delay interval =>
    cases h
    exact ⟨s, rfl, serves_adds v (Nat.le_refl _) fun _ _ hm => hm⟩
  | advance index =>
    cases step_moves h with
    | @issue _ expired interval hi =>
      refine ⟨s, by simp only [shows, hi, Transition.System.run], ?_⟩
      have hperm := Pool.flat_map_set (b := .issued (w.heap.counter + 1) expired interval)
        AddPc.adding hi
      simp only [AddPc.adding, List.append_nil, List.singleton_append] at hperm
      refine serves_adds v (Nat.le_succ _) fun id hle hm => ?_
      refine (List.mem_cons.mp (hperm.subset hm)).resolve_left ?_
      rintro rfl
      exact Nat.not_succ_le_self _ hle
    | enter hi hl =>
      obtain ⟨hnot, hv⟩ := serves_enter (c := _) k v hi
      refine ⟨_, ?_, hv⟩
      simp only [shows, hi]
      exact TimerService.run_add hnot _ _
  | cancel id =>
    obtain rfl := step_cancel h
    exact ⟨s.cancelled id, rfl, serves_cancel v id⟩
  | handleEvents =>
    cases step_moves h with
    | handleEvents hpc =>
      refine ⟨s, rfl, serves_quiet v (fun n hm => .inr ?_) ?_ ?_ ?_ _⟩
      · cases hm
        rfl
      · rw [hpc]; rfl
      · rw [hpc]; rfl
      · rw [hpc]; rfl
  | lock =>
    cases step_moves h with
    | lock hpc =>
      refine ⟨s, rfl, serves_quiet v (fun n hm => .inl ?_) ?_ ?_ ?_ _⟩
      · rw [hpc]
        exact hm
      · rw [hpc]; rfl
      · rw [hpc]; rfl
      · rw [hpc]; rfl
  | pop index =>
    obtain ⟨now, item, hpc, hi, hdue, -, rfl⟩ := step_pop h
    exact serves_pop k v hpc hi hdue
  | invoke =>
    cases step_moves h with
    | invoke hpc =>
      refine ⟨s, rfl, serves_quiet v (fun n hm => .inl ?_) ?_ ?_ ?_ _⟩
      · rw [hpc]
        exact hm
      · rw [hpc]; rfl
      · rw [hpc]; rfl
      · rw [hpc]; rfl
  | resume =>
    obtain ⟨now, timer, hpc, rfl⟩ := step_resume h
    exact ⟨s, rfl, serves_resume v hf hpc⟩
  | finish =>
    cases step_moves h with
    | finish hpc =>
      refine ⟨s, rfl, serves_quiet v (fun n hm => by cases hm) ?_ ?_ ?_ _⟩
      · rw [hpc]; rfl
      · rw [hpc]; rfl
      · rw [hpc]; rfl

end Concurrent
end TimerHeapQueue
end Pedronet
