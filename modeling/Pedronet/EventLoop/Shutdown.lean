import Pedronet.EventLoop

namespace Pedronet
namespace EventLoop
variable {Q : EventQueue Callback} {w t : World Q}

def LoopPc.starting : LoopPc → Bool
  | .load | .exchange _ => true
  | _ => false

def LoopPc.inside : LoopPc → Bool
  | .processing _ => true
  | _ => false

structure Sound (w : World Q) : Prop where
  queue : (EventQueue.system Q).Reachable w.queue
  logged : EventQueue.Logged w.queue
  starting : w.pc.starting = true → w.state = 0
  outside : w.pc.inside = false → w.queue.status = .outside
  nodup : (EventQueue.issued w.queue).Nodup
  fresh : ∀ id, .user id ∈ EventQueue.issued w.queue → id < w.fresh
  unclosed : .close ∈ EventQueue.issued w.queue → w.closing = .scheduled
  before : ∀ callback ∈ w.before, callback ∈ w.queue.added.takeWhile (· != .close)
  latch : w.latch ≤ 1 ∧ (.close ∈ w.queue.executed → w.latch = 0)

theorem take_while_absent {l : List Callback} (h : .close ∉ l) :
    l.takeWhile (· != .close) = l := by
  have hall : ∀ callback ∈ l, (callback != .close) = true := by
    intro callback hm
    rw [bne_iff_ne]
    exact fun he => h (he ▸ hm)
  calc l.takeWhile (· != .close) = (l ++ []).takeWhile (· != Callback.close) := by
        rw [List.append_nil]
    _ = l ++ [].takeWhile (· != Callback.close) := List.takeWhile_append_of_pos hall
    _ = l := List.append_nil l

theorem mem_take_while_longer {l r : List Callback} (h : l <+: r) {callback : Callback}
    (hm : callback ∈ l.takeWhile (· != .close)) : callback ∈ r.takeWhile (· != .close) := by
  obtain ⟨s, rfl⟩ := h
  rw [List.takeWhile_append]
  split
  · exact List.mem_append_left _ ((List.takeWhile_sublist _).subset hm)
  · exact hm

theorem mem_take_while_append {l r : List Callback} (h : .close ∈ l) {callback : Callback}
    (hm : callback ∈ (l ++ r).takeWhile (· != .close)) : callback ∈ l := by
  induction l with
  | nil => cases h
  | cons head l ih =>
    simp only [List.cons_append, List.takeWhile_cons] at hm
    split at hm
    · rename_i hh
      rcases List.mem_cons.mp hm with rfl | hm
      · exact List.mem_cons_self
      · have hl : .close ∈ l := (List.mem_cons.mp h).resolve_left (fun he => by simp [← he] at hh)
        exact List.mem_cons_of_mem _ (ih hl hm)
    · cases hm

theorem added_nodup (s : Sound w) : w.queue.added.Nodup := (List.nodup_append.mp s.nodup).1

theorem sound_same (s : Sound w) (hq : t.queue = w.queue)
    (hs : t.pc.starting = true → t.state = 0) (ho : t.pc.inside = false → w.pc.inside = false)
    (hf : t.fresh = w.fresh) (hc : w.closing = .scheduled → t.closing = .scheduled)
    (hb : ∀ callback ∈ t.before, callback ∈ w.queue.added.takeWhile (· != .close))
    (hl : t.latch = w.latch) : Sound t where
  queue := by rw [hq]; exact s.queue
  logged := by rw [hq]; exact s.logged
  starting := hs
  outside h := by rw [hq]; exact s.outside (ho h)
  nodup := by rw [hq]; exact s.nodup
  fresh id h := by rw [hq] at h; rw [hf]; exact s.fresh id h
  unclosed h := by rw [hq] at h; exact hc (s.unclosed h)
  before := by rw [hq]; exact hb
  latch := by rw [hq, hl]; exact s.latch

theorem sound_quiet (s : Sound w) {a : EventQueue.Action Q}
    (ha : EventQueue.step w.queue a = some t.queue) (hi : a.issues = [])
    (hs : t.pc.starting = true → t.state = 0)
    (ho : t.pc.inside = false → t.queue.status = .outside)
    (hf : t.fresh = w.fresh) (hc : t.closing = w.closing) (hb : t.before = w.before)
    (hl : t.latch ≤ 1 ∧ (.close ∈ t.queue.executed → t.latch = 0)) : Sound t := by
  have hp : (EventQueue.issued t.queue).Perm (EventQueue.issued w.queue) := by
    simpa [hi] using EventQueue.issued_step ha
  exact {
    queue := s.queue.step ha
    logged := EventQueue.logged_step s.logged ha
    starting := hs
    outside := ho
    nodup := hp.nodup_iff.mpr s.nodup
    fresh := fun id h => hf ▸ s.fresh id (hp.mem_iff.mp h)
    unclosed := fun h => hc ▸ s.unclosed (hp.mem_iff.mp h)
    before := fun callback h =>
      mem_take_while_longer (EventQueue.added_step ha) (s.before callback (hb ▸ h))
    latch := hl }

theorem sound_add (s : Sound w) {own : Bool} {callback : Callback} {queue : EventQueue.World Q}
    (ha : EventQueue.step w.queue (.add own callback) = some queue)
    (hn : callback ∉ EventQueue.issued w.queue) {fresh : Nat} {closing : ClosePc}
    (hf : w.fresh ≤ fresh) (hid : ∀ id, callback = .user id → id < fresh)
    (hc : callback = .close ∨ w.closing = .scheduled → closing = .scheduled) :
    Sound { w with queue := queue, fresh := fresh, closing := closing } := by
  have hp : (EventQueue.issued queue).Perm (EventQueue.issued w.queue ++ [callback]) :=
    EventQueue.issued_step ha
  have hlog := EventQueue.logged_step s.logged ha
  have hreach : (EventQueue.system Q).Reachable queue :=
    s.queue.step (a := .add own callback) ha
  obtain rfl := EventQueue.step_add ha
  exact {
    queue := hreach
    logged := hlog
    starting := s.starting
    outside := s.outside
    nodup := by
      rw [hp.nodup_iff, List.nodup_append]
      exact ⟨s.nodup, by simp,
        fun a h b hb he => hn (List.mem_singleton.mp hb ▸ he ▸ h)⟩
    fresh := fun id h => by
      rcases List.mem_append.mp (hp.mem_iff.mp h) with h | h
      · exact Nat.lt_of_lt_of_le (s.fresh id h) hf
      · exact hid id (List.mem_singleton.mp h).symm
    unclosed := fun h => by
      rcases List.mem_append.mp (hp.mem_iff.mp h) with h | h
      · exact hc (.inr (s.unclosed h))
      · exact hc (.inl (List.mem_singleton.mp h).symm)
    before := s.before
    latch := s.latch }

theorem sound_follow (s : Sound w) {rest : List Source} {choice : Q.Choice}
    {queue : EventQueue.World Q} (hpc : w.pc = .processing rest)
    (hq : EventQueue.step w.queue (.process choice) = some queue) : Sound (w.follow rest queue) := by
  have hs : w.pc.starting = true → w.state = 0 := s.starting
  have hin : ¬ w.pc.inside = false := by simp [hpc, LoopPc.inside]
  obtain ⟨consumer, state, next, -, -, he⟩ := EventQueue.step_process hq
  cases next with
  | again consumer =>
    obtain rfl : queue = { w.queue with state := state, status := .processing consumer } := he
    exact sound_quiet s hq rfl hs (fun h => absurd h hin) rfl rfl rfl s.latch
  | finish =>
    obtain rfl : queue = { w.queue with state := state, status := .outside } := he
    exact sound_quiet s hq rfl (fun h => by cases h) (fun _ => rfl) rfl rfl rfl s.latch
  | invoke callback consumer =>
    obtain rfl : queue = { w.queue with
      state := state
      status := .running callback consumer
      executed := w.queue.executed ++ [callback] } := he
    cases callback with
    | user id =>
      refine sound_quiet s hq rfl hs (fun h => absurd h hin) rfl rfl rfl ⟨s.latch.1, fun h => ?_⟩
      refine s.latch.2 ((List.mem_append.mp h).resolve_right fun h => ?_)
      cases List.mem_singleton.mp h
    | close =>
      refine sound_quiet s hq rfl hs (fun h => absurd h hin) rfl rfl rfl ?_
      have hl := s.latch.1
      have hz : w.latch - 1 = 0 := by omega
      exact ⟨Nat.le_trans (Nat.le_of_eq hz) (Nat.zero_le 1), fun _ => hz⟩

theorem sound_step {a : Action Q} (s : Sound w) (h : step w a = some t) : Sound t := by
  cases a with
  | load =>
    obtain ⟨hpc, rfl⟩ := step_load h
    exact sound_same s rfl (fun _ => s.starting (by rw [hpc]; rfl)) (fun _ => by rw [hpc]; rfl) rfl
      id s.before rfl
  | exchange =>
    obtain ⟨expected, hpc, rfl | rfl⟩ := step_exchange h
    · exact sound_same s rfl (fun he => by cases he) (fun _ => by rw [hpc]; rfl) rfl id s.before rfl
    · exact sound_same s rfl (fun _ => s.starting (by rw [hpc]; rfl)) (fun _ => by rw [hpc]; rfl)
        rfl id s.before rfl
  | test =>
    obtain ⟨hpc, rfl⟩ := step_test h
    refine sound_same s rfl (fun he => ?_) (fun _ => by rw [hpc]; rfl) rfl id s.before rfl
    simp only at he
    split at he <;> cases he
  | wait ready =>
    obtain ⟨hpc, rfl | ⟨batch, rfl⟩⟩ := step_wait h
    · exact sound_same s rfl (fun he => by cases he) (fun _ => by rw [hpc]; rfl) rfl id s.before rfl
    · exact sound_same s rfl (fun he => by cases he) (fun _ => by rw [hpc]; rfl) rfl id s.before rfl
  | next =>
    obtain ⟨rest, hpc, ⟨more, queue, hq, rfl⟩ | ⟨pc, hnext, rfl⟩⟩ := step_next h
    · refine sound_quiet s hq rfl (fun he => by cases he) (fun he => by cases he) rfl rfl rfl ?_
      obtain ⟨-, -, rfl⟩ := EventQueue.step_handle_events hq
      exact s.latch
    · refine sound_same s rfl (fun he => ?_) (fun _ => by rw [hpc]; rfl) rfl id s.before rfl
      obtain rfl | ⟨more, rfl | rfl⟩ := hnext <;> cases he
  | leave =>
    obtain ⟨rest, hpc, rfl⟩ := step_leave h
    exact sound_same s rfl (fun he => by cases he) (fun _ => by rw [hpc]; rfl) rfl id s.before rfl
  | process choice =>
    obtain ⟨rest, queue, hpc, hq, rfl⟩ := step_process h
    exact sound_follow s hpc hq
  | resume =>
    obtain ⟨rest, queue, hpc, hq, rfl⟩ := step_resume h
    refine sound_quiet s hq rfl s.starting (fun he => by simp [hpc, LoopPc.inside] at he) rfl rfl rfl ?_
    obtain ⟨callback, consumer, -, rfl⟩ := EventQueue.step_resume hq
    exact s.latch
  | schedule own =>
    obtain ⟨queue, hq, rfl⟩ := step_schedule h
    refine sound_add s hq (fun hm => Nat.lt_irrefl _ (s.fresh _ hm)) (Nat.le_succ _) ?_ ?_
    · rintro id he
      cases he
      exact Nat.lt_succ_self _
    · rintro (he | he)
      · cases he
      · exact he
  | advance index =>
    obtain ⟨queue, hq, rfl⟩ := step_advance h
    obtain ⟨call, -, rfl⟩ := EventQueue.step_advance hq
    exact sound_quiet s hq rfl s.starting s.outside rfl rfl rfl s.latch
  | close own =>
    obtain ⟨hc, rfl⟩ := step_close h
    refine sound_same s rfl s.starting id rfl (fun he => by simp [hc] at he) (fun callback hm => ?_) rfl
    rw [take_while_absent]
    · exact s.logged.2 callback hm
    · intro ho
      have := s.unclosed (List.mem_append_left _ ho)
      rw [hc] at this
      cases this
  | clear =>
    obtain ⟨own, hc, rfl⟩ := step_clear h
    refine sound_same s rfl (fun he => ?_) id rfl (fun he => by simp [hc] at he) s.before rfl
    rw [s.starting he]
    rfl
  | scheduleClose =>
    obtain ⟨own, queue, hc, hq, rfl⟩ := step_schedule_close h
    refine sound_add s hq (fun hm => ?_) (Nat.le_refl _) (fun id he => by cases he) (fun _ => rfl)
    have := s.unclosed hm
    rw [hc] at this
    cases this

theorem sound_init : Sound (.init Q) where
  queue := .start rfl
  logged := EventQueue.logged_init
  starting _ := rfl
  outside _ := rfl
  nodup := List.nodup_nil
  fresh _ h := by cases h
  unclosed h := by cases h
  before _ h := by cases h
  latch := ⟨Nat.le_refl 1, fun h => by cases h⟩

def Settled (w : World Q) : Prop :=
  (∀ callback ∈ w.before, w.queue.executed.count callback = 1) ∧
    w.queue.executed.count .close = 1 ∧ w.latch = 0 ∧ w.joins = true

def Drained (w : World Q) (a : Action Q) : Prop :=
  match a with
  | .test => looping w.state = false → .close ∈ w.queue.added ∧ .close ∉ Q.held w.queue.state
  | _ => True

instance (w : World Q) : DecidablePred (Drained w)
  | .test => inferInstanceAs (Decidable (_ → _ ∧ _))
  | .load | .exchange | .wait _ | .next | .leave | .process _ | .resume => isTrue trivial
  | .schedule _ | .advance _ | .close _ | .clear | .scheduleClose => isTrue trivial

def Left (w : World Q) : Prop := w.pc = .returned → .close ∈ w.queue.executed

theorem executed_iff (hQ : Q.Lawful) (s : Sound w) (ho : w.queue.status = .outside) :
    .close ∈ w.queue.executed ↔ .close ∈ w.queue.added ∧ .close ∉ Q.held w.queue.state := by
  obtain ⟨done, pending, ha, hd, hp⟩ := hQ _ s.queue ho
  have hn := added_nodup s
  rw [ha, List.nodup_append] at hn
  rw [← hd.mem_iff, ← hp.mem_iff, ha, List.mem_append]
  constructor
  · intro h
    exact ⟨.inl h, fun h' => hn.2.2 _ h _ h' rfl⟩
  · rintro ⟨h | h, hnot⟩
    · exact h
    · exact absurd h hnot

theorem settled_iff (hQ : Q.Lawful) (s : Sound w) (hr : w.pc = .returned) :
    Settled w ↔ .close ∈ w.queue.executed := by
  obtain ⟨done, pending, ha, hd, -⟩ := hQ _ s.queue (s.outside (by rw [hr]; rfl))
  have hn : done.Nodup := (List.nodup_append.mp (ha ▸ added_nodup s)).1
  have hone : ∀ callback ∈ done, w.queue.executed.count callback = 1 := by
    intro callback hm
    rw [← hd.count_eq]
    exact Nat.le_antisymm (List.nodup_iff_count.mp hn callback) (List.count_pos_iff.mpr hm)
  constructor
  · rintro ⟨-, hc, -, -⟩
    exact List.count_pos_iff.mp (hc ▸ Nat.one_pos)
  · intro hx
    have hclose : .close ∈ done := hd.mem_iff.mpr hx
    have hl := s.latch.2 hx
    refine ⟨fun callback hm => hone _ ?_, hone _ hclose, hl, ?_⟩
    · have hb := s.before callback hm
      rw [ha] at hb
      exact mem_take_while_append hclose hb
    · simp [World.joins, hl]

theorem keeps_left {a : Action Q} (s : Sound w) (h : step w a = some t) (ha : a ≠ .test) :
    (w.pc = .returned ∧ t.pc = .returned ∧ t.queue.executed = w.queue.executed) ∨
      (w.pc ≠ .returned ∧ t.pc ≠ .returned) := by
  have hcall : t.pc = w.pc → t.queue.executed = w.queue.executed →
      (w.pc = .returned ∧ t.pc = .returned ∧ t.queue.executed = w.queue.executed) ∨
        (w.pc ≠ .returned ∧ t.pc ≠ .returned) := by
    intro hp he
    by_cases hr : w.pc = .returned
    · exact .inl ⟨hr, hp.trans hr, he⟩
    · exact .inr ⟨hr, hp ▸ hr⟩
  cases a with
  | load =>
    obtain ⟨hpc, rfl⟩ := step_load h
    have hz : w.state = 0 := s.starting (by rw [hpc]; rfl)
    exact .inr ⟨by simp [hpc], by simp [hz, looping]⟩
  | exchange =>
    obtain ⟨expected, hpc, rfl | rfl⟩ := step_exchange h
    · exact .inr ⟨by simp [hpc], by simp⟩
    · exact .inr ⟨by simp [hpc], by simp⟩
  | test => exact absurd rfl ha
  | wait ready =>
    obtain ⟨hpc, rfl | ⟨batch, rfl⟩⟩ := step_wait h
    · exact .inr ⟨by simp [hpc], by simp⟩
    · exact .inr ⟨by simp [hpc], by simp⟩
  | next =>
    obtain ⟨rest, hpc, ⟨more, queue, -, rfl⟩ | ⟨pc, hnext, rfl⟩⟩ := step_next h
    · exact .inr ⟨by simp [hpc], by simp⟩
    · refine .inr ⟨by simp [hpc], ?_⟩
      obtain rfl | ⟨more, rfl | rfl⟩ := hnext <;> simp
  | leave =>
    obtain ⟨rest, hpc, rfl⟩ := step_leave h
    exact .inr ⟨by simp [hpc], by simp⟩
  | process choice =>
    obtain ⟨rest, queue, hpc, -, rfl⟩ := step_process h
    refine .inr ⟨by simp [hpc], ?_⟩
    unfold World.follow
    split <;> simp [hpc]
  | resume =>
    obtain ⟨rest, queue, hpc, -, rfl⟩ := step_resume h
    exact .inr ⟨by simp [hpc], by simp [hpc]⟩
  | schedule own =>
    obtain ⟨queue, hq, rfl⟩ := step_schedule h
    obtain rfl := EventQueue.step_add hq
    exact hcall rfl rfl
  | advance index =>
    obtain ⟨queue, hq, rfl⟩ := step_advance h
    obtain ⟨call, -, rfl⟩ := EventQueue.step_advance hq
    exact hcall rfl rfl
  | close own =>
    obtain ⟨-, rfl⟩ := step_close h
    exact hcall rfl rfl
  | clear =>
    obtain ⟨own, -, rfl⟩ := step_clear h
    exact hcall rfl rfl
  | scheduleClose =>
    obtain ⟨own, queue, -, hq, rfl⟩ := step_schedule_close h
    obtain rfl := EventQueue.step_add hq
    exact hcall rfl rfl

theorem left_step (hQ : Q.Lawful) {a : Action Q} (s : Sound w) (h : step w a = some t) :
    Left t ↔ Left w ∧ Drained w a := by
  by_cases ha : a = .test
  · subst ha
    obtain ⟨hpc, rfl⟩ := step_test h
    have hw : Left w := fun hr => by simp [hpc] at hr
    have hx := executed_iff hQ s (s.outside (by rw [hpc]; rfl))
    have ht : Left { w with pc := if looping w.state then .wait else .returned } ↔
        (looping w.state = false → .close ∈ w.queue.executed) := by
      cases hl : looping w.state <;> simp [Left]
    rw [ht, hx]
    exact ⟨fun hd => ⟨hw, hd⟩, fun hd => hd.2⟩
  · have hd : Drained w a := by
      cases a <;> trivial
    rcases keeps_left s h ha with ⟨hw, ht, he⟩ | ⟨hw, ht⟩
    · simp only [Left, hw, ht, he, hd, and_true]
    · simp only [Left, hw, ht, hd, false_implies, and_self]

theorem settles_iff (type : EventQueueType) (as : List (Action (makeEventQueue Callback type)))
    {u : World (makeEventQueue Callback type)} (h : (system _).run (.init _) as = some u)
    (hr : u.pc = .returned) : Settled u ↔ (system _).Along Drained (.init _) as := by
  have hQ := lawful_make Callback type
  have hs : Sound u := by
    refine Transition.System.run_invariant ?_ sound_init Transition.System.along_true h
    intro s a t hs _ ht
    exact sound_step hs ht
  have hl := Transition.System.last_iff_along (M := system (makeEventQueue Callback type))
    (fun _ _ _ hs ht => sound_step hs ht) (fun _ _ _ hs ht => left_step hQ hs ht) sound_init h
  rw [settled_iff hQ hs hr]
  constructor
  · intro hx
    exact (hl.mp fun _ => hx).2
  · intro hg
    exact hl.mpr ⟨fun he => (by cases he), hg⟩ hr

def drainedRun : List (Action (makeEventQueue Callback .kBlockingQueue)) :=
  [.schedule false, .advance 0, .load, .exchange, .test, .close false, .clear, .scheduleClose,
    .advance 0, .wait (some [.event]), .next, .process (), .resume, .process (), .resume,
    .process (), .next, .test]

theorem settles_after_drain : ∃ u, (system _).run (.init _) drainedRun = some u ∧ Settled u := by
  have h : ((system _).run (.init _) drainedRun).isSome = true := rfl
  have hu := (Option.some_get h).symm
  exact ⟨_, hu, (settles_iff .kBlockingQueue drainedRun hu rfl).mpr (by decide)⟩

-- Close called from a timer callback, as the repository's own test does.
theorem loses_close :
    ¬ ∀ type as u, (system (makeEventQueue Callback type)).run (.init _) as = some u →
      u.pc = .returned → .close ∈ u.queue.returned → Settled u := by
  intro h
  have hs := h .kLockFreeQueue
    [.load, .exchange, .test, .wait (some [.timer]), .next, .close true, .clear, .scheduleClose,
      .advance 0, .advance 0, .advance 0, .leave, .next, .test] _ rfl rfl List.mem_cons_self
  exact absurd hs.2.2.1 (by decide)

end EventLoop
end Pedronet
