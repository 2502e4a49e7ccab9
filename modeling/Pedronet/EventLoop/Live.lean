import Pedronet.EventLoop.Serves
import Pedronet.EventLoop.Shutdown
import Pedronet.EventQueue.Progress

namespace Pedronet
namespace EventLoop
variable {Q : EventQueue Callback} {w t : World Q}

-- A selector reports each channel once.
def Once : Action Q → Prop
  | .wait (some batch) => batch.count .event ≤ 1
  | _ => True

def LoopPc.ahead : LoopPc → List Source
  | .batch rest | .handling rest | .processing rest => rest
  | _ => []

structure Live (w : World Q) : Prop where
  sound : Sound w
  inside : w.pc.inside = true → w.queue.status ≠ .outside
  once : w.pc.ahead.count .event ≤ 1
  ready : .event ∈ w.pc.ahead →
    w.pc.inside = false ∧ (w.eventRegistered = true → 0 < w.queue.eventfd)

theorem live_init : Live (.init Q) where
  sound := sound_init
  inside h := by cases h
  once := Nat.zero_le 1
  ready h := by cases h

theorem step_wait_some {batch : List Source} (h : step w (.wait (some batch)) = some t) :
    w.reported batch = true ∧ t = { w with pc := .batch batch } := by
  simp only [step] at h
  split at h
  · rename_i hn
    cases hn
  · rename_i hb
    cases hb
    split at h
    · rename_i hr
      exact ⟨hr, by simpa using h.symm⟩
    · cases h
  · cases h

theorem step_dispatch (h : step w .next = some t) :
    ∃ rest, w.pc = .batch rest ∧ dispatch w rest = some t := by
  simp only [step] at h
  split at h
  · rename_i rest hpc
    exact ⟨rest, hpc, h⟩
  · cases h

theorem reported_event {batch : List Source} (h : w.reported batch = true)
    (hm : .event ∈ batch) : 0 < w.queue.eventfd := by
  have := List.all_eq_true.mp h _ hm
  simpa using (Bool.and_eq_true_iff.mp this).2

theorem live_moves (l : Live w) {pc : LoopPc} {state : BitVec 32}
    (hs : Sound { w with pc := pc, state := state }) (hi : pc.inside = false)
    (ha : pc.ahead <:+ w.pc.ahead) : Live { w with pc := pc, state := state } where
  sound := hs
  inside h := by rw [hi] at h; cases h
  once := Nat.le_trans (ha.sublist.count_le _) l.once
  ready h := ⟨hi, (l.ready (ha.subset h)).2⟩

theorem live_same (l : Live w) (hs : Sound t) (hp : t.pc = w.pc)
    (hr : t.eventRegistered = true → w.eventRegistered = true)
    (hf : 0 < w.queue.eventfd → 0 < t.queue.eventfd)
    (ho : t.queue.status = .outside → w.queue.status = .outside) : Live t where
  sound := hs
  inside h he := l.inside (hp ▸ h) (ho he)
  once := hp ▸ l.once
  ready h := ⟨hp ▸ (l.ready (hp ▸ h)).1, fun h' => hf ((l.ready (hp ▸ h)).2 (hr h'))⟩

theorem live_dispatch (l : Live w) {rest : List Source} (hpc : w.pc = .batch rest)
    (hs : Sound t) (h : dispatch w rest = some t) : Live t := by
  have hahead : w.pc.ahead = rest := by rw [hpc]; rfl
  cases rest with
  | nil =>
    cases h
    exact live_moves l hs rfl (List.nil_suffix)
  | cons source rest =>
    have hsuffix : rest <:+ w.pc.ahead := hahead ▸ List.suffix_cons source rest
    cases source with
    | event =>
      rw [dispatch] at h
      split at h
      · obtain ⟨queue, hq, rfl⟩ := Option.map_eq_some_iff.mp h
        obtain ⟨-, -, rfl⟩ := EventQueue.step_handle_events hq
        have honce : rest.count .event = 0 := by
          have := l.once
          rw [hahead, List.count_cons_self] at this
          omega
        exact {
          sound := hs
          inside := fun _ => by simp
          once := Nat.le_trans (Nat.le_of_eq honce) (Nat.zero_le 1)
          ready := fun hm => absurd hm (List.count_eq_zero.mp honce) }
      · cases h
        exact live_moves l hs rfl hsuffix
    | timer =>
      cases h
      refine live_moves l hs ?_ ?_ <;> split
      · rfl
      · rfl
      · exact hsuffix
      · exact hsuffix
    | socket =>
      cases h
      exact live_moves l hs rfl hsuffix

theorem live_follow (l : Live w) {rest : List Source} (hpc : w.pc = .processing rest)
    {choice : Q.Choice} {queue : EventQueue.World Q}
    (hq : EventQueue.step w.queue (.process choice) = some queue) : Live (w.follow rest queue) := by
  have hs := sound_follow l.sound hpc hq
  have hahead : w.pc.ahead = rest := by rw [hpc]; rfl
  have hnone : .event ∉ w.pc.ahead := by
    intro hm
    have := (l.ready hm).1
    rw [hpc] at this
    cases this
  obtain ⟨consumer, state, next, -, -, he⟩ := EventQueue.step_process hq
  cases next with
  | again consumer =>
    obtain rfl : queue = { w.queue with state := state, status := .processing consumer } := he
    exact live_same l hs rfl (fun h => h) (fun h => h) (fun h => by cases h)
  | finish =>
    obtain rfl : queue = { w.queue with state := state, status := .outside } := he
    exact {
      sound := hs
      inside := fun h => by cases h
      once := hahead ▸ l.once
      ready := fun hm => absurd (hahead ▸ hm) hnone }
  | invoke callback consumer =>
    obtain rfl : queue = { w.queue with
      state := state
      status := .running callback consumer
      executed := w.queue.executed ++ [callback] } := he
    cases callback with
    | user id => exact live_same l hs rfl (fun h => h) (fun h => h) (fun h => by cases h)
    | close => exact live_same l hs rfl (fun h => by cases h) (fun h => h) (fun h => by cases h)

theorem live_advance (l : Live w) {index : Nat} {queue : EventQueue.World Q}
    (hs : Sound { w with queue := queue })
    (hq : EventQueue.step w.queue (.advance index) = some queue) :
    Live { w with queue := queue } := by
  obtain ⟨call, -, rfl⟩ := EventQueue.step_advance hq
  refine live_same l hs rfl (fun h => h) (fun h => ?_) (fun h => h)
  simp only [EventQueue.World.advance]
  split
  · exact EventChannel.wake_up_pos _
  · exact h

theorem live_step (l : Live w) {a : Action Q} (ha : Once a) (h : step w a = some t) : Live t := by
  have hs := sound_step l.sound h
  cases a with
  | load =>
    obtain ⟨-, rfl⟩ := step_load h
    refine live_moves l hs ?_ ?_ <;> split
    · rfl
    · rfl
    · exact List.nil_suffix
    · exact List.nil_suffix
  | exchange =>
    obtain ⟨expected, -, rfl | rfl⟩ := step_exchange h
    · exact live_moves l hs rfl (List.nil_suffix)
    · exact live_moves l hs rfl (List.nil_suffix)
  | test =>
    obtain ⟨-, rfl⟩ := step_test h
    refine live_moves l hs ?_ ?_ <;> split
    · rfl
    · rfl
    · exact List.nil_suffix
    · exact List.nil_suffix
  | wait ready =>
    obtain ⟨hpc, -⟩ := step_wait h
    cases ready with
    | none =>
      simp only [step, hpc, Option.some.injEq] at h
      subst h
      exact live_moves l hs rfl (List.nil_suffix)
    | some batch =>
      obtain ⟨hr, rfl⟩ := step_wait_some h
      exact {
        sound := hs
        inside := fun he => by cases he
        once := ha
        ready := fun hm => ⟨rfl, fun _ => reported_event hr hm⟩ }
  | next =>
    obtain ⟨rest, hpc, hd⟩ := step_dispatch h
    exact live_dispatch l hpc hs hd
  | leave =>
    obtain ⟨rest, hpc, rfl⟩ := step_leave h
    refine live_moves l hs rfl ?_
    rw [hpc]
    exact List.suffix_rfl
  | process choice =>
    obtain ⟨rest, queue, hpc, hq, rfl⟩ := step_process h
    exact live_follow l hpc hq
  | resume =>
    obtain ⟨rest, queue, hpc, hq, rfl⟩ := step_resume h
    obtain ⟨callback, consumer, -, rfl⟩ := EventQueue.step_resume hq
    exact live_same l hs rfl (fun h => h) (fun h => h) (fun h => by cases h)
  | schedule own =>
    obtain ⟨queue, hq, rfl⟩ := step_schedule h
    obtain rfl := EventQueue.step_add hq
    exact live_same l hs rfl (fun h => h) (fun h => h) (fun h => h)
  | advance index =>
    obtain ⟨queue, hq, rfl⟩ := step_advance h
    exact live_advance l hs hq
  | close own =>
    obtain ⟨-, rfl⟩ := step_close h
    exact live_same l hs rfl (fun h => h) (fun h => h) (fun h => h)
  | clear =>
    obtain ⟨own, -, rfl⟩ := step_clear h
    exact live_same l hs rfl (fun h => h) (fun h => h) (fun h => h)
  | scheduleClose =>
    obtain ⟨own, queue, -, hq, rfl⟩ := step_schedule_close h
    obtain rfl := EventQueue.step_add hq
    exact live_same l hs rfl (fun h => h) (fun h => h) (fun h => h)

-- What the loop does with the calls under way, when nobody makes another one.
def Onward (a : Action Q) : Prop := a.goesOn ∧ Once a

-- No Wait runs into its time-out or reports nothing.
def Action.reports : Action Q → Prop
  | .wait none | .wait (some []) => False
  | _ => True

def Woken (a : Action Q) : Prop := Onward a ∧ a.reports

theorem leads_onward (h : (system Q).Leads Woken w t) : (system Q).Leads Onward w t :=
  Transition.System.reaches_mono (fun _ _ ha => ha.1) h

theorem live_leads (l : Live w) (h : (system Q).Leads Onward w t) : Live t :=
  Transition.System.reaches_invariant (fun _ _ _ l ha hs => live_step l ha.2 hs) l h

theorem goes_on_closing {a : Action Q} (ha : a.goesOn) (h : step w a = some t) :
    t.closing = w.closing := by
  cases a with
  | load =>
    obtain ⟨-, rfl⟩ := step_load h
    rfl
  | exchange => obtain ⟨expected, -, rfl | rfl⟩ := step_exchange h <;> rfl
  | test =>
    obtain ⟨-, rfl⟩ := step_test h
    rfl
  | wait ready => obtain ⟨-, rfl | ⟨batch, rfl⟩⟩ := step_wait h <;> rfl
  | next => obtain ⟨rest, -, ⟨more, queue, -, rfl⟩ | ⟨pc, -, rfl⟩⟩ := step_next h <;> rfl
  | leave =>
    obtain ⟨rest, -, rfl⟩ := step_leave h
    rfl
  | process choice =>
    obtain ⟨rest, queue, -, -, rfl⟩ := step_process h
    unfold World.follow
    split <;> rfl
  | resume =>
    obtain ⟨rest, queue, -, -, rfl⟩ := step_resume h
    rfl
  | advance index =>
    obtain ⟨queue, -, rfl⟩ := step_advance h
    rfl
  | schedule own | close own | clear | scheduleClose => exact ha.elim

structure Alone (w : World Q) : Prop where
  live : Live w
  calls : w.queue.calls = []
  own : w.closing.own = false

theorem alone_step (l : Alone w) {a : Action Q} (ha : Woken a) (h : step w a = some t) :
    Alone t := by
  refine ⟨live_step l.live ha.1.2 h, ?_, goes_on_closing ha.1.1 h ▸ l.own⟩
  rcases queue_step h with ⟨hq, -⟩ | ⟨b, hb, -, hi⟩
  · rw [hq]
    exact l.calls
  · exact EventQueue.calls_step l.calls (hi ha.1.1) hb

theorem alone_free (l : Alone w) : w.queue.free = true ∧ w.free = true := by
  have hq : w.queue.free = true := by simp [EventQueue.World.free, l.calls]
  exact ⟨hq, by simp [World.free, hq, l.own]⟩

theorem finish_calls (p : EventQueue.Progress Q) (l : Live w) (ho : w.closing.own = false) :
    ∃ u, (system Q).Leads Woken w u ∧ Alone u := by
  have hadvance : ∀ u, (Live u ∧ u.closing.own = false) → ¬ u.queue.calls = [] →
      ∃ x, (system Q).Leads Woken u x ∧ (Live x ∧ x.closing.own = false) ∧
        p.calling x.queue < p.calling u.queue := by
    rintro u ⟨l, ho⟩ hn
    cases hc : u.queue.calls with
    | nil => exact absurd hc hn
    | cons call calls =>
      have hq : EventQueue.step u.queue (.advance 0) = some (u.queue.advance 0 call) := by
        simp only [EventQueue.step, hc, List.getElem?_cons_zero]
      have hs : step u (.advance 0) = some { u with queue := u.queue.advance 0 call } := by
        simp only [step, hq, Option.map_some]
      exact ⟨_, Transition.System.reaches_step (a := .advance 0) ⟨⟨trivial, trivial⟩, trivial⟩ hs,
        ⟨live_step l (a := .advance 0) trivial hs, ho⟩, EventQueue.advance_smaller p hc⟩
  obtain ⟨u, hu, ⟨l, ho⟩, hc⟩ := Transition.System.reaches_of_measure _ hadvance ⟨l, ho⟩
  exact ⟨u, hu, l, hc, ho⟩

theorem follow_pc (w : World Q) (rest : List Source) (queue : EventQueue.World Q) :
    (w.follow rest queue).pc = .batch rest ∨ (w.follow rest queue).pc = w.pc := by
  unfold World.follow
  split
  · exact .inl rfl
  · exact .inr rfl
  · exact .inr rfl

theorem finish_process (p : EventQueue.Progress Q) (l : Alone w) {rest : List Source}
    (hpc : w.pc = .processing rest) :
    ∃ u, (system Q).Leads Woken w u ∧ Alone u ∧ u.pc = .batch rest ∧
      (p.Tidy w.queue → Q.held u.queue.state = []) := by
  have hsmaller : ∀ u, (Alone u ∧ (u.pc = .batch rest ∨ u.pc = .processing rest) ∧
      (p.Tidy w.queue → p.Tidy u.queue)) → ¬ u.pc = .batch rest →
      ∃ x, (system Q).Leads Woken u x ∧
        (Alone x ∧ (x.pc = .batch rest ∨ x.pc = .processing rest) ∧
          (p.Tidy w.queue → p.Tidy x.queue)) ∧ p.processing x.queue < p.processing u.queue := by
    rintro u ⟨l, hpc, ht⟩ hn
    have hpc := hpc.resolve_left hn
    obtain ⟨hfq, hf⟩ := alone_free l
    have hinside := l.live.inside (by rw [hpc]; rfl)
    cases hst : u.queue.status with
    | outside => exact absurd hst hinside
    | processing consumer =>
      obtain ⟨choice, queue, hq, hlt, hk⟩ := EventQueue.process_smaller p hfq hst
      have hs : step u (.process choice) = some (u.follow rest queue) := by
        simp only [step, hpc, hq, Option.map_some]
      have ho : Woken (Q := Q) (.process choice) := ⟨⟨trivial, trivial⟩, trivial⟩
      refine ⟨_, Transition.System.reaches_step ho hs, ⟨alone_step l ho hs, ?_, ?_⟩, ?_⟩
      · exact hpc ▸ follow_pc u rest queue
      · exact fun hw => (follow_queue u rest queue).symm ▸ hk (ht hw)
      · exact (follow_queue u rest queue).symm ▸ hlt
    | running callback consumer =>
      obtain ⟨queue, hq, hlt, hk⟩ := EventQueue.resume_smaller p hfq hst
      have hs : step u .resume = some { u with queue := queue } := by
        simp only [step, hpc, hf, hq, Option.map_some]
      have ho : Woken (Q := Q) .resume := ⟨⟨trivial, trivial⟩, trivial⟩
      exact ⟨_, Transition.System.reaches_step ho hs,
        ⟨alone_step l ho hs, .inr hpc, fun hw => hk (ht hw)⟩, hlt⟩
  obtain ⟨u, hu, ⟨l, -, ht⟩, hb⟩ :=
    Transition.System.reaches_of_measure _ hsmaller ⟨l, .inr hpc, id⟩
  refine ⟨u, hu, l, hb, fun hw => ?_⟩
  have ho : u.queue.status = .outside := l.live.sound.outside (by rw [hb]; rfl)
  simpa [EventQueue.Progress.Tidy, ho, EventQueue.Status.consumer] using ht hw

theorem finish_batch (p : EventQueue.Progress Q) (l : Alone w) {rest : List Source}
    (hpc : w.pc = .batch rest) :
    ∃ u, (system Q).Leads Woken w u ∧ Alone u ∧ u.pc = .test ∧
      ((w.eventRegistered = true ∧ .event ∈ rest) ∨ Q.held w.queue.state = [] →
        Q.held u.queue.state = []) := by
  have hnext : Woken (Q := Q) .next := ⟨⟨trivial, trivial⟩, trivial⟩
  have hleave : Woken (Q := Q) .leave := ⟨⟨trivial, trivial⟩, trivial⟩
  induction rest generalizing w with
  | nil =>
    have hs : step w .next = some { w with pc := .test } := by simp only [step, hpc, dispatch]
    refine ⟨_, Transition.System.reaches_step hnext hs, alone_step l hnext hs, rfl, ?_⟩
    rintro (⟨-, hm⟩ | he)
    · cases hm
    · exact he
  | cons source rest ih =>
    -- A channel that is skipped, or is not the event channel, has the queue stay as it is.
    have hother : (w.eventRegistered = true → source ≠ .event) → ∀ u,
        (system Q).Leads Woken w u → Alone u → u.pc = .batch rest → u.queue = w.queue →
        u.eventRegistered = w.eventRegistered →
        ∃ u, (system Q).Leads Woken w u ∧ Alone u ∧ u.pc = .test ∧
          ((w.eventRegistered = true ∧ .event ∈ source :: rest) ∨ Q.held w.queue.state = [] →
            Q.held u.queue.state = []) := by
      intro hne u hu l hb hq hr
      obtain ⟨x, hx, lx, htx, hh⟩ := ih l hb
      refine ⟨x, Transition.System.reaches_trans hu hx, lx, htx, ?_⟩
      rintro (⟨hw, hm⟩ | he)
      · exact hh (.inl ⟨hr.trans hw, (List.mem_cons.mp hm).resolve_left fun he => hne hw he.symm⟩)
      · exact hh (.inr (hq ▸ he))
    have hhandled : source ≠ .event → step w .next = some { w with pc := .handling rest } →
        ∃ u, (system Q).Leads Woken w u ∧ Alone u ∧ u.pc = .test ∧
          ((w.eventRegistered = true ∧ .event ∈ source :: rest) ∨ Q.held w.queue.state = [] →
            Q.held u.queue.state = []) := by
      intro hne hs
      have lh := alone_step l hnext hs
      have hl : step { w with pc := .handling rest } .leave = some { w with pc := .batch rest } := by
        have hf := (alone_free lh).2
        simp only [step, hf]
      exact hother (fun _ => hne) _
        (Transition.System.reaches_cons hnext hs (Transition.System.reaches_step hleave hl))
        (alone_step lh hleave hl) rfl rfl rfl
    have hskipped : (w.eventRegistered = true → source ≠ .event) →
        step w .next = some { w with pc := .batch rest } →
        ∃ u, (system Q).Leads Woken w u ∧ Alone u ∧ u.pc = .test ∧
          ((w.eventRegistered = true ∧ .event ∈ source :: rest) ∨ Q.held w.queue.state = [] →
            Q.held u.queue.state = []) := fun hne hs =>
      hother hne _ (Transition.System.reaches_step hnext hs) (alone_step l hnext hs) rfl rfl rfl
    cases source with
    | event =>
      by_cases hreg : w.eventRegistered = true
      · have ho : w.queue.status = .outside := l.live.sound.outside (by rw [hpc]; rfl)
        have hready := (l.live.ready (by rw [hpc]; exact List.mem_cons_self)).2 hreg
        have hq : EventQueue.step w.queue .handleEvents =
            some { w.queue with eventfd := 0, status := .processing Q.start } := by
          simp only [EventQueue.step, ho, (alone_free l).1, hready, and_self, if_true]
        have hs : step w .next = some { w with
            queue := { w.queue with eventfd := 0, status := .processing Q.start }
            pc := .processing rest } := by
          simp only [step, hpc, dispatch, hreg, if_true, hq, Option.map_some]
        have hclears : p.clears w.queue.state Q.start := p.starts l.live.sound.queue ho
        obtain ⟨u, hu, lu, hb, hheld⟩ := finish_process p (alone_step l hnext hs) rfl
        obtain ⟨x, hx, lx, htx, hh⟩ := ih lu hb
        refine ⟨x, Transition.System.reaches_cons hnext hs (Transition.System.reaches_trans hu hx), lx,
          htx, fun _ => hh (.inr (hheld hclears))⟩
      · refine hskipped (fun h => absurd h hreg) ?_
        simp only [step, hpc, dispatch, hreg, Bool.false_eq_true, if_false]
    | timer =>
      by_cases hreg : w.timerRegistered = true
      · exact hhandled (by simp) (by simp only [step, hpc, dispatch, hreg, if_true])
      · refine hskipped (fun _ => by simp) ?_
        simp only [step, hpc, dispatch, hreg, Bool.false_eq_true, if_false]
    | socket => exact hhandled (by simp) (by simp only [step, hpc, dispatch])

theorem reach_test (p : EventQueue.Progress Q) (l : Alone w) (hs : w.pc.starting = false)
    (hr : w.pc ≠ .returned) :
    ∃ u, (system Q).Leads Woken w u ∧ Alone u ∧ (u.pc = .test ∨ u.pc = .wait) := by
  have hbatch : ∀ {x rest}, (system Q).Leads Woken w x → Alone x → x.pc = .batch rest →
      ∃ u, (system Q).Leads Woken w u ∧ Alone u ∧ (u.pc = .test ∨ u.pc = .wait) := by
    intro x rest hx lx hpc
    obtain ⟨u, hu, lu, htest, -⟩ := finish_batch p lx hpc
    exact ⟨u, Transition.System.reaches_trans hx hu, lu, .inl htest⟩
  cases hpc : w.pc with
  | load | exchange expected =>
    rw [hpc] at hs
    cases hs
  | test => exact ⟨w, Transition.System.reaches_refl, l, .inl hpc⟩
  | wait => exact ⟨w, Transition.System.reaches_refl, l, .inr hpc⟩
  | batch rest => exact hbatch Transition.System.reaches_refl l hpc
  | handling rest =>
    have ho : Woken (Q := Q) .leave := ⟨⟨trivial, trivial⟩, trivial⟩
    have hs : step w .leave = some { w with pc := .batch rest } := by
      simp only [step, hpc, (alone_free l).2]
    exact hbatch (Transition.System.reaches_step ho hs) (alone_step l ho hs) rfl
  | processing rest =>
    obtain ⟨u, hu, lu, hb, -⟩ := finish_process p l hpc
    exact hbatch hu lu hb
  | returned => exact absurd hpc hr

theorem progress_make : (type : EventQueueType) →
    Nonempty (EventQueue.Progress (makeEventQueue Callback type))
  | .kBlockingQueue => ⟨EventBlockingQueue.progress⟩
  | .kDoubleBufferQueue => ⟨EventDoubleBufferQueue.progress⟩
  | .kLockFreeQueue => ⟨EventLockFreeQueue.progress⟩

end EventLoop
end Pedronet
