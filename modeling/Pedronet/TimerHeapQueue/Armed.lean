import Pedronet.TimerHeapQueue.WakeUp

namespace Pedronet

theorem TimerChannel.wake_up_after_wakeup {c : TimerChannel} {bound : Int} (now duration : Int)
    (h : c.lastWakeupUs = int64Max ∨ c.lastWakeupUs ≤ bound)
    (hd : max duration kMinWakeUpDuration ≤ bound) (hfit : duration + 100 ≤ int64Max) :
    (c.wakeUpAfter now duration).lastWakeupUs ≤ bound ∧
      (c.wakeUpAfter now duration).lastWakeupUs ≠ int64Max := by
  by_cases hk : keeps c.lastWakeupUs (max duration kMinWakeUpDuration)
  · have hne : c.lastWakeupUs ≠ int64Max := by
      intro he
      simp only [keeps, he, kMinWakeUpDuration, int64Max] at hk hfit
      omega
    rw [wake_up_after_keeps hk]
    exact ⟨h.resolve_left hne, hne⟩
  · rw [wake_up_after_arms hk]
    refine ⟨hd, ?_⟩
    simp only [kMinWakeUpDuration, int64Max] at hfit ⊢
    omega

namespace TimerHeapQueue

-- The timers asked for have delays and intervals of at most `longest`.
def Within (longest : Int) : Action → Prop
  | .add delay interval => delay ≤ longest ∧ interval ≤ longest
  | _ => True

instance (longest : Int) : DecidablePred (Within longest)
  | .add _ _ => inferInstanceAs (Decidable (_ ∧ _))
  | .elapse _ | .cancel _ | .handleEvents | .pop _ | .resume | .finish => isTrue trivial

def Armed (longest : Int) (w : World) : Prop :=
  w.pc = .idle → w.heap.queue ≠ [] →
    ∃ deadline ∈ w.channel.timerfd, deadline ≤ w.completed + max longest kMinWakeUpDuration

structure Bounded (longest : Int) (w : World) : Prop where
  completed : w.completed ≤ w.clock
  started : kMinWakeUpDuration ≤ w.clock
  remembers : w.channel.Remembers w.completed
  wakeup : w.channel.lastWakeupUs = int64Max ∨
    w.channel.lastWakeupUs ≤ max longest kMinWakeUpDuration
  fits : ∀ item ∈ w.heap.queue, item.expire ≤ int64Max
  near : ∀ item ∈ w.heap.queue, item.expire ≤ w.clock + longest
  interval : ∀ id timer, w.heap.table id = some timer → timer.interval ≤ longest
  running : ∀ now timer, w.pc = .callback now timer → timer.interval ≤ longest
  asked : w.pc = .idle → w.heap.queue ≠ [] → w.channel.lastWakeupUs ≠ int64Max

variable {longest : Int} {w t : World}

theorem bounded_armed (b : Bounded longest w) : Armed longest w := by
  intro hidle hq
  have hne := b.asked hidle hq
  obtain ⟨deadline, hd, hle⟩ := b.remembers.resolve_left hne
  have hw := b.wakeup.resolve_left hne
  exact ⟨deadline, hd, by omega⟩

theorem bounded_init {clock : Int} (h : kMinWakeUpDuration ≤ clock) :
    Bounded longest (World.init clock) where
  completed := Int.le_refl _
  started := h
  remembers := TimerChannel.remembers_create clock
  wakeup := .inl rfl
  fits _ hm := by cases hm
  near _ hm := by cases hm
  interval _ _ ht := by cases ht
  running _ _ hpc := by cases hpc
  asked _ hq := absurd rfl hq

theorem bounded_elapse (b : Bounded longest w) (usecs : Nat) :
    Bounded longest { w with clock := w.clock + usecs } := by
  have hl : w.clock ≤ w.clock + usecs := by omega
  refine { b with
    completed := Int.le_trans b.completed hl
    started := Int.le_trans b.started hl
    near := fun item hm => ?_ }
  have hn := b.near item hm
  simp only
  omega

theorem bounded_add (b : Bounded longest w) {delay interval : Int}
    (hfit : w.clock + delay ≤ int64Max) (hin : Within longest (.add delay interval)) :
    Bounded longest (w.add delay interval) := by
  have hdur : w.clock + delay - w.clock = delay := by omega
  have hst := b.started
  have hlong := hin.1
  obtain ⟨hw, hne⟩ := TimerChannel.wake_up_after_wakeup w.clock delay b.wakeup
    (by omega) (by simp only [kMinWakeUpDuration] at hst; omega)
  refine ⟨Int.le_refl _, hst, ?_, ?_, ?_, ?_, ?_, b.running, ?_⟩
  · exact TimerChannel.remembers_wake_up_after _ (TimerChannel.remembers_later b.remembers b.completed)
  · right
    simpa only [World.add, TimerChannel.wakeUpAt, hdur] using hw
  · intro item hm
    rcases List.mem_cons.mp hm with rfl | hm
    · exact hfit
    · exact b.fits item hm
  · intro item hm
    rcases List.mem_cons.mp hm with rfl | hm
    · simp only [World.add]
      omega
    · exact b.near item hm
  · intro id timer ht
    simp only [World.add, TimerHeapQueue.add] at ht
    split at ht
    · cases ht
      exact hin.2
    · exact b.interval id timer ht
  · intro _ _
    simpa only [World.add, TimerChannel.wakeUpAt, hdur] using hne

theorem bounded_resume (b : Bounded longest w) {now : Int} {timer : Entry}
    (hpc : w.pc = .callback now timer) (hfit : w.clock + timer.interval ≤ int64Max) :
    Bounded longest { w with heap := w.heap.finishCallback w.clock timer, pc := .loop now } := by
  have hi := b.running now timer hpc
  refine { b with
    fits := fits_finish_callback b.fits hfit
    near := fun item hm => ?_
    interval := fun id other ht => ?_
    running := (fun _ _ h => by cases h)
    asked := fun h => by cases h }
  · simp only [finishCallback] at hm
    split at hm
    · rcases List.mem_cons.mp hm with rfl | hm
      · simp only
        omega
      · exact b.near item hm
    · exact b.near item hm
  · simp only [finishCallback] at ht
    split at ht
    · exact b.interval id other ht
    · simp only [cancel] at ht
      split at ht
      · cases ht
      · exact b.interval id other ht

theorem bounded_finish (b : Bounded longest w) :
    Bounded longest { w with
      channel := w.heap.wakeUpTop w.channel w.clock, pc := .idle, completed := w.clock } := by
  have hrem := TimerChannel.remembers_later b.remembers b.completed
  have hst := b.started
  have htop (h : w.heap.queue ≠ []) :
      (w.heap.wakeUpTop w.channel w.clock).lastWakeupUs ≤ max longest kMinWakeUpDuration ∧
        (w.heap.wakeUpTop w.channel w.clock).lastWakeupUs ≠ int64Max := by
    obtain ⟨expire, he⟩ : ∃ expire, topExpire w.heap.queue = some expire :=
      Option.ne_none_iff_exists'.mp (by simpa [topExpire] using h)
    obtain ⟨top, hm, rfl⟩ := List.mem_map.mp (List.min?_eq_some_iff.mp he).1
    have hn := b.near top hm
    have hf := b.fits top hm
    simp only [wakeUpTop, he, TimerChannel.wakeUpAt]
    exact TimerChannel.wake_up_after_wakeup w.clock _ b.wakeup (by omega)
      (by simp only [kMinWakeUpDuration] at hst; omega)
  refine { b with
    completed := Int.le_refl _
    remembers := wake_up_top_remembers hrem
    wakeup := ?_
    running := (fun _ _ h => by cases h)
    asked := fun _ h => (htop h).2 }
  by_cases hq : w.heap.queue = []
  · simpa [wakeUpTop, topExpire, hq] using b.wakeup
  · exact .inr (htop hq).1

theorem bounded_step {a : Action} (b : Bounded longest w) (ha : Within longest a)
    (h : step w a = some t) : Bounded longest t := by
  cases a with
  | elapse usecs =>
    cases h
    exact bounded_elapse b usecs
  | add delay interval =>
    obtain ⟨rfl, -, -, -, hfit⟩ := step_add h
    exact bounded_add b hfit ha
  | cancel id =>
    obtain ⟨rfl, -⟩ := step_cancel h
    refine { b with
      completed := Int.le_refl _
      remembers := TimerChannel.remembers_later b.remembers b.completed
      interval := fun i timer ht => ?_ }
    simp only [cancel] at ht
    split at ht
    · cases ht
    · exact b.interval i timer ht
  | handleEvents =>
    obtain ⟨rfl, -⟩ := step_handle_events h
    exact { b with
      remembers := .inl rfl
      wakeup := .inl rfl
      running := (fun _ _ h => by cases h)
      asked := fun h => by cases h }
  | pop index =>
    obtain ⟨now, item, hpc, -, -, -, rfl⟩ := step_pop h
    refine { b with
      fits := fun other ho => b.fits other (List.mem_of_mem_eraseIdx ho)
      near := fun other ho => b.near other (List.mem_of_mem_eraseIdx ho)
      running := fun began timer h => ?_
      asked := fun h => ?_ }
    · simp only at h
      split at h
      · rename_i other ht
        cases h
        exact b.interval _ _ ht
      · cases h
    · simp only at h
      split at h <;> cases h
  | resume =>
    obtain ⟨now, timer, hpc, hfit, rfl⟩ := step_resume h
    exact bounded_resume b hpc hfit
  | finish =>
    obtain ⟨now, -, -, rfl⟩ := step_finish h
    exact bounded_finish b

theorem stays_armed (longest clock : Int) (as : List Action) (h : kMinWakeUpDuration ≤ clock)
    (hin : ∀ a ∈ as, Within longest a) : system.Always (Armed longest) (World.init clock) as :=
  Transition.System.always_of_along (M := system) (fun _ _ _ => bounded_step)
    (fun _ => bounded_armed) (bounded_init h) (Transition.System.along_of_forall hin)

theorem stays_armed_shorter_delay :
    system.Always (Armed 1000000) (World.init 1000)
      [.add 1000000 0, .elapse 500000, .add 900000 0, .elapse 900000, .handleEvents, .pop 1,
        .resume, .pop 0, .resume, .finish] :=
  stays_armed 1000000 1000 _ (by decide) (by decide)

end TimerHeapQueue
end Pedronet
