import Pedronet.TimerChannel.Postponed
import Pedronet.TimerHashWheel.Complete

namespace Pedronet
namespace TimerHashWheel

-- The wheel behind its TimerChannel, whose HandleEvents runs Process. `completed` is history: when
-- the constructor or the last Process has returned.
structure Ticking where
  world : World
  completed : Int

namespace Ticking
variable (o : Options)

def init (clock : Int) : Ticking := ⟨World.init clock, clock⟩

def step (s : Ticking) : Action → Option Ticking
  | .process =>
    if s.world.channel.timerfd.any fun deadline => deadline ≤ s.world.clock then
      (TimerHashWheel.step o
        { s.world with channel := s.world.channel.handleEvents s.world.clock } .process).map
          fun w => { s with world := w }
    else none
  | .finish => (TimerHashWheel.step o s.world .finish).map fun w => ⟨w, w.clock⟩
  | a => (TimerHashWheel.step o s.world a).map fun w => { s with world := w }

def system : Transition.System Ticking Action where
  start s := ∃ clock, 0 ≤ clock ∧ s = init clock
  step := step o

-- The idle loop reads the expired descriptor at most `slack` late, and the Adds of the loop's
-- thread have returned by then.
def Prompt (slack : Nat) (s : Ticking) : Action → Prop
  | .elapse usecs => s.world.pc = .idle → ∀ deadline ∈ s.world.channel.timerfd,
    s.world.clock + usecs ≤ max deadline s.completed + slack
  | .process => s.world.adds = []
  | _ => True

instance (slack : Nat) (s : Ticking) : DecidablePred (Prompt slack s)
  | .elapse _ => inferInstanceAs (Decidable (_ → ∀ deadline ∈ s.world.channel.timerfd, _))
  | .process => inferInstanceAs (Decidable (_ = _))
  | .add _ _ | .advance _ | .cancel _ | .pop | .claim | .rearm | .invoke | .resume | .finish =>
    isTrue trivial

def period : Nat := max o.tick.toNat 100 + 99

def pause (slack : Nat) : Nat :=
  TimerChannel.longest (period o) + period o / 100 * slack

end Ticking

variable {o : Options} {w t : World}

structure Nonneg (w : World) : Prop where
  clock : 0 ≤ w.clock
  last : 0 ≤ w.wheel.last
  pending : ∀ id, 0 ≤ w.pending id

theorem nonneg_init {clock : Int} (h : 0 ≤ clock) : Nonneg (World.init clock) :=
  ⟨h, h, fun _ => Int.le_refl 0⟩

theorem nonneg_pending (n : Nonneg w) {id : Nat} {e : Int} (he : 0 ≤ e) (i : Nat) :
    0 ≤ (if i = id then e else w.pending i) := by
  split
  · exact he
  · exact n.pending i

theorem nonneg_step {a : Action} (n : Nonneg w) (s : Ahead o w) (h : step o w a = some t) :
    Nonneg t := by
  have hbase : 0 ≤ w.base := Int.le_trans n.last s.last
  have hc := n.clock
  cases step_moves h with
  | elapse usecs => exact ⟨by simp only; omega, n.last, n.pending⟩
  | add delay interval => exact ⟨hc, n.last, nonneg_pending n (by omega)⟩
  | @advance index pc hi => cases pc <;> exact ⟨hc, n.last, n.pending⟩
  | @rearmed now due timer ids todo hpc hpos =>
    have hnow : 0 ≤ now := by simpa [World.base, hpc, Pc.base] using hbase
    exact ⟨hc, n.last, nonneg_pending n (by omega)⟩
  | @finish now hpc =>
    have hnow : 0 ≤ now := by simpa [World.base, hpc, Pc.base] using hbase
    exact ⟨hc, hnow, n.pending⟩
  | _ => exact ⟨hc, n.last, n.pending⟩

theorem waits_channel (s : Waits o w) (c : TimerChannel) : Waits o { w with channel := c } where
  placed := ⟨s.placed.bucket, s.placed.table, s.placed.adds, s.placed.taken,
    s.placed.waiting_nodup, s.placed.apart, s.placed.bucket_nodup, s.placed.fresh⟩
  located := s.located
  ahead := ⟨s.ahead.last, s.ahead.clock, s.ahead.adds, s.ahead.bucket⟩

theorem moves_channel {a : Action} (h : Moves o w a t) (hp : a ≠ .process) (hf : a ≠ .finish) :
    (t.pc = .idle ↔ w.pc = .idle) ∧
      ((∃ usecs, a = .elapse usecs ∧ t.clock = w.clock + usecs ∧ t.channel = w.channel) ∨
        (t.clock = w.clock ∧ (t.channel = w.channel ∨
          ∃ duration, t.channel = w.channel.wakeUpAfter w.clock duration))) := by
  cases h with
  | elapse usecs => exact ⟨Iff.rfl, .inl ⟨usecs, rfl, rfl, rfl⟩⟩
  | add delay interval => exact ⟨Iff.rfl, .inr ⟨rfl, .inl rfl⟩⟩
  | @advance index pc hi =>
    cases pc with
    | inserted expire => exact ⟨Iff.rfl, .inr ⟨rfl, .inr ⟨_, rfl⟩⟩⟩
    | _ => exact ⟨Iff.rfl, .inr ⟨rfl, .inl rfl⟩⟩
  | cancel id => exact ⟨Iff.rfl, .inr ⟨rfl, .inl rfl⟩⟩
  | process hpc => exact absurd rfl hp
  | finish hpc => exact absurd rfl hf
  | taken hpc | passed hpc | claimed hpc | gone hpc | emptied hpc | dropped hpc | rearmed hpc
  | invoke hpc | resume hpc =>
    exact ⟨⟨(fun he => by cases he), (fun he => by rw [hpc] at he; cases he)⟩, .inr ⟨rfl, .inl rfl⟩⟩

namespace Ticking
variable {slack : Nat} {s u : Ticking}

variable (o slack) in
structure Beats (s : Ticking) : Prop where
  waits : Waits o s.world
  nonneg : Nonneg s.world
  completed : s.completed ≤ s.world.clock
  least : kMinWakeUpDuration ≤ s.world.channel.lastWakeupUs
  busy : s.world.pc ≠ .idle → s.world.channel.Remembers s.world.clock
  idle : s.world.pc = .idle → ∃ alarm,
    s.world.channel.Reaches slack alarm (s.completed + pause o slack - slack) ∧
      s.completed ≤ alarm ∧ s.world.clock ≤ alarm + slack

variable (slack) in
theorem reaches_finish {c : TimerChannel} {now clock : Int} (hr : c.Remembers clock)
    (hl : kMinWakeUpDuration ≤ c.lastWakeupUs) (hn : now ≤ clock)
    (hfit : o.tick + 100 ≤ int64Max) :
    ∃ alarm, (wakeUp o c clock (now + o.tick)).Reaches slack alarm
      (clock + pause o slack - slack) ∧ clock ≤ alarm := by
  have hfloor := Int.ediv_mul_le (now + o.tick) (Int.ne_of_gt o.tick_pos)
  obtain ⟨duration, hd⟩ : ∃ duration, duration = (now + o.tick) / o.tick * o.tick - clock := ⟨_, rfl⟩
  have hle : duration ≤ o.tick := by omega
  simp only [kMinWakeUpDuration] at hl
  obtain ⟨last, hlast⟩ := Int.eq_ofNat_of_zero_le (a := c.lastWakeupUs) (by omega)
  rw [wakeUp, TimerChannel.wakeUpAt, ← hd]
  by_cases hk : TimerChannel.keeps c.lastWakeupUs (max duration kMinWakeUpDuration)
  · rw [TimerChannel.wake_up_after_keeps hk]
    simp only [TimerChannel.keeps, kMinWakeUpDuration, hlast] at hk
    rcases hr with hmax | ⟨deadline, hdead, hbound⟩
    · simp only [int64Max] at hmax hfit
      omega
    · have hper : last ≤ period o := by
        simp only [period]
        omega
      rw [hlast] at hbound
      exact ⟨clock + last, TimerChannel.reaches_period hdead hbound hlast (by omega) hper, by omega⟩
  · rw [TimerChannel.wake_up_after_arms hk]
    obtain ⟨next, hnext⟩ :=
      Int.eq_ofNat_of_zero_le (a := max duration kMinWakeUpDuration) (by simp only [kMinWakeUpDuration]; omega)
    have hper : next ≤ period o := by
      simp only [period, kMinWakeUpDuration] at hnext ⊢
      omega
    have hmin : 100 ≤ next := by
      simp only [kMinWakeUpDuration] at hnext
      omega
    rw [hnext]
    exact ⟨clock + next, TimerChannel.reaches_period rfl (Int.le_refl _) rfl hmin hper, by omega⟩

theorem beats_init {clock : Int} (h : 0 ≤ clock) : Beats o slack (init clock) where
  waits := waits_init clock
  nonneg := nonneg_init h
  completed := Int.le_refl _
  least := TimerChannel.wake_up_after_least clock _ (by decide)
  busy hpc := absurd rfl hpc
  idle _ := by
    have hk : ¬ TimerChannel.keeps TimerChannel.create.lastWakeupUs
        (max (clock - clock) kMinWakeUpDuration) := by
      rw [Int.sub_self]
      decide
    have hc : TimerChannel.create.wakeUpAt clock clock = ⟨100, some (clock + 100)⟩ := by
      rw [TimerChannel.wakeUpAt, TimerChannel.wake_up_after_arms hk, Int.sub_self]
      rfl
    refine ⟨clock + 100, ?_, by simp only [init]; omega, ?_⟩
    · have hp : 100 ≤ period o := by
        simp only [period]
        omega
      simp only [init, World.init, hc]
      have hu : (⟨(100 : Nat), some (clock + 100)⟩ : TimerChannel).lastWakeupUs = (100 : Nat) := rfl
      exact TimerChannel.reaches_period rfl (Int.le_refl _) hu (Nat.le_refl _) hp
    · simp only [init, World.init]
      omega

theorem step_other {a : Action} (hp : a ≠ .process) (hf : a ≠ .finish) (h : step o s a = some u) :
    ∃ w, TimerHashWheel.step o s.world a = some w ∧ u = { s with world := w } := by
  cases a with
  | process => exact absurd rfl hp
  | finish => exact absurd rfl hf
  | _ =>
    simp only [step] at h
    obtain ⟨w, hw, rfl⟩ := Option.map_eq_some_iff.mp h
    exact ⟨w, hw, rfl⟩

theorem beats_other {a : Action} (b : Beats o slack s) (hg : Prompt slack s a) (hp : a ≠ .process)
    (hf : a ≠ .finish) (h : step o s a = some u) : Beats o slack u := by
  obtain ⟨w, hw, rfl⟩ := step_other hp hf h
  obtain ⟨hidle, hchannel⟩ := moves_channel (step_moves hw) hp hf
  have hc := b.completed
  have hwaits := waits_step b.waits (fun he => absurd he hp) hw
  have hnonneg := nonneg_step b.nonneg b.waits.ahead hw
  rcases hchannel with ⟨usecs, rfl, hclock, hsame⟩ | ⟨hclock, hsame | ⟨duration, hask⟩⟩
  · refine ⟨hwaits, hnonneg, by simp only; omega, hsame ▸ b.least, fun hpc => ?_, fun hpc => ?_⟩
    · have hr := b.busy fun he => hpc (hidle.mpr he)
      simp only [hsame]
      exact TimerChannel.remembers_later hr (by omega)
    · obtain ⟨alarm, hr, hle, -⟩ := b.idle (hidle.mp hpc)
      refine ⟨alarm, hsame ▸ hr, hle, ?_⟩
      obtain ⟨deadline, -, hd, hda, -⟩ := hr
      have := hg (hidle.mp hpc) deadline hd
      simp only
      omega
  · refine ⟨hwaits, hnonneg, by simp only; omega, hsame ▸ b.least, fun hpc => ?_, fun hpc => ?_⟩
    · simp only [hsame, hclock]
      exact b.busy fun he => hpc (hidle.mpr he)
    · simp only [hsame, hclock]
      exact b.idle (hidle.mp hpc)
  · refine ⟨hwaits, hnonneg, by simp only; omega, ?_, fun hpc => ?_, fun hpc => ?_⟩
    · simp only [hask]
      exact TimerChannel.wake_up_after_least _ _ b.least
    · simp only [hask, hclock]
      exact TimerChannel.remembers_wake_up_after _ (b.busy fun he => hpc (hidle.mpr he))
    · obtain ⟨alarm, hr, hle, hcl⟩ := b.idle (hidle.mp hpc)
      simp only [hask, hclock]
      rcases TimerChannel.reaches_wake_up_after duration hr hcl with hr | ⟨later, hl, hr⟩
      · exact ⟨alarm, hr, hle, hcl⟩
      · exact ⟨later, hr, by omega, by omega⟩

theorem beats_step {a : Action} (hfit : o.tick + 100 ≤ int64Max) (b : Beats o slack s)
    (hg : Prompt slack s a) (h : step o s a = some u) : Beats o slack u := by
  by_cases hp : a = .process
  · subst hp
    simp only [step] at h
    split at h
    · obtain ⟨w, hw, rfl⟩ := Option.map_eq_some_iff.mp h
      have hwait := waits_channel b.waits (s.world.channel.handleEvents s.world.clock)
      have hwaits := waits_step hwait (fun _ => hg) hw
      have hread : Nonneg { s.world with channel := s.world.channel.handleEvents s.world.clock } :=
        ⟨b.nonneg.clock, b.nonneg.last, b.nonneg.pending⟩
      have hnonneg := nonneg_step hread hwait.ahead hw
      cases step_moves hw with
      | process hpc =>
        exact ⟨hwaits, hnonneg, b.completed, (by decide : kMinWakeUpDuration ≤ int64Max),
          fun _ => TimerChannel.remembers_handle_events _ _, fun he => by cases he⟩
    · cases h
  · by_cases hf : a = .finish
    · subst hf
      obtain ⟨w, hw, rfl⟩ := Option.map_eq_some_iff.mp h
      have hwaits := waits_step b.waits (fun he => absurd he hp) hw
      have hnonneg := nonneg_step b.nonneg b.waits.ahead hw
      cases step_moves hw with
      | @finish now hpc =>
        have hn : now ≤ s.world.clock := by
          simpa [World.base, hpc, Pc.base] using b.waits.ahead.clock
        obtain ⟨alarm, hr, hle⟩ := reaches_finish slack (b.busy (by simp [hpc])) b.least hn hfit
        exact ⟨hwaits, hnonneg, Int.le_refl _, TimerChannel.wake_up_after_least _ _ b.least,
          fun he => absurd rfl he, fun _ => ⟨alarm, hr, hle, by simp only; omega⟩⟩
    · exact beats_other b hg hp hf h

-- How far a timer that still waits can be overdue.
variable (o slack) in
def Timely (s : Ticking) : Prop :=
  s.world.pc = .idle → ∀ i, ∀ id ∈ (s.world.wheel.buckets i).values,
    s.world.clock < s.world.pending id + o.tick + (s.completed - s.world.wheel.last) + pause o slack

theorem beats_timely (b : Beats o slack s) : Timely o slack s := by
  intro hpc i id hid
  obtain ⟨alarm, hr, -, hclock⟩ := b.idle hpc
  have halarm := TimerChannel.reaches_alarm hr
  have hticks := (b.waits.ahead.bucket i id hid).1
  have hlast := Int.ediv_nonneg b.nonneg.last (Int.le_of_lt o.tick_pos)
  have hpend := Int.ediv_nonneg (b.nonneg.pending id) (Int.le_of_lt o.tick_pos)
  have hdiv : s.world.wheel.last / o.tick ≤ s.world.pending id / o.tick := by
    simp only [getTicks] at hticks
    omega
  have hmul := Int.mul_le_mul_of_nonneg_right hdiv (Int.le_of_lt o.tick_pos)
  have h1 := Int.ediv_mul_le (s.world.pending id) (Int.ne_of_gt o.tick_pos)
  have h2 := Int.lt_ediv_add_one_mul_self s.world.wheel.last o.tick_pos
  rw [Int.add_mul, Int.one_mul] at h2
  omega

end Ticking
end TimerHashWheel
end Pedronet
