namespace Pedronet

def int64Max : Int := 9223372036854775807
def int64Min : Int := -9223372036854775808

def isInt64 (n : Int) : Prop := int64Min ≤ n ∧ n ≤ int64Max

instance : DecidablePred isInt64 := fun _ => inferInstanceAs (Decidable (_ ∧ _))

-- What a sum leaves in an int64. Its overflow has no meaning in the source, and wraps in fact.
def toInt64 (n : Int) : Int := n.bmod 18446744073709551616

theorem to_int64_fits {n : Int} (h : isInt64 n) : toInt64 n = n := by
  simp only [isInt64, int64Min, int64Max] at h
  exact Int.bmod_eq_of_le (by omega) (by omega)

def kMicroseconds : Int := 1000000
def kMinWakeUpDuration : Int := 100

structure Itimerspec where
  tvSec : Int
  tvNsec : Int
deriving DecidableEq, Repr

-- The kernel replaces the armed deadline and drops an expiration nobody has read.
def timerfdSettime (now : Int) (v : Itimerspec) : Option Int :=
  some (now + v.tvSec * kMicroseconds + v.tvNsec / 1000)

structure TimerChannel where
  lastWakeupUs : Int
  timerfd : Option Int
deriving DecidableEq, Repr

namespace TimerChannel

def create : TimerChannel := ⟨int64Max, none⟩

def read (c : TimerChannel) (now : Int) : TimerChannel :=
  match c.timerfd with
  | some deadline => if deadline ≤ now then { c with timerfd := none } else c
  | none => c

def handleEvents (c : TimerChannel) (now : Int) : TimerChannel :=
  { ({ c with lastWakeupUs := int64Min }.read now) with lastWakeupUs := int64Max }

def keeps (us usec : Int) : Prop := (usec - us).natAbs < 100 ∨ usec > us

instance (us usec : Int) : Decidable (keeps us usec) := inferInstanceAs (Decidable (_ ∨ _))

def wakeUpAfter (c : TimerChannel) (now : Int) (duration : Int) : TimerChannel :=
  let usec := max duration kMinWakeUpDuration
  if keeps c.lastWakeupUs usec then c
  else ⟨usec, timerfdSettime now ⟨usec / kMicroseconds, usec % kMicroseconds * 1000⟩⟩

def wakeUpAt (c : TimerChannel) (now timestamp : Int) : TimerChannel :=
  c.wakeUpAfter now (timestamp - now)

theorem settime_usec (now usec : Int) :
    timerfdSettime now ⟨usec / kMicroseconds, usec % kMicroseconds * 1000⟩ = some (now + usec) := by
  have hdiv : usec % kMicroseconds * 1000 / 1000 = usec % kMicroseconds := by omega
  have hmod := Int.mul_ediv_add_emod usec kMicroseconds
  simp only [timerfdSettime, hdiv, Option.some.injEq]
  rw [Int.mul_comm] at hmod
  omega

theorem wake_up_after_keeps {c : TimerChannel} {now duration : Int}
    (h : keeps c.lastWakeupUs (max duration kMinWakeUpDuration)) :
    c.wakeUpAfter now duration = c := if_pos h

theorem wake_up_after_arms {c : TimerChannel} {now duration : Int}
    (h : ¬ keeps c.lastWakeupUs (max duration kMinWakeUpDuration)) :
    c.wakeUpAfter now duration =
      ⟨max duration kMinWakeUpDuration, some (now + max duration kMinWakeUpDuration)⟩ := by
  simp only [wakeUpAfter, if_neg h, settime_usec]

def Remembers (c : TimerChannel) (now : Int) : Prop :=
  c.lastWakeupUs = int64Max ∨ ∃ deadline, c.timerfd = some deadline ∧ deadline ≤ now + c.lastWakeupUs

theorem remembers_create (now : Int) : create.Remembers now := .inl rfl

theorem remembers_later {c : TimerChannel} {now later : Int} (h : c.Remembers now)
    (hl : now ≤ later) : c.Remembers later := by
  rcases h with h | ⟨deadline, hd, hle⟩
  · exact .inl h
  · exact .inr ⟨deadline, hd, by omega⟩

theorem remembers_handle_events (c : TimerChannel) (now : Int) :
    (c.handleEvents now).Remembers now := .inl rfl

theorem remembers_wake_up_after {c : TimerChannel} {now : Int} (duration : Int)
    (h : c.Remembers now) : (c.wakeUpAfter now duration).Remembers now := by
  by_cases hk : keeps c.lastWakeupUs (max duration kMinWakeUpDuration)
  · rwa [wake_up_after_keeps hk]
  · rw [wake_up_after_arms hk]
    exact .inr ⟨_, rfl, Int.le_refl _⟩

theorem keeps_deadline {c : TimerChannel} {now duration : Int} (h : c.Remembers now)
    (hd : duration + 100 ≤ int64Max)
    (hk : keeps c.lastWakeupUs (max duration kMinWakeUpDuration)) :
    ∃ deadline, c.timerfd = some deadline ∧ deadline ≤ now + max duration 0 + 199 := by
  rcases h with h | ⟨deadline, ht, hle⟩
  · simp only [keeps, h, kMinWakeUpDuration, int64Max] at hk hd
    omega
  · simp only [keeps, kMinWakeUpDuration] at hk
    exact ⟨deadline, ht, by omega⟩

theorem wake_up_after_in_time {c : TimerChannel} {now : Int} (duration : Int)
    (h : c.Remembers now) (hd : duration + 100 ≤ int64Max) :
    ∃ deadline, (c.wakeUpAfter now duration).timerfd = some deadline ∧
      deadline ≤ now + max duration 0 + 199 := by
  by_cases hk : keeps c.lastWakeupUs (max duration kMinWakeUpDuration)
  · rw [wake_up_after_keeps hk]
    exact keeps_deadline h hd hk
  · rw [wake_up_after_arms hk]
    exact ⟨_, rfl, by simp only [kMinWakeUpDuration]; omega⟩

end TimerChannel
end Pedronet
