import Pedronet.TimerChannel.Concurrent

namespace Pedronet
namespace TimerChannel
namespace Concurrent
variable {w t : World}

-- The difference is the argument of std::abs.
def Call.Fits (call : Call) : Prop :=
  match call.pc with
  | .test us => isInt64 (call.usec - us) ∧ isInt64 (call.usec - us).natAbs
  | .load | .exchange _ | .settime => True

instance : DecidablePred Call.Fits := fun call => by
  unfold Call.Fits
  split <;> infer_instance

def FitsInt64 (w : World) : Prop := ∀ call ∈ w.calls, call.Fits

instance : DecidablePred FitsInt64 := fun _ => inferInstanceAs (Decidable (∀ _ ∈ _, _))

-- No call loads last_wakeup_us_ between the two stores of HandleEvents.
def LoadsOutside (w : World) : Action → Prop
  | .advance index => ∀ call ∈ w.calls[index]?, call.pc = .load → w.handle = .outside
  | .elapse _ | .wakeUpAfter _ | .handleEvents | .read | .store => True

instance (w : World) : DecidablePred (LoadsOutside w)
  | .advance index => inferInstanceAs (Decidable (∀ _ ∈ w.calls[index]?, _ → _))
  | .elapse _ | .wakeUpAfter _ | .handleEvents | .read | .store => isTrue trivial

def WakeUp (us : Int) : Prop := kMinWakeUpDuration ≤ us ∧ us ≤ int64Max

def Call.InRange (call : Call) : Prop :=
  WakeUp call.usec ∧
    match call.pc with
    | .exchange us => int64Min < us
    | .load | .test _ | .settime => True

structure Ranged (w : World) : Prop where
  outside : w.handle = .outside → WakeUp w.channel.lastWakeupUs
  inside : w.handle ≠ .outside → w.channel.lastWakeupUs = int64Min
  calls : ∀ call ∈ w.calls, call.InRange

theorem fits_wake_up {usec us : Int} (h : WakeUp usec) (hu : WakeUp us) :
    isInt64 (usec - us) ∧ isInt64 (usec - us).natAbs := by
  simp only [WakeUp, isInt64, kMinWakeUpDuration, int64Min, int64Max] at h hu ⊢
  omega

theorem not_fits_min {usec : Int} (h : WakeUp usec) : ¬ isInt64 (usec - int64Min) := by
  simp only [WakeUp, isInt64, kMinWakeUpDuration, int64Min, int64Max] at h ⊢
  omega

theorem wake_up_max : WakeUp int64Max := by
  constructor <;> decide

theorem ranged_init (clock : Int) : Ranged (.init clock .create) where
  outside _ := wake_up_max
  inside h := absurd rfl h
  calls _ h := by cases h

theorem ranged_set (r : Ranged w) {index : Nat} {call : Call} {pc : CallPc}
    (hc : w.calls[index]? = some call) (hi : Call.InRange { call with pc := pc }) :
    ∀ c ∈ w.calls.set index { call with pc := pc }, c.InRange := by
  intro c hm
  rcases Pool.mem_set hc hm with rfl | hm
  · exact hi
  · exact r.calls c hm

-- In the middle of HandleEvents an exchange fails: it expects a value that was worth lowering.
theorem ranged_advance (r : Ranged w) {index : Nat} {call : Call}
    (hc : w.calls[index]? = some call) (h : Advances w index call t) : Ranged t := by
  obtain ⟨hu, hpc'⟩ := r.calls call (List.mem_of_getElem? hc)
  cases h with
  | load => exact ⟨r.outside, r.inside, ranged_set r hc ⟨hu, trivial⟩⟩
  | keeps => exact ⟨r.outside, r.inside, fun c hm => r.calls c (List.mem_of_mem_eraseIdx hm)⟩
  | test hpc hk =>
    refine ⟨r.outside, r.inside, ranged_set r hc ⟨hu, ?_⟩⟩
    simp only [TimerChannel.keeps, WakeUp, kMinWakeUpDuration, not_or, int64Min] at hk hu ⊢
    omega
  | exchange hpc =>
    rw [hpc] at hpc'
    refine ⟨fun _ => hu, fun ho => ?_, ranged_set r hc ⟨hu, trivial⟩⟩
    exact absurd (r.inside ho) (Int.ne_of_gt hpc')
  | changed => exact ⟨r.outside, r.inside, ranged_set r hc ⟨hu, trivial⟩⟩
  | settime => exact ⟨r.outside, r.inside, fun c hm => r.calls c (List.mem_of_mem_eraseIdx hm)⟩

theorem ranged_step {a : Action} (r : Ranged w) (h : step w a = some t) : Ranged t := by
  cases a with
  | elapse usecs =>
    cases h
    exact ⟨r.outside, r.inside, r.calls⟩
  | wakeUpAfter duration =>
    obtain ⟨⟨-, hd⟩, rfl⟩ := step_wake_up_after h
    refine ⟨r.outside, r.inside, fun c hm => ?_⟩
    rcases List.mem_append.mp hm with hm | hm
    · exact r.calls c hm
    · rw [List.mem_singleton.mp hm]
      refine ⟨?_, trivial⟩
      simp only [WakeUp, kMinWakeUpDuration, int64Max] at hd ⊢
      omega
  | advance index =>
    obtain ⟨call, hc, hadv⟩ := step_advance h
    exact ranged_advance r hc hadv
  | handleEvents =>
    obtain ⟨-, rfl⟩ := step_handle_events h
    exact ⟨(fun ho => by cases ho), fun _ => rfl, r.calls⟩
  | read =>
    obtain ⟨hh, rfl⟩ := step_read h
    refine ⟨(fun ho => by cases ho), fun _ => ?_, r.calls⟩
    rw [read_last]
    exact r.inside (by simp [hh])
  | store =>
    obtain ⟨-, rfl⟩ := step_store h
    exact ⟨fun _ => wake_up_max, fun ho => absurd rfl ho, r.calls⟩

theorem fits_set (p : FitsInt64 w) {index : Nat} {call : Call} {pc : CallPc}
    (hc : w.calls[index]? = some call) :
    (∀ c ∈ w.calls.set index { call with pc := pc }, c.Fits) ↔
      Call.Fits { call with pc := pc } := by
  constructor
  · exact fun h => h _ (Pool.mem_set_self hc)
  · intro hf c hm
    rcases Pool.mem_set hc hm with rfl | hm
    · exact hf
    · exact p c hm

theorem fits_load (r : Ranged w) {call : Call} (hm : call ∈ w.calls) :
    Call.Fits { call with pc := .test w.channel.lastWakeupUs } ↔ w.handle = .outside := by
  obtain ⟨hu, -⟩ := r.calls call hm
  constructor
  · intro hf
    refine Decidable.byContradiction fun ho => not_fits_min hu ?_
    rw [← r.inside ho]
    exact hf.1
  · exact fun ho => fits_wake_up hu (r.outside ho)

theorem fits_advance (r : Ranged w) (p : FitsInt64 w) {index : Nat} {call : Call}
    (hc : w.calls[index]? = some call) (h : Advances w index call t) :
    FitsInt64 t ↔ (call.pc = .load → w.handle = .outside) := by
  have herase : ∀ c ∈ w.calls.eraseIdx index, c.Fits :=
    fun c hm => p c (List.mem_of_mem_eraseIdx hm)
  cases h with
  | load hpc =>
    have hl := fits_load r (List.mem_of_getElem? hc)
    exact ((fits_set p hc).trans hl).trans ⟨fun ho _ => ho, fun ho => ho hpc⟩
  | keeps hpc => exact ⟨fun _ hl => by simp [hpc] at hl, fun _ => herase⟩
  | test hpc =>
    exact ⟨fun _ hl => by simp [hpc] at hl, fun _ => (fits_set p hc).mpr trivial⟩
  | exchange hpc =>
    exact ⟨fun _ hl => by simp [hpc] at hl, fun _ => (fits_set p hc).mpr trivial⟩
  | changed hpc =>
    exact ⟨fun _ hl => by simp [hpc] at hl, fun _ => (fits_set p hc).mpr trivial⟩
  | settime hpc => exact ⟨fun _ hl => by simp [hpc] at hl, fun _ => herase⟩

theorem fits_step {a : Action} (r : Ranged w) (p : FitsInt64 w) (h : step w a = some t) :
    FitsInt64 t ↔ LoadsOutside w a := by
  cases a with
  | wakeUpAfter duration =>
    obtain ⟨-, rfl⟩ := step_wake_up_after h
    refine ⟨fun _ => trivial, fun _ c hm => ?_⟩
    rcases List.mem_append.mp hm with hm | hm
    · exact p c hm
    · rw [List.mem_singleton.mp hm]
      trivial
  | advance index =>
    obtain ⟨call, hc, hadv⟩ := step_advance h
    rw [fits_advance r p hc hadv]
    simp [LoadsOutside, hc]
  | elapse usecs =>
    cases h
    exact ⟨fun _ => trivial, fun _ => p⟩
  | handleEvents =>
    obtain ⟨-, rfl⟩ := step_handle_events h
    exact ⟨fun _ => trivial, fun _ => p⟩
  | read =>
    obtain ⟨-, rfl⟩ := step_read h
    exact ⟨fun _ => trivial, fun _ => p⟩
  | store =>
    obtain ⟨-, rfl⟩ := step_store h
    exact ⟨fun _ => trivial, fun _ => p⟩

theorem fits_int64_iff (clock : Int) (as : List Action) :
    system.Always FitsInt64 (.init clock .create) as ↔
      system.Along LoadsOutside (.init clock .create) as :=
  Transition.System.always_iff_along (M := system) (F := fun _ _ => True)
    (fun _ _ _ r _ h => ranged_step r h) (fun _ _ _ r p _ h => fits_step r p h)
    (ranged_init clock) (fun _ hm => by cases hm) Transition.System.along_true

theorem difference_overflows :
    ¬ ∀ clock as, system.Always FitsInt64 (.init clock .create) as := by
  intro h
  have hf := h 0 [.wakeUpAfter 100, .handleEvents, .advance 0]
  revert hf
  decide

end Concurrent
end TimerChannel
end Pedronet
