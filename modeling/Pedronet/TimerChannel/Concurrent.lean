import Pedronet.TimerChannel
import Pedronet.Transition
import Pedronet.Pool

namespace Pedronet

namespace Itimerspec

def usec (v : Itimerspec) : Int := v.tvSec * kMicroseconds + v.tvNsec / 1000

def ofUsec (usec : Int) : Itimerspec := ⟨usec / kMicroseconds, usec % kMicroseconds * 1000⟩

theorem usec_of_usec (usec : Int) : (ofUsec usec).usec = usec := by
  have h := TimerChannel.settime_usec 0 usec
  simp only [timerfdSettime, Option.some.injEq, Int.zero_add] at h
  exact h

end Itimerspec

namespace TimerChannel
namespace Concurrent

inductive CallPc where
  | load
  | test (us : Int)
  | exchange (us : Int)
  | settime
deriving DecidableEq, Repr

structure Call where
  caller : Nat
  usec : Int
  pc : CallPc
deriving DecidableEq, Repr

inductive HandlePc where
  | outside
  | read
  | store
deriving DecidableEq, Repr

structure Recorded where
  caller : Nat
  usec : Int
deriving DecidableEq, Repr

structure Programmed where
  caller : Nat
  value : Itimerspec
deriving DecidableEq, Repr

-- `recorded` and `programmed` are history: the exchanges that succeeded, the last one first, and
-- the last call of timerfd_settime.
structure World where
  clock : Int
  channel : TimerChannel
  handle : HandlePc
  calls : List Call
  issued : Nat
  recorded : List Recorded
  programmed : Option Programmed
deriving DecidableEq, Repr

inductive Action where
  | elapse (usecs : Nat)
  | wakeUpAfter (duration : Int)
  | advance (index : Nat)
  | handleEvents
  | read
  | store
deriving DecidableEq, Repr

def World.init (clock : Int) (channel : TimerChannel) : World :=
  ⟨clock, channel, .outside, [], 0, [], none⟩

def World.advance (w : World) (index : Nat) (call : Call) : World :=
  match call.pc with
  | .load => { w with calls := w.calls.set index { call with pc := .test w.channel.lastWakeupUs } }
  | .test us =>
    if keeps us call.usec then { w with calls := w.calls.eraseIdx index }
    else { w with calls := w.calls.set index { call with pc := .exchange us } }
  | .exchange us =>
    if w.channel.lastWakeupUs = us then
      { w with
        channel := { w.channel with lastWakeupUs := call.usec }
        calls := w.calls.set index { call with pc := .settime }
        recorded := ⟨call.caller, call.usec⟩ :: w.recorded }
    else { w with calls := w.calls.set index { call with pc := .load } }
  | .settime =>
    { w with
      channel := { w.channel with timerfd := timerfdSettime w.clock (.ofUsec call.usec) }
      calls := w.calls.eraseIdx index
      programmed := some ⟨call.caller, .ofUsec call.usec⟩ }

def step (w : World) : Action → Option World
  | .elapse usecs => some { w with clock := w.clock + usecs }
  | .wakeUpAfter duration =>
    if isInt64 duration then
      some { w with
        calls := w.calls ++ [⟨w.issued, max duration kMinWakeUpDuration, .load⟩]
        issued := w.issued + 1 }
    else none
  | .advance index =>
    match w.calls[index]? with
    | some call => some (w.advance index call)
    | none => none
  | .handleEvents =>
    match w.handle with
    | .outside =>
      some { w with channel := { w.channel with lastWakeupUs := int64Min }, handle := .read }
    | _ => none
  | .read =>
    match w.handle with
    | .read => some { w with channel := w.channel.read w.clock, handle := .store }
    | _ => none
  | .store =>
    match w.handle with
    | .store =>
      some { w with channel := { w.channel with lastWakeupUs := int64Max }, handle := .outside }
    | _ => none

def system : Transition.System World Action where
  start w := ∃ clock, w = .init clock .create
  step := step

variable {w t : World}

theorem step_wake_up_after {duration : Int} (h : step w (.wakeUpAfter duration) = some t) :
    isInt64 duration ∧ t = { w with
      calls := w.calls ++ [⟨w.issued, max duration kMinWakeUpDuration, .load⟩]
      issued := w.issued + 1 } := by
  simp only [step] at h
  split at h
  · rename_i hd
    exact ⟨hd, by simpa using h.symm⟩
  · cases h

inductive Advances (w : World) (index : Nat) (call : Call) : World → Prop where
  | load (h : call.pc = .load) : Advances w index call
      { w with calls := w.calls.set index { call with pc := .test w.channel.lastWakeupUs } }
  | keeps {us : Int} (h : call.pc = .test us) (hk : keeps us call.usec) :
    Advances w index call { w with calls := w.calls.eraseIdx index }
  | test {us : Int} (h : call.pc = .test us) (hk : ¬ TimerChannel.keeps us call.usec) :
    Advances w index call { w with calls := w.calls.set index { call with pc := .exchange us } }
  | exchange (h : call.pc = .exchange w.channel.lastWakeupUs) : Advances w index call
      { w with
        channel := { w.channel with lastWakeupUs := call.usec }
        calls := w.calls.set index { call with pc := .settime }
        recorded := ⟨call.caller, call.usec⟩ :: w.recorded }
  | changed {us : Int} (h : call.pc = .exchange us) (hne : w.channel.lastWakeupUs ≠ us) :
    Advances w index call { w with calls := w.calls.set index { call with pc := .load } }
  | settime (h : call.pc = .settime) : Advances w index call
      { w with
        channel := { w.channel with timerfd := timerfdSettime w.clock (.ofUsec call.usec) }
        calls := w.calls.eraseIdx index
        programmed := some ⟨call.caller, .ofUsec call.usec⟩ }

theorem advance_advances (w : World) (index : Nat) (call : Call) :
    Advances w index call (w.advance index call) := by
  unfold World.advance
  split
  · exact .load ‹_›
  · split
    · exact .keeps ‹_› ‹_›
    · exact .test ‹_› ‹_›
  · rename_i us hpc
    split
    · rename_i hus
      subst hus
      exact .exchange hpc
    · exact .changed hpc ‹_›
  · exact .settime ‹_›

theorem step_advance {index : Nat} (h : step w (.advance index) = some t) :
    ∃ call, w.calls[index]? = some call ∧ Advances w index call t := by
  simp only [step] at h
  split at h
  · rename_i call hc
    cases h
    exact ⟨call, hc, advance_advances w index call⟩
  · cases h

theorem step_handle_events (h : step w .handleEvents = some t) : w.handle = .outside ∧
    t = { w with channel := { w.channel with lastWakeupUs := int64Min }, handle := .read } := by
  simp only [step] at h
  split at h
  · rename_i hh
    exact ⟨hh, by simpa using h.symm⟩
  · cases h

theorem step_read (h : step w .read = some t) :
    w.handle = .read ∧ t = { w with channel := w.channel.read w.clock, handle := .store } := by
  simp only [step] at h
  split at h
  · rename_i hh
    exact ⟨hh, by simpa using h.symm⟩
  · cases h

theorem step_store (h : step w .store = some t) : w.handle = .store ∧
    t = { w with channel := { w.channel with lastWakeupUs := int64Max }, handle := .outside } := by
  simp only [step] at h
  split at h
  · rename_i hh
    exact ⟨hh, by simpa using h.symm⟩
  · cases h

theorem read_last (c : TimerChannel) (now : Int) : (c.read now).lastWakeupUs = c.lastWakeupUs := by
  unfold TimerChannel.read
  split
  · split <;> rfl
  · rfl

-- With no other thread in between, a call does what the whole of WakeUpAfter does.
theorem call_alone (w : World) {duration : Int} (hd : isInt64 duration) (hc : w.calls = []) :
    ∃ as t, system.run w (.wakeUpAfter duration :: as) = some t ∧ t.calls = [] ∧
      t.channel = w.channel.wakeUpAfter w.clock duration := by
  obtain ⟨clock, channel, handle, calls, issued, recorded, programmed⟩ := w
  subst hc
  by_cases hk : keeps channel.lastWakeupUs (max duration kMinWakeUpDuration)
  · refine ⟨[.advance 0, .advance 0],
      ⟨clock, channel, handle, [], issued + 1, recorded, programmed⟩, ?_, rfl, ?_⟩
    · simp [Transition.System.run, system, step, World.advance, hd, hk]
    · exact (wake_up_after_keeps hk).symm
  · let usec := max duration kMinWakeUpDuration
    refine ⟨[.advance 0, .advance 0, .advance 0, .advance 0],
      ⟨clock, ⟨usec, timerfdSettime clock (.ofUsec usec)⟩, handle, [], issued + 1,
        ⟨issued, usec⟩ :: recorded, some ⟨issued, .ofUsec usec⟩⟩, ?_, rfl, ?_⟩
    · simp [Transition.System.run, system, step, World.advance, hd, hk, usec]
    · simp only [wakeUpAfter, if_neg hk]
      rfl

theorem handle_events_alone {w : World} (hh : w.handle = .outside) :
    ∃ t, system.run w [.handleEvents, .read, .store] = some t ∧ t.handle = .outside ∧
      t.channel = w.channel.handleEvents w.clock := by
  obtain ⟨clock, channel, handle, calls, issued, recorded, programmed⟩ := w
  subst hh
  exact ⟨_, rfl, rfl, rfl⟩

end Concurrent
end TimerChannel
end Pedronet
