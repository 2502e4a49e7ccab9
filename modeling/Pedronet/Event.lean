import Mathlib.Tactic.ByContra

namespace Pedronet

def POLLIN : BitVec 32 := 0x001
def POLLPRI : BitVec 32 := 0x002
def POLLOUT : BitVec 32 := 0x004
def POLLERR : BitVec 32 := 0x008
def POLLHUP : BitVec 32 := 0x010
def POLLNVAL : BitVec 32 := 0x020
def POLLRDHUP : BitVec 32 := 0x2000

structure SelectEvents where
  value : BitVec 32
deriving DecidableEq, Repr

namespace SelectEvents

def kNoneEvent : SelectEvents := ⟨0⟩
def kReadEvent : SelectEvents := ⟨POLLIN ||| POLLPRI⟩
def kWriteEvent : SelectEvents := ⟨POLLOUT⟩

def contains (events other : SelectEvents) : Bool := events.value &&& other.value != 0

def add (events other : SelectEvents) : SelectEvents := ⟨events.value ||| other.value⟩

def remove (events other : SelectEvents) : SelectEvents := ⟨events.value &&& ~~~other.value⟩

theorem contains_iff {events other : SelectEvents} :
    events.contains other = true ↔ ∃ i, events.value.getLsbD i = true ∧ other.value.getLsbD i = true := by
  simp only [contains, bne_iff_ne, ne_eq]
  constructor
  · intro h
    by_contra hn
    apply h
    apply BitVec.eq_of_getLsbD_eq
    intro i _
    have hi : ¬ (events.value.getLsbD i = true ∧ other.value.getLsbD i = true) :=
      fun hi => hn ⟨i, hi⟩
    rw [BitVec.getLsbD_and, show (0 : BitVec 32).getLsbD i = false by simp, Bool.eq_false_iff]
    simpa using hi
  · rintro ⟨i, he, ho⟩ h
    have := congrArg (fun v => v.getLsbD i) h
    simp [he, ho] at this

theorem contains_add {events other : SelectEvents} (h : other.value ≠ 0) :
    (events.add other).contains other = true := by
  have ho : other.contains other = true := by simpa [contains] using h
  obtain ⟨i, hi, -⟩ := contains_iff.mp ho
  exact contains_iff.mpr ⟨i, by simp [add, hi], hi⟩

theorem contains_remove {events other : SelectEvents} :
    (events.remove other).contains other = false := by
  rw [Bool.eq_false_iff]
  intro h
  obtain ⟨i, he, ho⟩ := contains_iff.mp h
  simp [remove, ho] at he

theorem contains_add_other {events other third : SelectEvents}
    (h : other.contains third = false) :
    (events.add other).contains third = events.contains third := by
  rw [Bool.eq_iff_iff, contains_iff, contains_iff]
  constructor
  · rintro ⟨i, hi, ht⟩
    simp only [add, BitVec.getLsbD_or, Bool.or_eq_true] at hi
    rcases hi with hi | hi
    · exact ⟨i, hi, ht⟩
    · have := contains_iff.mpr ⟨i, hi, ht⟩
      rw [h] at this
      cases this
  · rintro ⟨i, hi, ht⟩
    exact ⟨i, by simp [add, hi], ht⟩

end SelectEvents

structure ReceiveEvents where
  value : BitVec 32
deriving DecidableEq, Repr

namespace ReceiveEvents

def kHangUp : ReceiveEvents := ⟨POLLHUP⟩
def kInvalid : ReceiveEvents := ⟨POLLNVAL⟩
def kError : ReceiveEvents := ⟨POLLERR⟩
def kReadable : ReceiveEvents := ⟨POLLIN⟩
def kPriorReadable : ReceiveEvents := ⟨POLLPRI⟩
def kReadHangUp : ReceiveEvents := ⟨POLLRDHUP⟩
def kWritable : ReceiveEvents := ⟨POLLOUT⟩

def contains (events other : ReceiveEvents) : Bool := events.value &&& other.value != 0

def oneOf (events : ReceiveEvents) (others : List ReceiveEvents) : Bool := others.any events.contains

end ReceiveEvents
end Pedronet
