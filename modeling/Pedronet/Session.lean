import Pedronet.Transition.Trace
import Mathlib.Algebra.GroupWithZero.Nat

-- The life of a session that comes about once: its owner dials until it is up or gives up, asks for
-- its end at most once, and never gets another one.
inductive Session where
  | idle
  | dialling
  | up
  | leaving
  | gone
deriving DecidableEq, Repr

namespace Session

-- `κ` tells the ways apart in which the owner can ask for the end.
inductive Event (κ : Type) where
  | dial
  | giveUp
  | connect
  | leave (way : κ)
  | vanish
deriving DecidableEq, Repr

variable {κ : Type}

def step : Session → Event κ → Option Session
  | .idle, .dial => some .dialling
  | .dialling, .giveUp => some .idle
  | .dialling, .connect => some .up
  | .up, .leave _ => some .leaving
  | .up, .vanish | .leaving, .vanish => some .gone
  | _, _ => none

variable (κ) in
def system : Transition.System Session (Event κ) where
  start s := s = .idle
  step := step

def Event.connects : Event κ → Nat
  | .connect => 1
  | _ => 0

def Event.ways : Event κ → List κ
  | .leave way => [way]
  | _ => []

def connected : Session → Nat
  | .idle | .dialling => 0
  | .up | .leaving | .gone => 1

def asked : Session → Nat
  | .idle | .dialling | .up => 0
  | .leaving | .gone => 1

variable {s t : Session}

theorem asked_le (s : Session) : s.asked ≤ 1 := by cases s <;> decide

theorem connects_step {e : Event κ} (h : step s e = some t) :
    e.connects + s.connected = t.connected := by
  cases s <;> cases e <;> cases h <;> rfl

theorem ways_step {e : Event κ} (h : step s e = some t) : e.ways.length + s.asked ≤ t.asked := by
  cases s <;> cases e <;> cases h <;> simp [Event.ways, asked]

theorem connects_run {es : List (Event κ)} (h : (system κ).run s es = some t) :
    (es.map Event.connects).sum + s.connected = t.connected := by
  induction es generalizing s with
  | nil =>
    cases h
    exact Nat.zero_add _
  | cons e es ih =>
    obtain ⟨u, hu, ht⟩ := Transition.System.run_cons h
    have hs := connects_step hu
    have hr := ih ht
    rw [List.map_cons, List.sum_cons]
    omega

theorem ways_run {es : List (Event κ)} (h : (system κ).run s es = some t) :
    (es.flatMap Event.ways).length + s.asked ≤ t.asked := by
  induction es generalizing s with
  | nil =>
    cases h
    exact Nat.le_of_eq (Nat.zero_add _)
  | cons e es ih =>
    obtain ⟨u, hu, ht⟩ := Transition.System.run_cons h
    have hs := ways_step hu
    have hr := ih ht
    rw [List.flatMap_cons, List.length_append]
    omega

theorem run_gone {es : List (Event κ)} (h : (system κ).run .gone es = some t) :
    es = [] ∧ t = .gone := by
  cases es with
  | nil =>
    cases h
    exact ⟨rfl, rfl⟩
  | cons e es =>
    obtain ⟨u, hu, -⟩ := Transition.System.run_cons h
    cases e <;> cases hu

end Session
