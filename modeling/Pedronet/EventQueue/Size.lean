import Pedronet.EventQueue.LockFree
import Mathlib.Algebra.Group.Nat.Defs

namespace Pedronet
namespace EventLockFreeQueue
variable {κ : Type} [DecidableEq κ] {w t : World κ}

-- The callbacks whose Add has begun and that have not been run are `issued` less `executed`.
def SizeBounded (w : World κ) : Prop :=
  w.state.size.toNat + w.executed.length ≤ (EventQueue.issued w).length

instance : DecidablePred (SizeBounded (κ := κ)) := fun _ => inferInstanceAs (Decidable (_ ≤ _))

-- Process takes no more off size_ than the producers have put on it.
def Deducts (w : World κ) : EventQueue.Action (eventQueue κ) → Prop
  | .process _ => (undeducted w.status.consumer).length ≤ w.state.size.toNat
  | .add _ _ | .advance _ | .handleEvents | .resume => True

instance (w : World κ) : DecidablePred (Deducts w)
  | .process _ => inferInstanceAs (Decidable (_ ≤ _))
  | .add _ _ | .advance _ | .handleEvents | .resume => isTrue trivial

def Balanced (w : World κ) : Prop :=
  uncounted w ≤ w.state.queue.length + (undeducted w.status.consumer).length

def Few (w : World κ) : Prop := (EventQueue.issued w).length + w.calls.length < 2 ^ 63

theorem size_cases (c : Counted w) :
    (w.state.size.toNat + uncounted w) % 2 ^ 64 =
      (w.state.queue.length + (undeducted w.status.consumer).length) % 2 ^ 64 := by
  have h := congrArg BitVec.toNat c.size
  rw [BitVec.toNat_add, BitVec.toNat_ofNat, BitVec.toNat_ofNat] at h
  rwa [Nat.add_mod_mod] at h

theorem size_le (c : Counted w) (b : Balanced w) : w.state.size.toNat + uncounted w ≤
    w.state.queue.length + (undeducted w.status.consumer).length := by
  have h := size_cases c
  have hlt := w.state.size.isLt
  simp only [Balanced] at b
  omega

theorem held_le (k : Kept w) :
    w.executed.length + (w.state.queue.length + (undeducted w.status.consumer).length) ≤
      (EventQueue.issued w).length := by
  have hp := k.perm.length_eq
  have hu : (undeducted w.status.consumer).length ≤ (inHand w.status.consumer).length := by
    rcases w.status.consumer with _ | (_ | taken | rest)
    · exact Nat.le_refl _
    · exact Nat.le_refl _
    · exact Nat.le_refl _
    · exact Nat.zero_le _
  simp only [List.length_append] at hp
  simp only [EventQueue.issued, List.length_append]
  omega

theorem size_bounded_of_balanced (c : Counted w) (k : Kept w) (b : Balanced w) :
    SizeBounded w := by
  have hs := size_le c b
  have hh := held_le k
  simp only [SizeBounded]
  omega

theorem balanced_of_size_bounded (c : Counted w) (k : Kept w) (f : Few w) (h : SizeBounded w) :
    Balanced w := by
  have hs := size_cases c
  have hh := held_le k
  have hu : uncounted w ≤ w.calls.length := List.countP_le_length
  have hlt := w.state.size.isLt
  simp only [SizeBounded, Few] at h f
  simp only [Balanced]
  omega

theorem balanced_advance (b : Balanced w) {index : Nat} {call : EventQueue.Call (eventQueue κ)}
    (hc : w.calls[index]? = some call) : Balanced (w.advance index call) := by
  obtain ⟨own, callback, pc⟩ := call
  simp only [Balanced, uncounted] at b ⊢
  cases pc with
  | enqueue =>
    have hu := Pool.count_set (b := ⟨own, callback, AddPc.fetchAdd⟩)
      (fun call => call.pc == AddPc.fetchAdd) hc
    simp only [beq_self_eq_true, if_true, reduceCtorEq, beq_iff_eq, if_false, Nat.add_zero] at hu
    rw [advance_enqueue, hu]
    simp only [List.length_append, List.length_singleton]
    omega
  | fetchAdd =>
    by_cases hz : w.state.size = 0
    · have hu := Pool.count_set (b := ⟨own, callback, AddPc.wakeUp⟩)
        (fun call => call.pc == AddPc.fetchAdd) hc
      simp only [beq_self_eq_true, if_true, reduceCtorEq, beq_iff_eq, if_false, Nat.add_zero] at hu
      rw [advance_fetch_add_zero index own callback hz]
      simp only
      omega
    · have hu := Pool.count_erase (fun call => call.pc == AddPc.fetchAdd) hc
      simp only [beq_self_eq_true, if_true] at hu
      rw [advance_fetch_add index own callback hz]
      simp only
      omega
  | wakeUp =>
    have hu := Pool.count_erase (fun call => call.pc == AddPc.fetchAdd) hc
    simp only [beq_iff_eq, reduceCtorEq, if_false, Nat.add_zero] at hu
    rw [advance_wake_up, hu]
    exact b

theorem balanced_process (b : Balanced w) {consumer : ProcessPc κ} {choice : List κ × List κ}
    {u : EventLockFreeQueue κ} {next : Next κ (ProcessPc κ)}
    (hw : w.status = .processing consumer) (hp : process w.state consumer choice = some (u, next)) :
    (Balanced (w.follow u next) ↔ uncounted w ≤ w.state.queue.length) ∨
      undeducted w.status.consumer = [] ∧ Balanced (w.follow u next) := by
  simp only [Balanced] at b
  rw [hw] at b ⊢
  cases consumer with
  | dequeue =>
    rcases process_dequeue hp with ⟨-, rfl, rfl⟩ | ⟨taken, rest, hperm, rfl, rfl⟩
    · exact .inr ⟨rfl, b⟩
    · refine .inr ⟨rfl, ?_⟩
      have hl := hperm.length_eq
      rw [List.length_append] at hl
      simp only [Balanced, EventQueue.World.follow, EventQueue.Status.consumer, undeducted,
        uncounted, List.length_nil] at b ⊢
      omega
  | fetchSub taken =>
    simp only [process, Option.some.injEq, Prod.mk.injEq] at hp
    obtain ⟨rfl, rfl⟩ := hp
    exact .inl Iff.rfl
  | run rest =>
    cases rest with
    | nil =>
      simp only [process, Option.some.injEq, Prod.mk.injEq] at hp
      obtain ⟨rfl, rfl⟩ := hp
      exact .inr ⟨rfl, b⟩
    | cons callback rest =>
      simp only [process, Option.some.injEq, Prod.mk.injEq] at hp
      obtain ⟨rfl, rfl⟩ := hp
      exact .inr ⟨rfl, b⟩

theorem balanced_step {a : EventQueue.Action (eventQueue κ)} (b : Balanced w)
    (h : EventQueue.step w a = some t) :
    (∃ choice, a = .process choice ∧ (Balanced t ↔ uncounted w ≤ w.state.queue.length)) ∨
      Deducts w a ∧ Balanced t := by
  cases a with
  | add own callback =>
    obtain rfl := EventQueue.step_add h
    refine .inr ⟨trivial, ?_⟩
    simpa [Balanced, uncounted] using b
  | advance index =>
    obtain ⟨call, hc, rfl⟩ := EventQueue.step_advance h
    exact .inr ⟨trivial, balanced_advance b hc⟩
  | handleEvents =>
    obtain ⟨ho, -, rfl⟩ := EventQueue.step_handle_events h
    rw [Balanced, ho] at b
    exact .inr ⟨trivial, b⟩
  | process choice =>
    obtain ⟨consumer, u, next, hw, hp, rfl⟩ := EventQueue.step_process h
    rcases balanced_process b hw hp with hq | ⟨hn, ht⟩
    · exact .inl ⟨choice, rfl, hq⟩
    · exact .inr ⟨by simp [Deducts, hn], ht⟩
  | resume =>
    obtain ⟨callback, consumer, hw, rfl⟩ := EventQueue.step_resume h
    rw [Balanced, hw] at b
    exact .inr ⟨trivial, b⟩

theorem balanced_of_deducts {a : EventQueue.Action (eventQueue κ)} (c : Counted w)
    (b : Balanced w) (hd : Deducts w a) (h : EventQueue.step w a = some t) : Balanced t := by
  rcases balanced_step b h with ⟨choice, rfl, hq⟩ | ⟨-, ht⟩
  · have hs := size_le c b
    simp only [Deducts] at hd
    exact hq.mpr (by omega)
  · exact ht

theorem deducts_of_balanced {a : EventQueue.Action (eventQueue κ)} (c : Counted w) (k : Kept w)
    (f : Few w) (b : Balanced w) (h : EventQueue.step w a = some t) (ht : Balanced t) :
    Deducts w a := by
  rcases balanced_step b h with ⟨choice, rfl, hq⟩ | ⟨hd, -⟩
  · have hs := size_cases c
    have hh := held_le k
    have hn := hq.mp ht
    have hlt := w.state.size.isLt
    simp only [Balanced, Few] at b f
    simp only [Deducts]
    omega
  · exact hd

def Sound (w : World κ) : Prop := Counted w ∧ Kept w

theorem sound_step {a : EventQueue.Action (eventQueue κ)} (s : Sound w)
    (h : EventQueue.step w a = some t) : Sound t :=
  ⟨counted_step s.1 h, kept_step s.2 h⟩

theorem sound_init : Sound (.init (eventQueue κ)) :=
  ⟨⟨rfl, fun _ => .inr (.inr (Nat.le_refl 0))⟩, .nil, fun _ => ⟨[], [], rfl, .nil, .nil⟩⟩

theorem size_bounded_of_deducts {as : List (EventQueue.Action (eventQueue κ))}
    (h : (system κ).Along Deducts (.init _) as) :
    (system κ).Always SizeBounded (.init _) as :=
  Transition.System.always_of_along (M := system κ) (I := fun w => Sound w ∧ Balanced w)
    (fun _ _ _ ⟨s, b⟩ hd h => ⟨sound_step s h, balanced_of_deducts s.1 b hd h⟩)
    (fun _ ⟨s, b⟩ => size_bounded_of_balanced s.1 s.2 b) ⟨sound_init, Nat.le_refl 0⟩ h

theorem deducts_of_size_bounded {as : List (EventQueue.Action (eventQueue κ))}
    (hf : (system κ).Always Few (.init _) as) (h : (system κ).Always SizeBounded (.init _) as) :
    (system κ).Along Deducts (.init _) as := by
  refine (Transition.System.always_iff_along (M := system κ) (I := Sound)
    (fun _ _ _ s _ h => sound_step s h) (fun w a t s p f ht => ?_) sound_init
    (size_bounded_of_balanced sound_init.1 sound_init.2 (Nat.le_refl 0))
    (Transition.System.along_of_always hf)).mp h
  obtain ⟨hfw, hft⟩ := f
  have b := balanced_of_size_bounded s.1 s.2 hfw p
  have st := sound_step s ht
  constructor
  · exact fun hp =>
      deducts_of_balanced s.1 s.2 hfw b ht (balanced_of_size_bounded st.1 st.2 (hft t ht) hp)
  · exact fun hd => size_bounded_of_balanced st.1 st.2 (balanced_of_deducts s.1 b hd ht)

-- Only with about 2^63 calls in progress could a wrapped size_ be below the bound by accident.
theorem size_bounded (as : List (EventQueue.Action (eventQueue κ))) :
    ((system κ).Along Deducts (.init _) as → (system κ).Always SizeBounded (.init _) as) ∧
      ((system κ).Always Few (.init _) as →
        ((system κ).Always SizeBounded (.init _) as ↔ (system κ).Along Deducts (.init _) as)) :=
  ⟨size_bounded_of_deducts, fun hf => ⟨deducts_of_size_bounded hf, size_bounded_of_deducts⟩⟩

-- One producer has put its element in and not counted it when Process, awake for another one's,
-- has taken and counted off both.
def countedLate : List (EventQueue.Action (eventQueue Nat)) :=
  [.add false 1, .advance 0, .advance 0, .advance 0, .handleEvents, .add false 2, .advance 0,
    .process ([1, 2], []), .process ([], [])]

theorem size_wraps :
    ¬ ∀ as : List (EventQueue.Action (eventQueue Nat)),
      (system Nat).Always SizeBounded (.init _) as := by
  intro h
  have hs := Transition.System.always_last (h countedLate) rfl
  revert hs
  decide

end EventLockFreeQueue
end Pedronet
