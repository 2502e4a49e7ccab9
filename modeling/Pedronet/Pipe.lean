import Mathlib.Data.List.Basic

-- One direction of a byte stream: what has been sent and not yet received, whether the sender has
-- ended it, and whether anything sent has been lost.
structure Pipe (α : Type) where
  flying : List α
  ended : Bool
  cut : Bool
deriving DecidableEq, Repr

namespace Pipe
variable {α : Type}

def empty : Pipe α := ⟨[], false, false⟩

def push (p : Pipe α) (l : List α) : Pipe α :=
  if p.cut then p else { p with flying := p.flying ++ l }

def pull (p : Pipe α) (n : Nat) : Pipe α := { p with flying := p.flying.drop n }

def lose (p : Pipe α) (n : Nat) : Pipe α := { p with flying := p.flying.take n, cut := true }

def finish (p : Pipe α) : Pipe α := { p with ended := true }

@[simp] theorem push_ended (p : Pipe α) (l : List α) : (p.push l).ended = p.ended := by
  unfold push
  split <;> rfl

@[simp] theorem push_cut (p : Pipe α) (l : List α) : (p.push l).cut = p.cut := by
  unfold push
  split <;> rfl

@[simp] theorem pull_ended (p : Pipe α) (n : Nat) : (p.pull n).ended = p.ended := rfl

@[simp] theorem pull_cut (p : Pipe α) (n : Nat) : (p.pull n).cut = p.cut := rfl

@[simp] theorem lose_ended (p : Pipe α) (n : Nat) : (p.lose n).ended = p.ended := rfl

@[simp] theorem finish_ended (p : Pipe α) : p.finish.ended = true := rfl

@[simp] theorem finish_cut (p : Pipe α) : p.finish.cut = p.cut := rfl

structure Carries (p : Pipe α) (sent received : List α) : Prop where
  part : received ++ p.flying <+: sent
  whole : p.cut = false → received ++ p.flying = sent

variable {p : Pipe α} {sent received : List α}

theorem carries_empty : (empty : Pipe α).Carries [] [] := ⟨List.prefix_rfl, fun _ => rfl⟩

theorem carries_push (h : p.Carries sent received) (l : List α) :
    (p.push l).Carries (sent ++ l) received := by
  unfold push
  split
  · rename_i hc
    exact ⟨h.part.trans (List.prefix_append _ _), fun hn => by rw [hc] at hn; cases hn⟩
  · rename_i hc
    have he : received ++ (p.flying ++ l) = sent ++ l := by
      rw [← List.append_assoc, h.whole (Bool.eq_false_iff.mpr hc)]
    exact ⟨he ▸ List.prefix_rfl, fun _ => he⟩

theorem carries_pull (h : p.Carries sent received) (n : Nat) :
    (p.pull n).Carries sent (received ++ p.flying.take n) := by
  have he : received ++ p.flying.take n ++ p.flying.drop n = received ++ p.flying := by
    rw [List.append_assoc, List.take_append_drop]
  exact ⟨he ▸ h.part, fun hc => he.trans (h.whole hc)⟩

theorem carries_lose (h : p.Carries sent received) (n : Nat) :
    (p.lose n).Carries sent received := by
  refine ⟨List.IsPrefix.trans ?_ h.part, fun hc => by cases hc⟩
  exact (List.prefix_append_right_inj received).mpr (List.take_prefix n p.flying)

theorem carries_finish (h : p.Carries sent received) : p.finish.Carries sent received :=
  ⟨h.part, h.whole⟩

theorem carries_received (h : p.Carries sent received) : received <+: sent :=
  (List.prefix_append _ _).trans h.part

end Pipe
