import Pedronet.EpollSelector.Delivers
import Pedronet.Poller.Delivers

namespace Pedronet
namespace Registry

structure Watched where
  registry : Registry
  poller : Poller
  epoll : EpollSelector

namespace Watched

def create : Watched := ⟨.create, .create, .create⟩

inductive Action where
  | call (call : Call)
  | poll (kernel : Option Kernel)
  | epollWait (answer : Option (Kernel × List Int))

def step (w : Watched) : Action → Option Watched
  | .call c => (w.registry.step c).map fun r => ⟨r, w.poller.call c, w.epoll.call c⟩
  | .poll none => some { w with poller := w.poller.wait none }
  | .poll (some kernel) => some { w with poller := w.poller.polls kernel }
  | .epollWait none => (w.epoll.wait none).map fun e => { w with epoll := e }
  | .epollWait (some (kernel, fds)) =>
    (w.epoll.polls kernel fds).map fun e => { w with epoll := e }

def system : Transition.System Watched Action where
  start w := w = create
  step := step

-- poll(2) needs the Updates to find their entries; epoll_wait(2) answers as the kernel does.
def Settled (w : Watched) : SelectorType → Action → Prop
  | .kPoll, .call c => w.poller.Settled w.registry c
  | .kEpoll, .epollWait (some (kernel, fds)) => w.epoll.Answers kernel fds
  | _, _ => True

-- A Wait that succeeds delivers what is ready of what is registered; epoll_wait(2) leaves the
-- rest for the next call when it has filled the array.
def Delivers (w : Watched) : SelectorType → Action → Prop
  | .kPoll, .poll (some kernel) => (w.poller.polls kernel).batch.Perm (w.registry.ready kernel)
  | .kEpoll, .epollWait (some (kernel, fds)) => ∃ e, w.epoll.polls kernel fds = some e ∧
    e.batch.Subperm (w.registry.ready kernel) ∧
      (e.len < w.epoll.buf.length → e.batch.Perm (w.registry.ready kernel))
  | _, _ => True

def Follows (w : Watched) : SelectorType → Prop
  | .kPoll => w.poller.Follows w.registry
  | .kEpoll => w.epoll.Follows w.registry

variable {w t : Watched} {type : SelectorType}

theorem poller_step {a : Action} (f : w.poller.Follows w.registry) (hs : Settled w .kPoll a)
    (h : step w a = some t) : t.poller.Follows t.registry := by
  cases a with
  | call c =>
    obtain ⟨r, hr, rfl⟩ := Option.map_eq_some_iff.mp h
    exact Poller.follows_call f hr hs
  | poll kernel =>
    cases kernel with
    | none =>
      cases h
      have hp : Poller.step w.poller (.wait none) = some (w.poller.wait none) := rfl
      exact Poller.follows_wait f hp
    | some kernel =>
      cases h
      exact Poller.follows_wait f (Poller.step_polls w.poller kernel)
  | epollWait answer =>
    cases answer with
    | none =>
      simp only [step, Option.map_eq_some_iff] at h
      obtain ⟨e, -, rfl⟩ := h
      exact f
    | some answer =>
      obtain ⟨e, -, rfl⟩ := Option.map_eq_some_iff.mp h
      exact f

theorem epoll_step {a : Action} (f : w.epoll.Follows w.registry) (h : step w a = some t) :
    t.epoll.Follows t.registry := by
  cases a with
  | call c =>
    obtain ⟨r, hr, rfl⟩ := Option.map_eq_some_iff.mp h
    exact EpollSelector.follows_call f hr
  | poll kernel => cases kernel <;> cases h <;> exact f
  | epollWait answer =>
    cases answer with
    | none =>
      simp only [step, Option.map_eq_some_iff] at h
      obtain ⟨e, he, rfl⟩ := h
      exact EpollSelector.follows_wait f he
    | some answer =>
      obtain ⟨e, he, rfl⟩ := Option.map_eq_some_iff.mp h
      exact EpollSelector.follows_wait f he

theorem registry_step {a : Action} (h : step w a = some t) :
    (∃ call, a = .call call ∧ w.registry.step call = some t.registry) ∨
      t.registry = w.registry := by
  cases a with
  | call call =>
    obtain ⟨r, hr, rfl⟩ := Option.map_eq_some_iff.mp h
    exact .inl ⟨call, rfl, hr⟩
  | poll kernel => cases kernel <;> cases h <;> exact .inr rfl
  | epollWait answer =>
    refine .inr ?_
    cases answer with
    | none =>
      simp only [step, Option.map_eq_some_iff] at h
      obtain ⟨e, -, rfl⟩ := h
      rfl
    | some answer =>
      obtain ⟨e, -, rfl⟩ := Option.map_eq_some_iff.mp h
      rfl

theorem follows_step {a : Action} (f : Follows w type) (hs : Settled w type a)
    (h : step w a = some t) : Follows t type := by
  cases type with
  | kPoll => exact poller_step f hs h
  | kEpoll => exact epoll_step f h

theorem delivers_step {a : Action} (f : Follows w type) (hs : Settled w type a) :
    Delivers w type a := by
  cases type with
  | kPoll =>
    cases a with
    | poll kernel =>
      cases kernel with
      | none => trivial
      | some kernel => exact Poller.batch_polls f kernel
    | _ => trivial
  | kEpoll =>
    cases a with
    | epollWait answer =>
      cases answer with
      | none => trivial
      | some answer =>
        obtain ⟨e, he, -⟩ := EpollSelector.polls_some hs
        exact ⟨e, he, EpollSelector.delivers_polls f hs he⟩
    | _ => trivial

theorem follows_create : Follows create type := by
  cases type with
  | kPoll => exact Poller.follows_create
  | kEpoll => exact EpollSelector.follows_create

theorem selectors_deliver (type : SelectorType) (as : List Action)
    (h : system.Along (fun w a => Settled w type a) create as) :
    system.Along (fun w a => Delivers w type a) create as :=
  Transition.System.along_of_along (I := fun w => Follows w type)
    (fun _ _ _ f hs ht => follows_step f hs ht) (fun _ _ _ f hs _ => delivers_step f hs)
    follows_create h

def onlyFour : Kernel := fun i asked => if i = 4 then asked &&& 1 else 0

def readable : List Action :=
  [.call (.add ⟨32, 4⟩ .kReadEvent), .poll (some onlyFour), .epollWait (some (onlyFour, [4]))]

theorem answers_four {e : EpollSelector} (hr : e.revents onlyFour 4 ≠ 0) (hb : 1 ≤ e.buf.length) :
    e.Answers onlyFour [4] := by
  refine ⟨List.nodup_singleton 4, fun i hi => ?_, hb, fun _ i hi => ?_⟩
  · cases List.mem_singleton.mp hi
    exact hr
  · refine List.mem_singleton.mpr (Decidable.byContradiction fun hne => hi ?_)
    cases hint : e.interest i <;> simp [EpollSelector.revents, onlyFour, hint, hne]

theorem selectors_deliver_readable :
    system.Along (fun w a => Delivers w .kPoll a) create readable ∧
      system.Along (fun w a => Delivers w .kEpoll a) create readable := by
  have hadd : Poller.Settled create.registry create.poller (.add ⟨32, 4⟩ .kReadEvent) := by decide
  constructor
  · exact selectors_deliver .kPoll readable (Transition.System.along_cons rfl hadd
      (Transition.System.along_cons rfl trivial fun t _ => ⟨trivial, trivial⟩))
  · refine selectors_deliver .kEpoll readable (Transition.System.along_cons rfl trivial
      (Transition.System.along_cons rfl trivial fun t _ => ⟨answers_four ?_ ?_, trivial⟩))
    · decide
    · change 1 ≤ (List.replicate 256 (⟨0, 0⟩ : EpollSelector.EpollEvent)).length
      rw [List.length_replicate]
      decide

end Watched
end Registry
end Pedronet
