import Mathlib.Data.List.Basic

namespace Pedronet
namespace Acceptor

def EAGAIN : Nat := 11
def EWOULDBLOCK : Nat := EAGAIN
def EMFILE : Nat := 24
def ECONNABORTED : Nat := 103

inductive Arrival where
  | good
  | aborted
deriving DecidableEq, Repr

-- What the kernel holds for the listening socket, and the descriptors the process has left.
structure Listener where
  backlog : List Arrival
  free : List Int
deriving DecidableEq, Repr

def accept4 (l : Listener) : Except Nat Int × Listener :=
  match l.backlog, l.free with
  | [], _ => (.error EAGAIN, l)
  | _ :: _, [] => (.error EMFILE, l)
  | .aborted :: rest, _ :: _ => (.error ECONNABORTED, { l with backlog := rest })
  | .good :: rest, fd :: free => (.ok fd, ⟨rest, free⟩)

-- The code of the error, 0 for none, and the socket.
def accept (l : Listener) : Nat × Option Int × Listener :=
  match accept4 l with
  | (.ok file, l) => (0, some file, l)
  | (.error errno, l) => (errno, none, l)

-- `state` is what the accept callback keeps.
structure Reading (σ : Type) where
  listener : Listener
  state : σ
deriving DecidableEq, Repr

variable {σ : Type}

-- A socket that no callback takes closes its descriptor.
def handle (callback : Option (σ → Int → σ)) (r : Reading σ) : Option Int → Reading σ
  | some socket =>
    match callback with
    | some f => { r with state := f r.state socket }
    | none => { r with listener := { r.listener with free := socket :: r.listener.free } }
  | none => r

def onRead (callback : Option (σ → Int → σ)) : Nat → Reading σ → Option (Reading σ)
  | 0, _ => none
  | fuel + 1, r =>
    let (err, socket, listener) := accept r.listener
    if err ≠ 0 then
      if err = EAGAIN ∨ err = EWOULDBLOCK then some { r with listener := listener }
      else onRead callback fuel { r with listener := listener }
    else onRead callback fuel (handle callback { r with listener := listener } socket)

def Ends (callback : σ → Int → σ) (r : Reading σ) : Prop :=
  ∃ fuel t, onRead (some callback) fuel r = some t

def goods (backlog : List Arrival) : Nat := backlog.count .good

variable {callback : σ → Int → σ} {state : σ} {rest : List Arrival} {fd : Int} {free : List Int}

theorem on_read_empty (fuel : Nat) :
    onRead (some callback) (fuel + 1) ⟨⟨[], free⟩, state⟩ = some ⟨⟨[], free⟩, state⟩ := rfl

theorem on_read_full (a : Arrival) (fuel : Nat) :
    onRead (some callback) (fuel + 1) ⟨⟨a :: rest, []⟩, state⟩ =
      onRead (some callback) fuel ⟨⟨a :: rest, []⟩, state⟩ := rfl

theorem on_read_aborted (fuel : Nat) :
    onRead (some callback) (fuel + 1) ⟨⟨.aborted :: rest, fd :: free⟩, state⟩ =
      onRead (some callback) fuel ⟨⟨rest, fd :: free⟩, state⟩ := rfl

theorem on_read_good (fuel : Nat) :
    onRead (some callback) (fuel + 1) ⟨⟨.good :: rest, fd :: free⟩, state⟩ =
      onRead (some callback) fuel ⟨⟨rest, free⟩, callback state fd⟩ := rfl

theorem ends_next {r s : Reading σ}
    (h : ∀ fuel, onRead (some callback) (fuel + 1) r = onRead (some callback) fuel s) :
    Ends callback r ↔ Ends callback s := by
  constructor
  · rintro ⟨fuel, t, ht⟩
    cases fuel with
    | zero => cases ht
    | succ fuel => exact ⟨fuel, t, h fuel ▸ ht⟩
  · rintro ⟨fuel, t, ht⟩
    exact ⟨fuel + 1, t, (h fuel).trans ht⟩

-- EMFILE takes nothing off the backlog, so the next turn is the same again.
theorem never_ends (a : Arrival) : ¬ Ends callback ⟨⟨a :: rest, []⟩, state⟩ := by
  rintro ⟨fuel, t, ht⟩
  induction fuel with
  | zero => cases ht
  | succ fuel ih => exact ih (on_read_full a fuel ▸ ht)

theorem goods_drop_last (a : Arrival) (h : rest ≠ []) :
    goods (a :: rest).dropLast = goods rest.dropLast + if a = .good then 1 else 0 := by
  rw [List.dropLast_cons_of_ne_nil h]
  simp [goods, List.count_cons]

theorem accept_loop_ends_iff (callback : σ → Int → σ) (r : Reading σ) :
    Ends callback r ↔
      r.listener.backlog = [] ∨ goods r.listener.backlog.dropLast < r.listener.free.length := by
  obtain ⟨⟨backlog, free⟩, state⟩ := r
  induction backlog generalizing free state with
  | nil => exact iff_of_true ⟨1, _, on_read_empty 0⟩ (.inl rfl)
  | cons a rest ih =>
    cases free with
    | nil => exact iff_of_false (never_ends a) (by simp)
    | cons fd free =>
      have hlast : goods (a :: rest).dropLast < (fd :: free).length ↔
          rest = [] ∨ goods rest.dropLast + (if a = .good then 1 else 0) < free.length + 1 := by
        by_cases hr : rest = []
        · subst hr
          simp [goods]
        · simp [goods_drop_last a hr, hr]
      simp only [hlast, reduceCtorEq, false_or]
      cases a with
      | aborted =>
        rw [ends_next on_read_aborted, ih]
        simp
      | good =>
        rw [ends_next on_read_good, ih]
        simp

theorem on_read_drains {fuel : Nat} {r t : Reading σ}
    (h : onRead (some callback) fuel r = some t) :
    t.listener.backlog = [] ∧
      t.state = (r.listener.free.take (goods r.listener.backlog)).foldl callback r.state ∧
      t.listener.free = r.listener.free.drop (goods r.listener.backlog) := by
  induction fuel generalizing r with
  | zero => cases h
  | succ fuel ih =>
    obtain ⟨⟨backlog, free⟩, state⟩ := r
    cases backlog with
    | nil =>
      cases h
      simp [goods]
    | cons a rest =>
      cases free with
      | nil => exact absurd ⟨_, _, h⟩ (never_ends a)
      | cons fd free =>
        cases a with
        | aborted => simpa [goods] using ih h
        | good => simpa [goods, handle] using ih h

theorem full_never_ends : ¬ ∀ r : Reading (List Int), Ends (fun fds fd => fds ++ [fd]) r := by
  intro h
  exact never_ends .good ((ends_next on_read_good).mp (h ⟨⟨[.good, .good], [7]⟩, []⟩))

end Acceptor
end Pedronet
