import Pedronet.Transition
import Pedronet.OrderedMultimap
import Pedronet.TimerChannel

namespace Pedronet
namespace TimerHashWheel

structure Entry where
  rounds : Nat
  id : Nat
  interval : Int
deriving DecidableEq, Repr

structure Options where
  tick : Int
  buckets : Nat
  tick_pos : 0 < tick
  buckets_pos : 0 < buckets

abbrev Bucket := OrderedMultimap Nat Nat

def Bucket.add (b : Bucket) (rounds id : Nat) : Bucket := OrderedMultimap.insert b rounds id

def Bucket.pop (b : Bucket) (rounds : Nat) : Option (List Nat × Bucket) :=
  match b.popMin with
  | none => none
  | some (first, ids, rest) => if first > rounds then none else some (ids, rest)

end TimerHashWheel

open TimerHashWheel

structure TimerHashWheel where
  last : Int
  counter : Nat
  buckets : Nat → Bucket
  table : Nat → Option Entry

namespace TimerHashWheel
variable (o : Options)

def getTicks (ts : Int) : Nat := (ts / o.tick).toNat

def getRounds (ts : Int) : Nat := getTicks o ts / o.buckets

def bucketOf (ts : Int) : Nat := getTicks o ts % o.buckets

def setEntry (w : TimerHashWheel) (id : Nat) (entry : Entry) : TimerHashWheel :=
  { w with table := fun i => if i = id then some entry else w.table i }

def cancel (w : TimerHashWheel) (id : Nat) : TimerHashWheel :=
  { w with table := fun i => if i = id then none else w.table i }

def insert (w : TimerHashWheel) (expire : Int) (id : Nat) : TimerHashWheel :=
  { w with buckets := fun i =>
      if i = bucketOf o expire then (w.buckets i).add (getRounds o expire) id else w.buckets i }

-- The entry is shared: a timer cancelled meanwhile is written to and stays out of the table.
def setRounds (w : TimerHashWheel) (id rounds : Nat) : TimerHashWheel :=
  { w with table := fun i =>
      if i = id then (w.table i).map fun entry => { entry with rounds := rounds } else w.table i }

def wakeUp (c : TimerChannel) (now expire : Int) : TimerChannel :=
  c.wakeUpAt now (expire / o.tick * o.tick)

def scanned (last now : Int) : List Nat :=
  let t1 := getTicks o last
  let t2 := getTicks o now
  if t2 - t1 < o.buckets then
    let b1 := t1 % o.buckets
    let b2 := t2 % o.buckets
    if b1 ≤ b2 then List.range' b1 (b2 + 1 - b1)
    else List.range' b1 (o.buckets - b1) ++ List.range' 0 (b2 + 1)
  else List.range' 0 o.buckets

inductive AddPc where
  | computed (id : Nat) (expire interval : Int)
  | entered (id : Nat) (expire : Int)
  | inserted (expire : Int)
deriving DecidableEq, Repr

inductive Pc where
  | idle
  | scan (now : Int) (todo : List Nat)
  | entries (now : Int) (ids : List Nat) (todo : List Nat)
  | claimed (now : Int) (timer : Entry) (due : Int) (ids : List Nat) (todo : List Nat)
  | invoke (now : Int) (timer : Entry) (due : Int) (ids : List Nat) (todo : List Nat)
  | callback (now : Int) (ids : List Nat) (todo : List Nat)
deriving DecidableEq, Repr

structure Fired where
  id : Nat
  expire : Int
  now : Int
deriving DecidableEq, Repr

-- `pending` and `fired` are history: the expiry last computed for an id, and the callbacks invoked.
structure World where
  clock : Int
  channel : TimerChannel
  wheel : TimerHashWheel
  adds : List AddPc
  pc : Pc
  pending : Nat → Int
  fired : List Fired

inductive Action where
  | elapse (usecs : Nat)
  | add (delay : Nat) (interval : Int)
  | advance (index : Nat)
  | cancel (id : Nat)
  | process
  | pop
  | claim
  | rearm
  | invoke
  | resume
  | finish
deriving DecidableEq, Repr

def World.init (clock : Int) : World where
  clock := clock
  channel := TimerChannel.create.wakeUpAt clock clock
  wheel := ⟨clock, 0, fun _ => OrderedMultimap.empty, fun _ => none⟩
  adds := []
  pc := .idle
  pending := fun _ => 0
  fired := []

def World.add (w : World) (delay : Nat) (interval : Int) : World :=
  let id := w.wheel.counter + 1
  { w with
    wheel := { w.wheel with counter := id }
    adds := .computed id (w.clock + delay) interval :: w.adds
    pending := fun i => if i = id then w.clock + delay else w.pending i }

def World.advance (w : World) (index : Nat) : AddPc → World
  | .computed id expire interval =>
    { w with
      wheel := w.wheel.setEntry id ⟨getRounds o expire, id, interval⟩
      adds := w.adds.set index (.entered id expire) }
  | .entered id expire =>
    { w with wheel := w.wheel.insert o expire id, adds := w.adds.set index (.inserted expire) }
  | .inserted expire =>
    { w with channel := wakeUp o w.channel w.clock expire, adds := w.adds.eraseIdx index }

def World.rearm (w : World) (expire : Int) (timer : Entry) : World :=
  { w with
    wheel := (w.wheel.setRounds timer.id (getRounds o expire)).insert o expire timer.id
    pending := fun i => if i = timer.id then expire else w.pending i }

def step (w : World) : Action → Option World
  | .elapse usecs => some { w with clock := w.clock + usecs }
  | .add delay interval => some (w.add delay interval)
  | .advance index => (w.adds[index]?).map (w.advance o index)
  | .cancel id => some { w with wheel := w.wheel.cancel id }
  | .process =>
    match w.pc with
    | .idle => some { w with pc := .scan w.clock (scanned o w.wheel.last w.clock) }
    | _ => none
  | .pop =>
    match w.pc with
    | .scan now (i :: todo) =>
      match (w.wheel.buckets i).pop (getRounds o now) with
      | some (ids, rest) =>
        some { w with
          wheel := { w.wheel with buckets := fun j => if j = i then rest else w.wheel.buckets j }
          pc := .entries now ids (i :: todo) }
      | none => some { w with pc := .scan now todo }
    | _ => none
  | .claim =>
    match w.pc with
    | .entries now (id :: ids) todo =>
      match w.wheel.table id with
      | some timer => some { w with pc := .claimed now timer (w.pending id) ids todo }
      | none => some { w with pc := .entries now ids todo }
    | .entries now [] todo => some { w with pc := .scan now todo }
    | _ => none
  | .rearm =>
    match w.pc with
    | .claimed now timer due ids todo =>
      if timer.interval ≤ 0 then
        some { w with wheel := w.wheel.cancel timer.id, pc := .invoke now timer due ids todo }
      else
        some { w.rearm o (now + timer.interval) timer with pc := .invoke now timer due ids todo }
    | _ => none
  | .invoke =>
    match w.pc with
    | .invoke now timer due ids todo =>
      some { w with pc := .callback now ids todo, fired := ⟨timer.id, due, now⟩ :: w.fired }
    | _ => none
  | .resume =>
    match w.pc with
    | .callback now ids todo => some { w with pc := .entries now ids todo }
    | _ => none
  | .finish =>
    match w.pc with
    | .scan now [] =>
      some { w with
        wheel := { w.wheel with last := now }
        channel := wakeUp o w.channel w.clock (now + o.tick)
        pc := .idle }
    | _ => none

def system : Transition.System World Action where
  start w := ∃ clock, 0 ≤ clock ∧ w = World.init clock
  step := step o

variable {o} {w t : World}

variable (o) in
inductive Moves (w : World) : Action → World → Prop where
  | elapse (usecs : Nat) : Moves w (.elapse usecs) { w with clock := w.clock + usecs }
  | add (delay : Nat) (interval : Int) : Moves w (.add delay interval) (w.add delay interval)
  | advance {index : Nat} {pc : AddPc} (hi : w.adds[index]? = some pc) :
    Moves w (.advance index) (w.advance o index pc)
  | cancel (id : Nat) : Moves w (.cancel id) { w with wheel := w.wheel.cancel id }
  | process (hpc : w.pc = .idle) :
    Moves w .process { w with pc := .scan w.clock (scanned o w.wheel.last w.clock) }
  | taken {now : Int} {i : Nat} {todo ids : List Nat} {rest : Bucket}
    (hpc : w.pc = .scan now (i :: todo))
    (hpop : (w.wheel.buckets i).pop (getRounds o now) = some (ids, rest)) :
    Moves w .pop { w with
      wheel := { w.wheel with buckets := fun j => if j = i then rest else w.wheel.buckets j }
      pc := .entries now ids (i :: todo) }
  | passed {now : Int} {i : Nat} {todo : List Nat} (hpc : w.pc = .scan now (i :: todo))
    (hpop : (w.wheel.buckets i).pop (getRounds o now) = none) :
    Moves w .pop { w with pc := .scan now todo }
  | claimed {now : Int} {id : Nat} {ids todo : List Nat} {timer : Entry}
    (hpc : w.pc = .entries now (id :: ids) todo) (ht : w.wheel.table id = some timer) :
    Moves w .claim { w with pc := .claimed now timer (w.pending id) ids todo }
  | gone {now : Int} {id : Nat} {ids todo : List Nat} (hpc : w.pc = .entries now (id :: ids) todo)
    (ht : w.wheel.table id = none) : Moves w .claim { w with pc := .entries now ids todo }
  | emptied {now : Int} {todo : List Nat} (hpc : w.pc = .entries now [] todo) :
    Moves w .claim { w with pc := .scan now todo }
  | dropped {now due : Int} {timer : Entry} {ids todo : List Nat}
    (hpc : w.pc = .claimed now timer due ids todo) (hi : timer.interval ≤ 0) :
    Moves w .rearm { w with
      wheel := w.wheel.cancel timer.id, pc := .invoke now timer due ids todo }
  | rearmed {now due : Int} {timer : Entry} {ids todo : List Nat}
    (hpc : w.pc = .claimed now timer due ids todo) (hi : 0 < timer.interval) :
    Moves w .rearm { w.rearm o (now + timer.interval) timer with
      pc := .invoke now timer due ids todo }
  | invoke {now due : Int} {timer : Entry} {ids todo : List Nat}
    (hpc : w.pc = .invoke now timer due ids todo) :
    Moves w .invoke { w with
      pc := .callback now ids todo, fired := ⟨timer.id, due, now⟩ :: w.fired }
  | resume {now : Int} {ids todo : List Nat} (hpc : w.pc = .callback now ids todo) :
    Moves w .resume { w with pc := .entries now ids todo }
  | finish {now : Int} (hpc : w.pc = .scan now []) :
    Moves w .finish { w with
      wheel := { w.wheel with last := now }
      channel := wakeUp o w.channel w.clock (now + o.tick)
      pc := .idle }

theorem step_moves {a : Action} (h : step o w a = some t) : Moves o w a t := by
  cases a with
  | elapse usecs =>
    cases h
    exact .elapse usecs
  | add delay interval =>
    cases h
    exact .add delay interval
  | advance index =>
    obtain ⟨pc, hi, rfl⟩ := Option.map_eq_some_iff.mp h
    exact .advance hi
  | cancel id =>
    cases h
    exact .cancel id
  | process =>
    simp only [step] at h
    split at h
    · cases h
      exact .process ‹_›
    · cases h
  | pop =>
    simp only [step] at h
    split at h
    · split at h
      · cases h
        exact .taken ‹_› ‹_›
      · cases h
        exact .passed ‹_› ‹_›
    · cases h
  | claim =>
    simp only [step] at h
    split at h
    · split at h
      · cases h
        exact .claimed ‹_› ‹_›
      · cases h
        exact .gone ‹_› ‹_›
    · cases h
      exact .emptied ‹_›
    · cases h
  | rearm =>
    simp only [step] at h
    split at h
    · split at h
      · cases h
        exact .dropped ‹_› ‹_›
      · cases h
        exact .rearmed ‹_› (Int.not_le.mp ‹_›)
    · cases h
  | invoke =>
    simp only [step] at h
    split at h
    · cases h
      exact .invoke ‹_›
    · cases h
  | resume =>
    simp only [step] at h
    split at h
    · cases h
      exact .resume ‹_›
    · cases h
  | finish =>
    simp only [step] at h
    split at h
    · cases h
      exact .finish ‹_›
    · cases h

theorem counter_step {a : Action} (h : step o w a = some t) :
    t.wheel.counter = w.wheel.counter ∨ t.wheel.counter = w.wheel.counter + 1 := by
  cases step_moves h with
  | add delay interval => exact .inr rfl
  | @advance index pc hi => cases pc <;> exact .inl rfl
  | _ => exact .inl rfl

theorem table_cancel (wheel : TimerHashWheel) (id i : Nat) :
    (wheel.cancel id).table i = wheel.table i ∨ (wheel.cancel id).table i = none := by
  simp only [cancel]
  split
  · exact .inr rfl
  · exact .inl rfl

theorem cancel_some {wheel : TimerHashWheel} {id i : Nat} {timer : Entry}
    (h : (wheel.cancel id).table i = some timer) : wheel.table i = some timer := by
  rcases table_cancel wheel id i with he | he
  · exact he.symm.trans h
  · rw [he] at h
    cases h

theorem cancel_live {wheel : TimerHashWheel} {id i : Nat}
    (h : (wheel.cancel id).table i ≠ none) : wheel.table i ≠ none := by
  rcases table_cancel wheel id i with he | he
  · rwa [he] at h
  · exact absurd he h

theorem pop_some {b rest : Bucket} {rounds : Nat} {ids : List Nat}
    (h : b.pop rounds = some (ids, rest)) :
    ∃ first ≤ rounds, b.popMin = some (first, ids, rest) := by
  simp only [Bucket.pop] at h
  split at h
  · cases h
  · rename_i first ids' rest' hp
    split at h
    · cases h
    · rename_i hle
      cases h
      exact ⟨first, not_lt.mp hle, hp⟩

end TimerHashWheel
end Pedronet
