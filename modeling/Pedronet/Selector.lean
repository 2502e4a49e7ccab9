import Pedronet.EpollSelector
import Pedronet.Poller.Locators

namespace Pedronet

open Poller

-- A selector files a channel under `key`; `entry` is the key in the record of the array that Get
-- looks up in `table`.
structure Selector where
  State : Type
  Key : Type
  Result : Type
  decEq : DecidableEq Key
  key : Channel → Key
  create : State
  add : State → Channel → SelectEvents → State
  remove : State → Channel → State
  update : State → Channel → SelectEvents → State
  closed : State → Int → State
  wait : State → Result → Option State
  contain : State → Channel → Bool
  size : State → Nat
  get : State → Nat → Option Channel
  table : State → Key → Option Channel
  entry : State → Nat → Option Key

inductive SelectorType where
  | kEpoll
  | kPoll
deriving DecidableEq, Repr

def EpollSelector.selector : Selector where
  State := EpollSelector
  Key := Nat
  Result := Option (List (Int × BitVec 32))
  decEq := inferInstance
  key channel := channel.address
  create := create
  add := add
  remove := remove
  update := update
  closed := closed
  wait := wait
  contain := contain
  size w := w.len
  get w index := (w.get index).1
  table w := w.channel
  entry w index := w.buf[index]?.map EpollEvent.ptr

def Poller.selector : Selector where
  State := Poller
  Key := Int
  Result := Option (List (BitVec 16))
  decEq := inferInstance
  key channel := channel.fd
  create := create
  add := add
  remove := remove
  update := update
  closed w _ := w
  wait w result := step w (.wait result)
  contain := contain
  size w := w.ready
  get w index := (w.get index).1
  table w fd := (w.channels fd).map Prod.snd
  entry w index := w.buf[index]?.map Pollfd.fd

def makeSelector : SelectorType → Selector
  | .kEpoll => EpollSelector.selector
  | .kPoll => Poller.selector

namespace Selector

-- Channels that are constructed get a number of their own; address and descriptor come back.
inductive Action (Result : Type) where
  | add (object : Nat) (channel : Channel) (events : SelectEvents)
  | remove (channel : Channel)
  | update (channel : Channel) (events : SelectEvents)
  | closed (fd : Int)
  | wait (result : Result)
deriving Repr

-- `object` tells which channel the pointer stored under a key is; `batch` which one each entry had
-- when Wait returned.
structure World (Q : Selector) where
  state : Q.State
  object : Q.Key → Option Nat
  batch : List (Option Nat)

variable {Q : Selector}

def got (Q : Selector) (state : Q.State) (object : Q.Key → Option Nat) (index : Nat) : Option Nat :=
  (Q.get state index).bind fun channel => object (Q.key channel)

def assign (Q : Selector) {β : Type} (f : Q.Key → Option β) (k : Q.Key) (b : Option β) :
    Q.Key → Option β :=
  have := Q.decEq
  fun i => if i = k then b else f i

namespace World

def init : World Q := ⟨Q.create, fun _ => none, []⟩

def add (w : World Q) (object : Nat) (channel : Channel) (events : SelectEvents) : World Q :=
  if Q.contain w.state channel then w
  else { w with
    state := Q.add w.state channel events
    object := Q.assign w.object (Q.key channel) (some object) }

def remove (w : World Q) (channel : Channel) : World Q :=
  if Q.contain w.state channel then
    { w with
      state := Q.remove w.state channel
      object := Q.assign w.object (Q.key channel) none }
  else w

def wait (w : World Q) (state : Q.State) : World Q :=
  { w with
    state := state
    batch := (List.range (Q.size state)).map (Q.got state w.object) }

end World

def step (w : World Q) : Action Q.Result → Option (World Q)
  | .add object channel events => some (w.add object channel events)
  | .remove channel => some (w.remove channel)
  | .update channel events => some { w with state := Q.update w.state channel events }
  | .closed fd => some { w with state := Q.closed w.state fd }
  | .wait result => (Q.wait w.state result).map w.wait

def system (Q : Selector) : Transition.System (World Q) (Action Q.Result) where
  start w := w = .init
  step := step

def Dispatches (w : World Q) : Prop :=
  ∀ i < Q.size w.state, ∀ channel, Q.get w.state i = some channel →
    ∃ object, w.object (Q.key channel) = some object ∧ w.batch[i]? = some (some object)

-- A channel that is registered during a batch does not come under the key of one of its entries,
-- unless it is the channel the entry was reported for.
def Fresh (w : World Q) : Action Q.Result → Prop
  | .add object channel _ => Q.contain w.state channel = false →
    ∀ i < Q.size w.state, Q.entry w.state i = some (Q.key channel) →
      w.batch[i]? = some (some object)
  | .remove _ | .update _ _ | .closed _ | .wait _ => True

structure Same (Q : Selector) (s t : Q.State) : Prop where
  size : Q.size t = Q.size s
  entry : ∀ i < Q.size s, Q.entry t i = Q.entry s i

structure Stores (Q : Selector) (s t : Q.State) (k : Q.Key) (channel : Option Channel) : Prop where
  here : Q.table t k = channel
  other : ∀ i, i ≠ k → Q.table t i = Q.table s i

structure Lawful (Q : Selector) (Inv : Q.State → Prop) : Prop where
  create : Inv Q.create
  empty : Q.size Q.create = 0 ∧ ∀ k, Q.table Q.create k = none
  add {s : Q.State} {channel : Channel} (events : SelectEvents) : Inv s →
    Q.contain s channel = false → Inv (Q.add s channel events) ∧ Q.Same s (Q.add s channel events) ∧
      Q.Stores s (Q.add s channel events) (Q.key channel) (some channel)
  remove {s : Q.State} (channel : Channel) : Inv s →
    Inv (Q.remove s channel) ∧ Q.Same s (Q.remove s channel) ∧
      Q.Stores s (Q.remove s channel) (Q.key channel) none
  update {s : Q.State} (channel : Channel) (events : SelectEvents) : Inv s →
    Inv (Q.update s channel events) ∧ Q.Same s (Q.update s channel events) ∧
      Q.table (Q.update s channel events) = Q.table s
  closed {s : Q.State} (fd : Int) : Inv s →
    Inv (Q.closed s fd) ∧ Q.Same s (Q.closed s fd) ∧ Q.table (Q.closed s fd) = Q.table s
  wait {s t : Q.State} {result : Q.Result} : Inv s → Q.wait s result = some t →
    Inv t ∧ Q.table t = Q.table s
  contain (s : Q.State) (channel : Channel) :
    Q.contain s channel = (Q.table s (Q.key channel)).isSome
  get (s : Q.State) (i : Nat) : Q.get s i = (Q.entry s i).bind (Q.table s)
  own {s : Q.State} {k : Q.Key} {channel : Channel} : Inv s → Q.table s k = some channel →
    Q.key channel = k

variable {Inv : Q.State → Prop}

theorem assign_self {β : Type} (f : Q.Key → Option β) (k : Q.Key) (b : Option β) :
    Q.assign f k b k = b := by
  simp [assign]

theorem assign_other {β : Type} {f : Q.Key → Option β} {k i : Q.Key} {b : Option β} (h : i ≠ k) :
    Q.assign f k b i = f i := by
  simp [assign, h]

theorem same_refl (s : Q.State) : Q.Same s s := ⟨rfl, fun _ _ => rfl⟩

end Selector

namespace EpollSelector

theorem selector_same {w t : EpollSelector} (hl : t.len = w.len) (hb : t.buf = w.buf) :
    selector.Same w t := ⟨hl, fun i _ => by simp [selector, hb]⟩

theorem selector_stores {w t : EpollSelector} {ptr : Nat} {channel : Option Channel}
    (hc : t.channel = assign w.channel ptr channel) : selector.Stores w t ptr channel := by
  refine ⟨?_, fun i hi => ?_⟩
  · simp [selector, hc, assign]
  · simp only [selector, hc]
    exact if_neg hi

def Filed (w : EpollSelector) : Prop :=
  ∀ ptr channel, w.channel ptr = some channel → channel.address = ptr

theorem filed_assign {w t : EpollSelector} (f : Filed w) {ptr : Nat} {channel : Option Channel}
    (hc : ∀ c, channel = some c → c.address = ptr) (ht : t.channel = assign w.channel ptr channel) :
    Filed t := by
  intro i c h
  rw [ht] at h
  simp only [assign] at h
  split at h
  · rename_i hi
    exact (hc c h).trans hi.symm
  · exact f i c h

theorem add_channel {w : EpollSelector} {channel : Channel} (events : SelectEvents)
    (h : w.contain channel = false) :
    (w.add channel events).channel = assign w.channel channel.address (some channel) := by
  have hnone : w.channel channel.address = none := by simpa [contain] using h
  rw [add, (update_spec _ _ _ _).2.2]
  simp [emplace, hnone]

theorem remove_channel (w : EpollSelector) (channel : Channel) :
    (w.remove channel).channel = assign w.channel channel.address none := by
  cases h : w.channel channel.address with
  | none =>
    have hsame : assign w.channel channel.address none = w.channel := by
      funext i
      by_cases hi : i = channel.address <;> simp [assign, hi, h]
    simp [remove, h, hsame]
  | some c => simp [remove, h, (update_spec _ _ _ _).2.2]

theorem selector_lawful : selector.Lawful Filed where
  create := fun _ _ h => by cases h
  empty := ⟨rfl, fun _ => rfl⟩
  add {w channel} events f h := by
    have hc := add_channel events h
    obtain ⟨hl, hb, -⟩ := update_spec (w.emplace channel) channel .add events
    have he : (w.emplace channel).len = w.len ∧ (w.emplace channel).buf = w.buf := by
      unfold emplace
      split <;> exact ⟨rfl, rfl⟩
    refine ⟨filed_assign f (fun c h => by cases h; rfl) hc, ?_, selector_stores hc⟩
    exact selector_same (hl.trans he.1) (hb.trans he.2)
  remove {w} channel f := by
    have hc := remove_channel w channel
    obtain ⟨hl, hb, -⟩ := update_spec w channel .del .kNoneEvent
    refine ⟨filed_assign f (fun _ h => by cases h) hc, ?_, selector_stores hc⟩
    simp only [selector, remove]
    split
    · exact selector_same hl hb
    · exact Selector.same_refl w
  update {w} channel events f := by
    obtain ⟨hl, hb, hc⟩ := update_spec w channel .mod events
    simp only [selector, update]
    split
    · exact ⟨fun ptr c h => f ptr c (hc ▸ h), selector_same hl hb, hc⟩
    · exact ⟨f, Selector.same_refl w, rfl⟩
  closed fd f := ⟨f, selector_same rfl rfl, rfl⟩
  wait f h := ⟨fun ptr c hp => f ptr c (wait_channel h ▸ hp), wait_channel h⟩
  contain _ _ := rfl
  get w i := by
    simp only [selector, get]
    cases w.buf[i]? <;> rfl
  own f h := f _ _ h

end EpollSelector

namespace Poller

theorem selector_same {w t : Poller} (hr : t.ready = w.ready) (hb : fds t.buf = fds w.buf) :
    selector.Same w t := by
  refine ⟨hr, fun i _ => ?_⟩
  have h := congrArg (fun l : List Int => l[i]?) hb
  simpa [selector, fds] using h

theorem selector_stores {w t : Poller} {fd : Int} (locator : Option (Nat × Channel))
    (hc : t.channels = assign w.channels fd locator) :
    selector.Stores w t fd (locator.map Prod.snd) := by
  refine ⟨?_, fun i hi => ?_⟩
  · simp [selector, hc, assign]
  · simp only [selector, hc]
    exact congrArg (Option.map Prod.snd) (if_neg hi)

structure Filed (w : Poller) : Prop where
  own : ∀ fd index channel, w.channels fd = some (index, channel) → channel.fd = fd
  ready : w.ready ≤ w.buf.length

theorem length_fds {w t : Poller} (h : fds t.buf = fds w.buf) : t.buf.length = w.buf.length := by
  simpa [fds] using congrArg List.length h

theorem cleaned_channels (w : Poller) (fd : Int) :
    (w.cleaned.channels fd).map Prod.snd = (w.channels fd).map Prod.snd := by
  unfold cleaned
  split
  · exact clean_up_from_channels w.channels [] w.buf fd
  · rfl

theorem filed_cleaned {w t : Poller} (f : Filed w) (ht : t.channels = w.cleaned.channels)
    (hr : t.ready ≤ t.buf.length) : Filed t := by
  refine ⟨fun fd index channel h => ?_, hr⟩
  have hsnd := cleaned_channels w fd
  rw [← ht, h] at hsnd
  obtain ⟨⟨old, ch⟩, hold, rfl⟩ := Option.map_eq_some_iff.mp hsnd.symm
  exact f.own fd old ch hold

theorem wait_spec {w t : Poller} {result : Option (List (BitVec 16))} (f : Filed w)
    (h : step w (.wait result) = some t) : Filed t ∧ t.channels = w.cleaned.channels := by
  cases result with
  | none =>
    cases h
    exact ⟨filed_cleaned f rfl (Nat.zero_le _), rfl⟩
  | some revents =>
    obtain ⟨hl, rfl⟩ := step_wait h
    refine ⟨filed_cleaned f rfl ?_, rfl⟩
    have hlen := (fds_partition (polled w.cleaned.buf revents)).length_eq
    rw [fds_polled hl] at hlen
    have hcount := List.countP_le_length (p := (· != 0)) (l := revents)
    simp only [fds, List.length_map] at hlen
    simp only [wait]
    omega

theorem selector_lawful : selector.Lawful Filed where
  create := ⟨fun _ _ _ h => (by cases h), Nat.le_refl _⟩
  empty := ⟨rfl, fun _ => rfl⟩
  add {w channel} events f h := by
    refine ⟨⟨fun fd index c hc => ?_, ?_⟩, ⟨rfl, fun i hi => ?_⟩,
      selector_stores (some (w.buf.length, channel)) rfl⟩
    · simp only [selector, add, assign] at hc
      split at hc
      · rename_i hfd
        cases hc
        exact hfd.symm
      · exact f.own fd index c hc
    · have := f.ready
      simp only [selector, add, List.length_append, List.length_singleton]
      omega
    · have hlt := Nat.lt_of_lt_of_le hi f.ready
      simp [selector, add, List.getElem?_append_left hlt]
  remove {w} channel f := by
    obtain ⟨hb, hc, -⟩ := remove_spec w channel
    have hr : (w.remove channel).ready = w.ready := by
      unfold remove
      split <;> rfl
    refine ⟨⟨fun fd index c h => f.own fd index c (hc fd _ h), ?_⟩,
      selector_same hr (congrArg fds hb), ?_⟩
    · exact hr ▸ hb ▸ f.ready
    · refine selector_stores none ?_
      funext fd
      simp only [selector, remove]
      cases hch : w.channels channel.fd with
      | none => by_cases hfd : fd = channel.fd <;> simp [assign, hfd, hch]
      | some locator => rfl
  update {w} channel events f := by
    have hb := fds_update w channel events
    obtain ⟨hc, -⟩ := channels_update w channel events
    have hr : (w.update channel events).ready = w.ready := by
      unfold update
      split <;> rfl
    refine ⟨⟨fun fd index c h => f.own fd index c (hc ▸ h), ?_⟩, selector_same hr hb, ?_⟩
    · exact hr ▸ length_fds hb ▸ f.ready
    · simp only [selector, hc]
  closed fd f := ⟨f, Selector.same_refl (Q := selector) _, rfl⟩
  wait {w t result} f h := by
    obtain ⟨ft, hc⟩ := wait_spec f h
    refine ⟨ft, ?_⟩
    funext fd
    simp only [selector, hc]
    exact cleaned_channels w fd
  contain w channel := by simp [selector, contain]
  get w i := by
    simp only [selector, get]
    cases hp : w.buf[i]? with
    | none => rfl
    | some p => cases hc : w.channels p.fd <;> simp [hc]
  own {w fd channel} f h := by
    obtain ⟨⟨index, c⟩, hc, rfl⟩ := Option.map_eq_some_iff.mp h
    exact f.own fd index c hc

end Poller

namespace Selector
variable {Q : Selector} {Inv : Q.State → Prop} {w t : World Q}

structure Kept (Inv : Q.State → Prop) (w : World Q) : Prop where
  state : Inv w.state
  object : ∀ k channel, Q.table w.state k = some channel → ∃ object, w.object k = some object

theorem get_some (l : Q.Lawful Inv) {s : Q.State} (hs : Inv s) {i : Nat} {channel : Channel}
    (h : Q.get s i = some channel) :
    Q.entry s i = some (Q.key channel) ∧ Q.table s (Q.key channel) = some channel := by
  rw [l.get] at h
  obtain ⟨k, hk, hc⟩ := Option.bind_eq_some_iff.mp h
  obtain rfl := l.own hs hc
  exact ⟨hk, hc⟩

theorem kept_init (l : Q.Lawful Inv) : Kept Inv (World.init : World Q) := by
  refine ⟨l.create, fun k channel h => ?_⟩
  rw [World.init, l.empty.2] at h
  cases h

theorem dispatches_init (l : Q.Lawful Inv) : Dispatches (World.init : World Q) := by
  intro i hi
  have := l.empty.1
  simp only [World.init] at hi
  omega

theorem kept_stores (k : Kept Inv w) {s : Q.State} (hs : Inv s) {key : Q.Key}
    {channel : Option Channel} {object : Option Nat} (st : Q.Stores w.state s key channel)
    (ho : ∀ c, channel = some c → ∃ o, object = some o) :
    Kept Inv { w with state := s, object := Q.assign w.object key object } := by
  refine ⟨hs, fun i c h => ?_⟩
  by_cases hi : i = key
  · subst hi
    obtain ⟨o, rfl⟩ := ho c (st.here.symm.trans h)
    exact ⟨o, assign_self _ _ _⟩
  · obtain ⟨o, ho⟩ := k.object i c ((st.other i hi).symm.trans h)
    exact ⟨o, (assign_other hi).trans ho⟩

theorem kept_table (k : Kept Inv w) {s : Q.State} (hs : Inv s)
    (ht : Q.table s = Q.table w.state) {batch : List (Option Nat)} :
    Kept Inv { w with state := s, batch := batch } :=
  ⟨hs, fun i c h => k.object i c (ht ▸ h)⟩

theorem kept_step (l : Q.Lawful Inv) {a : Action Q.Result} (k : Kept Inv w)
    (h : step w a = some t) : Kept Inv t := by
  cases a with
  | add object channel events =>
    cases h
    cases hc : Q.contain w.state channel with
    | true => simpa [World.add, hc] using k
    | false =>
      obtain ⟨hs, -, st⟩ := l.add events k.state hc
      simpa [World.add, hc] using kept_stores k hs st fun _ _ => ⟨object, rfl⟩
  | remove channel =>
    cases h
    cases hc : Q.contain w.state channel with
    | false => simpa [World.remove, hc] using k
    | true =>
      obtain ⟨hs, -, st⟩ := l.remove channel k.state
      simpa [World.remove, hc] using kept_stores k hs st fun _ h => by cases h
  | update channel events =>
    cases h
    obtain ⟨hs, -, ht⟩ := l.update channel events k.state
    exact kept_table k hs ht
  | closed fd =>
    cases h
    obtain ⟨hs, -, ht⟩ := l.closed fd k.state
    exact kept_table k hs ht
  | wait result =>
    obtain ⟨s, hw, rfl⟩ := Option.map_eq_some_iff.mp h
    obtain ⟨hs, ht⟩ := l.wait k.state hw
    exact kept_table k hs ht

theorem dispatches_frame (l : Q.Lawful Inv) {s : Q.State}
    {object : Q.Key → Option Nat} (hs : Inv s) (same : Q.Same w.state s)
    (hk : ∀ i < Q.size w.state, ∀ key channel, Q.entry w.state i = some key →
      Q.table s key = some channel →
      Q.table w.state key = some channel ∧ object key = w.object key)
    (d : Dispatches w) : Dispatches { w with state := s, object := object } := by
  intro i hi channel h
  have hi' : i < Q.size w.state := same.size ▸ hi
  obtain ⟨he, ht⟩ := get_some l hs h
  rw [same.entry i hi'] at he
  obtain ⟨htw, ho⟩ := hk i hi' _ _ he ht
  have hget : Q.get w.state i = some channel := by
    rw [l.get, he]
    exact htw
  obtain ⟨o, hwo, hb⟩ := d i hi' channel hget
  exact ⟨o, ho.trans hwo, hb⟩

theorem dispatches_add (l : Q.Lawful Inv) (k : Kept Inv w) (d : Dispatches w) {object : Nat}
    {channel : Channel} {events : SelectEvents} :
    Dispatches (w.add object channel events) ↔ Fresh w (.add object channel events) := by
  cases hc : Q.contain w.state channel with
  | true => simpa [World.add, Fresh, hc] using d
  | false =>
    obtain ⟨hs, same, st⟩ := l.add events k.state hc
    simp only [World.add, Fresh, hc, Bool.false_eq_true, if_false, forall_const]
    constructor
    · intro d' i hi he
      have hget : Q.get (Q.add w.state channel events) i = some channel := by
        rw [l.get, same.entry i hi, he]
        exact st.here
      obtain ⟨o, ho, hb⟩ := d' i (same.size.symm ▸ hi) channel hget
      cases (assign_self _ _ _).symm.trans ho
      exact hb
    · intro hf i hi c hget
      have hi' : i < Q.size w.state := same.size ▸ hi
      obtain ⟨he, ht⟩ := get_some l hs hget
      rw [same.entry i hi'] at he
      by_cases hkey : Q.key c = Q.key channel
      · rw [hkey] at he ⊢
        exact ⟨object, assign_self _ _ _, hf i hi' he⟩
      · rw [st.other _ hkey] at ht
        have hgetw : Q.get w.state i = some c := by
          rw [l.get, he]
          exact ht
        obtain ⟨o, ho, hb⟩ := d i hi' c hgetw
        exact ⟨o, (assign_other hkey).trans ho, hb⟩

theorem dispatches_remove (l : Q.Lawful Inv) (k : Kept Inv w) (d : Dispatches w)
    (channel : Channel) : Dispatches (w.remove channel) := by
  cases hc : Q.contain w.state channel with
  | false => simpa [World.remove, hc] using d
  | true =>
    obtain ⟨hs, same, st⟩ := l.remove channel k.state
    simp only [World.remove, hc, if_true]
    refine dispatches_frame l hs same (fun i _ key c _ ht => ?_) d
    have hne : key ≠ Q.key channel := by
      rintro rfl
      rw [st.here] at ht
      cases ht
    exact ⟨(st.other key hne).symm.trans ht, assign_other hne⟩

theorem dispatches_wait (l : Q.Lawful Inv) {s : Q.State} (k : Kept Inv { w with state := s }) :
    Dispatches (w.wait s) := by
  intro i hi channel h
  obtain ⟨-, ht⟩ := get_some l k.state h
  obtain ⟨o, ho⟩ := k.object _ _ ht
  have hgot : Q.got s w.object i = some o := by
    simp only [got]
    rw [show Q.get s i = some channel from h]
    exact ho
  have hlt : i < Q.size s := hi
  exact ⟨o, ho, by simp [World.wait, hlt, hgot]⟩

theorem dispatches_step (l : Q.Lawful Inv) {a : Action Q.Result} (k : Kept Inv w)
    (d : Dispatches w) (h : step w a = some t) : Dispatches t ↔ Fresh w a := by
  cases a with
  | add object channel events =>
    cases h
    exact dispatches_add l k d
  | remove channel =>
    cases h
    exact iff_of_true (dispatches_remove l k d channel) trivial
  | update channel events =>
    cases h
    obtain ⟨hs, same, ht⟩ := l.update channel events k.state
    exact iff_of_true (dispatches_frame l hs same (fun _ _ _ _ _ h => ⟨ht ▸ h, rfl⟩) d) trivial
  | closed fd =>
    cases h
    obtain ⟨hs, same, ht⟩ := l.closed fd k.state
    exact iff_of_true (dispatches_frame l hs same (fun _ _ _ _ _ h => ⟨ht ▸ h, rfl⟩) d) trivial
  | wait result =>
    obtain ⟨s, hw, rfl⟩ := Option.map_eq_some_iff.mp h
    obtain ⟨hs, ht⟩ := l.wait k.state hw
    exact iff_of_true (dispatches_wait l (kept_table k hs ht)) trivial

theorem lawful_make (type : SelectorType) : ∃ Inv, (makeSelector type).Lawful Inv := by
  cases type with
  | kEpoll => exact ⟨_, EpollSelector.selector_lawful⟩
  | kPoll => exact ⟨_, Poller.selector_lawful⟩

theorem dispatches_iff (type : SelectorType) (as : List (Action (makeSelector type).Result)) :
    (makeSelector type).system.Always Dispatches .init as ↔
      (makeSelector type).system.Along Fresh .init as := by
  obtain ⟨Inv, l⟩ := lawful_make type
  exact Transition.System.always_iff_along (M := (makeSelector type).system)
    (F := fun _ _ => True) (fun _ _ _ k _ h => kept_step l k h)
    (fun _ _ _ k d _ h => dispatches_step l k d h) (kept_init l) (dispatches_init l)
    Transition.System.along_true

-- Two channels are ready; the first one's handler destroys the second and registers a new one,
-- which gets its address and its descriptor.
def reused (Result : Type) (result : Result) : List (Action Result) :=
  [.add 0 ⟨16, 3⟩ .kReadEvent, .add 1 ⟨32, 4⟩ .kReadEvent, .wait result, .remove ⟨32, 4⟩,
    .closed 4, .add 2 ⟨32, 4⟩ .kNoneEvent]

set_option maxRecDepth 2000 in
theorem dispatches_other :
    (¬ ∀ as, (makeSelector .kEpoll).system.Always Dispatches .init as) ∧
      ¬ ∀ as, (makeSelector .kPoll).system.Always Dispatches .init as := by
  constructor
  · intro h
    have d := Transition.System.always_last (h (reused _ (some [(3, 1), (4, 1)]))) rfl
    obtain ⟨object, ho, hb⟩ := d 1 (by decide) ⟨32, 4⟩ rfl
    cases ho
    cases hb
  · intro h
    have d := Transition.System.always_last (h (reused _ (some [1, 1]))) rfl
    obtain ⟨object, ho, hb⟩ := d 1 (by decide) ⟨32, 4⟩ rfl
    cases ho
    cases hb

end Selector
end Pedronet
