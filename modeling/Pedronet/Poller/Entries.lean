import Pedronet.Poller.Locators

namespace Pedronet
namespace Poller

-- `last` is history: what Add or Update passed last for the registration of the descriptor.
structure History where
  poller : Poller
  last : Int → Option SelectEvents

def History.init : History := ⟨create, fun _ => none⟩

def record (h : History) : Action → Int → Option SelectEvents
  | .add channel events => fun fd => if fd = channel.fd then some events else h.last fd
  | .update channel events => fun fd =>
    if fd = channel.fd ∧ (h.poller.channels fd).isSome then some events else h.last fd
  | .remove channel => fun fd => if fd = channel.fd then none else h.last fd
  | .wait _ => h.last

def history : Transition.System History Action where
  start h := h = .init
  step h a := (step h.poller a).map fun t => ⟨t, record h a⟩

def Unregistered (h : History) : Action → Prop
  | .add channel _ => h.poller.channels channel.fd = none
  | _ => True

instance (h : History) : DecidablePred (Unregistered h)
  | .add _ _ => inferInstanceAs (Decidable (_ = _))
  | .remove _ | .update _ _ | .wait _ => isTrue trivial

structure Exact (h : History) : Prop where
  once : ∀ fd, (fds h.poller.cleaned.buf).count fd =
    if (h.poller.channels fd).isSome then 1 else 0
  order : h.poller.cleaned.buf.Sublist h.poller.buf
  masks : ∀ p ∈ h.poller.cleaned.buf, ∃ events, h.last p.fd = some events ∧ p.events = short events

def CleansExactly (h : History) : Action → Prop
  | .wait _ => Exact h
  | _ => True

-- The entry at the locator is that of the channel: no Wait has moved it.
def FindsOwn (w : Poller) : Action → Prop
  | .update channel _ => ∀ locator ∈ w.channels channel.fd,
    (w.buf[locator.1]?).map Pollfd.fd = some channel.fd
  | _ => True

instance (w : Poller) : DecidablePred (FindsOwn w)
  | .update _ _ => inferInstanceAs (Decidable (∀ _ ∈ _, _))
  | .add _ _ | .remove _ | .wait _ => isTrue trivial

def Apart (h : History) (a : Action) : Prop := Fresh h.poller a ∧ FindsOwn h.poller a

instance (h : History) : DecidablePred (Apart h) := fun _ => inferInstanceAs (Decidable (_ ∧ _))

def Masked (h : History) (buf : List Pollfd) : Prop :=
  ∀ p ∈ buf, (h.poller.channels p.fd).isSome →
    ∃ events, h.last p.fd = some events ∧ p.events = short events

structure Recorded (h : History) : Prop where
  registered : Registered h.poller
  masked : Masked h h.poller.buf

variable {h t : History}

theorem history_step {a : Action} (hs : history.step h a = some t) :
    ∃ w, step h.poller a = some w ∧ t = ⟨w, record h a⟩ := by
  obtain ⟨w, hw, rfl⟩ := Option.map_eq_some_iff.mp hs
  exact ⟨w, hw, rfl⟩

theorem isSome_cleaned (w : Poller) (fd : Int) :
    (w.cleaned.channels fd).isSome = (w.channels fd).isSome := by
  unfold cleaned
  split
  · exact isSome_clean_up
  · rfl

theorem buf_cleaned {w : Poller} (r : Registered w) :
    w.cleaned.buf = w.buf.filter fun p => (w.channels p.fd).isSome := by
  by_cases hc : w.cleanable = true
  · simp only [cleaned, hc, if_true, buf_clean_up]
  · have hf : w.cleanable = false := by simpa using hc
    simp only [cleaned, hf, Bool.false_eq_true, if_false]
    exact (List.filter_eq_self.mpr (r.clean hf)).symm

theorem once_cleaned {w : Poller} (r : Registered w) (fd : Int) :
    (fds w.cleaned.buf).count fd = if (w.channels fd).isSome then 1 else 0 := by
  have hr := registered_cleaned r
  have hmem : fd ∈ fds w.cleaned.buf ↔ (w.channels fd).isSome = true := by
    rw [← isSome_cleaned]
    constructor
    · intro hm
      obtain ⟨p, hp, rfl⟩ := List.mem_map.mp hm
      exact all_cleaned r p hp
    · intro hs
      obtain ⟨⟨index, channel⟩, hc⟩ := Option.isSome_iff_exists.mp hs
      exact (hr.own fd index channel hc).2
  split
  · rename_i hs
    exact List.count_eq_one_of_mem hr.nodup (hmem.mpr hs)
  · rename_i hs
    exact List.count_eq_zero.mpr fun hm => hs (hmem.mp hm)

theorem mem_polled {buf : List Pollfd} {revents : List (BitVec 16)} {p : Pollfd}
    (hp : p ∈ polled buf revents) : ∃ q ∈ buf, q.fd = p.fd ∧ q.events = p.events := by
  induction buf generalizing revents with
  | nil => simp [polled] at hp
  | cons q buf ih =>
    cases revents with
    | nil => simp [polled] at hp
    | cons r revents =>
      simp only [polled, List.zipWith_cons_cons, List.mem_cons] at hp
      rcases hp with rfl | hp
      · exact ⟨q, List.mem_cons_self, rfl, rfl⟩
      · obtain ⟨o, ho, he⟩ := ih hp
        exact ⟨o, List.mem_cons_of_mem _ ho, he⟩

theorem masked_add (r : Recorded h) {channel : Channel} (hf : channel.fd ∉ fds h.poller.buf)
    (events : SelectEvents) :
    Masked ⟨h.poller.add channel events, record h (.add channel events)⟩
      (h.poller.add channel events).buf := by
  intro p hp hc
  rcases List.mem_append.mp hp with hp | hp
  · have hne : p.fd ≠ channel.fd := fun he => hf (he ▸ List.mem_map_of_mem hp)
    simp only [add, assign, if_neg hne] at hc
    simpa [record, hne] using r.masked p hp hc
  · rw [List.mem_singleton.mp hp]
    exact ⟨events, by simp [record], rfl⟩

theorem masked_remove (r : Recorded h) (channel : Channel) :
    Masked ⟨h.poller.remove channel, record h (.remove channel)⟩ (h.poller.remove channel).buf := by
  intro p hp hc
  have hne : p.fd ≠ channel.fd := by
    intro he
    revert hc
    simp only [remove, he]
    split
    · simp [assign]
    · rename_i hn
      simp [hn]
  obtain ⟨hb, hs, -⟩ := remove_spec h.poller channel
  obtain ⟨locator, hl⟩ := Option.isSome_iff_exists.mp hc
  rw [hb] at hp
  simpa [record, hne] using r.masked p hp (by simp [hs _ _ hl])

theorem masked_update (r : Recorded h) {channel : Channel} {events : SelectEvents}
    (hf : FindsOwn h.poller (.update channel events)) :
    Masked ⟨h.poller.update channel events, record h (.update channel events)⟩
      (h.poller.update channel events).buf := by
  intro p hp hc
  simp only [(channels_update h.poller channel events).1] at hc
  cases hl : h.poller.channels channel.fd with
  | none =>
    have hne : p.fd ≠ channel.fd := by
      intro he
      rw [he, hl] at hc
      cases hc
    simp only [update, hl] at hp
    simpa [record, hne] using r.masked p hp hc
  | some locator =>
    rw [buf_update r.registered hl (hf locator hl) events] at hp
    obtain ⟨q, hq, rfl⟩ := List.mem_map.mp hp
    by_cases he : q.fd = channel.fd
    · simp only [if_pos he]
      exact ⟨events, by simp [record, he, hl], rfl⟩
    · simp only [if_neg he] at hc ⊢
      simpa [record, he] using r.masked q hq hc

theorem masked_cleaned (r : Recorded h) {p : Pollfd} (hp : p ∈ h.poller.cleaned.buf) :
    ∃ events, h.last p.fd = some events ∧ p.events = short events := by
  rw [buf_cleaned r.registered] at hp
  obtain ⟨hp, hs⟩ := List.mem_filter.mp hp
  exact r.masked p hp hs

theorem recorded_exact (r : Recorded h) : Exact h :=
  ⟨once_cleaned r.registered, buf_cleaned r.registered ▸ List.filter_sublist,
    fun _ hp => masked_cleaned r hp⟩

theorem masked_step {a : Action} (r : Recorded h) (hf : Apart h a)
    (hs : history.step h a = some t) : Masked t t.poller.buf := by
  obtain ⟨w, hw, rfl⟩ := history_step hs
  cases a with
  | add channel events =>
    cases hw
    exact masked_add r hf.1 events
  | remove channel =>
    cases hw
    exact masked_remove r channel
  | update channel events =>
    cases hw
    exact masked_update r hf.2
  | wait result =>
    intro p hp _
    cases result with
    | none =>
      cases hw
      exact masked_cleaned r hp
    | some revents =>
      obtain ⟨-, rfl⟩ := step_wait hw
      obtain ⟨q, hq, he, hm⟩ := mem_polled ((Partition.partition_perm _).subset hp)
      obtain ⟨events, hl, hs⟩ := masked_cleaned r hq
      exact ⟨events, he ▸ hl, hm ▸ hs⟩

theorem recorded_step {a : Action} (r : Recorded h) (hf : Apart h a)
    (hs : history.step h a = some t) : Recorded t := by
  have hm := masked_step r hf hs
  obtain ⟨w, hw, rfl⟩ := history_step hs
  exact ⟨registered_step r.registered hf.1 hw, hm⟩

theorem recorded_init : Recorded .init :=
  ⟨registered_create, fun p hp => by cases hp⟩

theorem cleans_exactly (as : List Action) (hf : history.Along Apart .init as) :
    history.Along CleansExactly .init as := by
  refine Transition.System.along_of_along (fun _ _ _ r hf hs => recorded_step r hf hs)
    (fun h a _ r _ _ => ?_) recorded_init hf
  cases a with
  | wait result => exact recorded_exact r
  | _ => trivial

theorem in_step_apart {a : Action} (r : Registered h.poller) (hs : InStep h.poller)
    (hf : Fresh h.poller a) : Apart h a := by
  refine ⟨hf, ?_⟩
  cases a with
  | update channel events =>
    rintro ⟨index, ch⟩ hl
    obtain ⟨p, hp, he⟩ := hs _ _ _ hl
    have hown := (r.own _ _ _ hl).1
    simp [hp, he, hown]
  | _ => trivial

theorem along_apart (as : List Action)
    (hf : history.Along (fun h a => Fresh h.poller a) .init as)
    (hr : history.Along (fun _ a => ReadyFirst a) .init as) : history.Along Apart .init as := by
  refine Transition.System.along_of_along (I := fun h => Registered h.poller ∧ InStep h.poller)
    (G := fun h a => Fresh h.poller a ∧ ReadyFirst a) (fun h a t hi hg hs => ?_)
    (fun h a _ hi hg _ => in_step_apart hi.1 hi.2 hg.1) ⟨registered_create, in_step_create⟩
    (Transition.System.along_and hf hr)
  obtain ⟨w, hw, rfl⟩ := history_step hs
  exact ⟨registered_step hi.1 hg.1 hw, (in_step_step hi.1 hi.2 hw).mpr hg.2⟩

def reused : List Action :=
  [.add ⟨0, 3⟩ .kReadEvent, .add ⟨1, 4⟩ .kReadEvent, .remove ⟨0, 3⟩, .wait none,
    .add ⟨2, 3⟩ .kWriteEvent, .update ⟨1, 4⟩ .kWriteEvent, .wait (some [0, 1]), .remove ⟨1, 4⟩,
    .wait none]

theorem cleans_exactly_reused : history.Along CleansExactly .init reused :=
  cleans_exactly reused (by decide)

def readded : List Action :=
  [.add ⟨0, 3⟩ .kReadEvent, .remove ⟨0, 3⟩, .add ⟨1, 3⟩ .kReadEvent]

-- CleanUp keeps the dead entry of a number that is registered again.
theorem readded_twice : ¬ ∀ as, history.Along Unregistered .init as →
    history.Along CleansExactly .init as := by
  intro h
  have ha : history.Along CleansExactly .init (readded ++ [.wait none]) := h _ (by decide)
  have hx : Exact _ := Transition.System.along_last ha rfl rfl
  exact absurd (hx.once 3) (by decide)

end Poller
end Pedronet
