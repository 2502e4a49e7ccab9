import Pedronet.EpollSelector
import Pedronet.Registry
import Mathlib.Data.List.Perm.Subperm

namespace Pedronet
namespace EpollSelector
open Poller (Channel short)
open Registry (Call)

def call (w : EpollSelector) : Call → EpollSelector
  | .add channel events => if w.contain channel then w else w.add channel events
  | .remove channel => if w.contain channel then w.remove channel else w
  | .update channel events => w.update channel events

def revents (w : EpollSelector) (kernel : Kernel) (i : Int) : BitVec 16 :=
  ((w.interest i).map fun event => kernel i (event.events.setWidth 16)).getD 0

-- The answer names descriptors that are ready, each once, and all of them if the array has room.
structure Answers (w : EpollSelector) (kernel : Kernel) (fds : List Int) : Prop where
  nodup : fds.Nodup
  ready : ∀ i ∈ fds, w.revents kernel i ≠ 0
  room : fds.length ≤ w.buf.length
  all : fds.length < w.buf.length → ∀ i, w.revents kernel i ≠ 0 → i ∈ fds

def polls (w : EpollSelector) (kernel : Kernel) (fds : List Int) : Option EpollSelector :=
  w.wait (some (fds.map fun i => (i, (w.revents kernel i).setWidth 32)))

def batch (w : EpollSelector) : List (Option Channel × BitVec 16) :=
  (List.range w.len).map fun i => ((w.get i).1, (w.get i).2.value.setWidth 16)

structure Follows (r : Registry) (w : EpollSelector) : Prop where
  interest : ∀ i, w.interest i = (r.find i).map fun e => ⟨e.2.value, e.1.address⟩
  channel : ∀ ptr, w.channel ptr = (Keyed.lookup Registry.address r.entries ptr).map Prod.fst

variable {r t : Registry} {w u : EpollSelector}

theorem follows_create : Follows .create create := ⟨fun _ => rfl, fun _ => rfl⟩

theorem lookup_holds {channel : Channel} (h : r.holds channel = true) :
    ∃ events, Keyed.lookup Registry.address r.entries channel.address = some (channel, events) := by
  obtain ⟨events, hm⟩ := Registry.holds_iff.mp h
  exact ⟨events, (Keyed.lookup_eq_some r.addresses).mpr ⟨hm, rfl⟩⟩

theorem lookup_free {channel : Channel} (h : r.Free channel) :
    Keyed.lookup Registry.address r.entries channel.address = none :=
  Keyed.lookup_eq_none.mpr h.2

theorem contain_holds (f : Follows r w) {channel : Channel} (h : r.holds channel = true) :
    w.channel channel.address = some channel := by
  obtain ⟨events, hl⟩ := lookup_holds h
  rw [f.channel, hl, Option.map_some]

theorem contain_free (f : Follows r w) {channel : Channel} (h : r.Free channel) :
    w.channel channel.address = none := by
  rw [f.channel, lookup_free h, Option.map_none]

theorem follows_add (f : Follows r w) {channel : Channel} {events : SelectEvents}
    (h : r.Free channel) : Follows (r.insert channel events h) (w.add channel events) := by
  have hn := contain_free f h
  have hi : w.interest channel.fd = none := by
    rw [f.interest, Registry.find_free h, Option.map_none]
  have hadd : w.add channel events = { w with
      interest := assign w.interest channel.fd (some ⟨events.value, channel.address⟩)
      channel := assign w.channel channel.address (some channel) } := by
    simp only [add, emplace, hn, internalUpdate, hi]
  rw [hadd]
  constructor
  · intro i
    rw [Registry.find_insert]
    simp only [assign]
    split
    · rfl
    · exact f.interest i
  · intro ptr
    have hl := Keyed.lookup_append (k := ptr) (a := (channel, events)) h.2
    simp only [Registry.insert, hl, assign]
    split
    · rename_i hp
      simp [hp, Registry.address]
    · rename_i hp
      simp only [Registry.address, hp, if_false]
      exact f.channel ptr

theorem follows_remove (f : Follows r w) {channel : Channel} (h : r.holds channel = true) :
    Follows (r.erase channel) (w.remove channel) := by
  have hc := contain_holds f h
  obtain ⟨events, hfind⟩ := Registry.holds_find.mp h
  have hi : w.interest channel.fd = some ⟨events.value, channel.address⟩ := by
    rw [f.interest, hfind, Option.map_some]
  have hrem : w.remove channel = { w with
      interest := assign w.interest channel.fd none
      channel := assign w.channel channel.address none } := by
    simp only [remove, hc, internalUpdate, hi]
  rw [hrem]
  constructor
  · intro i
    rw [Registry.find_erase (.inl h)]
    simp only [assign]
    split
    · rfl
    · exact f.interest i
  · intro ptr
    rw [Registry.lookup_erase Registry.address fun e he => Registry.address_ne_iff (.inl h) he]
    simp only [assign]
    split
    · rfl
    · exact f.channel ptr

theorem lookup_set (r : Registry) (channel : Channel) (events : SelectEvents) (ptr : Nat) :
    (Keyed.lookup Registry.address (r.set channel events).entries ptr).map Prod.fst =
      (Keyed.lookup Registry.address r.entries ptr).map Prod.fst := by
  have hkey : ∀ e, Registry.address (Registry.assign channel events e) = Registry.address e :=
    fun e => by simp [Registry.address, Registry.assign_fst]
  rw [Registry.set, Keyed.lookup_map hkey, Option.map_map]
  simp only [Function.comp_def, Registry.assign_fst]

theorem follows_update (f : Follows r w) {channel : Channel} {events : SelectEvents}
    (h : r.holds channel = true) : Follows (r.set channel events) (w.update channel events) := by
  have hc := contain_holds f h
  obtain ⟨ev, hfind⟩ := Registry.holds_find.mp h
  have hi : w.interest channel.fd = some ⟨ev.value, channel.address⟩ := by
    rw [f.interest, hfind, Option.map_some]
  have hupd : w.update channel events = { w with
      interest := assign w.interest channel.fd (some ⟨events.value, channel.address⟩) } := by
    simp only [update, hc, internalUpdate, hi]
  rw [hupd]
  constructor
  · intro i
    rw [Registry.find_set (.inl h)]
    simp only [assign]
    split
    · rename_i hi
      simp [hi, hfind]
    · exact f.interest i
  · intro ptr
    rw [lookup_set]
    exact f.channel ptr

theorem follows_entries (f : Follows r w) (h : t.entries = r.entries) : Follows t w :=
  ⟨fun i => by rw [Registry.find, h]; exact f.interest i,
    fun ptr => by rw [h]; exact f.channel ptr⟩

theorem follows_call (f : Follows r w) {c : Call} (h : r.step c = some t) :
    Follows t (w.call c) := by
  cases c with
  | add channel events =>
    rcases Registry.step_add h with ⟨hh, rfl⟩ | ⟨-, hf, rfl⟩
    · simpa [call, contain, contain_holds f hh] using f
    · simpa [call, contain, contain_free f hf] using follows_add f hf
  | remove channel =>
    obtain ⟨hh | hf, rfl⟩ := Registry.step_remove h
    · simpa [call, contain, contain_holds f hh] using follows_remove f hh
    · simpa [call, contain, contain_free f hf] using
        follows_entries f (Registry.erase_free hf)
  | update channel events =>
    obtain ⟨hh | hf, rfl⟩ := Registry.step_update h
    · exact follows_update f hh
    · simpa [call, update, contain_free f hf] using
        follows_entries f (Registry.set_free hf)

theorem follows_wait (f : Follows r w) {result : Option (List (Int × BitVec 32))}
    (h : w.wait result = some u) : Follows r u := by
  refine ⟨fun i => ?_, fun ptr => (congrFun (wait_channel h) ptr).trans (f.channel ptr)⟩
  have hi : u.interest = w.interest := by
    cases result with
    | none =>
      cases h
      rfl
    | some ready =>
      simp only [wait] at h
      split at h
      · cases h
        rfl
      · cases h
  rw [hi, f.interest]

theorem revents_find (f : Follows r w) {i : Int} {e : Channel × SelectEvents}
    (h : r.find i = some e) (kernel : Kernel) : w.revents kernel i = kernel i (short e.2) := by
  simp [revents, f.interest, h, short]

theorem revents_deliver (f : Follows r w) {kernel : Kernel} {i : Int}
    (h : w.revents kernel i ≠ 0) :
    ∃ event channel, w.interest i = some event ∧ w.channel event.ptr = some channel ∧
      r.deliverAt kernel i = some (some channel, w.revents kernel i) := by
  cases hfind : r.find i with
  | none => simp [revents, f.interest, hfind] at h
  | some e =>
    obtain ⟨hm, hfd⟩ := Registry.find_eq_some.mp hfind
    have hi : w.interest i = some ⟨e.2.value, e.1.address⟩ := by
      rw [f.interest, hfind, Option.map_some]
    have hl : Keyed.lookup Registry.address r.entries e.1.address = some e :=
      (Keyed.lookup_eq_some r.addresses).mpr ⟨hm, rfl⟩
    have hc : w.channel e.1.address = some e.1 := by rw [f.channel, hl, Option.map_some]
    rw [revents_find f hfind] at h ⊢
    refine ⟨_, e.1, hi, hc, ?_⟩
    simp only [Registry.deliverAt, hfind, Option.bind_some, Registry.deliver, hfd, if_neg h]

def record (w : EpollSelector) (kernel : Kernel) (i : Int) : EpollEvent :=
  ⟨(w.revents kernel i).setWidth 32, ((w.interest i).map EpollEvent.ptr).getD 0⟩

theorem interest_isSome {kernel : Kernel} {i : Int} (h : w.revents kernel i ≠ 0) :
    (w.interest i).isSome = true := by
  cases hi : w.interest i with
  | none => simp [revents, hi] at h
  | some event => rfl

theorem reported_records {kernel : Kernel} {fds : List Int}
    (h : ∀ i ∈ fds, w.revents kernel i ≠ 0) :
    w.reported (fds.map fun i => (i, (w.revents kernel i).setWidth 32)) =
      fds.map (w.record kernel) := by
  rw [reported, List.filterMap_map, ← List.filterMap_eq_map]
  refine List.filterMap_congr fun i hi => ?_
  obtain ⟨event, he⟩ := Option.isSome_iff_exists.mp (interest_isSome (h i hi))
  simp [record, he]

theorem polls_some {kernel : Kernel} {fds : List Int} (a : w.Answers kernel fds) :
    ∃ u, w.polls kernel fds = some u ∧ u.len = fds.length ∧ u.channel = w.channel ∧
      ∀ i < fds.length, u.buf[i]? = (fds.map (w.record kernel))[i]? := by
  have hall : ∀ e ∈ fds.map fun i => (i, (w.revents kernel i).setWidth 32),
      (w.interest e.1).isSome = true := by
    intro e he
    obtain ⟨i, hi, rfl⟩ := List.mem_map.mp he
    exact interest_isSome (a.ready i hi)
  have hroom : (fds.map fun i => (i, (w.revents kernel i).setWidth 32)).length ≤ w.buf.length := by
    simpa using a.room
  refine ⟨_, if_pos ⟨hroom, hall⟩, by simp, rfl, fun i hi => ?_⟩
  have hlt : i < (fds.map (w.record kernel)).length := by simpa using hi
  simp only [reported_records a.ready, resized]
  split
  · rw [List.append_assoc, List.getElem?_append_left hlt]
  · rw [List.getElem?_append_left hlt]

theorem batch_polls (f : Follows r w) {kernel : Kernel} {fds : List Int}
    (a : w.Answers kernel fds) (h : w.polls kernel fds = some u) :
    u.batch = fds.filterMap (r.deliverAt kernel) := by
  obtain ⟨v, hv, hlen, hch, hbuf⟩ := polls_some a
  cases hv.symm.trans h
  have hmap : fds.filterMap (r.deliverAt kernel) =
      fds.map fun i => (w.channel (w.record kernel i).ptr, w.revents kernel i) := by
    rw [← List.filterMap_eq_map]
    refine List.filterMap_congr fun i hi => ?_
    obtain ⟨event, channel, he, hc, hd⟩ := revents_deliver f (a.ready i hi)
    simp [hd, record, he, hc]
  rw [hmap]
  apply List.ext_getElem?
  intro i
  by_cases hi : i < fds.length
  · have hrange : (List.range u.len)[i]? = some i := List.getElem?_range (hlen ▸ hi)
    have hget := hbuf i hi
    rw [List.getElem?_map, List.getElem?_eq_getElem hi, Option.map_some] at hget
    simp only [batch, List.getElem?_map, hrange, Option.map_some, get, hget, hch,
      List.getElem?_eq_getElem hi, record, Option.some.injEq, Prod.mk.injEq, true_and]
    rw [BitVec.setWidth_setWidth_of_le _ (by decide), BitVec.setWidth_eq]
  · rw [List.getElem?_eq_none, List.getElem?_eq_none]
    · simpa using hi
    · simpa [batch, hlen] using hi

theorem delivers_polls (f : Follows r w) {kernel : Kernel} {fds : List Int}
    (a : w.Answers kernel fds) (h : w.polls kernel fds = some u) :
    u.batch.Subperm (r.ready kernel) ∧
      (u.len < w.buf.length → u.batch.Perm (r.ready kernel)) := by
  obtain ⟨v, hv, hlen, -, -⟩ := polls_some a
  cases hv.symm.trans h
  have hfds : ∀ i, w.revents kernel i ≠ 0 → i ∈ r.entries.map Registry.fd := by
    intro i hi
    obtain ⟨e, he⟩ := Option.isSome_iff_exists.mp (interest_isSome hi)
    rw [f.interest] at he
    obtain ⟨x, hx, -⟩ := Option.map_eq_some_iff.mp he
    exact Registry.find_isSome.mp (by simp [hx])
  rw [batch_polls f a h, Registry.ready_fds]
  constructor
  · obtain ⟨l, hp, hs⟩ := a.nodup.subperm fun i hi => hfds i (a.ready i hi)
    exact ⟨_, hp.filterMap _, hs.filterMap _⟩
  · intro hlt
    have hperm : fds.Perm ((r.entries.map Registry.fd).filter fun i => w.revents kernel i ≠ 0) := by
      refine (List.perm_ext_iff_of_nodup a.nodup (List.Nodup.filter _ r.fds)).mpr fun i => ?_
      rw [List.mem_filter, decide_eq_true_iff]
      exact ⟨fun hi => ⟨hfds i (a.ready i hi), a.ready i hi⟩,
        fun hi => a.all (hlen ▸ hlt) i hi.2⟩
    refine (hperm.filterMap _).trans (.of_eq ?_)
    rw [List.filterMap_filter]
    refine List.filterMap_congr fun i hi => ?_
    obtain ⟨e, he⟩ := Option.isSome_iff_exists.mp (Registry.find_isSome.mpr hi)
    obtain ⟨-, hfd⟩ := Registry.find_eq_some.mp he
    simp only [revents_find f he, Registry.deliverAt, he, Option.bind_some, Registry.deliver, hfd,
      decide_eq_true_eq]
    split
    · rfl
    · rename_i hz
      exact (if_pos (not_not.mp hz)).symm

end EpollSelector
end Pedronet
