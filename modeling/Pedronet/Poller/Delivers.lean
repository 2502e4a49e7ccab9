import Pedronet.Registry
import Pedronet.Poller.Entries
import Pedronet.Selector

namespace Pedronet
namespace Poller
open Registry (Call)

def call (w : Poller) : Call → Poller
  | .add channel events => if w.contain channel then w else w.add channel events
  | .remove channel => if w.contain channel then w.remove channel else w
  | .update channel events => w.update channel events

def answers (w : Poller) (kernel : Kernel) : List (BitVec 16) :=
  w.cleaned.buf.map fun p => kernel p.fd p.events

def polls (w : Poller) (kernel : Kernel) : Poller := w.wait (some (w.answers kernel))

def batch (w : Poller) : List (Option Channel × BitVec 16) := (List.range w.ready).map w.get

-- A descriptor that is registered again has been cleaned away before, and an Update finds the
-- entry of its channel.
def Settled (r : Registry) (w : Poller) : Call → Prop
  | .add channel _ => r.holds channel = false → channel.fd ∉ fds w.buf
  | .remove _ => True
  | .update channel events => FindsOwn w (.update channel events)

instance (r : Registry) (w : Poller) : DecidablePred (Settled r w)
  | .add _ _ => inferInstanceAs (Decidable (_ → _))
  | .remove _ => isTrue trivial
  | .update channel events => inferInstanceAs (Decidable (FindsOwn w (.update channel events)))

def masks (r : Registry) : Int → Option SelectEvents := fun i => (r.find i).map Prod.snd

structure Follows (r : Registry) (w : Poller) : Prop where
  recorded : Recorded ⟨w, masks r⟩
  channels : ∀ i, (w.channels i).map Prod.snd = (r.find i).map Prod.fst

variable {r t : Registry} {w : Poller}

theorem follows_create : Follows .create create :=
  ⟨recorded_init, fun _ => rfl⟩

theorem follows_isSome (f : Follows r w) (i : Int) :
    (w.channels i).isSome = (r.find i).isSome := by
  simpa using congrArg Option.isSome (f.channels i)

theorem follows_step {v : Poller} {a : Action} (f : Follows r w) (ha : Apart ⟨w, masks r⟩ a)
    (hs : step w a = some v) (hm : masks t = record ⟨w, masks r⟩ a)
    (hc : ∀ i, (v.channels i).map Prod.snd = (t.find i).map Prod.fst) : Follows t v := by
  refine ⟨?_, hc⟩
  rw [hm]
  refine recorded_step f.recorded ha ?_
  simp [history, hs]

theorem follows_add (f : Follows r w) {channel : Channel} {events : SelectEvents}
    (h : r.Free channel) (hf : channel.fd ∉ fds w.buf) :
    Follows (r.insert channel events h) (w.add channel events) := by
  have hfind (i : Int) : (r.insert channel events h).find i =
      if i = channel.fd then some (channel, events) else r.find i := Registry.find_insert h i
  refine follows_step (a := .add channel events) f ⟨hf, trivial⟩ rfl ?_ fun i => ?_
  · funext i
    simp only [masks, record, hfind]
    split <;> rfl
  · simp only [add, assign, hfind]
    split
    · rfl
    · exact f.channels i

theorem follows_remove (f : Follows r w) {channel : Channel}
    (h : r.holds channel = true ∨ r.Free channel) :
    Follows (r.erase channel) (w.remove channel) := by
  have hfind := fun i => Registry.find_erase h i
  refine follows_step (a := .remove channel) f ⟨trivial, trivial⟩ rfl ?_ fun i => ?_
  · funext i
    simp only [masks, record, hfind]
    split <;> rfl
  · have hsame := f.channels i
    simp only [remove, hfind]
    split
    · simp only [assign]
      split
      · rfl
      · exact hsame
    · rename_i hn
      split
      · rename_i hi
        simp [hi, hn]
      · exact hsame

theorem follows_update (f : Follows r w) {channel : Channel} {events : SelectEvents}
    (h : r.holds channel = true ∨ r.Free channel) (hf : FindsOwn w (.update channel events)) :
    Follows (r.set channel events) (w.update channel events) := by
  have hfind (i : Int) : (r.set channel events).find i =
      if i = channel.fd then (r.find i).map fun _ => (channel, events) else r.find i :=
    Registry.find_set h i
  refine follows_step (a := .update channel events) f ⟨trivial, hf⟩ rfl ?_ fun i => ?_
  · funext i
    have hsome := follows_isSome f channel.fd
    simp only [masks, record, hfind]
    by_cases hi : i = channel.fd
    · subst hi
      cases hr : r.find channel.fd with
      | none => simp [hsome, hr]
      | some e => simp [hsome, hr]
    · simp [hi]
  · rw [(channels_update w channel events).1, f.channels i, hfind]
    split
    · rename_i hi
      cases hr : r.find i with
      | none => rfl
      | some e =>
        rcases h with hh | hfree
        · obtain ⟨ev, he⟩ := Registry.holds_find.mp hh
          rw [hi, he] at hr
          cases hr
          rfl
        · rw [hi, Registry.find_free hfree] at hr
          cases hr
    · rfl

theorem follows_call (f : Follows r w) {c : Call} (h : r.step c = some t) (hs : Settled r w c) :
    Follows t (w.call c) := by
  cases c with
  | add channel events =>
    rcases Registry.step_add h with ⟨hh, rfl⟩ | ⟨hh, hf, rfl⟩
    · obtain ⟨ev, he⟩ := Registry.holds_find.mp hh
      have hc : w.contain channel = true := by simp [contain, follows_isSome f, he]
      simpa only [call, hc, if_true] using f
    · have hc : w.contain channel = false := by
        simp [contain, follows_isSome f, Registry.find_free hf]
      simp only [call, hc, Bool.false_eq_true, if_false]
      exact follows_add f hf (hs hh)
  | remove channel =>
    obtain ⟨hc, rfl⟩ := Registry.step_remove h
    have hsame : w.call (.remove channel) = w.remove channel := by
      cases hl : w.channels channel.fd <;> simp [call, contain, remove, hl]
    exact hsame ▸ follows_remove f hc
  | update channel events =>
    obtain ⟨hc, rfl⟩ := Registry.step_update h
    exact follows_update f hc hs

theorem follows_wait (f : Follows r w) {result : Option (List (BitVec 16))} {v : Poller}
    (h : step w (.wait result) = some v) : Follows r v := by
  refine follows_step (a := .wait result) f ⟨trivial, trivial⟩ h rfl fun i => ?_
  have hv : v.channels = w.cleaned.channels := by
    cases result with
    | none =>
      cases h
      rfl
    | some revents =>
      obtain ⟨-, rfl⟩ := step_wait h
      rfl
  rw [hv, cleaned_channels, f.channels]

theorem entries_at (f : Follows r w) {i : Int} {e : Channel × SelectEvents}
    (h : r.find i = some e) :
    (w.buf.filter fun p => p.fd = i).map Pollfd.events = [short e.2] := by
  have hsome : (w.channels i).isSome = true := by simp [follows_isSome f, h]
  obtain ⟨⟨index, channel⟩, hc⟩ := Option.isSome_iff_exists.mp hsome
  have hmem : i ∈ fds w.buf := (f.recorded.registered.own i index channel hc).2
  rw [← List.replicate_one, List.eq_replicate_iff]
  refine ⟨?_, fun mask hm => ?_⟩
  · rw [List.length_map, ← List.countP_eq_length_filter,
      ← List.count_eq_one_of_mem f.recorded.registered.nodup hmem, fds, List.count_eq_countP,
      List.countP_map]
    rfl
  · obtain ⟨p, hp, rfl⟩ := List.mem_map.mp hm
    obtain ⟨hp, hfd⟩ := List.mem_filter.mp hp
    have hfd : p.fd = i := of_decide_eq_true hfd
    obtain ⟨events, hl, he⟩ := f.recorded.masked p hp (by rw [hfd]; exact hsome)
    have hlast : masks r p.fd = some e.2 := by rw [hfd, masks, h, Option.map_some]
    rw [he, Option.some.inj (hl.symm.trans hlast)]

theorem step_polls (w : Poller) (kernel : Kernel) :
    step w (.wait (some (w.answers kernel))) = some (w.polls kernel) := by
  simp [step, answers, polls]

def answered (kernel : Kernel) (p : Pollfd) : Pollfd := { p with revents := kernel p.fd p.events }

def look (channels : Int → Option (Nat × Channel)) (p : Pollfd) : Option Channel × BitVec 16 :=
  match channels p.fd with
  | none => (none, 0)
  | some (_, channel) => (some channel, p.revents)

theorem polls_buf (w : Poller) (kernel : Kernel) :
    (w.polls kernel).buf =
      Partition.partition isReady (w.cleaned.buf.map (answered kernel)) := by
  simp only [polls, wait, answers, polled, List.zipWith_map_right, List.zipWith_self]
  rfl

theorem polls_ready (w : Poller) (kernel : Kernel) :
    (w.polls kernel).ready = (w.cleaned.buf.map (answered kernel)).countP isReady := by
  simp only [polls, wait, answers, List.countP_map]
  rfl

theorem batch_eq (h : w.ready ≤ w.buf.length) :
    w.batch = (w.buf.take w.ready).map (look w.channels) := by
  apply List.ext_getElem?
  intro i
  by_cases hi : i < w.ready
  · have hlt := Nat.lt_of_lt_of_le hi h
    have hget : w.get i = look w.channels w.buf[i] := by
      cases hc : w.channels w.buf[i].fd <;> simp [get, look, hlt, hc]
    simp only [batch, List.getElem?_map, List.getElem?_range hi, List.getElem?_take_of_lt hi,
      List.getElem?_eq_getElem hlt, Option.map_some, hget]
  · have hlen : w.batch.length = w.ready := by simp [batch]
    rw [List.getElem?_eq_none (by omega), List.getElem?_eq_none]
    simp only [List.length_map, List.length_take]
    omega

theorem fds_cleaned (f : Follows r w) : (fds w.cleaned.buf).Perm (r.entries.map Registry.fd) := by
  have hreg : Registered w := f.recorded.registered
  refine (List.perm_ext_iff_of_nodup (registered_cleaned hreg).nodup r.fds).mpr fun i => ?_
  have hcount := once_cleaned hreg i
  rw [follows_isSome f] at hcount
  have hmem : i ∈ r.entries.map Registry.fd ↔ (r.find i).isSome = true :=
    Registry.find_isSome.symm
  refine Iff.trans ?_ hmem.symm
  rw [← List.count_pos_iff, hcount]
  split
  · rename_i h
    simp [h]
  · rename_i h
    simp [h]

theorem look_answered (f : Follows r w) (kernel : Kernel) {p : Pollfd} (hp : p ∈ w.cleaned.buf) :
    (if isReady (answered kernel p) = true then
      some (look w.cleaned.channels (answered kernel p)) else none) = r.deliverAt kernel p.fd := by
  obtain ⟨events, hm, hs⟩ := masked_cleaned f.recorded hp
  obtain ⟨⟨channel, ev⟩, hfind, rfl⟩ := Option.map_eq_some_iff.mp hm
  have hc := cleaned_channels w p.fd
  rw [f.channels, hfind] at hc
  obtain ⟨⟨index, c⟩, hl, rfl⟩ := Option.map_eq_some_iff.mp hc
  obtain ⟨-, hfd⟩ := Registry.find_eq_some.mp hfind
  simp only at hfd
  simp only [isReady, answered, look, hl, Registry.deliverAt, hfind, Option.bind_some,
    Registry.deliver, hfd, hs]
  by_cases hz : kernel p.fd (short ev) = 0 <;> simp [hz]

theorem batch_polls (f : Follows r w) (kernel : Kernel) :
    (w.polls kernel).batch.Perm (r.ready kernel) := by
  have hbuf := polls_buf w kernel
  have hready := polls_ready w kernel
  have hle : (w.polls kernel).ready ≤ (w.polls kernel).buf.length := by
    rw [hready, hbuf, (Partition.partition_perm _).length_eq]
    exact List.countP_le_length
  rw [batch_eq hle, hbuf, hready]
  refine ((Partition.take_partition_perm _).map _).trans ?_
  have hmap : ((w.cleaned.buf.map (answered kernel)).filter isReady).map
      (look (w.polls kernel).channels) =
        w.cleaned.buf.filterMap fun p => r.deliverAt kernel p.fd := by
    rw [List.filter_map, List.map_map, ← List.filterMap_eq_map, List.filterMap_filter]
    refine List.filterMap_congr fun p hp => ?_
    exact look_answered f kernel hp
  rw [hmap, Registry.ready_fds]
  have hperm := (fds_cleaned f).filterMap (r.deliverAt kernel)
  rwa [fds, List.filterMap_map] at hperm

end Poller
end Pedronet
