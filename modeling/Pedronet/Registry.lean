import Pedronet.Keyed
import Pedronet.Poller

namespace Pedronet
open Poller (Channel short)

-- What a loop has registered: each channel with the mask asked for last. Channels that live at
-- once share neither a descriptor nor an address.
structure Registry where
  entries : List (Channel × SelectEvents)
  fds : (entries.map fun e => e.1.fd).Nodup
  addresses : (entries.map fun e => e.1.address).Nodup

-- What poll(2) and epoll_wait(2) find ready on a descriptor, of the events asked for.
abbrev Kernel := Int → BitVec 16 → BitVec 16

namespace Registry

inductive Call where
  | add (channel : Channel) (events : SelectEvents)
  | remove (channel : Channel)
  | update (channel : Channel) (events : SelectEvents)
deriving DecidableEq, Repr

def Call.channel : Call → Channel
  | .add channel _ | .remove channel | .update channel _ => channel

def fd (e : Channel × SelectEvents) : Int := e.1.fd

def address (e : Channel × SelectEvents) : Nat := e.1.address

def create : Registry := ⟨[], List.nodup_nil, List.nodup_nil⟩

def holds (r : Registry) (channel : Channel) : Bool := decide (channel ∈ r.entries.map Prod.fst)

def Free (r : Registry) (channel : Channel) : Prop :=
  channel.fd ∉ r.entries.map fd ∧ channel.address ∉ r.entries.map address

instance (r : Registry) : DecidablePred r.Free := fun _ => inferInstanceAs (Decidable (_ ∧ _))

def insert (r : Registry) (channel : Channel) (events : SelectEvents) (h : r.Free channel) :
    Registry where
  entries := r.entries ++ [(channel, events)]
  fds := by
    rw [List.map_append, List.map_singleton, ← List.concat_eq_append]
    exact List.Nodup.concat h.1 r.fds
  addresses := by
    rw [List.map_append, List.map_singleton, ← List.concat_eq_append]
    exact List.Nodup.concat h.2 r.addresses

def erase (r : Registry) (channel : Channel) : Registry where
  entries := r.entries.filter fun e => e.1 ≠ channel
  fds := r.fds.sublist (List.filter_sublist.map _)
  addresses := r.addresses.sublist (List.filter_sublist.map _)

def assign (channel : Channel) (events : SelectEvents) (e : Channel × SelectEvents) :
    Channel × SelectEvents := if e.1 = channel then (channel, events) else e

theorem assign_fst (channel : Channel) (events : SelectEvents) (e : Channel × SelectEvents) :
    (assign channel events e).1 = e.1 := by
  unfold assign
  split
  · rename_i h
    exact h.symm
  · rfl

def set (r : Registry) (channel : Channel) (events : SelectEvents) : Registry where
  entries := r.entries.map (assign channel events)
  fds := by
    rw [List.map_map]
    simpa only [Function.comp_def, assign_fst] using r.fds
  addresses := by
    rw [List.map_map]
    simpa only [Function.comp_def, assign_fst] using r.addresses

-- A channel that is not registered is none of those that are.
def step (r : Registry) : Call → Option Registry
  | .add channel events =>
    if r.holds channel then some r
    else if h : r.Free channel then some (r.insert channel events h) else none
  | .remove channel =>
    if r.holds channel = true ∨ r.Free channel then some (r.erase channel) else none
  | .update channel events =>
    if r.holds channel = true ∨ r.Free channel then some (r.set channel events) else none

def deliver (kernel : Kernel) (e : Channel × SelectEvents) : Option (Option Channel × BitVec 16) :=
  let revents := kernel e.1.fd (short e.2)
  if revents = 0 then none else some (some e.1, revents)

def ready (r : Registry) (kernel : Kernel) : List (Option Channel × BitVec 16) :=
  r.entries.filterMap (deliver kernel)

def find (r : Registry) (i : Int) : Option (Channel × SelectEvents) := Keyed.lookup fd r.entries i

variable {r : Registry} {channel : Channel} {events : SelectEvents}

theorem find_eq_some {i : Int} {e : Channel × SelectEvents} :
    r.find i = some e ↔ e ∈ r.entries ∧ e.1.fd = i := Keyed.lookup_eq_some r.fds

theorem holds_iff : r.holds channel = true ↔ ∃ events, (channel, events) ∈ r.entries := by
  simp [holds]

theorem holds_find : r.holds channel = true ↔ ∃ events, r.find channel.fd = some (channel, events) := by
  rw [holds_iff]
  simp only [find_eq_some, and_true]

theorem find_free (h : r.Free channel) : r.find channel.fd = none := Keyed.lookup_eq_none.mpr h.1

theorem find_insert (h : r.Free channel) (i : Int) :
    (r.insert channel events h).find i =
      if i = channel.fd then some (channel, events) else r.find i :=
  Keyed.lookup_append (a := (channel, events)) h.1

theorem fst_ne_iff {e : Channel × SelectEvents} (hc : r.holds channel = true ∨ r.Free channel)
    (he : e ∈ r.entries) : e.1 ≠ channel ↔ e.1.fd ≠ channel.fd := by
  refine ⟨fun hne hfd => ?_, fun hne he => hne (he ▸ rfl)⟩
  rcases hc with hh | hf
  · obtain ⟨events, hm⟩ := holds_iff.mp hh
    exact hne (congrArg Prod.fst (List.inj_on_of_nodup_map r.fds he hm hfd))
  · exact hf.1 (hfd ▸ List.mem_map_of_mem he)

theorem address_ne_iff {e : Channel × SelectEvents} (hc : r.holds channel = true ∨ r.Free channel)
    (he : e ∈ r.entries) : e.1 ≠ channel ↔ e.1.address ≠ channel.address := by
  refine ⟨fun hne ha => ?_, fun hne he => hne (he ▸ rfl)⟩
  rcases hc with hh | hf
  · obtain ⟨events, hm⟩ := holds_iff.mp hh
    exact hne (congrArg Prod.fst (List.inj_on_of_nodup_map r.addresses he hm ha))
  · exact hf.2 (ha ▸ List.mem_map_of_mem he)

theorem lookup_erase {κ : Type} [DecidableEq κ] (key : Channel × SelectEvents → κ) {k : κ}
    (hk : ∀ e ∈ r.entries, e.1 ≠ channel ↔ key e ≠ k) (i : κ) :
    Keyed.lookup key (r.erase channel).entries i =
      if i = k then none else Keyed.lookup key r.entries i := by
  have hf : (r.erase channel).entries = r.entries.filter (fun e => key e ≠ k) :=
    List.filter_congr fun e he => decide_eq_decide.mpr (hk e he)
  rw [hf]
  exact Keyed.lookup_filter _

theorem find_erase (hc : r.holds channel = true ∨ r.Free channel) (i : Int) :
    (r.erase channel).find i = if i = channel.fd then none else r.find i :=
  lookup_erase fd (fun _ he => fst_ne_iff hc he) i

theorem find_set (hc : r.holds channel = true ∨ r.Free channel) (i : Int) :
    (r.set channel events).find i =
      if i = channel.fd then (r.find i).map fun _ => (channel, events) else r.find i := by
  have hkey : ∀ e, fd (assign channel events e) = fd e := fun e => by simp [fd, assign_fst]
  rw [find, set, Keyed.lookup_map hkey]
  cases he : Keyed.lookup fd r.entries i with
  | none => simp [find, he]
  | some e =>
    obtain ⟨hm, hk⟩ := Keyed.lookup_mem he
    have hiff := fst_ne_iff hc hm
    have hk' : e.1.fd = i := hk
    rw [hk'] at hiff
    simp only [find, he, Option.map_some, assign]
    by_cases hi : i = channel.fd
    · simp [hi, not_not.mp fun hne => hiff.mp hne hi]
    · simp [hi, hiff.mpr hi]

theorem erase_free (h : r.Free channel) : (r.erase channel).entries = r.entries :=
  List.filter_eq_self.mpr fun _ he => decide_eq_true fun hc =>
    h.1 (hc ▸ List.mem_map_of_mem he)

theorem set_free (h : r.Free channel) : (r.set channel events).entries = r.entries := by
  have hsame : ∀ e ∈ r.entries, assign channel events e = id e := by
    intro e he
    have hne : e.1 ≠ channel := fun hc => h.1 (hc ▸ List.mem_map_of_mem he)
    exact if_neg hne
  exact (List.map_congr_left hsame).trans (List.map_id _)

def deliverAt (r : Registry) (kernel : Kernel) (i : Int) : Option (Option Channel × BitVec 16) :=
  (r.find i).bind (deliver kernel)

theorem ready_fds (kernel : Kernel) :
    r.ready kernel = (r.entries.map fd).filterMap (r.deliverAt kernel) := by
  rw [List.filterMap_map, ready]
  refine List.filterMap_congr fun e he => ?_
  have hf : r.find (fd e) = some e := find_eq_some.mpr ⟨he, rfl⟩
  simp [deliverAt, hf]

theorem find_isSome {i : Int} : (r.find i).isSome = true ↔ i ∈ r.entries.map fd :=
  Keyed.lookup_isSome

theorem step_add {t : Registry} (h : r.step (.add channel events) = some t) :
    (r.holds channel = true ∧ t = r) ∨
      (r.holds channel = false ∧ ∃ hf : r.Free channel, t = r.insert channel events hf) := by
  simp only [step] at h
  split at h
  · rename_i hh
    exact .inl ⟨hh, by simpa using h.symm⟩
  · rename_i hh
    split at h
    · rename_i hf
      exact .inr ⟨by simpa using hh, hf, by simpa using h.symm⟩
    · cases h

theorem step_remove {t : Registry} (h : r.step (.remove channel) = some t) :
    (r.holds channel = true ∨ r.Free channel) ∧ t = r.erase channel := by
  simp only [step] at h
  split at h
  · rename_i hc
    exact ⟨hc, by simpa using h.symm⟩
  · cases h

theorem step_update {t : Registry} (h : r.step (.update channel events) = some t) :
    (r.holds channel = true ∨ r.Free channel) ∧ t = r.set channel events := by
  simp only [step] at h
  split at h
  · rename_i hc
    exact ⟨hc, by simpa using h.symm⟩
  · cases h

theorem mem_insert (h : r.Free channel) {e : Channel × SelectEvents} :
    e ∈ (r.insert channel events h).entries ↔ e ∈ r.entries ∨ e = (channel, events) := by
  simp [insert]

theorem mem_erase {e : Channel × SelectEvents} :
    e ∈ (r.erase channel).entries ↔ e ∈ r.entries ∧ e.1 ≠ channel := by
  simp [erase]

theorem mem_set {c : Channel} {mask : SelectEvents} :
    (c, mask) ∈ (r.set channel events).entries ↔
      if c = channel then r.holds channel = true ∧ mask = events else (c, mask) ∈ r.entries := by
  rw [set, List.mem_map]
  split
  · rename_i hc
    rw [hc, holds_iff]
    constructor
    · rintro ⟨e, he, ha⟩
      have hfst : e.1 = channel := by rw [← assign_fst channel events e, ha]
      rw [assign, if_pos hfst] at ha
      exact ⟨⟨e.2, hfst ▸ he⟩, (Prod.mk.inj ha).2.symm⟩
    · rintro ⟨⟨old, ho⟩, rfl⟩
      exact ⟨(channel, old), ho, if_pos rfl⟩
  · rename_i hc
    constructor
    · rintro ⟨e, he, ha⟩
      have hfst : e.1 ≠ channel := by rwa [← assign_fst channel events e, ha]
      rw [assign, if_neg hfst] at ha
      exact ha ▸ he
    · exact fun hm => ⟨(c, mask), hm, if_neg hc⟩

theorem step_frame {t : Registry} {call : Call} {c : Channel} (h : r.step call = some t)
    (hc : c ≠ call.channel) (mask : SelectEvents) : (c, mask) ∈ t.entries ↔ (c, mask) ∈ r.entries := by
  cases call with
  | add channel events =>
    rcases step_add h with ⟨-, rfl⟩ | ⟨-, hf, rfl⟩
    · exact Iff.rfl
    · rw [mem_insert]
      exact or_iff_left fun he => hc (Prod.mk.inj he).1
  | remove channel =>
    obtain ⟨-, rfl⟩ := step_remove h
    rw [mem_erase]
    exact and_iff_left hc
  | update channel events =>
    obtain ⟨-, rfl⟩ := step_update h
    rw [mem_set]
    exact iff_of_eq (if_neg hc)

end Registry
end Pedronet
