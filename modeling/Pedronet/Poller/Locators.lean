import Pedronet.Poller
import Mathlib.Data.List.Nodup

namespace Pedronet
namespace Poller

def fds (buf : List Pollfd) : List Int := buf.map Pollfd.fd

def InStep (w : Poller) : Prop :=
  ∀ fd index channel, w.channels fd = some (index, channel) →
    ∃ p, w.buf[index]? = some p ∧ p.fd = channel.fd

def UpdatesOwn (w : Poller) : Prop :=
  ∀ channel events index, w.channels channel.fd = some (index, channel) →
    (w.update channel events).buf =
      w.buf.map fun p => if p.fd = channel.fd then { p with events := short events } else p

def Fresh (w : Poller) : Action → Prop
  | .add channel _ => channel.fd ∉ fds w.buf
  | _ => True

instance (w : Poller) : DecidablePred (Fresh w)
  | .add _ _ => inferInstanceAs (Decidable (_ ∉ _))
  | .remove _ | .update _ _ | .wait _ => isTrue trivial

def ReadyFirst : Action → Prop
  | .wait (some revents) => revents.Pairwise fun r s => s ≠ 0 → r ≠ 0
  | _ => True

instance : DecidablePred ReadyFirst
  | .wait (some revents) => inferInstanceAs (Decidable (revents.Pairwise _))
  | .add _ _ | .remove _ | .update _ _ | .wait none => isTrue trivial

structure Registered (w : Poller) : Prop where
  nodup : (fds w.buf).Nodup
  own : ∀ fd index channel, w.channels fd = some (index, channel) →
    channel.fd = fd ∧ fd ∈ fds w.buf
  clean : w.cleanable = false → ∀ p ∈ w.buf, (w.channels p.fd).isSome

theorem buf_update {w : Poller} (r : Registered w) {channel ch : Channel} {index : Nat}
    (hc : w.channels channel.fd = some (index, ch))
    (hf : (w.buf[index]?).map Pollfd.fd = some channel.fd) (events : SelectEvents) :
    (w.update channel events).buf =
      w.buf.map fun p => if p.fd = channel.fd then { p with events := short events } else p := by
  obtain ⟨q, hq, hfd⟩ := Option.map_eq_some_iff.mp hf
  simp only [update, hc]
  apply List.ext_getElem?
  intro i
  rw [List.getElem?_modify, List.getElem?_map]
  cases hp : w.buf[i]? with
  | none => simp
  | some p =>
    by_cases hi : index = i
    · subst hi
      cases hq.symm.trans hp
      simp [hfd]
    · have hne : p.fd ≠ channel.fd := by
        intro he
        have h1 : (fds w.buf)[i]? = some channel.fd := by simp [fds, hp, he]
        have h2 : (fds w.buf)[index]? = some channel.fd := by simp [fds, hq, hfd]
        have hlt : index < (fds w.buf).length := (List.getElem?_eq_some_iff.mp h2).1
        exact hi ((List.getElem?_inj hlt r.nodup).mp (h2.trans h1.symm))
      simp [hi, hne]

theorem updates_own {w : Poller} (r : Registered w) (h : InStep w) : UpdatesOwn w := by
  intro channel events index hc
  obtain ⟨q, hq, hfd⟩ := h _ _ _ hc
  exact buf_update r hc (by rw [hq, Option.map_some, hfd]) events

theorem clean_up_from_channels (channels : Int → Option (Nat × Channel)) (kept rest : List Pollfd)
    (fd : Int) :
    ((cleanUpFrom channels kept rest).2 fd).map Prod.snd = (channels fd).map Prod.snd := by
  induction rest generalizing channels kept with
  | nil => rfl
  | cons p rest ih =>
    simp only [cleanUpFrom]
    split
    · exact ih _ _
    · rename_i index channel hc
      rw [ih]
      by_cases hfd : fd = p.fd
      · simp [assign, hfd, hc]
      · simp [assign, hfd]

theorem clean_up_from_buf (channels : Int → Option (Nat × Channel)) (kept rest : List Pollfd) :
    (cleanUpFrom channels kept rest).1 = kept ++ rest.filter fun p => (channels p.fd).isSome := by
  induction rest generalizing channels kept with
  | nil => simp [cleanUpFrom]
  | cons p rest ih =>
    simp only [cleanUpFrom]
    split
    · rename_i hc
      rw [ih]
      simp [hc]
    · rename_i index channel hc
      have hsame : ∀ q : Pollfd, (assign channels p.fd (some (kept.length, channel)) q.fd).isSome =
          (channels q.fd).isSome := by
        intro q
        by_cases hq : q.fd = p.fd
        · simp [assign, hq, hc]
        · simp [assign, hq]
      rw [ih]
      simp [hc, hsame]

theorem clean_up_from_locators {channels : Int → Option (Nat × Channel)} {kept rest : List Pollfd}
    (h : ∀ fd index channel, channels fd = some (index, channel) →
      fd ∈ fds rest ∨ ∃ p, kept[index]? = some p ∧ p.fd = fd)
    {fd : Int} {index : Nat} {channel : Channel}
    (hc : (cleanUpFrom channels kept rest).2 fd = some (index, channel)) :
    ∃ p, (cleanUpFrom channels kept rest).1[index]? = some p ∧ p.fd = fd := by
  induction rest generalizing channels kept with
  | nil => exact (h fd index channel hc).resolve_left (by simp [fds])
  | cons p rest ih =>
    simp only [cleanUpFrom] at hc ⊢
    split at hc
    · rename_i hnone
      refine ih (fun fd' index' channel' h' => ?_) hc
      have hne : fd' ≠ p.fd := by
        rintro rfl
        rw [hnone] at h'
        cases h'
      simpa [fds, hne] using h fd' index' channel' h'
    · rename_i old ch hsome
      refine ih (fun fd' index' channel' h' => ?_) hc
      by_cases hfd : fd' = p.fd
      · subst hfd
        simp only [assign, if_true, Option.some.injEq, Prod.mk.injEq] at h'
        obtain ⟨rfl, -⟩ := h'
        exact .inr ⟨p, by simp, rfl⟩
      · simp only [assign, if_neg hfd] at h'
        rcases h fd' index' channel' h' with hm | ⟨q, hq, hqfd⟩
        · exact .inl (by simpa [fds, hfd] using hm)
        · have hlt := (List.getElem?_eq_some_iff.mp hq).1
          exact .inr ⟨q, by rw [List.getElem?_append_left hlt]; exact hq, hqfd⟩

theorem isSome_clean_up {channels : Int → Option (Nat × Channel)} {kept rest : List Pollfd}
    {fd : Int} :
    ((cleanUpFrom channels kept rest).2 fd).isSome = (channels fd).isSome := by
  have h := congrArg Option.isSome (clean_up_from_channels channels kept rest fd)
  simpa using h

theorem buf_clean_up (w : Poller) :
    w.cleanUp.buf = w.buf.filter fun p => (w.channels p.fd).isSome := by
  have h := clean_up_from_buf w.channels [] w.buf
  rwa [List.nil_append] at h

theorem locators_clean_up {w : Poller} (r : Registered w) {fd : Int} {index : Nat}
    {channel : Channel} (hc : w.cleanUp.channels fd = some (index, channel)) :
    ∃ p, w.cleanUp.buf[index]? = some p ∧ p.fd = fd :=
  clean_up_from_locators (fun fd' index' channel' h' => .inl (r.own fd' index' channel' h').2) hc

theorem registered_clean_up {w : Poller} (r : Registered w) : Registered w.cleanUp := by
  refine ⟨?_, ?_, ?_⟩
  · rw [buf_clean_up]
    exact r.nodup.sublist (List.filter_sublist.map _)
  · intro fd index channel hc
    have hsnd : (w.channels fd).map Prod.snd = some channel := by
      rw [← clean_up_from_channels w.channels [] w.buf fd]
      exact congrArg (Option.map Prod.snd) hc
    obtain ⟨⟨old, ch⟩, hold, rfl⟩ := Option.map_eq_some_iff.mp hsnd
    obtain ⟨p, hp, hfd⟩ := locators_clean_up r hc
    exact ⟨(r.own fd old ch hold).1, List.mem_map.mpr ⟨p, List.mem_of_getElem? hp, hfd⟩⟩
  · intro _ p hp
    rw [buf_clean_up] at hp
    have hs := (List.mem_filter.mp hp).2
    exact isSome_clean_up.trans hs

theorem in_step_clean_up {w : Poller} (r : Registered w) : InStep w.cleanUp := by
  intro fd index channel hc
  obtain ⟨p, hp, hfd⟩ := locators_clean_up r hc
  exact ⟨p, hp, hfd.trans ((registered_clean_up r).own fd index channel hc).1.symm⟩

theorem registered_cleaned {w : Poller} (r : Registered w) : Registered w.cleaned := by
  unfold cleaned
  split
  · exact registered_clean_up r
  · exact r

theorem in_step_cleaned {w : Poller} (r : Registered w) (h : InStep w) : InStep w.cleaned := by
  unfold cleaned
  split
  · exact in_step_clean_up r
  · exact h

theorem all_cleaned {w : Poller} (r : Registered w) :
    ∀ p ∈ w.cleaned.buf, (w.cleaned.channels p.fd).isSome := by
  by_cases hc : w.cleanable = true
  · simp only [cleaned, hc, if_true]
    intro p hp
    rw [buf_clean_up] at hp
    exact isSome_clean_up.trans (List.mem_filter.mp hp).2
  · have hf : w.cleanable = false := by simpa using hc
    simpa [cleaned, hf] using r.clean hf

theorem fds_polled {buf : List Pollfd} {revents : List (BitVec 16)}
    (h : revents.length = buf.length) : fds (polled buf revents) = fds buf := by
  induction buf generalizing revents with
  | nil => simp [polled, fds]
  | cons p buf ih =>
    cases revents with
    | nil => simp at h
    | cons r revents =>
      have hl : revents.length = buf.length := by simpa using h
      simpa [polled, fds] using ih hl

theorem partitioned_polled {buf : List Pollfd} {revents : List (BitVec 16)}
    (h : revents.length = buf.length) :
    Partition.Partitioned isReady (polled buf revents) ↔
      revents.Pairwise fun r s => s ≠ 0 → r ≠ 0 := by
  have hmap : (polled buf revents).map Pollfd.revents = revents := by
    induction buf generalizing revents with
    | nil => simpa [polled] using h
    | cons p buf ih =>
      cases revents with
      | nil => simp at h
      | cons r revents =>
        have hl : revents.length = buf.length := by simpa using h
        simpa [polled] using ih hl
  have hpair : ((polled buf revents).map Pollfd.revents).Pairwise (fun r s => s ≠ 0 → r ≠ 0) ↔
      Partition.Partitioned isReady (polled buf revents) := by
    rw [List.pairwise_map]
    simp [Partition.Partitioned, isReady]
  rw [hmap] at hpair
  exact hpair.symm

theorem fds_partition (buf : List Pollfd) :
    (fds (Partition.partition isReady buf)).Perm (fds buf) :=
  (Partition.partition_perm buf).map _

theorem partition_moves {buf : List Pollfd} (hn : (fds buf).Nodup)
    (h : fds (Partition.partition isReady buf) = fds buf) :
    Partition.partition isReady buf = buf := by
  have hperm := Partition.partition_perm (p := isReady) buf
  apply List.ext_getElem?
  intro i
  cases hp : (Partition.partition isReady buf)[i]? with
  | none =>
    have hlen := List.getElem?_eq_none_iff.mp hp
    exact (List.getElem?_eq_none (hperm.length_eq ▸ hlen)).symm
  | some p =>
    have hfd : (fds buf)[i]? = some p.fd := by rw [← h]; simp [fds, hp]
    simp only [fds, List.getElem?_map, Option.map_eq_some_iff] at hfd
    obtain ⟨q, hq, he⟩ := hfd
    have hmem : p ∈ buf := hperm.subset (List.mem_of_getElem? hp)
    rw [hq, List.inj_on_of_nodup_map hn (List.mem_of_getElem? hq) hmem he]

theorem registered_same {w t : Poller} (r : Registered w) (hb : (fds t.buf).Perm (fds w.buf))
    (hc : ∀ fd, (t.channels fd) = w.channels fd) (hl : t.cleanable = w.cleanable) :
    Registered t := by
  refine ⟨hb.nodup_iff.mpr r.nodup, fun fd index channel h => ?_, fun h p hp => ?_⟩
  · obtain ⟨h1, h2⟩ := r.own fd index channel (hc fd ▸ h)
    exact ⟨h1, hb.symm.subset h2⟩
  · obtain ⟨q, hq, he⟩ := List.mem_map.mp (hb.subset (List.mem_map_of_mem hp))
    rw [hc, ← he]
    exact r.clean (hl ▸ h) q hq

theorem fds_update (w : Poller) (channel : Channel) (events : SelectEvents) :
    fds (w.update channel events).buf = fds w.buf := by
  simp only [update]
  split
  · apply List.ext_getElem?
    intro i
    simp only [fds, List.getElem?_map, List.getElem?_modify]
    cases w.buf[i]? with
    | none => rfl
    | some p =>
      rename_i index _ _
      by_cases hi : index = i <;> simp [hi]
  · rfl

theorem channels_update (w : Poller) (channel : Channel) (events : SelectEvents) :
    (w.update channel events).channels = w.channels ∧
      (w.update channel events).cleanable = w.cleanable := by
  unfold update
  split <;> exact ⟨rfl, rfl⟩

theorem in_step_update {w : Poller} (h : InStep w) (channel : Channel) (events : SelectEvents) :
    InStep (w.update channel events) := by
  intro fd index ch hc
  rw [(channels_update w channel events).1] at hc
  obtain ⟨p, hp, hfd⟩ := h fd index ch hc
  have hf : (fds (w.update channel events).buf)[index]? = some ch.fd := by
    rw [fds_update]
    simp [fds, hp, hfd]
  simpa [fds] using hf

theorem registered_add {w : Poller} (r : Registered w) {channel : Channel}
    (hf : channel.fd ∉ fds w.buf) (events : SelectEvents) : Registered (w.add channel events) := by
  have hfds : fds (w.add channel events).buf = fds w.buf ++ [channel.fd] := by simp [fds, add]
  refine ⟨?_, ?_, ?_⟩
  · rw [hfds]
    exact List.nodup_append.mpr ⟨r.nodup, List.nodup_singleton _,
      fun a ha b hb he => hf (List.mem_singleton.mp hb ▸ he ▸ ha)⟩
  · intro fd index ch hc
    rw [hfds]
    by_cases hfd : fd = channel.fd
    · simp only [add, assign, if_pos hfd, Option.some.injEq, Prod.mk.injEq] at hc
      exact ⟨hc.2 ▸ hfd.symm, by simp [hfd]⟩
    · simp only [add, assign, if_neg hfd] at hc
      obtain ⟨h1, h2⟩ := r.own fd index ch hc
      exact ⟨h1, List.mem_append_left _ h2⟩
  · intro hcl p hp
    rcases List.mem_append.mp hp with hp | hp
    · by_cases hfd : p.fd = channel.fd
      · simp [add, assign, hfd]
      · simpa [add, assign, hfd] using r.clean hcl p hp
    · have hfd : p.fd = channel.fd := by rw [List.mem_singleton.mp hp]
      simp [add, assign, hfd]

theorem in_step_add {w : Poller} (h : InStep w) (channel : Channel) (events : SelectEvents) :
    InStep (w.add channel events) := by
  intro fd index ch hc
  by_cases hfd : fd = channel.fd
  · simp only [add, assign, if_pos hfd, Option.some.injEq, Prod.mk.injEq] at hc
    obtain ⟨rfl, rfl⟩ := hc
    exact ⟨⟨channel.fd, short events, 0⟩, by simp [add], rfl⟩
  · simp only [add, assign, if_neg hfd] at hc
    obtain ⟨p, hp, he⟩ := h fd index ch hc
    have hlt := (List.getElem?_eq_some_iff.mp hp).1
    exact ⟨p, by rw [add, List.getElem?_append_left hlt]; exact hp, he⟩

theorem remove_spec (w : Poller) (channel : Channel) :
    (w.remove channel).buf = w.buf ∧
      (∀ fd locator, (w.remove channel).channels fd = some locator → w.channels fd = some locator) ∧
      ((w.remove channel).cleanable = false → w.remove channel = w) := by
  unfold remove
  split
  · refine ⟨rfl, fun fd locator h => ?_, fun h => by cases h⟩
    simp only [assign] at h
    split at h
    · cases h
    · exact h
  · exact ⟨rfl, fun _ _ h => h, fun _ => rfl⟩

theorem registered_remove {w : Poller} (r : Registered w) (channel : Channel) :
    Registered (w.remove channel) := by
  obtain ⟨hb, hc, hl⟩ := remove_spec w channel
  refine ⟨by rw [hb]; exact r.nodup, fun fd index ch h => ?_, fun h => ?_⟩
  · rw [hb]
    exact r.own fd index ch (hc fd _ h)
  · have he := hl h
    rw [he] at h ⊢
    exact r.clean h

theorem in_step_remove {w : Poller} (h : InStep w) (channel : Channel) :
    InStep (w.remove channel) := by
  obtain ⟨hb, hc, -⟩ := remove_spec w channel
  intro fd index ch hm
  rw [hb]
  exact h fd index ch (hc fd _ hm)

theorem registered_wait {w : Poller} (r : Registered w) {revents : List (BitVec 16)}
    (hl : revents.length = w.cleaned.buf.length) : Registered (w.wait (some revents)) := by
  refine registered_same (registered_cleaned r) ?_ (fun _ => rfl) rfl
  exact (fds_partition _).trans (by rw [fds_polled hl])

-- All entries are registered once the dead ones are gone, so any entry that moves leaves its locator behind.
theorem in_step_wait {w : Poller} (r : Registered w) (h : InStep w) {revents : List (BitVec 16)}
    (hl : revents.length = w.cleaned.buf.length) :
    InStep (w.wait (some revents)) ↔ revents.Pairwise fun r s => s ≠ 0 → r ≠ 0 := by
  have hr := registered_cleaned r
  have hs := in_step_cleaned r h
  have hfds := fds_polled hl
  rw [← partitioned_polled hl, ← Partition.partition_eq_iff]
  constructor
  · intro ht
    refine partition_moves (hfds ▸ hr.nodup) ?_
    rw [hfds]
    apply List.ext_getElem?
    intro i
    cases hp : w.cleaned.buf[i]? with
    | none =>
      have hlen := List.getElem?_eq_none_iff.mp hp
      have hlen' : (fds (Partition.partition isReady (polled w.cleaned.buf revents))).length =
          w.cleaned.buf.length := by
        rw [(fds_partition _).length_eq, hfds]
        simp [fds]
      rw [List.getElem?_eq_none (hlen' ▸ hlen), List.getElem?_eq_none (by simpa [fds] using hlen)]
    | some p =>
      obtain ⟨⟨index, channel⟩, hc⟩ :=
        Option.isSome_iff_exists.mp (all_cleaned r p (List.mem_of_getElem? hp))
      have hown := (hr.own p.fd index channel hc).1
      have hi : (fds w.cleaned.buf)[i]? = some p.fd := by simp [fds, hp]
      obtain ⟨q, hq, hqfd⟩ := hs p.fd index channel hc
      have hidx : (fds w.cleaned.buf)[index]? = some p.fd := by simp [fds, hq, hqfd, hown]
      have hlt := (List.getElem?_eq_some_iff.mp hi).1
      have heq : i = index := (List.getElem?_inj hlt hr.nodup).mp (hi.trans hidx.symm)
      obtain ⟨q', hq', hqfd'⟩ := ht p.fd index channel hc
      rw [hi, heq]
      simp only [wait] at hq'
      simp [fds, hq', hqfd', hown]
  · intro hp fd index channel hc
    obtain ⟨q, hq, hqfd⟩ := hs fd index channel hc
    have hf : (fds (polled w.cleaned.buf revents))[index]? = some channel.fd := by
      rw [hfds]
      simp [fds, hq, hqfd]
    simp only [wait, hp]
    simpa [fds] using hf

theorem registered_step {w t : Poller} {a : Action} (r : Registered w) (hf : Fresh w a)
    (h : step w a = some t) : Registered t := by
  cases a with
  | add channel events =>
    cases h
    exact registered_add r hf events
  | remove channel =>
    cases h
    exact registered_remove r channel
  | update channel events =>
    cases h
    obtain ⟨hc, hl⟩ := channels_update w channel events
    exact registered_same r (by rw [fds_update]) (fun fd => by rw [hc]) hl
  | wait result =>
    cases result with
    | none =>
      cases h
      exact registered_same (registered_cleaned r) (.refl _) (fun _ => rfl) rfl
    | some revents =>
      obtain ⟨hl, rfl⟩ := step_wait h
      exact registered_wait r hl

theorem in_step_step {w t : Poller} {a : Action} (r : Registered w) (hs : InStep w)
    (h : step w a = some t) : InStep t ↔ ReadyFirst a := by
  cases a with
  | add channel events =>
    cases h
    exact ⟨fun _ => trivial, fun _ => in_step_add hs channel events⟩
  | remove channel =>
    cases h
    exact ⟨fun _ => trivial, fun _ => in_step_remove hs channel⟩
  | update channel events =>
    cases h
    exact ⟨fun _ => trivial, fun _ => in_step_update hs channel events⟩
  | wait result =>
    cases result with
    | none =>
      cases h
      exact ⟨fun _ => trivial, fun _ => in_step_cleaned r hs⟩
    | some revents =>
      obtain ⟨hl, rfl⟩ := step_wait h
      exact in_step_wait r hs hl

theorem registered_create : Registered create := by
  refine ⟨List.nodup_nil, fun fd index channel h => ?_, fun _ p hp => ?_⟩
  · simp [create] at h
  · simp [create] at hp

theorem in_step_create : InStep create := by
  intro fd index channel h
  simp [create] at h

theorem locators_iff (as : List Action) (hf : system.Along Fresh create as) :
    system.Always (fun w => InStep w ∧ UpdatesOwn w) create as ↔
      system.Along (fun _ a => ReadyFirst a) create as := by
  refine Transition.System.always_iff_along (M := system) (I := Registered)
    (fun _ _ _ r f h => registered_step r f h) (fun w a t r hp f h => ?_)
    registered_create ⟨in_step_create, updates_own registered_create in_step_create⟩ hf
  rw [← in_step_step r hp.1 h]
  exact ⟨fun hp => hp.1, fun hs => ⟨hs, updates_own (registered_step r f h) hs⟩⟩

theorem locators_ready_first :
    system.Always (fun w => InStep w ∧ UpdatesOwn w) create
      [.add ⟨0, 3⟩ .kReadEvent, .add ⟨1, 4⟩ .kReadEvent, .wait (some [1, 0]), .remove ⟨0, 3⟩, .wait none] :=
  (locators_iff _ (by decide)).mpr (by decide)

theorem wait_swaps_locators :
    ¬ ∀ as, system.Along Fresh create as →
      system.Always (fun w => InStep w ∧ UpdatesOwn w) create as := by
  intro h
  have ha := h [.add ⟨0, 3⟩ .kReadEvent, .add ⟨1, 4⟩ .kReadEvent, .wait (some [0, 1])] (by decide)
  obtain ⟨hs, -⟩ := Transition.System.always_last ha rfl
  obtain ⟨p, hp, hfd⟩ := hs 3 0 ⟨0, 3⟩ rfl
  cases hp
  revert hfd
  decide

end Poller
end Pedronet
