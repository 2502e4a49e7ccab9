import Pedronet.TcpLink
import Pedronet.TcpConnection.WriteClosed

namespace Pedronet
namespace TcpLink
open TcpConnection
variable {w t : World} {c d : TcpConnection}

def Closing (w : World) : Prop :=
  w.conn.state.past = false →
    Carried (·.shuts = false) (fun _ pc => pc.shuts = false) (·.shuts = false) w

theorem closing_kept {a : TcpConnection.Action} (k : Closing w)
    (h : TcpConnection.step w a = some t) : Closing t := by
  intro ht
  have hw : w.conn.state.past = false := by
    refine Bool.eq_false_iff.mpr fun hp => ?_
    rw [past_step h hp] at ht
    cases ht
  refine carried_step (k hw) h ?_ ?_ ?_ ?_ ?_ ?_ ?_ ?_
  · rintro op -
    cases op <;> rfl
  · rintro id op pc - ho
    unfold Op.onUser at ho
    split at ho <;> cases ho <;> rfl
  · exact fun _ _ hj => hj
  · exact fun _ _ _ _ hc => calls_shuts hc ht
  · exact fun _ i _ _ _ hl he => executes_shuts he ((k hw).loop i (by simp [hl])) ht
  · exact fun _ _ hj => hj
  · rfl
  · intro _ cb
    cases cb <;> rfl

theorem closing_init : Closing .init := fun _ =>
  ⟨(fun _ h => by cases h), (fun _ _ h => by cases h), fun _ h => by cases h⟩

def fills : Instr → Bool
  | .fill bytes => bytes != []
  | _ => false

-- A handler puts no bytes into output_ itself once the write side is closed.
def Sealed (w : World) : TcpConnection.Action → Prop
  | .exec _ => w.conn.writeClosed = true → ∀ i ∈ w.loop.head?, fills i = false
  | _ => True

instance (w : World) : DecidablePred (Sealed w)
  | .exec _ => inferInstanceAs (Decidable (_ → ∀ _ ∈ _, _))
  | .call _ _ | .user _ | .ret | .enter | .task _ | .events _ => isTrue trivial

structure Finished (w : World) : Prop where
  past : w.conn.state.past = true
  output : w.conn.output = []
  unsent : unsent w.loop = []

theorem executes_finished {i : Instr} {push rest : List Instr} (h : Executes c i d push)
    (hp : c.state.past = true) (ho : c.output = []) (hu : unsent (i :: rest) = [])
    (hr : unsent rest = []) (hf : fills i = false) :
    d.output = [] ∧ unsent (push ++ rest) = [] ∧ stream d = stream c := by
  cases h with
  | call h =>
    obtain ⟨ha, -, hout, -⟩ := calls_grows h
    refine ⟨hout.trans ho, ?_, by rw [stream, ha]; rfl⟩
    cases h <;> first | rfl | exact hr
  | accept sender buffer h =>
    rw [h] at hp
    cases hp
  | directWrote buffer n h =>
    obtain rfl : buffer = [] := hu
    exact ⟨ho, List.drop_nil, rfl⟩
  | append buffer h => exact absurd hu h
  | fill bytes =>
    obtain rfl : bytes = [] := by simpa [fills] using hf
    exact ⟨by simpa using ho, hr, by simp [stream]⟩
  | wrote n h => exact absurd ho h
  | _ => first | exact ⟨ho, rfl, rfl⟩ | exact ⟨ho, hr, rfl⟩ | exact ⟨ho, hu, rfl⟩

theorem finished_step {a : TcpConnection.Action} (f : Finished w) (s : Streamed w)
    (hc : w.conn.writeClosed = true) (hl : Sealed w a) (h : TcpConnection.step w a = some t)
    (hf : w.conn.writeFailed = false) : Finished t ∧ stream t.conn = stream w.conn := by
  have hpast := past_step h f.past
  cases a with
  | call thread op =>
    cases thread with
    | loop =>
      obtain ⟨handler, rest, -, rfl⟩ := step_call_loop h
      exact ⟨⟨hpast, f.output, by cases op <;> rfl⟩, rfl⟩
    | user id =>
      obtain ⟨pc, -, -, rfl⟩ := step_call_user h
      exact ⟨⟨hpast, f.output, f.unsent⟩, rfl⟩
  | user id =>
    rcases step_calls h with ⟨task, rest, -, rfl⟩ | ⟨pc, rest, c, pcs, -, hcall, rfl⟩
    · exact ⟨⟨hpast, f.output, f.unsent⟩, rfl⟩
    · obtain ⟨ha, -, hout, -⟩ := calls_grows hcall
      exact ⟨⟨hpast, hout.trans f.output, f.unsent⟩, congrArg (List.flatMap Prod.snd) ha⟩
  | exec env =>
    obtain ⟨i, rest, c, push, hw, he, rfl⟩ := step_executes h
    have hu := f.unsent
    have hr : unsent rest = [] := unsent_steady (by simpa [hw] using s.steady hf)
    rw [hw] at hu
    obtain ⟨hout, hun, hst⟩ := executes_finished he f.past f.output hu hr (hl hc i (by simp [hw]))
    exact ⟨⟨hpast, hout, hun⟩, hst⟩
  | ret =>
    obtain ⟨handler, rest, hw, rfl⟩ := step_ret h
    exact ⟨⟨hpast, f.output, unsent_steady (by simpa [hw] using s.steady hf)⟩, rfl⟩
  | enter =>
    obtain ⟨-, rfl⟩ := step_enter h
    exact ⟨⟨hpast, f.output, rfl⟩, rfl⟩
  | task index =>
    obtain ⟨id, task, -, -, -, rfl⟩ := step_task h
    exact ⟨⟨hpast, f.output, rfl⟩, rfl⟩
  | events events =>
    obtain ⟨-, -, rfl⟩ := step_events h
    refine ⟨⟨hpast, f.output, unsent_steady fun i hi => ?_⟩, rfl⟩
    obtain ⟨cb, -, rfl⟩ := List.mem_map.mp hi
    cases cb <;> rfl

theorem closes_finished {a : TcpConnection.Action} (o : Orderly w) (k : Closing w) (s : Streamed w)
    (hw : w.conn.writeClosed = false) (h : TcpConnection.step w a = some t)
    (ht : t.conn.writeClosed = true) (hf : w.conn.writeFailed = false) : Finished t := by
  have hne : t.conn.writeClosed ≠ w.conn.writeClosed := by simp [hw, ht]
  have hpast := past_step h
  rcases step_conn h with hc | ⟨_, _, _, _, -, -, hc⟩ | ⟨env, i, rest, push, rfl, -, -⟩
  · exact absurd (congrArg TcpConnection.writeClosed hc) hne
  · exact absurd (calls_write_closed hc) hne
  · obtain ⟨i, rest, c, push, hl, he, rfl⟩ := step_executes h
    rcases executes_write_closed he with hc | ⟨rfl, rfl, rfl⟩
    · exact absurd hc hne
    · refine ⟨hpast ?_, o.closing (by simp [hl]), unsent_steady (by simpa [hl] using s.steady hf)⟩
      refine Decidable.byContradiction fun hn => ?_
      have hi := (k (Bool.eq_false_iff.mpr hn)).loop .closeWrite (by simp [hl])
      cases hi

theorem calls_eof {pc : CallPc} {pcs : List CallPc} (h : Calls c pc d pcs) :
    d.eofRead = c.eofRead := by
  cases h <;> rfl

theorem executes_eof {i : Instr} {push : List Instr} (h : Executes c i d push) :
    d.eofRead = c.eofRead ∨ i = .handleRead := by
  cases h with
  | eof => exact .inr rfl
  | call h => exact .inl (calls_eof h)
  | _ => exact .inl rfl

theorem step_eof {a : TcpConnection.Action} (h : TcpConnection.step w a = some t)
    (ht : t.conn.eofRead = true) : w.conn.eofRead = true ∨ a = .exec (.read .eof) := by
  rcases step_conn h with hc | ⟨_, _, _, _, -, -, hc⟩ | ⟨env, _, _, _, rfl, -, -⟩
  · exact .inl (hc ▸ ht)
  · exact .inl (calls_eof hc ▸ ht)
  · obtain ⟨i, rest, c, push, -, he, rfl⟩ := step_exec h
    rcases executes_eof (executes he) with hc | rfl
    · exact .inl (hc ▸ ht)
    · simp only [exec, handleRead] at he
      split at he
      · cases he
        exact .inl ht
      · exact .inr rfl
      · cases he
        exact .inl ht
      · cases he

-- The end `s` closes its write side and gives up its socket only over an empty output_, and the
-- network loses nothing of what it has written.
def Graceful (s : Side) (l : TcpLink) : Action → Prop
  | .act side a =>
    side = s → a.gentle = true ∧ Careful (l.peer s).world a ∧ Sealed (l.peer s).world a
  | .destroy side => side = s → (l.peer s).world.conn.output = []
  | .lose side _ => side ≠ s
  | .read _ _ | .take _ _ => True

instance (s : Side) (l : TcpLink) : DecidablePred (Graceful s l)
  | .act _ _ => inferInstanceAs (Decidable (_ → _ ∧ _ ∧ _))
  | .destroy _ => inferInstanceAs (Decidable (_ → _))
  | .lose _ _ => inferInstanceAs (Decidable (_ ≠ _))
  | .read _ _ | .take _ _ => isTrue trivial

variable {l m : TcpLink} {s : Side}

structure Ending (s : Side) (l : TcpLink) : Prop where
  flows : Flows l
  orderly : Orderly (l.peer s).world
  streamed : Streamed (l.peer s).world
  closing : Closing (l.peer s).world
  finished : (l.peer s).world.conn.writeClosed = true →
    (l.peer s).world.conn.writeFailed = false → Finished (l.peer s).world
  ended : (l.pipe s).ended = true → (l.peer s).opened = true →
    (l.peer s).world.conn.writeClosed = true
  destroyed : (l.peer s).opened = false → (l.peer s).world.conn.output = [] ∧
    unsent (l.peer s).world.loop = []
  uncut : (l.peer s.other).opened = true → (l.pipe s).cut = false
  eof : (l.peer s.other).world.conn.eofRead = true → (l.pipe s).ended = true ∧
    ((l.peer s).world.conn.writeFailed = false →
      (l.peer s.other).received = stream (l.peer s).world.conn)

theorem ending_init : Ending s init where
  flows := flows_init
  orderly := orderly_init
  streamed := streamed_init
  closing := closing_init
  finished h := by cases h
  ended h := by cases h
  destroyed h := by cases h
  uncut _ := rfl
  eof h := by cases h

theorem orderly_read {rest : List Instr} (o : Orderly w) (hl : w.loop = .handleRead :: rest)
    (h : TcpConnection.step w (.exec (.read .got)) = some t) : Orderly t := by
  have hc : Careful w (.exec (.read .got)) := by
    intro _ i hi
    rw [hl] at hi
    cases hi
    trivial
  exact orderly_step o rfl hc h

theorem sent_ended {q : Pipe UInt8} (h : (sent q c d).ended = true) :
    q.ended = true ∨ d.writeClosed = true := by
  unfold sent at h
  by_cases hd : d.writeClosed = true
  · exact .inr hd
  · rw [if_neg hd, Pipe.push_ended] at h
    exact .inl h

theorem sent_cut (q : Pipe UInt8) : (sent q c d).cut = q.cut := by
  unfold sent
  split
  · exact Pipe.push_cut q _
  · exact Pipe.push_cut q _

theorem sent_keeps {q : Pipe UInt8} (h : q.ended = true) : (sent q c d).ended = true := by
  unfold sent
  split
  · rfl
  · rw [Pipe.push_ended, h]

theorem step_write_closed {a : TcpConnection.Action} (h : TcpConnection.step w a = some t)
    (hw : w.conn.writeClosed = true) : t.conn.writeClosed = true := by
  rcases step_conn h with hc | ⟨_, _, _, _, -, -, hc⟩ | ⟨_, _, _, _, -, -, he⟩
  · exact hc ▸ hw
  · exact calls_write_closed hc ▸ hw
  · rcases executes_write_closed he with hc | ⟨-, hc, -⟩
    · exact hc ▸ hw
    · rw [hc]

theorem ending_act {a : TcpConnection.Action} (e : Ending s l) (hg : Graceful s l (.act s a))
    (h : step l (.act s a) = some m) : Ending s m := by
  have hflows := flows_step e.flows h
  obtain ⟨w, ho, -, hw, rfl⟩ := step_act h
  obtain ⟨hgentle, hcareful, hsealed⟩ := hg rfl
  have hfail := (grows_step hw).failed
  have hclosed : ∀ hc : (l.peer s).world.conn.writeClosed = true, w.conn.writeFailed = false →
      Finished w ∧ stream w.conn = stream (l.peer s).world.conn := fun hc hf =>
    finished_step (e.finished hc (hfail hf)) e.streamed hc hsealed hw (hfail hf)
  exact {
    flows := hflows
    orderly := by simpa using orderly_step e.orderly hgentle hcareful hw
    streamed := by simpa using streamed_step e.streamed hw
    closing := by simpa using closing_kept e.closing hw
    finished := by
      simp only [set_same]
      intro hc hf
      cases hb : (l.peer s).world.conn.writeClosed with
      | true => exact (hclosed hb hf).1
      | false => exact closes_finished e.orderly e.closing e.streamed hb hw hc (hfail hf)
    ended := by
      simp only [set_same]
      intro he _
      rcases sent_ended he with he | hc
      · exact step_write_closed hw (e.ended he ho)
      · exact hc
    destroyed := by
      simp only [set_same]
      intro hn
      rw [ho] at hn
      cases hn
    uncut := by
      simp only [set_same, set_other, sent_cut]
      exact e.uncut
    eof := by
      simp only [set_same, set_other]
      intro he
      obtain ⟨hend, hr⟩ := e.eof he
      refine ⟨sent_keeps hend, fun hf => ?_⟩
      rw [hr (hfail hf), (hclosed (e.ended hend ho) hf).2] }

theorem eof_stream (e : Ending s l) (hf : (l.peer s).world.conn.writeFailed = false)
    (hend : (l.pipe s).ended = true) (hempty : (l.pipe s).flying = [])
    (hcut : (l.pipe s).cut = false) :
    (l.peer s.other).received = stream (l.peer s).world.conn := by
  have hw := (e.flows s).whole hcut
  rw [hempty, List.append_nil] at hw
  have hout : (l.peer s).world.conn.output = [] ∧ unsent (l.peer s).world.loop = [] := by
    cases ho : (l.peer s).opened with
    | true =>
      have f := e.finished (e.ended hend ho) hf
      exact ⟨f.output, f.unsent⟩
    | false => exact e.destroyed ho
  rw [hw, written_stream e.streamed hf hout.1 hout.2]

theorem ending_other {a : TcpConnection.Action} (e : Ending s l)
    (h : step l (.act s.other a) = some m) : Ending s m := by
  have hflows := flows_step e.flows h
  obtain ⟨w, ho, hallow, hw, rfl⟩ := step_act h
  refine ⟨hflows, ?_, ?_, ?_, ?_, ?_, ?_, ?_, ?_⟩
  · simpa using e.orderly
  · simpa using e.streamed
  · simpa using e.closing
  · simpa using e.finished
  · simpa using e.ended
  · simpa using e.destroyed
  · simpa using e.uncut
  · simp only [set_same, set_back, received_world]
    intro he
    rcases step_eof hw he with he | rfl
    · exact e.eof he
    · simp only [allows, other_other, Bool.and_eq_true, Bool.or_eq_true, List.isEmpty_iff] at hallow
      have hcut := e.uncut ho
      have hend : (l.pipe s).ended = true := by simpa [hcut] using hallow.2
      exact ⟨hend, fun hf => eof_stream e hf hend hallow.1 hcut⟩

theorem nothing_flies (e : Ending s l) (hr : (l.peer s.other).world.conn.eofRead = true)
    (hf : (l.peer s).world.conn.writeFailed = false) : (l.pipe s).flying = [] := by
  have hp := (e.flows s).part.trans (written_accepted e.streamed hf)
  rw [(e.eof hr).2 hf] at hp
  have hle := hp.length_le
  rw [List.length_append] at hle
  exact List.length_eq_zero_iff.mp (by simp only [stream] at hle; omega)

theorem ending_same (e : Ending s l) (f : Flows m) (hw : (m.peer s).world = (l.peer s).world)
    (ho : (m.peer s).opened = (l.peer s).opened) (hp : (m.pipe s).ended = (l.pipe s).ended)
    (hc : (m.peer s.other).opened = true →
      (l.peer s.other).opened = true ∧ (m.pipe s).cut = (l.pipe s).cut)
    (he : (m.peer s.other).world.conn.eofRead = true →
      (l.peer s.other).world.conn.eofRead = true ∧
        ((l.peer s).world.conn.writeFailed = false →
          (m.peer s.other).received = (l.peer s.other).received)) : Ending s m where
  flows := f
  orderly := hw ▸ e.orderly
  streamed := hw ▸ e.streamed
  closing := hw ▸ e.closing
  finished := hw ▸ e.finished
  ended := by
    rw [hp, ho, hw]
    exact e.ended
  destroyed := by
    rw [ho, hw]
    exact e.destroyed
  uncut hop := by
    rw [(hc hop).2]
    exact e.uncut (hc hop).1
  eof hr := by
    obtain ⟨hl, hsame⟩ := he hr
    rw [hp, hw]
    exact ⟨(e.eof hl).1, fun hf => (hsame hf).trans ((e.eof hl).2 hf)⟩

theorem ending_read {side : Side} {n : Nat} (e : Ending s l)
    (h : step l (.read side n) = some m) : Ending s m := by
  have hflows := flows_step e.flows h
  obtain ⟨w, ho, hn, hlen, hw, ⟨rest, hl⟩, rfl⟩ := step_read h
  obtain rfl := read_written hl hw
  rcases side_cases side s with rfl | rfl
  · have horderly := orderly_read e.orderly hl hw
    have hstreamed := streamed_step e.streamed hw
    have hclosing := closing_kept e.closing hw
    refine ⟨hflows, ?_, ?_, ?_, ?_, ?_, ?_, ?_, ?_⟩
    · simpa using horderly
    · simpa using hstreamed
    · simpa using hclosing
    · simp only [set_same]
      intro hc hf
      have f := e.finished hc hf
      exact ⟨f.past, f.output, rfl⟩
    · simp only [set_same, set_back]
      exact e.ended
    · simp only [set_same]
      intro hc
      rw [ho] at hc
      cases hc
    · simp only [set_back, set_other]
      exact e.uncut
    · simp only [set_same, set_back, set_other]
      exact e.eof
  · rw [other_other] at hlen
    refine ending_same e hflows (by simp) (by simp) (by simp) (by simp) ?_
    simp only [set_same]
    intro he
    refine ⟨he, fun hf => ?_⟩
    rw [nothing_flies e he hf] at hlen
    exact absurd hlen (Nat.not_le.mpr hn)

theorem ending_take {side : Side} {n : Nat} (e : Ending s l)
    (h : step l (.take side n) = some m) : Ending s m := by
  have hflows := flows_step e.flows h
  obtain rfl := step_take h
  rcases side_cases side s with rfl | rfl
  · exact ending_same e hflows (by simp) (by simp) rfl (by simp) (by simp)
  · exact ending_same e hflows (by simp) (by simp) rfl (by simp) (by simp)

theorem ending_destroy {side : Side} (e : Ending s l) (hg : Graceful s l (.destroy side))
    (h : step l (.destroy side) = some m) : Ending s m := by
  have hflows := flows_step e.flows h
  obtain ⟨ho, hl, rfl⟩ := step_destroy h
  rcases side_cases side s with rfl | rfl
  · refine ⟨hflows, ?_, ?_, ?_, ?_, ?_, ?_, ?_, ?_⟩
    · simpa using e.orderly
    · simpa using e.streamed
    · simpa using e.closing
    · simpa using e.finished
    · simp
    · simp only [set_same]
      exact fun _ => ⟨hg rfl, by rw [hl]; rfl⟩
    · simpa using e.uncut
    · simp only [set_same, set_other, set_back]
      exact fun he => ⟨rfl, (e.eof he).2⟩
  · exact ending_same e hflows (by simp) (by simp) (by simp) (by simp) (by simp [Peer.received])

theorem ending_step {a : Action} (e : Ending s l) (hg : Graceful s l a)
    (h : step l a = some m) : Ending s m := by
  cases a with
  | act side action =>
    rcases side_cases side s with rfl | rfl
    · exact ending_act e hg h
    · exact ending_other e h
  | read side n => exact ending_read e h
  | take side n => exact ending_take e h
  | destroy side => exact ending_destroy e hg h
  | lose side n =>
    have hflows := flows_step e.flows h
    cases h
    obtain rfl := (side_cases side s).resolve_left hg
    exact ending_same e hflows rfl rfl (by simp) (by simp) (by simp)

theorem end_of_stream_complete (s : Side) (as : List Action)
    (hg : system.Along (Graceful s) init as) :
    system.Always (fun l => (l.peer s.other).world.conn.eofRead = true →
      (l.peer s).world.conn.writeFailed = false →
      (l.peer s.other).received = (l.peer s).world.conn.accepted.flatMap Prod.snd) init as :=
  Transition.System.always_of_along (M := system) (fun _ _ _ e ha h => ending_step e ha h)
    (fun _ e he hf => (e.eof he).2 hf) ending_init hg

-- A message of which write(2) takes one byte, then Shutdown.
def shutdownLink : List Action :=
  Peers .client (started ++ [.call .loop (.send .view [1, 2]), .exec .none, .exec .none,
    .exec (.write (.wrote 1)), .exec .none, .call .loop .shutdown, .exec .none, .exec .none,
    .exec .none, .ret, .exec .none, .events .kWritable, .exec (.write (.wrote 1)), .exec .none, .ret,
    .exec .none, .exec .none]) ++
  Peers .server (started ++ [.ret, .exec .none, .events .kReadable]) ++
  [.read .server 2, .act .server .ret, .act .server (.events .kReadable),
    .act .server (.exec (.read .eof))]

theorem end_of_stream_after_shutdown : ∃ l, system.run init shutdownLink = some l ∧
    (l.peer .server).world.conn.eofRead = true ∧ (l.peer .server).received = [1, 2] := by
  obtain ⟨l, hl, he, hf, ha⟩ : ∃ l, system.run init shutdownLink = some l ∧
      (l.peer .server).world.conn.eofRead = true ∧
      (l.peer .client).world.conn.writeFailed = false ∧
      (l.peer .client).world.conn.accepted.flatMap Prod.snd = [1, 2] := ⟨_, rfl, rfl, rfl, rfl⟩
  have hg : system.Along (Graceful .client) init shutdownLink := by decide +kernel
  have hr := Transition.System.always_last (end_of_stream_complete .client shutdownLink hg) hl he hf
  exact ⟨l, hl, he, hr.trans ha⟩

end TcpLink
end Pedronet
