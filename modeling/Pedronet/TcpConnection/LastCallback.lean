import Pedronet.TcpConnection.Order

namespace Pedronet
namespace TcpConnection
variable {w t : World} {c d : TcpConnection}

def CloseLast (w : World) : Prop :=
  w.conn.invoked.Pairwise fun earlier later => earlier = .onClose → later = .onClose

instance (w : World) : Decidable (CloseLast w) := inferInstanceAs (Decidable (List.Pairwise _ _))

-- What an event that is still being handled may find on the socket of a closed connection.
def Instr.quiet (c : TcpConnection) : Env → Instr → Prop
  | .soError code, .channelError => code = kOk
  | .read .got, .handleRead => False
  | .read (.failed errno), .handleRead => errno = EWOULDBLOCK ∨ errno = EAGAIN ∨ errno = kOk
  | .none, .handleWrite => c.channel.writable = true → c.output ≠ []
  | .write (.wrote n), .handleWrite => n < c.output.length
  | .write (.failed _ soError), .handleWrite => soError = kOk
  | _, _ => True

instance (c : TcpConnection) (env : Env) (i : Instr) : Decidable (i.quiet c env) := by
  unfold Instr.quiet
  split <;> infer_instance

def Quiet (w : World) : Action → Prop
  | .exec env => .onClose ∈ w.conn.invoked → ∀ i ∈ w.loop.head?, i.quiet w.conn env
  | _ => True

instance (w : World) : DecidablePred (Quiet w)
  | .exec _ => inferInstanceAs (Decidable (_ → ∀ _ ∈ _, _))
  | .call _ _ | .user _ | .ret | .enter | .task _ | .events _ => isTrue trivial

def State.past : State → Bool
  | .kDisconnecting | .kDisconnected => true
  | .kConnecting | .kConnected => false

def Instr.settled (c : TcpConnection) : Instr → Prop
  | .directWrite _ => False
  | .handleError code => code = kOk
  | .writeDone => c.output ≠ []
  | _ => True

theorem below_settled {i : Instr} (h : i.below = true) : i.settled c := by
  cases i <;> trivial

structure Settles (c d : TcpConnection) (push : List Instr) : Prop where
  past : d.state.past = true
  invoked : d.invoked = c.invoked ∨ d.invoked = c.invoked ++ [.onClose]
  top : ∀ j ∈ push.head?, j.settled d

theorem calls_settle {pc : CallPc} {pcs : List CallPc} (h : Calls c pc d pcs)
    (hc : c.state.past = true) : Settles c d (pcs.map .call) := by
  cases h with
  | close h | shutdown h =>
    rw [h] at hc
    cases hc
  | forceCloseStore | forceShutdownStore => exact ⟨rfl, .inl rfl, by simp [Instr.settled]⟩
  | _ => exact ⟨hc, .inl rfl, by simp [Instr.settled]⟩

theorem read_settles {env : Env} {push : List Instr} (h : handleRead c env = some (d, push))
    (hc : c.state.past = true) (hq : Instr.quiet c env .handleRead) : Settles c d push := by
  unfold handleRead at h
  split at h
  · cases hq
  · cases h
    exact ⟨hc, .inl rfl, by simp [Instr.settled]⟩
  · rename_i errno
    cases h
    refine ⟨hc, .inl rfl, fun j hj => ?_⟩
    split at hj
    · rename_i hn
      cases hj
      rcases hq with he | he | he
      · exact absurd he hn.1
      · exact absurd he hn.2
      · exact he
    · cases hj
  · cases h

theorem write_settles {env : Env} {push : List Instr} (h : handleWrite c env = some (d, push))
    (hc : c.state.past = true) (hq : Instr.quiet c env .handleWrite) : Settles c d push := by
  unfold handleWrite at h
  split at h
  · split at h
    · cases h
      exact ⟨hc, .inl rfl, by simp⟩
    · rename_i hw
      rw [if_neg (hq (Bool.not_eq_false _ ▸ hw))] at h
      cases h
  · rename_i n
    split at h
    · cases h
      refine ⟨hc, .inl rfl, fun j hj => ?_⟩
      cases hj
      exact fun he => absurd hq (Nat.not_lt.mpr (List.drop_eq_nil_iff.mp he))
    · cases h
  · split at h
    · cases h
      refine ⟨hc, .inl rfl, fun j hj => ?_⟩
      cases hj
      exact hq
    · cases h
  · cases h

def Instr.polls : Instr → Bool
  | .handleRead | .handleWrite | .channelError => true
  | _ => false

theorem executes_settles {i : Instr} {push : List Instr} (h : Executes c i d push)
    (hc : c.state.past = true) (hi : i.settled c) (hp : i.polls = false) : Settles c d push := by
  cases h with
  | call h => exact calls_settle h hc
  | accept sender buffer h | connect h =>
    rw [h] at hc
    cases hc
  | directQueue | directWrote | directFailed | directError => cases hi
  | error code h => exact absurd hi h
  | writeComplete h => exact absurd h hi
  | read | eof | readAgain | readError | channelError => cases hp
  | notWritable | nothingToWrite | wrote | writeError => cases hp
  | handleRemove h => exact ⟨hc, .inr rfl, by simp [Instr.settled]⟩
  | handleCloseStore => exact ⟨rfl, .inl rfl, by simp [Instr.settled]⟩
  | _ => exact ⟨hc, .inl rfl, by simp [Instr.settled]⟩

theorem exec_settles {env : Env} {i : Instr} {push : List Instr}
    (h : exec c env i = some (d, push)) (hc : c.state.past = true) (hi : i.settled c)
    (hq : i.quiet c env) : Settles c d push := by
  cases i with
  | handleRead => exact read_settles h hc hq
  | handleWrite => exact write_settles h hc hq
  | channelError =>
    simp only [exec] at h
    split at h <;> cases h
    exact ⟨hc, .inl rfl, fun j hj => by cases hj; exact hq⟩
  | _ => exact executes_settles (executes h) hc hi rfl

theorem calls_invoked {pc : CallPc} {pcs : List CallPc} (h : Calls c pc d pcs) :
    d.invoked = c.invoked := by
  cases h <;> rfl

theorem executes_invoked {i : Instr} {push : List Instr} (h : Executes c i d push) :
    d.invoked = c.invoked ∨ (∃ handler, handler ≠ .onClose ∧ d.invoked = c.invoked ++ [handler]) ∨
      i = .handleRemove ∧ c.state = .kDisconnected ∧ d = c.invoke .onClose ∧
        push = [.handler .onClose, .afterClose] := by
  cases h with
  | call h => exact .inl (calls_invoked h)
  | handleRemove h => exact .inr (.inr ⟨rfl, h, rfl, rfl⟩)
  | connect h | read | error code h | writeComplete h =>
    exact .inr (.inl ⟨_, by simp, rfl⟩)
  | _ => exact .inl rfl

structure Last (w : World) : Prop where
  layered : Layered w
  last : CloseLast w
  past : .onClose ∈ w.conn.invoked → w.conn.state.past = true
  top : .onClose ∈ w.conn.invoked → ∀ i ∈ w.loop.head?, i.settled w.conn

theorem close_last_append {handler : Handler} (h : CloseLast w)
    (hi : t.conn.invoked = w.conn.invoked ++ [handler])
    (ho : .onClose ∈ w.conn.invoked → handler = .onClose) : CloseLast t := by
  unfold CloseLast
  rw [hi, List.pairwise_append]
  refine ⟨h, List.pairwise_singleton _ _, ?_⟩
  rintro earlier he later hl rfl
  rw [List.mem_singleton.mp hl]
  exact ho he

theorem last_exec {env : Env} (s : Last w) (ha : Quiet w (.exec env))
    (h : step w (.exec env) = some t) : Last t := by
  have l := layered_step s.layered h
  obtain ⟨i, rest, c, push, hl, he, rfl⟩ := step_exec h
  by_cases ho : .onClose ∈ w.conn.invoked
  · have hi := s.top ho i (by simp [hl])
    have hs := exec_settles he (s.past ho) hi (ha ho i (by simp [hl]))
    refine ⟨l, ?_, fun _ => hs.past, fun _ j hj => ?_⟩
    · rcases hs.invoked with hn | hn
      · unfold CloseLast
        rw [hn]
        exact s.last
      · exact close_last_append s.last hn fun _ => rfl
    · cases push with
      | nil =>
        refine below_settled (s.layered j ?_)
        rw [hl]
        exact List.mem_of_mem_head? hj
      | cons top push => exact hs.top j hj
  · rcases executes_invoked (executes he) with hn | ⟨handler, hne, hn⟩ | ⟨rfl, hd, rfl, rfl⟩
    · have hc : .onClose ∉ c.invoked := hn ▸ ho
      refine ⟨l, ?_, fun hm => absurd hm hc, fun hm => absurd hm hc⟩
      unfold CloseLast
      rw [hn]
      exact s.last
    · have hc : .onClose ∉ c.invoked := by
        rw [hn]
        simp [ho, hne.symm]
      exact ⟨l, close_last_append s.last hn fun hm => absurd hm ho, fun hm => absurd hm hc,
        fun hm => absurd hm hc⟩
    · refine ⟨l, close_last_append s.last rfl fun _ => rfl, fun _ => ?_, fun _ j hj => ?_⟩
      · simp [invoke, hd, State.past]
      · cases hj
        trivial

theorem calls_settled {pc : CallPc} {pcs : List CallPc} (h : Calls c pc d pcs) {i : Instr}
    (hi : i.settled c) : i.settled d := by
  cases h <;> exact hi

theorem last_step {a : Action} (s : Last w) (ha : Quiet w a) (h : step w a = some t) : Last t := by
  have l := layered_step s.layered h
  cases a with
  | call thread op =>
    cases thread with
    | loop =>
      obtain ⟨handler, rest, -, rfl⟩ := step_call_loop h
      refine ⟨l, s.last, s.past, fun _ i hi => ?_⟩
      cases hi
      cases op <;> trivial
    | user id =>
      obtain ⟨pc, -, -, rfl⟩ := step_call_user h
      exact ⟨l, s.last, s.past, s.top⟩
  | user id =>
    rcases step_calls h with ⟨task, rest, -, rfl⟩ | ⟨pc, rest, c, pcs, -, hc, rfl⟩
    · exact ⟨l, s.last, s.past, s.top⟩
    · have hi := calls_invoked hc
      refine ⟨l, ?_, fun hm => ?_, fun hm i hl => ?_⟩
      · exact (congrArg (List.Pairwise _) hi).mpr s.last
      · exact (calls_settle hc (s.past (hi ▸ hm))).past
      · exact calls_settled hc (s.top (hi ▸ hm) i hl)
  | exec env => exact last_exec s ha h
  | ret =>
    obtain ⟨handler, rest, hl, rfl⟩ := step_ret h
    refine ⟨l, s.last, s.past, fun _ i hi => below_settled (s.layered i ?_)⟩
    rw [hl]
    exact List.mem_of_mem_head? hi
  | enter =>
    obtain ⟨-, rfl⟩ := step_enter h
    refine ⟨l, s.last, s.past, fun _ i hi => ?_⟩
    cases hi
    trivial
  | task index =>
    obtain ⟨id, task, -, -, -, rfl⟩ := step_task h
    refine ⟨l, s.last, s.past, fun _ i hi => ?_⟩
    cases hi
    trivial
  | events events =>
    obtain ⟨-, -, rfl⟩ := step_events h
    exact ⟨l, s.last, s.past, fun _ i hi =>
      below_settled (events_below events i (List.mem_of_mem_head? hi))⟩

theorem last_init : Last .init where
  layered := layered_init
  last := List.Pairwise.nil
  past h := by cases h
  top h := by cases h

theorem close_is_last (as : List Action) (hg : system.Along Quiet .init as) :
    system.Always CloseLast .init as :=
  Transition.System.always_of_along (fun _ _ _ s ha h => last_step s ha h) (fun _ s => s.last)
    last_init hg

def hangUp (soError : Nat) : List Action :=
  started ++ [.ret, .exec .none, .events ⟨POLLHUP ||| POLLERR⟩, .exec .none, .exec .none,
    .exec .none, .exec .none, .ret, .exec .none, .exec (.soError soError), .exec .none]

theorem close_is_last_hang_up :
    (system.run .init (hangUp 0)).isSome = true ∧ system.Always CloseLast .init (hangUp 0) :=
  ⟨rfl, close_is_last (hangUp 0) (by decide)⟩

-- With ECONNRESET pending on the socket, OnError follows OnClose.
theorem error_after_close : ¬ ∀ as, system.Always CloseLast .init as := by
  intro h
  have hl := Transition.System.always_last (h (hangUp 104)) rfl
  exact absurd hl (by decide)

end TcpConnection
end Pedronet
