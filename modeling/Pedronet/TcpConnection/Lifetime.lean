import Pedronet.TcpConnection.Once

namespace Pedronet
namespace TcpConnection
variable {w t : World} {c d : TcpConnection} {τ : Thread}

def connects (c : TcpConnection) : Nat := c.invoked.count .onConnect

def registrations (c : TcpConnection) : Nat := c.channel.registered.toNat

def Instr.opens (i : Instr) : Bool := i == .startCallback || i == .setReadable

def Instr.ends (i : Instr) : Bool := i == .handleRemove || i == .afterClose

def opened (w : World) : Nat := tally connects (· == .startCallback) w.conn w.loop

def opening (w : World) : Nat := tally (fun _ => 0) Instr.opens w.conn w.loop

def ending (w : World) : Nat := tally registrations Instr.ends w.conn w.loop

theorem opened_step {a : Action} (h : step w a = some t) :
    opened t ≤ opened w ∨ ∃ τ, consumes τ w a = true ∧ w.conn.channel.registered = false ∧
      opened t = opened w + 1 := by
  refine tally_step (fun i hi => ?_) (fun c pc d pcs hc => ?_) (fun c i d push he => ?_) h
  · rw [beq_iff_eq.mp hi]
    rfl
  · rw [connects, connects, calls_invoked hc]
  · cases he with
    | call hc => exact .inl (by cases hc <;> simp [tally, connects])
    | add sender hr => exact .inr ⟨sender, rfl, hr, by simp [tally, connects]⟩
    | _ => simp [tally, connects, invoke, setWritable, List.count_append]

theorem opening_step {a : Action} (h : step w a = some t) :
    opening t ≤ opening w ∨ ∃ τ, consumes τ w a = true ∧ w.conn.channel.registered = false ∧
      opening t = opening w + 1 := by
  refine tally_step (fun i hi => ?_) (fun c pc d pcs hc => rfl) (fun c i d push he => ?_) h
  · rcases Bool.or_eq_true_iff.mp hi with hi | hi <;> rw [beq_iff_eq.mp hi] <;> rfl
  · cases he with
    | call hc => exact .inl (by cases hc <;> simp [tally, Instr.opens])
    | add sender hr => exact .inr ⟨sender, rfl, hr, by simp [tally, Instr.opens]⟩
    | _ => simp [tally, Instr.opens]

theorem ending_step {a : Action} (h : step w a = some t) :
    ending t ≤ ending w ∨ ∃ τ, consumes τ w a = true ∧ w.conn.channel.registered = false ∧
      ending t = ending w + 1 := by
  refine tally_step (fun i hi => ?_) (fun c pc d pcs hc => ?_) (fun c i d push he => ?_) h
  · rcases Bool.or_eq_true_iff.mp hi with hi | hi <;> rw [beq_iff_eq.mp hi] <;> rfl
  · rw [registrations, registrations, calls_channel hc]
  · cases he with
    | call hc => exact .inl (by cases hc <;> simp [tally, registrations, Instr.ends])
    | add sender hr =>
      have hr' : c.channel.add.registered = true := rfl
      exact .inr ⟨sender, rfl, hr, by simp [tally, registrations, Instr.ends, hr, hr']⟩
    | remove hr =>
      have hr' : c.channel.remove.registered = false := rfl
      exact .inl (by simp [tally, registrations, Instr.ends, hr, hr'])
    | _ => simp [tally, registrations, Instr.ends, invoke, setWritable]

theorem invoked_mem {a : Action} (h : step w a = some t) {handler : Handler}
    (hm : handler ∈ w.conn.invoked) : handler ∈ t.conn.invoked := by
  rcases step_conn h with he | ⟨id, pc, rest, pcs, rfl, hu, hc⟩ | ⟨env, i, rest, push, rfl, hl, he⟩
  · rwa [he]
  · rwa [calls_invoked hc]
  · rcases executes_invoked he with hi | ⟨_, -, hi⟩ | ⟨-, -, hi, -⟩
    · rwa [hi]
    · rw [hi]
      exact List.mem_append_left _ hm
    · rw [hi]
      exact List.mem_append_left _ hm

theorem close_begins {a : Action} (h : step w a = some t) (hx : .onClose ∈ t.conn.invoked)
    (hn : .onClose ∉ w.conn.invoked) :
    ∃ env rest, a = .exec env ∧ w.loop = .handleRemove :: rest ∧ w.conn.state = .kDisconnected := by
  rcases step_conn h with he | ⟨_, _, _, _, _, _, hc⟩ | ⟨env, i, rest, push, ha, hl, he⟩
  · exact absurd (he ▸ hx) hn
  · exact absurd (calls_invoked hc ▸ hx) hn
  · rcases executes_invoked he with hi | ⟨handler, hne, hi⟩ | ⟨rfl, hd, -, -⟩
    · exact absurd (hi ▸ hx) hn
    · rw [hi] at hx
      rcases List.mem_append.mp hx with hx | hx
      · exact absurd hx hn
      · exact absurd (List.mem_singleton.mp hx).symm hne
    · exact ⟨env, rest, ha, hl, hd⟩

theorem handle_remove_reports {env : Env} {rest : List Instr} (h : step w (.exec env) = some t)
    (hl : w.loop = .handleRemove :: rest) (hd : w.conn.state = .kDisconnected) :
    .onClose ∈ t.conn.invoked ∧ .afterClose ∈ t.loop := by
  obtain ⟨i, rest', c, push, hl', he, rfl⟩ := step_executes h
  rw [hl] at hl'
  cases hl'
  cases he with
  | handleRemove => simp [invoke]
  | shouldNotHappen hs => exact absurd hd hs

-- The store of a Start finds the context set or the connection not closed, its Add finds the channel
-- registered or nothing reported yet; so it is for the first Start, and further ones change nothing.
def CallPc.startsInTime (c : TcpConnection) : CallPc → Prop
  | .start => c.context = true ∨ .onClose ∉ c.invoked
  | _ => True

def Instr.startsInTime (c : TcpConnection) : Instr → Prop
  | .call pc => pc.startsInTime c
  | .task _ .add =>
    c.channel.registered = true ∨ (.onConnect ∉ c.invoked ∧ .onClose ∉ c.invoked)
  | _ => True

def StartsInTime (w : World) : Action → Prop
  | .user id => ∀ pc ∈ (w.users id).head?, pc.startsInTime w.conn
  | .exec _ => ∀ i ∈ w.loop.head?, i.startsInTime w.conn
  | _ => True

instance (c : TcpConnection) : DecidablePred (CallPc.startsInTime c)
  | .start => inferInstanceAs (Decidable (_ ∨ _))
  | .close | .forceClose | .forceCloseStore | .shutdown | .forceShutdown => isTrue trivial
  | .forceShutdownStore | .run _ => isTrue trivial

instance (c : TcpConnection) : DecidablePred (Instr.startsInTime c)
  | .call pc => inferInstanceAs (Decidable (pc.startsInTime c))
  | .task _ .add => inferInstanceAs (Decidable (_ ∨ _))
  | .task _ (.handleSend _) | .task _ (.send _) | .task _ .close => isTrue trivial
  | .task _ .forceClose | .task _ .shutdown | .task _ .forceShutdown => isTrue trivial
  | .startCallback | .handler _ | .setReadable | .directWrite _ => isTrue trivial
  | .appendOutput _ | .fill _ | .sendOutput | .handleRead | .channelError => isTrue trivial
  | .handleError _ | .handleWrite | .writeDone | .afterWriteComplete | .closeWrite => isTrue trivial
  | .handleClose | .handleCloseStore | .remove | .handleRemove | .afterClose => isTrue trivial
  | .fileClose => isTrue trivial

instance (w : World) : DecidablePred (StartsInTime w)
  | .user _ | .exec _ => inferInstanceAs (Decidable (∀ _ ∈ _, _))
  | .call _ _ | .ret | .enter | .task _ | .events _ => isTrue trivial

def Instr.begun : Instr → Bool
  | .call (.run .add) | .task _ .add => true
  | i => i.stage

structure Unstarted (w : World) : Prop where
  registered : w.conn.channel.registered = false
  invoked : .onConnect ∉ w.conn.invoked ∧ .onClose ∉ w.conn.invoked
  work : Carried (·.begun = false) (fun _ pc => pc ≠ .run .add) (· ≠ .add) w

-- The context points to the connection from Start's store to the end of handleRemove.
structure Serving (w : World) : Prop where
  layered : Layered w
  connecting : Connecting w.conn
  held : held w.conn w.loop ≤ 1
  opened : opened w ≤ 1
  opening : opening w ≤ 1
  ending : ending w ≤ 1
  reported : Carried
    (fun i => (i = .setReadable → .onConnect ∈ w.conn.invoked) ∧
      (i = .afterClose → .onClose ∈ w.conn.invoked))
    (fun _ _ => True) (fun _ => True) w
  linked : w.conn.context = true ∨ Unstarted w ∨
    (.onClose ∈ w.conn.invoked ∧ .afterClose ∉ w.loop)
  unlinked : .onClose ∈ w.conn.invoked → .afterClose ∉ w.loop → w.conn.context = false

theorem calls_context {pc : CallPc} {pcs : List CallPc} (h : Calls c pc d pcs) :
    (d.context = c.context ∧ pc ≠ .start) ∨ (d.context = true ∧ pc = .start) := by
  cases h <;> simp

theorem executes_context {i : Instr} {push : List Instr} (h : Executes c i d push) :
    (d.context = c.context ∧ i ≠ .call .start) ∨ (d.context = true ∧ i = .call .start) ∨
      (d.context = false ∧ i = .afterClose ∧ push = [] ∧ d.invoked = c.invoked) := by
  cases h with
  | call h =>
    rcases calls_context h with ⟨he, hn⟩ | ⟨he, rfl⟩
    · exact .inl ⟨he, by simpa using hn⟩
    · exact .inr (.inl ⟨he, rfl⟩)
  | afterClose => exact .inr (.inr ⟨rfl, rfl, rfl, rfl⟩)
  | _ => simp [invoke, setWritable]

theorem executes_stages {i : Instr} {push : List Instr} (h : Executes c i d push) :
    ∀ j ∈ push, (j = .setReadable → i = .startCallback ∧ c.state = .kConnecting) ∧
      (j = .afterClose → i = .handleRemove) ∧
      (j = .handleRemove → i = .remove ∧ c.channel.registered = true) := by
  cases h with
  | connect h | remove h | handleRemove h => simp [h]
  | call h => cases h <;> simp
  | _ => simp

theorem tally_once {g : TcpConnection → Nat} {p : Instr → Bool} {i : Instr} {rest : List Instr}
    (h : tally g p w.conn w.loop ≤ 1) (hl : w.loop = i :: rest) (hi : p i = true) :
    ∀ j ∈ rest, p j = false := by
  simp only [tally, hl, List.countP_cons, hi, if_true] at h
  intro j hj
  rw [← Bool.not_eq_true]
  intro hjt
  have hpos : 0 < rest.countP p := List.countP_pos_iff.mpr ⟨j, hj, hjt⟩
  omega

theorem ends_once (s : Serving w) {i : Instr} {rest : List Instr} (hl : w.loop = i :: rest)
    (hi : i.ends = true) : ∀ j ∈ rest, j.ends = false :=
  tally_once s.ending hl hi

theorem opens_once (s : Serving w) {i : Instr} {rest : List Instr} (hl : w.loop = i :: rest)
    (hi : i.opens = true) : ∀ j ∈ rest, j.opens = false :=
  tally_once s.opening hl hi

theorem closed_apart (s : Serving w) (hc : .onClose ∈ w.conn.invoked) :
    .handleRemove ∉ w.loop ∧ w.conn.channel.registered = false := by
  have hpos := List.count_pos_iff.mpr hc
  have hheld := s.held
  simp only [TcpConnection.held] at hheld
  refine ⟨fun hm => ?_, ?_⟩
  · have := List.count_pos_iff.mpr hm
    omega
  · rw [← Bool.not_eq_true]
    intro hr
    simp only [hr, Bool.toNat_true] at hheld
    omega

theorem grown_once {m n : Nat} {a : Action} (s : Serving w) (ha : StartsInTime w a)
    (h : step w a = some t) (hm : m ≤ 1)
    (hzero : w.conn.channel.registered = false → .onConnect ∉ w.conn.invoked →
      .onClose ∉ w.conn.invoked → (∀ i ∈ w.loop, i.stage = false) → m = 0)
    (hgrows : n ≤ m ∨ ∃ τ, consumes τ w a = true ∧ w.conn.channel.registered = false ∧ n = m + 1) :
    n ≤ 1 := by
  rcases hgrows with hle | ⟨τ, hc, hr, heq⟩
  · omega
  · cases a with
    | exec env =>
      obtain ⟨i, rest, c, push, hl, -, -⟩ := step_executes h
      have hi : i = .task τ .add := by simpa [consumes, hl] using hc
      subst hi
      have ht : (Instr.task τ .add).startsInTime w.conn := ha _ (by rw [hl]; rfl)
      obtain ⟨hx, hx'⟩ := ht.resolve_left (by simp [hr])
      have hstage : ∀ i ∈ w.loop, i.stage = false := by
        intro i hi
        have hrep := s.reported.loop i hi
        rw [hl] at hi
        rcases List.mem_cons.mp hi with rfl | hi
        · rfl
        · have hb := s.layered i (by rw [hl]; exact hi)
          cases i with
          | setReadable => exact absurd (hrep.1 rfl) hx
          | afterClose => exact absurd (hrep.2 rfl) hx'
          | _ => first | rfl | cases hb
      have := hzero hr hx hx' hstage
      omega
    | _ => cases hc

theorem count_stage {p : Instr → Bool} {loop : List Instr} (h : ∀ i ∈ loop, i.stage = false)
    (hp : ∀ i, p i = true → i.stage = true) : loop.countP p = 0 := by
  refine List.countP_eq_zero.mpr fun i hi hpi => ?_
  have hs := hp i hpi
  rw [h i hi] at hs
  cases hs

theorem held_grown {a : Action} (s : Serving w) (ha : StartsInTime w a) (h : step w a = some t) :
    TcpConnection.held t.conn t.loop ≤ 1 := by
  refine grown_once s ha h s.held (fun hr hx hx' hn => ?_) (held_step h)
  have hc := count_stage (p := (· == .handleRemove)) hn fun i hi => by rw [beq_iff_eq.mp hi]; rfl
  rw [held_eq, tally, hc, onChannel, hr, List.count_eq_zero.mpr hx']
  rfl

theorem opened_grown {a : Action} (s : Serving w) (ha : StartsInTime w a) (h : step w a = some t) :
    TcpConnection.opened t ≤ 1 := by
  refine grown_once s ha h s.opened (fun hr hx hx' hn => ?_) (opened_step h)
  have hc := count_stage (p := (· == .startCallback)) hn fun i hi => by rw [beq_iff_eq.mp hi]; rfl
  simp [TcpConnection.opened, tally, connects, List.count_eq_zero.mpr hx, hc]

theorem opening_grown {a : Action} (s : Serving w) (ha : StartsInTime w a) (h : step w a = some t) :
    TcpConnection.opening t ≤ 1 := by
  refine grown_once s ha h s.opening (fun hr hx hx' hn => ?_) (opening_step h)
  have hc := count_stage (p := Instr.opens) hn fun i hi => by
    rcases Bool.or_eq_true_iff.mp hi with hi | hi <;> rw [beq_iff_eq.mp hi] <;> rfl
  simp [TcpConnection.opening, tally, hc]

theorem ending_grown {a : Action} (s : Serving w) (ha : StartsInTime w a) (h : step w a = some t) :
    TcpConnection.ending t ≤ 1 := by
  refine grown_once s ha h s.ending (fun hr hx hx' hn => ?_) (ending_step h)
  have hc := count_stage (p := Instr.ends) hn fun i hi => by
    rcases Bool.or_eq_true_iff.mp hi with hi | hi <;> rw [beq_iff_eq.mp hi] <;> rfl
  simp [TcpConnection.ending, tally, registrations, hr, hc]

theorem linked_exec {env : Env} (s : Serving w) (hc : w.conn.context = true)
    (h : step w (.exec env) = some t) :
    t.conn.context = true ∨ (.onClose ∈ t.conn.invoked ∧ .afterClose ∉ t.loop) := by
  obtain ⟨i, rest, c, push, hl, he, rfl⟩ := step_executes h
  rcases executes_context he with ⟨hn, -⟩ | ⟨hn, -⟩ | ⟨-, rfl, rfl, hi⟩
  · exact .inl (hn.trans hc)
  · exact .inl hn
  · right
    constructor
    · rw [hi]
      exact (s.reported.loop _ (by rw [hl]; exact List.mem_cons_self)).2 rfl
    · intro hm
      cases ends_once s hl rfl _ hm

theorem stage_persists {a : Action} {i : Instr} (hi : i.stage = true) (hm : i ∈ w.loop)
    (h : step w a = some t) :
    i ∈ t.loop ∨ ∃ env rest, a = .exec env ∧ w.loop = i :: rest := by
  have hp : Pending (· = i) (fun _ => False) (fun _ => False) t ∨
      ∃ env rest, a = .exec env ∧ w.loop = i :: rest := by
    refine pending_step (.inl ⟨i, hm, rfl⟩) ?_ (fun _ h => h) (fun _ _ _ _ _ _ _ h => h.elim) ?_
      (fun _ _ h => h.elim) h
    · rintro handler rfl
      cases hi
    · rintro env j rest push rfl hl - rfl
      exact .inr ⟨env, rest, rfl, hl⟩
  refine hp.imp_left fun hp => ?_
  rcases hp with ⟨j, hj, rfl⟩ | ⟨_, _, _, h⟩ | ⟨_, _, h⟩
  · exact hj
  · cases h
  · cases h

theorem close_step {a : Action} (h : step w a = some t) (hx : .onClose ∈ t.conn.invoked) :
    .onClose ∈ w.conn.invoked ∨ .afterClose ∈ t.loop := by
  by_cases hw : .onClose ∈ w.conn.invoked
  · exact .inl hw
  · obtain ⟨env, rest, rfl, hl, hd⟩ := close_begins h hx hw
    exact .inr (handle_remove_reports h hl hd).2

theorem stage_absent {a : Action} {i : Instr} (hi : i.stage = true) (hn : i ∉ w.loop)
    (hexec : ∀ env j rest push, a = .exec env → w.loop = j :: rest →
      Executes w.conn j t.conn push → ∀ k ∈ push, k ≠ i) (h : step w a = some t) : i ∉ t.loop := by
  intro hm
  have hcarried : Carried (· ≠ i) (fun _ _ => True) (fun _ => True) w :=
    ⟨fun j hj he => hn (he ▸ hj), fun _ _ _ => trivial, fun _ _ => trivial⟩
  refine (carried_step hcarried h ?_ (fun _ _ _ _ _ => trivial) (fun _ _ _ => trivial)
    (fun _ _ _ _ _ _ _ => trivial) hexec ?_ ?_ ?_).loop i hm rfl
  · rintro op - rfl
    cases op <;> cases hi
  · rintro id job - rfl
    cases hi
  · rintro rfl
    cases hi
  · rintro - cb rfl
    cases cb <;> cases hi

theorem closed_down_step {a : Action} (s : Serving w) (hx : .onClose ∈ w.conn.invoked)
    (hn : .afterClose ∉ w.loop) (h : step w a = some t) : .afterClose ∉ t.loop := by
  refine stage_absent rfl hn (fun _ i rest push _ hl he j hj hjc => ?_) h
  obtain rfl := (executes_stages he j hj).2.1 hjc
  exact (closed_apart s hx).1 (by rw [hl]; exact List.mem_cons_self)

theorem unlinked_step {a : Action} (s : Serving w) (ha : StartsInTime w a) (h : step w a = some t)
    (hx : .onClose ∈ t.conn.invoked) (hn : .afterClose ∉ t.loop) : t.conn.context = false := by
  have hx' := (close_step h hx).resolve_right hn
  by_cases hm : .afterClose ∈ w.loop
  · obtain ⟨env, rest, rfl, hl⟩ := (stage_persists rfl hm h).resolve_left hn
    obtain ⟨i, rest', c, push, hl', he, rfl⟩ := step_executes h
    rw [hl] at hl'
    cases hl'
    cases he
    rfl
  · have hc := s.unlinked hx' hm
    have hlate : ¬ CallPc.start.startsInTime w.conn := by simp [CallPc.startsInTime, hc, hx']
    rcases step_conn h with he | ⟨id, pc, rest, pcs, rfl, hu, hp⟩ | ⟨env, i, rest, push, rfl, hl, he⟩
    · rwa [he]
    · rcases calls_context hp with ⟨he, -⟩ | ⟨-, rfl⟩
      · exact he.trans hc
      · exact absurd (ha .start (by rw [hu]; rfl)) hlate
    · rcases executes_context he with ⟨he, -⟩ | ⟨-, rfl⟩ | ⟨he, -⟩
      · exact he.trans hc
      · exact absurd (ha (.call .start) (by rw [hl]; rfl)) hlate
      · exact he

theorem calls_begun {pc : CallPc} {pcs : List CallPc} (h : Calls c pc d pcs)
    (hd : d.context = false) : ∀ p ∈ pcs, p ≠ .run .add := by
  cases h with
  | start => cases hd
  | _ => simp

theorem executes_begun {i : Instr} {push : List Instr} (h : Executes c i d push)
    (hi : i.begun = false) (hc : c.channel.registered = false) (hd : d.context = false) :
    (∀ j ∈ push, j.begun = false) ∧ d.channel.registered = false ∧
      (.onConnect ∈ d.invoked → .onConnect ∈ c.invoked) ∧
        (.onClose ∈ d.invoked → .onClose ∈ c.invoked) := by
  cases h with
  | run task => cases task with
    | add => cases hi
    | _ => simp [Instr.begun, Instr.stage, hc]
  | call h =>
    refine ⟨fun j hj => ?_, by rw [calls_channel h, hc], by rw [calls_invoked h]; exact fun h => h,
      by rw [calls_invoked h]; exact fun h => h⟩
    obtain ⟨p, hp, rfl⟩ := List.mem_map.mp hj
    have hb := calls_begun h hd p hp
    cases p with
    | run job => cases job <;> first | rfl | exact absurd rfl hb
    | _ => rfl
  | add | added | connect | handleRemove => cases hi
  | remove h =>
    rw [hc] at h
    cases h
  | _ => simp [Instr.begun, Instr.stage, invoke, setWritable, hc]

theorem unstarted_step {a : Action} (s : Unstarted w) (h : step w a = some t)
    (hc : t.conn.context = false) : Unstarted t := by
  obtain ⟨hr, ⟨hx, hx'⟩, hw⟩ := s
  have hconn : t.conn.channel.registered = false ∧
      (.onConnect ∈ t.conn.invoked → .onConnect ∈ w.conn.invoked) ∧
        (.onClose ∈ t.conn.invoked → .onClose ∈ w.conn.invoked) := by
    rcases step_conn h with he | ⟨id, pc, rest, pcs, -, -, hp⟩ | ⟨env, i, rest, push, -, hl, he⟩
    · rw [he]
      exact ⟨hr, fun h => h, fun h => h⟩
    · rw [calls_channel hp, calls_invoked hp]
      exact ⟨hr, fun h => h, fun h => h⟩
    · exact (executes_begun he (hw.loop i (by rw [hl]; exact List.mem_cons_self)) hr hc).2
  refine ⟨hconn.1, ⟨fun hm => hx (hconn.2.1 hm), fun hm => hx' (hconn.2.2 hm)⟩, ?_⟩
  refine carried_step hw h ?_ ?_ ?_ (fun id pc pcs _ hp => calls_begun hp hc) ?_ ?_ rfl ?_
  · rintro op -
    cases op <;> rfl
  · rintro id op pc - ho rfl
    cases op with
    | send overload buffer => cases overload <;> cases ho
    | _ => cases ho
  · rintro id job hj rfl
    exact hj rfl
  · exact fun env i rest push _ hl he =>
      (executes_begun he (hw.loop i (by rw [hl]; exact List.mem_cons_self)) hr hc).1
  · intro id job hj
    cases job <;> first | rfl | exact absurd rfl hj
  · intro _ cb
    cases cb <;> rfl

theorem linked_step {a : Action} (s : Serving w) (h : step w a = some t) :
    t.conn.context = true ∨ Unstarted t ∨ (.onClose ∈ t.conn.invoked ∧ .afterClose ∉ t.loop) := by
  rcases s.linked with hc | hu | ⟨hx, hn⟩
  · rcases step_conn h with he | ⟨id, pc, rest, pcs, rfl, hu, hp⟩ | ⟨env, i, rest, push, rfl, -, -⟩
    · rw [he]
      exact .inl hc
    · left
      rcases calls_context hp with ⟨hn, -⟩ | ⟨hn, -⟩
      · exact hn.trans hc
      · exact hn
    · exact (linked_exec s hc h).imp_right .inr
  · cases hc : t.conn.context with
    | true => exact .inl rfl
    | false => exact .inr (.inl (unstarted_step hu h hc))
  · exact .inr (.inr ⟨invoked_mem h hx, closed_down_step s hx hn h⟩)

theorem executes_reports {i : Instr} {push : List Instr} (h : Executes c i d push) :
    ∀ j ∈ push, (j = .setReadable → .onConnect ∈ d.invoked) ∧
      (j = .afterClose → .onClose ∈ d.invoked) := by
  cases h with
  | connect h | handleRemove h => simp [invoke]
  | call h => cases h <;> simp
  | _ => simp

theorem reported_step {a : Action} (s : Serving w) (h : step w a = some t) :
    Carried
      (fun i => (i = .setReadable → .onConnect ∈ t.conn.invoked) ∧
        (i = .afterClose → .onClose ∈ t.conn.invoked))
      (fun _ _ => True) (fun _ => True) t := by
  have hcarried : Carried
      (fun i => (i = .setReadable → .onConnect ∈ t.conn.invoked) ∧
        (i = .afterClose → .onClose ∈ t.conn.invoked))
      (fun _ _ => True) (fun _ => True) w := by
    refine ⟨fun i hi => ?_, s.reported.users, s.reported.tasks⟩
    obtain ⟨h1, h2⟩ := s.reported.loop i hi
    exact ⟨fun he => invoked_mem h (h1 he), fun he => invoked_mem h (h2 he)⟩
  refine carried_step hcarried h ?_ (fun _ _ _ _ _ => trivial) (fun _ _ _ => trivial)
    (fun _ _ _ _ _ _ _ => trivial) (fun _ _ _ _ _ _ he => executes_reports he) ?_ ?_ ?_
  · rintro op -
    cases op <;> simp [Op.onLoop]
  · simp
  · simp
  · intro _ cb
    cases cb <;> simp [callback]

theorem serving_step {a : Action} (s : Serving w) (ha : StartsInTime w a) (h : step w a = some t) :
    Serving t where
  layered := layered_step s.layered h
  connecting := connecting_step s.connecting h
  held := held_grown s ha h
  opened := opened_grown s ha h
  opening := opening_grown s ha h
  ending := ending_grown s ha h
  reported := reported_step s h
  linked := linked_step s h
  unlinked := unlinked_step s ha h

theorem serving_init : Serving .init where
  layered := layered_init
  connecting := started_init.connecting
  held := Nat.zero_le _
  opened := Nat.zero_le _
  opening := Nat.zero_le _
  ending := Nat.zero_le _
  reported := ⟨fun _ h => absurd h List.not_mem_nil, fun _ _ _ => trivial, fun _ _ => trivial⟩
  linked := .inr (.inl ⟨rfl, ⟨List.not_mem_nil, List.not_mem_nil⟩,
    ⟨fun _ h => absurd h List.not_mem_nil, fun _ _ h => absurd h List.not_mem_nil,
      fun _ h => absurd h List.not_mem_nil⟩⟩)
  unlinked h := absurd h List.not_mem_nil

theorem serving_run {as : List Action} (ha : system.Along StartsInTime .init as)
    (h : system.run .init as = some t) : Serving t :=
  Transition.System.run_invariant (M := system) (fun _ _ _ s ha h => serving_step s ha h)
    serving_init ha h

structure StartedOnce (w : World) : Prop where
  started : Started w
  opened (τ : Thread) : opened w + adding τ w ≤ allStarts w
  serving : Serving w

theorem starting_unreported (s : StartedOnce w) {τ : Thread} (h : 1 ≤ adding τ w) :
    .onConnect ∉ w.conn.invoked ∧ .onClose ∉ w.conn.invoked := by
  have hone := s.started.single
  constructor
  · intro hx
    have hpos := List.count_pos_iff.mpr hx
    have hle := s.opened τ
    simp only [TcpConnection.opened, tally, connects] at hle
    omega
  · intro hx
    have hpos := List.count_pos_iff.mpr hx
    have hle := s.started.once.held τ
    simp only [TcpConnection.held] at hle
    omega

theorem once_in_time {a : Action} (s : StartedOnce w) : StartsInTime w a := by
  cases a with
  | user id =>
    intro pc hm
    have hpc := List.mem_of_mem_head? hm
    cases pc with
    | start =>
      have hc : 0 < callingAdds w.users (.user id) := List.countP_pos_iff.mpr ⟨_, hpc, rfl⟩
      exact .inr (starting_unreported s (τ := .user id) (by simp only [adding]; omega)).2
    | _ => trivial
  | exec env =>
    intro i hm
    have hi := List.mem_of_mem_head? hm
    cases i with
    | call pc =>
      cases pc with
      | start =>
        have hc : 0 < w.loop.countP (Instr.adds .loop) := List.countP_pos_iff.mpr ⟨_, hi, rfl⟩
        exact .inr (starting_unreported s (τ := .loop) (by simp only [adding]; omega)).2
      | _ => trivial
    | task sender job =>
      cases job with
      | add =>
        have hc : 0 < w.loop.countP (Instr.adds sender) :=
          List.countP_pos_iff.mpr ⟨_, hi, by simp [Instr.adds]⟩
        exact .inr (starting_unreported s (τ := sender) (by simp only [adding]; omega))
      | _ => trivial
    | _ => trivial
  | _ => trivial

theorem started_once_step {a : Action} (s : StartedOnce w) (hn : allStarts t ≤ 1)
    (h : step w a = some t) : StartedOnce t where
  started := ⟨once_step s.started.once hn h, connecting_step s.started.connecting h, hn⟩
  opened := spent_step s.opened s.started.once.added hn h (opened_step h)
  serving := serving_step s.serving (once_in_time s) h

theorem started_once_init : StartedOnce .init where
  started := started_init
  opened τ := by cases τ <;> exact Nat.le_refl _
  serving := serving_init

theorem started_once_run {as : List Action} (s : StartedOnce w)
    (hn : allStarts w + as.countP Action.starts ≤ 1) (h : system.run w as = some t) :
    StartedOnce t := by
  induction as generalizing w with
  | nil =>
    cases h
    exact s
  | cons a as ih =>
    obtain ⟨u, hu, ht⟩ := Transition.System.run_cons h
    have hall := all_starts_step hu
    simp only [List.countP_cons] at hn
    exact ih (started_once_step s (by omega) hu) (by omega) ht

theorem context_of_after_close (s : Serving w) (h : .afterClose ∈ w.loop) :
    w.conn.context = true := by
  rcases s.linked with hc | hu | ⟨-, hn⟩
  · exact hc
  · cases hu.work.loop _ h
  · exact absurd h hn

theorem context_of_set_readable (s : Serving w) (h : .setReadable ∈ w.loop)
    (hx : .onClose ∉ w.conn.invoked) : w.conn.context = true := by
  rcases s.linked with hc | hu | ⟨hx', -⟩
  · exact hc
  · cases hu.work.loop _ h
  · exact absurd hx' hx

def Instr.unregisters : Instr → Bool
  | .call pc => pc.removes
  | .task _ job => job.removes
  | .remove => true
  | _ => false

def Unregistering (w : World) : Prop :=
  Pending (·.unregisters = true) (·.removes = true) (·.removes = true) w

def Leaving (w : World) : Prop := w.conn.channel.registered = true → Unregistering w

def Instr.drained (c : TcpConnection) : Instr → Prop
  | .task _ .close => c.output = []
  | _ => True

instance (c : TcpConnection) : DecidablePred (Instr.drained c)
  | .task _ .close => inferInstanceAs (Decidable (_ = _))
  | .task _ .add | .task _ (.handleSend _) | .task _ (.send _) => isTrue trivial
  | .task _ .forceClose | .task _ .shutdown | .task _ .forceShutdown => isTrue trivial
  | .call _ | .startCallback | .handler _ | .setReadable | .directWrite _ => isTrue trivial
  | .appendOutput _ | .fill _ | .sendOutput | .handleRead | .channelError => isTrue trivial
  | .handleError _ | .handleWrite | .writeDone | .afterWriteComplete | .closeWrite => isTrue trivial
  | .handleClose | .handleCloseStore | .remove | .handleRemove | .afterClose => isTrue trivial
  | .fileClose => isTrue trivial

def Drained (w : World) : Action → Prop
  | .exec _ => ∀ i ∈ w.loop.head?, i.drained w.conn
  | _ => True

instance (w : World) : DecidablePred (Drained w)
  | .exec _ => inferInstanceAs (Decidable (∀ _ ∈ _, _))
  | .call _ _ | .user _ | .ret | .enter | .task _ | .events _ => isTrue trivial

theorem executes_unregisters {i : Instr} {push : List Instr} (h : Executes c i d push)
    (hc : c.channel.registered = true) (hd : d.channel.registered = true) (hi : i.unregisters = true)
    (hdrained : i.drained c) : ∃ j ∈ push, j.unregisters = true := by
  cases h with
  | run job => exact ⟨_, List.mem_cons_self, hi⟩
  | call h => cases h <;> cases hi
  | closeTask | forceCloseTask => exact ⟨_, List.mem_cons_self, rfl⟩
  | closeLater sender h => exact absurd hdrained h
  | remove h => cases hd
  | removed h =>
    rw [hc] at h
    cases h
  | _ => cases hi

theorem executes_registers {i : Instr} {push : List Instr} (h : Executes c i d push)
    (hd : d.channel.registered = true) :
    c.channel.registered = true ∨ ∃ sender, i = .task sender .add := by
  cases h with
  | add sender h => exact .inr ⟨sender, rfl⟩
  | call h => exact .inl (calls_channel h ▸ hd)
  | remove h => cases hd
  | _ =>
    left
    simpa [setWritable, invoke] using hd

def AddsNothing (w : World) (a : Action) : Prop :=
  ∀ env sender, a = .exec env → w.loop.head? = some (.task sender .add) →
    w.conn.channel.registered = true

theorem adds_nothing {a : Action} (ha : StartsInTime w a)
    (hx : .onConnect ∈ w.conn.invoked ∨ .onClose ∈ w.conn.invoked) : AddsNothing w a := by
  rintro env sender rfl hl
  have ht : (Instr.task sender .add).startsInTime w.conn := ha _ hl
  exact ht.resolve_right fun ⟨hn, hn'⟩ => hx.elim hn hn'

theorem registered_before {a : Action} (ha : AddsNothing w a) (h : step w a = some t)
    (hr : t.conn.channel.registered = true) : w.conn.channel.registered = true := by
  rcases step_conn h with he | ⟨id, pc, rest, pcs, rfl, -, hc⟩ | ⟨env, i, rest, push, rfl, hl, he⟩
  · rwa [he] at hr
  · rwa [calls_channel hc] at hr
  · rcases executes_registers he hr with hw | ⟨sender, rfl⟩
    · exact hw
    · exact ha env sender rfl (by rw [hl]; rfl)

theorem leaving_step {a : Action} (s : Leaving w) (ha : AddsNothing w a) (hd : Drained w a)
    (h : step w a = some t) : Leaving t := by
  intro hr
  have hw := registered_before ha h hr
  refine (pending_step (Q := False) (s hw) ?_ (fun _ h => h) ?_ ?_ (fun _ _ h => h) h).resolve_right
    fun h => h
  · intro handler h
    cases h
  · intro id pc rest pcs _ _ hc hp
    cases pc with
    | run job => cases hc
    | _ => cases hp
  · rintro env i rest push rfl hl he hi
    exact .inl (executes_unregisters he hw hr hi (hd i (by simp [hl])))

theorem calls_disconnects {pc : CallPc} {pcs : List CallPc} (h : Calls c pc d pcs)
    (hc : c.state ≠ .kDisconnected) (hd : d.state = .kDisconnected) :
    ∃ p ∈ pcs, p.removes = true := by
  cases h with
  | close h => exact ⟨_, List.mem_cons_self, rfl⟩
  | forceCloseStore => exact ⟨_, List.mem_cons_self, rfl⟩
  | shutdown h | forceShutdownStore => cases hd
  | _ => exact absurd hd hc

theorem executes_disconnects {i : Instr} {push : List Instr} (h : Executes c i d push)
    (hc : c.state ≠ .kDisconnected) (hd : d.state = .kDisconnected) :
    ∃ j ∈ push, j.unregisters = true := by
  cases h with
  | call h =>
    obtain ⟨p, hp, hr⟩ := calls_disconnects h hc hd
    exact ⟨_, List.mem_map_of_mem hp, hr⟩
  | connect h => cases hd
  | handleCloseStore => exact ⟨_, List.mem_cons_self, rfl⟩
  | _ => exact absurd hd hc

theorem disconnects_step {a : Action} (h : step w a = some t)
    (hw : w.conn.state ≠ .kDisconnected) (ht : t.conn.state = .kDisconnected) :
    Unregistering t := by
  rcases step_conn h with he | ⟨id, pc, rest, pcs, rfl, -, -⟩ | ⟨env, i, rest, push, rfl, -, -⟩
  · rw [he] at ht
    exact absurd ht hw
  · rcases step_calls h with ⟨job, rest, -, rfl⟩ | ⟨pc, rest, c, pcs, -, hc, rfl⟩
    · exact absurd ht hw
    · obtain ⟨p, hp, hr⟩ := calls_disconnects hc hw ht
      exact .inr (.inl ⟨id, p, by simp [World.setUser, hp], hr⟩)
  · obtain ⟨i, rest, c, push, -, he, rfl⟩ := step_executes h
    obtain ⟨j, hj, hr⟩ := executes_disconnects he hw ht
    exact .inl ⟨j, List.mem_append_left _ hj, hr⟩

theorem executes_connects {i : Instr} {push : List Instr} (h : Executes c i d push)
    (hx : .onConnect ∈ d.invoked) :
    .onConnect ∈ c.invoked ∨ (c.state = .kConnecting ∧ .setReadable ∈ push) := by
  cases h with
  | connect h => exact .inr ⟨h, by simp⟩
  | call h => exact .inl (calls_invoked h ▸ hx)
  | _ => exact .inl (by simpa [invoke, setWritable] using hx)

def Disconnects (w : World) : Prop :=
  .onConnect ∈ w.conn.invoked → w.conn.state = .kDisconnected → Leaving w

theorem disconnecting_step {a : Action} (ha : StartsInTime w a) (hx : Disconnects w) (hd : Drained w a)
    (h : step w a = some t) : Disconnects t := by
  intro hm hs
  by_cases hw : w.conn.state = .kDisconnected
  · have hm' : .onConnect ∈ w.conn.invoked := by
      rcases step_conn h with he | ⟨id, pc, rest, pcs, rfl, -, hc⟩ | ⟨env, i, rest, push, -, -, he⟩
      · rwa [he] at hm
      · rwa [calls_invoked hc] at hm
      · refine (executes_connects he hm).resolve_right fun ⟨hk, _⟩ => ?_
        rw [hw] at hk
        cases hk
    exact leaving_step (hx hm' hw) (adds_nothing ha (.inl hm')) hd h
  · exact fun _ => disconnects_step h hw hs

def Entered (w : World) : Prop :=
  (.onConnect ∈ w.conn.invoked ∨ .onClose ∈ w.conn.invoked) ∧ .setReadable ∉ w.loop

theorem entered_step {a : Action} (s : Serving w) (he : Entered w) (h : step w a = some t) :
    Entered t := by
  obtain ⟨hx, hn⟩ := he
  refine ⟨hx.imp (invoked_mem h) (invoked_mem h),
    stage_absent rfl hn (fun _ i rest push _ _ he j hj hjr => ?_) h⟩
  obtain ⟨h1, h2⟩ := s.connecting.fresh ((executes_stages he j hj).1 hjr).2
  exact hx.elim h1 h2

-- OnConnect has returned and OnClose has not.
def Present (w : World) : Prop :=
  (.onConnect ∈ w.conn.invoked ∧ .setReadable ∉ w.loop) ∧
    (.onClose ∈ w.conn.invoked → .afterClose ∈ w.loop)

theorem connect_step {a : Action} (h : step w a = some t) (hx : .onConnect ∈ t.conn.invoked) :
    .onConnect ∈ w.conn.invoked ∨ .setReadable ∈ t.loop := by
  rcases step_conn h with he | ⟨id, pc, rest, pcs, rfl, -, hc⟩ | ⟨env, i, rest, push, rfl, -, -⟩
  · exact .inl (he ▸ hx)
  · exact .inl (calls_invoked hc ▸ hx)
  · obtain ⟨i, rest, c, push, -, he, rfl⟩ := step_executes h
    exact (executes_connects he hx).imp_right fun ⟨_, hm⟩ => List.mem_append_left _ hm

theorem present_step {a : Action} (s : Serving w) (h : step w a = some t)
    (hr : ∀ env rest, a = .exec env → w.loop ≠ .setReadable :: rest)
    (hc : ∀ env rest, a = .exec env → w.loop ≠ .afterClose :: rest) : Present t ↔ Present w := by
  have hkeeps {i : Instr} (hi : i.stage = true) (hm : i ∈ w.loop)
      (hn : ∀ env rest, a = .exec env → w.loop ≠ i :: rest) : i ∈ t.loop := by
    refine (stage_persists hi hm h).resolve_right ?_
    rintro ⟨env, rest, he, hl⟩
    exact hn env rest he hl
  constructor
  · rintro ⟨⟨hx, hn⟩, hcl⟩
    refine ⟨⟨(connect_step h hx).resolve_right hn, fun hm => hn (hkeeps rfl hm hr)⟩, fun hm => ?_⟩
    by_contra hmn
    exact closed_down_step s hm hmn h (hcl (invoked_mem h hm))
  · rintro ⟨⟨hx, hn⟩, hcl⟩
    refine ⟨⟨invoked_mem h hx, (entered_step s ⟨.inl hx, hn⟩ h).2⟩, fun hm => ?_⟩
    rcases close_step h hm with hm | hm
    · exact hkeeps rfl (hcl hm) hc
    · exact hm

theorem present_entered (s : Serving w) (hc : w.conn.context = true) {rest : List Instr}
    (hl : w.loop = .setReadable :: rest) {env : Env} (h : step w (.exec env) = some t) :
    Present t := by
  obtain ⟨i, rest', c, push, hl', he, rfl⟩ := step_executes h
  rw [hl] at hl'
  cases hl'
  cases he
  have hm : .setReadable ∈ w.loop := by rw [hl]; exact List.mem_cons_self
  refine ⟨⟨(s.reported.loop _ hm).1 rfl, fun hn => ?_⟩, fun hx => ?_⟩
  · cases opens_once s hl rfl _ hn
  · by_contra hn
    have hn' : .afterClose ∉ w.loop := by
      rw [hl]
      simpa using hn
    rw [s.unlinked hx hn'] at hc
    cases hc

theorem present_left (s : Serving w) {rest : List Instr} (hl : w.loop = .afterClose :: rest)
    {env : Env} (h : step w (.exec env) = some t) : ¬ Present t := by
  obtain ⟨i, rest', c, push, hl', he, rfl⟩ := step_executes h
  rw [hl] at hl'
  cases hl'
  cases he
  rintro ⟨-, hx⟩
  have hm := (s.reported.loop .afterClose (by rw [hl]; exact List.mem_cons_self)).2 rfl
  cases ends_once s hl rfl _ (hx hm)

theorem step_users {a : Action} {id : Nat} (hc : ∀ op, a ≠ .call (.user id) op) (hu : a ≠ .user id)
    (h : step w a = some t) : t.users id = w.users id := by
  cases a with
  | call thread op =>
    cases thread with
    | loop =>
      obtain ⟨handler, rest, -, rfl⟩ := step_call_loop h
      rfl
    | user i =>
      obtain ⟨pc, -, -, rfl⟩ := step_call_user h
      have hi : id ≠ i := fun he => hc op (he ▸ rfl)
      simp [World.setUser, World.record, hi]
  | user i =>
    have hi : id ≠ i := fun he => hu (he ▸ rfl)
    rcases step_calls h with ⟨job, rest, -, rfl⟩ | ⟨pc, rest, c, pcs, -, -, rfl⟩ <;>
      simp [World.setUser, hi]
  | exec env =>
    obtain ⟨i, rest, c, push, -, -, rfl⟩ := step_executes h
    rfl
  | ret =>
    obtain ⟨handler, rest, -, rfl⟩ := step_ret h
    rfl
  | enter =>
    obtain ⟨-, rfl⟩ := step_enter h
    rfl
  | task index =>
    obtain ⟨i, job, -, -, -, rfl⟩ := step_task h
    rfl
  | events events =>
    obtain ⟨-, -, rfl⟩ := step_events h
    rfl

end TcpConnection
end Pedronet
