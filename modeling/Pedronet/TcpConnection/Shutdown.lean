import Pedronet.TcpConnection.Outcomes

namespace Pedronet
namespace TcpConnection
variable {w t : World} {c d : TcpConnection}

def Task.gentle : Task → Bool
  | .forceShutdown => false
  | _ => true

def CallPc.gentle : CallPc → Bool
  | .forceShutdown | .forceShutdownStore => false
  | .run task => task.gentle
  | _ => true

def Instr.gentle : Instr → Bool
  | .call pc => pc.gentle
  | .task _ job => job.gentle
  | _ => true

def Action.gentle : Action → Bool
  | .call _ op => op != .forceShutdown
  | _ => true

structure Gentle (w : World) : Prop where
  loop : ∀ i ∈ w.loop, i.gentle = true
  users : ∀ id, ∀ pc ∈ w.users id, pc.gentle = true
  tasks : ∀ entry ∈ w.tasks, entry.2.gentle = true

theorem calls_gentle {pc : CallPc} {pcs : List CallPc} (h : Calls c pc d pcs)
    (hg : pc.gentle = true) : ∀ p ∈ pcs, p.gentle = true := by
  cases h with
  | forceShutdown h => cases hg
  | forceShutdownStore => cases hg
  | _ => simp [CallPc.gentle, Task.gentle]

theorem executes_gentle {i : Instr} {push : List Instr} (h : Executes c i d push)
    (hg : i.gentle = true) : ∀ j ∈ push, j.gentle = true := by
  cases h with
  | run task => simpa [Instr.gentle, CallPc.gentle] using hg
  | call h =>
    intro j hj
    obtain ⟨pc, hpc, rfl⟩ := List.mem_map.mp hj
    exact calls_gentle h hg pc hpc
  | _ => simp [Instr.gentle, CallPc.gentle, Task.gentle]

theorem gentle_step {a : Action} (g : Gentle w) (ha : a.gentle = true) (h : step w a = some t) :
    Gentle t := by
  have s : Carried (·.gentle = true) (fun _ pc => pc.gentle = true) (·.gentle = true) w :=
    ⟨g.loop, g.users, g.tasks⟩
  have s' := carried_step s h ?_ ?_ ?_ ?_ ?_ ?_ ?_ ?_
  · exact ⟨s'.loop, s'.users, s'.tasks⟩
  · rintro op rfl
    cases op <;> first | rfl | cases ha
  · rintro id op pc rfl ho
    unfold Op.onUser at ho
    split at ho <;> cases ho <;> first | rfl | cases ha
  · exact fun id job hg => hg
  · exact fun id pc pcs hg hc => calls_gentle hc hg
  · exact fun _ i rest push _ hl he => executes_gentle he (g.loop i (by simp [hl]))
  · exact fun id job hg => hg
  · rfl
  · intro _ cb
    cases cb <;> rfl

theorem gentle_init : Gentle .init where
  loop _ h := by cases h
  users _ _ h := by cases h
  tasks _ h := by cases h

def CallPc.careful (c : TcpConnection) : CallPc → Prop
  | .shutdown => c.state = .kConnected → c.output = []
  | _ => True

instance (c : TcpConnection) : DecidablePred (CallPc.careful c)
  | .shutdown => inferInstanceAs (Decidable (_ → _))
  | .start | .close | .forceClose | .forceCloseStore => isTrue trivial
  | .forceShutdown | .forceShutdownStore | .run _ => isTrue trivial

def Instr.careful (c : TcpConnection) : Instr → Prop
  | .call pc => pc.careful c
  | .appendOutput buffer | .fill buffer => c.state = .kDisconnecting → buffer = []
  | _ => True

instance (c : TcpConnection) (i : Instr) : Decidable (i.careful c) := by
  unfold Instr.careful
  split <;> infer_instance

def World.completing (w : World) : Prop := .afterWriteComplete ∈ w.loop

instance (w : World) : Decidable w.completing := inferInstanceAs (Decidable (_ ∈ _))

def Careful (w : World) : Action → Prop
  | .exec _ => w.completing → ∀ i ∈ w.loop.head?, i.careful w.conn
  | .user id => w.completing → ∀ pc ∈ (w.users id).head?, pc.careful w.conn
  | _ => True

instance (w : World) : DecidablePred (Careful w)
  | .exec _ | .user _ => inferInstanceAs (Decidable (_ → ∀ _ ∈ _, _))
  | .call _ _ | .ret | .enter | .task _ | .events _ => isTrue trivial

def Emptied (c : TcpConnection) : Prop := c.state = .kDisconnecting → c.output = []

structure Orderly (w : World) : Prop where
  layered : Layered w
  gentle : Gentle w
  completing : w.completing → Emptied w.conn
  closing : w.loop.head? = some .closeWrite → w.conn.output = []

theorem calls_emptied {pc : CallPc} {pcs : List CallPc} (h : Calls c pc d pcs)
    (hg : pc.gentle = true) (hc : pc.careful c) (he : Emptied c) : Emptied d := by
  cases h with
  | shutdown h => exact fun _ => hc h
  | forceShutdownStore => cases hg
  | close h => exact fun hs => by cases hs
  | forceCloseStore => exact fun hs => by cases hs
  | _ => exact he

theorem executes_emptied {i : Instr} {push : List Instr} (h : Executes c i d push)
    (hg : i.gentle = true) (hc : i.careful c) (he : Emptied c) : Emptied d := by
  cases h with
  | call h => exact calls_emptied h hg hc he
  | append buffer h => exact fun hs => absurd (hc hs) h
  | fill bytes =>
    intro hs
    rw [hc hs]
    exact List.append_eq_nil_iff.mpr ⟨he hs, rfl⟩
  | wrote n h => exact fun hs => absurd (he hs) h
  | connect h => exact fun hs => by cases hs
  | handleCloseStore => exact fun hs => by cases hs
  | _ => exact he

theorem executes_completing {i : Instr} {push : List Instr} (h : Executes c i d push)
    (hm : .afterWriteComplete ∈ push) : d.output = [] := by
  cases h with
  | writeComplete h => exact h
  | call h => simp at hm
  | _ => simp at hm

theorem executes_closing {i : Instr} {push : List Instr} (h : Executes c i d push)
    (hg : i.gentle = true) (hm : push.head? = some .closeWrite) :
    d = c ∧ i = .afterWriteComplete ∧ c.state = .kDisconnecting ∨ d.output = [] := by
  cases h with
  | disconnecting h => exact .inl ⟨rfl, rfl, h⟩
  | shutdownTask sender h => exact .inr h
  | forceShutdownTask sender => cases hg
  | call h => cases h <;> simp at hm
  | _ => simp at hm

theorem orderly_exec (o : Orderly w) {i : Instr} {rest push : List Instr} (hl : w.loop = i :: rest)
    (h : Executes w.conn i c push) (hc : w.completing → i.careful w.conn)
    (hlay : Layered { w with conn := c, loop := push ++ rest })
    (hgen : Gentle { w with conn := c, loop := push ++ rest }) :
    Orderly { w with conn := c, loop := push ++ rest } := by
  have hg : i.gentle = true := o.gentle.loop i (by simp [hl])
  refine ⟨hlay, hgen, fun hm => ?_, fun hm => ?_⟩
  · rcases List.mem_append.mp hm with hm | hm
    · exact fun _ => executes_completing h hm
    · have hw : w.completing := by
        rw [World.completing, hl]
        exact List.mem_cons_of_mem _ hm
      exact executes_emptied h hg (hc hw) (o.completing hw)
  · cases push with
    | nil =>
      have hb : Instr.closeWrite.below = true :=
        o.layered _ (by rw [hl]; exact List.mem_of_mem_head? hm)
      cases hb
    | cons top push =>
      rcases executes_closing h hg hm with ⟨rfl, rfl, hs⟩ | he
      · exact o.completing (by simp [World.completing, hl]) hs
      · exact he

theorem orderly_user (o : Orderly w) {id : Nat} (h : step w (.user id) = some t)
    (hc : w.completing → ∀ pc ∈ (w.users id).head?, pc.careful w.conn) (hlay : Layered t)
    (hgen : Gentle t) : Orderly t := by
  rcases step_calls h with ⟨task, rest, -, rfl⟩ | ⟨pc, rest, c, pcs, hu, hcall, rfl⟩
  · exact ⟨hlay, hgen, o.completing, o.closing⟩
  · have hg : pc.gentle = true := o.gentle.users id pc (by simp [hu])
    refine ⟨hlay, hgen, fun hm => ?_, fun hm => ?_⟩
    · exact calls_emptied hcall hg (hc hm pc (by simp [hu])) (o.completing hm)
    · have hout := o.closing hm
      cases hcall <;> exact hout

theorem orderly_step {a : Action} (o : Orderly w) (hg : a.gentle = true) (hc : Careful w a)
    (h : step w a = some t) : Orderly t := by
  have hlay := layered_step o.layered h
  have hgen := gentle_step o.gentle hg h
  cases a with
  | call thread op =>
    cases thread with
    | loop =>
      obtain ⟨handler, rest, hl, rfl⟩ := step_call_loop h
      refine ⟨hlay, hgen, fun hm => o.completing ?_, fun hm => ?_⟩
      · rw [World.completing, hl]
        rcases List.mem_cons.mp hm with hm | hm
        · cases op <;> cases hm
        · exact hm
      · cases op <;> cases hm
    | user id =>
      obtain ⟨pc, -, -, rfl⟩ := step_call_user h
      exact ⟨hlay, hgen, o.completing, o.closing⟩
  | user id => exact orderly_user o h hc hlay hgen
  | exec env =>
    obtain ⟨i, rest, c, push, hl, he, rfl⟩ := step_executes h
    exact orderly_exec o hl he (fun hm => hc hm i (by simp [hl])) hlay hgen
  | ret =>
    obtain ⟨handler, rest, hl, rfl⟩ := step_ret h
    refine ⟨hlay, hgen, fun hm => o.completing ?_, fun hm => ?_⟩
    · rw [World.completing, hl]
      exact List.mem_cons_of_mem _ hm
    · have hb : Instr.closeWrite.below = true :=
        o.layered _ (by rw [hl]; exact List.mem_of_mem_head? hm)
      cases hb
  | enter =>
    obtain ⟨-, rfl⟩ := step_enter h
    exact ⟨hlay, hgen, fun hm => by simp [World.completing] at hm, fun hm => by cases hm⟩
  | task index =>
    obtain ⟨id, task, -, -, -, rfl⟩ := step_task h
    exact ⟨hlay, hgen, fun hm => by simp [World.completing] at hm, fun hm => by cases hm⟩
  | events events =>
    obtain ⟨-, -, rfl⟩ := step_events h
    refine ⟨hlay, hgen, fun hm => ?_, fun hm => ?_⟩
    · obtain ⟨cb, -, hcb⟩ := List.mem_map.mp hm
      cases cb <;> cases hcb
    · have hb := events_below events _ (List.mem_of_mem_head? hm)
      cases hb

theorem orderly_init : Orderly .init where
  layered := layered_init
  gentle := gentle_init
  completing hm := by cases hm
  closing hm := by cases hm

theorem closes_write_drained (as : List Action)
    (hf : system.Along (fun _ a => a.gentle = true) .init as) (hg : system.Along Careful .init as) :
    system.Always (fun w => w.loop.head? = some .closeWrite → w.conn.output = []) .init as :=
  Transition.System.always_of_along (fun _ _ _ o ha h => orderly_step o ha.1 ha.2 h)
    (fun _ o => o.closing) orderly_init (Transition.System.along_and hf hg)

def drainedShutdown : List Action :=
  started ++ [.call .loop (.send .view [1, 2]), .exec .none, .exec .none, .exec (.write (.wrote 1)),
    .exec .none, .call .loop .shutdown, .exec .none, .exec .none, .exec .none, .ret, .exec .none,
    .events .kWritable, .exec (.write (.wrote 1)), .exec .none, .ret, .exec .none]

theorem closes_write_drained_shutdown :
    (system.run .init drainedShutdown).isSome = true ∧
      system.Always (fun w => w.loop.head? = some .closeWrite → w.conn.output = []) .init
        drainedShutdown :=
  ⟨rfl, closes_write_drained drainedShutdown (by decide) (by decide)⟩

def shutdownOnWriteComplete : List Action :=
  started ++ [.call .loop (.send .view [1, 2]), .exec .none, .exec .none, .exec (.write (.wrote 1)),
    .exec .none, .ret, .exec .none, .events .kWritable, .exec (.write (.wrote 1)), .exec .none,
    .call .loop (.send .view [3, 4]), .exec .none, .exec .none, .exec (.write (.wrote 1)),
    .exec .none, .call .loop .shutdown, .exec .none, .exec .none, .exec .none, .ret, .exec .none]

theorem closes_write_early :
    ¬ ∀ as, system.Along (fun _ a => a.gentle = true) .init as →
      system.Always (fun w => w.loop.head? = some .closeWrite → w.conn.output = []) .init as := by
  intro h
  have ha := h shutdownOnWriteComplete (by decide)
  have hl := Transition.System.always_last ha rfl rfl
  cases hl

end TcpConnection
end Pedronet
