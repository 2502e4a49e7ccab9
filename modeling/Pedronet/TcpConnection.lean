import Pedronet.Transition
import Pedronet.SocketChannel

namespace Pedronet
namespace TcpConnection

abbrev Bytes := List UInt8

def kOk : Nat := 0
def EAGAIN : Nat := 11
def EWOULDBLOCK : Nat := 11

inductive State where
  | kConnected
  | kDisconnected
  | kConnecting
  | kDisconnecting
deriving DecidableEq, Repr

-- Roles: `loop` is whichever thread runs EventLoop::Loop(), `user` any other thread. That a thread
-- may have sent before it entered Loop() is the subject of TcpConnection.Threads.
inductive Thread where
  | loop
  | user (id : Nat)
deriving DecidableEq, Repr

inductive Handler where
  | onConnect
  | onRead
  | onWriteComplete
  | onError (code : Nat)
  | onClose
  | other
deriving DecidableEq, Repr

inductive Overload where
  | arrayBuffer
  | view
  | string
deriving DecidableEq, Repr

inductive Op where
  | start
  | send (overload : Overload) (buffer : Bytes)
  | sendOutput
  | append (bytes : Bytes)
  | close
  | forceClose
  | shutdown
  | forceShutdown
deriving DecidableEq, Repr

inductive Task where
  | add
  | handleSend (buffer : Bytes)
  | send (buffer : Bytes)
  | close
  | forceClose
  | shutdown
  | forceShutdown
deriving DecidableEq, Repr

inductive CallPc where
  | start
  | close
  | forceClose
  | forceCloseStore
  | shutdown
  | forceShutdown
  | forceShutdownStore
  | run (task : Task)
deriving DecidableEq, Repr

inductive Instr where
  | call (pc : CallPc)
  | task (sender : Thread) (task : Task)
  | startCallback
  | handler (handler : Handler)
  | setReadable
  | directWrite (buffer : Bytes)
  | appendOutput (buffer : Bytes)
  | fill (bytes : Bytes)
  | sendOutput
  | handleRead
  | channelError
  | handleError (code : Nat)
  | handleWrite
  | writeDone
  | afterWriteComplete
  | closeWrite
  | handleClose
  | handleCloseStore
  | remove
  | handleRemove
  | afterClose
  | fileClose
deriving DecidableEq, Repr

inductive WriteResult where
  | wrote (n : Nat)
  | failed (errno soError : Nat)
deriving DecidableEq, Repr

inductive ReadResult where
  | got
  | eof
  | failed (errno : Nat)
deriving DecidableEq, Repr

inductive Env where
  | none
  | write (result : WriteResult)
  | read (result : ReadResult)
  | soError (code : Nat)
deriving DecidableEq, Repr

end TcpConnection

open TcpConnection

-- From `written` on the fields are history: no step reads them. `accepted` has what handleSend took
-- and what a handler wrote into output_ itself.
structure TcpConnection where
  state : State
  output : Bytes
  channel : SocketChannel
  context : Bool
  closeLatch : Nat
  written : Bytes
  accepted : List (Thread × Bytes)
  invoked : List Handler
  writeFailed : Bool
  writeClosed : Bool
  closeWon : Bool
  forceClosed : Bool
  eofRead : Bool
deriving DecidableEq, Repr

namespace TcpConnection

def create : TcpConnection :=
  ⟨.kConnecting, [], .create, false, 1, [], [], [], false, false, false, false, false⟩

def setWritable (c : TcpConnection) (on : Bool) : TcpConnection :=
  { c with channel := c.channel.setWritable on }

def invoke (c : TcpConnection) (handler : Handler) : TcpConnection :=
  { c with invoked := c.invoked ++ [handler] }

-- On its own thread the loop runs a task handed to it at once; other threads queue it.
def Op.onLoop : Op → Instr
  | .start => .call .start
  | .send _ buffer => .call (.run (.handleSend buffer))
  | .sendOutput => .sendOutput
  | .append bytes => .fill bytes
  | .close => .call .close
  | .forceClose => .call .forceClose
  | .shutdown => .call .shutdown
  | .forceShutdown => .call .forceShutdown

def Op.onUser : Op → Option CallPc
  | .start => some .start
  | .send .arrayBuffer buffer => some (.run (.send buffer))
  | .send _ buffer => some (.run (.handleSend buffer))
  | .sendOutput => none
  | .append _ => none
  | .close => some .close
  | .forceClose => some .forceClose
  | .shutdown => some .shutdown
  | .forceShutdown => some .forceShutdown

def callStep (c : TcpConnection) : CallPc → TcpConnection × List CallPc
  | .start => ({ c with context := true }, [.run .add])
  | .close =>
    if c.state = .kConnected then
      ({ c with state := .kDisconnected, closeWon := true }, [.run .close])
    else (c, [])
  | .forceClose =>
    ({ c with forceClosed := true }, if c.state = .kDisconnected then [] else [.forceCloseStore])
  | .forceCloseStore => ({ c with state := .kDisconnected }, [.run .forceClose])
  | .shutdown =>
    if c.state = .kConnected then ({ c with state := .kDisconnecting }, [.run .shutdown])
    else (c, [])
  | .forceShutdown => (c, if c.state = .kDisconnected then [] else [.forceShutdownStore])
  | .forceShutdownStore => ({ c with state := .kDisconnecting }, [.run .forceShutdown])
  | .run task => (c, [.run task])

def taskStep (c : TcpConnection) (sender : Thread) : Task → TcpConnection × List Instr
  | .add =>
    if c.channel.registered then (c, [])
    else ({ c with channel := c.channel.add }, [.startCallback])
  | .handleSend buffer =>
    if c.state = .kConnected then
      ({ c with accepted := c.accepted ++ [(sender, buffer)] }, [.directWrite buffer])
    else (c, [])
  | .send buffer => (c, [.task sender (.handleSend buffer)])
  | .close => (c, if c.output = [] then [.remove] else [])
  | .forceClose => (c, [.remove])
  | .shutdown => if c.output = [] then (c.setWritable false, [.closeWrite]) else (c, [])
  | .forceShutdown => (c.setWritable false, [.closeWrite])

def directWrite (c : TcpConnection) (buffer : Bytes) : Env → Option (TcpConnection × List Instr)
  | .none =>
    if c.output = [] ∧ buffer ≠ [] then none else some (c, [.appendOutput buffer])
  | .write (.wrote n) =>
    if c.output = [] ∧ buffer ≠ [] ∧ n ≤ buffer.length then
      some ({ c with written := c.written ++ buffer.take n }, [.appendOutput (buffer.drop n)])
    else none
  | .write (.failed _ soError) =>
    if c.output = [] ∧ buffer ≠ [] then
      some ({ c with writeFailed := true },
        (if soError ≠ EWOULDBLOCK ∧ soError ≠ EAGAIN then [.handleError soError] else []) ++
          [.appendOutput buffer])
    else none
  | _ => none

def handleWrite (c : TcpConnection) : Env → Option (TcpConnection × List Instr)
  | .none =>
    if c.channel.writable = false then some (c, [])
    else if c.output = [] then some (c, [.writeDone]) else none
  | .write (.wrote n) =>
    if c.channel.writable = true ∧ c.output ≠ [] ∧ n ≤ c.output.length then
      some ({ c with written := c.written ++ c.output.take n, output := c.output.drop n },
        [.writeDone])
    else none
  | .write (.failed _ soError) =>
    if c.channel.writable = true ∧ c.output ≠ [] then
      some ({ c with writeFailed := true }, [.handleError soError])
    else none
  | _ => none

def handleRead (c : TcpConnection) : Env → Option (TcpConnection × List Instr)
  | .read .got => some (c.invoke .onRead, [.handler .onRead])
  | .read .eof => some ({ c with eofRead := true }, [.handleClose])
  | .read (.failed errno) =>
    some (c, if errno ≠ EWOULDBLOCK ∧ errno ≠ EAGAIN then [.handleError errno] else [])
  | _ => none

def exec (c : TcpConnection) (env : Env) : Instr → Option (TcpConnection × List Instr)
  | .call (.run task) => some (c, [.task .loop task])
  | .call pc => some ((callStep c pc).1, (callStep c pc).2.map .call)
  | .task sender task => some (taskStep c sender task)
  | .startCallback =>
    some (if c.state = .kConnecting then
      ({ c with state := .kConnected }.invoke .onConnect, [.handler .onConnect, .setReadable])
    else (c, []))
  | .handler _ => none
  | .setReadable => some ({ c with channel := c.channel.setReadable true }, [])
  | .directWrite buffer => directWrite c buffer env
  | .appendOutput buffer =>
    some (if buffer = [] then (c, [])
    else ({ c with output := c.output ++ buffer }.setWritable true, []))
  | .fill bytes =>
    some ({ c with output := c.output ++ bytes, accepted := c.accepted ++ [(.loop, bytes)] }, [])
  | .sendOutput =>
    some (if c.output = [] then (c, []) else (c.setWritable true, [.handleWrite]))
  | .handleRead => handleRead c env
  | .channelError =>
    match env with
    | .soError code => some (c, [.handleError code])
    | _ => none
  | .handleError code =>
    some (if code = kOk then (c, [.call .forceClose])
    else (c.invoke (.onError code), [.handler (.onError code)]))
  | .handleWrite => handleWrite c env
  | .writeDone =>
    some (if c.output = [] then
      ((c.setWritable false).invoke .onWriteComplete, [.handler .onWriteComplete, .afterWriteComplete])
    else (c, []))
  | .afterWriteComplete => some (c, if c.state = .kDisconnecting then [.closeWrite] else [])
  | .closeWrite => some ({ c with writeClosed := true }, [])
  | .handleClose => some (c, if c.state = .kDisconnected then [] else [.handleCloseStore])
  | .handleCloseStore => some ({ c with state := .kDisconnected }, [.remove])
  | .remove =>
    some (if c.channel.registered then
      ({ c with channel := c.channel.remove }, [.handleRemove])
    else (c, []))
  | .handleRemove =>
    some (if c.state = .kDisconnected then (c.invoke .onClose, [.handler .onClose, .afterClose])
    else (c, []))
  | .afterClose => some ({ c with closeLatch := c.closeLatch - 1, context := false }, [])
  | .fileClose => some (c, [])

def callback : SocketChannel.Callback → Instr
  | .close => .handleClose
  | .error => .channelError
  | .fileClose => .fileClose
  | .read => .handleRead
  | .write => .handleWrite

inductive Action where
  | call (thread : Thread) (op : Op)
  | user (id : Nat)
  | exec (env : Env)
  | ret
  | enter
  | task (index : Nat)
  | events (events : ReceiveEvents)
deriving DecidableEq, Repr

structure Record where
  thread : Thread
  op : Op
  state : State
deriving DecidableEq, Repr

structure World where
  conn : TcpConnection
  tasks : List (Nat × Task)
  loop : List Instr
  users : Nat → List CallPc
  calls : List Record

def World.init : World := ⟨create, [], [], fun _ => [], []⟩

def World.setUser (w : World) (id : Nat) (pcs : List CallPc) : World :=
  { w with users := fun i => if i = id then pcs else w.users i }

def World.record (w : World) (thread : Thread) (op : Op) : World :=
  { w with calls := w.calls ++ [⟨thread, op, w.conn.state⟩] }

def userStep (w : World) (id : Nat) : CallPc → List CallPc → World
  | .run task, rest => { w with tasks := w.tasks ++ [(id, task)] }.setUser id rest
  | pc, rest =>
    { w with conn := (callStep w.conn pc).1 }.setUser id ((callStep w.conn pc).2 ++ rest)

def step (w : World) : Action → Option World
  | .call .loop op =>
    match w.loop with
    | .handler h :: rest =>
      some { w.record .loop op with loop := op.onLoop :: .handler h :: rest }
    | _ => none
  | .call (.user id) op =>
    match w.users id, op.onUser with
    | [], some pc => some ((w.record (.user id) op).setUser id [pc])
    | _, _ => none
  | .user id =>
    match w.users id with
    | pc :: rest => some (userStep w id pc rest)
    | [] => none
  | .exec env =>
    match w.loop with
    | i :: rest => (exec w.conn env i).map fun (c, push) => { w with conn := c, loop := push ++ rest }
    | [] => none
  | .ret =>
    match w.loop with
    | .handler _ :: rest => some { w with loop := rest }
    | _ => none
  | .enter =>
    match w.loop with
    | [] => some { w with loop := [.handler .other] }
    | _ => none
  | .task index =>
    match w.loop, w.tasks[index]? with
    | [], some (id, task) =>
      if (w.tasks.take index).all fun earlier => earlier.1 != id then
        some { w with loop := [.task (.user id) task], tasks := w.tasks.eraseIdx index }
      else none
    | _, _ => none
  | .events events =>
    match w.loop with
    | [] =>
      if w.conn.channel.registered then
        some { w with loop := (SocketChannel.handleEvents events).map callback }
      else none
    | _ => none

def system : Transition.System World Action where
  start w := w = .init
  step := step

-- The steps of one Start up to the call of OnConnect.
def started : List Action :=
  [.call (.user 0) .start, .user 0, .user 0, .task 0, .exec .none, .exec .none]

variable {w t : World}

theorem step_call_loop {op : Op} (h : step w (.call .loop op) = some t) :
    ∃ handler rest, w.loop = .handler handler :: rest ∧
      t = { w.record .loop op with loop := op.onLoop :: .handler handler :: rest } := by
  simp only [step] at h
  split at h
  · rename_i handler rest hl
    exact ⟨handler, rest, hl, by simpa using h.symm⟩
  · cases h

theorem step_call_user {id : Nat} {op : Op} (h : step w (.call (.user id) op) = some t) :
    ∃ pc, w.users id = [] ∧ op.onUser = some pc ∧
      t = (w.record (.user id) op).setUser id [pc] := by
  simp only [step] at h
  split at h
  · rename_i pc hu ho
    exact ⟨pc, hu, ho, by simpa using h.symm⟩
  · cases h

theorem step_user {id : Nat} (h : step w (.user id) = some t) :
    ∃ pc rest, w.users id = pc :: rest ∧ t = userStep w id pc rest := by
  simp only [step] at h
  split at h
  · rename_i pc rest hu
    exact ⟨pc, rest, hu, by simpa using h.symm⟩
  · cases h

theorem step_exec {env : Env} (h : step w (.exec env) = some t) :
    ∃ i rest c push, w.loop = i :: rest ∧ exec w.conn env i = some (c, push) ∧
      t = { w with conn := c, loop := push ++ rest } := by
  simp only [step] at h
  split at h
  · rename_i i rest hl
    obtain ⟨⟨c, push⟩, he, rfl⟩ := Option.map_eq_some_iff.mp h
    exact ⟨i, rest, c, push, hl, he, rfl⟩
  · cases h

theorem step_ret (h : step w .ret = some t) :
    ∃ handler rest, w.loop = .handler handler :: rest ∧ t = { w with loop := rest } := by
  simp only [step] at h
  split at h
  · rename_i handler rest hl
    exact ⟨handler, rest, hl, by simpa using h.symm⟩
  · cases h

theorem step_enter (h : step w .enter = some t) :
    w.loop = [] ∧ t = { w with loop := [.handler .other] } := by
  simp only [step] at h
  split at h
  · rename_i hl
    exact ⟨hl, by simpa using h.symm⟩
  · cases h

theorem step_task {index : Nat} (h : step w (.task index) = some t) :
    ∃ id task, w.loop = [] ∧ w.tasks[index]? = some (id, task) ∧
      (∀ earlier ∈ w.tasks.take index, earlier.1 ≠ id) ∧
      t = { w with loop := [.task (.user id) task], tasks := w.tasks.eraseIdx index } := by
  simp only [step] at h
  split at h
  · rename_i id task hl ht
    split at h
    · rename_i hf
      refine ⟨id, task, hl, ht, fun earlier hm => ?_, by simpa using h.symm⟩
      simpa using List.all_eq_true.mp hf earlier hm
    · cases h
  · cases h

theorem step_events {events : ReceiveEvents} (h : step w (.events events) = some t) :
    w.loop = [] ∧ w.conn.channel.registered = true ∧
      t = { w with loop := (SocketChannel.handleEvents events).map callback } := by
  simp only [step] at h
  split at h
  · rename_i hl
    split at h
    · rename_i hr
      exact ⟨hl, hr, by simpa using h.symm⟩
    · cases h
  · cases h

theorem user_step_call {id : Nat} {pc : CallPc} {rest : List CallPc} (h : ∀ task, pc ≠ .run task) :
    userStep w id pc rest =
      { w with conn := (callStep w.conn pc).1 }.setUser id ((callStep w.conn pc).2 ++ rest) := by
  cases pc with
  | run task => exact absurd rfl (h task)
  | _ => rfl

theorem mem_set_user {id i : Nat} {pcs : List CallPc} {pc : CallPc}
    (h : pc ∈ (w.setUser id pcs).users i) : (i = id ∧ pc ∈ pcs) ∨ pc ∈ w.users i := by
  simp only [World.setUser] at h
  split at h
  · rename_i hi
    exact .inl ⟨hi, h⟩
  · exact .inr h

end TcpConnection
end Pedronet
