import AgcFramework.Lib.Ledger
import AgcFramework.Lib.Prog

/-!
# The connections of the event socket

The accept loop makes a pool for each connection, and a thread that serves it. The connection's
record is allocated from its pool. The thread puts the connection into the list of the listener,
answers commands until the client leaves or the module is shut down, takes the connection out of the
list, closes the socket and destroys the two pools. The shutdown of the module closes the sockets of
the connections in the list. A pool is destroyed at once, or later by the thread of the memory
manager.

Each round of the accept loop has a number, which is that of its connection and of the thread that
serves it. What the thread does with the bytes of a packet is left out: what matters is which
functions it calls on the socket and which fields of the record it reads and writes. A loop has a
number of rounds it may make, and waits when they are used up.

## Main definitions

* `Call`, `Client`: the calls, and the programs over them
* `closeSocket`, `releaseConnection`, `connectionRun`, `acceptRound`, `killConnections`,
  `modEventsocketShutdown`: the functions of the source
* `State`, `Outcome`, `respond`: the environment, with the ledger of the sockets and pools
* `system`: the threads
-/

open Ledger

namespace EventServer

/-- The number of a connection. -/
abbrev Conn := ℕ

/-- What belongs to a connection: its socket, the pool it is allocated from and that of its
thread. -/
inductive Kind
  | sock
  | pool
  | threadPool
  deriving DecidableEq, Repr

abbrev Res := Conn × Kind

/-- The fields of an `event_connect_t`; of a pointer, whether it is set. -/
structure Record where
  sock : Bool := false
  pool : Bool := false
  threadPool : Bool := false
  isRunning : Bool := false
  deriving DecidableEq, Repr

/-- What `agc_socket_recv` does for `read_packet`: it fails, it finds nothing, it gets a line end in
front of a packet, a part of a packet, the end of a packet, or the end of the headers of a packet
with a body. -/
inductive Received
  | failed
  | again
  | skip
  | more
  | packet
  | body
  deriving DecidableEq

/-- The commands: one that ends the connection, `api`, and one that is answered or not. -/
inductive Command
  | exit
  | api
  | answered
  | silent

/-- The calls. -/
inductive Call
  /-- The accept loop comes to its test of `profile.done`: whether it goes on. -/
  | nextRound (k : Conn)
  /-- `agc_memory_create_pool(&connection_pool)`. -/
  | createPool (k : Conn)
  /-- `agc_socket_accept`. -/
  | accept (k : Conn)
  /-- The record is allocated from the pool and gets its socket and its pool. -/
  | newRecord (k : Conn)
  /-- The address of the client is read. -/
  | addrGet (k : Conn)
  /-- `agc_memory_create_pool(&conn->thread_pool)`. -/
  | createThreadPool (k : Conn)
  /-- `agc_thread_create`: whether there is a thread. The accept loop goes on. -/
  | createThread (k : Conn)
  /-- The accept loop goes on. -/
  | endRound
  /-- Reads `profile.done`, and sets it. -/
  | done
  | setDone
  /-- Reads `listener.ready`. -/
  | ready
  /-- `profile.threads++`, `profile.threads--`, and a read of it. -/
  | incThreads
  | decThreads
  | threads
  /-- `listener.sock_mutex`. -/
  | lock
  | unlock
  /-- The critical sections of `add_conn` and `remove_conn`. -/
  | addConn (k : Conn)
  | removeConn (k : Conn)
  /-- Reads `listener.connections`, with the mutex held. -/
  | connections
  /-- Reads or writes a field of the record that has no further meaning here. -/
  | field (k : Conn)
  /-- Reads `conn->sock`, and sets it to NULL. -/
  | sock (k : Conn)
  | clearSock (k : Conn)
  /-- Reads `conn->is_running`, and sets it. -/
  | isRunning (k : Conn)
  | setRunning (k : Conn) (value : Bool)
  /-- Reads one of the two pools of the record, and sets it to NULL. -/
  | poolField (k : Conn) (kind : Kind)
  | clearPool (k : Conn) (kind : Kind)
  /-- What `agc_memory_destroy_pool` does with the pool itself. -/
  | destroyPool (k : Conn) (kind : Kind)
  /-- `*conn = NULL`: the pointer to the record is given up. -/
  | release (k : Conn)
  /-- The functions on `conn->sock`. -/
  | optSet (k : Conn)
  | recv (k : Conn)
  | send (k : Conn)
  | shutdown (k : Conn)
  | close (k : Conn)
  /-- `agc_queue_trypop(conn->event_queue, ..)`, if `conn->has_event`. -/
  | popEvent (k : Conn)
  /-- `agc_thread_rwlock_tryrdlock(conn->rwlock)`. -/
  | tryrdlock (k : Conn)
  /-- The command of the packet. -/
  | command
  /-- The thread of the memory manager destroys the first pool of its queue. -/
  | reap
  /-- The rounds of a loop are used up. -/
  | stall

/-- The answers to a call. -/
abbrev Call.Answer : Call → Type
  | .nextRound _ => Bool
  | .accept _ => Bool
  | .addrGet _ => Bool
  | .createThread _ => Bool
  | .done => Bool
  | .ready => Bool
  | .threads => ℕ
  | .connections => List Conn
  | .sock _ => Bool
  | .isRunning _ => Bool
  | .poolField _ _ => Bool
  | .recv _ => Received
  | .send _ => Bool
  | .popEvent _ => Bool
  | .tryrdlock _ => Bool
  | .command => Command
  | .stall => Empty
  | _ => Unit

/-- The programs of the module. -/
abbrev Client (α : Type) := Prog Call Call.Answer α

/-- A call as a program. -/
abbrev call (c : Call) : Client c.Answer := Prog.call c .ret

/-- The loop has used up its rounds. -/
def stalled {α : Type} : Client α := Prog.call .stall fun e => nomatch e

/-! ## Teardown -/

def closeSocket (k : Conn) : Client Unit := do
  call .lock
  if ← call (.sock k) then
    call (.shutdown k)
    call (.close k)
    call (.clearSock k)
  call .unlock

/-- `agc_memory_destroy_pool` on a field of the record: the field is read, and written after the
pool is handed over. -/
def destroyPoolField (k : Conn) (kind : Kind) : Client Unit := do
  if ← call (.poolField k kind) then
    call (.destroyPool k kind)
    call (.clearPool k kind)

def releaseConnection (k : Conn) : Client Unit := do
  -- the lock and the queue of the record
  call (.field k)
  call (.field k)
  if ← call (.poolField k .pool) then destroyPoolField k .pool
  if ← call (.poolField k .threadPool) then destroyPoolField k .threadPool
  call (.release k)

def sendDisconnect (k : Conn) : Client Unit := do
  if ← call (.sock k) then
    if ← call (.send k) then
      let _ ← call (.send k)

/-! ## The thread of a connection -/

/-- The loop that sends the queued events. -/
def sendEvents (k : Conn) : ℕ → Client Unit
  | 0 => stalled
  | n + 1 => do
    if ← call (.popEvent k) then
      let _ ← call (.send k)
      let _ ← call (.send k)
      sendEvents k n

/-- The loop that receives the body of a packet: whether it was received. -/
def receiveBody (k : Conn) : ℕ → Client Bool
  | 0 => stalled
  | n + 1 => do
    let r ← call (.recv k)
    if (← call .done) || r = .failed then return false
    else if r = .packet then return true
    else receiveBody k n

/-- The loop of `read_packet`, with whether the last status was a success: no packet, or whether
there is an event. -/
def readPacketLoop (k : Conn) : ℕ → Bool → Client (Option Bool)
  | 0, _ => stalled
  | n + 1, success => do
    if ← call (.sock k) then
      if ← call .done then return if success then some false else none
      else
        let r ← call (.recv k)
        if (← call .done) || r = .failed then return none
        else
          match r with
          | .packet => return some true
          | .body =>
            if ← receiveBody k n then return some true else return none
          | .skip => readPacketLoop k n true
          | _ =>
            sendEvents k n
            -- `conn->pollfd`
            call (.field k)
            readPacketLoop k n (r = .more)
    else return if success then some false else none

def readPacket (k : Conn) (n : ℕ) : Client (Option Bool) := do
  if ← call .done then return none else readPacketLoop k n true

/-- `api_exec`: the response is sent with the lock of the connection. -/
def apiExec (k : Conn) : Client Unit := do
  if ← call (.isRunning k) then
    if ← call (.tryrdlock k) then
      let _ ← call (.send k)
      let _ ← call (.send k)
      call (.field k)

/-- `parse_command`: whether there is a reply. -/
def parseCommand (k : Conn) : Client Bool := do
  match ← call .command with
  | .exit =>
    call (.setRunning k false)
    return true
  | .api =>
    apiExec k
    return false
  | .answered =>
    call (.field k)
    return true
  | .silent => return false

/-- The loop of `connection_run`. -/
def serve (k : Conn) : ℕ → Client Unit
  | 0 => stalled
  | n + 1 => do
    if ← call .done then return
    else if ← call .ready then
      if ← call (.isRunning k) then
        match ← readPacket k n with
        | none => return
        | some false => serve k n
        | some true =>
          if ← parseCommand k then
            let _ ← call (.send k)
            serve k n
          else serve k n
      else return
    else return

def connectionRun (k : Conn) (rounds : ℕ) : Client Unit := do
  call .incThreads
  call (.optSet k)
  call (.optSet k)
  call (.setRunning k true)
  call (.addConn k)
  serve k rounds
  sendDisconnect k
  call (.removeConn k)
  closeSocket k
  releaseConnection k
  call .decThreads

/-! ## The accept loop -/

/-- `launch_connection_thread`, and what the thread does. -/
def launchConnectionThread (k : Conn) (rounds : ℕ) : Client Unit := do
  call (.createThreadPool k)
  if ← call (.createThread k) then connectionRun k rounds

/-- A round of the accept loop of `mod_eventsocket_runtime`. -/
def acceptRound (k : Conn) (rounds : ℕ) : Client Unit := do
  if ← call (.nextRound k) then
    call (.createPool k)
    if ← call (.accept k) then
      call (.newRecord k)
      if ← call (.addrGet k) then launchConnectionThread k rounds
      else
        closeSocket k
        releaseConnection k
        call .endRound
    else
      call (.destroyPool k .pool)
      call .endRound

/-! ## The shutdown -/

/-- The body of the loop of `kill_connections`. The pointer to the socket stays. -/
def killConnection (k : Conn) : Client Unit := do
  sendDisconnect k
  call (.setRunning k false)
  if ← call (.sock k) then
    call (.shutdown k)
    call (.close k)
  -- `conn->next`
  call (.field k)

def killAll : List Conn → Client Unit
  | [] => return
  | k :: ks => do
    killConnection k
    killAll ks

def killConnections : Client Unit := do
  call .lock
  killAll (← call .connections)
  call .unlock

/-- The loop of `mod_eventsocket_shutdown`, with the number of rounds it still makes. -/
def waitThreads : ℕ → Client Unit
  | 0 => return
  | n + 1 => do
    if (← call .threads) ≠ 0 then
      killConnections
      waitThreads n

def modEventsocketShutdown : Client Unit := do
  call .setDone
  killConnections
  waitThreads 200

/-! ## The environment -/

/-- The calls of `add_conn` and `remove_conn`. -/
inductive Mark
  | added (k : Conn)
  | removed (k : Conn)
  deriving DecidableEq

structure State where
  /-- `profile.done`, `listener.ready` and `profile.threads`. -/
  done : Bool := false
  ready : Bool := true
  threads : ℕ := 0
  /-- Whether a round of the accept loop is under way, and the rounds that were begun. -/
  accepting : Bool := false
  rounds : ℕ := 0
  /-- The records, and whether a thread has a pointer to them. -/
  record : Conn → Record := fun _ => {}
  pointer : Conn → Bool := fun _ => false
  /-- `listener.connections` and whether `listener.sock_mutex` is held. -/
  connections : List Conn := []
  locked : Bool := false
  /-- The queue of the memory manager. -/
  poolQueue : List Res := []
  /-- What was done to the sockets and pools; a record is used with its pool. -/
  log : List (Act Res) := []
  marks : List Mark := []

namespace State

def act (s : State) (a : Act Res) : State := { s with log := s.log ++ [a] }

/-- A field of the record is read or written. -/
def access (s : State) (k : Conn) : State := s.act (.use (k, .pool))

/-- The records of a walk over the list, one after another. -/
def accesses (s : State) (ks : List Conn) : State :=
  { s with log := s.log ++ ks.map fun k => .use (k, .pool) }

def setRecord (s : State) (k : Conn) (r : Record) : State :=
  { s.access k with record := Function.update s.record k r }

end State

/-- The field of a pool. -/
def Record.poolField (r : Record) : Kind → Bool
  | .sock => false
  | .pool => r.pool
  | .threadPool => r.threadPool

def Record.clearPool (r : Record) : Kind → Record
  | .sock => r
  | .pool => { r with pool := false }
  | .threadPool => { r with threadPool := false }

/-- What can happen at a call. -/
structure Outcome where
  /-- Whether what is tried succeeds. -/
  ok : Bool := true
  received : Received := .more
  command : Command := .silent
  /-- Whether a pool is destroyed at once: the thread of the memory manager does not run, or its
  queue does not take the pool. -/
  inline : Bool := false

/-- The answer to a call and the state after it. A mutex that is held is waited for. -/
def respond (s : State) (t : ℕ) (o : Outcome) : (c : Call) → Option (c.Answer × State)
  | .nextRound k =>
    if k = s.rounds ∧ k = t ∧ s.accepting = false then
      if s.done then some (false, s)
      else some (true, { s with accepting := true, rounds := s.rounds + 1 })
    else none
  | .createPool k => some ((), s.act (.alloc (k, .pool)))
  | .accept k => some (o.ok, if o.ok then s.act (.alloc (k, .sock)) else s)
  | .newRecord k => some ((), { s.access k with
      record := Function.update s.record k { sock := true, pool := true }
      pointer := Function.update s.pointer k true })
  | .addrGet k => some (o.ok, s.access k)
  | .createThreadPool k => some ((), (s.act (.alloc (k, .threadPool))).setRecord k
      { s.record k with threadPool := true })
  | .createThread k => some (o.ok, { s.access k with accepting := false })
  | .endRound => some ((), { s with accepting := false })
  | .done => some (s.done, s)
  | .setDone => some ((), { s with done := true })
  | .ready => some (s.ready, s)
  | .incThreads => some ((), { s with threads := s.threads + 1 })
  | .decThreads => some ((), { s with threads := s.threads - 1 })
  | .threads => some (s.threads, s)
  | .lock => if s.locked then none else some ((), { s with locked := true })
  | .unlock => some ((), { s with locked := false })
  | .addConn k =>
    if s.locked then none
    else some ((), { s.access k with
      connections := k :: s.connections
      marks := s.marks ++ [.added k] })
  | .removeConn k =>
    if s.locked then none
    -- the walk reads the `next` of each record up to this one
    else some ((), { s.accesses (s.connections.takeWhile (· ≠ k) ++ [k]) with
      connections := s.connections.erase k
      marks := s.marks ++ [.removed k] })
  | .connections => some (s.connections, s)
  | .field k => some ((), s.access k)
  | .sock k => some ((s.record k).sock, s.access k)
  | .clearSock k => some ((), s.setRecord k { s.record k with sock := false })
  | .isRunning k => some ((s.record k).isRunning, s.access k)
  | .setRunning k value => some ((), s.setRecord k { s.record k with isRunning := value })
  | .poolField k kind => some ((s.record k).poolField kind, s.access k)
  | .clearPool k kind => some ((), s.setRecord k ((s.record k).clearPool kind))
  | .destroyPool k kind =>
    if o.inline then some ((), s.act (.free (k, kind)))
    else some ((), { s with poolQueue := s.poolQueue ++ [(k, kind)] })
  | .release k => some ((), { s with pointer := Function.update s.pointer k false })
  | .optSet k => some ((), (s.access k).act (.use (k, .sock)))
  | .recv k => some (o.received, (s.access k).act (.use (k, .sock)))
  | .send k => some (o.ok, (s.access k).act (.use (k, .sock)))
  | .shutdown k => some ((), (s.access k).act (.use (k, .sock)))
  | .close k => some ((), (s.access k).act (.free (k, .sock)))
  | .popEvent k => some (o.ok, s.access k)
  | .tryrdlock k => some (o.ok, s.access k)
  | .command => some (o.command, s)
  | .reap =>
    match s.poolQueue with
    | [] => some ((), s)
    | x :: queue => some ((), { s.act (.free x) with poolQueue := queue })
  | .stall => none

/-- The tasks of the threads. -/
inductive Task
  /-- A round of the accept loop and the thread of its connection. -/
  | connection (k : Conn) (rounds : ℕ)
  /-- `mod_eventsocket_shutdown`. -/
  | shutdown
  /-- A round of the thread of the memory manager. -/
  | reap

def Task.body : Task → Client Unit
  | connection k rounds => acceptRound k rounds
  | shutdown => modEventsocketShutdown
  | reap => call .reap

def system : System Task ℕ State Outcome Call Call.Answer Unit where
  body := Task.body
  respond := respond

abbrev Config := System.Config Task ℕ State Call Call.Answer Unit

abbrev Label := System.Label Task ℕ Outcome

def run (labs : List Label) : Option Config :=
  system.run { state := {}, thread := fun _ => none } labs

end EventServer
