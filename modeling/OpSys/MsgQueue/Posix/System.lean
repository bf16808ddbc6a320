import OpSys.Lib.Machine
import OpSys.MsgQueue.Client
import OpSys.MsgQueue.Posix.Server

/-!
# The server and its clients, with POSIX queues

Any number of clients and one server.  A step of a process is one system call with
the code after it up to the next one; `SIGINT` may reach a process between any two
steps, and also while a call blocks.  What the kernel is free to choose (the
server's descriptors) and the time are part of the event.

A queue is known by the process that has created it, since each creates at most
one: `none` is the server.  It outlives its name for those who have it open.  A
`SIGINT` during `exit` is left out, as C leaves a second `exit` undefined.

## Main definitions

* `Config` — the pids, what the users type, and uninitialised memory.
* `Client`, `ClientPc` — a client's globals and its next system call.
* `Sys` — the kernel, the processes, and a history of what has happened.
* `serverStep`, `clientStep` — a step of a process.
* `system`, `Config.start` — the machine and its first state.

## References

`lab5_message_queues/POSIX/server.c`, `lab5_message_queues/POSIX/client.c`.
-/

namespace OpSys
namespace MsgQueue
namespace Posix

open Stdio

/-- `MAX_MSGS`. -/
def maxMsgs : ℕ := 9

/-- `server_path`. -/
def serverPath : List UInt8 := [47, 115, 101, 114, 118, 101, 114]

/-- `client_path` of the client `pid`, as both programs write it. -/
def clientPath (pid : ℤ) : List UInt8 := 47 :: decimal pid

/-- The processes, the input of the clients, and the uninitialised content of their
messages. -/
structure Config (ι : Type*) where
  server : ℤ
  pid : ι → ℤ
  stdin : ι → List UInt8
  junk : ι → List UInt8

/-- The system call that a client makes next. -/
inductive ClientPc
  /-- `mq_open(server_path, O_WRONLY)`. -/
  | openPublic
  /-- `mq_open(client_path, O_RDONLY | O_CREAT, …)`. -/
  | openPrivate
  /-- The `mq_send` of `register_client`. -/
  | sendRegister
  /-- The `mq_receive` of `register_client`. -/
  | receiveSession
  /-- The head of the loop of `main`. -/
  | prompt
  /-- The `mq_send` of a request, to which a response is expected or not. -/
  | sendRequest (answered : Bool)
  /-- The `mq_receive` of `request_mirror` or `request_time`. -/
  | receiveResponse
  /-- The `mq_send` of `request_quit`, called by `close_queue`. -/
  | sendQuit (status : ℤ)
  /-- `mq_close(pub_qid)` in `close_queue`. -/
  | closePublic (status : ℤ)
  /-- `mq_close(priv_qid)`. -/
  | closePrivate (status : ℤ)
  /-- `mq_unlink(client_path)`. -/
  | unlink (status : ℤ)
  /-- The process has ended. -/
  | gone (status : ℤ)
  deriving DecidableEq, Repr

/-- A client; a queue that is not open is `none`, in the program -1. -/
structure Client (ι : Type*) where
  pc : ClientPc
  sessionNum : ℤ
  pubQid : Option (Option ι)
  privQid : Option (Option ι)
  msg : Message
  stdin : List UInt8

/-- The kernel and the processes.  The last fields are a history: the messages placed in
the public queue as long as it had its name, those the server has received, each
client's latest request with whether the public queue had its name then, and whether
`SIGINT` has reached the server. -/
structure Sys (ι : Type*) where
  link : List UInt8 → Option (Option ι)
  queue : Option ι → List Message
  fds : ℤ → Option (Option ι)
  data : ServerData
  pc : ServerPc
  client : ι → Client ι
  accepted : List Message
  dispatched : List Message
  latest : ι → Option (Message × Bool)
  interrupted : Bool

/-- What happens next. -/
inductive Event (ι : Type*)
  /-- A step of the server; `mq_open` would return `fd`, the time is `clock`. -/
  | server (fd : ℤ) (clock : Clock)
  /-- `SIGINT` reaches the server. -/
  | interruptServer
  /-- A step of a client. -/
  | client (i : ι)
  /-- `SIGINT` reaches a client. -/
  | interruptClient (i : ι)

/-- The process is past `exit`. -/
def ServerPc.status : ServerPc → Option ℤ
  | closeClient status _ => some status
  | closeQueue status => some status
  | unlink status => some status
  | gone status => some status
  | _ => none

/-- The process is past `exit`. -/
def ClientPc.status : ClientPc → Option ℤ
  | sendQuit status => some status
  | closePublic status => some status
  | closePrivate status => some status
  | unlink status => some status
  | gone status => some status
  | _ => none

section Steps

variable {ι : Type*} [DecidableEq ι]

namespace Sys

/-- `mq_send` to an open queue; it blocks while the queue is full. -/
def put (s : Sys ι) (q : Option ι) (m : Message) : Option (Sys ι) :=
  if (s.queue q).length < maxMsgs then
    some { s with queue := Function.update s.queue q (s.queue q ++ [m]) }
  else none

/-- The queue without its first messages. -/
def leave (s : Sys ι) (q : Option ι) (ms : List Message) : Sys ι :=
  { s with queue := Function.update s.queue q ms }

/-- The descriptor `fd` of the server. -/
def setFd (s : Sys ι) (fd : ℤ) (q : Option (Option ι)) : Sys ι :=
  { s with fds := Function.update s.fds fd q }

def setLink (s : Sys ι) (path : List UInt8) (q : Option (Option ι)) : Sys ι :=
  { s with link := Function.update s.link path q }

def setClient (s : Sys ι) (i : ι) (c : Client ι) : Sys ι :=
  { s with client := Function.update s.client i c }

/-- The server goes on at `p.2` with the globals `p.1`. -/
def goOn (s : Sys ι) (p : ServerData × ServerPc) : Sys ι := { s with data := p.1, pc := p.2 }

/-- `exit` of the server. -/
def exitServer (s : Sys ι) (status : ℤ) : Sys ι := { s with pc := exit s.data status }

/-- `mq_send` of the server. -/
def serverSend (s : Sys ι) (qid : ℤ) (msg : Message) (pc : ServerPc) : Option (Sys ι) :=
  match s.fds qid with
  | none => some (s.exitServer (-1))
  | some q => (s.put q msg).map fun s => { s with pc := pc }

/-- `mq_close` of the server. -/
def serverClose (s : Sys ι) (qid : ℤ) (p : ServerData × ServerPc) : Sys ι :=
  match s.fds qid with
  | none => s.exitServer (-1)
  | some _ => (s.setFd qid none).goOn p

end Sys

/-- The next step of `close_queue` after the client at `i`. -/
def afterClient (d : ServerData) (status : ℤ) (i : ℕ) : ServerPc :=
  if (i + 1 : ℤ) < d.clientCount then .closeClient status (i + 1) else closePublic d status

variable (cfg : Config ι)

/-- A step of the server. -/
def serverStep (fd : ℤ) (clock : Clock) (s : Sys ι) : Option (Sys ι) :=
  match s.pc with
  | .start =>
    if 0 ≤ fd ∧ s.fds fd = none then
      match s.link serverPath with
      | some q => some ((s.setFd fd (some q)).goOn ({ s.data with queueDesc := fd }, .top))
      | none =>
        some (((s.setFd fd (some none)).setLink serverPath (some none)).goOn
          ({ s.data with queueDesc := fd }, .top))
    else none
  | .top =>
    if s.data.active then some { s with pc := .receive }
    else
      match s.fds s.data.queueDesc with
      | none => some (s.exitServer (-1))
      | some q => if s.queue q = [] then some (s.exitServer 0) else some { s with pc := .receive }
  | .receive =>
    match s.fds s.data.queueDesc with
    | none => some (s.exitServer (-1))
    | some q =>
      match s.queue q with
      | [] => none
      | m :: ms =>
        some { (s.leave q ms).goOn (dispatchRequest cfg.server clock.1 s.data m) with
          dispatched := s.dispatched ++ [m] }
  | .register msg =>
    match s.link (clientPath msg.senderPid) with
    | none => some (s.exitServer (-1))
    | some q =>
      if 0 ≤ fd ∧ s.fds fd = none then
        some ((s.setFd fd (some q)).goOn (registerOpened cfg.server s.data msg fd))
      else none
  | .refuse qid msg => s.serverSend qid msg (.closeRefused qid)
  | .closeRefused qid => some (s.serverClose qid (s.data, .top))
  | .login qid msg => s.serverSend qid msg .top
  | .respond qid msg => s.serverSend qid msg .top
  | .quit i => some (s.serverClose (s.data.clientsData i).2 (quitClosed s.data i, .top))
  | .closeClient status i =>
    -- the SIGINT that `kill` sends may reach the client at any time anyway
    some { s.setFd (s.data.clientsData i).2 none with pc := afterClient s.data status i }
  | .closeQueue status => some { s.setFd s.data.queueDesc none with pc := .unlink status }
  | .unlink status => some { s.setLink serverPath none with pc := .gone status }
  | .gone _ => none

/-- `exit` of a client, and `close_queue` up to its first system call. -/
def exitClient (c : Client ι) (status : ℤ) : Client ι :=
  { c with
    pc := if c.privQid.isNone then .gone status
      else if c.sessionNum ≥ 0 then .sendQuit status else .closePublic status }

/-- `register_client` after `mq_receive`. -/
def readSession (cfg : Config ι) (i : ι) (c : Client ι) (resp : Message) : Client ι :=
  match scanInt resp.content with
  | .value n =>
    if n < 0 then exitClient { c with sessionNum := n } (-1)
    else { c with sessionNum := n, msg := { c.msg with content := cfg.junk i }, pc := .prompt }
  | _ => exitClient c (-1)

/-- A round of the loop of `main`. -/
def readCommand (pid : ℤ) (c : Client ι) : Client ι :=
  match prompt pid c.msg c.stdin with
  | .again msg stdin => { c with msg := msg, stdin := stdin }
  | .ask answered msg stdin => { c with msg := msg, stdin := stdin, pc := .sendRequest answered }
  | .quit stdin => exitClient { c with stdin := stdin } 0

/-- `mq_send` of the client `i` to the public queue. -/
def clientSend (s : Sys ι) (i : ι) (msg : Message) (pc : ClientPc) : Option (Sys ι) :=
  match (s.client i).pubQid with
  | none => none
  | some q => (s.put q msg).map fun s' =>
    { s'.setClient i { s.client i with msg := msg, pc := pc } with
      accepted := if s.link serverPath = some q then s.accepted ++ [msg] else s.accepted }

/-- A `mq_send` after which the client waits for a response. -/
def clientAsk (s : Sys ι) (i : ι) (msg : Message) (pc : ClientPc) : Option (Sys ι) :=
  (clientSend s i msg pc).map fun s' =>
    { s' with latest :=
        Function.update s.latest i (some (msg, (s.link serverPath).isSome)) }

/-- `mq_receive` of the client `i` from its private queue. -/
def clientReceive (s : Sys ι) (i : ι) (k : Message → Client ι) : Option (Sys ι) :=
  match (s.client i).privQid with
  | none => none
  | some q =>
    match s.queue q with
    | [] => none
    | m :: ms => some ((s.leave q ms).setClient i (k m))

/-- A step of the client `i`. -/
def clientStep (i : ι) (s : Sys ι) : Option (Sys ι) :=
  let c := s.client i
  let pid := cfg.pid i
  match c.pc with
  | .openPublic =>
    match s.link serverPath with
    | none => some (s.setClient i (exitClient c (-1)))
    | some q => some (s.setClient i { c with pubQid := some q, pc := .openPrivate })
  | .openPrivate =>
    match s.link (clientPath pid) with
    | some q => some (s.setClient i { c with privQid := some q, pc := .sendRegister })
    | none =>
      some ((s.setLink (clientPath pid) (some (some i))).setClient i
        { c with privQid := some (some i), pc := .sendRegister })
  | .sendRegister => clientAsk s i ⟨typeRegister, pid, cfg.junk i⟩ .receiveSession
  | .receiveSession => clientReceive s i (readSession cfg i c)
  | .prompt => some (s.setClient i (readCommand pid c))
  | .sendRequest true => clientAsk s i c.msg .receiveResponse
  | .sendRequest false => clientSend s i c.msg .prompt
  | .receiveResponse => clientReceive s i fun m => { c with msg := m, pc := .prompt }
  | .sendQuit status => clientSend s i ⟨typeQuit, pid, cfg.junk i⟩ (.closePublic status)
  | .closePublic status => some (s.setClient i { c with pc := .closePrivate status })
  | .closePrivate status => some (s.setClient i { c with pc := .unlink status })
  | .unlink status =>
    some ((s.setLink (clientPath pid) none).setClient i { c with pc := .gone status })
  | .gone _ => none

/-- The server and the clients. -/
def system : Machine (Event ι) (Sys ι) where
  step
    | .server fd clock, s => serverStep cfg fd clock s
    | .interruptServer, s =>
      if s.pc.status = none then
        some { s with
          data := { s.data with active := false }
          pc := exit s.data 2
          interrupted := true }
      else none
    | .client i, s => clientStep cfg i s
    | .interruptClient i, s =>
      if (s.client i).pc.status = none then some (s.setClient i (exitClient (s.client i) 2))
      else none

/-- Nothing has been started, and no queue exists. -/
def Config.start : Sys ι where
  link := fun _ => none
  queue := fun _ => []
  fds := fun _ => none
  data := ⟨true, fun _ => (0, 0), 0, -1⟩
  pc := .start
  client i := ⟨.openPublic, -2, none, none, ⟨0, cfg.pid i, cfg.junk i⟩, cfg.stdin i⟩
  accepted := []
  dispatched := []
  latest := fun _ => none
  interrupted := false

end Steps

end Posix
end MsgQueue
end OpSys
