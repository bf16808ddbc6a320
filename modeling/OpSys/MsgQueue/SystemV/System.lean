import OpSys.Lib.Ipc
import OpSys.Lib.Machine
import OpSys.MsgQueue.Client
import OpSys.MsgQueue.Posix.Server

/-!
# The server and its clients, with System V queues

The other pair of programs: the queues have keys that `ftok` makes from the home
directory and a number, which is `PROJECT_ID` for the server and the pid for a client.
The server has no `QUIT`, and its array is searched to its end, used or not.  As
before, a step of a process is one system call with the code after it, and `SIGINT`
may reach a process between two steps and while a call blocks.

A message carries with it the client whose request has led to it; this is not part of
the programs, and no step depends on it.

## Main definitions

* `Ftok`, `Config` — the keys; the pids, the users and uninitialised memory.
* `getQid`, `dispatchRequests`, `registerOpened` — the server between two calls.
* `Sys` — the kernel, the processes, and a history of what has happened.
* `serverStep`, `clientStep`, `system`, `Config.start` — the machine.

## References

`lab5_message_queues/SystemV/server.c`, `lab5_message_queues/SystemV/client.c`,
`lab5_message_queues/SystemV/server.h`, `lab5_message_queues/SystemV/common.h`.
-/

namespace OpSys
namespace MsgQueue
namespace SystemV

open Stdio Ipc
open Posix (ServerData search)

/-- `PROJECT_ID`. -/
def projectId : ℤ := 3

/-- `ftok(HOME, ·)`: the key depends on the low 8 bits of the number.  It is a key, and
not `IPC_PRIVATE`. -/
structure Ftok where
  key : ℤ → ℤ
  key_eq_iff : ∀ a b, key a = key b ↔ a % 256 = b % 256
  key_ne : ∀ a, key a ≠ -1 ∧ key a ≠ ipcPrivate

/-- The keys of a directory with the inode 1 on the device 0. -/
def Ftok.plain : Ftok where
  key id := (if id % 256 < 128 then id % 256 else id % 256 - 256) * 2 ^ 24 + 1
  key_eq_iff a b := by
    constructor
    · intro h
      split at h <;> split at h <;> omega
    · intro h
      rw [h]
  key_ne a := by
    simp only [ipcPrivate]
    split <;> omega

/-- The processes, the size of a queue, the input of the clients, and the uninitialised
content of their messages. -/
structure Config (ι : Type*) where
  ftok : Ftok
  server : ℤ
  server_pos : 0 < server
  pid : ι → ℤ
  pid_pos : ∀ i, 0 < pid i
  capacity : ℕ
  capacity_pos : 0 < capacity
  stdin : ι → List UInt8
  junk : ι → List UInt8

theorem hundred_pos : (0 : ℤ) < 100 := by decide

theorem seven_pos : 0 < 7 := by decide

/-- A message, and the client whose request has led to it. -/
structure Packet (ι : Type*) where
  msg : Message
  origin : ι

/-! ### The server -/

/-- The system call that the server makes next. -/
inductive ServerPc (ι : Type*)
  /-- `msgget(key, IPC_CREAT | 0666)`. -/
  | start
  /-- The head of the loop of `main`, with `IPC_STAT` if `active == 0`. -/
  | top
  /-- `msgrcv`. -/
  | receive
  /-- `msgget(client_qkey, 0)` in `handle_register`. -/
  | register (p : Packet ι)
  /-- The `msgsnd` of a handler. -/
  | send (qid : ℤ) (p : Packet ι)
  /-- `IPC_RMID` in `close_queue`. -/
  | remove (status : ℤ)
  /-- The process has ended. -/
  | gone (status : ℤ)

/-- `get_qid`. -/
def getQid (d : ServerData) (pid : ℤ) : ℤ :=
  let i := search d.clientsData pid maxClients.toNat 0
  if (i : ℤ) < maxClients then (d.clientsData i).2 else -1

/-- `create_message`: the header of a response to `msg`. -/
def createMessage (server : ℤ) (msg : Message) : Message :=
  { msg with type := msg.senderPid, senderPid := server }

/-- `dispatch_requests` up to the first system call. -/
def dispatchRequests {ι : Type*} (server : ℤ) (clock : List UInt8) (d : ServerData)
    (p : Packet ι) : ServerData × ServerPc ι :=
  if p.msg.type = typeRegister then (d, .register p)
  else if p.msg.type = typeMirror then
    if getQid d p.msg.senderPid = -1 then (d, .top)
    else (d, .send (getQid d p.msg.senderPid) { p with
      msg := { createMessage server p.msg with content := mirrorContent p.msg.content } })
  else if p.msg.type = typeTime then
    if getQid d p.msg.senderPid = -1 then (d, .top)
    else (d, .send (getQid d p.msg.senderPid) { p with
      msg := { createMessage server p.msg with content := overwrite clock p.msg.content } })
  else if p.msg.type = typeEnd then ({ d with active := false }, .top)
  else (d, .top)

/-- The response of `handle_register`. -/
def registerResponse (server : ℤ) (msg : Message) (session : ℤ) : Message where
  type := typeRegister
  senderPid := server
  content := overwrite (decimal session) msg.content

/-- `handle_register` after `msgget` has returned `qid`. -/
def registerOpened (server : ℤ) (d : ServerData) (msg : Message) (qid : ℤ) :
    ServerData × Message :=
  if d.clientCount > maxClients - 1 then (d, registerResponse server msg (-1))
  else
    ({ d with
        clientsData := Function.update d.clientsData d.clientCount.toNat (msg.senderPid, qid)
        clientCount := d.clientCount + 1 },
      registerResponse server msg d.clientCount)

/-- `exit`, and `close_queue` up to its system call. -/
def exit {ι : Type*} (d : ServerData) (status : ℤ) : ServerPc ι :=
  if d.queueDesc > -1 then .remove status else .gone status

/-- The process is past `exit`. -/
def ServerPc.status {ι : Type*} : ServerPc ι → Option ℤ
  | remove status => some status
  | gone status => some status
  | _ => none

/-! ### The clients -/

/-- The system call that a client makes next. -/
inductive ClientPc
  /-- `msgget(key, 0)` in `create_priv_queue`, which opens the public queue. -/
  | openPublic
  /-- `msgget(key, IPC_CREAT | 0666)`. -/
  | openPrivate
  /-- The `msgsnd` of `register_client`. -/
  | sendRegister
  /-- The `msgrcv` of `register_client`. -/
  | receiveSession
  /-- The head of the loop of `main`. -/
  | prompt
  /-- The `msgsnd` of a request, to which a response is expected or not. -/
  | sendRequest (answered : Bool)
  /-- The `msgrcv` of `request_mirror` or `request_time`. -/
  | receiveResponse
  /-- `IPC_RMID` in `close_queue`. -/
  | remove (status : ℤ)
  /-- The process has ended. -/
  | gone (status : ℤ)
  deriving DecidableEq, Repr

/-- A client. -/
structure Client where
  pc : ClientPc
  sessionNum : ℤ
  queueDesc : ℤ
  privQid : ℤ
  msg : Message
  stdin : List UInt8

/-- The process is past `exit`. -/
def ClientPc.status : ClientPc → Option ℤ
  | remove status => some status
  | gone status => some status
  | _ => none

/-- `exit` of a client, and `close_queue` up to its system call. -/
def exitClient (c : Client) (status : ℤ) : Client :=
  { c with pc := if c.privQid > -1 then .remove status else .gone status }

/-- `register_client` after `msgrcv`. -/
def readSession (junk : List UInt8) (c : Client) (resp : Message) : Client :=
  match scanInt resp.content with
  | .value n =>
    if n < 0 then exitClient { c with sessionNum := n } (-1)
    else { c with sessionNum := n, msg := { c.msg with content := junk }, pc := .prompt }
  | _ => exitClient c (-1)

/-- A round of the loop of `main`. -/
def readCommand (pid : ℤ) (c : Client) : Client :=
  match MsgQueue.prompt pid c.msg c.stdin with
  | .again msg stdin => { c with msg := msg, stdin := stdin }
  | .ask answered msg stdin => { c with msg := msg, stdin := stdin, pc := .sendRequest answered }
  | .quit stdin => exitClient { c with stdin := stdin } 0

/-! ### The system -/

/-- The kernel and the processes.  The last fields are a history: the messages placed in
the server's queue, those that the server has received and those that clients have
received from it, each client's latest request, the clients whose `REGISTER` has been
accepted, and whether `SIGINT` has reached the server. -/
structure Sys (ι : Type*) where
  kernel : Kernel (Packet ι)
  data : ServerData
  pc : ServerPc ι
  client : ι → Client
  accepted : List (Packet ι)
  dispatched : List (Packet ι)
  taken : List (Packet ι)
  latest : ι → Option Message
  granted : List ι
  interrupted : Bool

/-- What happens next.  A new queue would get the identifier `id`. -/
inductive Event (ι : Type*)
  /-- A step of the server; an uninitialised `client_qkey` is `garbage`, the time `clock`. -/
  | server (id garbage : ℤ) (clock : Clock)
  /-- `SIGINT` reaches the server. -/
  | interruptServer
  /-- A step of a client. -/
  | client (i : ι) (id : ℤ)
  /-- `SIGINT` reaches a client. -/
  | interruptClient (i : ι)

section Steps

variable {ι : Type*} [DecidableEq ι]

namespace Sys

def setClient (s : Sys ι) (i : ι) (c : Client) : Sys ι :=
  { s with client := Function.update s.client i c }

/-- The server goes on at `p.2` with the globals `p.1`. -/
def goOn (s : Sys ι) (p : ServerData × ServerPc ι) : Sys ι := { s with data := p.1, pc := p.2 }

/-- `exit` of the server. -/
def exitServer (s : Sys ι) (status : ℤ) : Sys ι := { s with pc := exit s.data status }

/-- The kernel after a message has come into the queue `q`. -/
def post (s : Sys ι) (k : Kernel (Packet ι)) (q : ℤ) (p : Packet ι) : Sys ι :=
  { s with
    kernel := k
    accepted := if q = s.data.queueDesc then s.accepted ++ [p] else s.accepted }

/-- The kernel after a client has taken a message from the queue `q`. -/
def take (s : Sys ι) (k : Kernel (Packet ι)) (q : ℤ) (p : Packet ι) : Sys ι :=
  { s with
    kernel := k
    taken := if q = s.data.queueDesc then s.taken ++ [p] else s.taken }

end Sys

variable (cfg : Config ι)

/-- `handle_register` with the key that `sscanf` has read. -/
def openClient (id key : ℤ) (p : Packet ι) (s : Sys ι) : Option (Sys ι) :=
  (s.kernel.msgget key false id).map fun (qid, k) =>
    if qid = -1 then s.exitServer (-1)
    else
      let r := registerOpened cfg.server s.data p.msg qid
      { s with
        kernel := k
        data := r.1
        pc := .send qid { p with msg := r.2 }
        granted :=
          if s.data.clientCount > maxClients - 1 then s.granted else s.granted ++ [p.origin] }

/-- A step of the server. -/
def serverStep (id garbage : ℤ) (clock : Clock) (s : Sys ι) : Option (Sys ι) :=
  match s.pc with
  | .start =>
    (s.kernel.msgget (cfg.ftok.key projectId) true id).map fun (q, k) =>
      { s with kernel := k, data := { s.data with queueDesc := q }, pc := .top }
  | .top =>
    if s.data.active then some { s with pc := .receive }
    else
      match s.kernel.slot s.data.queueDesc with
      | .live [] => some (s.exitServer 0)
      | .live _ => some { s with pc := .receive }
      | _ => some (s.exitServer (-1))
  | .receive =>
    match s.kernel.msgrcv s.data.queueDesc with
    | .blocks => none
    | .fails => some (s.exitServer (-1))
    | .returns (p, k) =>
      some { s.goOn (dispatchRequests cfg.server clock.1 s.data p) with
        kernel := k
        dispatched := s.dispatched ++ [p] }
  | .register p =>
    match scanInt p.msg.content with
    | .eof => some (s.exitServer (-1))
    | .noMatch => openClient cfg id garbage p s
    | .value key => openClient cfg id key p s
  | .send qid p =>
    match s.kernel.msgsnd cfg.capacity qid p with
    | .blocks => none
    | .fails => some (s.exitServer (-1))
    | .returns k => some { s.post k qid p with pc := .top }
  | .remove status =>
    some { s with kernel := s.kernel.rmid s.data.queueDesc, pc := .gone status }
  | .gone _ => none

/-- `msgsnd` of the client `i` to the public queue; `answered` if it then waits for a
response. -/
def clientSend (s : Sys ι) (i : ι) (msg : Message) (answered : Bool) (pc : ClientPc) :
    Option (Sys ι) :=
  let c := s.client i
  match s.kernel.msgsnd cfg.capacity c.queueDesc ⟨msg, i⟩ with
  | .blocks => none
  | .fails => some (s.setClient i (exitClient c (-1)))
  | .returns k =>
    some { (s.post k c.queueDesc ⟨msg, i⟩).setClient i { c with msg := msg, pc := pc } with
      latest := if answered then Function.update s.latest i (some msg) else s.latest }

/-- `msgrcv` of the client `i` from its private queue. -/
def clientReceive (s : Sys ι) (i : ι) (k : Message → Client) : Option (Sys ι) :=
  let c := s.client i
  match s.kernel.msgrcv c.privQid with
  | .blocks => none
  | .fails => some (s.setClient i (exitClient c (-1)))
  | .returns (p, kernel) => some ((s.take kernel c.privQid p).setClient i (k p.msg))

/-- A step of the client `i`. -/
def clientStep (i : ι) (id : ℤ) (s : Sys ι) : Option (Sys ι) :=
  let c := s.client i
  let key := cfg.ftok.key (cfg.pid i)
  match c.pc with
  | .openPublic =>
    (s.kernel.msgget (cfg.ftok.key projectId) false id).map fun (q, k) =>
      if q = -1 then s.setClient i (exitClient c (-1))
      else { s with kernel := k }.setClient i { c with queueDesc := q, pc := .openPrivate }
  | .openPrivate =>
    (s.kernel.msgget key true id).map fun (q, k) =>
      { s with kernel := k }.setClient i { c with privQid := q, pc := .sendRegister }
  | .sendRegister =>
    clientSend cfg s i ⟨typeRegister, cfg.pid i, overwrite (decimal key) (cfg.junk i)⟩ true
      .receiveSession
  | .receiveSession => clientReceive s i (readSession (cfg.junk i) c)
  | .prompt => some (s.setClient i (readCommand (cfg.pid i) c))
  | .sendRequest answered =>
    clientSend cfg s i c.msg answered (if answered then .receiveResponse else .prompt)
  | .receiveResponse => clientReceive s i fun m => { c with msg := m, pc := .prompt }
  | .remove status =>
    some ({ s with kernel := s.kernel.rmid c.privQid }.setClient i { c with pc := .gone status })
  | .gone _ => none

/-- The server and the clients. -/
def system : Machine (Event ι) (Sys ι) where
  step
    | .server id garbage clock, s => serverStep cfg id garbage clock s
    | .interruptServer, s =>
      if s.pc.status = none then
        some { s with pc := exit s.data 2, interrupted := true }
      else none
    | .client i id, s => clientStep cfg i id s
    | .interruptClient i, s =>
      if (s.client i).pc.status = none then some (s.setClient i (exitClient (s.client i) 2))
      else none

/-- Nothing has been started, and no queue exists. -/
def Config.start : Sys ι where
  kernel := .empty
  data := ⟨true, fun _ => (0, 0), 0, -1⟩
  pc := .start
  client i := ⟨.openPublic, -2, -1, -1, ⟨0, cfg.pid i, cfg.junk i⟩, cfg.stdin i⟩
  accepted := []
  dispatched := []
  taken := []
  latest := fun _ => none
  granted := []
  interrupted := false

end Steps

end SystemV
end MsgQueue
end OpSys
