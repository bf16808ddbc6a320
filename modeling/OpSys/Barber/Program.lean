import OpSys.Lib.Interleave
import OpSys.Lib.Records
import OpSys.Barber.Shop

/-!
# The barber and its clients

The barber loops over one semaphore section; a client runs
`arrive_at_barbershop`, whose three kinds of sections are the first one of a
round, the poll for an invitation and the poll for the end of the shave.  A
section together with the private code up to the next section is one step: only
sections touch shared memory, and one semaphore serialises them.

A client's local state is its program counter with the variables
`client_status`, `first_shave` (globals of its own process) and `curr_shave`.  This
is an `int`, whose increment wraps around at `INT_MAX`; the model keeps the number of
the round, and the tests of the code read it through `toInt`.

## Main definitions

* `Client`, `ClientPc` — a client's local state.
* `barberSection`, `clientStep` — the loop body of the barber and the steps of
  `arrive_at_barbershop`.
* `Setup` — the arguments of a run: the seats the barber admits, the clients'
  process ids and numbers of shaves.
* `Setup.program`, `Setup.start` — the system of the barber and its clients.
* `Log`, `Setup.logged` — the same system with a log of what its steps did.

## References

`lab6_semaphores_shared_mem/POSIX/barber.c`, `client_spawner.c` and their System V
versions, whose sections are the same text.
-/

namespace OpSys
namespace Barber

open Records

/-! ### The barber -/

/-- `fall_asleep`. -/
def fallAsleep (b : Barbershop) : Barbershop := { b with status := .sleeping }

/-- `shave`. -/
def shave (b : Barbershop) : Barbershop := { b with status := .endShaving }

/-- `invite_client`. -/
def inviteClient (b : Barbershop) : Barbershop :=
  let r := dequeue { b with status := .inviting }
  { r.2 with currClient := r.1 }

/-- The semaphore section of the barber's loop. -/
def barberSection (b : Barbershop) : Barbershop :=
  match b.status with
  | .wokenUp => inviteClient b
  | .startShaving => shave b
  | .free => if !qEmpty b then inviteClient b else fallAsleep b
  | _ => b

/-- The part of `init_barbershop` that fills the shared record.  The array `q` is
left as it is found. -/
def initBarbershop (seats : ℤ) (found : Barbershop) : Barbershop :=
  { found with
    totalClients := 0
    currClient := 0
    status := .sleeping
    waitingRoomSize := seats }

/-! ### A client -/

/-- `enum client_status`. -/
inductive ClientStatus
  | invited
  | shaven
  | waiting
  deriving DecidableEq, Repr

/-- The two ways out of `arrive_at_barbershop`. -/
inductive Leaving
  /-- "leaving barbershop, no free chair in the waiting room" -/
  | noFreeChair
  /-- "ended shave, leaving barbershop" -/
  | endedShave
  deriving DecidableEq, Repr

/-- Where a client is in `arrive_at_barbershop`. -/
inductive ClientPc
  /-- Before the call. -/
  | outside
  /-- Before the first section of a round of the `for` loop. -/
  | arriving
  /-- In the loop `while (client_status != INVITED)`. -/
  | waiting
  /-- In the loop `while (client_status != SHAVEN)`. -/
  | inChair
  /-- After the return. -/
  | left (how : Leaving)
  deriving DecidableEq, Repr

/-- The local state of a client. -/
structure Client where
  pc : ClientPc
  clientStatus : ClientStatus
  firstShave : Bool
  /-- The number of the round, of which `curr_shave` holds the low 32 bits. -/
  currShave : ℤ
  deriving DecidableEq, Repr

/-- A client before `arrive_at_barbershop`: static variables start at zero, which is
`INVITED` and `false`. -/
def Client.new : Client := ⟨.outside, .invited, false, 0⟩

/-- The condition of the `for` loop. -/
def forTest (shaves : ℤ) (c : Client) : Client :=
  { c with pc := if toInt c.currShave ≤ shaves then .arriving else .left .endedShave }

/-- The condition of the second `while` loop.  At its exit the round ends with
`first_shave = false` and `curr_shave++`. -/
def shavenTest (shaves : ℤ) (c : Client) : Client :=
  if c.clientStatus ≠ .shaven then { c with pc := .inChair }
  else forTest shaves { c with firstShave := false, currShave := c.currShave + 1 }

/-- The condition of the first `while` loop. -/
def invitedTest (shaves : ℤ) (c : Client) : Client :=
  if c.clientStatus ≠ .invited then { c with pc := .waiting } else shavenTest shaves c

/-- The code before the first section of the first round. -/
def enter (shaves : ℤ) (c : Client) : Client :=
  forTest shaves { c with firstShave := true, clientStatus := .waiting, currShave := 1 }

/-- The first section of a round. -/
def arriveSection (me : Pid) (shaves : ℤ) (b : Barbershop) (c : Client) :
    Barbershop × Client :=
  if c.clientStatus = .waiting && qFull b then
    (b, { c with pc := .left .noFreeChair })
  else if b.status = .sleeping then
    (enqueue me { b with status := .wokenUp }, invitedTest shaves c)
  else if c.firstShave then
    (enqueue me b, invitedTest shaves c)
  else
    (b, invitedTest shaves c)

/-- The section of the first `while` loop. -/
def waitSection (me : Pid) (shaves : ℤ) (b : Barbershop) (c : Client) : Barbershop × Client :=
  if b.status = .inviting && me = b.currClient then
    ({ b with status := .startShaving }, invitedTest shaves { c with clientStatus := .invited })
  else
    (b, invitedTest shaves c)

/-- The section of the second `while` loop. -/
def chairSection (me : Pid) (shaves : ℤ) (b : Barbershop) (c : Client) :
    Barbershop × Client :=
  if b.status = .endShaving && me = b.currClient then
    let b := { b with status := .free }
    let c := { c with clientStatus := .shaven }
    if toInt c.currShave < shaves then
      if !qFull b then (enqueue me b, shavenTest shaves c)
      else (b, { c with pc := .left .noFreeChair })
    else (b, shavenTest shaves c)
  else
    (b, shavenTest shaves c)

/-- The next step of a client. -/
def clientStep (me : Pid) (shaves : ℤ) (b : Barbershop) (c : Client) :
    Option (Barbershop × Client) :=
  match c.pc with
  | .outside => some (b, enter shaves c)
  | .arriving => some (arriveSection me shaves b c)
  | .waiting => some (waitSection me shaves b c)
  | .inChair => some (chairSection me shaves b c)
  | .left _ => none

/-! ### The system -/

/-- The processes of a run: the barber, and the clients named by `ι`. -/
inductive Who (ι : Type*)
  | barber
  | client (i : ι)
  deriving DecidableEq

/-- The local state of a process. -/
@[reducible] def Local (ι : Type*) : Who ι → Type
  | .barber => Unit
  | .client _ => Client

/-- The arguments of a run. -/
structure Setup (ι : Type*) where
  /-- The argument of `barber`. -/
  seats : ℤ
  /-- `main` of the barber exits when there are more seats than places in `q`. -/
  seats_le : seats ≤ maxClients
  /-- The process ids of the clients. -/
  pid : ι → Pid
  pid_pos : ∀ i, 0 < pid i
  pid_injective : Function.Injective pid
  /-- The number of shaves each client asks for. -/
  shaves : ι → ℤ
  /-- It is an `int`. -/
  shaves_le : ∀ i, shaves i ≤ intMax
  /-- The shared memory as the barber finds it. -/
  found : Barbershop

namespace Setup

variable {ι : Type*} (S : Setup ι)

/-- The system of the barber and its clients. -/
def program : Program (Who ι) Barbershop (Local ι) where
  step
    | .barber, b, _ => some (barberSection b, ())
    | .client i, b, c => clientStep (S.pid i) (S.shaves i) b c

/-- The system after `init_barbershop`, before any client has arrived. -/
def start : Global Barbershop (Local ι) where
  mem := initBarbershop S.seats S.found
  loc
    | .barber => ()
    | .client _ => Client.new

end Setup

/-! ### The log -/

/-- The record at which a client's next step calls `enqueue`, if it does. -/
def enqueueCall (me : Pid) (shaves : ℤ) (b : Barbershop) (c : Client) : Option Barbershop :=
  match c.pc with
  | .arriving =>
    if c.clientStatus = .waiting && qFull b then none
    else if b.status = .sleeping then some { b with status := .wokenUp }
    else if c.firstShave then some b
    else none
  | .inChair =>
    if b.status = .endShaving && me = b.currClient && toInt c.currShave < shaves && !qFull b then
      some { b with status := .free }
    else none
  | _ => none

/-- The record at which the barber's next section calls `dequeue`, if it does. -/
def dequeueCall (b : Barbershop) : Option Barbershop :=
  match b.status with
  | .wokenUp => some { b with status := .inviting }
  | .free => if !qEmpty b then some { b with status := .inviting } else none
  | _ => none

/-- What the steps of a run have done, each list in the order of the steps. -/
structure Log where
  /-- The arguments of the calls of `enqueue`. -/
  enqueued : List Pid
  /-- The values `invite_client` stored in `curr_client`. -/
  invited : List Pid
  /-- The values of `curr_client` at the calls of `shave`. -/
  shaved : List Pid
  /-- The clients that set `client_status` to `SHAVEN`, a shave completed. -/
  gotUp : List Pid
  /-- The clients that set `status` to `WOKEN_UP`, with the number of invitations
  given until then. -/
  wakes : List (Pid × ℕ)
  deriving DecidableEq, Repr

/-- The log after the barber's section. -/
def barberLog (b : Barbershop) (log : Log) : Log :=
  match dequeueCall b with
  | some b' => { log with invited := log.invited ++ [(dequeue b').1] }
  | none =>
    if b.status = .startShaving then { log with shaved := log.shaved ++ [b.currClient] }
    else log

/-- The log after a client's step. -/
def clientLog (me : Pid) (shaves : ℤ) (b : Barbershop) (c : Client) (log : Log) : Log where
  enqueued := if (enqueueCall me shaves b c).isSome then log.enqueued ++ [me] else log.enqueued
  invited := log.invited
  shaved := log.shaved
  gotUp :=
    if c.pc = .inChair && b.status = .endShaving && me = b.currClient then log.gotUp ++ [me]
    else log.gotUp
  wakes :=
    if c.pc = .arriving && b.status = .sleeping && (enqueueCall me shaves b c).isSome then
      log.wakes ++ [(me, log.invited.length)]
    else log.wakes

namespace Setup

variable {ι : Type*} (S : Setup ι)

/-- The system with its log. -/
def logged : Program (Who ι) (Barbershop × Log) (Local ι) :=
  S.program.withHistory fun
    | .barber, b, _, log => barberLog b log
    | .client i, b, c, log => clientLog (S.pid i) (S.shaves i) b c log

/-- The start with an empty log. -/
def logStart : Global (Barbershop × Log) (Local ι) :=
  ⟨(S.start.mem, ⟨[], [], [], [], []⟩), S.start.loc⟩

theorem erase_logged_run [DecidableEq ι] (sched : List (Who ι)) :
    (S.logged.run sched S.logStart).erase = S.program.run sched S.start :=
  S.program.erase_run_withHistory _ sched S.logStart

end Setup

end Barber
end OpSys
