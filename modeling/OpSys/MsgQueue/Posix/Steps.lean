import OpSys.MsgQueue.Posix.System

/-!
# What a step can do, with POSIX queues

Every step of the server or of a client is one of the cases of `ServerDoes` and
`ClientDoes`; what the machine keeps is derived from these alone.

## Main definitions

* `ServerDoes`, `ClientDoes`, `Does` — the cases.

## Main results

* `does` — every step is one of them.

## References

`lab5_message_queues/POSIX/server.c`, `lab5_message_queues/POSIX/client.c`.
-/

namespace OpSys
namespace MsgQueue
namespace Posix

open Stdio

variable {ι : Type*} [DecidableEq ι]

namespace Sys

variable (s : Sys ι)

@[simp] theorem leave_link (q : Option ι) (ms : List Message) : (s.leave q ms).link = s.link := rfl
@[simp] theorem leave_fds (q : Option ι) (ms : List Message) : (s.leave q ms).fds = s.fds := rfl
@[simp] theorem leave_data (q : Option ι) (ms : List Message) : (s.leave q ms).data = s.data := rfl
@[simp] theorem leave_pc (q : Option ι) (ms : List Message) : (s.leave q ms).pc = s.pc := rfl
@[simp] theorem leave_client (q : Option ι) (ms : List Message) :
    (s.leave q ms).client = s.client := rfl

/-- A queue with one message more. -/
def enqueue (q : Option ι) (m : Message) : Sys ι :=
  { s with queue := Function.update s.queue q (s.queue q ++ [m]) }

theorem put_eq_some {q : Option ι} {m : Message} {s' : Sys ι} :
    s.put q m = some s' ↔ (s.queue q).length < maxMsgs ∧ s' = s.enqueue q m := by
  unfold put
  split
  · rename_i h
    simp only [h, true_and, Option.some.injEq]
    exact eq_comm
  · rename_i h
    simp [h]

end Sys

/-- The server is between the creation of its queue and `exit`. -/
def ServerPc.Running (pc : ServerPc) : Prop := pc ≠ .start ∧ pc.status = none

theorem ServerPc.Running.of_eq {pc pc' : ServerPc} (h : pc = pc') (hstart : pc' ≠ .start)
    (hstatus : pc'.status = none) : pc.Running := h ▸ ⟨hstart, hstatus⟩

/-- What a `mq_send` of the server sends, over which descriptor, and what comes next. -/
def ServerPc.sends : ServerPc → Option (ℤ × Message × ServerPc)
  | .refuse qid msg => some (qid, msg, .closeRefused qid)
  | .login qid msg => some (qid, msg, .top)
  | .respond qid msg => some (qid, msg, .top)
  | _ => none

/-- What a `mq_close` of the running server closes, and how the server goes on. -/
def ServerPc.closes (d : ServerData) : ServerPc → Option (ℤ × ServerData)
  | .closeRefused qid => some (qid, d)
  | .quit i => some ((d.clientsData i).2, quitClosed d i)
  | _ => none

/-- What the server can do. -/
inductive ServerDoes (cfg : Config ι) (s : Sys ι) : Sys ι → Prop
  | create (fd : ℤ) (q : Option ι) (hpc : s.pc = .start) (hfd : 0 ≤ fd ∧ s.fds fd = none)
      (hq : s.link serverPath = some q ∨ s.link serverPath = none ∧ q = none) :
      ServerDoes cfg s (((s.setFd fd (some q)).setLink serverPath (some q)).goOn
        ({ s.data with queueDesc := fd }, .top))
  | wait (hpc : s.pc = .top) : ServerDoes cfg s { s with pc := .receive }
  | finish (q : Option ι) (hpc : s.pc = .top) (hactive : s.data.active = false)
      (hfd : s.fds s.data.queueDesc = some q) (hempty : s.queue q = []) :
      ServerDoes cfg s (s.exitServer 0)
  | receive (clock : Clock) (q : Option ι) (m : Message) (ms : List Message)
      (hpc : s.pc = .receive) (hfd : s.fds s.data.queueDesc = some q) (hq : s.queue q = m :: ms) :
      ServerDoes cfg s { (s.leave q ms).goOn (dispatchRequest cfg.server clock.1 s.data m) with
        dispatched := s.dispatched ++ [m] }
  | openClient (fd : ℤ) (msg : Message) (q : Option ι) (hpc : s.pc = .register msg)
      (hlink : s.link (clientPath msg.senderPid) = some q) (hfd : 0 ≤ fd ∧ s.fds fd = none) :
      ServerDoes cfg s ((s.setFd fd (some q)).goOn (registerOpened cfg.server s.data msg fd))
  | send (qid : ℤ) (msg : Message) (pc : ServerPc) (q : Option ι)
      (hpc : s.pc.sends = some (qid, msg, pc)) (hfd : s.fds qid = some q)
      (hroom : (s.queue q).length < maxMsgs) :
      ServerDoes cfg s { s.enqueue q msg with pc := pc }
  | close (qid : ℤ) (d : ServerData) (q : Option ι) (hpc : s.pc.closes s.data = some (qid, d))
      (hfd : s.fds qid = some q) : ServerDoes cfg s ((s.setFd qid none).goOn (d, .top))
  | missing (msg : Message) (hpc : s.pc = .register msg)
      (hlink : s.link (clientPath msg.senderPid) = none) : ServerDoes cfg s (s.exitServer (-1))
  | badPublic (hpc : s.pc = .top ∨ s.pc = .receive) (hfd : s.fds s.data.queueDesc = none) :
      ServerDoes cfg s (s.exitServer (-1))
  | badSend (qid : ℤ) (msg : Message) (pc : ServerPc) (hpc : s.pc.sends = some (qid, msg, pc))
      (hfd : s.fds qid = none) : ServerDoes cfg s (s.exitServer (-1))
  | badClose (qid : ℤ) (d : ServerData) (hpc : s.pc.closes s.data = some (qid, d))
      (hfd : s.fds qid = none) : ServerDoes cfg s (s.exitServer (-1))
  | closing (status fd : ℤ) (pc : ServerPc) (hpc : s.pc.status = some status)
      (hpc' : pc.status = some status) : ServerDoes cfg s { s.setFd fd none with pc := pc }
  | unlink (status : ℤ) (hpc : s.pc = .unlink status) :
      ServerDoes cfg s { s.setLink serverPath none with pc := .gone status }

theorem exit_status (d : ServerData) (status : ℤ) : (exit d status).status = some status := by
  unfold exit closePublic
  split
  · rfl
  · split <;> rfl

theorem afterClient_status (d : ServerData) (status : ℤ) (i : ℕ) :
    (afterClient d status i).status = some status := by
  unfold afterClient closePublic
  split
  · rfl
  · split <;> rfl

theorem serverSend_does {cfg : Config ι} {s s' : Sys ι} {qid : ℤ} {msg : Message} {pc : ServerPc}
    (hpc : s.pc.sends = some (qid, msg, pc)) (h : s.serverSend qid msg pc = some s') :
    ServerDoes cfg s s' := by
  unfold Sys.serverSend at h
  cases hfd : s.fds qid with
  | none =>
    simp only [hfd, Option.some.injEq] at h
    subst h
    exact .badSend qid msg pc hpc hfd
  | some q =>
    simp only [hfd] at h
    obtain ⟨s₁, hput, rfl⟩ := Option.map_eq_some_iff.mp h
    obtain ⟨hroom, rfl⟩ := s.put_eq_some.mp hput
    exact .send qid msg pc q hpc hfd hroom

theorem serverClose_does {cfg : Config ι} {s : Sys ι} {qid : ℤ} {d : ServerData}
    (hpc : s.pc.closes s.data = some (qid, d)) :
    ServerDoes cfg s (s.serverClose qid (d, .top)) := by
  unfold Sys.serverClose
  cases hfd : s.fds qid with
  | none => exact .badClose qid d hpc hfd
  | some q => exact .close qid d q hpc hfd

theorem serverDoes {cfg : Config ι} {fd : ℤ} {clock : Clock} {s s' : Sys ι}
    (h : serverStep cfg fd clock s = some s') : ServerDoes cfg s s' := by
  unfold serverStep at h
  cases hpc : s.pc with
  | start =>
    simp only [hpc] at h
    split at h
    · rename_i hfd
      cases hlink : s.link serverPath with
      -- `O_CREAT` makes the name when it is not there
      | none =>
        simp only [hlink, Option.some.injEq] at h
        subst h
        exact .create fd none hpc hfd (.inr ⟨hlink, rfl⟩)
      | some q =>
        simp only [hlink, Option.some.injEq] at h
        -- a name that is there is opened as it is
        have hsame : (s.setFd fd (some q)).setLink serverPath (some q) = s.setFd fd (some q) := by
          have : Function.update s.link serverPath (some q) = s.link := by
            rw [← hlink, Function.update_eq_self]
          simp only [Sys.setLink, Sys.setFd, this]
        rw [← hsame] at h
        subst h
        exact .create fd q hpc hfd (.inl hlink)
    · exact absurd h (Option.some_ne_none _).symm
  | top =>
    simp only [hpc] at h
    split at h
    · obtain rfl := Option.some.inj h
      exact .wait hpc
    · rename_i hactive
      cases hfd : s.fds s.data.queueDesc with
      | none =>
        simp only [hfd, Option.some.injEq] at h
        subst h
        exact .badPublic (.inl hpc) hfd
      | some q =>
        simp only [hfd] at h
        split at h
        · rename_i hempty
          obtain rfl := Option.some.inj h
          exact .finish q hpc (Bool.eq_false_iff.mpr hactive) hfd hempty
        · obtain rfl := Option.some.inj h
          exact .wait hpc
  | receive =>
    simp only [hpc] at h
    cases hfd : s.fds s.data.queueDesc with
    | none =>
      simp only [hfd, Option.some.injEq] at h
      subst h
      exact .badPublic (.inr hpc) hfd
    | some q =>
      simp only [hfd] at h
      cases hq : s.queue q with
      | nil => simp [hq] at h
      | cons m ms =>
        simp only [hq, Option.some.injEq] at h
        subst h
        exact .receive clock q m ms hpc hfd hq
  | register msg =>
    simp only [hpc] at h
    cases hlink : s.link (clientPath msg.senderPid) with
    | none =>
      simp only [hlink, Option.some.injEq] at h
      subst h
      exact .missing msg hpc hlink
    | some q =>
      simp only [hlink] at h
      split at h
      · rename_i hfd
        obtain rfl := Option.some.inj h
        exact .openClient fd msg q hpc hlink hfd
      · exact absurd h (Option.some_ne_none _).symm
  | refuse qid msg =>
    simp only [hpc] at h
    exact serverSend_does (by rw [hpc]; rfl) h
  | closeRefused qid =>
    simp only [hpc, Option.some.injEq] at h
    subst h
    exact serverClose_does (by rw [hpc]; rfl)
  | login qid msg =>
    simp only [hpc] at h
    exact serverSend_does (by rw [hpc]; rfl) h
  | respond qid msg =>
    simp only [hpc] at h
    exact serverSend_does (by rw [hpc]; rfl) h
  | quit i =>
    simp only [hpc, Option.some.injEq] at h
    subst h
    exact serverClose_does (by rw [hpc]; rfl)
  | closeClient status i =>
    simp only [hpc, Option.some.injEq] at h
    subst h
    exact .closing status _ _ (by rw [hpc]; rfl) (afterClient_status ..)
  | closeQueue status =>
    simp only [hpc, Option.some.injEq] at h
    subst h
    exact .closing status _ _ (by rw [hpc]; rfl) rfl
  | unlink status =>
    simp only [hpc, Option.some.injEq] at h
    subst h
    exact .unlink status hpc
  | gone status => simp [hpc] at h

/-! ### Clients -/

/-- The client's message goes to the public queue `q`, and it goes on at `pc`. -/
def Sys.clientPut (s : Sys ι) (i : ι) (q : Option ι) (msg : Message) (pc : ClientPc) : Sys ι :=
  { (s.enqueue q msg).setClient i { s.client i with msg := msg, pc := pc } with
    accepted := if s.link serverPath = some q then s.accepted ++ [msg] else s.accepted }

/-- A message to which no response is expected, and what comes after it. -/
def ClientPc.tells (cfg : Config ι) (i : ι) (c : Client ι) : Option (Message × ClientPc) :=
  match c.pc with
  | .sendRequest false => some (c.msg, .prompt)
  | .sendQuit status => some (⟨typeQuit, cfg.pid i, cfg.junk i⟩, .closePublic status)
  | _ => none

/-- A message to which the client waits for the response, and where it does. -/
def ClientPc.asks (cfg : Config ι) (i : ι) (c : Client ι) : Option (Message × ClientPc) :=
  match c.pc with
  | .sendRegister => some (⟨typeRegister, cfg.pid i, cfg.junk i⟩, .receiveSession)
  | .sendRequest true => some (c.msg, .receiveResponse)
  | _ => none

/-- What the client `i` can do. -/
inductive ClientDoes (cfg : Config ι) (i : ι) (s : Sys ι) : Sys ι → Prop
  | noServer (hpc : (s.client i).pc = .openPublic) (hlink : s.link serverPath = none) :
      ClientDoes cfg i s (s.setClient i (exitClient (s.client i) (-1)))
  | openPublic (q : Option ι) (hpc : (s.client i).pc = .openPublic)
      (hlink : s.link serverPath = some q) :
      ClientDoes cfg i s
        (s.setClient i { s.client i with pubQid := some q, pc := .openPrivate })
  | openPrivate (q : Option ι) (hpc : (s.client i).pc = .openPrivate)
      (hlink : s.link (clientPath (cfg.pid i)) = some q ∨
        s.link (clientPath (cfg.pid i)) = none ∧ q = some i) :
      ClientDoes cfg i s ((s.setLink (clientPath (cfg.pid i)) (some q)).setClient i
        { s.client i with privQid := some q, pc := .sendRegister })
  | ask (msg : Message) (pc : ClientPc) (q : Option ι)
      (hpc : ClientPc.asks cfg i (s.client i) = some (msg, pc))
      (hpub : (s.client i).pubQid = some q) (hroom : (s.queue q).length < maxMsgs) :
      ClientDoes cfg i s { s.clientPut i q msg pc with
        latest := Function.update s.latest i (some (msg, (s.link serverPath).isSome)) }
  | tell (msg : Message) (pc : ClientPc) (q : Option ι)
      (hpc : ClientPc.tells cfg i (s.client i) = some (msg, pc))
      (hpub : (s.client i).pubQid = some q) (hroom : (s.queue q).length < maxMsgs) :
      ClientDoes cfg i s (s.clientPut i q msg pc)
  | session (q : Option ι) (m : Message) (ms : List Message)
      (hpc : (s.client i).pc = .receiveSession) (hpriv : (s.client i).privQid = some q)
      (hq : s.queue q = m :: ms) :
      ClientDoes cfg i s ((s.leave q ms).setClient i (readSession cfg i (s.client i) m))
  | prompt (hpc : (s.client i).pc = .prompt) :
      ClientDoes cfg i s (s.setClient i (readCommand (cfg.pid i) (s.client i)))
  | response (q : Option ι) (m : Message) (ms : List Message)
      (hpc : (s.client i).pc = .receiveResponse) (hpriv : (s.client i).privQid = some q)
      (hq : s.queue q = m :: ms) :
      ClientDoes cfg i s
        ((s.leave q ms).setClient i { s.client i with msg := m, pc := .prompt })
  | closing (status : ℤ) (pc : ClientPc) (hpc : (s.client i).pc.status = some status)
      (hpc' : pc.status = some status) (hquiet : ClientPc.tells cfg i (s.client i) = none) :
      ClientDoes cfg i s (s.setClient i { s.client i with pc := pc })
  | unlink (status : ℤ) (hpc : (s.client i).pc = .unlink status) :
      ClientDoes cfg i s ((s.setLink (clientPath (cfg.pid i)) none).setClient i
        { s.client i with pc := .gone status })

theorem clientSend_eq_some {s s' : Sys ι} {i : ι} {msg : Message} {pc : ClientPc}
    (h : clientSend s i msg pc = some s') :
    ∃ q, (s.client i).pubQid = some q ∧ (s.queue q).length < maxMsgs ∧
      s' = s.clientPut i q msg pc := by
  unfold clientSend at h
  split at h
  · exact absurd h (Option.some_ne_none _).symm
  · rename_i q hpub
    obtain ⟨s₁, hput, rfl⟩ := Option.map_eq_some_iff.mp h
    obtain ⟨hroom, rfl⟩ := s.put_eq_some.mp hput
    exact ⟨q, hpub, hroom, rfl⟩

theorem clientAsk_does {cfg : Config ι} {s s' : Sys ι} {i : ι} {msg : Message} {pc : ClientPc}
    (hpc : ClientPc.asks cfg i (s.client i) = some (msg, pc)) (h : clientAsk s i msg pc = some s') :
    ClientDoes cfg i s s' := by
  obtain ⟨s₁, hsend, rfl⟩ := Option.map_eq_some_iff.mp h
  obtain ⟨q, hpub, hroom, rfl⟩ := clientSend_eq_some hsend
  exact .ask msg pc q hpc hpub hroom

theorem clientReceive_eq_some {s s' : Sys ι} {i : ι} {k : Message → Client ι}
    (h : clientReceive s i k = some s') :
    ∃ q m ms, (s.client i).privQid = some q ∧ s.queue q = m :: ms ∧
      s' = (s.leave q ms).setClient i (k m) := by
  unfold clientReceive at h
  cases hpriv : (s.client i).privQid with
  | none => simp [hpriv] at h
  | some q =>
    simp only [hpriv] at h
    cases hq : s.queue q with
    | nil => simp [hq] at h
    | cons m ms =>
      simp only [hq, Option.some.injEq] at h
      exact ⟨q, m, ms, rfl, hq, h.symm⟩

theorem clientDoes {cfg : Config ι} {i : ι} {s s' : Sys ι} (h : clientStep cfg i s = some s') :
    ClientDoes cfg i s s' := by
  unfold clientStep at h
  cases hpc : (s.client i).pc with
  | openPublic =>
    simp only [hpc] at h
    cases hlink : s.link serverPath with
    | none =>
      simp only [hlink, Option.some.injEq] at h
      subst h
      exact .noServer hpc hlink
    | some q =>
      simp only [hlink, Option.some.injEq] at h
      subst h
      exact .openPublic q hpc hlink
  | openPrivate =>
    simp only [hpc] at h
    cases hlink : s.link (clientPath (cfg.pid i)) with
    | none =>
      simp only [hlink, Option.some.injEq] at h
      subst h
      exact .openPrivate (some i) hpc (.inr ⟨hlink, rfl⟩)
    | some q =>
      simp only [hlink, Option.some.injEq] at h
      -- an earlier private queue of this name is opened as it is
      have hsame : s.setLink (clientPath (cfg.pid i)) (some q) = s := by
        rw [Sys.setLink, ← hlink, Function.update_eq_self]
      have hdoes : ClientDoes cfg i s ((s.setLink (clientPath (cfg.pid i)) (some q)).setClient i
          { s.client i with privQid := some q, pc := .sendRegister }) :=
        .openPrivate q hpc (.inl hlink)
      rw [hsame] at hdoes
      rwa [← h]
  | sendRegister =>
    simp only [hpc] at h
    exact clientAsk_does (by simp only [ClientPc.asks, hpc]) h
  | receiveSession =>
    simp only [hpc] at h
    obtain ⟨q, m, ms, hpriv, hq, rfl⟩ := clientReceive_eq_some h
    exact .session q m ms hpc hpriv hq
  | prompt =>
    simp only [hpc, Option.some.injEq] at h
    subst h
    exact .prompt hpc
  | sendRequest answered =>
    cases answered with
    | true =>
      simp only [hpc] at h
      exact clientAsk_does (by simp only [ClientPc.asks, hpc]) h
    | false =>
      simp only [hpc] at h
      obtain ⟨q, hpub, hroom, rfl⟩ := clientSend_eq_some h
      exact .tell _ _ q (by simp only [ClientPc.tells, hpc]) hpub hroom
  | receiveResponse =>
    simp only [hpc] at h
    obtain ⟨q, m, ms, hpriv, hq, rfl⟩ := clientReceive_eq_some h
    exact .response q m ms hpc hpriv hq
  | sendQuit status =>
    simp only [hpc] at h
    obtain ⟨q, hpub, hroom, rfl⟩ := clientSend_eq_some h
    exact .tell _ _ q (by simp only [ClientPc.tells, hpc]) hpub hroom
  | closePublic status =>
    simp only [hpc, Option.some.injEq] at h
    subst h
    exact .closing status _ (by rw [hpc]; rfl) rfl (by simp only [ClientPc.tells, hpc])
  | closePrivate status =>
    simp only [hpc, Option.some.injEq] at h
    subst h
    exact .closing status _ (by rw [hpc]; rfl) rfl (by simp only [ClientPc.tells, hpc])
  | unlink status =>
    simp only [hpc, Option.some.injEq] at h
    subst h
    exact .unlink status hpc
  | gone status => simp [hpc] at h

/-! ### All processes -/

/-- What the machine can do. -/
inductive Does (cfg : Config ι) (s : Sys ι) : Event ι → Sys ι → Prop
  | server {s' : Sys ι} (fd : ℤ) (clock : Clock) (h : ServerDoes cfg s s') :
      Does cfg s (.server fd clock) s'
  | interruptServer (hpc : s.pc.status = none) :
      Does cfg s .interruptServer { s with
        data := { s.data with active := false }
        pc := exit s.data 2
        interrupted := true }
  | client {s' : Sys ι} (i : ι) (h : ClientDoes cfg i s s') : Does cfg s (.client i) s'
  | interruptClient (i : ι) (hpc : (s.client i).pc.status = none) :
      Does cfg s (.interruptClient i) (s.setClient i (exitClient (s.client i) 2))

theorem does {cfg : Config ι} {e : Event ι} {s s' : Sys ι} (h : (system cfg).step e s = some s') :
    Does cfg s e s' := by
  cases e with
  | server fd clock => exact .server fd clock (serverDoes h)
  | interruptServer =>
    simp only [system] at h
    split at h
    · rename_i hpc
      obtain rfl := Option.some.inj h
      exact .interruptServer hpc
    · exact absurd h (Option.some_ne_none _).symm
  | client i => exact .client i (clientDoes h)
  | interruptClient i =>
    simp only [system] at h
    split at h
    · rename_i hpc
      obtain rfl := Option.some.inj h
      exact .interruptClient i hpc
    · exact absurd h (Option.some_ne_none _).symm

end Posix
end MsgQueue
end OpSys
