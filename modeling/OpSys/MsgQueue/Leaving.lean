import OpSys.MsgQueue.Posix.Invariant
import OpSys.MsgQueue.SystemV.Owners

/-!
# Clients that leave

A client may leave at any time and takes its queue with it.  A server that then comes
to use the queue ends with an error, although nobody has asked it to.  With POSIX
queues this is so for a `REGISTER` only, since a descriptor keeps a queue alive; with
System V queues it is so for every response.

## Main definitions

* `Posix.Sys.StaysUp`, `SystemV.Sys.StaysUp` — the server is past `exit` only after an
  `END` or a `SIGINT`.
* `Posix.QueueThere`, `SystemV.QueueThere` — the clients that the server deals with have not
  ended.

## Main results

* `staysUp_iff` — the server stays up exactly as long as that is so.
* `left_while_registering` — it does not always.

## References

`lab5_message_queues/POSIX/server.c`, `lab5_message_queues/POSIX/client.c`,
`lab5_message_queues/SystemV/server.c`, `lab5_message_queues/SystemV/client.c`.
-/

namespace OpSys
namespace MsgQueue

open Stdio

namespace Posix

variable {ι : Type*}

/-- The server is past `exit` only after an `END` or a `SIGINT`. -/
def Sys.StaysUp (s : Sys ι) : Prop := s.pc.status ≠ none → s.Ended

/-- When the server handles a `REGISTER`, the queue of the client still has its name,
or the server has been asked to end. -/
def QueueThere : Event ι → Sys ι → Prop
  | .server _ _, s => ∀ msg, s.pc = .register msg →
      s.link (clientPath msg.senderPid) = none → s.Ended
  | _, _ => True

variable {cfg : Config ι} {s s' : Sys ι}

theorem staysUp_of_status (h : s.pc.status = none) : s.StaysUp := fun hne => absurd h hne

theorem queueThere_of_ne {e : Event ι} (h : ∀ msg, s.pc ≠ .register msg) : QueueThere e s := by
  cases e with
  | server fd clock => exact fun msg hpc => absurd hpc (h msg)
  | _ => trivial

theorem ne_register_of_status {status : ℤ} (h : s.pc.status = some status) (msg : Message) :
    s.pc ≠ .register msg := fun hpc => nomatch h.symm.trans (congrArg ServerPc.status hpc)

theorem staysUp_server [DecidableEq ι] (h : SysInv cfg s) (hgood : s.StaysUp) (fd : ℤ)
    (clock : Clock) (hdoes : ServerDoes cfg s s') :
    s'.StaysUp ↔ QueueThere (.server fd clock) s := by
  have hnext : s'.pc.status = none → (∀ msg, s.pc ≠ .register msg) →
      (s'.StaysUp ↔ QueueThere (.server fd clock) s) := fun hstatus hpc =>
    iff_of_true (staysUp_of_status hstatus) (queueThere_of_ne hpc)
  cases hdoes with
  | create fd' q hpc hfd hq => exact hnext rfl fun msg => by simp [hpc]
  | wait hpc => exact hnext rfl fun msg => by simp [hpc]
  | finish q hpc hactive hfd hempty =>
    exact iff_of_true (fun _ => h.ended hactive) (queueThere_of_ne fun msg => by simp [hpc])
  | receive clock' q m ms hpc hfd hq =>
    have hfds := h.fds (.of_eq hpc ServerPc.noConfusion rfl)
    have hp := hfds.dispatched cfg.server clock' m
    exact hnext hp.running.2 fun msg => by simp [hpc]
  | openClient fd' msg q hpc hlink hfd =>
    -- the name was there, so the condition is met
    refine iff_of_true (staysUp_of_status ?_) fun msg' hpc' hnone => ?_
    · show (registerOpened cfg.server s.data msg fd').2.status = none
      unfold registerOpened
      split
      · rfl
      · rfl
    · obtain rfl := ServerPc.register.inj (hpc.symm.trans hpc')
      exact absurd (hlink.symm.trans hnone) (Option.some_ne_none _)
  | send qid msg pc q hpc hfd hroom =>
    refine hnext (sends_running hpc).2.1.2 fun msg' hpc' => ?_
    rw [hpc'] at hpc
    exact absurd hpc (Option.some_ne_none _).symm
  | close qid d q hpc hfd =>
    refine hnext rfl fun msg' hpc' => ?_
    rw [hpc'] at hpc
    exact absurd hpc (Option.some_ne_none _).symm
  -- here the condition is what decides
  | missing msg hpc hlink =>
    constructor
    · intro hup msg' hpc' hnone
      exact hup (by rw [Sys.exitServer, exit_status]; exact Option.some_ne_none _)
    · exact fun hthere _ => hthere msg hpc hlink
  | badPublic hpc hfd =>
    have hrun : s.pc.Running := by
      rcases hpc with hpc | hpc
      · exact .of_eq hpc ServerPc.noConfusion rfl
      · exact .of_eq hpc ServerPc.noConfusion rfl
    exact absurd ((h.fds hrun).public_fd.symm.trans hfd) (Option.some_ne_none _)
  | badSend qid msg pc hpc hfd =>
    obtain ⟨j, hj⟩ := (h.fds (sends_running hpc).1).of_sends hpc
    exact absurd (hj.symm.trans hfd) (Option.some_ne_none _)
  | badClose qid d hpc hfd =>
    obtain ⟨j, hj⟩ := (h.fds (closes_running hpc).1).of_closes hpc
    exact absurd (hj.symm.trans hfd) (Option.some_ne_none _)
  | closing status fd' pc hpc hpc' =>
    -- `close_queue` was entered after an `END` or an interruption
    have hended := hgood (by rw [hpc]; exact Option.some_ne_none _)
    exact iff_of_true (fun _ => hended) (queueThere_of_ne (ne_register_of_status hpc))
  | unlink status hpc =>
    have hended := hgood (by rw [hpc]; exact Option.some_ne_none _)
    exact iff_of_true (fun _ => hended) (queueThere_of_ne fun msg => by simp [hpc])

theorem staysUp_step [DecidableEq ι] (e : Event ι) (s s' : Sys ι) (h : SysInv cfg s)
    (hgood : s.StaysUp) (hstep : (system cfg).step e s = some s') :
    s'.StaysUp ↔ QueueThere e s := by
  cases does hstep with
  | server fd clock hdoes => exact staysUp_server h hgood fd clock hdoes
  | interruptServer hpc => exact iff_of_true (fun _ => .inr rfl) trivial
  | client i hdoes => cases hdoes <;> exact iff_of_true hgood trivial
  | interruptClient i hpc => exact iff_of_true hgood trivial

end Posix

namespace SystemV

open Ipc

variable {ι : Type*}

/-- The server is past `exit` only after an `END` or a `SIGINT`. -/
def Sys.StaysUp (s : Sys ι) : Prop := s.pc.status ≠ none → s.Ended

/-- No client has ended that held the queue which the server receives from or sends to, and
the key in a `REGISTER` is `IPC_PRIVATE` or that of a process whose queue no such client
held; or the server has been asked to end. -/
def QueueThere (cfg : Config ι) : Event ι → Sys ι → Prop
  | .server _ garbage _, s =>
    match s.pc with
    | .receive => s.Abandoned s.data.queueDesc → s.Ended
    | .register p => (∃ key, clientKey garbage p.msg.content = some key ∧
        (key = ipcPrivate ∨ s.KeyHeld cfg key)) ∨ s.Ended
    | .send qid _ => s.Abandoned qid → s.Ended
    | _ => True
  | _, _ => True

/-- What holds in every state. -/
structure LeaveInv (cfg : Config ι) (s : Sys ι) : Prop where
  sys : SysInv s
  own : OwnInv cfg s
  aim : AimInv s

variable {cfg : Config ι} {s s' : Sys ι}

theorem leaveInv_step [DecidableEq ι] (e : Event ι) (s s' : Sys ι) (h : LeaveInv cfg s)
    (hstep : (system cfg).step e s = some s') : LeaveInv cfg s' :=
  ⟨sysInv_step h.sys hstep, ownInv_step h.own h.sys hstep, aimInv_step h.aim h.sys hstep⟩

/-- A call of the server fails when the clients that held the queue have ended. -/
theorem callFails_iff (h : LeaveInv cfg s) (id garbage : ℤ) (clock : Clock) :
    (s.CallFails garbage → s.Ended) ↔ QueueThere cfg (.server id garbage clock) s := by
  cases hpc : s.pc with
  | top =>
    simp only [Sys.CallFails, QueueThere, hpc, iff_true]
    exact fun hfails => h.sys.ended hfails.1
  | receive =>
    have hused := h.own.started (by simp [hpc]) (by simp [hpc, ServerPc.status])
    have hlive := live_iff h.own (by simp [hpc, ServerPc.status]) hused
    simp only [Sys.CallFails, QueueThere, hpc, hlive, Classical.not_not]
  | register p =>
    have hkeyed := keyed_iff h.own h.sys.ok (by simp [hpc]) (by simp [hpc, ServerPc.status])
    simp only [Sys.CallFails, QueueThere, hpc]
    constructor
    · intro hfails
      by_cases hended : s.Ended
      · exact .inr hended
      · -- some key that the message may carry leads to a queue
        obtain ⟨key, hno⟩ := Classical.not_forall.mp (mt hfails hended)
        obtain ⟨hkey, hno⟩ := Classical.not_imp.mp hno
        refine .inl ⟨key, hkey, ?_⟩
        by_cases hprivate : key = ipcPrivate
        · exact .inl hprivate
        · exact .inr ((hkeyed key).mp fun hnone => hno ⟨hprivate, hnone⟩)
    · rintro (⟨key, hkey, hfound⟩ | hended) hfails
      · obtain ⟨hprivate, hnone⟩ := hfails key hkey
        rcases hfound with heq | hheld
        · exact absurd heq hprivate
        · exact absurd hnone ((hkeyed key).mpr hheld)
      · exact hended
  | send qid p =>
    have hused := (h.aim.target qid p hpc).1
    have hlive := live_iff h.own (by simp [hpc, ServerPc.status]) hused
    simp only [Sys.CallFails, QueueThere, hpc, hlive, Classical.not_not]
  | start => simp [Sys.CallFails, QueueThere, hpc]
  | remove status => simp [Sys.CallFails, QueueThere, hpc]
  | gone status => simp [Sys.CallFails, QueueThere, hpc]

theorem staysUp_of_status (h : s.pc.status = none) : s.StaysUp := fun hne => absurd h hne

/-- The server stays up unless its call fails. -/
theorem staysUp_server (h : SysInv s) (hgood : s.StaysUp) {garbage : ℤ}
    (hdoes : ServerDoes cfg garbage s s') :
    s'.StaysUp ↔ (s.CallFails garbage → s.Ended) := by
  have hnext : s'.StaysUp → ¬s.CallFails garbage →
      (s'.StaysUp ↔ (s.CallFails garbage → s.Ended)) := fun hup hcall =>
    iff_of_true hup fun hfails => absurd hfails hcall
  cases hdoes with
  -- `msgget` with `IPC_CREAT` does not fail here
  | create id' q k hpc hget =>
    exact hnext (staysUp_of_status rfl) (by simp [Sys.CallFails, hpc])
  | wait hpc hlive => exact hnext (staysUp_of_status rfl) hlive
  | finish hpc hactive hslot =>
    exact hnext (fun _ => h.ended hactive) (by simp [Sys.CallFails, hpc, hslot, Slot.Live])
  | receive clock' p ps hpc hslot =>
    exact hnext (staysUp_of_status dispatch_ne_start.2)
      (by simp [Sys.CallFails, hpc, hslot, Slot.Live])
  | openClient id' key qid k p hpc hkey hget hqid =>
    exact hnext (staysUp_of_status rfl) (not_callFails hpc hkey hget hqid)
  | send qid p ps hpc hslot hroom =>
    exact hnext (staysUp_of_status rfl) (by simp [Sys.CallFails, hpc, hslot, Slot.Live])
  | fail hfails =>
    constructor
    · intro hup _
      exact hup (by rw [Sys.exitServer, exit_status]; exact Option.some_ne_none _)
    · exact fun hthere _ => hthere hfails
  | remove status hpc =>
    have hended := hgood (by rw [hpc]; exact Option.some_ne_none _)
    exact hnext (fun _ => hended) (by simp [Sys.CallFails, hpc])

theorem staysUp_step [DecidableEq ι] (e : Event ι) (s s' : Sys ι) (h : LeaveInv cfg s)
    (hgood : s.StaysUp) (hstep : (system cfg).step e s = some s') :
    s'.StaysUp ↔ QueueThere cfg e s := by
  cases does h.sys.ok hstep with
  | server id garbage clock hdoes =>
    exact (staysUp_server h.sys hgood hdoes).trans (callFails_iff h id garbage clock)
  | interruptServer hpc => exact iff_of_true (fun _ => .inr rfl) trivial
  | client i id hdoes => cases hdoes <;> exact iff_of_true hgood trivial
  | interruptClient i hpc => exact iff_of_true hgood trivial

end SystemV

/-- **The servers stay up exactly as long as the clients do that they deal with.** -/
theorem staysUp_iff {ι κ : Type*} [DecidableEq ι] [DecidableEq κ] (cfg : Posix.Config ι)
    (es : List (Posix.Event ι)) (cfg' : SystemV.Config κ) (es' : List (SystemV.Event κ)) :
    ((∀ n, ((Posix.system cfg).run (es.take n) cfg.start).StaysUp) ↔
        (Posix.system cfg).Meets Posix.QueueThere es cfg.start) ∧
      ((∀ n, ((SystemV.system cfg').run (es'.take n) cfg'.start).StaysUp) ↔
        (SystemV.system cfg').Meets (SystemV.QueueThere cfg') es' cfg'.start) :=
  ⟨Machine.forall_run_take_iff_meets (fun _ _ _ h hstep => Posix.sysInv_step h hstep)
      Posix.staysUp_step es Posix.sysInv_start (Posix.staysUp_of_status rfl),
    Machine.forall_run_take_iff_meets SystemV.leaveInv_step SystemV.staysUp_step es'
      ⟨SystemV.sysInv_start cfg', SystemV.ownInv_start cfg', SystemV.aimInv_start cfg'⟩
      (SystemV.staysUp_of_status rfl)⟩

/-! ### A client that leaves while it registers -/

/-- One client. -/
def Posix.solo : Posix.Config Unit := ⟨100, fun _ => 101, fun _ => [], fun _ => [nul]⟩

/-- The client is interrupted after `REGISTER`, and its queue is gone before the server
comes to the message. -/
def Posix.registeringRun : List (Posix.Event Unit) :=
  let server := Posix.Event.server 3 ⟨[], clock_nil⟩
  let client := Posix.Event.client ()
  [server, client, client, client, .interruptClient (), client, client, client, server, server,
    server]

/-- One client. -/
def SystemV.solo : SystemV.Config Unit :=
  ⟨.plain, 100, SystemV.hundred_pos, fun _ => 101, fun _ => by decide, 7, SystemV.seven_pos,
    fun _ => [], fun _ => [nul]⟩

@[inherit_doc Posix.registeringRun]
def SystemV.registeringRun : List (SystemV.Event Unit) :=
  let server := SystemV.Event.server 0 0 ⟨[], clock_nil⟩
  let client := SystemV.Event.client () 1
  [server, client, client, client, .interruptClient (), client, server, server, server]

theorem left_while_registering :
    ¬((Posix.system Posix.solo).run Posix.registeringRun Posix.solo.start).StaysUp ∧
      ¬((SystemV.system SystemV.solo).run SystemV.registeringRun SystemV.solo.start).StaysUp := by
  unfold Posix.Sys.StaysUp Posix.Sys.Ended SystemV.Sys.StaysUp SystemV.Sys.Ended
  decide

end MsgQueue
end OpSys
