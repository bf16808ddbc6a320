import OpSys.MsgQueue.SystemV.System

/-!
# What a step can do, with System V queues

Every step of the server or of a client is one of the cases of `ServerDoes` and
`ClientDoes`; what the machine keeps is derived from these alone.

## Main definitions

* `Sys.CallFails` — the system call that the server makes next fails.
* `ServerDoes`, `ClientDoes`, `Does` — the cases.

## Main results

* `does` — every step is one of them.

## References

`lab5_message_queues/SystemV/server.c`, `lab5_message_queues/SystemV/client.c`.
-/

namespace OpSys
namespace MsgQueue
namespace SystemV

open Stdio Ipc

variable {ι : Type*}

/-- The key that `handle_register` uses, if `sscanf` has not come to the end. -/
def clientKey (garbage : ℤ) (content : List UInt8) : Option ℤ :=
  match scanInt content with
  | .eof => none
  | .noMatch => some garbage
  | .value key => some key

/-- The system call that the server makes next fails: a queue is not there, or a
`REGISTER` carries nothing to read a key from. -/
def Sys.CallFails (s : Sys ι) (garbage : ℤ) : Prop :=
  match s.pc with
  | .top => s.data.active = false ∧ ¬(s.kernel.slot s.data.queueDesc).Live
  | .receive => ¬(s.kernel.slot s.data.queueDesc).Live
  | .register p => ∀ key, clientKey garbage p.msg.content = some key →
      key ≠ ipcPrivate ∧ s.kernel.keys key = none
  | .send qid _ => ¬(s.kernel.slot qid).Live
  | _ => False

/-- The server after `msgget` has found the queue of a client. -/
def Sys.answerRegister (cfg : Config ι) (s : Sys ι) (k : Kernel (Packet ι)) (qid : ℤ)
    (p : Packet ι) : Sys ι :=
  { s with
    kernel := k
    data := (registerOpened cfg.server s.data p.msg qid).1
    pc := .send qid { p with msg := (registerOpened cfg.server s.data p.msg qid).2 }
    granted :=
      if s.data.clientCount > maxClients - 1 then s.granted else s.granted ++ [p.origin] }

/-- What the server can do. -/
inductive ServerDoes (cfg : Config ι) (garbage : ℤ) (s : Sys ι) : Sys ι → Prop
  | create (id q : ℤ) (k : Kernel (Packet ι)) (hpc : s.pc = .start)
      (hget : s.kernel.Got (cfg.ftok.key projectId) true id q k) :
      ServerDoes cfg garbage s
        { s with kernel := k, data := { s.data with queueDesc := q }, pc := .top }
  | wait (hpc : s.pc = .top) (hlive : ¬s.CallFails garbage) :
      ServerDoes cfg garbage s { s with pc := .receive }
  | finish (hpc : s.pc = .top) (hactive : s.data.active = false)
      (hslot : s.kernel.slot s.data.queueDesc = .live []) :
      ServerDoes cfg garbage s (s.exitServer 0)
  | receive (clock : Clock) (p : Packet ι) (ps : List (Packet ι)) (hpc : s.pc = .receive)
      (hslot : s.kernel.slot s.data.queueDesc = .live (p :: ps)) :
      ServerDoes cfg garbage s { s.goOn (dispatchRequests cfg.server clock.1 s.data p) with
        kernel := s.kernel.write s.data.queueDesc ps
        dispatched := s.dispatched ++ [p] }
  | openClient (id key qid : ℤ) (k : Kernel (Packet ι)) (p : Packet ι) (hpc : s.pc = .register p)
      (hkey : clientKey garbage p.msg.content = some key)
      (hget : s.kernel.Got key false id qid k) (hqid : qid ≠ -1) :
      ServerDoes cfg garbage s (s.answerRegister cfg k qid p)
  | send (qid : ℤ) (p : Packet ι) (ps : List (Packet ι)) (hpc : s.pc = .send qid p)
      (hslot : s.kernel.slot qid = .live ps) (hroom : ps.length < cfg.capacity) :
      ServerDoes cfg garbage s { s.post (s.kernel.write qid (ps ++ [p])) qid p with pc := .top }
  | fail (hfails : s.CallFails garbage) : ServerDoes cfg garbage s (s.exitServer (-1))
  | remove (status : ℤ) (hpc : s.pc = .remove status) :
      ServerDoes cfg garbage s
        { s with kernel := s.kernel.rmid s.data.queueDesc, pc := .gone status }

/-- The key that was read leads to a queue, or the call of `handle_register` fails. -/
theorem openClient_does {cfg : Config ι} {id garbage key : ℤ} {p : Packet ι} {s s' : Sys ι}
    (hok : s.kernel.Ok) (hpc : s.pc = .register p)
    (hkey : clientKey garbage p.msg.content = some key)
    (h : openClient cfg id key p s = some s') : ServerDoes cfg garbage s s' := by
  obtain ⟨⟨qid, k⟩, hget, hs'⟩ := Option.map_eq_some_iff.mp h
  have hgot := Kernel.msgget_cases hget
  dsimp only at hs'
  by_cases hqid : qid = -1
  · rw [if_pos hqid] at hs'
    subst hs'
    refine .fail ?_
    -- without `IPC_CREAT` the lookup of an unused key is what fails
    simp only [Sys.CallFails, hpc]
    intro key' hkey'
    obtain rfl := Option.some.inj (hkey.symm.trans hkey')
    cases hgot with
    | unnamed hprivate hfresh =>
      have := hfresh.1
      omega
    | found _ hprivate hq =>
      have := hok.key_nonneg hq
      omega
    | made hprivate hnone hcreate hfresh => cases hcreate
    | missing hprivate hnone hcreate => exact ⟨hprivate, hnone⟩
  · rw [if_neg hqid] at hs'
    subst hs'
    exact .openClient id key qid k p hpc hkey hgot hqid

theorem serverDoes {cfg : Config ι} {id garbage : ℤ} {clock : Clock} {s s' : Sys ι}
    (hok : s.kernel.Ok) (h : serverStep cfg id garbage clock s = some s') :
    ServerDoes cfg garbage s s' := by
  unfold serverStep at h
  cases hpc : s.pc with
  | start =>
    simp only [hpc] at h
    obtain ⟨⟨q, k⟩, hget, rfl⟩ := Option.map_eq_some_iff.mp h
    exact .create id q k hpc (Kernel.msgget_cases hget)
  | top =>
    simp only [hpc] at h
    split at h
    · -- `while (active || qnum > 0)`: only an inactive server looks at the queue
      rename_i hactive
      obtain rfl := Option.some.inj h
      refine .wait hpc ?_
      simp [Sys.CallFails, hpc, hactive]
    · rename_i hactive
      cases hslot : s.kernel.slot s.data.queueDesc with
      | live ps =>
        cases ps with
        | nil =>
          simp only [hslot, Option.some.injEq] at h
          subst h
          exact .finish hpc (Bool.eq_false_iff.mpr hactive) hslot
        | cons p ps =>
          simp only [hslot, Option.some.injEq] at h
          subst h
          refine .wait hpc ?_
          simp [Sys.CallFails, hpc, hslot, Slot.Live]
      | unused =>
        simp only [hslot, Option.some.injEq] at h
        subst h
        refine .fail ?_
        simp [Sys.CallFails, hpc, hslot, Slot.Live, hactive]
      | removed =>
        simp only [hslot, Option.some.injEq] at h
        subst h
        refine .fail ?_
        simp [Sys.CallFails, hpc, hslot, Slot.Live, hactive]
  | receive =>
    simp only [hpc] at h
    cases hcall : s.kernel.msgrcv s.data.queueDesc with
    | blocks => simp [hcall] at h
    | fails =>
      simp only [hcall, Option.some.injEq] at h
      subst h
      refine .fail ?_
      simpa [Sys.CallFails, hpc] using Kernel.msgrcv_fails.mp hcall
    | returns r =>
      simp only [hcall, Option.some.injEq] at h
      subst h
      obtain ⟨ps, hslot, hk⟩ := Kernel.msgrcv_returns hcall
      rw [hk]
      exact .receive clock r.1 ps hpc hslot
  | register p =>
    simp only [hpc] at h
    cases hscan : scanInt p.msg.content with
    | eof =>
      -- `sscanf` of an empty text gives `EOF`, and `exit(-1)` follows
      simp only [hscan, Option.some.injEq] at h
      subst h
      refine .fail ?_
      simp [Sys.CallFails, hpc, clientKey, hscan]
    | noMatch =>
      simp only [hscan] at h
      exact openClient_does hok hpc (by rw [clientKey, hscan]) h
    | value key =>
      simp only [hscan] at h
      exact openClient_does hok hpc (by rw [clientKey, hscan]) h
  | send qid p =>
    simp only [hpc] at h
    cases hcall : s.kernel.msgsnd cfg.capacity qid p with
    | blocks => simp [hcall] at h
    | fails =>
      simp only [hcall, Option.some.injEq] at h
      subst h
      refine .fail ?_
      simpa [Sys.CallFails, hpc] using Kernel.msgsnd_fails.mp hcall
    | returns k =>
      simp only [hcall, Option.some.injEq] at h
      subst h
      obtain ⟨ps, hslot, hroom, rfl⟩ := Kernel.msgsnd_returns hcall
      exact .send qid p ps hpc hslot hroom
  | remove status =>
    simp only [hpc, Option.some.injEq] at h
    subst h
    exact .remove status hpc
  | gone status => simp [hpc] at h

theorem not_callFails {s : Sys ι} {p : Packet ι} {garbage key id qid : ℤ}
    {k : Kernel (Packet ι)} (hpc : s.pc = .register p)
    (hkey : clientKey garbage p.msg.content = some key) (hget : s.kernel.Got key false id qid k)
    (hqid : qid ≠ -1) : ¬s.CallFails garbage := by
  intro hfails
  simp only [Sys.CallFails, hpc] at hfails
  obtain ⟨hprivate, hnone⟩ := hfails key hkey
  cases hget with
  | unnamed hkey' hfresh => exact hprivate hkey'
  | found _ hkey' hq => exact Option.some_ne_none _ (hq.symm.trans hnone)
  | made hkey' hnone' hcreate hfresh => cases hcreate
  | missing hkey' hnone' hcreate => exact hqid rfl

/-! ### Clients -/

section Steps

variable [DecidableEq ι]

/-- What a client sends next, whether it then waits for a response, and how it goes on. -/
def ClientPc.sends (cfg : Config ι) (i : ι) (c : Client) : Option (Message × Bool × ClientPc) :=
  match c.pc with
  | .sendRegister =>
    some (⟨typeRegister, cfg.pid i, overwrite (decimal (cfg.ftok.key (cfg.pid i))) (cfg.junk i)⟩,
      true, .receiveSession)
  | .sendRequest answered =>
    some (c.msg, answered, if answered then .receiveResponse else .prompt)
  | _ => none

/-- The message of the client `i` has come into its public queue. -/
def Sys.clientPost (s : Sys ι) (i : ι) (ps : List (Packet ι)) (msg : Message) (answered : Bool)
    (pc : ClientPc) : Sys ι :=
  { (s.post (s.kernel.write (s.client i).queueDesc (ps ++ [⟨msg, i⟩])) (s.client i).queueDesc
      ⟨msg, i⟩).setClient i { s.client i with msg := msg, pc := pc } with
    latest := if answered then Function.update s.latest i (some msg) else s.latest }

/-- The client `i` has taken a message from its private queue. -/
def Sys.clientTake (s : Sys ι) (i : ι) (p : Packet ι) (ps : List (Packet ι)) (c : Client) :
    Sys ι :=
  (s.take (s.kernel.write (s.client i).privQid ps) (s.client i).privQid p).setClient i c

/-- What the client `i` can do. -/
inductive ClientDoes (cfg : Config ι) (i : ι) (s : Sys ι) : Sys ι → Prop
  | openPublic (q : ℤ) (hpc : (s.client i).pc = .openPublic)
      (hkey : s.kernel.keys (cfg.ftok.key projectId) = some q) :
      ClientDoes cfg i s (s.setClient i { s.client i with queueDesc := q, pc := .openPrivate })
  | openPrivate (id q : ℤ) (k : Kernel (Packet ι)) (hpc : (s.client i).pc = .openPrivate)
      (hget : s.kernel.Got (cfg.ftok.key (cfg.pid i)) true id q k) :
      ClientDoes cfg i s ({ s with kernel := k }.setClient i
        { s.client i with privQid := q, pc := .sendRegister })
  | send (msg : Message) (answered : Bool) (pc : ClientPc) (ps : List (Packet ι))
      (hpc : ClientPc.sends cfg i (s.client i) = some (msg, answered, pc))
      (hslot : s.kernel.slot (s.client i).queueDesc = .live ps)
      (hroom : ps.length < cfg.capacity) :
      ClientDoes cfg i s (s.clientPost i ps msg answered pc)
  | session (p : Packet ι) (ps : List (Packet ι)) (hpc : (s.client i).pc = .receiveSession)
      (hslot : s.kernel.slot (s.client i).privQid = .live (p :: ps)) :
      ClientDoes cfg i s (s.clientTake i p ps (readSession (cfg.junk i) (s.client i) p.msg))
  | prompt (hpc : (s.client i).pc = .prompt) :
      ClientDoes cfg i s (s.setClient i (readCommand (cfg.pid i) (s.client i)))
  | response (p : Packet ι) (ps : List (Packet ι)) (hpc : (s.client i).pc = .receiveResponse)
      (hslot : s.kernel.slot (s.client i).privQid = .live (p :: ps)) :
      ClientDoes cfg i s
        (s.clientTake i p ps { s.client i with msg := p.msg, pc := .prompt })
  | exit (status : ℤ) (hpc : (s.client i).pc.status = none) :
      ClientDoes cfg i s (s.setClient i (exitClient (s.client i) status))
  | remove (status : ℤ) (hpc : (s.client i).pc = .remove status) :
      ClientDoes cfg i s ({ s with kernel := s.kernel.rmid (s.client i).privQid }.setClient i
        { s.client i with pc := .gone status })

theorem clientSend_does {cfg : Config ι} {s s' : Sys ι} {i : ι} {msg : Message} {answered : Bool}
    {pc : ClientPc} (hpc : ClientPc.sends cfg i (s.client i) = some (msg, answered, pc))
    (hstatus : (s.client i).pc.status = none)
    (h : clientSend cfg s i msg answered pc = some s') : ClientDoes cfg i s s' := by
  unfold clientSend at h
  cases hcall : s.kernel.msgsnd cfg.capacity (s.client i).queueDesc ⟨msg, i⟩ with
  | blocks => simp [hcall] at h
  | fails =>
    simp only [hcall, Option.some.injEq] at h
    subst h
    exact .exit (-1) hstatus
  | returns k =>
    simp only [hcall, Option.some.injEq] at h
    subst h
    obtain ⟨ps, hslot, hroom, rfl⟩ := Kernel.msgsnd_returns hcall
    exact .send msg answered pc ps hpc hslot hroom

theorem clientReceive_cases {s s' : Sys ι} {i : ι} {k : Message → Client}
    (h : clientReceive s i k = some s') : s' = s.setClient i (exitClient (s.client i) (-1)) ∨
      ∃ p ps, s.kernel.slot (s.client i).privQid = .live (p :: ps) ∧
        s' = s.clientTake i p ps (k p.msg) := by
  unfold clientReceive at h
  cases hcall : s.kernel.msgrcv (s.client i).privQid with
  | blocks => simp [hcall] at h
  | fails =>
    simp only [hcall, Option.some.injEq] at h
    exact .inl h.symm
  | returns r =>
    simp only [hcall, Option.some.injEq] at h
    obtain ⟨ps, hslot, hk⟩ := Kernel.msgrcv_returns hcall
    rw [hk] at h
    exact .inr ⟨r.1, ps, hslot, h.symm⟩

theorem clientDoes {cfg : Config ι} {i : ι} {id : ℤ} {s s' : Sys ι}
    (h : clientStep cfg i id s = some s') : ClientDoes cfg i s s' := by
  unfold clientStep at h
  cases hpc : (s.client i).pc with
  | openPublic =>
    simp only [hpc] at h
    obtain ⟨⟨q, k⟩, hget, hs'⟩ := Option.map_eq_some_iff.mp h
    have hstatus : (s.client i).pc.status = none := by rw [hpc]; rfl
    by_cases hq : q = -1
    · rw [if_pos hq] at hs'
      subst hs'
      exact .exit (-1) hstatus
    · rw [if_neg hq] at hs'
      subst hs'
      -- the key of the public queue is never `IPC_PRIVATE`
      cases Kernel.msgget_cases hget with
      | unnamed hkey hfresh => exact absurd hkey (cfg.ftok.key_ne projectId).2
      | found _ hkey hfound => exact .openPublic q hpc hfound
      | made hkey hnone hcreate hfresh => cases hcreate
      | missing hkey hnone hcreate => exact absurd rfl hq
  | openPrivate =>
    simp only [hpc] at h
    obtain ⟨⟨q, k⟩, hget, rfl⟩ := Option.map_eq_some_iff.mp h
    exact .openPrivate id q k hpc (Kernel.msgget_cases hget)
  | sendRegister =>
    simp only [hpc] at h
    exact clientSend_does (by rw [ClientPc.sends, hpc]) (by rw [hpc]; rfl) h
  | receiveSession =>
    simp only [hpc] at h
    rcases clientReceive_cases h with rfl | ⟨p, ps, hslot, rfl⟩
    · exact .exit (-1) (by rw [hpc]; rfl)
    · exact .session p ps hpc hslot
  | prompt =>
    simp only [hpc, Option.some.injEq] at h
    subst h
    exact .prompt hpc
  | sendRequest answered =>
    simp only [hpc] at h
    exact clientSend_does (by rw [ClientPc.sends, hpc]) (by rw [hpc]; rfl) h
  | receiveResponse =>
    simp only [hpc] at h
    rcases clientReceive_cases h with rfl | ⟨p, ps, hslot, rfl⟩
    · exact .exit (-1) (by rw [hpc]; rfl)
    · exact .response p ps hpc hslot
  | remove status =>
    simp only [hpc, Option.some.injEq] at h
    subst h
    exact .remove status hpc
  | gone status => simp [hpc] at h

/-! ### All processes -/

/-- What the machine can do. -/
inductive Does (cfg : Config ι) (s : Sys ι) : Event ι → Sys ι → Prop
  | server {s' : Sys ι} (id garbage : ℤ) (clock : Clock) (h : ServerDoes cfg garbage s s') :
      Does cfg s (.server id garbage clock) s'
  | interruptServer (hpc : s.pc.status = none) :
      Does cfg s .interruptServer { s with pc := exit s.data 2, interrupted := true }
  | client {s' : Sys ι} (i : ι) (id : ℤ) (h : ClientDoes cfg i s s') :
      Does cfg s (.client i id) s'
  | interruptClient (i : ι) (hpc : (s.client i).pc.status = none) :
      Does cfg s (.interruptClient i) (s.setClient i (exitClient (s.client i) 2))

theorem does {cfg : Config ι} {e : Event ι} {s s' : Sys ι} (hok : s.kernel.Ok)
    (h : (system cfg).step e s = some s') : Does cfg s e s' := by
  cases e with
  | server id garbage clock => exact .server id garbage clock (serverDoes hok h)
  | interruptServer =>
    simp only [system] at h
    split at h
    · rename_i hpc
      obtain rfl := Option.some.inj h
      exact .interruptServer hpc
    · exact absurd h (Option.some_ne_none _).symm
  | client i id => exact .client i id (clientDoes h)
  | interruptClient i =>
    simp only [system] at h
    split at h
    · rename_i hpc
      obtain rfl := Option.some.inj h
      exact .interruptClient i hpc
    · exact absurd h (Option.some_ne_none _).symm

end Steps

end SystemV
end MsgQueue
end OpSys
