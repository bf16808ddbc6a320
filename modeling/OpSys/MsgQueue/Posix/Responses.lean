import Mathlib.Order.Interval.Set.Infinite
import OpSys.Lib.Justice
import OpSys.MsgQueue.Posix.Answers

/-!
# Every request is answered, with POSIX queues

A client that waits for a response gets it in the end, unless the server comes to `exit` or
the client itself is interrupted, in every history that is just to the server and to the
client.  The server never waits for room in the queue of a client, and every message that it
handles brings it nearer to the request of the client, whatever the other clients do.

## Main definitions

* `received` — what the response makes of a client that waits.
* `Awaiting`, `Settled` — the client still waits; how its waiting ends.
* `Event.OfServer`, `Event.OfClient` — the steps of the server and of a client.
* `Sys.toGo` — how many steps the server is away from the response.

## Main results

* `toGo_server`, `toGo_elsewhere` — what the steps do to that number.
* `enabled_server` — the server can go on as long as there is no response.
* `gets_response`.

## References

`lab5_message_queues/POSIX/server.c`, `lab5_message_queues/POSIX/client.c`.
-/

namespace OpSys
namespace MsgQueue
namespace Posix

open Stdio

variable {ι : Type*}

/-- The client when it has taken the response. -/
def received (cfg : Config ι) (i : ι) (c : Client ι) (resp : Message) : Client ι :=
  if c.pc = .receiveSession then readSession cfg i c resp else { c with msg := resp, pc := .prompt }

instance : Nonempty (Event ι) := ⟨.interruptServer⟩

/-- A step of the server. -/
def Event.OfServer : Event ι → Prop
  | .server _ _ => True
  | .interruptServer => False
  | .client _ => False
  | .interruptClient _ => False

/-- A step of the client `i`. -/
def Event.OfClient (i : ι) : Event ι → Prop
  | .server _ _ => False
  | .interruptServer => False
  | .client j => j = i
  | .interruptClient _ => False

/-- A bound for the steps of the server up to its next `mq_receive`. -/
def ServerPc.toGo : ServerPc → ℕ
  | .receive => 1
  | .top => 2
  | .closeRefused _ => 3
  | .login _ _ => 3
  | .respond _ _ => 3
  | .quit _ => 3
  | .refuse _ _ => 4
  | .register _ => 5
  | _ => 0

/-- A bound for the steps of the server up to the response for the client `pid`. -/
def Sys.toGo (pid : ℤ) (s : Sys ι) : ℕ := 5 * upTo (requestOf pid) (s.queue none) + s.pc.toGo

/-! ### Steps of the server -/

theorem Dispatched.toGo_le {server : ℤ} {d : ServerData} {m : Message} {p : ServerData × ServerPc}
    (hp : Dispatched server d m p) : p.2.toGo ≤ 5 := by
  cases hp with
  | register htype => exact le_rfl
  | _ => simp [ServerPc.toGo]

theorem toGo_registerOpened (server : ℤ) (d : ServerData) (msg : Message) (qid : ℤ) :
    (registerOpened server d msg qid).2.toGo ≤ 4 := by
  unfold registerOpened
  split
  · exact le_rfl
  · simp [ServerPc.toGo]

theorem toGo_of_sends {pc pc' : ServerPc} {qid : ℤ} {msg : Message}
    (h : pc.sends = some (qid, msg, pc')) : pc'.toGo < pc.toGo := by
  cases pc with
  | refuse qid' msg' =>
    obtain ⟨-, -, rfl⟩ := by simpa only [ServerPc.sends, Option.some.injEq, Prod.mk.injEq] using h
    simp [ServerPc.toGo]
  | login qid' msg' =>
    obtain ⟨-, -, rfl⟩ := by simpa only [ServerPc.sends, Option.some.injEq, Prod.mk.injEq] using h
    simp [ServerPc.toGo]
  | respond qid' msg' =>
    obtain ⟨-, -, rfl⟩ := by simpa only [ServerPc.sends, Option.some.injEq, Prod.mk.injEq] using h
    simp [ServerPc.toGo]
  | _ => exact absurd h (Option.some_ne_none _).symm

theorem toGo_of_closes {pc : ServerPc} {d d' : ServerData} {qid : ℤ}
    (h : pc.closes d = some (qid, d')) : pc.toGo = 3 := by
  cases pc with
  | closeRefused qid' => rfl
  | quit k => rfl
  | _ => exact absurd h (Option.some_ne_none _).symm

section Server

variable [DecidableEq ι] {cfg : Config ι} {s s' : Sys ι} {i : ι}

/-- Nothing is in the hand of a server that is about to receive, or has not started. -/
theorem hand_of_toGo {pc : ServerPc} (h : pc.toGo ≤ 2) : hand cfg s.fds i pc = [] := by
  cases pc with
  | register msg => exact absurd h (by simp [ServerPc.toGo])
  | refuse qid msg => exact absurd h (by simp [ServerPc.toGo])
  | login qid msg => exact absurd h (by simp [ServerPc.toGo])
  | respond qid msg => exact absurd h (by simp [ServerPc.toGo])
  | _ => rfl

/-- Where the request of a client is that waits in vain. -/
theorem request_pending (h : TalkInv cfg s) (hrunning : s.pc.status = none)
    (hwaits : (s.client i).pc.Waits) (hnone : s.queue (some i) = []) (hgo : s.pc.toGo ≤ 2) :
    0 < upTo (requestOf (cfg.pid i)) (s.queue none) := by
  have hphase : (s.talk cfg i).phase = .joining ∨ (s.talk cfg i).phase = .asking :=
    hwaits.imp (congrArg ClientPc.phase) (congrArg ClientPc.phase)
  have hkept : s.flight cfg i ≠ [] := (h.orderly i).kept hphase (not_failed hrunning)
  rw [flight_eq, hnone, hand_of_toGo hgo, List.map_nil, List.nil_append, List.nil_append] at hkept
  obtain ⟨m, hm⟩ := List.exists_mem_of_ne_nil _ (mt (congrArg (List.map Slip.asked)) hkept)
  obtain ⟨hqueue, hreq⟩ := List.mem_filter.mp hm
  exact upTo_pos hqueue hreq

/-- **A step of the server brings the response nearer**, or is its `exit`. -/
theorem toGo_server (h : TalkInv cfg s) (hrunning : s.pc.status = none)
    (hwaits : (s.client i).pc.Waits) (hnone : s.queue (some i) = []) (hdoes : ServerDoes cfg s s') :
    s'.pc.status ≠ none ∨ s'.toGo (cfg.pid i) < s.toGo (cfg.pid i) := by
  have hexit : ∀ status, (s.exitServer status).pc.status ≠ none := by
    intro status
    show (exit s.data status).status ≠ none
    rw [exit_status]
    exact Option.some_ne_none _
  have hlower : ∀ pc : ServerPc, s'.queue none = s.queue none → s'.pc = pc →
      pc.toGo < s.pc.toGo → s'.toGo (cfg.pid i) < s.toGo (cfg.pid i) := by
    intro pc hqueue hpc hlt
    -- the other steps take no message, so only the place in the loop counts
    rw [Sys.toGo, Sys.toGo, hqueue, hpc]
    omega
  cases hdoes with
  -- before the start of the server the queue holds no request
  | create fd q hpc hfd hq =>
    have hpos := request_pending h hrunning hwaits hnone (by rw [hpc]; decide)
    rw [(h.sys.fresh hpc).queue] at hpos
    exact absurd hpos (Nat.lt_irrefl 0)
  | wait hpc => exact .inr (hlower .receive rfl rfl (by rw [hpc]; decide))
  | finish q hpc hactive hfd hempty => exact .inl (hexit 0)
  | receive clock q m ms hpc hfd hq =>
    have hfds := h.sys.fds (.of_eq hpc ServerPc.noConfusion rfl)
    obtain rfl := hfds.public_eq hfd
    have hpos := request_pending h hrunning hwaits hnone (by rw [hpc]; decide)
    rw [hq] at hpos
    have hcons := upTo_cons hpos
    have hle := (hfds.dispatched cfg.server clock m).toGo_le
    have hqueue : Function.update s.queue none ms none = ms := Function.update_self ..
    -- a message less in the queue is worth five steps of the loop
    right
    show 5 * upTo (requestOf (cfg.pid i)) (Function.update s.queue none ms none) +
      (dispatchRequest cfg.server clock.1 s.data m).2.toGo < s.toGo (cfg.pid i)
    rw [hqueue, Sys.toGo, hq, hcons, hpc, ServerPc.toGo]
    omega
  | openClient fd msg q hpc hlink hfd =>
    have hle := toGo_registerOpened cfg.server s.data msg fd
    refine .inr (hlower _ rfl rfl (hle.trans_lt ?_))
    simp [hpc, ServerPc.toGo]
  | send qid msg pc q hpc hfd hroom =>
    obtain ⟨j, hj⟩ := (h.sys.fds (sends_running hpc).1).of_sends hpc
    obtain rfl : q = some j := Option.some.inj (hfd.symm.trans hj)
    have hqueue : Function.update s.queue (some j) (s.queue (some j) ++ [msg]) none =
        s.queue none := Function.update_of_ne (Option.some_ne_none j).symm ..
    -- what the server sends goes to a private queue, and the public one stays
    exact .inr (hlower pc hqueue rfl (toGo_of_sends hpc))
  | close qid d q hpc hfd =>
    refine .inr (hlower .top rfl rfl ?_)
    rw [toGo_of_closes hpc]
    decide
  | closing status fd pc hpc hpc' => exact absurd (hpc.symm.trans hrunning) (Option.some_ne_none _)
  | unlink status hpc =>
    rw [hpc] at hrunning
    exact absurd hrunning (Option.some_ne_none _)
  | _ => exact .inl (hexit (-1))

/-- The server does not touch the clients, and sends to a client whose queue is empty. -/
theorem server_keeps (h : TalkInv cfg s) (hdoes : ServerDoes cfg s s') (i : ι) :
    s'.client i = s.client i ∧ s'.latest i = s.latest i ∧
      (s.queue (some i) ≠ [] → s'.queue (some i) = s.queue (some i)) := by
  cases hdoes with
  | receive clock q m ms hpc hfd hq =>
    have hfds := h.sys.fds (.of_eq hpc ServerPc.noConfusion rfl)
    obtain rfl := hfds.public_eq hfd
    have hqueue : Function.update s.queue none ms (some i) = s.queue (some i) :=
      Function.update_of_ne (Option.some_ne_none i) ..
    exact ⟨rfl, rfl, fun _ => hqueue⟩
  | send qid msg pc q hpc hfd hroom =>
    obtain ⟨j, hj, hempty⟩ := h.unblocked qid msg pc hpc
    obtain rfl : q = some j := Option.some.inj (hfd.symm.trans hj)
    -- the server sends to empty private queues only
    refine ⟨rfl, rfl, fun hne => ?_⟩
    have hij : some i ≠ some j := by
      rintro heq
      exact hne (heq ▸ hempty)
    have hqueue : Function.update s.queue (some j) (s.queue (some j) ++ [msg]) (some i) =
        s.queue (some i) := Function.update_of_ne hij ..
    exact hqueue
  | _ => exact ⟨rfl, rfl, fun _ => rfl⟩

end Server

/-! ### Descriptors -/

/-- Only finitely many descriptors of the server are in use. -/
def Sys.Spare (s : Sys ι) : Prop := {fd | s.fds fd ≠ none}.Finite

theorem Sys.Spare.exists_free {s : Sys ι} (h : s.Spare) : ∃ fd, 0 ≤ fd ∧ s.fds fd = none := by
  obtain ⟨fd, hfd, hfree⟩ := (Set.Ici_infinite (0 : ℤ)).exists_notMem_finite h
  exact ⟨fd, hfd, by_contra hfree⟩

theorem Sys.Spare.setFd {s : Sys ι} (h : s.Spare) (fd : ℤ) (q : Option (Option ι)) :
    (s.setFd fd q).Spare := by
  refine (h.insert fd).subset fun fd' hfd' => ?_
  by_cases heq : fd' = fd
  · exact .inl heq
  · have hsame : Function.update s.fds fd q fd' = s.fds fd' := Function.update_of_ne heq ..
    right
    have hne : Function.update s.fds fd q fd' ≠ none := hfd'
    rwa [hsame] at hne

section Steps

variable [DecidableEq ι] {cfg : Config ι} {s s' : Sys ι} {e : Event ι} {i j : ι}

theorem spare_step (h : s.Spare) (hstep : (system cfg).step e s = some s') : s'.Spare := by
  cases does hstep with
  | server fd clock hdoes =>
    cases hdoes with
    | create fd' q hpc hfd hq => exact h.setFd fd' (some q)
    | openClient fd' msg q hpc hlink hfd => exact h.setFd fd' (some q)
    | close qid d q hpc hfd => exact h.setFd qid none
    | closing status fd' pc hpc hpc' => exact h.setFd fd' none
    | _ => exact h
  | interruptServer hpc => exact h
  | client j hdoes => cases hdoes <;> exact h
  | interruptClient j hpc => exact h

/-- The server can send. -/
theorem serverSend_isSome (h : TalkInv cfg s) {qid : ℤ} {msg : Message} {pc : ServerPc}
    (hpc : s.pc.sends = some (qid, msg, pc)) : (s.serverSend qid msg pc).isSome := by
  obtain ⟨j, hfd, hempty⟩ := h.unblocked qid msg pc hpc
  have hroom : (s.queue (some j)).length < maxMsgs := by
    rw [hempty]
    decide
  simp only [Sys.serverSend, hfd, Sys.put, if_pos hroom]
  rfl

/-- **The server can go on** as long as the client waits in vain. -/
theorem enabled_server (h : TalkInv cfg s) (hspare : s.Spare) (hrunning : s.pc.status = none)
    (hwaits : (s.client i).pc.Waits) (hnone : s.queue (some i) = []) :
    (system cfg).Enabled Event.OfServer s := by
  obtain ⟨fd, hfree⟩ := hspare.exists_free
  -- a client that waits has its request in the queue or in the server's hand
  have hpos := request_pending h hrunning hwaits hnone
  suffices hsome : (serverStep cfg fd ⟨[], clock_nil⟩ s).isSome by
    obtain ⟨s', hs'⟩ := Option.isSome_iff_exists.mp hsome
    exact ⟨.server fd ⟨[], clock_nil⟩, s', trivial, hs'⟩
  cases hpc : s.pc with
  | start =>
    have hpos' := hpos (by rw [hpc]; decide)
    rw [(h.sys.fresh hpc).queue] at hpos'
    exact absurd hpos' (Nat.lt_irrefl 0)
  | top =>
    simp only [serverStep, hpc]
    split
    · rfl
    · split
      · rfl
      · split
        · rfl
        · rfl
  | receive =>
    have hfd := (h.sys.fds (.of_eq hpc ServerPc.noConfusion rfl)).public_fd
    cases hq : s.queue none with
    | nil =>
      have hpos' := hpos (by rw [hpc]; decide)
      rw [hq] at hpos'
      -- with nothing in the queue the request is in hand, so the server is not in `mq_receive`
      exact absurd hpos' (Nat.lt_irrefl 0)
    | cons m ms =>
      simp only [serverStep, hpc, hfd, hq]
      rfl
  | register msg =>
    simp only [serverStep, hpc]
    split
    · rfl
    · rw [if_pos hfree]
      rfl
  | refuse qid msg =>
    simp only [serverStep, hpc]
    exact serverSend_isSome h (by rw [hpc]; rfl)
  | login qid msg =>
    simp only [serverStep, hpc]
    exact serverSend_isSome h (by rw [hpc]; rfl)
  | respond qid msg =>
    simp only [serverStep, hpc]
    exact serverSend_isSome h (by rw [hpc]; rfl)
  | closeRefused qid =>
    simp only [serverStep, hpc]
    rfl
  | quit k =>
    simp only [serverStep, hpc]
    rfl
  | _ =>
    rw [hpc] at hrunning
    exact absurd hrunning (Option.some_ne_none _)

/-! ### Steps of the clients -/

/-- **Another client leaves everything alone** that the client `i` waits for. -/
theorem elsewhere (h : SysInv cfg s) (hinj : Function.Injective cfg.pid) (hij : i ≠ j)
    (hdoes : ClientDoes cfg j s s') : s'.client i = s.client i ∧ s'.latest i = s.latest i ∧
      s'.queue (some i) = s.queue (some i) ∧ s'.toGo (cfg.pid i) = s.toGo (cfg.pid i) := by
  have hset : ∀ c : Client ι, (s.setClient j c).client i = s.client i := setClient_of_ne hij
  have hput : ∀ {msg answered}, Asks (cfg.pid j) answered msg →
      Function.update s.queue none (s.queue none ++ [msg]) (some i) = s.queue (some i) ∧
        upTo (requestOf (cfg.pid i))
          (Function.update s.queue none (s.queue none ++ [msg]) none) =
            upTo (requestOf (cfg.pid i)) (s.queue none) := by
    -- a message of `j` is no request of `i`
    intro msg answered hmsg
    have hreq : requestOf (cfg.pid i) msg = false := by
      rw [← Bool.not_eq_true, requestOf_asks hmsg]
      exact fun hpid => hij (hinj hpid.1).symm
    rw [Function.update_self, upTo_concat hreq]
    exact ⟨Function.update_of_ne (Option.some_ne_none i) .., rfl⟩
  have htake : ∀ {q} ms, (s.client j).privQid = some q →
      Function.update s.queue q ms (some i) = s.queue (some i) ∧
        Function.update s.queue q ms none = s.queue none := by
    intro q ms hpriv
    obtain rfl := priv_own h hinj hpriv
    have hne : some i ≠ some j := fun heq => hij (Option.some.inj heq)
    exact ⟨Function.update_of_ne hne .., Function.update_of_ne (Option.some_ne_none j).symm ..⟩
  cases hdoes with
  | ask msg pc q hpc hpub hroom =>
    obtain rfl := (h.client j).pub q hpub
    obtain ⟨hinbox, hgo⟩ := hput ((h.client j).of_asks hpc)
    exact ⟨hset _, Function.update_of_ne hij .., hinbox, congrArg (5 * · + s.pc.toGo) hgo⟩
  | tell msg pc q hpc hpub hroom =>
    obtain rfl := (h.client j).pub q hpub
    obtain ⟨hinbox, hgo⟩ := hput ((h.client j).of_tells hpc)
    exact ⟨hset _, rfl, hinbox, congrArg (5 * · + s.pc.toGo) hgo⟩
  | session q m ms hpc hpriv hq =>
    obtain ⟨hinbox, hpublic⟩ := htake ms hpriv
    exact ⟨hset _, rfl, hinbox, congrArg (5 * upTo (requestOf (cfg.pid i)) · + s.pc.toGo) hpublic⟩
  | response q m ms hpc hpriv hq =>
    obtain ⟨hinbox, hpublic⟩ := htake ms hpriv
    exact ⟨hset _, rfl, hinbox, congrArg (5 * upTo (requestOf (cfg.pid i)) · + s.pc.toGo) hpublic⟩
  | _ => exact ⟨hset _, rfl, rfl, rfl⟩

omit [DecidableEq ι] in
/-- A client that waits sends nothing, and is not past `exit`. -/
theorem ClientPc.Waits.quiet {c : Client ι} (h : c.pc.Waits) (cfg : Config ι) (i : ι) :
    ClientPc.asks cfg i c = none ∧ ClientPc.tells cfg i c = none ∧ c.pc.status = none := by
  rcases h with hpc | hpc
  · simp [ClientPc.asks, ClientPc.tells, hpc, ClientPc.status]
  · simp [ClientPc.asks, ClientPc.tells, hpc, ClientPc.status]

/-- A client that waits takes the response. -/
theorem own (h : TalkInv cfg s) (hinj : Function.Injective cfg.pid)
    (hwaits : (s.client i).pc.Waits) (hdoes : ClientDoes cfg i s s') :
    ∃ resp, s.queue (some i) = [resp] ∧ s'.client i = received cfg i (s.client i) resp := by
  obtain ⟨hasks, htells, hstatus⟩ := hwaits.quiet cfg i
  -- a client has at most one response in its queue
  have hone : ∀ {q : Option ι} {m ms}, (s.client i).privQid = some q → s.queue q = m :: ms →
      s.queue (some i) = [m] := by
    intro q m ms hpriv hq
    obtain rfl := priv_own h.sys hinj hpriv
    have hle := h.one_response i
    rw [hq, List.length_cons] at hle
    obtain rfl : ms = [] := List.length_eq_zero_iff.mp (by omega)
    exact hq
  have hset : ∀ c : Client ι, (s.setClient i c).client i = c := fun c => Function.update_self ..
  have hnot : ∀ {pc}, pc ≠ .receiveSession → pc ≠ .receiveResponse → (s.client i).pc ≠ pc := by
    rintro pc hsession hresponse rfl
    exact hwaits.elim hsession hresponse
  cases hdoes with
  | session q m ms hpc hpriv hq =>
    refine ⟨m, hone hpriv hq, ?_⟩
    rw [received, if_pos hpc]
    exact hset _
  | response q m ms hpc hpriv hq =>
    refine ⟨m, hone hpriv hq, ?_⟩
    rw [received, if_neg (by rw [hpc]; exact ClientPc.noConfusion)]
    exact hset _
  | noServer hpc hlink => exact absurd hpc (hnot ClientPc.noConfusion ClientPc.noConfusion)
  | openPublic q hpc hlink => exact absurd hpc (hnot ClientPc.noConfusion ClientPc.noConfusion)
  | openPrivate q hpc hlink => exact absurd hpc (hnot ClientPc.noConfusion ClientPc.noConfusion)
  | ask msg pc q hpc hpub hroom => exact absurd (hasks.symm.trans hpc) (Option.some_ne_none _).symm
  | tell msg pc q hpc hpub hroom =>
    exact absurd (htells.symm.trans hpc) (Option.some_ne_none _).symm
  | prompt hpc => exact absurd hpc (hnot ClientPc.noConfusion ClientPc.noConfusion)
  | closing status pc hpc hpc' =>
    exact absurd (hstatus.symm.trans hpc) (Option.some_ne_none _).symm
  | unlink status hpc => exact absurd hpc (hnot ClientPc.noConfusion ClientPc.noConfusion)

end Steps

/-! ### Runs -/

section Runs

variable [DecidableEq ι] {cfg : Config ι} {s s' : Sys ι} {es : ℕ → Event ι} {i : ι}
  {c : Client ι} {latest : Option (Message × Bool)}

/-- The client `i` still is as `c`, which waits, with the request that it made. -/
structure Awaiting (cfg : Config ι) (i : ι) (c : Client ι) (latest : Option (Message × Bool))
    (s : Sys ι) : Prop where
  talk : TalkInv cfg s
  spare : s.Spare
  waits : c.pc.Waits
  client : s.client i = c
  latest_eq : s.latest i = latest

/-- A step of the system that is none of the client `i`, nor an interruption of it. -/
theorem Awaiting.step (h : Awaiting cfg i c latest s) (hinj : Function.Injective cfg.pid)
    {e : Event ι} (he : ¬e.OfClient i) (hinterrupt : e ≠ .interruptClient i)
    (hstep : (system cfg).step e s = some s') :
    Awaiting cfg i c latest s' ∧
      (s.queue (some i) ≠ [] → s'.queue (some i) = s.queue (some i)) := by
  have htalk := talkInv_step h.talk hinj hstep
  have hspare := spare_step h.spare hstep
  cases does hstep with
  | server fd clock hdoes =>
    obtain ⟨hclient, hlatest, hinbox⟩ := server_keeps h.talk hdoes i
    exact ⟨⟨htalk, hspare, h.waits, hclient.trans h.client, hlatest.trans h.latest_eq⟩, hinbox⟩
  | interruptServer hpc =>
    exact ⟨⟨htalk, hspare, h.waits, h.client, h.latest_eq⟩, fun _ => rfl⟩
  | client j hdoes =>
    obtain ⟨hclient, hlatest, hinbox, -⟩ := elsewhere h.talk.sys hinj (Ne.symm he) hdoes
    exact ⟨⟨htalk, hspare, h.waits, hclient.trans h.client, hlatest.trans h.latest_eq⟩,
      fun _ => hinbox⟩
  | interruptClient j hpc =>
    have hij : i ≠ j := fun heq => hinterrupt (congrArg Event.interruptClient heq.symm)
    have hclient := setClient_of_ne (s := s) hij (exitClient (s.client j) 2)
    exact ⟨⟨htalk, hspare, h.waits, hclient.trans h.client, h.latest_eq⟩, fun _ => rfl⟩

/-- A client that is interrupted has left. -/
theorem left_of_interrupt (hstep : (system cfg).step (.interruptClient i) s = some s') :
    (s'.client i).pc.phase = .left := by
  cases does hstep with
  | interruptClient j hpc =>
    have hclient : (s.setClient i (exitClient (s.client i) 2)).client i =
        exitClient (s.client i) 2 := Function.update_self ..
    rw [hclient]
    exact phase_exitClient _ 2

/-- The server has ended, the client has left, or the response is there. -/
def Reached (cfg : Config ι) (i : ι) (c : Client ι) (latest : Option (Message × Bool))
    (s : Sys ι) : Prop :=
  s.pc.status ≠ none ∨ (s.client i).pc.phase = .left ∨
    Awaiting cfg i c latest s ∧ s.queue (some i) ≠ []

/-- **The server comes to the request.** -/
theorem Awaiting.reached (h : Awaiting cfg i c latest s) (hinj : Function.Injective cfg.pid)
    (hserver : (system cfg).Just Event.OfServer es s) :
    ∃ n, Reached cfg i c latest ((system cfg).trace es s n) := by
  -- as long as it is not reached, the server runs and the client waits at an empty queue
  have hopen : ∀ s, Awaiting cfg i c latest s → ¬Reached cfg i c latest s →
      s.pc.status = none ∧ (s.client i).pc.Waits ∧ s.queue (some i) = [] := by
    intro s h hnot
    rw [Reached, not_or, not_or, not_not] at hnot
    refine ⟨hnot.1, h.client ▸ h.waits, ?_⟩
    by_contra hne
    exact hnot.2.2 ⟨h, hne⟩
  have hcan : ∀ s, Awaiting cfg i c latest s → ¬Reached cfg i c latest s →
      (system cfg).Enabled Event.OfServer s := by
    intro s h hnot
    obtain ⟨hrunning, hwaits, hnone⟩ := hopen s h hnot
    exact enabled_server h.talk h.spare hrunning hwaits hnone
  have hstep : ∀ e s s', Awaiting cfg i c latest s → ¬Reached cfg i c latest s →
      (system cfg).step e s = some s' → Reached cfg i c latest s' ∨ Awaiting cfg i c latest s' ∧
        s'.toGo (cfg.pid i) ≤ s.toGo (cfg.pid i) ∧
          (e.OfServer → s'.toGo (cfg.pid i) < s.toGo (cfg.pid i)) := by
    intro e s s' h hnot hs
    obtain ⟨hrunning, hwaits, hnone⟩ := hopen s h hnot
    have hgo : ¬e.OfClient i → s'.toGo (cfg.pid i) ≤ s.toGo (cfg.pid i) →
        (e.OfServer → s'.toGo (cfg.pid i) < s.toGo (cfg.pid i)) →
        Reached cfg i c latest s' ∨ Awaiting cfg i c latest s' ∧
          s'.toGo (cfg.pid i) ≤ s.toGo (cfg.pid i) ∧
            (e.OfServer → s'.toGo (cfg.pid i) < s.toGo (cfg.pid i)) := by
      intro he hle hlt
      by_cases hinterrupt : e = .interruptClient i
      · subst hinterrupt
        exact .inl (.inr (.inl (left_of_interrupt hs)))
      · exact .inr ⟨(h.step hinj he hinterrupt hs).1, hle, hlt⟩
    cases does hs with
    | server fd clock hdoes =>
      rcases toGo_server h.talk hrunning hwaits hnone hdoes with hended | hlt
      · exact .inl (.inl hended)
      · exact hgo not_false hlt.le fun _ => hlt
    | interruptServer hpc =>
      refine .inl (.inl ?_)
      show (exit s.data 2).status ≠ none
      rw [exit_status]
      exact Option.some_ne_none _
    | client j hdoes =>
      -- the client that waits has nothing to take yet
      by_cases hij : i = j
      · subst hij
        obtain ⟨resp, hresp, -⟩ := own h.talk hinj hwaits hdoes
        exact absurd (hresp.symm.trans hnone) (List.cons_ne_nil _ _)
      · obtain ⟨-, -, -, hsame⟩ := elsewhere h.talk.sys hinj hij hdoes
        exact hgo (Ne.symm hij) hsame.le False.elim
    | interruptClient j hpc => exact hgo not_false le_rfl False.elim
  have hstart : Awaiting cfg i c latest ((system cfg).trace es s 0) := h
  obtain ⟨n, -, hn⟩ := hserver.leads_to _ _ (Sys.toGo (cfg.pid i)) hcan hstep hstart
  exact ⟨n, hn⟩

/-- The client can take the response. -/
theorem Awaiting.enabled (h : Awaiting cfg i c latest s) (hinj : Function.Injective cfg.pid)
    {resp : Message} (hresp : s.queue (some i) = [resp]) :
    (system cfg).Enabled (Event.OfClient i) s := by
  have hwaits : (s.client i).pc.Waits := h.client ▸ h.waits
  have hpriv : (s.client i).privQid = some (some i) := by
    have hopened := (h.talk.sys.client i).opened
      (by rcases hwaits with hpc | hpc <;> rw [hpc] <;> exact ClientPc.noConfusion)
      (by rcases hwaits with hpc | hpc <;> rw [hpc] <;> exact ClientPc.noConfusion)
      (hwaits.quiet cfg i).2.2
    obtain ⟨q, hq⟩ := Option.isSome_iff_exists.mp hopened
    rw [hq, priv_own h.talk.sys hinj hq]
  suffices hsome : (clientStep cfg i s).isSome by
    obtain ⟨s', hs'⟩ := Option.isSome_iff_exists.mp hsome
    exact ⟨.client i, s', rfl, hs'⟩
  rcases hwaits with hpc | hpc
  · simp only [clientStep, hpc, clientReceive, hpriv, hresp]
    rfl
  · simp only [clientStep, hpc, clientReceive, hpriv, hresp]
    rfl

/-- **The client comes to the response.** -/
theorem Awaiting.taken (hinj : Function.Injective cfg.pid)
    (hclient : (system cfg).Just (Event.OfClient i) es s) {n : ℕ} {resp : Message}
    (hn : Awaiting cfg i c latest ((system cfg).trace es s n))
    (hresp : ((system cfg).trace es s n).queue (some i) = [resp]) :
    ∃ m, (((system cfg).trace es s m).client i).pc.phase = .left ∨
      ((system cfg).trace es s m).client i = received cfg i c resp := by
  have hcan : ∀ s, Awaiting cfg i c latest s ∧ s.queue (some i) = [resp] →
      ¬((s.client i).pc.phase = .left ∨ s.client i = received cfg i c resp) →
      (system cfg).Enabled (Event.OfClient i) s := by
    rintro s ⟨h, hresp⟩ -
    exact h.enabled hinj hresp
  have hstep : ∀ e s s', Awaiting cfg i c latest s ∧ s.queue (some i) = [resp] →
      -- the measure is constant, the step of the client itself is what is waited for
      ¬((s.client i).pc.phase = .left ∨ s.client i = received cfg i c resp) →
      (system cfg).step e s = some s' →
      ((s'.client i).pc.phase = .left ∨ s'.client i = received cfg i c resp) ∨
        (Awaiting cfg i c latest s' ∧ s'.queue (some i) = [resp]) ∧ 0 ≤ 0 ∧
          (e.OfClient i → 0 < 0) := by
    rintro e s s' ⟨h, hresp⟩ - hs
    by_cases he : e.OfClient i
    · cases does hs with
      | client j hdoes =>
        obtain rfl : j = i := he
        obtain ⟨resp', hresp', hclient⟩ := own h.talk hinj (h.client ▸ h.waits) hdoes
        obtain rfl : resp' = resp := List.singleton_inj.mp (hresp'.symm.trans hresp)
        rw [h.client] at hclient
        exact .inl (.inr hclient)
      | _ => exact he.elim
    · by_cases hinterrupt : e = .interruptClient i
      · subst hinterrupt
        exact .inl (.inl (left_of_interrupt hs))
      · obtain ⟨h', hinbox⟩ := h.step hinj he hinterrupt hs
        refine .inr ⟨⟨h', ?_⟩, le_rfl, fun hkind => absurd hkind he⟩
        rw [hinbox (by rw [hresp]; exact List.cons_ne_nil _ _), hresp]
  obtain ⟨m, -, hm⟩ := hclient.leads_to _ _ (fun _ => 0) hcan hstep ⟨hn, hresp⟩
  exact ⟨m, hm⟩

omit [DecidableEq ι] in
/-- The client has taken its response, and does not wait any more. -/
theorem not_waits_received (cfg : Config ι) (i : ι) (c : Client ι) (resp : Message) :
    ¬(received cfg i c resp).pc.Waits := by
  have hphase : (received cfg i c resp).pc.phase = .ready ∨
      (received cfg i c resp).pc.phase = .left := by
    unfold received
    split
    · exact (phase_readSession cfg i c resp).imp_left And.left
    · exact .inl rfl
  rintro (hpc | hpc)
  · rw [hpc] at hphase
    simp [ClientPc.phase] at hphase
  · rw [hpc] at hphase
    simp [ClientPc.phase] at hphase

/-- The client `i` takes the only message out of its queue: the response that the server has
made from this client's latest request. -/
def TakesResponse (cfg : Config ι) (i : ι) (w w' : Sys ι × Trail ι) : Prop :=
  ∃ req inTime resp, w.1.latest i = some (req, inTime) ∧ w.2.Latest cfg i req ∧
    w.1.queue (some i) = [resp] ∧ w.2.stamps (some i) = [(i, w.2.asked i)] ∧
      Answers cfg.server req resp ∧ w'.1.client i = received cfg i (w.1.client i) resp

/-- How the waiting of the client `i` ends with the event `e`: the server is past `exit`,
`SIGINT` reaches the client, or it takes the response. -/
def Settled (cfg : Config ι) (i : ι) (e : Event ι) (w w' : Sys ι × Trail ι) : Prop :=
  w.1.pc.status ≠ none ∨ e = .interruptClient i ∨ e = .client i ∧ TakesResponse cfg i w w'

/-- The client `i` is as it was in `w`, with the same latest request. -/
structure Unmoved (i : ι) (w v : Sys ι × Trail ι) : Prop where
  client : v.1.client i = w.1.client i
  latest : v.1.latest i = w.1.latest i
  asked : v.2.asked i = w.2.asked i

/-- What is known of the system and the trail, whatever happens. -/
structure Known (cfg : Config ι) (w : Sys ι × Trail ι) : Prop where
  talk : TalkInv cfg w.1
  trail : TrailInv cfg w.1 w.2
  spare : w.1.Spare

theorem Known.step (hinj : Function.Injective cfg.pid) (e : Event ι) (w w' : Sys ι × Trail ι)
    (h : Known cfg w) (hstep : (tracked cfg).step e w = some w') : Known cfg w' := by
  obtain ⟨-, hs, hfollow⟩ := Machine.watch_step_eq_some.mp hstep
  exact ⟨talkInv_step h.talk hinj hs, hfollow ▸ trailInv_step h.trail h.talk hinj hs,
    spare_step h.spare hs⟩

theorem known_of_reach (hinj : Function.Injective cfg.pid) {w : Sys ι × Trail ι}
    (hreach : (tracked cfg).Reach (cfg.start, Trail.start) w) : Known cfg w := by
  have hspare : cfg.start.Spare := Set.finite_empty.subset fun fd hfd => absurd rfl hfd
  exact hreach.invariant (Known.step hinj) ⟨talkInv_start, trailInv_start, hspare⟩

/-- The client's next step, when there is a message in its queue. -/
theorem takes_response (hinj : Function.Injective cfg.pid) {w w' : Sys ι × Trail ι}
    (h : Known cfg w) (hwaits : (w.1.client i).pc.Waits)
    (hstep : (tracked cfg).step (.client i) w = some w') : TakesResponse cfg i w w' := by
  obtain ⟨-, hs, -⟩ := Machine.watch_step_eq_some.mp hstep
  have hanswered := h.talk.answered h.trail hinj i
  cases does hs with
  | client j hdoes =>
    obtain ⟨resp, hresp, hclient⟩ := own h.talk hinj hwaits hdoes
    obtain ⟨req, inTime, hreq, hlatest, hanswers⟩ :=
      hanswered.latest resp (by rw [hresp]; exact List.mem_singleton_self resp)
    have horigin := hanswered.origin
    rw [hresp] at horigin
    exact ⟨req, inTime, resp, hreq, hlatest, hresp, horigin, hanswers, hclient⟩

theorem Unmoved.awaiting {w v : Sys ι × Trail ι} (h : Unmoved i w v) (hknown : Known cfg v)
    (hwaits : (w.1.client i).pc.Waits) : Awaiting cfg i (w.1.client i) (w.1.latest i) v.1 :=
  ⟨hknown.talk, hknown.spare, hwaits, h.client, h.latest⟩

/-- A step that does not settle it leaves a client that waits as it is. -/
theorem Unmoved.step (hinj : Function.Injective cfg.pid) {e : Event ι}
    {w v v' : Sys ι × Trail ι} (h : Unmoved i w v) (hknown : Known cfg v)
    (hwaits : (w.1.client i).pc.Waits) (hstep : (tracked cfg).step e v = some v')
    (hopen : ¬Settled cfg i e v v') : Unmoved i w v' := by
  obtain ⟨-, hs, hfollow⟩ := Machine.watch_step_eq_some.mp hstep
  have hinterrupt : e ≠ .interruptClient i := fun heq => hopen (.inr (.inl heq))
  have hother : e ≠ .client i := by
    rintro rfl
    exact hopen (.inr (.inr ⟨rfl, takes_response hinj hknown (h.client ▸ hwaits) hstep⟩))
  have hnot : ¬e.OfClient i := by
    cases e with
    | client j => exact fun heq => hother (congrArg Event.client heq)
    | _ => exact id
  obtain ⟨hnext, -⟩ := (h.awaiting hknown hwaits).step hinj hnot hinterrupt hs
  exact ⟨hnext.client, hnext.latest_eq, by rw [hfollow, follow_asked hother, h.asked]⟩

/-- The client waits as long as nothing settles it. -/
theorem unmoved_trace (hinj : Function.Injective cfg.pid) {w : Sys ι × Trail ι}
    (hwaits : (w.1.client i).pc.Waits)
    (hknown : ∀ n, Known cfg ((tracked cfg).trace es w n)) {n : ℕ}
    (hopen : ∀ m < n, ¬Settled cfg i (es m) ((tracked cfg).trace es w m)
      ((tracked cfg).trace es w (m + 1))) : Unmoved i w ((tracked cfg).trace es w n) := by
  induction n with
  | zero => exact ⟨rfl, rfl, rfl⟩
  | succ n ih =>
    have h := ih fun m hm => hopen m (by omega)
    have hlast := hopen n (by omega)
    rw [Machine.trace] at hlast ⊢
    cases hstep : (tracked cfg).step (es n) ((tracked cfg).trace es w n) with
    | none => exact h
    | some v' =>
      rw [hstep] at hlast
      exact h.step hinj (hknown n) hwaits hstep hlast

/-- Something settles it. -/
theorem exists_settled (hinj : Function.Injective cfg.pid) {w : Sys ι × Trail ι}
    (hwaits : (w.1.client i).pc.Waits)
    (hknown : ∀ n, Known cfg ((tracked cfg).trace es w n))
    (hserver : (system cfg).Just Event.OfServer es w.1)
    (hclient : (system cfg).Just (Event.OfClient i) es w.1) :
    ∃ n, Settled cfg i (es n) ((tracked cfg).trace es w n)
      ((tracked cfg).trace es w (n + 1)) := by
  -- if nothing of it ever happens, the client stays as it is for ever
  by_contra hnever
  push Not at hnever
  have hunmoved : ∀ n, Unmoved i w ((tracked cfg).trace es w n) := fun n =>
    unmoved_trace hinj hwaits hknown fun m _ => hnever m
  have htrace : ∀ n, ((tracked cfg).trace es w n).1 = (system cfg).trace es w.1 n :=
    Machine.trace_watch (fun _ _ _ => rfl) es w
  have hsame : ∀ n, ((system cfg).trace es w.1 n).client i = w.1.client i :=
    fun n => htrace n ▸ (hunmoved n).client
  have hstays : ∀ n, (((system cfg).trace es w.1 n).client i).pc.phase ≠ .left := by
    intro n hleft
    rw [hsame] at hleft
    rcases hwaits with hpc | hpc <;> rw [hpc] at hleft <;> cases hleft
  have hfirst := (hunmoved 0).awaiting (hknown 0) hwaits
  obtain ⟨n, hended | hleft | ⟨hn, hne⟩⟩ := hfirst.reached hinj hserver
  · exact hnever n (.inl (htrace n ▸ hended))
  · exact hstays n hleft
  · -- the response is there, and a just history does not pass over the client
    obtain ⟨resp, rest, hcons⟩ := List.exists_cons_of_ne_nil hne
    have hone := hn.talk.one_response i
    rw [hcons, List.length_cons] at hone
    obtain rfl : rest = [] := List.length_eq_zero_iff.mp (by omega)
    obtain ⟨m, hleft | htaken⟩ := hn.taken hinj hclient hcons
    · exact hstays m hleft
    · rw [hsame] at htaken
      exact not_waits_received cfg i _ resp (htaken ▸ hwaits)

/-- **Every request is answered**: a client that waits goes on waiting until it takes the
response to its request, or the server comes to `exit`, or `SIGINT` reaches the client; and
one of these happens.  The server never waits for room in a queue. -/
theorem gets_response (cfg : Config ι) (hinj : Function.Injective cfg.pid) (w : Sys ι × Trail ι)
    (i : ι) (hreach : (tracked cfg).Reach (cfg.start, Trail.start) w)
    (hwaits : (w.1.client i).pc.Waits) (es : ℕ → Event ι)
    (hserver : (system cfg).Just Event.OfServer es w.1)
    (hclient : (system cfg).Just (Event.OfClient i) es w.1) :
    (∀ n, ((tracked cfg).trace es w n).1.Unblocked) ∧
      ∃ n, (∀ m ≤ n, Unmoved i w ((tracked cfg).trace es w m)) ∧
        Settled cfg i (es n) ((tracked cfg).trace es w n)
          ((tracked cfg).trace es w (n + 1)) := by
  classical
  have hknown : ∀ n, Known cfg ((tracked cfg).trace es w n) :=
    Machine.trace_invariant (Known.step hinj) es (known_of_reach hinj hreach)
  have hsettled := exists_settled hinj hwaits hknown hserver hclient
  refine ⟨fun n => (hknown n).talk.unblocked, Nat.find hsettled, fun m hm => ?_,
    Nat.find_spec hsettled⟩
  exact unmoved_trace hinj hwaits hknown fun k hk => Nat.find_min hsettled (by omega)

/-- The first client has sent its `REGISTER`. -/
def joined : Sys Bool × Trail Bool :=
  trackedRun duo [.server 3 ⟨[], clock_nil⟩, .client true, .client true, .client true]

theorem gets_response_joined : ∃ es, (∀ n, ((tracked duo).trace es joined n).1.Unblocked) ∧
    ∃ n, (∀ m ≤ n, Unmoved true joined ((tracked duo).trace es joined m)) ∧
      Settled duo true (es n) ((tracked duo).trace es joined n)
        ((tracked duo).trace es joined (n + 1)) := by
  obtain ⟨es, hjust⟩ := Machine.exists_just
    (fun k => if k = 0 then Event.OfServer else Event.OfClient true) joined.1
  exact ⟨es, gets_response duo duo_injective joined true (Machine.reach_run _ _) (by decide) es
    (hjust 0) (hjust 1)⟩

end Runs

end Posix
end MsgQueue
end OpSys
