import OpSys.MsgQueue.Posix.Talks
import OpSys.MsgQueue.SystemV.Talks

/-!
# The end of a server

After an `END` a server goes on until it finds its queue empty, and then it exits and
removes the queue.  A message that comes in between is accepted, and nobody receives it.

## Main definitions

* `Posix.NoneLost`, `SystemV.NoneLost` — a server that has stopped owes nothing.
* `Posix.InTime`, `SystemV.InTime` — nobody sends after the last look at the queue.

## Main results

* `noneLost_iff` — nothing is lost exactly as long as everybody sends in time.
* `lost_at_the_end` — a `REGISTER` that comes too late.

## References

`lab5_message_queues/POSIX/server.c`, `lab5_message_queues/POSIX/client.c`,
`lab5_message_queues/SystemV/server.c`, `lab5_message_queues/SystemV/client.c`.
-/

namespace OpSys
namespace MsgQueue

open Stdio

namespace Posix

variable {ι : Type*}

/-- What a server that has stopped after an `END` has accepted it has dispatched. -/
def Sys.Drained (s : Sys ι) : Prop := s.pc.status = some 0 → s.accepted = s.dispatched

/-- The client waits for the response to a request that was accepted, and there is none. -/
def Sys.Blocked (s : Sys ι) (i : ι) : Prop :=
  ((s.client i).pc = .receiveSession ∨ (s.client i).pc = .receiveResponse) ∧
    (∃ req, s.latest i = some (req, true)) ∧ ∀ q, (s.client i).privQid = some q → s.queue q = []

/-- A server that has stopped after an `END` has dispatched every message that was
accepted, and no client, each with a pid of its own, waits in vain. -/
structure NoneLost (cfg : Config ι) (s : Sys ι) : Prop where
  drained : s.Drained
  unblocked : Function.Injective cfg.pid → s.pc.status = some 0 → ∀ i, ¬s.Blocked i

/-- The system call that comes next is a `mq_send`. -/
def ClientPc.Sends : ClientPc → Prop
  | sendRegister => True
  | sendRequest _ => True
  | sendQuit _ => True
  | _ => False

/-- No client sends between the server's last look at its queue and `mq_unlink`. -/
def InTime : Event ι → Sys ι → Prop
  | .client i, s => s.pc.status = some 0 → (s.link serverPath).isSome → ¬(s.client i).pc.Sends
  | _, _ => True

section Steps

variable [DecidableEq ι] {cfg : Config ι} {s s' : Sys ι} {i : ι}

omit [DecidableEq ι] in
theorem drained_of_status (h : s.pc.status ≠ some 0) : s.Drained := fun hstatus => absurd hstatus h

omit [DecidableEq ι] in
/-- The server that stops has dispatched everything. -/
theorem drained_finish (h : SysInv cfg s) (hpc : s.pc = .top) {q : Option ι}
    (hfd : s.fds s.data.queueDesc = some q) (hempty : s.queue q = []) :
    s.accepted = s.dispatched := by
  have hrun : s.pc.Running := .of_eq hpc ServerPc.noConfusion rfl
  obtain rfl := (h.fds hrun).public_eq hfd
  rw [h.log (h.named hrun), hempty, List.append_nil]

theorem drained_server (h : SysInv cfg s) (hgood : s.Drained) (hdoes : ServerDoes cfg s s') :
    s'.Drained := by
  -- a failing call ends the server with -1
  have hexit : (s.exitServer (-1)).Drained := drained_of_status (by
    rw [Sys.exitServer, exit_status]
    decide)
  cases hdoes with
  | create fd q hpc hfd hq => exact drained_of_status (by simp [Sys.goOn, ServerPc.status])
  | wait hpc => exact drained_of_status (by simp [ServerPc.status])
  -- the server ends with 0 only here, with the queue empty
  | finish q hpc hactive hfd hempty =>
    have hdone : s.accepted = s.dispatched := drained_finish h hpc hfd hempty
    exact fun _ => hdone
  | receive clock q m ms hpc hfd hq =>
    have hfds := h.fds (.of_eq hpc ServerPc.noConfusion rfl)
    have hp := hfds.dispatched cfg.server clock m
    exact drained_of_status (fun hstatus => nomatch hp.running.2.symm.trans hstatus)
  | openClient fd msg q hpc hlink hfd =>
    refine drained_of_status ?_
    show (registerOpened cfg.server s.data msg fd).2.status ≠ some 0
    unfold registerOpened
    split
    · exact (Option.some_ne_none _).symm
    · exact (Option.some_ne_none _).symm
  | send qid msg pc q hpc hfd hroom =>
    exact drained_of_status fun hstatus => nomatch (sends_running hpc).2.1.2.symm.trans hstatus
  | close qid d q hpc hfd => exact drained_of_status (by simp [Sys.goOn, ServerPc.status])
  | missing msg hpc hlink => exact hexit
  | badPublic hpc hfd => exact hexit
  | badSend qid msg pc hpc hfd => exact hexit
  | badClose qid d hpc hfd => exact hexit
  -- `close_queue` neither takes nor sends
  | closing status fd pc hpc hpc' =>
    exact fun hstatus => hgood (hpc.trans (hpc'.symm.trans hstatus))
  | unlink status hpc =>
    intro hstatus
    refine hgood ?_
    rw [hpc]
    exact hstatus

/-- A client that sends places its message in its public queue. -/
theorem accepted_sends (hsends : (s.client i).pc.Sends) (h : clientStep cfg i s = some s') :
    ∃ msg q, (s.client i).pubQid = some q ∧
      s'.accepted = if s.link serverPath = some q then s.accepted ++ [msg] else s.accepted := by
  have hask : ∀ {msg pc}, clientAsk s i msg pc = some s' → ∃ msg q, (s.client i).pubQid = some q ∧
      s'.accepted = if s.link serverPath = some q then s.accepted ++ [msg] else s.accepted := by
    intro msg pc h
    obtain ⟨s₁, hsend, rfl⟩ := Option.map_eq_some_iff.mp h
    obtain ⟨q, hpub, hroom, rfl⟩ := clientSend_eq_some hsend
    exact ⟨msg, q, hpub, rfl⟩
  have hsend : ∀ {msg pc}, clientSend s i msg pc = some s' → ∃ msg q,
      (s.client i).pubQid = some q ∧
        s'.accepted = if s.link serverPath = some q then s.accepted ++ [msg] else s.accepted := by
    intro msg pc h
    obtain ⟨q, hpub, hroom, rfl⟩ := clientSend_eq_some h
    exact ⟨msg, q, hpub, rfl⟩
  unfold clientStep at h
  cases hpc : (s.client i).pc with
  | sendRegister =>
    simp only [hpc] at h
    exact hask h
  -- without an answer in the register of the client, the send is a `QUIT` or an `END`
  | sendRequest answered =>
    cases answered with
    | true =>
      simp only [hpc] at h
      exact hask h
    | false =>
      simp only [hpc] at h
      exact hsend h
  | sendQuit status =>
    simp only [hpc] at h
    exact hsend h
  | _ =>
    rw [hpc] at hsends
    exact hsends.elim

theorem accepted_same (hnot : ¬(s.client i).pc.Sends) (hdoes : ClientDoes cfg i s s') :
    s'.accepted = s.accepted := by
  -- only the two kinds of sends put a message anywhere
  cases hdoes with
  | ask msg pc q hpc hpub hroom =>
    refine absurd ?_ hnot
    unfold ClientPc.asks at hpc
    split at hpc
    · rename_i hsend
      rw [hsend]
      trivial
    · rename_i hsend
      rw [hsend]
      trivial
    · exact absurd hpc (Option.some_ne_none _).symm
  | tell msg pc q hpc hpub hroom =>
    refine absurd ?_ hnot
    rcases tells_pc hpc with ⟨hsend, -⟩ | ⟨status, hsend, -⟩
    · rw [hsend]
      trivial
    · rw [hsend]
      trivial
  | _ => rfl

theorem drained_client (h : SysInv cfg s) (hgood : s.Drained)
    (hstep : clientStep cfg i s = some s') : s'.Drained ↔ InTime (.client i) s := by
  have hdoes := clientDoes hstep
  have hsame : s'.pc = s.pc ∧ s'.dispatched = s.dispatched := by
    cases hdoes <;> exact ⟨rfl, rfl⟩
  unfold Sys.Drained
  rw [hsame.1, hsame.2]
  by_cases hsends : (s.client i).pc.Sends
  · -- the queue has lost its message unless the name was there
    obtain ⟨msg, q, hpub, haccepted⟩ := accepted_sends hsends hstep
    obtain rfl := (h.client i).pub q hpub
    rw [haccepted]
    constructor
    · intro hafter hstatus hlink
      obtain ⟨q, hq⟩ := Option.isSome_iff_exists.mp hlink
      obtain rfl := h.link_server q hq
      have hlost := hafter hstatus
      rw [if_pos hq, hgood hstatus] at hlost
      simp at hlost
    · intro htime hstatus
      have hlink : s.link serverPath ≠ some none := fun hq =>
        htime hstatus (by rw [hq]; rfl) hsends
      rw [if_neg hlink]
      exact hgood hstatus
  · rw [accepted_same hsends hdoes]
    exact iff_of_true hgood fun _ _ => hsends

theorem drained_step (e : Event ι) (s s' : Sys ι) (h : SysInv cfg s) (hgood : s.Drained)
    (hstep : (system cfg).step e s = some s') : s'.Drained ↔ InTime e s := by
  cases e with
  | client i => exact drained_client h hgood hstep
  | server fd clock =>
    refine iff_of_true ?_ trivial
    cases does hstep with
    | server fd clock hdoes => exact drained_server h hgood hdoes
  | interruptServer =>
    refine iff_of_true (drained_of_status ?_) trivial
    cases does hstep with
    | interruptServer hpc =>
      rw [exit_status]
      decide
  | interruptClient i =>
    refine iff_of_true ?_ trivial
    cases does hstep with
    | interruptClient i hpc => exact hgood

/-! ### Waiting clients -/

/-- After `mq_unlink`, no request that was accepted is left in the queue. -/
def Sys.NoneLeft (cfg : Config ι) (s : Sys ι) : Prop :=
  s.pc.status = some 0 → s.link serverPath = none → ∀ i req, s.latest i = some (req, true) →
    ∀ m ∈ s.queue none, requestOf (cfg.pid i) m = false

/-- What holds as long as everybody sends in time. -/
structure TimelyInv (cfg : Config ι) (s : Sys ι) : Prop where
  talks : TalkInv cfg s
  drained : s.Drained
  left : s.NoneLeft cfg

omit [DecidableEq ι] in
/-- As long as the queue has its name, a server that has stopped has emptied it. -/
theorem queue_of_drained (h : SysInv cfg s) (hdrained : s.accepted = s.dispatched)
    (hlink : s.link serverPath ≠ none) : s.queue none = [] := by
  obtain ⟨q, hq⟩ := Option.ne_none_iff_exists'.mp hlink
  obtain rfl := h.link_server q hq
  have hlog := h.log hq
  rw [hdrained] at hlog
  exact List.append_cancel_left (hlog.symm.trans (List.append_nil _).symm)

theorem noneLeft_server (h : SysInv cfg s) (hdrained : s.Drained) (hleft : s.NoneLeft cfg)
    (hdoes : ServerDoes cfg s s') : s'.NoneLeft cfg := by
  intro hstatus hlink
  -- as long as the server runs, its queue has its name
  have hrunning : s.pc.Running → s.link serverPath ≠ none := fun hrun hnone =>
    Option.some_ne_none _ ((h.named hrun).symm.trans hnone)
  cases hdoes with
  | finish q hpc hactive hfd hempty =>
    exact absurd hlink (hrunning (.of_eq hpc ServerPc.noConfusion rfl))
  | closing status fd pc hpc hpc' => exact hleft (hpc.trans (hpc'.symm.trans hstatus)) hlink
  -- what is still in the queue goes with the name, and the queue is empty by then
  | unlink status hpc =>
    have hstatus' : s.pc.status = some 0 := by
      rw [hpc]
      exact hstatus
    by_cases hname : s.link serverPath = none
    · exact hleft hstatus' hname
    · intro i req _ m hm
      have hm' : m ∈ s.queue none := hm
      rw [queue_of_drained h (hdrained hstatus') hname] at hm'
      cases hm'
  | create fd q hpc hfd hq => cases hstatus
  | wait hpc => cases hstatus
  | receive clock q m ms hpc hfd hq =>
    have hfds := h.fds (.of_eq hpc ServerPc.noConfusion rfl)
    have hp := hfds.dispatched cfg.server clock m
    exact nomatch hp.running.2.symm.trans hstatus
  | openClient fd msg q hpc hlink' hfd =>
    exact absurd hlink (hrunning (.of_eq hpc ServerPc.noConfusion rfl))
  | send qid msg pc q hpc hfd hroom => exact nomatch (sends_running hpc).2.1.2.symm.trans hstatus
  | close qid d q hpc hfd => cases hstatus
  | _ => exact nomatch (exit_status s.data (-1)).symm.trans hstatus

theorem noneLeft_client (h : TalkInv cfg s) (hinj : Function.Injective cfg.pid)
    (hleft : s.NoneLeft cfg) (hdoes : ClientDoes cfg i s s') : s'.NoneLeft cfg := by
  intro hstatus hlink
  have hpc : s'.pc = s.pc := by cases hdoes <;> rfl
  rw [hpc] at hstatus
  -- a client that is told nothing any more has no request in the queue
  have hput : ∀ {msg answered j}, Asks (cfg.pid i) answered msg → (answered = true → j ≠ i) →
      (∃ req, s.latest j = some (req, true)) → s.link serverPath = none →
      ∀ m ∈ Function.update s.queue none (s.queue none ++ [msg]) none,
        requestOf (cfg.pid j) m = false := by
    rintro msg answered j hasks hj ⟨req, hlatest⟩ hlink m hm
    rw [Function.update_self, List.mem_append, List.mem_singleton] at hm
    rcases hm with hm | rfl
    · exact hleft hstatus hlink j req hlatest m hm
    · rw [← Bool.not_eq_true, requestOf_asks hasks]
      exact fun hreq => hj hreq.2 (hinj hreq.1).symm
  -- a client takes from its own queue only
  have htake : ∀ {q : Option ι} {ms : List Message} {c : Client ι},
      (s.client i).privQid = some q →
      ((s.leave q ms).setClient i c).queue none = s.queue none := by
    intro q ms c hpriv
    obtain rfl := priv_own h.sys hinj hpriv
    have hqueue : Function.update s.queue (some i) ms none = s.queue none :=
      Function.update_of_ne (Option.some_ne_none i).symm ..
    exact hqueue
  cases hdoes with
  | openPrivate q hpc' hlink' =>
    have hlink'' : Function.update s.link (clientPath (cfg.pid i)) (some q) serverPath = none :=
      hlink
    rw [Function.update_of_ne (serverPath_ne _)] at hlink''
    exact hleft hstatus hlink''
  | ask msg pc q hpc' hpub hroom =>
    obtain rfl := (h.sys.client i).pub q hpub
    have hasks := (h.sys.client i).of_asks hpc'
    intro j req hlatest m hm
    have hlatest' : Function.update s.latest i (some (msg, (s.link serverPath).isSome)) j =
        some (req, true) := hlatest
    have hlink' : s.link serverPath = none := hlink
    -- the server is gone, so the last request of the client that sends comes too late
    have hj : j ≠ i := by
      rintro rfl
      rw [Function.update_self, hlink'] at hlatest'
      cases hlatest'
    rw [Function.update_of_ne hj] at hlatest'
    exact hput hasks (fun _ => hj) ⟨req, hlatest'⟩ hlink' m hm
  | tell msg pc q hpc' hpub hroom =>
    obtain rfl := (h.sys.client i).pub q hpub
    have hasks := (h.sys.client i).of_tells hpc'
    exact fun j req hlatest m hm =>
      hput hasks (fun heq => nomatch heq) ⟨req, hlatest⟩ hlink m hm
  | session q m ms hpc' hpriv hq =>
    intro j req hlatest m' hm
    rw [htake hpriv] at hm
    exact hleft hstatus hlink j req hlatest m' hm
  | response q m ms hpc' hpriv hq =>
    intro j req hlatest m' hm
    rw [htake hpriv] at hm
    exact hleft hstatus hlink j req hlatest m' hm
  | unlink status hpc' =>
    have hlink'' : Function.update s.link (clientPath (cfg.pid i)) none serverPath = none := hlink
    rw [Function.update_of_ne (serverPath_ne _)] at hlink''
    exact hleft hstatus hlink''
  | _ => exact hleft hstatus hlink

theorem timelyInv_step (hinj : Function.Injective cfg.pid) (e : Event ι) (s s' : Sys ι)
    (h : TimelyInv cfg s) (hok : InTime e s) (hstep : (system cfg).step e s = some s') :
    TimelyInv cfg s' where
  talks := talkInv_step h.talks hinj hstep
  drained := (drained_step e s s' h.talks.sys h.drained hstep).mpr hok
  left := by
    cases does hstep with
    | server fd clock hdoes => exact noneLeft_server h.talks.sys h.drained h.left hdoes
    | interruptServer hpc =>
      exact fun hstatus => nomatch (exit_status s.data 2).symm.trans hstatus
    | client i hdoes => exact noneLeft_client h.talks hinj h.left hdoes
    | interruptClient i hpc => exact h.left

/-- Nobody waits in vain. -/
theorem TimelyInv.not_blocked (h : TimelyInv cfg s) (hinj : Function.Injective cfg.pid)
    (hstatus : s.pc.status = some 0) (i : ι) : ¬s.Blocked i := by
  rintro ⟨hwaits, ⟨req, hlatest⟩, hempty⟩
  have hopened : (s.client i).privQid.isSome := by
    rcases hwaits with hpc | hpc
    · exact (h.talks.sys.client i).opened (by simp [hpc]) (by simp [hpc]) (by rw [hpc]; rfl)
    · exact (h.talks.sys.client i).opened (by simp [hpc]) (by simp [hpc]) (by rw [hpc]; rfl)
  obtain ⟨q, hq⟩ := Option.isSome_iff_exists.mp hopened
  obtain rfl := priv_own h.talks.sys hinj hq
  have hphase : (s.talk cfg i).phase = .joining ∨ (s.talk cfg i).phase = .asking := by
    rcases hwaits with hpc | hpc
    · exact .inl (congrArg ClientPc.phase hpc)
    · exact .inr (congrArg ClientPc.phase hpc)
  have hwell : ¬(s.talk cfg i).failed := by
    rintro ⟨status, hstatus', hne⟩
    exact hne (Option.some.inj (hstatus'.symm.trans hstatus))
  -- what was asked in time has been dispatched, and what was not is no request of the client
  have hnone : (s.queue none).filter (requestOf (cfg.pid i)) = [] := by
    by_cases hlink : s.link serverPath = none
    · refine List.filter_eq_nil_iff.mpr fun m hm => ?_
      rw [h.left hstatus hlink i req hlatest m hm]
      exact Bool.false_ne_true
    · rw [queue_of_drained h.talks.sys (h.drained hstatus) hlink]
      rfl
  refine (h.talks.orderly i).kept hphase hwell ?_
  show s.flight cfg i = []
  rw [flight_eq, hempty _ hq, hand_of_status hstatus, hnone]
  rfl

theorem noneLost_iff_inTime (cfg : Config ι) (es : List (Event ι)) :
    (∀ n, NoneLost cfg ((system cfg).run (es.take n) cfg.start)) ↔
      (system cfg).Meets InTime es cfg.start := by
  have hdrained : (∀ n, ((system cfg).run (es.take n) cfg.start).Drained) ↔
      (system cfg).Meets InTime es cfg.start :=
    Machine.forall_run_take_iff_meets (fun _ _ _ h hstep => sysInv_step h hstep) drained_step es
      sysInv_start (drained_of_status (Option.some_ne_none _).symm)
  constructor
  · exact fun h => hdrained.mp fun n => (h n).drained
  · intro htime n
    refine ⟨hdrained.mpr htime n, fun hinj hstatus i => ?_⟩
    have hstart : TimelyInv cfg cfg.start :=
      ⟨talkInv_start, drained_of_status (Option.some_ne_none _).symm, fun h => nomatch h⟩
    have htimely := (htime.take n).run (timelyInv_step hinj) hstart
    exact htimely.not_blocked hinj hstatus i

end Steps

/-- Two clients, and the user of the first one types `end`. -/
def closing : Config Bool where
  server := 100
  pid first := if first then 101 else 102
  stdin := fun _ => [101, 110, 100, 10]
  junk := fun _ => [nul]

/-- The first client registers and sends `END`, and the second one sends `REGISTER`
after the server has found its queue empty. -/
def lateRun : List (Event Bool) :=
  let server := Event.server 4 ⟨[], clock_nil⟩
  let first := Event.client true
  let second := Event.client false
  [.server 3 ⟨[], clock_nil⟩, first, first, first, second, second, server, server, server, server,
    first, first, first, server, server, server, second, server, server, server]

end Posix

namespace SystemV

open Ipc

variable {ι : Type*}

/-- What a server that has stopped after an `END` has accepted it has dispatched. -/
def Sys.Drained (s : Sys ι) : Prop := s.pc.status = some 0 → s.accepted.Perm s.dispatched

/-- The client waits for a response, and there is none. -/
def Sys.Blocked (s : Sys ι) (i : ι) : Prop :=
  ((s.client i).pc = .receiveSession ∨ (s.client i).pc = .receiveResponse) ∧
    s.kernel.slot (s.client i).privQid = .live []

/-- A server that has stopped after an `END` has dispatched every message that was
accepted, and no client, if the pids are apart, waits in vain. -/
structure NoneLost (cfg : Config ι) (s : Sys ι) : Prop where
  drained : s.Drained
  unblocked : cfg.Apart → s.pc.status = some 0 → ∀ i, ¬s.Blocked i

section Steps

variable [DecidableEq ι] {cfg : Config ι} {s s' : Sys ι} {i : ι}

/-- No client has taken a message from the public queue when the server looks at it for
the last time, and no client sends between this and the removal of the queue. -/
def InTime (cfg : Config ι) : Event ι → Sys ι → Prop
  | .server _ _ _, s => s.pc = .top → s.data.active = false →
      s.kernel.slot s.data.queueDesc = .live [] → s.taken = []
  | .client i _, s => s.pc.status = some 0 → (s.client i).queueDesc = s.data.queueDesc →
      (s.kernel.slot s.data.queueDesc).Live → ClientPc.sends cfg i (s.client i) = none
  | _, _ => True

omit [DecidableEq ι] in
theorem drained_of_status (h : s.pc.status ≠ some 0) : s.Drained := fun hstatus => absurd hstatus h

omit [DecidableEq ι] in
/-- The server looks at its queue for the last time. -/
theorem drained_finish (h : SysInv s) (hslot : s.kernel.slot s.data.queueDesc = .live []) :
    (s.exitServer 0).Drained ↔ s.taken = [] := by
  have hperm := h.log [] hslot
  rw [List.append_nil] at hperm
  have hstatus : (s.exitServer 0).pc.status = some 0 := exit_status s.data 0
  -- the messages that clients took are the ones the server never saw
  constructor
  · intro hdrained
    have hlost : s.accepted.Perm s.dispatched := hdrained hstatus
    have hlen := (hperm.symm.trans hlost).length_eq
    rw [List.length_append] at hlen
    exact List.length_eq_zero_iff.mp (by omega)
  · intro htaken _
    rw [htaken, List.append_nil] at hperm
    exact hperm

omit [DecidableEq ι] in
theorem drained_server (h : SysInv s) (hgood : s.Drained) {id garbage : ℤ} {clock : Clock}
    (hstep : serverStep cfg id garbage clock s = some s') :
    s'.Drained ↔ InTime cfg (.server id garbage clock) s := by
  -- the last look at the queue is the step that decides
  by_cases hlast : s.pc = .top ∧ s.data.active = false ∧
      s.kernel.slot s.data.queueDesc = .live []
  · obtain ⟨hpc, hactive, hslot⟩ := hlast
    have hexit : s.exitServer 0 = s' := by
      simpa only [serverStep, hpc, hactive, hslot, Bool.false_eq_true, if_false,
        Option.some.injEq] using hstep
    rw [← hexit, drained_finish h hslot]
    exact ⟨fun htaken _ _ _ => htaken, fun htime => htime hpc hactive hslot⟩
  · refine iff_of_true ?_ fun hpc hactive hslot => absurd ⟨hpc, hactive, hslot⟩ hlast
    cases serverDoes h.ok hstep with
    | finish hpc hactive hslot => exact absurd ⟨hpc, hactive, hslot⟩ hlast
    | create id' q k hpc hget => exact drained_of_status (by simp [ServerPc.status])
    | wait hpc hlive => exact drained_of_status (by simp [ServerPc.status])
    | receive clock' p ps hpc hslot =>
      exact drained_of_status fun hstatus => nomatch dispatch_ne_start.2.symm.trans hstatus
    | openClient id' key qid k p hpc hkey hget hqid =>
      exact drained_of_status (by simp [Sys.answerRegister, ServerPc.status])
    | send qid p ps hpc hslot hroom => exact drained_of_status (by simp [ServerPc.status])
    | fail hfails =>
      refine drained_of_status ?_
      rw [Sys.exitServer, exit_status]
      decide
    | remove status hpc =>
      intro hstatus
      refine hgood ?_
      rw [hpc]
      exact hstatus

/-- A client that can send places its message in its public queue. -/
theorem clientPost_sends {id : ℤ} {msg : Message} {answered : Bool} {pc : ClientPc}
    (hpc : ClientPc.sends cfg i (s.client i) = some (msg, answered, pc))
    (hlive : (s.kernel.slot (s.client i).queueDesc).Live) (h : clientStep cfg i id s = some s') :
    ∃ ps, s' = s.clientPost i ps msg answered pc := by
  have hsend : clientSend cfg s i msg answered pc = some s' := by
    unfold ClientPc.sends at hpc
    split at hpc
    · rename_i hsend
      obtain ⟨rfl, rfl, rfl⟩ := by simpa only [Option.some.injEq, Prod.mk.injEq] using hpc
      simpa only [clientStep, hsend] using h
    · rename_i hsend
      obtain ⟨rfl, rfl, rfl⟩ := by simpa only [Option.some.injEq, Prod.mk.injEq] using hpc
      simpa only [clientStep, hsend] using h
    · exact absurd hpc (Option.some_ne_none _).symm
  unfold clientSend at hsend
  cases hcall : s.kernel.msgsnd cfg.capacity (s.client i).queueDesc ⟨msg, i⟩ with
  | blocks => simp [hcall] at hsend
  | fails => exact absurd hlive (Kernel.msgsnd_fails.mp hcall)
  | returns k =>
    simp only [hcall, Option.some.injEq] at hsend
    obtain ⟨ps, -, -, rfl⟩ := Kernel.msgsnd_returns hcall
    exact ⟨ps, hsend.symm⟩

theorem accepted_same (hdoes : ClientDoes cfg i s s')
    (hnot : (s.client i).queueDesc = s.data.queueDesc → (s.kernel.slot s.data.queueDesc).Live →
      ClientPc.sends cfg i (s.client i) = none) : s'.accepted = s.accepted := by
  cases hdoes with
  | send msg answered pc ps hpc hslot hroom =>
    have hdesc : (s.client i).queueDesc ≠ s.data.queueDesc := fun heq =>
      Option.some_ne_none _ (hpc.symm.trans (hnot heq (heq ▸ ⟨ps, hslot⟩)))
    exact if_neg hdesc
  | _ => rfl

theorem drained_client (hgood : s.Drained) {id : ℤ} (hstep : clientStep cfg i id s = some s') :
    s'.Drained ↔ InTime cfg (.client i id) s := by
  have hdoes := clientDoes hstep
  have hsame : s'.pc = s.pc ∧ s'.dispatched = s.dispatched := by
    cases hdoes <;> exact ⟨rfl, rfl⟩
  unfold Sys.Drained
  rw [hsame.1, hsame.2]
  constructor
  · intro hafter hstatus hdesc hlive
    by_contra hsends
    obtain ⟨⟨msg, answered, pc⟩, hpc⟩ := Option.ne_none_iff_exists'.mp hsends
    obtain ⟨ps, rfl⟩ := clientPost_sends hpc (hdesc ▸ hlive) hstep
    have haccepted : (s.clientPost i ps msg answered pc).accepted = s.accepted ++ [⟨msg, i⟩] :=
      if_pos hdesc
    have hlen := (hafter hstatus).length_eq
    rw [haccepted, List.length_append, (hgood hstatus).length_eq, List.length_singleton] at hlen
    omega
  · intro htime hstatus
    rw [accepted_same hdoes (htime hstatus)]
    exact hgood hstatus

theorem drained_step (e : Event ι) (s s' : Sys ι) (h : SysInv s) (hgood : s.Drained)
    (hstep : (system cfg).step e s = some s') : s'.Drained ↔ InTime cfg e s := by
  cases e with
  | client i id => exact drained_client hgood hstep
  | server id garbage clock => exact drained_server h hgood hstep
  | interruptServer =>
    refine iff_of_true (drained_of_status ?_) trivial
    cases does h.ok hstep with
    | interruptServer hpc =>
      rw [exit_status]
      decide
  | interruptClient i =>
    refine iff_of_true ?_ trivial
    cases does h.ok hstep with
    | interruptClient i hpc => exact hgood

/-- Nobody waits in vain. -/
theorem not_blocked (h : TalkInv cfg s) (hdrained : s.Drained) (hstatus : s.pc.status = some 0)
    (i : ι) : ¬s.Blocked i := by
  rintro ⟨hwaits, hempty⟩
  have hperm := hdrained hstatus
  have hphase : (s.talk cfg i).phase = .joining ∨ (s.talk cfg i).phase = .asking := by
    rcases hwaits with hpc | hpc
    · exact .inl (congrArg ClientPc.phase hpc)
    · exact .inr (congrArg ClientPc.phase hpc)
  have hwell : ¬(s.talk cfg i).failed := by
    rintro ⟨status, hstatus', hne | ⟨-, hlen⟩⟩
    · exact hne (Option.some.inj (hstatus'.symm.trans hstatus))
    · exact hlen hperm.length_eq
  have hnone := requests_of_drained h.sys hperm.length_eq
  have hinbox : s.inbox i = [] := by
    rw [Sys.inbox, hempty]
    rfl
  refine (h.orderly i).kept hphase hwell ?_
  show slips i (s.inbox i) s.requests s.pc = []
  rw [hinbox, hnone, slips, hand_of_status hstatus]
  rfl

theorem noneLost_iff_inTime (cfg : Config ι) (es : List (Event ι)) :
    (∀ n, NoneLost cfg ((system cfg).run (es.take n) cfg.start)) ↔
      (system cfg).Meets (InTime cfg) es cfg.start := by
  have hdrained : (∀ n, ((system cfg).run (es.take n) cfg.start).Drained) ↔
      (system cfg).Meets (InTime cfg) es cfg.start :=
    Machine.forall_run_take_iff_meets (fun _ _ _ h hstep => sysInv_step h hstep) drained_step es
      (sysInv_start cfg) (drained_of_status (Option.some_ne_none _).symm)
  constructor
  · exact fun h => hdrained.mp fun n => (h n).drained
  · exact fun htime n => ⟨hdrained.mpr htime n, fun hapart =>
      not_blocked (talkInv_run hapart _) (hdrained.mpr htime n)⟩

end Steps

@[inherit_doc Posix.closing]
def closing : Config Bool where
  ftok := .plain
  server := 100
  server_pos := hundred_pos
  pid first := if first then 101 else 102
  pid_pos first := by cases first <;> decide
  capacity := 7
  capacity_pos := seven_pos
  stdin := fun _ => [101, 110, 100, 10]
  junk := fun _ => [nul]

@[inherit_doc Posix.lateRun]
def lateRun : List (Event Bool) :=
  let server := Event.server 0 0 ⟨[], clock_nil⟩
  let first := Event.client true 1
  let second := Event.client false 2
  [server, first, first, first, second, second, server, server, server, server, first, first,
    first, server, server, server, second, server]

end SystemV

/-- **Nothing is lost at the end exactly as long as everybody sends in time.** -/
theorem noneLost_iff {ι κ : Type*} [DecidableEq ι] [DecidableEq κ] (cfg : Posix.Config ι)
    (es : List (Posix.Event ι)) (cfg' : SystemV.Config κ) (es' : List (SystemV.Event κ)) :
    ((∀ n, Posix.NoneLost cfg ((Posix.system cfg).run (es.take n) cfg.start)) ↔
        (Posix.system cfg).Meets Posix.InTime es cfg.start) ∧
      ((∀ n, SystemV.NoneLost cfg' ((SystemV.system cfg').run (es'.take n) cfg'.start)) ↔
        (SystemV.system cfg').Meets (SystemV.InTime cfg') es' cfg'.start) :=
  ⟨Posix.noneLost_iff_inTime cfg es, SystemV.noneLost_iff_inTime cfg' es'⟩

/-- A `REGISTER` that is accepted after the last look at the queue is never dispatched,
and its client waits in vain. -/
theorem lost_at_the_end :
    (¬Posix.NoneLost Posix.closing
          ((Posix.system Posix.closing).run Posix.lateRun Posix.closing.start) ∧
        ((Posix.system Posix.closing).run Posix.lateRun Posix.closing.start).Blocked false) ∧
      ¬SystemV.NoneLost SystemV.closing
          ((SystemV.system SystemV.closing).run SystemV.lateRun SystemV.closing.start) ∧
        ((SystemV.system SystemV.closing).run SystemV.lateRun SystemV.closing.start).Blocked
          false := by
  have hposix : ((Posix.system Posix.closing).run Posix.lateRun Posix.closing.start).Blocked
      false := by
    refine ⟨.inl (by decide), ⟨⟨typeRegister, 102, [nul]⟩, rfl⟩, fun q hq => ?_⟩
    have hown : (((Posix.system Posix.closing).run Posix.lateRun
      Posix.closing.start).client false).privQid = some (some false) := rfl
    obtain rfl := Option.some.inj (hq.symm.trans hown)
    rfl
  have hsystem : ((SystemV.system SystemV.closing).run SystemV.lateRun
      SystemV.closing.start).Blocked false := ⟨.inl (by decide), rfl⟩
  exact ⟨⟨fun h => absurd (h.drained (by decide)) (by decide), hposix⟩,
    fun h => absurd (h.drained (by decide)).length_eq (by decide), hsystem⟩

end MsgQueue
end OpSys
