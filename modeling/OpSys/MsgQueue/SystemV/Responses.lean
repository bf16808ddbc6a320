import OpSys.Lib.Justice
import OpSys.MsgQueue.SystemV.Apart

/-!
# Every request is answered, with System V queues

As long as the queues are apart, a client that waits for a response gets it in the end here
too, unless the server comes to `exit` or the client itself is interrupted, in every history
that is just to the server and to the client.

## Main definitions

* `received` — what the response makes of a client that waits.
* `Event.OfServer`, `Event.OfClient` — the steps of the server and of a client.
* `Sys.toGo` — how many steps the server is away from the response.

## Main results

* `toGo_server`, `elsewhere` — what the steps do to that number.
* `enabled_server` — the server can go on as long as there is no response.
* `gets_response`.

## References

`lab5_message_queues/SystemV/server.c`, `lab5_message_queues/SystemV/client.c`.
-/

namespace OpSys
namespace MsgQueue
namespace SystemV

open Stdio Ipc

variable {ι : Type*}

instance (pc : ClientPc) : Decidable pc.Waits := inferInstanceAs (Decidable (_ ∨ _))

/-- The client when it has taken the response. -/
def received (junk : List UInt8) (c : Client) (resp : Message) : Client :=
  if c.pc = .receiveSession then readSession junk c resp else { c with msg := resp, pc := .prompt }

instance : Nonempty (Event ι) := ⟨.interruptServer⟩

/-- A step of the server. -/
def Event.OfServer : Event ι → Prop
  | .server _ _ _ => True
  | .interruptServer => False
  | .client _ _ => False
  | .interruptClient _ => False

/-- A step of the client `i`. -/
def Event.OfClient (i : ι) : Event ι → Prop
  | .server _ _ _ => False
  | .interruptServer => False
  | .client j _ => j = i
  | .interruptClient _ => False

/-- A bound for the steps of the server up to its next `msgrcv`. -/
def ServerPc.toGo : ServerPc ι → ℕ
  | .receive => 1
  | .top => 2
  | .send _ _ => 3
  | .register _ => 4
  | _ => 0

section Server

variable [DecidableEq ι] {cfg : Config ι} {s s' : Sys ι} {i : ι}

/-- A bound for the steps of the server up to the response for the client `i`. -/
def Sys.toGo (i : ι) (s : Sys ι) : ℕ := 4 * upTo (requestOf i) s.requests + s.pc.toGo

/-! ### Steps of the server -/

omit [DecidableEq ι] in
theorem toGo_dispatch (server : ℤ) (clock : List UInt8) (d : Posix.ServerData) (p : Packet ι) :
    (dispatchRequests server clock d p).2.toGo ≤ 4 := by
  unfold dispatchRequests
  split
  · exact le_rfl
  · split
    · split
      · simp [ServerPc.toGo]
      · simp [ServerPc.toGo]
    · split
      · split
        · simp [ServerPc.toGo]
        · simp [ServerPc.toGo]
      · split
        · simp [ServerPc.toGo]
        · simp [ServerPc.toGo]

/-- Nothing is in the hand of a server that is about to receive, or has not started. -/
theorem hand_of_toGo {pc : ServerPc ι} (h : pc.toGo ≤ 2) : hand i pc = [] := by
  cases pc with
  | register p => exact absurd h (by simp [ServerPc.toGo])
  | send qid p => exact absurd h (by simp [ServerPc.toGo])
  | _ => rfl

/-- What is under way for the client is all there is. -/
theorem TalkInv.one (h : TalkInv cfg s) (i : ι) : (s.flight i).length ≤ 1 := (h.orderly i).one

/-- Where the request of a client is that waits in vain. -/
theorem request_pending (h : TalkInv cfg s) (hrunning : s.pc.status = none)
    (hwaits : (s.client i).pc.Waits) (hnone : s.inbox i = []) (hgo : s.pc.toGo ≤ 2) :
    0 < upTo (requestOf i) s.requests := by
  have hphase : (s.talk cfg i).phase = .joining ∨ (s.talk cfg i).phase = .asking :=
    hwaits.imp (congrArg ClientPc.phase) (congrArg ClientPc.phase)
  have hkept : slips i (s.inbox i) s.requests s.pc ≠ [] :=
    (h.orderly i).kept hphase (not_failed hrunning)
  rw [slips, hnone, hand_of_toGo hgo, List.map_nil, List.nil_append, List.nil_append] at hkept
  obtain ⟨p, hp⟩ := List.exists_mem_of_ne_nil _ (mt (congrArg (List.map _)) hkept)
  obtain ⟨hrequest, hreq⟩ := List.mem_filter.mp hp
  exact upTo_pos hrequest hreq

/-- The queue of the client that is answered next is empty. -/
theorem inbox_of_send (h : TalkInv cfg s) {qid : ℤ} {p : Packet ι} (hpc : s.pc = .send qid p) :
    s.inbox p.origin = [] := by
  have hone := h.one p.origin
  rw [Sys.flight, hpc, slips, hand_send, if_pos rfl] at hone
  simp only [List.length_append, List.length_map, List.length_singleton] at hone
  exact List.length_eq_zero_iff.mp (by omega)

/-- **A step of the server brings the response nearer**, or is its `exit`. -/
theorem toGo_server (h : TalkInv cfg s) (hrunning : s.pc.status = none)
    (hwaits : (s.client i).pc.Waits) (hnone : s.inbox i = []) {garbage : ℤ}
    (hdoes : ServerDoes cfg garbage s s') : s'.pc.status ≠ none ∨ s'.toGo i < s.toGo i := by
  have hexit : ∀ status, (s.exitServer status).pc.status ≠ none := by
    intro status
    show (exit s.data status : ServerPc ι).status ≠ none
    rw [exit_status]
    exact Option.some_ne_none _
  -- a step that takes no request only moves within the loop
  have hlower : ∀ pc : ServerPc ι, s'.requests = s.requests → s'.pc = pc →
      pc.toGo < s.pc.toGo → s'.toGo i < s.toGo i := by
    intro pc hrequests hpc hlt
    rw [Sys.toGo, Sys.toGo, hrequests, hpc]
    omega
  cases hdoes with
  | create id q k hpc hget =>
    -- before the start of the server the queue holds no request
    have hpos := request_pending h hrunning hwaits hnone (by rw [hpc]; simp [ServerPc.toGo])
    rw [(queues_start h.sys hpc).1] at hpos
    exact absurd hpos (Nat.lt_irrefl 0)
  | wait hpc hlive => exact .inr (hlower .receive rfl rfl (by rw [hpc]; simp [ServerPc.toGo]))
  | finish hpc hactive hslot => exact .inl (hexit 0)
  | receive clock p ps hpc hslot =>
    have hpos := request_pending h hrunning hwaits hnone (by rw [hpc]; simp [ServerPc.toGo])
    have hrequests := requests_of_slot hslot
    rw [hrequests] at hpos
    have hcons := upTo_cons hpos
    have hle := toGo_dispatch cfg.server clock.1 s.data p
    have hdesc : (dispatchRequests cfg.server clock.1 s.data p).1.queueDesc = s.data.queueDesc := by
      rcases dispatch_data cfg.server clock.1 s.data p with hdata | hdata
      · rw [hdata]
      · rw [hdata]
    have hqueue : ((s.kernel.write s.data.queueDesc ps).slot
        (dispatchRequests cfg.server clock.1 s.data p).1.queueDesc).msgs = ps := by
      rw [hdesc, Kernel.write_slot_self]
      rfl
    -- a request less in the queue is worth four steps of the loop
    right
    show 4 * upTo (requestOf i) ((s.kernel.write s.data.queueDesc ps).slot
        (dispatchRequests cfg.server clock.1 s.data p).1.queueDesc).msgs +
      (dispatchRequests cfg.server clock.1 s.data p).2.toGo < s.toGo i
    rw [hqueue, Sys.toGo, hrequests, hcons, hpc, ServerPc.toGo]
    omega
  | openClient id key qid k p hpc hkey hget hqid =>
    obtain ⟨rfl, -⟩ := openClient_own h.msgs h.keys hpc hkey hget hqid
    have hdesc := (registerOpened_data cfg.server s.data p.msg qid).2
    have hrequests : (s.answerRegister cfg s.kernel qid p).requests = s.requests := by
      show (s.kernel.slot (registerOpened cfg.server s.data p.msg qid).1.queueDesc).msgs = _
      rw [hdesc, Sys.requests]
    exact .inr (hlower (.send qid _) hrequests rfl (by rw [hpc]; simp [ServerPc.toGo]))
  | send qid p ps hpc hslot hroom =>
    obtain ⟨rfl, -⟩ := h.msgs.target qid p hpc
    have hrequests : ((s.kernel.write (s.client p.origin).privQid (ps ++ [p])).slot
        s.data.queueDesc).msgs = s.requests := requests_write_priv h.keys h.sys.ok ⟨_, hslot⟩
    exact .inr (hlower .top hrequests rfl (by rw [hpc]; simp [ServerPc.toGo]))
  | fail hfails => exact .inl (hexit (-1))
  | remove status hpc =>
    rw [hpc] at hrunning
    exact absurd hrunning (Option.some_ne_none _)

/-- The server does not touch the clients, and sends to a client whose queue is empty. -/
theorem server_keeps (h : TalkInv cfg s) {garbage : ℤ} (hdoes : ServerDoes cfg garbage s s')
    (i : ι) : s'.client i = s.client i ∧ s'.latest i = s.latest i ∧
      (s.inbox i ≠ [] → s'.inbox i = s.inbox i) := by
  cases hdoes with
  | create id q k hpc hget =>
    exact ⟨rfl, rfl, fun hne => absurd ((queues_start h.sys hpc).2 i) hne⟩
  | receive clock p ps hpc hslot =>
    exact ⟨rfl, rfl, fun _ => inbox_write_desc h.keys h.sys.ok ⟨_, hslot⟩ i⟩
  | openClient id key qid k p hpc hkey hget hqid =>
    obtain ⟨rfl, -⟩ := openClient_own h.msgs h.keys hpc hkey hget hqid
    exact ⟨rfl, rfl, fun _ => rfl⟩
  | send qid p ps hpc hslot hroom =>
    have hempty := inbox_of_send h hpc
    obtain ⟨rfl, -⟩ := h.msgs.target qid p hpc
    refine ⟨rfl, rfl, fun hne => ?_⟩
    -- the server sends to empty inboxes only
    have hi : i ≠ p.origin := by
      rintro rfl
      exact hne hempty
    have hinbox : ((s.kernel.write (s.client p.origin).privQid (ps ++ [p])).slot
        (s.client i).privQid).msgs = Function.update s.inbox p.origin (ps ++ [p]) i :=
      inbox_write_priv h.keys h.sys.ok ⟨_, hslot⟩ i
    rw [Function.update_of_ne hi] at hinbox
    exact hinbox
  | remove status hpc => exact ⟨rfl, rfl, fun _ => inbox_rmid_desc h.keys h.sys.ok i⟩
  | _ => exact ⟨rfl, rfl, fun _ => rfl⟩

/-- The server finds the queue that a `REGISTER` comes from, or fails. -/
theorem register_isSome (h : TalkInv cfg s) {p : Packet ι} (hpc : s.pc = .register p) :
    (serverStep cfg 0 0 ⟨[], clock_nil⟩ s).isSome := by
  obtain ⟨hsent, htype⟩ := h.msgs.register p hpc
  have hkey : cfg.privKey p.origin ≠ ipcPrivate := (cfg.ftok.key_ne _).2
  simp only [serverStep, hpc, hsent.key htype, openClient, Option.isSome_map, Kernel.msgget,
    if_neg hkey]
  split
  · rfl
  · rfl

/-- The server can send. -/
theorem send_isSome (h : TalkInv cfg s) {qid : ℤ} {p : Packet ι} (hpc : s.pc = .send qid p) :
    (serverStep cfg 0 0 ⟨[], clock_nil⟩ s).isSome := by
  have hempty := inbox_of_send h hpc
  obtain ⟨rfl, -⟩ := h.msgs.target qid p hpc
  rw [Sys.inbox] at hempty
  simp only [serverStep, hpc, Kernel.msgsnd]
  cases hslot : s.kernel.slot (s.client p.origin).privQid with
  | live ps =>
    rw [hslot] at hempty
    obtain rfl : ps = [] := hempty
    have hroom : ([] : List (Packet ι)).length < cfg.capacity := cfg.capacity_pos
    simp only [if_pos hroom]
    rfl
  | unused => rfl
  | removed => rfl

/-- **The server can go on** as long as the client waits in vain. -/
theorem enabled_server (h : TalkInv cfg s) (hrunning : s.pc.status = none)
    (hwaits : (s.client i).pc.Waits) (hnone : s.inbox i = []) :
    (system cfg).Enabled Event.OfServer s := by
  -- a client that waits has its request in the queue or in the server's hand
  have hpos := request_pending h hrunning hwaits hnone
  suffices hsome : (serverStep cfg 0 0 ⟨[], clock_nil⟩ s).isSome by
    obtain ⟨s', hs'⟩ := Option.isSome_iff_exists.mp hsome
    exact ⟨.server 0 0 ⟨[], clock_nil⟩, s', trivial, hs'⟩
  cases hpc : s.pc with
  | start =>
    have hpos' := hpos (by rw [hpc]; simp [ServerPc.toGo])
    rw [(queues_start h.sys hpc).1] at hpos'
    exact absurd hpos' (Nat.lt_irrefl 0)
  | top =>
    simp only [serverStep, hpc]
    split
    · rfl
    · split
      · rfl
      · rfl
      · rfl
  | receive =>
    simp only [serverStep, hpc, Kernel.msgrcv]
    cases hslot : s.kernel.slot s.data.queueDesc with
    | live ps =>
      cases ps with
      | nil =>
        have hpos' := hpos (by rw [hpc]; simp [ServerPc.toGo])
        rw [requests_of_slot hslot] at hpos'
        exact absurd hpos' (Nat.lt_irrefl 0)
      | cons p ps => rfl
    | unused => rfl
    | removed => rfl
  | register p => exact register_isSome h hpc
  | send qid p => exact send_isSome h hpc
  | _ =>
    rw [hpc] at hrunning
    exact absurd hrunning (Option.some_ne_none _)

/-! ### Steps of the clients -/

/-- **Another client leaves everything alone** that the client `i` waits for. -/
theorem elsewhere (h : TalkInv cfg s) (hapart : cfg.Apart) {j : ι} (hij : i ≠ j)
    (hdoes : ClientDoes cfg j s s') : s'.client i = s.client i ∧ s'.latest i = s.latest i ∧
      s'.inbox i = s.inbox i ∧ s'.toGo i = s.toGo i := by
  have hset : ∀ c : Client, Function.update s.client j c i = s.client i := fun c =>
    Function.update_of_ne hij ..
  have hgo : ∀ ps, upTo (requestOf i) ps = upTo (requestOf i) s.requests →
      4 * upTo (requestOf i) ps + s.pc.toGo = s.toGo i := by
    intro ps hps
    rw [hps, Sys.toGo]
  have hstay : ∀ c : Client, (s.setClient j c).inbox i = s.inbox i := by
    intro c
    show (s.kernel.slot (Function.update s.client j c i).privQid).msgs = _
    rw [hset, Sys.inbox]
  have htake : ∀ (p : Packet ι) (ps : List (Packet ι)) (c : Client),
      s.kernel.slot (s.client j).privQid = .live (p :: ps) → c.privQid = (s.client j).privQid →
      (s.clientTake j p ps c).inbox i = s.inbox i ∧ (s.clientTake j p ps c).toGo i = s.toGo i := by
    intro p ps c hslot hpriv
    obtain ⟨-, hrequests, hinbox⟩ := queues_clientTake h.keys h.sys.ok hslot hpriv
    exact ⟨by rw [hinbox, Function.update_of_ne hij], hgo _ (congrArg _ hrequests)⟩
  cases hdoes with
  | openPublic q hpc hkey => exact ⟨hset _, rfl, hstay _, rfl⟩
  | openPrivate id q k hpc hget =>
    obtain ⟨hrequests, hinbox⟩ := queues_openPrivate h.keys h.sys.ok h.sys.known hapart hpc hget
    exact ⟨hset _, rfl, congrFun hinbox i, hgo _ (congrArg _ hrequests)⟩
  | send msg answered pc ps hpc hslot hroom =>
    obtain ⟨hrequests, hinbox⟩ := queues_clientPost h.keys h.sys.ok hslot msg answered pc
    -- a message of `j` is no request of `i`
    have hreq : requestOf i ⟨msg, j⟩ = false := decide_eq_false fun heq => hij heq.1.symm
    refine ⟨hset _, ?_, congrFun hinbox i, hgo _ ?_⟩
    · show (if answered then Function.update s.latest j (some msg) else s.latest) i = _
      split
      · exact Function.update_of_ne hij ..
      · rfl
    · rw [hrequests, upTo_concat hreq]
  | session p ps hpc hslot =>
    obtain ⟨hinbox, hgo'⟩ := htake p ps _ hslot (readSession_desc _ _ _).2
    exact ⟨hset _, rfl, hinbox, hgo'⟩
  | prompt hpc => exact ⟨hset _, rfl, hstay _, rfl⟩
  | response p ps hpc hslot =>
    obtain ⟨hinbox, hgo'⟩ := htake p ps { s.client j with msg := p.msg, pc := .prompt } hslot rfl
    exact ⟨hset _, rfl, hinbox, hgo'⟩
  | exit status hpc => exact ⟨hset _, rfl, hstay _, rfl⟩
  | remove status hpc =>
    obtain ⟨hrequests, hinbox⟩ := queues_remove (i := j) h.keys h.sys.ok status
    refine ⟨hset _, rfl, ?_, hgo _ (congrArg _ hrequests)⟩
    rw [hinbox, Function.update_of_ne hij]

/-- A client that waits takes the response, or its call fails. -/
theorem own (h : TalkInv cfg s) (hwaits : (s.client i).pc.Waits)
    (hdoes : ClientDoes cfg i s s') : (s'.client i).pc.phase = .left ∨ ∃ p, s.inbox i = [p] ∧
      s'.client i = received (cfg.junk i) (s.client i) p.msg := by
  have hself : ∀ c : Client, Function.update s.client i c i = c := fun c => Function.update_self ..
  -- a client has at most one response in its inbox
  have hone : ∀ {p ps}, s.kernel.slot (s.client i).privQid = .live (p :: ps) →
      s.inbox i = [p] := by
    intro p ps hslot
    have hinbox : s.inbox i = p :: ps := by
      rw [Sys.inbox, hslot]
      rfl
    have hle := h.one i
    rw [Sys.flight, slips, hinbox] at hle
    simp only [List.map_cons, List.length_append, List.length_cons, List.length_map] at hle
    obtain rfl : ps = [] := List.length_eq_zero_iff.mp (by omega)
    exact hinbox
  have hnot : ∀ {pc}, pc ≠ .receiveSession → pc ≠ .receiveResponse → (s.client i).pc ≠ pc := by
    rintro pc hsession hresponse rfl
    exact hwaits.elim hsession hresponse
  cases hdoes with
  | session p ps hpc hslot =>
    refine .inr ⟨p, hone hslot, ?_⟩
    rw [received, if_pos hpc]
    exact hself _
  | response p ps hpc hslot =>
    refine .inr ⟨p, hone hslot, ?_⟩
    rw [received, if_neg (by rw [hpc]; exact ClientPc.noConfusion)]
    exact hself _
  | exit status hpc =>
    left
    have hclient : (s.setClient i (exitClient (s.client i) status)).client i =
        exitClient (s.client i) status := hself _
    rw [hclient]
    exact phase_exitClient _ status
  | openPublic q hpc hkey => exact absurd hpc (hnot ClientPc.noConfusion ClientPc.noConfusion)
  | openPrivate id q k hpc hget =>
    exact absurd hpc (hnot ClientPc.noConfusion ClientPc.noConfusion)
  -- a client that waits sends nothing
  | send msg answered pc ps hpc hslot hroom =>
    have hnone : ClientPc.sends cfg i (s.client i) = none := by
      rcases hwaits with hwaits | hwaits
      · rw [ClientPc.sends, hwaits]
      · rw [ClientPc.sends, hwaits]
    exact absurd (hnone.symm.trans hpc) (Option.some_ne_none _).symm
  | prompt hpc => exact absurd hpc (hnot ClientPc.noConfusion ClientPc.noConfusion)
  | remove status hpc => exact absurd hpc (hnot ClientPc.noConfusion ClientPc.noConfusion)

end Server

/-! ### Runs -/

section Runs

variable [DecidableEq ι] {cfg : Config ι} {s s' : Sys ι} {es : ℕ → Event ι} {i : ι}
  {c : Client} {latest : Option Message}

/-- The client `i` still is as `c`, which waits, with the request that it made. -/
structure Awaiting (cfg : Config ι) (i : ι) (c : Client) (latest : Option Message)
    (s : Sys ι) : Prop where
  talk : TalkInv cfg s
  waits : c.pc.Waits
  client : s.client i = c
  latest_eq : s.latest i = latest

/-- A step of the system that is none of the client `i`. -/
theorem Awaiting.step (h : Awaiting cfg i c latest s) (hapart : cfg.Apart) {e : Event ι}
    (he : ¬e.OfClient i) (hstep : (system cfg).step e s = some s') :
    (s'.client i).pc.phase = .left ∨ Awaiting cfg i c latest s' ∧
      (s.inbox i ≠ [] → s'.inbox i = s.inbox i) := by
  have htalk := talkInv_step h.talk hapart hstep
  cases does h.talk.sys.ok hstep with
  | server id garbage clock hdoes =>
    obtain ⟨hclient, hlatest, hinbox⟩ := server_keeps h.talk hdoes i
    exact .inr ⟨⟨htalk, h.waits, hclient.trans h.client, hlatest.trans h.latest_eq⟩, hinbox⟩
  | interruptServer hpc =>
    exact .inr ⟨⟨htalk, h.waits, h.client, h.latest_eq⟩, fun _ => rfl⟩
  | client j id hdoes =>
    obtain ⟨hclient, hlatest, hinbox, -⟩ := elsewhere h.talk hapart (Ne.symm he) hdoes
    exact .inr ⟨⟨htalk, h.waits, hclient.trans h.client, hlatest.trans h.latest_eq⟩,
      fun _ => hinbox⟩
  | interruptClient j hpc =>
    by_cases hij : i = j
    · subst hij
      left
      have hclient : (s.setClient i (exitClient (s.client i) 2)).client i =
          exitClient (s.client i) 2 := Function.update_self ..
      rw [hclient]
      exact phase_exitClient _ 2
    · obtain ⟨hclient, hlatest, hinbox, -⟩ :=
        elsewhere h.talk hapart hij (.exit 2 hpc)
      exact .inr ⟨⟨htalk, h.waits, hclient.trans h.client, h.latest_eq⟩, fun _ => hinbox⟩

/-- The server has ended, the client has left, or the response is there. -/
def Reached (cfg : Config ι) (i : ι) (c : Client) (latest : Option Message) (s : Sys ι) : Prop :=
  s.pc.status ≠ none ∨ (s.client i).pc.phase = .left ∨
    Awaiting cfg i c latest s ∧ s.inbox i ≠ []

/-- **The server comes to the request.** -/
theorem Awaiting.reached (h : Awaiting cfg i c latest s) (hapart : cfg.Apart)
    (hserver : (system cfg).Just Event.OfServer es s) :
    ∃ n, Reached cfg i c latest ((system cfg).trace es s n) := by
  -- as long as it is not reached, the server runs and the client waits at an empty inbox
  have hopen : ∀ s, Awaiting cfg i c latest s → ¬Reached cfg i c latest s →
      s.pc.status = none ∧ (s.client i).pc.Waits ∧ s.inbox i = [] := by
    intro s h hnot
    rw [Reached, not_or, not_or, not_not] at hnot
    refine ⟨hnot.1, h.client ▸ h.waits, ?_⟩
    by_contra hne
    exact hnot.2.2 ⟨h, hne⟩
  have hcan : ∀ s, Awaiting cfg i c latest s → ¬Reached cfg i c latest s →
      (system cfg).Enabled Event.OfServer s := by
    intro s h hnot
    obtain ⟨hrunning, hwaits, hnone⟩ := hopen s h hnot
    exact enabled_server h.talk hrunning hwaits hnone
  have hstep : ∀ e s s', Awaiting cfg i c latest s → ¬Reached cfg i c latest s →
      (system cfg).step e s = some s' → Reached cfg i c latest s' ∨ Awaiting cfg i c latest s' ∧
        s'.toGo i ≤ s.toGo i ∧ (e.OfServer → s'.toGo i < s.toGo i) := by
    intro e s s' h hnot hs
    obtain ⟨hrunning, hwaits, hnone⟩ := hopen s h hnot
    have hgo : ¬e.OfClient i → s'.toGo i ≤ s.toGo i → (e.OfServer → s'.toGo i < s.toGo i) →
        Reached cfg i c latest s' ∨ Awaiting cfg i c latest s' ∧
          s'.toGo i ≤ s.toGo i ∧ (e.OfServer → s'.toGo i < s.toGo i) := by
      intro he hle hlt
      rcases h.step hapart he hs with hleft | ⟨h', -⟩
      · exact .inl (.inr (.inl hleft))
      · exact .inr ⟨h', hle, hlt⟩
    cases does h.talk.sys.ok hs with
    | server id garbage clock hdoes =>
      rcases toGo_server h.talk hrunning hwaits hnone hdoes with hended | hlt
      · exact .inl (.inl hended)
      · exact hgo not_false hlt.le fun _ => hlt
    | interruptServer hpc =>
      refine .inl (.inl ?_)
      show (exit s.data 2 : ServerPc ι).status ≠ none
      rw [exit_status]
      exact Option.some_ne_none _
    | client j id hdoes =>
      -- the client that waits has nothing to take, so its step is an `exit`
      by_cases hij : i = j
      · subst hij
        rcases own h.talk hwaits hdoes with hleft | ⟨p, hp, -⟩
        · exact .inl (.inr (.inl hleft))
        · exact absurd (hp.symm.trans hnone) (List.cons_ne_nil _ _)
      · obtain ⟨-, -, -, hsame⟩ := elsewhere h.talk hapart hij hdoes
        exact hgo (Ne.symm hij) hsame.le False.elim
    | interruptClient j hpc => exact hgo not_false le_rfl False.elim
  have hstart : Awaiting cfg i c latest ((system cfg).trace es s 0) := h
  obtain ⟨n, -, hn⟩ := hserver.leads_to _ _ (Sys.toGo i) hcan hstep hstart
  exact ⟨n, hn⟩

/-- The client can take the response. -/
theorem Awaiting.enabled (h : Awaiting cfg i c latest s) {p : Packet ι}
    (hinbox : s.inbox i = [p]) : (system cfg).Enabled (Event.OfClient i) s := by
  have hwaits : (s.client i).pc.Waits := h.client ▸ h.waits
  have hslot : s.kernel.slot (s.client i).privQid = .live [p] := by
    rw [Sys.inbox] at hinbox
    cases hslot : s.kernel.slot (s.client i).privQid with
    | live ps =>
      rw [hslot] at hinbox
      exact congrArg Slot.live hinbox
    | unused =>
      rw [hslot] at hinbox
      cases hinbox
    | removed =>
      rw [hslot] at hinbox
      cases hinbox
  suffices hsome : (clientStep cfg i 0 s).isSome by
    obtain ⟨s', hs'⟩ := Option.isSome_iff_exists.mp hsome
    exact ⟨.client i 0, s', rfl, hs'⟩
  rcases hwaits with hpc | hpc
  · simp only [clientStep, hpc, clientReceive, Kernel.msgrcv, hslot]
    rfl
  · simp only [clientStep, hpc, clientReceive, Kernel.msgrcv, hslot]
    rfl

/-- **The client comes to the response.** -/
theorem Awaiting.taken (hapart : cfg.Apart) (hclient : (system cfg).Just (Event.OfClient i) es s)
    {n : ℕ} {p : Packet ι} (hn : Awaiting cfg i c latest ((system cfg).trace es s n))
    (hp : ((system cfg).trace es s n).inbox i = [p]) :
    ∃ m, (((system cfg).trace es s m).client i).pc.phase = .left ∨
      ((system cfg).trace es s m).client i = received (cfg.junk i) c p.msg := by
  have hcan : ∀ s, Awaiting cfg i c latest s ∧ s.inbox i = [p] →
      ¬((s.client i).pc.phase = .left ∨ s.client i = received (cfg.junk i) c p.msg) →
      (system cfg).Enabled (Event.OfClient i) s := by
    rintro s ⟨h, hp⟩ -
    exact h.enabled hp
  have hstep : ∀ e s s', Awaiting cfg i c latest s ∧ s.inbox i = [p] →
      ¬((s.client i).pc.phase = .left ∨ s.client i = received (cfg.junk i) c p.msg) →
      (system cfg).step e s = some s' →
      ((s'.client i).pc.phase = .left ∨ s'.client i = received (cfg.junk i) c p.msg) ∨
        (Awaiting cfg i c latest s' ∧ s'.inbox i = [p]) ∧ 0 ≤ 0 ∧ (e.OfClient i → 0 < 0) := by
    -- the measure is constant, the step of the client itself is what is waited for
    rintro e s s' ⟨h, hp⟩ - hs
    by_cases he : e.OfClient i
    · cases does h.talk.sys.ok hs with
      | client j id hdoes =>
        obtain rfl : j = i := he
        rcases own h.talk (h.client ▸ h.waits) hdoes with hleft | ⟨p', hp', hclient⟩
        · exact .inl (.inl hleft)
        · obtain rfl : p' = p := List.singleton_inj.mp (hp'.symm.trans hp)
          rw [h.client] at hclient
          exact .inl (.inr hclient)
      | _ => exact he.elim
    · rcases h.step hapart he hs with hleft | ⟨h', hinbox⟩
      · exact .inl (.inl hleft)
      · refine .inr ⟨⟨h', ?_⟩, le_rfl, fun hkind => absurd hkind he⟩
        rw [hinbox (by rw [hp]; exact List.cons_ne_nil _ _), hp]
  obtain ⟨m, -, hm⟩ := hclient.leads_to _ _ (fun _ => 0) hcan hstep ⟨hn, hp⟩
  exact ⟨m, hm⟩

/-- **Every request is answered**: if the pids are apart, a client that waits comes to have
taken a response to its request, if the server does not come to `exit` and `SIGINT` does not
reach the client. -/
theorem responses_arrive (cfg : Config ι) (hapart : cfg.Apart) (s : Sys ι) (i : ι)
    (hreach : (system cfg).Reach cfg.start s) (hwaits : (s.client i).pc.Waits)
    (es : ℕ → Event ι) (hserver : (system cfg).Just Event.OfServer es s)
    (hclient : (system cfg).Just (Event.OfClient i) es s) :
    ∃ n, ((system cfg).trace es s n).pc.status ≠ none ∨
      (((system cfg).trace es s n).client i).pc.phase = .left ∨
        ∃ req resp, s.latest i = some req ∧ Answers cfg.server req resp ∧
          ((system cfg).trace es s n).client i = received (cfg.junk i) (s.client i) resp := by
  have htalk : TalkInv cfg s :=
    hreach.invariant (fun _ _ _ h hs => talkInv_step h hapart hs) (talkInv_start cfg)
  have h : Awaiting cfg i (s.client i) (s.latest i) s := ⟨htalk, hwaits, rfl, rfl⟩
  obtain ⟨n, hended | hleft | ⟨hn, hne⟩⟩ := h.reached hapart hserver
  · exact ⟨n, .inl hended⟩
  · exact ⟨n, .inr (.inl hleft)⟩
  · -- the response is there, and a just history does not pass over the client
    have hone := hn.talk.one i
    obtain ⟨p, hp⟩ : ∃ p, ((system cfg).trace es s n).inbox i = [p] := by
      cases hq : ((system cfg).trace es s n).inbox i with
      | nil => exact absurd hq hne
      | cons p rest =>
        rw [Sys.flight, slips, hq] at hone
        simp only [List.map_cons, List.length_append, List.length_cons, List.length_map] at hone
        obtain rfl : rest = [] := List.length_eq_zero_iff.mp (by omega)
        exact ⟨p, rfl⟩
    have hmem : Slip.answered p.msg ∈ ((system cfg).trace es s n).flight i := by
      rw [Sys.flight, slips, hp]
      exact List.mem_cons_self
    obtain ⟨req, hlatest, hanswers⟩ := (hn.talk.orderly i).answered p.msg hmem
    have hreq : s.latest i = some req := hn.latest_eq.symm.trans hlatest
    obtain ⟨m, hleft | htaken⟩ := Awaiting.taken hapart hclient hn hp
    · exact ⟨m, .inr (.inl hleft)⟩
    · exact ⟨m, .inr (.inr ⟨req, p.msg, hreq, hanswers, htaken⟩)⟩

/-- Two clients whose keys are apart. -/
def neighbours : Config Bool where
  ftok := .plain
  server := 100
  server_pos := hundred_pos
  pid first := if first then 11 else 12
  pid_pos first := by cases first <;> decide
  capacity := 7
  capacity_pos := seven_pos
  stdin := fun _ => []
  junk := fun _ => [nul]

theorem neighbours_apart : neighbours.Apart := ⟨by decide, by decide⟩

/-- The first client has sent its `REGISTER`. -/
def joined : Sys Bool :=
  (system neighbours).run [.server 0 0 ⟨[], clock_nil⟩, .client true 1, .client true 1,
    .client true 1] neighbours.start

theorem responses_arrive_joined :
    ∃ es, ∃ n, ((system neighbours).trace es joined n).pc.status ≠ none ∨
      (((system neighbours).trace es joined n).client true).pc.phase = .left ∨
        ∃ req resp, joined.latest true = some req ∧ Answers neighbours.server req resp ∧
          ((system neighbours).trace es joined n).client true =
            received (neighbours.junk true) (joined.client true) resp := by
  obtain ⟨es, hjust⟩ := Machine.exists_just
    (fun k => if k = 0 then Event.OfServer else Event.OfClient true) joined
  exact ⟨es, responses_arrive neighbours neighbours_apart joined true (Machine.reach_run _ _)
    (by decide) es (hjust 0) (hjust 1)⟩

end Runs

end SystemV
end MsgQueue
end OpSys
