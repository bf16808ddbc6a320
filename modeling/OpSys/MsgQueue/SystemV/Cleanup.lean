import OpSys.MsgQueue.Lookup
import OpSys.MsgQueue.SystemV.Apart

/-!
# Queues that nobody removes

A System V queue stays in the system when the processes are gone, unless one of them has
removed it.  Each process removes the queue that it holds, and `handle_register` makes none,
since it has the key of a client.  But if a client has the key of the server, a response to it
comes back to the server, which takes the session number in it for a key: 0 is `IPC_PRIVATE`.

## Main definitions

* `Sys.Tidy` — every queue has a process that will remove it.
* `PubInv` — only the server's key leads to its queue.
* `CareInv` — the server receives messages of clients only.

## Main results

* `careInv_step` — what a step keeps, if no client has the key of the server.
* `queues_tidy_iff` — every queue has a process that will remove it exactly then.

## References

`lab5_message_queues/SystemV/server.c`, `lab5_message_queues/SystemV/client.c`.
-/

namespace OpSys
namespace MsgQueue
namespace SystemV

open Stdio Ipc
open Posix (ServerData search)

variable {ι : Type*}

/-- Every queue is that of a process that has not ended. -/
def Sys.Tidy (s : Sys ι) : Prop :=
  ∀ q, (s.kernel.slot q).Live →
    (q = s.data.queueDesc ∧ ∀ status, s.pc ≠ .gone status) ∨
      ∃ i, q = (s.client i).privQid ∧ ¬s.Exited i

/-! ### The queue of the server -/

/-- No other key leads to the queue of the server. -/
structure PubInv (cfg : Config ι) (k : Kernel (Packet ι)) (desc : ℤ) (client : ι → Client) :
    Prop where
  pub : ∀ q, k.keys cfg.pubKey = some q → q = desc
  other : ∀ key q, key ≠ cfg.pubKey → k.keys key = some q → q ≠ desc
  own : ∀ i, ClientInv cfg k desc i (client i)

namespace PubInv

variable {cfg : Config ι} {k k' : Kernel (Packet ι)} {desc id q : ℤ} {client : ι → Client} {i : ι}

/-- The calls that create no queue. -/
theorem keeps (h : PubInv cfg k desc client) (hk : k.Keeps k') : PubInv cfg k' desc client where
  pub q hq := h.pub q (hk.keys _ q hq)
  other key q hkey hq := h.other key q hkey (hk.keys _ q hq)
  own i := { h.own i with opened := (h.own i).opened.imp_right (And.imp_right (hk.used _)) }

/-- The server makes the public queue. -/
theorem create (h : PubInv cfg k (-1) client) (hkeys : ∀ key, k.keys key = none)
    (hfresh : ∀ i, (client i).privQid = -1) (hget : k.Got cfg.pubKey true id q k') :
    PubInv cfg k' q client := by
  have hpub : k'.keys cfg.pubKey = some q := hget.keys_self (cfg.ftok.key_ne projectId).2
  refine ⟨fun q' hq' => ?_, fun key q' hne hq' => ?_, fun i => ?_⟩
  · exact Option.some.inj (hq'.symm.trans hpub)
  · rw [hget.keys_of_ne hne, hkeys] at hq'
    exact absurd hq' (Option.some_ne_none _).symm
  · exact {
      queueDesc := .inl (or_self_iff.mp (h.own i).queueDesc)
      unopened := (h.own i).unopened
      opened := .inl (hfresh i)
      asks := (h.own i).asks }

section Clients

variable [DecidableEq ι]

/-- A client goes on. -/
theorem update (h : PubInv cfg k desc client) {c : Client} (hc : ClientInv cfg k desc i c) :
    PubInv cfg k desc (Function.update client i c) where
  pub := h.pub
  other := h.other
  own j := by
    by_cases hj : j = i
    · subst hj
      rwa [Function.update_self]
    · rw [Function.update_of_ne hj]
      exact h.own j

/-- The client `i` opens or makes a queue with a key that is not the server's. -/
theorem openPrivate (h : PubInv cfg k desc client) (hok : k.Ok)
    (hdesc : desc = -1 ∨ k.slot desc ≠ .unused) (hne : cfg.privKey i ≠ cfg.pubKey)
    (hget : k.Got (cfg.privKey i) true id q k') :
    PubInv cfg k' desc
      (Function.update client i { client i with privQid := q, pc := .sendRegister }) := by
  have hprivate := (cfg.ftok.key_ne (cfg.pid i)).2
  have hkey : k'.keys (cfg.privKey i) = some q := hget.keys_self hprivate
  -- whatever the queue is, it is opened and it is not the public one
  have hq : q ≠ desc := by
    cases hold : k.keys (cfg.privKey i) with
    | some q' =>
      obtain rfl := Option.some.inj ((hget.keys_of_some hold).symm.trans hkey)
      exact h.other _ _ hne hold
    | none =>
      obtain ⟨hnonneg, hunused, -⟩ := hget.fresh hprivate hold
      rintro rfl
      rcases hdesc with hdesc | hused
      · omega
      · exact hused hunused
  have hk : PubInv cfg k' desc client := by
    refine ⟨fun q' hq' => ?_, fun key q' hkey' hq' => ?_, fun j => ?_⟩
    · rw [hget.keys_of_ne hne.symm] at hq'
      exact h.pub q' hq'
    · by_cases hkeyi : key = cfg.privKey i
      · rw [hkeyi, hkey] at hq'
        exact Option.some.inj hq' ▸ hq
      · rw [hget.keys_of_ne hkeyi] at hq'
        exact h.other key q' hkey' hq'
    · have hused : ∀ q', k.slot q' ≠ .unused → k'.slot q' ≠ .unused := by
        intro q' hq'
        rwa [hget.slot_eq hq']
      exact { h.own j with opened := (h.own j).opened.imp_right (And.imp_right (hused _)) }
  refine hk.update ⟨(h.own i).queueDesc, fun heq => ?_,
    .inr ⟨hq, ((hok.got hget).keyed _ _ hkey).used⟩, fun _ heq => nomatch heq⟩
  rcases heq with heq | heq
  · cases heq
  · cases heq

end Clients

end PubInv

/-! ### The messages of the server -/

/-- The server receives messages of clients only, and sends to queues of clients. -/
structure CareInv (cfg : Config ι) (s : Sys ι) : Prop where
  queues : PubInv cfg s.kernel s.data.queueDesc s.client
  blank : s.pc = .start → ∀ n, (s.data.clientsData n).1 = 0
  table : ∀ n, (s.data.clientsData n).1 ≠ 0 → (s.data.clientsData n).2 ≠ s.data.queueDesc
  sent : ∀ p ∈ s.requests, p.Sent cfg
  register : ∀ p, s.pc = .register p → p.Sent cfg ∧ p.msg.type = typeRegister
  target : ∀ qid p, s.pc = .send qid p → qid ≠ s.data.queueDesc

section Dispatch

variable {server : ℤ} {clock : List UInt8} {d : ServerData} {p p' : Packet ι} {qid : ℤ}

/-- `get_qid` finds an entry, or none. -/
theorem getQid_found {pid : ℤ} (h : getQid d pid ≠ -1) :
    ∃ n, (d.clientsData n).1 = pid ∧ getQid d pid = (d.clientsData n).2 := by
  unfold getQid at h ⊢
  dsimp only at h ⊢
  split at h
  · rename_i hlt
    rw [if_pos hlt]
    rcases search_cases d.clientsData pid maxClients.toNat 0 with ⟨hstop, -⟩ | ⟨-, hpid⟩
    · rw [hstop] at hlt
      exact absurd hlt (by decide)
    · exact ⟨_, hpid, rfl⟩
  · exact absurd rfl h

theorem dispatch_register (h : (dispatchRequests server clock d p).2 = .register p') :
    p = p' ∧ p.msg.type = typeRegister := by
  unfold dispatchRequests at h
  split at h
  · exact ⟨ServerPc.register.inj h, by assumption⟩
  · split at h
    · split at h <;> cases h
    · split at h
      · split at h <;> cases h
      · split at h <;> cases h

theorem dispatch_send (h : (dispatchRequests server clock d p).2 = .send qid p') :
    qid = getQid d p.msg.senderPid ∧ qid ≠ -1 := by
  unfold dispatchRequests at h
  split at h
  · cases h
  · split at h
    · split at h
      · cases h
      · obtain ⟨rfl, -⟩ := ServerPc.send.inj h
        exact ⟨rfl, by assumption⟩
    · split at h
      · split at h
        · cases h
        · obtain ⟨rfl, -⟩ := ServerPc.send.inj h
          exact ⟨rfl, by assumption⟩
      · split at h <;> cases h

end Dispatch

section Server

variable {cfg : Config ι} {s s' : Sys ι} {p : Packet ι} {ps : List (Packet ι)}

theorem careInv_start (cfg : Config ι) : CareInv cfg cfg.start where
  queues := {
    pub := fun _ hq => absurd hq (Option.some_ne_none _).symm
    other := fun _ _ _ hq => absurd hq (Option.some_ne_none _).symm
    own := (keyInv_start cfg).own }
  blank _ _ := rfl
  table _ h := absurd rfl h
  sent _ hp := absurd hp List.not_mem_nil
  register _ hpc := nomatch hpc
  target _ _ hpc := nomatch hpc

/-- The server goes on with nothing in its hand. -/
theorem CareInv.goOn (h : CareInv cfg s) {pc : ServerPc ι} (hstart : pc ≠ .start)
    (hregister : ∀ p, pc ≠ .register p) (hsend : ∀ qid p, pc ≠ .send qid p) :
    CareInv cfg { s with pc := pc } where
  queues := h.queues
  blank hpc := absurd hpc hstart
  table := h.table
  sent := h.sent
  register p hpc := absurd hpc (hregister p)
  target qid p hpc := absurd hpc (hsend qid p)

theorem CareInv.exitServer (h : CareInv cfg s) (status : ℤ) :
    CareInv cfg (s.exitServer status) := by
  obtain ⟨hregister, hsend⟩ := status_ne (exit_status (ι := ι) s.data status)
  exact h.goOn (exit_ne_start s.data status) hregister hsend

/-- A message of a client is received. -/
theorem CareInv.receive (h : CareInv cfg s)
    (hslot : s.kernel.slot s.data.queueDesc = .live (p :: ps)) (clock : List UInt8) :
    CareInv cfg { s.goOn (dispatchRequests cfg.server clock s.data p) with
      kernel := s.kernel.write s.data.queueDesc ps
      dispatched := s.dispatched ++ [p] } := by
  have hrequests := requests_of_slot hslot
  have hsent : p.Sent cfg := h.sent p (by rw [hrequests]; exact List.mem_cons_self)
  have hdata : (dispatchRequests cfg.server clock s.data p).1.queueDesc = s.data.queueDesc ∧
      (dispatchRequests cfg.server clock s.data p).1.clientsData = s.data.clientsData := by
    rcases dispatch_data cfg.server clock s.data p with hdata | hdata
    · rw [hdata]
      exact ⟨rfl, rfl⟩
    · rw [hdata]
      exact ⟨rfl, rfl⟩
  refine ⟨?_, fun hpc => absurd hpc dispatch_ne_start.1, fun n => ?_, fun p' hp' => ?_,
    fun p' hpc => ?_, fun qid p' hpc => ?_⟩
  · show PubInv cfg (s.kernel.write s.data.queueDesc ps)
      (dispatchRequests cfg.server clock s.data p).1.queueDesc s.client
    rw [hdata.1]
    exact h.queues.keeps (Kernel.keeps_write ..)
  · show ((dispatchRequests cfg.server clock s.data p).1.clientsData n).1 ≠ 0 →
      ((dispatchRequests cfg.server clock s.data p).1.clientsData n).2 ≠
        (dispatchRequests cfg.server clock s.data p).1.queueDesc
    rw [hdata.1, hdata.2]
    exact h.table n
  · have hp'' : p' ∈ ((s.kernel.write s.data.queueDesc ps).slot
      (dispatchRequests cfg.server clock s.data p).1.queueDesc).msgs := hp'
    rw [hdata.1, Kernel.write_slot_self] at hp''
    exact h.sent p' (by rw [hrequests]; exact List.mem_cons_of_mem p hp'')
  · obtain ⟨rfl, htype⟩ := dispatch_register hpc
    exact ⟨hsent, htype⟩
  · -- the entry has the sender's pid, so it is not a blank one, and no entry is the public queue
    obtain ⟨hqid, hne⟩ := dispatch_send hpc
    obtain ⟨n, hn, hget⟩ := getQid_found (hqid ▸ hne)
    show qid ≠ (dispatchRequests cfg.server clock s.data p).1.queueDesc
    rw [hdata.1, hqid, hget]
    refine h.table n ?_
    rw [hn]
    exact hsent.pid_pos.ne'

/-- The key of a client leads to a queue that is there, and not to that of the server. -/
theorem CareInv.found (h : CareInv cfg s) (hne : ∀ i, cfg.privKey i ≠ cfg.pubKey)
    (hpc : s.pc = .register p) {garbage key id qid : ℤ} {k : Kernel (Packet ι)}
    (hkey : clientKey garbage p.msg.content = some key) (hget : s.kernel.Got key false id qid k)
    (hqid : qid ≠ -1) : k = s.kernel ∧ qid ≠ s.data.queueDesc := by
  obtain ⟨hsent, htype⟩ := h.register p hpc
  obtain rfl : cfg.privKey p.origin = key := by
    simpa only [clientKey, hsent.key htype, Option.some.injEq] using hkey
  obtain ⟨hk, hfound⟩ := hget.found_of_ne (cfg.ftok.key_ne _).2 hqid
  exact ⟨hk, h.queues.other _ _ (hne _) hfound⟩

theorem table_registerOpened {server qid : ℤ} {d : ServerData} (msg : Message)
    (htable : ∀ n, (d.clientsData n).1 ≠ 0 → (d.clientsData n).2 ≠ d.queueDesc)
    (hqid : qid ≠ d.queueDesc) (n : ℕ)
    (hne : ((registerOpened server d msg qid).1.clientsData n).1 ≠ 0) :
    ((registerOpened server d msg qid).1.clientsData n).2 ≠ d.queueDesc := by
  unfold registerOpened at hne ⊢
  split
  · rename_i hfull
    rw [if_pos hfull] at hne
    exact htable n hne
  · rename_i hroom
    rw [if_neg hroom] at hne
    simp only at hne ⊢
    by_cases hn : n = d.clientCount.toNat
    · rw [hn, Function.update_self]
      exact hqid
    · rw [Function.update_of_ne hn] at hne ⊢
      exact htable n hne

/-- **The server keeps to the queues of the clients.** -/
theorem careInv_server (h : CareInv cfg s) (hsys : SysInv s)
    (hne : ∀ i, cfg.privKey i ≠ cfg.pubKey) {garbage : ℤ}
    (hdoes : ServerDoes cfg garbage s s') : CareInv cfg s' := by
  cases hdoes with
  | create id q k hpc hget =>
    -- before the server starts, no client has looked up a queue
    have hfresh := hsys.fresh hpc
    have hqueues := h.queues
    rw [hfresh.queueDesc] at hqueues
    obtain ⟨hrequests, -⟩ := queues_create cfg hsys hpc hget
    refine ⟨hqueues.create hfresh.keys (fun i => (hfresh.client i).2) hget,
      fun hpc => (nomatch hpc), fun n hn => absurd (h.blank hpc n) hn, fun p hp => ?_,
      fun p hpc => (nomatch hpc),
      fun qid p hpc => nomatch hpc⟩
    have hp' : p ∈ (k.slot q).msgs := hp
    rw [hrequests] at hp'
    cases hp'
  | wait hpc hlive =>
    exact h.goOn (fun hpc => nomatch hpc) (fun p hpc => nomatch hpc) fun qid p hpc => nomatch hpc
  | finish hpc hactive hslot => exact h.exitServer 0
  | receive clock p ps hpc hslot => exact h.receive hslot clock.1
  | openClient id key qid k p hpc hkey hget hqid =>
    -- the queue that is looked up is not the public one
    obtain ⟨rfl, hother⟩ := h.found hne hpc hkey hget hqid
    have hdesc := (registerOpened_data cfg.server s.data p.msg qid).2
    refine ⟨?_, fun hpc => (nomatch hpc), fun n hn => ?_, fun p' hp' => ?_,
      fun p' hpc => (nomatch hpc), fun qid' p' hpc' => ?_⟩
    · show PubInv cfg s.kernel (registerOpened cfg.server s.data p.msg qid).1.queueDesc s.client
      rw [hdesc]
      exact h.queues
    · show _ ≠ (registerOpened cfg.server s.data p.msg qid).1.queueDesc
      rw [hdesc]
      exact table_registerOpened p.msg h.table hother n hn
    · have hp'' : p' ∈ (s.kernel.slot
        (registerOpened cfg.server s.data p.msg qid).1.queueDesc).msgs := hp'
      rw [hdesc] at hp''
      exact h.sent p' hp''
    · obtain ⟨rfl, -⟩ := ServerPc.send.inj hpc'
      show qid ≠ (registerOpened cfg.server s.data p.msg qid).1.queueDesc
      rw [hdesc]
      exact hother
  | send qid p ps hpc hslot hroom =>
    refine ⟨h.queues.keeps (Kernel.keeps_write ..), fun hpc => (nomatch hpc), h.table,
      fun p' hp' => ?_, fun p' hpc => (nomatch hpc), fun qid p' hpc => nomatch hpc⟩
    -- the response goes to another queue than the public one
    have hp'' : p' ∈ ((s.kernel.write qid (ps ++ [p])).slot s.data.queueDesc).msgs := hp'
    rw [Kernel.write_slot_of_ne (h.target qid p hpc).symm] at hp''
    exact h.sent p' hp''
  | fail hfails => exact h.exitServer (-1)
  | remove status hpc =>
    refine ⟨h.queues.keeps (Kernel.keeps_rmid ..), fun hpc => (nomatch hpc), h.table,
      fun p hp => ?_, fun p hpc => (nomatch hpc), fun qid p hpc => nomatch hpc⟩
    have hp' : p ∈ ((s.kernel.rmid s.data.queueDesc).slot s.data.queueDesc).msgs := hp
    rw [Kernel.msgs_rmid_self] at hp'
    cases hp'

end Server

section Client

variable {cfg : Config ι} {s s' : Sys ι} {i : ι}

/-- A step of a client, which leaves the server alone. -/
theorem CareInv.client (h : CareInv cfg s) (hpc : s'.pc = s.pc) (hdata : s'.data = s.data)
    (hqueues : PubInv cfg s'.kernel s.data.queueDesc s'.client)
    (hsent : ∀ p ∈ (s'.kernel.slot s.data.queueDesc).msgs, p ∈ s.requests ∨ p.Sent cfg) :
    CareInv cfg s' where
  queues := by rwa [hdata]
  blank hstart := by
    rw [hdata]
    exact h.blank (hpc.symm.trans hstart)
  table := by
    rw [hdata]
    exact h.table
  sent p hp := by
    rw [Sys.requests, hdata] at hp
    exact (hsent p hp).elim (h.sent p) id
  register p hreg := h.register p (hpc.symm.trans hreg)
  target qid p hsend := by
    rw [hdata]
    exact h.target qid p (hpc.symm.trans hsend)

variable [DecidableEq ι]

/-- **A client sends its own messages only.** -/
theorem careInv_client (h : CareInv cfg s) (hsys : SysInv s)
    (hne : ∀ i, cfg.privKey i ≠ cfg.pubKey) (hdoes : ClientDoes cfg i s s') : CareInv cfg s' := by
  have hown := h.queues.own i
  have hset : ∀ c : Client, ClientInv cfg s.kernel s.data.queueDesc i c →
      CareInv cfg (s.setClient i c) := fun c hc =>
    h.client rfl rfl (h.queues.update hc) fun p hp => .inl hp
  have htake : ∀ (p : Packet ι) (ps : List (Packet ι)) (c : Client),
      s.kernel.slot (s.client i).privQid = .live (p :: ps) →
      ClientInv cfg s.kernel s.data.queueDesc i c → CareInv cfg (s.clientTake i p ps c) := by
    intro p ps c hslot hc
    -- the public queue is not the one the client takes from
    refine h.client rfl rfl ((h.queues.update hc).keeps (Kernel.keeps_write ..)) fun p' hp' => ?_
    have hnonneg := hsys.ok.nonneg _ ⟨_, hslot⟩
    have hother : s.data.queueDesc ≠ (s.client i).privQid := by
      rcases hown.opened with hnone | ⟨hopened, -⟩
      · omega
      · exact hopened.symm
    have hp'' : p' ∈ ((s.kernel.write (s.client i).privQid ps).slot s.data.queueDesc).msgs := hp'
    rw [Kernel.write_slot_of_ne hother] at hp''
    exact .inl hp''
  cases hdoes with
  | openPublic q hpc hkey =>
    have hunopened := hown.unopened (.inl hpc)
    exact hset _ ⟨.inr (h.queues.pub q hkey), fun _ => hunopened, .inl hunopened,
      fun _ heq => nomatch heq⟩
  | openPrivate id q k hpc hget =>
    refine h.client rfl rfl (h.queues.openPrivate hsys.ok hsys.known (hne i) hget) fun p hp => ?_
    have hknown : s.data.queueDesc < 0 ∨ s.kernel.slot s.data.queueDesc ≠ .unused :=
      hsys.known.imp_left fun hnone => by omega
    have hp' : p ∈ (k.slot s.data.queueDesc).msgs := hp
    rw [hsys.ok.msgs_got hget hknown] at hp'
    exact .inl hp'
  | send msg answered pc ps hpc hslot hroom =>
    have hnonneg := hsys.ok.nonneg _ ⟨_, hslot⟩
    have hdesc : (s.client i).queueDesc = s.data.queueDesc :=
      hown.queueDesc.resolve_left fun hnone => by omega
    refine h.client rfl rfl ((h.queues.update (hown.send hpc)).keeps (Kernel.keeps_write ..))
      fun p hp => ?_
    have hp' : p ∈ ((s.kernel.write (s.client i).queueDesc (ps ++ [⟨msg, i⟩])).slot
      s.data.queueDesc).msgs := hp
    rw [hdesc, Kernel.write_slot_self] at hp'
    rcases List.mem_append.mp hp' with hp' | hp'
    · exact .inl (by rwa [requests_of_slot (hdesc ▸ hslot)])
    · obtain rfl := List.mem_singleton.mp hp'
      exact .inr (sent_of_sends hown hpc).2
  | session p ps hpc hslot => exact htake p ps _ hslot (hown.readSession _ _)
  | prompt hpc => exact hset _ (hown.readCommand hpc)
  | response p ps hpc hslot =>
    exact htake p ps _ hslot (hown.goOn rfl rfl ⟨ClientPc.noConfusion, ClientPc.noConfusion⟩
      fun _ heq => nomatch heq)
  | exit status hpc => exact hset _ (hown.exitClient status)
  | remove status hpc =>
    have hgone : ClientPc.status (.gone status) = some status := rfl
    have hend : ClientInv cfg s.kernel s.data.queueDesc i { s.client i with pc := .gone status } :=
      hown.closing rfl rfl hgone
    refine h.client rfl rfl ((h.queues.update hend).keeps (Kernel.keeps_rmid ..)) fun p hp => ?_
    have hp' : p ∈ ((s.kernel.rmid (s.client i).privQid).slot s.data.queueDesc).msgs := hp
    -- a client that removes the public queue removes what is in it
    by_cases hsame : s.data.queueDesc = (s.client i).privQid
    · rw [hsame, Kernel.msgs_rmid_self] at hp'
      cases hp'
    · rw [Kernel.rmid_slot_of_ne hsame] at hp'
      exact .inl hp'

/-- **Every step keeps the server to the clients**, if none has the key of the server. -/
theorem careInv_step {e : Event ι} (h : CareInv cfg s) (hsys : SysInv s)
    (hne : ∀ i, cfg.privKey i ≠ cfg.pubKey) (hstep : (system cfg).step e s = some s') :
    CareInv cfg s' := by
  cases does hsys.ok hstep with
  | server id garbage clock hdoes => exact careInv_server h hsys hne hdoes
  | interruptServer hpc =>
    have hexit := h.exitServer 2
    exact { hexit with }
  | client i id hdoes => exact careInv_client h hsys hne hdoes
  | interruptClient i hpc => exact careInv_client h hsys hne (.exit 2 hpc)

end Client

/-! ### Who removes a queue -/

section Tidy

variable {cfg : Config ι} {s s' : Sys ι}

theorem tidy_start (cfg : Config ι) : cfg.start.Tidy := by
  rintro q ⟨ms, hms⟩
  cases hms

/-- No queue is new, and the processes that hold one go on. -/
theorem Sys.Tidy.keep (h : s.Tidy)
    (hlive : ∀ q, (s'.kernel.slot q).Live → (s.kernel.slot q).Live)
    (hserver : (s'.kernel.slot s.data.queueDesc).Live → (∀ status, s.pc ≠ .gone status) →
      s.data.queueDesc = s'.data.queueDesc ∧ ∀ status, s'.pc ≠ .gone status)
    (hclient : ∀ i, (s'.kernel.slot (s.client i).privQid).Live → ¬s.Exited i →
      (s.client i).privQid = (s'.client i).privQid ∧ ¬s'.Exited i) : s'.Tidy := by
  intro q hq
  rcases h q (hlive q hq) with ⟨rfl, hup⟩ | ⟨i, rfl, hup⟩
  · exact .inl (hserver hq hup)
  · exact .inr ⟨i, hclient i hq hup⟩

theorem live_of_write {k : Ipc.Kernel (Packet ι)} {q q' : ℤ} (hlive : (k.slot q).Live)
    {ms : List (Packet ι)} (h : ((k.write q ms).slot q').Live) : (k.slot q').Live := by
  by_cases hq : q' = q
  · rwa [hq]
  · rwa [Kernel.write_slot_of_ne hq] at h

theorem live_of_rmid {k : Ipc.Kernel (Packet ι)} {q q' : ℤ} (h : ((k.rmid q).slot q').Live) :
    q' ≠ q ∧ (k.slot q').Live := by
  have hq : q' ≠ q := fun heq => Kernel.rmid_slot_self (heq ▸ h)
  rw [Kernel.rmid_slot_of_ne hq] at h
  exact ⟨hq, h⟩

/-- The server comes to its `IPC_RMID` if it has a queue. -/
theorem Sys.Tidy.exitServer (h : s.Tidy) (hok : s.kernel.Ok) (status : ℤ) :
    (s.exitServer status).Tidy := by
  refine h.keep (fun q hq => hq) (fun hq _ => ⟨rfl, fun status' => ?_⟩) fun i _ hup => ⟨rfl, hup⟩
  have hnonneg : 0 ≤ s.data.queueDesc := hok.nonneg _ hq
  show exit s.data status ≠ .gone status'
  rw [exit, if_pos (by omega)]
  intro heq
  cases heq

/-- **A step of the server leaves no queue behind.** -/
theorem tidy_server (h : s.Tidy) (hcare : CareInv cfg s) (hsys : SysInv s)
    (hne : ∀ i, cfg.privKey i ≠ cfg.pubKey) {garbage : ℤ}
    (hdoes : ServerDoes cfg garbage s s') : s'.Tidy := by
  cases hdoes with
  | create id q k hpc hget =>
    -- before the server starts there is no queue
    have hfresh := hsys.fresh hpc
    have hnone : ∀ q, ¬(s.kernel.slot q).Live := by
      intro q hq
      have hnonneg := hsys.ok.nonneg q hq
      rcases h q hq with ⟨rfl, -⟩ | ⟨i, rfl, -⟩
      · rw [hfresh.queueDesc] at hnonneg
        exact absurd hnonneg (by decide)
      · rw [(hfresh.client i).2] at hnonneg
        exact absurd hnonneg (by decide)
    intro q' hq'
    refine .inl ⟨?_, fun status heq => nomatch heq⟩
    have hq'' : (k.slot q').Live := hq'
    cases hget with
    | unnamed hkey _ => exact absurd hkey (cfg.ftok.key_ne projectId).2
    | found _ hkey hkeys => exact absurd (hkeys.symm.trans (hfresh.keys _)) (Option.some_ne_none _)
    | missing hkey hmissing hcreate => cases hcreate
    | made hkey hmissing hcreate hid =>
      by_contra hother
      rw [Kernel.enter_slot, Kernel.make_slot_of_ne hother] at hq''
      exact hnone q' hq''
  | wait hpc hlive =>
    exact h.keep (fun q hq => hq) (fun _ _ => ⟨rfl, fun status heq => nomatch heq⟩)
      fun i _ hup => ⟨rfl, hup⟩
  | finish hpc hactive hslot => exact h.exitServer hsys.ok 0
  | receive clock p ps hpc hslot =>
    have hdesc : (dispatchRequests cfg.server clock.1 s.data p).1.queueDesc = s.data.queueDesc := by
      rcases dispatch_data cfg.server clock.1 s.data p with hdata | hdata <;> rw [hdata]
    refine h.keep (fun q hq => live_of_write ⟨_, hslot⟩ hq)
      (fun _ _ => ⟨hdesc.symm, fun status heq => ?_⟩) fun i _ hup => ⟨rfl, hup⟩
    have hrunning : (dispatchRequests cfg.server clock.1 s.data p).2.status = none :=
      dispatch_ne_start.2
    exact nomatch hrunning.symm.trans (congrArg ServerPc.status heq)
  | openClient id key qid k p hpc hkey hget hqid =>
    obtain ⟨rfl, -⟩ := hcare.found hne hpc hkey hget hqid
    have hdesc := (registerOpened_data cfg.server s.data p.msg qid).2
    exact h.keep (fun q hq => hq) (fun _ _ => ⟨hdesc.symm, fun status heq => nomatch heq⟩)
      fun i _ hup => ⟨rfl, hup⟩
  | send qid p ps hpc hslot hroom =>
    exact h.keep (fun q hq => live_of_write ⟨_, hslot⟩ hq)
      (fun _ _ => ⟨rfl, fun status heq => nomatch heq⟩) fun i _ hup => ⟨rfl, hup⟩
  | fail hfails => exact h.exitServer hsys.ok (-1)
  | remove status hpc =>
    -- what remains was there before, and the public queue is gone
    exact h.keep (fun q hq => (live_of_rmid hq).2) (fun hq _ => absurd rfl (live_of_rmid hq).1)
      fun i _ hup => ⟨rfl, hup⟩

variable [DecidableEq ι] {i : ι}

/-- A client goes on with the queue that it has. -/
theorem Sys.Tidy.setClient (h : s.Tidy) {k : Ipc.Kernel (Packet ι)} {c : Client}
    (hkernel : s'.kernel = k) (hclients : s'.client = Function.update s.client i c)
    (hpc : s'.pc = s.pc) (hdata : s'.data = s.data)
    (hlive : ∀ q, (k.slot q).Live → (s.kernel.slot q).Live)
    (hc : (k.slot (s.client i).privQid).Live → ¬s.Exited i →
      (s.client i).privQid = c.privQid ∧ ∀ status, c.pc ≠ .gone status) : s'.Tidy := by
  subst hkernel
  refine h.keep hlive (fun _ hup => ⟨by rw [hdata], by rwa [hpc]⟩) fun j hq hup => ?_
  rw [Sys.Exited, hclients]
  by_cases hj : j = i
  · subst hj
    rw [Function.update_self]
    obtain ⟨hpriv, hgone⟩ := hc hq hup
    refine ⟨hpriv, ?_⟩
    rintro ⟨status, hstatus⟩
    exact hgone status hstatus
  · rw [Function.update_of_ne hj]
    exact ⟨rfl, hup⟩

/-- A client that exits comes to its `IPC_RMID`, if it has a queue. -/
theorem exitClient_holds {c : Client} (hpriv : 0 ≤ c.privQid) (status status' : ℤ) :
    (exitClient c status).pc ≠ .gone status' := by
  rw [exitClient, if_pos (by omega)]
  exact ClientPc.noConfusion

theorem readSession_holds {c : Client} (hpriv : 0 ≤ c.privQid) (junk : List UInt8) (resp : Message)
    (status : ℤ) : (readSession junk c resp).pc ≠ .gone status := by
  unfold readSession
  split
  · rename_i n _
    split
    · exact exitClient_holds (c := { c with sessionNum := n }) hpriv (-1) status
    · exact ClientPc.noConfusion
  · exact exitClient_holds hpriv (-1) status

theorem readCommand_holds {pid : ℤ} {c : Client} (hpriv : 0 ≤ c.privQid) (hpc : c.pc = .prompt)
    (status : ℤ) : (readCommand pid c).pc ≠ .gone status := by
  unfold readCommand
  split
  · simp [hpc]
  · exact ClientPc.noConfusion
  · rename_i stdin _
    exact exitClient_holds (c := { c with stdin := stdin }) hpriv 0 status

omit [DecidableEq ι] in
theorem sends_holds {c : Client} {msg : Message} {answered : Bool} {pc : ClientPc}
    (h : ClientPc.sends cfg i c = some (msg, answered, pc)) (status : ℤ) : pc ≠ .gone status := by
  unfold ClientPc.sends at h
  split at h
  · obtain ⟨-, -, rfl⟩ := by simpa only [Option.some.injEq, Prod.mk.injEq] using h
    exact ClientPc.noConfusion
  · obtain ⟨-, -, rfl⟩ := by simpa only [Option.some.injEq, Prod.mk.injEq] using h
    split
    · exact ClientPc.noConfusion
    · exact ClientPc.noConfusion
  · exact absurd h (Option.some_ne_none _).symm

/-- The client holds the queue that it makes. -/
theorem Sys.Tidy.openPrivate (h : s.Tidy) (hok : s.kernel.Ok) (hpriv : (s.client i).privQid = -1)
    {key id q : ℤ} {k : Ipc.Kernel (Packet ι)} (hget : s.kernel.Got key true id q k) :
    ({ s with kernel := k }.setClient i
      { s.client i with privQid := q, pc := .sendRegister }).Tidy := by
  have hself : ({ s with kernel := k }.setClient i
      { s.client i with privQid := q, pc := .sendRegister }).client i =
      { s.client i with privQid := q, pc := .sendRegister } := Function.update_self ..
  -- a lookup adds one queue, the client's own
  have hold : ∀ q', q' = q ∨ (k.slot q').Live → q' ≠ q → (s.kernel.slot q').Live := by
    intro q' hq' hne
    have hlive := hq'.resolve_left hne
    cases hget with
    | unnamed hkey hfresh => rwa [Kernel.make_slot_of_ne hne] at hlive
    | found _ hkey hq => exact hlive
    | made hkey hnone hcreate hfresh =>
      rwa [Kernel.enter_slot, Kernel.make_slot_of_ne hne] at hlive
    | missing hkey hnone hcreate => exact hlive
  intro q' hq'
  by_cases hq : q' = q
  · refine .inr ⟨i, ?_, ?_⟩
    · rw [hself, hq]
    · rintro ⟨status, hstatus⟩
      rw [hself] at hstatus
      cases hstatus
  · -- any other queue has the owner it had
    have hlive := hold q' (.inr hq') hq
    have hnonneg := hok.nonneg _ hlive
    rcases h q' hlive with hserver | ⟨j, rfl, hup⟩
    · exact .inl hserver
    · have hj : j ≠ i := by
        rintro rfl
        omega
      refine .inr ⟨j, ?_⟩
      rw [Sys.Exited, setClient_client, Function.update_of_ne hj]
      exact ⟨rfl, hup⟩

/-- **A step of a client leaves no queue behind.** -/
theorem tidy_client (h : s.Tidy) (hcare : CareInv cfg s) (hsys : SysInv s)
    (hdoes : ClientDoes cfg i s s') : s'.Tidy := by
  have hset : ∀ c : Client, c.privQid = (s.client i).privQid →
      (0 ≤ (s.client i).privQid → ∀ status, c.pc ≠ .gone status) → (s.setClient i c).Tidy :=
    fun c hpriv hgone => h.setClient rfl rfl rfl rfl (fun q hq => hq) fun hq _ =>
      ⟨hpriv.symm, hgone (hsys.ok.nonneg _ hq)⟩
  have htake : ∀ (p : Packet ι) (ps : List (Packet ι)) (c : Client),
      s.kernel.slot (s.client i).privQid = .live (p :: ps) →
      c.privQid = (s.client i).privQid → (∀ status, c.pc ≠ .gone status) →
      (s.clientTake i p ps c).Tidy := fun p ps c hslot hpriv hgone =>
    h.setClient rfl rfl rfl rfl (fun q hq => live_of_write ⟨_, hslot⟩ hq) fun _ _ =>
      ⟨hpriv.symm, hgone⟩
  cases hdoes with
  | openPublic q hpc hkey => exact hset _ rfl fun _ _ => ClientPc.noConfusion
  | openPrivate id q k hpc hget =>
    exact h.openPrivate hsys.ok ((hcare.queues.own i).unopened (.inr hpc)) hget
  | send msg answered pc ps hpc hslot hroom =>
    exact h.setClient (c := { s.client i with msg := msg, pc := pc }) rfl rfl rfl rfl
      (fun q hq => live_of_write ⟨_, hslot⟩ hq) fun _ _ => ⟨rfl, sends_holds hpc⟩
  | session p ps hpc hslot =>
    exact htake p ps _ hslot (readSession_desc _ _ _).2
      (readSession_holds (hsys.ok.nonneg _ ⟨_, hslot⟩) _ _)
  | prompt hpc =>
    exact hset _ (readCommand_desc _ _).2 fun hnonneg => readCommand_holds hnonneg hpc
  | response p ps hpc hslot => exact htake p ps _ hslot rfl fun _ => ClientPc.noConfusion
  | exit status hpc => exact hset _ rfl fun hnonneg => exitClient_holds hnonneg status
  | remove status hpc =>
    exact h.setClient rfl rfl rfl rfl (fun q hq => (live_of_rmid hq).2) fun hq _ =>
      absurd rfl (live_of_rmid hq).1

/-- **Every step leaves no queue behind**, if no client has the key of the server. -/
theorem tidy_step {e : Event ι} (h : s.Tidy) (hcare : CareInv cfg s) (hsys : SysInv s)
    (hne : ∀ i, cfg.privKey i ≠ cfg.pubKey) (hstep : (system cfg).step e s = some s') :
    s'.Tidy := by
  cases does hsys.ok hstep with
  | server id garbage clock hdoes => exact tidy_server h hcare hsys hne hdoes
  | interruptServer hpc => exact h.exitServer hsys.ok 2
  | client i id hdoes => exact tidy_client h hcare hsys hdoes
  | interruptClient i hpc => exact tidy_client h hcare hsys (.exit 2 hpc)

theorem tidy_run (hne : ∀ i, cfg.privKey i ≠ cfg.pubKey) (es : List (Event ι)) :
    ((system cfg).run es cfg.start).Tidy := by
  have hstep : ∀ e s s', SysInv s ∧ CareInv cfg s ∧ s.Tidy → (system cfg).step e s = some s' →
      SysInv s' ∧ CareInv cfg s' ∧ s'.Tidy := by
    rintro e s s' ⟨hsys, hcare, htidy⟩ hs
    exact ⟨sysInv_step hsys hs, careInv_step hcare hsys hne hs, tidy_step htidy hcare hsys hne hs⟩
  exact (Machine.run_invariant hstep es ⟨sysInv_start cfg, careInv_start cfg, tidy_start cfg⟩).2.2

end Tidy

/-! ### A client with the key of the server -/

/-- The server is at `pc`, after `count` registrations, and its queue, which is the only one,
holds `ps`. -/
structure Alone (cfg : Config ι) (s : Sys ι) (count : ℤ) (ps : List (Packet ι)) (pc : ServerPc ι) :
    Prop where
  pc_eq : s.pc = pc
  active : s.data.active = true
  desc : s.data.queueDesc = 0
  count_eq : s.data.clientCount = count
  key : s.kernel.keys cfg.pubKey = some 0
  slot : s.kernel.slot 0 = .live ps
  unused : s.kernel.slot 1 = .unused
  priv : ∀ j, (s.client j).privQid = 0 ∨ (s.client j).privQid = -1

section Alone

variable [DecidableEq ι] {cfg : Config ι} {s : Sys ι} {count : ℤ} {p : Packet ι}

/-- The clock does not matter. -/
def midnight : Clock := ⟨[], clock_nil⟩

theorem Alone.top (h : Alone cfg s count [p] .top) (htype : p.msg.type = typeRegister) :
    ∃ s', (system cfg).Reach s s' ∧ Alone cfg s' count [] (.register p) := by
  have hwait : (system cfg).step (.server 0 0 midnight) s = some { s with pc := .receive } := by
    simp only [system, serverStep, h.pc_eq, h.active, if_true]
  have hslot : s.kernel.msgrcv s.data.queueDesc = .returns (p, s.kernel.write 0 []) := by
    rw [h.desc, Kernel.msgrcv, h.slot]
  have hdispatch : dispatchRequests cfg.server midnight.1 s.data p = (s.data, .register p) := by
    rw [dispatchRequests, if_pos htype]
  have hreceive : (system cfg).step (.server 0 0 midnight) { s with pc := .receive } =
      some { s with
        kernel := s.kernel.write 0 []
        pc := .register p
        dispatched := s.dispatched ++ [p] } := by
    simp only [system, serverStep, hslot, hdispatch]
    rfl
  refine ⟨_, .tail (.single ⟨_, hwait⟩) ⟨_, hreceive⟩, rfl, h.active, h.desc, h.count_eq, h.key, ?_,
    ?_, h.priv⟩
  · exact Kernel.write_slot_self _
  · exact (Kernel.write_slot_of_ne (by decide) _).trans h.unused

/-- The first `REGISTER` has the key of the queue, and is answered there. -/
theorem Alone.register (h : Alone cfg s 0 [] (.register p))
    (hkey : scanInt p.msg.content = .value cfg.pubKey) :
    ∃ s', (system cfg).Reach s s' ∧
      Alone cfg s' 1 [{ p with msg := registerResponse cfg.server p.msg 0 }] .top := by
  have hget : s.kernel.msgget cfg.pubKey false 0 = some (0, s.kernel) :=
    Kernel.msgget_found (cfg.ftok.key_ne projectId).2 h.key false 0
  have hroom : ¬s.data.clientCount > maxClients - 1 := by
    rw [h.count_eq]
    decide
  -- the server looks the queue up, and the answer goes to the queue it was found in
  have hopen : (system cfg).step (.server 0 0 midnight) s =
      some (s.answerRegister cfg s.kernel 0 p) := by
    simp only [system, serverStep, h.pc_eq, hkey, openClient, hget, Option.map_some]
    rfl
  have hsend : (system cfg).step (.server 0 0 midnight) (s.answerRegister cfg s.kernel 0 p) =
      some { (s.answerRegister cfg s.kernel 0 p).post (s.kernel.write 0
        [{ p with msg := (registerOpened cfg.server s.data p.msg 0).2 }]) 0
        { p with msg := (registerOpened cfg.server s.data p.msg 0).2 } with pc := .top } := by
    have hpost : s.kernel.msgsnd cfg.capacity 0
        { p with msg := (registerOpened cfg.server s.data p.msg 0).2 } =
        .returns (s.kernel.write 0
          [{ p with msg := (registerOpened cfg.server s.data p.msg 0).2 }]) := by
      rw [Kernel.msgsnd, h.slot]
      exact if_pos cfg.capacity_pos
    simp only [system, serverStep, Sys.answerRegister, hpost]
  obtain ⟨hactive, hdesc⟩ := registerOpened_data cfg.server s.data p.msg 0
  have hresponse : (registerOpened cfg.server s.data p.msg 0).2 =
      registerResponse cfg.server p.msg 0 := by
    rw [registerOpened, if_neg hroom, h.count_eq]
  have hcount : (registerOpened cfg.server s.data p.msg 0).1.clientCount = 1 := by
    rw [registerOpened, if_neg hroom]
    simp [h.count_eq]
  refine ⟨_, .tail (.single ⟨_, hopen⟩) ⟨_, hsend⟩, rfl, hactive.trans h.active,
    hdesc.trans h.desc, hcount, h.key, ?_, ?_, h.priv⟩
  · rw [← hresponse]
    exact Kernel.write_slot_self _
  · exact (Kernel.write_slot_of_ne (by decide) _).trans h.unused

/-- The response has a session number, and leads to a queue that is new. -/
theorem Alone.untidy (h : Alone cfg s 1 [] (.register p))
    (hkey : scanInt p.msg.content = .value ipcPrivate) :
    ∃ s', (system cfg).Reach s s' ∧ ¬s'.Tidy := by
  have hfresh : s.kernel.Fresh 1 := ⟨zero_le_one, by rw [h.unused]⟩
  have hget : s.kernel.msgget ipcPrivate false 1 = some (1, s.kernel.make 1) := by
    rw [Kernel.msgget, if_pos rfl, if_pos hfresh]
  have hopen : (system cfg).step (.server 1 0 midnight) s =
      some (s.answerRegister cfg (s.kernel.make 1) 1 p) := by
    simp only [system, serverStep, h.pc_eq, hkey, openClient, hget, Option.map_some]
    rfl
  refine ⟨_, .single ⟨_, hopen⟩, fun htidy => ?_⟩
  have hlive : ((s.answerRegister cfg (s.kernel.make 1) 1 p).kernel.slot 1).Live :=
    ⟨[], Kernel.make_slot_self⟩
  rcases htidy 1 hlive with ⟨hserver, -⟩ | ⟨j, hclient, -⟩
  · have hdesc := (registerOpened_data cfg.server s.data p.msg 1).2.trans h.desc
    exact absurd (hserver.trans hdesc) (by decide)
  · rcases h.priv j with hpriv | hpriv
    · exact absurd (hclient.trans hpriv) (by decide)
    · exact absurd (hclient.trans hpriv) (by decide)

/-- The `REGISTER` of the client `i`. -/
def Config.registration (cfg : Config ι) (i : ι) : Packet ι :=
  ⟨⟨typeRegister, cfg.pid i, overwrite (decimal (cfg.privKey i)) (cfg.junk i)⟩, i⟩

/-- A client with the key of the server registers. -/
theorem alone_registered {i : ι} (hkey : cfg.privKey i = cfg.pubKey) :
    ∃ s, (system cfg).Reach cfg.start s ∧ Alone cfg s 0 [cfg.registration i] .top := by
  -- the server has made queue 0, and the client with its key finds it as its own
  have hpub : cfg.served.kernel.keys cfg.pubKey = some 0 := Kernel.enter_keys_self
  have hslot : cfg.served.kernel.slot 0 = .live [] := by
    show ((Kernel.empty.make 0).enter cfg.pubKey 0).slot 0 = _
    rw [Kernel.enter_slot, Kernel.make_slot_self]
  have hserve := step_served cfg 0 midnight
  have hpublic := step_openPublic (i := i) (s := cfg.served) rfl hpub 0
  have hprivate := step_found (openedPublic_pc cfg.served i) (hkey ▸ hpub) 0
  generalize hs : (cfg.served.openedPublic i).openedPrivate i 0 = s at hprivate
  have hclient : s.client i =
      { cfg.start.client i with queueDesc := 0, privQid := 0, pc := .sendRegister } := by
    rw [← hs, Sys.openedPrivate, setClient_client, Function.update_self, Sys.openedPublic,
      setClient_client, Function.update_self]
    rfl
  have hkernel : s.kernel = cfg.served.kernel := by
    rw [← hs]
    rfl
  have hpriv : ∀ j, (s.client j).privQid = 0 ∨ (s.client j).privQid = -1 := by
    intro j
    by_cases hj : j = i
    · rw [hj, hclient]
      exact .inl rfl
    · rw [← hs, openedPrivate_of_ne _ hj, openedPublic_of_ne _ hj]
      exact .inr rfl
  have hsend : (system cfg).step (.client i 0) s =
      some (s.clientPost i [] (cfg.registration i).msg true .receiveSession) := by
    have hpost : s.kernel.msgsnd cfg.capacity 0 (cfg.registration i) =
        .returns (s.kernel.write 0 [cfg.registration i]) := by
      rw [Kernel.msgsnd, hkernel, hslot]
      exact if_pos cfg.capacity_pos
    simp only [Config.registration, Config.privKey] at hpost
    simp only [system, clientStep, hclient, clientSend, hpost]
    simp only [Sys.clientPost, hclient, Config.registration, Config.privKey, List.nil_append]
  refine ⟨_, .tail (.tail (.tail (.single ⟨_, hserve⟩) ⟨_, hpublic⟩) ⟨_, hprivate⟩) ⟨_, hsend⟩,
    ?_, ?_, ?_, ?_, ?_, ?_, ?_, fun j => ?_⟩
  · subst hs
    rfl
  · subst hs
    rfl
  · subst hs
    rfl
  · subst hs
    rfl
  · show s.kernel.keys cfg.pubKey = some 0
    rw [hkernel]
    exact hpub
  · show (s.kernel.write (s.client i).queueDesc [cfg.registration i]).slot 0 = _
    rw [hclient]
    exact Kernel.write_slot_self _
  · show (s.kernel.write (s.client i).queueDesc [cfg.registration i]).slot 1 = _
    have hone : (1 : ℤ) ≠ 0 := by decide
    rw [hclient, hkernel]
    exact Kernel.write_slot_of_ne hone _
  · have hsame : ((s.clientPost i [] (cfg.registration i).msg true .receiveSession).client
        j).privQid = (s.client j).privQid :=
      setClient_privQid (c := { s.client i with
        msg := (cfg.registration i).msg, pc := .receiveSession }) rfl j
    rw [hsame]
    exact hpriv j

/-- Then the response to it leaves a queue behind. -/
theorem exists_untidy {i : ι} (hkey : cfg.privKey i = cfg.pubKey) :
    ∃ es, ¬((system cfg).run es cfg.start).Tidy := by
  obtain ⟨s₁, hreach₁, h₁⟩ := alone_registered hkey
  obtain ⟨s₂, hreach₂, h₂⟩ := h₁.top rfl
  obtain ⟨s₃, hreach₃, h₃⟩ := h₂.register (by rw [← hkey]; exact scanInt_overwrite _ _)
  obtain ⟨s₄, hreach₄, h₄⟩ := h₃.top rfl
  obtain ⟨s₅, hreach₅, h₅⟩ := h₄.untidy (scanInt_overwrite _ _)
  have hreach := (((hreach₁.trans hreach₂).trans hreach₃).trans hreach₄).trans hreach₅
  obtain ⟨es, rfl⟩ := Machine.exists_run_of_reach hreach
  exact ⟨es, h₅⟩

end Alone

end SystemV
end MsgQueue
end OpSys
