import OpSys.MsgQueue.SystemV.Keys

/-!
# Whose messages are in which queue, with System V queues

As long as the queues are apart, what is in the public queue comes from the clients,
what is in a private queue is for its owner, and the server's array leads from the pids
to the private queues.  Every call moves messages of one queue only.

## Main definitions

* `Sys.requests`, `Sys.inbox` — the public queue and the private ones.
* `Packet.Sent` — a message that its client has sent.
* `MsgInv` — whose messages are where.
* `Dispatched` — the ways on after `msgrcv`.

## Main results

* `dispatch_cases` — what `dispatchRequests` leads to.
* `msgInv_step` — every step keeps the messages in order.

## References

`lab5_message_queues/SystemV/server.c`, `lab5_message_queues/SystemV/client.c`.
-/

namespace OpSys
namespace MsgQueue
namespace SystemV

open Stdio Ipc
open Posix (ServerData search search_eq entries length_entries getElem?_entries entries_accept)

variable {ι : Type*}

/-- The messages in the public queue. -/
def Sys.requests (s : Sys ι) : List (Packet ι) := (s.kernel.slot s.data.queueDesc).msgs

/-- The messages in the private queue of the client `i`. -/
def Sys.inbox (s : Sys ι) (i : ι) : List (Packet ι) := (s.kernel.slot (s.client i).privQid).msgs

/-- The client beside the message has sent it. -/
structure Packet.Sent (cfg : Config ι) (p : Packet ι) : Prop where
  asks : ∃ answered, Asks (cfg.pid p.origin) answered p.msg
  key : p.msg.type = typeRegister → scanInt p.msg.content = .value (cfg.privKey p.origin)

/-- The descriptors in the server's array are those of the clients beside them. -/
structure DataInv (cfg : Config ι) (d : ServerData) (client : ι → Client) : Prop where
  count_nonneg : 0 ≤ d.clientCount
  count_le : d.clientCount ≤ maxClients
  owner : ∀ e ∈ entries d, ∃ j, e = (cfg.pid j, (client j).privQid) ∧ (client j).privQid ≠ -1
  blank : ∀ k : ℕ, d.clientCount ≤ k → (d.clientsData k).1 = 0

/-- Whose messages are where. -/
structure MsgInv (cfg : Config ι) (s : Sys ι) : Prop where
  data : DataInv cfg s.data s.client
  sent : ∀ p ∈ s.requests, p.Sent cfg
  register : ∀ p, s.pc = .register p → p.Sent cfg ∧ p.msg.type = typeRegister
  target : ∀ qid p, s.pc = .send qid p → qid = (s.client p.origin).privQid ∧ qid ≠ -1
  inbox : ∀ i, ∀ p ∈ s.inbox i, p.origin = i

/-! ### The search in the array -/

section Data

variable {cfg : Config ι} {d : ServerData} {client : ι → Client}

/-- `get_qid` finds an entry in use, or none. -/
theorem DataInv.getQid_cases (h : DataInv cfg d client) {pid : ℤ} (hpid : 0 < pid) :
    (∃ e ∈ entries d, e.1 = pid ∧ getQid d pid = e.2) ∨
      (pid ∉ (entries d).map Prod.fst ∧ getQid d pid = -1) := by
  have hcount := h.count_nonneg
  have hle := h.count_le
  have hlen := length_entries d
  have hmax : maxClients.toNat = 5 := rfl
  have hsearch := search_eq d.clientsData pid maxClients.toNat 0
  rw [Nat.zero_add, ← List.range_eq_range'] at hsearch
  unfold getQid
  generalize search d.clientsData pid maxClients.toNat 0 = n at hsearch
  -- the search is over the whole array, the blank entries have pid 0
  by_cases hfound : (n : ℤ) < maxClients
  · have hn : n < ((List.range maxClients.toNat).map d.clientsData).length := by
      rw [List.length_map, List.length_range]
      omega
    have hget := List.findIdx_getElem (w := hsearch ▸ hn)
    simp only [← hsearch, decide_eq_true_eq, List.getElem_map, List.getElem_range] at hget
    have hused : n < d.clientCount := by
      by_contra hge
      have := h.blank n (by omega)
      omega
    refine .inl ⟨d.clientsData n, List.mem_of_getElem? (i := n) ?_, hget, if_pos hfound⟩
    rw [getElem?_entries, if_pos (by omega)]
  · refine .inr ⟨fun hmem => hfound ?_, if_neg hfound⟩
    obtain ⟨e, he, hepid⟩ := List.mem_map.mp hmem
    obtain ⟨k, hk⟩ := List.mem_iff_getElem?.mp he
    rw [getElem?_entries] at hk
    split at hk
    · rename_i hlt
      have hin : e ∈ (List.range maxClients.toNat).map d.clientsData :=
        List.mem_map.mpr ⟨k, List.mem_range.mpr (by omega), Option.some.inj hk⟩
      have hidx := List.findIdx_lt_length_of_exists (p := fun e => decide (e.1 = pid))
        ⟨e, hin, decide_eq_true hepid⟩
      rw [← hsearch, List.length_map, List.length_range] at hidx
      omega
    · exact absurd hk (Option.some_ne_none _).symm

/-- The ways on after `msgrcv`. -/
inductive Dispatched (server : ℤ) (d : ServerData) (p : Packet ι) :
    ServerData × ServerPc ι → Prop
  | register (htype : p.msg.type = typeRegister) : Dispatched server d p (d, .register p)
  | unknown (htype : p.msg.type = typeMirror ∨ p.msg.type = typeTime)
      (hunknown : p.msg.senderPid ∉ (entries d).map Prod.fst) : Dispatched server d p (d, .top)
  | respond (qid : ℤ) (resp : Message) (htype : p.msg.type = typeMirror ∨ p.msg.type = typeTime)
      (hmem : (p.msg.senderPid, qid) ∈ entries d)
      (hanswer : nul ∈ p.msg.content ∨ p.msg.type ≠ typeMirror → Answers server p.msg resp) :
      Dispatched server d p (d, .send qid { p with msg := resp })
  | finish (htype : p.msg.type = typeEnd) :
      Dispatched server d p ({ d with active := false }, .top)
  | other (htype : p.msg.type ≠ typeRegister ∧ p.msg.type ≠ typeMirror ∧ p.msg.type ≠ typeTime ∧
      p.msg.type ≠ typeEnd) : Dispatched server d p (d, .top)

theorem dispatch_cases (server : ℤ) (clock : Clock) (h : DataInv cfg d client) {p : Packet ι}
    (hpid : 0 < p.msg.senderPid) : Dispatched server d p (dispatchRequests server clock.1 d p) := by
  -- a registered pid has an id that is no failure
  have hrespond : ∀ e ∈ entries d, e.1 = p.msg.senderPid →
      e.2 ≠ -1 ∧ (p.msg.senderPid, e.2) ∈ entries d := by
    intro e he hepid
    obtain ⟨j, rfl, hne⟩ := h.owner e he
    exact ⟨hne, hepid ▸ he⟩
  unfold dispatchRequests
  by_cases hreg : p.msg.type = typeRegister
  · rw [if_pos hreg]
    exact .register hreg
  rw [if_neg hreg]
  by_cases hmirror : p.msg.type = typeMirror
  · rw [if_pos hmirror]
    rcases h.getQid_cases hpid with ⟨e, he, hepid, hqid⟩ | ⟨hunknown, hqid⟩
    · obtain ⟨hne, hmem⟩ := hrespond e he hepid
      rw [hqid, if_neg hne]
      refine .respond _ _ (.inl hmirror) hmem fun h => ?_
      exact answers_mirror hmirror (h.resolve_right (not_not.mpr hmirror))
    · rw [if_pos hqid]
      exact .unknown (.inl hmirror) hunknown
  rw [if_neg hmirror]
  by_cases htime : p.msg.type = typeTime
  · rw [if_pos htime]
    rcases h.getQid_cases hpid with ⟨e, he, hepid, hqid⟩ | ⟨hunknown, hqid⟩
    · obtain ⟨hne, hmem⟩ := hrespond e he hepid
      rw [hqid, if_neg hne]
      exact .respond _ _ (.inr htime) hmem fun _ => answers_time htime clock
    · rw [if_pos hqid]
      exact .unknown (.inr htime) hunknown
  rw [if_neg htime]
  by_cases hend : p.msg.type = typeEnd
  · rw [if_pos hend]
    exact .finish hend
  · rw [if_neg hend]
    exact .other ⟨hreg, hmirror, htime, hend⟩

/-- `handle_register` adds the client to the array, or refuses it. -/
theorem registerOpened_cases (server : ℤ) (hcount : 0 ≤ d.clientCount) (msg : Message) (qid : ℤ) :
    registerOpened server d msg qid = (d, registerResponse server msg (-1)) ∨
      ∃ d', registerOpened server d msg qid = (d', registerResponse server msg d.clientCount) ∧
        entries d' = entries d ++ [(msg.senderPid, qid)] ∧ d.clientCount < maxClients ∧
        d'.clientCount = d.clientCount + 1 ∧
        ∀ k : ℕ, d.clientCount < k → d'.clientsData k = d.clientsData k := by
  unfold registerOpened
  split
  · exact .inl rfl
  · refine .inr ⟨_, rfl, entries_accept hcount _, by omega, rfl, fun k hk => ?_⟩
    exact Function.update_of_ne (by omega) ..

theorem DataInv.opened (h : DataInv cfg d client) (server : ℤ) {msg : Message} {j : ι}
    (hpid : msg.senderPid = cfg.pid j) (hpriv : (client j).privQid ≠ -1) :
    DataInv cfg (registerOpened server d msg (client j).privQid).1 client := by
  have hcount := h.count_nonneg
  rcases registerOpened_cases server hcount msg (client j).privQid with
    heq | ⟨d', heq, hentries, hroom, hcount', hdata⟩
  · rw [heq]
    exact h
  · rw [heq]
    refine ⟨by simp only; omega, by simp only; omega, fun e he => ?_, fun k hk => ?_⟩
    · rw [hentries] at he
      -- the new entry is the client's own
      rcases List.mem_append.mp he with he | he
      · exact h.owner e he
      · exact ⟨j, by rw [← hpid]; exact List.mem_singleton.mp he, hpriv⟩
    · simp only at hk ⊢
      rw [hdata k (by omega)]
      exact h.blank k (by omega)

end Data

/-! ### What the calls do to the queues -/

section Queues

variable {cfg : Config ι} {s : Sys ι} {i : ι} {id q : ℤ} {k : Kernel (Packet ι)} {p : Packet ι}
  {ps : List (Packet ι)}

theorem requests_of_slot (hslot : s.kernel.slot s.data.queueDesc = .live ps) :
    s.requests = ps := by
  rw [Sys.requests, hslot]
  rfl

/-- If every message that was accepted has been dispatched, the public queue is empty. -/
theorem requests_of_drained (hsys : SysInv s) (hlen : s.accepted.length = s.dispatched.length) :
    s.requests = [] := by
  cases hslot : s.kernel.slot s.data.queueDesc with
  | live ps =>
    have hperm := (hsys.log ps hslot).length_eq
    simp only [List.length_append] at hperm
    rw [requests_of_slot hslot]
    exact List.length_eq_zero_iff.mp (by omega)
  | unused => rw [Sys.requests, hslot]; rfl
  | removed => rw [Sys.requests, hslot]; rfl

/-- Before the server has started there are no messages. -/
theorem queues_start (hsys : SysInv s) (hpc : s.pc = .start) :
    s.requests = [] ∧ ∀ i, s.inbox i = [] := by
  have hfresh := hsys.fresh hpc
  have hneg : (-1 : ℤ) < 0 := by decide
  refine ⟨?_, fun i => ?_⟩
  · rw [Sys.requests, hfresh.queueDesc]
    exact hsys.ok.msgs_of_neg hneg
  · rw [Sys.inbox, (hfresh.client i).2]
    exact hsys.ok.msgs_of_neg hneg

theorem queues_create (cfg : Config ι) (hsys : SysInv s) (hpc : s.pc = .start)
    (hget : s.kernel.Got cfg.pubKey true id q k) :
    (k.slot q).msgs = [] ∧ ∀ i, (k.slot (s.client i).privQid).msgs = [] := by
  have hfresh := hsys.fresh hpc
  have hneg : (-1 : ℤ) < 0 := by decide
  refine ⟨?_, fun i => ?_⟩
  · -- the key of the server is a named one and not in use yet
    rw [(hget.fresh (cfg.ftok.key_ne projectId).2 (hfresh.keys _)).2.2]
    rfl
  · rw [(hfresh.client i).2]
    exact (hsys.ok.got hget).msgs_of_neg hneg

variable (h : KeyInv cfg s.kernel s.data.queueDesc s.client) (hok : s.kernel.Ok)

include h in
theorem priv_used (i : ι) :
    (s.client i).privQid < 0 ∨ s.kernel.slot (s.client i).privQid ≠ .unused :=
  (h.own i).opened.imp (fun hnone => by omega) And.right

include h in
theorem priv_ne_desc (i : ι) :
    (s.client i).privQid < 0 ∨ (s.client i).privQid ≠ s.data.queueDesc :=
  (h.own i).opened.imp (fun hnone => by omega) And.left

include hok in
theorem priv_ne_of_live {q : ℤ} (hlive : (s.kernel.slot q).Live)
    (hq : (s.client i).privQid < 0 ∨ (s.client i).privQid ≠ q) : (s.client i).privQid ≠ q := by
  rcases hq with hneg | hne
  · have := hok.nonneg q hlive
    omega
  · exact hne

include h hok

/-- A client that can send has the public queue open. -/
theorem queueDesc_of_live (hlive : (s.kernel.slot (s.client i).queueDesc).Live) :
    (s.client i).queueDesc = s.data.queueDesc := by
  have hnonneg := hok.nonneg _ hlive
  exact (h.own i).queueDesc.resolve_left (by omega)

/-- A message comes into the public queue, or leaves it. -/
theorem inbox_write_desc (hlive : (s.kernel.slot s.data.queueDesc).Live) (i : ι) :
    ((s.kernel.write s.data.queueDesc ps).slot (s.client i).privQid).msgs = s.inbox i := by
  rw [Kernel.write_slot_of_ne (priv_ne_of_live hok hlive (priv_ne_desc h i)), Sys.inbox]

/-- A message comes into a private queue, or leaves it. -/
theorem requests_write_priv (hlive : (s.kernel.slot (s.client i).privQid).Live) :
    ((s.kernel.write (s.client i).privQid ps).slot s.data.queueDesc).msgs = s.requests := by
  have hne := priv_ne_desc h i
  have hnonneg := hok.nonneg _ hlive
  rw [Kernel.write_slot_of_ne (by omega), Sys.requests]

theorem inbox_write_priv [DecidableEq ι] (hlive : (s.kernel.slot (s.client i).privQid).Live)
    (j : ι) : ((s.kernel.write (s.client i).privQid ps).slot (s.client j).privQid).msgs =
      Function.update s.inbox i ps j := by
  by_cases hj : j = i
  · subst hj
    rw [Kernel.write_slot_self, Function.update_self]
    rfl
  · have hnonneg := hok.nonneg _ hlive
    have hne := h.priv_ne_priv (i := i) (j := j) (fun heq => hj heq.symm) (by omega)
    rw [Kernel.write_slot_of_ne hne.symm, Function.update_of_ne hj, Sys.inbox]

theorem requests_rmid_priv (i : ι) :
    ((s.kernel.rmid (s.client i).privQid).slot s.data.queueDesc).msgs = s.requests := by
  rw [Sys.requests, hok.msgs_rmid]
  rcases (h.own i).opened with hnone | ⟨hne, -⟩
  · by_cases hneg : s.data.queueDesc < 0
    · exact .inl hneg
    · exact .inr (by omega)
  · exact .inr hne.symm

theorem inbox_rmid_desc (i : ι) :
    ((s.kernel.rmid s.data.queueDesc).slot (s.client i).privQid).msgs = s.inbox i := by
  rw [Sys.inbox, hok.msgs_rmid (priv_ne_desc h i)]

theorem inbox_rmid_priv [DecidableEq ι] (i j : ι) :
    ((s.kernel.rmid (s.client i).privQid).slot (s.client j).privQid).msgs =
      Function.update s.inbox i [] j := by
  by_cases hj : j = i
  · subst hj
    rw [Kernel.msgs_rmid_self, Function.update_self]
  · rw [Function.update_of_ne hj, Sys.inbox, hok.msgs_rmid]
    by_cases hnone : (s.client j).privQid = -1
    · exact .inl (by omega)
    · exact .inr (h.priv_ne_priv hj hnone)

end Queues

/-! ### Steps of the server -/

section Server

variable {cfg : Config ι} {s s' : Sys ι} {p : Packet ι} {ps : List (Packet ι)}

theorem status_ne {pc : ServerPc ι} {status : ℤ} (h : pc.status = some status) :
    (∀ p, pc ≠ .register p) ∧ ∀ qid p, pc ≠ .send qid p := by
  constructor
  · rintro p rfl
    cases h
  · rintro qid p rfl
    cases h

/-- The server goes on with nothing in its hand. -/
theorem MsgInv.goOn (h : MsgInv cfg s) {pc : ServerPc ι} (hregister : ∀ p, pc ≠ .register p)
    (hsend : ∀ qid p, pc ≠ .send qid p) : MsgInv cfg { s with pc := pc } where
  data := h.data
  sent := h.sent
  register p hpc := absurd hpc (hregister p)
  target qid p hpc := absurd hpc (hsend qid p)
  inbox := h.inbox

theorem Packet.Sent.pid_pos (h : p.Sent cfg) : 0 < p.msg.senderPid := by
  obtain ⟨answered, hasks⟩ := h.asks
  rw [hasks.sender]
  exact cfg.pid_pos p.origin

/-- The queue that `handle_register` finds is that of the client. -/
theorem openClient_own (h : MsgInv cfg s) (hkeys : KeyInv cfg s.kernel s.data.queueDesc s.client)
    (hpc : s.pc = .register p) {garbage key id qid : ℤ} {k : Kernel (Packet ι)}
    (hkey : clientKey garbage p.msg.content = some key) (hget : s.kernel.Got key false id qid k)
    (hqid : qid ≠ -1) : k = s.kernel ∧ qid = (s.client p.origin).privQid := by
  obtain ⟨hsent, htype⟩ := h.register p hpc
  obtain rfl : cfg.privKey p.origin = key := by
    simpa only [clientKey, hsent.key htype, Option.some.injEq] using hkey
  obtain ⟨hk, hfound⟩ := hget.found_of_ne (cfg.ftok.key_ne _).2 hqid
  exact ⟨hk, hkeys.priv _ _ hfound⟩

theorem MsgInv.receive (h : MsgInv cfg s) (hkeys : KeyInv cfg s.kernel s.data.queueDesc s.client)
    (hok : s.kernel.Ok) (hinj : Function.Injective cfg.pid)
    (hslot : s.kernel.slot s.data.queueDesc = .live (p :: ps)) {r : ServerData × ServerPc ι}
    (hr : Dispatched cfg.server s.data p r) :
    MsgInv cfg { s.goOn r with
      kernel := s.kernel.write s.data.queueDesc ps
      dispatched := s.dispatched ++ [p] } := by
  have hrequests := requests_of_slot hslot
  have hsent : p.Sent cfg := h.sent p (by rw [hrequests]; exact List.mem_cons_self)
  have hdesc : r.1.queueDesc = s.data.queueDesc := by cases hr <;> rfl
  refine ⟨?_, fun p' hp' => ?_, fun p' hpc => ?_, fun qid p' hpc => ?_, fun i p' hp' => ?_⟩
  · -- `END` changes only `active`
    cases hr with
    | finish htype => exact { h.data with }
    | _ => exact h.data
  · have hp'' : p' ∈ ((s.kernel.write s.data.queueDesc ps).slot r.1.queueDesc).msgs := hp'
    rw [hdesc, Kernel.write_slot_self] at hp''
    exact h.sent p' (by rw [hrequests]; exact List.mem_cons_of_mem p hp'')
  · have hpc' : r.2 = .register p' := hpc
    cases hr with
    | register htype =>
      obtain rfl := ServerPc.register.inj hpc'
      exact ⟨hsent, htype⟩
    | _ => cases hpc'
  · have hpc' : r.2 = .send qid p' := hpc
    cases hr with
    -- the entry found has the sender's pid, and pids are distinct
    | respond qid' resp htype hmem hanswer =>
      obtain ⟨rfl, rfl⟩ := ServerPc.send.inj hpc'
      obtain ⟨j, hj, hne⟩ := h.data.owner _ hmem
      obtain ⟨hpid, hpriv⟩ := Prod.mk.inj hj
      obtain ⟨answered, hasks⟩ := hsent.asks
      obtain rfl : p.origin = j := hinj (hasks.sender.symm.trans hpid)
      exact ⟨hpriv, hpriv ▸ hne⟩
    | _ => cases hpc'
  · have hp'' : p' ∈ ((s.kernel.write s.data.queueDesc ps).slot (s.client i).privQid).msgs := hp'
    rw [inbox_write_desc hkeys hok ⟨_, hslot⟩ i] at hp''
    exact h.inbox i p' hp''

theorem MsgInv.send (h : MsgInv cfg s) (hkeys : KeyInv cfg s.kernel s.data.queueDesc s.client)
    (hok : s.kernel.Ok) {qid : ℤ} (hpc : s.pc = .send qid p)
    (hslot : s.kernel.slot qid = .live ps) :
    MsgInv cfg { s.post (s.kernel.write qid (ps ++ [p])) qid p with pc := .top } := by
  classical
  obtain ⟨rfl, hne⟩ := h.target qid p hpc
  refine ⟨h.data, fun p' hp' => ?_, fun p' hpc => (nomatch hpc), fun qid p' hpc => (nomatch hpc),
    fun i p' hp' => ?_⟩
  · have hp'' : p' ∈ ((s.kernel.write (s.client p.origin).privQid (ps ++ [p])).slot
        s.data.queueDesc).msgs := hp'
    rw [requests_write_priv hkeys hok ⟨_, hslot⟩] at hp''
    exact h.sent p' hp''
  · have hp'' : p' ∈ ((s.kernel.write (s.client p.origin).privQid (ps ++ [p])).slot
        (s.client i).privQid).msgs := hp'
    rw [inbox_write_priv hkeys hok ⟨_, hslot⟩] at hp''
    -- what is new in the inbox is the response to the client it was meant for
    by_cases hi : i = p.origin
    · subst hi
      rw [Function.update_self, List.mem_append, List.mem_singleton] at hp''
      rcases hp'' with hp'' | rfl
      · exact h.inbox _ p' (by rw [Sys.inbox, hslot]; exact hp'')
      · rfl
    · rw [Function.update_of_ne hi] at hp''
      exact h.inbox i p' hp''

theorem msgInv_server (h : MsgInv cfg s) (hkeys : KeyInv cfg s.kernel s.data.queueDesc s.client)
    (hsys : SysInv s) (hinj : Function.Injective cfg.pid) {garbage : ℤ}
    (hdoes : ServerDoes cfg garbage s s') : MsgInv cfg s' := by
  cases hdoes with
  | create id q k hpc hget =>
    obtain ⟨hrequests, hinbox⟩ := queues_create cfg hsys hpc hget
    refine ⟨{ h.data with }, fun p hp => ?_, fun p hpc => (nomatch hpc),
      fun qid p hpc => (nomatch hpc), fun i p hp => ?_⟩
    · have hp' : p ∈ (k.slot q).msgs := hp
      rw [hrequests] at hp'
      cases hp'
    · have hp' : p ∈ (k.slot (s.client i).privQid).msgs := hp
      rw [hinbox i] at hp'
      cases hp'
  | wait hpc hlive => exact h.goOn (fun p hpc => nomatch hpc) fun qid p hpc => nomatch hpc
  | finish hpc hactive hslot =>
    obtain ⟨hregister, hsend⟩ := status_ne (exit_status (ι := ι) s.data 0)
    exact h.goOn hregister hsend
  -- the message comes from a client, whose pid is positive
  | receive clock p ps hpc hslot =>
    have hmem : p ∈ s.requests := by
      rw [requests_of_slot hslot]
      exact List.mem_cons_self
    exact h.receive hkeys hsys.ok hinj hslot
      (dispatch_cases cfg.server clock h.data (h.sent p hmem).pid_pos)
  | openClient id key qid k p hpc hkey hget hqid =>
    -- the queue that is looked up is the private one of the client itself
    obtain ⟨rfl, rfl⟩ := openClient_own h hkeys hpc hkey hget hqid
    obtain ⟨⟨⟨answered, hasks⟩, -⟩, -⟩ := h.register p hpc
    refine ⟨h.data.opened cfg.server hasks.sender hqid, fun p' hp' => ?_,
      fun p' hpc => (nomatch hpc), fun qid p' hpc' => ?_, h.inbox⟩
    · have hp'' : p' ∈ (s.kernel.slot
          (registerOpened cfg.server s.data p.msg (s.client p.origin).privQid).1.queueDesc).msgs :=
        hp'
      rw [(registerOpened_data cfg.server s.data p.msg _).2] at hp''
      exact h.sent p' hp''
    · obtain ⟨rfl, rfl⟩ := ServerPc.send.inj hpc'
      exact ⟨rfl, hqid⟩
  | send qid p ps hpc hslot hroom => exact h.send hkeys hsys.ok hpc hslot
  | fail hfails =>
    obtain ⟨hregister, hsend⟩ := status_ne (exit_status (ι := ι) s.data (-1))
    exact h.goOn hregister hsend
  | remove status hpc =>
    refine ⟨h.data, fun p hp => ?_, fun p hpc => (nomatch hpc), fun qid p hpc => (nomatch hpc),
      fun i p hp => ?_⟩
    · have hp' : p ∈ ((s.kernel.rmid s.data.queueDesc).slot s.data.queueDesc).msgs := hp
      -- a queue that is removed holds nothing
      rw [Kernel.msgs_rmid_self] at hp'
      cases hp'
    · have hp' : p ∈ ((s.kernel.rmid s.data.queueDesc).slot (s.client i).privQid).msgs := hp
      rw [inbox_rmid_desc hkeys hsys.ok] at hp'
      exact h.inbox i p hp'

end Server

/-! ### Steps of a client -/

section Client

variable [DecidableEq ι] {cfg : Config ι} {s s' : Sys ι} {i : ι} {e : Event ι}

@[simp] theorem setClient_client {c : Client} (j : ι) :
    (s.setClient i c).client j = Function.update s.client i c j := rfl

theorem setClient_privQid {c : Client} (hpriv : c.privQid = (s.client i).privQid) (j : ι) :
    (Function.update s.client i c j).privQid = (s.client j).privQid := by
  by_cases hj : j = i
  · rw [hj, Function.update_self, hpriv]
  · rw [Function.update_of_ne hj]

theorem queues_setClient {c : Client} (hpriv : c.privQid = (s.client i).privQid) :
    (s.setClient i c).requests = s.requests ∧ (s.setClient i c).inbox = s.inbox := by
  refine ⟨rfl, funext fun j => ?_⟩
  show (s.kernel.slot (Function.update s.client i c j).privQid).msgs = _
  rw [setClient_privQid hpriv, Sys.inbox]

section Calls

variable (h : KeyInv cfg s.kernel s.data.queueDesc s.client) (hok : s.kernel.Ok)

include h hok

/-- A message of the client `i` comes into the public queue. -/
theorem queues_clientPost {ps : List (Packet ι)}
    (hslot : s.kernel.slot (s.client i).queueDesc = .live ps) (msg : Message) (answered : Bool)
    (pc : ClientPc) :
    (s.clientPost i ps msg answered pc).requests = s.requests ++ [⟨msg, i⟩] ∧
      (s.clientPost i ps msg answered pc).inbox = s.inbox := by
  have hdesc := queueDesc_of_live h hok ⟨ps, hslot⟩
  rw [hdesc] at hslot
  have hkernel : (s.clientPost i ps msg answered pc).kernel =
      s.kernel.write s.data.queueDesc (ps ++ [⟨msg, i⟩]) := by rw [← hdesc]; rfl
  refine ⟨?_, funext fun j => ?_⟩
  · show ((s.clientPost i ps msg answered pc).kernel.slot s.data.queueDesc).msgs = _
    rw [hkernel, Kernel.write_slot_self, requests_of_slot hslot]
    rfl
  · show ((s.clientPost i ps msg answered pc).kernel.slot
      (Function.update s.client i { s.client i with msg := msg, pc := pc } j).privQid).msgs = _
    rw [hkernel]
    rw [setClient_privQid (c := { s.client i with msg := msg, pc := pc }) rfl]
    exact inbox_write_desc h hok ⟨ps, hslot⟩ j

/-- The client `i` takes a message from its private queue. -/
theorem queues_clientTake {p : Packet ι} {ps : List (Packet ι)}
    (hslot : s.kernel.slot (s.client i).privQid = .live (p :: ps)) {c : Client}
    (hpriv : c.privQid = (s.client i).privQid) :
    s.inbox i = p :: ps ∧ (s.clientTake i p ps c).requests = s.requests ∧
      (s.clientTake i p ps c).inbox = Function.update s.inbox i ps := by
  refine ⟨by rw [Sys.inbox, hslot]; rfl, requests_write_priv h hok ⟨_, hslot⟩,
    funext fun j => ?_⟩
  show ((s.kernel.write (s.client i).privQid ps).slot
    (Function.update s.client i c j).privQid).msgs = _
  rw [setClient_privQid hpriv]
  exact inbox_write_priv h hok ⟨_, hslot⟩ j

/-- The client `i` makes its private queue. -/
theorem queues_openPrivate
    (hdesc : s.data.queueDesc = -1 ∨ s.kernel.slot s.data.queueDesc ≠ .unused)
    (hapart : cfg.Apart) (hpc : (s.client i).pc = .openPrivate) {id q : ℤ} {k : Kernel (Packet ι)}
    (hget : s.kernel.Got (cfg.privKey i) true id q k) :
    ({ s with kernel := k }.setClient i
        { s.client i with privQid := q, pc := .sendRegister }).requests = s.requests ∧
      ({ s with kernel := k }.setClient i
        { s.client i with privQid := q, pc := .sendRegister }).inbox = s.inbox := by
  obtain ⟨-, -, hslot, -⟩ := h.openPrivate hok hdesc hapart hpc hget
  have hdesc' : s.data.queueDesc < 0 ∨ s.kernel.slot s.data.queueDesc ≠ .unused :=
    hdesc.imp_left fun hnone => by omega
  refine ⟨hok.msgs_got hget hdesc', funext fun j => ?_⟩
  show (k.slot (Function.update s.client i _ j).privQid).msgs = _
  by_cases hj : j = i
  · -- before it is opened, the client has no inbox
    subst hj
    have hunopened := (h.own j).unopened (.inr hpc)
    have hnone : s.inbox j = [] := by
      rw [Sys.inbox, hunopened]
      exact hok.msgs_of_neg (by decide)
    rw [Function.update_self, hslot, hnone]
    rfl
  · rw [Function.update_of_ne hj]
    exact hok.msgs_got hget (priv_used h j)

/-- The client `i` removes its private queue. -/
theorem queues_remove (status : ℤ) :
    ({ s with kernel := s.kernel.rmid (s.client i).privQid }.setClient i
        { s.client i with pc := .gone status }).requests = s.requests ∧
      ({ s with kernel := s.kernel.rmid (s.client i).privQid }.setClient i
        { s.client i with pc := .gone status }).inbox = Function.update s.inbox i [] := by
  refine ⟨requests_rmid_priv h hok i, funext fun j => ?_⟩
  show ((s.kernel.rmid (s.client i).privQid).slot
    (Function.update s.client i { s.client i with pc := .gone status } j).privQid).msgs = _
  rw [setClient_privQid (c := { s.client i with pc := .gone status }) rfl]
  exact inbox_rmid_priv h hok i j

end Calls

omit [DecidableEq ι] in
/-- The message that a client sends is one of its own. -/
theorem sent_of_sends {k : Kernel (Packet ι)} {desc : ℤ} {c : Client}
    (hc : ClientInv cfg k desc i c) {msg : Message} {answered : Bool} {pc : ClientPc}
    (hpc : ClientPc.sends cfg i c = some (msg, answered, pc)) :
    Asks (cfg.pid i) answered msg ∧ Packet.Sent cfg ⟨msg, i⟩ := by
  unfold ClientPc.sends at hpc
  -- `REGISTER` carries the key of the private queue
  split at hpc
  · obtain ⟨rfl, rfl, -⟩ := by simpa only [Option.some.injEq, Prod.mk.injEq] using hpc
    have hne : typeRegister ≠ typeMirror := by decide
    have hasks : Asks (cfg.pid i) true ⟨typeRegister, cfg.pid i,
        overwrite (decimal (cfg.ftok.key (cfg.pid i))) (cfg.junk i)⟩ :=
      ⟨rfl, .inl rfl, fun htype => absurd htype hne⟩
    exact ⟨hasks, ⟨true, hasks⟩, fun _ => scanInt_overwrite _ _⟩
  · rename_i hsend
    obtain ⟨rfl, rfl, -⟩ := by simpa only [Option.some.injEq, Prod.mk.injEq] using hpc
    obtain ⟨hasks, hne⟩ := hc.asks _ hsend
    exact ⟨hasks, ⟨_, hasks⟩, fun htype => absurd htype hne⟩
  · exact absurd hpc (Option.some_ne_none _).symm

omit [DecidableEq ι] in
/-- A step of a client, which leaves the server and the queues of others alone. -/
theorem MsgInv.client (h : MsgInv cfg s) (hpc : s'.pc = s.pc) (hdata : s'.data = s.data)
    (hpriv : ∀ j, (s.client j).privQid ≠ -1 → (s'.client j).privQid = (s.client j).privQid)
    (hsent : ∀ p ∈ s'.requests, p ∈ s.requests ∨ p.Sent cfg)
    (hinbox : ∀ j, ∀ p ∈ s'.inbox j, p ∈ s.inbox j) : MsgInv cfg s' where
  data := by
    rw [hdata]
    refine { h.data with owner := fun e he => ?_ }
    obtain ⟨j, rfl, hne⟩ := h.data.owner e he
    exact ⟨j, by rw [hpriv j hne], by rwa [hpriv j hne]⟩
  sent p hp := (hsent p hp).elim (h.sent p) id
  register p hreg := h.register p (hpc.symm.trans hreg)
  target qid p hsend := by
    obtain ⟨hqid, hne⟩ := h.target qid p (hpc.symm.trans hsend)
    exact ⟨by rw [hpriv _ (hqid ▸ hne), hqid], hne⟩
  inbox j p hp := h.inbox j p (hinbox j p hp)

theorem msgInv_client (h : MsgInv cfg s) (hkeys : KeyInv cfg s.kernel s.data.queueDesc s.client)
    (hsys : SysInv s) (hapart : cfg.Apart) (hdoes : ClientDoes cfg i s s') : MsgInv cfg s' := by
  have hok := hsys.ok
  -- a step without a message
  have hset : ∀ c : Client, c.privQid = (s.client i).privQid → MsgInv cfg (s.setClient i c) := by
    intro c hpriv
    obtain ⟨hrequests, hinbox⟩ := queues_setClient hpriv
    exact h.client rfl rfl (fun j _ => setClient_privQid hpriv j)
      (fun p hp => .inl (hrequests ▸ hp)) fun j p hp => hinbox ▸ hp
  -- a step that takes the first message of the own inbox
  have htake : ∀ (p : Packet ι) (ps : List (Packet ι)) (c : Client),
      s.kernel.slot (s.client i).privQid = .live (p :: ps) →
      c.privQid = (s.client i).privQid → MsgInv cfg (s.clientTake i p ps c) := by
    intro p ps c hslot hpriv
    obtain ⟨hin, hrequests, hinbox⟩ := queues_clientTake hkeys hok hslot hpriv
    refine h.client rfl rfl (fun j _ => setClient_privQid hpriv j)
      (fun p hp => .inl (hrequests ▸ hp)) fun j p' hp => ?_
    rw [hinbox] at hp
    by_cases hj : j = i
    · subst hj
      rw [Function.update_self] at hp
      rw [hin]
      exact List.mem_cons_of_mem p hp
    · rwa [Function.update_of_ne hj] at hp
  cases hdoes with
  | openPublic q hpc hkey => exact hset _ rfl
  | openPrivate id q k hpc hget =>
    obtain ⟨hrequests, hinbox⟩ := queues_openPrivate hkeys hok hsys.known hapart hpc hget
    have hunopened := (hkeys.own i).unopened (.inr hpc)
    refine h.client rfl rfl (fun j hne => ?_) (fun p hp => .inl (hrequests ▸ hp))
      fun j p hp => hinbox ▸ hp
    -- the client that opens its queue had none before
    have hj : j ≠ i := by
      rintro rfl
      exact hne hunopened
    rw [setClient_client, Function.update_of_ne hj]
  | send msg answered pc ps hpc hslot hroom =>
    obtain ⟨hrequests, hinbox⟩ := queues_clientPost hkeys hok hslot msg answered pc
    refine h.client rfl rfl
      (fun j _ => setClient_privQid (c := { s.client i with msg := msg, pc := pc }) rfl j)
      (fun p hp => ?_) fun j p hp => hinbox ▸ hp
    rw [hrequests, List.mem_append, List.mem_singleton] at hp
    rcases hp with hp | rfl
    · exact .inl hp
    · exact .inr (sent_of_sends (hkeys.own i) hpc).2
  | session p ps hpc hslot => exact htake p ps _ hslot (readSession_desc _ _ _).2
  | prompt hpc => exact hset _ (readCommand_desc _ _).2
  | response p ps hpc hslot => exact htake p ps _ hslot rfl
  | exit status hpc => exact hset _ rfl
  | remove status hpc =>
    obtain ⟨hrequests, hinbox⟩ := queues_remove (i := i) hkeys hok status
    refine h.client rfl rfl
      (fun j _ => setClient_privQid (c := { s.client i with pc := .gone status }) rfl j)
      (fun p hp => .inl (hrequests ▸ hp)) fun j p hp => ?_
    rw [hinbox] at hp
    by_cases hj : j = i
    · subst hj
      rw [Function.update_self] at hp
      cases hp
    · rwa [Function.update_of_ne hj] at hp

/-- **Every step keeps the messages in order.** -/
theorem msgInv_step (h : MsgInv cfg s) (hkeys : KeyInv cfg s.kernel s.data.queueDesc s.client)
    (hsys : SysInv s) (hapart : cfg.Apart) (hstep : (system cfg).step e s = some s') :
    MsgInv cfg s' := by
  cases does hsys.ok hstep with
  | server id garbage clock hdoes => exact msgInv_server h hkeys hsys hapart.injective hdoes
  | interruptServer hpc =>
    obtain ⟨hregister, hsend⟩ := status_ne (exit_status (ι := ι) s.data 2)
    have hgo := h.goOn hregister hsend
    exact { hgo with }
  | client i id hdoes => exact msgInv_client h hkeys hsys hapart hdoes
  | interruptClient i hpc => exact msgInv_client h hkeys hsys hapart (.exit 2 hpc)

omit [DecidableEq ι] in
theorem msgInv_start (cfg : Config ι) : MsgInv cfg cfg.start where
  data := ⟨le_rfl, Int.zero_le_ofNat 5, fun _ he => absurd he List.not_mem_nil, fun _ _ => rfl⟩
  sent _ hp := absurd hp List.not_mem_nil
  register _ hpc := nomatch hpc
  target _ _ hpc := nomatch hpc
  inbox _ _ hp := absurd hp List.not_mem_nil

end Client

end SystemV
end MsgQueue
end OpSys
