import OpSys.MsgQueue.Posix.Steps

/-!
# What the system with POSIX queues keeps

Paths tell the queues apart, the descriptors in the server's array lead to the
queues of the clients whose pids stand beside them, and the public queue holds
messages of clients only.  Pids may be used again by later clients.

## Main definitions

* `FdInv` — the descriptors of the running server.
* `ClientInv` — the queues that a client has open.
* `SysInv` — what holds in every state.

## Main results

* `clientPath_injective`, `serverPath_ne` — no path is used twice.
* `dispatch_cases` — what `dispatchRequest` leads to.
* `sysInv_start`, `sysInv_step` — the invariant, at the start and along every step.

## References

`lab5_message_queues/POSIX/server.c`, `lab5_message_queues/POSIX/client.c`.
-/

namespace OpSys
namespace MsgQueue
namespace Posix

open Stdio

/-! ### Paths -/

theorem clientPath_injective {p q : ℤ} (h : clientPath p = clientPath q) : p = q :=
  decimal_injective (List.cons.inj h).2

theorem serverPath_ne (pid : ℤ) : serverPath ≠ clientPath pid := by
  intro h
  have hdec : [115, 101, 114, 118, 101, 114] = decimal pid := (List.cons.inj h).2
  unfold decimal at hdec
  split at hdec
  · exact absurd (List.cons.inj hdec).1 (by decide)
  · have hmem : (115 : UInt8) ∈ digitBytes pid.natAbs := by simp [← hdec]
    exact absurd (isdigit_of_mem hmem) (by decide)

/-! ### Messages of clients -/

variable {ι : Type*}

/-- A message that some client sends. -/
def FromClient (cfg : Config ι) (m : Message) : Prop := ∃ j answered, Asks (cfg.pid j) answered m

theorem asks_quit (pid : ℤ) (content : List UInt8) : Asks pid false ⟨typeQuit, pid, content⟩ := by
  have hne : typeQuit ≠ typeMirror := by decide
  exact ⟨rfl, .inr rfl, fun ht => absurd ht hne⟩

theorem asks_register (pid : ℤ) (content : List UInt8) :
    Asks pid true ⟨typeRegister, pid, content⟩ := by
  have hne : typeRegister ≠ typeMirror := by decide
  exact ⟨rfl, .inl rfl, fun ht => absurd ht hne⟩

/-! ### The descriptors of the server -/

/-- Descriptors of clients that are being refused. -/
def ServerPc.handFds : ServerPc → List ℤ
  | .refuse qid _ => [qid]
  | .closeRefused qid => [qid]
  | _ => []

/-- The array and the descriptors of the running server. -/
structure FdInv (cfg : Config ι) (fds : ℤ → Option (Option ι)) (d : ServerData)
    (pc : ServerPc) : Prop where
  count_nonneg : 0 ≤ d.clientCount
  public_fd : fds d.queueDesc = some none
  /-- Beside every pid stands a descriptor for the queue of its client. -/
  owner : ∀ e ∈ entries d, ∃ j, e.1 = cfg.pid j ∧ fds e.2 = some (some j)
  nonneg : ∀ e ∈ entries d, 0 ≤ e.2
  hand : ∀ q ∈ pc.handFds, ∃ j, fds q = some (some j)
  nodup : ((entries d).map Prod.snd ++ pc.handFds).Nodup
  target : ∀ qid msg, pc = .login qid msg ∨ pc = .respond qid msg →
    qid ∈ (entries d).map Prod.snd
  found : ∀ i, pc = .quit i → (i : ℤ) < d.clientCount

section Fds

variable {cfg : Config ι} {fds : ℤ → Option (Option ι)} {d : ServerData} {pc : ServerPc}

theorem FdInv.of_mem (h : FdInv cfg fds d pc) {qid : ℤ} (hq : qid ∈ (entries d).map Prod.snd) :
    ∃ j, fds qid = some (some j) := by
  obtain ⟨e, he, rfl⟩ := List.mem_map.mp hq
  obtain ⟨j, -, hj⟩ := h.owner e he
  exact ⟨j, hj⟩

/-- The server sends to queues of clients. -/
theorem FdInv.of_sends (h : FdInv cfg fds d pc) {qid : ℤ} {msg : Message} {pc' : ServerPc}
    (hpc : pc.sends = some (qid, msg, pc')) : ∃ j, fds qid = some (some j) := by
  cases pc with
  | refuse qid' msg' =>
    obtain ⟨rfl, -⟩ := Prod.mk.inj (Option.some.inj hpc)
    exact h.hand _ (by simp [ServerPc.handFds])
  | login qid' msg' =>
    obtain ⟨rfl, -⟩ := Prod.mk.inj (Option.some.inj hpc)
    exact h.of_mem (h.target _ msg' (.inl rfl))
  | respond qid' msg' =>
    obtain ⟨rfl, -⟩ := Prod.mk.inj (Option.some.inj hpc)
    exact h.of_mem (h.target _ msg' (.inr rfl))
  | _ => exact absurd hpc (Option.some_ne_none _).symm

theorem entries_at (hcount : 0 ≤ d.clientCount) {i : ℕ} (hi : (i : ℤ) < d.clientCount) :
    (entries d)[i]? = some (d.clientsData i) := by
  rw [getElem?_entries, if_pos (by omega)]

/-- The server closes queues of clients. -/
theorem FdInv.of_closes (h : FdInv cfg fds d pc) {qid : ℤ} {d' : ServerData}
    (hpc : pc.closes d = some (qid, d')) : ∃ j, fds qid = some (some j) := by
  cases pc with
  | closeRefused qid' =>
    obtain ⟨rfl, -⟩ := Prod.mk.inj (Option.some.inj hpc)
    exact h.hand _ (by simp [ServerPc.handFds])
  | quit i =>
    obtain ⟨rfl, -⟩ := Prod.mk.inj (Option.some.inj hpc)
    have hi := entries_at h.count_nonneg (h.found i rfl)
    exact h.of_mem (List.mem_map_of_mem (List.mem_of_getElem? hi))
  | _ => exact absurd hpc (Option.some_ne_none _).symm

/-- A server that holds no descriptor in its hand may go on to another place. -/
theorem FdInv.move (h : FdInv cfg fds d pc) {d' : ServerData} {pc' : ServerPc}
    (hdata : d'.clientsData = d.clientsData) (hcount : d'.clientCount = d.clientCount)
    (hdesc : d'.queueDesc = d.queueDesc) (hhand : pc'.handFds = [] ∨ pc'.handFds = pc.handFds)
    (htarget : ∀ qid msg, pc' = .login qid msg ∨ pc' = .respond qid msg →
      qid ∈ (entries d).map Prod.snd)
    (hfound : ∀ i, pc' = .quit i → (i : ℤ) < d.clientCount) : FdInv cfg fds d' pc' := by
  have hentries : entries d' = entries d := by rw [entries, entries, hdata, hcount]
  refine ⟨hcount ▸ h.count_nonneg, hdesc ▸ h.public_fd, hentries ▸ h.owner, hentries ▸ h.nonneg,
    ?_, ?_, ?_, ?_⟩
  · rcases hhand with hhand | hhand
    · simp [hhand]
    · rw [hhand]
      exact h.hand
  · rw [hentries]
    rcases hhand with hhand | hhand
    · rw [hhand, List.append_nil]
      exact h.nodup.of_append_left
    · rw [hhand]
      exact h.nodup
  · rw [hentries]
    exact htarget
  · rw [hcount]
    exact hfound

theorem fdInv_create {fd : ℤ} (hcount : d.clientCount = 0) (hfd : fds fd = some none) :
    FdInv cfg fds { d with queueDesc := fd } .top := by
  have hentries : entries { d with queueDesc := fd } = [] :=
    List.eq_nil_of_length_eq_zero (by rw [length_entries]; simp [hcount])
  refine ⟨hcount.ge, hfd, ?_, ?_, ?_, ?_, ?_, ?_⟩
  · simp [hentries]
  · simp [hentries]
  · simp [ServerPc.handFds]
  · simp [hentries, ServerPc.handFds]
  · simp
  · simp

/-- A descriptor that is not open is in nobody's hands. -/
theorem FdInv.fresh (h : FdInv cfg fds d pc) {fd : ℤ} (hfd : fds fd = none) :
    fd ∉ (entries d).map Prod.snd ++ pc.handFds := by
  intro hmem
  rcases List.mem_append.mp hmem with hmem | hmem
  · obtain ⟨j, hj⟩ := h.of_mem hmem
    exact Option.some_ne_none _ (hj.symm.trans hfd)
  · obtain ⟨j, hj⟩ := h.hand fd hmem
    exact Option.some_ne_none _ (hj.symm.trans hfd)

theorem FdInv.openClient {msg : Message} (h : FdInv cfg fds d (.register msg)) (server : ℤ)
    {fd : ℤ} {j : ι} (hpid : msg.senderPid = cfg.pid j) (hnonneg : 0 ≤ fd) (hfd : fds fd = none) :
    FdInv cfg (Function.update fds fd (some (some j))) (registerOpened server d msg fd).1
      (registerOpened server d msg fd).2 := by
  have hfresh := h.fresh hfd
  have hkeep : ∀ q k, fds q = some k → Function.update fds fd (some (some j)) q = some k := by
    intro q k hq
    have hne : q ≠ fd := fun heq => Option.some_ne_none _ (hq.symm.trans (heq ▸ hfd))
    rw [Function.update_of_ne hne, hq]
  have howner : ∀ e ∈ entries d, ∃ k, e.1 = cfg.pid k ∧
      Function.update fds fd (some (some j)) e.2 = some (some k) := by
    intro e he
    obtain ⟨k, hk, hfd'⟩ := h.owner e he
    exact ⟨k, hk, hkeep _ _ hfd'⟩
  have hnodup := h.nodup
  simp only [ServerPc.handFds, List.append_nil] at hfresh hnodup
  unfold registerOpened
  split
  · -- the table is full: the descriptor is in hand, and is closed next
    refine ⟨h.count_nonneg, hkeep _ _ h.public_fd, howner, h.nonneg, ?_, ?_, ?_, ?_⟩
    · rintro q hq
      obtain rfl := List.mem_singleton.mp hq
      exact ⟨j, Function.update_self ..⟩
    · rw [ServerPc.handFds, List.nodup_append_comm]
      exact List.nodup_cons.mpr ⟨hfresh, hnodup⟩
    · simp
    · simp
  · -- there is room: the descriptor goes into the table
    have hentries := entries_accept h.count_nonneg (msg.senderPid, fd)
    refine ⟨?_, hkeep _ _ h.public_fd, ?_, ?_, ?_, ?_, ?_, ?_⟩
    · have := h.count_nonneg
      simp only
      omega
    · rw [hentries]
      intro e he
      rcases List.mem_append.mp he with he | he
      · exact howner e he
      · obtain rfl := List.mem_singleton.mp he
        exact ⟨j, hpid, Function.update_self ..⟩
    · rw [hentries]
      intro e he
      rcases List.mem_append.mp he with he | he
      · exact h.nonneg e he
      · obtain rfl := List.mem_singleton.mp he
        exact hnonneg
    · exact fun q hq => absurd hq List.not_mem_nil
    · show (_ ++ []).Nodup
      rw [hentries, List.append_nil, List.map_append, List.nodup_append_comm]
      exact List.nodup_cons.mpr ⟨hfresh, hnodup⟩
    · rintro qid msg' (hlogin | hrespond)
      · obtain ⟨rfl, -⟩ := ServerPc.login.inj hlogin
        rw [hentries]
        simp
      · cases hrespond
    · simp

/-- The array without the descriptors that the server closes. -/
theorem FdInv.entries_of_closes (h : FdInv cfg fds d pc) {qid : ℤ} {d' : ServerData}
    (hpc : pc.closes d = some (qid, d')) :
    (entries d').Sublist (entries d) ∧ qid ∉ (entries d').map Prod.snd ∧
      0 ≤ d'.clientCount ∧ d'.queueDesc = d.queueDesc := by
  cases pc with
  | closeRefused qid' =>
    obtain ⟨rfl, rfl⟩ := Prod.mk.inj (Option.some.inj hpc)
    refine ⟨List.Sublist.refl _, fun hmem => ?_, h.count_nonneg, rfl⟩
    -- the descriptor in hand is not in the table
    exact List.disjoint_of_nodup_append h.nodup hmem (by simp [ServerPc.handFds])
  | quit i =>
    obtain ⟨rfl, rfl⟩ := Prod.mk.inj (Option.some.inj hpc)
    have hi := h.found i rfl
    have hcount := h.count_nonneg
    have hlen := length_entries d
    have hlt : i < (entries d).length := by omega
    have hget : (entries d)[i] = d.clientsData i := by simp [entries]
    -- no other entry has the descriptor that is closed
    have hnodup : (d.clientsData i :: (entries d).eraseIdx i).map Prod.snd |>.Nodup := by
      rw [← hget, ((List.getElem_cons_eraseIdx_perm hlt).map Prod.snd).nodup_iff]
      exact h.nodup.of_append_left
    rw [entries_quitClosed hi]
    refine ⟨List.eraseIdx_sublist _ _, (List.nodup_cons.mp hnodup).1, ?_, rfl⟩
    simp only [quitClosed]
    omega
  | _ => exact absurd hpc (Option.some_ne_none _).symm

theorem FdInv.close (h : FdInv cfg fds d pc) {qid : ℤ} {d' : ServerData}
    (hpc : pc.closes d = some (qid, d')) :
    FdInv cfg (Function.update fds qid none) d' .top := by
  obtain ⟨hsub, hqid, hcount, hdesc⟩ := h.entries_of_closes hpc
  obtain ⟨k, hk⟩ := h.of_closes hpc
  refine ⟨hcount, ?_, fun e he => ?_, fun e he => h.nonneg e (hsub.subset he), ?_, ?_, ?_, ?_⟩
  · have hne : d.queueDesc ≠ qid := by
      intro heq
      have := h.public_fd.symm.trans (heq ▸ hk)
      exact Option.some_ne_none k (Option.some.inj this).symm
    rw [hdesc, Function.update_of_ne hne, h.public_fd]
  · obtain ⟨j, hj, hfd⟩ := h.owner e (hsub.subset he)
    have hne : e.2 ≠ qid := fun heq => hqid (heq ▸ List.mem_map_of_mem he)
    exact ⟨j, hj, by rw [Function.update_of_ne hne, hfd]⟩
  · exact fun q hq => absurd hq List.not_mem_nil
  · show (_ ++ []).Nodup
    rw [List.append_nil]
    exact h.nodup.of_append_left.sublist (hsub.map Prod.snd)
  · simp
  · simp

/-- After a `mq_send` the server goes on as it should. -/
theorem FdInv.send (h : FdInv cfg fds d pc) {qid : ℤ} {msg : Message} {pc' : ServerPc}
    (hpc : pc.sends = some (qid, msg, pc')) : FdInv cfg fds d pc' := by
  cases pc with
  | refuse qid' msg' =>
    obtain ⟨rfl, -, rfl⟩ := by simpa [ServerPc.sends] using hpc
    exact h.move rfl rfl rfl (.inr rfl) (by simp) (by simp)
  | login qid' msg' =>
    obtain ⟨rfl, -, rfl⟩ := by simpa [ServerPc.sends] using hpc
    exact h.move rfl rfl rfl (.inl rfl) (by simp) (by simp)
  | respond qid' msg' =>
    obtain ⟨rfl, -, rfl⟩ := by simpa [ServerPc.sends] using hpc
    exact h.move rfl rfl rfl (.inl rfl) (by simp) (by simp)
  | _ => exact absurd hpc (Option.some_ne_none _).symm

end Fds

/-! ### What a message leads to -/

/-- The ways on after `mq_receive`. -/
inductive Dispatched (server : ℤ) (d : ServerData) (m : Message) : ServerData × ServerPc → Prop
  | register (htype : m.type = typeRegister) : Dispatched server d m (d, .register m)
  | unknown (htype : m.type = typeMirror ∨ m.type = typeTime ∨ m.type = typeQuit)
      (hfind : ¬(d.find m.senderPid : ℤ) < d.clientCount) : Dispatched server d m (d, .top)
  | respond (resp : Message) (htype : m.type = typeMirror ∨ m.type = typeTime)
      (hfind : (d.find m.senderPid : ℤ) < d.clientCount)
      (hanswer : nul ∈ m.content ∨ m.type ≠ typeMirror → Answers server m resp) :
      Dispatched server d m (d, .respond (d.clientsData (d.find m.senderPid)).2 resp)
  | finish (htype : m.type = typeEnd) :
      Dispatched server d m ({ d with active := false }, .top)
  | quit (htype : m.type = typeQuit) (hfind : (d.find m.senderPid : ℤ) < d.clientCount) :
      Dispatched server d m (d, .quit (d.find m.senderPid))
  | other (htype : m.type ≠ typeRegister ∧ m.type ≠ typeMirror ∧ m.type ≠ typeTime ∧
      m.type ≠ typeEnd ∧ m.type ≠ typeQuit) : Dispatched server d m (d, .top)

/-- The entry that `get_qid` finds holds a descriptor that is not -1. -/
theorem dispatch_cases (server : ℤ) (clock : Clock) {d : ServerData} (hcount : 0 ≤ d.clientCount)
    (hnonneg : ∀ e ∈ entries d, e.2 ≠ -1) (m : Message) :
    Dispatched server d m (dispatchRequest server clock.1 d m) := by
  have hqid : (d.find m.senderPid : ℤ) < d.clientCount →
      getQid d m.senderPid = (d.clientsData (d.find m.senderPid)).2 ∧
        getQid d m.senderPid ≠ -1 := by
    intro hfind
    have hmem := List.mem_of_getElem? (entries_at hcount hfind)
    rw [getQid, if_pos hfind]
    exact ⟨rfl, hnonneg _ hmem⟩
  have hqid' : ¬(d.find m.senderPid : ℤ) < d.clientCount → getQid d m.senderPid = -1 :=
    fun hfind => if_neg hfind
  unfold dispatchRequest
  by_cases hreg : m.type = typeRegister
  · rw [if_pos hreg]
    exact .register hreg
  rw [if_neg hreg]
  by_cases hmirror : m.type = typeMirror
  · rw [if_pos hmirror]
    by_cases hfind : (d.find m.senderPid : ℤ) < d.clientCount
    · obtain ⟨heq, hne⟩ := hqid hfind
      rw [if_neg hne, heq]
      refine .respond _ (.inl hmirror) hfind fun h => ?_
      exact answers_mirror hmirror (h.resolve_right (not_not.mpr hmirror))
    · rw [if_pos (hqid' hfind)]
      exact .unknown (.inl hmirror) hfind
  rw [if_neg hmirror]
  by_cases htime : m.type = typeTime
  · rw [if_pos htime]
    by_cases hfind : (d.find m.senderPid : ℤ) < d.clientCount
    · obtain ⟨heq, hne⟩ := hqid hfind
      rw [if_neg hne, heq]
      exact .respond _ (.inr htime) hfind fun _ => answers_time htime clock
    · rw [if_pos (hqid' hfind)]
      exact .unknown (.inr (.inl htime)) hfind
  rw [if_neg htime]
  by_cases hend : m.type = typeEnd
  · rw [if_pos hend]
    exact .finish hend
  rw [if_neg hend]
  by_cases hquit : m.type = typeQuit
  · rw [if_pos hquit]
    -- the search stops at `clientCount` if the client is not in the table
    have hle := find_le hcount m.senderPid
    by_cases hfind : (d.find m.senderPid : ℤ) < d.clientCount
    · rw [if_neg (by omega)]
      exact .quit hquit hfind
    · rw [if_pos (by omega)]
      exact .unknown (.inr (.inr hquit)) hfind
  · rw [if_neg hquit]
    exact .other ⟨hreg, hmirror, htime, hend, hquit⟩

section Dispatched

variable {cfg : Config ι} {fds : ℤ → Option (Option ι)} {server : ℤ} {d : ServerData}
  {m : Message} {p : ServerData × ServerPc}

/-- What the server dispatches while its descriptors are in order. -/
theorem FdInv.dispatched {pc : ServerPc} (h : FdInv cfg fds d pc) (server : ℤ) (clock : Clock)
    (m : Message) : Dispatched server d m (dispatchRequest server clock.1 d m) := by
  refine dispatch_cases server clock h.count_nonneg (fun e he => ?_) m
  have := h.nonneg e he
  omega

/-- The server's own descriptor leads to the public queue. -/
theorem FdInv.public_eq {pc : ServerPc} (h : FdInv cfg fds d pc) {q : Option ι}
    (hfd : fds d.queueDesc = some q) : none = q :=
  Option.some.inj (h.public_fd.symm.trans hfd)

theorem Dispatched.fdInv (hp : Dispatched server d m p) (h : FdInv cfg fds d .receive) :
    FdInv cfg fds p.1 p.2 := by
  cases hp with
  | register => exact h.move rfl rfl rfl (.inl rfl) (by simp) (by simp)
  | unknown => exact h.move rfl rfl rfl (.inl rfl) (by simp) (by simp)
  | respond resp _ hfind _ =>
    refine h.move rfl rfl rfl (.inl rfl) ?_ (by simp)
    rintro qid msg (heq | heq)
    · cases heq
    · obtain ⟨rfl, -⟩ := ServerPc.respond.inj heq
      exact List.mem_map_of_mem (List.mem_of_getElem? (entries_at h.count_nonneg hfind))
  | finish => exact h.move rfl rfl rfl (.inl rfl) (by simp) (by simp)
  | quit _ hfind =>
    refine h.move rfl rfl rfl (.inl rfl) (by simp) fun i heq => ?_
    obtain rfl := ServerPc.quit.inj heq
    exact hfind
  | other => exact h.move rfl rfl rfl (.inl rfl) (by simp) (by simp)

theorem Dispatched.running (hp : Dispatched server d m p) : p.2.Running := by
  cases hp <;> exact ⟨ServerPc.noConfusion, rfl⟩

theorem Dispatched.register_eq (hp : Dispatched server d m p) {msg : Message}
    (hpc : p.2 = .register msg) : m = msg ∧ m.type = typeRegister := by
  cases hp with
  | register htype => exact ⟨ServerPc.register.inj hpc, htype⟩
  | _ => cases hpc

theorem Dispatched.active (hp : Dispatched server d m p) (hactive : p.1.active = false) :
    d.active = false ∨ m.type = typeEnd := by
  cases hp with
  | finish htype => exact .inr htype
  | _ => exact .inl hactive

end Dispatched

/-! ### The clients -/

/-- The queues that a client has open, and what it is about to send. -/
structure ClientInv (cfg : Config ι) (i : ι) (c : Client ι) : Prop where
  pub : ∀ q, c.pubQid = some q → q = none
  priv : ∀ q, c.privQid = some q → ∃ j, q = some j ∧ cfg.pid j = cfg.pid i
  opened : c.pc ≠ .openPublic → c.pc ≠ .openPrivate → c.pc.status = none → c.privQid.isSome
  asks : ∀ answered, c.pc = .sendRequest answered →
    Asks (cfg.pid i) answered c.msg ∧ c.msg.type ≠ typeQuit

section Clients

variable {cfg : Config ι} {i : ι} {c : Client ι}

theorem exitClient_status (c : Client ι) (status : ℤ) :
    (exitClient c status).pc.status = some status := by
  unfold exitClient
  simp only
  split
  · rfl
  · split <;> rfl

theorem status_ne_of_some {pc pc' : ClientPc} {status : ℤ} (h : pc.status = some status)
    (h' : pc'.status = none) : pc ≠ pc' := by
  rintro rfl
  exact Option.some_ne_none _ (h.symm.trans h')

/-- A client may go on to a place where nothing is asked of it. -/
theorem ClientInv.goOn (h : ClientInv cfg i c) {pc : ClientPc} (msg : Message)
    (stdin : List UInt8) (hopened : pc.status = none → c.privQid.isSome)
    (hasks : ∀ answered, pc = .sendRequest answered →
      Asks (cfg.pid i) answered msg ∧ msg.type ≠ typeQuit) :
    ClientInv cfg i { c with msg := msg, stdin := stdin, pc := pc } :=
  ⟨h.pub, h.priv, fun _ _ hstatus => hopened hstatus, hasks⟩

theorem ClientInv.closing (h : ClientInv cfg i c) {pc : ClientPc} (status : ℤ)
    (hpc : pc.status = some status) (msg : Message) :
    ClientInv cfg i { c with msg := msg, pc := pc } := by
  refine h.goOn msg c.stdin (fun hnone => ?_) fun answered heq => ?_
  · exact absurd (hpc.symm.trans hnone) (Option.some_ne_none _)
  · exact absurd heq (status_ne_of_some hpc rfl)

theorem ClientInv.exitClient (h : ClientInv cfg i c) (status : ℤ) :
    ClientInv cfg i (exitClient c status) :=
  h.closing status (exitClient_status c status) c.msg

theorem ClientInv.readSession (h : ClientInv cfg i c) (hopen : c.privQid.isSome)
    (resp : Message) : ClientInv cfg i (readSession cfg i c resp) := by
  have hnum : ∀ n, ClientInv cfg i { c with sessionNum := n } :=
    fun n => ⟨h.pub, h.priv, h.opened, h.asks⟩
  unfold Posix.readSession
  cases hscan : scanInt resp.content with
  | value n =>
    simp only
    split
    · exact (hnum n).exitClient (-1)
    · exact (hnum n).goOn _ c.stdin (fun _ => hopen) fun answered heq => nomatch heq
  | noMatch => exact h.exitClient (-1)
  | eof => exact h.exitClient (-1)

theorem ClientInv.readCommand (h : ClientInv cfg i c) (hpc : c.pc = .prompt) :
    ClientInv cfg i (readCommand (cfg.pid i) c) := by
  have hopen : c.privQid.isSome :=
    h.opened (by simp [hpc]) (by simp [hpc]) (by rw [hpc]; rfl)
  unfold Posix.readCommand
  cases hprompt : prompt (cfg.pid i) c.msg c.stdin with
  | again msg stdin =>
    exact h.goOn msg stdin (fun _ => hopen) fun answered heq => by simp [hpc] at heq
  | ask answered msg stdin =>
    refine h.goOn msg stdin (fun _ => hopen) fun answered' heq => ?_
    obtain rfl := ClientPc.sendRequest.inj heq
    exact ⟨prompt_asks hprompt, (prompt_stays hprompt).2⟩
  | quit stdin =>
    have hstdin : ClientInv cfg i { c with stdin := stdin } := ⟨h.pub, h.priv, h.opened, h.asks⟩
    exact hstdin.exitClient 0

/-- What a client sends is one of its messages. -/
theorem ClientInv.of_asks (h : ClientInv cfg i c) {msg : Message} {pc : ClientPc}
    (hpc : ClientPc.asks cfg i c = some (msg, pc)) : Asks (cfg.pid i) true msg := by
  unfold ClientPc.asks at hpc
  split at hpc
  · obtain ⟨rfl, -⟩ := Prod.mk.inj (Option.some.inj hpc)
    exact asks_register _ _
  · rename_i hsend
    obtain ⟨rfl, -⟩ := Prod.mk.inj (Option.some.inj hpc)
    exact (h.asks true hsend).1
  · exact absurd hpc (Option.some_ne_none _).symm

theorem ClientInv.of_tells (h : ClientInv cfg i c) {msg : Message} {pc : ClientPc}
    (hpc : ClientPc.tells cfg i c = some (msg, pc)) : Asks (cfg.pid i) false msg := by
  unfold ClientPc.tells at hpc
  split at hpc
  · rename_i hsend
    obtain ⟨rfl, -⟩ := Prod.mk.inj (Option.some.inj hpc)
    exact (h.asks false hsend).1
  · obtain ⟨rfl, -⟩ := Prod.mk.inj (Option.some.inj hpc)
    exact asks_quit _ _
  · exact absurd hpc (Option.some_ne_none _).symm

end Clients

/-! ### The invariant -/

/-- The server has not opened its queue. -/
structure Sys.Fresh (s : Sys ι) : Prop where
  link : s.link serverPath = none
  pub : ∀ i, (s.client i).pubQid = none
  queue : s.queue none = []
  log : s.accepted = s.dispatched
  count : s.data.clientCount = 0

/-- An `END` has been dispatched, or `SIGINT` has reached the server. -/
def Sys.Ended (s : Sys ι) : Prop :=
  (∃ m ∈ s.dispatched, m.type = typeEnd) ∨ s.interrupted = true

/-- What holds in every state. -/
structure SysInv (cfg : Config ι) (s : Sys ι) : Prop where
  fresh : s.pc = .start → s.Fresh
  fds : s.pc.Running → FdInv cfg s.fds s.data s.pc
  named : s.pc.Running → s.link serverPath = some none
  link_server : ∀ q, s.link serverPath = some q → q = none
  link_client : ∀ i q, s.link (clientPath (cfg.pid i)) = some q →
    ∃ j, q = some j ∧ cfg.pid j = cfg.pid i
  client : ∀ i, ClientInv cfg i (s.client i)
  pub : ∀ m ∈ s.queue none, FromClient cfg m
  register : ∀ msg, s.pc = .register msg → FromClient cfg msg ∧ msg.type = typeRegister
  /-- What has come into the public queue has been received or is still in it. -/
  log : s.link serverPath = some none → s.accepted = s.dispatched ++ s.queue none
  ended : s.data.active = false → s.Ended

section Steps

variable {cfg : Config ι} {s : Sys ι}

theorem sysInv_start [DecidableEq ι] : SysInv cfg cfg.start where
  fresh _ := ⟨rfl, fun _ => rfl, rfl, rfl, rfl⟩
  fds h := absurd rfl h.1
  named h := absurd rfl h.1
  link_server _ h := absurd h (Option.some_ne_none _).symm
  link_client _ _ h := absurd h (Option.some_ne_none _).symm
  client _ := ⟨fun _ h => absurd h (Option.some_ne_none _).symm,
    fun _ h => absurd h (Option.some_ne_none _).symm, fun h => absurd rfl h,
    fun _ h => nomatch h⟩
  pub _ h := absurd h List.not_mem_nil
  register _ h := nomatch h
  log _ := rfl
  ended h := absurd h Bool.true_eq_false.mp

theorem ServerPc.Running.status_ne {pc : ServerPc} {status : ℤ} (h : pc.Running) :
    pc.status ≠ some status := fun hpc => Option.some_ne_none _ (hpc.symm.trans h.2)

/-! #### Steps of the server -/

theorem SysInv.create [DecidableEq ι] (h : SysInv cfg s) (hpc : s.pc = .start) {fd : ℤ}
    {q : Option ι} (hq : s.link serverPath = some q ∨ s.link serverPath = none ∧ q = none) :
    SysInv cfg (((s.setFd fd (some q)).setLink serverPath (some q)).goOn
      ({ s.data with queueDesc := fd }, .top)) := by
  have hfresh := h.fresh hpc
  obtain rfl : q = none := by
    rcases hq with hq | ⟨-, hq⟩
    · exact h.link_server q hq
    · exact hq
  have hlink : Function.update s.link serverPath (some none) serverPath = some none :=
    Function.update_self ..
  exact { h with
    fresh := fun hstart => nomatch hstart
    fds := fun _ => fdInv_create hfresh.count (Function.update_self ..)
    named := fun _ => hlink
    link_server := fun q hq => (Option.some.inj (hlink.symm.trans hq)).symm
    link_client := fun i q hq =>
      h.link_client i q ((Function.update_of_ne (serverPath_ne (cfg.pid i)).symm ..).symm.trans hq)
    register := fun msg hregister => nomatch hregister
    log := fun _ => by
      have hqueue := hfresh.queue
      show s.accepted = s.dispatched ++ s.queue none
      rw [hqueue, List.append_nil, hfresh.log] }

/-- The server leaves its loop, or is past `exit` already. -/
theorem SysInv.exited (h : SysInv cfg s) {pc : ServerPc} {status : ℤ}
    (hpc : pc.status = some status) (fds : ℤ → Option (Option ι)) :
    SysInv cfg { s with fds := fds, pc := pc } :=
  { h with
    fresh := fun hstart => nomatch hpc.symm.trans (congrArg ServerPc.status hstart)
    fds := fun hrun => absurd hpc hrun.status_ne
    named := fun hrun => absurd hpc hrun.status_ne
    register := fun _ hregister => nomatch hpc.symm.trans (congrArg ServerPc.status hregister) }

/-- The server goes on with nothing changed but its program counter. -/
theorem SysInv.goOn (h : SysInv cfg s) (hrun : s.pc.Running) {pc : ServerPc}
    (hfds : FdInv cfg s.fds s.data pc) (hstart : pc ≠ .start)
    (hregister : ∀ msg, pc ≠ .register msg) :
    SysInv cfg { s with pc := pc } :=
  { h with
    fresh := fun hpc => absurd hpc hstart
    fds := fun _ => hfds
    named := fun _ => h.named hrun
    register := fun msg hpc => absurd hpc (hregister msg) }

theorem SysInv.receive [DecidableEq ι] (h : SysInv cfg s) (hpc : s.pc = .receive) {q : Option ι}
    {m : Message} {ms : List Message} (hfd : s.fds s.data.queueDesc = some q)
    (hq : s.queue q = m :: ms) {server : ℤ} {p : ServerData × ServerPc}
    (hp : Dispatched server s.data m p) :
    SysInv cfg { (s.leave q ms).goOn p with dispatched := s.dispatched ++ [m] } := by
  have hrun : s.pc.Running := .of_eq hpc ServerPc.noConfusion rfl
  have hfds := h.fds hrun
  obtain rfl := hfds.public_eq hfd
  have hqueue : Function.update s.queue none ms none = ms := Function.update_self ..
  exact { h with
    fresh := fun hstart => absurd hstart hp.running.1
    fds := fun _ => hp.fdInv (hpc ▸ hfds)
    named := fun _ => h.named hrun
    pub := fun m' hm' => by
      refine h.pub m' ?_
      rw [hq]
      exact List.mem_cons_of_mem m (hqueue ▸ hm')
    register := fun msg hregister => by
      obtain ⟨rfl, htype⟩ := hp.register_eq hregister
      exact ⟨h.pub m (by simp [hq]), htype⟩
    log := fun hlink => by
      -- what has been taken out of the queue is what is dispatched
      have hlog := h.log hlink
      show s.accepted = (s.dispatched ++ [m]) ++ Function.update s.queue none ms none
      rw [hlog, hq, hqueue, List.append_assoc, List.singleton_append]
    ended := fun hactive => by
      rcases hp.active hactive with hactive | htype
      · rcases h.ended hactive with ⟨m', hm', htype⟩ | hint
        · exact .inl ⟨m', List.mem_append_left _ hm', htype⟩
        · exact .inr hint
      · exact .inl ⟨m, List.mem_append_right _ (by simp), htype⟩ }

theorem SysInv.openClient [DecidableEq ι] (h : SysInv cfg s) {fd : ℤ} {msg : Message}
    {q : Option ι} (hpc : s.pc = .register msg)
    (hlink : s.link (clientPath msg.senderPid) = some q) (hfd : 0 ≤ fd ∧ s.fds fd = none) :
    SysInv cfg ((s.setFd fd (some q)).goOn (registerOpened cfg.server s.data msg fd)) := by
  have hrun : s.pc.Running := .of_eq hpc ServerPc.noConfusion rfl
  -- the message is a client's, so its path leads to a client's queue
  obtain ⟨⟨j, answered, hasks⟩, -⟩ := h.register msg hpc
  rw [hasks.sender] at hlink
  obtain ⟨k, rfl, hk⟩ := h.link_client j q hlink
  have hfds := (hpc ▸ h.fds hrun : FdInv cfg s.fds s.data (.register msg)).openClient
    cfg.server (hasks.sender.trans hk.symm) hfd.1 hfd.2
  have hopened : (registerOpened cfg.server s.data msg fd).1.active = s.data.active ∧
      (registerOpened cfg.server s.data msg fd).2 ≠ .start ∧
      ∀ msg', (registerOpened cfg.server s.data msg fd).2 ≠ .register msg' := by
    unfold registerOpened
    split
    · simp
    · simp
  exact { h with
    fresh := fun hstart => absurd hstart hopened.2.1
    fds := fun _ => hfds
    named := fun _ => h.named hrun
    register := fun msg' hregister => absurd hregister (hopened.2.2 msg')
    ended := fun hactive => h.ended (hopened.1.symm.trans hactive) }

theorem sends_running {pc pc' : ServerPc} {qid : ℤ} {msg : Message}
    (h : pc.sends = some (qid, msg, pc')) :
    pc.Running ∧ pc'.Running ∧ (∀ m, pc' ≠ .register m) ∧ ∀ k, pc' ≠ .quit k := by
  cases pc with
  | refuse qid' msg' =>
    obtain ⟨-, -, rfl⟩ := by simpa [ServerPc.sends] using h
    exact ⟨⟨ServerPc.noConfusion, rfl⟩, ⟨ServerPc.noConfusion, rfl⟩,
      fun _ => ServerPc.noConfusion, fun _ => ServerPc.noConfusion⟩
  | login qid' msg' =>
    obtain ⟨-, -, rfl⟩ := by simpa [ServerPc.sends] using h
    exact ⟨⟨ServerPc.noConfusion, rfl⟩, ⟨ServerPc.noConfusion, rfl⟩,
      fun _ => ServerPc.noConfusion, fun _ => ServerPc.noConfusion⟩
  | respond qid' msg' =>
    obtain ⟨-, -, rfl⟩ := by simpa [ServerPc.sends] using h
    exact ⟨⟨ServerPc.noConfusion, rfl⟩, ⟨ServerPc.noConfusion, rfl⟩,
      fun _ => ServerPc.noConfusion, fun _ => ServerPc.noConfusion⟩
  | _ => exact absurd h (Option.some_ne_none _).symm

theorem closes_running {pc : ServerPc} {d d' : ServerData} {qid : ℤ}
    (h : pc.closes d = some (qid, d')) : pc.Running ∧ d'.active = d.active := by
  cases pc with
  | closeRefused qid' =>
    obtain ⟨-, rfl⟩ := by simpa [ServerPc.closes] using h
    exact ⟨⟨ServerPc.noConfusion, rfl⟩, rfl⟩
  | quit i =>
    obtain ⟨-, rfl⟩ := by simpa [ServerPc.closes] using h
    exact ⟨⟨ServerPc.noConfusion, rfl⟩, rfl⟩
  | _ => exact absurd h (Option.some_ne_none _).symm

theorem SysInv.send [DecidableEq ι] (h : SysInv cfg s) {qid : ℤ} {msg : Message} {pc : ServerPc}
    {q : Option ι} (hpc : s.pc.sends = some (qid, msg, pc)) (hfd : s.fds qid = some q) :
    SysInv cfg { s.enqueue q msg with pc := pc } := by
  obtain ⟨hrun, hrun', hregister, -⟩ := sends_running hpc
  obtain ⟨j, hj⟩ := (h.fds hrun).of_sends hpc
  obtain rfl : q = some j := Option.some.inj (hfd.symm.trans hj)
  have hqueue : Function.update s.queue (some j) (s.queue (some j) ++ [msg]) none = s.queue none :=
    Function.update_of_ne (Option.some_ne_none j).symm ..
  have hgoOn := h.goOn hrun ((h.fds hrun).send hpc) hrun'.1 hregister
  exact { hgoOn with
    fresh := fun hpc => absurd hpc hrun'.1
    pub := fun m hm => h.pub m (hqueue ▸ hm)
    log := fun hlink => (h.log hlink).trans (congrArg _ hqueue.symm) }

theorem SysInv.close [DecidableEq ι] (h : SysInv cfg s) {qid : ℤ} {d : ServerData}
    (hpc : s.pc.closes s.data = some (qid, d)) :
    SysInv cfg ((s.setFd qid none).goOn (d, .top)) := by
  obtain ⟨hrun, hactive⟩ := closes_running hpc
  exact { h with
    fresh := fun hstart => nomatch hstart
    fds := fun _ => (h.fds hrun).close hpc
    named := fun _ => h.named hrun
    register := fun _ hregister => nomatch hregister
    ended := fun hfalse => h.ended (hactive.symm.trans hfalse) }

theorem SysInv.unlink [DecidableEq ι] (h : SysInv cfg s) (status : ℤ) :
    SysInv cfg { s.setLink serverPath none with pc := .gone status } := by
  have hgone : SysInv cfg { s with fds := s.fds, pc := .gone status } := h.exited rfl s.fds
  have hlink : Function.update s.link serverPath none serverPath = none := Function.update_self ..
  exact { hgone with
    fresh := fun hstart => nomatch hstart
    named := fun hrun => absurd rfl hrun.status_ne
    link_server := fun _ hq => absurd (hq.symm.trans hlink) (Option.some_ne_none _)
    link_client := fun i q hq =>
      h.link_client i q ((Function.update_of_ne (serverPath_ne (cfg.pid i)).symm ..).symm.trans hq)
    log := fun hq => absurd (hq.symm.trans hlink) (Option.some_ne_none _) }

theorem SysInv.interruptServer (h : SysInv cfg s) :
    SysInv cfg { s with
      data := { s.data with active := false }
      pc := exit s.data 2
      interrupted := true } :=
  { h.exited (exit_status s.data 2) s.fds with
    fresh := fun hstart =>
      nomatch (exit_status s.data 2).symm.trans (congrArg ServerPc.status hstart)
    fds := fun hrun => absurd (exit_status s.data 2) hrun.status_ne
    ended := fun _ => .inr rfl }

theorem SysInv.serverDoes [DecidableEq ι] {s' : Sys ι} (h : SysInv cfg s)
    (hdoes : ServerDoes cfg s s') : SysInv cfg s' := by
  cases hdoes with
  | create fd q hpc hfd hq => exact h.create hpc hq
  | wait hpc =>
    have hrun : s.pc.Running := .of_eq hpc ServerPc.noConfusion rfl
    exact h.goOn hrun ((h.fds hrun).move rfl rfl rfl (.inl rfl) (by simp) (by simp))
      ServerPc.noConfusion fun _ => ServerPc.noConfusion
  | finish q hpc hactive hfd hempty => exact h.exited (exit_status s.data 0) s.fds
  | receive clock q m ms hpc hfd hq =>
    have hrun : s.pc.Running := .of_eq hpc ServerPc.noConfusion rfl
    have hfds := h.fds hrun
    exact h.receive hpc hfd hq (hfds.dispatched cfg.server clock m)
  | openClient fd msg q hpc hlink hfd => exact h.openClient hpc hlink hfd
  | send qid msg pc q hpc hfd hroom => exact h.send hpc hfd
  | close qid d q hpc hfd => exact h.close hpc
  | missing msg hpc hlink => exact h.exited (exit_status s.data (-1)) s.fds
  | badPublic hpc hfd => exact h.exited (exit_status s.data (-1)) s.fds
  | badSend qid msg pc hpc hfd => exact h.exited (exit_status s.data (-1)) s.fds
  | badClose qid d hpc hfd => exact h.exited (exit_status s.data (-1)) s.fds
  | closing status fd pc hpc hpc' => exact h.exited hpc' _
  | unlink status hpc => exact h.unlink status

/-! #### Steps of a client -/

/-- A client changes what is its own. -/
theorem SysInv.setClient [DecidableEq ι] {i : ι} {c : Client ι} (h : SysInv cfg s)
    (hc : ClientInv cfg i c) (hpub : s.pc = .start → c.pubQid = none) :
    SysInv cfg (s.setClient i c) :=
  { h with
    fresh := fun hpc =>
      { h.fresh hpc with
        pub := fun j => by
          show (Function.update s.client i c j).pubQid = none
          by_cases hj : j = i
          · subst hj
            rw [Function.update_self]
            exact hpub hpc
          · rw [Function.update_of_ne hj]
            exact (h.fresh hpc).pub j }
    client := fun j => by
      show ClientInv cfg j (Function.update s.client i c j)
      by_cases hj : j = i
      · subst hj
        rwa [Function.update_self]
      · rw [Function.update_of_ne hj]
        exact h.client j }

/-- A client changes what is its own, and keeps what it has of the public queue. -/
theorem SysInv.setClient_same [DecidableEq ι] {i : ι} {c : Client ι} (h : SysInv cfg s)
    (hc : ClientInv cfg i c) (hpub : c.pubQid = (s.client i).pubQid) :
    SysInv cfg (s.setClient i c) :=
  h.setClient hc fun hpc => hpub.trans ((h.fresh hpc).pub i)

/-- A client makes or removes the name of its private queue. -/
theorem SysInv.setLink [DecidableEq ι] (h : SysInv cfg s) {i : ι} {o : Option (Option ι)}
    (ho : ∀ q, o = some q → ∃ j, q = some j ∧ cfg.pid j = cfg.pid i) :
    SysInv cfg (s.setLink (clientPath (cfg.pid i)) o) := by
  have hserver : Function.update s.link (clientPath (cfg.pid i)) o serverPath =
      s.link serverPath := Function.update_of_ne (serverPath_ne _) ..
  exact { h with
    fresh := fun hstart => { h.fresh hstart with link := hserver.trans (h.fresh hstart).link }
    named := fun hrun => hserver.trans (h.named hrun)
    link_server := fun q hq => h.link_server q (hserver.symm.trans hq)
    link_client := fun j q hq => by
      -- clients with the same pid have the same path
      by_cases hpid : cfg.pid j = cfg.pid i
      · have hupd : Function.update s.link (clientPath (cfg.pid i)) o
            (clientPath (cfg.pid j)) = o := by rw [hpid, Function.update_self]
        rw [hpid]
        exact ho q (hupd.symm.trans hq)
      · have hne : clientPath (cfg.pid j) ≠ clientPath (cfg.pid i) :=
          fun heq => hpid (clientPath_injective heq)
        exact h.link_client j q ((Function.update_of_ne hne ..).symm.trans hq)
    log := fun hq => h.log (hserver.symm.trans hq) }

theorem SysInv.openPrivate [DecidableEq ι] (h : SysInv cfg s) {i : ι} {q : Option ι}
    (hlink : s.link (clientPath (cfg.pid i)) = some q ∨
      s.link (clientPath (cfg.pid i)) = none ∧ q = some i) :
    SysInv cfg ((s.setLink (clientPath (cfg.pid i)) (some q)).setClient i
      { s.client i with privQid := some q, pc := .sendRegister }) := by
  have howner : ∃ j, q = some j ∧ cfg.pid j = cfg.pid i := by
    rcases hlink with hlink | ⟨-, rfl⟩
    · exact h.link_client i q hlink
    · exact ⟨i, rfl, rfl⟩
  have howner' : ∀ q', some q = some q' → ∃ j, q' = some j ∧ cfg.pid j = cfg.pid i :=
    fun q' hq' => Option.some.inj hq' ▸ howner
  have hc := h.client i
  exact (h.setLink howner').setClient_same
    ⟨hc.pub, howner', fun _ _ _ => rfl, fun _ heq => nomatch heq⟩ rfl

/-- A client sends to the public queue. -/
theorem SysInv.clientPut [DecidableEq ι] (h : SysInv cfg s) {i : ι} {q : Option ι}
    {msg : Message} {answered : Bool} {pc : ClientPc}
    (hmsg : Asks (cfg.pid i) answered msg) (hpub : (s.client i).pubQid = some q)
    (hc : ClientInv cfg i { s.client i with msg := msg, pc := pc }) :
    SysInv cfg (s.clientPut i q msg pc) := by
  obtain rfl : q = none := (h.client i).pub q hpub
  have hstart : s.pc ≠ .start := fun hpc =>
    Option.some_ne_none _ (hpub.symm.trans ((h.fresh hpc).pub i))
  have hset := h.setClient hc fun hpc => absurd hpc hstart
  have hqueue : Function.update s.queue none (s.queue none ++ [msg]) none = s.queue none ++ [msg] :=
    Function.update_self ..
  exact { hset with
    fresh := fun hpc => absurd hpc hstart
    pub := fun m hm => by
      have hm' : m ∈ s.queue none ++ [msg] := hqueue ▸ hm
      rcases List.mem_append.mp hm' with hm' | hm'
      · exact h.pub m hm'
      · obtain rfl := List.mem_singleton.mp hm'
        exact ⟨i, answered, hmsg⟩
    log := fun hlink => by
      have hlink' : s.link serverPath = some none := hlink
      show (if s.link serverPath = some none then s.accepted ++ [msg] else s.accepted) =
        s.dispatched ++ Function.update s.queue none (s.queue none ++ [msg]) none
      rw [if_pos hlink', h.log hlink', hqueue, List.append_assoc] }

/-- A client takes a message out of a private queue. -/
theorem SysInv.clientTake [DecidableEq ι] (h : SysInv cfg s) {i : ι} {q : Option ι}
    {ms : List Message} {c : Client ι} (hpriv : (s.client i).privQid = some q)
    (hc : ClientInv cfg i c) (hpub : c.pubQid = (s.client i).pubQid) :
    SysInv cfg ((s.leave q ms).setClient i c) := by
  obtain ⟨j, rfl, -⟩ := (h.client i).priv q hpriv
  have hqueue : Function.update s.queue (some j) ms none = s.queue none :=
    Function.update_of_ne (Option.some_ne_none j).symm ..
  have hleave : SysInv cfg (s.leave (some j) ms) := { h with
    fresh := fun hpc => { h.fresh hpc with queue := hqueue.trans (h.fresh hpc).queue }
    pub := fun m hm => h.pub m (hqueue ▸ hm)
    log := fun hlink => (h.log hlink).trans (congrArg _ hqueue.symm) }
  exact hleave.setClient_same hc hpub

theorem asks_pc {i : ι} {c : Client ι} {msg : Message} {pc : ClientPc}
    (h : ClientPc.asks cfg i c = some (msg, pc)) :
    (pc = .receiveSession ∨ pc = .receiveResponse) ∧
      c.pc ≠ .openPublic ∧ c.pc ≠ .openPrivate ∧ c.pc.status = none := by
  unfold ClientPc.asks at h
  split at h
  · rename_i hpc
    rw [hpc]
    exact ⟨.inl (Prod.mk.inj (Option.some.inj h)).2.symm, ClientPc.noConfusion,
      ClientPc.noConfusion, rfl⟩
  · rename_i hpc
    rw [hpc]
    exact ⟨.inr (Prod.mk.inj (Option.some.inj h)).2.symm, ClientPc.noConfusion,
      ClientPc.noConfusion, rfl⟩
  · exact absurd h (Option.some_ne_none _).symm

theorem tells_pc {i : ι} {c : Client ι} {msg : Message} {pc : ClientPc}
    (h : ClientPc.tells cfg i c = some (msg, pc)) :
    (c.pc = .sendRequest false ∧ pc = .prompt) ∨
      ∃ status, c.pc = .sendQuit status ∧ pc = .closePublic status := by
  unfold ClientPc.tells at h
  split at h
  · rename_i hpc
    exact .inl ⟨hpc, (Prod.mk.inj (Option.some.inj h)).2.symm⟩
  · rename_i status hpc
    exact .inr ⟨status, hpc, (Prod.mk.inj (Option.some.inj h)).2.symm⟩
  · exact absurd h (Option.some_ne_none _).symm

theorem SysInv.clientDoes [DecidableEq ι] {i : ι} {s' : Sys ι} (h : SysInv cfg s)
    (hdoes : ClientDoes cfg i s s') : SysInv cfg s' := by
  have hc := h.client i
  cases hdoes with
  | noServer hpc hlink => exact h.setClient_same (hc.exitClient (-1)) rfl
  | openPublic q hpc hlink =>
    obtain rfl := h.link_server q hlink
    refine h.setClient ⟨fun q hq => (Option.some.inj hq).symm, hc.priv,
      fun _ hne _ => absurd rfl hne, fun _ heq => nomatch heq⟩ fun hstart => ?_
    exact absurd (hlink.symm.trans (h.fresh hstart).link) (Option.some_ne_none _)
  | openPrivate q hpc hlink => exact h.openPrivate hlink
  | ask msg pc q hpc hpub hroom =>
    obtain ⟨hpc', hpub', hpriv', hstatus⟩ := asks_pc hpc
    have hgo : ClientInv cfg i { s.client i with msg := msg, pc := pc } := by
      refine hc.goOn msg (s.client i).stdin (fun _ => hc.opened hpub' hpriv' hstatus) ?_
      rintro answered rfl
      rcases hpc' with heq | heq
      · cases heq
      · cases heq
    have hput := h.clientPut (hc.of_asks hpc) hpub hgo
    exact { hput with
      fresh := fun hstart => { hput.fresh hstart with }
      ended := fun hactive => hput.ended hactive }
  | tell msg pc q hpc hpub hroom =>
    refine h.clientPut (hc.of_tells hpc) hpub ?_
    rcases tells_pc hpc with ⟨hpc', rfl⟩ | ⟨status, hpc', rfl⟩
    · refine hc.goOn msg (s.client i).stdin (fun _ => ?_) fun answered heq => nomatch heq
      exact hc.opened (by simp [hpc']) (by simp [hpc']) (by rw [hpc']; rfl)
    · exact hc.closing status rfl msg
  | session q m ms hpc hpriv hq =>
    have hopen : (s.client i).privQid.isSome := by simp [hpriv]
    refine h.clientTake hpriv (hc.readSession hopen m) ?_
    unfold readSession
    split
    · split
      · rfl
      · rfl
    · rfl
  | prompt hpc =>
    refine h.setClient_same (hc.readCommand hpc) ?_
    unfold readCommand
    split
    · rfl
    · rfl
    · rfl
  | response q m ms hpc hpriv hq =>
    have hopen : (s.client i).privQid.isSome := by simp [hpriv]
    exact h.clientTake hpriv
      (hc.goOn m (s.client i).stdin (fun _ => hopen) fun answered heq => nomatch heq) rfl
  | closing status pc hpc hpc' =>
    exact h.setClient_same (hc.closing status hpc' (s.client i).msg) rfl
  | unlink status hpc =>
    have hgone : ClientInv cfg i { s.client i with pc := .gone status } :=
      hc.closing status rfl (s.client i).msg
    exact (h.setLink fun q hq => absurd hq (Option.some_ne_none _).symm).setClient_same hgone rfl

/-- **Every step keeps the invariant.** -/
theorem sysInv_step [DecidableEq ι] {e : Event ι} {s' : Sys ι} (h : SysInv cfg s)
    (hstep : (system cfg).step e s = some s') : SysInv cfg s' := by
  cases does hstep with
  | server fd clock hdoes => exact h.serverDoes hdoes
  | interruptServer hpc => exact h.interruptServer
  | client i hdoes => exact h.clientDoes hdoes
  | interruptClient i hpc => exact h.setClient_same ((h.client i).exitClient 2) rfl

end Steps

end Posix
end MsgQueue
end OpSys
