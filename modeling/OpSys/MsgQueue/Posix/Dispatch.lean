import Mathlib.Data.List.Perm.Basic
import OpSys.Lib.Machine
import OpSys.MsgQueue.Posix.Server

/-!
# Histories of messages at the server

The server dispatches one message after another, and its queue calls succeed.  What
it should keep is a list of registrations: an accepted `REGISTER` adds one at the
end, and a `QUIT` takes away the first one of its sender.

## Main definitions

* `Desk`, `serverCall`, `dispatcher` — the server with the descriptors it has open
  and what it has sent, a successful call, and the messages it dispatches.
* `registry` — the list of registrations.
* `Faithful` — the server's array agrees with the list.

## Main results

* `dispatch_register`, `dispatch_quit`, `dispatch_other` — what a message does.
* `faithful_run` — the array agrees with the list after every history.

## References

`lab5_message_queues/POSIX/server.c`.
-/

namespace OpSys
namespace MsgQueue
namespace Posix

open Stdio

/-- A message, with the descriptor that `mq_open` would return and the time. -/
structure Request where
  msg : Message
  qid : ℤ
  clock : List UInt8

/-- The response to a `REGISTER`, and how many clients were registered before. -/
structure Login where
  answer : Message
  among : ℤ

/-- The server and its descriptors for client queues.  `opened`, `closed`, `sent` and
`lastLogin` record what has happened. -/
structure Desk where
  data : ServerData
  isOpen : List ℤ
  opened : List ℤ
  closed : List ℤ
  sent : List (ℤ × Message)
  lastLogin : ℤ → Option Login

namespace Desk

/-- A successful `mq_close`. -/
def close (s : Desk) (qid : ℤ) : Desk :=
  { s with isOpen := s.isOpen.erase qid, closed := s.closed ++ [qid] }

/-- A successful `mq_send`. -/
def send (s : Desk) (qid : ℤ) (msg : Message) : Desk := { s with sent := s.sent ++ [(qid, msg)] }

/-- A successful `mq_send` of `handle_register`. -/
def logIn (s : Desk) (qid : ℤ) (msg : Message) (among : ℤ) : Desk :=
  { s.send qid msg with lastLogin := Function.update s.lastLogin qid (some ⟨msg, among⟩) }

/-- `mq_open` may return `qid`. -/
def Fresh (s : Desk) (qid : ℤ) : Prop := 0 ≤ qid ∧ qid ≠ s.data.queueDesc ∧ qid ∉ s.isOpen

instance (s : Desk) (qid : ℤ) : Decidable (s.Fresh qid) :=
  inferInstanceAs (Decidable (0 ≤ qid ∧ qid ≠ s.data.queueDesc ∧ qid ∉ s.isOpen))

end Desk

/-- The next system call of a handler, which succeeds; `none` if it cannot.  `qid` is
what `mq_open` returns. -/
def serverCall (server qid : ℤ) : ServerPc × Desk → Option (ServerPc × Desk)
  | (.register msg, s) =>
    if s.Fresh qid then
      some ((registerOpened server s.data msg qid).2, { s with
        data := (registerOpened server s.data msg qid).1
        isOpen := qid :: s.isOpen
        opened := s.opened ++ [qid] })
    else none
  | (.refuse q msg, s) =>
    if q ∈ s.isOpen then some (.closeRefused q, s.logIn q msg s.data.clientCount) else none
  | (.closeRefused q, s) => if q ∈ s.isOpen then some (.top, s.close q) else none
  | (.login q msg, s) =>
    if q ∈ s.isOpen then some (.top, s.logIn q msg (s.data.clientCount - 1)) else none
  | (.respond q msg, s) => if q ∈ s.isOpen then some (.top, s.send q msg) else none
  | (.quit i, s) =>
    if (s.data.clientsData i).2 ∈ s.isOpen then
      some (.top, { s.close (s.data.clientsData i).2 with data := quitClosed s.data i })
    else none
  | (pc, s) => some (pc, s)

/-- The server at the messages of a history.  A handler makes at most three calls. -/
def dispatcher (server : ℤ) : Machine Request Desk where
  step r s :=
    let (data, pc) := dispatchRequest server r.clock s.data r.msg
    (((serverCall server r.qid (pc, { s with data := data })).bind
      (serverCall server r.qid)).bind (serverCall server r.qid)).map Prod.snd

/-- The server before the first message. -/
def Desk.begin (queueDesc : ℤ) : Desk where
  data := ⟨true, fun _ => (0, 0), 0, queueDesc⟩
  isOpen := []
  opened := []
  closed := []
  sent := []
  lastLogin := fun _ => none

/-- The registrations that the server should keep. -/
def registry (queueDesc : ℤ) : Machine Request (List (ℤ × ℤ)) where
  step r reg :=
    if r.msg.type = typeRegister then
      if 0 ≤ r.qid ∧ r.qid ≠ queueDesc ∧ r.qid ∉ reg.map Prod.snd then
        some (if (reg.length : ℤ) < maxClients then reg ++ [(r.msg.senderPid, r.qid)] else reg)
      else none
    else if r.msg.type = typeQuit then some (reg.eraseP fun e => e.1 = r.msg.senderPid)
    else some reg

/-! ### What a message does -/

/-- The array and the counter are in order, and the descriptors in it are the open ones. -/
structure DeskInv (queueDesc : ℤ) (s : Desk) : Prop where
  queueDesc_eq : s.data.queueDesc = queueDesc
  count_nonneg : 0 ≤ s.data.clientCount
  count_le : s.data.clientCount ≤ maxClients
  open_perm : s.isOpen.Perm ((entries s.data).map Prod.snd)
  open_nodup : s.isOpen.Nodup
  open_nonneg : ∀ q ∈ s.isOpen, 0 ≤ q
  balance : ∀ q, s.opened.count q = s.closed.count q + s.isOpen.count q
  numbered : ∀ e ∈ entries s.data, ∃ l, s.lastLogin e.2 = some l ∧
    scanInt l.answer.content = .value l.among

section Step

variable {server queueDesc : ℤ} {r : Request} {s : Desk}

/-- The server after it has refused a client. -/
def Desk.refused (server : ℤ) (s : Desk) (r : Request) : Desk :=
  ({ s with opened := s.opened ++ [r.qid], closed := s.closed ++ [r.qid] }).logIn r.qid
    (registerResponse server r.msg (-1)) s.data.clientCount

/-- The server after it has accepted a client. -/
def Desk.accepted (server : ℤ) (s : Desk) (r : Request) : Desk :=
  ({ s with
      data := (registerOpened server s.data r.msg r.qid).1
      isOpen := r.qid :: s.isOpen
      opened := s.opened ++ [r.qid] }).logIn r.qid
    (registerResponse server r.msg s.data.clientCount) s.data.clientCount

/-- A client is accepted as long as there is room. -/
theorem dispatch_register (htype : r.msg.type = typeRegister) :
    (dispatcher server).step r s =
      if s.Fresh r.qid then
        some (if s.data.clientCount > maxClients - 1 then s.refused server r
          else s.accepted server r)
      else none := by
  have hd : dispatchRequest server r.clock s.data r.msg = (s.data, .register r.msg) := by
    rw [dispatchRequest, if_pos htype]
  simp only [dispatcher, hd, serverCall]
  split
  · simp only [Option.bind_some, registerOpened]
    split
    · simp [serverCall, Desk.refused, Desk.logIn, Desk.send, Desk.close]
    · simp [serverCall, Desk.accepted, registerOpened, *]
  · rfl

/-- The server after the client at `i` has left. -/
def Desk.left (s : Desk) (i : ℕ) : Desk :=
  { s.close (s.data.clientsData i).2 with data := quitClosed s.data i }

theorem mem_isOpen_of_find (hinv : DeskInv queueDesc s) {pid : ℤ}
    (h : (s.data.find pid : ℤ) < s.data.clientCount) :
    (s.data.clientsData (s.data.find pid)).2 ∈ s.isOpen := by
  rw [hinv.open_perm.mem_iff]
  refine List.mem_map_of_mem (List.mem_of_getElem? (i := s.data.find pid) ?_)
  rw [getElem?_entries, if_pos (by omega)]

/-- A client that is found is taken away. -/
theorem dispatch_quit (hinv : DeskInv queueDesc s) (htype : r.msg.type = typeQuit) :
    (dispatcher server).step r s =
      some (if (s.data.find r.msg.senderPid : ℤ) < s.data.clientCount then
        s.left (s.data.find r.msg.senderPid) else s) := by
  -- the search runs to `client_count` at the most
  have hle := find_le hinv.count_nonneg r.msg.senderPid
  by_cases hfound : (s.data.find r.msg.senderPid : ℤ) < s.data.clientCount
  · have hd : dispatchRequest server r.clock s.data r.msg =
        (s.data, .quit (s.data.find r.msg.senderPid)) := by
      rw [dispatchRequest, htype]
      simp [typeRegister, typeMirror, typeTime, typeEnd, typeQuit, hfound.ne]
    -- whoever is found is registered, so the descriptor to close is open
    simp only [dispatcher, hd, serverCall, if_pos (mem_isOpen_of_find hinv hfound),
      Option.bind_some, Option.map_some, if_pos hfound]
    rfl
  · have hd : dispatchRequest server r.clock s.data r.msg = (s.data, .top) := by
      rw [dispatchRequest, htype]
      have heq : (s.data.find r.msg.senderPid : ℤ) = s.data.clientCount := by omega
      simp [typeRegister, typeMirror, typeTime, typeEnd, typeQuit, heq]
    simp only [dispatcher, hd, serverCall, Option.bind_some, Option.map_some, if_neg hfound]

/-- The registrations and the descriptors are as they were. -/
structure Desk.SameClients (s s' : Desk) : Prop where
  clientsData : s'.data.clientsData = s.data.clientsData
  clientCount : s'.data.clientCount = s.data.clientCount
  queueDesc : s'.data.queueDesc = s.data.queueDesc
  isOpen : s'.isOpen = s.isOpen
  opened : s'.opened = s.opened
  closed : s'.closed = s.closed
  lastLogin : s'.lastLogin = s.lastLogin

theorem Desk.SameClients.refl (s : Desk) : s.SameClients s := ⟨rfl, rfl, rfl, rfl, rfl, rfl, rfl⟩

theorem Desk.SameClients.entries_eq {s' : Desk} (h : s.SameClients s') :
    entries s'.data = entries s.data := by
  rw [entries, entries, h.clientsData, h.clientCount]

theorem find_of_getQid {d : ServerData} {pid : ℤ} (h : getQid d pid ≠ -1) :
    (d.find pid : ℤ) < d.clientCount ∧ getQid d pid = (d.clientsData (d.find pid)).2 := by
  unfold getQid at h ⊢
  split at h
  · rename_i hlt
    exact ⟨hlt, if_pos hlt⟩
  · exact absurd rfl h

theorem dispatch_respond (hinv : DeskInv queueDesc s) (msg : Message)
    (hd : dispatchRequest server r.clock s.data r.msg = if getQid s.data r.msg.senderPid = -1
      then (s.data, .top) else (s.data, .respond (getQid s.data r.msg.senderPid) msg)) :
    ∃ s', (dispatcher server).step r s = some s' ∧ s.SameClients s' := by
  by_cases hqid : getQid s.data r.msg.senderPid = -1
  · rw [if_pos hqid] at hd
    refine ⟨s, ?_, .refl s⟩
    simp only [dispatcher, hd, serverCall, Option.bind_some, Option.map_some]
  · rw [if_neg hqid] at hd
    obtain ⟨hlt, heq⟩ := find_of_getQid hqid
    have hopen : getQid s.data r.msg.senderPid ∈ s.isOpen := heq ▸ mem_isOpen_of_find hinv hlt
    refine ⟨s.send (getQid s.data r.msg.senderPid) msg, ?_, ⟨rfl, rfl, rfl, rfl, rfl, rfl, rfl⟩⟩
    simp only [dispatcher, hd, serverCall, if_pos hopen, Option.bind_some, Option.map_some]

/-- The other messages leave the clients alone. -/
theorem dispatch_other (hinv : DeskInv queueDesc s) (hreg : r.msg.type ≠ typeRegister)
    (hquit : r.msg.type ≠ typeQuit) :
    ∃ s', (dispatcher server).step r s = some s' ∧ s.SameClients s' := by
  -- responses and `END` leave the clients alone
  by_cases hmirror : r.msg.type = typeMirror
  · refine dispatch_respond hinv
      { createMsg server r.msg with content := mirrorContent r.msg.content } ?_
    rw [dispatchRequest, if_neg hreg, if_pos hmirror]
  · by_cases htime : r.msg.type = typeTime
    · refine dispatch_respond hinv
        { createMsg server r.msg with content := overwrite r.clock r.msg.content } ?_
      rw [dispatchRequest, if_neg hreg, if_neg hmirror, if_pos htime]
    · by_cases hend : r.msg.type = typeEnd
      · have hd : dispatchRequest server r.clock s.data r.msg =
            ({ s.data with active := false }, .top) := by
          rw [dispatchRequest, if_neg hreg, if_neg hmirror, if_neg htime, if_pos hend]
        refine ⟨{ s with data := { s.data with active := false } }, ?_,
          ⟨rfl, rfl, rfl, rfl, rfl, rfl, rfl⟩⟩
        simp only [dispatcher, hd, serverCall, Option.bind_some, Option.map_some]
      · have hd : dispatchRequest server r.clock s.data r.msg = (s.data, .top) := by
          rw [dispatchRequest, if_neg hreg, if_neg hmirror, if_neg htime, if_neg hend,
            if_neg hquit]
        refine ⟨s, ?_, .refl s⟩
        simp only [dispatcher, hd, serverCall, Option.bind_some, Option.map_some]

end Step

/-! ### What every message keeps -/

section Invariant

variable {server queueDesc : ℤ} {r : Request} {s s' : Desk}

theorem DeskInv.of_same (h : DeskInv queueDesc s) (hsame : s.SameClients s') :
    DeskInv queueDesc s' where
  queueDesc_eq := hsame.queueDesc.trans h.queueDesc_eq
  count_nonneg := by
    rw [hsame.clientCount]
    exact h.count_nonneg
  count_le := by
    rw [hsame.clientCount]
    exact h.count_le
  open_perm := by
    rw [hsame.isOpen, hsame.entries_eq]
    exact h.open_perm
  open_nodup := by
    rw [hsame.isOpen]
    exact h.open_nodup
  open_nonneg := by
    rw [hsame.isOpen]
    exact h.open_nonneg
  balance := by
    rw [hsame.isOpen, hsame.opened, hsame.closed]
    exact h.balance
  numbered := by
    rw [hsame.entries_eq, hsame.lastLogin]
    exact h.numbered

theorem DeskInv.snd_mem (h : DeskInv queueDesc s) {e : ℤ × ℤ} (he : e ∈ entries s.data) :
    e.2 ∈ s.isOpen :=
  h.open_perm.mem_iff.mpr (List.mem_map_of_mem he)

theorem DeskInv.numbered_update (h : DeskInv queueDesc s) {qid : ℤ} (hqid : qid ∉ s.isOpen)
    (l : Option Login) : ∀ e ∈ entries s.data, ∃ l',
      Function.update s.lastLogin qid l e.2 = some l' ∧
        scanInt l'.answer.content = .value l'.among := by
  intro e he
  obtain ⟨l', hl', hscan⟩ := h.numbered e he
  have hne : e.2 ≠ qid := fun heq => hqid (heq ▸ h.snd_mem he)
  exact ⟨l', by rw [Function.update_of_ne hne, hl'], hscan⟩

theorem DeskInv.refused (h : DeskInv queueDesc s) (hfresh : s.Fresh r.qid) :
    DeskInv queueDesc (s.refused server r) where
  queueDesc_eq := h.queueDesc_eq
  count_nonneg := h.count_nonneg
  count_le := h.count_le
  open_perm := h.open_perm
  open_nodup := h.open_nodup
  open_nonneg := h.open_nonneg
  balance q := by
    have := h.balance q
    simp only [Desk.refused, Desk.logIn, Desk.send, List.count_append]
    omega
  numbered := h.numbered_update hfresh.2.2 _

theorem entries_accepted (h : DeskInv queueDesc s) (hroom : ¬s.data.clientCount > maxClients - 1) :
    entries (s.accepted server r).data = entries s.data ++ [(r.msg.senderPid, r.qid)] := by
  have hdata : (s.accepted server r).data = (registerOpened server s.data r.msg r.qid).1 := rfl
  rw [hdata, registerOpened, if_neg hroom]
  exact entries_accept h.count_nonneg _

theorem clientCount_accepted (hroom : ¬s.data.clientCount > maxClients - 1) :
    (s.accepted server r).data.clientCount = s.data.clientCount + 1 := by
  have hdata : (s.accepted server r).data = (registerOpened server s.data r.msg r.qid).1 := rfl
  rw [hdata, registerOpened, if_neg hroom]

theorem DeskInv.accepted (h : DeskInv queueDesc s) (hfresh : s.Fresh r.qid)
    (hroom : ¬s.data.clientCount > maxClients - 1) :
    DeskInv queueDesc (s.accepted server r) where
  queueDesc_eq := by
    have hdata : (s.accepted server r).data = (registerOpened server s.data r.msg r.qid).1 := rfl
    rw [hdata, registerOpened, if_neg hroom]
    exact h.queueDesc_eq
  count_nonneg := by
    have := h.count_nonneg
    rw [clientCount_accepted hroom]
    omega
  count_le := by
    rw [clientCount_accepted hroom]
    omega
  open_perm := by
    rw [entries_accepted h hroom, List.map_append]
    exact (h.open_perm.cons r.qid).trans (List.perm_append_singleton _ _).symm
  open_nodup := List.nodup_cons.mpr ⟨hfresh.2.2, h.open_nodup⟩
  open_nonneg := List.forall_mem_cons.mpr ⟨hfresh.1, h.open_nonneg⟩
  -- what is opened is entered
  balance q := by
    have := h.balance q
    simp only [Desk.accepted, Desk.logIn, Desk.send, List.count_append, List.count_cons,
      List.count_nil]
    omega
  numbered := by
    -- the newest number of the new descriptor is that of its entry
    rw [entries_accepted h hroom]
    intro e he
    rcases List.mem_append.mp he with he | he
    · exact h.numbered_update hfresh.2.2 _ e he
    · obtain rfl := List.mem_singleton.mp he
      exact ⟨_, Function.update_self .., scanInt_overwrite _ _⟩

theorem DeskInv.left (h : DeskInv queueDesc s) {pid : ℤ}
    (hfound : (s.data.find pid : ℤ) < s.data.clientCount) :
    DeskInv queueDesc (s.left (s.data.find pid)) := by
  have hentries : entries (s.left (s.data.find pid)).data =
      (entries s.data).eraseIdx (s.data.find pid) := entries_quitClosed hfound
  have hlt : s.data.find pid < (entries s.data).length := by
    rw [length_entries]
    omega
  have hget : (entries s.data)[s.data.find pid] = s.data.clientsData (s.data.find pid) := by
    simp [entries]
  -- the open descriptors, that of the client that quits first
  have hperm : s.isOpen.Perm ((s.data.clientsData (s.data.find pid)).2 ::
      ((entries s.data).eraseIdx (s.data.find pid)).map Prod.snd) := by
    have h₁ := (List.getElem_cons_eraseIdx_perm hlt).map Prod.snd
    rw [hget, List.map_cons] at h₁
    exact h.open_perm.trans h₁.symm
  have hopen := mem_isOpen_of_find h hfound
  have hpos := length_entries s.data
  refine ⟨h.queueDesc_eq, ?_, ?_, ?_, h.open_nodup.erase _, ?_, ?_, ?_⟩
  · simp only [Desk.left, quitClosed]
    omega
  · have := h.count_le
    simp only [Desk.left, quitClosed]
    omega
  · rw [hentries]
    have h₁ := hperm.erase (s.data.clientsData (s.data.find pid)).2
    rwa [List.erase_cons_head] at h₁
  · exact fun q hq => h.open_nonneg q (List.mem_of_mem_erase hq)
  · intro q
    have hbal := h.balance q
    have hcount : 1 ≤ s.isOpen.count (s.data.clientsData (s.data.find pid)).2 :=
      List.one_le_count_iff.mpr hopen
    simp only [Desk.left, Desk.close, List.count_append, List.count_singleton, List.count_erase]
    -- the descriptor that is closed, or another one
    split
    · rename_i heq
      have heq' := eq_of_beq heq
      rw [← heq'] at hbal ⊢
      omega
    · omega
  · rw [hentries]
    exact fun e he => h.numbered e (List.mem_of_mem_eraseIdx he)

/-- Every message keeps the array and the counter in order. -/
theorem deskInv_step (h : DeskInv queueDesc s) (hstep : (dispatcher server).step r s = some s') :
    DeskInv queueDesc s' := by
  -- one case for each thing that `dispatch_request` can come to
  by_cases hreg : r.msg.type = typeRegister
  · rw [dispatch_register hreg] at hstep
    split at hstep
    · rename_i hfresh
      obtain rfl := Option.some.inj hstep
      split
      · exact h.refused hfresh
      · exact h.accepted hfresh ‹_›
    · exact absurd hstep (Option.some_ne_none _).symm
  · by_cases hquit : r.msg.type = typeQuit
    · rw [dispatch_quit h hquit] at hstep
      obtain rfl := Option.some.inj hstep
      split
      · exact h.left ‹_›
      · exact h
    · obtain ⟨s₁, hs₁, hsame⟩ : ∃ s₁, (dispatcher server).step r s = some s₁ ∧
          s.SameClients s₁ := dispatch_other h hreg hquit
      obtain rfl := Option.some.inj (hs₁.symm.trans hstep)
      exact h.of_same hsame

theorem deskInv_begin (queueDesc : ℤ) : DeskInv queueDesc (Desk.begin queueDesc) :=
  ⟨rfl, le_rfl, by simp [Desk.begin, maxClients], .nil, .nil, by simp [Desk.begin], fun _ => rfl,
    by simp [Desk.begin, entries]⟩

/-- The server keeps the registrations that it should. -/
theorem simulates_registry (server queueDesc : ℤ) :
    Machine.Simulates (registry queueDesc) (dispatcher server) (fun s => entries s.data)
      (DeskInv queueDesc) := by
  intro r s h
  simp only [registry]
  by_cases hreg : r.msg.type = typeRegister
  · -- the machine and the registry refuse the same descriptors
    have hfresh : s.Fresh r.qid ↔ 0 ≤ r.qid ∧ r.qid ≠ queueDesc ∧
        r.qid ∉ (entries s.data).map Prod.snd := by
      rw [Desk.Fresh, h.queueDesc_eq, h.open_perm.mem_iff]
    have hlen := length_entries s.data
    have hpos := h.count_nonneg
    rw [if_pos hreg, dispatch_register hreg]
    by_cases hf : s.Fresh r.qid
    · rw [if_pos hf, if_pos (hfresh.mp hf), Option.map_some]
      split
      · rename_i hroom
        rw [if_neg (by omega), entries_accepted h (by omega)]
      · rename_i hfull
        rw [if_pos (by omega)]
        rfl
    · rw [if_neg hf, if_neg (mt hfresh.mpr hf), Option.map_none]
  · rw [if_neg hreg]
    by_cases hquit : r.msg.type = typeQuit
    · rw [if_pos hquit, dispatch_quit h hquit, Option.map_some]
      -- a `QUIT` of nobody who is registered erases nothing
      split
      · rename_i hfound
        rw [← entries_quitClosed_find hfound]
        rfl
      · rename_i hfound
        rw [eraseP_of_not_found h.count_nonneg hfound]
    · obtain ⟨s₁, hs₁, hsame⟩ : ∃ s₁, (dispatcher server).step r s = some s₁ ∧
          s.SameClients s₁ := dispatch_other h hreg hquit
      rw [if_neg hquit, hs₁, Option.map_some, hsame.entries_eq]

end Invariant

/-! ### The server and its registry -/

/-- The server agrees with the registrations that it should keep. -/
structure Faithful (server : ℤ) (s : Desk) (reg : List (ℤ × ℤ)) : Prop where
  /-- The array holds the registrations, in their order. -/
  entries_eq : entries s.data = reg
  count_nonneg : 0 ≤ s.data.clientCount
  count_le : s.data.clientCount ≤ maxClients
  /-- A `REGISTER` is answered with -1 iff there is no room. -/
  answered : ∀ r s', r.msg.type = typeRegister → (dispatcher server).step r s = some s' →
    ∃ answer, s'.sent = s.sent ++ [(r.qid, answer)] ∧
      (scanInt answer.content = .value (-1) ↔ (reg.length : ℤ) = maxClients)
  /-- `get_qid` gives the descriptor of the first registration. -/
  getQid_eq : ∀ pid, getQid s.data pid = (reg.find? fun e => e.1 = pid).elim (-1) Prod.snd
  getQid_neg_iff : ∀ pid, getQid s.data pid = -1 ↔ ∀ e ∈ reg, e.1 ≠ pid
  /-- The open descriptors are those of the registrations. -/
  open_iff : ∀ q, q ∈ s.isOpen ↔ q ∈ reg.map Prod.snd
  nodup : (reg.map Prod.snd).Nodup
  /-- Every descriptor that was opened has been closed once or is registered. -/
  balance : ∀ q, s.opened.count q = s.closed.count q + (reg.map Prod.snd).count q
  /-- No queue call fails. -/
  dispatches : ∀ r, s.Fresh r.qid → ((dispatcher server).step r s).isSome

section Faithful

variable {server queueDesc : ℤ} {s : Desk}

theorem DeskInv.getQid_neg_iff (h : DeskInv queueDesc s) (pid : ℤ) :
    getQid s.data pid = -1 ↔ ∀ e ∈ entries s.data, e.1 ≠ pid := by
  have hiff := find_lt_iff h.count_nonneg pid
  by_cases hfound : (s.data.find pid : ℤ) < s.data.clientCount
  · have hnonneg := h.open_nonneg _ (mem_isOpen_of_find h hfound)
    obtain ⟨e, he, hpid⟩ := hiff.mp hfound
    rw [getQid, if_pos hfound]
    exact ⟨fun heq => by omega, fun hall => absurd hpid (hall e he)⟩
  · rw [getQid, if_neg hfound]
    exact ⟨fun _ e he hpid => hfound (hiff.mpr ⟨e, he, hpid⟩), fun _ => rfl⟩

theorem DeskInv.answered (h : DeskInv queueDesc s) {r : Request} {s' : Desk}
    (htype : r.msg.type = typeRegister) (hstep : (dispatcher server).step r s = some s') :
    ∃ answer, s'.sent = s.sent ++ [(r.qid, answer)] ∧
      (scanInt answer.content = .value (-1) ↔ ((entries s.data).length : ℤ) = maxClients) := by
  have hlen := length_entries s.data
  have hpos := h.count_nonneg
  have hle := h.count_le
  -- -1 is no position of the table
  rw [dispatch_register htype] at hstep
  split at hstep
  · obtain rfl := Option.some.inj hstep
    by_cases hfull : s.data.clientCount > maxClients - 1
    · refine ⟨registerResponse server r.msg (-1), by rw [if_pos hfull]; rfl, ?_⟩
      rw [registerResponse, scanInt_overwrite]
      exact ⟨fun _ => by omega, fun _ => rfl⟩
    · refine ⟨registerResponse server r.msg s.data.clientCount, by rw [if_neg hfull]; rfl, ?_⟩
      rw [registerResponse, scanInt_overwrite, Scan.value.injEq]
      omega
  · exact absurd hstep (Option.some_ne_none _).symm

theorem DeskInv.dispatches (h : DeskInv queueDesc s) {r : Request} (hfresh : s.Fresh r.qid) :
    ((dispatcher server).step r s).isSome := by
  by_cases hreg : r.msg.type = typeRegister
  · rw [dispatch_register hreg, if_pos hfresh]
    rfl
  · by_cases hquit : r.msg.type = typeQuit
    · rw [dispatch_quit h hquit]
      rfl
    · obtain ⟨s₁, hs₁, -⟩ : ∃ s₁, (dispatcher server).step r s = some s₁ ∧
          s.SameClients s₁ := dispatch_other h hreg hquit
      rw [hs₁]
      rfl

/-- **The array agrees with the registrations** after every history of messages. -/
theorem faithful_run (server queueDesc : ℤ) (hist : List Request) :
    Faithful server ((dispatcher server).run hist (Desk.begin queueDesc))
      ((registry queueDesc).run hist []) := by
  have h : DeskInv queueDesc ((dispatcher server).run hist (Desk.begin queueDesc)) :=
    Machine.run_invariant (fun _ _ _ => deskInv_step) hist (deskInv_begin queueDesc)
  have hreg : entries ((dispatcher server).run hist (Desk.begin queueDesc)).data =
      (registry queueDesc).run hist [] :=
    (simulates_registry server queueDesc).run_eq (fun _ _ _ => deskInv_step) hist
      (deskInv_begin queueDesc)
  rw [← hreg]
  exact {
    entries_eq := rfl
    count_nonneg := h.count_nonneg
    count_le := h.count_le
    answered := fun r s' htype hstep => h.answered htype hstep
    getQid_eq := getQid_eq h.count_nonneg
    getQid_neg_iff := h.getQid_neg_iff
    open_iff := fun q => h.open_perm.mem_iff
    nodup := h.open_perm.nodup_iff.mp h.open_nodup
    balance := fun q => by rw [h.balance, h.open_perm.count_eq]
    dispatches := fun r hfresh => h.dispatches hfresh }

end Faithful

end Posix
end MsgQueue
end OpSys
