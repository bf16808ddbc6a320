import OpSys.MsgQueue.Mirror
import OpSys.MsgQueue.Posix.Dispatch

/-!
# Requests of unknown senders

Any process may write to the public queue, so that a request may come with any number as
its sender.  The server with POSIX queues looks for the sender among the entries in use,
the other one in the whole array, where an entry that was never filled looks like a client
with the pid 0.

## Main definitions

* `timeCreated`, `Posix.handleTime`, `SystemV.handleTime` — `handle_time`.
* `SystemV.Desk`, `SystemV.dispatcher` — the server at a history of messages.
* `Posix.Ignored`, `SystemV.Ignored` — nothing comes of a message.

## Main results

* `search_cases` — where the search in the array stops.
* `SystemV.DeskInv.getQid_iff` — when an unknown sender is not found.
* `ignored_iff` — when the messages of unknown senders are ignored.

## References

`lab5_message_queues/POSIX/server.c`, `lab5_message_queues/SystemV/server.c`.
-/

namespace OpSys
namespace MsgQueue

open Stdio
open Posix (ServerData Request search)

/-- `handle_time` after `create_msg`: the queue to which the message is sent, if it is sent, and
the message. -/
def timeCreated (clock : List UInt8) (created : ℤ × Message) : Option ℤ × Message :=
  if created.1 = -1 then (none, created.2)
  else (some created.1, { created.2 with content := overwrite clock created.2.content })

/-! ### The search -/

/-- The search stops at an entry of the client, or behind entries of other ones. -/
theorem search_cases (data : ℕ → ℤ × ℤ) (pid : ℤ) (k i : ℕ) :
    (search data pid k i = i + k ∧ ∀ j, i ≤ j → j < i + k → (data j).1 ≠ pid) ∨
      search data pid k i < i + k ∧ (data (search data pid k i)).1 = pid := by
  induction k generalizing i with
  | zero =>
    refine Or.inl ⟨rfl, fun j hij hj => ?_⟩
    exact absurd hj (Nat.not_lt_of_le hij)
  | succ k ih =>
    rw [search]
    by_cases hfound : (data i).1 = pid
    · rw [if_pos hfound]
      exact Or.inr ⟨Nat.lt_add_of_pos_right (Nat.succ_pos k), hfound⟩
    · rw [if_neg hfound]
      rcases ih (i + 1) with ⟨hstop, hnone⟩ | ⟨hlt, hpid⟩
      · refine Or.inl ⟨by omega, fun j hij hj => ?_⟩
        rcases Nat.eq_or_lt_of_le hij with rfl | hlt
        · exact hfound
        · exact hnone j hlt (by omega)
      · exact Or.inr ⟨by omega, hpid⟩

namespace Posix

/-- `handle_time`. -/
def handleTime (server : ℤ) (clock : List UInt8) (d : ServerData) (msg : Message) :
    Option ℤ × Message :=
  timeCreated clock (lookUp (getQid d msg.senderPid) (createMsg server msg) msg)

/-- `get_qid` does not find the sender, and the handlers return without a change and without
sending anything. -/
def Ignored (server : ℤ) (clock : List UInt8) (d : ServerData) (msg : Message) : Prop :=
  getQid d msg.senderPid = -1 ∧ handleMirror server d msg = some (none, msg) ∧
    handleTime server clock d msg = (none, msg) ∧ dispatchRequest server clock d msg = (d, .top)

theorem ignored_of_getQid {server : ℤ} {clock : List UInt8} {d : ServerData} {msg : Message}
    (htype : msg.type = typeMirror ∨ msg.type = typeTime) (hqid : getQid d msg.senderPid = -1) :
    Ignored server clock d msg := by
  refine ⟨hqid, ?_, ?_, ?_⟩
  · rw [handleMirror, lookUp, if_pos hqid]
    rfl
  · rw [handleTime, lookUp, if_pos hqid]
    rfl
  · rw [dispatchRequest]
    rcases htype with htype | htype
    · rw [htype, if_neg (by decide), if_pos rfl, if_pos hqid]
    · rw [htype, if_neg (by decide), if_neg (by decide), if_pos rfl, if_pos hqid]

end Posix

namespace SystemV

/-- `handle_time`. -/
def handleTime (server : ℤ) (clock : List UInt8) (d : ServerData) (msg : Message) :
    Option ℤ × Message :=
  timeCreated clock (lookUp (getQid d msg.senderPid) (createMessage server msg) msg)

/-- `get_qid` does not find the sender, and the handlers return without a change and without
sending anything. -/
def Ignored (server : ℤ) (clock : List UInt8) (d : ServerData) (msg : Message) : Prop :=
  getQid d msg.senderPid = -1 ∧ handleMirror server d msg = some (none, msg) ∧
    handleTime server clock d msg = (none, msg) ∧
    dispatchRequests server clock d ⟨msg, ()⟩ = (d, .top)

theorem ignored_of_getQid {server : ℤ} {clock : List UInt8} {d : ServerData} {msg : Message}
    (htype : msg.type = typeMirror ∨ msg.type = typeTime) (hqid : getQid d msg.senderPid = -1) :
    Ignored server clock d msg := by
  refine ⟨hqid, ?_, ?_, ?_⟩
  · rw [handleMirror, lookUp, if_pos hqid]
    rfl
  · rw [handleTime, lookUp, if_pos hqid]
    rfl
  · rw [dispatchRequests]
    rcases htype with htype | htype
    · rw [htype, if_neg (by decide), if_pos rfl, if_pos hqid]
    · rw [htype, if_neg (by decide), if_neg (by decide), if_pos rfl, if_pos hqid]

/-! ### The server at a history of messages -/

/-- The globals of the server, and the registrations it has accepted. -/
structure Desk where
  data : ServerData
  accepted : List (ℤ × ℤ)

/-- The server at the messages of a history, the calls of which succeed. -/
def dispatcher (server : ℤ) : Machine Request Desk where
  step r s :=
    match dispatchRequests server r.clock s.data (⟨r.msg, ()⟩ : Packet Unit) with
    | (_, .register p) =>
      -- `msgget` has found a queue, or else the server exits
      if 0 ≤ r.qid then
        some {
          data := (registerOpened server s.data p.msg r.qid).1
          accepted :=
            if s.data.clientCount > maxClients - 1 then s.accepted
            else s.accepted ++ [(p.msg.senderPid, r.qid)] }
      else none
    | (data, _) => some { s with data := data }

/-- The server before the first message. -/
def Desk.begin (queueDesc : ℤ) : Desk where
  data := ⟨true, fun _ => (0, 0), 0, queueDesc⟩
  accepted := []

/-- The array holds the registrations and zeros behind them. -/
structure DeskInv (s : Desk) : Prop where
  count_eq : s.data.clientCount = s.accepted.length
  count_le : s.data.clientCount ≤ maxClients
  array : ∀ i, s.data.clientsData i = s.accepted.getD i (0, 0)

variable {server : ℤ} {s s' : Desk}

theorem DeskInv.of_same (h : DeskInv s) (hdata : s'.data.clientsData = s.data.clientsData)
    (hcount : s'.data.clientCount = s.data.clientCount) (haccepted : s'.accepted = s.accepted) :
    DeskInv s' where
  count_eq := by rw [hcount, haccepted, h.count_eq]
  count_le := by rw [hcount]; exact h.count_le
  array i := by rw [hdata, haccepted, h.array]

theorem DeskInv.registered (h : DeskInv s) (server : ℤ) (msg : Message) (qid : ℤ) :
    DeskInv {
      data := (registerOpened server s.data msg qid).1
      accepted :=
        if s.data.clientCount > maxClients - 1 then s.accepted
        else s.accepted ++ [(msg.senderPid, qid)] } := by
  have hcount := h.count_eq
  by_cases hfull : s.data.clientCount > maxClients - 1
  · rw [registerOpened, if_pos hfull, if_pos hfull]
    exact h
  · rw [registerOpened, if_neg hfull, if_neg hfull]
    constructor
    · simp only [List.length_append, List.length_singleton, hcount]
      rfl
    · simp only [maxClients] at hfull ⊢
      omega
    · intro i
      -- the new entry is the next one of the list, and the array beyond it is as it was
      have hlast : s.data.clientCount.toNat = s.accepted.length := by omega
      simp only [hlast, List.getD]
      by_cases hi : i = s.accepted.length
      · subst hi
        rw [Function.update_self, List.getElem?_append_right (Nat.le_refl _), Nat.sub_self]
        rfl
      · rw [Function.update_of_ne hi, h.array, List.getD]
        by_cases hlt : i < s.accepted.length
        · rw [List.getElem?_append_left hlt]
        · rw [List.getElem?_eq_none (by omega),
            List.getElem?_eq_none (by rw [List.length_append, List.length_singleton]; omega)]

theorem step_register {r : Request} (htype : r.msg.type = typeRegister) :
    (dispatcher server).step r s =
      if 0 ≤ r.qid then
        some {
          data := (registerOpened server s.data r.msg r.qid).1
          accepted :=
            if s.data.clientCount > maxClients - 1 then s.accepted
            else s.accepted ++ [(r.msg.senderPid, r.qid)] }
      else none := by
  simp only [dispatcher, dispatchRequests, if_pos htype]

/-- The other handlers change nothing but `active`. -/
theorem step_other {r : Request} (htype : r.msg.type ≠ typeRegister) :
    ∃ active, (dispatcher server).step r s =
      -- only `REGISTER` enters a client
      some { s with data := { s.data with active := active } } := by
  simp only [dispatcher, dispatchRequests, if_neg htype]
  by_cases hmirror : r.msg.type = typeMirror
  · refine ⟨s.data.active, ?_⟩
    rw [if_pos hmirror]
    by_cases hqid : getQid s.data r.msg.senderPid = -1
    · rw [if_pos hqid]
    · rw [if_neg hqid]
  by_cases htime : r.msg.type = typeTime
  · refine ⟨s.data.active, ?_⟩
    rw [if_neg hmirror, if_pos htime]
    by_cases hqid : getQid s.data r.msg.senderPid = -1
    · rw [if_pos hqid]
    · rw [if_neg hqid]
  rw [if_neg hmirror, if_neg htime]
  by_cases hend : r.msg.type = typeEnd
  · rw [if_pos hend]
    exact ⟨false, rfl⟩
  · rw [if_neg hend]
    exact ⟨s.data.active, rfl⟩

theorem deskInv_step {r : Request} (h : DeskInv s)
    (hstep : (dispatcher server).step r s = some s') : DeskInv s' := by
  by_cases htype : r.msg.type = typeRegister
  · rw [step_register htype] at hstep
    by_cases hqid : 0 ≤ r.qid
    · rw [if_pos hqid] at hstep
      obtain rfl := Option.some.inj hstep
      exact h.registered server r.msg r.qid
    · rw [if_neg hqid] at hstep
      cases hstep
  · obtain ⟨active, hsame⟩ : ∃ active, (dispatcher server).step r s =
        some { s with data := { s.data with active := active } } := step_other htype
    rw [hsame] at hstep
    obtain rfl := Option.some.inj hstep
    exact h.of_same rfl rfl rfl

theorem deskInv_run (server queueDesc : ℤ) (hist : List Request) :
    DeskInv ((dispatcher server).run hist (Desk.begin queueDesc)) :=
  Machine.run_invariant (fun _ _ _ h hstep => deskInv_step h hstep) hist
    ⟨rfl, Int.le.intro 5 rfl, fun _ => rfl⟩

/-- **An unknown sender is not found** if its pid is not 0, or if no entry is left that was
never filled. -/
theorem DeskInv.getQid_iff (h : DeskInv s) {pid : ℤ} (hunknown : ∀ e ∈ s.accepted, e.1 ≠ pid) :
    getQid s.data pid = -1 ↔ pid ≠ 0 ∨ (s.accepted.length : ℤ) = maxClients := by
  have hcount := h.count_eq
  have hle := h.count_le
  have hmax : (maxClients.toNat : ℤ) = maxClients := rfl
  -- an entry of this pid is one that was never filled
  have hblank : ∀ i, (s.data.clientsData i).1 = pid →
      s.accepted.length ≤ i ∧ s.data.clientsData i = (0, 0) := by
    intro i hpid
    rw [h.array] at hpid ⊢
    by_cases hlt : i < s.accepted.length
    · rw [List.getD, List.getElem?_eq_getElem hlt] at hpid
      exact absurd hpid (hunknown _ (List.getElem_mem hlt))
    · have hnone : s.accepted[i]? = none := List.getElem?_eq_none (Nat.le_of_not_lt hlt)
      rw [List.getD, hnone]
      exact ⟨Nat.le_of_not_lt hlt, rfl⟩
  rw [getQid]
  rcases search_cases s.data.clientsData pid maxClients.toNat 0 with ⟨hstop, hnone⟩ | ⟨hlt, hpid⟩
  · rw [hstop, Nat.zero_add, if_neg (by omega)]
    refine iff_of_true rfl ?_
    by_cases hzero : pid = 0
    · refine Or.inr (by_contra fun hroom => ?_)
      have hlast := h.array s.accepted.length
      rw [List.getD, List.getElem?_eq_none (Nat.le_refl _)] at hlast
      apply hnone s.accepted.length (Nat.zero_le _) (by omega)
      rw [hlast, hzero]
      rfl
    · exact Or.inl hzero
  · obtain ⟨hge, hentry⟩ := hblank _ hpid
    rw [if_pos (by omega), hentry]
    rw [hentry] at hpid
    refine iff_of_false (by decide) ?_
    rintro (hne | hfull)
    · exact hne hpid.symm
    · omega

end SystemV

/-- A request with 0 as its sender. -/
def zeroRequest : Message := ⟨typeMirror, 0, [97, nul]⟩

/-- The first entry, never filled, is taken for its sender, and the response goes to the queue
0 with a type that no message may have. -/
theorem zeroRequest_answered :
    ((SystemV.dispatcher 5).run [] (SystemV.Desk.begin 2)).accepted = [] ∧
    SystemV.getQid ((SystemV.dispatcher 5).run [] (SystemV.Desk.begin 2)).data 0 = 0 ∧
    SystemV.dispatchRequests 5 [] ((SystemV.dispatcher 5).run [] (SystemV.Desk.begin 2)).data
        (⟨zeroRequest, ()⟩ : SystemV.Packet Unit) =
      (((SystemV.dispatcher 5).run [] (SystemV.Desk.begin 2)).data,
        .send 0 ⟨⟨0, 5, [97, nul]⟩, ()⟩) :=
  ⟨rfl, rfl, rfl⟩

/-- **The messages of unknown senders are ignored**, after every history: by the server with
POSIX queues always, by the other one iff the sender is not given as 0 or the array is full. -/
theorem ignored_iff (server queueDesc : ℤ) (hist : List Request) (clock : List UInt8)
    (msg : Message) (htype : msg.type = typeMirror ∨ msg.type = typeTime) :
    ((∀ e ∈ (Posix.registry queueDesc).run hist [], e.1 ≠ msg.senderPid) →
      Posix.Ignored server clock
        ((Posix.dispatcher server).run hist (Posix.Desk.begin queueDesc)).data msg) ∧
    ((∀ e ∈ ((SystemV.dispatcher server).run hist (SystemV.Desk.begin queueDesc)).accepted,
        e.1 ≠ msg.senderPid) →
      (SystemV.Ignored server clock
        ((SystemV.dispatcher server).run hist (SystemV.Desk.begin queueDesc)).data msg ↔
          msg.senderPid ≠ 0 ∨
            (((SystemV.dispatcher server).run hist (SystemV.Desk.begin queueDesc)).accepted.length
              : ℤ) = maxClients)) := by
  constructor
  · intro hunknown
    have hfaithful := Posix.faithful_run server queueDesc hist
    exact Posix.ignored_of_getQid htype ((hfaithful.getQid_neg_iff _).mpr hunknown)
  · intro hunknown
    -- an unknown pid is found only as the 0 of an entry that was never filled
    have hiff := (SystemV.deskInv_run server queueDesc hist).getQid_iff hunknown
    constructor
    · intro hignored
      exact hiff.mp hignored.1
    · intro hcond
      exact SystemV.ignored_of_getQid htype (hiff.mpr hcond)

theorem ignored_iff_seven :
    Posix.Ignored 5 [] ((Posix.dispatcher 5).run [] (Posix.Desk.begin 2)).data
      ⟨typeMirror, 7, [97, nul]⟩ ∧
    (SystemV.Ignored 5 [] ((SystemV.dispatcher 5).run [] (SystemV.Desk.begin 2)).data
      ⟨typeMirror, 7, [97, nul]⟩ ↔ (7 : ℤ) ≠ 0 ∨ (0 : ℤ) = maxClients) := by
  have h := ignored_iff 5 2 [] [] ⟨typeMirror, 7, [97, nul]⟩ (Or.inl rfl)
  exact ⟨h.1 nofun, h.2 nofun⟩

end MsgQueue
end OpSys
