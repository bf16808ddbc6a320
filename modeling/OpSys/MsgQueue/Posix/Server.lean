import Mathlib.Logic.Function.Basic
import OpSys.MsgQueue.Message

/-!
# The server with POSIX queues

The globals of the server and its code between two system calls.  Where the code
makes a call it stops at a program counter that holds what the call needs; what it
does with the result is a function of its own.

## Main definitions

* `ServerData` — the globals; `ServerPc` — the system call that comes next.
* `getQid`, `shift` — the loops over `clients_data`.
* `dispatchRequest`, `registerOpened`, `quitClosed` — the handlers.
* `exit` — the first call of `close_queue`.
* `entries` — the part of `clients_data` that is in use.

## Main results

* `getQid_eq`, `entries_quitClosed` — the loops look up and erase an entry.

## References

`lab5_message_queues/POSIX/server.c`, `lab5_message_queues/POSIX/server.h`.
-/

namespace OpSys
namespace MsgQueue
namespace Posix

open Stdio

/-- The globals of the server. -/
structure ServerData where
  active : Bool
  clientsData : ℕ → ℤ × ℤ
  clientCount : ℤ
  queueDesc : ℤ

/-- The system call that the server makes next. -/
inductive ServerPc
  /-- `mq_open(server_path, O_RDONLY | O_CREAT, …)`. -/
  | start
  /-- The head of the loop of `main`, with `mq_getattr` if `active == 0`. -/
  | top
  /-- `mq_receive`. -/
  | receive
  /-- `mq_open(client_path, O_WRONLY)` in `handle_register`. -/
  | register (msg : Message)
  /-- The `mq_send` of `handle_register` to a client that is refused. -/
  | refuse (qid : ℤ) (msg : Message)
  /-- The `mq_close` after it. -/
  | closeRefused (qid : ℤ)
  /-- The `mq_send` of `handle_register` to a client that is accepted. -/
  | login (qid : ℤ) (msg : Message)
  /-- The `mq_send` of `handle_mirror` or `handle_time`. -/
  | respond (qid : ℤ) (msg : Message)
  /-- `mq_close(clients_data[i][1])` in `handle_quit`. -/
  | quit (i : ℕ)
  /-- The `mq_close` in the loop of `close_queue`. -/
  | closeClient (status : ℤ) (i : ℕ)
  /-- `mq_close(queue_desc)` in `close_queue`. -/
  | closeQueue (status : ℤ)
  /-- `mq_unlink(server_path)`. -/
  | unlink (status : ℤ)
  /-- The process has ended. -/
  | gone (status : ℤ)
  deriving DecidableEq, Repr

/-! ### The loops over the clients -/

/-- Where the search for `pid` stops: at most `k` entries are looked at, from `i` on. -/
def search (data : ℕ → ℤ × ℤ) (pid : ℤ) : ℕ → ℕ → ℕ
  | 0, i => i
  | k + 1, i => if (data i).1 = pid then i else search data pid k (i + 1)

/-- Where the loops of `get_qid` and `handle_quit` stop. -/
def ServerData.find (d : ServerData) (pid : ℤ) : ℕ :=
  search d.clientsData pid d.clientCount.toNat 0

/-- `get_qid`. -/
def getQid (d : ServerData) (pid : ℤ) : ℤ :=
  if (d.find pid : ℤ) < d.clientCount then (d.clientsData (d.find pid)).2 else -1

/-- `k` iterations of the loop of `handle_quit` that moves entries down, from `i` on. -/
def shift (data : ℕ → ℤ × ℤ) : ℕ → ℕ → ℕ → ℤ × ℤ
  | 0, _ => data
  | k + 1, i => shift (Function.update data i (data (i + 1))) k (i + 1)

/-! ### The handlers -/

/-- `create_msg`: the header of a response to `msg`. -/
def createMsg (server : ℤ) (msg : Message) : Message :=
  { msg with type := msg.senderPid, senderPid := server }

/-- `dispatch_request` up to the first system call.  `server` is the pid of the
server, and `clock` what `convert_time` makes of the time. -/
def dispatchRequest (server : ℤ) (clock : List UInt8) (d : ServerData) (msg : Message) :
    ServerData × ServerPc :=
  if msg.type = typeRegister then (d, .register msg)
  else if msg.type = typeMirror then
    if getQid d msg.senderPid = -1 then (d, .top)
    else (d, .respond (getQid d msg.senderPid)
      { createMsg server msg with content := mirrorContent msg.content })
  else if msg.type = typeTime then
    if getQid d msg.senderPid = -1 then (d, .top)
    else (d, .respond (getQid d msg.senderPid)
      { createMsg server msg with content := overwrite clock msg.content })
  else if msg.type = typeEnd then ({ d with active := false }, .top)
  else if msg.type = typeQuit then
    if (d.find msg.senderPid : ℤ) = d.clientCount then (d, .top)
    else (d, .quit (d.find msg.senderPid))
  else (d, .top)

/-- The response of `handle_register`. -/
def registerResponse (server : ℤ) (msg : Message) (session : ℤ) : Message where
  type := typeRegister
  senderPid := server
  content := overwrite (decimal session) msg.content

/-- `handle_register` after `mq_open` has returned `qid`. -/
def registerOpened (server : ℤ) (d : ServerData) (msg : Message) (qid : ℤ) :
    ServerData × ServerPc :=
  if d.clientCount > maxClients - 1 then (d, .refuse qid (registerResponse server msg (-1)))
  else
    ({ d with
        clientsData := Function.update d.clientsData d.clientCount.toNat (msg.senderPid, qid)
        clientCount := d.clientCount + 1 },
      .login qid (registerResponse server msg d.clientCount))

/-- `handle_quit` after `mq_close`. -/
def quitClosed (d : ServerData) (i : ℕ) : ServerData :=
  { d with
    clientsData := shift d.clientsData (d.clientCount - 1 - i).toNat i
    clientCount := d.clientCount - 1 }

/-- `close_queue` after the loop over the clients. -/
def closePublic (d : ServerData) (status : ℤ) : ServerPc :=
  if d.queueDesc > -1 then .closeQueue status else .gone status

/-- `exit`, and `close_queue` up to its first system call. -/
def exit (d : ServerData) (status : ℤ) : ServerPc :=
  if 0 < d.clientCount then .closeClient status 0 else closePublic d status

/-! ### The entries in use -/

/-- `clients_data[0..client_count)`. -/
def entries (d : ServerData) : List (ℤ × ℤ) :=
  (List.range d.clientCount.toNat).map d.clientsData

@[simp] theorem length_entries (d : ServerData) : (entries d).length = d.clientCount.toNat := by
  simp [entries]

theorem getElem?_entries (d : ServerData) (j : ℕ) :
    (entries d)[j]? = if j < d.clientCount.toNat then some (d.clientsData j) else none := by
  rw [entries, List.getElem?_map]
  split
  · rename_i h
    rw [List.getElem?_range h, Option.map_some]
  · rw [List.getElem?_eq_none (by rw [List.length_range]; omega), Option.map_none]

theorem search_eq (data : ℕ → ℤ × ℤ) (pid : ℤ) (k i : ℕ) :
    search data pid k i = i + ((List.range' i k).map data).findIdx fun e => e.1 = pid := by
  induction k generalizing i with
  | zero => rfl
  | succ k ih =>
    rw [search, List.range'_succ, List.map_cons, List.findIdx_cons]
    by_cases h : (data i).1 = pid
    · simp [h]
    · simp [h, ih]
      omega

theorem find_eq (d : ServerData) (pid : ℤ) :
    d.find pid = (entries d).findIdx fun e => e.1 = pid := by
  rw [ServerData.find, search_eq, Nat.zero_add, entries, List.range_eq_range']

theorem find_lt_iff {d : ServerData} (hcount : 0 ≤ d.clientCount) (pid : ℤ) :
    (d.find pid : ℤ) < d.clientCount ↔ ∃ e ∈ entries d, e.1 = pid := by
  have hlen := length_entries d
  have hlt : (entries d).findIdx (fun e => e.1 = pid) < (entries d).length ↔
      ∃ e ∈ entries d, e.1 = pid := by
    rw [List.findIdx_lt_length]
    simp
  rw [← hlt, find_eq]
  omega

/-- `get_qid` gives the descriptor of the first entry, if there is one. -/
theorem getQid_eq {d : ServerData} (hcount : 0 ≤ d.clientCount) (pid : ℤ) :
    getQid d pid = ((entries d).find? fun e => e.1 = pid).elim (-1) Prod.snd := by
  have hlen := length_entries d
  rw [List.find?_eq_getElem?_findIdx, ← find_eq, getQid]
  by_cases h : (d.find pid : ℤ) < d.clientCount
  · have hi : d.find pid < (entries d).length := by omega
    rw [if_pos h, List.getElem?_eq_getElem hi]
    simp [entries]
  · rw [if_neg h, List.getElem?_eq_none (by omega)]
    rfl

theorem shift_apply (data : ℕ → ℤ × ℤ) (k i j : ℕ) :
    shift data k i j = if i ≤ j ∧ j < i + k then data (j + 1) else data j := by
  induction k generalizing data i with
  | zero =>
    rw [shift, if_neg (by omega)]
  | succ k ih =>
    rw [shift, ih]
    by_cases hj : j = i
    · subst hj
      rw [if_neg (by omega), if_pos (by omega), Function.update_self]
    · by_cases hin : i + 1 ≤ j ∧ j < i + 1 + k
      · rw [if_pos hin, if_pos (by omega), Function.update_of_ne (by omega)]
      · rw [if_neg hin, if_neg (by omega), Function.update_of_ne hj]

/-- `handle_quit` erases the entry it has found. -/
theorem entries_quitClosed {d : ServerData} {i : ℕ} (hi : (i : ℤ) < d.clientCount) :
    entries (quitClosed d i) = (entries d).eraseIdx i := by
  refine List.ext_getElem? fun j => ?_
  have hcount : (quitClosed d i).clientCount.toNat = d.clientCount.toNat - 1 := by
    simp only [quitClosed]
    omega
  have hdata : (quitClosed d i).clientsData j =
      if i ≤ j ∧ j < i + (d.clientCount - 1 - i).toNat then d.clientsData (j + 1)
      else d.clientsData j := shift_apply ..
  rw [List.getElem?_eraseIdx, getElem?_entries, getElem?_entries, getElem?_entries, hcount, hdata]
  -- below `i` nothing moves, from `i` on the loop brings the next entry
  by_cases hj : j < i
  · have hj₁ : j < d.clientCount.toNat - 1 := by omega
    have hj₂ : j < d.clientCount.toNat := by omega
    have hj₃ : ¬(i ≤ j ∧ j < i + (d.clientCount - 1 - i).toNat) := by omega
    rw [if_pos hj, if_pos hj₁, if_pos hj₂, if_neg hj₃]
  · rw [if_neg hj]
    by_cases hlast : j < d.clientCount.toNat - 1
    · have hj₂ : j + 1 < d.clientCount.toNat := by omega
      have hj₃ : i ≤ j ∧ j < i + (d.clientCount - 1 - i).toNat := by omega
      rw [if_pos hlast, if_pos hj₂, if_pos hj₃]
    · have hj₂ : ¬j + 1 < d.clientCount.toNat := by omega
      rw [if_neg hlast, if_neg hj₂]

theorem entries_quitClosed_find {d : ServerData} {pid : ℤ}
    (h : (d.find pid : ℤ) < d.clientCount) :
    entries (quitClosed d (d.find pid)) = (entries d).eraseP fun e => e.1 = pid := by
  have hlen := length_entries d
  rw [entries_quitClosed h, List.eraseP_eq_eraseIdx]
  have hidx : (entries d).findIdx? (fun e => decide (e.1 = pid)) = some (d.find pid) := by
    rw [List.findIdx?_eq_some_iff_findIdx_eq, ← find_eq]
    exact ⟨by omega, rfl⟩
  rw [hidx]

theorem eraseP_of_not_found {d : ServerData} (hcount : 0 ≤ d.clientCount) {pid : ℤ}
    (h : ¬(d.find pid : ℤ) < d.clientCount) :
    ((entries d).eraseP fun e => e.1 = pid) = entries d := by
  refine List.eraseP_of_forall_not fun e he hpid => ?_
  exact h ((find_lt_iff hcount pid).mpr ⟨e, he, of_decide_eq_true hpid⟩)

theorem find_le {d : ServerData} (hcount : 0 ≤ d.clientCount) (pid : ℤ) :
    (d.find pid : ℤ) ≤ d.clientCount := by
  have hlen := length_entries d
  have hle : (entries d).findIdx (fun e => decide (e.1 = pid)) ≤ (entries d).length :=
    List.findIdx_le_length
  rw [← find_eq] at hle
  omega

/-- The entry that `handle_register` adds stands at the end. -/
theorem entries_accept {d : ServerData} (hcount : 0 ≤ d.clientCount) (e : ℤ × ℤ) :
    entries { d with
      clientsData := Function.update d.clientsData d.clientCount.toNat e
      clientCount := d.clientCount + 1 } = entries d ++ [e] := by
  have hlen := length_entries d
  refine List.ext_getElem? fun j => ?_
  rw [getElem?_entries, List.getElem?_append, getElem?_entries, hlen]
  simp only
  rw [Int.toNat_add hcount (by omega)]
  -- the new entry is the last, and the others keep their places
  by_cases hj : j < d.clientCount.toNat
  · rw [if_pos (by omega), if_pos hj, if_pos hj, Function.update_of_ne (by omega)]
  · rw [if_neg hj]
    by_cases hlast : j = d.clientCount.toNat
    · subst hlast
      simp
    · rw [if_neg (by simp; omega), List.getElem?_eq_none (by simp; omega)]

end Posix
end MsgQueue
end OpSys
