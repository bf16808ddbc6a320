import OpSys.MsgQueue.SystemV.System

/-!
# The bytes that `handle_mirror` touches

`handle_mirror` once more, now with every access to the content checked against the bounds
of the array.  Of an empty string the byte before the array is read, and both servers have
the same slip; with every other string all is well.

## Main definitions

* `load`, `store` — accesses to the content.
* `mirrorInPlace` — `strlen`, the test for a newline and the swaps.
* `lookUp`, `mirrorCreated` — `create_msg` and the rest of `handle_mirror`.
* `Posix.handleMirror`, `SystemV.handleMirror` — the handlers of the two servers.

## Main results

* `mirrorInPlace_eq` — for a string that is not empty the accesses are in bounds.
* `mirrorInPlace_nil` — for the empty one they are not.
* `handleMirror_iff` — the handlers mirror exactly the strings that are not empty.
* `Posix.dispatchRequest_mirror`, `SystemV.dispatchRequests_mirror` — the machines do the same.

## References

`lab5_message_queues/POSIX/server.c`, `lab5_message_queues/SystemV/server.c`.
-/

namespace OpSys
namespace MsgQueue

open Stdio

/-- `msg->content[i]`. -/
def load (content : List UInt8) (i : ℤ) : Option UInt8 :=
  if 0 ≤ i ∧ i < maxContSize then content[i.toNat]? else none

/-- `msg->content[i] = b`. -/
def store (content : List UInt8) (i : ℤ) (b : UInt8) : Option (List UInt8) :=
  if 0 ≤ i ∧ i < maxContSize ∧ i < content.length then some (content.set i.toNat b) else none

/-- `strlen(msg->content)`, from the byte `i` on; at most `k` bytes are read. -/
def scanLen (content : List UInt8) : ℕ → ℤ → Option ℤ
  | 0, _ => none
  | k + 1, i => (load content i).bind fun b => if b = nul then some i else scanLen content k (i + 1)

/-- The body of the loop: `content[i]` and `content[j]` change places. -/
def swapAt (content : List UInt8) (i j : ℤ) : Option (List UInt8) :=
  (load content i).bind fun buff =>
    (load content j).bind fun b =>
      (store content i b).bind fun content => store content j buff

/-- The first iterations of the loop. -/
def swapLoop (msgLen : ℤ) (content : List UInt8) : ℕ → Option (List UInt8)
  | 0 => some content
  | i + 1 => (swapLoop msgLen content i).bind fun content => swapAt content i (msgLen - i - 1)

/-- `handle_mirror` between `create_msg` and the sending of the response. -/
def mirrorInPlace (content : List UInt8) : Option (List UInt8) :=
  (scanLen content maxContSize 0).bind fun len =>
    (load content (len - 1)).bind fun last =>
      let msgLen := if last = newline then len - 1 else len
      swapLoop msgLen content (msgLen.tdiv 2).toNat

/-- What `create_msg` returns, and the message: with the header of a response if the sender has
the queue `qid`. -/
def lookUp (qid : ℤ) (header msg : Message) : ℤ × Message :=
  if qid = -1 then (-1, msg) else (qid, header)

/-- `handle_mirror` after `create_msg`: the queue to which the message is sent, if it is sent,
and the message. -/
def mirrorCreated (created : ℤ × Message) : Option (Option ℤ × Message) :=
  if created.1 = -1 then some (none, created.2)
  else (mirrorInPlace created.2.content).map fun content =>
    (some created.1, { created.2 with content := content })

/-- `handle_mirror` of the server with POSIX queues. -/
def Posix.handleMirror (server : ℤ) (d : Posix.ServerData) (msg : Message) :
    Option (Option ℤ × Message) :=
  mirrorCreated (lookUp (Posix.getQid d msg.senderPid) (Posix.createMsg server msg) msg)

/-- `handle_mirror` of the server with System V queues. -/
def SystemV.handleMirror (server : ℤ) (d : Posix.ServerData) (msg : Message) :
    Option (Option ℤ × Message) :=
  mirrorCreated (lookUp (SystemV.getQid d msg.senderPid) (SystemV.createMessage server msg) msg)

variable {content text rest : List UInt8}

theorem load_eq (hlen : content.length = maxContSize) {i : ℕ} (hi : i < content.length) :
    load content i = some (content.getD i nul) := by
  rw [load, if_pos ⟨Int.natCast_nonneg i, by omega⟩, Int.toNat_natCast,
    List.getElem?_eq_getElem hi, List.getD, List.getElem?_eq_getElem hi]
  rfl

theorem store_eq (hlen : content.length = maxContSize) {i : ℕ} (hi : i < content.length)
    (b : UInt8) : store content i b = some (content.set i b) := by
  rw [store, if_pos ⟨Int.natCast_nonneg i, by omega, by omega⟩, Int.toNat_natCast]

/-- `strlen` reads up to the NUL. -/
theorem scanLen_eq (hlen : (text ++ nul :: rest).length = maxContSize) (hnul : nul ∉ text)
    {i k : ℕ} (hi : i ≤ text.length) (hk : text.length < i + k) :
    scanLen (text ++ nul :: rest) k i = some (text.length : ℤ) := by
  have hlt : text.length < (text ++ nul :: rest).length := by
    rw [List.length_append]
    exact Nat.lt_add_of_pos_right (Nat.succ_pos _)
  -- the search stops at the zero byte, which comes before the end of the array
  induction k generalizing i with
  | zero => omega
  | succ k ih =>
    rw [scanLen, load_eq hlen (Nat.lt_of_le_of_lt hi hlt), Option.bind_some]
    by_cases hend : i = text.length
    · subst hend
      have hbyte : (text ++ nul :: rest).getD text.length nul = nul := by
        rw [List.getD, List.getElem?_append_right (Nat.le_refl _), Nat.sub_self]
        rfl
      rw [if_pos hbyte]
    · have hlt' : i < text.length := Nat.lt_of_le_of_ne hi hend
      have hbyte : (text ++ nul :: rest).getD i nul ≠ nul := by
        rw [List.getD, List.getElem?_append_left hlt', List.getElem?_eq_getElem hlt']
        intro heq
        apply hnul
        rw [← heq]
        exact List.getElem_mem hlt'
      rw [if_neg hbyte]
      exact ih (i := i + 1) hlt' (by omega)

theorem swapAt_eq (hlen : content.length = maxContSize) {i j : ℕ} (hi : i < content.length)
    (hj : j < content.length) : swapAt content i j = some (swap content i j) := by
  have hset : (content.set i (content.getD j nul)).length = content.length := List.length_set
  rw [swapAt, load_eq hlen hi, Option.bind_some, load_eq hlen hj, Option.bind_some,
    store_eq hlen hi, Option.bind_some, store_eq (hset.trans hlen) (hset ▸ hj)]
  rfl

theorem swapLoop_eq (hlen : content.length = maxContSize) {len n : ℕ} (hle : len ≤ content.length)
    (hn : n ≤ len / 2) : swapLoop len content n = some (mirrorLoop len content n) := by
  induction n with
  | zero => rfl
  | succ n ih =>
    have hsame : (mirrorLoop len content n).length = content.length := length_mirrorLoop ..
    have hj : (len : ℤ) - n - 1 = (len - n - 1 : ℕ) := by omega
    rw [swapLoop, ih (by omega), Option.bind_some, hj,
      swapAt_eq (hsame.trans hlen) (by omega) (by omega)]
    rfl

/-- **A string that is not empty is mirrored**, and every access is in bounds. -/
theorem mirrorInPlace_eq (hlen : (text ++ nul :: rest).length = maxContSize) (hnul : nul ∉ text)
    (hne : text ≠ []) :
    mirrorInPlace (text ++ nul :: rest) = some (mirrored text ++ nul :: rest) := by
  have hpos : 0 < text.length := List.length_pos_iff.mpr hne
  have hlt : text.length < (text ++ nul :: rest).length := by
    rw [List.length_append]
    exact Nat.lt_add_of_pos_right (Nat.succ_pos _)
  have hstrlen : strlen (text ++ nul :: rest) = text.length := by
    rw [strlen, cString_append_nul hnul]
  have hlast : (text.length : ℤ) - 1 = (text.length - 1 : ℕ) := by omega
  -- the newline is what `mirrorLen` looks for
  have hmsg : (if (text ++ nul :: rest).getD (text.length - 1) nul = newline then
      (text.length : ℤ) - 1 else text.length) = mirrorLen (text ++ nul :: rest) := by
    rw [mirrorLen, hstrlen]
    by_cases hnl : (text ++ nul :: rest).getD (text.length - 1) nul = newline
    · rw [if_pos hnl, if_pos ⟨Nat.ne_of_gt hpos, hnl⟩, hlast]
    · rw [if_neg hnl, if_neg fun h => hnl h.2]
  have hle : mirrorLen (text ++ nul :: rest) ≤ (text ++ nul :: rest).length := by
    rw [mirrorLen, hstrlen]
    split <;> omega
  have hscan := scanLen_eq hlen hnul (Nat.zero_le _) (k := maxContSize) (by omega)
  have hhalf : ((mirrorLen (text ++ nul :: rest) : ℤ).tdiv 2).toNat =
      mirrorLen (text ++ nul :: rest) / 2 := rfl
  rw [mirrorInPlace, Nat.cast_zero.symm, hscan, Option.bind_some, hlast,
    load_eq hlen (by omega), Option.bind_some]
  simp only [hlast.symm, hmsg, hhalf]
  rw [swapLoop_eq hlen hle (Nat.le_refl _), ← mirrorContent_eq hnul]
  rfl

/-- The byte before an empty string is out of bounds. -/
@[simp] theorem mirrorInPlace_nil (rest : List UInt8) : mirrorInPlace (nul :: rest) = none := rfl

theorem lookUp_of_ne {qid : ℤ} (hqid : qid ≠ -1) (header msg : Message) :
    lookUp qid header msg = (qid, header) := if_neg hqid

theorem mirrorCreated_eq_iff {qid : ℤ} {header msg : Message} (hqid : qid ≠ -1)
    (hcontent : header.content = text ++ nul :: rest)
    (hlen : header.content.length = maxContSize) (hnul : nul ∉ text) :
    mirrorCreated (lookUp qid header msg) =
      some (some qid, { header with content := mirrored text ++ nul :: rest }) ↔ text ≠ [] := by
  rw [lookUp_of_ne hqid, mirrorCreated, if_neg hqid, hcontent]
  constructor
  · rintro heq rfl
    rw [List.nil_append, mirrorInPlace_nil, Option.map_none] at heq
    cases heq
  · intro hne
    rw [mirrorInPlace_eq (hcontent ▸ hlen) hnul hne, Option.map_some]

/-- A request to mirror the empty string. -/
def emptyRequest : Message := ⟨typeMirror, 7, List.replicate maxContSize nul⟩

/-- A server with the client that sends it. -/
def oneClient : Posix.ServerData := ⟨true, fun _ => (7, 1), 1, 0⟩

/-- Both servers read the byte before the content. -/
theorem handleMirror_empty :
    emptyRequest.content = [] ++ nul :: List.replicate 2047 nul ∧
    Posix.getQid oneClient emptyRequest.senderPid ≠ -1 ∧
    Posix.handleMirror 5 oneClient emptyRequest = none ∧
    SystemV.getQid oneClient emptyRequest.senderPid ≠ -1 ∧
    SystemV.handleMirror 5 oneClient emptyRequest = none :=
  ⟨rfl, by decide, rfl, by decide, rfl⟩

/-- **The handlers mirror exactly the strings that are not empty**: with a registered sender,
they send the string backwards, a newline at its end kept there, with the bytes from its NUL
on as they were, and touch no byte outside the content. -/
theorem handleMirror_iff (server : ℤ) (d : Posix.ServerData) (msg : Message)
    (text rest : List UInt8) (hcontent : msg.content = text ++ nul :: rest)
    (hlen : msg.content.length = maxContSize) (hnul : nul ∉ text) :
    (Posix.getQid d msg.senderPid ≠ -1 →
      (Posix.handleMirror server d msg = some (some (Posix.getQid d msg.senderPid),
        ⟨msg.senderPid, server, mirrored text ++ nul :: rest⟩) ↔ text ≠ [])) ∧
    (SystemV.getQid d msg.senderPid ≠ -1 →
      (SystemV.handleMirror server d msg = some (some (SystemV.getQid d msg.senderPid),
        ⟨msg.senderPid, server, mirrored text ++ nul :: rest⟩) ↔ text ≠ [])) := by
  constructor
  · intro hqid
    exact mirrorCreated_eq_iff hqid hcontent hlen hnul
  · intro hqid
    exact mirrorCreated_eq_iff hqid hcontent hlen hnul

/-- A request to mirror one letter. -/
def letterRequest : Message := ⟨typeMirror, 7, [97] ++ nul :: List.replicate 2046 nul⟩

theorem handleMirror_iff_letter :
    Posix.handleMirror 5 oneClient letterRequest =
      some (some 1, ⟨7, 5, mirrored [97] ++ nul :: List.replicate 2046 nul⟩) ↔
      [(97 : UInt8)] ≠ [] :=
  (handleMirror_iff 5 oneClient letterRequest [97] (List.replicate 2046 nul) rfl
    (congrArg (· + 2) List.length_replicate)
    (by decide)).1 (by decide)

/-! ### The handlers in the machines -/

/-- Within the bounds the response is what `mirrorContent` makes of the content. -/
theorem mirrorCreated_some {qid q : ℤ} {header msg out : Message}
    (hrun : mirrorCreated (lookUp qid header msg) = some (some q, out))
    (hcontent : header.content = text ++ nul :: rest)
    (hlen : header.content.length = maxContSize) (hnul : nul ∉ text) :
    qid ≠ -1 ∧ q = qid ∧ out = { header with content := mirrorContent header.content } := by
  by_cases hqid : qid = -1
  · rw [lookUp, if_pos hqid, mirrorCreated, if_pos rfl] at hrun
    cases hrun
  · have hne : text ≠ [] := by
      rintro rfl
      rw [lookUp_of_ne hqid, mirrorCreated, if_neg hqid, hcontent, List.nil_append,
        mirrorInPlace_nil] at hrun
      cases hrun
    rw [(mirrorCreated_eq_iff hqid hcontent hlen hnul).mpr hne] at hrun
    obtain ⟨hq, hout⟩ := Prod.mk.inj (Option.some.inj hrun)
    refine ⟨hqid, (Option.some.inj hq).symm, ?_⟩
    rw [← hout, hcontent, mirrorContent_eq hnul]

/-- Where the handler stays in bounds, the server goes on as its machine does. -/
theorem Posix.dispatchRequest_mirror {server qid : ℤ} {d : Posix.ServerData} {msg out : Message}
    (clock : List UInt8) (htype : msg.type = typeMirror)
    (hcontent : msg.content = text ++ nul :: rest) (hlen : msg.content.length = maxContSize)
    (hnul : nul ∉ text) (hrun : Posix.handleMirror server d msg = some (some qid, out)) :
    Posix.dispatchRequest server clock d msg = (d, .respond qid out) := by
  rw [Posix.handleMirror] at hrun
  obtain ⟨hqid, rfl, rfl⟩ := mirrorCreated_some hrun hcontent hlen hnul
  rw [Posix.dispatchRequest, htype, if_neg (by decide), if_pos rfl, if_neg hqid]
  rfl

theorem SystemV.dispatchRequests_mirror {ι : Type*} {server qid : ℤ} {d : Posix.ServerData}
    {p : SystemV.Packet ι} {out : Message} (clock : List UInt8) (htype : p.msg.type = typeMirror)
    (hcontent : p.msg.content = text ++ nul :: rest) (hlen : p.msg.content.length = maxContSize)
    (hnul : nul ∉ text) (hrun : SystemV.handleMirror server d p.msg = some (some qid, out)) :
    SystemV.dispatchRequests server clock d p = (d, .send qid { p with msg := out }) := by
  rw [SystemV.handleMirror] at hrun
  obtain ⟨hqid, rfl, rfl⟩ := mirrorCreated_some hrun hcontent hlen hnul
  rw [SystemV.dispatchRequests, htype, if_neg (by decide), if_pos rfl, if_neg hqid]
  rfl

end MsgQueue
end OpSys
