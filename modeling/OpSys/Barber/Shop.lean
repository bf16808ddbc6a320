import Mathlib.Data.Int.Basic
import Mathlib.Tactic.Common

/-!
# The shared memory of the barbershop

The record that the barber and its clients share, with the queue of the waiting
room in it: an array of `maxClients` process ids of which the first
`totalClients` are in use.  `dequeue` takes the first and shifts the others down
one place at a time.  The POSIX and the System V version have the same record and
the same queue functions.

## Main definitions

* `Barbershop` — the shared record.
* `enqueue`, `dequeue` — the queue functions.
* `queue b` — the ids in use, as a list.

## Main results

* `queue_enqueue` — in a waiting room that is not full, `enqueue` appends.
* `queue_eq_dequeue_cons` — on a non-empty queue, `dequeue` returns the head and
  leaves the tail.

## References

`lab6_semaphores_shared_mem/POSIX/common.h`, `SystemV/common.h`.
-/

namespace OpSys
namespace Barber

/-- `MAX_CLIENTS`. -/
def maxClients : ℕ := 32

theorem one_le_maxClients : (1 : ℤ) ≤ maxClients := by decide

/-- A process id. -/
abbrev Pid := ℤ

/-- `enum barber_status`. -/
inductive BarberStatus
  | sleeping
  | wokenUp
  | inviting
  | startShaving
  | endShaving
  | free
  deriving DecidableEq, Repr

/-- `struct barbershop`, the record in shared memory. -/
structure Barbershop where
  status : BarberStatus
  totalClients : ℤ
  waitingRoomSize : ℤ
  currClient : Pid
  q : Vector Pid maxClients
  deriving DecidableEq, Repr

/-- `q_empty`. -/
def qEmpty (b : Barbershop) : Bool := b.totalClients == 0

/-- `q_full`. -/
def qFull (b : Barbershop) : Bool := decide (b.waitingRoomSize ≤ b.totalClients)

/-- `enqueue`: a full waiting room silently drops the client. -/
def enqueue (client : Pid) (b : Barbershop) : Barbershop :=
  if !qFull b then
    { b with
      q := b.q.setIfInBounds b.totalClients.toNat client
      totalClients := b.totalClients + 1 }
  else b

/-- The loop of `dequeue` after `n` rounds, round `i` copying `q[i + 1]` to `q[i]`. -/
def shift (q : Vector Pid maxClients) : ℕ → Vector Pid maxClients
  | 0 => q
  | i + 1 => (shift q i).setIfInBounds i ((shift q i)[i + 1]?.getD 0)

/-- `dequeue`: the id returned, `-1` from an empty queue, and the record left. -/
def dequeue (b : Barbershop) : Pid × Barbershop :=
  if !qEmpty b then
    let client := b.q[0]?.getD 0
    let q := shift b.q (b.totalClients - 1).toNat
    (client,
      { b with
        q := q.setIfInBounds (b.totalClients - 1).toNat 0
        totalClients := b.totalClients - 1 })
  else (-1, b)

/-- The ids in `q[0 .. total_clients)`. -/
def queue (b : Barbershop) : List Pid := b.q.toList.take b.totalClients.toNat

/-! ### What the queue functions do -/

@[simp] theorem qEmpty_iff (b : Barbershop) : qEmpty b = true ↔ b.totalClients = 0 := by
  simp [qEmpty]

@[simp] theorem qEmpty_eq_false_iff (b : Barbershop) :
    qEmpty b = false ↔ b.totalClients ≠ 0 := by
  simp [qEmpty]

@[simp] theorem qFull_eq_false_iff (b : Barbershop) :
    qFull b = false ↔ b.totalClients < b.waitingRoomSize := by
  simp [qFull]

@[simp] theorem enqueue_status (c : Pid) (b : Barbershop) : (enqueue c b).status = b.status := by
  unfold enqueue; split <;> rfl

@[simp] theorem enqueue_currClient (c : Pid) (b : Barbershop) :
    (enqueue c b).currClient = b.currClient := by
  unfold enqueue; split <;> rfl

@[simp] theorem enqueue_waitingRoomSize (c : Pid) (b : Barbershop) :
    (enqueue c b).waitingRoomSize = b.waitingRoomSize := by
  unfold enqueue; split <;> rfl

@[simp] theorem dequeue_status (b : Barbershop) : (dequeue b).2.status = b.status := by
  unfold dequeue; split <;> rfl

@[simp] theorem dequeue_waitingRoomSize (b : Barbershop) :
    (dequeue b).2.waitingRoomSize = b.waitingRoomSize := by
  unfold dequeue; split <;> rfl

theorem getElem?_queue (b : Barbershop) (j : ℕ) :
    (queue b)[j]? = if j < b.totalClients.toNat then b.q[j]? else none := by
  simp only [queue, List.getElem?_take]
  split <;> simp [Vector.getElem?_toList]

/-- The queue has as many ids as `total_clients` says. -/
theorem length_queue {b : Barbershop} (h : b.totalClients ≤ maxClients) :
    (queue b).length = b.totalClients.toNat := by
  have hle : b.totalClients.toNat ≤ maxClients := by omega
  simp [queue, Nat.min_eq_left hle]

theorem queue_eq_nil_iff {b : Barbershop} (h : b.totalClients ≤ maxClients) :
    queue b = [] ↔ b.totalClients ≤ 0 := by
  rw [← List.length_eq_zero_iff, length_queue h]
  omega

/-- Round `i` of the shift has moved the ids `1 .. i` down by one place. -/
theorem getElem?_shift (q : Vector Pid maxClients) (n : ℕ) (hn : n < maxClients) (j : ℕ) :
    (shift q n)[j]? = if j < n then q[j + 1]? else q[j]? := by
  induction n generalizing j with
  | zero => simp [shift]
  | succ n ih =>
    have hmove : (shift q n)[n + 1]? = q[n + 1]? := by
      rw [ih (by omega), if_neg (by omega)]
    have hsome : q[n + 1]? = some q[n + 1] := Vector.getElem?_eq_getElem hn
    rw [shift, Vector.getElem?_setIfInBounds, hmove, hsome, ih (by omega)]
    by_cases hj : n = j
    · subst hj
      rw [if_pos rfl, if_pos (by omega), if_pos (by omega), hsome]
      rfl
    · rw [if_neg hj]
      by_cases hlt : j < n
      · rw [if_pos hlt, if_pos (by omega)]
      · rw [if_neg hlt, if_neg (by omega)]

/-- In a waiting room that is not full, `enqueue` appends. -/
theorem queue_enqueue {b : Barbershop} (h₀ : 0 ≤ b.totalClients)
    (hfull : b.totalClients < b.waitingRoomSize) (hmax : b.waitingRoomSize ≤ maxClients)
    (c : Pid) : queue (enqueue c b) = queue b ++ [c] := by
  have hn : b.totalClients.toNat < maxClients := by omega
  have hsucc : (b.totalClients + 1).toNat = b.totalClients.toNat + 1 := by omega
  have henq : enqueue c b = { b with
      q := b.q.setIfInBounds b.totalClients.toNat c, totalClients := b.totalClients + 1 } := by
    simp [enqueue, (qFull_eq_false_iff b).mpr hfull]
  apply List.ext_getElem?
  intro j
  rw [henq, getElem?_queue, List.getElem?_append, length_queue (by omega), getElem?_queue]
  simp only [hsucc, Vector.getElem?_setIfInBounds]
  rcases Nat.lt_trichotomy j b.totalClients.toNat with hj | hj | hj
  · rw [if_pos (by omega), if_neg (by omega), if_pos hj, if_pos hj]
  · subst hj
    simp [hn]
  · rw [if_neg (by omega), if_neg (by omega), List.getElem?_singleton, if_neg (by omega)]

theorem enqueue_totalClients {b : Barbershop} (hfull : b.totalClients < b.waitingRoomSize)
    (c : Pid) : (enqueue c b).totalClients = b.totalClients + 1 := by
  simp [enqueue, (qFull_eq_false_iff b).mpr hfull]

/-- On a non-empty queue, `dequeue` returns the head and leaves the tail. -/
theorem queue_eq_dequeue_cons {b : Barbershop} (h₀ : 0 < b.totalClients)
    (hmax : b.totalClients ≤ maxClients) :
    queue b = (dequeue b).1 :: queue (dequeue b).2 := by
  -- `q[0]` goes out, and the shift brings every other place one further
  have hne : b.totalClients ≠ 0 := by omega
  have hn : (b.totalClients - 1).toNat + 1 = b.totalClients.toNat := by omega
  have hdeq : dequeue b = (b.q[0]?.getD 0, { b with
      q := (shift b.q (b.totalClients - 1).toNat).setIfInBounds (b.totalClients - 1).toNat 0
      totalClients := b.totalClients - 1 }) := by
    simp [dequeue, (qEmpty_eq_false_iff b).mpr hne]
  rw [hdeq]
  apply List.ext_getElem?
  intro j
  cases j with
  | zero =>
    have hpos : 0 < maxClients := by decide
    have h0 : b.q[0]? = some b.q[0] := Vector.getElem?_eq_getElem hpos
    simp only [getElem?_queue, List.getElem?_cons_zero, h0, Option.getD_some]
    rw [if_pos (by omega)]
  | succ j =>
    rw [List.getElem?_cons_succ, getElem?_queue, getElem?_queue]
    simp only [Vector.getElem?_setIfInBounds]
    by_cases hj : j < (b.totalClients - 1).toNat
    · rw [if_pos (by omega), if_pos hj, if_neg (by omega), getElem?_shift _ _ (by omega),
        if_pos hj]
    · rw [if_neg (by omega), if_neg hj]

theorem dequeue_totalClients {b : Barbershop} (h₀ : b.totalClients ≠ 0) :
    (dequeue b).2.totalClients = b.totalClients - 1 := by
  simp [dequeue, (qEmpty_eq_false_iff b).mpr h₀]

end Barber
end OpSys
