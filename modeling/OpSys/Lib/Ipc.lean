import Mathlib.Data.Int.Notation
import Mathlib.Data.Nat.Notation
import Mathlib.Logic.Function.Basic

/-!
# System V message queues

The part of the kernel behind `msgget`, `msgsnd`, `msgrcv` and `msgctl`.  A queue has
an identifier, and may have a key under which `msgget` finds it until it is removed.
Identifiers are not used again; which one a new queue gets is up to the caller here.

## Main definitions

* `Slot`, `Kernel` — the queues.
* `Kernel.msgget`, `Kernel.msgsnd`, `Kernel.msgrcv`, `Kernel.rmid` — the calls.
* `Kernel.Ok` — keys lead to queues.
* `Kernel.Keeps` — what all calls but the creation of a queue have in common.

## Main results

* `msgget_cases` — what `msgget` does.
* `Got.keys_self`, `Got.live`, `Got.removed` — what `msgget` leaves of the queues and keys.
* `Ok.got`, `Ok.write`, `Ok.rmid` — the calls keep the keys in order.
-/

namespace OpSys
namespace Ipc

/-- What an identifier stands for. -/
inductive Slot (α : Type*)
  | unused
  | live (ms : List α)
  | removed

/-- The queues and their keys. -/
structure Kernel (α : Type*) where
  keys : ℤ → Option ℤ
  slot : ℤ → Slot α

/-- How a call ends. -/
inductive Call (β : Type*)
  | blocks
  | fails
  | returns (b : β)

/-- `IPC_PRIVATE`. -/
def ipcPrivate : ℤ := 0

variable {α : Type*}

/-- The queue exists. -/
def Slot.Live (s : Slot α) : Prop := ∃ ms, s = .live ms

theorem Slot.Live.used {s : Slot α} (h : s.Live) : s ≠ .unused := by
  obtain ⟨ms, rfl⟩ := h
  intro heq
  cases heq

/-- The messages in the queue. -/
def Slot.msgs : Slot α → List α
  | .live ms => ms
  | _ => []

namespace Kernel

/-- A new queue may get this identifier. -/
def Fresh (k : Kernel α) (id : ℤ) : Prop := 0 ≤ id ∧ k.slot id matches .unused

instance (k : Kernel α) (id : ℤ) : Decidable (k.Fresh id) :=
  inferInstanceAs (Decidable (_ ∧ _))

/-- An empty queue without a key. -/
def make (k : Kernel α) (id : ℤ) : Kernel α :=
  { k with slot := Function.update k.slot id (.live []) }

/-- The queue gets a key. -/
def enter (k : Kernel α) (key id : ℤ) : Kernel α :=
  { k with keys := Function.update k.keys key (some id) }

/-- `msgget(key, create ? IPC_CREAT | … : 0)`; a new queue would get `id`.  Nothing if
it cannot. -/
def msgget (k : Kernel α) (key : ℤ) (create : Bool) (id : ℤ) : Option (ℤ × Kernel α) :=
  if key = ipcPrivate then if k.Fresh id then some (id, k.make id) else none
  else
    match k.keys key with
    | some q => some (q, k)
    | none =>
      if create then if k.Fresh id then some (id, (k.make id).enter key id) else none
      else some (-1, k)

/-- The queue `q` holds `ms`. -/
def write (k : Kernel α) (q : ℤ) (ms : List α) : Kernel α :=
  { k with slot := Function.update k.slot q (.live ms) }

/-- `msgsnd` to a queue for `capacity` messages. -/
def msgsnd (k : Kernel α) (capacity : ℕ) (q : ℤ) (m : α) : Call (Kernel α) :=
  match k.slot q with
  | .live ms => if ms.length < capacity then .returns (k.write q (ms ++ [m])) else .blocks
  | _ => .fails

/-- `msgrcv` of the first message. -/
def msgrcv (k : Kernel α) (q : ℤ) : Call (α × Kernel α) :=
  match k.slot q with
  | .live (m :: ms) => .returns (m, k.write q ms)
  | .live [] => .blocks
  | _ => .fails

/-- `msgctl(q, IPC_RMID, …)`; it has no effect if there is no queue. -/
def rmid (k : Kernel α) (q : ℤ) : Kernel α where
  keys key := if k.keys key = some q then none else k.keys key
  slot := match k.slot q with
    | .live _ => Function.update k.slot q .removed
    | _ => k.slot

/-- No queue exists. -/
def empty : Kernel α := ⟨fun _ => none, fun _ => .unused⟩

/-! ### What the calls do -/

section Calls

variable {k k' : Kernel α} {key q id : ℤ} {create : Bool}

theorem Fresh.slot_eq (h : k.Fresh id) : k.slot id = .unused := by
  have hslot := h.2
  cases hs : k.slot id with
  | unused => rfl
  | live ms => simp [hs] at hslot
  | removed => simp [hs] at hslot

/-- The ways in which `msgget` returns. -/
inductive Got (k : Kernel α) (key : ℤ) (create : Bool) (id : ℤ) : ℤ → Kernel α → Prop
  | unnamed (hkey : key = ipcPrivate) (hfresh : k.Fresh id) : Got k key create id id (k.make id)
  | found (q : ℤ) (hkey : key ≠ ipcPrivate) (hq : k.keys key = some q) : Got k key create id q k
  | made (hkey : key ≠ ipcPrivate) (hnone : k.keys key = none) (hcreate : create = true)
      (hfresh : k.Fresh id) : Got k key create id id ((k.make id).enter key id)
  | missing (hkey : key ≠ ipcPrivate) (hnone : k.keys key = none) (hcreate : create = false) :
      Got k key create id (-1) k

theorem msgget_cases (h : k.msgget key create id = some (q, k')) : Got k key create id q k' := by
  unfold msgget at h
  split at h
  · -- `IPC_PRIVATE`
    rename_i hkey
    split at h
    · rename_i hfresh
      obtain ⟨rfl, rfl⟩ := Prod.mk.inj (Option.some.inj h)
      exact .unnamed hkey hfresh
    · exact absurd h (Option.some_ne_none _).symm
  · rename_i hkey
    -- a key that is in use, or that is not
    cases hq : k.keys key with
    | some q' =>
      rw [hq] at h
      obtain ⟨rfl, rfl⟩ := Prod.mk.inj (Option.some.inj h)
      exact .found q' hkey hq
    | none =>
      rw [hq] at h
      cases create with
      | true =>
        simp only [if_true] at h
        split at h
        · rename_i hfresh
          obtain ⟨rfl, rfl⟩ := Prod.mk.inj (Option.some.inj h)
          exact .made hkey hq rfl hfresh
        · exact absurd h (Option.some_ne_none _).symm
      | false =>
        simp only [Bool.false_eq_true, if_false] at h
        obtain ⟨rfl, rfl⟩ := Prod.mk.inj (Option.some.inj h)
        exact .missing hkey hq rfl

theorem msgget_found (hkey : key ≠ ipcPrivate) (hq : k.keys key = some q) (create : Bool)
    (id : ℤ) : k.msgget key create id = some (q, k) := by
  rw [msgget, if_neg hkey, hq]

theorem msgget_made (hkey : key ≠ ipcPrivate) (hnone : k.keys key = none) (hfresh : k.Fresh id) :
    k.msgget key true id = some (id, (k.make id).enter key id) := by
  rw [msgget, if_neg hkey, hnone]
  exact if_pos hfresh

theorem fresh_empty (hid : 0 ≤ id) : (empty : Kernel α).Fresh id := ⟨hid, rfl⟩

theorem msgsnd_returns {capacity : ℕ} {m : α} (h : k.msgsnd capacity q m = .returns k') :
    ∃ ms, k.slot q = .live ms ∧ ms.length < capacity ∧ k' = k.write q (ms ++ [m]) := by
  unfold msgsnd at h
  split at h
  · rename_i ms hslot
    split at h
    · rename_i hroom
      exact ⟨ms, hslot, hroom, (Call.returns.inj h).symm⟩
    · cases h
  · cases h

theorem msgsnd_fails {capacity : ℕ} {m : α} :
    k.msgsnd capacity q m = .fails ↔ ¬(k.slot q).Live := by
  unfold msgsnd
  cases hslot : k.slot q with
  | live ms =>
    have hlive : (Slot.live ms).Live := ⟨ms, rfl⟩
    simp only [hlive, not_true_eq_false, iff_false]
    split
    · exact fun h => nomatch h
    · exact fun h => nomatch h
  | unused => simp [Slot.Live]
  | removed => simp [Slot.Live]

theorem msgrcv_returns {r : α × Kernel α} (h : k.msgrcv q = .returns r) :
    ∃ ms, k.slot q = .live (r.1 :: ms) ∧ r.2 = k.write q ms := by
  unfold msgrcv at h
  split at h
  · rename_i m ms hslot
    obtain rfl := Call.returns.inj h
    exact ⟨ms, hslot, rfl⟩
  · cases h
  · cases h

theorem msgrcv_fails : k.msgrcv q = .fails ↔ ¬(k.slot q).Live := by
  unfold msgrcv
  cases hslot : k.slot q with
  | live ms =>
    cases ms with
    | nil => simp [Slot.Live]
    | cons m ms => simp [Slot.Live]
  | unused => simp [Slot.Live]
  | removed => simp [Slot.Live]

end Calls

/-! ### Slots after a call -/

section Slots

variable {k : Kernel α} {key q q' id : ℤ}

@[simp] theorem make_slot_self : (k.make id).slot id = .live [] := Function.update_self ..

theorem make_slot_of_ne (h : q ≠ id) : (k.make id).slot q = k.slot q := Function.update_of_ne h ..

@[simp] theorem make_keys : (k.make id).keys = k.keys := rfl

@[simp] theorem enter_slot : (k.enter key id).slot = k.slot := rfl

@[simp] theorem enter_keys_self : (k.enter key id).keys key = some id := Function.update_self ..

theorem enter_keys_of_ne {key' : ℤ} (h : key' ≠ key) : (k.enter key id).keys key' = k.keys key' :=
  Function.update_of_ne h ..

@[simp] theorem write_slot_self (ms : List α) : (k.write q ms).slot q = .live ms :=
  Function.update_self ..

theorem write_slot_of_ne (h : q' ≠ q) (ms : List α) : (k.write q ms).slot q' = k.slot q' :=
  Function.update_of_ne h ..

@[simp] theorem write_keys (ms : List α) : (k.write q ms).keys = k.keys := rfl

theorem rmid_slot_of_ne (h : q' ≠ q) : (k.rmid q).slot q' = k.slot q' := by
  unfold rmid
  cases k.slot q with
  | live ms => exact Function.update_of_ne h ..
  | unused => rfl
  | removed => rfl

/-- Without a queue there is nothing to remove. -/
theorem rmid_slot_of_not_live (h : ¬(k.slot q).Live) : (k.rmid q).slot = k.slot := by
  unfold rmid
  cases hslot : k.slot q with
  | live ms => exact absurd ⟨ms, hslot⟩ h
  | unused => rfl
  | removed => rfl

theorem rmid_slot_self : ¬((k.rmid q).slot q).Live := by
  unfold rmid
  cases hslot : k.slot q with
  | live ms =>
    rintro ⟨ms', hlive⟩
    simp at hlive
  | unused =>
    rintro ⟨ms', hlive⟩
    exact nomatch hslot.symm.trans hlive
  | removed =>
    rintro ⟨ms', hlive⟩
    exact nomatch hslot.symm.trans hlive

theorem rmid_slot_eq_unused (h : (k.rmid q).slot q' = .unused) : k.slot q' = .unused := by
  by_cases hq : q' = q
  · subst hq
    unfold rmid at h
    cases hslot : k.slot q' with
    | live ms => simp [hslot] at h
    | unused => rfl
    | removed => simp [hslot] at h
  · rwa [rmid_slot_of_ne hq] at h

@[simp] theorem rmid_keys (key : ℤ) :
    (k.rmid q).keys key = if k.keys key = some q then none else k.keys key := rfl

end Slots

/-! ### Keys -/

/-- Every key leads to a queue, and no queue has the identifier -1. -/
structure Ok (k : Kernel α) : Prop where
  keyed : ∀ key q, k.keys key = some q → (k.slot q).Live
  nonneg : ∀ q, (k.slot q).Live → 0 ≤ q

theorem Ok.key_nonneg {k : Kernel α} (h : k.Ok) {key q : ℤ} (hkey : k.keys key = some q) :
    0 ≤ q := h.nonneg q (h.keyed key q hkey)

theorem ok_empty : (empty : Kernel α).Ok where
  keyed _ _ h := absurd h (Option.some_ne_none _).symm
  nonneg _ h := by
    obtain ⟨ms, hms⟩ := h
    cases hms

section Keys

variable {k k' : Kernel α} {key q id : ℤ} {create : Bool}

theorem Ok.make (h : k.Ok) (hfresh : k.Fresh id) : (k.make id).Ok where
  keyed key q hkey := by
    by_cases hqid : q = id
    · exact ⟨[], by rw [hqid, make_slot_self]⟩
    · rw [make_slot_of_ne hqid]
      exact h.keyed key q hkey
  nonneg q hlive := by
    by_cases hqid : q = id
    · exact hqid ▸ hfresh.1
    · exact h.nonneg q (make_slot_of_ne (k := k) hqid ▸ hlive)

theorem Ok.got (h : k.Ok) (hget : k.Got key create id q k') : k'.Ok := by
  cases hget with
  | unnamed hkey hfresh => exact h.make hfresh
  | found _ hkey hq => exact h
  | made hkey hnone hcreate hfresh =>
    refine ⟨fun key' q' hkey' => ?_, (h.make hfresh).nonneg⟩
    by_cases hkk : key' = key
    · subst hkk
      rw [enter_keys_self] at hkey'
      obtain rfl := Option.some.inj hkey'
      exact ⟨[], by rw [enter_slot, make_slot_self]⟩
    · rw [enter_keys_of_ne hkk] at hkey'
      exact (h.make hfresh).keyed key' q' hkey'
  | missing hkey hnone hcreate => exact h

/-- A queue that exists stays as it is when another is looked for. -/
theorem Got.slot_eq (hget : k.Got key create id q k') {q' : ℤ} (hlive : k.slot q' ≠ .unused) :
    k'.slot q' = k.slot q' := by
  have hne : k.Fresh id → q' ≠ id := by
    rintro hfresh rfl
    exact hlive hfresh.slot_eq
  cases hget with
  | unnamed hkey hfresh => exact make_slot_of_ne (hne hfresh)
  | found _ hkey hq => rfl
  | made hkey hnone hcreate hfresh => exact make_slot_of_ne (hne hfresh)
  | missing hkey hnone hcreate => rfl

/-- `IPC_CREAT` leaves the queue that is returned under its key. -/
theorem Got.keys_self (hget : k.Got key true id q k') (hkey : key ≠ ipcPrivate) :
    k'.keys key = some q := by
  cases hget with
  | unnamed hprivate hfresh => exact absurd hprivate hkey
  | found _ _ hq => exact hq
  | made _ hnone hcreate hfresh => exact enter_keys_self
  | missing _ hnone hcreate => cases hcreate

/-- The other keys stay as they are. -/
theorem Got.keys_of_ne (hget : k.Got key create id q k') {key' : ℤ} (hne : key' ≠ key) :
    k'.keys key' = k.keys key' := by
  cases hget with
  | unnamed hkey hfresh => rfl
  | found _ hkey hq => rfl
  | made hkey hnone hcreate hfresh => rw [enter_keys_of_ne hne, make_keys]
  | missing hkey hnone hcreate => rfl

/-- Without `IPC_CREAT` no key is new. -/
theorem Got.keys_eq (hget : k.Got key false id q k') : k'.keys = k.keys := by
  cases hget with
  | unnamed hkey hfresh => rfl
  | found _ hkey hq => rfl
  | made hkey hnone hcreate hfresh => cases hcreate
  | missing hkey hnone hcreate => rfl

/-- A key that leads to a queue still does. -/
theorem Got.keys_of_some (hget : k.Got key create id q k') {key' q' : ℤ}
    (hq' : k.keys key' = some q') : k'.keys key' = some q' := by
  by_cases hne : key' = key
  · subst hne
    cases hget with
    | unnamed hkey hfresh => exact hq'
    | found _ hkey hq => exact hq'
    | made hkey hnone hcreate hfresh => exact absurd (hq'.symm.trans hnone) (Option.some_ne_none _)
    | missing hkey hnone hcreate => exact hq'
  · rw [hget.keys_of_ne hne, hq']

/-- `msgget` removes no queue. -/
theorem Got.removed (hget : k.Got key create id q k') {q' : ℤ} (hq' : k'.slot q' = .removed) :
    k.slot q' = .removed := by
  have hmake : (k.make id).slot q' = .removed → k.slot q' = .removed := by
    intro hq'
    have hne : q' ≠ id := by
      rintro rfl
      rw [make_slot_self] at hq'
      cases hq'
    rwa [make_slot_of_ne hne] at hq'
  cases hget with
  | unnamed hkey hfresh => exact hmake hq'
  | found _ hkey hq => exact hq'
  | made hkey hnone hcreate hfresh => exact hmake hq'
  | missing hkey hnone hcreate => exact hq'

/-- A queue that is there after `msgget`, and had been made before, was there before. -/
theorem Got.live (hget : k.Got key create id q k') (h : k.Ok) {q' : ℤ}
    (hq' : q' = -1 ∨ k.slot q' ≠ .unused) (hlive : (k'.slot q').Live) : (k.slot q').Live := by
  rcases hq' with rfl | hused
  · exact absurd ((h.got hget).nonneg _ hlive) (by decide)
  · rwa [← hget.slot_eq hused]

/-- The identifier that `msgget` returns is that of a queue. -/
theorem Got.used (hget : k.Got key create id q k') (h : k.Ok) (hq : q ≠ -1) :
    k'.slot q ≠ .unused := by
  cases hget with
  | unnamed hkey hfresh => exact Slot.Live.used ⟨[], make_slot_self⟩
  | found _ hkey hfound => exact (h.keyed _ _ hfound).used
  | made hkey hnone hcreate hfresh => exact Slot.Live.used ⟨[], make_slot_self⟩
  | missing hkey hnone hcreate => exact absurd rfl hq

/-- A key that is not in use gets a new queue. -/
theorem Got.fresh (hget : k.Got key true id q k') (hkey : key ≠ ipcPrivate)
    (hnone : k.keys key = none) : 0 ≤ q ∧ k.slot q = .unused ∧ k'.slot q = .live [] := by
  cases hget with
  | unnamed hprivate hfresh => exact absurd hprivate hkey
  | found _ _ hq => exact absurd (hq.symm.trans hnone) (Option.some_ne_none _)
  | made _ _ hcreate hfresh => exact ⟨hfresh.1, hfresh.slot_eq, make_slot_self⟩
  | missing _ _ hcreate => cases hcreate

/-- What is found without `IPC_CREAT` was there under the key. -/
theorem Got.found_of_ne (hget : k.Got key false id q k') (hkey : key ≠ ipcPrivate) (hq : q ≠ -1) :
    k' = k ∧ k.keys key = some q := by
  cases hget with
  | unnamed hprivate hfresh => exact absurd hprivate hkey
  | found _ _ hfound => exact ⟨rfl, hfound⟩
  | made _ hnone hcreate hfresh => cases hcreate
  | missing _ hnone hcreate => exact absurd rfl hq

/-- No key is new, and no queue is forgotten. -/
structure Keeps (k k' : Kernel α) : Prop where
  keys : ∀ key q, k'.keys key = some q → k.keys key = some q
  used : ∀ q, k.slot q ≠ .unused → k'.slot q ≠ .unused

theorem Got.keeps (hget : k.Got key false id q k') : Keeps k k' where
  keys _ _ hkey' := by rwa [hget.keys_eq] at hkey'
  used q' hne := by rwa [hget.slot_eq hne]

theorem keeps_write (k : Kernel α) (q : ℤ) (ms : List α) : Keeps k (k.write q ms) where
  keys _ _ h := h
  used q' hne := by
    by_cases hqq : q' = q
    · rw [hqq, write_slot_self]
      exact fun heq => nomatch heq
    · rwa [write_slot_of_ne hqq]

theorem keeps_rmid (k : Kernel α) (q : ℤ) : Keeps k (k.rmid q) where
  keys key q' h := by
    rw [rmid_keys] at h
    split at h
    · exact absurd h (Option.some_ne_none _).symm
    · exact h
  used _ hne heq := hne (rmid_slot_eq_unused heq)

theorem Ok.write (h : k.Ok) (hlive : (k.slot q).Live) (ms : List α) : (k.write q ms).Ok where
  keyed key q' hkey := by
    by_cases hqq : q' = q
    · exact ⟨ms, by rw [hqq, write_slot_self]⟩
    · rw [write_slot_of_ne hqq]
      exact h.keyed key q' hkey
  nonneg q' hlive' := by
    by_cases hqq : q' = q
    · exact hqq ▸ h.nonneg q hlive
    · exact h.nonneg q' (write_slot_of_ne (k := k) hqq ms ▸ hlive')

theorem Ok.rmid (h : k.Ok) (q : ℤ) : (k.rmid q).Ok where
  keyed key q' hkey := by
    rw [rmid_keys] at hkey
    split at hkey
    · exact absurd hkey (Option.some_ne_none _).symm
    · rename_i hne
      have hqq : q' ≠ q := fun heq => hne (heq ▸ hkey)
      rw [rmid_slot_of_ne hqq]
      exact h.keyed key q' hkey
  nonneg q' hlive := by
    by_cases hqq : q' = q
    · exact absurd (hqq ▸ hlive) rmid_slot_self
    · exact h.nonneg q' (rmid_slot_of_ne (k := k) hqq ▸ hlive)

/-! ### Messages after a call -/

theorem Ok.msgs_of_neg (h : k.Ok) (hq : q < 0) : (k.slot q).msgs = [] := by
  cases hslot : k.slot q with
  | live ms =>
    have := h.nonneg q ⟨ms, hslot⟩
    omega
  | unused => rfl
  | removed => rfl

@[simp] theorem msgs_rmid_self : ((k.rmid q).slot q).msgs = [] := by
  cases hslot : (k.rmid q).slot q with
  | live ms => exact absurd ⟨ms, hslot⟩ rmid_slot_self
  | unused => rfl
  | removed => rfl

theorem mem_msgs_write {ms : List α} {q' : ℤ} {m : α} (h : m ∈ ((k.write q ms).slot q').msgs) :
    m ∈ ms ∨ m ∈ (k.slot q').msgs := by
  by_cases hq : q' = q
  · rw [hq, write_slot_self] at h
    exact .inl h
  · rw [write_slot_of_ne hq] at h
    exact .inr h

theorem mem_msgs_rmid {q' : ℤ} {m : α} (h : m ∈ ((k.rmid q).slot q').msgs) :
    m ∈ (k.slot q').msgs := by
  by_cases hq : q' = q
  · rw [hq, msgs_rmid_self] at h
    cases h
  · rwa [rmid_slot_of_ne hq] at h

/-- A queue that is made is empty. -/
theorem Got.mem_msgs (hget : k.Got key create id q k') {q' : ℤ} {m : α}
    (h : m ∈ (k'.slot q').msgs) : m ∈ (k.slot q').msgs := by
  have hmake : m ∈ ((k.make id).slot q').msgs → m ∈ (k.slot q').msgs := by
    intro hm
    by_cases hq : q' = id
    · rw [hq, make_slot_self] at hm
      cases hm
    · rwa [make_slot_of_ne hq] at hm
  cases hget with
  | unnamed hkey hfresh => exact hmake h
  | found _ hkey hq => exact h
  | made hkey hnone hcreate hfresh => exact hmake h
  | missing hkey hnone hcreate => exact h

/-- The messages of a queue that exists, or of none, when another is looked for. -/
theorem Ok.msgs_got (h : k.Ok) (hget : k.Got key create id q k') {q' : ℤ}
    (hq : q' < 0 ∨ k.slot q' ≠ .unused) : (k'.slot q').msgs = (k.slot q').msgs := by
  rcases hq with hneg | hused
  · rw [h.msgs_of_neg hneg, (h.got hget).msgs_of_neg hneg]
  · rw [hget.slot_eq hused]

/-- The messages of another queue, or of none, when a queue is removed. -/
theorem Ok.msgs_rmid (h : k.Ok) {q' : ℤ} (hq : q' < 0 ∨ q' ≠ q) :
    ((k.rmid q).slot q').msgs = (k.slot q').msgs := by
  rcases hq with hneg | hne
  · rw [h.msgs_of_neg hneg, (h.rmid q).msgs_of_neg hneg]
  · rw [rmid_slot_of_ne hne]

end Keys

end Kernel

end Ipc
end OpSys
