import Mathlib.Data.List.Basic
import Mathlib.Data.Nat.Notation

/-!
# Buffered output

A stream collects what is written to it and sends it on from the front.  When it does
so is its discipline: after each item, how many of the items it holds leave.

## Main definitions

* `Discipline`, `write` — the disciplines, and what writing a text sends and keeps.
* `lineBuffered`, `fullyBuffered` — the two usual disciplines.
* `EmptiesAt`, `Retains` — nothing is held after an item of a kind; something always is.
* `Discipline.comap` — a discipline that sees only a part of an item.

## Main results

* `sent_append_held` — nothing is lost, doubled or reordered.
* `EmptiesAt.held_write`, `Retains.mem_held_write` — what is held after a text.
* `sent_fullyBuffered` — what is sent before the buffer is full.
-/

namespace OpSys
namespace Buffered

variable {α : Type*}

/-- How many of the items that are held are sent on, asked after each item. -/
abbrev Discipline (α : Type*) := List α → ℕ

/-- What has been sent on, and what is held back. -/
structure Parts (α : Type*) where
  sent : List α
  held : List α
  deriving DecidableEq, Repr

/-- Write one item to a stream that holds `held`. -/
def put (d : Discipline α) (held : List α) (a : α) : Parts α :=
  ⟨(held ++ [a]).take (d (held ++ [a])), (held ++ [a]).drop (d (held ++ [a]))⟩

/-- Write a text, item by item. -/
def write (d : Discipline α) : List α → List α → Parts α
  | held, [] => ⟨[], held⟩
  | held, a :: text =>
    let first := put d held a
    let rest := write d first.held text
    ⟨first.sent ++ rest.sent, rest.held⟩

/-- A line buffer of `size` items: all is sent after an item that ends a line, and when the
buffer is full. -/
def lineBuffered (ends : α → Bool) (size : ℕ) : Discipline α := fun held =>
  if (held.getLast?.any ends) ∨ size ≤ held.length then held.length else 0

/-- A buffer of `size` items: an item that finds it full sends on those before it. -/
def fullyBuffered (size : ℕ) : Discipline α := fun held =>
  if size < held.length then held.length - 1 else 0

/-- Nothing is held after an item that ends a line. -/
def EmptiesAt (ends : α → Bool) (d : Discipline α) : Prop :=
  ∀ held a, ends a = true → (put d held a).held = []

/-- The item that was written last is always held. -/
def Retains (d : Discipline α) : Prop := ∀ held a, (put d held a).held ≠ []

variable {d : Discipline α} {ends : α → Bool}

@[simp] theorem write_nil (d : Discipline α) (held : List α) : write d held [] = ⟨[], held⟩ := rfl

@[simp] theorem write_cons (d : Discipline α) (held : List α) (a : α) (text : List α) :
    write d held (a :: text) = ⟨(put d held a).sent ++ (write d (put d held a).held text).sent,
      (write d (put d held a).held text).held⟩ := rfl

theorem put_sent_append_held (d : Discipline α) (held : List α) (a : α) :
    (put d held a).sent ++ (put d held a).held = held ++ [a] :=
  List.take_append_drop _ _

/-- **Nothing is lost, doubled or reordered.** -/
theorem sent_append_held (d : Discipline α) (held text : List α) :
    (write d held text).sent ++ (write d held text).held = held ++ text := by
  induction text generalizing held with
  | nil => simp
  | cons a text ih =>
    rw [write_cons, List.append_assoc, ih, ← List.append_assoc, put_sent_append_held,
      List.append_assoc, List.singleton_append]

theorem mem_held_write {held text : List α} {a : α} (h : a ∈ (write d held text).held) :
    a ∈ held ∨ a ∈ text := by
  rw [← List.mem_append, ← sent_append_held d]
  exact List.mem_append_right _ h

/-! ### What is held after a text -/

theorem held_write_append_singleton (d : Discipline α) (held text : List α) (a : α) :
    (write d held (text ++ [a])).held = (put d (write d held text).held a).held := by
  induction text generalizing held with
  | nil => rfl
  | cons b text ih =>
    rw [List.cons_append, write_cons, write_cons]
    exact ih _

theorem EmptiesAt.held_write (h : EmptiesAt ends d) (held text : List α) {a : α}
    (ha : ends a = true) : (write d held (text ++ [a])).held = [] := by
  rw [held_write_append_singleton]
  exact h _ a ha

/-- The last item of a text is held by a discipline that retains it. -/
theorem Retains.mem_held_write (h : Retains d) (held text : List α) (a : α) :
    a ∈ (write d held (text ++ [a])).held := by
  rw [held_write_append_singleton]
  have hlast := put_sent_append_held d (write d held text).held a
  obtain ⟨init, b, hb⟩ := List.eq_nil_or_concat'
    (put d (write d held text).held a).held |>.resolve_left (h _ a)
  rw [hb, ← List.append_assoc] at hlast
  -- what is held ends in the item that came last
  have hab : b = a := (List.append_inj' hlast rfl).2 |> List.singleton_inj.mp
  rw [hb, hab]
  exact List.mem_append_right _ (List.mem_singleton_self a)

theorem emptiesAt_lineBuffered (ends : α → Bool) (size : ℕ) :
    EmptiesAt ends (lineBuffered ends size) := by
  intro held a ha
  have hcount : lineBuffered ends size (held ++ [a]) = (held ++ [a]).length := by
    apply if_pos
    left
    rw [List.getLast?_append, List.getLast?_singleton]
    exact ha
  rw [put, hcount, List.drop_length]

theorem retains_fullyBuffered (size : ℕ) : Retains (fullyBuffered size : Discipline α) := by
  intro held a hnil
  have hle := List.drop_eq_nil_iff.mp hnil
  rw [List.length_append, List.length_singleton] at hle
  unfold fullyBuffered at hle
  split at hle
  · rw [List.length_append, List.length_singleton] at hle
    omega
  · omega

/-- A full buffer lets nothing through while it has room. -/
theorem sent_fullyBuffered {size : ℕ} {held text : List α}
    (h : held.length + text.length ≤ size) : (write (fullyBuffered size) held text).sent = [] := by
  induction text generalizing held with
  | nil => rfl
  | cons a text ih =>
    rw [List.length_cons] at h
    have hcount : fullyBuffered size (held ++ [a]) = 0 := by
      apply if_neg
      rw [List.length_append, List.length_singleton]
      omega
    have hput : put (fullyBuffered size) held a = ⟨[], held ++ [a]⟩ := by
      rw [put, hcount, List.take_zero, List.drop_zero]
    rw [write_cons, hput, List.nil_append]
    apply ih
    rw [List.length_append, List.length_singleton]
    omega

/-! ### Disciplines that see only a part of an item -/

section Comap

variable {β : Type*} {d : Discipline β} {ends : β → Bool}

/-- The discipline that sees `f a` of an item `a`. -/
def Discipline.comap (f : α → β) (d : Discipline β) : Discipline α := fun held => d (held.map f)

theorem map_held_put (f : α → β) (d : Discipline β) (held : List α) (a : α) :
    (put (d.comap f) held a).held.map f = (put d (held.map f) (f a)).held := by
  rw [put, put, List.map_drop, Discipline.comap, List.map_append, List.map_singleton]

theorem EmptiesAt.comap (h : EmptiesAt ends d) (f : α → β) :
    EmptiesAt (fun a => ends (f a)) (d.comap f) := by
  intro held a ha
  apply List.map_eq_nil_iff.mp
  rw [map_held_put]
  exact h _ _ ha

theorem Retains.comap (h : Retains d) (f : α → β) : Retains (d.comap f) := by
  intro held a hnil
  apply h (held.map f) (f a)
  rw [← map_held_put, hnil, List.map_nil]

end Comap

end Buffered
end OpSys
