import OpSys.Lib.Ring
import OpSys.Lib.Stdio
import Mathlib.Logic.Function.Basic
import Mathlib.Data.Int.Order.Basic

/-!
# What producers and consumers share

The two programs that look for lines of a given length differ in their locks
only.  Here are the variables they have in common and the code that uses no lock.

A pointer is the number of the `malloc` call that returned it, so that memory
which has been freed and allocated again has a new name; `malloc` does not fail.
The heap holds the bytes written so far.  The end of a thread's start routine is
recorded for `pthread_join`.

## Main definitions

* `Config` — the configuration.
* `Thread` — the names of the threads.
* `Store` — the shared variables and the heap.
* `Store.malloc`, `Store.putByte`, `Store.examine`, `Store.free` — the code that
  fills a slot, and the code after a line has been taken.

## References

`lab7_synch_threads/unnamed_semaphore/main.c` and `lab7_synch_threads/mutex/main.c`.
-/

namespace OpSys
namespace ProdCons

/-- The configuration, with at least one consumer and one slot. -/
structure Config where
  /-- The number of producers. -/
  P : ℕ
  /-- The number of consumers. -/
  K : ℕ
  K_pos : 0 < K
  /-- The number of slots. -/
  N : ℕ
  N_pos : 0 < N
  L : ℤ
  searchType : ℤ
  fullInfo : ℤ

/-- The threads of a run. -/
inductive Thread (cfg : Config)
  | main
  | prod (p : Fin cfg.P)
  | cons (k : Fin cfg.K)
  deriving DecidableEq

/-- The pointer returned by the call of `malloc` with this number. -/
abbrev Ptr := ℕ

/-- `LINE_MAX`. -/
def lineMax : ℕ := 2048

/-- The shared variables. -/
structure Store (cfg : Config) where
  /-- The part of the file that has not been read. -/
  file : List UInt8
  sharedResource : Fin cfg.N → Option Ptr
  currProd : Fin cfg.N
  currCons : Fin cfg.N
  doneProducing : Bool
  /-- The bytes written into each block, `none` when it is not allocated. -/
  heap : Ptr → Option (List UInt8)
  /-- The number of calls of `malloc`. -/
  fresh : Ptr
  /-- The threads that have returned from their start routine. -/
  exited : Thread cfg → Bool
  /-- The lines "found line with length": the consumer and the length. -/
  found : List (Fin cfg.K × ℕ)

namespace Config

/-- These numbers of producers, consumers and slots, with `full_info` set. -/
def counts (P K N : ℕ) (hK : 0 < K) (hN : 0 < N) : Config := ⟨P, K, hK, N, hN, 0, 0, 1⟩

variable (cfg : Config)

/-- `found_len`. -/
def foundLen (len : ℤ) : Bool :=
  (cfg.searchType == -1 && decide (len < cfg.L)) || (cfg.searchType == 0 && len == cfg.L) ||
    (cfg.searchType == 1 && decide (len > cfg.L))

/-- The slot of the turn numbered `j`. -/
def slot (j : ℕ) : Fin cfg.N := Ring.place cfg.N_pos j

/-- `(i + 1) % N`. -/
def next (i : Fin cfg.N) : Fin cfg.N := Ring.next cfg.N_pos i

@[simp] theorem next_slot (j : ℕ) : cfg.next (cfg.slot j) = cfg.slot (j + 1) :=
  Ring.next_place cfg.N_pos j

/-- The shared variables after `set_up`, for a file with the bytes `text`. -/
def setUp (text : List UInt8) : Store cfg where
  file := text
  sharedResource := fun _ => none
  currProd := cfg.slot 0
  currCons := cfg.slot 0
  doneProducing := false
  heap := fun _ => none
  fresh := 0
  exited := fun _ => false
  found := []

end Config

namespace Store

variable {cfg : Config}

/-- `shared_resource[idx] = malloc(…)`. -/
def malloc (idx : Fin cfg.N) (m : Store cfg) : Store cfg :=
  { m with
    sharedResource := Function.update m.sharedResource idx (some m.fresh)
    heap := Function.update m.heap m.fresh (some [])
    fresh := m.fresh + 1 }

/-- One byte of `strcpy`. -/
def putByte (dst : Ptr) (b : UInt8) (m : Store cfg) : Store cfg :=
  { m with heap := Function.update m.heap dst ((m.heap dst).map (· ++ [b])) }

/-- `shared_resource[idx] = NULL`. -/
def clear (idx : Fin cfg.N) (m : Store cfg) : Store cfg :=
  { m with sharedResource := Function.update m.sharedResource idx none }

/-- `if (line != NULL && found_len((int) strlen(line))) printf(…)`. -/
def examine (k : Fin cfg.K) (line : Option Ptr) (m : Store cfg) : Store cfg :=
  match line with
  | none => m
  | some q =>
    let len := Stdio.strlen ((m.heap q).getD [])
    if cfg.foundLen len then { m with found := m.found ++ [(k, len)] } else m

/-- `free(line)`. -/
def free (line : Option Ptr) (m : Store cfg) : Store cfg :=
  match line with
  | none => m
  | some q => { m with heap := Function.update m.heap q none }

/-- The end of a start routine. -/
def exit (t : Thread cfg) (m : Store cfg) : Store cfg :=
  { m with exited := Function.update m.exited t true }

section Slots

variable {m : Store cfg} {idx i : Fin cfg.N} {q : Ptr}

/-- What is in the slots after a slot has been filled. -/
theorem malloc_eq_some (h : (m.malloc idx).sharedResource i = some q) :
    (i = idx ∧ q = m.fresh) ∨ (i ≠ idx ∧ m.sharedResource i = some q) := by
  have hupd : Function.update m.sharedResource idx (some m.fresh) i = some q := h
  by_cases hi : i = idx
  · rw [hi, Function.update_self] at hupd
    exact Or.inl ⟨hi, (Option.some.inj hupd).symm⟩
  · rw [Function.update_of_ne hi] at hupd
    exact Or.inr ⟨hi, hupd⟩

/-- What is in the slots after a slot has been emptied. -/
theorem clear_eq_some (h : (m.clear idx).sharedResource i = some q) :
    i ≠ idx ∧ m.sharedResource i = some q := by
  have hupd : Function.update m.sharedResource idx none i = some q := h
  by_cases hi : i = idx
  · rw [hi, Function.update_self] at hupd
    exact absurd hupd (Option.some_ne_none q).symm
  · rw [Function.update_of_ne hi] at hupd
    exact ⟨hi, hupd⟩

/-- An empty slot stays empty when one is emptied. -/
theorem clear_eq_none (h : m.sharedResource i = none) :
    (m.clear idx).sharedResource i = none := by
  by_contra hne
  obtain ⟨q, hq⟩ := Option.ne_none_iff_exists'.mp hne
  rw [(clear_eq_some hq).2] at h
  exact Option.some_ne_none q h

end Slots

section Examine

variable (k : Fin cfg.K) (line : Option Ptr) (m : Store cfg)

/-- `printf` changes no variable of the program. -/
theorem examine_eq : ∃ out, m.examine k line = { m with found := out } := by
  unfold examine
  cases line with
  | none => exact ⟨m.found, rfl⟩
  | some q =>
    simp only
    split
    · exact ⟨_, rfl⟩
    · exact ⟨m.found, rfl⟩

/-- `free` changes the block only. -/
theorem free_eq : ∃ heap, m.free line = { m with heap := heap } ∧
    ∀ q, line ≠ some q → heap q = m.heap q := by
  unfold free
  cases line with
  | none => exact ⟨m.heap, rfl, fun _ _ => rfl⟩
  | some q =>
    refine ⟨_, rfl, fun q' hq' => ?_⟩
    exact Function.update_of_ne (fun h => hq' (by rw [h])) _ _

end Examine

end Store

end ProdCons
end OpSys
