import OpSys.ProdCons.Books
import Mathlib.Data.List.Count
import Mathlib.Data.List.FinRange

/-!
# The blocks and the reports

Every block that `malloc` has returned is in one place until it is freed: in a slot, or
in the variable `line` of the consumer that took it out.  A consumer reports on a line
after it has left the critical section, and frees it behind the report.  What is here
uses no lock, so it serves both programs.

## Main definitions

* `Hand` — what a consumer has in its variable `line`.
* `Take.report`, `Store.printed` — the reports that are due and those that are out.
* `Store.cleanUp` — the loop of `clean_up` over the slots.
* `Place` — where a block may be.
* `Accounted` — every block is in one place, and the reports are those of the takes.

## Main results

* `Accounted.malloc`, `Accounted.take`, `Accounted.examine`, `Accounted.free` — the steps
  that move a block or print a report.
* `Accounted.cleanUp` — with nothing in the consumers' hands `clean_up` frees what is left.
* `Accounted.exists_place` — the place of a block.
* `Accounted.found_lengths`, `AllTaken.reports_perm` — all reports together.

## References

`lab7_synch_threads/unnamed_semaphore/main.c` and `lab7_synch_threads/mutex/main.c`.
-/

namespace OpSys
namespace ProdCons

variable {cfg : Config}

/-- What a consumer has in its variable `line`. -/
inductive Hand
  | empty
  /-- A line that it has still to examine. -/
  | taken (line : Option Ptr)
  /-- A line that it has still to free. -/
  | examined (line : Option Ptr)
  deriving DecidableEq

/-- The block that is in a consumer's hand. -/
def Hand.ptr : Hand → Option Ptr
  | .empty => none
  | .taken line => line
  | .examined line => line

/-- What the consumers have in hand, `f` telling it from a consumer's local state. -/
def handsOf {L : Thread cfg → Type*} (f : (k : Fin cfg.K) → L (.cons k) → Hand)
    (loc : (t : Thread cfg) → L t) (k : Fin cfg.K) : Hand :=
  f k (loc (.cons k))

/-- The length that is reported for a take, if it is. -/
def Take.report (x : Take cfg) : Option ℕ :=
  if x.ptr.isSome && cfg.foundLen (Stdio.strlen (x.text.getD [])) then
    some (Stdio.strlen (x.text.getD []))
  else none

/-- The length that is reported for a line, if it meets the search. -/
def Config.lineReport (cfg : Config) (line : List UInt8) : Option ℕ :=
  if cfg.foundLen (Stdio.strlen line) then some (Stdio.strlen line) else none

/-- A line that has been read is a piece of the file. -/
theorem getElem?_fileLines {h : History cfg} {text rest : List UInt8} {i : ℕ} {p : Fin cfg.P}
    {line : List UInt8}
    (hreads : h.lines.map Prod.snd ++ Stdio.fileLines lineMax rest =
      Stdio.fileLines lineMax text)
    (hline : h.lines[i]? = some (p, line)) :
    (Stdio.fileLines lineMax text)[i]? = some line := by
  have hread : (h.lines.map Prod.snd)[i]? = some line := by
    rw [List.getElem?_map, hline]
    rfl
  rw [← hreads, List.getElem?_append_left (List.getElem?_eq_some_iff.mp hread).1, hread]

/-- The lengths that consumer `k` has printed. -/
def Store.printed (m : Store cfg) (k : Fin cfg.K) : List ℕ :=
  (m.found.filter (·.1 = k)).map Prod.snd

/-- The takes of consumer `k`. -/
def History.takesOf (h : History cfg) (k : Fin cfg.K) : List (Take cfg) :=
  h.takes.filter (·.taker = k)

/-- `if (shared_resource[n] != NULL) free(shared_resource[n])`; `none` if the block has
been freed before. -/
def Store.freeSlot (m : Store cfg) (n : Fin cfg.N) : Option (Store cfg) :=
  match m.sharedResource n with
  | none => some m
  | some q => if m.heap q = none then none else some (m.free (some q))

/-- The loop of `clean_up` over the slots. -/
def Store.cleanUp (m : Store cfg) : Option (Store cfg) :=
  (List.finRange cfg.N).foldlM Store.freeSlot m

/-- Where a block may be. -/
inductive Place (cfg : Config)
  | slot (i : Fin cfg.N)
  | hand (k : Fin cfg.K)
  deriving DecidableEq

/-- Block `q` is in the place. -/
def Place.Has (m : Store cfg) (hand : Fin cfg.K → Hand) (q : Ptr) : Place cfg → Prop
  | .slot i => m.sharedResource i = some q
  | .hand k => (hand k).ptr = some q

/-- The reports of consumer `k` are those of its takes, the last one left out while it has
still to examine the line. -/
def Reported (m : Store cfg) (h : History cfg) (k : Fin cfg.K) : Hand → Prop
  | .taken line => ∃ done x, h.takesOf k = done ++ [x] ∧ x.ptr = line ∧
      x.text = line.bind m.heap ∧ m.printed k = done.filterMap Take.report
  | _ => m.printed k = (h.takesOf k).filterMap Take.report

/-- Every block is in one place, and the reports are those of the takes. -/
structure Accounted (m : Store cfg) (h : History cfg) (hand : Fin cfg.K → Hand) : Prop where
  fresh : ∀ q, m.heap q ≠ none → q < m.fresh
  live : ∀ q, m.heap q ≠ none ↔
    (∃ i, m.sharedResource i = some q) ∨ ∃ k, (hand k).ptr = some q
  slot_once : ∀ i j q, m.sharedResource i = some q → m.sharedResource j = some q → i = j
  hand_once : ∀ k k' q, (hand k).ptr = some q → (hand k').ptr = some q → k = k'
  apart : ∀ i k q, m.sharedResource i = some q → (hand k).ptr ≠ some q
  reported : ∀ k, Reported m h k (hand k)

section Hands

variable {L : Thread cfg → Type*} {f : (k : Fin cfg.K) → L (.cons k) → Hand}
  {loc : (t : Thread cfg) → L t}

/-- A step of a thread that is no consumer. -/
theorem handsOf_of_ne {t : Thread cfg} {l : L t} (ht : ∀ k, .cons k ≠ t) :
    handsOf f (Function.update loc t l) = handsOf f loc := by
  funext k
  rw [handsOf, Function.update_of_ne (ht k), handsOf]

/-- A step of a consumer. -/
theorem handsOf_cons {k : Fin cfg.K} {l : L (.cons k)} :
    handsOf f (Function.update loc (.cons k) l) =
      Function.update (handsOf f loc) k (f k l) := by
  funext k'
  by_cases hk : k' = k
  · subst hk
    simp [handsOf]
  · rw [Function.update_of_ne hk, handsOf, Function.update_of_ne (by simpa using hk), handsOf]

end Hands

section Steps

variable {m m' : Store cfg} {h h' : History cfg} {hand : Fin cfg.K → Hand}

theorem accounted_start (text : List UInt8) :
    Accounted (cfg.setUp text) (.empty cfg) fun _ => .empty where
  fresh q hq := absurd rfl hq
  live q := by simp [Config.setUp, Hand.ptr]
  slot_once i j q hi := absurd hi (Option.some_ne_none q).symm
  hand_once k k' q hk := absurd hk (Option.some_ne_none q).symm
  apart i k q hi := absurd hi (Option.some_ne_none q).symm
  reported k := rfl

/-- The reports of a consumer stay what they are when the blocks in hand and the books of
its takes do. -/
theorem Reported.of_eq {k : Fin cfg.K} {c : Hand} (hr : Reported m h k c)
    (hfound : m'.printed k = m.printed k) (htakes : h'.takesOf k = h.takesOf k)
    (hheap : ∀ q, c.ptr = some q → m'.heap q = m.heap q) : Reported m' h' k c := by
  cases c with
  | empty | examined line =>
    show m'.printed k = (h'.takesOf k).filterMap Take.report
    rw [hfound, htakes]
    exact hr
  | taken line =>
    obtain ⟨done, x, htook, hptr, htext, hprinted⟩ := hr
    refine ⟨done, x, htakes.trans htook, hptr, ?_, hfound.trans hprinted⟩
    rw [htext]
    cases line with
    | none => rfl
    | some q => exact (hheap q rfl).symm

/-- A step that touches no block and prints nothing. -/
theorem Accounted.of_eq (ha : Accounted m h hand) (hheap : m'.heap = m.heap)
    (hslots : m'.sharedResource = m.sharedResource) (hfresh : m'.fresh = m.fresh)
    (hfound : m'.found = m.found) (htakes : h'.takes = h.takes) : Accounted m' h' hand where
  fresh := by rw [hheap, hfresh]; exact ha.fresh
  live := by rw [hheap, hslots]; exact ha.live
  slot_once := by rw [hslots]; exact ha.slot_once
  hand_once := ha.hand_once
  apart := by rw [hslots]; exact ha.apart
  reported k := (ha.reported k).of_eq (by rw [Store.printed, hfound]; rfl)
    (by rw [History.takesOf, htakes]; rfl) fun _ _ => by rw [hheap]

/-- `malloc`: the new block is in a slot that was empty. -/
theorem Accounted.malloc (ha : Accounted m h hand) {idx : Fin cfg.N}
    (hempty : m.sharedResource idx = none) (htakes : h'.takes = h.takes) :
    Accounted (m.malloc idx) h' hand := by
  -- a block that exists is not the new one
  have hold : ∀ q, (∃ i, m.sharedResource i = some q) ∨ (∃ k, (hand k).ptr = some q) →
      q ≠ m.fresh := fun q hq => Nat.ne_of_lt (ha.fresh q ((ha.live q).mpr hq))
  have hheap : ∀ q, q ≠ m.fresh → (m.malloc idx).heap q = m.heap q :=
    fun q hq => Function.update_of_ne hq _ _
  have hslot : ∀ i, i ≠ idx → (m.malloc idx).sharedResource i = m.sharedResource i :=
    fun i hi => Function.update_of_ne hi _ _
  have hidx : (m.malloc idx).sharedResource idx = some m.fresh := Function.update_self _ _ _
  refine ⟨?_, ?_, ?_, ha.hand_once, ?_, ?_⟩
  · intro q hq
    by_cases hnew : q = m.fresh
    · exact hnew ▸ Nat.lt_succ_self _
    · rw [hheap q hnew] at hq
      exact Nat.lt_succ_of_lt (ha.fresh q hq)
  · intro q
    by_cases hnew : q = m.fresh
    · subst hnew
      have hsome : (m.malloc idx).heap m.fresh = some [] := Function.update_self _ _ _
      exact ⟨fun _ => Or.inl ⟨idx, hidx⟩, fun _ => by rw [hsome]; exact Option.some_ne_none _⟩
    · rw [hheap q hnew, ha.live q]
      refine or_congr_left ⟨?_, ?_⟩
      · rintro ⟨i, hi⟩
        have hne : i ≠ idx := fun heq => by
          rw [heq, hempty] at hi
          exact Option.some_ne_none q hi.symm
        exact ⟨i, (hslot i hne).trans hi⟩
      · rintro ⟨i, hi⟩
        rcases Store.malloc_eq_some hi with ⟨-, hq⟩ | ⟨-, hi⟩
        · exact absurd hq hnew
        · exact ⟨i, hi⟩
  · intro i j q hi hj
    rcases Store.malloc_eq_some hi with ⟨rfl, rfl⟩ | ⟨-, hi'⟩
    · rcases Store.malloc_eq_some hj with ⟨rfl, -⟩ | ⟨-, hj'⟩
      · rfl
      · exact absurd rfl (hold _ (Or.inl ⟨j, hj'⟩))
    · rcases Store.malloc_eq_some hj with ⟨-, rfl⟩ | ⟨-, hj'⟩
      · exact absurd rfl (hold _ (Or.inl ⟨i, hi'⟩))
      · exact ha.slot_once i j q hi' hj'
  · intro i k q hi hk
    rcases Store.malloc_eq_some hi with ⟨-, rfl⟩ | ⟨-, hi'⟩
    · exact hold _ (Or.inr ⟨k, hk⟩) rfl
    · exact ha.apart i k q hi' hk
  · intro k
    refine (ha.reported k).of_eq rfl (by rw [History.takesOf, htakes]; rfl) fun q hq => ?_
    exact hheap q (hold q (Or.inr ⟨k, hq⟩))

/-- A byte is written to a block that is in a slot. -/
theorem Accounted.putByte (ha : Accounted m h hand) {idx : Fin cfg.N} {dst : Ptr}
    (hslot : m.sharedResource idx = some dst) (c : UInt8) :
    Accounted (m.putByte dst c) h hand := by
  have hne : ∀ q, (m.putByte dst c).heap q ≠ none ↔ m.heap q ≠ none := by
    intro q
    show Function.update m.heap dst ((m.heap dst).map (· ++ [c])) q ≠ none ↔ _
    by_cases hq : q = dst
    · subst hq
      simp
    · rw [Function.update_of_ne hq]
  refine ⟨fun q hq => ha.fresh q ((hne q).mp hq), fun q => (hne q).trans (ha.live q),
    ha.slot_once, ha.hand_once, ha.apart, fun k => ?_⟩
  refine (ha.reported k).of_eq rfl rfl fun q hq => Function.update_of_ne ?_ _ _
  rintro rfl
  exact ha.apart idx k q hslot hq

/-- The takes of a consumer that has just made one. -/
theorem takesOf_take {k : Fin cfg.K} {j : ℕ} (hturn : h.turn k = some j) (line : Option Ptr)
    (text : Option (List UInt8)) :
    (h.take k line text).takesOf k = h.takesOf k ++ [⟨k, j, line, text⟩] := by
  rw [History.takesOf, take_eq hturn, List.filter_append]
  simp [History.takesOf]

/-- The takes of the other consumers. -/
theorem takesOf_take_of_ne {k k' : Fin cfg.K} (hk : k' ≠ k) (line : Option Ptr)
    (text : Option (List UInt8)) : (h.take k line text).takesOf k' = h.takesOf k' := by
  cases hturn : h.turn k with
  | none => rw [History.take, hturn]
  | some j =>
    rw [History.takesOf, take_eq hturn, List.filter_append]
    simp [History.takesOf, hk.symm]

/-- A consumer takes what is in a slot into its hand. -/
theorem Accounted.take (ha : Accounted m h hand) {k : Fin cfg.K} (hk : hand k = .empty) {j : ℕ}
    (hturn : h.turn k = some j) {idx : Fin cfg.N} {line : Option Ptr}
    (hline : line = m.sharedResource idx) :
    Accounted (m.clear idx) (h.take k line (line.bind m.heap))
      (Function.update hand k (.taken line)) := by
  have hself : (Function.update hand k (.taken line) k).ptr = line := by simp [Hand.ptr]
  have hother : ∀ k', k' ≠ k → Function.update hand k (.taken line) k' = hand k' :=
    fun k' hk' => Function.update_of_ne hk' _ _
  have hnone : ∀ q, (hand k).ptr ≠ some q := fun q => by
    rw [hk]
    exact (Option.some_ne_none q).symm
  refine ⟨ha.fresh, ?_, ?_, ?_, ?_, ?_⟩
  · intro q
    refine (ha.live q).trans ⟨?_, ?_⟩
    · rintro (⟨i, hi⟩ | ⟨k', hk'⟩)
      · by_cases hidx : i = idx
        · refine Or.inr ⟨k, ?_⟩
          rw [hself, hline, ← hidx]
          exact hi
        · exact Or.inl ⟨i, (Function.update_of_ne hidx _ _).trans hi⟩
      · have hne : k' ≠ k := fun heq => hnone q (heq ▸ hk')
        exact Or.inr ⟨k', by rw [hother k' hne]; exact hk'⟩
    · rintro (⟨i, hi⟩ | ⟨k', hk'⟩)
      · exact Or.inl ⟨i, (Store.clear_eq_some hi).2⟩
      · by_cases hkk : k' = k
        · rw [hkk, hself, hline] at hk'
          exact Or.inl ⟨idx, hk'⟩
        · rw [hother k' hkk] at hk'
          exact Or.inr ⟨k', hk'⟩
  · intro i i' q hi hi'
    exact ha.slot_once i i' q (Store.clear_eq_some hi).2 (Store.clear_eq_some hi').2
  · intro k₁ k₂ q h₁ h₂
    -- what is in the hand of `k` was in the slot, and nobody else had it
    by_cases hk₁ : k₁ = k <;> by_cases hk₂ : k₂ = k
    · rw [hk₁, hk₂]
    · rw [hk₁, hself, hline] at h₁
      rw [hother k₂ hk₂] at h₂
      exact absurd h₂ (ha.apart idx k₂ q h₁)
    · rw [hk₂, hself, hline] at h₂
      rw [hother k₁ hk₁] at h₁
      exact absurd h₁ (ha.apart idx k₁ q h₂)
    · rw [hother k₁ hk₁] at h₁
      rw [hother k₂ hk₂] at h₂
      exact ha.hand_once k₁ k₂ q h₁ h₂
  · intro i k' q hi hk'
    obtain ⟨hne, hi'⟩ := Store.clear_eq_some hi
    by_cases hkk : k' = k
    · rw [hkk, hself, hline] at hk'
      exact hne (ha.slot_once i idx q hi' hk')
    · rw [hother k' hkk] at hk'
      exact ha.apart i k' q hi' hk'
  · intro k'
    by_cases hkk : k' = k
    · subst hkk
      have hr := ha.reported k'
      rw [hk] at hr
      rw [Function.update_self]
      exact ⟨h.takesOf k', _, takesOf_take hturn _ _, rfl, rfl, hr⟩
    · rw [hother k' hkk]
      exact (ha.reported k').of_eq rfl (takesOf_take_of_ne hkk _ _) fun _ _ => rfl

/-- The reports of the others stay what they are. -/
theorem printed_of_ne {k k' : Fin cfg.K} (hk : k' ≠ k) (line : Option Ptr) :
    (m.examine k line).printed k' = m.printed k' := by
  cases line with
  | none => rfl
  | some q =>
    simp only [Store.examine]
    split
    · simp [Store.printed, hk.symm]
    · rfl

/-- The report of a consumer on its last take. -/
theorem printed_examine {k : Fin cfg.K} {x : Take cfg} {line : Option Ptr} (hptr : x.ptr = line)
    (htext : x.text = line.bind m.heap) :
    (m.examine k line).printed k = m.printed k ++ x.report.toList := by
  cases line with
  | none => simp [Store.examine, Take.report, hptr]
  | some q =>
    have htext' : x.text = m.heap q := htext
    simp only [Store.examine, Take.report, hptr, htext', Option.isSome_some, Bool.true_and]
    split
    · simp [Store.printed]
    · simp

/-- A consumer examines the line in its hand. -/
theorem Accounted.examine (ha : Accounted m h hand) {k : Fin cfg.K} {line : Option Ptr}
    (hk : hand k = .taken line) :
    Accounted (m.examine k line) h (Function.update hand k (.examined line)) := by
  obtain ⟨out, hout⟩ := Store.examine_eq k line m
  have hptr : ∀ k', (Function.update hand k (.examined line) k').ptr = (hand k').ptr := by
    intro k'
    by_cases hkk : k' = k
    · rw [hkk, Function.update_self, hk]
      rfl
    · rw [Function.update_of_ne hkk]
  have hheap : (m.examine k line).heap = m.heap := by rw [hout]
  have hslots : (m.examine k line).sharedResource = m.sharedResource := by rw [hout]
  have hfresh : (m.examine k line).fresh = m.fresh := by rw [hout]
  refine ⟨?_, ?_, ?_, ?_, ?_, ?_⟩
  · rw [hheap, hfresh]
    exact ha.fresh
  · simp only [hheap, hslots, hptr]
    exact ha.live
  · rw [hslots]
    exact ha.slot_once
  · simp only [hptr]
    exact ha.hand_once
  · simp only [hslots, hptr]
    exact ha.apart
  · intro k'
    by_cases hkk : k' = k
    · subst hkk
      have hr := ha.reported k'
      rw [hk] at hr
      obtain ⟨done, x, htakes, hx, htext, hprinted⟩ := hr
      rw [Function.update_self]
      show (m.examine k' line).printed k' = (h.takesOf k').filterMap Take.report
      rw [printed_examine hx htext, hprinted, htakes, List.filterMap_append]
      cases hrep : x.report <;> simp [hrep]
    · rw [Function.update_of_ne hkk]
      exact (ha.reported k').of_eq (printed_of_ne hkk line) rfl fun _ _ => by rw [hheap]

/-- A consumer frees the line in its hand. -/
theorem Accounted.free (ha : Accounted m h hand) {k : Fin cfg.K} {line : Option Ptr}
    (hk : hand k = .examined line) :
    Accounted (m.free line) h (Function.update hand k .empty) := by
  obtain ⟨heap, hfree, hsame⟩ := Store.free_eq line m
  have hgone : ∀ q, line = some q → heap q = none := by
    rintro q rfl
    have := congrArg Store.heap hfree
    rw [← show (m.free (some q)).heap = heap from this]
    exact Function.update_self _ _ _
  have hptr : (hand k).ptr = line := by rw [hk]; rfl
  have hother : ∀ k', k' ≠ k → Function.update hand k .empty k' = hand k' :=
    fun k' hk' => Function.update_of_ne hk' _ _
  have hself : (Function.update hand k .empty k).ptr = none := by rw [Function.update_self]; rfl
  rw [hfree]
  refine ⟨?_, ?_, ha.slot_once, ?_, ?_, ?_⟩
  · intro q hq
    by_cases hline : line = some q
    · exact absurd (hgone q hline) hq
    · exact ha.fresh q (by rw [← hsame q hline]; exact hq)
  · intro q
    show heap q ≠ none ↔ (∃ i, m.sharedResource i = some q) ∨
      ∃ k', (Function.update hand k .empty k').ptr = some q
    by_cases hline : line = some q
    · refine ⟨fun hq => absurd (hgone q hline) hq, ?_⟩
      rintro (⟨i, hi⟩ | ⟨k', hk'⟩)
      · exact absurd (hptr.trans hline) (ha.apart i k q hi)
      · by_cases hkk : k' = k
        · rw [hkk, hself] at hk'
          exact absurd hk' (Option.some_ne_none q).symm
        · rw [hother k' hkk] at hk'
          exact absurd (ha.hand_once k' k q hk' (hptr.trans hline)) hkk
    · rw [hsame q hline, ha.live q]
      refine or_congr_right ⟨?_, ?_⟩
      · rintro ⟨k', hk'⟩
        have hkk : k' ≠ k := fun heq => hline (by rw [← hptr, ← heq]; exact hk')
        exact ⟨k', by rw [hother k' hkk]; exact hk'⟩
      · rintro ⟨k', hk'⟩
        by_cases hkk : k' = k
        · rw [hkk, hself] at hk'
          exact absurd hk' (Option.some_ne_none q).symm
        · rw [hother k' hkk] at hk'
          exact ⟨k', hk'⟩
  · intro k₁ k₂ q h₁ h₂
    by_cases hk₁ : k₁ = k
    · rw [hk₁, hself] at h₁
      exact absurd h₁ (Option.some_ne_none q).symm
    · by_cases hk₂ : k₂ = k
      · rw [hk₂, hself] at h₂
        exact absurd h₂ (Option.some_ne_none q).symm
      · rw [hother k₁ hk₁] at h₁
        rw [hother k₂ hk₂] at h₂
        exact ha.hand_once k₁ k₂ q h₁ h₂
  · intro i k' q hi hk'
    by_cases hkk : k' = k
    · rw [hkk, hself] at hk'
      exact absurd hk' (Option.some_ne_none q).symm
    · rw [hother k' hkk] at hk'
      exact ha.apart i k' q hi hk'
  · intro k'
    by_cases hkk : k' = k
    · subst hkk
      have hr := ha.reported k'
      rw [hk] at hr
      rw [Function.update_self]
      exact hr
    · rw [hother k' hkk]
      refine (ha.reported k').of_eq rfl rfl fun q hq => hsame q ?_
      rintro rfl
      exact hkk (ha.hand_once k' k q hq hptr)

end Steps

/-! ### The end -/

section End

variable {m : Store cfg} {h : History cfg} {hand : Fin cfg.K → Hand}

/-- The loop of `clean_up` over some slots whose blocks are all different. -/
theorem foldlM_freeSlot {l : List (Fin cfg.N)} (hnodup : l.Nodup)
    (hlive : ∀ i ∈ l, ∀ q, m.sharedResource i = some q → m.heap q ≠ none)
    (honce : ∀ i j q, m.sharedResource i = some q → m.sharedResource j = some q → i = j) :
    ∃ heap, l.foldlM Store.freeSlot m = some { m with heap := heap } ∧
      (∀ i ∈ l, ∀ q, m.sharedResource i = some q → heap q = none) ∧
      ∀ q, (∀ i ∈ l, m.sharedResource i ≠ some q) → heap q = m.heap q := by
  induction l generalizing m with
  | nil => exact ⟨m.heap, rfl, by simp, by simp⟩
  | cons i l ih =>
    obtain ⟨hi, hl⟩ := List.nodup_cons.mp hnodup
    cases hslot : m.sharedResource i with
    | none =>
      obtain ⟨heap, hfold, hgone, hsame⟩ := ih hl (fun j hj => hlive j (List.mem_cons_of_mem _ hj))
        honce
      refine ⟨heap, ?_, ?_, ?_⟩
      · rw [List.foldlM_cons, Store.freeSlot, hslot]
        exact hfold
      · intro j hj q hq
        rcases List.mem_cons.mp hj with rfl | hj
        · rw [hslot] at hq
          exact absurd hq (Option.some_ne_none q).symm
        · exact hgone j hj q hq
      · exact fun q hq => hsame q fun j hj => hq j (List.mem_cons_of_mem _ hj)
    | some q₀ =>
      have hfree : Store.freeSlot m i = some (m.free (some q₀)) := by
        rw [Store.freeSlot, hslot]
        exact if_neg (hlive i List.mem_cons_self q₀ hslot)
      -- the blocks of the other slots are still there
      have hne : ∀ j ∈ l, ∀ q, m.sharedResource j = some q → q ≠ q₀ := by
        rintro j hj q hq rfl
        exact hi (honce i j q hslot hq ▸ hj)
      obtain ⟨heap, hfold, hgone, hsame⟩ := ih (m := m.free (some q₀)) hl
        (fun j hj q hq => by
          show Function.update m.heap q₀ none q ≠ none
          rw [Function.update_of_ne (hne j hj q hq)]
          exact hlive j (List.mem_cons_of_mem _ hj) q hq) honce
      refine ⟨heap, ?_, ?_, ?_⟩
      · rw [List.foldlM_cons, hfree]
        exact hfold
      · intro j hj q hq
        rcases List.mem_cons.mp hj with rfl | hj
        · obtain rfl := Option.some.inj (hslot.symm.trans hq)
          rw [hsame q₀ fun j hj hjq => hne j hj q₀ hjq rfl]
          exact Function.update_self _ _ _
        · exact hgone j hj q hq
      · intro q hq
        rw [hsame q fun j hj => hq j (List.mem_cons_of_mem _ hj)]
        refine Function.update_of_ne ?_ _ _
        rintro rfl
        exact hq i List.mem_cons_self hslot

/-- With nothing in the consumers' hands `clean_up` frees every block that is left, and none
twice. -/
theorem Accounted.cleanUp (ha : Accounted m h hand) (hhand : ∀ k, hand k = .empty) :
    ∃ heap, m.cleanUp = some { m with heap := heap } ∧ ∀ q, heap q = none := by
  obtain ⟨heap, hfold, hgone, hsame⟩ := foldlM_freeSlot (List.nodup_finRange cfg.N)
    (fun i _ q hq => (ha.live q).mpr (Or.inl ⟨i, hq⟩)) ha.slot_once
  refine ⟨heap, hfold, fun q => ?_⟩
  by_cases hslot : ∃ i, m.sharedResource i = some q
  · obtain ⟨i, hi⟩ := hslot
    exact hgone i (List.mem_finRange i) q hi
  · rw [hsame q fun i _ hi => hslot ⟨i, hi⟩]
    -- it is in nobody's hand either
    by_contra hq
    rcases (ha.live q).mp hq with hi | ⟨k, hk⟩
    · exact hslot hi
    · rw [hhand k] at hk
      exact Option.some_ne_none q hk.symm

/-- Lists of pairs that have the same values for every key, in the same order. -/
theorem perm_of_keys {κ α : Type*} [DecidableEq κ] [DecidableEq α] {l l' : List (κ × α)}
    (hkeys : ∀ k, (l.filter (·.1 = k)).map Prod.snd = (l'.filter (·.1 = k)).map Prod.snd) :
    l.Perm l' := by
  have hcount : ∀ (xs : List (κ × α)) k a,
      xs.count (k, a) = ((xs.filter (·.1 = k)).map Prod.snd).count a := by
    intro xs k a
    induction xs with
    | nil => rfl
    | cons x xs ih =>
      obtain ⟨k', a'⟩ := x
      by_cases hk : k' = k
      · simp [List.count_cons, hk, ih]
      · simp [hk, ih]
  rw [List.perm_iff_count]
  rintro ⟨k, a⟩
  rw [hcount, hcount, hkeys]

/-- The report of a take, with the name of the consumer. -/
def Take.signedReport (x : Take cfg) : Option (Fin cfg.K × ℕ) := x.report.map (x.taker, ·)

theorem signedReport_keys (xs : List (Take cfg)) (k : Fin cfg.K) :
    ((xs.filterMap Take.signedReport).filter (·.1 = k)).map Prod.snd =
      (xs.filter (·.taker = k)).filterMap Take.report := by
  induction xs with
  | nil => rfl
  | cons x xs ih =>
    by_cases hk : x.taker = k <;> cases hrep : x.report <;>
      simp [Take.signedReport, hrep, hk, ih]

/-- When nobody has a line to examine, all reports are those of the takes. -/
theorem Accounted.found_perm (ha : Accounted m h hand)
    (hhand : ∀ k line, hand k ≠ .taken line) :
    m.found.Perm (h.takes.filterMap Take.signedReport) := by
  apply perm_of_keys
  intro k
  rw [signedReport_keys]
  have hr := ha.reported k
  cases hk : hand k with
  | taken line => exact absurd hk (hhand k line)
  | empty | examined line =>
    rw [hk] at hr
    exact hr

/-- The reported lengths, whoever has reported them. -/
theorem Accounted.found_lengths (ha : Accounted m h hand)
    (hhand : ∀ k line, hand k ≠ .taken line) :
    (m.found.map Prod.snd).Perm (h.takes.filterMap Take.report) := by
  have hsnd : (h.takes.filterMap Take.signedReport).map Prod.snd =
      h.takes.filterMap Take.report := by
    rw [List.map_filterMap]
    refine List.filterMap_congr fun x _ => ?_
    cases hrep : x.report <;> simp [Take.signedReport, hrep]
  rw [← hsnd]
  exact (ha.found_perm hhand).map Prod.snd

/-- A block that is allocated is in one place. -/
theorem Accounted.exists_place (ha : Accounted m h hand) {q : Ptr} (hq : m.heap q ≠ none) :
    ∃! place : Place cfg, place.Has m hand q := by
  have hone : ∀ place place' : Place cfg, place.Has m hand q → place'.Has m hand q →
      place = place' := by
    intro place place' hp hp'
    cases place with
    | slot i =>
      cases place' with
      | slot j => rw [ha.slot_once i j q hp hp']
      | hand k => exact absurd hp' (ha.apart i k q hp)
    | hand k =>
      cases place' with
      | slot j => exact absurd hp (ha.apart j k q hp')
      | hand k' => rw [ha.hand_once k k' q hp hp']
  rcases (ha.live q).mp hq with ⟨i, hi⟩ | ⟨k, hk⟩
  · exact ⟨.slot i, hi, fun place hp => hone _ _ hp hi⟩
  · exact ⟨.hand k, hk, fun place hp => hone _ _ hp hk⟩

/-- A block that is not allocated is nowhere. -/
theorem Accounted.not_has (ha : Accounted m h hand) {q : Ptr} (hq : m.heap q = none)
    (place : Place cfg) : ¬ place.Has m hand q := by
  intro hp
  apply (ha.live q).mpr _ hq
  cases place with
  | slot i => exact Or.inl ⟨i, hp⟩
  | hand k => exact Or.inr ⟨k, hp⟩

end End

/-! ### All lines -/

section All

variable {m : Store cfg} {h : History cfg}

theorem strlen_strcpyBytes (line : List UInt8) :
    Stdio.strlen (Stdio.strcpyBytes line) = Stdio.strlen line := by
  have hall : ∀ b ∈ Stdio.cString line, decide (b ≠ Stdio.nul) = true := by
    intro b hb
    simpa using List.mem_takeWhile_imp hb
  rw [Stdio.strlen, Stdio.strcpyBytes, Stdio.cString, List.takeWhile_append_of_pos hall]
  simp [Stdio.strlen]

/-- The serial number of the line that a take got. -/
def History.serialOf (h : History cfg) (x : Take cfg) : Option ℕ :=
  x.ptr.bind fun q => (h.fills[q]?).map Prod.snd

/-- What is taken from a slot is all of a line. -/
def TakesLines (h : History cfg) : Prop :=
  ∀ x ∈ h.takes, ∀ q, x.ptr = some q → ∃ p i line, h.fills[q]? = some (p, i) ∧
    h.lines[i]? = some (p, line) ∧ x.text = some (Stdio.strcpyBytes line)

/-- The report on a take is that on the line it got. -/
theorem TakesLines.report_eq (ht : TakesLines h) {x : Take cfg} (hx : x ∈ h.takes) :
    x.report = (h.serialOf x).bind fun i => h.lines[i]?.bind fun l => cfg.lineReport l.2 := by
  cases hptr : x.ptr with
  | none => simp [Take.report, History.serialOf, hptr]
  | some q =>
    obtain ⟨p, i, line, hfill, hline, htext⟩ := ht x hx q hptr
    simp [Take.report, History.serialOf, Config.lineReport, hptr, hfill, hline, htext,
      strlen_strcpyBytes]

/-- When all lines have been taken, their serial numbers are those of the takes. -/
theorem AllTaken.serials_perm (hall : AllTaken m h) (ht : TakesLines h) :
    (h.takes.filterMap h.serialOf).Perm (List.range h.lines.length) := by
  -- a take of serial number `i` is one of block `q`
  have hserial : ∀ {n : ℕ} {x : Take cfg} {i : ℕ}, h.takes[n]? = some x →
      h.serialOf x = some i → i < h.lines.length ∧ ∃ x q, h.takes[n]? = some x ∧
        x.ptr = some q ∧ (h.fills[q]?).map Prod.snd = some i := by
    intro n x i hx hi
    obtain ⟨q, hptr, hfill⟩ := Option.bind_eq_some_iff.mp hi
    obtain ⟨p, i', line, hfill', hline, -⟩ := ht x (List.mem_of_getElem? hx) q hptr
    rw [hfill'] at hfill
    obtain rfl : i' = i := Option.some.inj hfill
    exact ⟨(List.getElem?_eq_some_iff.mp hline).1, x, q, hx, hptr, by rw [hfill']; rfl⟩
  rw [List.perm_ext_iff_of_nodup _ List.nodup_range]
  · intro i
    rw [List.mem_range, List.mem_filterMap]
    constructor
    · rintro ⟨x, hx, hi⟩
      obtain ⟨n, hn⟩ := List.getElem?_of_mem hx
      exact (hserial hn hi).1
    · intro hi
      obtain ⟨n, ⟨x, q, hx, hptr, hfill⟩, -⟩ := hall.1 i hi
      exact ⟨x, List.mem_of_getElem? hx, by rw [History.serialOf, hptr]; exact hfill⟩
  · rw [List.Nodup, List.pairwise_filterMap, List.pairwise_iff_getElem]
    rintro n n' hn hn' hlt i hi i' hi' rfl
    -- no line is taken twice
    obtain ⟨hlen, htake⟩ := hserial (List.getElem?_eq_getElem hn) hi
    obtain ⟨-, htake'⟩ := hserial (List.getElem?_eq_getElem hn') hi'
    exact Nat.ne_of_lt hlt ((hall.1 i hlen).unique htake htake')

/-- The entries of a list by their numbers. -/
theorem filterMap_range {α β : Type*} (xs : List α) (f : α → Option β) :
    (List.range xs.length).filterMap (fun i => xs[i]?.bind f) = xs.filterMap f := by
  induction xs with
  | nil => rfl
  | cons x xs ih =>
    rw [List.length_cons, List.range_succ_eq_map, List.filterMap_cons, List.filterMap_map,
      List.filterMap_cons, ← ih]
    rfl

/-- When all lines have been taken, the reports are those on the lines. -/
theorem AllTaken.reports_perm (hall : AllTaken m h) (ht : TakesLines h) :
    (h.takes.filterMap Take.report).Perm (h.lines.filterMap fun l => cfg.lineReport l.2) := by
  have htakes : h.takes.filterMap Take.report = (h.takes.filterMap h.serialOf).filterMap
      fun i => h.lines[i]?.bind fun l => cfg.lineReport l.2 := by
    rw [List.filterMap_filterMap]
    exact List.filterMap_congr fun x hx => ht.report_eq hx
  rw [htakes, ← filterMap_range h.lines]
  exact (hall.serials_perm ht).filterMap _

end All

end ProdCons
end OpSys
