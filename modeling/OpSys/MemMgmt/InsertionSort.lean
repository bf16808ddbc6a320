import Mathlib.Data.Int.Order.Basic
import OpSys.Lib.Exchange

/-!
# The insertion sort of the library

`insertion_sort` is the same text in `sort_library.c` and in `insertion.c`.  An access
to the array with an index outside `[0, n)` is an error.  The inner loop does not stop
where the element belongs, but goes on to the start of the array.

## Main definitions

* `load`, `store` — accesses to the array.
* `innerLoop`, `outerLoop`, `insertionSort` — the loops.

## Main results

* `sortBody_eq` — an iteration exchanges neighbours.
* `outerLoop_eq` — the loops visit the places of a sort by exchanges.
* `insertionSort_sorts` — the first `n` elements are sorted, and the others left alone.

## References

`lab1_mem_mgmt_and_libs/libraries/sort_library.c`,
`lab1_mem_mgmt_and_libs/compiler_optimization/insertion.c`.
-/

namespace OpSys
namespace MemMgmt

open Exchange

/-- `arr[i]`. -/
def load (n : ℤ) (arr : List ℤ) (i : ℤ) : Option ℤ :=
  if 0 ≤ i ∧ i < n then arr[i.toNat]? else none

/-- `arr[i] = x`. -/
def store (n : ℤ) (arr : List ℤ) (i x : ℤ) : Option (List ℤ) :=
  if 0 ≤ i ∧ i < n ∧ i < arr.length then some (arr.set i.toNat x) else none

/-- The body of the inner loop. -/
def sortBody (n : ℤ) (arr : List ℤ) (j : ℤ) : Option (List ℤ) :=
  (load n arr (j - 1)).bind fun left =>
    (load n arr j).bind fun right =>
      if left > right then
        -- `right` is in `temp`
        (store n arr j left).bind fun arr => store n arr (j - 1) right
      else some arr

/-- `for (int j = i; j > 0; j--)`, from `j` on. -/
def innerLoop (n : ℤ) : ℕ → List ℤ → Option (List ℤ)
  | 0, arr => some arr
  | j + 1, arr => (sortBody n arr (j + 1)).bind (innerLoop n j)

/-- `k` iterations of `for (int i = 1; i < n; i++)`, from `i` on. -/
def outerLoop (n : ℤ) : ℕ → ℕ → List ℤ → Option (List ℤ)
  | 0, _, arr => some arr
  | k + 1, i, arr => (innerLoop n i arr).bind (outerLoop n k (i + 1))

/-- `insertion_sort`. -/
def insertionSort (arr : List ℤ) (n : ℤ) : Option (List ℤ) := outerLoop n (n - 1).toNat 1 arr

theorem load_eq {n : ℤ} {arr : List ℤ} {i : ℕ} (hi : (i : ℤ) < n) (hlen : i < arr.length) :
    load n arr i = some arr[i] := by
  rw [load, if_pos ⟨Int.natCast_nonneg i, hi⟩, Int.toNat_natCast, List.getElem?_eq_getElem hlen]

theorem store_eq {n : ℤ} {arr : List ℤ} {i : ℕ} (hi : (i : ℤ) < n) (hlen : i < arr.length)
    (x : ℤ) : store n arr i x = some (arr.set i x) := by
  rw [store, if_pos ⟨Int.natCast_nonneg i, hi, by omega⟩, Int.toNat_natCast]

/-- **An iteration exchanges** the elements at `j - 1` and `j` if they are not in order. -/
theorem sortBody_eq {n : ℤ} {arr : List ℤ} {j : ℕ} (hj : (j + 1 : ℤ) < n)
    (hlen : j + 1 < arr.length) : sortBody n arr (j + 1) = some (exchange id arr (j + 1)) := by
  have hj' : (j : ℤ) < n := by omega
  have hlen' : j < arr.length := by omega
  have hleft : load n arr ((j + 1 : ℤ) - 1) = some arr[j] := by
    rw [Int.add_sub_cancel]
    exact load_eq hj' hlen'
  have hright : load n arr (j + 1) = some arr[j + 1] := load_eq (i := j + 1) hj hlen
  have ha : arr[j + 1 - 1]? = some arr[j] := List.getElem?_eq_getElem hlen'
  have hb : arr[j + 1]? = some arr[j + 1] := List.getElem?_eq_getElem hlen
  rw [sortBody, hleft, hright, Option.bind_some, Option.bind_some]
  simp only [exchange, ha, hb, id]
  by_cases hlt : arr[j + 1] < arr[j]
  · have hfirst : store n arr (j + 1) arr[j] = some (arr.set (j + 1) arr[j]) :=
      store_eq (i := j + 1) hj hlen _
    rw [if_pos hlt, if_pos hlt, hfirst, Option.bind_some, Int.add_sub_cancel,
      store_eq hj' (by rw [List.length_set]; exact hlen'), List.set_comm _ _ (by omega)]
    rfl
  · rw [if_neg hlt, if_neg hlt]

theorem innerLoop_eq {n : ℤ} {j : ℕ} {arr : List ℤ} (hj : (j : ℤ) < n) (hn : n ≤ arr.length) :
    innerLoop n j arr = some ((downFrom j).foldl (exchange id) arr) := by
  induction j generalizing arr with
  | zero => rfl
  | succ j ih =>
    have hlen : (exchange id arr (j + 1)).length = arr.length := length_exchange arr (j + 1)
    have hbody : sortBody n arr (j + 1) = some (exchange id arr (j + 1)) :=
      sortBody_eq (by omega) (by omega)
    rw [innerLoop, hbody, Option.bind_some, ih (by omega) (by omega), downFrom, List.foldl_cons]

/-- The loops visit the places of a sort by exchanges. -/
theorem outerLoop_eq {n : ℤ} {k i : ℕ} {arr : List ℤ} (hk : k = 0 ∨ (i + k : ℤ) ≤ n)
    (hn : n ≤ arr.length) :
    outerLoop n k i ((visits i).foldl (fun arr v => exchange id arr v.2) arr) =
      some ((visits (i + k)).foldl (fun arr v => exchange id arr v.2) arr) := by
  induction k generalizing i with
  | zero => rfl
  | succ k ih =>
    have hbound : (i + (k + 1) : ℤ) ≤ n := by
      rcases hk with hzero | hle
      · exact absurd hzero (Nat.succ_ne_zero k)
      · exact hle
    have hlen : ((visits i).foldl (fun arr v => exchange id arr v.2) arr).length = arr.length := by
      rw [foldl_visits_eq]
      exact (rearranged_foldl _ arr).perm.length_eq
    have hpass : innerLoop n i ((visits i).foldl (fun arr v => exchange id arr v.2) arr) =
        some ((visits (i + 1)).foldl (fun arr v => exchange id arr v.2) arr) := by
      rw [innerLoop_eq (by omega) (by rw [hlen]; exact hn), visits, List.foldl_append,
        List.foldl_map]
    rw [outerLoop, hpass, Option.bind_some, ih (Or.inr (by omega)), Nat.add_right_comm,
      Nat.add_assoc]

/-- **The sort is right.**  For every `n` up to the length of the array, also 0, 1 and negative
ones, the accesses are in bounds, the first `n` elements become a sorted permutation of
what they were, and the others stay. -/
theorem insertionSort_sorts (arr : List ℤ) (n : ℤ) (hn : n ≤ arr.length) :
    ∃ sorted, insertionSort arr n = some sorted ∧
      (sorted.take n.toNat).Perm (arr.take n.toNat) ∧
      (sorted.take n.toNat).Pairwise (· ≤ ·) ∧
      sorted.drop n.toNat = arr.drop n.toNat := by
  by_cases hneg : n ≤ 0
  · -- the outer loop is not entered
    have hzero : n.toNat = 0 := Int.toNat_of_nonpos hneg
    have hnone : (n - 1).toNat = 0 := Int.toNat_of_nonpos (by omega)
    refine ⟨arr, by rw [insertionSort, hnone, outerLoop], ?_, ?_, rfl⟩
    · exact List.Perm.refl _
    · rw [hzero, List.take_zero]
      exact List.Pairwise.nil
  · obtain ⟨m, rfl⟩ : ∃ m : ℕ, n = m + 1 := ⟨(n - 1).toNat, by omega⟩
    have hm : (m + 1 : ℤ).toNat = m + 1 := by omega
    have hk : (m + 1 - 1 : ℤ).toNat = m := by omega
    have hlen : m + 1 ≤ arr.length := by omega
    obtain ⟨hsort, hrest⟩ := stableSort_foldl_exchange id hlen
    -- the pass over the first element alone does nothing
    have hk' : m = 0 ∨ ((1 : ℕ) + m : ℤ) ≤ m + 1 := Or.inr (by omega)
    have hrun := outerLoop_eq hk' hn
    refine ⟨(visits (m + 1)).foldl (fun arr v => exchange id arr v.2) arr, ?_, ?_, ?_, ?_⟩
    · rw [insertionSort, hk, Nat.add_comm m 1]
      exact hrun
    · rw [hm]
      exact hsort.perm
    · rw [hm]
      exact hsort.sorted
    · rw [hm]
      exact hrest

/-- Three elements of four. -/
theorem insertionSort_sorts_three : ∃ sorted, insertionSort [3, 1, 2, 0] 3 = some sorted ∧
    (sorted.take 3).Perm [3, 1, 2] ∧ (sorted.take 3).Pairwise (· ≤ ·) ∧ sorted.drop 3 = [0] :=
  insertionSort_sorts [3, 1, 2, 0] 3 (by decide)

end MemMgmt
end OpSys
