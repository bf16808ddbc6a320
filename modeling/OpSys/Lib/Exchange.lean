import Mathlib.Data.List.Basic
import Mathlib.Data.List.Induction
import Mathlib.Order.Defs.LinearOrder
import Mathlib.Order.Basic
import Mathlib.Order.Lattice

/-!
# Insertion sort by exchanges of neighbours

The sort that takes the elements one after another and moves each down by exchanges
with its left neighbour, without ever stopping early.  The order of the places at which
it compares does not depend on the elements.

## Main definitions

* `exchange key l j` — put the elements at `j - 1` and `j` in order.
* `downFrom i`, `visits n` — the places of one pass, and those of the whole sort.
* `StableSort key l l'` — `l'` is the stable sort of `l`.
* `insertAfter key x s` — `x` inserted into a sorted list, behind its equals.

## Main results

* `foldl_exchange_downFrom` — a pass inserts.
* `stableSort_foldl_exchange` — the sort sorts the elements it visits, stably, and
  leaves the others alone.
* `key_lt_iff_countP_lt` — where a pass exchanges.
* `forall_le_last_read_iff` — what the last visit reads.
-/

namespace OpSys
namespace Exchange

variable {α κ : Type*} [LinearOrder κ] (key : α → κ)

/-- Put the elements at `j - 1` and `j` in order. -/
def exchange (l : List α) (j : ℕ) : List α :=
  match l[j - 1]?, l[j]? with
  | some a, some b => if key b < key a then (l.set (j - 1) b).set j a else l
  | _, _ => l

/-- The places of a pass: `i`, `i - 1` and so on to `1`. -/
def downFrom : ℕ → List ℕ
  | 0 => []
  | j + 1 => (j + 1) :: downFrom j

/-- The places of the sort of `n` elements, each with the number of its pass. -/
def visits : ℕ → List (ℕ × ℕ)
  | 0 => []
  | i + 1 => visits i ++ (downFrom i).map fun j => (i, j)

/-- `l'` has the elements of `l`, those of one key in their order. -/
structure Rearranged (l l' : List α) : Prop where
  perm : l'.Perm l
  stable : ∀ k, l'.filter (fun a => key a = k) = l.filter fun a => key a = k

/-- `l'` is the stable sort of `l`. -/
structure StableSort (l l' : List α) : Prop extends Rearranged key l l' where
  sorted : l'.Pairwise fun a b => key a ≤ key b

/-- `x` inserted into a sorted list, behind the elements that are not greater. -/
def insertAfter (x : α) (s : List α) : List α :=
  s.filter (fun a => key a ≤ key x) ++ x :: s.filter fun a => key x < key a

variable {key} {l l' s t : List α} {a b x : α} {i j n : ℕ}

/-! ### Rearrangements -/

theorem Rearranged.refl (l : List α) : Rearranged key l l := ⟨List.Perm.refl l, fun _ => rfl⟩

theorem Rearranged.trans {l'' : List α} (h : Rearranged key l l') (h' : Rearranged key l' l'') :
    Rearranged key l l'' :=
  ⟨h'.perm.trans h.perm, fun k => (h'.stable k).trans (h.stable k)⟩

theorem Rearranged.of_append_right (h : Rearranged key (l ++ t) (l' ++ t)) :
    Rearranged key l l' := by
  refine ⟨(List.perm_append_right_iff t).mp h.perm, fun k => ?_⟩
  have hk := h.stable k
  rw [List.filter_append, List.filter_append] at hk
  exact List.append_cancel_right hk

/-- Neighbours with different keys may be exchanged. -/
theorem Rearranged.swap (h : key b < key a) (p s : List α) :
    Rearranged key (p ++ a :: b :: s) (p ++ b :: a :: s) := by
  refine ⟨(List.Perm.swap a b s).append_left p, fun k => ?_⟩
  rw [List.filter_append, List.filter_append]
  refine congrArg (List.filter _ p ++ ·) ?_
  by_cases ha : key a = k <;> by_cases hb : key b = k
  · exact absurd (hb.trans ha.symm) h.ne
  · simp [ha, hb]
  · simp [ha, hb]
  · simp [ha, hb]

/-! ### One exchange -/

theorem exchange_append (p s : List α) (a b : α) :
    exchange key (p ++ a :: b :: s) (p.length + 1) =
      if key b < key a then p ++ b :: a :: s else p ++ a :: b :: s := by
  have ha : (p ++ a :: b :: s)[p.length + 1 - 1]? = some a := by simp
  have hb : (p ++ a :: b :: s)[p.length + 1]? = some b := by simp
  simp only [exchange, ha, hb]
  split
  · simp
  · rfl

/-- A place beyond the list, or before its second element. -/
theorem exchange_of_length_le (h : l.length ≤ j) : exchange key l j = l := by
  have hnone : l[j]? = none := List.getElem?_eq_none h
  rw [exchange, hnone]
  split
  · rename_i hsome
    exact absurd hsome (Option.some_ne_none _).symm
  · rfl

@[simp] theorem exchange_zero (l : List α) : exchange key l 0 = l := by
  rw [exchange]
  split
  · rename_i ha hb
    rw [Nat.zero_sub] at ha
    rw [Option.some.inj (ha.symm.trans hb), if_neg (lt_irrefl _)]
  · rfl

/-- A list around two neighbours. -/
theorem exists_append_of_lt (hj : 0 < j) (h : j < l.length) :
    ∃ p s a b, l = p ++ a :: b :: s ∧ p.length + 1 = j ∧ l[j - 1]? = some a ∧ l[j]? = some b := by
  obtain ⟨k, rfl⟩ : ∃ k, j = k + 1 := ⟨j - 1, by omega⟩
  refine ⟨l.take k, l.drop (k + 2), l[k], l[k + 1], ?_, ?_, ?_, ?_⟩
  · rw [← List.drop_eq_getElem_cons h, ← List.drop_eq_getElem_cons (by omega : k < l.length),
      List.take_append_drop]
  · rw [List.length_take, Nat.min_eq_left (by omega)]
  · exact List.getElem?_eq_getElem _
  · exact List.getElem?_eq_getElem _

theorem rearranged_exchange (l : List α) (j : ℕ) : Rearranged key l (exchange key l j) := by
  rcases Nat.eq_zero_or_pos j with rfl | hj
  · rw [exchange_zero]
    exact Rearranged.refl l
  · by_cases hlen : l.length ≤ j
    · rw [exchange_of_length_le hlen]
      exact Rearranged.refl l
    · obtain ⟨p, s, a, b, rfl, rfl, -, -⟩ := exists_append_of_lt hj (Nat.lt_of_not_le hlen)
      rw [exchange_append]
      split
      · rename_i hlt
        exact Rearranged.swap hlt p s
      · exact Rearranged.refl _

@[simp] theorem length_exchange (l : List α) (j : ℕ) : (exchange key l j).length = l.length :=
  (rearranged_exchange l j).perm.length_eq

/-- Whatever the places, exchanges rearrange. -/
theorem rearranged_foldl (js : List ℕ) (l : List α) :
    Rearranged key l (js.foldl (exchange key) l) := by
  induction js generalizing l with
  | nil => exact Rearranged.refl l
  | cons j js ih => exact (rearranged_exchange l j).trans (ih _)

/-! ### One pass -/

theorem insertAfter_perm (x : α) (s : List α) : (insertAfter key x s).Perm (x :: s) := by
  have hperm := List.filter_append_perm (fun a => decide (key a ≤ key x)) s
  simp only [← decide_not, not_le] at hperm
  exact List.perm_middle.trans (hperm.cons x)

@[simp] theorem length_insertAfter (x : α) (s : List α) :
    (insertAfter key x s).length = s.length + 1 := (insertAfter_perm x s).length_eq

/-- Behind the last element that is greater nothing changes. -/
theorem insertAfter_append_of_lt (h : key x < key a) (s : List α) :
    insertAfter key x (s ++ [a]) = insertAfter key x s ++ [a] := by
  simp [insertAfter, List.filter_append, h, not_le.mpr h]

/-- A greatest element goes to the end. -/
theorem insertAfter_of_forall_le (h : ∀ b ∈ s, key b ≤ key x) :
    insertAfter key x s = s ++ [x] := by
  have hle : s.filter (fun b => decide (key b ≤ key x)) = s :=
    List.filter_eq_self.mpr fun b hb => decide_eq_true (h b hb)
  have hlt : s.filter (fun b => decide (key x < key b)) = [] :=
    List.filter_eq_nil_iff.mpr fun b hb => by simpa using h b hb
  rw [insertAfter, hle, hlt]

/-- A pass down a sorted list inserts the element it starts with. -/
theorem foldl_exchange_downFrom (hs : s.Pairwise fun a b => key a ≤ key b) (x : α) (t : List α) :
    (downFrom s.length).foldl (exchange key) (s ++ x :: t) = insertAfter key x s ++ t := by
  induction s using List.reverseRecOn generalizing x t with
  | nil => rfl
  | append_singleton s a ih =>
    obtain ⟨hs', -, hle⟩ := List.pairwise_append.mp hs
    have hle' : ∀ b ∈ s, key b ≤ key a := fun b hb => hle b hb a (List.mem_singleton.mpr rfl)
    rw [List.length_append, List.length_singleton, downFrom, List.foldl_cons, List.append_assoc,
      List.singleton_append, exchange_append]
    split
    · rename_i hlt
      -- `a` moves up, and the pass goes on with `x`
      rw [ih hs', insertAfter_append_of_lt hlt, List.append_assoc, List.singleton_append]
    · rename_i hge
      -- `x` stays, and the pass goes on with `a`, which stays too
      have hx : ∀ b ∈ s ++ [a], key b ≤ key x := by
        intro b hb
        rcases List.mem_append.mp hb with hmem | hmem
        · exact (hle' b hmem).trans (not_lt.mp hge)
        · exact (List.mem_singleton.mp hmem) ▸ not_lt.mp hge
      rw [ih hs', insertAfter_of_forall_le hle', insertAfter_of_forall_le hx, List.append_assoc,
        List.append_assoc, List.append_assoc]
      rfl

theorem pairwise_insertAfter (hs : s.Pairwise fun a b => key a ≤ key b) (x : α) :
    (insertAfter key x s).Pairwise fun a b => key a ≤ key b := by
  refine List.pairwise_append.mpr ⟨hs.filter _, List.pairwise_cons.mpr ⟨?_, hs.filter _⟩, ?_⟩
  · intro b hb
    exact (of_decide_eq_true (List.mem_filter.mp hb).2).le
  · intro a ha b hb
    have hax := of_decide_eq_true (List.mem_filter.mp ha).2
    rcases List.mem_cons.mp hb with rfl | hmem
    · exact hax
    · exact hax.trans (of_decide_eq_true (List.mem_filter.mp hmem).2).le

/-! ### The sort -/

/-- The passes over the first `n` elements leave the others alone. -/
theorem exists_foldl_visits (key : α → κ) (h : n ≤ l.length) :
    ∃ s, (visits n).foldl (fun l v => exchange key l v.2) l = s ++ l.drop n ∧
      s.length = n ∧ s.Pairwise fun a b => key a ≤ key b := by
  induction n with
  | zero => exact ⟨[], rfl, rfl, List.Pairwise.nil⟩
  | succ n ih =>
    obtain ⟨s, hs, hlen, hsorted⟩ := ih (by omega)
    refine ⟨insertAfter key l[n] s, ?_, by rw [length_insertAfter, hlen],
      pairwise_insertAfter hsorted _⟩
    rw [visits, List.foldl_append, hs, List.foldl_map, List.drop_eq_getElem_cons (by omega),
      ← foldl_exchange_downFrom hsorted, hlen]

theorem foldl_visits_eq (n : ℕ) (l : List α) :
    (visits n).foldl (fun l v => exchange key l v.2) l =
      ((visits n).map Prod.snd).foldl (exchange key) l := (List.foldl_map).symm

/-- **The sort is stable** and leaves the elements behind the first `n` alone. -/
theorem stableSort_foldl_exchange (key : α → κ) (h : n ≤ l.length) :
    StableSort key (l.take n) (((visits n).foldl (fun l v => exchange key l v.2) l).take n) ∧
      ((visits n).foldl (fun l v => exchange key l v.2) l).drop n = l.drop n := by
  obtain ⟨s, hs, hlen, hsorted⟩ := exists_foldl_visits key h
  have htake : (s ++ l.drop n).take n = s := by rw [← hlen]; exact List.take_left
  have hdrop : (s ++ l.drop n).drop n = l.drop n := by rw [← hlen]; exact List.drop_left
  have hmoved : Rearranged key (l.take n ++ l.drop n) (s ++ l.drop n) := by
    rw [List.take_append_drop, ← hs, foldl_visits_eq]
    exact rearranged_foldl _ l
  rw [hs, htake, hdrop]
  exact ⟨⟨hmoved.of_append_right, hsorted⟩, rfl⟩

/-! ### Where a pass exchanges -/

/-- The visits before the place `j` of the pass number `i`. -/
def visitsTo (i j : ℕ) : List (ℕ × ℕ) :=
  visits i ++ ((downFrom i).take (i - j)).map fun j => (i, j)

theorem downFrom_split (hj : 0 < j) (h : j ≤ i) :
    downFrom i = (downFrom i).take (i - j) ++ j :: downFrom (j - 1) := by
  induction i with
  | zero => omega
  | succ i ih =>
    rcases Nat.le_succ_iff.mp h with hle | rfl
    · rw [downFrom, Nat.succ_sub hle, List.take_succ_cons, List.cons_append, ← ih hle]
    · rw [Nat.sub_self]
      rfl

/-- The place `j` of the pass `i` is visited by every longer sort. -/
theorem exists_visits_eq (hj : 0 < j) (h : j ≤ i) (hn : i < n) :
    ∃ vs, visits n = visitsTo i j ++ (i, j) :: vs := by
  induction n with
  | zero => omega
  | succ n ih =>
    rcases Nat.lt_succ_iff_lt_or_eq.mp hn with hlt | rfl
    · obtain ⟨vs, hvs⟩ := ih hlt
      exact ⟨vs ++ (downFrom n).map fun j => (n, j), by rw [visits, hvs]; simp⟩
    · refine ⟨(downFrom (j - 1)).map fun k => (i, k), ?_⟩
      have hsplit := congrArg (List.map fun k => (i, k)) (downFrom_split hj h)
      rw [List.map_append, List.map_cons] at hsplit
      rw [visits, visitsTo, hsplit, List.append_assoc]

/-- The last visit of a sort. -/
theorem visits_succ_eq (hi : 0 < i) : visits (i + 1) = visitsTo i 1 ++ [(i, 1)] := by
  have hsplit := congrArg (List.map fun j => (i, j)) (downFrom_split Nat.one_pos hi)
  rw [List.map_append] at hsplit
  rw [visits, visitsTo, hsplit, List.append_assoc]
  rfl

theorem mem_downFrom : j ∈ downFrom i ↔ 0 < j ∧ j ≤ i := by
  induction i with
  | zero => simp [downFrom]; omega
  | succ i ih =>
    rw [downFrom, List.mem_cons, ih]
    omega

theorem mem_visits {v : ℕ × ℕ} : v ∈ visits n ↔ 0 < v.2 ∧ v.2 ≤ v.1 ∧ v.1 < n := by
  induction n with
  | zero => simp [visits]
  | succ n ih =>
    have hpass : v ∈ (downFrom n).map (fun j => (n, j)) ↔ v.1 = n ∧ 0 < v.2 ∧ v.2 ≤ n := by
      simp only [List.mem_map, mem_downFrom]
      constructor
      · rintro ⟨j, hj, rfl⟩
        exact ⟨rfl, hj⟩
      · rintro ⟨rfl, hj⟩
        exact ⟨v.2, hj, rfl⟩
    rw [visits, List.mem_append, ih, hpass]
    omega

theorem mem_take_downFrom (h : j ≤ i) {k : ℕ} :
    k ∈ (downFrom i).take (i - j) ↔ j < k ∧ k ≤ i := by
  induction i with
  | zero =>
    rw [Nat.zero_sub, List.take_zero]
    exact iff_of_false List.not_mem_nil (by omega)
  | succ i ih =>
    rcases Nat.le_succ_iff.mp h with hle | rfl
    · rw [Nat.succ_sub hle, downFrom, List.take_succ_cons, List.mem_cons, ih hle]
      omega
    · rw [Nat.sub_self, List.take_zero]
      exact iff_of_false List.not_mem_nil (by omega)

theorem mem_visitsTo (h : j ≤ i) {v : ℕ × ℕ} :
    v ∈ visitsTo i j ↔ v ∈ visits i ∨ v.1 = i ∧ j < v.2 ∧ v.2 ≤ i := by
  rw [visitsTo, List.mem_append, List.mem_map]
  refine or_congr_right ⟨?_, ?_⟩
  · rintro ⟨k, hk, rfl⟩
    exact ⟨rfl, (mem_take_downFrom h).mp hk⟩
  · rintro ⟨rfl, hv⟩
    exact ⟨v.2, (mem_take_downFrom h).mpr hv, rfl⟩

theorem downFrom_nodup (i : ℕ) : (downFrom i).Nodup := by
  induction i with
  | zero => exact List.nodup_nil
  | succ i ih =>
    refine List.nodup_cons.mpr ⟨fun h => ?_, ih⟩
    exact Nat.not_succ_le_self i (mem_downFrom.mp h).2

/-- No place is visited twice in a pass. -/
theorem visits_nodup (n : ℕ) : (visits n).Nodup := by
  induction n with
  | zero => exact List.nodup_nil
  | succ n ih =>
    refine List.nodup_append.mpr ⟨ih, ?_, ?_⟩
    · exact List.Pairwise.map _ (fun j k hne h => hne (Prod.mk.inj h).2) (downFrom_nodup n)
    · rintro v hv w hw rfl
      obtain ⟨j, -, rfl⟩ := List.mem_map.mp hw
      exact Nat.lt_irrefl n (mem_visits.mp hv).2.2

/-- In a pass down a sorted list, the elements at `j - 1` and `j` are exchanged iff fewer
than `j` of the sorted ones are not greater than the one that moves. -/
theorem key_lt_iff_of_sorted (hs : s.Pairwise fun a b => key a ≤ key b) (hj : 0 < j)
    (h : j ≤ s.length)
    (ha : (((downFrom s.length).take (s.length - j)).foldl (exchange key)
      (s ++ x :: t))[j - 1]? = some a)
    (hb : (((downFrom s.length).take (s.length - j)).foldl (exchange key)
      (s ++ x :: t))[j]? = some b) :
    key b < key a ↔ s.countP (fun c => key c ≤ key x) < j := by
  induction s using List.reverseRecOn generalizing x t with
  | nil => simp at h; omega
  | append_singleton s c ih =>
    obtain ⟨hs', -, hle⟩ := List.pairwise_append.mp hs
    have hle' : ∀ b ∈ s, key b ≤ key c := fun b hb => hle b hb c (List.mem_singleton.mpr rfl)
    -- a greatest record at the end counts when it is not above `x`
    have hcount : (s ++ [c]).countP (fun d => decide (key d ≤ key x)) =
        s.countP (fun d => decide (key d ≤ key x)) + if key c ≤ key x then 1 else 0 := by
      rw [List.countP_append, List.countP_singleton]
      simp
    have hall : key c ≤ key x → s.countP (fun d => decide (key d ≤ key x)) = s.length :=
      fun hcx => List.countP_eq_length.mpr fun b hb => decide_eq_true ((hle' b hb).trans hcx)
    have hmost := s.countP_le_length (p := fun d => decide (key d ≤ key x))
    rw [List.length_append, List.length_singleton] at h ha hb
    rw [hcount]
    -- the exchanges have passed `c` already, or stand before it
    rcases Nat.le_succ_iff.mp h with hle_s | rfl
    · rw [Nat.succ_sub hle_s, downFrom, List.take_succ_cons, List.foldl_cons, List.append_assoc,
        List.singleton_append, exchange_append] at ha hb
      -- `x` goes before `c` and on, or stays where it is
      by_cases hlt : key x < key c
      · rw [if_pos hlt] at ha hb
        rw [ih hs' hle_s ha hb, if_neg (not_le.mpr hlt), Nat.add_zero]
      · rw [if_neg hlt] at ha hb
        have hfull : s.countP (fun d => decide (key d ≤ key c)) = s.length :=
          List.countP_eq_length.mpr fun b hb => decide_eq_true (hle' b hb)
        rw [ih hs' hle_s ha hb, hfull, if_pos (not_lt.mp hlt), hall (not_lt.mp hlt)]
        omega
    · rw [Nat.sub_self, List.take_zero, List.foldl_nil] at ha hb
      have hac : a = c := by simpa using ha.symm
      have hbx : b = x := by simpa using hb.symm
      rw [hac, hbx]
      by_cases hlt : key x < key c
      · rw [if_neg (not_le.mpr hlt)]
        exact iff_of_true hlt (by omega)
      · rw [if_pos (not_lt.mp hlt), hall (not_lt.mp hlt)]
        exact iff_of_false hlt (by omega)

/-- **Where the sort exchanges**: at the place `j` of the pass `i` iff fewer than `j` of
the first `i` elements have a key that is not greater than that of element `i`. -/
theorem key_lt_iff_countP_lt (hj : 0 < j) (h : j ≤ i) (hx : l[i]? = some x)
    (ha : ((visitsTo i j).foldl (fun l v => exchange key l v.2) l)[j - 1]? = some a)
    (hb : ((visitsTo i j).foldl (fun l v => exchange key l v.2) l)[j]? = some b) :
    key b < key a ↔ (l.take i).countP (fun c => key c ≤ key x) < j := by
  obtain ⟨hi, hget⟩ := List.getElem?_eq_some_iff.mp hx
  obtain ⟨s, hs, hlen, hsorted⟩ := exists_foldl_visits key (Nat.le_of_lt hi)
  have hperm : (l.take i).Perm s := by
    have hmoved : Rearranged key (l.take i ++ l.drop i) (s ++ l.drop i) := by
      rw [List.take_append_drop, ← hs, foldl_visits_eq]
      exact rearranged_foldl _ l
    exact hmoved.of_append_right.perm.symm
  have hrun : (visitsTo i j).foldl (fun l v => exchange key l v.2) l =
      ((downFrom s.length).take (s.length - j)).foldl (exchange key)
        (s ++ x :: l.drop (i + 1)) := by
    rw [visitsTo, List.foldl_append, hs, List.foldl_map, List.drop_eq_getElem_cons hi, hget, hlen]
  rw [hrun] at ha hb
  rw [hperm.countP_eq, key_lt_iff_of_sorted hsorted hj (hlen ▸ h) ha hb]

/-! ### What the last visit reads -/

/-- All elements of a sorted list but the first are at least as great as its second. -/
theorem countP_lt_le_one_iff (h : (a :: b :: s).Pairwise fun a b => key a ≤ key b) (k : κ) :
    (a :: b :: s).countP (fun c => key c < k) ≤ 1 ↔ k ≤ key b := by
  obtain ⟨ha, hb⟩ := List.pairwise_cons.mp h
  constructor
  · intro hcount
    by_contra hlt
    have hb' : key b < k := not_le.mp hlt
    have ha' : key a < k := (ha b List.mem_cons_self).trans_lt hb'
    rw [List.countP_cons, List.countP_cons, if_pos (decide_eq_true ha'),
      if_pos (decide_eq_true hb')] at hcount
    omega
  · intro hle
    have hzero : (b :: s).countP (fun c => key c < k) = 0 := by
      refine List.countP_eq_zero.mpr fun c hc => ?_
      have hbc : key b ≤ key c := by
        rcases List.mem_cons.mp hc with rfl | hmem
        · exact le_rfl
        · exact (List.pairwise_cons.mp hb).1 c hmem
      exact fun hlt => absurd (of_decide_eq_true hlt) (not_lt.mpr (hle.trans hbc))
    rw [List.countP_cons, hzero]
    split <;> omega

/-- **What the last visit reads at the place 1** is a greatest element iff the last
element of the list is one, and exceeds all others but one at most. -/
theorem forall_le_last_read_iff (hlen : l.length = i + 1) (hi : 0 < i) (hx : l[i]? = some x)
    (hb : ((visitsTo i 1).foldl (fun l v => exchange key l v.2) l)[1]? = some b) :
    (∀ c ∈ l, key c ≤ key b) ↔
      (∀ c ∈ l, key c ≤ key x) ∧ l.countP (fun c => key c < key x) ≤ 1 := by
  obtain ⟨hi', hget⟩ := List.getElem?_eq_some_iff.mp hx
  obtain ⟨s, hs, hslen, hsorted⟩ := exists_foldl_visits key (Nat.le_of_lt hi')
  have hdrop : l.drop i = [x] := by
    rw [List.drop_eq_getElem_cons hi', hget, List.drop_eq_nil_of_le (by omega)]
  have hperm : (x :: s).Perm l := by
    have hmoved : Rearranged key l (s ++ [x]) := by
      rw [← hdrop, ← hs, foldl_visits_eq]
      exact rearranged_foldl _ l
    exact (List.perm_append_singleton x s).symm.trans hmoved.perm
  -- the list before the last visit, and what the visit makes of it
  obtain ⟨L, hL⟩ : ∃ L, (visitsTo i 1).foldl (fun l v => exchange key l v.2) l = L := ⟨_, rfl⟩
  have hrun : ((downFrom s.length).take (s.length - 1)).foldl (exchange key) (s ++ [x]) = L := by
    rw [← hL, visitsTo, List.foldl_append, hs, hdrop, List.foldl_map, hslen]
  have hend : exchange key L 1 = insertAfter key x s := by
    have hpass := foldl_exchange_downFrom hsorted x []
    rw [downFrom_split Nat.one_pos (hslen ▸ hi), List.foldl_append, hrun, List.append_nil] at hpass
    exact hpass
  rw [hL] at hb
  obtain ⟨a, u, rfl⟩ : ∃ a u, L = a :: b :: u := by
    match L, hb with
    | a :: c :: u, hb => exact ⟨a, u, congrArg (a :: · :: u) (Option.some.inj hb)⟩
  have hlt := key_lt_iff_of_sorted (t := []) hsorted Nat.one_pos (hslen ▸ hi)
    (by rw [hrun]; rfl) (by rw [hrun]; rfl)
  have hexchange : exchange key (a :: b :: u) 1 =
      if key b < key a then b :: a :: u else a :: b :: u := exchange_append [] u a b
  rw [hend] at hexchange
  by_cases hba : key b < key a
  · -- `b` is the element that moves, and `a` is greater
    rw [if_pos hba] at hexchange
    have hall : s.filter (fun c => decide (key c ≤ key x)) = [] := by
      rw [← List.length_eq_zero_iff, ← List.countP_eq_length_filter]
      exact Nat.lt_one_iff.mp (hlt.mp hba)
    have hbx : x = b := by
      rw [insertAfter, hall] at hexchange
      exact (List.cons.inj hexchange).1
    have hmem : a ∈ insertAfter key x s := by
      rw [hexchange]
      exact List.mem_cons_of_mem _ List.mem_cons_self
    have ha : a ∈ l := hperm.subset ((insertAfter_perm x s).subset hmem)
    rw [hbx]
    have hgreater : ¬∀ c ∈ l, key c ≤ key b := fun h => absurd (h a ha) (not_le.mpr hba)
    exact iff_of_false hgreater fun h => hgreater h.1
  · rw [if_neg hba] at hexchange
    have hsame : (a :: b :: u).Perm l := hexchange ▸ (insertAfter_perm x s).trans hperm
    have hordered : (a :: b :: u).Pairwise fun a b => key a ≤ key b :=
      hexchange ▸ pairwise_insertAfter hsorted x
    rw [← hsame.countP_eq, countP_lt_le_one_iff hordered]
    have hxl : x ∈ l := hperm.subset List.mem_cons_self
    refine ⟨fun h => ⟨fun c hc => (h c hc).trans ?_, h x hxl⟩, fun h c hc => (h.1 c hc).trans h.2⟩
    by_contra hxb
    -- otherwise `x` and an element that is not greater are both less than `b`
    have hone := (countP_lt_le_one_iff hordered (key b)).mpr le_rfl
    have hle : s.countP (fun c => key c ≤ key x) ≤ s.countP fun c => key c < key b :=
      List.countP_mono_left fun c _ hc =>
        decide_eq_true ((of_decide_eq_true hc).trans_lt (not_le.mp hxb))
    have hsome : ¬s.countP (fun c => key c ≤ key x) < 1 := fun h => hba (hlt.mpr h)
    rw [hsame.countP_eq, ← hperm.countP_eq, List.countP_cons,
      if_pos (decide_eq_true (not_le.mp hxb))] at hone
    omega

end Exchange
end OpSys
