import Mathlib.Logic.Relation
import OpSys.MemMgmt.DigitList

/-!
# The nodes of the lists are freed

`main` of `string_to_list.c` up to its end: `free_list` frees the two lists.  A free of a
node that has been freed, and a read of one, is an error, as an access through NULL is.
All memory is reachable from the two lists all the time: where the program stores a pointer
to a new node, there was none before, or one that `malloc` had left there.

## Main definitions

* `freeLoop`, `freeList`, `main` — the function and the program, with the nodes freed.
* `Reach`, `Covers` — what is reachable over the pointers that are not junk.

## Main results

* `addLoop_covers`, `createLoop_covers` — no memory is lost.
* `frees_all` — every node is freed once.

## References

`lab1_mem_mgmt_and_libs/compiler_optimization/string_to_list.c`.
-/

namespace OpSys
namespace MemMgmt
namespace DigitList

/-- The loop of `free_list`: the nodes freed, the last one first. -/
def freeLoop (h : Heap) : ℕ → List ℕ → Option ℕ → Option (List ℕ)
  | 0, _, _ => none
  | _ + 1, freed, none => some freed
  | fuel + 1, freed, some p =>
    if p ∈ freed then none
    else (h[p]?).bind fun node => freeLoop h fuel (p :: freed) node.next

/-- `free_list`. -/
def freeList (h : Heap) (fuel : ℕ) (freed : List ℕ) (head : Option ℕ) : Option (List ℕ) :=
  freeLoop h fuel freed head

/-- `main` to its end: the nodes that there have been, and those freed. -/
def main (junk : ℕ → Digit) (fuel : ℕ) (m n : ℤ) (k : ℕ) : Option (Heap × List ℕ) :=
  (program junk fuel m n k).bind fun h =>
    (freeList h fuel [] (some 0)).bind fun freed =>
      (freeList h fuel freed (some 1)).map fun freed => (h, freed)

/-! ### Reachable nodes -/

/-- The node `i` points to the node `j`, with a pointer that the program has stored. -/
def Points (h : Heap) (junk : Set ℕ) (i j : ℕ) : Prop :=
  i ∉ junk ∧ (h[i]?).bind Digit.next = some j

/-- There is a way from `r` to `i`. -/
def Reach (h : Heap) (junk : Set ℕ) (r i : ℕ) : Prop :=
  Relation.ReflTransGen (Points h junk) r i

/-- Every node is reachable from one of the `roots`, and not over the pointer of a node in
`junk`. -/
def Covers (h : Heap) (junk : Set ℕ) (roots : List ℕ) : Prop :=
  ∀ i < h.length, ∃ r ∈ roots, Reach h junk r i

variable {h h' : Heap} {junk junk' : Set ℕ} {roots : List ℕ} {a i j : ℕ} {next : Option ℕ}
  {x y : ℤ}

theorem Covers.mono (hc : Covers h junk roots) (hlen : h'.length = h.length)
    (hpoints : ∀ i j, Points h junk i j → Points h' junk' i j) : Covers h' junk' roots := by
  intro i hi
  obtain ⟨r, hr, hreach⟩ := hc i (hlen ▸ hi)
  exact ⟨r, hr, Relation.ReflTransGen.mono hpoints _ _ hreach⟩

theorem points_set_dig (hnode : h[a]? = some ⟨x, next⟩) (hij : Points h junk i j) :
    Points (h.set a ⟨y, next⟩) junk i j := by
  obtain ⟨hi, hnext⟩ := hij
  refine ⟨hi, ?_⟩
  by_cases heq : a = i
  · subst heq
    rw [hnode, Option.bind_some] at hnext
    rwa [List.getElem?_set_self (List.getElem?_eq_some_iff.mp hnode).1, Option.bind_some]
  · rwa [List.getElem?_set_ne heq]

/-- A digit that is stored changes no pointer. -/
theorem Covers.set_dig (hc : Covers h junk roots) (hnode : h[a]? = some ⟨x, next⟩) (y : ℤ) :
    Covers (h.set a ⟨y, next⟩) junk roots :=
  hc.mono List.length_set fun _ _ => points_set_dig hnode

/-- A new node hangs on one that had no pointer before. -/
theorem Covers.grow (hc : Covers h (insert a junk) roots) (hlt : a < h.length) (ha : a ∉ junk)
    (y : ℤ) (node : Digit) :
    Covers (h.set a ⟨y, some h.length⟩ ++ [node]) (insert h.length junk) roots := by
  have hlen : (h.set a ⟨y, some h.length⟩).length = h.length := List.length_set
  -- what was linked is linked still, and the new node behind `a`
  have hold : ∀ i < h.length, (h.set a ⟨y, some h.length⟩ ++ [node])[i]? =
      (h.set a ⟨y, some h.length⟩)[i]? := by
    intro i hi
    exact List.getElem?_append_left (by rwa [hlen])
  have hpoints : ∀ i j, Points h (insert a junk) i j →
      Points (h.set a ⟨y, some h.length⟩ ++ [node]) (insert h.length junk) i j := by
    rintro i j ⟨hi, hnext⟩
    have hia : a ≠ i := fun heq => hi (heq ▸ Set.mem_insert a junk)
    have hilt : i < h.length := by
      by_contra hge
      rw [List.getElem?_eq_none (Nat.le_of_not_lt hge)] at hnext
      exact Option.some_ne_none j hnext.symm
    refine ⟨?_, by rwa [hold i hilt, List.getElem?_set_ne hia]⟩
    rintro (heq | hmem)
    · exact Nat.ne_of_lt hilt heq
    · exact hi (Set.mem_insert_of_mem a hmem)
  have hnew : Points (h.set a ⟨y, some h.length⟩ ++ [node]) (insert h.length junk) a h.length := by
    refine ⟨?_, by rw [hold a hlt, List.getElem?_set_self hlt, Option.bind_some]⟩
    rintro (heq | hmem)
    · exact Nat.ne_of_lt hlt heq
    · exact ha hmem
  intro i hi
  rw [List.length_append, hlen, List.length_singleton] at hi
  rcases Nat.lt_succ_iff_lt_or_eq.mp hi with hlt' | rfl
  · obtain ⟨r, hr, hreach⟩ := hc i hlt'
    exact ⟨r, hr, Relation.ReflTransGen.mono hpoints _ _ hreach⟩
  · obtain ⟨r, hr, hreach⟩ := hc a hlt
    exact ⟨r, hr, (Relation.ReflTransGen.mono hpoints _ _ hreach).tail hnew⟩

/-- A pointer that is NULL is not missed. -/
theorem Covers.insert_of_none (hc : Covers h junk roots) (hnode : h[a]? = some ⟨x, none⟩) :
    Covers h (insert a junk) roots := by
  refine hc.mono rfl ?_
  rintro i j ⟨hi, hnext⟩
  refine ⟨?_, hnext⟩
  rintro (rfl | hmem)
  · rw [hnode, Option.bind_some] at hnext
    exact Option.some_ne_none j hnext.symm
  · exact hi hmem

/-- A pointer that has been junk is overwritten. -/
theorem Covers.set_next (hc : Covers h (insert a junk) roots) (node : Digit) :
    Covers (h.set a node) junk roots := by
  refine hc.mono List.length_set ?_
  rintro i j ⟨hi, hnext⟩
  have hia : a ≠ i := fun heq => hi (heq ▸ Set.mem_insert a junk)
  refine ⟨fun hmem => hi (Set.mem_insert_of_mem a hmem), ?_⟩
  rwa [List.getElem?_set_ne hia]

theorem Covers.set_junk (hc : Covers h (insert a junk) roots) (node : Digit) :
    Covers (h.set a node) (insert a junk) roots := by
  refine hc.mono List.length_set ?_
  rintro i j ⟨hi, hnext⟩
  have hia : a ≠ i := fun heq => hi (heq ▸ Set.mem_insert a junk)
  refine ⟨hi, ?_⟩
  rwa [List.getElem?_set_ne hia]

/-! ### The functions lose no memory -/

theorem extend_covers {tb : Option ℕ} {c : ℤ} (hc : Covers h ∅ roots)
    (hrun : h.extend a tb c = some h') : Covers h' ∅ roots := by
  obtain ⟨⟨x, next⟩, hnode, hif⟩ := Option.bind_eq_some_iff.mp hrun
  have hlt : a < h.length := (List.getElem?_eq_some_iff.mp hnode).1
  split at hif
  · rename_i hmore
    obtain rfl : next = none := hmore.1
    rw [grow_eq hnode] at hif
    obtain rfl := Option.some.inj hif
    have hgrown := (hc.insert_of_none hnode).grow hlt (Set.notMem_empty a) x ⟨0, none⟩
    exact hgrown.mono rfl fun i j hij => ⟨Set.notMem_empty i, hij.2⟩
  · obtain rfl := Option.some.inj hif
    exact hc

theorem setDig_covers (hc : Covers h ∅ roots) (hrun : h.setDig a x = some h') :
    Covers h' ∅ roots := by
  obtain ⟨⟨y, next⟩, hnode, rfl⟩ := Option.map_eq_some_iff.mp hrun
  exact hc.set_dig hnode x

theorem addLoop_covers {fuel : ℕ} {ta tb : Option ℕ} {c : ℤ} (hc : Covers h ∅ roots)
    (hrun : addLoop fuel h ta tb c = some h') : Covers h' ∅ roots := by
  induction fuel generalizing h ta tb c with
  | zero => exact absurd hrun (Option.some_ne_none h').symm
  | succ fuel ih =>
    rw [addLoop] at hrun
    split at hrun
    · obtain ⟨a, -, hrun⟩ := Option.bind_eq_some_iff.mp hrun
      obtain ⟨node, -, hrun⟩ := Option.bind_eq_some_iff.mp hrun
      obtain ⟨digb, -, hrun⟩ := Option.bind_eq_some_iff.mp hrun
      obtain ⟨h₁, hset, hrun⟩ := Option.bind_eq_some_iff.mp hrun
      obtain ⟨tb', -, hrun⟩ := Option.bind_eq_some_iff.mp hrun
      obtain ⟨h₂, hextend, hrun⟩ := Option.bind_eq_some_iff.mp hrun
      obtain ⟨node', -, hrun⟩ := Option.bind_eq_some_iff.mp hrun
      exact ih (extend_covers (setDig_covers hc hset) hextend) hrun
    · obtain rfl := Option.some.inj hrun
      exact hc

theorem addTimes_covers {fuel k a b : ℕ} (hc : Covers h ∅ roots)
    (hrun : addTimes fuel (some a) (some b) k h = some h') : Covers h' ∅ roots := by
  induction k generalizing h with
  | zero =>
    obtain rfl := Option.some.inj hrun
    exact hc
  | succ k ih =>
    obtain ⟨h₁, hadd, hrest⟩ := Option.bind_eq_some_iff.mp hrun
    exact ih (addLoop_covers hc hadd) hrest

/-- The pointer of `trav` is junk while the loop runs, and NULL when it has ended. -/
theorem createLoop_covers {new : ℕ → Digit} {fuel trav : ℕ} {number : ℤ}
    (hc : Covers h (insert trav junk) roots) (hlt : trav < h.length) (htrav : trav ∉ junk)
    (hjunk : ∀ i ∈ junk, i < h.length) (hrun : createLoop new fuel h trav number = some h') :
    Covers h' junk roots := by
  induction fuel generalizing h trav number with
  | zero => exact absurd hrun (Option.some_ne_none h').symm
  | succ fuel ih =>
    obtain ⟨⟨x, next⟩, hnode⟩ : ∃ node, h[trav]? = some node := ⟨_, List.getElem?_eq_getElem hlt⟩
    rw [createLoop] at hrun
    split at hrun
    · obtain ⟨h₁, hgrow, hset, -, -, -, hlen⟩ := grow_setDig hnode (new h.length) (number.tmod 10)
      rw [hgrow, Option.bind_some, hset, Option.bind_some] at hrun
      have hgrown := hc.grow hlt htrav x (new h.length)
      obtain ⟨node', -, rfl⟩ := Option.map_eq_some_iff.mp hset
      refine ih (hgrown.set_junk _) (by omega) ?_ (fun i hi => ?_) hrun
      · exact fun hmem => Nat.lt_irrefl _ (hjunk _ hmem)
      · have := hjunk i hi
        omega
    · rw [setNext_eq hnode] at hrun
      obtain rfl := Option.some.inj hrun
      exact hc.set_next _

theorem createNumAsList_covers {new : ℕ → Digit} {fuel : ℕ} {number : ℤ} {p : Option ℕ}
    (hc : Covers h (insert a junk) roots) (hlt : a < h.length) (ha : a ∉ junk)
    (hjunk : ∀ i ∈ junk, i < h.length)
    (hrun : createNumAsList new fuel h (some a) number = some (h', p)) :
    Covers h' junk roots := by
  obtain ⟨h₁, hset, hrun⟩ := Option.bind_eq_some_iff.mp hrun
  obtain ⟨h₂, hloop, heq⟩ := Option.map_eq_some_iff.mp hrun
  obtain ⟨rfl, -⟩ := Prod.mk.inj heq
  obtain ⟨node', -, rfl⟩ := Option.map_eq_some_iff.mp hset
  have hlen : (h.set a { node' with dig := number.tmod 10 }).length = h.length := List.length_set
  refine createLoop_covers (hc.set_junk _) (by rwa [hlen]) ha (fun i hi => ?_) hloop
  rw [hlen]
  exact hjunk i hi

/-! ### What is freed -/

variable {p : Option ℕ} {path pathb freed : List ℕ} {ds as bs : List ℤ}

theorem Holds.mem_of_points (hp : Holds h p path ds) (hi : i ∈ path) (hij : Points h junk i j) :
    j ∈ path := by
  induction hp with
  | nil => cases hi
  | @cons a d next path ds hnode hrest ih =>
    rcases List.mem_cons.mp hi with rfl | hi
    · have hnext := hij.2
      rw [hnode, Option.bind_some] at hnext
      obtain rfl : next = some j := hnext
      cases hrest with
      | cons _ _ => exact List.mem_cons_of_mem _ List.mem_cons_self
    · exact List.mem_cons_of_mem _ (ih hi)

/-- What is reachable from the head of a list is in the list. -/
theorem Holds.mem_of_reach (hp : Holds h (some a) path ds) (hreach : Reach h junk a i) :
    i ∈ path := by
  induction hreach with
  | refl =>
    cases hp with
    | cons _ _ => exact List.mem_cons_self
  | tail _ hij ih => exact hp.mem_of_points ih hij

/-- `free_list` frees the nodes of a list that has not been freed. -/
theorem freeList_spec (hp : Holds h p path ds) (hfreed : path.Disjoint freed) {fuel : ℕ}
    (hfuel : path.length < fuel) : freeList h fuel freed p = some (path.reverse ++ freed) := by
  unfold freeList
  induction hp generalizing freed fuel with
  | nil =>
    obtain ⟨fuel, rfl⟩ : ∃ k, fuel = k + 1 := ⟨fuel - 1, by omega⟩
    rfl
  | @cons a d next path ds hnode hrest ih =>
    obtain ⟨fuel, rfl⟩ : ∃ k, fuel = k + 1 := ⟨fuel - 1, by omega⟩
    rw [List.length_cons] at hfuel
    obtain ⟨hnot, hnodup⟩ := List.nodup_cons.mp (Holds.cons hnode hrest).nodup
    have hdisjoint : path.Disjoint (a :: freed) := by
      intro i hi hif
      rcases List.mem_cons.mp hif with rfl | hif
      · exact hnot hi
      · exact hfreed (List.mem_cons_of_mem a hi) hif
    rw [freeLoop, if_neg (hfreed List.mem_cons_self), hnode, Option.bind_some,
      ih hdisjoint (by omega), List.reverse_cons, List.append_assoc, List.singleton_append]

/-! ### The program -/

/-- The digits of a number are not more than its value, the first one apart. -/
theorem length_digitsOf_le (number : ℤ) : (digitsOf number).length ≤ number.toNat + 1 := by
  have hle := (canonical_digits number.toNat).length_le
  rw [ofDigits_digits, List.length_cons] at hle
  rwa [digitsOf, toNat_tdiv_ten, List.length_cons, List.length_map]

/-- Repeated additions of lists with any digits: each makes the list longer by one at most. -/
theorem holds_addTimes {b k lena lenb : ℕ} (hp : Holds h (some a) path as)
    (hb : Holds h (some b) pathb bs) (has : Small as) (hbs : Small bs)
    (hapart : path.Disjoint pathb) (hlena : as.length ≤ lena) (hlenb : bs.length ≤ lenb)
    (hle : lenb ≤ lena) {fuel : ℕ} (hfuel : 2 * (lena + lenb + k) + 1 ≤ fuel) :
    ∃ h' path' sum, addTimes fuel (some a) (some b) k h = some h' ∧
      Holds h' (some a) path' sum ∧ sum.length ≤ lena + k ∧ Holds h' (some b) pathb bs ∧
      path'.Disjoint pathb := by
  induction k generalizing h path as lena with
  | zero => exact ⟨h, path, as, rfl, hp, hlena, hb, hapart⟩
  | succ k ih =>
    have hone : 2 * (as.length + bs.length) + 1 ≤ fuel := by omega
    -- every round adds at most one digit to the sum, and leaves the summand alone
    obtain ⟨h₁, new, hadd, hp₁, hframe, hnew⟩ := add_spec hp hb has hbs (Or.inr hapart) hone
    have hlen₁ : (sumDigits as bs 0).length ≤ lena + 1 := by
      have hsum := length_sumDigits_le has hbs (c := 0) (Nat.zero_le 1)
      omega
    have hb₁ : Holds h₁ (some b) pathb bs :=
      hb.congr fun i hi => hframe i (hb.lt_length hi) fun hpi => hapart hpi hi
    have hapart₁ : (path ++ new).Disjoint pathb := by
      intro i hi hib
      rcases List.mem_append.mp hi with hi | hi
      · exact hapart hi hib
      · exact Nat.not_lt_of_le (hnew i hi) (hb.lt_length hib)
    obtain ⟨h', path', sum, hrest, hsum⟩ :=
      ih hp₁ hb₁ (small_sumDigits has) hapart₁ hlen₁ (by omega) (by omega)
    refine ⟨h', path', sum, ?_, hsum.1, by omega, hsum.2.2⟩
    rw [addTimes, hadd, Option.bind_some, hrest]

/-- What the heap holds when the loop of `main` has ended: two lists, with no node in common,
and nothing else. -/
structure Listed (h : Heap) (as bs : List ℤ) (path pathb : List ℕ) : Prop where
  total : Holds h (some 0) path as
  toAdd : Holds h (some 1) pathb bs
  apart : path.Disjoint pathb
  covers : Covers h ∅ [0, 1]

/-- The two lists when they have been made. -/
theorem created_listed (junk : ℕ → Digit) {m n : ℤ} {fuel : ℕ} (hm : m.toNat < fuel)
    (hn : n.toNat < fuel) :
    ∃ h₁ h₂ path pathb,
      createNumAsList junk fuel [junk 0, junk 1] (some 0) m = some (h₁, some 0) ∧
      createNumAsList junk fuel h₁ (some 1) n = some (h₂, some 1) ∧
      Listed h₂ (digitsOf m) (digitsOf n) path pathb := by
  obtain ⟨h₁, h₂, path, pathb, hfirst, hsecond, hp, hb, hapart, hle⟩ := created_spec junk hm hn
  -- both nodes that `main` allocates hold junk at first
  have hstart : Covers [junk 0, junk 1] (insert 0 {1}) [0, 1] := by
    intro i hi
    refine ⟨i, ?_, Relation.ReflTransGen.refl⟩
    rw [List.length_cons, List.length_singleton] at hi
    have hcases : i = 0 ∨ i = 1 := by omega
    simpa using hcases
  have hbelow : ∀ i ∈ ({1} : Set ℕ), i < [junk 0, junk 1].length := by
    rintro i rfl
    exact Nat.one_lt_two
  have hcovers := createNumAsList_covers hstart Nat.two_pos Nat.zero_ne_one hbelow hfirst
  rw [← insert_empty_eq] at hcovers
  have hcovers' := createNumAsList_covers hcovers hle (Set.notMem_empty 1)
    (fun i hi => absurd hi (Set.notMem_empty i)) hsecond
  exact ⟨h₁, h₂, path, pathb, hfirst, hsecond, hp, hb, hapart, hcovers'⟩

theorem program_listed (junk : ℕ → Digit) {m n : ℤ} {k fuel : ℕ}
    (hfuel : 2 * m.toNat + 4 * n.toNat + 2 * k + 5 ≤ fuel) :
    ∃ h as bs path pathb, program junk fuel m n k = some h ∧ Listed h as bs path pathb ∧
      as.length < fuel ∧ bs.length < fuel := by
  have hm : m.toNat < fuel := by omega
  have hn : n.toNat < fuel := by omega
  have hlenb := length_digitsOf_le n
  have hlena : (digitsOf m).length ≤ m.toNat + n.toNat + 1 :=
    (length_digitsOf_le m).trans (by omega)
  have hadd : 2 * (m.toNat + n.toNat + 1 + (n.toNat + 1) + k) + 1 ≤ fuel := by omega
  obtain ⟨h₁, h₂, path, pathb, hfirst, hsecond, hlisted⟩ := created_listed junk hm hn
  obtain ⟨h', path', sum, hadds, hsum, hlen, hb, hapart⟩ :=
    holds_addTimes hlisted.total hlisted.toAdd (small_digitsOf m) (small_digitsOf n)
      hlisted.apart hlena hlenb (by omega) hadd
  refine ⟨h', sum, digitsOf n, path', pathb, ?_,
    ⟨hsum, hb, hapart, addTimes_covers hlisted.covers hadds⟩, by omega, by omega⟩
  simp only [program, hfirst, Option.bind_some, hsecond]
  exact hadds

/-- The lists are freed one after the other, and they are all that there is. -/
theorem Listed.free_both {fuel : ℕ} (hl : Listed h as bs path pathb) (hm : as.length < fuel)
    (hn : bs.length < fuel) :
    ∃ first freed, freeList h fuel [] (some 0) = some first ∧
      freeList h fuel first (some 1) = some freed ∧ freed.Perm (List.range h.length) := by
  have hfirst := freeList_spec hl.total (List.disjoint_nil_right path)
    (hl.total.length_eq.trans_lt hm)
  rw [List.append_nil] at hfirst
  have hapart : pathb.Disjoint path.reverse := by
    intro i hib hi
    exact hl.apart (List.mem_reverse.mp hi) hib
  refine ⟨_, _, hfirst, freeList_spec hl.toAdd hapart (hl.toAdd.length_eq.trans_lt hn), ?_⟩
  -- no node is in both lists, and each is in one of them
  have hnodup : (pathb.reverse ++ path.reverse).Nodup := by
    refine List.Nodup.append (List.nodup_reverse.mpr hl.toAdd.nodup)
      (List.nodup_reverse.mpr hl.total.nodup) fun i hib hi => ?_
    exact hapart (List.mem_reverse.mp hib) hi
  refine (List.perm_ext_iff_of_nodup hnodup List.nodup_range).mpr fun i => ?_
  rw [List.mem_append, List.mem_reverse, List.mem_reverse, List.mem_range]
  constructor
  · rintro (hib | hi)
    · exact hl.toAdd.lt_length hib
    · exact hl.total.lt_length hi
  · intro hi
    obtain ⟨r, hr, hreach⟩ := hl.covers i hi
    rcases List.mem_cons.mp hr with rfl | hr
    · exact Or.inr (hl.total.mem_of_reach hreach)
    · obtain rfl := List.mem_singleton.mp hr
      exact Or.inl (hl.toAdd.mem_of_reach hreach)

/-- **Every node is freed once**: the program comes to its end without an access through
NULL or to a node that has been freed, and what it has freed is what it has allocated. -/
theorem frees_all (junk : ℕ → Digit) (m n : ℤ) (k fuel : ℕ)
    (hfuel : 2 * m.toNat + 4 * n.toNat + 2 * k + 5 ≤ fuel) :
    ∃ h freed, main junk fuel m n k = some (h, freed) ∧ freed.Perm (List.range h.length) := by
  obtain ⟨h, as, bs, path, pathb, hrun, hlisted, hlena, hlenb⟩ := program_listed junk hfuel
  obtain ⟨first, freed, hfirst, hsecond, hperm⟩ := hlisted.free_both hlena hlenb
  refine ⟨h, freed, ?_, hperm⟩
  rw [main, hrun, Option.bind_some, hfirst, Option.bind_some, hsecond]
  rfl

/-- A number may be negative, and what `malloc` leaves differs from node to node. -/
theorem frees_all_three :
    ∃ h freed, main (fun p => ⟨7 - p, some p⟩) 700 99 (-12) 3 = some (h, freed) ∧
      freed.Perm (List.range h.length) :=
  frees_all (fun p => ⟨7 - p, some p⟩) 99 (-12) 3 700 (by decide)

end DigitList
end MemMgmt
end OpSys
