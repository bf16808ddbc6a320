import Mathlib.Data.Nat.Digits.Lemmas
import Mathlib.Data.List.Nodup

/-!
# Numbers as lists of digits

`string_to_list.c` keeps a number as a list of its decimal digits, the last one first, and
adds a list to another in place.  A node has an address, and an access through NULL or
to an address without a node is an error.  `malloc` and `calloc` do not fail, and the sum
of two digits and a carry is far from the bounds of `long`.  The loops run on fuel, which
stands for nothing in the program: any amount from a bound on leads to the end.

## Main definitions

* `Digit`, `Heap` — the nodes.
* `createNumAsList`, `add`, `addTimes` — the functions, and the loop of `main`.
* `Holds h p path ds` — from `p` on, the nodes `path` hold the digits `ds`.
* `Canonical`, `Num` — digits without a superfluous zero, and the list of a number.
* `sumDigits`, `addDigits` — the sum digit by digit, of any digits and of those of numbers.

## Main results

* `Holds.nodup` — a list has no node twice.
* `ofDigits_addDigits`, `canonical_addDigits` — the sum is right, and canonical.
* `advance_spec` — the loop of `add`, wherever the lists end.
* `digits_exact` — the lists hold the digits of the numbers.

## References

`lab1_mem_mgmt_and_libs/compiler_optimization/string_to_list.c`.
-/

namespace OpSys
namespace MemMgmt
namespace DigitList

/-- `struct digit`. -/
structure Digit where
  dig : ℤ
  next : Option ℕ
  deriving DecidableEq, Repr

/-- The nodes in the order of their addresses. -/
abbrev Heap := List Digit

/-- `p->dig = x`. -/
def Heap.setDig (h : Heap) (p : ℕ) (x : ℤ) : Option Heap :=
  (h[p]?).map fun node => h.set p { node with dig := x }

/-- `p->next = q`. -/
def Heap.setNext (h : Heap) (p : ℕ) (q : Option ℕ) : Option Heap :=
  (h[p]?).map fun node => h.set p { node with next := q }

/-- `p->next = malloc(…)` or `calloc(…)`, `node` being what the new memory holds. -/
def Heap.grow (h : Heap) (p : ℕ) (node : Digit) : Option Heap :=
  (h.setNext p (some h.length)).map fun h => h ++ [node]

/-! ### `create_num_as_list` -/

/-- The loop of `create_num_as_list`; `junk p` is what `malloc` leaves in the node `p`. -/
def createLoop (junk : ℕ → Digit) : ℕ → Heap → ℕ → ℤ → Option Heap
  | 0, _, _, _ => none
  | fuel + 1, h, trav, number =>
    if number > 0 then
      (h.grow trav (junk h.length)).bind fun grown =>
        (grown.setDig h.length (number.tmod 10)).bind fun h' =>
          createLoop junk fuel h' h.length (number.tdiv 10)
    else h.setNext trav none

/-- `create_num_as_list`. -/
def createNumAsList (junk : ℕ → Digit) (fuel : ℕ) (h : Heap) (a : Option ℕ) (number : ℤ) :
    Option (Heap × Option ℕ) :=
  match a with
  | none => some (h, none)
  | some p =>
    (h.setDig p (number.tmod 10)).bind fun h =>
      (createLoop junk fuel h p (number.tdiv 10)).map fun h => (h, some p)

/-! ### `add` -/

/-- `travb ? travb->dig : 0`. -/
def Heap.digOr (h : Heap) : Option ℕ → Option ℤ
  | none => some 0
  | some b => (h[b]?).map Digit.dig

/-- `if (travb) travb = travb->next`. -/
def Heap.nextOr (h : Heap) : Option ℕ → Option (Option ℕ)
  | none => some none
  | some b => (h[b]?).map Digit.next

/-- A node for the rest of the sum, if there is a rest and no node. -/
def Heap.extend (h : Heap) (a : ℕ) (travb : Option ℕ) (leftover : ℤ) : Option Heap :=
  (h[a]?).bind fun node =>
    if node.next = none ∧ (travb ≠ none ∨ leftover ≠ 0) then h.grow a ⟨0, none⟩ else some h

/-- The loop of `add`. -/
def addLoop : ℕ → Heap → Option ℕ → Option ℕ → ℤ → Option Heap
  | 0, _, _, _, _ => none
  | fuel + 1, h, travadded, travb, leftover =>
    if travb ≠ none ∨ leftover ≠ 0 then
      travadded.bind fun a =>
        (h[a]?).bind fun node =>
          (h.digOr travb).bind fun digb =>
            let sum := node.dig + digb + leftover
            (h.setDig a (sum.tmod 10)).bind fun h =>
              (h.nextOr travb).bind fun travb =>
                (h.extend a travb (sum.tdiv 10)).bind fun h =>
                  (h[a]?).bind fun node => addLoop fuel h node.next travb (sum.tdiv 10)
    else some h

/-- `add`. -/
def add (fuel : ℕ) (h : Heap) (a b : Option ℕ) : Option Heap :=
  match a, b with
  | none, none => some h
  | none, some b => addLoop fuel (h ++ [⟨0, none⟩]) (some h.length) (some b) 0
  | some a, b => addLoop fuel h (some a) b 0

/-- `k` iterations of the loop of `main`. -/
def addTimes (fuel : ℕ) (a b : Option ℕ) : ℕ → Heap → Option Heap
  | 0, h => some h
  | k + 1, h => (add fuel h a b).bind (addTimes fuel a b k)

/-! ### Lists and digits -/

/-- From `p` on, the nodes `path` hold the digits `ds`. -/
inductive Holds (h : Heap) : Option ℕ → List ℕ → List ℤ → Prop
  | nil : Holds h none [] []
  | cons {a : ℕ} {d : ℤ} {next : Option ℕ} {path : List ℕ} {ds : List ℤ}
      (hnode : h[a]? = some ⟨d, next⟩) (hrest : Holds h next path ds) :
      Holds h (some a) (a :: path) (d :: ds)

/-- Decimal digits, and no superfluous zero at the end. -/
def Canonical (ds : List ℕ) : Prop :=
  (∀ d ∈ ds, d < 10) ∧ (ds = [0] ∨ ∃ d, ds.getLast? = some d ∧ d ≠ 0)

/-- The nodes `path` from `p` on are the list of the number `n`. -/
def Num (h : Heap) (p : Option ℕ) (path : List ℕ) (n : ℕ) : Prop :=
  ∃ ds : List ℕ, Holds h p path (ds.map Nat.cast) ∧ Canonical ds ∧ Nat.ofDigits 10 ds = n

/-- Digits as they come out for numbers of both signs. -/
def Small (ds : List ℤ) : Prop := ∀ d ∈ ds, d.natAbs < 10

@[simp] theorem natAbs_tdiv_ten (x : ℤ) : (x.tdiv 10).natAbs = x.natAbs / 10 := Int.natAbs_tdiv x 10

@[simp] theorem natAbs_tmod_ten (x : ℤ) : (x.tmod 10).natAbs = x.natAbs % 10 := Int.natAbs_tmod x 10

/-- The sum of two lists and a carry, digit by digit. -/
def sumDigits (as bs : List ℤ) (c : ℤ) : List ℤ :=
  if bs = [] ∧ c = 0 then as
  else
    (as.headD 0 + bs.headD 0 + c).tmod 10 ::
      sumDigits as.tail bs.tail ((as.headD 0 + bs.headD 0 + c).tdiv 10)
termination_by (as.length + bs.length, c.natAbs)
decreasing_by
  rename_i h
  by_cases hnil : as = [] ∧ bs = []
  · obtain ⟨rfl, rfl⟩ := hnil
    -- only the carry is left
    have hc : c ≠ 0 := fun hc => h ⟨rfl, hc⟩
    refine Prod.Lex.right _ ?_
    rw [natAbs_tdiv_ten]
    simp only [List.headD_nil, Int.zero_add]
    omega
  · refine Prod.Lex.left _ _ ?_
    simp only [List.length_tail]
    have has := List.length_eq_zero_iff (l := as)
    have hbs := List.length_eq_zero_iff (l := bs)
    have hpos : as.length + bs.length ≠ 0 := fun hsum => hnil ⟨has.mp (by omega), hbs.mp (by omega)⟩
    omega

section Lists

variable {h h' : Heap} {p tb next : Option ℕ} {a : ℕ} {c d : ℤ} {path path' pathb : List ℕ}
  {ds ds' as bs : List ℤ}

@[simp] theorem sumDigits_stop (as : List ℤ) : sumDigits as [] 0 = as := by
  rw [sumDigits, if_pos ⟨rfl, rfl⟩]

theorem sumDigits_step (hgo : bs ≠ [] ∨ c ≠ 0) :
    sumDigits as bs c = (as.headD 0 + bs.headD 0 + c).tmod 10 ::
      sumDigits as.tail bs.tail ((as.headD 0 + bs.headD 0 + c).tdiv 10) := by
  rw [sumDigits, if_neg]
  rintro ⟨hbs, hc⟩
  exact hgo.elim (absurd hbs) (absurd hc)

/-! ### Lists -/

/-- The nodes of a list are those of the heap. -/
theorem Holds.unique (hp : Holds h p path ds) (hp' : Holds h p path' ds') :
    path = path' ∧ ds = ds' := by
  induction hp generalizing path' ds' with
  | nil =>
    cases hp'
    exact ⟨rfl, rfl⟩
  | cons hnode _ ih =>
    cases hp' with
    | cons hnode' hrest' =>
      obtain ⟨hd, rfl⟩ := Digit.mk.inj (Option.some.inj (hnode.symm.trans hnode'))
      obtain ⟨rfl, rfl⟩ := ih hrest'
      exact ⟨rfl, by rw [hd]⟩

theorem Holds.length_eq (hp : Holds h p path ds) : path.length = ds.length := by
  induction hp with
  | nil => rfl
  | cons _ _ ih => rw [List.length_cons, List.length_cons, ih]

theorem Holds.eq_nil_iff (hp : Holds h p path ds) : p = none ↔ ds = [] := by
  cases hp with
  | nil => exact iff_of_true rfl rfl
  | cons => exact iff_of_false (Option.some_ne_none _) (List.cons_ne_nil _ _)

/-- From each node of a list on there is a list. -/
theorem Holds.of_mem (hp : Holds h p path ds) (ha : a ∈ path) :
    ∃ path' ds', Holds h (some a) path' ds' ∧ path'.length ≤ path.length := by
  induction hp with
  | nil => cases ha
  | cons hnode hrest ih =>
    rcases List.mem_cons.mp ha with rfl | ha
    · exact ⟨_, _, Holds.cons hnode hrest, Nat.le_refl _⟩
    · obtain ⟨path', ds', hp', hle⟩ := ih ha
      exact ⟨path', ds', hp', Nat.le_succ_of_le hle⟩

/-- A list has no node twice. -/
theorem Holds.nodup (hp : Holds h p path ds) : path.Nodup := by
  induction hp with
  | nil => exact List.nodup_nil
  | cons hnode hrest ih =>
    refine List.nodup_cons.mpr ⟨fun hmem => ?_, ih⟩
    -- otherwise the list would be as long as a part of it
    obtain ⟨path', ds', hp', hle⟩ := hrest.of_mem hmem
    rw [← ((Holds.cons hnode hrest).unique hp').1, List.length_cons] at hle
    exact Nat.not_succ_le_self _ hle

theorem Holds.lt_length (hp : Holds h p path ds) (ha : a ∈ path) : a < h.length := by
  induction hp with
  | nil => cases ha
  | cons hnode _ ih =>
    rcases List.mem_cons.mp ha with rfl | ha
    · exact (List.getElem?_eq_some_iff.mp hnode).1
    · exact ih ha

/-- A list stays while its nodes do. -/
theorem Holds.congr (hp : Holds h p path ds) (hsame : ∀ a ∈ path, h'[a]? = h[a]?) :
    Holds h' p path ds := by
  induction hp with
  | nil => exact Holds.nil
  | cons hnode _ ih =>
    refine Holds.cons ?_ (ih fun a ha => hsame a (List.mem_cons_of_mem _ ha))
    rw [hsame _ List.mem_cons_self, hnode]

/-! ### Nodes -/

theorem setDig_eq {x y : ℤ} (hnode : h[a]? = some ⟨x, next⟩) :
    h.setDig a y = some (h.set a ⟨y, next⟩) := by
  rw [Heap.setDig, hnode]
  rfl

theorem setNext_eq {x : ℤ} {q : Option ℕ} (hnode : h[a]? = some ⟨x, next⟩) :
    h.setNext a q = some (h.set a ⟨x, q⟩) := by
  rw [Heap.setNext, hnode]
  rfl

theorem grow_eq {x : ℤ} {new : Digit} (hnode : h[a]? = some ⟨x, next⟩) :
    h.grow a new = some (h.set a ⟨x, some h.length⟩ ++ [new]) := by
  rw [Heap.grow, setNext_eq hnode]
  rfl

/-- The nodes that are not written keep the lists they belong to. -/
theorem Holds.set {x : Digit} (hp : Holds h p path ds) (ha : a ∉ path) :
    Holds (h.set a x) p path ds := by
  apply hp.congr
  intro i hi
  have hne : a ≠ i := fun heq => ha (heq ▸ hi)
  exact List.getElem?_set_ne hne

theorem Holds.append (hp : Holds h p path ds) (nodes : Heap) : Holds (h ++ nodes) p path ds := by
  apply hp.congr
  intro i hi
  exact List.getElem?_append_left (hp.lt_length hi)

theorem digOr_eq (hb : Holds h tb pathb bs) : h.digOr tb = some (bs.headD 0) := by
  cases hb with
  | nil => rfl
  | cons hnode =>
    rw [Heap.digOr, hnode]
    rfl

/-- The second list goes on behind its first node. -/
theorem nextOr_eq (hb : Holds h tb pathb bs) :
    ∃ tb', h.nextOr tb = some tb' ∧ Holds h tb' pathb.tail bs.tail := by
  cases hb with
  | nil => exact ⟨none, rfl, Holds.nil⟩
  | cons hnode hrest =>
    refine ⟨_, ?_, hrest⟩
    rw [Heap.nextOr, hnode]
    rfl

/-- **The next node is there when the loop goes on**, an old one or a new one with the digit 0. -/
theorem extend_spec {x : ℤ} (hnode : h[a]? = some ⟨x, next⟩) (hp : Holds h next path as)
    (ha : a ∉ path) (hb : Holds h tb pathb bs) (hb' : a ∉ pathb) (hgo : bs ≠ [] ∨ c ≠ 0) :
    ∃ h' q rest new, h.extend a tb c = some h' ∧ h'[a]? = some ⟨x, some q⟩ ∧
      path ++ new = q :: rest ∧ Holds h' (some q) (q :: rest) (as.headD 0 :: as.tail) ∧
      Holds h' tb pathb bs ∧ (∀ i < h.length, i ≠ a → h'[i]? = h[i]?) ∧
      (∀ i ∈ new, i = h.length) ∧ h.length ≤ h'.length := by
  have hlt : a < h.length := (List.getElem?_eq_some_iff.mp hnode).1
  rw [Heap.extend, hnode, Option.bind_some]
  cases hp with
  | @cons q d next' rest ds hq hrest =>
    refine ⟨h, q, rest, [], if_neg fun hif => Option.some_ne_none _ hif.1, hnode,
      List.append_nil _, Holds.cons hq hrest, hb, fun _ _ _ => rfl, fun _ hi => ?_, Nat.le_refl _⟩
    cases hi
  | nil =>
    have hmore : (none : Option ℕ) = none ∧ (tb ≠ none ∨ c ≠ 0) :=
      ⟨rfl, hgo.imp_left fun hbs htb => hbs (hb.eq_nil_iff.mp htb)⟩
    have hlen : (h.set a ⟨x, some h.length⟩).length = h.length := List.length_set
    refine ⟨h.set a ⟨x, some h.length⟩ ++ [⟨0, none⟩], h.length, [], [h.length], ?_, ?_, rfl, ?_,
      (hb.set hb').append _, fun i hi hne => ?_, fun i hi => List.mem_singleton.mp hi, ?_⟩
    · rw [if_pos hmore, grow_eq hnode]
    · rw [List.getElem?_append_left (by rw [hlen]; exact hlt), List.getElem?_set_self hlt]
    · refine Holds.cons ?_ Holds.nil
      rw [List.getElem?_append_right (by rw [hlen]), hlen, Nat.sub_self]
      rfl
    · rw [List.getElem?_append_left (by rw [hlen]; exact hi), List.getElem?_set_ne (Ne.symm hne)]
    · rw [List.length_append, hlen]
      exact Nat.le_succ _

/-! ### The loop of `add` -/

/-- The rest of an iteration, and the iterations after it. -/
def advance (fuel : ℕ) (h : Heap) (a : ℕ) (travb : Option ℕ) (leftover : ℤ) : Option Heap :=
  (h.extend a travb leftover).bind fun h =>
    (h[a]?).bind fun node => addLoop fuel h node.next travb leftover

theorem addLoop_stop (fuel : ℕ) (h : Heap) (travadded : Option ℕ) :
    addLoop (fuel + 1) h travadded none 0 = some h := by
  rw [addLoop, if_neg]
  simp

/-- An iteration at the node `a`. -/
theorem addLoop_step {fuel : ℕ} (hnode : h[a]? = some ⟨d, next⟩) (hb : Holds h tb pathb bs)
    (hgo : bs ≠ [] ∨ c ≠ 0) {tb' : Option ℕ}
    (hnext : Heap.nextOr (h.set a ⟨(d + bs.headD 0 + c).tmod 10, next⟩) tb = some tb') :
    addLoop (fuel + 1) h (some a) tb c =
      advance fuel (h.set a ⟨(d + bs.headD 0 + c).tmod 10, next⟩) a tb'
        ((d + bs.headD 0 + c).tdiv 10) := by
  have hloop : tb ≠ none ∨ c ≠ 0 :=
    hgo.imp_left fun hbs htb => hbs (hb.eq_nil_iff.mp htb)
  rw [addLoop, if_pos hloop, Option.bind_some, hnode, Option.bind_some, digOr_eq hb,
    Option.bind_some]
  simp only [setDig_eq hnode, Option.bind_some, hnext]
  rfl

/-- What is read of the second list when the node `a` is written, which may be its own. -/
theorem nextOr_set {x : ℤ} (hnode : h[a]? = some ⟨d, next⟩) (hp : Holds h next path as)
    (hb : Holds h tb pathb bs) (hlists : tb = some a ∨ (a :: path).Disjoint pathb) :
    ∃ tb', Heap.nextOr (h.set a ⟨x, next⟩) tb = some tb' ∧
      Holds (h.set a ⟨x, next⟩) tb' pathb.tail bs.tail ∧ a ∉ pathb.tail ∧
      (tb' = next ∨ path.Disjoint pathb.tail) := by
  have ha : a ∉ path := (List.nodup_cons.mp (Holds.cons hnode hp).nodup).1
  rcases hlists with rfl | hdisj
  · obtain ⟨rfl, rfl⟩ := hb.unique (Holds.cons hnode hp)
    refine ⟨next, ?_, hp.set ha, ha, Or.inl rfl⟩
    rw [Heap.nextOr, List.getElem?_set_self (List.getElem?_eq_some_iff.mp hnode).1]
    rfl
  · have hb' : a ∉ pathb := hdisj List.mem_cons_self
    obtain ⟨tb', hnext, hrest⟩ := nextOr_eq (hb.set (x := ⟨x, next⟩) hb')
    refine ⟨tb', hnext, hrest, fun hmem => hb' (List.mem_of_mem_tail hmem), Or.inr ?_⟩
    intro i hi hib
    exact hdisj (List.mem_cons_of_mem _ hi) (List.mem_of_mem_tail hib)

theorem Small.tail (hds : Small ds) : Small ds.tail :=
  fun d hd => hds d (List.mem_of_mem_tail hd)

theorem Small.headD_lt (hds : Small ds) : (ds.headD 0).natAbs < 10 := by
  cases ds with
  | nil => decide
  | cons d ds => exact hds d List.mem_cons_self

/-- The carry is -1, 0 or 1. -/
theorem carry_le (has : Small as) (hbs : Small bs) (hc : c.natAbs ≤ 1) :
    ((as.headD 0 + bs.headD 0 + c).tdiv 10).natAbs ≤ 1 := by
  have hda := has.headD_lt
  have hdb := hbs.headD_lt
  rw [natAbs_tdiv_ten]
  omega

/-- An iteration uses up what it needs of the fuel. -/
theorem enough {fuel : ℕ} (hfuel : 2 * (as.length + bs.length) + c.natAbs + 1 ≤ fuel + 1)
    (hgo : bs ≠ [] ∨ c ≠ 0) (hc : c.natAbs ≤ 1)
    (hcarry : ((as.headD 0 + bs.headD 0 + c).tdiv 10).natAbs ≤ 1) :
    2 * (as.tail.length + bs.tail.length) +
      ((as.headD 0 + bs.headD 0 + c).tdiv 10).natAbs + 1 ≤ fuel := by
  rw [List.length_tail, List.length_tail]
  cases as with
  | cons a as =>
    rw [List.length_cons] at hfuel ⊢
    omega
  | nil =>
    cases bs with
    | cons b bs =>
      rw [List.length_cons] at hfuel ⊢
      omega
    | nil =>
      have hpos : c ≠ 0 := hgo.resolve_left fun hne => hne rfl
      rw [natAbs_tdiv_ten, List.headD_nil, Int.zero_add, Int.zero_add]
      rw [List.length_nil] at *
      omega

/-- **The loop, wherever the lists end.**  Behind the node `a` stand the digits `as`, and the
second list, which is another one or the same, goes on with `bs`. -/
theorem advance_spec (has : Small as) (hbs : Small bs) (hc : c.natAbs ≤ 1) {fuel : ℕ}
    (hfuel : 2 * (as.length + bs.length) + c.natAbs + 1 ≤ fuel) (hnode : h[a]? = some ⟨d, next⟩)
    (hp : Holds h next path as) (ha : a ∉ path) (hb : Holds h tb pathb bs) (hb' : a ∉ pathb)
    (hlists : tb = next ∨ path.Disjoint pathb) :
    ∃ h' new, advance fuel h a tb c = some h' ∧
      Holds h' (some a) (a :: (path ++ new)) (d :: sumDigits as bs c) ∧
      (∀ i < h.length, i ≠ a → i ∉ path → h'[i]? = h[i]?) ∧ ∀ i ∈ new, h.length ≤ i := by
  induction as, bs, c using sumDigits.induct generalizing fuel h a d next path tb pathb with
  | case1 as bs c hstop =>
    obtain ⟨rfl, rfl⟩ := hstop
    obtain rfl := hb.eq_nil_iff.mpr rfl
    obtain ⟨fuel, rfl⟩ : ∃ k, fuel = k + 1 := ⟨fuel - 1, by omega⟩
    refine ⟨h, [], ?_, ?_, fun _ _ _ _ => rfl, fun _ hi => ?_⟩
    · rw [advance, Heap.extend, hnode, Option.bind_some, if_neg (by simp), Option.bind_some, hnode,
        Option.bind_some]
      exact addLoop_stop fuel h next
    · rw [List.append_nil, sumDigits_stop]
      exact Holds.cons hnode hp
    · cases hi
  | case2 as bs c hstop ih =>
    have hgo : bs ≠ [] ∨ c ≠ 0 := by
      by_cases hnil : bs = []
      · exact Or.inr fun hzero => hstop ⟨hnil, hzero⟩
      · exact Or.inl hnil
    obtain ⟨fuel, rfl⟩ : ∃ k, fuel = k + 1 := ⟨fuel - 1, by omega⟩
    obtain ⟨h₁, q, rest, new₁, hextend, hnode₁, hpath, hq, hb₁, hframe₁, hnew₁, hlen₁⟩ :=
      extend_spec hnode hp ha hb hb' hgo
    -- the second list is the first one from here on, or has none of its nodes
    have hlists₁ : tb = some q ∨ (q :: rest).Disjoint pathb := by
      rw [← hpath]
      rcases hlists with rfl | hdisj
      · cases hp with
        | nil =>
          cases hb with
          | nil => exact Or.inr fun _ _ hi => by cases hi
        | cons _ _ =>
          rw [List.cons_append] at hpath
          exact Or.inl (congrArg some (List.cons.inj hpath).1)
      · refine Or.inr fun i hi hib => ?_
        rcases List.mem_append.mp hi with hi | hi
        · exact hdisj hi hib
        · exact absurd (hnew₁ i hi) (Nat.ne_of_lt (hb.lt_length hib))
    have hmem : ∀ i < h.length, i ∉ path → i ≠ q ∧ i ∉ rest := by
      intro i hi hpi
      rw [← not_or, ← List.mem_cons, ← hpath, List.mem_append]
      rintro (hmem | hmem)
      · exact hpi hmem
      · exact Nat.ne_of_lt hi (hnew₁ i hmem)
    obtain ⟨haq, har⟩ := hmem a (List.getElem?_eq_some_iff.mp hnode).1 ha
    cases hq with
    | @cons _ _ nextq _ _ hnodeq hrest =>
    obtain ⟨tb', hnext, hb₂, hqb, hlists₂⟩ :=
      nextOr_set (x := (as.headD 0 + bs.headD 0 + c).tmod 10) hnodeq hrest hb₁ hlists₁
    have hqr : q ∉ rest := (List.nodup_cons.mp (Holds.cons hnodeq hrest).nodup).1
    have hqlt : q < h₁.length := (List.getElem?_eq_some_iff.mp hnodeq).1
    have hcarry := carry_le has hbs hc
    obtain ⟨h', new₂, hrun, hlist, hframe, hnew₂⟩ :=
      ih has.tail hbs.tail hcarry
        (h := h₁.set q ⟨(as.headD 0 + bs.headD 0 + c).tmod 10, nextq⟩)
        (enough hfuel hgo hc hcarry) (List.getElem?_set_self hqlt) (hrest.set hqr) hqr hb₂ hqb
        hlists₂
    rw [List.length_set] at hframe hnew₂
    have hkept : ∀ i < h.length, i ∉ path → h'[i]? = h₁[i]? := by
      intro i hi hpi
      obtain ⟨hiq, hir⟩ := hmem i hi hpi
      rw [hframe i (by omega) hiq hir, List.getElem?_set_ne (Ne.symm hiq)]
    refine ⟨h', new₁ ++ new₂, ?_, ?_, fun i hi hia hpi => ?_, fun i hi => ?_⟩
    · rw [advance, hextend, Option.bind_some, hnode₁, Option.bind_some]
      rw [addLoop_step hnodeq hb₁ hgo hnext]
      exact hrun
    · rw [sumDigits_step hgo, ← List.append_assoc, hpath, List.cons_append]
      refine Holds.cons ?_ hlist
      rw [hkept a (List.getElem?_eq_some_iff.mp hnode).1 ha, hnode₁]
    · rw [hkept i hi hpi, hframe₁ i hi hia]
    · rcases List.mem_append.mp hi with hi | hi
      · exact Nat.le_of_eq (hnew₁ i hi).symm
      · exact Nat.le_trans hlen₁ (hnew₂ i hi)

/-- The sum has at most one digit more than the longer list. -/
theorem length_sumDigits_le (has : Small as) (hbs : Small bs) (hc : c.natAbs ≤ 1) :
    (sumDigits as bs c).length ≤ max as.length bs.length + 1 := by
  induction as, bs, c using sumDigits.induct with
  | case1 as bs c hstop =>
    obtain ⟨rfl, rfl⟩ := hstop
    rw [sumDigits_stop]
    omega
  | case2 as bs c hstop ih =>
    have hle := ih has.tail hbs.tail (carry_le has hbs hc)
    rw [sumDigits, if_neg hstop, List.length_cons]
    rw [List.length_tail, List.length_tail] at hle
    by_cases hnil : as = [] ∧ bs = []
    · -- a carry that is alone leaves no other
      obtain ⟨rfl, rfl⟩ := hnil
      have hlast : ((0 : ℤ) + 0 + c).tdiv 10 = 0 := by
        rw [← Int.natAbs_eq_zero, natAbs_tdiv_ten]
        omega
      simp only [List.headD_nil, List.tail_nil, hlast, sumDigits_stop, List.length_nil]
      omega
    · have has' := List.length_eq_zero_iff (l := as)
      have hbs' := List.length_eq_zero_iff (l := bs)
      have hpos : as.length ≠ 0 ∨ bs.length ≠ 0 := by
        by_contra hboth
        rw [not_or, not_not, not_not] at hboth
        exact hnil ⟨has'.mp hboth.1, hbs'.mp hboth.2⟩
      omega

theorem small_sumDigits (has : Small as) : Small (sumDigits as bs c) := by
  induction as, bs, c using sumDigits.induct with
  | case1 as bs c hstop =>
    obtain ⟨rfl, rfl⟩ := hstop
    rwa [sumDigits_stop]
  | case2 as bs c hstop ih =>
    intro d hd
    rw [sumDigits, if_neg hstop] at hd
    rcases List.mem_cons.mp hd with rfl | hd
    · rw [natAbs_tmod_ten]
      exact Nat.mod_lt _ (by decide)
    · exact ih has.tail d hd

end Lists

/-! ### Sums -/

/-- The sum of the digits of two numbers and a carry. -/
def addDigits (as bs : List ℕ) (c : ℕ) : List ℕ :=
  if bs = [] ∧ c = 0 then as
  else
    (as.headD 0 + bs.headD 0 + c) % 10 ::
      addDigits as.tail bs.tail ((as.headD 0 + bs.headD 0 + c) / 10)
termination_by (as.length + bs.length, c)
decreasing_by
  rename_i h
  by_cases hnil : as = [] ∧ bs = []
  · obtain ⟨rfl, rfl⟩ := hnil
    -- only the carry is left
    have hc : c ≠ 0 := fun hc => h ⟨rfl, hc⟩
    refine Prod.Lex.right _ ?_
    simp only [List.headD_nil, Nat.zero_add]
    omega
  · refine Prod.Lex.left _ _ ?_
    simp only [List.length_tail]
    have has := List.length_eq_zero_iff (l := as)
    have hbs := List.length_eq_zero_iff (l := bs)
    have hpos : as.length + bs.length ≠ 0 := fun hsum => hnil ⟨has.mp (by omega), hbs.mp (by omega)⟩
    omega

section Sums

variable {as bs ds : List ℕ} {c : ℕ}

@[simp] theorem addDigits_stop (as : List ℕ) : addDigits as [] 0 = as := by
  rw [addDigits, if_pos ⟨rfl, rfl⟩]

theorem addDigits_step (hgo : bs ≠ [] ∨ c ≠ 0) :
    addDigits as bs c = (as.headD 0 + bs.headD 0 + c) % 10 ::
      addDigits as.tail bs.tail ((as.headD 0 + bs.headD 0 + c) / 10) := by
  rw [addDigits, if_neg]
  rintro ⟨hbs, hc⟩
  exact hgo.elim (absurd hbs) (absurd hc)

theorem headD_map_cast (ds : List ℕ) : (ds.map Nat.cast : List ℤ).headD 0 = (ds.headD 0 : ℕ) := by
  cases ds <;> rfl

/-- On the digits of numbers, the sum digit by digit is that of the numbers. -/
theorem sumDigits_cast (as bs : List ℕ) (c : ℕ) :
    sumDigits (as.map Nat.cast) (bs.map Nat.cast) c = (addDigits as bs c).map Nat.cast := by
  induction as, bs, c using addDigits.induct with
  | case1 as bs c hstop =>
    obtain ⟨rfl, rfl⟩ := hstop
    rw [addDigits_stop]
    exact sumDigits_stop _
  | case2 as bs c hstop ih =>
    have hgo : (bs.map Nat.cast : List ℤ) ≠ [] ∨ (c : ℤ) ≠ 0 := by
      by_contra hboth
      rw [not_or, not_not, not_not, List.map_eq_nil_iff, Int.natCast_eq_zero] at hboth
      exact hstop hboth
    have hsum : ((as.headD 0 : ℕ) : ℤ) + (bs.headD 0 : ℕ) + (c : ℕ) =
        ((as.headD 0 + bs.headD 0 + c : ℕ) : ℤ) := by
      push_cast
      rfl
    rw [sumDigits_step hgo, addDigits, if_neg hstop, List.map_cons, ← ih, headD_map_cast,
      headD_map_cast, hsum, List.map_tail, List.map_tail]
    rfl

theorem small_cast (hds : ∀ d ∈ ds, d < 10) : Small (ds.map Nat.cast) := by
  intro x hx
  obtain ⟨d, hd, rfl⟩ := List.mem_map.mp hx
  exact hds d hd

theorem ofDigits_eq (ds : List ℕ) :
    Nat.ofDigits 10 ds = ds.headD 0 + 10 * Nat.ofDigits 10 ds.tail := by
  cases ds with
  | nil => rfl
  | cons d ds => exact Nat.ofDigits_cons

/-- The sum is right. -/
theorem ofDigits_addDigits (as bs : List ℕ) (c : ℕ) :
    Nat.ofDigits 10 (addDigits as bs c) = Nat.ofDigits 10 as + Nat.ofDigits 10 bs + c := by
  induction as, bs, c using addDigits.induct with
  | case1 as bs c hstop =>
    obtain ⟨rfl, rfl⟩ := hstop
    rw [addDigits_stop]
    rfl
  | case2 as bs c hstop ih =>
    rw [addDigits, if_neg hstop, Nat.ofDigits_cons, ih, ofDigits_eq as, ofDigits_eq bs]
    omega

theorem addDigits_lt (has : ∀ d ∈ as, d < 10) : ∀ d ∈ addDigits as bs c, d < 10 := by
  induction as, bs, c using addDigits.induct with
  | case1 as bs c hstop =>
    obtain ⟨rfl, rfl⟩ := hstop
    rwa [addDigits_stop]
  | case2 as bs c hstop ih =>
    intro d hd
    rw [addDigits, if_neg hstop] at hd
    rcases List.mem_cons.mp hd with rfl | hd
    · exact Nat.mod_lt _ (by decide)
    · exact ih (fun d hd => has d (List.mem_of_mem_tail hd)) d hd

theorem addDigits_nil_left (hbs : ∀ d ∈ bs, d < 10) : addDigits [] bs 0 = bs := by
  induction bs with
  | nil => exact addDigits_stop []
  | cons b bs ih =>
    have hb : b < 10 := hbs b List.mem_cons_self
    have hsum : [].headD 0 + (b :: bs).headD 0 + 0 = b := Nat.zero_add b
    rw [addDigits_step (Or.inl (List.cons_ne_nil _ _)), hsum, Nat.mod_eq_of_lt hb,
      Nat.div_eq_of_lt hb]
    exact congrArg (b :: ·) (ih fun d hd => hbs d (List.mem_cons_of_mem _ hd))

/-- No digits, or a last one that is not zero. -/
def Topped (ds : List ℕ) : Prop := ∀ d, ds.getLast? = some d → d ≠ 0

theorem Topped.tail (hds : Topped ds) : Topped ds.tail := by
  cases ds with
  | nil => exact hds
  | cons d ds =>
    cases ds with
    | nil => exact nofun
    | cons e ds => exact fun x hx => hds x (by rw [List.getLast?_cons_cons]; exact hx)

theorem topped_cons (hd : ds = [] → d ≠ 0) (hds : Topped ds) : Topped (d :: ds) := by
  cases ds with
  | nil =>
    intro x hx
    rw [← Option.some.inj hx]
    exact hd rfl
  | cons e ds =>
    intro x hx
    rw [List.getLast?_cons_cons] at hx
    exact hds x hx

/-- A list that ends where its first digit does has a first digit, if it has one at all. -/
theorem Topped.headD_ne_zero (hds : Topped ds) (htail : ds.tail = []) (hne : ds ≠ []) :
    ds.headD 0 ≠ 0 := by
  cases ds with
  | nil => exact absurd rfl hne
  | cons d ds =>
    rw [List.tail_cons] at htail
    subst htail
    exact hds d rfl

theorem addDigits_eq_nil (hsum : addDigits as bs c = []) : as = [] ∧ bs = [] ∧ c = 0 := by
  rw [addDigits] at hsum
  by_cases hstop : bs = [] ∧ c = 0
  · rw [if_pos hstop] at hsum
    exact ⟨hsum, hstop⟩
  · rw [if_neg hstop] at hsum
    exact absurd hsum (List.cons_ne_nil _ _)

/-- The last digit of the sum is that of an operand, with the carry, or the carry. -/
theorem topped_addDigits (has : Topped as) (hbs : Topped bs) : Topped (addDigits as bs c) := by
  induction as, bs, c using addDigits.induct with
  | case1 as bs c hstop =>
    obtain ⟨rfl, rfl⟩ := hstop
    rwa [addDigits_stop]
  | case2 as bs c hstop ih =>
    rw [addDigits, if_neg hstop]
    refine topped_cons (fun hrest => ?_) (ih has.tail hbs.tail)
    obtain ⟨hatail, hbtail, hcarry⟩ := addDigits_eq_nil hrest
    have hlt : as.headD 0 + bs.headD 0 + c < 10 := by omega
    rw [Nat.mod_eq_of_lt hlt]
    by_cases hnil : bs = []
    · have hc : c ≠ 0 := fun hc => hstop ⟨hnil, hc⟩
      omega
    · have hb := hbs.headD_ne_zero hbtail hnil
      omega

theorem Canonical.ne_nil (hds : Canonical ds) : ds ≠ [] := by
  rintro rfl
  rcases hds.2 with hzero | ⟨d, hd, _⟩
  · cases hzero
  · cases hd

theorem canonical_of_topped (hlt : ∀ d ∈ ds, d < 10) (htop : Topped ds) (hne : ds ≠ []) :
    Canonical ds :=
  ⟨hlt, Or.inr ⟨ds.getLast hne, List.getLast?_eq_some_getLast hne,
    htop _ (List.getLast?_eq_some_getLast hne)⟩⟩

theorem Canonical.topped (hds : Canonical ds) (hne : ds ≠ [0]) : Topped ds := by
  rcases hds.2 with hzero | ⟨d, hlast, hd⟩
  · exact absurd hzero hne
  · intro x hx
    rw [hlast] at hx
    rwa [← Option.some.inj hx]

/-- **The sum has no superfluous zero.** -/
theorem canonical_addDigits (has : Canonical as) (hbs : Canonical bs) :
    Canonical (addDigits as bs 0) := by
  by_cases hazero : as = [0]
  · -- the digits of the second list come out
    subst hazero
    have hzero : addDigits [0] bs 0 = addDigits [] bs 0 := by
      have hgo : bs ≠ [] ∨ 0 ≠ 0 := Or.inl hbs.ne_nil
      rw [addDigits_step hgo, addDigits_step hgo]
      rfl
    rw [hzero, addDigits_nil_left hbs.1]
    exact hbs
  by_cases hbzero : bs = [0]
  · subst hbzero
    obtain ⟨a, as, rfl⟩ := List.exists_cons_of_ne_nil has.ne_nil
    have ha : a < 10 := has.1 a List.mem_cons_self
    rw [addDigits_step (Or.inl (List.cons_ne_nil _ _))]
    simp only [List.headD_cons, List.tail_cons, Nat.add_zero, Nat.mod_eq_of_lt ha,
      Nat.div_eq_of_lt ha, addDigits_stop]
    exact has
  · refine canonical_of_topped (addDigits_lt has.1) ?_ fun hnil => ?_
    · exact topped_addDigits (has.topped hazero) (hbs.topped hbzero)
    · exact has.ne_nil (addDigits_eq_nil hnil).1

end Sums

/-! ### The functions -/

section Functions

variable {h h' : Heap} {p next : Option ℕ} {a : ℕ} {d : ℤ} {path pathb : List ℕ}
  {as bs : List ℤ} {ds : List ℕ}

theorem canonical_digits (n : ℕ) : Canonical (n % 10 :: Nat.digits 10 (n / 10)) := by
  by_cases hzero : n = 0
  · subst hzero
    rw [Nat.zero_div, Nat.digits_zero]
    exact ⟨fun d hd => by rw [List.mem_singleton.mp hd]; decide, Or.inl rfl⟩
  · rw [← Nat.digits_def' (by decide) (Nat.pos_of_ne_zero hzero)]
    have hne : Nat.digits 10 n ≠ [] := Nat.digits_ne_nil_iff_ne_zero.mpr hzero
    refine canonical_of_topped (fun d hd => Nat.digits_lt_base (by decide) hd) ?_ hne
    intro d hd
    rw [List.getLast?_eq_some_getLast hne] at hd
    rw [← Option.some.inj hd]
    exact Nat.getLast_digit_ne_zero 10 hzero

theorem ofDigits_digits (n : ℕ) : Nat.ofDigits 10 (n % 10 :: Nat.digits 10 (n / 10)) = n := by
  rw [Nat.ofDigits_cons, Nat.ofDigits_digits]
  exact Nat.mod_add_div n 10

/-- A new node behind `a`, with the digit `y`. -/
theorem grow_setDig {x : ℤ} (hnode : h[a]? = some ⟨x, next⟩) (junk : Digit) (y : ℤ) :
    ∃ h₁, h.grow a junk = some (h.set a ⟨x, some h.length⟩ ++ [junk]) ∧
      Heap.setDig (h.set a ⟨x, some h.length⟩ ++ [junk]) h.length y = some h₁ ∧
      h₁[a]? = some ⟨x, some h.length⟩ ∧ h₁[h.length]? = some ⟨y, junk.next⟩ ∧
      (∀ i < h.length, i ≠ a → h₁[i]? = h[i]?) ∧ h₁.length = h.length + 1 := by
  have hlt : a < h.length := (List.getElem?_eq_some_iff.mp hnode).1
  have hset : (h.set a ⟨x, some h.length⟩).length = h.length := List.length_set
  have hlen : (h.set a ⟨x, some h.length⟩ ++ [junk]).length = h.length + 1 := by
    rw [List.length_append, hset]
    rfl
  have hnew : (h.set a ⟨x, some h.length⟩ ++ [junk])[h.length]? = some ⟨junk.dig, junk.next⟩ := by
    rw [List.getElem?_append_right (by rw [hset]), hset, Nat.sub_self]
    rfl
  have hold : ∀ i < h.length, ((h.set a ⟨x, some h.length⟩ ++ [junk]).set h.length
      ⟨y, junk.next⟩)[i]? = (h.set a ⟨x, some h.length⟩)[i]? := by
    intro i hi
    rw [List.getElem?_set_ne (Nat.ne_of_gt hi), List.getElem?_append_left (by rw [hset]; exact hi)]
  refine ⟨_, grow_eq hnode, setDig_eq hnew, ?_, ?_, fun i hi hne => ?_, ?_⟩
  · rw [hold a hlt, List.getElem?_set_self hlt]
  · exact List.getElem?_set_self (by rw [hlen]; exact Nat.lt_succ_self _)
  · rw [hold i hi, List.getElem?_set_ne (Ne.symm hne)]
  · rw [List.length_set, hlen]

/-- The loop puts the digits of `number` behind the node `trav`, and none if it is negative. -/
theorem createLoop_spec (junk : ℕ → Digit) {fuel : ℕ} {number : ℤ} (hfuel : number.toNat < fuel)
    (hnode : h[a]? = some ⟨d, next⟩) :
    ∃ h' path, createLoop junk fuel h a number = some h' ∧
      Holds h' (some a) (a :: path) (d :: (Nat.digits 10 number.toNat).map Nat.cast) ∧
      (∀ i < h.length, i ≠ a → h'[i]? = h[i]?) ∧ (∀ i ∈ path, h.length ≤ i) ∧
      h.length ≤ h'.length := by
  have hlt : a < h.length := (List.getElem?_eq_some_iff.mp hnode).1
  generalize hn : number.toNat = n at hfuel ⊢
  induction n using Nat.strong_induction_on generalizing fuel h a d next number with
  | h n ih =>
    obtain ⟨fuel, rfl⟩ : ∃ k, fuel = k + 1 := ⟨fuel - 1, by omega⟩
    rw [createLoop]
    by_cases hpos : number > 0
    · have hpos' : 0 < n := by omega
      obtain rfl : number = n := by omega
      have hmod : (n : ℤ).tmod 10 = (n % 10 : ℕ) := rfl
      have hdiv : (n : ℤ).tdiv 10 = (n / 10 : ℕ) := rfl
      obtain ⟨h₁, hgrow, hset, hnode₁, hnew₁, hframe₁, hlen₁⟩ :=
        grow_setDig hnode (junk h.length) (n % 10 : ℕ)
      have hfuel' : n / 10 < fuel := by omega
      obtain ⟨h', path, hrun, hlist, hframe, hpath, hle⟩ :=
        ih (n / 10) (Nat.div_lt_self hpos' (by decide)) hnew₁
          (by rw [hlen₁]; exact Nat.lt_succ_self _) (Int.toNat_natCast (n / 10)) hfuel'
      rw [hlen₁] at hframe hpath hle
      refine ⟨h', h.length :: path, ?_, ?_, fun i hi hne => ?_, fun i hi => ?_, by omega⟩
      · rw [if_pos hpos, hgrow, Option.bind_some, hmod, hset, Option.bind_some, hdiv, hrun]
      · rw [Nat.digits_def' (by decide) hpos', List.map_cons]
        refine Holds.cons ?_ hlist
        rw [hframe a (by omega) (Nat.ne_of_lt hlt), hnode₁]
      · rw [hframe i (by omega) (Nat.ne_of_lt hi), hframe₁ i hi hne]
      · rcases List.mem_cons.mp hi with rfl | hi
        · exact Nat.le_refl _
        · exact Nat.le_of_succ_le (hpath i hi)
    · obtain rfl : n = 0 := by omega
      rw [if_neg hpos, setNext_eq hnode, Nat.digits_zero]
      refine ⟨_, [], rfl, Holds.cons (List.getElem?_set_self hlt) Holds.nil, fun i _ hne => ?_,
        nofun, Nat.le_of_eq List.length_set.symm⟩
      rw [List.getElem?_set_ne (Ne.symm hne)]

/-- The digits that `create_num_as_list` writes. -/
def digitsOf (number : ℤ) : List ℤ :=
  number.tmod 10 :: (Nat.digits 10 (number.tdiv 10).toNat).map Nat.cast

theorem small_digitsOf (number : ℤ) : Small (digitsOf number) := by
  intro d hd
  rcases List.mem_cons.mp hd with rfl | hd
  · rw [natAbs_tmod_ten]
    exact Nat.mod_lt _ (by decide)
  · exact small_cast (fun d hd => Nat.digits_lt_base (by decide) hd) d hd

theorem toNat_tdiv_ten (number : ℤ) : (number.tdiv 10).toNat = number.toNat / 10 := by
  rcases Int.le_total 0 number with hnonneg | hneg
  · obtain ⟨n, rfl⟩ := Int.eq_ofNat_of_zero_le hnonneg
    rfl
  · obtain ⟨n, rfl⟩ := Int.exists_eq_neg_ofNat hneg
    rw [Int.neg_tdiv]
    change (-((n / 10 : ℕ) : ℤ)).toNat = (-(n : ℤ)).toNat / 10
    omega

/-- **`create_num_as_list` writes the digits**, the first of them into the node it is given, the
others into new ones. -/
theorem createNumAsList_spec (junk : ℕ → Digit) {fuel : ℕ} {number : ℤ}
    (hfuel : number.toNat < fuel) (hlt : a < h.length) :
    ∃ h' path, createNumAsList junk fuel h (some a) number = some (h', some a) ∧
      Holds h' (some a) (a :: path) (digitsOf number) ∧
      (∀ i < h.length, i ≠ a → h'[i]? = h[i]?) ∧
      (∀ i ∈ path, h.length ≤ i) ∧ h.length ≤ h'.length := by
  obtain ⟨⟨x, next⟩, hnode⟩ : ∃ node, h[a]? = some node := ⟨_, List.getElem?_eq_getElem hlt⟩
  have hset : (h.set a ⟨number.tmod 10, next⟩).length = h.length := List.length_set
  have hfuel' : (number.tdiv 10).toNat < fuel := by
    rw [toNat_tdiv_ten]
    omega
  obtain ⟨h', path, hrun, hlist, hframe, hpath, hle⟩ :=
    createLoop_spec junk hfuel'
      (List.getElem?_set_self hlt : (h.set a ⟨number.tmod 10, next⟩)[a]? = _)
  rw [hset] at hframe hpath hle
  refine ⟨h', path, ?_, hlist, fun i hi hne => ?_, hpath, hle⟩
  · rw [createNumAsList]
    simp only [setDig_eq hnode, Option.bind_some, hrun, Option.map_some]
  · rw [hframe i hi hne, List.getElem?_set_ne (Ne.symm hne)]

/-- The digits of a number are canonical. -/
theorem num_digitsOf {n : ℕ} (hp : Holds h p path (digitsOf n)) : Num h p path n :=
  ⟨n % 10 :: Nat.digits 10 (n / 10), hp, canonical_digits n, ofDigits_digits n⟩

/-- `add` on lists with digits. -/
theorem add_spec {b : ℕ} (hp : Holds h (some a) path as) (hb : Holds h (some b) pathb bs)
    (has : Small as) (hbs : Small bs) (hlists : some b = some a ∨ path.Disjoint pathb) {fuel : ℕ}
    (hfuel : 2 * (as.length + bs.length) + 1 ≤ fuel) :
    ∃ h' new, add fuel h (some a) (some b) = some h' ∧
      Holds h' (some a) (path ++ new) (sumDigits as bs 0) ∧
      (∀ i < h.length, i ∉ path → h'[i]? = h[i]?) ∧ (∀ i ∈ new, h.length ≤ i) := by
  obtain ⟨fuel, rfl⟩ : ∃ k, fuel = k + 1 := ⟨fuel - 1, by omega⟩
  have hgo : bs ≠ [] ∨ (0 : ℤ) ≠ 0 :=
    Or.inl fun hnil => Option.some_ne_none b (hb.eq_nil_iff.mpr hnil)
  have hcarry := carry_le has hbs (c := 0) (Nat.zero_le 1)
  have hmore := enough hfuel hgo (Nat.zero_le 1) hcarry
  rw [add]
  cases hp with
  | @cons _ d next path as hnode hrest =>
    have ha : a ∉ path := (List.nodup_cons.mp (Holds.cons hnode hrest).nodup).1
    have hlt : a < h.length := (List.getElem?_eq_some_iff.mp hnode).1
    obtain ⟨tb', hnext, hb', hab, hlists'⟩ :=
      nextOr_set (x := (d + bs.headD 0 + 0).tmod 10) hnode hrest hb hlists
    obtain ⟨h', new, hrun, hlist, hframe, hnew⟩ :=
      advance_spec has.tail hbs.tail hcarry hmore (List.getElem?_set_self hlt)
        (hrest.set ha) ha hb' hab hlists'
    rw [List.length_set] at hframe hnew
    refine ⟨h', new, ?_, ?_, fun i hi hpi => ?_, hnew⟩
    · exact (addLoop_step (c := 0) hnode hb hgo hnext).trans hrun
    · rw [sumDigits_step hgo]
      exact hlist
    · obtain ⟨hia, hir⟩ := not_or.mp fun hmem => hpi (List.mem_cons.mpr hmem)
      rw [hframe i hi hia hir, List.getElem?_set_ne (Ne.symm hia)]

/-! ### The lists of numbers -/

theorem Topped.length_le (hds : Topped ds) : ds.length ≤ Nat.ofDigits 10 ds := by
  induction ds with
  | nil => exact Nat.zero_le _
  | cons d ds ih =>
    have hle := ih hds.tail
    rw [List.length_cons, Nat.ofDigits_cons]
    by_cases hnil : ds = []
    · subst hnil
      have hd : d ≠ 0 := hds.headD_ne_zero rfl (List.cons_ne_nil _ _)
      rw [List.length_nil]
      omega
    · have hpos := List.length_pos_iff.mpr hnil
      omega

/-- A number has at most one digit more than its value. -/
theorem Canonical.length_le (hds : Canonical ds) : ds.length ≤ Nat.ofDigits 10 ds + 1 := by
  by_cases hzero : ds = [0]
  · rw [hzero]
    exact Nat.le_add_left 1 _
  · exact Nat.le_succ_of_le (hds.topped hzero).length_le

theorem Num.congr {n : ℕ} (hn : Num h p path n) (hsame : ∀ a ∈ path, h'[a]? = h[a]?) :
    Num h' p path n := by
  obtain ⟨ds, hds, hcanonical, rfl⟩ := hn
  exact ⟨ds, hds.congr hsame, hcanonical, rfl⟩

theorem Num.lt_length {n : ℕ} (hn : Num h p path n) : ∀ i ∈ path, i < h.length := by
  obtain ⟨ds, hds, _⟩ := hn
  exact fun i hi => hds.lt_length hi

/-- **`add` adds**, to another list and to the same one. -/
theorem num_add {b m n : ℕ} (hm : Num h (some a) path m) (hn : Num h (some b) pathb n)
    (hlists : some b = some a ∨ path.Disjoint pathb) {fuel : ℕ} (hfuel : 2 * (m + n) + 5 ≤ fuel) :
    ∃ h' new, add fuel h (some a) (some b) = some h' ∧ Num h' (some a) (path ++ new) (m + n) ∧
      (∀ i < h.length, i ∉ path → h'[i]? = h[i]?) ∧ ∀ i ∈ new, h.length ≤ i := by
  obtain ⟨as, hp, has, rfl⟩ := hm
  obtain ⟨bs, hb, hbs, rfl⟩ := hn
  have hlena := has.length_le
  have hlenb := hbs.length_le
  have hfuel' : 2 * ((as.map Nat.cast : List ℤ).length + (bs.map Nat.cast : List ℤ).length) + 1 ≤
      fuel := by
    rw [List.length_map, List.length_map]
    omega
  obtain ⟨h', new, hrun, hlist, hframe, hnew⟩ :=
    add_spec hp hb (small_cast has.1) (small_cast hbs.1) hlists hfuel'
  have hsum := sumDigits_cast as bs 0
  rw [Int.natCast_zero] at hsum
  rw [hsum] at hlist
  exact ⟨h', new, hrun, ⟨_, hlist, canonical_addDigits has hbs, ofDigits_addDigits as bs 0⟩,
    hframe, hnew⟩

/-- `add` leaves a list with other nodes alone, and the two stay apart. -/
theorem num_add_apart {b m n : ℕ} (hm : Num h (some a) path m) (hn : Num h (some b) pathb n)
    (hapart : path.Disjoint pathb) {fuel : ℕ} (hfuel : 2 * (m + n) + 5 ≤ fuel) :
    ∃ h' path', add fuel h (some a) (some b) = some h' ∧ Num h' (some a) path' (m + n) ∧
      path'.Disjoint pathb ∧ ∀ i ∈ pathb, h'[i]? = h[i]? := by
  obtain ⟨h', new, hrun, hnum, hframe, hnew⟩ := num_add hm hn (Or.inr hapart) hfuel
  refine ⟨h', path ++ new, hrun, hnum, fun i hi hib => ?_, fun i hi => ?_⟩
  · rcases List.mem_append.mp hi with hi | hi
    · exact hapart hi hib
    · exact absurd (hn.lt_length i hib) (Nat.not_lt_of_le (hnew i hi))
  · exact hframe i (hn.lt_length i hi) fun hpi => hapart hpi hi

/-- **Repeated additions**, any number of them. -/
theorem num_addTimes {b m n k : ℕ} (hm : Num h (some a) path m) (hn : Num h (some b) pathb n)
    (hapart : path.Disjoint pathb) {fuel : ℕ} (hfuel : 2 * (m + k * n) + 5 ≤ fuel) :
    ∃ h' path', addTimes fuel (some a) (some b) k h = some h' ∧
      Num h' (some a) path' (m + k * n) ∧ path'.Disjoint pathb ∧ ∀ i ∈ pathb, h'[i]? = h[i]? := by
  induction k generalizing h path m with
  | zero =>
    refine ⟨h, path, rfl, ?_, hapart, fun _ _ => rfl⟩
    rwa [Nat.zero_mul]
  | succ k ih =>
    have hsum : m + (k + 1) * n = m + n + k * n := by
      rw [Nat.succ_mul, Nat.add_comm (k * n), Nat.add_assoc]
    rw [hsum] at hfuel ⊢
    have hfuel₁ : 2 * (m + n) + 5 ≤ fuel := by omega
    obtain ⟨h₁, path₁, hadd, hm₁, hapart₁, hsame₁⟩ := num_add_apart hm hn hapart hfuel₁
    obtain ⟨h', path', hrest, hm', hapart', hsame'⟩ := ih hm₁ (hn.congr hsame₁) hapart₁ hfuel
    refine ⟨h', path', ?_, hm', hapart', fun i hi => ?_⟩
    · rw [addTimes, hadd, Option.bind_some, hrest]
    · rw [hsame' i hi, hsame₁ i hi]

/-- `main`, for other numbers and another number of iterations. -/
def program (junk : ℕ → Digit) (fuel : ℕ) (m n : ℤ) (k : ℕ) : Option Heap :=
  (createNumAsList junk fuel [junk 0, junk 1] (some 0) m).bind fun (h, total) =>
    (createNumAsList junk fuel h (some 1) n).bind fun (h, toAdd) => addTimes fuel total toAdd k h

/-- The lists of `main` when they have been made: they have no node in common. -/
theorem created_spec (junk : ℕ → Digit) {m n : ℤ} {fuel : ℕ} (hm : m.toNat < fuel)
    (hn : n.toNat < fuel) :
    ∃ h₁ h₂ path pathb,
      createNumAsList junk fuel [junk 0, junk 1] (some 0) m = some (h₁, some 0) ∧
      createNumAsList junk fuel h₁ (some 1) n = some (h₂, some 1) ∧
      Holds h₂ (some 0) path (digitsOf m) ∧ Holds h₂ (some 1) pathb (digitsOf n) ∧
      path.Disjoint pathb ∧ 2 ≤ h₁.length := by
  obtain ⟨h₁, path, hfirst, hlist, _, hpath, hle⟩ :=
    createNumAsList_spec (h := [junk 0, junk 1]) (a := 0) junk hm Nat.two_pos
  obtain ⟨h₂, pathb, hsecond, hlist', hframe, hpathb, _⟩ :=
    createNumAsList_spec (h := h₁) (a := 1) junk hn hle
  -- the second list is written beside the first one
  have hone : ∀ i ∈ 0 :: path, i < h₁.length ∧ i ≠ 1 := by
    intro i hi
    refine ⟨hlist.lt_length hi, ?_⟩
    rcases List.mem_cons.mp hi with rfl | hi
    · exact Nat.zero_ne_one
    · exact Nat.ne_of_gt (hpath i hi)
  have hapart : (0 :: path).Disjoint (1 :: pathb) := by
    intro i hi hib
    obtain ⟨hlt, hne⟩ := hone i hi
    rcases List.mem_cons.mp hib with rfl | hib
    · exact hne rfl
    · exact Nat.not_lt_of_le (hpathb i hib) hlt
  exact ⟨h₁, h₂, 0 :: path, 1 :: pathb, hfirst, hsecond,
    hlist.congr fun i hi => hframe i (hone i hi).1 (hone i hi).2, hlist', hapart, hle⟩

/-- **The lists hold the digits of the numbers**: after `create_num_as_list`, after `add` to
another list, which is left alone, after `add` to the list itself, and after any number of
repeated additions. -/
theorem digits_exact :
    (∀ (junk : ℕ → Digit) (h : Heap) (a m fuel : ℕ), a < h.length → m < fuel →
      ∃ h' path, createNumAsList junk fuel h (some a) m = some (h', some a) ∧
        Num h' (some a) path m ∧ ∀ i < h.length, i ≠ a → h'[i]? = h[i]?) ∧
    (∀ (h : Heap) (a b m n fuel : ℕ) (path pathb : List ℕ), Num h (some a) path m →
      Num h (some b) pathb n → path.Disjoint pathb → 2 * (m + n) + 5 ≤ fuel →
      ∃ h' path', add fuel h (some a) (some b) = some h' ∧ Num h' (some a) path' (m + n) ∧
        path'.Disjoint pathb ∧ ∀ i ∈ pathb, h'[i]? = h[i]?) ∧
    (∀ (h : Heap) (a m fuel : ℕ) (path : List ℕ), Num h (some a) path m →
      2 * (m + m) + 5 ≤ fuel →
      ∃ h' path', add fuel h (some a) (some a) = some h' ∧ Num h' (some a) path' (m + m)) ∧
    (∀ (h : Heap) (a b m n k fuel : ℕ) (path pathb : List ℕ), Num h (some a) path m →
      Num h (some b) pathb n → path.Disjoint pathb → 2 * (m + k * n) + 5 ≤ fuel →
      ∃ h' path', addTimes fuel (some a) (some b) k h = some h' ∧
        Num h' (some a) path' (m + k * n) ∧ path'.Disjoint pathb ∧
        ∀ i ∈ pathb, h'[i]? = h[i]?) ∧
    (∀ (junk : ℕ → Digit) (m n k fuel : ℕ), 2 * (m + k * n) + n + 5 ≤ fuel →
      ∃ h' path, program junk fuel m n k = some h' ∧ Num h' (some 0) path (m + k * n)) := by
  refine ⟨?_, ?_, ?_, ?_, ?_⟩
  · intro junk h a m fuel hlt hfuel
    obtain ⟨h', path, hrun, hlist, hframe, _⟩ :=
      createNumAsList_spec junk (show (m : ℤ).toNat < fuel from hfuel) hlt
    exact ⟨h', a :: path, hrun, num_digitsOf hlist, hframe⟩
  · intro h a b m n fuel path pathb hm hn hapart hfuel
    exact num_add_apart hm hn hapart hfuel
  · intro h a m fuel path hm hfuel
    obtain ⟨h', new, hrun, hnum, _⟩ := num_add hm hm (Or.inl rfl) hfuel
    exact ⟨h', path ++ new, hrun, hnum⟩
  · intro h a b m n k fuel path pathb hm hn hapart hfuel
    exact num_addTimes hm hn hapart hfuel
  · intro junk m n k fuel hfuel
    have hmlt : (m : ℤ).toNat < fuel := by omega
    have hnlt : (n : ℤ).toNat < fuel := by omega
    have haddsle : 2 * (m + k * n) + 5 ≤ fuel := by omega
    obtain ⟨h₁, h₂, path, pathb, hfirst, hsecond, hm, hn, hapart, _⟩ :=
      created_spec junk hmlt hnlt
    obtain ⟨h', path', hadds, hnum, _⟩ :=
      num_addTimes (num_digitsOf hm) (num_digitsOf hn) hapart haddsle
    refine ⟨h', path', ?_, hnum⟩
    simp only [program, hfirst, Option.bind_some, hsecond]
    exact hadds

end Functions

end DigitList
end MemMgmt
end OpSys
