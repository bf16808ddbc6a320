import OpSys.ProdCons.Mutex.Slots

/-!
# What keeps lines from being left behind

A line that has been stored is in its slot until it is taken.  With not more lines
than slots every full slot lies ahead of `curr_cons`, or a consumer has a turn for
it.  And with two consumers or more, the last one to leave tests the slot at
`curr_cons` after the last fill, since it can do so only when another consumer, which
has found `done_producing` set, has given up `cons_mutex`.

## Main definitions

* `Stored` — what has been stored is in its slot or has been taken.
* `AheadInv` — what is in a slot will be found.
* `LastLook` — what holds when consumers leave; `Moved` — one of them has stepped.

## Main results

* `stored`, `ahead` — the first two are invariants, `AheadInv` when there are not
  more lines than slots.
* `lastLook_of_reach` — the third holds in every reachable state.
-/

namespace OpSys
namespace ProdCons
namespace Mutex

variable {cfg : Config} {spurious : Bool} {text : List UInt8}

section Invariants

variable {m m' : Mem cfg} {h h' : History cfg}

/-! ### No line disappears -/

/-- What has been stored is in its slot or has been taken. -/
def Stored (m : Mem cfg) (h : History cfg) : Prop :=
  ∀ q, q < h.fills.length →
    m.sharedResource (cfg.slot q) = some q ∨ ∃ x ∈ h.takes, x.ptr = some q

theorem Stored.fill (hS : Stored m h) {p : Fin cfg.P} (hs : FillStep p m h m' h') :
    Stored m' h' := by
  intro q hq
  rw [hs.length] at hq
  rw [hs.takes]
  rcases Nat.lt_succ_iff_lt_or_eq.mp hq with hq | rfl
  · exact (hS q hq).imp_left hs.stay
  · rw [hs.slots, Function.update_self]
    exact Or.inl rfl

theorem Stored.take (hS : Stored m h) {k : Fin cfg.K} {j : ℕ} (hs : TakeStep k j m h m' h') :
    Stored m' h' := by
  obtain ⟨content, htakes⟩ := hs.takes
  intro q hq
  rw [hs.fills] at hq
  rw [htakes]
  rcases hS q hq with hslot | ⟨x, hx, hptr⟩
  · by_cases heq : cfg.slot q = cfg.slot j
    · -- it is this block that is taken
      rw [heq] at hslot
      exact Or.inr ⟨_, List.mem_append_right _ (List.mem_singleton_self _), hslot⟩
    · exact Or.inl (hs.slots_eq_some.mpr ⟨heq, hslot⟩)
  · exact Or.inr ⟨x, List.mem_append_left _ hx, hptr⟩

theorem stored (text : List UInt8) : SlotInvariant text (@Stored cfg) (fun _ _ => True) where
  start q hq := absurd hq (Nat.not_lt_zero q)
  mono _ _ := trivial
  same hS hs := by
    intro q hq
    rw [hs.fills] at hq
    rw [hs.slots, hs.takes]
    exact hS q hq
  pass _ _ _ _ := trivial
  fill _ _ hS hs := hS.fill hs
  advance _ hS _ hs := by
    intro q hq
    rw [hs.fills] at hq
    rw [hs.slots, hs.takes]
    exact hS q hq
  take _ hS hs := hS.take hs

/-! ### Not more lines than slots -/

/-- A full slot lies ahead of `curr_cons`, or a consumer has a turn for it. -/
structure AheadInv (m : Mem cfg) (h : History cfg) : Prop where
  /-- A fill whose turn has not come is in its slot. -/
  waiting : ∀ q, h.advances.length ≤ q → q < h.fills.length →
    m.sharedResource (cfg.slot q) = some q
  /-- Somebody is on the way to any other fill. -/
  behind : ∀ i q, m.sharedResource i = some q → q < h.advances.length →
    ∃ k j, h.turn k = some j ∧ cfg.slot j = i
  turn_lt : ∀ k j, h.turn k = some j → j < h.advances.length
  /-- `curr_cons` overtakes the fills only when all slots have been filled. -/
  wrap : h.advances.length ≤ h.fills.length ∨ cfg.N ≤ h.fills.length

theorem AheadInv.fill (hA : AheadInv m h) {p : Fin cfg.P} (hs : FillStep p m h m' h')
    (hle : h'.fills.length ≤ cfg.N) : AheadInv m' h' := by
  have hlen := hs.length
  have hwrap : h.advances.length ≤ h.fills.length := by
    have := hA.wrap
    omega
  refine ⟨?_, ?_, ?_, ?_⟩
  · intro q hadv hq
    rw [hs.advances] at hadv
    rw [hlen] at hq
    rcases Nat.lt_succ_iff_lt_or_eq.mp hq with hq | rfl
    · exact hs.stay (hA.waiting q hadv hq)
    · rw [hs.slots, Function.update_self]
  · intro i q hq hlt
    rw [hs.advances] at hlt
    rw [hs.turn]
    rcases hs.old_or_new hq with hold | ⟨-, rfl⟩
    · exact hA.behind i q hold hlt
    · exact absurd hwrap (not_le.mpr hlt)
  · rw [hs.turn, hs.advances]
    exact hA.turn_lt
  · rw [hs.advances, hlen]
    exact Or.inl (hwrap.trans (Nat.le_succ _))

theorem AheadInv.advance (hA : AheadInv m h) {k : Fin cfg.K} (hI : MutexInv text m h)
    (hs : AdvanceStep k m h m' h')
    (hok : h.advances.length < h.fills.length ∨ cfg.N ≤ h.fills.length) : AheadInv m' h' := by
  refine ⟨?_, ?_, ?_, ?_⟩
  · intro q hle hq
    rw [hs.length] at hle
    rw [hs.fills] at hq
    rw [hs.slots]
    exact hA.waiting q (by omega) hq
  · intro i q hq hlt
    rw [hs.slots] at hq
    rw [hs.length] at hlt
    rcases Nat.lt_succ_iff_lt_or_eq.mp hlt with hlt | rfl
    · obtain ⟨k', j, hj, hi⟩ := hA.behind i q hq hlt
      exact ⟨k', j, hs.keep hj, hi⟩
    · refine ⟨k, h.advances.length, ?_, (hI.slots i _ hq).2.1⟩
      rw [hs.turn, Function.update_self]
  · intro k' j hj
    rw [hs.length]
    rcases hs.turn_eq_some hj with ⟨-, rfl⟩ | ⟨-, hold⟩
    · exact Nat.lt_succ_self _
    · exact (hA.turn_lt k' j hold).trans (Nat.lt_succ_self _)
  · rw [hs.length, hs.fills]
    exact hok

theorem AheadInv.take (hA : AheadInv m h) {k : Fin cfg.K} {j : ℕ} (hs : TakeStep k j m h m' h')
    (hle : h.fills.length ≤ cfg.N) : AheadInv m' h' := by
  have hj := hA.turn_lt k j hs.before
  refine ⟨?_, ?_, ?_, ?_⟩
  · intro q hadv hq
    rw [hs.advances] at hadv
    rw [hs.fills] at hq
    refine hs.slots_eq_some.mpr ⟨?_, hA.waiting q hadv hq⟩
    intro heq
    have := Ring.place_inj cfg.N_pos (Nat.zero_le q) (by omega) (Nat.zero_le j) (by omega) heq
    omega
  · intro i q hq hlt
    rw [hs.advances] at hlt
    obtain ⟨hi, hold⟩ := hs.slots_eq_some.mp hq
    obtain ⟨k', j', hj', rfl⟩ := hA.behind i q hold hlt
    refine ⟨k', j', hs.turn_eq_some.mpr ⟨?_, hj'⟩, rfl⟩
    rintro rfl
    rw [Option.some.inj (hj'.symm.trans hs.before)] at hi
    exact hi rfl
  · intro k' j' hj'
    rw [hs.advances]
    exact hA.turn_lt k' j' (hs.turn_eq_some.mp hj').2
  · rw [hs.advances, hs.fills]
    exact hA.wrap

/-- When `curr_cons` comes to a slot that is full again, all slots have been filled. -/
theorem AheadInv.pass (hA : AheadInv m h) (hI : MutexInv text m h)
    (hfull : m.sharedResource (cfg.slot h.advances.length) ≠ none) :
    h.advances.length < h.fills.length ∨ cfg.N ≤ h.fills.length := by
  obtain ⟨q, hq⟩ := Option.ne_none_iff_exists'.mp hfull
  obtain ⟨hlt, hslot, -⟩ := hI.slots _ q hq
  rw [hI.fresh] at hlt
  by_contra hnot
  obtain ⟨hle, hN⟩ := not_or.mp hnot
  have hle := not_lt.mp hle
  have hN := not_le.mp hN
  have hwrap := hA.wrap
  -- otherwise both turns are in the first window
  have hadv : h.advances.length < 0 + cfg.N := by omega
  have hfills : h.fills.length < 0 + cfg.N := by omega
  have heq := Ring.place_inj cfg.N_pos (Nat.zero_le q) (hlt.trans hfills) (Nat.zero_le _) hadv hslot
  rw [heq] at hlt
  exact not_lt.mpr hle hlt

theorem ahead (hlines : (Stdio.fileLines lineMax text).length ≤ cfg.N) :
    SlotInvariant text (@AheadInv cfg) (fun a f => a < f ∨ cfg.N ≤ f) where
  start :=
    { waiting := fun q _ hq => absurd hq (Nat.not_lt_zero q)
      behind := fun _ q hq => absurd hq (Option.some_ne_none q).symm
      turn_lt := fun _ j hj => absurd hj (Option.some_ne_none j).symm
      wrap := Or.inl le_rfl }
  mono hle hok := hok.imp (fun hlt => lt_of_lt_of_le hlt hle) (fun hN => hN.trans hle)
  same hA hs := by
    obtain ⟨hslots, hfills, hadv, hturn, -⟩ := hs
    refine ⟨?_, ?_, ?_, ?_⟩
    · rw [hadv, hfills, hslots]
      exact hA.waiting
    · rw [hadv, hturn, hslots]
      exact hA.behind
    · rw [hadv, hturn]
      exact hA.turn_lt
    · rw [hadv, hfills]
      exact hA.wrap
  pass hI hA _ hfull := hA.pass hI hfull
  fill _ hI' hA hs := hA.fill hs (hI'.fills_length_le.trans hlines)
  advance hI hA hok hs := hA.advance hI hs hok
  take hI hA hs := hA.take hs (hI.fills_length_le.trans hlines)

end Invariants

/-! ### The last look -/

/-- A consumer that has found `done_producing` set. -/
def Leaving : Consume cfg → Prop
  | .unlockDone | .leave | .returned => True
  | _ => False

/-- A consumer that leaves when another one has left looks at its slot after the last
fill. -/
structure LastLook (s : Global (Mem cfg × History cfg) (Local cfg)) : Prop where
  ended : ∀ k, Leaving (s.loc (.cons k)) → ∀ p, s.mem.1.exited (.prod p) = true
  /-- Then the slot at `curr_cons` is empty. -/
  empty : ∀ k k', k ≠ k' → Leaving (s.loc (.cons k)) →
    (Leaving (s.loc (.cons k')) ∨ s.loc (.cons k') = .testDone) →
    s.mem.1.sharedResource s.mem.1.currCons = none
  /-- So nobody is about to advance `curr_cons`. -/
  found : ∀ k k', k ≠ k' → Leaving (s.loc (.cons k)) → Leaving (s.loc (.cons k')) →
    ∀ i, ¬ HasFound (s.loc (.cons i))

section LastLook

variable {m m' : Mem cfg} {h h' : History cfg}

theorem consume_leaving {k : Fin cfg.K} {l l' : Consume cfg}
    (hstep : consume spurious k m l = some (m', l')) (hl : Leaving l') :
    Leaving l ∨ (l = .testDone ∧ m.doneProducing = true ∧ m' = m) := by
  cases l with
  | testDone =>
    simp only [consume] at hstep
    split at hstep
    case isTrue hdone =>
      obtain ⟨rfl, -⟩ := Prod.mk.inj (Option.some.inj hstep)
      exact Or.inr ⟨rfl, hdone, rfl⟩
    case isFalse =>
      obtain ⟨-, rfl⟩ := Prod.mk.inj (Option.some.inj hstep)
      exact hl.elim
  | testSlot cur =>
    simp only [consume] at hstep
    split at hstep <;> obtain ⟨-, rfl⟩ := Prod.mk.inj (Option.some.inj hstep)
    · exact hl.elim
    · exact hl.elim
  | lockCons | lockSlot | asleep =>
    obtain ⟨m₁, -, heq⟩ := Option.map_eq_some_iff.mp hstep
    obtain ⟨-, rfl⟩ := Prod.mk.inj heq
    exact hl.elim
  | unlockDone | leave | returned => exact Or.inl trivial
  | _ =>
    obtain ⟨-, rfl⟩ := Prod.mk.inj (Option.some.inj hstep)
    exact hl.elim

theorem consume_testDone {k : Fin cfg.K} {l : Consume cfg}
    (hstep : consume spurious k m l = some (m', .testDone)) :
    ∃ cur, l = .testSlot cur ∧ m.sharedResource cur = none ∧ m' = m := by
  cases l with
  | testSlot cur =>
    simp only [consume] at hstep
    split at hstep
    case isTrue hnone =>
      obtain ⟨rfl, -⟩ := Prod.mk.inj (Option.some.inj hstep)
      exact ⟨cur, rfl, hnone, rfl⟩
    case isFalse => simp at hstep
  | testDone =>
    simp only [consume] at hstep
    split at hstep <;> simp at hstep
  | _ => simp [consume] at hstep

/-- An empty slot at `curr_cons` stays so unless the consumer advances `curr_cons`. -/
theorem consume_empty {k : Fin cfg.K} {l l' : Consume cfg} (hI : MutexInv text m h)
    (hI' : MutexInv text m' (consumeBooks k m l h)) (hk : ConsKnows k m h l)
    (hstep : consume spurious k m l = some (m', l')) (hl : ¬ HasFound l)
    (hempty : m.sharedResource m.currCons = none) :
    m'.sharedResource m'.currCons = none := by
  rw [hI.currCons] at hempty
  rw [hI'.currCons]
  rcases consume_slots hk hstep with hsame | ⟨⟨idx, cur, rfl⟩, -⟩ | ⟨j, htake⟩
  · rw [hsame.slots, hsame.advances]
    exact hempty
  · exact absurd trivial hl
  · rw [htake.slots, htake.advances]
    by_cases hslot : cfg.slot h.advances.length = cfg.slot j
    · rw [hslot, Function.update_self]
    · rw [Function.update_of_ne hslot]
      exact hempty

/-- Where a consumer tests `done_producing` it holds `cons_mutex`. -/
theorem ConsKnows.testDone {k : Fin cfg.K} {l : Consume cfg} (hk : ConsKnows k m h l)
    (hl : l = .testDone) : Looking m h k := by
  subst hl
  exact hk.2

/-- Only one consumer holds `cons_mutex`. -/
theorem Looking.unique {k k' : Fin cfg.K} (hl : Looking m h k) (hl' : Looking m h k') :
    k = k' := by
  have heq := hl.holds.symm.trans hl'.holds
  simpa using heq

theorem Leaving.not_hasFound {l : Consume cfg} (hl : Leaving l) : ¬ HasFound l := by
  cases l with
  | unlockDone | leave | returned => exact False.elim
  | _ => exact hl.elim

section Step

variable {s s' : Global (Mem cfg × History cfg) (Local cfg)}

/-- The producers and the main thread cannot disturb the last look. -/
theorem LastLook.of_same (hL : LastLook s) (hI : MutexInv text s.mem.1 s.mem.2)
    (hI' : MutexInv text s'.mem.1 s'.mem.2) (hloc : ∀ k, s'.loc (.cons k) = s.loc (.cons k))
    (hsame : SameSlots s.mem.1 s.mem.2 s'.mem.1 s'.mem.2)
    (hexited : ∀ t, s.mem.1.exited t = true → s'.mem.1.exited t = true) : LastLook s' := by
  refine ⟨?_, ?_, ?_⟩
  · intro k hk p
    rw [hloc] at hk
    exact hexited _ (hL.ended k hk p)
  · intro k k' hne hk hk'
    rw [hloc] at hk hk'
    rw [hI'.currCons, hsame.slots, hsame.advances, ← hI.currCons]
    exact hL.empty k k' hne hk hk'
  · intro k k' hne hk hk' i
    rw [hloc] at hk hk' ⊢
    exact hL.found k k' hne hk hk' i

/-- Consumer `k₁` has taken a step from `s` to `s'`. -/
structure Moved (text : List UInt8) (spurious : Bool) (k₁ : Fin cfg.K)
    (s s' : Global (Mem cfg × History cfg) (Local cfg)) : Prop where
  inv : MutexInv text s.mem.1 s.mem.2
  inv' : MutexInv text s'.mem.1 s'.mem.2
  knows : ∀ k, ConsKnows k s.mem.1 s.mem.2 (s.loc (.cons k))
  step : consume spurious k₁ s.mem.1 (s.loc (.cons k₁)) = some (s'.mem.1, s'.loc (.cons k₁))
  books : s'.mem.2 = consumeBooks k₁ s.mem.1 (s.loc (.cons k₁)) s.mem.2
  others : ∀ k, k ≠ k₁ → s'.loc (.cons k) = s.loc (.cons k)
  exited : ∀ t, s.mem.1.exited t = true → s'.mem.1.exited t = true

variable {k₁ : Fin cfg.K}

/-- A consumer that leaves did so before, or is the one that steps. -/
theorem Moved.leaving (hm : Moved text spurious k₁ s s') {k : Fin cfg.K}
    (hk : Leaving (s'.loc (.cons k))) : Leaving (s.loc (.cons k)) ∨
      (k = k₁ ∧ s.loc (.cons k₁) = .testDone ∧ s.mem.1.doneProducing = true ∧
        s'.mem.1 = s.mem.1) := by
  by_cases hkk : k = k₁
  · subst hkk
    exact (consume_leaving hm.step hk).imp_right fun hnew => ⟨rfl, hnew⟩
  · rw [hm.others k hkk] at hk
    exact Or.inl hk

/-- So it is with a consumer that has found a line. -/
theorem Moved.hasFound (hm : Moved text spurious k₁ s s') {i : Fin cfg.K}
    (hi : HasFound (s'.loc (.cons i))) : HasFound (s.loc (.cons i)) ∨
      (i = k₁ ∧ ∃ cur, s.loc (.cons k₁) = .testSlot cur ∧ s.mem.1.sharedResource cur ≠ none) := by
  by_cases hik : i = k₁
  · subst hik
    exact (consume_found hm.step hi).2.imp_right fun hnew => ⟨rfl, hnew⟩
  · rw [hm.others i hik] at hi
    exact Or.inl hi

/-- The slot that a consumer tests is the one at `curr_cons`. -/
theorem Moved.cur_eq (hm : Moved text spurious k₁ s s') {cur : Fin cfg.N}
    (hl : s.loc (.cons k₁) = .testSlot cur) : cur = s.mem.1.currCons := by
  have hk := hm.knows k₁
  rw [hl] at hk
  exact hk.2.2.trans hm.inv.currCons.symm

theorem Moved.empty (hm : Moved text spurious k₁ s s') (hfound : ¬ HasFound (s.loc (.cons k₁)))
    (hempty : s.mem.1.sharedResource s.mem.1.currCons = none) :
    s'.mem.1.sharedResource s'.mem.1.currCons = none := by
  have hI' := hm.inv'
  rw [hm.books] at hI'
  exact consume_empty hm.inv hI' (hm.knows k₁) hm.step hfound hempty

/-- Nobody has found a line while a consumer is at its test of `done_producing`. -/
theorem Moved.not_testDone (hm : Moved text spurious k₁ s s') {i : Fin cfg.K}
    (hi : HasFound (s'.loc (.cons i))) : s.loc (.cons k₁) ≠ .testDone := by
  intro htest
  rcases hm.hasFound hi with hfound | ⟨-, cur, hl, -⟩
  · have heq := ((hm.knows i).looking hfound).unique ((hm.knows k₁).testDone htest)
    rw [heq, htest] at hfound
    exact hfound
  · rw [htest] at hl
    cases hl

/-- Whoever leaves second has tested its slot when the producers had returned. -/
theorem LastLook.empty_of_moved (hL : LastLook s) (hm : Moved text spurious k₁ s s')
    {k k' : Fin cfg.K} (hne : k ≠ k') (hk : Leaving (s'.loc (.cons k)))
    (hk' : Leaving (s'.loc (.cons k')) ∨ s'.loc (.cons k') = .testDone) :
    s'.mem.1.sharedResource s'.mem.1.currCons = none := by
  rcases hm.leaving hk with hold | ⟨rfl, htest, -, hmem⟩
  · by_cases hkk : k' = k₁
    · subst hkk
      rcases hk' with hk' | hk'
      · rcases hm.leaving hk' with hold' | ⟨-, htest, -, hmem⟩
        · exact hm.empty hold'.not_hasFound (hL.empty k k' hne hold (Or.inl hold'))
        · rw [hmem]
          exact hL.empty k k' hne hold (Or.inr htest)
      · -- it has just found the slot empty
        have hstep := hm.step
        rw [hk'] at hstep
        obtain ⟨cur, hl, hnull, hmem⟩ := consume_testDone hstep
        rw [hmem, ← hm.cur_eq hl]
        exact hnull
    · rw [hm.others k' hkk] at hk'
      apply hm.empty _ (hL.empty k k' hne hold hk')
      rcases hk' with hk' | hk'
      · exact hL.found k k' hne hold hk' k₁
      · intro hfound
        exact hkk (((hm.knows k').testDone hk').unique ((hm.knows k₁).looking hfound))
  · rw [hm.others k' hne.symm] at hk'
    rw [hmem]
    rcases hk' with hk' | hk'
    · exact hL.empty k' k hne.symm hk' (Or.inr htest)
    · exact absurd (((hm.knows k).testDone htest).unique ((hm.knows k').testDone hk')) hne

theorem LastLook.found_of_moved (hL : LastLook s) (hm : Moved text spurious k₁ s s')
    {k k' : Fin cfg.K} (hne : k ≠ k') (hk : Leaving (s'.loc (.cons k)))
    (hk' : Leaving (s'.loc (.cons k'))) (i : Fin cfg.K) : ¬ HasFound (s'.loc (.cons i)) := by
  intro hi
  have hnew := hm.not_testDone hi
  rcases hm.leaving hk with hold | ⟨-, htest, -⟩
  · rcases hm.leaving hk' with hold' | ⟨-, htest, -⟩
    · rcases hm.hasFound hi with hfound | ⟨-, cur, hl, hline⟩
      · exact hL.found k k' hne hold hold' i hfound
      · rw [hm.cur_eq hl] at hline
        exact hline (hL.empty k k' hne hold (Or.inl hold'))
    · exact hnew htest
  · exact hnew htest

/-- A consumer keeps the last look. -/
theorem LastLook.step_consumer (hL : LastLook s) (hm : Moved text spurious k₁ s s') :
    LastLook s' := by
  refine ⟨?_, ?_, ?_⟩
  · intro k hk p
    rcases hm.leaving hk with hold | ⟨-, -, hdone, -⟩
    · exact hm.exited _ (hL.ended k hold p)
    · exact hm.exited _ (hm.inv.done hdone p)
  · exact fun k k' hne hk hk' => hL.empty_of_moved hm hne hk hk'
  · exact fun k k' hne hk hk' => hL.found_of_moved hm hne hk hk'

theorem LastLook.step {t : Thread cfg} (hL : LastLook s) (hI : MutexInv text s.mem.1 s.mem.2)
    (hA : ∀ t, Knowledge cfg t s.mem (s.loc t))
    (hnext : (booked cfg spurious).next t s = some s') : LastLook s' := by
  obtain ⟨⟨m', h'⟩, l', hstep, rfl⟩ := Program.next_eq_some _ hnext
  obtain ⟨hI', -, hG⟩ := booked_keeps hI (hA t) hstep
  obtain ⟨hmem, hbooks⟩ := (Program.withHistory_step_eq_some _ _).mp hstep
  have hothers : ∀ u, u ≠ t → Function.update s.loc t l' u = s.loc u :=
    fun u hu => Function.update_of_ne hu _ _
  cases t with
  | main =>
    have hsame : SameSlots s.mem.1 s.mem.2 m' s.mem.2 := waitThreads_slots hmem
    obtain rfl : h' = s.mem.2 := hbooks
    exact hL.of_same hI hI' (fun k => hothers (.cons k) (by simp)) hsame hG.exited_mono
  | prod p =>
    obtain rfl : h' = _ := hbooks
    rcases produce_slots hI (hA (.prod p)) hmem with hsame | hfill
    · exact hL.of_same hI hI' (fun k => hothers (.cons k) (by simp)) hsame hG.exited_mono
    · -- while a producer fills a slot no consumer leaves
      have hnone : ∀ k, ¬ Leaving (Function.update s.loc (.prod p) l' (.cons k)) := by
        intro k hk
        rw [hothers _ (by simp)] at hk
        exact hfill.running (hL.ended k hk p)
      exact ⟨fun k hk => absurd hk (hnone k), fun k _ _ hk => absurd hk (hnone k),
        fun k _ _ hk => absurd hk (hnone k)⟩
  | cons k₁ =>
    have hself : consume spurious k₁ s.mem.1 (s.loc (.cons k₁)) =
        some (m', Function.update s.loc (.cons k₁) l' (.cons k₁)) := by
      rw [Function.update_self]
      exact hmem
    exact hL.step_consumer ⟨hI, hI', fun k => hA (.cons k), hself, hbooks,
      fun k hk => hothers (.cons k) (by simpa using hk), hG.exited_mono⟩

theorem lastLook_of_reach (h : (booked cfg spurious).Reach (bookStart cfg text) s) :
    LastLook s := by
  apply h.invariant
  · exact ⟨fun _ hk => hk.elim, fun _ _ _ hk => hk.elim, fun _ _ _ hk => hk.elim⟩
  · intro t s s' hs hL hnext
    obtain ⟨hI, hA⟩ := knows_of_reach hs
    exact hL.step hI hA hnext

end Step

end LastLook

end Mutex
end ProdCons
end OpSys
