import OpSys.ProdCons.Mutex.Order
import OpSys.ProdCons.Mutex.Stages

/-!
# Whether the takes match the fills

With one consumer nobody can claim a slot that is claimed already, and with fewer
lines than slots `curr_cons` does not come back to one.  In all other cases there
is a run in which two consumers have a turn for the same line: the producers fill
all slots, one consumer claims the first and does not empty it, and another one
goes round and claims it as well.

## Main definitions

* `InOrder` — the turns of the consumers match the fills one to one and in order.
* `Circling`, `Overtaken` — the stages of a run in which they do not.

## Main results

* `inOrder_iff` — every state of every run is in order if and only if there is one
  consumer or there are fewer lines than slots.
* `turn_for_nothing` — a run in which a consumer takes `NULL`.
-/

namespace OpSys
namespace ProdCons
namespace Mutex

variable {cfg : Config} {spurious : Bool} {text : List UInt8}

/-- What holds of the turns and of the takes. -/
structure InOrder (s : Global (Mem cfg × History cfg) (Local cfg)) : Prop where
  /-- The take of the `n`-th advance of `curr_cons` returns exactly the line for which
  `curr_prod` was advanced the `n`-th time. -/
  takes : ∀ x ∈ s.mem.2.takes, s.mem.2.advances[x.turn]? = some x.taker ∧
    x.ptr = some x.turn ∧ ∃ p i line, s.mem.2.claims[x.turn]? = some (p, i) ∧
      s.mem.2.lines[i]? = some (p, line) ∧ x.text = some (Stdio.strcpyBytes line)
  /-- An advance has one take. -/
  once : ∀ (n n' : ℕ) x x', s.mem.2.takes[n]? = some x → s.mem.2.takes[n']? = some x' →
    x.turn = x'.turn → n = n'
  /-- An advance has its take, or the consumer is on its way to it. -/
  turns : ∀ j, j < s.mem.2.advances.length →
    (∃ k, s.mem.2.turn k = some j) ∨ ∃ x ∈ s.mem.2.takes, x.turn = j
  /-- No consumer takes `NULL`. -/
  line : ∀ k idx line, s.loc (.cons k) = .clear idx line → line ≠ none
  /-- `curr_cons` moves past a slot only if the slot holds the line of this advance and no
  consumer that has claimed the slot has still to empty it. -/
  advance : ∀ k idx cur, s.loc (.cons k) = .writeCursor idx cur →
    s.mem.1.sharedResource cur = some s.mem.2.advances.length ∧
    ∀ k' j, s.mem.2.turn k' = some j → cfg.slot j ≠ cur

/-! ### When the order is kept -/

theorem inOrder_of_orderInv {s : Global (Mem cfg × History cfg) (Local cfg)}
    (hI : MutexInv text s.mem.1 s.mem.2) (hA : ∀ t, Knowledge cfg t s.mem (s.loc t))
    (hO : OrderInv s.mem.1 s.mem.2) (hok : ∀ t, FoundKnows (· < ·) s.mem.2 t (s.loc t)) :
    InOrder s := by
  refine ⟨?_, ?_, hO.turns, ?_, ?_⟩
  · intro x hx
    obtain ⟨hmine, hptr⟩ := hO.takes x hx
    obtain ⟨p, i, line, hfill, hline, htext⟩ := hI.takes x hx _ hptr
    exact ⟨hmine, hptr, p, i, line, hI.fills _ _ hfill, hline, htext⟩
  · intro n n' x x' hx hx' hturn
    have hptr := (hO.takes x (List.mem_of_getElem? hx)).2
    have hptr' := (hO.takes x' (List.mem_of_getElem? hx')).2
    rw [← hturn] at hptr'
    exact hI.takes_inj n n' x x' _ hx hx' hptr hptr'
  · intro k idx line hloc
    have hk : ConsKnows k s.mem.1 s.mem.2 (s.loc (.cons k)) := hA (.cons k)
    rw [hloc] at hk
    obtain ⟨-, ⟨j, hj, hidx⟩, -, hline⟩ := hk
    rw [hline, hidx, (hO.claimed k j hj).2]
    exact Option.some_ne_none j
  · intro k idx cur hloc
    have hk : ConsKnows k s.mem.1 s.mem.2 (s.loc (.cons k)) := hA (.cons k)
    have hlt : FoundKnows (· < ·) s.mem.2 (.cons k) (s.loc (.cons k)) := hok (.cons k)
    rw [hloc] at hk hlt
    obtain ⟨-, -, -, rfl⟩ := hk
    have hwaiting := hO.waiting _ le_rfl (hlt trivial)
    refine ⟨hwaiting, ?_⟩
    intro k' j hj hcur
    obtain ⟨hmine, hslot⟩ := hO.claimed k' j hj
    rw [hcur, hwaiting] at hslot
    have hj : j < s.mem.2.advances.length := (List.getElem?_eq_some_iff.mp hmine).1
    exact absurd (Option.some.inj hslot) hj.ne'

theorem NoWrap.inOrder_run (hwrap : NoWrap cfg text) (sched : List (Thread cfg)) :
    InOrder ((booked cfg spurious).run sched (bookStart cfg text)) := by
  have hreach := (booked cfg spurious).reach_run sched (bookStart cfg text)
  obtain ⟨hI, hA⟩ := knows_of_reach hreach
  obtain ⟨hO, hok⟩ := hwrap.orderInv.of_reach hreach
  exact inOrder_of_orderInv hI hA hO hok

/-! ### When it is not -/

section Circle

variable (spurious) {c n left : ℕ} {k₀ k₁ : Fin cfg.K} {s : Global (Mem cfg) (Local cfg)}

/-- All slots are full but those of the turns before the `n`-th one, which have been emptied
but for the first: consumer `k₀` is about to read it. -/
structure Circling (c : ℕ) (k₀ : Fin cfg.K) (n left : ℕ) (s : Global (Mem cfg) (Local cfg)) :
    Prop extends Busy left s where
  slow : s.loc (.cons k₀) = .readLine (cfg.slot c)
  others : ∀ k, k ≠ k₀ → s.loc (.cons k) = .lockCons
  owner : ∀ x, x ≠ .slot (cfg.slot c) → s.mem.owner x = none
  currProd : s.mem.currProd = cfg.slot (c + cfg.N)
  currCons : s.mem.currCons = cfg.slot (c + n)
  first : s.mem.sharedResource (cfg.slot c) ≠ none
  full : ∀ j, n ≤ j → j < cfg.N → s.mem.sharedResource (cfg.slot (c + j)) ≠ none
  emptied : ∀ j, 0 < j → j < n → s.mem.sharedResource (cfg.slot (c + j)) = none

/-- Consumer `k₀` gets the turn of the first slot. -/
theorem Filled.circling (h : Filled c cfg.N left s) (k₀ : Fin cfg.K) :
    ∃ s', (program cfg spurious).Reach s s' ∧ Circling c k₀ 1 left s' := by
  have hfull : s.mem.sharedResource s.mem.currCons ≠ none := by
    rw [h.currCons]
    exact h.full 0 cfg.N_pos
  have hrun := (solo_claim spurious k₀ (h.owner _) hfull).trans
    (solo_enter spurious k₀ _ ((claiming_owner k₀ s.mem (by simp)).trans (h.owner _)))
  obtain ⟨s', hreach, hmem, hloc, hothers⟩ := hrun.exists_reach (h.consumers k₀)
  have hsame : Undisturbed s.mem s'.mem := by
    rw [hmem]
    exact (undisturbed_claiming k₀ s.mem).trans (undisturbed_entering k₀ _ _)
  have hslots : s'.mem.sharedResource = s.mem.sharedResource := by
    rw [hmem]
    rfl
  rw [h.currCons] at hloc hmem
  refine ⟨s', hreach, h.toBusy.frame hothers hsame, hloc, ?_, ?_, ?_, ?_, ?_, ?_, ?_⟩
  · intro k hk
    rw [hothers _ (by simpa using hk)]
    exact h.consumers k
  · intro x hx
    rw [hmem]
    by_cases hx' : x = .cons
    · rw [hx']
      exact entering_cons _ _ _
    · rw [entering_owner k₀ _ hx' hx, claiming_owner k₀ s.mem hx']
      exact h.owner x
  · rw [hsame.currProd]
    exact h.currProd
  · rw [hmem]
    show cfg.next s.mem.currCons = _
    rw [h.currCons, cfg.next_slot]
  · rw [hslots]
    exact h.full 0 cfg.N_pos
  · intro j _ hj
    rw [hslots]
    exact h.full j hj
  · intro j hj hj'
    omega

/-- Consumer `k₁` empties the next slot. -/
theorem Circling.succ (h : Circling c k₀ n left s) (hk : k₁ ≠ k₀) (hpos : 0 < n)
    (hn : n < cfg.N) :
    ∃ s', (program cfg spurious).Reach s s' ∧ Circling c k₀ (n + 1) left s' := by
  have hslot : ∀ j, j ≠ n → j < cfg.N → cfg.slot (c + j) ≠ cfg.slot (c + n) :=
    fun j hj hjN heq => hj (slot_inj hjN hn heq)
  have hfirst : cfg.slot c ≠ cfg.slot (c + n) := hslot 0 hpos.ne cfg.N_pos
  have hfree : s.mem.owner (.slot s.mem.currCons) = none := by
    apply h.owner
    rw [h.currCons]
    simpa using hfirst.symm
  have hfull : s.mem.sharedResource s.mem.currCons ≠ none := by
    rw [h.currCons]
    exact h.full n le_rfl hn
  obtain ⟨m', hrun, hm'⟩ := solo_consume spurious k₁ (h.owner _ (by simp)) hfree hfull
  obtain ⟨s', hreach, rfl, hloc, hothers⟩ := hrun.exists_reach (h.others k₁ hk)
  have hslots := hm'.slots
  rw [h.currCons] at hslots
  refine ⟨s', hreach, h.toBusy.frame hothers hm'.toUndisturbed, ?_, ?_, ?_, ?_, ?_, ?_, ?_, ?_⟩
  · rw [hothers _ (by simpa using hk.symm)]
    exact h.slow
  · intro k hk'
    by_cases hkk : k = k₁
    · rw [hkk]
      exact hloc
    · rw [hothers _ (by simpa using hkk)]
      exact h.others k hk'
  · intro x hx
    by_cases hx' : x = .slot s.mem.currCons
    · rw [hx']
      exact hm'.unlocked
    · rw [hm'.owner x hx']
      exact h.owner x hx
  · rw [hm'.currProd]
    exact h.currProd
  · rw [hm'.currCons, h.currCons, cfg.next_slot, Nat.add_assoc]
  · rw [hslots, Function.update_of_ne hfirst]
    exact h.first
  · intro j hj hjN
    rw [hslots, Function.update_of_ne (hslot j (by omega) hjN)]
    exact h.full j (by omega) hjN
  · intro j hj hjn
    rw [hslots]
    by_cases hlast : j = n
    · rw [hlast, Function.update_self]
    · rw [Function.update_of_ne (hslot j hlast (by omega))]
      exact h.emptied j hj (by omega)

/-- Consumer `k₁` comes back to the first slot. -/
theorem Circling.back (h : Circling c k₀ 1 left s) (hk : k₁ ≠ k₀) :
    ∃ s', (program cfg spurious).Reach s s' ∧ Circling c k₀ cfg.N left s' := by
  have key : ∀ n, 0 < n → n ≤ cfg.N →
      ∃ s', (program cfg spurious).Reach s s' ∧ Circling c k₀ n left s' := by
    intro n hpos
    induction n, hpos using Nat.le_induction with
    | base => exact fun _ => ⟨s, Program.Reach.refl _, h⟩
    | succ n hpos ih =>
      intro hn
      obtain ⟨s₁, hs₁, hc₁⟩ := ih (by omega)
      obtain ⟨s₂, hs₂, hc₂⟩ := hc₁.succ spurious hk hpos hn
      exact ⟨s₂, hs₁.trans hs₂, hc₂⟩
  exact key cfg.N cfg.N_pos le_rfl

/-- All slots are empty, and consumer `k₁` is about to read the first one, which it has
claimed after another consumer and which that one has emptied. -/
structure Overtaken (c : ℕ) (k₁ : Fin cfg.K) (left : ℕ) (s : Global (Mem cfg) (Local cfg)) :
    Prop extends Busy left s where
  fast : s.loc (.cons k₁) = .readLine (cfg.slot c)
  others : ∀ k, k ≠ k₁ → s.loc (.cons k) = .lockCons
  owner : ∀ x, x ≠ .slot (cfg.slot c) → s.mem.owner x = none
  currProd : s.mem.currProd = cfg.slot (c + cfg.N)
  currCons : s.mem.currCons = cfg.slot (c + cfg.N + 1)
  slots : ∀ i, s.mem.sharedResource i = none

/-- Both consumers have a turn at the first slot, and the second finds it empty. -/
theorem Circling.overtaken (h : Circling c k₀ cfg.N left s) (hk : k₁ ≠ k₀) :
    ∃ s', (program cfg spurious).Reach s s' ∧ Overtaken c k₁ left s' := by
  have hback : s.mem.currCons = cfg.slot c := by
    rw [h.currCons, slot_add_size]
  have hfull : s.mem.sharedResource s.mem.currCons ≠ none := by
    rw [hback]
    exact h.first
  -- `k₁` gets a turn at the slot of `k₀`
  obtain ⟨s₁, hs₁, hmem₁, hloc₁, hothers₁⟩ :=
    (solo_claim spurious k₁ (h.owner _ (by simp)) hfull).exists_reach (h.others k₁ hk)
  rw [hback] at hloc₁
  -- `k₀` empties the slot
  obtain ⟨m', htake, hm'⟩ := solo_take spurious k₀ (cfg.slot c) s₁.mem
  obtain ⟨s₂, hs₂, rfl, hloc₂, hothers₂⟩ := htake.exists_reach
    ((hothers₁ _ (by simpa using hk.symm)).trans h.slow)
  -- `k₁` goes on to it
  obtain ⟨s₃, hs₃, hmem₃, hloc₃, hothers₃⟩ :=
    (solo_enter spurious k₁ (cfg.slot c) hm'.unlocked).exists_reach
      ((hothers₂ _ (by simpa using hk)).trans hloc₁)
  have hbusy₁ : Busy left s₁ := by
    apply h.toBusy.frame hothers₁
    rw [hmem₁]
    exact undisturbed_claiming k₁ s.mem
  have hbusy₃ : Busy left s₃ := by
    apply (hbusy₁.frame hothers₂ hm'.toUndisturbed).frame hothers₃
    rw [hmem₃]
    exact undisturbed_entering k₁ _ s₂.mem
  refine ⟨s₃, hs₁.trans (hs₂.trans hs₃), hbusy₃,
    hloc₃, ?_, ?_, ?_, ?_, ?_⟩
  · intro k hk'
    rw [hothers₃ _ (by simpa using hk')]
    by_cases hkk : k = k₀
    · rw [hkk]
      exact hloc₂
    · rw [hothers₂ _ (by simpa using hkk), hothers₁ _ (by simpa using hk')]
      exact h.others k hkk
  · intro x hx
    rw [hmem₃]
    by_cases hx' : x = .cons
    · rw [hx']
      exact entering_cons _ _ _
    · rw [entering_owner k₁ _ hx' hx, hm'.owner x hx, hmem₁, claiming_owner k₁ s.mem hx']
      exact h.owner x hx
  · rw [hmem₃]
    show s₂.mem.currProd = _
    rw [hm'.currProd, hmem₁]
    exact h.currProd
  · rw [hmem₃]
    show s₂.mem.currCons = _
    rw [hm'.currCons, hmem₁]
    show cfg.next s.mem.currCons = _
    rw [h.currCons, cfg.next_slot]
  · intro i
    rw [hmem₃]
    show s₂.mem.sharedResource i = none
    rw [hm'.slots]
    obtain ⟨j, hj, hjN, rfl⟩ := Ring.exists_place cfg.N_pos c i
    by_cases hjc : Ring.place cfg.N_pos j = cfg.slot c
    · rw [hjc, Function.update_self]
    · rw [Function.update_of_ne hjc, hmem₁]
      have hpos : j ≠ c := fun heq => hjc (by rw [heq]; rfl)
      have hempty := h.emptied (j - c) (by omega) (by omega)
      rwa [Nat.add_sub_cancel' hj] at hempty

/-- With two consumers and a line for every slot such a run exists. -/
theorem exists_overtaken (p : Fin cfg.P) (hk : k₁ ≠ k₀)
    (hlines : (Stdio.fileLines lineMax text).length = c + cfg.N + left) :
    ∃ s, (program cfg spurious).Reach (start cfg text) s ∧ Overtaken c k₁ left s := by
  obtain ⟨s₁, hs₁, hfilled⟩ := exists_filled spurious p le_rfl hlines
  obtain ⟨s₂, hs₂, hfirst⟩ := hfilled.circling spurious k₀
  obtain ⟨s₃, hs₃, hback⟩ := hfirst.back spurious hk
  obtain ⟨s₄, hs₄, hover⟩ := hback.overtaken spurious hk
  exact ⟨s₄, hs₁.trans (hs₂.trans (hs₃.trans hs₄)), hover⟩

/-- The consumer takes `NULL`. -/
theorem Overtaken.takes_null (h : Overtaken c k₁ left s) :
    ∃ s', (program cfg spurious).Reach s s' ∧ s'.loc (.cons k₁) = .clear (cfg.slot c) none := by
  have hread : (program cfg spurious).Solo (.cons k₁) (s.mem, .readLine (cfg.slot c))
      (s.mem, .clear (cfg.slot c) (s.mem.sharedResource (cfg.slot c))) := .head rfl (.refl _)
  obtain ⟨s', hs', -, hloc, -⟩ := hread.exists_reach h.fast
  rw [h.slots] at hloc
  exact ⟨s', hs', hloc⟩

end Circle

/-- **The takes of every run match the fills if and only if `curr_cons` cannot wrap
round** to a slot that is claimed already. -/
theorem inOrder_iff (cfg : Config) (spurious : Bool) (text : List UInt8) :
    (∀ sched, InOrder ((booked cfg spurious).run sched (bookStart cfg text))) ↔
      NoWrap cfg text := by
  constructor
  · intro horder
    by_contra hwrap
    simp only [NoWrap, not_or, not_lt] at hwrap
    obtain ⟨hP, hK, hlines⟩ := hwrap
    have hK_pos := cfg.K_pos
    have hk : (⟨1, by omega⟩ : Fin cfg.K) ≠ ⟨0, cfg.K_pos⟩ := by simp
    obtain ⟨left, hleft⟩ := Nat.exists_eq_add_of_le hlines
    obtain ⟨s₁, hs₁, hover⟩ := exists_overtaken (c := 0) spurious
      ⟨0, Nat.pos_of_ne_zero hP⟩ hk (by rw [hleft, Nat.zero_add])
    obtain ⟨s₂, hs₂, hnull⟩ := hover.takes_null spurious
    obtain ⟨sched, rfl⟩ := (program cfg spurious).exists_run_of_reach
      (hs₁.trans hs₂)
    rw [← erase_booked_run] at hnull
    exact (horder sched).line _ _ _ hnull rfl
  · exact fun hwrap => hwrap.inOrder_run

/-! ### A turn for nothing -/

/-- One producer, two consumers and one slot. -/
def crowded : Config := .counts 1 2 1 Nat.two_pos Nat.zero_lt_one

/-- A run in which the second consumer claims the slot before the first has emptied it. -/
def overtaking : List (Thread crowded) :=
  List.replicate 16 (.prod ⟨0, by decide⟩) ++ List.replicate 8 (.cons ⟨0, by decide⟩) ++
    List.replicate 6 (.cons ⟨1, by decide⟩) ++ List.replicate 4 (.cons ⟨0, by decide⟩) ++
    List.replicate 3 (.cons ⟨1, by decide⟩)

set_option maxRecDepth 2000 in
/-- **A consumer may take `NULL`**: both consumers have got a turn for the only line. -/
theorem turn_for_nothing :
    ¬ InOrder ((booked crowded false).run overtaking (bookStart crowded [10])) := by
  intro h
  exact h.line ⟨1, by decide⟩ ⟨0, by decide⟩ none (by decide) rfl

end Mutex
end ProdCons
end OpSys
