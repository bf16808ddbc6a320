import OpSys.ProdCons.Mutex.Drain
import OpSys.ProdCons.Mutex.Turns

/-!
# Whether all lines are taken

A consumer tests `done_producing` after it has tested its slot.  The only consumer
may find the slot empty before the last line is stored and `done_producing` set
after that, and then nobody takes the line.  Of several consumers the second to leave
tests the slot again, but when two of them have claimed one slot, `curr_cons` is
ahead of the fills, and the next line goes to a slot where nobody looks for it.

## Main definitions

* `Completed` — whenever the main thread is at `clean_up`, all lines have been taken.
* `NoneLeft` — the inputs for which this always holds.

## Main results

* `completed_iff` — every state of every run is completed if and only if the input
  is one of these.
* `line_left` — a run in which the only line is not taken.
-/

namespace OpSys
namespace ProdCons
namespace Mutex

variable {cfg : Config} {spurious : Bool} {text : List UInt8}

/-- Whenever the main thread has come to `clean_up`, all lines have been taken. -/
def Completed (s : Global (Mem cfg × History cfg) (Local cfg)) : Prop :=
  s.loc .main = .cleanUp → AllTaken s.mem.1.toStore s.mem.2

/-- The inputs on which no line is left behind. -/
def NoneLeft (cfg : Config) (text : List UInt8) : Prop :=
  cfg.P = 0 ∨ text = [] ∨
    (2 ≤ cfg.K ∧ (cfg.N = 1 ∨ (Stdio.fileLines lineMax text).length ≤ cfg.N))

/-! ### When no line is left behind -/

/-- If the slots are empty and the producers have returned, all lines have been taken. -/
theorem allTaken_of_empty {s : Global (Mem cfg × History cfg) (Local cfg)}
    (hI : MutexInv text s.mem.1 s.mem.2) (hS : Stored s.mem.1 s.mem.2)
    (hclean : ∀ p, Clean s.mem.2 p) (hempty : ∀ i, s.mem.1.sharedResource i = none) :
    AllTaken s.mem.1.toStore s.mem.2 := by
  refine ⟨?_, hempty⟩
  intro i hi
  obtain ⟨⟨p, line⟩, hline⟩ : ∃ c, s.mem.2.lines[i]? = some c :=
    ⟨_, List.getElem?_eq_getElem hi⟩
  obtain ⟨q, hq⟩ := hclean p i line hline
  -- the block of the line is not in a slot any more
  obtain ⟨x, hx, hptr⟩ : ∃ x ∈ s.mem.2.takes, x.ptr = some q := by
    rcases hS q (List.getElem?_eq_some_iff.mp hq).1 with hslot | htaken
    · rw [hempty] at hslot
      exact absurd hslot.symm (Option.some_ne_none q)
    · exact htaken
  obtain ⟨n, hn⟩ := List.getElem?_of_mem hx
  refine ⟨n, ⟨x, q, hn, hptr, by rw [hq]; rfl⟩, ?_⟩
  rintro n' ⟨x', q', hn', hptr', hserial⟩
  obtain ⟨⟨p', i'⟩, hq', rfl⟩ := Option.map_eq_some_iff.mp hserial
  -- a line has one block
  obtain rfl : q' = q := hI.accounts.claim_once (hI.fills _ _ hq') (hI.fills _ _ hq)
  exact hI.takes_inj n' n x' x q' hn' hn hptr' hptr

theorem NoneLeft.completed (hcond : NoneLeft cfg text)
    {s : Global (Mem cfg × History cfg) (Local cfg)}
    (h : (booked cfg spurious).Reach (bookStart cfg text) s) : Completed s := by
  intro hmain
  obtain ⟨hI, hA⟩ := knows_of_reach h
  have hknows : ∀ k, ConsKnows k s.mem.1 s.mem.2 (s.loc (.cons k)) := fun k => hA (.cons k)
  obtain ⟨hprods, hconsumers⟩ : MainKnows s.mem.1 .cleanUp := by
    rw [← hmain]
    exact hA .main
  have hret : ∀ k, s.loc (.cons k) = .returned := fun k => (hknows k).1.mp (hconsumers k)
  have hclean : ∀ p, Clean s.mem.2 p := by
    intro p
    have hp : ProdKnows p s.mem.1 s.mem.2 (s.loc (.prod p)) := hA (.prod p)
    rw [hp.1.mp (hprods p)] at hp
    exact hp.2
  apply allTaken_of_empty hI ((stored text).of_reach h).1 hclean
  intro i
  by_contra hfull
  obtain ⟨q, hq⟩ := Option.ne_none_iff_exists'.mp hfull
  have hlt := (hI.slots i q hq).1
  rw [hI.fresh] at hlt
  have hlines := hI.fills_length_le
  rcases hcond with hP | rfl | ⟨hK, hN⟩
  · obtain ⟨⟨p, i⟩, -⟩ : ∃ x, s.mem.2.fills[q]? = some x := ⟨_, List.getElem?_eq_getElem hlt⟩
    rw [hP] at p
    exact p.elim0
  · exact absurd (lt_of_lt_of_le hlt hlines) (Nat.not_lt_zero q)
  · -- the second consumer to leave has seen an empty slot
    have hne : (⟨0, by omega⟩ : Fin cfg.K) ≠ ⟨1, by omega⟩ := by simp
    have hleaving : ∀ k, Leaving (s.loc (.cons k)) := by
      intro k
      rw [hret k]
      trivial
    have hnull := (lastLook_of_reach h).empty _ _ hne (hleaving _) (Or.inl (hleaving _))
    rcases hN with hN | hN
    · -- it is the only slot
      have hi : i = s.mem.1.currCons := by
        apply Fin.ext
        have := i.isLt
        have := s.mem.1.currCons.isLt
        omega
      rw [hi] at hfull
      exact hfull hnull
    · obtain ⟨hahead, -⟩ := (ahead hN).of_reach h
      by_cases hadv : q < s.mem.2.advances.length
      · obtain ⟨k, j, hj, -⟩ := hahead.behind i q hq hadv
        have hturn := (hknows k).2
        rw [hret k] at hturn
        rw [hturn] at hj
        exact Option.some_ne_none j hj.symm
      · have hwaiting := hahead.waiting _ le_rfl (lt_of_le_of_lt (not_lt.mp hadv) hlt)
        rw [← hI.currCons, hnull] at hwaiting
        exact Option.some_ne_none _ hwaiting.symm

/-! ### When one may be -/

section LeftBehind

variable (spurious) {c left : ℕ} {s : Global (Mem cfg) (Local cfg)}

/-- The main thread has come to `clean_up`, and there is a line in a slot. -/
def LeftBehind (s : Global (Mem cfg) (Local cfg)) : Prop :=
  s.loc .main = .cleanUp ∧ ∃ i, s.mem.sharedResource i ≠ none

/-- When all consumers have returned the main thread comes to `clean_up`. -/
theorem leftBehind_of_exited (hmain : s.loc .main = .joinCons 0)
    (hexited : ∀ k, s.mem.exited (.cons k) = true) {i : Fin cfg.N}
    (hfull : s.mem.sharedResource i ≠ none) :
    ∃ s', (program cfg spurious).Reach s s' ∧ LeftBehind s' := by
  obtain ⟨s', hreach, hmem, hloc, -⟩ := (solo_joinConsumers spurious hexited).exists_reach hmain
  refine ⟨s', hreach, hloc, i, ?_⟩
  rw [hmem]
  exact hfull

/-- The only consumer tests its slot, the last line is stored, the producers return, and the
consumer finds `done_producing` set. -/
theorem leftBehind_of_single (hK : cfg.K = 1) (p : Fin cfg.P) (htext : text ≠ []) :
    ∃ s, (program cfg spurious).Reach (start cfg text) s ∧ LeftBehind s := by
  obtain ⟨c, hlines⟩ : ∃ c, (Stdio.fileLines lineMax text).length = c + 1 := by
    apply Nat.exists_eq_succ_of_ne_zero
    rw [Ne, List.length_eq_zero_iff, Stdio.fileLines_eq_nil_iff (by decide)]
    exact htext
  obtain ⟨s₁, hs₁, h₁⟩ := exists_passed spurious p hlines
  let k : Fin cfg.K := ⟨0, cfg.K_pos⟩
  have hempty₁ : ∀ i, i = cfg.slot c → s₁.mem.sharedResource i = none := by
    rintro i rfl
    exact h₁.rest 0 le_rfl cfg.N_pos
  -- the consumer tests its slot
  obtain ⟨s₂, hs₂, hmem₂, hloc₂, hothers₂⟩ :=
    (solo_look spurious k (h₁.owner _) (hempty₁ _ h₁.currCons)).exists_reach (h₁.consumers k)
  have hbusy₂ : Busy 1 s₂ := by
    apply h₁.toBusy.frame hothers₂
    rw [hmem₂]
    exact undisturbed_holding k s₁.mem
  have hfree₂ : ∀ x, x ≠ .cons → s₂.mem.owner x = none := by
    intro x hx
    rw [hmem₂]
    exact (withOwner_of_ne hx _).trans (h₁.owner x)
  have hempty₂ : s₂.mem.sharedResource s₂.mem.currProd = none := by
    rw [hmem₂]
    exact hempty₁ _ h₁.currProd
  -- the last line is stored and the producers return
  obtain ⟨s₃, hs₃, hbusy₃, ⟨rest, hm₃⟩, hcons₃⟩ :=
    hbusy₂.store spurious p (hfree₂ _ (by simp)) (hfree₂ _ (by simp)) hempty₂
  obtain ⟨s₄, hs₄, hover, hsame⟩ := hbusy₃.over spurious fun _ => rfl
  -- the consumer leaves
  obtain ⟨s₅, hs₅, hmem₅, -, hothers₅⟩ := (solo_leave spurious k hover.done).exists_reach
    ((hsame.loc k).trans ((hcons₃ k).trans hloc₂))
  have hexited : ∀ k', s₅.mem.exited (.cons k') = true := by
    intro k'
    have hkk : k' = k := by
      apply Fin.ext
      have := k'.isLt
      have := k.isLt
      omega
    rw [hkk, hmem₅]
    show Function.update s₄.mem.exited (.cons k) true (.cons k) = true
    rw [Function.update_self]
  have hfull : s₅.mem.sharedResource s₂.mem.currProd ≠ none := by
    rw [hmem₅]
    show s₄.mem.sharedResource _ ≠ none
    rw [hsame.slots, hm₃.slots, Function.update_self]
    exact Option.some_ne_none _
  obtain ⟨s₆, hs₆, hleft⟩ := leftBehind_of_exited spurious
    ((hothers₅ _ (by simp)).trans hover.main) hexited hfull
  exact ⟨s₆, hs₁.trans (hs₂.trans (hs₃.trans (hs₄.trans (hs₅.trans hs₆)))), hleft⟩

/-- A consumer takes `NULL` from a slot for which another one had a turn as well; the last
line goes to that slot, and the consumers look at the next one and leave. -/
theorem leftBehind_of_overtaken {k₁ : Fin cfg.K} (h : Overtaken c k₁ 1 s) (hN : 2 ≤ cfg.N)
    (p : Fin cfg.P) : ∃ s', (program cfg spurious).Reach s s' ∧ LeftBehind s' := by
  -- the consumer goes on with nothing
  obtain ⟨m', htake, hm'⟩ := solo_take spurious k₁ (cfg.slot c) s.mem
  obtain ⟨s₁, hs₁, rfl, hloc₁, hothers₁⟩ := htake.exists_reach h.fast
  have hbusy₁ : Busy 1 s₁ := h.toBusy.frame hothers₁ hm'.toUndisturbed
  have hlocs₁ : ∀ k, s₁.loc (.cons k) = .lockCons := by
    intro k
    by_cases hk : k = k₁
    · rw [hk]
      exact hloc₁
    · rw [hothers₁ _ (by simpa using hk)]
      exact h.others k hk
  have hfree₁ : ∀ x, s₁.mem.owner x = none := by
    intro x
    by_cases hx : x = .slot (cfg.slot c)
    · rw [hx]
      exact hm'.unlocked
    · rw [hm'.owner x hx]
      exact h.owner x hx
  have hempty₁ : ∀ i, s₁.mem.sharedResource i = none := by
    intro i
    rw [hm'.slots]
    by_cases hi : i = cfg.slot c
    · rw [hi, Function.update_self]
    · rw [Function.update_of_ne hi]
      exact h.slots i
  -- the last line is stored and the producers return
  obtain ⟨s₂, hs₂, hbusy₂, ⟨rest, hm₂⟩, hcons₂⟩ :=
    hbusy₁.store spurious p (hfree₁ _) (hfree₁ _) (hempty₁ _)
  obtain ⟨s₃, hs₃, hover, hsame⟩ := hbusy₂.over spurious fun _ => rfl
  have hslots₃ : s₃.mem.sharedResource =
      Function.update s₁.mem.sharedResource (cfg.slot (c + cfg.N)) (some s₁.mem.fresh) := by
    rw [hsame.slots, hm₂.slots, hm'.currProd, h.currProd]
  have hempty₃ : s₃.mem.sharedResource s₃.mem.currCons = none := by
    have hne : cfg.slot (c + cfg.N + 1) ≠ cfg.slot (c + cfg.N) := by
      intro heq
      have hzero : cfg.slot (c + cfg.N + 1) = cfg.slot (c + cfg.N + 0) := heq
      have := slot_inj (by omega) cfg.N_pos hzero
      omega
    rw [hslots₃, hsame.currCons, hm₂.currCons, hm'.currCons, h.currCons,
      Function.update_of_ne hne]
    exact hempty₁ _
  have hfree₃ : s₃.mem.owner .cons = none := by
    rw [hsame.owner, hm₂.owner]
    exact hfree₁ _
  -- the consumers look at the next slot and leave
  have hlocs₃ : ∀ k ∈ List.finRange cfg.K, s₃.loc (.cons k) = .lockCons :=
    fun k _ => (hsame.loc k).trans ((hcons₂ k).trans (hlocs₁ k))
  obtain ⟨s₄, e, hs₄, hmem₄, hin, hout⟩ :=
    leave_all spurious hover.done hfree₃ hempty₃ (List.nodup_finRange cfg.K) hlocs₃
  have hexited : ∀ k, s₄.mem.exited (.cons k) = true := by
    intro k
    rw [hmem₄]
    exact (hin k (List.mem_finRange k)).2
  have hfull : s₄.mem.sharedResource (cfg.slot (c + cfg.N)) ≠ none := by
    rw [hmem₄]
    show s₃.mem.sharedResource _ ≠ none
    rw [hslots₃, Function.update_self]
    exact Option.some_ne_none _
  obtain ⟨s₅, hs₅, hleft⟩ := leftBehind_of_exited spurious
    ((hout .main (by simp)).1.trans hover.main) hexited hfull
  exact ⟨s₅, hs₁.trans (hs₂.trans (hs₃.trans (hs₄.trans hs₅))), hleft⟩

end LeftBehind

/-- **All lines are taken in every run if and only if** there are no lines, or there are at
least two consumers and either one slot or not more lines than slots. -/
theorem completed_iff (cfg : Config) (spurious : Bool) (text : List UInt8) :
    (∀ sched, Completed ((booked cfg spurious).run sched (bookStart cfg text))) ↔
      NoneLeft cfg text := by
  constructor
  · intro hall
    by_contra hcond
    obtain ⟨hP, htext, hmany⟩ : cfg.P ≠ 0 ∧ text ≠ [] ∧
        ¬ (2 ≤ cfg.K ∧ (cfg.N = 1 ∨ (Stdio.fileLines lineMax text).length ≤ cfg.N)) := by
      simpa only [NoneLeft, not_or] using hcond
    have hK_pos := cfg.K_pos
    have hN_pos := cfg.N_pos
    let p : Fin cfg.P := ⟨0, Nat.pos_of_ne_zero hP⟩
    obtain ⟨s, hs, hmain, i, hfull⟩ :
        ∃ s, (program cfg spurious).Reach (start cfg text) s ∧ LeftBehind s := by
      by_cases hK : cfg.K = 1
      · exact leftBehind_of_single spurious hK p htext
      · have hk : (⟨1, by omega⟩ : Fin cfg.K) ≠ ⟨0, cfg.K_pos⟩ := by simp
        obtain ⟨c, hc⟩ : ∃ c, (Stdio.fileLines lineMax text).length = c + cfg.N + 1 :=
          ⟨(Stdio.fileLines lineMax text).length - cfg.N - 1, by omega⟩
        obtain ⟨s₁, hs₁, hover⟩ := exists_overtaken spurious p hk hc
        obtain ⟨s₂, hs₂, hleft⟩ := leftBehind_of_overtaken spurious hover (by omega) p
        exact ⟨s₂, hs₁.trans hs₂, hleft⟩
    obtain ⟨sched, rfl⟩ := (program cfg spurious).exists_run_of_reach hs
    rw [← erase_booked_run] at hmain hfull
    exact hfull ((hall sched hmain).2 i)
  · intro hcond sched
    exact hcond.completed ((booked cfg spurious).reach_run sched _)

/-! ### A line left -/

/-- One producer, one consumer and one slot. -/
def one : Config := .counts 1 1 1 Nat.zero_lt_one Nat.zero_lt_one

/-- A run in which the consumer tests its slot before the line is stored and
`done_producing` after the producer has returned. -/
def lookEarly : List (Thread one) :=
  List.replicate 3 (.cons ⟨0, by decide⟩) ++ List.replicate 17 (.prod ⟨0, by decide⟩) ++
    List.replicate 4 .main ++ List.replicate 3 (.cons ⟨0, by decide⟩) ++ List.replicate 2 .main

set_option maxRecDepth 2000 in
/-- **A line may be left behind**: the consumer returns and the line stays in its slot. -/
theorem line_left :
    ¬ Completed ((booked one false).run lookEarly (bookStart one [10])) := by
  intro h
  have hslots := (h (by decide)).2 ⟨0, by decide⟩
  exact absurd hslots (by decide)

end Mutex
end ProdCons
end OpSys
