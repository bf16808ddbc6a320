import OpSys.ProdCons.Mutex.Invariant

/-!
# The steps of the mutex version

Each kind of access to the shared memory keeps the invariant and the guarantee of
its thread.

## Main results

* `lock_keeps`, `unlock_keeps`, `sleep_keeps`, `broadcast_keeps` — the locks.
* `read_keeps`, `claim_keeps`, `fill_keeps`, `putByte_keeps` — the producers.
* `advance_keeps`, `take_keeps`, `examine_keeps`, `free_keeps` — the consumers.
* `exit_keeps`, `setDone_keeps` — the end of the threads.
-/

namespace OpSys
namespace ProdCons
namespace Mutex

variable {cfg : Config} {text : List UInt8} {m : Mem cfg} {h : History cfg} {t : Thread cfg}

/-- What holds of the memory and the books after a step of `t`. -/
def Kept (text : List UInt8) (t : Thread cfg) (m : Mem cfg) (h : History cfg) (m' : Mem cfg)
    (h' : History cfg) : Prop :=
  MutexInv text m' h' ∧ Guar t m h m' h'

/-! ### Mutexes and condition variables -/

/-- A free mutex is locked. -/
theorem lock_keeps (hI : MutexInv text m h) {s : MutexId cfg} (hnone : m.owner s = none) :
    Kept text t m h (m.withOwner s (some t)) h := by
  -- a mutex that was held keeps its owner
  have hold : ∀ s' u, m.owner s' = some u → (m.withOwner s (some t)).owner s' = some u := by
    intro s' u hu
    have hne : s' ≠ s := fun heq => by simp [heq, hnone] at hu
    rw [withOwner_of_ne hne]
    exact hu
  refine ⟨{ hI with idleProd := ?_, written := ?_ }, { Guar.refl t m h with owner := ?_ }⟩
  · intro hp
    cases hu : m.owner .prod with
    | none => exact hI.idleProd hu
    | some u => exact absurd ((hold _ u hu).symm.trans hp) (Option.some_ne_none _)
  · intro i q hq
    exact (hI.written i q hq).imp_left fun hp => hp.imp fun p hp => hold _ _ hp
  · intro s' u hu
    refine ⟨fun hs' => ?_, hold s' u⟩
    by_cases heq : s' = s
    · subst heq
      rw [withOwner_self] at hs'
      exact absurd (Option.some.inj hs').symm hu
    · rwa [withOwner_of_ne heq] at hs'

/-- The owner of a mutex unlocks it, having done what the mutex is for. -/
theorem unlock_keeps (hI : MutexInv text m h) {s : MutexId cfg} (hheld : m.owner s = some t)
    (hprod : s = .prod → h.fills.length = h.claims.length)
    (hslot : ∀ i q, s = .slot i → m.sharedResource i = some q → Complete m h q) :
    Kept text t m h (m.unlock s) h := by
  refine ⟨{ hI with idleProd := ?_, written := ?_ }, { Guar.refl t m h with owner := ?_ }⟩
  · intro hp
    by_cases heq : MutexId.prod = s
    · exact hprod heq.symm
    · rw [Mem.unlock, withOwner_of_ne heq] at hp
      exact hI.idleProd hp
  · intro i q hq
    by_cases heq : MutexId.slot i = s
    · exact Or.inr (hslot i q heq.symm hq)
    · rw [Mem.unlock, withOwner_of_ne heq]
      exact hI.written i q hq
  · intro s' u hu
    by_cases heq : s' = s
    · subst heq
      rw [hheld, Mem.unlock, withOwner_self]
      simp [hu.symm]
    · rw [Mem.unlock, withOwner_of_ne heq]

/-- Who sleeps does not matter. -/
theorem Kept.withSleep {m' : Mem cfg} {h' : History cfg} (hk : Kept text t m h m' h')
    (u : Thread cfg) (c : Option Cond) : Kept text t m h (m'.withSleep u c) h' :=
  ⟨{ hk.1 with }, { hk.2 with }⟩

theorem broadcast_keeps (hI : MutexInv text m h) (c : Cond) : Kept text t m h (m.broadcast c) h :=
  ⟨{ hI with }, { Guar.refl t m h with }⟩

/-- A thread wakes and has its mutex again. -/
theorem reacquire_keeps (hI : MutexInv text m h) {s : MutexId cfg} (hnone : m.owner s = none) :
    Kept text t m h ((m.withSleep t none).withOwner s (some t)) h := by
  have hk : Kept text t m h (m.withOwner s (some t)) h := lock_keeps hI hnone
  exact hk.withSleep t none

/-! ### Producers -/

section Producer

variable {p : Fin cfg.P} {line : List UInt8} {idx : Fin cfg.N} {q : Ptr}

theorem Complete.grow {h' : History cfg} (hk : Keeps t h h') (hc : Complete m h q) :
    Complete m h' q := by
  obtain ⟨p, i, line, hfill, hline, hheap⟩ := hc
  exact ⟨p, i, line, hk.fills.getElem?_eq_some hfill, hk.lines.getElem?_eq_some hline, hheap⟩

theorem TakeOk.grow {h' : History cfg} (hk : Keeps t h h') {x : Take cfg} (hx : TakeOk h x) :
    TakeOk h' x := by
  intro q hq
  obtain ⟨p, i, line, hfill, hline, htext⟩ := hx q hq
  exact ⟨p, i, line, hk.fills.getElem?_eq_some hfill, hk.lines.getElem?_eq_some hline, htext⟩

/-- A producer reads a line. -/
theorem read_keeps (hI : MutexInv text m h) (p : Fin cfg.P) {line rest : List UInt8}
    (hline : Stdio.fgets lineMax m.file = some (line, rest)) :
    Kept text (.prod p) m h { m with file := rest } (h.read p line) := by
  have hk : Keeps (.prod p) h (h.read p line) := keeps_read p line
  refine ⟨{ hI with accounts := hI.accounts.read, reads := ?_, written := ?_, takes := ?_ },
    { Guar.refl (.prod p) m h with books := hk }⟩
  · have hreads := hI.reads
    rw [Stdio.fileLines_of_fgets (by decide) hline] at hreads
    show (h.lines ++ [(p, line)]).map Prod.snd ++ Stdio.fileLines lineMax rest = _
    rw [List.map_append, List.append_assoc]
    exact hreads
  · intro i q hq
    exact (hI.written i q hq).imp_right (Complete.grow hk)
  · intro x hx
    exact (hI.takes x hx).grow hk

/-- A producer with `prod_mutex` advances `curr_prod`. -/
theorem claim_keeps (hI : MutexInv text m h) (hh : Held m h p line) {cur : Fin cfg.N}
    (hcur : cur = cfg.slot h.claims.length) :
    Kept text (.prod p) m h { m with currProd := cfg.next cur } (h.claim p) := by
  have hk : Keeps (.prod p) h (h.claim p) := keeps_claim p
  refine ⟨{ hI with
      accounts := hI.accounts.claim hh.unclaimed, fills := ?_, idleProd := ?_, currProd := ?_ },
    { Guar.refl (.prod p) m h with books := hk, prod := ?_ }⟩
  · intro q x hq
    exact hk.claims.getElem?_eq_some (hI.fills q x hq)
  · intro hp
    exact absurd (hh.holds.symm.trans hp) (Option.some_ne_none _)
  · show cfg.next cur = cfg.slot (h.claims ++ [_]).length
    rw [hcur, Config.next_slot, List.length_append]
    rfl
  · intro u hu hp
    rw [hh.holds] at hp
    exact absurd (Option.some.inj hp).symm hu

/-- A producer stores a new block into its slot. -/
theorem fill_keeps (hI : MutexInv text m h) (hp : Pending m h p line idx)
    (hheld : m.owner (.slot idx) = some (.prod p)) :
    Kept text (.prod p) m h (m.withStore (m.malloc idx)) (h.fill p) := by
  have hk : Keeps (.prod p) h (h.fill p) := keeps_fill p
  have hfresh := hI.fresh
  have hheap : ∀ q, q < m.fresh → (m.malloc idx).heap q = m.heap q :=
    fun q hq => Function.update_of_ne hq.ne _ _
  -- a block that has been taken is an old one
  have htaken : ∀ x ∈ h.takes, ∀ q, x.ptr = some q → q < m.fresh := by
    intro x hx q hq
    obtain ⟨_, _, _, hfill, -, -⟩ := hI.takes x hx q hq
    rw [hfresh]
    exact (List.getElem?_eq_some_iff.mp hfill).1
  refine ⟨{ hI with
      accounts := hI.accounts.fill hp.claimed.toInHand, fresh := ?_, fills := ?_, idleProd := ?_
      slots := ?_, written := ?_, takes := ?_ },
    { Guar.refl (.prod p) m h with books := hk, prod := ?_, slot := ?_, taken := ?_ }⟩
  · show m.fresh + 1 = (h.fills ++ [_]).length
    rw [List.length_append, hfresh]
    rfl
  · intro q x hq
    rcases Ledger.getElem?_append_singleton hq with hold | ⟨rfl, rfl⟩
    · exact hI.fills q x hold
    · have hclaimed := hp.claimed.claimed
      rw [hp.ticket] at hclaimed
      exact hclaimed
  · intro hnone
    exact absurd (hp.holds.symm.trans hnone) (Option.some_ne_none _)
  · intro i q hq
    rcases Store.malloc_eq_some hq with ⟨rfl, rfl⟩ | ⟨-, hold⟩
    · refine ⟨Nat.lt_succ_self _, ?_, ?_⟩
      · rw [hfresh, ← hp.idx_eq]
      · intro x hx hptr
        exact absurd (htaken x hx _ hptr) (Nat.lt_irrefl _)
    · obtain ⟨hlt, hslot, hun⟩ := hI.slots i q hold
      exact ⟨hlt.trans (Nat.lt_succ_self _), hslot, hun⟩
  · intro i q hq
    rcases Store.malloc_eq_some hq with ⟨rfl, -⟩ | ⟨-, hold⟩
    · exact Or.inl ⟨p, hheld⟩
    · apply (hI.written i q hold).imp_right
      intro hc
      obtain ⟨p', i', line', hfill, hline, htext⟩ := hc.grow hk
      exact ⟨p', i', line', hfill, hline, (hheap q (hI.slots i q hold).1).trans htext⟩
  · intro x hx
    exact (hI.takes x hx).grow hk
  · intro u hu hprod
    rw [hp.holds] at hprod
    exact absurd (Option.some.inj hprod).symm hu
  · intro i u hu hslot
    have hi : i ≠ idx := by
      rintro rfl
      rw [hheld] at hslot
      exact absurd (Option.some.inj hslot).symm hu
    exact ⟨Function.update_of_ne hi _ _, fun q hq => hheap q (hI.slots i q hq).1⟩
  · intro x hx _ q hq
    exact hheap q (htaken x hx q hq)

/-- A producer writes a byte to the block in its slot. -/
theorem putByte_keeps (hI : MutexInv text m h) (hf : Filling m h p line idx q) (c : UInt8) :
    Kept text (.prod p) m h (m.withStore (m.putByte q c)) h := by
  have hheap : ∀ q', q' ≠ q → (m.putByte q c).heap q' = m.heap q' :=
    fun q' hq' => Function.update_of_ne hq' _ _
  -- the block is in no other slot
  have hother : ∀ i q', i ≠ idx → m.sharedResource i = some q' → q' ≠ q := by
    rintro i q' hi hq' rfl
    have h₁ := (hI.slots i q' hq').2.1
    have h₂ := (hI.slots idx q' hf.stored).2.1
    exact hi (h₁.symm.trans h₂)
  refine ⟨{ hI with written := ?_ },
    { Guar.refl (.prod p) m h with slot := ?_, taken := ?_ }⟩
  · intro i q' hq'
    by_cases hi : i = idx
    · rw [hi]
      exact Or.inl ⟨p, hf.slotHeld⟩
    · apply (hI.written i q' hq').imp_right
      intro hc
      obtain ⟨p', i', line', hfill, hline, htext⟩ := hc
      exact ⟨p', i', line', hfill, hline, (hheap q' (hother i q' hi hq')).trans htext⟩
  · intro i u hu hslot
    have hi : i ≠ idx := by
      rintro rfl
      rw [hf.slotHeld] at hslot
      exact absurd (Option.some.inj hslot).symm hu
    exact ⟨rfl, fun q' hq' => hheap q' (hother i q' hi hq')⟩
  · intro x hx _ q' hq'
    apply hheap q'
    rintro rfl
    exact (hI.slots idx q' hf.stored).2.2 x hx hq'

end Producer

/-! ### Consumers -/

section Consumer

variable {k : Fin cfg.K} {idx : Fin cfg.N} {line : Option Ptr}

/-- A consumer with `cons_mutex` advances `curr_cons`. -/
theorem advance_keeps (hI : MutexInv text m h) (hl : Looking m h k) {cur : Fin cfg.N}
    (hcur : cur = cfg.slot h.advances.length) :
    Kept text (.cons k) m h { m with currCons := cfg.next cur } (h.advance k) := by
  have hk : Keeps (.cons k) h (h.advance k) := keeps_advance k
  refine ⟨{ hI with accounts := hI.accounts.of_eq rfl rfl rfl, currCons := ?_ },
    { Guar.refl (.cons k) m h with books := hk, cons := ?_ }⟩
  · show cfg.next cur = cfg.slot (h.advances ++ [k]).length
    rw [hcur, Config.next_slot, List.length_append]
    rfl
  · intro u hu hc
    rw [hl.holds] at hc
    exact absurd (Option.some.inj hc).symm hu

/-- A block in a slot whose mutex a consumer holds is complete. -/
theorem MutexInv.complete_of_held (hI : MutexInv text m h)
    (hheld : m.owner (.slot idx) = some (.cons k)) {q : Ptr}
    (hq : m.sharedResource idx = some q) : Complete m h q := by
  rcases hI.written idx q hq with ⟨p, hp⟩ | hc
  · rw [hheld] at hp
    exact absurd (Option.some.inj hp) (by simp)
  · exact hc

/-- A consumer empties the slot of its turn. -/
theorem take_keeps (hI : MutexInv text m h) {j : ℕ} (hturn : h.turn k = some j)
    (hheld : m.owner (.slot idx) = some (.cons k)) (hline : line = m.sharedResource idx) :
    Kept text (.cons k) m h (m.withStore (m.clear idx)) (h.take k line (line.bind m.heap)) := by
  have hk : Keeps (.cons k) h (h.take k line (line.bind m.heap)) := keeps_take k _ _
  rw [take_eq hturn] at hk ⊢
  have hnew : ∀ q, line = some q → Untaken h q := by
    intro q hq
    exact (hI.slots idx q (hline ▸ hq)).2.2
  refine ⟨{ hI with
      accounts := hI.accounts.of_eq rfl rfl rfl, slots := ?_, written := ?_, takes := ?_
      takes_inj := ?_ },
    { Guar.refl (.cons k) m h with books := hk, prod := ?_, slot := ?_ }⟩
  · intro i q hq
    obtain ⟨hi, hold⟩ := Store.clear_eq_some hq
    obtain ⟨hlt, hslot, hun⟩ := hI.slots i q hold
    refine ⟨hlt, hslot, ?_⟩
    intro x hx hptr
    rcases List.mem_append.mp hx with hx | hx
    · exact hun x hx hptr
    · -- the block of another slot is not the one taken now
      obtain rfl := List.mem_singleton.mp hx
      have hidx := (hI.slots idx q (hline ▸ hptr)).2.1
      exact hi (hslot.symm.trans hidx)
  · intro i q hq
    exact (hI.written i q (Store.clear_eq_some hq).2).imp_right (Complete.grow hk)
  · intro x hx
    rcases List.mem_append.mp hx with hx | hx
    · exact (hI.takes x hx).grow hk
    · obtain rfl := List.mem_singleton.mp hx
      intro q hq
      have hq : line = some q := hq
      obtain ⟨p, i, read, hfill, hread, htext⟩ := hI.complete_of_held hheld (hline ▸ hq)
      refine ⟨p, i, read, hfill, hread, ?_⟩
      rw [hq]
      exact htext
  · intro n n' x x' q hx hx' hptr hptr'
    rcases Ledger.getElem?_append_singleton hx with hold | ⟨hn, rfl⟩ <;>
      rcases Ledger.getElem?_append_singleton hx' with hold' | ⟨hn', rfl⟩
    · exact hI.takes_inj n n' x x' q hold hold' hptr hptr'
    · exact absurd hptr (hnew q hptr' x (List.mem_of_getElem? hold))
    · exact absurd hptr' (hnew q hptr x' (List.mem_of_getElem? hold'))
    · exact hn.trans hn'.symm
  · intro u _ _
    exact ⟨rfl, rfl, fun i hi => Store.clear_eq_none hi⟩
  · intro i u hu hslot
    have hi : i ≠ idx := by
      rintro rfl
      rw [hheld] at hslot
      exact absurd (Option.some.inj hslot).symm hu
    exact ⟨Function.update_of_ne hi _ _, fun _ _ => rfl⟩

/-- `printf` changes nothing that matters. -/
theorem examine_keeps (hI : MutexInv text m h) (k : Fin cfg.K) (line : Option Ptr) :
    Kept text (.cons k) m h (m.withStore (m.examine k line)) h := by
  obtain ⟨out, hout⟩ := Store.examine_eq k line m.toStore
  rw [hout]
  exact ⟨{ hI with }, { Guar.refl (.cons k) m h with }⟩

/-- A consumer frees the block it has taken. -/
theorem free_keeps (hI : MutexInv text m h) (ho : Owns m h k line) :
    Kept text (.cons k) m h (m.withStore (m.free line)) h := by
  obtain ⟨heap, hfree, hheap⟩ := Store.free_eq line m.toStore
  rw [hfree]
  -- the blocks in the slots and those of the other consumers are others
  have hslot : ∀ i q, m.sharedResource i = some q → heap q = m.heap q := by
    intro i q hq
    apply hheap q
    intro heq
    obtain ⟨x, hx, -, hptr, -⟩ := ho q heq
    exact (hI.slots i q hq).2.2 x hx hptr
  refine ⟨{ hI with written := ?_ }, { Guar.refl (.cons k) m h with slot := ?_, taken := ?_ }⟩
  · intro i q hq
    apply (hI.written i q hq).imp_right
    intro hc
    obtain ⟨p, i', read, hfill, hread, htext⟩ := hc
    exact ⟨p, i', read, hfill, hread, (hslot i q hq).trans htext⟩
  · intro i _ _ _
    exact ⟨rfl, fun q hq => hslot i q hq⟩
  · intro x hx hne q hq
    apply hheap q
    intro heq
    apply hne
    obtain ⟨x', hx', hk, hptr', -⟩ := ho q heq
    obtain ⟨n, hn⟩ := List.getElem?_of_mem hx
    obtain ⟨n', hn'⟩ := List.getElem?_of_mem hx'
    obtain rfl := hI.takes_inj n n' x x' q hn hn' hq hptr'
    obtain rfl := Option.some.inj (hn.symm.trans hn')
    rw [hk]

end Consumer

/-! ### The ends -/

/-- A thread returns. -/
theorem exit_keeps (hI : MutexInv text m h) : Kept text t m h (m.withStore (m.exit t)) h := by
  have hmono : ∀ u, m.exited u = true → (m.exit t).exited u = true := by
    intro u hu
    by_cases heq : u = t
    · simp [Store.exit, heq]
    · simpa [Store.exit, heq] using hu
  refine ⟨{ hI with done := fun hdone p => hmono _ (hI.done hdone p) },
    { Guar.refl t m h with exited := ?_, exited_mono := hmono }⟩
  intro u hu
  exact Function.update_of_ne hu _ _

/-- The main thread sets `done_producing`. -/
theorem setDone_keeps (hI : MutexInv text m h) (hexit : ∀ p, m.exited (.prod p) = true) :
    Kept text .main m h { m with doneProducing := true } h :=
  ⟨{ hI with done := fun _ => hexit }, { Guar.refl .main m h with }⟩

end Mutex
end ProdCons
end OpSys
