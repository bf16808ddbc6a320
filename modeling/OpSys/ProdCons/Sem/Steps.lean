import OpSys.ProdCons.Sem.Invariant

/-!
# The steps of the semaphore version

Each kind of access to the shared memory keeps the invariant and the guarantee of
its thread.

## Main results

* `acquire_keeps`, `release_keeps`, `grant_keeps`, `postFree_keeps` — the semaphores.
* `read_keeps`, `claim_keeps`, `fill_keeps`, `putByte_keeps` — the producers.
* `advance_keeps`, `take_keeps`, `examine_keeps`, `free_keeps` — the consumers.
* `exit_keeps`, `setDone_keeps` — the end of the threads.
-/

namespace OpSys
namespace ProdCons
namespace Sem

variable {cfg : Config} {m : Mem cfg} {b : Books cfg} {t : Thread cfg}

theorem semWait_eq_some {s : SemId cfg} {m' : Mem cfg} (h : semWait s m = some m') :
    0 < m.sems s ∧ m' = { m with sems := Function.update m.sems s (m.sems s - 1) } := by
  unfold semWait at h
  split at h
  case isTrue hpos => exact ⟨hpos, (Option.some.inj h).symm⟩
  case isFalse => exact absurd h (Option.some_ne_none _).symm

/-! ### Semaphores -/

/-- A free semaphore is taken. -/
theorem acquire_keeps (h : SemInv m b) {s : SemId cfg} (hs : s ≠ .free)
    (hnone : b.holder s = none) (hcons : s = .cons → ∃ k, t = .cons k) :
    SemInv { m with sems := Function.update m.sems s (m.sems s - 1) } (b.acquire s t) ∧
      Guar t m b { m with sems := Function.update m.sems s (m.sems s - 1) } (b.acquire s t) := by
  -- a semaphore that had a holder keeps it
  have hold : ∀ s' u, b.holder s' = some u → (b.acquire s t).holder s' = some u := by
    intro s' u hu
    have hne : s' ≠ s := fun heq => by simp [heq, hnone] at hu
    rw [b.acquire_holder_of_ne hne]
    exact hu
  have hfree : ∀ s', (b.acquire s t).holder s' = none → b.holder s' = none := by
    intro s' hs'
    cases hu : b.holder s' with
    | none => rfl
    | some u => exact absurd ((hold s' u hu).symm.trans hs') (Option.some_ne_none _)
  refine ⟨{ h with
      value := ?_, free := ?_, consHolder := ?_, written := ?_
      idleProd := fun hp => h.idleProd (hfree _ hp)
      idleCons := fun hc => h.idleCons (hfree _ hc) }, { Guar.refl t m b with holder := ?_ }⟩
  · intro s' hs'
    by_cases heq : s' = s
    · subst heq
      have hval := h.value s' hs
      rw [if_pos hnone] at hval
      simp [hval]
    · rw [b.acquire_holder_of_ne heq]
      simpa [Function.update_of_ne heq] using h.value s' hs'
  · show Function.update m.sems s (m.sems s - 1) .free + b.granted = cfg.N + b.freed
    rw [Function.update_of_ne hs.symm]
    exact h.free
  · intro u hu
    by_cases heq : SemId.cons = s
    · obtain ⟨k, rfl⟩ := hcons heq.symm
      subst heq
      rw [b.acquire_holder_self] at hu
      exact ⟨k, (Option.some.inj hu).symm⟩
    · rw [b.acquire_holder_of_ne heq] at hu
      exact h.consHolder u hu
  · intro j q hj hq
    rcases h.written j q hj hq with ⟨p, hp⟩ | hc
    · exact Or.inl ⟨p, hold _ _ hp⟩
    · exact Or.inr hc
  · intro s' u hu
    refine ⟨fun hs' => ?_, hold s' u⟩
    by_cases heq : s' = s
    · subst heq
      rw [b.acquire_holder_self] at hs'
      exact absurd (Option.some.inj hs').symm hu
    · rwa [b.acquire_holder_of_ne heq] at hs'

/-- The holder of a semaphore posts it, having done what the semaphore is for. -/
theorem release_keeps (h : SemInv m b) {s : SemId cfg} (hs : s ≠ .free)
    (hheld : b.holder s = some t)
    (hprod : s = .prod → b.granted = b.claims.length)
    (hcons : s = .cons → b.freed = b.takes.length ∧ b.advances.length = b.takes.length)
    (hslot : ∀ j q, s = .slot (cfg.slot j) → b.takes.length ≤ j → b.block j = some q →
      Complete m b j q) :
    SemInv (semPost s m) (b.release s) ∧ Guar t m b (semPost s m) (b.release s) := by
  refine ⟨{ h with
      value := ?_, free := ?_, consHolder := ?_, idleProd := ?_, idleCons := ?_
      written := ?_ }, { Guar.refl t m b with holder := ?_ }⟩
  · intro s' hs'
    by_cases heq : s' = s
    · subst heq
      have hval := h.value s' hs
      rw [hheld, if_neg (Option.some_ne_none t)] at hval
      simp [semPost, hval]
    · rw [b.release_holder_of_ne heq]
      simpa [semPost, Function.update_of_ne heq] using h.value s' hs'
  · show Function.update m.sems s (m.sems s + 1) .free + b.granted = cfg.N + b.freed
    rw [Function.update_of_ne hs.symm]
    exact h.free
  · intro u hu
    by_cases heq : SemId.cons = s
    · rw [heq, b.release_holder_self] at hu
      exact absurd hu (Option.some_ne_none _).symm
    · rw [b.release_holder_of_ne heq] at hu
      exact h.consHolder u hu
  · intro hp
    by_cases heq : SemId.prod = s
    · exact hprod heq.symm
    · rw [b.release_holder_of_ne heq] at hp
      exact h.idleProd hp
  · intro hc
    by_cases heq : SemId.cons = s
    · exact hcons heq.symm
    · rw [b.release_holder_of_ne heq] at hc
      exact h.idleCons hc
  · intro j q hj hq
    by_cases heq : SemId.slot (cfg.slot j) = s
    · exact Or.inr (hslot j q heq.symm hj hq)
    · rw [b.release_holder_of_ne heq]
      exact h.written j q hj hq
  · intro s' u hu
    by_cases heq : s' = s
    · subst heq
      rw [hheld, b.release_holder_self]
      simp [hu.symm]
    · rw [b.release_holder_of_ne heq]

/-- A free slot is granted to the holder of the producer semaphore. -/
theorem grant_keeps (h : SemInv m b) (hheld : b.holder .prod = some t)
    (hgranted : b.granted = b.claims.length) (hpos : 0 < m.sems .free) :
    SemInv { m with sems := Function.update m.sems .free (m.sems .free - 1) }
        { b with granted := b.granted + 1 } ∧
      Guar t m b { m with sems := Function.update m.sems .free (m.sems .free - 1) }
        { b with granted := b.granted + 1 } := by
  refine ⟨{ h with
      value := ?_, free := ?_, claims_le := ?_, idleProd := ?_ },
    { Guar.refl t m b with prod := ?_ }⟩
  · intro s hs
    show Function.update m.sems .free (m.sems .free - 1) s = _
    rw [Function.update_of_ne hs]
    exact h.value s hs
  · have hfree := h.free
    show Function.update m.sems .free (m.sems .free - 1) .free + (b.granted + 1) = cfg.N + b.freed
    rw [Function.update_self]
    omega
  · simp only
    omega
  · intro hp
    simp [hheld] at hp
  · intro u hu hp
    rw [hheld] at hp
    exact absurd (Option.some.inj hp).symm hu

/-- The holder of the consumer semaphore posts the free slot. -/
theorem postFree_keeps (h : SemInv m b) (hheld : b.holder .cons = some t)
    (hfreed : b.freed + 1 = b.takes.length) :
    SemInv (semPost .free m) { b with freed := b.freed + 1 } ∧
      Guar t m b (semPost .free m) { b with freed := b.freed + 1 } := by
  refine ⟨{ h with
      value := ?_, free := ?_, freed_le := hfreed.le, idleCons := ?_ },
    { Guar.refl t m b with cons := ?_ }⟩
  · intro s hs
    simp only [semPost]
    rw [Function.update_of_ne hs]
    exact h.value s hs
  · have hfree := h.free
    simp only [semPost, Function.update_self]
    omega
  · intro hc
    simp [hheld] at hc
  · intro u hu hc
    rw [hheld] at hc
    exact absurd (Option.some.inj hc).symm hu

/-! ### Producers -/

section Producer

variable {p : Fin cfg.P} {line : List UInt8} {idx : Fin cfg.N} {q : Ptr}

/-- More lines, claims and fills leave a complete block complete. -/
theorem Complete.grow {b' : Books cfg} (hk : Keeps t b.toHistory b'.toHistory) {j : ℕ}
    (h : Complete m b j q) : Complete m b' j q := by
  obtain ⟨p, i, line, hclaim, hline, hheap⟩ := h
  exact ⟨p, i, line, hk.claims.getElem?_eq_some hclaim, hk.lines.getElem?_eq_some hline, hheap⟩

theorem TakeOk.grow {b' : Books cfg} (hk : Keeps t b.toHistory b'.toHistory)
    (hblock : ∀ j q, b.block j = some q → b'.block j = some q) {n : ℕ} {x : Take cfg}
    (h : TakeOk b n x) : TakeOk b' n x := by
  obtain ⟨hturn, hmine, p, i, line, q, hclaim, hline, hq, hptr, htext⟩ := h
  exact ⟨hturn, hk.advances.getElem?_eq_some hmine, p, i, line, q,
    hk.claims.getElem?_eq_some hclaim, hk.lines.getElem?_eq_some hline, hblock n q hq, hptr, htext⟩

/-- A producer reads a line. -/
theorem read_keeps (h : SemInv m b) (p : Fin cfg.P) (line rest : List UInt8) :
    SemInv { m with file := rest } (b.withHistory (b.read p line)) ∧
      Guar (.prod p) m b { m with file := rest } (b.withHistory (b.read p line)) := by
  have hk : Keeps (.prod p) b.toHistory (b.read p line) := keeps_read p line
  have hsame : ∀ j q, b.block j = some q → (b.withHistory (b.read p line)).block j = some q :=
    fun _ _ hq => hq
  refine ⟨{ h with accounts := h.accounts.read, written := ?_, takes := ?_ },
    { Guar.refl (.prod p) m b with books := hk }⟩
  · intro j q hj hq
    exact (h.written j q hj hq).imp_right (Complete.grow hk)
  · intro n x hx
    exact (h.takes n x hx).grow hk hsame

/-- A producer with a grant advances `curr_prod`. -/
theorem claim_keeps (h : SemInv m b) (hg : Granted b p line) {cur : Fin cfg.N}
    (hcur : cur = cfg.slot b.claims.length) :
    SemInv { m with currProd := cfg.next cur } (b.withHistory (b.claim p)) ∧
      Guar (.prod p) m b { m with currProd := cfg.next cur } (b.withHistory (b.claim p)) := by
  have hk : Keeps (.prod p) b.toHistory (b.claim p) := keeps_claim p
  have hsame : ∀ j q, b.block j = some q → (b.withHistory (b.claim p)).block j = some q :=
    fun _ _ hq => hq
  have hclaims : (b.claim p).claims = b.claims ++ [(p, b.serial p)] := rfl
  have hlen : (b.claim p).claims.length = b.claims.length + 1 := by simp [hclaims]
  have hgranted := hg.granted
  refine ⟨{ h with
      accounts := h.accounts.claim hg.unclaimed, claims_le := ?_, idleProd := ?_
      currProd := ?_, unclaimed := ?_, block := ?_, written := ?_, takes := ?_ },
    { Guar.refl (.prod p) m b with books := hk, prod := ?_ }⟩
  · show (b.claim p).claims.length ≤ b.granted
    omega
  · intro hp
    exact absurd (hg.holds.symm.trans hp) (Option.some_ne_none _)
  · show cfg.next cur = cfg.slot (b.claim p).claims.length
    rw [hcur, Config.next_slot, hlen]
  · intro j hj
    have hj : (b.claim p).claims.length ≤ j := hj
    exact h.unclaimed j (by omega)
  · intro j q hq
    obtain ⟨hlt, hfill⟩ := h.block j q hq
    refine ⟨hlt, ?_⟩
    have hlt := h.lt_claims hq
    show b.fills[q]? = (b.claim p).claims[j]?
    rw [hfill, hclaims, List.getElem?_append_left hlt]
  · intro j q hj hq
    exact (h.written j q hj hq).imp_right (Complete.grow hk)
  · intro n x hx
    exact (h.takes n x hx).grow hk hsame
  · intro u hu hp
    rw [hg.holds] at hp
    exact absurd (Option.some.inj hp).symm hu

/-- A producer stores a new block into the slot of its claim. -/
theorem fill_keeps (h : SemInv m b) (hp : Pending b p line idx)
    (hheld : b.holder (.slot idx) = some (.prod p)) :
    SemInv (m.withStore (m.malloc idx)) (b.fillBlock p m.fresh) ∧
      Guar (.prod p) m b (m.withStore (m.malloc idx)) (b.fillBlock p m.fresh) := by
  have hk : Keeps (.prod p) b.toHistory (b.fill p) := keeps_fill p
  have hclaimed := hp.claimed.claimed
  have hle := h.takes_le hp.block
  have hlt : b.ticket p < b.claims.length := (List.getElem?_eq_some_iff.mp hclaimed).1
  have hwindow := h.claims_lt_window
  -- only the claim of `p` gets a block
  have hne : ∀ j, j ≠ b.ticket p → (b.fillBlock p m.fresh).block j = b.block j :=
    fun j hj => Function.update_of_ne hj _ _
  have hself : (b.fillBlock p m.fresh).block (b.ticket p) = some m.fresh :=
    Function.update_self _ _ _
  have hsome : ∀ j q, b.block j = some q → (b.fillBlock p m.fresh).block j = some q := by
    intro j q hq
    have hj : j ≠ b.ticket p := fun heq => by simp [heq, hp.block] at hq
    rw [hne j hj]
    exact hq
  -- the blocks there are before have other numbers
  have hheap : ∀ j q, b.block j = some q → (m.malloc idx).heap q = m.heap q := by
    intro j q hq
    have hlt := (h.block j q hq).1
    exact Function.update_of_ne hlt.ne _ _
  refine ⟨{ h with
      accounts := h.accounts.fill hp.claimed.toInHand, shows := ?_, unclaimed := ?_
      filled := ?_, block := ?_, owned := ?_, fresh := ?_, written := ?_, takes := ?_ },
    { Guar.refl (.prod p) m b with
      books := hk, block_some := hsome, block_eq := ?_, heap := ?_ }⟩
  · have hshows := h.shows.put hle (lt_of_lt_of_le hlt hwindow) (some m.fresh)
    show Ring.Shows cfg.N_pos (Function.update m.sharedResource idx (some m.fresh))
      b.takes.length (Function.update b.block (b.ticket p) (some m.fresh))
    rw [hp.idx_eq]
    exact hshows
  · intro j hj
    rw [hne j (lt_of_lt_of_le hlt hj).ne']
    exact h.unclaimed j hj
  · intro j hj
    rw [hne j (lt_of_lt_of_le hj hle).ne]
    exact h.filled j hj
  · intro j q hq
    show q < m.fresh + 1 ∧ (b.fills ++ [(p, b.serial p)])[q]? = b.claims[j]?
    by_cases hj : j = b.ticket p
    · subst hj
      obtain rfl := Option.some.inj (hself.symm.trans hq)
      refine ⟨Nat.lt_succ_self _, ?_⟩
      rw [hclaimed, h.fresh, List.getElem?_concat_length]
    · rw [hne j hj] at hq
      obtain ⟨hq', hfill⟩ := h.block j q hq
      refine ⟨hq'.trans (Nat.lt_succ_self _), ?_⟩
      rw [List.getElem?_append_left (h.fresh ▸ hq'), hfill]
  · intro q hq
    rcases Nat.lt_succ_iff_lt_or_eq.mp hq with hlt | rfl
    · obtain ⟨j, hj⟩ := h.owned q hlt
      exact ⟨j, hsome j q hj⟩
    · exact ⟨b.ticket p, hself⟩
  · show m.fresh + 1 = (b.fills ++ [(p, b.serial p)]).length
    rw [List.length_append, List.length_singleton, h.fresh]
  · intro j q hj hq
    by_cases hj' : j = b.ticket p
    · left
      refine ⟨p, ?_⟩
      rw [hj', ← hp.idx_eq]
      exact hheld
    · rw [hne j hj'] at hq
      apply (h.written j q hj hq).imp_right
      intro hc
      obtain ⟨p', i, line', hclaim, hline, htext⟩ := hc
      exact ⟨p', i, line', hclaim, hline, (hheap j q hq).trans htext⟩
  · intro n x hx
    exact (h.takes n x hx).grow hk hsome
  · intro j p' i hj hp'
    apply hne j
    intro heq
    apply hp'
    rw [heq, hclaimed] at hj
    rw [(Prod.mk.inj (Option.some.inj hj)).1]
  · intro j p' i q _ _ _ hq
    exact hheap j q hq

/-- A producer writes a byte to the block in its slot. -/
theorem putByte_keeps (h : SemInv m b) (hf : Filling b p line idx q) (c : UInt8) :
    SemInv (m.withStore (m.putByte q c)) b ∧
      Guar (.prod p) m b (m.withStore (m.putByte q c)) b := by
  have hheap : ∀ j q', j ≠ b.ticket p → b.block j = some q' →
      (m.putByte q c).heap q' = m.heap q' := by
    intro j q' hj hq'
    refine Function.update_of_ne (fun heq => hj ?_) _ _
    subst heq
    exact h.block_inj hq' hf.block
  refine ⟨{ h with written := ?_ }, { Guar.refl (.prod p) m b with heap := ?_ }⟩
  · intro j q' hj hq'
    by_cases hj' : j = b.ticket p
    · left
      refine ⟨p, ?_⟩
      rw [hj', ← hf.idx_eq]
      exact hf.holds
    · apply (h.written j q' hj hq').imp_right
      intro hc
      obtain ⟨p', i, line', hclaim, hline, htext⟩ := hc
      exact ⟨p', i, line', hclaim, hline, (hheap j q' hj' hq').trans htext⟩
  · intro j p' i q' hj hp' _ hq'
    refine hheap j q' (fun heq => hp' ?_) hq'
    rw [heq, hf.claimed] at hj
    rw [(Prod.mk.inj (Option.some.inj hj)).1]

end Producer

/-! ### Consumers -/

section Consumer

variable {k : Fin cfg.K} {idx : Fin cfg.N} {line : Option Ptr}

/-- A consumer advances `curr_cons`. -/
theorem advance_keeps (h : SemInv m b) (hl : Looking b k) {cur : Fin cfg.N}
    (hcur : cur = cfg.slot b.takes.length) :
    SemInv { m with currCons := cfg.next cur } (b.withHistory (b.advance k)) ∧
      Guar (.cons k) m b { m with currCons := cfg.next cur } (b.withHistory (b.advance k)) := by
  have hk : Keeps (.cons k) b.toHistory (b.advance k) := keeps_advance k
  have hsame : ∀ j q, b.block j = some q → (b.withHistory (b.advance k)).block j = some q :=
    fun _ _ hq => hq
  refine ⟨{ h with
      accounts := h.accounts.of_eq rfl rfl rfl, idleCons := ?_, currCons := ?_, takes := ?_ },
    { Guar.refl (.cons k) m b with books := hk, cons := ?_ }⟩
  · intro hc
    exact absurd (hl.holds.symm.trans hc) (Option.some_ne_none _)
  · show cfg.next cur = cfg.slot (b.advances ++ [k]).length
    rw [hcur, Config.next_slot, List.length_append, hl.advances]
    rfl
  · intro n x hx
    exact (h.takes n x hx).grow hk hsame
  · intro u hu hc
    rw [hl.holds] at hc
    exact absurd (Option.some.inj hc).symm hu

/-- A consumer empties the slot of its turn. -/
theorem take_keeps (h : SemInv m b) (ht : Turn b k idx)
    (hheld : b.holder (.slot idx) = some (.cons k)) (hline : line = b.block b.takes.length) :
    SemInv (m.withStore (m.clear idx)) (b.withHistory (b.take k line (line.bind m.heap))) ∧
      Guar (.cons k) m b (m.withStore (m.clear idx))
        (b.withHistory (b.take k line (line.bind m.heap))) := by
  have hk : Keeps (.cons k) b.toHistory (b.take k line (line.bind m.heap)) := keeps_take k _ _
  have hsame : ∀ j q, b.block j = some q →
      (b.withHistory (b.take k line (line.bind m.heap))).block j = some q := fun _ _ hq => hq
  obtain ⟨q, hq⟩ := Option.ne_none_iff_exists'.mp ht.block
  obtain rfl : line = some q := hline.trans hq
  have hclaims := h.lt_claims hq
  have hwindow := h.claims_lt_window
  have hN := cfg.N_pos
  rw [take_eq ht.turn] at hk hsame ⊢
  have hlen : ∀ x, (b.takes ++ [x]).length = b.takes.length + 1 := by simp
  -- the slot is held by `k`, so its producer is done with the block
  have hcomplete : Complete m b b.takes.length q := by
    rcases h.written _ q le_rfl hq with ⟨p, hp⟩ | hc
    · rw [← ht.idx_eq, hheld] at hp
      exact absurd (Option.some.inj hp) (by simp)
    · exact hc
  refine ⟨{ h with
      accounts := h.accounts.of_eq rfl rfl rfl, freed_le := ?_, idleCons := ?_, shows := ?_
      filled := ?_, written := ?_, takes := ?_ },
    { Guar.refl (.cons k) m b with books := hk, cons := ?_, late := ?_ }⟩
  · have := h.freed_le
    exact this.trans (hlen _ ▸ Nat.le_succ _)
  · intro hc
    exact absurd (ht.holds.symm.trans hc) (Option.some_ne_none _)
  · have hshows := h.shows.take (h.unclaimed _ hwindow)
    show Ring.Shows cfg.N_pos (Function.update m.sharedResource idx none)
      (b.takes ++ [_]).length b.block
    rw [hlen, ht.idx_eq]
    exact hshows
  · intro j hj
    have hj : j < (b.takes ++ [_]).length := hj
    rw [hlen] at hj
    rcases Nat.lt_succ_iff_lt_or_eq.mp hj with hlt | rfl
    · exact h.filled j hlt
    · exact ht.block
  · intro j q' hj hq'
    have hj : (b.takes ++ [_]).length ≤ j := hj
    rw [hlen] at hj
    exact (h.written j q' (by omega) hq').imp_right (Complete.grow hk)
  · intro n x hx
    rcases Ledger.getElem?_append_singleton hx with hold | ⟨rfl, rfl⟩
    · exact (h.takes n x hold).grow hk hsame
    · obtain ⟨p, i, text, hclaim, hread, htext⟩ := hcomplete
      exact ⟨rfl, ht.mine, p, i, text, q, hclaim, hread, hq, rfl, htext⟩
  · intro u hu hc
    rw [ht.holds] at hc
    exact absurd (Option.some.inj hc).symm hu
  · intro j u hu hslot hj
    show (b.takes ++ [_]).length ≤ j
    rcases Nat.lt_or_eq_of_le hj with hlt | rfl
    · exact hlen _ ▸ hlt
    · rw [← ht.idx_eq, hheld] at hslot
      exact absurd (Option.some.inj hslot).symm hu

/-- `printf` changes nothing that matters. -/
theorem examine_keeps (h : SemInv m b) (k : Fin cfg.K) (line : Option Ptr) :
    SemInv (m.withStore (m.examine k line)) b ∧
      Guar (.cons k) m b (m.withStore (m.examine k line)) b := by
  obtain ⟨out, hout⟩ := Store.examine_eq k line m.toStore
  rw [hout]
  exact ⟨{ h with }, { Guar.refl (.cons k) m b with }⟩

/-- A consumer frees the block it has taken. -/
theorem free_keeps (h : SemInv m b) (ht : Taken b line) :
    SemInv (m.withStore (m.free line)) b ∧
      Guar (.cons k) m b (m.withStore (m.free line)) b := by
  obtain ⟨heap, hfree, hheap⟩ := Store.free_eq line m.toStore
  rw [hfree]
  obtain ⟨j, q, hj, hq, rfl⟩ := ht
  -- the blocks of the claims that have not been taken are others
  have hsame : ∀ j' q', b.takes.length ≤ j' → b.block j' = some q' → heap q' = m.heap q' := by
    intro j' q' hj' hq'
    apply hheap q'
    intro heq
    obtain rfl := Option.some.inj heq
    have := h.block_inj hq hq'
    omega
  refine ⟨{ h with written := ?_ }, { Guar.refl (.cons k) m b with heap := ?_ }⟩
  · intro j' q' hj' hq'
    apply (h.written j' q' hj' hq').imp_right
    intro hc
    obtain ⟨p, i, text, hclaim, hread, htext⟩ := hc
    exact ⟨p, i, text, hclaim, hread, (hsame j' q' hj' hq').trans htext⟩
  · intro j' p i q' _ _ hj' hq'
    exact hsame j' q' hj' hq'

end Consumer

/-! ### The ends -/

/-- A thread returns. -/
theorem exit_keeps (h : SemInv m b) :
    SemInv (m.withStore (m.exit t)) b ∧ Guar t m b (m.withStore (m.exit t)) b := by
  have hmono : ∀ u, m.exited u = true → (m.exit t).exited u = true := by
    intro u hu
    by_cases heq : u = t
    · simp [Store.exit, heq]
    · simpa [Store.exit, heq] using hu
  refine ⟨{ h with done := fun hdone p => hmono _ (h.done hdone p) },
    { Guar.refl t m b with exited := ?_, exited_mono := hmono }⟩
  intro u hu
  exact Function.update_of_ne hu _ _

/-- The main thread sets `done_producing`. -/
theorem setDone_keeps (h : SemInv m b) (hexit : ∀ p, m.exited (.prod p) = true) :
    SemInv { m with doneProducing := true } b ∧
      Guar .main m b { m with doneProducing := true } b :=
  ⟨{ h with done := fun _ => hexit }, { Guar.refl .main m b with }⟩

end Sem
end ProdCons
end OpSys
