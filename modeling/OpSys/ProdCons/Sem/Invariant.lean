import OpSys.ProdCons.Sem.Program

/-!
# The invariant of the semaphore version

The claims are numbered by the advances of `curr_prod`, the turns by those of
`curr_cons`.  The consumer semaphore is held from the test of a slot until the
slot has been emptied, so the takes are in order; the slots show the blocks of the
claims that have not been taken, a window of at most `N` claims.  A claimed slot
belongs to its producer until it posts the semaphore of the slot, and what is
in the slot is complete unless that semaphore is held.

## Main definitions

* `SemInv` — the invariant of the shared memory and its books.
* `ProdKnows`, `ConsKnows`, `MainKnows` — what the threads know.
* `Guar t` — what a step of thread `t` may do.

## Main results

* `ProdKnows.frame`, `ConsKnows.frame`, `MainKnows.frame` — what a thread knows
  survives the steps of the others.
-/

namespace OpSys
namespace ProdCons
namespace Sem

variable {cfg : Config}

/-! ### The shared memory -/

/-- Block `q` holds all of the line that claim `j` is for. -/
def Complete (m : Mem cfg) (b : Books cfg) (j : ℕ) (q : Ptr) : Prop :=
  ∃ p i line, b.claims[j]? = some (p, i) ∧ b.lines[i]? = some (p, line) ∧
    m.heap q = some (Stdio.strcpyBytes line)

/-- The take numbered `n` is for advance `n` of `curr_cons`, and of the block filled for
claim `n`, with all of its line. -/
def TakeOk (b : Books cfg) (n : ℕ) (x : Take cfg) : Prop :=
  x.turn = n ∧ b.advances[n]? = some x.taker ∧
    ∃ p i line q, b.claims[n]? = some (p, i) ∧ b.lines[i]? = some (p, line) ∧
      b.block n = some q ∧ x.ptr = some q ∧ x.text = some (Stdio.strcpyBytes line)

/-- The invariant of the shared memory. -/
structure SemInv (m : Mem cfg) (b : Books cfg) : Prop where
  accounts : Accounts b.toHistory
  value : ∀ s, s ≠ .free → m.sems s = if b.holder s = none then 1 else 0
  free : m.sems .free + b.granted = cfg.N + b.freed
  consHolder : ∀ t, b.holder .cons = some t → ∃ k, t = .cons k
  claims_le : b.claims.length ≤ b.granted
  freed_le : b.freed ≤ b.takes.length
  idleProd : b.holder .prod = none → b.granted = b.claims.length
  idleCons : b.holder .cons = none →
    b.freed = b.takes.length ∧ b.advances.length = b.takes.length
  currProd : m.currProd = cfg.slot b.claims.length
  currCons : m.currCons = cfg.slot b.advances.length
  shows : Ring.Shows cfg.N_pos m.sharedResource b.takes.length b.block
  unclaimed : ∀ j, b.claims.length ≤ j → b.block j = none
  filled : ∀ j, j < b.takes.length → b.block j ≠ none
  block : ∀ j q, b.block j = some q → q < m.fresh ∧ b.fills[q]? = b.claims[j]?
  owned : ∀ q, q < m.fresh → ∃ j, b.block j = some q
  fresh : m.fresh = b.fills.length
  written : ∀ j q, b.takes.length ≤ j → b.block j = some q →
    (∃ p, b.holder (.slot (cfg.slot j)) = some (.prod p)) ∨ Complete m b j q
  takes : ∀ (n : ℕ) x, b.takes[n]? = some x → TakeOk b n x
  done : m.doneProducing = true → ∀ p, m.exited (.prod p) = true

section Consequences

variable {m : Mem cfg} {b : Books cfg}

/-- A semaphore that lets a thread pass has no holder. -/
theorem SemInv.holder_eq_none (h : SemInv m b) {s : SemId cfg} (hs : s ≠ .free)
    (hpos : 0 < m.sems s) : b.holder s = none := by
  have hval := h.value s hs
  by_contra hheld
  rw [if_neg hheld] at hval
  omega

/-- A claim with a block has been made. -/
theorem SemInv.lt_claims (h : SemInv m b) {j : ℕ} {q : Ptr} (hj : b.block j = some q) :
    j < b.claims.length := by
  by_contra hge
  have hnone := h.unclaimed j (not_lt.mp hge)
  rw [hj] at hnone
  exact Option.some_ne_none _ hnone

/-- Two claims have different blocks. -/
theorem SemInv.block_inj (h : SemInv m b) {j j' : ℕ} {q : Ptr} (hj : b.block j = some q)
    (hj' : b.block j' = some q) : j = j' := by
  have heq : b.claims[j]? = b.claims[j']? :=
    (h.block j q hj).2.symm.trans (h.block j' q hj').2
  exact (List.getElem?_inj (h.lt_claims hj) h.accounts.claims_nodup).mp heq

/-- The claims that have not been taken fit into the slots. -/
theorem SemInv.claims_lt_window (h : SemInv m b) :
    b.claims.length ≤ b.takes.length + cfg.N := by
  have h₁ := h.free
  have h₂ := h.claims_le
  have h₃ := h.freed_le
  omega

/-- A claim without a block has not been taken. -/
theorem SemInv.takes_le (h : SemInv m b) {j : ℕ} (hj : b.block j = none) :
    b.takes.length ≤ j := by
  by_contra hlt
  exact h.filled j (not_le.mp hlt) hj

end Consequences

/-! ### What the threads know -/

/-- Producer `p` is in the section of the producer semaphore, with a free slot granted
to it. -/
structure Granted (b : Books cfg) (p : Fin cfg.P) (line : List UInt8) : Prop where
  unclaimed : Unclaimed b.toHistory p line
  holds : b.holder .prod = some (.prod p)
  granted : b.granted = b.claims.length + 1

/-- Producer `p` has a claim on slot `idx` and has not filled it. -/
structure Pending (b : Books cfg) (p : Fin cfg.P) (line : List UInt8) (idx : Fin cfg.N) :
    Prop where
  claimed : Claimed b.toHistory p line
  idx_eq : idx = cfg.slot (b.ticket p)
  block : b.block (b.ticket p) = none

/-- Producer `p` has stored the block `q` into slot `idx` and copies its line to it. -/
structure Filling (b : Books cfg) (p : Fin cfg.P) (line : List UInt8) (idx : Fin cfg.N)
    (q : Ptr) : Prop where
  clean : Clean b.toHistory p
  claimed : b.claims[b.ticket p]? = some (p, b.serial p)
  read : b.lines[b.serial p]? = some (p, line)
  idx_eq : idx = cfg.slot (b.ticket p)
  late : b.takes.length ≤ b.ticket p
  block : b.block (b.ticket p) = some q
  holds : b.holder (.slot idx) = some (.prod p)

/-- What producer `p` knows where it is. -/
def ProdStage (p : Fin cfg.P) (m : Mem cfg) (b : Books cfg) : Produce cfg → Prop
  | .fgets => Clean b.toHistory p
  | .waitProd line => Unclaimed b.toHistory p line
  | .waitFree line => Unclaimed b.toHistory p line ∧ b.holder .prod = some (.prod p) ∧
      b.granted = b.claims.length
  | .readIndex line => Granted b p line
  | .readCursor line idx => Granted b p line ∧ idx = cfg.slot b.claims.length
  | .writeCursor line idx cur => Granted b p line ∧ idx = cfg.slot b.claims.length ∧
      cur = cfg.slot b.claims.length
  | .waitSlot line idx => Pending b p line idx ∧ b.holder .prod = some (.prod p) ∧
      b.granted = b.claims.length
  | .postProd line idx => Pending b p line idx ∧ b.holder .prod = some (.prod p) ∧
      b.granted = b.claims.length ∧ b.holder (.slot idx) = some (.prod p)
  | .store line idx => Pending b p line idx ∧ b.holder (.slot idx) = some (.prod p)
  | .readDst line idx => ∃ q, Filling b p line idx q ∧ m.heap q = some []
  | .copy idx dst rest => ∃ line, Filling b p line idx dst ∧
      ∃ written, m.heap dst = some written ∧ written ++ rest = Stdio.strcpyBytes line
  | .postSlot idx => ∃ line q, Filling b p line idx q ∧
      m.heap q = some (Stdio.strcpyBytes line)
  | .returned => Clean b.toHistory p

/-- What producer `p` knows. -/
def ProdKnows (p : Fin cfg.P) (m : Mem cfg) (b : Books cfg) (l : Produce cfg) : Prop :=
  (m.exited (.prod p) = true ↔ l = .returned) ∧ ProdStage p m b l

/-- Consumer `k` holds the consumer semaphore and no take is in progress. -/
structure Looking (b : Books cfg) (k : Fin cfg.K) : Prop where
  holds : b.holder .cons = some (.cons k)
  freed : b.freed = b.takes.length
  advances : b.advances.length = b.takes.length

/-- Consumer `k` has got the turn to empty slot `idx`. -/
structure Turn (b : Books cfg) (k : Fin cfg.K) (idx : Fin cfg.N) : Prop where
  holds : b.holder .cons = some (.cons k)
  freed : b.freed = b.takes.length
  advances : b.advances.length = b.takes.length + 1
  turn : b.turn k = some b.takes.length
  mine : b.advances[b.takes.length]? = some k
  block : b.block b.takes.length ≠ none
  idx_eq : idx = cfg.slot b.takes.length

/-- `line` is the block of a claim that has been taken. -/
def Taken (b : Books cfg) (line : Option Ptr) : Prop :=
  ∃ j q, j < b.takes.length ∧ b.block j = some q ∧ line = some q

/-- What consumer `k` knows where it is. -/
def ConsStage (k : Fin cfg.K) (b : Books cfg) : Consume cfg → Prop
  | .waitCons => b.holder .cons ≠ some (.cons k)
  | .readCursor => Looking b k
  | .testSlot cur => Looking b k ∧ cur = cfg.slot b.takes.length
  | .postIdle => Looking b k
  | .testDone => b.holder .cons ≠ some (.cons k)
  | .readIndex => Looking b k ∧ b.block b.takes.length ≠ none
  | .readNext idx => Looking b k ∧ b.block b.takes.length ≠ none ∧
      idx = cfg.slot b.takes.length
  | .writeCursor idx cur => Looking b k ∧ b.block b.takes.length ≠ none ∧
      idx = cfg.slot b.takes.length ∧ cur = cfg.slot b.takes.length
  | .waitSlot idx => Turn b k idx
  | .readLine idx => Turn b k idx ∧ b.holder (.slot idx) = some (.cons k)
  | .clear idx line => Turn b k idx ∧ b.holder (.slot idx) = some (.cons k) ∧
      line = b.block b.takes.length
  | .postFree idx line => b.holder .cons = some (.cons k) ∧ b.freed + 1 = b.takes.length ∧
      b.advances.length = b.takes.length ∧ b.holder (.slot idx) = some (.cons k) ∧ Taken b line
  | .postCons idx line => Looking b k ∧ b.holder (.slot idx) = some (.cons k) ∧ Taken b line
  | .postSlot idx line => b.holder .cons ≠ some (.cons k) ∧
      b.holder (.slot idx) = some (.cons k) ∧ Taken b line
  | .examine line => b.holder .cons ≠ some (.cons k) ∧ Taken b line
  | .free line => b.holder .cons ≠ some (.cons k) ∧ Taken b line
  | .returned => b.holder .cons ≠ some (.cons k)

/-- What consumer `k` knows. -/
def ConsKnows (k : Fin cfg.K) (m : Mem cfg) (b : Books cfg) (l : Consume cfg) : Prop :=
  (m.exited (.cons k) = true ↔ l = .returned) ∧ ConsStage k b l

/-- What the main thread knows. -/
def MainKnows (m : Mem cfg) : WaitThreads → Prop
  | .joinProd p => ∀ p' : Fin cfg.P, p' < p → m.exited (.prod p') = true
  | .setDone => ∀ p, m.exited (.prod p) = true
  | .joinCons k => (∀ p, m.exited (.prod p) = true) ∧
      ∀ k' : Fin cfg.K, k' < k → m.exited (.cons k') = true
  | .cleanUp => (∀ p, m.exited (.prod p) = true) ∧ ∀ k, m.exited (.cons k) = true

/-! ### What a step may do -/

/-- A step of thread `t` keeps what the others rely on. -/
structure Guar (t : Thread cfg) (m : Mem cfg) (b : Books cfg) (m' : Mem cfg) (b' : Books cfg) :
    Prop where
  books : Keeps t b.toHistory b'.toHistory
  holder : ∀ s u, u ≠ t → (b'.holder s = some u ↔ b.holder s = some u)
  prod : ∀ u, u ≠ t → b.holder .prod = some u →
    b'.claims = b.claims ∧ b'.granted = b.granted
  cons : ∀ u, u ≠ t → b.holder .cons = some u →
    b'.advances = b.advances ∧ b'.takes = b.takes ∧ b'.freed = b.freed
  block_some : ∀ j q, b.block j = some q → b'.block j = some q
  block_eq : ∀ (j : ℕ) p i, b.claims[j]? = some (p, i) → .prod p ≠ t → b'.block j = b.block j
  heap : ∀ (j : ℕ) p i q, b.claims[j]? = some (p, i) → .prod p ≠ t → b.takes.length ≤ j →
    b.block j = some q → m'.heap q = m.heap q
  late : ∀ j u, u ≠ t → b.holder (.slot (cfg.slot j)) = some u → b.takes.length ≤ j →
    b'.takes.length ≤ j
  exited : ∀ u, u ≠ t → m'.exited u = m.exited u
  exited_mono : ∀ u, m.exited u = true → m'.exited u = true

theorem Guar.refl (t : Thread cfg) (m : Mem cfg) (b : Books cfg) : Guar t m b m b :=
  ⟨.refl _ _, fun _ _ _ => Iff.rfl, fun _ _ _ => ⟨rfl, rfl⟩, fun _ _ _ => ⟨rfl, rfl, rfl⟩,
    fun _ _ h => h, fun _ _ _ _ _ => rfl, fun _ _ _ _ _ _ _ _ => rfl, fun _ _ _ _ h => h,
    fun _ _ => rfl, fun _ h => h⟩

section Frame

variable {t : Thread cfg} {m m' : Mem cfg} {b b' : Books cfg} {p : Fin cfg.P} {k : Fin cfg.K}
  {line : List UInt8} {idx : Fin cfg.N} {q : Ptr}

theorem Granted.frame (h : Granted b p line) (hG : Guar t m b m' b') (ht : .prod p ≠ t) :
    Granted b' p line := by
  obtain ⟨hclaims, hgranted⟩ := hG.prod _ ht h.holds
  refine ⟨h.unclaimed.frame hG.books ht.symm, (hG.holder _ _ ht).mpr h.holds, ?_⟩
  rw [hgranted, hclaims]
  exact h.granted

theorem Pending.frame (h : Pending b p line idx) (hG : Guar t m b m' b') (ht : .prod p ≠ t) :
    Pending b' p line idx := by
  refine ⟨h.claimed.frame hG.books ht.symm, ?_, ?_⟩
  · rw [hG.books.ticket p ht.symm]
    exact h.idx_eq
  · rw [hG.books.ticket p ht.symm, hG.block_eq _ _ _ h.claimed.claimed ht]
    exact h.block

theorem Filling.frame (h : Filling b p line idx q) (hG : Guar t m b m' b') (ht : .prod p ≠ t) :
    Filling b' p line idx q := by
  have hticket := hG.books.ticket p ht.symm
  have hserial := hG.books.serial p ht.symm
  refine ⟨h.clean.frame hG.books ht.symm, ?_, ?_, ?_, ?_, ?_, (hG.holder _ _ ht).mpr h.holds⟩
  · rw [hticket, hserial, hG.books.claims_iff ht.symm]
    exact h.claimed
  · rw [hserial, hG.books.lines_iff ht.symm]
    exact h.read
  · rw [hticket]
    exact h.idx_eq
  · rw [hticket]
    exact hG.late _ _ ht (h.idx_eq ▸ h.holds) h.late
  · rw [hticket]
    exact hG.block_some _ _ h.block

theorem Filling.heap_eq (h : Filling b p line idx q) (hG : Guar t m b m' b')
    (ht : .prod p ≠ t) : m'.heap q = m.heap q :=
  hG.heap _ _ _ _ h.claimed ht h.late h.block

/-- What a producer knows survives the steps of the others. -/
theorem ProdKnows.frame {l : Produce cfg} (h : ProdKnows p m b l) (hG : Guar t m b m' b')
    (ht : .prod p ≠ t) : ProdKnows p m' b' l := by
  obtain ⟨hexit, hstage⟩ := h
  refine ⟨by rw [hG.exited _ ht]; exact hexit, ?_⟩
  -- what another thread does leaves the claims and tokens of this one alone
  cases l with
  | fgets => exact Clean.frame hstage hG.books ht.symm
  | waitProd line => exact Unclaimed.frame hstage hG.books ht.symm
  | waitFree line =>
    obtain ⟨hun, hholds, hgranted⟩ := hstage
    obtain ⟨hclaims, hgranted'⟩ := hG.prod _ ht hholds
    refine ⟨hun.frame hG.books ht.symm, (hG.holder _ _ ht).mpr hholds, ?_⟩
    rw [hgranted', hclaims]
    exact hgranted
  | readIndex line => exact Granted.frame hstage hG ht
  | readCursor line idx =>
    obtain ⟨hg, hidx⟩ := hstage
    refine ⟨hg.frame hG ht, ?_⟩
    rw [(hG.prod _ ht hg.holds).1]
    exact hidx
  | writeCursor line idx cur =>
    obtain ⟨hg, hidx, hcur⟩ := hstage
    refine ⟨hg.frame hG ht, ?_⟩
    rw [(hG.prod _ ht hg.holds).1]
    exact ⟨hidx, hcur⟩
  | waitSlot line idx =>
    obtain ⟨hp, hholds, hgranted⟩ := hstage
    obtain ⟨hclaims, hgranted'⟩ := hG.prod _ ht hholds
    refine ⟨hp.frame hG ht, (hG.holder _ _ ht).mpr hholds, ?_⟩
    rw [hgranted', hclaims]
    exact hgranted
  | postProd line idx =>
    obtain ⟨hp, hholds, hgranted, hslot⟩ := hstage
    obtain ⟨hclaims, hgranted'⟩ := hG.prod _ ht hholds
    refine ⟨hp.frame hG ht, (hG.holder _ _ ht).mpr hholds, ?_, (hG.holder _ _ ht).mpr hslot⟩
    rw [hgranted', hclaims]
    exact hgranted
  | store line idx =>
    exact ⟨hstage.1.frame hG ht, (hG.holder _ _ ht).mpr hstage.2⟩
  | readDst line idx =>
    obtain ⟨q, hf, hheap⟩ := hstage
    refine ⟨q, hf.frame hG ht, ?_⟩
    rw [hf.heap_eq hG ht]
    exact hheap
  | copy idx dst rest =>
    obtain ⟨line, hf, written, hheap, hrest⟩ := hstage
    refine ⟨line, hf.frame hG ht, written, ?_, hrest⟩
    rw [hf.heap_eq hG ht]
    exact hheap
  | postSlot idx =>
    obtain ⟨line, q, hf, hheap⟩ := hstage
    refine ⟨line, q, hf.frame hG ht, ?_⟩
    rw [hf.heap_eq hG ht]
    exact hheap
  | returned => exact Clean.frame hstage hG.books ht.symm

theorem Looking.frame (h : Looking b k) (hG : Guar t m b m' b') (ht : .cons k ≠ t) :
    Looking b' k ∧ b'.takes.length = b.takes.length := by
  obtain ⟨hadv, htakes, hfreed⟩ := hG.cons _ ht h.holds
  refine ⟨⟨(hG.holder _ _ ht).mpr h.holds, ?_, ?_⟩, by rw [htakes]⟩
  · rw [hfreed, htakes]
    exact h.freed
  · rw [hadv, htakes]
    exact h.advances

theorem Guar.block_ne_none (hG : Guar t m b m' b') {j : ℕ} (h : b.block j ≠ none) :
    b'.block j = b.block j := by
  obtain ⟨q, hq⟩ := Option.ne_none_iff_exists'.mp h
  rw [hq]
  exact hG.block_some j q hq

theorem Turn.frame (h : Turn b k idx) (hG : Guar t m b m' b') (ht : .cons k ≠ t) :
    Turn b' k idx ∧ b'.takes.length = b.takes.length := by
  obtain ⟨hadv, htakes, hfreed⟩ := hG.cons _ ht h.holds
  refine ⟨⟨(hG.holder _ _ ht).mpr h.holds, ?_, ?_, ?_, ?_, ?_, ?_⟩, by rw [htakes]⟩
  · rw [hfreed, htakes]
    exact h.freed
  · rw [hadv, htakes]
    exact h.advances
  · rw [hG.books.turn k ht.symm, htakes]
    exact h.turn
  · rw [hadv, htakes]
    exact h.mine
  · rw [htakes, hG.block_ne_none h.block]
    exact h.block
  · rw [htakes]
    exact h.idx_eq

theorem Taken.frame {line : Option Ptr} (h : Taken b line) (hG : Guar t m b m' b') :
    Taken b' line := by
  obtain ⟨j, q, hj, hblock, hline⟩ := h
  exact ⟨j, q, lt_of_lt_of_le hj hG.books.takes.length_le, hG.block_some j q hblock, hline⟩

theorem Guar.not_holds (hG : Guar t m b m' b') (ht : .cons k ≠ t)
    (h : b.holder .cons ≠ some (.cons k)) : b'.holder .cons ≠ some (.cons k) :=
  fun h' => h ((hG.holder _ _ ht).mp h')

/-- What a consumer knows survives the steps of the others. -/
theorem ConsKnows.frame {l : Consume cfg} (h : ConsKnows k m b l) (hG : Guar t m b m' b')
    (ht : .cons k ≠ t) : ConsKnows k m' b' l := by
  obtain ⟨hexit, hstage⟩ := h
  refine ⟨by rw [hG.exited _ ht]; exact hexit, ?_⟩
  cases l with
  | waitCons => exact hG.not_holds ht hstage
  | readCursor => exact (Looking.frame hstage hG ht).1
  | testSlot cur =>
    obtain ⟨hl, htakes⟩ := hstage.1.frame hG ht
    refine ⟨hl, ?_⟩
    rw [htakes]
    exact hstage.2
  | postIdle => exact (Looking.frame hstage hG ht).1
  | testDone => exact hG.not_holds ht hstage
  | readIndex =>
    obtain ⟨hl, htakes⟩ := hstage.1.frame hG ht
    refine ⟨hl, ?_⟩
    rw [htakes, hG.block_ne_none hstage.2]
    exact hstage.2
  | readNext idx =>
    obtain ⟨hl, htakes⟩ := hstage.1.frame hG ht
    refine ⟨hl, ?_⟩
    rw [htakes, hG.block_ne_none hstage.2.1]
    exact hstage.2
  | writeCursor idx cur =>
    obtain ⟨hl, htakes⟩ := hstage.1.frame hG ht
    refine ⟨hl, ?_⟩
    rw [htakes, hG.block_ne_none hstage.2.1]
    exact hstage.2
  | waitSlot idx => exact (Turn.frame hstage hG ht).1
  | readLine idx => exact ⟨(hstage.1.frame hG ht).1, (hG.holder _ _ ht).mpr hstage.2⟩
  | clear idx line =>
    obtain ⟨hturn, hslot, hline⟩ := hstage
    obtain ⟨hturn', htakes⟩ := hturn.frame hG ht
    refine ⟨hturn', (hG.holder _ _ ht).mpr hslot, ?_⟩
    rw [htakes, hG.block_ne_none hturn.block]
    exact hline
  | postFree idx line =>
    obtain ⟨hholds, hfreed, hadv, hslot, htaken⟩ := hstage
    obtain ⟨hadv', htakes, hfreed'⟩ := hG.cons _ ht hholds
    refine ⟨(hG.holder _ _ ht).mpr hholds, ?_, ?_, (hG.holder _ _ ht).mpr hslot,
      htaken.frame hG⟩
    · rw [hfreed', htakes]
      exact hfreed
    · rw [hadv', htakes]
      exact hadv
  | postCons idx line =>
    obtain ⟨hl, hslot, htaken⟩ := hstage
    exact ⟨(hl.frame hG ht).1, (hG.holder _ _ ht).mpr hslot, htaken.frame hG⟩
  | postSlot idx line =>
    obtain ⟨hholds, hslot, htaken⟩ := hstage
    exact ⟨hG.not_holds ht hholds, (hG.holder _ _ ht).mpr hslot, htaken.frame hG⟩
  | examine line => exact ⟨hG.not_holds ht hstage.1, hstage.2.frame hG⟩
  | free line => exact ⟨hG.not_holds ht hstage.1, hstage.2.frame hG⟩
  | returned => exact hG.not_holds ht hstage

/-- What the main thread knows survives the steps of the others. -/
theorem MainKnows.frame {l : WaitThreads} (h : MainKnows m l) (hG : Guar t m b m' b') :
    MainKnows m' l := by
  have hmono := hG.exited_mono
  cases l with
  | joinProd p => exact fun p' hp' => hmono _ (h p' hp')
  | setDone => exact fun p => hmono _ (h p)
  | joinCons k => exact ⟨fun p => hmono _ (h.1 p), fun k' hk' => hmono _ (h.2 k' hk')⟩
  | cleanUp => exact ⟨fun p => hmono _ (h.1 p), fun k => hmono _ (h.2 k)⟩

end Frame

end Sem
end ProdCons
end OpSys
