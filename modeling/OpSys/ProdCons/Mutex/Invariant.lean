import OpSys.ProdCons.Mutex.Program

/-!
# The invariant of the mutex version

The producers fill the slots one after another under `prod_mutex`, so that block
`q` is that of the `q`-th claim and goes to the slot of turn `q`.  A slot is
written under its own mutex only: what stands in it is complete unless a producer
holds that mutex, and it is taken once, even if two consumers have got a turn
for the same slot.

## Main definitions

* `MutexInv` — the invariant of the shared memory and its books.
* `ProdKnows`, `ConsKnows`, `MainKnows` — what the threads know.
* `Guar t` — what a step of thread `t` may do.

## Main results

* `ProdKnows.frame`, `ConsKnows.frame`, `MainKnows.frame` — what a thread knows
  survives the steps of the others.
-/

namespace OpSys
namespace ProdCons
namespace Mutex

variable {cfg : Config}

/-! ### The shared memory -/

/-- Block `q` holds all of the line that it was allocated for. -/
def Complete (m : Mem cfg) (h : History cfg) (q : Ptr) : Prop :=
  ∃ p i line, h.fills[q]? = some (p, i) ∧ h.lines[i]? = some (p, line) ∧
    m.heap q = some (Stdio.strcpyBytes line)

/-- If the take found a block, then with all of its line. -/
def TakeOk (h : History cfg) (x : Take cfg) : Prop :=
  ∀ q, x.ptr = some q → ∃ p i line, h.fills[q]? = some (p, i) ∧ h.lines[i]? = some (p, line) ∧
    x.text = some (Stdio.strcpyBytes line)

/-- Block `q` has not been taken. -/
def Untaken (h : History cfg) (q : Ptr) : Prop := ∀ x ∈ h.takes, x.ptr ≠ some q

/-- The invariant of the shared memory, for a file with the bytes `text`. -/
structure MutexInv (text : List UInt8) (m : Mem cfg) (h : History cfg) : Prop where
  accounts : Accounts h
  reads : h.lines.map Prod.snd ++ Stdio.fileLines lineMax m.file = Stdio.fileLines lineMax text
  fresh : m.fresh = h.fills.length
  fills : ∀ (q : ℕ) x, h.fills[q]? = some x → h.claims[q]? = some x
  idleProd : m.owner .prod = none → h.fills.length = h.claims.length
  currProd : m.currProd = cfg.slot h.claims.length
  currCons : m.currCons = cfg.slot h.advances.length
  slots : ∀ i q, m.sharedResource i = some q → q < m.fresh ∧ cfg.slot q = i ∧ Untaken h q
  written : ∀ i q, m.sharedResource i = some q →
    (∃ p, m.owner (.slot i) = some (.prod p)) ∨ Complete m h q
  takes : ∀ x ∈ h.takes, TakeOk h x
  takes_inj : ∀ (n n' : ℕ) x x' q, h.takes[n]? = some x → h.takes[n']? = some x' →
    x.ptr = some q → x'.ptr = some q → n = n'
  done : m.doneProducing = true → ∀ p, m.exited (.prod p) = true

/-! ### What the threads know -/

/-- Producer `p` holds `prod_mutex` and has a line to store. -/
structure Held (m : Mem cfg) (h : History cfg) (p : Fin cfg.P) (line : List UInt8) : Prop where
  unclaimed : Unclaimed h p line
  holds : m.owner .prod = some (.prod p)
  filled : h.fills.length = h.claims.length

/-- Moreover it has found the slot at `curr_prod` empty. -/
structure Found (m : Mem cfg) (h : History cfg) (p : Fin cfg.P) (line : List UInt8) : Prop
    extends Held m h p line where
  empty : m.sharedResource (cfg.slot h.claims.length) = none

/-- Producer `p` holds `prod_mutex` and has claimed slot `idx`, which is empty. -/
structure Pending (m : Mem cfg) (h : History cfg) (p : Fin cfg.P) (line : List UInt8)
    (idx : Fin cfg.N) : Prop where
  claimed : Claimed h p line
  holds : m.owner .prod = some (.prod p)
  filled : h.fills.length + 1 = h.claims.length
  ticket : h.ticket p = h.fills.length
  idx_eq : idx = cfg.slot h.fills.length
  empty : m.sharedResource idx = none

/-- Producer `p` holds `prod_mutex` and no claim is open. -/
structure Settled (m : Mem cfg) (h : History cfg) (p : Fin cfg.P) : Prop where
  clean : Clean h p
  holds : m.owner .prod = some (.prod p)
  filled : h.fills.length = h.claims.length

/-- Producer `p` has stored the block `q` into slot `idx`, whose mutex it holds. -/
structure Filling (m : Mem cfg) (h : History cfg) (p : Fin cfg.P) (line : List UInt8)
    (idx : Fin cfg.N) (q : Ptr) : Prop extends Settled m h p where
  slotHeld : m.owner (.slot idx) = some (.prod p)
  stored : m.sharedResource idx = some q
  fill : h.fills[q]? = some (p, h.serial p)
  read : h.lines[h.serial p]? = some (p, line)

/-- What producer `p` knows where it is. -/
def ProdStage (p : Fin cfg.P) (m : Mem cfg) (h : History cfg) : Produce cfg → Prop
  | .fgets => Clean h p
  | .lockProd line => Unclaimed h p line
  | .readCursor line => Held m h p line
  | .testSlot line cur => Held m h p line ∧ cur = cfg.slot h.claims.length
  | .condWait line => Held m h p line
  | .asleep line => Unclaimed h p line
  | .readIndex line => Found m h p line
  | .readNext line idx => Found m h p line ∧ idx = cfg.slot h.claims.length
  | .writeCursor line idx cur => Found m h p line ∧ idx = cfg.slot h.claims.length ∧
      cur = cfg.slot h.claims.length
  | .lockSlot line idx => Pending m h p line idx
  | .store line idx => Pending m h p line idx ∧ m.owner (.slot idx) = some (.prod p)
  | .readDst line idx => ∃ q, Filling m h p line idx q ∧ m.heap q = some []
  | .copy idx dst rest => ∃ line, Filling m h p line idx dst ∧
      ∃ written, m.heap dst = some written ∧ written ++ rest = Stdio.strcpyBytes line
  | .broadcast idx => ∃ line q, Filling m h p line idx q ∧
      m.heap q = some (Stdio.strcpyBytes line)
  | .unlockSlot idx => ∃ line q, Filling m h p line idx q ∧
      m.heap q = some (Stdio.strcpyBytes line)
  | .unlockProd => Settled m h p
  | .returned => Clean h p

/-- What producer `p` knows. -/
def ProdKnows (p : Fin cfg.P) (m : Mem cfg) (h : History cfg) (l : Produce cfg) : Prop :=
  (m.exited (.prod p) = true ↔ l = .returned) ∧ ProdStage p m h l

/-- Consumer `k` holds `cons_mutex` and has no turn. -/
structure Looking (m : Mem cfg) (h : History cfg) (k : Fin cfg.K) : Prop where
  holds : m.owner .cons = some (.cons k)
  turn : h.turn k = none

/-- Consumer `k` has got a turn for slot `idx`. -/
def HasTurn (h : History cfg) (k : Fin cfg.K) (idx : Fin cfg.N) : Prop :=
  ∃ j, h.turn k = some j ∧ idx = cfg.slot j

/-- If consumer `k` has found a block, it has taken it and not freed it yet. -/
def Owns (m : Mem cfg) (h : History cfg) (k : Fin cfg.K) (line : Option Ptr) : Prop :=
  ∀ q, line = some q → ∃ x ∈ h.takes, x.taker = k ∧ x.ptr = some q ∧ m.heap q = x.text

/-- What consumer `k` knows where it is. -/
def ConsStage (k : Fin cfg.K) (m : Mem cfg) (h : History cfg) : Consume cfg → Prop
  | .lockCons => h.turn k = none
  | .readCursor => Looking m h k
  | .testSlot cur => Looking m h k ∧ cur = cfg.slot h.advances.length
  | .testDone => Looking m h k
  | .unlockDone => Looking m h k
  | .leave => h.turn k = none
  | .condWait => Looking m h k
  | .asleep => h.turn k = none
  | .readIndex => Looking m h k
  | .readNext idx => Looking m h k ∧ idx = cfg.slot h.advances.length
  | .writeCursor idx cur => Looking m h k ∧ idx = cfg.slot h.advances.length ∧
      cur = cfg.slot h.advances.length
  | .lockSlot idx => HasTurn h k idx ∧ m.owner .cons = some (.cons k)
  | .unlockCons idx => HasTurn h k idx ∧ m.owner .cons = some (.cons k) ∧
      m.owner (.slot idx) = some (.cons k)
  | .readLine idx => HasTurn h k idx ∧ m.owner (.slot idx) = some (.cons k)
  | .clear idx line => HasTurn h k idx ∧ m.owner (.slot idx) = some (.cons k) ∧
      line = m.sharedResource idx
  | .broadcast idx line => h.turn k = none ∧ m.owner (.slot idx) = some (.cons k) ∧
      Owns m h k line
  | .unlockSlot idx line => h.turn k = none ∧ m.owner (.slot idx) = some (.cons k) ∧
      Owns m h k line
  | .examine line => h.turn k = none ∧ Owns m h k line
  | .free line => h.turn k = none ∧ Owns m h k line
  | .returned => h.turn k = none

/-- What consumer `k` knows. -/
def ConsKnows (k : Fin cfg.K) (m : Mem cfg) (h : History cfg) (l : Consume cfg) : Prop :=
  (m.exited (.cons k) = true ↔ l = .returned) ∧ ConsStage k m h l

/-- What the main thread knows. -/
def MainKnows (m : Mem cfg) : WaitThreads → Prop
  | .joinProd p => ∀ p' : Fin cfg.P, p' < p → m.exited (.prod p') = true
  | .setDone => ∀ p, m.exited (.prod p) = true
  | .broadcast => ∀ p, m.exited (.prod p) = true
  | .joinCons k => (∀ p, m.exited (.prod p) = true) ∧
      ∀ k' : Fin cfg.K, k' < k → m.exited (.cons k') = true
  | .cleanUp => (∀ p, m.exited (.prod p) = true) ∧ ∀ k, m.exited (.cons k) = true

/-! ### What a step may do -/

/-- A step of thread `t` keeps what the others rely on. -/
structure Guar (t : Thread cfg) (m : Mem cfg) (h : History cfg) (m' : Mem cfg)
    (h' : History cfg) : Prop where
  books : Keeps t h h'
  owner : ∀ s u, u ≠ t → (m'.owner s = some u ↔ m.owner s = some u)
  prod : ∀ u, u ≠ t → m.owner .prod = some u → h'.claims = h.claims ∧ h'.fills = h.fills ∧
    ∀ i, m.sharedResource i = none → m'.sharedResource i = none
  cons : ∀ u, u ≠ t → m.owner .cons = some u → h'.advances = h.advances
  slot : ∀ i u, u ≠ t → m.owner (.slot i) = some u →
    m'.sharedResource i = m.sharedResource i ∧
      ∀ q, m.sharedResource i = some q → m'.heap q = m.heap q
  taken : ∀ x ∈ h.takes, .cons x.taker ≠ t → ∀ q, x.ptr = some q → m'.heap q = m.heap q
  exited : ∀ u, u ≠ t → m'.exited u = m.exited u
  exited_mono : ∀ u, m.exited u = true → m'.exited u = true

theorem Guar.refl (t : Thread cfg) (m : Mem cfg) (h : History cfg) : Guar t m h m h :=
  ⟨.refl _ _, fun _ _ _ => Iff.rfl, fun _ _ _ => ⟨rfl, rfl, fun _ h => h⟩, fun _ _ _ => rfl,
    fun _ _ _ _ => ⟨rfl, fun _ _ => rfl⟩, fun _ _ _ _ _ => rfl, fun _ _ => rfl, fun _ h => h⟩

section Frame

variable {t : Thread cfg} {m m' : Mem cfg} {h h' : History cfg} {p : Fin cfg.P} {k : Fin cfg.K}
  {line : List UInt8} {idx : Fin cfg.N} {q : Ptr}

theorem Held.frame (hh : Held m h p line) (hG : Guar t m h m' h') (ht : .prod p ≠ t) :
    Held m' h' p line := by
  obtain ⟨hclaims, hfills, -⟩ := hG.prod _ ht hh.holds
  refine ⟨hh.unclaimed.frame hG.books ht.symm, (hG.owner _ _ ht).mpr hh.holds, ?_⟩
  rw [hclaims, hfills]
  exact hh.filled

theorem Found.frame (hf : Found m h p line) (hG : Guar t m h m' h') (ht : .prod p ≠ t) :
    Found m' h' p line := by
  obtain ⟨hclaims, -, hempty⟩ := hG.prod _ ht hf.holds
  refine ⟨hf.toHeld.frame hG ht, ?_⟩
  rw [hclaims]
  exact hempty _ hf.empty

theorem Pending.frame (hp : Pending m h p line idx) (hG : Guar t m h m' h') (ht : .prod p ≠ t) :
    Pending m' h' p line idx := by
  obtain ⟨hclaims, hfills, hempty⟩ := hG.prod _ ht hp.holds
  refine ⟨hp.claimed.frame hG.books ht.symm, (hG.owner _ _ ht).mpr hp.holds, ?_, ?_, ?_,
    hempty _ hp.empty⟩
  · rw [hclaims, hfills]
    exact hp.filled
  · rw [hG.books.ticket p ht.symm, hfills]
    exact hp.ticket
  · rw [hfills]
    exact hp.idx_eq

theorem Settled.frame (hs : Settled m h p) (hG : Guar t m h m' h') (ht : .prod p ≠ t) :
    Settled m' h' p := by
  obtain ⟨hclaims, hfills, -⟩ := hG.prod _ ht hs.holds
  refine ⟨hs.clean.frame hG.books ht.symm, (hG.owner _ _ ht).mpr hs.holds, ?_⟩
  rw [hclaims, hfills]
  exact hs.filled

theorem Filling.frame (hf : Filling m h p line idx q) (hG : Guar t m h m' h')
    (ht : .prod p ≠ t) : Filling m' h' p line idx q ∧ m'.heap q = m.heap q := by
  obtain ⟨hslot, hheap⟩ := hG.slot _ _ ht hf.slotHeld
  have hserial := hG.books.serial p ht.symm
  refine ⟨⟨hf.toSettled.frame hG ht, (hG.owner _ _ ht).mpr hf.slotHeld, ?_, ?_, ?_⟩,
    hheap q hf.stored⟩
  · rw [hslot]
    exact hf.stored
  · rw [hserial, hG.books.fills_iff ht.symm]
    exact hf.fill
  · rw [hserial, hG.books.lines_iff ht.symm]
    exact hf.read

/-- What a producer knows survives the steps of the others. -/
theorem ProdKnows.frame {l : Produce cfg} (hk : ProdKnows p m h l) (hG : Guar t m h m' h')
    (ht : .prod p ≠ t) : ProdKnows p m' h' l := by
  obtain ⟨hexit, hstage⟩ := hk
  refine ⟨by rw [hG.exited _ ht]; exact hexit, ?_⟩
  cases l with
  | fgets => exact Clean.frame hstage hG.books ht.symm
  | lockProd line => exact Unclaimed.frame hstage hG.books ht.symm
  | readCursor line => exact Held.frame hstage hG ht
  | testSlot line cur =>
    obtain ⟨hh, hcur⟩ := hstage
    refine ⟨hh.frame hG ht, ?_⟩
    rw [(hG.prod _ ht hh.holds).1]
    exact hcur
  | condWait line => exact Held.frame hstage hG ht
  | asleep line => exact Unclaimed.frame hstage hG.books ht.symm
  | readIndex line => exact Found.frame hstage hG ht
  | readNext line idx =>
    obtain ⟨hf, hidx⟩ := hstage
    refine ⟨hf.frame hG ht, ?_⟩
    rw [(hG.prod _ ht hf.holds).1]
    exact hidx
  | writeCursor line idx cur =>
    obtain ⟨hf, hidx, hcur⟩ := hstage
    refine ⟨hf.frame hG ht, ?_⟩
    rw [(hG.prod _ ht hf.holds).1]
    exact ⟨hidx, hcur⟩
  | lockSlot line idx => exact Pending.frame hstage hG ht
  | store line idx =>
    exact ⟨hstage.1.frame hG ht, (hG.owner _ _ ht).mpr hstage.2⟩
  | readDst line idx =>
    obtain ⟨q, hf, hheap⟩ := hstage
    obtain ⟨hf', hsame⟩ := hf.frame hG ht
    exact ⟨q, hf', hsame.trans hheap⟩
  | copy idx dst rest =>
    obtain ⟨line, hf, written, hheap, hrest⟩ := hstage
    obtain ⟨hf', hsame⟩ := hf.frame hG ht
    exact ⟨line, hf', written, hsame.trans hheap, hrest⟩
  | broadcast idx | unlockSlot idx =>
    obtain ⟨line, q, hf, hheap⟩ := hstage
    obtain ⟨hf', hsame⟩ := hf.frame hG ht
    exact ⟨line, q, hf', hsame.trans hheap⟩
  | unlockProd => exact Settled.frame hstage hG ht
  | returned => exact Clean.frame hstage hG.books ht.symm

theorem Looking.frame (hl : Looking m h k) (hG : Guar t m h m' h') (ht : .cons k ≠ t) :
    Looking m' h' k ∧ h'.advances = h.advances :=
  ⟨⟨(hG.owner _ _ ht).mpr hl.holds, (hG.books.turn k ht.symm).trans hl.turn⟩,
    hG.cons _ ht hl.holds⟩

theorem HasTurn.frame (hturn : HasTurn h k idx) (hG : Guar t m h m' h') (ht : .cons k ≠ t) :
    HasTurn h' k idx := by
  obtain ⟨j, hj, hidx⟩ := hturn
  exact ⟨j, (hG.books.turn k ht.symm).trans hj, hidx⟩

theorem Owns.frame {line : Option Ptr} (ho : Owns m h k line) (hG : Guar t m h m' h')
    (ht : .cons k ≠ t) : Owns m' h' k line := by
  intro q hq
  obtain ⟨x, hx, hk, hptr, hheap⟩ := ho q hq
  refine ⟨x, hG.books.takes.mem hx, hk, hptr, ?_⟩
  rw [hG.taken x hx (by rw [hk]; exact ht) q hptr]
  exact hheap

/-- What a consumer knows survives the steps of the others. -/
theorem ConsKnows.frame {l : Consume cfg} (hk : ConsKnows k m h l) (hG : Guar t m h m' h')
    (ht : .cons k ≠ t) : ConsKnows k m' h' l := by
  obtain ⟨hexit, hstage⟩ := hk
  -- the turn of a thread is its own to take and to give up
  have hturn := hG.books.turn k ht.symm
  refine ⟨by rw [hG.exited _ ht]; exact hexit, ?_⟩
  cases l with
  | lockCons | leave | asleep | returned => exact hturn.trans hstage
  | readCursor | testDone | unlockDone | condWait | readIndex =>
    exact (Looking.frame hstage hG ht).1
  | testSlot cur =>
    obtain ⟨hl, hadv⟩ := hstage.1.frame hG ht
    refine ⟨hl, ?_⟩
    rw [hadv]
    exact hstage.2
  | readNext idx =>
    obtain ⟨hl, hadv⟩ := hstage.1.frame hG ht
    refine ⟨hl, ?_⟩
    rw [hadv]
    exact hstage.2
  | writeCursor idx cur =>
    obtain ⟨hl, hadv⟩ := hstage.1.frame hG ht
    refine ⟨hl, ?_⟩
    rw [hadv]
    exact hstage.2
  | lockSlot idx => exact ⟨hstage.1.frame hG ht, (hG.owner _ _ ht).mpr hstage.2⟩
  | unlockCons idx =>
    exact ⟨hstage.1.frame hG ht, (hG.owner _ _ ht).mpr hstage.2.1,
      (hG.owner _ _ ht).mpr hstage.2.2⟩
  | readLine idx => exact ⟨hstage.1.frame hG ht, (hG.owner _ _ ht).mpr hstage.2⟩
  | clear idx line =>
    obtain ⟨hturn, hheld, hline⟩ := hstage
    refine ⟨hturn.frame hG ht, (hG.owner _ _ ht).mpr hheld, ?_⟩
    rw [(hG.slot _ _ ht hheld).1]
    exact hline
  | broadcast idx line | unlockSlot idx line =>
    obtain ⟨hnone, hheld, howns⟩ := hstage
    exact ⟨hturn.trans hnone, (hG.owner _ _ ht).mpr hheld, howns.frame hG ht⟩
  | examine line | free line => exact ⟨hturn.trans hstage.1, hstage.2.frame hG ht⟩

/-- What the main thread knows survives the steps of the others. -/
theorem MainKnows.frame {l : WaitThreads} (hk : MainKnows m l) (hG : Guar t m h m' h') :
    MainKnows m' l := by
  have hmono := hG.exited_mono
  cases l with
  | joinProd p => exact fun p' hp' => hmono _ (hk p' hp')
  | setDone | broadcast => exact fun p => hmono _ (hk p)
  | joinCons k => exact ⟨fun p => hmono _ (hk.1 p), fun k' hk' => hmono _ (hk.2 k' hk')⟩
  | cleanUp => exact ⟨fun p => hmono _ (hk.1 p), fun k => hmono _ (hk.2 k)⟩

end Frame

end Mutex
end ProdCons
end OpSys
