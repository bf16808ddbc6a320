import OpSys.ProdCons.Sem.Steps

/-!
# The invariant holds in every reachable state

## Main results

* `produce_keeps`, `consume_keeps`, `waitThreads_keeps` — one step of a thread.
* `knows_of_reach` — every reachable state.
-/

namespace OpSys
namespace ProdCons
namespace Sem

variable {cfg : Config} {m m' : Mem cfg} {b : Books cfg}

/-! ### Producers -/

section Producer

variable {p : Fin cfg.P}

/-- Where a producer that has not returned goes on. -/
theorem ProdKnows.next {b' : Books cfg} {l l' : Produce cfg} (h : ProdKnows p m b l)
    (hl : l ≠ .returned) (hl' : l' ≠ .returned) (hexited : m'.exited = m.exited)
    (hstage : ProdStage p m' b' l') : ProdKnows p m' b' l' := by
  refine ⟨?_, hstage⟩
  rw [hexited]
  exact ⟨fun hex => absurd (h.1.mp hex) hl, fun heq => absurd heq hl'⟩

/-- A step of a producer. -/
theorem produce_keeps (h : SemInv m b) {l l' : Produce cfg} (hk : ProdKnows p m b l)
    (hstep : produce p m l = some (m', l')) :
    SemInv m' (produceBooks p m l b) ∧ ProdKnows p m' (produceBooks p m l b) l' ∧
      Guar (.prod p) m b m' (produceBooks p m l b) := by
  have hstage := hk.2
  cases l with
  | fgets =>
    simp only [produce] at hstep
    simp only [produceBooks]
    cases hline : Stdio.fgets lineMax m.file with
    | none =>
      rw [hline] at hstep
      obtain ⟨rfl, rfl⟩ := Prod.mk.inj (Option.some.inj hstep)
      obtain ⟨hinv, hguar⟩ := exit_keeps (t := .prod p) h
      refine ⟨hinv, ⟨?_, hstage⟩, hguar⟩
      simp [Mem.withStore, Store.exit]
    | some r =>
      rw [hline] at hstep
      obtain ⟨rfl, rfl⟩ := Prod.mk.inj (Option.some.inj hstep)
      obtain ⟨hinv, hguar⟩ := read_keeps h p r.1 r.2
      exact ⟨hinv, hk.next (by simp) (by simp) rfl (hstage.read h.accounts), hguar⟩
  | waitProd line =>
    obtain ⟨m₁, hwait, heq⟩ := Option.map_eq_some_iff.mp hstep
    obtain ⟨rfl, rfl⟩ := Prod.mk.inj heq
    obtain ⟨hpos, rfl⟩ := semWait_eq_some hwait
    have hnone := h.holder_eq_none (by simp) hpos
    obtain ⟨hinv, hguar⟩ := acquire_keeps (t := .prod p) h (by simp) hnone (by simp)
    refine ⟨hinv, hk.next (by simp) (by simp) rfl ⟨hstage, ?_, h.idleProd hnone⟩, hguar⟩
    exact b.acquire_holder_self _ _
  | waitFree line =>
    obtain ⟨m₁, hwait, heq⟩ := Option.map_eq_some_iff.mp hstep
    obtain ⟨rfl, rfl⟩ := Prod.mk.inj heq
    obtain ⟨hpos, rfl⟩ := semWait_eq_some hwait
    obtain ⟨hun, hholds, hgranted⟩ := hstage
    obtain ⟨hinv, hguar⟩ := grant_keeps h hholds hgranted hpos
    exact ⟨hinv, hk.next (by simp) (by simp) rfl ⟨hun, hholds, congrArg (· + 1) hgranted⟩, hguar⟩
  | readIndex line =>
    obtain ⟨rfl, rfl⟩ := Prod.mk.inj (Option.some.inj hstep)
    exact ⟨h, hk.next (by simp) (by simp) rfl ⟨hstage, h.currProd⟩, .refl _ _ _⟩
  | readCursor line idx =>
    obtain ⟨rfl, rfl⟩ := Prod.mk.inj (Option.some.inj hstep)
    exact ⟨h, hk.next (by simp) (by simp) rfl ⟨hstage.1, hstage.2, h.currProd⟩, .refl _ _ _⟩
  | writeCursor line idx cur =>
    obtain ⟨rfl, rfl⟩ := Prod.mk.inj (Option.some.inj hstep)
    obtain ⟨hg, hidx, hcur⟩ := hstage
    obtain ⟨hinv, hguar⟩ := claim_keeps h hg hcur
    refine ⟨hinv, hk.next (by simp) (by simp) rfl ⟨⟨hg.unclaimed.claim, ?_, ?_⟩, hg.holds, ?_⟩,
      hguar⟩
    · show idx = cfg.slot ((b.claim p).ticket p)
      rw [claim_ticket]
      exact hidx
    · show b.block ((b.claim p).ticket p) = none
      rw [claim_ticket]
      exact h.unclaimed _ le_rfl
    · show b.granted = (b.claims ++ [_]).length
      rw [List.length_append, hg.granted]
      rfl
  | waitSlot line idx =>
    obtain ⟨m₁, hwait, heq⟩ := Option.map_eq_some_iff.mp hstep
    obtain ⟨rfl, rfl⟩ := Prod.mk.inj heq
    obtain ⟨hpos, rfl⟩ := semWait_eq_some hwait
    obtain ⟨hp, hholds, hgranted⟩ := hstage
    have hnone := h.holder_eq_none (by simp) hpos
    obtain ⟨hinv, hguar⟩ := acquire_keeps (t := .prod p) h (by simp) hnone (by simp)
    refine ⟨hinv, hk.next (by simp) (by simp) rfl
      ⟨⟨hp.claimed, hp.idx_eq, hp.block⟩, ?_, hgranted, b.acquire_holder_self _ _⟩, hguar⟩
    show (b.acquire (.slot idx) (.prod p)).holder .prod = some (.prod p)
    rw [b.acquire_holder_of_ne (by simp)]
    exact hholds
  | postProd line idx =>
    obtain ⟨rfl, rfl⟩ := Prod.mk.inj (Option.some.inj hstep)
    obtain ⟨hp, hholds, hgranted, hslot⟩ := hstage
    obtain ⟨hinv, hguar⟩ := release_keeps h (by simp) hholds (fun _ => hgranted) (by simp) (by simp)
    refine ⟨hinv, hk.next (by simp) (by simp) rfl ⟨⟨hp.claimed, hp.idx_eq, hp.block⟩, ?_⟩, hguar⟩
    show (b.release .prod).holder (.slot idx) = some (.prod p)
    rw [b.release_holder_of_ne (by simp)]
    exact hslot
  | store line idx =>
    obtain ⟨rfl, rfl⟩ := Prod.mk.inj (Option.some.inj hstep)
    obtain ⟨hp, hslot⟩ := hstage
    obtain ⟨hinv, hguar⟩ := fill_keeps h hp hslot
    refine ⟨hinv, hk.next (by simp) (by simp) rfl ⟨m.fresh, ?_, ?_⟩, hguar⟩
    · exact ⟨hp.claimed.toInHand.fill, hp.claimed.claimed, hp.claimed.read, hp.idx_eq,
        h.takes_le hp.block, Function.update_self _ _ _, hslot⟩
    · exact Function.update_self _ _ _
  | readDst line idx =>
    obtain ⟨dst, hdst, heq⟩ := Option.map_eq_some_iff.mp hstep
    obtain ⟨rfl, rfl⟩ := Prod.mk.inj heq
    obtain ⟨q, hf, hheap⟩ := hstage
    -- the slot shows the block of the claim
    have hlt := h.lt_claims hf.block
    have hwindow := h.claims_lt_window
    have hshows := h.shows (b.ticket p) hf.late (lt_of_lt_of_le hlt hwindow)
    have hidx : m.sharedResource idx = b.block (b.ticket p) := by
      rw [hf.idx_eq]
      exact hshows
    obtain rfl : dst = q := Option.some.inj (hdst.symm.trans (hidx.trans hf.block))
    exact ⟨h, hk.next (by simp) (by simp) rfl ⟨line, hf, [], hheap, rfl⟩, .refl _ _ _⟩
  | copy idx dst rest =>
    obtain ⟨line, hf, written, hheap, hrest⟩ := hstage
    cases rest with
    | nil =>
      obtain ⟨rfl, rfl⟩ := Prod.mk.inj (Option.some.inj hstep)
      rw [List.append_nil] at hrest
      exact ⟨h, hk.next (by simp) (by simp) rfl ⟨line, dst, hf, hrest ▸ hheap⟩, .refl _ _ _⟩
    | cons c rest =>
      obtain ⟨rfl, rfl⟩ := Prod.mk.inj (Option.some.inj hstep)
      obtain ⟨hinv, hguar⟩ := putByte_keeps h hf c
      refine ⟨hinv, hk.next (by simp) (by simp) rfl ⟨line, hf, written ++ [c], ?_, ?_⟩, hguar⟩
      · simp [Mem.withStore, Store.putByte, hheap]
      · rw [List.append_assoc]
        exact hrest
  | postSlot idx =>
    obtain ⟨rfl, rfl⟩ := Prod.mk.inj (Option.some.inj hstep)
    obtain ⟨line, q, hf, hheap⟩ := hstage
    have hlt := h.lt_claims hf.block
    have hwindow := h.claims_lt_window
    have hcomplete : ∀ j q', SemId.slot idx = .slot (cfg.slot j) → b.takes.length ≤ j →
        b.block j = some q' → Complete m b j q' := by
      intro j q' hj hle hq'
      -- of the claims in the window only that of `p` is on this slot
      have hplace : cfg.slot j = cfg.slot (b.ticket p) := by
        rw [← hf.idx_eq]
        exact (SemId.slot.inj hj).symm
      have hj' := h.lt_claims hq'
      obtain rfl : j = b.ticket p := Ring.place_inj cfg.N_pos hle (by omega) hf.late (by omega)
        hplace
      obtain rfl := Option.some.inj (hq'.symm.trans hf.block)
      exact ⟨p, b.serial p, line, hf.claimed, hf.read, hheap⟩
    obtain ⟨hinv, hguar⟩ := release_keeps h (by simp) hf.holds (by simp) (by simp) hcomplete
    exact ⟨hinv, hk.next (by simp) (by simp) rfl hf.clean, hguar⟩
  | returned => exact absurd hstep (Option.some_ne_none _).symm

end Producer

/-! ### Consumers -/

section Consumer

variable {k : Fin cfg.K}

/-- Where a consumer that has not returned goes on. -/
theorem ConsKnows.next {b' : Books cfg} {l l' : Consume cfg} (h : ConsKnows k m b l)
    (hl : l ≠ .returned) (hl' : l' ≠ .returned) (hexited : m'.exited = m.exited)
    (hstage : ConsStage k b' l') : ConsKnows k m' b' l' := by
  refine ⟨?_, hstage⟩
  rw [hexited]
  exact ⟨fun hex => absurd (h.1.mp hex) hl, fun heq => absurd heq hl'⟩

/-- The slot the cursor of the consumers stands at, between two takes. -/
theorem SemInv.current_slot (h : SemInv m b) :
    m.sharedResource (cfg.slot b.takes.length) = b.block b.takes.length := by
  have := cfg.N_pos
  exact h.shows _ le_rfl (by omega)

/-- A step of a consumer. -/
theorem consume_keeps (h : SemInv m b) {l l' : Consume cfg} (hk : ConsKnows k m b l)
    (hstep : consume k m l = some (m', l')) :
    SemInv m' (consumeBooks k m l b) ∧ ConsKnows k m' (consumeBooks k m l b) l' ∧
      Guar (.cons k) m b m' (consumeBooks k m l b) := by
  have hstage := hk.2
  cases l with
  | waitCons =>
    obtain ⟨m₁, hwait, heq⟩ := Option.map_eq_some_iff.mp hstep
    obtain ⟨rfl, rfl⟩ := Prod.mk.inj heq
    obtain ⟨hpos, rfl⟩ := semWait_eq_some hwait
    have hnone := h.holder_eq_none (by simp) hpos
    obtain ⟨hfreed, hadv⟩ := h.idleCons hnone
    obtain ⟨hinv, hguar⟩ := acquire_keeps (t := .cons k) h (by simp) hnone fun _ => ⟨k, rfl⟩
    exact ⟨hinv, hk.next (by simp) (by simp) rfl ⟨b.acquire_holder_self _ _, hfreed, hadv⟩, hguar⟩
  | readCursor =>
    obtain ⟨rfl, rfl⟩ := Prod.mk.inj (Option.some.inj hstep)
    have hcur := h.currCons
    rw [Looking.advances hstage] at hcur
    exact ⟨h, hk.next (by simp) (by simp) rfl ⟨hstage, hcur⟩, .refl _ _ _⟩
  | testSlot cur =>
    obtain ⟨hl, hcur⟩ := hstage
    simp only [consume] at hstep
    split at hstep
    case isTrue hnull =>
      obtain ⟨rfl, rfl⟩ := Prod.mk.inj (Option.some.inj hstep)
      exact ⟨h, hk.next (by simp) (by simp) rfl hl, .refl _ _ _⟩
    case isFalse hline =>
      obtain ⟨rfl, rfl⟩ := Prod.mk.inj (Option.some.inj hstep)
      rw [hcur, h.current_slot] at hline
      exact ⟨h, hk.next (by simp) (by simp) rfl ⟨hl, hline⟩, .refl _ _ _⟩
  | postIdle =>
    obtain ⟨rfl, rfl⟩ := Prod.mk.inj (Option.some.inj hstep)
    have hl : Looking b k := hstage
    obtain ⟨hinv, hguar⟩ := release_keeps h (by simp) hl.holds (by simp)
      (fun _ => ⟨hl.freed, hl.advances⟩) (by simp)
    refine ⟨hinv, hk.next (by simp) (by simp) rfl ?_, hguar⟩
    show (b.release .cons).holder .cons ≠ some (.cons k)
    rw [b.release_holder_self]
    exact (Option.some_ne_none _).symm
  | testDone =>
    simp only [consume] at hstep
    split at hstep
    · obtain ⟨rfl, rfl⟩ := Prod.mk.inj (Option.some.inj hstep)
      obtain ⟨hinv, hguar⟩ := exit_keeps (t := .cons k) h
      refine ⟨hinv, ⟨?_, hstage⟩, hguar⟩
      simp [Mem.withStore, Store.exit]
    · obtain ⟨rfl, rfl⟩ := Prod.mk.inj (Option.some.inj hstep)
      exact ⟨h, hk.next (by simp) (by simp) rfl hstage, .refl _ _ _⟩
  | readIndex =>
    obtain ⟨rfl, rfl⟩ := Prod.mk.inj (Option.some.inj hstep)
    obtain ⟨hl, hblock⟩ := hstage
    have hcur := h.currCons
    rw [hl.advances] at hcur
    exact ⟨h, hk.next (by simp) (by simp) rfl ⟨hl, hblock, hcur⟩, .refl _ _ _⟩
  | readNext idx =>
    obtain ⟨rfl, rfl⟩ := Prod.mk.inj (Option.some.inj hstep)
    obtain ⟨hl, hblock, hidx⟩ := hstage
    have hcur := h.currCons
    rw [hl.advances] at hcur
    exact ⟨h, hk.next (by simp) (by simp) rfl ⟨hl, hblock, hidx, hcur⟩, .refl _ _ _⟩
  | writeCursor idx cur =>
    obtain ⟨rfl, rfl⟩ := Prod.mk.inj (Option.some.inj hstep)
    obtain ⟨hl, hblock, hidx, hcur⟩ := hstage
    obtain ⟨hinv, hguar⟩ := advance_keeps h hl hcur
    refine ⟨hinv, hk.next (by simp) (by simp) rfl
      ⟨hl.holds, hl.freed, ?_, ?_, ?_, hblock, hidx⟩, hguar⟩
    · show (b.advances ++ [k]).length = b.takes.length + 1
      rw [List.length_append, hl.advances]
      rfl
    · show Function.update b.turn k (some b.advances.length) k = some b.takes.length
      rw [Function.update_self, hl.advances]
    · show (b.advances ++ [k])[b.takes.length]? = some k
      rw [← hl.advances, List.getElem?_concat_length]
  | waitSlot idx =>
    obtain ⟨m₁, hwait, heq⟩ := Option.map_eq_some_iff.mp hstep
    obtain ⟨rfl, rfl⟩ := Prod.mk.inj heq
    obtain ⟨hpos, rfl⟩ := semWait_eq_some hwait
    have ht : Turn b k idx := hstage
    have hnone := h.holder_eq_none (by simp) hpos
    obtain ⟨hinv, hguar⟩ := acquire_keeps (t := .cons k) h (by simp) hnone (by simp)
    refine ⟨hinv, hk.next (by simp) (by simp) rfl
      ⟨⟨?_, ht.freed, ht.advances, ht.turn, ht.mine, ht.block, ht.idx_eq⟩,
        b.acquire_holder_self _ _⟩, hguar⟩
    show (b.acquire (.slot idx) (.cons k)).holder .cons = some (.cons k)
    rw [b.acquire_holder_of_ne (by simp)]
    exact ht.holds
  | readLine idx =>
    obtain ⟨rfl, rfl⟩ := Prod.mk.inj (Option.some.inj hstep)
    obtain ⟨ht, hslot⟩ := hstage
    refine ⟨h, hk.next (by simp) (by simp) rfl ⟨ht, hslot, ?_⟩, .refl _ _ _⟩
    rw [ht.idx_eq]
    exact h.current_slot
  | clear idx line =>
    obtain ⟨rfl, rfl⟩ := Prod.mk.inj (Option.some.inj hstep)
    obtain ⟨ht, hslot, hline⟩ := hstage
    obtain ⟨hinv, hguar⟩ := take_keeps h ht hslot hline
    have hlen : (b.take k line (line.bind m.heap)).takes.length = b.takes.length + 1 := by
      rw [take_eq ht.turn, List.length_append]
      rfl
    refine ⟨hinv, hk.next (by simp) (by simp) rfl ⟨ht.holds, ?_, ?_, hslot, ?_⟩, hguar⟩
    · show b.freed + 1 = (b.take k line (line.bind m.heap)).takes.length
      rw [hlen, ht.freed]
    · show (b.take k line (line.bind m.heap)).advances.length
        = (b.take k line (line.bind m.heap)).takes.length
      rw [hlen, ← ht.advances, take_eq ht.turn]
    · obtain ⟨q, hq⟩ := Option.ne_none_iff_exists'.mp ht.block
      refine ⟨b.takes.length, q, ?_, hq, hline.trans hq⟩
      show b.takes.length < (b.take k line (line.bind m.heap)).takes.length
      omega
  | postFree idx line =>
    obtain ⟨rfl, rfl⟩ := Prod.mk.inj (Option.some.inj hstep)
    obtain ⟨hholds, hfreed, hadv, hslot, htaken⟩ := hstage
    obtain ⟨hinv, hguar⟩ := postFree_keeps h hholds hfreed
    exact ⟨hinv, hk.next (by simp) (by simp) rfl ⟨⟨hholds, hfreed, hadv⟩, hslot, htaken⟩, hguar⟩
  | postCons idx line =>
    obtain ⟨rfl, rfl⟩ := Prod.mk.inj (Option.some.inj hstep)
    obtain ⟨hl, hslot, htaken⟩ := hstage
    obtain ⟨hinv, hguar⟩ := release_keeps h (by simp) hl.holds (by simp)
      (fun _ => ⟨hl.freed, hl.advances⟩) (by simp)
    refine ⟨hinv, hk.next (by simp) (by simp) rfl ⟨?_, ?_, htaken⟩, hguar⟩
    · show (b.release .cons).holder .cons ≠ some (.cons k)
      rw [b.release_holder_self]
      exact (Option.some_ne_none _).symm
    · show (b.release .cons).holder (.slot idx) = some (.cons k)
      rw [b.release_holder_of_ne (by simp)]
      exact hslot
  | postSlot idx line =>
    obtain ⟨rfl, rfl⟩ := Prod.mk.inj (Option.some.inj hstep)
    obtain ⟨hholds, hslot, htaken⟩ := hstage
    have hcomplete : ∀ j q, SemId.slot idx = .slot (cfg.slot j) → b.takes.length ≤ j →
        b.block j = some q → Complete m b j q := by
      intro j q hj hle hq
      -- a slot held by a consumer is not held by a producer
      rcases h.written j q hle hq with ⟨p, hp⟩ | hc
      · rw [← hj, hslot] at hp
        exact absurd (Option.some.inj hp) (by simp)
      · exact hc
    obtain ⟨hinv, hguar⟩ := release_keeps h (by simp) hslot (by simp) (by simp) hcomplete
    refine ⟨hinv, hk.next (by simp) (by simp) rfl ⟨?_, htaken⟩, hguar⟩
    show (b.release (.slot idx)).holder .cons ≠ some (.cons k)
    rw [b.release_holder_of_ne (by simp)]
    exact hholds
  | examine line =>
    obtain ⟨rfl, rfl⟩ := Prod.mk.inj (Option.some.inj hstep)
    obtain ⟨hinv, hguar⟩ := examine_keeps h k line
    refine ⟨hinv, hk.next (by simp) (by simp) ?_ hstage, hguar⟩
    obtain ⟨out, hout⟩ := Store.examine_eq k line m.toStore
    rw [hout]
    rfl
  | free line =>
    obtain ⟨rfl, rfl⟩ := Prod.mk.inj (Option.some.inj hstep)
    obtain ⟨hinv, hguar⟩ := free_keeps (k := k) h hstage.2
    refine ⟨hinv, hk.next (by simp) (by simp) ?_ hstage.1, hguar⟩
    obtain ⟨heap, hheap, -⟩ := Store.free_eq line m.toStore
    rw [hheap]
    rfl
  | returned => exact absurd hstep (Option.some_ne_none _).symm

end Consumer

/-! ### The main thread -/

/-- A step of the main thread. -/
theorem waitThreads_keeps (h : SemInv m b) {l l' : WaitThreads} (hk : MainKnows m l)
    (hstep : waitThreads m l = some (m', l')) :
    SemInv m' b ∧ MainKnows m' l' ∧ Guar .main m b m' b := by
  cases l with
  | joinProd p =>
    simp only [waitThreads] at hstep
    split at hstep
    case isTrue hp =>
      split at hstep
      case isTrue hex =>
        obtain ⟨rfl, rfl⟩ := Prod.mk.inj (Option.some.inj hstep)
        refine ⟨h, ?_, .refl _ _ _⟩
        intro p' hp'
        rcases Nat.lt_succ_iff_lt_or_eq.mp hp' with hlt | heq
        · exact hk p' hlt
        · obtain rfl : p' = ⟨p, hp⟩ := Fin.ext heq
          exact hex
      case isFalse => exact absurd hstep (Option.some_ne_none _).symm
    case isFalse hp =>
      obtain ⟨rfl, rfl⟩ := Prod.mk.inj (Option.some.inj hstep)
      exact ⟨h, fun p' => hk p' (lt_of_lt_of_le p'.isLt (not_lt.mp hp)), .refl _ _ _⟩
  | setDone =>
    obtain ⟨rfl, rfl⟩ := Prod.mk.inj (Option.some.inj hstep)
    obtain ⟨hinv, hguar⟩ := setDone_keeps h hk
    exact ⟨hinv, ⟨hk, fun k' hk' => absurd hk' (Nat.not_lt_zero _)⟩, hguar⟩
  | joinCons k =>
    obtain ⟨hprods, hcons⟩ := hk
    simp only [waitThreads] at hstep
    split at hstep
    case isTrue hp =>
      split at hstep
      case isTrue hex =>
        obtain ⟨rfl, rfl⟩ := Prod.mk.inj (Option.some.inj hstep)
        refine ⟨h, ⟨hprods, ?_⟩, .refl _ _ _⟩
        intro k' hk'
        rcases Nat.lt_succ_iff_lt_or_eq.mp hk' with hlt | heq
        · exact hcons k' hlt
        · obtain rfl : k' = ⟨k, hp⟩ := Fin.ext heq
          exact hex
      case isFalse => exact absurd hstep (Option.some_ne_none _).symm
    case isFalse hk =>
      obtain ⟨rfl, rfl⟩ := Prod.mk.inj (Option.some.inj hstep)
      exact ⟨h, ⟨hprods, fun k' => hcons k' (lt_of_lt_of_le k'.isLt (not_lt.mp hk))⟩, .refl _ _ _⟩
  | cleanUp => exact absurd hstep (Option.some_ne_none _).symm

/-! ### Every reachable state -/

/-- What a thread knows. -/
def Knowledge (cfg : Config) : (t : Thread cfg) → Mem cfg × Books cfg → Local cfg t → Prop
  | .main, s, l => MainKnows s.1 l
  | .prod p, s, l => ProdKnows p s.1 s.2 l
  | .cons k, s, l => ConsKnows k s.1 s.2 l

theorem semInv_start (cfg : Config) (text : List UInt8) :
    SemInv (bookStart cfg text).mem.1 (bookStart cfg text).mem.2 where
  accounts := accounts_empty
  value s hs := by cases s <;> simp_all [bookStart, setUp]
  free := rfl
  consHolder t ht := absurd ht (Option.some_ne_none t).symm
  claims_le := le_rfl
  freed_le := le_rfl
  idleProd _ := rfl
  idleCons _ := ⟨rfl, rfl⟩
  currProd := rfl
  currCons := rfl
  shows _ _ _ := rfl
  unclaimed _ _ := rfl
  filled j hj := absurd hj (Nat.not_lt_zero j)
  block j q hq := absurd hq (Option.some_ne_none q).symm
  owned q hq := absurd hq (Nat.not_lt_zero q)
  fresh := rfl
  written j q _ hq := absurd hq (Option.some_ne_none q).symm
  takes n x hx := absurd hx (Option.some_ne_none x).symm
  done h := absurd h Bool.false_ne_true

theorem knowledge_start (cfg : Config) (text : List UInt8) (t : Thread cfg) :
    Knowledge cfg t (bookStart cfg text).mem ((bookStart cfg text).loc t) := by
  cases t with
  | main => exact fun p hp => absurd hp (Nat.not_lt_zero _)
  | prod p => exact ⟨⟨fun h => absurd h Bool.false_ne_true, by rintro ⟨⟩⟩, clean_empty p⟩
  | cons k =>
    exact ⟨⟨fun h => absurd h Bool.false_ne_true, by rintro ⟨⟩⟩, (Option.some_ne_none _).symm⟩

/-- A step of a thread keeps the invariant, gives the thread what it knows next and
keeps its guarantee. -/
theorem booked_keeps {t : Thread cfg} {s s' : Mem cfg × Books cfg} {l l' : Local cfg t}
    (hI : SemInv s.1 s.2) (hA : Knowledge cfg t s l)
    (hstep : (booked cfg).step t s l = some (s', l')) :
    SemInv s'.1 s'.2 ∧ Knowledge cfg t s' l' ∧ Guar t s.1 s.2 s'.1 s'.2 := by
  obtain ⟨m, b⟩ := s
  obtain ⟨m', b'⟩ := s'
  obtain ⟨hmem, rfl⟩ := (Program.withHistory_step_eq_some _ _).mp hstep
  cases t with
  | main => exact waitThreads_keeps hI hA hmem
  | prod p => exact produce_keeps hI hA hmem
  | cons k => exact consume_keeps hI hA hmem

theorem Knowledge.frame {t u : Thread cfg} {s s' : Mem cfg × Books cfg} {l : Local cfg u}
    (hne : u ≠ t) (hG : Guar t s.1 s.2 s'.1 s'.2) (hA : Knowledge cfg u s l) :
    Knowledge cfg u s' l := by
  cases u with
  | main => exact MainKnows.frame hA hG
  | prod p => exact ProdKnows.frame hA hG hne
  | cons k => exact ConsKnows.frame hA hG hne

/-- **The invariant of the semaphore version** holds in every reachable state, and
every thread knows what its program counter says. -/
theorem knows_of_reach {text : List UInt8} {s : Global (Mem cfg × Books cfg) (Local cfg)}
    (h : (booked cfg).Reach (bookStart cfg text) s) :
    SemInv s.mem.1 s.mem.2 ∧ ∀ t, Knowledge cfg t s.mem (s.loc t) :=
  h.relyGuarantee (fun _ _ _ _ _ => booked_keeps)
    (fun _ _ _ _ _ hne _ _ hG hA => Knowledge.frame hne hG hA)
    (semInv_start cfg text) (knowledge_start cfg text)

end Sem
end ProdCons
end OpSys
