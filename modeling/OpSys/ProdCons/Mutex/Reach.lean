import OpSys.ProdCons.Mutex.Steps

/-!
# The invariant holds in every reachable state

## Main results

* `produce_keeps`, `consume_keeps`, `waitThreads_keeps` — one step of a thread.
* `knows_of_reach` — every reachable state.
-/

namespace OpSys
namespace ProdCons
namespace Mutex

variable {cfg : Config} {spurious : Bool} {text : List UInt8} {m m' : Mem cfg} {h : History cfg}

/-! ### Producers -/

section Producer

variable {p : Fin cfg.P}

/-- Where a producer that has not returned goes on. -/
theorem ProdKnows.next {h' : History cfg} {l l' : Produce cfg} (hk : ProdKnows p m h l)
    (hl : l ≠ .returned) (hl' : l' ≠ .returned) (hexited : m'.exited = m.exited)
    (hstage : ProdStage p m' h' l') : ProdKnows p m' h' l' := by
  refine ⟨?_, hstage⟩
  rw [hexited]
  exact ⟨fun hex => absurd (hk.1.mp hex) hl, fun heq => absurd heq hl'⟩

/-- The producer at the end of its copy has a complete block in its slot. -/
theorem Filling.complete {line : List UInt8} {idx : Fin cfg.N} {q : Ptr}
    (hf : Filling m h p line idx q) (hheap : m.heap q = some (Stdio.strcpyBytes line)) :
    Complete m h q :=
  ⟨p, h.serial p, line, hf.fill, hf.read, hheap⟩

/-- A step of a producer. -/
theorem produce_keeps (hI : MutexInv text m h) {l l' : Produce cfg} (hk : ProdKnows p m h l)
    (hstep : produce spurious p m l = some (m', l')) :
    Kept text (.prod p) m h m' (produceBooks p m l h) ∧
      ProdKnows p m' (produceBooks p m l h) l' := by
  have hstage := hk.2
  cases l with
  | fgets =>
    simp only [produce] at hstep
    simp only [produceBooks]
    cases hline : Stdio.fgets lineMax m.file with
    | none =>
      rw [hline] at hstep
      obtain ⟨rfl, rfl⟩ := Prod.mk.inj (Option.some.inj hstep)
      refine ⟨exit_keeps hI, ?_, hstage⟩
      simp [Mem.withStore, Store.exit]
    | some r =>
      rw [hline] at hstep
      obtain ⟨rfl, rfl⟩ := Prod.mk.inj (Option.some.inj hstep)
      exact ⟨read_keeps hI p hline, hk.next (by simp) (by simp) rfl (hstage.read hI.accounts)⟩
  | lockProd line =>
    obtain ⟨m₁, hlock, heq⟩ := Option.map_eq_some_iff.mp hstep
    obtain ⟨rfl, rfl⟩ := Prod.mk.inj heq
    obtain ⟨hnone, rfl⟩ := lock_eq_some hlock
    refine ⟨lock_keeps hI hnone, hk.next (by simp) (by simp) rfl ⟨hstage, ?_, hI.idleProd hnone⟩⟩
    exact withOwner_self _
  | readCursor line =>
    obtain ⟨rfl, rfl⟩ := Prod.mk.inj (Option.some.inj hstep)
    exact ⟨⟨hI, .refl _ _ _⟩, hk.next (by simp) (by simp) rfl ⟨hstage, hI.currProd⟩⟩
  | testSlot line cur =>
    obtain ⟨hh, hcur⟩ := hstage
    simp only [produce] at hstep
    -- the slot is tested with the cursor that was read under the mutex
    split at hstep
    case isTrue hfull =>
      obtain ⟨rfl, rfl⟩ := Prod.mk.inj (Option.some.inj hstep)
      exact ⟨⟨hI, .refl _ _ _⟩, hk.next (by simp) (by simp) rfl hh⟩
    case isFalse hempty =>
      obtain ⟨rfl, rfl⟩ := Prod.mk.inj (Option.some.inj hstep)
      rw [not_not, hcur] at hempty
      exact ⟨⟨hI, .refl _ _ _⟩, hk.next (by simp) (by simp) rfl ⟨hh, hempty⟩⟩
  | condWait line =>
    obtain ⟨rfl, rfl⟩ := Prod.mk.inj (Option.some.inj hstep)
    -- `pthread_cond_wait` gives the mutex up and goes to sleep in one step
    have hh : Held m h p line := hstage
    have hun := unlock_keeps hI hh.holds (fun _ => hh.filled) (by simp)
    exact ⟨hun.withSleep _ _, hk.next (by simp) (by simp) rfl hh.unclaimed⟩
  | asleep line =>
    obtain ⟨m₁, hlock, heq⟩ := Option.map_eq_some_iff.mp hstep
    obtain ⟨rfl, rfl⟩ := Prod.mk.inj heq
    obtain ⟨hnone, rfl⟩ := reacquire_eq_some hlock
    refine ⟨reacquire_keeps hI hnone, hk.next (by simp) (by simp) rfl
      ⟨hstage, ?_, hI.idleProd hnone⟩⟩
    exact withOwner_self _
  | readIndex line =>
    obtain ⟨rfl, rfl⟩ := Prod.mk.inj (Option.some.inj hstep)
    exact ⟨⟨hI, .refl _ _ _⟩, hk.next (by simp) (by simp) rfl ⟨hstage, hI.currProd⟩⟩
  | readNext line idx =>
    obtain ⟨rfl, rfl⟩ := Prod.mk.inj (Option.some.inj hstep)
    exact ⟨⟨hI, .refl _ _ _⟩,
      hk.next (by simp) (by simp) rfl ⟨hstage.1, hstage.2, hI.currProd⟩⟩
  | writeCursor line idx cur =>
    obtain ⟨rfl, rfl⟩ := Prod.mk.inj (Option.some.inj hstep)
    obtain ⟨hf, hidx, hcur⟩ := hstage
    refine ⟨claim_keeps hI hf.toHeld hcur, hk.next (by simp) (by simp) rfl
      ⟨hf.unclaimed.claim, hf.holds, ?_, ?_, ?_, ?_⟩⟩
    · show h.fills.length + 1 = (h.claims ++ [_]).length
      rw [List.length_append, hf.filled]
      rfl
    · show (h.claim p).ticket p = h.fills.length
      rw [claim_ticket, hf.filled]
    · show idx = cfg.slot h.fills.length
      rw [hf.filled]
      exact hidx
    · show m.sharedResource idx = none
      rw [hidx]
      exact hf.empty
  | lockSlot line idx =>
    obtain ⟨m₁, hlock, heq⟩ := Option.map_eq_some_iff.mp hstep
    obtain ⟨rfl, rfl⟩ := Prod.mk.inj heq
    obtain ⟨hnone, rfl⟩ := lock_eq_some hlock
    have hp : Pending m h p line idx := hstage
    refine ⟨lock_keeps hI hnone, hk.next (by simp) (by simp) rfl
      ⟨⟨hp.claimed, ?_, hp.filled, hp.ticket, hp.idx_eq, hp.empty⟩, withOwner_self _⟩⟩
    rw [withOwner_of_ne (by simp)]
    exact hp.holds
  | store line idx =>
    obtain ⟨rfl, rfl⟩ := Prod.mk.inj (Option.some.inj hstep)
    obtain ⟨hp, hheld⟩ := hstage
    refine ⟨fill_keeps hI hp hheld, hk.next (by simp) (by simp) rfl ⟨m.fresh, ?_, ?_⟩⟩
    · refine ⟨⟨hp.claimed.toInHand.fill, hp.holds, ?_⟩, hheld, Function.update_self _ _ _, ?_,
        hp.claimed.read⟩
      · show (h.fills ++ [_]).length = h.claims.length
        rw [List.length_append]
        exact hp.filled
      · show (h.fills ++ [(p, h.serial p)])[m.fresh]? = some (p, h.serial p)
        rw [hI.fresh, List.getElem?_concat_length]
    · exact Function.update_self _ _ _
  | readDst line idx =>
    obtain ⟨dst, hdst, heq⟩ := Option.map_eq_some_iff.mp hstep
    obtain ⟨rfl, rfl⟩ := Prod.mk.inj heq
    obtain ⟨q, hf, hheap⟩ := hstage
    obtain rfl : dst = q := Option.some.inj (hdst.symm.trans hf.stored)
    exact ⟨⟨hI, .refl _ _ _⟩, hk.next (by simp) (by simp) rfl ⟨line, hf, [], hheap, rfl⟩⟩
  | copy idx dst rest =>
    obtain ⟨line, hf, written, hheap, hrest⟩ := hstage
    cases rest with
    | nil =>
      obtain ⟨rfl, rfl⟩ := Prod.mk.inj (Option.some.inj hstep)
      rw [List.append_nil] at hrest
      exact ⟨⟨hI, .refl _ _ _⟩,
        hk.next (by simp) (by simp) rfl ⟨line, dst, hf, hrest ▸ hheap⟩⟩
    | cons c rest =>
      obtain ⟨rfl, rfl⟩ := Prod.mk.inj (Option.some.inj hstep)
      refine ⟨putByte_keeps hI hf c, hk.next (by simp) (by simp) rfl
        ⟨line, ⟨⟨hf.clean, hf.holds, hf.filled⟩, hf.slotHeld, hf.stored, hf.fill, hf.read⟩,
          written ++ [c], ?_, ?_⟩⟩
      · simp [Mem.withStore, Store.putByte, hheap]
      · rw [List.append_assoc]
        exact hrest
  | broadcast idx =>
    obtain ⟨rfl, rfl⟩ := Prod.mk.inj (Option.some.inj hstep)
    obtain ⟨line, q, hf, hheap⟩ := hstage
    exact ⟨broadcast_keeps hI .read, hk.next (by simp) (by simp) rfl
      ⟨line, q, ⟨⟨hf.clean, hf.holds, hf.filled⟩, hf.slotHeld, hf.stored, hf.fill, hf.read⟩, hheap⟩⟩
  | unlockSlot idx =>
    obtain ⟨rfl, rfl⟩ := Prod.mk.inj (Option.some.inj hstep)
    obtain ⟨line, q, hf, hheap⟩ := hstage
    have hslot : ∀ i q', MutexId.slot idx = .slot i → m.sharedResource i = some q' →
        Complete m h q' := by
      intro i q' hi hq'
      obtain rfl := MutexId.slot.inj hi
      obtain rfl := Option.some.inj (hf.stored.symm.trans hq')
      exact hf.complete hheap
    refine ⟨unlock_keeps hI hf.slotHeld (by simp) hslot, hk.next (by simp) (by simp) rfl
      ⟨hf.clean, ?_, hf.filled⟩⟩
    rw [Mem.unlock, withOwner_of_ne (by simp)]
    exact hf.holds
  | unlockProd =>
    obtain ⟨rfl, rfl⟩ := Prod.mk.inj (Option.some.inj hstep)
    have hs : Settled m h p := hstage
    exact ⟨unlock_keeps hI hs.holds (fun _ => hs.filled) (by simp),
      hk.next (by simp) (by simp) rfl hs.clean⟩
  | returned => exact absurd hstep (Option.some_ne_none _).symm

end Producer

/-! ### Consumers -/

section Consumer

variable {k : Fin cfg.K}

/-- Where a consumer that has not returned goes on. -/
theorem ConsKnows.next {h' : History cfg} {l l' : Consume cfg} (hk : ConsKnows k m h l)
    (hl : l ≠ .returned) (hl' : l' ≠ .returned) (hexited : m'.exited = m.exited)
    (hstage : ConsStage k m' h' l') : ConsKnows k m' h' l' := by
  refine ⟨?_, hstage⟩
  rw [hexited]
  exact ⟨fun hex => absurd (hk.1.mp hex) hl, fun heq => absurd heq hl'⟩

/-- A step of a consumer. -/
theorem consume_keeps (hI : MutexInv text m h) {l l' : Consume cfg} (hk : ConsKnows k m h l)
    (hstep : consume spurious k m l = some (m', l')) :
    Kept text (.cons k) m h m' (consumeBooks k m l h) ∧
      ConsKnows k m' (consumeBooks k m l h) l' := by
  have hstage := hk.2
  cases l with
  | lockCons =>
    obtain ⟨m₁, hlock, heq⟩ := Option.map_eq_some_iff.mp hstep
    obtain ⟨rfl, rfl⟩ := Prod.mk.inj heq
    obtain ⟨hnone, rfl⟩ := lock_eq_some hlock
    exact ⟨lock_keeps hI hnone, hk.next (by simp) (by simp) rfl ⟨withOwner_self _, hstage⟩⟩
  | readCursor =>
    obtain ⟨rfl, rfl⟩ := Prod.mk.inj (Option.some.inj hstep)
    exact ⟨⟨hI, .refl _ _ _⟩, hk.next (by simp) (by simp) rfl ⟨hstage, hI.currCons⟩⟩
  | testSlot cur =>
    simp only [consume] at hstep
    split at hstep <;> obtain ⟨rfl, rfl⟩ := Prod.mk.inj (Option.some.inj hstep)
    · exact ⟨⟨hI, .refl _ _ _⟩, hk.next (by simp) (by simp) rfl hstage.1⟩
    · exact ⟨⟨hI, .refl _ _ _⟩, hk.next (by simp) (by simp) rfl hstage.1⟩
  | testDone =>
    simp only [consume] at hstep
    split at hstep <;> obtain ⟨rfl, rfl⟩ := Prod.mk.inj (Option.some.inj hstep)
    · exact ⟨⟨hI, .refl _ _ _⟩, hk.next (by simp) (by simp) rfl hstage⟩
    · exact ⟨⟨hI, .refl _ _ _⟩, hk.next (by simp) (by simp) rfl hstage⟩
  | unlockDone =>
    obtain ⟨rfl, rfl⟩ := Prod.mk.inj (Option.some.inj hstep)
    have hl : Looking m h k := hstage
    exact ⟨unlock_keeps hI hl.holds (by simp) (by simp), hk.next (by simp) (by simp) rfl hl.turn⟩
  | leave =>
    obtain ⟨rfl, rfl⟩ := Prod.mk.inj (Option.some.inj hstep)
    refine ⟨exit_keeps hI, ?_, hstage⟩
    simp [Mem.withStore, Store.exit]
  | condWait =>
    obtain ⟨rfl, rfl⟩ := Prod.mk.inj (Option.some.inj hstep)
    have hl : Looking m h k := hstage
    have hun := unlock_keeps hI hl.holds (by simp) (by simp)
    exact ⟨hun.withSleep _ _, hk.next (by simp) (by simp) rfl hl.turn⟩
  | asleep =>
    obtain ⟨m₁, hlock, heq⟩ := Option.map_eq_some_iff.mp hstep
    obtain ⟨rfl, rfl⟩ := Prod.mk.inj heq
    obtain ⟨hnone, rfl⟩ := reacquire_eq_some hlock
    exact ⟨reacquire_keeps hI hnone, hk.next (by simp) (by simp) rfl ⟨withOwner_self _, hstage⟩⟩
  | readIndex =>
    obtain ⟨rfl, rfl⟩ := Prod.mk.inj (Option.some.inj hstep)
    exact ⟨⟨hI, .refl _ _ _⟩, hk.next (by simp) (by simp) rfl ⟨hstage, hI.currCons⟩⟩
  | readNext idx =>
    obtain ⟨rfl, rfl⟩ := Prod.mk.inj (Option.some.inj hstep)
    exact ⟨⟨hI, .refl _ _ _⟩,
      hk.next (by simp) (by simp) rfl ⟨hstage.1, hstage.2, hI.currCons⟩⟩
  | writeCursor idx cur =>
    obtain ⟨rfl, rfl⟩ := Prod.mk.inj (Option.some.inj hstep)
    obtain ⟨hl, hidx, hcur⟩ := hstage
    exact ⟨advance_keeps hI hl hcur, hk.next (by simp) (by simp) rfl
      ⟨⟨h.advances.length, Function.update_self _ _ _, hidx⟩, hl.holds⟩⟩
  | lockSlot idx =>
    obtain ⟨m₁, hlock, heq⟩ := Option.map_eq_some_iff.mp hstep
    obtain ⟨rfl, rfl⟩ := Prod.mk.inj heq
    obtain ⟨hnone, rfl⟩ := lock_eq_some hlock
    obtain ⟨hturn, hcons⟩ := hstage
    refine ⟨lock_keeps hI hnone, hk.next (by simp) (by simp) rfl ⟨hturn, ?_, withOwner_self _⟩⟩
    rw [withOwner_of_ne (by simp)]
    exact hcons
  | unlockCons idx =>
    obtain ⟨rfl, rfl⟩ := Prod.mk.inj (Option.some.inj hstep)
    obtain ⟨hturn, hcons, hheld⟩ := hstage
    refine ⟨unlock_keeps hI hcons (by simp) (by simp), hk.next (by simp) (by simp) rfl ⟨hturn, ?_⟩⟩
    rw [Mem.unlock, withOwner_of_ne (by simp)]
    exact hheld
  | readLine idx =>
    obtain ⟨rfl, rfl⟩ := Prod.mk.inj (Option.some.inj hstep)
    exact ⟨⟨hI, .refl _ _ _⟩, hk.next (by simp) (by simp) rfl ⟨hstage.1, hstage.2, rfl⟩⟩
  | clear idx line =>
    obtain ⟨rfl, rfl⟩ := Prod.mk.inj (Option.some.inj hstep)
    obtain ⟨⟨j, hj, hidx⟩, hheld, hline⟩ := hstage
    refine ⟨take_keeps hI hj hheld hline, hk.next (by simp) (by simp) rfl ?_⟩
    simp only [consumeBooks, take_eq hj]
    refine ⟨Function.update_self _ _ _, hheld, ?_⟩
    intro q hq
    refine ⟨_, List.mem_append_right _ (List.mem_singleton_self _), rfl, hq, ?_⟩
    rw [hq]
    rfl
  | broadcast idx line =>
    obtain ⟨rfl, rfl⟩ := Prod.mk.inj (Option.some.inj hstep)
    exact ⟨broadcast_keeps hI .write, hk.next (by simp) (by simp) rfl hstage⟩
  | unlockSlot idx line =>
    obtain ⟨rfl, rfl⟩ := Prod.mk.inj (Option.some.inj hstep)
    obtain ⟨hturn, hheld, howns⟩ := hstage
    have hslot : ∀ i q', MutexId.slot idx = .slot i → m.sharedResource i = some q' →
        Complete m h q' := by
      intro i q' hi hq'
      obtain rfl := MutexId.slot.inj hi
      exact hI.complete_of_held hheld hq'
    exact ⟨unlock_keeps hI hheld (by simp) hslot, hk.next (by simp) (by simp) rfl ⟨hturn, howns⟩⟩
  | examine line =>
    obtain ⟨rfl, rfl⟩ := Prod.mk.inj (Option.some.inj hstep)
    have hkept := examine_keeps hI k line
    obtain ⟨out, hout⟩ := Store.examine_eq k line m.toStore
    rw [hout] at hkept ⊢
    exact ⟨hkept, hk.next (by simp) (by simp) rfl hstage⟩
  | free line =>
    obtain ⟨rfl, rfl⟩ := Prod.mk.inj (Option.some.inj hstep)
    have hkept := free_keeps hI hstage.2
    obtain ⟨heap, hheap, -⟩ := Store.free_eq line m.toStore
    rw [hheap] at hkept ⊢
    exact ⟨hkept, hk.next (by simp) (by simp) rfl hstage.1⟩
  | returned => exact absurd hstep (Option.some_ne_none _).symm

end Consumer

/-! ### The main thread -/

/-- A step of the main thread. -/
theorem waitThreads_keeps (hI : MutexInv text m h) {l l' : WaitThreads} (hk : MainKnows m l)
    (hstep : waitThreads m l = some (m', l')) : Kept text .main m h m' h ∧ MainKnows m' l' := by
  cases l with
  | joinProd p =>
    simp only [waitThreads] at hstep
    split at hstep
    case isTrue hp =>
      split at hstep
      case isTrue hex =>
        obtain ⟨rfl, rfl⟩ := Prod.mk.inj (Option.some.inj hstep)
        refine ⟨⟨hI, .refl _ _ _⟩, ?_⟩
        intro p' hp'
        rcases Nat.lt_succ_iff_lt_or_eq.mp hp' with hlt | heq
        · exact hk p' hlt
        · obtain rfl : p' = ⟨p, hp⟩ := Fin.ext heq
          exact hex
      case isFalse => exact absurd hstep (Option.some_ne_none _).symm
    case isFalse hp =>
      obtain ⟨rfl, rfl⟩ := Prod.mk.inj (Option.some.inj hstep)
      exact ⟨⟨hI, .refl _ _ _⟩, fun p' => hk p' (lt_of_lt_of_le p'.isLt (not_lt.mp hp))⟩
  | setDone =>
    obtain ⟨rfl, rfl⟩ := Prod.mk.inj (Option.some.inj hstep)
    exact ⟨setDone_keeps hI hk, hk⟩
  | broadcast =>
    obtain ⟨rfl, rfl⟩ := Prod.mk.inj (Option.some.inj hstep)
    exact ⟨broadcast_keeps hI .read, hk, fun k' hk' => absurd hk' (Nat.not_lt_zero _)⟩
  | joinCons k =>
    obtain ⟨hprods, hcons⟩ := hk
    simp only [waitThreads] at hstep
    split at hstep
    case isTrue hp =>
      split at hstep
      case isTrue hex =>
        obtain ⟨rfl, rfl⟩ := Prod.mk.inj (Option.some.inj hstep)
        refine ⟨⟨hI, .refl _ _ _⟩, hprods, ?_⟩
        intro k' hk'
        rcases Nat.lt_succ_iff_lt_or_eq.mp hk' with hlt | heq
        · exact hcons k' hlt
        · obtain rfl : k' = ⟨k, hp⟩ := Fin.ext heq
          exact hex
      case isFalse => exact absurd hstep (Option.some_ne_none _).symm
    case isFalse hk =>
      obtain ⟨rfl, rfl⟩ := Prod.mk.inj (Option.some.inj hstep)
      exact ⟨⟨hI, .refl _ _ _⟩, hprods,
        fun k' => hcons k' (lt_of_lt_of_le k'.isLt (not_lt.mp hk))⟩
  | cleanUp => exact absurd hstep (Option.some_ne_none _).symm

/-! ### Every reachable state -/

/-- What a thread knows. -/
def Knowledge (cfg : Config) : (t : Thread cfg) → Mem cfg × History cfg → Local cfg t → Prop
  | .main, s, l => MainKnows s.1 l
  | .prod p, s, l => ProdKnows p s.1 s.2 l
  | .cons k, s, l => ConsKnows k s.1 s.2 l

theorem mutexInv_start (cfg : Config) (text : List UInt8) :
    MutexInv text (bookStart cfg text).mem.1 (bookStart cfg text).mem.2 where
  accounts := accounts_empty
  reads := rfl
  fresh := rfl
  fills _ _ hq := hq
  idleProd _ := rfl
  currProd := rfl
  currCons := rfl
  slots _ q hq := absurd hq (Option.some_ne_none q).symm
  written _ q hq := absurd hq (Option.some_ne_none q).symm
  takes _ hx := absurd hx List.not_mem_nil
  takes_inj _ _ x _ _ hx := absurd hx (Option.some_ne_none x).symm
  done h := absurd h Bool.false_ne_true

theorem knowledge_start (cfg : Config) (text : List UInt8) (t : Thread cfg) :
    Knowledge cfg t (bookStart cfg text).mem ((bookStart cfg text).loc t) := by
  cases t with
  | main => exact fun p hp => absurd hp (Nat.not_lt_zero _)
  | prod p => exact ⟨⟨fun h => absurd h Bool.false_ne_true, by rintro ⟨⟩⟩, clean_empty p⟩
  | cons k => exact ⟨⟨fun h => absurd h Bool.false_ne_true, by rintro ⟨⟩⟩, rfl⟩

/-- A step of a thread keeps the invariant, gives the thread what it knows next and
keeps its guarantee. -/
theorem booked_keeps {t : Thread cfg} {s s' : Mem cfg × History cfg} {l l' : Local cfg t}
    (hI : MutexInv text s.1 s.2) (hA : Knowledge cfg t s l)
    (hstep : (booked cfg spurious).step t s l = some (s', l')) :
    MutexInv text s'.1 s'.2 ∧ Knowledge cfg t s' l' ∧ Guar t s.1 s.2 s'.1 s'.2 := by
  obtain ⟨m, h⟩ := s
  obtain ⟨m', h'⟩ := s'
  obtain ⟨hmem, rfl⟩ := (Program.withHistory_step_eq_some _ _).mp hstep
  cases t with
  | main =>
    obtain ⟨⟨hI', hG⟩, hA'⟩ := waitThreads_keeps hI hA hmem
    exact ⟨hI', hA', hG⟩
  | prod p =>
    obtain ⟨⟨hI', hG⟩, hA'⟩ := produce_keeps hI hA hmem
    exact ⟨hI', hA', hG⟩
  | cons k =>
    obtain ⟨⟨hI', hG⟩, hA'⟩ := consume_keeps hI hA hmem
    exact ⟨hI', hA', hG⟩

theorem Knowledge.frame {t u : Thread cfg} {s s' : Mem cfg × History cfg} {l : Local cfg u}
    (hne : u ≠ t) (hG : Guar t s.1 s.2 s'.1 s'.2) (hA : Knowledge cfg u s l) :
    Knowledge cfg u s' l := by
  cases u with
  | main => exact MainKnows.frame hA hG
  | prod p => exact ProdKnows.frame hA hG hne
  | cons k => exact ConsKnows.frame hA hG hne

/-- **The invariant of the mutex version** holds in every reachable state, and every
thread knows what its program counter says. -/
theorem knows_of_reach {s : Global (Mem cfg × History cfg) (Local cfg)}
    (h : (booked cfg spurious).Reach (bookStart cfg text) s) :
    MutexInv text s.mem.1 s.mem.2 ∧ ∀ t, Knowledge cfg t s.mem (s.loc t) :=
  h.relyGuarantee (fun _ _ _ _ _ => booked_keeps)
    (fun _ _ _ _ _ hne _ _ hG hA => Knowledge.frame hne hG hA)
    (mutexInv_start cfg text) (knowledge_start cfg text)

/-! ### No line is lost twice -/

/-- What holds of the slots and of the takes. -/
structure Exclusive (s : Global (Mem cfg × History cfg) (Local cfg)) : Prop where
  /-- No producer stores into a slot that still holds a line. -/
  store : ∀ p line idx, s.loc (.prod p) = .store line idx →
    s.mem.1.sharedResource idx = none
  /-- Every line taken is a complete copy of a line some producer read. -/
  complete : ∀ x ∈ s.mem.2.takes, ∀ q, x.ptr = some q →
    ∃ p i line, s.mem.2.fills[q]? = some (p, i) ∧ s.mem.2.lines[i]? = some (p, line) ∧
      x.text = some (Stdio.strcpyBytes line)
  /-- No stored line is taken twice. -/
  once : ∀ (n n' : ℕ) x x' q, s.mem.2.takes[n]? = some x → s.mem.2.takes[n']? = some x' →
    x.ptr = some q → x'.ptr = some q → n = n'
  /-- A block that is about to be freed has not been freed before, and nobody else is about
  to free it. -/
  freed : ∀ k q, s.loc (.cons k) = .free (some q) →
    s.mem.1.heap q ≠ none ∧ ∀ k', s.loc (.cons k') = .free (some q) → k' = k

theorem exclusive_of_reach
    {s : Global (Mem cfg × History cfg) (Local cfg)}
    (h : (booked cfg spurious).Reach (bookStart cfg text) s) : Exclusive s := by
  obtain ⟨hI, hA⟩ := knows_of_reach h
  -- a consumer at `free` has taken the block itself
  have howns : ∀ k q, s.loc (.cons k) = .free (some q) →
      ∃ x ∈ s.mem.2.takes, x.taker = k ∧ x.ptr = some q ∧ s.mem.1.heap q = x.text := by
    intro k q hloc
    have hk : ConsKnows k s.mem.1 s.mem.2 (s.loc (.cons k)) := hA (.cons k)
    rw [hloc] at hk
    exact hk.2.2 q rfl
  refine ⟨?_, fun x hx => hI.takes x hx, hI.takes_inj, ?_⟩
  · intro p line idx hloc
    have hp : ProdKnows p s.mem.1 s.mem.2 (s.loc (.prod p)) := hA (.prod p)
    rw [hloc] at hp
    exact hp.2.1.empty
  · intro k q hloc
    obtain ⟨x, hx, hk, hptr, hheap⟩ := howns k q hloc
    constructor
    · obtain ⟨p, i, line, -, -, htext⟩ := hI.takes x hx q hptr
      rw [hheap, htext]
      exact Option.some_ne_none _
    · intro k' hloc'
      obtain ⟨x', hx', hk', hptr', -⟩ := howns k' q hloc'
      obtain ⟨n, hn⟩ := List.getElem?_of_mem hx
      obtain ⟨n', hn'⟩ := List.getElem?_of_mem hx'
      obtain rfl := hI.takes_inj n n' x x' q hn hn' hptr hptr'
      obtain rfl := Option.some.inj (hn.symm.trans hn')
      exact hk'.symm.trans hk

/-- **No line is overwritten, torn or taken twice**, in every state of every run, also
with spurious wake-ups. -/
theorem exclusive_run (cfg : Config) (spurious : Bool) (text : List UInt8)
    (sched : List (Thread cfg)) :
    Exclusive ((booked cfg spurious).run sched (bookStart cfg text)) :=
  exclusive_of_reach ((booked cfg spurious).reach_run sched _)

end Mutex
end ProdCons
end OpSys
