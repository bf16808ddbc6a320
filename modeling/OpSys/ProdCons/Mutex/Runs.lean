import OpSys.ProdCons.Mutex.Program

/-!
# Runs of one thread

What a producer does with one line and a consumer with one turn when no other
thread steps in between.  A run of the system is put together from these.

## Main definitions

* `Produced`, `claiming`, `entering`, `Taken` — the shared memory after such a run.

## Main results

* `solo_produce` — a producer stores its next line.
* `solo_claim`, `solo_enter`, `solo_take` — the three parts of a consumer's turn;
  `solo_consume` — the whole of it.
* `solo_look`, `solo_leave` — a consumer finds its slot empty, and returns.
* `solo_return` — a producer returns at the end of the file.
* `solo_joinProds`, `solo_joinConsumers` — the main thread joins the others.
-/

namespace OpSys
namespace ProdCons
namespace Mutex

variable {cfg : Config} (spurious : Bool) {m : Mem cfg}

/-! ### Producers -/

/-- After a producer has stored a line at `curr_prod`. -/
structure Produced (rest : List UInt8) (m m' : Mem cfg) : Prop where
  file : m'.file = rest
  slots : m'.sharedResource = Function.update m.sharedResource m.currProd (some m.fresh)
  currProd : m'.currProd = cfg.next m.currProd
  currCons : m'.currCons = m.currCons
  owner : m'.owner = m.owner
  asleep : ∀ t, m.asleep t = none → m'.asleep t = none
  done : m'.doneProducing = m.doneProducing
  exited : m'.exited = m.exited

/-- `strcpy` runs to its end. -/
theorem solo_copy (p : Fin cfg.P) (idx : Fin cfg.N) (dst : Ptr) (rest : List UInt8) (m : Mem cfg) :
    ∃ heap, (program cfg spurious).Solo (.prod p) (m, .copy idx dst rest)
      (m.withStore { m.toStore with heap := heap }, .broadcast idx) := by
  induction rest generalizing m with
  | nil => exact ⟨m.heap, .head rfl (.refl _)⟩
  | cons b rest ih =>
    obtain ⟨heap, hrun⟩ := ih (m.withStore (m.putByte dst b))
    exact ⟨heap, .head rfl hrun⟩

/-- A producer stores its next line when nobody is in its way. -/
theorem solo_produce (p : Fin cfg.P) {line rest : List UInt8}
    (hline : Stdio.fgets lineMax m.file = some (line, rest)) (hprod : m.owner .prod = none)
    (hslot : m.owner (.slot m.currProd) = none) (hempty : m.sharedResource m.currProd = none) :
    ∃ m', (program cfg spurious).Solo (.prod p) (m, .fgets) (m', .fgets) ∧ Produced rest m m' := by
  -- the memory after `fgets`, after each of the two locks, after `malloc`
  let m₀ : Mem cfg := { m with file := rest }
  let m₁ : Mem cfg := m₀.withOwner .prod (some (.prod p))
  let m₂ : Mem cfg := ({ m₁ with currProd := cfg.next m.currProd } : Mem cfg).withOwner
    (.slot m.currProd) (some (.prod p))
  let m₃ : Mem cfg := m₂.withStore (m₂.malloc m.currProd)
  obtain ⟨heap, hcopy⟩ := solo_copy spurious p m.currProd m.fresh
    (Stdio.strcpyBytes line) m₃
  refine ⟨(((m₃.withStore { m₃.toStore with heap := heap }).broadcast .read).unlock
    (.slot m.currProd)).unlock .prod, ?_, ?_⟩
  · have hread : produce spurious p m .fgets = some (m₀, .lockProd line) := by
      simp only [produce, hline]
      rfl
    have hlock : produce spurious p m₀ (.lockProd line) = some (m₁, .readCursor line) :=
      congrArg (Option.map (·, Produce.readCursor line)) (lock_of_none (m := m₀) hprod)
    have htest : produce spurious p m₁ (.testSlot line m.currProd) = some (m₁, .readIndex line) :=
      if_neg (not_not.mpr hempty)
    have hlockSlot : produce spurious p { m₁ with currProd := cfg.next m.currProd }
        (.lockSlot line m.currProd) = some (m₂, .store line m.currProd) := by
      have hne : (.slot m.currProd : MutexId cfg) ≠ .prod := by simp
      have hfree : m₁.owner (.slot m.currProd) = none :=
        (withOwner_of_ne (m := m₀) hne _).trans hslot
      exact congrArg (Option.map (·, Produce.store line m.currProd))
        (lock_of_none (m := { m₁ with currProd := cfg.next m.currProd }) hfree)
    have hdst : produce spurious p m₃ (.readDst line m.currProd)
        = some (m₃, .copy m.currProd m.fresh (Stdio.strcpyBytes line)) := by
      have hself : m₃.sharedResource m.currProd = some m.fresh := Function.update_self _ _ _
      simp only [produce, hself, Option.map_some]
    exact .head hread (.head hlock (.head rfl (.head htest (.head rfl (.head rfl (.head rfl
      (.head hlockSlot (.head rfl (.head hdst (.trans hcopy (.head rfl (.head rfl
        (.head rfl (.refl _))))))))))))))
  · refine ⟨rfl, rfl, rfl, rfl, ?_, ?_, rfl, rfl⟩
    · -- both mutexes are free again
      funext s
      show Function.update (Function.update (Function.update (Function.update m.owner _ _) _ _)
        _ _) _ _ s = m.owner s
      by_cases hs : s = .prod
      · rw [hs, Function.update_self, hprod]
      · rw [Function.update_of_ne hs, Function.update_idem]
        by_cases hs' : s = .slot m.currProd
        · rw [hs', Function.update_self, hslot]
        · rw [Function.update_of_ne hs', Function.update_of_ne hs]
    · intro t ht
      show (if m.asleep t = some .read then none else m.asleep t) = none
      rw [ht]
      rfl

/-- A producer returns at the end of the file. -/
theorem solo_return (p : Fin cfg.P) (hfile : m.file = []) :
    (program cfg spurious).Solo (.prod p) (m, .fgets)
      (m.withStore (m.exit (.prod p)), .returned) := by
  have hread : produce spurious p m .fgets = some (m.withStore (m.exit (.prod p)), .returned) := by
    simp only [produce, hfile, Stdio.fgets_nil]
  exact .head hread (.refl _)

/-! ### Consumers -/

/-- After consumer `k` has locked `cons_mutex`. -/
def holding (k : Fin cfg.K) (m : Mem cfg) : Mem cfg := m.withOwner .cons (some (.cons k))

/-- After consumer `k` has advanced `curr_cons` under `cons_mutex`. -/
def claiming (k : Fin cfg.K) (m : Mem cfg) : Mem cfg :=
  { holding k m with currCons := cfg.next m.currCons }

theorem claiming_owner (k : Fin cfg.K) (m : Mem cfg) {s : MutexId cfg} (hs : s ≠ .cons) :
    (claiming k m).owner s = m.owner s :=
  withOwner_of_ne hs (some (.cons k))

/-- A consumer gets a turn at a slot that is not `NULL`. -/
theorem solo_claim (k : Fin cfg.K) (hcons : m.owner .cons = none)
    (hfull : m.sharedResource m.currCons ≠ none) :
    (program cfg spurious).Solo (.cons k) (m, .lockCons) (claiming k m, .lockSlot m.currCons) := by
  have hlock : consume spurious k m .lockCons = some (holding k m, .readCursor) :=
    congrArg (Option.map (·, Consume.readCursor)) (lock_of_none hcons)
  have htest : consume spurious k (holding k m) (.testSlot m.currCons)
      = some (holding k m, .readIndex) := if_neg hfull
  exact .head hlock (.head rfl (.head htest (.head rfl (.head rfl (.head rfl (.refl _))))))

/-- After consumer `k` has gone from `cons_mutex` over to the mutex of slot `idx`. -/
def entering (k : Fin cfg.K) (idx : Fin cfg.N) (m : Mem cfg) : Mem cfg :=
  (m.withOwner (.slot idx) (some (.cons k))).withOwner .cons none

theorem entering_cons (k : Fin cfg.K) (idx : Fin cfg.N) (m : Mem cfg) :
    (entering k idx m).owner .cons = none :=
  withOwner_self none

theorem entering_owner (k : Fin cfg.K) {idx : Fin cfg.N} (m : Mem cfg) {s : MutexId cfg}
    (hs : s ≠ .cons) (hslot : s ≠ .slot idx) : (entering k idx m).owner s = m.owner s :=
  (withOwner_of_ne hs none).trans (withOwner_of_ne hslot (some (.cons k)))

/-- A consumer with a turn locks the mutex of its slot and gives up `cons_mutex`. -/
theorem solo_enter (k : Fin cfg.K) (idx : Fin cfg.N) (hslot : m.owner (.slot idx) = none) :
    (program cfg spurious).Solo (.cons k) (m, .lockSlot idx) (entering k idx m, .readLine idx) := by
  have hlock : consume spurious k m (.lockSlot idx)
      = some (m.withOwner (.slot idx) (some (.cons k)), .unlockCons idx) :=
    congrArg (Option.map (·, Consume.unlockCons idx)) (lock_of_none hslot)
  exact .head hlock (.head rfl (.refl _))

/-- What a consumer leaves alone. -/
structure Undisturbed (m m' : Mem cfg) : Prop where
  file : m'.file = m.file
  currProd : m'.currProd = m.currProd
  asleep : ∀ t, m.asleep t = none → m'.asleep t = none
  done : m'.doneProducing = m.doneProducing
  exited : m'.exited = m.exited

theorem Undisturbed.trans {m₁ m₂ m₃ : Mem cfg} (h₁₂ : Undisturbed m₁ m₂)
    (h₂₃ : Undisturbed m₂ m₃) : Undisturbed m₁ m₃ :=
  ⟨h₂₃.file.trans h₁₂.file, h₂₃.currProd.trans h₁₂.currProd,
    fun t ht => h₂₃.asleep t (h₁₂.asleep t ht), h₂₃.done.trans h₁₂.done,
    h₂₃.exited.trans h₁₂.exited⟩

theorem undisturbed_holding (k : Fin cfg.K) (m : Mem cfg) : Undisturbed m (holding k m) :=
  ⟨rfl, rfl, fun _ ht => ht, rfl, rfl⟩

theorem undisturbed_claiming (k : Fin cfg.K) (m : Mem cfg) : Undisturbed m (claiming k m) :=
  ⟨rfl, rfl, fun _ ht => ht, rfl, rfl⟩

theorem undisturbed_entering (k : Fin cfg.K) (idx : Fin cfg.N) (m : Mem cfg) :
    Undisturbed m (entering k idx m) :=
  ⟨rfl, rfl, fun _ ht => ht, rfl, rfl⟩

/-- After a consumer has emptied slot `idx` and freed the line, `curr_cons` being `cur`. -/
structure Taken (idx cur : Fin cfg.N) (m m' : Mem cfg) : Prop extends Undisturbed m m' where
  slots : m'.sharedResource = Function.update m.sharedResource idx none
  currCons : m'.currCons = cur
  unlocked : m'.owner (.slot idx) = none
  owner : ∀ s, s ≠ .slot idx → m'.owner s = m.owner s

/-- A consumer that holds the mutex of its slot empties the slot. -/
theorem solo_take (k : Fin cfg.K) (idx : Fin cfg.N) (m : Mem cfg) :
    ∃ m', (program cfg spurious).Solo (.cons k) (m, .readLine idx) (m', .lockCons) ∧
      Taken idx m.currCons m m' := by
  let line := m.sharedResource idx
  let m₁ : Mem cfg := ((m.withStore (m.clear idx)).broadcast .write).unlock (.slot idx)
  obtain ⟨out, hout⟩ := Store.examine_eq k line m₁.toStore
  let m₂ : Mem cfg := m₁.withStore (m₁.examine k line)
  obtain ⟨heap, hheap, -⟩ := Store.free_eq line m₂.toStore
  refine ⟨m₂.withStore (m₂.free line), ?_, ?_⟩
  · exact .head rfl (.head rfl (.head rfl (.head rfl (.head rfl (.head rfl (.refl _))))))
  · have hstore : m₂.free line = { m₁.toStore with found := out, heap := heap } := by
      rw [hheap]
      show { m₁.examine k line with heap := heap } = _
      rw [hout]
    rw [hstore]
    refine ⟨⟨rfl, rfl, ?_, rfl, rfl⟩, rfl, rfl, Function.update_self _ _ _, ?_⟩
    · intro t ht
      show (if m.asleep t = some .write then none else m.asleep t) = none
      rw [ht]
      rfl
    · intro s hs
      exact Function.update_of_ne hs _ _

/-- A consumer takes the line at `curr_cons` when nobody is in its way. -/
theorem solo_consume (k : Fin cfg.K) (hcons : m.owner .cons = none)
    (hslot : m.owner (.slot m.currCons) = none) (hfull : m.sharedResource m.currCons ≠ none) :
    ∃ m', (program cfg spurious).Solo (.cons k) (m, .lockCons) (m', .lockCons) ∧
      Taken m.currCons (cfg.next m.currCons) m m' := by
  let m₁ := entering k m.currCons (claiming k m)
  obtain ⟨m', htake, ht⟩ := solo_take spurious k m.currCons m₁
  have hfree : (claiming k m).owner (.slot m.currCons) = none :=
    (claiming_owner k m (by simp)).trans hslot
  refine ⟨m', ?_, ⟨ht.file, ht.currProd, ht.asleep, ht.done, ht.exited⟩, ht.slots, ht.currCons,
    ht.unlocked, ?_⟩
  · exact (solo_claim spurious k hcons hfull).trans ((solo_enter spurious k _ hfree).trans htake)
  · intro s hs
    rw [ht.owner s hs]
    by_cases hs' : s = .cons
    · rw [hs', hcons]
      exact entering_cons _ _ _
    · exact (entering_owner k _ hs' hs).trans (claiming_owner k m hs')

/-- A consumer that finds the slot at `curr_cons` empty tests `done_producing` next. -/
theorem solo_look (k : Fin cfg.K) (hcons : m.owner .cons = none)
    (hempty : m.sharedResource m.currCons = none) :
    (program cfg spurious).Solo (.cons k) (m, .lockCons) (holding k m, .testDone) := by
  have hlock : consume spurious k m .lockCons = some (holding k m, .readCursor) :=
    congrArg (Option.map (·, Consume.readCursor)) (lock_of_none hcons)
  have htest : consume spurious k (holding k m) (.testSlot m.currCons)
      = some (holding k m, .testDone) := if_pos hempty
  exact .head hlock (.head rfl (.head htest (.refl _)))

/-- A consumer that finds `done_producing` set returns. -/
theorem solo_leave (k : Fin cfg.K) (hdone : m.doneProducing = true) :
    (program cfg spurious).Solo (.cons k) (m, .testDone)
      ((m.unlock .cons).withStore ((m.unlock .cons).exit (.cons k)), .returned) := by
  have htest : consume spurious k m .testDone = some (m, .unlockDone) := if_pos hdone
  exact .head htest (.head rfl (.head rfl (.refl _)))

/-! ### The main thread -/

/-- The main thread joins producers that have returned. -/
theorem solo_joinProds (h : ∀ p, m.exited (.prod p) = true) :
    (program cfg spurious).Solo .main (m, .joinProd 0) (m, .setDone) := by
  have key : ∀ n, n ≤ cfg.P →
      (program cfg spurious).Solo .main (m, .joinProd 0) (m, .joinProd n) := by
    intro n
    induction n with
    | zero => exact fun _ => .refl _
    | succ n ih =>
      intro hn
      have hjoin : waitThreads m (.joinProd n) = some (m, .joinProd (n + 1)) := by
        simp only [waitThreads, dif_pos (show n < cfg.P from hn), h, if_true]
      exact (ih (by omega)).trans (.head hjoin (.refl _))
  have hlast : waitThreads m (.joinProd cfg.P) = some (m, .setDone) :=
    dif_neg (lt_irrefl cfg.P)
  exact (key cfg.P le_rfl).trans (.head hlast (.refl _))

/-- The main thread joins consumers that have returned. -/
theorem solo_joinConsumers (h : ∀ k, m.exited (.cons k) = true) :
    (program cfg spurious).Solo .main (m, .joinCons 0) (m, .cleanUp) := by
  have key : ∀ n, n ≤ cfg.K →
      (program cfg spurious).Solo .main (m, .joinCons 0) (m, .joinCons n) := by
    intro n
    induction n with
    | zero => exact fun _ => .refl _
    | succ n ih =>
      intro hn
      have hjoin : waitThreads m (.joinCons n) = some (m, .joinCons (n + 1)) := by
        simp only [waitThreads, dif_pos (show n < cfg.K from hn), h, if_true]
      exact (ih (by omega)).trans (.head hjoin (.refl _))
  have hlast : waitThreads m (.joinCons cfg.K) = some (m, .cleanUp) :=
    dif_neg (lt_irrefl cfg.K)
  exact (key cfg.K le_rfl).trans (.head hlast (.refl _))

end Mutex
end ProdCons
end OpSys
