import OpSys.ProdCons.Sem.Order

/-!
# Whether all lines are taken

A consumer tests `done_producing` after it has posted the consumer semaphore, and
does not look at the slot again.  If a line is stored and the producers end between
the two tests of every consumer, nobody takes the line.  It is the last consumer to
return that decides: if it finds `done_producing` set while the slot at `curr_cons`
is still `NULL`, every line read from the file has been taken exactly once.

## Main definitions

* `Completed` — whenever all consumers have returned, all lines have been taken.
* `Watchful` — the condition on the last test of `done_producing`.

## Main results

* `completed_run_iff` — a run is completed if and only if its steps are watchful.
* `line_left_behind` — a run in which the only line is not taken.
-/

namespace OpSys
namespace ProdCons
namespace Sem

variable {cfg : Config} {m m' : Mem cfg} {b : Books cfg}

/-- Whenever all consumers have returned, all lines have been taken. -/
def Completed (s : Global (Mem cfg × Books cfg) (Local cfg)) : Prop :=
  (∀ k, s.loc (.cons k) = .returned) → AllTaken s.mem.1.toStore s.mem.2.toHistory

/-- The last consumer to return tests `done_producing` while the slot at `curr_cons` is still
`NULL`. -/
def Watchful (cfg : Config) : (t : Thread cfg) → Mem cfg × Books cfg → Local cfg t → Prop
  | .cons k, s, l => l = .testDone → s.1.doneProducing = true → cfg.fullInfo ≠ 0 →
      (∀ k', k' ≠ k → s.1.exited (.cons k') = true) → s.1.sharedResource s.1.currCons = none
  | _, _, _ => True

instance (t : Thread cfg) (s : Mem cfg × Books cfg) (l : Local cfg t) :
    Decidable (Watchful cfg t s l) :=
  match t with
  | .main | .prod _ => isTrue trivial
  | .cons _ => inferInstanceAs (Decidable (_ → _ → _ → _ → _))

/-- The producers have returned and the consumers have come to an empty slot. -/
def Drained (m : Mem cfg) : Prop :=
  m.doneProducing = true ∧ m.sharedResource m.currCons = none

/-- A consumer returns from its test of `done_producing` only. -/
theorem consume_returned {k : Fin cfg.K} {l : Consume cfg}
    (h : consume k m l = some (m', .returned)) :
    l = .testDone ∧ m.doneProducing = true ∧ cfg.fullInfo ≠ 0 ∧
      m' = m.withStore (m.exit (.cons k)) := by
  cases l with
  | testDone =>
    simp only [Sem.consume] at h
    split at h
    case isTrue hdone =>
      simp only [Bool.and_eq_true, bne_iff_ne] at hdone
      exact ⟨rfl, hdone.1, hdone.2, (Prod.mk.inj (Option.some.inj h)).1.symm⟩
    case isFalse => simp at h
  | testSlot cur =>
    simp only [Sem.consume] at h
    split at h <;> simp at h
  | _ => simp [Sem.consume] at h

/-- The main thread leaves the slots and `curr_cons` alone. -/
theorem waitThreads_slots {l l' : WaitThreads} (h : waitThreads m l = some (m', l')) :
    m'.sharedResource = m.sharedResource ∧ m'.currCons = m.currCons ∧
      (m.doneProducing = true → m'.doneProducing = true) := by
  cases l with
  | joinProd | joinCons =>
    simp only [waitThreads] at h
    split at h
    · split at h
      · obtain ⟨rfl, -⟩ := Prod.mk.inj (Option.some.inj h)
        exact ⟨rfl, rfl, id⟩
      · exact absurd h (Option.some_ne_none _).symm
    · obtain ⟨rfl, -⟩ := Prod.mk.inj (Option.some.inj h)
      exact ⟨rfl, rfl, id⟩
  | setDone =>
    obtain ⟨rfl, -⟩ := Prod.mk.inj (Option.some.inj h)
    exact ⟨rfl, rfl, fun _ => rfl⟩
  | cleanUp => exact absurd h (Option.some_ne_none _).symm

/-- Once all consumers have returned the store is drained. -/
def EndsDrained (m : Mem cfg) : Prop := (∀ k, m.exited (.cons k) = true) → Drained m

/-- A watchful step keeps this so. -/
theorem endsDrained_step {t : Thread cfg} {s s' : Mem cfg × Books cfg} {l l' : Local cfg t}
    (hok : Watchful cfg t s l) (hI : SemInv s.1 s.2) (hE : EndsDrained s.1)
    (hA : Knowledge cfg t s l) (hstep : (booked cfg).step t s l = some (s', l')) :
    EndsDrained s'.1 := by
  obtain ⟨m, b⟩ := s
  obtain ⟨m', b'⟩ := s'
  obtain ⟨-, hA', hG⟩ := booked_keeps hI hA hstep
  obtain ⟨hmem, -⟩ := (Program.withHistory_step_eq_some _ _).mp hstep
  intro hall
  -- whoever does not step had returned before
  have hbefore : ∀ k, .cons k ≠ t → m.exited (.cons k) = true :=
    fun k hk => (hG.exited _ hk).symm.trans (hall k)
  cases t with
  | main =>
    obtain ⟨hdone, hempty⟩ : Drained m := hE fun k => hbefore k (by simp)
    obtain ⟨hslots, hcur, hset⟩ := waitThreads_slots hmem
    refine ⟨hset hdone, ?_⟩
    show m'.sharedResource m'.currCons = none
    rw [hslots, hcur]
    exact hempty
  | prod p =>
    have hd : Drained m := hE fun k => hbefore k (by simp)
    -- the producers have all returned
    have hret : l = .returned := hA.1.mp (hI.done hd.1 p)
    subst hret
    exact absurd hmem (Option.some_ne_none _).symm
  | cons k =>
    -- it is this step that returns
    have hret : l' = .returned := hA'.1.mp (hall k)
    subst hret
    obtain ⟨rfl, hdone, hfull, rfl⟩ := consume_returned hmem
    exact ⟨hdone, hok rfl hdone hfull fun k' hk' => hbefore k' (by simpa using hk')⟩

/-! ### The end of a run -/

/-- When all consumers have returned and the store is drained, nobody holds the consumer
semaphore and every claim has been taken. -/
theorem claims_taken {s : Global (Mem cfg × Books cfg) (Local cfg)}
    (hI : SemInv s.mem.1 s.mem.2) (hA : ∀ t, Knowledge cfg t s.mem (s.loc t))
    (hd : Drained s.mem.1) (hret : ∀ k, s.loc (.cons k) = .returned) :
    s.mem.2.claims.length ≤ s.mem.2.takes.length := by
  have hfree : s.mem.2.holder .cons = none := by
    cases hh : s.mem.2.holder .cons with
    | none => rfl
    | some t =>
      obtain ⟨k, rfl⟩ := hI.consHolder t hh
      have hk : ConsKnows k s.mem.1 s.mem.2 (s.loc (.cons k)) := hA (.cons k)
      rw [hret k] at hk
      exact absurd hh hk.2
  -- the slot of the next turn is empty, so the next claim has no block
  have hblock : s.mem.2.block s.mem.2.takes.length = none := by
    have hnull := hd.2
    rwa [hI.currCons, (hI.idleCons hfree).2, hI.current_slot] at hnull
  by_contra hlt
  have hlt : s.mem.2.takes.length < s.mem.2.claims.length := not_le.mp hlt
  obtain ⟨⟨p, i⟩, hclaim⟩ : ∃ c, s.mem.2.claims[s.mem.2.takes.length]? = some c :=
    ⟨_, List.getElem?_eq_getElem hlt⟩
  obtain ⟨line, hline⟩ := hI.accounts.claim_line _ p i hclaim
  -- but its producer has returned and left no line behind
  have hp : ProdKnows p s.mem.1 s.mem.2 (s.loc (.prod p)) := hA (.prod p)
  rw [hp.1.mp (hI.done hd.1 p)] at hp
  obtain ⟨q, hq⟩ := hp.2 i line hline
  obtain ⟨j, hj⟩ := hI.owned q (hI.fresh ▸ (List.getElem?_eq_some_iff.mp hq).1)
  have hcj : s.mem.2.claims[j]? = some (p, i) := (hI.block j q hj).2 ▸ hq
  rw [hI.accounts.claim_once hclaim hcj, hj] at hblock
  exact Option.some_ne_none q hblock

/-- When the producers have returned and every claim has been taken, all lines have been
taken. -/
theorem allTaken_of_claims {s : Global (Mem cfg × Books cfg) (Local cfg)}
    (hI : SemInv s.mem.1 s.mem.2) (hA : ∀ t, Knowledge cfg t s.mem (s.loc t))
    (hret : ∀ p, s.loc (.prod p) = .returned)
    (hall : s.mem.2.claims.length ≤ s.mem.2.takes.length) :
    AllTaken s.mem.1.toStore s.mem.2.toHistory := by
  constructor
  · intro i hi
    obtain ⟨⟨p, line⟩, hline⟩ : ∃ c, s.mem.2.lines[i]? = some c :=
      ⟨_, List.getElem?_eq_getElem hi⟩
    have hp : ProdKnows p s.mem.1 s.mem.2 (s.loc (.prod p)) := hA (.prod p)
    rw [hret p] at hp
    obtain ⟨q, hq⟩ := hp.2 i line hline
    obtain ⟨n, hn⟩ := hI.owned q (hI.fresh ▸ (List.getElem?_eq_some_iff.mp hq).1)
    have hcn : s.mem.2.claims[n]? = some (p, i) := (hI.block n q hn).2 ▸ hq
    have hlt : n < s.mem.2.takes.length := lt_of_lt_of_le (hI.lt_claims hn) hall
    refine ⟨n, ?_, ?_⟩
    · obtain ⟨x, hx⟩ : ∃ x, s.mem.2.takes[n]? = some x := ⟨_, List.getElem?_eq_getElem hlt⟩
      obtain ⟨-, -, p', i', line', q', -, -, hq', hptr, -⟩ := hI.takes n x hx
      obtain rfl := Option.some.inj (hn.symm.trans hq')
      exact ⟨x, q, hx, hptr, by rw [hq]; rfl⟩
    · rintro n' ⟨x', q', hx', hptr', hserial⟩
      obtain ⟨-, -, p', i', line', q'', hclaim', -, hq'', hptr'', -⟩ := hI.takes n' x' hx'
      obtain rfl := Option.some.inj (hptr'.symm.trans hptr'')
      rw [(hI.block n' q' hq'').2, hclaim'] at hserial
      obtain rfl : i' = i := Option.some.inj hserial
      exact hI.accounts.claim_once hclaim' hcn
  · intro i
    obtain ⟨j, hj, hjN, rfl⟩ := Ring.exists_place cfg.N_pos s.mem.2.takes.length i
    rw [hI.shows j hj hjN]
    exact hI.unclaimed j (hall.trans hj)

theorem completed_of_drained {s : Global (Mem cfg × Books cfg) (Local cfg)}
    (hI : SemInv s.mem.1 s.mem.2) (hA : ∀ t, Knowledge cfg t s.mem (s.loc t))
    (hE : EndsDrained s.mem.1) : Completed s := by
  intro hret
  have hd : Drained s.mem.1 := by
    apply hE
    intro k
    have hk : ConsKnows k s.mem.1 s.mem.2 (s.loc (.cons k)) := hA (.cons k)
    exact hk.1.mpr (hret k)
  have hprods : ∀ p, s.loc (.prod p) = .returned := by
    intro p
    have hp : ProdKnows p s.mem.1 s.mem.2 (s.loc (.prod p)) := hA (.prod p)
    exact hp.1.mp (hI.done hd.1 p)
  exact allTaken_of_claims hI hA hprods (claims_taken hI hA hd hret)

theorem completed_of_meets {text : List UInt8} {sched : List (Thread cfg)}
    (hmeets : (booked cfg).Meets (Watchful cfg) sched (bookStart cfg text)) :
    Completed ((booked cfg).run sched (bookStart cfg text)) := by
  have key := hmeets.reachIf.relyGuarantee
    (I := fun s => SemInv s.1 s.2 ∧ EndsDrained s.1) (A := Knowledge cfg)
    (G := fun t s s' => Guar t s.1 s.2 s'.1 s'.2) ?_ ?_ ?_ (knowledge_start cfg text)
  · exact completed_of_drained key.1.1 key.2 key.1.2
  · intro t s l s' l' hok hI hA hstep
    obtain ⟨hI', hA', hG⟩ := booked_keeps hI.1 hA hstep
    exact ⟨⟨hI', endsDrained_step hok hI.1 hI.2 hA hstep⟩, hA', hG⟩
  · intro t u s s' l hne _ _ hG hA
    exact Knowledge.frame hne hG hA
  · refine ⟨semInv_start cfg text, ?_⟩
    intro hall
    exact absurd (hall ⟨0, cfg.K_pos⟩) Bool.false_ne_true

/-! ### When a line is left behind -/

section Abandoned

variable {s s' : Global (Mem cfg × Books cfg) (Local cfg)}

/-- The producers and the consumers have returned, and there is a line in a slot. -/
structure Abandoned (s : Global (Mem cfg × Books cfg) (Local cfg)) : Prop where
  prods : ∀ p, s.loc (.prod p) = .returned
  consumers : ∀ k, s.loc (.cons k) = .returned
  full : ∃ i, s.mem.1.sharedResource i ≠ none

/-- Nobody takes the line any more. -/
theorem Abandoned.step {t : Thread cfg} (h : Abandoned s)
    (hnext : (booked cfg).next t s = some s') : Abandoned s' := by
  obtain ⟨⟨m', b'⟩, l', hstep, rfl⟩ := Program.next_eq_some _ hnext
  obtain ⟨hmem, -⟩ := (Program.withHistory_step_eq_some _ _).mp hstep
  have hothers : ∀ u, u ≠ t → Function.update s.loc t l' u = s.loc u :=
    fun u hu => Function.update_of_ne hu _ _
  cases t with
  | main =>
    have hslots : m'.sharedResource = s.mem.1.sharedResource := (waitThreads_slots hmem).1
    obtain ⟨i, hi⟩ := h.full
    refine ⟨?_, ?_, i, ?_⟩
    · exact fun p => (hothers (.prod p) (by simp)).trans (h.prods p)
    · exact fun k => (hothers (.cons k) (by simp)).trans (h.consumers k)
    · show m'.sharedResource i ≠ none
      rw [hslots]
      exact hi
  | prod p =>
    rw [h.prods p] at hmem
    exact absurd hmem (Option.some_ne_none _).symm
  | cons k =>
    rw [h.consumers k] at hmem
    exact absurd hmem (Option.some_ne_none _).symm

theorem Abandoned.run (h : Abandoned s) (sched : List (Thread cfg)) :
    Abandoned ((booked cfg).run sched s) :=
  ((booked cfg).reach_run sched s).invariant h fun _ _ _ _ hs => hs.step

theorem Abandoned.not_completed (h : Abandoned s) : ¬ Completed s := by
  intro hc
  obtain ⟨i, hi⟩ := h.full
  exact hi ((hc h.consumers).2 i)

/-- If the last consumer to return leaves a line in the slot at `curr_cons`, it is left for
ever. -/
theorem abandoned_of_return {text : List UInt8} {k : Fin cfg.K}
    (h : (booked cfg).Reach (bookStart cfg text) s) (htest : s.loc (.cons k) = .testDone)
    (hdone : s.mem.1.doneProducing = true) (hfull : cfg.fullInfo ≠ 0)
    (hothers : ∀ k', k' ≠ k → s.mem.1.exited (.cons k') = true)
    (hline : s.mem.1.sharedResource s.mem.1.currCons ≠ none) :
    ∃ s', (booked cfg).next (.cons k) s = some s' ∧ Abandoned s' := by
  obtain ⟨hI, hA⟩ := knows_of_reach h
  have hstep : consume k s.mem.1 .testDone =
      some (s.mem.1.withStore (s.mem.1.exit (.cons k)), .returned) := by
    apply if_pos
    simp only [Bool.and_eq_true, bne_iff_ne]
    exact ⟨hdone, hfull⟩
  have hbooked : (booked cfg).step (.cons k) s.mem (s.loc (.cons k)) =
      some ((s.mem.1.withStore (s.mem.1.exit (.cons k)), s.mem.2), .returned) := by
    rw [htest]
    exact (Program.withHistory_step_eq_some _ _).mpr ⟨hstep, rfl⟩
  have hnext : (booked cfg).next (.cons k) s =
      some ⟨(s.mem.1.withStore (s.mem.1.exit (.cons k)), s.mem.2),
        Function.update s.loc (.cons k) .returned⟩ := by
    rw [Program.next, hbooked, Option.map_some]
  have hloc : ∀ u, u ≠ .cons k → Function.update s.loc (.cons k) .returned u = s.loc u :=
    fun u hu => Function.update_of_ne hu _ _
  refine ⟨_, hnext, ?_, ?_, s.mem.1.currCons, hline⟩
  · intro p
    have hp : ProdKnows p s.mem.1 s.mem.2 (s.loc (.prod p)) := hA (.prod p)
    exact (hloc (.prod p) (by simp)).trans (hp.1.mp (hI.done hdone p))
  · intro k'
    by_cases hk : k' = k
    · rw [hk]
      exact Function.update_self _ _ _
    · have hk' : ConsKnows k' s.mem.1 s.mem.2 (s.loc (.cons k')) := hA (.cons k')
      exact (hloc (.cons k') (by simpa using hk)).trans (hk'.1.mp (hothers k' hk))

/-- A run that ends well has been watchful. -/
theorem meets_of_completed {text : List UInt8} {sched : List (Thread cfg)}
    (h : (booked cfg).Reach (bookStart cfg text) s)
    (hc : Completed ((booked cfg).run sched s)) : (booked cfg).Meets (Watchful cfg) sched s := by
  induction sched generalizing s with
  | nil => trivial
  | cons t sched ih =>
    refine ⟨fun _ => ?_, ?_⟩
    · cases t with
      | main | prod p => trivial
      | cons k =>
        intro htest hdone hfull hothers
        by_contra hline
        obtain ⟨s', hnext, hleft⟩ := abandoned_of_return h htest hdone hfull hothers hline
        rw [Program.run_cons, hnext] at hc
        exact (hleft.run sched).not_completed hc
    · rw [Program.run_cons] at hc
      exact ih (h.trans ((booked cfg).reach_run [t] s)) hc

end Abandoned

/-- **All lines are taken in a run if and only if its steps are watchful**: whenever all
consumers have returned, every line read has been taken exactly once and all slots are
`NULL`. -/
theorem completed_run_iff (cfg : Config) (text : List UInt8) (sched : List (Thread cfg)) :
    Completed ((booked cfg).run sched (bookStart cfg text)) ↔
      (booked cfg).Meets (Watchful cfg) sched (bookStart cfg text) :=
  ⟨meets_of_completed (.refl _), completed_of_meets⟩

/-! ### A line left behind -/

/-- One producer, one consumer and one slot. -/
def one : Config := .counts 1 1 1 Nat.zero_lt_one Nat.zero_lt_one

/-- The only producer. -/
def producer : Thread one := .prod ⟨0, by decide⟩

/-- The only consumer. -/
def consumer : Thread one := .cons ⟨0, by decide⟩

/-- A run in which the consumer tests the slot before the line is stored and
`done_producing` after the producer has returned. -/
def lineLate : List (Thread one) :=
  List.replicate 4 consumer ++ List.replicate 15 producer ++ List.replicate 3 .main ++
    [consumer]

/-- **A line may be left behind**: the consumer returns and the line stays in its slot. -/
theorem line_left_behind : ¬ Completed ((booked one).run lineLate (bookStart one [10])) := by
  intro h
  have hslots := (h (by decide)).2 ⟨0, by decide⟩
  exact absurd hslots (by decide)

end Sem
end ProdCons
end OpSys
