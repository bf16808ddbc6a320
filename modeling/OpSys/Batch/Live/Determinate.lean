import OpSys.Batch.Live.Delivered

/-!
# A line with pipes has one result

If the programs read byte by byte, as programs do that read through `getc` and the like, a
line has one result: how the processes are interleaved, and how much a pipe holds, decides
how far each program gets, but not what it is told, and the last program ends in one way.

## Main definitions

* `Fits`, `Told` — an answer that the program before stands for, and a run of such answers.
* `Grows` — what later states keep.
* `BytewiseLine` — a line whose programs read byte by byte.
* `Determinate` — any two runs of the line are told the same.

## Main results

* `grows_of_reach`, `told_of_reach` — every answer fits, then and later.
* `Told.comparable` — what a program is told in two runs is comparable.
* `BytewiseLine.determinate` — a line has one result.

## References

`lab4_signals_and_pipes/batch_job_interpreter_pipes/cmd_interpreter_extd.c`.
-/

namespace OpSys
namespace Batch
namespace LiveLine

variable {α ω : Type*} {L : LiveLine α ω}
  {s s' : Global (Kernel L.totalProgs ω) (Local L.totalProgs)} {i : ℕ} {log log' : List Answer}

/-! ### What a program has sent stays sent -/

theorem sentOf_grows (h : log <:+ log') : L.sentOf i log <+: L.sentOf i log' := by
  obtain ⟨more, rfl⟩ := h
  induction more with
  | nil => exact List.prefix_rfl
  | cons a more ih => exact ih.trans (List.prefix_append _ _)

/-- What has been printed stays printed. -/
theorem printedOf_grows (h : log <:+ log') : L.printedOf i log <+: L.printedOf i log' := by
  obtain ⟨more, rfl⟩ := h
  induction more with
  | nil => exact List.prefix_rfl
  | cons a more ih => exact ih.trans (List.prefix_append _ _)

/-- A program without a write end sends nothing more. -/
theorem sentOf_of_no_end (hno : ∀ fd k, L.tableOf i log fd ≠ some (.writeEnd k))
    (h : log <:+ log') : L.sentOf i log' = L.sentOf i log ∧
      ∀ fd k, L.tableOf i log' fd ≠ some (.writeEnd k) := by
  obtain ⟨more, rfl⟩ := h
  induction more with
  | nil => exact ⟨rfl, hno⟩
  | cons a more ih =>
    obtain ⟨hsent, hend⟩ := ih
    refine ⟨?_, fun fd k => tableBy_ne (fun fd => hend fd k) fd⟩
    have hnone : sentBy (L.call i (more ++ log)) a (L.tableOf i (more ++ log)) = [] := by
      unfold sentBy
      split
      · split
        · rename_i k hfd
          exact absurd hfd (hend _ k)
        · rfl
      · rfl
    rw [List.cons_append, sentOf_cons, hnone, List.append_nil, hsent]

/-! ### Answers that fit -/

variable (L) in
/-- The answer `a` after `p` is right: it is decided by the program itself, or it is told what
the program before it has sent. -/
inductive Fits (s : Global (Kernel L.totalProgs ω) (Local L.totalProgs)) (i : Fin L.totalProgs)
    (p : List Answer) : Answer → Prop
  | plain {a : Answer} (h : L.plainAnswer i (L.tableOf i p) p = some a) : Fits s i p a
  | put {fd k : ℕ} {b : UInt8} (hcall : L.call i p = .write fd b)
      (hfd : L.tableOf i p fd = some (.writeEnd k)) : Fits s i p .done
  | eof {fd n : ℕ} {j : Fin L.totalProgs} (hcall : L.call i p = .read fd n)
      (hfd : L.tableOf i p fd = some (.readEnd j))
      (hall : L.receivedOf i p = L.sentOf j (L.logAt s j)) (hshut : L.Shut j (s.loc (.child j))) :
      Fits s i p (.bytes [])
  | take {fd n : ℕ} {j : Fin L.totalProgs} {bs : List UInt8} (hcall : L.call i p = .read fd n)
      (hfd : L.tableOf i p fd = some (.readEnd j)) (hne : bs ≠ []) (hlen : bs.length ≤ n + 1)
      (hpart : L.receivedOf i p ++ bs <+: L.sentOf j (L.logAt s j)) : Fits s i p (.bytes bs)

variable (L) in
/-- Every answer that a program has got fits. -/
def Told (s : Global (Kernel L.totalProgs ω) (Local L.totalProgs)) : Prop :=
  ∀ i a p, (a :: p) <:+ L.logAt s i → L.Fits s i p a

variable (L) in
/-- Logs grow, and a program that will not write to its pipe does not. -/
def Grows (s s' : Global (Kernel L.totalProgs ω) (Local L.totalProgs)) : Prop :=
  ∀ j : Fin L.totalProgs, L.logAt s j <:+ L.logAt s' j ∧
    (L.Shut j (s.loc (.child j)) → L.Shut j (s'.loc (.child j)) ∧
      L.sentOf j (L.logAt s' j) = L.sentOf j (L.logAt s j))

theorem Fits.mono {i : Fin L.totalProgs} {p : List Answer} {a : Answer} (h : L.Fits s i p a)
    (hgrows : L.Grows s s') : L.Fits s' i p a := by
  cases h with
  | plain h => exact .plain h
  | put hcall hfd => exact .put hcall hfd
  | @eof fd n j hcall hfd hall hshut =>
    obtain ⟨hshut', hsent⟩ := (hgrows j).2 hshut
    exact .eof hcall hfd (hall.trans hsent.symm) hshut'
  | @take fd n j bs hcall hfd hne hlen hpart =>
    exact .take hcall hfd hne hlen (hpart.trans (sentOf_grows (hgrows j).1))

/-- A call that has to do with a pipe has no plain answer. -/
theorem plainAnswer_of_end {fd : ℕ} {table : Table ω} {k : ℕ}
    (h : (∃ n, L.call i log = .read fd n) ∧ table fd = some (.readEnd k) ∨
      (∃ b, L.call i log = .write fd b) ∧ table fd = some (.writeEnd k)) :
    L.plainAnswer i table log = none := by
  rcases h with ⟨⟨n, hcall⟩, hfd⟩ | ⟨⟨b, hcall⟩, hfd⟩ <;> simp [plainAnswer, hcall, hfd]

/-- No answer fits a call of `exit`. -/
theorem Fits.call_ne_exit {i : Fin L.totalProgs} {p : List Answer} {a : Answer}
    (h : L.Fits s i p a) (status : ℕ) : L.call i p ≠ .exit status := by
  intro hexit
  cases h with
  | plain h => simp [plainAnswer, hexit] at h
  | put hcall hfd | eof hcall hfd hall hshut | take hcall hfd hne hlen hpart =>
    rw [hexit] at hcall
    exact absurd hcall Call.noConfusion

/-! ### One step -/

@[simp] theorem logAt_update_self (mem : Kernel L.totalProgs ω) (t : Fin L.totalProgs)
    (pc : ChildPc) :
    L.logAt ⟨mem, Function.update s.loc (.child t) pc⟩ t = pc.log := by
  rw [logAt]
  exact congrArg ChildPc.log (Function.update_self _ _ _)

theorem loc_update_of_ne {t j : Fin L.totalProgs} (h : j ≠ t) (mem : Kernel L.totalProgs ω)
    (pc : ChildPc) :
    (⟨mem, Function.update s.loc (.child t) pc⟩ : Global _ (Local L.totalProgs)).loc (.child j) =
      s.loc (.child j) :=
  Function.update_of_ne (fun heq => h (Who.child.inj heq)) _ _

/-- What a step of the child `t` does to its log. -/
theorem childStep_log (h : L.LiveInv s) {t : Fin L.totalProgs} {mem' : Kernel L.totalProgs ω}
    {pc' : ChildPc} (hstep : L.childStep t s.mem (s.loc (.child t)) = some (mem', pc')) :
    (pc'.log = L.logAt s t ∨ ∃ a, pc'.log = a :: L.logAt s t ∧ L.Fits s t (L.logAt s t) a) ∧
      (L.Shut t (s.loc (.child t)) → L.Shut t pc') := by
  by_cases hlaunched : launched (s.loc (.child t)) = false
  · obtain ⟨-, -, hpc', -⟩ := setup_step (h.child t) hlaunched hstep
    refine ⟨Or.inl ?_, fun hshut => ?_⟩
    · rw [log_of_not_launched hpc']
      exact (log_of_not_launched (Or.inl hlaunched)).symm
    · rcases hshut with ⟨log, heq, -⟩ | ⟨log, status, heq⟩
      · rw [heq] at hlaunched
        exact absurd hlaunched Bool.noConfusion
      · rw [heq] at hlaunched
        exact absurd hlaunched Bool.noConfusion
  · cases hpc : s.loc (.child t) with
    | dupOut | dupIn | close j =>
      rw [hpc] at hlaunched
      exact absurd rfl hlaunched
    | exited log status | killed log =>
      rw [hpc] at hstep
      exact absurd hstep (Option.some_ne_none _).symm
    | run log =>
      have htable := h.table_run hpc
      have hlog : L.logAt s t = log := by rw [logAt, hpc, ChildPc.log]
      rw [hpc] at hstep
      rw [hlog]
      have hown := L.ownEnds_tableOf t log
      -- the program that a pipe comes from
      have hbefore : ∀ {fd k}, s.mem.table t fd = some (.readEnd k) →
          ∃ j : Fin L.totalProgs, k = j ∧ t.val = j.val + 1 := by
        intro fd k hfd
        rw [htable] at hfd
        have hk := (hown.read fd k hfd).2
        exact ⟨⟨k, by omega⟩, rfl, hk⟩
      cases callStep_effect hstep with
      | @take fd n k hcall hfd hne =>
        obtain ⟨j, rfl, hj⟩ := hbefore hfd
        rw [htable] at hfd
        refine ⟨Or.inr ⟨_, rfl, .take hcall hfd ?_ (List.length_take_le _ _) ?_⟩,
          fun hshut => hshut.run_cons _⟩
        · intro hnil
          rcases List.take_eq_nil_iff.mp hnil with hzero | hnil
          · exact absurd hzero (Nat.succ_ne_zero n)
          · exact hne hnil
        · have hflow := (h.between j t hj).flow
          rw [hpc, ← hj] at hflow
          rw [logAt, hflow]
          exact List.prefix_append_right_inj _ |>.mpr (List.take_prefix _ _)
      | @eof fd n k hcall hfd hempty hno =>
        obtain ⟨j, rfl, hj⟩ := hbefore hfd
        rw [htable] at hfd
        have hbetween := h.between j t hj
        rw [hpc] at hbetween
        have hkilled : ∀ log', s.loc (.child j) ≠ .killed log' := by
          intro log' heq
          have hdeaf := hbetween.killed log' heq
          rw [← hj] at hdeaf
          exact hdeaf.not_has hfd
        refine ⟨Or.inr ⟨_, rfl, .eof hcall hfd ?_ (h.shut (by omega) hno hkilled)⟩,
          fun hshut => hshut.run_cons _⟩
        have hflow := hbetween.flow
        rw [hempty, List.append_nil, ← hj] at hflow
        exact hflow.symm
      | put hcall hfd hroom =>
        exact ⟨Or.inr ⟨_, rfl, .put hcall (htable ▸ hfd)⟩, fun hshut => hshut.run_cons _⟩
      | kill hcall hfd hno =>
        exact ⟨Or.inl rfl, fun hshut => absurd (htable ▸ hfd) hshut.not_has⟩
      | plain hanswer =>
        rw [htable] at hanswer
        exact ⟨Or.inr ⟨_, rfl, .plain hanswer⟩, fun hshut => hshut.run_cons _⟩
      | exit hcall => exact ⟨Or.inl rfl, fun _ => Or.inr ⟨_, _, rfl⟩⟩

/-! ### A run -/

theorem grows_of_step (h : L.LiveInv s) {t : Who L.totalProgs}
    (hnext : L.program.next t s = some s') : L.Grows s s' ∧ (L.Told s → L.Told s') := by
  obtain ⟨mem', pc', hstep, rfl⟩ := L.program.next_eq_some hnext
  cases t with
  | main =>
    -- the parent leaves the programs alone
    exact ⟨fun j => ⟨List.suffix_rfl, fun hshut => ⟨hshut, rfl⟩⟩,
      fun htold i a p hp => (htold i a p hp).mono fun j => ⟨List.suffix_rfl, fun hs => ⟨hs, rfl⟩⟩⟩
  | child t =>
    obtain ⟨hlog, hshut⟩ := childStep_log h hstep
    have hsuffix : L.logAt s t <:+ pc'.log := by
      rcases hlog with heq | ⟨a, heq, -⟩
      · rw [heq]
      · rw [heq]
        exact List.suffix_cons _ _
    have hgrows : L.Grows s ⟨mem', Function.update s.loc (.child t) pc'⟩ := by
      intro j
      by_cases hj : j = t
      · subst hj
        rw [logAt_update_self]
        refine ⟨hsuffix, fun hs => ⟨?_, ?_⟩⟩
        · change L.Shut j (Function.update s.loc (.child j) pc' (.child j))
          rw [Function.update_self]
          exact hshut hs
        · rcases hlog with heq | ⟨a, heq, hfits⟩
          · rw [heq]
          · rcases hs with ⟨log, hpc, hno⟩ | ⟨log, status, hpc⟩
            · have hlog : L.logAt s j = log := by rw [logAt, hpc, ChildPc.log]
              rw [← hlog] at hno
              exact (sentOf_of_no_end hno hsuffix).1
            · have hlog : L.logAt s j = log := by rw [logAt, hpc, ChildPc.log]
              rw [hlog] at hfits
              exact absurd ((h.child j).exited log status hpc) (hfits.call_ne_exit status)
      · rw [logAt, logAt, loc_update_of_ne hj]
        exact ⟨List.suffix_rfl, fun hs => ⟨hs, rfl⟩⟩
    refine ⟨hgrows, fun htold i a p hp => ?_⟩
    by_cases hi : i = t
    · subst hi
      rw [logAt_update_self] at hp
      rcases hlog with heq | ⟨a', heq, hfits⟩
      · rw [heq] at hp
        exact (htold i a p hp).mono hgrows
      · rw [heq] at hp
        rcases List.suffix_cons_iff.mp hp with hnew | hold
        · obtain ⟨rfl, rfl⟩ := List.cons.inj hnew
          exact hfits.mono hgrows
        · exact (htold i a p hold).mono hgrows
    · rw [logAt, loc_update_of_ne hi] at hp
      exact (htold i a p hp).mono hgrows

theorem told_of_reach (h : L.program.Reach L.start s) : L.Told s := by
  apply h.invariant
  · intro i a p hp
    exact absurd (List.suffix_nil.mp hp) (List.cons_ne_nil _ _)
  · intro t s s' hreach htold hnext
    exact (grows_of_step (liveInv_of_reach hreach) hnext).2 htold

/-! ### Two runs -/

theorem eq_of_prefixes {xs ys zs : List UInt8} (hx : xs <+: zs) (hy : ys <+: zs)
    (hlen : xs.length = ys.length) : xs = ys :=
  (List.prefix_of_prefix_length_le hx hy hlen.le).eq_of_length hlen

/-- A program that has exited in one run has not been told more in another. -/
theorem Told.suffix_of_exited (htold' : L.Told s') (h : L.LiveInv s) {i : Fin L.totalProgs}
    {log : List Answer} {status : ℕ} (hpc : s.loc (.child i) = .exited log status)
    (hcomp : log <:+ L.logAt s' i ∨ L.logAt s' i <:+ log) : L.logAt s' i <:+ log := by
  rcases hcomp with ⟨more, hmore⟩ | hle
  · rcases List.eq_nil_or_concat' more with rfl | ⟨more, a, rfl⟩
    · rw [← hmore]
      exact List.suffix_rfl
    · have hfits := htold' i a log ⟨more, by rw [← hmore]; simp⟩
      exact absurd ((h.child i).exited log status hpc) (hfits.call_ne_exit status)
  · exact hle

/-- A program that will not write any more has not sent more in another run. -/
theorem Shut.sentOf_le (h : L.LiveInv s) (htold' : L.Told s') {j : Fin L.totalProgs}
    (hshut : L.Shut j (s.loc (.child j)))
    (hcomp : L.logAt s j <:+ L.logAt s' j ∨ L.logAt s' j <:+ L.logAt s j) :
    L.sentOf j (L.logAt s' j) <+: L.sentOf j (L.logAt s j) := by
  rcases hshut with ⟨log, hpc, hno⟩ | ⟨log, status, hpc⟩
  · have hlog : L.logAt s j = log := by rw [logAt, hpc, ChildPc.log]
    rw [hlog] at hcomp ⊢
    rcases hcomp with hle | hge
    · rw [(sentOf_of_no_end hno hle).1]
    · exact LiveLine.sentOf_grows hge
  · have hlog : L.logAt s j = log := by rw [logAt, hpc, ChildPc.log]
    rw [hlog] at hcomp ⊢
    exact LiveLine.sentOf_grows (htold'.suffix_of_exited h hpc hcomp)

end LiveLine

/-- A line whose programs read byte by byte. -/
structure BytewiseLine (α ω : Type*) extends LiveLine α ω where
  bytewise : ∀ i log fd n, call i log = .read fd n → n = 0

/-- The programs of `echo h | cat` ask for one byte at a time. -/
theorem LiveLine.echoCat_bytewise (i : ℕ) (log : List Answer) (fd n : ℕ)
    (h : LiveLine.echoCat.call i log = .read fd n) : n = 0 := by
  simp only [echoCat] at h
  split at h <;> first
    | exact (Call.read.inj h).2.symm
    | exact absurd h Call.noConfusion

/-- The line `echo h | cat`. -/
def BytewiseLine.echoCat : BytewiseLine String Unit where
  toLiveLine := LiveLine.echoCat
  bytewise := LiveLine.echoCat_bytewise

namespace BytewiseLine

open LiveLine

variable {α ω : Type*} (L : BytewiseLine α ω)
  {s s' : Global (Kernel L.totalProgs ω) (Local L.totalProgs)}

/-- What fits after the same answers is the same. -/
theorem fits_unique {i : Fin L.totalProgs} {p : List Answer} {a b : Answer}
    (h : L.LiveInv s) (h' : L.LiveInv s') (htold : L.Told s) (htold' : L.Told s')
    (hcomp : ∀ j : Fin L.totalProgs, i.val = j.val + 1 →
      L.logAt s j <:+ L.logAt s' j ∨ L.logAt s' j <:+ L.logAt s j)
    (ha : L.Fits s i p a) (hb : L.Fits s' i p b) : a = b := by
  -- the calls are the same, so the two answers fit for the same reason
  have hplain : ∀ {c : Answer} {fd k : ℕ}, L.plainAnswer i (L.tableOf i p) p = some c →
      ¬((∃ n, L.call i p = .read fd n) ∧ L.tableOf i p fd = some (.readEnd k) ∨
        (∃ b, L.call i p = .write fd b) ∧ L.tableOf i p fd = some (.writeEnd k)) := by
    intro c fd k hc hend
    rw [plainAnswer_of_end hend] at hc
    exact absurd hc (Option.some_ne_none _).symm
  have hread : ∀ {fd n fd' n' : ℕ} {j j' : Fin L.totalProgs}, L.call i p = .read fd n →
      L.tableOf i p fd = some (.readEnd j) → L.call i p = .read fd' n' →
      L.tableOf i p fd' = some (.readEnd j') → n = 0 ∧ n' = 0 ∧ j = j' ∧ i.val = j.val + 1 := by
    intro fd n fd' n' j j' hcall hfd hcall' hfd'
    have hj := ((L.ownEnds_tableOf i p).read fd j hfd).2
    have hj' := ((L.ownEnds_tableOf i p).read fd' j' hfd').2
    exact ⟨L.bytewise _ _ _ _ hcall, L.bytewise _ _ _ _ hcall', Fin.ext (by omega), hj⟩
  cases ha with
  | plain ha =>
    cases hb with
    | plain hb => exact Option.some.inj (ha.symm.trans hb)
    | put hcall hfd => exact absurd (Or.inr ⟨⟨_, hcall⟩, hfd⟩) (hplain ha)
    | eof hcall hfd hall hshut => exact absurd (Or.inl ⟨⟨_, hcall⟩, hfd⟩) (hplain ha)
    | take hcall hfd hne hlen hpart => exact absurd (Or.inl ⟨⟨_, hcall⟩, hfd⟩) (hplain ha)
  | put hcall hfd =>
    cases hb with
    | plain hb => exact absurd (Or.inr ⟨⟨_, hcall⟩, hfd⟩) (hplain hb)
    | put hcall' hfd' => rfl
    | eof hcall' hfd' hall hshut => exact absurd (hcall.symm.trans hcall') Call.noConfusion
    | take hcall' hfd' hne hlen hpart => exact absurd (hcall.symm.trans hcall') Call.noConfusion
  | eof hcall hfd hall hshut =>
    cases hb with
    | plain hb => exact absurd (Or.inl ⟨⟨_, hcall⟩, hfd⟩) (hplain hb)
    | put hcall' hfd' => exact absurd (hcall.symm.trans hcall') Call.noConfusion
    | eof hcall' hfd' hall' hshut' => rfl
    | take hcall' hfd' hne hlen hpart =>
      -- the end in one run, a byte in the other
      obtain ⟨-, -, rfl, hj⟩ := hread hcall hfd hcall' hfd'
      have hle := (hpart.trans (hshut.sentOf_le h htold' (hcomp _ hj))).length_le
      rw [← hall, List.length_append] at hle
      exact absurd (List.length_eq_zero_iff.mp (by omega)) hne
  | @take fd n j bs hcall hfd hne hlen hpart =>
    cases hb with
    | plain hb => exact absurd (Or.inl ⟨⟨_, hcall⟩, hfd⟩) (hplain hb)
    | put hcall' hfd' => exact absurd (hcall.symm.trans hcall') Call.noConfusion
    | eof hcall' hfd' hall hshut =>
      obtain ⟨-, -, rfl, hj⟩ := hread hcall hfd hcall' hfd'
      have hle := (hpart.trans (hshut.sentOf_le h' htold (hcomp _ hj).symm)).length_le
      rw [← hall, List.length_append] at hle
      exact absurd (List.length_eq_zero_iff.mp (by omega)) hne
    | @take fd' n' j' bs' hcall' hfd' hne' hlen' hpart' =>
      -- a byte in both, at the same place
      obtain ⟨hn, hn', rfl, hj⟩ := hread hcall hfd hcall' hfd'
      have hone := List.length_pos_iff.mpr hne
      have hone' := List.length_pos_iff.mpr hne'
      have hsame : L.receivedOf i p ++ bs = L.receivedOf i p ++ bs' := by
        rcases hcomp _ hj with hle | hge
        · exact eq_of_prefixes (hpart.trans (LiveLine.sentOf_grows hle)) hpart' (by simp; omega)
        · exact eq_of_prefixes hpart (hpart'.trans (LiveLine.sentOf_grows hge)) (by simp; omega)
      rw [List.append_cancel_left hsame]

/-- **What a program is told in two runs is comparable.** -/
theorem comparable (h : L.LiveInv s) (h' : L.LiveInv s') (htold : L.Told s) (htold' : L.Told s') :
    ∀ i : Fin L.totalProgs, L.logAt s i <:+ L.logAt s' i ∨ L.logAt s' i <:+ L.logAt s i := by
  have key : ∀ n, ∀ i : Fin L.totalProgs, i.val = n →
      (L.logAt s i <:+ L.logAt s' i ∨ L.logAt s' i <:+ L.logAt s i) := by
    intro n
    induction n with
    | zero =>
      intro i hi
      apply Logs.suffix_or_suffix
      intro a b p ha hb
      refine L.fits_unique h h' htold htold' (fun j hj => ?_) (htold i a p ha) (htold' i b p hb)
      omega
    | succ n ih =>
      intro i hi
      apply Logs.suffix_or_suffix
      intro a b p ha hb
      exact L.fits_unique h h' htold htold' (fun j hj => ih j (by omega)) (htold i a p ha)
        (htold' i b p hb)
  exact fun i => key i i rfl

/-- Any two runs of the line are told the same. -/
structure Determinate : Prop where
  /-- In one of two runs a program has been told what it has been told in the other, and more. -/
  comparable : ∀ sched sched' (i : Fin L.totalProgs),
    L.logAt (L.program.run sched L.start) i <:+ L.logAt (L.program.run sched' L.start) i ∨
      L.logAt (L.program.run sched' L.start) i <:+ L.logAt (L.program.run sched L.start) i
  /-- So it has printed what it has printed in the other, and more. -/
  printed : ∀ sched sched' (i : Fin L.totalProgs),
    L.printedOf i (L.logAt (L.program.run sched L.start) i) <+:
        L.printedOf i (L.logAt (L.program.run sched' L.start) i) ∨
      L.printedOf i (L.logAt (L.program.run sched' L.start) i) <+:
        L.printedOf i (L.logAt (L.program.run sched L.start) i)
  /-- A program that exits in both exits in one way. -/
  exited : ∀ sched sched' (i : Fin L.totalProgs) log log' status status',
    (L.program.run sched L.start).loc (.child i) = .exited log status →
      (L.program.run sched' L.start).loc (.child i) = .exited log' status' →
      log = log' ∧ status = status'
  /-- The last program ends in one way. -/
  last : ∀ sched sched' (i : Fin L.totalProgs), i.val + 1 = L.totalProgs →
    hasEnded ((L.program.run sched L.start).loc (.child i)) = true →
      hasEnded ((L.program.run sched' L.start).loc (.child i)) = true →
      (L.program.run sched L.start).loc (.child i) =
        (L.program.run sched' L.start).loc (.child i)

end BytewiseLine

end Batch
end OpSys
