import OpSys.Batch.Live.Invariant

/-!
# The reachable states of a running line

The invariant holds at the start and every step keeps it.

## Main definitions

* `Touches` — what a step of a child may change.

## Main results

* `mainStep_keeps`, `childStep_keeps` — a step of the parent and of a child.
* `liveInv_of_reach` — the invariant holds in every reachable state.

## References

`lab4_signals_and_pipes/batch_job_interpreter_pipes/cmd_interpreter_extd.c`.
-/

namespace OpSys
namespace Batch
namespace LiveLine

variable {α ω : Type*} {L : LiveLine α ω} {mem mem' : Kernel L.totalProgs ω}
  {s : Global (Kernel L.totalProgs ω) (Local L.totalProgs)}

/-! ### What a step leaves alone -/

/-- What a step of the child `t` may change. -/
structure Touches (t : Fin L.totalProgs) (mem mem' : Kernel L.totalProgs ω) : Prop where
  main : mem'.main = mem.main
  forked : mem'.forked = mem.forked
  reaped : mem'.reaped = mem.reaped
  table : ∀ i, i ≠ t → mem'.table i = mem.table i
  ended : ∀ i, i ≠ t → mem'.ended i = mem.ended i
  stays : mem.ended t = true → mem'.ended t = true
  pipe : ∀ k, k ≠ t.val → k + 1 ≠ t.val → mem'.pipe k = mem.pipe k

theorem Touches.refl (t : Fin L.totalProgs) (mem : Kernel L.totalProgs ω) :
    Touches t mem mem :=
  ⟨rfl, rfl, rfl, fun _ _ => rfl, fun _ _ => rfl, id, fun _ _ _ => rfl⟩

theorem touches_setTable (t : Fin L.totalProgs) (mem : Kernel L.totalProgs ω) (table : Table ω) :
    Touches t mem (mem.setTable t table) :=
  ⟨rfl, rfl, rfl, fun _ hi => mem.setTable_table_of_ne t table hi, fun _ _ => rfl, id,
    fun _ _ _ => rfl⟩

theorem touches_exit (t : Fin L.totalProgs) (mem : Kernel L.totalProgs ω) :
    Touches t mem (mem.exit t) :=
  ⟨rfl, rfl, rfl, fun _ hi => mem.exit_table_of_ne t hi, fun _ hi => mem.exit_ended_of_ne t hi,
    fun _ => mem.exit_ended_self t, fun _ _ _ => rfl⟩

theorem touches_setPipe {t : Fin L.totalProgs} {k : ℕ} (hk : k = t.val ∨ k + 1 = t.val)
    (mem : Kernel L.totalProgs ω) (bs : List UInt8) : Touches t mem (mem.setPipe k bs) := by
  refine ⟨rfl, rfl, rfl, fun _ _ => rfl, fun _ _ => rfl, id, fun j hj hj' => ?_⟩
  apply Kernel.setPipe_pipe_of_ne
  omega

theorem Effect.touches {t : Fin L.totalProgs} {log : List Answer} {pc' : ChildPc}
    (htable : mem.table t = L.tableOf t log) (h : L.Effect t mem log mem' pc') :
    Touches t mem mem' := by
  have hown := L.ownEnds_tableOf t log
  rw [← htable] at hown
  cases h with
  | take hcall hfd hne => exact touches_setPipe (Or.inr (hown.read _ _ hfd).2.symm) _ _
  | eof hcall hfd hempty hno => exact Touches.refl t mem
  | put hcall hfd hroom => exact touches_setPipe (Or.inl (hown.write _ _ hfd).2.1.symm) _ _
  | kill hcall hfd hno => exact touches_exit t mem
  | plain hanswer => exact touches_setTable t mem _
  | exit hcall => exact touches_exit t mem

theorem Touches.endedCount_le {t : Fin L.totalProgs} (h : Touches t mem mem') :
    mem.endedCount ≤ mem'.endedCount := by
  apply List.countP_mono_left
  intro i _ hi
  by_cases heq : i = t
  · subst heq
    exact h.stays hi
  · rw [h.ended i heq]
    exact hi

theorem Touches.parent {t : Fin L.totalProgs} (h : Touches t mem mem') {pc : MainPc}
    (hp : L.ParentKnows mem pc) : L.ParentKnows mem' pc := by
  cases pc <;> simpa only [ParentKnows, h.main, h.forked, h.reaped] using hp

theorem ChildKnows.congr {i : Fin L.totalProgs} {pc : ChildPc} (h : L.ChildKnows i mem pc)
    (htable : mem'.table i = mem.table i) (hforked : mem'.forked = mem.forked)
    (hended : mem'.ended i = mem.ended i) : L.ChildKnows i mem' pc where
  table := by rw [htable, hforked]; exact h.table
  unforked := by rw [hforked]; exact h.unforked
  ended := hended.trans h.ended
  close := h.close
  exited := h.exited
  killed := h.killed

/-! ### A step of the parent -/

/-- A step of the parent that forks nobody. -/
theorem LiveInv.parent_moves (h : L.LiveInv s) {pc' : MainPc}
    (hparent : L.ParentKnows mem' pc') (htable : mem'.table = s.mem.table)
    (hforked : mem'.forked = s.mem.forked) (hended : mem'.ended = s.mem.ended)
    (hpipe : mem'.pipe = s.mem.pipe) (hreaped : mem'.reaped ≤ mem'.endedCount) :
    L.LiveInv ⟨mem', Function.update s.loc .main pc'⟩ where
  parent := by simpa using hparent
  child i := (h.child i).congr (congrFun htable i) hforked (congrFun hended i)
  reaped := hreaped
  between i j hj := by
    change L.Between i (mem'.pipe i) _ _
    rw [hpipe]
    exact h.between i j hj
  room k := by
    change (mem'.pipe k).length ≤ _
    rw [hpipe]
    exact h.room k

theorem mainStep_keeps (h : L.LiveInv s) {pc' : MainPc}
    (hstep : L.mainStep s.mem (s.loc .main) = some (mem', pc')) :
    L.LiveInv ⟨mem', Function.update s.loc .main pc'⟩ := by
  have hparent := h.parent
  cases hpc : s.loc .main with
  | fork currp =>
    rw [hpc] at hstep hparent
    obtain ⟨hmain, hforked, hle, hreaped⟩ := hparent
    simp only [mainStep] at hstep
    split at hstep
    · rename_i hlt
      obtain ⟨rfl, rfl⟩ := Prod.mk.inj (Option.some.inj hstep)
      have hnext : L.ParentKnows { s.mem.setTable ⟨currp, hlt⟩ s.mem.main with
          forked := currp + 1 } (.fork (currp + 1)) := ⟨hmain, rfl, hlt, hreaped⟩
      refine ⟨by simpa using hnext, fun i => ?_, h.reaped, h.between, h.room⟩
      have hchild := h.child i
      by_cases hi : i = ⟨currp, hlt⟩
      · -- the child that is forked gets a copy of the parent's table
        subst hi
        have hpci := hchild.unforked hforked.le
        refine ⟨?_, fun hge => absurd hge (Nat.not_succ_le_self currp), hchild.ended, hchild.close,
          hchild.exited, hchild.killed⟩
        change (s.mem.setTable _ _).table _ =
          if currp < currp + 1 then L.setupTable currp (s.loc (.child ⟨currp, hlt⟩)) else .empty
        rw [Kernel.setTable_table_self, if_pos (Nat.lt_succ_self currp), hpci, hmain]
        rfl
      · have hne : i.val ≠ currp := fun heq => hi (Fin.ext heq)
        refine ⟨?_, fun hge => hchild.unforked (by change currp + 1 ≤ i.val at hge; omega),
          hchild.ended, hchild.close, hchild.exited, hchild.killed⟩
        change (s.mem.setTable _ _).table i =
          if i.val < currp + 1 then L.setupTable i (s.loc (.child i)) else .empty
        rw [Kernel.setTable_table_of_ne _ _ _ hi, hchild.table, hforked]
        have hiff : i.val < currp ↔ i.val < currp + 1 := by omega
        simp only [hiff]
    · obtain ⟨rfl, rfl⟩ := Prod.mk.inj (Option.some.inj hstep)
      exact h.parent_moves ⟨hmain, by omega, hreaped, Nat.zero_le _⟩ rfl rfl rfl rfl h.reaped
  | close i =>
    rw [hpc] at hstep hparent
    obtain ⟨hmain, hforked, hreaped, hle⟩ := hparent
    simp only [mainStep] at hstep
    split at hstep
    · rename_i hlt
      obtain ⟨rfl, rfl⟩ := Prod.mk.inj (Option.some.inj hstep)
      refine h.parent_moves ⟨?_, hforked, hreaped, hlt⟩ rfl rfl rfl rfl h.reaped
      exact congrArg (Table.close · (L.fds i)) hmain
    · rename_i hge
      obtain ⟨rfl, rfl⟩ := Prod.mk.inj (Option.some.inj hstep)
      obtain rfl : i = 2 * L.totalProgs := by omega
      exact h.parent_moves ⟨hmain, hforked, hreaped, Nat.zero_le _⟩ rfl rfl rfl rfl h.reaped
  | wait i =>
    rw [hpc] at hstep hparent
    obtain ⟨hmain, hforked, hreaped, hle⟩ := hparent
    simp only [mainStep] at hstep
    split at hstep
    · rename_i hlt
      split at hstep
      · rename_i hmore
        obtain ⟨rfl, rfl⟩ := Prod.mk.inj (Option.some.inj hstep)
        exact h.parent_moves ⟨hmain, hforked, congrArg (· + 1) hreaped, hlt⟩ rfl rfl rfl rfl hmore
      · -- all children that were forked have been waited for only after the last `wait`
        split at hstep
        · rename_i hall
          omega
        · exact absurd hstep (Option.some_ne_none _).symm
    · obtain ⟨rfl, rfl⟩ := Prod.mk.inj (Option.some.inj hstep)
      exact h.parent_moves ⟨hforked, by omega⟩ rfl rfl rfl rfl h.reaped
  | nextLine =>
    rw [hpc] at hstep
    exact absurd hstep (Option.some_ne_none _).symm

/-! ### A step of a child -/

/-- A step of the child `t`, by what holds of it and of its neighbours afterwards. -/
theorem LiveInv.child_moves (h : L.LiveInv s) {t : Fin L.totalProgs} {pc' : ChildPc}
    (htouch : Touches t s.mem mem') (hknows : L.ChildKnows t mem' pc')
    (hwriter : ∀ j : Fin L.totalProgs, j.val = t.val + 1 →
      L.Between t (mem'.pipe t) pc' (s.loc (.child j)))
    (hreader : ∀ i : Fin L.totalProgs, t.val = i.val + 1 →
      L.Between i (mem'.pipe i) (s.loc (.child i)) pc')
    (hroom : ∀ k, (mem'.pipe k).length ≤ L.capacity) :
    L.LiveInv ⟨mem', Function.update s.loc (.child t) pc'⟩ where
  parent := by
    change L.ParentKnows mem' (Function.update s.loc (.child t) pc' .main)
    rw [Function.update_of_ne (by simp)]
    exact htouch.parent h.parent
  child i := by
    change L.ChildKnows i mem' (Function.update s.loc (.child t) pc' (.child i))
    by_cases hi : i = t
    · subst hi
      rwa [Function.update_self]
    · rw [Function.update_of_ne fun heq => hi (Who.child.inj heq)]
      exact (h.child i).congr (htouch.table i hi) htouch.forked (htouch.ended i hi)
  reaped := by
    change mem'.reaped ≤ mem'.endedCount
    rw [htouch.reaped]
    exact h.reaped.trans htouch.endedCount_le
  between i j hj := by
    change L.Between i (mem'.pipe i) (Function.update s.loc (.child t) pc' (.child i))
      (Function.update s.loc (.child t) pc' (.child j))
    by_cases hi : i = t
    · subst hi
      rw [Function.update_self, Function.update_of_ne]
      · exact hwriter j hj
      · intro heq
        have := congrArg Fin.val (Who.child.inj heq)
        omega
    · rw [Function.update_of_ne fun heq => hi (Who.child.inj heq)]
      by_cases hjt : j = t
      · subst hjt
        rw [Function.update_self]
        exact hreader i hj
      · rw [Function.update_of_ne fun heq => hjt (Who.child.inj heq),
          htouch.pipe i (fun heq => hi (Fin.ext heq)) fun heq => hjt (Fin.ext (hj.trans heq))]
        exact h.between i j hj
  room := hroom

/-- A step of a child before `execvp`. -/
theorem setup_step {t : Fin L.totalProgs} {pc pc' : ChildPc} (hk : L.ChildKnows t mem pc)
    (hpc : launched pc = false) (hstep : L.childStep t mem pc = some (mem', pc')) :
    t < mem.forked ∧ mem' = mem.setTable t (L.setupTable t pc') ∧
      (launched pc' = false ∨ pc' = .run []) ∧ ∀ j, pc' = .close j → j ≤ 2 * L.totalProgs := by
  have hforked : t < mem.forked := by
    by_contra hge
    have hstart := hk.unforked (by omega)
    subst hstart
    simp only [childStep, if_neg hge] at hstep
    exact absurd hstep (Option.some_ne_none _).symm
  have htable := hk.table
  rw [if_pos hforked] at htable
  cases pc with
  | dupOut =>
    simp only [childStep, if_pos hforked] at hstep
    split at hstep
    · rename_i hlt
      rw [htable, setupTable, L.outTable_eq t.2 hlt] at hstep
      obtain ⟨rfl, rfl⟩ := Prod.mk.inj (Option.some.inj hstep)
      exact ⟨hforked, rfl, Or.inl rfl, fun j hj => absurd hj ChildPc.noConfusion⟩
    · rename_i hlt
      obtain ⟨rfl, rfl⟩ := Prod.mk.inj (Option.some.inj hstep)
      refine ⟨hforked, ?_, Or.inl rfl, fun j hj => absurd hj ChildPc.noConfusion⟩
      have hsame : L.setupTable t .dupIn = mem.table t := by
        rw [htable]
        change L.outTable t = L.opened L.before
        rw [outTable, if_neg hlt]
      rw [hsame, Kernel.setTable_self]
  | dupIn =>
    simp only [childStep] at hstep
    split at hstep
    · rename_i hpos
      rw [htable, setupTable, L.inTable_eq t.2 hpos] at hstep
      obtain ⟨rfl, rfl⟩ := Prod.mk.inj (Option.some.inj hstep)
      refine ⟨hforked, rfl, Or.inl rfl, fun j hj => ?_⟩
      obtain rfl := ChildPc.close.inj hj
      exact Nat.zero_le _
    · rename_i hpos
      obtain ⟨rfl, rfl⟩ := Prod.mk.inj (Option.some.inj hstep)
      have hsame : L.setupTable t (.close 0) = mem.table t := by
        rw [htable]
        change L.inTable t = L.outTable t
        rw [inTable, if_neg hpos]
      refine ⟨hforked, by rw [hsame, Kernel.setTable_self], Or.inl rfl, fun j hj => ?_⟩
      obtain rfl := ChildPc.close.inj hj
      exact Nat.zero_le _
  | close j =>
    simp only [childStep] at hstep
    split at hstep
    · rename_i hlt
      rw [htable] at hstep
      obtain ⟨rfl, rfl⟩ := Prod.mk.inj (Option.some.inj hstep)
      refine ⟨hforked, rfl, Or.inl rfl, fun j' hj' => ?_⟩
      obtain rfl := ChildPc.close.inj hj'
      exact hlt
    · rename_i hge
      obtain ⟨rfl, rfl⟩ := Prod.mk.inj (Option.some.inj hstep)
      obtain rfl : j = 2 * L.totalProgs := le_antisymm (hk.close j rfl) (Nat.not_lt.mp hge)
      have hsame : L.setupTable t (.run []) = mem.table t := by
        rw [htable, setupTable, setupTable, closeAll_inTable, tableOf]
      exact ⟨hforked, by rw [hsame, Kernel.setTable_self], Or.inr rfl,
        fun j hj => absurd hj ChildPc.noConfusion⟩
  | run log => exact absurd hpc Bool.noConfusion
  | exited log status => exact absurd hpc Bool.noConfusion
  | killed log => exact absurd hpc Bool.noConfusion

theorem log_of_not_launched {pc : ChildPc} (h : launched pc = false ∨ pc = .run []) :
    pc.log = [] := by
  rcases h with h | rfl
  · cases pc with
    | dupOut | dupIn | close j => rfl
    | run log => exact absurd h Bool.noConfusion
    | exited log status => exact absurd h Bool.noConfusion
    | killed log => exact absurd h Bool.noConfusion
  · rfl

theorem ended_of_not_launched {pc : ChildPc} (h : launched pc = false ∨ pc = .run []) :
    hasEnded pc = false := by
  rcases h with h | rfl
  · cases pc with
    | dupOut | dupIn | close j | run log => rfl
    | exited log status => exact absurd h Bool.noConfusion
    | killed log => exact absurd h Bool.noConfusion
  · rfl

/-- A child goes on before `execvp`: nothing has been written, read or shut. -/
theorem setup_keeps (h : L.LiveInv s) {t : Fin L.totalProgs} {pc' : ChildPc}
    (hlaunched : launched (s.loc (.child t)) = false)
    (hstep : L.childStep t s.mem (s.loc (.child t)) = some (mem', pc')) :
    L.LiveInv ⟨mem', Function.update s.loc (.child t) pc'⟩ := by
  have hknows := h.child t
  obtain ⟨hforked, rfl, hpc', hclose⟩ := setup_step hknows hlaunched hstep
  have hlog := log_of_not_launched (Or.inl hlaunched)
  have hlog' := log_of_not_launched hpc'
  have hended' := ended_of_not_launched hpc'
  have hnotover : ∀ log, pc' ≠ .killed log := by
    rintro log rfl
    exact absurd hended' Bool.noConfusion
  refine h.child_moves (touches_setTable t _ _) ?_ (fun j hj => ?_) (fun i hi => ?_) h.room
  · refine ⟨?_, fun hge => absurd hforked (Nat.not_lt.mpr hge), ?_, hclose, ?_,
      fun log heq => absurd heq (hnotover log)⟩
    · rw [Kernel.setTable_table_self, Kernel.setTable_forked, if_pos hforked]
    · rw [Kernel.setTable_ended, hknows.ended, hended',
        ended_of_not_launched (Or.inl hlaunched)]
    · rintro log status rfl
      exact absurd hended' Bool.noConfusion
  · have hbetween := h.between t j hj
    refine ⟨?_, fun heof => ?_, fun log heq => absurd heq (hnotover log)⟩
    · rw [hlog', ← hlog]
      exact hbetween.flow
    · -- before `execvp` nothing is shut
      rcases (hbetween.eof heof).2 with ⟨log, heq, -⟩ | ⟨log, status, heq⟩
      · rw [heq] at hlaunched
        exact absurd hlaunched Bool.noConfusion
      · rw [heq] at hlaunched
        exact absurd hlaunched Bool.noConfusion
  · have hbetween := h.between i t hi
    refine ⟨?_, fun heof => ?_, fun log heq => ?_⟩
    · rw [hlog', ← hlog]
      exact hbetween.flow
    · rw [hlog'] at heof
      exact absurd heof Bool.false_ne_true
    · -- nor deaf
      rcases hbetween.killed log heq with ⟨log', heq', -⟩ | hended
      · rw [heq'] at hlaunched
        exact absurd hlaunched Bool.noConfusion
      · rw [ended_of_not_launched (Or.inl hlaunched)] at hended
        exact absurd hended Bool.noConfusion

/-- What is known of a program after an effect. -/
theorem Effect.childKnows {t : Fin L.totalProgs} {log : List Answer} {pc' : ChildPc}
    (heffect : L.Effect t mem log mem' pc') (hknows : L.ChildKnows t mem (.run log))
    (hforked : t < mem.forked) (htable : mem.table t = L.tableOf t log) :
    L.ChildKnows t mem' pc' := by
  have hforked' : t < mem'.forked := by rwa [(heffect.touches htable).forked]
  have hnotlate : mem'.forked ≤ t → pc' = .dupOut := fun hge =>
    absurd hforked' (Nat.not_lt.mpr hge)
  have hrun : ∀ a, mem'.table t = L.tableOf t (a :: log) → mem'.ended t = mem.ended t →
      L.ChildKnows t mem' (.run (a :: log)) := by
    intro a ha hended
    exact ⟨by rw [if_pos hforked']; exact ha, fun hge => absurd hforked' (Nat.not_lt.mpr hge),
      hended.trans hknows.ended, fun _ hj => absurd hj ChildPc.noConfusion,
      fun _ _ hj => absurd hj ChildPc.noConfusion, fun _ hj => absurd hj ChildPc.noConfusion⟩
  cases heffect with
  | take hcall hfd hne => exact hrun _ (by rw [tableOf_cons, hcall]; exact htable) rfl
  | eof hcall hfd hempty hno => exact hrun _ (by rw [tableOf_cons, hcall]; exact htable) rfl
  | put hcall hfd hroom => exact hrun _ (by rw [tableOf_cons, hcall]; exact htable) rfl
  | kill hcall hfd hno =>
    exact ⟨by rw [Kernel.exit_table_self, if_pos hforked']; rfl, hnotlate,
      Kernel.exit_ended_self _ _, fun _ hj => absurd hj ChildPc.noConfusion,
      fun _ _ hj => absurd hj ChildPc.noConfusion,
      fun _ _ => ((L.ownEnds_tableOf t log).write _ _ (htable ▸ hfd)).2.2⟩
  | plain hanswer =>
    exact hrun _ (by rw [Kernel.setTable_table_self, tableOf_cons, htable]) rfl
  | exit hcall =>
    refine ⟨by rw [Kernel.exit_table_self, if_pos hforked']; rfl, hnotlate,
      Kernel.exit_ended_self _ _, fun _ hj => absurd hj ChildPc.noConfusion, fun _ _ hj => ?_,
      fun _ hj => absurd hj ChildPc.noConfusion⟩
    obtain ⟨rfl, rfl⟩ := ChildPc.exited.inj hj
    exact hcall

/-- No pipe holds more than it has room for. -/
theorem Effect.room {t : Fin L.totalProgs} {log : List Answer} {pc' : ChildPc}
    (heffect : L.Effect t mem log mem' pc') (hroom : ∀ k, (mem.pipe k).length ≤ L.capacity) :
    ∀ k, (mem'.pipe k).length ≤ L.capacity := by
  intro k
  have hk := hroom k
  cases heffect with
  | @take fd n k' hcall hfd hne =>
    by_cases hkk : k = k'
    · subst hkk
      rw [Kernel.setPipe_pipe_self, List.length_drop]
      omega
    · rwa [Kernel.setPipe_pipe_of_ne _ _ _ hkk]
  | @put fd k' b hcall hfd hlt =>
    by_cases hkk : k = k'
    · subst hkk
      rw [Kernel.setPipe_pipe_self, List.length_append, List.length_singleton]
      omega
    · rwa [Kernel.setPipe_pipe_of_ne _ _ _ hkk]
  | eof hcall hfd hempty hno => exact hk
  | kill hcall hfd hno => exact hk
  | plain hanswer => exact hk
  | exit hcall => exact hk

theorem childStep_keeps (h : L.LiveInv s) {t : Fin L.totalProgs} {pc' : ChildPc}
    (hstep : L.childStep t s.mem (s.loc (.child t)) = some (mem', pc')) :
    L.LiveInv ⟨mem', Function.update s.loc (.child t) pc'⟩ := by
  by_cases hlaunched : launched (s.loc (.child t)) = false
  · exact setup_keeps h hlaunched hstep
  have hknows := h.child t
  cases hpc : s.loc (.child t) with
  | dupOut | dupIn | close j =>
    rw [hpc] at hlaunched
    exact absurd rfl hlaunched
  | exited log status | killed log =>
    rw [hpc] at hstep
    exact absurd hstep (Option.some_ne_none _).symm
  | run log =>
    rw [hpc] at hstep hknows
    have hforked : t < s.mem.forked := by
      by_contra hge
      exact absurd (hknows.unforked (Nat.not_lt.mp hge)) ChildPc.noConfusion
    have htable : s.mem.table t = L.tableOf t log := by
      have := hknows.table
      rwa [if_pos hforked] at this
    have heffect := callStep_effect hstep
    refine h.child_moves (heffect.touches htable) (heffect.childKnows hknows hforked htable)
      (fun j hj => ?_) (fun i hi => ?_) (heffect.room h.room)
    · have hbetween := h.between t j hj
      rw [hpc] at hbetween
      exact hbetween.writer htable heffect fun hno => h.deaf hj hno
    · have hbetween := h.between i t hi
      rw [hpc] at hbetween
      exact hbetween.reader hi htable heffect fun hno => h.shut (by omega) hno

/-! ### All reachable states -/

theorem liveInv_start (L : LiveLine α ω) : L.LiveInv L.start where
  parent := ⟨rfl, rfl, Nat.zero_le _, rfl⟩
  child _ := ⟨rfl, fun _ => rfl, rfl, fun _ hj => absurd hj ChildPc.noConfusion,
    fun _ _ hj => absurd hj ChildPc.noConfusion, fun _ hj => absurd hj ChildPc.noConfusion⟩
  reaped := Nat.zero_le _
  between _ _ _ := ⟨rfl, fun heof => absurd heof Bool.false_ne_true,
    fun _ heq => absurd heq ChildPc.noConfusion⟩
  room _ := Nat.zero_le _

theorem liveInv_of_reach (h : L.program.Reach L.start s) : L.LiveInv s := by
  apply h.invariant L.liveInv_start
  intro t s s' _ hinv hnext
  obtain ⟨mem', pc', hstep, rfl⟩ := L.program.next_eq_some hnext
  cases t with
  | main => exact mainStep_keeps hinv hstep
  | child i => exact childStep_keeps hinv hstep

end LiveLine
end Batch
end OpSys
