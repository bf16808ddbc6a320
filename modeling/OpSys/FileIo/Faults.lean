import OpSys.FileIo.Sorted

/-!
# Sorting when a call fails

One call fails, without a byte transferred, and the sort returns -1.  A swap is two
writes.  Between them the file holds one record twice and the other only in a buffer, so
a failure of the second write loses a record; any other failure loses none.  Here what is
written is in the file at once, as it is for `sort_sys`.

## Main definitions

* `fault p` — the call `p` fails, and no other.
* `Helpers.Reports` — a helper whose seek or transfer fails changes nothing and says so.
* `LosesNothing` — the failure of `p` is reported, and the records are all there.
* `SecondHalf` — `p` belongs to the second write of a swap that takes place.

## Main results

* `sortWith_losesNothing_iff` — which failures lose a record, for either helpers.
* `sys_losesNothing_iff`, `lib_losesNothing_iff` — the same for `sort_sys` and `sort_lib`.

## References

`lab2_file_system/system_vs_lib_io/program.c` and `utils.c`.
-/

namespace OpSys
namespace FileIo

open Records Exchange

/-- The call `p` fails, and no other. -/
def fault (p c : Call) : Bool := decide (c = p)

/-- A helper whose seek or transfer fails changes nothing and says so. -/
structure Helpers.Reports (helpers : Helpers) (size : ℕ) (safe : ℕ → Prop) : Prop where
  read_fails : ∀ {b b' : Bool} {file buffer : List UInt8} {start : ℕ}, (b || b') = true →
    (helpers.read b b' file buffer size start).status < 0
  write_fails : ∀ (file : List UInt8) {b b' : Bool} {buffer : List UInt8} {start : ℕ},
    (b || b') = true →
    (helpers.write b b' file buffer size start).status < 0 ∧
      (helpers.write b b' file buffer size start).data = file
  transferred : ∀ {b' : Bool} {file buffer : List UInt8} {start : ℕ}, safe start →
    (helpers.write false b' file buffer size start).transferred = true

/-- If the run comes to the call `p`, its failure is reported. -/
def Reported (p : Call) (result : ℤ × Sorter) : Prop := p ∈ result.2.calls → result.1 = -1

namespace SortJob

/-- If the run comes to the call `p`, its failure is reported and the records are there. -/
def LosesNothing (job : SortJob) (p : Call) (result : ℤ × Sorter) : Prop :=
  p ∈ result.2.calls →
    result.1 = -1 ∧ (job.recordsOf result.2.file).Perm (job.recordsOf job.file)

/-- `p` belongs to the write of `first_record` in a swap: in the pass `i`, record `i` goes
in front of the place `j` because fewer than `j` records before it are not greater. -/
def SecondHalf (job : SortJob) (p : Call) : Prop :=
  p.place = .writeFirst ∧ p.visit ∈ visits job.records ∧
    ((job.recordsOf job.file).take p.visit.1).countP
      (fun r => recordKey r ≤ recordKey ((job.recordsOf job.file).getD p.visit.1 [])) < p.visit.2

instance (job : SortJob) (p : Call) : Decidable (job.SecondHalf p) :=
  inferInstanceAs (Decidable (_ ∧ _ ∧ _))

end SortJob

theorem sysHelpers_reports (size : ℕ) : sysHelpers.Reports size IntSafe where
  read_fails {b b' file buffer start} h := by
    have hneg : toInt (-1) < 0 := by decide
    simp only [sysHelpers, readStartingFrom]
    cases b with
    | true =>
      simp only [if_true, if_pos hneg]
      -- `lseek` fails
      exact Int.negSucc_lt_zero 0
    | false =>
      obtain rfl : b' = true := h
      -- the seek is made, and `read` fails
      simp only [Bool.false_eq_true, if_false, if_true, if_pos hneg]
      split
      · exact Int.negSucc_lt_zero 0
      · exact Int.negSucc_lt_zero 0
  write_fails file b b' buffer start h := by
    have hneg : toInt (-1) < 0 := by decide
    simp only [sysHelpers, writeStartingFrom]
    cases b with
    | true =>
      simp only [if_true, if_pos hneg]
      exact ⟨Int.negSucc_lt_zero 0, trivial⟩
    | false =>
      obtain rfl : b' = true := h
      simp only [Bool.false_eq_true, if_false, if_true, if_pos hneg]
      split
      · exact ⟨Int.negSucc_lt_zero 0, rfl⟩
      · exact ⟨Int.negSucc_lt_zero 0, rfl⟩
  transferred {b' file buffer start} h := by
    simp only [sysHelpers, writeStartingFrom, Bool.false_eq_true, if_false, if_neg h]

theorem libHelpers_reports {size : ℕ} (hpos : 0 < size) :
    libHelpers.Reports size fun _ => True where
  read_fails {b b' file buffer start} h := by
    simp only [libHelpers, freadStartingFrom]
    cases b with
    | true => exact Int.negSucc_lt_zero 0
    | false =>
      obtain rfl : b' = true := h
      simp only [Bool.false_eq_true, if_false, if_true, Int.lt_irrefl, List.length_nil, hpos]
      exact Int.negSucc_lt_zero 0
  write_fails file b b' buffer start h := by
    simp only [libHelpers, fwriteStartingFrom]
    cases b with
    | true => exact ⟨Int.negSucc_lt_zero 0, rfl⟩
    | false =>
      obtain rfl : b' = true := h
      simp only [Bool.false_eq_true, if_false, if_true, Int.lt_irrefl, hpos]
      exact ⟨Int.negSucc_lt_zero 0, trivial⟩
  transferred {b' file buffer start} _ := by
    simp only [libHelpers, fwriteStartingFrom, Bool.false_eq_true, if_false, Int.lt_irrefl]

/-! ### The calls of a run -/

variable {helpers : Helpers} {fails : Call → Bool} {size : ℕ} {safe : ℕ → Prop}
  {s s' : Sorter} {rs : List (List UInt8)} {rest : List UInt8} {v : ℕ × ℕ}
  {vs : List (ℕ × ℕ)} {c p : Call}

/-- A part of the visit `v` makes calls of that visit. -/
def CallsAt (v : ℕ × ℕ) (f : Sorter → Except Sorter Sorter) : Prop :=
  ∀ s, ∀ c ∈ (outcome (f s)).calls, c ∈ s.calls ∨ c.visit = v

theorem CallsAt.bind {f g : Sorter → Except Sorter Sorter} (hf : CallsAt v f)
    (hg : CallsAt v g) : CallsAt v fun s => f s >>= g := by
  intro s c hc
  have hc : c ∈ (outcome (f s >>= g)).calls := hc
  have hf' := hf s
  cases hs : f s with
  | ok s₁ =>
    rw [hs] at hc hf'
    rcases hg s₁ c hc with hmem | hv
    · exact hf' c hmem
    · exact Or.inr hv
  | error s₁ =>
    rw [hs] at hc hf'
    exact hf' c hc

theorem callsAt_check {place : Place} {transferred : Bool} {helped : Helped}
    (hcalls : s'.calls = s.calls ++ helperCalls v place transferred)
    (hc : c ∈ (outcome (check helped s')).calls) : c ∈ s.calls ∨ c.visit = v := by
  rw [outcome_check, hcalls] at hc
  exact (List.mem_append.mp hc).imp_right visit_of_mem_helperCalls

theorem callsAt_sortBody (v : ℕ × ℕ) :
    CallsAt v fun s => sortBody helpers fails size s v := by
  have hread : CallsAt v (readFirst helpers fails size v) := fun s c hc => callsAt_check rfl hc
  have hread' : CallsAt v (readSecond helpers fails size v) := fun s c hc => callsAt_check rfl hc
  have hwrite : CallsAt v (writeSecond helpers fails size v) := fun s c hc => callsAt_check rfl hc
  have hwrite' : CallsAt v (writeFirst helpers fails size v) := fun s c hc => callsAt_check rfl hc
  refine hread.bind (hread'.bind fun s c hc => ?_)
  split at hc
  · exact hwrite.bind hwrite' s c hc
  · exact Or.inl hc

/-- A run makes calls of its visits only. -/
theorem calls_foldlM (vs : List (ℕ × ℕ)) (s : Sorter)
    (hc : c ∈ (outcome (vs.foldlM (sortBody helpers fails size) s)).calls) :
    c ∈ s.calls ∨ c.visit ∈ vs := by
  induction vs generalizing s with
  | nil => exact Or.inl hc
  | cons v vs ih =>
    rw [List.foldlM_cons] at hc
    have hbody : c ∈ (outcome (sortBody helpers fails size s v)).calls →
        c ∈ s.calls ∨ c.visit = v := callsAt_sortBody v s c
    cases hs : sortBody helpers fails size s v with
    | ok s₁ =>
      rw [hs, ok_bind] at hc
      rcases ih s₁ hc with hmem | hmem
      · rcases hbody (hs ▸ hmem) with hmem' | hv
        · exact Or.inl hmem'
        · exact Or.inr (hv ▸ List.mem_cons_self)
      · exact Or.inr (List.mem_cons_of_mem _ hmem)
    | error s₁ =>
      rw [hs] at hc
      rcases hbody (hs ▸ hc) with hmem' | hv
      · exact Or.inl hmem'
      · exact Or.inr (hv ▸ List.mem_cons_self)

/-! ### The visit of the failure -/

theorem fault_eq_false {place : Place} (h : p.place ≠ place) (b : Bool) :
    fault p ⟨v, place, b⟩ = false :=
  decide_eq_false fun heq => h (congrArg Call.place heq).symm

theorem fault_elsewhere (h : p.visit ≠ v) (place : Place) (b : Bool) :
    fault p ⟨v, place, b⟩ = false :=
  decide_eq_false fun heq => h (congrArg Call.visit heq).symm

theorem fault_at {place : Place} (h : p.place = place) :
    (fault p ⟨p.visit, place, true⟩ || fault p ⟨p.visit, place, false⟩) = true := by
  subst h
  obtain ⟨v, place, seeks⟩ := p
  cases seeks <;> simp [fault]

theorem sortBody_readFirst_fails (hr : helpers.Reports size safe) (s : Sorter)
    (hplace : p.place = .readFirst) :
    ∃ s', sortBody helpers (fault p) size s p.visit = .error s' ∧ s'.file = s.file := by
  rw [sortBody]
  simp only [readFirst, bind, Except.bind]
  rw [check_of_neg (hr.read_fails (fault_at hplace))]
  exact ⟨_, rfl, rfl⟩

theorem sortBody_readSecond_fails (hr : helpers.Reports size safe) {a : List UInt8}
    (hplace : p.place = .readSecond)
    (ha : helpers.read false false s.file s.first size ((p.visit.2 - 1) * size) = ⟨0, a, true⟩) :
    ∃ s', sortBody helpers (fault p) size s p.visit = .error s' ∧ s'.file = s.file := by
  have hfirst : ∀ b, fault p ⟨p.visit, .readFirst, b⟩ = false :=
    fault_eq_false (by rw [hplace]; decide)
  rw [sortBody]
  simp only [readFirst, readSecond, hfirst, ha, check_ok, bind, Except.bind]
  rw [check_of_neg (hr.read_fails (fault_at hplace))]
  exact ⟨_, rfl, rfl⟩

theorem writeSecond_fails (hr : helpers.Reports size safe) (s : Sorter)
    (hplace : p.place = .writeSecond) :
    ∃ s', writeSecond helpers (fault p) size p.visit s = .error s' ∧ s'.file = s.file := by
  obtain ⟨hstatus, hdata⟩ := hr.write_fails s.file (fault_at hplace)
  rw [writeSecond, check_of_neg hstatus]
  exact ⟨_, rfl, hdata⟩

theorem writeFirst_fails (hr : helpers.Reports size safe) (s : Sorter)
    (hright : safe (p.visit.2 * size)) (hplace : p.place = .writeFirst) :
    ∃ s', writeFirst helpers (fault p) size p.visit s = .error s' ∧ s'.file = s.file ∧
      p ∈ s'.calls := by
  obtain ⟨hstatus, hdata⟩ := hr.write_fails s.file (fault_at hplace)
  rw [writeFirst, check_of_neg hstatus]
  refine ⟨_, rfl, hdata, List.mem_append_right _ ?_⟩
  obtain ⟨v, place, seeks⟩ := p
  obtain rfl : place = .writeFirst := hplace
  cases seeks with
  | true =>
    rw [helperCalls]
    split <;> simp
  | false =>
    have hseek : fault ⟨v, .writeFirst, false⟩ ⟨v, .writeFirst, true⟩ = false := by simp [fault]
    rw [hseek, hr.transferred hright]
    simp [helperCalls]

/-- A visit that is not safe ends the sort before it writes, whatever fails in it. -/
theorem sortBody_stops_fault (h : Holds size s rs rest) (hs : helpers.Sound size safe)
    (hr : helpers.Reports size safe) (hv : p.visit.2 < rs.length)
    (hnot : ¬VisitSafe safe size p.visit) :
    ∃ s', sortBody helpers (fault p) size s p.visit = .error s' ∧ s'.file = s.file := by
  obtain ⟨a, ha⟩ : ∃ a, rs[p.visit.2 - 1]? = some a :=
    ⟨_, List.getElem?_eq_getElem (by omega)⟩
  by_cases hfirst : p.place = .readFirst
  · exact sortBody_readFirst_fails hr s hfirst
  by_cases hleft : safe ((p.visit.2 - 1) * size) ∧ safe size
  · have hread := h.read_eq hs ha h.first_length hleft.1 hleft.2
    by_cases hsecond : p.place = .readSecond
    · exact sortBody_readSecond_fails hr hsecond hread
    · have hright : ¬(safe (p.visit.2 * size) ∧ safe size) := fun hright =>
        hnot ⟨hleft.1, hright.1, hleft.2⟩
      exact sortBody_stops_right (fault_eq_false hfirst) (fault_eq_false hsecond) hread
        (hs.read_stops (h.le_length hv) hright)
  · exact sortBody_stops_left (fault_eq_false hfirst)
      (hs.read_stops (h.le_length (by omega)) hleft)

/-- The failure comes between the two writes of a swap. -/
theorem sortBody_torn (h : Holds size s rs rest) (hs : helpers.Sound size safe)
    (hr : helpers.Reports size safe) {a b : List UInt8} (hv : p.visit.2 < rs.length)
    (hsafe : VisitSafe safe size p.visit) (ha : rs[p.visit.2 - 1]? = some a)
    (hb : rs[p.visit.2]? = some b) (hplace : p.place = .writeFirst)
    (hlt : recordKey b < recordKey a) :
    ∃ s', sortBody helpers (fault p) size s p.visit = .error s' ∧
      s'.file = (rs.set (p.visit.2 - 1) b).flatten ++ rest ∧ p ∈ s'.calls := by
  obtain ⟨hleft, hright, hsize⟩ := hsafe
  have hfails : ∀ place, place ≠ .writeFirst → ∀ b, fault p ⟨p.visit, place, b⟩ = false :=
    fun place hne => fault_eq_false (by rw [hplace]; exact hne.symm)
  obtain ⟨s₁, hreads, h₁, rfl, rfl, -⟩ := h.reads_ok hs (hfails _ (by decide))
    (hfails _ (by decide)) hleft hright hsize ha hb
  have hwrite := h₁.writeSecond_ok hs (hfails _ (by decide)) (by omega) hleft hsize
  obtain ⟨s₂, hfail, hfile, hmem⟩ := writeFirst_fails hr { s₁ with
    file := (rs.set (p.visit.2 - 1) s₁.second).flatten ++ rest
    calls := s₁.calls ++ helperCalls p.visit .writeSecond true } hright hplace
  refine ⟨s₂, ?_, hfile, hmem⟩
  rw [sortBody_eq, hreads]
  simp only [bind, Except.bind, if_pos hlt, hwrite]
  exact hfail

/-- Any other failure stops the visit with the file as it was, or the visit does not come
to it. -/
theorem sortBody_not_torn (h : Holds size s rs rest) (hs : helpers.Sound size safe)
    (hr : helpers.Reports size safe) {a b : List UInt8}
    (hsafe : VisitSafe safe size p.visit) (ha : rs[p.visit.2 - 1]? = some a)
    (hb : rs[p.visit.2]? = some b)
    (hnot : ¬(p.place = .writeFirst ∧ recordKey b < recordKey a)) :
    (∃ s', sortBody helpers (fault p) size s p.visit = .error s' ∧ s'.file = s.file) ∨
      ∃ s', sortBody helpers (fault p) size s p.visit = .ok s' ∧
        (p ∈ s'.calls → p ∈ s.calls) := by
  obtain ⟨hleft, hright, hsize⟩ := hsafe
  -- a read that fails has changed nothing yet
  by_cases hfirst : p.place = .readFirst
  · exact Or.inl (sortBody_readFirst_fails hr s hfirst)
  by_cases hsecond : p.place = .readSecond
  · exact Or.inl (sortBody_readSecond_fails hr hsecond
      (h.read_eq hs ha h.first_length hleft hsize))
  obtain ⟨s₁, hreads, h₁, rfl, rfl, hcalls⟩ := h.reads_ok hs (fault_eq_false hfirst)
    (fault_eq_false hsecond) hleft hright hsize ha hb
  rw [sortBody_eq, hreads]
  simp only [bind, Except.bind]
  -- without an exchange neither write is made
  by_cases hlt : recordKey s₁.second < recordKey s₁.first
  · -- of the two writes only the first one can fail here, and then the file is as it was
    have hplace : p.place = .writeSecond := by
      cases hp : p.place with
      | readFirst => exact absurd hp hfirst
      | readSecond => exact absurd hp hsecond
      | writeSecond => rfl
      | writeFirst => exact absurd ⟨hp, hlt⟩ hnot
    obtain ⟨s₂, hfail, hfile⟩ := writeSecond_fails hr s₁ hplace
    rw [if_pos hlt, hfail]
    exact Or.inl ⟨s₂, rfl, hfile.trans (h₁.file_eq.trans h.file_eq.symm)⟩
  · rw [if_neg hlt]
    refine Or.inr ⟨s₁, rfl, fun hp => (hcalls p hp).resolve_right ?_⟩
    rintro ⟨-, hp | hp⟩
    · exact hfirst hp
    · exact hsecond hp

/-! ### The run -/

/-- Only a record itself can stand in its place. -/
theorem perm_set_iff {l : List (List UInt8)} {a t : List UInt8} {j : ℕ} (ha : l[j]? = some a) :
    (l.set j t).Perm l ↔ t = a := by
  obtain ⟨hj, rfl⟩ := List.getElem?_eq_some_iff.mp ha
  constructor
  · intro hperm
    by_contra hne
    have hcount := hperm.count_eq t
    rw [List.set_eq_take_append_cons_drop, if_pos hj] at hcount
    conv at hcount =>
      rhs
      rw [← List.take_append_drop j l, List.drop_eq_getElem_cons hj]
    rw [List.count_append, List.count_append, List.count_cons_self,
      List.count_cons_of_ne (Ne.symm hne)] at hcount
    omega
  · rintro rfl
    rw [List.set_getElem_self]

namespace SortJob

variable {job : SortJob}

/-- The run stops with the records rearranged. -/
theorem losesNothing_of_error (hrs : ∀ r ∈ rs, r.length = job.size)
    (hlen : rs.length = job.records)
    (hmoved : Rearranged recordKey (job.recordsOf job.file) rs)
    (hrun : outerLoop (sortBody helpers (fault p) job.size) job.records job.start = .error s)
    (hfile : s.file = rs.flatten ++ rest) :
    job.LosesNothing p (sortWith helpers (fault p) job.size job.records job.start) := by
  intro _
  rw [sortWith, hrun]
  refine ⟨rfl, ?_⟩
  simp only [hfile]
  rw [recordsOf_append hlen hrs]
  exact hmoved.perm

/-- The run does not come to the call that fails. -/
theorem losesNothing_of_notMem
    (h : p ∉ (outcome
      (outerLoop (sortBody helpers (fault p) job.size) job.records job.start)).calls) :
    job.LosesNothing p (sortWith helpers (fault p) job.size job.records job.start) := by
  intro hp
  refine absurd ?_ h
  rw [sortWith] at hp
  cases hrun : outerLoop (sortBody helpers (fault p) job.size) job.records job.start with
  | ok s => rwa [hrun] at hp
  | error s => rwa [hrun] at hp

end SortJob

open SortJob

/-- The run comes to the visit of `p` with the records `rs` in the file. -/
structure Reaches (helpers : Helpers) (job : SortJob) (p : Call) (s : Sorter)
    (rs : List (List UInt8)) (rest : List UInt8) (vs : List (ℕ × ℕ)) : Prop where
  run : outerLoop (sortBody helpers (fault p) job.size) job.records job.start =
    sortBody helpers (fault p) job.size s p.visit >>=
      fun s => vs.foldlM (sortBody helpers (fault p) job.size) s
  holds : Holds job.size s rs rest
  moved : Rearranged recordKey (job.recordsOf job.file) rs
  lt_length : p.visit.2 < rs.length
  before : p ∉ s.calls
  after : p.visit ∉ vs

section Run

variable {job : SortJob}

/-- The visits before that of the failure make other calls. -/
theorem exists_visits_before (hp : p.visit ∈ visits job.records) :
    ∃ vs, visits job.records = visitsTo p.visit.1 p.visit.2 ++ p.visit :: vs ∧
      p.visit ∉ visitsTo p.visit.1 p.visit.2 ∧ p.visit ∉ vs ∧
      ∀ v ∈ visitsTo p.visit.1 p.visit.2, v.2 < (job.recordsOf job.file).length ∧
        ∀ place b, fault p ⟨v, place, b⟩ = false := by
  obtain ⟨hpos, hle, hlt⟩ := mem_visits.mp hp
  obtain ⟨vs, hvisits⟩ := exists_visits_eq hpos hle hlt
  have hnodup := visits_nodup job.records
  rw [hvisits] at hnodup
  have hbefore : p.visit ∉ visitsTo p.visit.1 p.visit.2 := fun hmem =>
    (List.nodup_append.mp hnodup).2.2 _ hmem _ List.mem_cons_self rfl
  refine ⟨vs, hvisits, hbefore, (List.nodup_cons.mp (List.nodup_append.mp hnodup).2.1).1, ?_⟩
  intro v hv
  refine ⟨?_, fault_elsewhere fun heq => hbefore (heq ▸ hv)⟩
  rw [length_recordsOf]
  refine lt_of_mem_visits ?_
  rw [hvisits]
  exact List.mem_append_left _ hv

theorem exists_reaches (hs : helpers.Sound job.size safe) (h : job.Complete)
    (hp : p.visit ∈ visits job.records)
    (hsafe : ∀ v ∈ visitsTo p.visit.1 p.visit.2, VisitSafe safe job.size v) :
    ∃ s vs, Reaches helpers job p s
      (exchanged (visitsTo p.visit.1 p.visit.2) (job.recordsOf job.file))
      (job.file.drop (job.records * job.size)) vs := by
  obtain ⟨vs, hvisits, hbefore, hafter, hmem⟩ := exists_visits_before hp
  obtain ⟨s, hrun, hholds, hcalls⟩ := foldlM_ok (holds_start h) hs (fun v hv => (hmem v hv).2)
    (fun v hv => (hmem v hv).1) hsafe
  refine ⟨s, vs, ?_, hholds, rearranged_exchanged _ _, ?_, fun hc => ?_, hafter⟩
  · rw [outerLoop_eq, hvisits, List.foldlM_append, hrun, ok_bind, List.foldlM_cons]
  · rw [length_exchanged, length_recordsOf]
    exact lt_of_mem_visits hp
  · rcases hcalls p hc with hstart | hv
    · exact absurd hstart List.not_mem_nil
    · exact hbefore hv

/-- An offset stops the run before the visit of the failure. -/
theorem losesNothing_of_stops (hs : helpers.Sound job.size safe) (h : job.Complete)
    (hp : p.visit ∈ visits job.records)
    (hnot : ∃ v ∈ visitsTo p.visit.1 p.visit.2, ¬VisitSafe safe job.size v) :
    job.LosesNothing p (sortWith helpers (fault p) job.size job.records job.start) := by
  obtain ⟨vs, hvisits, -, -, hmem⟩ := exists_visits_before hp
  obtain ⟨s', rs', hrun, hfile, hrs', hmoved⟩ := foldlM_stops (holds_start h)
    (fun v hv hsafe s rs hlen hholds =>
      let ⟨s', hbody, hholds', _⟩ := sortBody_ok hholds hs (hmem v hv).2
        (hlen.symm ▸ (hmem v hv).1) hsafe.1 hsafe.2.1 hsafe.2.2
      ⟨s', hbody, hholds'⟩)
    (fun v hv hnot s rs hlen hholds =>
      sortBody_stops hholds hs (hmem v hv).2 (hlen.symm ▸ (hmem v hv).1) hnot) hnot
  refine losesNothing_of_error hrs' (hmoved.perm.length_eq.trans (length_recordsOf _)) hmoved
    ?_ hfile
  rw [outerLoop_eq, hvisits, List.foldlM_append, hrun]
  rfl

namespace Reaches

theorem length_eq (h : Reaches helpers job p s rs rest vs) : rs.length = job.records :=
  h.moved.perm.length_eq.trans (length_recordsOf _)

/-- The visit stops with the file as it was. -/
theorem losesNothing_of_error (h : Reaches helpers job p s rs rest vs)
    (hbody : sortBody helpers (fault p) job.size s p.visit = .error s')
    (hfile : s'.file = s.file) :
    job.LosesNothing p (sortWith helpers (fault p) job.size job.records job.start) := by
  refine SortJob.losesNothing_of_error h.holds.length_eq h.length_eq h.moved ?_
    (hfile.trans h.holds.file_eq)
  rw [h.run, hbody]
  rfl

/-- At a safe visit, the failure of the second write of a swap loses a record. -/
theorem not_losesNothing (h : Reaches helpers job p s rs rest vs)
    (hs : helpers.Sound job.size safe) (hr : helpers.Reports job.size safe)
    (hsafe : VisitSafe safe job.size p.visit) {a b : List UInt8}
    (ha : rs[p.visit.2 - 1]? = some a) (hb : rs[p.visit.2]? = some b)
    (hplace : p.place = .writeFirst) (hlt : recordKey b < recordKey a) :
    (sortWith helpers (fault p) job.size job.records job.start).1 = -1 ∧
      ¬job.LosesNothing p (sortWith helpers (fault p) job.size job.records job.start) := by
  obtain ⟨s', hbody, hfile, hcall⟩ := sortBody_torn h.holds hs hr h.lt_length hsafe ha hb
    hplace hlt
  have hwith : sortWith helpers (fault p) job.size job.records job.start = (-1, s') := by
    rw [sortWith, h.run, hbody]
    rfl
  have hset : ∀ r ∈ rs.set (p.visit.2 - 1) b, r.length = job.size :=
    (h.holds.set (p.visit.2 - 1) (h.holds.length_of_getElem? hb) []).length_eq
  rw [hwith]
  refine ⟨rfl, fun hloses => ?_⟩
  have hperm := (hloses hcall).2
  simp only [hfile] at hperm
  rw [recordsOf_append (List.length_set.trans h.length_eq) hset] at hperm
  obtain rfl := (perm_set_iff ha).mp (hperm.trans h.moved.perm.symm)
  exact lt_irrefl _ hlt

/-- Any other failure loses none. -/
theorem losesNothing (h : Reaches helpers job p s rs rest vs)
    (hs : helpers.Sound job.size safe) (hr : helpers.Reports job.size safe)
    (hsafe : VisitSafe safe job.size p.visit) {a b : List UInt8}
    (ha : rs[p.visit.2 - 1]? = some a) (hb : rs[p.visit.2]? = some b)
    (hnot : ¬(p.place = .writeFirst ∧ recordKey b < recordKey a)) :
    job.LosesNothing p (sortWith helpers (fault p) job.size job.records job.start) := by
  rcases sortBody_not_torn h.holds hs hr hsafe ha hb hnot with
    ⟨s', hbody, hfile⟩ | ⟨s', hbody, hcall⟩
  · exact h.losesNothing_of_error hbody hfile
  · refine losesNothing_of_notMem fun hmem => ?_
    rw [h.run, hbody, ok_bind] at hmem
    rcases calls_foldlM _ _ hmem with hmem | hmem
    · exact h.before (hcall hmem)
    · exact h.after hmem

end Reaches

/-- The sort loses nothing, or it is in the second half of a swap, returns -1 and loses a
record. -/
theorem sortWith_cases (hs : helpers.Sound job.size safe)
    (hr : helpers.Reports job.size safe) (h : job.Complete) (p : Call) :
    let result := sortWith helpers (fault p) job.size job.records job.start
    let half := job.SecondHalf p ∧
      ∀ v ∈ visitsTo p.visit.1 p.visit.2 ++ [p.visit], VisitSafe safe job.size v
    job.LosesNothing p result ∧ ¬half ∨ result.1 = -1 ∧ ¬job.LosesNothing p result ∧ half := by
  intro result half
  by_cases hp : p.visit ∈ visits job.records
  swap
  · -- no visit makes the call
    refine Or.inl ⟨losesNothing_of_notMem fun hmem => ?_, fun hhalf => hp hhalf.1.2.1⟩
    rw [outerLoop_eq] at hmem
    rcases calls_foldlM _ _ hmem with hmem | hmem
    · exact absurd hmem List.not_mem_nil
    · exact hp hmem
  obtain ⟨hpos, hle, hlt⟩ := mem_visits.mp hp
  -- an offset beyond an `int` stops the run before the call is made
  by_cases hsafe : ∀ v ∈ visitsTo p.visit.1 p.visit.2, VisitSafe safe job.size v
  swap
  · refine Or.inl ⟨losesNothing_of_stops hs h hp ?_, fun hhalf =>
      hsafe fun v hv => hhalf.2 v (List.mem_append_left _ hv)⟩
    push Not at hsafe
    exact hsafe
  obtain ⟨s, vs, hreaches⟩ := exists_reaches hs h hp hsafe
  by_cases hsafe_v : VisitSafe safe job.size p.visit
  swap
  · obtain ⟨s', hbody, hfile⟩ :=
      sortBody_stops_fault hreaches.holds hs hr hreaches.lt_length hsafe_v
    exact Or.inl ⟨hreaches.losesNothing_of_error hbody hfile, fun hhalf =>
      hsafe_v (hhalf.2 _ (List.mem_append_right _ List.mem_cons_self))⟩
  have hlen := hreaches.lt_length
  obtain ⟨a, ha⟩ : ∃ a, (exchanged (visitsTo p.visit.1 p.visit.2)
      (job.recordsOf job.file))[p.visit.2 - 1]? = some a :=
    ⟨_, List.getElem?_eq_getElem (by omega)⟩
  obtain ⟨b, hb⟩ : ∃ b, (exchanged (visitsTo p.visit.1 p.visit.2)
      (job.recordsOf job.file))[p.visit.2]? = some b := ⟨_, List.getElem?_eq_getElem hlen⟩
  have hx : (job.recordsOf job.file)[p.visit.1]? =
      some ((job.recordsOf job.file).getD p.visit.1 []) := by
    rw [List.getD_eq_getElem?_getD, List.getElem?_eq_getElem (by rwa [length_recordsOf]),
      Option.getD_some]
  -- the first write has replaced a record, and the second one does not come
  have hcount := key_lt_iff_countP_lt hpos hle hx ha hb
  by_cases htorn : p.place = .writeFirst ∧ recordKey b < recordKey a
  · obtain ⟨hstatus, hloses⟩ :=
      hreaches.not_losesNothing hs hr hsafe_v ha hb htorn.1 htorn.2
    refine Or.inr ⟨hstatus, hloses, ⟨htorn.1, hp, hcount.mp htorn.2⟩, fun v hv => ?_⟩
    rcases List.mem_append.mp hv with hmem | hmem
    · exact hsafe v hmem
    · exact List.mem_singleton.mp hmem ▸ hsafe_v
  · exact Or.inl ⟨hreaches.losesNothing hs hr hsafe_v ha hb htorn, fun hhalf =>
      htorn ⟨hhalf.1.1, hcount.mpr hhalf.1.2.2⟩⟩

/-- **Which failures lose a record**: those of the second half of a swap.  All are
reported. -/
theorem sortWith_losesNothing_iff (hs : helpers.Sound job.size safe)
    (hr : helpers.Reports job.size safe) (h : job.Complete) (p : Call) :
    Reported p (sortWith helpers (fault p) job.size job.records job.start) ∧
      (job.LosesNothing p (sortWith helpers (fault p) job.size job.records job.start) ↔
        ¬(job.SecondHalf p ∧
          ∀ v ∈ visitsTo p.visit.1 p.visit.2 ++ [p.visit], VisitSafe safe job.size v)) := by
  rcases sortWith_cases hs hr h p with ⟨hloses, hhalf⟩ | ⟨hstatus, hloses, hhalf⟩
  · exact ⟨fun hp => (hloses hp).1, iff_of_true hloses hhalf⟩
  · exact ⟨fun _ => hstatus, iff_of_false hloses fun hnot => hnot hhalf⟩

end Run

/-- The offsets up to a visit are those of the records up to its pass. -/
theorem forall_visitsTo_iff (hpos : 0 < v.2) (hle : v.2 ≤ v.1) :
    (∀ w ∈ visitsTo v.1 v.2 ++ [v], VisitSafe IntSafe size w) ↔
      ∀ k ≤ v.1, IntSafe (k * size) := by
  constructor
  · intro h k hk
    rcases Nat.eq_zero_or_pos k with rfl | hk₀
    · rw [Nat.zero_mul]
      decide
    -- the offset of the last visit, or that of an earlier one
    by_cases hlast : k = v.2
    · rw [hlast]
      exact (h v (List.mem_append_right _ List.mem_cons_self)).2.1
    · refine (h (k, k) (List.mem_append_left _ ((mem_visitsTo hle).mpr ?_))).2.1
      rcases Nat.lt_or_ge k v.1 with hlt | hge
      · exact Or.inl (mem_visits.mpr ⟨hk₀, le_rfl, hlt⟩)
      · exact Or.inr ⟨le_antisymm hk hge, by simp only; omega, hk⟩
  · intro h w hw
    have hw₂ : w.2 ≤ v.1 := by
      rcases List.mem_append.mp hw with hmem | hmem
      · rcases (mem_visitsTo hle).mp hmem with hmem | hmem
        · have := mem_visits.mp hmem
          omega
        · exact hmem.2.2
      · exact List.mem_singleton.mp hmem ▸ hle
    have hone := h 1 (by omega)
    rw [Nat.one_mul] at hone
    exact ⟨h _ (by omega), h _ hw₂, hone⟩

/-- Which failures of `sort_sys` lose a record; it does not come to the second half of a
swap if an offset turns negative before. -/
theorem sys_losesNothing_iff (job : SortJob) (h : job.Complete) (p : Call) :
    Reported p (job.sys (fault p)) ∧
      (job.LosesNothing p (job.sys (fault p)) ↔
        ¬(job.SecondHalf p ∧ ∀ k ≤ p.visit.1, IntSafe (k * job.size))) := by
  obtain ⟨hsys, hsys_iff⟩ := sortWith_losesNothing_iff (sysHelpers_sound job.size)
    (sysHelpers_reports job.size) h p
  refine ⟨hsys, hsys_iff.trans (not_congr (and_congr_right fun hhalf => ?_))⟩
  obtain ⟨hpos, hle, -⟩ := mem_visits.mp hhalf.2.1
  exact forall_visitsTo_iff hpos hle

/-- Which failing calls of `sort_lib` lose a record, if what it writes reaches the file. -/
theorem lib_losesNothing_iff (job : SortJob) (h : job.Complete) (p : Call) :
    Reported p (job.lib (fault p)) ∧
      (job.LosesNothing p (job.lib (fault p)) ↔ ¬job.SecondHalf p) := by
  obtain ⟨hlib, hlib_iff⟩ := sortWith_losesNothing_iff (libHelpers_sound job.size)
    (libHelpers_reports job.one_le_size) h p
  exact ⟨hlib, hlib_iff.trans (not_congr (and_iff_left fun _ _ => ⟨trivial, trivial, trivial⟩))⟩

end FileIo
end OpSys
