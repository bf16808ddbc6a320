import OpSys.FileIo.Sorted

/-!
# Sorting a file that is too short

A record that does not lie in the file is read short.  `sort_lib` counts the bytes and
returns -1 there, with the complete records in front rearranged.  `sort_sys` takes a
short read for a whole one: it compares and writes what the buffer held before.  It
only returns -1 where a conversion to `int` turns negative, and only keeps the file if
no bytes that it compares until then are out of order.

## Main definitions

* `Keeps` — the length of a file, its partial record and its complete records are kept.
* `begun` — the records of which the file has a byte.
* `InOrder` — what the buffers hold when a read falls short is in order.
* `Steady` — the file and the first bytes of the two buffers.

## Main results

* `lib_short` — what `sort_lib` does with a short file.
* `innerLoop_steady`, `innerLoop_longer` — a pass of `sort_sys` beyond the complete
  records leaves the file alone, or makes it longer.
* `sameOnShort_iff` — where the two sorts do the same and keep the file.

## References

`lab2_file_system/system_vs_lib_io/program.c` and `utils.c`.
-/

namespace OpSys
namespace FileIo

open Records Exchange

/-- The length, the partial record at the end and the complete records, in any order. -/
structure Keeps (size : ℕ) (before after : List UInt8) : Prop where
  length : after.length = before.length
  partial_record : after.drop (before.length / size * size) =
    before.drop (before.length / size * size)
  perm : (cut size (before.length / size) after).Perm (cut size (before.length / size) before)

/-- The records of which the file has a byte; the last of them may be partial. -/
def begun (size : ℕ) (file : List UInt8) : List (List UInt8) :=
  cut size ((file.length + size - 1) / size) file

/-- What the first reads beyond the records `rs` find in the buffers is in order with the
records, in all passes before `J`. -/
def InOrder (J : ℕ) (first second : List UInt8) : List (List UInt8) → Prop
  | [] => recordKey first ≤ recordKey second
  | [r] => recordKey r ≤ recordKey second
  | r :: r' :: rs =>
    let last := (r' :: rs).getLast (List.cons_ne_nil _ _)
    (∀ c ∈ r :: r' :: rs, recordKey c ≤ recordKey last) ∧
      (J ≤ rs.length + 2 ∨ (r :: r' :: rs).countP (fun c => recordKey c < recordKey last) ≤ 1)

namespace SortJob

/-- The file ends before the last record that the sort is asked for. -/
def Short (job : SortJob) : Prop := job.file.length < job.records * job.size

instance (job : SortJob) : Decidable job.Short := inferInstanceAs (Decidable (_ < _))

/-- Both return the same status and keep the file. -/
def SameOnShort (job : SortJob) : Prop :=
  (job.sys noFailure).1 = (job.lib noFailure).1 ∧
    Keeps job.size job.file (job.sys noFailure).2.file ∧
    Keeps job.size job.file (job.lib noFailure).2.file

/-- `J` is the first record whose offset is negative as an `int`. -/
structure FirstUnsafe (job : SortJob) (J : ℕ) : Prop where
  lt_records : J < job.records
  not_safe : ¬IntSafe (J * job.size)
  safe : ∀ j < J, IntSafe (j * job.size)

end SortJob

/-! ### Keeping a file -/

variable {size : ℕ} {s : Sorter} {rs rs' : List (List UInt8)} {rest file : List UInt8}
  {v : ℕ × ℕ} {a b i j n J : ℕ}

theorem length_div (hrest : rest.length < size) (hlen : ∀ r ∈ rs, r.length = size) :
    (rs.flatten ++ rest).length / size = rs.length := by
  rw [List.length_append, length_flatten_of_forall hlen, Nat.mul_comm,
    Nat.mul_add_div (by omega), Nat.div_eq_of_lt hrest, Nat.add_zero]

/-- A file is its complete records and a partial one. -/
theorem exists_split (hsize : 0 < size) (file : List UInt8) :
    ∃ (rs : List (List UInt8)) (rest : List UInt8), file = rs.flatten ++ rest ∧
      (∀ r ∈ rs, r.length = size) ∧ rest.length < size ∧ rs.length = file.length / size := by
  refine ⟨cut size (file.length / size) file, file.drop (file.length / size * size),
    (flatten_cut _ _ _).symm, fun r hr => ?_, ?_, length_cut _ _ _⟩
  · exact length_of_mem_cut (Nat.div_mul_le_self _ _) hr
  · have hdiv := Nat.div_add_mod file.length size
    have hmod := Nat.mod_lt file.length hsize
    rw [Nat.mul_comm] at hdiv
    rw [List.length_drop]
    omega

theorem keeps_of_rearranged (hrest : rest.length < size) (hlen : ∀ r ∈ rs, r.length = size)
    (hlen' : ∀ r ∈ rs', r.length = size) (h : Rearranged recordKey rs rs') :
    Keeps size (rs.flatten ++ rest) (rs'.flatten ++ rest) := by
  have hsame : rs'.length = rs.length := h.perm.length_eq
  have hdiv := length_div hrest hlen
  refine ⟨?_, ?_, ?_⟩
  · rw [List.length_append, List.length_append, length_flatten_of_forall hlen,
      length_flatten_of_forall hlen', hsame]
  · have hdrop := drop_flatten hlen' rest
    rw [hsame] at hdrop
    rw [hdiv, hdrop, drop_flatten hlen]
  · have hcut := cut_flatten hlen' rest
    rw [hsame] at hcut
    rw [hdiv, hcut, cut_flatten hlen]
    exact h.perm

theorem keeps_refl (size : ℕ) (file : List UInt8) : Keeps size file file :=
  ⟨rfl, rfl, List.Perm.refl _⟩

/-! ### `sort_lib` -/

theorem libRead_short {buffer : List UInt8} {start : ℕ}
    (h : file.length < start + size) (hsize : 0 < size) :
    (libHelpers.read false false file buffer size start).status < 0 := by
  have hgot : (readAt file start size).length < size := by
    rw [length_readAt]
    omega
  simp only [libHelpers, freadStartingFrom, Bool.false_eq_true, if_false, Int.lt_irrefl,
    if_pos hgot]
  exact Int.negSucc_lt_zero 0

theorem lt_mul_of_le (h : Holds size s rs rest) (hrest : rest.length < size) {j : ℕ}
    (hj : rs.length ≤ j) : s.file.length < j * size + size := by
  have hmul := Nat.mul_le_mul_right size hj
  rw [h.file_eq, List.length_append, length_flatten_of_forall h.length_eq]
  omega

/-- A record that is not complete stops `sort_lib` before it writes. -/
theorem libBody_stops (h : Holds size s rs rest) (hrest : rest.length < size)
    (hv : rs.length ≤ v.2) :
    ∃ s', sortBody libHelpers noFailure size s v = .error s' ∧ s'.file = s.file := by
  by_cases hleft : v.2 - 1 < rs.length
  · exact sortBody_stops_right (fun _ => rfl) (fun _ => rfl)
      (h.read_eq (libHelpers_sound size) (List.getElem?_eq_getElem hleft) h.first_length
        trivial trivial)
      (libRead_short (lt_mul_of_le h hrest hv) (by omega))
  · exact sortBody_stops_left (fun _ => rfl)
      (libRead_short (lt_mul_of_le h hrest (Nat.le_of_not_lt hleft)) (by omega))

namespace SortJob

variable {job : SortJob}

theorem sortWith_one {helpers : Helpers} (h : job.records = 1) :
    sortWith helpers noFailure job.size job.records job.start = (0, job.start) := by
  rw [h]
  rfl

/-- **`sort_lib` keeps a short file**, and returns -1 unless it is asked for one record. -/
theorem lib_short (h : job.Short) :
    (job.lib noFailure).1 = (if job.records = 1 then 0 else -1) ∧
      Keeps job.size job.file (job.lib noFailure).2.file := by
  split
  · -- with one record there is nothing to visit
    rename_i hone
    rw [lib, sortLib, sortWith_one hone]
    exact ⟨rfl, keeps_refl _ _⟩
  · rename_i hne
    obtain ⟨rs, rest, hfile, hlen, hrest, hdiv⟩ := exists_split job.one_le_size job.file
    have hholds : Holds job.size job.start rs rest :=
      ⟨hfile, hlen, job.first_length, job.second_length⟩
    -- `fread` gives less than a record somewhere, and the first such visit ends the run
    have hshort : rs.length < job.records := by
      rw [hdiv]
      exact (Nat.div_lt_iff_lt_mul job.one_le_size).mpr h
    have hone := job.one_le_records
    have hbad : ∃ v ∈ visits job.records, ¬v.2 < rs.length := by
      refine ⟨(max rs.length 1, max rs.length 1), mem_visits.mpr ?_, ?_⟩
      · simp only
        omega
      · exact not_lt.mpr (le_max_left _ _)
    obtain ⟨s', rs', hrun, hfile', hlen', hmoved⟩ := foldlM_stops hholds
      (fun v hv hlt s rs₁ hlen₁ hholds₁ =>
        let ⟨s', hbody, hholds', _⟩ := sortBody_ok hholds₁ (libHelpers_sound job.size)
          (not_fails _ v hv) (hlen₁.symm ▸ hlt) trivial trivial trivial
        ⟨s', hbody, hholds'⟩)
      (fun v _ hge s rs₁ hlen₁ hholds₁ =>
        libBody_stops hholds₁ hrest (hlen₁.symm ▸ Nat.le_of_not_lt hge)) hbad
    rw [lib, sortLib, sortWith, outerLoop_eq, hrun]
    refine ⟨rfl, ?_⟩
    rw [hfile, hfile']
    exact keeps_of_rearranged hrest hlen hlen' hmoved

end SortJob

/-! ### `sort_sys`: a visit -/

/-- A buffer after a read of `size` bytes at `start`. -/
def afterRead (file buffer : List UInt8) (start size : ℕ) : List UInt8 :=
  readAt file start size ++ buffer.drop (readAt file start size).length

theorem length_afterRead {buffer : List UInt8} (h : buffer.length = size) (file : List UInt8)
    (start : ℕ) : (afterRead file buffer start size).length = size := by
  have hle : (readAt file start size).length ≤ size := by
    rw [length_readAt]
    exact min_le_left _ _
  rw [afterRead, List.length_append, List.length_drop]
  omega

theorem sysRead_ok (buffer : List UInt8) {start : ℕ} (hstart : IntSafe start)
    (hcount : IntSafe (readAt file start size).length) :
    sysHelpers.read false false file buffer size start =
      ⟨0, afterRead file buffer start size, true⟩ := by
  simp only [sysHelpers, readStartingFrom, Bool.false_eq_true, if_false, if_neg hstart,
    if_neg hcount, afterRead]

theorem sysRead_stops {buffer : List UInt8} {start : ℕ}
    (h : ¬(IntSafe start ∧ IntSafe (readAt file start size).length)) :
    (sysHelpers.read false false file buffer size start).status < 0 := by
  simp only [sysHelpers, readStartingFrom, Bool.false_eq_true, if_false]
  split
  · exact Int.negSucc_lt_zero 0
  · rename_i hstart
    have hcount : toInt (readAt file start size).length < 0 := by
      by_contra hcount
      exact h ⟨hstart, hcount⟩
    rw [if_pos hcount]
    exact Int.negSucc_lt_zero 0

/-- The first bytes of the records of which the file has one. -/
def keysIn (size : ℕ) (file : List UInt8) : List ℕ := (begun size file).map recordKey

theorem lt_ceil_iff (hpos : 0 < size) (n : ℕ) : j < (n + size - 1) / size ↔ j * size < n := by
  rw [Nat.lt_iff_add_one_le, Nat.le_div_iff_mul_le hpos, Nat.succ_mul]
  omega

@[simp] theorem length_keysIn (size : ℕ) (file : List UInt8) :
    (keysIn size file).length = (file.length + size - 1) / size := by
  rw [keysIn, List.length_map, begun, length_cut]

theorem lt_length_keysIn_iff (hpos : 0 < size) : j < (keysIn size file).length ↔
    j * size < file.length := by
  rw [length_keysIn, lt_ceil_iff hpos]

/-- The first byte of a buffer after a read: the file's, or else the one from before. -/
theorem recordKey_afterRead (hpos : 0 < size) (file buffer : List UInt8) (j : ℕ) :
    recordKey (afterRead file buffer (j * size) size) =
      (keysIn size file)[j]?.getD (recordKey buffer) := by
  by_cases hj : j * size < file.length
  · have hget : (keysIn size file)[j]? = some (recordKey (readAt file (j * size) size)) := by
      rw [keysIn, List.getElem?_map, begun, getElem?_cut ((lt_ceil_iff hpos _).mpr hj)]
      rfl
    have hpos' : 0 < (readAt file (j * size) size).length := by
      rw [length_readAt]
      omega
    rw [hget, Option.getD_some, afterRead]
    cases hread : readAt file (j * size) size with
    | nil =>
      rw [hread] at hpos'
      exact absurd hpos' (Nat.lt_irrefl 0)
    | cons c l => rfl
  · have hnone : (keysIn size file)[j]? = none :=
      List.getElem?_eq_none (Nat.le_of_not_lt fun h => hj ((lt_length_keysIn_iff hpos).mp h))
    have hread : readAt file (j * size) size = [] := by
      rw [readAt, List.drop_eq_nil_of_le (Nat.le_of_not_lt hj), List.take_nil]
    rw [hnone, afterRead, hread]
    rfl

/-- The file is `F`, and the buffers hold records that start with `a` and `b`. -/
structure Steady (size : ℕ) (F : List UInt8) (a b : ℕ) (s : Sorter) : Prop where
  file_eq : s.file = F
  first_length : s.first.length = size
  second_length : s.second.length = size
  first_key : recordKey s.first = a
  second_key : recordKey s.second = b

/-- No offset of the records up to `i` and no count is negative as an `int`. -/
structure SafeTo (size : ℕ) (F : List UInt8) (i : ℕ) : Prop where
  pos : 0 < size
  record : IntSafe size
  count : ∀ j, IntSafe (readAt F (j * size) size).length
  offset : ∀ j ≤ i, IntSafe (j * size)

variable {F : List UInt8}

theorem SafeTo.mono (h : SafeTo size F i) (hj : j ≤ i) : SafeTo size F j :=
  ⟨h.pos, h.record, h.count, fun k hk => h.offset k (hk.trans hj)⟩

/-- The two reads of a visit, whether the file has the records or not. -/
theorem Steady.sortBody_eq (h : Steady size F a b s) (hsafe : SafeTo size F i) (hv : v.2 ≤ i) :
    ∃ s', Steady size F ((keysIn size F)[v.2 - 1]?.getD a) ((keysIn size F)[v.2]?.getD b) s' ∧
      sortBody sysHelpers noFailure size s v =
        if recordKey s'.second < recordKey s'.first then
          writeSecond sysHelpers noFailure size v s' >>= writeFirst sysHelpers noFailure size v
        else .ok s' := by
  obtain ⟨rfl, hfirst, hsecond, rfl, rfl⟩ := h
  have hleft := sysRead_ok s.first (hsafe.offset (v.2 - 1) (by omega))
    (hsafe.count (v.2 - 1))
  have hright := sysRead_ok s.second (hsafe.offset v.2 hv) (hsafe.count v.2)
  refine ⟨_, ?_, sortBody_of_reads (fun _ => rfl) (fun _ => rfl) hleft hright⟩
  exact ⟨rfl, length_afterRead hfirst _ _, length_afterRead hsecond _ _,
    recordKey_afterRead hsafe.pos _ _ _, recordKey_afterRead hsafe.pos _ _ _⟩

/-! ### `sort_sys`: a pass -/

/-- A part of the loops makes no file shorter. -/
def NoShorter (f : Sorter → Except Sorter Sorter) : Prop :=
  ∀ s, s.file.length ≤ (outcome (f s)).file.length

theorem le_outcome_bind {f : Sorter → Except Sorter Sorter} (hf : NoShorter f)
    (x : Except Sorter Sorter) :
    (outcome x).file.length ≤ (outcome (x >>= f)).file.length := by
  cases x with
  | ok s => exact hf s
  | error s => exact le_rfl

theorem NoShorter.bind {f g : Sorter → Except Sorter Sorter} (hf : NoShorter f)
    (hg : NoShorter g) : NoShorter fun s => f s >>= g :=
  fun s => (hf s).trans (le_outcome_bind hg (f s))

theorem length_le_sysWrite (size : ℕ) (file buffer : List UInt8) (start : ℕ) :
    file.length ≤ (sysHelpers.write false false file buffer size start).data.length := by
  simp only [sysHelpers, writeStartingFrom, Bool.false_eq_true, if_false]
  split
  · exact le_rfl
  · rw [length_writeAt]
    exact le_max_left _ _

theorem noShorter_of_write {helpers : Helpers} (v : ℕ × ℕ)
    (h : ∀ file buffer start,
      file.length ≤ (helpers.write false false file buffer size start).data.length) :
    NoShorter fun s => sortBody helpers noFailure size s v := by
  -- reading changes no file, and writing never makes it shorter
  have hread : NoShorter (readFirst helpers noFailure size v) := by
    intro s
    simp only [readFirst, outcome_check]
    exact le_rfl
  have hread' : NoShorter (readSecond helpers noFailure size v) := by
    intro s
    simp only [readSecond, outcome_check]
    exact le_rfl
  have hwrite : NoShorter (writeSecond helpers noFailure size v) := by
    intro s
    simp only [writeSecond, outcome_check, noFailure]
    exact h _ _ _
  have hwrite' : NoShorter (writeFirst helpers noFailure size v) := by
    intro s
    simp only [writeFirst, outcome_check, noFailure]
    exact h _ _ _
  refine hread.bind (hread'.bind fun s => ?_)
  split
  · exact hwrite.bind hwrite' s
  · exact le_rfl

theorem noShorter_sortBody (size : ℕ) (v : ℕ × ℕ) :
    NoShorter fun s => sortBody sysHelpers noFailure size s v :=
  noShorter_of_write v (length_le_sysWrite size)

theorem noShorter_innerLoop (size i j : ℕ) :
    NoShorter (innerLoop (sortBody sysHelpers noFailure size) i j) := by
  induction j with
  | zero => exact fun s => le_rfl
  | succ j ih => exact (noShorter_sortBody size (i, j + 1)).bind ih

theorem outcome_outerLoop_le (s : Sorter) {n N : ℕ} (h : n ≤ N) :
    (outcome (outerLoop (sortBody sysHelpers noFailure size) n s)).file.length ≤
      (outcome (outerLoop (sortBody sysHelpers noFailure size) N s)).file.length := by
  induction h with
  | refl => exact le_rfl
  | step _ ih => exact ih.trans (le_outcome_bind (noShorter_innerLoop size _ _) _)

/-- What the buffers hold is in order with the keys that the visits from `j` down read. -/
def Calm (ks : List ℕ) (j a b : ℕ) : Prop :=
  j < ks.length ∨ (∀ k ∈ ks, k ≤ b) ∧ (j = ks.length ∨ a ≤ b)

section Calm

variable {ks : List ℕ}

theorem getD_of_lt (h : j < ks.length) (a : ℕ) : ks[j]?.getD a = ks[j] := by
  rw [List.getElem?_eq_getElem h, Option.getD_some]

theorem getD_of_le (h : ks.length ≤ j) (a : ℕ) : ks[j]?.getD a = a := by
  rw [List.getElem?_eq_none h, Option.getD_none]

theorem Calm.le (h : Calm ks (j + 1) a b) (hks : ks.Pairwise (· ≤ ·)) :
    ks[j]?.getD a ≤ ks[j + 1]?.getD b := by
  rcases h with hj | ⟨hall, hj⟩
  · rw [getD_of_lt hj, getD_of_lt (Nat.lt_of_succ_lt hj)]
    exact List.pairwise_iff_getElem.mp hks _ _ _ _ (Nat.lt_succ_self j)
  · rcases hj with hj | hab
    · rw [getD_of_le hj.ge, getD_of_lt (by omega)]
      exact hall _ (List.getElem_mem _)
    · by_cases hlt : j < ks.length
      · rw [getD_of_lt hlt]
        rcases Nat.lt_or_ge (j + 1) ks.length with hlt' | hge
        · rw [getD_of_lt hlt']
          exact List.pairwise_iff_getElem.mp hks _ _ _ _ (Nat.lt_succ_self j)
        · rw [getD_of_le hge]
          exact hall _ (List.getElem_mem _)
      · rw [getD_of_le (Nat.le_of_not_lt hlt), getD_of_le (by omega)]
        exact hab

theorem Calm.pred (h : Calm ks (j + 1) a b) :
    Calm ks j (ks[j]?.getD a) (ks[j + 1]?.getD b) := by
  by_cases hj : j < ks.length
  · exact Or.inl hj
  · have hle := Nat.le_of_not_lt hj
    rw [getD_of_le hle, getD_of_le (by omega)]
    rcases h with hlt | ⟨hall, heq | hab⟩
    · omega
    · omega
    · exact Or.inr ⟨hall, Or.inr hab⟩

/-- A visit that is in order although its pass is not comes before those that are not. -/
theorem Calm.of_pred (h : Calm ks j (ks[j]?.getD a) (ks[j + 1]?.getD b))
    (hj : ks.length ≤ j + 1) (hle : ks[j]?.getD a ≤ ks[j + 1]?.getD b)
    (hks : ks.Pairwise (· ≤ ·)) : Calm ks (j + 1) a b := by
  rw [getD_of_le hj] at h hle
  refine Or.inr ?_
  rcases h with hlt | ⟨hall, -⟩
  · have hlast : j + 1 = ks.length := by omega
    refine ⟨fun k hk => ?_, Or.inl hlast⟩
    obtain ⟨i, hi, rfl⟩ := List.getElem_of_mem hk
    rw [getD_of_lt hlt] at hle
    refine le_trans ?_ hle
    rcases Nat.lt_or_ge i j with hij | hij
    · exact List.pairwise_iff_getElem.mp hks _ _ _ _ hij
    · have : i = j := by omega
      subst this
      exact le_rfl
  · refine ⟨hall, ?_⟩
    rcases Nat.lt_or_ge j ks.length with hlt | hge
    · exact Or.inl (by omega)
    · rw [getD_of_le hge] at hle
      exact Or.inr hle

theorem getD_getD (h : i ≤ j) (a : ℕ) : ks[i]?.getD (ks[j]?.getD a) = ks[i]?.getD a := by
  rcases Nat.lt_or_ge i ks.length with hlt | hge
  · rw [getD_of_lt hlt, getD_of_lt hlt]
  · rw [getD_of_le (hge.trans h)]

end Calm

theorem writes_ok {helpers : Helpers} {safe : ℕ → Prop} (hs : helpers.Sound size safe)
    (hfirst : s.first.length = size) (hsecond : s.second.length = size)
    (hleft : safe ((v.2 - 1) * size)) (hright : safe (v.2 * size)) (hsize : safe size) :
    ∃ s', (writeSecond helpers noFailure size v s >>= writeFirst helpers noFailure size v) =
      .ok s' ∧ s'.file =
        writeAt (writeAt s.file ((v.2 - 1) * size) s.second) (v.2 * size) s.first := by
  simp only [writeSecond, writeFirst, noFailure, hs.write_ok hsecond hleft hsize, check_ok, bind,
    Except.bind]
  rw [hs.write_ok hfirst hright hsize, check_ok]
  exact ⟨_, rfl, rfl⟩

namespace Steady

/-- A visit that finds its buffers in order. -/
theorem visit (h : Steady size F a b s) (hsafe : SafeTo size F i) (hv : v.2 ≤ i)
    (hle : (keysIn size F)[v.2 - 1]?.getD a ≤ (keysIn size F)[v.2]?.getD b) :
    ∃ s', sortBody sysHelpers noFailure size s v = .ok s' ∧
      Steady size F ((keysIn size F)[v.2 - 1]?.getD a) ((keysIn size F)[v.2]?.getD b) s' := by
  obtain ⟨s', h', heq⟩ := h.sortBody_eq hsafe hv
  refine ⟨s', ?_, h'⟩
  rw [heq, h'.first_key, h'.second_key, if_neg (Nat.not_lt.mpr hle)]

/-- A visit beyond the complete records that exchanges writes behind the end of the file. -/
theorem visit_longer (h : Steady size F a b s) (hsafe : SafeTo size F i) (hv : v.2 ≤ i)
    (hshort : F.length < (v.2 + 1) * size)
    (hlt : (keysIn size F)[v.2]?.getD b < (keysIn size F)[v.2 - 1]?.getD a) :
    F.length < (outcome (sortBody sysHelpers noFailure size s v)).file.length := by
  obtain ⟨s₁, h₁, heq⟩ := h.sortBody_eq hsafe hv
  obtain ⟨s₂, hwrites, hfile⟩ := writes_ok (sysHelpers_sound size) h₁.first_length
    h₁.second_length (hsafe.offset _ (by omega)) (hsafe.offset _ hv) hsafe.record
  rw [heq, h₁.first_key, h₁.second_key, if_pos hlt, hwrites, outcome, hfile, length_writeAt,
    h₁.first_length]
  rw [Nat.succ_mul] at hshort
  exact hshort.trans_le (le_max_right _ _)

/-- A calm pass leaves the file alone. -/
theorem innerLoop (h : Steady size F a b s) (hsafe : SafeTo size F i) (hj : j < i)
    (hks : (keysIn size F).Pairwise (· ≤ ·)) (hcalm : Calm (keysIn size F) (j + 1) a b) :
    ∃ s', FileIo.innerLoop (sortBody sysHelpers noFailure size) i (j + 1) s = .ok s' ∧
      Steady size F ((keysIn size F)[0]?.getD a) ((keysIn size F)[1]?.getD b) s' := by
  induction j generalizing s a b with
  | zero =>
    obtain ⟨s', hbody, h'⟩ := h.visit (v := (i, 1)) hsafe hj (hcalm.le hks)
    refine ⟨s', ?_, h'⟩
    rw [FileIo.innerLoop, hbody]
    rfl
  | succ j ih =>
    obtain ⟨s₁, hbody, h₁⟩ := h.visit (v := (i, j + 1 + 1)) hsafe hj (hcalm.le hks)
    obtain ⟨s₂, hrest, h₂⟩ := ih h₁ (Nat.lt_of_succ_lt hj) hcalm.pred
    rw [getD_getD (Nat.zero_le _), getD_getD (by omega)] at h₂
    refine ⟨s₂, ?_, h₂⟩
    rw [FileIo.innerLoop, hbody, ok_bind]
    exact hrest

/-- Any other pass beyond the complete records makes it longer. -/
theorem innerLoop_longer (h : Steady size F a b s) (hsafe : SafeTo size F i) (hj : j < i)
    (hks : (keysIn size F).Pairwise (· ≤ ·)) (hlen : (keysIn size F).length ≤ j + 1)
    (hcalm : ¬Calm (keysIn size F) (j + 1) a b) :
    F.length <
      (outcome
        (FileIo.innerLoop (sortBody sysHelpers noFailure size) i (j + 1) s)).file.length := by
  have hend : F.length ≤ (j + 1) * size :=
    Nat.le_of_not_lt fun h => Nat.not_lt.mpr hlen ((lt_length_keysIn_iff hsafe.pos).mpr h)
  have hshort : F.length < (j + 1 + 1) * size := by
    have := hsafe.pos
    rw [Nat.succ_mul (j + 1)]
    omega
  -- from the end of the file downwards, until a visit exchanges
  induction j generalizing s a b with
  | zero =>
    -- the buffers still hold the records that were read last
    have hlt : (keysIn size F)[1]?.getD b < (keysIn size F)[0]?.getD a := by
      by_contra hge
      refine hcalm (Calm.of_pred ?_ hlen (Nat.not_lt.mp hge) hks)
      rcases Nat.eq_zero_or_pos (keysIn size F).length with hzero | hpos
      · rw [List.length_eq_zero_iff.mp hzero]
        exact Or.inr ⟨fun k hk => absurd hk List.not_mem_nil, Or.inl rfl⟩
      · exact Or.inl hpos
    exact (h.visit_longer (v := (i, 1)) hsafe hj hshort hlt).trans_le
      (le_outcome_bind (noShorter_innerLoop size i 0) _)
  | succ j ih =>
    by_cases hlt : (keysIn size F)[j + 1 + 1]?.getD b < (keysIn size F)[j + 1]?.getD a
    · exact (h.visit_longer (v := (i, j + 1 + 1)) hsafe hj hshort hlt).trans_le
        (le_outcome_bind (noShorter_innerLoop size i (j + 1)) _)
    · -- nothing to exchange here, so the reason lies further down
      have hle := Nat.not_lt.mp hlt
      have hcalm' : ¬Calm (keysIn size F) (j + 1) _ _ := fun hpred =>
        hcalm (hpred.of_pred hlen hle hks)
      have hlen' : (keysIn size F).length ≤ j + 1 :=
        Nat.le_of_not_lt fun h => hcalm' (Or.inl h)
      have hend' : F.length ≤ (j + 1) * size :=
        Nat.le_of_not_lt fun h => Nat.not_lt.mpr hlen' ((lt_length_keysIn_iff hsafe.pos).mpr h)
      obtain ⟨s₁, hbody, h₁⟩ := h.visit (v := (i, j + 1 + 1)) hsafe hj hle
      have hrest := ih h₁ (Nat.lt_of_succ_lt hj) hlen' hcalm' hend'
        (hend'.trans_lt (Nat.mul_lt_mul_of_pos_right (Nat.lt_succ_self _) hsafe.pos))
      rw [FileIo.innerLoop, hbody, ok_bind]
      exact hrest

end Steady

/-! ### `sort_sys`: all passes -/

section Passes

variable {s₀ : Sorter} {N : ℕ}

theorem outerLoop_error (h : outerLoop (sortBody sysHelpers noFailure size) n s₀ = .error s)
    (hN : n ≤ N) :
    outerLoop (sortBody sysHelpers noFailure size) N s₀ = .error s := by
  induction hN with
  | refl => exact h
  | step _ ih =>
    rw [outerLoop, ih]
    rfl

/-- Once a pass is calm beyond all records, so are the passes behind it. -/
theorem outerLoop_steady (hks : (keysIn size F).Pairwise (· ≤ ·)) (hn : 0 < n)
    (hlen : (keysIn size F).length ≤ n)
    (hrun : outerLoop (sortBody sysHelpers noFailure size) n s₀ = .ok s) (h : Steady size F a b s)
    (hback : (∀ k ∈ keysIn size F, k ≤ b) → ∀ k ∈ keysIn size F, k ≤ (keysIn size F)[1]?.getD b)
    (hcalm : Calm (keysIn size F) n a b) (hN : n ≤ N) (hsafe : SafeTo size F N) :
    ∃ s', outerLoop (sortBody sysHelpers noFailure size) (N + 1) s₀ = .ok s' ∧
      Steady size F ((keysIn size F)[0]?.getD a) ((keysIn size F)[1]?.getD b) s' := by
  obtain ⟨hall, hab⟩ := hcalm.resolve_left (Nat.not_lt.mpr hlen)
  obtain ⟨j, rfl⟩ : ∃ j, n = j + 1 := ⟨n - 1, by omega⟩
  -- on the passes behind the end of the file
  induction hN with
  | refl =>
    obtain ⟨s', hpass, h'⟩ := h.innerLoop hsafe (Nat.lt_succ_self j) hks hcalm
    refine ⟨s', ?_, h'⟩
    rw [outerLoop, hrun, ok_bind, hpass]
  | @step N hN ih =>
    obtain ⟨s₁, hrun₁, h₁⟩ := ih (hsafe.mono (Nat.le_succ N))
    have hcalm₁ : Calm (keysIn size F) (N + 1) ((keysIn size F)[0]?.getD a)
        ((keysIn size F)[1]?.getD b) := by
      refine Or.inr ⟨hback hall, Or.inr ?_⟩
      rcases Nat.eq_zero_or_pos (keysIn size F).length with hzero | hpos
      · rw [getD_of_le hzero.le, getD_of_le (by omega)]
        exact hab.resolve_left (by omega)
      · rw [getD_of_lt hpos]
        exact hback hall _ (List.getElem_mem _)
    obtain ⟨s₂, hpass, h₂⟩ := h₁.innerLoop hsafe (Nat.lt_succ_self N) hks hcalm₁
    rw [getD_getD le_rfl, getD_getD le_rfl] at h₂
    refine ⟨s₂, ?_, h₂⟩
    rw [outerLoop, hrun₁, ok_bind, hpass]

/-- If it is not, the file is longer from then on. -/
theorem outerLoop_longer (hks : (keysIn size F).Pairwise (· ≤ ·)) (hn : 0 < n)
    (hlen : (keysIn size F).length ≤ n)
    (hrun : outerLoop (sortBody sysHelpers noFailure size) n s₀ = .ok s) (h : Steady size F a b s)
    (hcalm : ¬Calm (keysIn size F) n a b) (hN : n ≤ N) (hsafe : SafeTo size F N) :
    F.length <
      (outcome (outerLoop (sortBody sysHelpers noFailure size) (N + 1) s₀)).file.length := by
  obtain ⟨j, rfl⟩ : ∃ j, n = j + 1 := ⟨n - 1, by omega⟩
  have hpass := h.innerLoop_longer (hsafe.mono hN) (Nat.lt_succ_self j) hks hlen hcalm
  refine lt_of_lt_of_le ?_ (outcome_outerLoop_le s₀ (Nat.succ_le_succ hN))
  rw [outerLoop, hrun, ok_bind]
  exact hpass

end Passes

/-! ### The records of a short file -/

theorem begun_append (hrest : rest.length < size) (hlen : ∀ r ∈ rs, r.length = size) :
    begun size (rs.flatten ++ rest) = rs ++ if rest = [] then [] else [rest] := by
  have hpos : 0 < size := by omega
  have htotal : (rs.flatten ++ rest).length + size - 1 =
      size * rs.length + (rest.length + size - 1) := by
    rw [List.length_append, length_flatten_of_forall hlen, Nat.mul_comm]
    omega
  rw [begun, htotal, Nat.mul_add_div hpos]
  split
  · rename_i hnil
    rw [hnil, List.length_nil, Nat.zero_add, Nat.div_eq_of_lt (by omega), cut_flatten_append hlen]
    rfl
  · rename_i hne
    have hone := List.length_pos_iff.mpr hne
    have hdiv : (rest.length + size - 1) / size = 1 :=
      Nat.div_eq_of_lt_le (by omega) (by omega)
    rw [hdiv, cut_flatten_append hlen, cut, List.take_of_length_le hrest.le]
    rfl

theorem keysIn_append (hrest : rest.length < size) (hlen : ∀ r ∈ rs, r.length = size) :
    keysIn size (rs.flatten ++ rest) =
      rs.map recordKey ++ if rest = [] then [] else [recordKey rest] := by
  rw [keysIn, begun_append hrest hlen, List.map_append]
  split <;> rfl

theorem inOrder_of_two_le {l : List (List UInt8)} {x first second : List UInt8} (h : 2 ≤ l.length)
    (hx : l[l.length - 1]? = some x) :
    InOrder J first second l ↔ (∀ c ∈ l, recordKey c ≤ recordKey x) ∧
      (J ≤ l.length ∨ l.countP (fun c => recordKey c < recordKey x) ≤ 1) := by
  match l, h with
  | r :: r' :: rs, _ =>
    have hlast : (r' :: rs).getLast (List.cons_ne_nil _ _) = x := by
      rw [List.getLast_eq_getElem]
      simpa using hx
    rw [InOrder, hlast]
    rfl

theorem intSafe_count (hsize : IntSafe size) (hrest : IntSafe (F.length % size))
    (j : ℕ) : IntSafe (readAt F (j * size) size).length := by
  rw [length_readAt]
  rcases Nat.le_total (j * size) F.length with hle | hle
  · rcases Nat.lt_or_ge (F.length - j * size) size with hlt | hge
    · have hmod : F.length % size = F.length - j * size := by
        obtain ⟨k, hk⟩ := Nat.exists_eq_add_of_le hle
        rw [hk, Nat.add_sub_cancel_left] at hlt ⊢
        rw [Nat.add_comm, Nat.add_mul_mod_self_right, Nat.mod_eq_of_lt hlt]
      rw [Nat.min_eq_right hlt.le, ← hmod]
      exact hrest
    · rw [Nat.min_eq_left hge]
      exact hsize
  · rw [Nat.sub_eq_zero_of_le hle, Nat.min_zero]
    decide

/-- The records in order, with the partial one behind them. -/
theorem pairwise_exchanged (rs : List (List UInt8)) :
    (exchanged (visits rs.length) rs).Pairwise fun a b => recordKey a ≤ recordKey b := by
  have hsort := (stableSort_foldl_exchange recordKey (le_refl rs.length)).1.sorted
  rwa [List.take_of_length_le (length_exchanged _ _).le] at hsort

theorem exists_cons_cons {l : List (List UInt8)} (h : 2 ≤ l.length) :
    ∃ a b u, l = a :: b :: u := by
  match l, h with
  | a :: b :: u, _ => exact ⟨a, b, u, rfl⟩

section Job

variable {s₀ : Sorter}

/-- The passes over complete records sort them. -/
theorem outerLoop_holds (h : Holds size s₀ rs rest) (hn : n ≤ rs.length)
    (hsize : IntSafe size) (hsafe : ∀ j < n, IntSafe (j * size)) :
    ∃ s, outerLoop (sortBody sysHelpers noFailure size) n s₀ = .ok s ∧
      Holds size s (exchanged (visits n) rs) rest := by
  have hvisits : ∀ v ∈ visits n, VisitSafe IntSafe size v := by
    intro v hv
    have hlt := SortJob.lt_of_mem_visits hv
    exact ⟨hsafe _ (by omega), hsafe _ hlt, hsize⟩
  obtain ⟨s, hrun, hholds, -⟩ := foldlM_ok h (sysHelpers_sound size) (SortJob.not_fails n)
    (fun v hv => (SortJob.lt_of_mem_visits hv).trans_le hn) hvisits
  exact ⟨s, (outerLoop_eq n s₀).trans hrun, hholds⟩

theorem Holds.steady (h : Holds size s rs rest) :
    Steady size (rs.flatten ++ rest) (recordKey s.first) (recordKey s.second) s :=
  ⟨h.file_eq, h.first_length, h.second_length, rfl, rfl⟩

/-- The passes before `J` end with the file `F` if `p` holds, else with a longer one. -/
def Settled (size : ℕ) (F : List UInt8) (s₀ : Sorter) (J : ℕ) (p : Prop) : Prop :=
  (p → ∃ s, outerLoop (sortBody sysHelpers noFailure size) J s₀ = .ok s ∧ s.file = F) ∧
    (¬p → F.length < (outcome (outerLoop (sortBody sysHelpers noFailure size) J s₀)).file.length)

/-- The first pass beyond all records settles it. -/
theorem settled_of_calm {p : Prop} (hks : (keysIn size F).Pairwise (· ≤ ·)) (hn : 0 < n)
    (hlen : (keysIn size F).length ≤ n)
    (hrun : outerLoop (sortBody sysHelpers noFailure size) n s₀ = .ok s) (h : Steady size F a b s)
    (hback : (∀ k ∈ keysIn size F, k ≤ b) → ∀ k ∈ keysIn size F, k ≤ (keysIn size F)[1]?.getD b)
    (hp : Calm (keysIn size F) n a b ↔ p) (hJ : n < J) (hsafe : SafeTo size F (J - 1)) :
    Settled size F s₀ J p := by
  obtain ⟨N, rfl⟩ : ∃ N, J = N + 1 := ⟨J - 1, by omega⟩
  refine ⟨fun hcalm => ?_, fun hcalm => ?_⟩
  · obtain ⟨s', hrun', h'⟩ := outerLoop_steady hks hn hlen hrun h hback (hp.mpr hcalm)
      (Nat.le_of_lt_succ hJ) hsafe
    exact ⟨s', hrun', h'.file_eq⟩
  · exact outerLoop_longer hks hn hlen hrun h (fun hc => hcalm (hp.mp hc))
      (Nat.le_of_lt_succ hJ) hsafe

/-- At most one record is begun. -/
theorem settled_few (h : Holds size s₀ rs rest)
    (hfew : (keysIn size (rs.flatten ++ rest)).length ≤ 1) (hJ : 1 < J)
    (hsafe : SafeTo size (rs.flatten ++ rest) (J - 1)) :
    Settled size (rs.flatten ++ rest) s₀ J
      (InOrder J s₀.first s₀.second (begun size (rs.flatten ++ rest))) := by
  have hkeys : keysIn size (rs.flatten ++ rest) =
      (begun size (rs.flatten ++ rest)).map recordKey := rfl
  have hnone : ∀ b, (keysIn size (rs.flatten ++ rest))[1]?.getD b = b := getD_of_le hfew
  refine settled_of_calm ?_ Nat.one_pos hfew rfl h.steady ?_ ?_ hJ hsafe
  · match keysIn size (rs.flatten ++ rest), hfew with
    | [], _ => exact List.Pairwise.nil
    | [k], _ => exact List.pairwise_singleton _ k
  · rw [hnone]
    exact id
  · rw [hkeys] at hfew ⊢
    match begun size (rs.flatten ++ rest), hfew with
    | [], _ => simp [Calm, InOrder]
    | [r], _ => simp [Calm, InOrder]

/-- The state at the end of the passes over complete records: `second_record` still holds
what the last visit read. -/
theorem outerLoop_last (h : Holds size s₀ rs rest) (hi : 0 < i) (hlen : rs.length = i + 1)
    (hsafe : SafeTo size F i) :
    ∃ s, outerLoop (sortBody sysHelpers noFailure size) rs.length s₀ = .ok s ∧
      Holds size s (exchanged (visits rs.length) rs) rest ∧
      (exchanged (visitsTo i 1) rs)[1]? = some s.second := by
  -- the last pass ends with the visit of the first two records
  have hvisits := visits_succ_eq hi
  have hmem : ∀ v ∈ visitsTo i 1, v ∈ visits (i + 1) := by
    intro v hv
    rw [hvisits]
    exact List.mem_append_left _ hv
  have hlt : ∀ v ∈ visitsTo i 1, v.2 ≤ i := fun v hv =>
    Nat.le_of_lt_succ (SortJob.lt_of_mem_visits (hmem v hv))
  obtain ⟨s₁, hrun₁, h₁, -⟩ := foldlM_ok h (sysHelpers_sound size)
    (fun v hv => SortJob.not_fails _ v (hmem v hv))
    (fun v hv => by have := hlt v hv; omega)
    (fun v hv => ⟨hsafe.offset _ (by have := hlt v hv; omega), hsafe.offset _ (hlt v hv),
      hsafe.record⟩)
  have hlen₁ : (exchanged (visitsTo i 1) rs).length = i + 1 := by rw [length_exchanged, hlen]
  have hfails : ∀ place b, noFailure ⟨(i, 1), place, b⟩ = false := fun _ _ => rfl
  obtain ⟨s₂, hbody, h₂, -, hsecond, -⟩ := sortBody_ok h₁ (sysHelpers_sound size) hfails
    (by omega) (hsafe.offset 0 (Nat.zero_le _))
    (hsafe.offset 1 hi) hsafe.record
  have hend : exchanged (visits (i + 1)) rs =
      exchange recordKey (exchanged (visitsTo i 1) rs) 1 := by
    rw [exchanged, hvisits, List.foldl_append]
    rfl
  refine ⟨s₂, ?_, ?_, hsecond⟩
  · rw [hlen, outerLoop_eq, hvisits, List.foldlM_append, hrun₁, ok_bind, List.foldlM_cons, hbody]
    rfl
  · rw [hlen, hend]
    exact h₂

theorem keysIn_sorted (hrest : rest.length < size) (hlen : ∀ r ∈ rs, r.length = size) :
    keysIn size ((exchanged (visits rs.length) rs).flatten ++ rest) =
      (exchanged (visits rs.length) rs).map recordKey ++
        if rest = [] then [] else [recordKey rest] :=
  keysIn_append hrest fun r hr => hlen r ((rearranged_exchanged _ rs).perm.subset hr)

/-- Two records or more are begun, and all of them are complete. -/
theorem settled_whole (h : Holds size s₀ rs []) (htwo : 2 ≤ rs.length) (hpos : 0 < size)
    (hJ : rs.length < J)
    (hsafe : SafeTo size ((exchanged (visits rs.length) rs).flatten ++ []) (J - 1)) :
    Settled size ((exchanged (visits rs.length) rs).flatten ++ []) s₀ J
      (InOrder J s₀.first s₀.second rs) := by
  obtain ⟨i, hlen⟩ : ∃ i, rs.length = i + 1 := ⟨rs.length - 1, by omega⟩
  obtain ⟨x, hx⟩ : ∃ x, rs[i]? = some x := ⟨_, List.getElem?_eq_getElem (by omega)⟩
  -- the buffers hold what the last visit has read
  obtain ⟨s, hrun, hholds, hsecond⟩ := outerLoop_last h (by omega) hlen
    (hsafe.mono (by omega : i ≤ J - 1))
  have hkeys : keysIn size ((exchanged (visits rs.length) rs).flatten ++ []) =
      (exchanged (visits rs.length) rs).map recordKey := by
    rw [keysIn_sorted hpos h.length_eq, if_pos rfl, List.append_nil]
  have hperm := (rearranged_exchanged (visits rs.length) rs).perm
  have hsorted := pairwise_exchanged rs
  have hread : (∀ c ∈ rs, recordKey c ≤ recordKey s.second) ↔
      (∀ c ∈ rs, recordKey c ≤ recordKey x) ∧
        rs.countP (fun c => recordKey c < recordKey x) ≤ 1 :=
    forall_le_last_read_iff hlen (by omega) hx hsecond
  have hall : ∀ b, (∀ k ∈ keysIn size ((exchanged (visits rs.length) rs).flatten ++ []), k ≤ b) ↔
      ∀ c ∈ rs, recordKey c ≤ b := by
    intro b
    rw [hkeys, List.forall_mem_map]
    exact forall_congr' fun c => by rw [hperm.mem_iff]
  have hlen' : (exchanged (visits rs.length) rs).length = rs.length := length_exchanged _ _
  refine settled_of_calm ?_ (by omega) ?_ hrun hholds.steady ?_ ?_ hJ hsafe
  · rw [hkeys]
    exact List.pairwise_map.mpr hsorted
  · rw [hkeys, List.length_map, hlen']
  · intro hb
    obtain ⟨hmax, hcount⟩ := hread.mp ((hall _).mp hb)
    refine (hall _).mpr fun c hc => (hmax c hc).trans ?_
    rw [hkeys]
    rw [← hperm.countP_eq] at hcount
    obtain ⟨a, b, u, hcons⟩ := exists_cons_cons (htwo.trans hlen'.ge)
    rw [hcons] at hsorted hcount ⊢
    exact (countP_lt_le_one_iff hsorted _).mp hcount
  · -- behind the end both reads leave the buffers as they are
    rw [Calm, hkeys, List.length_map, hlen', ← hkeys, hall, hread]
    rw [inOrder_of_two_le htwo (by rw [hlen]; exact hx)]
    constructor
    · rintro (hlt | ⟨⟨hmax, hcount⟩, -⟩)
      · exact absurd hlt (Nat.lt_irrefl _)
      · exact ⟨hmax, Or.inr hcount⟩
    · rintro ⟨hmax, hle | hcount⟩
      · exact absurd hJ (Nat.not_lt.mpr hle)
      · exact Or.inr ⟨⟨hmax, hcount⟩, Or.inl rfl⟩

/-- A sorted file stays sorted with a greatest record at its end. -/
theorem pairwise_concat {rs : List (List UInt8)} {r : List UInt8}
    (hsorted : rs.Pairwise fun a b => recordKey a ≤ recordKey b)
    (hmax : ∀ c ∈ rs ++ [r], recordKey c ≤ recordKey r) :
    (rs ++ [r]).Pairwise fun a b => recordKey a ≤ recordKey b := by
  refine List.pairwise_append.mpr ⟨hsorted, List.pairwise_singleton _ _, fun c hc d hd => ?_⟩
  rw [List.mem_singleton.mp hd]
  exact hmax c (List.mem_append_left _ hc)

/-- If the record at the end is not the greatest, the one before it is greater. -/
theorem recordKey_lt_of_not_max {rs : List (List UInt8)} {r : List UInt8} {j : ℕ}
    (hsorted : rs.Pairwise fun a b => recordKey a ≤ recordKey b) (hlen : rs.length = j + 1)
    (hmax : ¬∀ c ∈ rs ++ [r], recordKey c ≤ recordKey r) (hj : j < rs.length) :
    recordKey r < recordKey rs[j] := by
  by_contra hge
  apply hmax
  intro c hc
  rcases List.mem_append.mp hc with hc | hc
  · obtain ⟨k, hk, rfl⟩ := List.getElem_of_mem hc
    refine le_trans ?_ (Nat.not_lt.mp hge)
    rcases Nat.lt_or_ge k j with hkj | hkj
    · exact List.pairwise_iff_getElem.mp hsorted _ _ _ _ hkj
    · obtain rfl : k = j := by omega
      exact le_rfl
  · rw [List.mem_singleton.mp hc]

/-- Two records or more are begun, and the last of them is partial. -/
theorem settled_partial (h : Holds size s₀ rs rest) (hone : 1 ≤ rs.length)
    (hrest : rest.length < size) (hne : rest ≠ []) (hJ : rs.length < J)
    (hsafe : SafeTo size ((exchanged (visits rs.length) rs).flatten ++ rest) (J - 1)) :
    Settled size ((exchanged (visits rs.length) rs).flatten ++ rest) s₀ J
      (InOrder J s₀.first s₀.second (rs ++ [rest])) := by
  obtain ⟨s, hrun, hholds⟩ := outerLoop_holds h le_rfl hsafe.record fun j hj =>
    hsafe.offset j (by omega)
  have hkeys : keysIn size ((exchanged (visits rs.length) rs).flatten ++ rest) =
      (exchanged (visits rs.length) rs ++ [rest]).map recordKey := by
    rw [keysIn_sorted hrest h.length_eq, if_neg hne, List.map_append]
    rfl
  have hperm := (rearranged_exchanged (visits rs.length) rs).perm
  have hsorted := pairwise_exchanged rs
  have hlen' : (exchanged (visits rs.length) rs).length = rs.length := length_exchanged _ _
  have hmem : (exchanged (visits rs.length) rs ++ [rest]).Perm (rs ++ [rest]) :=
    hperm.append_right [rest]
  obtain ⟨S, hS⟩ : ∃ S, exchanged (visits rs.length) rs ++ [rest] = S := ⟨_, rfl⟩
  rw [hS] at hkeys hmem
  have hSlen : S.length = rs.length + 1 := by
    rw [hmem.length_eq, List.length_append, List.length_singleton]
  have hlast : (rs ++ [rest])[(rs ++ [rest]).length - 1]? = some rest := by simp
  have horder : InOrder J s₀.first s₀.second (rs ++ [rest]) ↔
      (∀ c ∈ S, recordKey c ≤ recordKey rest) ∧
        (J ≤ rs.length + 1 ∨ S.countP (fun c => recordKey c < recordKey rest) ≤ 1) := by
    rw [inOrder_of_two_le (by simpa using hone) hlast, ← hmem.length_eq, hSlen, hmem.countP_eq]
    exact and_congr_left' (forall_congr' fun c => by rw [hmem.mem_iff])
  rw [horder]
  obtain ⟨j, hj⟩ : ∃ j, rs.length = j + 1 := ⟨rs.length - 1, by omega⟩
  have hsafe' := hsafe.mono (by omega : rs.length ≤ J - 1)
  by_cases hmax : ∀ c ∈ S, recordKey c ≤ recordKey rest
  · -- the incomplete record is the greatest, and stays behind the complete ones
    have hSsorted : S.Pairwise fun a b => recordKey a ≤ recordKey b := by
      rw [← hS] at hmax ⊢
      exact pairwise_concat hsorted hmax
    have hks : (keysIn size ((exchanged (visits rs.length) rs).flatten ++ rest)).Pairwise
        (· ≤ ·) := by
      rw [hkeys]
      exact List.pairwise_map.mpr hSsorted
    have hkeysLen : (keysIn size ((exchanged (visits rs.length) rs).flatten ++ rest)).length =
        rs.length + 1 := by rw [hkeys, List.length_map, hSlen]
    obtain ⟨s', hpass, h'⟩ := hholds.steady.innerLoop hsafe' (by omega : j < rs.length) hks
      (Or.inl (by omega))
    have hrun' : outerLoop (sortBody sysHelpers noFailure size) (rs.length + 1) s₀ = .ok s' := by
      rw [outerLoop, hrun, ok_bind]
      rw [← hj] at hpass
      exact hpass
    rcases Nat.lt_or_ge (rs.length + 1) J with hlt | hge
    · obtain ⟨c₀, c₁, u, rfl⟩ := exists_cons_cons (Nat.le_trans (Nat.succ_le_succ hone) hSlen.ge)
      refine settled_of_calm hks (Nat.succ_pos _) hkeysLen.le hrun' h' ?_ ?_ hlt hsafe
      · rw [getD_getD le_rfl]
        exact id
      · rw [Calm, hkeysLen, hkeys, countP_lt_le_one_iff hSsorted, List.forall_mem_map]
        constructor
        · rintro (hlt' | ⟨hall, -⟩)
          · exact absurd hlt' (Nat.lt_irrefl _)
          · exact ⟨hmax, Or.inr (hall rest (hmem.symm.subset (by simp)))⟩
        · rintro ⟨-, hle | hle⟩
          · exact absurd hlt (Nat.not_lt.mpr hle)
          · exact Or.inr ⟨fun c hc => (hmax c hc).trans hle, Or.inl rfl⟩
    · obtain rfl : J = rs.length + 1 := by omega
      exact ⟨fun _ => ⟨s', hrun', h'.file_eq⟩, fun hno => absurd ⟨hmax, Or.inl le_rfl⟩ hno⟩
  · -- a complete record is greater, and goes behind the end of the file
    refine ⟨fun h => absurd h.1 hmax, fun _ => ?_⟩
    have hjlt : j < (exchanged (visits rs.length) rs).length := by omega
    have hlt : recordKey rest < recordKey (exchanged (visits rs.length) rs)[j] := by
      rw [← hS] at hmax
      exact recordKey_lt_of_not_max hsorted (hlen'.trans hj) hmax hjlt
    have hright : S[j + 1]? = some rest := by
      have hzero : j + 1 - (exchanged (visits rs.length) rs).length = 0 := by omega
      rw [← hS, List.getElem?_append_right (by omega), hzero]
      rfl
    have hleft : S[j]? = some (exchanged (visits rs.length) rs)[j] := by
      rw [← hS, List.getElem?_append_left hjlt, List.getElem?_eq_getElem hjlt]
    have hshort : ((exchanged (visits rs.length) rs).flatten ++ rest).length <
        (j + 1 + 1) * size := by
      rw [List.length_append, length_flatten_of_forall hholds.length_eq, hlen', hj,
        Nat.succ_mul (j + 1)]
      omega
    have hvisit := hholds.steady.visit_longer (v := (j + 1, j + 1)) hsafe' hj.ge hshort (by
      rw [hkeys, List.getElem?_map, List.getElem?_map, hright, Nat.add_sub_cancel, hleft]
      exact hlt)
    refine lt_of_lt_of_le (hvisit.trans_le ?_) (outcome_outerLoop_le s₀ hJ)
    rw [outerLoop, hrun, ok_bind, hj, FileIo.innerLoop]
    exact le_outcome_bind (noShorter_innerLoop size (j + 1) j) _

/-- What the passes before `J` do to the file, beyond its complete records. -/
theorem settled (h : Holds size s₀ rs rest) (hrest : rest.length < size) (hone : 1 < J)
    (hJ : rs.length < J)
    (hsafe : SafeTo size ((exchanged (visits rs.length) rs).flatten ++ rest) (J - 1)) :
    Settled size ((exchanged (visits rs.length) rs).flatten ++ rest) s₀ J
      (InOrder J s₀.first s₀.second (begun size (rs.flatten ++ rest))) := by
  have hbegun := begun_append hrest h.length_eq
  by_cases hfew : (begun size (rs.flatten ++ rest)).length ≤ 1
  · have hsame : exchanged (visits rs.length) rs = rs := by
      rw [hbegun, List.length_append] at hfew
      rcases Nat.le_one_iff_eq_zero_or_eq_one.mp (by omega : rs.length ≤ 1) with hlen | hlen <;>
        rw [hlen] <;> rfl
    rw [hsame] at hsafe ⊢
    exact settled_few h (by rw [keysIn, List.length_map]; exact hfew) hone hsafe
  · rw [hbegun] at hfew ⊢
    by_cases hnil : rest = []
    · subst hnil
      rw [if_pos rfl, List.append_nil rs] at hfew ⊢
      exact settled_whole h (by omega) (by omega) hJ hsafe
    · rw [if_neg hnil] at hfew ⊢
      rw [List.length_append, List.length_singleton] at hfew
      exact settled_partial h (by omega) hrest hnil hJ hsafe

/-- A conversion of the first visit of a pass turns negative. -/
theorem outerLoop_stops (hrun : outerLoop (sortBody sysHelpers noFailure size) (j + 1) s₀ = .ok s)
    (h : ¬(IntSafe (j * size) ∧ IntSafe (readAt s.file (j * size) size).length ∧
      IntSafe ((j + 1) * size) ∧ IntSafe (readAt s.file ((j + 1) * size) size).length)) :
    ∃ s', outerLoop (sortBody sysHelpers noFailure size) (j + 2) s₀ = .error s' ∧
      s'.file = s.file := by
  have hbody : ∃ s', sortBody sysHelpers noFailure size s (j + 1, j + 1) = .error s' ∧
      s'.file = s.file := by
    by_cases hleft : IntSafe (j * size) ∧ IntSafe (readAt s.file (j * size) size).length
    · exact sortBody_stops_right (fun _ => rfl) (fun _ => rfl)
        (sysRead_ok s.first hleft.1 hleft.2)
        (sysRead_stops fun hright => h ⟨hleft.1, hleft.2, hright⟩)
    · exact sortBody_stops_left (fun _ => rfl) (sysRead_stops hleft)
  obtain ⟨s', hbody, hfile⟩ := hbody
  refine ⟨s', ?_, hfile⟩
  rw [outerLoop, hrun, ok_bind, FileIo.innerLoop, hbody]
  rfl

end Job

namespace SortJob

variable {job : SortJob}

/-- What both sorts do when `sort_lib` has returned -1. -/
theorem sameOnShort_iff_sys (h : job.Short) (hone : job.records ≠ 1) :
    job.SameOnShort ↔ ∃ s,
      outerLoop (sortBody sysHelpers noFailure job.size) job.records job.start = .error s ∧
        Keeps job.size job.file s.file := by
  obtain ⟨hstatus, hkeeps⟩ := lib_short h
  rw [if_neg hone] at hstatus
  rw [SameOnShort, hstatus, sys, sortSys, sortWith]
  cases outerLoop (sortBody sysHelpers noFailure job.size) job.records job.start with
  | ok s => simp
  | error s => simp [hkeeps]

theorem exists_firstUnsafe (h : ∃ j < job.records, ¬IntSafe (j * job.size)) :
    ∃ J, job.FirstUnsafe J := by
  classical
  refine ⟨Nat.find h, (Nat.find_spec h).1, (Nat.find_spec h).2, fun j hj => ?_⟩
  by_contra hnot
  exact Nat.find_min h hj ⟨hj.trans (Nat.find_spec h).1, hnot⟩

theorem FirstUnsafe.pos {J : ℕ} (h : job.FirstUnsafe J) : 0 < J := by
  refine Nat.pos_of_ne_zero fun hzero => h.not_safe ?_
  rw [hzero, Nat.zero_mul]
  decide

/-- The parts of the file of a job. -/
structure Parts (job : SortJob) (rs : List (List UInt8)) (rest : List UInt8) : Prop where
  holds : Holds job.size job.start rs rest
  lt_size : rest.length < job.size
  lt_records : rs.length < job.records

theorem exists_parts (h : job.Short) : ∃ rs rest, job.Parts rs rest := by
  obtain ⟨rs, rest, hfile, hlen, hrest, hdiv⟩ := exists_split job.one_le_size job.file
  refine ⟨rs, rest, ⟨hfile, hlen, job.first_length, job.second_length⟩, hrest, ?_⟩
  rw [hdiv]
  exact (Nat.div_lt_iff_lt_mul job.one_le_size).mpr h

namespace Parts

variable {rs rs' : List (List UInt8)} {rest : List UInt8} {s : Sorter} {j J : ℕ}

theorem length_file (h : job.Parts rs rest) :
    job.file.length = rs.length * job.size + rest.length := by
  have hfile : job.file = rs.flatten ++ rest := h.holds.file_eq
  rw [hfile, List.length_append, length_flatten_of_forall h.holds.length_eq]

theorem keeps (h : job.Parts rs rest) (hmoved : Rearranged recordKey rs rs')
    (hfile : s.file = rs'.flatten ++ rest) : Keeps job.size job.file s.file := by
  have hfile' : job.file = rs.flatten ++ rest := h.holds.file_eq
  rw [hfile, hfile']
  exact keeps_of_rearranged h.lt_size h.holds.length_eq
    (fun r hr => h.holds.length_eq r (hmoved.perm.subset hr)) hmoved

theorem length_sorted (h : job.Parts rs rest) :
    ((exchanged (visits rs.length) rs).flatten ++ rest).length = job.file.length := by
  have hsorted : ∀ r ∈ exchanged (visits rs.length) rs, r.length = job.size := fun r hr =>
    h.holds.length_eq r ((rearranged_exchanged _ rs).perm.subset hr)
  rw [h.length_file, List.length_append, length_flatten_of_forall hsorted, length_exchanged]

/-- A conversion at the first visit of a pass turns negative, and the file is kept. -/
theorem same_of_stops (h : job.Parts rs rest) (hshort : job.Short)
    (hrun : outerLoop (sortBody sysHelpers noFailure job.size) (j + 1) job.start = .ok s)
    (hmoved : Rearranged recordKey rs rs') (hfile : s.file = rs'.flatten ++ rest)
    (hj : j + 1 < job.records)
    (hstop : ¬(IntSafe (j * job.size) ∧
      IntSafe (readAt s.file (j * job.size) job.size).length ∧ IntSafe ((j + 1) * job.size) ∧
      IntSafe (readAt s.file ((j + 1) * job.size) job.size).length)) : job.SameOnShort := by
  obtain ⟨s', hrun', hfile'⟩ := outerLoop_stops hrun hstop
  refine (sameOnShort_iff_sys hshort (by omega)).mpr ⟨s', outerLoop_error hrun' hj, ?_⟩
  rw [hfile']
  exact h.keeps hmoved hfile

/-- The passes before `J` over the complete records, if all their offsets are safe. -/
theorem exists_run (h : job.Parts rs rest) (hsize : IntSafe job.size) (hJ : J ≤ rs.length)
    (hsafe : ∀ j < J, IntSafe (j * job.size)) :
    ∃ s rs', outerLoop (sortBody sysHelpers noFailure job.size) J job.start = .ok s ∧
      Rearranged recordKey rs rs' ∧ s.file = rs'.flatten ++ rest := by
  obtain ⟨s, hrun, hholds⟩ := outerLoop_holds h.holds hJ hsize hsafe
  exact ⟨s, _, hrun, rearranged_exchanged _ rs, hholds.file_eq⟩

/-- A negative offset in front of the end of the file. -/
theorem same_of_complete (h : job.Parts rs rest) (hshort : job.Short)
    (hsize : IntSafe job.size) (hfirst : job.FirstUnsafe J)
    (hJ : J * job.size ≤ job.file.length) : job.SameOnShort := by
  have hle : J ≤ rs.length := by
    by_contra hlt
    have hmul := Nat.mul_le_mul_right job.size (Nat.lt_of_not_le hlt)
    rw [h.length_file] at hJ
    rw [Nat.succ_mul] at hmul
    have := h.lt_size
    omega
  obtain ⟨j, rfl⟩ : ∃ j, J = j + 1 := ⟨J - 1, by have := hfirst.pos; omega⟩
  obtain ⟨s, rs', hrun, hmoved, hfile⟩ := h.exists_run hsize hle hfirst.safe
  exact h.same_of_stops hshort hrun hmoved hfile hfirst.lt_records fun hsafe =>
    hfirst.not_safe hsafe.2.2.1

/-- The length of the partial record is negative as an `int`. -/
theorem same_of_partial (h : job.Parts rs rest) (hshort : job.Short) (htwo : job.records ≠ 1)
    (hsize : IntSafe job.size) (hrest : ¬IntSafe rest.length) : job.SameOnShort := by
  by_cases hsafe : ∀ j ≤ rs.length, IntSafe (j * job.size)
  · have hone := job.one_le_records
    have hlt := h.lt_size
    -- the file is shorter than a record, and the first read gives what there is of it
    rcases Nat.eq_zero_or_pos rs.length with hzero | hpos
    · have hnil : rs = [] := List.length_eq_zero_iff.mp hzero
      subst hnil
      refine h.same_of_stops hshort (j := 0) rfl (Rearranged.refl _) h.holds.file_eq (by omega)
        fun hstop => hrest ?_
      have hread : (readAt job.start.file (0 * job.size) job.size).length = rest.length := by
        rw [h.holds.file_eq, length_readAt, List.flatten_nil, List.nil_append, Nat.zero_mul]
        omega
      rw [← hread]
      exact hstop.2.1
    · obtain ⟨j, hj⟩ : ∃ j, rs.length = j + 1 := ⟨rs.length - 1, by omega⟩
      obtain ⟨s, rs', hrun, hmoved, hfile⟩ := h.exists_run hsize hj.ge fun k hk =>
        hsafe k (by omega)
      -- the visit that reads the incomplete record stops
      refine h.same_of_stops hshort hrun hmoved hfile (hj ▸ h.lt_records) fun hstop => hrest ?_
      have hread : (readAt s.file ((j + 1) * job.size) job.size).length = rest.length := by
        have hlen' : ∀ r ∈ rs', r.length = job.size := fun r hr =>
          h.holds.length_eq r (hmoved.perm.subset hr)
        rw [hfile, length_readAt, List.length_append, length_flatten_of_forall hlen',
          hmoved.perm.length_eq, hj]
        omega
      rw [← hread]
      exact hstop.2.2.2
  · -- an offset beyond an `int` comes before the incomplete record
    push Not at hsafe
    obtain ⟨k, hk, hnot⟩ := hsafe
    obtain ⟨J, hfirst⟩ := exists_firstUnsafe ⟨k, hk.trans_lt h.lt_records, hnot⟩
    refine h.same_of_complete hshort hsize hfirst ?_
    have hJk : J ≤ k := by
      by_contra hlt
      exact hnot (hfirst.safe k (Nat.lt_of_not_le hlt))
    have hmul := Nat.mul_le_mul_right job.size (hJk.trans hk)
    rw [h.length_file]
    omega

theorem length_mod (h : job.Parts rs rest) : job.file.length % job.size = rest.length := by
  rw [h.length_file, Nat.add_comm, Nat.add_mul_mod_self_right, Nat.mod_eq_of_lt h.lt_size]

/-- What the passes before `J` do if no conversion in them turns negative. -/
theorem settled (h : job.Parts rs rest) (hsize : IntSafe job.size) (hrest : IntSafe rest.length)
    (hone : 1 < J) (hJ : rs.length < J) (hsafe : ∀ j < J, IntSafe (j * job.size)) :
    Settled job.size ((exchanged (visits rs.length) rs).flatten ++ rest) job.start J
      (InOrder J job.first job.second (begun job.size job.file)) := by
  have hfile : job.file = rs.flatten ++ rest := h.holds.file_eq
  have hmod : ((exchanged (visits rs.length) rs).flatten ++ rest).length % job.size =
      rest.length := by
    rw [h.length_sorted, h.length_mod]
  rw [hfile]
  exact FileIo.settled h.holds h.lt_size hone hJ
    ⟨job.one_le_size, hsize, intSafe_count hsize (by rw [hmod]; exact hrest),
      fun j hj => hsafe j (by omega)⟩

/-- Where no offset and no count is negative, the two do not do the same. -/
theorem not_same_of_safe (h : job.Parts rs rest) (hshort : job.Short) (htwo : job.records ≠ 1)
    (hsize : IntSafe job.size) (hrest : IntSafe rest.length)
    (hsafe : ∀ j < job.records, IntSafe (j * job.size)) : ¬job.SameOnShort := by
  rw [sameOnShort_iff_sys hshort htwo]
  rintro ⟨s, hrun, hkeeps⟩
  have hone := job.one_le_records
  obtain ⟨hok, hlonger⟩ := h.settled hsize hrest (by omega) h.lt_records hsafe
  by_cases horder : InOrder job.records job.first job.second (begun job.size job.file)
  · obtain ⟨s', hrun', -⟩ := hok horder
    rw [hrun] at hrun'
    nomatch hrun'
  · have hlen := hlonger horder
    rw [hrun, h.length_sorted, outcome, hkeeps.length] at hlen
    exact Nat.lt_irrefl _ hlen

/-- Beyond the complete records, the bytes that are compared decide. -/
theorem same_iff_inOrder (h : job.Parts rs rest) (hshort : job.Short) (hsize : IntSafe job.size)
    (hrest : IntSafe rest.length) (hfirst : job.FirstUnsafe J)
    (hJ : ¬J * job.size ≤ job.file.length) :
    job.SameOnShort ↔ InOrder J job.first job.second (begun job.size job.file) := by
  have hpos := hfirst.pos
  have hlt := hfirst.lt_records
  have hone : J ≠ 1 := by
    rintro rfl
    refine hfirst.not_safe ?_
    rw [Nat.one_mul]
    exact hsize
  have hJrs : rs.length < J := by
    by_contra hle
    have hmul := Nat.mul_le_mul_right job.size (Nat.le_of_not_lt hle)
    rw [h.length_file] at hJ
    omega
  obtain ⟨hok, hlonger⟩ := h.settled hsize hrest (by omega) hJrs hfirst.safe
  constructor
  · -- a run that exchanges behind the end makes the file longer
    intro hsame
    by_contra horder
    obtain ⟨s, hrun, hkeeps⟩ := (sameOnShort_iff_sys hshort (by omega)).mp hsame
    have hlen := (hlonger horder).trans_le (outcome_outerLoop_le job.start hlt.le)
    rw [hrun, h.length_sorted, outcome, hkeeps.length] at hlen
    exact Nat.lt_irrefl _ hlen
  · -- a calm run comes to the offset beyond an `int`, and stops there
    intro horder
    obtain ⟨s, hrun, hfile⟩ := hok horder
    obtain ⟨j, rfl⟩ : ∃ j, J = j + 1 := ⟨J - 1, by omega⟩
    exact h.same_of_stops hshort hrun (rearranged_exchanged _ rs) hfile hlt fun hsafe =>
      hfirst.not_safe hsafe.2.2.1

end Parts

/-- The size of a record is negative as an `int`. -/
theorem same_of_size (h : job.Short) (htwo : job.records ≠ 1) (hsize : ¬IntSafe job.size) :
    job.SameOnShort := by
  obtain ⟨rs, rest, hparts⟩ := exists_parts h
  have hone := job.one_le_records
  refine hparts.same_of_stops h (j := 0) rfl (Rearranged.refl rs) hparts.holds.file_eq (by omega)
    fun hsafe => hsize ?_
  have hright := hsafe.2.2.1
  rwa [Nat.zero_add, Nat.one_mul] at hright

theorem same_of_one (h : job.Short) (hone : job.records = 1) : job.SameOnShort := by
  obtain ⟨hstatus, hkeeps⟩ := lib_short h
  rw [if_pos hone] at hstatus
  rw [SameOnShort, hstatus, sys, sortSys, sortWith_one hone]
  exact ⟨rfl, keeps_refl _ _, hkeeps⟩

/-- Up to 2 GiB no conversion turns negative. -/
theorem same_small_iff (h : job.Short) (hsmall : job.records * job.size ≤ 2 ^ 31) :
    job.SameOnShort ↔ job.records = 1 := by
  refine ⟨fun hsame => ?_, same_of_one h⟩
  by_contra htwo
  obtain ⟨rs, rest, hparts⟩ := exists_parts h
  have hsafe : ∀ n < 2 ^ 31, IntSafe n := fun n hn => intSafe_iff.mpr (by omega)
  have hone := job.one_le_records
  have hsize : job.size * 2 ≤ job.records * job.size := by
    rw [Nat.mul_comm]
    exact Nat.mul_le_mul_right _ (by omega)
  have hpos := job.one_le_size
  have hlt := hparts.lt_size
  refine hparts.not_same_of_safe h htwo (hsafe _ (by omega)) (hsafe _ (by omega))
    (fun j hj => hsafe _ ?_) hsame
  exact (Nat.mul_lt_mul_of_pos_right hj hpos).trans_le hsmall

end SortJob

open SortJob

/-- **The two sorts do the same with a short file, and keep it,** iff they are asked for
one record, or a conversion of `sort_sys` turns negative before it compares bytes that are
out of order. -/
theorem sameOnShort_iff (job : SortJob) (h : job.Short) :
    job.SameOnShort ↔ job.records = 1 ∨ ¬IntSafe job.size ∨
      ¬IntSafe (job.file.length % job.size) ∨
      ∃ J, job.FirstUnsafe J ∧ (J * job.size ≤ job.file.length ∨
        InOrder J job.first job.second (begun job.size job.file)) := by
  obtain ⟨rs, rest, hparts⟩ := exists_parts h
  by_cases hone : job.records = 1
  · exact iff_of_true (same_of_one h hone) (Or.inl hone)
  by_cases hsize : IntSafe job.size
  swap
  · exact iff_of_true (same_of_size h hone hsize) (Or.inr (Or.inl hsize))
  by_cases hrest : IntSafe rest.length
  swap
  · rw [hparts.length_mod]
    exact iff_of_true (hparts.same_of_partial h hone hsize hrest) (Or.inr (Or.inr (Or.inl hrest)))
  have hrest' : IntSafe (job.file.length % job.size) := by rwa [hparts.length_mod]
  constructor
  · intro hsame
    refine Or.inr (Or.inr (Or.inr ?_))
    by_cases hsafe : ∀ j < job.records, IntSafe (j * job.size)
    · exact absurd hsame (hparts.not_same_of_safe h hone hsize hrest hsafe)
    · push Not at hsafe
      obtain ⟨J, hfirst⟩ := exists_firstUnsafe hsafe
      refine ⟨J, hfirst, or_iff_not_imp_left.mpr fun hJ => ?_⟩
      exact (hparts.same_iff_inOrder h hsize hrest hfirst hJ).mp hsame
  · rintro (hone' | hsize' | hrest'' | ⟨J, hfirst, horder⟩)
    · exact absurd hone' hone
    · exact absurd hsize hsize'
    · exact absurd hrest' hrest''
    · by_cases hJ : J * job.size ≤ job.file.length
      · exact hparts.same_of_complete h hsize hfirst hJ
      · exact (hparts.same_iff_inOrder h hsize hrest hfirst hJ).mpr (horder.resolve_left hJ)

/-- An empty file, and one record of one byte more than an `int` can count. -/
def emptyFile : SortJob where
  records := 2 ^ 31 + 1
  size := 1
  file := []
  first := [0]
  second := [0]
  one_le_records := Nat.le_add_left _ _
  one_le_size := Nat.zero_lt_one
  first_length := length_one_byte
  second_length := length_one_byte

theorem same_on_empty : emptyFile.Short ∧ emptyFile.SameOnShort := by
  have hshort : emptyFile.Short := by decide
  have hfirst : emptyFile.FirstUnsafe (2 ^ 31) :=
    ⟨Nat.lt_succ_self _, fun h => absurd (intSafe_iff.mp h) (by decide), fun j hj =>
      intSafe_iff.mpr (by rw [emptyFile, Nat.mul_one]; omega)⟩
  exact ⟨hshort, (sameOnShort_iff emptyFile hshort).mpr
    (Or.inr (Or.inr (Or.inr ⟨2 ^ 31, hfirst, Or.inr (le_refl 0)⟩)))⟩

/-- A record, and none behind it. -/
def missingRecord : SortJob where
  records := 2
  size := 1
  file := [5]
  first := [0]
  second := [0]
  one_le_records := Nat.two_pos
  one_le_size := Nat.zero_lt_one
  first_length := length_one_byte
  second_length := length_one_byte

/-- `sort_sys` takes what `second_record` held for the missing record, writes it to the
file and returns 0. -/
theorem missing_record_invented :
    missingRecord.Short ∧ (missingRecord.sys noFailure).1 = 0 ∧
      (missingRecord.sys noFailure).2.file = [0, 5] ∧
      (missingRecord.lib noFailure).1 = -1 ∧ ¬missingRecord.SameOnShort :=
  ⟨by decide, by decide, by decide, by decide, fun h => absurd h.1 (by decide)⟩

end FileIo
end OpSys
