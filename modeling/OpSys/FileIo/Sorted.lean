import Mathlib.Order.Nat
import OpSys.FileIo.Sort

/-!
# Sorting a complete file

Where the conversions to `int` leave all offsets and counts as they are, a visit of the
loops exchanges two neighbours of the list of records, so the sort is an insertion sort.
`sort_lib` converts nothing and always gets there; `sort_sys` stops at the first offset
that is negative as an `int`.

## Main definitions

* `Holds size s rs rest` — the file of `s` is the records `rs` and the bytes `rest`.
* `Helpers.Sound helpers size safe` — the helpers do their work at safe offsets, and
  stop at others.

## Main results

* `sortBody_ok` — a visit exchanges.
* `sortLib_stable` — `sort_lib` is a stable sort.
* `sort_agree_iff` — the two agree iff no offset is negative as an `int`.

## References

`lab2_file_system/system_vs_lib_io/program.c` and `utils.c`.
-/

namespace OpSys
namespace FileIo

open Records Exchange

/-- The file is the records `rs` of `size` bytes with `rest` behind them, and a buffer
holds one record. -/
structure Holds (size : ℕ) (s : Sorter) (rs : List (List UInt8)) (rest : List UInt8) :
    Prop where
  file_eq : s.file = rs.flatten ++ rest
  length_eq : ∀ r ∈ rs, r.length = size
  first_length : s.first.length = size
  second_length : s.second.length = size

/-- What the helpers do when no call fails and the records are complete. -/
structure Helpers.Sound (helpers : Helpers) (size : ℕ) (safe : ℕ → Prop) : Prop where
  read_ok : ∀ {file buffer : List UInt8} {start : ℕ}, buffer.length = size →
    start + size ≤ file.length → safe start → safe size →
    helpers.read false false file buffer size start = ⟨0, readAt file start size, true⟩
  read_stops : ∀ {file buffer : List UInt8} {start : ℕ}, start + size ≤ file.length →
    ¬(safe start ∧ safe size) → (helpers.read false false file buffer size start).status < 0
  write_ok : ∀ {file buffer : List UInt8} {start : ℕ}, buffer.length = size → safe start →
    safe size → helpers.write false false file buffer size start =
      ⟨0, writeAt file start buffer, true⟩

/-- An offset or a count that is not negative as an `int`. -/
def IntSafe (n : ℕ) : Prop := ¬toInt n < 0

instance (n : ℕ) : Decidable (IntSafe n) := inferInstanceAs (Decidable (¬_))

theorem intSafe_iff {n : ℕ} : IntSafe n ↔ n % 2 ^ 32 < 2 ^ 31 := by
  rw [IntSafe, toInt_neg_iff, Nat.not_le]

theorem sysHelpers_sound (size : ℕ) : sysHelpers.Sound size IntSafe where
  read_ok {file buffer start} hbuffer hlen hstart hsize := by
    -- a complete record is read
    have hgot : (readAt file start size).length = size := by
      rw [length_readAt]
      omega
    have hdrop : buffer.drop size = [] := List.drop_eq_nil_of_le hbuffer.le
    simp only [sysHelpers, readStartingFrom, Bool.false_eq_true, if_false, hgot, hdrop,
      if_neg hstart, if_neg hsize, List.append_nil]
  read_stops {file buffer start} hlen hnot := by
    have hgot : (readAt file start size).length = size := by
      rw [length_readAt]
      omega
    simp only [sysHelpers, readStartingFrom, Bool.false_eq_true, if_false, hgot]
    split
    · exact Int.negSucc_lt_zero 0
    · rename_i hstart
      have hsize : toInt size < 0 := by
        by_contra hsize
        -- the offset or the size is beyond an `int`
        exact hnot ⟨hstart, hsize⟩
      rw [if_pos hsize]
      exact Int.negSucc_lt_zero 0
  write_ok {file buffer start} hbuffer hstart hsize := by
    have htake : buffer.take size = buffer := List.take_of_length_le hbuffer.le
    simp only [sysHelpers, writeStartingFrom, Bool.false_eq_true, if_false, htake,
      if_neg hstart, if_neg hsize]

theorem libHelpers_sound (size : ℕ) : libHelpers.Sound size fun _ => True where
  read_ok {file buffer start} hbuffer hlen _ _ := by
    have hgot : (readAt file start size).length = size := by
      rw [length_readAt]
      omega
    have hdrop : buffer.drop size = [] := List.drop_eq_nil_of_le hbuffer.le
    simp only [libHelpers, freadStartingFrom, Bool.false_eq_true, if_false, hgot, hdrop,
      Int.lt_irrefl, Nat.lt_irrefl, List.append_nil]
  read_stops _ hnot := absurd ⟨trivial, trivial⟩ hnot
  write_ok {file buffer start} hbuffer _ _ := by
    have htake : buffer.take size = buffer := List.take_of_length_le hbuffer.le
    simp only [libHelpers, fwriteStartingFrom, Bool.false_eq_true, if_false, htake,
      Int.lt_irrefl, Nat.lt_irrefl]

/-! ### One visit -/

variable {helpers : Helpers} {fails : Call → Bool} {size : ℕ} {safe : ℕ → Prop} {s : Sorter}
  {rs : List (List UInt8)} {rest : List UInt8} {v : ℕ × ℕ}

@[simp] theorem check_ok {data : List UInt8} {transferred : Bool} (s : Sorter) :
    check ⟨0, data, transferred⟩ s = .ok s := if_neg (Int.lt_irrefl 0)

theorem check_of_neg {helped : Helped} (h : helped.status < 0) (s : Sorter) :
    check helped s = .error s := if_pos h

/-- The variables, however the run ended. -/
def outcome : Except Sorter Sorter → Sorter
  | .ok s => s
  | .error s => s

theorem outcome_check (helped : Helped) (s : Sorter) : outcome (check helped s) = s := by
  rw [check]
  split <;> rfl

theorem ok_bind (s : Sorter) (f : Sorter → Except Sorter Sorter) :
    (Except.ok s >>= f) = f s := rfl

theorem visit_of_mem_helperCalls {place : Place} {transferred : Bool} {c : Call}
    (h : c ∈ helperCalls v place transferred) : c.visit = v := by
  cases transferred <;> simp only [helperCalls, List.mem_cons, List.not_mem_nil, or_false,
    if_true, if_false, Bool.false_eq_true] at h
  · rw [h]
  · rcases h with rfl | rfl <;> rfl

namespace Holds

theorem le_length (h : Holds size s rs rest) {j : ℕ} (hj : j < rs.length) :
    j * size + size ≤ s.file.length := by
  have hmul := Nat.mul_le_mul_right size hj
  rw [h.file_eq, List.length_append, length_flatten_of_forall h.length_eq]
  rw [Nat.succ_mul] at hmul
  omega

theorem length_of_getElem? (h : Holds size s rs rest) {j : ℕ} {r : List UInt8}
    (hr : rs[j]? = some r) : r.length = size :=
  h.length_eq r (List.mem_of_getElem? hr)

theorem read_eq (h : Holds size s rs rest) (hs : helpers.Sound size safe) {j : ℕ}
    {r buffer : List UInt8} (hr : rs[j]? = some r) (hbuffer : buffer.length = size)
    (hsafe : safe (j * size)) (hsize : safe size) :
    helpers.read false false s.file buffer size (j * size) = ⟨0, r, true⟩ := by
  have hj := (List.getElem?_eq_some_iff.mp hr).1
  rw [hs.read_ok hbuffer (h.le_length hj) hsafe hsize, h.file_eq,
    readAt_flatten h.length_eq hr]

/-- Both records are read. -/
theorem reads_ok (h : Holds size s rs rest) (hs : helpers.Sound size safe)
    (hfirst : ∀ b, fails ⟨v, .readFirst, b⟩ = false)
    (hsecond : ∀ b, fails ⟨v, .readSecond, b⟩ = false)
    (hleft : safe ((v.2 - 1) * size)) (hright : safe (v.2 * size)) (hsize : safe size)
    {a b : List UInt8} (ha : rs[v.2 - 1]? = some a) (hb : rs[v.2]? = some b) :
    ∃ s', (readFirst helpers fails size v s >>= readSecond helpers fails size v) = .ok s' ∧
      Holds size s' rs rest ∧ s'.first = a ∧ s'.second = b ∧
      ∀ c ∈ s'.calls, c ∈ s.calls ∨
        c.visit = v ∧ (c.place = .readFirst ∨ c.place = .readSecond) := by
  have hread := h.read_eq hs ha h.first_length hleft hsize
  have hread' := h.read_eq hs hb h.second_length hright hsize
  simp only [readFirst, readSecond, hfirst, hsecond, hread, check_ok, bind, Except.bind]
  rw [hread']
  refine ⟨_, rfl, ⟨h.file_eq, h.length_eq, h.length_of_getElem? ha, h.length_of_getElem? hb⟩,
    rfl, rfl, fun c hc => ?_⟩
  simp only [helperCalls, if_true, List.mem_append, List.mem_cons, List.not_mem_nil,
    or_false] at hc
  rcases hc with (hc | rfl | rfl) | rfl | rfl
  · exact Or.inl hc
  · exact Or.inr ⟨rfl, Or.inl rfl⟩
  · exact Or.inr ⟨rfl, Or.inl rfl⟩
  · exact Or.inr ⟨rfl, Or.inr rfl⟩
  · exact Or.inr ⟨rfl, Or.inr rfl⟩

theorem write_eq (h : Holds size s rs rest) (hs : helpers.Sound size safe) {j : ℕ}
    {buffer : List UInt8} (hj : j < rs.length) (hbuffer : buffer.length = size)
    (hsafe : safe (j * size)) (hsize : safe size) :
    helpers.write false false s.file buffer size (j * size) =
      ⟨0, (rs.set j buffer).flatten ++ rest, true⟩ := by
  rw [hs.write_ok hbuffer hsafe hsize, h.file_eq, writeAt_flatten h.length_eq hbuffer hj]

/-- One record is overwritten. -/
theorem set (h : Holds size s rs rest) (j : ℕ) {r : List UInt8} (hr : r.length = size)
    (calls : List Call) :
    Holds size { s with file := (rs.set j r).flatten ++ rest, calls := calls } (rs.set j r)
      rest := by
  refine ⟨rfl, fun r' hr' => ?_, h.first_length, h.second_length⟩
  rcases List.mem_or_eq_of_mem_set hr' with hmem | rfl
  · exact h.length_eq r' hmem
  · exact hr

/-- The first half of a swap. -/
theorem writeSecond_ok (h : Holds size s rs rest) (hs : helpers.Sound size safe)
    (hfails : ∀ b, fails ⟨v, .writeSecond, b⟩ = false) (hj : v.2 - 1 < rs.length)
    (hsafe : safe ((v.2 - 1) * size)) (hsize : safe size) :
    writeSecond helpers fails size v s = .ok { s with
      file := (rs.set (v.2 - 1) s.second).flatten ++ rest
      calls := s.calls ++ helperCalls v .writeSecond true } := by
  simp only [writeSecond, hfails, h.write_eq hs hj h.second_length hsafe hsize, check_ok]

/-- The second half of a swap. -/
theorem writeFirst_ok (h : Holds size s rs rest) (hs : helpers.Sound size safe)
    (hfails : ∀ b, fails ⟨v, .writeFirst, b⟩ = false) (hj : v.2 < rs.length)
    (hsafe : safe (v.2 * size)) (hsize : safe size) :
    writeFirst helpers fails size v s = .ok { s with
      file := (rs.set v.2 s.first).flatten ++ rest
      calls := s.calls ++ helperCalls v .writeFirst true } := by
  simp only [writeFirst, hfails, h.write_eq hs hj h.first_length hsafe hsize, check_ok]

end Holds

theorem sortBody_eq (s : Sorter) (v : ℕ × ℕ) : sortBody helpers fails size s v =
    ((readFirst helpers fails size v s >>= readSecond helpers fails size v) >>= fun s =>
      if recordKey s.second < recordKey s.first then
        writeSecond helpers fails size v s >>= writeFirst helpers fails size v
      else .ok s) := by
  rw [sortBody]
  cases readFirst helpers fails size v s <;> rfl

theorem exchange_eq {a b : List UInt8} {j : ℕ} (ha : rs[j - 1]? = some a)
    (hb : rs[j]? = some b) : exchange recordKey rs j =
      if recordKey b < recordKey a then (rs.set (j - 1) b).set j a else rs := by
  rw [exchange, ha, hb]

/-- **A visit exchanges** two neighbours of the records, which the buffers still hold. -/
theorem sortBody_ok (h : Holds size s rs rest) (hs : helpers.Sound size safe)
    (hfails : ∀ place b, fails ⟨v, place, b⟩ = false) (hv : v.2 < rs.length)
    (hleft : safe ((v.2 - 1) * size)) (hright : safe (v.2 * size)) (hsize : safe size) :
    ∃ s', sortBody helpers fails size s v = .ok s' ∧
      Holds size s' (exchange recordKey rs v.2) rest ∧
      rs[v.2 - 1]? = some s'.first ∧ rs[v.2]? = some s'.second ∧
      ∀ c ∈ s'.calls, c ∈ s.calls ∨ c.visit = v := by
  obtain ⟨a, ha⟩ : ∃ a, rs[v.2 - 1]? = some a := ⟨_, List.getElem?_eq_getElem (by omega)⟩
  obtain ⟨b, hb⟩ : ∃ b, rs[v.2]? = some b := ⟨_, List.getElem?_eq_getElem hv⟩
  obtain ⟨s₁, hreads, h₁, rfl, rfl, hcalls⟩ :=
    h.reads_ok hs (hfails _) (hfails _) hleft hright hsize ha hb
  rw [sortBody_eq, hreads, exchange_eq ha hb]
  simp only [bind, Except.bind]
  -- the greater record goes behind, by two writes
  by_cases hlt : recordKey s₁.second < recordKey s₁.first
  · rw [if_pos hlt, if_pos hlt, h₁.writeSecond_ok hs (hfails _) (by omega) hleft hsize]
    have h₂ := h₁.set (v.2 - 1) h₁.second_length
      (s₁.calls ++ helperCalls v .writeSecond true)
    have hfirst := h₂.writeFirst_ok hs (hfails _) (by rwa [List.length_set]) hright hsize
    refine ⟨_, hfirst, h₂.set v.2 h₁.first_length _, ha, hb, fun c hc => ?_⟩
    simp only [List.mem_append] at hc
    rcases hc with (hc | hc) | hc
    · exact (hcalls c hc).imp_right And.left
    · exact Or.inr (visit_of_mem_helperCalls hc)
    · exact Or.inr (visit_of_mem_helperCalls hc)
  · rw [if_neg hlt, if_neg hlt]
    exact ⟨s₁, rfl, h₁, ha, hb, fun c hc => (hcalls c hc).imp_right And.left⟩

/-- The left record cannot be read. -/
theorem sortBody_stops_left (hfails : ∀ b, fails ⟨v, .readFirst, b⟩ = false)
    (h : (helpers.read false false s.file s.first size ((v.2 - 1) * size)).status < 0) :
    ∃ s', sortBody helpers fails size s v = .error s' ∧ s'.file = s.file := by
  rw [sortBody]
  simp only [readFirst, hfails, bind, Except.bind]
  rw [check_of_neg h]
  exact ⟨_, rfl, rfl⟩

/-- The left record is read, and the right one cannot be. -/
theorem sortBody_stops_right {a : List UInt8}
    (hfirst : ∀ b, fails ⟨v, .readFirst, b⟩ = false)
    (hsecond : ∀ b, fails ⟨v, .readSecond, b⟩ = false)
    (ha : helpers.read false false s.file s.first size ((v.2 - 1) * size) = ⟨0, a, true⟩)
    (h : (helpers.read false false s.file s.second size (v.2 * size)).status < 0) :
    ∃ s', sortBody helpers fails size s v = .error s' ∧ s'.file = s.file := by
  rw [sortBody]
  simp only [readFirst, readSecond, hfirst, hsecond, ha, check_ok, bind, Except.bind]
  rw [check_of_neg h]
  exact ⟨_, rfl, rfl⟩

/-- Both records are read, whole or short. -/
theorem sortBody_of_reads {a b : List UInt8} (hfirst : ∀ b, fails ⟨v, .readFirst, b⟩ = false)
    (hsecond : ∀ b, fails ⟨v, .readSecond, b⟩ = false)
    (ha : helpers.read false false s.file s.first size ((v.2 - 1) * size) = ⟨0, a, true⟩)
    (hb : helpers.read false false s.file s.second size (v.2 * size) = ⟨0, b, true⟩) :
    let s' : Sorter := ⟨s.file, a, b,
      s.calls ++ helperCalls v .readFirst true ++ helperCalls v .readSecond true⟩
    sortBody helpers fails size s v =
      if recordKey s'.second < recordKey s'.first then
        writeSecond helpers fails size v s' >>= writeFirst helpers fails size v
      else .ok s' := by
  rw [sortBody]
  simp only [readFirst, readSecond, hfirst, hsecond, ha, hb, check_ok, bind, Except.bind]

/-- The conversions of the visit `v` change no sign. -/
def VisitSafe (safe : ℕ → Prop) (size : ℕ) (v : ℕ × ℕ) : Prop :=
  safe ((v.2 - 1) * size) ∧ safe (v.2 * size) ∧ safe size

/-- A visit that is not safe ends the sort before it writes. -/
theorem sortBody_stops (h : Holds size s rs rest) (hs : helpers.Sound size safe)
    (hfails : ∀ place b, fails ⟨v, place, b⟩ = false) (hv : v.2 < rs.length)
    (hnot : ¬VisitSafe safe size v) :
    ∃ s', sortBody helpers fails size s v = .error s' ∧ s'.file = s.file := by
  obtain ⟨a, ha⟩ : ∃ a, rs[v.2 - 1]? = some a := ⟨_, List.getElem?_eq_getElem (by omega)⟩
  by_cases hleft : safe ((v.2 - 1) * size) ∧ safe size
  · have hright : ¬(safe (v.2 * size) ∧ safe size) := fun hright =>
      hnot ⟨hleft.1, hright.1, hleft.2⟩
    exact sortBody_stops_right (hfails _) (hfails _)
      (h.read_eq hs ha h.first_length hleft.1 hleft.2) (hs.read_stops (h.le_length hv) hright)
  · exact sortBody_stops_left (hfails _) (hs.read_stops (h.le_length (by omega)) hleft)

/-! ### The whole run -/

variable {vs : List (ℕ × ℕ)}

/-- The records after the visits `vs`. -/
abbrev exchanged (vs : List (ℕ × ℕ)) (rs : List (List UInt8)) : List (List UInt8) :=
  vs.foldl (fun l v => exchange recordKey l v.2) rs

@[simp] theorem length_exchanged (vs : List (ℕ × ℕ)) (rs : List (List UInt8)) :
    (exchanged vs rs).length = rs.length := by
  induction vs generalizing rs with
  | nil => rfl
  | cons v vs ih => exact (ih _).trans (length_exchange rs v.2)

theorem rearranged_exchanged (vs : List (ℕ × ℕ)) (rs : List (List UInt8)) :
    Rearranged recordKey rs (exchanged vs rs) := by
  induction vs generalizing rs with
  | nil => exact Rearranged.refl rs
  | cons v vs ih => exact (rearranged_exchange rs v.2).trans (ih _)

/-- Safe visits sort. -/
theorem foldlM_ok (h : Holds size s rs rest) (hs : helpers.Sound size safe)
    (hfails : ∀ v ∈ vs, ∀ place b, fails ⟨v, place, b⟩ = false)
    (hvs : ∀ v ∈ vs, v.2 < rs.length) (hsafe : ∀ v ∈ vs, VisitSafe safe size v) :
    ∃ s', vs.foldlM (sortBody helpers fails size) s = .ok s' ∧
      Holds size s' (exchanged vs rs) rest ∧
      ∀ c ∈ s'.calls, c ∈ s.calls ∨ c.visit ∈ vs := by
  induction vs generalizing s rs with
  | nil => exact ⟨s, rfl, h, fun _ => Or.inl⟩
  | cons v vs ih =>
    obtain ⟨hfails_v, hfails⟩ := List.forall_mem_cons.mp hfails
    obtain ⟨hv, hvs⟩ := List.forall_mem_cons.mp hvs
    obtain ⟨⟨hleft, hright, hsize⟩, hsafe⟩ := List.forall_mem_cons.mp hsafe
    obtain ⟨s₁, hbody, h₁, -, -, hcalls₁⟩ := sortBody_ok h hs hfails_v hv hleft hright hsize
    have hlen : (exchange recordKey rs v.2).length = rs.length := length_exchange rs v.2
    obtain ⟨s₂, hrun, h₂, hcalls₂⟩ := ih h₁ hfails (fun w hw => hlen.symm ▸ hvs w hw) hsafe
    refine ⟨s₂, ?_, h₂, fun c hc => ?_⟩
    · rw [List.foldlM_cons, hbody]
      exact hrun
    · rcases hcalls₂ c hc with hmem | hmem
      · exact (hcalls₁ c hmem).imp_right fun heq : c.visit = v => heq ▸ List.mem_cons_self
      · exact Or.inr (List.mem_cons_of_mem _ hmem)

/-- A run in which some visits exchange and the others stop it before they write: it
stops, and its records are rearranged. -/
theorem foldlM_stops {body : Sorter → ℕ × ℕ → Except Sorter Sorter} {good : ℕ × ℕ → Prop}
    (h : Holds size s rs rest)
    (hok : ∀ v ∈ vs, good v → ∀ s rs', rs'.length = rs.length → Holds size s rs' rest →
      ∃ s', body s v = .ok s' ∧ Holds size s' (exchange recordKey rs' v.2) rest)
    (hstop : ∀ v ∈ vs, ¬good v → ∀ s rs', rs'.length = rs.length → Holds size s rs' rest →
      ∃ s', body s v = .error s' ∧ s'.file = s.file)
    (hbad : ∃ v ∈ vs, ¬good v) :
    ∃ s' rs', vs.foldlM body s = .error s' ∧ s'.file = rs'.flatten ++ rest ∧
      (∀ r ∈ rs', r.length = size) ∧ Rearranged recordKey rs rs' := by
  induction vs generalizing s rs with
  | nil =>
    obtain ⟨v, hv, -⟩ := hbad
    exact absurd hv List.not_mem_nil
  | cons v vs ih =>
    obtain ⟨hok_v, hok⟩ := List.forall_mem_cons.mp hok
    obtain ⟨hstop_v, hstop⟩ := List.forall_mem_cons.mp hstop
    rw [List.foldlM_cons]
    -- the visits that go through, until the first that does not
    by_cases hgood : good v
    · obtain ⟨s₁, hbody, h₁⟩ := hok_v hgood s rs rfl h
      have hbad' : ∃ w ∈ vs, ¬good w := by
        obtain ⟨w, hw, hne⟩ := hbad
        rcases List.mem_cons.mp hw with rfl | hmem
        · exact absurd hgood hne
        · exact ⟨w, hmem, hne⟩
      have hlen : (exchange recordKey rs v.2).length = rs.length := length_exchange rs v.2
      obtain ⟨s₂, rs₂, hrun, hfile, hlen₂, hmoved⟩ :=
        ih h₁ (hlen.symm ▸ hok) (hlen.symm ▸ hstop) hbad'
      refine ⟨s₂, rs₂, ?_, hfile, hlen₂, (rearranged_exchange rs v.2).trans hmoved⟩
      rw [hbody]
      exact hrun
    · obtain ⟨s₁, hbody, hfile⟩ := hstop_v hgood s rs rfl h
      refine ⟨s₁, rs, ?_, hfile.trans h.file_eq, h.length_eq, Rearranged.refl rs⟩
      rw [hbody]
      rfl

/-! ### Jobs -/

namespace SortJob

variable {job : SortJob}

theorem holds_start (h : job.Complete) :
    Holds job.size job.start (job.recordsOf job.file)
      (job.file.drop (job.records * job.size)) where
  file_eq := (flatten_cut job.size job.records job.file).symm
  length_eq _ hr := length_of_mem_cut h hr
  first_length := job.first_length
  second_length := job.second_length

@[simp] theorem length_recordsOf (file : List UInt8) : (job.recordsOf file).length = job.records :=
  length_cut _ _ _

theorem recordsOf_append {rs : List (List UInt8)} (hlen : rs.length = job.records)
    (h : ∀ r ∈ rs, r.length = job.size) (rest : List UInt8) :
    job.recordsOf (rs.flatten ++ rest) = rs := by
  rw [recordsOf, ← hlen, cut_flatten h]

theorem lt_of_mem_visits {n : ℕ} {v : ℕ × ℕ} (h : v ∈ visits n) : v.2 < n := by
  have := mem_visits.mp h
  omega

theorem not_fails (n : ℕ) : ∀ v ∈ visits n, ∀ place b, noFailure ⟨v, place, b⟩ = false :=
  fun _ _ _ _ => rfl

/-- A run without unsafe visits sorts. -/
theorem sortWith_ok (hs : helpers.Sound job.size safe) (h : job.Complete)
    (hsafe : ∀ v ∈ visits job.records, VisitSafe safe job.size v) :
    (sortWith helpers noFailure job.size job.records job.start).1 = 0 ∧
      Holds job.size (sortWith helpers noFailure job.size job.records job.start).2
        (exchanged (visits job.records) (job.recordsOf job.file))
        (job.file.drop (job.records * job.size)) := by
  obtain ⟨s', hrun, hholds, -⟩ := foldlM_ok (holds_start h) hs (not_fails _)
    (fun v hv => (length_recordsOf job.file).symm ▸ lt_of_mem_visits hv) hsafe
  rw [sortWith, outerLoop_eq, hrun]
  exact ⟨rfl, hholds⟩

/-- A run with an unsafe visit returns -1. -/
theorem sortWith_stops (hs : helpers.Sound job.size safe) (h : job.Complete)
    (hnot : ∃ v ∈ visits job.records, ¬VisitSafe safe job.size v) :
    (sortWith helpers noFailure job.size job.records job.start).1 = -1 := by
  have hlt : ∀ v ∈ visits job.records, ∀ rs : List (List UInt8),
      rs.length = (job.recordsOf job.file).length → v.2 < rs.length := by
    intro v hv rs hlen
    rw [hlen, length_recordsOf]
    exact lt_of_mem_visits hv
  obtain ⟨s', rs', hrun, -⟩ := foldlM_stops (holds_start h)
    (fun v hv hsafe s rs hlen hholds =>
      let ⟨s', hbody, hholds', _⟩ := sortBody_ok hholds hs (not_fails _ v hv)
        (hlt v hv rs hlen) hsafe.1 hsafe.2.1 hsafe.2.2
      ⟨s', hbody, hholds'⟩)
    (fun v hv hnot s rs hlen hholds =>
      sortBody_stops hholds hs (not_fails _ v hv) (hlt v hv rs hlen) hnot) hnot
  rw [sortWith, outerLoop_eq, hrun]

theorem lib_ok (h : job.Complete) :
    (job.lib noFailure).1 = 0 ∧
      Holds job.size (job.lib noFailure).2
        (exchanged (visits job.records) (job.recordsOf job.file))
        (job.file.drop (job.records * job.size)) :=
  sortWith_ok (libHelpers_sound job.size) h fun _ _ => ⟨trivial, trivial, trivial⟩

/-- The offsets that the loops visit are those of all records. -/
theorem forall_visitSafe_iff :
    (∀ v ∈ visits job.records, VisitSafe IntSafe job.size v) ↔
      ∀ j < job.records, IntSafe (j * job.size) := by
  constructor
  · intro h j hj
    rcases Nat.eq_zero_or_pos j with rfl | hpos
    · rw [Nat.zero_mul]
      decide
    · exact (h (j, j) (mem_visits.mpr ⟨hpos, le_rfl, hj⟩)).2.1
  · intro h v hv
    have hlt := mem_visits.mp hv
    have hsize := h 1 (by omega)
    rw [Nat.one_mul] at hsize
    exact ⟨h _ (by omega), h _ (by omega), hsize⟩

end SortJob

open SortJob

/-- **`sort_lib` is a stable sort** of the records by their first bytes, and leaves what
stands behind them alone. -/
theorem sortLib_stable (job : SortJob) (h : job.Complete) :
    (job.lib noFailure).1 = 0 ∧
      StableSort recordKey (job.recordsOf job.file)
        (job.recordsOf (job.lib noFailure).2.file) ∧
      (job.lib noFailure).2.file.length = job.file.length ∧
      (job.lib noFailure).2.file.drop (job.records * job.size) =
        job.file.drop (job.records * job.size) := by
  obtain ⟨hstatus, hholds⟩ := lib_ok h
  have hlen : (exchanged (visits job.records) (job.recordsOf job.file)).length = job.records := by
    rw [length_exchanged, length_recordsOf]
  have hlen₀ : (job.recordsOf job.file).length = job.records := length_recordsOf job.file
  have hsort := (stableSort_foldl_exchange recordKey hlen₀.ge).1
  rw [List.take_of_length_le hlen₀.le,
    List.take_of_length_le hlen.le] at hsort
  have hflat := length_flatten_of_forall hholds.length_eq
  have hflat' := congrArg List.length (flatten_cut job.size job.records job.file)
  rw [List.length_append, length_flatten_of_forall (fun _ hr => length_of_mem_cut h hr),
    length_cut] at hflat'
  rw [hholds.file_eq, recordsOf_append hlen hholds.length_eq]
  refine ⟨hstatus, hsort, ?_, ?_⟩
  · rw [List.length_append, hflat, hlen, hflat']
  · have hdrop := drop_flatten hholds.length_eq (job.file.drop (job.records * job.size))
    rwa [hlen] at hdrop

theorem length_one_byte : ([0] : List UInt8).length = 1 := rfl

/-- Three records of two bytes, and a byte behind them. -/
def threeRecords : SortJob where
  records := 3
  size := 2
  file := [9, 1, 200, 2, 9, 3, 7]
  first := [0, 0]
  second := [0, 0]
  one_le_records := by decide
  one_le_size := Nat.two_pos
  first_length := rfl
  second_length := rfl

theorem sortLib_stable_three :
    threeRecords.Complete ∧ (threeRecords.lib noFailure).1 = 0 ∧
      StableSort recordKey (threeRecords.recordsOf threeRecords.file)
        (threeRecords.recordsOf (threeRecords.lib noFailure).2.file) :=
  have h : threeRecords.Complete := by decide
  ⟨h, (sortLib_stable threeRecords h).1, (sortLib_stable threeRecords h).2.1⟩

/-- Both return the same status and leave the same file. -/
def SortJob.Agree (job : SortJob) : Prop :=
  (job.sys noFailure).1 = (job.lib noFailure).1 ∧
    (job.sys noFailure).2.file = (job.lib noFailure).2.file

theorem agree_iff_safe {job : SortJob} (h : job.Complete) :
    job.Agree ↔ ∀ j < job.records, IntSafe (j * job.size) := by
  obtain ⟨hlib, hholds⟩ := lib_ok h
  rw [← forall_visitSafe_iff]
  constructor
  · rintro ⟨hstatus, -⟩
    by_contra hnot
    push Not at hnot
    have hsys : (job.sys noFailure).1 = -1 :=
      sortWith_stops (sysHelpers_sound job.size) h hnot
    rw [hsys, hlib] at hstatus
    exact absurd hstatus (by decide)
  · intro hsafe
    obtain ⟨hstatus, hholds'⟩ := sortWith_ok (sysHelpers_sound job.size) h hsafe
    exact ⟨hstatus.trans hlib.symm, hholds'.file_eq.trans hholds.file_eq.symm⟩

/-- **The two sorts agree** on a complete file iff bit 31 is clear in the offset of every
record that they sort. -/
theorem sort_agree_iff (job : SortJob) (h : job.Complete) :
    job.Agree ↔ ∀ j < job.records, j * job.size % 2 ^ 32 < 2 ^ 31 := by
  rw [agree_iff_safe h]
  exact forall₂_congr fun _ _ => intSafe_iff

theorem sort_agree_three : threeRecords.Agree :=
  (sort_agree_iff threeRecords (by decide)).mpr (by decide)

/-- A file of 2 GiB and one more record of 1 KiB. -/
def largeFile : SortJob where
  records := 2 ^ 21 + 1
  size := 2 ^ 10
  file := List.replicate ((2 ^ 21 + 1) * 2 ^ 10) 0
  first := List.replicate (2 ^ 10) 0
  second := List.replicate (2 ^ 10) 0
  one_le_records := Nat.le_add_left _ _
  one_le_size := Nat.one_le_two_pow
  first_length := List.length_replicate
  second_length := List.length_replicate

/-- The offset of its last record is negative as an `int`, and `sort_sys` gives up. -/
theorem large_file_refused :
    largeFile.Complete ∧ largeFile.records * largeFile.size ≤ 2 ^ 63 - 1 ∧ ¬largeFile.Agree := by
  have hcomplete : largeFile.Complete := List.length_replicate.ge
  refine ⟨hcomplete, by decide, fun hagree => ?_⟩
  have hsafe := (agree_iff_safe hcomplete).mp hagree (2 ^ 21) (Nat.lt_succ_self _)
  rw [intSafe_iff] at hsafe
  exact absurd hsafe (by decide)

end FileIo
end OpSys
