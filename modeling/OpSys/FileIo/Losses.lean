import OpSys.FileIo.Faults
import OpSys.FileIo.Stream

/-!
# What the sorts lose when a call fails

`sort_lib` can fail where `sort_sys` cannot: in the write of what its stream has held
back.  The next `fseek` makes that write, and `fclose` the last one, whose failure is not
reported.

## Main definitions

* `only p` — the point `p` fails, and no other.
* `SortJob.Swaps`, `SortJob.Torn` — a visit exchanges; what its second write holds back is
  not in the file already.
* `SortJob.Loses` — the points of `sort_lib` whose failure loses a record.

## Main results

* `sortBody_stream` — what a visit leaves in the stream.
* `losesNothing_iff` — which failures lose a record.

## References

`lab2_file_system/system_vs_lib_io/program.c` and `utils.c`.
-/

namespace OpSys
namespace FileIo

open Records Exchange

/-- The point `p` fails, and no other. -/
def only (p q : Point) : Bool := decide (q = p)

namespace SortJob

/-- The record in front of the place that the visit `u` comes to after the visits `us`. -/
def left (job : SortJob) (us : List (ℕ × ℕ)) (u : ℕ × ℕ) : List UInt8 :=
  (exchanged us (job.recordsOf job.file)).getD (u.2 - 1) []

/-- The record at that place. -/
def right (job : SortJob) (us : List (ℕ × ℕ)) (u : ℕ × ℕ) : List UInt8 :=
  (exchanged us (job.recordsOf job.file)).getD u.2 []

/-- After the visits `us`, the visit `u` exchanges. -/
def Swaps (job : SortJob) (us : List (ℕ × ℕ)) (u : ℕ × ℕ) : Prop :=
  recordKey (job.right us u) < recordKey (job.left us u)

/-- It exchanges, and what its second write holds back is not what stands there. -/
def Torn (job : SortJob) (lib : CLibrary) (us : List (ℕ × ℕ)) (u : ℕ × ℕ) : Prop :=
  job.Swaps us u ∧ (job.left us u).drop (lib.passes u .writeFirst) ≠
    (job.right us u).drop (lib.passes u .writeFirst)

/-- The failure of the point loses a record. -/
def Loses (job : SortJob) (lib : CLibrary) : Point → Prop
  | .call c => job.SecondHalf c
  -- the second write of the visit before
  | .flush v .readFirst => v ∈ visits job.records ∧ lib.retries = false ∧
      ∃ us u, visitsTo v.1 v.2 = us ++ [u] ∧ job.Torn lib us u
  -- the first write of this visit: what is lost is the other record
  | .flush v .writeFirst => v ∈ visits job.records ∧ job.Swaps (visitsTo v.1 v.2) v ∧
      lib.passes v .writeSecond < job.size ∧
        (lib.retries = true ∨ 0 < lib.passes v .writeSecond)
  | .flush _ .readSecond => False
  | .flush _ .writeSecond => False
  | .close => ∃ us u, visits job.records = us ++ [u] ∧ job.Torn lib us u

end SortJob

/-! ### One visit over a stream -/

section Visit

variable {lib : CLibrary} {fails : Point → Bool} {size : ℕ} {v : ℕ × ℕ} {place : Place}
  {s : LibSorter} {rs : List (List UInt8)} {rest a b : List UInt8}

theorem fread_ok (lib : CLibrary) (v : ℕ × ℕ) (place : Place)
    (hcalls : ∀ c, fails (.call c) = false) {f : StreamFile}
    (h : f.held = [] ∨ fails (.flush v place) = false) {buffer : List UInt8} {start : ℕ}
    (hbuffer : buffer.length = size) (hlen : start + size ≤ f.seen.length) :
    ∃ points, lib.freadStartingFrom fails v place f buffer size start =
      ⟨0, f.flushed, readAt f.seen start size, points⟩ := by
  have hgot : (readAt f.seen start size).length = size := by
    rw [length_readAt]
    omega
  have hdrop : buffer.drop size = [] := List.drop_eq_nil_of_le hbuffer.le
  rw [CLibrary.freadStartingFrom, fseek_eq h]
  simp only [hcalls, Bool.false_eq_true, if_false, Int.lt_irrefl, StreamFile.file_flushed, hgot,
    Nat.lt_irrefl, hdrop, List.append_nil]
  exact ⟨_, rfl⟩

theorem fwrite_ok (lib : CLibrary) (v : ℕ × ℕ) (place : Place)
    (hcalls : ∀ c, fails (.call c) = false) {f : StreamFile}
    (h : f.held = [] ∨ fails (.flush v place) = false) {buffer : List UInt8} (start : ℕ)
    (hbuffer : buffer.length = size) :
    ∃ points, lib.fwriteStartingFrom fails v place f buffer size start =
      ⟨0, f.flushed.fwrite (lib.passes v place) start buffer, buffer, points⟩ := by
  have htake : buffer.take size = buffer := List.take_of_length_le hbuffer.le
  rw [CLibrary.fwriteStartingFrom, fseek_eq h]
  simp only [hcalls, Bool.false_eq_true, if_false, Int.lt_irrefl, Nat.lt_irrefl, htake]
  exact ⟨_, rfl⟩

/-- An `fseek` that cannot write what the stream holds. -/
theorem fseek_fails {f : StreamFile} (hheld : f.held ≠ [])
    (hfails : fails (.flush v place) = true) (buffer : List UInt8) :
    lib.fseek fails v place f buffer =
      ⟨-1, f.stuck lib.retries, buffer, [.flush v place]⟩ := by
  rw [CLibrary.fseek, if_neg hheld]
  exact if_pos ⟨hheld, hfails⟩

theorem sortBody_assoc (s : LibSorter) (v : ℕ × ℕ) : lib.sortBody fails size s v =
    ((lib.readFirst fails size v s >>= lib.readSecond fails size v) >>= fun s =>
      if recordKey s.second < recordKey s.first then
        lib.writeSecond fails size v s >>= lib.writeFirst fails size v
      else .ok s) := by
  rw [CLibrary.sortBody]
  cases lib.readFirst fails size v s <;> rfl

/-- Both records are read, and nothing is held any more. -/
theorem reads_stream (lib : CLibrary) (h : Holds size s.seen rs rest)
    (hcalls : ∀ c, fails (.call c) = false)
    (hflush : s.stream.held = [] ∨ fails (.flush v .readFirst) = false)
    (ha : rs[v.2 - 1]? = some a) (hb : rs[v.2]? = some b) :
    ∃ points, (lib.readFirst fails size v s >>= lib.readSecond fails size v) =
      .ok ⟨.of (rs.flatten ++ rest), a, b, points⟩ := by
  have hfile : s.stream.seen = rs.flatten ++ rest := h.file_eq
  have hflushed : s.stream.flushed = .of (rs.flatten ++ rest) := congrArg _ hfile
  have hfirst : s.first.length = size := h.first_length
  have hsecond : s.second.length = size := h.second_length
  have hla : (v.2 - 1) * size + size ≤ s.stream.seen.length :=
    h.le_length (List.getElem?_eq_some_iff.mp ha).1
  have hlb : v.2 * size + size ≤ s.stream.seen.length :=
    h.le_length (List.getElem?_eq_some_iff.mp hb).1
  -- the seek of the first read flushes what an earlier exchange has left
  obtain ⟨points, hread⟩ := fread_ok lib v _ hcalls hflush hfirst hla
  rw [hflushed, hfile, readAt_flatten h.length_eq ha] at hread
  rw [hfile] at hlb
  -- nothing is held when the second record is read
  obtain ⟨points', hread'⟩ := fread_ok lib v .readSecond hcalls
    (Or.inl (StreamFile.held_of _)) hsecond hlb
  rw [StreamFile.seen_of, readAt_flatten h.length_eq hb] at hread'
  refine ⟨s.points ++ points ++ points', ?_⟩
  rw [CLibrary.readFirst, hread]
  show CLibrary.readSecond lib fails size v _ = _
  rw [CLibrary.readSecond, hread']
  rfl

/-- The stream after the first write of an exchange. -/
def CLibrary.half (lib : CLibrary) (size : ℕ) (v : ℕ × ℕ) (rs : List (List UInt8))
    (rest b : List UInt8) : StreamFile :=
  (StreamFile.of (rs.flatten ++ rest)).fwrite (lib.passes v .writeSecond) ((v.2 - 1) * size) b

/-- The stream after both. -/
def CLibrary.swapped (lib : CLibrary) (size : ℕ) (v : ℕ × ℕ) (rs : List (List UInt8))
    (rest a b : List UInt8) : StreamFile :=
  (StreamFile.of ((rs.set (v.2 - 1) b).flatten ++ rest)).fwrite (lib.passes v .writeFirst)
    (v.2 * size) a

theorem writeSecond_stream (lib : CLibrary) (v : ℕ × ℕ) (rs : List (List UInt8))
    (rest a : List UInt8) (hcalls : ∀ c, fails (.call c) = false) (hb : b.length = size)
    (points : List Point) :
    ∃ points', lib.writeSecond fails size v ⟨.of (rs.flatten ++ rest), a, b, points⟩ =
      .ok ⟨lib.half size v rs rest b, a, b, points'⟩ := by
  obtain ⟨points', hwrite⟩ := fwrite_ok lib v .writeSecond hcalls
    (Or.inl (StreamFile.held_of (rs.flatten ++ rest))) ((v.2 - 1) * size) hb
  rw [CLibrary.writeSecond, hwrite]
  exact ⟨_, rfl⟩

theorem seen_half (lib : CLibrary) (rest : List UInt8) (h : ∀ r ∈ rs, r.length = size)
    (hv : v.2 - 1 < rs.length) (hb : b.length = size) :
    (lib.half size v rs rest b).seen = (rs.set (v.2 - 1) b).flatten ++ rest :=
  StreamFile.seen_fwrite_flatten h hv hb _ rest

theorem length_of_mem_set {j : ℕ} (h : ∀ r ∈ rs, r.length = size) (hb : b.length = size) :
    ∀ r ∈ rs.set j b, r.length = size := by
  intro r hr
  rcases List.mem_or_eq_of_mem_set hr with hmem | rfl
  · exact h r hmem
  · exact hb

theorem seen_swapped (h : ∀ r ∈ rs, r.length = size) (hv : v.2 < rs.length)
    (ha : a.length = size) (hb : b.length = size) :
    (lib.swapped size v rs rest a b).seen =
      ((rs.set (v.2 - 1) b).set v.2 a).flatten ++ rest :=
  StreamFile.seen_fwrite_flatten (length_of_mem_set h hb) (by rwa [List.length_set]) ha _ rest

/-- **What a visit leaves in the stream**, if nothing fails in it. -/
theorem sortBody_stream (lib : CLibrary) (h : Holds size s.seen rs rest)
    (hcalls : ∀ c, fails (.call c) = false)
    (hflush : s.stream.held = [] ∨ fails (.flush v .readFirst) = false)
    (hswap : recordKey b < recordKey a →
      size ≤ lib.passes v .writeSecond ∨ fails (.flush v .writeFirst) = false)
    (ha : rs[v.2 - 1]? = some a) (hb : rs[v.2]? = some b) :
    ∃ s', lib.sortBody fails size s v = .ok s' ∧
      Holds size s'.seen (exchange recordKey rs v.2) rest ∧
      s'.stream = if recordKey b < recordKey a then lib.swapped size v rs rest a b
        else .of (rs.flatten ++ rest) := by
  obtain ⟨points, hreads⟩ := reads_stream lib h hcalls hflush ha hb
  have hla := h.length_of_getElem? ha
  have hlb := h.length_of_getElem? hb
  have hv := (List.getElem?_eq_some_iff.mp hb).1
  rw [sortBody_assoc, hreads, exchange_eq ha hb]
  show ∃ _, (if recordKey b < recordKey a then _ else _) = _ ∧ _
  by_cases hlt : recordKey b < recordKey a
  · rw [if_pos hlt, if_pos hlt, if_pos hlt]
    -- the second write finds what is left of the first in the buffer
    obtain ⟨points₁, hhalf⟩ := writeSecond_stream lib v rs rest a hcalls hlb points
    have hseen : (lib.half size v rs rest b).flushed =
        .of ((rs.set (v.2 - 1) b).flatten ++ rest) :=
      congrArg _ (seen_half lib rest h.length_eq (List.getElem?_eq_some_iff.mp ha).1 hlb)
    have hheld : (lib.half size v rs rest b).held = [] ∨
        fails (.flush v .writeFirst) = false :=
      -- what the seek flushes is there, or nothing was left
      (hswap hlt).imp_left fun hle => List.drop_eq_nil_of_le (hlb.le.trans hle)
    obtain ⟨points₂, hwrite⟩ := fwrite_ok lib v _ hcalls hheld (v.2 * size) hla
    rw [hhalf]
    show ∃ _, lib.writeFirst fails size v _ = _ ∧ _
    rw [CLibrary.writeFirst, hwrite, hseen]
    refine ⟨_, rfl, ⟨seen_swapped h.length_eq hv hla hlb, ?_, hla, hlb⟩, rfl⟩
    exact length_of_mem_set (length_of_mem_set h.length_eq hlb) hla
  · rw [if_neg hlt, if_neg hlt, if_neg hlt]
    exact ⟨_, rfl, ⟨rfl, h.length_eq, hla, hlb⟩, rfl⟩

/-- What the second write of the visit before holds back cannot be written. -/
theorem sortBody_readFirst_stuck (hheld : s.stream.held ≠ [])
    (hfails : fails (.flush v .readFirst) = true) :
    ∃ points, lib.sortBody fails size s v =
      .error ⟨s.stream.stuck lib.retries, s.first, s.second, points⟩ ∧
        .flush v .readFirst ∈ points := by
  rw [CLibrary.sortBody, CLibrary.readFirst, CLibrary.freadStartingFrom,
    fseek_fails hheld hfails]
  exact ⟨_, rfl, List.mem_append_right _ List.mem_cons_self⟩

/-- What the first write of an exchange holds back cannot be written. -/
theorem sortBody_writeFirst_stuck (h : Holds size s.seen rs rest)
    (hcalls : ∀ c, fails (.call c) = false)
    (hflush : s.stream.held = [] ∨ fails (.flush v .readFirst) = false)
    (ha : rs[v.2 - 1]? = some a) (hb : rs[v.2]? = some b) (hlt : recordKey b < recordKey a)
    (hpart : lib.passes v .writeSecond < size) (hfails : fails (.flush v .writeFirst) = true) :
    ∃ points, lib.sortBody fails size s v =
      .error ⟨(lib.half size v rs rest b).stuck lib.retries, a, b, points⟩ ∧
        .flush v .writeFirst ∈ points := by
  obtain ⟨points, hreads⟩ := reads_stream lib h hcalls hflush ha hb
  have hlb := h.length_of_getElem? hb
  obtain ⟨points₁, hhalf⟩ := writeSecond_stream lib v rs rest a hcalls hlb points
  have hheld : (lib.half size v rs rest b).held ≠ [] := by
    intro hnil
    have hle := List.drop_eq_nil_iff.mp hnil
    omega
  rw [sortBody_assoc, hreads]
  show ∃ _, (if recordKey b < recordKey a then _ else _) = _ ∧ _
  rw [if_pos hlt, hhalf]
  show ∃ _, lib.writeFirst fails size v _ = _ ∧ _
  rw [CLibrary.writeFirst, CLibrary.fwriteStartingFrom, fseek_fails hheld hfails]
  exact ⟨_, rfl, List.mem_append_right _ List.mem_cons_self⟩

/-- A run in which nothing fails to be written exchanges as `sort_lib` does over a file. -/
theorem foldlM_stream (lib : CLibrary) (hpos : 0 < size) {vs : List (ℕ × ℕ)}
    (h : Holds size s.seen rs rest) (hcalls : ∀ c, fails (.call c) = false)
    (hflush : ∀ v ∈ vs, ∀ place, fails (.flush v place) = false)
    (hvs : ∀ v ∈ vs, v.2 < rs.length) :
    ∃ s', vs.foldlM (lib.sortBody fails size) s = .ok s' ∧
      Holds size s'.seen (exchanged vs rs) rest := by
  have hfails : ∀ v ∈ vs, ∀ place b, onCalls fails ⟨v, place, b⟩ = false :=
    fun v _ place b => hcalls ⟨v, place, b⟩
  obtain ⟨s₁, hrun, hholds, -⟩ := foldlM_ok h (libHelpers_sound size) hfails hvs
    (fun _ _ => ⟨trivial, trivial, trivial⟩)
  have hseen : seeing (vs.foldlM (lib.sortBody fails size) s) = _ := foldlM_seen hpos hflush s
  rw [hrun] at hseen
  cases hs : vs.foldlM (lib.sortBody fails size) s with
  | ok s' =>
    rw [hs] at hseen
    obtain rfl := Except.ok.inj hseen
    exact ⟨s', rfl, hholds⟩
  | error s' =>
    rw [hs] at hseen
    cases hseen

end Visit

/-! ### What is lost -/

/-- A record of which a part is written over another: it is the record that was written iff
the rest of the two is the same. -/
theorem take_append_drop_eq_iff (a b : List UInt8) (k : ℕ) :
    a.take k ++ b.drop k = a ↔ a.drop k = b.drop k := by
  conv_lhs => rhs; rw [← List.take_append_drop k a]
  rw [List.append_cancel_left_eq]
  exact eq_comm

/-- Records of different keys: nothing of the one may be written over the other. -/
theorem take_append_drop_eq_iff_of_lt {a b : List UInt8} (hb : b ≠ [])
    (hlt : recordKey b < recordKey a) (k : ℕ) : b.take k ++ a.drop k = a ↔ k = 0 := by
  constructor
  · intro heq
    by_contra hk
    obtain ⟨x, b, rfl⟩ := List.exists_cons_of_ne_nil hb
    obtain ⟨k, rfl⟩ := Nat.exists_eq_succ_of_ne_zero hk
    have hkey := congrArg recordKey heq
    exact absurd hkey hlt.ne
  · rintro rfl
    rfl

namespace SortJob

variable {job : SortJob} {lib : CLibrary} {fails : Point → Bool} {v u : ℕ × ℕ}
  {us : List (ℕ × ℕ)} {s : LibSorter}

/-- The records that the visits `us` leave. -/
abbrev after (job : SortJob) (us : List (ℕ × ℕ)) : List (List UInt8) :=
  exchanged us (job.recordsOf job.file)

/-- What stands behind the records. -/
abbrev tail (job : SortJob) : List UInt8 := job.file.drop (job.records * job.size)

@[simp] theorem length_after (us : List (ℕ × ℕ)) : (job.after us).length = job.records :=
  (length_exchanged us _).trans (length_recordsOf _)

/-- The two records that a visit finds. -/
theorem getElem?_left (us : List (ℕ × ℕ)) (hu : u ∈ visits job.records) :
    (job.after us)[u.2 - 1]? = some (job.left us u) := by
  have hlt : u.2 - 1 < (job.after us).length := by
    have := mem_visits.mp hu
    rw [length_after]
    omega
  rw [left, List.getD_eq_getElem?_getD, List.getElem?_eq_getElem hlt, Option.getD_some]

theorem getElem?_right (us : List (ℕ × ℕ)) (hu : u ∈ visits job.records) :
    (job.after us)[u.2]? = some (job.right us u) := by
  have hlt : u.2 < (job.after us).length := by
    rw [length_after]
    exact lt_of_mem_visits hu
  rw [right, List.getD_eq_getElem?_getD, List.getElem?_eq_getElem hlt, Option.getD_some]

/-- The records are all there if the file is what the visits have made of it. -/
theorem perm_of_holds (h : Holds job.size s.seen (job.after us) job.tail) :
    (job.recordsOf s.stream.seen).Perm (job.recordsOf job.file) := by
  have hfile : s.stream.seen = (job.after us).flatten ++ job.tail := h.file_eq
  rw [hfile, recordsOf_append (length_after us) h.length_eq]
  exact (rearranged_exchanged us _).perm

/-- One of the records overwritten. -/
theorem perm_set_recordsOf_iff {t a file : List UInt8} {j : ℕ}
    (h : ∀ r ∈ job.after us, r.length = job.size) (ht : t.length = job.size)
    (ha : (job.after us)[j]? = some a)
    (hfile : file = ((job.after us).set j t).flatten ++ job.tail) :
    (job.recordsOf file).Perm (job.recordsOf job.file) ↔ t = a := by
  have hmoved := (rearranged_exchanged us (job.recordsOf job.file)).perm
  rw [hfile, recordsOf_append (List.length_set.trans (length_after us)) (length_of_mem_set h ht),
    ← perm_set_iff ha]
  exact ⟨fun hperm => hperm.trans hmoved.symm, fun hperm => hperm.trans hmoved⟩

/-- The stream after some visits, of which the last is `u`. -/
structure Ends (job : SortJob) (lib : CLibrary) (us : List (ℕ × ℕ)) (u : ℕ × ℕ)
    (s : LibSorter) : Prop where
  holds : Holds job.size s.seen (job.after (us ++ [u])) job.tail
  length_eq : ∀ r ∈ job.after us, r.length = job.size
  mem_visits : u ∈ visits job.records
  stream_eq : job.Swaps us u → s.stream =
    lib.swapped job.size u (job.after us) job.tail (job.left us u) (job.right us u)
  held_eq : ¬job.Swaps us u → s.stream.held = []

namespace Ends

theorem length_left (h : Ends job lib us u s) : (job.left us u).length = job.size :=
  h.length_eq _ (List.mem_of_getElem? (getElem?_left us h.mem_visits))

theorem length_right (h : Ends job lib us u s) : (job.right us u).length = job.size :=
  h.length_eq _ (List.mem_of_getElem? (getElem?_right us h.mem_visits))

/-- If something is held, the visit has exchanged, and it is the end of a record. -/
theorem swaps (h : Ends job lib us u s) (hheld : s.stream.held ≠ []) : job.Swaps us u := by
  by_contra hnot
  exact hheld (h.held_eq hnot)

theorem held_ne_nil (h : Ends job lib us u s) (htorn : job.Torn lib us u) :
    s.stream.held ≠ [] := by
  rw [h.stream_eq htorn.1]
  intro hnil
  have hnil : (job.left us u).drop (lib.passes u .writeFirst) = [] := hnil
  have hle := List.drop_eq_nil_iff.mp hnil
  refine htorn.2 (hnil.trans (List.drop_eq_nil_of_le ?_).symm)
  rwa [h.length_right, ← h.length_left]

/-- **What is in the file while a part is held**: all the records, iff that part is there
already. -/
theorem perm_file_iff (h : Ends job lib us u s) (hswap : job.Swaps us u) :
    (job.recordsOf s.stream.file).Perm (job.recordsOf job.file) ↔ ¬job.Torn lib us u := by
  have hpos := (Exchange.mem_visits.mp h.mem_visits).1
  have hl := getElem?_left us h.mem_visits
  have hr := getElem?_right us h.mem_visits
  have hlt := (List.getElem?_eq_some_iff.mp hr).1
  have hset := length_of_mem_set (j := u.2 - 1) h.length_eq h.length_right
  have hr' : ((job.after us).set (u.2 - 1) (job.right us u))[u.2]? =
      some (job.right us u) := by
    rw [List.getElem?_set_ne (by omega), hr]
  -- the records as the stream shows them, and the one place where the file differs
  have hafter : job.after (us ++ [u]) =
      ((job.after us).set (u.2 - 1) (job.right us u)).set u.2 (job.left us u) := by
    rw [after, exchanged, List.foldl_append]
    show exchange recordKey (job.after us) u.2 = _
    rw [exchange_eq hl hr]
    exact if_pos hswap
  have hplace : (job.after (us ++ [u]))[u.2]? = some (job.left us u) := by
    rw [hafter, List.getElem?_set_self (by rwa [List.length_set])]
  have hfile := StreamFile.file_fwrite_flatten (k := lib.passes u .writeFirst) hset hr'
    h.length_left job.tail
  have hrecord : (job.left us u).take (lib.passes u .writeFirst) ++
      (job.right us u).drop (lib.passes u .writeFirst) = job.left us u ↔
        ¬job.Torn lib us u := by
    rw [take_append_drop_eq_iff, Torn, not_and, not_not]
    exact ⟨fun heq _ => heq, fun heq => heq hswap⟩
  rw [h.stream_eq hswap, ← hrecord, ← perm_set_iff hplace, hafter, List.set_set]
  show (job.recordsOf (StreamFile.fwrite _ _ _ _).file).Perm _ ↔ _
  rw [hfile, recordsOf_append (by rw [List.length_set, List.length_set, length_after]) ?_]
  · rw [← hafter]
    exact ⟨fun hperm => hperm.trans (rearranged_exchanged _ _).perm.symm,
      fun hperm => hperm.trans (rearranged_exchanged _ _).perm⟩
  · refine length_of_mem_set hset ?_
    rw [List.length_append, List.length_take, List.length_drop, h.length_left, h.length_right]
    omega

end Ends

/-- The run after some visits in which nothing fails to be written. -/
theorem exists_ends (lib : CLibrary) (h : job.Complete)
    (hcalls : ∀ c, fails (.call c) = false)
    (hmem : ∀ v ∈ us ++ [u], v ∈ visits job.records)
    (hflush : ∀ v ∈ us ++ [u], ∀ place, fails (.flush v place) = false) :
    ∃ s, (us ++ [u]).foldlM (lib.sortBody fails job.size) job.streamStart = .ok s ∧
      Ends job lib us u s := by
  have hlt : ∀ v ∈ us ++ [u], v.2 < (job.recordsOf job.file).length := by
    intro v hv
    rw [length_recordsOf]
    exact lt_of_mem_visits (hmem v hv)
  have hu : u ∈ us ++ [u] := List.mem_append_right _ List.mem_cons_self
  -- the records are those of the visits, one after another
  have hstart : Holds job.size job.streamStart.seen (job.recordsOf job.file) job.tail :=
    holds_start h
  obtain ⟨s₀, hrun₀, hholds₀⟩ := foldlM_stream lib job.one_le_size hstart hcalls
    (fun v hv => hflush v (List.mem_append_left _ hv))
    (fun v hv => hlt v (List.mem_append_left _ hv))
  obtain ⟨s, hbody, hholds, hstream⟩ := sortBody_stream lib hholds₀ hcalls
    (Or.inr (hflush u hu _)) (fun _ => Or.inr (hflush u hu _))
    (getElem?_left us (hmem u hu)) (getElem?_right us (hmem u hu))
  refine ⟨s, ?_, ?_, hholds₀.length_eq, hmem u hu, fun hswap => ?_, fun hnot => ?_⟩
  · rw [List.foldlM_append, hrun₀]
    show List.foldlM (lib.sortBody fails job.size) s₀ [u] = _
    rw [List.foldlM_cons, hbody]
    rfl
  · rw [after, exchanged, List.foldl_append]
    exact hholds
  · exact hstream.trans (if_pos hswap)
  · exact congrArg StreamFile.held (hstream.trans (if_neg hnot))

/-- The run goes on to the end, and all that is held is written. -/
theorem perm_of_ok (vs : List (ℕ × ℕ)) (hclose : fails .close = false)
    (hrun : (visits job.records).foldlM (lib.sortBody fails job.size) job.streamStart = .ok s)
    (hholds : Holds job.size s.seen (job.after vs) job.tail) :
    (job.recordsOf (job.stream lib fails).file).Perm (job.recordsOf job.file) := by
  rw [stream_of_ok hrun, file_fclose hclose]
  exact perm_of_holds hholds

/-- A run that comes to no failure. -/
theorem perm_of_no_flush (lib : CLibrary) (h : job.Complete)
    (hcalls : ∀ c, fails (.call c) = false) (hclose : fails .close = false)
    (hflush : ∀ v ∈ visits job.records, ∀ place, fails (.flush v place) = false) :
    (job.recordsOf (job.stream lib fails).file).Perm (job.recordsOf job.file) := by
  obtain ⟨s, hrun, hholds⟩ := foldlM_stream lib job.one_le_size
    (show Holds job.size job.streamStart.seen (job.recordsOf job.file) job.tail from
      holds_start h) hcalls hflush (fun v hv => by
        rw [length_recordsOf]
        exact lt_of_mem_visits hv)
  exact perm_of_ok _ hclose hrun hholds

/-- The run comes to the visit `v` with `s`, and to no failure before. -/
structure Arrives (job : SortJob) (lib : CLibrary) (fails : Point → Bool) (v : ℕ × ℕ)
    (s : LibSorter) (vs : List (ℕ × ℕ)) : Prop where
  visits_eq : visits job.records = visitsTo v.1 v.2 ++ v :: vs
  run : (visitsTo v.1 v.2).foldlM (lib.sortBody fails job.size) job.streamStart = .ok s
  holds : Holds job.size s.seen (job.after (visitsTo v.1 v.2)) job.tail
  notMem : v ∉ visitsTo v.1 v.2 ∧ v ∉ vs

theorem exists_arrives (lib : CLibrary) (h : job.Complete) (hcalls : ∀ c, fails (.call c) = false)
    (hflush : ∀ u, u ≠ v → ∀ place, fails (.flush u place) = false)
    (hv : v ∈ visits job.records) : ∃ s vs, Arrives job lib fails v s vs := by
  obtain ⟨vs, hvisits, hbefore, hafter, hmem⟩ :=
    @exists_visits_before ⟨v, .readFirst, true⟩ job hv
  obtain ⟨s, hrun, hholds⟩ := foldlM_stream lib job.one_le_size
    (show Holds job.size job.streamStart.seen (job.recordsOf job.file) job.tail from
      holds_start h) hcalls
    (fun u hu => hflush u (by rintro rfl; exact hbefore hu)) (fun u hu => (hmem u hu).1)
  exact ⟨s, vs, hvisits, hrun, hholds, hbefore, hafter⟩

namespace Arrives

variable {vs : List (ℕ × ℕ)} {s' : LibSorter}

theorem mem_visits (h : Arrives job lib fails v s vs) : v ∈ visits job.records := by
  rw [h.visits_eq]
  exact List.mem_append_right _ List.mem_cons_self

/-- The visit goes on, and so does the run. -/
theorem perm (h : Arrives job lib fails v s vs) (hcalls : ∀ c, fails (.call c) = false)
    (hflush : ∀ u, u ≠ v → ∀ place, fails (.flush u place) = false)
    (hclose : fails .close = false) (hbody : lib.sortBody fails job.size s v = .ok s')
    (hholds : Holds job.size s'.seen
      (exchange recordKey (job.after (visitsTo v.1 v.2)) v.2) job.tail) :
    (job.recordsOf (job.stream lib fails).file).Perm (job.recordsOf job.file) := by
  have hlt : ∀ u ∈ vs, u.2 < (exchange recordKey (job.after (visitsTo v.1 v.2)) v.2).length := by
    intro u hu
    rw [length_exchange, length_after]
    apply lt_of_mem_visits
    rw [h.visits_eq]
    exact List.mem_append_right _ (List.mem_cons_of_mem _ hu)
  obtain ⟨s'', hrun, hholds''⟩ := foldlM_stream lib job.one_le_size hholds hcalls
    (fun u hu => hflush u (by rintro rfl; exact h.notMem.2 hu)) hlt
  refine perm_of_ok (visitsTo v.1 v.2 ++ v :: vs) hclose (s := s'') ?_ ?_
  · rw [h.visits_eq, List.foldlM_append, h.run]
    show List.foldlM (lib.sortBody fails job.size) s (v :: vs) = _
    rw [List.foldlM_cons, hbody]
    exact hrun
  · rw [after, exchanged, List.foldl_append]
    exact hholds''

/-- The visit stops, and so does the run. -/
theorem stream_eq (h : Arrives job lib fails v s vs)
    (hbody : lib.sortBody fails job.size s v = .error s') :
    job.stream lib fails = CLibrary.fclose fails (-1) s' := by
  apply stream_of_error
  rw [h.visits_eq, List.foldlM_append, h.run]
  show List.foldlM (lib.sortBody fails job.size) s (v :: vs) = _
  rw [List.foldlM_cons, hbody]
  rfl

end Arrives

end SortJob

open SortJob

section Points

variable {job : SortJob} {v u : ℕ × ℕ} {place : Place}

/-- The records are all there if the run comes to the failure `p`. -/
def SortJob.KeepsRecords (job : SortJob) (p : Point) (r : LibResult) : Prop :=
  p ∈ r.points → (job.recordsOf r.file).Perm (job.recordsOf job.file)

@[simp] theorem only_call (v : ℕ × ℕ) (place : Place) (c : Call) :
    only (.flush v place) (.call c) = false := rfl

theorem only_elsewhere (h : u ≠ v) (place' : Place) :
    only (.flush v place) (.flush u place') = false :=
  decide_eq_false fun heq => h (Point.flush.inj heq).1

theorem only_other {place' : Place} (h : place' ≠ place) (u : ℕ × ℕ) :
    only (.flush v place) (.flush u place') = false :=
  decide_eq_false fun heq => h (Point.flush.inj heq).2

@[simp] theorem only_self (p : Point) : only p p = true := decide_eq_true rfl

/-- No visit makes the write that fails. -/
theorem perm_of_notMem (lib : CLibrary) (h : job.Complete) (hv : v ∉ visits job.records) :
    (job.recordsOf (job.stream lib (only (.flush v place))).file).Perm
      (job.recordsOf job.file) :=
  perm_of_no_flush lib h (only_call v place) rfl fun _ hu => only_elsewhere fun heq => hv (heq ▸ hu)

/-- The visit of the failure, if it does not come to it. -/
theorem SortJob.Arrives.goes_on {lib : CLibrary} {s : LibSorter} {vs : List (ℕ × ℕ)}
    (h : Arrives job lib (only (.flush v place)) v s vs)
    (hread : s.stream.held = [] ∨ place ≠ .readFirst)
    (hswap : job.Swaps (visitsTo v.1 v.2) v →
      job.size ≤ lib.passes v .writeSecond ∨ place ≠ .writeFirst) :
    (job.recordsOf (job.stream lib (only (.flush v place))).file).Perm
      (job.recordsOf job.file) := by
  obtain ⟨s', hbody, hholds, -⟩ := sortBody_stream lib h.holds (only_call v place)
    (hread.imp_right fun hne => only_other hne.symm v)
    (fun hlt => (hswap hlt).imp_right fun hne => only_other hne.symm v)
    (getElem?_left _ h.mem_visits) (getElem?_right _ h.mem_visits)
  exact h.perm (only_call v place) (fun _ hu => only_elsewhere hu) rfl hbody hholds

/-- The file after a run that stops. -/
theorem SortJob.Arrives.keeps_iff {lib : CLibrary} {s s' : LibSorter} {vs : List (ℕ × ℕ)}
    (h : Arrives job lib (only (.flush v place)) v s vs)
    (hbody : lib.sortBody (only (.flush v place)) job.size s v = .error s')
    (hmem : .flush v place ∈ s'.points) :
    job.KeepsRecords (.flush v place) (job.stream lib (only (.flush v place))) ↔
      (job.recordsOf s'.stream.seen).Perm (job.recordsOf job.file) := by
  rw [KeepsRecords, h.stream_eq hbody, file_fclose rfl]
  refine ⟨fun hkeeps => hkeeps ?_, fun hperm _ => hperm⟩
  exact (mem_points_fclose Point.noConfusion).mpr hmem

/-- The visit before. -/
theorem SortJob.Arrives.ends {lib : CLibrary} {s : LibSorter} {vs us : List (ℕ × ℕ)}
    (harr : Arrives job lib (only (.flush v place)) v s vs) (h : job.Complete)
    (hbefore : visitsTo v.1 v.2 = us ++ [u]) : Ends job lib us u s := by
  have hnot := harr.notMem.1
  have hmem : ∀ w ∈ us ++ [u], w ∈ visits job.records := by
    intro w hw
    rw [harr.visits_eq, hbefore]
    exact List.mem_append_left _ hw
  rw [hbefore] at hnot
  obtain ⟨s', hrun, hends⟩ := exists_ends lib h (only_call v place) hmem
    (fun w hw => only_elsewhere (by rintro rfl; exact hnot hw))
  have hrun' := harr.run
  rw [hbefore, hrun] at hrun'
  rwa [← Except.ok.inj hrun']

/-- The write that the visit before has left to this one. -/
theorem keeps_readFirst_iff (lib : CLibrary) (h : job.Complete) (v : ℕ × ℕ) :
    job.KeepsRecords (.flush v .readFirst) (job.stream lib (only (.flush v .readFirst))) ↔
      ¬job.Loses lib (.flush v .readFirst) := by
  by_cases hv : v ∈ visits job.records
  swap
  · exact iff_of_true (fun _ => perm_of_notMem lib h hv) fun hloses => hv hloses.1
  obtain ⟨s, vs, harr⟩ := exists_arrives lib h (only_call v .readFirst)
    (fun u hu => only_elsewhere hu) hv
  -- with nothing held the flush has nothing to do
  by_cases hheld : s.stream.held = []
  · refine iff_of_true (fun _ => harr.goes_on (Or.inl hheld) fun _ => Or.inr (by decide)) ?_
    rintro ⟨-, -, us, u, hbefore, htorn⟩
    exact (harr.ends h hbefore).held_ne_nil htorn hheld
  obtain ⟨points, hbody, hmem⟩ :=
    sortBody_readFirst_stuck hheld (only_self (.flush v .readFirst))
  rw [harr.keeps_iff hbody hmem, StreamFile.seen_stuck]
  obtain hnil | ⟨us, u, hbefore⟩ := List.eq_nil_or_concat' (visitsTo v.1 v.2)
  · -- at the start nothing is held
    have hrun := harr.run
    rw [hnil] at hrun
    cases hrun
    exact absurd rfl hheld
  have hends := harr.ends h hbefore
  -- a library that tries again writes at the next seek what this one has kept
  cases hretries : lib.retries with
  | true =>
    refine iff_of_true (perm_of_holds harr.holds) fun hloses => ?_
    exact absurd (hretries.symm.trans hloses.2.1) (by decide)
  | false =>
    refine (hends.perm_file_iff (hends.swaps hheld)).trans (not_congr ?_)
    refine ⟨fun htorn => ⟨hv, hretries, us, u, hbefore, htorn⟩, ?_⟩
    -- what is torn by the flush is the exchange before
    rintro ⟨-, -, us', u', hbefore', htorn⟩
    obtain ⟨rfl, hu⟩ := List.append_inj' (hbefore.symm.trans hbefore') rfl
    obtain rfl := List.singleton_inj.mp hu
    exact htorn

/-- The first write of an exchange. -/
theorem keeps_writeFirst_iff (lib : CLibrary) (h : job.Complete) (v : ℕ × ℕ) :
    job.KeepsRecords (.flush v .writeFirst) (job.stream lib (only (.flush v .writeFirst))) ↔
      ¬job.Loses lib (.flush v .writeFirst) := by
  by_cases hv : v ∈ visits job.records
  swap
  · exact iff_of_true (fun _ => perm_of_notMem lib h hv) fun hloses => hv hloses.1
  obtain ⟨s, vs, harr⟩ := exists_arrives lib h (only_call v .writeFirst)
    (fun u hu => only_elsewhere hu) hv
  by_cases hpart : job.Swaps (visitsTo v.1 v.2) v ∧ lib.passes v .writeSecond < job.size
  swap
  · refine iff_of_true (fun _ => harr.goes_on (Or.inr (by decide)) fun hswap => ?_) ?_
    · exact Or.inl (Nat.not_lt.mp fun hlt => hpart ⟨hswap, hlt⟩)
    · exact fun hloses => hpart ⟨hloses.2.1, hloses.2.2.1⟩
  obtain ⟨hswap, hlt⟩ := hpart
  have hl := getElem?_left (visitsTo v.1 v.2) hv
  have hr := getElem?_right (visitsTo v.1 v.2) hv
  obtain ⟨points, hbody, hmem⟩ := sortBody_writeFirst_stuck harr.holds (only_call v .writeFirst)
    (Or.inr (only_other (by decide) v)) hl hr hswap hlt (only_self (.flush v .writeFirst))
  rw [harr.keeps_iff hbody hmem, StreamFile.seen_stuck]
  have hlen := harr.holds.length_of_getElem? hl
  have hlen' := harr.holds.length_of_getElem? hr
  have hplace := (List.getElem?_eq_some_iff.mp hl).1
  have hright : job.right (visitsTo v.1 v.2) v ≠ [] := by
    intro hnil
    rw [hnil] at hlen'
    exact absurd job.one_le_size (by rw [← hlen']; decide)
  cases hretries : lib.retries with
  | true =>
    -- the write of `second_record` succeeds after all, but `first_record` has no other place
    have hfile := seen_half lib job.tail harr.holds.length_eq hplace hlen'
    rw [if_pos rfl, perm_set_recordsOf_iff harr.holds.length_eq hlen' hl hfile]
    refine iff_of_false (fun heq => ?_) (not_not_intro ⟨hv, hswap, hlt, Or.inl hretries⟩)
    rw [Swaps, heq] at hswap
    exact lt_irrefl _ hswap
  | false =>
    have hfile := StreamFile.file_fwrite_flatten (k := lib.passes v .writeSecond)
      harr.holds.length_eq hl hlen' job.tail
    have htorn : ((job.right (visitsTo v.1 v.2) v).take (lib.passes v .writeSecond) ++
        (job.left (visitsTo v.1 v.2) v).drop (lib.passes v .writeSecond)).length =
          job.size := by
      rw [List.length_append, List.length_take, List.length_drop, hlen, hlen']
      omega
    rw [if_neg Bool.false_ne_true]
    refine (perm_set_recordsOf_iff harr.holds.length_eq htorn hl hfile).trans ?_
    rw [take_append_drop_eq_iff_of_lt hright hswap]
    constructor
    · rintro hzero ⟨-, -, -, hretries' | hpos⟩
      · exact absurd (hretries.symm.trans hretries') Bool.false_ne_true
      · omega
    · intro hnot
      by_contra hzero
      exact hnot ⟨hv, hswap, hlt, Or.inr (Nat.pos_of_ne_zero hzero)⟩

/-- `fseek` has nothing to write in front of the other two helpers. -/
theorem keeps_of_never (lib : CLibrary) (h : job.Complete) (v : ℕ × ℕ)
    (hread : place ≠ .readFirst) (hwrite : place ≠ .writeFirst) :
    job.KeepsRecords (.flush v place) (job.stream lib (only (.flush v place))) := by
  intro _
  by_cases hv : v ∈ visits job.records
  · obtain ⟨s, vs, harr⟩ := exists_arrives lib h (only_call v place)
      (fun u hu => only_elsewhere hu) hv
    exact harr.goes_on (Or.inr hread) fun _ => Or.inr hwrite
  · exact perm_of_notMem lib h hv

theorem fclose_close_of_nil {s : LibSorter} (hheld : s.stream.held = []) (status : ℤ) :
    CLibrary.fclose (only .close) status s = ⟨status, s.stream.seen, s.points⟩ := by
  rw [CLibrary.fclose, if_pos hheld, StreamFile.seen_of_held_eq_nil hheld]

theorem fclose_close_of_ne_nil {s : LibSorter} (hheld : s.stream.held ≠ []) (status : ℤ) :
    CLibrary.fclose (only .close) status s =
      ⟨status, s.stream.file, s.points ++ [.close]⟩ := by
  rw [CLibrary.fclose, if_neg hheld, if_pos (only_self .close)]

/-- The last write, in `fclose`: its failure is not reported. -/
theorem keeps_close_iff (lib : CLibrary) (h : job.Complete) :
    (job.stream lib (only .close)).status = 0 ∧
      (job.KeepsRecords .close (job.stream lib (only .close)) ↔ ¬job.Loses lib .close) := by
  obtain hnil | ⟨us, u, hvisits⟩ := List.eq_nil_or_concat' (visits job.records)
  · have hrun : (visits job.records).foldlM (lib.sortBody (only .close) job.size)
        job.streamStart = .ok job.streamStart := by
      rw [hnil]
      rfl
    rw [stream_of_ok hrun, fclose_close_of_nil rfl]
    refine ⟨rfl, iff_of_true (fun _ => .refl _) ?_⟩
    rintro ⟨us, u, hvisits, -⟩
    rw [hnil] at hvisits
    exact absurd hvisits.symm (by simp)
  obtain ⟨s, hrun, hends⟩ := exists_ends lib h
    (show ∀ c, only .close (.call c) = false from fun _ => rfl)
    (show ∀ v ∈ us ++ [u], v ∈ visits job.records from fun v hv => hvisits ▸ hv)
    (fun _ _ _ => rfl)
  rw [← hvisits] at hrun
  -- `fclose` flushes what the last exchange has left
  have hloses : job.Loses lib .close ↔ job.Torn lib us u := by
    refine ⟨?_, fun htorn => ⟨us, u, hvisits, htorn⟩⟩
    rintro ⟨us', u', hvisits', htorn⟩
    obtain ⟨rfl, hu⟩ := List.append_inj' (hvisits.symm.trans hvisits') rfl
    obtain rfl := List.singleton_inj.mp hu
    exact htorn
  rw [stream_of_ok hrun, hloses]
  -- without an exchange at the end nothing is held
  by_cases hheld : s.stream.held = []
  · rw [fclose_close_of_nil hheld]
    exact ⟨rfl, iff_of_true (fun _ => perm_of_holds hends.holds)
      fun htorn => hends.held_ne_nil htorn hheld⟩
  · rw [fclose_close_of_ne_nil hheld, KeepsRecords, ← hends.perm_file_iff (hends.swaps hheld)]
    exact ⟨rfl, fun hkeeps => hkeeps (List.mem_append_right _ List.mem_cons_self),
      fun hperm _ => hperm⟩

theorem onCalls_only (c : Call) : onCalls (only (.call c)) = fault c := by
  funext c'
  rw [onCalls, only, fault]
  exact decide_eq_decide.mpr ⟨Point.call.inj, congrArg _⟩

/-- A call that fails, over a stream as over a file. -/
theorem keeps_call_iff (lib : CLibrary) (h : job.Complete) (c : Call) :
    job.KeepsRecords (.call c) (job.stream lib (only (.call c))) ↔ ¬job.Loses lib (.call c) := by
  obtain ⟨-, hfile, hmem⟩ := stream_eq job lib
    (show ∀ v place, only (.call c) (.flush v place) = false from fun _ _ => rfl) rfl
  obtain ⟨hreported, hiff⟩ := lib_losesNothing_iff job h c
  rw [onCalls_only] at hfile hmem
  rw [Loses, ← hiff, KeepsRecords, hfile, hmem c]
  exact ⟨fun hkeeps hc => ⟨hreported hc, hkeeps hc⟩, fun hloses hc => (hloses hc).2⟩

end Points

/-- Two records in the wrong order. -/
def twoRecords : SortJob where
  records := 2
  size := 1
  file := [9, 1]
  first := [0]
  second := [0]
  one_le_records := Nat.two_pos
  one_le_size := Nat.zero_lt_one
  first_length := length_one_byte
  second_length := length_one_byte

/-- A stream that holds back all that it is given. -/
def holdsAll : CLibrary := ⟨fun _ _ => 0, false⟩

end FileIo
end OpSys
