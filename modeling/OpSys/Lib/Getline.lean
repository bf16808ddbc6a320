import Mathlib.Data.List.TakeWhile
import OpSys.Lib.Stdio

/-!
# Reading lines at a shared offset

A stream open for reading keeps a block of the file in a buffer of its own, while the
offset of the next `read` belongs to the open file and is shared with every process
that inherited it.  Another process can move that offset between two blocks.

## Main definitions

* `lines text` — the lines of a file, each with its newline.
* `File`, `File.tell` — a stream, and the position its process has reached.
* `getline text block file off` — the next line, `block` bytes to a `read`.
* `File.Behind` — no other process has moved the offset forward.
* `blockEnd size block pos` — where the block that holds the byte before `pos` ends.

## Main results

* `getline_of_ready` — with the offset in place, `getline` returns the next line.
* `getline_length` — no byte is ever skipped, and one that finds the offset moved
  back reads bytes again.
-/

namespace OpSys
namespace Stdio

/-- The bytes up to and including the first newline, and the rest. -/
def firstLine : List UInt8 → List UInt8 × List UInt8
  | [] => ([], [])
  | b :: text =>
    if b = newline then ([b], text)
    else (b :: (firstLine text).1, (firstLine text).2)

/-- The lines of a file, each with its newline; the last one may lack it. -/
def lines : List UInt8 → List (List UInt8)
  | [] => []
  | b :: text =>
    if b = newline then [b] :: lines text
    else
      match lines text with
      | [] => [[b]]
      | line :: rest => (b :: line) :: rest

/-! ### Lines -/

@[simp] theorem firstLine_append (text : List UInt8) :
    (firstLine text).1 ++ (firstLine text).2 = text := by
  induction text with
  | nil => rfl
  | cons b text ih =>
    rw [firstLine]
    split
    · rfl
    · exact congrArg (b :: ·) ih

theorem firstLine_length (text : List UInt8) :
    (firstLine text).1.length + (firstLine text).2.length = text.length := by
  rw [← List.length_append, firstLine_append]

theorem firstLine_ne_nil {text : List UInt8} (h : text ≠ []) : (firstLine text).1 ≠ [] := by
  cases text with
  | nil => exact absurd rfl h
  | cons b text =>
    rw [firstLine]
    split <;> exact List.cons_ne_nil _ _

theorem newline_mem_firstLine {text : List UInt8} :
    newline ∈ (firstLine text).1 ↔ newline ∈ text := by
  induction text with
  | nil => rfl
  | cons b text ih =>
    rw [firstLine]
    split
    · simp [*]
    · simp only [List.mem_cons, ih]

/-- Without a newline the first line is the whole text. -/
theorem firstLine_of_notMem {text : List UInt8} (h : newline ∉ text) :
    firstLine text = (text, []) := by
  induction text with
  | nil => rfl
  | cons b text ih =>
    obtain ⟨hb, htext⟩ := not_or.mp (List.mem_cons.not.mp h)
    rw [firstLine, if_neg (Ne.symm hb), ih htext]

theorem firstLine_append_of_mem {a : List UInt8} (h : newline ∈ a) (b : List UInt8) :
    firstLine (a ++ b) = ((firstLine a).1, (firstLine a).2 ++ b) := by
  induction a with
  | nil => exact absurd h List.not_mem_nil
  | cons x a ih =>
    rw [List.cons_append, firstLine, firstLine]
    by_cases hx : x = newline
    · rw [if_pos hx, if_pos hx]
    · rw [if_neg hx, if_neg hx, ih ((List.mem_cons.mp h).resolve_left (Ne.symm hx))]

theorem firstLine_append_of_notMem {a : List UInt8} (h : newline ∉ a) (b : List UInt8) :
    firstLine (a ++ b) = (a ++ (firstLine b).1, (firstLine b).2) := by
  induction a with
  | nil => rfl
  | cons x a ih =>
    obtain ⟨hx, ha⟩ := not_or.mp (List.mem_cons.not.mp h)
    rw [List.cons_append, firstLine, if_neg (Ne.symm hx), ih ha, List.cons_append]

theorem lines_eq_cons {text : List UInt8} (h : text ≠ []) :
    lines text = (firstLine text).1 :: lines (firstLine text).2 := by
  induction text with
  | nil => exact absurd rfl h
  | cons b text ih =>
    rw [lines, firstLine]
    by_cases hb : b = newline
    · rw [if_pos hb, if_pos hb]
    · rw [if_neg hb, if_neg hb]
      cases text with
      | nil => rfl
      | cons c text => rw [ih (List.cons_ne_nil _ _)]

theorem flatten_lines (text : List UInt8) : (lines text).flatten = text := by
  induction text with
  | nil => rfl
  | cons b text ih =>
    rw [lines]
    split
    · rw [List.flatten_cons, ih]
      rfl
    · split
      · rename_i hnil
        rw [hnil] at ih
        rw [← ih]
        rfl
      · rename_i hcons
        rw [hcons] at ih
        rw [← ih]
        rfl

theorem ne_nil_of_mem_lines {text line : List UInt8} (h : line ∈ lines text) : line ≠ [] := by
  induction text generalizing line with
  | nil => exact absurd h List.not_mem_nil
  | cons b text ih =>
    rw [lines] at h
    split at h
    · rcases List.mem_cons.mp h with rfl | hmem
      · exact List.cons_ne_nil _ _
      · exact ih hmem
    · split at h
      · rw [List.mem_singleton.mp h]
        exact List.cons_ne_nil _ _
      · rename_i hlines
        rcases List.mem_cons.mp h with rfl | hmem
        · exact List.cons_ne_nil _ _
        · exact ih (hlines ▸ List.mem_cons_of_mem _ hmem)

/-- Only the last line of a file may lack its newline. -/
theorem newline_mem_of_mem_dropLast {text line : List UInt8} (h : line ∈ (lines text).dropLast) :
    newline ∈ line := by
  induction text generalizing line with
  | nil => exact absurd h List.not_mem_nil
  | cons b text ih =>
    rw [lines] at h
    -- the newline that ends the first line
    split at h
    · rename_i hb
      cases hlines : lines text with
      | nil => simp [hlines] at h
      | cons first rest =>
        rw [hlines, List.dropLast_cons_cons, ← hlines] at h
        rcases List.mem_cons.mp h with rfl | hmem
        · exact hb ▸ List.mem_cons_self
        · exact ih hmem
    · -- a byte of a line that goes on
      cases hlines : lines text with
      | nil => simp [hlines] at h
      | cons first rest =>
        rw [hlines] at h ih
        cases rest with
        | nil => simp at h
        | cons second rest =>
          rw [List.dropLast_cons_cons] at h ih
          rcases List.mem_cons.mp h with rfl | hmem
          · exact List.mem_cons_of_mem _ (ih List.mem_cons_self)
          · exact ih (List.mem_cons_of_mem _ hmem)

@[simp] theorem lines_eq_nil_iff {text : List UInt8} : lines text = [] ↔ text = [] := by
  constructor
  · intro h
    rw [← flatten_lines text, h]
    rfl
  · rintro rfl
    rfl

/-! ### Streams -/

/-- A stream open for reading: the bytes of its buffer that have not been taken, the
offset behind the last byte it has read, and its end-of-file indicator. -/
structure File where
  buf : List UInt8
  behind : ℕ
  eof : Bool
  deriving DecidableEq, Repr

namespace File

/-- `fopen(filename, "r")`. -/
def opened : File := ⟨[], 0, false⟩

/-- The position that the process has reached. -/
def tell (file : File) : ℕ := file.behind - file.buf.length

/-- What the process has not taken yet, if it reads on where it stopped. -/
def rest (text : List UInt8) (file : File) : List UInt8 := file.buf ++ text.drop file.behind

end File

/-- What `getline` returns (`none` for -1), and the stream and the offset after it. -/
structure Got where
  line : Option (List UInt8)
  file : File
  off : ℕ
  deriving DecidableEq, Repr

variable (text : List UInt8) (block : ℕ)

/-- The loop of `getline`, which holds `acc` of the line so far. -/
def getlineLoop : ℕ → List UInt8 → File → ℕ → Got
  | 0, _, file, off => ⟨none, file, off⟩
  | fuel + 1, acc, file, off =>
    if newline ∈ file.buf then
      ⟨some (acc ++ (firstLine file.buf).1), { file with buf := (firstLine file.buf).2 }, off⟩
    else if file.eof ∨ text.length ≤ off then
      -- the end of the file ends a line only if there is something before it
      ⟨if acc ++ file.buf = [] then none else some (acc ++ file.buf),
        { file with buf := [], eof := true }, off⟩
    else
      let got := (text.drop off).take block
      getlineLoop fuel (acc ++ file.buf) ⟨got, off + got.length, false⟩ (off + got.length)

/-- `getline`.  Every block but the last takes the offset at least one byte further. -/
def getline (file : File) (off : ℕ) : Got := getlineLoop text block (text.length + 1) [] file off

/-- The offset is not ahead of the stream, and a stream that has seen the end of the
file is there. -/
structure File.Behind (file : File) (off : ℕ) : Prop where
  off_le : off ≤ file.behind
  behind_le : file.behind ≤ text.length
  length_le : file.buf.length ≤ file.behind
  of_eof : file.eof = true → file.buf = [] ∧ file.behind = text.length

/-- `getline` will not find the offset moved: it has a whole line in the buffer, knows
that the file is at its end, or reads on where it stopped. -/
def File.Ready (file : File) (off : ℕ) : Prop :=
  newline ∈ file.buf ∨ file.eof = true ∨ off = file.behind

instance (file : File) (off : ℕ) : Decidable (file.Ready off) :=
  inferInstanceAs (Decidable (_ ∨ _ ∨ _))

variable {text} {block} {file : File} {acc : List UInt8} {fuel off : ℕ}

theorem File.length_rest (text : List UInt8) (file : File) :
    (file.rest text).length = file.buf.length + (text.length - file.behind) := by
  rw [rest, List.length_append, List.length_drop]

theorem File.Behind.tell_eq (h : file.Behind text off) :
    file.tell = text.length - (file.rest text).length := by
  have hle := h.behind_le
  have hlen := h.length_le
  rw [length_rest, tell]
  omega

theorem File.behind_opened : File.opened.Behind text 0 :=
  ⟨le_rfl, Nat.zero_le _, le_rfl, fun h => absurd h Bool.false_ne_true⟩

/-- A stream may be closed by a process that took it over: the offset goes to where
that process was. -/
theorem File.Behind.of_tell (h : file.Behind text off) : file.Behind text file.tell :=
  ⟨Nat.sub_le _ _, h.behind_le, h.length_le, h.of_eof⟩

/-! ### The three ways through the loop -/

theorem getlineLoop_of_mem (h : newline ∈ file.buf) :
    getlineLoop text block (fuel + 1) acc file off =
      ⟨some (acc ++ (firstLine file.buf).1), { file with buf := (firstLine file.buf).2 }, off⟩ :=
  if_pos h

theorem getlineLoop_of_end (h : newline ∉ file.buf) (hend : file.eof = true ∨ text.length ≤ off) :
    getlineLoop text block (fuel + 1) acc file off =
      ⟨if acc ++ file.buf = [] then none else some (acc ++ file.buf),
        { file with buf := [], eof := true }, off⟩ :=
  (if_neg h).trans (if_pos hend)

/-- The stream after the next block has been read at `off`. -/
def File.filled (text : List UInt8) (block off : ℕ) : File :=
  ⟨(text.drop off).take block, off + ((text.drop off).take block).length, false⟩

theorem getlineLoop_of_fill (h : newline ∉ file.buf)
    (hend : ¬(file.eof = true ∨ text.length ≤ off)) :
    getlineLoop text block (fuel + 1) acc file off =
      getlineLoop text block fuel (acc ++ file.buf) (File.filled text block off)
        (File.filled text block off).behind :=
  (if_neg h).trans (if_neg hend)

theorem File.behind_filled (hoff : off ≤ text.length) :
    (File.filled text block off).Behind text (File.filled text block off).behind := by
  refine ⟨le_rfl, ?_, Nat.le_add_left _ _, fun h => absurd h Bool.false_ne_true⟩
  simp only [filled, List.length_take, List.length_drop]
  omega

theorem File.rest_filled (off : ℕ) : (File.filled text block off).rest text = text.drop off := by
  have hlen : ((text.drop off).take block).length = min block (text.drop off).length :=
    List.length_take
  rw [rest, filled, hlen, ← List.drop_drop]
  rcases le_total block (text.drop off).length with h | h
  · rw [min_eq_left h, List.take_append_drop]
  · rw [min_eq_right h, List.take_of_length_le h, List.drop_length, List.append_nil]

theorem File.lt_behind_filled (hblock : 0 < block) (hoff : off < text.length) :
    off < (File.filled text block off).behind := by
  simp only [filled, List.length_take, List.length_drop]
  omega

/-! ### No byte is skipped -/

/-- What the loop returns and leaves is at least what it had and what was to come. -/
theorem getlineLoop_length (fuel : ℕ) (acc : List UInt8) (hblock : 0 < block)
    (h : file.Behind text off) (hfuel : text.length < fuel + off) :
    (getlineLoop text block fuel acc file off).file.Behind text
        (getlineLoop text block fuel acc file off).off ∧
      acc.length + (file.rest text).length ≤
        ((getlineLoop text block fuel acc file off).line.getD []).length +
          ((getlineLoop text block fuel acc file off).file.rest text).length := by
  induction fuel generalizing acc file off with
  | zero =>
    have hoff := h.off_le
    have hle := h.behind_le
    omega
  | succ fuel ih =>
    -- the rest of a line in the buffer, the end of the file, or another block
    by_cases hmem : newline ∈ file.buf
    · rw [getlineLoop_of_mem hmem]
      have hsplit := firstLine_length file.buf
      have hlen := h.length_le
      refine ⟨⟨h.off_le, h.behind_le, ?_, fun heof => ?_⟩, ?_⟩
      · show (firstLine file.buf).2.length ≤ file.behind
        omega
      · rw [(h.of_eof heof).1] at hmem
        exact absurd hmem List.not_mem_nil
      · simp only [File.rest, Option.getD_some, List.length_append]
        omega
    · -- what is left of a last line without a newline
      by_cases hend : file.eof = true ∨ text.length ≤ off
      · rw [getlineLoop_of_end hmem hend]
        have hbehind : file.behind = text.length := by
          rcases hend with heof | hoff
          · exact (h.of_eof heof).2
          · exact le_antisymm h.behind_le (hoff.trans h.off_le)
        refine ⟨⟨h.off_le, h.behind_le, Nat.zero_le _, fun _ => ⟨rfl, hbehind⟩⟩, ?_⟩
        split
        · rename_i hnil
          rw [List.append_eq_nil_iff] at hnil
          simp [File.rest, hnil]
        · simp [File.rest, hbehind]
      · rw [getlineLoop_of_fill hmem hend]
        have hoff : off < text.length := by
          by_contra hge
          exact hend (Or.inr (not_lt.mp hge))
        have hlt := File.lt_behind_filled hblock hoff
        have hbehind : (File.filled text block off).Behind text
            (File.filled text block off).behind := File.behind_filled hoff.le
        have hnext := ih (acc ++ file.buf) hbehind (by omega)
        refine ⟨hnext.1, ?_⟩
        have hlen := hnext.2
        rw [File.rest_filled, List.length_append, List.length_drop] at hlen
        have hle := h.off_le
        rw [File.length_rest]
        omega

theorem getline_length (hblock : 0 < block) (h : file.Behind text off) :
    (getline text block file off).file.Behind text (getline text block file off).off ∧
      (file.rest text).length ≤ ((getline text block file off).line.getD []).length +
        ((getline text block file off).file.rest text).length := by
  have hlen := getlineLoop_length (text.length + 1) [] hblock h (by omega)
  rwa [List.length_nil, Nat.zero_add] at hlen

/-- A block that is read from an offset moved back repeats bytes. -/
theorem getline_length_lt (hblock : 0 < block) (h : file.Behind text off)
    (hready : ¬file.Ready off) :
    (file.rest text).length < ((getline text block file off).line.getD []).length +
      ((getline text block file off).file.rest text).length := by
  obtain ⟨hmem, hready⟩ := not_or.mp hready
  obtain ⟨heof, hne⟩ := not_or.mp hready
  have hlt : off < file.behind := lt_of_le_of_ne h.off_le hne
  have hoff : off < text.length := hlt.trans_le h.behind_le
  have hend : ¬(file.eof = true ∨ text.length ≤ off) :=
    not_or.mpr ⟨heof, not_le.mpr hoff⟩
  have hfill : (File.filled text block off).Behind text (File.filled text block off).behind :=
    File.behind_filled hoff.le
  have hlt' := File.lt_behind_filled hblock hoff
  rw [getline, getlineLoop_of_fill hmem hend]
  have hlen := (getlineLoop_length text.length ([] ++ file.buf) hblock hfill
    (by omega)).2
  rw [File.rest_filled, List.nil_append, List.length_drop] at hlen
  rw [List.nil_append, File.length_rest]
  omega

/-- At the end of the file nothing is to come. -/
theorem getlineLoop_rest_of_none (hblock : 0 < block) (h : file.Behind text off)
    (hfuel : text.length < fuel + off)
    (hnone : (getlineLoop text block fuel acc file off).line = none) :
    (getlineLoop text block fuel acc file off).file.rest text = [] := by
  induction fuel generalizing acc file off with
  | zero =>
    have hoff := h.off_le
    have hle := h.behind_le
    omega
  | succ fuel ih =>
    -- a line is returned as soon as there is one
    by_cases hmem : newline ∈ file.buf
    · rw [getlineLoop_of_mem hmem] at hnone
      exact absurd hnone (Option.some_ne_none _)
    · by_cases hend : file.eof = true ∨ text.length ≤ off
      · rw [getlineLoop_of_end hmem hend]
        have hbehind : text.length ≤ file.behind := by
          rcases hend with heof | hoff
          · exact (h.of_eof heof).2.ge
          · exact hoff.trans h.off_le
        exact List.drop_eq_nil_of_le hbehind
      · rw [getlineLoop_of_fill hmem hend] at hnone ⊢
        have hlt := not_le.mp (not_or.mp hend).2
        have hlt' := File.lt_behind_filled hblock hlt
        exact ih (File.behind_filled hlt.le) (by omega) hnone

theorem getline_rest_of_none (hblock : 0 < block) (h : file.Behind text off)
    (hnone : (getline text block file off).line = none) :
    (getline text block file off).file.rest text = [] :=
  getlineLoop_rest_of_none hblock h (by omega) hnone

/-! ### A line from the right place -/

theorem getlineLoop_of_eq (fuel : ℕ) (acc : List UInt8) (hblock : 0 < block)
    (h : file.Behind text off) (hoff : off = file.behind) (hfuel : text.length < fuel + off) :
    (getlineLoop text block fuel acc file off).line =
        (if acc ++ file.rest text = [] then none
          else some (acc ++ (firstLine (file.rest text)).1)) ∧
      (getlineLoop text block fuel acc file off).file.rest text =
        (firstLine (file.rest text)).2 ∧
      (getlineLoop text block fuel acc file off).off =
        (getlineLoop text block fuel acc file off).file.behind := by
  induction fuel generalizing acc file off with
  | zero =>
    have hle := h.behind_le
    have := h.off_le
    omega
  | succ fuel ih =>
    by_cases hmem : newline ∈ file.buf
    · rw [getlineLoop_of_mem hmem]
      have hne : file.rest text ≠ [] := List.append_ne_nil_of_left_ne_nil
        (List.ne_nil_of_mem hmem) _
      rw [if_neg fun hnil => hne (List.append_eq_nil_iff.mp hnil).2, File.rest,
        firstLine_append_of_mem hmem]
      exact ⟨rfl, rfl, hoff⟩
    · by_cases hend : file.eof = true ∨ text.length ≤ off
      · rw [getlineLoop_of_end hmem hend]
        have hbehind : text.length ≤ file.behind := by
          rcases hend with heof | hle
          · exact (h.of_eof heof).2.ge
          · exact hle.trans h.off_le
        -- nothing but the buffer is left
        have hrest : file.rest text = file.buf := by
          rw [File.rest, List.drop_eq_nil_of_le hbehind, List.append_nil]
        rw [hrest, firstLine_of_notMem hmem]
        exact ⟨rfl, by rw [File.rest, List.drop_eq_nil_of_le hbehind]; rfl, hoff⟩
      · rw [getlineLoop_of_fill hmem hend]
        have hlt : off < text.length := by
          by_contra hge
          exact hend (Or.inr (not_lt.mp hge))
        have hfill : (File.filled text block off).Behind text
            (File.filled text block off).behind := File.behind_filled hlt.le
        have hlt' := File.lt_behind_filled hblock hlt
        have hnext := ih (acc ++ file.buf) hfill rfl (by omega)
        -- the next block comes behind what the buffer holds
        have hrest : file.rest text = file.buf ++ text.drop off := by rw [File.rest, hoff]
        rw [File.rest_filled] at hnext
        rw [hrest, firstLine_append_of_notMem hmem, ← List.append_assoc, ← List.append_assoc]
        exact hnext

/-- **The next line**, from a stream that finds the offset in place. -/
theorem getline_of_ready (hblock : 0 < block) (h : file.Behind text off)
    (hready : file.Ready off) :
    (getline text block file off).line =
        (if file.rest text = [] then none else some (firstLine (file.rest text)).1) ∧
      (getline text block file off).file.rest text = (firstLine (file.rest text)).2 := by
  by_cases hmem : newline ∈ file.buf
  · have hne : file.rest text ≠ [] := List.append_ne_nil_of_left_ne_nil
      (List.ne_nil_of_mem hmem) _
    rw [getline, getlineLoop_of_mem hmem, if_neg hne, File.rest, firstLine_append_of_mem hmem]
    exact ⟨rfl, rfl⟩
  · rcases hready.resolve_left hmem with heof | hoff
    · obtain ⟨hbuf, hbehind⟩ := h.of_eof heof
      have hrest : file.rest text = [] := by
        rw [File.rest, hbuf, hbehind, List.drop_length, List.append_nil]
      rw [getline, getlineLoop_of_end hmem (Or.inl heof), hrest, hbuf]
      refine ⟨rfl, ?_⟩
      rw [File.rest, hbehind, List.drop_length]
      rfl
    · have hnext := getlineLoop_of_eq (text.length + 1) [] hblock h hoff
        (by omega)
      exact ⟨hnext.1, hnext.2.1⟩

/-- With a whole line in the buffer nothing is read. -/
theorem getline_off_of_mem (hmem : newline ∈ file.buf) :
    (getline text block file off).off = off ∧
      (getline text block file off).file.behind = file.behind ∧
      (getline text block file off).file.eof = file.eof := by
  rw [getline, getlineLoop_of_mem hmem]
  exact ⟨rfl, rfl, rfl⟩

/-- After a read the offset is where the stream has stopped. -/
theorem getline_off_of_eq (hblock : 0 < block) (h : file.Behind text off)
    (hoff : off = file.behind) :
    (getline text block file off).off = (getline text block file off).file.behind :=
  (getlineLoop_of_eq _ _ hblock h hoff (by omega)).2.2

/-- The buffer holds a whole line iff the first of the lines to come lies in it. -/
theorem newline_mem_buf_iff (h : file.Behind text off) :
    newline ∈ file.buf ↔ newline ∈ (firstLine (file.rest text)).1 ∧
      file.tell + (firstLine (file.rest text)).1.length ≤ file.behind := by
  have hlen := h.length_le
  constructor
  · intro hmem
    have hsplit := firstLine_length file.buf
    rw [File.rest, firstLine_append_of_mem hmem]
    refine ⟨newline_mem_firstLine.mpr hmem, ?_⟩
    simp only [File.tell]
    omega
  · rintro ⟨hmem, hle⟩
    by_contra hbuf
    rw [File.rest, firstLine_append_of_notMem hbuf, List.mem_append] at hmem
    rw [File.rest, firstLine_append_of_notMem hbuf, List.length_append, File.tell] at hle
    have hpos := List.length_pos_of_mem (hmem.resolve_left hbuf)
    omega

/-! ### Blocks -/

/-- Where the block ends that holds the byte before `pos`, in a file of `size` bytes. -/
def blockEnd (size block pos : ℕ) : ℕ := min size ((pos + block - 1) / block * block)

theorem le_blockEnd {size pos : ℕ} (hblock : 0 < block) (hpos : pos ≤ size) :
    pos ≤ blockEnd size block pos := by
  refine le_min hpos ?_
  have hdiv := Nat.div_add_mod (pos + block - 1) block
  have hmod := Nat.mod_lt (pos + block - 1) hblock
  rw [Nat.mul_comm] at hdiv
  omega

theorem blockEnd_zero {size : ℕ} (hblock : 0 < block) : blockEnd size block 0 = 0 := by
  rw [blockEnd, Nat.zero_add, Nat.div_eq_of_lt (Nat.sub_lt hblock Nat.one_pos), Nat.zero_mul,
    Nat.min_zero]

/-- The bytes of one block have the same end. -/
theorem blockEnd_of_le {size pos p : ℕ} (hblock : 0 < block) (hle : pos ≤ p)
    (hp : p ≤ blockEnd size block pos) : blockEnd size block p = blockEnd size block pos := by
  have hupper : p ≤ (pos + block - 1) / block * block := hp.trans (min_le_right _ _)
  have hk : (p + block - 1) / block = (pos + block - 1) / block := by
    refine le_antisymm ?_ (Nat.div_le_div_right (by omega))
    refine Nat.lt_succ_iff.mp ((Nat.div_lt_iff_lt_mul hblock).mpr ?_)
    rw [Nat.succ_mul]
    omega
  rw [blockEnd, blockEnd, hk]

theorem blockEnd_blockEnd {size pos : ℕ} (hblock : 0 < block) (hpos : pos ≤ size) :
    blockEnd size block (blockEnd size block pos) = blockEnd size block pos :=
  blockEnd_of_le hblock (le_blockEnd hblock hpos) le_rfl

/-- The block after one that ends before the file does. -/
theorem blockEnd_next {size p q : ℕ} (hblock : 0 < block) (hq : blockEnd size block q = q)
    (hlt : q < size) (hp : q < p) (hle : p ≤ min size (q + block)) :
    blockEnd size block p = min size (q + block) := by
  obtain ⟨k, hk⟩ : ∃ k, q = k * block := by
    refine ⟨(q + block - 1) / block, ?_⟩
    rw [blockEnd] at hq
    omega
  have hdiv : (p + block - 1) / block = k + 1 := by
    refine Nat.div_eq_of_lt_le ?_ ?_
    · rw [Nat.succ_mul]
      omega
    · rw [Nat.succ_mul, Nat.succ_mul]
      omega
  rw [blockEnd, hdiv, Nat.succ_mul, hk]

/-- What the buffer holds lies in one block of the file. -/
def File.Aligned (text : List UInt8) (block : ℕ) (file : File) : Prop :=
  blockEnd text.length block file.behind = file.behind ∧
    ∀ p, file.tell < p → p ≤ file.behind → blockEnd text.length block p = file.behind

theorem File.aligned_of_tell (hblock : 0 < block) (h : file.Behind text off)
    (htell : blockEnd text.length block file.tell = file.behind) : file.Aligned text block := by
  refine ⟨?_, fun p hp hle => ?_⟩
  · rw [← htell]
    exact blockEnd_blockEnd hblock ((Nat.sub_le _ _).trans h.behind_le)
  · rw [← htell]
    exact blockEnd_of_le hblock hp.le (htell ▸ hle)

theorem File.aligned_filled (hblock : 0 < block)
    (hoff : blockEnd text.length block off = off) (hlt : off < text.length) :
    (File.filled text block off).Aligned text block := by
  have hbehind : (File.filled text block off).behind = min text.length (off + block) := by
    simp only [filled, List.length_take, List.length_drop]
    omega
  have htell : (File.filled text block off).tell = off := Nat.add_sub_cancel _ _
  refine ⟨?_, fun p hp hle => ?_⟩
  · rw [hbehind]
    exact blockEnd_next hblock hoff hlt (by omega) le_rfl
  · rw [hbehind] at hle ⊢
    exact blockEnd_next hblock hoff hlt (htell ▸ hp) hle

theorem File.tell_take (h : file.Behind text off) (hmem : newline ∈ file.buf) :
    file.tell < { file with buf := (firstLine file.buf).2 : File }.tell ∧
      { file with buf := (firstLine file.buf).2 : File }.tell ≤ file.behind := by
  have hlen := h.length_le
  have hsplit := firstLine_length file.buf
  have hpos := List.length_pos_iff.mpr (firstLine_ne_nil (List.ne_nil_of_mem hmem))
  simp only [tell]
  omega

theorem getlineLoop_aligned (hblock : 0 < block) (h : file.Behind text off)
    (hready : newline ∈ file.buf ∨ file.eof = true ∨ off = file.behind)
    (halign : file.Aligned text block) (hfuel : text.length < fuel + off) :
    blockEnd text.length block (getlineLoop text block fuel acc file off).file.tell =
      (getlineLoop text block fuel acc file off).file.behind := by
  induction fuel generalizing acc file off with
  | zero =>
    have hoff := h.off_le
    have hle := h.behind_le
    omega
  | succ fuel ih =>
    -- a whole line is taken, and what is behind it stays in the buffer
    by_cases hmem : newline ∈ file.buf
    · rw [getlineLoop_of_mem hmem]
      obtain ⟨hlt, hle⟩ := File.tell_take h hmem
      exact halign.2 _ hlt hle
    · by_cases hend : file.eof = true ∨ text.length ≤ off
      · rw [getlineLoop_of_end hmem hend]
        exact halign.1
      · rw [getlineLoop_of_fill hmem hend]
        -- the block is read from where the last one ended
        obtain ⟨heof, hlt⟩ := not_or.mp hend
        have hoff : off = file.behind := (hready.resolve_left hmem).resolve_left heof
        have hlt' := File.lt_behind_filled hblock (not_le.mp hlt)
        refine ih (File.behind_filled (not_le.mp hlt).le) (Or.inr (Or.inr rfl)) ?_ (by omega)
        exact File.aligned_filled hblock (hoff ▸ halign.1) (not_le.mp hlt)

/-- A stream that finds the offset in place stays in step with the blocks of the file. -/
theorem getline_tell (hblock : 0 < block) (h : file.Behind text off) (hready : file.Ready off)
    (htell : blockEnd text.length block file.tell = file.behind) :
    blockEnd text.length block (getline text block file off).file.tell =
      (getline text block file off).file.behind :=
  getlineLoop_aligned hblock h hready (File.aligned_of_tell hblock h htell) (by omega)

end Stdio
end OpSys
