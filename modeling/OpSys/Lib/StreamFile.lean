import Mathlib.Order.Nat
import OpSys.Lib.Records

/-!
# A file under a stream

An output stream need not pass a write on to its file at once.  What it holds back is
written when the stream is positioned or closed, and that write may fail long after the
one that asked for it has returned.

## Main definitions

* `StreamFile` — the file, and the bytes that are held back with their place.
* `StreamFile.seen` — the file as a reader of the stream sees it.
* `StreamFile.fwrite` — a write of which only the first bytes are passed on.
* `StreamFile.flushed`, `StreamFile.stuck` — what is held is written, or cannot be.

## Main results

* `put_put` — a write in two parts.
* `seen_fwrite` — a reader sees all of a write at once.
* `file_fwrite_flatten` — the record that is in the file meanwhile.
-/

namespace OpSys
namespace Records

/-- The file after a write of `data`, which need not be any bytes at all. -/
def put (file : List UInt8) (start : ℕ) (data : List UInt8) : List UInt8 :=
  if data = [] then file else writeAt file start data

/-- A file, and what a stream over it has taken and not passed on. -/
structure StreamFile where
  file : List UInt8
  heldAt : ℕ
  held : List UInt8
  deriving DecidableEq, Repr

namespace StreamFile

/-- A file whose stream holds nothing. -/
def of (file : List UInt8) : StreamFile := ⟨file, 0, []⟩

/-- The file as a reader of the stream sees it. -/
def seen (f : StreamFile) : List UInt8 := put f.file f.heldAt f.held

/-- What is held is written. -/
def flushed (f : StreamFile) : StreamFile := of f.seen

/-- What is held cannot be written: the stream drops it, unless it `retries` later. -/
def stuck (retries : Bool) (f : StreamFile) : StreamFile := if retries then f else of f.file

/-- A write to a stream that holds nothing; the first `passes` bytes reach the file. -/
def fwrite (passes start : ℕ) (data : List UInt8) (f : StreamFile) : StreamFile :=
  ⟨put f.file start (data.take passes), start + passes, data.drop passes⟩

end StreamFile

variable {file data r : List UInt8} {start k size j : ℕ} {rs : List (List UInt8)}

@[simp] theorem put_nil (file : List UInt8) (start : ℕ) : put file start [] = file := rfl

theorem put_of_ne_nil (h : data ≠ []) : put file start data = writeAt file start data := if_neg h

/-- Up to the end of the file, a write of nothing needs no case of its own. -/
theorem put_eq_writeAt (h : start ≤ file.length) (data : List UInt8) :
    put file start data = writeAt file start data := by
  by_cases hdata : data = []
  · rw [hdata, put_nil, writeAt, Nat.sub_eq_zero_of_le h, List.replicate_zero, List.append_nil,
      List.append_nil, List.length_nil, Nat.add_zero, List.take_append_drop]
  · exact put_of_ne_nil hdata

theorem writeAt_writeAt (file : List UInt8) (start : ℕ) (data more : List UInt8) :
    writeAt (writeAt file start data) (start + data.length) more =
      writeAt file start (data ++ more) := by
  -- the bytes in front of the second write, as many as its offset says
  have hlen : (file.take start ++ List.replicate (start - file.length) 0 ++ data).length =
      start + data.length := by
    simp only [List.length_append, List.length_take, List.length_replicate]
    omega
  have hsplit := writeAt_append_right
    (file.take start ++ List.replicate (start - file.length) 0 ++ data)
    (file.drop (start + data.length)) 0 more
  rw [Nat.add_zero, hlen] at hsplit
  have hrest : writeAt (file.drop (start + data.length)) 0 more =
      more ++ file.drop (start + (data ++ more).length) := by
    rw [writeAt, Nat.zero_add, Nat.zero_sub, List.take_zero, List.replicate_zero,
      List.nil_append, List.nil_append, List.drop_drop, List.length_append, Nat.add_assoc]
  have hfirst : writeAt file start data = file.take start ++
      List.replicate (start - file.length) 0 ++ data ++ file.drop (start + data.length) := rfl
  rw [hfirst, hsplit, hrest, writeAt]
  simp only [List.append_assoc]

/-- **A write in two parts.** -/
theorem put_put (file : List UInt8) (start k : ℕ) (data : List UInt8) :
    put (put file start (data.take k)) (start + k) (data.drop k) = put file start data := by
  by_cases hdrop : data.drop k = []
  · rw [hdrop, put_nil, List.take_of_length_le (List.drop_eq_nil_iff.mp hdrop)]
  have hk : k < data.length := by
    have := mt List.drop_eq_nil_iff.mpr hdrop
    omega
  have hdata : data ≠ [] := by
    rintro rfl
    exact absurd hk (Nat.not_lt_zero k)
  rw [put_of_ne_nil hdrop, put_of_ne_nil hdata]
  by_cases htake : data.take k = []
  · have hzero : k = 0 := (List.take_eq_nil_iff.mp htake).resolve_right hdata
    rw [htake, put_nil, hzero, Nat.add_zero, List.drop_zero]
  · have hlen : (data.take k).length = k := List.length_take_of_le hk.le
    have hparts := writeAt_writeAt file start (data.take k) (data.drop k)
    rwa [hlen, List.take_append_drop, ← put_of_ne_nil htake] at hparts

namespace StreamFile

@[simp] theorem seen_of (file : List UInt8) : (of file).seen = file := rfl

@[simp] theorem held_of (file : List UInt8) : (of file).held = [] := rfl

@[simp] theorem seen_flushed (f : StreamFile) : f.flushed.seen = f.seen := rfl

@[simp] theorem file_flushed (f : StreamFile) : f.flushed.file = f.seen := rfl

theorem seen_of_held_eq_nil {f : StreamFile} (h : f.held = []) : f.seen = f.file := by
  rw [seen, h, put_nil]

theorem seen_stuck (retries : Bool) (f : StreamFile) :
    (f.stuck retries).seen = if retries then f.seen else f.file := by
  cases retries <;> rfl

/-- A reader sees all of a write at once. -/
@[simp] theorem seen_fwrite (f : StreamFile) (k start : ℕ) (data : List UInt8) :
    (f.fwrite k start data).seen = put f.file start data := put_put f.file start k data

@[simp] theorem held_fwrite (f : StreamFile) (k start : ℕ) (data : List UInt8) :
    (f.fwrite k start data).held = data.drop k := rfl

theorem start_le_length (h : ∀ r ∈ rs, r.length = size) (hj : j < rs.length)
    (rest : List UInt8) : j * size ≤ (rs.flatten ++ rest).length := by
  have hmul := Nat.mul_le_mul_right size hj.le
  rw [List.length_append, length_flatten_of_forall h]
  omega

/-- What a reader sees after a write over a record. -/
theorem seen_fwrite_flatten (h : ∀ r ∈ rs, r.length = size) (hj : j < rs.length)
    (hdata : data.length = size) (k : ℕ) (rest : List UInt8) :
    ((of (rs.flatten ++ rest)).fwrite k (j * size) data).seen =
      (rs.set j data).flatten ++ rest := by
  rw [seen_fwrite]
  show put (rs.flatten ++ rest) (j * size) data = _
  rw [put_eq_writeAt (start_le_length h hj rest), writeAt_flatten h hdata hj]

/-- What is in the file meanwhile: the bytes that were passed on, and the rest of the
record as it was. -/
theorem file_fwrite_flatten (h : ∀ r ∈ rs, r.length = size) (hr : rs[j]? = some r)
    (hdata : data.length = size) (rest : List UInt8) :
    ((of (rs.flatten ++ rest)).fwrite k (j * size) data).file =
      (rs.set j (data.take k ++ r.drop k)).flatten ++ rest := by
  have hj := (List.getElem?_eq_some_iff.mp hr).1
  show put (rs.flatten ++ rest) (j * size) (data.take k) = _
  rw [put_eq_writeAt (start_le_length h hj rest),
    writeAt_flatten_of_le h hr (by rw [List.length_take]; omega)]
  -- past the end of the record, `k` counts for its length
  rcases Nat.le_total k size with hk | hk
  · rw [List.length_take_of_le (hk.trans hdata.ge)]
  · have hr' := h r (List.mem_of_getElem? hr)
    rw [List.take_of_length_le (hdata.le.trans hk), List.drop_eq_nil_of_le (hr'.le.trans hk),
      List.drop_eq_nil_of_le (hr'.trans hdata.symm).le]

end StreamFile

end Records
end OpSys
