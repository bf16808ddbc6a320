import Mathlib.Data.List.Basic
import Mathlib.Data.Nat.Find
import OpSys.Lib.Stdio

/-!
# Strings in memory

A string that a program edits in place is the memory from its first byte on, with
a NUL somewhere.  What stands after the first NUL is arbitrary, and reading it is
not an error of its own.

## Main definitions

* `isspace` — the whitespace bytes of the C locale.
* `StrMem`, `StrMem.len`, `StrMem.text` — a string in memory, `strlen`, its bytes.
* `StrMem.cut`, `StrMem.moveDown` — a NUL stored into it, and `memmove` to its start.
* `strncpy` — a bounded copy into a buffer; `none` when it leaves the buffer.

## Main results

* `StrMem.text_eq` — the bytes before the first NUL are the string.
* `StrMem.text_moveDown_cut` — cutting and moving down leaves the part between.
* `set_rightpad` — a store at the end of the filled part of an array.
-/

namespace OpSys
namespace Stdio

/-- `isspace` in the C locale. -/
def isspace (b : UInt8) : Bool := b = 32 ∨ 9 ≤ b ∧ b ≤ 13

/-- The memory from the first byte of a string on. -/
structure StrMem where
  byte : ℕ → UInt8
  ends : ∃ i, byte i = nul

namespace StrMem

/-- `strlen`. -/
def len (m : StrMem) : ℕ := Nat.find m.ends

/-- The bytes of the string. -/
def text (m : StrMem) : List UInt8 := (List.range m.len).map m.byte

/-- A string, a NUL after it and whatever follows. -/
def holding (text : List UInt8) (after : ℕ → UInt8) : StrMem where
  byte i := (text ++ [nul]).getD i (after i)
  ends := ⟨text.length, by simp [List.getD]⟩

/-- `str[n] = '\0'`. -/
def cut (m : StrMem) (n : ℕ) : StrMem where
  byte := Function.update m.byte n nul
  ends := ⟨n, Function.update_self ..⟩

/-- `memmove(str, str + k, strlen(str))`. -/
def moveDown (m : StrMem) (k : ℕ) : StrMem where
  byte i := if i < m.len then m.byte (i + k) else m.byte i
  ends := ⟨m.len, by
    rw [if_neg (lt_irrefl _)]
    exact Nat.find_spec m.ends⟩

@[simp] theorem byte_cut_self (m : StrMem) (n : ℕ) : (m.cut n).byte n = nul :=
  Function.update_self ..

theorem byte_cut_of_ne (m : StrMem) {n i : ℕ} (h : i ≠ n) : (m.cut n).byte i = m.byte i :=
  Function.update_of_ne h ..

@[simp] theorem length_text (m : StrMem) : m.text.length = m.len := by simp [text]

theorem getElem_text (m : StrMem) {i : ℕ} (h : i < m.text.length) : m.text[i] = m.byte i := by
  simp [text]

theorem byte_of_text {m : StrMem} {l : List UInt8} (h : m.text = l) {i : ℕ} (hi : i < l.length) :
    m.byte i = l[i] := by
  subst h
  exact (m.getElem_text hi).symm

theorem nul_notMem_text (m : StrMem) : nul ∉ m.text := by
  intro h
  obtain ⟨i, hi, hb⟩ := List.mem_map.mp h
  exact Nat.find_min m.ends (List.mem_range.mp hi) hb

/-- The bytes before the first NUL are the string. -/
theorem text_eq {m : StrMem} {l : List UInt8} (hnul : nul ∉ l)
    (hbyte : ∀ i (h : i < l.length), m.byte i = l[i]) (hend : m.byte l.length = nul) :
    m.text = l := by
  have hlen : m.len = l.length := by
    refine (Nat.find_eq_iff m.ends).mpr ⟨hend, fun i hi hb => hnul ?_⟩
    rw [← hb, hbyte i hi]
    exact List.getElem_mem hi
  refine List.ext_getElem (by rw [length_text, hlen]) fun i h h' => ?_
  rw [getElem_text, hbyte i h']

theorem text_holding {text : List UInt8} (after : ℕ → UInt8) (hnul : nul ∉ text) :
    (holding text after).text = text := by
  refine text_eq hnul (fun i h => ?_) ?_
  · simp [holding, List.getD, List.getElem?_append_left h, List.getElem?_eq_getElem h]
  · simp [holding, List.getD]

/-- With a NUL stored after the part `a`, the string is `a`. -/
theorem text_cut {m : StrMem} {a c : List UInt8} (h : m.text = a ++ c) :
    (m.cut a.length).text = a := by
  have hnul : nul ∉ a ++ c := h ▸ m.nul_notMem_text
  refine text_eq (fun hmem => hnul (List.mem_append_left _ hmem)) (fun i hi => ?_)
    (byte_cut_self _ _)
  rw [byte_cut_of_ne _ (Nat.ne_of_lt hi), byte_of_text h (by rw [List.length_append]; omega),
    List.getElem_append_left hi]

theorem len_cut {m : StrMem} {a c : List UInt8} (h : m.text = a ++ c) :
    (m.cut a.length).len = a.length := by
  rw [← length_text, text_cut h]

/-- With a NUL after `a ++ b` and the rest moved down over `a`, the string is `b`. -/
theorem text_moveDown_cut {m : StrMem} {a b c : List UInt8} (h : m.text = a ++ (b ++ c)) :
    ((m.cut (a ++ b).length).moveDown a.length).text = b := by
  have hnul : nul ∉ a ++ (b ++ c) := h ▸ m.nul_notMem_text
  rw [← List.append_assoc] at h
  have hlen : (m.cut (a ++ b).length).len = (a ++ b).length := len_cut h
  have hab : (a ++ b).length = b.length + a.length := by
    rw [List.length_append]
    omega
  refine text_eq (fun hmem => hnul (by simp [hmem])) (fun i hi => ?_) ?_
  · have hi' : i + a.length < (a ++ b).length := by omega
    simp only [moveDown, hlen]
    rw [if_pos (by omega), byte_of_text (text_cut h) hi', List.getElem_append_right (by omega)]
    simp
  · simp only [moveDown, hlen]
    split
    · rw [← hab, byte_cut_self]
    · have hb : b.length = (a ++ b).length := by omega
      rw [hb, byte_cut_self]

end StrMem

/-- `strncpy(dst, src, n)` for a string that starts at `src`. -/
def strncpy (dst src : List UInt8) (n : ℕ) : Option (List UInt8) :=
  if n ≤ dst.length then
    some ((cString src).take n ++ List.replicate (n - (cString src).length) nul ++ dst.drop n)
  else none

theorem cString_append {text rest : List UInt8} (h : nul ∉ text) :
    cString (text ++ rest) = text ++ cString rest := by
  refine List.takeWhile_append_of_pos fun b hb => decide_eq_true ?_
  rintro rfl
  exact h hb

theorem cString_of_notMem {buf : List UInt8} (h : nul ∉ buf) : cString buf = buf := by
  have happ : cString (buf ++ []) = buf ++ cString [] := cString_append h
  simpa [cString] using happ

theorem cString_append_nul {text rest : List UInt8} (h : nul ∉ text) :
    cString (text ++ nul :: rest) = text := by
  rw [cString_append h]
  simp [cString]

theorem rightpad_eq_append_cons {α : Type*} {n : ℕ} {l : List α} (h : l.length < n) (a : α) :
    ∃ k, l.rightpad n a = l ++ a :: List.replicate k a := by
  obtain ⟨k, rfl⟩ : ∃ k, n = l.length + (k + 1) := ⟨n - l.length - 1, by omega⟩
  exact ⟨k, by rw [List.rightpad, Nat.add_sub_cancel_left, List.replicate_succ]⟩

/-- A store at the end of the filled part of an array. -/
theorem set_rightpad {α : Type*} {n : ℕ} {l : List α} (h : l.length < n) (a x : α) :
    (l.rightpad n a).set l.length x = (l ++ [x]).rightpad n a := by
  obtain ⟨k, rfl⟩ : ∃ k, n = l.length + (k + 1) := ⟨n - l.length - 1, by omega⟩
  have hk : l.length + (k + 1) - (l ++ [x]).length = k := by
    rw [List.length_append, List.length_singleton]
    omega
  rw [List.rightpad, List.rightpad, hk, Nat.add_sub_cancel_left, List.replicate_succ,
    List.set_append_right _ _ le_rfl, Nat.sub_self, List.set_cons_zero, List.append_assoc,
    List.singleton_append]

/-- The padding may start anywhere after the filled part. -/
theorem rightpad_append_singleton {α : Type*} {n : ℕ} {l : List α} (h : l.length < n) (a : α) :
    (l ++ [a]).rightpad n a = l.rightpad n a := by
  rw [← set_rightpad h a a]
  obtain ⟨k, hk⟩ := rightpad_eq_append_cons h a
  rw [hk, List.set_append_right _ _ le_rfl, Nat.sub_self, List.set_cons_zero]

theorem length_rightpad_of_le {α : Type*} {n : ℕ} {l : List α} (h : l.length ≤ n) (a : α) :
    (l.rightpad n a).length = n := by
  rw [List.rightpad, List.length_append, List.length_replicate]
  omega

theorem strncpy_of_le {dst src : List UInt8} {n : ℕ} (hnul : nul ∉ src) (hn : n ≤ src.length)
    (hdst : n ≤ dst.length) : strncpy dst src n = some (src.take n ++ dst.drop n) := by
  rw [strncpy, if_pos hdst, cString_of_notMem hnul, Nat.sub_eq_zero_of_le hn]
  simp

end Stdio
end OpSys
