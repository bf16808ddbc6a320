import OpSys.Lib.Decimal

/-!
# Messages

The messages of both message systems, the writes of `sprintf` and `fgets` into their
content, and what `handle_mirror` does to it.

## Main definitions

* `Message` — `struct Message`; the numbers of its types.
* `overwrite` — a string written over the front of a buffer.
* `mirrorContent`, `mirrored` — the swaps of `handle_mirror`, and what they are for.

## Main results

* `mirrorContent_eq` — the swaps mirror the string and nothing else.

## References

`lab5_message_queues/POSIX/common.h`, `lab5_message_queues/POSIX/server.c`,
`lab5_message_queues/SystemV/common.h`, `lab5_message_queues/SystemV/server.c`.
-/

namespace OpSys
namespace MsgQueue

open Stdio

/-- `MAX_CONT_SIZE`. -/
def maxContSize : ℕ := 2048

/-- `MAX_CLIENTS`. -/
def maxClients : ℤ := 5

/-- `struct Message`. -/
@[ext]
structure Message where
  type : ℤ
  senderPid : ℤ
  content : List UInt8
  deriving DecidableEq, Repr

/-- `REGISTER`. -/
def typeRegister : ℤ := 1

/-- `MIRROR`. -/
def typeMirror : ℤ := 2

/-- `TIME`. -/
def typeTime : ℤ := 3

/-- `END`. -/
def typeEnd : ℤ := 4

/-- `QUIT`. -/
def typeQuit : ℤ := 5

/-- A buffer after a string and its NUL have been written to its front. -/
def overwrite (text buf : List UInt8) : List UInt8 := text ++ nul :: buf.drop (text.length + 1)

theorem cString_overwrite {text : List UInt8} (h : nul ∉ text) (buf : List UInt8) :
    cString (overwrite text buf) = text :=
  cString_append_nul h

@[simp] theorem scanInt_overwrite (n : ℤ) (buf : List UInt8) :
    scanInt (overwrite (decimal n) buf) = .value n :=
  scanInt_decimal n _

/-! ### Mirroring -/

/-- `content[i]` and `content[j]` exchanged. -/
def swap (content : List UInt8) (i j : ℕ) : List UInt8 :=
  (content.set i (content.getD j nul)).set j (content.getD i nul)

/-- The first `n` iterations of the loop of `handle_mirror`. -/
def mirrorLoop (len : ℕ) (content : List UInt8) : ℕ → List UInt8
  | 0 => content
  | i + 1 => swap (mirrorLoop len content i) i (len - i - 1)

/-- `msgLen`.  Of an empty string the byte before the content is tested; whatever it
is, the loop is not entered. -/
def mirrorLen (content : List UInt8) : ℕ :=
  if strlen content ≠ 0 ∧ content.getD (strlen content - 1) nul = newline then strlen content - 1
  else strlen content

/-- What `handle_mirror` makes of the content. -/
def mirrorContent (content : List UInt8) : List UInt8 :=
  mirrorLoop (mirrorLen content) content (mirrorLen content / 2)

/-- The string backwards, but for a newline at its end. -/
def mirrored (text : List UInt8) : List UInt8 :=
  if text.getLast? = some newline then text.dropLast.reverse ++ [newline] else text.reverse

@[simp] theorem length_swap (content : List UInt8) (i j : ℕ) :
    (swap content i j).length = content.length := by
  simp [swap]

@[simp] theorem length_mirrorLoop (len : ℕ) (content : List UInt8) (n : ℕ) :
    (mirrorLoop len content n).length = content.length := by
  induction n with
  | zero => rfl
  | succ n ih => rw [mirrorLoop, length_swap, ih]

theorem getD_swap {content : List UInt8} {i j : ℕ} (hi : i < content.length)
    (hj : j < content.length) (k : ℕ) :
    (swap content i j).getD k nul =
      if k = j then content.getD i nul
      else if k = i then content.getD j nul else content.getD k nul := by
  unfold swap
  by_cases hkj : k = j
  · subst hkj
    simp [List.getD, hj]
  · by_cases hki : k = i
    · subst hki
      simp [List.getD, hkj, Ne.symm hkj, hi]
    · simp [List.getD, hkj, hki, Ne.symm hkj, Ne.symm hki]

/-- After `n` iterations the outer bytes have changed places. -/
theorem getD_mirrorLoop {len : ℕ} {content : List UInt8} (hlen : len ≤ content.length) {n : ℕ}
    (hn : n ≤ len / 2) (k : ℕ) :
    (mirrorLoop len content n).getD k nul =
      if k < n ∨ len - n ≤ k ∧ k < len then content.getD (len - 1 - k) nul
      else content.getD k nul := by
  induction n generalizing k with
  | zero =>
    rw [mirrorLoop, if_neg (by omega)]
  | succ n ih =>
    have hn' : n ≤ len / 2 := by omega
    -- one exchange, of `n` and `len - n - 1`, after those below `n`
    rw [mirrorLoop, getD_swap (by rw [length_mirrorLoop]; omega) (by rw [length_mirrorLoop]; omega)]
    by_cases hk : k = len - n - 1
    · rw [if_pos hk, ih hn', if_neg (by omega), if_pos (by omega)]
      congr 1
      omega
    · rw [if_neg hk]
      by_cases hkn : k = n
      · rw [if_pos hkn, ih hn', if_neg (by omega), if_pos (by omega)]
        congr 1
        omega
      · rw [if_neg hkn, ih hn']
        by_cases hout : k < n ∨ len - n ≤ k ∧ k < len
        · rw [if_pos hout, if_pos (by omega)]
        · rw [if_neg hout, if_neg (by omega)]

theorem mirrorLoop_eq (text rest : List UInt8) :
    mirrorLoop text.length (text ++ rest) (text.length / 2) = text.reverse ++ rest := by
  refine List.ext_getElem (by simp) fun k hk hk' => ?_
  have hget : ∀ (l : List UInt8) (h : k < l.length), l[k] = l.getD k nul := by
    intro l h
    rw [List.getD, List.getElem?_eq_getElem h, Option.getD_some]
  rw [hget _ hk, hget _ hk', getD_mirrorLoop (by simp) le_rfl]
  rw [length_mirrorLoop, List.length_append] at hk
  by_cases hkt : k < text.length
  · have hrev : (text.reverse ++ rest).getD k nul = text.getD (text.length - 1 - k) nul := by
      rw [List.getD, List.getElem?_append_left (by simpa using hkt), List.getElem?_reverse hkt,
        List.getD]
    have happ : ∀ i < text.length, (text ++ rest).getD i nul = text.getD i nul := by
      intro i hi
      rw [List.getD, List.getElem?_append_left hi, List.getD]
    rw [hrev]
    split
    · exact happ _ (by omega)
    · -- only the byte in the middle stays where it is
      have hmid : text.length - 1 - k = k := by omega
      rw [hmid]
      exact happ _ hkt
  · rw [if_neg (by omega)]
    simp [List.getD, List.getElem?_append, hkt]

/-- The swaps mirror the string in the content and leave the rest alone. -/
theorem mirrorContent_eq {text : List UInt8} (h : nul ∉ text) (rest : List UInt8) :
    mirrorContent (text ++ nul :: rest) = mirrored text ++ nul :: rest := by
  have hlen : strlen (text ++ nul :: rest) = text.length := by rw [strlen, cString_append_nul h]
  have hlast : text ≠ [] →
      (text ++ nul :: rest).getD (text.length - 1) nul = text.getLast?.getD nul := by
    intro hne
    have hpos : 0 < text.length := List.length_pos_iff.mpr hne
    rw [List.getD, List.getElem?_append_left (by omega), List.getLast?_eq_getElem?]
  unfold mirrorContent mirrored mirrorLen
  rw [hlen]
  -- a newline at the end stays there, and only what is before it is turned round
  by_cases hnl : text.getLast? = some newline
  · obtain ⟨line, rfl⟩ := List.getLast?_eq_some_iff.mp hnl
    have hne : (line ++ [newline]).length ≠ 0 := by simp
    rw [if_pos ⟨hne, by rw [hlast (by simp), hnl]; rfl⟩, if_pos hnl, List.length_append,
      List.length_singleton, Nat.add_sub_cancel, List.append_assoc, mirrorLoop_eq,
      List.dropLast_concat, List.append_assoc]
  · have hno : ¬(text.length ≠ 0 ∧ (text ++ nul :: rest).getD (text.length - 1) nul = newline) := by
      rintro ⟨hne, he⟩
      have hne' : text ≠ [] := fun hnil => hne (by rw [hnil]; rfl)
      rw [hlast hne'] at he
      cases hget : text.getLast? with
      | none => exact hne' (List.getLast?_eq_none_iff.mp hget)
      | some b =>
        rw [hget] at he hnl
        exact hnl (congrArg some he)
    rw [if_neg hno, if_neg hnl, mirrorLoop_eq]

example : mirrorContent [97, 98, 99, 10, 0, 7] = [99, 98, 97, 10, 0, 7] := by decide

end MsgQueue
end OpSys
