import OpSys.Batch.Tokenize

/-!
# Lines with pipes

The loop of `main` that deals the tokens of a line out to the programs between the
pipes.  Quotes are gone when a token is compared with `"|"`.  A store past the end
of `pargs` or of an argument list, or a scan past the end of an array, is `none`.

## Main definitions

* `Splitter`, `splitStep`, `splitLoop`, `parseLine` — the loop, and the whole line.
* `readArgs`, `readProgs` — the argument lists up to their NULLs.
* `withPipes` — the words of several programs in one line.

## Main results

* `splitLoop_withPipes` — the loop on the words of programs with pipes between them.
* `readProgs_argRows` — argument lists within the limits are read back.
* `NoPipe.parseLine` — no argument is ever `"|"`.

## References

`lab4_signals_and_pipes/batch_job_interpreter_pipes/cmd_interpreter_extd.c`.
-/

namespace OpSys
namespace Batch

open Stdio

/-- `MAX_ARGS`. -/
def maxArgs : ℕ := 5

/-- `MAX_PROGS_PIPED`. -/
def maxProgsPiped : ℕ := 6

/-- `'|'`. -/
def pipe : UInt8 := 124

/-- `pargs`, `progNum` and `argNum`. -/
structure Splitter where
  pargs : List (List (Option (List UInt8)))
  progNum : ℕ
  argNum : ℕ
  deriving DecidableEq, Repr

/-- The string in a buffer; `none` when the scan for its NUL leaves the buffer. -/
def readString (buf : List UInt8) : Option (List UInt8) :=
  if nul ∈ buf then some (cString buf) else none

/-- `pargs[progNum][argNum] = calloc(BUFFER_SIZE, 1)` and the `memcpy` into it. -/
def Splitter.putArg (st : Splitter) (text : List UInt8) : Option Splitter :=
  match st.pargs[st.progNum]? with
  | none => none
  | some args =>
    if st.argNum < args.length ∧ text.length ≤ bufferSize then
      some { st with
        pargs := st.pargs.set st.progNum (args.set st.argNum (some (filled text)))
        argNum := st.argNum + 1 }
    else none

/-- The body of the loop for the token `text`. -/
def splitStep (st : Splitter) (text : List UInt8) : Option Splitter :=
  if text ≠ [pipe] then st.putArg text
  else some { st with argNum := 0, progNum := st.progNum + 1 }

/-- The loop over the tokens from `ttrav` on. -/
def splitLoop : List (Option (List UInt8)) → Splitter → Option Splitter
  | [], _ => none
  | none :: _, st => some st
  | some buf :: tokens, st =>
    (readString buf).bind fun text => (splitStep st text).bind (splitLoop tokens)

/-- The variables before the loop. -/
def splitStart : Splitter where
  pargs := List.replicate (maxProgsPiped + 1) (List.replicate (maxArgs + 2) none)
  progNum := 0
  argNum := 0

/-- What `main` makes of a line before it creates the pipes. -/
def parseLine (line : StrMem) : Option Splitter :=
  (trimWhitespace line).bind fun line =>
    (tokenize (maxProgsPiped * (maxArgs + 2)) line.text).bind fun tokens =>
      splitLoop tokens splitStart

/-- An argument list up to its NULL, as `execvp` reads it. -/
def readArgs : List (Option (List UInt8)) → Option (List (List UInt8))
  | [] => none
  | none :: _ => some []
  | some buf :: args =>
    (readString buf).bind fun text => (readArgs args).map (text :: ·)

/-- The argument lists up to the first empty one, as the fork loop reads them. -/
def readProgs : List (List (Option (List UInt8))) → Option (List (List (List UInt8)))
  | [] => none
  | args :: pargs =>
    match readArgs args with
    | none => none
    | some [] => some []
    | some (text :: texts) => (readProgs pargs).map ((text :: texts) :: ·)

/-! ### Argument lists -/

theorem readString_filled {text : List UInt8} (hnul : nul ∉ text)
    (hlen : text.length < bufferSize) : readString (filled text) = some text := by
  obtain ⟨k, hk⟩ := rightpad_eq_append_cons hlen nul
  rw [readString, filled, hk, if_pos (by simp), cString_append_nul hnul]

/-- A text that a buffer holds with its NUL. -/
def Short (text : List UInt8) : Prop := nul ∉ text ∧ text.length < bufferSize

theorem short_pipe : Short [pipe] := ⟨by decide, by decide⟩

/-- An argument list with its NULL. -/
def argRow (texts : List (List UInt8)) : List (Option (List UInt8)) :=
  (texts.map (some ∘ filled)).rightpad (maxArgs + 2) none

/-- The argument lists of `progs`, and empty ones after them. -/
def argRows (progs : List (List (List UInt8))) : List (List (Option (List UInt8))) :=
  (progs.map argRow).rightpad (maxProgsPiped + 1) (argRow [])

theorem readArgs_append {texts : List (List UInt8)} (h : ∀ text ∈ texts, Short text)
    (args : List (Option (List UInt8))) :
    readArgs (texts.map (some ∘ filled) ++ none :: args) = some texts := by
  induction texts with
  | nil => rfl
  | cons text texts ih =>
    obtain ⟨⟨hnul, hlen⟩, htexts⟩ := List.forall_mem_cons.mp h
    rw [List.map_cons, List.cons_append, Function.comp_apply, readArgs,
      readString_filled hnul hlen, Option.bind_some, ih htexts, Option.map_some]

theorem readArgs_argRow {texts : List (List UInt8)} (h : ∀ text ∈ texts, Short text)
    (hlen : texts.length ≤ maxArgs + 1) : readArgs (argRow texts) = some texts := by
  obtain ⟨k, hk⟩ := rightpad_eq_append_cons (n := maxArgs + 2) (l := texts.map (some ∘ filled))
    (by rw [List.length_map]; omega) none
  rw [argRow, hk, readArgs_append h]

/-- Argument lists within the limits are read back. -/
theorem readProgs_argRows {progs : List (List (List UInt8))}
    (h : ∀ prog ∈ progs, prog ≠ [] ∧ prog.length ≤ maxArgs + 1 ∧ ∀ text ∈ prog, Short text)
    (hlen : progs.length ≤ maxProgsPiped) : readProgs (argRows progs) = some progs := by
  obtain ⟨k, hk⟩ := rightpad_eq_append_cons (n := maxProgsPiped + 1) (l := progs.map argRow)
    (by rw [List.length_map]; omega) (argRow [])
  rw [argRows, hk]
  clear hk hlen
  induction progs with
  | nil => rfl
  | cons prog progs ih =>
    obtain ⟨⟨hne, hlen, hshort⟩, hprogs⟩ := List.forall_mem_cons.mp h
    obtain ⟨text, texts, rfl⟩ := List.exists_cons_of_ne_nil hne
    rw [List.map_cons, List.cons_append, readProgs, readArgs_argRow hshort hlen]
    simp only [ih hprogs, Option.map_some]

/-! ### The loop over the tokens -/

/-- The loop within the program `cur`, with the programs of `done` dealt out. -/
def Splitter.after (done : List (List (List UInt8))) (cur : List (List UInt8)) : Splitter where
  pargs := argRows (done ++ [cur])
  progNum := done.length
  argNum := cur.length

theorem splitStart_eq : splitStart = .after [] [] := by decide

theorem length_argRow {texts : List (List UInt8)} (h : texts.length ≤ maxArgs + 2) :
    (argRow texts).length = maxArgs + 2 :=
  length_rightpad_of_le (by rwa [List.length_map]) _

theorem set_argRow {texts : List (List UInt8)} (h : texts.length ≤ maxArgs + 1)
    (text : List UInt8) :
    (argRow texts).set texts.length (some (filled text)) = argRow (texts ++ [text]) := by
  have hset := set_rightpad (l := texts.map (some ∘ filled)) (n := maxArgs + 2)
    (by rw [List.length_map]; omega) none (some (filled text))
  rw [List.length_map] at hset
  rw [argRow, hset, argRow, List.map_append]
  rfl

@[simp] theorem argRows_getElem? (done : List (List (List UInt8))) (cur : List (List UInt8)) :
    (argRows (done ++ [cur]))[done.length]? = some (argRow cur) := by
  simp [argRows, List.rightpad]

@[simp] theorem argRows_set (done : List (List (List UInt8))) (cur cur' : List (List UInt8)) :
    (argRows (done ++ [cur])).set done.length (argRow cur') = argRows (done ++ [cur']) := by
  simp [argRows, List.rightpad]

theorem argRows_append_nil {progs : List (List (List UInt8))} (h : progs.length ≤ maxProgsPiped) :
    argRows (progs ++ [[]]) = argRows progs := by
  rw [argRows, List.map_append, List.map_singleton,
    rightpad_append_singleton (by rw [List.length_map]; omega), argRows]

section Loop

variable {done : List (List (List UInt8))} {cur : List (List UInt8)}
  {tokens : List (Option (List UInt8))}

theorem splitStep_word {text : List UInt8} (hpipe : text ≠ [pipe]) (hlen : text.length < bufferSize)
    (hcur : cur.length ≤ maxArgs + 1) :
    splitStep (.after done cur) text = some (.after done (cur ++ [text])) := by
  have hroom : cur.length < (argRow cur).length ∧ text.length ≤ bufferSize := by
    rw [length_argRow (by omega)]
    omega
  rw [splitStep, if_pos hpipe, Splitter.putArg]
  simp only [Splitter.after, argRows_getElem?]
  refine (if_pos hroom).trans ?_
  rw [set_argRow hcur, argRows_set, List.length_append, List.length_singleton]

theorem splitStep_pipe (hdone : done.length < maxProgsPiped) :
    splitStep (.after done cur) [pipe] = some (.after (done ++ [cur]) []) := by
  have hprogs : (done ++ [cur]).length ≤ maxProgsPiped := by
    rw [List.length_append, List.length_singleton]
    omega
  rw [splitStep, if_neg (not_not.mpr rfl)]
  simp only [Splitter.after]
  rw [argRows_append_nil hprogs, List.length_append, List.length_singleton, List.length_nil]

theorem splitLoop_cons {st st' : Splitter} {text : List UInt8} (hshort : Short text)
    (h : splitStep st text = some st') :
    splitLoop (some (filled text) :: tokens) st = splitLoop tokens st' := by
  rw [splitLoop, readString_filled hshort.1 hshort.2, Option.bind_some, h, Option.bind_some]

/-- The loop on the words of one program. -/
theorem splitLoop_words {texts : List (List UInt8)}
    (h : ∀ text ∈ texts, Short text ∧ text ≠ [pipe])
    (hlen : cur.length + texts.length ≤ maxArgs + 2) :
    splitLoop (texts.map (some ∘ filled) ++ tokens) (.after done cur) =
      splitLoop tokens (.after done (cur ++ texts)) := by
  induction texts generalizing cur with
  | nil => rw [List.append_nil, List.map_nil, List.nil_append]
  | cons text texts ih =>
    obtain ⟨⟨hshort, hpipe⟩, htexts⟩ := List.forall_mem_cons.mp h
    rw [List.length_cons] at hlen
    have hstep : splitStep (.after done cur) text = some (.after done (cur ++ [text])) :=
      splitStep_word hpipe hshort.2 (by omega)
    rw [List.map_cons, List.cons_append, Function.comp_apply, splitLoop_cons hshort hstep,
      ih htexts (by simp; omega), List.append_assoc, List.singleton_append]

end Loop

/-- The words of the programs, with `sep` between two programs. -/
def withPipes {α : Type*} (sep : α) : List (List α) → List α
  | [] => []
  | [prog] => prog
  | prog :: next :: progs => prog ++ sep :: withPipes sep (next :: progs)

/-- The loop deals the words of programs within the limits out to them. -/
theorem splitLoop_withPipes {progs : List (List (List UInt8))} (hne : progs ≠ [])
    (h : ∀ prog ∈ progs, prog.length ≤ maxArgs + 1 ∧ ∀ text ∈ prog, Short text ∧ text ≠ [pipe])
    (done : List (List (List UInt8))) (hlen : done.length + progs.length ≤ maxProgsPiped + 1)
    (args : List (Option (List UInt8))) :
    ∃ n, splitLoop ((withPipes [pipe] progs).map (some ∘ filled) ++ none :: args) (.after done []) =
      some ⟨argRows (done ++ progs), done.length + progs.length - 1, n⟩ := by
  induction progs using withPipes.induct generalizing done with
  | case1 => exact absurd rfl hne
  -- the last program has no `|` behind it
  | case2 prog =>
    obtain ⟨hargs, htexts⟩ := h prog (by simp)
    refine ⟨prog.length, ?_⟩
    rw [withPipes, splitLoop_words htexts (by simp; omega), splitLoop]
    rfl
  | case3 prog next progs ih =>
    obtain ⟨⟨hargs, htexts⟩, hprogs⟩ := List.forall_mem_cons.mp h
    rw [List.length_cons] at hlen
    obtain ⟨n, hn⟩ := ih (List.cons_ne_nil _ _) hprogs (done ++ [prog])
      -- a `|` ends the program, and the rest is split behind it
      (by simp at hlen ⊢; omega)
    refine ⟨n, ?_⟩
    rw [withPipes, List.map_append, List.map_cons, List.append_assoc, List.cons_append,
      splitLoop_words htexts (by simp; omega), List.nil_append, Function.comp_apply,
      splitLoop_cons short_pipe (splitStep_pipe (by simp at hlen; omega)), hn]
    simp
    omega

/-! ### Arguments that are not pipes -/

/-- No argument in `pargs` is `"|"`. -/
def NoPipe (pargs : List (List (Option (List UInt8)))) : Prop :=
  ∀ args ∈ pargs, ∀ buf, some buf ∈ args → readString buf ≠ some [pipe]

theorem nul_notMem_of_readString {buf text : List UInt8} (h : readString buf = some text) :
    nul ∉ text := by
  unfold readString at h
  split at h
  · rw [← Option.some.inj h]
    intro hmem
    simpa using List.mem_takeWhile_imp hmem
  · exact absurd h (Option.some_ne_none _).symm

theorem readString_filled_ne {text : List UInt8} (hnul : nul ∉ text) (hpipe : text ≠ [pipe]) :
    readString (filled text) ≠ some [pipe] := by
  intro h
  have htext : cString (filled text) = [pipe] := by
    unfold readString at h
    split at h
    · exact Option.some.inj h
    · exact absurd h (Option.some_ne_none _).symm
  rw [filled, List.rightpad, cString_append hnul] at htext
  cases hn : bufferSize - text.length with
  | zero =>
    rw [hn] at htext
    exact hpipe (by simpa [cString] using htext)
  | succ n =>
    rw [hn, List.replicate_succ] at htext
    exact hpipe (by simpa [cString] using htext)

/-- The argument that is stored at a token is not `"|"`. -/
theorem NoPipe.splitStep {st st' : Splitter} {text : List UInt8} (h : NoPipe st.pargs)
    (hnul : nul ∉ text) (hstep : splitStep st text = some st') : NoPipe st'.pargs := by
  unfold Batch.splitStep at hstep
  split at hstep
  · rename_i hpipe
    unfold Splitter.putArg at hstep
    split at hstep
    · exact absurd hstep (Option.some_ne_none _).symm
    · rename_i args hargs
      split at hstep
      · obtain rfl := Option.some.inj hstep
        intro row hrow buf hbuf
        rcases List.mem_or_eq_of_mem_set hrow with hrow | rfl
        · exact h row hrow buf hbuf
        · rcases List.mem_or_eq_of_mem_set hbuf with hbuf | hbuf
          · exact h args (List.mem_of_getElem? hargs) buf hbuf
          · rw [Option.some.inj hbuf]
            exact readString_filled_ne hnul hpipe
      · exact absurd hstep (Option.some_ne_none _).symm
  · obtain rfl := Option.some.inj hstep
    exact h

theorem NoPipe.splitLoop {tokens : List (Option (List UInt8))} {st st' : Splitter}
    (h : NoPipe st.pargs) (hloop : splitLoop tokens st = some st') : NoPipe st'.pargs := by
  induction tokens generalizing st with
  | nil => exact absurd hloop (Option.some_ne_none _).symm
  | cons token tokens ih =>
    cases token with
    | none =>
      obtain rfl := Option.some.inj hloop
      exact h
    | some buf =>
      rw [Batch.splitLoop] at hloop
      obtain ⟨text, htext, hloop⟩ := Option.bind_eq_some_iff.mp hloop
      obtain ⟨st₁, hstep, hloop⟩ := Option.bind_eq_some_iff.mp hloop
      exact ih (h.splitStep (nul_notMem_of_readString htext) hstep) hloop

theorem noPipe_start : NoPipe splitStart.pargs := by
  intro args hargs buf hbuf
  obtain rfl := List.eq_of_mem_replicate hargs
  exact absurd (List.eq_of_mem_replicate hbuf) (Option.some_ne_none _)

theorem NoPipe.parseLine {line : StrMem} {st : Splitter} (h : parseLine line = some st) :
    NoPipe st.pargs := by
  obtain ⟨_, _, h⟩ := Option.bind_eq_some_iff.mp h
  obtain ⟨_, _, h⟩ := Option.bind_eq_some_iff.mp h
  exact noPipe_start.splitLoop h

theorem readArgs_noPipe {args : List (Option (List UInt8))} {texts : List (List UInt8)}
    (h : ∀ buf, some buf ∈ args → readString buf ≠ some [pipe])
    (hread : readArgs args = some texts) : [pipe] ∉ texts := by
  induction args generalizing texts with
  | nil => exact absurd hread (Option.some_ne_none _).symm
  | cons arg args ih =>
    cases arg with
    | none =>
      obtain rfl := Option.some.inj hread
      exact List.not_mem_nil
    | some buf =>
      rw [Batch.readArgs] at hread
      obtain ⟨text, htext, hread⟩ := Option.bind_eq_some_iff.mp hread
      obtain ⟨texts, htexts, rfl⟩ := Option.map_eq_some_iff.mp hread
      have hne : text ≠ [pipe] := fun he => h buf List.mem_cons_self (he ▸ htext)
      have htail := ih (fun buf hbuf => h buf (List.mem_cons_of_mem _ hbuf)) htexts
      simp [hne.symm, htail]

theorem NoPipe.readProgs {pargs : List (List (Option (List UInt8)))}
    {progs : List (List (List UInt8))} (h : NoPipe pargs) (hread : readProgs pargs = some progs) :
    ∀ prog ∈ progs, [pipe] ∉ prog := by
  induction pargs generalizing progs with
  | nil => exact absurd hread (Option.some_ne_none _).symm
  | cons args pargs ih =>
    obtain ⟨hargs, hpargs⟩ := List.forall_mem_cons.mp h
    rw [Batch.readProgs] at hread
    split at hread
    · exact absurd hread (Option.some_ne_none _).symm
    · obtain rfl := Option.some.inj hread
      exact fun _ hprog => absurd hprog List.not_mem_nil
    · rename_i text texts htexts
      obtain ⟨progs, hprogs, rfl⟩ := Option.map_eq_some_iff.mp hread
      exact List.forall_mem_cons.mpr ⟨readArgs_noPipe hargs htexts, ih hpargs hprogs⟩

end Batch
end OpSys
