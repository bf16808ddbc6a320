import OpSys.Batch.Wiring

/-!
# Empty places between pipes

A line of the interpreter with pipes in which a pipe may also stand first, last or next
to another one.  The loop over the tokens then leaves an empty argument list, and the
fork loop takes it for the end of the line.

## Main definitions

* `LineOutcome`, `startPrograms`, `startLine` — the statements of `main` from the first
  `pipe` to the end of the fork loop, with calls of `pipe` and `fork` that may fail.
* `runTokens` — what `main` does with a token array.
* `NothingDropped`, `Rejected` — what a line may come to.

## Main results

* `flatten_splitOn` — the programs between the pipes have all other tokens.
* `runTokens_eq` — the programs that are started, and their tables.
* `nothing_dropped_iff` — the lines of which no program is dropped.

## References

`lab4_signals_and_pipes/batch_job_interpreter_pipes/cmd_interpreter_extd.c`.
-/

namespace OpSys
namespace Batch

open Stdio

variable {ω α : Type*}

/-- The children that `main` has forked for a line, each with its arguments and what becomes
of its table, and the status if `main` returns. -/
structure LineOutcome (α ω : Type*) where
  children : List (List α × Except ℕ (Table ω))
  status : Option ℕ

/-- One more child in front. -/
def LineOutcome.put (child : List α × Except ℕ (Table ω)) (out : LineOutcome α ω) :
    LineOutcome α ω :=
  { out with children := child :: out.children }

/-- The fork loop from `pargs[currp]` on; `none` when it leaves `pargs`.  `forkOk` tells
which calls of `fork` succeed. -/
def startPrograms (forkOk : ℕ → Bool) (fds : ℕ → ℕ) (totalProgs : ℕ) (table : Table ω) :
    ℕ → List (List α) → Option (LineOutcome α ω)
  | _, [] => none
  | _, [] :: _ => some ⟨[], none⟩
  | currp, (arg :: args) :: pargs =>
    if forkOk currp then
      (startPrograms forkOk fds totalProgs table (currp + 1) pargs).map
        (.put (arg :: args, childSetup fds totalProgs currp (!(pargs.headD []).isEmpty) table))
    else some ⟨[], some 4⟩

/-- The statements of `main` from the first `pipe` to the end of the fork loop. -/
def startLine (pipeOk forkOk : ℕ → Bool) (fds : ℕ → ℕ) (totalProgs : ℕ) (pargs : List (List α))
    (table : Table ω) : Option (LineOutcome α ω) :=
  if (List.range totalProgs).all pipeOk then
    startPrograms forkOk fds totalProgs (openPipes fds totalProgs table) 0 pargs
  else some ⟨[], some 3⟩

/-- What `main` does with a token array. -/
def runTokens (pipeOk forkOk : ℕ → Bool) (fds : ℕ → ℕ) (table : Table ω)
    (tokens : List (Option (List UInt8))) : Option (LineOutcome (List UInt8) ω) :=
  (splitLoop tokens splitStart).bind fun st =>
    (st.pargs.mapM readArgs).bind fun pargs =>
      startLine pipeOk forkOk fds (st.progNum + 1) pargs table

/-- The token array with these tokens. -/
def tokenArray (words : List (List UInt8)) : List (Option (List UInt8)) :=
  (words.map (some ∘ filled)).rightpad (maxProgsPiped * (maxArgs + 2)) none

/-- The places between the pipes of a line. -/
def places (words : List (List UInt8)) : List (List (List UInt8)) := words.splitOn [pipe]

/-- The tokens go into the token array, `pargs` and its argument lists, with a NULL behind
them in each. -/
structure InLimits (words : List (List UInt8)) : Prop where
  short : ∀ text ∈ words, Short text
  tokens : words.length < maxProgsPiped * (maxArgs + 2)
  args : ∀ prog ∈ places words, prog.length ≤ maxArgs + 1
  progs : (places words).length ≤ maxProgsPiped + 1
  null : (places words).length ≤ maxProgsPiped ∨ [] ∈ places words

/-- Every token other than `"|"` is an argument of one child, in order, and the standard
output of each child but the last is connected to the standard input of the next. -/
structure NothingDropped (words : List (List UInt8)) (out : LineOutcome (List UInt8) ω) :
    Prop where
  args : (out.children.map Prod.fst).flatten = words.filter (· != [pipe])
  stdout : ∀ i, i + 1 < out.children.length → ∃ table,
    (out.children.map Prod.snd)[i]? = some (.ok table) ∧ table stdoutFileno = some (.writeEnd i)
  stdin : ∀ i, i + 1 < out.children.length → ∃ table,
    (out.children.map Prod.snd)[i + 1]? = some (.ok table) ∧ table stdinFileno = some (.readEnd i)

/-- `main` returns, and no child has been started. -/
def Rejected (out : LineOutcome α ω) : Prop := out.status ≠ none ∧ out.children = []

/-! ### The places between the pipes -/

section Places

variable {β : Type*}

theorem withPipes_eq_intercalate (sep : β) (progs : List (List β)) :
    withPipes sep progs = [sep].intercalate progs := by
  induction progs using withPipes.induct with
  | case1 => rfl
  | case2 prog => rw [withPipes, List.intercalate_singleton]
  | case3 prog next progs ih =>
    rw [withPipes, ih, List.intercalate_cons_cons, List.append_assoc, List.singleton_append]

variable [BEq β] [LawfulBEq β]

theorem withPipes_splitOn (sep : β) (words : List β) :
    withPipes sep (words.splitOn sep) = words := by
  rw [withPipes_eq_intercalate, List.intercalate_splitOn]

theorem flatten_splitOn (sep : β) (words : List β) :
    (words.splitOn sep).flatten = words.filter (· != sep) := by
  induction words with
  | nil => rfl
  | cons word words ih =>
    rw [List.splitOn_cons_eq_if_modifyHead]
    by_cases h : word = sep
    · subst h
      simp [ih]
    · obtain ⟨prog, progs, hcons⟩ := List.exists_cons_of_ne_nil (List.splitOn_ne_nil sep words)
      rw [hcons] at ih ⊢
      rw [List.flatten_cons] at ih
      simp only [beq_iff_eq, h, if_false, List.modifyHead_cons, List.flatten_cons,
        List.filter_cons, bne_iff_ne, ne_eq, not_false_eq_true, if_true]
      rw [List.cons_append, ih]

end Places

theorem ne_pipe_of_mem {words prog : List (List UInt8)} (h : prog ∈ places words)
    {text : List UInt8} (htext : text ∈ prog) : text ∈ words ∧ text ≠ [pipe] := by
  have hmem : text ∈ (places words).flatten := List.mem_flatten.mpr ⟨prog, h, htext⟩
  rw [places, flatten_splitOn] at hmem
  simpa using hmem

/-! ### The fork loop -/

theorem argRows_eq_map (progs : List (List (List UInt8))) :
    argRows progs = (progs.rightpad (maxProgsPiped + 1) []).map argRow := by
  rw [argRows, List.rightpad, List.rightpad, List.map_append, List.map_replicate, List.length_map]

theorem mapM_readArgs {progs : List (List (List UInt8))}
    (h : ∀ prog ∈ progs, prog.length ≤ maxArgs + 1 ∧ ∀ text ∈ prog, Short text) :
    (progs.map argRow).mapM readArgs = some progs := by
  induction progs with
  | nil => rfl
  | cons prog progs ih =>
    obtain ⟨⟨hlen, hshort⟩, hprogs⟩ := List.forall_mem_cons.mp h
    rw [List.map_cons, List.mapM_cons, readArgs_argRow hshort hlen, ih hprogs]
    rfl

/-- When no `fork` fails, the children are those of the programs before the first empty one. -/
theorem startPrograms_eq {forkOk : ℕ → Bool} (hfork : ∀ i, forkOk i = true) (fds : ℕ → ℕ)
    (totalProgs : ℕ) (table : Table ω) (pargs : List (List α)) (hnull : [] ∈ pargs) :
    ∀ currp, ∃ out, startPrograms forkOk fds totalProgs table currp pargs = some out ∧
      out.status = none ∧ out.children.map Prod.fst = pargs.takeWhile (!·.isEmpty) ∧
        out.children.map Prod.snd = forkChildren fds totalProgs table currp pargs := by
  induction pargs with
  | nil => exact absurd hnull List.not_mem_nil
  | cons prog pargs ih =>
    intro currp
    cases prog with
    | nil => exact ⟨_, rfl, rfl, rfl, rfl⟩
    | cons arg args =>
      have hrest : [] ∈ pargs := (List.mem_cons.mp hnull).resolve_left (List.cons_ne_nil _ _).symm
      obtain ⟨out, hout, hstatus, hargs, htables⟩ := ih hrest (currp + 1)
      refine ⟨out.put (arg :: args,
        childSetup fds totalProgs currp (!(pargs.headD []).isEmpty) table), ?_, hstatus, ?_, ?_⟩
      · rw [startPrograms, if_pos (hfork currp), hout, Option.map_some]
      · rw [LineOutcome.put, List.map_cons, hargs]
        rfl
      · rw [LineOutcome.put, List.map_cons, htables, forkChildren]

theorem takeWhile_rightpad (progs : List (List α)) (n : ℕ) :
    (progs.rightpad n []).takeWhile (!·.isEmpty) = progs.takeWhile (!·.isEmpty) := by
  rw [List.rightpad, List.takeWhile_append]
  split
  · rename_i hlen
    have hall : progs.takeWhile (!·.isEmpty) = progs :=
      (List.takeWhile_prefix _).eq_of_length hlen
    rw [hall]
    cases n - progs.length <;> simp [List.replicate_succ]
  · rfl

namespace InLimits

variable {words : List (List UInt8)}

theorem places_spec (h : InLimits words) : ∀ prog ∈ places words,
    prog.length ≤ maxArgs + 1 ∧ ∀ text ∈ prog, Short text ∧ text ≠ [pipe] := by
  intro prog hprog
  refine ⟨h.args prog hprog, fun text htext => ?_⟩
  obtain ⟨hmem, hpipe⟩ := ne_pipe_of_mem hprog htext
  exact ⟨h.short text hmem, hpipe⟩

/-- The loop over the tokens deals the places out. -/
theorem splitLoop_tokenArray (h : InLimits words) : ∃ n, splitLoop (tokenArray words) splitStart =
    some ⟨argRows (places words), (places words).length - 1, n⟩ := by
  have hne : places words ≠ [] := List.splitOn_ne_nil [pipe] words
  obtain ⟨k, hk⟩ := rightpad_eq_append_cons (n := maxProgsPiped * (maxArgs + 2))
    (l := words.map (some ∘ filled)) (by rw [List.length_map]; exact h.tokens) none
  obtain ⟨n, hn⟩ := splitLoop_withPipes hne h.places_spec []
    (by rw [List.length_nil, Nat.zero_add]; exact h.progs) (List.replicate k none)
  refine ⟨n, ?_⟩
  rw [List.nil_append, List.length_nil, Nat.zero_add, places, withPipes_splitOn] at hn
  rw [tokenArray, hk, splitStart_eq]
  exact hn

/-- The line of `words`, up to the first `pipe`. -/
theorem runTokens_eq (h : InLimits words) (pipeOk forkOk : ℕ → Bool) (fds : ℕ → ℕ)
    (table : Table ω) : runTokens pipeOk forkOk fds table (tokenArray words) =
      startLine pipeOk forkOk fds (places words).length
        ((places words).rightpad (maxProgsPiped + 1) []) table := by
  obtain ⟨n, hn⟩ := h.splitLoop_tokenArray
  have hpos : 0 < (places words).length :=
    List.length_pos_iff.mpr (List.splitOn_ne_nil [pipe] words)
  have hrows : ∀ prog ∈ (places words).rightpad (maxProgsPiped + 1) [],
      prog.length ≤ maxArgs + 1 ∧ ∀ text ∈ prog, Short text := by
    intro prog hprog
    rcases List.mem_append.mp hprog with hmem | hmem
    · obtain ⟨hlen, htexts⟩ := h.places_spec prog hmem
      exact ⟨hlen, fun text htext => (htexts text htext).1⟩
    · rw [List.eq_of_mem_replicate hmem]
      exact ⟨Nat.zero_le _, fun text htext => absurd htext List.not_mem_nil⟩
  have hread := mapM_readArgs hrows
  rw [runTokens, hn, Option.bind_some, argRows_eq_map, hread, Option.bind_some]
  congr 1
  exact Nat.sub_add_cancel hpos

theorem nil_mem_rightpad (h : InLimits words) :
    [] ∈ (places words).rightpad (maxProgsPiped + 1) [] := by
  rcases h.null with hlen | hmem
  · obtain ⟨k, hk⟩ := rightpad_eq_append_cons (Nat.lt_succ_of_le hlen) ([] : List (List UInt8))
    rw [hk]
    simp
  · exact List.mem_append_left _ hmem

/-- The line of `words` when no call fails: the programs before the first empty place. -/
theorem exists_outcome (h : InLimits words) {pipeOk forkOk : ℕ → Bool}
    (hpipe : ∀ i, pipeOk i = true) (hfork : ∀ i, forkOk i = true) (fds : ℕ → ℕ) (table : Table ω) :
    ∃ out, runTokens pipeOk forkOk fds table (tokenArray words) = some out ∧ out.status = none ∧
      out.children.map Prod.fst = (places words).takeWhile (!·.isEmpty) ∧
      out.children.map Prod.snd =
        (List.range ((places words).takeWhile (!·.isEmpty)).length).map fun i =>
          childSetup fds (places words).length i
            (decide (i + 1 < ((places words).takeWhile (!·.isEmpty)).length))
            (openPipes fds (places words).length table) := by
  obtain ⟨out, hout, hstatus, hargs, htables⟩ := startPrograms_eq hfork fds (places words).length
    (openPipes fds (places words).length table) _ h.nil_mem_rightpad 0
  refine ⟨out, ?_, hstatus, ?_, ?_⟩
  · rw [h.runTokens_eq, startLine, if_pos (by simp [hpipe]), hout]
  · rw [hargs, takeWhile_rightpad]
  · rw [htables, forkChildren_eq_map, takeWhile_rightpad, List.range_eq_range']
    simp only [Nat.zero_add]

end InLimits

/-- Descriptors that calls of `pipe` return while the standard ones are open. -/
structure Fresh (n : ℕ) (fds : ℕ → ℕ) : Prop where
  inj : ∀ i < 2 * n, ∀ j < 2 * n, fds i = fds j → i = j
  three_le : ∀ i < 2 * n, 3 ≤ fds i

/-- What the children have is what comes before the first empty place. -/
theorem flatten_takeWhile_eq_iff (words : List (List UInt8)) :
    ((places words).takeWhile (!·.isEmpty)).flatten = words.filter (· != [pipe]) ↔
      ∀ prog ∈ (places words).dropWhile (!·.isEmpty), prog = [] := by
  have hsplit : ((places words).takeWhile (!·.isEmpty)).flatten ++
      ((places words).dropWhile (!·.isEmpty)).flatten = words.filter (· != [pipe]) := by
    rw [← List.flatten_append, List.takeWhile_append_dropWhile, places, flatten_splitOn]
  rw [← hsplit, List.self_eq_append_right, List.flatten_eq_nil_iff]

/-- **No program is dropped** when pipes and children can be made, if and only if no program
comes after an empty place between the pipes of its line. -/
theorem nothing_dropped_iff {words : List (List UInt8)} (h : InLimits words)
    {pipeOk forkOk : ℕ → Bool} (hpipe : ∀ i, pipeOk i = true) (hfork : ∀ i, forkOk i = true)
    {fds : ℕ → ℕ} (hfds : Fresh (places words).length fds) (table : Table ω) :
    (∃ out, runTokens pipeOk forkOk fds table (tokenArray words) = some out ∧
        (NothingDropped words out ∨ Rejected out)) ↔
      ∀ prog ∈ (places words).dropWhile (!·.isEmpty), prog = [] := by
  obtain ⟨out, hout, hstatus, hargs, htables⟩ := h.exists_outcome hpipe hfork fds table
  have hlen : out.children.length = ((places words).takeWhile (!·.isEmpty)).length := by
    rw [← hargs, List.length_map]
  have hle : out.children.length ≤ (places words).length := by
    rw [hlen]
    exact (List.takeWhile_prefix _).length_le
  rw [← hlen] at htables
  -- the table of each child, whether or not something is dropped
  have htable : ∀ i < out.children.length, (out.children.map Prod.snd)[i]? =
      some (.ok (childTable fds (places words).length i (decide (i + 1 < out.children.length))
        (openPipes fds (places words).length table))) := by
    intro i hi
    rw [htables, List.getElem?_map, List.getElem?_range hi, Option.map_some,
      childSetup_openPipes hfds.inj hfds.three_le (hi.trans_le hle)]
  rw [← flatten_takeWhile_eq_iff]
  constructor
  · rintro ⟨out', hout', hdone⟩
    obtain rfl : out = out' := Option.some.inj (hout.symm.trans hout')
    rcases hdone with hdone | hdone
    · rw [← hargs]
      exact hdone.args
    · exact absurd hstatus hdone.1
  · intro hall
    refine ⟨out, hout, Or.inl ⟨by rw [hargs, hall], fun i hi => ?_, fun i hi => ?_⟩⟩
    · refine ⟨_, htable i (by omega), ?_⟩
      rw [childTable_stdout hfds.three_le, if_pos (decide_eq_true hi)]
    · refine ⟨_, htable (i + 1) hi, ?_⟩
      rw [childTable_stdin hfds.three_le, if_pos (Nat.succ_pos i), Nat.add_sub_cancel]

/-- The tokens of `a | | b`. -/
def emptyPlace : List (List UInt8) := [[97], [pipe], [pipe], [98]]

theorem inLimits_emptyPlace : InLimits emptyPlace where
  short := by
    unfold Short
    decide
  tokens := by decide
  args := by decide
  progs := by decide
  null := by decide

theorem fresh_add_three (n : ℕ) : Fresh n (· + 3) :=
  ⟨fun i _ j _ h => by omega, fun i _ => by omega⟩

theorem nothing_dropped_iff_emptyPlace :
    (∃ out, runTokens (fun _ => true) (fun _ => true) (· + 3) (fun _ : ℕ => some (.old ()))
        (tokenArray emptyPlace) = some out ∧ (NothingDropped emptyPlace out ∨ Rejected out)) ↔
      ∀ prog ∈ (places emptyPlace).dropWhile (!·.isEmpty), prog = [] :=
  nothing_dropped_iff inLimits_emptyPlace (fun _ => rfl) (fun _ => rfl) (fresh_add_three _) _

/-- The program `b` is dropped, and `main` goes on. -/
theorem program_dropped :
    ¬ ∃ out, runTokens (fun _ => true) (fun _ => true) (· + 3) (fun _ : ℕ => some (.old ()))
        (tokenArray emptyPlace) = some out ∧ (NothingDropped emptyPlace out ∨ Rejected out) := by
  rintro ⟨out, hout, hdone⟩
  obtain ⟨out', hout', hstatus, hargs, -⟩ := inLimits_emptyPlace.exists_outcome
    (fun _ => rfl : ∀ i, (fun _ : ℕ => true) i = true) (fun _ => rfl) (· + 3)
    (fun _ : ℕ => some (.old ()))
  obtain rfl : out' = out := Option.some.inj (hout'.symm.trans hout)
  rcases hdone with hdone | hdone
  · have hwords := hdone.args
    rw [hargs] at hwords
    exact absurd hwords (by decide)
  · exact absurd hstatus hdone.1

end Batch
end OpSys
