import OpSys.MsgQueue.Message

/-!
# The client's prompt

One round of the loop in the client's `main`, which is the same in both message
systems, and what a response has to do with a request.

## Main definitions

* `command` — the comparison of an input line with the commands.
* `prompt` — a round of the loop, up to the message that is sent.
* `Asks` — the messages that a client sends.
* `Answers` — what a response must be.

## Main results

* `prompt_asks`, `prompt_stays` — the messages of the loop.

## References

`lab5_message_queues/POSIX/client.c`, `lab5_message_queues/SystemV/client.c`.
-/

namespace OpSys
namespace MsgQueue

open Stdio

/-- The requests that a user can type. -/
inductive Command
  | mirror
  | time
  | end
  | quit
  | unknown
  deriving DecidableEq, Repr

/-- The line without a newline at its end. -/
def chomp (text : List UInt8) : List UInt8 :=
  if text.getLast? = some newline then text.dropLast else text

/-- The comparisons of `main`, with the line that `fgets` has read. -/
def command (line : List UInt8) : Command :=
  let request := chomp (cString line)
  if request = [109, 105, 114, 114, 111, 114] then .mirror
  else if request = [116, 105, 109, 101] then .time
  else if request = [101, 110, 100] then .end
  else if request = [113, 117, 105, 116] then .quit
  else .unknown

/-- What a round of the loop leads to: the next round, a message to send (to which a
response is expected or not), or `exit(0)`. -/
inductive Prompt
  | again (msg : Message) (stdin : List UInt8)
  | ask (answered : Bool) (msg : Message) (stdin : List UInt8)
  | quit (stdin : List UInt8)

/-- A round of the loop; `msg` and `stdin` are what the last round has left. -/
def prompt (pid : ℤ) (msg : Message) (stdin : List UInt8) : Prompt :=
  match fgets 50 stdin with
  | none => .again { msg with senderPid := pid } stdin
  | some (line, stdin) =>
    match command line with
    | .mirror =>
      match fgets maxContSize stdin with
      | none => .again { msg with type := typeMirror, senderPid := pid } stdin
      | some (text, stdin) =>
        .ask true ⟨typeMirror, pid, overwrite text msg.content⟩ stdin
    | .time => .ask true { msg with type := typeTime, senderPid := pid } stdin
    | .end => .ask false { msg with type := typeEnd, senderPid := pid } stdin
    | .quit => .quit stdin
    | .unknown => .again { msg with senderPid := pid } stdin

/-- `msg` is a message of the client `pid`, and `answered` says whether the client waits
for a response. -/
structure Asks (pid : ℤ) (answered : Bool) (msg : Message) : Prop where
  sender : msg.senderPid = pid
  type : if answered then msg.type = typeRegister ∨ msg.type = typeMirror ∨ msg.type = typeTime
    else msg.type = typeEnd ∨ msg.type = typeQuit
  /-- The string to be mirrored ends within the content. -/
  ends : msg.type = typeMirror → nul ∈ msg.content

/-- A text that `strftime(buff, 20, …)` may write. -/
abbrev Clock : Type := { text : List UInt8 // text.length < 20 ∧ nul ∉ text }

theorem clock_nil : ([] : List UInt8).length < 20 ∧ nul ∉ ([] : List UInt8) := by decide

/-- What a response to `req` must be.  `server` is the pid of the server. -/
def Answers (server : ℤ) (req resp : Message) : Prop :=
  resp.senderPid = server ∧
    (req.type = typeRegister ∧ resp.type = typeRegister ∧
        (∃ session : ℤ, cString resp.content = decimal session) ∨
      req.type = typeMirror ∧ resp.type = req.senderPid ∧
        cString resp.content = mirrored (cString req.content) ∨
      req.type = typeTime ∧ resp.type = req.senderPid ∧
        ∃ clock : Clock, cString resp.content = clock.1)

theorem prompt_asks {pid : ℤ} {msg msg' : Message} {stdin stdin' : List UInt8} {answered : Bool}
    (h : prompt pid msg stdin = .ask answered msg' stdin') : Asks pid answered msg' := by
  unfold prompt at h
  -- the end of the input leaves the loop as `QUIT` does
  cases hline : fgets 50 stdin with
  | none => simp [hline] at h
  | some r =>
    simp only [hline] at h
    cases hcommand : command r.1 with
    | mirror =>
      simp only [hcommand] at h
      cases htext : fgets maxContSize r.2 with
      | none => simp [htext] at h
      | some t =>
        simp only [htext, Prompt.ask.injEq] at h
        obtain ⟨rfl, rfl, -⟩ := h
        exact ⟨rfl, .inr (.inl rfl), fun _ => by simp [overwrite]⟩
    | time =>
      simp only [hcommand, Prompt.ask.injEq] at h
      obtain ⟨rfl, rfl, -⟩ := h
      have hne : typeTime ≠ typeMirror := by decide
      exact ⟨rfl, .inr (.inr rfl), fun ht => absurd ht hne⟩
    | «end» =>
      simp only [hcommand, Prompt.ask.injEq] at h
      obtain ⟨rfl, rfl, -⟩ := h
      have hne : typeEnd ≠ typeMirror := by decide
      exact ⟨rfl, .inl rfl, fun ht => absurd ht hne⟩
    | quit => simp [hcommand] at h
    | unknown => simp [hcommand] at h

/-- The loop itself sends no `REGISTER` and no `QUIT`. -/
theorem prompt_type {pid : ℤ} {msg msg' : Message} {stdin stdin' : List UInt8} {answered : Bool}
    (h : prompt pid msg stdin = .ask answered msg' stdin') :
    msg'.type = typeMirror ∨ msg'.type = typeTime ∨ msg'.type = typeEnd := by
  unfold prompt at h
  split at h
  · cases h
  · rename_i line stdin₁ hline
    split at h
    · split at h
      · cases h
      · obtain ⟨-, rfl, -⟩ := Prompt.ask.inj h
        exact .inl rfl
    · obtain ⟨-, rfl, -⟩ := Prompt.ask.inj h
      exact .inr (.inl rfl)
    · obtain ⟨-, rfl, -⟩ := Prompt.ask.inj h
      exact .inr (.inr rfl)
    · cases h
    · cases h

theorem prompt_stays {pid : ℤ} {msg msg' : Message} {stdin stdin' : List UInt8} {answered : Bool}
    (h : prompt pid msg stdin = .ask answered msg' stdin') :
    msg'.type ≠ typeRegister ∧ msg'.type ≠ typeQuit := by
  rcases prompt_type h with htype | htype | htype
  · rw [htype]
    decide
  · rw [htype]
    decide
  · rw [htype]
    decide

theorem nul_notMem_mirrored {text : List UInt8} (h : nul ∉ text) : nul ∉ mirrored text := by
  unfold mirrored
  split
  · rename_i hlast
    obtain ⟨line, rfl⟩ := List.getLast?_eq_some_iff.mp hlast
    rw [List.dropLast_concat, List.mem_append, List.mem_reverse, ← List.mem_append]
    exact h
  · rwa [List.mem_reverse]

theorem cString_mirrorContent {content : List UInt8} (h : nul ∈ content) :
    cString (mirrorContent content) = mirrored (cString content) := by
  obtain ⟨text, rest, rfl, hnul⟩ := List.eq_append_cons_of_mem h
  rw [mirrorContent_eq hnul, cString_append_nul (nul_notMem_mirrored hnul),
    cString_append_nul hnul]

/-! ### Responses -/

section Responses

variable {server : ℤ} {req : Message}

theorem answers_register (htype : req.type = typeRegister) (session : ℤ) :
    Answers server req ⟨typeRegister, server, overwrite (decimal session) req.content⟩ :=
  ⟨rfl, .inl ⟨htype, rfl, session, cString_overwrite (nul_notMem_decimal session) _⟩⟩

theorem answers_mirror (htype : req.type = typeMirror) (hends : nul ∈ req.content) :
    Answers server req ⟨req.senderPid, server, mirrorContent req.content⟩ :=
  ⟨rfl, .inr (.inl ⟨htype, rfl, cString_mirrorContent hends⟩)⟩

theorem answers_time (htype : req.type = typeTime) (clock : Clock) :
    Answers server req ⟨req.senderPid, server, overwrite clock.1 req.content⟩ :=
  ⟨rfl, .inr (.inr ⟨htype, rfl, clock, cString_overwrite clock.2.2 _⟩)⟩

end Responses

end MsgQueue
end OpSys
