import OpSys.MsgQueue.Posix.Trail

/-!
# Responses with POSIX queues

As the talks of the clients are orderly, the queue of a client never holds more than
the response to its latest request, and the server finds it empty.  The trail says of
each response which request it has been made from.

## Main definitions

* `Answered` — what lies in the queue of a client.
* `Sys.Unblocked` — the server can send what it has in its hand.

## Main results

* `answered_run` — both hold in every state, if the pids are distinct.

## References

`lab5_message_queues/POSIX/server.c`, `lab5_message_queues/POSIX/client.c`.
-/

namespace OpSys
namespace MsgQueue
namespace Posix

open Stdio

variable {ι : Type*}

/-- The client reads from a queue of its own, and in it is at most one message, which the
server has made from the latest request of this same client, and as it must be. -/
structure Answered (cfg : Config ι) (s : Sys ι) (t : Trail ι) (i : ι) : Prop where
  own : ∀ q, (s.client i).privQid = some q → q = some i
  one : (s.queue (some i)).length ≤ 1
  origin : t.stamps (some i) = (s.queue (some i)).map fun _ => (i, t.asked i)
  latest : ∀ resp ∈ s.queue (some i), ∃ req inTime,
    s.latest i = some (req, inTime) ∧ t.Latest cfg i req ∧ Answers cfg.server req resp

/-- Whatever the server sends, its descriptor is open and the queue is empty. -/
def Sys.Unblocked (s : Sys ι) : Prop :=
  ∀ qid msg pc, s.pc.sends = some (qid, msg, pc) →
    ∃ i, s.fds qid = some (some i) ∧ s.queue (some i) = []

variable [DecidableEq ι] {cfg : Config ι} {s : Sys ι} {t : Trail ι}

/-- Never more than one response waits for a client. -/
theorem TalkInv.one_response (h : TalkInv cfg s) (i : ι) : (s.queue (some i)).length ≤ 1 := by
  have hone : (s.flight cfg i).length ≤ 1 := (h.orderly i).one
  rw [flight_eq, List.length_append, List.length_map] at hone
  omega

theorem TalkInv.answered (h : TalkInv cfg s) (htrail : TrailInv cfg s t)
    (hinj : Function.Injective cfg.pid) (i : ι) : Answered cfg s t i where
  own q hq := priv_own h.sys hinj hq
  origin := htrail.priv i
  one := h.one_response i
  latest resp hresp := by
    have hmem : Slip.answered resp ∈ s.flight cfg i := by
      rw [flight_eq]
      exact List.mem_append_left _ (List.mem_map_of_mem hresp)
    obtain ⟨req, hlatest, hanswers⟩ := (h.orderly i).answered resp hmem
    obtain ⟨⟨req', inTime⟩, hsome, rfl⟩ := Option.map_eq_some_iff.mp hlatest
    exact ⟨req', inTime, hsome, htrail.latest i req' inTime hsome, hanswers⟩

theorem TalkInv.unblocked (h : TalkInv cfg s) : s.Unblocked := by
  intro qid msg pc hpc
  obtain ⟨i, hi⟩ := (h.sys.fds (sends_running hpc).1).of_sends hpc
  refine ⟨i, hi, ?_⟩
  have hone : (s.flight cfg i).length ≤ 1 := (h.orderly i).one
  rw [flight_eq, (hand_of_sends cfg s.fds i hpc).1, toClient, if_pos hi] at hone
  simp only [List.length_append, List.length_map, List.length_singleton] at hone
  exact List.length_eq_zero_iff.mp (by omega)

/-- **Every response reaches the client that waits for it**, and no other: in every state of
every run. -/
theorem answered_run (cfg : Config ι) (hinj : Function.Injective cfg.pid)
    (es : List (Event ι)) :
    (trackedRun cfg es).1 = (system cfg).run es cfg.start ∧
      (∀ i, Answered cfg (trackedRun cfg es).1 (trackedRun cfg es).2 i) ∧
        (trackedRun cfg es).1.Unblocked := by
  obtain ⟨htalk, htrail⟩ := trailInv_run hinj es
  exact ⟨trackedRun_fst cfg es, htalk.answered htrail hinj, htalk.unblocked⟩

/-! ### A run -/

/-- Two clients whose users type `mirror` and `abc`. -/
def duo : Config Bool where
  server := 100
  pid first := if first then 101 else 102
  stdin := fun _ => [109, 105, 114, 114, 111, 114, 10, 97, 98, 99, 10]
  junk := fun _ => List.replicate 6 nul

theorem duo_injective : Function.Injective duo.pid := by
  intro i j h
  cases i with
  | false =>
    cases j with
    | false => rfl
    | true => exact absurd h (by decide)
  | true =>
    cases j with
    | false => exact absurd h (by decide)
    | true => rfl

/-- The first client registers and asks for the mirror of `abc`. -/
def abcRun : List (Event Bool) :=
  let server := Event.server 4 ⟨[], clock_nil⟩
  [.server 3 ⟨[], clock_nil⟩, .client true, .client true, .client true, server, server, server,
    server, .client true, .client true, .client true, server, server, server]

theorem answered_abc :
    (trackedRun duo abcRun).1.queue (some true) = [⟨101, 100, [99, 98, 97, 10, 0, 0]⟩] ∧
      (trackedRun duo abcRun).2.stamps (some true) = [(true, 1)] ∧
        (∀ i, Answered duo (trackedRun duo abcRun).1 (trackedRun duo abcRun).2 i) ∧
          (trackedRun duo abcRun).1.Unblocked :=
  ⟨by decide, by decide, (answered_run duo duo_injective abcRun).2⟩

end Posix
end MsgQueue
end OpSys
