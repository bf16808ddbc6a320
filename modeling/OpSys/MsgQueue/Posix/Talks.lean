import OpSys.Lib.Requests
import OpSys.MsgQueue.Posix.Invariant

/-!
# The clients' talks with POSIX queues

Every client talks to the server one request at a time.  Its requests wait in the
public queue among those of the others, the server has one message in its hand, and
the responses lie in the client's own queue; together these are what is under way for
the client.  The pids of the clients are distinct here.

## Main definitions

* `Sys.flight`, `Sys.talk` — what is under way for a client, and what is known of it.
* `QuitInv` — only clients that have left are forgotten.
* `TalkInv` — these, and that the talks are orderly.

## Main results

* `talk_step` — a step of the system is at most one move in each of the talks.
* `talkInv_start`, `talkInv_step` — the invariant, at the start and along every step.

## References

`lab5_message_queues/POSIX/server.c`, `lab5_message_queues/POSIX/client.c`.
-/

namespace OpSys
namespace MsgQueue
namespace Posix

open Stdio

variable {ι : Type*}

/-- What the client is about. -/
def ClientPc.phase : ClientPc → Phase
  | openPublic => .outside
  | openPrivate => .outside
  | sendRegister => .outside
  | receiveSession => .joining
  | prompt => .ready
  | sendRequest _ => .ready
  | receiveResponse => .asking
  | _ => .left

/-- A message to which the client `pid` awaits the response. -/
def requestOf (pid : ℤ) (m : Message) : Bool :=
  m.senderPid = pid ∧ (m.type = typeRegister ∨ m.type = typeMirror ∨ m.type = typeTime)

/-- The server has failed, or `SIGINT` has reached it. -/
def ServerPc.Failed (pc : ServerPc) : Prop := ∃ status, pc.status = some status ∧ status ≠ 0

/-- What the requests and the responses mean. -/
def terms (server : ℤ) : Terms Message Message where
  answers := Answers server
  joins r := r.type = typeRegister
  grants a := ∃ n, 0 ≤ n ∧ scanInt a.content = .value n

section Talk

variable [DecidableEq ι]

/-- A message for the client `i`, if that is where the descriptor leads. -/
def toClient (fds : ℤ → Option (Option ι)) (i : ι) (qid : ℤ) (msg : Message) :
    List (Slip Message Message) :=
  if fds qid = some (some i) then [.answered msg] else []

/-- What the server has in its hand for the client `i`. -/
def hand (cfg : Config ι) (fds : ℤ → Option (Option ι)) (i : ι) :
    ServerPc → List (Slip Message Message)
  | .register msg => if msg.senderPid = cfg.pid i then [.asked msg] else []
  | .refuse qid msg => toClient fds i qid msg
  | .login qid msg => toClient fds i qid msg
  | .respond qid msg => toClient fds i qid msg
  | _ => []

/-- What is under way for the client `i`. -/
def Sys.flight (cfg : Config ι) (s : Sys ι) (i : ι) : List (Slip Message Message) :=
  (s.queue (some i)).map .answered ++ (hand cfg s.fds i s.pc ++
    ((s.queue none).filter (requestOf (cfg.pid i))).map .asked)

/-- The client `i`, and what the server knows about it. -/
def Sys.talk (cfg : Config ι) (s : Sys ι) (i : ι) : Talk Message Message where
  phase := (s.client i).pc.phase
  latest := (s.latest i).map Prod.fst
  flight := s.flight cfg i
  registered := cfg.pid i ∈ (entries s.data).map Prod.fst
  failed := s.pc.Failed

end Talk

/-- Only clients that have left are forgotten. -/
structure QuitInv (cfg : Config ι) (s : Sys ι) : Prop where
  sent : ∀ m ∈ s.queue none, m.type = typeQuit → ∀ i, m.senderPid = cfg.pid i →
    (s.client i).pc.phase = .left
  handled : ∀ k, s.pc = .quit k → ∀ i, (s.data.clientsData k).1 = cfg.pid i →
    (s.client i).pc.phase = .left

/-! ### Phases -/

theorem phase_eq_left_iff {pc : ClientPc} :
    pc.phase = .left ↔ ∃ status, pc.status = some status := by
  cases pc <;> simp [ClientPc.phase, ClientPc.status]

theorem phase_of_status {pc : ClientPc} {status : ℤ} (h : pc.status = some status) :
    pc.phase = .left := phase_eq_left_iff.mpr ⟨status, h⟩

@[simp] theorem phase_exitClient (c : Client ι) (status : ℤ) :
    (exitClient c status).pc.phase = .left :=
  phase_of_status (exitClient_status c status)

/-- A round of the loop ends with the next one, with a request, or with `exit`. -/
theorem phase_readCommand (pid : ℤ) {c : Client ι} (hpc : c.pc = .prompt) :
    (readCommand pid c).pc.phase = .ready ∨ (readCommand pid c).pc.phase = .left := by
  unfold readCommand
  cases prompt pid c.msg c.stdin with
  | again msg stdin => exact .inl (by rw [hpc]; rfl)
  | ask answered msg stdin => exact .inl rfl
  | quit stdin => exact .inr (phase_exitClient _ 0)

theorem phase_readSession (cfg : Config ι) (i : ι) (c : Client ι) (resp : Message) :
    ((readSession cfg i c resp).pc.phase = .ready ∧ (terms cfg.server).grants resp) ∨
      (readSession cfg i c resp).pc.phase = .left := by
  unfold readSession
  cases hscan : scanInt resp.content with
  | value n =>
    simp only
    split
    · exact .inr (phase_exitClient _ (-1))
    · rename_i hn
      exact .inl ⟨rfl, n, by omega, hscan⟩
  | noMatch => exact .inr (phase_exitClient _ (-1))
  | eof => exact .inr (phase_exitClient _ (-1))

/-! ### Slips -/

theorem requestOf_asks {pid pid' : ℤ} {answered : Bool} {m : Message} (h : Asks pid answered m) :
    requestOf pid' m = true ↔ pid = pid' ∧ answered = true := by
  have htype := h.type
  rw [requestOf, h.sender, decide_eq_true_iff]
  cases answered with
  | true => simpa using fun _ => htype
  | false =>
    have hne : ∀ t, t = typeEnd ∨ t = typeQuit →
        ¬(t = typeRegister ∨ t = typeMirror ∨ t = typeTime) := by
      rintro t (rfl | rfl)
      · decide
      · decide
    simpa using fun _ => by simpa using hne m.type (by simpa using htype)

section Hand

variable [DecidableEq ι] {cfg : Config ι} {fds : ℤ → Option (Option ι)} {i : ι}

theorem hand_of_status {pc : ServerPc} {status : ℤ} (h : pc.status = some status) :
    hand cfg fds i pc = [] := by
  cases pc with
  | register msg => cases h
  | refuse qid msg => cases h
  | login qid msg => cases h
  | respond qid msg => cases h
  | _ => rfl

theorem hand_of_sends (cfg : Config ι) (fds : ℤ → Option (Option ι)) (i : ι)
    {pc pc' : ServerPc} {qid : ℤ} {msg : Message} (h : pc.sends = some (qid, msg, pc')) :
    hand cfg fds i pc = toClient fds i qid msg ∧ hand cfg fds i pc' = [] := by
  cases pc with
  | refuse qid' msg' =>
    obtain ⟨rfl, rfl, rfl⟩ := by simpa [ServerPc.sends] using h
    exact ⟨rfl, rfl⟩
  | login qid' msg' =>
    obtain ⟨rfl, rfl, rfl⟩ := by simpa [ServerPc.sends] using h
    exact ⟨rfl, rfl⟩
  | respond qid' msg' =>
    obtain ⟨rfl, rfl, rfl⟩ := by simpa [ServerPc.sends] using h
    exact ⟨rfl, rfl⟩
  | _ => exact absurd h (Option.some_ne_none _).symm

theorem hand_of_closes {pc : ServerPc} {d d' : ServerData} {qid : ℤ}
    (h : pc.closes d = some (qid, d')) : hand cfg fds i pc = [] := by
  cases pc with
  | closeRefused qid' => rfl
  | quit k => rfl
  | _ => exact absurd h (Option.some_ne_none _).symm

end Hand

/-! ### Steps of the server -/

theorem Dispatched.entries_eq {server : ℤ} {d : ServerData} {m : Message}
    {p : ServerData × ServerPc} (hp : Dispatched server d m p) : entries p.1 = entries d := by
  cases hp <;> rfl

/-- The entry that the server has found. -/
theorem find_spec {d : ServerData} {pid : ℤ} (h : (d.find pid : ℤ) < d.clientCount) :
    (d.clientsData (d.find pid)).1 = pid := by
  have hlen := length_entries d
  have hlt : (entries d).findIdx (fun e => e.1 = pid) < (entries d).length := by
    rw [← find_eq]
    omega
  have hfound := List.findIdx_getElem (w := hlt)
  simp only [← find_eq, decide_eq_true_eq] at hfound
  simpa [entries] using hfound

/-- The descriptor of the entry that the server has found leads to the sender's queue. -/
theorem fds_find {cfg : Config ι} {fds : ℤ → Option (Option ι)} {d : ServerData} {pc : ServerPc}
    (h : FdInv cfg fds d pc) {pid : ℤ} (hfind : (d.find pid : ℤ) < d.clientCount) :
    ∃ j, pid = cfg.pid j ∧ fds (d.clientsData (d.find pid)).2 = some (some j) := by
  have hmem := List.mem_of_getElem? (entries_at h.count_nonneg hfind)
  obtain ⟨j, hj, hfd⟩ := h.owner _ hmem
  exact ⟨j, (find_spec hfind).symm.trans hj, hfd⟩

section Server

variable [DecidableEq ι] {cfg : Config ι} {s s' : Sys ι} {i : ι}

/-- Nothing of the client `i` is touched, and in the server's hand there is what was. -/
theorem talk_same (hclient : (s'.client i).pc.phase = (s.client i).pc.phase)
    (hlatest : s'.latest i = s.latest i) (hflight : s'.flight cfg i = s.flight cfg i)
    (hreg : cfg.pid i ∈ (entries s'.data).map Prod.fst ↔
      cfg.pid i ∈ (entries s.data).map Prod.fst)
    (hfailed : s'.pc.Failed ↔ s.pc.Failed) : s'.talk cfg i = s.talk cfg i := by
  simp only [Sys.talk, hclient, hlatest, hflight, hreg, hfailed]

theorem not_failed {pc : ServerPc} (h : pc.status = none) : ¬pc.Failed := by
  rintro ⟨status, hstatus, -⟩
  exact Option.some_ne_none _ (hstatus.symm.trans h)

/-- The flight of a server that has something in its hand. -/
theorem flight_eq (cfg : Config ι) (s : Sys ι) (i : ι) :
    s.flight cfg i = (s.queue (some i)).map .answered ++ (hand cfg s.fds i s.pc ++
      ((s.queue none).filter (requestOf (cfg.pid i))).map .asked) := rfl

/-- The server fails. -/
theorem talk_fail {pc : ServerPc} {status : ℤ} (hpc : pc.status = some status)
    (hstatus : status ≠ 0) (data : ServerData)
    (hdata : entries data = entries s.data) (interrupted : Bool) :
    Talk.Move (terms cfg.server) (s.talk cfg i)
      ({ s with data := data, pc := pc, interrupted := interrupted }.talk cfg i) := by
  have hfailed : pc.Failed := ⟨status, hpc, hstatus⟩
  have hflight : { s with data := data, pc := pc, interrupted := interrupted }.flight cfg i =
      (s.queue (some i)).map .answered ++
        ((s.queue none).filter (requestOf (cfg.pid i))).map .asked := by
    rw [flight_eq, hand_of_status hpc, List.nil_append]
  have hlose := Talk.Move.lose (T := terms cfg.server) (t := s.talk cfg i)
    ({ s with data := data, pc := pc, interrupted := interrupted }.flight cfg i) pc.Failed
    (by
      rw [hflight]
      exact (List.sublist_append_right _ _).append_left _)
    (.inr hfailed) fun _ => hfailed
  simpa only [Sys.talk, hdata] using hlose

/-- A message that the client `i` awaits no response to leaves it alone. -/
theorem hand_of_dispatched {fds : ℤ → Option (Option ι)}
    {d : ServerData} {pc : ServerPc} (h : FdInv cfg fds d pc) {m : Message}
    {p : ServerData × ServerPc} (hp : Dispatched cfg.server d m p)
    (hreq : requestOf (cfg.pid i) m = false) : hand cfg fds i p.2 = [] := by
  have hpid : m.type = typeRegister ∨ m.type = typeMirror ∨ m.type = typeTime →
      m.senderPid ≠ cfg.pid i := by
    intro htype heq
    have htrue : requestOf (cfg.pid i) m = true := decide_eq_true ⟨heq, htype⟩
    exact Bool.false_ne_true (hreq.symm.trans htrue)
  cases hp with
  | register htype => exact if_neg (hpid (.inl htype))
  | respond resp htype hfind hanswer =>
    obtain ⟨j, hj, hfd⟩ := fds_find h hfind
    refine if_neg fun hi => ?_
    obtain rfl : j = i := Option.some.inj (Option.some.inj (hfd.symm.trans hi))
    exact hpid (.inr htype) hj
  | _ => rfl

theorem type_of_request {t : ℤ} (h : t = typeRegister ∨ t = typeMirror ∨ t = typeTime) :
    t ≠ typeEnd ∧ t ≠ typeQuit := by
  rcases h with rfl | rfl | rfl
  · decide
  · decide
  · decide

theorem not_register_of_type {t : ℤ} (h : t = typeMirror ∨ t = typeTime) : t ≠ typeRegister := by
  rcases h with rfl | rfl
  · decide
  · decide

/-- What `mq_receive` leads to. -/
theorem talk_receive (h : SysInv cfg s) (hinj : Function.Injective cfg.pid)
    (hpc : s.pc = .receive) {m : Message} {ms : List Message} (hq : s.queue none = m :: ms)
    {p : ServerData × ServerPc} (hp : Dispatched cfg.server s.data m p) :
    Relation.ReflGen (Talk.Move (terms cfg.server)) (s.talk cfg i)
      ({ (s.leave none ms).goOn p with dispatched := s.dispatched ++ [m] }.talk cfg i) := by
  have hfds : FdInv cfg s.fds s.data s.pc := h.fds (.of_eq hpc ServerPc.noConfusion rfl)
  have hfailed : ¬s.pc.Failed := not_failed (by rw [hpc]; rfl)
  have hfailed' : ¬p.2.Failed := not_failed hp.running.2
  have hentries := hp.entries_eq
  -- the message leaves the public queue and is answered by what is in hand after it
  have hbefore : s.flight cfg i = (s.queue (some i)).map .answered ++
      ((m :: ms).filter (requestOf (cfg.pid i))).map .asked := by
    rw [flight_eq, hpc, hq]
    rfl
  have hafter : { (s.leave none ms).goOn p with dispatched := s.dispatched ++ [m] }.flight cfg i =
      (s.queue (some i)).map .answered ++ (hand cfg s.fds i p.2 ++
        (ms.filter (requestOf (cfg.pid i))).map .asked) := by
    have hnone : Function.update s.queue none ms none = ms := Function.update_self ..
    have hsome : Function.update s.queue none ms (some i) = s.queue (some i) :=
      Function.update_of_ne (Option.some_ne_none i) ..
    rw [flight_eq, ← hnone, ← hsome]
    rfl
  have hsame : hand cfg s.fds i p.2 ++ (ms.filter (requestOf (cfg.pid i))).map Slip.asked =
      ((m :: ms).filter (requestOf (cfg.pid i))).map .asked →
      ({ (s.leave none ms).goOn p with dispatched := s.dispatched ++ [m] }.talk cfg i) =
        s.talk cfg i := by
    intro hflight
    refine talk_same rfl rfl (by rw [hafter, hbefore, hflight]) ?_ ?_
    · exact iff_of_eq (by rw [← hentries]; rfl)
    · exact iff_of_false hfailed' hfailed
  have htalk : ∀ slips,
      { (s.leave none ms).goOn p with dispatched := s.dispatched ++ [m] }.flight cfg i = slips →
      { (s.leave none ms).goOn p with dispatched := s.dispatched ++ [m] }.talk cfg i =
        { s.talk cfg i with flight := slips } := by
    intro slips hslips
    refine Talk.ext rfl rfl hslips ?_ ?_
    · simp only [Sys.talk, ← hentries]
      rfl
    · exact propext (iff_of_false hfailed' hfailed)
  cases hreq : requestOf (cfg.pid i) m with
  | false =>
    -- the message is nothing that this client waits for an answer to
    rw [hsame (by rw [hand_of_dispatched hfds hp hreq, List.nil_append,
      List.filter_cons_of_neg (by simp [hreq])])]
  | true =>
    obtain ⟨hpid, htype⟩ := of_decide_eq_true hreq
    obtain ⟨hend, hquit⟩ := type_of_request htype
    have hfilter := List.filter_cons_of_pos (l := ms) hreq
    have hflight : s.flight cfg i = (s.queue (some i)).map .answered ++
        .asked m :: (ms.filter (requestOf (cfg.pid i))).map .asked := by
      rw [hbefore, hfilter]
      rfl
    cases hp with
    | register htype =>
      -- the request stays with the server until the queue of the client is open
      rw [hsame]
      rw [hfilter, hand, if_pos hpid]
      rfl
    | unknown htype' hfind =>
      have hregister := not_register_of_type (htype'.imp_right fun h => h.resolve_right hquit)
      have hunknown : cfg.pid i ∉ (entries s.data).map Prod.fst := by
        rw [find_lt_iff hfds.count_nonneg, hpid] at hfind
        rintro hmem
        obtain ⟨e, he, heq⟩ := List.mem_map.mp hmem
        exact hfind ⟨e, he, heq⟩
      have hmove := Talk.Move.ignore (T := terms cfg.server) (t := s.talk cfg i) _ _ m hflight
        hregister hunknown
      rw [htalk _ hafter]
      exact .single hmove
    | respond resp htype' hfind hanswer =>
      have hregister := not_register_of_type htype'
      obtain ⟨j, hj, hfd⟩ := fds_find hfds hfind
      -- a pid belongs to one client, so the answer goes to the one that asked
      obtain rfl : i = j := hinj (hpid.symm.trans hj)
      obtain ⟨k, answered, hasks⟩ := h.pub m (by rw [hq]; exact List.mem_cons_self)
      have hmove := Talk.Move.answer (T := terms cfg.server) (t := s.talk cfg i) _ _ m resp _
        hflight (hanswer ((em _).imp_left hasks.ends)) id fun hjoins => absurd hjoins hregister
      have hhand : hand cfg s.fds i (.respond (s.data.clientsData (s.data.find m.senderPid)).2 resp)
          = [.answered resp] := if_pos hfd
      rw [hhand] at hafter
      rw [htalk _ hafter]
      exact .single hmove
    | finish htype' => exact absurd htype' hend
    | quit htype' hfind => exact absurd htype' hquit
    | other htype' =>
      rcases htype with htype | htype | htype
      · exact absurd htype htype'.1
      · exact absurd htype htype'.2.1
      · exact absurd htype htype'.2.2.1

/-- The server refuses the client `pid` in the session `-1`, or has an entry more, for it. -/
def Admitted (d d' : ServerData) (pid qid session : ℤ) : Prop :=
  entries d' = entries d ∧ session = -1 ∨ entries d' = entries d ++ [(pid, qid)]

section Admitted

variable {d d' : ServerData} {pid qid session : ℤ}

theorem Admitted.keep (h : Admitted d d' pid qid session) {other : ℤ}
    (hmem : other ∈ (entries d).map Prod.fst) : other ∈ (entries d').map Prod.fst := by
  rcases h with ⟨h, -⟩ | h
  · rw [h]
    exact hmem
  · rw [h, List.map_append]
    exact List.mem_append_left _ hmem

/-- A response that grants a session is for a client with an entry. -/
theorem Admitted.grants (h : Admitted d d' pid qid session) {server : ℤ} {a : Message}
    {buf : List UInt8} (hcontent : a.content = overwrite (decimal session) buf)
    (hgrants : (terms server).grants a) : pid ∈ (entries d').map Prod.fst := by
  rcases h with ⟨-, rfl⟩ | h
  · obtain ⟨n, hn, hscan⟩ := hgrants
    rw [hcontent] at hscan
    have hvalue := (scanInt_overwrite (-1) buf).symm.trans hscan
    obtain rfl := Scan.value.inj hvalue
    omega
  · rw [h]
    simp

theorem Admitted.mem_iff (h : Admitted d d' pid qid session) {other : ℤ} (hne : pid ≠ other) :
    other ∈ (entries d').map Prod.fst ↔ other ∈ (entries d).map Prod.fst := by
  rcases h with ⟨h, -⟩ | h
  · rw [h]
  · rw [h, List.map_append, List.mem_append]
    exact or_iff_left fun hmem => hne (List.mem_singleton.mp hmem).symm

end Admitted

/-- With the queue of the client `k` open, the server has a response for it in its hand, and
an entry for it unless it refuses. -/
theorem hand_registerOpened (cfg : Config ι) (fds : ℤ → Option (Option ι)) (i : ι)
    {d : ServerData} (hcount : 0 ≤ d.clientCount) (msg : Message) (fd : ℤ) (k : ι) :
    ∃ session : ℤ,
      hand cfg (Function.update fds fd (some (some k))) i
          (registerOpened cfg.server d msg fd).2 =
        (if k = i then [.answered (registerResponse cfg.server msg session)] else []) ∧
      Admitted d (registerOpened cfg.server d msg fd).1 msg.senderPid fd session ∧
      ¬(registerOpened cfg.server d msg fd).2.Failed := by
  have hto : ∀ resp, toClient (Function.update fds fd (some (some k))) i fd resp =
      if k = i then [.answered resp] else [] := by
    intro resp
    simp [toClient]
  unfold registerOpened
  split
  · exact ⟨-1, hto _, .inl ⟨rfl, rfl⟩, not_failed rfl⟩
  · exact ⟨d.clientCount, hto _, .inr (entries_accept hcount _), not_failed rfl⟩

theorem talk_openClient (h : SysInv cfg s) (hinj : Function.Injective cfg.pid) {fd : ℤ}
    {msg : Message} {q : Option ι} (hpc : s.pc = .register msg)
    (hlink : s.link (clientPath msg.senderPid) = some q) :
    Relation.ReflGen (Talk.Move (terms cfg.server)) (s.talk cfg i)
      (((s.setFd fd (some q)).goOn (registerOpened cfg.server s.data msg fd)).talk cfg i) := by
  have hfds : FdInv cfg s.fds s.data s.pc := h.fds (.of_eq hpc ServerPc.noConfusion rfl)
  have hfailed : ¬s.pc.Failed := not_failed (by rw [hpc]; rfl)
  obtain ⟨⟨j, answered, hasks⟩, htype⟩ := h.register msg hpc
  have hpid := hasks.sender
  rw [hpid] at hlink
  obtain ⟨k, rfl, hk⟩ := h.link_client j q hlink
  obtain rfl : k = j := hinj hk
  obtain ⟨session, hhand, hdata, hfailed'⟩ :=
    hand_registerOpened cfg s.fds i hfds.count_nonneg msg fd k
  have hafter : ((s.setFd fd (some (some k))).goOn
      (registerOpened cfg.server s.data msg fd)).flight cfg i =
        (s.queue (some i)).map .answered ++
          ((if k = i then [.answered (registerResponse cfg.server msg session)] else []) ++
            ((s.queue none).filter (requestOf (cfg.pid i))).map .asked) := by
    rw [← hhand]
    rfl
  -- the REGISTER is this client's, or another's
  by_cases hki : k = i
  · subst hki
    refine .single ?_
    have hflight : s.flight cfg k = (s.queue (some k)).map .answered ++
        .asked msg :: ((s.queue none).filter (requestOf (cfg.pid k))).map .asked := by
      rw [flight_eq, hpc, hand, if_pos hpid]
      rfl
    have hgrants : (terms cfg.server).grants (registerResponse cfg.server msg session) →
        cfg.pid k ∈ (entries (registerOpened cfg.server s.data msg fd).1).map Prod.fst :=
      fun hgrants => hpid ▸ hdata.grants rfl hgrants
    have hmove := Talk.Move.answer (T := terms cfg.server) (t := s.talk cfg k) _ _ msg
      (registerResponse cfg.server msg session) _ hflight (answers_register htype session)
      hdata.keep fun _ => hgrants
    have htalk : ((s.setFd fd (some (some k))).goOn
        (registerOpened cfg.server s.data msg fd)).talk cfg k = { s.talk cfg k with
          flight := (s.queue (some k)).map .answered ++
            .answered (registerResponse cfg.server msg session) ::
              ((s.queue none).filter (requestOf (cfg.pid k))).map .asked
          registered := cfg.pid k ∈
            (entries (registerOpened cfg.server s.data msg fd).1).map Prod.fst } := by
      rw [if_pos rfl] at hafter
      exact Talk.ext rfl rfl hafter rfl (propext (iff_of_false hfailed' hfailed))
    rw [htalk]
    exact hmove
  · have hpid' : cfg.pid k ≠ cfg.pid i := fun heq => hki (hinj heq)
    have hsame : ((s.setFd fd (some (some k))).goOn
        (registerOpened cfg.server s.data msg fd)).talk cfg i = s.talk cfg i := by
      refine talk_same rfl rfl ?_ ?_ (iff_of_false hfailed' hfailed)
      · rw [hafter, if_neg hki, flight_eq cfg s, hpc, hand, hpid, if_neg hpid']
      · exact hdata.mem_iff (hpid ▸ hpid')
    rw [hsame]

/-- A response goes from the server's hand to the queue of its client. -/
theorem talk_send (h : SysInv cfg s) {qid : ℤ} {msg : Message} {pc : ServerPc} {q : Option ι}
    (hpc : s.pc.sends = some (qid, msg, pc)) (hfd : s.fds qid = some q) :
    { s.enqueue q msg with pc := pc }.talk cfg i = s.talk cfg i := by
  obtain ⟨hrun, hrun', -⟩ := sends_running hpc
  obtain ⟨j, hj⟩ := (h.fds hrun).of_sends hpc
  obtain rfl : q = some j := Option.some.inj (hfd.symm.trans hj)
  obtain ⟨hbefore, hafter⟩ := hand_of_sends cfg s.fds i hpc
  refine talk_same rfl rfl ?_ Iff.rfl (iff_of_false (not_failed hrun'.2) (not_failed hrun.2))
  have hnone : Function.update s.queue (some j) (s.queue (some j) ++ [msg]) none = s.queue none :=
    -- what was in hand is in the queue now
    Function.update_of_ne (Option.some_ne_none j).symm ..
  have hflight : { s.enqueue (some j) msg with pc := pc }.flight cfg i =
      (Function.update s.queue (some j) (s.queue (some j) ++ [msg]) (some i)).map .answered ++
        ((s.queue none).filter (requestOf (cfg.pid i))).map .asked := by
    rw [← hnone]
    show _ ++ (hand cfg s.fds i pc ++ _) = _
    rw [hafter]
    rfl
  rw [hflight, flight_eq, hbefore, toClient, hfd]
  by_cases hji : j = i
  · subst hji
    simp
  · have hne : some i ≠ some j := fun heq => hji (Option.some.inj heq).symm
    have hne' : some (some j) ≠ some (some i) := fun heq => hne (Option.some.inj heq).symm
    rw [Function.update_of_ne hne, if_neg hne', List.nil_append]

/-- The server closes a descriptor, and may forget a client. -/
theorem talk_close (h : SysInv cfg s) (hquit : QuitInv cfg s) {qid : ℤ} {d : ServerData}
    (hpc : s.pc.closes s.data = some (qid, d)) :
    Relation.ReflGen (Talk.Move (terms cfg.server)) (s.talk cfg i)
      (((s.setFd qid none).goOn (d, .top)).talk cfg i) := by
  obtain ⟨hrun, -⟩ := closes_running hpc
  have hflight : ((s.setFd qid none).goOn (d, .top)).flight cfg i = s.flight cfg i := by
    rw [flight_eq cfg s, hand_of_closes hpc]
    rfl
  have hfailed : ((s.setFd qid none).goOn (d, .top)).pc.Failed ↔ s.pc.Failed :=
    iff_of_false (not_failed rfl) (not_failed hrun.2)
  cases hcases : s.pc with
  | closeRefused qid' =>
    rw [hcases] at hpc
    obtain ⟨-, rfl⟩ := by simpa [ServerPc.closes] using hpc
    have hsame : ((s.setFd qid none).goOn (s.data, .top)).talk cfg i = s.talk cfg i :=
      talk_same rfl rfl hflight Iff.rfl hfailed
    rw [hsame]
  | quit k =>
    -- the client whose entry goes has left, which is why it may be forgotten
    have hk := (h.fds hrun).found k hcases
    have hcount := (h.fds hrun).count_nonneg
    rw [hcases] at hpc
    obtain ⟨-, rfl⟩ := by simpa [ServerPc.closes] using hpc
    by_cases hpid : (s.data.clientsData k).1 = cfg.pid i
    · have hleft := hquit.handled k hcases i hpid
      have htalk : ((s.setFd qid none).goOn (quitClosed s.data k, .top)).talk cfg i =
          { s.talk cfg i with
            registered := cfg.pid i ∈ (entries (quitClosed s.data k)).map Prod.fst } :=
        Talk.ext rfl rfl hflight rfl (propext hfailed)
      rw [htalk]
      exact .single (.forget _ hleft)
    · have hlen := length_entries s.data
      have hlt : k < (entries s.data).length := by omega
      -- another client's entry stays, since the pids differ
      have hget : (entries s.data)[k] = s.data.clientsData k := by simp [entries]
      have hperm := (List.getElem_cons_eraseIdx_perm hlt).map Prod.fst
      have hreg : cfg.pid i ∈ (entries (quitClosed s.data k)).map Prod.fst ↔
          cfg.pid i ∈ (entries s.data).map Prod.fst := by
        rw [entries_quitClosed hk, ← hperm.mem_iff, List.map_cons, List.mem_cons, hget]
        exact (or_iff_right fun heq => hpid heq.symm).symm
      have hsame : ((s.setFd qid none).goOn (quitClosed s.data k, .top)).talk cfg i =
          s.talk cfg i := talk_same rfl rfl hflight hreg hfailed
      rw [hsame]
  | _ =>
    rw [hcases] at hpc
    exact absurd hpc (Option.some_ne_none _).symm

/-- The server closes its queue after `exit`. -/
theorem talk_closing (cfg : Config ι) (i : ι) (pc : ServerPc) {status : ℤ}
    (hpc : s.pc.status = some status) (hpc' : pc.status = some status) (fds : ℤ → Option (Option ι))
    (link : List UInt8 → Option (Option ι)) :
    { s with fds := fds, link := link, pc := pc }.talk cfg i = s.talk cfg i := by
  refine talk_same rfl rfl ?_ Iff.rfl ?_
  · rw [flight_eq, flight_eq, hand_of_status hpc, hand_of_status hpc']
  · simp only [ServerPc.Failed, hpc, hpc']

/-- The server goes on with nothing in its hand, before and after. -/
theorem talk_idle (cfg : Config ι) (s : Sys ι) (i : ι) (pc : ServerPc) (d : ServerData)
    (hpc : hand cfg s.fds i s.pc = []) (hstatus : ¬s.pc.Failed)
    (hpc' : ∀ fds, hand cfg fds i pc = []) (hstatus' : ¬pc.Failed)
    (hd : entries d = entries s.data) (fds : ℤ → Option (Option ι))
    (link : List UInt8 → Option (Option ι)) :
    { s with fds := fds, link := link, data := d, pc := pc }.talk cfg i = s.talk cfg i := by
  refine talk_same rfl rfl ?_ (iff_of_eq (by rw [← hd])) (iff_of_false hstatus' hstatus)
  rw [flight_eq, flight_eq, hpc, hpc']

theorem talk_server (h : SysInv cfg s) (hquit : QuitInv cfg s)
    (hinj : Function.Injective cfg.pid) (hdoes : ServerDoes cfg s s') :
    Relation.ReflGen (Talk.Move (terms cfg.server)) (s.talk cfg i) (s'.talk cfg i) := by
  -- every failure of the server is the same move in the talk
  have hexit : Talk.Move (terms cfg.server) (s.talk cfg i) ((s.exitServer (-1)).talk cfg i) :=
    talk_fail (exit_status s.data (-1)) (by decide) s.data rfl s.interrupted
  cases hdoes with
  | create fd q hpc hfd hq =>
    have hsame := talk_idle cfg s i .top { s.data with queueDesc := fd }
      (by rw [hpc]; rfl) (not_failed (by rw [hpc]; rfl))
      (fun _ => rfl) (not_failed rfl) rfl (Function.update s.fds fd (some q))
      (Function.update s.link serverPath (some q))
    exact hsame ▸ .refl
  | wait hpc =>
    have hsame := talk_idle cfg s i .receive s.data
      (by rw [hpc]; rfl) (not_failed (by rw [hpc]; rfl)) (fun _ => rfl) (not_failed rfl) rfl
      s.fds s.link
    exact hsame ▸ .refl
  | finish q hpc hactive hfd hempty =>
    have hstatus := exit_status s.data 0
    have hnot : ¬(exit s.data 0).Failed := by
      rintro ⟨status, hstatus', hne⟩
      exact hne (Option.some.inj (hstatus'.symm.trans hstatus))
    have hsame := talk_idle cfg s i (exit s.data 0) s.data
      (by rw [hpc]; rfl) (not_failed (by rw [hpc]; rfl)) (fun _ => hand_of_status hstatus) hnot
      rfl s.fds s.link
    exact hsame ▸ .refl
  | receive clock q m ms hpc hfd hq =>
    have hfds := h.fds (.of_eq hpc ServerPc.noConfusion rfl)
    obtain rfl := hfds.public_eq hfd
    exact talk_receive h hinj hpc hq (hfds.dispatched cfg.server clock m)
  | openClient fd msg q hpc hlink hfd => exact talk_openClient h hinj hpc hlink
  | send qid msg pc q hpc hfd hroom => exact (talk_send h hpc hfd) ▸ .refl
  | close qid d q hpc hfd => exact talk_close h hquit hpc
  | missing msg hpc hlink => exact .single hexit
  | badPublic hpc hfd => exact .single hexit
  | badSend qid msg pc hpc hfd => exact .single hexit
  | badClose qid d hpc hfd => exact .single hexit
  | closing status fd pc hpc hpc' =>
    exact (talk_closing cfg i pc hpc hpc' (Function.update s.fds fd none) s.link) ▸ .refl
  | unlink status hpc =>
    have hsame := talk_closing (s := s) cfg i (.gone status) (by rw [hpc]; rfl) rfl s.fds
      (Function.update s.link serverPath none)
    exact hsame ▸ .refl

end Server

/-! ### Steps of a client -/

/-- A `QUIT` is sent by a client that is past `exit`. -/
theorem left_of_tells {cfg : Config ι} {s : Sys ι} {i : ι} (h : ClientInv cfg i (s.client i))
    {msg : Message} {pc : ClientPc} (hpc : ClientPc.tells cfg i (s.client i) = some (msg, pc))
    (htype : msg.type = typeQuit) :
    (s.client i).pc.phase = .left := by
  rcases tells_pc hpc with ⟨hsend, -⟩ | ⟨status, hsend, -⟩
  · simp only [ClientPc.tells, hsend, Option.some.injEq, Prod.mk.injEq] at hpc
    obtain ⟨rfl, -⟩ := hpc
    exact absurd htype (h.asks false hsend).2
  · rw [hsend]
    rfl

/-- The queue that a client receives from is its own. -/
theorem priv_own {cfg : Config ι} {s : Sys ι} {i : ι} (h : SysInv cfg s)
    (hinj : Function.Injective cfg.pid) {q : Option ι} (hpriv : (s.client i).privQid = some q) :
    q = some i := by
  obtain ⟨j, rfl, hj⟩ := (h.client i).priv q hpriv
  rw [hinj hj]

section Client

variable [DecidableEq ι] {cfg : Config ι} {s s' : Sys ι} {i j : ι}

theorem setClient_of_ne (hij : i ≠ j) (c : Client ι) :
    (s.setClient j c).client i = s.client i := Function.update_of_ne hij ..

theorem talk_setClient_of_ne (cfg : Config ι) (hij : i ≠ j) (c : Client ι)
    (link : List UInt8 → Option (Option ι)) :
    { s.setClient j c with link := link }.talk cfg i = s.talk cfg i := by
  have hclient := setClient_of_ne (s := s) hij c
  exact talk_same (congrArg (fun c : Client ι => c.pc.phase) hclient) rfl rfl Iff.rfl Iff.rfl

/-- A message that another client places in the public queue. -/
theorem flight_clientPut_of_ne (hinj : Function.Injective cfg.pid) (hij : i ≠ j) {msg : Message}
    {answered : Bool} (hmsg : Asks (cfg.pid j) answered msg) (pc : ClientPc) :
    (s.clientPut j none msg pc).flight cfg i = s.flight cfg i := by
  have hnone : Function.update s.queue none (s.queue none ++ [msg]) none = s.queue none ++ [msg] :=
    Function.update_self ..
  have hsome : Function.update s.queue none (s.queue none ++ [msg]) (some i) = s.queue (some i) :=
    Function.update_of_ne (Option.some_ne_none i) ..
  have hreq : requestOf (cfg.pid i) msg = false := by
    rw [← Bool.not_eq_true, requestOf_asks hmsg]
    exact fun hpid => hij (hinj hpid.1).symm
  have hfilter : (s.queue none ++ [msg]).filter (requestOf (cfg.pid i)) =
      (s.queue none).filter (requestOf (cfg.pid i)) := by
    simp [hreq]
  rw [flight_eq cfg s, ← hfilter, ← hnone, ← hsome]
  rfl

theorem talk_elsewhere (h : SysInv cfg s) (hinj : Function.Injective cfg.pid) (hij : i ≠ j)
    (hdoes : ClientDoes cfg j s s') : s'.talk cfg i = s.talk cfg i := by
  -- the public queue has one message more, of no interest to the client `i`
  have hput : ∀ {msg answered} (pc : ClientPc), Asks (cfg.pid j) answered msg →
      ∀ latest, latest i = s.latest i →
      { s.clientPut j none msg pc with latest := latest }.talk cfg i = s.talk cfg i := by
    intro msg answered pc hmsg latest hlatest
    have hclient := setClient_of_ne (s := s.enqueue none msg) hij
      { s.client j with msg := msg, pc := pc }
    have hflight := flight_clientPut_of_ne (s := s) hinj hij hmsg pc
    exact talk_same (congrArg (fun c : Client ι => c.pc.phase) hclient) hlatest hflight
      Iff.rfl Iff.rfl
  -- a private queue is its owner's only
  have htake : ∀ {q ms} (c : Client ι), (s.client j).privQid = some q →
      ((s.leave q ms).setClient j c).talk cfg i = s.talk cfg i := by
    intro q ms c hpriv
    obtain rfl := priv_own h hinj hpriv
    have hclient := setClient_of_ne (s := s.leave (some j) ms) hij c
    have hne : some i ≠ some j := fun heq => hij (Option.some.inj heq)
    have hsome : Function.update s.queue (some j) ms (some i) = s.queue (some i) :=
      Function.update_of_ne hne ..
    have hnone : Function.update s.queue (some j) ms none = s.queue none :=
      Function.update_of_ne (Option.some_ne_none j).symm ..
    refine talk_same (congrArg (fun c : Client ι => c.pc.phase) hclient) rfl ?_ Iff.rfl Iff.rfl
    rw [flight_eq cfg s, ← hsome, ← hnone]
    rfl
  cases hdoes with
  | noServer hpc hlink => exact talk_setClient_of_ne cfg hij _ s.link
  | openPublic q hpc hlink => exact talk_setClient_of_ne cfg hij _ s.link
  | openPrivate q hpc hlink => exact talk_setClient_of_ne cfg hij _ _
  | ask msg pc q hpc hpub hroom =>
    obtain rfl := (h.client j).pub q hpub
    exact hput pc ((h.client j).of_asks hpc) _ (Function.update_of_ne hij ..)
  | tell msg pc q hpc hpub hroom =>
    obtain rfl := (h.client j).pub q hpub
    exact hput pc ((h.client j).of_tells hpc) s.latest rfl
  | session q m ms hpc hpriv hq => exact htake _ hpriv
  | prompt hpc => exact talk_setClient_of_ne cfg hij _ s.link
  | response q m ms hpc hpriv hq => exact htake _ hpriv
  | closing status pc hpc hpc' => exact talk_setClient_of_ne cfg hij _ s.link
  | unlink status hpc => exact talk_setClient_of_ne cfg hij _ _

/-- A client goes on, and its queues stay as they are. -/
theorem talk_setClient (c : Client ι) (link : List UInt8 → Option (Option ι)) :
    { s.setClient i c with link := link }.talk cfg i =
      { s.talk cfg i with phase := c.pc.phase } := by
  have hclient : (s.setClient i c).client i = c := Function.update_self ..
  exact Talk.ext (congrArg (fun c : Client ι => c.pc.phase) hclient) rfl rfl rfl rfl

theorem talk_setClient_same (cfg : Config ι) (c : Client ι)
    (hphase : c.pc.phase = (s.client i).pc.phase) (link : List UInt8 → Option (Option ι)) :
    { s.setClient i c with link := link }.talk cfg i = s.talk cfg i := by
  rw [talk_setClient, hphase]
  rfl

theorem talk_leave {c : Client ι} (hphase : c.pc.phase = .left)
    (link : List UInt8 → Option (Option ι)) :
    Talk.Move (terms cfg.server) (s.talk cfg i)
      ({ s.setClient i c with link := link }.talk cfg i) := by
  rw [talk_setClient, hphase]
  exact .leave

/-- The client's own message in the public queue. -/
theorem flight_clientPut {msg : Message} {answered : Bool}
    (hmsg : Asks (cfg.pid i) answered msg) (pc : ClientPc) :
    (s.clientPut i none msg pc).flight cfg i =
      s.flight cfg i ++ if answered then [.asked msg] else [] := by
  have hnone : Function.update s.queue none (s.queue none ++ [msg]) none = s.queue none ++ [msg] :=
    Function.update_self ..
  have hsome : Function.update s.queue none (s.queue none ++ [msg]) (some i) = s.queue (some i) :=
    Function.update_of_ne (Option.some_ne_none i) ..
  have hfilter : ((s.queue none ++ [msg]).filter (requestOf (cfg.pid i))).map Slip.asked =
      ((s.queue none).filter (requestOf (cfg.pid i))).map Slip.asked ++
        if answered then [Slip.asked (S := Message) msg] else [] := by
    rw [List.filter_append, List.map_append]
    cases answered with
    | true =>
      rw [List.filter_cons_of_pos ((requestOf_asks hmsg).mpr ⟨rfl, rfl⟩)]
      rfl
    | false =>
      rw [List.filter_cons_of_neg (by rw [requestOf_asks hmsg]; simp)]
      rfl
  rw [flight_eq cfg s, List.append_assoc, List.append_assoc, ← hfilter, ← hnone, ← hsome]
  rfl

/-- What the client asks goes to the public queue. -/
theorem talk_ask (h : SysInv cfg s) {msg : Message} {pc : ClientPc}
    (hpc : ClientPc.asks cfg i (s.client i) = some (msg, pc)) :
    Talk.Move (terms cfg.server) (s.talk cfg i) ({ s.clientPut i none msg pc with
      latest := Function.update s.latest i (some (msg, (s.link serverPath).isSome)) }.talk
        cfg i) := by
  have hflight := flight_clientPut (s := s) ((h.client i).of_asks hpc) pc
  have hclient : (s.clientPut i none msg pc).client i = { s.client i with msg := msg, pc := pc } :=
    Function.update_self ..
  have hlatest : Function.update s.latest i (some (msg, (s.link serverPath).isSome)) i =
      some (msg, (s.link serverPath).isSome) := Function.update_self ..
  have htalk : { s.clientPut i none msg pc with
      latest := Function.update s.latest i (some (msg, (s.link serverPath).isSome)) }.talk cfg i =
        { s.talk cfg i with
          phase := pc.phase
          latest := some msg
          flight := (s.talk cfg i).flight ++ [.asked msg] } :=
    Talk.ext (congrArg (fun c : Client ι => c.pc.phase) hclient)
      (congrArg (Option.map Prod.fst) hlatest) hflight rfl rfl
  rw [htalk]
  unfold ClientPc.asks at hpc
  split at hpc
  · rename_i hsend
    obtain ⟨rfl, rfl⟩ := Prod.mk.inj (Option.some.inj hpc)
    exact .join _ (congrArg ClientPc.phase hsend) rfl
  · rename_i hsend
    obtain ⟨rfl, rfl⟩ := Prod.mk.inj (Option.some.inj hpc)
    exact .ask _ (congrArg ClientPc.phase hsend)
  · exact absurd hpc (Option.some_ne_none _).symm

theorem talk_tell (h : SysInv cfg s) {msg : Message} {pc : ClientPc}
    (hpc : ClientPc.tells cfg i (s.client i) = some (msg, pc)) :
    (s.clientPut i none msg pc).talk cfg i = s.talk cfg i := by
  have hflight := flight_clientPut (s := s) ((h.client i).of_tells hpc) pc
  have hclient : (s.clientPut i none msg pc).client i = { s.client i with msg := msg, pc := pc } :=
    Function.update_self ..
  have hphase : pc.phase = (s.client i).pc.phase := by
    rcases tells_pc hpc with ⟨hpc', rfl⟩ | ⟨status, hpc', rfl⟩
    · rw [hpc']
      rfl
    · rw [hpc']
      rfl
  refine talk_same ((congrArg (fun c : Client ι => c.pc.phase) hclient).trans hphase) rfl ?_
    Iff.rfl Iff.rfl
  simpa using hflight

/-- The client takes a response from its queue. -/
theorem talk_take (cfg : Config ι) (c : Client ι) {m : Message} {ms : List Message}
    (hq : s.queue (some i) = m :: ms) : ∃ slips,
      (s.talk cfg i).flight = .answered m :: slips ∧
        ((s.leave (some i) ms).setClient i c).talk cfg i =
          { s.talk cfg i with phase := c.pc.phase, flight := slips } := by
  have hclient : ((s.leave (some i) ms).setClient i c).client i = c := Function.update_self ..
  have hsome : Function.update s.queue (some i) ms (some i) = ms := Function.update_self ..
  have hnone : Function.update s.queue (some i) ms none = s.queue none :=
    Function.update_of_ne (Option.some_ne_none i).symm ..
  refine ⟨ms.map .answered ++ (hand cfg s.fds i s.pc ++
    ((s.queue none).filter (requestOf (cfg.pid i))).map .asked), ?_, ?_⟩
  · show s.flight cfg i = _
    rw [flight_eq, hq]
    rfl
  · refine Talk.ext (congrArg (fun c : Client ι => c.pc.phase) hclient) rfl ?_ rfl rfl
    show ((s.leave (some i) ms).setClient i c).flight cfg i = _
    rw [← hnone]
    -- the flight begins with the private queue
    conv_rhs => rw [← hsome]
    rfl

theorem talk_own (h : SysInv cfg s) (hinj : Function.Injective cfg.pid)
    (hdoes : ClientDoes cfg i s s') :
    Relation.ReflGen (Talk.Move (terms cfg.server)) (s.talk cfg i) (s'.talk cfg i) := by
  cases hdoes with
  | noServer hpc hlink => exact .single (talk_leave (phase_exitClient _ (-1)) s.link)
  | openPublic q hpc hlink =>
    have hsame := talk_setClient_same cfg
      { s.client i with pubQid := some q, pc := .openPrivate } (by rw [hpc]; rfl) s.link
    exact hsame ▸ .refl
  | openPrivate q hpc hlink =>
    have hsame := talk_setClient_same cfg
      { s.client i with privQid := some q, pc := .sendRegister } (by rw [hpc]; rfl)
      (Function.update s.link (clientPath (cfg.pid i)) (some q))
    exact hsame ▸ .refl
  | ask msg pc q hpc hpub hroom =>
    obtain rfl := (h.client i).pub q hpub
    exact .single (talk_ask h hpc)
  | tell msg pc q hpc hpub hroom =>
    obtain rfl := (h.client i).pub q hpub
    exact talk_tell h hpc ▸ .refl
  | session q m ms hpc hpriv hq =>
    obtain rfl := priv_own h hinj hpriv
    obtain ⟨slips, hflight, htalk⟩ :=
      talk_take cfg (readSession cfg i (s.client i) m) hq
    rw [htalk]
    refine .single ?_
    -- turned away, or let in
    rcases phase_readSession cfg i (s.client i) m with ⟨hphase, hgrants⟩ | hphase
    · rw [hphase]
      exact .enter m slips (congrArg ClientPc.phase hpc) hflight hgrants
    · rw [hphase]
      exact .turnAway m slips hflight
  | prompt hpc =>
    rcases phase_readCommand (cfg.pid i) hpc with hphase | hphase
    · have hsame := talk_setClient_same cfg
        (readCommand (cfg.pid i) (s.client i)) (by rw [hphase, hpc]; rfl) s.link
      exact hsame ▸ .refl
    · exact .single (talk_leave hphase s.link)
  | response q m ms hpc hpriv hq =>
    obtain rfl := priv_own h hinj hpriv
    obtain ⟨slips, hflight, htalk⟩ :=
      talk_take cfg { s.client i with msg := m, pc := .prompt } hq
    rw [htalk]
    exact .single (.receive m slips (congrArg ClientPc.phase hpc) hflight)
  | closing status pc hpc hpc' =>
    have hsame := talk_setClient_same cfg { s.client i with pc := pc } (by
        rw [phase_of_status hpc]
        exact phase_of_status hpc') s.link
    exact hsame ▸ .refl
  | unlink status hpc =>
    have hsame := talk_setClient_same cfg { s.client i with pc := .gone status } (by rw [hpc]; rfl)
      (Function.update s.link (clientPath (cfg.pid i)) none)
    exact hsame ▸ .refl

end Client

/-! ### All steps -/

section Steps

variable [DecidableEq ι] {cfg : Config ι} {s s' : Sys ι} {e : Event ι}

/-- **A step of the system is at most one move in each of the talks.** -/
theorem talk_step (h : SysInv cfg s) (hquit : QuitInv cfg s) (hinj : Function.Injective cfg.pid)
    (hstep : (system cfg).step e s = some s') (i : ι) :
    Relation.ReflGen (Talk.Move (terms cfg.server)) (s.talk cfg i) (s'.talk cfg i) := by
  cases does hstep with
  | server fd clock hdoes => exact talk_server h hquit hinj hdoes
  | interruptServer hpc =>
    exact .single (talk_fail (exit_status s.data 2) (by decide) _ rfl true)
  | client j hdoes =>
    by_cases hij : i = j
    · subst hij
      exact talk_own h hinj hdoes
    · exact talk_elsewhere h hinj hij hdoes ▸ .refl
  | interruptClient j hpc =>
    by_cases hij : i = j
    · subst hij
      exact .single (talk_leave (phase_exitClient _ 2) s.link)
    · exact talk_setClient_of_ne cfg hij (exitClient (s.client j) 2) s.link ▸ .refl

theorem left_step (h : SysInv cfg s) (hquit : QuitInv cfg s) (hinj : Function.Injective cfg.pid)
    (hstep : (system cfg).step e s = some s') {i : ι}
    (hleft : (s.client i).pc.phase = .left) : (s'.client i).pc.phase = .left := by
  have hmove := talk_step h hquit hinj hstep i
  have hleft' : (s'.talk cfg i).phase = .left := by
    rcases (Relation.reflGen_iff _ _ _).mp hmove with heq | hmove
    · rw [heq]
      exact hleft
    · exact hmove.left hleft
  exact hleft'

/-- Only clients that have left send a `QUIT`. -/
theorem quit_sent (h : SysInv cfg s) (hstep : (system cfg).step e s = some s') {m : Message}
    (hm : m ∈ s'.queue none) (htype : m.type = typeQuit) :
    m ∈ s.queue none ∨ ∃ i, m.senderPid = cfg.pid i ∧ (s.client i).pc.phase = .left := by
  -- only QUITs that clients send get into the public queue
  have hput : ∀ msg, m ∈ Function.update s.queue none (s.queue none ++ [msg]) none →
      m ∈ s.queue none ∨ m = msg := by
    intro msg hm
    rwa [Function.update_self, List.mem_append, List.mem_singleton] at hm
  have htake : ∀ {q : Option ι} {ms : List Message} {c : Client ι} {i : ι}, q ≠ none →
      m ∈ ((s.leave q ms).setClient i c).queue none → m ∈ s.queue none := by
    intro q ms c i hq hm
    have hqueue : ((s.leave q ms).setClient i c).queue none = s.queue none :=
      Function.update_of_ne hq.symm ..
    exact hqueue ▸ hm
  cases does hstep with
  | server fd clock hdoes =>
    refine .inl ?_
    cases hdoes with
    | receive clock' q m' ms hpc hfd hq =>
      have hfds := h.fds (.of_eq hpc ServerPc.noConfusion rfl)
      obtain rfl := hfds.public_eq hfd
      have hqueue : Function.update s.queue none ms none = ms := Function.update_self ..
      have hm' : m ∈ Function.update s.queue none ms none := hm
      rw [hqueue] at hm'
      rw [hq]
      exact List.mem_cons_of_mem m' hm'
    | send qid msg pc q hpc hfd hroom =>
      obtain ⟨j, hj⟩ := (h.fds (sends_running hpc).1).of_sends hpc
      obtain rfl : q = some j := Option.some.inj (hfd.symm.trans hj)
      have hqueue : Function.update s.queue (some j) (s.queue (some j) ++ [msg]) none =
          s.queue none := Function.update_of_ne (Option.some_ne_none j).symm ..
      exact hqueue ▸ hm
    | _ => exact hm
  | interruptServer hpc => exact .inl hm
  | client i hdoes =>
    cases hdoes with
    | ask msg pc q hpc hpub hroom =>
      obtain rfl := (h.client i).pub q hpub
      have hasks := (h.client i).of_asks hpc
      rcases hput msg hm with hm | rfl
      · exact .inl hm
      · exact absurd htype (type_of_request hasks.type).2
    | tell msg pc q hpc hpub hroom =>
      obtain rfl := (h.client i).pub q hpub
      have hasks := (h.client i).of_tells hpc
      rcases hput msg hm with hm | rfl
      · exact .inl hm
      · exact .inr ⟨i, hasks.sender, left_of_tells (h.client i) hpc htype⟩
    | session q m' ms hpc hpriv hq =>
      obtain ⟨j, rfl, -⟩ := (h.client i).priv q hpriv
      exact .inl (htake (Option.some_ne_none j) hm)
    | response q m' ms hpc hpriv hq =>
      obtain ⟨j, rfl, -⟩ := (h.client i).priv q hpriv
      exact .inl (htake (Option.some_ne_none j) hm)
    | _ => exact .inl hm
  | interruptClient i hpc => exact .inl hm

/-- The server handles a `QUIT` that it has received. -/
theorem quit_handled (h : SysInv cfg s) (hstep : (system cfg).step e s = some s') {k : ℕ}
    (hpc' : s'.pc = .quit k) : (s.pc = .quit k ∧ s'.data = s.data) ∨
      ∃ m ∈ s.queue none, m.type = typeQuit ∧ (s'.data.clientsData k).1 = m.senderPid := by
  cases does hstep with
  | server fd clock hdoes =>
    have hexit : ∀ status, exit s.data status ≠ .quit k := fun status heq =>
      nomatch (exit_status s.data status).symm.trans (congrArg ServerPc.status heq)
    cases hdoes with
    | receive clock' q m ms hpc hfd hq =>
      have hfds := h.fds (.of_eq hpc ServerPc.noConfusion rfl)
      obtain rfl := hfds.public_eq hfd
      have hp := hfds.dispatched cfg.server clock' m
      have hp' : (dispatchRequest cfg.server clock'.1 s.data m).2 = .quit k := hpc'
      show _ ∨ ∃ m' ∈ s.queue none, m'.type = typeQuit ∧
        ((dispatchRequest cfg.server clock'.1 s.data m).1.clientsData k).1 = m'.senderPid
      refine .inr ⟨m, by rw [hq]; exact List.mem_cons_self, ?_⟩
      generalize dispatchRequest cfg.server clock'.1 s.data m = p at hp hp'
      -- of the messages dispatched only a QUIT leads there
      cases hp with
      | quit htype hfind =>
        obtain rfl := ServerPc.quit.inj hp'
        exact ⟨htype, find_spec hfind⟩
      | _ => cases hp'
    | openClient fd' msg q hpc hlink hfd =>
      have hp' : (registerOpened cfg.server s.data msg fd').2 = .quit k := hpc'
      unfold registerOpened at hp'
      split at hp'
      · cases hp'
      · cases hp'
    | send qid msg pc q hpc hfd hroom => exact absurd hpc' ((sends_running hpc).2.2.2 k)
    | create fd' q hpc hfd hq => cases hpc'
    | wait hpc => cases hpc'
    | close qid d q hpc hfd => cases hpc'
    | closing status fd' pc hpc hpc'' =>
      exact nomatch hpc''.symm.trans (congrArg ServerPc.status hpc')
    | unlink status hpc => cases hpc'
    | _ => exact absurd hpc' (hexit _)
  | interruptServer hpc =>
    exact nomatch (exit_status s.data 2).symm.trans (congrArg ServerPc.status hpc')
  | client i hdoes => cases hdoes <;> exact .inl ⟨hpc', rfl⟩
  | interruptClient i hpc => exact .inl ⟨hpc', rfl⟩

theorem quitInv_step (h : SysInv cfg s) (hquit : QuitInv cfg s)
    (hinj : Function.Injective cfg.pid) (hstep : (system cfg).step e s = some s') :
    QuitInv cfg s' where
  sent m hm htype i hpid := by
    refine left_step h hquit hinj hstep ?_
    rcases quit_sent h hstep hm htype with hm | ⟨j, hj, hleft⟩
    · exact hquit.sent m hm htype i hpid
    · rwa [hinj (hpid.symm.trans hj)]
  handled k hpc' i hpid := by
    refine left_step h hquit hinj hstep ?_
    rcases quit_handled h hstep hpc' with ⟨hpc, hdata⟩ | ⟨m, hm, htype, hsender⟩
    · exact hquit.handled k hpc i (hdata ▸ hpid)
    · exact hquit.sent m hm htype i (hsender.symm.trans hpid)

/-- What holds in every state if the pids are distinct. -/
structure TalkInv (cfg : Config ι) (s : Sys ι) : Prop where
  sys : SysInv cfg s
  quit : QuitInv cfg s
  orderly : ∀ i, (s.talk cfg i).Orderly (terms cfg.server)

theorem talkInv_step (h : TalkInv cfg s) (hinj : Function.Injective cfg.pid)
    (hstep : (system cfg).step e s = some s') : TalkInv cfg s' where
  sys := sysInv_step h.sys hstep
  quit := quitInv_step h.sys h.quit hinj hstep
  orderly i := by
    rcases (Relation.reflGen_iff _ _ _).mp (talk_step h.sys h.quit hinj hstep i) with heq | hmove
    · rw [heq]
      exact h.orderly i
    · exact (h.orderly i).move hmove

theorem talkInv_start : TalkInv cfg cfg.start where
  sys := sysInv_start
  quit := ⟨fun _ hm => absurd hm List.not_mem_nil, fun _ hpc => nomatch hpc⟩
  orderly _ := Talk.orderly_outside rfl rfl

end Steps

end Posix
end MsgQueue
end OpSys
