import OpSys.MsgQueue.Posix.Talks
import OpSys.MsgQueue.SystemV.Queues

/-!
# The clients' talks with System V queues

As with POSIX queues every client talks to the server one request at a time, as long
as the queues are apart.  Here nobody is forgotten, and what is in the public queue
when the server removes it is lost.

## Main definitions

* `Sys.flight`, `Sys.talk` — what is under way for a client, and what is known of it.
* `Sys.Failed` — the server has lost something.
* `TalkInv` — the queues are apart, and the talks are orderly.

## Main results

* `talk_step` — a step of the system is at most one move in each of the talks.
* `talkInv_run` — the invariant along every run.

## References

`lab5_message_queues/SystemV/server.c`, `lab5_message_queues/SystemV/client.c`.
-/

namespace OpSys
namespace MsgQueue
namespace SystemV

open Stdio Ipc
open Posix (ServerData entries terms Admitted)

variable {ι : Type*}

/-- What the client is about. -/
def ClientPc.phase : ClientPc → Phase
  | openPublic => .outside
  | openPrivate => .outside
  | sendRegister => .outside
  | receiveSession => .joining
  | prompt => .ready
  | sendRequest _ => .ready
  | receiveResponse => .asking
  | _ => .left

/-- The server has failed, `SIGINT` has reached it, or messages were left in its queue. -/
def Sys.Failed (s : Sys ι) : Prop :=
  ∃ status, s.pc.status = some status ∧
    (status ≠ 0 ∨ s.pc = .gone status ∧ s.accepted.length ≠ s.dispatched.length)

section Talk

variable [DecidableEq ι]

/-- A message to which the client `i` awaits the response. -/
def requestOf (i : ι) (p : Packet ι) : Bool :=
  p.origin = i ∧
    (p.msg.type = typeRegister ∨ p.msg.type = typeMirror ∨ p.msg.type = typeTime)

/-- What the server has in its hand for the client `i`. -/
def hand (i : ι) : ServerPc ι → List (Slip Message Message)
  | .register p => if p.origin = i then [.asked p.msg] else []
  | .send _ p => if p.origin = i then [.answered p.msg] else []
  | _ => []

/-- What is under way for the client `i`, given the contents of the queues. -/
def slips (i : ι) (inbox requests : List (Packet ι)) (pc : ServerPc ι) :
    List (Slip Message Message) :=
  inbox.map (fun p => .answered p.msg) ++
    (hand i pc ++ (requests.filter (requestOf i)).map fun p => .asked p.msg)

/-- What is under way for the client `i`. -/
def Sys.flight (s : Sys ι) (i : ι) : List (Slip Message Message) :=
  slips i (s.inbox i) s.requests s.pc

/-- The client `i`, and what the server knows about it. -/
def Sys.talk (cfg : Config ι) (s : Sys ι) (i : ι) : Talk Message Message where
  phase := (s.client i).pc.phase
  latest := s.latest i
  flight := s.flight i
  registered := cfg.pid i ∈ (entries s.data).map Prod.fst
  failed := s.Failed

end Talk

/-! ### Phases -/

theorem phase_of_status {pc : ClientPc} {status : ℤ} (h : pc.status = some status) :
    pc.phase = .left := by
  cases pc with
  | remove status' => rfl
  | gone status' => rfl
  | _ => exact absurd h (Option.some_ne_none _).symm

@[simp] theorem phase_exitClient (c : Client) (status : ℤ) :
    (exitClient c status).pc.phase = .left :=
  phase_of_status (exitClient_status c status)

/-- A round of the loop ends with the next one, with a request, or with `exit`. -/
theorem phase_readCommand (pid : ℤ) {c : Client} (hpc : c.pc = .prompt) :
    (readCommand pid c).pc.phase = .ready ∨ (readCommand pid c).pc.phase = .left := by
  unfold readCommand
  cases prompt pid c.msg c.stdin with
  | again msg stdin => exact .inl (by rw [hpc]; rfl)
  | ask answered msg stdin => exact .inl rfl
  | quit stdin => exact .inr (phase_exitClient _ 0)

theorem phase_readSession (server : ℤ) (junk : List UInt8) (c : Client) (resp : Message) :
    ((readSession junk c resp).pc.phase = .ready ∧ (terms server).grants resp) ∨
      (readSession junk c resp).pc.phase = .left := by
  unfold readSession
  cases hscan : scanInt resp.content with
  | value n =>
    simp only
    split
    · exact .inr (phase_exitClient _ (-1))
    · rename_i hn
      exact .inl ⟨rfl, n, by omega, hscan⟩
  | noMatch => exact .inr (phase_exitClient _ (-1))
  | eof => exact .inr (phase_exitClient _ (-1))

/-! ### Slips -/

section Slips

variable [DecidableEq ι] {i : ι} {pc : ServerPc ι} {inbox requests : List (Packet ι)}

theorem requestOf_asks {pid : ℤ} {answered : Bool} {p : Packet ι} (h : Asks pid answered p.msg) :
    requestOf i p = true ↔ p.origin = i ∧ answered = true := by
  have htype := h.type
  rw [requestOf, decide_eq_true_iff]
  cases answered with
  | true => simpa using fun _ => htype
  | false =>
    have hne : ∀ t, t = typeEnd ∨ t = typeQuit →
        ¬(t = typeRegister ∨ t = typeMirror ∨ t = typeTime) := by
      rintro t (rfl | rfl)
      · decide
      · decide
    simpa using fun _ => by simpa using hne p.msg.type (by simpa using htype)

@[simp] theorem hand_top : hand i .top = [] := rfl

@[simp] theorem hand_send (qid : ℤ) (p : Packet ι) :
    hand i (.send qid p) = if p.origin = i then [.answered p.msg] else [] := rfl

theorem hand_of_status {status : ℤ} (h : pc.status = some status) : hand i pc = [] := by
  cases pc with
  | register p => cases h
  | send qid p => cases h
  | _ => rfl

/-- With nothing in its hand for the client, the place of the server does not matter. -/
theorem slips_of_hand {pc' : ServerPc ι} (hpc : hand i pc = []) (hpc' : hand i pc' = []) :
    slips i inbox requests pc' = slips i inbox requests pc := by
  rw [slips, slips, hpc, hpc']

/-- A new message in the public queue. -/
theorem slips_asked {pid : ℤ} {answered : Bool} {p : Packet ι} (h : Asks pid answered p.msg) :
    slips i inbox (requests ++ [p]) pc = slips i inbox requests pc ++
      if p.origin = i ∧ answered = true then [.asked p.msg] else [] := by
  have hfilter : (requests ++ [p]).filter (requestOf i) = requests.filter (requestOf i) ++
      if p.origin = i ∧ answered = true then [p] else [] := by
    rw [List.filter_append]
    congr 1
    split
    · rename_i hasks
      exact List.filter_cons_of_pos ((requestOf_asks h).mpr hasks)
    · rename_i hasks
      exact List.filter_cons_of_neg (mt (requestOf_asks h).mp hasks)
  rw [slips, hfilter, List.map_append, slips, List.append_assoc, List.append_assoc]
  congr 3
  split
  · rfl
  · rfl

end Slips

/-! ### Steps of the server -/

section Server

variable [DecidableEq ι] {cfg : Config ι} {s s' : Sys ι} {i : ι}

omit [DecidableEq ι] in
theorem not_failed (h : s.pc.status = none) : ¬s.Failed := by
  rintro ⟨status, hstatus, -⟩
  exact Option.some_ne_none _ (hstatus.symm.trans h)

/-- The client `i` notices nothing. -/
theorem talk_same (hclient : (s'.client i).pc.phase = (s.client i).pc.phase)
    (hlatest : s'.latest i = s.latest i) (hflight : s'.flight i = s.flight i)
    (hreg : cfg.pid i ∈ (entries s'.data).map Prod.fst ↔
      cfg.pid i ∈ (entries s.data).map Prod.fst)
    (hfailed : s'.Failed ↔ s.Failed) : s'.talk cfg i = s.talk cfg i := by
  simp only [Sys.talk, hclient, hlatest, hflight, hreg, hfailed]

/-- The server fails, or `SIGINT` reaches it. -/
theorem talk_fail (cfg : Config ι) (s : Sys ι) (i : ι) {status : ℤ} (hstatus : status ≠ 0)
    (interrupted : Bool) :
    Talk.Move (terms cfg.server) (s.talk cfg i)
      ({ s with pc := exit s.data status, interrupted := interrupted }.talk cfg i) := by
  have hpc := exit_status (ι := ι) s.data status
  have hfailed : { s with pc := exit s.data status, interrupted := interrupted }.Failed :=
    ⟨status, hpc, .inl hstatus⟩
  have hsub : ({ s with pc := exit s.data status, interrupted := interrupted }.flight i).Sublist
      (s.flight i) := by
    show (slips i (s.inbox i) s.requests (exit s.data status)).Sublist _
    rw [slips, hand_of_status hpc]
    exact (List.sublist_append_right _ _).append_left _
  exact Talk.Move.lose (T := terms cfg.server) (t := s.talk cfg i)
    ({ s with pc := exit s.data status, interrupted := interrupted }.flight i)
    { s with pc := exit s.data status, interrupted := interrupted }.Failed hsub (.inr hfailed)
    fun _ => hfailed

/-- The server goes on with nothing in its hand, before and after. -/
theorem talk_idle (cfg : Config ι) (s : Sys ι) (i : ι) (pc : ServerPc ι) (hpc : hand i s.pc = [])
    (hfailed : ¬s.Failed) (hpc' : hand i pc = []) (hfailed' : ¬{ s with pc := pc }.Failed) :
    { s with pc := pc }.talk cfg i = s.talk cfg i :=
  talk_same rfl rfl (slips_of_hand hpc hpc') Iff.rfl (iff_of_false hfailed' hfailed)

/-- A message that the client `i` awaits no response to leaves it alone. -/
theorem hand_of_dispatched {d : ServerData} {p : Packet ι} {r : ServerData × ServerPc ι}
    (hr : Dispatched cfg.server d p r) (hreq : requestOf i p = false) : hand i r.2 = [] := by
  have horigin : p.msg.type = typeRegister ∨ p.msg.type = typeMirror ∨ p.msg.type = typeTime →
      p.origin ≠ i := by
    intro htype heq
    have htrue : requestOf i p = true := decide_eq_true ⟨heq, htype⟩
    exact Bool.false_ne_true (hreq.symm.trans htrue)
  cases hr with
  | register htype => exact if_neg (horigin (.inl htype))
  | respond qid resp htype => exact if_neg (horigin (.inr htype))
  | _ => rfl

/-- What `msgrcv` leads to. -/
theorem talk_receive (h : MsgInv cfg s) (hkeys : KeyInv cfg s.kernel s.data.queueDesc s.client)
    (hok : s.kernel.Ok) (hpc : s.pc = .receive) {p : Packet ι} {ps : List (Packet ι)}
    (hslot : s.kernel.slot s.data.queueDesc = .live (p :: ps)) {r : ServerData × ServerPc ι}
    (hr : Dispatched cfg.server s.data p r) :
    Relation.ReflGen (Talk.Move (terms cfg.server)) (s.talk cfg i)
      ({ s.goOn r with
          kernel := s.kernel.write s.data.queueDesc ps
          dispatched := s.dispatched ++ [p] }.talk cfg i) := by
  have hrequests := requests_of_slot hslot
  obtain ⟨answered, hasks⟩ := (h.sent p (by rw [hrequests]; exact List.mem_cons_self)).asks
  -- `dispatch_requests` leaves the entries as they are
  have hentries : entries r.1 = entries s.data := by cases hr <;> rfl
  have hdesc : r.1.queueDesc = s.data.queueDesc := by cases hr <;> rfl
  have hfailed : ¬s.Failed := not_failed (by rw [hpc]; rfl)
  generalize hs' : { s.goOn r with
    kernel := s.kernel.write s.data.queueDesc ps
    dispatched := s.dispatched ++ [p] } = s'
  have hfailed' : ¬s'.Failed := not_failed (by rw [← hs']; cases hr <;> rfl)
  have hbefore : s.flight i = slips i (s.inbox i) (p :: ps) .receive := by
    rw [Sys.flight, hrequests, hpc]
  have hafter : s'.flight i = slips i (s.inbox i) ps r.2 := by
    subst hs'
    show slips i ((s.kernel.write s.data.queueDesc ps).slot (s.client i).privQid).msgs
      ((s.kernel.write s.data.queueDesc ps).slot r.1.queueDesc).msgs r.2 = _
    rw [inbox_write_desc hkeys hok ⟨_, hslot⟩, hdesc, Kernel.write_slot_self]
    rfl
  have hsame : s'.flight i = s.flight i → s'.talk cfg i = s.talk cfg i := by
    intro hflight
    subst hs'
    exact talk_same rfl rfl hflight (iff_of_eq (by rw [← hentries]; rfl))
      (iff_of_false hfailed' hfailed)
  have htalk : ∀ slips, s'.flight i = slips →
      s'.talk cfg i = { s.talk cfg i with flight := slips } := by
    intro slips hslips
    subst hs'
    refine Talk.ext rfl rfl hslips ?_ (propext (iff_of_false hfailed' hfailed))
    simp only [Sys.talk, ← hentries]
    rfl
  -- a message of another client, or none that is answered, moves nothing of this talk
  cases hreq : requestOf i p with
  | false =>
    rw [hsame]
    rw [hafter, hbefore, slips, slips, hand_of_dispatched hr hreq,
      List.filter_cons_of_neg (by simp [hreq])]
    rfl
  | true =>
    obtain ⟨rfl, htype⟩ := of_decide_eq_true hreq
    -- the request is the oldest of its client, behind the responses it has not taken
    have hflight : s.flight p.origin = (s.inbox p.origin).map (fun p => .answered p.msg) ++
        .asked p.msg :: (ps.filter (requestOf p.origin)).map fun p => .asked p.msg := by
      rw [hbefore, slips, List.filter_cons_of_pos hreq]
      rfl
    cases hr with
    | register htype =>
      rw [hsame]
      rw [hafter, hflight, slips, hand, if_pos rfl]
      rfl
    | unknown htype' hunknown =>
      rw [hasks.sender] at hunknown
      rw [htalk _ hafter]
      exact .single (.ignore (T := terms cfg.server) (t := s.talk cfg p.origin) _ _ p.msg hflight
        (Posix.not_register_of_type htype') hunknown)
    | respond qid resp htype' hmem hanswer =>
      rw [slips, hand_send, if_pos rfl] at hafter
      rw [htalk _ hafter]
      exact .single (.answer (T := terms cfg.server) (t := s.talk cfg p.origin) _ _ p.msg resp _
        hflight (hanswer ((em _).imp_left hasks.ends)) id
        fun hjoins => absurd hjoins (Posix.not_register_of_type htype'))
    | finish htype' => exact absurd htype' (Posix.type_of_request htype).1
    | other htype' =>
      rcases htype with htype | htype | htype
      · exact absurd htype htype'.1
      · exact absurd htype htype'.2.1
      · exact absurd htype htype'.2.2.1

/-- `handle_register` answers the client whose queue it has found. -/
theorem talk_openClient (h : MsgInv cfg s) {p : Packet ι} (hpc : s.pc = .register p)
    (hinj : Function.Injective cfg.pid) :
    Relation.ReflGen (Talk.Move (terms cfg.server)) (s.talk cfg i)
      ((s.answerRegister cfg s.kernel (s.client p.origin).privQid p).talk cfg i) := by
  obtain ⟨⟨⟨answered, hasks⟩, -⟩, htype⟩ := h.register p hpc
  have hpid := hasks.sender
  have hdesc := (registerOpened_data cfg.server s.data p.msg (s.client p.origin).privQid).2
  have hfailed : ¬s.Failed := not_failed (by rw [hpc]; rfl)
  have hfailed' : ¬(s.answerRegister cfg s.kernel (s.client p.origin).privQid p).Failed :=
    not_failed rfl
  -- the client is entered under the position before it, or refused with -1
  obtain ⟨session, hresp, hdata⟩ : ∃ session : ℤ,
      (registerOpened cfg.server s.data p.msg (s.client p.origin).privQid).2 =
        registerResponse cfg.server p.msg session ∧
      Admitted s.data (registerOpened cfg.server s.data p.msg (s.client p.origin).privQid).1
        p.msg.senderPid (s.client p.origin).privQid session := by
    rcases registerOpened_cases cfg.server h.data.count_nonneg p.msg (s.client p.origin).privQid
      with heq | ⟨d', heq, hentries, -⟩
    · rw [heq]
      exact ⟨-1, rfl, .inl ⟨rfl, rfl⟩⟩
    · rw [heq]
      exact ⟨s.data.clientCount, rfl, .inr hentries⟩
  have hafter : (s.answerRegister cfg s.kernel (s.client p.origin).privQid p).flight i =
      slips i (s.inbox i) s.requests (.send (s.client p.origin).privQid
        { p with msg := registerResponse cfg.server p.msg session }) := by
    rw [← hresp, Sys.requests, ← hdesc]
    rfl
  by_cases horigin : p.origin = i
  · subst horigin
    refine .single ?_
    have hflight : s.flight p.origin = (s.inbox p.origin).map (fun p => .answered p.msg) ++
        .asked p.msg :: (s.requests.filter (requestOf p.origin)).map fun p => .asked p.msg := by
      rw [Sys.flight, hpc, slips, hand, if_pos rfl]
      rfl
    rw [slips, hand_send, if_pos rfl] at hafter
    have hgrants : (terms cfg.server).grants (registerResponse cfg.server p.msg session) →
        cfg.pid p.origin ∈ (entries (registerOpened cfg.server s.data p.msg
          (s.client p.origin).privQid).1).map Prod.fst :=
      fun hgrants => hpid ▸ hdata.grants rfl hgrants
    have hmove := Talk.Move.answer (T := terms cfg.server) (t := s.talk cfg p.origin) _ _ p.msg
      (registerResponse cfg.server p.msg session) _ hflight (answers_register htype session)
      hdata.keep fun _ => hgrants
    have htalk : (s.answerRegister cfg s.kernel (s.client p.origin).privQid p).talk cfg p.origin =
        { s.talk cfg p.origin with
          flight := (s.inbox p.origin).map (fun p => .answered p.msg) ++
            .answered (registerResponse cfg.server p.msg session) ::
              (s.requests.filter (requestOf p.origin)).map fun p => .asked p.msg
          registered := cfg.pid p.origin ∈ (entries (registerOpened cfg.server s.data p.msg
            (s.client p.origin).privQid).1).map Prod.fst } :=
      Talk.ext rfl rfl hafter rfl (propext (iff_of_false hfailed' hfailed))
    rw [htalk]
    exact hmove
  · have hpid' : cfg.pid p.origin ≠ cfg.pid i := fun heq => horigin (hinj heq)
    have hsame : (s.answerRegister cfg s.kernel (s.client p.origin).privQid p).talk cfg i =
        s.talk cfg i := by
      refine talk_same rfl rfl ?_ ?_ (iff_of_false hfailed' hfailed)
      · rw [hafter, Sys.flight, hpc]
        exact slips_of_hand (if_neg horigin) (if_neg horigin)
      · exact hdata.mem_iff (hpid ▸ hpid')
    rw [hsame]

/-- A response goes from the server's hand to the queue of its client. -/
theorem talk_send (h : MsgInv cfg s) (hkeys : KeyInv cfg s.kernel s.data.queueDesc s.client)
    (hok : s.kernel.Ok) {qid : ℤ} {p : Packet ι} {ps : List (Packet ι)} (hpc : s.pc = .send qid p)
    (hslot : s.kernel.slot qid = .live ps) :
    { s.post (s.kernel.write qid (ps ++ [p])) qid p with pc := .top }.talk cfg i =
      s.talk cfg i := by
  obtain ⟨rfl, hne⟩ := h.target qid p hpc
  refine talk_same rfl rfl ?_ Iff.rfl
    (iff_of_false (not_failed rfl) (not_failed (by rw [hpc]; rfl)))
  show slips i ((s.kernel.write (s.client p.origin).privQid (ps ++ [p])).slot
      (s.client i).privQid).msgs
    ((s.kernel.write (s.client p.origin).privQid (ps ++ [p])).slot s.data.queueDesc).msgs .top =
      slips i (s.inbox i) s.requests s.pc
  rw [inbox_write_priv hkeys hok ⟨_, hslot⟩, requests_write_priv hkeys hok ⟨_, hslot⟩, hpc]
  -- the slip in the server's hand becomes the one at the end of the inbox
  by_cases hi : i = p.origin
  · subst hi
    have hinbox : s.inbox p.origin = ps := by
      rw [Sys.inbox, hslot]
      rfl
    rw [Function.update_self, hinbox, slips, slips, hand_top, hand_send, if_pos rfl]
    simp
  · have horigin : p.origin ≠ i := fun heq => hi heq.symm
    rw [Function.update_of_ne hi, slips, slips, hand_top, hand_send, if_neg horigin]

/-- The server makes the public queue. -/
theorem talk_create (hsys : SysInv s) (hpc : s.pc = .start) {id q : ℤ} {k : Kernel (Packet ι)}
    (hget : s.kernel.Got cfg.pubKey true id q k) :
    { s with kernel := k, data := { s.data with queueDesc := q }, pc := .top }.talk cfg i =
      s.talk cfg i := by
  obtain ⟨hrequests, hinbox⟩ := queues_start hsys hpc
  obtain ⟨hrequests', hinbox'⟩ := queues_create cfg hsys hpc hget
  refine talk_same rfl rfl ?_ Iff.rfl
    (iff_of_false (not_failed rfl) (not_failed (by rw [hpc]; rfl)))
  show slips i (k.slot (s.client i).privQid).msgs (k.slot q).msgs .top =
    slips i (s.inbox i) s.requests s.pc
  rw [hrequests', hinbox', hrequests, hinbox, hpc]
  rfl

/-- The server removes the public queue, with the requests that are still in it. -/
theorem talk_remove (hsys : SysInv s) (hkeys : KeyInv cfg s.kernel s.data.queueDesc s.client)
    {status : ℤ} (hpc : s.pc = .remove status) :
    Relation.ReflGen (Talk.Move (terms cfg.server)) (s.talk cfg i)
      ({ s with kernel := s.kernel.rmid s.data.queueDesc, pc := .gone status }.talk cfg i) := by
  generalize hs' : { s with
    kernel := s.kernel.rmid s.data.queueDesc
    pc := .gone status } = s'
  have hbefore : s.flight i = slips i (s.inbox i) s.requests s.pc := rfl
  have hafter : s'.flight i = slips i (s.inbox i) [] s.pc := by
    subst hs'
    show slips i ((s.kernel.rmid s.data.queueDesc).slot (s.client i).privQid).msgs
      ((s.kernel.rmid s.data.queueDesc).slot s.data.queueDesc).msgs (.gone status) = _
    rw [inbox_rmid_desc hkeys hsys.ok, Kernel.msgs_rmid_self, hpc]
    rfl
  have hfailed : s.Failed → s'.Failed := by
    subst hs'
    rintro ⟨status', hstatus', hcase⟩
    rw [hpc] at hstatus' hcase
    obtain rfl := Option.some.inj hstatus'
    exact ⟨status, rfl, .inl (hcase.resolve_right fun hgone => nomatch hgone.1)⟩
  -- what was in the queue is lost, unless the server has seen all of it
  by_cases hlost : s'.Failed
  · have hsub : (s'.flight i).Sublist (s.flight i) := by
      rw [hafter, hbefore, slips, slips]
      exact ((List.nil_sublist _).append_left _).append_left _
    have hmove := Talk.Move.lose (T := terms cfg.server) (t := s.talk cfg i) (s'.flight i)
      s'.Failed hsub (.inr hlost) hfailed
    have htalk : s'.talk cfg i = { s.talk cfg i with
        flight := s'.flight i
        failed := s'.Failed } := by
      subst hs'
      rfl
    rw [htalk]
    exact .single hmove
  · -- nothing was left in the queue
    have hlen : s.accepted.length = s.dispatched.length := by
      by_contra hne
      subst hs'
      exact hlost ⟨status, rfl, .inr ⟨rfl, hne⟩⟩
    have hnone := requests_of_drained hsys hlen
    have hsame : s'.talk cfg i = s.talk cfg i := by
      have hflight : s'.flight i = s.flight i := by rw [hafter, hbefore, hnone]
      subst hs'
      exact talk_same rfl rfl hflight Iff.rfl (iff_of_false hlost (mt hfailed hlost))
    rw [hsame]

theorem talk_server (h : MsgInv cfg s) (hkeys : KeyInv cfg s.kernel s.data.queueDesc s.client)
    (hsys : SysInv s) (hinj : Function.Injective cfg.pid) {garbage : ℤ}
    (hdoes : ServerDoes cfg garbage s s') :
    Relation.ReflGen (Talk.Move (terms cfg.server)) (s.talk cfg i) (s'.talk cfg i) := by
  cases hdoes with
  | create id q k hpc hget => exact talk_create hsys hpc hget ▸ .refl
  | wait hpc hlive =>
    have hsame := talk_idle cfg s i .receive (by rw [hpc]; rfl)
      (not_failed (by rw [hpc]; rfl)) rfl (not_failed rfl)
    exact hsame ▸ .refl
  | finish hpc hactive hslot =>
    -- at the end of the loop the queue is still there, so `exit` has it to remove
    have hstatus := exit_status (ι := ι) s.data 0
    have hremove : (exit s.data 0 : ServerPc ι) = .remove 0 := by
      have := hsys.ok.nonneg _ ⟨_, hslot⟩
      exact if_pos (by omega)
    have hnot : ¬{ s with pc := exit s.data 0 }.Failed := by
      rintro ⟨status, hstatus', hcase⟩
      obtain rfl := Option.some.inj (hstatus'.symm.trans hstatus)
      rcases hcase with hne | ⟨hgone, -⟩
      · exact hne rfl
      · exact nomatch hremove.symm.trans hgone
    have hsame := talk_idle cfg s i (exit s.data 0) (by rw [hpc]; rfl)
      (not_failed (by rw [hpc]; rfl)) (hand_of_status hstatus) hnot
    exact hsame ▸ .refl
  | receive clock p ps hpc hslot =>
    have hmem : p ∈ s.requests := by
      rw [requests_of_slot hslot]
      exact List.mem_cons_self
    exact talk_receive h hkeys hsys.ok hpc hslot
      (dispatch_cases cfg.server clock h.data (h.sent p hmem).pid_pos)
  | openClient id key qid k p hpc hkey hget hqid =>
    obtain ⟨rfl, rfl⟩ := openClient_own h hkeys hpc hkey hget hqid
    exact talk_openClient h hpc hinj
  | send qid p ps hpc hslot hroom => exact talk_send h hkeys hsys.ok hpc hslot ▸ .refl
  | fail hfails => exact .single (talk_fail cfg s i (by decide) s.interrupted)
  | remove status hpc => exact talk_remove hsys hkeys hpc

end Server

/-! ### Steps of a client -/

section Client

variable [DecidableEq ι] {cfg : Config ι} {s s' : Sys ι} {i j : ι}

omit [DecidableEq ι] in
/-- The queues of the clients change, and the server goes nowhere. -/
theorem failed_congr (hpc : s'.pc = s.pc) (hdispatched : s'.dispatched = s.dispatched)
    (hlog : s'.accepted = s.accepted ∨ ∀ status, s.pc ≠ .gone status) :
    s'.Failed ↔ s.Failed := by
  unfold Sys.Failed
  rw [hpc, hdispatched]
  refine exists_congr fun status => and_congr_right fun _ => or_congr_right ?_
  rcases hlog with hlog | hgone
  · rw [hlog]
  · exact ⟨fun h => absurd h.1 (hgone status), fun h => absurd h.1 (hgone status)⟩

omit [DecidableEq ι] in
/-- As long as there is a public queue, the server has not ended. -/
theorem not_gone (hclosed : s.Closed) (hkeys : KeyInv cfg s.kernel s.data.queueDesc s.client)
    (hok : s.kernel.Ok) (hlive : (s.kernel.slot (s.client i).queueDesc).Live) (status : ℤ) :
    s.pc ≠ .gone status := by
  intro hgone
  rw [queueDesc_of_live hkeys hok hlive] at hlive
  exact hclosed status hgone hlive

/-! #### The other clients -/

theorem talk_elsewhere (hkeys : KeyInv cfg s.kernel s.data.queueDesc s.client) (hsys : SysInv s)
    (hclosed : s.Closed) (hapart : cfg.Apart) (hij : i ≠ j) (hdoes : ClientDoes cfg j s s') :
    s'.talk cfg i = s.talk cfg i := by
  have hok := hsys.ok
  have hclient : ∀ c : Client, Function.update s.client j c i = s.client i := fun c =>
    Function.update_of_ne hij ..
  have hset : ∀ c : Client, (s.setClient j c).talk cfg i = s.talk cfg i := by
    intro c
    refine talk_same (by rw [setClient_client, hclient]) rfl ?_ Iff.rfl Iff.rfl
    show slips i (s.kernel.slot (Function.update s.client j c i).privQid).msgs s.requests s.pc = _
    rw [hclient]
    rfl
  have htake : ∀ (p : Packet ι) (ps : List (Packet ι)) (c : Client),
      s.kernel.slot (s.client j).privQid = .live (p :: ps) →
      c.privQid = (s.client j).privQid → (s.clientTake j p ps c).talk cfg i = s.talk cfg i := by
    intro p ps c hslot hpriv
    obtain ⟨-, hrequests, hinbox⟩ := queues_clientTake hkeys hok hslot hpriv
    refine talk_same (congrArg (fun c => c.pc.phase) (hclient c)) rfl ?_ Iff.rfl
      (failed_congr rfl rfl (.inl rfl))
    rw [Sys.flight, hinbox, hrequests, Function.update_of_ne hij]
    rfl
  cases hdoes with
  | openPublic q hpc hkey => exact hset _
  | openPrivate id q k hpc hget =>
    obtain ⟨hrequests, hinbox⟩ := queues_openPrivate hkeys hok hsys.known hapart hpc hget
    refine talk_same (congrArg (fun c => c.pc.phase) (hclient _)) rfl ?_ Iff.rfl
      (failed_congr rfl rfl (.inl rfl))
    rw [Sys.flight, hinbox, hrequests]
    rfl
  | send msg answered pc ps hpc hslot hroom =>
    obtain ⟨hrequests, hinbox⟩ := queues_clientPost hkeys hok hslot msg answered pc
    have hasks := (sent_of_sends (hkeys.own j) hpc).1
    refine talk_same (congrArg (fun c => c.pc.phase) (hclient _)) ?_ ?_ Iff.rfl
      (failed_congr rfl rfl (.inr (not_gone hclosed hkeys hok ⟨ps, hslot⟩)))
    · show (if answered then Function.update s.latest j (some msg) else s.latest) i = _
      split
      · exact Function.update_of_ne hij ..
      · rfl
    · -- what another client sends is no slip of this talk
      have hne : ¬(j = i ∧ answered = true) := fun hji => hij hji.1.symm
      rw [Sys.flight, hinbox, hrequests, slips_asked (p := ⟨msg, j⟩) hasks, if_neg hne,
        List.append_nil]
      rfl
  | session p ps hpc hslot => exact htake p ps _ hslot (readSession_desc _ _ _).2
  | prompt hpc => exact hset _
  | response p ps hpc hslot => exact htake p ps _ hslot rfl
  | exit status hpc => exact hset _
  | remove status hpc =>
    obtain ⟨hrequests, hinbox⟩ := queues_remove (i := j) hkeys hok status
    refine talk_same (congrArg (fun c => c.pc.phase) (hclient _)) rfl ?_ Iff.rfl
      (failed_congr rfl rfl (.inl rfl))
    rw [Sys.flight, hinbox, hrequests, Function.update_of_ne hij]
    rfl

/-! #### The client itself -/

@[simp] theorem client_self (c : Client) :
    (Function.update s.client i c i).pc.phase = c.pc.phase := by
  rw [Function.update_self]

/-- A client goes on, and its queues stay as they are. -/
theorem talk_setClient (cfg : Config ι) {c : Client} (hpriv : c.privQid = (s.client i).privQid) :
    (s.setClient i c).talk cfg i = { s.talk cfg i with phase := c.pc.phase } := by
  obtain ⟨hrequests, hinbox⟩ := queues_setClient hpriv
  refine Talk.ext (client_self c) rfl ?_ rfl rfl
  show slips i ((s.setClient i c).inbox i) (s.setClient i c).requests s.pc = _
  rw [hinbox, hrequests]
  rfl

theorem talk_setClient_same (cfg : Config ι) {c : Client}
    (hpriv : c.privQid = (s.client i).privQid) (hphase : c.pc.phase = (s.client i).pc.phase) :
    (s.setClient i c).talk cfg i = s.talk cfg i := by
  rw [talk_setClient cfg hpriv, hphase]
  rfl

theorem talk_leave (cfg : Config ι) {c : Client} (hpriv : c.privQid = (s.client i).privQid)
    (hphase : c.pc.phase = .left) :
    Talk.Move (terms cfg.server) (s.talk cfg i) ((s.setClient i c).talk cfg i) := by
  rw [talk_setClient cfg hpriv, hphase]
  exact .leave

/-- What a client sends goes to the public queue. -/
theorem talk_post (hkeys : KeyInv cfg s.kernel s.data.queueDesc s.client) (hok : s.kernel.Ok)
    (hclosed : s.Closed) {msg : Message} {answered : Bool} {pc : ClientPc} {ps : List (Packet ι)}
    (hpc : ClientPc.sends cfg i (s.client i) = some (msg, answered, pc))
    (hslot : s.kernel.slot (s.client i).queueDesc = .live ps) :
    Relation.ReflGen (Talk.Move (terms cfg.server)) (s.talk cfg i)
      ((s.clientPost i ps msg answered pc).talk cfg i) := by
  obtain ⟨hrequests, hinbox⟩ := queues_clientPost hkeys hok hslot msg answered pc
  have hasks := (sent_of_sends (hkeys.own i) hpc).1
  have hfailed : (s.clientPost i ps msg answered pc).Failed ↔ s.Failed :=
    failed_congr rfl rfl (.inr (not_gone hclosed hkeys hok ⟨ps, hslot⟩))
  have hflight : (s.clientPost i ps msg answered pc).flight i =
      s.flight i ++ if answered then [.asked msg] else [] := by
    show slips i ((s.clientPost i ps msg answered pc).inbox i)
      (s.clientPost i ps msg answered pc).requests s.pc = _
    rw [hinbox, hrequests, slips_asked (p := ⟨msg, i⟩) hasks]
    simp [Sys.flight]
  have htalk : (s.clientPost i ps msg answered pc).talk cfg i = { s.talk cfg i with
      phase := pc.phase
      latest := if answered then some msg else s.latest i
      flight := s.flight i ++ if answered then [.asked msg] else [] } := by
    refine Talk.ext (client_self _) ?_ hflight rfl (propext hfailed)
    show (if answered then Function.update s.latest i (some msg) else s.latest) i = _
    cases answered with
    | true => exact Function.update_self ..
    | false => rfl
  unfold ClientPc.sends at hpc
  split at hpc
  · rename_i hsend
    obtain ⟨rfl, rfl, rfl⟩ := by simpa only [Option.some.injEq, Prod.mk.injEq] using hpc
    rw [htalk]
    exact .single (.join _ (congrArg ClientPc.phase hsend) rfl)
  · rename_i answered' hsend
    obtain ⟨rfl, rfl, rfl⟩ := by simpa only [Option.some.injEq, Prod.mk.injEq] using hpc
    have hphase : (s.client i).pc.phase = .ready := congrArg ClientPc.phase hsend
    cases answered' with
    | true =>
      rw [htalk]
      exact .single (.ask _ hphase)
    -- `END` is never answered, so the talk does not move
    | false =>
      have hsame : (s.clientPost i ps (s.client i).msg false .prompt).talk cfg i =
          s.talk cfg i := by
        refine htalk.trans (Talk.ext hphase.symm rfl ?_ rfl rfl)
        simp [Sys.talk]
      exact hsame ▸ .refl
  · exact absurd hpc (Option.some_ne_none _).symm

/-- The client takes a response from its queue. -/
theorem talk_take (cfg : Config ι)
    (hkeys : KeyInv cfg s.kernel s.data.queueDesc s.client) (hok : s.kernel.Ok)
    {p : Packet ι} {ps : List (Packet ι)}
    (hslot : s.kernel.slot (s.client i).privQid = .live (p :: ps)) {c : Client}
    (hpriv : c.privQid = (s.client i).privQid) : ∃ rest,
      (s.talk cfg i).flight = .answered p.msg :: rest ∧
        (s.clientTake i p ps c).talk cfg i =
          { s.talk cfg i with phase := c.pc.phase, flight := rest } := by
  obtain ⟨hin, hrequests, hinbox⟩ := queues_clientTake hkeys hok hslot hpriv
  refine ⟨slips i ps s.requests s.pc, ?_, ?_⟩
  · show slips i (s.inbox i) s.requests s.pc = _
    rw [hin]
    rfl
  · refine Talk.ext (client_self c) rfl ?_ rfl (propext (failed_congr rfl rfl (.inl rfl)))
    show slips i ((s.clientTake i p ps c).inbox i) (s.clientTake i p ps c).requests s.pc = _
    rw [hinbox, hrequests, Function.update_self]

theorem talk_own (hkeys : KeyInv cfg s.kernel s.data.queueDesc s.client) (hsys : SysInv s)
    (hclosed : s.Closed) (hapart : cfg.Apart) (hdoes : ClientDoes cfg i s s') :
    Relation.ReflGen (Talk.Move (terms cfg.server)) (s.talk cfg i) (s'.talk cfg i) := by
  have hok := hsys.ok
  cases hdoes with
  | openPublic q hpc hkey =>
    have hsame := talk_setClient_same cfg
      (c := { s.client i with queueDesc := q, pc := .openPrivate }) rfl (by rw [hpc]; rfl)
    exact hsame ▸ .refl
  | openPrivate id q k hpc hget =>
    obtain ⟨hrequests, hinbox⟩ := queues_openPrivate hkeys hok hsys.known hapart hpc hget
    have hsame : ({ s with kernel := k }.setClient i
        { s.client i with privQid := q, pc := .sendRegister }).talk cfg i = s.talk cfg i := by
      refine talk_same ((client_self _).trans (by rw [hpc]; rfl)) rfl ?_ Iff.rfl
        (failed_congr rfl rfl (.inl rfl))
      rw [Sys.flight, hinbox, hrequests]
      rfl
    exact hsame ▸ .refl
  | send msg answered pc ps hpc hslot hroom => exact talk_post hkeys hok hclosed hpc hslot
  | session p ps hpc hslot =>
    obtain ⟨rest, hflight, htalk⟩ := talk_take cfg hkeys hok hslot
      (readSession_desc (cfg.junk i) (s.client i) p.msg).2
    rw [htalk]
    refine .single ?_
    rcases phase_readSession cfg.server (cfg.junk i) (s.client i) p.msg with
      ⟨hphase, hgrants⟩ | hphase
    · rw [hphase]
      exact .enter p.msg rest (congrArg ClientPc.phase hpc) hflight hgrants
    · rw [hphase]
      exact .turnAway p.msg rest hflight
  | prompt hpc =>
    have hpriv := (readCommand_desc (cfg.pid i) (s.client i)).2
    rcases phase_readCommand (cfg.pid i) hpc with hphase | hphase
    · have hsame := talk_setClient_same cfg hpriv (by rw [hphase, hpc]; rfl)
      exact hsame ▸ .refl
    · exact .single (talk_leave cfg hpriv hphase)
  | response p ps hpc hslot =>
    obtain ⟨rest, hflight, htalk⟩ := talk_take cfg hkeys hok hslot
      (c := { s.client i with msg := p.msg, pc := .prompt }) rfl
    rw [htalk]
    exact .single (.receive p.msg rest (congrArg ClientPc.phase hpc) hflight)
  | exit status hpc => exact .single (talk_leave cfg rfl (phase_exitClient _ status))
  | remove status hpc =>
    -- the inbox goes with the queue, but its client has left
    obtain ⟨hrequests, hinbox⟩ := queues_remove (i := i) hkeys hok status
    have hleft : (s.talk cfg i).phase = .left := congrArg ClientPc.phase hpc
    have hmove := Talk.Move.lose (T := terms cfg.server) (t := s.talk cfg i)
      (slips i [] s.requests s.pc) s.Failed ((List.nil_sublist _).append_right _)
      (.inl hleft) id
    have htalk : ({ s with kernel := s.kernel.rmid (s.client i).privQid }.setClient i
        { s.client i with pc := .gone status }).talk cfg i =
          { s.talk cfg i with flight := slips i [] s.requests s.pc } := by
      refine Talk.ext ((client_self _).trans hleft.symm) rfl ?_ rfl
        (propext (failed_congr rfl rfl (.inl rfl)))
      show ({ s with kernel := s.kernel.rmid (s.client i).privQid }.setClient i
        { s.client i with pc := .gone status }).flight i = _
      rw [Sys.flight, hinbox, hrequests, Function.update_self]
      rfl
    rw [htalk]
    exact .single hmove

end Client

/-! ### All steps -/

/-- What holds in every state if the pids are apart. -/
structure TalkInv [DecidableEq ι] (cfg : Config ι) (s : Sys ι) : Prop where
  sys : SysInv s
  closed : s.Closed
  keys : KeyInv cfg s.kernel s.data.queueDesc s.client
  msgs : MsgInv cfg s
  orderly : ∀ i, (s.talk cfg i).Orderly (terms cfg.server)

section Steps

variable [DecidableEq ι] {cfg : Config ι} {s s' : Sys ι} {e : Event ι}

/-- **A step of the system is at most one move in each of the talks.** -/
theorem talk_step (h : TalkInv cfg s) (hapart : cfg.Apart)
    (hstep : (system cfg).step e s = some s') (i : ι) :
    Relation.ReflGen (Talk.Move (terms cfg.server)) (s.talk cfg i) (s'.talk cfg i) := by
  have hclient : ∀ {j s'}, ClientDoes cfg j s s' →
      Relation.ReflGen (Talk.Move (terms cfg.server)) (s.talk cfg i) (s'.talk cfg i) := by
    intro j s' hdoes
    by_cases hij : i = j
    · subst hij
      exact talk_own h.keys h.sys h.closed hapart hdoes
    · exact talk_elsewhere h.keys h.sys h.closed hapart hij hdoes ▸ .refl
  cases does h.sys.ok hstep with
  | server id garbage clock hdoes => exact talk_server h.msgs h.keys h.sys hapart.injective hdoes
  | interruptServer hpc => exact .single (talk_fail cfg s i (by decide) true)
  | client j id hdoes => exact hclient hdoes
  | interruptClient j hpc => exact hclient (.exit 2 hpc)

theorem talkInv_step (h : TalkInv cfg s) (hapart : cfg.Apart)
    (hstep : (system cfg).step e s = some s') : TalkInv cfg s' where
  sys := sysInv_step h.sys hstep
  closed := closed_step h.sys h.closed hstep
  keys := keyInv_step h.keys h.sys hapart hstep
  msgs := msgInv_step h.msgs h.keys h.sys hapart hstep
  orderly i := by
    rcases (Relation.reflGen_iff _ _ _).mp (talk_step h hapart hstep i) with heq | hmove
    · rw [heq]
      exact h.orderly i
    · exact (h.orderly i).move hmove

theorem talkInv_start (cfg : Config ι) : TalkInv cfg cfg.start where
  sys := sysInv_start cfg
  closed _ hgone := nomatch hgone
  keys := keyInv_start cfg
  msgs := msgInv_start cfg
  orderly _ := Talk.orderly_outside rfl rfl

theorem talkInv_run (hapart : cfg.Apart) (es : List (Event ι)) :
    TalkInv cfg ((system cfg).run es cfg.start) :=
  Machine.run_invariant (fun _ _ _ h hstep => talkInv_step h hapart hstep) es (talkInv_start cfg)

end Steps

end SystemV
end MsgQueue
end OpSys
