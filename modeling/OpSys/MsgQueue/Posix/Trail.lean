import OpSys.MsgQueue.Posix.Talks

/-!
# Where the responses come from, with POSIX queues

A message does not say which request it answers: a response to `REGISTER` or `TIME` looks
the same for every client.  So an observer numbers the messages that each client sends and
follows each number through the queues and through the server's hand, from the request to
the response that the server makes of it.  The system takes no notice of it.

## Main definitions

* `Trail` — the numbers, queue by queue; `follow` — what a step does to them.
* `tracked`, `trackedRun` — the system under the observer.
* `Trail.Latest` — a client's latest request and its number.
* `TrailInv` — what is known of the numbers.

## Main results

* `trailInv_step`, `trailInv_run` — whatever lies in the queue of a client comes from the
  latest request of this client.

## References

`lab5_message_queues/POSIX/server.c`, `lab5_message_queues/POSIX/client.c`.
-/

namespace OpSys
namespace MsgQueue
namespace Posix

variable {ι : Type*}

/-- Where the messages come from.  `(i, n)` is message `n` of the client `i`. -/
structure Trail (ι : Type*) where
  /-- What the messages of each queue come from. -/
  stamps : Option ι → List (ι × ℕ)
  /-- What the server has received last. -/
  inHand : Option (ι × ℕ)
  /-- The messages that each client has sent. -/
  sent : ι → List Message
  /-- The number of each client's latest request. -/
  asked : ι → ℕ

namespace Trail

/-- Nothing has been sent. -/
def start : Trail ι := ⟨fun _ => [], none, fun _ => [], fun _ => 0⟩

variable [DecidableEq ι] (t : Trail ι)

/-- The client `i` sends `m`. -/
def send (i : ι) (m : Message) (q : Option ι) : Trail ι :=
  { t with
    stamps := Function.update t.stamps q (t.stamps q ++ [(i, (t.sent i).length)])
    sent := Function.update t.sent i (t.sent i ++ [m]) }

/-- The client `i` sends `m`, and will wait for the response. -/
def ask (i : ι) (m : Message) (q : Option ι) : Trail ι :=
  { t.send i m q with asked := Function.update t.asked i (t.sent i).length }

/-- The first message of the queue is taken out. -/
def take (q : Option ι) : Trail ι :=
  { t with stamps := Function.update t.stamps q (t.stamps q).tail }

/-- The server takes the first message of the queue in its hand. -/
def receive (q : Option ι) : Trail ι := { t.take q with inHand := (t.stamps q).head? }

/-- The server sends what it has made of the message in its hand. -/
def respond (q : Option ι) : Trail ι :=
  { t with stamps := Function.update t.stamps q (t.stamps q ++ t.inHand.toList) }

/-! What these do to each part of the trail. -/

variable (i : ι) (m : Message) (q : Option ι)

@[simp] theorem send_stamps : (t.send i m q).stamps =
    Function.update t.stamps q (t.stamps q ++ [(i, (t.sent i).length)]) := rfl
@[simp] theorem send_inHand : (t.send i m q).inHand = t.inHand := rfl
@[simp] theorem send_sent :
    (t.send i m q).sent = Function.update t.sent i (t.sent i ++ [m]) := rfl
@[simp] theorem send_asked : (t.send i m q).asked = t.asked := rfl

@[simp] theorem ask_stamps : (t.ask i m q).stamps = (t.send i m q).stamps := rfl
@[simp] theorem ask_inHand : (t.ask i m q).inHand = t.inHand := rfl
@[simp] theorem ask_sent : (t.ask i m q).sent = (t.send i m q).sent := rfl
@[simp] theorem ask_asked :
    (t.ask i m q).asked = Function.update t.asked i (t.sent i).length := rfl

@[simp] theorem take_stamps :
    (t.take q).stamps = Function.update t.stamps q (t.stamps q).tail := rfl
@[simp] theorem take_inHand : (t.take q).inHand = t.inHand := rfl
@[simp] theorem take_sent : (t.take q).sent = t.sent := rfl
@[simp] theorem take_asked : (t.take q).asked = t.asked := rfl

@[simp] theorem receive_stamps : (t.receive q).stamps = (t.take q).stamps := rfl
@[simp] theorem receive_inHand : (t.receive q).inHand = (t.stamps q).head? := rfl
@[simp] theorem receive_asked : (t.receive q).asked = t.asked := rfl

@[simp] theorem respond_stamps : (t.respond q).stamps =
    Function.update t.stamps q (t.stamps q ++ t.inHand.toList) := rfl
@[simp] theorem respond_asked : (t.respond q).asked = t.asked := rfl

end Trail

/-- The process waits for a response. -/
def ClientPc.Waits (pc : ClientPc) : Prop := pc = .receiveSession ∨ pc = .receiveResponse

instance (pc : ClientPc) : Decidable pc.Waits := inferInstanceAs (Decidable (_ ∨ _))

section Follow

variable [DecidableEq ι] (cfg : Config ι)

/-- The trail after a step from `s`. -/
def follow : Event ι → Sys ι → Trail ι → Trail ι
  | .server _ _, s, t =>
    match s.pc with
    | .receive => (s.fds s.data.queueDesc).elim t t.receive
    | .refuse qid _ => (s.fds qid).elim t t.respond
    | .login qid _ => (s.fds qid).elim t t.respond
    | .respond qid _ => (s.fds qid).elim t t.respond
    | _ => t
  | .interruptServer, _, t => t
  | .client i, s, t =>
    match (s.client i).pc with
    | .sendRegister =>
      (s.client i).pubQid.elim t (t.ask i ⟨typeRegister, cfg.pid i, cfg.junk i⟩)
    | .sendRequest true => (s.client i).pubQid.elim t (t.ask i (s.client i).msg)
    | .sendRequest false => (s.client i).pubQid.elim t (t.send i (s.client i).msg)
    | .sendQuit _ => (s.client i).pubQid.elim t (t.send i ⟨typeQuit, cfg.pid i, cfg.junk i⟩)
    | .receiveSession => (s.client i).privQid.elim t t.take
    | .receiveResponse => (s.client i).privQid.elim t t.take
    | _ => t
  | .interruptClient _, _, t => t

/-- The system under the observer, who lets everything happen. -/
def tracked : Machine (Event ι) (Sys ι × Trail ι) :=
  (system cfg).watch (fun _ _ _ => true) (follow cfg)

/-- A run from the start, and its trail. -/
def trackedRun (es : List (Event ι)) : Sys ι × Trail ι :=
  (tracked cfg).run es (cfg.start, Trail.start)

/-- The observer sees the run of the system. -/
@[simp] theorem trackedRun_fst (es : List (Event ι)) :
    (trackedRun cfg es).1 = (system cfg).run es cfg.start :=
  Machine.run_watch (fun _ _ _ => rfl) es (cfg.start, Trail.start)

end Follow

/-- Message number `asked` of the client `i` is `req`, and what it has sent since then is
none of the messages to which it awaits a response. -/
structure Trail.Latest (cfg : Config ι) (t : Trail ι) (i : ι) (req : Message) : Prop where
  at_asked : (t.sent i)[t.asked i]? = some req
  since : ∀ m ∈ (t.sent i).drop (t.asked i + 1), requestOf (cfg.pid i) m = false

/-- The message in the public queue is one of the client `o.1`, and if that client awaits
the response, then it is its latest request. -/
def Trail.Public (cfg : Config ι) (t : Trail ι) (m : Message) (o : ι × ℕ) : Prop :=
  m.senderPid = cfg.pid o.1 ∧ (requestOf (cfg.pid o.1) m = true → o.2 = t.asked o.1)

/-- What is known of the trail. -/
structure TrailInv [DecidableEq ι] (cfg : Config ι) (s : Sys ι) (t : Trail ι) : Prop where
  pub : List.Forall₂ (t.Public cfg) (s.queue none) (t.stamps none)
  inHand : ∀ i, hand cfg s.fds i s.pc ≠ [] → t.inHand = some (i, t.asked i)
  priv : ∀ i, t.stamps (some i) = (s.queue (some i)).map fun _ => (i, t.asked i)
  latest : ∀ i req inTime, s.latest i = some (req, inTime) → t.Latest cfg i req

section Steps

variable [DecidableEq ι] {cfg : Config ι} {s s' : Sys ι} {t t' : Trail ι} {i j : ι}

omit [DecidableEq ι] in
theorem Trail.Latest.of_eq {req : Message} (h : t.Latest cfg i req)
    (hsent : t'.sent i = t.sent i) (hasked : t'.asked i = t.asked i) : t'.Latest cfg i req where
  at_asked := by rw [hsent, hasked, h.at_asked]
  since := by
    rw [hsent, hasked]
    exact h.since

omit [DecidableEq ι] in
theorem Trail.Public.of_eq {m : Message} {o : ι × ℕ} (h : t.Public cfg m o)
    (hasked : t'.asked = t.asked) : t'.Public cfg m o :=
  ⟨h.1, fun hreq => hasked ▸ h.2 hreq⟩

/-! ### Steps of the server -/

theorem follow_send {fd : ℤ} {clock : Clock} {qid : ℤ} {msg : Message} {pc : ServerPc}
    {q : Option ι} (hpc : s.pc.sends = some (qid, msg, pc)) (hfd : s.fds qid = some q) :
    follow cfg (.server fd clock) s t = t.respond q := by
  cases hcases : s.pc with
  | refuse qid' msg' =>
    rw [hcases] at hpc
    obtain ⟨rfl, -, -⟩ := by simpa [ServerPc.sends] using hpc
    simp [follow, hcases, hfd]
  | login qid' msg' =>
    rw [hcases] at hpc
    obtain ⟨rfl, -, -⟩ := by simpa [ServerPc.sends] using hpc
    simp [follow, hcases, hfd]
  | respond qid' msg' =>
    rw [hcases] at hpc
    obtain ⟨rfl, -, -⟩ := by simpa [ServerPc.sends] using hpc
    simp [follow, hcases, hfd]
  | _ =>
    rw [hcases] at hpc
    exact absurd hpc (Option.some_ne_none _).symm

/-- A step of the server that neither receives nor sends. -/
theorem follow_quiet {fd : ℤ} {clock : Clock} (hreceive : s.pc ≠ .receive)
    (hsends : s.pc.sends = none) : follow cfg (.server fd clock) s t = t := by
  cases hcases : s.pc with
  | receive => exact absurd hcases hreceive
  | refuse qid msg => simp [hcases, ServerPc.sends] at hsends
  | login qid msg => simp [hcases, ServerPc.sends] at hsends
  | respond qid msg => simp [hcases, ServerPc.sends] at hsends
  | _ => simp [follow, hcases]

theorem sends_of_status {pc : ServerPc} {status : ℤ} (h : pc.status = some status) :
    pc ≠ .receive ∧ pc.sends = none := by
  cases pc <;> simp_all [ServerPc.status, ServerPc.sends]

theorem sends_of_closes {pc : ServerPc} {d d' : ServerData} {qid : ℤ}
    (h : pc.closes d = some (qid, d')) : pc ≠ .receive ∧ pc.sends = none := by
  cases pc <;> simp_all [ServerPc.closes, ServerPc.sends]

/-- The queues stay as they are, and the server's hand is empty or as before. -/
theorem TrailInv.idle (h : TrailInv cfg s t) (hqueue : s'.queue = s.queue)
    (hlatest : s'.latest = s.latest)
    (hhand : ∀ i, hand cfg s'.fds i s'.pc ≠ [] → hand cfg s.fds i s.pc ≠ []) :
    TrailInv cfg s' t where
  pub := hqueue ▸ h.pub
  inHand i hi := h.inHand i (hhand i hi)
  priv i := hqueue ▸ h.priv i
  latest i := hlatest ▸ h.latest i

/-- The server takes a message out of the public queue. -/
theorem TrailInv.receive (h : TrailInv cfg s t) (hsys : SysInv cfg s)
    (hinj : Function.Injective cfg.pid) (hpc : s.pc = .receive) {m : Message}
    {ms : List Message} (hq : s.queue none = m :: ms) {p : ServerData × ServerPc}
    (hp : Dispatched cfg.server s.data m p) :
    TrailInv cfg { (s.leave none ms).goOn p with dispatched := s.dispatched ++ [m] }
      (t.receive none) := by
  have hfds : FdInv cfg s.fds s.data s.pc := hsys.fds (.of_eq hpc ServerPc.noConfusion rfl)
  have hpub := h.pub
  rw [hq] at hpub
  obtain ⟨o, os, ⟨hsender, hlatest⟩, hrest, hstamps⟩ := List.forall₂_cons_left_iff.mp hpub
  refine ⟨?_, fun i hi => ?_, fun i => ?_, fun i req inTime hreq => ?_⟩
  · have hqueue : Function.update s.queue none ms none = ms := Function.update_self ..
    have htail : (t.receive none).stamps none = os := by simp [hstamps]
    rw [htail]
    show List.Forall₂ _ (Function.update s.queue none ms none) os
    rw [hqueue]
    exact hrest.imp fun m o hpub => hpub.of_eq rfl
  · -- what comes into the server's hand for the client `i` is its request
    have hreq : requestOf (cfg.pid i) m = true := by
      by_contra hno
      exact hi (hand_of_dispatched hfds hp (Bool.not_eq_true _ ▸ hno))
    obtain ⟨hpid, -⟩ := of_decide_eq_true hreq
    have howner : o.1 = i := hinj (hsender.symm.trans hpid)
    rw [Trail.receive_inHand, Trail.receive_asked, hstamps, List.head?_cons, ← howner,
      ← hlatest (howner ▸ hreq)]
  · show _ = (Function.update s.queue none ms (some i)).map fun _ => (i, t.asked i)
    simp [h.priv]
  · exact (h.latest i req inTime hreq).of_eq rfl rfl

/-- The queue that the server opens is that of the sender. -/
theorem TrailInv.openClient (h : TrailInv cfg s t) (hsys : SysInv cfg s)
    (hinj : Function.Injective cfg.pid) {fd : ℤ} {msg : Message} {q : Option ι}
    (hpc : s.pc = .register msg) (hlink : s.link (clientPath msg.senderPid) = some q) :
    TrailInv cfg ((s.setFd fd (some q)).goOn (registerOpened cfg.server s.data msg fd)) t := by
  have hfds : FdInv cfg s.fds s.data s.pc := hsys.fds (.of_eq hpc ServerPc.noConfusion rfl)
  obtain ⟨⟨j, answered, hasks⟩, -⟩ := hsys.register msg hpc
  have hpid := hasks.sender
  rw [hpid] at hlink
  obtain ⟨k, rfl, hk⟩ := hsys.link_client j q hlink
  obtain rfl : k = j := hinj hk
  refine h.idle rfl rfl fun i hi => ?_
  obtain ⟨session, hhand, -, -⟩ :=
    hand_registerOpened cfg s.fds i hfds.count_nonneg msg fd k
  have hne : (if k = i then [Slip.answered (registerResponse cfg.server msg session)] else []) ≠
      ([] : List (Slip Message Message)) := hhand ▸ hi
  by_cases hki : k = i
  · rw [hpc, hand, if_pos (hpid.trans (congrArg cfg.pid hki))]
    exact List.cons_ne_nil _ _
  · exact absurd (if_neg hki) hne

/-- The server sends what it has in its hand. -/
theorem TrailInv.send (h : TrailInv cfg s t) (hsys : SysInv cfg s) {qid : ℤ} {msg : Message}
    {pc : ServerPc} {q : Option ι} (hpc : s.pc.sends = some (qid, msg, pc))
    (hfd : s.fds qid = some q) : TrailInv cfg { s.enqueue q msg with pc := pc } (t.respond q) := by
  obtain ⟨j, hj⟩ := (hsys.fds (sends_running hpc).1).of_sends hpc
  obtain rfl : q = some j := Option.some.inj (hfd.symm.trans hj)
  -- what is sent is the message in hand, so its stamp is the one in hand
  have hbefore : hand cfg s.fds j s.pc ≠ [] := by
    rw [(hand_of_sends cfg s.fds j hpc).1, toClient, if_pos hfd]
    exact List.cons_ne_nil _ _
  have hstamp := h.inHand j hbefore
  refine ⟨?_, fun i hi => absurd (hand_of_sends cfg s.fds i hpc).2 hi, fun i => ?_,
    fun i req inTime hreq => (h.latest i req inTime hreq).of_eq rfl rfl⟩
  · have hkeep : ∀ m o, t.Public cfg m o → (t.respond (some j)).Public cfg m o :=
      fun m o hpub => hpub.of_eq rfl
    simpa [Sys.enqueue] using h.pub.imp hkeep
  · -- the message goes to the end of this client's queue
    by_cases hij : i = j
    · subst hij
      simp [Sys.enqueue, hstamp, h.priv]
    · simp [Sys.enqueue, hij, h.priv]

theorem trailInv_server (h : TrailInv cfg s t) (hsys : SysInv cfg s)
    (hinj : Function.Injective cfg.pid) (fd : ℤ) (clock : Clock) (hdoes : ServerDoes cfg s s') :
    TrailInv cfg s' (follow cfg (.server fd clock) s t) := by
  -- an exit moves no message
  have hexit : s.pc ≠ .receive → s.pc.sends = none → ∀ status,
      TrailInv cfg (s.exitServer status) (follow cfg (.server fd clock) s t) := by
    intro hreceive hsends status
    rw [follow_quiet hreceive hsends]
    exact h.idle rfl rfl fun i hi => absurd (hand_of_status (exit_status s.data status)) hi
  cases hdoes with
  | create fd' q hpc hfd hq =>
    rw [follow_quiet (by simp [hpc]) (by simp [hpc, ServerPc.sends])]
    exact h.idle rfl rfl fun i hi => absurd rfl hi
  | wait hpc =>
    rw [follow_quiet (by simp [hpc]) (by simp [hpc, ServerPc.sends])]
    exact h.idle rfl rfl fun i hi => absurd rfl hi
  | finish q hpc hactive hfd hempty =>
    exact hexit (by simp [hpc]) (by simp [hpc, ServerPc.sends]) 0
  | receive clock' q m ms hpc hfd hq =>
    have hfds := hsys.fds (.of_eq hpc ServerPc.noConfusion rfl)
    obtain rfl := hfds.public_eq hfd
    have hfollow : follow cfg (.server fd clock) s t = t.receive none := by
      simp [follow, hpc, hfd]
    rw [hfollow]
    exact h.receive hsys hinj hpc hq (hfds.dispatched cfg.server clock' m)
  | openClient fd' msg q hpc hlink hfd =>
    rw [follow_quiet (by simp [hpc]) (by simp [hpc, ServerPc.sends])]
    exact h.openClient hsys hinj hpc hlink
  | send qid msg pc q hpc hfd hroom =>
    rw [follow_send hpc hfd]
    exact h.send hsys hpc hfd
  | close qid d q hpc hfd =>
    obtain ⟨hreceive, hsends⟩ := sends_of_closes hpc
    rw [follow_quiet hreceive hsends]
    exact h.idle rfl rfl fun i hi => absurd rfl hi
  | missing msg hpc hlink => exact hexit (by simp [hpc]) (by simp [hpc, ServerPc.sends]) (-1)
  | badPublic hpc hfd =>
    rcases hpc with hpc | hpc
    · exact hexit (by simp [hpc]) (by simp [hpc, ServerPc.sends]) (-1)
    · -- the descriptor of the public queue is open as long as the server runs
      have hopen := (hsys.fds (.of_eq hpc ServerPc.noConfusion rfl)).public_fd
      exact absurd (hopen.symm.trans hfd) (Option.some_ne_none _)
  | badSend qid msg pc hpc hfd =>
    obtain ⟨j, hj⟩ := (hsys.fds (sends_running hpc).1).of_sends hpc
    exact absurd (hj.symm.trans hfd) (Option.some_ne_none _)
  | badClose qid d hpc hfd =>
    obtain ⟨hreceive, hsends⟩ := sends_of_closes hpc
    exact hexit hreceive hsends (-1)
  | closing status fd' pc hpc hpc' =>
    obtain ⟨hreceive, hsends⟩ := sends_of_status hpc
    rw [follow_quiet hreceive hsends]
    exact h.idle rfl rfl fun i hi => absurd (hand_of_status hpc') hi
  | unlink status hpc =>
    rw [follow_quiet (by simp [hpc]) (by simp [hpc, ServerPc.sends])]
    exact h.idle rfl rfl fun i hi => absurd rfl hi

/-! ### Steps of a client -/

theorem follow_ask {msg : Message} {pc : ClientPc} {q : Option ι}
    (hpc : ClientPc.asks cfg i (s.client i) = some (msg, pc))
    (hpub : (s.client i).pubQid = some q) :
    follow cfg (.client i) s t = t.ask i msg q := by
  unfold ClientPc.asks at hpc
  split at hpc
  · rename_i hsend
    obtain ⟨rfl, -⟩ := Prod.mk.inj (Option.some.inj hpc)
    simp [follow, hsend, hpub]
  · rename_i hsend
    obtain ⟨rfl, -⟩ := Prod.mk.inj (Option.some.inj hpc)
    simp [follow, hsend, hpub]
  · exact absurd hpc (Option.some_ne_none _).symm

theorem follow_tell {msg : Message} {pc : ClientPc} {q : Option ι}
    (hpc : ClientPc.tells cfg i (s.client i) = some (msg, pc))
    (hpub : (s.client i).pubQid = some q) :
    follow cfg (.client i) s t = t.send i msg q := by
  unfold ClientPc.tells at hpc
  split at hpc
  · rename_i hsend
    obtain ⟨rfl, -⟩ := Prod.mk.inj (Option.some.inj hpc)
    simp [follow, hsend, hpub]
  · rename_i hsend
    obtain ⟨rfl, -⟩ := Prod.mk.inj (Option.some.inj hpc)
    simp [follow, hsend, hpub]
  · exact absurd hpc (Option.some_ne_none _).symm

theorem follow_take {q : Option ι} (hwaits : (s.client i).pc.Waits)
    (hpriv : (s.client i).privQid = some q) : follow cfg (.client i) s t = t.take q := by
  rcases hwaits with hpc | hpc
  · simp [follow, hpc, hpriv]
  · simp [follow, hpc, hpriv]

/-- Nothing is under way for a client that asks. -/
theorem TalkInv.quiet_of_asks (h : TalkInv cfg s) {msg : Message} {pc : ClientPc}
    (hpc : ClientPc.asks cfg i (s.client i) = some (msg, pc)) : s.flight cfg i = [] := by
  refine (h.orderly i).idle ?_
  show (s.client i).pc.phase = .outside ∨ (s.client i).pc.phase = .ready
  unfold ClientPc.asks at hpc
  split at hpc
  · rename_i hsend
    exact .inl (congrArg ClientPc.phase hsend)
  · rename_i hsend
    exact .inr (congrArg ClientPc.phase hsend)
  · exact absurd hpc (Option.some_ne_none _).symm

/-- A client makes a request. -/
theorem TrailInv.ask (h : TrailInv cfg s t) (htalk : TalkInv cfg s)
    {msg : Message} {pc : ClientPc} (hpc : ClientPc.asks cfg i (s.client i) = some (msg, pc)) :
    TrailInv cfg { s.clientPut i none msg pc with
      latest := Function.update s.latest i (some (msg, (s.link serverPath).isSome)) }
      (t.ask i msg none) := by
  -- before it asks, a client has nothing on its way to it
  have hflight := htalk.quiet_of_asks hpc
  rw [flight_eq, List.append_eq_nil_iff, List.append_eq_nil_iff, List.map_eq_nil_iff,
    List.map_eq_nil_iff, List.filter_eq_nil_iff] at hflight
  obtain ⟨hpriv, hhand, hpublic⟩ := hflight
  have hasks := (htalk.sys.client i).of_asks hpc
  have hasked : ∀ j, j ≠ i → (t.ask i msg none).asked j = t.asked j := by
    intro j hji
    simp [hji]
  have hnew : (t.ask i msg none).asked i = (t.sent i).length := by simp
  refine ⟨?_, fun j hj => ?_, fun j => ?_, fun j req inTime hreq => ?_⟩
  · have hkeep : ∀ m o, m ∈ s.queue none ∧ t.Public cfg m o →
        (t.ask i msg none).Public cfg m o := by
      rintro m o ⟨hm, hsender, hlatest⟩
      refine ⟨hsender, fun hreq => ?_⟩
      by_cases hoi : o.1 = i
      · -- the client has no other request in the queue
        exact absurd (hoi ▸ hreq) (hpublic m hm)
      · rw [hasked o.1 hoi, hlatest hreq]
    have hold : List.Forall₂ ((t.ask i msg none).Public cfg) (s.queue none) (t.stamps none) :=
      ((List.forall₂_and_left _ _).mpr ⟨fun m hm => hm, h.pub⟩).imp hkeep
    have hlast : (t.ask i msg none).Public cfg msg (i, (t.sent i).length) :=
      ⟨hasks.sender, fun _ => hnew.symm⟩
    simpa [Sys.clientPut, Sys.enqueue, Sys.setClient] using
      List.rel_append hold (.cons hlast .nil)
  · -- the client that asks has nothing in the server's hand
    have hji : j ≠ i := by
      rintro rfl
      exact hj hhand
    rw [hasked j hji]
    exact h.inHand j hj
  · by_cases hji : j = i
    · subst hji
      simp [Sys.clientPut, Sys.enqueue, Sys.setClient, h.priv, hpriv]
    · simp [Sys.clientPut, Sys.enqueue, Sys.setClient, h.priv, hji]
  · by_cases hji : j = i
    · subst hji
      have hlatest : Function.update s.latest j (some (msg, (s.link serverPath).isSome)) j =
          some (req, inTime) := hreq
      rw [Function.update_self] at hlatest
      obtain ⟨rfl, -⟩ := Prod.mk.inj (Option.some.inj hlatest)
      exact ⟨by simp, by simp⟩
    · have hlatest : Function.update s.latest i (some (msg, (s.link serverPath).isSome)) j =
          some (req, inTime) := hreq
      rw [Function.update_of_ne hji] at hlatest
      exact (h.latest j req inTime hlatest).of_eq (by simp [hji]) (hasked j hji)

/-- A client sends a message to which it awaits no response. -/
theorem TrailInv.tell (h : TrailInv cfg s t) (hsys : SysInv cfg s) {msg : Message}
    {pc : ClientPc} (hpc : ClientPc.tells cfg i (s.client i) = some (msg, pc)) :
    TrailInv cfg (s.clientPut i none msg pc) (t.send i msg none) := by
  have hasks := (hsys.client i).of_tells hpc
  -- `QUIT` and `END` are never answered
  have hno : requestOf (cfg.pid i) msg = false := by
    rw [← Bool.not_eq_true, requestOf_asks hasks]
    simp
  refine ⟨?_, h.inHand, fun j => ?_, fun j req inTime hreq => ?_⟩
  · have hkeep : ∀ m o, t.Public cfg m o → (t.send i msg none).Public cfg m o :=
      fun m o hpub => hpub.of_eq rfl
    have hlast : (t.send i msg none).Public cfg msg (i, (t.sent i).length) :=
      ⟨hasks.sender, fun hreq => absurd (hno.symm.trans hreq) Bool.false_ne_true⟩
    simpa [Sys.clientPut, Sys.enqueue, Sys.setClient] using
      List.rel_append (h.pub.imp hkeep) (.cons hlast .nil)
  · simpa [Sys.clientPut, Sys.enqueue, Sys.setClient] using h.priv j
  · have hlatest := h.latest j req inTime hreq
    by_cases hji : j = i
    · subst hji
      have hlt : t.asked j < (t.sent j).length :=
        (List.getElem?_eq_some_iff.mp hlatest.at_asked).1
      refine ⟨?_, fun m hm => ?_⟩
      · simpa [List.getElem?_append_left hlt] using hlatest.at_asked
      · rw [Trail.send_sent, Trail.send_asked, Function.update_self,
          List.drop_append_of_le_length hlt, List.mem_append, List.mem_singleton] at hm
        rcases hm with hm | rfl
        · exact hlatest.since m hm
        · exact hno
    · exact hlatest.of_eq (by simp [hji]) rfl

/-- A client takes a response from its queue. -/
theorem TrailInv.take (h : TrailInv cfg s t) (c : Client ι) {m : Message} {ms : List Message}
    (hq : s.queue (some i) = m :: ms) :
    TrailInv cfg ((s.leave (some i) ms).setClient i c) (t.take (some i)) := by
  refine ⟨?_, h.inHand, fun j => ?_, fun j req inTime hreq =>
    (h.latest j req inTime hreq).of_eq rfl rfl⟩
  · have hkeep : ∀ m o, t.Public cfg m o → (t.take (some i)).Public cfg m o :=
      fun m o hpub => hpub.of_eq rfl
    simpa [Sys.leave, Sys.setClient] using h.pub.imp hkeep
  · by_cases hji : j = i
    · subst hji
      simp [Sys.leave, Sys.setClient, h.priv, hq]
    · simp [Sys.leave, Sys.setClient, h.priv, hji]

theorem trailInv_client (h : TrailInv cfg s t) (htalk : TalkInv cfg s)
    (hinj : Function.Injective cfg.pid) (hdoes : ClientDoes cfg i s s') :
    TrailInv cfg s' (follow cfg (.client i) s t) := by
  -- a step without a message leaves the trail as it is
  have hquiet : ∀ c link, follow cfg (.client i) s t = t →
      TrailInv cfg { s.setClient i c with link := link } (follow cfg (.client i) s t) := by
    intro c link hfollow
    rw [hfollow]
    exact h.idle rfl rfl fun _ hi => hi
  cases hdoes with
  | ask msg pc q hpc hpub hroom =>
    obtain rfl := (htalk.sys.client i).pub q hpub
    rw [follow_ask hpc hpub]
    exact h.ask htalk hpc
  | tell msg pc q hpc hpub hroom =>
    obtain rfl := (htalk.sys.client i).pub q hpub
    rw [follow_tell hpc hpub]
    exact h.tell htalk.sys hpc
  | session q m ms hpc hpriv hq =>
    obtain rfl := priv_own htalk.sys hinj hpriv
    rw [follow_take (.inl hpc) hpriv]
    exact h.take _ hq
  | response q m ms hpc hpriv hq =>
    obtain rfl := priv_own htalk.sys hinj hpriv
    rw [follow_take (.inr hpc) hpriv]
    exact h.take _ hq
  | noServer hpc hlink => exact hquiet _ s.link (by simp [follow, hpc])
  | openPublic q hpc hlink => exact hquiet _ s.link (by simp [follow, hpc])
  | openPrivate q hpc hlink => exact hquiet _ _ (by simp [follow, hpc])
  | prompt hpc => exact hquiet _ s.link (by simp [follow, hpc])
  | closing status pc hpc hpc' hquiet' =>
    -- the `QUIT` of an interrupted client is the other case
    refine hquiet _ s.link ?_
    cases hcases : (s.client i).pc with
    | closePublic status' => simp [follow, hcases]
    | closePrivate status' => simp [follow, hcases]
    | unlink status' => simp [follow, hcases]
    | gone status' => simp [follow, hcases]
    | sendQuit status' => simp [ClientPc.tells, hcases] at hquiet'
    | _ => simp [hcases, ClientPc.status] at hpc
  | unlink status hpc => exact hquiet _ _ (by simp [follow, hpc])

/-! ### All steps -/

/-- Only the client's own steps change the number of its latest request. -/
theorem follow_asked {e : Event ι} (he : e ≠ .client i) :
    (follow cfg e s t).asked i = t.asked i := by
  have helim : ∀ (q : Option (Option ι)) (f : Option ι → Trail ι),
      (∀ q, (f q).asked i = t.asked i) → (q.elim t f).asked i = t.asked i := by
    intro q f hf
    cases q with
    | none => rfl
    | some q => exact hf q
  cases e with
  | server fd clock =>
    simp only [follow]
    split <;> first | rfl | exact helim _ _ fun _ => rfl
  | interruptServer => rfl
  | client j =>
    have hij : i ≠ j := fun heq => he (congrArg Event.client heq.symm)
    simp only [follow]
    split <;> first | rfl | exact helim _ _ fun _ => rfl | exact helim _ _ fun _ => by simp [hij]
  | interruptClient j => rfl

theorem trailInv_step (h : TrailInv cfg s t) (htalk : TalkInv cfg s)
    (hinj : Function.Injective cfg.pid) {e : Event ι} (hstep : (system cfg).step e s = some s') :
    TrailInv cfg s' (follow cfg e s t) := by
  cases does hstep with
  | server fd clock hdoes => exact trailInv_server h htalk.sys hinj fd clock hdoes
  | interruptServer hpc =>
    exact h.idle rfl rfl fun i hi => absurd (hand_of_status (exit_status s.data 2)) hi
  | client i hdoes => exact trailInv_client h htalk hinj hdoes
  | interruptClient i hpc => exact h.idle rfl rfl fun _ hi => hi

theorem trailInv_start : TrailInv cfg cfg.start Trail.start where
  pub := .nil
  inHand _ hi := absurd rfl hi
  priv _ := rfl
  latest _ _ _ hreq := absurd hreq (Option.some_ne_none _).symm

theorem trailInv_run (hinj : Function.Injective cfg.pid) (es : List (Event ι)) :
    TalkInv cfg (trackedRun cfg es).1 ∧
      TrailInv cfg (trackedRun cfg es).1 (trackedRun cfg es).2 := by
  have hstep : ∀ e (w w' : Sys ι × Trail ι), TalkInv cfg w.1 ∧ TrailInv cfg w.1 w.2 →
      (tracked cfg).step e w = some w' → TalkInv cfg w'.1 ∧ TrailInv cfg w'.1 w'.2 := by
    rintro e w w' ⟨htalk, htrail⟩ hs
    obtain ⟨-, hnext, hfollow⟩ := Machine.watch_step_eq_some.mp hs
    exact ⟨talkInv_step htalk hinj hnext, hfollow ▸ trailInv_step htrail htalk hinj hnext⟩
  exact Machine.run_invariant hstep es ⟨talkInv_start, trailInv_start⟩

end Steps

end Posix
end MsgQueue
end OpSys
