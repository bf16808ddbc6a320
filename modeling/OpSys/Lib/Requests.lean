import Mathlib.Data.List.Basic

/-!
# One request at a time

A client of a server joins with a first request and then asks one request after
another; before the next one it waits for the response.  What is under way for it is
on its way to the server, in the server's hand, or on its way back, and the server may
forget the client after it has left.  Where exactly something is under way does not
matter here, so that a move of a slip from one queue to the next is no move.

## Main definitions

* `Slip` — a request or a response under way; `Phase` — what the client is about.
* `Talk` — a client seen from outside; `Talk.Move` — what can happen to it.
* `Talk.Orderly` — at most one slip is under way, and it belongs to the latest request.

## Main results

* `Talk.Orderly.move` — every move keeps the order.
-/

namespace OpSys

variable {R S : Type*}

/-- What is under way between a client and the server. -/
inductive Slip (R S : Type*)
  | asked (r : R)
  | answered (a : S)

/-- What a client is about. -/
inductive Phase
  /-- It has not asked anything. -/
  | outside
  /-- It waits for the response to its first request. -/
  | joining
  /-- It may ask. -/
  | ready
  /-- It waits for a response. -/
  | asking
  /-- It asks no more. -/
  | left

/-- What the requests and the responses mean. -/
structure Terms (R S : Type*) where
  answers : R → S → Prop
  /-- The request is a first one. -/
  joins : R → Prop
  /-- The response lets the client in. -/
  grants : S → Prop

/-- A client, and what the server knows about it. -/
@[ext]
structure Talk (R S : Type*) where
  phase : Phase
  latest : Option R
  flight : List (Slip R S)
  registered : Prop
  failed : Prop

namespace Talk

/-- What can happen to a client. -/
inductive Move (T : Terms R S) (t : Talk R S) : Talk R S → Prop
  | join (r : R) (hphase : t.phase = .outside) (hjoins : T.joins r) :
      Move T t { t with phase := .joining, latest := some r, flight := t.flight ++ [.asked r] }
  | ask (r : R) (hphase : t.phase = .ready) :
      Move T t { t with phase := .asking, latest := some r, flight := t.flight ++ [.asked r] }
  | answer (xs ys : List (Slip R S)) (r : R) (a : S) (registered : Prop)
      (hflight : t.flight = xs ++ .asked r :: ys) (hanswers : T.answers r a)
      (hkeep : t.registered → registered) (hgrants : T.joins r → T.grants a → registered) :
      Move T t { t with flight := xs ++ .answered a :: ys, registered := registered }
  /-- The server does not know whom to answer. -/
  | ignore (xs ys : List (Slip R S)) (r : R) (hflight : t.flight = xs ++ .asked r :: ys)
      (hjoins : ¬T.joins r) (hunknown : ¬t.registered) : Move T t { t with flight := xs ++ ys }
  | enter (a : S) (ys : List (Slip R S)) (hphase : t.phase = .joining)
      (hflight : t.flight = .answered a :: ys) (hgrants : T.grants a) :
      Move T t { t with phase := .ready, flight := ys }
  | turnAway (a : S) (ys : List (Slip R S)) (hflight : t.flight = .answered a :: ys) :
      Move T t { t with phase := .left, flight := ys }
  | receive (a : S) (ys : List (Slip R S)) (hphase : t.phase = .asking)
      (hflight : t.flight = .answered a :: ys) : Move T t { t with phase := .ready, flight := ys }
  | leave : Move T t { t with phase := .left }
  | forget (registered : Prop) (hphase : t.phase = .left) :
      Move T t { t with registered := registered }
  /-- Slips are lost with a client that has left, or when the server fails. -/
  | lose (ys : List (Slip R S)) (failed : Prop) (hsub : ys.Sublist t.flight)
      (hlost : t.phase = .left ∨ failed) (hfailed : t.failed → failed) :
      Move T t { t with flight := ys, failed := failed }

/-- A client that has left does not come back. -/
theorem Move.left {T : Terms R S} {t t' : Talk R S} (hmove : Move T t t')
    (hleft : t.phase = .left) : t'.phase = .left := by
  cases hmove with
  | join r hphase hjoins => exact absurd (hphase.symm.trans hleft) Phase.noConfusion
  | ask r hphase => exact absurd (hphase.symm.trans hleft) Phase.noConfusion
  | enter a ys hphase => exact absurd (hphase.symm.trans hleft) Phase.noConfusion
  | turnAway => rfl
  | receive a ys hphase => exact absurd (hphase.symm.trans hleft) Phase.noConfusion
  | leave => rfl
  | _ => exact hleft

/-- What is under way belongs to the latest request of a client that the server knows. -/
structure Orderly (T : Terms R S) (t : Talk R S) : Prop where
  one : t.flight.length ≤ 1
  idle : t.phase = .outside ∨ t.phase = .ready → t.flight = []
  asked : ∀ r, .asked r ∈ t.flight → t.latest = some r
  answered : ∀ a, .answered a ∈ t.flight → ∃ r, t.latest = some r ∧ T.answers r a
  joining : t.phase = .joining → ∃ r, t.latest = some r ∧ T.joins r
  known : t.phase = .ready ∨ t.phase = .asking → t.registered
  granted : t.phase = .joining → ∀ a, .answered a ∈ t.flight → T.grants a → t.registered
  /-- Nothing is lost as long as the server is well. -/
  kept : t.phase = .joining ∨ t.phase = .asking → ¬t.failed → t.flight ≠ []

variable {T : Terms R S} {t t' : Talk R S}

theorem orderly_outside (hphase : t.phase = .outside) (hflight : t.flight = []) :
    Orderly T t := by
  constructor <;> simp [hphase, hflight]

namespace Orderly

/-- The slip under way is the only one. -/
theorem eq_nil (h : Orderly T t) {xs ys : List (Slip R S)} {slip : Slip R S}
    (hflight : t.flight = xs ++ slip :: ys) : xs = [] ∧ ys = [] := by
  have hone := h.one
  rw [hflight, List.length_append, List.length_cons] at hone
  exact ⟨List.length_eq_zero_iff.mp (by omega), List.length_eq_zero_iff.mp (by omega)⟩

theorem eq_nil_of_cons (h : Orderly T t) {ys : List (Slip R S)} {slip : Slip R S}
    (hflight : t.flight = slip :: ys) : ys = [] := by
  have hflight' : t.flight = [] ++ slip :: ys := hflight
  exact (h.eq_nil hflight').2

/-- A client with a request under way waits for the response, or has left. -/
theorem not_idle (h : Orderly T t) {xs ys : List (Slip R S)} {slip : Slip R S}
    (hflight : t.flight = xs ++ slip :: ys) : ¬(t.phase = .outside ∨ t.phase = .ready) := by
  intro hidle
  have hnil := (h.idle hidle).symm.trans hflight
  simp at hnil

/-- The only slip under way is a new request. -/
theorem orderly_asked {phase : Phase} {r : R} (hphase : phase = .joining ∧ T.joins r ∨
    phase = .asking ∧ t.registered) :
    Orderly T { t with phase := phase, latest := some r, flight := [.asked r] } := by
  constructor <;> rcases hphase with ⟨rfl, hr⟩ | ⟨rfl, hr⟩ <;> simp [hr]

/-- Nothing is under way any more. -/
theorem orderly_none {phase : Phase} (hphase : phase = .ready ∧ t.registered ∨ phase = .left) :
    Orderly T { t with phase := phase, flight := [] } := by
  constructor <;> rcases hphase with ⟨rfl, hr⟩ | rfl <;> simp [*]

theorem left (h : Orderly T t) {ys : List (Slip R S)} (hsub : ys.Sublist t.flight)
    (registered failed : Prop) :
    Orderly T ⟨.left, t.latest, ys, registered, failed⟩ where
  one := Nat.le_trans hsub.length_le h.one
  idle := by simp
  asked r hr := h.asked r (hsub.subset hr)
  answered a ha := h.answered a (hsub.subset ha)
  joining := by simp
  known := by simp
  granted := by simp
  kept := by simp

theorem answer (h : Orderly T t) {xs ys : List (Slip R S)} {r : R} {a : S} {registered : Prop}
    (hflight : t.flight = xs ++ .asked r :: ys) (hanswers : T.answers r a)
    (hkeep : t.registered → registered) (hgrants : T.joins r → T.grants a → registered) :
    Orderly T { t with flight := xs ++ .answered a :: ys, registered := registered } := by
  obtain ⟨rfl, rfl⟩ := h.eq_nil hflight
  have hidle := h.not_idle hflight
  have hlatest : t.latest = some r := h.asked r (by simp [hflight])
  refine ⟨by simp, fun hphase => absurd hphase hidle, by simp, ?_, h.joining,
    fun hphase => hkeep (h.known hphase), ?_, by simp⟩
  · intro a' ha'
    obtain rfl : a' = a := by simpa using ha'
    exact ⟨r, hlatest, hanswers⟩
  · intro hphase a' ha' hgrant
    obtain rfl : a' = a := by simpa using ha'
    obtain ⟨r', hr', hjoins⟩ := h.joining hphase
    obtain rfl : r' = r := Option.some.inj (hr'.symm.trans hlatest)
    exact hgrants hjoins hgrant

/-- The server ignores only clients that have left. -/
theorem left_of_ignored (h : Orderly T t) {xs ys : List (Slip R S)} {r : R}
    (hflight : t.flight = xs ++ .asked r :: ys) (hjoins : ¬T.joins r)
    (hunknown : ¬t.registered) : t.phase = .left := by
  have hlatest : t.latest = some r := h.asked r (by simp [hflight])
  cases hphase : t.phase with
  | outside => exact absurd (.inl hphase) (h.not_idle hflight)
  | joining =>
    obtain ⟨r', hr', hjoins'⟩ := h.joining hphase
    obtain rfl : r' = r := Option.some.inj (hr'.symm.trans hlatest)
    exact absurd hjoins' hjoins
  | ready => exact absurd (.inr hphase) (h.not_idle hflight)
  | asking => exact absurd (h.known (.inr hphase)) hunknown
  | left => rfl

/-- **Every move keeps the order.** -/
theorem move (h : Orderly T t) (hmove : Move T t t') : Orderly T t' := by
  cases hmove with
  | join r hphase hjoins =>
    -- before it asks, nothing is on the way
    rw [h.idle (.inl hphase), List.nil_append]
    exact orderly_asked (.inl ⟨rfl, hjoins⟩)
  | ask r hphase =>
    rw [h.idle (.inr hphase), List.nil_append]
    exact orderly_asked (.inr ⟨rfl, h.known (.inl hphase)⟩)
  | answer xs ys r a registered hflight hanswers hkeep hgrants =>
    exact h.answer hflight hanswers hkeep hgrants
  | ignore xs ys r hflight hjoins hunknown =>
    -- a request that is not answered is one of a client that has left
    obtain ⟨phase, latest, flight, registered, failed⟩ := t
    obtain rfl := h.left_of_ignored hflight hjoins hunknown
    refine h.left ?_ registered failed
    rw [hflight]
    exact (List.sublist_cons_self _ _).append_left xs
  | enter a ys hphase hflight hgrants =>
    -- the response taken is all that was on the way
    obtain rfl := h.eq_nil_of_cons hflight
    exact orderly_none (.inl ⟨rfl, h.granted hphase a (by simp [hflight]) hgrants⟩)
  | turnAway a ys hflight =>
    obtain rfl := h.eq_nil_of_cons hflight
    exact orderly_none (.inr rfl)
  | receive a ys hphase hflight =>
    obtain rfl := h.eq_nil_of_cons hflight
    exact orderly_none (.inl ⟨rfl, h.known (.inr hphase)⟩)
  | leave => exact h.left (List.Sublist.refl _) _ _
  | forget registered hphase =>
    obtain ⟨phase, latest, flight, _, failed⟩ := t
    obtain rfl := hphase
    exact h.left (List.Sublist.refl _) _ _
  | lose ys failed hsub hlost hfailed =>
    refine ⟨Nat.le_trans hsub.length_le h.one, fun hphase => ?_,
      fun r hr => h.asked r (hsub.subset hr),
      fun a ha => h.answered a (hsub.subset ha), h.joining, h.known,
      fun hphase a ha => h.granted hphase a (hsub.subset ha), fun hphase hwell => ?_⟩
    · exact List.eq_nil_of_sublist_nil (h.idle hphase ▸ hsub)
    · -- only a failed server loses the slips of a client that waits
      rcases hlost with hleft | hlost
      · rw [hleft] at hphase
        simp at hphase
      · exact absurd hlost hwell

end Orderly

end Talk

end OpSys
