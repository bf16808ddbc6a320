import OpSys.Lib.Ledger
import OpSys.ProdCons.Store
import Mathlib.Data.List.Nodup
import Mathlib.Data.List.Perm.Subperm

/-!
# The books of a run

History variables common to the two programs.  Every line a producer reads has a
serial number, the position of the line in `lines`.  A producer with a line in
its buffer claims a slot for it by advancing `curr_prod` and fills the slot with
a new block; a consumer gets its turn by advancing `curr_cons` and takes what is
in the slot.

## Main definitions

* `History` — the books; `History.read`, `claim`, `fill`, `advance`, `take` —
  the entries.
* `Accounts` — the books are consistent.
* `AllTaken` — every line read has been taken once and all slots are `NULL`.
* `Clean`, `InHand`, `Unclaimed`, `Claimed` — what the books say of a producer.
* `Keeps t` — what an entry of thread `t` leaves as it was.

## Main results

* `Clean.read`, `Unclaimed.claim`, `Claimed.fill` — the stages of a line.
* `Clean.frame` and its like — other threads' entries do not change them.
-/

namespace OpSys
namespace ProdCons

/-- A line taken out of a slot. -/
structure Take (cfg : Config) where
  taker : Fin cfg.K
  /-- The number of the advance of `curr_cons` the take belongs to. -/
  turn : ℕ
  /-- The pointer found in the slot. -/
  ptr : Option Ptr
  /-- The bytes in the block at that time. -/
  text : Option (List UInt8)
  deriving DecidableEq

/-- What the steps of a run have done, each list in the order of the steps. -/
structure History (cfg : Config) where
  /-- The lines `fgets` returned, with the producer that called it. -/
  lines : List (Fin cfg.P × List UInt8)
  /-- The serial number of the last line each producer has read. -/
  serial : Fin cfg.P → ℕ
  /-- The advances of `curr_prod`: the producer and the serial number of its line. -/
  claims : List (Fin cfg.P × ℕ)
  /-- The number of the last claim of each producer. -/
  ticket : Fin cfg.P → ℕ
  /-- The calls of `malloc`: the producer and the serial number of its line. -/
  fills : List (Fin cfg.P × ℕ)
  /-- The advances of `curr_cons`. -/
  advances : List (Fin cfg.K)
  /-- The number of a consumer's last advance, until it has emptied the slot. -/
  turn : Fin cfg.K → Option ℕ
  /-- The takes, each entered when the slot is set to `NULL`. -/
  takes : List (Take cfg)

variable {cfg : Config}

namespace History

/-- Empty books. -/
def empty (cfg : Config) : History cfg :=
  ⟨[], fun _ => 0, [], fun _ => 0, [], [], fun _ => none, []⟩

variable (h : History cfg)

/-- Producer `p` has read a line. -/
def read (p : Fin cfg.P) (line : List UInt8) : History cfg :=
  { h with
    lines := h.lines ++ [(p, line)]
    serial := Function.update h.serial p h.lines.length }

/-- Producer `p` has advanced `curr_prod`. -/
def claim (p : Fin cfg.P) : History cfg :=
  { h with
    claims := h.claims ++ [(p, h.serial p)]
    ticket := Function.update h.ticket p h.claims.length }

/-- Producer `p` has called `malloc`. -/
def fill (p : Fin cfg.P) : History cfg :=
  { h with fills := h.fills ++ [(p, h.serial p)] }

/-- Consumer `k` has advanced `curr_cons`. -/
def advance (k : Fin cfg.K) : History cfg :=
  { h with
    advances := h.advances ++ [k]
    turn := Function.update h.turn k (some h.advances.length) }

/-- Consumer `k` has emptied the slot of its turn. -/
def take (k : Fin cfg.K) (ptr : Option Ptr) (text : Option (List UInt8)) : History cfg :=
  match h.turn k with
  | none => h
  | some j =>
    { h with
      takes := h.takes ++ [⟨k, j, ptr, text⟩]
      turn := Function.update h.turn k none }

end History

theorem take_eq {h : History cfg} {k : Fin cfg.K} {j : ℕ} (hturn : h.turn k = some j)
    (ptr : Option Ptr) (text : Option (List UInt8)) :
    h.take k ptr text =
      { h with
        takes := h.takes ++ [⟨k, j, ptr, text⟩]
        turn := Function.update h.turn k none } := by
  simp only [History.take, hturn]

/-! ### Consistent books -/

/-- Every claim and every fill is for a line that its producer has read, and no line
has two of either. -/
structure Accounts (h : History cfg) : Prop where
  claim_line : ∀ (j : ℕ) p i, h.claims[j]? = some (p, i) → ∃ line, h.lines[i]? = some (p, line)
  claims_nodup : h.claims.Nodup
  fill_line : ∀ (q : ℕ) p i, h.fills[q]? = some (p, i) → ∃ line, h.lines[i]? = some (p, line)
  fills_nodup : h.fills.Nodup

/-- Every line that producer `p` has read is in a block. -/
def Clean (h : History cfg) (p : Fin cfg.P) : Prop :=
  ∀ (i : ℕ) line, h.lines[i]? = some (p, line) → ∃ q : ℕ, h.fills[q]? = some (p, i)

/-- Producer `p` has read `line` and has not called `malloc` for it. -/
structure InHand (h : History cfg) (p : Fin cfg.P) (line : List UInt8) : Prop where
  read : h.lines[h.serial p]? = some (p, line)
  others : ∀ (i : ℕ) line', h.lines[i]? = some (p, line') → i ≠ h.serial p →
    ∃ q : ℕ, h.fills[q]? = some (p, i)
  unfilled : ∀ q : ℕ, h.fills[q]? ≠ some (p, h.serial p)

/-- Producer `p` has `line` in its buffer and no claim for it yet. -/
structure Unclaimed (h : History cfg) (p : Fin cfg.P) (line : List UInt8) : Prop
    extends InHand h p line where
  unclaimed : ∀ j : ℕ, h.claims[j]? ≠ some (p, h.serial p)

/-- Producer `p` has `line` in its buffer and a claim for it. -/
structure Claimed (h : History cfg) (p : Fin cfg.P) (line : List UInt8) : Prop
    extends InHand h p line where
  claimed : h.claims[h.ticket p]? = some (p, h.serial p)

/-- The accounts are of the producers only. -/
theorem Accounts.of_eq {h h' : History cfg} (ha : Accounts h) (hlines : h'.lines = h.lines)
    (hclaims : h'.claims = h.claims) (hfills : h'.fills = h.fills) : Accounts h' := by
  refine ⟨?_, ?_, ?_, ?_⟩
  · rw [hclaims, hlines]
    exact ha.claim_line
  · rw [hclaims]
    exact ha.claims_nodup
  · rw [hfills, hlines]
    exact ha.fill_line
  · rw [hfills]
    exact ha.fills_nodup

theorem accounts_empty : Accounts (History.empty cfg) :=
  ⟨by simp [History.empty], List.nodup_nil, by simp [History.empty], List.nodup_nil⟩

theorem clean_empty (p : Fin cfg.P) : Clean (History.empty cfg) p := by
  simp [Clean, History.empty]

/-- In consistent books no line has two claims. -/
theorem Accounts.claim_once {h : History cfg} (ha : Accounts h) {n n' i : ℕ} {p p' : Fin cfg.P}
    (hn : h.claims[n]? = some (p, i)) (hn' : h.claims[n']? = some (p', i)) : n = n' := by
  obtain ⟨line, hline⟩ := ha.claim_line n p i hn
  obtain ⟨line', hline'⟩ := ha.claim_line n' p' i hn'
  obtain rfl : p = p' := congrArg Prod.fst (Option.some.inj (hline.symm.trans hline'))
  have hlt := (List.getElem?_eq_some_iff.mp hn).1
  exact (List.getElem?_inj hlt ha.claims_nodup).mp (hn.trans hn'.symm)

/-- A ledger that has no line twice is no longer than the lines. -/
theorem serials_length_le {h : History cfg} {xs : List (Fin cfg.P × ℕ)}
    (hxs : ∀ (q : ℕ) p i, xs[q]? = some (p, i) → ∃ line, h.lines[i]? = some (p, line))
    (hnodup : xs.Nodup) : xs.length ≤ h.lines.length := by
  have hinj : ∀ x ∈ xs, ∀ y ∈ xs, x.2 = y.2 → x = y := by
    rintro ⟨p, i⟩ hx ⟨p', i'⟩ hy (rfl : i = i')
    obtain ⟨q, hq⟩ := List.getElem?_of_mem hx
    obtain ⟨q', hq'⟩ := List.getElem?_of_mem hy
    obtain ⟨line, hline⟩ := hxs q p i hq
    obtain ⟨line', hline'⟩ := hxs q' p' i hq'
    obtain rfl : p = p' := congrArg Prod.fst (Option.some.inj (hline.symm.trans hline'))
    rfl
  have hsub : xs.map Prod.snd ⊆ List.range h.lines.length := by
    intro i hi
    obtain ⟨⟨p, i⟩, hx, rfl⟩ := List.mem_map.mp hi
    obtain ⟨q, hq⟩ := List.getElem?_of_mem hx
    obtain ⟨line, hline⟩ := hxs q p i hq
    exact List.mem_range.mpr (List.getElem?_eq_some_iff.mp hline).1
  simpa using ((hnodup.map_on hinj).subperm hsub).length_le

/-- There are no more fills than lines. -/
theorem Accounts.fills_length_le {h : History cfg} (ha : Accounts h) :
    h.fills.length ≤ h.lines.length :=
  serials_length_le ha.fill_line ha.fills_nodup

/-- There are no more claims than lines. -/
theorem Accounts.claims_length_le {h : History cfg} (ha : Accounts h) :
    h.claims.length ≤ h.lines.length :=
  serials_length_le ha.claim_line ha.claims_nodup

/-- Every line read from the file has been taken exactly once, and all slots are `NULL`. -/
def AllTaken (m : Store cfg) (h : History cfg) : Prop :=
  (∀ i, i < h.lines.length → ∃! n : ℕ, ∃ x q, h.takes[n]? = some x ∧ x.ptr = some q ∧
    (h.fills[q]?).map Prod.snd = some i) ∧
  ∀ i, m.sharedResource i = none

/-! ### What others leave alone -/

/-- Between the books `h` and `h'` only thread `t` has made entries. -/
structure Keeps (t : Thread cfg) (h h' : History cfg) : Prop where
  lines : Ledger.Grows (fun x => t = .prod x.1) h.lines h'.lines
  claims : Ledger.Grows (fun x => t = .prod x.1) h.claims h'.claims
  fills : Ledger.Grows (fun x => t = .prod x.1) h.fills h'.fills
  advances : Ledger.Grows (fun k => t = .cons k) h.advances h'.advances
  takes : Ledger.Grows (fun x => t = .cons x.taker) h.takes h'.takes
  serial : ∀ p, t ≠ .prod p → h'.serial p = h.serial p
  ticket : ∀ p, t ≠ .prod p → h'.ticket p = h.ticket p
  turn : ∀ k, t ≠ .cons k → h'.turn k = h.turn k

section Keeps

variable {h h' : History cfg}

theorem Keeps.refl (t : Thread cfg) (h : History cfg) : Keeps t h h :=
  ⟨.refl _ _, .refl _ _, .refl _ _, .refl _ _, .refl _ _, fun _ _ => rfl, fun _ _ => rfl,
    fun _ _ => rfl⟩

theorem keeps_read (p : Fin cfg.P) (line : List UInt8) : Keeps (.prod p) h (h.read p line) where
  __ := Keeps.refl (.prod p) h
  lines := .append_singleton _ rfl
  serial p' hp' := Function.update_of_ne (fun heq => hp' (by rw [heq])) _ _

theorem keeps_claim (p : Fin cfg.P) : Keeps (.prod p) h (h.claim p) where
  __ := Keeps.refl (.prod p) h
  claims := .append_singleton _ rfl
  ticket p' hp' := Function.update_of_ne (fun heq => hp' (by rw [heq])) _ _

theorem keeps_fill (p : Fin cfg.P) : Keeps (.prod p) h (h.fill p) where
  __ := Keeps.refl (.prod p) h
  fills := .append_singleton _ rfl

theorem keeps_advance (k : Fin cfg.K) : Keeps (.cons k) h (h.advance k) where
  __ := Keeps.refl (.cons k) h
  advances := .append_singleton _ rfl
  turn k' hk' := Function.update_of_ne (fun heq => hk' (by rw [heq])) _ _

theorem keeps_take (k : Fin cfg.K) (ptr : Option Ptr) (text : Option (List UInt8)) :
    Keeps (.cons k) h (h.take k ptr text) := by
  unfold History.take
  cases hturn : h.turn k with
  | none => exact .refl _ _
  | some j =>
    exact
      { Keeps.refl (.cons k) h with
        takes := .append_singleton _ rfl
        turn := fun k' hk' => Function.update_of_ne (fun heq => hk' (by rw [heq])) _ _ }

variable {t : Thread cfg} {p : Fin cfg.P} {line : List UInt8}

/-- The lines of another producer. -/
theorem Keeps.lines_iff (hk : Keeps t h h') (ht : t ≠ .prod p) {i : ℕ} :
    h'.lines[i]? = some (p, line) ↔ h.lines[i]? = some (p, line) :=
  ⟨fun hi => hk.lines.of_not_mine hi ht, fun hi => hk.lines.getElem?_eq_some hi⟩

theorem Keeps.claims_iff (hk : Keeps t h h') (ht : t ≠ .prod p) {i j : ℕ} :
    h'.claims[j]? = some (p, i) ↔ h.claims[j]? = some (p, i) :=
  ⟨fun hj => hk.claims.of_not_mine hj ht, fun hj => hk.claims.getElem?_eq_some hj⟩

theorem Keeps.fills_iff (hk : Keeps t h h') (ht : t ≠ .prod p) {i q : ℕ} :
    h'.fills[q]? = some (p, i) ↔ h.fills[q]? = some (p, i) :=
  ⟨fun hq => hk.fills.of_not_mine hq ht, fun hq => hk.fills.getElem?_eq_some hq⟩

theorem Clean.frame (hc : Clean h p) (hk : Keeps t h h') (ht : t ≠ .prod p) : Clean h' p := by
  intro i line hi
  rw [hk.lines_iff ht] at hi
  obtain ⟨q, hq⟩ := hc i line hi
  exact ⟨q, (hk.fills_iff ht).mpr hq⟩

theorem InHand.frame (hc : InHand h p line) (hk : Keeps t h h') (ht : t ≠ .prod p) :
    InHand h' p line := by
  refine ⟨?_, ?_, ?_⟩
  · rw [hk.serial p ht, hk.lines_iff ht]
    exact hc.read
  · intro i line' hi hne
    rw [hk.lines_iff ht] at hi
    rw [hk.serial p ht] at hne
    obtain ⟨q, hq⟩ := hc.others i line' hi hne
    exact ⟨q, (hk.fills_iff ht).mpr hq⟩
  · intro q hq
    rw [hk.serial p ht, hk.fills_iff ht] at hq
    exact hc.unfilled q hq

theorem Unclaimed.frame (hc : Unclaimed h p line) (hk : Keeps t h h') (ht : t ≠ .prod p) :
    Unclaimed h' p line := by
  refine ⟨hc.toInHand.frame hk ht, ?_⟩
  intro j hj
  rw [hk.serial p ht, hk.claims_iff ht] at hj
  exact hc.unclaimed j hj

theorem Claimed.frame (hc : Claimed h p line) (hk : Keeps t h h') (ht : t ≠ .prod p) :
    Claimed h' p line := by
  refine ⟨hc.toInHand.frame hk ht, ?_⟩
  rw [hk.ticket p ht, hk.serial p ht, hk.claims_iff ht]
  exact hc.claimed

end Keeps

/-! ### The stages of a line -/

section Stages

variable {h : History cfg} {p : Fin cfg.P} {line : List UInt8}

theorem Accounts.read (ha : Accounts h) : Accounts (h.read p line) := by
  refine ⟨?_, ha.claims_nodup, ?_, ha.fills_nodup⟩
  · intro j p' i hj
    obtain ⟨line', hline⟩ := ha.claim_line j p' i hj
    exact ⟨line', (keeps_read p line).lines.getElem?_eq_some hline⟩
  · intro q p' i hq
    obtain ⟨line', hline⟩ := ha.fill_line q p' i hq
    exact ⟨line', (keeps_read p line).lines.getElem?_eq_some hline⟩

theorem Clean.read (ha : Accounts h) (hc : Clean h p) : Unclaimed (h.read p line) p line := by
  have hserial : (h.read p line).serial p = h.lines.length := by simp [History.read]
  -- no entry of the books is for the new serial number
  refine ⟨⟨?_, ?_, ?_⟩, ?_⟩
  · rw [hserial]
    simp [History.read]
  · intro i line' hi hne
    rw [hserial] at hne
    rcases Ledger.getElem?_append_singleton hi with hold | ⟨hlast, -⟩
    · exact hc i line' hold
    · exact absurd hlast hne
  · intro q hq
    rw [hserial] at hq
    obtain ⟨line', hline⟩ := ha.fill_line q _ _ hq
    simp at hline
  · intro j hj
    rw [hserial] at hj
    obtain ⟨line', hline⟩ := ha.claim_line j _ _ hj
    simp at hline

theorem Accounts.claim (ha : Accounts h) (hu : Unclaimed h p line) : Accounts (h.claim p) := by
  refine ⟨?_, ?_, ha.fill_line, ha.fills_nodup⟩
  · intro j p' i hj
    rcases Ledger.getElem?_append_singleton hj with hold | ⟨-, hlast⟩
    · exact ha.claim_line j p' i hold
    · obtain ⟨rfl, rfl⟩ := Prod.mk.inj hlast
      exact ⟨line, hu.read⟩
  · apply List.Nodup.append ha.claims_nodup (List.nodup_singleton _)
    rw [List.disjoint_singleton]
    intro hmem
    obtain ⟨j, hj⟩ := List.getElem?_of_mem hmem
    exact hu.unclaimed j hj

theorem Unclaimed.claim (hu : Unclaimed h p line) : Claimed (h.claim p) p line :=
  ⟨⟨hu.read, hu.others, hu.unfilled⟩, by simp [History.claim]⟩

@[simp] theorem claim_ticket : (h.claim p).ticket p = h.claims.length := by
  simp [History.claim]

theorem Accounts.fill (ha : Accounts h) (hi : InHand h p line) : Accounts (h.fill p) := by
  refine ⟨ha.claim_line, ha.claims_nodup, ?_, ?_⟩
  · intro q p' i hq
    rcases Ledger.getElem?_append_singleton hq with hold | ⟨-, hlast⟩
    · exact ha.fill_line q p' i hold
    · obtain ⟨rfl, rfl⟩ := Prod.mk.inj hlast
      exact ⟨line, hi.read⟩
  · apply List.Nodup.append ha.fills_nodup (List.nodup_singleton _)
    rw [List.disjoint_singleton]
    intro hmem
    obtain ⟨q, hq⟩ := List.getElem?_of_mem hmem
    exact hi.unfilled q hq

theorem InHand.fill (hi : InHand h p line) : Clean (h.fill p) p := by
  intro i line' hline
  by_cases hserial : i = h.serial p
  · refine ⟨h.fills.length, ?_⟩
    rw [hserial]
    simp [History.fill]
  · obtain ⟨q, hq⟩ := hi.others i line' hline hserial
    exact ⟨q, (keeps_fill p).fills.getElem?_eq_some hq⟩

end Stages

end ProdCons
end OpSys
