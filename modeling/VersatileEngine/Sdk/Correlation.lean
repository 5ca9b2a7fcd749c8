import VersatileEngine.Lib.Decimal
import VersatileEngine.Sdk.Value

/-!
# VersatileEngine.Sdk.Correlation

Requests with an id, and the replies that carry it.

* `OwnId payload n` — merged into a request with the id `n`, the payload leaves it.
* `RepliesTo`       — a message has the id of a call's request, as the server echoes it.
* `Correlated`      — every request has an id of its own, and the calls that are waited for are waited for
  under the id of their request.
* `Correlated.own`, `Correlated.find` — what is found under the id of a reply is the call of the request.
-/

namespace VersatileEngine

/-- The payload has no `id` of its own but `n`. -/
def OwnId (payload : JsObject) (n : Nat) : Prop := ∀ v, (ascii "id", v) ∈ payload → v = .int n

/-- The id of a message. -/
def idOf (o : JsObject) : Option JsValue := o.lookup (ascii "id")

/-- `o` carries the id of the request of the call `k`, after `echo`. -/
def RepliesTo (echo : JsValue → Option JsValue) (requests : List (Nat × JsObject)) (k : Nat) (o : JsObject) : Prop :=
  ∃ r v, (k, r) ∈ requests ∧ (idOf r).bind echo = some v ∧ idOf o = some v

/-- The ids below and up to `nextId` come back as they are. -/
def Echoes (echo : JsValue → Option JsValue) (nextId : Nat) : Prop :=
  ∀ i : Nat, i ≤ nextId → echo (.int i) = some (.int i)

structure Correlated (nextId calls : Nat) (pending : List (Nat × Nat)) (requests : List (Nat × JsObject)) : Prop where
  sent : ∀ k r, (k, r) ∈ requests → k < calls ∧ ∃ i : Nat, i ≤ nextId ∧ idOf r = some (.int i)
  call : ∀ k r r', (k, r) ∈ requests → (k, r') ∈ requests → r = r'
  id : ∀ k r k' r', (k, r) ∈ requests → (k', r') ∈ requests → idOf r = idOf r' → k = k'
  pending : ∀ p ∈ pending, ∃ r, (p.2, r) ∈ requests ∧ idOf r = some (.int p.1)

theorem idOf_spread {payload : JsObject} {n : Nat} (op : JsValue) (h : OwnId payload n) :
    idOf (spread [(ascii "op", op), (ascii "id", .int n)] payload) = some (.int n) := by
  refine lookup_assignAll_same h ?_
  rw [List.lookup_cons, List.lookup_cons, beq_self_eq_true, beq_eq_false_iff_ne.mpr (by decide)]

section Correlated

variable {nextId calls : Nat} {pending pending' : List (Nat × Nat)} {requests : List (Nat × JsObject)}
  {echo : JsValue → Option JsValue} {k k' : Nat} {o : JsObject}

theorem correlated_fresh : Correlated 0 0 [] [] :=
  ⟨fun _ _ h => absurd h List.not_mem_nil, fun _ _ _ h => absurd h List.not_mem_nil,
    fun _ _ _ _ h => absurd h List.not_mem_nil, fun _ h => absurd h List.not_mem_nil⟩

theorem Correlated.shrink (h : Correlated nextId calls pending requests) (hsub : ∀ p ∈ pending', p ∈ pending)
    {calls' : Nat} (hc : calls ≤ calls') : Correlated nextId calls' pending' requests where
  sent k r hr := by
    obtain ⟨hk, hi⟩ := h.sent k r hr
    exact ⟨hk.trans_le hc, hi⟩
  call := h.call
  id := h.id
  pending p hp := h.pending p (hsub p hp)

/-- An id that no request takes. -/
theorem Correlated.skip (h : Correlated nextId calls pending requests) :
    Correlated (nextId + 1) calls pending requests where
  sent k r hr := by
    obtain ⟨hk, i, hi, hid⟩ := h.sent k r hr
    exact ⟨hk, i, Nat.le_succ_of_le hi, hid⟩
  call := h.call
  id := h.id
  pending := h.pending

theorem Correlated.pending_le (h : Correlated nextId calls pending requests) : ∀ p ∈ pending, p.1 ≤ nextId := by
  intro p hp
  obtain ⟨r, hr, hid⟩ := h.pending p hp
  obtain ⟨-, i, hi, hid'⟩ := h.sent _ r hr
  rw [hid] at hid'
  injection hid' with hid'
  injection hid' with hid'
  omega

/-- The next id is not waited for. -/
theorem Correlated.assign_next (h : Correlated nextId calls pending requests) (k : Nat) :
    assign pending (nextId + 1) k = pending ++ [(nextId + 1, k)] := by
  refine assign_new _ fun hm => ?_
  obtain ⟨p, hp, he⟩ := List.mem_map.mp hm
  have := h.pending_le p hp
  omega

/-- A request with the next id. -/
theorem Correlated.issue (h : Correlated nextId calls pending requests) {r : JsObject}
    (hr : idOf r = some (.int ((nextId + 1 : Nat) : Int))) :
    Correlated (nextId + 1) (calls + 1) (assign pending (nextId + 1) calls) (requests ++ [(calls, r)]) := by
  have hnew : ∀ {k : Nat} {r' : JsObject}, (k, r') ∈ requests → k ≠ calls ∧ idOf r' ≠ idOf r := by
    intro k r' hr'
    obtain ⟨hk, i, hi, hid⟩ := h.sent k r' hr'
    refine ⟨Nat.ne_of_lt hk, fun he => ?_⟩
    rw [hid, hr] at he
    injection he with he
    injection he with he
    omega
  have hmem : ∀ {k : Nat} {r' : JsObject}, (k, r') ∈ requests ++ [(calls, r)] →
      (k, r') ∈ requests ∨ (k = calls ∧ r' = r) := by
    intro k r' hr'
    rcases List.mem_append.mp hr' with hr' | hr'
    · exact .inl hr'
    · exact .inr (Prod.mk.inj (List.mem_singleton.mp hr'))
  refine ⟨fun k r' hr' => ?_, fun k r₁ r₂ h₁ h₂ => ?_, fun k₁ r₁ k₂ r₂ h₁ h₂ he => ?_, fun p hp => ?_⟩
  · rcases hmem hr' with hr' | ⟨rfl, rfl⟩
    · obtain ⟨hk, i, hi, hid⟩ := h.sent k r' hr'
      exact ⟨Nat.lt_succ_of_lt hk, i, Nat.le_succ_of_le hi, hid⟩
    · exact ⟨Nat.lt_succ_self _, _, Nat.le_refl _, hr⟩
  · rcases hmem h₁ with g₁ | ⟨he₁, rfl⟩
    · rcases hmem h₂ with g₂ | ⟨he₂, -⟩
      · exact h.call k r₁ r₂ g₁ g₂
      · exact absurd he₂ (hnew g₁).1
    · rcases hmem h₂ with g₂ | ⟨-, rfl⟩
      · exact absurd he₁ (hnew g₂).1
      · rfl
  · rcases hmem h₁ with g₁ | ⟨he₁, rfl⟩
    · rcases hmem h₂ with g₂ | ⟨-, rfl⟩
      · exact h.id k₁ r₁ k₂ r₂ g₁ g₂ he
      · exact absurd he (hnew g₁).2
    · rcases hmem h₂ with g₂ | ⟨he₂, -⟩
      · exact absurd he.symm (hnew g₂).2
      · exact he₁.trans he₂.symm
  · rcases mem_assign hp with rfl | hp
    · exact ⟨r, List.mem_append_right _ List.mem_cons_self, hr⟩
    · obtain ⟨r', hr', hid⟩ := h.pending p hp
      exact ⟨r', List.mem_append_left _ hr', hid⟩

/-- A reply has the id of one request. -/
theorem Correlated.reply (h : Correlated nextId calls pending requests) (he : Echoes echo nextId)
    (hr : RepliesTo echo requests k o) :
    ∃ (r : JsObject) (i : Nat), (k, r) ∈ requests ∧ idOf r = some (.int i) ∧ idOf o = some (.int i) := by
  obtain ⟨r, v, hmem, hv, ho⟩ := hr
  obtain ⟨-, i, hi, hid⟩ := h.sent k r hmem
  rw [hid, Option.bind_some, he i hi] at hv
  cases hv
  exact ⟨r, i, hmem, hid, ho⟩

theorem Correlated.unique (h : Correlated nextId calls pending requests) (he : Echoes echo nextId)
    (hr : RepliesTo echo requests k o) (hr' : RepliesTo echo requests k' o) : k' = k := by
  obtain ⟨r, i, hmem, hid, ho⟩ := h.reply he hr
  obtain ⟨r', i', hmem', hid', ho'⟩ := h.reply he hr'
  refine h.id k' r' k r hmem' hmem ?_
  rw [hid, hid', ← ho, ho']

/-- What waits under the id of a message waits for this message. -/
theorem Correlated.own (h : Correlated nextId calls pending requests) (he : Echoes echo nextId) {p : Nat × Nat}
    (hp : p ∈ pending) (ho : idOf o = some (.int p.1)) : RepliesTo echo requests p.2 o := by
  obtain ⟨r, hr, hid⟩ := h.pending p hp
  obtain ⟨-, i, hi, hid'⟩ := h.sent _ r hr
  rw [hid] at hid'
  injection hid' with hid'
  injection hid' with hid'
  refine ⟨r, _, hr, ?_, ho⟩
  rw [hid, Option.bind_some, he _ (by omega)]

/-- Under the id of a reply to a call that is waited for this call is found. -/
theorem Correlated.find (h : Correlated nextId calls pending requests) (he : Echoes echo nextId)
    (hr : RepliesTo echo requests k o) (hk : k ∈ pending.map Prod.snd) :
    ∃ i : Nat, idOf o = some (.int i) ∧ pending.find? (fun p => decide ((p.1 : Int) = i)) = some (i, k) := by
  obtain ⟨p, hp, rfl⟩ := List.mem_map.mp hk
  obtain ⟨r, i, hmem, hid, ho⟩ := h.reply he hr
  obtain ⟨r', hmem', hid'⟩ := h.pending p hp
  rw [← h.call _ _ _ hmem hmem', hid] at hid'
  injection hid' with hid'
  injection hid' with hid'
  refine ⟨i, ho, ?_⟩
  cases hf : pending.find? (fun p => decide ((p.1 : Int) = i)) with
  | none =>
    have := List.find?_eq_none.mp hf p hp
    rw [decide_eq_true_eq] at this
    exact absurd hid'.symm this
  | some q =>
    have hq := List.find?_some hf
    rw [decide_eq_true_eq] at hq
    have hq' : q.1 = i := by omega
    have hown := h.own he (o := o) (List.mem_of_find?_eq_some hf) (by rw [hq', ho])
    rw [← h.unique he hr hown, ← hq']

end Correlated

end VersatileEngine
