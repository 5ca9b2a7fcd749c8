import Mathlib.Tactic

/-!
# VersatileEngine.Service.Ports

`openServer` of the server module: the configured port, or the next ones, until a server starts.

* `ServerModule.tryPorts`   — the loop over the candidates, each narrowed to the 16 bits of a port.
* `ServerModule.openServer` — no result where the arithmetic on `int` overflows.
* `tryPorts_listening`      — a candidate is taken, or none is left.
* `real_ports_iff`          — **what is reported is a port of the server, exactly where all candidates are ports**.
-/

namespace VersatileEngine

namespace ServerModule

/-- The two templates, for the servers of nodes and for static files. -/
inductive ServerKind where
  | nodes
  | static
deriving DecidableEq, Repr

/-- A round number of this kind has as many candidates. -/
def ServerKind.span : ServerKind → Int
  | .nodes => 100
  | .static => 10

/-- `int` arithmetic. -/
def checked (x : Int) : Option Int := if -2 ^ 31 ≤ x ∧ x < 2 ^ 31 then some x else none

/-- The server object by the port it was made with, and what is set below the node. -/
structure Opened where
  server : Option UInt16
  port : Option Int
  listening : Option Bool
deriving DecidableEq, Repr

/-- `static_cast<uint16_t>(p)`. -/
def narrow (p : Int) : UInt16 := UInt16.ofNat (p % 2 ^ 16).toNat

/-- The loop, with the number of candidates that are left; `starts` is what `start()` says at each attempt. -/
def tryPorts (starts : Nat → UInt16 → Bool) : Nat → Nat → Int → Opened → Option Opened
  | 0, _, _, s => some { s with listening := some false }
  | left + 1, i, p, s =>
    let s := { s with server := some (narrow p) }
    if starts i (narrow p) then some { s with port := some p, listening := some true }
    else (checked (p + 1)).bind fun p => tryPorts starts left (i + 1) p s

/-- The last candidate. -/
def endPort (kind : ServerKind) (port maxRetry : Int) : Option Int :=
  if 0 ≤ maxRetry then checked (port + maxRetry)
  else if port.tmod kind.span = 0 then checked (port + (kind.span - 1))
  else some port

/-- `openServer(server, n, default_port, name)`; a value of the configuration that is no number is not there. -/
def openServer (kind : ServerKind) (starts : Nat → UInt16 → Bool) (defaultPort : Int32)
    (configPort configRetry : Option Int32) (s : Opened) : Option Opened :=
  let port := (configPort.getD defaultPort).toInt
  let maxRetry := (configRetry.getD (-1)).toInt
  (endPort kind port maxRetry).bind fun last => tryPorts starts (last + 1 - port).toNat 0 port s

/-- Where it says that a server listens, that is a port, and the one that the server has. -/
def Real (s : Opened) : Prop :=
  s.listening = some true → ∃ p : Int, s.port = some p ∧ 1 ≤ p ∧ p ≤ 65535 ∧
    ∃ q, s.server = some q ∧ (q.toNat : Int) = p

/-- How many candidates there are behind the first one. -/
def retries (kind : ServerKind) (port maxRetry : Int) : Int :=
  if 0 ≤ maxRetry then maxRetry else if port.tmod kind.span = 0 then kind.span - 1 else 0

section Candidates

variable {kind : ServerKind} {starts : Nat → UInt16 → Bool} {s s' : Opened} {p last : Int}

theorem checked_some {x y : Int} (h : checked x = some y) : y = x ∧ x < 2 ^ 31 := by
  rw [checked] at h
  split_ifs at h with hx
  exact ⟨(Option.some.inj h).symm, hx.2⟩

theorem endPort_eq {port maxRetry : Int} (h : endPort kind port maxRetry = some last) :
    last = port + retries kind port maxRetry := by
  rw [endPort] at h
  rw [retries]
  split_ifs at h ⊢
  · exact (checked_some h).1
  · exact (checked_some h).1
  · obtain rfl := Option.some.inj h
    exact (Int.add_zero _).symm

theorem endPort_some {port maxRetry : Int} (hlow : -2 ^ 31 ≤ port + retries kind port maxRetry)
    (hhigh : port + retries kind port maxRetry < 2 ^ 31) :
    endPort kind port maxRetry = some (port + retries kind port maxRetry) := by
  rw [endPort]
  rw [retries] at hlow hhigh ⊢
  split_ifs at hlow hhigh ⊢
  · rw [checked, if_pos ⟨hlow, hhigh⟩]
  · rw [checked, if_pos ⟨hlow, hhigh⟩]
  · rw [Int.add_zero]

theorem retries_nonneg (kind : ServerKind) (port maxRetry : Int) : 0 ≤ retries kind port maxRetry := by
  rw [retries]
  split_ifs with hretry
  · exact hretry
  · cases kind <;> decide
  · exact Int.le_refl 0

theorem narrow_toNat (hlow : 0 ≤ p) (hhigh : p < 2 ^ 16) : ((narrow p).toNat : Int) = p := by
  rw [narrow, Int.emod_eq_of_lt hlow hhigh, UInt16.toNat_ofNat']
  omega

/-- The candidates are ports: one of them is taken, or none is left, and no candidate is out of range. -/
theorem tryPorts_real (left i : Nat) : ∀ {p : Int} {s : Opened}, 1 ≤ p → p + left ≤ 65536 →
    ∃ s', tryPorts starts left i p s = some s' ∧ Real s' := by
  induction left generalizing i with
  | zero =>
    intro p s _ _
    exact ⟨_, rfl, fun h => by cases h⟩
  | succ left ih =>
    intro p s hlow hhigh
    rw [tryPorts]
    dsimp only
    by_cases hstart : starts i (narrow p) = true
    · rw [if_pos hstart]
      exact ⟨_, rfl, fun _ => ⟨p, rfl, hlow, by omega, narrow p, rfl, narrow_toNat (by omega) (by omega)⟩⟩
    · have hnext : checked (p + 1) = some (p + 1) := by rw [checked, if_pos (by omega)]
      rw [if_neg hstart, hnext, Option.bind_some]
      exact ih (i + 1) (by omega) (by omega)

/-- Only the attempt `n` succeeds: the candidate is reported, or the numbers overflow on the way to it. -/
theorem tryPorts_only (n left i : Nat) (hn : n < left) : ∀ {p : Int} {s s' : Opened},
    tryPorts (fun j _ => decide (j = i + n)) left i p s = some s' →
      s'.listening = some true ∧ s'.port = some (p + n) := by
  induction n generalizing left i with
  | zero =>
    intro p s s' h
    obtain ⟨left, rfl⟩ := Nat.exists_eq_add_of_lt hn
    rw [Nat.zero_add, tryPorts, if_pos (by simp)] at h
    cases h
    exact ⟨rfl, by simp⟩
  | succ n ih =>
    intro p s s' h
    obtain ⟨left, rfl⟩ : ∃ l, left = l + 1 := ⟨left - 1, by omega⟩
    rw [tryPorts, if_neg (by simp)] at h
    obtain ⟨q, hq, h⟩ := Option.bind_eq_some_iff.1 h
    obtain ⟨rfl, -⟩ := checked_some hq
    have hshift : i + (n + 1) = i + 1 + n := by omega
    rw [hshift] at h
    obtain ⟨hlisten, hport⟩ := ih left (i + 1) (by omega) h
    exact ⟨hlisten, by rw [hport]; congr 1; push_cast; ring⟩

end Candidates

/-- **What `openServer` reports is a port, and the server's own, exactly where all the candidates are ports**:
whichever servers start, in every state before. -/
theorem real_ports_iff (kind : ServerKind) (defaultPort : Int32) (configPort configRetry : Option Int32) :
    (∀ (starts : Nat → UInt16 → Bool) (s : Opened),
      ∃ s', openServer kind starts defaultPort configPort configRetry s = some s' ∧ Real s') ↔
      1 ≤ (configPort.getD defaultPort).toInt ∧ (configPort.getD defaultPort).toInt +
        retries kind (configPort.getD defaultPort).toInt (configRetry.getD (-1)).toInt ≤ 65535 := by
  have hnonneg := retries_nonneg kind (configPort.getD defaultPort).toInt (configRetry.getD (-1)).toInt
  simp only [openServer]
  generalize (configPort.getD defaultPort).toInt = port at hnonneg ⊢
  generalize (configRetry.getD (-1)).toInt = maxRetry at hnonneg ⊢
  constructor
  · intro h
    -- the environment in which only the last candidate starts, and the one in which the first does
    have hreport : ∀ n : Nat, (n : Int) ≤ retries kind port maxRetry → 1 ≤ port + n ∧ port + n ≤ 65535 := by
      intro n hn
      obtain ⟨s', hs', hreal⟩ := h (fun j _ => decide (j = 0 + n)) ⟨none, none, none⟩
      obtain ⟨last, hlast, hs'⟩ := Option.bind_eq_some_iff.1 hs'
      obtain rfl := endPort_eq hlast
      obtain ⟨hlisten, hport⟩ := tryPorts_only n _ 0 (by omega) hs'
      obtain ⟨p, hp, hlow, hhigh, -⟩ := hreal hlisten
      obtain rfl := Option.some.inj (hport.symm.trans hp)
      exact ⟨hlow, hhigh⟩
    obtain ⟨n, hn⟩ := Int.eq_ofNat_of_zero_le hnonneg
    have hfirst := hreport 0 (by omega)
    have hend := hreport n (by omega)
    omega
  · rintro ⟨hlow, hhigh⟩ starts s
    rw [endPort_some (by omega) (by omega), Option.bind_some]
    exact tryPorts_real _ 0 hlow (by omega)

/-- Two servers from port 65535 on: where the first is taken, the second listens on another port than the one
that is reported. -/
theorem reports_no_port : ¬ ∀ (kind : ServerKind) (defaultPort : Int32) (configPort configRetry : Option Int32)
    (starts : Nat → UInt16 → Bool) (s s' : Opened),
    openServer kind starts defaultPort configPort configRetry s = some s' → Real s' := by
  intro h
  obtain ⟨p, hp, -, hhigh, -⟩ := h .nodes 10000 (some 65535) (some 1) (fun i _ => i = 1) ⟨none, none, none⟩
    ⟨some 0, some 65536, some true⟩ (by decide) rfl
  obtain rfl := Option.some.inj hp
  exact absurd hhigh (by decide)

end ServerModule

end VersatileEngine
