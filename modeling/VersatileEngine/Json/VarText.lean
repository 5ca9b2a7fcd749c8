import VersatileEngine.Json.Scalar
import VersatileEngine.Json.RoundTrip

/-!
# VersatileEngine.Json.VarText

`json::parse(json::stringify(v))`.

* `parseScalar_quoted` — the fallback for a scalar takes what stands between the quotes.
* `escape_eq_iff`      — a string is its own escaped text where it has nothing to escape.
* `parse_stringify`    — values come back, except a bare string with something to escape in it, and texts
  beyond what simdjson takes.
-/

namespace VersatileEngine

/-- `json::stringify`. -/
def json.stringify (v : Var) : Str := varToJson v

/-- What `escape` replaces: the quote, the backslash and the control characters. -/
def Escaped (c : UInt8) : Prop := c = 34 ∨ c = 92 ∨ c < 0x20

theorem escapeByte_length (c : UInt8) : 1 ≤ (escapeByte c).length := by
  unfold escapeByte
  split_ifs <;> simp

theorem escapeByte_eq_iff (c : UInt8) : (escapeByte c).length = 1 ↔ ¬ Escaped c := by
  unfold escapeByte Escaped
  split_ifs with h₁ h₂ h₃ h₄ h₅ h₆ h₇ h₈
  · simp [h₁]
  · simp [h₂]
  · simp [h₃]
  · simp [h₄]
  · simp [h₅]
  · simp [h₆]
  · simp [h₇]
  · simp [h₈]
  · simp [h₁, h₂, h₈]

theorem escape_length (s : Str) : s.length ≤ (escape s).length := by
  induction s with
  | nil => exact Nat.le_refl _
  | cons c s ih =>
    have hone := escapeByte_length c
    rw [escape, List.flatMap_cons, List.length_append, List.length_cons]
    rw [escape] at ih
    omega

theorem escape_eq_iff (s : Str) : escape s = s ↔ ∀ c ∈ s, ¬ Escaped c := by
  induction s with
  | nil => simp [escape]
  | cons c s ih =>
    have hcons : escape (c :: s) = escapeByte c ++ escape s := List.flatMap_cons
    rw [List.forall_mem_cons, ← ih, ← escapeByte_eq_iff, hcons]
    constructor
    · intro h
      have hlen := congrArg List.length h
      rw [List.length_append, List.length_cons] at hlen
      have hone := escapeByte_length c
      have hrest := escape_length s
      have hbyte : (escapeByte c).length = 1 := by omega
      obtain ⟨b, hb⟩ := List.length_eq_one_iff.mp hbyte
      rw [hb, List.singleton_append] at h
      exact ⟨hbyte, (List.cons.inj h).2⟩
    · rintro ⟨hbyte, hrest⟩
      have hno := (escapeByte_eq_iff c).mp hbyte
      have hplain : escapeByte c = [c] := by
        simp only [Escaped, not_or] at hno
        have h8 : c ≠ 8 := fun he => hno.2.2 (by rw [he]; decide)
        have h12 : c ≠ 12 := fun he => hno.2.2 (by rw [he]; decide)
        have h10 : c ≠ 10 := fun he => hno.2.2 (by rw [he]; decide)
        have h13 : c ≠ 13 := fun he => hno.2.2 (by rw [he]; decide)
        have h9 : c ≠ 9 := fun he => hno.2.2 (by rw [he]; decide)
        simp [escapeByte, hno, h8, h12, h10, h13, h9]
      rw [hplain, hrest]
      rfl

section Parse

variable {simdjson : Simdjson} {stod : Str → Option Binary64}

theorem document_of_textual (hl : simdjson.Lawful) {v : Var} (h : v.Textual)
    (hlen : (json.stringify v).length < 2 ^ 32) :
    ∃ j, Json.read (json.stringify v) = some j ∧
      VersatileEngine.domToVar (j.onDemand simdjson.getDouble) = some v ∧
      json.parse simdjson stod (json.stringify v) =
        if v.isContainer then some v else some (parseScalar stod (json.stringify v)) := by
  obtain ⟨j, hreads, hvar, -⟩ := @Var.Textual.jsonText simdjson.getDouble v h
  have hread : Json.read (json.stringify v) = some j := by
    have hws := Json.read_of_reads hreads Json.ws_nil (by rw [List.append_nil]; exact h.valid)
    rwa [List.append_nil] at hws
  have hne : json.stringify v ≠ [] := fun he => by
    rw [he] at hread
    cases hread
  refine ⟨j, hread, hvar, ?_⟩
  rw [json.parse, if_neg hne, hl.document _ j hread hlen, document_eq hvar]
  cases v.isContainer with
  | true => exact hvar
  | false => rfl

/-- **Values come back** from their text, exactly where it is short enough for simdjson and is not a bare string
with something to escape. -/
theorem parse_stringify (hl : simdjson.Lawful) (stod : Str → Option Binary64) {v : Var} (h : v.Textual) :
    json.parse simdjson stod (json.stringify v) = some v ↔
      (json.stringify v).length < 2 ^ 32 ∧ ∀ s, v = .string s → ∀ c ∈ s, ¬ Escaped c := by
  constructor
  · intro hback
    have hlen : (json.stringify v).length < 2 ^ 32 := by
      by_contra hlong
      have hne : json.stringify v ≠ [] := fun he => by simp [he] at hlong
      rw [json.parse, if_neg hne, hl.capacity _ (Nat.not_lt.mp hlong)] at hback
      cases hback
      exact hlong (by decide)
    refine ⟨hlen, ?_⟩
    rintro s rfl
    obtain ⟨j, -, -, hparse⟩ := @document_of_textual simdjson stod hl _ h hlen
    have hscalar : parseScalar stod (json.stringify (.string s)) = .string (escape s) :=
      Json.parseScalar_quoted stod (escape s)
    rw [hparse, hscalar] at hback
    exact (escape_eq_iff s).mp (Var.string.inj (Option.some.inj hback))
  · rintro ⟨hlen, hplain⟩
    obtain ⟨j, hread, hvar, hparse⟩ := @document_of_textual simdjson stod hl _ h hlen
    rw [hparse]
    cases h with
    | none => rfl
    | bool b => cases b <;> rfl
    | int i =>
      have hrange : -2 ^ 63 ≤ i.toInt ∧ i.toInt < 2 ^ 63 := ⟨i.le_toInt, i.toInt_lt⟩
      have hint : Json.read (json.stringify (.int i)) = some (.int i.toInt) := by
        have hws := Json.read_of_reads (Json.reads_int i.toInt) Json.ws_nil
          (by rw [List.append_nil]; exact (Var.Textual.int i).valid)
        rwa [List.append_nil] at hws
      have hscalar := @Json.parseScalar_eq stod simdjson.getDouble _ _ hint rfl
        (.intro (fun k hk => by cases hk; exact hrange) (fun _ hk => (by cases hk)) fun _ hk => (by cases hk)) trivial
      rw [Json.onDemand, if_pos hrange, Int64.ofInt_toInt] at hscalar
      exact hscalar.symm
    | @string s _ =>
      have hscalar : parseScalar stod (json.stringify (.string s)) = .string (escape s) :=
        Json.parseScalar_quoted stod (escape s)
      rw [hscalar, (escape_eq_iff s).mpr (hplain s rfl)]
      rfl
    | list _ => rfl
    | dict _ _ _ => rfl

theorem parse_stringify_sample :
    json.parse (Simdjson.reference fun _ => none) (fun _ => none)
      (json.stringify (.list [.string [34], .int 5])) = some (.list [.string [34], .int 5]) := by
  have htextual : (Var.list [.string [34], .int 5]).Textual := by
    refine .list fun v hv => ?_
    simp only [List.mem_cons, List.not_mem_nil, or_false] at hv
    rcases hv with rfl | rfl
    · exact .string (by decide)
    · exact .int 5
  exact (parse_stringify (Simdjson.reference_lawful _) _ htextual).mpr ⟨by decide, fun s hs => (by cases hs)⟩

/-- A quote comes back with its backslash. -/
theorem quote_comes_back_escaped :
    ∃ v, json.parse (Simdjson.reference fun _ => none) (fun _ => none) (json.stringify (.string [34])) = some v ∧
      v = .string [92, 34] ∧ v ≠ .string [34] := by
  obtain ⟨j, -, -, hparse⟩ := @document_of_textual (Simdjson.reference fun _ => none) (fun _ => none)
    (Simdjson.reference_lawful _) (.string [34]) (.string (by decide)) (by decide)
  refine ⟨.string [92, 34], ?_, rfl, fun h => (by cases h)⟩
  rw [hparse]
  exact congrArg some (Json.parseScalar_quoted _ [92, 34])

end Parse

end VersatileEngine
