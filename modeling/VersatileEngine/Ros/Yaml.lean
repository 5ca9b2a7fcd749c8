import VersatileEngine.Command.Values
import VersatileEngine.Core.Data

/-!
# VersatileEngine.Ros.Yaml

`ros::yaml::encode` and `decode` of a `Var`.

* `Yaml`        — the nodes of yaml-cpp: every scalar is a text.
* `varToYaml`, `yamlToVar` — the second finds the type of a scalar again by reading it.
* `Plain`       — the texts that are read as no other type.
* `yaml_round_iff` — **a value comes back exactly where all its strings are plain**.
-/

namespace VersatileEngine

namespace Ros

open Command

/-- A node of yaml-cpp; the keys of a map are scalars. -/
inductive Yaml where
  | null
  | scalar (text : Str)
  | seq (items : List Yaml)
  | map (entries : List (Str × Yaml))

section Convert

variable (platform : Platform) (doubleScalar : Binary64 → Str)

mutual
/-- `varToYaml(v)`; `doubleScalar` is the text that yaml-cpp makes of a double. -/
def varToYaml : Var → Yaml
  | .none => .null
  | .bool b => .scalar (if b then ascii "true" else ascii "false")
  | .int i => .scalar (intChars i.toInt)
  | .double d => .scalar (doubleScalar d)
  | .string s => .scalar s
  | .list l => .seq (itemsToYaml l)
  | .dict d => .map (entriesToYaml [] d)
  | .bin b => .scalar (Var.toString platform (.bin b))
  | .pointer p => .scalar (Var.toString platform (.pointer p))
  | .callable tag => .scalar (Var.toString platform (.callable tag))
  | .custom tag text => .scalar (Var.toString platform (.custom tag text))

def itemsToYaml : List Var → List Yaml
  | [] => []
  | v :: vs => varToYaml v :: itemsToYaml vs

/-- `node[key] = ..`, one entry after another. -/
def entriesToYaml (node : List (Str × Yaml)) : List (Str × Var) → List (Str × Yaml)
  | [] => node
  | (key, v) :: kvs => entriesToYaml (assign node key (varToYaml v)) kvs
end

/-- What `std::stoll` leaves unread. -/
def unread (s : Str) : Str :=
  let s := s.dropWhile fun c => c = 32 || (9 ≤ c && c ≤ 13)
  let s := match s with
    | 45 :: s => s
    | 43 :: s => s
    | s => s
  s.dropWhile isDigit

/-- `std::stoll` that reads all of it. -/
def wholeInt (s : Str) : Option Int64 := if unread s = [] then (stoll s).map Int64.ofInt else none

-- `std::stod`, where it throws nothing, with the number of characters that it reads
variable (stod : Str → Option (Binary64 × Nat))

def wholeDouble (s : Str) : Option Binary64 :=
  (stod s).bind fun r => if r.2 = s.length then some r.1 else none

/-- A scalar by the readings that are tried in turn. -/
def scalarToVar (s : Str) : Var :=
  if s = ascii "true" ∨ s = ascii "false" then .bool (s = ascii "true")
  else
    match wholeInt s with
    | some i => .int i
    | none =>
      match wholeDouble stod s with
      | some d => .double d
      | none => .string s

mutual
def yamlToVar : Yaml → Var
  | .null => .none
  | .scalar s => scalarToVar stod s
  | .seq items => .list (itemsToVar items)
  | .map entries => .dict (entriesToVar [] entries)

def itemsToVar : List Yaml → List Var
  | [] => []
  | y :: ys => yamlToVar y :: itemsToVar ys

/-- `dict[key] = ..`, one entry after another. -/
def entriesToVar (dict : List (Str × Var)) : List (Str × Yaml) → List (Str × Var)
  | [] => dict
  | (key, y) :: entries => entriesToVar (assign dict key (yamlToVar y)) entries
end

/-- `encode(v)`, with the emitter of yaml-cpp. -/
def encode (emit : Yaml → Str) (v : Var) : Str := emit (varToYaml platform doubleScalar v)

/-- `decode(yaml_str)`, with `YAML::Load`, where it throws nothing. -/
def decode (load : Str → Option Yaml) (text : Str) : Var :=
  match load text with
  | some y => yamlToVar stod y
  | none => .none

end Convert

/-- Built from `NONE`, `BOOL`, `INT`, `STRING`, lists and dictionaries, with such strings. -/
inductive Spelled (P : Str → Prop) : Var → Prop
  | none : Spelled P .none
  | bool (b : Bool) : Spelled P (.bool b)
  | int (i : Int64) : Spelled P (.int i)
  | string {s : Str} (h : P s) : Spelled P (.string s)
  | list {l : List Var} (h : ∀ v ∈ l, Spelled P v) : Spelled P (.list l)
  | dict {d : List (Str × Var)} (hk : (d.map Prod.fst).Nodup) (h : ∀ p ∈ d, Spelled P p.2) : Spelled P (.dict d)

/-- The text is read as no other type. -/
structure Plain (stod : Str → Option (Binary64 × Nat)) (s : Str) : Prop where
  bool : s ≠ ascii "true" ∧ s ≠ ascii "false"
  int : wholeInt s = none
  double : wholeDouble stod s = none

section RoundTrip

variable {platform : Platform} {doubleScalar : Binary64 → Str} {stod : Str → Option (Binary64 × Nat)}

theorem itemsToYaml_eq (l : List Var) :
    itemsToYaml platform doubleScalar l = l.map (varToYaml platform doubleScalar) := by
  induction l with
  | nil => rfl
  | cons v l ih => rw [itemsToYaml, ih, List.map_cons]

theorem entriesToYaml_eq (d : List (Str × Var)) : ∀ node, entriesToYaml platform doubleScalar node d =
    assignAll node (d.map fun p => (p.1, varToYaml platform doubleScalar p.2)) := by
  induction d with
  | nil => exact fun node => rfl
  | cons p d ih =>
    intro node
    rw [entriesToYaml, ih]
    rfl

theorem itemsToVar_eq (l : List Yaml) : itemsToVar stod l = l.map (yamlToVar stod) := by
  induction l with
  | nil => rfl
  | cons y l ih => rw [itemsToVar, ih, List.map_cons]

theorem entriesToVar_eq (entries : List (Str × Yaml)) : ∀ dict, entriesToVar stod dict entries =
    assignAll dict (entries.map fun p => (p.1, yamlToVar stod p.2)) := by
  induction entries with
  | nil => exact fun dict => rfl
  | cons p entries ih =>
    intro dict
    rw [entriesToVar, ih]
    rfl

/-- The value that comes back. -/
def back (platform : Platform) (doubleScalar : Binary64 → Str) (stod : Str → Option (Binary64 × Nat)) (v : Var) : Var :=
  yamlToVar stod (varToYaml platform doubleScalar v)

theorem back_list (l : List Var) :
    back platform doubleScalar stod (.list l) = .list (l.map (back platform doubleScalar stod)) := by
  rw [back, varToYaml, yamlToVar, itemsToYaml_eq, itemsToVar_eq, List.map_map]
  rfl

theorem back_dict {d : List (Str × Var)} (hk : (d.map Prod.fst).Nodup) : back platform doubleScalar stod (.dict d) =
    .dict (d.map fun p => (p.1, back platform doubleScalar stod p.2)) := by
  have hyaml : entriesToYaml platform doubleScalar [] d =
      d.map fun p => (p.1, varToYaml platform doubleScalar p.2) := by
    rw [entriesToYaml_eq, assignAll_new, List.nil_append]
    · rwa [List.map_map]
    · intro p _ hp
      cases hp
  rw [back, varToYaml, yamlToVar, hyaml, entriesToVar_eq, assignAll_new, List.nil_append, List.map_map]
  · rfl
  · rw [List.map_map, List.map_map]
    exact hk
  · intro p _ hp
    cases hp

theorem unread_whole {raw : Str} {i : Int} (h : Whole raw i) : unread raw = [] := by
  obtain ⟨hne, hall, -⟩ := h
  obtain _ | ⟨c, s⟩ := raw
  · exact absurd rfl hne
  by_cases hminus : c = 45
  · subst hminus
    exact List.dropWhile_eq_nil_iff.2 hall
  by_cases hplus : c = 43
  · subst hplus
    exact List.dropWhile_eq_nil_iff.2 hall
  have hsame : unsigned (c :: s) = c :: s := by simp [unsigned, isSign, hminus, hplus]
  rw [hsame] at hall
  have hsign : (match c :: s with
      | 45 :: s => s
      | 43 :: s => s
      | s => s) = c :: s := by
    split
    · rename_i heq
      exact absurd (List.cons.inj heq).1 hminus
    · rename_i heq
      exact absurd (List.cons.inj heq).1 hplus
    · rfl
  rw [unread, dropSpace_digit (hall c List.mem_cons_self)]
  simp only [hsign]
  exact List.dropWhile_eq_nil_iff.2 hall

theorem wholeInt_intChars (i : Int64) : wholeInt (intChars i.toInt) = some i := by
  rw [wholeInt, if_pos (unread_whole (whole_intChars i.toInt)), stoll_intChars, Option.map_some, Int64.ofInt_toInt]

theorem scalarToVar_eqv (s : Str) : (scalarToVar stod s).eqv (.string s) = true ↔ Plain stod s := by
  rw [scalarToVar]
  split_ifs with hbool
  · exact ⟨fun h => (by cases h), fun h => (hbool.elim h.bool.1 h.bool.2).elim⟩
  rw [not_or] at hbool
  split
  · rename_i i hint
    exact ⟨fun h => (by cases h), fun h => (by rw [h.int] at hint; cases hint)⟩
  · rename_i hint
    split
    · rename_i d hdouble
      exact ⟨fun h => (by cases h), fun h => (by rw [h.double] at hdouble; cases hdouble)⟩
    · rename_i hdouble
      exact ⟨fun _ => ⟨hbool, hint, hdouble⟩, fun _ => by simp [Var.eqv]⟩

/-- **A value comes back exactly where its strings are plain.** -/
theorem back_eqv {v : Var} (hv : Spelled (fun _ => True) v) :
    (back platform doubleScalar stod v).eqv v = true ↔ Spelled (Plain stod) v := by
  induction hv with
  | none => exact ⟨fun _ => .none, fun _ => rfl⟩
  | bool b =>
    refine ⟨fun _ => .bool b, fun _ => ?_⟩
    cases b <;> rfl
  | int i =>
    refine ⟨fun _ => .int i, fun _ => ?_⟩
    have hno : ¬ (intChars i.toInt = ascii "true" ∨ intChars i.toInt = ascii "false") := by
      have hint := wholeInt_intChars i
      rintro (h | h) <;> (rw [h] at hint; cases hint)
    rw [back, varToYaml, yamlToVar, scalarToVar, if_neg hno, wholeInt_intChars]
    simp [Var.eqv]
  | @string s _ =>
    rw [back, varToYaml, yamlToVar, scalarToVar_eqv]
    exact ⟨.string, fun h => by cases h; assumption⟩
  | @list l _ ih =>
    have hlist := @Var.eqvList_map Var (back platform doubleScalar stod) id l
    rw [List.map_id] at hlist
    rw [back_list, Var.eqv, hlist]
    refine ⟨fun h => .list fun v hv => (ih v hv).1 (h v hv), fun h v hv => ?_⟩
    cases h with
    | list h => exact (ih v hv).2 (h v hv)
  | @dict d hk _ ih =>
    have hall : (back platform doubleScalar stod (.dict d)).eqv (.dict d) = true ↔
        ∀ p ∈ d, (back platform doubleScalar stod p.2).eqv p.2 = true := by
      have hlook : ∀ p ∈ d, d.lookup p.1 = some p.2 := fun p hp => lookup_of_mem hk hp
      rw [back_dict hk, Var.eqv, Bool.and_eq_true, Var.eqvDict_iff, List.forall_mem_map]
      simp only [List.length_map, decide_true, true_and]
      exact forall₂_congr fun p hp => by simp [hlook p hp]
    rw [hall]
    refine ⟨fun h => .dict hk fun p hp => (ih p hp).1 (h p hp), fun h p hp => ?_⟩
    cases h with
    | dict _ h => exact (ih p hp).2 (h p hp)

end RoundTrip

/-- **A value is what its text is decoded to exactly where its strings are plain**: they are neither of the
two words nor read to their end as a number. -/
theorem yaml_round_iff (platform : Platform) (doubleScalar : Binary64 → Str) (stod : Str → Option (Binary64 × Nat))
    (emit : Yaml → Str) (load : Str → Option Yaml) (v : Var) (hv : Spelled (fun _ => True) v)
    (hload : load (emit (varToYaml platform doubleScalar v)) = some (varToYaml platform doubleScalar v)) :
    (decode stod load (encode platform doubleScalar emit v)).eqv v = true ↔ Spelled (Plain stod) v := by
  rw [decode, encode, hload]
  exact back_eqv hv

/-- A word that is no number comes back. -/
theorem yaml_round_sample : (decode (fun _ => none) (fun _ => some (.scalar (ascii "hello")))
    (encode ⟨fun _ => [], fun _ => [], fun _ => 0, fun _ => 0⟩ (fun _ => []) (fun _ => ascii "hello")
      (.string (ascii "hello")))).eqv (.string (ascii "hello")) = true := by
  refine (yaml_round_iff _ _ _ _ _ _ (.string trivial) rfl).2 (.string ⟨?_, ?_, rfl⟩)
  · decide
  · decide

/-- The string `true` comes back as a boolean. -/
theorem word_comes_back_bool : ¬ ∀ (platform : Platform) (doubleScalar : Binary64 → Str)
    (stod : Str → Option (Binary64 × Nat)) (emit : Yaml → Str) (load : Str → Option Yaml) (v : Var),
    Spelled (fun _ => True) v →
    load (emit (varToYaml platform doubleScalar v)) = some (varToYaml platform doubleScalar v) →
    (decode stod load (encode platform doubleScalar emit v)).eqv v = true := by
  intro h
  have hback := h ⟨fun _ => [], fun _ => [], fun _ => 0, fun _ => 0⟩ (fun _ => []) (fun _ => none)
    (fun _ => ascii "true") (fun _ => some (.scalar (ascii "true"))) (.string (ascii "true")) (.string trivial) rfl
  exact absurd hback (by decide)

end Ros

end VersatileEngine
