import VersatileEngine.Json.Export
import VersatileEngine.Lib.Nearest
import VersatileEngine.Schema.RoundTrip

/-!
# VersatileEngine.Json.RoundTrip

A tree, exported as JSON and imported into a fresh node.

* `Simdjson.Rounds`   — the reader rounds literals correctly.
* `readBackValue`     — what the text of a scalar is read as: numbers are typed by their spelling.
* `Tree.Ordered`      — the trees: scalars, distinct names, anonymous children last.
* `treeOf_readBack`   — the text of such a tree is read as the tree with other values.
* `json_round_trip`   — which of them come back.
-/

namespace VersatileEngine

open Json

/-- A literal with a fraction or an exponent is read as the number nearest to it. -/
def Simdjson.Rounds (simdjson : Simdjson) : Prop := ∀ literal d,
  numberOf literal = some (.real literal) → Binary64.Nearest (literalValue literal) d →
    simdjson.getDouble literal = some d

/-! ## Values -/

/-- `NONE`, `BOOL`, `INT`, `DOUBLE`, or a `STRING` of UTF-8. -/
inductive Var.Basic : Var → Prop
  | none : Basic .none
  | bool (b : Bool) : Basic (.bool b)
  | int (i : Int64) : Basic (.int i)
  | double (d : Binary64) : Basic (.double d)
  | string {s : Str} (h : Utf8.Valid s) : Basic (.string s)

/-- The integer that is printed for a number. -/
def Binary64.printedInt (d : Binary64) : Option Int :=
  d.toInt?.filter fun i => i.natAbs < 10 ^ 17

/-- What the text of a scalar is read as. -/
def readBackValue : Var → Var
  | .double d =>
    if d.isFinite then
      match d.printedInt with
      | some i => .int (Int64.ofInt i)
      | none => .double d
    else .none
  | v => v

/-- A value that is read as itself. -/
def Var.Kept (v : Var) : Prop :=
  ∀ d, v = .double d → d.isFinite = true ∧ ∀ i, d.toInt? = some i → 10 ^ 17 ≤ i.natAbs

theorem printedInt_eq_some {d : Binary64} {i : Int} :
    d.printedInt = some i ↔ d.toInt? = some i ∧ i.natAbs < 10 ^ 17 := by
  rw [Binary64.printedInt, Option.filter_eq_some_iff, decide_eq_true_eq]

theorem printedInt_eq_none {d : Binary64} :
    d.printedInt = none ↔ ∀ i, d.toInt? = some i → 10 ^ 17 ≤ i.natAbs := by
  rw [Binary64.printedInt, Option.filter_eq_none_iff]
  simp

theorem readBackValue_eq_self {v : Var} : readBackValue v = v ↔ v.Kept := by
  unfold Var.Kept
  cases v with
  | double d =>
    simp only [readBackValue, Var.double.injEq, forall_eq', ← printedInt_eq_none]
    cases d.isFinite <;> cases d.printedInt <;> simp
  | _ => simp [readBackValue]

theorem readBackValue_leaf {v : Var} (h : v.Basic) : (readBackValue v).isContainer = false := by
  cases h with
  | double d =>
    simp only [readBackValue]
    split_ifs
    · split <;> rfl
    · rfl
  | _ => rfl

section Numbers

variable {simdjson : Simdjson}

/-- The text of a finite number. -/
theorem format17g_reads {d : Binary64} (hf : d.isFinite = true) : ∃ j, Reads j (format17g d) ∧
    (∀ c ∈ format17g d, isNumChar c = true) ∧ (∀ i, d.printedInt = some i → j = .int i) ∧
      (d.printedInt = none → j = .real (format17g d) ∧
        numberOf (format17g d) = some (.real (format17g d)) ∧
          Binary64.Nearest (literalValue (format17g d)) d) := by
  cases hp : d.printedInt with
  | some i =>
    obtain ⟨hi, hlt⟩ := printedInt_eq_some.mp hp
    obtain ⟨htext, hsign⟩ := format17g_int hi hlt
    have hchars : ∀ n, ∀ c ∈ natChars n, isNumChar c = true := fun n c hc =>
      isNumChar_digit (isDigit_natChars hc)
    refine ⟨.int i, ?_, ?_, fun i' hi' => congrArg Json.int (Option.some.inj hi'),
      fun h => (by cases h)⟩
    · rw [htext]
      cases hneg : d.negative with
      | true =>
        rw [hneg, if_pos rfl] at hsign
        rw [hsign, Int.natAbs_neg]
        exact reads_neg _
      | false =>
        rw [hneg, if_neg (by simp)] at hsign
        rw [hsign]
        exact reads_natChars _
    · rw [htext]
      cases d.negative with
      | true => exact List.forall_mem_cons.mpr ⟨rfl, hchars _⟩
      | false => exact hchars _
  | none =>
    obtain ⟨s, y, htext, hs, hy⟩ := format17g_real hf fun ⟨i, hi, hlt⟩ => by
      rw [printedInt_eq_some.mpr ⟨hi, hlt⟩] at hp
      cases hp
    have hne : s ≠ [] := by
      rintro rfl
      cases hs.number
    obtain ⟨c, s, rfl⟩ := List.exists_cons_of_ne_nil hne
    have hc : isDigit c = true := hs.head c rfl
    have hminus : ¬ (c :: s).head? = some 45 := fun h => by
      rw [Option.some.inj h] at hc
      cases hc
    refine ⟨.real (format17g d), ?_, ?_, fun i hi => (by cases hi), fun _ => ⟨rfl, ?_⟩⟩
    · rw [htext]
      cases d.negative with
      | true => exact reads_number (List.forall_mem_cons.mpr ⟨rfl, hs.chars⟩) (.inr rfl) hs.signed
      | false => exact reads_number hs.chars (.inl hc) hs.number
    · rw [htext]
      cases d.negative with
      | true => exact List.forall_mem_cons.mpr ⟨rfl, hs.chars⟩
      | false => exact hs.chars
    · rw [htext]
      cases hneg : d.negative with
      | true =>
        rw [hneg] at hy
        refine ⟨hs.signed, ?_⟩
        rw [literalValue, if_pos rfl, List.tail_cons, hs.value]
        exact hy
      | false =>
        rw [hneg] at hy
        have hvalue : literalValue (c :: s) = y := by rw [literalValue, if_neg hminus, hs.value]
        exact ⟨hs.number, hvalue ▸ hy⟩

theorem isNumChar_ascii {c : UInt8} (h : isNumChar c = true) : c ≤ 0x7F := by
  simp only [isNumChar, isDigit, Bool.or_eq_true, Bool.and_eq_true, decide_eq_true_eq,
    UInt8.le_iff_toNat_le, ← UInt8.toNat_inj, UInt8.toNat_ofNat] at h ⊢
  omega

/-- The text of a scalar says what it is read back as. -/
theorem Var.Basic.jsonText (hr : simdjson.Rounds) {v : Var} (h : v.Basic) :
    JsonText simdjson.getDouble (varToJson v) (readBackValue v) := by
  cases h with
  | none => exact jsonText_null
  | bool b => exact jsonText_bool b
  | int i => exact jsonText_intChars i
  | @string s _ => exact jsonText_quoted s
  | double d =>
    rw [varToJson, readBackValue]
    cases hf : d.isFinite with
    | false => exact jsonText_null
    | true =>
      simp only [if_true]
      obtain ⟨j, hj, -, hint, hreal⟩ := format17g_reads hf
      cases hp : d.printedInt with
      | some i =>
        obtain rfl := hint i hp
        have hlt := (printedInt_eq_some.mp hp).2
        refine ⟨.int i, hj, ?_, oneEmptyKey_scalar rfl⟩
        rw [Json.onDemand, if_pos ⟨by omega, by omega⟩]
        rfl
      | none =>
        obtain ⟨rfl, hnum, hnear⟩ := hreal hp
        refine ⟨.real (format17g d), hj, ?_, oneEmptyKey_scalar rfl⟩
        rw [Json.onDemand, hr _ d hnum hnear]
        rfl

theorem Var.Basic.valid {v : Var} (h : v.Basic) : Utf8.Valid (varToJson v) := by
  cases h with
  | double d =>
    rw [varToJson]
    split_ifs with hf
    · obtain ⟨-, -, hchars, -⟩ := format17g_reads hf
      exact Utf8.valid_ascii fun c hc => isNumChar_ascii (hchars c hc)
    · decide
  | none => exact Var.Textual.none.valid
  | bool b => exact (Var.Textual.bool b).valid
  | int i => exact (Var.Textual.int i).valid
  | string h => exact (Var.Textual.string h).valid

end Numbers

/-! ## Trees -/

/-- Scalars, with distinct names among siblings and anonymous children behind the named ones. A node
with anonymous children only has no value of its own. -/
inductive Tree.Ordered : Tree → Prop
  | node {nm : Str} {v : Var} {named anons : List Tree} (hv : v.Basic)
      (hd : (named.map Tree.name).Nodup) (hn : ∀ k ∈ named, k.name ≠ [])
      (ha : ∀ k ∈ anons, k.name = []) (hown : named = [] → anons ≠ [] → v = .none)
      (h : ∀ k ∈ named, Ordered k) (h' : ∀ k ∈ anons, Ordered k) :
      Ordered (.node nm v (named ++ anons))

mutual
def Tree.mapValues (f : Var → Var) : Tree → Tree
  | .node nm v kids => .node nm (f v) (mapValuesAll f kids)

def Tree.mapValuesAll (f : Var → Var) : List Tree → List Tree
  | [] => []
  | k :: ks => mapValues f k :: mapValuesAll f ks
end

theorem mapValuesAll_eq (f : Var → Var) (ks : List Tree) :
    Tree.mapValuesAll f ks = ks.map (Tree.mapValues f) := by
  induction ks with
  | nil => rfl
  | cons k ks ih => rw [Tree.mapValuesAll, ih]; rfl

/-- No node but the root has this name. -/
def Tree.Lacks (t : Tree) (key : Str) : Prop := t.Shown .default (· ≠ key) fun _ => True

section Trees

/-- A child as the text says it. -/
def Tree.readBack (k : Tree) : Str × Var := (k.name, VersatileEngine.readBack readBackValue .default k)

theorem readBackVars_default (ks : List Tree) :
    readBackVars readBackValue .default ks = ks.map Tree.readBack := by
  induction ks with
  | nil => rfl
  | cons k ks ih => rw [readBackVars, if_neg (by simp), ih]; rfl

theorem readBack_array {nm : Str} {v : Var} {anons : List Tree} (hne : anons ≠ [])
    (ha : ∀ k ∈ anons, k.name = []) : VersatileEngine.readBack readBackValue .default (.node nm v anons) =
      .list (anons.map (VersatileEngine.readBack readBackValue .default)) := by
  obtain ⟨k, ks, rfl⟩ := List.exists_cons_of_ne_nil hne
  rw [VersatileEngine.readBack, readBackVars_default]
  simp [Tree.readBack, ha k (by simp)]

/-- The entry of the own value, as the text says it. -/
def ownEntry (v : Var) : List (Str × Var) := (valueEntry v).map fun p => (p.1, readBackValue p.2)

/-- The entries of a node whose first child has a name. -/
def objectEntries (v : Var) (named anons : List Tree) : List (Str × Var) :=
  ownEntry v ++ named.map Tree.readBack ++
    anonymousEntry (anons.map (VersatileEngine.readBack readBackValue .default))

theorem ownEntry_eq (v : Var) :
    ownEntry v = if v.isNull then [] else [(valueKey, readBackValue v)] := by
  unfold ownEntry valueEntry
  split_ifs <;> rfl

section Object

variable {nm : Str} {v : Var} {named anons : List Tree}

theorem objectEntries_keys (hd : (named.map Tree.name).Nodup)
    (hn : ∀ k ∈ named, k.name ≠ [] ∧ k.name ≠ valueKey) :
    ((objectEntries v named anons).map Prod.fst).Nodup := by
  have hkeys : (named.map Tree.readBack).map Prod.fst = named.map Tree.name := by
    rw [List.map_map]
    rfl
  have hnamed : ∀ nm ∈ named.map Tree.name, nm ≠ [] ∧ nm ≠ valueKey := List.forall_mem_map.mpr hn
  have hne := valueKey_ne
  rw [objectEntries, List.map_append, List.map_append, hkeys, ownEntry_eq, anonymousEntry]
  generalize named.map Tree.name = names at hd hnamed
  have hvalue : valueKey ∉ names := fun h => (hnamed _ h).2 rfl
  have hempty : ∀ nm ∈ names, ¬ nm = [] := fun nm h => (hnamed nm h).1
  split_ifs <;> simp [List.nodup_append, hd, hvalue, hne] <;> exact hempty

theorem readBack_object (hne : named ≠ []) (hd : (named.map Tree.name).Nodup)
    (hn : ∀ k ∈ named, k.name ≠ [] ∧ k.name ≠ valueKey) (ha : ∀ k ∈ anons, k.name = []) :
    VersatileEngine.readBack readBackValue .default (.node nm v (named ++ anons)) =
      .dict (objectEntries v named anons) := by
  obtain ⟨hfirsts, hrest⟩ := group_named (VersatileEngine.readBack readBackValue .default) hd
    (fun k hk => (hn k hk).1) ha
  have hentries : readBackEntries readBackValue v ((named ++ anons).map Tree.readBack) =
      objectEntries v named anons :=
    congrArg₂ (fun a b => ownEntry v ++ a ++ anonymousEntry b) hfirsts hrest
  obtain ⟨k, ks, rfl⟩ := List.exists_cons_of_ne_nil hne
  have hfirst : ¬ k.name = [] := (hn k (by simp)).1
  rw [VersatileEngine.readBack, readBackVars_default, hentries,
    assignAll_new (objectEntries_keys hd hn) fun p _ hm => (by cases hm)]
  exact if_neg hfirst

theorem objectEntries_value (hn : ∀ k ∈ named, k.name ≠ [] ∧ k.name ≠ valueKey) :
    ((objectEntries v named anons).lookup valueKey).getD .none = readBackValue v := by
  have hnone : (named.map Tree.readBack ++
      anonymousEntry (anons.map (VersatileEngine.readBack readBackValue .default))).lookup valueKey =
        none := by
    rw [← Option.not_isSome_iff_eq_none, lookup_isSome]
    intro hm
    obtain ⟨p, hp, he⟩ := List.mem_map.mp hm
    rcases List.mem_append.mp hp with hp | hp
    · obtain ⟨k, hk, rfl⟩ := List.mem_map.mp hp
      exact (hn k hk).2 he
    · rw [(mem_anonymousEntry hp).2] at he
      exact valueKey_ne he.symm
  rw [objectEntries, List.append_assoc, ownEntry_eq]
  cases v with
  | none => simp [Var.isNull, hnone, readBackValue]
  | _ => simp [Var.isNull]

theorem objectEntries_kids (hn : ∀ k ∈ named, k.name ≠ [] ∧ k.name ≠ valueKey) :
    (objectEntries v named anons).flatMap entryKids =
      (named.map fun k => treeOf k.name (VersatileEngine.readBack readBackValue .default k)) ++
        anons.map fun k => treeOf [] (VersatileEngine.readBack readBackValue .default k) := by
  have hown : (ownEntry v).flatMap entryKids = [] := by
    rw [ownEntry_eq]
    split_ifs
    · rfl
    · simp [entryKids]
  have hnamed : (named.map Tree.readBack).flatMap entryKids =
      named.map fun k => treeOf k.name (VersatileEngine.readBack readBackValue .default k) := by
    clear hown
    induction named with
    | nil => rfl
    | cons k ks ih =>
      rw [List.forall_mem_cons] at hn
      have hk : entryKids k.readBack =
          [treeOf k.name (VersatileEngine.readBack readBackValue .default k)] := by
        rw [Tree.readBack, entryKids]
        simp only
        rw [if_neg hn.1.2, if_neg hn.1.1]
      rw [List.map_cons, List.flatMap_cons, ih hn.2, hk]
      rfl
  rw [objectEntries, List.flatMap_append, List.flatMap_append, hown, hnamed,
    entryKids_anonymousEntry, List.map_map, List.nil_append]
  rfl

end Object

/-- **The text of a tree is read as the tree with the values as they are read back.** -/
theorem treeOf_readBack {t : Tree} (h : t.Ordered) : t.Lacks valueKey → ∀ nm,
    treeOf nm (VersatileEngine.readBack readBackValue .default t) =
      .node nm (readBackValue t.value) (t.kids.map (Tree.mapValues readBackValue)) := by
  induction h with
  | @node name v named anons hv hd hn ha hown _ _ ih ih' =>
    rintro (⟨-, hname, hkids⟩) nm
    have hmap : ∀ k : Tree, k.mapValues readBackValue =
        .node k.name (readBackValue k.value) (k.kids.map (Tree.mapValues readBackValue)) := by
      rintro ⟨nm, v, ks⟩
      rw [Tree.mapValues, mapValuesAll_eq]
      rfl
    have hsome : ∀ k ∈ named ++ anons, ∀ nm, k.name = nm →
        treeOf nm (VersatileEngine.readBack readBackValue .default k) = k.mapValues readBackValue := by
      rintro k hk nm rfl
      rw [hmap]
      rcases List.mem_append.mp hk with hk' | hk'
      · exact ih k hk' (hkids k hk rfl) _
      · exact ih' k hk' (hkids k hk rfl) _
    by_cases hnamed : named = []
    · subst hnamed
      by_cases hanons : anons = []
      · subst hanons
        exact treeOf_leaf (readBackValue_leaf hv) nm
      · obtain rfl := hown rfl hanons
        rw [List.nil_append, readBack_array hanons ha, treeOf_list, List.map_map]
        refine congrArg (Tree.node nm .none) (List.map_congr_left fun k hk => ?_)
        exact hsome k (List.mem_append_right _ hk) [] (ha k hk)
    · have hn' : ∀ k ∈ named, k.name ≠ [] ∧ k.name ≠ valueKey := fun k hk =>
        ⟨hn k hk, hname k (List.mem_append_left _ hk) rfl⟩
      rw [readBack_object hnamed hd hn' ha, treeOf_dict nm (objectEntries_keys hd hn'),
        objectEntries_value hn', objectEntries_kids hn']
      refine congrArg (Tree.node nm _) ?_
      rw [Tree.kids, List.map_append]
      refine congrArg₂ _ (List.map_congr_left fun k hk => ?_) (List.map_congr_left fun k hk => ?_)
      · exact hsome k (List.mem_append_left _ hk) _ rfl
      · exact hsome k (List.mem_append_right _ hk) [] (ha k hk)

end Trees

/-! ## What does not come back -/

section Failures

theorem Tree.Shown.and {options : ExportOptions} {nameOk nameOk' : Str → Prop}
    {valueOk valueOk' : Var → Prop} {t : Tree} (h : t.Shown options nameOk valueOk)
    (h' : t.Shown options nameOk' valueOk') :
    t.Shown options (fun nm => nameOk nm ∧ nameOk' nm) fun v => valueOk v ∧ valueOk' v := by
  induction h with
  | node hv hn _ ih =>
    obtain ⟨hv', hn', hk'⟩ := h'
    exact .node ⟨hv, hv'⟩ (fun k hk hi => ⟨hn k hk hi, hn' k hk hi⟩) fun k hk hi =>
      ih k hk hi (hk' k hk hi)

/-- The name of the root does not matter. -/
theorem Tree.Shown.rename {options : ExportOptions} {nameOk : Str → Prop} {valueOk : Var → Prop}
    {nm nm' : Str} {v : Var} {kids : List Tree}
    (h : (Tree.node nm v kids).Shown options nameOk valueOk) :
    (Tree.node nm' v kids).Shown options nameOk valueOk := by
  obtain ⟨hv, hn, hk⟩ := h
  exact .node hv hn hk

/-- An importer makes no child named `_value`. -/
theorem treeOf_lacks (v : Var) : v.WF → ∀ nm, (treeOf nm v).Lacks valueKey := by
  induction v using Var.ind with
  | h v ih =>
    intro hwf nm
    cases v with
    | list l =>
      rw [treeOf_list]
      refine .node trivial (fun k hk _ => ?_) fun k hk _ => ?_ <;>
        obtain ⟨x, hx, rfl⟩ := List.mem_map.mp hk
      · rw [treeOf_name]
        exact valueKey_ne.symm
      · exact ih x hx (Var.WF_list.mp hwf x hx) []
    | dict d =>
      obtain ⟨hnd, hwf⟩ := Var.WF_dict.mp hwf
      rw [treeOf_dict nm hnd]
      refine .node trivial (fun k hk _ => ?_) fun k hk _ => ?_ <;>
        obtain ⟨p, hp, hk⟩ := List.mem_flatMap.mp hk
      · rw [entryKids_name hk]
        unfold entryKids at hk
        split_ifs at hk with hv
        · cases hk
        · exact hv
        · exact hv
      · have hih := ih p.2 (Var.mem_items_dict hp) (hwf p hp)
        unfold entryKids at hk
        split_ifs at hk with hv ha
        · cases hk
        · split at hk
          · rename_i l heq
            have hlist := hih []
            rw [heq, treeOf_list] at hlist
            obtain ⟨-, -, hkids⟩ := hlist
            exact hkids k hk rfl
          · cases hk
        · rw [List.mem_singleton.mp hk]
          exact hih _
    | _ => exact .node trivial (fun k hk => (by cases hk)) fun k hk => (by cases hk)

theorem mapValues_eq_self {t : Tree} (h : t.mapValues readBackValue = t) :
    t.Shown .default (fun _ => True) Var.Kept := by
  induction t using Tree.ind with
  | h t ih =>
    obtain ⟨nm, v, kids⟩ := t
    rw [Tree.mapValues, mapValuesAll_eq, Tree.node.injEq] at h
    have hkids : ∀ k ∈ kids, k.mapValues readBackValue = k := by
      have hmap := h.2.2
      clear * - hmap
      induction kids with
      | nil => simp
      | cons k ks ih =>
        rw [List.map_cons, List.cons.injEq] at hmap
        exact List.forall_mem_cons.mpr ⟨hmap.1, ih hmap.2⟩
    exact .node (readBackValue_eq_self.mp h.2.1) (fun _ _ _ => trivial) fun k hk _ =>
      ih k hk (hkids k hk)

theorem mapValues_of_kept {t : Tree} (h : t.Shown .default (fun _ => True) Var.Kept) :
    t.mapValues readBackValue = t := by
  induction h with
  | @node nm v kids hv _ _ ih =>
    rw [Tree.mapValues, mapValuesAll_eq, readBackValue_eq_self.mpr hv]
    refine congrArg (Tree.node nm v) ?_
    exact (List.map_congr_left fun k hk => ih k hk rfl).trans (List.map_id kids)

theorem visibleTexts_default (ks : List Tree) :
    visibleTexts .default ks = ks.map fun k => (k.name, nodeToJson .default k) := by
  induction ks with
  | nil => rfl
  | cons k ks ih => rw [visibleTexts, if_neg (by simp), ih]; rfl

/-- Every text is there. -/
theorem allTexts_mem {α : Type} {l : List (α × Option Str)} {texts : List (α × Str)}
    (h : allTexts l = some texts) {c : α × Option Str} (hc : c ∈ l) :
    ∃ x, c.2 = some x ∧ (c.1, x) ∈ texts := by
  replace h := allTexts_forall₂ h
  induction h with
  | nil => cases hc
  | @cons c' f l texts hf _ ih =>
    rcases List.mem_cons.mp hc with rfl | hc
    · exact ⟨f.2, hf.2, by rw [hf.1]; exact List.mem_cons_self⟩
    · obtain ⟨x, hx, hm⟩ := ih hc
      exact ⟨x, hx, List.mem_cons_of_mem _ hm⟩

/-- The names and the texts of the children are in the text. -/
theorem valid_kids {named anons : List Tree} {v : Var} {depth : Nat} {text : Str}
    (hd : (named.map Tree.name).Nodup) (hn : ∀ k ∈ named, k.name ≠ [])
    (ha : ∀ k ∈ anons, k.name = [])
    (h : NodeText v (visibleTexts .default (named ++ anons)) depth text) (hvalid : Utf8.Valid text) :
    ∀ k ∈ named ++ anons, Utf8.Valid k.name ∧
      ∃ depth' x, nodeToJson .default k depth' = some x ∧ Utf8.Valid x := by
  have hnil : Utf8.Valid [] := rfl
  rw [visibleTexts_default] at h
  obtain ⟨hfirsts, hrest⟩ := group_named (nodeToJson .default) hd hn ha
  cases h with
  | leaf he =>
    rw [List.map_eq_nil_iff] at he
    rw [he]
    simp
  | @array pad pad1 texts hpad hpad1 hne hfirst ht =>
    rw [valid_array hpad1 hpad] at hvalid
    have hnamed : named = [] := by
      cases named with
      | nil => rfl
      | cons k ks => exact absurd (hfirst (k.name, _) rfl) (hn k (by simp))
    subst hnamed
    intro k hk
    obtain ⟨x, hx, hm⟩ := allTexts_mem ht (List.mem_map_of_mem (List.mem_map_of_mem hk))
    refine ⟨?_, _, x, hx, hvalid x (List.mem_map_of_mem hm)⟩
    rw [ha k hk]
    exact hnil
  | @object pad pad1 pad2 texts anonTexts fields hpad hpad1 hpad2 _ _ htn hta hf =>
    rw [hfirsts] at htn
    rw [hrest] at hta
    rw [valid_object hpad1 hpad, hf] at hvalid
    simp only [List.forall_mem_append] at hvalid
    obtain ⟨⟨-, hnamed⟩, hanons⟩ := hvalid
    rw [valid_anonymousField hpad2 hpad1] at hanons
    intro k hk
    rcases List.mem_append.mp hk with hk | hk
    · obtain ⟨x, hx, hm⟩ := allTexts_mem htn (List.mem_map_of_mem (List.mem_map_of_mem hk))
      exact ⟨(hnamed _ hm).1, _, x, hx, (hnamed _ hm).2⟩
    · obtain ⟨x, hx, hm⟩ := allTexts_mem hta (List.mem_map_of_mem (List.mem_map_of_mem hk))
      refine ⟨?_, _, x, hx, hanons x (List.mem_map_of_mem hm)⟩
      rw [ha k hk]
      exact hnil

theorem names_valid {t : Tree} (h : t.Ordered) : ∀ depth text,
    nodeToJson .default t depth = some text → Utf8.Valid text →
      t.Shown .default Utf8.Valid fun _ => True := by
  induction h with
  | @node nm v named anons _ hd hn ha _ _ _ ih ih' =>
    intro depth text ht hvalid
    have hkids := valid_kids hd hn ha (nodeToJson_cases ht) hvalid
    refine .node trivial (fun k hk _ => (hkids k hk).1) fun k hk _ => ?_
    obtain ⟨-, depth', x, hx, hxv⟩ := hkids k hk
    rcases List.mem_append.mp hk with hk | hk
    · exact ih k hk depth' x hx hxv
    · exact ih' k hk depth' x hx hxv

end Failures

/-! ## The round trip -/

section Trip

variable {simdjson : Simdjson}

theorem document_eq {j : Json} {v : Var} {getDouble : Str → Option Binary64}
    (h : domToVar (j.onDemand getDouble) = some v) :
    j.document getDouble = if v.isContainer then .value (j.onDemand getDouble) else .scalar := by
  cases j with
  | int i =>
    rw [onDemand] at h
    split_ifs at h
    · cases h
      rfl
    · cases h
  | real literal =>
    rw [onDemand] at h
    split at h
    · cases h
      rfl
    · cases h
  | arr l =>
    obtain ⟨vs, -, rfl⟩ := Option.map_eq_some_iff.mp h
    rfl
  | obj fs =>
    obtain ⟨dict, -, rfl⟩ := Option.map_eq_some_iff.mp h
    rfl
  | _ =>
    cases h
    rfl

/-- The import of a document, in terms of its value. -/
theorem importTree_document (hl : simdjson.Lawful) {text : Str} {j : Json} {v : Var}
    (hj : Json.read text = some j) (hlen : text.length < 2 ^ 32) (hone : j.OneEmptyKey)
    (hv : domToVar (j.onDemand simdjson.getDouble) = some v) (nm : Str) :
    JsonS.importTree simdjson .default (.blank nm) text = some (v.isContainer,
      if v.isContainer then .node nm (treeOf nm v).value (treeOf nm v).kids else .blank nm) := by
  have hne : text ≠ [] := by
    rintro rfl
    cases hj
  rw [JsonS.importTree, if_neg hne, hl.document text j hj hlen, document_eq hv]
  cases hc : v.isContainer with
  | false => rfl
  | true =>
    simp only [if_true]
    have hsame := treeOf_same (domToVar_wf hv) (ascii "json_import") nm
    rw [domToNode_eq hone.onDemand hv, Option.map_some, ← hsame.1, ← hsame.2]
    exact congrArg (fun t => some (true, t)) (copyTree_blank _ _ _ nm)

theorem Tree.Ordered.basic {t : Tree} (h : t.Ordered) :
    t.Shown .default (fun _ => True) Var.Basic := by
  induction h with
  | node hv _ _ _ _ _ _ ih ih' =>
    refine .node hv (fun _ _ _ => trivial) fun k hk _ => ?_
    rcases List.mem_append.mp hk with hk | hk
    · exact ih k hk
    · exact ih' k hk

theorem readBack_isContainer {t : Tree} (h : t.Ordered) :
    (VersatileEngine.readBack readBackValue .default t).isContainer = !t.kids.isEmpty := by
  obtain ⟨hv, -, -⟩ := h.basic
  rename_i nm v kids
  rw [VersatileEngine.readBack, readBackVars_default]
  cases kids with
  | nil => exact readBackValue_leaf hv
  | cons k ks =>
    simp only [List.map_cons, Tree.readBack, Tree.kids, List.isEmpty_cons, Bool.not_false]
    split_ifs <;> rfl

/-- **Exactly these trees come back**: the root has children, the names are UTF-8 and none is `_value`,
and every `DOUBLE` is finite and not an integer below `10^17`. -/
theorem json_round_trip (hl : simdjson.Lawful) (hr : simdjson.Rounds) {t : Tree} (h : t.Ordered)
    (nm : Str) :
    (JsonS.exportTree .default t).bind (JsonS.importTree simdjson .default (.blank nm)) =
        some (true, .node nm t.value t.kids) ↔
      t.kids ≠ [] ∧
        t.Shown .default (fun nm => nm ≠ valueKey ∧ Utf8.Valid nm) Var.Kept ∧
        ∃ text, JsonS.exportTree .default t = some text ∧ text.length < 2 ^ 32 := by
  cases hout : nodeToJson .default t 0 with
  | none =>
    rw [JsonS.exportTree, hout]
    refine ⟨fun h => (by cases h), ?_⟩
    rintro ⟨-, -, text, htext, -⟩
    cases htext
  | some out =>
    have htext : JsonS.exportTree .default t = some (out ++ [10]) := by
      rw [JsonS.exportTree, hout]
      rfl
    obtain ⟨j, hj, hjv, hone⟩ := @nodeToJson_readBack simdjson.getDouble readBackValue .default t
      (h.basic.imp (fun _ hn => hn) fun _ hv => hv.jsonText hr) 0 out hout
    have hnewline : Utf8.Valid [10] := by decide
    have himport : Utf8.Valid out → (out ++ [10]).length < 2 ^ 32 →
        JsonS.importTree simdjson .default (.blank nm) (out ++ [10]) = some (!t.kids.isEmpty,
          if !t.kids.isEmpty then .node nm
              (treeOf nm (VersatileEngine.readBack readBackValue .default t)).value
              (treeOf nm (VersatileEngine.readBack readBackValue .default t)).kids
            else .blank nm) := fun hv hlen => by
      have := importTree_document hl (read_of_reads hj (ws_newline ws_nil)
        (hv.append.mpr hnewline)) hlen hone hjv nm
      rwa [readBack_isContainer h] at this
    have hreject : simdjson.iterate (out ++ [10]) = none →
        JsonS.importTree simdjson .default (.blank nm) (out ++ [10]) = some (false, .blank nm) :=
      fun hi => by rw [JsonS.importTree, if_neg (by simp), hi]
    rw [htext, Option.bind_some]
    constructor
    · intro htrip
      have hlen : (out ++ [10]).length < 2 ^ 32 := by
        by_contra hlen
        rw [hreject (hl.capacity _ (Nat.not_lt.mp hlen))] at htrip
        cases htrip
      have hvalid : Utf8.Valid out := by
        by_contra hv
        have hv' : ¬ Utf8.Valid (out ++ [10]) := fun hv' => hv ((Utf8.valid_cut (by decide)).mp hv').1
        rw [hreject (hl.utf8 _ hv')] at htrip
        cases htrip
      rw [himport hvalid hlen] at htrip
      have hkids : t.kids.isEmpty = false := by
        cases hk : t.kids.isEmpty with
        | false => rfl
        | true =>
          rw [hk] at htrip
          cases htrip
      rw [hkids] at htrip
      have htree := (Prod.mk.inj (Option.some.inj htrip)).2
      have hsame : treeOf nm (VersatileEngine.readBack readBackValue .default t) =
          .node nm t.value t.kids := by
        rw [← Tree.eta (treeOf nm _), treeOf_name]
        exact htree
      have hlacks : t.Lacks valueKey := by
        have := treeOf_lacks _ (domToVar_wf hjv) nm
        rw [hsame] at this
        rw [← Tree.eta t]
        exact this.rename
      have hkept : t.Shown .default (fun _ => True) Var.Kept := by
        have hmap := (treeOf_readBack h hlacks nm).symm.trans hsame
        have hself : (Tree.node nm t.value t.kids).mapValues readBackValue =
            .node nm t.value t.kids := by
          rw [Tree.mapValues, mapValuesAll_eq]
          exact hmap
        rw [← Tree.eta t]
        exact (mapValues_eq_self hself).rename
      refine ⟨fun he => by simp [he] at hkids, ?_, _, rfl, hlen⟩
      exact (hlacks.and ((names_valid h 0 out hout hvalid).and hkept)).imp
        (fun _ hn => ⟨hn.1, hn.2.1⟩) fun _ hv => hv.2.2
    · rintro ⟨hne, hshown, text, he, hlen⟩
      rw [← Option.some.inj he] at hlen
      have hvalid := nodeToJson_valid ((hshown.and h.basic).imp (fun _ hn => hn.1.2)
        fun _ hv => hv.2.valid) 0 out hout
      have hkids : t.kids.isEmpty = false := by simpa using hne
      have htree := treeOf_readBack h (hshown.imp (fun _ hn => hn.1) fun _ _ => trivial) nm
      have hself := mapValues_of_kept (hshown.imp (fun _ _ => trivial) fun _ hv => hv)
      have hmap : (Tree.node nm (readBackValue t.value)
          (t.kids.map (Tree.mapValues readBackValue))) = .node nm t.value t.kids := by
        obtain ⟨nm', v, kids⟩ := t
        rw [Tree.mapValues, mapValuesAll_eq, Tree.node.injEq] at hself
        rw [Tree.node.injEq]
        exact ⟨rfl, hself.2⟩
      rw [himport hvalid hlen, hkids, htree, hmap]
      rfl

end Trip

/-- The reader that rounds correctly. -/
noncomputable def Simdjson.rounding : Simdjson :=
  .reference fun literal => Binary64.rounded (literalValue literal)

theorem Simdjson.rounding_lawful : Simdjson.rounding.Lawful := Simdjson.reference_lawful _

theorem Simdjson.rounding_rounds : Simdjson.rounding.Rounds := fun _ _ _ h =>
  Binary64.rounded_eq h

/-- A number, a name beyond ASCII, and anonymous children below and behind. -/
def restored : Tree :=
  .node (ascii "r") (.bool true)
    [.node (ascii "a") (.double ⟨0x3FE0000000000000⟩) [],
      .node [0xc3, 0xa9] .none [.node [] (.int (-5)) []], .node [] (.string (ascii "x\n")) []]

theorem json_round_trip_sample :
    (JsonS.exportTree .default restored).bind
        (JsonS.importTree Simdjson.rounding .default (.blank (ascii "f"))) =
      some (true, .node (ascii "f") restored.value restored.kids) := by
  have hleaf : ∀ {nm : Str} {v : Var}, v.Basic → (Tree.node nm v []).Ordered := fun hv =>
    @Tree.Ordered.node _ _ [] [] hv (by simp) (by simp) (by simp) (by simp) (by simp) (by simp)
  have hlist : (Tree.node [0xc3, 0xa9] .none [.node [] (.int (-5)) []]).Ordered :=
    @Tree.Ordered.node _ _ [] [_] .none (by simp) (by simp) (by simp [Tree.name]) (by simp) (by simp)
      (by simpa using hleaf (.int _))
  have hordered : restored.Ordered :=
    @Tree.Ordered.node _ _ [_, _] [_] (.bool true) (by decide) (by decide) (by decide) (by simp)
      (by simpa using ⟨hleaf (.double _), hlist⟩) (by simpa using hleaf (.string (by decide)))
  have hkept : ∀ {v : Var}, (∀ d, v ≠ .double d) → v.Kept := fun h d hd => absurd hd (h d)
  have hshown : ∀ {nm : Str} {v : Var}, v.Kept → (Tree.node nm v []).Shown .default
      (fun nm => nm ≠ valueKey ∧ Utf8.Valid nm) Var.Kept := fun hv => .node hv (by simp) (by simp)
  have hhalf : (Var.double ⟨0x3FE0000000000000⟩).Kept := by
    rintro d hd
    cases hd
    refine ⟨by decide, fun i hi => ?_⟩
    cases hi
  refine (json_round_trip Simdjson.rounding_lawful Simdjson.rounding_rounds hordered _).mpr
    ⟨by simp [restored, Tree.kids], .node (hkept (by simp)) ?_ ?_, _, rfl, by decide +kernel⟩
  · simp only [List.forall_mem_cons]
    exact ⟨by decide, by decide, by decide, by simp⟩
  · simp only [List.forall_mem_cons]
    refine ⟨fun _ => hshown hhalf, fun _ => .node (hkept (by simp)) (by decide) ?_,
      fun _ => hshown (hkept (by simp)), by simp⟩
    simpa using hshown (hkept (by simp))

/-- A leaf is written as a scalar document, and the importer takes no scalar. -/
theorem leaf_not_imported : ¬ ∀ t : Tree, t.Ordered →
    (JsonS.exportTree .default t).bind
        (JsonS.importTree Simdjson.rounding .default (.blank (ascii "f"))) =
      some (true, .node (ascii "f") t.value t.kids) := by
  intro h
  have htrip := h (.node (ascii "r") (.int 5) []) (@Tree.Ordered.node _ _ [] [] (.int 5) (by simp)
    (by simp) (by simp) (by simp) (by simp) (by simp))
  have hread : Json.read (natChars 5 ++ [10]) = some (.int 5) :=
    read_of_reads (reads_natChars 5) (ws_newline ws_nil) (by decide)
  have himport := importTree_document Simdjson.rounding_lawful hread (by decide)
    (oneEmptyKey_scalar rfl) (v := .int 5) rfl (ascii "f")
  have hsame := himport.symm.trans htrip
  cases hsame

end VersatileEngine
