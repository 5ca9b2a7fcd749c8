import VersatileEngine.Json.Text

/-!
# VersatileEngine.Json.Export

The JSON exporter writes what the exporter of values returns.

* `readBack`            — the value that the text of a tree says, when the text of a value says what
  `back` makes of it; `readBack id` is `nodeToVar`.
* `NodeText`          — what `nodeToJson` writes. Own value, named children and anonymous children are
  the fields of one list.
* `nodeToJson_readBack`   — the text of a tree says `readBack`.
* `exportTree_document` — the text of a tree is a document with the exported value.
-/

namespace VersatileEngine

open Json

/-! ## The value of a text -/

section Back

variable (back : Var → Var)

/-- The entries of a node whose first visible child has a name. -/
def readBackEntries (value : Var) (visible : List (Str × Var)) : List (Str × Var) :=
  (valueEntry value).map (fun p => (p.1, back p.2)) ++ namedFirsts [] visible ++
    anonymousEntry (anonymous visible)

mutual
/-- The value that the text of a tree says. -/
def readBack (options : ExportOptions) : Tree → Var
  | .node _ value kids =>
    let visible := readBackVars options kids
    match visible with
    | [] => back value
    | (first, _) :: _ =>
      if first = [] then .list (visible.map Prod.snd)
      else .dict (assignAll [] (readBackEntries back value visible))

def readBackVars (options : ExportOptions) : List Tree → List (Str × Var)
  | [] => []
  | k :: ks =>
    if isIgnoredChild options k then readBackVars options ks
    else (k.name, readBack options k) :: readBackVars options ks
end

end Back

theorem dictOf_assignAll (v : Var) (visible : List (Str × Var)) :
    dictOf v visible = assignAll [] (readBackEntries id v visible) := by
  have hown : (if v.isNull then [] else assign [] valueKey v) = assignAll [] (valueEntry v) := by
    unfold valueEntry
    split_ifs <;> rfl
  have hid : (valueEntry v).map (fun p => (p.1, id p.2)) = valueEntry v := List.map_id _
  rw [readBackEntries, assignAll_append, assignAll_append, hid, dictOf, hown]
  simp only [anonymousEntry]
  split_ifs <;> rfl

theorem readBack_id (options : ExportOptions) (t : Tree) : readBack id options t = nodeToVar options t := by
  induction t using Tree.ind with
  | h t ih =>
    obtain ⟨nm, value, kids⟩ := t
    have hkids : readBackVars id options kids = visibleVars options kids := by
      have ih : ∀ k ∈ kids, readBack id options k = nodeToVar options k := ih
      clear * - ih
      induction kids with
      | nil => rfl
      | cons k ks hks =>
        rw [List.forall_mem_cons] at ih
        rw [readBackVars, visibleVars, hks ih.2, ih.1]
    rw [readBack, nodeToVar, hkids]
    cases hv : visibleVars options kids with
    | nil => rfl
    | cons p visible =>
      obtain ⟨first, v⟩ := p
      simp only
      rw [← dictOf_assignAll]
      rfl

/-! ## What the exporter writes -/

theorem padding_ws {n : Int} {pad : Str} (h : padding n = some pad) : Ws pad := by
  unfold padding at h
  split_ifs at h
  exact Option.some.inj h ▸ ws_replicate _

theorem allTexts_forall₂ {α : Type} {l : List (α × Option Str)} : ∀ {texts : List (α × Str)},
    allTexts l = some texts → List.Forall₂ (fun c f => c.1 = f.1 ∧ c.2 = some f.2) l texts := by
  induction l with
  | nil =>
    intro texts h
    cases h
    exact .nil
  | cons c l ih =>
    obtain ⟨a, text⟩ := c
    intro texts h
    cases text with
    | none => cases h
    | some text =>
      rw [allTexts, Option.bind_some, Option.map_eq_some_iff] at h
      obtain ⟨rest, hrest, rfl⟩ := h
      exact .cons ⟨rfl, rfl⟩ (ih hrest)

/-- Own value, as a field. -/
def ownField (value : Var) : List (Str × Str) := (valueEntry value).map fun p => (p.1, varToJson p.2)

/-- Anonymous children, as a field. -/
def anonymousField (pad pad' : Str) (texts : List Str) : List (Str × Str) :=
  if texts.isEmpty then []
  else [([], ascii "[\n" ++ elementLines pad texts.length 0 texts ++ pad' ++ [93])]

/-- What is written for a node with a value and visible children, at a depth. -/
inductive NodeText (value : Var) (visible : List (Str × (Nat → Option Str))) (depth : Nat) : Str → Prop
  | leaf (h : visible = []) : NodeText value visible depth (varToJson value)
  | array {pad pad1 : Str} {texts : List (Str × Str)} (hpad : Ws pad) (hpad1 : Ws pad1)
      (hne : visible ≠ []) (hfirst : ∀ c ∈ visible.head?, c.1 = [])
      (ht : allTexts (visible.map fun c => (c.1, c.2 (depth + 1))) = some texts) :
      NodeText value visible depth
        (ascii "[\n" ++ elementLines pad1 texts.length 0 (texts.map Prod.snd) ++ pad ++ [93])
  | object {pad pad1 pad2 : Str} {named anons : List (Str × Str)} {fields : List (Str × Str)}
      (hpad : Ws pad) (hpad1 : Ws pad1) (hpad2 : Ws pad2)
      (hne : visible ≠ []) (hfirst : ∀ c ∈ visible.head?, c.1 ≠ [])
      (hn : allTexts ((namedFirsts [] visible).map fun c => (c.1, c.2 (depth + 1))) = some named)
      (ha : allTexts ((anonymous visible).map fun c => (([] : Str), c (depth + 2))) = some anons)
      (hf : fields = ownField value ++ named ++ anonymousField pad2 pad1 (anons.map Prod.snd)) :
      NodeText value visible depth
        (ascii "\x7b\n" ++ fieldLines pad1 fields.length 0 fields ++ pad ++ [125])

theorem fieldLines_append (pad : Str) (total : Nat) (a b : List (Str × Str)) : ∀ i,
    fieldLines pad total i (a ++ b) =
      fieldLines pad total i a ++ fieldLines pad total (i + a.length) b := by
  induction a with
  | nil => intro i; rfl
  | cons f a ih =>
    obtain ⟨nm, text⟩ := f
    intro i
    rw [List.cons_append, fieldLines, fieldLines, ih, List.length_cons, Nat.add_right_comm,
      Nat.add_assoc]
    simp

theorem ownField_length (value : Var) :
    (ownField value).length = if value.isNull then 0 else 1 := by
  rw [ownField, List.length_map, valueEntry]
  split_ifs <;> rfl

/-- The lines of the own value and the named children. -/
theorem fieldLines_named (value : Var) (named : List (Str × Str)) (pad : Str) (total : Nat) :
    (if value.isNull then []
      else pad ++ ascii "\"_value\": " ++ varToJson value ++ lineEnd 1 total) ++
      fieldLines pad total (if value.isNull then 0 else 1) named =
        fieldLines pad total 0 (ownField value ++ named) := by
  have hkey : quoted valueKey ++ ascii ": " = ascii "\"_value\": " := rfl
  rw [fieldLines_append, Nat.zero_add, ownField_length]
  unfold ownField valueEntry
  split_ifs
  · rfl
  · rw [List.map_singleton, fieldLines, fieldLines, List.append_nil, ← hkey]
    simp

/-- The lines of the anonymous children, which stand last. -/
theorem fieldLines_anonymous {texts : List Str} (hne : texts ≠ []) (pad pad' : Str) (i : Nat) :
    fieldLines pad' (i + 1) i (anonymousField pad pad' texts) = pad' ++ ascii "\"\": [\n" ++
      elementLines pad texts.length 0 texts ++ pad' ++ ascii "]\n" := by
  have hempty : texts.isEmpty = false := by simpa using hne
  have hquoted : quoted [] = [34, 34] := rfl
  rw [anonymousField, hempty]
  simp [fieldLines, lineEnd_last, hquoted, ascii]

theorem nodeToJson_cases {options : ExportOptions} {nm text : Str} {value : Var} {kids : List Tree}
    {depth : Nat} (h : nodeToJson options (.node nm value kids) depth = some text) :
    NodeText value (visibleTexts options kids) depth text := by
  rw [nodeToJson] at h
  obtain ⟨pad, hpad, h⟩ := Option.bind_eq_some_iff.mp h
  obtain ⟨pad1, hpad1, h⟩ := Option.bind_eq_some_iff.mp h
  have hpad := padding_ws hpad
  have hpad1 := padding_ws hpad1
  revert h
  generalize visibleTexts options kids = visible
  intro h
  cases visible with
  | nil =>
    rw [← Option.some.inj h]
    cases value <;> exact .leaf rfl
  | cons c visible =>
    obtain ⟨first, text₀⟩ := c
    have hlen : ∀ {l : List (Str × Option Str)} {texts : List (Str × Str)},
        allTexts l = some texts → texts.length = l.length := fun ht =>
      (allTexts_forall₂ ht).length_eq.symm
    have hne : (first, text₀) :: visible ≠ [] := by simp
    simp only at h
    by_cases hfirst : first = []
    · rw [if_pos hfirst] at h
      obtain ⟨texts, ht, rfl⟩ := Option.map_eq_some_iff.mp h
      have hl := hlen ht
      rw [List.length_map] at hl
      rw [← hl]
      exact .array hpad hpad1 hne (by simpa using hfirst) ht
    · rw [if_neg hfirst] at h
      obtain ⟨named, hn, h⟩ := Option.bind_eq_some_iff.mp h
      have hl := hlen hn
      rw [List.length_map] at hl
      have hfirst' : ∀ c ∈ ((first, text₀) :: visible).head?, c.1 ≠ [] := by simpa using hfirst
      rw [← hl, fieldLines_named] at h
      cases hanon : anonymous ((first, text₀) :: visible) with
      | nil =>
        have hobj := @NodeText.object value _ depth pad pad1 [] named [] _ hpad hpad1 ws_nil hne
          hfirst' hn (by rw [hanon]; rfl) rfl
        have htotal : (ownField value ++ named ++ []).length =
            named.length + 0 + if value.isNull then 0 else 1 := by
          rw [List.append_nil, List.length_append, ownField_length]
          omega
        rw [List.map_nil, anonymousField, List.isEmpty_nil, if_pos rfl, htotal,
          List.append_nil] at hobj
        rw [hanon] at h
        exact Option.some.inj h ▸ hobj
      | cons a anon =>
        have hsome : (anonymous ((first, text₀) :: visible)).isEmpty = false := by rw [hanon]; rfl
        simp only [hsome, Bool.false_eq_true, if_false] at h
        obtain ⟨pad2, hpad2, h⟩ := Option.bind_eq_some_iff.mp h
        obtain ⟨anons, ha, rfl⟩ := Option.map_eq_some_iff.mp h
        have hla := hlen ha
        rw [List.length_map] at hla
        have hnil : anons.map Prod.snd ≠ [] := fun he => by
          rw [← List.length_eq_zero_iff, List.length_map, hla, hanon] at he
          cases he
        have hobj := @NodeText.object value _ depth pad pad1 pad2 named anons _ hpad hpad1
          (padding_ws hpad2) hne hfirst' hn ha rfl
        have hone : (anonymousField pad2 pad1 (anons.map Prod.snd)).length = 1 := by
          rw [anonymousField, if_neg (by simpa using hnil)]
          rfl
        have htotal : (ownField value ++ named ++
              anonymousField pad2 pad1 (anons.map Prod.snd)).length =
            (ownField value ++ named).length + 1 := by
          rw [List.length_append, hone]
        have hsame : named.length + 1 + (if value.isNull then 0 else 1) =
            (ownField value ++ named).length + 1 := by
          rw [List.length_append, ownField_length]
          omega
        rw [htotal, fieldLines_append, Nat.zero_add, fieldLines_anonymous hnil, List.length_map,
          hla] at hobj
        rw [hsame]
        simpa [ascii] using hobj


/-! ## What the text says -/

/-- A tree whose visible part has such names, below its root, and such values. -/
inductive Tree.Shown (options : ExportOptions) (nameOk : Str → Prop) (valueOk : Var → Prop) : Tree → Prop
  | node {nm : Str} {value : Var} {kids : List Tree} (hv : valueOk value)
      (hn : ∀ k ∈ kids, isIgnoredChild options k = false → nameOk k.name)
      (hk : ∀ k ∈ kids, isIgnoredChild options k = false → Shown options nameOk valueOk k) :
      Shown options nameOk valueOk (.node nm value kids)

theorem Tree.Shown.imp {options : ExportOptions} {nameOk nameOk' : Str → Prop}
    {valueOk valueOk' : Var → Prop} (hn : ∀ nm, nameOk nm → nameOk' nm)
    (hv : ∀ v, valueOk v → valueOk' v) {t : Tree} (h : t.Shown options nameOk valueOk) :
    t.Shown options nameOk' valueOk' := by
  induction h with
  | node hval hname _ ih => exact .node (hv _ hval) (fun k hm hi => hn _ (hname k hm hi)) ih

section Lists

variable {α β γ : Type}

/-- Two lists that follow a third follow each other. -/
theorem forall₂_comp {P : α → β → Prop} {Q : α → γ → Prop} {S : β → γ → Prop} {l : List α}
    {l₁ : List β} (h₁ : List.Forall₂ P l l₁) : ∀ {l₂ : List γ}, List.Forall₂ Q l l₂ →
      (∀ a b c, P a b → Q a c → S b c) → List.Forall₂ S l₁ l₂ := by
  induction h₁ with
  | nil => intro l₂ h₂ _; cases h₂; exact .nil
  | cons h _ ih =>
    intro l₂ h₂ hs
    cases h₂ with
    | cons h' h₂ => exact .cons (hs _ _ _ h h') (ih h₂ hs)

theorem forall₂_namedFirsts {S : α → β → Prop} {l : List (Str × α)} {l' : List (Str × β)}
    (h : List.Forall₂ (fun a b => a.1 = b.1 ∧ S a.2 b.2) l l') : ∀ seen,
      List.Forall₂ (fun a b => a.1 = b.1 ∧ S a.2 b.2) (namedFirsts seen l) (namedFirsts seen l') := by
  induction h with
  | nil => intro seen; exact .nil
  | @cons a b l l' hab _ ih =>
    obtain ⟨nm, a⟩ := a
    obtain ⟨nm', b⟩ := b
    obtain ⟨rfl, hs⟩ := hab
    intro seen
    rw [namedFirsts, namedFirsts]
    split_ifs
    · exact ih seen
    · exact .cons ⟨rfl, hs⟩ (ih _)

theorem forall₂_anonymous {S : α → β → Prop} {l : List (Str × α)} {l' : List (Str × β)}
    (h : List.Forall₂ (fun a b => a.1 = b.1 ∧ S a.2 b.2) l l') :
    List.Forall₂ S (anonymous l) (anonymous l') := by
  induction h with
  | nil => exact .nil
  | @cons a b l l' hab _ ih =>
    obtain ⟨nm, a⟩ := a
    obtain ⟨nm', b⟩ := b
    obtain ⟨rfl, hs⟩ := hab
    rw [anonymous, anonymous] at ih ⊢
    by_cases hnm : nm = []
    · rw [List.filter_cons_of_pos (by simpa using hnm), List.filter_cons_of_pos (by simpa using hnm)]
      exact .cons hs ih
    · rw [List.filter_cons_of_neg (by simpa using hnm), List.filter_cons_of_neg (by simpa using hnm)]
      exact ih

end Lists

section ReadBack

variable {getDouble : Str → Option Binary64} {back : Var → Var} {options : ExportOptions}

variable (getDouble) in
/-- What is written of a child, at any depth, says the value. -/
def ChildText (c : Nat → Option Str) (v : Var) : Prop :=
  ∀ depth text, c depth = some text → JsonText getDouble text v

theorem childTexts {kids : List Tree} (h : ∀ k ∈ kids, isIgnoredChild options k = false →
      ∀ depth text, nodeToJson options k depth = some text →
        JsonText getDouble text (readBack back options k)) :
    List.Forall₂ (fun c p => c.1 = p.1 ∧ ChildText getDouble c.2 p.2) (visibleTexts options kids)
      (readBackVars back options kids) := by
  induction kids with
  | nil => exact .nil
  | cons k ks ih =>
    rw [List.forall_mem_cons] at h
    rw [visibleTexts, readBackVars]
    split_ifs with hi
    · exact ih h.2
    · exact .cons ⟨rfl, h.1 (by simpa using hi)⟩ (ih h.2)

/-- The texts at one depth. -/
theorem childTexts_at {cs : List (Str × (Nat → Option Str))} {kvs : List (Str × Var)}
    (h : List.Forall₂ (fun c p => c.1 = p.1 ∧ ChildText getDouble c.2 p.2) cs kvs) {depth : Nat}
    {texts : List (Str × Str)} (ht : allTexts (cs.map fun c => (c.1, c.2 depth)) = some texts) :
    List.Forall₂ (FieldText getDouble) texts kvs := by
  refine forall₂_comp (List.forall₂_map_left_iff.mp (allTexts_forall₂ ht)) h ?_
  rintro c f p ⟨hname, htext⟩ ⟨hp, hc⟩
  exact ⟨hname ▸ hp, hc depth f.2 htext⟩

theorem fieldText_values {fields : List (Str × Str)} {kvs : List (Str × Var)}
    (h : List.Forall₂ (FieldText getDouble) fields kvs) :
    List.Forall₂ (JsonText getDouble) (fields.map Prod.snd) (kvs.map Prod.snd) := by
  rw [List.forall₂_map_left_iff, List.forall₂_map_right_iff]
  exact h.imp fun _ _ hp => hp.2

theorem fieldText_anonymous {pad pad' : Str} (hpad : Ws pad) (hpad' : Ws pad') {texts : List Str}
    {vs : List Var} (h : List.Forall₂ (JsonText getDouble) texts vs) :
    List.Forall₂ (FieldText getDouble) (anonymousField pad pad' texts) (anonymousEntry vs) := by
  cases h with
  | nil => exact .nil
  | cons hv hvs => exact .cons ⟨rfl, .array hpad hpad' (.cons hv hvs) (by simp)⟩ .nil

theorem readBackEntries_keys (back : Var → Var) (value : Var) (kvs : List (Str × Var)) :
    ((readBackEntries back value kvs).map Prod.fst).count [] ≤ 1 := by
  have hown : [] ∉ ((valueEntry value).map fun p => (p.1, back p.2)).map Prod.fst := by
    rw [List.map_map]
    intro hm
    obtain ⟨p, hp, he⟩ := List.mem_map.mp hm
    rw [(mem_valueEntry hp).2] at he
    exact valueKey_ne he
  have hnamed : [] ∉ (namedFirsts [] kvs).map Prod.fst := by
    intro hm
    obtain ⟨p, hp, he⟩ := List.mem_map.mp hm
    exact (mem_namedFirsts hp).2.1 he
  rw [readBackEntries, List.map_append, List.map_append, List.count_append, List.count_append,
    List.count_eq_zero_of_not_mem hown, List.count_eq_zero_of_not_mem hnamed, anonymousEntry]
  split_ifs <;> simp

theorem nodeText_readBack {value : Var} {visible : List (Str × (Nat → Option Str))}
    {kvs : List (Str × Var)} {depth : Nat} {nm text : Str} {kids : List Tree}
    (hkvs : readBackVars back options kids = kvs)
    (hv : JsonText getDouble (varToJson value) (back value))
    (hk : List.Forall₂ (fun c p => c.1 = p.1 ∧ ChildText getDouble c.2 p.2) visible kvs)
    (h : NodeText value visible depth text) :
    JsonText getDouble text (readBack back options (.node nm value kids)) := by
  rw [readBack, hkvs]
  cases h with
  | leaf hnil =>
    subst hnil
    cases hk
    exact hv
  | @array pad pad1 texts hpad hpad1 hne hfirst ht =>
    have htexts := fieldText_values (childTexts_at hk ht)
    cases hk with
    | nil => exact absurd rfl hne
    | @cons c p visible kvs hp _ =>
      have hp1 : p.1 = [] := hp.1 ▸ hfirst c (by simp)
      simp only
      rw [if_pos hp1]
      have hnonempty : texts.map Prod.snd ≠ [] := fun he => by
        rw [he] at htexts
        cases htexts
      have harr := JsonText.array hpad1 hpad htexts hnonempty
      rwa [List.length_map] at harr
  | @object pad pad1 pad2 named anons fields hpad hpad1 hpad2 hne hfirst hn ha hf =>
    have hnamed := childTexts_at (forall₂_namedFirsts hk []) hn
    have hchild : List.Forall₂ (fun c p => c.1 = p.1 ∧ ChildText getDouble c.2 p.2)
        ((anonymous visible).map fun c => (([] : Str), c))
        ((anonymous kvs).map fun v => (([] : Str), v)) := by
      rw [List.forall₂_map_left_iff, List.forall₂_map_right_iff]
      exact (forall₂_anonymous hk).imp fun _ _ hc => ⟨rfl, hc⟩
    have hanon' := fieldText_values (childTexts_at hchild (by rw [List.map_map]; exact ha))
    rw [List.map_map, show (Prod.snd ∘ fun v : Var => (([] : Str), v)) = id from rfl, List.map_id]
      at hanon'
    have hown : List.Forall₂ (FieldText getDouble) (ownField value)
        ((valueEntry value).map fun p => (p.1, back p.2)) := by
      rw [ownField, List.forall₂_map_left_iff, List.forall₂_map_right_iff, List.forall₂_same]
      intro p hp
      rw [(mem_valueEntry hp).2]
      exact ⟨rfl, hv⟩
    have hall : List.Forall₂ (FieldText getDouble) fields (readBackEntries back value kvs) := by
      rw [hf, readBackEntries]
      exact List.rel_append (List.rel_append hown hnamed) (fieldText_anonymous hpad2 hpad1 hanon')
    cases hk with
    | nil => exact absurd rfl hne
    | @cons c p visible kvs hp hkvs' =>
      have hp1 : p.1 ≠ [] := hp.1 ▸ hfirst c (by simp)
      simp only
      rw [if_neg hp1]
      refine .object hpad1 hpad hall (fun he => ?_) (readBackEntries_keys _ _ _)
      rw [he, readBackEntries, namedFirsts, if_neg (by simp [hp1])] at hall
      simp at hall

/-- The text of a tree says what its values say. -/
theorem nodeToJson_readBack {t : Tree} (h : t.Shown options (fun _ => True)
    (fun v => JsonText getDouble (varToJson v) (back v))) : ∀ depth text,
      nodeToJson options t depth = some text → JsonText getDouble text (readBack back options t) := by
  induction h with
  | @node nm value kids hv _ _ ih =>
    intro depth text ht
    exact nodeText_readBack rfl hv (childTexts fun k hk hi => ih k hk hi) (nodeToJson_cases ht)

end ReadBack

/-! ## UTF-8 -/

section Valid

theorem valid_array {pad pad' : Str} (hpad : Ws pad) (hpad' : Ws pad') (total : Nat)
    (texts : List Str) :
    Utf8.Valid (ascii "[\n" ++ elementLines pad total 0 texts ++ pad' ++ [93]) ↔
      ∀ x ∈ texts, Utf8.Valid x := by
  have hopen : Utf8.Valid (ascii "[\n") := by decide
  rw [List.append_assoc, List.append_assoc, hopen.append, valid_elementLines hpad,
    hpad'.valid.append]
  exact and_iff_left rfl

theorem valid_object {pad pad' : Str} (hpad : Ws pad) (hpad' : Ws pad') (total : Nat)
    (fields : List (Str × Str)) :
    Utf8.Valid (ascii "\x7b\n" ++ fieldLines pad total 0 fields ++ pad' ++ [125]) ↔
      ∀ f ∈ fields, Utf8.Valid f.1 ∧ Utf8.Valid f.2 := by
  have hopen : Utf8.Valid (ascii "\x7b\n") := by decide
  rw [List.append_assoc, List.append_assoc, hopen.append, valid_fieldLines hpad, hpad'.valid.append]
  exact and_iff_left rfl

theorem valid_anonymousField {pad pad' : Str} (hpad : Ws pad) (hpad' : Ws pad') (texts : List Str) :
    (∀ f ∈ anonymousField pad pad' texts, Utf8.Valid f.1 ∧ Utf8.Valid f.2) ↔
      ∀ x ∈ texts, Utf8.Valid x := by
  have hnil : Utf8.Valid [] := rfl
  cases texts with
  | nil => simp [anonymousField]
  | cons x texts =>
    rw [anonymousField, if_neg (by simp), List.forall_mem_singleton, valid_array hpad hpad']
    exact and_iff_right hnil

theorem mem_allTexts {α : Type} {l : List (α × Option Str)} {texts : List (α × Str)}
    (h : allTexts l = some texts) {f : α × Str} (hf : f ∈ texts) : (f.1, some f.2) ∈ l := by
  replace h := allTexts_forall₂ h
  induction h with
  | nil => cases hf
  | @cons c f' l texts hc _ ih =>
    rcases List.mem_cons.mp hf with rfl | hf
    · rw [← hc.1, ← hc.2]
      exact List.mem_cons_self
    · exact List.mem_cons_of_mem _ (ih hf)

theorem mem_visibleTexts {options : ExportOptions} {kids : List Tree}
    {c : Str × (Nat → Option Str)} (h : c ∈ visibleTexts options kids) :
    ∃ k ∈ kids, isIgnoredChild options k = false ∧ c = (k.name, nodeToJson options k) := by
  induction kids with
  | nil => cases h
  | cons k ks ih =>
    rw [visibleTexts] at h
    split_ifs at h with hi
    · obtain ⟨k', hk', hrest⟩ := ih h
      exact ⟨k', List.mem_cons_of_mem _ hk', hrest⟩
    · rcases List.mem_cons.mp h with rfl | h
      · exact ⟨k, List.mem_cons_self, by simpa using hi, rfl⟩
      · obtain ⟨k', hk', hrest⟩ := ih h
        exact ⟨k', List.mem_cons_of_mem _ hk', hrest⟩

theorem nodeText_valid {value : Var} {visible : List (Str × (Nat → Option Str))} {depth : Nat}
    {text : Str} (hv : Utf8.Valid (varToJson value))
    (hk : ∀ c ∈ visible, Utf8.Valid c.1 ∧ ∀ depth x, c.2 depth = some x → Utf8.Valid x)
    (h : NodeText value visible depth text) : Utf8.Valid text := by
  have hkey : Utf8.Valid valueKey := by decide
  cases h with
  | leaf => exact hv
  | @array pad pad1 texts hpad hpad1 _ _ ht =>
    rw [valid_array hpad1 hpad]
    intro x hx
    obtain ⟨f, hf, rfl⟩ := List.mem_map.mp hx
    obtain ⟨c, hc, he⟩ := List.mem_map.mp (mem_allTexts ht hf)
    exact (hk c hc).2 _ _ (Prod.mk.inj he).2
  | @object pad pad1 pad2 named anons fields hpad hpad1 hpad2 _ _ hn ha hf =>
    rw [valid_object hpad1 hpad, hf]
    simp only [List.forall_mem_append]
    refine ⟨⟨?_, fun f hf => ?_⟩, (valid_anonymousField hpad2 hpad1 _).mpr fun x hx => ?_⟩
    · intro f hf
      obtain ⟨p, hp, rfl⟩ := List.mem_map.mp hf
      rw [(mem_valueEntry hp).2]
      exact ⟨hkey, hv⟩
    · obtain ⟨c, hc, he⟩ := List.mem_map.mp (mem_allTexts hn hf)
      obtain ⟨hname, htext⟩ := Prod.mk.inj he
      have hc := hk c (mem_namedFirsts hc).1
      exact ⟨hname ▸ hc.1, hc.2 _ _ htext⟩
    · obtain ⟨f, hf, rfl⟩ := List.mem_map.mp hx
      obtain ⟨c, hc, he⟩ := List.mem_map.mp (mem_allTexts ha hf)
      obtain ⟨p, hp, rfl⟩ := List.mem_map.mp hc
      exact (hk p (List.mem_filter.mp hp).1).2 _ _ (Prod.mk.inj he).2

theorem nodeToJson_valid {options : ExportOptions} {t : Tree}
    (h : t.Shown options Utf8.Valid fun v => Utf8.Valid (varToJson v)) : ∀ depth text,
      nodeToJson options t depth = some text → Utf8.Valid text := by
  induction h with
  | @node nm value kids hv hn _ ih =>
    intro depth text ht
    refine nodeText_valid hv (fun c hc => ?_) (nodeToJson_cases ht)
    obtain ⟨k, hk, hi, rfl⟩ := mem_visibleTexts hc
    exact ⟨hn k hk hi, ih k hk hi⟩

end Valid

/-! ## The exporter returns -/

mutual
/-- The number of levels of a tree. -/
def Tree.height : Tree → Nat
  | .node _ _ kids => heights kids + 1

def Tree.heights : List Tree → Nat
  | [] => 0
  | k :: ks => max (height k) (heights ks)
end

theorem Tree.height_kid {k : Tree} {ks : List Tree} (h : k ∈ ks) : k.height ≤ Tree.heights ks := by
  induction ks with
  | nil => cases h
  | cons k' ks ih =>
    rw [heights]
    rcases List.mem_cons.mp h with rfl | h
    · exact Nat.le_max_left _ _
    · exact Nat.le_trans (ih h) (Nat.le_max_right _ _)

theorem padding_some {n : Int} (h0 : 0 ≤ n) (h : n < 2 ^ 31) : ∃ pad, padding n = some pad :=
  ⟨_, if_pos ⟨h0, h⟩⟩

theorem allTexts_some {α : Type} {l : List (α × Option Str)} (h : ∀ c ∈ l, ∃ text, c.2 = some text) :
    ∃ texts, allTexts l = some texts := by
  induction l with
  | nil => exact ⟨[], rfl⟩
  | cons c l ih =>
    rw [List.forall_mem_cons] at h
    obtain ⟨a, x⟩ := c
    obtain ⟨⟨text, rfl⟩, hl⟩ := h
    obtain ⟨texts, ht⟩ := ih hl
    exact ⟨(a, text) :: texts, by rw [allTexts, ht]; rfl⟩

/-- Every level goes down by two steps of indentation at most. -/
theorem nodeToJson_some {options : ExportOptions} (h0 : 0 ≤ options.indent) (t : Tree) : ∀ depth : Nat,
    ((depth : Int) + 2 * t.height) * options.indent < 2 ^ 31 →
      ∃ text, nodeToJson options t depth = some text := by
  induction t using Tree.ind with
  | h t ih =>
    obtain ⟨nm, value, kids⟩ := t
    intro depth hfit
    have hpad : ∀ e : Int, 0 ≤ e → e ≤ 2 → ∃ pad, padding ((depth + e) * options.indent) = some pad := by
      intro e he he2
      rw [Tree.height] at hfit
      push_cast at hfit
      refine padding_some (Int.mul_nonneg (by omega) h0) (Int.lt_of_le_of_lt ?_ hfit)
      exact Int.mul_le_mul_of_nonneg_right (by omega) h0
    have hkid : ∀ c ∈ visibleTexts options kids, ∀ e : Nat, e ≤ 2 → ∃ text, c.2 (depth + e) = some text := by
      intro c hc e he
      obtain ⟨k, hk, -, rfl⟩ := mem_visibleTexts hc
      refine ih k hk _ (Int.lt_of_le_of_lt ?_ hfit)
      have := Tree.height_kid hk
      refine Int.mul_le_mul_of_nonneg_right ?_ h0
      rw [Tree.height]
      omega
    obtain ⟨pad, hp⟩ := hpad 0 (by decide) (by decide)
    obtain ⟨pad1, hp1⟩ := hpad 1 (by decide) (by decide)
    obtain ⟨pad2, hp2⟩ := hpad 2 (by decide) (by decide)
    rw [Int.add_zero] at hp
    rw [nodeToJson, hp, hp1, hp2]
    simp only [Option.bind_some]
    revert hkid
    generalize visibleTexts options kids = visible
    intro hkid
    cases visible with
    | nil => exact ⟨_, rfl⟩
    | cons c visible =>
      obtain ⟨texts, ht⟩ := allTexts_some (l := ((c :: visible).map fun c => (c.1, c.2 (depth + 1))))
        fun c' hc' => by
          obtain ⟨c, hc, rfl⟩ := List.mem_map.mp hc'
          exact hkid c hc 1 (by decide)
      obtain ⟨named, hn⟩ := allTexts_some
        (l := (namedFirsts [] (c :: visible)).map fun c => (c.1, c.2 (depth + 1))) fun c' hc' => by
          obtain ⟨c, hc, rfl⟩ := List.mem_map.mp hc'
          exact hkid c (mem_namedFirsts hc).1 1 (by decide)
      obtain ⟨anons, ha⟩ := allTexts_some
        (l := (anonymous (c :: visible)).map fun c => (([] : Str), c (depth + 2))) fun c' hc' => by
          obtain ⟨c, hc, rfl⟩ := List.mem_map.mp hc'
          obtain ⟨p, hp, rfl⟩ := List.mem_map.mp hc
          exact hkid p (List.mem_filter.mp hp).1 2 (by decide)
      simp only
      by_cases hfirst : c.1 = []
      · rw [if_pos hfirst, ht]
        exact ⟨_, rfl⟩
      · rw [if_neg hfirst, hn, Option.bind_some]
        cases hanon : (anonymous (c :: visible)).isEmpty with
        | true => exact ⟨_, if_pos rfl⟩
        | false =>
          rw [if_neg (by simp), ha]
          exact ⟨_, rfl⟩

/-- **The text of a tree is a document with the exported value**, when the names in it are UTF-8 and
its indentation fits an `int`. -/
theorem exportTree_document {options : ExportOptions} {t : Tree} (getDouble : Str → Option Binary64)
    (h : t.Shown options Utf8.Valid Var.Textual) (h0 : 0 ≤ options.indent)
    (hfit : 2 * t.height * options.indent < 2 ^ 31) : ∃ text j,
      JsonS.exportTree options t = some text ∧ Json.read text = some j ∧
        domToVar (j.onDemand getDouble) = some (nodeToVar options t) := by
  obtain ⟨out, hout⟩ := nodeToJson_some h0 t 0 (by simpa using hfit)
  have hvalid := nodeToJson_valid (h.imp (fun _ hn => hn) fun _ hv => hv.valid) 0 out hout
  obtain ⟨j, hj, hjv, -⟩ := @nodeToJson_readBack getDouble id options t
    (h.imp (fun _ _ => trivial) fun _ hv => hv.jsonText) 0 out hout
  refine ⟨out ++ [10], j, by rw [JsonS.exportTree, hout]; rfl, ?_, by rw [hjv, readBack_id]⟩
  exact read_of_reads hj (ws_newline ws_nil) (hvalid.append.mpr (by decide))

/-- A node with a value, two children of one name, a hidden child and an anonymous one. -/
def exported : Tree :=
  .node [] (.dict [(ascii "k\n", .list [.bool true, .none])])
    [.node (ascii "a") (.string [0xc3, 0xa9, 34]) [], .node (ascii "a") (.int 7) [],
      .node (ascii "_h") (.double ⟨0⟩) [], .node [] (.int (-2)) [.node [] .none []]]

theorem exportTree_document_sample : ∃ text j,
    JsonS.exportTree ⟨3, true⟩ exported = some text ∧ Json.read text = some j ∧
      domToVar (j.onDemand fun _ => none) = some (nodeToVar ⟨3, true⟩ exported) := by
  have hleaf : ∀ {nm : Str} {v : Var}, v.Textual →
      (Tree.node nm v []).Shown ⟨3, true⟩ Utf8.Valid Var.Textual := fun hv =>
    .node hv (by simp) (by simp)
  refine exportTree_document _ (.node ?_ ?_ ?_) (by decide) (by decide)
  · refine .dict (by simp) (by decide) fun p hp => ?_
    obtain rfl := List.mem_singleton.mp hp
    exact .list (by simp [Var.Textual.bool, Var.Textual.none])
  · simp only [List.forall_mem_cons]
    exact ⟨by decide, by decide, by decide, by decide, by simp⟩
  · simp only [List.forall_mem_cons]
    refine ⟨fun _ => hleaf (.string (by decide)), fun _ => hleaf (.int _), fun h => (by cases h),
      fun _ => .node (.int _) (by decide) ?_, by simp⟩
    simp only [List.forall_mem_cons]
    exact ⟨fun _ => hleaf .none, by simp⟩

/-- A name that is no UTF-8 is written as it is, and no text has a negative indentation. -/
theorem exportTree_no_document :
    (¬ ∀ t : Tree, t.Shown .default (fun _ => True) Var.Textual → ∃ text j,
      JsonS.exportTree .default t = some text ∧ Json.read text = some j ∧
        domToVar (j.onDemand fun _ => none) = some (nodeToVar .default t)) ∧
    ¬ ∀ (options : ExportOptions) (t : Tree), t.Shown options Utf8.Valid Var.Textual → ∃ text j,
      JsonS.exportTree options t = some text ∧ Json.read text = some j ∧
        domToVar (j.onDemand fun _ => none) = some (nodeToVar options t) := by
  constructor
  · intro h
    have hleaf : ∀ {nm : Str}, (Tree.node nm .none []).Shown .default (fun _ => True) Var.Textual :=
      .node .none (by simp) (by simp)
    obtain ⟨text, j, ht, hj, -⟩ := h (.node [] .none [.node [0xff] .none []])
      (.node .none (by simp) fun k hk _ => List.mem_singleton.mp hk ▸ hleaf)
    have hbad : ¬ Utf8.Valid text := by
      rw [← Option.some.inj ht]
      decide
    rw [Json.read, if_neg hbad] at hj
    cases hj
  · intro h
    obtain ⟨text, -, ht, -⟩ := h ⟨-1, false⟩ (.node [] .none []) (.node .none (by simp) (by simp))
    cases ht

end VersatileEngine
