import VersatileEngine.Json.Import

/-!
# VersatileEngine.Json.Failure

What an import does with a text that is no document, or one that cannot be read to its end.

* `CleanImport`       — the call returns, and a failed one leaves the destination as it was.
* `Json.Importable`   — every number that the importer reads is within its type.
* `domToNode_isSome`  — exactly these documents are imported without an exception.
* `import_clean`      — which texts are imported cleanly.
-/

namespace VersatileEngine

/-- The call returns: with `true` only for a document, and with `false` and the destination as it was. -/
def CleanImport (simdjson : Simdjson) (options : ImportOptions) (dst : Tree) (text : Str) : Prop :=
  ∃ r, JsonS.importTree simdjson options dst text = some r ∧
    (r.1 = true → ∃ j, Json.read text = some j) ∧ (r.1 = false → r.2 = dst)

/-- The reader opens no value: `iterate` or `get_value` reports an error. -/
def Simdjson.Refuses (simdjson : Simdjson) (text : Str) : Prop :=
  simdjson.iterate text = none ∨ simdjson.iterate text = some .scalar

namespace Json

variable {getDouble : Str → Option Binary64}

/-- Induction over a document through its items. -/
theorem ind {P : Json → Prop} (h : ∀ j, (∀ x ∈ j.items, P x) → P j) (j : Json) : P j := by
  refine @Json.rec P (fun l => ∀ x ∈ l, P x) (fun fs => ∀ p ∈ fs, P p.2) (fun p => P p.2)
    (h _ ?_) (fun _ => h _ ?_) (fun _ => h _ ?_) (fun _ => h _ ?_) (fun _ => h _ ?_)
    (fun l ih => h _ ih) (fun fs ih => h _ ?_) ?_ (fun x l hx hl => ?_) ?_ (fun p fs hp hfs => ?_)
    (fun _ _ h => h) j
  case refine_6 =>
    intro x hx
    obtain ⟨p, hp, rfl⟩ := List.mem_map.mp hx
    exact ih p hp
  case refine_8 => exact List.forall_mem_cons.mpr ⟨hx, hl⟩
  case refine_10 => exact List.forall_mem_cons.mpr ⟨hp, hfs⟩
  all_goals intro x hx; cases hx

/-- Every number that is read is within its type. What stands under the empty key and is no array, is
not read. -/
inductive Importable (getDouble : Str → Option Binary64) : Json → Prop
  | scalar {j : Json} (hc : j.isContainer = false) (h : j.Readable getDouble) : Importable getDouble j
  | arr {l : List Json} (h : ∀ x ∈ l, Importable getDouble x) : Importable getDouble (.arr l)
  | obj {fs : List (Str × Json)} (hv : ∀ p ∈ fs, p.1 = valueKey → p.2.Readable getDouble)
      (ha : ∀ p ∈ fs, p.1 = [] → ∀ l, p.2 = .arr l → Importable getDouble (.arr l))
      (h : ∀ p ∈ fs, p.1 ≠ valueKey → p.1 ≠ [] → Importable getDouble p.2) :
      Importable getDouble (.obj fs)

/-! ## Values -/

theorem elemsToVar_readable {l : List Json} {vs : List Var}
    (ih : ∀ j ∈ l, ∀ v, VersatileEngine.domToVar (j.onDemand getDouble) = some v → j.Readable getDouble)
    (h : elemsToVar (onDemandAll getDouble l) = some vs) : ∀ j ∈ l, j.Readable getDouble := by
  induction l generalizing vs with
  | nil => simp
  | cons j l ihl =>
    rw [List.forall_mem_cons] at ih
    rw [onDemandAll, elemsToVar] at h
    obtain ⟨v, hv, h⟩ := Option.bind_eq_some_iff.mp h
    obtain ⟨vs', hvs, -⟩ := Option.map_eq_some_iff.mp h
    exact List.forall_mem_cons.mpr ⟨ih.1 v hv, ihl ih.2 hvs⟩

theorem fieldsToVar_readable {fs : List (Str × Json)} {dict dict' : List (Str × Var)}
    (ih : ∀ p ∈ fs, ∀ v, VersatileEngine.domToVar (p.2.onDemand getDouble) = some v →
      p.2.Readable getDouble)
    (h : fieldsToVar dict (onDemandFields getDouble fs) = some dict') :
    ∀ p ∈ fs, p.2.Readable getDouble := by
  induction fs generalizing dict with
  | nil => simp
  | cons p fs ihf =>
    rw [List.forall_mem_cons] at ih
    rw [onDemandFields, fieldsToVar, Option.bind_some] at h
    obtain ⟨v, hv, h⟩ := Option.bind_eq_some_iff.mp h
    exact List.forall_mem_cons.mpr ⟨ih.1 v hv, ihf ih.2 h⟩

/-- A value is read to its end exactly when its numbers are within their types. -/
theorem domToVar_isSome {j : Json} :
    (VersatileEngine.domToVar (j.onDemand getDouble)).isSome = true ↔ j.Readable getDouble := by
  rw [Option.isSome_iff_exists]
  refine ⟨?_, Readable.domToVar⟩
  induction j using Json.ind with
  | h j ih =>
    rintro ⟨v, hv⟩
    cases j with
    | int i =>
      refine .intro (fun i' hi => ?_) (fun _ h => (by cases h)) fun x hx => (by cases hx)
      cases hi
      by_contra hrange
      rw [onDemand, if_neg hrange] at hv
      cases hv
    | real literal =>
      refine .intro (fun _ h => (by cases h)) (fun literal' hl => ?_) fun x hx => (by cases hx)
      cases hl
      rw [onDemand] at hv
      cases hd : getDouble literal with
      | some d => rfl
      | none =>
        rw [hd] at hv
        cases hv
    | arr l =>
      obtain ⟨vs, hvs, -⟩ := Option.map_eq_some_iff.mp hv
      exact .intro (fun _ h => (by cases h)) (fun _ h => (by cases h))
        (elemsToVar_readable (fun x hx v hv => ih x hx ⟨v, hv⟩) hvs)
    | obj fs =>
      obtain ⟨dict, hdict, -⟩ := Option.map_eq_some_iff.mp hv
      refine .intro (fun _ h => (by cases h)) (fun _ h => (by cases h)) ?_
      exact List.forall_mem_map.mpr (fieldsToVar_readable
        (fun p hp v hv => ih p.2 (List.mem_map_of_mem hp) ⟨v, hv⟩) hdict)
    | _ =>
      exact .intro (fun _ h => (by cases h)) (fun _ h => (by cases h)) fun x hx => (by cases hx)

end Json

/-! ## Nodes -/

theorem ensureSchemaChild_child (t : Tree) (key : Str) :
    ((t.ensureSchemaChild key).child? key).isSome = true := by
  obtain ⟨nm, v, ks⟩ := t
  have hreset : ∀ k : Tree, k.resetNodeContent.name = k.name := fun k => by cases k; rfl
  have hfirst : ∀ ks : List Tree, (∃ k ∈ ks, k.name = key) →
      ∃ k ∈ Tree.updateFirst key Tree.resetNodeContent (Tree.dropExtra key ks), k.name = key := by
    intro ks
    induction ks with
    | nil => simp
    | cons k ks ih =>
      intro h
      rw [Tree.dropExtra]
      split_ifs with hk
      · rw [Tree.updateFirst, if_pos hk]
        exact ⟨_, List.mem_cons_self, (hreset k).trans hk⟩
      · rw [Tree.updateFirst, if_neg hk]
        obtain ⟨k', hk', hname⟩ := h
        rcases List.mem_cons.mp hk' with rfl | hk'
        · exact absurd hname hk
        · obtain ⟨k'', hk'', hname''⟩ := ih ⟨k', hk', hname⟩
          exact ⟨k'', List.mem_cons_of_mem _ hk'', hname''⟩
  rw [Tree.child?, List.find?_isSome, Tree.ensureSchemaChild]
  split_ifs with hany
  · obtain ⟨k, hk, hname⟩ := List.any_eq_true.mp hany
    obtain ⟨k', hk', hname'⟩ := hfirst ks ⟨k, hk, by simpa using hname⟩
    exact ⟨k', hk', by simpa using hname'⟩
  · exact ⟨.blank key, by simp, by simp [Tree.blank]⟩

theorem importObjectField_isSome {key : Str} {var : Option Var} {elements fill : Tree → Option Tree}
    {he hf : Prop} (helem : ∀ node, (elements node).isSome = true ↔ he)
    (hfill : ∀ node, (fill node).isSome = true ↔ hf) (node : Tree) :
    (importObjectField key var elements fill node).isSome = true ↔
      (key = valueKey → var.isSome = true) ∧ (key = [] → he) ∧ (key ≠ valueKey → key ≠ [] → hf) := by
  unfold importObjectField
  split_ifs with hv ha
  · subst hv
    simp [valueKey_ne]
  · subst ha
    simp [helem, valueKey_ne.symm]
  · obtain ⟨c, hc⟩ := Option.isSome_iff_exists.mp (ensureSchemaChild_child node key)
    simp [hc, hfill, hv, ha]

section Import

variable {getDouble : Str → Option Binary64}

theorem appendElements_isSome {l : List Json}
    (ih : ∀ x ∈ l, ∀ node, (domToNode (x.onDemand getDouble) node).isSome = true ↔
      x.Importable getDouble) : ∀ node,
    (appendElements (Json.onDemandAll getDouble l) node).isSome = true ↔
      ∀ x ∈ l, x.Importable getDouble := by
  induction l with
  | nil => intro node; simp [Json.onDemandAll, appendElements]
  | cons x l ihl =>
    intro node
    rw [List.forall_mem_cons] at ih
    rw [Json.onDemandAll, appendElements, List.forall_mem_cons, ← ih.1 (.blank [])]
    cases domToNode (x.onDemand getDouble) (.blank []) with
    | none => simp
    | some c => simpa using ihl ih.2 _

theorem importFields_isSome {fs : List (Str × Json)}
    (ih : ∀ p ∈ fs, ∀ node, (domToNode (p.2.onDemand getDouble) node).isSome = true ↔
      p.2.Importable getDouble) : ∀ node,
    (importFields (Json.onDemandFields getDouble fs) node).isSome = true ↔
      ∀ p ∈ fs, (p.1 = valueKey → p.2.Readable getDouble) ∧
        (p.1 = [] → ∀ l, p.2 = .arr l → (Json.arr l).Importable getDouble) ∧
        (p.1 ≠ valueKey → p.1 ≠ [] → p.2.Importable getDouble) := by
  induction fs with
  | nil => intro node; simp [Json.onDemandFields, importFields]
  | cons p fs ihf =>
    obtain ⟨key, j⟩ := p
    intro node
    rw [List.forall_mem_cons] at ih
    have helem : ∀ node, (importAnonymous (j.onDemand getDouble) node).isSome = true ↔
        ∀ l, j = .arr l → (Json.arr l).Importable getDouble := by
      intro node
      cases j with
      | arr l =>
        have := ih.1 node
        rw [Json.onDemand, domToNode] at this
        rw [Json.onDemand, importAnonymous, this]
        exact ⟨fun h l' hl => hl ▸ h, fun h => h l rfl⟩
      | int i =>
        rw [Json.onDemand]
        split_ifs <;> simp [importAnonymous]
      | real literal =>
        rw [Json.onDemand]
        split <;> simp [importAnonymous]
      | _ => simp [Json.onDemand, importAnonymous]
    have hone := @importObjectField_isSome key (domToVar (j.onDemand getDouble)) _ _ _ _ helem ih.1
      node
    rw [Json.domToVar_isSome] at hone
    rw [Json.onDemandFields, importFields, Option.bind_some, List.forall_mem_cons, ← hone]
    cases importObjectField key _ _ _ node with
    | none => simp
    | some node' => simpa using ihf ih.2 node'

theorem domToNode_scalar {j : Json} (hc : j.isContainer = false) (node : Tree) :
    (domToNode (j.onDemand getDouble) node).isSome =
      (domToVar (j.onDemand getDouble)).isSome := by
  cases j with
  | int i =>
    rw [Json.onDemand]
    split_ifs <;> rfl
  | real literal =>
    rw [Json.onDemand]
    split <;> rfl
  | arr => cases hc
  | obj => cases hc
  | _ => rfl

/-- **A document is imported without an exception exactly when every number that is read is within its
type.** -/
theorem domToNode_isSome {j : Json} : ∀ node,
    (domToNode (j.onDemand getDouble) node).isSome = true ↔ j.Importable getDouble := by
  induction j using Json.ind with
  | h j ih =>
    intro node
    have hscalar : j.isContainer = false →
        ((domToNode (j.onDemand getDouble) node).isSome = true ↔ j.Importable getDouble) := by
      intro hc
      rw [domToNode_scalar hc, Json.domToVar_isSome]
      refine ⟨.scalar hc, fun h => ?_⟩
      cases h with
      | scalar _ h => exact h
      | arr => cases hc
      | obj => cases hc
    cases j with
    | arr l =>
      rw [Json.onDemand, domToNode, @appendElements_isSome getDouble l ih]
      refine ⟨.arr, fun h => ?_⟩
      cases h with
      | scalar hc => cases hc
      | arr h => exact h
    | obj fs =>
      rw [Json.onDemand, domToNode,
        @importFields_isSome getDouble fs fun p hp => ih p.2 (List.mem_map_of_mem hp)]
      constructor
      · exact fun h => .obj (fun p hp => (h p hp).1) (fun p hp => (h p hp).2.1) fun p hp => (h p hp).2.2
      · intro h
        cases h with
        | scalar hc => cases hc
        | obj hv ha h => exact fun p hp => ⟨hv p hp, ha p hp, h p hp⟩
    | _ => exact hscalar rfl

end Import

/-! ## Documents and other texts -/

section Clean

variable {simdjson : Simdjson}

theorem importTree_refused {options : ImportOptions} {dst : Tree} {text : Str}
    (h : text = [] ∨ simdjson.Refuses text) :
    JsonS.importTree simdjson options dst text = some (false, dst) := by
  unfold JsonS.importTree
  split_ifs with hne
  · rfl
  · rcases h.resolve_left hne with h | h <;> rw [h]

/-- **An import is clean exactly** when the reader refuses the text at once, or the text is a document
whose numbers, as far as they are read, are within their types. -/
theorem import_clean (hl : simdjson.Lawful) (options : ImportOptions) (dst : Tree) (text : Str) :
    CleanImport simdjson options dst text ↔
      text = [] ∨ simdjson.Refuses text ∨
        ∃ j, Json.read text = some j ∧ j.Importable simdjson.getDouble := by
  have hrefused : text = [] ∨ simdjson.Refuses text → CleanImport simdjson options dst text :=
    fun h => ⟨_, importTree_refused h, fun h => (by cases h), fun _ => rfl⟩
  -- what is imported once the reader has opened a value
  have hopened : ∀ val, text ≠ [] → simdjson.iterate text = some (.value val) →
      JsonS.importTree simdjson options dst text =
        (domToNode val (.blank (ascii "json_import"))).map fun parsed =>
          (true, copyTree options.auto_insert options.auto_remove options.auto_update parsed dst) :=
    fun val hne hi => by rw [JsonS.importTree, if_neg hne, hi]
  have hcontainer : ∀ j val, Json.read text = some j → simdjson.iterate text = some (.value val) →
      val = j.onDemand simdjson.getDouble := by
    intro j val hj hi
    have hlen : text.length < 2 ^ 32 := by
      by_contra hlen
      rw [hl.capacity text (Nat.not_lt.mp hlen)] at hi
      cases hi
    rw [hl.document text j hj hlen, Option.some.injEq] at hi
    cases j <;> first | exact (Document.value.inj hi).symm | cases hi
  constructor
  · rintro ⟨r, hr, htrue, -⟩
    by_cases hne : text = []
    · exact .inl hne
    cases hi : simdjson.iterate text with
    | none => exact .inr (.inl (.inl hi))
    | some doc =>
      cases doc with
      | scalar => exact .inr (.inl (.inr hi))
      | value val =>
        rw [hopened val hne hi, Option.map_eq_some_iff] at hr
        obtain ⟨parsed, hparsed, rfl⟩ := hr
        obtain ⟨j, hj⟩ := htrue rfl
        refine .inr (.inr ⟨j, hj, (domToNode_isSome (.blank (ascii "json_import"))).mp ?_⟩)
        rw [← hcontainer j val hj hi, hparsed]
        rfl
  · rintro (h | h | ⟨j, hj, himport⟩)
    · exact hrefused (.inl h)
    · exact hrefused (.inr h)
    · by_cases hne : text = []
      · exact hrefused (.inl hne)
      cases hi : simdjson.iterate text with
      | none => exact hrefused (.inr (.inl hi))
      | some doc =>
        cases doc with
        | scalar => exact hrefused (.inr (.inr hi))
        | value val =>
          obtain ⟨parsed, hparsed⟩ := Option.isSome_iff_exists.mp
            ((domToNode_isSome (.blank (ascii "json_import"))).mpr himport)
          rw [← hcontainer j val hj hi] at hparsed
          exact ⟨_, by rw [hopened val hne hi, hparsed]; rfl, fun _ => ⟨j, hj⟩, fun h => (by cases h)⟩

end Clean

/-- A reader that presents `[tru]` as an array with a literal that cannot be read. -/
def Simdjson.lazy : Simdjson where
  iterate text :=
    if text = ascii "[tru]" then some (.value (.array [.invalid]))
    else (Simdjson.reference fun _ => none).iterate text
  getDouble := fun _ => none

theorem Simdjson.lazy_lawful : Simdjson.lazy.Lawful := by
  have href := Simdjson.reference_lawful fun _ => none
  have hread : (Json.read (ascii "[tru]")).isNone = true := by decide +kernel
  have hvalid : Utf8.Valid (ascii "[tru]") := by decide
  refine ⟨fun text j hj hlen => ?_, fun text hv => ?_, fun text hlen => ?_⟩ <;>
    simp only [Simdjson.lazy]
  · have hne : text ≠ ascii "[tru]" := by
      rintro rfl
      rw [hj] at hread
      cases hread
    rw [if_neg hne]
    exact href.document text j hj hlen
  · have hne : text ≠ ascii "[tru]" := by
      rintro rfl
      exact hv hvalid
    rw [if_neg hne]
    exact href.utf8 text hv
  · have hne : text ≠ ascii "[tru]" := by
      rintro rfl
      exact absurd hlen (by decide)
    rw [if_neg hne]
    exact href.capacity text hlen

theorem import_clean_sample :
    CleanImport .lazy .default (.blank (ascii "n")) (ascii "[1]") := by
  have hread : Json.read (ascii "[1]" ++ []) = some (.arr [.int 1]) :=
    Json.read_of_reads (.arr (.single (Json.reads_int 1) Json.ws_nil)) Json.ws_nil (by decide)
  refine (import_clean Simdjson.lazy_lawful .default _ _).mpr (.inr (.inr ⟨_, hread, .arr ?_⟩))
  intro x hx
  obtain rfl := List.mem_singleton.mp hx
  exact .scalar rfl (.intro (fun i hi => (by cases hi; decide)) (fun _ h => (by cases h))
    fun x hx => (by cases hx))

/-- Neither a misspelt literal nor an integer beyond `int64` is reported: the call does not return. -/
theorem import_throws :
    ¬ CleanImport .lazy .default (.blank (ascii "n")) (ascii "[tru]") ∧
      ¬ CleanImport .lazy .default (.blank (ascii "n")) (ascii "[9223372036854775808]") := by
  have hthrow : ∀ {text : Str}, JsonS.importTree .lazy .default (.blank (ascii "n")) text = none →
      ¬ CleanImport .lazy .default (.blank (ascii "n")) text := by
    rintro text h ⟨r, hr, -⟩
    rw [h] at hr
    cases hr
  refine ⟨hthrow rfl, hthrow ?_⟩
  have hdigits : ascii "[9223372036854775808]" = 91 :: (natChars (2 ^ 63) ++ ([] ++ [93])) := by
    decide +kernel
  have hread : Json.read (ascii "[9223372036854775808]" ++ []) = some (.arr [.int (2 ^ 63)]) := by
    refine Json.read_of_reads ?_ Json.ws_nil (by decide)
    rw [hdigits]
    exact .arr (.single (Json.reads_natChars (2 ^ 63)) Json.ws_nil)
  rw [List.append_nil] at hread
  rw [JsonS.importTree, if_neg (by decide), Simdjson.lazy_lawful.document _ _ hread (by decide)]
  rfl

end VersatileEngine
