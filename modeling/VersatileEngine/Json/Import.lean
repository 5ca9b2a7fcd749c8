import Mathlib.Data.List.Count
import VersatileEngine.Json.OnDemand

/-!
# VersatileEngine.Json.Import

The streaming importer builds what the importer of values builds.

* `domToNode_eq`   — a document imported field by field is the tree of its value. The invariant over
  the fields: the node is the tree of the dictionary read so far.
* `import_agrees`  — `json::importTree` and `json::parse` with `importAs<VarS>`, for every document
  with at most one empty key in each object.
-/

namespace VersatileEngine

/-! ## Induction over what is read -/

namespace OnDemand

/-- The elements of an array, or the values of an object. -/
def items : OnDemand → List OnDemand
  | array l => l
  | object fs => fs.map Prod.snd
  | _ => []

theorem ind {P : OnDemand → Prop} (h : ∀ d, (∀ x ∈ d.items, P x) → P d) (d : OnDemand) : P d := by
  refine @OnDemand.rec P (fun l => ∀ x ∈ l, P x) (fun fs => ∀ p ∈ fs, P p.2) (fun p => P p.2)
    (h _ ?_) (fun _ => h _ ?_) (fun _ => h _ ?_) (fun _ => h _ ?_) (fun _ => h _ ?_)
    (fun l ih => h _ ih) (fun fs ih => h _ ?_) (h _ ?_) (h _ ?_) (h _ ?_) ?_ (fun x l hx hl => ?_) ?_
    (fun p fs hp hfs => ?_) (fun _ _ h => h) d
  case refine_6 =>
    intro x hx
    obtain ⟨p, hp, rfl⟩ := List.mem_map.mp hx
    exact ih p hp
  case refine_11 => exact List.forall_mem_cons.mpr ⟨hx, hl⟩
  case refine_13 => exact List.forall_mem_cons.mpr ⟨hp, hfs⟩
  all_goals intro x hx; cases hx

/-- At most one empty key in every object. -/
inductive OneEmptyKey : OnDemand → Prop
  | intro {d : OnDemand} (keys : ∀ fs, d = object fs → (fs.map Prod.fst).count (some []) ≤ 1)
      (h : ∀ x ∈ d.items, OneEmptyKey x) : OneEmptyKey d

end OnDemand

/-! ## One field -/

/-- The node of a dictionary. -/
def dictNode (nm : Str) (dict : List (Str × Var)) : Tree :=
  .node nm ((dict.lookup valueKey).getD .none) (dict.flatMap entryKids)

theorem dictNode_names {dict : List (Str × Var)} {key : Str} (h : key ∉ dict.map Prod.fst) :
    ∀ k ∈ dict.flatMap entryKids, k.name ≠ key := by
  intro k hk he
  obtain ⟨p, hp, hk⟩ := List.mem_flatMap.mp hk
  exact h (List.mem_map.mpr ⟨p, hp, (entryKids_name hk).symm.trans he⟩)

/-- A field with a name: the child goes where the key stands in the dictionary. -/
theorem fill_named {nm key : Str} {dict : List (Str × Var)} (hnd : (dict.map Prod.fst).Nodup)
    (hv : key ≠ valueKey) (hn : key ≠ []) (x : Var) {fill : Tree → Option Tree}
    (hfill : fill (.blank key) = some (treeOf key x)) (var : Option Var)
    (elements : Tree → Option Tree) : importObjectField key var elements fill (dictNode nm dict) =
      some (dictNode nm (assign dict key x)) := by
  have hvalue : ((assign dict key x).lookup valueKey).getD Var.none =
      (dict.lookup valueKey).getD .none := by
    rw [lookup_assign, if_neg (Ne.symm hv)]
  have hentry : ∀ y, entryKids (key, y) = [treeOf key y] := fun y => by
    rw [entryKids]
    simp only
    rw [if_neg hv, if_neg hn]
  rw [importObjectField, if_neg hv, if_neg hn, dictNode, dictNode, hvalue]
  by_cases hm : key ∈ dict.map Prod.fst
  · obtain ⟨⟨k, y⟩, hp, rfl⟩ := List.mem_map.mp hm
    obtain ⟨a, b, rfl⟩ := List.append_of_mem hp
    rw [List.map_append, List.map_cons, List.nodup_middle, List.nodup_cons, List.mem_append,
      not_or] at hnd
    have ha := dictNode_names hnd.1.1
    have hb := dictNode_names hnd.1.2
    rw [List.flatMap_append, List.flatMap_cons, hentry, List.singleton_append,
      Tree.ensureSchemaChild_middle ha (treeOf_name _ _) hb, assign_middle _ _ hnd.1.1,
      List.flatMap_append, List.flatMap_cons, hentry, List.singleton_append]
    have hchild : (Tree.node nm (((a ++ (k, y) :: b).lookup valueKey).getD .none)
        (a.flatMap entryKids ++ Tree.blank k :: b.flatMap entryKids)).child? k = some (.blank k) := by
      rw [Tree.child?, Tree.kids_node, List.find?_append, List.find?_eq_none.mpr]
      · simp [Tree.blank]
      · exact fun t ht => by simpa using ha t ht
    simp only [hchild, hfill, Option.map_some, Tree.updateChild]
    rw [Tree.updateFirst_middle _ ha rfl]
  · have hnew := dictNode_names hm
    rw [Tree.ensureSchemaChild_new hnew, assign_new _ hm, List.flatMap_append, List.flatMap_cons,
      hentry, List.flatMap_nil, List.append_nil]
    have hchild : (Tree.node nm ((dict.lookup valueKey).getD .none)
        (dict.flatMap entryKids ++ [Tree.blank key])).child? key = some (.blank key) := by
      rw [Tree.child?, Tree.kids_node, List.find?_append, List.find?_eq_none.mpr]
      · simp [Tree.blank]
      · exact fun t ht => by simpa using hnew t ht
    simp only [hchild, hfill, Option.map_some, Tree.updateChild]
    rw [Tree.updateFirst_append _ hnew rfl]

/-- The own value. -/
theorem fill_value {nm : Str} {dict : List (Str × Var)} (x : Var)
    (elements fill : Tree → Option Tree) :
    importObjectField valueKey (some x) elements fill (dictNode nm dict) =
      some (dictNode nm (assign dict valueKey x)) := by
  have hnil : ∀ y, entryKids (valueKey, y) = [] := fun y => by
    rw [entryKids]
    simp
  have hkids : (assign dict valueKey x).flatMap entryKids = dict.flatMap entryKids := by
    induction dict with
    | nil => rw [assign, List.flatMap_cons, hnil]; rfl
    | cons p dict ih =>
      obtain ⟨k, y⟩ := p
      rw [assign]
      split_ifs with hk
      · rw [List.flatMap_cons, List.flatMap_cons, hk, hnil, hnil]
      · rw [List.flatMap_cons, List.flatMap_cons, ih]
  rw [importObjectField, if_pos rfl, dictNode, dictNode, hkids, lookup_assign, if_pos rfl]
  rfl

/-- A value read as a list comes from an array. -/
theorem domToVar_list {d : OnDemand} {l : List Var} (h : domToVar d = some (.list l)) :
    ∃ elems, d = .array elems ∧ elemsToVar elems = some l := by
  cases d with
  | array elems =>
    obtain ⟨vs, hvs, he⟩ := Option.map_eq_some_iff.mp h
    cases he
    exact ⟨elems, rfl, hvs⟩
  | object fs =>
    obtain ⟨dict, -, he⟩ := Option.map_eq_some_iff.mp h
    cases he
  | _ => cases h

/-- Every element becomes the anonymous child of its value. -/
theorem appendElements_eq {elems : List OnDemand}
    (ih : ∀ x ∈ elems, ∀ v, domToVar x = some v → domToNode x (.blank []) = some (treeOf [] v)) :
    ∀ {vs : List Var} {node : Tree}, elemsToVar elems = some vs → appendElements elems node =
      some (.node node.name node.value (node.kids ++ vs.map (treeOf []))) := by
  induction elems with
  | nil =>
    intro vs node h
    rw [elemsToVar, Option.some.injEq] at h
    rw [appendElements, ← h, List.map_nil, List.append_nil, Tree.eta]
  | cons x elems ihl =>
    intro vs node h
    rw [List.forall_mem_cons] at ih
    rw [elemsToVar, Option.bind_eq_some_iff] at h
    obtain ⟨v, hv, h⟩ := h
    obtain ⟨vs, hvs, rfl⟩ := Option.map_eq_some_iff.mp h
    rw [appendElements, ih.1 v hv, Option.bind_some, ihl ih.2 hvs]
    simp

/-- The field of the empty key, when it is the first of that key. -/
theorem fill_anonymous {nm : Str} {dict : List (Str × Var)} {d : OnDemand} {x : Var}
    (hm : [] ∉ dict.map Prod.fst) (hx : domToVar d = some x)
    (ih : ∀ e ∈ d.items, ∀ v, domToVar e = some v → domToNode e (.blank []) = some (treeOf [] v))
    (var : Option Var) (fill : Tree → Option Tree) :
    importObjectField [] var (importAnonymous d) fill (dictNode nm dict) =
      some (dictNode nm (assign dict [] x)) := by
  have hclear : (dictNode nm dict).clearAnonymousChildren = dictNode nm dict :=
    Tree.clearAnonymousChildren_eq (dictNode_names hm)
  have hvalue : ((assign dict [] x).lookup valueKey).getD Var.none =
      (dict.lookup valueKey).getD .none := by
    rw [lookup_assign, if_neg valueKey_ne]
  rw [importObjectField, if_neg valueKey_ne.symm, if_pos rfl, hclear, dictNode, dictNode, hvalue,
    assign_new _ hm, List.flatMap_append, List.flatMap_cons, List.flatMap_nil, List.append_nil]
  by_cases hl : ∃ l, x = .list l
  · obtain ⟨l, rfl⟩ := hl
    obtain ⟨elems, rfl, hel⟩ := domToVar_list hx
    have hkids : entryKids ([], .list l) = l.map (treeOf []) := by
      simp [entryKids, valueKey_ne.symm]
    rw [importAnonymous, @appendElements_eq elems ih _ _ hel, hkids]
    rfl
  · have hkids : entryKids (([] : Str), x) = [] := by
      rw [entryKids]
      simp only
      rw [if_neg valueKey_ne.symm, if_pos trivial]
      cases x with
      | list l => exact absurd ⟨l, rfl⟩ hl
      | _ => rfl
    have hskip : ∀ node, importAnonymous d node = some node := by
      intro node
      cases d with
      | array elems =>
        obtain ⟨l, -, rfl⟩ := Option.map_eq_some_iff.mp hx
        exact absurd ⟨l, rfl⟩ hl
      | failure => cases hx
      | _ => rfl
    rw [hskip, hkids, List.append_nil]

/-! ## All fields -/

/-- The tree of the dictionary read so far stays the tree of the dictionary. -/
theorem importFields_eq {nm : Str} {fs : List (Option Str × OnDemand)}
    (ih : ∀ p ∈ fs, ∀ v, domToVar p.2 = some v → ∀ nm, domToNode p.2 (.blank nm) =
      some (treeOf nm v))
    (ihe : ∀ p ∈ fs, ∀ e ∈ p.2.items, ∀ v, domToVar e = some v → domToNode e (.blank []) =
      some (treeOf [] v)) :
    ∀ {dict dict' : List (Str × Var)}, (dict.map Prod.fst).Nodup →
      (fs.map Prod.fst).count (some []) + (dict.map Prod.fst).count [] ≤ 1 →
      fieldsToVar dict fs = some dict' →
      (dict'.map Prod.fst).Nodup ∧
        importFields fs (dictNode nm dict) = some (dictNode nm dict') := by
  induction fs with
  | nil =>
    intro dict dict' hnd _ h
    cases h
    exact ⟨hnd, rfl⟩
  | cons p fs ihl =>
    obtain ⟨key, d⟩ := p
    intro dict dict' hnd hc h
    rw [List.forall_mem_cons] at ih ihe
    rw [fieldsToVar, Option.bind_eq_some_iff] at h
    obtain ⟨key, rfl, h⟩ := h
    obtain ⟨x, hx, h⟩ := Option.bind_eq_some_iff.mp h
    rw [List.map_cons, List.count_cons] at hc
    have hstep : importObjectField key (domToVar d) (importAnonymous d) (domToNode d)
        (dictNode nm dict) = some (dictNode nm (assign dict key x)) := by
      by_cases hv : key = valueKey
      · rw [hv, hx]
        exact fill_value x _ _
      · by_cases hn : key = []
        · subst hn
          refine fill_anonymous (fun hm => ?_) hx ihe.1 _ _
          have := List.count_pos_iff.mpr hm
          simp only [BEq.rfl, if_true] at hc
          omega
        · exact fill_named hnd hv hn x (ih.1 x hx key) _ _
    rw [importFields, Option.bind_some, hstep, Option.bind_some]
    refine ihl ih.2 ihe.2 (assign_nodup hnd) ?_ h
    rw [assign_keys]
    split_ifs with hm
    · omega
    · rw [List.count_append, List.count_singleton]
      by_cases hn : key = [] <;> simp [hn] at hc ⊢ <;> omega

theorem elemsToVar_mem {elems : List OnDemand} : ∀ {vs : List Var}, elemsToVar elems = some vs →
    ∀ v ∈ vs, ∃ x ∈ elems, domToVar x = some v := by
  induction elems with
  | nil => intro vs h v hv; cases h; cases hv
  | cons x elems ih =>
    intro vs h v hv
    rw [elemsToVar, Option.bind_eq_some_iff] at h
    obtain ⟨y, hy, h⟩ := h
    obtain ⟨vs, hvs, rfl⟩ := Option.map_eq_some_iff.mp h
    rcases List.mem_cons.mp hv with rfl | hv
    · exact ⟨x, by simp, hy⟩
    · obtain ⟨z, hz, h⟩ := ih hvs v hv
      exact ⟨z, List.mem_cons_of_mem _ hz, h⟩

theorem fieldsToVar_mem {fs : List (Option Str × OnDemand)} : ∀ {dict dict' : List (Str × Var)},
    (dict.map Prod.fst).Nodup → fieldsToVar dict fs = some dict' → (dict'.map Prod.fst).Nodup ∧
      ∀ p ∈ dict', p ∈ dict ∨ ∃ q ∈ fs, domToVar q.2 = some p.2 := by
  induction fs with
  | nil => intro dict dict' hnd h; cases h; exact ⟨hnd, fun p hp => .inl hp⟩
  | cons q fs ih =>
    intro dict dict' hnd h
    rw [fieldsToVar, Option.bind_eq_some_iff] at h
    obtain ⟨key, -, h⟩ := h
    obtain ⟨x, hx, h⟩ := Option.bind_eq_some_iff.mp h
    obtain ⟨hnd', hmem⟩ := ih (assign_nodup hnd) h
    refine ⟨hnd', fun p hp => ?_⟩
    rcases hmem p hp with hp | ⟨r, hr, h⟩
    · rcases mem_assign hp with rfl | hp
      · exact .inr ⟨q, by simp, hx⟩
      · exact .inl hp
    · exact .inr ⟨r, List.mem_cons_of_mem _ hr, h⟩

theorem domToVar_wf {d : OnDemand} : ∀ {v : Var}, domToVar d = some v → v.WF := by
  induction d using OnDemand.ind with
  | h d ih =>
    intro v h
    cases d with
    | array elems =>
      obtain ⟨vs, hvs, rfl⟩ := Option.map_eq_some_iff.mp h
      refine Var.WF_list.mpr fun w hw => ?_
      obtain ⟨x, hx, hxw⟩ := elemsToVar_mem hvs w hw
      exact ih x hx hxw
    | object fs =>
      obtain ⟨dict, hdict, rfl⟩ := Option.map_eq_some_iff.mp h
      obtain ⟨hnd, hmem⟩ := @fieldsToVar_mem fs [] dict List.nodup_nil hdict
      refine Var.WF_dict.mpr ⟨hnd, fun p hp => ?_⟩
      obtain ⟨q, hq, hqp⟩ := (hmem p hp).resolve_left List.not_mem_nil
      exact ih q.2 (List.mem_map_of_mem hq) hqp
    | invalid => cases h
    | failure => cases h
    | _ => cases h; trivial

/-- **A document imported field by field is the tree of its value.** -/
theorem domToNode_eq {d : OnDemand} (h : d.OneEmptyKey) {v : Var} (hv : domToVar d = some v)
    (nm : Str) : domToNode d (.blank nm) = some (treeOf nm v) := by
  have hall : (d.OneEmptyKey → ∀ v, domToVar d = some v →
      ∀ nm, domToNode d (.blank nm) = some (treeOf nm v)) ∧
      ∀ e ∈ d.items, e.OneEmptyKey → ∀ v, domToVar e = some v →
        ∀ nm, domToNode e (.blank nm) = some (treeOf nm v) := by
    clear h hv
    induction d using OnDemand.ind with
    | h d ih =>
      refine ⟨fun h v hv nm => ?_, fun e he => (ih e he).1⟩
      obtain ⟨hkeys, hitems⟩ := h
      cases d with
      | array elems =>
        obtain ⟨vs, hvs, rfl⟩ := Option.map_eq_some_iff.mp hv
        rw [domToNode, treeOf_list, @appendElements_eq elems
          (fun x hx v hv => (ih x hx).1 (hitems x hx) v hv []) _ _ hvs]
        rfl
      | object fs =>
        obtain ⟨dict, hdict, rfl⟩ := Option.map_eq_some_iff.mp hv
        have hfields : ∀ p ∈ fs, p.2 ∈ (OnDemand.object fs).items := fun p hp =>
          List.mem_map_of_mem hp
        obtain ⟨hnd, himport⟩ := @importFields_eq nm fs
          (fun p hp => (ih p.2 (hfields p hp)).1 (hitems p.2 (hfields p hp)))
          (fun p hp e he v hv => (ih p.2 (hfields p hp)).2 e he
            (by obtain ⟨-, h⟩ := hitems p.2 (hfields p hp); exact h e he) v hv [])
          [] dict List.nodup_nil (hkeys fs rfl) hdict
        rw [domToNode, treeOf_dict nm hnd]
        exact himport
      | invalid => cases hv
      | failure => cases hv
      | _ => cases hv; rfl
  exact hall.1 h v hv nm

/-! ## Documents -/

namespace Json

/-- The elements of an array, or the values of an object. -/
def items : Json → List Json
  | arr l => l
  | obj fs => fs.map Prod.snd
  | _ => []

def isContainer : Json → Bool
  | arr _ => true
  | obj _ => true
  | _ => false

/-- At most one empty key in every object. -/
inductive OneEmptyKey : Json → Prop
  | intro {j : Json} (keys : ∀ fs, j = obj fs → (fs.map Prod.fst).count [] ≤ 1)
      (h : ∀ x ∈ j.items, OneEmptyKey x) : OneEmptyKey j

/-- Integers are within `int64`, and the other numbers within `double`. -/
inductive Readable (getDouble : Str → Option Binary64) : Json → Prop
  | intro {j : Json} (hi : ∀ i, j = int i → -2 ^ 63 ≤ i ∧ i < 2 ^ 63)
      (hd : ∀ literal, j = real literal → (getDouble literal).isSome = true)
      (h : ∀ x ∈ j.items, Readable getDouble x) : Readable getDouble j

variable {getDouble : Str → Option Binary64}

theorem onDemandAll_eq (l : List Json) :
    onDemandAll getDouble l = l.map (onDemand getDouble) := by
  induction l with
  | nil => rfl
  | cons j l ih => rw [onDemandAll, ih]; rfl

theorem onDemandFields_eq (fs : List (Str × Json)) : onDemandFields getDouble fs =
    fs.map fun p => (some p.1, onDemand getDouble p.2) := by
  induction fs with
  | nil => rfl
  | cons p fs ih => rw [onDemandFields, ih]; rfl

theorem onDemand_items (j : Json) :
    (j.onDemand getDouble).items = j.items.map (onDemand getDouble) := by
  cases j with
  | int i => rw [onDemand]; split_ifs <;> rfl
  | real literal => rw [onDemand]; split <;> rfl
  | arr l => rw [onDemand, OnDemand.items, onDemandAll_eq, items]
  | obj fs =>
    rw [onDemand, OnDemand.items, onDemandFields_eq, items, List.map_map, List.map_map]
    rfl
  | _ => rfl

theorem OneEmptyKey.onDemand {j : Json} (h : j.OneEmptyKey) :
    (j.onDemand getDouble).OneEmptyKey := by
  induction h with
  | @intro j keys _ ih =>
    refine .intro (fun fs' hfs => ?_) ?_
    · cases j with
      | obj fs =>
        rw [Json.onDemand, OnDemand.object.injEq] at hfs
        have hcount : (fs'.map Prod.fst).count (some []) = (fs.map Prod.fst).count [] := by
          have hmap : fs'.map Prod.fst = (fs.map Prod.fst).map some := by
            rw [← hfs, onDemandFields_eq, List.map_map, List.map_map]
            rfl
          rw [hmap, List.count_map_of_injective _ _ (Option.some_injective _)]
        rw [hcount]
        exact keys fs rfl
      | int i => rw [Json.onDemand] at hfs; split_ifs at hfs
      | real literal => rw [Json.onDemand] at hfs; split at hfs <;> cases hfs
      | _ => cases hfs
    · rw [onDemand_items]
      exact List.forall_mem_map.mpr ih

theorem elemsToVar_isSome {l : List OnDemand} (h : ∀ x ∈ l, ∃ v, domToVar x = some v) :
    ∃ vs, elemsToVar l = some vs := by
  induction l with
  | nil => exact ⟨[], rfl⟩
  | cons x l ih =>
    rw [List.forall_mem_cons] at h
    obtain ⟨v, hv⟩ := h.1
    obtain ⟨vs, hvs⟩ := ih h.2
    exact ⟨v :: vs, by rw [elemsToVar, hv, Option.bind_some, hvs]; rfl⟩

theorem fieldsToVar_isSome {fs : List (Str × Json)}
    (h : ∀ p ∈ fs, ∃ v, domToVar (onDemand getDouble p.2) = some v) :
    ∀ dict, ∃ dict', fieldsToVar dict (onDemandFields getDouble fs) = some dict' := by
  induction fs with
  | nil => exact fun dict => ⟨dict, rfl⟩
  | cons p fs ih =>
    intro dict
    rw [List.forall_mem_cons] at h
    obtain ⟨v, hv⟩ := h.1
    obtain ⟨dict', hd⟩ := ih h.2 (assign dict p.1 v)
    exact ⟨dict', by rw [onDemandFields, fieldsToVar, Option.bind_some, hv, Option.bind_some, hd]⟩

/-- A readable document has a value. -/
theorem Readable.domToVar {j : Json} (h : j.Readable getDouble) :
    ∃ v, domToVar (j.onDemand getDouble) = some v := by
  induction h with
  | @intro j hi hd _ ih =>
    cases j with
    | int i => exact ⟨_, by rw [onDemand, if_pos (hi i rfl)]; rfl⟩
    | real literal =>
      obtain ⟨d, hd⟩ := Option.isSome_iff_exists.mp (hd literal rfl)
      exact ⟨.double d, by rw [onDemand, hd]; rfl⟩
    | arr l =>
      obtain ⟨vs, hvs⟩ := elemsToVar_isSome (List.forall_mem_map.mpr ih)
      exact ⟨.list vs, by
        rw [onDemand, VersatileEngine.domToVar, onDemandAll_eq]
        exact congrArg _ hvs⟩
    | obj fs =>
      obtain ⟨dict, hdict⟩ := fieldsToVar_isSome (fun p hp => ih p.2 (List.mem_map_of_mem hp)) []
      exact ⟨.dict dict, by rw [onDemand, VersatileEngine.domToVar, hdict]; rfl⟩
    | _ => exact ⟨_, rfl⟩

end Json

/-- **The two importers agree.** A document beyond the capacity of the reader is a null value for the
one, and nothing for the other. -/
theorem import_agrees {simdjson : Simdjson} (hl : simdjson.Lawful) (stod : Str → Option Binary64)
    {text : Str} {j : Json} (hj : Json.read text = some j) (hc : j.isContainer = true)
    (hone : j.OneEmptyKey) (nm : Str) :
    (∀ v, json.parse simdjson stod text = some v →
      JsonS.importTree simdjson .default (.blank nm) text =
        some (decide (text.length < 2 ^ 32), VarS.importNode .default (.blank nm) v)) ∧
    (j.Readable simdjson.getDouble → ∃ v, json.parse simdjson stod text = some v) := by
  have hne : text ≠ [] := by
    rintro rfl
    cases hj
  unfold json.parse
  rw [if_neg hne, JsonS.importTree, if_neg hne]
  by_cases hlen : text.length < 2 ^ 32
  · have hdoc : j.document simdjson.getDouble = .value (j.onDemand simdjson.getDouble) := by
      cases j <;> first | rfl | cases hc
    rw [hl.document text j hj hlen, hdoc]
    simp only [hlen, decide_true]
    refine ⟨fun v hv => ?_, Json.Readable.domToVar⟩
    have hsame := treeOf_same (domToVar_wf hv) (ascii "json_import") (ascii "var_import")
    rw [domToNode_eq hone.onDemand hv, Option.map_some, importNode_blank, ← hsame.1, ← hsame.2]
    exact congrArg (fun t => some (true, t)) (copyTree_blank _ _ _ nm)
  · rw [hl.capacity text (Nat.not_lt.mp hlen)]
    simp only [hlen, decide_false]
    refine ⟨fun v hv => ?_, fun _ => ⟨.none, rfl⟩⟩
    cases hv
    rw [importNode_blank]
    rfl

/-- A repeated key, first a number and then a list. -/
theorem import_agrees_sample :
    let text := ascii "\x7b\"a\":1,\"\":[2],\"a\":[3]\x7d"
    let simdjson := Simdjson.reference fun _ => none
    (∀ v, json.parse simdjson (fun _ => none) text = some v →
      JsonS.importTree simdjson .default (.blank []) text =
        some (decide (text.length < 2 ^ 32), VarS.importNode .default (.blank []) v)) := by
  have hkey : Json.ReadsString (ascii "a") (ascii "a") := Json.readsString_nil.byte (by decide)
  have hlist : ∀ i, Json.Reads (.arr [.int i]) (91 :: (intChars i ++ ([] ++ [93]))) := fun i =>
    .arr (.single (Json.reads_int i) Json.ws_nil)
  have hreads := Json.Reads.obj (.cons Json.ws_nil hkey (Json.reads_int 1) Json.ws_nil
    (.cons Json.ws_nil Json.readsString_nil (hlist 2) Json.ws_nil
      (.single Json.ws_nil hkey (hlist 3) Json.ws_nil)))
  refine (import_agrees (Simdjson.reference_lawful _) _ (Json.read_of_reads hreads Json.ws_nil
    (by decide)) rfl (.intro ?_ ?_) []).1
  · rintro fs ⟨⟩
    decide
  · have hint : ∀ i, (Json.int i).OneEmptyKey := fun i =>
      .intro (fun fs h => (by cases h)) fun x hx => (by cases hx)
    have harr : ∀ i, (Json.arr [.int i]).OneEmptyKey := fun i =>
      .intro (fun fs h => (by cases h)) fun x hx => List.mem_singleton.mp hx ▸ hint i
    intro x hx
    simp only [Json.items, List.map_cons, List.map_nil, List.mem_cons, List.not_mem_nil,
      or_false] at hx
    rcases hx with rfl | rfl | rfl
    · exact hint 1
    · exact harr 2
    · exact harr 3

end VersatileEngine
