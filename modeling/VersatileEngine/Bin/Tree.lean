import VersatileEngine.Bin.Codec
import VersatileEngine.Schema.Options

/-!
# VersatileEngine.Bin.Tree

`packNode`, `unpackNode`, `exportTree` and `importTree` of `impl/bin.cpp`, on trees.

* `encodes_packNode` — what `packNode` writes of a tree within the limits of the format.
* `import_export`   — such a tree comes back identical below its root.
* `treeForm`        — the objects that have the format of an exported tree.
* `validated_iff`   — `importTree` is validated exactly on the bytes that are read as such an object, or not at all.

Lengths are cast to `uint32_t`: of a string of `2^32` bytes nothing comes back, `export_truncates`.
-/

namespace VersatileEngine

open MsgPack

mutual
/-- `packNode`. -/
def packNode (options : ExportOptions) : Tree → List UInt8
  | .node _ v kids =>
    let visible := kids.filter fun k => !isIgnoredChild options k
    packMap ((if v.isNull then 0 else 1) + (if visible.isEmpty then 0 else 1)) ++
      (if v.isNull then [] else packStr 2 ++ ascii "_v" ++ packVar v) ++
      (if visible.isEmpty then []
        else packStr 2 ++ ascii "_c" ++ packArray (u32 visible.length) ++ packKids options kids)

/-- The visible children as pairs of a name and a node. -/
def packKids (options : ExportOptions) : List Tree → List UInt8
  | [] => []
  | k :: ks =>
    (if isIgnoredChild options k then []
      else packArray 2 ++ packStr (u32 k.name.length) ++ k.name ++ packNode options k) ++
      packKids options ks
end

mutual
/-- `unpackNode`, into the node given. -/
def unpackNode : MsgPack.Object → Tree → Tree
  | .map l, t => unpackFields l t
  | _, t => t

def unpackFields : List (MsgPack.Object × MsgPack.Object) → Tree → Tree
  | [], t => t
  | (.str key, o) :: kvs, t =>
    unpackFields kvs (
      if key = ascii "_v" then (if (unpackVar o).isNull then t else t.set (unpackVar o))
      else if key = ascii "_c" then unpackKids o t
      else t)
  | (_, _) :: kvs, t => unpackFields kvs t

def unpackKids : MsgPack.Object → Tree → Tree
  | .array l, t => unpackPairs l t
  | _, t => t

/-- A pair of a name and a node becomes a child. -/
def unpackPairs : List MsgPack.Object → Tree → Tree
  | [], t => t
  | .array [.str name, o] :: os, t => unpackPairs os (t.push (unpackNode o (.blank name)))
  | _ :: os, t => unpackPairs os t
end

/-- `exportTree`. -/
def Bin.exportTree (options : ExportOptions) (t : Tree) : List UInt8 := packNode options t

/-- `importTree`: the node after the call, and whether it succeeded. -/
def Bin.importTree (options : ImportOptions) (node : Tree) (data : List UInt8) : Tree × Bool :=
  if data.isEmpty then (node, false)
  else
    match unpack data with
    | .ok (obj, _) =>
      (copyTree options.auto_insert options.auto_remove options.auto_update
        (unpackNode obj (.blank (ascii "bin_import"))) node, true)
    | .error _ => (node, false)

/-! ## Trees within the limits of the format -/

/-- A double that is written as one. -/
def Binary64.Fractional (x : Binary64) : Prop := integral? x = none

/-- Values and names within the limits, and nested at most so deep: a node takes a level, and the
list of its children and each pair in it one more each. -/
inductive Tree.Fits : Nat → Tree → Prop
  | node {n m : Nat} {nm : Str} {v : Var} {kids : List Tree} (hd : v.Data)
      (hv : v.Fits Binary64.Fractional n) (hs : kids.length < 2 ^ 32)
      (hn : ∀ k ∈ kids, k.name.length < 2 ^ 32) (hm : kids ≠ [] → m + 2 ≤ n)
      (h : ∀ k ∈ kids, Fits m k) : Fits (n + 1) (.node nm v kids)

mutual
/-- What `packNode` writes is read as. -/
def nodeObject : Tree → MsgPack.Object
  | .node _ v kids =>
    .map ((if v.isNull then [] else [(.str (ascii "_v"), objectOf v)]) ++
      (if kids.isEmpty then [] else [(.str (ascii "_c"), .array (pairObjects kids))]))

def pairObjects : List Tree → List MsgPack.Object
  | [] => []
  | k :: ks => .array [.str k.name, nodeObject k] :: pairObjects ks
end

theorem pairObjects_eq (ks : List Tree) :
    pairObjects ks = ks.map fun k => MsgPack.Object.array [.str k.name, nodeObject k] := by
  induction ks with
  | nil => rfl
  | cons k ks ih => rw [pairObjects, ih]; rfl

theorem packKids_eq (ks : List Tree) : packKids .default ks =
    ks.flatMap fun k => packArray 2 ++ packStr (u32 k.name.length) ++ k.name ++ packNode .default k := by
  induction ks with
  | nil => rfl
  | cons k ks ih =>
    rw [packKids, ih]
    rfl

/-- The fields of a packed node: the key, the bytes and the object. -/
def nodeFields (v : Var) (kids : List Tree) : List (Str × List UInt8 × MsgPack.Object) :=
  (if v.isNull then [] else [(ascii "_v", packVar v, objectOf v)]) ++
    (if kids.isEmpty then []
      else [(ascii "_c", packArray (u32 kids.length) ++ packKids .default kids,
        .array (pairObjects kids))])

theorem nodeFields_key {v : Var} {kids : List Tree} {p : Str × List UInt8 × MsgPack.Object}
    (h : p ∈ nodeFields v kids) : p.1.length = 2 := by
  rcases List.mem_append.mp h with h | h
  · split at h
    · cases h
    · cases List.mem_singleton.mp h
      rfl
  · split at h
    · cases h
    · cases List.mem_singleton.mp h
      rfl

theorem packNode_fields (nm : Str) (v : Var) (kids : List Tree) :
    packNode .default (.node nm v kids) = packMap (nodeFields v kids).length ++
      (nodeFields v kids).flatMap fun p => (packStr p.1.length ++ p.1) ++ p.2.1 := by
  have hvisible : (kids.filter fun k => !isIgnoredChild .default k) = kids :=
    List.filter_eq_self.mpr fun _ _ => rfl
  have hkeys : (ascii "_v").length = 2 ∧ (ascii "_c").length = 2 := ⟨rfl, rfl⟩
  rw [packNode, hvisible, nodeFields]
  cases v.isNull <;> cases kids.isEmpty <;> simp [hkeys]

theorem nodeObject_fields (nm : Str) (v : Var) (kids : List Tree) :
    nodeObject (.node nm v kids) =
      .map ((nodeFields v kids).map fun p => (MsgPack.Object.str p.1, p.2.2)) := by
  rw [nodeObject, nodeFields]
  cases v.isNull <;> cases kids.isEmpty <;> rfl

/-- A child with its name. -/
theorem encodes_pair {n : Nat} {k : Tree} (hn : k.name.length < 2 ^ 32)
    (h : Encodes n (packNode .default k) (nodeObject k)) :
    Encodes (n + 1) (packArray 2 ++ packStr (u32 k.name.length) ++ k.name ++ packNode .default k)
      (.array [.str k.name, nodeObject k]) := by
  have hpair := encodes_array (d := n) (f := Prod.fst) (g := Prod.snd)
    [(packStr k.name.length ++ k.name, MsgPack.Object.str k.name), (packNode .default k, nodeObject k)]
    (by simp) (by
      simp only [List.forall_mem_cons]
      exact ⟨encodes_str _ hn, h, fun _ hm => (by cases hm)⟩)
  rw [u32_of_lt hn]
  simpa using hpair

/-- **What `packNode` writes of a tree that fits is read as `nodeObject` it.** -/
theorem encodes_packNode {n : Nat} {t : Tree} (h : t.Fits n) :
    Encodes n (packNode .default t) (nodeObject t) := by
  induction h with
  | @node n m nm v kids _ hv hs hn hm _ ih =>
    rw [packNode_fields, nodeObject_fields]
    refine encodes_map _ ?_ ?_ ?_
    · unfold nodeFields
      split <;> split <;> simp
    · intro p hp
      refine encodes_str _ ?_
      rw [nodeFields_key hp]
      decide
    · intro p hp
      rcases List.mem_append.mp hp with hp | hp
      · split at hp
        · cases hp
        · cases List.mem_singleton.mp hp
          exact encodes_packVar hv
      · split at hp
        · cases hp
        · rename_i hne
          cases List.mem_singleton.mp hp
          have hroom := hm fun he => hne (by rw [he]; rfl)
          have hall := encodes_array (d := m + 1) (f := fun k => packArray 2 ++
            packStr (u32 k.name.length) ++ k.name ++ packNode .default k)
            (g := fun k => MsgPack.Object.array [.str k.name, nodeObject k]) kids hs
            fun k hk => encodes_pair (hn k hk) (ih k hk)
          simp only [u32_of_lt hs, packKids_eq, pairObjects_eq]
          exact hall.mono hroom

/-! ## Reading a tree back -/

theorem unpackVar_objectOf {v : Var} (hd : v.Data) : ∀ {n : Nat}, v.Fits Binary64.Fractional n →
    unpackVar (objectOf v) = v := by
  induction hd with
  | none => intro n _; rfl
  | bool b => intro n _; rfl
  | int i => intro n _; rw [objectOf, unpackVar_int]
  | double x =>
    intro n h
    cases h with
    | double hx =>
      rw [objectOf]
      rw [Binary64.Fractional] at hx
      rw [hx]
      rfl
  | string s => intro n _; rfl
  | bin b => intro n _; rfl
  | @list l _ ih =>
    intro n h
    cases h with
    | list _ h =>
      rw [unpackVar_list]
      exact congrArg Var.list ((List.map_congr_left fun v hv => ih v hv (h v hv)).trans
        (List.map_id l))
  | @dict d hk _ ih =>
    intro n h
    cases h with
    | dict _ _ h =>
      rw [unpackVar_dict hk]
      refine congrArg Var.dict ((List.map_congr_left fun p hp => ?_).trans (List.map_id d))
      rw [ih p hp (h p hp)]
      rfl

theorem isNull_iff {v : Var} : v.isNull = true ↔ v = .none := by
  cases v <;> simp [Var.isNull]

theorem unpackPairs_kids {kids : List Tree}
    (h : ∀ k ∈ kids, unpackNode (nodeObject k) (.blank k.name) = k) :
    ∀ t : Tree, unpackPairs (pairObjects kids) t = .node t.name t.value (t.kids ++ kids) := by
  induction kids with
  | nil => intro t; rw [List.append_nil, Tree.eta]; rfl
  | cons k kids ih =>
    intro t
    rw [List.forall_mem_cons] at h
    rw [pairObjects, unpackPairs, h.1, ih h.2]
    cases t
    simp [Tree.push, Tree.name, Tree.value, Tree.kids]

/-- A node that is unpacked into a fresh one. -/
theorem unpackNode_nodeObject {n : Nat} {t : Tree} (h : t.Fits n) :
    ∀ nm, unpackNode (nodeObject t) (.blank nm) = .node nm t.value t.kids := by
  induction h with
  | @node n m name v kids hd hv _ _ _ _ ih =>
    intro nm
    have hkids := unpackPairs_kids fun k hk => by
      have hk' := ih k hk k.name
      rwa [Tree.eta] at hk'
    have hvalue : unpackVar (objectOf v) = v := unpackVar_objectOf hd hv
    have hkey : ¬ ascii "_c" = ascii "_v" := by decide
    rw [nodeObject, unpackNode]
    by_cases hnull : v.isNull = true
    · cases isNull_iff.mp hnull
      cases kids with
      | nil => rfl
      | cons k kids =>
        simp only [Var.isNull, if_true, List.isEmpty_cons, Bool.false_eq_true, if_false,
          List.nil_append, unpackFields, if_neg hkey, unpackKids, hkids]
        rfl
    · rw [Bool.not_eq_true] at hnull
      cases kids with
      | nil =>
        simp only [hnull, Bool.false_eq_true, if_false, List.isEmpty_nil, if_true, List.append_nil,
          unpackFields, hvalue]
        rfl
      | cons k kids =>
        simp only [hnull, if_false, List.isEmpty_cons, Bool.false_eq_true, List.singleton_append,
          unpackFields, if_true, if_neg hkey, hvalue, unpackKids, hkids]
        rfl

/-- **A tree within the limits of the format comes back identical below its root.** -/
theorem import_export {t : Tree} (h : t.Fits depthLimit) (nm : Str) :
    Bin.importTree .default (.blank nm) (Bin.exportTree .default t) = (.node nm t.value t.kids, true) := by
  have hread := (encodes_packNode h).unpack (Nat.le_refl _) []
  rw [List.append_nil] at hread
  have hne : (packNode .default t).isEmpty = false := by
    cases hb : packNode .default t with
    | nil => rw [hb] at hread; cases hread
    | cons b bs => rfl
  simp only [Bin.importTree, Bin.exportTree, hne, Bool.false_eq_true, if_false, hread]
  rw [unpackNode_nodeObject h]
  exact congrArg (·, true) (copyTree_blank _ _ _ nm)

/-- A tree with a value, an anonymous child and two children of one name. -/
def packed : Tree :=
  .node (ascii "r") (.double ⟨0x3FE0000000000000⟩)
    [.node (ascii "a") (.int (-5)) [], .node [] .none [], .node (ascii "a") (.string (ascii "x")) []]

theorem import_export_sample :
    Bin.importTree .default (.blank (ascii "f")) (Bin.exportTree .default packed) =
      (.node (ascii "f") packed.value packed.kids, true) := by
  have hleaf : ∀ {nm : Str} {v : Var}, v.Data → v.Fits Binary64.Fractional 0xfffffffb →
      Tree.Fits 0xfffffffc (.node nm v []) := fun hd hv =>
    .node (n := 0xfffffffb) (m := 0) hd hv (by decide) (by simp) (fun h => absurd rfl h) (by simp)
  have hhalf : Binary64.Fractional ⟨0x3FE0000000000000⟩ := rfl
  refine import_export (.node (n := 0xfffffffe) (m := 0xfffffffc) (.double _) (.double hhalf) (by decide)
    ?_ (fun _ => by decide) ?_) (ascii "f")
  · simp only [List.forall_mem_cons]
    exact ⟨by decide, by decide, by decide, by simp⟩
  · simp only [List.forall_mem_cons]
    exact ⟨hleaf (.int _) (.int _), hleaf .none .none, hleaf (.string _) (.string (by decide)), by simp⟩

/-- A leaf with a string of `2^32` bytes. -/
def oversized : Tree := .node [] (.string (List.replicate (2 ^ 32) 0)) []

/-- The length is cast to 0, and the rest of the bytes is never looked at. -/
theorem export_truncates :
    Bin.importTree .default (.blank []) (Bin.exportTree .default oversized) ≠
      (.node [] oversized.value oversized.kids, true) := by
  obtain ⟨body, hbody⟩ : ∃ body : List UInt8, body = List.replicate (2 ^ 32) 0 := ⟨_, rfl⟩
  have hbytes : body.length = 2 ^ 32 := by rw [hbody, List.length_replicate]
  have hlen : u32 body.length = 0 := by rw [hbytes]; rfl
  have hpack : Bin.exportTree .default oversized =
      0x81 :: 0xa2 :: 0x5f :: 0x76 :: 0xa0 :: body := by
    rw [Bin.exportTree, oversized, ← hbody, packNode, packVar, hlen]
    exact List.append_nil (0x81 :: 0xa2 :: 0x5f :: 0x76 :: 0xa0 :: body)
  have hread : unpack (Bin.exportTree .default oversized) =
      .ok (.map [(.str (ascii "_v"), .str [])], body) := by
    have hmap := @encodes_map Unit 0 (fun _ => packStr (ascii "_v").length ++ ascii "_v")
      (fun _ => packStr 0 ++ []) (fun _ => .str (ascii "_v")) (fun _ => .str []) [()]
      (by decide) (fun _ _ => encodes_str _ (by decide)) (fun _ _ => encodes_str [] (by decide))
    rw [hpack]
    exact hmap.unpack (by decide) body
  have hvalue : oversized.value = .string body := by rw [oversized, ← hbody]; rfl
  rw [Bin.importTree, hread, hpack]
  intro h
  have hsame : Var.string [] = .string body := by
    rw [← hvalue]
    exact congrArg (fun r => r.1.value) h
  cases hsame
  simp at hbytes

/-! ## What is accepted -/

mutual
/-- `_v` with a value and `_c` with a list of children, nothing else: `(_v: value, _c: [[name, node], ...])`. -/
def treeForm : MsgPack.Object → Bool
  | .map l => fieldsForm l
  | _ => false

def fieldsForm : List (MsgPack.Object × MsgPack.Object) → Bool
  | [] => true
  | (.str key, o) :: kvs =>
    (if key = ascii "_v" then true else if key = ascii "_c" then kidsForm o else false) && fieldsForm kvs
  | (_, _) :: _ => false

def kidsForm : MsgPack.Object → Bool
  | .array l => pairsForm l
  | _ => false

def pairsForm : List MsgPack.Object → Bool
  | [] => true
  | .array [.str _, o] :: os => treeForm o && pairsForm os
  | _ :: _ => false
end

/-- The bytes are taken only if they are read as an object of the format; if they are not taken, nothing
changes; and of anything but a map neither success is reported nor the value touched. -/
structure Validated (options : ImportOptions) (dst : Tree) (data : List UInt8) : Prop where
  accepted : (Bin.importTree options dst data).2 = true → ∃ obj rest, unpack data = .ok (obj, rest) ∧ treeForm obj = true
  atomic : (Bin.importTree options dst data).2 = false → (Bin.importTree options dst data).1 = dst
  other : ∀ obj rest, unpack data = .ok (obj, rest) → (∀ l, obj ≠ .map l) →
    (Bin.importTree options dst data).2 = false ∧ (Bin.importTree options dst data).1.value = dst.value

theorem pairsForm_kids {kids : List Tree} (h : ∀ k ∈ kids, treeForm (nodeObject k) = true) :
    pairsForm (pairObjects kids) = true := by
  induction kids with
  | nil => rfl
  | cons k kids ih =>
    rw [List.forall_mem_cons] at h
    rw [pairObjects, pairsForm, h.1, ih h.2]
    rfl

/-- What is exported has the format. -/
theorem treeForm_nodeObject {n : Nat} {t : Tree} (h : t.Fits n) : treeForm (nodeObject t) = true := by
  induction h with
  | @node n m nm v kids _ _ _ _ _ _ ih =>
    have hkey : ¬ ascii "_c" = ascii "_v" := by decide
    have hkids := pairsForm_kids ih
    rw [nodeObject, treeForm]
    cases v.isNull <;> cases kids.isEmpty <;> simp [fieldsForm, kidsForm, hkey, hkids]

/-- Whatever bytes can be read, they are taken. -/
theorem importTree_snd (options : ImportOptions) (dst : Tree) (data : List UInt8) :
    (Bin.importTree options dst data).2 = true ↔ ∃ obj rest, unpack data = .ok (obj, rest) := by
  rw [Bin.importTree]
  cases data with
  | nil =>
    refine ⟨fun h => (by cases h), ?_⟩
    rintro ⟨obj, rest, h⟩
    cases h
  | cons b bs =>
    cases hu : unpack (b :: bs) with
    | error e =>
      refine ⟨fun h => (by cases h), ?_⟩
      rintro ⟨obj, rest, h⟩
      cases h
    | ok r => exact ⟨fun _ => ⟨r.1, r.2, rfl⟩, fun _ => rfl⟩

theorem importTree_false (options : ImportOptions) (dst : Tree) (data : List UInt8)
    (h : (Bin.importTree options dst data).2 = false) : (Bin.importTree options dst data).1 = dst := by
  rw [Bin.importTree] at h ⊢
  split_ifs at h ⊢
  · rfl
  · split at h
    · cases h
    · rfl

/-- **Import is validated** exactly on the bytes that are no object at all, or one of the format. -/
theorem validated_iff (options : ImportOptions) (dst : Tree) (data : List UInt8) :
    Validated options dst data ↔ ∀ obj rest, unpack data = .ok (obj, rest) → treeForm obj = true := by
  constructor
  · intro h obj rest hread
    obtain ⟨obj', rest', hread', hform⟩ := h.accepted ((importTree_snd options dst data).mpr ⟨obj, rest, hread⟩)
    rw [hread] at hread'
    cases hread'
    exact hform
  · intro h
    refine ⟨fun htrue => ?_, importTree_false options dst data, fun obj rest hread hmap => ?_⟩
    · obtain ⟨obj, rest, hread⟩ := (importTree_snd options dst data).mp htrue
      exact ⟨obj, rest, hread, h obj rest hread⟩
    · have hform := h obj rest hread
      cases obj with
      | map l => exact absurd rfl (hmap l)
      | _ => cases hform

/-- The byte `05` is the number 5: it is taken, and the value of the node is lost. -/
theorem number_taken : Bin.importTree .default (.node (ascii "d") (.int 1) []) [5] = (.node (ascii "d") .none [], true) ∧
    ¬ Validated .default (.node (ascii "d") (.int 1) []) [5] := by
  have htaken : Bin.importTree .default (.node (ascii "d") (.int 1) []) [5] = (.node (ascii "d") .none [], true) := rfl
  refine ⟨htaken, fun h => ?_⟩
  obtain ⟨obj, rest, hread, hform⟩ := h.accepted (by rw [htaken])
  cases hread
  cases hform

end VersatileEngine
