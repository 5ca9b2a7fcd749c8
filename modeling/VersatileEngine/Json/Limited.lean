import VersatileEngine.Json.Stringify

/-!
# VersatileEngine.Json.Limited

The export with a depth limit, which has a printer of its own.

* `nodeToJsonWithDepth` — the printer, with the depth of the indentation and the depth in the tree.
* `Tree.cutAt`          — every visible inner node at a depth becomes a leaf that holds `...`.
* `limited_eq`          — the limited export is the full export of the cut tree.
-/

namespace VersatileEngine

mutual
/-- `nodeToJsonImplWithDepth`. -/
def nodeToJsonWithDepth (options : ExportOptions) (maxDepth : Int) : Tree → Nat → Nat → Option Str
  | .node _ value kids, depth, currentDepth =>
    let visible := visibleTextsWithDepth options maxDepth kids
    (padding (depth * options.indent)).bind fun pad =>
    (padding ((depth + 1) * options.indent)).bind fun pad1 =>
      if 0 ≤ maxDepth ∧ maxDepth ≤ currentDepth then
        some (if visible.isEmpty then (if value.isNull then ascii "null" else varToJson value)
          else ascii "\"...\"")
      else
      match visible with
      | [] => some (if value.isNull then ascii "null" else varToJson value)
      | (first, _) :: _ =>
        if first = [] then
          (allTexts (visible.map fun c => (c.1, c.2 (depth + 1) (currentDepth + 1)))).map fun texts =>
            ascii "[\n" ++ elementLines pad1 visible.length 0 (texts.map Prod.snd) ++ pad ++ [93]
        else
          let names := namedFirsts [] visible
          let anon := anonymous visible
          let hasVal := if value.isNull then 0 else 1
          let total := names.length + (if anon.isEmpty then 0 else 1) + hasVal
          (allTexts (names.map fun c => (c.1, c.2 (depth + 1) (currentDepth + 1)))).bind fun named =>
            let fields :=
              (if value.isNull then []
                else pad1 ++ ascii "\"_value\": " ++ varToJson value ++ lineEnd 1 total) ++
                fieldLines pad1 total hasVal named
            if anon.isEmpty then some (ascii "\x7b\n" ++ fields ++ pad ++ [125])
            else
              (padding ((depth + 2) * options.indent)).bind fun pad2 =>
                (allTexts (anon.map fun c => (([] : Str), c (depth + 2) (currentDepth + 1)))).map fun texts =>
                  ascii "\x7b\n" ++ fields ++ pad1 ++ ascii "\"\": [\n" ++
                    elementLines pad2 anon.length 0 (texts.map Prod.snd) ++ pad1 ++ ascii "]\n" ++
                    pad ++ [125]

/-- The visible children with their names; what each is at the two depths. -/
def visibleTextsWithDepth (options : ExportOptions) (maxDepth : Int) :
    List Tree → List (Str × (Nat → Nat → Option Str))
  | [] => []
  | k :: ks =>
    if isIgnoredChild options k then visibleTextsWithDepth options maxDepth ks
    else (k.name, fun depth currentDepth => nodeToJsonWithDepth options maxDepth k depth currentDepth) ::
      visibleTextsWithDepth options maxDepth ks
end

/-- `json::exportTree(node, maxDepth, options)`. -/
def JsonS.exportTreeWithDepth (node : Tree) (maxDepth : Int) (options : ExportOptions) : Option Str :=
  (nodeToJsonWithDepth options maxDepth node 0 0).map fun out => out ++ [10]

/-! ## The cut tree -/

/-- The visible children. -/
def Tree.shown (options : ExportOptions) (kids : List Tree) : List Tree :=
  kids.filter fun k => !isIgnoredChild options k

mutual
/-- Every visible inner node at depth `d` replaced by a leaf. -/
def Tree.cutAt (options : ExportOptions) : Tree → Nat → Tree
  | .node nm value kids, 0 =>
    if (Tree.shown options kids).isEmpty then .node nm value kids else .node nm (.string (ascii "...")) []
  | .node nm value kids, d + 1 => .node nm value (cutKids options kids d)

def Tree.cutKids (options : ExportOptions) : List Tree → Nat → List Tree
  | [], _ => []
  | k :: ks, d => (if isIgnoredChild options k then k else cutAt options k d) :: cutKids options ks d
end

mutual
/-- The height of the visible tree: 0 for a node without visible children. -/
def Tree.visibleHeight (options : ExportOptions) : Tree → Nat
  | .node _ _ kids => visibleHeights options kids

/-- One more than the greatest height of a visible child, or 0. -/
def Tree.visibleHeights (options : ExportOptions) : List Tree → Nat
  | [] => 0
  | k :: ks =>
    if isIgnoredChild options k then visibleHeights options ks
    else max (visibleHeight options k + 1) (visibleHeights options ks)
end

section Groups

variable {α β : Type}

theorem namedFirsts_map (g : α → β) : ∀ (l : List (Str × α)) (seen : List Str),
    namedFirsts seen (l.map fun c => (c.1, g c.2)) = (namedFirsts seen l).map fun c => (c.1, g c.2) := by
  intro l
  induction l with
  | nil => exact fun _ => rfl
  | cons c l ih =>
    intro seen
    obtain ⟨nm, a⟩ := c
    rw [List.map_cons, namedFirsts, namedFirsts]
    split_ifs
    · exact ih seen
    · rw [ih, List.map_cons]

theorem anonymous_map (g : α → β) (l : List (Str × α)) :
    anonymous (l.map fun c => (c.1, g c.2)) = (anonymous l).map g := by
  rw [anonymous, anonymous, List.filter_map, List.map_map, List.map_map]
  rfl

end Groups

section Cut

variable {options : ExportOptions}

theorem cutAt_name (t : Tree) (d : Nat) : (t.cutAt options d).name = t.name := by
  obtain ⟨nm, value, kids⟩ := t
  cases d with
  | zero =>
    rw [Tree.cutAt]
    split_ifs <;> rfl
  | succ d => rfl

theorem cutAt_ignored (t : Tree) (d : Nat) :
    isIgnoredChild options (t.cutAt options d) = isIgnoredChild options t := by
  rw [isIgnoredChild, isIgnoredChild, cutAt_name]

/-- A text of the limited export for a child of a node at a depth of the tree. -/
def childText (currentDepth : Nat) (text : Nat → Nat → Option Str) : Nat → Option Str :=
  fun depth => text depth (currentDepth + 1)

/-- The printer of the limited export, below the limit: that of the full one, on the texts of the
children. -/
theorem nodeToJsonWithDepth_below {maxDepth : Int} {currentDepth : Nat}
    (h : ¬ (0 ≤ maxDepth ∧ maxDepth ≤ currentDepth)) (nm : Str) (value : Var) {kids kids' : List Tree}
    (depth : Nat)
    (hkids : visibleTexts options kids' =
      (visibleTextsWithDepth options maxDepth kids).map fun c => (c.1, childText currentDepth c.2)) :
    nodeToJsonWithDepth options maxDepth (.node nm value kids) depth currentDepth =
      nodeToJson options (.node nm value kids') depth := by
  rw [nodeToJsonWithDepth, nodeToJson, hkids]
  generalize visibleTextsWithDepth options maxDepth kids = visible
  simp only [if_neg h]
  cases visible with
  | nil => rfl
  | cons c visible =>
    simp only [namedFirsts_map, anonymous_map, List.map_map, List.length_map, List.isEmpty_map]
    rfl

theorem shown_cons (k : Tree) (ks : List Tree) : Tree.shown options (k :: ks) =
    if isIgnoredChild options k then Tree.shown options ks else k :: Tree.shown options ks := by
  rw [Tree.shown, Tree.shown, List.filter_cons]
  cases isIgnoredChild options k <;> rfl

theorem visibleTexts_shown (kids : List Tree) : visibleTexts options kids =
    (Tree.shown options kids).map fun k => (k.name, nodeToJson options k) := by
  induction kids with
  | nil => rfl
  | cons k ks ih =>
    rw [visibleTexts, shown_cons, ih]
    split_ifs <;> rfl

theorem visibleTextsWithDepth_shown (maxDepth : Int) (kids : List Tree) :
    visibleTextsWithDepth options maxDepth kids =
      (Tree.shown options kids).map fun k => (k.name, nodeToJsonWithDepth options maxDepth k) := by
  induction kids with
  | nil => rfl
  | cons k ks ih =>
    rw [visibleTextsWithDepth, shown_cons, ih]
    split_ifs <;> rfl

/-- At the limit: a leaf stays, and what stands for an inner node is a leaf too. -/
theorem nodeToJsonWithDepth_at {maxDepth : Int} {currentDepth : Nat}
    (h : 0 ≤ maxDepth ∧ maxDepth ≤ currentDepth) (t : Tree) (depth : Nat) :
    nodeToJsonWithDepth options maxDepth t depth currentDepth = nodeToJson options (t.cutAt options 0) depth := by
  obtain ⟨nm, value, kids⟩ := t
  rw [nodeToJsonWithDepth, Tree.cutAt, visibleTextsWithDepth_shown]
  simp only [if_pos h, List.isEmpty_map]
  by_cases hshown : (Tree.shown options kids).isEmpty = true
  · rw [if_pos hshown, if_pos hshown, nodeToJson, visibleTexts_shown, List.isEmpty_iff.mp hshown]
    rfl
  · rw [if_neg hshown, if_neg hshown, nodeToJson]
    rfl

mutual
/-- The limited export under a natural limit, with so much of it left. -/
theorem nodeToJsonWithDepth_cut (rest currentDepth : Nat) (t : Tree) (depth : Nat) :
    nodeToJsonWithDepth options (currentDepth + rest : Nat) t depth currentDepth =
      nodeToJson options (t.cutAt options rest) depth := by
  cases rest with
  | zero => exact nodeToJsonWithDepth_at (by omega) t depth
  | succ rest =>
    obtain ⟨nm, value, kids⟩ := t
    rw [Tree.cutAt]
    refine nodeToJsonWithDepth_below (by omega) nm value depth ?_
    rw [← Nat.add_assoc, Nat.add_right_comm]
    exact visibleTexts_cut rest currentDepth kids

theorem visibleTexts_cut (rest currentDepth : Nat) (kids : List Tree) :
    visibleTexts options (Tree.cutKids options kids rest) =
      (visibleTextsWithDepth options (currentDepth + 1 + rest : Nat) kids).map fun c =>
        (c.1, childText currentDepth c.2) := by
  cases kids with
  | nil => rfl
  | cons k ks =>
    rw [Tree.cutKids, visibleTextsWithDepth, visibleTexts]
    have ih := visibleTexts_cut rest currentDepth ks
    by_cases hk : isIgnoredChild options k = true
    · rw [if_pos hk, if_pos hk, if_pos hk, ih]
    · have hfun : (fun depth => nodeToJson options (k.cutAt options rest) depth) = childText currentDepth
          fun depth d => nodeToJsonWithDepth options (currentDepth + 1 + rest : Nat) k depth d :=
        funext fun depth => (nodeToJsonWithDepth_cut rest (currentDepth + 1) k depth).symm
      rw [if_neg hk, if_neg hk, cutAt_ignored, if_neg hk, cutAt_name, ih, hfun]
      rfl
end

mutual
/-- Without a limit the two printers agree. -/
theorem nodeToJsonWithDepth_unlimited {maxDepth : Int} (h : maxDepth < 0) (t : Tree) (depth currentDepth : Nat) :
    nodeToJsonWithDepth options maxDepth t depth currentDepth = nodeToJson options t depth := by
  obtain ⟨nm, value, kids⟩ := t
  exact nodeToJsonWithDepth_below (by omega) nm value depth (visibleTexts_unlimited h kids currentDepth)

theorem visibleTexts_unlimited {maxDepth : Int} (h : maxDepth < 0) (kids : List Tree) (currentDepth : Nat) :
    visibleTexts options kids =
      (visibleTextsWithDepth options maxDepth kids).map fun c => (c.1, childText currentDepth c.2) := by
  cases kids with
  | nil => rfl
  | cons k ks =>
    rw [visibleTextsWithDepth, visibleTexts]
    have ih := visibleTexts_unlimited h ks currentDepth
    by_cases hk : isIgnoredChild options k = true
    · rw [if_pos hk, if_pos hk, ih]
    · have hfun : (fun depth => nodeToJson options k depth) = childText currentDepth
          fun depth d => nodeToJsonWithDepth options maxDepth k depth d :=
        funext fun depth => (nodeToJsonWithDepth_unlimited h k depth (currentDepth + 1)).symm
      rw [if_neg hk, if_neg hk, ih, hfun]
      rfl
end

theorem shown_of_height {kids : List Tree} (h : Tree.visibleHeights options kids = 0) :
    (Tree.shown options kids).isEmpty = true := by
  induction kids with
  | nil => rfl
  | cons k ks ih =>
    rw [Tree.visibleHeights] at h
    rw [shown_cons]
    split_ifs at h ⊢ with hk
    · exact ih h
    · omega

mutual
/-- Nothing is cut at the height of the visible tree or below. -/
theorem cutAt_high (t : Tree) (d : Nat) (h : t.visibleHeight options ≤ d) : t.cutAt options d = t := by
  obtain ⟨nm, value, kids⟩ := t
  rw [Tree.visibleHeight] at h
  cases d with
  | zero => rw [Tree.cutAt, if_pos (shown_of_height (Nat.le_zero.mp h))]
  | succ d => rw [Tree.cutAt, cutKids_high kids d h]

theorem cutKids_high (kids : List Tree) (d : Nat) (h : Tree.visibleHeights options kids ≤ d + 1) :
    Tree.cutKids options kids d = kids := by
  cases kids with
  | nil => rfl
  | cons k ks =>
    rw [Tree.visibleHeights] at h
    rw [Tree.cutKids]
    split_ifs at h ⊢ with hk
    · rw [cutKids_high ks d h]
    · rw [cutAt_high k d (by omega), cutKids_high ks d (by omega)]
end

/-- **The export with a depth limit** is the full export of the tree with every visible inner node at that depth
replaced by a leaf, and so the full export of the tree itself where the limit is negative or not below the height
of the visible tree. -/
theorem limited_eq (t : Tree) (maxDepth : Int) (options : ExportOptions) :
    JsonS.exportTreeWithDepth t maxDepth options =
        JsonS.exportTree options (if maxDepth < 0 then t else t.cutAt options maxDepth.toNat) ∧
      (maxDepth < 0 ∨ (t.visibleHeight options : Int) ≤ maxDepth →
        JsonS.exportTreeWithDepth t maxDepth options = JsonS.exportTree options t) := by
  have hcut : JsonS.exportTreeWithDepth t maxDepth options =
      JsonS.exportTree options (if maxDepth < 0 then t else t.cutAt options maxDepth.toNat) := by
    rw [JsonS.exportTreeWithDepth, JsonS.exportTree]
    split_ifs with h
    · rw [nodeToJsonWithDepth_unlimited h]
    · have hcut := @nodeToJsonWithDepth_cut options maxDepth.toNat 0 t 0
      rw [Nat.zero_add, Int.toNat_of_nonneg (not_lt.mp h)] at hcut
      rw [hcut]
  refine ⟨hcut, fun h => ?_⟩
  rw [hcut]
  split_ifs with hneg
  · rfl
  · rw [cutAt_high t _ (by omega)]

/-- A grandchild below an anonymous child and a limit of two, the height of the tree. -/
theorem limited_eq_sample :
    JsonS.exportTreeWithDepth (.node [] .none [.node [] .none [.node (ascii "a") (.int 1) []]]) 2 .default =
      JsonS.exportTree .default (.node [] .none [.node [] .none [.node (ascii "a") (.int 1) []]]) :=
  (limited_eq _ 2 .default).2 (Or.inr (by decide))

end Cut

end VersatileEngine
