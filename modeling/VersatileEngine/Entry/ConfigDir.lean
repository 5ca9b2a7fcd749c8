import VersatileEngine.Node.Overlay
import VersatileEngine.Node.Parts
import VersatileEngine.Schema.Overloads

/-!
# VersatileEngine.Entry.ConfigDir

`loadConfigDir` of `entry.cpp`: directories of JSON files as subtrees of the configuration.

A directory is the list of its entries in the order in which they are enumerated. A file is what `readFile` returns
for it, which is empty where it cannot be read.

* `loadConfigDir`  — the loop, with the exception of a file that the reader gives up in as `none`.
* `Reordered`      — every directory, at any depth, may be enumerated in another order.
* `writesAll`      — what the entries write to the node at a way, in the order in which they are loaded.
* `load_writes`    — **the tree after loading is what these writes leave**.
* `load_order`     — **without two different values for a node the order makes no difference** but to siblings.
-/

namespace VersatileEngine

namespace Entry

inductive DirEntry where
  | directory (name : Str) (entries : List DirEntry)
  | file (name : Str) (content : Str)
  /-- Neither a directory nor a regular file. -/
  | other (name : Str)

/-- `path().stem()` of an entry, which is named neither `.` nor `..`. -/
def fileStem (name : Str) : Str :=
  match rsplit 46 name with
  | some (stem, _) => if stem = [] then name else stem
  | none => name

/-- `path().extension()` of an entry. -/
def fileExtension (name : Str) : Str :=
  match rsplit 46 name with
  | some (stem, rest) => if stem = [] then [] else 46 :: rest
  | none => []

/-- Whether a file is imported. -/
def isConfig (name content : Str) : Bool := fileExtension name = ascii ".json" && content ≠ []

/-- `parent->find(stem)`, else `parent->append(stem)`: the tree and the place of the child. -/
def childFor (stem : Str) (parent : Tree) : Tree × List Nat :=
  match parent.findPath pathSep keySep stem with
  | some place => (parent, place)
  | none => (parent.push (.blank stem), [parent.kids.length])

/-- What is done to that child. -/
def atChild (stem : Str) (act : Tree → Option Tree) (parent : Tree) : Option Tree :=
  let (t, place) := childFor stem parent
  ((t.sub place).bind act).map fun c => t.modifyAt (fun _ => c) place

section Load

variable (simdjson : Simdjson)

/-- `importAs<JsonS>(child, content)`; its result is only logged. -/
def importConfig (content : Str) (child : Tree) : Option Tree :=
  (JsonS.importTreeDefault simdjson child content).map Prod.snd

mutual
/-- The body of the loop. -/
def loadEntry : DirEntry → Tree → Option Tree
  | .directory name entries, parent => atChild (fileStem name) (loadConfigDir entries) parent
  | .file name content, parent =>
    if isConfig name content then atChild (fileStem name) (importConfig simdjson content) parent else some parent
  | .other _, parent => some parent

/-- `loadConfigDir(parent, dir_path)`. -/
def loadConfigDir : List DirEntry → Tree → Option Tree
  | [], parent => some parent
  | e :: entries, parent => (loadEntry e parent).bind (loadConfigDir entries)
end

/-- The tree that is copied from a file, if it can be parsed; the exception is `none`. -/
def imported (content : Str) : Option (Option Tree) :=
  match simdjson.iterate content with
  | some (.value val) => (domToNode val (.blank (ascii "json_import"))).map some
  | _ => some none

/-! ## What is written -/

/-- A way that ends at a node makes it, where it is not there yet. -/
def made (way : List (Str × Nat)) : List (Option Var) := if way = [] then [none] else []

mutual
/-- What an entry writes to the node at a way: `none` only makes it. -/
def DirEntry.writes : DirEntry → List (Str × Nat) → List (Option Var)
  | .directory name entries, key :: way =>
    if key = (fileStem name, 0) then made way ++ writesAll entries way else []
  | .file name content, key :: way =>
    if isConfig name content ∧ key = (fileStem name, 0) then
      made way ++ (((imported simdjson content).join.bind (Tree.look way)).toList.map some)
    else []
  | _, _ => []

def writesAll : List DirEntry → List (Str × Nat) → List (Option Var)
  | [], _ => []
  | e :: entries, way => e.writes way ++ writesAll entries way
end

mutual
/-- The reader gives up in a file of the entry. -/
def DirEntry.fails : DirEntry → Bool
  | .directory _ entries => failsAny entries
  | .file name content => isConfig name content && (imported simdjson content).isNone
  | .other _ => false

def failsAny : List DirEntry → Bool
  | [] => false
  | e :: entries => e.fails || failsAny entries
end

/-- Stems are names of nodes, and the trees of the files are tidy. -/
inductive DirEntry.Plain : DirEntry → Prop
  | directory {name : Str} {entries : List DirEntry} (stem : isName (fileStem name) = true)
      (below : ∀ e ∈ entries, Plain e) : Plain (.directory name entries)
  | file {name content : Str} (stem : isConfig name content = true → isName (fileStem name) = true)
      (tidy : ∀ parsed, imported simdjson content = some (some parsed) → Tidy parsed) : Plain (.file name content)
  | other {name : Str} : Plain (.other name)

/-- No two files have different values for one node. -/
def OneValue (entries : List DirEntry) : Prop :=
  ∀ way v w, some v ∈ writesAll simdjson entries way → some w ∈ writesAll simdjson entries way → v = w

end Load

/-- The same directory, enumerated in another order, and so every directory in it. -/
inductive Reordered : List DirEntry → List DirEntry → Prop
  | refl (entries : List DirEntry) : Reordered entries entries
  | cons (e : DirEntry) {entries entries' : List DirEntry} (h : Reordered entries entries') :
      Reordered (e :: entries) (e :: entries')
  | swap (e e' : DirEntry) (entries : List DirEntry) : Reordered (e :: e' :: entries) (e' :: e :: entries)
  | inside (name : Str) {sub sub' : List DirEntry} (h : Reordered sub sub') (entries : List DirEntry) :
      Reordered (.directory name sub :: entries) (.directory name sub' :: entries)
  | trans {a b c : List DirEntry} (h : Reordered a b) (h' : Reordered b c) : Reordered a c

/-- What a write leaves of the value of a node. -/
def writeTo (old : Option Var) : Option Var → Option Var
  | none => some (old.getD .none)
  | some v => some v

namespace DirEntry

/-- Induction over a directory through its entries. -/
theorem ind {P : DirEntry → Prop} (directory : ∀ name entries, (∀ e ∈ entries, P e) → P (.directory name entries))
    (file : ∀ name content, P (.file name content)) (other : ∀ name, P (.other name)) (e : DirEntry) : P e := by
  refine @DirEntry.rec P (fun entries => ∀ e ∈ entries, P e) directory file other ?_ ?_ e
  · intro e he
    cases he
  · intro e entries he hentries
    exact List.forall_mem_cons.mpr ⟨he, hentries⟩

end DirEntry

section Loading

variable {simdjson : Simdjson} {stem : Str} {t u : Tree} {act : Tree → Option Tree}

/-! ### One child -/

/-- The child is there or is appended. -/
theorem childFor_cases (hn : isName stem = true) (t : Tree) : ∃ a k b, k = partner t stem 0 ∧
    (∀ x ∈ a, x.name ≠ stem) ∧ childFor stem t = (.node t.name t.value (a ++ k :: b), [a.length]) ∧
    (t.kids = a ++ k :: b ∨ t.kids = a ∧ b = [] ∧ k = .blank stem) := by
  obtain ⟨hne, -⟩ := isName_spec hn
  rw [childFor, Tree.findPath_child hn]
  cases hfind : t.kids.find? fun k => k.name = stem with
  | some k =>
    obtain ⟨hk, a, b, hkids, ha⟩ := List.find?_eq_some_iff_append.mp hfind
    have ha : ∀ x ∈ a, x.name ≠ stem := fun x hx => by simpa using ha x hx
    have hk : k.name = stem := by simpa using hk
    have hnamed : t.named stem = k :: (b.filter fun k => k.name = stem) := by
      rw [Tree.named, hkids, List.filter_append, List.filter_eq_nil_iff.mpr (by simpa using ha),
        List.filter_cons_of_pos (by simpa using hk), List.nil_append]
    refine ⟨a, k, b, ?_, ha, ?_, .inl hkids⟩
    · rw [partner, hnamed]
      rfl
    · rw [hkids, Tree.childNamed_found hne ha hk, Option.bind_some, ← hkids, Tree.eta]
      simp [hkids]
  | none =>
    have ha : ∀ x ∈ t.kids, x.name ≠ stem := by simpa using List.find?_eq_none.mp hfind
    have hnamed : t.named stem = [] := by
      rw [Tree.named]
      exact List.filter_eq_nil_iff.mpr (by simpa using ha)
    refine ⟨t.kids, .blank stem, [], ?_, ha, ?_, .inr ⟨rfl, rfl, rfl⟩⟩
    · rw [partner, hnamed]
      rfl
    · rw [Tree.childNamed_none hne ha]
      cases t
      rfl

/-- **What is done to the child** shows below it and nowhere else. -/
theorem atChild_spec (hn : isName stem = true) (t : Tree)
    (hname : ∀ c, act (partner t stem 0) = some c → c.name = stem) :
    (act (partner t stem 0) = none → atChild stem act t = none) ∧
      ∀ c, act (partner t stem 0) = some c → ∃ u, atChild stem act t = some u ∧ u.name = t.name ∧
        u.look [] = t.look [] ∧ ∀ key way, u.look (key :: way) =
          if key = (stem, 0) then c.look way else t.look (key :: way) := by
  obtain ⟨a, k, b, hk, ha, hfor, hkids⟩ := childFor_cases hn t
  have hat : atChild stem act t = (act k).map fun c => .node t.name t.value (a ++ c :: b) := by
    rw [atChild, hfor]
    dsimp only
    rw [Tree.sub_cons, Tree.kids_node, List.getElem?_append_right (Nat.le_refl _), Nat.sub_self]
    refine congrArg (Option.map · (act k)) (funext fun c => ?_)
    have hmodify : (a ++ k :: b).modify a.length (Tree.modifyAt (fun _ => c) []) = a ++ c :: b := by
      rw [List.modify_eq_take_cons_drop (by simp)]
      simp
    rw [Tree.modifyAt_cons, Tree.kids_node, hmodify]
    rfl
  have hkname : k.name = stem := by rw [hk, partner_name]
  rw [← hk] at hname ⊢
  refine ⟨fun h => by rw [hat, h]; rfl, fun c hc => ?_⟩
  refine ⟨.node t.name t.value (a ++ c :: b), by rw [hat, hc]; rfl, rfl, rfl, ?_⟩
  rintro ⟨nm, j⟩ way
  rw [Tree.look_cons, Tree.look_cons, Tree.named, Tree.named, Tree.kids_node, List.filter_append]
  by_cases hnm : nm = stem
  · subst hnm
    have hnone : a.filter (fun x => x.name = nm) = [] := List.filter_eq_nil_iff.mpr (by simpa using ha)
    rw [hnone, List.nil_append, List.filter_cons_of_pos (by simpa using hname c hc)]
    cases j with
    | zero =>
      rw [if_pos rfl]
      rfl
    | succ j =>
      rw [if_neg (by simp), List.getElem?_cons_succ]
      rcases hkids with hkids | ⟨hkids, rfl, -⟩
      · rw [hkids, List.filter_append, hnone, List.nil_append, List.filter_cons_of_pos (by simpa using hkname),
          List.getElem?_cons_succ]
      · rw [hkids, hnone]
        rfl
  · have hother : ∀ x : Tree, x.name = stem → (x :: b).filter (fun x => x.name = nm) =
        b.filter fun x => x.name = nm :=
      fun x hx => List.filter_cons_of_neg (by simpa [hx] using Ne.symm hnm)
    rw [if_neg (by simp [hnm]), hother c (hname c hc)]
    rcases hkids with hkids | ⟨hkids, rfl, -⟩
    · rw [hkids, List.filter_append, hother k hkname]
    · rw [hkids, List.filter_nil, List.append_nil]

/-! ### All that is written -/

/-- A run on a tree fails whatever the tree is, or leaves what its writes leave. -/
def Loads (fails : Bool) (writes : List (Str × Nat) → List (Option Var)) (run : Tree → Option Tree) : Prop :=
  ∀ t, if fails then run t = none
    else ∃ u, run t = some u ∧ u.name = t.name ∧ ∀ way, u.look way = (writes way).foldl writeTo (t.look way)

/-- The writes of what is done to a child. -/
def writesAt (stem : Str) (writes : List (Str × Nat) → List (Option Var)) : List (Str × Nat) → List (Option Var)
  | key :: way => if key = (stem, 0) then made way ++ writes way else []
  | [] => []

/-- A child that is not there is made. -/
theorem made_partner (t : Tree) (nm : Str) (k : Nat) (way : List (Str × Nat)) :
    (made way).foldl writeTo (t.look ((nm, k) :: way)) = (partner t nm k).look way := by
  rw [Tree.look_cons, partner]
  cases (t.named nm)[k]? with
  | some x => cases way <;> rfl
  | none =>
    rw [Option.bind_none, Option.getD_none, Tree.look_blank]
    cases way <;> rfl

theorem atChild_loads {fails : Bool} {writes : List (Str × Nat) → List (Option Var)} (hn : isName stem = true)
    (hact : Loads fails writes act) : Loads fails (writesAt stem writes) (atChild stem act) := by
  intro t
  have hchild := hact (partner t stem 0)
  split_ifs at hchild ⊢
  · refine (atChild_spec hn t fun c hc => ?_).1 hchild
    rw [hchild] at hc
    cases hc
  · obtain ⟨c, hc, hname, hlook⟩ := hchild
    rw [partner_name] at hname
    obtain ⟨u, hu, huname, hroot, hbelow⟩ :=
      (atChild_spec hn t fun c' hc' => by rw [← Option.some.inj (hc.symm.trans hc'), hname]).2 c hc
    refine ⟨u, hu, huname, fun way => ?_⟩
    cases way with
    | nil => exact hroot
    | cons key way =>
      rw [hbelow, writesAt]
      split_ifs with hkey
      · rw [hlook, hkey, List.foldl_append, made_partner]
      · rfl

theorem loads_nothing : Loads false (fun _ => []) some := fun t => ⟨t, rfl, rfl, fun _ => rfl⟩

theorem importConfig_eq {content : Str} (hne : content ≠ []) (child : Tree) : importConfig simdjson content child =
    (imported simdjson content).map fun parsed =>
      match parsed with
      | some parsed => copyTree true false false parsed child
      | none => child := by
  rw [importConfig, JsonS.importTreeDefault, if_neg hne, imported]
  cases simdjson.iterate content with
  | none => rfl
  | some doc =>
    cases doc with
    | scalar => rfl
    | value val =>
      dsimp only
      rw [Option.map_map, Option.map_map]
      rfl

theorem importConfig_loads {content : Str} (hne : content ≠ [])
    (htidy : ∀ parsed, imported simdjson content = some (some parsed) → Tidy parsed) :
    Loads (imported simdjson content).isNone
      (fun way => ((imported simdjson content).join.bind (Tree.look way)).toList.map some)
      (importConfig simdjson content) := by
  intro t
  rw [importConfig_eq hne]
  cases hparsed : imported simdjson content with
  | none => rfl
  | some parsed =>
    refine ⟨_, rfl, ?_⟩
    cases parsed with
    | none => exact ⟨rfl, fun way => rfl⟩
    | some parsed =>
      refine ⟨copyTree_name true false false parsed t, fun way => ?_⟩
      dsimp only
      rw [look_copyTree (htidy parsed hparsed), Option.join_some, Option.bind_some]
      cases parsed.look way <;> rfl

theorem loadConfigDir_loads {entries : List DirEntry}
    (h : ∀ e ∈ entries, Loads (e.fails simdjson) (e.writes simdjson) (loadEntry simdjson e)) :
    Loads (failsAny simdjson entries) (writesAll simdjson entries) (loadConfigDir simdjson entries) := by
  induction entries with
  | nil => exact fun t => ⟨t, by rw [loadConfigDir], rfl, fun way => by rw [writesAll, List.foldl_nil]⟩
  | cons e entries ih =>
    rw [List.forall_mem_cons] at h
    intro t
    have he := h.1 t
    rw [loadConfigDir, failsAny]
    cases hf : e.fails simdjson with
    | true =>
      rw [hf, if_pos rfl] at he
      rw [Bool.true_or, if_pos rfl, he, Option.bind_none]
    | false =>
      rw [hf, if_neg Bool.false_ne_true] at he
      obtain ⟨t₁, ht₁, hname₁, hlook₁⟩ := he
      have hrest := ih h.2 t₁
      rw [Bool.false_or, ht₁, Option.bind_some]
      split_ifs at hrest ⊢
      · exact hrest
      · obtain ⟨u, hu, hname, hlook⟩ := hrest
        refine ⟨u, hu, hname.trans hname₁, fun way => ?_⟩
        rw [hlook, hlook₁, writesAll, List.foldl_append]

/-- **What an entry writes** is what loading it leaves. -/
theorem loadEntry_loads (e : DirEntry) : e.Plain simdjson → Loads (e.fails simdjson) (e.writes simdjson)
    (loadEntry simdjson e) := by
  induction e using DirEntry.ind with
  | directory name entries ih =>
    rintro (⟨hstem, hbelow⟩ | _ | _)
    have hwrites : (DirEntry.directory name entries).writes simdjson =
        writesAt (fileStem name) (writesAll simdjson entries) := by
      funext way
      cases way <;> rfl
    have hload : loadEntry simdjson (.directory name entries) =
        atChild (fileStem name) (loadConfigDir simdjson entries) := by
      funext t
      rw [loadEntry]
    rw [hwrites, hload, DirEntry.fails]
    exact atChild_loads hstem (loadConfigDir_loads fun e he => ih e he (hbelow e he))
  | file name content =>
    rintro (_ | ⟨hstem, htidy⟩ | _)
    cases hconfig : isConfig name content with
    | true =>
      have hne : content ≠ [] := by
        rw [isConfig, Bool.and_eq_true, decide_eq_true_iff, decide_eq_true_iff] at hconfig
        exact hconfig.2
      have hwrites : (DirEntry.file name content).writes simdjson = writesAt (fileStem name)
          (fun way => ((imported simdjson content).join.bind (Tree.look way)).toList.map some) := by
        funext way
        cases way with
        | nil => rfl
        | cons key way => rw [DirEntry.writes, hconfig, writesAt]; simp only [true_and]
      have hload : loadEntry simdjson (.file name content) =
          atChild (fileStem name) (importConfig simdjson content) := by
        funext t
        rw [loadEntry, if_pos hconfig]
      rw [hwrites, hload, DirEntry.fails, hconfig, Bool.true_and]
      exact atChild_loads (hstem hconfig) (importConfig_loads hne htidy)
    | false =>
      have hwrites : (DirEntry.file name content).writes simdjson = fun _ => [] := by
        funext way
        cases way with
        | nil => rfl
        | cons key way => rw [DirEntry.writes, if_neg (by simp [hconfig])]
      have hload : loadEntry simdjson (.file name content) = some := by
        funext t
        rw [loadEntry, if_neg (by simp [hconfig])]
      rw [hwrites, hload, DirEntry.fails, hconfig, Bool.false_and]
      exact loads_nothing
  | other name =>
    intro _
    have hwrites : (DirEntry.other name).writes simdjson = fun _ => [] := by
      funext way
      cases way <;> rfl
    have hload : loadEntry simdjson (.other name) = some := by
      funext t
      rw [loadEntry]
    rw [hwrites, hload, DirEntry.fails]
    exact loads_nothing

/-- **The tree after loading** is what the writes of the entries leave. -/
theorem load_writes {entries : List DirEntry} (h : ∀ e ∈ entries, e.Plain simdjson) :
    Loads (failsAny simdjson entries) (writesAll simdjson entries) (loadConfigDir simdjson entries) :=
  loadConfigDir_loads fun e he => loadEntry_loads e (h e he)

/-! ### Another order -/

section Order

variable {entries entries' : List DirEntry}

theorem Reordered.writes (h : Reordered entries entries') :
    ∀ way, (writesAll simdjson entries way).Perm (writesAll simdjson entries' way) := by
  induction h with
  | refl entries => exact fun way => .refl _
  | cons e _ ih =>
    intro way
    rw [writesAll, writesAll]
    exact (ih way).append_left _
  | swap e e' entries =>
    intro way
    rw [writesAll, writesAll, writesAll, writesAll, ← List.append_assoc, ← List.append_assoc]
    exact List.perm_append_comm.append_right _
  | inside name _ entries ih =>
    intro way
    rw [writesAll, writesAll]
    refine List.Perm.append_right _ ?_
    cases way with
    | nil => exact .refl _
    | cons key way =>
      rw [DirEntry.writes, DirEntry.writes]
      split_ifs
      · exact (ih way).append_left _
      · exact .refl _
  | trans _ _ ih ih' => exact fun way => (ih way).trans (ih' way)

theorem Reordered.fails (h : Reordered entries entries') : failsAny simdjson entries = failsAny simdjson entries' := by
  induction h with
  | refl entries => rfl
  | cons e _ ih => rw [failsAny, failsAny, ih]
  | swap e e' entries => rw [failsAny, failsAny, failsAny, failsAny, Bool.or_left_comm]
  | inside name _ entries ih => rw [failsAny, failsAny, DirEntry.fails, DirEntry.fails, ih]
  | trans _ _ ih ih' => exact ih.trans ih'

theorem Reordered.plain (h : Reordered entries entries') :
    (∀ e ∈ entries, e.Plain simdjson) → ∀ e ∈ entries', e.Plain simdjson := by
  induction h with
  | refl entries => exact id
  | cons e _ ih =>
    rw [List.forall_mem_cons, List.forall_mem_cons]
    exact fun h => ⟨h.1, ih h.2⟩
  | swap e e' entries =>
    rw [List.forall_mem_cons, List.forall_mem_cons, List.forall_mem_cons, List.forall_mem_cons]
    exact fun h => ⟨h.2.1, h.1, h.2.2⟩
  | inside name _ entries ih =>
    rw [List.forall_mem_cons, List.forall_mem_cons]
    rintro ⟨⟨hstem, hbelow⟩ | _ | _, h⟩
    exact ⟨.directory hstem (ih hbelow), h⟩
  | trans _ _ ih ih' => exact fun h => ih' (ih h)

/-- Writes of one value come to the same in every order. -/
theorem writeTo_perm {ws ws' : List (Option Var)} (h : ws.Perm ws')
    (hone : ∀ v w, some v ∈ ws → some w ∈ ws → v = w) (old : Option Var) :
    ws.foldl writeTo old = ws'.foldl writeTo old := by
  refine h.foldl_eq' (fun x hx y hy z => ?_) old
  cases x with
  | none => cases y <;> rfl
  | some v =>
    cases y with
    | none => rfl
    | some w => rw [hone v w hx hy]

/-- **The order does not matter** but to siblings, where stems are names of nodes, the trees of the files tidy,
and no node is given two values. -/
theorem load_order (simdjson : Simdjson) (h : Reordered entries entries')
    (hplain : ∀ e ∈ entries, e.Plain simdjson) (hone : OneValue simdjson entries) (parent : Tree) :
    (loadConfigDir simdjson entries parent = none ∧ loadConfigDir simdjson entries' parent = none) ∨
      ∃ t u, loadConfigDir simdjson entries parent = some t ∧ loadConfigDir simdjson entries' parent = some u ∧
        Shuffled t u := by
  have hload := load_writes hplain parent
  have hload' := load_writes (h.plain hplain) parent
  rw [← h.fails] at hload'
  split_ifs at hload hload'
  · exact .inl ⟨hload, hload'⟩
  · obtain ⟨t, ht, hname, hlook⟩ := hload
    obtain ⟨u, hu, hname', hlook'⟩ := hload'
    refine .inr ⟨t, u, ht, hu, shuffled_of_look (hname.trans hname'.symm) fun way => ?_⟩
    rw [hlook, hlook']
    exact writeTo_perm (h.writes way) (hone way) _

end Order

/-! ### Values of files -/

theorem not_mem_made (v : Var) (way : List (Str × Nat)) : some v ∉ made way := by
  rw [made]
  split_ifs <;> simp

/-- A file writes the values of its tree below the node of its stem. -/
theorem mem_writes_file {name content : Str} {key : Str × Nat} {way : List (Str × Nat)} {v : Var} :
    some v ∈ (DirEntry.file name content).writes simdjson (key :: way) ↔
      (isConfig name content = true ∧ key = (fileStem name, 0)) ∧
        (imported simdjson content).join.bind (Tree.look way) = some v := by
  rw [DirEntry.writes]
  split_ifs with h
  · rw [List.mem_append, or_iff_right (not_mem_made v way), and_iff_right h,
      List.mem_map_of_injective (Option.some_injective _), Option.mem_toList]
  · exact iff_of_false List.not_mem_nil fun h' => h h'.1

/-- A directory writes what its entries write, below the node of its stem. -/
theorem mem_writes_directory {name : Str} {entries : List DirEntry} {key : Str × Nat} {way : List (Str × Nat)}
    {v : Var} : some v ∈ (DirEntry.directory name entries).writes simdjson (key :: way) ↔
      key = (fileStem name, 0) ∧ some v ∈ writesAll simdjson entries way := by
  rw [DirEntry.writes]
  split_ifs with h
  · rw [List.mem_append, or_iff_right (not_mem_made v way), and_iff_right h]
  · exact iff_of_false List.not_mem_nil fun h' => h h'.1

/-! ### Samples -/

/-- A reader for the texts of the samples. -/
def sampleReader : Simdjson where
  iterate text := List.lookup text [(ascii "[]", .value (.array [])), (ascii "[1]", .value (.array [.int 1])),
    (ascii "\x7b\"a\":1\x7d", .value (.object [(some (ascii "a"), .int 1)])),
    (ascii "\x7b\"b\":3,\"\":[1]\x7d", .value (.object [(some (ascii "b"), .int 3), (some [], .array [.int 1])])),
    (ascii "\x7b\"\":[1,2],\"b\":3\x7d",
      .value (.object [(some [], .array [.int 1, .int 2]), (some (ascii "b"), .int 3)])),
    (ascii "\x7b\"a\":\x7b\"b\":3,\"\":[1]\x7d\x7d", .value (.object [(some (ascii "a"),
      .object [(some (ascii "b"), .int 3), (some [], .array [.int 1])])]))]
  getDouble _ := none

/-- `b.json` has one element, and below the directory `b` there is `c.json`, which is empty. -/
def sampleDir : List DirEntry :=
  [.file (ascii "b.json") (ascii "[1]"), .directory (ascii "b") [.file (ascii "c.json") (ascii "[]")]]

theorem tidy_leaf (nm : Str) (v : Var) : Tidy (.node nm v []) :=
  .intro (fun _ => .inl (Nat.zero_le 1)) fun k hk => by cases hk

theorem look_leaf {nm : Str} {v w : Var} {way : List (Str × Nat)} (h : (Tree.node nm v []).look way = some w) :
    way = [] ∧ w = v := by
  cases way with
  | nil => exact ⟨rfl, (Option.some.inj h).symm⟩
  | cons key way => cases h

/-- The values that the files of the sample write. -/
theorem sampleDir_values {way : List (Str × Nat)} {v : Var} (h : some v ∈ writesAll sampleReader sampleDir way) :
    v = if (way.drop 1).map Prod.fst = [[]] then .int 1 else .none := by
  cases way with
  | nil => cases h
  | cons key way =>
    rw [sampleDir, writesAll, writesAll, writesAll, List.append_nil, List.mem_append, mem_writes_file,
      mem_writes_directory] at h
    rcases h with ⟨-, hlook⟩ | ⟨-, h⟩
    · cases way with
      | nil => exact (Option.some.inj hlook).symm
      | cons key way =>
        have hlook : (Tree.node (ascii "json_import") .none [.node [] (.int 1) []]).look (key :: way) = some v := hlook
        obtain ⟨x, hx, hlook⟩ := Option.bind_eq_some_iff.mp hlook
        obtain ⟨hkid, hname⟩ := Tree.named_mem _ hx
        obtain rfl := List.mem_singleton.mp hkid
        obtain ⟨rfl, rfl⟩ := look_leaf hlook
        rw [List.drop_one, List.tail_cons, List.map_singleton, ← hname]
        rfl
    · cases way with
      | nil => cases h
      | cons key way =>
        rw [writesAll, writesAll, List.append_nil, mem_writes_file] at h
        obtain ⟨⟨-, rfl⟩, hlook⟩ := h
        obtain ⟨rfl, rfl⟩ := look_leaf hlook
        rw [List.drop_one, List.tail_cons, List.map_singleton, if_neg (by decide)]

theorem load_order_sample : ∃ t u, loadConfigDir sampleReader sampleDir (.blank []) = some t ∧
    loadConfigDir sampleReader sampleDir.reverse (.blank []) = some u ∧ Shuffled t u := by
  have hone : Tidy (.node (ascii "json_import") .none [.node [] (.int 1) []]) :=
    .intro (fun nm => .inl List.count_le_length) (List.forall_mem_singleton.mpr (tidy_leaf _ _))
  have hplain : ∀ e ∈ sampleDir, e.Plain sampleReader := by
    refine List.forall_mem_cons.mpr ⟨.file (fun _ => by decide) fun parsed hparsed => ?_,
      List.forall_mem_singleton.mpr (.directory (by decide) (List.forall_mem_singleton.mpr
        (.file (fun _ => by decide) fun parsed hparsed => ?_)))⟩
    · cases hparsed
      exact hone
    · cases hparsed
      exact tidy_leaf _ _
  have hvalue : OneValue sampleReader sampleDir := fun way v w hv hw => by
    rw [sampleDir_values hv, sampleDir_values hw]
  rcases load_order sampleReader (.swap _ _ []) hplain hvalue (.blank []) with ⟨hfail, -⟩ | hload
  · cases hfail
  · exact hload

/-- A tree with one child is the shuffled one of trees with one child only where these are. -/
theorem shuffled_only {t u x y : Tree} (h : Shuffled t u) (ht : t.kids = [x]) (hu : u.kids = [y]) : Shuffled x y := by
  obtain ⟨kids, -, -, hperm, -, helements⟩ := h
  rw [hu, List.perm_singleton] at hperm
  exact helements 0 x y (by rw [ht]; rfl) (by rw [hperm]; rfl)

/-- `x.json` gives the node `x/a` the value 1; `x/a.json` is an empty array and takes it away, unless `x.json` is
loaded after it. -/
theorem last_file_wins : ¬ ∀ (simdjson : Simdjson) (entries entries' : List DirEntry) (parent : Tree),
    Reordered entries entries' →
    (loadConfigDir simdjson entries parent = none ∧ loadConfigDir simdjson entries' parent = none) ∨
      ∃ t u, loadConfigDir simdjson entries parent = some t ∧ loadConfigDir simdjson entries' parent = some u ∧
        Shuffled t u := by
  intro h
  rcases h sampleReader [.file (ascii "x.json") (ascii "\x7b\"a\":1\x7d"),
    .directory (ascii "x") [.file (ascii "a.json") (ascii "[]")]] _ (.blank []) (.swap _ _ []) with
    ⟨hfail, -⟩ | ⟨t, u, ht, hu, hsame⟩
  · cases hfail
  · obtain rfl : Tree.node [] .none [.node (ascii "x") .none [.node (ascii "a") .none []]] = t := Option.some.inj ht
    obtain rfl : Tree.node [] .none [.node (ascii "x") .none [.node (ascii "a") (.int 1) []]] = u :=
      Option.some.inj hu
    obtain ⟨-, -, hvalue, -⟩ := shuffled_only (shuffled_only hsame rfl rfl) rfl rfl
    cases hvalue

/-- A stem with a number is looked up as the place of a child, and finds one only if there is one already. -/
example :
    (loadConfigDir sampleReader [.file (ascii "a.json") (ascii "[1]"), .file (ascii "#0.json") (ascii "[]")]
      (.blank [])).map (fun t => t.kids.map Tree.name) = some [ascii "a"] ∧
    (loadConfigDir sampleReader [.file (ascii "#0.json") (ascii "[]"), .file (ascii "a.json") (ascii "[1]")]
      (.blank [])).map (fun t => t.kids.map Tree.name) = some [ascii "#0", ascii "a"] := ⟨rfl, rfl⟩

/-- Elements of an empty key in front of another key: the second one lands before the first, and the third file
writes the value of the first to it. -/
example :
    let first : DirEntry := .file (ascii "x.json") (ascii "\x7b\"a\":\x7b\"b\":3,\"\":[1]\x7d\x7d")
    let second : DirEntry := .directory (ascii "x") [.file (ascii "a.json") (ascii "\x7b\"\":[1,2],\"b\":3\x7d")]
    let third : DirEntry := .directory (ascii "x.d") [.file (ascii "a.json") (ascii "\x7b\"b\":3,\"\":[1]\x7d")]
    let elements : Tree → List Var := fun t =>
      t.kids.flatMap fun x => x.kids.flatMap fun a => (a.named []).map Tree.value
    (loadConfigDir sampleReader [first, second, third] (.blank [])).map elements = some [.int 1, .int 1] ∧
      (loadConfigDir sampleReader [second, first, third] (.blank [])).map elements = some [.int 1, .int 2] :=
  ⟨rfl, rfl⟩

end Loading

end Entry

end VersatileEngine
