import Mathlib.Data.List.TakeWhile
import VersatileEngine.Core.Text
import VersatileEngine.Node.Edit
import VersatileEngine.Schema.Options

/-!
# VersatileEngine.Xml.RoundTrip

`impl/xml.cpp`: trees as XML documents, and documents as trees.

* `XmlNode`      — a node of pugixml; `XmlNode.dropBlank` leaves the texts of white space out.
* `Pugixml`      — the library: saving a document with one root element, loading a text.
* `toXml`, `fromXml` — `nodeToXmlNode` and `xmlNodeToNode`.
* `exportTree`, `importTree` — the entry points.
* `Expressible`  — the trees that a document can say; `dropBlank_toXml`, `fromXml_toXml`.
* `importTree_exportTree` — such a tree comes back as it was.
-/

namespace VersatileEngine

namespace Xml

/-- A node of a document; `other` is a declaration, a comment, a doctype or an instruction. -/
inductive XmlNode where
  | element (name : Str) (attributes : List (Str × Str)) (children : List XmlNode)
  | pcdata (text : Str)
  | cdata (text : Str)
  | other (text : Str)

/-- The characters of `find_first_not_of(" \t\r\n")`. -/
def isBlank (c : UInt8) : Bool := c = 32 || c = 9 || c = 13 || c = 10

namespace XmlNode

/-- The name of an element. -/
def name? : XmlNode → Option Str
  | .element name _ _ => some name
  | _ => none

/-- The text of a text node. -/
def text? : XmlNode → Option Str
  | .pcdata text => some text
  | .cdata text => some text
  | _ => none

mutual
/-- The node without the texts of white space in it. -/
def dropBlank : XmlNode → XmlNode
  | .element name attributes children => .element name attributes (dropBlanks children)
  | n => n

def dropBlanks : List XmlNode → List XmlNode
  | [] => []
  | .pcdata text :: ns => if text.all isBlank then dropBlanks ns else .pcdata text :: dropBlanks ns
  | n :: ns => n.dropBlank :: dropBlanks ns
end

end XmlNode

/-- The library: `save` of a document with the given root element, under an indentation, and
`load_string` of a text, where it succeeds. -/
structure Pugixml where
  save : Str → XmlNode → Str
  load_string : Str → Option (List XmlNode)

/-- The document that was saved is parsed back, without the texts of white space in it; what is in front
of the root is no element. -/
def Pugixml.ParsesBack (pugi : Pugixml) (indent : Str) (root : XmlNode) : Prop :=
  pugi.save indent root ≠ [] ∧ ∃ prolog : List XmlNode, (∀ n ∈ prolog, n.name? = none) ∧
    pugi.load_string (pugi.save indent root) = some (prolog ++ [root.dropBlank])

/-! ## Export -/

section Export

variable (platform : Platform)

/-- `c_str()`. -/
def cString (s : Str) : Str := s.takeWhile fun c => c ≠ 0

/-- The tag of a child: without what follows a `#`, and never empty. -/
def tagName (name : Str) : Str :=
  let tag := (if name = [] then ascii "item" else name).takeWhile fun c => c ≠ 35
  if tag = [] then ascii "item" else tag

/-- The attribute of a child whose name begins with `@`; one without a value has none. -/
def attribute? (child : Tree) : Option (Str × Str) :=
  if child.name.head? = some 64 ∧ child.value.isNull = false then
    some (cString (child.name.drop 1), cString (child.value.toString platform))
  else none

/-- `text().set(..)`. -/
def valueText (value : Var) : List XmlNode :=
  if value.isNull then [] else [.pcdata (cString (value.toString platform))]

mutual
/-- `nodeToXmlNode`, with the element that it fills. -/
def toXml (tag : Str) : Tree → XmlNode
  | .node _ value kids =>
    .element (cString tag) (kids.filterMap (attribute? platform)) (valueText platform value ++ elementsOf kids)

def elementsOf : List Tree → List XmlNode
  | [] => []
  | child :: kids =>
    if child.name.head? = some 64 then elementsOf kids
    else toXml (tagName child.name) child :: elementsOf kids
end

/-- The root element of an export. -/
def document (node : Tree) : XmlNode := toXml platform (if node.name = [] then ascii "root" else node.name) node

def indentText (options : ExportOptions) : Str := if 0 < options.indent then ascii "  " else []

def exportTree (pugi : Pugixml) (options : ExportOptions) (node : Tree) : Str :=
  pugi.save (indentText options) (document platform node)

end Export

/-! ## Import -/

/-- The first text among the children of an element, unless it is white space, becomes the value. -/
def withText (children : List XmlNode) (node : Tree) : Tree :=
  match children.findSome? XmlNode.text? with
  | some text => if text.all isBlank then node else node.set (.string text)
  | none => node

def withAttributes (attributes : List (Str × Str)) (node : Tree) : Tree :=
  attributes.foldl (fun node attr => node.push (.node (64 :: attr.1) (.string attr.2) [])) node

mutual
/-- `xmlNodeToNode`. -/
def fromXml : XmlNode → Tree → Tree
  | .element _ attributes children, node =>
    appendElements children (withAttributes attributes (withText children node))
  | _, node => node

def appendElements : List XmlNode → Tree → Tree
  | [], node => node
  | child :: children, node =>
    match child.name? with
    | some name => appendElements children (node.push (fromXml child (.blank name)))
    | none => appendElements children node
end

/-- `importTree`; `fixHtmlToXml` is the repair that is tried when the text cannot be parsed. -/
def importTree (pugi : Pugixml) (fixHtmlToXml : Str → Str) (options : ImportOptions) (node : Tree) (xml : Str) :
    Bool × Tree :=
  if xml = [] then (false, node)
  else
    match (pugi.load_string xml).or (pugi.load_string (fixHtmlToXml xml)) with
    | none => (false, node)
    | some doc =>
      let parsed := match doc.find? fun n => n.name?.isSome with
        | some root => fromXml root (.blank (ascii "xml_import"))
        | none => .blank (ascii "xml_import")
      (true, copyTree options.auto_insert options.auto_remove options.auto_update parsed node)

/-! ## The trees that a document can say -/

def isNameStart (c : UInt8) : Bool :=
  (65 ≤ c && c ≤ 90) || (97 ≤ c && c ≤ 122) || c = 95 || c = 58 || 128 ≤ c

/-- A name of an element or an attribute. -/
def isXmlName : Str → Bool
  | [] => false
  | c :: cs => isNameStart c && cs.all fun c => isNameStart c || isDigit c || c = 45 || c = 46

/-- A string without control characters. -/
def Clean (s : Str) : Prop := ∀ c ∈ s, 0x20 ≤ c ∧ c ≠ 0x7F

instance (s : Str) : Decidable (Clean s) := List.decidableBAll (fun c => 0x20 ≤ c ∧ c ≠ 0x7F) s

/-- The value of a node that is no attribute: none, or a text that is not only white space. -/
inductive Content : Var → Prop
  | none : Content .none
  | text {s : Str} (hclean : Clean s) (hblank : s.all isBlank = false) : Content (.string s)

/-- A child that stands for an attribute. -/
inductive IsAttribute : Tree → Prop
  | intro {name s : Str} (hname : isXmlName name = true) (hclean : Clean s) :
      IsAttribute (.node (64 :: name) (.string s) [])

/-- The attributes first, under distinct names, then elements. -/
inductive Expressible : Tree → Prop
  | node {name : Str} {value : Var} {attrs elems : List Tree} (hvalue : Content value)
      (hattrs : ∀ a ∈ attrs, IsAttribute a) (hdistinct : (attrs.map Tree.name).Nodup)
      (hnames : ∀ k ∈ elems, isXmlName k.name = true) (helems : ∀ k ∈ elems, Expressible k) :
      Expressible (.node name value (attrs ++ elems))

theorem Clean.cString {s : Str} (h : Clean s) : Xml.cString s = s := by
  refine List.takeWhile_eq_self_iff.mpr fun c hc => decide_eq_true fun he => ?_
  exact absurd (h c hc).1 (by rw [he]; decide)

section Names

variable {name : Str} (h : isXmlName name = true)
include h

theorem isXmlName_ne_nil : name ≠ [] := by
  rintro rfl
  cases h

/-- No character of a name is below the space, a hash or an at sign. -/
theorem isXmlName_chars : ∀ c ∈ name, 0x20 ≤ c ∧ c ≠ 35 ∧ c ≠ 64 := by
  have hchar : ∀ c : UInt8, (isNameStart c || isDigit c || c = 45 || c = 46) = true → 0x20 ≤ c ∧ c ≠ 35 ∧ c ≠ 64 := by
    intro c hc
    simp only [isNameStart, isDigit, Bool.or_eq_true, Bool.and_eq_true, decide_eq_true_eq, UInt8.le_iff_toNat_le,
      ← UInt8.toNat_inj, UInt8.reduceToNat, ne_eq] at hc ⊢
    omega
  obtain ⟨c, cs, rfl⟩ := List.exists_cons_of_ne_nil (isXmlName_ne_nil h)
  rw [isXmlName, Bool.and_eq_true, List.all_eq_true] at h
  refine List.forall_mem_cons.mpr ⟨hchar c (by simp [h.1]), fun x hx => hchar x (h.2 x hx)⟩

theorem isXmlName_no_at : name.head? ≠ some 64 := fun he =>
  (isXmlName_chars h 64 (List.mem_of_mem_head? he)).2.2 rfl

theorem cString_name : cString name = name := by
  refine List.takeWhile_eq_self_iff.mpr fun c hc => decide_eq_true fun he => ?_
  exact absurd (isXmlName_chars h c hc).1 (by rw [he]; decide)

theorem tagName_name : tagName name = name := by
  have hne := isXmlName_ne_nil h
  have htake : name.takeWhile (fun c => c ≠ 35) = name :=
    List.takeWhile_eq_self_iff.mpr fun c hc => decide_eq_true (isXmlName_chars h c hc).2.1
  simp only [tagName, if_neg hne, htake]

end Names

/-! ## What is exported -/

variable {platform : Platform} {attrs elems : List Tree}

theorem attributes_expressible (hattrs : ∀ a ∈ attrs, IsAttribute a)
    (hnames : ∀ k ∈ elems, isXmlName k.name = true) :
    (attrs ++ elems).filterMap (attribute? platform) =
      attrs.map fun a => (a.name.drop 1, a.value.toString platform) := by
  have helem : elems.filterMap (attribute? platform) = [] := by
    rw [List.filterMap_eq_nil_iff]
    intro k hk
    rw [attribute?, if_neg fun h => isXmlName_no_at (hnames k hk) h.1]
  rw [List.filterMap_append, helem, List.append_nil]
  refine List.filterMap_eq_map_iff_forall_eq_some.mpr fun a ha => ?_
  obtain ⟨hname, hclean⟩ := hattrs a ha
  rw [attribute?, if_pos ⟨rfl, rfl⟩]
  simp [cString_name hname, hclean.cString]

theorem elementsOf_expressible (hattrs : ∀ a ∈ attrs, IsAttribute a)
    (hnames : ∀ k ∈ elems, isXmlName k.name = true) :
    elementsOf platform (attrs ++ elems) = elems.map fun k => toXml platform k.name k := by
  induction attrs with
  | nil =>
    induction elems with
    | nil => rfl
    | cons k elems ih =>
      rw [List.forall_mem_cons] at hnames
      rw [List.nil_append, elementsOf, if_neg (isXmlName_no_at hnames.1), tagName_name hnames.1, List.map_cons]
      exact congrArg _ (ih hnames.2)
  | cons a attrs ih =>
    rw [List.forall_mem_cons] at hattrs
    obtain ⟨hname, hclean⟩ := hattrs.1
    exact (if_pos rfl).trans (ih hattrs.2)

/-- The value is the only text of its element, in front of the children. -/
theorem Content.valueText_eq (platform : Platform) {value : Var} (h : Content value) : valueText platform value = [] ∧ value = .none ∨
    ∃ s, valueText platform value = [.pcdata s] ∧ value = .string s ∧ s.all isBlank = false := by
  cases h with
  | none => exact .inl ⟨rfl, rfl⟩
  | text hclean hblank =>
    refine .inr ⟨_, ?_, rfl, hblank⟩
    rw [valueText, if_neg (by simp [Var.isNull]), Var.toString_string, hclean.cString]

theorem dropBlanks_elements {ns : List XmlNode} (h : ∀ n ∈ ns, n.name?.isSome = true) :
    XmlNode.dropBlanks ns = ns.map XmlNode.dropBlank := by
  induction ns with
  | nil => rfl
  | cons n ns ih =>
    rw [List.forall_mem_cons] at h
    cases n with
    | element name attributes children => exact congrArg (_ :: ·) (ih h.2)
    | _ => cases h.1

theorem toXml_name (tag : Str) (t : Tree) : (toXml platform tag t).name? = some (cString tag) := by
  cases t
  rw [toXml]
  rfl

/-- **Nothing that is exported is white space to be left out.** -/
theorem dropBlank_toXml {t : Tree} (h : Expressible t) : ∀ tag,
    (toXml platform tag t).dropBlank = toXml platform tag t := by
  induction h with
  | @node name value attrs elems hvalue hattrs _ hnames _ ih =>
    intro tag
    have helems : XmlNode.dropBlanks (elems.map fun k => toXml platform k.name k) =
        elems.map fun k => toXml platform k.name k := by
      rw [dropBlanks_elements (List.forall_mem_map.mpr fun k _ => by rw [toXml_name]; rfl), List.map_map]
      exact List.map_congr_left fun k hk => ih k hk k.name
    rw [toXml, elementsOf_expressible hattrs hnames, XmlNode.dropBlank]
    rcases hvalue.valueText_eq platform with ⟨htext, -⟩ | ⟨s, htext, -, hblank⟩
    · rw [htext, List.nil_append, helems]
    · rw [htext, List.singleton_append, XmlNode.dropBlanks, if_neg (by simp [hblank]), helems]

/-! ## What is imported -/

theorem withText_value {value : Var} (h : Content value) {ns : List XmlNode} (hns : ∀ n ∈ ns, n.name?.isSome = true)
    (nm : Str) : withText (valueText platform value ++ ns) (.blank nm) = .node nm value [] := by
  have hnone : ns.findSome? XmlNode.text? = none := by
    refine List.findSome?_eq_none_iff.mpr fun n hn => ?_
    have := hns n hn
    cases n with
    | element => rfl
    | _ => cases this
  rcases h.valueText_eq platform with ⟨htext, rfl⟩ | ⟨s, htext, rfl, hblank⟩
  · rw [htext, List.nil_append, withText, hnone]
    rfl
  · rw [htext, withText, List.singleton_append, List.findSome?_cons_of_isSome (by rfl)]
    simp only [XmlNode.text?, hblank, Bool.false_eq_true, if_false]
    rfl

theorem withAttributes_expressible (hattrs : ∀ a ∈ attrs, IsAttribute a) (node : Tree) :
    withAttributes (attrs.map fun a => (a.name.drop 1, a.value.toString platform)) node =
      .node node.name node.value (node.kids ++ attrs) := by
  induction attrs generalizing node with
  | nil =>
    rw [List.append_nil, Tree.eta]
    rfl
  | cons a attrs ih =>
    rw [List.forall_mem_cons] at hattrs
    obtain ⟨hname, hclean⟩ := hattrs.1
    rw [List.map_cons, withAttributes, List.foldl_cons]
    refine (ih hattrs.2 _).trans ?_
    simp

theorem appendElements_map {tag : Tree → Str} {node : Tree} (hkids : ∀ k ∈ elems,
    (toXml platform (tag k) k).name? = some k.name ∧ fromXml (toXml platform (tag k) k) (.blank k.name) = k) :
    appendElements (elems.map fun k => toXml platform (tag k) k) node =
      .node node.name node.value (node.kids ++ elems) := by
  induction elems generalizing node with
  | nil => rw [List.map_nil, List.append_nil, Tree.eta]; rfl
  | cons k elems ih =>
    rw [List.forall_mem_cons] at hkids
    rw [List.map_cons, appendElements, hkids.1.1]
    simp only
    rw [ih hkids.2, hkids.1.2]
    simp

/-- A text is no element. -/
theorem appendElements_text {value : Var} (ns : List XmlNode) (node : Tree) :
    appendElements (valueText platform value ++ ns) node = appendElements ns node := by
  rw [valueText]
  split
  · rfl
  · rw [List.singleton_append, appendElements]
    rfl

/-- **An element is read as the tree that it was written for.** -/
theorem fromXml_toXml {t : Tree} (h : Expressible t) : ∀ tag nm,
    fromXml (toXml platform tag t) (.blank nm) = .node nm t.value t.kids := by
  induction h with
  | @node name value attrs elems hvalue hattrs _ hnames _ ih =>
    intro tag nm
    have hsome : ∀ n ∈ elems.map (fun k => toXml platform k.name k), n.name?.isSome = true :=
      List.forall_mem_map.mpr fun k _ => by rw [toXml_name]; rfl
    rw [toXml, attributes_expressible hattrs hnames, elementsOf_expressible hattrs hnames, fromXml,
      withText_value hvalue hsome, withAttributes_expressible hattrs, appendElements_text, appendElements_map]
    · rfl
    · intro k hk
      exact ⟨by rw [toXml_name, cString_name (hnames k hk)], by rw [ih k hk, Tree.eta]⟩

/-- **An expressible tree comes back as it was**, below the name of its root, when the library parses
back the document that it saved. -/
theorem importTree_exportTree {t : Tree} (h : Expressible t) (pugi : Pugixml) (options : ExportOptions)
    (hback : pugi.ParsesBack (indentText options) (document platform t)) (fixHtmlToXml : Str → Str)
    (ar au : Bool) (nm : Str) :
    importTree pugi fixHtmlToXml ⟨true, ar, au⟩ (.blank nm) (exportTree platform pugi options t) =
      (true, .node nm t.value t.kids) := by
  obtain ⟨hne, prolog, hprolog, hload⟩ := hback
  have hdrop : (document platform t).dropBlank = document platform t := dropBlank_toXml h _
  have hroot : (prolog ++ [document platform t]).find? (fun n => n.name?.isSome) = some (document platform t) := by
    rw [List.find?_append, List.find?_eq_none.mpr fun n hn => by rw [hprolog n hn]; exact Bool.false_ne_true]
    have : (document platform t).name?.isSome = true := by
      rw [document, toXml_name]
      rfl
    simp [this]
  have hparsed : fromXml (document platform t) (.blank (ascii "xml_import")) =
      .node (ascii "xml_import") t.value t.kids := fromXml_toXml h _ _
  rw [exportTree, importTree, if_neg hne, hload, hdrop]
  simp only [Option.or, hroot, hparsed]
  exact congrArg (true, ·) (copyTree_blank ar au _ nm)

/-! ## The documents that are saved -/

/-- An element with proper names and clean texts, the text in front of the elements in it. -/
inductive XmlNode.WellFormed : XmlNode → Prop
  | pcdata {text : Str} (hclean : Clean text) : WellFormed (.pcdata text)
  | element {name : Str} {attributes : List (Str × Str)} {children : List XmlNode}
      (hname : isXmlName name = true) (hattrs : ∀ a ∈ attributes, isXmlName a.1 = true ∧ Clean a.2)
      (hdistinct : (attributes.map Prod.fst).Nodup) (hchildren : ∀ n ∈ children, WellFormed n)
      (hmixed : ∀ n ∈ children.drop 1, n.name?.isSome = true) : WellFormed (.element name attributes children)

/-- What is relied on: well-formed documents are parsed back. -/
def Pugixml.Lawful (pugi : Pugixml) : Prop :=
  ∀ indent root, indent.all isBlank = true → root.WellFormed → pugi.ParsesBack indent root

/-- What an expressible tree is saved as is well-formed. -/
theorem toXml_wellFormed {t : Tree} (h : Expressible t) : ∀ tag, isXmlName tag = true →
    (toXml platform tag t).WellFormed := by
  induction h with
  | @node name value attrs elems hvalue hattrs hdistinct hnames _ ih =>
    intro tag htag
    have hkids : ∀ n ∈ elems.map (fun k => toXml platform k.name k), n.WellFormed :=
      List.forall_mem_map.mpr fun k hk => ih k hk k.name (hnames k hk)
    have hsome : ∀ n ∈ elems.map (fun k => toXml platform k.name k), n.name?.isSome = true :=
      List.forall_mem_map.mpr fun k _ => by rw [toXml_name]; rfl
    rw [toXml, attributes_expressible hattrs hnames, elementsOf_expressible hattrs hnames, cString_name htag]
    refine .element htag ?_ ?_ ?_ ?_
    · refine List.forall_mem_map.mpr fun a ha => ?_
      obtain ⟨hname, hclean⟩ := hattrs a ha
      exact ⟨hname, by simpa using hclean⟩
    · have hat : attrs.map Tree.name = (attrs.map fun a => a.name.drop 1).map (64 :: ·) := by
        rw [List.map_map]
        refine List.map_congr_left fun a ha => ?_
        obtain ⟨hname, hclean⟩ := hattrs a ha
        rfl
      rw [hat] at hdistinct
      rw [List.map_map]
      exact hdistinct.of_map
    · rcases hvalue.valueText_eq platform with ⟨htext, -⟩ | ⟨s, htext, rfl, -⟩
      · rw [htext]
        exact hkids
      · cases hvalue with
        | text hclean _ =>
          rw [htext]
          exact List.forall_mem_cons.mpr ⟨.pcdata hclean, hkids⟩
    · rcases hvalue.valueText_eq platform with ⟨htext, -⟩ | ⟨s, htext, -, -⟩
      · rw [htext]
        exact fun n hn => hsome n (List.mem_of_mem_drop hn)
      · rw [htext]
        exact hsome

theorem Pugixml.Lawful.parsesBack {pugi : Pugixml} (hl : pugi.Lawful) {t : Tree} (h : Expressible t)
    (hroot : t.name = [] ∨ isXmlName t.name = true) (options : ExportOptions) :
    pugi.ParsesBack (indentText options) (document platform t) := by
  refine hl _ _ (by unfold indentText; split <;> decide) (toXml_wellFormed h _ ?_)
  split
  · decide
  · rename_i hne
    exact hroot.resolve_left hne

/-! ## A mixed tree -/

def mixed : Tree :=
  .node (ascii "r") (.string (ascii "hi"))
    ([.node (64 :: ascii "id") (.string (ascii "1")) []] ++ [.node (ascii "b") .none ([] ++ [])])

def mixedText : Str := ascii "<?xml version=\"1.0\"?>\n<r id=\"1\">hi<b />\n</r>\n"

/-- The library, on that text. -/
def mixedPugi : Pugixml where
  save _ _ := mixedText
  load_string text :=
    if text = mixedText then
      some [.other (ascii "xml"),
        .element (ascii "r") [(ascii "id", ascii "1")] [.pcdata (ascii "hi"), .element (ascii "b") [] []]]
    else none

theorem mixed_expressible : Expressible mixed := by
  refine .node (.text (by decide) (by decide)) ?_ (by decide) ?_ ?_
  · intro a ha
    rw [List.mem_singleton.mp ha]
    exact .intro (by decide) (by decide)
  · intro k hk
    rw [List.mem_singleton.mp hk]
    decide
  · intro k hk
    rw [List.mem_singleton.mp hk]
    exact .node .none (by simp) (by decide) (by simp) (by simp)

theorem importTree_exportTree_sample :
    importTree mixedPugi id .default (.blank (ascii "n"))
      (exportTree ⟨fun _ => [], fun _ => [], fun _ => 0, fun _ => 0⟩ mixedPugi .default mixed) =
      (true, .node (ascii "n") mixed.value mixed.kids) := by
  refine importTree_exportTree mixed_expressible mixedPugi .default
    ⟨fun h => (by cases h), [.other (ascii "xml")], ?_, ?_⟩ id false false (ascii "n")
  · intro n hn
    rw [List.mem_singleton.mp hn]
    rfl
  · rw [document, dropBlank_toXml mixed_expressible]
    rfl

end Xml

end VersatileEngine
