import VersatileEngine.Core.Text
import VersatileEngine.Node.Edit

/-!
# VersatileEngine.Md.Export

The export of `md.cpp`: a tree as a Markdown text.

* `exportNodeRecursive` — a node under a heading of level `parentLevel`: heading, content, an empty
  line, children.
* `exportTree` — the content of the root, then its children.
-/

namespace VersatileEngine

namespace Md

def stripNodeNameSuffix (name : Str) : Str := name.takeWhile fun c => c ≠ 35

/-- The first child of a name: `find` of a name without a slash. -/
def findChild (nm : Str) (kids : List Tree) : Option Tree := kids.find? fun k => k.name = nm

section Export

variable (platform : Platform)

def actualLevel (parentLevel : Int) (kids : List Tree) : Int :=
  let level :=
    match findChild (ascii "_level") kids with
    | some levelNode => levelNode.value.toInt platform (parentLevel + 1)
    | none => parentLevel + 1
  min level 6

def titleOf (name : Str) (kids : List Tree) : Str :=
  match findChild (ascii "_title") kids with
  | some titleNode => titleNode.value.toString platform
  | none => stripNodeNameSuffix name

/-- The content with a newline at its end. -/
def contentText (content : Str) : Str :=
  if content.isEmpty then []
  else if content.getLastD 0 = 10 then content
  else content ++ [10]

/-- Children whose name starts with an underscore are about the node itself. -/
def isMeta (k : Tree) : Bool := k.name.headD 0 = 95

def headingText (level : Int) (title : Str) : Str :=
  if 0 < level ∧ title ≠ [] then List.replicate level.toNat 35 ++ 32 :: title ++ [10] else []

mutual
def exportNodeRecursive (parentLevel : Int) : Tree → Str
  | .node name value kids =>
    let level := actualLevel platform parentLevel kids
    headingText level (titleOf platform name kids) ++
      (if value.isNull then [] else contentText (value.toString platform)) ++
      (if 0 < level then [10] else []) ++ exportChildren level kids

def exportChildren (parentLevel : Int) : List Tree → Str
  | [] => []
  | child :: kids =>
    (if isMeta child then [] else exportNodeRecursive parentLevel child) ++
      exportChildren parentLevel kids
end

def exportTree (node : Tree) : Str :=
  let preamble :=
    if !node.value.isNull && (findChild (ascii "_level") node.kids).isNone then
      contentText (node.value.toString platform)
    else []
  (if preamble.isEmpty then [] else preamble ++ [10]) ++ exportChildren platform 0 node.kids

end Export

end Md

end VersatileEngine
