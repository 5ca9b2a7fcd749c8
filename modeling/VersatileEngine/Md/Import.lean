import VersatileEngine.Lib.Lines
import VersatileEngine.Node.Edit

/-!
# VersatileEngine.Md.Import

The import of `md.cpp`: a Markdown text line by line.

* `parseHeadingLine`, `isInsideCodeFence` — what one line is.
* `Importer`   — the locals of `importDirect`. The source keeps pointers into the tree it builds; only
  the nodes on the level stack are touched, and each is the last child of the one below, so here the
  stack holds the nodes themselves and a popped node goes to its parent.
* `importTree` — the node after the call, and what the call returns.
-/

namespace VersatileEngine

namespace Md

/-- The bytes that `cleanHeadingText` leaves out: `* _` and the backtick, brackets, parentheses, `#`
and the backslash. -/
def isMarkup (c : UInt8) : Bool := c ∈ [42, 95, 96, 91, 93, 40, 41, 35, 92]

/-- The bytes that it makes spaces of: `/ | < > : " ?` and tab, return, newline. -/
def isSeparator (c : UInt8) : Bool := c ∈ [47, 124, 60, 62, 58, 34, 63, 9, 13, 10]

def cleanHeadingText (text : Str) : Str :=
  let result := (text.filter fun c => !isMarkup c).map fun c => if isSeparator c then 32 else c
  (result.dropWhile fun c => c = 32).rdropWhile fun c => c = 32

structure HeadingLine where
  level : Nat
  rawTitle : Str
  cleanTitle : Str
deriving DecidableEq

/-- Space and tab. -/
def isBlank (c : UInt8) : Bool := c = 32 || c = 9

/-- At most `n` bytes that satisfy `p` are skipped. -/
def skip (p : UInt8 → Bool) : Nat → Str → Str
  | n + 1, c :: s => if p c then skip p n s else c :: s
  | _, s => s

/-- A title without what follows it: a closing run of `#` after a blank, and blanks. -/
def stripClosing (title : Str) : Str :=
  match title.rdropWhile isBlank with
  | [] => []
  | c :: s =>
    let untilHash := c :: s.rdropWhile fun c => c = 35
    if untilHash.length < (c :: s).length ∧ isBlank (untilHash.getLastD 0) then untilHash.rdropWhile isBlank
    else c :: s

def parseHeadingLine (line : Str) : Option HeadingLine :=
  let s := skip (fun c => c = 32) 3 line
  let level := (s.takeWhile fun c => c = 35).length
  let rest := s.dropWhile fun c => c = 35
  if level < 1 ∨ 6 < level then none
  else if rest ≠ [] ∧ !isBlank (rest.headD 0) then none
  else
    let title := stripClosing (rest.dropWhile isBlank)
    some ⟨level, title, cleanHeadingText title⟩

/-- The run of backticks or tildes that a line starts with. -/
def fenceRun (line : Str) : Str :=
  match skip isBlank 3 line with
  | [] => []
  | c :: s => if c = 96 || c = 126 then (c :: s).takeWhile fun x => x = c else []

/-- Whether the line after this one is in a fence, and the marker that closes it. -/
def isInsideCodeFence (line : Str) (currentlyInFence : Bool) (fenceMarker : Str) : Bool × Str :=
  let run := fenceRun line
  if run.length < 3 then (currentlyInFence, fenceMarker)
  else if !currentlyInFence then (true, run)
  else if run.headD 0 = fenceMarker.headD 0 ∧ fenceMarker.length ≤ run.length then (false, [])
  else (true, fenceMarker)

/-- Space, tab, return and newline. -/
def isWhite (c : UInt8) : Bool := c = 32 || c = 9 || c = 13 || c = 10

def trimTrailingWhitespace (s : Str) : Str := s.rdropWhile isWhite

def flushContent (target : Tree) (content : Str) : Tree :=
  let trimmed := trimTrailingWhitespace content
  if trimmed.isEmpty then target else target.set (.string trimmed)

structure StackEntry where
  node : Tree
  level : Nat

/-- The entry popped from above goes to the end of its parent. -/
def StackEntry.adopt (parent child : StackEntry) : StackEntry :=
  { parent with node := parent.node.push child.node }

/-- The stack, from its top, is popped down to a level below `level`, or to the root. -/
def popTo (level : Nat) : StackEntry → List StackEntry → StackEntry × List StackEntry
  | top, [] => (top, [])
  | top, parent :: below =>
    if level ≤ top.level then popTo level (parent.adopt top) below else (top, parent :: below)

/-- The root, when nothing more is added. -/
def close : StackEntry → List StackEntry → Tree
  | top, [] => top.node
  | top, parent :: below => close (parent.adopt top) below

/-- The node of a heading under a parent of level `parentLevel`. -/
def headingNode (heading : HeadingLine) (parentLevel : Nat) : Tree :=
  let node := Tree.blank heading.cleanTitle
  let node :=
    if heading.cleanTitle ≠ heading.rawTitle then
      node.push ((Tree.blank (ascii "_title")).set (.string heading.rawTitle))
    else node
  if heading.level ≠ parentLevel + 1 then
    node.push ((Tree.blank (ascii "_level")).set (.int (Int64.ofNat heading.level)))
  else node

/-- `currentNode` is always the top of the stack. -/
structure Importer where
  top : StackEntry
  below : List StackEntry
  contentBuf : Str
  inCodeFence : Bool
  fenceMarker : Str

def Importer.heading (s : Importer) (heading : HeadingLine) : Importer :=
  let (parent, below) :=
    popTo heading.level { s.top with node := flushContent s.top.node s.contentBuf } s.below
  { s with
    top := ⟨headingNode heading parent.level, heading.level⟩
    below := parent :: below
    contentBuf := [] }

/-- One round of the loop. -/
def Importer.line (s : Importer) (line : Str) : Importer :=
  let (inCodeFence, fenceMarker) := isInsideCodeFence line s.inCodeFence s.fenceMarker
  let next := { s with inCodeFence := inCodeFence, fenceMarker := fenceMarker }
  let content := { next with contentBuf := s.contentBuf ++ line ++ [10] }
  if s.inCodeFence || inCodeFence then content
  else
    match parseHeadingLine line with
    | some heading => next.heading heading
    | none => content

/-- A return at the end of the line goes. -/
def dropReturn (line : Str) : Str := if line.getLastD 0 = 13 then line.dropLast else line

def Importer.finish (s : Importer) : Tree :=
  close { s.top with node := flushContent s.top.node s.contentBuf } s.below

def importDirect (root : Tree) (md : Str) : Tree :=
  (((getlines md).map dropReturn).foldl Importer.line ⟨⟨root, 0⟩, [], [], false, []⟩).finish

def importTree (node : Tree) (md : Str) : Tree × Bool :=
  if md.isEmpty then (node, false) else (importDirect node md, true)

end Md

end VersatileEngine
