import VersatileEngine.Node.Basic

/-!
# VersatileEngine.Node.Access

The read-only interface of `ve::Node`: children by index and by name, positions, keys.

Keys: `name`, `name#N`, `#N`. `parseKey` reads the digits into an `int`, so a number from `2^31` on
wraps; `toKey` writes them with `std::to_chars`.
-/

namespace VersatileEngine

namespace Forest

/-- `Node::child(int)`: a negative index counts from the end. -/
def child (f : Forest) (this : Id) (index : Int) : Option Id :=
  match (f.node this).children with
  | none => none
  | some ch =>
    let index := if index < 0 then index + ch.nodes.length else index
    if index < 0 ∨ (ch.nodes.length : Int) ≤ index then none else nodeAt ch.nodes index

/-- `Node::child(name, overlap)`. -/
def childNamed (f : Forest) (this : Id) (name : Str) (overlap : Int) : Option Id :=
  if name = [] then f.child this overlap
  else
    match (f.node this).children with
    | none => none
    | some ch =>
      if overlap < 0 then none
      else
        match ch.indices name with
        | some iv => nodeAt ch.nodes (iv.getD overlap.toNat (-1))
        | none => none

/-- The outward search `guess-1, guess+1, guess-2, ..` with `k` distances left to try. -/
def expandOutward (nodes : List Id) (c : Id) (guess : Int) : Nat → Int → Int
  | 0, _ => -1
  | k + 1, d =>
    let lo := guess - d
    let hi := guess + d
    if 0 ≤ lo ∧ nodeAt nodes lo = some c then lo
    else if hi < nodes.length ∧ nodeAt nodes hi = some c then hi
    else if lo < 0 ∧ (nodes.length : Int) ≤ hi then -1
    else expandOutward nodes c guess k (d + 1)

/-- The plain forward scan, from position `i` on. -/
def forwardScan (c : Id) : Int → List Id → Int
  | _, [] => -1
  | i, n :: ns => if n = c then i else forwardScan c (i + 1) ns

/-- `Node::indexOf(child_node, guess)`. -/
def indexOf (f : Forest) (this : Id) (childNode : Option Id) (guess : Int) : Int :=
  match childNode, (f.node this).children with
  | some c, some ch =>
    if f.name c ≠ [] then
      match ch.indices (f.name c) with
      | some iv => (iv.find? fun i => nodeAt ch.nodes i = some c).getD (-1)
      | none => -1
    else if 0 ≤ guess ∧ guess < ch.nodes.length then
      if nodeAt ch.nodes guess = some c then guess
      else expandOutward ch.nodes c guess (ch.nodes.length - 1) 1
    else forwardScan c 0 ch.nodes
  | _, _ => -1

def count (f : Forest) (this : Id) : Int :=
  match (f.node this).children with
  | none => 0
  | some ch => ch.nodes.length

def countNamed (f : Forest) (this : Id) (name : Str) : Int :=
  if name = [] then f.count this
  else
    match (f.node this).children with
    | none => 0
    | some ch =>
      match ch.indices name with
      | some iv => iv.length
      | none => 0

def childList (f : Forest) (this : Id) : List Id :=
  match (f.node this).children with
  | none => []
  | some ch => ch.nodes

/-- `Node::children(name)`; a position without a child would be a null entry. -/
def childrenNamed (f : Forest) (this : Id) (name : Str) : List (Option Id) :=
  if name = [] then (f.childList this).map some
  else
    match (f.node this).children with
    | none => []
    | some ch =>
      match ch.indices name with
      | some iv => iv.map fun i => nodeAt ch.nodes i
      | none => []

/-- `Node::isAncestorOf`, with a bound on the number of links followed. -/
def isAncestorOf (f : Forest) (this : Id) : Nat → Id → Option Bool
  | 0, _ => none
  | k + 1, d =>
    match f.parent d with
    | none => some false
    | some p => if p = this then some true else f.isAncestorOf this k p

end Forest

/-! ## Keys -/

/-- The text before and after the last `sep`. -/
def rsplit (sep : UInt8) : Str → Option (Str × Str)
  | [] => none
  | c :: cs =>
    match rsplit sep cs with
    | some (before, after) => some (c :: before, after)
    | none => if c = sep then some ([], cs) else none

theorem rsplit_eq_none {sep : UInt8} {s : Str} (h : rsplit sep s = none) : sep ∉ s := by
  induction s with
  | nil => simp
  | cons c s ih =>
    rw [rsplit] at h
    split at h
    · cases h
    · next hs =>
      split_ifs at h with hc
      simpa [Ne.symm hc] using ih hs

theorem rsplit_spec {sep : UInt8} {s before after : Str} (h : rsplit sep s = some (before, after)) :
    s = before ++ sep :: after ∧ sep ∉ after := by
  induction s generalizing before with
  | nil => cases h
  | cons c s ih =>
    rw [rsplit] at h
    split at h
    · next b a hs =>
      cases h
      obtain ⟨rfl, hafter⟩ := ih hs
      exact ⟨rfl, hafter⟩
    · next hs =>
      split_ifs at h with hc
      cases h
      exact ⟨by rw [hc]; rfl, rsplit_eq_none hs⟩

/-- `Node::parseKey`: `none` is the return value `false`. -/
def parseKey (sep : UInt8) (key : Str) : Option (Str × Int) :=
  if key = [] then none
  else
    match rsplit sep key with
    | none => some (key, 0)
    | some (name, digits) =>
      if digits = [] then some (name, 0)
      else if digits.all isDigit then some (name, digitsVal32 0 digits)
      else none

/-- `Node::toKey`. -/
def toKey (sep : UInt8) (name : Str) (index : Int) : Str :=
  if name = [] then sep :: intChars index
  else if index < 0 then name
  else name ++ sep :: intChars index

def keyIndex (sep : UInt8) (key : Str) : Int :=
  match parseKey sep key with
  | some (_, i) => i
  | none => -1

/-- `Node::isName`: not empty, no separator. -/
def isName (name : Str) : Bool := name ≠ [] && !name.contains pathSep && !name.contains keySep

/-- `Node::keyOf(child, guess)`. -/
def Forest.keyOf (f : Forest) (this : Id) (child : Option Id) (guess : Int) : Str :=
  match child, (f.node this).children with
  | some c, some ch =>
    let gi := f.indexOf this child guess
    if gi < 0 then []
    else if f.name c = [] then toKey keySep [] gi
    else
      match ch.indices (f.name c) with
      | none => f.name c
      | some iv =>
        if iv.length ≤ 1 then f.name c
        else
          match iv.findIdx? fun i => i = gi with
          | some k => toKey keySep (f.name c) k
          | none => f.name c
  | _, _ => []

end VersatileEngine
