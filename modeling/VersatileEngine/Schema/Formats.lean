import VersatileEngine.Bin.Tree
import VersatileEngine.Json.OnDemand
import VersatileEngine.Json.Stringify
import VersatileEngine.Md.Export
import VersatileEngine.Md.Import

/-!
# VersatileEngine.Schema.Formats

The runtime format registry of `schema.cpp`: handlers under names, and the four built-in formats.

* `builtinFormats` — what `BuiltinFormatRegistrar` registers. The `bin` handlers export hexadecimal
  text and import raw bytes.
* `bin_trip`       — what comes of that: every text begins with an `8`, which is a small number in
  MessagePack, and a number leaves the node as it was.
* `format_trip`    — a format brings back what its own pair of functions brings back, unless it is `bin`.
-/

namespace VersatileEngine

/-- The two functions of a format on text; `none` stands for an exception. -/
structure SchemaFormatHandler where
  exportFn : Tree → Option Str
  importFn : Tree → Str → Option (Bool × Tree)

/-- `formatRegistry()`: the handlers by name. -/
abbrev FormatRegistry := Str → Option SchemaFormatHandler

def registerSchemaFormat (name : Str) (handler : SchemaFormatHandler) (registry : FormatRegistry) :
    FormatRegistry := Function.update registry name (some handler)

def exportSchemaFormat (registry : FormatRegistry) (name : Str) (node : Tree) : Option Str :=
  match registry name with
  | none => some []
  | some handler => handler.exportFn node

def importSchemaFormat (registry : FormatRegistry) (name : Str) (node : Tree) (data : Str) :
    Option (Bool × Tree) :=
  match registry name with
  | none => some (false, node)
  | some handler => handler.importFn node data

inductive BuiltinFormat where
  | json | xml | md | bin
deriving DecidableEq

def BuiltinFormat.name : BuiltinFormat → Str
  | .json => ascii "json"
  | .xml => ascii "xml"
  | .md => ascii "md"
  | .bin => ascii "bin"

section Builtin

variable (simdjson : Simdjson) (platform : Platform) (xmlPair : SchemaFormatHandler)

/-- What is registered for a format. The `xml` functions stand for `impl/xml.cpp`. -/
def BuiltinFormat.handler : BuiltinFormat → SchemaFormatHandler
  | .json => ⟨JsonS.exportTree .default, JsonS.importTree simdjson .default⟩
  | .xml => xmlPair
  | .md => ⟨fun n => some (Md.exportTree platform n), fun n d => some (Md.importTree n d).swap⟩
  | .bin => ⟨fun n => some (hexText (Bin.exportTree .default n)),
      fun n d => some (Bin.importTree .default n d).swap⟩

/-- `BuiltinFormatRegistrar`, over the empty registry. -/
def builtinFormats : FormatRegistry :=
  let handler := BuiltinFormat.handler simdjson platform xmlPair
  registerSchemaFormat (ascii "bin") (handler .bin) <|
    registerSchemaFormat (ascii "md") (handler .md) <|
      registerSchemaFormat (ascii "xml") (handler .xml) <|
        registerSchemaFormat (ascii "json") (handler .json) fun _ => none

/-- A tree through `exportSchemaFormat` and `importSchemaFormat`, into a fresh node. -/
def registryTrip (f : BuiltinFormat) (nm : Str) (t : Tree) : Option (Bool × Tree) :=
  let registry := builtinFormats simdjson platform xmlPair
  (exportSchemaFormat registry f.name t).bind (importSchemaFormat registry f.name (.blank nm))

/-- A tree through the `exportTree` and `importTree` of the format itself: bytes stay bytes. -/
def pairTrip (f : BuiltinFormat) (nm : Str) (t : Tree) : Option (Bool × Tree) :=
  match f with
  | .bin => some (Bin.importTree .default (.blank nm) (Bin.exportTree .default t)).swap
  | f =>
    let handler := f.handler simdjson platform xmlPair
    (handler.exportFn t).bind (handler.importFn (.blank nm))

variable {simdjson platform xmlPair}

theorem builtinFormats_name (f : BuiltinFormat) :
    builtinFormats simdjson platform xmlPair f.name = some (f.handler simdjson platform xmlPair) := by
  cases f <;> rfl

theorem registryTrip_eq (f : BuiltinFormat) (nm : Str) (t : Tree) :
    registryTrip simdjson platform xmlPair f nm t =
      ((f.handler simdjson platform xmlPair).exportFn t).bind
        ((f.handler simdjson platform xmlPair).importFn (.blank nm)) := by
  have himport : importSchemaFormat (builtinFormats simdjson platform xmlPair) f.name (.blank nm) =
      (f.handler simdjson platform xmlPair).importFn (.blank nm) := by
    funext data
    rw [importSchemaFormat, builtinFormats_name]
  simp only [registryTrip, exportSchemaFormat, builtinFormats_name, himport]

theorem registryTrip_pair {f : BuiltinFormat} (hf : f ≠ .bin) (nm : Str) (t : Tree) :
    registryTrip simdjson platform xmlPair f nm t = pairTrip simdjson platform xmlPair f nm t := by
  rw [registryTrip_eq]
  cases f with
  | bin => exact absurd rfl hf
  | json => rfl
  | xml => rfl
  | md => rfl

/-- A packed node begins with the header of a map of at most two entries. -/
theorem exportTree_head (t : Tree) : ∃ n rest, n ≤ 2 ∧
    Bin.exportTree .default t = UInt8.ofNat (0x80 + n) :: rest := by
  obtain ⟨nm, v, kids⟩ := t
  obtain ⟨n, hn, hpack⟩ : ∃ n ≤ 2, ∃ rest, packNode .default (.node nm v kids) = MsgPack.packMap n ++ rest := by
    refine ⟨_, ?_, _, packNode_fields nm v kids⟩
    unfold nodeFields
    split <;> split <;> simp
  obtain ⟨rest, hrest⟩ := hpack
  refine ⟨n, rest, hn, ?_⟩
  rw [Bin.exportTree, hrest, MsgPack.packMap, if_pos (by omega)]
  rfl

theorem hexText_head {n : Nat} (h : n ≤ 2) (rest : List UInt8) :
    ∃ text, hexText (UInt8.ofNat (0x80 + n) :: rest) = 0x38 :: text := by
  have hhead : hexDigit ((UInt8.ofNat (0x80 + n)).toNat / 16) = 0x38 := by
    have : ∀ n ≤ 2, hexDigit ((UInt8.ofNat (0x80 + n)).toNat / 16) = 0x38 := by decide
    exact this n h
  rw [hexText, List.flatMap_cons, hhead]
  exact ⟨_, rfl⟩

theorem unpack_eight (text : Str) : MsgPack.unpack (0x38 :: text) =
    .ok (.positiveInteger 0x38, text) := rfl

/-- **The `bin` handlers**: the import succeeds and leaves a fresh node as it is. -/
theorem bin_trip (nm : Str) (t : Tree) :
    registryTrip simdjson platform xmlPair .bin nm t = some (true, .blank nm) := by
  obtain ⟨n, rest, hn, hbytes⟩ := exportTree_head t
  obtain ⟨text, htext⟩ := hexText_head hn rest
  rw [registryTrip_eq]
  simp only [BuiltinFormat.handler, Option.bind_some, hbytes, htext, Bin.importTree, unpack_eight]
  exact congrArg (fun t => some (true, t)) (copyTree_blank _ _ _ nm)

/-- **The format registry**: a tree that the pair of functions of a format brings back is brought back
through the registry exactly when the format is not `bin`, or the tree is empty. -/
theorem format_trip (f : BuiltinFormat) {nm : Str} {t : Tree}
    (h : pairTrip simdjson platform xmlPair f nm t = some (true, .node nm t.value t.kids)) :
    registryTrip simdjson platform xmlPair f nm t = pairTrip simdjson platform xmlPair f nm t ↔
      f ≠ .bin ∨ t.value = .none ∧ t.kids = [] := by
  by_cases hf : f = .bin
  · subst hf
    rw [bin_trip, h, Option.some_inj, Prod.mk.injEq, Tree.blank, Tree.node.injEq]
    exact ⟨fun ⟨_, _, hv, hk⟩ => .inr ⟨hv.symm, hk.symm⟩,
      fun hb => ⟨rfl, rfl, (hb.resolve_left (fun hne => hne rfl)).1.symm,
        (hb.resolve_left (fun hne => hne rfl)).2.symm⟩⟩
  · exact ⟨fun _ => .inl hf, fun _ => registryTrip_pair hf nm t⟩

end Builtin

section Sample

/-- A reader of JSON, a platform and a pair for `xml` for the examples. -/
def sampleTrip (trip : Simdjson → Platform → SchemaFormatHandler → BuiltinFormat → Str → Tree →
    Option (Bool × Tree)) : BuiltinFormat → Str → Tree → Option (Bool × Tree) :=
  trip (Simdjson.reference fun _ => none) ⟨fun _ => [], fun _ => [], fun _ => 0, fun _ => 0⟩
    ⟨fun _ => some [], fun n _ => some (false, n)⟩

/-- A heading with content. -/
def noted : Tree := .node [] .none [.node (ascii "a") (.string (ascii "text")) []]

theorem format_trip_sample :
    sampleTrip registryTrip .md (ascii "f") noted = sampleTrip pairTrip .md (ascii "f") noted ↔
      BuiltinFormat.md ≠ .bin ∨ noted.value = .none ∧ noted.kids = [] :=
  format_trip .md rfl

/-- A node with a number, exported as hexadecimal text, comes back empty. -/
theorem bin_not_inverse : ¬ ∀ (f : BuiltinFormat) (nm : Str) (t : Tree),
    sampleTrip pairTrip f nm t = some (true, .node nm t.value t.kids) →
      sampleTrip registryTrip f nm t = sampleTrip pairTrip f nm t := by
  intro h
  have hfits : Tree.Fits MsgPack.depthLimit (.node [] (.int 5) []) :=
    .node (n := 0xfffffffe) (m := 0) (.int _) (.int _) (by decide) (by simp) (fun h => absurd rfl h)
      (by simp)
  have hpair : sampleTrip pairTrip .bin [] (.node [] (.int 5) []) =
      some (true, .node [] (.int 5) []) := by
    have hread := (encodes_packNode hfits).unpack (Nat.le_refl _) []
    have hne : (packNode .default (.node [] (.int 5) [])).isEmpty = false := by decide +kernel
    rw [List.append_nil] at hread
    simp only [sampleTrip, pairTrip, Bin.importTree, Bin.exportTree, hne, hread,
      unpackNode_nodeObject hfits]
    exact congrArg (fun t => some (true, t)) (copyTree_blank _ _ _ [])
  have htrip := (h .bin [] (.node [] (.int 5) []) hpair).trans hpair
  rw [sampleTrip, bin_trip] at htrip
  cases htrip

end Sample

end VersatileEngine
