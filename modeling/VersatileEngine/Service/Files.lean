import Mathlib.Data.List.DropRight
import VersatileEngine.Lib.Decimal
import VersatileEngine.Lib.Paths

/-!
# VersatileEngine.Service.Files

The commands `save` and `load` of the server module, as far as they go to the file system.

* `save`, `load`    — what they touch, in order, and the result; the environment answers.
* `Reaches`         — no check before the file stops the command.
* `LeadsInside`     — where the argument leads to, by its own components and those of the data directory.
* `files_contained_iff` — **a command that comes to the file system stays in the data directory exactly where
  the argument leads inside**.
-/

namespace VersatileEngine

namespace ServerModule

/-- What is asked of the file system. -/
inductive Touch where
  | pathExists (path : Str)
  | createDirectories (path : Str)
  | write (path content : Str)
  | read (path : Str)
deriving DecidableEq, Repr

structure Outcome where
  touched : List Touch
  ok : Bool
  text : Str
deriving DecidableEq, Repr

/-- The answers of the node tree, the formats and the file system. `exportAs` is `none` for a format that is not
known, so is `importAs`; the latter says whether the content is valid. -/
structure Around where
  formats : List Str
  find : Str → Bool
  exportAs : Str → Option Str
  importAs : Str → Option (Str → Bool)
  pathExists : Str → Bool
  createDirectories : Str → Option Str
  write : Str → Bool
  read : Str → Option Str

/-- What the commands are given: the format, the path of the node, the file and, for `load`, the content. -/
structure FileArgs where
  format : Str
  path : Str
  file : Str
  inline : Str

/-- `fs::path(data_root) / file`. -/
def filepath (dataRoot file : Str) : Str := Paths.join 47 dataRoot file

/-- `filepath.parent_path()`. -/
def parentPath (path : Str) : Str :=
  let dir := path.rdropWhile (· ≠ 47)
  let stripped := dir.rdropWhile (· = 47)
  if stripped = [] then dir.take 1 else stripped

def failed (touched : List Touch) (text : Str) : Outcome := ⟨touched, false, text⟩

section Commands

variable (env : Around) (dataRoot : Str) (a : FileArgs)

/-- `bin` without a file: sixteen bytes a line, each in two digits. -/
def hexDump (bytes : Str) : Str :=
  (bytes.zipIdx.flatMap fun (b, i) =>
    (if i = 0 then [] else if i % 16 = 0 then [10] else [32]) ++ [hexDigit (b.toNat / 16), hexDigit (b.toNat % 16)]) ++
    ascii "\n(" ++ natChars bytes.length ++ ascii " bytes)"

/-- The end of `save`: the file, below directories that are made if they are not there. -/
def writeFile (content : Str) : Outcome :=
  let path := filepath dataRoot a.file
  let parent := parentPath path
  let asked : List Touch := if parent = [] then [] else [.pathExists parent]
  let missing : Bool := parent ≠ [] && !env.pathExists parent
  let made : List Touch := if missing then [.createDirectories parent] else []
  match (if missing then env.createDirectories parent else none) with
  | some error => failed (asked ++ made) (ascii "Failed to create directory: " ++ error)
  | none =>
    let touched := asked ++ made ++ [.write path content]
    if !env.write path then failed touched (ascii "Cannot write: " ++ path)
    else ⟨touched, true, ascii "Saved to " ++ a.file ++
      if a.format = ascii "bin" then ascii " (" ++ natChars content.length ++ ascii " bytes)" else []⟩

def save : Outcome :=
  if a.format = [] then
    failed [] (ascii "available formats: json, xml, bin, var" ++ env.formats.flatMap fun nm => ascii ", " ++ nm)
  else if a.path ≠ [] ∧ !env.find a.path then failed [] (ascii "Node not found: " ++ a.path)
  else
    match env.exportAs a.format with
    | none => failed [] (ascii "Unknown format: " ++ a.format)
    | some content =>
      if a.file = [] then ⟨[], true, if a.format = ascii "bin" then hexDump content else content⟩
      else writeFile env dataRoot a content

/-- The end of `load`: the content under its format. -/
def importContent (touched : List Touch) (content : Str) : Outcome :=
  match env.importAs a.format with
  | none => failed touched (ascii "Unknown format: " ++ a.format)
  | some valid =>
    if valid content then ⟨touched, true, if a.file = [] then ascii "Imported" else ascii "Imported from " ++ a.file⟩
    else failed touched (ascii "Import failed (invalid " ++ a.format ++ ascii ")")

def load : Outcome :=
  if a.format = [] then failed [] (ascii "Usage: load <format> [path] [-f file] [-i data]")
  else if a.file ≠ [] then
    let path := filepath dataRoot a.file
    match env.read path with
    | none => failed [.read path] (ascii "Cannot read: " ++ path)
    | some content => importContent env a [.read path] content
  else if a.inline ≠ [] then importContent env a [] a.inline
  else failed [] (ascii "Usage: load <format> [path] -f <file> | -i <data>")

end Commands

inductive FileCommand where
  | save
  | load
deriving DecidableEq, Repr

def FileCommand.run (env : Around) (dataRoot : Str) (a : FileArgs) : FileCommand → Outcome
  | .save => ServerModule.save env dataRoot a
  | .load => ServerModule.load env dataRoot a

/-- No check before the file stops the command, and a file is named. -/
def Reaches (env : Around) (a : FileArgs) : FileCommand → Prop
  | .save => a.format ≠ [] ∧ (a.path = [] ∨ env.find a.path = true) ∧ env.exportAs a.format ≠ none ∧ a.file ≠ []
  | .load => a.format ≠ [] ∧ a.file ≠ []

/-- What the command opens lies in the data directory, unless it touches nothing. -/
def Contained (dataRoot file : Str) (o : Outcome) : Prop :=
  o.touched = [] ∨ (Paths.place 47 46 dataRoot).Within
    (Paths.place 47 46 (Paths.lexicallyNormal 47 46 (filepath dataRoot file)))

/-- An absolute argument goes on from an absolute data directory; a relative one comes down again into what it
has left of the data directory, and leaves no more than there is. -/
def LeadsInside (dataRoot file : Str) : Prop :=
  let root := Paths.place 47 46 dataRoot
  let way := Paths.place 47 46 file
  if file.head? = some 47 then root.absolute = true ∧ root.names <+: way.names
  else (root.absolute = true ∨ way.ups ≤ root.names.length) ∧
    root.names.drop (root.names.length - way.ups) <+: way.names

section Containment

variable {env : Around} {dataRoot : Str} {a : FileArgs}

theorem writeFile_touches (content : Str) : (writeFile env dataRoot a content).touched ≠ [] := by
  rw [writeFile]
  split
  · rename_i error herror
    split_ifs at herror with hmissing
    rw [failed, if_pos hmissing]
    simp
  · split_ifs <;> simp [failed]

theorem importContent_touched (touched : List Touch) (content : Str) :
    (importContent env a touched content).touched = touched := by
  rw [importContent]
  split
  · rfl
  · split_ifs <;> rfl

/-- A command touches the file system where no check stops it before. -/
theorem run_touches (cmd : FileCommand) : (cmd.run env dataRoot a).touched ≠ [] ↔ Reaches env a cmd := by
  cases cmd with
  | save =>
    rw [FileCommand.run, save, Reaches]
    by_cases hformat : a.format = []
    · simp [failed, hformat]
    by_cases hpath : a.path ≠ [] ∧ (!env.find a.path) = true
    · have hlost : ¬ (a.path = [] ∨ env.find a.path = true) := by
        simpa [not_or] using hpath
      rw [if_neg hformat, if_pos hpath]
      exact iff_of_false (by simp [failed]) fun h => hlost h.2.1
    have hfound : a.path = [] ∨ env.find a.path = true := by
      by_cases hnil : a.path = []
      · exact .inl hnil
      · exact .inr (by simpa [hnil] using hpath)
    rw [if_neg hformat, if_neg hpath]
    cases hknown : env.exportAs a.format with
    | none => simp [failed]
    | some content =>
      by_cases hfile : a.file = []
      · simp [hfile]
      · dsimp only
        rw [if_neg hfile]
        exact iff_of_true (writeFile_touches content) ⟨hformat, hfound, by simp, hfile⟩
  | load =>
    rw [FileCommand.run, load, Reaches]
    by_cases hformat : a.format = []
    · simp [failed, hformat]
    rw [if_neg hformat]
    by_cases hfile : a.file = []
    · rw [if_neg (not_not.2 hfile)]
      refine iff_of_false (not_not.2 ?_) fun h => h.2 hfile
      split_ifs
      · exact importContent_touched [] a.inline
      · rfl
    · rw [if_pos hfile]
      refine iff_of_true ?_ ⟨hformat, hfile⟩
      dsimp only
      cases env.read (filepath dataRoot a.file) with
      | none => simp [failed]
      | some content => simp [importContent_touched]

theorem leadsInside_iff (dataRoot file : Str) : (Paths.place 47 46 dataRoot).Within
    (Paths.place 47 46 (Paths.lexicallyNormal 47 46 (filepath dataRoot file))) ↔ LeadsInside dataRoot file := by
  have hroot := @Paths.place_wf _ 47 46 _ dataRoot
  have hway := @Paths.place_wf _ 47 46 _ file
  rw [Paths.place_lexicallyNormal (by decide), LeadsInside, filepath]
  by_cases habs : file.head? = some 47
  · -- the argument is the whole path
    have hfile : (Paths.place 47 46 file).absolute = true := by
      rw [Paths.place_absolute]
      exact decide_eq_true habs
    rw [Paths.join, if_pos habs]
    simp only [if_pos habs]
    constructor
    · exact fun h => ⟨h.1.trans hfile, h.2.2⟩
    · exact fun h => ⟨h.1.trans hfile.symm, (hroot.ups h.1).trans (hway.ups hfile).symm, h.2⟩
  · rw [Paths.place_join_go habs, Paths.Place.within_go_iff]
    simp only [if_neg habs]

/-- **What `save` and `load` open lies in the data directory** exactly where the argument leads inside, unless a
check stops the command before the file. -/
theorem files_contained_iff (cmd : FileCommand) (env : Around) (dataRoot : Str) (a : FileArgs) :
    Contained dataRoot a.file (cmd.run env dataRoot a) ↔ (Reaches env a cmd → LeadsInside dataRoot a.file) := by
  rw [Contained, ← run_touches, leadsInside_iff]
  exact or_iff_not_imp_left

/-- Two dots lead out of the data directory. -/
theorem load_leaves_root : ¬ ∀ (cmd : FileCommand) (env : Around) (dataRoot : Str) (a : FileArgs),
    Contained dataRoot a.file (cmd.run env dataRoot a) := by
  intro h
  have hin := h .load ⟨[], fun _ => true, fun _ => none, fun _ => none, fun _ => true, fun _ => none, fun _ => true,
    fun _ => none⟩ (ascii "./data") ⟨ascii "json", [], ascii "../ve.json", []⟩
  rcases hin with htouched | hwithin
  · exact absurd htouched (by decide)
  · rw [leadsInside_iff] at hwithin
    simp only [LeadsInside] at hwithin
    rw [if_neg (by decide)] at hwithin
    exact absurd hwithin.2 (by decide)

end Containment

end ServerModule

end VersatileEngine
