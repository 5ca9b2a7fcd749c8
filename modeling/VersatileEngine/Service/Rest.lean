import VersatileEngine.Json.Failure
import VersatileEngine.Json.Scalar
import VersatileEngine.Node.Route
import VersatileEngine.Service.Gateway

/-!
# VersatileEngine.Service.Rest

`PUT /at/<path>` and `POST /at/<path>` of the HTTP server, on the tree below its root.

* `bindAtPut`, `bindAtPost` — the handlers: the tree afterwards and the response, or no result where the
  reader of the body throws.
* `Handled`                 — an answer of ok for what is stored, an error for a tree that is as it was.
* `at_handled`              — where the handlers are that clean; a trigger changes nothing.
-/

namespace VersatileEngine

namespace Http

open VersatileEngine.Tree

/-- `HTTP_KEY_SEP`. -/
def httpKeySep : UInt8 := 58

def getQueryParam (query key : Str) : Str :=
  ((query.splitOn 38).findSome? fun seg =>
    if 61 ∈ seg then
      let nm := seg.takeWhile (· ≠ 61)
      if nm = key then some (seg.drop (nm.length + 1)) else none
    else if seg = key then some (ascii "1") else none).getD []

def queryBool (query key : Str) (dflt : Bool) : Bool :=
  let value := getQueryParam query key
  if value = [] then dflt
  else !([ascii "0", ascii "false", ascii "False", ascii "FALSE", ascii "no", ascii "No", ascii "NO"].contains value)

structure Response where
  status : Nat
  body : Str

/-- `rep.fill_json(toJson(out), status)`. -/
def fillJson (out : Tree) (status : Nat) : Option Response := (Protocol.toJson out).map (Response.mk status)

/-- `fillError` on a fresh node. -/
def fillError (code error : Str) : Tree := (Protocol.Reply.error code error).into .none (blank (ascii "rep"))

/-- The reply for the node at a place. -/
def okReply (p : List Nat) (root : Tree) : Tree :=
  node (ascii "r") .none [leaf (ascii "ok") (.bool true), leaf (ascii "path") (.string (root.pathOf p))]

section Handlers

variable (simdjson : Simdjson) (stod : Str → Option Binary64) (nodePath query body : Str) (root : Tree)

def ensureAt : Tree × Option (List Nat) := root.ensurePath pathSep httpKeySep nodePath

def findAt : Option (List Nat) := root.findPath pathSep httpKeySep nodePath

def putOptions : ImportOptions where
  auto_insert := queryBool query (ascii "auto_insert") true
  auto_remove := queryBool query (ascii "auto_remove") false
  auto_update := queryBool query (ascii "auto_update") false

def bindAtPut : Option (Tree × Response) :=
  if body = [] then
    (fillJson (fillError (ascii "invalid_params") (ascii "request body is required")) 400).map fun r => (root, r)
  else
    let (made, target) := ensureAt nodePath root
    let invalid := fillJson (fillError (ascii "invalid_request") (ascii "invalid JSON body")) 400
    match target with
    | none => invalid.map fun r => (made, r)
    | some p =>
      (made.sub p).bind fun target =>
        (JsonS.importTree simdjson (putOptions query) target body).bind fun (read, target) =>
          let after := made.modifyAt (fun _ => target) p
          if read then (fillJson (okReply p after) 200).map fun r => (after, r)
          else invalid.map fun r => (after, r)

/-- `trigger || body.empty()`. -/
def triggers : Bool := queryBool query (ascii "trigger") false || body = []

def bindAtPost : Option (Tree × Response) :=
  let (made, target) := if triggers query body then (root, findAt nodePath root) else ensureAt nodePath root
  match target with
  | none => (fillJson (fillError (ascii "not_found") (ascii "node not found")) 404).map fun r => (made, r)
  | some p =>
    if triggers query body then (fillJson (okReply p made) 200).map fun r => (made, r)
    else
      (json.parse simdjson stod body).bind fun v =>
        let after := made.modifyAt (fun target => target.set v) p
        (fillJson (okReply p after) 200).map fun r => (after, r)

end Handlers

/-! ## What an answer promises -/

section Promises

variable (simdjson : Simdjson) (stod : Str → Option Binary64) (nodePath query body : Str) (root : Tree)

/-- What `PUT` does to the node when it stores the document of the body. -/
def Imports (store : Tree → Tree) : Prop :=
  ∃ j parsed, Json.read body = some j ∧
    domToNode (j.onDemand simdjson.getDouble) (blank (ascii "json_import")) = some parsed ∧
    store = copyTree (putOptions query).auto_insert (putOptions query).auto_remove (putOptions query).auto_update
      parsed

/-- What `POST` does to the node when it stores the document of the body. -/
def Sets (store : Tree → Tree) : Prop :=
  ∃ j v, Json.read body = some j ∧ domToVar (j.onDemand simdjson.getDouble) = some v ∧
    store = fun target => target.set v

/-- Either ok, and then the path leads to a node where the document was stored, or an error, and then the
tree is as it was. -/
def Handled (stores : (Tree → Tree) → Prop) (answer : Option (Tree × Response)) : Prop :=
  ∃ after r, answer = some (after, r) ∧
    ((r.status = 200 ∧ ∃ p target store, (ensureAt nodePath root).2 = some p ∧
        (ensureAt nodePath root).1.sub p = some target ∧ stores store ∧
        after = (ensureAt nodePath root).1.modifyAt store p ∧
        ensureAt nodePath after = (after, some p) ∧ after.sub p = some (store target)) ∨
      (r.status ≠ 200 ∧ after = root))

/-- The body is a document that is imported, and the path can be made; or the body is refused, or the path
fails, and nothing is made for the path. -/
def PutClear : Prop :=
  ((ensureAt nodePath root).2.isSome = true ∧ body.length < 2 ^ 32 ∧
    ∃ j, Json.read body = some j ∧ j.isContainer = true ∧ j.Importable simdjson.getDouble) ∨
  ((ensureAt nodePath root).1 = root ∧ ((ensureAt nodePath root).2 = none ∨ simdjson.Refuses body))

/-- The body is a document whose value is read as it stands, and the path can be made; or the path fails, and
nothing is made for it. -/
def PostClear : Prop :=
  ((ensureAt nodePath root).2.isSome = true ∧ body.length < 2 ^ 32 ∧
    ∃ j, Json.read body = some j ∧ j.Readable simdjson.getDouble ∧ j.Plain stod simdjson.getDouble body) ∨
  ensureAt nodePath root = (root, none)

end Promises

section Clear

variable {simdjson : Simdjson} {stod : Str → Option Binary64} {nodePath query body : Str} {root : Tree}

theorem fillJson_some (out : Tree) (status : Nat) : ∃ r, fillJson out status = some r ∧ r.status = status := by
  obtain ⟨text, h⟩ := Protocol.toJson_some out
  exact ⟨⟨status, text⟩, by rw [fillJson, h]; rfl, rfl⟩

/-- What is stored at the node that was made is found there. -/
theorem handled_stored {stores : (Tree → Tree) → Prop} {answer : Option (Tree × Response)} {made target : Tree}
    {p : List Nat} {store : Tree → Tree} (hmade : ensureAt nodePath root = (made, some p))
    (ht : made.sub p = some target) (hname : ∀ t, (store t).name = t.name) (hs : stores store)
    (ha : answer = (fillJson (okReply p (made.modifyAt store p)) 200).map fun r => (made.modifyAt store p, r)) :
    Handled nodePath root stores answer := by
  obtain ⟨r, hr, hstatus⟩ := fillJson_some (okReply p (made.modifyAt store p)) 200
  rw [hr, Option.map_some] at ha
  refine ⟨_, r, ha, .inl ⟨hstatus, p, target, store, ?_⟩⟩
  rw [hmade]
  exact ⟨rfl, ht, hs, rfl, (ensurePath_again hname hmade).2, sub_modifyAt ht⟩

theorem handled_error {stores : (Tree → Tree) → Prop} {answer : Option (Tree × Response)} {out : Tree}
    {status : Nat} (hne : status ≠ 200) (ha : answer = (fillJson out status).map fun r => (root, r)) :
    Handled nodePath root stores answer := by
  obtain ⟨r, hr, rfl⟩ := fillJson_some out status
  rw [hr, Option.map_some] at ha
  exact ⟨_, r, ha, .inr ⟨hne, rfl⟩⟩

/-- A refused body leaves the node as it is. -/
theorem put_refused (hne : body ≠ []) (h : simdjson.Refuses body) (hmade : (ensureAt nodePath root).1 = root) :
    bindAtPut simdjson nodePath query body root =
      (fillJson (fillError (ascii "invalid_request") (ascii "invalid JSON body")) 400).map fun r => (root, r) := by
  rw [bindAtPut, if_neg hne]
  rcases hat : ensureAt nodePath root with ⟨made, target⟩
  obtain rfl : made = root := by rw [← hmade, hat]
  cases target with
  | none => rfl
  | some p =>
    obtain ⟨k, hk⟩ := (ensurePath_again (f := id) (fun _ => rfl) hat).1
    simp only [hk, Option.bind_some, importTree_refused (.inr h), Bool.false_eq_true, if_false]
    have hsame : made.modifyAt (fun _ => k) p = made := by
      rw [modifyAt_congr (f := fun _ => k) (g := id) hk rfl, modifyAt_id]
    rw [hsame]

theorem put_handled (hl : simdjson.Lawful) (hne : body ≠ []) (h : PutClear simdjson nodePath body root) :
    Handled nodePath root (Imports simdjson query body) (bindAtPut simdjson nodePath query body root) := by
  rcases hat : ensureAt nodePath root with ⟨made, target⟩
  rcases h with ⟨hsome, hlen, j, hj, hc, himport⟩ | ⟨hmade, htarget | hrefuses⟩
  · rw [hat] at hsome
    obtain ⟨p, rfl⟩ := Option.isSome_iff_exists.mp hsome
    obtain ⟨k, hk⟩ := (ensurePath_again (f := id) (fun _ => rfl) hat).1
    obtain ⟨parsed, hparsed⟩ := Option.isSome_iff_exists.mp
      ((domToNode_isSome (blank (ascii "json_import"))).mpr himport)
    have hdoc : j.document simdjson.getDouble = .value (j.onDemand simdjson.getDouble) := by
      cases j <;> first | rfl | cases hc
    refine handled_stored hat hk (copyTree_name _ _ _ parsed) ⟨j, parsed, hj, hparsed, rfl⟩ ?_
    rw [bindAtPut, if_neg hne, hat]
    simp only [hk, Option.bind_some, JsonS.importTree, if_neg hne, hl.document body j hj hlen, hdoc, hparsed,
      Option.map_some, if_true]
    have hsame : made.modifyAt (fun _ => copyTree (putOptions query).auto_insert (putOptions query).auto_remove
        (putOptions query).auto_update parsed k) p =
        made.modifyAt (copyTree (putOptions query).auto_insert (putOptions query).auto_remove
          (putOptions query).auto_update parsed) p := modifyAt_congr hk rfl
    rw [hsame]
  · rw [hat] at htarget hmade
    cases htarget
    cases hmade
    have herror : bindAtPut simdjson nodePath query body made = (fillJson
        (fillError (ascii "invalid_request") (ascii "invalid JSON body")) 400).map fun r => (made, r) := by
      rw [bindAtPut, if_neg hne, hat]
    exact handled_error (by decide) herror
  · exact handled_error (by decide) (put_refused hne hrefuses hmade)

theorem post_handled (hl : simdjson.Lawful) (hquiet : triggers query body = false)
    (h : PostClear simdjson stod nodePath body root) :
    Handled nodePath root (Sets simdjson body) (bindAtPost simdjson stod nodePath query body root) := by
  rcases hat : ensureAt nodePath root with ⟨made, target⟩
  rcases h with ⟨hsome, hlen, j, hj, hread, hplain⟩ | hnone
  · rw [hat] at hsome
    obtain ⟨p, rfl⟩ := Option.isSome_iff_exists.mp hsome
    obtain ⟨k, hk⟩ := (ensurePath_again (f := id) (fun _ => rfl) hat).1
    obtain ⟨v, hv⟩ := hread.domToVar
    refine handled_stored hat hk (fun t => set_name t v) ⟨j, v, hj, hv, rfl⟩ ?_
    rw [bindAtPost, hquiet]
    simp only [Bool.false_eq_true, if_false, hat, parse_document hl hj hlen hread hplain, hv, Option.bind_some]
  · have herror : bindAtPost simdjson stod nodePath query body root = (fillJson
        (fillError (ascii "not_found") (ascii "node not found")) 404).map fun r => (root, r) := by
      rw [bindAtPost, hquiet]
      simp only [Bool.false_eq_true, if_false, hnone]
    exact handled_error (by decide) herror

/-- A trigger looks the node up, and changes nothing. -/
theorem post_trigger (htrigger : triggers query body = true) :
    ∃ r, bindAtPost simdjson stod nodePath query body root = some (root, r) ∧
      (r.status = 200 ↔ (findAt nodePath root).isSome = true) := by
  rw [bindAtPost, htrigger]
  cases hfind : findAt nodePath root with
  | none =>
    obtain ⟨r, hr, hstatus⟩ := fillJson_some (fillError (ascii "not_found") (ascii "node not found")) 404
    exact ⟨r, by simp only [if_true, hr, Option.map_some], by simp [hstatus]⟩
  | some p =>
    obtain ⟨r, hr, hstatus⟩ := fillJson_some (okReply p root) 200
    exact ⟨r, by simp only [if_true, hr, Option.map_some], by simp [hstatus]⟩

/-- **A write is stored or refused.** A trigger and a `PUT` without a body change nothing; the other writes
are handled where the path and the body are clear. -/
theorem at_handled (hl : simdjson.Lawful) :
    (triggers query body = true → ∃ r, bindAtPost simdjson stod nodePath query body root = some (root, r) ∧
      (r.status = 200 ↔ (findAt nodePath root).isSome = true)) ∧
    (triggers query body = false → PostClear simdjson stod nodePath body root →
      Handled nodePath root (Sets simdjson body) (bindAtPost simdjson stod nodePath query body root)) ∧
    (body = [] → Handled nodePath root (Imports simdjson query body)
      (bindAtPut simdjson nodePath query body root)) ∧
    (body ≠ [] → PutClear simdjson nodePath body root → Handled nodePath root (Imports simdjson query body)
      (bindAtPut simdjson nodePath query body root)) := by
  refine ⟨post_trigger, post_handled hl, fun hempty => ?_, put_handled hl⟩
  have herror : bindAtPut simdjson nodePath query body root = (fillJson
      (fillError (ascii "invalid_params") (ascii "request body is required")) 400).map fun r => (root, r) := by
    rw [bindAtPut, if_pos hempty]
  exact handled_error (by decide) herror

end Clear

theorem at_handled_sample :
    Handled (ascii "a") (blank (ascii "root")) (Sets (Simdjson.reference fun _ => none) (ascii "[1]"))
      (bindAtPost (Simdjson.reference fun _ => none) (fun _ => none) (ascii "a") [] (ascii "[1]")
        (blank (ascii "root"))) := by
  have hread : Json.read (ascii "[1]" ++ []) = some (.arr [.int 1]) :=
    Json.read_of_reads (.arr (.single (Json.reads_int 1) Json.ws_nil)) Json.ws_nil (by decide)
  have hone : (Json.int 1).Readable fun _ => none :=
    .intro (fun i hi => (by cases hi; decide)) (fun _ h => (by cases h)) fun x hx => (by cases hx)
  have hreadable : (Json.arr [.int 1]).Readable fun _ => none := by
    refine .intro (fun i hi => (by cases hi)) (fun _ h => (by cases h)) fun x hx => ?_
    obtain rfl := List.mem_singleton.mp hx
    exact hone
  exact (at_handled (Simdjson.reference_lawful _)).2.1 (by decide)
    (.inl ⟨by decide, by decide, _, hread, hreadable, trivial⟩)

/-- An empty `POST` to the root is answered with ok, and its body is no document. -/
theorem empty_post_is_ok : ¬ ∀ (simdjson : Simdjson) (stod : Str → Option Binary64) (nodePath query body : Str)
    (root : Tree), simdjson.Lawful →
    Handled nodePath root (Imports simdjson query body) (bindAtPut simdjson nodePath query body root) ∧
    Handled nodePath root (Sets simdjson body) (bindAtPost simdjson stod nodePath query body root) := by
  intro hall
  obtain ⟨r, hr, hok⟩ := @post_trigger (Simdjson.reference fun _ => none) (fun _ => none) [] [] []
    (blank (ascii "root")) (by decide)
  obtain ⟨after, r', hanswer, h⟩ := (hall (Simdjson.reference fun _ => none) (fun _ => none) [] [] []
    (blank (ascii "root")) (Simdjson.reference_lawful _)).2
  rw [hr] at hanswer
  cases hanswer
  rcases h with ⟨-, p, target, store, -, -, ⟨j, v, hj, -⟩, -⟩ | ⟨hne, -⟩
  · cases hj
  · exact hne (hok.mpr (by decide))

end Http

end VersatileEngine
