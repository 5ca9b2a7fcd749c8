import VersatileEngine.Sdk.Transports
import VersatileEngine.Service.Sequence

/-!
# VersatileEngine.Sdk.Batch

What the clients make of the replies to `batch` and `command.list`.

* `JsValue.ofVar` — a value that stands in a message, as a client holds it.
* `Wire`          — the way of a reply tree to a client: an exporter, and the reader of the client.
* `Wire.json`     — the way through JSON text, which `json_receive` justifies.
* `VeWsClient.batch`, `PyTransport.batch`, `PyTransport.cmds` — the clients, from the message that arrived.
-/

namespace VersatileEngine

mutual
/-- Values of other types do not stand in a message. -/
def JsValue.ofVar : Var → JsValue
  | .bool b => .bool b
  | .int i => .int i.toInt
  | .double d => .float d
  | .string s => .str s
  | .bin b => .bytes b
  | .list l => .arr (JsValue.ofList l)
  | .dict d => .obj (JsValue.ofDict d)
  | _ => .null

def JsValue.ofList : List Var → List JsValue
  | [] => []
  | v :: l => JsValue.ofVar v :: JsValue.ofList l

def JsValue.ofDict : List (Str × Var) → JsObject
  | [] => []
  | (k, v) :: d => (k, JsValue.ofVar v) :: JsValue.ofDict d
end

theorem JsValue.ofList_eq (l : List Var) : JsValue.ofList l = l.map JsValue.ofVar := by
  induction l with
  | nil => rfl
  | cons v l ih => rw [JsValue.ofList, ih, List.map_cons]

theorem JsValue.ofDict_eq (d : List (Str × Var)) :
    JsValue.ofDict d = d.map fun p => (p.1, JsValue.ofVar p.2) := by
  induction d with
  | nil => rfl
  | cons p d ih => rw [JsValue.ofDict, ih, List.map_cons]

namespace Protocol

open VersatileEngine.Tree

/-! ## The way of a reply -/

def compactJson : ExportOptions := ⟨0, false⟩

/-- What the readers of all clients give back as it was. -/
structure Keeps (back : Var → Var) : Prop where
  none : back .none = .none
  bool (b : Bool) : back (.bool b) = .bool b
  int (i : Int64) : back (.int i) = .int i
  string (s : Str) : back (.string s) = .string s

/-- What a value is read back as, and which trees arrive. Those with texts in UTF-8 do. -/
structure Wire where
  back : Var → Var
  arrives : Tree → Bool
  keeps : Keeps back
  plain (t : Tree) : t.Shown compactJson Utf8.Valid Var.Textual → arrives t = true

namespace Wire

/-- Through the text of `toJson`. What is no UTF-8 is rejected by the client. -/
def json (back : Var → Var) (keeps : Keeps back) : Wire where
  back := back
  arrives t := (toJson t).any fun text => decide (Utf8.Valid text)
  keeps := keeps
  plain t h := by
    obtain ⟨text, j, htext, hread, -⟩ := exportTree_document (fun _ => none) h (by decide) (by simp [compactJson])
    have hvalid : Utf8.Valid text := by
      by_contra hv
      rw [Json.read, if_neg hv] at hread
      cases hread
    have htext' : toJson t = some text := htext
    rw [htext', Option.any_some, decide_eq_true hvalid]

variable (w : Wire)

/-- A tree as a client holds it. -/
def shown (t : Tree) : JsValue := .ofVar (readBack w.back compactJson t)

def receive (t : Tree) : Option JsValue := if w.arrives t then some (w.shown t) else none

end Wire

/-- `JSON.parse` and `json.loads` on a text that the server writes. -/
def parseText (getDouble : Str → Option Binary64) (text : Str) : Option JsValue :=
  ((Json.read text).bind fun j => domToVar (j.onDemand getDouble)).map JsValue.ofVar

/-- **What arrives through the text** is the tree as it is shown. -/
theorem json_receive {getDouble : Str → Option Binary64} {back : Var → Var} (keeps : Keeps back) {t : Tree}
    (h : t.Shown compactJson (fun _ => True) fun v => JsonText getDouble (varToJson v) (back v)) :
    (toJson t).bind (parseText getDouble) = (Wire.json back keeps).receive t := by
  obtain ⟨text, htext⟩ := toJson_some t
  have harrives : (Wire.json back keeps).arrives t = decide (Utf8.Valid text) := by
    simp only [Wire.json, htext, Option.any_some]
  rw [Wire.receive, harrives, htext, Option.bind_some]
  obtain ⟨out, hout, rfl⟩ := Option.map_eq_some_iff.mp htext
  obtain ⟨j, hj, hval, -⟩ := nodeToJson_readBack h 0 out hout
  by_cases hv : Utf8.Valid (out ++ [10])
  · rw [if_pos (decide_eq_true hv), parseText,
      Json.read_of_reads hj (ws_newline Json.ws_nil) hv, Option.bind_some, hval]
    rfl
  · rw [if_neg (by simpa using hv), parseText, Json.read, if_neg hv]
    rfl

/-! ## The clients -/

/-- A property of a value; null has none to ask for. -/
def property (v : JsValue) (key : Str) : Option JsValue :=
  match v with
  | .undefined | .null => none
  | .obj o => some ((o.lookup key).getD .undefined)
  | _ => some .undefined

/-- `dict.get(key, dflt)`. -/
def getOr (o : JsObject) (key : Str) (dflt : JsValue) : JsValue := (o.lookup key).getD dflt

/-- `unwrap`. -/
def VeWsClient.unwrap (reply : JsObject) : Option JsValue :=
  if !truthy (getOr reply (ascii "ok") .undefined) || truthy (getOr reply (ascii "accepted") .undefined) then none
  else some (getOr reply (ascii "data") .undefined)

/-- `batch`, from the reply on; none where it throws. -/
def VeWsClient.batch : Option JsValue → Option JsValue
  | some (.obj reply) => (unwrap reply).bind fun data => property data (ascii "items")
  | _ => none

/-- `data.get("items", []) if isinstance(data, dict) else []`. -/
def itemsOrEmpty : JsValue → JsValue
  | .obj data => getOr data (ascii "items") (.arr [])
  | _ => .arr []

/-- `data if isinstance(data, list) else []`. -/
def listOrEmpty : JsValue → JsValue
  | .arr data => .arr data
  | _ => .arr []

inductive PyTransport where
  | httpProtocol
  | jsonRpc
  | tcpJson
  | msgPack
  | asyncHttpProtocol
  | asyncJsonRpc

namespace PyTransport

/-- The request goes through the JSON-RPC gateway. -/
def viaGateway : PyTransport → Bool
  | jsonRpc | asyncJsonRpc => true
  | _ => false

/-- `flagFromReply`, for the binary protocol; the others have no flags. -/
def errorFlag : PyTransport → JsObject → Bool
  | msgPack, reply => !truthy (getOr reply (ascii "ok") .null)
  | _, _ => false

/-- The check of the reply, and `data`; none where the reply is an error. -/
def dataOf (t : PyTransport) (reply : JsObject) : Option JsValue :=
  if t.viaGateway then
    if (reply.lookup (ascii "error")).isSome then none else some (getOr reply (ascii "result") .null)
  else if t.errorFlag reply || !truthy (getOr reply (ascii "ok") .null) then none
  else some (getOr reply (ascii "data") (.obj []))

/-- `batch`, from the reply on; none where it raises. -/
def batch (t : PyTransport) : Option JsValue → Option JsValue
  | some (.obj reply) => (t.dataOf reply).map itemsOrEmpty
  | _ => none

/-- `cmds`. An error counts as no commands, but not an error of the gateway. -/
def cmds (t : PyTransport) : Option JsValue → Option JsValue
  | some (.obj reply) =>
    match t.dataOf reply with
    | some data => some (listOrEmpty data)
    | none => if t.viaGateway then none else some (.arr [])
  | _ => none

/-- The reply on the way to the client, whose ids are numbers. The gateway drops the id of a request with
parameters. -/
def reply (ctx : Context) (n : Int64) (t : PyTransport) (r : Reply) : Tree :=
  if t.viaGateway then rpcReply ctx (r.into .none (blank (ascii "rep"))) (.int n)
  else r.into (.int n) (blank (ascii "rep"))

end PyTransport

/-! ## Shapes -/

theorem readBackVars_eq (back : Var → Var) (ks : List Tree) :
    readBackVars back compactJson ks = ks.map fun k => (k.name, readBack back compactJson k) := by
  induction ks with
  | nil => rfl
  | cons k ks ih =>
    have hshown : isIgnoredChild compactJson k = false := rfl
    rw [readBackVars, hshown, if_neg (by simp), ih, List.map_cons]

section Shapes

variable (w : Wire) {nm : Str} {ks : List Tree}

theorem shown_leaf (v : Var) : w.shown (leaf nm v) = .ofVar (w.back v) := rfl

/-- The name of the node itself is not shown. -/
theorem shown_rename (nm : Str) (t : Tree) : w.shown (node nm t.value t.kids) = w.shown t := by cases t; rfl

/-- A node without children is null. -/
theorem shown_empty : w.shown (node nm .none []) = .null := by
  have h : w.shown (leaf nm .none) = .ofVar (w.back .none) := shown_leaf w .none
  rw [w.keeps.none] at h
  exact h

/-- Anonymous children are an array. -/
theorem shown_anonymous (hne : ks ≠ []) (h : ∀ k ∈ ks, k.name = []) :
    w.shown (node nm .none ks) = .arr (ks.map w.shown) := by
  obtain ⟨k, ks, rfl⟩ := List.exists_cons_of_ne_nil hne
  have hk : k.name = [] := h k List.mem_cons_self
  rw [Wire.shown, readBack, readBackVars_eq, List.map_cons]
  simp only [if_pos hk]
  rw [JsValue.ofVar, JsValue.ofList_eq, List.map_cons, List.map_cons, List.map_map, List.map_map]
  rfl

/-- Children of different names are an object. -/
theorem shown_named (hne : ks ≠ []) (h : ∀ k ∈ ks, k.name ≠ []) (hnd : (ks.map Tree.name).Nodup) :
    w.shown (node nm .none ks) = .obj (ks.map fun k => (k.name, w.shown k)) := by
  have hentries : readBackEntries w.back .none (ks.map fun k => (k.name, readBack w.back compactJson k)) =
      ks.map fun k => (k.name, readBack w.back compactJson k) := by
    have hnamed : (ks.map fun k => (k.name, readBack w.back compactJson k)).filter (fun p => p.1 ≠ []) =
        ks.map fun k => (k.name, readBack w.back compactJson k) :=
      List.filter_eq_self.mpr (List.forall_mem_map.mpr fun k hk => by simpa using h k hk)
    have hanon : anonymous (ks.map fun k => (k.name, readBack w.back compactJson k)) = [] := by
      rw [anonymous, List.filter_eq_nil_iff.mpr (List.forall_mem_map.mpr fun k hk => by simpa using h k hk)]
      rfl
    have hfirsts := @namedFirsts_distinct _ (ks.map fun k => (k.name, readBack w.back compactJson k)) []
      (by rw [hnamed, List.map_map]; exact hnd) (by simp)
    rw [readBackEntries, hfirsts, hnamed, hanon]
    simp [valueEntry, anonymousEntry, Var.isNull]
  have hall : assignAll [] (ks.map fun k => (k.name, readBack w.back compactJson k)) =
      ks.map fun k => (k.name, readBack w.back compactJson k) := by
    rw [assignAll_new (by rw [List.map_map]; exact hnd) (by simp), List.nil_append]
  obtain ⟨k, ks, rfl⟩ := List.exists_cons_of_ne_nil hne
  have hk : k.name ≠ [] := h k List.mem_cons_self
  rw [Wire.shown, readBack, readBackVars_eq, hentries, hall, List.map_cons]
  simp only [if_neg hk]
  rw [JsValue.ofVar, JsValue.ofDict_eq, List.map_cons, List.map_cons, List.map_map]
  rfl

end Shapes

/-! ## The replies that carry data -/

section Data

variable (w : Wire) (ctx : Context)

theorem into_eq (id : Var) (d : Tree) : (Reply.data d).into id (blank (ascii "rep")) =
    node (ascii "rep") .none (Reply.head true id ++ [node (ascii "data") d.value d.kids]) := by
  rw [Reply.into, Reply.body, copyTree_blank]
  rfl

theorem into_int (n : Int64) (d : Tree) : (Reply.data d).into (.int n) (blank (ascii "rep")) =
    node (ascii "rep") .none
      [leaf (ascii "ok") (.bool true), leaf (ascii "id") (.int n), node (ascii "data") d.value d.kids] :=
  into_eq (.int n) d

theorem rpcReply_into (n : Int64) (d : Tree) :
    rpcReply ctx ((Reply.data d).into .none (blank (ascii "rep"))) (.int n) =
      node (ascii "r") .none [leaf (ascii "jsonrpc") (.string (ascii "2.0")),
        node (ascii "result") d.value d.kids, leaf (ascii "id") (.int n)] := by
  have hresult : rpcReply ctx ((Reply.data d).into .none (blank (ascii "rep"))) (.int n) =
      envelope (copyTree true true true (node (ascii "data") d.value d.kids) (blank (ascii "result"))) (.int n) := by
    rw [into_eq]
    rfl
  rw [hresult, copyTree_blank]
  rfl

theorem shown_into (n : Int64) (d : Tree) : w.shown ((Reply.data d).into (.int n) (blank (ascii "rep"))) =
    .obj [(ascii "ok", .bool true), (ascii "id", .int n.toInt), (ascii "data", w.shown d)] := by
  have hnames : ∀ nm ∈ [ascii "ok", ascii "id", ascii "data"], nm ≠ [] := by decide
  have hnodup : [ascii "ok", ascii "id", ascii "data"].Nodup := by decide
  have hdata : w.shown (node (ascii "data") d.value d.kids) = w.shown d := shown_rename w _ d
  rw [into_int]
  refine (shown_named w (List.cons_ne_nil _ _) ?_ ?_).trans ?_
  · exact fun k hk => hnames k.name (List.mem_map_of_mem hk)
  · exact hnodup
  simp only [List.map_cons, List.map_nil, shown_leaf, w.keeps.bool, w.keeps.int, hdata]
  rfl

theorem shown_rpcReply (n : Int64) (d : Tree) :
    w.shown (rpcReply ctx ((Reply.data d).into .none (blank (ascii "rep"))) (.int n)) =
      .obj [(ascii "jsonrpc", .str (ascii "2.0")), (ascii "result", w.shown d), (ascii "id", .int n.toInt)] := by
  have hnames : ∀ nm ∈ [ascii "jsonrpc", ascii "result", ascii "id"], nm ≠ [] := by decide
  have hnodup : [ascii "jsonrpc", ascii "result", ascii "id"].Nodup := by decide
  have hresult : w.shown (node (ascii "result") d.value d.kids) = w.shown d := shown_rename w _ d
  rw [rpcReply_into]
  refine (shown_named w (List.cons_ne_nil _ _) ?_ ?_).trans ?_
  · exact fun k hk => hnames k.name (List.mem_map_of_mem hk)
  · exact hnodup
  simp only [List.map_cons, List.map_nil, shown_leaf, w.keeps.string, w.keeps.int, hresult]
  rfl

/-- Every Python transport finds the data. -/
theorem dataOf_reply (t : PyTransport) (n : Int64) (d : Tree) : ∃ o,
    w.shown (t.reply ctx n (.data d)) = .obj o ∧ t.dataOf o = some (w.shown d) := by
  cases t
  case jsonRpc | asyncJsonRpc => exact ⟨_, shown_rpcReply w ctx n d, rfl⟩
  all_goals exact ⟨_, shown_into w n d, rfl⟩

theorem batch_reply (t : PyTransport) (n : Int64) (d : Tree) :
    t.batch (w.receive (t.reply ctx n (.data d))) =
      if w.arrives (t.reply ctx n (.data d)) then some (itemsOrEmpty (w.shown d)) else none := by
  obtain ⟨o, ho, hdata⟩ := dataOf_reply w ctx t n d
  rw [Wire.receive]
  split_ifs
  · rw [ho, PyTransport.batch, hdata]
    rfl
  · rfl

theorem cmds_reply (t : PyTransport) (n : Int64) (d : Tree) :
    t.cmds (w.receive (t.reply ctx n (.data d))) =
      if w.arrives (t.reply ctx n (.data d)) then some (listOrEmpty (w.shown d)) else none := by
  obtain ⟨o, ho, hdata⟩ := dataOf_reply w ctx t n d
  rw [Wire.receive]
  split_ifs
  · rw [ho, PyTransport.cmds, hdata]
  · rfl

/-- A reply arrives when its data is plain. -/
theorem reply_arrives (t : PyTransport) (n : Int64) {d : Tree}
    (h : d.Shown compactJson Utf8.Valid Var.Textual) : w.arrives (t.reply ctx n (.data d)) = true := by
  obtain ⟨nm, v, ks⟩ := d
  obtain ⟨hv, hn, hk⟩ := h
  have hleaf : ∀ {nm : Str} {v : Var}, v.Textual → (leaf nm v).Shown compactJson Utf8.Valid Var.Textual :=
    fun hv => .node hv (by simp) (by simp)
  have hdata : ∀ nm, (node nm v ks).Shown compactJson Utf8.Valid Var.Textual := fun nm => .node hv hn hk
  have hutf : ∀ nm ∈ [ascii "jsonrpc", ascii "result", ascii "id"], Utf8.Valid nm := by decide
  have hutf' : ∀ nm ∈ [ascii "ok", ascii "id", ascii "data"], Utf8.Valid nm := by decide
  refine w.plain _ ?_
  rw [PyTransport.reply]
  split_ifs
  · rw [rpcReply_into]
    refine .node .none ?_ ?_
    · exact fun k hk _ => hutf k.name (List.mem_map_of_mem hk)
    · simp only [List.forall_mem_cons]
      exact ⟨fun _ => hleaf (.string (by decide)), fun _ => hdata _, fun _ => hleaf (.int n), by simp⟩
  · rw [into_int]
    refine .node .none ?_ ?_
    · exact fun k hk _ => hutf' k.name (List.mem_map_of_mem hk)
    · simp only [List.forall_mem_cons]
      exact ⟨fun _ => hleaf (.bool true), fun _ => hleaf (.int n), fun _ => hdata _, by simp⟩

/-- The data of a batch is an array, or null when there are no items. -/
theorem shown_items {reps : List Tree} (h : ∀ r ∈ reps, r.name = []) (nm : Str) :
    w.shown (node nm .none reps) = if reps = [] then .null else .arr (reps.map w.shown) := by
  split_ifs with hr
  · rw [hr, shown_empty]
  · exact shown_anonymous w hr h

end Data

/-! ## What the server answers -/

section Server

variable {S N : Type} (app : App S N) (ctx : Context)

/-- There is one reply for every item, in order, and none has a name. -/
theorem runItems_runsOf (items : List Tree) : ∀ {s s' : S} {reps : List Tree},
    runItems (runsOf app ctx items) s = some (s', reps) →
      reps.length = items.length ∧ ∀ r ∈ reps, r.name = [] := by
  induction items with
  | nil =>
    intro s s' reps h
    cases h
    exact ⟨rfl, by simp⟩
  | cons item items ih =>
    intro s s' reps h
    rw [runsOf, runItems] at h
    obtain ⟨⟨s₁, rep⟩, hrep, h⟩ := Option.bind_eq_some_iff.mp h
    obtain ⟨⟨s₂, reps'⟩, hreps, h⟩ := Option.map_eq_some_iff.mp h
    cases h
    obtain ⟨⟨s₃, r⟩, -, he⟩ := Option.map_eq_some_iff.mp hrep
    cases he
    obtain ⟨hlen, hnames⟩ := ih hreps
    exact ⟨by rw [List.length_cons, List.length_cons, hlen], List.forall_mem_cons.mpr ⟨rfl, hnames⟩⟩

variable {app ctx}

/-- A batch within the limit is answered with the replies to its items. -/
theorem dispatch_batch {req items : Tree} {s s' : S} {reps : List Tree}
    (hop : (req.get (ascii "op")).toString ctx.platform = ascii "batch")
    (hitems : req.child? (ascii "items") = some items)
    (hlimit : ctx.batchLimit ≤ 0 ∨ items.kids.length ≤ ctx.batchLimit)
    (hrun : runItems (runsOf app ctx items.kids) s = some (s', reps)) :
    dispatch app ctx req s = some (s', .data (node (ascii "items") .none reps)) := by
  rw [dispatch_items hop hitems hlimit, hrun]
  rfl

/-- What the client of the WebSocket server has to return. -/
def WsReads (w : Wire) (n : Int64) (reps : List Tree) : Prop :=
  VeWsClient.batch (w.receive ((Reply.data (node (ascii "items") .none reps)).into (.int n)
    (blank (ascii "rep")))) = some (.arr (reps.map w.shown))

/-- What a Python transport has to return for a batch. -/
def PyReads (w : Wire) (ctx : Context) (t : PyTransport) (n : Int64) (reps : List Tree) : Prop :=
  t.batch (w.receive (t.reply ctx n (.data (node (ascii "items") .none reps)))) = some (.arr (reps.map w.shown))

/-- What it has to return for the list of commands: their names and nothing else. -/
def CmdsRead (w : Wire) (app : App S N) (ctx : Context) (t : PyTransport) (n : Int64) (s : S) : Prop :=
  ∃ names, t.cmds (w.receive (t.reply ctx n (commandList app s).2)) = some (.arr names) ∧
    ∀ v, v ∈ names ↔ ∃ key ∈ app.commands.keys s, v = .str key

/-- The client of the WebSocket server asks the array, or null, for its items. -/
theorem not_wsReads (w : Wire) (n : Int64) {reps : List Tree} (h : ∀ r ∈ reps, r.name = []) :
    ¬ WsReads w n reps := by
  intro hreads
  rw [WsReads, Wire.receive] at hreads
  split_ifs at hreads
  · rw [shown_into, shown_items w h] at hreads
    split_ifs at hreads
    · cases hreads
    · cases hreads
  · cases hreads

theorem pyReads_iff (w : Wire) (t : PyTransport) (n : Int64) {reps : List Tree} (h : ∀ r ∈ reps, r.name = []) :
    PyReads w ctx t n reps ↔ reps = [] := by
  have hitems : itemsOrEmpty (w.shown (node (ascii "items") .none reps)) = .arr [] := by
    rw [shown_items w h]
    split_ifs <;> rfl
  rw [PyReads, batch_reply, hitems]
  constructor
  · intro hreads
    split_ifs at hreads
    · rw [Option.some.injEq, JsValue.arr.injEq] at hreads
      exact List.map_eq_nil_iff.mp hreads.symm
  · rintro rfl
    rw [if_pos (reply_arrives w ctx t n (.node .none (by simp) (by simp)))]
    rfl

theorem cmdsRead_iff (w : Wire) (t : PyTransport) (n : Int64) (s : S) :
    CmdsRead w app ctx t n s ↔ app.commands.keys s = [] := by
  have hname : ∀ nm ∈ [ascii "commands"], nm ≠ [] ∧ Utf8.Valid nm := by decide
  have hlist : ∀ ks, listOrEmpty (w.shown (node (ascii "data") .none [node (ascii "commands") .none ks])) =
      .arr [] := fun ks => by
    rw [shown_named w (List.cons_ne_nil _ _) ?_ ?_]
    · rfl
    · exact fun k hk => (hname k.name (List.mem_map_of_mem hk)).1
    · exact List.nodup_singleton _
  rw [CmdsRead, commandList, dataNode, cmds_reply, hlist]
  constructor
  · rintro ⟨names, hnames, hall⟩
    split_ifs at hnames
    · cases hnames
      by_contra hne
      obtain ⟨key, keys, hkeys⟩ := List.exists_cons_of_ne_nil hne
      exact List.not_mem_nil ((hall (.str key)).mpr ⟨key, hkeys ▸ List.mem_cons_self, rfl⟩)
  · intro hkeys
    have hsorted : sortedKeys app s = [] := by simp [sortedKeys, hkeys]
    have hleaf : (node (ascii "commands") .none []).Shown compactJson Utf8.Valid Var.Textual :=
      .node .none (by simp) (by simp)
    refine ⟨[], if_pos (reply_arrives w ctx t n (.node .none ?_ ?_)), fun v => by simp [hkeys]⟩
    · exact fun k hk _ => (hname k.name (List.mem_map_of_mem hk)).2
    · rw [hsorted]
      exact List.forall_mem_singleton.mpr fun _ => hleaf

/-- **The clients do not read the shapes that the server writes.** A batch within the limit is answered with
one reply for every item; the client of the WebSocket server never returns them, a Python transport does
for no items only, and it returns the names of the commands only where there are none. -/
theorem shapes_read_iff (w : Wire) {req items : Tree} {s s' : S} {reps : List Tree}
    (hop : (req.get (ascii "op")).toString ctx.platform = ascii "batch")
    (hitems : req.child? (ascii "items") = some items)
    (hlimit : ctx.batchLimit ≤ 0 ∨ items.kids.length ≤ ctx.batchLimit)
    (hrun : runItems (runsOf app ctx items.kids) s = some (s', reps)) (n : Int64) :
    dispatch app ctx req s = some (s', .data (node (ascii "items") .none reps)) ∧
    reps.length = items.kids.length ∧ ¬ WsReads w n reps ∧
    (∀ t, PyReads w ctx t n reps ↔ items.kids = []) ∧
    ∀ t, CmdsRead w app ctx t n s ↔ app.commands.keys s = [] := by
  obtain ⟨hlen, hnames⟩ := runItems_runsOf app ctx items.kids hrun
  refine ⟨dispatch_batch hop hitems hlimit hrun, hlen, not_wsReads w n hnames, fun t => ?_,
    fun t => cmdsRead_iff w t n s⟩
  rw [pyReads_iff w t n hnames, ← List.length_eq_zero_iff, hlen, List.length_eq_zero_iff]

end Server

/-- The request of a client for the items given. -/
def batchRequest (items : List Tree) : Tree :=
  node (ascii "req") .none [leaf (ascii "op") (.string (ascii "batch")), node (ascii "items") .none items,
    leaf (ascii "id") (.int 1)]

theorem keeps_id : Keeps id := ⟨rfl, fun _ => rfl, fun _ => rfl, fun _ => rfl⟩

/-- An empty batch, and a command list without commands. -/
theorem shapes_read_sample :
    let app := Forest.app 8 0 noServices
    let s := emptyRoot
    dispatch app plainContext (batchRequest []) s = some (s, .data (node (ascii "items") .none [])) ∧
    (([] : List Tree).length = ([] : List Tree).length) ∧ ¬ WsReads (.json id keeps_id) 1 [] ∧
    (∀ t, PyReads (.json id keeps_id) plainContext t 1 [] ↔ ([] : List Tree) = []) ∧
    ∀ t, CmdsRead (.json id keeps_id) app plainContext t 1 s ↔ app.commands.keys s = [] :=
  @shapes_read_iff _ _ (Forest.app 8 0 noServices) plainContext (.json id keeps_id) (batchRequest [])
    (node (ascii "items") .none []) _ _ [] rfl rfl (.inr (by decide)) rfl 1

/-- One item without an operation. Its error is in the reply, and no client returns it. -/
theorem batch_reply_lost :
    let app := Forest.app 8 0 noServices
    let s := emptyRoot
    ∃ rep, dispatch app plainContext (batchRequest [blank []]) s =
        some (s, .data (node (ascii "items") .none [rep])) ∧
      ¬ WsReads (.json id keeps_id) 1 [rep] ∧ ∀ t, ¬ PyReads (.json id keeps_id) plainContext t 1 [rep] := by
  intro app s
  let rep := (Reply.error (ascii "invalid_request") (ascii "op is required")).into .none (blank [])
  have hname : ∀ r ∈ [rep], r.name = [] := List.forall_mem_singleton.mpr rfl
  have hrun : runItems (runsOf app plainContext [blank []]) s = some (s, [rep]) := rfl
  refine ⟨rep, dispatch_batch rfl rfl (.inr (by decide)) hrun, not_wsReads _ 1 hname, fun t hreads => ?_⟩
  exact List.cons_ne_nil _ _ ((pyReads_iff _ t 1 hname).mp hreads)

end Protocol

end VersatileEngine
