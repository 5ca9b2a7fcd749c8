import VersatileEngine.Json.Export
import VersatileEngine.Service.Protocol

/-!
# VersatileEngine.Service.Gateway

The JSON-RPC gateway of the HTTP server, over the dispatcher of the node protocol.

* `protocolRequest` — the request that the gateway builds from the method and the parameters.
* `rpcReply`        — the reply that it builds from the reply of the dispatcher.
* `handleJsonRpc`   — from text to text; no result where the dispatcher has none, or where the reader of
  the request throws.
* `Conveys`         — what one reply says of the other.
-/

namespace VersatileEngine

namespace Tree

/-- `set(key, v)`, for a key that is a name. -/
def setChild (key : Str) (v : Var) (t : Tree) : Tree :=
  if (t.child? key).isSome then t.updateChild key fun c => c.set v else t.push (leaf key v)

end Tree

namespace Protocol

open VersatileEngine.Tree

section Gateway

variable {S N : Type} (app : App S N) (ctx : Context)

/-- The arguments of the HTTP server: there are no subscriptions. -/
def Context.http : Context := { ctx with allowSubscriptions := false }

def jsonRpcErrorCode (reply : Tree) : Int64 :=
  let code := (reply.get (ascii "code")).toString ctx.platform
  if code = ascii "unknown_op" then -32601
  else if code = ascii "invalid_request" then -32600
  else if code = ascii "invalid_params" ∨ code = ascii "unsupported" then -32602
  else -32000

/-- The reply with one child between the version and the id. -/
def envelope (outcome : Tree) (id : Var) : Tree :=
  node (ascii "r") .none [leaf (ascii "jsonrpc") (.string (ascii "2.0")), outcome, leaf (ascii "id") id]

def rpcError (code : Int64) (message : Str) : Tree :=
  node (ascii "error") .none [leaf (ascii "code") (.int code), leaf (ascii "message") (.string message)]

def rpcResult (rep : Tree) : Tree :=
  if (rep.get (ascii "accepted")).toBool false then
    node (ascii "result") .none
      [leaf (ascii "accepted") (.bool true), leaf (ascii "task_id") (rep.get (ascii "task_id"))]
  else
    match rep.child? (ascii "data") with
    | some data => copyTree true true true data (blank (ascii "result"))
    | none => leaf (ascii "result") .none

def rpcReply (rep : Tree) (id : Var) : Tree :=
  envelope
    (if (rep.get (ascii "ok")).toBool false then rpcResult rep
      else rpcError (jsonRpcErrorCode ctx rep) ((rep.get (ascii "error")).toString ctx.platform)) id

def protocolRequest (id : Var) (params : Option Tree) (method : Str) : Tree :=
  let req := node (ascii "req") .none (if id.isNull then [] else [leaf (ascii "id") id])
  let req := match params with
    | some params => copyTree true true true params req
    | none => req
  req.setChild (ascii "op") (.string method)

def toJson (t : Tree) : Option Str := JsonS.exportTree ⟨0, false⟩ t

/-- The reply node for a request, which was read or not. -/
def rpcAnswer (read : Bool) (req : Tree) (s : S) : Option (S × Tree) :=
  let id := req.get (ascii "id")
  let method := (req.get (ascii "method")).toString ctx.platform
  if !read then some (s, envelope (rpcError (-32700) (ascii "Parse error")) .none)
  else if (req.get (ascii "jsonrpc")).toString ctx.platform ≠ ascii "2.0" then
    some (s, envelope (rpcError (-32600) (ascii "Invalid jsonrpc version")) id)
  else if method = [] then
    some (s, envelope (rpcError (-32600) (ascii "Missing or invalid method")) id)
  else
    (dispatchNodeProtocol app ctx.http (protocolRequest id (req.child? (ascii "params")) method)
      (blank (ascii "rep")) s).map fun (s, rep) => (s, rpcReply ctx rep id)

def handleJsonRpc (requestJson : Str) (s : S) : Option (S × Str) :=
  (JsonS.importTree ctx.simdjson .default (blank (ascii "req")) requestJson).bind fun (read, req) =>
    (rpcAnswer app ctx read req s).bind fun (s, out) => (toJson out).map fun text => (s, text)

/-- The request `{op: method, ..params}` of the native protocol. -/
def nativeRequest (nm : Str) (v : Var) (method : Str) (params : Tree) : Tree :=
  node nm v (leaf (ascii "op") (.string method) :: params.kids)

/-- What the reply of the gateway says of the reply of the dispatcher: the data of a command that is not
in progress, or the message of an error, and the id of the request. -/
structure Conveys (id : Var) (rep out : Tree) : Prop where
  id : out.get (ascii "id") = id
  outcome : (rep.get (ascii "ok") = .bool true ∧ (rep.child? (ascii "accepted") = none →
      ∃ data result, rep.child? (ascii "data") = some data ∧ out.child? (ascii "result") = some result ∧
        result.value = data.value ∧ result.kids = data.kids)) ∨
    (rep.get (ascii "ok") = .bool false ∧ ∃ error, out.child? (ascii "error") = some error ∧
      error.get (ascii "message") = rep.get (ascii "error"))

/-! ## The two requests -/

theorem toJson_some (t : Tree) : ∃ text, toJson t = some text := by
  obtain ⟨text, h⟩ := @nodeToJson_some ⟨0, false⟩ (by decide) t 0 (by simp)
  exact ⟨_, by rw [toJson, JsonS.exportTree, h]; rfl⟩

theorem child?_cons (nm : Str) (v : Var) (k : Tree) (ks : List Tree) (key : Str) :
    (node nm v (k :: ks)).child? key = if k.name = key then some k else (node nm v ks).child? key := by
  simp only [child?, kids_node, List.find?_cons]
  split_ifs with h <;> simp [h]

theorem child?_head {nm key : Str} {v : Var} {k : Tree} {ks : List Tree} (h : k.name = key) :
    (node nm v (k :: ks)).child? key = some k := by rw [child?_cons, if_pos h]

theorem child?_tail {nm key : Str} {v : Var} {k : Tree} {ks : List Tree} (h : k.name ≠ key) :
    (node nm v (k :: ks)).child? key = (node nm v ks).child? key := by rw [child?_cons, if_neg h]

/-- A leaf of another name is passed over. -/
theorem child?_leaf {nm nm' key : Str} {v w : Var} {ks : List Tree} (h : nm' ≠ key) :
    (node nm v (leaf nm' w :: ks)).child? key = (node nm v ks).child? key := child?_tail h

theorem get_of_child? {t c : Tree} {key : Str} (h : t.child? key = some c) : t.get key = c.value :=
  congrArg (fun o : Option Tree => (o.map value).getD .none) h

theorem get_of_none {t : Tree} {key : Str} (h : t.child? key = none) : t.get key = .none :=
  congrArg (fun o : Option Tree => (o.map value).getD .none) h

theorem child?_append (nm : Str) (v : Var) (ks ks' : List Tree) (key : Str) :
    (node nm v (ks ++ ks')).child? key = ((node nm v ks).child? key).or ((node nm v ks').child? key) :=
  List.find?_append

theorem child?_eq_none {t : Tree} {key : Str} (h : ∀ k ∈ t.kids, k.name ≠ key) : t.child? key = none :=
  List.find?_eq_none.mpr fun k hk => by simpa using h k hk

/-- Without an `op` and an `id` among the parameters nothing is left of the id that the gateway set
first, and the method goes to the end. -/
theorem protocolRequest_eq (id : Var) {params : Tree} (method : Str)
    (h : ∀ k ∈ params.kids, k.name ≠ ascii "op" ∧ k.name ≠ ascii "id") :
    protocolRequest id (some params) method =
      node (ascii "req") params.value (params.kids ++ [leaf (ascii "op") (.string method)]) := by
  have hcopy : copyTree true true true params
      (node (ascii "req") .none (if id.isNull then [] else [leaf (ascii "id") id])) =
      node (ascii "req") params.value params.kids := by
    refine copyTree_apart true fun d hd k hk => ?_
    split_ifs at hd
    · cases hd
    · obtain rfl := List.mem_singleton.mp hd
      exact (h k hk).2
  have hnone : (node (ascii "req") params.value params.kids).child? (ascii "op") = none :=
    child?_eq_none fun k hk => (h k hk).1
  simp only [protocolRequest, hcopy]
  rw [setChild, hnone, if_neg (by simp)]
  rfl

theorem child?_protocolRequest (id : Var) (nm : Str) (v : Var) {params : Tree} (method : Str)
    (h : ∀ k ∈ params.kids, k.name ≠ ascii "op" ∧ k.name ≠ ascii "id") (key : Str) :
    (protocolRequest id (some params) method).child? key = (nativeRequest nm v method params).child? key := by
  have hsame : (node (ascii "req") params.value params.kids).child? key = (node nm v params.kids).child? key := rfl
  have hleaf : (leaf (ascii "op") (.string method)).name = ascii "op" := rfl
  have hnil : (node (ascii "req") params.value []).child? key = none := rfl
  rw [protocolRequest_eq id method h, child?_append, child?_cons, nativeRequest, child?_cons, hsame, hleaf, hnil]
  split_ifs with hkey
  · have hnone : (node nm v params.kids).child? key = none := child?_eq_none fun k hk => hkey ▸ (h k hk).1
    rw [hnone]
    rfl
  · exact Option.or_none

/-! ## The two replies -/

theorem get_into_ok (r : Reply) (id : Var) (rep : Tree) :
    (r.into id rep).get (ascii "ok") = .bool r.isOk := by
  rw [Reply.into, Reply.head, List.cons_append]
  exact get_of_child? (child?_head rfl)

/-- Beside `ok` and `id` a reply node has what the kind of the reply adds. -/
theorem child?_into (r : Reply) (id : Var) (rep : Tree) {key : Str} (hok : ascii "ok" ≠ key)
    (hid : ascii "id" ≠ key) :
    (r.into id rep).child? key = (node rep.name rep.value r.body).child? key := by
  have hhead : (node rep.name rep.value (Reply.head r.isOk id)).child? key = none := by
    refine child?_eq_none fun k hk => ?_
    rcases List.mem_cons.mp hk with rfl | hk
    · exact hok
    · split_ifs at hk
      · cases hk
      · obtain rfl := List.mem_singleton.mp hk
        exact hid
  rw [Reply.into, child?_append, hhead, Option.none_or]

theorem get_envelope_id (outcome : Tree) (id : Var) (h : outcome.name ≠ ascii "id") :
    (envelope outcome id).get (ascii "id") = id := by
  have hversion : ascii "jsonrpc" ≠ ascii "id" := by decide
  have hid : (envelope outcome id).child? (ascii "id") = some (leaf (ascii "id") id) :=
    (child?_leaf hversion).trans ((child?_tail h).trans (child?_head rfl))
  exact get_of_child? hid

theorem child?_envelope {outcome : Tree} {id : Var} {key : Str} (h : outcome.name = key)
    (hkey : ascii "jsonrpc" ≠ key) : (envelope outcome id).child? key = some outcome := by
  exact (child?_leaf hkey).trans (child?_head h)

theorem rpcResult_name (rep : Tree) : (rpcResult rep).name = ascii "result" := by
  unfold rpcResult
  split_ifs
  · rfl
  · split
    · exact copyTree_name ..
    · rfl

/-- What the gateway makes of a reply of the dispatcher. -/
theorem conveys_rpcReply (r : Reply) (id rid : Var) :
    Conveys id (r.into rid (blank (ascii "rep"))) (rpcReply ctx (r.into rid (blank (ascii "rep"))) id) := by
  have hok := get_into_ok r rid (blank (ascii "rep"))
  by_cases h : r.isOk = true
  · have hreply : rpcReply ctx (r.into rid (blank (ascii "rep"))) id =
        envelope (rpcResult (r.into rid (blank (ascii "rep")))) id := by
      rw [rpcReply, hok, h]
      rfl
    rw [h] at hok
    rw [hreply]
    refine ⟨get_envelope_id _ _ (by rw [rpcResult_name]; decide), .inl ⟨hok, fun hacc => ?_⟩⟩
    have hdata : ∃ data, (r.into rid (blank (ascii "rep"))).child? (ascii "data") = some data := by
      rw [child?_into r rid _ (by decide) (by decide)] at hacc ⊢
      cases r with
      | data d => exact ⟨_, child?_head (copyTree_name ..)⟩
      | value v => exact ⟨_, child?_head rfl⟩
      | accepted taskId => cases hacc
      | error code message => cases h
    obtain ⟨data, hdata⟩ := hdata
    have hresult : rpcResult (r.into rid (blank (ascii "rep"))) =
        node (ascii "result") data.value data.kids := by
      have hfalse : ((r.into rid (blank (ascii "rep"))).get (ascii "accepted")).toBool false = false := by
        rw [get_of_none hacc]
        rfl
      rw [rpcResult, hfalse, if_neg (by simp), hdata]
      exact copyTree_blank true true data _
    rw [hresult]
    exact ⟨data, _, hdata, child?_envelope rfl (by decide), rfl, rfl⟩
  · cases r with
    | error code message =>
      have hmsg : ((Reply.error code message).into rid (blank (ascii "rep"))).get (ascii "error") =
          .string message := by
        have hcode : ascii "code" ≠ ascii "error" := by decide
        have hbody := child?_into (.error code message) rid (blank (ascii "rep"))
          (show ascii "ok" ≠ ascii "error" by decide) (by decide)
        exact get_of_child? (hbody.trans ((child?_leaf hcode).trans (child?_head rfl)))
      have hreply : rpcReply ctx ((Reply.error code message).into rid (blank (ascii "rep"))) id =
          envelope (rpcError (jsonRpcErrorCode ctx ((Reply.error code message).into rid
            (blank (ascii "rep")))) message) id := by
        rw [rpcReply, hok, hmsg, Var.toString_string]
        rfl
      have hname : ascii "error" ≠ ascii "id" := by decide
      have hcode : ascii "code" ≠ ascii "message" := by decide
      rw [hreply]
      refine ⟨get_envelope_id _ _ hname, .inr ⟨hok, _, child?_envelope rfl (by decide), ?_⟩⟩
      rw [hmsg]
      exact get_of_child? ((child?_leaf hcode).trans (child?_head rfl))
    | _ => exact absurd rfl h

variable {app ctx}

/-- **The gateway agrees with the native protocol.** It has a reply exactly when the dispatcher has one
for the same request, it leaves the application in the same state, and its reply conveys the other. -/
theorem handleJsonRpc_native {text : Str} {req params : Tree}
    (hreq : JsonS.importTree ctx.simdjson .default (blank (ascii "req")) text = some (true, req))
    (hversion : (req.get (ascii "jsonrpc")).toString ctx.platform = ascii "2.0")
    (hmethod : (req.get (ascii "method")).toString ctx.platform ≠ [])
    (hparams : req.child? (ascii "params") = some params)
    (hkeys : ∀ k ∈ params.kids, k.name ≠ ascii "op" ∧ k.name ≠ ascii "id") (nm : Str) (v : Var) (s : S) :
    let native := dispatchNodeProtocol app ctx.http
      (nativeRequest nm v ((req.get (ascii "method")).toString ctx.platform) params) (blank (ascii "rep")) s
    (native = none → handleJsonRpc app ctx text s = none) ∧
    ∀ s' rep, native = some (s', rep) → ∃ out json, toJson out = some json ∧
      handleJsonRpc app ctx text s = some (s', json) ∧ Conveys (req.get (ascii "id")) rep out := by
  intro native
  have hchild := child?_protocolRequest (req.get (ascii "id")) nm v
    ((req.get (ascii "method")).toString ctx.platform) hkeys
  have hsame : dispatchNodeProtocol app ctx.http (protocolRequest (req.get (ascii "id")) (some params)
      ((req.get (ascii "method")).toString ctx.platform)) (blank (ascii "rep")) s = native := by
    simp only [native, dispatchNodeProtocol]
    have hid : (protocolRequest (req.get (ascii "id")) (some params)
        ((req.get (ascii "method")).toString ctx.platform)).get (ascii "id") = (nativeRequest nm v
          ((req.get (ascii "method")).toString ctx.platform) params).get (ascii "id") :=
      congrArg (fun o : Option Tree => (o.map value).getD .none) (hchild (ascii "id"))
    rw [dispatch_congr app ctx.http hchild, hid]
  have hanswer : handleJsonRpc app ctx text s = (native.map fun (s, rep) =>
      (s, rpcReply ctx rep (req.get (ascii "id")))).bind fun (s, out) => (toJson out).map fun text => (s, text) := by
    rw [handleJsonRpc, hreq, Option.bind_some]
    simp only [rpcAnswer, Bool.not_true, Bool.false_eq_true, if_false, hversion, ne_eq, not_true_eq_false,
      hmethod, hparams]
    rw [hsame]
  rw [hanswer]
  refine ⟨fun hnone => by rw [hnone]; rfl, fun s' rep hsome => ?_⟩
  obtain ⟨json, hjson⟩ := toJson_some (rpcReply ctx rep (req.get (ascii "id")))
  refine ⟨_, json, hjson, by simp only [hsome, Option.map_some, Option.bind_some, hjson], ?_⟩
  obtain ⟨⟨s₁, r⟩, -, hr⟩ := Option.map_eq_some_iff.mp hsome
  cases hr
  exact conveys_rpcReply ctx r _ _

end Gateway

/-- No command is registered, no task starts, and nobody subscribes. -/
def noServices : Forest.Services (Forest × Unit) where
  commands := ⟨fun _ => [], fun _ _ => [], fun _ _ => none, fun _ _ _ => none⟩
  start _ _ _ := none
  drop s := s
  attach s _ _ := (s, [])
  subscribe s _ _ _ := s
  unsubscribe s _ := s
  getSubscriberCount _ _ := 0

/-- A root without children. -/
def emptyRoot : Forest × Unit := ((Forest.init.newNode []).1, ())

/-- A server without services. -/
def plainContext : Context :=
  ⟨false, false, 500, false, ⟨fun _ => [], fun _ => [], fun _ => 0, fun _ => 0⟩, fun _ => none,
    .reference fun _ => none⟩

def rpcText : Str :=
  ascii "\x7b\"jsonrpc\":\"2.0\",\"id\":7,\"method\":\"node.set\",\"params\":\x7b\"path\":\"a\",\"value\":1\x7d\x7d"

def rpcDocument : Json :=
  .obj [(ascii "jsonrpc", .str (ascii "2.0")), (ascii "id", .int 7), (ascii "method", .str (ascii "node.set")),
    (ascii "params", .obj [(ascii "path", .str (ascii "a")), (ascii "value", .int 1)])]

theorem reads_rpcText : Json.Reads rpcDocument rpcText := by
  have hplain : ∀ s : Str, escape s = s → Json.ReadsString s s := fun s hs => by
    have h := readsString_escape s
    rwa [hs] at h
  have hstr : ∀ s : Str, escape s = s → Json.Reads (.str s) (34 :: (s ++ [34])) := fun s hs =>
    Json.reads_str (hplain s hs)
  have hparams := Json.Reads.obj (.cons Json.ws_nil (hplain (ascii "path") (by decide))
    (hstr (ascii "a") (by decide)) Json.ws_nil (.single Json.ws_nil (hplain (ascii "value") (by decide))
      (Json.reads_int 1) Json.ws_nil))
  have h := Json.Reads.obj (.cons Json.ws_nil (hplain (ascii "jsonrpc") (by decide))
    (hstr (ascii "2.0") (by decide)) Json.ws_nil (.cons Json.ws_nil (hplain (ascii "id") (by decide))
      (Json.reads_int 7) Json.ws_nil (.cons Json.ws_nil (hplain (ascii "method") (by decide))
        (hstr (ascii "node.set") (by decide)) Json.ws_nil (.single Json.ws_nil
          (hplain (ascii "params") (by decide)) hparams Json.ws_nil))))
  exact h

theorem read_rpcText : Json.read rpcText = some rpcDocument := by
  have hvalid : Utf8.Valid rpcText := by decide +kernel
  have h := Json.read_of_reads reads_rpcText Json.ws_nil ((List.append_nil rpcText).symm ▸ hvalid)
  rwa [List.append_nil] at h

/-- A value is set through the gateway, below a root without children. -/
theorem handleJsonRpc_sample :
    let app := Forest.app 8 0 noServices
    let native := dispatchNodeProtocol app plainContext (node [] .none
      [leaf (ascii "op") (.string (ascii "node.set")), leaf (ascii "path") (.string (ascii "a")),
        leaf (ascii "value") (.int 1)]) (blank (ascii "rep")) emptyRoot
    (native = none → handleJsonRpc app plainContext rpcText emptyRoot = none) ∧
    ∀ s' rep, native = some (s', rep) → ∃ out json, toJson out = some json ∧
      handleJsonRpc app plainContext rpcText emptyRoot = some (s', json) ∧
        Conveys (.int 7) rep out := by
  have hiter : plainContext.simdjson.iterate rpcText = some (rpcDocument.document fun _ => none) :=
    (Simdjson.reference_lawful _).document _ _ read_rpcText (by decide)
  have hreq : JsonS.importTree plainContext.simdjson .default (blank (ascii "req")) rpcText =
      some (true, node (ascii "req") .none [leaf (ascii "jsonrpc") (.string (ascii "2.0")),
        leaf (ascii "id") (.int 7), leaf (ascii "method") (.string (ascii "node.set")),
        node (ascii "params") .none [leaf (ascii "path") (.string (ascii "a")),
          leaf (ascii "value") (.int 1)]]) := by
    rw [JsonS.importTree, if_neg (by decide), hiter]
    rfl
  have hkeys : ∀ k ∈ [leaf (ascii "path") (.string (ascii "a")), leaf (ascii "value") (.int 1)],
      k.name ≠ ascii "op" ∧ k.name ≠ ascii "id" := by
    simp only [List.forall_mem_cons, List.not_mem_nil, false_implies, implies_true, and_true]
    exact ⟨by decide, by decide⟩
  exact @handleJsonRpc_native _ _ (Forest.app 8 0 noServices) plainContext _ _ _ hreq rfl
    (List.cons_ne_nil _ _) rfl hkeys [] .none emptyRoot

end Protocol

end VersatileEngine
