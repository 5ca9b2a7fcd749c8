import VersatileEngine.Command.Input
import VersatileEngine.Json.Failure
import VersatileEngine.Json.Text
import VersatileEngine.Mcp.Stream

/-!
# VersatileEngine.Mcp.Server

The main loop of `ve_mcp`: one message after the other is parsed and, when it is a request, answered.

* `handle`        — what the loop does with a parsed message.
* `serve`         — the loop; it ends when no message is left, or with an exception that leaves `main`.
* `OnDemand.Sound` — a value that is read to its end; `domToVar_isSome_iff`.
* `requestId`     — the id of a body that is a well-formed request object.
* `Answered`      — every message is handled, and each is answered as it should be.
* `Served`        — every message meets `Fair`, and the command that it calls returns.
* `answered_iff`  — the two are the same.
-/

namespace VersatileEngine

/-! ## Values that are read to their end -/

mutual
/-- No scalar in the value fails to be read, and the reader loses no element. -/
def OnDemand.Sound : OnDemand → Prop
  | .array l => OnDemand.SoundAll l
  | .object fs => OnDemand.SoundFields fs
  | .invalid => False
  | .failure => False
  | _ => True

def OnDemand.SoundAll : List OnDemand → Prop
  | [] => True
  | v :: l => v.Sound ∧ OnDemand.SoundAll l

def OnDemand.SoundFields : List (Option Str × OnDemand) → Prop
  | [] => True
  | (key, v) :: fs => key.isSome = true ∧ v.Sound ∧ OnDemand.SoundFields fs
end

mutual
theorem domToVar_isSome_iff : ∀ v, (domToVar v).isSome = true ↔ v.Sound
  | .null | .bool _ | .int _ | .double _ | .string _ | .unknown => by simp [domToVar, OnDemand.Sound]
  | .invalid | .failure => by simp [domToVar, OnDemand.Sound]
  | .array l => by rw [domToVar, OnDemand.Sound, Option.isSome_map, elemsToVar_isSome_iff l]
  | .object fs => by rw [domToVar, OnDemand.Sound, Option.isSome_map, fieldsToVar_isSome_iff fs]

theorem elemsToVar_isSome_iff : ∀ l, (elemsToVar l).isSome = true ↔ OnDemand.SoundAll l
  | [] => by simp [elemsToVar, OnDemand.SoundAll]
  | v :: l => by
    rw [elemsToVar, OnDemand.SoundAll, ← domToVar_isSome_iff v, ← elemsToVar_isSome_iff l]
    cases domToVar v <;> simp

theorem fieldsToVar_isSome_iff : ∀ fs {dict}, (fieldsToVar dict fs).isSome = true ↔ OnDemand.SoundFields fs
  | [], _ => by simp [fieldsToVar, OnDemand.SoundFields]
  | (key, v) :: fs, dict => by
    rw [fieldsToVar, OnDemand.SoundFields, ← domToVar_isSome_iff v]
    cases key with
    | none => simp
    | some key =>
      cases domToVar v with
      | none => simp
      | some x => simp [fieldsToVar_isSome_iff fs]
end

/-! ## The program -/

namespace Mcp

open Command

def makeErrorObj (code : Int64) (msg : Str) : Var :=
  .dict [(ascii "code", .int code), (ascii "message", .string msg)]

def responseWithResult (id result : Var) : Var :=
  .dict [(ascii "jsonrpc", .string (ascii "2.0")), (ascii "id", id), (ascii "result", result)]

def responseWithError (id : Var) (code : Int64) (msg : Str) : Var :=
  .dict [(ascii "jsonrpc", .string (ascii "2.0")), (ascii "id", id), (ascii "error", makeErrorObj code msg)]

def makeInitializeResult : Var :=
  .dict [(ascii "protocolVersion", .string (ascii "2024-11-05")),
    (ascii "capabilities", .dict [(ascii "tools", .dict [(ascii "listChanged", .bool false)])]),
    (ascii "serverInfo",
      .dict [(ascii "name", .string (ascii "ve_mcp")), (ascii "version", .string (ascii "0.1.0"))])]

section Server

variable {S : Type} (commands : Commands S) (simdjson : Simdjson) (stod : Str → Option Binary64)
  (platform : Platform)

/-- The entry of a command in the list of tools. -/
def makeTool (s : S) (key : Str) : Var :=
  let help := commands.help s key
  .dict [(ascii "name", .string key),
    (ascii "description", .string (if help = [] then ascii "VE command: " ++ key else help)),
    (ascii "inputSchema",
      .dict [(ascii "type", .string (ascii "object")), (ascii "additionalProperties", .bool true)])]

def makeToolsListResult (s : S) : Var :=
  let keys := ((commands.keys s).mergeSort fun a b => decide (a ≤ b)).destutter (· ≠ ·)
  .dict [(ascii "tools", .list (keys.map (makeTool commands s)))]

def makeToolCallResult (s : S) (key : Str) (args : Var) : Option (S × Var) :=
  (commands.call stod platform s key args).map fun (s, r) =>
    let ok := r.isSuccess || r.isAccepted
    let text := if ok then varToJson r.content else resultText platform r
    (s, .dict [
      (ascii "content", .list [.dict [(ascii "type", .string (ascii "text")), (ascii "text", .string text)]]),
      (ascii "isError", .bool (!ok))])

/-- `obj.has(key) ? obj[key].toString() : ""`. -/
def textField (obj : List (Str × Var)) (key : Str) : Str :=
  ((obj.lookup key).map (Var.toString platform)).getD []

/-- The body of the loop after `parse`: the state afterwards and the reply, if there is one. -/
def handle (s : S) (req : Var) : Option (S × Option Var) :=
  match req with
  | .dict reqObj =>
    match reqObj.lookup (ascii "id") with
    | none => some (s, none)
    | some id =>
      let method := textField platform reqObj (ascii "method")
      if method = ascii "initialize" then some (s, some (responseWithResult id makeInitializeResult))
      else if method = ascii "tools/list" then
        some (s, some (responseWithResult id (makeToolsListResult commands s)))
      else if method = ascii "tools/call" then
        match reqObj.lookup (ascii "params") with
        | some (.dict params) =>
          let toolName := textField platform params (ascii "name")
          if toolName = [] then some (s, some (responseWithError id (-32602) (ascii "tool name required")))
          else
            let args := (params.lookup (ascii "arguments")).getD (.dict [])
            (makeToolCallResult commands stod platform s toolName args).map fun (s, result) =>
              (s, some (responseWithResult id result))
        | _ => some (s, some (responseWithError id (-32602) (ascii "invalid params")))
      else some (s, some (responseWithError id (-32601) (ascii "method not found: " ++ method)))
  | _ => some (s, none)

/-- One message. There is no result when an exception leaves the loop, or a command never returns. -/
def handleMessage (s : S) (message : Str) : Option (S × Option Var) :=
  (json.parse simdjson stod message).bind (handle commands stod platform s)

/-- The loop: for each message the reply to it, if there is one, and the state at the end of the input.
A reply is written with `writeMessage(std::cout, stringify(reply))`. A message takes at least a byte. -/
def serve : Nat → S → Str → List (Option Var) × Option S
  | 0, s, _ => ([], some s)
  | fuel + 1, s, input =>
    match readMessage input with
    | none => ([], some s)
    | some (message, rest) =>
      match handleMessage commands simdjson stod platform s message with
      | none => ([], none)
      | some (s, reply) => (reply :: (serve fuel s rest).1, (serve fuel s rest).2)

/-- The bytes on the output. -/
def output (replies : List (Option Var)) : Str :=
  replies.reduceOption.flatMap fun reply => writeMessage (varToJson reply)

/-! ## What is claimed -/

/-- The value of a key in a well-formed object; the last one counts. -/
def lastField (key : Str) (fs : List (Str × Json)) : Option Json := fs.reverse.lookup key

/-- The id of a well-formed request object. -/
def requestId (body : Str) : Option Json :=
  match Json.read body with
  | some (.obj fs) => lastField (ascii "id") fs
  | _ => none

/-- The reply has the id. -/
def Carries (id : Json) (reply : Var) : Prop :=
  ∃ rep v, reply = .dict rep ∧ domToVar (id.onDemand simdjson.getDouble) = some v ∧
    rep.lookup (ascii "id") = some v

/-- A request object is answered with its id, anything else is not answered. -/
def Answers (body : Str) (reply : Option Var) : Prop :=
  match requestId body with
  | some id => ∃ rep, reply = some rep ∧ Carries simdjson id rep
  | none => reply = none

/-- The messages are read as they were written; the loop handles all of them and ends with the input;
each is answered as it should be. -/
structure Answered (s : S) (bodies : List Str) : Prop where
  framed : popAll readMessage bodies.length (bodies.flatMap writeMessage) = (bodies, [])
  handled : ∃ replies s', serve commands simdjson stod platform (bodies.flatMap writeMessage).length s
    (bodies.flatMap writeMessage) = (replies, some s') ∧ List.Forall₂ (Answers simdjson) bodies replies

/-! ## When it holds -/

/-- What the reader has to make of a body. -/
structure Fair (body : Str) : Prop where
  /-- What it presents is read to its end. -/
  sound : body ≠ [] → ∀ v, simdjson.iterate body = some (.value v) → v.Sound
  /-- A request is within its capacity. -/
  fits : requestId body ≠ none → body.length < 2 ^ 32
  /-- What is no document is not presented as an object with an id. -/
  genuine : body ≠ [] → ∀ fs, simdjson.iterate body = some (.value (.object fs)) →
    (∃ v, (some (ascii "id"), v) ∈ fs) → ∃ j, Json.read body = some j

/-- The tool that a request asks for, and its arguments. -/
def toolCall (reqObj : List (Str × Var)) : Option (Str × Var) :=
  if textField platform reqObj (ascii "method") = ascii "tools/call" then
    match reqObj.lookup (ascii "params") with
    | some (.dict params) =>
      let toolName := textField platform params (ascii "name")
      if toolName = [] then none else some (toolName, (params.lookup (ascii "arguments")).getD (.dict []))
    | _ => none
  else none

/-- The command that a request calls returns. -/
def Returns (s : S) (body : Str) : Prop :=
  ∀ reqObj name args, json.parse simdjson stod body = some (.dict reqObj) →
    (reqObj.lookup (ascii "id")).isSome = true → toolCall platform reqObj = some (name, args) →
    (commands.call stod platform s name args).isSome = true

/-- Every message is fair and calls a command that returns, in the state in which it is handled. -/
def Served : S → List Str → Prop
  | _, [] => True
  | s, body :: bodies =>
    (Fair simdjson body ∧ Returns commands simdjson stod platform s body) ∧
      ∀ s' reply, handleMessage commands simdjson stod platform s body = some (s', reply) → Served s' bodies

/-! ## Parsed objects -/

variable {simdjson} {stod} {body : Str}

theorem lookup_fieldsToVar {key : Str} {d : List (Str × Var)} : ∀ {fs dict}, fieldsToVar dict fs = some d →
    ((d.lookup key).isSome = true ↔ (∃ v, (some key, v) ∈ fs) ∨ (dict.lookup key).isSome = true)
  | [], dict, h => by
    rw [fieldsToVar, Option.some.injEq] at h
    simp [h]
  | (k, v) :: fs, dict, h => by
    rw [fieldsToVar] at h
    obtain ⟨k, rfl, h₁⟩ := Option.bind_eq_some_iff.mp h
    obtain ⟨x, -, h₂⟩ := Option.bind_eq_some_iff.mp h₁
    rw [lookup_fieldsToVar h₂, lookup_assign]
    by_cases hk : key = k
    · subst hk
      simp
    · simp [hk]

theorem lookup_document {getDouble : Str → Option Binary64} {key : Str} {d : List (Str × Var)} :
    ∀ {fs : List (Str × Json)} {dict}, fieldsToVar dict (Json.onDemandFields getDouble fs) = some d →
      d.lookup key = match lastField key fs with
        | some j => domToVar (j.onDemand getDouble)
        | none => dict.lookup key
  | [], dict, h => by
    rw [Json.onDemandFields, fieldsToVar, Option.some.injEq] at h
    rw [h]
    rfl
  | (k, j) :: fs, dict, h => by
    rw [Json.onDemandFields, fieldsToVar, Option.bind_some] at h
    obtain ⟨x, hx, h⟩ := Option.bind_eq_some_iff.mp h
    rw [lookup_document h, lookup_assign]
    have hlast : lastField key ((k, j) :: fs) = (lastField key fs).or (if key = k then some j else none) := by
      rw [lastField, List.reverse_cons, List.lookup_append, lastField]
      by_cases hk : key = k
      · simp [hk]
      · have hb : (key == k) = false := by simpa using hk
        simp [hk, List.lookup_cons, hb]
    rw [hlast]
    cases lastField key fs with
    | some j' => rfl
    | none =>
      by_cases hk : key = k
      · simp [hk, hx]
      · simp [hk]

theorem parseScalar_not_dict {json : Str} {d : List (Str × Var)} : parseScalar stod json ≠ .dict d := by
  unfold parseScalar
  extract_lets s
  split_ifs <;> first | exact fun h => Var.noConfusion h | skip
  all_goals split <;> exact fun h => Var.noConfusion h

/-- What is parsed as an object was presented as one. -/
theorem parse_dict {d : List (Str × Var)} (h : json.parse simdjson stod body = some (.dict d)) :
    body ≠ [] ∧ ∃ fs, simdjson.iterate body = some (.value (.object fs)) ∧ fieldsToVar [] fs = some d := by
  unfold json.parse at h
  split at h
  · cases h
  rename_i hne
  refine ⟨hne, ?_⟩
  split at h
  · cases h
  · rename_i v hv
    cases v <;> rw [domToVar] at h
    case object fs =>
      obtain ⟨d', hd, he⟩ := Option.map_eq_some_iff.mp h
      cases he
      exact ⟨fs, hv, hd⟩
    case array =>
      obtain ⟨_, _, he⟩ := Option.map_eq_some_iff.mp h
      cases he
    all_goals cases h
  · exact absurd (Option.some.inj h) parseScalar_not_dict

theorem parse_isSome : (json.parse simdjson stod body).isSome = true ↔
    (body ≠ [] → ∀ v, simdjson.iterate body = some (.value v) → v.Sound) := by
  unfold json.parse
  split
  · rename_i h
    simp [h]
  rename_i hne
  split
  · rename_i h
    simp [h]
  · rename_i v h
    rw [domToVar_isSome_iff]
    simp [hne, h]
  · rename_i h
    simp [h]

/-! ## One message -/

variable {commands} {platform} {s s' : S} {reply : Option Var}

/-- The loop handles an object exactly when the command that it calls returns. -/
theorem handle_isSome {d : List (Str × Var)} : (handle commands stod platform s (.dict d)).isSome = true ↔
    ∀ name args, (d.lookup (ascii "id")).isSome = true → toolCall platform d = some (name, args) →
      (commands.call stod platform s name args).isSome = true := by
  unfold handle toolCall
  simp only
  split
  · rename_i h
    simp [h]
  rename_i id hid
  simp only [hid, Option.isSome_some, true_implies]
  by_cases hm : textField platform d (ascii "method") = ascii "tools/call"
  · have h₁ : textField platform d (ascii "method") ≠ ascii "initialize" := by
      rw [hm]
      decide
    have h₂ : textField platform d (ascii "method") ≠ ascii "tools/list" := by
      rw [hm]
      decide
    simp only [if_neg h₁, if_neg h₂, if_pos hm]
    split
    · split
      · simp
      · simp [makeToolCallResult]
    · simp
  · simp only [if_neg hm]
    split_ifs <;> simp

/-- An object with an id is answered with it. -/
theorem handle_reply {d : List (Str × Var)} {id : Var} (hid : d.lookup (ascii "id") = some id)
    (h : handle commands stod platform s (.dict d) = some (s', reply)) :
    ∃ rep, reply = some (.dict rep) ∧ rep.lookup (ascii "id") = some id := by
  have hresult : ∀ v, ∃ rep, responseWithResult id v = .dict rep ∧ rep.lookup (ascii "id") = some id :=
    fun v => ⟨_, rfl, rfl⟩
  have herror : ∀ code msg, ∃ rep, responseWithError id code msg = .dict rep ∧
      rep.lookup (ascii "id") = some id := fun code msg => ⟨_, rfl, rfl⟩
  unfold handle at h
  simp only [hid] at h
  split at h
  · cases h
    obtain ⟨rep, hr, hl⟩ := hresult makeInitializeResult
    exact ⟨rep, congrArg some hr, hl⟩
  split at h
  · cases h
    obtain ⟨rep, hr, hl⟩ := hresult (makeToolsListResult commands s)
    exact ⟨rep, congrArg some hr, hl⟩
  split at h
  · split at h
    · split at h
      · cases h
        obtain ⟨rep, hr, hl⟩ := herror (-32602) (ascii "tool name required")
        exact ⟨rep, congrArg some hr, hl⟩
      · obtain ⟨⟨s₁, result⟩, -, he⟩ := Option.map_eq_some_iff.mp h
        cases he
        obtain ⟨rep, hr, hl⟩ := hresult result
        exact ⟨rep, congrArg some hr, hl⟩
    · cases h
      obtain ⟨rep, hr, hl⟩ := herror (-32602) (ascii "invalid params")
      exact ⟨rep, congrArg some hr, hl⟩
  · cases h
    obtain ⟨rep, hr, hl⟩ := herror (-32601)
      (ascii "method not found: " ++ textField platform d (ascii "method"))
    exact ⟨rep, congrArg some hr, hl⟩

/-- A document that is presented as an object is one. -/
theorem document_object (hl : simdjson.Lawful) {j : Json} {fs : List (Option Str × OnDemand)}
    (hread : Json.read body = some j) (hit : simdjson.iterate body = some (.value (.object fs))) :
    ∃ fs', j = .obj fs' ∧ fs = Json.onDemandFields simdjson.getDouble fs' := by
  have hlen : body.length < 2 ^ 32 := by
    by_contra hlen
    rw [hl.capacity body (Nat.le_of_not_lt hlen)] at hit
    cases hit
  rw [hl.document body j hread hlen, Option.some.injEq] at hit
  cases j with
  | obj fs' =>
    rw [Json.document, Document.value.injEq, Json.onDemand, OnDemand.object.injEq] at hit
    exact ⟨fs', rfl, hit.symm⟩
  | arr l =>
    rw [Json.document, Document.value.injEq, Json.onDemand] at hit
    cases hit
  | _ => cases hit

/-- The id of a parsed document. -/
theorem parsed_id (hl : simdjson.Lawful) {j : Json} {d : List (Str × Var)} (hread : Json.read body = some j)
    (h : json.parse simdjson stod body = some (.dict d)) :
    d.lookup (ascii "id") = (requestId body).bind fun id => domToVar (id.onDemand simdjson.getDouble) := by
  obtain ⟨-, fs, hit, hfields⟩ := parse_dict h
  obtain ⟨fs', rfl, rfl⟩ := document_object hl hread hit
  have hid : requestId body = lastField (ascii "id") fs' := by rw [requestId, hread]
  rw [lookup_document hfields, hid]
  cases lastField (ascii "id") fs' <;> rfl

/-- A request within the capacity is parsed as an object. -/
theorem parse_request (hl : simdjson.Lawful) (hlen : body.length < 2 ^ 32) {id : Json}
    (hid : requestId body = some id) (hsome : (json.parse simdjson stod body).isSome = true) :
    ∃ d v, json.parse simdjson stod body = some (.dict d) ∧ d.lookup (ascii "id") = some v ∧
      domToVar (id.onDemand simdjson.getDouble) = some v := by
  obtain ⟨fs, hread⟩ : ∃ fs, Json.read body = some (.obj fs) := by
    unfold requestId at hid
    split at hid
    · exact ⟨_, by assumption⟩
    · cases hid
  have hne : body ≠ [] := by
    rintro rfl
    have hnil : (Json.read []).isNone = true := by decide
    rw [hread] at hnil
    cases hnil
  have hit := hl.document body _ hread hlen
  have hparse : json.parse simdjson stod body =
      (fieldsToVar [] (Json.onDemandFields simdjson.getDouble fs)).map .dict := by
    simp only [json.parse, if_neg hne, hit, Json.document, Json.onDemand, domToVar]
  rw [hparse, Option.isSome_map] at hsome
  obtain ⟨d, hd⟩ := Option.isSome_iff_exists.mp hsome
  have hpd : json.parse simdjson stod body = some (.dict d) := by rw [hparse, hd, Option.map_some]
  have hlook := parsed_id hl hread hpd
  rw [hid, Option.bind_some] at hlook
  have hin : (d.lookup (ascii "id")).isSome = true := by
    have hmem : (ascii "id", id) ∈ fs := by
      rw [requestId, hread] at hid
      exact List.mem_reverse.mp (mem_of_lookup hid)
    rw [lookup_fieldsToVar hd, Json.onDemandFields_eq]
    exact .inl ⟨_, List.mem_map_of_mem hmem⟩
  obtain ⟨v, hv⟩ := Option.isSome_iff_exists.mp hin
  exact ⟨d, v, hpd, hv, hlook.symm.trans hv⟩

theorem handle_no_id {req : Var} (h : ∀ d, req = .dict d → d.lookup (ascii "id") = none) :
    handle commands stod platform s req = some (s, none) := by
  unfold handle
  split
  · rw [h _ rfl]
  · rfl

/-- **One message** is handled and answered as it should be exactly when it is fair and the command that
it calls returns. -/
theorem handleMessage_iff (hl : simdjson.Lawful) :
    (Fair simdjson body ∧ Returns commands simdjson stod platform s body) ↔
      ∃ s' reply, handleMessage commands simdjson stod platform s body = some (s', reply) ∧
        Answers simdjson body reply := by
  constructor
  · rintro ⟨hfair, hret⟩
    have hsome : (json.parse simdjson stod body).isSome = true := parse_isSome.mpr hfair.sound
    cases hid : requestId body with
    | some id =>
      obtain ⟨d, v, hd, hv, hval⟩ := parse_request hl (hfair.fits (by rw [hid]; exact fun h => by cases h)) hid hsome
      obtain ⟨⟨s', reply⟩, hhandle⟩ := Option.isSome_iff_exists.mp
        (handle_isSome.mpr fun name args hi htool => hret d name args hd hi htool)
      obtain ⟨rep, rfl, hrep⟩ := handle_reply hv hhandle
      refine ⟨s', some (.dict rep), by rw [handleMessage, hd, Option.bind_some, hhandle], ?_⟩
      rw [Answers, hid]
      exact ⟨_, rfl, rep, v, rfl, hval, hrep⟩
    | none =>
      obtain ⟨req, hreq⟩ := Option.isSome_iff_exists.mp hsome
      refine ⟨s, none, ?_, by rw [Answers, hid]⟩
      rw [handleMessage, hreq, Option.bind_some]
      refine handle_no_id fun d hd => ?_
      subst hd
      by_contra hne
      obtain ⟨hbody, fs, hit, hfields⟩ := parse_dict hreq
      have hin := (lookup_fieldsToVar hfields).mp (Option.isSome_iff_ne_none.mpr hne)
      obtain ⟨j, hread⟩ := hfair.genuine hbody fs hit (hin.resolve_right (by simp))
      rw [parsed_id hl hread hreq, hid] at hne
      exact hne rfl
  · rintro ⟨s', reply, hm, hans⟩
    obtain ⟨req, hreq, hhandle⟩ := Option.bind_eq_some_iff.mp hm
    refine ⟨⟨parse_isSome.mp (by rw [hreq]; rfl), fun hne => ?_, fun hbody fs hit hin => ?_⟩, ?_⟩
    · by_contra hlen
      have hnone : json.parse simdjson stod body = some .none := by
        rw [json.parse, hl.capacity body (Nat.le_of_not_lt hlen)]
        simp
      rw [hnone, Option.some.injEq] at hreq
      subst hreq
      cases hhandle
      obtain ⟨id, hid⟩ := Option.ne_none_iff_exists'.mp hne
      rw [Answers, hid] at hans
      obtain ⟨_, h, -⟩ := hans
      cases h
    · by_contra hread
      have hparse : json.parse simdjson stod body = (fieldsToVar [] fs).map .dict := by
        simp only [json.parse, if_neg hbody, hit, domToVar]
      rw [hparse] at hreq
      obtain ⟨d, hd, rfl⟩ := Option.map_eq_some_iff.mp hreq
      obtain ⟨v, hv⟩ := Option.isSome_iff_exists.mp ((lookup_fieldsToVar hd).mpr (.inl hin))
      obtain ⟨rep, rfl, -⟩ := handle_reply hv hhandle
      have hid : requestId body = none := by
        rw [requestId, Option.eq_none_iff_forall_ne_some.mpr fun j hj => hread ⟨j, hj⟩]
      rw [Answers, hid] at hans
      cases hans
    · intro d name args hd hi htool
      rw [hreq, Option.some.injEq] at hd
      subst hd
      exact handle_isSome.mp (by rw [hhandle]; rfl) name args hi htool

/-! ## Runs -/

theorem serve_nil (fuel : Nat) : serve commands simdjson stod platform fuel s [] = ([], some s) := by
  cases fuel <;> rfl

/-- A run over messages that were written is one message after the other. -/
theorem serve_cons (hlen : body.length < 2 ^ 64) (fuel : Nat) (rest : Str) :
    serve commands simdjson stod platform (fuel + 1) s (writeMessage body ++ rest) =
      match handleMessage commands simdjson stod platform s body with
      | none => ([], none)
      | some (s, reply) => (reply :: (serve commands simdjson stod platform fuel s rest).1,
          (serve commands simdjson stod platform fuel s rest).2) := by
  rw [serve, readMessage_writeMessage hlen]

theorem serve_iff (hl : simdjson.Lawful) (bodies : List Str) : ∀ {fuel : Nat} {s : S}, bodies.length ≤ fuel →
    (∀ b ∈ bodies, b.length < 2 ^ 64) →
    (Served commands simdjson stod platform s bodies ↔ ∃ replies s',
      serve commands simdjson stod platform fuel s (bodies.flatMap writeMessage) = (replies, some s') ∧
        List.Forall₂ (Answers simdjson) bodies replies) := by
  induction bodies with
  | nil =>
    intro fuel s _ _
    exact ⟨fun _ => ⟨[], s, serve_nil fuel, .nil⟩, fun _ => trivial⟩
  | cons body bodies ih =>
    intro fuel s hfuel hsize
    obtain ⟨fuel, rfl⟩ := Nat.exists_eq_add_one.mpr (Nat.lt_of_lt_of_le (Nat.succ_pos _) hfuel)
    have hfuel' : bodies.length ≤ fuel := Nat.le_of_succ_le_succ hfuel
    have hsize' := fun b hb => hsize b (List.mem_cons_of_mem _ hb)
    rw [List.flatMap_cons, serve_cons (hsize body List.mem_cons_self), Served, handleMessage_iff hl]
    constructor
    · rintro ⟨⟨s₁, reply, hm, hans⟩, hrest⟩
      obtain ⟨replies, s', hrun, hall⟩ := (ih hfuel' hsize').mp (hrest s₁ reply hm)
      exact ⟨reply :: replies, s', by simp only [hm, hrun], .cons hans hall⟩
    · rintro ⟨replies, s', hrun, hall⟩
      cases hm : handleMessage commands simdjson stod platform s body with
      | none =>
        rw [hm] at hrun
        cases (Prod.mk.inj hrun).2
      | some p =>
        obtain ⟨s₁, reply⟩ := p
        rw [hm] at hrun
        obtain ⟨rfl, hend⟩ := Prod.mk.inj hrun
        obtain ⟨hans, hall⟩ := List.forall₂_cons.mp hall
        refine ⟨⟨s₁, reply, rfl, hans⟩, fun s₂ reply₂ he => ?_⟩
        cases he
        exact (ih hfuel' hsize').mpr ⟨_, s', Prod.ext rfl hend, hall⟩

theorem length_le_stream (bodies : List Str) : bodies.length ≤ (bodies.flatMap writeMessage).length := by
  induction bodies with
  | nil => exact Nat.le_refl _
  | cons body bodies ih =>
    have hpos : 1 ≤ (writeMessage body).length := by
      simp only [writeMessage, List.length_append, List.length_cons]
      omega
    rw [List.flatMap_cons, List.length_append, List.length_cons]
    omega

/-- **The server reads what was written, survives every message, and answers each request with its id and
nothing else, exactly when every message is fair and the command that it calls returns.** -/
theorem answered_iff (hl : simdjson.Lawful) (bodies : List Str) (hsize : ∀ b ∈ bodies, b.length < 2 ^ 64) :
    Answered commands simdjson stod platform s bodies ↔ Served commands simdjson stod platform s bodies := by
  rw [serve_iff hl bodies (length_le_stream bodies) hsize]
  exact ⟨fun h => h.handled, fun h => ⟨frames_writeMessage hsize, h⟩⟩

/-- What reads the output gets the texts of the replies. -/
theorem frames_output {replies : List (Option Var)}
    (h : ∀ r ∈ replies.reduceOption, (varToJson r).length < 2 ^ 64) :
    popAll readMessage replies.reduceOption.length (output replies) =
      (replies.reduceOption.map varToJson, []) := by
  have hbytes : output replies = (replies.reduceOption.map varToJson).flatMap writeMessage := by
    rw [output, List.flatMap_map]
  have hlen : replies.reduceOption.length = (replies.reduceOption.map varToJson).length :=
    (List.length_map _).symm
  rw [hbytes, hlen]
  exact frames_writeMessage (List.forall_mem_map.mpr h)

end Server

/-- A program without commands. -/
def noCommands : Commands Unit := ⟨fun _ => [], fun _ _ => [], fun _ _ => none, fun _ _ _ => none⟩

def request : Str := 123 :: ([] ++ 34 :: (escape (ascii "id") ++ 34 :: 58 :: (intChars 7 ++ ([] ++ [125]))))

theorem request_read : Json.read request = some (.obj [(ascii "id", .int 7)]) := by
  have h := Json.read_of_reads (.obj (.single Json.ws_nil (readsString_escape (ascii "id")) (Json.reads_int 7)
    Json.ws_nil)) Json.ws_nil (by decide)
  rwa [List.append_nil] at h

/-- A request without a method, and a text that is no document. -/
theorem answered_sample : Answered noCommands .lazy (fun _ => none)
    ⟨fun _ => [], fun _ => [], fun _ => 0, fun _ => 0⟩ () [request, ascii "oops"] := by
  have hiter : Simdjson.lazy.iterate request = some (.value (.object [(some (ascii "id"), .int 7)])) :=
    Simdjson.lazy_lawful.document _ _ request_read (by decide)
  have hnone : (Simdjson.lazy.iterate (ascii "oops")).isNone = true := by decide +kernel
  have hoops : ∀ v, Simdjson.lazy.iterate (ascii "oops") ≠ some v := fun v hv => by
    rw [hv] at hnone
    cases hnone
  refine (answered_iff Simdjson.lazy_lawful _ (by decide)).mpr
    ⟨⟨⟨fun _ v hv => ?_, fun _ => by decide, fun _ _ _ _ => ⟨_, request_read⟩⟩, ?_⟩, fun _ _ _ =>
      ⟨⟨⟨fun _ v hv => absurd hv (hoops _), fun _ => by decide, fun _ fs hv _ => absurd hv (hoops _)⟩, ?_⟩,
        fun _ _ _ => trivial⟩⟩
  · rw [hiter, Option.some.injEq, Document.value.injEq] at hv
    subst hv
    exact ⟨rfl, trivial, trivial⟩
  · rintro d name args hd - htool
    obtain ⟨-, fs, hit, hfields⟩ := parse_dict hd
    rw [hiter, Option.some.injEq, Document.value.injEq, OnDemand.object.injEq] at hit
    subst hit
    cases hfields
    cases htool
  · rintro d name args hd - -
    obtain ⟨-, fs, hit, -⟩ := parse_dict hd
    exact absurd hit (hoops _)

/-- A misspelt literal inside a message ends the server, and the request after it is never read. -/
theorem bad_literal_ends : ¬ Answered noCommands .lazy (fun _ => none)
    ⟨fun _ => [], fun _ => [], fun _ => 0, fun _ => 0⟩ () [ascii "[tru]", request] := by
  rintro ⟨-, h⟩
  obtain ⟨⟨hfair, -⟩, -⟩ :=
    (serve_iff Simdjson.lazy_lawful _ (length_le_stream _) (by decide)).mpr h
  exact (hfair.sound (by decide) _ rfl).1

end Mcp

end VersatileEngine
