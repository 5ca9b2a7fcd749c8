import VersatileEngine.Lib.Sessions
import VersatileEngine.Schema.RoundTrip
import VersatileEngine.Service.Client
import VersatileEngine.Service.Gateway

/-!
# VersatileEngine.Service.TcpServers

`NodeTcpServer` and `BinTcpServer`: the receive callbacks between the connections and the dispatcher.

* `NodeTcpServer.popLine`, `NodeTcpServer.answer` — a line of JSON at the front of the buffer, and the reply to it.
* `BinTcpServer.answer`                           — the reply to a frame.
* `NodeTcpServer.serves_lines`                    — every complete line is answered once, in the order of its
  connection, however the bytes arrive and whatever the other connections do.
* `BinTcpServer.serves_frames`                    — and so is every request frame.

The callbacks are taken one at a time. An application has its services for each session: the events that they
push to it are part of their state.
-/

namespace VersatileEngine

open Protocol Sessions

/-- `hash_key()` of a session. -/
abbrev SessionKey := UInt64

/-- The arguments of the two servers. -/
def Protocol.Context.tcp (ctx : Context) : Context :=
  { ctx with subscribe := true, tasks := true, batchLimit := 500, allowSubscriptions := true }

namespace NodeTcpServer

/-- `fillError`, on the node of the reply. -/
def fillError (code error : Str) : Tree := (Reply.error code error).into .none (.blank (ascii "rep"))

/-- `buf.find('\n')`, and the buffer without the line and its end. -/
def popLine (buf : Str) : Option (Str × Str) :=
  if 10 ∈ buf then some (buf.take (buf.idxOf 10), buf.drop (buf.idxOf 10 + 1)) else none

/-- The line without a carriage return at its end. -/
def chomp (line : Str) : Str := if line.getLast? = some 13 then line.dropLast else line

section Serve

variable {S N : Type} (app : SessionKey → App S N) (ctx : Context)

/-- One turn of the loop in `processLines`. -/
def answer (key : SessionKey) (line : Str) (s : S) : Option (S × List Str) :=
  if chomp line = [] then some (s, [])
  else
    (JsonS.importTree ctx.simdjson .default (.blank (ascii "req")) (chomp line)).bind fun (read, req) =>
      if !read then
        (toJson (fillError (ascii "invalid_request") (ascii "invalid JSON request"))).map fun text =>
          (s, [text ++ [10]])
      else
        (dispatchNodeProtocol (app key) ctx.tcp req (.blank (ascii "rep")) s).bind fun (s, rep) =>
          (toJson rep).map fun text => (s, [text ++ [10]])

def handler (removeSession : SessionKey → S → S) : Handler SessionKey Str S Str := ⟨answer app ctx, removeSession⟩

/-- `bind_connect`, `bind_recv` and `bind_disconnect`, called one after another. -/
def run (removeSession : SessionKey → S → S) (s : S) (es : List (Traffic SessionKey UInt8 S)) :
    Option (Server SessionKey UInt8 S Str) :=
  (Server.start s).run popLine (handler app ctx removeSession) es

end Serve

end NodeTcpServer

namespace Frame

/-- `tryPopFrame`, as the loops of client and server use it. -/
def pop (buf : List UInt8) : Option ((UInt8 × Var) × List UInt8) :=
  let p := tryPopFrame buf 0 .none
  if p.ok then some ((p.flag, p.outVar), p.buf) else none

end Frame

namespace BinTcpServer

def flagFromReply (rep : Tree) : UInt8 :=
  if (rep.get (ascii "ok")).toBool false then flagResponse else flagError

section Serve

variable {S N : Type} (app : SessionKey → App S N) (ctx : Context)

/-- `makeFrame(flagFromReply(&reply), toVar(reply))`. -/
def replyFrame (rep : Tree) : List UInt8 := Frame.encodeFrame (flagFromReply rep) (nodeToVar .default rep)

/-- One turn of the loop in `processFrames`. The importer takes every value, and there is no other reply. -/
def answer (key : SessionKey) (frame : UInt8 × Var) (s : S) : Option (S × List (List UInt8)) :=
  if frame.1 &&& flagTypeMask ≠ 0 then some (s, [])
  else
    (dispatchNodeProtocol (app key) ctx.tcp (VarS.importNode .default (.blank (ascii "req")) frame.2)
      (.blank (ascii "rep")) s).map fun (s, rep) => (s, [replyFrame rep])

def handler (removeSession : SessionKey → S → S) : Handler SessionKey (UInt8 × Var) S (List UInt8) :=
  ⟨answer app ctx, removeSession⟩

def run (removeSession : SessionKey → S → S) (s : S) (es : List (Traffic SessionKey UInt8 S)) :
    Option (Server SessionKey UInt8 S (List UInt8)) :=
  (Server.start s).run Frame.pop (handler app ctx removeSession) es

end Serve

end BinTcpServer

/-! ## Lines -/

namespace NodeTcpServer

theorem popLine_none {buf : Str} (h : 10 ∉ buf) : popLine buf = none := if_neg h

theorem popLine_eq_none {buf : Str} (h : popLine buf = none) : 10 ∉ buf := fun hmem => by
  rw [popLine, if_pos hmem] at h
  cases h

theorem popLine_line {line : Str} (h : 10 ∉ line) (rest : Str) : popLine (line ++ 10 :: rest) = some (line, rest) := by
  have hidx : (line ++ 10 :: rest).idxOf 10 = line.length := by
    rw [List.idxOf_append_of_notMem h, List.idxOf_cons_self, Nat.add_zero]
  rw [popLine, if_pos (by simp), hidx, List.take_left, ← List.drop_drop, List.drop_left]
  rfl

/-- A line ends at the first newline. -/
theorem popLine_some {buf line rest : Str} (h : popLine buf = some (line, rest)) :
    10 ∉ line ∧ buf = line ++ 10 :: rest := by
  by_cases hmem : 10 ∈ buf
  · obtain ⟨a, b, rfl, ha⟩ := List.eq_append_cons_of_mem hmem
    rw [popLine_line ha] at h
    cases h
    exact ⟨ha, rfl⟩
  · rw [popLine_none hmem] at h
    cases h

theorem framing_popLine : Framing popLine := by
  refine ⟨fun {buf line rest} h => ?_, fun {buf line rest} h more => ?_⟩
  · rw [(popLine_some h).2, List.length_append, List.length_cons]
    omega
  · obtain ⟨hline, rfl⟩ := popLine_some h
    rw [List.append_assoc, List.cons_append, popLine_line hline]

/-- The lines that are taken off a stream are those that end in it. -/
theorem frames_popLine (n : Nat) : ∀ stream : Str, stream.length ≤ n →
    (frames popLine stream).1 = (stream.splitOn 10).dropLast := by
  induction n with
  | zero =>
    intro stream h
    rw [List.length_eq_zero_iff.mp (Nat.le_zero.mp h)]
    rfl
  | succ n ih =>
    intro stream h
    cases hp : popLine stream with
    | none =>
      rw [frames_none hp, List.splitOn_eq_singleton (popLine_eq_none hp)]
      rfl
    | some p =>
      obtain ⟨line, rest⟩ := p
      obtain ⟨hline, rfl⟩ := popLine_some hp
      rw [List.length_append, List.length_cons] at h
      rw [frames_some framing_popLine hp, List.splitOn_append_cons_self_of_not_mem hline,
        List.dropLast_cons_of_ne_nil (List.splitOn_ne_nil _ _), ih rest (by omega)]

section Serve

variable {S N : Type} {app : SessionKey → App S N} {ctx : Context} {removeSession : SessionKey → S → S}

/-- A line is answered by one message, a blank one by none. -/
theorem answer_length {key : SessionKey} {line : Str} {s s' : S} {out : List Str}
    (h : answer app ctx key line s = some (s', out)) : out.length = if chomp line ≠ [] then 1 else 0 := by
  rw [answer] at h
  split_ifs at h with hblank
  · cases h
    rw [if_neg (not_not_intro hblank)]
    rfl
  · rw [if_pos hblank]
    obtain ⟨⟨read, req⟩, -, h⟩ := Option.bind_eq_some_iff.mp h
    dsimp only at h
    split_ifs at h
    · obtain ⟨text, -, h⟩ := Option.map_eq_some_iff.mp h
      cases h
      rfl
    · obtain ⟨⟨s₁, rep⟩, -, h⟩ := Option.bind_eq_some_iff.mp h
      obtain ⟨text, -, h⟩ := Option.map_eq_some_iff.mp h
      cases h
      rfl

/-- The complete lines of what was received on a connection. -/
def completeLines (stream : Str) : List Str := (stream.splitOn 10).dropLast

/-- The lines that ask for something. -/
def requestLines (stream : Str) : List Str := (completeLines stream).filter fun line => chomp line ≠ []

/-- **Every complete line is answered once, in the order of its connection.** However the bytes of the
connections are cut and mixed, the server carries out one sequence of requests, among the ends of connections and
the other changes; the requests of a connection are the complete lines of its stream, and it is sent one reply for
each that is not blank. -/
theorem serves_lines (app : SessionKey → App S N) (ctx : Context) (removeSession : SessionKey → S → S) (s : S)
    (es : List (Traffic SessionKey UInt8 S)) : ∃ ws : List (Work SessionKey Str S),
    (run app ctx removeSession s es).map (fun v => (v.state, v.sent)) =
      performAll (handler app ctx removeSession) ws (s, []) ∧
    (∀ key, requestsOf key ws = (streams key none es).flatMap completeLines) ∧
    others ws = interruptions Str es ∧
    ∀ v, run app ctx removeSession s es = some v → ∀ key,
      (sentTo key v.sent).length = ((streams key none es).flatMap requestLines).length := by
  obtain ⟨ws, hrun, hreq, hothers⟩ :=
    run_works (h := handler app ctx removeSession) framing_popLine s es
  have hlines : ∀ key, requestsOf key ws = (streams key none es).flatMap completeLines := fun key => by
    rw [hreq key]
    exact congrArg (fun f => (streams key none es).flatMap f) (funext fun stream => frames_popLine _ stream (Nat.le_refl _))
  refine ⟨ws, hrun, hlines, hothers, fun v hv key => ?_⟩
  have hv' : (run app ctx removeSession s es).map (fun v => (v.state, v.sent)) = some (v.state, v.sent) := by
    rw [hv, Option.map_some]
  have hsent := sentTo_filter (h := handler app ctx removeSession) (fun line => chomp line ≠ [])
    (fun ha => by simpa using answer_length ha) key (hrun.symm.trans hv')
  rw [hsent, hlines, List.filter_flatMap]
  rfl

end Serve

end NodeTcpServer

/-! ## Frames -/

namespace Frame

/-- What is popped is a frame with a body of the length that its header announces. -/
theorem pop_some {buf rest : List UInt8} {f : UInt8 × Var} (h : pop buf = some (f, rest)) :
    ∃ body, body.length < 2 ^ 32 ∧ buf = ofBody f.1 body ++ rest ∧ f.2 = payload body := by
  rw [pop] at h
  split_ifs at h with hok
  cases h
  obtain ⟨flag, body, hlen, hbuf, hpop⟩ := tryPopFrame_exact hok
  have hflag : (tryPopFrame buf 0 .none).flag = flag := by rw [hpop]
  have hout : (tryPopFrame buf 0 .none).outVar = payload body := by rw [hpop]
  exact ⟨body, hlen, by rw [hflag]; exact hbuf, hout⟩

theorem pop_ofBody {body : List UInt8} (h : body.length < 2 ^ 32) (flag : UInt8) (rest : List UInt8) :
    pop (ofBody flag body ++ rest) = some ((flag, payload body), rest) := by
  rw [pop, tryPopFrame_ofBody h]
  rfl

theorem framing_pop : Framing pop := by
  refine ⟨fun {buf f rest} h => ?_, fun {buf f rest} h more => ?_⟩
  · obtain ⟨body, -, hbuf, -⟩ := pop_some h
    rw [hbuf, List.length_append, ofBody_length, headerSize]
    omega
  · obtain ⟨body, hlen, hbuf, hf⟩ := pop_some h
    rw [hbuf, List.append_assoc, pop_ofBody hlen, ← hf]

/-- The frames that were received completely. -/
def completeFrames (bytes : List UInt8) : List (UInt8 × Var) := (frames pop bytes).1

end Frame

namespace BinTcpServer

section Serve

variable {S N : Type} {app : SessionKey → App S N} {ctx : Context} {removeSession : SessionKey → S → S}

/-- `(flag & FLAG_TYPE_MASK) == FLAG_REQUEST`. -/
def isRequest (frame : UInt8 × Var) : Bool := frame.1 &&& flagTypeMask = 0

/-- A request is answered by one frame, any other frame by none. -/
theorem answer_length {key : SessionKey} {frame : UInt8 × Var} {s s' : S} {out : List (List UInt8)}
    (h : answer app ctx key frame s = some (s', out)) : out.length = if isRequest frame then 1 else 0 := by
  rw [answer] at h
  split_ifs at h with hflag
  · cases h
    rw [if_neg (by simpa [isRequest] using hflag)]
    rfl
  · obtain ⟨⟨s₁, rep⟩, -, h⟩ := Option.map_eq_some_iff.mp h
    cases h
    rw [if_pos (by simpa [isRequest] using hflag)]
    rfl

/-- **Every request frame is answered once, in the order of its connection**, as for lines. -/
theorem serves_frames (app : SessionKey → App S N) (ctx : Context) (removeSession : SessionKey → S → S) (s : S)
    (es : List (Traffic SessionKey UInt8 S)) : ∃ ws : List (Work SessionKey (UInt8 × Var) S),
    (run app ctx removeSession s es).map (fun v => (v.state, v.sent)) =
      performAll (handler app ctx removeSession) ws (s, []) ∧
    (∀ key, requestsOf key ws = (streams key none es).flatMap Frame.completeFrames) ∧
    others ws = interruptions (UInt8 × Var) es ∧
    ∀ v, run app ctx removeSession s es = some v → ∀ key, (sentTo key v.sent).length =
      ((streams key none es).flatMap fun bytes => (Frame.completeFrames bytes).filter isRequest).length := by
  obtain ⟨ws, hrun, hreq, hothers⟩ :=
    run_works (h := handler app ctx removeSession) Frame.framing_pop s es
  refine ⟨ws, hrun, hreq, hothers, fun v hv key => ?_⟩
  have hv' : (run app ctx removeSession s es).map (fun v => (v.state, v.sent)) = some (v.state, v.sent) := by
    rw [hv, Option.map_some]
  have hsent := sentTo_filter (h := handler app ctx removeSession) isRequest answer_length key (hrun.symm.trans hv')
  rw [hsent, hreq, List.filter_flatMap]
  rfl

end Serve

end BinTcpServer

end VersatileEngine
