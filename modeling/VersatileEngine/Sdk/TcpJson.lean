import VersatileEngine.Lib.RawReads

/-!
# VersatileEngine.Sdk.TcpJson

The receive loop of `TcpJsonTransport`: the bytes of the connection, and the messages that are dispatched.

* `processMessages`     — the values that `raw_decode` takes off the buffer.
* `recvTurn`            — one turn of `_recv_loop`; every exception ends the loop.
* `processMessages_spec` — a buffer that begins the lines of messages: those that are complete are dispatched.
* `messages_reassembled` — which runs dispatch the messages that were written, and end with the connection.

A Python string stands as its UTF-8 bytes. What the callbacks and the waiting calls do with a message is not
part of it; they raise nothing here.
-/

namespace VersatileEngine

namespace TcpJsonTransport

open Json

/-- The characters that `str.lstrip` takes away. -/
def spaces : List Nat :=
  [0x09, 0x0A, 0x0B, 0x0C, 0x0D, 0x1C, 0x1D, 0x1E, 0x1F, 0x20, 0x85, 0xA0, 0x1680, 0x2000, 0x2001, 0x2002, 0x2003,
    0x2004, 0x2005, 0x2006, 0x2007, 0x2008, 0x2009, 0x200A, 0x2028, 0x2029, 0x202F, 0x205F, 0x3000]

def dropSpace (s : Str) : Option Str :=
  spaces.findSome? fun u => if (Utf8.encode u).isPrefixOf s then some (s.drop (Utf8.encode u).length) else none

def lstripFrom : Nat → Str → Str
  | 0, s => s
  | n + 1, s =>
    match dropSpace s with
    | some s => lstripFrom n s
    | none => s

def lstrip (s : Str) : Str := lstripFrom s.length s

/-- The last field of a name. -/
def field (fs : List (Str × Json)) (key : Str) : Option Json := fs.reverse.lookup key

/-- A list or a `dict`, which is no key of a `dict`. -/
def isContainer : Json → Bool
  | .arr _ | .obj _ => true
  | _ => false

def isEvent : Option Json → Bool
  | some (.str e) => e = ascii "node.changed"
  | _ => false

/-- The body of the loop, on a message: `false` when it raises. A message must be a `dict`, and the path of an
event or the id of a reply is looked up in one. -/
def dispatches : Json → Bool
  | .obj fs =>
    if isEvent (field fs (ascii "event")) then !((field fs (ascii "path")).any isContainer)
    else !((field fs (ascii "id")).any isContainer)
  | _ => false

/-- `_process_messages`: what is left in the buffer, the messages, and whether it returns. -/
def processMessages (depth : Nat) : Nat → Str → Str × List Json × Bool
  | 0, buf => (buf, [], true)
  | n + 1, buf =>
    let buf := lstrip buf
    if buf = [] then (buf, [], true)
    else
      match rawDecode depth buf with
      | .invalid => (buf, [], true)
      | .tooDeep => (buf, [], false)
      | .found msg rest =>
        if dispatches msg then
          let r := processMessages depth n rest
          (r.1, msg :: r.2.1, r.2.2)
        else (rest, [], false)

inductive RecvLoop where
  | running
  /-- `recv` has returned no bytes. -/
  | closed
  /-- An exception has ended it. -/
  | raised
deriving DecidableEq

structure Reception where
  recvBuf : Str
  dispatched : List Json
  loop : RecvLoop

def Reception.start : Reception := ⟨[], [], .running⟩

/-- What `recv` returns, and after what time; no bytes when the connection is closed. -/
structure Arrived where
  wait : Nat
  data : Str

/-- One turn of `_recv_loop`. -/
def recvTurn (timeout depth : Nat) (t : Reception) (a : Arrived) : Reception :=
  if t.loop ≠ .running then t
  else if timeout ≤ a.wait then { t with loop := .raised }
  else if a.data = [] then { t with loop := .closed }
  else if Utf8.Valid a.data then
    let r := processMessages depth (t.recvBuf.length + a.data.length + 1) (t.recvBuf ++ a.data)
    ⟨r.1, t.dispatched ++ r.2.1, if r.2.2 then .running else .raised⟩
  else { t with loop := .raised }

def recvLoop (timeout depth : Nat) (as : List Arrived) : Reception := as.foldl (recvTurn timeout depth) .start

/-- A message that the server writes: an object, on a line of its own. -/
structure Message where
  fields : List (Str × Json)
  body : Str
  reads : Json.Reads (.obj fields) (123 :: body)
  dispatched : dispatches (.obj fields) = true

namespace Message

def json (m : Message) : Json := .obj m.fields

def line (m : Message) : Str := 123 :: (m.body ++ [10])

end Message

def lines (ms : List Message) : Str := ms.flatMap Message.line

/-! ## One buffer -/

section Buffer

variable {depth n : Nat} {s b more : Str} {ms : List Message}

theorem lstrip_newline (s : Str) : lstrip (10 :: s) = lstrip s := rfl

theorem lstrip_brace (s : Str) : lstrip (123 :: s) = 123 :: s := rfl

theorem lines_cons (m : Message) (ms : List Message) : lines (m :: ms) = 123 :: (m.body ++ 10 :: lines ms) := by
  simp [lines, Message.line]

/-- A buffer that is no more than the beginning of lines, without the white space in front. -/
theorem lstrip_lines (h : b ++ more = lines ms) : lstrip b = b := by
  cases b with
  | nil => rfl
  | cons c b =>
    cases ms with
    | nil => cases h
    | cons m ms =>
      rw [lines_cons] at h
      obtain rfl := (List.cons.inj h).1
      exact lstrip_brace b

/-- The end of a line may come later than what is before it. -/
def Follows (nl : Str) : Prop := nl = [] ∨ nl = [10]

theorem strip_cases {nl : Str} (hnl : Follows nl) (h : b ++ more = nl ++ lines ms) :
    (lstrip b = [] ∧ more = 10 :: lines ms) ∨ (lstrip b ++ more = lines ms ∧ (lstrip b).length ≤ b.length) := by
  rcases hnl with rfl | rfl
  · rw [lstrip_lines h]
    exact .inr ⟨h, Nat.le_refl _⟩
  · cases b with
    | nil => exact .inl ⟨rfl, h⟩
    | cons c b =>
      obtain ⟨rfl, hline⟩ := List.cons.inj h
      rw [lstrip_newline, lstrip_lines hline]
      exact .inr ⟨hline, Nat.le_succ _⟩

/-- Nothing is found in a part of a message that is not the whole. -/
theorem rawDecode_part {m : Message} {q : Str} (hdeep : nesting m.json ≤ depth) (h : b ++ q = m.body) (hq : q ≠ []) :
    rawDecode depth (123 :: b) = .invalid := by
  have hgoes := rawDecode_goes depth b q
  have hwhole := rawDecode_reads m.reads hdeep ends_nil
  rw [List.append_nil] at hwhole
  rw [h, hwhole] at hgoes
  cases hb : rawDecode depth (123 :: b) with
  | invalid => rfl
  | tooDeep =>
    rw [hb] at hgoes
    cases hgoes
  | found j r =>
    rw [hb] at hgoes
    have hrest := hgoes trivial
    simp only [Scanned.found.injEq] at hrest
    exact absurd (List.append_eq_nil_iff.mp hrest.2.symm).2 hq

/-- **The messages whose text is complete are dispatched, and the others stay in the buffer.** -/
theorem processMessages_spec (n : Nat) : ∀ {b nl more : Str} {ms : List Message}, Follows nl →
    b ++ more = nl ++ lines ms → b.length < n → (∀ m ∈ ms, nesting m.json ≤ depth) →
    ∃ done rest nl', ms = done ++ rest ∧ Follows nl' ∧
      (processMessages depth n b).2 = (done.map Message.json, true) ∧
      (processMessages depth n b).1 ++ more = nl' ++ lines rest ∧ (more = [] → rest = []) := by
  induction n with
  | zero => exact fun _ _ h _ => absurd h (Nat.not_lt_zero _)
  | succ n ih =>
    intro b nl more ms hnl h hlen hdeep
    rw [processMessages]
    dsimp only
    rcases strip_cases hnl h with ⟨hnil, hmore⟩ | ⟨h, hle⟩
    · rw [if_pos hnil, hnil]
      exact ⟨[], ms, [10], rfl, .inr rfl, rfl, hmore, fun hno => by rw [hno] at hmore; cases hmore⟩
    · cases hb : lstrip b with
      | nil =>
        rw [hb] at h
        refine ⟨[], ms, [], rfl, .inl rfl, rfl, h, fun hno => ?_⟩
        cases ms with
        | nil => rfl
        | cons m ms =>
          rw [hno, lines_cons] at h
          cases h
      | cons c b₁ =>
        rw [hb] at h hle
        rw [if_neg (by simp)]
        cases ms with
        | nil => cases h
        | cons m ms =>
          rw [lines_cons] at h
          obtain ⟨rfl, hline⟩ := List.cons.inj h
          obtain ⟨hdeep₀, hdeep⟩ := List.forall_mem_cons.mp hdeep
          have hline : b₁ ++ more = m.body ++ 10 :: lines ms := hline
          have hpart : (∃ q, q ≠ [] ∧ b₁ ++ q = m.body) ∨ ∃ b₂, b₁ = m.body ++ b₂ ∧ b₂ ++ more = 10 :: lines ms := by
            rcases List.append_eq_append_iff.mp hline with ⟨q, hq, hmore⟩ | ⟨b₂, hb₂, hmore⟩
            · by_cases hempty : q = []
              · rw [hempty, List.append_nil] at hq
                rw [hempty, List.nil_append] at hmore
                exact .inr ⟨[], by rw [hq, List.append_nil], hmore⟩
              · exact .inl ⟨q, hempty, hq.symm⟩
            · exact .inr ⟨b₂, hb₂, hmore.symm⟩
          rcases hpart with ⟨q, hne, hq⟩ | ⟨b₂, rfl, hmore⟩
          · rw [rawDecode_part hdeep₀ hq hne]
            refine ⟨[], m :: ms, [], rfl, .inl rfl, rfl, by rw [List.nil_append, lines_cons]; exact h, fun hno => ?_⟩
            have hlen := congrArg List.length hline
            rw [hno, ← hq] at hlen
            simp only [List.length_append, List.length_cons, List.length_nil] at hlen
            omega
          · have hends : Json.Ends b₂ := by
              intro c hc
              cases b₂ with
              | nil => cases hc
              | cons d b₂ =>
                obtain rfl := Option.some.inj hc
                rw [(List.cons.inj hmore).1]
                rfl
            have hfound := rawDecode_reads m.reads hdeep₀ hends
            rw [List.cons_append] at hfound
            rw [hfound]
            simp only [m.dispatched, if_true]
            have hlt : b₂.length < n := by
              simp only [List.length_cons, List.length_append] at hle
              omega
            obtain ⟨done, rest, nl', rfl, hnl', hr, hleft, hend⟩ := ih (.inr rfl) hmore hlt hdeep
            refine ⟨m :: done, rest, nl', rfl, hnl', ?_, hleft, hend⟩
            rw [hr]
            rfl

end Buffer

/-! ## The loop -/

section Loop

variable {timeout depth : Nat} {t : Reception} {a : Arrived} {as : List Arrived} {ms : List Message}

theorem recvTurn_running (h : (recvTurn timeout depth t a).loop = .running) : t.loop = .running ∧
    a.wait < timeout ∧ Utf8.Valid a.data := by
  rw [recvTurn] at h
  by_cases hloop : t.loop = .running
  · rw [if_neg (not_not.mpr hloop)] at h
    split_ifs at h with hwait hdata hvalid
    exact ⟨hloop, not_le.mp hwait, hvalid⟩
  · rw [if_pos hloop] at h
    exact absurd h hloop

theorem recvTurn_closed (h : (recvTurn timeout depth t a).loop = .closed) (hdata : a.data ≠ []) : t.loop = .closed := by
  rw [recvTurn, if_neg hdata] at h
  by_cases hloop : t.loop = .running
  · rw [if_neg (not_not.mpr hloop)] at h
    split_ifs at h
    dsimp only at h
    split_ifs at h
  · rwa [if_pos hloop] at h

theorem foldl_running (h : (as.foldl (recvTurn timeout depth) t).loop = .running) : t.loop = .running ∧
    ∀ a ∈ as, a.wait < timeout ∧ Utf8.Valid a.data := by
  induction as generalizing t with
  | nil => exact ⟨h, by simp⟩
  | cons a as ih =>
    obtain ⟨hturn, has⟩ := ih h
    obtain ⟨hrun, ha⟩ := recvTurn_running hturn
    exact ⟨hrun, List.forall_mem_cons.mpr ⟨ha, has⟩⟩

/-- Only `recv` without bytes closes the loop. -/
theorem foldl_closed (hdata : ∀ a ∈ as, a.data ≠ []) (h : (as.foldl (recvTurn timeout depth) t).loop = .closed) :
    t.loop = .closed := by
  induction as generalizing t with
  | nil => exact h
  | cons a as ih =>
    obtain ⟨ha, has⟩ := List.forall_mem_cons.mp hdata
    exact recvTurn_closed (ih has h) ha

theorem processMessages_nesting (n : Nat) : ∀ (b : Str), ∀ j ∈ (processMessages depth n b).2.1, nesting j ≤ depth := by
  induction n with
  | zero => exact fun _ j hj => (by cases hj)
  | succ n ih =>
    intro b j hj
    rw [processMessages] at hj
    dsimp only at hj
    split_ifs at hj
    · cases hj
    · split at hj
      · cases hj
      · cases hj
      · rename_i msg rest hfound
        split_ifs at hj
        · rcases List.mem_cons.mp hj with rfl | hj
          · exact rawDecode_nesting hfound
          · exact ih rest j hj
        · cases hj

theorem recvTurn_nesting (h : ∀ j ∈ t.dispatched, nesting j ≤ depth) :
    ∀ j ∈ (recvTurn timeout depth t a).dispatched, nesting j ≤ depth := by
  have hmore : ∀ n b, ∀ j ∈ t.dispatched ++ (processMessages depth n b).2.1, nesting j ≤ depth := by
    intro n b j hj
    rcases List.mem_append.mp hj with hj | hj
    · exact h j hj
    · exact processMessages_nesting n b j hj
  rw [recvTurn]
  split_ifs
  · exact h
  · exact h
  · exact h
  · exact hmore _ _
  · exact h

theorem foldl_nesting (h : ∀ j ∈ t.dispatched, nesting j ≤ depth) :
    ∀ j ∈ (as.foldl (recvTurn timeout depth) t).dispatched, nesting j ≤ depth := by
  induction as generalizing t with
  | nil => exact h
  | cons a as ih => exact ih (recvTurn_nesting h)

/-- The bytes that arrive are those of the lines, in whatever chunks: every message is dispatched. -/
theorem foldl_dispatches (has : ∀ a ∈ as, a.data ≠ [] ∧ a.wait < timeout ∧ Utf8.Valid a.data)
    (hdeep : ∀ m ∈ ms, nesting m.json ≤ depth) {nl : Str} (hnl : Follows nl) (hloop : t.loop = .running)
    (hstream : t.recvBuf ++ as.flatMap Arrived.data = nl ++ lines ms) (hidle : as = [] → ms = []) :
    (as.foldl (recvTurn timeout depth) t).loop = .running ∧
      (as.foldl (recvTurn timeout depth) t).dispatched = t.dispatched ++ ms.map Message.json := by
  induction as generalizing t nl ms with
  | nil =>
    rw [hidle rfl, List.map_nil, List.append_nil]
    exact ⟨hloop, rfl⟩
  | cons a as ih =>
    obtain ⟨⟨hdata, hwait, hvalid⟩, has⟩ := List.forall_mem_cons.mp has
    rw [List.flatMap_cons, ← List.append_assoc] at hstream
    obtain ⟨done, rest, nl', rfl, hnl', hr, hleft, hend⟩ :=
      processMessages_spec (t.recvBuf.length + a.data.length + 1) hnl hstream (by rw [List.length_append]; omega) hdeep
    have hturn : recvTurn timeout depth t a = ⟨(processMessages depth (t.recvBuf.length + a.data.length + 1)
        (t.recvBuf ++ a.data)).1, t.dispatched ++ done.map Message.json, .running⟩ := by
      rw [recvTurn, if_neg (not_not.mpr hloop), if_neg (not_le.mpr hwait), if_neg hdata, if_pos hvalid]
      dsimp only
      rw [hr]
      rfl
    rw [List.foldl_cons, hturn, List.map_append, ← List.append_assoc]
    exact ih has (fun m hm => hdeep m (List.mem_append_right _ hm)) hnl' rfl hleft fun hno => hend (by rw [hno]; rfl)

end Loop

/-- **The messages that the server writes are dispatched in order, and the loop ends with the connection, exactly
when every chunk is a text of its own, no wait reaches the timeout, and no message is nested deeper than the
interpreter recurses.** -/
theorem messages_reassembled (timeout depth : Nat) (ms : List Message) (as : List Arrived) (last : Nat)
    (hdata : ∀ a ∈ as, a.data ≠ []) (hstream : as.flatMap Arrived.data = lines ms) :
    ((recvLoop timeout depth (as ++ [⟨last, []⟩])).dispatched = ms.map Message.json ∧
      (recvLoop timeout depth (as ++ [⟨last, []⟩])).loop = .closed) ↔
    (∀ a ∈ as, a.wait < timeout ∧ Utf8.Valid a.data) ∧ last < timeout ∧ ∀ m ∈ ms, nesting m.json ≤ depth := by
  rw [recvLoop, List.foldl_append]
  set t := as.foldl (recvTurn timeout depth) .start with ht
  show ((recvTurn timeout depth t ⟨last, []⟩).dispatched = _ ∧ (recvTurn timeout depth t ⟨last, []⟩).loop = _) ↔ _
  constructor
  · rintro ⟨hdisp, hclosed⟩
    have hnot : t.loop ≠ .closed := fun hc => by cases foldl_closed hdata (ht ▸ hc)
    by_cases hrun : t.loop = .running
    · rw [recvTurn, if_neg (not_not.mpr hrun)] at hdisp hclosed
      by_cases hlast : timeout ≤ last
      · rw [if_pos hlast] at hclosed
        cases hclosed
      · rw [if_neg hlast, if_pos rfl] at hdisp
        refine ⟨(foldl_running (ht ▸ hrun)).2, not_le.mp hlast, fun m hm => ?_⟩
        have hall : ∀ j ∈ t.dispatched, nesting j ≤ depth := ht ▸ foldl_nesting fun j hj => (by cases hj)
        refine hall m.json ?_
        rw [show t.dispatched = ms.map Message.json from hdisp]
        exact List.mem_map_of_mem hm
    · rw [recvTurn, if_pos hrun] at hclosed
      exact absurd hclosed hnot
  · rintro ⟨has, hlast, hdeep⟩
    have hidle : as = [] → ms = [] := by
      rintro rfl
      cases ms with
      | nil => rfl
      | cons m ms =>
        rw [lines_cons] at hstream
        cases hstream
    obtain ⟨hrun, hdisp⟩ := foldl_dispatches (fun a ha => ⟨hdata a ha, has a ha⟩) hdeep (.inl rfl)
      (show Reception.start.loop = .running from rfl) hstream hidle
    rw [recvTurn, ht, if_neg (not_not.mpr hrun), if_neg (not_le.mpr hlast), if_pos rfl]
    exact ⟨hdisp, rfl⟩

/-- A reply with a character beyond ASCII: its bytes are C3 and A9. -/
def accented : Message where
  fields := [(ascii "d", .str [0xC3, 0xA9])]
  body := [34, 100, 34, 58, 34, 0xC3, 0xA9, 34, 125]
  reads :=
    have hvalue : ReadsString [0xC3, 0xA9] [0xC3, 0xA9] := (readsString_nil.byte (by decide)).byte (by decide)
    .obj (.single ws_nil (readsString_nil.byte (by decide)) (reads_str hvalue) ws_nil)
  dispatched := rfl

theorem messages_reassembled_sample :
    (recvLoop 30000 900 [⟨5, [123, 34, 100, 34, 58, 34, 0xC3, 0xA9]⟩, ⟨7, [34, 125, 10]⟩, ⟨20, []⟩]).dispatched =
      [accented.json] ∧
    (recvLoop 30000 900 [⟨5, [123, 34, 100, 34, 58, 34, 0xC3, 0xA9]⟩, ⟨7, [34, 125, 10]⟩, ⟨20, []⟩]).loop = .closed :=
  (messages_reassembled 30000 900 [accented] [⟨5, [123, 34, 100, 34, 58, 34, 0xC3, 0xA9]⟩, ⟨7, [34, 125, 10]⟩] 20
    (by decide) rfl).mpr ⟨by decide, by decide, by decide⟩

/-- A chunk ends between the two bytes: the loop ends, and nothing is dispatched. -/
theorem split_character_raises : ∃ as : List Arrived, as.flatMap Arrived.data = lines [accented] ∧
    (∀ a ∈ as, a.data ≠ [] ∧ a.wait = 0) ∧
    (recvLoop 30000 900 (as ++ [⟨0, []⟩])).dispatched = [] ∧ (recvLoop 30000 900 (as ++ [⟨0, []⟩])).loop = .raised :=
  ⟨[⟨0, [123, 34, 100, 34, 58, 34, 0xC3]⟩, ⟨0, [0xA9, 34, 125, 10]⟩], rfl, by decide, rfl, rfl⟩

end TcpJsonTransport

end VersatileEngine
