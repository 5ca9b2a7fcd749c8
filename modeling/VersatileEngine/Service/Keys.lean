import VersatileEngine.Lib.Utf8

/-!
# VersatileEngine.Service.Keys

Key events on the wire between `TerminalTcpClient` and `TerminalReplServer` (`terminal_service.cpp`).

* `keyEventToBytes` — what the client sends for a key event; `Wire` adds telnet option negotiations.
* `consumeTelnetByte`, `decodeEscapedTcpKey`, `ConnectionState.byte` — the receive loop of the server,
  one byte at a time. The line editor is a parameter: any state with `onKey`, `appendCooked`, `setMode`.
* `recv`            — a chunk arrives; `recvAll`, a run of chunks.
* `AtRest`          — between two events nothing is pending in the decoder.
* `Deliverable`     — the events that can come out of the decoder at all. `DELETE_KEY` is not one of
  them: its fourth byte is read when the escape sequence has already been given up.
* `recvAll_heard_iff` — the editor gets the events that were sent exactly when they are deliverable.
-/

namespace VersatileEngine

namespace Terminal

inductive TerminalKey
  | NONE | CHARACTER | ENTER | BACKSPACE | TAB | CTRL_C | CTRL_U | LEFT | RIGHT | UP | DOWN
  | DELETE_KEY | HOME | END | EOF_KEY
deriving DecidableEq

structure TerminalKeyEvent where
  key : TerminalKey := .NONE
  ch : UInt8 := 0
  chars : Str := []
deriving DecidableEq

structure TerminalEditResult where
  output : Str := []
  redraw : Bool := false
  prompt_on_new_line : Bool := false
  disconnect : Bool := false
  eof : Bool := false

inductive Mode
  | COOKED | CONTROLLED

/-- What the server uses of a line editor whose state is an `E`. -/
structure TerminalLineEditor (E : Type) where
  onKey : E → TerminalKeyEvent → E × TerminalEditResult
  appendCooked : E → UInt8 → E
  setMode : E → Mode → E

/-! ## The client -/

def keyEventToBytes (ev : TerminalKeyEvent) : Str :=
  match ev.key with
  | .CHARACTER =>
    if ev.chars ≠ [] then ev.chars
    else if 0x20 ≤ ev.ch ∧ ev.ch < 0x7F then [ev.ch]
    else []
  | .ENTER => [0x0D]
  | .BACKSPACE => [0x08]
  | .TAB => [0x09]
  | .CTRL_C => [0x03]
  | .CTRL_U => [0x15]
  | .EOF_KEY => [0x04]
  | .LEFT => [0x1B, 0x5B, 0x44]
  | .RIGHT => [0x1B, 0x5B, 0x43]
  | .UP => [0x1B, 0x5B, 0x41]
  | .DOWN => [0x1B, 0x5B, 0x42]
  | .DELETE_KEY => [0x1B, 0x5B, 0x33, 0x7E]
  | .HOME => [0x1B, 0x5B, 0x48]
  | .END => [0x1B, 0x5B, 0x46]
  | .NONE => []

/-- The event for a character; `ch` is set for a single byte only. -/
def TerminalKeyEvent.character (c : Char) : TerminalKeyEvent :=
  ⟨.CHARACTER, if c.toNat < 0x80 then UInt8.ofNat c.toNat else 0, Utf8.encode c.toNat⟩

/-- The events of a client: a character, or one of the other keys. -/
inductive Emitted : TerminalKeyEvent → Prop
  | character (c : Char) : Emitted (.character c)
  | key {k : TerminalKey} (hnone : k ≠ .NONE) (hchar : k ≠ .CHARACTER) : Emitted { key := k }

inductive Verb
  | WILL | WONT | DO | DONT

def Verb.code : Verb → UInt8
  | .WILL => 0xFB
  | .WONT => 0xFC
  | .DO => 0xFD
  | .DONT => 0xFE

/-- What goes over the connection: a key event or an option negotiation. -/
inductive Wire
  | event (ev : TerminalKeyEvent)
  | negotiation (verb : Verb) (option : UInt8)

def Wire.bytes : Wire → Str
  | .event ev => keyEventToBytes ev
  | .negotiation verb option => [0xFF, verb.code, option]

def Wire.event? : Wire → Option TerminalKeyEvent
  | .event ev => some ev
  | .negotiation _ _ => none

/-! ## The server -/

structure TcpDecodeState where
  iac_state : Nat := 0
  esc_seq : Str := []
  prev_cr : Bool := false

/-- The state afterwards, and whether the byte was telnet's. -/
def consumeTelnetByte (state : TcpDecodeState) (ch : UInt8) : TcpDecodeState × Bool :=
  if state.iac_state = 1 then
    if 0xFB ≤ ch ∧ ch ≤ 0xFE then ({ state with iac_state := 2 }, true)
    else ({ state with iac_state := 0 }, true)
  else if state.iac_state = 2 then ({ state with iac_state := 0 }, true)
  else if ch = 0xFF then ({ state with iac_state := 1 }, true)
  else (state, false)

/-- The key of a complete escape sequence; any other sequence leaves the key as it is. -/
def sequenceKey (seq : Str) (key : TerminalKey) : TerminalKey :=
  if seq = [0x1B, 0x5B, 0x41] then .UP
  else if seq = [0x1B, 0x5B, 0x42] then .DOWN
  else if seq = [0x1B, 0x5B, 0x43] then .RIGHT
  else if seq = [0x1B, 0x5B, 0x44] then .LEFT
  else if seq = [0x1B, 0x5B, 0x48] ∨ seq = [0x1B, 0x4F, 0x48] then .HOME
  else if seq = [0x1B, 0x5B, 0x46] ∨ seq = [0x1B, 0x4F, 0x46] then .END
  else if seq = [0x1B, 0x5B, 0x33, 0x7E] then .DELETE_KEY
  else key

/-- The state and the event afterwards, and whether the byte belongs to an escape sequence. -/
def decodeEscapedTcpKey (state : TcpDecodeState) (ch : UInt8) (ev : TerminalKeyEvent) :
    TcpDecodeState × TerminalKeyEvent × Bool :=
  if state.esc_seq = [] then
    if ch = 0x1B then ({ state with esc_seq := [ch] }, ev, true) else (state, ev, false)
  else
    let seq := state.esc_seq ++ [ch]
    if seq = [0x1B, 0x5B] ∨ seq = [0x1B, 0x4F] then ({ state with esc_seq := seq }, ev, true)
    else ({ state with esc_seq := [] }, { ev with key := sequenceKey seq ev.key }, true)

/-- A connection; `handed` are the events its editor got, `stopped` is the end of its session. -/
structure ConnectionState (E : Type) where
  editor : E
  decode : TcpDecodeState := {}
  server_controls_input : Bool := false
  utf8_buf : Str := []
  utf8_expected : Nat := 0
  stopped : Bool := false
  handed : List TerminalKeyEvent := []

variable {E : Type} (ed : TerminalLineEditor E)

namespace ConnectionState

/-- `flushResult(cs->editor->onKey(ev))`, as far as the connection goes on or not. -/
def onKey (c : ConnectionState E) (ev : TerminalKeyEvent) : ConnectionState E :=
  { c with
    editor := (ed.onKey c.editor ev).1
    stopped := (ed.onKey c.editor ev).2.disconnect
    handed := c.handed ++ [ev] }

/-- A byte from `0x80` on: the accumulator of a character. -/
def utf8Byte (c : ConnectionState E) (ch : UInt8) : ConnectionState E :=
  if c.utf8_buf = [] then
    if ch &&& 0xE0 = 0xC0 then { c with utf8_buf := [ch], utf8_expected := 2 }
    else if ch &&& 0xF0 = 0xE0 then { c with utf8_buf := [ch], utf8_expected := 3 }
    else if ch &&& 0xF8 = 0xF0 then { c with utf8_buf := [ch], utf8_expected := 4 }
    else { c with utf8_buf := [], utf8_expected := 0 }
  else if ch &&& 0xC0 = 0x80 then
    let buf := c.utf8_buf ++ [ch]
    if c.utf8_expected ≤ buf.length then
      if c.server_controls_input then
        { c with utf8_buf := [], utf8_expected := 0 }.onKey ed { key := .CHARACTER, chars := buf }
      else
        { c with utf8_buf := [], utf8_expected := 0, editor := buf.foldl ed.appendCooked c.editor }
    else { c with utf8_buf := buf }
  else { c with utf8_buf := [], utf8_expected := 0 }

/-- A byte that is neither telnet's nor part of an escape sequence. -/
def plainByte (c : ConnectionState E) (ch : UInt8) : ConnectionState E :=
  if ch = 0x0D ∨ ch = 0x0A then c.onKey ed { key := .ENTER }
  else if ch = 0x7F ∨ ch = 0x08 then c.onKey ed { key := .BACKSPACE }
  else if ch = 0x03 then c.onKey ed { key := .CTRL_C }
  else if ch = 0x04 then c.onKey ed { key := .EOF_KEY }
  else if ch = 0x09 then c.onKey ed { key := .TAB }
  else if ch = 0x15 then c.onKey ed { key := .CTRL_U }
  else if 0x20 ≤ ch ∧ ch < 0x7F then
    if c.server_controls_input then c.onKey ed ⟨.CHARACTER, ch, [ch]⟩
    else { c with editor := ed.appendCooked c.editor ch }
  else if 0x80 ≤ ch then c.utf8Byte ed ch
  else c

/-- A byte that telnet left over. -/
def keyByte (c : ConnectionState E) (ch : UInt8) : ConnectionState E :=
  if ch = 0x0A ∧ c.decode.prev_cr = true then { c with decode := { c.decode with prev_cr := false } }
  else
    let (decode, ev, escaped) := decodeEscapedTcpKey { c.decode with prev_cr := ch = 0x0D } ch {}
    let c := { c with decode := decode }
    if escaped then
      if c.server_controls_input ∧ ev.key ≠ .NONE then c.onKey ed ev else c
    else if decode.esc_seq ≠ [] then c
    else c.plainByte ed ch

/-- One round of the receive loop. After a disconnect the loop has returned and nothing is read
any more. -/
def byte (c : ConnectionState E) (ch : UInt8) : ConnectionState E :=
  if c.stopped then c
  else
    let (decode, telnet) := consumeTelnetByte c.decode ch
    let c := { c with decode := decode }
    if telnet then
      if c.server_controls_input then c
      else { c with server_controls_input := true, editor := ed.setMode c.editor .CONTROLLED }
    else c.keyByte ed ch

/-- A chunk arrives. -/
def recv (c : ConnectionState E) (data : Str) : ConnectionState E := data.foldl (byte ed) c

def recvAll (c : ConnectionState E) (chunks : List Str) : ConnectionState E := chunks.foldl (recv ed) c

/-- Nothing is pending in the decoder of a connection in `CONTROLLED` mode. -/
structure AtRest (c : ConnectionState E) : Prop where
  controls : c.server_controls_input = true
  iac_state : c.decode.iac_state = 0
  esc_seq : c.decode.esc_seq = []
  utf8_buf : c.utf8_buf = []

end ConnectionState

/-- The events up to the one on which the editor ends the connection. -/
def TerminalLineEditor.heard : E → List TerminalKeyEvent → List TerminalKeyEvent
  | _, [] => []
  | e, ev :: evs =>
    ev :: if (ed.onKey e ev).2.disconnect then [] else heard (ed.onKey e ev).1 evs

/-- The events that the decoder can produce: no `DELETE_KEY`, and no control character. -/
def Deliverable (ev : TerminalKeyEvent) : Prop :=
  ev.key ≠ .DELETE_KEY ∧ ∀ b ∈ ev.chars, 0x20 ≤ b ∧ b ≠ 0x7F

instance (ev : TerminalKeyEvent) : Decidable (Deliverable ev) :=
  @instDecidableAnd _ _ _ (List.decidableBAll (fun b => 0x20 ≤ b ∧ b ≠ 0x7F) ev.chars)

/-! ## One event -/

namespace ConnectionState

variable {ed} {c : ConnectionState E}

/-- `c'` is `c` after its editor got `ev`, with nothing pending. -/
structure Hears (ed : TerminalLineEditor E) (c c' : ConnectionState E) (ev : TerminalKeyEvent) : Prop where
  rest : c'.AtRest
  editor : c'.editor = (ed.onKey c.editor ev).1
  stopped : c'.stopped = (ed.onKey c.editor ev).2.disconnect
  handed : c'.handed = c.handed ++ [ev]

theorem foldl_stopped (h : c.stopped = true) (s : Str) : s.foldl (byte ed) c = c := by
  induction s with
  | nil => rfl
  | cons b s ih => rw [List.foldl_cons, byte, if_pos h, ih]

/-- Outside telnet a byte other than `IAC` goes to the key decoder. -/
theorem byte_key (h : c.stopped = false) (hiac : c.decode.iac_state = 0) {b : UInt8} (hb : b ≠ 0xFF) :
    c.byte ed b = c.keyByte ed b := by
  have : consumeTelnetByte c.decode b = (c.decode, false) := by simp [consumeTelnetByte, hiac, hb]
  rw [byte, if_neg (by simp [h]), this]
  rfl

/-- With nothing pending, an event that is handed to the editor is heard. -/
theorem AtRest.hears_onKey (hc : c.AtRest) (cr : Bool) (ev : TerminalKeyEvent) :
    Hears ed c ({ c with decode := { c.decode with prev_cr := cr } }.onKey ed ev) ev :=
  ⟨⟨hc.controls, hc.iac_state, hc.esc_seq, hc.utf8_buf⟩, rfl, rfl, rfl⟩

/-- An option negotiation leaves the connection as it was. -/
theorem AtRest.negotiation (hc : c.AtRest) (hs : c.stopped = false) (verb : Verb) (option : UInt8) :
    (Wire.negotiation verb option).bytes.foldl (byte ed) c = c := by
  obtain ⟨e, ⟨iac, esc, cr⟩, controls, buf, n, stopped, handed⟩ := c
  obtain ⟨rfl, rfl, rfl, rfl⟩ := hc
  cases verb <;> simp_all [Wire.bytes, Verb.code, byte, consumeTelnetByte]

/-- The keys of a single byte, and the arrow and cursor keys. -/
theorem AtRest.hears_key (hc : c.AtRest) (hs : c.stopped = false) {k : TerminalKey} (hnone : k ≠ .NONE)
    (hchar : k ≠ .CHARACTER) (hdel : k ≠ .DELETE_KEY) :
    Hears ed c ((keyEventToBytes { key := k }).foldl (byte ed) c) { key := k } := by
  have hkey : (keyEventToBytes { key := k }).foldl (byte ed) c =
      { c with decode := { c.decode with prev_cr := k = TerminalKey.ENTER } }.onKey ed { key := k } := by
    obtain ⟨e, ⟨iac, esc, cr⟩, controls, buf, n, stopped, handed⟩ := c
    obtain ⟨rfl, rfl, rfl, rfl⟩ := hc
    simp only at hs
    subst hs
    cases k
    case NONE => exact absurd rfl hnone
    case CHARACTER => exact absurd rfl hchar
    case DELETE_KEY => exact absurd rfl hdel
    all_goals
      simp [keyEventToBytes, byte, consumeTelnetByte, keyByte, decodeEscapedTcpKey, sequenceKey, plainByte, onKey]
  rw [hkey]
  exact hc.hears_onKey _ _

/-- The connection with `prev_cr` cleared. -/
def noCr (c : ConnectionState E) : ConnectionState E := { c with decode := { c.decode with prev_cr := false } }

/-- Outside telnet and escape sequences, a byte that is no control character is taken for a character
or a part of one. -/
theorem byte_plain (hs : c.stopped = false) (hiac : c.decode.iac_state = 0) (hesc : c.decode.esc_seq = [])
    {b : UInt8} (hb : 0x20 ≤ b) (hff : b ≠ 0xFF) : c.byte ed b = c.noCr.plainByte ed b := by
  have hlow : ∀ k < 0x20, b ≠ k := fun k hk he => absurd hb (by rw [he]; exact UInt8.not_le.mpr hk)
  rw [byte_key hs hiac hff, keyByte, if_neg (fun h => hlow 0x0A (by decide) h.1)]
  simp [decodeEscapedTcpKey, noCr, hesc, hlow 0x1B (by decide), hlow 0x0D (by decide)]

variable (ed) in
theorem AtRest.hears_ascii (hc : c.AtRest) (hs : c.stopped = false) {b : UInt8} (hb : 0x20 ≤ b) (hb' : b < 0x7F) :
    Hears ed c (c.byte ed b) ⟨.CHARACTER, b, [b]⟩ := by
  have hlow : ∀ k < 0x20, b ≠ k := fun k hk he => absurd hb (by rw [he]; exact UInt8.not_le.mpr hk)
  have hplain : c.noCr.plainByte ed b = c.noCr.onKey ed ⟨.CHARACTER, b, [b]⟩ := by
    rw [plainByte]
    simp [hlow 0x0D (by decide), hlow 0x0A (by decide), hlow 0x08 (by decide), hlow 0x03 (by decide),
      hlow 0x04 (by decide), hlow 0x09 (by decide), hlow 0x15 (by decide), hb, hb', noCr, hc.controls,
      UInt8.ne_of_lt hb']
  rw [byte_plain hs hc.iac_state hc.esc_seq hb (by rintro rfl; revert hb'; decide), hplain]
  exact hc.hears_onKey false _

/-- A byte of a character of several bytes. -/
def HighByte (b : UInt8) : Prop := 0x80 ≤ b ∧ b ≠ 0xFF

theorem byte_high (hs : c.stopped = false) (hiac : c.decode.iac_state = 0) (hesc : c.decode.esc_seq = [])
    {b : UInt8} (hb : HighByte b) : c.byte ed b = c.noCr.utf8Byte ed b := by
  have hlow : ∀ k < 0x80, b ≠ k := fun k hk he => absurd hb.1 (by rw [he]; exact UInt8.not_le.mpr hk)
  have hlt : ¬b < 0x7F := UInt8.not_lt.mpr (UInt8.le_trans (by decide) hb.1)
  rw [byte_plain hs hiac hesc (UInt8.le_trans (by decide) hb.1) hb.2, plainByte]
  simp [hlow 0x0D (by decide), hlow 0x0A (by decide), hlow 0x08 (by decide), hlow 0x03 (by decide),
    hlow 0x04 (by decide), hlow 0x09 (by decide), hlow 0x15 (by decide), hlow 0x7F (by decide), hlt, hb.1]

variable (ed) in
/-- The bytes after the first one complete the character. -/
theorem hears_tail {ts : Str} (hne : ts ≠ []) (ht : ∀ b ∈ ts, HighByte b ∧ b &&& 0xC0 = 0x80) :
    ∀ {c : ConnectionState E}, c.server_controls_input = true → c.decode.iac_state = 0 →
      c.decode.esc_seq = [] → c.stopped = false → c.utf8_buf ≠ [] →
      c.utf8_expected = c.utf8_buf.length + ts.length →
      Hears ed c (ts.foldl (byte ed) c) { key := .CHARACTER, chars := c.utf8_buf ++ ts } := by
  induction ts with
  | nil => exact absurd rfl hne
  | cons b ts ih =>
    intro c hctl hiac hesc hs hbuf hexp
    obtain ⟨hhigh, hcont⟩ := ht b List.mem_cons_self
    have hbuf' : c.noCr.utf8_buf ≠ [] := hbuf
    rw [List.foldl_cons, byte_high hs hiac hesc hhigh, utf8Byte, if_neg hbuf', if_pos hcont]
    by_cases hts : ts = []
    · subst hts
      simp only [noCr, hexp, List.length_append, List.length_cons, List.length_nil, Nat.le_refl, if_true, hctl,
        List.foldl_nil]
      exact ⟨⟨rfl, hiac, hesc, rfl⟩, rfl, rfl, rfl⟩
    · have hlt : ¬c.noCr.utf8_expected ≤ (c.noCr.utf8_buf ++ [b]).length := by
        have := List.length_pos_iff.mpr hts
        simp only [noCr, hexp, List.length_append, List.length_cons, List.length_nil]
        omega
      simp only [if_neg hlt]
      have h := ih hts (fun x hx => ht x (List.mem_cons_of_mem _ hx))
        (c := { c.noCr with utf8_buf := c.noCr.utf8_buf ++ [b] }) hctl hiac hesc hs (by simp)
        (by simp only [noCr, hexp, List.length_append, List.length_cons, List.length_nil]; omega)
      refine ⟨h.rest, h.editor.trans ?_, h.stopped.trans ?_, h.handed.trans ?_⟩ <;> simp [noCr]

/-- The length of a character that its first byte announces; 0 for a byte that is none. -/
def leadLength (b : UInt8) : Nat :=
  if b &&& 0xE0 = 0xC0 then 2 else if b &&& 0xF0 = 0xE0 then 3 else if b &&& 0xF8 = 0xF0 then 4 else 0

variable (ed) in
theorem AtRest.hears_high (hc : c.AtRest) (hs : c.stopped = false) {b : UInt8} {ts : Str} (hb : HighByte b)
    (ht : ∀ b ∈ ts, HighByte b ∧ b &&& 0xC0 = 0x80) (hne : ts ≠ []) (hlen : leadLength b = ts.length + 1) :
    Hears ed c ((b :: ts).foldl (byte ed) c) { key := .CHARACTER, chars := b :: ts } := by
  have hlead : c.noCr.utf8Byte ed b = { c.noCr with utf8_buf := [b], utf8_expected := leadLength b } := by
    have hbuf : c.noCr.utf8_buf = [] := hc.utf8_buf
    rw [utf8Byte, if_pos hbuf]
    unfold leadLength at hlen ⊢
    split_ifs at hlen ⊢ <;> rfl
  rw [List.foldl_cons, byte_high hs hc.iac_state hc.esc_seq hb, hlead]
  have h := hears_tail ed hne ht (c := { c.noCr with utf8_buf := [b], utf8_expected := leadLength b })
    hc.controls hc.iac_state hc.esc_seq hs (by simp) (by simp [hlen, Nat.add_comm])
  exact ⟨h.rest, h.editor, h.stopped, h.handed⟩

/-- The bytes of a character beyond ASCII. -/
theorem encode_high {u : Nat} (hu : 0x80 ≤ u) (hmax : u < 0x110000) : ∃ b ts, Utf8.encode u = b :: ts ∧
    HighByte b ∧ (∀ b ∈ ts, HighByte b ∧ b &&& 0xC0 = 0x80) ∧ ts ≠ [] ∧ leadLength b = ts.length + 1 := by
  have hcont : ∀ n < 64, HighByte (UInt8.ofNat (0x80 + n)) ∧ UInt8.ofNat (0x80 + n) &&& 0xC0 = 0x80 := by
    unfold HighByte
    decide
  have hlead₂ : ∀ n < 32, HighByte (UInt8.ofNat (0xC0 + n)) ∧ leadLength (UInt8.ofNat (0xC0 + n)) = 2 := by
    unfold HighByte
    decide
  have hlead₃ : ∀ n < 16, HighByte (UInt8.ofNat (0xE0 + n)) ∧ leadLength (UInt8.ofNat (0xE0 + n)) = 3 := by
    unfold HighByte
    decide
  have hlead₄ : ∀ n < 8, HighByte (UInt8.ofNat (0xF0 + n)) ∧ leadLength (UInt8.ofNat (0xF0 + n)) = 4 := by
    unfold HighByte
    decide
  unfold Utf8.encode
  split_ifs with h₁ h₂ h₃
  · omega
  · obtain ⟨hb, hl⟩ := hlead₂ (u / 64) (by omega)
    exact ⟨_, _, rfl, hb, List.forall_mem_singleton.mpr (hcont _ (by omega)), by simp, hl⟩
  · obtain ⟨hb, hl⟩ := hlead₃ (u / 4096) (by omega)
    exact ⟨_, _, rfl, hb, List.forall_mem_cons.mpr ⟨hcont _ (by omega),
      List.forall_mem_singleton.mpr (hcont _ (by omega))⟩, by simp, hl⟩
  · obtain ⟨hb, hl⟩ := hlead₄ (u / 262144) (by omega)
    exact ⟨_, _, rfl, hb, List.forall_mem_cons.mpr ⟨hcont _ (by omega),
      List.forall_mem_cons.mpr ⟨hcont _ (by omega), List.forall_mem_singleton.mpr (hcont _ (by omega))⟩⟩,
      by simp, hl⟩

variable (ed) in
theorem AtRest.hears_character (hc : c.AtRest) (hs : c.stopped = false) (x : Char)
    (hd : Deliverable (.character x)) :
    Hears ed c ((keyEventToBytes (.character x)).foldl (byte ed) c) (.character x) := by
  by_cases hx : x.toNat < 0x80
  · have hchars : Utf8.encode x.toNat = [UInt8.ofNat x.toNat] := if_pos hx
    obtain ⟨hlow, hdel⟩ := hd.2 (UInt8.ofNat x.toNat) (by simp [TerminalKeyEvent.character, hchars])
    have hlt : UInt8.ofNat x.toNat < 0x7F := by
      have hne : x.toNat ≠ 0x7F := fun he => hdel (by rw [he]; rfl)
      have hval : (UInt8.ofNat x.toNat).toNat = x.toNat := by
        rw [UInt8.toNat_ofNat']
        omega
      rw [UInt8.lt_iff_toNat_lt, hval]
      exact Nat.lt_of_le_of_ne (Nat.le_of_lt_succ hx) hne
    simpa [keyEventToBytes, TerminalKeyEvent.character, hchars, hx] using hc.hears_ascii ed hs hlow hlt
  · have hmax : x.toNat < 0x110000 := by
      rcases x.valid with h | h
      · exact Nat.lt_trans h (by decide)
      · exact h.2
    obtain ⟨b, ts, henc, hb, hts, hne, hlen⟩ := encode_high (Nat.le_of_not_lt hx) hmax
    simpa [keyEventToBytes, TerminalKeyEvent.character, henc, hx] using hc.hears_high ed hs hb hts hne hlen

variable (ed) in
/-- **One event.** -/
theorem AtRest.hears (hc : c.AtRest) (hs : c.stopped = false) {ev : TerminalKeyEvent} (he : Emitted ev)
    (hd : Deliverable ev) : Hears ed c ((keyEventToBytes ev).foldl (byte ed) c) ev := by
  cases he with
  | character x => exact hc.hears_character ed hs x hd
  | key hnone hchar => exact hc.hears_key hs hnone hchar hd.1

/-! ## What the decoder can produce -/

/-- A pending escape sequence has at most two bytes. -/
def Escaping (seq : Str) : Prop := seq = [] ∨ seq = [0x1B] ∨ seq = [0x1B, 0x5B] ∨ seq = [0x1B, 0x4F]

/-- A connection in `CONTROLLED` mode, wherever its decoder is; a pending character has no byte below
`0x80`. -/
structure Controlled (c : ConnectionState E) : Prop where
  controls : c.server_controls_input = true
  esc_seq : Escaping c.decode.esc_seq
  utf8_buf : ∀ b ∈ c.utf8_buf, 0x80 ≤ b

theorem AtRest.controlled (hc : c.AtRest) : c.Controlled :=
  ⟨hc.controls, .inl hc.esc_seq, fun b hb => absurd hb (by rw [hc.utf8_buf]; exact List.not_mem_nil)⟩

/-- `c'` is a controlled connection that got nothing but deliverable events since `c`. -/
def Delivers (c c' : ConnectionState E) : Prop :=
  c'.Controlled ∧ ∃ evs, c'.handed = c.handed ++ evs ∧ ∀ ev ∈ evs, Deliverable ev

theorem Delivers.none {c' : ConnectionState E} (h : c'.Controlled) (he : c'.handed = c.handed) : Delivers c c' :=
  ⟨h, [], by rw [he, List.append_nil], fun _ h => absurd h List.not_mem_nil⟩

theorem Controlled.onKey (h : c.Controlled) {ev : TerminalKeyEvent} (hd : Deliverable ev) :
    Delivers c (c.onKey ed ev) :=
  ⟨⟨h.controls, h.esc_seq, h.utf8_buf⟩, [ev], rfl, fun _ he => List.mem_singleton.mp he ▸ hd⟩

theorem deliverable_key {k : TerminalKey} (h : k ≠ .DELETE_KEY) : Deliverable { key := k } :=
  ⟨h, fun _ hb => absurd hb List.not_mem_nil⟩

theorem Controlled.utf8Byte (h : c.Controlled) {b : UInt8} (hb : 0x80 ≤ b) : Delivers c (c.utf8Byte ed b) := by
  have hnil : ∀ x ∈ ([] : Str), (0x80 : UInt8) ≤ x := fun _ h => absurd h List.not_mem_nil
  have hone : ∀ x ∈ [b], 0x80 ≤ x := fun x hx => List.mem_singleton.mp hx ▸ hb
  have hbuf : ∀ x ∈ c.utf8_buf ++ [b], 0x80 ≤ x := fun x hx =>
    (List.mem_append.mp hx).elim (h.utf8_buf x) (hone x)
  unfold ConnectionState.utf8Byte
  extract_lets buf
  split
  · split_ifs
    · exact .none ⟨h.controls, h.esc_seq, hone⟩ rfl
    · exact .none ⟨h.controls, h.esc_seq, hone⟩ rfl
    · exact .none ⟨h.controls, h.esc_seq, hone⟩ rfl
    · exact .none ⟨h.controls, h.esc_seq, hnil⟩ rfl
  split
  · split
    · rw [if_pos h.controls]
      have hc : ({ c with utf8_buf := [], utf8_expected := 0 } : ConnectionState E).Controlled :=
        ⟨h.controls, h.esc_seq, hnil⟩
      refine hc.onKey ⟨fun he => TerminalKey.noConfusion he, fun x hx => ?_⟩
      refine ⟨UInt8.le_trans (by decide) (hbuf x hx), fun he => absurd (hbuf x hx) ?_⟩
      rw [he]
      decide
    · exact .none ⟨h.controls, h.esc_seq, hbuf⟩ rfl
  · exact .none ⟨h.controls, h.esc_seq, hnil⟩ rfl

theorem Controlled.plainByte (h : c.Controlled) (b : UInt8) : Delivers c (c.plainByte ed b) := by
  unfold ConnectionState.plainByte
  split_ifs with h₁ h₂ h₃ h₄ h₅ h₆ h₇ hctl h₈
  · exact h.onKey (deliverable_key (by decide))
  · exact h.onKey (deliverable_key (by decide))
  · exact h.onKey (deliverable_key (by decide))
  · exact h.onKey (deliverable_key (by decide))
  · exact h.onKey (deliverable_key (by decide))
  · exact h.onKey (deliverable_key (by decide))
  · refine h.onKey ⟨fun he => TerminalKey.noConfusion he, fun x hx => ?_⟩
    rw [List.mem_singleton.mp hx]
    exact ⟨h₇.1, UInt8.ne_of_lt h₇.2⟩
  · exact absurd h.controls hctl
  · exact h.utf8Byte h₈
  · exact .none h rfl

theorem sequenceKey_short {seq : Str} (h : seq.length ≤ 3) : sequenceKey seq .NONE ≠ .DELETE_KEY := by
  have hne : seq ≠ [0x1B, 0x5B, 0x33, 0x7E] := fun he => absurd h (by rw [he]; decide)
  unfold sequenceKey
  rw [if_neg hne]
  split_ifs <;> exact fun he => TerminalKey.noConfusion he

/-- A third byte always ends an escape sequence, so that of `DELETE_KEY` is never complete. -/
theorem decodeEscapedTcpKey_escaping (state : TcpDecodeState) (h : Escaping state.esc_seq) (ch : UInt8) :
    Escaping (decodeEscapedTcpKey state ch {}).1.esc_seq ∧
      Deliverable (decodeEscapedTcpKey state ch {}).2.1 := by
  unfold decodeEscapedTcpKey
  split
  · rename_i hesc
    split
    · rename_i hch
      exact ⟨.inr (.inl (by rw [hch])), deliverable_key (fun he => TerminalKey.noConfusion he)⟩
    · exact ⟨h, deliverable_key (fun he => TerminalKey.noConfusion he)⟩
  rename_i hesc
  have hlen : (state.esc_seq ++ [ch]).length ≤ 3 := by
    rcases h with he | he | he | he
    · exact absurd he hesc
    all_goals simp [he]
  simp only
  split
  · rename_i hseq
    exact ⟨.inr (.inr hseq), deliverable_key (fun he => TerminalKey.noConfusion he)⟩
  · exact ⟨.inl rfl, deliverable_key (sequenceKey_short hlen)⟩

theorem Controlled.keyByte (h : c.Controlled) (b : UInt8) : Delivers c (c.keyByte ed b) := by
  unfold ConnectionState.keyByte
  split
  · exact .none ⟨h.controls, h.esc_seq, h.utf8_buf⟩ rfl
  obtain ⟨hesc, hd⟩ := decodeEscapedTcpKey_escaping
    { c.decode with prev_cr := decide (b = 0x0D) } h.esc_seq b
  have hc : ({ c with
      decode := (decodeEscapedTcpKey { c.decode with prev_cr := decide (b = 0x0D) } b {}).1 } :
      ConnectionState E).Controlled := ⟨h.controls, hesc, h.utf8_buf⟩
  simp only
  split
  · split
    · exact hc.onKey hd
    · exact .none hc rfl
  split
  · exact .none hc rfl
  · exact hc.plainByte b

variable (ed) in
/-- **One byte.** -/
theorem Controlled.byte (h : c.Controlled) (b : UInt8) : Delivers c (c.byte ed b) := by
  unfold ConnectionState.byte
  split
  · exact .none h rfl
  have hesc : (consumeTelnetByte c.decode b).1.esc_seq = c.decode.esc_seq := by
    unfold consumeTelnetByte
    split_ifs <;> rfl
  have hc : ({ c with decode := (consumeTelnetByte c.decode b).1 } : ConnectionState E).Controlled :=
    ⟨h.controls, hesc ▸ h.esc_seq, h.utf8_buf⟩
  simp only
  split
  · rw [if_pos h.controls]
    exact .none hc rfl
  · exact hc.keyByte b

variable (ed) in
/-- **A run of bytes.** -/
theorem Controlled.bytes (h : c.Controlled) (s : Str) : Delivers c (s.foldl (ConnectionState.byte ed) c) := by
  induction s generalizing c with
  | nil => exact .none h rfl
  | cons b s ih =>
    obtain ⟨h₁, evs₁, he₁, hd₁⟩ := h.byte ed b
    obtain ⟨h₂, evs₂, he₂, hd₂⟩ := ih h₁
    refine ⟨h₂, evs₁ ++ evs₂, ?_, fun ev hev => (List.mem_append.mp hev).elim (hd₁ ev) (hd₂ ev)⟩
    rw [List.foldl_cons, he₂, he₁, List.append_assoc]

/-! ## Runs -/

/-- A run: everything that was sent is heard, and nothing is pending at its end. -/
theorem AtRest.hears_all (sent : List Wire) : ∀ {c : ConnectionState E}, c.AtRest → c.stopped = false →
    (∀ ev ∈ sent.filterMap Wire.event?, Emitted ev) →
    (∀ ev ∈ ed.heard c.editor (sent.filterMap Wire.event?), Deliverable ev) →
    ((sent.flatMap Wire.bytes).foldl (ConnectionState.byte ed) c).AtRest ∧
      ((sent.flatMap Wire.bytes).foldl (ConnectionState.byte ed) c).handed =
        c.handed ++ ed.heard c.editor (sent.filterMap Wire.event?) := by
  induction sent with
  | nil => exact fun hc _ _ _ => ⟨hc, (List.append_nil _).symm⟩
  | cons w sent ih =>
    intro c hc hs hem hdel
    rw [List.flatMap_cons, List.foldl_append]
    cases w with
    | negotiation verb option =>
      rw [hc.negotiation hs verb option]
      exact ih hc hs hem hdel
    | event ev =>
      rw [List.filterMap_cons_some (f := Wire.event?) rfl] at hem hdel ⊢
      have h := hc.hears ed hs (hem ev List.mem_cons_self) (hdel ev List.mem_cons_self)
      have hem' := fun x hx => hem x (List.mem_cons_of_mem _ hx)
      simp only [Wire.bytes]
      cases hdis : (ed.onKey c.editor ev).2.disconnect with
      | true =>
        rw [foldl_stopped (h.stopped.trans hdis)]
        exact ⟨h.rest, by rw [h.handed, TerminalLineEditor.heard, hdis, if_pos rfl]⟩
      | false =>
        have hheard : ed.heard c.editor (ev :: sent.filterMap Wire.event?) =
            ev :: ed.heard ((keyEventToBytes ev).foldl (ConnectionState.byte ed) c).editor
              (sent.filterMap Wire.event?) := by
          rw [TerminalLineEditor.heard, hdis, if_neg Bool.false_ne_true, h.editor]
        rw [hheard] at hdel ⊢
        obtain ⟨hrest, hh⟩ := ih h.rest (h.stopped.trans hdis) hem' fun x hx =>
          hdel x (List.mem_cons_of_mem _ hx)
        exact ⟨hrest, by rw [hh, h.handed, List.append_assoc, List.singleton_append]⟩

theorem recvAll_eq (c : ConnectionState E) (chunks : List Str) :
    c.recvAll ed chunks = chunks.flatten.foldl (ConnectionState.byte ed) c := by
  rw [recvAll, List.foldl_flatten]
  rfl

/-- **The editor hears exactly the events that were sent, until it ends the connection, precisely when
the decoder can produce them at all**: none is `DELETE_KEY` or the character of a control code. -/
theorem recvAll_heard_iff {c : ConnectionState E} (hc : c.AtRest) (hs : c.stopped = false) (sent : List Wire)
    (hem : ∀ ev ∈ sent.filterMap Wire.event?, Emitted ev) (chunks : List Str)
    (hchunks : chunks.flatten = sent.flatMap Wire.bytes) :
    (c.recvAll ed chunks).handed = c.handed ++ ed.heard c.editor (sent.filterMap Wire.event?) ↔
      ∀ ev ∈ ed.heard c.editor (sent.filterMap Wire.event?), Deliverable ev := by
  rw [recvAll_eq, hchunks]
  constructor
  · intro h
    obtain ⟨-, evs, he, hdel⟩ := hc.controlled.bytes ed (sent.flatMap Wire.bytes)
    rw [List.append_cancel_left (h.symm.trans he)]
    exact hdel
  · exact fun hdel => (hc.hears_all sent hs hem hdel).2

end ConnectionState

/-- An editor that keeps what it gets and leaves on the end of the input. -/
def recorder : TerminalLineEditor (List TerminalKeyEvent) where
  onKey e ev := (e ++ [ev], { disconnect := ev.key = .EOF_KEY })
  appendCooked e _ := e
  setMode e _ := e

/-- A connection in `CONTROLLED` mode. -/
def controlledConnection : ConnectionState (List TerminalKeyEvent) := { editor := [], server_controls_input := true }

open ConnectionState in
/-- A character of two bytes and an arrow with a negotiation between them, cut inside the character and
inside the escape sequence. -/
theorem recvAll_heard_sample :
    (controlledConnection.recvAll recorder [[0xC3], [0xA9, 0xFF, 0xFD, 0x01, 0x1B], [0x5B, 0x44]]).handed =
      [⟨.CHARACTER, 0, [0xC3, 0xA9]⟩, { key := .LEFT }] := by
  refine (recvAll_heard_iff (c := controlledConnection) ⟨rfl, rfl, rfl, rfl⟩ rfl
    [.event (.character (Char.ofNat 0xE9)), .negotiation .DO 1, .event { key := .LEFT }] ?_ _ ?_).mpr ?_
  · intro ev hev
    rcases List.mem_cons.mp hev with rfl | hev
    · exact .character _
    · rw [List.mem_singleton.mp hev]
      exact .key (by decide) (by decide)
  · decide
  · intro ev hev
    rcases List.mem_cons.mp hev with rfl | hev
    · decide
    · rw [List.mem_singleton.mp hev]
      decide

/-- The delete key comes out as a tilde. -/
theorem delete_key_lost : controlledConnection.AtRest ∧ Emitted { key := .DELETE_KEY } ∧
    (controlledConnection.recvAll recorder [keyEventToBytes { key := .DELETE_KEY }]).handed =
      [⟨.CHARACTER, 0x7E, [0x7E]⟩] ∧
    recorder.heard controlledConnection.editor [{ key := .DELETE_KEY }] = [{ key := .DELETE_KEY }] :=
  ⟨⟨rfl, rfl, rfl, rfl⟩, .key (by decide) (by decide), rfl, rfl⟩

end Terminal

end VersatileEngine
