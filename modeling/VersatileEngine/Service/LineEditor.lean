import Mathlib.Data.List.DropRight
import Mathlib.Data.List.Forall2
import VersatileEngine.Lib.Utf8
import VersatileEngine.Service.Tokens

/-!
# VersatileEngine.Service.LineEditor

`TerminalLineEditor`: a line, a cursor in it, and what the keys do to them.

* `charByteLen`, `prevCharByteLen` — the length of the character at a place and before it, `terminal_utf8.h`.
* `Editor`, `onKey` — no result where `insert` or `erase` throws and where the history is read past its end.
* `Fine`      — the cursor parts the line into two texts that are well-formed.
* `Whole`     — a completion that inserts no part of a character.
* `onKey_fine`, `run_fine` — **a key keeps the line fine, and so does any sequence of keys** whose completions
  are whole.
-/

namespace VersatileEngine

namespace LineEditor

/-! ## Characters -/

/-- The length of a character by its first byte; 0 for a byte that begins none. -/
def byteLen (lead : UInt8) : Nat :=
  if lead &&& 0x80 = 0 then 1
  else if lead &&& 0xE0 = 0xC0 then 2
  else if lead &&& 0xF0 = 0xE0 then 3
  else if lead &&& 0xF8 = 0xF0 then 4
  else 0

def charByteLen (str : Str) (pos : Nat) : Nat := (str[pos]?.map byteLen).getD 0

def isContinuation (c : UInt8) : Bool := c &&& 0xC0 = 0x80

/-- The scan backwards to a byte that continues no character. -/
def scanBack (str : Str) : Nat → Nat
  | 0 => 0
  | scan + 1 => if str[scan + 1]?.any isContinuation then scanBack str scan else scan + 1

def prevCharByteLen (str : Str) (pos : Nat) : Nat :=
  if pos = 0 ∨ str.length < pos then 0
  else
    let scan := scanBack str (pos - 1)
    if scan + charByteLen str scan = pos then charByteLen str scan else 0

/-! ## The editor -/

inductive Mode where
  | cooked
  | controlled
deriving DecidableEq, Repr

inductive Key where
  | none
  | character (ch : UInt8) (chars : Str)
  | enter
  | backspace
  | tab
  | ctrlC
  | ctrlU
  | left
  | right
  | up
  | down
  | deleteKey
  | home
  | endKey
  | eofKey

structure EditResult where
  output : Str
  redraw : Bool
  promptOnNewLine : Bool
  disconnect : Bool
  eof : Bool

namespace EditResult

def empty : EditResult := ⟨[], false, false, false, false⟩

def drawn (redraw : Bool) : EditResult := { empty with redraw := redraw }

end EditResult

/-- The editor with the history of its session; there may be no session. -/
structure Editor where
  session : Bool
  mode : Mode
  line : Str
  cursor : Nat
  historyIndex : Int
  historyDraft : Str
  history : List Str

/-- What a session answers: the candidates for a text, and what it prints for a line. -/
structure Answers where
  complete : Str → List Str
  execute : Str → Str

/-- `line.insert(pos, text)`. -/
def insertAt (line : Str) (pos : Nat) (text : Str) : Option Str :=
  if pos ≤ line.length then some (line.take pos ++ text ++ line.drop pos) else none

/-- `line.erase(pos, count)`. -/
def eraseAt (line : Str) (pos count : Nat) : Option Str :=
  if pos ≤ line.length then some (line.take pos ++ line.drop (pos + count)) else none

/-- The bytes that two texts begin with. -/
def meet : Str → Str → Str
  | a :: s, b :: t => if a = b then a :: meet s t else []
  | _, _ => []

/-- `commonPrefix(items)`. -/
def common : List Str → Str
  | [] => []
  | item :: items => items.foldl meet item

def formatMatches (found : List Str) : Str :=
  if found = [] then [] else 10 :: found.flatMap fun m => ascii "  " ++ m ++ [10]

/-- The text behind the last space, or all of it. -/
def lastWord (head : Str) : Str := head.rtakeWhile (· ≠ 32)

namespace Editor

variable (ans : Answers) (e : Editor)

def controlled : Bool := e.mode = .controlled

def clearLine : Editor := { e with line := [], cursor := 0, historyIndex := -1, historyDraft := [] }

def resetHistoryBrowse : Editor := { e with historyIndex := -1, historyDraft := [] }

/-- `prefixOutputIfControlled(text)`. -/
def onNewRow (text : Str) : Str :=
  if e.controlled ∧ text ≠ [] ∧ text.head? ≠ some 10 then 10 :: text else text

/-- `line_.insert(cursor_, text)` and the cursor behind it. -/
def insert (text : Str) : Option Editor :=
  (insertAt e.line e.cursor text).map fun line => { e with line := line, cursor := e.cursor + text.length }

/-- A new text has the cursor at its end. -/
def place (text : Str) : Editor := { e with line := text, cursor := text.length }

/-- The line of the history at the index. -/
def entry (index : Int) : Option Editor :=
  if index < 0 then none else e.history[index.toNat]?.map fun text => { e.place text with historyIndex := index }

/-- `browseHistory(-1)` and `browseHistory(1)`: the editor afterwards and whether there was something to
show. -/
def browseUp : Option (Editor × Bool) :=
  if !e.session ∨ e.history = [] then some (e, false)
  else if e.historyIndex < 0 then
    ({ e with historyDraft := e.line }.entry (e.history.length - 1)).map fun e => (e, true)
  else if 0 < e.historyIndex then (e.entry (e.historyIndex - 1)).map fun e => (e, true)
  else (e.entry e.historyIndex).map fun e => (e, true)

def browseDown : Option (Editor × Bool) :=
  if !e.session ∨ e.history = [] then some (e, false)
  else if e.historyIndex < 0 then some (e, false)
  else if e.historyIndex + 1 < e.history.length then (e.entry (e.historyIndex + 1)).map fun e => (e, true)
  else some ({ e.place e.historyDraft with historyIndex := -1, historyDraft := [] }, true)

/-- The text that a completion adds behind a word. -/
def addition (found : List Str) (word : Str) : Str := (common found).drop word.length

/-- A space follows the only candidate for a first word that is no directory. -/
def endsWord (found : List Str) (head : Str) : Bool :=
  found.length = 1 && !(32 ∈ head) && (found.headD []).getLast? ≠ some 47

def completeAtCursor : Option (Editor × EditResult) :=
  if !e.session then some (e, .empty)
  else
    let head := e.line.take e.cursor
    let found := ans.complete head
    if found = [] then some (e, .empty)
    else
      let more := addition found (lastWord head)
      (if more = [] then some e else e.insert more).bind fun e =>
        (if endsWord found head ∧ (e.cursor = e.line.length ∨ e.line[e.cursor]? ≠ some 32) then e.insert [32]
          else some e).map fun e =>
          (e, { EditResult.drawn true with output := if 1 < found.length then formatMatches found else [] })

/-- The loop of `applySubmittedTabs`: the line so far, and the candidates to print. -/
def applyTabs : Str → Str × Str → Str × Str
  | [], r => r
  | ch :: line, (current, output) =>
    if ch ≠ 9 then applyTabs line (current ++ [ch], output)
    else
      let found := ans.complete current
      if found = [] then applyTabs line (current, output)
      else
        let more := current ++ addition found (lastWord current)
        if endsWord found current then applyTabs line (more ++ [32], output)
        else applyTabs line (more, if 1 < found.length then output ++ formatMatches found else output)

/-- `execute(line)` on the session: its history, and what it prints. -/
def submit : Editor × EditResult :=
  let line := e.line
  let e := e.clearLine
  let runs : Bool := e.session && Terminal.split line ≠ []
  let result := if runs then ans.execute line else []
  let e := if runs then { e with history := e.history ++ [line] } else e
  if result.head? = some 4 then
    (e, { EditResult.empty with output := e.onNewRow (ascii "bye\n"), disconnect := true })
  else
    let output := if result.getLast? = some 10 ∨ result = [] then result else result ++ [10]
    (e, { EditResult.empty with output := e.onNewRow output, promptOnNewLine := true })

def submitLine : Editor × EditResult :=
  if e.line = [] then (e, { EditResult.empty with promptOnNewLine := true })
  else if !e.controlled ∧ e.session ∧ 9 ∈ e.line then
    let r := applyTabs ans e.line ([], [])
    (e.place r.1, { EditResult.empty with output := r.2, promptOnNewLine := true })
  else e.submit ans

/-- The length of a character, or one byte where there is none. -/
def orOne (len : Nat) : Nat := if len = 0 then 1 else len

def onKey : Key → Option (Editor × EditResult)
  | .character ch chars =>
    let input := if chars ≠ [] then chars else if 0x20 ≤ ch ∧ ch < 0x7F then [ch] else []
    if input = [] then some (e, .empty)
    else (e.resetHistoryBrowse.insert input).map fun e => (e, .drawn e.controlled)
  | .enter => some (e.submitLine ans)
  | .backspace =>
    if 0 < e.cursor then
      let len := orOne (prevCharByteLen e.line e.cursor)
      (eraseAt e.line (e.cursor - len) len).map fun line =>
        ({ e.resetHistoryBrowse with line := line, cursor := e.cursor - len }, .drawn e.controlled)
    else some (e, .empty)
  | .tab =>
    if e.controlled then e.completeAtCursor ans else (e.insert [9]).map fun e => (e, .empty)
  | .ctrlC => some (e.clearLine,
      { EditResult.empty with output := e.onNewRow (ascii "^C\n"), promptOnNewLine := true })
  | .ctrlU =>
    if e.line = [] then some (e, .empty)
    else (eraseAt e.line 0 e.cursor).map fun line =>
      ({ e.resetHistoryBrowse with line := line, cursor := 0 }, .drawn e.controlled)
  | .left =>
    if e.controlled ∧ 0 < e.cursor then
      some ({ e with cursor := e.cursor - orOne (prevCharByteLen e.line e.cursor) }, .drawn true)
    else some (e, .empty)
  | .right =>
    if e.controlled ∧ e.cursor < e.line.length then
      some ({ e with cursor := e.cursor + orOne (charByteLen e.line e.cursor) }, .drawn true)
    else some (e, .empty)
  | .home => if e.controlled ∧ e.cursor ≠ 0 then some ({ e with cursor := 0 }, .drawn true) else some (e, .empty)
  | .endKey =>
    if e.controlled ∧ e.cursor ≠ e.line.length then some ({ e with cursor := e.line.length }, .drawn true)
    else some (e, .empty)
  | .deleteKey =>
    if e.controlled ∧ e.cursor < e.line.length then
      (eraseAt e.line e.cursor (orOne (charByteLen e.line e.cursor))).map fun line =>
        ({ e.resetHistoryBrowse with line := line }, .drawn true)
    else some (e, .empty)
  | .up => if e.controlled then e.browseUp.map fun r => (r.1, .drawn r.2) else some (e, .empty)
  | .down => if e.controlled then e.browseDown.map fun r => (r.1, .drawn r.2) else some (e, .empty)
  | .eofKey => some (e, { EditResult.empty with eof := true, disconnect := true })
  | .none => some (e, .empty)

end Editor

/-! ## Characters of a line -/

theorem byte_table : ∀ n < 256, (Utf8.lead (UInt8.ofNat n)).all (fun owed =>
    byteLen (UInt8.ofNat n) = owed.length + 1 && !isContinuation (UInt8.ofNat n) &&
      owed.all fun r => 0x80 ≤ r.1 && r.2 ≤ 0xBF) = true := by
  decide +kernel

theorem continuation_table : ∀ n < 256, 0x80 ≤ UInt8.ofNat n → UInt8.ofNat n ≤ 0xBF →
    isContinuation (UInt8.ofNat n) = true := by
  decide +kernel

/-- What a first byte says of its character. -/
theorem lead_spec {b : UInt8} {owed : Utf8.Owed} (h : Utf8.lead b = some owed) :
    byteLen b = owed.length + 1 ∧ isContinuation b = false ∧ ∀ r ∈ owed, 0x80 ≤ r.1 ∧ r.2 ≤ 0xBF := by
  have htable := byte_table b.toNat b.toNat_lt
  rw [UInt8.ofNat_toNat, h] at htable
  simpa [and_assoc] using htable

theorem continuation_of_range {b : UInt8} (hlow : 0x80 ≤ b) (hhigh : b ≤ 0xBF) : isContinuation b = true := by
  have htable := continuation_table b.toNat b.toNat_lt
  rw [UInt8.ofNat_toNat] at htable
  exact htable hlow hhigh

/-- A character begins with its length, and goes on with continuation bytes. -/
theorem char_bytes {ch : Str} (h : Utf8.IsChar ch) : ∃ b t, ch = b :: t ∧ byteLen b = ch.length ∧
    isContinuation b = false ∧ ∀ c ∈ t, isContinuation c = true := by
  obtain ⟨b, t, owed, rfl, hlead, hfits⟩ := h
  obtain ⟨hlen, hno, hrange⟩ := lead_spec hlead
  refine ⟨b, t, rfl, by rw [hlen, hfits.length_eq, List.length_cons], hno, ?_⟩
  clear hlead hlen
  induction hfits with
  | nil => exact fun c hc => (by cases hc)
  | cons hb _ ih =>
    rw [List.forall_mem_cons] at hrange
    refine List.forall_mem_cons.2 ⟨?_, ih hrange.2⟩
    exact continuation_of_range (UInt8.le_trans hrange.1.1 hb.1) (UInt8.le_trans hb.2 hrange.1.2)

theorem charByteLen_char {l ch r : Str} (h : Utf8.IsChar ch) :
    charByteLen (l ++ (ch ++ r)) l.length = ch.length ∧ ch.length ≠ 0 := by
  obtain ⟨b, t, rfl, hlen, -⟩ := char_bytes h
  refine ⟨?_, by simp⟩
  rw [charByteLen, List.cons_append, List.getElem?_append_right (Nat.le_refl _), Nat.sub_self, ← hlen]
  rfl

theorem scanBack_char {str : Str} {p n : Nat} (hfirst : p = 0 ∨ str[p]?.any isContinuation = false)
    (hrest : ∀ i, p < i → i ≤ p + n → str[i]?.any isContinuation = true) : scanBack str (p + n) = p := by
  induction n with
  | zero =>
    obtain _ | p := p
    · rfl
    · rw [Nat.add_zero, scanBack, hfirst.resolve_left (by omega)]
      rfl
  | succ n ih =>
    rw [← Nat.add_assoc, scanBack, hrest (p + n + 1) (by omega) (by omega), if_pos rfl]
    exact ih fun i h1 h2 => hrest i h1 (by omega)

theorem prevCharByteLen_char {l ch r : Str} (h : Utf8.IsChar ch) :
    prevCharByteLen (l ++ ch ++ r) (l ++ ch).length = ch.length := by
  have hlen := @charByteLen_char l ch r h
  obtain ⟨b, t, rfl, -, hno, hcont⟩ := char_bytes h
  have hscan : scanBack (l ++ b :: t ++ r) (l.length + t.length) = l.length := by
    refine scanBack_char (.inr (by simp [hno])) fun i h1 h2 => ?_
    obtain ⟨j, rfl⟩ : ∃ j, i = l.length + (j + 1) := ⟨i - l.length - 1, by omega⟩
    have hj : j < t.length := by omega
    have hget : (l ++ b :: t ++ r)[l.length + (j + 1)]? = some t[j] := by
      rw [List.append_assoc, List.getElem?_append_right (by omega), Nat.add_sub_cancel_left, List.cons_append,
        List.getElem?_cons_succ, List.getElem?_append_left hj, List.getElem?_eq_getElem hj]
    rw [hget]
    exact hcont _ (List.getElem_mem hj)
  have hlast : (l ++ b :: t).length - 1 = l.length + t.length := by simp
  have hsum : l.length + (b :: t).length = (l ++ b :: t).length := by simp
  rw [prevCharByteLen, if_neg (by simp), hlast, hscan, List.append_assoc]
  simp only [hlen.1, hsum, if_true]

/-! ## Lines -/

/-- The cursor is between two well-formed texts. -/
def Parted (line : Str) (cursor : Nat) : Prop :=
  ∃ l r, line = l ++ r ∧ cursor = l.length ∧ Utf8.Valid l ∧ Utf8.Valid r

theorem Parted.valid {line : Str} {cursor : Nat} (h : Parted line cursor) : Utf8.Valid line := by
  obtain ⟨l, r, rfl, -, hl, hr⟩ := h
  exact hl.append.2 hr

theorem parted_start {line : Str} (h : Utf8.Valid line) : Parted line 0 := ⟨[], line, rfl, rfl, rfl, h⟩

theorem parted_end {line : Str} (h : Utf8.Valid line) : Parted line line.length :=
  ⟨line, [], (List.append_nil line).symm, rfl, h, rfl⟩

/-- A text at the cursor. -/
theorem insertAt_parted {line text : Str} {cursor : Nat} (h : Parted line cursor) :
    ∃ line', insertAt line cursor text = some line' ∧
      (Parted line' (cursor + text.length) ↔ Utf8.Valid text) := by
  obtain ⟨l, r, rfl, rfl, hl, hr⟩ := h
  refine ⟨l ++ text ++ r, ?_, ?_⟩
  · rw [insertAt, if_pos (by simp), List.take_left, List.drop_left]
  · constructor
    · rintro ⟨l', r', heq, hlen, hl', -⟩
      rw [← List.length_append] at hlen
      obtain ⟨rfl, -⟩ := List.append_inj heq hlen
      exact hl.append.1 hl'
    · exact fun ht => ⟨l ++ text, r, rfl, by simp, hl.append.2 ht, hr⟩

/-- The character before the cursor. -/
theorem previous_parted {line : Str} {cursor : Nat} (h : Parted line cursor) (hpos : 0 < cursor) :
    Parted line (cursor - Editor.orOne (prevCharByteLen line cursor)) ∧
      ∃ line', eraseAt line (cursor - Editor.orOne (prevCharByteLen line cursor))
          (Editor.orOne (prevCharByteLen line cursor)) = some line' ∧
        Parted line' (cursor - Editor.orOne (prevCharByteLen line cursor)) := by
  obtain ⟨l, r, rfl, rfl, hl, hr⟩ := h
  obtain ⟨l, ch, rfl, hl', hch⟩ := Utf8.valid_last hl (List.length_pos_iff.1 hpos)
  have hne := (@charByteLen_char l ch r hch).2
  rw [prevCharByteLen_char hch, Editor.orOne, if_neg hne, List.length_append, Nat.add_sub_cancel]
  refine ⟨⟨l, ch ++ r, by simp, rfl, hl', hch.valid.append.2 hr⟩, l ++ r, ?_, l, r, rfl, rfl, hl', hr⟩
  rw [eraseAt, if_pos (by simp), List.append_assoc, List.take_left, ← List.length_append,
    ← List.append_assoc, List.drop_left]

/-- The character behind the cursor. -/
theorem next_parted {line : Str} {cursor : Nat} (h : Parted line cursor) (hlt : cursor < line.length) :
    Parted line (cursor + Editor.orOne (charByteLen line cursor)) ∧
      ∃ line', eraseAt line cursor (Editor.orOne (charByteLen line cursor)) = some line' ∧ Parted line' cursor := by
  obtain ⟨l, r, rfl, rfl, hl, hr⟩ := h
  have hne : r ≠ [] := by
    rintro rfl
    simp at hlt
  obtain ⟨ch, r, rfl, hch, hr'⟩ := Utf8.valid_head hr hne
  obtain ⟨hlen, hpos⟩ := @charByteLen_char l ch r hch
  rw [hlen, Editor.orOne, if_neg hpos]
  refine ⟨⟨l ++ ch, r, by simp, by simp, hl.append.2 hch.valid, hr'⟩, l ++ r, ?_, l, r, rfl, rfl, hl, hr'⟩
  rw [eraseAt, if_pos (by simp), List.take_left, ← List.append_assoc, ← List.length_append, List.drop_left]

/-! ## Completions -/

theorem meet_below (a b : Str) : meet a b <+: a ∧ meet a b <+: b := by
  induction a generalizing b with
  | nil => exact ⟨List.nil_prefix, List.nil_prefix⟩
  | cons c a ih =>
    cases b with
    | nil => exact ⟨List.nil_prefix, List.nil_prefix⟩
    | cons d b =>
      rw [meet]
      split_ifs with h
      · exact ⟨List.cons_prefix_cons.2 ⟨rfl, (ih b).1⟩, List.cons_prefix_cons.2 ⟨h, (ih b).2⟩⟩
      · exact ⟨List.nil_prefix, List.nil_prefix⟩

theorem le_meet {a b d : Str} (ha : d <+: a) (hb : d <+: b) : d <+: meet a b := by
  induction d generalizing a b with
  | nil => exact List.nil_prefix
  | cons c d ih =>
    obtain ⟨s, rfl⟩ := ha
    obtain ⟨t, rfl⟩ := hb
    rw [List.cons_append, List.cons_append, meet, if_pos rfl]
    exact List.cons_prefix_cons.2 ⟨rfl, ih (List.prefix_append d s) (List.prefix_append d t)⟩

/-- The longest text that all candidates begin with. -/
def Longest (found : List Str) (c : Str) : Prop :=
  (∀ m ∈ found, c <+: m) ∧ ∀ d, (∀ m ∈ found, d <+: m) → d <+: c

theorem common_longest {found : List Str} (h : found ≠ []) : Longest found (common found) := by
  obtain ⟨item, items, rfl⟩ := List.exists_cons_of_ne_nil h
  rw [common]
  clear h
  induction items generalizing item with
  | nil =>
    refine ⟨fun m hm => ?_, fun d hd => hd item (List.mem_singleton.2 rfl)⟩
    rw [List.mem_singleton.1 hm]
    exact List.prefix_refl _
  | cons x items ih =>
    rw [List.foldl_cons]
    obtain ⟨hall, hmax⟩ := ih (meet item x)
    rw [List.forall_mem_cons] at hall
    refine ⟨?_, fun d hd => ?_⟩
    · refine List.forall_mem_cons.2 ⟨hall.1.trans (meet_below item x).1, ?_⟩
      exact List.forall_mem_cons.2 ⟨hall.1.trans (meet_below item x).2, hall.2⟩
    · rw [List.forall_mem_cons, List.forall_mem_cons] at hd
      exact hmax d (List.forall_mem_cons.2 ⟨le_meet hd.1 hd.2.1, hd.2.2⟩)

/-- What the candidates have in common beyond the length of the word is well-formed. -/
def Whole (found : List Str) (word : Str) : Prop := ∀ c, Longest found c → Utf8.Valid (c.drop word.length)

theorem whole_iff {found : List Str} (h : found ≠ []) (word : Str) :
    Whole found word ↔ Utf8.Valid (Editor.addition found word) := by
  have hlongest := common_longest h
  refine ⟨fun hw => hw _ hlongest, fun hv c hc => ?_⟩
  have heq : c = common found := by
    refine (hlongest.2 c hc.1).eq_of_length (Nat.le_antisymm ?_ ?_)
    · exact (hlongest.2 c hc.1).length_le
    · exact (hc.2 _ hlongest.1).length_le
  rw [heq]
  exact hv

/-! ## Keys -/

/-- The cursor is within the line, at the boundary of a character, and all texts are well-formed. -/
structure Fine (e : Editor) : Prop where
  parted : Parted e.line e.cursor
  draft : Utf8.Valid e.historyDraft
  history : ∀ line ∈ e.history, Utf8.Valid line
  index : e.historyIndex < e.history.length

/-- A key that types well-formed text, or types none. -/
def Typed : Key → Prop
  | .character _ chars => Utf8.Valid chars
  | _ => True

/-- The completions of the tabs in a submitted line, after the text before them. -/
def TabsWhole (ans : Answers) : Str → Str → Prop
  | [], _ => True
  | ch :: line, current =>
    if ch ≠ 9 then TabsWhole ans line (current ++ [ch])
    else if ans.complete current = [] then TabsWhole ans line current
    else Whole (ans.complete current) (lastWord current) ∧
      TabsWhole ans line (current ++ Editor.addition (ans.complete current) (lastWord current) ++
        if Editor.endsWord (ans.complete current) current then [32] else [])

/-- The completions that a key asks for insert no part of a character. -/
def Clean (ans : Answers) (e : Editor) : Key → Prop
  | .tab => e.controlled = true → e.session = true → ans.complete (e.line.take e.cursor) ≠ [] →
      Whole (ans.complete (e.line.take e.cursor)) (lastWord (e.line.take e.cursor))
  | .enter => e.controlled = false → e.session = true → TabsWhole ans e.line []
  | _ => True

section Keys

variable {ans : Answers} {e : Editor}

theorem Fine.reset (h : Fine e) : Fine e.resetHistoryBrowse where
  parted := h.parted
  draft := rfl
  history := h.history
  index := by
    show (-1 : Int) < e.history.length
    omega

theorem Fine.clear (h : Fine e) : Fine e.clearLine where
  parted := parted_start rfl
  draft := rfl
  history := h.history
  index := h.reset.index

theorem Fine.relined (h : Fine e) {line : Str} {cursor : Nat} (hparted : Parted line cursor) :
    Fine { e with line := line, cursor := cursor } := ⟨hparted, h.draft, h.history, h.index⟩

/-- A text that is inserted. -/
theorem Fine.insert (h : Fine e) (text : Str) :
    ∃ e', e.insert text = some e' ∧ (Fine e' ↔ Utf8.Valid text) := by
  obtain ⟨line, hline, hparted⟩ := @insertAt_parted _ text _ h.parted
  refine ⟨{ e with line := line, cursor := e.cursor + text.length }, by rw [Editor.insert, hline]; rfl, ?_⟩
  exact ⟨fun h' => hparted.1 h'.parted, fun ht => ⟨hparted.2 ht, h.draft, h.history, h.index⟩⟩

/-- A line of the history, or another text, in place of the line. -/
theorem Fine.place (h : Fine e) {text : Str} (ht : Utf8.Valid text) : Fine (e.place text) :=
  ⟨parted_end ht, h.draft, h.history, h.index⟩

theorem Fine.entry (h : Fine e) {index : Int} (hlow : 0 ≤ index) (hhigh : index < e.history.length) :
    ∃ e', e.entry index = some e' ∧ Fine e' := by
  have hlt : index.toNat < e.history.length := by omega
  refine ⟨{ e.place e.history[index.toNat] with historyIndex := index }, ?_, ?_⟩
  · rw [Editor.entry, if_neg (by omega), List.getElem?_eq_getElem hlt]
    rfl
  · have hplace := h.place (h.history _ (List.getElem_mem hlt))
    exact ⟨hplace.parted, hplace.draft, hplace.history, hhigh⟩

theorem Fine.browseUp (h : Fine e) : ∃ r, e.browseUp = some r ∧ Fine r.1 := by
  rw [Editor.browseUp]
  split_ifs with hnone hfirst hlater
  · exact ⟨_, rfl, h⟩
  · have hne : e.history ≠ [] := fun he => hnone (.inr he)
    have hpos := List.length_pos_iff.2 hne
    have hdraft : Fine { e with historyDraft := e.line } := ⟨h.parted, h.parted.valid, h.history, h.index⟩
    obtain ⟨e', he', hfine⟩ := @Fine.entry _ hdraft (e.history.length - 1) (by omega) (by simp)
    exact ⟨_, by rw [he']; rfl, hfine⟩
  · obtain ⟨e', he', hfine⟩ := @Fine.entry _ h (e.historyIndex - 1) (by omega) (by have := h.index; omega)
    exact ⟨_, by rw [he']; rfl, hfine⟩
  · obtain ⟨e', he', hfine⟩ := h.entry (by omega) h.index
    exact ⟨_, by rw [he']; rfl, hfine⟩

theorem Fine.browseDown (h : Fine e) : ∃ r, e.browseDown = some r ∧ Fine r.1 := by
  rw [Editor.browseDown]
  split_ifs with hnone hfirst hlater
  · exact ⟨_, rfl, h⟩
  · exact ⟨_, rfl, h⟩
  · obtain ⟨e', he', hfine⟩ := @Fine.entry _ h (e.historyIndex + 1) (by omega) hlater
    exact ⟨_, by rw [he']; rfl, hfine⟩
  · refine ⟨_, rfl, ?_⟩
    have hplace := h.place h.draft
    exact ⟨hplace.parted, rfl, hplace.history, h.reset.index⟩

theorem insert_insert (h : Fine e) (text more : Str) :
    (e.insert text).bind (fun e => e.insert more) = e.insert (text ++ more) := by
  obtain ⟨l, r, hline, hcursor, -, -⟩ := h.parted
  have hfirst : e.insert text = some { e with line := l ++ text ++ r, cursor := (l ++ text).length } := by
    rw [Editor.insert, hline, hcursor, insertAt, if_pos (by simp), List.take_left, List.drop_left,
      List.length_append]
    rfl
  have hboth : e.insert (text ++ more) =
      some { e with line := l ++ (text ++ more) ++ r, cursor := l.length + (text ++ more).length } := by
    rw [Editor.insert, hline, hcursor, insertAt, if_pos (by simp), List.take_left, List.drop_left]
    rfl
  rw [hfirst, hboth, Option.bind_some, Editor.insert, insertAt, if_pos (by simp), List.take_left,
    List.drop_left]
  simp [Nat.add_assoc]

theorem valid_space {s : Str} : Utf8.Valid (s ++ [32]) ↔ Utf8.Valid s := by
  rw [Utf8.valid_cut (by decide)]
  exact and_iff_left rfl

/-- **What a completion does to the line**: it stays fine when the completion is whole, and only then. -/
theorem complete_fine (h : Fine e) (hsession : e.session = true)
    (hfound : ans.complete (e.line.take e.cursor) ≠ []) : ∃ r, e.completeAtCursor ans = some r ∧
      (Fine r.1 ↔ Whole (ans.complete (e.line.take e.cursor)) (lastWord (e.line.take e.cursor))) := by
  have hnil : e.insert [] = some e := by
    obtain ⟨l, r, hline, hcursor, -, -⟩ := h.parted
    rw [Editor.insert, hline, hcursor, insertAt, if_pos (by simp), List.take_left, List.drop_left,
      List.append_nil, Option.map_some, ← hline, List.length_nil, Nat.add_zero, ← hcursor]
  rw [whole_iff hfound, Editor.completeAtCursor, if_neg (by simp [hsession])]
  simp only [if_neg hfound]
  generalize Editor.addition (ans.complete (e.line.take e.cursor)) (lastWord (e.line.take e.cursor)) = more
  have hmore : (if more = [] then some e else e.insert more) = e.insert more := by
    split_ifs with hempty
    · rw [hempty, hnil]
    · rfl
  obtain ⟨e₁, he₁, hfine₁⟩ := h.insert more
  rw [hmore, he₁, Option.bind_some]
  by_cases hspace : Editor.endsWord (ans.complete (e.line.take e.cursor)) (e.line.take e.cursor) = true ∧
      (e₁.cursor = e₁.line.length ∨ e₁.line[e₁.cursor]? ≠ some 32)
  · obtain ⟨e₂, he₂, hfine₂⟩ := h.insert (more ++ [32])
    have htwo := insert_insert h more [32]
    rw [he₁, Option.bind_some, he₂] at htwo
    rw [if_pos hspace, htwo]
    exact ⟨_, rfl, hfine₂.trans valid_space⟩
  · rw [if_neg hspace]
    exact ⟨_, rfl, hfine₁⟩

/-- The tabs of a submitted line. -/
theorem applyTabs_valid {line : Str} : ∀ {current output : Str}, Utf8.Valid (current ++ line) →
    TabsWhole ans line current → Utf8.Valid (Editor.applyTabs ans line (current, output)).1 := by
  induction line with
  | nil =>
    intro current output h _
    rwa [List.append_nil] at h
  | cons ch line ih =>
    intro current output h hwhole
    rw [TabsWhole] at hwhole
    rw [Editor.applyTabs]
    by_cases hch : ch ≠ 9
    · rw [if_pos hch] at hwhole ⊢
      exact ih (by simpa using h) hwhole
    rw [if_neg hch] at hwhole ⊢
    obtain rfl : ch = 9 := not_not.1 hch
    obtain ⟨hcurrent, hline⟩ := (Utf8.valid_cut (by decide)).1 h
    by_cases hfound : ans.complete current = []
    · simp only [if_pos hfound] at hwhole ⊢
      exact ih (hcurrent.append.2 hline) hwhole
    simp only [if_neg hfound] at hwhole ⊢
    have hadd := (whole_iff hfound _).1 hwhole.1
    have hmore := hcurrent.append.2 hadd
    by_cases hend : Editor.endsWord (ans.complete current) current = true
    · rw [if_pos hend] at hwhole ⊢
      exact ih ((valid_space.2 hmore).append.2 hline) hwhole.2
    · rw [if_neg hend, List.append_nil] at hwhole
      rw [if_neg hend]
      exact ih (hmore.append.2 hline) hwhole.2

theorem Fine.submit (h : Fine e) : Fine (e.submit ans).1 := by
  have hclear := h.clear
  have hpushed : Fine { e.clearLine with history := e.history ++ [e.line] } := by
    refine ⟨hclear.parted, hclear.draft, fun line hm => ?_, ?_⟩
    · rcases List.mem_append.1 hm with hm | hm
      · exact h.history line hm
      · rw [List.mem_singleton.1 hm]
        exact h.parted.valid
    · show (-1 : Int) < (e.history ++ [e.line]).length
      omega
  have heither : ∀ runs : Bool,
      Fine (if runs = true then { e.clearLine with history := e.history ++ [e.line] } else e.clearLine) := by
    intro runs
    cases runs
    · exact hclear
    · exact hpushed
  simp only [Editor.submit]
  by_cases hquit : (if (e.clearLine.session && decide (Terminal.split e.line ≠ [])) = true
      then ans.execute e.line else []).head? = some 4
  · rw [if_pos hquit]
    exact heither _
  · rw [if_neg hquit]
    exact heither _

/-- **A key keeps the line fine**, and no edit throws. -/
theorem onKey_fine (h : Fine e) {key : Key} (htyped : Typed key) (hclean : Clean ans e key) :
    ∃ r, e.onKey ans key = some r ∧ Fine r.1 := by
  cases key with
  | none => exact ⟨_, rfl, h⟩
  | character ch chars =>
    rw [Editor.onKey]
    have hinput : Utf8.Valid (if chars ≠ [] then chars else if 0x20 ≤ ch ∧ ch < 0x7F then [ch] else []) := by
      split_ifs with hchars hch
      · exact htyped
      · refine Utf8.valid_ascii fun b hb => ?_
        rw [List.mem_singleton.1 hb]
        exact UInt8.le_of_lt hch.2
      · rfl
    generalize (if chars ≠ [] then chars else if 0x20 ≤ ch ∧ ch < 0x7F then [ch] else []) = input at hinput ⊢
    by_cases hempty : input = []
    · rw [if_pos hempty]
      exact ⟨_, rfl, h⟩
    · obtain ⟨e', he', hfine⟩ := h.reset.insert input
      rw [if_neg hempty, he']
      exact ⟨_, rfl, hfine.2 hinput⟩
  | enter =>
    refine ⟨_, rfl, ?_⟩
    rw [Editor.submitLine]
    split_ifs with hnil htabs
    · exact h
    · have hmode : e.controlled = false := by simpa using htabs.1
      exact h.place (applyTabs_valid (by simpa using h.parted.valid) (hclean hmode htabs.2.1))
    · exact h.submit
  | backspace =>
    rw [Editor.onKey]
    split_ifs with hpos
    · obtain ⟨-, line, hline, hparted⟩ := previous_parted h.parted hpos
      simp only [hline]
      exact ⟨_, rfl, h.reset.relined hparted⟩
    · exact ⟨_, rfl, h⟩
  | tab =>
    rw [Editor.onKey]
    split_ifs with hmode
    · by_cases hsession : e.session = true
      · by_cases hfound : ans.complete (e.line.take e.cursor) = []
        · refine ⟨(e, .empty), ?_, h⟩
          simp [Editor.completeAtCursor, hsession, hfound]
        · obtain ⟨r, hr, hfine⟩ := complete_fine h hsession hfound
          exact ⟨r, hr, hfine.2 (hclean hmode hsession hfound)⟩
      · refine ⟨(e, .empty), ?_, h⟩
        simp [Editor.completeAtCursor, hsession]
    · obtain ⟨e', he', hfine⟩ := h.insert [9]
      exact ⟨_, by rw [he']; rfl, hfine.2 rfl⟩
  | ctrlC => exact ⟨_, rfl, h.clear⟩
  | ctrlU =>
    rw [Editor.onKey]
    split_ifs
    · exact ⟨_, rfl, h⟩
    · obtain ⟨l, r, hline, hcursor, -, hr⟩ := h.parted
      have herase : eraseAt e.line 0 e.cursor = some r := by
        rw [eraseAt, if_pos (by omega), hline, hcursor, Nat.zero_add, List.drop_left]
        rfl
      rw [herase]
      exact ⟨_, rfl, h.reset.relined (parted_start hr)⟩
  | left =>
    rw [Editor.onKey]
    split_ifs with hpos
    · exact ⟨_, rfl, h.relined (previous_parted h.parted hpos.2).1⟩
    · exact ⟨_, rfl, h⟩
  | right =>
    rw [Editor.onKey]
    split_ifs with hlt
    · exact ⟨_, rfl, h.relined (next_parted h.parted hlt.2).1⟩
    · exact ⟨_, rfl, h⟩
  | up =>
    rw [Editor.onKey]
    split_ifs
    · obtain ⟨r, hr, hfine⟩ := h.browseUp
      exact ⟨_, by rw [hr]; rfl, hfine⟩
    · exact ⟨_, rfl, h⟩
  | down =>
    rw [Editor.onKey]
    split_ifs
    · obtain ⟨r, hr, hfine⟩ := h.browseDown
      exact ⟨_, by rw [hr]; rfl, hfine⟩
    · exact ⟨_, rfl, h⟩
  | deleteKey =>
    rw [Editor.onKey]
    split_ifs with hlt
    · obtain ⟨-, line, hline, hparted⟩ := next_parted h.parted hlt.2
      rw [hline]
      exact ⟨_, rfl, h.reset.relined hparted⟩
    · exact ⟨_, rfl, h⟩
  | home =>
    rw [Editor.onKey]
    split_ifs
    · exact ⟨_, rfl, h.relined (parted_start h.parted.valid)⟩
    · exact ⟨_, rfl, h⟩
  | endKey =>
    rw [Editor.onKey]
    split_ifs
    · exact ⟨_, rfl, h.relined (parted_end h.parted.valid)⟩
    · exact ⟨_, rfl, h⟩
  | eofKey => exact ⟨_, rfl, h⟩

end Keys

/-! ## Runs -/

/-- The keys one after another, each with what the session answers then. -/
def run (e : Editor) : List (Answers × Key) → Option Editor
  | [] => some e
  | (ans, key) :: keys => (e.onKey ans key).bind fun r => run r.1 keys

/-- Every key of the run is clean in the state it meets. -/
def CleanRun (e : Editor) : List (Answers × Key) → Prop
  | [] => True
  | (ans, key) :: keys => Clean ans e key ∧ ∀ r, e.onKey ans key = some r → CleanRun r.1 keys

/-- An editor as it is made, or set to another mode, on a session. -/
def fresh (session : Bool) (mode : Mode) (history : List Str) : Editor :=
  ⟨session, mode, [], 0, -1, [], history⟩

theorem run_keeps (keys : List (Answers × Key)) : ∀ e : Editor, Fine e → (∀ p ∈ keys, Typed p.2) →
    CleanRun e keys → ∃ e', run e keys = some e' ∧ Fine e' := by
  induction keys with
  | nil => exact fun e h _ _ => ⟨e, rfl, h⟩
  | cons p keys ih =>
    intro e h htyped hclean
    rw [List.forall_mem_cons] at htyped
    obtain ⟨r, hr, hfine⟩ := onKey_fine h htyped.1 hclean.1
    obtain ⟨e', he', hfine'⟩ := ih r.1 hfine htyped.2 (hclean.2 r hr)
    exact ⟨e', by rw [run, hr, Option.bind_some, he'], hfine'⟩

/-- **In every run whose completions are whole the line stays fine**, and no key throws. -/
theorem run_fine (session : Bool) (mode : Mode) (history : List Str) (keys : List (Answers × Key))
    (hhistory : ∀ line ∈ history, Utf8.Valid line) (htyped : ∀ p ∈ keys, Typed p.2)
    (hclean : CleanRun (fresh session mode history) keys) :
    ∃ e, run (fresh session mode history) keys = some e ∧ Fine e := by
  refine run_keeps keys _ ⟨parted_start rfl, rfl, hhistory, ?_⟩ htyped hclean
  show (-1 : Int) < history.length
  omega

theorem run_fine_sample : ∃ e, run (fresh true .controlled [])
    [(⟨fun _ => [], fun _ => []⟩, .character 0 [0xC3, 0xA9]), (⟨fun _ => [], fun _ => []⟩, .left)] = some e ∧
      Fine e := by
  refine run_fine true .controlled [] _ (by simp) ?_ ⟨trivial, fun r _ => ⟨trivial, fun r' _ => trivial⟩⟩
  simp only [List.forall_mem_cons, List.not_mem_nil, false_implies, implies_true, and_true]
  exact ⟨rfl, trivial⟩

/-- Two candidates that differ in the second byte of a character leave half of it in the line. -/
theorem half_character : ¬ ∀ (history : List Str) (keys : List (Answers × Key)),
    (∀ line ∈ history, Utf8.Valid line) → (∀ p ∈ keys, Typed p.2) →
    ∃ e, run (fresh true .controlled history) keys = some e ∧ Fine e := by
  intro h
  obtain ⟨e, he, hfine⟩ := h [] [(⟨fun _ => [[0xC3, 0xA9], [0xC3, 0xA8]], fun _ => []⟩, .tab)] (by simp)
    (by simp [Typed])
  cases he
  exact absurd hfine.parted.valid (by decide)

end LineEditor

end VersatileEngine
