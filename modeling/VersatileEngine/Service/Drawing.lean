import VersatileEngine.Service.Width

/-!
# VersatileEngine.Service.Drawing

What the terminals write to draw the line of the editor, `terminal_service.cpp`.

* `renderEditorLine`, `writeEditorResult` — over TCP and on the standard output.
* `asyncRedraw`, `asyncTcp` — the line again, behind the output of a command that ran on.
* `drawnLine`       — the line with the cursor back over the columns of the text behind it.
* `cursor_drawn_iff` — **all of them draw that exactly where the text behind the cursor is ASCII**.
-/

namespace VersatileEngine

namespace LineEditor

/-- `\x1b[K`: what stands behind the cursor is erased. -/
def eraseToEnd : Str := [27, 91, 75]

/-- `\x1b[nD`: the cursor goes back `n` columns. Nothing is written for none. -/
def cursorBack (n : Nat) : Str := if 0 < n then [27, 91] ++ natChars n ++ [68] else []

def toTcpText (text : Str) : Str := text.flatMap fun ch => if ch = 10 then [13, 10] else [ch]

namespace Editor

variable (e : Editor) (prompt : Str)

def cursorColsToEnd : Nat := displayWidthIn e.line e.cursor e.line.length

def renderedLine : Str := prompt ++ e.line

def renderEditorLine (newLine useAnsi : Bool) : Str :=
  (if newLine then [13, 10] else [13]) ++ e.renderedLine prompt ++
    if useAnsi then eraseToEnd ++ cursorBack e.cursorColsToEnd else []

def writeEditorResult (result : EditResult) (useCrlf : Bool) : Str :=
  (if useCrlf then toTcpText result.output else result.output) ++
    if result.promptOnNewLine then
      if useCrlf then e.renderEditorLine prompt true true
      else [10] ++ e.renderedLine prompt ++ eraseToEnd ++ cursorBack (e.line.length - e.cursor)
    else if result.redraw then
      if useCrlf then e.renderEditorLine prompt false true
      else [13] ++ e.renderedLine prompt ++ eraseToEnd ++ cursorBack (e.line.length - e.cursor)
    else []

/-- The output of a command in place of the line. -/
def asyncText (text : Str) : Str :=
  [13] ++ eraseToEnd ++ text ++ if text ≠ [] ∧ text.getLast? ≠ some 10 then [10] else []

/-- On the standard output. -/
def asyncRedraw (text : Str) : Str :=
  asyncText text ++ e.renderedLine prompt ++ eraseToEnd ++ cursorBack e.cursorColsToEnd

/-- The same over TCP. -/
def asyncTcp (text : Str) (useAnsi : Bool) : Str :=
  (if useAnsi then [13] ++ eraseToEnd else []) ++ toTcpText text ++ e.renderEditorLine prompt false useAnsi

/-- The prompt and the line, and the cursor back over the columns of the text behind it. -/
def drawnLine : Str :=
  prompt ++ e.line ++ eraseToEnd ++ cursorBack (displayWidth (e.line.drop e.cursor))

/-- Every way to draw the line ends so, behind what it writes first. -/
structure CursorDrawn : Prop where
  tcp : ∀ newLine, e.renderEditorLine prompt newLine true =
    (if newLine then [13, 10] else [13]) ++ e.drawnLine prompt
  stdioNewLine : ∀ result : EditResult, result.promptOnNewLine = true →
    e.writeEditorResult prompt result false = result.output ++ [10] ++ e.drawnLine prompt
  stdioRedraw : ∀ result : EditResult, result.promptOnNewLine = false → result.redraw = true →
    e.writeEditorResult prompt result false = result.output ++ [13] ++ e.drawnLine prompt
  async : ∀ text, e.asyncRedraw prompt text = asyncText text ++ e.drawnLine prompt
  asyncTcp : ∀ text, e.asyncTcp prompt text true =
    [13] ++ eraseToEnd ++ toTcpText text ++ [13] ++ e.drawnLine prompt

end Editor

section Cursor

variable {e : Editor} {prompt : Str}

theorem cursorBack_inj {m n : Nat} (h : cursorBack m = cursorBack n) : m = n := by
  rw [cursorBack, cursorBack] at h
  split_ifs at h with hm hn hn
  · exact natChars_inj (List.append_cancel_left (List.append_cancel_right h))
  · simp at h
  · simp at h
  · omega

/-- The width that the editor knows is the width of the text behind the cursor. -/
theorem cursorColsToEnd_eq (h : Parted e.line e.cursor) : e.cursorColsToEnd = displayWidth (e.line.drop e.cursor) := by
  obtain ⟨l, r, hline, hcursor, -, hr⟩ := h
  rw [Editor.cursorColsToEnd, hline, hcursor, List.drop_left]
  exact displayWidthIn_drop hr

theorem renderEditorLine_drawn (h : Parted e.line e.cursor) (newLine : Bool) :
    e.renderEditorLine prompt newLine true = (if newLine then [13, 10] else [13]) ++ e.drawnLine prompt := by
  rw [Editor.renderEditorLine, if_pos rfl, cursorColsToEnd_eq h, Editor.renderedLine, Editor.drawnLine]
  simp only [List.append_assoc]

theorem async_drawn (h : Parted e.line e.cursor) (text : Str) :
    e.asyncRedraw prompt text = Editor.asyncText text ++ e.drawnLine prompt ∧
      e.asyncTcp prompt text true = [13] ++ eraseToEnd ++ toTcpText text ++ [13] ++ e.drawnLine prompt := by
  constructor
  · rw [Editor.asyncRedraw, cursorColsToEnd_eq h, Editor.renderedLine, Editor.drawnLine]
    simp only [List.append_assoc]
  · rw [Editor.asyncTcp, if_pos rfl, renderEditorLine_drawn h, if_neg Bool.false_ne_true]
    simp only [List.append_assoc]

theorem writeEditorResult_stdio (result : EditResult) : e.writeEditorResult prompt result false = result.output ++
    if result.promptOnNewLine then
      [10] ++ e.renderedLine prompt ++ eraseToEnd ++ cursorBack (e.line.length - e.cursor)
    else if result.redraw then
      [13] ++ e.renderedLine prompt ++ eraseToEnd ++ cursorBack (e.line.length - e.cursor)
    else [] := rfl

/-- The standard output counts the bytes behind the cursor. -/
theorem stdio_drawn_iff (h : Parted e.line e.cursor) (lead : Str) :
    lead ++ e.renderedLine prompt ++ eraseToEnd ++ cursorBack (e.line.length - e.cursor) =
      lead ++ e.drawnLine prompt ↔ ∀ b ∈ e.line.drop e.cursor, 0 < b ∧ b < 0x80 := by
  have hvalid : Utf8.Valid (e.line.drop e.cursor) := by
    obtain ⟨l, r, hline, hcursor, -, hr⟩ := h
    rw [hline, hcursor, List.drop_left]
    exact hr
  rw [← displayWidth_iff hvalid, List.length_drop, Editor.drawnLine, Editor.renderedLine, List.append_assoc lead,
    List.append_assoc lead, List.append_cancel_left_eq, List.append_cancel_left_eq]
  exact ⟨fun he => (cursorBack_inj he).symm, fun he => by rw [he]⟩

/-- **The cursor is drawn where it is, on every way, exactly where the text behind it is ASCII** without NUL. -/
theorem cursor_drawn_iff (e : Editor) (prompt : Str) (h : Parted e.line e.cursor) :
    e.CursorDrawn prompt ↔ ∀ b ∈ e.line.drop e.cursor, 0 < b ∧ b < 0x80 := by
  constructor
  · intro hdrawn
    have hstdio := hdrawn.stdioRedraw (.drawn true) rfl rfl
    rw [writeEditorResult_stdio] at hstdio
    exact (stdio_drawn_iff h [13]).1 hstdio
  · intro hascii
    have hline := fun lead => (@stdio_drawn_iff e prompt h lead).2 hascii
    refine ⟨renderEditorLine_drawn h, fun result hnew => ?_, fun result hnew hredraw => ?_,
      fun text => (async_drawn h text).1, fun text => (async_drawn h text).2⟩
    · rw [writeEditorResult_stdio, if_pos hnew, hline [10], List.append_assoc]
    · rw [writeEditorResult_stdio, hnew, if_neg Bool.false_ne_true, if_pos hredraw, hline [13], List.append_assoc]

/-- LEFT over a character of three bytes and two columns. -/
theorem cursor_drawn_sample : ¬ ({ fresh true .controlled [] with line := [0xE4, 0xBD, 0xA0] } : Editor).CursorDrawn
    (ascii "> ") := by
  rw [cursor_drawn_iff _ _ ⟨[], [0xE4, 0xBD, 0xA0], rfl, rfl, rfl, by decide⟩]
  exact fun h => absurd (h 0xE4 (List.mem_cons_self ..)).2 (by decide)

/-- Three columns back over a character of two. -/
theorem draws_bytes : ¬ ∀ (e : Editor) (prompt : Str), Parted e.line e.cursor → e.CursorDrawn prompt := by
  intro h
  have hdrawn := h { fresh true .controlled [] with line := [0xE4, 0xBD, 0xA0] } (ascii "> ")
    ⟨[], [0xE4, 0xBD, 0xA0], rfl, rfl, rfl, by decide⟩
  exact absurd (hdrawn.stdioRedraw (.drawn true) rfl rfl) (by decide)

end Cursor

end LineEditor

end VersatileEngine
