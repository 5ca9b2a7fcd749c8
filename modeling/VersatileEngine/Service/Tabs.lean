import VersatileEngine.Service.LineEditor

/-!
# VersatileEngine.Service.Tabs

Tabs in the two modes of the editor: completed as they are typed, or when the line is submitted.

* `strokes`          — keys one after another, with all that they print.
* `applyTabs_append` — the submitted tabs are completed from left to right.
* `complete_atEnd`   — a tab at the end of the line does what a submitted one does.
* `tabs_agree`       — **both modes come to the same line and print the same candidates**.
-/

namespace VersatileEngine

namespace LineEditor

/-- The keys one after another on a session that stays as it is, with what they print. -/
def strokes (ans : Answers) (e : Editor) : List Key → Option (Editor × Str)
  | [] => some (e, [])
  | key :: keys => (e.onKey ans key).bind fun r => (strokes ans r.1 keys).map fun r' => (r'.1, r.2.output ++ r'.2)

/-- A character, which is no tab, or the tab key. -/
def Stroke : Key → Prop
  | .character _ chars => 9 ∉ chars
  | .tab => True
  | _ => False

section Tabs

variable {ans : Answers}

theorem applyTabs_append (a b : Str) : ∀ r : Str × Str,
    Editor.applyTabs ans (a ++ b) r = Editor.applyTabs ans b (Editor.applyTabs ans a r) := by
  induction a with
  | nil => exact fun r => rfl
  | cons ch a ih =>
    rintro ⟨current, output⟩
    rw [List.cons_append, Editor.applyTabs, Editor.applyTabs]
    split_ifs
    · exact ih _
    · dsimp only
      split_ifs <;> exact ih _

theorem applyTabs_text {text : Str} (h : 9 ∉ text) : ∀ current output : Str,
    Editor.applyTabs ans text (current, output) = (current ++ text, output) := by
  induction text with
  | nil => exact fun current output => by rw [List.append_nil]; rfl
  | cons ch text ih =>
    intro current output
    rw [List.mem_cons, not_or] at h
    rw [Editor.applyTabs, if_pos (Ne.symm h.1), ih h.2, List.append_assoc]
    rfl

/-- What is printed before comes first. -/
theorem applyTabs_output (line : Str) : ∀ current output : Str,
    Editor.applyTabs ans line (current, output) =
      ((Editor.applyTabs ans line (current, [])).1, output ++ (Editor.applyTabs ans line (current, [])).2) := by
  induction line with
  | nil => exact fun current output => by rw [Editor.applyTabs, Editor.applyTabs, List.append_nil]
  | cons ch line ih =>
    intro current output
    rw [Editor.applyTabs, Editor.applyTabs]
    split_ifs with hch
    · exact ih _ _
    · dsimp only
      split_ifs with hfound hend hmany
      · exact ih _ _
      · exact ih _ _
      · rw [ih _ (output ++ _), ih _ ([] ++ _), List.nil_append, List.append_assoc]
      · exact ih _ _

theorem applyTabs_tab (current : Str) : Editor.applyTabs ans [9] (current, []) =
    if ans.complete current = [] then (current, [])
    else if Editor.endsWord (ans.complete current) current then
      (current ++ Editor.addition (ans.complete current) (lastWord current) ++ [32], [])
    else (current ++ Editor.addition (ans.complete current) (lastWord current),
      if 1 < (ans.complete current).length then formatMatches (ans.complete current) else []) := by
  rw [Editor.applyTabs, if_neg (not_not.2 rfl)]
  rfl

/-- The cursor is at the end of the line, on a session. -/
structure AtEnd (mode : Mode) (e : Editor) : Prop where
  mode : e.mode = mode
  session : e.session = true
  cursor : e.cursor = e.line.length

theorem insert_atEnd {mode : Mode} {e : Editor} (h : AtEnd mode e) (text : Str) :
    e.insert text = some (e.place (e.line ++ text)) := by
  rw [Editor.insert, h.cursor, insertAt, if_pos (Nat.le_refl _), List.take_length, List.drop_length,
    List.append_nil, Option.map_some, Editor.place, List.length_append]

theorem AtEnd.place {mode : Mode} {e : Editor} (h : AtEnd mode e) (text : Str) : AtEnd mode (e.place text) :=
  ⟨h.mode, h.session, rfl⟩

/-- **A tab at the end of the line** does what a submitted one does. -/
theorem complete_atEnd {e : Editor} (h : AtEnd .controlled e) : ∃ r, e.completeAtCursor ans = some r ∧
    AtEnd .controlled r.1 ∧ Editor.applyTabs ans [9] (e.line, []) = (r.1.line, r.2.output) := by
  rw [Editor.completeAtCursor, if_neg (by simp [h.session]), h.cursor, List.take_length, applyTabs_tab]
  dsimp only
  by_cases hfound : ans.complete e.line = []
  · rw [if_pos hfound, if_pos hfound]
    exact ⟨_, rfl, h, rfl⟩
  rw [if_neg hfound, if_neg hfound]
  generalize hmore : Editor.addition (ans.complete e.line) (lastWord e.line) = more
  have hinsert : (if more = [] then some e else e.insert more) = some (e.place (e.line ++ more)) := by
    split_ifs with hnil
    · rw [hnil, List.append_nil, Editor.place, ← h.cursor]
    · exact insert_atEnd h more
  rw [hinsert, Option.bind_some]
  by_cases hend : Editor.endsWord (ans.complete e.line) e.line = true
  · have hone : ¬ 1 < (ans.complete e.line).length := by
      simp only [Editor.endsWord, Bool.and_eq_true, decide_eq_true_eq] at hend
      omega
    have hspace : Editor.endsWord (ans.complete e.line) e.line = true ∧
        ((e.place (e.line ++ more)).cursor = (e.place (e.line ++ more)).line.length ∨
          (e.place (e.line ++ more)).line[(e.place (e.line ++ more)).cursor]? ≠ some 32) := ⟨hend, .inl rfl⟩
    rw [if_neg hone, if_pos hspace, insert_atEnd (h.place _), if_pos hend]
    exact ⟨_, rfl, (h.place _).place _, rfl⟩
  · simp only [hend, false_and, if_false, Bool.false_eq_true]
    exact ⟨_, rfl, h.place _, rfl⟩

/-- A key that types text, in either mode. -/
theorem character_atEnd {mode : Mode} {e : Editor} (h : AtEnd mode e) (ch : UInt8) (chars : Str) :
    ∃ r, e.onKey ans (.character ch chars) = some r ∧ AtEnd mode r.1 ∧ r.2.output = [] ∧
      r.1.line = e.line ++ if chars ≠ [] then chars else if 0x20 ≤ ch ∧ ch < 0x7F then [ch] else [] := by
  rw [Editor.onKey]
  generalize (if chars ≠ [] then chars else if 0x20 ≤ ch ∧ ch < 0x7F then [ch] else []) = input
  by_cases hempty : input = []
  · rw [if_pos hempty, hempty]
    exact ⟨_, rfl, h, rfl, (List.append_nil _).symm⟩
  · have hreset : AtEnd mode e.resetHistoryBrowse := ⟨h.mode, h.session, h.cursor⟩
    rw [if_neg hempty, insert_atEnd hreset]
    exact ⟨_, rfl, hreset.place _, rfl, rfl⟩

theorem no_tab {ch : UInt8} {chars : Str} (h : 9 ∉ chars) :
    9 ∉ (if chars ≠ [] then chars else if 0x20 ≤ ch ∧ ch < 0x7F then [ch] else [] : Str) := by
  split_ifs with hchars hch
  · exact h
  · intro hmem
    obtain rfl := List.mem_singleton.1 hmem
    exact absurd hch.1 (by decide)
  · exact List.not_mem_nil

/-- The editor `e` completes as it goes, `e'` has the tabs in its line; `output` is what `e` has printed. -/
structure Together (ans : Answers) (e : Editor) (output : Str) (e' : Editor) : Prop where
  controlled : AtEnd .controlled e
  cooked : AtEnd .cooked e'
  same : Editor.applyTabs ans e'.line ([], []) = (e.line, output)

/-- **One key** keeps the two editors together. -/
theorem onKey_together {e e' : Editor} {output : Str} (h : Together ans e output e') {key : Key}
    (hkey : Stroke key) : ∃ r r', e.onKey ans key = some r ∧ e'.onKey ans key = some r' ∧
      r'.2.output = [] ∧ Together ans r.1 (output ++ r.2.output) r'.1 := by
  cases key with
  | character ch chars =>
    obtain ⟨r, hr, hend, hquiet, hline⟩ := @character_atEnd ans _ _ h.controlled ch chars
    obtain ⟨r', hr', hend', hquiet', hline'⟩ := @character_atEnd ans _ _ h.cooked ch chars
    refine ⟨r, r', hr, hr', hquiet', hend, hend', ?_⟩
    rw [hline', applyTabs_append, h.same, applyTabs_text (no_tab hkey), hline, hquiet, List.append_nil]
  | tab =>
    obtain ⟨r, hr, hend, htab⟩ := @complete_atEnd ans _ h.controlled
    have hinsert := insert_atEnd h.cooked [9]
    refine ⟨r, (e'.place (e'.line ++ [9]), .empty), ?_, ?_, rfl, hend, h.cooked.place _, ?_⟩
    · rw [Editor.onKey, if_pos (by simp [Editor.controlled, h.controlled.mode]), hr]
    · rw [Editor.onKey, if_neg (by simp [Editor.controlled, h.cooked.mode]), hinsert]
      rfl
    · show Editor.applyTabs ans (e'.line ++ [9]) ([], []) = _
      rw [applyTabs_append, h.same, applyTabs_output, htab]
  | _ => exact hkey.elim

theorem strokes_together (keys : List Key) (hkeys : ∀ key ∈ keys, Stroke key) :
    ∀ {e e' : Editor} {output : Str}, Together ans e output e' → ∃ e₁ printed e₂,
      strokes ans e keys = some (e₁, printed) ∧ strokes ans e' keys = some (e₂, []) ∧
        Together ans e₁ (output ++ printed) e₂ := by
  induction keys with
  | nil =>
    intro e e' output h
    refine ⟨e, [], e', rfl, rfl, ?_⟩
    rw [List.append_nil]
    exact h
  | cons key keys ih =>
    intro e e' output h
    rw [List.forall_mem_cons] at hkeys
    obtain ⟨r, r', hr, hr', hquiet, htogether⟩ := onKey_together h hkeys.1
    obtain ⟨e₁, printed, e₂, h₁, h₂, hend⟩ := ih hkeys.2 htogether
    rw [List.append_assoc] at hend
    refine ⟨e₁, r.2.output ++ printed, e₂, ?_, ?_, hend⟩
    · rw [strokes, hr, Option.bind_some, h₁]
      rfl
    · rw [strokes, hr', Option.bind_some, h₂, hquiet]
      rfl

/-- What is submitted where there are tabs, and where there are none. -/
theorem submitLine_cooked {e : Editor} (h : AtEnd .cooked e) {line output : Str}
    (hsame : Editor.applyTabs ans e.line ([], []) = (line, output)) :
    if 9 ∈ e.line then
      e.submitLine ans = (e.place line, { EditResult.empty with output := output, promptOnNewLine := true })
    else line = e.line ∧ output = [] := by
  split_ifs with htab
  · have hne : e.line ≠ [] := List.ne_nil_of_mem htab
    rw [Editor.submitLine, if_neg hne, if_pos (by simp [Editor.controlled, h.mode, h.session, htab]), hsame]
  · rw [applyTabs_text htab] at hsame
    cases hsame
    exact ⟨rfl, rfl⟩

/-- **The modes agree**: whatever characters and tabs are typed on an empty line, the line that the tabs of the
submitted line expand to is the line that is shown where they are completed at once, and the same candidates are
printed in the same order. -/
theorem tabs_agree (ans : Answers) (e : Editor) (hsession : e.session = true) (hline : e.line = [])
    (hcursor : e.cursor = 0) (keys : List Key) (hkeys : ∀ key ∈ keys, Stroke key) :
    ∃ e₁ printed e₂, strokes ans { e with mode := .controlled } keys = some (e₁, printed) ∧
      strokes ans { e with mode := .cooked } keys = some (e₂, []) ∧
      Editor.applyTabs ans e₂.line ([], []) = (e₁.line, printed) ∧
      if 9 ∈ e₂.line then
        e₂.submitLine ans = (e₂.place e₁.line, { EditResult.empty with output := printed, promptOnNewLine := true })
      else e₁.line = e₂.line ∧ printed = [] := by
  have hlen : e.cursor = e.line.length := by rw [hline, hcursor]; rfl
  have hstart : Together ans { e with mode := .controlled } [] { e with mode := .cooked } := by
    refine ⟨⟨rfl, hsession, hlen⟩, ⟨rfl, hsession, hlen⟩, ?_⟩
    show Editor.applyTabs ans e.line ([], []) = (e.line, [])
    rw [hline]
    rfl
  obtain ⟨e₁, printed, e₂, h₁, h₂, hend⟩ := strokes_together keys hkeys hstart
  exact ⟨e₁, printed, e₂, h₁, h₂, hend.same, submitLine_cooked hend.cooked hend.same⟩

/-- One candidate for the first word, and two for the second. -/
theorem tabs_agree_sample : ∃ e₁ printed e₂,
    strokes ⟨fun line => if 32 ∈ line then [[97], [98]] else [[108, 115]], fun _ => []⟩
        (fresh true .controlled []) [.character 108 [], .tab, .tab] = some (e₁, printed) ∧
      strokes ⟨fun line => if 32 ∈ line then [[97], [98]] else [[108, 115]], fun _ => []⟩
        (fresh true .cooked []) [.character 108 [], .tab, .tab] = some (e₂, []) ∧
      Editor.applyTabs ⟨fun line => if 32 ∈ line then [[97], [98]] else [[108, 115]], fun _ => []⟩ e₂.line ([], []) =
        (e₁.line, printed) := by
  obtain ⟨e₁, printed, e₂, h₁, h₂, hsame, -⟩ := tabs_agree
    ⟨fun line => if 32 ∈ line then [[97], [98]] else [[108, 115]], fun _ => []⟩ (fresh true .controlled []) rfl rfl rfl
    [.character 108 [], .tab, .tab] (by simp [Stroke])
  exact ⟨e₁, printed, e₂, h₁, h₂, hsame⟩

end Tabs

end LineEditor

end VersatileEngine
