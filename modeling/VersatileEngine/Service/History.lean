import VersatileEngine.Service.LineEditor

/-!
# VersatileEngine.Service.History

What UP and DOWN show.

* `Still`          — the keys that do not edit the line.
* `select`         — the place that a key leads to: an entry of the history, or the draft behind the last.
* `Browsing`       — the editor shows the place, and the draft is kept while an entry is shown.
* `browse_lossless` — **after any such keys the line is the one that the clamped moves select**.
-/

namespace VersatileEngine

namespace LineEditor

/-- The keys that move in the history or in the line. -/
def Still : Key → Prop
  | .up | .down | .left | .right | .home | .endKey | .none => True
  | _ => False

/-- One step among `n` entries and the draft, which is at `n`. -/
def select (n pos : Nat) : Key → Nat
  | .up => pos - 1
  | .down => min (pos + 1) n
  | _ => pos

/-- The entries of the history that the editor goes through. -/
def Editor.browsed (e : Editor) : List Str := if e.controlled ∧ e.session then e.history else []

/-- The entry at the place, or the draft. -/
def shown (entries : List Str) (draft : Str) (pos : Nat) : Str := entries[pos]?.getD draft

/-- The editor `e'` shows the place `pos`; browsing began in `e`. -/
structure Browsing (e : Editor) (pos : Nat) (e' : Editor) : Prop where
  session : e'.session = e.session
  mode : e'.mode = e.mode
  history : e'.history = e.history
  le : pos ≤ e.browsed.length
  line : e'.line = shown e.browsed e.line pos
  index : e'.historyIndex = if pos = e.browsed.length then -1 else (pos : Int)
  draft : pos < e.browsed.length → e'.historyDraft = e.line

section Steps

variable {ans : Answers} {e e' : Editor} {pos : Nat}

theorem Browsing.start (h : e.historyIndex = -1) : Browsing e e.browsed.length e where
  session := rfl
  mode := rfl
  history := rfl
  le := Nat.le_refl _
  line := by rw [shown, List.getElem?_eq_none (Nat.le_refl _), Option.getD_none]
  index := by rw [h, if_pos rfl]
  draft h := absurd h (Nat.lt_irrefl _)

theorem Browsing.moved (h : Browsing e pos e') (cursor : Nat) : Browsing e pos { e' with cursor := cursor } :=
  ⟨h.session, h.mode, h.history, h.le, h.line, h.index, h.draft⟩

theorem Browsing.browsed (h : Browsing e pos e') : e'.browsed = e.browsed := by
  rw [Editor.browsed, Editor.controlled, h.mode, h.session, h.history]
  rfl

/-- An entry of the history is put into the line; the draft is the one of the beginning. -/
theorem Browsing.entry (h : Browsing e pos e') {i : Nat} (hi : i < e.browsed.length) (hbrowsed : e.browsed = e.history)
    (hdraft : e'.historyDraft = e.line) : ∃ e'', e'.entry i = some e'' ∧ Browsing e i e'' := by
  have hget : e'.history[i]? = some (e.browsed[i]) := by
    rw [h.history, ← hbrowsed, List.getElem?_eq_getElem hi]
  refine ⟨{ e'.place e.browsed[i] with historyIndex := i }, ?_, ?_⟩
  · rw [Editor.entry, if_neg (by omega), Int.toNat_natCast, hget]
    rfl
  · refine ⟨h.session, h.mode, h.history, hi.le, ?_, (if_neg hi.ne).symm, fun _ => hdraft⟩
    rw [shown, List.getElem?_eq_getElem hi]
    rfl

/-- The history is browsed: it has entries, and the editor has a session and draws the line. -/
theorem browsed_spec (hne : e.browsed ≠ []) : e.controlled = true ∧ e.session = true ∧ e.browsed = e.history := by
  rw [Editor.browsed] at hne ⊢
  split_ifs at hne ⊢ with h
  · exact ⟨h.1, h.2, rfl⟩
  · exact absurd rfl hne

theorem browseUp_shows (h : Browsing e pos e') (hne : e.browsed ≠ []) :
    ∃ e'', e'.browseUp = some (e'', true) ∧ Browsing e (pos - 1) e'' := by
  obtain ⟨-, hsession, hbrowsed⟩ := browsed_spec hne
  have hpos := List.length_pos_iff.2 hne
  have hskip : ¬ ((!e'.session) = true ∨ e'.history = []) := by
    rw [h.session, hsession, h.history, ← hbrowsed]
    simp [hne]
  rw [Editor.browseUp, if_neg hskip]
  by_cases hend : pos = e.browsed.length
  · -- the line becomes the draft
    have hdraft : Browsing e pos { e' with historyDraft := e'.line } := by
      refine ⟨h.session, h.mode, h.history, h.le, h.line, h.index, fun hlt => absurd hend hlt.ne⟩
    have hline : e'.line = e.line := by
      rw [h.line, shown, List.getElem?_eq_none hend.ge, Option.getD_none]
    obtain ⟨e'', he, hb⟩ := hdraft.entry (i := pos - 1) (by omega) hbrowsed hline
    have hlast : ((e'.history.length : Int) - 1) = ((pos - 1 : Nat) : Int) := by
      rw [h.history, ← hbrowsed]
      omega
    have hindex : e'.historyIndex < 0 := by
      rw [h.index, if_pos hend]
      omega
    rw [if_pos hindex, hlast, he]
    exact ⟨e'', rfl, hb⟩
  · have hlt : pos < e.browsed.length := by
      have := h.le
      omega
    obtain ⟨e'', he, hb⟩ := h.entry (i := pos - 1) (by omega) hbrowsed (h.draft hlt)
    rw [h.index, if_neg hend, if_neg (by omega)]
    by_cases hfirst : pos = 0
    · subst hfirst
      rw [if_neg (by omega), he]
      exact ⟨e'', rfl, hb⟩
    · have hprev : (pos : Int) - 1 = ((pos - 1 : Nat) : Int) := by omega
      rw [if_pos (by omega), hprev, he]
      exact ⟨e'', rfl, hb⟩

theorem browseDown_shows (h : Browsing e pos e') (hne : e.browsed ≠ []) :
    ∃ r, e'.browseDown = some r ∧ Browsing e (min (pos + 1) e.browsed.length) r.1 := by
  obtain ⟨-, hsession, hbrowsed⟩ := browsed_spec hne
  have hskip : ¬ ((!e'.session) = true ∨ e'.history = []) := by
    rw [h.session, hsession, h.history, ← hbrowsed]
    simp [hne]
  rw [Editor.browseDown, if_neg hskip, h.index]
  by_cases hend : pos = e.browsed.length
  · rw [if_pos hend, if_pos (by omega)]
    refine ⟨_, rfl, ?_⟩
    rw [hend, Nat.min_eq_right (Nat.le_succ _), ← hend]
    exact h
  have hlt : pos < e.browsed.length := by
    have := h.le
    omega
  rw [if_neg hend, if_neg (by omega), h.history, ← hbrowsed]
  by_cases hlast : pos + 1 < e.browsed.length
  · obtain ⟨e'', he, hb⟩ := h.entry hlast hbrowsed (h.draft hlt)
    have hnext : (pos : Int) + 1 = ((pos + 1 : Nat) : Int) := by omega
    rw [if_pos (by omega), hnext, he, Nat.min_eq_left hlast.le]
    exact ⟨_, rfl, hb⟩
  · -- behind the newest entry the draft comes back
    have hn : pos + 1 = e.browsed.length := by omega
    rw [if_neg (by omega), hn, Nat.min_self]
    refine ⟨_, rfl, h.session, h.mode, h.history, Nat.le_refl _, ?_, (if_pos rfl).symm, fun h => absurd h (Nat.lt_irrefl _)⟩
    rw [shown, List.getElem?_eq_none (Nat.le_refl _), Option.getD_none]
    exact h.draft hlt

theorem browse_nothing (h : Browsing e pos e') (hempty : e.browsed = []) (hcontrolled : e'.controlled = true) :
    e'.browseUp = some (e', false) ∧ e'.browseDown = some (e', false) ∧ pos = 0 := by
  have hskip : (!e'.session) = true ∨ e'.history = [] := by
    have hsame := h.browsed
    rw [hempty, Editor.browsed] at hsame
    split_ifs at hsame with hon
    · exact .inr hsame
    · exact .inl (by simpa [hcontrolled] using hon)
  have hle := h.le
  rw [hempty] at hle
  rw [Editor.browseUp, Editor.browseDown, if_pos hskip, if_pos hskip]
  exact ⟨rfl, rfl, Nat.le_zero.1 hle⟩

theorem select_nothing {key : Key} : select 0 0 key = 0 := by cases key <;> rfl

/-- **One key**: what is shown is the place that it leads to. -/
theorem onKey_browsing (h : Browsing e pos e') {key : Key} (hstill : Still key) :
    ∃ r, e'.onKey ans key = some r ∧ Browsing e (select e.browsed.length pos key) r.1 := by
  have hsame : e'.controlled = e.controlled := by rw [Editor.controlled, h.mode]; rfl
  have hstay : ∀ key, e.browsed = [] → pos = 0 → Browsing e (select e.browsed.length pos key) e' := by
    intro key hempty hpos
    rw [hempty, List.length_nil, hpos, select_nothing, ← hpos]
    exact h
  have hoff : e'.controlled ≠ true → e.browsed = [] ∧ pos = 0 := by
    intro hcontrolled
    have hempty : e.browsed = [] := by
      rw [Editor.browsed, ← hsame, if_neg (by simp [hcontrolled])]
    have hle := h.le
    rw [hempty] at hle
    exact ⟨hempty, Nat.le_zero.1 hle⟩
  cases key with
  | up =>
    rw [Editor.onKey]
    split_ifs with hcontrolled
    · by_cases hempty : e.browsed = []
      · obtain ⟨hup, -, hpos⟩ := browse_nothing h hempty hcontrolled
        exact ⟨_, by rw [hup]; rfl, hstay .up hempty hpos⟩
      · obtain ⟨e'', he, hb⟩ := browseUp_shows h hempty
        exact ⟨(e'', .drawn true), by rw [he]; rfl, hb⟩
    · exact ⟨_, rfl, hstay .up (hoff hcontrolled).1 (hoff hcontrolled).2⟩
  | down =>
    rw [Editor.onKey]
    split_ifs with hcontrolled
    · by_cases hempty : e.browsed = []
      · obtain ⟨-, hdown, hpos⟩ := browse_nothing h hempty hcontrolled
        exact ⟨_, by rw [hdown]; rfl, hstay .down hempty hpos⟩
      · obtain ⟨r, hr, hb⟩ := browseDown_shows h hempty
        exact ⟨(r.1, .drawn r.2), by rw [hr]; rfl, hb⟩
    · exact ⟨_, rfl, hstay .down (hoff hcontrolled).1 (hoff hcontrolled).2⟩
  | left =>
    rw [Editor.onKey]
    split_ifs
    · exact ⟨_, rfl, h.moved _⟩
    · exact ⟨_, rfl, h⟩
  | right =>
    rw [Editor.onKey]
    split_ifs
    · exact ⟨_, rfl, h.moved _⟩
    · exact ⟨_, rfl, h⟩
  | home =>
    rw [Editor.onKey]
    split_ifs
    · exact ⟨_, rfl, h.moved _⟩
    · exact ⟨_, rfl, h⟩
  | endKey =>
    rw [Editor.onKey]
    split_ifs
    · exact ⟨_, rfl, h.moved _⟩
    · exact ⟨_, rfl, h⟩
  | none => exact ⟨_, rfl, h⟩
  | _ => exact hstill.elim

end Steps

/-! ## Runs -/

/-- Where keys lead to. -/
def selected (n pos : Nat) (keys : List (Answers × Key)) : Nat := keys.foldl (fun pos p => select n pos p.2) pos

theorem run_browsing {e : Editor} (keys : List (Answers × Key)) (hstill : ∀ p ∈ keys, Still p.2) :
    ∀ {pos : Nat} {e' : Editor}, Browsing e pos e' →
      ∃ e'', run e' keys = some e'' ∧ Browsing e (selected e.browsed.length pos keys) e'' := by
  induction keys with
  | nil => exact fun h => ⟨_, rfl, h⟩
  | cons p keys ih =>
    intro pos e' h
    rw [List.forall_mem_cons] at hstill
    obtain ⟨r, hr, hb⟩ := @onKey_browsing p.1 _ _ _ h p.2 hstill.1
    obtain ⟨e'', he, hb'⟩ := ih hstill.2 hb
    exact ⟨e'', by rw [run, hr, Option.bind_some, he], hb'⟩

/-- **Browsing loses nothing**: after any moves from a draft the line is the entry, or the draft, that the
clamped moves select, and the history is as it was. Behind the newest entry browsing has ended. -/
theorem browse_lossless (e : Editor) (hfresh : e.historyIndex = -1) (keys : List (Answers × Key))
    (hstill : ∀ p ∈ keys, Still p.2) :
    ∃ e', run e keys = some e' ∧ e'.history = e.history ∧
      e'.line = shown e.browsed e.line (selected e.browsed.length e.browsed.length keys) ∧
      (selected e.browsed.length e.browsed.length keys = e.browsed.length →
        e'.line = e.line ∧ e'.historyIndex = -1) := by
  obtain ⟨e', he, hb⟩ := run_browsing keys hstill (Browsing.start hfresh)
  refine ⟨e', he, hb.history, hb.line, fun hend => ⟨?_, ?_⟩⟩
  · rw [hb.line, hend, shown, List.getElem?_eq_none (Nat.le_refl _), Option.getD_none]
  · rw [hb.index, if_pos hend]

/-- Past the oldest entry and back, with a draft. -/
theorem browse_lossless_sample : ∃ e', run (LineEditor.Editor.place (fresh true .controlled [[97], [98]]) [120])
    (List.map (Prod.mk ⟨fun _ => [], fun _ => []⟩) [.up, .up, .up, .down, .down, .down]) = some e' ∧
      e'.line = [120] := by
  obtain ⟨e', he, -, -, hend⟩ := browse_lossless
    (LineEditor.Editor.place (fresh true .controlled [[97], [98]]) [120]) rfl
    (List.map (Prod.mk ⟨fun _ => [], fun _ => []⟩) [.up, .up, .up, .down, .down, .down])
    (by simp [Still])
  exact ⟨e', he, (hend rfl).1⟩

end LineEditor

end VersatileEngine
