import VersatileEngine.Lib.Decimal

/-!
# VersatileEngine.Service.Tokens

`split`, the tokenizer of a terminal session.

* `splitLoop` — the loop over the bytes, with the quote that is open, whether the last byte was a backslash,
  and the token so far.
* `after`       — what the loop holds behind a text; `split_fresh` cuts a line where that is nothing.
* `splitLoop_first`, `splitLoop_shorter` — the first token of a text lacks its special bytes.
-/

namespace VersatileEngine.Terminal

/-- `std::isspace`. -/
def isSpace (c : UInt8) : Bool := c = 32 || (9 ≤ c && c ≤ 13)

def splitLoop (quote : Option UInt8) (escaped : Bool) (current : Str) : Str → List Str
  | [] => if current = [] then [] else [current]
  | ch :: line =>
    if escaped then splitLoop quote false (current ++ [ch]) line
    else if ch = 92 then splitLoop quote true current line
    else if quote = none ∧ (ch = 34 ∨ ch = 39) then splitLoop (some ch) false current line
    else if quote = some ch then splitLoop none false current line
    else if quote = none ∧ isSpace ch then
      if current = [] then splitLoop none false [] line else current :: splitLoop none false [] line
    else splitLoop quote false (current ++ [ch]) line

def split (line : Str) : List Str := splitLoop none false [] line

/-- The open quote, the backslash and the token of the loop behind a text. -/
def after (quote : Option UInt8) (escaped : Bool) (current : Str) : Str → Option UInt8 × Bool × Str
  | [] => (quote, escaped, current)
  | ch :: line =>
    if escaped then after quote false (current ++ [ch]) line
    else if ch = 92 then after quote true current line
    else if quote = none ∧ (ch = 34 ∨ ch = 39) then after (some ch) false current line
    else if quote = some ch then after none false current line
    else if quote = none ∧ isSpace ch then after none false [] line
    else after quote false (current ++ [ch]) line

/-- Behind the text a token can begin: no quote is open, no backslash waits and no token is begun. -/
def Fresh (text : Str) : Prop := after none false [] text = (none, false, [])

instance (text : Str) : Decidable (Fresh text) := inferInstanceAs (Decidable (_ = _))

/-- No white space, no quote and no backslash. -/
def Ordinary (c : UInt8) : Prop := isSpace c = false ∧ c ≠ 34 ∧ c ≠ 39 ∧ c ≠ 92

instance (c : UInt8) : Decidable (Ordinary c) := inferInstanceAs (Decidable (_ ∧ _))

theorem ordinary_of_all {text : Str} (h : text.all (fun c => decide (Ordinary c)) = true) :
    ∀ c ∈ text, Ordinary c := fun c hc => of_decide_eq_true (List.all_eq_true.mp h c hc)

section Splitting

variable {quote : Option UInt8} {escaped : Bool} {current text more x : Str}

theorem splitLoop_fresh (h : after quote escaped current text = (none, false, [])) :
    splitLoop quote escaped current (text ++ more) = splitLoop quote escaped current text ++ split more := by
  induction text generalizing quote escaped current with
  | nil =>
    cases h
    rfl
  | cons ch text ih =>
    rw [after] at h
    rw [List.cons_append, splitLoop, splitLoop]
    split_ifs at h ⊢
    all_goals first
      | exact ih h
      | rw [ih h, List.cons_append]

/-- **A line is cut where nothing is open.** -/
theorem split_fresh (h : Fresh text) : split (text ++ more) = split text ++ split more := splitLoop_fresh h

theorem splitLoop_ordinary (h : ∀ c ∈ text, Ordinary c) :
    splitLoop none false current (text ++ more) = splitLoop none false (current ++ text) more := by
  induction text generalizing current with
  | nil => rw [List.nil_append, List.append_nil]
  | cons ch text ih =>
    rw [List.forall_mem_cons] at h
    obtain ⟨⟨hspace, h34, h39, h92⟩, h⟩ := h
    rw [List.cons_append, splitLoop, if_neg (by simp), if_neg h92, if_neg (by simp [h34, h39]), if_neg (by simp),
      if_neg (by simp [hspace]), ih h, List.append_assoc]
    rfl

/-- An ordinary word is one token. -/
theorem split_ordinary (h : ∀ c ∈ text, Ordinary c) (hne : text ≠ []) : split text = [text] := by
  have := @splitLoop_ordinary [] text [] h
  rw [List.append_nil, List.nil_append] at this
  rw [split, this, splitLoop, if_neg hne]

/-- An ordinary word in front of white space is the first token. -/
theorem split_before (h : ∀ c ∈ text, Ordinary c) (hne : text ≠ []) (hmore : ∀ c ∈ more.head?, isSpace c = true) :
    (split (text ++ more)).head? = some text := by
  rw [split, splitLoop_ordinary h, List.nil_append]
  cases more with
  | nil =>
    rw [splitLoop, if_neg hne]
    rfl
  | cons ch more =>
    have hspace := hmore ch rfl
    have h92 : ch ≠ 92 := by
      rintro rfl
      revert hspace
      decide
    have hquote : ¬(ch = 34 ∨ ch = 39) := by
      rintro (rfl | rfl) <;> revert hspace <;> decide
    rw [splitLoop, if_neg Bool.false_ne_true, if_neg h92, if_neg (fun h => hquote h.2), if_neg (by simp),
      if_pos ⟨rfl, hspace⟩, if_neg hne]
    rfl

theorem splitLoop_first (h : (splitLoop quote escaped current text).head? = some x) :
    ∃ y, x = current ++ y ∧ y.Sublist text := by
  induction text generalizing quote escaped current with
  | nil =>
    rw [splitLoop] at h
    split_ifs at h
    · cases h
    · cases h
      exact ⟨[], by simp, .slnil⟩
  | cons ch text ih =>
    have hdropped : ∀ {quote escaped}, (splitLoop quote escaped current text).head? = some x →
        ∃ y, x = current ++ y ∧ y.Sublist (ch :: text) := by
      intro quote escaped h
      obtain ⟨y, hy, hsub⟩ := ih h
      exact ⟨y, hy, hsub.cons ch⟩
    have hkept : ∀ {quote escaped}, (splitLoop quote escaped (current ++ [ch]) text).head? = some x →
        ∃ y, x = current ++ y ∧ y.Sublist (ch :: text) := by
      intro quote escaped h
      obtain ⟨y, hy, hsub⟩ := ih h
      exact ⟨ch :: y, by rw [hy, List.append_assoc]; rfl, hsub.cons_cons ch⟩
    rw [splitLoop] at h
    split_ifs at h with h1 h2 h3 h4 h5 h6
    · exact hkept h
    · exact hdropped h
    · exact hdropped h
    · exact hdropped h
    · subst h6
      exact hdropped h
    · cases h
      exact ⟨[], by simp, List.nil_sublist _⟩
    · exact hkept h

/-- A special byte of the text is missing in its first token. -/
theorem splitLoop_shorter (h : (splitLoop none false current text).head? = some x)
    (hspecial : ∃ c ∈ text, ¬Ordinary c) :
    ∃ y, x = current ++ y ∧ y.Sublist text ∧ y.length < text.length := by
  induction text generalizing current with
  | nil =>
    obtain ⟨c, hc, -⟩ := hspecial
    cases hc
  | cons ch text ih =>
    have hdropped : ∀ {quote escaped}, (splitLoop quote escaped current text).head? = some x →
        ∃ y, x = current ++ y ∧ y.Sublist (ch :: text) ∧ y.length < (ch :: text).length := by
      intro quote escaped h
      obtain ⟨y, hy, hsub⟩ := splitLoop_first h
      exact ⟨y, hy, hsub.cons ch, Nat.lt_succ_of_le hsub.length_le⟩
    rw [splitLoop, if_neg Bool.false_ne_true] at h
    by_cases h92 : ch = 92
    · rw [if_pos h92] at h
      exact hdropped h
    rw [if_neg h92] at h
    by_cases hquote : ch = 34 ∨ ch = 39
    · rw [if_pos ⟨rfl, hquote⟩] at h
      exact hdropped h
    rw [if_neg (fun h => hquote h.2), if_neg (by simp)] at h
    by_cases hspace : isSpace ch = true
    · rw [if_pos ⟨rfl, hspace⟩] at h
      split_ifs at h with hempty
      · subst hempty
        exact hdropped h
      · cases h
        exact ⟨[], by simp, List.nil_sublist _, by simp⟩
    · rw [if_neg (fun h => hspace h.2)] at h
      have hch : Ordinary ch := ⟨by simpa using hspace, fun h => hquote (.inl h), fun h => hquote (.inr h), h92⟩
      have hrest : ∃ c ∈ text, ¬Ordinary c := by
        obtain ⟨c, hc, hspecial⟩ := hspecial
        rcases List.mem_cons.mp hc with rfl | hc
        · exact absurd hch hspecial
        · exact ⟨c, hc, hspecial⟩
      obtain ⟨y, hy, hsub, hlt⟩ := ih h hrest
      exact ⟨ch :: y, by rw [hy, List.append_assoc]; rfl, hsub.cons_cons ch, by simpa using hlt⟩

end Splitting

end VersatileEngine.Terminal
