import VersatileEngine.Json.Import

/-!
# VersatileEngine.Json.Scalar

Scalar documents through `json::parse`, which reads them itself.

* `Json.Plain`       — what the fallback reads as the document says: no string with an escape, no number
  that the C library rounds otherwise.
* `parseScalar_eq`   — the fallback on such a document.
* `parse_document`   — `json::parse` on a document that is no such exception.
-/

namespace VersatileEngine

namespace Json

/-- A document that `json::parse` reads as it stands: the fallback for a scalar leaves escapes alone, and
has numbers from `std::stod`. -/
def Plain (stod getDouble : Str → Option Binary64) (text : Str) : Json → Prop
  | .str _ => 92 ∉ text
  | .real literal => stod literal = getDouble literal
  | _ => True

/-- The text of a scalar without the white space around it. -/
inductive ScalarText : Json → Str → Prop
  | null : ScalarText .null (ascii "null")
  | trueText : ScalarText (.bool true) (ascii "true")
  | falseText : ScalarText (.bool false) (ascii "false")
  | str (s : Str) : ScalarText (.str s) (34 :: (s ++ [34]))
  | number {j : Json} {literal : Str} (hall : ∀ c ∈ literal, isNumChar c = true)
      (h : numberOf literal = some j) : ScalarText j literal

/-- A string without escapes is what stands between its quotes. -/
theorem readBody_plain {n : Nat} : ∀ {s str rest : Str}, readBody n s = some (str, rest) → 92 ∉ s →
    s = str ++ 34 :: rest := by
  induction n with
  | zero => rintro s str rest ⟨⟩
  | succ n ih =>
    intro s str rest h hplain
    cases s with
    | nil => cases h
    | cons c s =>
      rw [List.mem_cons, not_or] at hplain
      rw [readBody] at h
      split_ifs at h with hquote hescape hcontrol
      · cases h
        rw [hquote]
        rfl
      · exact absurd hescape.symm hplain.1
      · obtain ⟨p, hp, h⟩ := Option.map_eq_some_iff.mp h
        cases h
        rw [ih hp hplain.2]
        rfl

theorem takeWhile_all {α : Type} {p : α → Bool} (l : List α) : ∀ c ∈ l.takeWhile p, p c = true :=
  fun _ hc => List.mem_takeWhile_imp hc

/-- A scalar document is the text of the scalar between white space. -/
theorem read_scalar {text : Str} {j : Json} (h : Json.read text = some j) (hc : j.isContainer = false)
    (hplain : ∀ s, j = .str s → 92 ∉ text) :
    ∃ w literal w', Ws w ∧ Ws w' ∧ text = w ++ (literal ++ w') ∧ ScalarText j literal := by
  rw [Json.read] at h
  split_ifs at h
  obtain ⟨⟨j', rest⟩, hvalue, h⟩ := Option.bind_eq_some_iff.mp h
  split_ifs at h with hrest
  obtain rfl : j' = j := Option.some.inj h
  have hws : Ws (text.takeWhile isWs) := takeWhile_all text
  have hws' : Ws rest := List.dropWhile_eq_nil_iff.mp hrest
  have htext : text = text.takeWhile isWs ++ skipWs text := List.takeWhile_append_dropWhile.symm
  have hgoal : ∀ literal, skipWs text = literal ++ rest → ScalarText j' literal →
      ∃ w literal w', Ws w ∧ Ws w' ∧ text = w ++ (literal ++ w') ∧ ScalarText j' literal :=
    fun literal hl hs => ⟨_, literal, rest, hws, hws', by rw [← hl]; exact htext, hs⟩
  obtain ⟨n, hn⟩ : ∃ n, 2 * text.length = n + 1 := by
    cases hlen : 2 * text.length with
    | zero =>
      rw [hlen, readValue] at hvalue
      cases hvalue
    | succ n => exact ⟨n, rfl⟩
  rw [hn, readValue] at hvalue
  split at hvalue
  case h_1 =>
    obtain ⟨p, -, hp⟩ := Option.map_eq_some_iff.mp hvalue
    cases hp
    cases hc
  case h_2 =>
    obtain ⟨p, -, hp⟩ := Option.map_eq_some_iff.mp hvalue
    cases hp
    cases hc
  case h_3 s hs =>
    obtain ⟨⟨str, rest'⟩, hstr, hp⟩ := Option.map_eq_some_iff.mp hvalue
    cases hp
    have hmem : 92 ∉ s := by
      intro hm
      refine hplain str rfl ?_
      rw [htext, hs]
      simp [hm]
    refine hgoal _ ?_ (.str str)
    rw [hs, readBody_plain hstr hmem]
    simp
  case h_4 =>
    rw [readScalar.eq_def] at hvalue
    split at hvalue
    case h_1 hs =>
      cases hvalue
      exact hgoal (ascii "null") hs .null
    case h_2 hs =>
      cases hvalue
      exact hgoal (ascii "true") hs .trueText
    case h_3 hs =>
      cases hvalue
      exact hgoal (ascii "false") hs .falseText
    case h_4 =>
      obtain ⟨_, hnum, hp⟩ := Option.map_eq_some_iff.mp hvalue
      cases hp
      exact hgoal _ List.takeWhile_append_dropWhile.symm (.number (takeWhile_all _) hnum)

/-! ## The fallback -/

theorem isSpace_of_ws {c : UInt8} (h : isWs c = true) : isSpace c = true := by
  simp only [isWs, Bool.or_eq_true, decide_eq_true_eq] at h
  rcases h with ((rfl | rfl) | rfl) | rfl <;> rfl

theorem not_space_of_numChar {c : UInt8} (h : isNumChar c = true) : isSpace c = false := by
  simp only [isNumChar, isDigit, Bool.or_eq_true, Bool.and_eq_true, decide_eq_true_eq, UInt8.le_iff_toNat_le,
    ← UInt8.toNat_inj, UInt8.toNat_ofNat] at h
  simp only [isSpace, Bool.or_eq_false_iff, Bool.and_eq_false_iff, decide_eq_false_iff_not, UInt8.le_iff_toNat_le,
    ← UInt8.toNat_inj, UInt8.toNat_ofNat]
  omega

theorem numberOf_ne_nil {literal : Str} {j : Json} (h : numberOf literal = some j) : literal ≠ [] := by
  rintro rfl
  cases h

/-- The text of a scalar is not empty, and there is no white space at its ends. -/
theorem ScalarText.ends {j : Json} {literal : Str} (h : ScalarText j literal) :
    (∃ c s, literal = c :: s ∧ isSpace c = false) ∧ (∃ s c, literal = s ++ [c] ∧ isSpace c = false) := by
  cases h with
  | null => exact ⟨⟨_, _, rfl, rfl⟩, ⟨ascii "nul", 108, rfl, rfl⟩⟩
  | trueText => exact ⟨⟨_, _, rfl, rfl⟩, ⟨ascii "tru", 101, rfl, rfl⟩⟩
  | falseText => exact ⟨⟨_, _, rfl, rfl⟩, ⟨ascii "fals", 101, rfl, rfl⟩⟩
  | str s => exact ⟨⟨34, s ++ [34], rfl, rfl⟩, ⟨34 :: s, 34, rfl, rfl⟩⟩
  | number hall hnum =>
    have hne := numberOf_ne_nil hnum
    constructor
    · obtain ⟨c, s, rfl⟩ := List.exists_cons_of_ne_nil hne
      exact ⟨c, s, rfl, not_space_of_numChar (hall c (by simp))⟩
    · obtain ⟨s, c, rfl⟩ := List.eq_nil_or_concat literal |>.resolve_left hne
      exact ⟨s, c, List.concat_eq_append .., not_space_of_numChar (hall c (by simp))⟩

/-- The fallback sees the text of the scalar. -/
theorem trim_scalar {j : Json} {w literal w' : Str} (hw : Ws w) (hw' : Ws w') (h : ScalarText j literal) :
    ((w ++ (literal ++ w')).dropWhile isSpace).rdropWhile isSpace = literal := by
  obtain ⟨⟨c, s, hc, hspace⟩, ⟨s', c', hc', hspace'⟩⟩ := h.ends
  have hfront : (w ++ (literal ++ w')).dropWhile isSpace = literal ++ w' := by
    rw [List.dropWhile_append_of_pos fun c hc => isSpace_of_ws (hw c hc), hc, List.cons_append,
      List.dropWhile_cons_of_neg (by simp [hspace])]
  rw [hfront, List.rdropWhile, List.reverse_append,
    List.dropWhile_append_of_pos fun c hc => isSpace_of_ws (hw' c (List.mem_reverse.mp hc)), hc',
    List.reverse_append, List.reverse_singleton, List.singleton_append,
    List.dropWhile_cons_of_neg (by simp [hspace']), List.reverse_cons, List.reverse_reverse]

/-- The parts of a literal that is a number. -/
theorem numberOf_parts {literal : Str} {j : Json} (h : numberOf literal = some j) :
    let digits := if literal.head? = some 45 then literal.tail else literal
    digits.takeWhile isDigit ≠ [] ∧ literal.head? ≠ some 43 ∧
      ((digits.dropWhile isDigit = [] ∧ j = .int (if literal.head? = some 45 then
          -(digitsVal 0 (digits.takeWhile isDigit) : Int) else digitsVal 0 (digits.takeWhile isDigit))) ∨
        (digits.dropWhile isDigit ≠ [] ∧ isFraction (digits.dropWhile isDigit) = true ∧ j = .real literal)) := by
  intro digits
  change (if digits.takeWhile isDigit = [] ∨ ((digits.takeWhile isDigit).head? = some 48 ∧
    1 < (digits.takeWhile isDigit).length) then none
    else if digits.dropWhile isDigit = [] then some (.int (if literal.head? = some 45 then
      -(digitsVal 0 (digits.takeWhile isDigit) : Int) else digitsVal 0 (digits.takeWhile isDigit)))
    else if isFraction (digits.dropWhile isDigit) then some (.real literal) else none) = some j at h
  obtain ⟨hwhole, h⟩ := Option.ite_none_left_eq_some.mp h
  have hne : digits.takeWhile isDigit ≠ [] := fun he => hwhole (.inl he)
  refine ⟨hne, fun hplus => hne ?_, ?_⟩
  · obtain ⟨s, hs⟩ := List.head?_eq_some_iff.mp hplus
    have hdigits : digits = 43 :: s := by
      show (if literal.head? = some 45 then literal.tail else literal) = _
      rw [hs]
      rfl
    rw [hdigits]
    rfl
  · by_cases hrest : digits.dropWhile isDigit = []
    · rw [if_pos hrest] at h
      exact .inl ⟨hrest, (Option.some.inj h).symm⟩
    · rw [if_neg hrest, Option.ite_none_right_eq_some] at h
      exact .inr ⟨hrest, h.1, (Option.some.inj h.2).symm⟩

/-- A fraction or an exponent is visible in the literal. -/
theorem isFraction_mem {rest : Str} (hne : rest ≠ []) (h : isFraction rest = true) :
    46 ∈ rest ∨ 101 ∈ rest ∨ 69 ∈ rest := by
  obtain ⟨c, s, rfl⟩ := List.exists_cons_of_ne_nil hne
  rw [isFraction.eq_def] at h
  split at h
  case h_1 hs => exact .inl (by rw [hs]; simp)
  case h_2 =>
    rw [isExponent.eq_def] at h
    dsimp only at h
    rw [Bool.and_eq_true, Bool.or_eq_true, decide_eq_true_eq, decide_eq_true_eq] at h
    rcases h.1 with rfl | rfl
    · exact .inr (.inl (by simp))
    · exact .inr (.inr (by simp))

/-- The literal of an integer shows neither. -/
theorem integer_not_mem {literal : Str}
    (h : (if literal.head? = some 45 then literal.tail else literal).dropWhile isDigit = []) :
    ¬ (46 ∈ literal ∨ 101 ∈ literal ∨ 69 ∈ literal) := by
  have hdigits := List.dropWhile_eq_nil_iff.mp h
  have hall : ∀ c ∈ literal, c = 45 ∨ isDigit c = true := by
    intro c hc
    split_ifs at hdigits with hsign
    · obtain ⟨s, rfl⟩ := List.head?_eq_some_iff.mp hsign
      exact (List.mem_cons.mp hc).imp id (hdigits c)
    · exact .inr (hdigits c hc)
  rintro (h | h | h) <;> rcases hall _ h with h | h <;> cases h

theorem trim_alone {j : Json} {literal : Str} (h : ScalarText j literal) :
    (literal.dropWhile isSpace).rdropWhile isSpace = literal := by
  simpa using trim_scalar ws_nil ws_nil h

/-- Of a string the fallback takes what stands between the quotes, as it stands. -/
theorem parseScalar_quoted (stod : Str → Option Binary64) (s : Str) :
    parseScalar stod (34 :: (s ++ [34])) = .string s := by
  have hlast : (34 :: (s ++ [34]) : Str).getLast? = some 34 := by
    rw [← List.cons_append, List.getLast?_append]
    rfl
  have hname : ∀ t, t.head? ≠ some 34 → (34 :: (s ++ [34]) : Str) ≠ t := by
    rintro t ht rfl
    exact ht rfl
  unfold parseScalar
  rw [trim_alone (.str s)]
  dsimp only
  rw [if_neg (not_or.mpr ⟨by simp, hname _ (by decide)⟩), if_neg (hname _ (by decide)),
    if_neg (hname _ (by decide)), if_pos ⟨rfl, hlast, by simp⟩]
  simp

/-- **The fallback reads a scalar as the document says.** -/
theorem parseScalar_eq {stod getDouble : Str → Option Binary64} {text : Str} {j : Json}
    (h : Json.read text = some j) (hc : j.isContainer = false) (hread : j.Readable getDouble)
    (hplain : j.Plain stod getDouble text) :
    domToVar (j.onDemand getDouble) = some (parseScalar stod text) := by
  obtain ⟨w, literal, w', hw, hw', rfl, hlit⟩ := read_scalar h hc (by rintro s rfl; exact hplain)
  have hsame : parseScalar stod (w ++ (literal ++ w')) = parseScalar stod literal := by
    unfold parseScalar
    rw [trim_scalar hw hw' hlit, trim_alone hlit]
  rw [hsame]
  cases hlit with
  | null => rfl
  | trueText => rfl
  | falseText => rfl
  | str s =>
    rw [parseScalar_quoted]
    rfl
  | number hall hnum =>
    have hname : ∀ c, isNumChar c = false → c ∉ literal := by
      intro c hc hm
      rw [hall c hm] at hc
      cases hc
    have hnull : literal ≠ ascii "null" := fun he => hname 110 rfl (by rw [he]; decide)
    have htrue : literal ≠ ascii "true" := fun he => hname 116 rfl (by rw [he]; decide)
    have hfalse : literal ≠ ascii "false" := fun he => hname 102 rfl (by rw [he]; decide)
    have hquote : literal.head? ≠ some 34 := fun he => hname 34 rfl (List.mem_of_mem_head? he)
    unfold parseScalar
    rw [trim_alone (.number hall hnum)]
    obtain ⟨hwhole, hplus, ⟨hrest, rfl⟩ | ⟨hrest, hfrac, rfl⟩⟩ := numberOf_parts hnum
    · -- an integer
      set i : Int := if literal.head? = some 45 then _ else _ with hi
      obtain ⟨hrange, -, -⟩ := hread
      have hstoll : stoll literal = some (Int64.ofInt i) := by
        rw [stoll]
        simp only [hplus, or_false]
        rw [if_pos ⟨hwhole, hrange i rfl⟩]
      rw [if_neg (not_or.mpr ⟨numberOf_ne_nil hnum, hnull⟩), if_neg htrue, if_neg hfalse,
        if_neg fun h => hquote h.1, if_neg (integer_not_mem hrest), hstoll, Json.onDemand,
        if_pos (hrange i rfl)]
      rfl
    · obtain ⟨-, hdouble, -⟩ := hread
      obtain ⟨d, hd⟩ := Option.isSome_iff_exists.mp (hdouble literal rfl)
      have hstod : stod literal = some d := hplain.trans hd
      have hmem : 46 ∈ literal ∨ 101 ∈ literal ∨ 69 ∈ literal := by
        have hsub : ∀ c, c ∈ (if literal.head? = some 45 then literal.tail else literal).dropWhile isDigit →
            c ∈ literal := by
          intro c hc
          have hc := (List.dropWhile_sublist _).subset hc
          split_ifs at hc
          · exact List.mem_of_mem_tail hc
          · exact hc
        exact (isFraction_mem hrest hfrac).imp (hsub _) (Or.imp (hsub _) (hsub _))
      rw [if_neg (not_or.mpr ⟨numberOf_ne_nil hnum, hnull⟩), if_neg htrue, if_neg hfalse,
        if_neg fun h => hquote h.1, if_pos hmem, hstod, Json.onDemand, hd]
      rfl

end Json

/-- **`json::parse` stores what the document says**, unless it is a scalar that the fallback reads
otherwise. -/
theorem parse_document {simdjson : Simdjson} (hl : simdjson.Lawful) {stod : Str → Option Binary64} {text : Str}
    {j : Json} (h : Json.read text = some j) (hlen : text.length < 2 ^ 32) (hread : j.Readable simdjson.getDouble)
    (hplain : j.Plain stod simdjson.getDouble text) :
    json.parse simdjson stod text = domToVar (j.onDemand simdjson.getDouble) := by
  have hne : text ≠ [] := by
    rintro rfl
    cases h
  rw [json.parse, if_neg hne, hl.document text j h hlen]
  cases hc : j.isContainer with
  | true => cases j <;> first | rfl | cases hc
  | false =>
    rw [Json.parseScalar_eq h hc hread hplain]
    cases j <;> first | rfl | cases hc

end VersatileEngine
