import Mathlib.Data.List.TakeWhile
import VersatileEngine.Lib.Utf8

/-!
# VersatileEngine.Lib.Json

JSON documents (RFC 8259) as byte strings, and their values.

* `Json`        — a document. The fields of an object are kept as they stand, repeated keys too; a
  number is an integer, or the literal of one with a fraction or an exponent.
* `Json.read`   — the document of a text; `none` for a text that is not well formed or not UTF-8.
* `Json.Reads`  — a text is read as a value wherever it stands, with the rules that put texts
  together: `Reads.arr`, `Reads.obj`, `reads_str`, `reads_int`.
-/

namespace VersatileEngine

inductive Json where
  | null
  | bool (b : Bool)
  | int (i : Int)
  | real (literal : Str)
  | str (s : Str)
  | arr (elems : List Json)
  | obj (fields : List (Str × Json))

namespace Json

/-! ## Reading -/

def isWs (c : UInt8) : Bool := c = 32 || c = 9 || c = 10 || c = 13

def skipWs (s : Str) : Str := s.dropWhile isWs

/-- A hexadecimal digit. -/
def hexVal (c : UInt8) : Option Nat :=
  if 48 ≤ c ∧ c ≤ 57 then some (c.toNat - 48)
  else if 65 ≤ c ∧ c ≤ 70 then some (c.toNat - 55)
  else if 97 ≤ c ∧ c ≤ 102 then some (c.toNat - 87)
  else none

def hex4 : Str → Option (Nat × Str)
  | a :: b :: c :: d :: s =>
    match hexVal a, hexVal b, hexVal c, hexVal d with
    | some a, some b, some c, some d => some (((a * 16 + b) * 16 + c) * 16 + d, s)
    | _, _, _, _ => none
  | _ => none

/-- What `\u` stands for. A character beyond the basic plane is a pair of surrogates. -/
def unicodeEscape (s : Str) : Option (Str × Str) :=
  match hex4 s with
  | some (u, 92 :: 117 :: s') =>
    if 0xD800 ≤ u ∧ u < 0xDC00 then
      match hex4 s' with
      | some (l, s') =>
        if 0xDC00 ≤ l ∧ l < 0xE000 then
          some (Utf8.encode (0x10000 + (u - 0xD800) * 1024 + (l - 0xDC00)), s')
        else none
      | none => none
    else if 0xDC00 ≤ u ∧ u < 0xE000 then none
    else some (Utf8.encode u, 92 :: 117 :: s')
  | some (u, s') => if 0xD800 ≤ u ∧ u < 0xE000 then none else some (Utf8.encode u, s')
  | none => none

/-- What a backslash and the next bytes stand for. -/
def escaped : Str → Option (Str × Str)
  | [] => none
  | c :: s =>
    if c = 34 ∨ c = 92 ∨ c = 47 then some ([c], s)
    else if c = 98 then some ([8], s)
    else if c = 102 then some ([12], s)
    else if c = 110 then some ([10], s)
    else if c = 114 then some ([13], s)
    else if c = 116 then some ([9], s)
    else if c = 117 then unicodeEscape s
    else none

/-- The rest of a string, up to its quote. -/
def readBody : Nat → Str → Option (Str × Str)
  | 0, _ => none
  | _ + 1, [] => none
  | n + 1, c :: s =>
    if c = 34 then some ([], s)
    else if c = 92 then
      (escaped s).bind fun q => (readBody n q.2).map fun p => (q.1 ++ p.1, p.2)
    else if c < 32 then none
    else (readBody n s).map fun p => (c :: p.1, p.2)

/-- A string behind its opening quote. -/
def readString (s : Str) : Option (Str × Str) := readBody s.length s

def isNumChar (c : UInt8) : Bool := isDigit c || c = 45 || c = 43 || c = 46 || c = 101 || c = 69

def isExponent : Str → Bool
  | [] => true
  | c :: s =>
    (c = 101 || c = 69) &&
      (match s with
        | 43 :: s => s ≠ [] && s.all isDigit
        | 45 :: s => s ≠ [] && s.all isDigit
        | s => s ≠ [] && s.all isDigit)

/-- A fraction or an exponent, or both. -/
def isFraction : Str → Bool
  | 46 :: s => s.takeWhile isDigit ≠ [] && isExponent (s.dropWhile isDigit)
  | s => isExponent s

/-- The number of a literal. -/
def numberOf (literal : Str) : Option Json :=
  let digits := if literal.head? = some 45 then literal.tail else literal
  let whole := digits.takeWhile isDigit
  let rest := digits.dropWhile isDigit
  if whole = [] ∨ (whole.head? = some 48 ∧ 1 < whole.length) then none
  else if rest = [] then
    some (.int (if literal.head? = some 45 then -(digitsVal 0 whole : Int) else digitsVal 0 whole))
  else if isFraction rest then some (.real literal)
  else none

/-- A literal name or a number. -/
def readScalar (s : Str) : Option (Json × Str) :=
  match s with
  | 110 :: 117 :: 108 :: 108 :: s => some (.null, s)
  | 116 :: 114 :: 117 :: 101 :: s => some (.bool true, s)
  | 102 :: 97 :: 108 :: 115 :: 101 :: s => some (.bool false, s)
  | s => (numberOf (s.takeWhile isNumChar)).map fun j => (j, s.dropWhile isNumChar)

mutual
def readValue : Nat → Str → Option (Json × Str)
  | 0, _ => none
  | n + 1, s =>
    match skipWs s with
    | 91 :: s => (readElements n true s).map fun p => (.arr p.1, p.2)
    | 123 :: s => (readMembers n true s).map fun p => (.obj p.1, p.2)
    | 34 :: s => (readString s).map fun p => (.str p.1, p.2)
    | s => readScalar s

/-- The elements behind an opening bracket (`first`) or a comma, with the closing bracket. -/
def readElements : Nat → Bool → Str → Option (List Json × Str)
  | 0, _, _ => none
  | n + 1, first, s =>
    if first ∧ (skipWs s).head? = some 93 then some ([], (skipWs s).tail)
    else
      (readValue n s).bind fun p =>
        match skipWs p.2 with
        | 44 :: s => (readElements n false s).map fun q => (p.1 :: q.1, q.2)
        | 93 :: s => some ([p.1], s)
        | _ => none

def readMembers : Nat → Bool → Str → Option (List (Str × Json) × Str)
  | 0, _, _ => none
  | n + 1, first, s =>
    match skipWs s with
    | 125 :: s => if first then some ([], s) else none
    | 34 :: s =>
      (readString s).bind fun k =>
        match skipWs k.2 with
        | 58 :: s =>
          (readValue n s).bind fun p =>
            match skipWs p.2 with
            | 44 :: s => (readMembers n false s).map fun q => ((k.1, p.1) :: q.1, q.2)
            | 125 :: s => some ([(k.1, p.1)], s)
            | _ => none
        | _ => none
    | _ => none
end

/-- The document of a text, which is UTF-8. -/
def read (text : Str) : Option Json :=
  if Utf8.Valid text then
    (readValue (2 * text.length) text).bind fun p => if skipWs p.2 = [] then some p.1 else none
  else none

/-! ## Texts that are read wherever they stand -/

/-- White space. -/
def Ws (w : Str) : Prop := ∀ c ∈ w, isWs c = true

/-- What follows does not go on with a number. -/
def Ends (rest : Str) : Prop := ∀ c ∈ rest.head?, isNumChar c = false

/-- The text is read as the value, whatever follows. -/
def Reads (j : Json) (s : Str) : Prop := ∀ n rest, 2 * s.length ≤ n → Ends rest →
  readValue n (s ++ rest) = some (j, rest)

def ReadsElements (first : Bool) (js : List Json) (s : Str) : Prop := ∀ n rest,
  2 * s.length + 1 ≤ n → readElements n first (s ++ rest) = some (js, rest)

def ReadsMembers (first : Bool) (fs : List (Str × Json)) (s : Str) : Prop := ∀ n rest,
  2 * s.length + 1 ≤ n → readMembers n first (s ++ rest) = some (fs, rest)

/-- The text between two quotes is read as the string. -/
def ReadsString (str body : Str) : Prop := ∀ n rest, body.length < n →
  readBody n (body ++ 34 :: rest) = some (str, rest)

theorem skipWs_append {w : Str} (hw : Ws w) (s : Str) : skipWs (w ++ s) = skipWs s := by
  induction w with
  | nil => rfl
  | cons c w ih =>
    rw [Ws, List.forall_mem_cons] at hw
    rw [List.cons_append, skipWs, List.dropWhile_cons_of_pos hw.1]
    exact ih hw.2

theorem skipWs_cons {c : UInt8} (h : isWs c = false) (s : Str) : skipWs (c :: s) = c :: s :=
  List.dropWhile_cons_of_neg (by simp [h])

theorem skipWs_ws {w : Str} (hw : Ws w) {c : UInt8} (h : isWs c = false) (s : Str) :
    skipWs (w ++ c :: s) = c :: s := by
  rw [skipWs_append hw, skipWs_cons h]

theorem not_numChar_of_ws {c : UInt8} (h : isWs c = true) : isNumChar c = false := by
  simp only [isWs, Bool.or_eq_true, decide_eq_true_eq] at h
  rcases h with ((rfl | rfl) | rfl) | rfl <;> rfl

theorem ends_ws {w : Str} (hw : Ws w) {c : UInt8} (h : isNumChar c = false) (s : Str) :
    Ends (w ++ c :: s) := by
  intro d hd
  cases w with
  | nil =>
    obtain rfl : c = d := by simpa using hd
    exact h
  | cons e w =>
    obtain rfl : e = d := by simpa using hd
    exact not_numChar_of_ws (hw e (by simp))

theorem ends_nil : Ends [] := fun c hc => (by cases hc)

theorem ws_nil : Ws [] := fun c hc => (by cases hc)

theorem ws_replicate (n : Nat) : Ws (List.replicate n 32) := fun c hc => by
  rw [List.eq_of_mem_replicate hc]
  rfl

theorem Ws.append {w w' : Str} (h : Ws w) (h' : Ws w') : Ws (w ++ w') := fun c hc =>
  (List.mem_append.mp hc).elim (h c) (h' c)

theorem readValue_ws {w : Str} (hw : Ws w) (n : Nat) (s : Str) :
    readValue n (w ++ s) = readValue n s := by
  cases n with
  | zero => rw [readValue, readValue]
  | succ n => rw [readValue, readValue, skipWs_append hw]

theorem Reads.ws {j : Json} {w s : Str} (h : Reads j s) (hw : Ws w) : Reads j (w ++ s) := by
  intro n rest hn he
  rw [List.length_append] at hn
  rw [List.append_assoc, readValue_ws hw]
  exact h n rest (by omega) he

/-- No value begins with a closing bracket. -/
theorem Reads.not_close {j : Json} {s : Str} (h : Reads j s) {rest : Str} (he : Ends rest) :
    (skipWs (s ++ rest)).head? ≠ some 93 := by
  intro hc
  have h' := h (2 * s.length + 1) rest (by omega) he
  obtain ⟨t, ht⟩ : ∃ t, skipWs (s ++ rest) = 93 :: t := List.head?_eq_some_iff.mp hc
  rw [readValue, ht] at h'
  cases h'

theorem ReadsElements.single {first : Bool} {j : Json} {s w : Str} (h : Reads j s) (hw : Ws w) :
    ReadsElements first [j] (s ++ (w ++ [93])) := by
  intro n rest hn
  obtain ⟨n, rfl⟩ : ∃ m, n = m + 1 := ⟨n - 1, by omega⟩
  have he : Ends (w ++ 93 :: rest) := ends_ws hw rfl rest
  have hshape : s ++ (w ++ [93]) ++ rest = s ++ (w ++ 93 :: rest) := by simp
  simp only [List.length_append, List.length_singleton] at hn
  rw [hshape, readElements, if_neg fun hc => h.not_close he hc.2, h n _ (by omega) he,
    Option.bind_some, skipWs_ws hw rfl]
  rfl

theorem ReadsElements.cons {first : Bool} {j : Json} {js : List Json} {s w t : Str}
    (h : Reads j s) (hw : Ws w) (ht : ReadsElements false js t) :
    ReadsElements first (j :: js) (s ++ (w ++ 44 :: t)) := by
  intro n rest hn
  obtain ⟨n, rfl⟩ : ∃ m, n = m + 1 := ⟨n - 1, by omega⟩
  have he : Ends (w ++ 44 :: (t ++ rest)) := ends_ws hw rfl _
  have hshape : s ++ (w ++ 44 :: t) ++ rest = s ++ (w ++ 44 :: (t ++ rest)) := by simp
  simp only [List.length_append, List.length_cons] at hn
  rw [hshape, readElements, if_neg fun hc => h.not_close he hc.2, h n _ (by omega) he,
    Option.bind_some, skipWs_ws hw rfl]
  simp only
  rw [ht n rest (by omega)]
  rfl

theorem Reads.arr {js : List Json} {t : Str} (h : ReadsElements true js t) :
    Reads (.arr js) (91 :: t) := by
  intro n rest hn _
  obtain ⟨n, rfl⟩ : ∃ m, n = m + 1 := ⟨n - 1, by simp at hn; omega⟩
  simp only [List.length_cons] at hn
  rw [List.cons_append, readValue, skipWs_cons rfl]
  simp only
  rw [h n rest (by omega)]
  rfl

theorem reads_arr_nil {w : Str} (hw : Ws w) : Reads (.arr []) (91 :: (w ++ [93])) := by
  refine .arr fun n rest hn => ?_
  obtain ⟨n, rfl⟩ : ∃ m, n = m + 1 := ⟨n - 1, by omega⟩
  have hshape : w ++ [93] ++ rest = w ++ 93 :: rest := by simp
  rw [hshape, readElements, skipWs_ws hw rfl, if_pos ⟨rfl, rfl⟩]
  rfl

theorem readString_body {str body : Str} (h : ReadsString str body) (rest : Str) :
    readString (body ++ 34 :: rest) = some (str, rest) :=
  h _ rest (by rw [List.length_append, List.length_cons]; omega)

theorem ReadsMembers.single {first : Bool} {key body : Str} {j : Json} {w s w' : Str} (hw : Ws w)
    (hk : ReadsString key body) (h : Reads j s) (hw' : Ws w') :
    ReadsMembers first [(key, j)] (w ++ 34 :: (body ++ 34 :: 58 :: (s ++ (w' ++ [125])))) := by
  intro n rest hn
  obtain ⟨n, rfl⟩ : ∃ m, n = m + 1 := ⟨n - 1, by omega⟩
  have he : Ends (w' ++ 125 :: rest) := ends_ws hw' rfl rest
  have hshape : w ++ 34 :: (body ++ 34 :: 58 :: (s ++ (w' ++ [125]))) ++ rest =
      w ++ 34 :: (body ++ 34 :: 58 :: (s ++ (w' ++ 125 :: rest))) := by simp
  simp only [List.length_append, List.length_cons, List.length_nil] at hn
  rw [hshape, readMembers, skipWs_ws hw rfl]
  simp only
  rw [readString_body hk, Option.bind_some, skipWs_cons rfl]
  simp only
  rw [h n _ (by omega) he, Option.bind_some, skipWs_ws hw' rfl]
  rfl

theorem ReadsMembers.cons {first : Bool} {key body : Str} {j : Json} {fs : List (Str × Json)}
    {w s w' t : Str} (hw : Ws w) (hk : ReadsString key body) (h : Reads j s) (hw' : Ws w')
    (ht : ReadsMembers false fs t) : ReadsMembers first ((key, j) :: fs)
      (w ++ 34 :: (body ++ 34 :: 58 :: (s ++ (w' ++ 44 :: t)))) := by
  intro n rest hn
  obtain ⟨n, rfl⟩ : ∃ m, n = m + 1 := ⟨n - 1, by omega⟩
  have he : Ends (w' ++ 44 :: (t ++ rest)) := ends_ws hw' rfl _
  have hshape : w ++ 34 :: (body ++ 34 :: 58 :: (s ++ (w' ++ 44 :: t))) ++ rest =
      w ++ 34 :: (body ++ 34 :: 58 :: (s ++ (w' ++ 44 :: (t ++ rest)))) := by simp
  simp only [List.length_append, List.length_cons] at hn
  rw [hshape, readMembers, skipWs_ws hw rfl]
  simp only
  rw [readString_body hk, Option.bind_some, skipWs_cons rfl]
  simp only
  rw [h n _ (by omega) he, Option.bind_some, skipWs_ws hw' rfl]
  simp only
  rw [ht n rest (by omega)]
  rfl

theorem Reads.obj {fs : List (Str × Json)} {t : Str} (h : ReadsMembers true fs t) :
    Reads (.obj fs) (123 :: t) := by
  intro n rest hn _
  obtain ⟨n, rfl⟩ : ∃ m, n = m + 1 := ⟨n - 1, by simp at hn; omega⟩
  simp only [List.length_cons] at hn
  rw [List.cons_append, readValue, skipWs_cons rfl]
  simp only
  rw [h n rest (by omega)]
  rfl

theorem reads_obj_nil {w : Str} (hw : Ws w) : Reads (.obj []) (123 :: (w ++ [125])) := by
  refine .obj fun n rest hn => ?_
  obtain ⟨n, rfl⟩ : ∃ m, n = m + 1 := ⟨n - 1, by omega⟩
  have hshape : w ++ [125] ++ rest = w ++ 125 :: rest := by simp
  rw [hshape, readMembers, skipWs_ws hw rfl]
  rfl

theorem reads_str {str body : Str} (h : ReadsString str body) :
    Reads (.str str) (34 :: (body ++ [34])) := by
  intro n rest hn _
  obtain ⟨n, rfl⟩ : ∃ m, n = m + 1 := ⟨n - 1, by simp at hn; omega⟩
  have hshape : 34 :: (body ++ [34]) ++ rest = 34 :: (body ++ 34 :: rest) := by simp
  rw [hshape, readValue, skipWs_cons rfl]
  simp only
  rw [readString_body h]
  rfl

/-- A text is a document when it is read to its end. -/
theorem read_of_reads {j : Json} {s w : Str} (h : Reads j s) (hw : Ws w)
    (hv : Utf8.Valid (s ++ w)) : read (s ++ w) = some j := by
  have he : Ends w := by
    intro c hc
    exact not_numChar_of_ws (hw c (List.mem_of_mem_head? hc))
  have hskip : skipWs w = [] := by
    have := skipWs_append hw []
    rwa [List.append_nil] at this
  rw [read, if_pos hv, h _ w (by rw [List.length_append]; omega) he, Option.bind_some,
    if_pos hskip]

/-! ## Scalars -/

theorem readValue_scalar {c : UInt8} {s : Str} {n : Nat} (hw : isWs c = false)
    (h : c ≠ 91 ∧ c ≠ 123 ∧ c ≠ 34) : readValue (n + 1) (c :: s) = readScalar (c :: s) := by
  rw [readValue, skipWs_cons hw]
  split
  · rename_i heq
    exact absurd (List.cons.inj heq).1 h.1
  · rename_i heq
    exact absurd (List.cons.inj heq).1 h.2.1
  · rename_i heq
    exact absurd (List.cons.inj heq).1 h.2.2
  · rfl

theorem reads_null : Reads .null (ascii "null") := by
  intro n rest hn _
  obtain ⟨n, rfl⟩ : ∃ m, n = m + 1 := ⟨n - 1, by simp [ascii] at hn; omega⟩
  exact readValue_scalar rfl (by decide)

theorem reads_true : Reads (.bool true) (ascii "true") := by
  intro n rest hn _
  obtain ⟨n, rfl⟩ : ∃ m, n = m + 1 := ⟨n - 1, by simp [ascii] at hn; omega⟩
  exact readValue_scalar rfl (by decide)

theorem reads_false : Reads (.bool false) (ascii "false") := by
  intro n rest hn _
  obtain ⟨n, rfl⟩ : ∃ m, n = m + 1 := ⟨n - 1, by simp [ascii] at hn; omega⟩
  exact readValue_scalar rfl (by decide)

/-- The literal of a number is read as the number. -/
theorem reads_number {j : Json} {c : UInt8} {s : Str} (hall : ∀ b ∈ c :: s, isNumChar b = true)
    (hc : isDigit c = true ∨ c = 45) (h : numberOf (c :: s) = some j) : Reads j (c :: s) := by
  intro n rest hn he
  obtain ⟨n, rfl⟩ : ∃ m, n = m + 1 := ⟨n - 1, by simp at hn; omega⟩
  have hfirst : isWs c = false ∧ (c ≠ 91 ∧ c ≠ 123 ∧ c ≠ 34) ∧ c ≠ 110 ∧ c ≠ 116 ∧ c ≠ 102 := by
    rcases hc with hc | rfl
    · simp only [isDigit, Bool.and_eq_true, decide_eq_true_eq, UInt8.le_iff_toNat_le] at hc
      simp only [isWs, Bool.or_eq_false_iff, decide_eq_false_iff_not, ← UInt8.toNat_inj, ne_eq,
        UInt8.toNat_ofNat] at hc ⊢
      omega
    · decide
  have hrest : rest.takeWhile isNumChar = [] ∧ rest.dropWhile isNumChar = rest := by
    cases rest with
    | nil => exact ⟨rfl, rfl⟩
    | cons d rest =>
      have hd : ¬ isNumChar d = true := by simp [he d rfl]
      exact ⟨List.takeWhile_cons_of_neg hd, List.dropWhile_cons_of_neg hd⟩
  have htake : (c :: s ++ rest).takeWhile isNumChar = c :: s := by
    rw [List.takeWhile_append_of_pos hall, hrest.1, List.append_nil]
  have hdrop : (c :: s ++ rest).dropWhile isNumChar = rest := by
    rw [List.dropWhile_append_of_pos hall, hrest.2]
  rw [List.cons_append, readValue_scalar hfirst.1 hfirst.2.1, readScalar.eq_def]
  split
  · rename_i heq
    exact absurd (List.cons.inj heq).1 hfirst.2.2.1
  · rename_i heq
    exact absurd (List.cons.inj heq).1 hfirst.2.2.2.1
  · rename_i heq
    exact absurd (List.cons.inj heq).1 hfirst.2.2.2.2
  · rw [← List.cons_append, htake, hdrop, h]
    rfl

theorem isNumChar_digit {c : UInt8} (h : isDigit c = true) : isNumChar c = true := by
  simp [isNumChar, h]

/-- A literal of digits, with or without a sign. -/
theorem numberOf_natChars (n : Nat) :
    numberOf (natChars n) = some (.int n) ∧ numberOf (45 :: natChars n) = some (.int (-n)) := by
  have hd := fun c hc => @isDigit_natChars n c hc
  have hhead : ¬ (natChars n).head? = some 45 := fun h => by
    have := hd 45 (List.mem_of_mem_head? h)
    cases this
  have hwhole : (natChars n).takeWhile isDigit = natChars n :=
    List.takeWhile_eq_self_iff.mpr hd
  have hrest : (natChars n).dropWhile isDigit = [] := List.dropWhile_eq_nil_iff.mpr hd
  have hok : ¬ (natChars n = [] ∨ (natChars n).head? = some 48 ∧ 1 < (natChars n).length) := by
    rintro (h | ⟨h, hlen⟩)
    · exact natChars_ne_nil n h
    · rw [natChars_head n h] at hlen
      exact Nat.lt_irrefl 1 hlen
  constructor
  · simp only [numberOf, if_neg hhead, hwhole, hrest, if_neg hok, if_true, digitsVal_natChars]
  · simp only [numberOf, List.head?_cons, if_true, List.tail_cons, hwhole, hrest, if_neg hok,
      digitsVal_natChars]

theorem reads_natChars (n : Nat) : Reads (.int n) (natChars n) := by
  obtain ⟨c, s, hs⟩ := List.exists_cons_of_ne_nil (natChars_ne_nil n)
  have hd : ∀ c ∈ natChars n, isDigit c = true := fun c hc => isDigit_natChars hc
  have hnum := (numberOf_natChars n).1
  rw [hs] at hd hnum ⊢
  exact reads_number (fun b hb => isNumChar_digit (hd b hb)) (.inl (hd c (by simp))) hnum

theorem reads_neg (n : Nat) : Reads (.int (-n)) (45 :: natChars n) :=
  reads_number (List.forall_mem_cons.mpr ⟨rfl, fun _ hc => isNumChar_digit (isDigit_natChars hc)⟩)
    (.inr rfl) (numberOf_natChars n).2

theorem reads_int (i : Int) : Reads (.int i) (intChars i) := by
  cases i with
  | ofNat n => exact reads_natChars n
  | negSucc n => exact reads_neg (n + 1)

/-! ## Strings -/

theorem readsString_nil : ReadsString [] [] := by
  intro n rest hn
  obtain ⟨n, rfl⟩ : ∃ m, n = m + 1 := ⟨n - 1, by omega⟩
  rfl

theorem ReadsString.byte {c : UInt8} {str body : Str} (h : ReadsString str body)
    (hc : ¬ c = 34 ∧ ¬ c = 92 ∧ ¬ c < 32) : ReadsString (c :: str) (c :: body) := by
  intro n rest hn
  obtain ⟨n, rfl⟩ : ∃ m, n = m + 1 := ⟨n - 1, by omega⟩
  rw [List.cons_append, readBody, if_neg hc.1, if_neg hc.2.1, if_neg hc.2.2,
    h n rest (by simp at hn; omega)]
  rfl

/-- A backslash with what it escapes. -/
theorem ReadsString.escape {x e str body : Str} (h : ReadsString str body)
    (hx : ∀ t, escaped (e ++ t) = some (x, t)) : ReadsString (x ++ str) (92 :: (e ++ body)) := by
  intro n rest hn
  obtain ⟨n, rfl⟩ : ∃ m, n = m + 1 := ⟨n - 1, by omega⟩
  simp only [List.length_cons, List.length_append] at hn
  rw [List.cons_append, readBody, if_neg (by decide), if_pos rfl, List.append_assoc, hx,
    Option.bind_some, h n rest (by omega)]
  rfl

end Json

end VersatileEngine
