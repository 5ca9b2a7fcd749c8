import VersatileEngine.Service.LineEditor

/-!
# VersatileEngine.Service.Width

The display width of a text, `terminal_utf8.h`: one or two columns a character.

* `decodeChar`, `charDisplayWidth` — the code point at a place, and its columns.
* `displayWidth`, `displayWidthIn` — the columns of a text, and of a part of it.
* `charDisplayWidth_le`  — no character is wider than its bytes, and only ASCII is as wide.
* `displayWidthIn_drop`  — the part behind a place is as wide as the text that stands there.
* `displayWidth_iff`     — **a text is as wide as it is long where it is ASCII**.
-/

namespace VersatileEngine

namespace LineEditor

/-! ## Code points -/

/-- A byte of `str` in an expression of `decodeChar`, under a mask. -/
def bits (str : Str) (pos : Nat) (mask : UInt8) : Nat := (str.getD pos 0 &&& mask).toNat

/-- The code point at `pos`; 0 where there is none. -/
def decodeChar (str : Str) (pos : Nat) : Nat :=
  let len := charByteLen str pos
  if len = 0 ∨ str.length < pos + len then 0
  else if len = 1 then bits str pos 0xFF
  else if len = 2 then bits str pos 0x1F <<< 6 ||| bits str (pos + 1) 0x3F
  else if len = 3 then bits str pos 0x0F <<< 12 ||| bits str (pos + 1) 0x3F <<< 6 ||| bits str (pos + 2) 0x3F
  else bits str pos 0x07 <<< 18 ||| bits str (pos + 1) 0x3F <<< 12 ||| bits str (pos + 2) 0x3F <<< 6 |||
    bits str (pos + 3) 0x3F

/-- The code points that are drawn in two columns. -/
def isWide (cp : Nat) : Bool :=
  (0x4E00 ≤ cp && cp ≤ 0x9FFF) || (0x3000 ≤ cp && cp ≤ 0x303F) || (0x3040 ≤ cp && cp ≤ 0x309F) ||
    (0x30A0 ≤ cp && cp ≤ 0x30FF) || (0xAC00 ≤ cp && cp ≤ 0xD7AF) || (0xFF00 ≤ cp && cp ≤ 0xFFEF)

def charDisplayWidth (str : Str) (pos : Nat) : Nat :=
  let cp := decodeChar str pos
  if cp = 0 then 0 else if isWide cp then 2 else 1

/-- The loop of `displayWidth(str)`, with as many turns as there are bytes. -/
def widthLoop (str : Str) : Nat → Nat → Nat
  | 0, _ => 0
  | k + 1, pos =>
    if pos < str.length then
      let len := charByteLen str pos
      if len = 0 then 0 else charDisplayWidth str pos + widthLoop str k (pos + len)
    else 0

def displayWidth (str : Str) : Nat := widthLoop str str.length 0

/-- The loop of `displayWidth(str, from, to)`. -/
def widthLoopIn (str : Str) (till : Nat) : Nat → Nat → Nat
  | 0, _ => 0
  | k + 1, pos =>
    if pos < till then
      let len := charByteLen str pos
      if len = 0 ∨ till < pos + len then 0 else charDisplayWidth str pos + widthLoopIn str till k (pos + len)
    else 0

def displayWidthIn (str : Str) (start till : Nat) : Nat :=
  if till ≤ start ∨ str.length ≤ start then 0
  else widthLoopIn str (min till str.length) str.length start

/-! ## One character -/

section Characters

variable {l ch r : Str}

theorem bits_middle {i : Nat} (hi : i < ch.length) (mask : UInt8) :
    bits (l ++ (ch ++ r)) (l.length + i) mask = bits ch i mask := by
  rw [bits, bits, List.getD_eq_getElem?_getD, List.getD_eq_getElem?_getD, List.getElem?_append_right (by omega),
    Nat.add_sub_cancel_left, List.getElem?_append_left hi]

theorem byteLen_le (b : UInt8) : byteLen b ≤ 4 := by
  rw [byteLen]
  split_ifs <;> omega

theorem char_length (h : Utf8.IsChar ch) : 1 ≤ ch.length ∧ ch.length ≤ 4 := by
  obtain ⟨b, t, rfl, hbyte, -⟩ := char_bytes h
  exact ⟨Nat.succ_le_succ (Nat.zero_le _), hbyte ▸ byteLen_le b⟩

theorem charByteLen_self (h : Utf8.IsChar ch) : charByteLen ch 0 = ch.length := by
  simpa using (@charByteLen_char [] ch [] h).1

/-- What stands around a character does not change its code point. -/
theorem decodeChar_middle (h : Utf8.IsChar ch) : decodeChar (l ++ (ch ++ r)) l.length = decodeChar ch 0 := by
  obtain ⟨hlow, hhigh⟩ := char_length h
  have hin : ∀ {i mask}, i < ch.length → bits (l ++ (ch ++ r)) (l.length + i) mask = bits ch (0 + i) mask := by
    intro i mask hi
    rw [bits_middle hi, Nat.zero_add]
  have hfirst : ∀ mask, bits (l ++ (ch ++ r)) l.length mask = bits ch 0 mask :=
    fun mask => @hin 0 mask (by omega)
  have hroom : ¬ (ch.length = 0 ∨ (l ++ (ch ++ r)).length < l.length + ch.length) := by
    simp only [List.length_append]
    omega
  have hroom' : ¬ (ch.length = 0 ∨ ch.length < 0 + ch.length) := by omega
  rw [decodeChar, decodeChar, (charByteLen_char h).1, charByteLen_self h]
  simp only [if_neg hroom, if_neg hroom', hfirst]
  split_ifs with h1 h2 h3
  · rfl
  · rw [hin (by omega)]
  · rw [hin (by omega), hin (by omega)]
  · rw [hin (by omega), hin (by omega), hin (by omega)]

theorem charDisplayWidth_middle (h : Utf8.IsChar ch) :
    charDisplayWidth (l ++ (ch ++ r)) l.length = charDisplayWidth ch 0 := by
  rw [charDisplayWidth, charDisplayWidth, decodeChar_middle h]

theorem narrow_of_lt {cp : Nat} (h : cp < 0x3000) : isWide cp = false := by
  simp only [isWide, Bool.or_eq_false_iff, Bool.and_eq_false_iff, decide_eq_false_iff_not]
  omega

theorem charDisplayWidth_le_two (str : Str) (pos : Nat) : charDisplayWidth str pos ≤ 2 := by
  rw [charDisplayWidth]
  split_ifs <;> omega

/-- The code point of two bytes is too small to be wide. -/
theorem two_bytes (h : ch.length = 2) (hlen : charByteLen ch 0 = 2) : charDisplayWidth ch 0 ≤ 1 := by
  have hsmall : decodeChar ch 0 < 2 ^ 11 := by
    rw [decodeChar, hlen, if_neg (by omega), if_neg (by omega), if_pos rfl]
    refine Nat.or_lt_two_pow ?_ ?_
    · have hbits : bits ch 0 0x1F < 2 ^ 5 := by
        have hle : bits ch 0 0x1F ≤ 0x1F := by
          rw [bits, UInt8.toNat_and]
          exact Nat.and_le_right
        omega
      rw [Nat.shiftLeft_eq]
      omega
    · have hle : bits ch (0 + 1) 0x3F ≤ 0x3F := by
        rw [bits, UInt8.toNat_and]
        exact Nat.and_le_right
      omega
  have hnarrow : isWide (decodeChar ch 0) = false := narrow_of_lt (by omega)
  rw [charDisplayWidth, hnarrow]
  simp only [Bool.false_eq_true, if_false]
  split_ifs <;> omega

theorem le_iff_lt {b : UInt8} : b ≤ 0x7F ↔ b < 0x80 := by
  rw [UInt8.le_iff_toNat_le, UInt8.lt_iff_toNat_lt]
  exact Nat.lt_succ_iff.symm

theorem one_byte {b : UInt8} (hb : b < 0x80) : charDisplayWidth [b] 0 = if b = 0 then 0 else 1 := by
  have hlead : Utf8.lead b = some [] := Utf8.lead_ascii (le_iff_lt.2 hb)
  have hself : charByteLen [b] 0 = 1 := (lead_spec hlead).1
  have hpoint : decodeChar [b] 0 = b.toNat := by
    rw [decodeChar, hself, if_neg (by simp), if_pos rfl]
    show (b &&& 0xFF).toNat = b.toNat
    rw [UInt8.toNat_and]
    exact Nat.and_two_pow_sub_one_of_lt_two_pow (n := 8) b.toNat_lt
  have hnarrow : isWide b.toNat = false := narrow_of_lt (by have := b.toNat_lt; omega)
  have hzero : b.toNat = 0 ↔ b = 0 := ⟨fun h => UInt8.toNat_inj.1 h, fun h => by rw [h]; rfl⟩
  rw [charDisplayWidth, hpoint, hnarrow]
  simp only [hzero, Bool.false_eq_true, if_false]

/-- The first byte tells whether more of them follow. -/
theorem char_ascii (h : Utf8.IsChar ch) : (∃ b, ch = [b] ∧ b < 0x80) ∨ 2 ≤ ch.length ∧ ∃ b ∈ ch, ¬ b < 0x80 := by
  obtain ⟨b, t, owed, rfl, hlead, hfits⟩ := h
  by_cases hb : b ≤ 0x7F
  · rw [Utf8.lead_ascii hb] at hlead
    obtain rfl := Option.some.inj hlead
    cases hfits
    exact .inl ⟨b, rfl, le_iff_lt.1 hb⟩
  · refine .inr ⟨?_, b, List.mem_cons_self, fun hlt => hb (le_iff_lt.2 hlt)⟩
    obtain ⟨c, t, rfl⟩ : ∃ c t', t = c :: t' := by
      refine List.exists_cons_of_ne_nil ?_
      rintro rfl
      cases hfits
      rw [Utf8.lead, if_neg hb] at hlead
      split_ifs at hlead <;> simp at hlead
    simp

/-- **No character is wider than it is long**, and only ASCII without NUL is as wide. -/
theorem charDisplayWidth_le (h : Utf8.IsChar ch) : charDisplayWidth ch 0 ≤ ch.length ∧
    (charDisplayWidth ch 0 = ch.length ↔ ∀ b ∈ ch, 0 < b ∧ b < 0x80) := by
  rcases char_ascii h with ⟨b, rfl, hb⟩ | ⟨hlen, c, hc, hhigh⟩
  · have hpos : 0 < b ↔ ¬ b = 0 := by
      rw [UInt8.lt_iff_toNat_lt, ← UInt8.toNat_inj]
      exact Nat.pos_iff_ne_zero
    rw [one_byte hb]
    split_ifs with hzero
    · simp [hzero]
    · simp [hb, hpos, hzero]
  · have hlt : charDisplayWidth ch 0 < ch.length := by
      by_cases htwo : ch.length = 2
      · have hle := two_bytes htwo (by rw [charByteLen_self h, htwo])
        omega
      · have hle := charDisplayWidth_le_two ch 0
        omega
    exact ⟨hlt.le, fun he => absurd he hlt.ne, fun hall => absurd (hall c hc).2 hhigh⟩

end Characters

/-! ## Texts -/

section Texts

variable {l ch r : Str}

theorem widthLoop_char (h : Utf8.IsChar ch) (k : Nat) : widthLoop (l ++ (ch ++ r)) (k + 1) l.length =
    charDisplayWidth ch 0 + widthLoop (l ++ (ch ++ r)) k (l ++ ch).length := by
  have hpos := (char_length h).1
  rw [widthLoop, if_pos (by simp only [List.length_append]; omega), (charByteLen_char h).1, if_neg (by omega),
    charDisplayWidth_middle h, List.length_append]

theorem widthLoopIn_char (h : Utf8.IsChar ch) (k : Nat) :
    widthLoopIn (l ++ (ch ++ r)) (l ++ (ch ++ r)).length (k + 1) l.length =
      charDisplayWidth ch 0 + widthLoopIn (l ++ (ch ++ r)) (l ++ (ch ++ r)).length k (l ++ ch).length := by
  have hpos := (char_length h).1
  have hsum : (l ++ ch).length = l.length + ch.length := List.length_append
  rw [widthLoopIn, if_pos (by simp only [List.length_append]; omega), (charByteLen_char h).1,
    if_neg (by simp only [List.length_append]; omega), charDisplayWidth_middle h, hsum]

/-- The columns of a text: both loops come to them, whatever stands before it, if they have enough turns. -/
theorem exists_width (h : Utf8.Valid r) : ∃ w, w ≤ r.length ∧ (w = r.length ↔ ∀ b ∈ r, 0 < b ∧ b < 0x80) ∧
    ∀ l k, r.length ≤ k → widthLoop (l ++ r) k l.length = w ∧ widthLoopIn (l ++ r) (l ++ r).length k l.length = w := by
  induction h using Utf8.valid_induction with
  | nil =>
    refine ⟨0, Nat.le_refl _, by simp, fun l k _ => ?_⟩
    rw [List.append_nil]
    cases k with
    | zero => exact ⟨rfl, rfl⟩
    | succ k =>
      rw [widthLoop, widthLoopIn, if_neg (Nat.lt_irrefl _), if_neg (Nat.lt_irrefl _)]
      exact ⟨rfl, rfl⟩
  | char ch s hch _ ih =>
    obtain ⟨w, hle, hiff, hloops⟩ := ih
    obtain ⟨hle', hiff'⟩ := charDisplayWidth_le hch
    refine ⟨charDisplayWidth ch 0 + w, by rw [List.length_append]; omega, ?_, fun l k hk => ?_⟩
    · rw [List.forall_mem_append, ← hiff, ← hiff', List.length_append]
      omega
    · have hpos := (char_length hch).1
      rw [List.length_append] at hk
      obtain ⟨k, rfl⟩ : ∃ m, k = m + 1 := ⟨k - 1, by omega⟩
      obtain ⟨h1, h2⟩ := hloops (l ++ ch) k (by omega)
      rw [List.append_assoc] at h1 h2
      rw [widthLoop_char hch, widthLoopIn_char hch, h1, h2]
      exact ⟨rfl, rfl⟩

theorem displayWidth_eq {w : Nat} (h : widthLoop ([] ++ r) r.length ([] : Str).length = w) : displayWidth r = w := h

/-- The part of a line behind a place is as wide as the text that stands there. -/
theorem displayWidthIn_drop (h : Utf8.Valid r) : displayWidthIn (l ++ r) l.length (l ++ r).length = displayWidth r := by
  obtain ⟨w, -, -, hloops⟩ := exists_width h
  rw [displayWidth_eq (hloops [] r.length (Nat.le_refl _)).1, displayWidthIn]
  split_ifs with hout
  · have hempty : r = [] := by
      rw [List.length_append] at hout
      exact List.length_eq_zero_iff.1 (by omega)
    rw [← (hloops [] r.length (Nat.le_refl _)).1, hempty]
    rfl
  · rw [Nat.min_self]
    exact (hloops l _ (by simp)).2

/-- **A text is as wide as it is long where it is ASCII** without NUL, and only there. -/
theorem displayWidth_iff (h : Utf8.Valid r) : displayWidth r = r.length ↔ ∀ b ∈ r, 0 < b ∧ b < 0x80 := by
  obtain ⟨w, -, hiff, hloops⟩ := exists_width h
  rw [displayWidth_eq (hloops [] r.length (Nat.le_refl _)).1]
  exact hiff

end Texts

end LineEditor

end VersatileEngine
