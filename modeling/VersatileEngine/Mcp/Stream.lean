import Mathlib.Data.List.DropRight
import VersatileEngine.Core.Text
import VersatileEngine.Lib.Framing

/-!
# VersatileEngine.Mcp.Stream

The messages of `ve_mcp` on its two streams (`program/mcp/main.cpp`).

* `readHeaders`, `readMessage` — the header lines up to an empty one, then as many bytes as they
  announce. There is no result where the function returns false.
* `writeMessage` — a message as it is written.
* `frames_writeMessage` — what is written is read back, one message after the other.
-/

namespace VersatileEngine

namespace Mcp

/-- `std::getline`, and what is left of the stream. -/
def getline (input : Str) : Option (Str × Str) :=
  if input = [] then none
  else some (input.takeWhile fun c => c ≠ 10, (input.dropWhile fun c => c ≠ 10).drop 1)

def trimCrlf (s : Str) : Str := s.rdropWhile fun c => c = 13 || c = 10

/-- `std::stoul`, where it throws nothing. -/
def stoul (s : Str) : Option Nat :=
  (strtol s).bind fun i => if i.natAbs < 2 ^ 64 then some (i % 2 ^ 64).toNat else none

def lengthField : Str := ascii "Content-Length:"

/-- The loop over the header lines; a line takes at least a byte. The length is `none` as long as
`haveLength` is false. -/
def readHeaders : Nat → Option Nat → Str → Option (Option Nat × Str)
  | 0, contentLength, input => some (contentLength, input)
  | fuel + 1, contentLength, input =>
    match getline input with
    | none => some (contentLength, input)
    | some (line, rest) =>
      let line := trimCrlf line
      if line = [] then some (contentLength, rest)
      else if lengthField.isPrefixOf line then
        (stoul ((line.drop lengthField.length).dropWhile fun c => c = 32 || c = 9)).bind fun len =>
          readHeaders fuel (some len) rest
      else readHeaders fuel contentLength rest

/-- The message, and what is left of the stream. -/
def readMessage (input : Str) : Option (Str × Str) :=
  (readHeaders input.length none input).bind fun (contentLength, rest) => contentLength.bind fun len =>
    if len ≤ rest.length then some (rest.take len, rest.drop len) else none

def writeMessage (json : Str) : Str :=
  ascii "Content-Length: " ++ natChars json.length ++ [13, 10, 13, 10] ++ json

/-! ## Reading back -/

theorem getline_line {l : Str} (h : 10 ∉ l) (rest : Str) : getline (l ++ 10 :: rest) = some (l, rest) := by
  have hl : ∀ c ∈ l, (decide (c ≠ 10)) = true := fun c hc => decide_eq_true fun he => h (he ▸ hc)
  rw [getline, if_neg (by simp), List.takeWhile_append_of_pos hl, List.dropWhile_append_of_pos hl]
  simp

theorem trimCrlf_cr {l : Str} (h : l.getLast? ≠ some 13) (h' : l.getLast? ≠ some 10) :
    trimCrlf (l ++ [13]) = l := by
  rw [trimCrlf, List.rdropWhile_concat_pos _ _ _ (by decide), List.rdropWhile_eq_self_iff]
  intro hne hlast
  rw [Bool.or_eq_true, decide_eq_true_eq, decide_eq_true_eq] at hlast
  rw [List.getLast?_eq_some_getLast hne] at h h'
  exact hlast.elim (fun he => h (congrArg some he)) fun he => h' (congrArg some he)

theorem stoul_natChars {n : Nat} (h : n < 2 ^ 64) : stoul (natChars n) = some n := by
  have hdigit : ∀ c ∈ natChars n, isDigit c = true := fun c hc => isDigit_natChars hc
  obtain ⟨c, cs, hcs⟩ := List.exists_cons_of_ne_nil (natChars_ne_nil n)
  have hc : isDigit c = true := hdigit c (by rw [hcs]; exact List.mem_cons_self)
  have hstr : strtol (natChars n) = some (n : Int) := by
    have hall : (natChars n).takeWhile isDigit = natChars n := List.takeWhile_eq_self_iff.mpr hdigit
    have hval := digitsVal_natChars n
    rw [isDigit, Bool.and_eq_true, decide_eq_true_eq, decide_eq_true_eq] at hc
    have hhead : ∀ k < 48, c ≠ k := fun k hk he => absurd hc.1 (by rw [he]; exact UInt8.not_le.mpr hk)
    have hspace : (c = 32 || (9 ≤ c && c ≤ 13)) = false := by
      have h13 : ¬c ≤ 13 := UInt8.not_le.mpr (UInt8.lt_of_lt_of_le (by decide) hc.1)
      simp [hhead 32 (by decide), h13]
    rw [hcs] at hall hval ⊢
    simp only [strtol, List.dropWhile_cons, hspace, Bool.false_eq_true, if_false]
    split
    · rename_i h45
      exact absurd (List.cons.inj h45).1 (hhead 45 (by decide))
    · rename_i h43
      exact absurd (List.cons.inj h43).1 (hhead 43 (by decide))
    · simp [hall, hval]
  rw [stoul, hstr, Option.bind_some, if_pos (by simpa using h)]
  simp only [Option.some.injEq]
  omega

/-- **A message is read back**, whatever follows it. -/
theorem readMessage_writeMessage {json : Str} (h : json.length < 2 ^ 64) (rest : Str) :
    readMessage (writeMessage json ++ rest) = some (json, rest) := by
  have hdigit : ∀ c ∈ natChars json.length, isDigit c = true := fun c hc => isDigit_natChars hc
  have hctl : ∀ k : UInt8, k < 48 → k ∉ natChars json.length := fun k hk hm => by
    have hd := hdigit k hm
    rw [isDigit, Bool.and_eq_true, decide_eq_true_eq] at hd
    exact absurd hd.1 (UInt8.not_le.mpr hk)
  have hlast : ∀ k : UInt8, k < 48 → (ascii "Content-Length: " ++ natChars json.length).getLast? ≠ some k :=
    fun k hk he => by
      rw [List.getLast?_append_of_ne_nil _ (natChars_ne_nil _)] at he
      exact hctl k hk (List.mem_of_getLast? he)
  have hline : getline (writeMessage json ++ rest) =
      some (ascii "Content-Length: " ++ natChars json.length ++ [13], 13 :: 10 :: (json ++ rest)) := by
    have hsplit : writeMessage json ++ rest =
        (ascii "Content-Length: " ++ natChars json.length ++ [13]) ++ 10 :: 13 :: 10 :: (json ++ rest) := by
      simp [writeMessage]
    rw [hsplit, getline_line]
    simp only [List.mem_append, not_or]
    exact ⟨⟨by decide, hctl 10 (by decide)⟩, by decide⟩
  obtain ⟨fuel, hfuel⟩ : ∃ fuel, (writeMessage json ++ rest).length = fuel + 1 + 1 :=
    ⟨(writeMessage json ++ rest).length - 2, by simp [writeMessage]; omega⟩
  have hprefix : lengthField.isPrefixOf (ascii "Content-Length: " ++ natChars json.length) = true :=
    List.isPrefixOf_iff_prefix.mpr ⟨32 :: natChars json.length, rfl⟩
  have hdrop : ((ascii "Content-Length: " ++ natChars json.length).drop lengthField.length).dropWhile
      (fun c => c = 32 || c = 9) = natChars json.length := by
    have : (ascii "Content-Length: " ++ natChars json.length).drop lengthField.length =
        32 :: natChars json.length := rfl
    rw [this, List.dropWhile_cons_of_pos (by decide), List.dropWhile_eq_self_iff]
    intro hne
    have hm := List.get_mem (natChars json.length) ⟨0, hne⟩
    simp only [Bool.or_eq_true, decide_eq_true_eq, not_or]
    exact ⟨fun he => hctl 32 (by decide) (he ▸ hm), fun he => hctl 9 (by decide) (he ▸ hm)⟩
  have hblank : getline (13 :: 10 :: (json ++ rest)) = some ([13], json ++ rest) :=
    getline_line (l := [13]) (by decide) _
  rw [readMessage, hfuel, readHeaders, hline]
  simp only [trimCrlf_cr (hlast 13 (by decide)) (hlast 10 (by decide)), hprefix, hdrop, stoul_natChars h,
    if_true, Option.bind_some]
  rw [if_neg (by simp [ascii]), readHeaders, hblank]
  simp [trimCrlf]

/-- **Everything that is written is read back, in order.** -/
theorem frames_writeMessage {bodies : List Str} (h : ∀ b ∈ bodies, b.length < 2 ^ 64) :
    popAll readMessage bodies.length (bodies.flatMap writeMessage) = (bodies, []) := by
  induction bodies with
  | nil => rfl
  | cons b bodies ih =>
    rw [List.flatMap_cons, List.length_cons,
      popAll_some (readMessage_writeMessage (h b List.mem_cons_self) _), ih fun x hx => h x (List.mem_cons_of_mem _ hx)]

end Mcp

end VersatileEngine
