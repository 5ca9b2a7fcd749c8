import Mathlib.Data.List.TakeWhile
import VersatileEngine.Command.Accounting

/-!
# VersatileEngine.Command.Values

What the value of a token is.

* `Whole`, `Dotted` — the texts of integers, and those of an optional sign and digits with one dot among them.
* `Readable`            — the tokens that no conversion throws on: an integer fits, and a text with a dot has a
  digit and is one that `std::stod` takes.
* `parseValue_readable` — **a readable token has a value, of the type that its text says**.
* `parseArgs_readable`  — **a list of readable tokens is accepted**, under declared parameters whose names are names.
-/

namespace VersatileEngine.Command

/-! ## The texts of numbers -/

def AllDigits (s : Str) : Prop := ∀ c ∈ s, isDigit c = true

/-- An optional sign and digits, with their number. -/
def Whole (raw : Str) (i : Int) : Prop :=
  unsigned raw ≠ [] ∧ AllDigits (unsigned raw) ∧
    i = if raw.head? = some 45 then -(digitsVal 0 (unsigned raw) : Int) else digitsVal 0 (unsigned raw)

/-- An optional sign and digits, with one dot. -/
def Dotted (raw : Str) : Prop :=
  ∃ whole fraction, unsigned raw = whole ++ 46 :: fraction ∧ AllDigits whole ∧ AllDigits fraction

/-- A dotted text that has a digit. -/
def IsDecimal (raw : Str) : Prop := Dotted raw ∧ ∃ c ∈ raw, isDigit c = true

/-- Of an integer, that it fits; of a text with a dot, that it has a digit and `std::stod` takes it. -/
structure Readable (stod : Str → Option Binary64) (raw : Str) : Prop where
  fits : ∀ i, Whole raw i → -2 ^ 63 ≤ i ∧ i < 2 ^ 63
  taken : Dotted raw → (∃ c ∈ raw, isDigit c = true) ∧ stod raw ≠ none

theorem isInt_iff {raw : Str} : isInt raw = true ↔ ∃ i, Whole raw i := by
  simp only [isInt, Whole, AllDigits, Bool.and_eq_true, decide_eq_true_eq, List.all_eq_true]
  constructor
  · rintro ⟨hne, hall⟩
    exact ⟨_, hne, hall, rfl⟩
  · rintro ⟨_, hne, hall, -⟩
    exact ⟨hne, hall⟩

theorem doubleLoop_true {s : Str} : doubleLoop true s = true ↔ AllDigits s := by
  induction s with
  | nil => simp [doubleLoop, AllDigits]
  | cons c s ih =>
    rw [doubleLoop]
    have hdot : c = 46 → isDigit c = false := by rintro rfl; rfl
    by_cases hc : c = 46
    · simp [hc, AllDigits, isDigit]
    · cases hd : isDigit c
      · simp [hc, hd, AllDigits]
      · simp only [hc, if_false, hd, Bool.not_true, Bool.false_eq_true, ih, AllDigits, List.forall_mem_cons,
          true_and]

theorem doubleLoop_false {s : Str} : doubleLoop false s = true ↔
    ∃ whole fraction, s = whole ++ 46 :: fraction ∧ AllDigits whole ∧ AllDigits fraction := by
  induction s with
  | nil =>
    constructor
    · exact fun h => (by cases h)
    · rintro ⟨whole, fraction, h, -⟩
      cases whole <;> cases h
  | cons c s ih =>
    rw [doubleLoop]
    by_cases hc : c = 46
    · subst hc
      rw [if_pos rfl, if_neg (by decide), doubleLoop_true]
      constructor
      · exact fun h => ⟨[], s, rfl, by simp [AllDigits], h⟩
      · rintro ⟨whole, fraction, h, hw, hf⟩
        cases whole with
        | nil => cases h; exact hf
        | cons d whole =>
          cases h
          exact absurd (hw 46 (List.mem_cons_self ..)) (by decide)
    · rw [if_neg hc]
      cases hd : isDigit c with
      | false =>
        rw [if_pos (by rfl)]
        constructor
        · exact fun h => (by cases h)
        · rintro ⟨whole, fraction, h, hw, hf⟩
          cases whole with
          | nil => cases h; exact absurd rfl hc
          | cons d whole =>
            cases h
            exact absurd (hw c (List.mem_cons_self ..)) (by simp [hd])
      | true =>
        rw [if_neg (by decide), ih]
        constructor
        · rintro ⟨whole, fraction, rfl, hw, hf⟩
          refine ⟨c :: whole, fraction, rfl, ?_, hf⟩
          exact List.forall_mem_cons.2 ⟨hd, hw⟩
        · rintro ⟨whole, fraction, h, hw, hf⟩
          cases whole with
          | nil => cases h; exact absurd rfl hc
          | cons d whole =>
            cases h
            exact ⟨whole, fraction, rfl, (List.forall_mem_cons.1 hw).2, hf⟩

theorem isDouble_iff {raw : Str} : isDouble raw = true ↔ Dotted raw := by
  rw [isDouble, Bool.and_eq_true, decide_eq_true_eq, doubleLoop_false, Dotted]
  constructor
  · exact fun h => h.2
  · intro h
    refine ⟨?_, h⟩
    obtain ⟨whole, fraction, h, -⟩ := h
    simp [h]

theorem Whole.unique {raw : Str} {i j : Int} (hi : Whole raw i) (hj : Whole raw j) : i = j :=
  hi.2.2.trans hj.2.2.symm

theorem dropSpace_digit {c : UInt8} {s : Str} (h : isDigit c = true) :
    ((c :: s).dropWhile fun c => c = 32 || (9 ≤ c && c ≤ 13)) = c :: s := by
  have hspace : ¬ (c = 32 || (9 ≤ c && c ≤ 13)) = true := by
    simp only [isDigit, Bool.and_eq_true, decide_eq_true_eq, UInt8.le_iff_toNat_le] at h
    simp only [Bool.or_eq_true, Bool.and_eq_true, decide_eq_true_eq, UInt8.le_iff_toNat_le, ← UInt8.toNat_inj]
    have h48 : (48 : UInt8).toNat = 48 := rfl
    have h32 : (32 : UInt8).toNat = 32 := rfl
    have h13 : (13 : UInt8).toNat = 13 := rfl
    omega
  exact List.dropWhile_cons_of_neg hspace

/-- `strtol` reads an integer as what it says. -/
theorem strtol_whole {raw : Str} {i : Int} (h : Whole raw i) : strtol raw = some i := by
  obtain ⟨hne, hall, hi⟩ := h
  obtain _ | ⟨c, s⟩ := raw
  · exact absurd rfl hne
  have hsigned : ∀ {sign : Bool} {digits : Str}, digits ≠ [] → AllDigits digits →
      (if digits.takeWhile isDigit = [] then none
        else some (if sign = true then -(digitsVal 0 (digits.takeWhile isDigit) : Int)
          else digitsVal 0 (digits.takeWhile isDigit))) =
      some (if sign = true then -(digitsVal 0 digits : Int) else digitsVal 0 digits) := by
    intro sign digits hne hall
    rw [List.takeWhile_eq_self_iff.2 hall, if_neg hne]
  by_cases hminus : c = 45
  · subst hminus
    rw [hi]
    exact @hsigned true s hne hall
  by_cases hplus : c = 43
  · subst hplus
    rw [hi]
    exact @hsigned false s hne hall
  · have hsame : unsigned (c :: s) = c :: s := by simp [unsigned, isSign, hminus, hplus]
    rw [hsame] at hne hall hi
    have hdigit : isDigit c = true := hall c (List.mem_cons_self ..)
    rw [hi, strtol, dropSpace_digit hdigit]
    have hhead : (c :: s).head? ≠ some 45 := by simpa using hminus
    rw [if_neg hhead]
    split
    rename_i sign rest hsplit
    have hrest : (sign, rest) = (false, c :: s) := by
      rw [← hsplit]
      split
      · rename_i heq; cases heq; exact absurd rfl hminus
      · rename_i heq; cases heq; exact absurd rfl hplus
      · rfl
    cases hrest
    exact hsigned hne hall

theorem digit_head {c : UInt8} (h : isDigit c = true) : c ≠ 45 ∧ c ≠ 34 ∧ c ≠ 110 ∧ c ≠ 116 ∧ c ≠ 102 := by
  refine ⟨?_, ?_, ?_, ?_, ?_⟩ <;>
  · rintro rfl
    exact absurd h (by decide)

theorem whole_intChars (i : Int) : Whole (intChars i) i := by
  have hall : ∀ n, AllDigits (natChars n) := fun _ _ hc => isDigit_natChars hc
  cases i with
  | ofNat n =>
    obtain ⟨c, rest, hcs⟩ := List.exists_cons_of_ne_nil (natChars_ne_nil n)
    have hdigit : isDigit c = true := isDigit_natChars (hcs ▸ List.mem_cons_self ..)
    have hplus : c ≠ 43 := by
      rintro rfl
      exact absurd hdigit (by decide)
    have hminus := (digit_head hdigit).1
    have hsame : unsigned (natChars n) = natChars n := by simp [hcs, unsigned, isSign, hplus, hminus]
    refine ⟨by simpa [intChars, hsame] using natChars_ne_nil n, by simpa [intChars, hsame] using hall n, ?_⟩
    have hhead : (intChars (.ofNat n)).head? ≠ some 45 := by simpa [intChars, hcs] using hminus
    rw [if_neg hhead]
    simp [intChars, hsame, digitsVal_natChars]
  | negSucc n =>
    refine ⟨natChars_ne_nil (n + 1), hall (n + 1), ?_⟩
    have hread : (digitsVal 0 (unsigned (intChars (.negSucc n))) : Int) = (n + 1 : Nat) :=
      congrArg Nat.cast (digitsVal_natChars (n + 1))
    rw [if_pos (show (intChars (.negSucc n)).head? = some 45 from rfl), hread]
    rfl

theorem stoll_intChars (i : Int64) : stoll (intChars i.toInt) = some i.toInt := by
  have hrange : -2 ^ 63 ≤ i.toInt ∧ i.toInt < 2 ^ 63 := ⟨i.le_toInt, i.toInt_lt⟩
  rw [stoll, strtol_whole (whole_intChars i.toInt), Option.filter_some, if_pos (by simpa using hrange)]

theorem Whole.not_dotted {raw : Str} {i : Int} (h : Whole raw i) : ¬ Dotted raw := by
  rintro ⟨whole, fraction, heq, -⟩
  exact absurd (h.2.1 46 (by simp [heq])) (by decide)

/-! ## Values -/

/-- The value has the type that the text says. -/
structure Typed (stod : Str → Option Binary64) (raw : Str) (v : Var) : Prop where
  int : ∀ i : Int64, v = .int i ↔ Whole raw i.toInt
  double : ∀ d, v = .double d ↔ IsDecimal raw ∧ stod raw = some d
  null : v = .none ↔ raw = ascii "null"
  other : (∃ i, v = .int i) ∨ (∃ d, v = .double d) ∨ v = .none ∨
    (v = .bool true ∧ raw = ascii "true" ∨ v = .bool false ∧ raw = ascii "false") ∨
    v = .string raw ∨ ∃ s, v = .string s ∧ raw = 34 :: s ++ [34]

section Values

variable {stod : Str → Option Binary64} {raw : Str}

/-- A value that is no number, of a text that is none. -/
theorem typed_other {v : Var} (hint : isInt raw = false) (hdouble : isDouble raw = false)
    (hno : (∀ i, v ≠ .int i) ∧ ∀ d, v ≠ .double d) (hnull : v = .none ↔ raw = ascii "null")
    (hother : v = .none ∨ (v = .bool true ∧ raw = ascii "true" ∨ v = .bool false ∧ raw = ascii "false") ∨
      v = .string raw ∨ ∃ s, v = .string s ∧ raw = 34 :: s ++ [34]) : Typed stod raw v where
  int i := by
    refine ⟨fun h => absurd h (hno.1 i), fun h => ?_⟩
    rw [isInt_iff.2 ⟨_, h⟩] at hint
    cases hint
  double d := by
    refine ⟨fun h => absurd h (hno.2 d), fun h => ?_⟩
    rw [isDouble_iff.2 h.1.1] at hdouble
    cases hdouble
  null := hnull
  other := .inr (.inr hother)

theorem quoted_not_number (h : raw.head? = some 34) : isInt raw = false ∧ isDouble raw = false := by
  obtain _ | ⟨c, s⟩ := raw
  · cases h
  cases h
  exact ⟨rfl, rfl⟩

theorem exists_quoted (hlen : 2 ≤ raw.length) (hhead : raw.head? = some 34) (hlast : raw.getLast? = some 34) :
    ∃ s, raw = 34 :: s ++ [34] := by
  obtain _ | ⟨c, s⟩ := raw
  · cases hhead
  cases hhead
  have hne : s ≠ [] := by
    rintro rfl
    simp at hlen
  refine ⟨s.dropLast, ?_⟩
  rw [List.getLast?_cons_of_ne_nil hne, List.getLast?_eq_some_getLast hne, Option.some.injEq] at hlast
  rw [List.cons_append, ← hlast, List.dropLast_append_getLast hne]

/-- **A readable token has a value**, of the type that its text says. -/
theorem parseValue_readable (h : Readable stod raw) : ∃ v, parseValue stod raw = some v ∧ Typed stod raw v := by
  rw [parseValue]
  split_ifs with hnull htrue hfalse hquoted hint hdouble
  · subst hnull
    exact ⟨_, rfl, typed_other rfl rfl (by simp) (by simp) (.inl rfl)⟩
  · subst htrue
    exact ⟨_, rfl, typed_other rfl rfl (by simp) (by simp; decide) (.inr (.inl (.inl ⟨rfl, rfl⟩)))⟩
  · subst hfalse
    exact ⟨_, rfl, typed_other rfl rfl (by simp) (by simp; decide) (.inr (.inl (.inr ⟨rfl, rfl⟩)))⟩
  · obtain ⟨hlen, hhead, hlast⟩ := hquoted
    obtain ⟨hnoint, hnodouble⟩ := quoted_not_number hhead
    refine ⟨_, rfl, typed_other hnoint hnodouble (by simp) (by simpa using hnull)
      (.inr (.inr (.inr ⟨_, rfl, ?_⟩)))⟩
    obtain ⟨s, rfl⟩ := exists_quoted hlen hhead hlast
    simp
  · obtain ⟨i, hi⟩ := isInt_iff.1 hint
    have hfits := h.fits i hi
    have hread : stoll raw = some i := by
      rw [stoll, strtol_whole hi, Option.filter_some, if_pos (by simpa using hfits)]
    have hback : (Int64.ofInt i).toInt = i := Int64.toInt_ofInt_of_le hfits.1 (by omega)
    refine ⟨_, by rw [hread]; rfl, ?_, ?_, ?_, .inl ⟨_, rfl⟩⟩
    · intro j
      rw [Var.int.injEq]
      constructor
      · rintro rfl
        rwa [hback]
      · intro hj
        rw [hi.unique hj, Int64.ofInt_toInt]
    · intro d
      refine ⟨fun he => (by cases he), fun hd => absurd hd.1.1 hi.not_dotted⟩
    · exact ⟨fun he => (by cases he), fun he => absurd he hnull⟩
  · have hdotted := isDouble_iff.1 hdouble
    obtain ⟨hdigit, htaken⟩ := h.taken hdotted
    obtain ⟨d, hd⟩ := Option.ne_none_iff_exists'.1 htaken
    refine ⟨_, by rw [hd]; rfl, ?_, ?_, ?_, .inr (.inl ⟨_, rfl⟩)⟩
    · intro i
      refine ⟨fun he => (by cases he), fun hi => absurd (isInt_iff.2 ⟨_, hi⟩) (by simpa using hint)⟩
    · intro e
      rw [Var.double.injEq]
      constructor
      · rintro rfl
        exact ⟨⟨hdotted, hdigit⟩, hd⟩
      · exact fun he => Option.some.inj (hd.symm.trans he.2)
    · exact ⟨fun he => (by cases he), fun he => absurd he hnull⟩
  · exact ⟨_, rfl, typed_other (by simpa using hint) (by simpa using hdouble) (by simp) (by simpa using hnull)
      (.inr (.inr (.inl rfl)))⟩

end Values

/-! ## Lists of tokens -/

section Tokens

variable {stod : Str → Option Binary64} {info : DeclInfo}

/-- Neither the token nor what it has behind a `=` is one that a conversion throws on. -/
def ReadableToken (stod : Str → Option Binary64) (token : Str) : Prop :=
  Readable stod token ∧ ∀ name value, splitEq token = some (name, value) → Readable stod value

/-- The names that the parser knows are names of nodes. -/
structure DeclInfo.Plain (info : DeclInfo) : Prop where
  paramOrder : ∀ nm ∈ info.paramOrder, isName nm = true
  shortMap : ∀ p ∈ info.shortMap, isName p.2 = true
  longNames : ∀ nm ∈ info.longNames, isName nm = true

theorem DeclInfo.Plain.add {platform : Platform} (h : info.Plain) {param : Tree}
    (hparam : param.name = [] ∨ isName param.name = true) : (info.add platform param).Plain := by
  simp only [DeclInfo.add]
  split_ifs with hskip
  · exact h
  · rw [not_or] at hskip
    have hname := hparam.resolve_left hskip.1
    have hlong : ∀ nm ∈ param.name :: info.longNames, isName nm = true :=
      List.forall_mem_cons.2 ⟨hname, h.longNames⟩
    split
    · split_ifs
      · refine ⟨h.paramOrder, fun p hp => ?_, hlong⟩
        rcases mem_assign hp with rfl | hp
        · exact hname
        · exact h.shortMap p hp
      · exact ⟨h.paramOrder, h.shortMap, hlong⟩
    · refine ⟨fun nm hm => ?_, h.shortMap, hlong⟩
      rcases List.mem_append.1 hm with hm | hm
      · exact h.paramOrder nm hm
      · rw [List.mem_singleton.1 hm]
        exact hname

theorem buildDeclInfo_plain (platform : Platform) {decl : Option Tree}
    (h : ∀ d, decl = some d → ∀ param ∈ d.kids, param.name = [] ∨ isName param.name = true) :
    (buildDeclInfo platform decl).Plain := by
  have hempty : DeclInfo.empty.Plain :=
    ⟨by simp [DeclInfo.empty], by simp [DeclInfo.empty], by simp [DeclInfo.empty]⟩
  cases decl with
  | none => exact hempty
  | some decl =>
    exact List.foldlRecOn decl.kids (DeclInfo.add platform) hempty
      fun info hinfo param hm => hinfo.add (h decl rfl param hm)

/-- A keyword is a declared name. -/
theorem DeclInfo.Plain.keyword (h : info.Plain) {token : Str} (hkey : isKeyword info token ≠ []) :
    isName (isKeyword info token) = true := by
  revert hkey
  simp only [isKeyword]
  split_ifs with h1 h2 h3 h4 h5
  · exact fun hne => absurd rfl hne
  · exact fun hne => absurd rfl hne
  · exact fun _ => h.longNames _ h4
  · exact fun hne => absurd rfl hne
  · cases hlook : info.shortMap.lookup (token.drop 1) with
    | none => exact fun hne => absurd rfl hne
    | some nm => exact fun _ => h.shortMap _ (mem_of_lookup hlook)
  · exact fun hne => absurd rfl hne

theorem inlineForm_value {token nm raw : Str} (h : inlineForm info token = some (nm, raw)) :
    splitEq token = some (nm, raw) := by
  rw [inlineForm] at h
  split_ifs at h
  split at h
  · rename_i heq
    split_ifs at h
    cases h
    exact heq
  · cases h

/-- An item can be read, and is for a parameter with a plain name if for one by name. -/
def Item.Fine (stod : Str → Option Binary64) (it : Item) : Prop :=
  it.value stod ≠ none ∧ ∀ nm, it.name? = some nm → isName nm = true

/-- The items of readable tokens are fine. -/
theorem items_fine (h : info.Plain) {tokens : List Str} (htokens : ∀ token ∈ tokens, ReadableToken stod token)
    {pending : Option Str} (hp : ∀ nm, pending = some nm → isName nm = true) :
    ∀ it ∈ items info pending tokens, it.Fine stod := by
  have hread : ∀ {raw : Str}, Readable stod raw → parseValue stod raw ≠ none := by
    intro raw hraw
    obtain ⟨v, hv, -⟩ := parseValue_readable hraw
    simp [hv]
  have hnamed : ∀ {nm : Str}, isName nm = true → ∀ x, some nm = some x → isName x = true := by
    rintro nm hname x ⟨⟩
    exact hname
  refine @items_forall info _ (isName · = true) ?_ tokens ?_ ?_ ?_ pending hp
  · exact fun nm hname => ⟨⟨by simp [Item.value], hnamed hname⟩, ⟨by simp [Item.value], hnamed hname⟩⟩
  · exact fun token ht nm raw hin => ⟨hread ((htokens token ht).2 _ _ (inlineForm_value hin)),
      hnamed (h.longNames _ (inlineForm_declared hin))⟩
  · exact fun token _ hkey => h.keyword hkey
  · exact fun token ht _ => ⟨⟨hread (htokens token ht).1, by simp [Item.name?]⟩,
      fun nm hname => ⟨hread (htokens token ht).1, hnamed hname⟩⟩

/-- **A list of readable tokens is accepted.** -/
theorem parseArgs_readable (platform : Platform) {decl : Option Tree} (ctx : Tree) {args : List Str}
    (hdecl : ∀ d, decl = some d → ∀ param ∈ d.kids, param.name = [] ∨ isName param.name = true)
    (htokens : ∀ token ∈ args, ReadableToken stod token) :
    ∃ ctx', parseArgs stod platform decl ctx args = some ctx' := by
  have hplain := buildDeclInfo_plain platform hdecl
  have hfine := @items_fine stod _ hplain args htokens none (by simp)
  have hrun : parseArgs stod platform decl ctx args =
      performAll (.node ctx.name ctx.value []) (writes stod (buildDeclInfo platform decl) 0
        (items (buildDeclInfo platform decl) none args)) :=
    @run_eq stod _ args (.node ctx.name ctx.value []) none 0 (by simp)
  rw [hrun]
  refine (performAll_plain (fun w hw => ?_) fun w hw nm ht => ?_).imp fun ctx' hctx => hctx.1
  · rcases mem_writes.1 hw with ⟨nm, raw, hm, rfl⟩ | ⟨j, raw, hj, rfl⟩
    · exact (hfine _ hm).1
    · exact (hfine _ (mem_frees.1 (List.mem_of_getElem? hj))).1
  · rcases mem_writes.1 hw with ⟨x, raw, hm, rfl⟩ | ⟨j, raw, hj, rfl⟩
    · exact (hfine _ hm).2 nm ht
    · exact hplain.paramOrder nm (List.mem_of_getElem? ht)

end Tokens

end VersatileEngine.Command
