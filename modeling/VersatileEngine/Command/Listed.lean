import Mathlib.Algebra.Order.BigOperators.Group.List
import VersatileEngine.Command.Named

/-!
# VersatileEngine.Command.Listed

A list of arguments and a dictionary of the same.

* `Survives`    — a value that a list delivers unchanged: a boolean, an integer, a double whose text is read back,
  a text that is no keyword and reads as itself.
* `reads_back`  — **the text of a value is a value token that reads back exactly when the value survives.**
* `Origin`      — where the values in a context come from.
* `list_agrees` — **a list and a dictionary leave the same parameter values exactly when all of them survive.**
-/

namespace VersatileEngine

/-- What `%g` prints: a sign, then digits first, or the name of what is no number. -/
def Platform.PrintsDoubles (platform : Platform) : Prop :=
  ∀ d, ∃ sign body, platform.doubleText d = sign ++ body ∧ (sign = [] ∨ sign = [45]) ∧
    ((∃ c rest, body = c :: rest ∧ isDigit c = true) ∨ body = ascii "inf" ∨ body = ascii "nan")

namespace Command

/-- Scalars, lists and dictionaries; not pointers, callables and custom payloads. -/
def IsData : Var → Bool
  | .pointer _ => false
  | .callable _ => false
  | .custom _ _ => false
  | _ => true

def Quoted (s : Str) : Prop := 2 ≤ s.length ∧ s.head? = some 34 ∧ s.getLast? = some 34

/-- A text that reads as itself. -/
structure Literal (s : Str) : Prop where
  keyword : s ≠ ascii "null" ∧ s ≠ ascii "true" ∧ s ≠ ascii "false"
  quoted : ¬ Quoted s
  int : isInt s = false
  double : isDouble s = false

/-- A list delivers the value unchanged. -/
def Survives (stod : Str → Option Binary64) (platform : Platform) (info : DeclInfo) : Var → Prop
  | .bool _ => True
  | .int _ => True
  | .double d => isDouble (platform.doubleText d) = true ∧ stod (platform.doubleText d) = some d
  | .string s => form info s = .value ∧ Literal s
  | _ => False

/-! ## Texts as tokens -/

section Tokens

variable {stod : Str → Option Binary64} {platform : Platform} {info : DeclInfo} {raw s : Str}

theorem form_value_head (h : raw.head? ≠ some 45) : form info raw = .value := by
  have hinline : inlineForm info raw = none := by simp [inlineForm, h]
  have hkey : isKeyword info raw = [] := by simp [isKeyword, h]
  rw [form_other hinline, hkey]
  rfl

/-- A dash, and then no dash and more than one character, or a number. -/
theorem form_value_dash {c : UInt8} {rest : Str} (hc : c ≠ 45)
    (h : isInt (45 :: c :: rest) = true ∨ rest ≠ []) : form info (45 :: c :: rest) = .value := by
  have hinline : inlineForm info (45 :: c :: rest) = none := by simp [inlineForm, hc]
  have hkey : isKeyword info (45 :: c :: rest) = [] := by
    rcases h with h | h <;> simp [isKeyword, h, hc]
  rw [form_other hinline, hkey]
  rfl

theorem inlineForm_length {token nm : Str} (h : inlineForm info token = some (nm, raw)) :
    raw.length < token.length := by
  have hsplit := inlineForm_value h
  simp only [splitEq] at hsplit
  split_ifs at hsplit with hmem
  cases hsplit
  have hpos : 0 < (token.drop 2).length := List.length_pos_of_mem hmem
  have hle : ((token.drop 2).dropWhile fun c => c ≠ 61).length ≤ (token.drop 2).length :=
    (List.dropWhile_sublist _).length_le
  simp only [List.length_drop] at *
  omega

theorem form_intChars (i : Int) : form info (intChars i) = .value ∧ (intChars i).head? ≠ some 34 := by
  have hint := isInt_iff.2 ⟨i, whole_intChars i⟩
  cases i with
  | ofNat n =>
    obtain ⟨c, rest, hcs⟩ := List.exists_cons_of_ne_nil (natChars_ne_nil n)
    have hdigit := digit_head (isDigit_natChars (n := n) (hcs ▸ List.mem_cons_self ..))
    have hhead : (intChars (.ofNat n)).head? = some c := by simp [intChars, hcs]
    exact ⟨form_value_head (by rw [hhead]; simpa using hdigit.1), by rw [hhead]; simpa using hdigit.2.1⟩
  | negSucc n =>
    obtain ⟨c, rest, hcs⟩ := List.exists_cons_of_ne_nil (natChars_ne_nil (n + 1))
    have hdigit := digit_head (isDigit_natChars (n := n + 1) (hcs ▸ List.mem_cons_self ..))
    have htext : intChars (.negSucc n) = 45 :: c :: rest := by simp [intChars, hcs]
    rw [htext] at hint ⊢
    exact ⟨form_value_dash hdigit.1 (.inl hint), by simp⟩

/-- The text of a double is a value token, and no word. -/
theorem form_doubleText (h : platform.PrintsDoubles) (d : Binary64) :
    form info (platform.doubleText d) = .value ∧ (platform.doubleText d).head? ≠ some 34 ∧
      platform.doubleText d ≠ ascii "null" ∧ platform.doubleText d ≠ ascii "true" ∧
      platform.doubleText d ≠ ascii "false" := by
  obtain ⟨sign, body, htext, hsign, hbody⟩ := h d
  rw [htext]
  rcases hbody with ⟨c, rest, rfl, hc⟩ | rfl | rfl
  · have hhead := digit_head hc
    rcases hsign with rfl | rfl
    · refine ⟨form_value_head (by simpa using hhead.1), by simpa using hhead.2.1, ?_, ?_, ?_⟩
      · exact fun he => hhead.2.2.1 (List.cons.inj he).1
      · exact fun he => hhead.2.2.2.1 (List.cons.inj he).1
      · exact fun he => hhead.2.2.2.2 (List.cons.inj he).1
    · refine ⟨?_, by simp, ?_, ?_, ?_⟩
      · by_cases hrest : rest = []
        · subst hrest
          exact form_value_dash hhead.1 (.inl (by simp [isInt, unsigned, isSign, hc]))
        · exact form_value_dash hhead.1 (.inr hrest)
      all_goals exact fun he => absurd (List.cons.inj he).1 (by decide)
  · rcases hsign with rfl | rfl
    · exact ⟨form_value_head (by decide), by decide, by decide, by decide, by decide⟩
    · exact ⟨form_value_dash (by decide) (.inr (by decide)), by decide, by decide, by decide, by decide⟩
  · rcases hsign with rfl | rfl
    · exact ⟨form_value_head (by decide), by decide, by decide, by decide, by decide⟩
    · exact ⟨form_value_dash (by decide) (.inr (by decide)), by decide, by decide, by decide, by decide⟩

theorem hexText_head (bytes : List UInt8) : (hexText bytes).head? ≠ some 45 ∧ (hexText bytes).head? ≠ some 34 := by
  cases bytes with
  | nil => exact ⟨by simp [hexText], by simp [hexText]⟩
  | cons b bytes =>
    have hb : b.toNat / 16 < 16 := by have := b.toNat_lt; omega
    have hhead : (hexText (b :: bytes)).head? = some (hexDigit (b.toNat / 16)) := rfl
    have hdigits : ∀ n < 16, some (hexDigit n) ≠ some 45 ∧ some (hexDigit n) ≠ some 34 := by decide
    rw [hhead]
    exact hdigits _ hb

/-- The text of a value that is none itself is a value token and not quoted. -/
theorem text_plain (h : platform.PrintsDoubles) {v : Var} (hv : IsData v = true) (hs : ∀ s, v ≠ .string s) :
    form info (v.toString platform) = .value ∧ (v.toString platform).head? ≠ some 34 := by
  cases v with
  | none => exact ⟨form_value_head (by simp [Var.toString]), by simp [Var.toString]⟩
  | bool b =>
    cases b <;> exact ⟨form_value_head (by simp [Var.toString, ascii]), by simp [Var.toString, ascii]⟩
  | int i => exact form_intChars _
  | double d =>
    obtain ⟨hform, hhead, -⟩ := @form_doubleText platform info h d
    exact ⟨hform, hhead⟩
  | string s => exact absurd rfl (hs s)
  | bin bytes => exact ⟨form_value_head (hexText_head bytes).1, (hexText_head bytes).2⟩
  | list l => exact ⟨form_value_head (by simp [Var.toString, ascii]), by simp [Var.toString, ascii]⟩
  | dict d => exact ⟨form_value_head (by simp [Var.toString, ascii]), by simp [Var.toString, ascii]⟩
  | pointer p => cases hv
  | callable t => cases hv
  | custom t s => cases hv

/-! ## Reading back -/

theorem parseValue_string (h : parseValue stod raw = some (.string s)) :
    raw = s ∧ Literal s ∨ raw = 34 :: s ++ [34] ∧ Quoted raw := by
  rw [parseValue] at h
  split_ifs at h with hnull htrue hfalse hquoted hint hdouble
  · cases h
  · cases h
  · cases h
  · obtain ⟨t, rfl⟩ := exists_quoted hquoted.1 hquoted.2.1 hquoted.2.2
    refine .inr ⟨?_, hquoted⟩
    cases h
    simp
  · obtain ⟨i, -, hi⟩ := Option.map_eq_some_iff.mp h
    cases hi
  · obtain ⟨d, -, hd⟩ := Option.map_eq_some_iff.mp h
    cases hd
  · cases h
    exact .inl ⟨rfl, ⟨hnull, htrue, hfalse⟩, hquoted, by simpa using hint, by simpa using hdouble⟩

/-- What is no word and not quoted is a number or a text. -/
theorem parseValue_other (hword : raw ≠ ascii "null" ∧ raw ≠ ascii "true" ∧ raw ≠ ascii "false")
    (hquoted : ¬ Quoted raw) : parseValue stod raw =
      if isInt raw then (stoll raw).map fun i => .int (Int64.ofInt i)
      else if isDouble raw then (stod raw).map .double
      else some (.string raw) := by
  rw [parseValue, if_neg hword.1, if_neg hword.2.1, if_neg hword.2.2]
  exact if_neg hquoted

theorem parseValue_literal (h : Literal s) : parseValue stod s = some (.string s) := by
  rw [parseValue_other h.keyword h.quoted, h.int, h.double]
  rfl

theorem parseValue_intChars (i : Int64) : parseValue stod (intChars i.toInt) = some (.int i) := by
  have hwhole := whole_intChars i.toInt
  have hint : isInt (intChars i.toInt) = true := isInt_iff.2 ⟨_, hwhole⟩
  have hword : ∀ {word : Str}, isInt word = false → intChars i.toInt ≠ word := by
    rintro word hw rfl
    rw [hint] at hw
    cases hw
  have hquoted : ¬ Quoted (intChars i.toInt) := fun hq => hword (quoted_not_number hq.2.1).1 rfl
  rw [parseValue_other ⟨hword (by decide), hword (by decide), hword (by decide)⟩ hquoted, if_pos hint,
    stoll_intChars, Option.map_some, Int64.ofInt_toInt]

/-- No text reads as bytes, a list or a dictionary, and the empty one not as no value. -/
theorem parseValue_scalar {v : Var} (h : parseValue stod raw = some v) :
    (∀ bytes, v ≠ .bin bytes) ∧ (∀ l, v ≠ .list l) ∧ (∀ d, v ≠ .dict d) ∧ (v = .none → raw ≠ []) := by
  rw [parseValue] at h
  split_ifs at h with hnull htrue hfalse hquoted hint hdouble
  · subst hnull
    cases h
    simp [ascii]
  · cases h
    simp
  · cases h
    simp
  · cases h
    simp
  · obtain ⟨i, -, rfl⟩ := Option.map_eq_some_iff.mp h
    simp
  · obtain ⟨d, -, rfl⟩ := Option.map_eq_some_iff.mp h
    simp
  · cases h
    simp

/-- **A value survives exactly when its text is a value token that reads back.** -/
theorem reads_back (h : platform.PrintsDoubles) {v : Var} (hv : IsData v = true) :
    form info (v.toString platform) = .value ∧ parseValue stod (v.toString platform) = some v ↔
      Survives stod platform info v := by
  cases v with
  | none => exact iff_of_false (fun hr => (parseValue_scalar hr.2).2.2.2 rfl rfl) id
  | bool b =>
    refine iff_of_true ⟨(text_plain h hv (by simp)).1, ?_⟩ trivial
    cases b <;> rfl
  | int i => exact iff_of_true ⟨(form_intChars _).1, parseValue_intChars i⟩ trivial
  | double d =>
    obtain ⟨hform, hhead, hnull, htrue, hfalse⟩ := @form_doubleText platform info h d
    have hread := @parseValue_other stod _ ⟨hnull, htrue, hfalse⟩ fun hq => hhead hq.2.1
    simp only [Var.toString, hform, true_and, hread, Survives]
    constructor
    · intro hr
      split_ifs at hr with hint hdouble
      · obtain ⟨i, -, hi⟩ := Option.map_eq_some_iff.mp hr
        cases hi
      · obtain ⟨e, he, hed⟩ := Option.map_eq_some_iff.mp hr
        cases hed
        exact ⟨hdouble, he⟩
      · cases hr
    · rintro ⟨hdouble, hstod⟩
      have hint : ¬ isInt (platform.doubleText d) = true := by
        intro hi
        obtain ⟨i, hi⟩ := isInt_iff.1 hi
        exact hi.not_dotted (isDouble_iff.1 hdouble)
      rw [if_neg hint, if_pos hdouble, hstod]
      rfl
  | string s =>
    refine and_congr_right fun _ => ⟨fun hr => ?_, parseValue_literal⟩
    rcases parseValue_string hr with ⟨-, hs⟩ | ⟨he, -⟩
    · exact hs
    · have hlen := congrArg List.length he
      simp only [Var.toString, List.length_append, List.length_cons, List.length_nil] at hlen
      omega
  | bin bytes => exact iff_of_false (fun hr => (parseValue_scalar hr.2).1 bytes rfl) id
  | list l => exact iff_of_false (fun hr => (parseValue_scalar hr.2).2.1 l rfl) id
  | dict d => exact iff_of_false (fun hr => (parseValue_scalar hr.2).2.2.1 d rfl) id
  | pointer p => cases hv
  | callable t => cases hv
  | custom t s => cases hv

end Tokens

/-! ## Where values come from -/

section Origins

variable {stod : Str → Option Binary64} {platform : Platform} {info : DeclInfo} {tokens : List Str}

/-- A keyword alone, a value token, or what follows a `=`. -/
def Origin (stod : Str → Option Binary64) (info : DeclInfo) (tokens : List Str) (v : Var) : Prop :=
  v = .bool true ∨ ∃ token ∈ tokens, ∃ raw, parseValue stod raw = some v ∧
    (raw = token ∧ form info token = .value ∨ ∃ nm, inlineForm info token = some (nm, raw))

theorem items_origin (tokens : List Str) : ∀ it ∈ items info none tokens, ∀ v, it.value stod = some v →
    Origin stod info tokens v := by
  refine @items_forall info (fun it => ∀ v, it.value stod = some v → Origin stod info tokens v) (fun _ => True)
    ?_ tokens ?_ ?_ ?_ none (by simp)
  · exact fun nm _ => ⟨fun v hv => .inl (Option.some.inj hv).symm, fun v hv => .inl (Option.some.inj hv).symm⟩
  · exact fun token ht nm raw hin v hv => .inr ⟨token, ht, raw, hv, .inr ⟨nm, hin⟩⟩
  · exact fun _ _ _ => trivial
  · exact fun token ht hform => ⟨fun v hv => .inr ⟨token, ht, token, hv, .inl ⟨rfl, hform⟩⟩,
      fun nm _ v hv => .inr ⟨token, ht, token, hv, .inl ⟨rfl, hform⟩⟩⟩

theorem writes_origin : ∀ w ∈ writes stod info 0 (items info none tokens), ∀ v, w.value = some v →
    Origin stod info tokens v := by
  intro w hw v hv
  rcases mem_writes.1 hw with ⟨nm, raw, hm, rfl⟩ | ⟨j, raw, hj, rfl⟩
  · exact items_origin tokens _ hm v hv
  · exact items_origin tokens _ (mem_frees.1 (List.mem_of_getElem? hj)) v hv

theorem writes_plain (h : info.Plain) : ∀ w ∈ writes stod info 0 (items info none tokens), ∀ nm,
    w.target = some nm → isName nm = true := by
  have hsome : ∀ {nm : Str}, isName nm = true → ∀ x, some nm = some x → isName x = true := by
    rintro nm hname x ⟨⟩
    exact hname
  have hitems : ∀ it ∈ items info none tokens, ∀ nm, it.name? = some nm → isName nm = true := by
    refine @items_forall info (fun it => ∀ nm, it.name? = some nm → isName nm = true) (isName · = true)
      ?_ tokens ?_ ?_ ?_ none (by simp)
    · exact fun nm hname => ⟨hsome hname, hsome hname⟩
    · exact fun token _ nm raw hin => hsome (h.longNames _ (inlineForm_declared hin))
    · exact fun token _ hkey => h.keyword hkey
    · exact fun token _ _ => ⟨by simp [Item.name?], fun nm hname => hsome hname⟩
  intro w hw nm ht
  rcases mem_writes.1 hw with ⟨x, raw, hm, rfl⟩ | ⟨j, raw, hj, rfl⟩
  · exact hitems _ hm nm ht
  · exact h.paramOrder nm (List.mem_of_getElem? ht)

/-- What a parameter has after some writes it had before, or was written. -/
theorem performAll_origin {ws : List Write} : ∀ {ctx ctx' : Tree}, performAll ctx ws = some ctx' →
    (∀ w ∈ ws, ∀ nm, w.target = some nm → isName nm = true) → ∀ nm v, nm ≠ [] → ctx'.valueOf nm = some v →
    ctx.valueOf nm = some v ∨ ∃ w ∈ ws, w.value = some v := by
  induction ws with
  | nil =>
    intro ctx ctx' h _ nm v _ hv
    cases h
    exact .inl hv
  | cons w ws ih =>
    intro ctx ctx' h hplain nm v hne hv
    rw [List.forall_mem_cons] at hplain
    obtain ⟨ctx₁, hw, h⟩ := Option.bind_eq_some_iff.mp h
    rcases ih h hplain.2 nm v hne hv with hold | ⟨w', hw', hv'⟩
    · obtain ⟨target, value⟩ := w
      obtain ⟨u, hu, -⟩ := Option.bind_eq_some_iff.mp hw
      simp only at hu
      subst hu
      cases target with
      | some x =>
        obtain ⟨ctx₂, hrun, hvalue, -⟩ := @perform_named ctx x (hplain.1 x rfl) u
        cases hw.symm.trans hrun
        rw [hvalue] at hold
        split_ifs at hold
        · exact .inr ⟨_, List.mem_cons_self .., hold⟩
        · exact .inl hold
      | none =>
        obtain ⟨ctx₂, hrun, hvalue, -⟩ := perform_extra ctx u
        cases hw.symm.trans hrun
        rw [hvalue nm hne] at hold
        exact .inl hold
    · exact .inr ⟨w', List.mem_cons_of_mem _ hw', hv'⟩

theorem performAll_values {ws : List Write} : ∀ {ctx ctx' : Tree}, performAll ctx ws = some ctx' →
    ∀ w ∈ ws, w.value ≠ none := by
  induction ws with
  | nil => exact fun _ _ hw => absurd hw (List.not_mem_nil)
  | cons w ws ih =>
    intro ctx ctx' h
    obtain ⟨ctx₁, hw, h⟩ := Option.bind_eq_some_iff.mp h
    refine List.forall_mem_cons.2 ⟨?_, ih h⟩
    obtain ⟨u, hu, -⟩ := Option.bind_eq_some_iff.mp hw
    simp [hu]

/-- Nothing in a list is always followed by something longer. -/
theorem no_growing {P : Str → Prop} (h : ∀ t ∈ tokens, P t → ∃ t' ∈ tokens, P t' ∧ t.length < t'.length) :
    ∀ t ∈ tokens, ¬ P t := by
  intro t ht hP
  have hgrow : ∀ n : Nat, ∃ t' ∈ tokens, P t' ∧ n ≤ t'.length := by
    intro n
    induction n with
    | zero => exact ⟨t, ht, hP, Nat.zero_le _⟩
    | succ n ih =>
      obtain ⟨u, hu, hPu, hn⟩ := ih
      obtain ⟨t', ht', hP', hlt⟩ := h u hu hPu
      exact ⟨t', ht', hP', hn.trans_lt hlt⟩
  obtain ⟨u, hu, -, hn⟩ := hgrow ((tokens.map List.length).sum + 1)
  have hle : u.length ≤ (tokens.map List.length).sum := List.le_sum_of_mem (List.mem_map_of_mem hu)
  omega

end Origins

/-! ## Lists and dictionaries -/

section Agree

variable (stod : Str → Option Binary64) (platform : Platform) (decl ctx : Tree) (d : List (Str × Var))

/-- Both are taken, and each positional parameter has one value. -/
def Agree : Prop :=
  ∃ a b, parseInput stod platform (some decl) ctx (.list (d.map Prod.snd)) = some a ∧
    parseInput stod platform (some decl) ctx (.dict d) = some b ∧
    ∀ nm ∈ params platform decl, a.valueOf nm = b.valueOf nm

variable {stod platform decl ctx d}

theorem declared_plain (h : ∀ param ∈ decl.kids, param.name = [] ∨ isName param.name = true) :
    (buildDeclInfo platform (some decl)).Plain := by
  refine buildDeclInfo_plain platform fun d hd => ?_
  cases hd
  exact h

theorem valueOf_leaves {nm : Str} {v : Var} (h : (d.map Prod.fst).Nodup) {p : Str × Var} (hp : p ∈ d) :
    (Tree.node nm v (d.map leafOf)).valueOf p.1 = some p.2 := by
  induction d with
  | nil => cases hp
  | cons q d ih =>
    have hnd := List.nodup_cons.1 h
    have hname : (leafOf q).name = q.1 := Tree.set_name _ _
    simp only [Tree.valueOf, Tree.kids_node, List.map_cons, List.find?_cons, hname]
    rcases List.mem_cons.1 hp with rfl | hp
    · simp [leafOf]
    · have hne : q.1 ≠ p.1 := fun he => hnd.1 (List.mem_map.2 ⟨p, hp, he.symm⟩)
      simpa [hne, Tree.valueOf] using ih hnd.2 hp

section Fixed

variable (hplain : ∀ param ∈ decl.kids, param.name = [] ∨ isName param.name = true)
  (hd : d.map Prod.fst = params platform decl) (hnodup : (params platform decl).Nodup)

include hplain hd hnodup

theorem fresh_params : Fresh d := by
  have hnames : ∀ nm ∈ params platform decl, isName nm = true := (declared_plain hplain).paramOrder
  exact ⟨fun p hp => hnames _ (hd ▸ List.mem_map_of_mem hp), hd ▸ hnodup⟩

theorem parse_dict : parseInput stod platform (some decl) ctx (.dict d) =
    some (.node ctx.name ctx.value (d.map leafOf)) := by
  have hmem : ∀ p ∈ d, p.1 ∈ params platform decl := fun p hp => hd ▸ List.mem_map_of_mem hp
  have hstore : parseInput stod platform (some decl) ctx (.dict d) =
      storeDict (.node ctx.name ctx.value []) d := rfl
  rw [hstore, storeDict_performAll fun p hp => ⟨(params_spec _ (hmem p hp)).1, (params_spec _ (hmem p hp)).2.1⟩,
    performAll_fresh (fresh_params hplain hd hnodup) (by simp)]
  rfl

omit hplain hnodup in
/-- Of value tokens, the list writes each parameter what its token reads as. -/
theorem list_writes
    (hform : ∀ p ∈ d, form (buildDeclInfo platform (some decl)) (p.2.toString platform) = .value) :
    parseInput stod platform (some decl) ctx (.list (d.map Prod.snd)) =
      performAll (.node ctx.name ctx.value [])
        (d.map fun p => ⟨some p.1, parseValue stod (p.2.toString platform)⟩) := by
  have hitems := @items_values (buildDeclInfo platform (some decl))
    ((d.map Prod.snd).map (Var.toString platform)) (by
      rw [List.map_map, List.forall_mem_map]
      exact hform)
  have hfree : ((d.map Prod.snd).map (Var.toString platform)).map Item.free =
      (d.map fun p => (p.1, p.2.toString platform)).map fun p => .free p.2 := by
    simp [List.map_map, Function.comp_def]
  have hwrites := @writes_free stod (buildDeclInfo platform (some decl))
    (d.map fun p => (p.1, p.2.toString platform)) 0 (by simpa [Function.comp_def, params] using hd.symm)
  rw [parseInput_list, hitems, hfree, hwrites, List.map_map]
  rfl

theorem parse_values (read : Var → Var)
    (hform : ∀ p ∈ d, form (buildDeclInfo platform (some decl)) (p.2.toString platform) = .value)
    (hread : ∀ p ∈ d, parseValue stod (p.2.toString platform) = some (read p.2)) :
    Fresh (d.map fun p => (p.1, read p.2)) ∧
      parseInput stod platform (some decl) ctx (.list (d.map Prod.snd)) =
        some (.node ctx.name ctx.value ((d.map fun p => (p.1, read p.2)).map leafOf)) := by
  have hfresh := fresh_params hplain hd hnodup
  have hpairs : Fresh (d.map fun p => (p.1, read p.2)) := by
    refine ⟨?_, ?_⟩
    · rw [List.forall_mem_map]
      exact hfresh.plain
    · rw [List.map_map]
      exact hfresh.nodup
  have hvalues : d.map (fun p => (⟨some p.1, parseValue stod (p.2.toString platform)⟩ : Write)) =
      (d.map fun p => (p.1, read p.2)).map fun p => ⟨some p.1, some p.2⟩ := by
    rw [List.map_map]
    exact List.map_congr_left fun p hp => by simp [hread p hp]
  refine ⟨hpairs, ?_⟩
  rw [list_writes hd hform, hvalues, performAll_fresh hpairs (by simp)]
  rfl

theorem Agree.origin (h : Agree stod platform decl ctx d) :
    ∀ p ∈ d, Origin stod (buildDeclInfo platform (some decl)) (d.map fun p => p.2.toString platform) p.2 := by
  obtain ⟨a, b, ha, hb, hsame⟩ := h
  rw [parse_dict hplain hd hnodup] at hb
  cases hb
  have hfresh := fresh_params hplain hd hnodup
  have hinfo : (buildDeclInfo platform (some decl)).Plain := declared_plain hplain
  intro p hp
  have hvalue : a.valueOf p.1 = some p.2 := by
    rw [hsame p.1 (hd ▸ List.mem_map_of_mem hp), valueOf_leaves hfresh.nodup hp]
  rw [parseInput_list] at ha
  rcases performAll_origin ha (writes_plain hinfo) p.1 p.2 (isName_spec (hfresh.plain p hp)).1 hvalue with
    hold | ⟨w, hw, hv⟩
  · cases hold
  · have horigin := writes_origin w hw p.2 hv
    rwa [List.map_map] at horigin

/-- If the two agree, all the values were read off value tokens: otherwise some text would be there quoted, or
behind a `=`, in a longer one. -/
theorem Agree.values (h : Agree stod platform decl ctx d) (hprint : platform.PrintsDoubles)
    (hdata : ∀ p ∈ d, IsData p.2 = true) :
    ∀ p ∈ d, form (buildDeclInfo platform (some decl)) (p.2.toString platform) = .value := by
  have horigin := h.origin hplain hd hnodup
  have hbad : ∀ p ∈ d, (form (buildDeclInfo platform (some decl)) (p.2.toString platform) ≠ .value ∨
      Quoted (p.2.toString platform)) → p.2 = .string (p.2.toString platform) := by
    intro p hp hbad
    by_contra hne
    have htext := @text_plain platform (buildDeclInfo platform (some decl)) hprint p.2 (hdata p hp)
      fun s hs => hne (by rw [hs]; rfl)
    exact hbad.elim (fun hform => hform htext.1) fun hq => htext.2 hq.2.1
  have hnone := @no_growing (d.map fun p => p.2.toString platform)
    (fun t => form (buildDeclInfo platform (some decl)) t ≠ .value ∨ Quoted t) ?_
  · intro p hp
    by_contra hform
    exact hnone _ (List.mem_map_of_mem hp) (.inl hform)
  · intro t ht hbadt
    obtain ⟨p, hp, rfl⟩ := List.mem_map.1 ht
    have hstring := hbad p hp hbadt
    rcases horigin p hp with htrue | ⟨token, htoken, raw, hread, hraw⟩
    · rw [htrue] at hstring
      cases hstring
    rw [hstring] at hread
    rcases hraw with ⟨rfl, hform⟩ | ⟨nm, hin⟩
    · -- a value token that reads as the text is the text in quotes
      rcases parseValue_string hread with ⟨heq, hliteral⟩ | ⟨heq, hquoted⟩
      · rw [heq] at hform
        exact (hbadt.elim (fun hne => hne hform) hliteral.quoted).elim
      · refine ⟨raw, htoken, .inr hquoted, ?_⟩
        rw [heq, List.length_append, List.length_cons, List.length_singleton]
        omega
    · -- a token that ends in the text
      refine ⟨token, htoken, .inl (by rw [form_inline hin]; simp), ?_⟩
      have hshort := inlineForm_length hin
      rcases parseValue_string hread with ⟨heq, -⟩ | ⟨heq, -⟩
      · rwa [← heq]
      · rw [heq] at hshort
        simp only [List.length_append, List.length_cons, List.length_nil] at hshort
        omega

end Fixed

end Agree

/-- **A list of arguments and a dictionary of the same agree exactly when every value survives**, and then the
contexts are the same. -/
theorem list_agrees (stod : Str → Option Binary64) (platform : Platform) (hprint : platform.PrintsDoubles)
    (decl ctx : Tree) (hplain : ∀ param ∈ decl.kids, param.name = [] ∨ isName param.name = true)
    (hnodup : (params platform decl).Nodup) (d : List (Str × Var)) (hd : d.map Prod.fst = params platform decl)
    (hdata : ∀ p ∈ d, IsData p.2 = true) :
    (Agree stod platform decl ctx d ↔
      ∀ p ∈ d, Survives stod platform (buildDeclInfo platform (some decl)) p.2) ∧
    ((∀ p ∈ d, Survives stod platform (buildDeclInfo platform (some decl)) p.2) →
      parseInput stod platform (some decl) ctx (.list (d.map Prod.snd)) =
        parseInput stod platform (some decl) ctx (.dict d)) := by
  have hfresh := fresh_params hplain hd hnodup
  have hsame : (∀ p ∈ d, Survives stod platform (buildDeclInfo platform (some decl)) p.2) →
      parseInput stod platform (some decl) ctx (.list (d.map Prod.snd)) =
        parseInput stod platform (some decl) ctx (.dict d) := by
    intro h
    have hback := fun p hp => (reads_back hprint (hdata p hp)).2 (h p hp)
    rw [(parse_values hplain hd hnodup id (fun p hp => (hback p hp).1) fun p hp => (hback p hp).2).2,
      parse_dict hplain hd hnodup, List.map_map]
    rfl
  refine ⟨⟨fun h p hp => ?_, fun h => ?_⟩, hsame⟩
  · have hform := h.values hplain hd hnodup hprint hdata
    refine (reads_back hprint (hdata p hp)).1 ⟨hform p hp, ?_⟩
    obtain ⟨a, b, ha, hb, heq⟩ := h
    have hread : ∀ q ∈ d, parseValue stod (q.2.toString platform) =
        some ((parseValue stod (q.2.toString platform)).getD .none) := by
      intro q hq
      rw [list_writes hd hform] at ha
      have hne := performAll_values ha _ (List.mem_map_of_mem hq)
      obtain ⟨v, hv⟩ := Option.ne_none_iff_exists'.1 hne
      simp only at hv
      rw [hv, Option.getD_some]
    obtain ⟨hpairs, hlist⟩ := @parse_values stod platform decl ctx d hplain hd hnodup
      (fun v => (parseValue stod (v.toString platform)).getD .none) hform hread
    cases ha.symm.trans hlist
    cases hb.symm.trans (parse_dict hplain hd hnodup)
    have hvalue := heq p.1 (hd ▸ List.mem_map_of_mem hp)
    rw [valueOf_leaves hfresh.nodup hp] at hvalue
    have hgot := @valueOf_leaves _ ctx.name ctx.value hpairs.nodup _ (List.mem_map_of_mem hp)
    rw [hread p hp, ← hgot, hvalue]
  · have hdict := @parse_dict stod platform decl ctx d hplain hd hnodup
    exact ⟨_, _, (hsame h).trans hdict, hdict, fun _ _ => rfl⟩

/-- A list as an argument arrives as its text in a list, and as itself in a dictionary. -/
theorem list_loses_list : ¬ ∀ (stod : Str → Option Binary64) (platform : Platform) (decl ctx : Tree)
    (d : List (Str × Var)), (params platform decl).Nodup → d.map Prod.fst = params platform decl →
    (∀ p ∈ d, IsData p.2 = true) → Agree stod platform decl ctx d := by
  intro h
  obtain ⟨a, b, ha, hb, heq⟩ := h (fun _ => none) ⟨fun _ => [], fun _ => [], fun _ => 0, fun _ => 0⟩
    (.node (ascii "declare") .none [Tree.blank (ascii "a")]) (Tree.blank []) [(ascii "a", .list [])]
    (List.nodup_singleton (ascii "a")) rfl (by simp [IsData])
  cases ha
  cases hb
  have hvalue : (some (Var.string (ascii "[]")) : Option Var) = some (.list []) :=
    heq (ascii "a") (List.mem_singleton.2 rfl)
  simp at hvalue

theorem list_agrees_sample :
    let platform : Platform := ⟨fun _ => ascii "0", fun _ => [], fun _ => 0, fun _ => 0⟩
    parseInput (fun _ => none) platform (some twoParams) (Tree.blank []) (.list [.string (ascii "x"), .int (-3)]) =
      parseInput (fun _ => none) platform (some twoParams) (Tree.blank [])
        (.dict [(ascii "a", .string (ascii "x")), (ascii "b", .int (-3))]) := by
  have hprint : Platform.PrintsDoubles ⟨fun _ => ascii "0", fun _ => [], fun _ => 0, fun _ => 0⟩ :=
    fun _ => ⟨[], ascii "0", rfl, .inl rfl, .inl ⟨48, [], rfl, rfl⟩⟩
  refine (list_agrees (fun _ => none) _ hprint twoParams (Tree.blank []) ?_ ?_
    [(ascii "a", .string (ascii "x")), (ascii "b", .int (-3))] rfl ?_).2 ?_
  · exact List.forall_mem_cons.2 ⟨.inr (by decide), List.forall_mem_cons.2 ⟨.inr (by decide), by simp⟩⟩
  · decide
  · simp [IsData]
  · have hliteral : Literal (ascii "x") := ⟨by decide, fun hq => absurd hq.1 (by decide), by decide, by decide⟩
    exact List.forall_mem_cons.2 ⟨⟨rfl, hliteral⟩, List.forall_mem_cons.2 ⟨trivial, by simp⟩⟩

end Command

end VersatileEngine
