import VersatileEngine.Command.Input
import VersatileEngine.Command.Values

/-!
# VersatileEngine.Command.Named

The arguments that a typed callable gets.

* `readAt`, `readArgs` — `Step::wrapMultiArg`: the context is read by position, with the declaration behind it.
* `passed`       — the arguments of a call, from the input to the callable.
* `performAll_fresh` — parameters that are given once each stand in the context in the order they are given.
* `named_order`  — **given by name, the parameters reach the callable for all values exactly when they are the
  first ones, in the order of the declaration, and the others have their defaults at their positions.**
-/

namespace VersatileEngine.Command

/-- `ctx->at(i, true)->get()` and the context afterwards: a position that neither has is filled. -/
def readAt (decl : Option Tree) (ctx : Tree) (i : Nat) : Tree × Var :=
  match Tree.childAt ctx.kids i with
  | some j => (ctx, (ctx.kids[j]?.map Tree.value).getD .none)
  | none =>
    match decl.bind fun decl => (Tree.childAt decl.kids i).bind fun j => decl.kids[j]? with
    | some k => (ctx, k.value)
    | none =>
      match Tree.ensureIndex ctx.kids i with
      | none => (ctx, .none)
      | some (ks, j) => (.node ctx.name ctx.value ks, (ks[j]?.map Tree.value).getD .none)

/-- `n` arguments from the position `i` on. -/
def readArgs (decl : Option Tree) : Nat → Nat → Tree → List Var
  | 0, _, _ => []
  | n + 1, i, ctx => (readAt decl ctx i).2 :: readArgs decl n (i + 1) (readAt decl ctx i).1

section Passed

variable (stod : Str → Option Binary64) (platform : Platform) (decl ctx : Tree)

/-- The positional parameters of the declaration. -/
def params : List Str := (buildDeclInfo platform (some decl)).paramOrder

/-- What a callable with an argument for each positional parameter is called with. -/
def passed (input : Var) : Option (List Var) :=
  (parseInput stod platform (some decl) ctx input).map (readArgs (some decl) (params platform decl).length 0)

end Passed

/-! ## By position -/

/-- The value at the position `i`. -/
def valueAt (t : Tree) (i : Nat) : Option Var := t.kids[i]?.map Tree.value

theorem readAt_spec (decl : Option Tree) (ctx : Tree) (i : Nat) :
    (readAt decl ctx i).2 = ((valueAt ctx i).or (decl.bind fun decl => valueAt decl i)).getD .none ∧
      ∀ j, i < j → valueAt (readAt decl ctx i).1 j = valueAt ctx j := by
  have hchild : ∀ t : Tree, (Tree.childAt t.kids i).bind (fun j => t.kids[j]?) = t.kids[i]? := by
    intro t
    rw [Tree.childAt_natCast]
    split_ifs with h
    · rfl
    · exact (List.getElem?_eq_none (Nat.le_of_not_lt h)).symm
  simp only [readAt]
  rw [Tree.childAt_natCast]
  by_cases hctx : i < ctx.kids.length
  · rw [if_pos hctx]
    exact ⟨by simp [valueAt, hctx], fun _ _ => rfl⟩
  have hnone : valueAt ctx i = none := by simp [valueAt, Nat.le_of_not_lt hctx]
  rw [if_neg hctx, hnone, Option.none_or]
  simp only [hchild]
  cases hdecl : decl.bind fun decl => decl.kids[i]? with
  | some k =>
    refine ⟨?_, fun _ _ => rfl⟩
    obtain ⟨d, rfl, hk⟩ := Option.bind_eq_some_iff.mp hdecl
    simp [valueAt, hk]
  | none =>
    have hvalue : (decl.bind fun decl => valueAt decl i) = none := by
      cases decl with
      | none => rfl
      | some d => simpa [valueAt] using hdecl
    have hlen : ((ctx.kids ++ List.replicate (i - ctx.kids.length + 1) (Tree.blank [])).length : Nat) = i + 1 := by
      rw [List.length_append, List.length_replicate]
      omega
    have hlast : Tree.ensureIndex ctx.kids i =
        some (ctx.kids ++ List.replicate (i - ctx.kids.length + 1) (Tree.blank []), i) := by
      rw [Tree.ensureIndex, Tree.childAt_natCast, if_neg hctx]
      simp only
      rw [if_neg (by omega), Tree.append, if_neg (by omega)]
      have hnat : ((i : Int) - (ctx.kids.length : Int)).toNat = i - ctx.kids.length := by omega
      rw [hnat, Option.bind_some, Tree.childAt_natCast, if_pos (by omega)]
      rfl
    rw [hlast, hvalue]
    refine ⟨?_, fun j hj => ?_⟩
    · have hge : ctx.kids.length ≤ i := Nat.le_of_not_lt hctx
      simp only [List.getElem?_append_right hge]
      rw [List.getElem?_replicate, if_pos (by omega)]
      rfl
    · simp only [valueAt, Tree.kids_node]
      rw [List.getElem?_eq_none (by omega), List.getElem?_eq_none (by omega)]

/-- The callable gets what stands in the context by position, and what stands in the declaration after that. -/
theorem readArgs_spec (decl : Option Tree) (n : Nat) : ∀ (i : Nat) (ctx : Tree), readArgs decl n i ctx =
    (List.range' i n).map fun j => ((valueAt ctx j).or (decl.bind fun decl => valueAt decl j)).getD .none := by
  induction n with
  | zero => exact fun _ _ => rfl
  | succ n ih =>
    intro i ctx
    obtain ⟨hvalue, hlater⟩ := readAt_spec decl ctx i
    rw [readArgs, hvalue, ih, List.range'_succ, List.map_cons]
    congr 1
    refine List.map_congr_left fun j hj => ?_
    rw [hlater j (by have := (List.mem_range'_1.1 hj).1; omega)]

/-! ## Parameters given once -/

def leafOf (p : Str × Var) : Tree := (Tree.blank p.1).set p.2

/-- Distinct names of parameters. -/
structure Fresh (d : List (Str × Var)) : Prop where
  plain : ∀ p ∈ d, isName p.1 = true
  nodup : (d.map Prod.fst).Nodup

theorem performAll_fresh {d : List (Str × Var)} : ∀ {ctx : Tree}, Fresh d →
    (∀ p ∈ d, ∀ x ∈ ctx.kids, x.name ≠ p.1) →
    performAll ctx (d.map fun p => ⟨some p.1, some p.2⟩) =
      some (.node ctx.name ctx.value (ctx.kids ++ d.map leafOf)) := by
  induction d with
  | nil =>
    intro ctx _ _
    cases ctx
    simp [performAll]
  | cons p d ih =>
    intro ctx h hnew
    have hnd := List.nodup_cons.1 h.nodup
    have hstep : Write.perform ctx ⟨some p.1, some p.2⟩ =
        some (.node ctx.name ctx.value (ctx.kids ++ [leafOf p])) := by
      show ctx.atPath p.1 (fun t => t.set p.2) = _
      exact Tree.atPath_new (h.plain p (List.mem_cons_self ..)) (hnew p (List.mem_cons_self ..))
    rw [List.map_cons, performAll, hstep, Option.bind_some,
      ih ⟨fun q hq => h.plain q (List.mem_cons_of_mem _ hq), hnd.2⟩]
    · simp
    · intro q hq x hx
      rcases List.mem_append.1 hx with hx | hx
      · exact hnew q (List.mem_cons_of_mem _ hq) x hx
      · rw [List.mem_singleton.1 hx]
        exact fun he => hnd.1 (List.mem_map.2 ⟨q, hq, he.symm⟩)

theorem storeDict_performAll {d : List (Str × Var)} : ∀ {ctx : Tree},
    (∀ p ∈ d, p.1 ≠ [] ∧ p.1.head? ≠ some 95) →
    storeDict ctx d = performAll ctx (d.map fun p => ⟨some p.1, some p.2⟩) := by
  induction d with
  | nil => exact fun _ => rfl
  | cons p d ih =>
    intro ctx h
    rw [storeDict, if_pos (h p (List.mem_cons_self ..)), List.map_cons, performAll]
    exact Option.bind_congr fun ctx' _ => ih fun q hq => h q (List.mem_cons_of_mem _ hq)

/-! ## The forms of a call -/

section Forms

variable {stod : Str → Option Binary64} {platform : Platform} {info : DeclInfo} {decl ctx : Tree}

theorem params_spec : ∀ p ∈ params platform decl, p ≠ [] ∧ p.head? ≠ some 95 ∧
    p ∈ (buildDeclInfo platform (some decl)).longNames := by
  refine List.foldlRecOn decl.kids (DeclInfo.add platform)
    (motive := fun info => ∀ p ∈ info.paramOrder, p ≠ [] ∧ p.head? ≠ some 95 ∧ p ∈ info.longNames) ?_ ?_
  · exact fun p hp => absurd hp (List.not_mem_nil)
  · intro info ih param _
    simp only [DeclInfo.add]
    split_ifs with hskip
    · exact ih
    · rw [not_or] at hskip
      have hkept : ∀ p ∈ info.paramOrder, p ≠ [] ∧ p.head? ≠ some 95 ∧ p ∈ param.name :: info.longNames :=
        fun p hp => ⟨(ih p hp).1, (ih p hp).2.1, List.mem_cons_of_mem _ (ih p hp).2.2⟩
      split
      · split_ifs <;> exact hkept
      · intro p hp
        rcases List.mem_append.1 hp with hp | hp
        · exact hkept p hp
        · rw [List.mem_singleton.1 hp]
          exact ⟨hskip.1, hskip.2, List.mem_cons_self ..⟩

theorem form_dashes {nm : Str} (hmem : nm ∈ info.longNames) (hne : nm ≠ []) (heq : 61 ∉ nm) :
    form info (ascii "--" ++ nm) = .keyword nm := by
  have hlen : 0 < nm.length := List.length_pos_iff.2 hne
  have htoken : ascii "--" ++ nm = 45 :: 45 :: nm := rfl
  have hsplit : splitEq (45 :: 45 :: nm) = none := by simp [splitEq, heq]
  have hint : isInt (45 :: 45 :: nm) = false := by simp [isInt, unsigned, isSign, isDigit]
  have hdouble : isDouble (45 :: 45 :: nm) = false := by simp [isDouble, unsigned, isSign, doubleLoop, isDigit]
  have hinline : inlineForm info (45 :: 45 :: nm) = none := by simp [inlineForm, hsplit]
  have hkey : isKeyword info (45 :: 45 :: nm) = nm := by
    simp [isKeyword, hint, hdouble, hsplit, hmem]
  rw [htoken, form_other hinline, hkey, if_pos hne]

/-- The tokens that give parameters by name. -/
def namedTokens (d : List (Str × Str)) : List Str := d.flatMap fun p => [ascii "--" ++ p.1, p.2]

theorem items_named_tokens {d : List (Str × Str)}
    (hname : ∀ p ∈ d, p.1 ∈ info.longNames ∧ p.1 ≠ [] ∧ 61 ∉ p.1) (hvalue : ∀ p ∈ d, form info p.2 = .value) :
    items info none (namedTokens d) = d.map fun p => .given p.1 (some p.2) := by
  induction d with
  | nil => rfl
  | cons p d ih =>
    rw [List.forall_mem_cons] at hname hvalue
    have htokens : namedTokens (p :: d) = (ascii "--" ++ p.1) :: p.2 :: namedTokens d := rfl
    rw [htokens, items_cons, form_dashes hname.1.1 hname.1.2.1 hname.1.2.2]
    simp only [Option.toList_none, List.map_nil, List.nil_append]
    rw [items_cons, hvalue.1, List.map_cons, ih hname.2 hvalue.2]

theorem items_values {tokens : List Str} (h : ∀ token ∈ tokens, form info token = .value) :
    items info none tokens = tokens.map .free := by
  induction tokens with
  | nil => rfl
  | cons token tokens ih =>
    rw [List.forall_mem_cons] at h
    rw [items_cons, h.1, List.map_cons, ih h.2]

theorem writes_given {d : List (Str × Str)} (pos : Nat) :
    writes stod info pos (d.map fun p => .given p.1 (some p.2)) =
      d.map fun p => ⟨some p.1, parseValue stod p.2⟩ := by
  induction d with
  | nil => rfl
  | cons p d ih =>
    rw [List.map_cons, writes, ih]
    rfl

theorem writes_free {d : List (Str × Str)} : ∀ {pos : Nat}, info.paramOrder.drop pos = d.map Prod.fst →
    writes stod info pos (d.map fun p => .free p.2) = d.map fun p => ⟨some p.1, parseValue stod p.2⟩ := by
  induction d with
  | nil => exact fun _ => rfl
  | cons p d ih =>
    intro pos h
    have hnow : info.paramOrder[pos]? = some p.1 := by
      rw [← List.head?_drop, h]
      rfl
    have hnext : info.paramOrder.drop (pos + 1) = d.map Prod.fst := by
      rw [← List.drop_drop, h]
      rfl
    rw [List.map_cons, writes, ih hnext, hnow]
    rfl

end Forms

/-! ## Calls -/

section Calls

variable {stod : Str → Option Binary64} {platform : Platform} {decl ctx : Tree} {d : List (Str × Var)}

/-- What a callable of `n` arguments gets when `given` are the values in the order they were given. -/
def arrived (decl : Tree) (n : Nat) (given : List Var) : List Var :=
  (List.range n).map fun i => (given[i]?.or (valueAt decl i)).getD .none

theorem passed_fresh (hd : Fresh d) {input : Var}
    (h : parseInput stod platform (some decl) ctx input =
      performAll (.node ctx.name ctx.value []) (d.map fun p => ⟨some p.1, some p.2⟩)) :
    passed stod platform decl ctx input = some (arrived decl (params platform decl).length (d.map Prod.snd)) := by
  rw [passed, h, performAll_fresh hd (by simp), Option.map_some]
  simp only [Tree.kids_node, Tree.name_node, Tree.value_node, List.nil_append]
  rw [readArgs_spec, arrived, List.range_eq_range']
  simp [valueAt, leafOf, Function.comp_def]

theorem passed_dict (hd : Fresh d) (hmem : ∀ p ∈ d, p.1 ∈ params platform decl) :
    passed stod platform decl ctx (.dict d) =
      some (arrived decl (params platform decl).length (d.map Prod.snd)) :=
  passed_fresh hd (storeDict_performAll fun p hp =>
    ⟨(params_spec _ (hmem p hp)).1, (params_spec _ (hmem p hp)).2.1⟩)

/-- A list of texts is a list of tokens. -/
def tokensOf (tokens : List Str) : Var := .list (tokens.map .string)

theorem parseInput_list (l : List Var) : parseInput stod platform (some decl) ctx (.list l) =
    performAll (.node ctx.name ctx.value []) (writes stod (buildDeclInfo platform (some decl)) 0
      (items (buildDeclInfo platform (some decl)) none (l.map (Var.toString platform)))) :=
  @run_eq stod (buildDeclInfo platform (some decl)) (l.map (Var.toString platform))
    (.node ctx.name ctx.value []) none 0 (by simp)

theorem parseInput_tokens (tokens : List Str) : parseInput stod platform (some decl) ctx (tokensOf tokens) =
    performAll (.node ctx.name ctx.value []) (writes stod (buildDeclInfo platform (some decl)) 0
      (items (buildDeclInfo platform (some decl)) none tokens)) := by
  have htext : (tokens.map Var.string).map (Var.toString platform) = tokens := by
    rw [List.map_map]
    exact List.map_id _
  rw [tokensOf, parseInput_list, htext]

variable {names : List Str} {raws : Str → Str} {vals : Str → Var}

theorem passed_named (hd : Fresh (names.map fun nm => (nm, vals nm)))
    (hmem : ∀ nm ∈ names, nm ∈ params platform decl ∧ 61 ∉ nm)
    (hvalue : ∀ nm ∈ names, form (buildDeclInfo platform (some decl)) (raws nm) = .value ∧
      parseValue stod (raws nm) = some (vals nm)) :
    passed stod platform decl ctx (tokensOf (namedTokens (names.map fun nm => (nm, raws nm)))) =
      some (arrived decl (params platform decl).length (names.map vals)) := by
  have hitems := @items_named_tokens (buildDeclInfo platform (some decl)) (names.map fun nm => (nm, raws nm))
    (by simpa using fun nm hnm => ⟨(params_spec nm (hmem nm hnm).1).2.2, (params_spec nm (hmem nm hnm).1).1,
      (hmem nm hnm).2⟩) (by simpa using fun nm hnm => (hvalue nm hnm).1)
  have hpassed := @passed_fresh stod platform decl ctx (names.map fun nm => (nm, vals nm)) hd
    (tokensOf (namedTokens (names.map fun nm => (nm, raws nm)))) ?_
  · rw [hpassed, List.map_map]
    rfl
  · rw [parseInput_tokens, hitems, writes_given, List.map_map, List.map_map]
    congr 1
    exact List.map_congr_left fun nm hnm => by simp [(hvalue nm hnm).2]

theorem passed_positional (hd : Fresh ((params platform decl).map fun nm => (nm, vals nm)))
    (hvalue : ∀ nm ∈ params platform decl, form (buildDeclInfo platform (some decl)) (raws nm) = .value ∧
      parseValue stod (raws nm) = some (vals nm)) :
    passed stod platform decl ctx (tokensOf ((params platform decl).map raws)) =
      some ((params platform decl).map vals) := by
  have hitems := @items_values (buildDeclInfo platform (some decl)) ((params platform decl).map raws)
    (by simpa using fun nm hnm => (hvalue nm hnm).1)
  have hfree : ((params platform decl).map raws).map Item.free =
      ((params platform decl).map fun nm => (nm, raws nm)).map fun p => .free p.2 := by
    simp [List.map_map, Function.comp_def]
  have hpassed := @passed_fresh stod platform decl ctx ((params platform decl).map fun nm => (nm, vals nm)) hd
    (tokensOf ((params platform decl).map raws)) ?_
  · rw [hpassed, List.map_map, arrived]
    congr 1
    refine List.ext_getElem (by simp) fun i hi hi' => ?_
    have hlt : i < (params platform decl).length := by simpa using hi
    simp [hlt]
  · rw [parseInput_tokens, hitems, hfree, writes_free (by simp [params, Function.comp_def]), List.map_map,
      List.map_map]
    congr 1
    exact List.map_congr_left fun nm hnm => by simp [(hvalue nm hnm).2]

end Calls

/-! ## Any order -/

section Order

variable (platform : Platform) (decl : Tree) (names : List Str)

/-- The declared default of a parameter. -/
def default (nm : Str) : Var := (decl.valueOf nm).getD .none

/-- What is meant for a parameter: the value given for it, or its default. -/
def due (vals : Str → Var) (nm : Str) : Var := if nm ∈ names then vals nm else default decl nm

/-- The first parameters in their order, and the defaults of the others at their positions. -/
structure InOrder : Prop where
  first : names = (params platform decl).take names.length
  rest : ∀ i nm, names.length ≤ i → (params platform decl)[i]? = some nm →
    (valueAt decl i).getD .none = default decl nm

variable {platform decl names}

theorem arrived_iff (vals : Str → Var) : arrived decl (params platform decl).length (names.map vals) =
    (params platform decl).map (due decl names vals) ↔
    ∀ i nm, (params platform decl)[i]? = some nm →
      ((names.map vals)[i]?.or (valueAt decl i)).getD .none = due decl names vals nm := by
  constructor
  · intro h i nm hi
    have hlt : i < (params platform decl).length := (List.getElem?_eq_some_iff.1 hi).1
    have hat := congrArg (fun l : List Var => l[i]?) h
    simp only [arrived, List.getElem?_map, hi, List.getElem?_range hlt, Option.map_some] at hat
    simpa using hat
  · intro h
    refine List.ext_getElem (by simp [arrived]) fun i hi hi' => ?_
    have hlt : i < (params platform decl).length := by simpa using hi'
    have hat := h i _ (List.getElem?_eq_getElem hlt)
    simpa [arrived] using hat

theorem InOrder.arrived (h : InOrder platform decl names) (hnodup : (params platform decl).Nodup)
    (vals : Str → Var) : arrived decl (params platform decl).length (names.map vals) =
      (params platform decl).map (due decl names vals) := by
  rw [arrived_iff]
  intro i nm hi
  have hlt : i < (params platform decl).length := (List.getElem?_eq_some_iff.1 hi).1
  have hat : nm = (params platform decl)[i] := (List.getElem?_eq_some_iff.1 hi).2.symm
  by_cases hgiven : i < names.length
  · have hname : names[i]? = some nm := by
      rw [h.first, List.getElem?_take, if_pos hgiven, hi]
    rw [List.getElem?_map, hname, due, if_pos (List.mem_of_getElem? hname)]
    rfl
  · have hnot : nm ∉ names := by
      rw [h.first]
      intro hm
      obtain ⟨j, hj, he⟩ := List.getElem_of_mem hm
      have hj' : j < names.length := by
        rw [List.length_take] at hj
        omega
      rw [List.getElem_take, hat] at he
      exact hgiven ((hnodup.getElem_inj_iff.1 he) ▸ hj')
    rw [List.getElem?_eq_none (by simpa using Nat.le_of_not_lt hgiven), Option.none_or, due, if_neg hnot]
    exact h.rest i nm (Nat.le_of_not_lt hgiven) hi

/-- A value that is 0 or 1. -/
def IsBit (v : Var) : Prop := v = .int 0 ∨ v = .int 1

theorem exists_bits (v : Var) : ∃ x y : Var, IsBit x ∧ IsBit y ∧ x ≠ v ∧ x ≠ y := by
  by_cases h : v = .int 0
  · exact ⟨.int 1, .int 0, .inr rfl, .inl rfl, by simp [h], by simp⟩
  · exact ⟨.int 0, .int 1, .inl rfl, .inr rfl, Ne.symm h, by simp⟩

theorem inOrder_of_arrived (hnodup : (params platform decl).Nodup) (hn : names.Nodup)
    (hmem : ∀ nm ∈ names, nm ∈ params platform decl)
    (h : ∀ vals, (∀ nm, IsBit (vals nm)) → arrived decl (params platform decl).length (names.map vals) =
      (params platform decl).map (due decl names vals)) : InOrder platform decl names := by
  have hle : names.length ≤ (params platform decl).length := (hn.subperm hmem).length_le
  -- a value at the place of another parameter is told apart from what is due there
  have hplace : ∀ i nm, i < names.length → (params platform decl)[i]? = some nm → names[i]? = some nm := by
    intro i nm hi hnm
    obtain ⟨given, hgiven⟩ : ∃ given, names[i]? = some given := ⟨_, List.getElem?_eq_getElem hi⟩
    by_contra hne
    have hdiff : given ≠ nm := fun he => hne (he ▸ hgiven)
    obtain ⟨x, y, hbit, hbit', hx, hxy⟩ := exists_bits (default decl nm)
    have hat := (arrived_iff _).1 (h (fun n => if n = given then x else y) fun n => by
      split_ifs
      · exact hbit
      · exact hbit') i nm hnm
    simp only [List.getElem?_map, hgiven, Option.map_some, if_true, Option.some_or, Option.getD_some, due,
      if_neg (Ne.symm hdiff)] at hat
    split_ifs at hat
    · exact hxy hat
    · exact hx hat
  have hfirst : names = (params platform decl).take names.length := by
    refine List.ext_getElem (by simp [hle]) fun i hi hi' => ?_
    have hlt : i < (params platform decl).length := hi.trans_le hle
    have heq := hplace i _ hi (List.getElem?_eq_getElem hlt)
    rw [List.getElem?_eq_getElem hi] at heq
    rw [List.getElem_take]
    exact Option.some.inj heq
  refine ⟨hfirst, fun i nm hi hnm => ?_⟩
  have hnot : nm ∉ names := by
    rw [hfirst]
    intro hm
    obtain ⟨j, hj, he⟩ := List.getElem_of_mem hm
    rw [List.length_take] at hj
    rw [List.getElem_take, ← (List.getElem?_eq_some_iff.1 hnm).2] at he
    have := hnodup.getElem_inj_iff.1 he
    omega
  have hat := (arrived_iff _).1 (h (fun _ => .int 0) fun _ => .inl rfl) i nm hnm
  rwa [List.getElem?_eq_none (by simpa using hi), Option.none_or, due, if_neg hnot] at hat

end Order

/-- A token that the parser takes for a value, and the value. -/
def ValueToken (stod : Str → Option Binary64) (platform : Platform) (decl : Tree) (raw : Str) (v : Var) : Prop :=
  form (buildDeclInfo platform (some decl)) raw = .value ∧ parseValue stod raw = some v

/-- The text of a bit is a token. -/
theorem bit_token (stod : Str → Option Binary64) (platform : Platform) (decl : Tree) {v : Var} (h : IsBit v) :
    ValueToken stod platform decl (v.toString platform) v := by
  rcases h with rfl | rfl
  · exact ⟨rfl, rfl⟩
  · exact ⟨rfl, rfl⟩

/-- **Parameters by name.** In the order of the declaration the values reach the callable. Given by name, as a
dictionary or as tokens, they and the defaults of the others reach it for all values exactly when they are the
first parameters in their order, and the defaults of the others stand at their positions. -/
theorem named_order (stod : Str → Option Binary64) (platform : Platform) (decl ctx : Tree) {names : List Str}
    (hplain : ∀ nm ∈ params platform decl, isName nm = true) (hnodup : (params platform decl).Nodup)
    (hmem : ∀ nm ∈ names, nm ∈ params platform decl) (hn : names.Nodup) :
    (∀ (vals : Str → Var) (raws : Str → Str),
      (∀ nm ∈ params platform decl, ValueToken stod platform decl (raws nm) (vals nm)) →
      passed stod platform decl ctx (tokensOf ((params platform decl).map raws)) =
        some ((params platform decl).map vals)) ∧
    ((∀ vals : Str → Var, passed stod platform decl ctx (.dict (names.map fun nm => (nm, vals nm))) =
        some ((params platform decl).map (due decl names vals))) ↔ InOrder platform decl names) ∧
    ((∀ nm ∈ names, 61 ∉ nm) →
      ((∀ (vals : Str → Var) (raws : Str → Str),
        (∀ nm ∈ names, ValueToken stod platform decl (raws nm) (vals nm)) →
        passed stod platform decl ctx (tokensOf (namedTokens (names.map fun nm => (nm, raws nm)))) =
          some ((params platform decl).map (due decl names vals))) ↔ InOrder platform decl names)) := by
  have hfresh : ∀ (l : List Str) (vals : Str → Var), (∀ nm ∈ l, nm ∈ params platform decl) → l.Nodup →
      Fresh (l.map fun nm => (nm, vals nm)) := by
    intro l vals hl hl'
    refine ⟨by simpa using fun nm hnm => hplain nm (hl nm hnm), ?_⟩
    simpa [List.map_map, Function.comp_def] using hl'
  refine ⟨?_, ?_, ?_⟩
  · exact fun vals raws hvalue => passed_positional (hfresh _ vals (fun _ h => h) hnodup) hvalue
  · have hdict : ∀ vals, passed stod platform decl ctx (.dict (names.map fun nm => (nm, vals nm))) =
        some (arrived decl (params platform decl).length (names.map vals)) := by
      intro vals
      rw [passed_dict (hfresh names vals hmem hn) (by simpa using hmem), List.map_map]
      rfl
    simp only [hdict, Option.some.injEq]
    exact ⟨fun h => inOrder_of_arrived hnodup hn hmem fun vals _ => h vals, fun h => h.arrived hnodup⟩
  · intro heq
    have htokens : ∀ (vals : Str → Var) (raws : Str → Str),
        (∀ nm ∈ names, ValueToken stod platform decl (raws nm) (vals nm)) →
        passed stod platform decl ctx (tokensOf (namedTokens (names.map fun nm => (nm, raws nm)))) =
          some (arrived decl (params platform decl).length (names.map vals)) :=
      fun vals raws hvalue =>
        passed_named (hfresh names vals hmem hn) (fun nm hnm => ⟨hmem nm hnm, heq nm hnm⟩) hvalue
    constructor
    · intro h
      refine inOrder_of_arrived hnodup hn hmem fun vals hbits => ?_
      have hvalue : ∀ nm ∈ names, ValueToken stod platform decl ((vals nm).toString platform) (vals nm) :=
        fun nm _ => bit_token stod platform decl (hbits nm)
      have hsame := h vals (fun nm => (vals nm).toString platform) hvalue
      rw [htokens vals (fun nm => (vals nm).toString platform) hvalue] at hsame
      exact Option.some.inj hsame
    · exact fun h vals raws hvalue => by rw [htokens vals raws hvalue, h.arrived hnodup vals]

/-- A declaration of `a` and `b`, whose default is 5. -/
def twoParams : Tree :=
  .node (ascii "declare") .none [Tree.blank (ascii "a"), (Tree.blank (ascii "b")).set (.int 5)]

theorem named_order_sample :
    passed (fun _ => none) ⟨fun _ => [], fun _ => [], fun _ => 0, fun _ => 0⟩ twoParams (Tree.blank [])
      (.dict [(ascii "a", .int 3)]) = some [.int 3, .int 5] := by
  have horder : InOrder ⟨fun _ => [], fun _ => [], fun _ => 0, fun _ => 0⟩ twoParams [ascii "a"] := by
    refine ⟨rfl, fun i nm hi hnm => ?_⟩
    match i with
    | 0 => cases hi
    | 1 =>
      cases hnm
      rfl
    | i + 2 => cases hnm
  exact (named_order (fun _ => none) ⟨fun _ => [], fun _ => [], fun _ => 0, fun _ => 0⟩ twoParams (Tree.blank [])
    (by decide) (by decide) (by decide) (List.nodup_singleton (ascii "a"))).2.1.2 horder fun _ => .int 3

/-- Two parameters by name in the other order change places. -/
theorem named_changes_places : ¬ ∀ (stod : Str → Option Binary64) (platform : Platform) (decl ctx : Tree)
    (names : List Str) (vals : Str → Var), (params platform decl).Nodup → names.Perm (params platform decl) →
    passed stod platform decl ctx (.dict (names.map fun nm => (nm, vals nm))) =
      some ((params platform decl).map vals) := by
  intro h
  have heq := h (fun _ => none) ⟨fun _ => [], fun _ => [], fun _ => 0, fun _ => 0⟩ twoParams (Tree.blank [])
    [ascii "b", ascii "a"] (fun nm => if nm = ascii "a" then .int 1 else .int 2) (by decide) (by decide)
  have hgot : (some [Var.int 2, Var.int 1] : Option (List Var)) = some [.int 1, .int 2] := heq
  simp at hgot

end VersatileEngine.Command
