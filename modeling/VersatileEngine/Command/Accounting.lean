import Mathlib.Data.Finset.Max
import VersatileEngine.Command.Args

/-!
# VersatileEngine.Command.Accounting

What becomes of the tokens of a command.

* `items`          — what a list of tokens says: parameters given by name, values without a name, and
  keywords that another keyword follows before they have a value.
* `Accounted`      — every token has its place in the context.
* `Separate`       — no two of the tokens get in each other's way.
* `parse_accounts` — `parseArgs` accounts for the tokens exactly when they are `Separate`.
-/

namespace VersatileEngine.Command

variable (stod : Str → Option Binary64) (info : DeclInfo)

/-- The four forms of a token, two of them for the parser. -/
inductive Form where
  | inline (name raw : Str)
  | keyword (name : Str)
  | value

def form (token : Str) : Form :=
  match inlineForm info token with
  | some (name, raw) => .inline name raw
  | none => if isKeyword info token ≠ [] then .keyword (isKeyword info token) else .value

/-- `given` is a parameter with its value, or without one at the end of the tokens. -/
inductive Item where
  | given (name : Str) (raw : Option Str)
  | displaced (name : Str)
  | free (raw : Str)

/-- The parameter that is given by name. -/
def Item.name? : Item → Option Str
  | given nm _ => some nm
  | displaced nm => some nm
  | free _ => none

/-- The value that it should have; a keyword alone is `true`. -/
def Item.value : Item → Option Var
  | given _ (some raw) => parseValue stod raw
  | given _ none => some (.bool true)
  | displaced _ => some (.bool true)
  | free raw => parseValue stod raw

/-- What the tokens say, after a keyword that may have no value yet. -/
def items : Option Str → List Str → List Item
  | pending, [] => pending.toList.map fun nm => .given nm none
  | pending, token :: tokens =>
    match form info token with
    | .inline nm raw => pending.toList.map .displaced ++ .given nm (some raw) :: items none tokens
    | .keyword nm => pending.toList.map .displaced ++ items (some nm) tokens
    | .value =>
      match pending with
      | some nm => .given nm (some token) :: items none tokens
      | none => .free token :: items none tokens

/-- The values without a name. -/
def frees : List Item → List Str
  | [] => []
  | .free raw :: its => raw :: frees its
  | .given _ _ :: its => frees its
  | .displaced _ :: its => frees its

end VersatileEngine.Command

namespace VersatileEngine.Tree

/-- The value of the parameter `nm`, the first child of that name. -/
def valueOf (t : Tree) (nm : Str) : Option Var := (t.kids.find? fun k => k.name = nm).map Tree.value

/-- The values of the anonymous children. -/
def extras (t : Tree) : List Var := (t.kids.filter fun k => k.name = []).map Tree.value

end VersatileEngine.Tree

namespace VersatileEngine.Command

section Spec

variable (stod : Str → Option Binary64) (info : DeclInfo) (its : List Item)

/-- Each parameter given by name has its value. The values without a name are those of the positional
parameters in their order, none of which is given by name as well, and of the extras. -/
structure Accounted (ctx : Tree) : Prop where
  named : ∀ it ∈ its, ∀ nm, it.name? = some nm → ∃ v, it.value stod = some v ∧ ctx.valueOf nm = some v
  positional : ∀ j raw nm, (frees its)[j]? = some raw → info.paramOrder[j]? = some nm →
    (∃ v, parseValue stod raw = some v ∧ ctx.valueOf nm = some v) ∧
      (∀ it ∈ its, it.name? ≠ some nm) ∧ nm ∉ info.paramOrder.take j
  extras : ctx.extras.map some = ((frees its).drop info.paramOrder.length).map (parseValue stod)

/-- The names of the parameters that the tokens are for. -/
def used : List Str := its.filterMap Item.name? ++ info.paramOrder.take (frees its).length

/-- The condition on the tokens: the values can be read; the parameters have names without separators;
two tokens for the same parameter say the same; a keyword that another one displaces is given once more;
and no value without a name goes to a parameter that has its value already. -/
structure Separate : Prop where
  values : ∀ it ∈ its, it.value stod ≠ none
  plain : ∀ nm ∈ used info its, isName nm = true
  agree : ∀ a ∈ its, ∀ b ∈ its, a.name? ≠ none → a.name? = b.name? → a.value stod = b.value stod
  kept : ∀ nm, .displaced nm ∈ its → ∃ raw, .given nm raw ∈ its
  cursor : ∀ j nm, j < (frees its).length → info.paramOrder[j]? = some nm →
    (∀ it ∈ its, it.name? ≠ some nm) ∧ nm ∉ info.paramOrder.take j

end Spec

/-! ### The writes -/

section Writes

variable (stod : Str → Option Binary64) (info : DeclInfo)

/-- A value that goes to a parameter, or to a new extra. -/
structure Write where
  target : Option Str
  value : Option Var

def Write.perform (ctx : Tree) (w : Write) : Option Tree :=
  w.value.bind fun v =>
    match w.target with
    | some nm => ctx.atPath nm fun t => t.set v
    | none => (Tree.ensureIndex ctx.kids ctx.kids.length).bind fun (ks, i) =>
        ks[i]?.map fun k => .node ctx.name ctx.value (ks.set i (k.set v))

def performAll (ctx : Tree) : List Write → Option Tree
  | [] => some ctx
  | w :: ws => (w.perform ctx).bind fun ctx => performAll ctx ws

/-- What the parser does for the items, with the cursor at `pos`. -/
def writes (pos : Nat) : List Item → List Write
  | [] => []
  | .given nm raw :: its => ⟨some nm, (Item.given nm raw).value stod⟩ :: writes pos its
  | .displaced _ :: its => writes pos its
  | .free raw :: its => ⟨info.paramOrder[pos]?, parseValue stod raw⟩ :: writes (pos + 1) its

variable {stod} {info}

theorem store_eq (ctx : Tree) (nm raw : Str) :
    store stod ctx nm raw = Write.perform ctx ⟨some nm, parseValue stod raw⟩ := rfl

theorem storeExtra_eq (ctx : Tree) (raw : Str) :
    storeExtra stod ctx raw = Write.perform ctx ⟨none, parseValue stod raw⟩ := rfl

theorem writes_displaced (pos : Nat) (pending : Option Str) (its : List Item) :
    writes stod info pos (pending.toList.map .displaced ++ its) = writes stod info pos its := by
  cases pending <;> rfl

theorem form_inline {token nm raw : Str} (h : inlineForm info token = some (nm, raw)) :
    form info token = .inline nm raw := by rw [form, h]

theorem form_other {token : Str} (h : inlineForm info token = none) :
    form info token = if isKeyword info token ≠ [] then .keyword (isKeyword info token) else .value := by
  rw [form, h]

theorem items_cons (pending : Option Str) (token : Str) (tokens : List Str) :
    items info pending (token :: tokens) = match form info token with
      | .inline nm raw => pending.toList.map .displaced ++ .given nm (some raw) :: items info none tokens
      | .keyword nm => pending.toList.map .displaced ++ items info (some nm) tokens
      | .value =>
        match pending with
        | some nm => .given nm (some token) :: items info none tokens
        | none => .free token :: items info none tokens := by
  rw [items.eq_def]

/-- Once the cursor is past the parameters, it does not matter how far. -/
theorem writes_past {its : List Item} : ∀ {pos pos' : Nat}, info.paramOrder.length ≤ pos →
    info.paramOrder.length ≤ pos' → writes stod info pos its = writes stod info pos' its := by
  induction its with
  | nil => exact fun _ _ => rfl
  | cons it its ih =>
    intro pos pos' h h'
    cases it with
    | given nm raw => rw [writes, writes, ih h h']
    | displaced nm => rw [writes, writes, ih h h']
    | free raw =>
      rw [writes, writes, List.getElem?_eq_none h, List.getElem?_eq_none h',
        ih (Nat.le_succ_of_le h) (Nat.le_succ_of_le h')]

/-- The parser performs the writes. -/
theorem run_eq {tokens : List Str} : ∀ {ctx : Tree} {pending : Option Str} {pos : Nat},
    pending ≠ some [] → (Parser.run stod info ⟨ctx, pending.getD [], pos⟩ tokens).bind Parser.finish =
      performAll ctx (writes stod info pos (items info pending tokens)) := by
  induction tokens with
  | nil =>
    intro ctx pending pos hp
    cases pending with
    | none => rfl
    | some nm =>
      have hne : nm ≠ [] := fun he => hp (congrArg some he)
      show Parser.finish ⟨ctx, nm, pos⟩ = (Write.perform ctx ⟨some nm, some (.bool true)⟩).bind some
      rw [Parser.finish, if_pos hne, Option.bind_fun_some]
      rfl
  | cons token tokens ih =>
    intro ctx pending pos hp
    rw [Parser.run, Option.bind_assoc, items_cons, Parser.step]
    cases hin : inlineForm info token with
    | some r =>
      obtain ⟨nm, raw⟩ := r
      rw [form_inline hin]
      simp only [writes_displaced, writes, performAll, store_eq, Option.bind_map]
      refine Option.bind_congr fun ctx' _ => ?_
      exact @ih ctx' none pos nofun
    | none =>
      rw [form_other hin]
      by_cases hkey : isKeyword info token ≠ []
      · simp only [if_pos hkey, Option.bind_some, writes_displaced]
        exact @ih ctx (some (isKeyword info token)) pos fun he => hkey (Option.some.inj he)
      · simp only [if_neg hkey]
        cases pending with
        | some nm =>
          have hne : nm ≠ [] := fun he => hp (congrArg some he)
          simp only [Option.getD_some, if_pos hne, writes, performAll, store_eq, Option.bind_map]
          refine Option.bind_congr fun ctx' _ => ?_
          exact @ih ctx' none pos nofun
        | none =>
          simp only [Option.getD_none, ne_eq, not_true_eq_false, if_false, writes, performAll]
          cases hnm : info.paramOrder[pos]? with
          | some nm =>
            simp only [store_eq, Option.bind_map]
            refine Option.bind_congr fun ctx' _ => ?_
            exact @ih ctx' none (pos + 1) nofun
          | none =>
            simp only [storeExtra_eq, Option.bind_map]
            refine Option.bind_congr fun ctx' _ => ?_
            have hpast : info.paramOrder.length ≤ pos := List.getElem?_eq_none_iff.mp hnm
            rw [← writes_past hpast (Nat.le_succ_of_le hpast)]
            exact @ih ctx' none pos nofun

/-! ### What the writes do -/

theorem mem_writes {its : List Item} {w : Write} : ∀ {pos : Nat}, w ∈ writes stod info pos its ↔
    (∃ nm raw, .given nm raw ∈ its ∧ w = ⟨some nm, (Item.given nm raw).value stod⟩) ∨
      ∃ j raw, (frees its)[j]? = some raw ∧ w = ⟨info.paramOrder[pos + j]?, parseValue stod raw⟩ := by
  induction its with
  | nil => simp [writes, frees]
  | cons it its ih =>
    intro pos
    cases it with
    | given nm raw =>
      rw [writes, List.mem_cons, ih, frees]
      constructor
      · rintro (rfl | ⟨nm', raw', hm, rfl⟩ | h)
        · exact .inl ⟨nm, raw, List.mem_cons_self .., rfl⟩
        · exact .inl ⟨nm', raw', List.mem_cons_of_mem _ hm, rfl⟩
        · exact .inr h
      · rintro (⟨nm', raw', hm, rfl⟩ | h)
        · rcases List.mem_cons.mp hm with he | hm
          · cases he
            exact .inl rfl
          · exact .inr (.inl ⟨nm', raw', hm, rfl⟩)
        · exact .inr (.inr h)
    | displaced nm =>
      rw [writes, ih, frees]
      simp
    | free raw =>
      rw [writes, List.mem_cons, ih, frees]
      constructor
      · rintro (rfl | ⟨nm', raw', hm, rfl⟩ | ⟨j, raw', hj, rfl⟩)
        · exact .inr ⟨0, raw, rfl, rfl⟩
        · exact .inl ⟨nm', raw', List.mem_cons_of_mem _ hm, rfl⟩
        · exact .inr ⟨j + 1, raw', hj, by rw [Nat.add_assoc, Nat.add_comm 1]⟩
      · rintro (⟨nm', raw', hm, rfl⟩ | ⟨j, raw', hj, rfl⟩)
        · rcases List.mem_cons.mp hm with he | hm
          · cases he
          · exact .inr (.inl ⟨nm', raw', hm, rfl⟩)
        · cases j with
          | zero =>
            cases hj
            exact .inl rfl
          | succ j => exact .inr (.inr ⟨j, raw', hj, by rw [Nat.add_assoc, Nat.add_comm 1]⟩)

/-- The values that become extras. -/
theorem writes_extras {its : List Item} : ∀ {pos : Nat},
    ((writes stod info pos its).filter fun w => w.target = none).map Write.value =
      ((frees its).drop (info.paramOrder.length - pos)).map (parseValue stod) := by
  induction its with
  | nil => intro pos; simp [writes, frees]
  | cons it its ih =>
    intro pos
    cases it with
    | given nm raw => rw [writes, frees, List.filter_cons_of_neg (by simp), ih]
    | displaced nm => rw [writes, frees, ih]
    | free raw =>
      rw [writes, frees]
      by_cases hpos : pos < info.paramOrder.length
      · have hdrop : info.paramOrder.length - pos = info.paramOrder.length - (pos + 1) + 1 := by omega
        rw [List.filter_cons_of_neg (by simpa using hpos), ih, hdrop, List.drop_succ_cons]
      · have hnow : info.paramOrder.length - pos = 0 := by omega
        have hnext : info.paramOrder.length - (pos + 1) = 0 := by omega
        rw [List.filter_cons_of_pos (by simpa using hpos), List.map_cons, ih, hnow, hnext]
        rfl

/-- One child in place of another of the same name. -/
theorem valueOf_replace {nm' : Str} {v' : Var} {a b : List Tree} {k k' : Tree} {nm : Str} (hk : k.name = nm)
    (hk' : k'.name = nm) (ha : ∀ x ∈ a, x.name ≠ nm) (x : Str) :
    (Tree.node nm' v' (a ++ k' :: b)).valueOf x =
      if x = nm then some k'.value else (Tree.node nm' v' (a ++ k :: b)).valueOf x := by
  simp only [Tree.valueOf, Tree.kids_node, List.find?_append, List.find?_cons, hk, hk']
  by_cases hx : x = nm
  · have hnone : a.find? (fun k => decide (k.name = nm)) = none := by simpa using ha
    subst hx
    simp [hnone]
  · simp [hx, Ne.symm hx]

theorem valueOf_push (nm' : Str) (v' : Var) {ks : List Tree} {k : Tree} (h : ∀ x ∈ ks, x.name ≠ k.name)
    (x : Str) : (Tree.node nm' v' (ks ++ [k])).valueOf x =
      if x = k.name then some k.value else (Tree.node nm' v' ks).valueOf x := by
  simp only [Tree.valueOf, Tree.kids_node, List.find?_append, List.find?_cons, List.find?_nil]
  by_cases hx : x = k.name
  · have hnone : ks.find? (fun y => decide (y.name = k.name)) = none := by simpa using h
    subst hx
    simp [hnone]
  · simp [hx, Ne.symm hx]

theorem perform_named {ctx : Tree} {nm : Str} (hn : isName nm = true) (v : Var) :
    ∃ ctx', Write.perform ctx ⟨some nm, some v⟩ = some ctx' ∧
      (∀ x, ctx'.valueOf x = if x = nm then some v else ctx.valueOf x) ∧ ctx'.extras = ctx.extras := by
  have hne := (isName_spec hn).1
  have hrun : Write.perform ctx ⟨some nm, some v⟩ = ctx.atPath nm fun t => t.set v := rfl
  rw [hrun]
  cases hf : ctx.kids.find? (fun k => k.name = nm) with
  | some k =>
    obtain ⟨hk, a, b, hkids, ha⟩ := List.find?_eq_some_iff_append.mp hf
    have hk : k.name = nm := by simpa using hk
    have ha : ∀ x ∈ a, x.name ≠ nm := by simpa using ha
    refine ⟨_, Tree.atPath_found hn hkids ha hk, fun x => ?_, ?_⟩
    · rw [valueOf_replace hk (by simpa using hk) ha x, Tree.set_value, ← hkids, Tree.eta]
    · simp [Tree.extras, hkids, hk, hne]
  | none =>
    have hnone : ∀ x ∈ ctx.kids, x.name ≠ nm := by simpa using hf
    refine ⟨_, Tree.atPath_new hn hnone, fun x => ?_, ?_⟩
    · rw [valueOf_push _ _ hnone x, Tree.eta]
      rfl
    · have hblank : ((Tree.blank nm).set v).name = nm := rfl
      simp [Tree.extras, hblank, hne]

theorem perform_extra (ctx : Tree) (v : Var) :
    ∃ ctx', Write.perform ctx ⟨none, some v⟩ = some ctx' ∧
      (∀ x, x ≠ [] → ctx'.valueOf x = ctx.valueOf x) ∧ ctx'.extras = ctx.extras ++ [v] := by
  have hblank : ((Tree.blank []).set v).name = [] := rfl
  refine ⟨.node ctx.name ctx.value (ctx.kids ++ [(Tree.blank []).set v]), ?_, fun x hx => ?_, ?_⟩
  · rw [Write.perform, Option.bind_some]
    simp only [Tree.ensureIndex_end, Option.bind_some]
    simp
  · simp [Tree.valueOf, List.find?_append, hblank, Ne.symm hx]
  · simp [Tree.extras, hblank]

/-- Writes to parameters with plain names. -/
theorem performAll_plain {ws : List Write} : ∀ {ctx : Tree}, (∀ w ∈ ws, w.value ≠ none) →
    (∀ w ∈ ws, ∀ nm, w.target = some nm → isName nm = true) →
    ∃ ctx', performAll ctx ws = some ctx' ∧
      (∀ nm v, nm ≠ [] → (∀ w ∈ ws, w.target = some nm → w.value = some v) →
        (ctx.valueOf nm = some v ∨ ∃ w ∈ ws, w.target = some nm) → ctx'.valueOf nm = some v) ∧
      ctx'.extras.map some = ctx.extras.map some ++
        (ws.filter fun w => w.target = none).map Write.value := by
  induction ws with
  | nil => exact fun {ctx} _ _ => ⟨ctx, rfl, fun nm v _ _ h => by simpa using h, by simp⟩
  | cons w ws ih =>
    intro ctx hvalue hplain
    rw [List.forall_mem_cons] at hvalue hplain
    obtain ⟨target, value⟩ := w
    obtain ⟨v, rfl⟩ := Option.ne_none_iff_exists'.mp hvalue.1
    cases target with
    | some nm =>
      obtain ⟨ctx₁, hr₁, hv₁, he₁⟩ := @perform_named ctx nm (hplain.1 nm rfl) v
      obtain ⟨ctx', hr, hv, he⟩ := @ih ctx₁ hvalue.2 hplain.2
      refine ⟨ctx', by rw [performAll, hr₁, Option.bind_some, hr], fun x u hx hall hex => ?_, ?_⟩
      · rw [List.forall_mem_cons] at hall
        refine hv x u hx hall.2 ?_
        rw [hv₁ x]
        by_cases hxn : x = nm
        · subst hxn
          rw [if_pos rfl]
          exact .inl (hall.1 rfl)
        · rw [if_neg hxn]
          rcases hex with h | ⟨w, hw, ht⟩
          · exact .inl h
          · rcases List.mem_cons.mp hw with rfl | hw
            · exact absurd (Option.some.inj ht).symm hxn
            · exact .inr ⟨w, hw, ht⟩
      · rw [he, he₁, List.filter_cons_of_neg (by simp)]
    | none =>
      obtain ⟨ctx₁, hr₁, hv₁, he₁⟩ := perform_extra ctx v
      obtain ⟨ctx', hr, hv, he⟩ := @ih ctx₁ hvalue.2 hplain.2
      refine ⟨ctx', by rw [performAll, hr₁, Option.bind_some, hr], fun x u hx hall hex => ?_, ?_⟩
      · rw [List.forall_mem_cons] at hall
        refine hv x u hx hall.2 ?_
        rw [hv₁ x hx]
        rcases hex with h | ⟨w, hw, ht⟩
        · exact .inl h
        · rcases List.mem_cons.mp hw with rfl | hw
          · cases ht
          · exact .inr ⟨w, hw, ht⟩
      · rw [he, he₁, List.filter_cons_of_pos (by simp)]
        simp

/-- Every child that the writes make was asked for by a parameter of its name, or by one with a longer
name that is no plain one. -/
theorem performAll_kids {ws : List Write} : ∀ {ctx ctx' : Tree}, performAll ctx ws = some ctx' →
    (∀ w ∈ ws, w.target ≠ some []) → ∀ k ∈ ctx'.kids, (∃ k' ∈ ctx.kids, k'.name = k.name) ∨ k.name = [] ∨
      ∃ w ∈ ws, ∃ nm, w.target = some nm ∧
        (isName nm = true ∧ k.name = nm ∨ isName nm = false ∧ k.name.length < nm.length) := by
  induction ws with
  | nil =>
    intro ctx ctx' h _ k hk
    cases h
    exact .inl ⟨k, hk, rfl⟩
  | cons w ws ih =>
    intro ctx ctx' h hne k hk
    rw [List.forall_mem_cons] at hne
    obtain ⟨ctx₁, hw, h⟩ := Option.bind_eq_some_iff.mp h
    rcases ih h hne.2 k hk with ⟨k₁, hk₁, hn₁⟩ | hnil | ⟨w', hw', hx⟩
    · obtain ⟨target, value⟩ := w
      obtain ⟨v, -, hw⟩ := Option.bind_eq_some_iff.mp hw
      cases target with
      | some nm =>
        have hpath := Tree.atPath_kids (f := fun t => t.set v) (fun t => Tree.set_name t v)
          (fun t => Tree.set_kids t v) (fun he => hne.1 (congrArg some he)) hw hk₁
        rw [hn₁] at hpath
        rcases hpath with hold | hnil | hnew
        · exact .inl hold
        · exact .inr (.inl hnil)
        · exact .inr (.inr ⟨_, List.mem_cons_self .., nm, rfl, hnew⟩)
      | none =>
        simp only [Tree.ensureIndex_end, Option.bind_some] at hw
        rw [List.getElem?_concat_length, Option.map_some, List.set_append_right _ _ (Nat.le_refl _),
          Nat.sub_self, List.set_cons_zero] at hw
        cases hw
        rcases List.mem_append.mp hk₁ with hk₁ | hk₁
        · exact .inl ⟨k₁, hk₁, hn₁⟩
        · rw [← hn₁, List.mem_singleton.mp hk₁]
          exact .inr (.inl rfl)
    · exact .inr (.inl hnil)
    · exact .inr (.inr ⟨w', List.mem_cons_of_mem _ hw', hx⟩)

end Writes

/-! ### Names -/

section Names

variable {info : DeclInfo}

/-- No declared parameter is without a name. -/
structure DeclInfo.Named (info : DeclInfo) : Prop where
  paramOrder : [] ∉ info.paramOrder
  longNames : [] ∉ info.longNames

theorem DeclInfo.Named.add {platform : Platform} (h : info.Named) (param : Tree) :
    (info.add platform param).Named := by
  simp only [DeclInfo.add]
  split_ifs with hskip
  · exact h
  · rw [not_or] at hskip
    have hlong : [] ∉ param.name :: info.longNames := by simpa [Ne.symm hskip.1] using h.longNames
    split
    · split_ifs <;> exact ⟨h.paramOrder, hlong⟩
    · exact ⟨by simpa [Ne.symm hskip.1] using h.paramOrder, hlong⟩

theorem buildDeclInfo_named (platform : Platform) (decl : Option Tree) :
    (buildDeclInfo platform decl).Named := by
  have hempty : DeclInfo.empty.Named := ⟨by simp [DeclInfo.empty], by simp [DeclInfo.empty]⟩
  cases decl with
  | none => exact hempty
  | some decl =>
    exact List.foldlRecOn decl.kids (DeclInfo.add platform) hempty fun info h param _ => h.add param

theorem inlineForm_declared {token nm raw : Str} (h : inlineForm info token = some (nm, raw)) :
    nm ∈ info.longNames := by
  rw [inlineForm] at h
  split_ifs at h
  split at h
  · split_ifs at h with hm
    cases h
    exact hm
  · cases h

/-- What holds of every item that the tokens make, where the keywords that wait for a value have `Q`. -/
theorem items_forall {P : Item → Prop} {Q : Str → Prop}
    (hwaits : ∀ nm, Q nm → P (.given nm none) ∧ P (.displaced nm)) {tokens : List Str}
    (hinline : ∀ token ∈ tokens, ∀ nm raw, inlineForm info token = some (nm, raw) → P (.given nm (some raw)))
    (hkeyword : ∀ token ∈ tokens, isKeyword info token ≠ [] → Q (isKeyword info token))
    (hvalue : ∀ token ∈ tokens, form info token = .value →
      P (.free token) ∧ ∀ nm, Q nm → P (.given nm (some token))) :
    ∀ {pending : Option Str}, (∀ nm, pending = some nm → Q nm) → ∀ it ∈ items info pending tokens, P it := by
  induction tokens with
  | nil =>
    intro pending hp it hit
    obtain ⟨nm, hnm, rfl⟩ := List.mem_map.mp hit
    exact (hwaits nm (hp nm (Option.mem_toList.mp hnm))).1
  | cons token tokens ih =>
    intro pending hp it hit
    rw [List.forall_mem_cons] at hinline hkeyword hvalue
    have hnone : ∀ nm, (none : Option Str) = some nm → Q nm := fun nm h => absurd h (Option.some_ne_none nm).symm
    have hrest := @ih hinline.2 hkeyword.2 hvalue.2
    have hdisplaced : it ∈ pending.toList.map Item.displaced → P it := by
      intro hm
      obtain ⟨nm, hnm, rfl⟩ := List.mem_map.mp hm
      exact (hwaits nm (hp nm (Option.mem_toList.mp hnm))).2
    rw [items_cons] at hit
    cases hin : inlineForm info token with
    | some r =>
      obtain ⟨nm, raw⟩ := r
      rw [form_inline hin] at hit
      rcases List.mem_append.mp hit with hm | hm
      · exact hdisplaced hm
      · rcases List.mem_cons.mp hm with rfl | hm
        · exact hinline.1 nm raw hin
        · exact hrest hnone it hm
    | none =>
      rw [form_other hin] at hit
      by_cases hkey : isKeyword info token ≠ []
      · rw [if_pos hkey] at hit
        rcases List.mem_append.mp hit with hm | hm
        · exact hdisplaced hm
        · refine hrest (fun nm hnm => ?_) it hm
          cases hnm
          exact hkeyword.1 hkey
      · rw [if_neg hkey] at hit
        have hnow := hvalue.1 (by rw [form_other hin, if_neg hkey])
        cases pending with
        | none =>
          rcases List.mem_cons.mp hit with rfl | hm
          · exact hnow.1
          · exact hrest hnone it hm
        | some nm =>
          rcases List.mem_cons.mp hit with rfl | hm
          · exact hnow.2 nm (hp nm rfl)
          · exact hrest hnone it hm

theorem items_named (h : info.Named) {tokens : List Str} {pending : Option Str} (hp : pending ≠ some []) :
    ∀ it ∈ items info pending tokens, it.name? ≠ some [] := by
  have hname : ∀ nm : Str, nm ≠ [] → some nm ≠ some [] := fun nm hnm he => hnm (Option.some.inj he)
  refine @items_forall info _ (· ≠ []) (fun nm hnm => ⟨hname nm hnm, hname nm hnm⟩) tokens ?_ ?_ ?_ pending ?_
  · exact fun token _ nm raw hin => hname nm fun he => h.longNames (he ▸ inlineForm_declared hin)
  · exact fun token _ hkey => hkey
  · exact fun token _ _ => ⟨(Option.some_ne_none _).symm, hname⟩
  · exact fun nm hnm he => hp (he ▸ hnm)

theorem mem_frees {its : List Item} {raw : Str} : raw ∈ frees its ↔ .free raw ∈ its := by
  induction its with
  | nil => simp [frees]
  | cons it its ih => cases it <;> simp [frees, ih]

end Names

/-! ### The tokens and the context -/

section Accounts

variable {stod : Str → Option Binary64} {info : DeclInfo} {its : List Item} {ctx ctx' : Tree}

theorem target_used {w : Write} {nm : Str} (hw : w ∈ writes stod info 0 its) (ht : w.target = some nm) :
    nm ∈ used info its := by
  rcases mem_writes.mp hw with ⟨x, raw, hm, rfl⟩ | ⟨j, raw, hj, rfl⟩
  · exact List.mem_append_left _ (List.mem_filterMap.mpr ⟨_, hm, ht⟩)
  · rw [Nat.zero_add] at ht
    have hlt := (List.getElem?_eq_some_iff.mp hj).1
    refine List.mem_append_right _ (List.mem_of_getElem? (i := j) ?_)
    rwa [List.getElem?_take_of_lt hlt]

/-- Every parameter that a token is for has a child. -/
theorem Accounted.child (h : Accounted stod info its ctx') {nm : Str} (hm : nm ∈ used info its) :
    ∃ k ∈ ctx'.kids, k.name = nm := by
  have hvalue : ∃ v, ctx'.valueOf nm = some v := by
    rcases List.mem_append.mp hm with hm | hm
    · obtain ⟨it, hit, hn⟩ := List.mem_filterMap.mp hm
      obtain ⟨v, -, hv⟩ := h.named it hit nm hn
      exact ⟨v, hv⟩
    · obtain ⟨j, hj⟩ := List.getElem?_of_mem hm
      have hlt : j < (frees its).length := by
        have := (List.getElem?_eq_some_iff.mp hj).1
        rw [List.length_take] at this
        omega
      rw [List.getElem?_take_of_lt hlt] at hj
      obtain ⟨⟨v, -, hv⟩, -⟩ := h.positional j _ nm (List.getElem?_eq_getElem hlt) hj
      exact ⟨v, hv⟩
  obtain ⟨v, hv⟩ := hvalue
  obtain ⟨k, hk, -⟩ := Option.map_eq_some_iff.mp hv
  exact ⟨k, List.mem_of_find?_eq_some hk, by simpa using List.find?_some hk⟩

theorem Accounted.separate (hnamed : ∀ nm ∈ used info its, nm ≠ []) (hkids : ctx.kids = [])
    (hrun : performAll ctx (writes stod info 0 its) = some ctx') (h : Accounted stod info its ctx') :
    Separate stod info its := by
  have htarget : ∀ w ∈ writes stod info 0 its, w.target ≠ some [] := fun w hw ht =>
    hnamed [] (target_used hw ht) rfl
  -- a child of a parameter comes from a write
  have hfrom : ∀ nm ∈ used info its, ∃ w ∈ writes stod info 0 its, ∃ x, w.target = some x ∧
      (isName x = true ∧ nm = x ∨ isName x = false ∧ nm.length < x.length) := by
    intro nm hnm
    obtain ⟨k, hk, rfl⟩ := h.child hnm
    rcases performAll_kids hrun htarget k hk with ⟨k', hk', -⟩ | hnil | hw
    · rw [hkids] at hk'
      cases hk'
    · exact absurd hnil (hnamed _ hnm)
    · exact hw
  have hplain : ∀ nm ∈ used info its, isName nm = true := by
    by_contra hbad
    push Not at hbad
    -- the longest of the other names has no child
    obtain ⟨nm, hnm, hmax⟩ := ((used info its).filter fun nm => !isName nm).toFinset.exists_max_image
      List.length (by
        obtain ⟨nm, hnm, hn⟩ := hbad
        exact ⟨nm, by simpa using ⟨hnm, by simpa using hn⟩⟩)
    rw [List.mem_toFinset, List.mem_filter] at hnm
    obtain ⟨w, hw, x, ht, hx⟩ := hfrom nm hnm.1
    rcases hx with ⟨hx, rfl⟩ | ⟨hx, hlt⟩
    · rw [hx] at hnm
      exact absurd hnm.2 (by simp)
    · have := hmax x (by rw [List.mem_toFinset, List.mem_filter, hx]; exact ⟨target_used hw ht, rfl⟩)
      omega
  refine ⟨fun it hit => ?_, hplain, fun a ha b hb hn hab => ?_, fun nm hnm => ?_, fun j nm hj hnm => ?_⟩
  · cases hn : it.name? with
    | some nm =>
      obtain ⟨v, hv, -⟩ := h.named it hit nm hn
      simp [hv]
    | none =>
      cases it with
      | given nm raw => cases hn
      | displaced nm => cases hn
      | free raw =>
        obtain ⟨j, hj⟩ := List.getElem?_of_mem (mem_frees.mpr hit)
        cases hp : info.paramOrder[j]? with
        | some nm =>
          obtain ⟨⟨v, hv, -⟩, -⟩ := h.positional j raw nm hj hp
          show parseValue stod raw ≠ none
          simp [hv]
        | none =>
          have hle := List.getElem?_eq_none_iff.mp hp
          have hmem : parseValue stod raw ∈
              ((frees its).drop info.paramOrder.length).map (parseValue stod) := by
            refine List.mem_map_of_mem (List.mem_of_getElem? (i := j - info.paramOrder.length) ?_)
            rw [List.getElem?_drop, Nat.add_sub_cancel' hle, hj]
          rw [← h.extras] at hmem
          obtain ⟨v, -, hv⟩ := List.mem_map.mp hmem
          show parseValue stod raw ≠ none
          simp [← hv]
  · obtain ⟨nm, hn⟩ := Option.ne_none_iff_exists'.mp hn
    obtain ⟨v, hv, hc⟩ := h.named a ha nm hn
    obtain ⟨v', hv', hc'⟩ := h.named b hb nm (hab ▸ hn)
    rw [hv, hv', ← hc, hc']
  · have hused : nm ∈ used info its := List.mem_append_left _ (List.mem_filterMap.mpr ⟨_, hnm, rfl⟩)
    obtain ⟨w, hw, x, ht, hx⟩ := hfrom nm hused
    rcases hx with ⟨-, rfl⟩ | ⟨hx, -⟩
    · rcases mem_writes.mp hw with ⟨y, raw, hm, rfl⟩ | ⟨j, raw, hj, rfl⟩
      · cases ht
        exact ⟨raw, hm⟩
      · rw [Nat.zero_add] at ht
        exact absurd rfl ((h.positional j raw nm hj ht).2.1 _ hnm)
    · rw [hplain x (target_used hw ht)] at hx
      cases hx
  · obtain ⟨-, hj'⟩ := h.positional j _ nm (List.getElem?_eq_getElem hj) hnm
    exact hj'

/-- The writes to one parameter. -/
theorem Separate.same_parameter (h : Separate stod info its) {j : Nat} {nm : Str}
    (hj : j < (frees its).length) (hnm : info.paramOrder[j]? = some nm) {w : Write}
    (hw : w ∈ writes stod info 0 its) (ht : w.target = some nm) :
    w.value = parseValue stod (frees its)[j] := by
  obtain ⟨hnot, hfirst⟩ := h.cursor j nm hj hnm
  rcases mem_writes.mp hw with ⟨x, raw, hm, rfl⟩ | ⟨j', raw, hj', rfl⟩
  · exact absurd ht (hnot _ hm)
  · rw [Nat.zero_add] at ht
    obtain ⟨hlt', hraw⟩ := List.getElem?_eq_some_iff.mp hj'
    obtain ⟨-, hfirst'⟩ := h.cursor j' nm hlt' ht
    have hbefore : ∀ a b : Nat, info.paramOrder[a]? = some nm → nm ∉ info.paramOrder.take b → ¬ a < b := by
      intro a b ha hb hab
      refine hb (List.mem_of_getElem? (i := a) ?_)
      rwa [List.getElem?_take_of_lt hab]
    have he : j' = j := by
      have := hbefore j' j ht hfirst
      have := hbefore j j' hnm hfirst'
      omega
    subst he
    rw [hraw]

theorem Separate.accounted (hnamed : ∀ nm ∈ used info its, nm ≠ []) (hkids : ctx.kids = [])
    (h : Separate stod info its) :
    ∃ ctx', performAll ctx (writes stod info 0 its) = some ctx' ∧ Accounted stod info its ctx' := by
  have hvalues : ∀ w ∈ writes stod info 0 its, w.value ≠ none := by
    intro w hw
    rcases mem_writes.mp hw with ⟨nm, raw, hm, rfl⟩ | ⟨j, raw, hj, rfl⟩
    · exact h.values _ hm
    · exact h.values _ (mem_frees.mp (List.mem_of_getElem? hj))
  obtain ⟨ctx', hrun, hv, he⟩ := performAll_plain hvalues fun w hw nm ht => h.plain nm (target_used hw ht)
  refine ⟨ctx', hrun, ⟨fun it hit nm hn => ?_, fun j raw nm hj hnm => ?_, ?_⟩⟩
  · have hused : nm ∈ used info its := List.mem_append_left _ (List.mem_filterMap.mpr ⟨it, hit, hn⟩)
    obtain ⟨v, hval⟩ := Option.ne_none_iff_exists'.mp (h.values it hit)
    refine ⟨v, hval, hv nm v (hnamed nm hused) (fun w hw ht => ?_) (.inr ?_)⟩
    · rcases mem_writes.mp hw with ⟨x, raw, hm, rfl⟩ | ⟨j, raw, hj, rfl⟩
      · exact (h.agree _ hm it hit nofun (ht.trans hn.symm)).trans hval
      · rw [Nat.zero_add] at ht
        have hlt := (List.getElem?_eq_some_iff.mp hj).1
        exact absurd hn ((h.cursor j nm hlt ht).1 it hit)
    · have hgiven : ∃ raw, Item.given nm raw ∈ its := by
        cases it with
        | given x raw =>
          cases hn
          exact ⟨raw, hit⟩
        | displaced x =>
          cases hn
          exact h.kept _ hit
        | free raw => cases hn
      obtain ⟨raw, hm⟩ := hgiven
      exact ⟨_, mem_writes.mpr (.inl ⟨nm, raw, hm, rfl⟩), rfl⟩
  · obtain ⟨hlt, hraw⟩ := List.getElem?_eq_some_iff.mp hj
    have hused : nm ∈ used info its := by
      refine List.mem_append_right _ (List.mem_of_getElem? (i := j) ?_)
      rwa [List.getElem?_take_of_lt hlt]
    obtain ⟨v, hval⟩ := Option.ne_none_iff_exists'.mp
      (h.values (.free raw) (mem_frees.mp (List.mem_of_getElem? hj)))
    refine ⟨⟨v, hval, hv nm v (hnamed nm hused) (fun w hw ht => ?_) (.inr ?_)⟩, h.cursor j nm hlt hnm⟩
    · rw [h.same_parameter hlt hnm hw ht, hraw]
      exact hval
    · refine ⟨_, mem_writes.mpr (.inr ⟨j, raw, hj, rfl⟩), ?_⟩
      rw [Nat.zero_add]
      exact hnm
  · have hempty : ctx.extras = [] := by rw [Tree.extras, hkids]; rfl
    rw [he, hempty, writes_extras]
    rfl

end Accounts

/-- **`parseArgs` accounts for the tokens exactly when they are separate.** -/
theorem parse_accounts (stod : Str → Option Binary64) (platform : Platform) (decl : Option Tree)
    (ctx : Tree) (args : List Str) :
    let info := buildDeclInfo platform decl
    (∃ ctx', parseArgs stod platform decl ctx args = some ctx' ∧
      Accounted stod info (items info none args) ctx') ↔ Separate stod info (items info none args) := by
  intro info
  have hinfo : info.Named := buildDeclInfo_named platform decl
  have hnamed : ∀ nm ∈ used info (items info none args), nm ≠ [] := by
    rintro nm hm rfl
    rcases List.mem_append.mp hm with hm | hm
    · obtain ⟨it, hit, hn⟩ := List.mem_filterMap.mp hm
      exact @items_named info hinfo args none nofun it hit hn
    · exact hinfo.paramOrder (List.mem_of_mem_take hm)
  have hrun : parseArgs stod platform decl ctx args =
      performAll (.node ctx.name ctx.value []) (writes stod info 0 (items info none args)) :=
    @run_eq stod info args (.node ctx.name ctx.value []) none 0 nofun
  rw [hrun]
  constructor
  · rintro ⟨ctx', hr, hacc⟩
    exact hacc.separate hnamed rfl hr
  · exact fun hsep => hsep.accounted hnamed rfl

/-- A keyword that another one follows is lost, for it is set to `true` only at the end. -/
theorem parse_loses_keyword : ¬ ∀ (stod : Str → Option Binary64) (platform : Platform) (decl : Option Tree)
    (ctx : Tree) (args : List Str), ∃ ctx', parseArgs stod platform decl ctx args = some ctx' ∧
      Accounted stod (buildDeclInfo platform decl) (items (buildDeclInfo platform decl) none args) ctx' := by
  intro h
  obtain ⟨ctx', hr, hacc⟩ := h (fun _ => none) ⟨fun _ => [], fun _ => [], fun _ => 0, fun _ => 0⟩
    (some (.node (ascii "declare") .none [.blank (ascii "force"), .blank (ascii "file")]))
    (.blank (ascii "_ctx")) [ascii "--force", ascii "--file", ascii "a"]
  have hctx : ctx' = .node (ascii "_ctx") .none [.node (ascii "file") (.string (ascii "a")) []] :=
    (Option.some.inj hr).symm
  obtain ⟨v, hv, hforce⟩ := hacc.named (.displaced (ascii "force")) (List.mem_cons_self ..) _ rfl
  rw [hctx] at hforce
  cases hforce

end VersatileEngine.Command
