import VersatileEngine.Command.Content

/-!
# VersatileEngine.Command.Registered

What a key leads to, and what a command runs, after any registrations.

* `Change`    — what is done at one place: only nodes on the way to it and in its parts are made.
* `register_spec` — one registration changes the place of its key.
* `Outcome`   — all registrations: `registerAll_outcome` by induction on them.
* `registered_exact` — every key, and every command that stands apart from the others.
-/

namespace VersatileEngine

open Tree Command

namespace Registry

variable {L : Loops} {w w' w₁ : Registry} {p q : List Nat} {sep : UInt8} {key : Str}
  {f g : Content L → Content L}

/-- What is done at the place `p`; the content there goes through `f`. -/
structure Change (w w' : Registry) (p : List Nat) (f : Content L → Content L) : Prop where
  home : w'.home = w.home
  ext : Extends partNames p w.root w'.root
  content : contentOf L (w'.root.nodeAt p) = f (contentOf L (w.root.nodeAt p))

theorem Change.refl (w : Registry) (p : List Nat) : @Change L w w p id := ⟨rfl, .refl p w.root, rfl⟩

theorem Change.trans (h : Change w w₁ p f) (h' : Change w₁ w' p g) : Change w w' p (g ∘ f) := by
  refine ⟨h'.home.trans h.home, h.ext.trans h'.ext, ?_⟩
  rw [h'.content, h.content]
  rfl

theorem nodeAt_sub {k : Tree} {t : Tree} (h : t.sub p = some k) : t.nodeAt p = k := by
  rw [Tree.nodeAt, h]
  rfl

theorem find_grows (hhome : w'.home = w.home) (hg : Grows w.root w'.root) (h : w.find sep key = some p) :
    w'.find sep key = some p := by
  obtain ⟨n, hn, h⟩ := Option.bind_eq_some_iff.mp h
  obtain ⟨q, hq, rfl⟩ := Option.map_eq_some_iff.mp h
  have hbase : w'.base sep key = w.base sep key := by rw [base, base, hhome]
  obtain ⟨n', hn', hgrows⟩ := hg.sub hn
  rw [find, hbase, hn', Option.bind_some, findPath_grows hgrows hq]
  rfl

/-- A key leads to a node. -/
theorem find_sub (h : w.find sep key = some p) : ∃ k, w.root.sub p = some k := by
  obtain ⟨n, hn, h⟩ := Option.bind_eq_some_iff.mp h
  obtain ⟨q, hq, rfl⟩ := Option.map_eq_some_iff.mp h
  obtain ⟨k, hk⟩ := findSegments_sub _ hq
  exact ⟨k, by rw [sub_append, hn]; exact hk⟩

/-- The node that a key leads to is made, and nothing is put there. -/
theorem node_spec (h : w.node sep key = some (w', some p)) :
    @Change L w w' p id ∧ w'.keys = w.keys ∧ (IntKeys sep keySep key → w'.find sep key = some p) := by
  obtain ⟨n, hn, h⟩ := Option.map_eq_some_iff.mp h
  rw [Prod.mk.injEq, Option.map_eq_some_iff] at h
  obtain ⟨rfl, q, hq, rfl⟩ := h
  have hmade : ensureSegments keySep (key.splitOn sep) n = ((ensurePath sep keySep key n).1, some q) := by
    rw [← hq]
    rfl
  obtain ⟨hext, halike, -⟩ := @ensureSegments_extends partNames _ _ _ _ _ hmade
  have hname : (ensurePath sep keySep key n).1.name = n.name := ensureSegments_name _ n
  have hsub : (w.root.modifyAt (fun _ => (ensurePath sep keySep key n).1) (w.base sep key)).sub (w.base sep key) =
      some (ensurePath sep keySep key n).1 := sub_modifyAt hn
  refine ⟨⟨rfl, extends_below hname hext hn, ?_⟩, rfl, fun hint => ?_⟩
  · rw [Tree.nodeAt, Tree.nodeAt, sub_append, sub_append, hn, hsub]
    exact contentOf_alike halike
  · have hfound := ensureSegments_finds hint hmade
    show Option.bind (sub (w.base sep key) _) _ = _
    rw [hsub, Option.bind_some]
    show Option.map _ (findSegments _ _ _) = _
    rw [hfound]
    rfl

theorem update_spec {upd : Tree → Option Tree} (h : w.update p upd = some w')
    (hf : ∀ nd nd', upd nd = some nd' → contentOf L nd' = f (contentOf L nd) ∧ Kept nd nd') :
    Change w w' p f ∧ w'.keys = w.keys := by
  obtain ⟨n, hn, h⟩ := Option.bind_eq_some_iff.mp h
  obtain ⟨n', hn', rfl⟩ := Option.map_eq_some_iff.mp h
  obtain ⟨hc, hname, hext⟩ := hf n n' hn'
  refine ⟨⟨rfl, ?_, ?_⟩, rfl⟩
  · have hbelow := extends_below hname hext hn
    rwa [List.append_nil] at hbelow
  · rw [nodeAt_sub hn, nodeAt_sub (sub_modifyAt hn), hc]

/-- What is done at the place that a key leads to. -/
def Lands (w w' : Registry) (sep : UInt8) (key : Str) (f : Content L → Content L) : Prop :=
  ∃ p, w'.find sep key = some p ∧ Change w w' p f

theorem Lands.trans (h : Lands w w₁ sep key f) (h' : Lands w₁ w' sep key g) : Lands w w' sep key (g ∘ f) := by
  obtain ⟨p, hp, hc⟩ := h
  obtain ⟨q, hq, hc'⟩ := h'
  have hpq := (find_grows hc'.home hc'.ext.grows hp).symm.trans hq
  obtain rfl := Option.some.inj hpq
  exact ⟨p, hq, hc.trans hc'⟩

/-- The node of a key, and then what is done there. -/
theorem update_lands (f : Content L → Content L) {upd : Tree → Option Tree} {keys : List Str} (hint : IntKeys sep keySep key)
    (hn : w.node sep key = some (w₁, some p)) (h : { w₁ with keys := keys }.update p upd = some w')
    (hf : ∀ nd nd', upd nd = some nd' → contentOf L nd' = f (contentOf L nd) ∧ Kept nd nd') :
    Lands w w' sep key f ∧ w'.keys = keys := by
  obtain ⟨hc, -, hfind⟩ := @node_spec L _ _ _ _ _ hn
  obtain ⟨hu, hkeys⟩ := update_spec h hf
  have hc₁ : @Change L w { w₁ with keys := keys } p id := ⟨hc.home, hc.ext, hc.content⟩
  exact ⟨⟨p, find_grows hu.home hu.ext.grows (hfind hint), hc₁.trans hu⟩, hkeys⟩

theorem declareNode_spec {params : List Param} (hint : IntKeys sep keySep key)
    (h : w.declareNode key params sep = some w') :
    @Lands L w w' sep key (Content.declared · params) ∧ w'.keys = w.keys := by
  obtain ⟨⟨w₁, p⟩, hn, h⟩ := Option.bind_eq_some_iff.mp h
  obtain ⟨p, rfl, h⟩ := Option.bind_eq_some_iff.mp h
  obtain ⟨hl, hkeys⟩ := update_lands (Content.declared · params) hint hn h fun _ _ => declareParams_spec
  exact ⟨hl, hkeys.trans (@node_spec L _ _ _ _ _ hn).2.1⟩

theorem reg_spec {callable : Var} {help : Str} {loop : Option L.Loop} (hint : IntKeys sep keySep key)
    (h : w.reg L key callable help loop sep = some w') : w'.keys = w.keys ∨
      w'.keys = w.keys ++ [key] ∧ Lands w w' sep key (Content.filled · callable help loop) := by
  obtain ⟨⟨w₁, p⟩, hn, h⟩ := Option.bind_eq_some_iff.mp h
  have hkeys : w₁.keys = w.keys := by
    obtain ⟨n, -, hn⟩ := Option.map_eq_some_iff.mp hn
    rw [← (Prod.mk.inj hn).1]
  dsimp only at h
  cases p with
  | none =>
    obtain rfl := Option.some.inj h
    exact .inl hkeys
  | some p =>
    dsimp only at h
    split_ifs at h with hin
    · obtain rfl := Option.some.inj h
      exact .inl hkeys
    · obtain ⟨hl, hk⟩ := update_lands (Content.filled · callable help loop) hint hn h fun _ _ => fill_spec
      exact .inr ⟨by rw [hk, hkeys], hl⟩

/-- What a builder does, and the help. -/
theorem regBuilder_spec {ops : List (BuilderOp L)} {help : Str} (hint : IntKeys sep keySep key)
    (hnew : key ∉ w.keys) (h : w.regBuilder key ops help sep = some w') : w'.keys = w.keys ∨
      w'.keys = w.keys ++ [key] ∧ Lands w w' sep key fun c => ((c.filled .none [] none).built ops).helped help := by
  obtain ⟨w₁, hreg, h⟩ := Option.bind_eq_some_iff.mp h
  rw [if_neg hnew] at hreg
  obtain ⟨⟨w₂, p⟩, hn, h⟩ := Option.bind_eq_some_iff.mp h
  obtain ⟨p, rfl, h⟩ := Option.bind_eq_some_iff.mp h
  have hbuilt : ∀ nd nd', ((ops.foldlM (fun nd op => BuilderOp.run L op nd) nd).bind fun nd =>
      if help = [] then some nd else setHelp help nd) = some nd' →
      contentOf L nd' = ((contentOf L nd).built ops).helped help ∧ Kept nd nd' := by
    intro nd nd' hd
    obtain ⟨u, hu, hd⟩ := Option.bind_eq_some_iff.mp hd
    obtain ⟨hc, hk⟩ := builder_spec hu
    obtain ⟨hc', hk'⟩ := @helped_spec L _ _ help hd
    exact ⟨by rw [hc', hc], hk.trans hk'⟩
  obtain ⟨hl, hk⟩ := update_lands (fun c => (c.built ops).helped help) hint hn h hbuilt
  have hkeys := hk.trans (@node_spec L _ _ _ _ _ hn).2.1
  rcases reg_spec hint hreg with hsame | ⟨hk₁, hl₁⟩
  · exact .inl (hkeys.trans hsame)
  · exact .inr ⟨hkeys.trans hk₁, hl₁.trans hl⟩

end Registry

namespace Registration

variable {L : Loops}

def ops (r : Registration L) : List (BuilderOp L) :=
  match r.body with
  | .single _ _ => []
  | .multi ops => ops

def value (r : Registration L) : Var :=
  match r.body with
  | .single callable _ => .callable callable
  | .multi _ => .none

def loop (r : Registration L) : Option L.Loop :=
  match r.body with
  | .single _ loop => loop
  | .multi _ => none

/-- What a registration makes of the content of its node. -/
def apply (r : Registration L) (c : Content L) : Content L where
  value := r.value
  help := if r.help = [] then r.ops.foldl (fun v op => op.helpText v) c.help else .string r.help
  loop := r.loop.or c.loop
  steps := c.steps ++ r.ops.flatMap BuilderOp.step
  decl := declareAll (r.params ++ r.ops.flatMap BuilderOp.param) c.decl

end Registration

namespace Registry

variable {L : Loops} {w w' w₁ : Registry} {r : Registration L}

theorem register_spec (hint : IntKeys r.sep keySep r.key) (hnew : r.key ∉ w.keys) (h : w.register r = some w') :
    w'.keys = w.keys ∨ w'.keys = w.keys ++ [r.key] ∧ Lands w w' r.sep r.key r.apply := by
  obtain ⟨w₁, hdecl, h⟩ := Option.bind_eq_some_iff.mp h
  have hone : w₁ = w ∧ r.params = [] ∨
      @Lands L w w₁ r.sep r.key (Content.declared · r.params) ∧ w₁.keys = w.keys := by
    split_ifs at hdecl with hp
    · exact .inl ⟨(Option.some.inj hdecl).symm, hp⟩
    · exact .inr (declareNode_spec hint hdecl)
  have hkeys : w₁.keys = w.keys := by
    rcases hone with ⟨rfl, -⟩ | ⟨-, hk⟩
    · rfl
    · exact hk
  have hbody : w'.keys = w₁.keys ∨ w'.keys = w₁.keys ++ [r.key] ∧
      Lands w₁ w' r.sep r.key { r with params := [] }.apply := by
    rw [← hkeys] at hnew
    obtain ⟨key, sep, params, body, help⟩ := r
    cases body with
    | single callable loop =>
      refine (reg_spec hint h).imp_right fun hl => ⟨hl.1, ?_⟩
      have hfun : (fun c : Content L => c.filled (.callable callable) help loop) = Registration.apply
          ⟨key, sep, [], .single callable loop, help⟩ := by
        funext c
        simp [Content.filled, Registration.apply, Registration.value, Registration.ops, Registration.loop, declareAll]
      rw [← hfun]
      exact hl.2
    | multi ops =>
      refine (regBuilder_spec hint hnew h).imp_right fun hl => ⟨hl.1, ?_⟩
      have hfun : (fun c : Content L => ((c.filled .none [] none).built ops).helped help) = Registration.apply
          ⟨key, sep, [], .multi ops, help⟩ := by
        funext c
        simp [Content.filled, Content.built, Content.helped, Registration.apply, Registration.value,
          Registration.ops, Registration.loop]
      rw [← hfun]
      exact hl.2
  rw [hkeys] at hbody
  refine hbody.imp_right fun hl => ⟨hl.1, ?_⟩
  rcases hone with ⟨rfl, hp⟩ | ⟨hd, -⟩
  · have hr : r = { r with params := [] } := by rw [← hp]
    rw [hr]
    exact hl.2
  · have hfun : r.apply = { r with params := [] }.apply ∘ (Content.declared · r.params) := by
      funext c
      simp [Content.declared, Registration.apply, Registration.value, Registration.ops, Registration.loop, declareAll]
    rw [hfun]
    exact hd.trans hl.2

/-- The keys stay distinct, as the commands are registered one after another. -/
theorem register_nodup {keys : List Str} (hint : IntKeys r.sep keySep r.key)
    (hnd : (w.keys ++ r.key :: keys).Nodup) (h : w.register r = some w') : (w'.keys ++ keys).Nodup := by
  have hnd' := hnd
  rw [List.nodup_middle, List.nodup_cons, List.mem_append, not_or] at hnd'
  rcases register_spec hint hnd'.1.1 h with hk | ⟨hk, -⟩
  · rw [hk]
    exact hnd'.2
  · rw [hk, List.append_assoc]
    exact hnd

theorem registerAll_keys {regs : List (Registration L)} : ∀ {w w' : Registry},
    (∀ r ∈ regs, IntKeys r.sep keySep r.key) → (w.keys ++ regs.map Registration.key).Nodup →
    w.registerAll regs = some w' → ∀ key ∈ w'.keys, key ∈ w.keys ∨ key ∈ regs.map Registration.key := by
  induction regs with
  | nil =>
    rintro w w' - - ⟨⟩ key hkey
    exact .inl hkey
  | cons r regs ih =>
    intro w w' hint hnd h key hkey
    obtain ⟨hint₀, hint⟩ := List.forall_mem_cons.mp hint
    rw [registerAll, List.foldlM_cons] at h
    obtain ⟨w₁, h₁, h⟩ := Option.bind_eq_some_iff.mp h
    rw [List.map_cons] at hnd ⊢
    have hnew : r.key ∉ w.keys := fun hin => List.nodup_append.mp hnd |>.2.2 _ hin _ List.mem_cons_self rfl
    rcases ih hint (register_nodup hint₀ hnd h₁) h key hkey with hk | hk
    · rcases register_spec hint₀ hnew h₁ with hsame | ⟨hsame, -⟩
      · rw [hsame] at hk
        exact .inl hk
      · rw [hsame, List.mem_append, List.mem_singleton] at hk
        exact hk.imp_right fun he => List.mem_cons.mpr (.inl he)
    · exact .inr (List.mem_cons_of_mem _ hk)

/-- Neither of two places is in a part of the other. -/
def Apart (t : Tree) (p q : List Nat) : Prop := p ≠ q ∧ ¬ InPart partNames t p q ∧ ¬ InPart partNames t q p

/-- The place is one that is made for a command at `p`. -/
def MadeFor (t : Tree) (p q : List Nat) : Prop := OnWay t p q ∨ InPart partNames t p q

theorem MadeFor.grows {t t' : Tree} {p q : List Nat} (h : MadeFor t p q) (hg : Grows t t') : MadeFor t' p q :=
  h.imp (fun hway => hway.grows hg) fun hin => hin.grows hg

/-- What the registrations leave. -/
structure Outcome (regs : List (Registration L)) (w w' : Registry) : Prop where
  home : w'.home = w.home
  grows : Grows w.root w'.root
  found : ∀ r ∈ regs, ∃ p, w'.find r.sep r.key = some p
  made : ∀ q k, w'.root.sub q = some k → (∃ k, w.root.sub q = some k) ∨
    ∃ r ∈ regs, ∃ p, w'.find r.sep r.key = some p ∧ MadeFor w'.root p q
  frame : ∀ q, (∀ r ∈ regs, ∀ p, w'.find r.sep r.key = some p → Apart w'.root p q) →
    contentOf L (w'.root.nodeAt q) = contentOf L (w.root.nodeAt q)
  content : ∀ r ∈ regs, ∀ p, w'.find r.sep r.key = some p →
    (∀ r' ∈ regs, r'.key ≠ r.key → ∀ p', w'.find r'.sep r'.key = some p' → Apart w'.root p' p) →
    contentOf L (w'.root.nodeAt p) = r.apply (contentOf L (w.root.nodeAt p))

theorem Apart.shrinks {t t' : Tree} {p q : List Nat} (h : Apart t' p q) (hg : Grows t t') : Apart t p q :=
  ⟨h.1, fun hp => h.2.1 (hp.grows hg), fun hq => h.2.2 (hq.grows hg)⟩

theorem Apart.symm {t : Tree} {p q : List Nat} (h : Apart t p q) : Apart t q p := ⟨Ne.symm h.1, h.2.2, h.2.1⟩

/-- The place of another command keeps its content. -/
theorem Change.frame {p q : List Nat} {f : Content L → Content L} (h : Change w w' p f) (ha : Apart w'.root p q) :
    contentOf L (w'.root.nodeAt q) = contentOf L (w.root.nodeAt q) :=
  contentOf_alike (h.ext.frame q (Ne.symm ha.1) ha.2.2 ha.2.1)

theorem registerAll_outcome {regs : List (Registration L)} : ∀ {w w' : Registry},
    (∀ r ∈ regs, IntKeys r.sep keySep r.key) → (w.keys ++ regs.map Registration.key).Nodup →
    w.registerAll regs = some w' → (∀ r ∈ regs, r.key ∈ w'.keys) → Outcome regs w w' := by
  induction regs with
  | nil =>
    rintro w w' - - ⟨⟩ -
    exact ⟨rfl, .refl _, by simp, fun q k hk => .inl ⟨k, hk⟩, fun _ _ => rfl, by simp⟩
  | cons r regs ih =>
    intro w w' hint hnd h hreg
    obtain ⟨hint₀, hint⟩ := List.forall_mem_cons.mp hint
    obtain ⟨hreg₀, hreg⟩ := List.forall_mem_cons.mp hreg
    rw [registerAll, List.foldlM_cons] at h
    obtain ⟨w₁, h₁, h⟩ := Option.bind_eq_some_iff.mp h
    rw [List.map_cons] at hnd
    have hnd₁ := register_nodup hint₀ hnd h₁
    rw [List.nodup_middle, List.nodup_cons, List.mem_append, not_or] at hnd
    obtain ⟨⟨hnew, hlater⟩, -⟩ := hnd
    have hstep := register_spec hint₀ hnew h₁
    have hmine : r.key ∈ w₁.keys := (registerAll_keys hint hnd₁ h r.key hreg₀).resolve_right hlater
    rcases hstep with hk | ⟨-, p, hp, hc⟩
    · rw [hk] at hmine
      exact absurd hmine hnew
    have ho := ih hint hnd₁ h hreg
    have hp' : w'.find r.sep r.key = some p := find_grows ho.home ho.grows hp
    have hothers : ∀ r' ∈ regs, r'.key ≠ r.key := fun r' hr' he => hlater (he ▸ List.mem_map_of_mem hr')
    refine ⟨ho.home.trans hc.home, hc.ext.grows.trans ho.grows, ?_, fun q k hk => ?_, fun q hq => ?_, ?_⟩
    · exact List.forall_mem_cons.mpr ⟨⟨p, hp'⟩, ho.found⟩
    · rcases ho.made q k hk with ⟨k₁, hk₁⟩ | ⟨r', hr', hmade⟩
      · have hmade : (∃ k, w.root.sub q = some k) ∨ MadeFor w₁.root p q := hc.ext.made q k₁ hk₁
        exact hmade.imp_right fun hm => ⟨r, List.mem_cons_self, p, hp', hm.grows ho.grows⟩
      · exact .inr ⟨r', List.mem_cons_of_mem _ hr', hmade⟩
    · obtain ⟨hq₀, hq⟩ := List.forall_mem_cons.mp hq
      exact (ho.frame q hq).trans (hc.frame ((hq₀ p hp').shrinks ho.grows))
    · refine List.forall_mem_cons.mpr ⟨fun p₁ hp₁ hapart => ?_, fun r' hr' p₁ hp₁ hapart => ?_⟩
      · obtain rfl := Option.some.inj (hp'.symm.trans hp₁)
        have hfar := (List.forall_mem_cons.mp hapart).2
        rw [ho.frame p fun r' hr' => hfar r' hr' (hothers r' hr'), hc.content]
      · obtain ⟨hfar₀, hfar⟩ := List.forall_mem_cons.mp hapart
        rw [ho.content r' hr' p₁ hp₁ hfar]
        have hclear := (hfar₀ (hothers r' hr').symm p hp').shrinks ho.grows
        rw [hc.frame hclear]

end Registry

namespace Registration

variable {L : Loops}

/-- The callables of a registration, each with the loop it runs on. -/
def steps (r : Registration L) : List (Var × L.Loop) :=
  match r.body with
  | .single callable loop => [(.callable callable, loop.getD L.main)]
  | .multi ops => ops.flatMap BuilderOp.step

/-- The help text of a registration, or none. -/
def helpText (r : Registration L) : Var :=
  if r.help = [] then r.ops.foldl (fun v op => op.helpText v) .none else .string r.help

/-- The parameters of a registration. -/
def declared (r : Registration L) : Tree := declareAll (r.params ++ r.ops.flatMap BuilderOp.param) (blank declareName)

theorem apply_blank (r : Registration L) (nd : Tree) (h : contentOf L nd = r.apply (contentOf L (blank []))) :
    build L nd = r.steps ∧ Command.help nd = r.helpText ∧ (Command.declared nd).getD (blank declareName) = r.declared := by
  refine ⟨?_, ?_, ?_⟩
  · have hnone : (contentOf L (blank [])).loop = none := L.ofVar_none
    rw [build_eq, h]
    obtain ⟨key, sep, params, body, help⟩ := r
    cases body with
    | single callable loop =>
      simp [apply, value, Registration.loop, steps, hnone, Var.isCallable]
    | multi ops => simp [apply, value, steps, Registration.ops, Var.isCallable, contentOf, part, blank, kids]
  · rw [help_eq L, h]
    rfl
  · rw [declared_eq L, h]
    rfl

end Registration

namespace Registry

variable {L : Loops} {w w' : Registry} {regs : List (Registration L)}

/-- After any registrations under distinct keys: **every key of a command is found, a key is found exactly when
it leads to a node that was there, or is on the way to a command's node, or is that node, or is in its metadata;
and a command whose place is apart from the others runs its own callables, with its own help and parameters**. -/
theorem registered_exact (hint : ∀ r ∈ regs, IntKeys r.sep keySep r.key)
    (hkeys : (w.keys ++ regs.map Registration.key).Nodup) (h : w.registerAll regs = some w')
    (hreg : ∀ r ∈ regs, r.key ∈ w'.keys) :
    (∀ r ∈ regs, w'.has r.sep r.key = true) ∧
    (∀ sep key, w'.has sep key = true ↔ ∃ q, w'.find sep key = some q ∧ ((∃ k, w.root.sub q = some k) ∨
      ∃ r ∈ regs, ∃ p, w'.find r.sep r.key = some p ∧ MadeFor w'.root p q)) ∧
    ∀ r ∈ regs, ∀ p, w'.find r.sep r.key = some p → Alike partNames (blank []) (w.root.nodeAt p) →
      (∀ r' ∈ regs, r'.key ≠ r.key → ∀ p', w'.find r'.sep r'.key = some p' → Apart w'.root p' p) →
      build L (w'.root.nodeAt p) = r.steps ∧ help (w'.root.nodeAt p) = r.helpText ∧
        (declared (w'.root.nodeAt p)).getD (blank declareName) = r.declared := by
  have ho := registerAll_outcome hint hkeys h hreg
  refine ⟨fun r hr => ?_, fun sep key => ⟨fun hhas => ?_, ?_⟩, fun r hr p hp hblank hapart => ?_⟩
  · obtain ⟨p, hp⟩ := ho.found r hr
    rw [has, hp]
    rfl
  · obtain ⟨q, hq⟩ := Option.isSome_iff_exists.mp hhas
    obtain ⟨k, hk⟩ := find_sub hq
    exact ⟨q, hq, ho.made q k hk⟩
  · rintro ⟨q, hq, -⟩
    rw [has, hq]
    rfl
  · refine r.apply_blank _ ?_
    rw [ho.content r hr p hp hapart, contentOf_alike hblank]

def sampleLoops : Loops where
  Loop := Nat
  main := 0
  custom l := .custom l []
  ofVar
    | .custom l [] => some l
    | _ => none
  ofVar_custom _ := rfl
  ofVar_none := rfl

/-- `ve/factory/cmd`, and nothing in it. -/
def sampleRegistry : Registry :=
  ⟨.node [] .none [.node (ascii "ve") .none [.node (ascii "factory") .none [blank (ascii "cmd")]]], [0, 0, 0], []⟩

def sampleOuter : Registration sampleLoops := ⟨ascii "a", 46, [], .single 7 (some (1 : Nat)), ascii "outer"⟩

def sampleInner : Registration sampleLoops :=
  ⟨ascii "a.b", 46, [⟨ascii "x", none, by decide⟩], .multi [.addStep 8 none, .addStep 9 (some (2 : Nat))], []⟩

/-- What the two registrations leave: the keys, their places, and the parts of the outer command. -/
theorem sample_run : ∃ w', sampleRegistry.registerAll [sampleOuter, sampleInner] = some w' ∧
    w'.keys = [ascii "a", ascii "a.b"] ∧ w'.find 46 (ascii "a") = some [0, 0, 0, 0] ∧
    w'.find 46 (ascii "a.b") = some [0, 0, 0, 0, 2] ∧
    partNames.map (fun nm => (w'.root.nodeAt [0, 0, 0, 0]).partAt nm) = [some 0, some 1, none, none] := by
  have hrun : (sampleRegistry.registerAll [sampleOuter, sampleInner]).map (fun w => (w.keys, w.find 46 (ascii "a"),
      w.find 46 (ascii "a.b"), partNames.map fun nm => (w.root.nodeAt [0, 0, 0, 0]).partAt nm)) =
      some ([ascii "a", ascii "a.b"], some [0, 0, 0, 0], some [0, 0, 0, 0, 2], [some 0, some 1, none, none]) := rfl
  obtain ⟨w', h, hw⟩ := Option.map_eq_some_iff.mp hrun
  simp only [Prod.mk.injEq] at hw
  exact ⟨w', h, hw⟩

theorem registered_exact_sample : ∃ w', sampleRegistry.registerAll [sampleOuter, sampleInner] = some w' ∧
    build sampleLoops (w'.root.nodeAt [0, 0, 0, 0]) = [(.callable 7, (1 : Nat))] ∧
    build sampleLoops (w'.root.nodeAt [0, 0, 0, 0, 2]) = [(.callable 8, (0 : Nat)), (.callable 9, (2 : Nat))] := by
  obtain ⟨w', h, hkeys, houter, hinner, hparts⟩ := sample_run
  have hapart : Apart w'.root [0, 0, 0, 0] [0, 0, 0, 0, 2] := by
    refine ⟨by decide, ?_, ?_⟩
    · rintro ⟨i, ⟨k, hk, nm, hnm, hi⟩, hpre⟩
      obtain rfl : i = 2 := by simpa using hpre
      rw [nodeAt_sub hk] at hparts
      have hmem := List.mem_map_of_mem (f := fun nm => k.partAt nm) hnm
      rw [hparts, hi] at hmem
      exact absurd hmem (by decide)
    · rintro ⟨i, -, hpre⟩
      exact absurd hpre.length_le (by simp)
  obtain ⟨-, -, hruns⟩ := registered_exact (by decide) (by decide) h (by rw [hkeys]; decide)
  refine ⟨w', h, ?_, ?_⟩
  · refine (hruns sampleOuter (by simp) _ houter (.refl _) fun r' hr' hne p' hp' => ?_).1
    rcases List.mem_cons.mp hr' with rfl | hr'
    · exact absurd rfl hne
    · obtain rfl := List.mem_singleton.mp hr'
      obtain rfl := Option.some.inj (hinner.symm.trans hp')
      exact hapart.symm
  · refine (hruns sampleInner (by simp) _ hinner (.refl _) fun r' hr' hne p' hp' => ?_).1
    rcases List.mem_cons.mp hr' with rfl | hr'
    · obtain rfl := Option.some.inj (houter.symm.trans hp')
      exact hapart
    · obtain rfl := List.mem_singleton.mp hr'
      exact absurd rfl hne

/-- A key that is on the way to a command's node is found, and no command is registered under it. -/
theorem has_finds_outer : ∃ w', sampleRegistry.registerAll [sampleInner] = some w' ∧
    w'.keys = [ascii "a.b"] ∧ w'.has 46 (ascii "a") = true := by
  have hrun : (sampleRegistry.registerAll [sampleInner]).map (fun w => (w.keys, w.has 46 (ascii "a"))) =
      some ([ascii "a.b"], true) := rfl
  obtain ⟨w', h, hw⟩ := Option.map_eq_some_iff.mp hrun
  rw [Prod.mk.injEq] at hw
  exact ⟨w', h, hw⟩

end Registry

end VersatileEngine
