import VersatileEngine.Command.Registry

/-!
# VersatileEngine.Command.Content

What counts of a command's node, and what the registration of a command makes of it.

* `contentOf` — the value of a node, and what its parts `help`, `loop`, `steps` and `declare` hold.
* `build_eq`, `help_eq`, `declared_eq` — a `Command` takes no more than the content.
* `Kept`      — only the parts of a node are touched, and its value.
* `fill_spec`, `builder_spec`, `declareParams_spec` — the content after each kind of registration.
-/

namespace VersatileEngine

open Tree

namespace Command

variable {L : Loops}

/-- What counts of a command's node: its value, and what its parts hold. -/
@[ext] structure Content (L : Loops) where
  value : Var
  help : Var
  loop : Option L.Loop
  steps : List (Var × L.Loop)
  decl : Tree

def contentOf (L : Loops) (nd : Tree) : Content L where
  value := nd.value
  help := (nd.part helpName).value
  loop := L.ofVar (nd.part loopName).value
  steps := (nd.part stepsName).kids.filterMap (stepOf L)
  decl := nd.part declareName

section Content

variable {nd nd' k : Tree}

theorem contentOf_alike (h : Alike partNames nd nd') : contentOf L nd' = contentOf L nd := by
  have hp := h.part
  simp only [partNames, List.forall_mem_cons] at hp
  simp only [contentOf, h.value, hp]

theorem contentOf_help (h : Written partNames helpName k nd nd') :
    contentOf L nd' = { contentOf L nd with help := k.value } := by
  simp only [contentOf, h.value, h.part, h.others loopName (by decide), h.others stepsName (by decide),
    h.others declareName (by decide)]

theorem contentOf_loop (h : Written partNames loopName k nd nd') :
    contentOf L nd' = { contentOf L nd with loop := L.ofVar k.value } := by
  simp only [contentOf, h.value, h.part, h.others helpName (by decide), h.others stepsName (by decide),
    h.others declareName (by decide)]

theorem contentOf_steps (h : Written partNames stepsName k nd nd') :
    contentOf L nd' = { contentOf L nd with steps := k.kids.filterMap (stepOf L) } := by
  simp only [contentOf, h.value, h.part, h.others helpName (by decide), h.others loopName (by decide),
    h.others declareName (by decide)]

theorem contentOf_decl (h : Written partNames declareName k nd nd') :
    contentOf L nd' = { contentOf L nd with decl := k } := by
  simp only [contentOf, h.value, h.part, h.others helpName (by decide), h.others loopName (by decide),
    h.others stepsName (by decide)]

theorem contentOf_set (nd : Tree) (v : Var) : contentOf L (nd.set v) = { contentOf L nd with value := v } := by
  simp only [contentOf, part, set_value, set_kids]

/-- A part is the child that is found, or a blank node. -/
theorem part_child {nm : Str} (hn : isName nm = true) (nd : Tree) : nd.part nm = (child nm nd).getD (blank nm) := by
  rw [child, findPath_name hn]
  rfl

theorem stepOf_eq (sn : Tree) : stepOf L sn =
    if sn.value.isCallable then some (sn.value, (contentOf L sn).loop.getD L.main) else none := by
  have hloop : (contentOf L sn).loop = (child loopName sn).bind fun ln => L.ofVar ln.value := by
    show L.ofVar (sn.part loopName).value = _
    rw [part_child (by decide)]
    cases child loopName sn with
    | some k => rfl
    | none => exact L.ofVar_none
  rw [stepOf, hloop]

/-- What `Command::build` collects, by the content. -/
theorem build_eq (nd : Tree) : build L nd =
    if (contentOf L nd).value.isCallable then
      [((contentOf L nd).value, (contentOf L nd).loop.getD L.main)]
    else (contentOf L nd).steps := by
  have hsteps : (contentOf L nd).steps =
      ((child stepsName nd).map fun steps => steps.kids.filterMap (stepOf L)).getD [] := by
    show (nd.part stepsName).kids.filterMap (stepOf L) = _
    rw [part_child (by decide)]
    cases child stepsName nd <;> rfl
  have hvalue : (contentOf L nd).value = nd.value := rfl
  rw [build, hsteps, hvalue]
  by_cases hc : nd.value.isCallable = true
  · rw [if_pos hc, if_pos hc, stepOf_eq, if_pos hc]
    rfl
  · rw [if_neg hc, if_neg hc]

theorem help_eq (L : Loops) (nd : Tree) : help nd = (contentOf L nd).help := by
  show _ = (nd.part helpName).value
  rw [help, part_child (by decide)]
  cases child helpName nd <;> rfl

theorem declared_eq (L : Loops) (nd : Tree) : (declared nd).getD (blank declareName) = (contentOf L nd).decl :=
  (part_child (by decide) nd).symm

/-! ### What is done to a command's node -/

/-- The name stays, and only the parts are touched. -/
def Kept (nd nd' : Tree) : Prop := nd'.name = nd.name ∧ Extends partNames [] nd nd'

theorem Kept.refl (nd : Tree) : Kept nd nd := ⟨rfl, .refl _ nd⟩

theorem Kept.trans {u : Tree} (h : Kept nd u) (h' : Kept u nd') : Kept nd nd' :=
  ⟨h'.1.trans h.1, h.2.trans h'.2⟩

theorem kept_set (nd : Tree) (v : Var) : Kept nd (nd.set v) := ⟨set_name nd v, extends_set nd v⟩

theorem Written.kept {nm : Str} (h : Written partNames nm k nd nd') : Kept nd nd' := ⟨h.name, h.all⟩

/-- A value is put into a part. -/
theorem setPart_written {nm : Str} {v : Var} (hn : isName nm = true) (hnm : nm ∈ partNames)
    (h : nd.withAt nm (fun k => some (k.set v)) = some nd') :
    Written partNames nm ((nd.part nm).set v) nd nd' := by
  have hf : ∀ k k' : Tree, some (k.set v) = some k' → k'.name = k.name ∧ Grows k k' := by
    rintro k k' he
    obtain rfl := Option.some.inj he
    exact ⟨set_name k v, grows_same_kids (set_kids k v)⟩
  obtain ⟨k, hk, hw⟩ := withAt_name hn h hf hnm
  obtain rfl := Option.some.inj hk
  exact hw

theorem setHelp_spec {h : Str} (hs : setHelp h nd = some nd') :
    contentOf L nd' = { contentOf L nd with help := .string h } ∧ Kept nd nd' := by
  have hw := setPart_written (by decide) (by decide) hs
  refine ⟨?_, Written.kept hw⟩
  rw [contentOf_help hw, set_value]

/-- The loop of a step or of a command. -/
theorem setLoop_spec {loop : Option L.Loop} (h : setLoop L loop nd = some nd') :
    contentOf L nd' = { contentOf L nd with loop := loop.or (contentOf L nd).loop } ∧ Kept nd nd' := by
  cases loop with
  | none =>
    obtain rfl := Option.some.inj h
    exact ⟨rfl, .refl nd⟩
  | some l =>
    have hw := setPart_written (by decide) (by decide) h
    refine ⟨?_, Written.kept hw⟩
    rw [contentOf_loop hw, set_value, L.ofVar_custom]
    rfl

theorem writeTo_spec {callable : Nat} {loop : Option L.Loop} (h : writeTo L callable loop nd = some nd') :
    contentOf L nd' = { contentOf L nd with value := .callable callable, loop := loop.or (contentOf L nd).loop } ∧
      Kept nd nd' := by
  obtain ⟨hc, hk⟩ := setLoop_spec h
  rw [contentOf_set] at hc
  exact ⟨hc, (kept_set nd _).trans hk⟩

/-- The help that a registration gives, unless it is empty. -/
def Content.helped (c : Content L) (help : Str) : Content L :=
  { c with help := if help = [] then c.help else .string help }

theorem helped_spec {h : Str} (hh : (if h = [] then some nd else setHelp h nd) = some nd') :
    contentOf L nd' = (contentOf L nd).helped h ∧ Kept nd nd' := by
  rw [Content.helped]
  split_ifs at hh ⊢
  · obtain rfl := Option.some.inj hh
    exact ⟨rfl, .refl nd⟩
  · exact setHelp_spec hh

/-- What `Factory::reg` puts into a content. -/
def Content.filled (c : Content L) (callable : Var) (help : Str) (loop : Option L.Loop) : Content L :=
  { c with
    value := callable
    help := if help = [] then c.help else .string help
    loop := loop.or c.loop }

theorem fill_spec {callable : Var} {h : Str} {loop : Option L.Loop}
    (hf : Registry.fill callable h loop nd = some nd') :
    contentOf L nd' = (contentOf L nd).filled callable h loop ∧ Kept nd nd' := by
  obtain ⟨u, hu, hl⟩ := Option.bind_eq_some_iff.mp hf
  obtain ⟨hc, hk⟩ := setLoop_spec hl
  obtain ⟨hcu, hku⟩ := @helped_spec L _ _ h hu
  refine ⟨?_, ((kept_set nd callable).trans hku).trans hk⟩
  rw [hc, hcu, contentOf_set]
  rfl

theorem pushStep_spec {callable : Nat} {loop : Option L.Loop} {steps steps' : Tree}
    (h : pushStep L callable loop steps = some steps') :
    ∃ sn, stepOf L sn = some (.callable callable, loop.getD L.main) ∧
      steps' = node steps.name steps.value (steps.kids ++ [sn]) := by
  rw [pushStep, ensureIndex_end, Option.bind_some] at h
  obtain ⟨sn₀, hsn₀, h⟩ := Option.bind_eq_some_iff.mp h
  obtain ⟨sn, hsn, rfl⟩ := Option.map_eq_some_iff.mp h
  have hblank : sn₀ = blank [] := by simpa using hsn₀.symm
  subst hblank
  have hw := (@writeTo_spec L _ _ callable loop hsn).1
  have hvalue : sn.value = .callable callable := congrArg Content.value hw
  have hloop : (contentOf L sn).loop = loop := by
    rw [hw]
    cases loop with
    | some l => rfl
    | none => exact L.ofVar_none
  refine ⟨sn, ?_, by simp⟩
  rw [stepOf_eq, hvalue, hloop]
  rfl

theorem addStep_spec {callable : Nat} {loop : Option L.Loop} (h : addStep L callable loop nd = some nd') :
    contentOf L nd' = { contentOf L nd with
      steps := (contentOf L nd).steps ++ [(.callable callable, loop.getD L.main)] } ∧ Kept nd nd' := by
  have hgrows : ∀ steps steps' : Tree, pushStep L callable loop steps = some steps' →
      steps'.name = steps.name ∧ Grows steps steps' := by
    intro steps steps' hs
    obtain ⟨sn, -, rfl⟩ := pushStep_spec hs
    exact ⟨rfl, grows_append _ _ _⟩
  have hmem : stepsName ∈ partNames := by decide
  obtain ⟨k, hk, hw⟩ := withAt_name (by decide) h hgrows hmem
  obtain ⟨sn, hsn, rfl⟩ := pushStep_spec hk
  refine ⟨?_, Written.kept hw⟩
  rw [contentOf_steps hw, kids_node, List.filterMap_append]
  simp only [List.filterMap_cons, hsn, List.filterMap_nil]
  rfl

theorem setPath_grows {path : Str} {f : Tree → Option Tree}
    (hf : ∀ k k', f k = some k' → k'.name = k.name ∧ Grows k k') (h : nd.withAt path f = some nd') :
    nd'.name = nd.name ∧ Grows nd nd' := by
  obtain ⟨p, hp, h⟩ := Option.bind_eq_some_iff.mp h
  obtain ⟨k, hk, h⟩ := Option.bind_eq_some_iff.mp h
  obtain ⟨k', hk', rfl⟩ := Option.map_eq_some_iff.mp h
  obtain ⟨hname, hgrows⟩ := hf k k' hk'
  have hmade : ensureSegments keySep (path.splitOn pathSep) nd = ((ensurePath pathSep keySep path nd).1, some p) := by
    rw [← hp]
    rfl
  refine ⟨?_, (ensureSegments_grows _ hmade).trans (grows_replace hname hgrows hk)⟩
  have hnm := @ensureSegments_name keySep (path.splitOn pathSep) nd
  cases p with
  | nil =>
    obtain rfl := Option.some.inj hk
    exact hname.trans hnm
  | cons i p => exact hnm

theorem declare_grows {param : Param} {decl decl' : Tree} (h : param.declare decl = some decl') :
    decl'.name = decl.name ∧ Grows decl decl' := by
  refine setPath_grows (fun k k' hk => ?_) h
  cases hs : param.short with
  | none =>
    rw [hs] at hk
    obtain rfl := Option.some.inj hk
    exact ⟨rfl, .refl k⟩
  | some s =>
    rw [hs] at hk
    refine setPath_grows (fun c c' hc => ?_) hk
    obtain rfl := Option.some.inj hc
    exact ⟨set_name c _, grows_same_kids (set_kids c _)⟩

/-- The declared parameters, one after another. -/
def declareAll (params : List Param) (decl : Tree) : Tree :=
  params.foldl (fun decl param => (param.declare decl).getD decl) decl

theorem declareAll_spec {params : List Param} : ∀ {decl decl' : Tree},
    params.foldlM (fun decl param => param.declare decl) decl = some decl' →
    decl' = declareAll params decl ∧ decl'.name = decl.name ∧ Grows decl decl' := by
  induction params with
  | nil =>
    rintro decl decl' ⟨⟩
    exact ⟨rfl, rfl, .refl decl⟩
  | cons param params ih =>
    intro decl decl' h
    rw [List.foldlM_cons] at h
    obtain ⟨u, hu, h⟩ := Option.bind_eq_some_iff.mp h
    obtain ⟨hname, hgrows⟩ := declare_grows hu
    obtain ⟨rfl, hname', hgrows'⟩ := ih h
    refine ⟨?_, hname'.trans hname, hgrows.trans hgrows'⟩
    rw [declareAll, declareAll, List.foldl_cons, hu]
    rfl

/-- The parameters that a content declares besides. -/
def Content.declared (c : Content L) (params : List Param) : Content L :=
  { c with decl := declareAll params c.decl }

theorem declareParams_spec {params : List Param} (h : nd.withAt declareName
      (fun decl => params.foldlM (fun decl param => param.declare decl) decl) = some nd') :
    contentOf L nd' = (contentOf L nd).declared params ∧ Kept nd nd' := by
  have hmem : declareName ∈ partNames := by decide
  obtain ⟨k, hk, hw⟩ := withAt_name (by decide) h (fun _ _ he => (declareAll_spec he).2) hmem
  obtain ⟨rfl, -⟩ := declareAll_spec hk
  exact ⟨contentOf_decl hw, Written.kept hw⟩

/-! ### A builder -/

/-- The parameter that an operation declares. -/
def BuilderOp.param : BuilderOp L → List Param
  | .declare param => [param]
  | _ => []

def BuilderOp.step : BuilderOp L → List (Var × L.Loop)
  | .addStep callable loop => [(.callable callable, loop.getD L.main)]
  | _ => []

def BuilderOp.helpText : BuilderOp L → Var → Var
  | .setHelp h, _ => .string h
  | _, v => v

/-- What the operations of a builder make of a content. -/
def Content.built (c : Content L) (ops : List (BuilderOp L)) : Content L :=
  { c with
    help := ops.foldl (fun v op => op.helpText v) c.help
    steps := c.steps ++ ops.flatMap BuilderOp.step
    decl := declareAll (ops.flatMap BuilderOp.param) c.decl }

theorem BuilderOp.run_spec {op : BuilderOp L} (h : op.run L nd = some nd') :
    contentOf L nd' = (contentOf L nd).built [op] ∧ Kept nd nd' := by
  cases op with
  | addStep callable loop => exact addStep_spec h
  | setHelp s =>
    obtain ⟨hc, hk⟩ := @setHelp_spec L _ _ s h
    refine ⟨hc.trans ?_, hk⟩
    simp [Content.built, BuilderOp.helpText, BuilderOp.step, BuilderOp.param, declareAll]
  | declare param =>
    have hone : nd.withAt declareName
        (fun decl => [param].foldlM (fun decl param => param.declare decl) decl) = some nd' := by
      simpa [BuilderOp.run] using h
    obtain ⟨hc, hk⟩ := @declareParams_spec L _ _ _ hone
    refine ⟨hc.trans ?_, hk⟩
    simp [Content.built, Content.declared, BuilderOp.helpText, BuilderOp.step, BuilderOp.param]

theorem Content.built_cons (c : Content L) (op : BuilderOp L) (ops : List (BuilderOp L)) :
    c.built (op :: ops) = (c.built [op]).built ops := by
  simp [Content.built, declareAll]

theorem builder_spec {ops : List (BuilderOp L)} : ∀ {nd nd' : Tree},
    ops.foldlM (fun nd op => op.run L nd) nd = some nd' →
    contentOf L nd' = (contentOf L nd).built ops ∧ Kept nd nd' := by
  induction ops with
  | nil =>
    rintro nd nd' ⟨⟩
    exact ⟨by simp [Content.built, declareAll], .refl nd⟩
  | cons op ops ih =>
    intro nd nd' h
    rw [List.foldlM_cons] at h
    obtain ⟨u, hu, h⟩ := Option.bind_eq_some_iff.mp h
    obtain ⟨hc, hk⟩ := op.run_spec hu
    obtain ⟨hc', hk'⟩ := ih h
    refine ⟨?_, hk.trans hk'⟩
    rw [hc', hc, ← Content.built_cons]

end Content

end Command

end VersatileEngine
