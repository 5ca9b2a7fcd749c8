import VersatileEngine.Node.Frees
import VersatileEngine.Service.Terminal

/-!
# VersatileEngine.Service.References

The nodes that sessions and shadows refer to.

* `World`     — a forest and the sessions on it; a step is an operation of the program, a new session, or
  a command of a session.
* `Sound`     — the current node of every session is live, and the shadow of every live node.
* `Considerate` — a step frees nothing that is referred to from what stays.
* `sound_of_considerate` — in a run of such steps every state is sound.
* `removed_under_a_session` — the commands themselves do not see to it: one session removes the node
  another one is in.
-/

namespace VersatileEngine

namespace Forest

/-! ## Planting -/

section Plant

variable {f g : Forest} {S : Id → Prop}

theorem sheds_setValue (h : Inv f) (n : Id) (v : Var) : Sheds f (f.setValue n v) S :=
  ⟨h.same (by funext m; simp) (by funext m; simp) (by simp) rfl rfl, Nat.le_refl _, fun m _ hl => hl,
    fun p c _ hm => by simpa using hm, fun m hm hd => (by simp [hm] at hd), fun m t hl hs => ⟨hl, by simpa using hs⟩⟩

theorem insert_beside_root {g : Forest} {p c : Id} (h : Inv g) (hp : g.live p = true) (hroot : g.parent p = none)
    (hc : g.live c = true) (hne : c ≠ p) :
    (g.insert p (some c) (-1)).1.live = g.live ∧ (g.insert p (some c) (-1)).1.parent p = none := by
  cases hat : g.insertAt p [c] (-1) with
  | none =>
    obtain ⟨-, hr, -⟩ := insert_fails h hat
    exact ⟨hr.live, by rw [hr.parent]; simp [hroot]⟩
  | some i =>
    obtain ⟨-, hr, -⟩ := insert_ok h hp hc hat
    exact ⟨hr.live, by rw [hr.parent]; simp [hroot, hne.symm]⟩

/-- Inserting new nodes below another new node. -/
theorem sheds_insertAll {p : Id} (cs : List Id) : ∀ {g : Forest}, Sheds f g S → g.live p = true →
    g.parent p = none → (∀ c ∈ cs, g.live c = true ∧ f.live c = false ∧ c ≠ p) →
    Sheds f (cs.foldl (fun g c => (g.insert p (some c) (-1)).1) g) S ∧
      (cs.foldl (fun g c => (g.insert p (some c) (-1)).1) g).live = g.live ∧
      (cs.foldl (fun g c => (g.insert p (some c) (-1)).1) g).parent p = none := by
  induction cs with
  | nil => exact fun h _ hroot _ => ⟨h, rfl, hroot⟩
  | cons c cs ih =>
    intro g h hp hroot hcs
    obtain ⟨hc, hnew, hne⟩ := hcs c (by simp)
    obtain ⟨hlive, hparent⟩ := insert_beside_root h.inv hp hroot hc hne
    obtain ⟨h₁, h₂, h₃⟩ := ih (h.insert hp hc hnew (-1)) (by rw [hlive]; exact hp) hparent
      fun x hx => by rw [hlive]; exact hcs x (by simp [hx])
    exact ⟨h₁, h₂.trans hlive, h₃⟩

/-- `n` is planted in `g`, beside the nodes of `f`. -/
structure Planted (f g g' : Forest) (S : Id → Prop) (n : Id) : Prop where
  sheds : Sheds f g' S
  keeps : ∀ m, g.live m = true → g'.live m = true
  live : g'.live n = true
  new : f.live n = false
  root : g'.parent n = none

theorem plantAll_cons (f : Forest) (t : Tree) (ts : List Tree) : f.plantAll (t :: ts) =
    (((f.plant t).1.plantAll ts).1, (f.plant t).2 :: ((f.plant t).1.plantAll ts).2) := by
  rw [plantAll]

/-- Trees planted one after another. -/
theorem planted_all (ts : List Tree)
    (ih : ∀ t ∈ ts, ∀ {g : Forest}, Sheds f g S → Planted f g (g.plant t).1 S (g.plant t).2) :
    ∀ {g : Forest}, Sheds f g S → Sheds f (g.plantAll ts).1 S ∧
      (∀ m, g.live m = true → (g.plantAll ts).1.live m = true) ∧
      ∀ n ∈ (g.plantAll ts).2, (g.plantAll ts).1.live n = true ∧ f.live n = false := by
  induction ts with
  | nil => exact fun h => ⟨h, fun _ hm => hm, fun n hn => (by cases hn)⟩
  | cons t ts ihs =>
    intro g h
    have hone := ih t (by simp) h
    obtain ⟨hsheds, hkeeps, hall⟩ := ihs (fun x hx => ih x (by simp [hx])) hone.sheds
    rw [plantAll_cons]
    refine ⟨hsheds, fun m hm => hkeeps m (hone.keeps m hm), fun n hn => ?_⟩
    rcases List.mem_cons.mp hn with rfl | hn
    · exact ⟨hkeeps _ hone.live, hone.new⟩
    · exact hall n hn

/-- **A planted tree is of new nodes**, and a root. -/
theorem planted (hi : Inv f) (t : Tree) : ∀ {g : Forest}, Sheds f g S →
    Planted f g (g.plant t).1 S (g.plant t).2 := by
  induction t using Tree.ind with
  | h t ih =>
    intro g h
    obtain ⟨nm, v, ks⟩ := t
    obtain ⟨hsheds, hkeeps, hall⟩ := planted_all ks (fun k hk => ih k hk) h
    let r := g.plantAll ks
    let g₁ := (r.1.newNode nm).1.setValue r.1.next v
    have hg₁ : Sheds f g₁ S := (hsheds.trans (sheds_new hsheds.inv nm S) hi fun _ _ hm => hm).trans
      (sheds_setValue (newNode_spec hsheds.inv nm) _ v) hi fun _ _ hm => hm
    have hnew : f.live r.1.next = false := by
      cases hl : f.live r.1.next with
      | false => rfl
      | true => exact absurd (hi.bound hl) (Nat.not_lt.mpr hsheds.next)
    have hlive₁ : g₁.live r.1.next = true := by simp [g₁]
    obtain ⟨h₁, h₂, h₃⟩ := sheds_insertAll r.2 hg₁ hlive₁ (by simp [g₁]) fun c hc => by
      obtain ⟨hlive, hdead⟩ := hall c hc
      refine ⟨by simp [g₁, r, hlive], hdead, fun he => ?_⟩
      rw [he, hsheds.inv.next_dead] at hlive
      cases hlive
    rw [plant]
    refine ⟨h₁, fun m hm => ?_, ?_, hnew, h₃⟩
    · show (r.2.foldl _ g₁).live m = true
      rw [h₂]
      simp [g₁, r, hkeeps m hm]
    · show (r.2.foldl _ g₁).live r.1.next = true
      rw [h₂]
      exact hlive₁

end Plant

end Forest

namespace Terminal

open Forest (Inv Sheds Below)

/-! ## Imports -/

section Import

variable {f g f' : Forest} {S : Id → Prop} {k : Nat} {n t : Id} {content : Str}

/-- `g` came from `f` by adding nodes and writing values. -/
structure Grown (f g : Forest) : Prop where
  sheds : Sheds f g fun _ => False
  keeps : ∀ m, f.live m = true → g.live m = true

theorem Grown.refl (h : Inv f) : Grown f f := ⟨.refl h _, fun _ hm => hm⟩

theorem Grown.trans (h₁ : Grown f g) (h₂ : Grown g f') (h : Inv f) : Grown f f' :=
  ⟨h₁.sheds.trans h₂.sheds h fun _ _ hm => hm, fun m hm => h₂.keeps m (h₁.keeps m hm)⟩

theorem grown_set (h : Inv f) (hn : f.live n = true) (v : Var) : Grown f (f.set n v) :=
  ⟨Forest.sheds_set h hn v _, fun m hm => by simpa [Forest.set] using hm⟩

theorem grown_append (h : Inv f) (hn : f.live n = true) (nm : Str) : Grown f (f.append n nm 0).1 ∧
    ∀ c, (f.append n nm 0).2 = some c → (f.append n nm 0).1.live c = true := by
  obtain ⟨hs, hc, hlive, hkeep⟩ := (Sheds.refl h fun _ => False).append h hn nm
  refine ⟨⟨hs, hkeep⟩, fun c he => ?_⟩
  rw [hc] at he
  cases he
  exact hlive

theorem grown_flushContent (h : Inv f) (hn : f.live n = true) : Grown f (flushContent f n content) := by
  rw [flushContent]
  split
  · exact .refl h
  · exact grown_set h hn _

theorem grown_appendWith {nm : Str} {v : Var} (h : Inv f) (hn : f.live n = true)
    (hrun : appendWith f n nm v = some g) : Grown f g := by
  obtain ⟨hgrow, hlive⟩ := grown_append h hn nm
  rw [appendWith] at hrun
  obtain ⟨c, hc, rfl⟩ := Option.map_eq_some_iff.mp hrun
  exact hgrow.trans (grown_set hgrow.sheds.inv (hlive c hc) v) h

/-- The headings on the stack are nodes that are there. -/
def Walk.Stands (w : Walk) : Prop := ∀ e ∈ w.top :: w.below, w.forest.live e.1 = true

theorem popTo_mem {level : Nat} (below : List (Id × Nat)) : ∀ {top : Id × Nat},
    ∀ e ∈ (popTo level top below).1 :: (popTo level top below).2, e ∈ top :: below := by
  induction below with
  | nil => exact fun e he => he
  | cons p below ih =>
    intro top e he
    rw [popTo] at he
    split at he
    · exact List.mem_cons_of_mem _ (ih e he)
    · exact he

theorem Walk.heading_grows {w w' : Walk} {line : Md.HeadingLine} (h : Inv w.forest) (hw : w.Stands)
    (hrun : w.heading line = some w') : Grown w.forest w'.forest ∧ w'.Stands := by
  have htop := hw w.top (by simp)
  have hflush : Grown w.forest (flushContent w.forest w.top.1 w.contentBuf) := grown_flushContent h htop
  have hstack : ∀ e ∈ (popTo line.level w.top w.below).1 :: (popTo line.level w.top w.below).2,
      (flushContent w.forest w.top.1 w.contentBuf).live e.1 = true :=
    fun e he => hflush.keeps _ (hw e (popTo_mem w.below e he))
  obtain ⟨happend, hnew⟩ := grown_append hflush.sheds.inv
    (hstack (popTo line.level w.top w.below).1 (by simp)) line.cleanTitle
  rw [Walk.heading] at hrun
  obtain ⟨c, hc, hrun⟩ := Option.bind_eq_some_iff.mp hrun
  obtain ⟨f₁, h₁, hrun⟩ := Option.bind_eq_some_iff.mp hrun
  obtain ⟨f₂, h₂, rfl⟩ := Option.map_eq_some_iff.mp hrun
  have hlive := hnew c hc
  -- the attributes of the heading go below the new node
  have hattr : ∀ {p : Prop} [Decidable p] {x y : Forest} {nm : Str} {v : Var}, Inv x → x.live c = true →
      (if p then appendWith x c nm v else some x) = some y → Grown x y := by
    intro p _ x y nm v hx hc hy
    split at hy
    · exact grown_appendWith hx hc hy
    · cases hy
      exact .refl hx
  have hg₁ := hattr happend.sheds.inv hlive h₁
  have hg₂ := hattr hg₁.sheds.inv (hg₁.keeps c hlive) h₂
  have hafter := happend.trans (hg₁.trans hg₂ happend.sheds.inv) hflush.sheds.inv
  refine ⟨hflush.trans hafter h, fun e he => ?_⟩
  rcases List.mem_cons.mp he with rfl | he
  · exact hg₂.keeps c (hg₁.keeps c hlive)
  · exact hafter.keeps _ (hstack e he)

theorem Walk.line_grows {w w' : Walk} {line : Str} (h : Inv w.forest) (hw : w.Stands)
    (hrun : w.line line = some w') : Grown w.forest w'.forest ∧ w'.Stands := by
  rw [Walk.line] at hrun
  simp only at hrun
  split at hrun
  · cases hrun
    exact ⟨.refl h, hw⟩
  · split at hrun
    · exact Walk.heading_grows (w := { w with
        inCodeFence := (Md.isInsideCodeFence line w.inCodeFence w.fenceMarker).1
        fenceMarker := (Md.isInsideCodeFence line w.inCodeFence w.fenceMarker).2 }) h hw hrun
    · cases hrun
      exact ⟨.refl h, hw⟩

theorem Walk.lines_grow (lines : List Str) : ∀ {w w' : Walk}, Inv w.forest → w.Stands →
    lines.foldlM Walk.line w = some w' → Grown w.forest w'.forest ∧ w'.Stands := by
  induction lines with
  | nil =>
    intro w w' h hw hrun
    cases hrun
    exact ⟨.refl h, hw⟩
  | cons line lines ih =>
    intro w w' h hw hrun
    rw [List.foldlM_cons] at hrun
    obtain ⟨w₁, h₁, hrun⟩ := Option.bind_eq_some_iff.mp hrun
    obtain ⟨hg, hw₁⟩ := Walk.line_grows h hw h₁
    obtain ⟨hg', hw'⟩ := ih hg.sheds.inv hw₁ hrun
    exact ⟨hg.trans hg' h, hw'⟩

theorem grown_importDirect (h : Inv f) (ht : f.live t = true) (hrun : importDirect f t content = some g) :
    Grown f g := by
  rw [importDirect] at hrun
  obtain ⟨w, hw, rfl⟩ := Option.map_eq_some_iff.mp hrun
  have hstands : (⟨f, (t, 0), [], [], false, []⟩ : Walk).Stands := by
    intro e he
    obtain rfl := List.mem_singleton.mp he
    exact ht
  obtain ⟨hgrow, hw'⟩ := Walk.lines_grow _ h hstands hw
  exact hgrow.trans (grown_flushContent hgrow.sheds.inv (hw' w.top (by simp))) h

/-- **An import frees nothing** that was there. -/
theorem sheds_load {importer : Importer} (h : Inv f) (ht : f.live t = true)
    (hrun : load k f t content importer = some g) : Sheds f g fun _ => False := by
  cases importer with
  | parsed parse =>
    rw [load] at hrun
    split at hrun
    · cases hrun
      exact .refl h _
    · rename_i tree _
      obtain ⟨g₁, hcopy, hdel⟩ := Option.bind_eq_some_iff.mp hrun
      have hp := Forest.planted h tree (Sheds.refl h fun _ => False)
      have hcp : Sheds (f.plant tree).1 g₁ fun _ => False :=
        (Forest.sheds_copy true false k hp.sheds.inv hcopy).mono fun m _ hm => (by cases hm.1)
      have hroot : g₁.parent (f.plant tree).2 = none := by
        by_contra hne
        obtain ⟨p, hpar⟩ := Option.ne_none_iff_exists'.mp hne
        have hmem := hcp.kids p _ hp.live (hcp.inv.mem_iff.mp hpar)
        have hroot := hp.root
        rw [hp.sheds.inv.mem_iff.mpr hmem] at hroot
        cases hroot
      have hall := hp.sheds.trans hcp h fun _ _ hm => hm
      -- nothing that was there hangs below what was planted
      exact hall.trans (Forest.sheds_delete hcp.inv hroot hdel) h fun m hm hb => by
        have := hall.below_new h hp.new hb
        rw [hm] at this
        cases this
  | direct =>
    rw [load] at hrun
    split at hrun
    · cases hrun
      exact .refl h _
    · exact (grown_importDirect h ht hrun).sheds

end Import

/-! ## The world -/

structure World where
  forest : Forest
  sessions : List Session

namespace World

/-- Nothing has been created. -/
def init : World := ⟨.init, []⟩

/-- What happens: the program calls an operation on the tree, a session is opened on a node, or the
`i`-th session executes a command. -/
inductive Act where
  | op (op : Op)
  | start (root : Id)
  | command (i : Nat) (cmd : Cmd) (args : List Str)

variable (env : Env)

def Step (w : World) : Act → World → Prop
  | .op op, w' => w.forest.Step op w'.forest ∧ w'.sessions = w.sessions
  | .start root, w' => w.forest.live root = true ∧ w' = ⟨w.forest, w.sessions ++ [⟨root, root, []⟩]⟩
  | .command i cmd args, w' => ∃ k s f s', w.sessions[i]? = some s ∧
      execute env k w.forest s cmd args = some (f, s') ∧ w' = ⟨f, w.sessions.set i s'⟩

/-- Every session's current node is live, and every live node's shadow. -/
structure Sound (w : World) : Prop where
  cur : ∀ s ∈ w.sessions, w.forest.live s.cur = true
  shadow : ∀ m t, w.forest.live m = true → w.forest.shadow m = some t → w.forest.live t = true

/-- The operation on the tree that it comes to. -/
def Does (w : World) : Act → Op → Prop
  | .op o, op => op = o
  | .start _, _ => False
  | .command i cmd args, op => ∃ k s, w.sessions[i]? = some s ∧ s.effect k w.forest env cmd args = some (.op op)

/-- The operation frees no session's current node, and no shadow of a node that stays; and a batch that is
inserted holds no node twice. -/
structure Spared (w : World) (op : Op) : Prop where
  cur : ∀ s ∈ w.sessions, ¬ op.frees w.forest s.cur
  shadow : ∀ m t, w.forest.live m = true → w.forest.shadow m = some t → op.frees w.forest t →
    op.frees w.forest m ∧ op.Separate w.forest
  places : w.forest.Places op

def Considerate (w : World) (a : Act) : Prop := ∀ op, w.Does env a op → w.Spared op

end World

section World

variable {env : Env} {w w' : World} {f f' : Forest} {ss : List Session} {s s' : Session} {k : Nat}
  {args : List Str} {cmd : Cmd} {op : Op}

open World

/-- What an operation that frees nothing that is referred to leaves. -/
theorem World.Sound.outcome (h : Sound ⟨f, ss⟩) (ho : Forest.Outcome f op f')
    (hcur : ∀ s ∈ ss, ¬ op.frees f s.cur)
    (hholder : ∀ m t, f.live m = true → f.shadow m = some t → op.frees f t → f'.live m = false)
    (hset : ∀ m t, op = .setShadow m (some t) → f.live t = true) : Sound ⟨f', ss⟩ := by
  have hstay : ∀ m, f.live m = true → ¬ op.frees f m → f'.live m = true := by
    intro m hm hfree
    cases hl : f'.live m with
    | true => rfl
    | false => exact absurd (ho.gone m hm hl) hfree
  refine ⟨fun s hs => hstay _ (h.cur s hs) (hcur s hs), fun m t hm ht => ?_⟩
  rcases ho.shadow m t hm ht with hold | hnew
  · refine hstay t (h.shadow m t hold.1 hold.2) fun hfree => ?_
    rw [hholder m t hold.1 hold.2 hfree] at hm
    cases hm
  · refine hstay t (hset m t hnew) fun hfree => ?_
    subst hnew
    exact hfree

theorem sound_op (h : Sound ⟨f, ss⟩) (hi : Inv f) (hs : f.Step op f') (hsp : (⟨f, ss⟩ : World).Spared op) :
    Inv f' ∧ Sound ⟨f', ss⟩ := by
  have ho := Forest.step_frees hi hs hsp.places
  refine ⟨ho.inv, h.outcome ho hsp.cur (fun m t hm ht hfree => ?_) fun m t he => ?_⟩
  · obtain ⟨hfm, hsep⟩ := hsp.shadow m t hm ht hfree
    exact Forest.step_gone hi hs hsep hfm
  · subst he
    exact hs.1.live t (by simp [Op.args])

/-- A session's new state, where its current node is live. -/
theorem World.Sound.set (h : Sound ⟨f, ss⟩) {i : Nat} (hs : f.live s.cur = true) : Sound ⟨f, ss.set i s⟩ := by
  refine ⟨fun x hx => ?_, h.shadow⟩
  rcases List.mem_or_eq_of_mem_set hx with hx | rfl
  · exact h.cur x hx
  · exact hs

/-- The new current node is live. -/
theorem live_cd (hi : Inv f) (hs : f.live s.cur = true) {n : Id} (hcd : s.cd k f args = some n) :
    f.live n = true := by
  rw [Session.cd] at hcd
  split at hcd
  · cases hcd
    exact hs
  · split_ifs at hcd
    · cases hcd
      exact hs
    · cases hcd
      cases hp : f.parent s.cur with
      | none => exact hs
      | some p => exact (hi.live (hi.mem_iff.mp hp)).1
    · obtain ⟨r, hr, rfl⟩ := Option.map_eq_some_iff.mp hcd
      cases r with
      | none => exact hs
      | some r => exact Forest.live_atPath hi hs hr

/-- A command of a session. -/
theorem sound_execute (h : Sound ⟨f, ss⟩) (hi : Inv f) {i : Nat} (hs : ss[i]? = some s)
    (hsp : ∀ op, s.effect k f env cmd args = some (.op op) → (⟨f, ss⟩ : World).Spared op)
    (hrun : execute env k f s cmd args = some (f', s')) : Inv f' ∧ Sound ⟨f', ss.set i s'⟩ := by
  have hmem := List.mem_of_getElem? hs
  -- nothing is freed
  have hkept : ∀ {g : Forest} {s' : Session} {op : Op}, Forest.Outcome f op g → (∀ m, ¬ op.frees f m) →
      (∀ m t, op ≠ .setShadow m t) → s'.cur = s.cur → Inv g ∧ Sound ⟨g, ss.set i s'⟩ := by
    intro g s' op ho hfree hne hcur
    have hg := h.outcome ho (fun s _ => hfree s.cur) (fun m t _ _ ht => absurd ht (hfree t))
      fun m t he => absurd he (hne m (some t))
    exact ⟨ho.inv, hg.set (hcur ▸ hg.cur s hmem)⟩
  have hsheds : ∀ {g : Forest} {s' : Session}, Sheds f g (fun _ => False) → s'.cur = s.cur →
      Inv g ∧ Sound ⟨g, ss.set i s'⟩ := fun hg hcur =>
    hkept (hg.outcome fun m hm => hm.elim : Forest.Outcome f (.new []) _) (fun m hm => hm)
      (fun m t he => (by cases he)) hcur
  unfold execute at hrun
  split at hrun
  · cases hrun
  rename_i hlive
  have hlive : f.live s.cur = true := by simpa using hlive
  split at hrun
  · obtain ⟨n, hn, he⟩ := Option.map_eq_some_iff.mp hrun
    cases he
    exact ⟨hi, h.set (live_cd hi hlive hn)⟩
  · obtain ⟨e, he, hrun⟩ := Option.bind_eq_some_iff.mp hrun
    cases e with
    | print =>
      cases hrun
      exact ⟨hi, h.set hlive⟩
    | op op =>
      rw [Effect.apply] at hrun
      split at hrun
      · rename_i hvalid
        obtain ⟨g, hg, heq⟩ := Option.map_eq_some_iff.mp hrun
        cases heq
        obtain ⟨hinv, hsound⟩ := sound_op h hi ⟨Forest.valid_of_validB hvalid, k, hg⟩ (hsp op he)
        exact ⟨hinv, hsound.set (hsound.cur s hmem)⟩
      · cases hrun
    | take child =>
      cases hrun
      exact hsheds (Forest.sheds_take hi s.cur child _) rfl
    | adopt idx n =>
      rw [Effect.apply] at hrun
      split at hrun
      · rename_i hn
        cases hrun
        exact hkept (Forest.outcome_insert hi hlive hn : Forest.Outcome f (.new []) _) (fun m hm => hm)
          (fun m t he => (by cases he)) rfl
      · cases hrun
    | load t importer content =>
      rw [Effect.apply] at hrun
      split at hrun
      · rename_i ht
        obtain ⟨g, hg, heq⟩ := Option.map_eq_some_iff.mp hrun
        cases heq
        exact hsheds (sheds_load hi ht hg) rfl
      · cases hrun

theorem sound_step {a : Act} (h : Inv w.forest ∧ w.Sound) (hs : Guarded (Considerate env) (World.Step env) w a w') :
    Inv w'.forest ∧ w'.Sound := by
  obtain ⟨hc, hs⟩ := hs
  cases a with
  | op op =>
    obtain ⟨hop, hss⟩ := hs
    obtain ⟨hinv, hsound⟩ := sound_op h.2 h.1 hop (hc op rfl)
    refine ⟨hinv, fun s hs => hsound.cur s ?_, hsound.shadow⟩
    rwa [hss] at hs
  | start root =>
    obtain ⟨hroot, rfl⟩ := hs
    refine ⟨h.1, fun s hs => ?_, h.2.shadow⟩
    rcases List.mem_append.mp hs with hs | hs
    · exact h.2.cur s hs
    · obtain rfl := List.mem_singleton.mp hs
      exact hroot
  | command i cmd args =>
    obtain ⟨k, s, f, s', hi, hrun, rfl⟩ := hs
    exact sound_execute h.2 h.1 hi (fun op he => hc op ⟨k, s, hi, he⟩) hrun

theorem sound_init : World.init.Sound := ⟨fun s hs => (by cases hs), fun m t hm => (by cases hm)⟩

/-- A step, with a bound on what is followed. -/
def World.exec (env : Env) (k : Nat) (w : World) : Act → Option World
  | .op op => if w.forest.validB op then (w.forest.run k op).map fun f => ⟨f, w.sessions⟩ else none
  | .start root => if w.forest.live root then some ⟨w.forest, w.sessions ++ [⟨root, root, []⟩]⟩ else none
  | .command i cmd args => w.sessions[i]?.bind fun s =>
      (execute env k w.forest s cmd args).map fun r => ⟨r.1, w.sessions.set i r.2⟩

theorem step_of_exec {a : Act} (h : World.exec env k w a = some w') : World.Step env w a w' := by
  cases a with
  | op op =>
    rw [World.exec] at h
    split at h
    · rename_i hvalid
      obtain ⟨f, hf, rfl⟩ := Option.map_eq_some_iff.mp h
      exact ⟨⟨Forest.valid_of_validB hvalid, k, hf⟩, rfl⟩
    · cases h
  | start root =>
    rw [World.exec] at h
    split at h
    · rename_i hroot
      cases h
      exact ⟨hroot, rfl⟩
    · cases h
  | command i cmd args =>
    obtain ⟨s, hs, h⟩ := Option.bind_eq_some_iff.mp h
    obtain ⟨r, hr, rfl⟩ := Option.map_eq_some_iff.mp h
    exact ⟨k, s, r.1, r.2, hs, hr, rfl⟩

theorem runs_exec (as : List Act) : ∀ {w w' : World}, as.foldlM (World.exec env k) w = some w' →
    Runs (World.Step env) w as w' := by
  induction as with
  | nil =>
    intro w w' h
    cases h
    exact .nil
  | cons a as ih =>
    intro w w' h
    rw [List.foldlM_cons] at h
    obtain ⟨w₁, h₁, h⟩ := Option.bind_eq_some_iff.mp h
    exact .cons (step_of_exec h₁) (ih h)

/-- No files and no formats. -/
def bareEnv : Env := ⟨fun _ => none, fun _ => none⟩

/-- A session at the root, and a child that goes. -/
def clearedActs : List Act :=
  [.op (.new (ascii "root")), .op (.new (ascii "b")), .op (.insert 0 (some 1) (-1)), .start 0,
    .command 0 .rm [ascii "rm", ascii "-c"]]

def clearedWorld (n : Nat) : World := ((clearedActs.take n).foldlM (World.exec bareEnv 5) .init).getD .init

/-- An operation that frees nothing and inserts at most one node spares all. -/
theorem spared_of_nothing (hfree : ∀ m, ¬ op.frees w.forest m)
    (hone : ∀ {this cs index}, op.inserts = some (this, cs, index) → cs.Nodup) : w.Spared op :=
  ⟨fun _ _ => hfree _, fun _ _ _ _ ht => absurd ht (hfree _), fun hins _ => hone hins⟩

theorem cleared_spared : (clearedWorld 4).Spared (.clear 0 true) := by
  have hnodes : (clearedWorld 4).forest.nodes 0 = [1] ∧ (clearedWorld 4).forest.nodes 1 = [] := by decide
  have hshadow : (clearedWorld 4).forest.shadow 0 = none ∧ (clearedWorld 4).forest.shadow 1 = none := by decide
  have hlive : ∀ m, (clearedWorld 4).forest.live m = if m = 1 then true else if m = 0 then true else false :=
    fun _ => rfl
  have hbelow : ∀ m, Below (clearedWorld 4).forest 1 m → m = 1 := by
    intro m hb
    induction hb with
    | refl => rfl
    | step _ hm ih =>
      rw [ih, hnodes.2] at hm
      cases hm
  refine ⟨fun s hs hfree => ?_, fun m t hm ht => ?_, fun hins => (by cases hins)⟩
  · have hs : s = ⟨0, 0, []⟩ := List.mem_singleton.mp hs
    subst hs
    obtain ⟨c, hc, hb⟩ := hfree
    rw [hnodes.1] at hc
    obtain rfl := List.mem_singleton.mp hc
    cases hbelow 0 hb
  · rw [hlive] at hm
    split_ifs at hm with h1 h0
    · rw [h1, hshadow.2] at ht
      cases ht
    · rw [h0, hshadow.1] at ht
      cases ht

/-- Two sessions on one root: the second removes the node that the first is in. -/
def removedActs : List Act :=
  [.op (.new (ascii "root")), .op (.new (ascii "a")), .op (.insert 0 (some 1) (-1)), .start 0, .start 0,
    .command 0 .cd [ascii "cd", ascii "a"], .command 1 .rm [ascii "rm", ascii "a"]]

end World

end Terminal

end VersatileEngine
