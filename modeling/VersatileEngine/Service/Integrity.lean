import VersatileEngine.Service.Following
import VersatileEngine.Service.Gateway
import VersatileEngine.Service.Loading

/-!
# VersatileEngine.Service.Integrity

What no request can break.

* `Forest.Sane`   — the forest is in order, every lookup on it ends, the root is there and is a root, and no node has a
  shadow.
* `forest_keeps`  — the operations that the protocol has on a forest keep it, so each follows itself.
* `tree_survives` — so whatever bytes the TCP servers receive, on however many connections, the forest they serve
  stays sane.
-/

namespace VersatileEngine

open Sessions

/-! ## The operations on a forest -/

namespace Forest

/-- The forest is in order, every climb on it ends, the root is there and is a root, and no node has a shadow. -/
structure Sane (root : Id) (f : Forest) : Prop where
  secure : Secure f [root]
  top : f.parent root = none
  shadow : ∀ m, f.live m = true → f.shadow m = none

section Sane

variable {root this n : Id} {f f' : Forest} {S : Id → Prop}

theorem Sane.live (h : Sane root f) : f.live root = true := h.secure.held root List.mem_cons_self

/-- Where nodes are only shed, a root stays a root. -/
theorem Sheds.stays_root (hd : Sheds f f' S) (hi : Inv f) {m : Id} (hm : f.live m = true)
    (hr : f.parent m = none) : f'.parent m = none := by
  cases hp : f'.parent m with
  | none => rfl
  | some p =>
    have hold := hi.mem_iff.mpr (hd.kids p m hm (hd.inv.mem_iff.mp hp))
    rw [hr] at hold
    cases hold

/-- What keeps the forest secure and only sheds nodes keeps it sane. -/
theorem Sane.sheds (h : Sane root f) (hs : Secure f' [root]) (hd : Sheds f f' S) : Sane root f' := by
  refine ⟨hs, hd.stays_root h.secure.inv h.live h.top, fun m hm => ?_⟩
  cases ht : f'.shadow m with
  | none => rfl
  | some t =>
    obtain ⟨hm', ht'⟩ := hd.shadow m t hm ht
    rw [h.shadow m hm'] at ht'
    cases ht'

/-- The root is below no other node. -/
theorem Sane.not_below (h : Sane root f) (hb : Below f n root) : n = root := by
  cases hb with
  | refl => rfl
  | step _ hm =>
    have hp := h.secure.inv.mem_iff.mpr hm
    rw [h.top] at hp
    cases hp

/-- Without shadows, an operation is careful when it closes no circle and spares what is held. -/
theorem Sane.careful (h : Sane root f) {op : Op} {held : List Id} (hins : op.inserts = none)
    (hsh : op.setsShadow = false) (hl : Unlapped f op) (hheld : ∀ m ∈ held, ¬ op.frees f m) : Careful f held op :=
  ⟨uncircular_of_noInsert hins hsh, hl, hheld, fun m t hm ht => by rw [h.shadow m hm] at ht; cases ht⟩

theorem Sane.ensured (h : Sane root f) {k : Nat} {path : Str} {s : Bool} {r : Forest × Option Id}
    (hr : f.ensurePath k root path s = some r) : Sane root r.1 ∧ ∀ n, r.2 = some n → r.1.live n = true := by
  obtain ⟨hreach, hlive⟩ := makes_ensurePath h.secure.inv h.live hr
  refine ⟨⟨h.secure.ensured h.live hr, ?_, fun m hm => ?_⟩, hlive⟩
  · rw [ensurePath_eq] at hr
    obtain ⟨p, hstart, hseg⟩ := Option.bind_eq_some_iff.mp hr
    have hext := (ensureSegments_spec h.secure.inv (walkStart_live h.secure.inv h.live hstart) hseg).1
    have hsame := congrArg Node.parent (hext.same root h.live)
    exact hsame.trans h.top
  · cases ht : r.1.shadow m with
    | none => rfl
    | some t =>
      obtain ⟨hm', ht'⟩ := hreach.shadow_old h.secure.inv m t hm ht
      rw [h.shadow m hm'] at ht'
      cases ht'

theorem Sane.set (h : Sane root f) (hn : f.live n = true) (v : Var) : Sane root (f.set n v) :=
  h.sheds (h.secure.reaches (reaches_set hn v) fun m hm => by simpa [Forest.set] using hm)
    (sheds_set h.secure.inv hn v fun _ => False)

/-- A signal changes nothing. -/
theorem Sane.emit (h : Sane root f) (n : Id) (s : Signal) : Sane root (f.emit n s) where
  secure := ⟨h.secure.inv.same rfl rfl rfl rfl rfl, ⟨h.secure.ending.rooted, h.secure.ending.shadow⟩, h.secure.held,
    h.secure.shadow⟩
  top := h.top
  shadow := h.shadow

/-- A node that is erased has a parent, so it is not the root. -/
theorem Sane.erased (h : Sane root f) {k : Nat} {path : Str} {b : Bool} (hr : f.erase k root path = some (f', b)) :
    Sane root f' := by
  obtain ⟨t, hfind, hr⟩ := Option.bind_eq_some_iff.mp hr
  cases t with
  | none =>
    cases hr
    exact h
  | some t =>
    dsimp only at hr
    cases hp : f.parent t with
    | none =>
      rw [hp] at hr
      cases hr
      exact h
    | some p =>
      rw [hp] at hr
      have ht := live_atPath h.secure.inv h.live hfind
      have hmem := h.secure.inv.mem_iff.mp hp
      have hvalid : Valid f (.remove p (some t)) :=
        valid_of_validB (validB_of_live rfl (live_both (h.secure.inv.live hmem).1 ht))
      have hcare : Careful f [root] (.remove p (some t)) := by
        refine h.careful rfl rfl trivial fun m hm hfree => ?_
        obtain rfl := List.mem_singleton.mp hm
        obtain ⟨c, hc, -, hb⟩ := hfree
        cases hc
        have hroot := h.top
        rw [← h.not_below hb, hp] at hroot
        cases hroot
      have hstep : Step f (.remove p (some t)) f' := ⟨hvalid, k, by simp only [Forest.run, hr, Option.map_some]⟩
      exact h.sheds (h.secure.step hcare hstep) (sheds_remove h.secure.inv hr)

/-- A node is copied onto another one, and neither is part of the other. -/
theorem Sane.copy (h : Sane root f) (hn : f.live n = true) {src : Id} (hsrc : f.live src = true)
    (hclimb : ¬ Climbs f.parent n src) (hother : ¬ Climbs f.parent src n) {k : Nat} {ai ar au : Bool}
    (hr : f.copy k n (some src) ai ar au = some f') : Sane root f' ∧ Secure f' [n, root] := by
  have hfrees : ∀ m ∈ [n, root], ¬ (Op.copy n (some src) ai ar au).frees f m := fun m hm hfree => by
    cases ar with
    | false => exact hfree
    | true =>
      obtain ⟨o, -, -, hb, hne, -⟩ := hfree
      rcases List.mem_pair.mp hm with rfl | rfl
      · exact hne rfl
      · exact hne (h.not_below hb).symm
  have hcare : Careful f [n, root] (.copy n (some src) ai ar au) :=
    h.careful rfl rfl (.inr ⟨hclimb, hother⟩) hfrees
  have hvalid : Valid f (.copy n (some src) ai ar au) := valid_of_validB (validB_of_live rfl (live_both hn hsrc))
  have hsecure : Secure f' [n, root] := (h.secure.cons hn).step hcare ⟨hvalid, k, hr⟩
  have hroot : Secure f' [root] := hsecure.mono fun m hm => hsecure.held m (List.mem_cons_of_mem _ hm)
  exact ⟨h.sheds hroot (sheds_copy ai au k h.secure.inv hr), hsecure⟩

/-- A node without a parent is deleted, and what is held is not below it. -/
theorem Sane.deleted (h : Sane root f) (hs : Secure f [n, root]) {m : Id} (hm : f.parent m = none)
    (hspared : ∀ i ∈ [n, root], ¬ (Op.delete m).frees f i) {k : Nat} (hr : f.deleteNode k m = some f') :
    Sane root f' ∧ f'.live n = true := by
  have hvalid : Valid f (.delete m) :=
    ⟨List.forall_mem_singleton.mpr (live_of_deleteNode hr), fun i hi => by cases hi; exact hm⟩
  have hcare : Careful f [n, root] (.delete m) := h.careful rfl rfl trivial hspared
  have hsecure : Secure f' [n, root] := hs.step hcare ⟨hvalid, k, hr⟩
  have hroot : Secure f' [root] := hsecure.mono fun i hi => hsecure.held i (List.mem_cons_of_mem _ hi)
  exact ⟨h.sheds hroot (sheds_delete h.secure.inv hm hr), hsecure.held n List.mem_cons_self⟩

/-- A tree that was planted beside the forest is copied onto a node and deleted again. -/
theorem Sane.copied (h : Sane root f) (hn : f.live n = true) (t : Tree) {k : Nat} {ai ar au : Bool}
    (hr : ((f.plant t).1.copy k n (some (f.plant t).2) ai ar au).bind
      (fun g => g.deleteNode k (f.plant t).2) = some f') :
    Sane root f' ∧ f'.live n = true := by
  obtain ⟨g, hcopy, hdelete⟩ := Option.bind_eq_some_iff.mp hr
  have hp := planted h.secure.inv t (Sheds.refl h.secure.inv fun _ => True)
  obtain ⟨hsec, hlive, hkeep⟩ := secure_plant t h.secure
  have hplant : Sane root (f.plant t).1 := h.sheds hsec hp.sheds
  -- neither the node nor the planted tree is part of the other
  have hclimb : ¬ Climbs (f.plant t).1.parent n (f.plant t).2 := fun hc => by
    have hold := hp.sheds.climbs_old h.secure.inv hn hc
    rw [hp.new] at hold
    cases hold
  have hother : ¬ Climbs (f.plant t).1.parent (f.plant t).2 n := fun hc => by
    rw [← hc.of_root hp.root, hp.new] at hn
    cases hn
  obtain ⟨hg, hsecure⟩ := hplant.copy (hkeep n hn) hlive hclimb hother hcopy
  -- what was planted is still a root, and nothing old is below it
  have hsheds := sheds_copy ai au k hplant.secure.inv hcopy
  have hheld : ∀ m ∈ [n, root], f.live m = true := live_both hn h.live
  have hspared : ∀ m ∈ [n, root], ¬ (Op.delete (f.plant t).2).frees g m := fun m hm hb => by
    have hnew := (hp.sheds.trans hsheds h.secure.inv fun _ _ _ => trivial).below_new h.secure.inv hp.new hb
    rw [hheld m hm] at hnew
    cases hnew
  exact hg.deleted hsecure (hsheds.stays_root hplant.secure.inv hlive hp.root) hspared hdelete

/-! ## Applications and servers -/

/-- The services beside the nodes keep `P`. -/
structure Services.Keeps {S : Type} (services : Services S) (P : S → Prop) : Prop where
  drive : ∀ {s}, P s → ∀ key input, Leaves P (services.commands.drive s key input)
  start : ∀ {s}, P s → ∀ key input, Leaves P (services.start s key input)
  drop : ∀ {s}, P s → P (services.drop s)
  attach : ∀ {s}, P s → ∀ name id, P (services.attach s name id).1
  subscribe : ∀ {s}, P s → ∀ path bubble tree, P (services.subscribe s path bubble tree)
  unsubscribe : ∀ {s}, P s → ∀ path, P (services.unsubscribe s path)

/-- **The operations of the protocol keep a sane forest**, and lead to nodes that are there. -/
theorem forest_keeps {T : Type} {services : Services (Forest × T)} (k : Nat)
    (hs : services.Keeps fun s => Sane root s.1) :
    Protocol.App.Follows (fun _ => app k root services) (app k root services) (Itself fun s => Sane root s.1)
      fun s _ n m => n = m ∧ s.1.live n = true where
  find {s t} h path := by
    obtain ⟨rfl, h⟩ := h
    refine .const ?_
    cases hr : (app k root services).find s path with
    | none => exact .none
    | some r =>
      cases r with
      | none => exact .some .none
      | some n => exact .some (.some ⟨rfl, live_atPath h.secure.inv h.live hr⟩)
  ensure {s t} h path := by
    obtain ⟨rfl, h⟩ := h
    refine .const ?_
    cases hr : (app k root services).ensure s path with
    | none => exact .none
    | some r =>
      obtain ⟨q, hq, rfl⟩ := Option.map_eq_some_iff.mp hr
      obtain ⟨hsane, hlive⟩ := h.ensured hq
      refine .some ⟨⟨rfl, hsane⟩, ?_⟩
      dsimp only
      cases hn : q.2 with
      | none => exact .none
      | some n => exact .some ⟨rfl, hlive n hn⟩
  erase {s t} h path := by
    obtain ⟨rfl, h⟩ := h
    refine .const (Leaves.follows fun r hr => ?_)
    obtain ⟨q, hq, rfl⟩ := Option.map_eq_some_iff.mp hr
    exact h.erased hq
  path {s t n m} h hn := by
    obtain ⟨rfl, -⟩ := h
    obtain ⟨rfl, -⟩ := hn
    exact .of_forall fun _ => rfl
  parent {s t n m} h hn := by
    obtain ⟨rfl, h⟩ := h
    obtain ⟨rfl, -⟩ := hn
    refine .const ?_
    cases hp : (app k root services).parent s n with
    | none => exact .none
    | some p => exact .some ⟨rfl, (h.secure.inv.live (h.secure.inv.mem_iff.mp hp)).1⟩
  children {s t n m} h hn := by
    obtain ⟨rfl, h⟩ := h
    obtain ⟨rfl, -⟩ := hn
    exact .const (List.forall₂_same.mpr fun c hc => ⟨rfl, (h.secure.inv.live hc).2⟩)
  tree {s t n m} h hn := by
    obtain ⟨rfl, -⟩ := h
    obtain ⟨rfl, -⟩ := hn
    exact .of_forall fun _ => rfl
  hasShadow {s t n m} h hn _ := by
    obtain ⟨rfl, -⟩ := h
    obtain ⟨rfl, -⟩ := hn
    rfl
  set {s t n m} h hn v := by
    obtain ⟨rfl, h⟩ := h
    obtain ⟨rfl, hn⟩ := hn
    exact .const ⟨⟨rfl, h.set hn v⟩, rfl, by simpa [app, Forest.set] using hn⟩
  copy {s t n m} h hn options tree := by
    obtain ⟨rfl, h⟩ := h
    obtain ⟨rfl, hn⟩ := hn
    refine .const ?_
    cases hr : (app k root services).copy options s n tree with
    | none => exact .none
    | some r =>
      obtain ⟨f', hf, rfl⟩ := Option.map_eq_some_iff.mp hr
      obtain ⟨hsane, hlive⟩ := h.copied hn tree hf
      exact .some ⟨⟨rfl, hsane⟩, rfl, hlive⟩
  trigger {s t n m} h hn := by
    obtain ⟨rfl, h⟩ := h
    obtain ⟨rfl, hn⟩ := hn
    exact .const ⟨⟨rfl, h.emit n _⟩, rfl, hn⟩
  keys h _ := by
    obtain ⟨rfl, -⟩ := h
    rfl
  help h _ _ := by
    obtain ⟨rfl, -⟩ := h
    rfl
  command h _ _ := by
    obtain ⟨rfl, -⟩ := h
    rfl
  drive h key input := by
    obtain ⟨rfl, h⟩ := h
    exact .const (hs.drive h key input).follows
  start h key input := by
    obtain ⟨rfl, h⟩ := h
    exact .const (hs.start h key input).follows
  drop h := by
    obtain ⟨rfl, h⟩ := h
    exact .const ⟨rfl, hs.drop h⟩
  attach h name id := by
    obtain ⟨rfl, h⟩ := h
    exact .const ⟨⟨rfl, hs.attach h name id⟩, rfl⟩
  subscribe h path bubble tree := by
    obtain ⟨rfl, h⟩ := h
    exact .const ⟨rfl, hs.subscribe h path bubble tree⟩
  unsubscribe h path := by
    obtain ⟨rfl, h⟩ := h
    exact .const ⟨rfl, hs.unsubscribe h path⟩
  count h _ _ := by
    obtain ⟨rfl, -⟩ := h
    rfl

end Sane

end Forest

section Servers

open Protocol

variable {T : Type} {root : Id}

/-- **Whatever is received, the forest stays sane**, on the server for lines of JSON and on the binary one: no bytes on
any number of connections break the tree, free its root or make a lookup on it endless, as long as the commands and
the application itself keep to that. -/
theorem tree_survives (k : Nat) (ctx : Context) (services : SessionKey → Forest.Services (Forest × T))
    (removeSession : SessionKey → Forest × T → Forest × T) {s : Forest × T}
    {es : List (Traffic SessionKey UInt8 (Forest × T))} (hs : s.1.Sane root)
    (hservices : ∀ key, (services key).Keeps fun s => s.1.Sane root)
    (hremove : ∀ key {s : Forest × T}, s.1.Sane root → (removeSession key s).1.Sane root)
    (helse : ∀ change, .elsewhere change ∈ es → ∀ {s : Forest × T}, s.1.Sane root → (change s).1.Sane root) :
    (∀ v, NodeTcpServer.run (fun key => Forest.app k root (services key)) ctx removeSession s es = some v →
      v.state.1.Sane root) ∧
    ∀ v, BinTcpServer.run (fun key => Forest.app k root (services key)) ctx removeSession s es = some v →
      v.state.1.Sane root := by
  have happ := fun key => Forest.forest_keeps k (hservices key)
  have hleave : ∀ {s t : Forest × T}, Itself (fun s => s.1.Sane root) s t → ∀ key,
      Itself (fun s => s.1.Sane root) (removeSession key s) (removeSession key t) := fun {s t} hs key => by
    obtain ⟨rfl, hs⟩ := hs
    exact ⟨rfl, hremove key hs⟩
  refine ⟨fun v hv => ?_, fun v hv => ?_⟩
  · obtain ⟨x, hx, -⟩ := lines_follow ctx happ hleave (Traffic.kept helse) ⟨rfl, hs⟩
    rw [hv] at hx
    cases hx with
    | some hx => exact hx.state.1 ▸ hx.state.2
  · obtain ⟨x, hx, -⟩ := frames_follow ctx happ hleave (Traffic.kept helse) ⟨rfl, hs⟩
    rw [hv] at hx
    cases hx with
    | some hx => exact hx.state.1 ▸ hx.state.2

theorem sane_emptyRoot : emptyRoot.1.Sane 0 where
  secure := (Forest.secure_init.newNode []).cons rfl
  top := rfl
  shadow m _ := by
    rw [emptyRoot, Forest.newNode_shadow]
    split <;> rfl

theorem keeps_noServices (P : Forest × Unit → Prop) : noServices.Keeps P where
  drive h _ _ := fun _ hr => (by cases hr)
  start h _ _ := fun _ hr => (by cases hr)
  drop h := h
  attach h _ _ := h
  subscribe h _ _ _ := h
  unsubscribe h _ := h

/-- A connection asks for a node to be made and for the root to be removed. -/
def sampleTraffic {S : Type} : List (Traffic SessionKey UInt8 S) :=
  [.opened 1, .received 1 (ascii "\x7b\"op\":\"node.set\",\"path\":\"a/b\",\"value\":1\x7d\n\x7b\"op\":\"node.rem"),
    .received 1 (ascii "ove\",\"path\":\"/\"\x7d\n"), .closed 1]

theorem tree_survives_sample : ∃ v, NodeTcpServer.run (fun _ => Forest.app 8 0 noServices) plainContext (fun _ s => s)
    emptyRoot sampleTraffic = some v ∧ (v.sent.length = 2 ∧ v.state.1.Sane 0) := by
  have hsome : ((NodeTcpServer.run (fun _ => Forest.app 8 0 noServices) plainContext (fun _ s => s) emptyRoot
      sampleTraffic).map fun v => v.sent.length) = some 2 := by decide +kernel
  obtain ⟨v, hv, hlen⟩ := Option.map_eq_some_iff.mp hsome
  refine ⟨v, hv, hlen, ?_⟩
  exact (tree_survives 8 plainContext (fun _ => noServices) (fun _ s => s) sane_emptyRoot (fun _ => keeps_noServices _)
    (fun _ {_} hs => hs) (fun change hm => by simp [sampleTraffic] at hm)).1 v hv

end Servers

end VersatileEngine
