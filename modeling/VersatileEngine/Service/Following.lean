import VersatileEngine.Lib.Settling
import VersatileEngine.Service.TcpServers

/-!
# VersatileEngine.Service.Following

One application that does what another does, and what follows for the requests that are made of them.

* `App.Follows R Q`  — the operations of an application with a bound settle on those of another one, with
  `R` between the states and `Q` between the nodes.
* `dispatch_follows` — so does every request, by induction on the request.
* `lines_follow`, `frames_follow` — **the servers over the two send the same bytes.**
-/

namespace VersatileEngine

open Filter Sessions

namespace Protocol

section Follows

variable {S T N M : Type} {a : Nat → App S N} {b : App T M} {R : S → T → Prop} {Q : S → T → N → M → Prop}
  {ctx : Context} {s : S} {t : T} {n : N} {m : M}

variable (a b R Q) in
structure App.Follows : Prop where
  find : ∀ {s t}, R s t → ∀ path, Settled (Option.Rel (Option.Rel (Q s t))) (fun k => (a k).find s path) (b.find t path)
  ensure : ∀ {s t}, R s t → ∀ path, Settled (Option.Rel fun x y => R x.1 y.1 ∧ Option.Rel (Q x.1 y.1) x.2 y.2)
    (fun k => (a k).ensure s path) (b.ensure t path)
  erase : ∀ {s t}, R s t → ∀ path, Settled (Option.Rel (Replies R)) (fun k => (a k).erase s path) (b.erase t path)
  path : ∀ {s t n m}, R s t → Q s t n m → ∀ᶠ k in atTop, (a k).path s n = b.path t m
  parent : ∀ {s t n m}, R s t → Q s t n m → Settled (Option.Rel (Q s t)) (fun k => (a k).parent s n) (b.parent t m)
  children : ∀ {s t n m}, R s t → Q s t n m →
    Settled (List.Forall₂ (Q s t)) (fun k => (a k).children s n) (b.children t m)
  tree : ∀ {s t n m}, R s t → Q s t n m → ∀ᶠ k in atTop, (a k).tree s n = b.tree t m
  hasShadow : ∀ {s t n m}, R s t → Q s t n m → ∀ k, (a k).hasShadow s n = b.hasShadow t m
  set : ∀ {s t n m}, R s t → Q s t n m → ∀ v,
    Settled (fun s' t' => R s' t' ∧ Q s' t' n m) (fun k => (a k).set s n v) (b.set t m v)
  copy : ∀ {s t n m}, R s t → Q s t n m → ∀ options tree,
    Settled (Option.Rel fun s' t' => R s' t' ∧ Q s' t' n m) (fun k => (a k).copy options s n tree) (b.copy options t m tree)
  trigger : ∀ {s t n m}, R s t → Q s t n m →
    Settled (fun s' t' => R s' t' ∧ Q s' t' n m) (fun k => (a k).trigger s n) (b.trigger t m)
  keys : ∀ {s t}, R s t → ∀ k, (a k).commands.keys s = b.commands.keys t
  help : ∀ {s t}, R s t → ∀ k key, (a k).commands.help s key = b.commands.help t key
  command : ∀ {s t}, R s t → ∀ k name, (a k).commands.find s name = b.commands.find t name
  drive : ∀ {s t}, R s t → ∀ key input, Settled (Option.Rel (Replies R)) (fun k => (a k).commands.drive s key input)
    (b.commands.drive t key input)
  start : ∀ {s t}, R s t → ∀ key input, Settled (Option.Rel (Replies R)) (fun k => (a k).start s key input)
    (b.start t key input)
  drop : ∀ {s t}, R s t → Settled R (fun k => (a k).drop s) (b.drop t)
  attach : ∀ {s t}, R s t → ∀ name id, Settled (Replies R) (fun k => (a k).attach s name id) (b.attach t name id)
  subscribe : ∀ {s t}, R s t → ∀ path bubble tree,
    Settled R (fun k => (a k).subscribe s path bubble tree) (b.subscribe t path bubble tree)
  unsubscribe : ∀ {s t}, R s t → ∀ path, Settled R (fun k => (a k).unsubscribe s path) (b.unsubscribe t path)
  count : ∀ {s t}, R s t → ∀ k path, (a k).getSubscriberCount s path = b.getSubscriberCount t path

/-! ## Reading -/

theorem subscribers_follow (ha : App.Follows a b R Q) (hs : R s t) (k : Nat) (path : Str) :
    subscribers (a k) ctx s path = subscribers b ctx t path := by
  rw [subscribers, subscribers, ha.count hs]

variable (ctx) in
theorem makeNodeMeta_follows (ha : App.Follows a b R Q) (hs : R s t) (hn : Q s t n m) :
    ∀ᶠ k in atTop, makeNodeMeta (a k) ctx s n = makeNodeMeta b ctx t m := by
  obtain ⟨p, hp, hparent⟩ := ha.parent hs hn
  -- the path of the parent, where there is one
  have hup : ∀ᶠ k in atTop, (p.toList.map fun p => Tree.leaf (ascii "parent_path") (.string ((a k).path s p))) =
      (b.parent t m).toList.map fun p => Tree.leaf (ascii "parent_path") (.string (b.path t p)) := by
    revert hp
    generalize b.parent t m = q
    intro hp
    cases hp with
    | none => exact .of_forall fun _ => rfl
    | some hp => exact (ha.path hs hp).mono fun k hk => by simp only [Option.toList_some, List.map_cons, List.map_nil, hk]
  filter_upwards [ha.tree hs hn, ha.path hs hn, hparent, hup] with k htree hpath hparent hup
  simp only [makeNodeMeta, htree, hpath, hparent, hup, ha.hasShadow hs hn, subscribers_follow ha hs]

variable (ctx) in
theorem makeChildInfo_follows (ha : App.Follows a b R Q) (hs : R s t) (hn : Q s t n m) (withMeta : Bool) :
    ∀ᶠ k in atTop, makeChildInfo (a k) ctx s n withMeta = makeChildInfo b ctx t m withMeta := by
  filter_upwards [ha.tree hs hn, ha.path hs hn] with k htree hpath
  simp only [makeChildInfo, htree, hpath, subscribers_follow ha hs]

theorem nodeGet_follows (ha : App.Follows a b R Q) (hs : R s t) (req : Request) :
    Settled (Option.Rel (Replies R)) (fun k => nodeGet (a k) ctx s req) (nodeGet b ctx t req) := by
  refine (ha.find hs _).bind fun r r' hr => ?_
  cases hr with
  | none => exact .const (.some ⟨hs, rfl⟩)
  | some hn =>
    rename_i n m
    have htree : Settled (Option.Rel Eq) (fun k => if (req (ascii "depth")).isSome then
          (exportTreeVar ctx ((a k).tree s n) ((req.get (ascii "depth")).toInt ctx.platform (-1))).map
            fun v => [Tree.leaf (ascii "tree") v]
        else some []) (if (req (ascii "depth")).isSome then
          (exportTreeVar ctx (b.tree t m) ((req.get (ascii "depth")).toInt ctx.platform (-1))).map
            fun v => [Tree.leaf (ascii "tree") v]
        else some []) :=
      .of_eventually ((ha.tree hs hn).mono fun k hk => by simp only [hk]) (option_rel_eq _)
    refine htree.map fun tree tree' heq => .reply hs ?_
    filter_upwards [ha.tree hs hn, ha.path hs hn, makeNodeMeta_follows ctx ha hs hn] with k htree hpath hmeta
    simp only [heq, htree, hpath, hmeta]

theorem nodeList_follows (ha : App.Follows a b R Q) (hs : R s t) (req : Request) :
    Settled (Option.Rel (Replies R)) (fun k => nodeList (a k) ctx s req) (nodeList b ctx t req) := by
  refine (ha.find hs _).map fun r r' hr => ?_
  cases hr with
  | none => exact .const ⟨hs, rfl⟩
  | some hn =>
    obtain ⟨ns, hns, hchildren⟩ := ha.children hs hn
    refine .reply hs ?_
    filter_upwards [ha.path hs hn, hchildren, eventually_map hns fun n m hn =>
      makeChildInfo_follows ctx ha hs hn ((req.get (ascii "meta")).toBool false)] with k hpath hchildren hinfo
    simp only [hpath, hchildren, hinfo]

/-! ## Writing -/

/-- What is done with the node that `at(path)` makes. -/
theorem withTarget_follows (ha : App.Follows a b R Q) (hs : R s t) (path : Str)
    {act : Nat → S → N → Option (S × Reply)} {act' : T → M → Option (T × Reply)}
    (h : ∀ s t n m, R s t → Q s t n m → Settled (Option.Rel (Replies R)) (fun k => act k s n) (act' t m)) :
    Settled (Option.Rel (Replies R)) (fun k => withTarget ((a k).ensure s path) (act k))
      (withTarget (b.ensure t path) act') := by
  refine (ha.ensure hs path).bind fun x y hx => ?_
  obtain ⟨s₁, n⟩ := x
  obtain ⟨t₁, m⟩ := y
  obtain ⟨hs₁, hn⟩ := hx
  cases hn with
  | none => exact .const .none
  | some hn => exact h _ _ _ _ hs₁ hn

theorem pathData_follows (ha : App.Follows a b R Q) (hs : R s t) (hn : Q s t n m) :
    Settled (Replies R) (fun k => (s, pathData ((a k).path s n))) (t, pathData (b.path t m)) :=
  .reply hs ((ha.path hs hn).mono fun k hk => by rw [hk])

theorem nodeSet_follows (ha : App.Follows a b R Q) (hs : R s t) (req : Request) :
    Settled (Option.Rel (Replies R)) (fun k => nodeSet (a k) ctx s req) (nodeSet b ctx t req) := by
  simp only [nodeSet]
  cases req (ascii "value") with
  | none => exact .const (.some ⟨hs, rfl⟩)
  | some valueNode =>
    refine withTarget_follows ha hs _ fun s t n m hs hn => ?_
    obtain ⟨s₁, ⟨hs₁, hn₁⟩, hset⟩ := ha.set hs hn (nodeToVar .default valueNode)
    refine Settled.some (.congr (hset.mono fun k hk => ?_) (pathData_follows ha hs₁ hn₁))
    simp only [hk]

theorem nodePut_follows (ha : App.Follows a b R Q) (hs : R s t) (req : Request) :
    Settled (Option.Rel (Replies R)) (fun k => nodePut (a k) ctx s req) (nodePut b ctx t req) := by
  simp only [nodePut]
  cases (req (ascii "tree")).or (req (ascii "value")) with
  | none => exact .const (.some ⟨hs, rfl⟩)
  | some treeNode =>
    refine withTarget_follows ha hs _ fun s t n m hs hn => ?_
    exact (ha.copy hs hn _ _).map fun s₁ t₁ h => pathData_follows ha h.1 h.2

theorem nodeRemove_follows (ha : App.Follows a b R Q) (hs : R s t) (req : Request) :
    Settled (Option.Rel (Replies R)) (fun k => nodeRemove (a k) ctx s req) (nodeRemove b ctx t req) := by
  simp only [nodeRemove]
  refine .ite (.const (.some ⟨hs, rfl⟩)) ((ha.erase hs _).map fun x y hx => .const ⟨hx.1, ?_⟩)
  rw [hx.2]

theorem nodeTrigger_follows (ha : App.Follows a b R Q) (hs : R s t) (req : Request) :
    Settled (Option.Rel (Replies R)) (fun k => nodeTrigger (a k) ctx s req) (nodeTrigger b ctx t req) := by
  refine (ha.find hs _).map fun r r' hr => ?_
  cases hr with
  | none => exact .const ⟨hs, rfl⟩
  | some hn =>
    obtain ⟨s₁, ⟨hs₁, hn₁⟩, htrigger⟩ := ha.trigger hs hn
    refine .congr (htrigger.mono fun k hk => ?_) (pathData_follows ha hs₁ hn₁)
    simp only [hk]

/-! ## Commands and subscriptions -/

theorem commandList_follows (ha : App.Follows a b R Q) (hs : R s t) :
    Settled (Replies R) (fun k => commandList (a k) s) (commandList b t) := by
  refine .reply hs (.of_forall fun k => ?_)
  simp only [sortedKeys, ha.keys hs, ha.help hs]

theorem call_follows (ha : App.Follows a b R Q) (hs : R s t) (name : Str) (args : Var) :
    Settled (Option.Rel (Replies R)) (fun k => (a k).commands.call ctx.stod ctx.platform s name args)
      (b.commands.call ctx.stod ctx.platform t name args) := by
  simp only [Command.Commands.call, ha.command hs]
  cases b.commands.find t name with
  | none =>
    simp only [Option.map_eq_bind]
    exact .after _ fun _ => .const (.some ⟨hs, rfl⟩)
  | some entry => exact .ite (.after _ fun input => ha.drive hs name input) (.const (.some ⟨hs, rfl⟩))

theorem callDetached_follows (ha : App.Follows a b R Q) (hs : R s t) (name : Str) (args : Var) :
    Settled (Option.Rel (Replies R)) (fun k => callDetached (a k) ctx s name args) (callDetached b ctx t name args) := by
  simp only [callDetached, ha.command hs]
  cases b.commands.find t name with
  | none =>
    simp only [Option.map_eq_bind]
    exact .after _ fun _ => .const (.some ⟨hs, rfl⟩)
  | some entry => exact .ite (.after _ fun input => ha.start hs name input) (.const (.some ⟨hs, rfl⟩))

theorem detachedReply_follows (ha : App.Follows a b R Q) (hs : R s t) (name : Str) (id : Var) :
    Settled (Replies R) (fun k => detachedReply (a k) ctx s name id) (detachedReply b ctx t name id) := by
  simp only [detachedReply]
  refine .ite ((ha.drop hs).said _) ?_
  refine (ha.attach hs name id).comp (f := fun x => if x.2 = [] then
    (x.1, Reply.error (ascii "internal_error") (ascii "failed to start task")) else (x.1, Reply.accepted x.2)) fun x hx => ?_
  rw [hx.2]
  split
  · exact ⟨hx.1, rfl⟩
  · exact ⟨hx.1, rfl⟩

theorem commandRun_follows (ha : App.Follows a b R Q) (hs : R s t) (req : Request) :
    Settled (Option.Rel (Replies R)) (fun k => commandRun (a k) ctx s req) (commandRun b ctx t req) := by
  simp only [commandRun, ha.command hs]
  refine .ite (.const (.some ⟨hs, rfl⟩)) (.ite (.const (.some ⟨hs, rfl⟩)) (.ite ?_ ?_))
  · exact (call_follows ha hs _ _).reworded (resultReply ctx)
  · refine (callDetached_follows ha hs _ _).map fun x y hx => ?_
    obtain ⟨s₁, r⟩ := x
    obtain ⟨t₁, r'⟩ := y
    obtain ⟨hs₁, rfl⟩ := hx
    cases r with
    | some r => exact .const ⟨hs₁, rfl⟩
    | none => exact detachedReply_follows ha hs₁ _ _

theorem subscribe_follows (ha : App.Follows a b R Q) (hs : R s t) (req : Request) :
    Settled (Replies R) (fun k => subscribe (a k) ctx s req) (subscribe b ctx t req) :=
  .ite (.const ⟨hs, rfl⟩) ((ha.subscribe hs _ _ _).said _)

theorem unsubscribe_follows (ha : App.Follows a b R Q) (hs : R s t) (req : Request) :
    Settled (Replies R) (fun k => unsubscribe (a k) ctx s req) (unsubscribe b ctx t req) :=
  .ite (.const ⟨hs, rfl⟩) ((ha.unsubscribe hs _).said _)

/-! ## Requests -/

/-- The items of a batch, when each of them is followed. -/
theorem runItems_follows {items : List Tree} (h : ∀ item ∈ items, ∀ {s t}, R s t →
    Settled (Option.Rel (Replies R)) (fun k => dispatch (a k) ctx item s) (dispatch b ctx item t)) :
    ∀ {s t}, R s t → Settled (Option.Rel (Replies R)) (fun k => runItems (runsOf (a k) ctx items) s)
      (runItems (runsOf b ctx items) t) := by
  induction items with
  | nil => exact fun hs => .const (.some ⟨hs, rfl⟩)
  | cons item items ih =>
    intro s t hs
    simp only [runsOf, runItems]
    refine ((h item List.mem_cons_self hs).reworded fun r => r.into (item.get (ascii "id")) (.blank [])).bind fun x y hx => ?_
    simp only [hx.2]
    exact (ih (fun item hm => h item (List.mem_cons_of_mem _ hm)) hx.1).reworded (y.2 :: ·)

theorem dispatchBatch_follows {kids : List Tree} (hs : R s t) (h : ∀ nm v items, .node nm v items ∈ kids →
    ∀ item ∈ items, ∀ {s t}, R s t →
      Settled (Option.Rel (Replies R)) (fun k => dispatch (a k) ctx item s) (dispatch b ctx item t)) :
    Settled (Option.Rel (Replies R)) (fun k => dispatchBatch ctx (itemsOf (a k) ctx kids) s)
      (dispatchBatch ctx (itemsOf b ctx kids) t) := by
  simp only [itemsOf_eq]
  cases hfind : kids.find? fun k => k.name = ascii "items" with
  | none => exact .const (.some ⟨hs, rfl⟩)
  | some itemsNode =>
    obtain ⟨nm, v, items⟩ := itemsNode
    simp only [Option.map_some, dispatchBatch, runsBelow, runsOf_length]
    refine .ite (.const (.some ⟨hs, rfl⟩)) ?_
    exact (runItems_follows (h nm v items (List.mem_of_find?_eq_some hfind)) hs).reworded
      fun reps => Reply.data (.node (ascii "items") .none reps)

/-- One request, when its batch is followed. -/
theorem answer_follows (ha : App.Follows a b R Q) {items : Nat → Option (List (Run S))} {items' : Option (List (Run T))}
    (hi : Settled (Option.Rel (Replies R)) (fun k => dispatchBatch ctx (items k) s) (dispatchBatch ctx items' t))
    (hs : R s t) (req : Request) :
    Settled (Option.Rel (Replies R)) (fun k => answer (a k) ctx (items k) req s) (answer b ctx items' req t) := by
  have hsame : ∀ r : Reply, Settled (Option.Rel (Replies R)) (fun _ => some (s, r)) (some (t, r)) :=
    fun r => .const (.some ⟨hs, rfl⟩)
  unfold answer
  exact .ite (hsame _) (.ite hi (.ite (nodeGet_follows ha hs req) (.ite (nodeList_follows ha hs req)
    (.ite (nodeSet_follows ha hs req) (.ite (nodePut_follows ha hs req) (.ite (nodeRemove_follows ha hs req)
    (.ite (nodeTrigger_follows ha hs req) (.ite (commandList_follows ha hs).some (.ite (commandRun_follows ha hs req)
    (.ite (subscribe_follows ha hs req).some (.ite (unsubscribe_follows ha hs req).some (hsame _))))))))))))

/-- **What the operations follow, every request follows**: by induction on the request, whose items are requests. -/
theorem dispatch_follows (ha : App.Follows a b R Q) (req : Tree) : ∀ {s t}, R s t →
    Settled (Option.Rel (Replies R)) (fun k => dispatch (a k) ctx req s) (dispatch b ctx req t) := by
  -- the items are two levels below
  suffices h : (∀ s t, R s t → Settled (Option.Rel (Replies R)) (fun k => dispatch (a k) ctx req s)
      (dispatch b ctx req t)) ∧
      ∀ k ∈ req.kids, ∀ s t, R s t →
        Settled (Option.Rel (Replies R)) (fun j => dispatch (a j) ctx k s) (dispatch b ctx k t) from
    @fun s t hs => h.1 s t hs
  induction req using Tree.ind with
  | h req ih =>
    refine ⟨fun s t hs => ?_, fun k hk => (ih k hk).1⟩
    obtain ⟨nm, v, kids⟩ := req
    simp only [dispatch]
    exact answer_follows ha (dispatchBatch_follows hs fun nm v items hm item hmem s t hs =>
      (ih _ hm).2 item hmem s t hs) hs _

theorem dispatchNodeProtocol_follows (ha : App.Follows a b R Q) (req rep : Tree) (hs : R s t) :
    Settled (Option.Rel (Replies R)) (fun k => dispatchNodeProtocol (a k) ctx req rep s)
      (dispatchNodeProtocol b ctx req rep t) :=
  (dispatch_follows ha req hs).reworded fun r => r.into (req.get (ascii "id")) rep

end Follows

end Protocol

/-! ## Servers -/

section Servers

open Protocol

variable {S T N M : Type} {a : Nat → SessionKey → App S N} {b : SessionKey → App T M} {R : S → T → Prop}
  {Q : S → T → N → M → Prop} {leave : SessionKey → S → S} {leave' : SessionKey → T → T}
  {es : List (Traffic SessionKey UInt8 S)} {es' : List (Traffic SessionKey UInt8 T)} {s : S} {t : T}

/-- **The servers for lines send the same bytes**, whatever they receive. -/
theorem lines_follow (ctx : Context) (ha : ∀ key, App.Follows (fun k => a k key) (b key) R Q)
    (hleave : ∀ {s t}, R s t → ∀ key, R (leave key s) (leave' key t))
    (he : List.Forall₂ (Traffic.Rel R) es es') (hs : R s t) :
    Settled (Option.Rel (Server.Alike R)) (fun k => NodeTcpServer.run (a k) ctx leave s es)
      (NodeTcpServer.run b ctx leave' t es') := by
  have hh : Handler.Follows R (fun k => NodeTcpServer.handler (a k) ctx leave) (NodeTcpServer.handler b ctx leave') := by
    refine ⟨fun {s t} hs key line => ?_, fun hs key => .const (hleave hs key)⟩
    simp only [NodeTcpServer.handler, NodeTcpServer.answer]
    refine .ite (.const (.some ⟨hs, rfl⟩)) (.after _ fun r => .ite ?_ ?_)
    · simp only [Option.map_eq_bind]
      exact .after _ fun _ => .const (.some ⟨hs, rfl⟩)
    · refine (dispatchNodeProtocol_follows (ha key) _ _ hs).bind fun x y hx => ?_
      simp only [Option.map_eq_bind, hx.2]
      exact .after _ fun _ => .const (.some ⟨hx.1, rfl⟩)
  exact run_settles hh he (Server.start_alike hs)

/-- **The binary servers send the same bytes.** -/
theorem frames_follow (ctx : Context) (ha : ∀ key, App.Follows (fun k => a k key) (b key) R Q)
    (hleave : ∀ {s t}, R s t → ∀ key, R (leave key s) (leave' key t))
    (he : List.Forall₂ (Traffic.Rel R) es es') (hs : R s t) :
    Settled (Option.Rel (Server.Alike R)) (fun k => BinTcpServer.run (a k) ctx leave s es)
      (BinTcpServer.run b ctx leave' t es') := by
  have hh : Handler.Follows R (fun k => BinTcpServer.handler (a k) ctx leave) (BinTcpServer.handler b ctx leave') := by
    refine ⟨fun {s t} hs key frame => ?_, fun hs key => .const (hleave hs key)⟩
    simp only [BinTcpServer.handler, BinTcpServer.answer]
    refine .ite (.const (.some ⟨hs, rfl⟩)) ?_
    exact (dispatchNodeProtocol_follows (ha key) _ _ hs).reworded fun rep => [BinTcpServer.replyFrame rep]
  exact run_settles hh he (Server.start_alike hs)

end Servers

end VersatileEngine
