import VersatileEngine.Node.Secure
import VersatileEngine.Service.References

/-!
# VersatileEngine.Service.Loading

Imports on a secure forest.

* `secure_plant`   — the nodes that an importer builds stand beside the forest.
* `importDirect_reaches` — the Markdown importer ends, and only writes values and appends nodes.
* `load_yields`   — **an import returns, and leaves a secure forest**.
-/

namespace VersatileEngine

namespace Forest

/-! ## Planting -/

section Plant

variable {f g : Forest} {held : List Id} {p c : Id}

/-- One node below another one that it is not above. -/
theorem careful_insert {index : Int} (hpc : ¬ Climbs f.parent p c) : Careful f held (.insert p (some c) index) := by
  refine careful_of_nothing ⟨fun hins _ => ?_, fun hins _ x hx => ?_, fun hop => (by cases hop)⟩ trivial fun _ hm => hm
  · cases hins
    exact List.nodup_singleton c
  · cases hins
    obtain rfl := List.mem_singleton.mp hx
    exact hpc

theorem secure_insertAll (cs : List Id) : ∀ {g : Forest}, Secure g held → g.live p = true → g.parent p = none →
    (∀ c ∈ cs, g.live c = true ∧ c ≠ p) →
    Secure (cs.foldl (fun g c => (g.insert p (some c) (-1)).1) g) held ∧
      (cs.foldl (fun g c => (g.insert p (some c) (-1)).1) g).live = g.live := by
  induction cs with
  | nil => exact fun h _ _ _ => ⟨h, rfl⟩
  | cons c cs ih =>
    intro g h hp hroot hcs
    obtain ⟨hc, hne⟩ := hcs c (by simp)
    obtain ⟨hlive, hparent⟩ := insert_beside_root h.inv hp hroot hc hne
    have hvalid : Valid g (.insert p (some c) (-1)) := valid_of_validB (validB_of_live rfl (live_both hp hc))
    have hstep : Secure (g.insert p (some c) (-1)).1 held :=
      h.step (careful_insert fun hpc => hne (hpc.of_root hroot).symm) ⟨hvalid, 0, rfl⟩
    obtain ⟨h₁, h₂⟩ := ih hstep (by rw [hlive]; exact hp) hparent fun x hx => by
      rw [hlive]
      exact hcs x (by simp [hx])
    exact ⟨h₁, h₂.trans hlive⟩

theorem Secure.setValue (h : Secure f held) (n : Id) (v : Var) : Secure (f.setValue n v) held where
  inv := h.inv.same (by funext m; simp) (by funext m; simp) (by simp) rfl rfl
  ending := by
    have hparent : (f.setValue n v).parent = f.parent := by funext m; simp
    have hshadow : (f.setValue n v).shadow = f.shadow := by funext m; simp
    exact ⟨fun m => hparent ▸ h.ending.rooted m, fun m => hshadow ▸ h.ending.shadow m⟩
  held := h.held
  shadow m t hm ht := h.shadow m t hm (by simpa using ht)

theorem Secure.newNode (h : Secure f held) (nm : Str) : Secure (f.newNode nm).1 held :=
  h.reaches (reaches_new f nm) fun m hm => by simp [hm]

/-- **The nodes that an importer builds** stand beside the forest, which stays secure. -/
theorem secure_plant (t : Tree) : ∀ {g : Forest}, Secure g held → Secure (g.plant t).1 held ∧
    (g.plant t).1.live (g.plant t).2 = true ∧ ∀ m, g.live m = true → (g.plant t).1.live m = true := by
  induction t using Tree.ind with
  | h t ih =>
    obtain ⟨nm, v, ks⟩ := t
    have hall : ∀ (ts : List Tree), (∀ t ∈ ts, t ∈ (Tree.node nm v ks).kids) → ∀ {g : Forest}, Secure g held →
        Secure (g.plantAll ts).1 held ∧ (∀ m, g.live m = true → (g.plantAll ts).1.live m = true) ∧
          ∀ n ∈ (g.plantAll ts).2, (g.plantAll ts).1.live n = true := by
      intro ts
      induction ts with
      | nil => exact fun _ g h => ⟨h, fun _ hm => hm, fun n hn => (by cases hn)⟩
      | cons t ts ihs =>
        intro hts g h
        obtain ⟨hone, hlive, hkeep⟩ := ih t (hts t (by simp)) h
        obtain ⟨hrest, hkeeps, hlives⟩ := ihs (fun x hx => hts x (by simp [hx])) hone
        rw [plantAll_cons]
        refine ⟨hrest, fun m hm => hkeeps m (hkeep m hm), fun n hn => ?_⟩
        rcases List.mem_cons.mp hn with rfl | hn
        · exact hkeeps _ hlive
        · exact hlives n hn
    intro g h
    obtain ⟨hkids, hkeeps, hlives⟩ := hall ks (fun _ hx => hx) h
    let r := g.plantAll ks
    let g₁ := (r.1.newNode nm).1.setValue r.1.next v
    have hg₁ : Secure g₁ held := (hkids.newNode nm).setValue _ v
    have hnext : g₁.live r.1.next = true := by simp [g₁]
    obtain ⟨h₁, h₂⟩ := secure_insertAll r.2 hg₁ hnext (by simp [g₁]) fun c hc => by
      have hlive := hlives c hc
      refine ⟨by simp [g₁, r, hlive], fun he => ?_⟩
      rw [he, hkids.inv.next_dead] at hlive
      cases hlive
    rw [plant]
    refine ⟨h₁, ?_, fun m hm => ?_⟩
    · show (r.2.foldl _ g₁).live r.1.next = true
      rw [h₂]
      exact hnext
    · show (r.2.foldl _ g₁).live m = true
      rw [h₂]
      simp [g₁, r, hkeeps m hm]

/-- Above an old node there are only old ones. -/
theorem Sheds.climbs_old {S : Id → Prop} {m n : Id} (h : Sheds f g S) (hi : Inv f) (hm : f.live m = true)
    (hc : Climbs g.parent m n) : f.live n = true := by
  induction hc using Relation.ReflTransGen.head_induction_on with
  | refl => exact hm
  | head hstep _ ih => exact ih (hi.live (h.kids _ _ hm (h.inv.mem_iff.mp hstep))).1

end Plant

end Forest

namespace Terminal

open Forest

section Import

variable {f g : Forest} {held : List Id} {t : Id} {content : Str}

/-! ## Markdown -/

theorem flushContent_reaches {n : Id} (hn : f.live n = true) : Reaches f (flushContent f n content) := by
  rw [flushContent]
  split
  · exact .refl f
  · exact reaches_set hn _

theorem appendWith_reaches {n : Id} (h : Inv f) (hn : f.live n = true) (nm : Str) (v : Var) :
    ∃ g, appendWith f n nm v = some g ∧ Reaches f g := by
  obtain ⟨-, hlive⟩ := grown_append h hn nm
  exact ⟨_, rfl, (reaches_append h hn nm 0).trans (reaches_set (hlive _ rfl) v)⟩

theorem Walk.heading_reaches {w : Walk} {line : Md.HeadingLine} (h : Inv w.forest) (hw : w.Stands) :
    ∃ w', w.heading line = some w' ∧ Reaches w.forest w'.forest := by
  have htop := hw w.top (by simp)
  have hflush : Grown w.forest (flushContent w.forest w.top.1 w.contentBuf) := grown_flushContent h htop
  have hparent : (flushContent w.forest w.top.1 w.contentBuf).live (popTo line.level w.top w.below).1.1 = true :=
    hflush.keeps _ (hw _ (@popTo_mem line.level w.below w.top _ (List.mem_cons_self ..)))
  obtain ⟨happend, hnew⟩ := grown_append hflush.sheds.inv hparent line.cleanTitle
  have hattr : ∀ (p : Prop) [Decidable p] (x : Forest) (n : Id) (nm : Str) (v : Var), Inv x → x.live n = true →
      ∃ y, (if p then appendWith x n nm v else some x) = some y ∧ Reaches x y := by
    intro p _ x n nm v hx hn
    split
    · exact appendWith_reaches hx hn nm v
    · exact ⟨x, rfl, .refl x⟩
  have hlive := hnew _ rfl
  obtain ⟨f₁, h₁, hr₁⟩ := hattr (line.cleanTitle ≠ line.rawTitle) _ _ (ascii "_title") (.string line.rawTitle)
    happend.sheds.inv hlive
  have hlive₁ : f₁.live (flushContent w.forest w.top.1 w.contentBuf).next = true := by
    split at h₁
    · exact (grown_appendWith happend.sheds.inv hlive h₁).keeps _ hlive
    · cases h₁
      exact hlive
  obtain ⟨f₂, h₂, hr₂⟩ := hattr (line.level ≠ (popTo line.level w.top w.below).1.2 + 1) f₁ _ (ascii "_level")
    (.int (Int64.ofNat line.level)) (hr₁.inv happend.sheds.inv) hlive₁
  refine ⟨⟨f₂, ((flushContent w.forest w.top.1 w.contentBuf).next, line.level),
    (popTo line.level w.top w.below).1 :: (popTo line.level w.top w.below).2, [], w.inCodeFence, w.fenceMarker⟩, ?_,
    (flushContent_reaches htop).trans ((reaches_append hflush.sheds.inv hparent line.cleanTitle 0).trans
      (hr₁.trans hr₂))⟩
  rw [Walk.heading]
  exact Option.bind_eq_some_iff.mpr ⟨_, rfl, Option.bind_eq_some_iff.mpr ⟨f₁, h₁, Option.map_eq_some_iff.mpr
    ⟨f₂, h₂, rfl⟩⟩⟩

theorem Walk.line_reaches {w : Walk} {line : Str} (h : Inv w.forest) (hw : w.Stands) :
    ∃ w', w.line line = some w' ∧ Reaches w.forest w'.forest := by
  rw [Walk.line]
  simp only
  split
  · exact ⟨_, rfl, .refl _⟩
  · split
    · exact Walk.heading_reaches (w := { w with
        inCodeFence := (Md.isInsideCodeFence line w.inCodeFence w.fenceMarker).1
        fenceMarker := (Md.isInsideCodeFence line w.inCodeFence w.fenceMarker).2 }) h hw
    · exact ⟨_, rfl, .refl _⟩

theorem Walk.lines_reach (lines : List Str) : ∀ {w : Walk}, Inv w.forest → w.Stands →
    ∃ w', lines.foldlM Walk.line w = some w' ∧ Reaches w.forest w'.forest := by
  induction lines with
  | nil => exact fun {w} _ _ => ⟨w, rfl, .refl _⟩
  | cons line lines ih =>
    intro w h hw
    obtain ⟨w₁, h₁, hr₁⟩ := @Walk.line_reaches w line h hw
    obtain ⟨hg, hw₁⟩ := Walk.line_grows h hw h₁
    obtain ⟨w', h', hr'⟩ := ih hg.sheds.inv hw₁
    exact ⟨w', by rw [List.foldlM_cons, h₁]; exact h', hr₁.trans hr'⟩

/-- **The Markdown importer ends**, and only writes values and appends nodes. -/
theorem importDirect_reaches (h : Inv f) (ht : f.live t = true) (content : Str) :
    ∃ g, importDirect f t content = some g ∧ Reaches f g := by
  have hstands : (⟨f, (t, 0), [], [], false, []⟩ : Walk).Stands := by
    intro e he
    obtain rfl := List.mem_singleton.mp he
    exact ht
  obtain ⟨w, hw, hreach⟩ := @Walk.lines_reach ((getlines content).map Md.dropReturn) _ h hstands
  have htop := (Walk.lines_grow _ h hstands hw).2 w.top (by simp)
  exact ⟨_, Option.map_eq_some_iff.mpr ⟨w, hw, rfl⟩, hreach.trans (flushContent_reaches htop)⟩

/-! ## Imports -/

theorem load_yields (h : Secure f held) (ht : f.live t = true) (importer : Importer) :
    Yields (fun k => load k f t content importer) fun g => Secure g held := by
  cases importer with
  | direct =>
    simp only [load]
    by_cases hc : content = []
    · simp only [hc, if_true]
      exact .const h
    · simp only [hc, if_false]
      obtain ⟨g, hg, hreach⟩ := importDirect_reaches h.inv ht content
      rw [hg]
      exact .const (h.reaches hreach (grown_importDirect h.inv ht hg).keeps)
  | parsed parse =>
    simp only [load]
    cases parse content with
    | none => exact .const h
    | some tree =>
      dsimp only
      have hp := Forest.planted h.inv tree (Sheds.refl h.inv fun _ => False)
      obtain ⟨hplant, -, hkeep⟩ := secure_plant tree h
      have hsec := hplant.cons hp.live
      have hclimb : ¬ Climbs (f.plant tree).1.parent t (f.plant tree).2 := fun hc => by
        have hold := hp.sheds.climbs_old h.inv ht hc
        rw [hp.new] at hold
        cases hold
      have hother : ¬ Climbs (f.plant tree).1.parent (f.plant tree).2 t := fun hc => by
        have hsame := hc.of_root hp.root
        rw [← hsame, hp.new] at ht
        cases ht
      have hvalid : Valid (f.plant tree).1 (.copy t (some (f.plant tree).2) true false false) :=
        valid_of_validB (validB_of_live rfl (live_both (hkeep _ ht) hp.live))
      refine (hsec.run hvalid (careful_of_nothing (uncircular_of_noInsert rfl rfl) (.inr ⟨hclimb, hother⟩)
        fun m hm => hm)).bind fun g hg => ?_
      obtain ⟨⟨-, fuel, hrun⟩, hg⟩ := hg
      have hcp : Sheds (f.plant tree).1 g fun _ => False :=
        (Forest.sheds_copy true false fuel hp.sheds.inv hrun).mono fun m _ hm => (by cases hm.1)
      have hall := hp.sheds.trans hcp h.inv fun _ _ hm => hm
      have hroot : g.parent (f.plant tree).2 = none := by
        by_contra hne
        obtain ⟨p, hpar⟩ := Option.ne_none_iff_exists'.mp hne
        have hmem := hcp.kids p _ hp.live (hcp.inv.mem_iff.mp hpar)
        have hroot := hp.root
        rw [hp.sheds.inv.mem_iff.mpr hmem] at hroot
        cases hroot
      -- what was planted is freed, and nothing that was there hangs below it
      have hold : ∀ m, f.live m = true → ¬ Below g (f.plant tree).2 m := fun m hm hb => by
        have := hall.below_new h.inv hp.new hb
        rw [hm] at this
        cases this
      have hlive : Valid g (.delete (f.plant tree).2) := by
        refine ⟨fun n hn => ?_, fun n hn => ?_⟩
        · obtain rfl := List.mem_singleton.mp hn
          exact hg.held _ List.mem_cons_self
        · cases hn
          exact hroot
      have hcare : Careful g held (.delete (f.plant tree).2) := by
        refine ⟨uncircular_of_noInsert rfl rfl, trivial, fun n hn => hold n (h.held n hn), fun m u hm hu hb => ?_⟩
        obtain ⟨hm', hu'⟩ := hall.shadow m u hm hu
        exact absurd hb (hold u (h.shadow m u hm' hu'))
      exact ((hg.mono fun n hn => hg.held n (List.mem_cons_of_mem _ hn)).run hlive hcare).mono fun _ hr => hr.2

end Import

end Terminal

end VersatileEngine
