import VersatileEngine.Lib.Yielding
import VersatileEngine.Node.Confined
import VersatileEngine.Node.Shadows

/-!
# VersatileEngine.Node.Bounded

What is found under a bound is found under every larger one.

* `path_more`, `atPath_more`, `ensurePath_more` — paths and lookups, with and without creation.
* `deleteNode_more`, `removeNamed_more`, `copy_more` — deleting and copying.
* `run_growing` — **more fuel changes the result of no operation**.
-/

namespace VersatileEngine

namespace Forest

/-! ## Lookups -/

section Lookup

variable {f : Forest} {s : Bool} {j k : Nat} {this n : Id}

theorem atPath_more (hjk : j ≤ k) {path : Str} {r : Option Id} (h : f.atPath j n path s = some r) :
    f.atPath k n path s = some r := by
  cases path with
  | nil => exact h
  | cons c rest =>
    rw [atPath] at h ⊢
    by_cases hc : c = pathSep
    · rw [if_pos hc] at h ⊢
      obtain ⟨top, htop, h⟩ := Option.bind_eq_some_iff.mp h
      rw [root_more hjk htop, Option.bind_some]
      by_cases hrest : rest = []
      · rwa [if_pos hrest] at h ⊢
      · rw [if_neg hrest] at h ⊢
        exact descend_more hjk h
    · rw [if_neg hc] at h ⊢
      exact descend_more hjk h

theorem path_more (hjk : j ≤ k) {anc : Option Id} : ∀ {n : Id} {p : Str}, f.path j n anc = some p →
    f.path k n anc = some p := by
  induction j generalizing k with
  | zero => exact fun h => (by cases h)
  | succ j ih =>
    obtain ⟨k, rfl⟩ := Nat.exists_eq_add_of_lt hjk
    intro n p h
    rw [path] at h ⊢
    split_ifs at h ⊢
    · exact h
    split at h
    · exact h
    · next q hq =>
      dsimp only at h ⊢
      split_ifs at h ⊢
      · exact h
      · obtain ⟨pp, hpp, rfl⟩ := Option.map_eq_some_iff.mp h
        rw [ih (by omega) hpp]
        rfl

theorem isAncestorOf_more (hjk : j ≤ k) : ∀ {n : Id} {b : Bool}, f.isAncestorOf this j n = some b →
    f.isAncestorOf this k n = some b := by
  induction j generalizing k with
  | zero => exact fun h => (by cases h)
  | succ j ih =>
    obtain ⟨k, rfl⟩ := Nat.exists_eq_add_of_lt hjk
    intro n b h
    rw [isAncestorOf] at h ⊢
    split at h
    · exact h
    · split_ifs at h ⊢
      · exact h
      · exact ih (by omega) h

theorem toTree_more (hjk : j ≤ k) : ∀ {n : Id} {t : Tree}, f.toTree j n = some t → f.toTree k n = some t := by
  induction j generalizing k with
  | zero => exact fun h => (by cases h)
  | succ j ih =>
    obtain ⟨k, rfl⟩ := Nat.exists_eq_add_of_lt hjk
    intro n t h
    rw [toTree] at h ⊢
    obtain ⟨kids, hkids, rfl⟩ := Option.map_eq_some_iff.mp h
    rw [mapM_more (fun _ _ => ih (by omega)) _ hkids]
    rfl

end Lookup

/-! ## Creation -/

section Create

variable {s : Bool} {j k : Nat}

theorem ensureKey_more (hjk : j ≤ k) {f : Forest} {this : Id} {key : Str} {r : Forest × Option Id}
    (h : f.ensureKey j this key s = some r) : f.ensureKey k this key s = some r := by
  rw [ensureKey] at h ⊢
  split at h
  · exact h
  · next nm i _ =>
    by_cases hc : nm = [] ∧ 0 ≤ i
    · rw [if_pos hc] at h ⊢
      obtain ⟨r', hr', rfl⟩ := Option.map_eq_some_iff.mp h
      rw [ensureIndex, atIndex, orShadow_more hjk hr']
      rfl
    · rw [if_neg hc] at h ⊢
      obtain ⟨r', hr', rfl⟩ := Option.map_eq_some_iff.mp h
      rw [ensureName, atName, orShadow_more hjk hr']
      rfl

theorem ensureSegments_more (hjk : j ≤ k) {segs : List Str} : ∀ {f : Forest} {cur : Option Id}
    {r : Forest × Option Id}, f.ensureSegments j s cur segs = some r → f.ensureSegments k s cur segs = some r := by
  induction segs with
  | nil => exact fun h => by cases ‹Option Id› <;> exact h
  | cons seg segs ih =>
    intro f cur r h
    cases cur with
    | none => exact h
    | some cur =>
      rw [ensureSegments] at h ⊢
      split_ifs at h ⊢
      · exact ih h
      · obtain ⟨r₁, hkey, h⟩ := Option.bind_eq_some_iff.mp h
        rw [ensureKey_more hjk hkey]
        exact ih h

theorem ensurePath_more (hjk : j ≤ k) {f : Forest} {this : Id} {path : Str} {r : Forest × Option Id}
    (h : f.ensurePath j this path s = some r) : f.ensurePath k this path s = some r := by
  cases path with
  | nil => exact h
  | cons c rest =>
    rw [ensurePath] at h ⊢
    by_cases hc : c = pathSep
    · rw [if_pos hc] at h ⊢
      obtain ⟨top, htop, h⟩ := Option.bind_eq_some_iff.mp h
      rw [root_more hjk htop, Option.bind_some]
      by_cases hrest : rest = []
      · rwa [if_pos hrest] at h ⊢
      · rw [if_neg hrest] at h ⊢
        exact ensureSegments_more hjk h
    · rw [if_neg hc] at h ⊢
      exact ensureSegments_more hjk h

end Create

/-! ## Deletion -/

section Delete

variable {j k : Nat} {this : Id}

theorem clearChildren_more {del del' : Forest → Id → Option Forest}
    (hdel : ∀ f n r, del f n = some r → del' f n = some r) {f r : Forest} {n : Id} {auto : Bool}
    (h : clearChildren del f n auto = some r) : clearChildren del' f n auto = some r := by
  rw [clearChildren] at h ⊢
  split at h
  · exact h
  · obtain ⟨g, hg, rfl⟩ := Option.map_eq_some_iff.mp h
    have hmore := fun (step : Forest → Id → Option Forest) hstep =>
      @foldlM_more _ _ _ step hstep _ _ _ hg
    rw [hmore _ fun f c r hr => ?_]
    · rfl
    · split_ifs at hr ⊢
      · exact hdel _ c r hr
      · exact hr

theorem deleteNode_more (hjk : j ≤ k) : ∀ {f r : Forest} {n : Id}, f.deleteNode j n = some r →
    f.deleteNode k n = some r := by
  induction j generalizing k with
  | zero => exact fun h => (by cases h)
  | succ j ih =>
    obtain ⟨k, rfl⟩ := Nat.exists_eq_add_of_lt hjk
    intro f r n h
    rw [deleteNode] at h ⊢
    split_ifs at h ⊢
    obtain ⟨g, hg, rfl⟩ := Option.map_eq_some_iff.mp h
    rw [clearChildren_more (fun f n r hr => ih (by omega) hr) hg]
    rfl

theorem clear_more (hjk : j ≤ k) {f r : Forest} {auto : Bool} (h : f.clear j this auto = some r) :
    f.clear k this auto = some r := by
  rw [clear] at h ⊢
  split at h
  · exact h
  · obtain ⟨g, hg, rfl⟩ := Option.map_eq_some_iff.mp h
    rw [clearChildren_more (fun f n r hr => deleteNode_more hjk hr) hg]
    rfl

theorem remove_more (hjk : j ≤ k) {f : Forest} {child : Option Id} {r : Forest × Bool}
    (h : f.remove j this child = some r) : f.remove k this child = some r := by
  rw [remove] at h ⊢
  split at h
  · obtain ⟨g, hg, rfl⟩ := Option.map_eq_some_iff.mp h
    rw [deleteNode_more hjk hg]
    rfl
  · exact h

theorem removeLoop_more (hjk : j ≤ k) {nm : Str} : ∀ {f : Forest} {b : Bool} {r : Forest × Bool},
    removeLoop j f this nm b = some r → removeLoop k f this nm b = some r := by
  induction j generalizing k with
  | zero => exact fun h => (by cases h)
  | succ j ih =>
    obtain ⟨k, rfl⟩ := Nat.exists_eq_add_of_lt hjk
    intro f b r h
    rw [removeLoop] at h ⊢
    split_ifs at h ⊢
    split at h
    · obtain ⟨g, hg, h⟩ := Option.bind_eq_some_iff.mp h
      rw [deleteNode_more (by omega) hg]
      exact ih (by omega) h
    · exact h

theorem removeNamed_more (hjk : j ≤ k) {f : Forest} {nm : Str} {r : Forest × Bool}
    (h : f.removeNamed j this nm = some r) : f.removeNamed k this nm = some r := by
  rw [removeNamed] at h ⊢
  split_ifs at h ⊢
  · exact remove_more hjk h
  · exact removeLoop_more hjk h

end Delete

/-! ## Copying -/

section Copy

variable {j k : Nat} {this : Id} {copyInto copyInto' : Forest → Id → Id → Option Forest}

theorem removeUnmatched_more (hjk : j ≤ k) {matched : List Id} {cs : List Id} : ∀ {f r : Forest},
    f.removeUnmatched j this matched cs = some r → f.removeUnmatched k this matched cs = some r := by
  induction cs with
  | nil => exact fun h => h
  | cons c cs ih =>
    intro f r h
    rw [removeUnmatched] at h ⊢
    split_ifs at h ⊢
    · exact ih h
    · obtain ⟨g, hg, h⟩ := Option.bind_eq_some_iff.mp h
      rw [remove_more hjk hg]
      exact ih h

theorem flushPending_more (hjk : j ≤ k) (hcopy : ∀ f d s r, copyInto f d s = some r → copyInto' f d s = some r)
    {anchor : Option Id} {ps : List Id} : ∀ {f r : Forest}, flushPending copyInto j this f anchor ps = some r →
    flushPending copyInto' k this f anchor ps = some r := by
  induction ps with
  | nil => exact fun h => h
  | cons p ps ih =>
    intro f r h
    rw [flushPending] at h ⊢
    split_ifs at h ⊢
    dsimp only at h ⊢
    split_ifs at h ⊢
    · obtain ⟨g, hg, h⟩ := Option.bind_eq_some_iff.mp h
      rw [hcopy _ _ _ _ hg]
      exact ih h
    · obtain ⟨g, hg, h⟩ := Option.bind_eq_some_iff.mp h
      rw [deleteNode_more hjk hg]
      exact ih h

theorem copyChildren_more (hjk : j ≤ k) (hcopy : ∀ f d s r, copyInto f d s = some r → copyInto' f d s = some r)
    {ai : Bool} {ss : List Id} : ∀ {f : Forest} {st : CopyMatchState} {pending : List Id} {r : Forest × List Id},
    copyChildren copyInto j this ai f ss st pending = some r →
      copyChildren copyInto' k this ai f ss st pending = some r := by
  induction ss with
  | nil => exact fun h => h
  | cons s ss ih =>
    intro f st pending r h
    rw [copyChildren] at h ⊢
    split at h
    · cases h
    next hlive =>
    rw [if_neg hlive]
    split at h
    · exact ih h
    · obtain ⟨g, hg, h⟩ := Option.bind_eq_some_iff.mp h
      obtain ⟨g', hg', h⟩ := Option.bind_eq_some_iff.mp h
      rw [flushPending_more hjk hcopy hg, Option.bind_some, hcopy _ _ _ _ hg', Option.bind_some]
      exact ih h

theorem copy_more (hjk : j ≤ k) {ai ar au : Bool} : ∀ {f r : Forest} {this : Id} {other : Option Id},
    f.copy j this other ai ar au = some r → f.copy k this other ai ar au = some r := by
  induction j generalizing k with
  | zero => exact fun h => (by cases h)
  | succ j ih =>
    obtain ⟨k, rfl⟩ := Nat.exists_eq_add_of_lt hjk
    intro f r this other h
    have hcopy := fun (f : Forest) (d s : Id) (r : Forest) (hr : f.copy j d (some s) ai ar au = some r) =>
      ih (show j ≤ j + k by omega) hr
    cases other with
    | none => exact h
    | some o =>
      simp only [copy] at h ⊢
      by_cases hsame : o = this
      · rwa [if_pos hsame] at h ⊢
      rw [if_neg hsame] at h ⊢
      by_cases hlive : (!f.live this || !f.live o) = true
      · rwa [if_pos hlive] at h ⊢
      rw [if_neg hlive] at h ⊢
      obtain ⟨g, hg, h⟩ := Option.bind_eq_some_iff.mp h
      obtain ⟨g', hg', h⟩ := Option.bind_eq_some_iff.mp h
      obtain ⟨g'', hg'', h⟩ := Option.bind_eq_some_iff.mp h
      refine Option.bind_eq_some_iff.mpr ⟨g, ?_, Option.bind_eq_some_iff.mpr
        ⟨g', copyChildren_more (by omega) hcopy hg', Option.bind_eq_some_iff.mpr
          ⟨g'', flushPending_more (by omega) hcopy hg'', h⟩⟩⟩
      split_ifs at hg ⊢
      · exact removeUnmatched_more (by omega) hg
      · exact hg

end Copy

/-- **More fuel changes the result of no operation.** -/
theorem run_growing (f : Forest) (op : Op) : Growing fun k => f.run k op := by
  intro j k hjk r h
  cases op with
  | delete n => exact deleteNode_more hjk h
  | clear this auto => exact clear_more hjk h
  | remove this child =>
    obtain ⟨r', hr', rfl⟩ := Option.map_eq_some_iff.mp h
    exact Option.map_eq_some_iff.mpr ⟨r', remove_more hjk hr', rfl⟩
  | removeNamed this nm =>
    obtain ⟨r', hr', rfl⟩ := Option.map_eq_some_iff.mp h
    exact Option.map_eq_some_iff.mpr ⟨r', removeNamed_more hjk hr', rfl⟩
  | copy this other ai ar au => exact copy_more hjk h
  | _ => exact h

end Forest

end VersatileEngine
