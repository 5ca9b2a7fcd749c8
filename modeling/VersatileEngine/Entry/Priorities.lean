import VersatileEngine.Entry.Modules
import VersatileEngine.Service.Protocol

/-!
# VersatileEngine.Entry.Priorities

Which modules `buildModuleGraph` enables, and the priorities that the slots end up with.

* `moduleBase`      — the first loop: the priority of a module, or nothing when it is disabled.
* `Rules a key`     — `a` is `key` itself or one of its non-empty dotted prefixes.
* `effectivePri_spec` — the loop invariant of `eff_pri`: over keys in the order of their depth, looking at
  the nearest ancestor only gives the greatest priority among all that rule a key.
-/

namespace VersatileEngine.Entry

/-- A registration in the factory `module`: the key, and the value of the child `priority` of its node. -/
structure Registration where
  key : Str
  priority : Option Var

/-- `Factory::reg`, call by call: a key that is known already is not registered again. -/
def factoryOf (regs : List Registration) : List Registration :=
  regs.foldl (fun known r => if r.key ∈ known.map Registration.key then known else known ++ [r]) []

/-- The tree as `buildModuleGraph` reads it: `node::root()->find(path)` and `mn->get(key)`. -/
structure Lookups (N : Type) where
  find : Str → Option N
  get : N → Str → Var

def keyToPath (key : Str) : Str := key.map fun c => if c = 46 then 47 else c

section Base

variable {N : Type} (platform : Platform) (look : Lookups N)

/-- The priority of a module that is enabled. -/
def moduleBase (r : Registration) : Option Int :=
  let priority := match r.priority with
    | none => 100
    | some v => v.toInt platform 100
  match look.find (keyToPath r.key) with
  | some mn =>
    if (look.get mn (ascii "enabled")).toBool true then
      some ((look.get mn (ascii "priority")).toInt platform priority)
    else none
  | none => if (ascii "ve.service.").isPrefixOf r.key then none else some priority

/-- `base_pri`, from the keys of the factory. -/
def enabledModules (registered : List Registration) : List (Str × Int) :=
  registered.filterMap fun r => (moduleBase platform look r).map fun p => (r.key, p)

end Base

/-- `a` is `key` or one of its ancestors. -/
def Rules (a key : Str) : Prop := a = key ∨ a ≠ [] ∧ Above a key

/-! ### Ancestors and depths -/

theorem Above.keyDepth_lt {a key : Str} (h : Above a key) : keyDepth a < keyDepth key := by
  obtain ⟨r, rfl⟩ := h
  simp only [keyDepth, List.count_append, List.count_cons_self]
  omega

/-- Of two prefixes of one key, the shorter is a prefix of the longer. -/
theorem Above.upTo {a b key : Str} (ha : Above a key) (hb : Above b key) (hlen : b.length ≤ a.length) :
    UpTo b a := by
  obtain ⟨r, rfl⟩ := ha
  obtain ⟨t, ht⟩ := hb
  rcases List.append_eq_append_iff.mp ht with ⟨s, rfl, hs⟩ | ⟨s, rfl, hs⟩
  · obtain rfl : s = [] := by
      rw [List.length_append] at hlen
      exact List.length_eq_zero_iff.mp (by omega)
    exact .inl (by simp)
  · cases s with
    | nil => exact .inl (by simp)
    | cons c s =>
      rw [List.cons_append, List.cons.injEq] at hs
      exact .inr ⟨s, by rw [hs.1]⟩

theorem nearest_exists {keys : List Str} {key b : Str} (hb : b ∈ keys) (hne : b ≠ [])
    (hab : Above b key) : ∃ a, NearestAncestor keys key a := by
  classical
  obtain ⟨a, ha, hmax⟩ := (keys.toFinset.filter fun c => c ≠ [] ∧ Above c key).exists_max_image
    List.length ⟨b, by simp [hb, hne, hab]⟩
  simp only [Finset.mem_filter, List.mem_toFinset] at ha hmax
  exact ⟨a, ha.1, ha.2.1, ha.2.2, fun c hc hcn hck => hmax c ⟨hc, hcn, hck⟩⟩

/-- What rules a key is the key, or rules its nearest ancestor. -/
theorem rules_nearest {keys : List Str} {key a b : Str} (hnear : NearestAncestor keys key a)
    (hb : b ∈ keys) : Rules b key ↔ b = key ∨ Rules b a := by
  obtain ⟨-, hne, hak, hmax⟩ := hnear
  constructor
  · rintro (h | ⟨hbn, hbk⟩)
    · exact .inl h
    · exact .inr ((hak.upTo hbk (hmax b hb hbn hbk)).imp_right fun h => ⟨hbn, h⟩)
  · rintro (h | rfl | ⟨hbn, h⟩)
    · exact .inl h
    · exact .inr ⟨hne, hak⟩
    · exact .inr ⟨hbn, h.trans hak⟩

/-! ### The effective priorities -/

section Effective

variable {base : List (Str × Int)}

/-- The priorities, among `keys`, of what rules `key`. -/
def Ruling (base : List (Str × Int)) (keys : List Str) (key : Str) : Set Int :=
  {p | ∃ a ∈ keys, Rules a key ∧ base.lookup a = some p}

theorem effectivePri_append (base : List (Str × Int)) (keys : List Str) (key : Str) :
    effectivePri base (keys ++ [key]) =
      assign (effectivePri base keys) key
        ((ancestor (fun pk => (effectivePri base keys).lookup pk) key).elim
          ((base.lookup key).getD 0) (max ((base.lookup key).getD 0))) := by
  simp only [effectivePri, List.foldl_append, List.foldl_cons, List.foldl_nil]
  congr 1
  cases ancestor (fun pk => List.lookup pk _) key with
  | none => rfl
  | some p => exact (max_def_lt _ _).symm

/-- A key that is not above `key` adds nothing to what rules it. -/
theorem ruling_append {keys : List Str} {k key : Str} (h : ¬ Rules k key) :
    Ruling base (keys ++ [k]) key = Ruling base keys key := by
  ext p
  constructor
  · rintro ⟨a, ha, hr, hp⟩
    rcases List.mem_append.mp ha with ha | ha
    · exact ⟨a, ha, hr, hp⟩
    · exact absurd (List.mem_singleton.mp ha ▸ hr) h
  · rintro ⟨a, ha, hr, hp⟩
    exact ⟨a, List.mem_append_left _ ha, hr, hp⟩

/-- The step of the loop: the new key gets the greatest of its own priority and that of its nearest
ancestor. -/
theorem own_greatest {keys : List Str} {eff : List (Str × Int)} {key : Str} {own : Int}
    (hown : base.lookup key = some own) (hfind : ∀ c, (eff.lookup c).isSome ↔ c ∈ keys)
    (heff : ∀ c p, eff.lookup c = some p → IsGreatest (Ruling base keys c) p) :
    IsGreatest (Ruling base (keys ++ [key]) key)
      ((ancestor (fun pk => eff.lookup pk) key).elim own (max own)) := by
  have hkey : own ∈ Ruling base (keys ++ [key]) key := ⟨key, by simp, .inl rfl, hown⟩
  cases h : ancestor (fun pk => eff.lookup pk) key with
  | none =>
    refine ⟨hkey, ?_⟩
    rintro p ⟨a, ha, hr | ⟨hne, hak⟩, hp⟩
    · exact (Option.some.inj (hp.symm.trans (hr ▸ hown))).le
    · rcases List.mem_append.mp ha with ha | ha
      · obtain ⟨b, hb⟩ := nearest_exists ha hne hak
        obtain ⟨q, hq⟩ := Option.isSome_iff_exists.mp ((hfind b).mpr hb.1)
        rw [(ancestor_eq_some hfind key q).mpr ⟨b, hb, hq⟩] at h
        cases h
      · rw [List.mem_singleton.mp ha] at hak
        exact absurd hak.length_lt (lt_irrefl _)
  | some q =>
    obtain ⟨b, hb, hq⟩ := (ancestor_eq_some hfind key q).mp h
    obtain ⟨⟨c, hc, hcb, hcq⟩, hmax⟩ := heff b q hq
    have hq : q ∈ Ruling base (keys ++ [key]) key :=
      ⟨c, List.mem_append_left _ hc, (rules_nearest hb hc).mpr (.inr hcb), hcq⟩
    refine ⟨?_, ?_⟩
    · show max own q ∈ _
      rcases max_choice own q with h | h
      · rw [h]
        exact hkey
      · rw [h]
        exact hq
    · rintro p ⟨a, ha, hr, hp⟩
      rcases List.mem_append.mp ha with ha | ha
      · rcases (rules_nearest hb ha).mp hr with rfl | hr
        · exact le_max_of_le_left (Option.some.inj (hp.symm.trans hown)).le
        · exact le_max_of_le_right (hmax ⟨a, ha, hr, hp⟩)
      · rw [List.mem_singleton.mp ha] at hp
        exact le_max_of_le_left (Option.some.inj (hp.symm.trans hown)).le

/-- The loop over the keys in the order of their depth. -/
theorem effectivePri_spec {keys : List Str} (hnd : keys.Nodup)
    (hord : keys.Pairwise fun a b => keyDepth a ≤ keyDepth b)
    (hbase : ∀ k ∈ keys, (base.lookup k).isSome) :
    (∀ c, ((effectivePri base keys).lookup c).isSome ↔ c ∈ keys) ∧
      ∀ c p, (effectivePri base keys).lookup c = some p → IsGreatest (Ruling base keys c) p := by
  induction keys using List.reverseRecOn with
  | nil => exact ⟨fun c => by simp [effectivePri], fun c p h => by simp [effectivePri] at h⟩
  | append_singleton keys k ih =>
    obtain ⟨hnd, -, hnew⟩ := List.nodup_append.mp hnd
    obtain ⟨hord, -, hdepth⟩ := List.pairwise_append.mp hord
    obtain ⟨hfind, heff⟩ := ih hnd hord fun c hc => hbase c (List.mem_append_left _ hc)
    obtain ⟨own, hown⟩ := Option.isSome_iff_exists.mp (hbase k (by simp))
    have hgreat := own_greatest hown hfind heff
    rw [effectivePri_append, hown, Option.getD_some]
    refine ⟨fun c => ?_, fun c p => ?_⟩
    · rw [lookup_assign]
      split_ifs with hc
      · simp [hc]
      · simp [hfind c, hc]
    · rw [lookup_assign]
      split_ifs with hc
      · intro h
        rw [hc, ← Option.some.inj h]
        exact hgreat
      · intro h
        have hmem : c ∈ keys := (hfind c).mp (by rw [h]; rfl)
        -- a key that comes later is no prefix of one that came before
        have hno : ¬ Rules k c := by
          rintro (h | ⟨-, h⟩)
          · exact hc h.symm
          · exact absurd h.keyDepth_lt (not_lt.mpr (hdepth c hmem k (by simp)))
        rw [ruling_append hno]
        exact heff c p h

end Effective

/-! ### The slots -/

section Slots

variable (base : List (Str × Int))

/-- `stable_sort` by the depth. -/
theorem sorted_keys (keys : List Str) :
    (keys.mergeSort fun a b => !decide (keyDepth b < keyDepth a)).Pairwise fun a b =>
      keyDepth a ≤ keyDepth b := by
  have h := @List.pairwise_mergeSort _ (fun a b : Str => !decide (keyDepth b < keyDepth a))
    (by intro a b c; simp; omega) (by intro a b; simp; omega) keys
  exact h.imp fun h => by simpa using h

/-- The order of the slots: by priority, then by depth. -/
def SlotLE (a b : ModuleSlot) : Prop :=
  a.priority < b.priority ∨ a.priority = b.priority ∧ keyDepth a.key ≤ keyDepth b.key

theorem not_slotBefore (a b : ModuleSlot) : (!slotBefore b a) = true ↔ SlotLE a b := by
  unfold slotBefore SlotLE
  split_ifs with h <;> simp <;> omega

theorem sorted_slots (slots : List ModuleSlot) :
    (slots.mergeSort fun a b => !slotBefore b a).Pairwise SlotLE := by
  have h := @List.pairwise_mergeSort _ (fun a b : ModuleSlot => !slotBefore b a)
    (by
      intro a b c hab hbc
      rw [not_slotBefore] at *
      unfold SlotLE at *
      omega)
    (by
      intro a b
      rw [Bool.or_eq_true, not_slotBefore, not_slotBefore]
      unfold SlotLE
      omega) slots
  exact h.imp fun {a b} => (not_slotBefore a b).mp

/-- Each slot has the greatest priority among the modules that rule its key. -/
theorem buildModuleGraph_greatest (registered : List (Str × Int)) {s : ModuleSlot}
    (hs : s ∈ buildModuleGraph registered) :
    IsGreatest {p | ∃ a, Rules a s.key ∧ (assignAll [] registered).lookup a = some p} s.priority := by
  rw [buildModuleGraph] at hs
  set base := assignAll [] registered with hbase
  set keys := (base.map Prod.fst).mergeSort fun a b => !decide (keyDepth b < keyDepth a) with hkeys
  have hmem : ∀ a, a ∈ keys ↔ a ∈ base.map Prod.fst := fun a => (List.mergeSort_perm _ _).mem_iff
  have hfound : ∀ a ∈ keys, (base.lookup a).isSome := fun a ha =>
    lookup_isSome.mpr ((hmem a).mp ha)
  have hnd : keys.Nodup :=
    (List.mergeSort_perm _ _).nodup_iff.mpr (assignAll_nodup List.nodup_nil)
  obtain ⟨hfind, heff⟩ := effectivePri_spec hnd (sorted_keys _) hfound
  obtain ⟨key, hkey, rfl⟩ := List.mem_map.mp ((List.mergeSort_perm _ _).mem_iff.mp hs)
  obtain ⟨p, hp⟩ := Option.isSome_iff_exists.mp ((hfind key).mpr hkey)
  have hset : {q | ∃ a, Rules a key ∧ base.lookup a = some q} = Ruling base keys key := by
    ext q
    constructor
    · rintro ⟨a, hr, hq⟩
      exact ⟨a, (hmem a).mpr (lookup_isSome.mp (by rw [hq]; rfl)), hr, hq⟩
    · rintro ⟨a, -, hr, hq⟩
      exact ⟨a, hr, hq⟩
  show IsGreatest {q | ∃ a, Rules a key ∧ base.lookup a = some q} (((effectivePri base keys).lookup key).getD 0)
  rw [hset, hp]
  exact heff key p hp

end Slots

/-! ### The registered modules -/

theorem factoryOf_append (regs : List Registration) (r : Registration) :
    factoryOf (regs ++ [r]) = if r.key ∈ (factoryOf regs).map Registration.key then factoryOf regs
      else factoryOf regs ++ [r] := by
  rw [factoryOf, List.foldl_append]
  rfl

/-- The factory has every key that was registered, once. -/
theorem factoryOf_keys (regs : List Registration) :
    ((factoryOf regs).map Registration.key).Nodup ∧
      ∀ key, key ∈ (factoryOf regs).map Registration.key ↔ key ∈ regs.map Registration.key := by
  induction regs using List.reverseRecOn with
  | nil => exact ⟨List.nodup_nil, fun key => Iff.rfl⟩
  | append_singleton regs r ih =>
    obtain ⟨hnd, hkeys⟩ := ih
    rw [factoryOf_append]
    split_ifs with h
    · refine ⟨hnd, fun key => ?_⟩
      rw [hkeys key, List.map_append, List.mem_append]
      refine ⟨.inl, fun hk => hk.elim id fun hk => ?_⟩
      rw [List.map_cons, List.map_nil, List.mem_singleton] at hk
      rw [hk]
      exact (hkeys _).mp h
    · rw [List.map_append, List.map_append]
      refine ⟨?_, fun key => ?_⟩
      · refine List.nodup_append.mpr ⟨hnd, by simp, ?_⟩
        rintro a ha b hb rfl
        rw [List.map_cons, List.map_nil, List.mem_singleton] at hb
        exact h (hb ▸ ha)
      · rw [List.mem_append, List.mem_append, hkeys key]

section Enabled

variable {N : Type} {platform : Platform} {look : Lookups N} {registered : List Registration}

theorem enabledModules_sublist :
    ((enabledModules platform look registered).map Prod.fst).Sublist
      (registered.map Registration.key) := by
  induction registered with
  | nil => exact List.Sublist.refl _
  | cons r registered ih =>
    rw [enabledModules, List.filterMap_cons, List.map_cons]
    cases moduleBase platform look r with
    | none => exact ih.cons _
    | some p => exact ih.cons_cons _

theorem mem_enabledModules {key : Str} {p : Int} :
    (key, p) ∈ enabledModules platform look registered ↔
      ∃ r ∈ registered, r.key = key ∧ moduleBase platform look r = some p := by
  rw [enabledModules, List.mem_filterMap]
  constructor
  · rintro ⟨r, hr, h⟩
    obtain ⟨q, hq, h⟩ := Option.map_eq_some_iff.mp h
    obtain ⟨rfl, rfl⟩ := Prod.mk.inj h
    exact ⟨r, hr, rfl, hq⟩
  · rintro ⟨r, hr, rfl, hp⟩
    exact ⟨r, hr, by rw [hp]; rfl⟩

/-- With one registration for a key, the table has the priorities of the enabled modules. -/
theorem lookup_enabledModules (hnd : (registered.map Registration.key).Nodup) {key : Str} {p : Int} :
    (assignAll [] (enabledModules platform look registered)).lookup key = some p ↔
      ∃ r ∈ registered, r.key = key ∧ moduleBase platform look r = some p := by
  have hkeys := (@enabledModules_sublist N platform look registered).nodup hnd
  rw [assignAll_new hkeys (by simp), List.nil_append, ← mem_enabledModules]
  exact ⟨mem_of_lookup, lookup_of_mem hkeys⟩

end Enabled

/-- **Effective priorities.** For any registrations and configuration there is one slot for each enabled
module. Its priority is the greatest among its own and those of its enabled ancestors, so no ancestor's is
greater, and the slots are sorted by priority and then by depth. -/
theorem effective_priorities {N : Type} (platform : Platform) (look : Lookups N)
    (regs : List Registration) :
    let modules := factoryOf regs
    let slots := buildModuleGraph (enabledModules platform look modules)
    (keysOf slots).Nodup ∧
      (∀ key, key ∈ keysOf slots ↔ ∃ r ∈ modules, r.key = key ∧ (moduleBase platform look r).isSome) ∧
      (∀ s ∈ slots, IsGreatest {p | ∃ r ∈ modules, (r.key = s.key ∨ r.key ≠ [] ∧ Above r.key s.key) ∧
        moduleBase platform look r = some p} s.priority) ∧
      (∀ s ∈ slots, ∀ a ∈ slots, a.key ≠ [] → Above a.key s.key → a.priority ≤ s.priority) ∧
      slots.Pairwise fun a b =>
        a.priority < b.priority ∨ a.priority = b.priority ∧ keyDepth a.key ≤ keyDepth b.key := by
  intro modules slots
  have hkeys := buildModuleGraph_keys (enabledModules platform look modules)
  have hgreat := fun s hs => @buildModuleGraph_greatest (enabledModules platform look modules) s hs
  refine ⟨hkeys.1, fun key => ?_, fun s hs => ?_, fun s hs a ha hne hab => ?_, sorted_slots _⟩
  · rw [hkeys.2 key, List.mem_map]
    constructor
    · rintro ⟨⟨key, p⟩, hp, rfl⟩
      obtain ⟨r, hr, hkey, hp⟩ := mem_enabledModules.mp hp
      exact ⟨r, hr, hkey, by rw [hp]; rfl⟩
    · rintro ⟨r, hr, rfl, h⟩
      obtain ⟨p, hp⟩ := Option.isSome_iff_exists.mp h
      exact ⟨(r.key, p), mem_enabledModules.mpr ⟨r, hr, rfl, hp⟩, rfl⟩
  · have hset : {p | ∃ a, Rules a s.key ∧
        (assignAll [] (enabledModules platform look modules)).lookup a = some p} =
        {p | ∃ r ∈ modules, (r.key = s.key ∨ r.key ≠ [] ∧ Above r.key s.key) ∧
          moduleBase platform look r = some p} := by
      have hnd := (factoryOf_keys regs).1
      ext p
      constructor
      · rintro ⟨a, ha, hp⟩
        obtain ⟨r, hr, rfl, hbase⟩ := (lookup_enabledModules hnd).mp hp
        exact ⟨r, hr, ha, hbase⟩
      · rintro ⟨r, hr, ha, hp⟩
        exact ⟨r.key, ha, (lookup_enabledModules hnd).mpr ⟨r, hr, rfl, hp⟩⟩
    exact hset ▸ hgreat s hs
  · obtain ⟨b, hb, hp⟩ := (hgreat a ha).1
    refine (hgreat s hs).2 ⟨b, ?_, hp⟩
    rcases hb with rfl | ⟨hbn, hb⟩
    · exact .inr ⟨hne, hab⟩
    · exact .inr ⟨hbn, hb.trans hab⟩

end VersatileEngine.Entry
