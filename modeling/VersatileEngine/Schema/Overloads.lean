import VersatileEngine.Lib.Joining
import VersatileEngine.Md.Onto
import VersatileEngine.Schema.Formats
import VersatileEngine.Xml.Html
import VersatileEngine.Xml.RoundTrip

/-!
# VersatileEngine.Schema.Overloads

The two `importTree` functions of each format, without options and with them.

* `importTreeDefault`, `importTreeOptions` — the two, under the name of the format. `xml` and `bin` have the
  first call the second; `json` writes the call of `copy` out again; `md` builds in the destination itself.
* `copyTree_again`      — a tree copied into one with its value and its children leaves it as it is.
* `copyTree_behind_iff` — copying only appends exactly when no child of the destination has a name of the
  source.
* `overloads_agree_iff` — **the two agree, except that those of `md` need** a destination without a value where
  the text has none, and without a child that is named as a heading at the top. A second import changes
  nothing, except that the one of `md` needs a text without headings.
-/

namespace VersatileEngine

/-! ## Copying -/

/-- **A tree copied again** into what it was copied to changes nothing. -/
theorem copyTree_again (ai ar au : Bool) (s : Tree) :
    ∀ nm, copyTree ai ar au s (.node nm s.value s.kids) = .node nm s.value s.kids := by
  induction s using Tree.ind with
  | h s ih =>
    intro nm
    have hvalue : copyValue au s.value s.value = s.value := by
      rw [copyValue]
      split <;> rfl
    rw [copyTree_eq]
    simp only [Tree.name_node, Tree.value_node, Tree.kids_node, hvalue]
    rw [arrange_matched Tree.name Tree.name ai ar fun _ => rfl, List.map_map]
    have hsnd := keyed_snd Tree.name s.kids
    refine congrArg (Tree.node nm s.value) (Eq.trans (List.map_congr_left fun p hp => ?_) hsnd)
    have hlook := lookup_of_mem (keyed_nodup Tree.name s.kids) hp
    have hself := ih p.2 (mem_of_keyed hp) p.2.name
    rw [Tree.eta] at hself
    simp only [Function.comp_apply, hlook, copySlot]
    exact hself

/-- **Copying appends** exactly when no child of the destination has a name of the source. -/
theorem copyTree_behind_iff (s d : Tree) :
    (copyTree true false false s d).kids = d.kids ++ s.kids ↔
      ∀ k ∈ d.kids, k.name ∉ s.kids.map Tree.name := by
  rw [copyTree_kids]
  constructor
  · intro h k hk hname
    obtain ⟨c, hc, he⟩ := List.mem_map.mp hname
    have hlen := congrArg List.length h
    have hshort := arrange_shorter Tree.name Tree.name hk hc he
    rw [List.length_map, List.length_append] at hlen
    omega
  · intro h
    have hapart : ∀ k ∈ d.kids, ∀ c ∈ s.kids, c.name ≠ k.name := by
      intro k hk c hc he
      exact h k hk (List.mem_map.mpr ⟨c, hc, he⟩)
    have hfresh : s.kids.map (copySlot true false false ∘ Slot.fresh) = s.kids := by
      refine (List.map_congr_left fun k hk => ?_).trans (List.map_id s.kids)
      have hcopy := copyTree_blank false false k k.name
      rw [Tree.eta] at hcopy
      exact hcopy
    have hold : d.kids.map (copySlot true false false ∘ Slot.old) = d.kids := List.map_id _
    rw [arrange_behind Tree.name Tree.name hapart, List.map_append, List.map_map, List.map_map, hfresh, hold]

/-! ## The overloads -/

section Overloads

variable (simdjson : Simdjson) (pugi : Xml.Pugixml)

/-- `json::importTree` without options. -/
def JsonS.importTreeDefault (node : Tree) (json : Str) : Option (Bool × Tree) :=
  if json = [] then some (false, node)
  else
    match simdjson.iterate json with
    | none => some (false, node)
    | some .scalar => some (false, node)
    | some (.value val) =>
      (domToNode val (.blank (ascii "json_import"))).map fun parsed =>
        (true, copyTree true false false parsed node)

/-- `md::importTree` with options. -/
def Md.importTreeOptions (options : ImportOptions) (node : Tree) (md : Str) : Tree × Bool :=
  if md.isEmpty then (node, false)
  else if !options.auto_insert && !options.auto_remove && !options.auto_update then
    (Md.importDirect node md, true)
  else
    let parsed := Md.importDirect (.blank (ascii "md_import")) md
    (copyTree options.auto_insert options.auto_remove options.auto_update parsed node, true)

/-- What `fixHtmlToXml` returns; it always returns. -/
def Html.repaired (html : Str) : Str := (Html.fixHtmlToXml html).getD []

/-- `importTree(node, data, options)` of a format; `none` stands for an exception. -/
def BuiltinFormat.importTreeOptions (options : ImportOptions) (node : Tree) (data : Str) :
    BuiltinFormat → Option (Bool × Tree)
  | .json => JsonS.importTree simdjson options node data
  | .xml => some (Xml.importTree pugi Html.repaired options node data)
  | .bin => some (Bin.importTree options node data).swap
  | .md => some (Md.importTreeOptions options node data).swap

/-- `importTree(node, data)` of a format. -/
def BuiltinFormat.importTreeDefault (node : Tree) (data : Str) : BuiltinFormat → Option (Bool × Tree)
  | .json => JsonS.importTreeDefault simdjson node data
  | .xml => BuiltinFormat.importTreeOptions simdjson pugi .default node data .xml
  | .bin => BuiltinFormat.importTreeOptions simdjson pugi .default node data .bin
  | .md => some (Md.importTree node data).swap

/-- The tree after importing a document, and after importing it again, into a fresh node. -/
def Repeats (importFn : Tree → Str → Option (Bool × Tree)) (nm data : Str) : Prop :=
  ((importFn (.blank nm) data).bind fun r => importFn r.2 data).map Prod.snd =
    (importFn (.blank nm) data).map Prod.snd

/-- A destination that takes a Markdown text in the same way from both. -/
def Md.Takes (dst : Tree) (md : Str) : Prop :=
  md = [] ∨ (Md.content (Md.chunk (Md.marksOf md)) = .none → dst.value = .none) ∧
    ∀ k ∈ dst.kids, k.name ∉ Md.topTitles [] (Md.marksOf md)

variable {simdjson pugi}

/-- An import that copies a scratch tree, which does not depend on the destination. -/
def Copies (importFn : Tree → Str → Option (Bool × Tree)) (data : Str) : Prop :=
  (∀ dst, importFn dst data = none) ∨ (∀ dst, importFn dst data = some (false, dst)) ∨
    ∃ parsed, ∀ dst, importFn dst data = some (true, copyTree true false false parsed dst)

theorem Copies.repeats {importFn : Tree → Str → Option (Bool × Tree)} {data : Str} (h : Copies importFn data)
    (nm : Str) : Repeats importFn nm data := by
  rcases h with h | h | ⟨parsed, h⟩
  · simp only [Repeats, h]
    rfl
  · simp only [Repeats, h]
    rfl
  · simp only [Repeats, h, Option.bind_some, Option.map_some, copyTree_blank, copyTree_again]

theorem importTreeOptions_copies (format : BuiltinFormat) (data : Str) :
    Copies (fun dst data => format.importTreeOptions simdjson pugi .default dst data) data := by
  cases format with
  | json =>
    by_cases hdata : data = []
    · exact .inr (.inl fun _ => if_pos hdata)
    cases hiter : simdjson.iterate data with
    | none =>
      refine .inr (.inl fun _ => ?_)
      simp only [BuiltinFormat.importTreeOptions, JsonS.importTree, if_neg hdata, hiter]
    | some doc =>
      cases doc with
      | scalar =>
        refine .inr (.inl fun _ => ?_)
        simp only [BuiltinFormat.importTreeOptions, JsonS.importTree, if_neg hdata, hiter]
      | value val =>
        cases hval : domToNode val (.blank (ascii "json_import")) with
        | none =>
          refine .inl fun _ => ?_
          simp only [BuiltinFormat.importTreeOptions, JsonS.importTree, if_neg hdata, hiter, hval, Option.map_none]
        | some parsed =>
          refine .inr (.inr ⟨parsed, fun _ => ?_⟩)
          simp only [BuiltinFormat.importTreeOptions, JsonS.importTree, if_neg hdata, hiter, hval, Option.map_some]
          rfl
  | xml =>
    by_cases hdata : data = []
    · exact .inr (.inl fun _ => congrArg some (if_pos hdata))
    cases hload : (pugi.load_string data).or (pugi.load_string (Html.repaired data)) with
    | none =>
      refine .inr (.inl fun _ => ?_)
      simp only [BuiltinFormat.importTreeOptions, Xml.importTree, if_neg hdata, hload]
    | some doc =>
      cases hroot : doc.find? fun n => n.name?.isSome with
      | none =>
        refine .inr (.inr ⟨.blank (ascii "xml_import"), fun _ => ?_⟩)
        simp only [BuiltinFormat.importTreeOptions, Xml.importTree, if_neg hdata, hload, hroot]
        rfl
      | some root =>
        refine .inr (.inr ⟨Xml.fromXml root (.blank (ascii "xml_import")), fun _ => ?_⟩)
        simp only [BuiltinFormat.importTreeOptions, Xml.importTree, if_neg hdata, hload, hroot]
        rfl
  | bin =>
    by_cases hdata : data.isEmpty = true
    · refine .inr (.inl fun _ => ?_)
      simp only [BuiltinFormat.importTreeOptions, Bin.importTree, if_pos hdata, Prod.swap_prod_mk]
    cases hunpack : MsgPack.unpack data with
    | error e =>
      refine .inr (.inl fun _ => ?_)
      simp only [BuiltinFormat.importTreeOptions, Bin.importTree, if_neg hdata, hunpack, Prod.swap_prod_mk]
    | ok obj =>
      refine .inr (.inr ⟨unpackNode obj.1 (.blank (ascii "bin_import")), fun _ => ?_⟩)
      simp only [BuiltinFormat.importTreeOptions, Bin.importTree, if_neg hdata, hunpack, Prod.swap_prod_mk]
      rfl
  | md =>
    by_cases hdata : data.isEmpty = true
    · refine .inr (.inl fun _ => ?_)
      simp only [BuiltinFormat.importTreeOptions, Md.importTreeOptions, if_pos hdata, Prod.swap_prod_mk]
    · refine .inr (.inr ⟨Md.importDirect (.blank (ascii "md_import")) data, fun _ => ?_⟩)
      simp only [BuiltinFormat.importTreeOptions, Md.importTreeOptions, if_neg hdata]
      rfl

/-- Outside of `md` the overloads do the same. -/
theorem importTreeDefault_eq {format : BuiltinFormat} (h : format ≠ .md) (dst : Tree) (data : Str) :
    format.importTreeDefault simdjson pugi dst data =
      format.importTreeOptions simdjson pugi .default dst data := by
  cases format with
  | json => rfl
  | xml => rfl
  | bin => rfl
  | md => exact absurd rfl h

/-- The tree that `md` builds in the destination, and the one that it copies there. -/
theorem md_agree_iff (md : Str) (dst : Tree) :
    Md.importDirect dst md = copyTree true false false (Md.importDirect (.blank (ascii "md_import")) md) dst ↔
      (Md.content (Md.chunk (Md.marksOf md)) = .none → dst.value = .none) ∧
        ∀ k ∈ dst.kids, k.name ∉ Md.topTitles [] (Md.marksOf md) := by
  have hvalue : (Md.importDirect (.blank (ascii "md_import")) md).value =
      Md.content (Md.chunk (Md.marksOf md)) := by
    rw [Md.importDirect_value, Md.overwrite]
    split_ifs with hnull
    · exact (isNull_iff.mp hnull).symm
    · rfl
  have hkids := copyTree_behind_iff (Md.importDirect (.blank (ascii "md_import")) md) dst
  rw [Md.names_importDirect, ← Md.importDirect_kids dst (ascii "md_import") md] at hkids
  constructor
  · intro h
    refine ⟨fun hnone => ?_, hkids.mp (congrArg Tree.kids h).symm⟩
    have hv := congrArg Tree.value h
    rw [copyTree_value, hvalue, Md.importDirect_value, hnone] at hv
    exact hv
  · rintro ⟨hnone, hapart⟩
    refine Tree.ext ?_ ?_ (hkids.mpr hapart).symm
    · rw [Md.importDirect_name, copyTree_name]
    · rw [copyTree_value, hvalue, Md.importDirect_value, Md.overwrite]
      split_ifs with hnull
      · have hcontent := isNull_iff.mp hnull
        rw [hnone hcontent, hcontent]
        rfl
      · rfl

theorem md_overloads (dst : Tree) (md : Str) : BuiltinFormat.importTreeDefault simdjson pugi dst md .md =
    BuiltinFormat.importTreeOptions simdjson pugi .default dst md .md ↔ Md.Takes dst md := by
  simp only [BuiltinFormat.importTreeDefault, BuiltinFormat.importTreeOptions, Md.importTree,
    Md.importTreeOptions, Md.Takes]
  by_cases hmd : md = []
  · subst hmd
    exact iff_of_true rfl (.inl rfl)
  · have hne : md.isEmpty = false := by simpa using hmd
    rw [or_iff_right hmd, ← md_agree_iff md dst, hne]
    simp only [ImportOptions.default, Bool.not_true, Bool.false_and, Bool.false_eq_true, if_false,
      Option.some.injEq, Prod.swap_inj, Prod.mk.injEq, and_true]

/-- Every heading at the top makes one more child each time. -/
theorem md_repeats_iff (nm md : Str) :
    Repeats (fun dst data => BuiltinFormat.importTreeDefault simdjson pugi dst data .md) nm md ↔
      ∀ m ∈ Md.marksOf md, m.isHeading = false := by
  have hnames := Md.names_importDirect nm md
  rw [← Md.topTitles_nil, ← hnames, List.map_eq_nil_iff]
  simp only [Repeats, BuiltinFormat.importTreeDefault, Md.importTree]
  by_cases hmd : md = []
  · subst hmd
    exact iff_of_true rfl rfl
  have hne : md.isEmpty = false := by simpa using hmd
  simp only [hne, Bool.false_eq_true, if_false, Prod.swap_prod_mk, Option.bind_some, Option.map_some, Option.some.injEq]
  constructor
  · intro h
    have hlen := congrArg (fun t => t.kids.length) h
    simp only [Md.importDirect_kids (Md.importDirect (.blank nm) md) nm md, List.length_append] at hlen
    exact List.eq_nil_of_length_eq_zero (by omega)
  · intro h
    refine Tree.ext (Md.importDirect_name _ md) ?_ ?_
    · rw [Md.importDirect_value, Md.importDirect_value, Md.overwrite, Md.overwrite]
      split_ifs <;> rfl
    · rw [Md.importDirect_kids _ nm md, h]
      rfl

/-- **The overloads of a format agree**, and importing twice is importing once: always for `json`, `xml` and
`bin`; for `md`, when the destination takes the text, and when the text has no heading. -/
theorem overloads_agree_iff (simdjson : Simdjson) (pugi : Xml.Pugixml) (format : BuiltinFormat) :
    (∀ dst data, format.importTreeDefault simdjson pugi dst data =
        format.importTreeOptions simdjson pugi .default dst data ↔ (format = .md → Md.Takes dst data)) ∧
      (∀ nm data, Repeats (fun dst data => format.importTreeDefault simdjson pugi dst data) nm data ↔
        (format = .md → ∀ m ∈ Md.marksOf data, m.isHeading = false)) ∧
      ∀ nm data, Repeats (fun dst data => format.importTreeOptions simdjson pugi .default dst data) nm data := by
  refine ⟨fun dst data => ?_, fun nm data => ?_, fun nm data => (importTreeOptions_copies format data).repeats nm⟩
  · by_cases hformat : format = .md
    · subst hformat
      exact (md_overloads dst data).trans (imp_iff_right rfl).symm
    · exact iff_of_true (importTreeDefault_eq hformat dst data) fun h => absurd h hformat
  · by_cases hformat : format = .md
    · subst hformat
      exact (md_repeats_iff nm data).trans (imp_iff_right rfl).symm
    · refine iff_of_true ?_ fun h => absurd h hformat
      have hcopies := (@importTreeOptions_copies simdjson pugi format data).repeats nm
      simpa only [importTreeDefault_eq hformat] using hcopies

/-- A heading that is imported twice is there twice. -/
theorem heading_imported_twice : ¬ ∀ (simdjson : Simdjson) (pugi : Xml.Pugixml) (format : BuiltinFormat)
    (nm data : Str), (∀ dst, format.importTreeDefault simdjson pugi dst data =
        format.importTreeOptions simdjson pugi .default dst data) ∧
      Repeats (fun dst data => format.importTreeDefault simdjson pugi dst data) nm data := by
  intro h
  obtain ⟨-, htwice⟩ := h (.reference fun _ => none) ⟨fun _ _ => [], fun _ => none⟩ .md [] (ascii "# a")
  have hlen := congrArg (Option.map fun t => t.kids.length) htwice
  revert hlen
  decide +kernel

end Overloads

end VersatileEngine
