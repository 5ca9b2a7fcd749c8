import VersatileEngine.Json.Import
import VersatileEngine.Json.Stringify

/-!
# VersatileEngine.Json.Text

What the pieces of an exported text say, and that they are UTF-8.

* `JsonText`          — a text that is read as a value wherever it stands.
* `JsonText.array`, `JsonText.object` — one element or field to a line, with the commas, line ends and
  indentation between them.
* `Var.Textual`       — values that a text says as they are.
* `valid_fieldLines`  — a text is UTF-8 exactly when the names and texts in it are.
-/

namespace VersatileEngine

open Json

/-! ## Strings -/

theorem hexVal_hexDigit {n : Nat} (h : n < 16) : hexVal (hexDigit n) = some n := by
  have hall : ∀ n < 16, hexVal (hexDigit n) = some n := by decide
  exact hall n h

/-- The escape of a control character. -/
theorem escaped_low {a b c d : UInt8} {t x : Str} {u : Nat}
    (h : hex4 (a :: b :: c :: d :: t) = some (u, t)) (hu : u < 32) (hx : Utf8.encode u = x) :
    escaped (117 :: a :: b :: c :: d :: t) = some (x, t) := by
  have hlow : ¬ (0xD800 ≤ u ∧ u < 0xDC00) ∧ ¬ (0xDC00 ≤ u ∧ u < 0xE000) ∧
      ¬ (0xD800 ≤ u ∧ u < 0xE000) := by omega
  have hcode : unicodeEscape (a :: b :: c :: d :: t) = some (x, t) := by
    rw [unicodeEscape, h]
    split
    · rename_i heq
      obtain ⟨rfl, rfl⟩ := Prod.mk.inj (Option.some.inj heq)
      rw [if_neg hlow.1, if_neg hlow.2.1, hx]
    · rename_i heq
      obtain ⟨rfl, rfl⟩ := Prod.mk.inj (Option.some.inj heq)
      rw [if_neg hlow.2.2, hx]
    · rename_i heq
      cases heq
  exact hcode

/-- An escaped byte is read as the byte. -/
theorem readsString_escape (s : Str) : ReadsString s (escape s) := by
  induction s with
  | nil => exact readsString_nil
  | cons c s ih =>
    have hsimple : ∀ e x : UInt8, (∀ t, escaped (e :: t) = some ([x], t)) →
        ReadsString (x :: s) ([92, e] ++ escape s) := fun e x hx =>
      ih.escape (e := [e]) (x := [x]) hx
    rw [escape, List.flatMap_cons, ← escape]
    unfold escapeByte
    split_ifs with h1 h2 h3 h4 h5 h6 h7 h8
    · exact h1 ▸ hsimple 34 34 fun _ => rfl
    · exact h2 ▸ hsimple 92 92 fun _ => rfl
    · exact h3 ▸ hsimple 98 8 fun _ => rfl
    · exact h4 ▸ hsimple 102 12 fun _ => rfl
    · exact h5 ▸ hsimple 110 10 fun _ => rfl
    · exact h6 ▸ hsimple 114 13 fun _ => rfl
    · exact h7 ▸ hsimple 116 9 fun _ => rfl
    · have hc : c.toNat < 32 := UInt8.lt_iff_toNat_lt.mp h8
      refine ih.escape (e := [117, 48, 48, hexDigit (c.toNat / 16), hexDigit (c.toNat % 16)])
        (x := [c]) fun t => ?_
      have h0 : hexVal 48 = some 0 := rfl
      have hhex : hex4 (48 :: 48 :: hexDigit (c.toNat / 16) :: hexDigit (c.toNat % 16) :: t) =
          some (c.toNat, t) := by
        rw [hex4, h0, hexVal_hexDigit (by omega), hexVal_hexDigit (by omega)]
        simp only [Option.some.injEq, Prod.mk.injEq, and_true]
        omega
      have hu : Utf8.encode c.toNat = [c] := by
        rw [Utf8.encode, if_pos (by omega), UInt8.ofNat_toNat]
      exact escaped_low hhex hc hu
    · refine ih.byte ⟨h1, h2, h8⟩

/-! ## What a text says -/

section Texts

variable {getDouble : Str → Option Binary64}

variable (getDouble) in
/-- The text is read as the value wherever it stands, and repeats no empty key. -/
def JsonText (text : Str) (v : Var) : Prop :=
  ∃ j, Reads j text ∧ domToVar (j.onDemand getDouble) = some v ∧ j.OneEmptyKey

variable (getDouble) in
/-- A field with its text. -/
def FieldText (f : Str × Str) (p : Str × Var) : Prop := f.1 = p.1 ∧ JsonText getDouble f.2 p.2

theorem jsonText_elements {texts : List Str} {vs : List Var}
    (h : List.Forall₂ (JsonText getDouble) texts vs) : ∃ js,
      List.Forall₂ (fun text j => Reads j text) texts js ∧
        elemsToVar (onDemandAll getDouble js) = some vs ∧ ∀ j ∈ js, j.OneEmptyKey := by
  induction h with
  | nil => exact ⟨[], .nil, rfl, by simp⟩
  | @cons text v texts vs hv _ ih =>
    obtain ⟨j, hj, hjv, hone⟩ := hv
    obtain ⟨js, hjs, hvs, hones⟩ := ih
    refine ⟨j :: js, .cons hj hjs, ?_, List.forall_mem_cons.mpr ⟨hone, hones⟩⟩
    rw [onDemandAll, elemsToVar, hjv, hvs]
    rfl

theorem jsonText_fields {fields : List (Str × Str)} {kvs : List (Str × Var)}
    (h : List.Forall₂ (FieldText getDouble) fields kvs) : ∃ fs : List (Str × Json),
      List.Forall₂ (fun f p => f.1 = p.1 ∧ Reads p.2 f.2) fields fs ∧
        (∀ dict, fieldsToVar dict (onDemandFields getDouble fs) = some (assignAll dict kvs)) ∧
        fs.map Prod.fst = kvs.map Prod.fst ∧ ∀ p ∈ fs, p.2.OneEmptyKey := by
  induction h with
  | nil => exact ⟨[], .nil, fun _ => rfl, rfl, by simp⟩
  | @cons f p fields kvs hp _ ih =>
    obtain ⟨hname, j, hj, hjv, hone⟩ := hp
    obtain ⟨fs, hfs, hkvs, hkeys, hones⟩ := ih
    refine ⟨(f.1, j) :: fs, .cons ⟨rfl, hj⟩ hfs, fun dict => ?_, ?_,
      List.forall_mem_cons.mpr ⟨hone, hones⟩⟩
    rotate_left
    · rw [List.map_cons, List.map_cons, hkeys, hname]
    rw [onDemandFields, fieldsToVar, Option.bind_some, hjv, Option.bind_some, hkvs, hname]
    rfl

theorem oneEmptyKey_arr {js : List Json} (h : ∀ j ∈ js, j.OneEmptyKey) :
    (Json.arr js).OneEmptyKey := .intro (fun fs hfs => (by cases hfs)) h

theorem oneEmptyKey_obj {fs : List (Str × Json)} (hone : (fs.map Prod.fst).count [] ≤ 1)
    (h : ∀ p ∈ fs, p.2.OneEmptyKey) : (Json.obj fs).OneEmptyKey := by
  refine .intro (fun fs' hfs => ?_) (List.forall_mem_map.mpr h)
  cases hfs
  exact hone

theorem oneEmptyKey_scalar {j : Json} (h : j.isContainer = false) : j.OneEmptyKey := by
  cases j with
  | arr => cases h
  | obj => cases h
  | _ => exact .intro (fun fs hfs => (by cases hfs)) fun x hx => (by cases hx)

theorem lineEnd_last (n : Nat) : lineEnd n n = [10] := by rw [lineEnd, if_neg (Nat.lt_irrefl n)]; rfl

theorem lineEnd_comma {i n : Nat} (h : i < n) : lineEnd i n = [44, 10] := by
  rw [lineEnd, if_pos h]; rfl

theorem ws_newline {w : Str} (h : Ws w) : Ws (10 :: w) := List.forall_mem_cons.mpr ⟨rfl, h⟩

theorem readsElements_lines {pad w' : Str} {total : Nat} {texts : List Str} {js : List Json}
    (hpad : Ws pad) (hw' : Ws w') (h : List.Forall₂ (fun text j => Reads j text) texts js)
    (hne : texts ≠ []) : ∀ (first : Bool) (i : Nat) {w : Str}, Ws w → i + texts.length = total →
      ReadsElements first js (w ++ (elementLines pad total i texts ++ (w' ++ [93]))) := by
  induction h with
  | nil => exact absurd rfl hne
  | @cons text j texts js hj hjs ih =>
    intro first i w hw hi
    have hread := hj.ws (hw.append hpad)
    rw [List.length_cons] at hi
    cases texts with
    | nil =>
      cases hjs
      obtain rfl : i + 1 = total := hi
      rw [elementLines, lineEnd_last]
      have hsingle : ReadsElements first [j] (_ ++ (_ ++ [93])) := .single hread (ws_newline hw')
      simpa [elementLines] using hsingle
    | cons text' texts =>
      rw [elementLines, lineEnd_comma (by simp at hi; omega)]
      have hrest := @ih (by simp) false (i + 1) [10] (ws_newline ws_nil) (by omega)
      have hcons : ReadsElements first (j :: js) (_ ++ ([] ++ 44 :: _)) := .cons hread ws_nil hrest
      simpa using hcons

theorem readsMembers_lines {pad w' : Str} {total : Nat} {fields : List (Str × Str)}
    {fs : List (Str × Json)} (hpad : Ws pad) (hw' : Ws w')
    (h : List.Forall₂ (fun f p => f.1 = p.1 ∧ Reads p.2 f.2) fields fs) (hne : fields ≠ []) :
    ∀ (first : Bool) (i : Nat) {w : Str}, Ws w → i + fields.length = total →
      ReadsMembers first fs (w ++ (fieldLines pad total i fields ++ (w' ++ [125]))) := by
  induction h with
  | nil => exact absurd rfl hne
  | @cons f p fields fs hp hfs ih =>
    obtain ⟨nm, text⟩ := f
    obtain ⟨nm', j⟩ := p
    obtain ⟨rfl, hj⟩ := hp
    intro first i w hw hi
    have hread : Reads j (32 :: text) := hj.ws (ws_replicate 1)
    have hkey := readsString_escape nm
    have hwp := hw.append hpad
    rw [List.length_cons] at hi
    cases fields with
    | nil =>
      cases hfs
      obtain rfl : i + 1 = total := hi
      rw [fieldLines, lineEnd_last]
      have hsingle : ReadsMembers first [(nm, j)] (_ ++ 34 :: _) :=
        .single hwp hkey hread (ws_newline hw')
      simpa [fieldLines, quoted, ascii] using hsingle
    | cons f' fields =>
      rw [fieldLines, lineEnd_comma (by simp at hi; omega)]
      have hrest := @ih (by simp) false (i + 1) [10] (ws_newline ws_nil) (by omega)
      have hcons : ReadsMembers first ((nm, j) :: fs) (_ ++ 34 :: _) :=
        .cons hwp hkey hread ws_nil hrest
      simpa [quoted, ascii] using hcons

/-- An array, one element to a line. -/
theorem JsonText.array {pad pad' : Str} {texts : List Str} {vs : List Var} (hpad : Ws pad)
    (hpad' : Ws pad') (h : List.Forall₂ (JsonText getDouble) texts vs) (hne : texts ≠ []) :
    JsonText getDouble
      (ascii "[\n" ++ elementLines pad texts.length 0 texts ++ pad' ++ [93]) (.list vs) := by
  obtain ⟨js, hjs, hvs, hones⟩ := jsonText_elements h
  refine ⟨.arr js, ?_, ?_, oneEmptyKey_arr hones⟩
  · have harr := Reads.arr (readsElements_lines hpad hpad' hjs hne true 0 (ws_newline ws_nil)
      (Nat.zero_add _))
    simpa [ascii] using harr
  · rw [onDemand, domToVar, hvs]
    rfl

/-- An object, one field to a line. -/
theorem JsonText.object {pad pad' : Str} {fields : List (Str × Str)} {kvs : List (Str × Var)}
    (hpad : Ws pad) (hpad' : Ws pad') (h : List.Forall₂ (FieldText getDouble) fields kvs)
    (hne : fields ≠ []) (hone : (kvs.map Prod.fst).count [] ≤ 1) : JsonText getDouble
      (ascii "\x7b\n" ++ fieldLines pad fields.length 0 fields ++ pad' ++ [125])
      (.dict (assignAll [] kvs)) := by
  obtain ⟨fs, hfs, hkvs, hkeys, hones⟩ := jsonText_fields h
  refine ⟨.obj fs, ?_, ?_, oneEmptyKey_obj (hkeys ▸ hone) hones⟩
  · have hobj := Reads.obj (readsMembers_lines hpad hpad' hfs hne true 0 (ws_newline ws_nil)
      (Nat.zero_add _))
    simpa [ascii] using hobj
  · rw [onDemand, domToVar, hkvs]
    rfl

/-! ## Values -/

/-- Values that a text says as they are. -/
inductive Var.Textual : Var → Prop
  | none : Textual .none
  | bool (b : Bool) : Textual (.bool b)
  | int (i : Int64) : Textual (.int i)
  | string {s : Str} (h : Utf8.Valid s) : Textual (.string s)
  | list {l : List Var} (h : ∀ v ∈ l, Textual v) : Textual (.list l)
  | dict {d : List (Str × Var)} (hk : (d.map Prod.fst).Nodup) (hu : ∀ p ∈ d, Utf8.Valid p.1)
      (h : ∀ p ∈ d, Textual p.2) : Textual (.dict d)

theorem jsonText_null : JsonText getDouble (ascii "null") .none := 
  ⟨.null, reads_null, rfl, oneEmptyKey_scalar rfl⟩

theorem jsonText_bool (b : Bool) : JsonText getDouble (varToJson (.bool b)) (.bool b) := by
  cases b
  · exact ⟨.bool false, reads_false, rfl, oneEmptyKey_scalar rfl⟩
  · exact ⟨.bool true, reads_true, rfl, oneEmptyKey_scalar rfl⟩

theorem jsonText_intChars (i : Int64) : JsonText getDouble (intChars i.toInt) (.int i) := by
  refine ⟨.int i.toInt, reads_int _, ?_, oneEmptyKey_scalar rfl⟩
  have hrange : -2 ^ 63 ≤ i.toInt ∧ i.toInt < 2 ^ 63 := ⟨i.le_toInt, i.toInt_lt⟩
  rw [Json.onDemand, if_pos hrange, Int64.ofInt_toInt]
  rfl

theorem jsonText_quoted (s : Str) : JsonText getDouble (quoted s) (.string s) :=
  ⟨.str s, reads_str (readsString_escape s), rfl, oneEmptyKey_scalar rfl⟩

theorem readsElements_list {l : List Var} {js : List Json}
    (h : List.Forall₂ (fun v j => Reads j (varToJson v)) l js) (hne : l ≠ []) :
    ∀ first, ReadsElements first js (listToJson true l ++ [93]) := by
  induction h with
  | nil => exact absurd rfl hne
  | @cons v j l js hj hjs ih =>
    intro first
    cases l with
    | nil =>
      cases hjs
      have hsingle : ReadsElements first [j] (_ ++ ([] ++ [93])) := .single hj ws_nil
      simpa [listToJson] using hsingle
    | cons v' l =>
      have hcons : ReadsElements first (j :: js) (_ ++ ([] ++ 44 :: _)) :=
        .cons hj ws_nil (ih (by simp) false)
      simpa [listToJson] using hcons

theorem readsMembers_dict {d : List (Str × Var)} {fs : List (Str × Json)}
    (h : List.Forall₂ (fun q p => q.1 = p.1 ∧ Reads p.2 (varToJson q.2)) d fs) (hne : d ≠ []) :
    ∀ first, ReadsMembers first fs (dictToJson true d ++ [125]) := by
  induction h with
  | nil => exact absurd rfl hne
  | @cons q p d fs hp hfs ih =>
    obtain ⟨key, v⟩ := q
    obtain ⟨key', j⟩ := p
    obtain ⟨rfl, hj⟩ := hp
    intro first
    have hkey := readsString_escape key
    cases d with
    | nil =>
      cases hfs
      have hsingle : ReadsMembers first [(key, j)] ([] ++ 34 :: _) :=
        .single ws_nil hkey hj ws_nil
      simpa [dictToJson, quoted] using hsingle
    | cons q' d =>
      have hcons : ReadsMembers first ((key, j) :: fs) ([] ++ 34 :: _) :=
        .cons ws_nil hkey hj ws_nil (ih (by simp) false)
      simpa [dictToJson, quoted] using hcons

/-- The text of a list on one line. -/
theorem JsonText.list {l vs : List Var}
    (h : List.Forall₂ (JsonText getDouble) (l.map varToJson) vs) :
    JsonText getDouble (varToJson (.list l)) (.list vs) := by
  obtain ⟨js, hjs, hvs, hones⟩ := jsonText_elements h
  refine ⟨.arr js, ?_, by rw [onDemand, domToVar, hvs]; rfl, oneEmptyKey_arr hones⟩
  rw [varToJson]
  cases l with
  | nil =>
    cases hjs
    exact reads_arr_nil ws_nil
  | cons v l => exact .arr (readsElements_list (List.forall₂_map_left_iff.mp hjs) (by simp) true)

/-- The text of a dictionary on one line. -/
theorem JsonText.dict {d kvs : List (Str × Var)}
    (h : List.Forall₂ (FieldText getDouble) (d.map fun p => (p.1, varToJson p.2)) kvs)
    (hone : (kvs.map Prod.fst).count [] ≤ 1) :
    JsonText getDouble (varToJson (.dict d)) (.dict (assignAll [] kvs)) := by
  obtain ⟨fs, hfs, hkvs, hkeys, hones⟩ := jsonText_fields h
  refine ⟨.obj fs, ?_, by rw [onDemand, domToVar, hkvs]; rfl, oneEmptyKey_obj (hkeys ▸ hone) hones⟩
  rw [varToJson]
  cases d with
  | nil =>
    cases hfs
    exact reads_obj_nil ws_nil
  | cons p d => exact .obj (readsMembers_dict (List.forall₂_map_left_iff.mp hfs) (by simp) true)

theorem Var.Textual.jsonText {v : Var} (h : v.Textual) : JsonText getDouble (varToJson v) v := by
  induction h with
  | none => exact jsonText_null
  | bool b => exact jsonText_bool b
  | int i => exact jsonText_intChars i
  | @string s _ => exact jsonText_quoted s
  | @list l _ ih =>
    refine .list (List.forall₂_map_left_iff.mpr ?_)
    exact List.forall₂_same.mpr ih
  | @dict d hk _ _ ih =>
    have hd : JsonText getDouble (varToJson (.dict d)) (.dict (assignAll [] d)) :=
      .dict (List.forall₂_map_left_iff.mpr (List.forall₂_same.mpr fun p hp => ⟨rfl, ih p hp⟩))
        (List.nodup_iff_count_le_one.mp hk [])
    rwa [assignAll_new hk fun p _ hm => (by cases hm)] at hd

end Texts

/-! ## Well-formed UTF-8 -/

theorem hexDigit_ascii {n : Nat} (h : n < 16) : hexDigit n ≤ 0x7F := by
  have hall : ∀ n < 16, hexDigit n ≤ 0x7F := by decide
  exact hall n h

theorem escapeByte_ascii {c : UInt8} (hc : c ≤ 0x7F) :
    ∃ e w, escapeByte c = e :: w ∧ ∀ b ∈ e :: w, b ≤ 0x7F := by
  have hpair : ∀ x y : UInt8, x ≤ 0x7F → y ≤ 0x7F → ∀ b ∈ [x, y], b ≤ 0x7F := fun x y hx hy =>
    List.forall_mem_cons.mpr ⟨hx, List.forall_mem_singleton.mpr hy⟩
  unfold escapeByte
  split_ifs with h1 h2 h3 h4 h5 h6 h7 h8
  iterate 7 exact ⟨_, _, rfl, hpair _ _ (by decide) (by decide)⟩
  · have hlow : c.toNat < 32 := UInt8.lt_iff_toNat_lt.mp h8
    refine ⟨_, _, rfl, ?_⟩
    simp only [List.forall_mem_cons]
    exact ⟨by decide, by decide, by decide, by decide, hexDigit_ascii (by omega),
      hexDigit_ascii (by omega), by simp⟩
  · exact ⟨_, _, rfl, by simpa using hc⟩

theorem escapeByte_high {c : UInt8} (hc : ¬ c ≤ 0x7F) : escapeByte c = [c] := by
  have hne : ∀ x : UInt8, x ≤ 0x7F → ¬ c = x := fun x hx he => hc (he ▸ hx)
  have hge : ¬ c < 0x20 := fun h => hc (by
    rw [UInt8.lt_iff_toNat_lt] at h
    rw [UInt8.le_iff_toNat_le]
    exact Nat.le_trans (Nat.le_of_lt h) (by decide))
  rw [escapeByte, if_neg (hne _ (by decide)), if_neg (hne _ (by decide)), if_neg (hne _ (by decide)),
    if_neg (hne _ (by decide)), if_neg (hne _ (by decide)), if_neg (hne _ (by decide)),
    if_neg (hne _ (by decide)), if_neg hge]

/-- Escapes stand for ASCII and are ASCII. -/
theorem scan_escape (s : Str) : ∀ {owed : Utf8.Owed}, Utf8.High owed →
    Utf8.scan owed (escape s) = Utf8.scan owed s := by
  induction s with
  | nil => intro owed _; rfl
  | cons c s ih =>
    intro owed h
    rw [escape, List.flatMap_cons, ← escape]
    by_cases hc : c ≤ 0x7F
    · obtain ⟨e, w, he, hw⟩ := escapeByte_ascii hc
      rw [List.forall_mem_cons] at hw
      have hnil : Utf8.High [] := fun r hr => (by cases hr)
      have hcut : Utf8.scan owed (c :: s) = (Utf8.scan owed [] && Utf8.scan [] s) :=
        Utf8.scan_cut hc s [] h
      have hcut' : Utf8.scan owed (e :: (w ++ escape s)) =
          (Utf8.scan owed [] && Utf8.scan [] (w ++ escape s)) := Utf8.scan_cut hw.1 _ [] h
      rw [he, List.cons_append, hcut', hcut, Utf8.scan_append (Utf8.valid_ascii hw.2), ih hnil]
    · rw [escapeByte_high hc, List.singleton_append]
      cases owed with
      | nil =>
        rw [Utf8.scan, Utf8.scan]
        cases hl : Utf8.lead c with
        | none => rfl
        | some owed => exact ih (Utf8.lead_high hl)
      | cons r owed =>
        rw [Utf8.scan, Utf8.scan, ih fun r' hr' => h r' (List.mem_cons_of_mem _ hr')]

theorem valid_quoted_append {s t : Str} :
    Utf8.Valid (quoted s ++ t) ↔ Utf8.Valid s ∧ Utf8.Valid t := by
  have hshape : quoted s ++ t = [34] ++ (escape s ++ 34 :: t) := by simp [quoted]
  have hquote : Utf8.Valid [34] := by decide
  rw [hshape, hquote.append, Utf8.valid_cut (by decide), Utf8.Valid,
    scan_escape s fun r hr => (by cases hr)]
  rfl

theorem valid_quoted {s : Str} : Utf8.Valid (quoted s) ↔ Utf8.Valid s := by
  have h := @valid_quoted_append s []
  rw [List.append_nil] at h
  exact h.trans (and_iff_left rfl)

theorem Json.Ws.valid {w : Str} (h : Ws w) : Utf8.Valid w := by
  refine Utf8.valid_ascii fun b hb => ?_
  have hb := h b hb
  simp only [isWs, Bool.or_eq_true, decide_eq_true_eq] at hb
  rcases hb with ((rfl | rfl) | rfl) | rfl <;> decide

theorem lineEnd_valid (i n : Nat) : ∃ c w, lineEnd i n = c :: w ∧ c ≤ 0x7F ∧ Utf8.Valid w := by
  unfold lineEnd
  split_ifs
  · exact ⟨44, [10], rfl, by decide, by decide⟩
  · exact ⟨10, [], rfl, by decide, by decide⟩

theorem valid_elementLines {pad rest : Str} (hpad : Ws pad) (total : Nat) (texts : List Str) :
    ∀ i, Utf8.Valid (elementLines pad total i texts ++ rest) ↔
      (∀ x ∈ texts, Utf8.Valid x) ∧ Utf8.Valid rest := by
  induction texts with
  | nil => intro i; simp [elementLines]
  | cons text texts ih =>
    intro i
    obtain ⟨c, w, he, hc, hw⟩ := lineEnd_valid (i + 1) total
    have hshape : elementLines pad total i (text :: texts) ++ rest =
        pad ++ (text ++ c :: (w ++ (elementLines pad total (i + 1) texts ++ rest))) := by
      simp [elementLines, he]
    rw [hshape, hpad.valid.append, Utf8.valid_cut hc, hw.append, ih, List.forall_mem_cons, and_assoc]

theorem valid_fieldLines {pad rest : Str} (hpad : Ws pad) (total : Nat) (fields : List (Str × Str)) :
    ∀ i, Utf8.Valid (fieldLines pad total i fields ++ rest) ↔
      (∀ f ∈ fields, Utf8.Valid f.1 ∧ Utf8.Valid f.2) ∧ Utf8.Valid rest := by
  have hcolon : Utf8.Valid (ascii ": ") := by decide
  induction fields with
  | nil => intro i; simp [fieldLines]
  | cons f fields ih =>
    obtain ⟨nm, text⟩ := f
    intro i
    obtain ⟨c, w, he, hc, hw⟩ := lineEnd_valid (i + 1) total
    have hshape : fieldLines pad total i ((nm, text) :: fields) ++ rest =
        pad ++ (quoted nm ++ (ascii ": " ++
          (text ++ c :: (w ++ (fieldLines pad total (i + 1) fields ++ rest))))) := by
      simp [fieldLines, he]
    rw [hshape, hpad.valid.append, valid_quoted_append, hcolon.append, Utf8.valid_cut hc,
      hw.append, ih, List.forall_mem_cons]
    simp only [and_assoc]

theorem intChars_valid (i : Int) : Utf8.Valid (intChars i) := by
  have hd : ∀ n, ∀ c ∈ natChars n, c ≤ 0x7F := fun n c hc => by
    have hc := isDigit_natChars hc
    simp only [isDigit, Bool.and_eq_true, decide_eq_true_eq, UInt8.le_iff_toNat_le] at hc
    rw [UInt8.le_iff_toNat_le]
    exact Nat.le_trans hc.2 (by decide)
  cases i with
  | ofNat n => exact Utf8.valid_ascii (hd n)
  | negSucc n => exact Utf8.valid_ascii (List.forall_mem_cons.mpr ⟨by decide, hd (n + 1)⟩)

theorem listToJson_valid {l : List Var} (h : ∀ v ∈ l, Utf8.Valid (varToJson v)) :
    ∀ first, Utf8.Valid (listToJson first l) := by
  induction l with
  | nil => intro first; exact rfl
  | cons v l ih =>
    rw [List.forall_mem_cons] at h
    intro first
    have hcomma : Utf8.Valid (if first then ([] : Str) else [44]) := by cases first <;> decide
    rw [listToJson, List.append_assoc, hcomma.append, h.1.append]
    exact ih h.2 false

theorem dictToJson_valid {d : List (Str × Var)}
    (h : ∀ p ∈ d, Utf8.Valid p.1 ∧ Utf8.Valid (varToJson p.2)) :
    ∀ first, Utf8.Valid (dictToJson first d) := by
  induction d with
  | nil => intro first; exact rfl
  | cons p d ih =>
    obtain ⟨key, v⟩ := p
    rw [List.forall_mem_cons] at h
    intro first
    have hcomma : Utf8.Valid (if first then ([] : Str) else [44]) := by cases first <;> decide
    have hcolon : Utf8.Valid [58] := by decide
    have hshape : dictToJson first ((key, v) :: d) = (if first then [] else [44]) ++
        (quoted key ++ ([58] ++ (varToJson v ++ dictToJson false d))) := by simp [dictToJson]
    rw [hshape, hcomma.append, valid_quoted_append, hcolon.append, h.1.2.append]
    exact ⟨h.1.1, ih h.2 false⟩

theorem Var.Textual.valid {v : Var} (h : v.Textual) : Utf8.Valid (varToJson v) := by
  have hclose : ∀ {o c : UInt8} {s : Str}, o ≤ 0x7F → c ≤ 0x7F → Utf8.Valid s →
      Utf8.Valid (o :: (s ++ [c])) := fun {o c s} ho hc hs => by
    have ho : Utf8.Valid [o] := Utf8.valid_ascii (by simpa using ho)
    rw [← List.singleton_append, ho.append]
    exact (Utf8.valid_cut hc).mpr ⟨hs, rfl⟩
  induction h with
  | none => decide
  | bool b => cases b <;> decide
  | int i => exact intChars_valid _
  | @string s hs => exact valid_quoted.mpr hs
  | @list l _ ih => exact hclose (by decide) (by decide) (listToJson_valid ih true)
  | @dict d _ hu _ ih =>
    exact hclose (by decide) (by decide) (dictToJson_valid (fun p hp => ⟨hu p hp, ih p hp⟩) true)

end VersatileEngine
