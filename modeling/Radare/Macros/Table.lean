import Radare.Common.Lines
import Radare.Common.Run
import Radare.Macros.Model
/-!
# The macro table as a map

A definition is looked for with its arguments behind its name, and no macro
is called like that; and a removal looks for whatever is in the memory for
the name. So the table is a map of names as long as no definition with
arguments has a name that is there, and what a removal finds in memory is
the name it was given (`macros_map_iff`).
-/

namespace Radare

open Common

/-- A definition in one line, `name args, body)`. -/
structure MacroDef where
  name : List u8
  /-- What is behind the blank, if there is one. -/
  args : Option (List u8)
  body : List u8
  named : name ≠ []
  word : 32 ∉ name
  comma : 44 ∉ name
  commas : ∀ a ∈ args, 44 ∉ a
  /-- It is not `name args)`, which has no body. -/
  bodied : (name ++ (args.map (32 :: ·)).getD []).getLast? ≠ some 41

/-- What is before the comma. -/
def MacroDef.header (d : MacroDef) : List u8 := d.name ++ (d.args.map (32 :: ·)).getD []

/-- The definition as `radare_macro_add` gets it. -/
def MacroDef.text (d : MacroDef) : List u8 := d.header ++ 44 :: d.body

/-- What a name stands for: how many arguments, and the code. -/
abbrev MacroMeaning := ℕ × List u8

/-- How many arguments it has, and the body a line each. -/
def MacroDef.meaning (d : MacroDef) : MacroMeaning :=
  ((d.args.map fun a => (set0word a).1).getD 0, macroBody 0 d.body)

def MacroT.meaning (m : MacroT) : MacroMeaning := (m.nargs, m.code)

/-- The calls: a definition, or a removal with what is in the memory. -/
inductive MacroOp where
  | add (d : MacroDef)
  | rm (text memory : List u8)

/-- The name in a text, which a `)` ends. -/
def macroName (text : List u8) : List u8 := text.takeWhile (· ≠ 41)

/-- The table, and the map of names it is to be. -/
structure MacroTable where
  macros : List MacroT := []
  map : List u8 → Option MacroMeaning := fun _ => none

def macroStep (before : u8) (typed : List u8) (t : MacroTable) : MacroOp → Option MacroTable
  | .add d => some
      { macros := (radareMacroAdd before typed t.macros d.text).1
        map := fun n => if n = d.name then some d.meaning else t.map n }
  | .rm text memory => some
      { macros := (radareMacroRm memory t.macros text).1
        map := fun n => if n = macroName text then none else t.map n }

/-- No two macros have a name, and a name stands for what it is to. -/
structure MacroTable.IsMap (t : MacroTable) : Prop where
  distinct : Distinct MacroT.name t.macros
  find : ∀ n, (findKey MacroT.name n t.macros).map MacroT.meaning = t.map n

/-- A definition with arguments has a new name; a removal finds its name
in memory, or nothing by that name is there, nor by the one it finds. -/
def MacroOp.Safe (t : MacroTable) : MacroOp → Prop
  | .add d => d.args = none ∨ d.name ∉ t.macros.map MacroT.name
  | .rm text memory => macroName memory = macroName text ∨
      macroName memory ∉ t.macros.map MacroT.name ∧ macroName text ∉ t.macros.map MacroT.name

/-! ## A definition -/

variable {d : MacroDef} {macros : List MacroT} {t : MacroTable} {text memory n : List u8}
variable {before : u8} {typed : List u8}

theorem MacroDef.comma_header (d : MacroDef) : 44 ∉ d.header := by
  intro hc
  rcases List.mem_append.mp hc with hc | hc
  · exact d.comma hc
  · cases hargs : d.args with
    | none =>
      rw [hargs] at hc
      cases hc
    | some a =>
      rw [hargs] at hc
      rcases List.mem_cons.mp hc with hc | hc
      · exact absurd hc (by decide)
      · exact d.commas a hargs hc

theorem MacroDef.header_ne_nil (d : MacroDef) : d.header ≠ [] :=
  List.append_ne_nil_of_left_ne_nil d.named _

/-- The macro of a definition. -/
def MacroDef.macro_ (d : MacroDef) : MacroT := macroNew d.header (macroBody 0 d.body)

theorem MacroDef.macro_name (d : MacroDef) : d.macro_.name = d.name := by
  refine takeWhile_ne_append d.word fun c hc => ?_
  cases hargs : d.args with
  | none =>
    rw [hargs] at hc
    cases hc
  | some a =>
    rw [hargs] at hc
    exact (Option.some.inj hc).symm

theorem MacroDef.macro_meaning (d : MacroDef) : d.macro_.meaning = d.meaning := by
  change ((if 32 ∈ d.header then (set0word (d.header.dropWhile (· ≠ 32)).tail).1 else 0),
    macroBody 0 d.body) = ((d.args.map fun a => (set0word a).1).getD 0, macroBody 0 d.body)
  refine Prod.ext ?_ rfl
  unfold MacroDef.header
  rw [List.dropWhile_append_of_pos (forall_decide_ne d.word)]
  cases d.args with
  | none =>
    rw [if_neg]
    · rfl
    · simpa using d.word
  | some a =>
    rw [if_pos]
    · rfl
    · simp

/-- **What a definition does to the table.** -/
theorem radareMacroAdd_text :
    (radareMacroAdd before typed macros d.text).1 =
      if hasKey MacroT.name d.header macros then replaceLast MacroT.name d.header d.macro_ macros
      else macros ++ [d.macro_] := by
  have htake : d.text.takeWhile (· ≠ 44) = d.header := takeWhile_ne_cons d.comma_header
  have hdrop : (d.text.dropWhile (· ≠ 44)).tail = d.body :=
    congrArg List.tail (dropWhile_ne_cons d.comma_header)
  have hmem : 44 ∈ d.text := List.mem_append_right _ List.mem_cons_self
  have hlast : ¬d.header.getLast?.getD before = 41 := by
    intro h
    refine d.bodied ?_
    change d.header.getLast? = some 41
    rw [List.getLast?_eq_some_getLast d.header_ne_nil] at h ⊢
    exact congrArg some h
  unfold radareMacroAdd
  dsimp only
  rw [if_neg (List.ne_nil_of_mem hmem), htake, if_neg hlast, if_pos hmem, hdrop]
  split_ifs <;> rfl

/-- No macro has a blank in its name. -/
theorem name_mem (hargs : d.args ≠ none) : d.header ∉ macros.map MacroT.name := by
  intro hmem
  obtain ⟨m, -, hm⟩ := List.mem_map.mp hmem
  refine m.plain (hm ▸ ?_)
  unfold MacroDef.header
  obtain ⟨a, ha⟩ := Option.ne_none_iff_exists'.mp hargs
  rw [ha]
  exact List.mem_append_right _ List.mem_cons_self

/-- A definition keeps the map exactly if it is safe. -/
theorem isMap_add_iff (h : t.IsMap) :
    (∃ t', macroStep before typed t (.add d) = some t' ∧ t'.IsMap) ↔ MacroOp.Safe t (.add d) := by
  have hstep : (∃ t', macroStep before typed t (.add d) = some t' ∧ t'.IsMap) ↔
      MacroTable.IsMap ⟨(radareMacroAdd before typed t.macros d.text).1,
        fun n => if n = d.name then some d.meaning else t.map n⟩ :=
    some_good_iff
  rw [hstep, radareMacroAdd_text]
  change _ ↔ d.args = none ∨ d.name ∉ t.macros.map MacroT.name
  have hmap : ∀ found : List u8 → Option MacroT,
      (∀ n, found n = if n = d.name then some d.macro_ else findKey MacroT.name n t.macros) →
      ∀ n, (found n).map MacroT.meaning = if n = d.name then some d.meaning else t.map n := by
    intro found hfound n
    rw [hfound]
    by_cases hn : n = d.name
    · rw [if_pos hn, if_pos hn, Option.map_some, d.macro_meaning]
    · rw [if_neg hn, if_neg hn, h.find]
  by_cases hargs : d.args = none
  · -- the name is all there is before the comma
    have hheader : d.header = d.name := by
      unfold MacroDef.header
      rw [hargs]
      exact List.append_nil _
    refine iff_of_true ?_ (Or.inl hargs)
    rw [hheader]
    by_cases hkey : hasKey MacroT.name d.name t.macros = true
    · rw [if_pos hkey]
      refine ⟨?_, hmap _ fun n => find_replaceLast h.distinct d.macro_name (hasKey_iff.mp hkey)⟩
      change ((replaceLast MacroT.name d.name d.macro_ t.macros).map MacroT.name).Nodup
      rw [map_key_replaceLast d.macro_name]
      exact h.distinct
    · have hnew : d.macro_.name ∉ t.macros.map MacroT.name := by
        rw [d.macro_name]
        exact fun hmem => hkey (hasKey_iff.mpr hmem)
      rw [if_neg hkey]
      refine ⟨distinct_concat_iff.mpr ⟨h.distinct, hnew⟩, hmap _ fun n => ?_⟩
      rw [find_concat hnew, d.macro_name]
  · have hkey : ¬hasKey MacroT.name d.header t.macros = true := fun hk =>
      name_mem hargs (hasKey_iff.mp hk)
    rw [if_neg hkey, or_iff_right hargs]
    constructor
    · intro hm
      rw [← d.macro_name]
      exact (distinct_concat_iff.mp hm.distinct).2
    · intro hnew
      rw [← d.macro_name] at hnew
      refine ⟨distinct_concat_iff.mpr ⟨h.distinct, hnew⟩, hmap _ fun n => ?_⟩
      rw [find_concat hnew, d.macro_name]

/-! ## A removal -/

theorem radareMacroRm_eq :
    (radareMacroRm memory macros text).1 =
      if hasKey MacroT.name (macroName memory) macros then
        eraseLast MacroT.name (macroName memory) macros
      else macros := by
  unfold radareMacroRm macroName
  dsimp only
  split_ifs <;> rfl

theorem find_radareMacroRm (h : Distinct MacroT.name macros) :
    findKey MacroT.name n (radareMacroRm memory macros text).1 =
      if n = macroName memory then none else findKey MacroT.name n macros := by
  rw [radareMacroRm_eq]
  split_ifs with hkey hn hn
  · rw [find_eraseLast h, if_pos hn]
  · rw [find_eraseLast h, if_neg hn]
  · rw [hn, findKey_eq_none_iff]
    exact fun hmem => hkey (hasKey_iff.mpr hmem)
  · rfl

theorem distinct_radareMacroRm (h : Distinct MacroT.name macros) :
    Distinct MacroT.name (radareMacroRm memory macros text).1 := by
  rw [radareMacroRm_eq]
  split_ifs
  · exact h.sublist (eraseLast_sublist.map MacroT.name)
  · exact h

/-- And so does a removal. -/
theorem isMap_rm_iff (h : t.IsMap) :
    (∃ t', macroStep before typed t (.rm text memory) = some t' ∧ t'.IsMap) ↔
      MacroOp.Safe t (.rm text memory) := by
  have hstep : (∃ t', macroStep before typed t (.rm text memory) = some t' ∧ t'.IsMap) ↔
      MacroTable.IsMap ⟨(radareMacroRm memory t.macros text).1,
        fun n => if n = macroName text then none else t.map n⟩ :=
    some_good_iff
  rw [hstep]
  change _ ↔ macroName memory = macroName text ∨
    macroName memory ∉ t.macros.map MacroT.name ∧ macroName text ∉ t.macros.map MacroT.name
  have hnone : ∀ {n}, t.map n = none ↔ n ∉ t.macros.map MacroT.name := by
    intro n
    rw [← h.find, Option.map_eq_none_iff, findKey_eq_none_iff]
  constructor
  · intro hmap
    refine or_iff_not_imp_left.mpr fun hne => ?_
    have hfind := hmap.find
    simp only [find_radareMacroRm h.distinct] at hfind
    constructor
    · -- what was found in memory is gone, and was to stay
      have hmem := hfind (macroName memory)
      rw [if_pos rfl, if_neg hne] at hmem
      exact hnone.mp hmem.symm
    · -- the name is to be gone, and has stayed
      have htext := hfind (macroName text)
      rw [if_neg (Ne.symm hne), if_pos rfl, h.find] at htext
      exact hnone.mp htext
  · intro hsafe
    refine ⟨distinct_radareMacroRm h.distinct, fun n => ?_⟩
    dsimp only
    rw [find_radareMacroRm h.distinct]
    rcases hsafe with heq | ⟨hmem, htext⟩
    · rw [heq]
      split_ifs
      · rfl
      · exact h.find n
    · -- neither of the names is there, and nothing is to change
      have hsame : ∀ m ∉ t.macros.map MacroT.name,
          (if n = m then none else t.map n) = t.map n := by
        intro m hm
        by_cases hn : n = m
        · rw [if_pos hn, hn, hnone.mpr hm]
        · rw [if_neg hn]
      have hgone : ((if n = macroName memory then none else findKey MacroT.name n t.macros).map
          MacroT.meaning) = if n = macroName memory then none else t.map n := by
        rw [← h.find]
        split_ifs <;> rfl
      rw [hgone, hsame _ hmem, hsame _ htext]

/-! ## Runs -/

/-- **When the macro table is a map**: in a run of definitions in one line
and removals, from an empty table, each name always stands for what it was
last defined as, and no two macros have it, if and only if each definition
with arguments has a new name, and each removal finds its name in memory
or has nothing to remove. -/
theorem macros_map_iff (before : u8) (typed : List u8) (ops : List MacroOp) :
    RunKeeps (macroStep before typed) MacroTable.IsMap {} ops ↔
      RunSafe (macroStep before typed) MacroOp.Safe {} ops := by
  refine runs_keep_iff ?_ ⟨List.nodup_nil, fun _ => rfl⟩
  intro t op h
  cases op with
  | add d => exact isMap_add_iff h
  | rm text memory => exact isMap_rm_iff h

/-- **A macro with an argument defined twice**: there are two of it. -/
theorem defined_twice :
    let d : MacroDef := ⟨[102], some [120], [97, 41], by decide, by decide, by decide,
      by decide, by decide⟩
    ¬RunKeeps (macroStep 0 []) MacroTable.IsMap {} [.add d, .add d] := by
  intro d h
  obtain ⟨t, ht, hmap⟩ := h _ List.prefix_rfl
  obtain rfl := Option.some.inj ht
  have hnodup : ((radareMacroAdd 0 [] (radareMacroAdd 0 [] [] d.text).1 d.text).1.map
      MacroT.name).Nodup := hmap.distinct
  exact absurd hnodup (by decide)

end Radare
