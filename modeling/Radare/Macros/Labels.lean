import Radare.Common.History
import Radare.Macros.Frame
/-!
# Labels of a macro

The lines of a macro are gone through one behind the other, and the labels among them
kept in a table that the jumps look into. A label is put there if the table is empty, or
if one of it is found by the text behind the first character of this one, which was
meant to be the other way round. A jump is taken if the line has an end and it leads
somewhere else.

So the table holds the labels that were passed just where the names fit
(`macro_labels_iff`).
-/

namespace Radare

open Common

variable {W : Type} {env : MacroEnv W} {call : List u8 → MacroWorld W → Option (ℤ × MacroWorld W)}
  {args : List u8} {t : MacroTurn}

/-! ## The loop, a turn at a time -/

/-- The loop of `radare_macro_call` in front of a turn. -/
structure LoopState (W : Type) where
  labels : List MacroLabel
  ptr : ℕ × ℕ
  world : MacroWorld W
  going : world.macroBreak = false

namespace LoopState

/-- `end`. -/
def ended (st : LoopState W) : Option ℕ := st.world.newline st.ptr

/-- What the turn finds. -/
def turn (env : MacroEnv W) (st : LoopState W) : MacroTurn :=
  (st.world.poke st.ptr.1 st.ended 0).turn env st.labels st.ptr st.ended.isSome

end LoopState

/-- The loop goes on, unless `macro_break` is set. -/
def loopNext (labels : List MacroLabel) (ptr : ℕ × ℕ) (s : MacroWorld W) :
    LoopState W ⊕ LoopEnd × MacroWorld W :=
  if h : s.macroBreak = true then .inr (.broken, s)
  else .inl ⟨labels, ptr, s, Bool.eq_false_iff.mpr h⟩

/-- A turn of the loop. -/
def loopStep (env : MacroEnv W) (call : List u8 → MacroWorld W → Option (ℤ × MacroWorld W))
    (args : List u8) (st : LoopState W) : Option (LoopState W ⊕ LoopEnd × MacroWorld W) := do
  let s := st.world.within env st.labels st.ptr st.ended
  let (ptr2, labels) ← macroLabelProcess env (st.turn env)
  match ptr2 with
  | none => some (.inr (.oops labels, s))
  | some ptr2 =>
    if st.ptr ≠ ptr2 ∧ st.ended.isSome then
      some (loopNext labels ptr2 (s.poke st.ptr.1 st.ended 10))
    else
      let line := cstr (st.turn env).mem
      let cmd := if line = [] then pure () else radareCmdArgs env line args
      let (_, s) ← (cmd.lift (fun s : MacroWorld W => (s.world, s.macroBreak))
        fun p s => { s with world := p.1, macroBreak := p.2 }).run call s
      match st.ended with
      | none => some (.inr (.returned, s))
      | some e => some (loopNext labels (st.ptr.1, e + 1) (s.poke st.ptr.1 (some e) 10))

/-- The loop, from where a turn leaves it. -/
def loopOn (env : MacroEnv W) (call : List u8 → MacroWorld W → Option (ℤ × MacroWorld W))
    (args : List u8) (fuel : ℕ) :
    LoopState W ⊕ LoopEnd × MacroWorld W → Option (LoopEnd × MacroWorld W)
  | .inl st => macroLoop env call args fuel st.labels st.ptr st.ended st.world
  | .inr r => some r

theorem loopOn_next {labels : List MacroLabel} {ptr : ℕ × ℕ} {s : MacroWorld W} (fuel : ℕ) :
    loopOn env call args fuel (loopNext labels ptr s) =
      if s.macroBreak then some (.broken, s)
      else macroLoop env call args fuel labels ptr (s.newline ptr) s := by
  unfold loopNext
  split_ifs <;> rfl

/-- **The loop in its turns.** -/
theorem macroLoop_succ (fuel : ℕ) (st : LoopState W) :
    macroLoop env call args (fuel + 1) st.labels st.ptr st.ended st.world =
      (loopStep env call args st).bind (loopOn env call args fuel) := by
  unfold macroLoop loopStep LoopState.turn MacroWorld.within
  dsimp only
  simp only [Option.bind_eq_bind, Option.bind_assoc]
  refine Option.bind_congr fun p _ => ?_
  obtain ⟨ptr2, labels⟩ := p
  cases ptr2 with
  | none => rfl
  | some ptr2 =>
    dsimp only
    by_cases hjump : st.ptr ≠ ptr2 ∧ st.ended.isSome = true
    · rw [if_pos hjump, if_pos hjump, Option.bind_some]
      exact (loopOn_next fuel).symm
    · rw [if_neg hjump, if_neg hjump, Option.bind_assoc]
      refine Option.bind_congr fun p _ => ?_
      cases st.ended with
      | none => rfl
      | some e => exact (loopOn_next fuel).symm

/-! ## A line -/

namespace MacroTurn

/-- The blanks in front of the line. -/
def blanks (t : MacroTurn) : ℕ := ((cstr t.mem).takeWhile (· = 32)).length

/-- The line without them. -/
def text (t : MacroTurn) : List u8 := (cstr t.mem).drop t.blanks

/-- The last character, or the one in front of an empty text. -/
def last (t : MacroTurn) : u8 := t.text.getLast?.getD (if t.blanks > 0 then 32 else t.prev)

/-- The line after. -/
def behind (t : MacroTurn) : ℕ × ℕ := (t.ptr.1, t.ptr.2 + t.blanks + t.text.length + 1)

/-- What is found behind the first character. -/
def next (t : MacroTurn) : List u8 := cstr (t.mem.drop (t.blanks + 1))

/-- A conditional goto. -/
def Conditional (t : MacroTurn) : Prop :=
  t.text.getD 0 0 = 63 ∧ (t.text.getD 1 0 = 33 ∨ t.text.getD 1 0 = 63) ∧ t.text.getD 2 0 ≠ 63

/-- A line that ends in a colon and is no goto. -/
def Plain (t : MacroTurn) : Prop := t.last = 58 ∧ t.text.getD 0 0 ≠ 46 ∧ ¬ t.Conditional

instance (t : MacroTurn) : Decidable t.Conditional :=
  inferInstanceAs (Decidable (_ ∧ (_ ∨ _) ∧ _))

instance (t : MacroTurn) : Decidable t.Plain := inferInstanceAs (Decidable (_ ∧ _ ∧ _))

/-- The label that a line is, with the line after. -/
def label? (t : MacroTurn) : Option MacroLabel :=
  if t.Plain ∧ t.text ≠ [] then some ⟨t.text, t.behind⟩ else none

/-- What is put into the table, if the line is taken for a label. -/
def stored (env : MacroEnv W) (t : MacroTurn) : MacroLabel :=
  ⟨t.text.take 64 ++ (if t.text.length < 64 then [] else env.stack t.labels.length), t.behind⟩

theorem last_of_ne_nil (htext : t.text ≠ []) : t.last = t.text.getLast htext := by
  rw [last, List.getLast?_eq_some_getLast htext]
  rfl

theorem label?_eq_some {l : MacroLabel} :
    t.label? = some l ↔ (t.Plain ∧ t.text ≠ []) ∧ l = ⟨t.text, t.behind⟩ := by
  rw [label?, Option.ite_none_right_eq_some, Option.some.injEq, eq_comm (b := l)]

/-- Behind the first character of a text is the rest of it. -/
theorem next_of_ne_nil (htext : t.text ≠ []) : t.next = t.text.tail := by
  have hlt : t.blanks < (cstr t.mem).length := by
    by_contra hle
    exact htext (List.drop_eq_nil_of_le (Nat.le_of_not_lt hle))
  rw [text, List.tail_drop]
  exact takeWhile_drop hlt

end MacroTurn

/-! ## What a line does -/

/-- A line that may be a label is added if the table is empty or has what is behind its
first character. -/
theorem macroLabelProcess_plain (hplain : t.Plain) :
    macroLabelProcess env t =
      if t.labels = [] ∨ (findLabel t.labels t.next).isSome then
        if t.labels.length < maxLabels then
          some (some t.behind, t.labels ++ [t.stored env])
        else none
      else some (some t.behind, t.labels) := by
  obtain ⟨hlast, hdot, hcond⟩ := hplain
  have hnot : ¬(t.text.getD 0 0 = 63 ∧ t.text.getD 1 0 = 33 ∧ t.text.getD 2 0 ≠ 63) :=
    fun h => hcond ⟨h.1, .inl h.2.1, h.2.2⟩
  have heq : ¬(t.text.getD 0 0 = 63 ∧ t.text.getD 1 0 = 63 ∧ t.text.getD 2 0 ≠ 63) :=
    fun h => hcond ⟨h.1, .inr h.2.1, h.2.2⟩
  exact ((if_pos hlast).trans (if_neg hdot)).trans ((if_neg hnot).trans (if_neg heq))

/-- No other line changes the table. -/
theorem macroLabelProcess_kept (hplain : ¬ t.Plain) :
    ∃ ptr2, macroLabelProcess env t = some (ptr2, t.labels) := by
  by_cases hlast : t.last = 58
  · have hcase : t.text.getD 0 0 = 46 ∨ t.Conditional := by
      by_contra h
      exact hplain ⟨hlast, not_or.mp h⟩
    unfold macroLabelProcess
    dsimp only
    refine (if_pos hlast).symm ▸ ?_
    split_ifs with hdot hnot hcmp heq hcmp hadd hroom
    · exact ⟨_, rfl⟩
    · exact ⟨_, rfl⟩
    · exact ⟨_, rfl⟩
    · exact ⟨_, rfl⟩
    · exact ⟨_, rfl⟩
    all_goals
      obtain h | ⟨hmark, h | h, hthird⟩ := hcase
      · exact absurd h hdot
      · exact absurd ⟨hmark, h, hthird⟩ hnot
      · exact absurd ⟨hmark, h, hthird⟩ heq
  · exact ⟨_, if_neg hlast⟩

/-- A goto looks its label up. -/
theorem macroLabelProcess_goto {name : List u8} (htext : t.text = 46 :: name)
    (hlast : t.last = 58) :
    macroLabelProcess env t = some (findLabel t.labels name, t.labels) := by
  have hdot : t.text.getD 0 0 = 46 := by rw [htext]; rfl
  have htail : t.text.tail = name := by rw [htext]; rfl
  rw [← htail]
  exact (if_pos hlast).trans (if_pos hdot)

/-! ## The table -/

/-- The names of labels. -/
def labelNames (labels : List MacroLabel) : List (List u8) := labels.map (·.name)

/-- How many labels there are, by their names. -/
def labelCount (passed : List MacroLabel) : ℕ := (labelNames passed).dedup.length

/-- The table has the labels that were passed, each once. -/
structure Tabled (labels passed : List MacroLabel) : Prop where
  room : labels.length ≤ maxLabels
  once : (labelNames labels).Nodup
  same : ∀ l, l ∈ labels ↔ l ∈ passed

/-- A name stands for one label. -/
def NamedOnce (passed : List MacroLabel) : Prop :=
  ∀ l ∈ passed, ∀ l' ∈ passed, l.name = l'.name → l = l'

variable {labels passed : List MacroLabel} {l : MacroLabel} {name : List u8}

theorem namedOnce_of_nodup (h : (labelNames passed).Nodup) : NamedOnce passed :=
  fun _ hl _ hl' hname => List.inj_on_of_nodup_map h hl hl' hname

theorem tabled_nil : Tabled [] [] := ⟨Nat.zero_le _, List.nodup_nil, fun _ => Iff.rfl⟩

theorem findLabel_isSome : (findLabel labels name).isSome ↔ name ∈ labelNames labels := by
  rw [findLabel, Option.isSome_map, List.find?_isSome, labelNames, List.mem_map]
  simp only [decide_eq_true_eq]

/-- A label is found by its name. -/
theorem findLabel_of_mem (hlabels : (labelNames labels).Nodup) (hl : l ∈ labels) :
    findLabel labels l.name = some l.ptr := by
  have hsome : (labels.find? (·.name = l.name)).isSome :=
    List.find?_isSome.mpr ⟨l, hl, decide_eq_true rfl⟩
  obtain ⟨l', hl'⟩ := Option.isSome_iff_exists.mp hsome
  have hname : l'.name = l.name := by
    simpa only [decide_eq_true_eq] using List.find?_some hl'
  have heq : l' = l :=
    namedOnce_of_nodup hlabels l' (List.mem_of_find?_eq_some hl') l hl hname
  rw [findLabel, hl', heq, Option.map_some]

namespace Tabled

theorem names (h : Tabled labels passed) : name ∈ labelNames labels ↔ name ∈ labelNames passed := by
  simp only [labelNames, List.mem_map, h.same]

theorem length_eq (h : Tabled labels passed) : labels.length = labelCount passed := by
  have hperm : (labelNames labels).Perm (labelNames passed).dedup :=
    (List.perm_ext_iff_of_nodup h.once (List.nodup_dedup _)).mpr fun name =>
      h.names.trans List.mem_dedup.symm
  exact (List.length_map _).symm.trans hperm.length_eq

theorem eq_nil_iff (h : Tabled labels passed) : labels = [] ↔ passed = [] := by
  simp only [List.eq_nil_iff_forall_not_mem, h.same]

/-- A label that is new is put behind the others. -/
theorem append (h : Tabled labels passed) (hroom : labels.length < maxLabels)
    (hnew : l.name ∉ labelNames passed) : Tabled (labels ++ [l]) (passed ++ [l]) where
  room := by rw [List.length_append]; exact hroom
  once := by
    rw [labelNames, List.map_append]
    refine List.nodup_append_comm.mp (List.nodup_cons.mpr ⟨?_, h.once⟩)
    exact fun hmem => hnew (h.names.mp hmem)
  same l' := by rw [List.mem_append, List.mem_append, h.same]

theorem insert (h : Tabled labels passed) (hold : l ∈ passed) : Tabled labels (passed ++ [l]) where
  room := h.room
  once := h.once
  same l' := by
    rw [h.same, List.mem_append, List.mem_singleton, or_iff_left_of_imp]
    rintro rfl
    exact hold

end Tabled

/-- A label counts if its name is new. -/
theorem labelCount_append :
    labelCount (passed ++ [l]) =
      labelCount passed + if l.name ∈ labelNames passed then 0 else 1 := by
  have hperm : (labelNames (passed ++ [l])).dedup.Perm (l.name :: labelNames passed).dedup := by
    rw [labelNames, List.map_append]
    exact List.perm_append_comm.dedup
  rw [labelCount, hperm.length_eq, List.dedup_cons, labelCount]
  split_ifs <;> rfl

/-! ## A line and the table -/

namespace MacroTurn

/-- The line is a label that was not passed. -/
def New (t : MacroTurn) (passed : List MacroLabel) : Prop :=
  t.text ≠ [] ∧ t.text ∉ labelNames passed

/-- A label is the first, or has a label behind its first character, exactly if it is
new, and an empty line is neither; there is room for a new one, and for its name. -/
structure Fits (env : MacroEnv W) (t : MacroTurn) (passed : List MacroLabel) : Prop where
  taken : t.text ≠ [] →
    (passed = [] ∨ t.text.tail ∈ labelNames passed ↔ t.text ∉ labelNames passed)
  empty : t.text = [] → ¬(passed = [] ∨ t.next ∈ labelNames passed)
  room : t.New passed → labelCount passed < maxLabels
  named : t.New passed → t.text.length < 64 ∨ env.stack (labelCount passed) = t.text.drop 64

/-- The table behind the line has the labels passed, and this one if it is one. -/
def Kept (env : MacroEnv W) (t : MacroTurn) (passed : List MacroLabel) : Prop :=
  ∃ ptr2 labels, macroLabelProcess env t = some (ptr2, labels) ∧
    Tabled labels (passed ++ t.label?.toList)

instance : Decidable (t.New passed) := inferInstanceAs (Decidable (_ ∧ _))

/-- A line that is taken for a label is one that is new. -/
theorem fits_iff : t.Fits env passed ↔
    (passed = [] ∨ t.next ∈ labelNames passed ↔ t.New passed) ∧
      (t.New passed → labelCount passed < maxLabels) ∧
      (t.New passed → t.text.length < 64 ∨ env.stack (labelCount passed) = t.text.drop 64) := by
  have htaken : (passed = [] ∨ t.next ∈ labelNames passed ↔ t.New passed) ↔
      (t.text ≠ [] →
        (passed = [] ∨ t.text.tail ∈ labelNames passed ↔ t.text ∉ labelNames passed)) ∧
      (t.text = [] → ¬(passed = [] ∨ t.next ∈ labelNames passed)) := by
    by_cases htext : t.text = []
    · rw [iff_false_right fun h : t.New passed => h.1 htext]
      exact ⟨fun h => ⟨fun hne => absurd htext hne, fun _ => h⟩, fun h => h.2 htext⟩
    · rw [next_of_ne_nil htext, New, and_iff_right htext]
      exact ⟨fun h => ⟨fun _ => h, fun hnil => absurd hnil htext⟩, fun h => h.1 htext⟩
  rw [htaken]
  exact ⟨fun h => ⟨⟨h.taken, h.empty⟩, h.room, h.named⟩, fun h => ⟨h.1.1, h.1.2, h.2.1, h.2.2⟩⟩

/-- A line that is no label leaves the table as it is. -/
theorem kept_of_not_plain (htab : Tabled t.labels passed) (hplain : ¬ t.Plain) :
    t.Kept env passed := by
  obtain ⟨ptr2, hptr2⟩ : ∃ ptr2, macroLabelProcess env t = some (ptr2, t.labels) :=
    macroLabelProcess_kept hplain
  have hnone : t.label? = none := if_neg fun h => hplain h.1
  refine ⟨ptr2, t.labels, hptr2, ?_⟩
  rw [hnone, Option.toList_none, List.append_nil]
  exact htab

/-- A label that is new is one more. -/
theorem labelCount_label (hplain : t.Plain) :
    labelCount (passed ++ t.label?.toList) = labelCount passed + if t.New passed then 1 else 0 := by
  by_cases htext : t.text = []
  · have hnone : t.label? = none := if_neg fun h => h.2 htext
    rw [hnone, if_neg fun h => h.1 htext, Option.toList_none, List.append_nil, Nat.add_zero]
  · have hsome : t.label? = some ⟨t.text, t.behind⟩ := if_pos ⟨hplain, htext⟩
    rw [hsome, Option.toList_some, labelCount_append]
    by_cases hold : t.text ∈ labelNames passed
    · rw [if_pos hold, if_neg fun h => h.2 hold]
    · rw [if_neg hold, if_pos ⟨htext, hold⟩]

theorem kept_taken (htab : Tabled t.labels passed) (hplain : t.Plain)
    (htaken : passed = [] ∨ t.next ∈ labelNames passed) :
    t.Kept env passed ↔ labelCount passed < maxLabels ∧
      Tabled (t.labels ++ [t.stored env]) (passed ++ t.label?.toList) := by
  rw [← htab.eq_nil_iff, ← htab.names, ← findLabel_isSome] at htaken
  rw [Kept, macroLabelProcess_plain hplain, if_pos htaken, ← htab.length_eq]
  by_cases hroom : t.labels.length < maxLabels
  · rw [if_pos hroom, and_iff_right hroom]
    constructor
    · rintro ⟨ptr2, labels, heq, h⟩
      obtain ⟨-, rfl⟩ := Prod.mk.inj (Option.some.inj heq)
      exact h
    · exact fun h => ⟨_, _, rfl, h⟩
  · rw [if_neg hroom]
    refine iff_of_false (fun h => ?_) fun h => hroom h.1
    obtain ⟨ptr2, labels, heq, -⟩ := h
    exact Option.some_ne_none _ heq.symm

theorem kept_not_taken (htab : Tabled t.labels passed) (hplain : t.Plain)
    (htaken : ¬(passed = [] ∨ t.next ∈ labelNames passed)) :
    t.Kept env passed ↔ Tabled t.labels (passed ++ t.label?.toList) := by
  rw [← htab.eq_nil_iff, ← htab.names, ← findLabel_isSome] at htaken
  rw [Kept, macroLabelProcess_plain hplain, if_neg htaken]
  constructor
  · rintro ⟨ptr2, labels, heq, h⟩
    obtain ⟨-, rfl⟩ := Prod.mk.inj (Option.some.inj heq)
    exact h
  · exact fun h => ⟨_, _, rfl, h⟩

theorem stored_eq_iff : t.stored env = ⟨t.text, t.behind⟩ ↔
    t.text.length < 64 ∨ env.stack t.labels.length = t.text.drop 64 := by
  rw [stored, MacroLabel.mk.injEq, and_iff_left rfl]
  by_cases hlt : t.text.length < 64
  · rw [if_pos hlt, List.append_nil, List.take_of_length_le hlt.le]
    exact iff_of_true rfl (.inl hlt)
  · rw [if_neg hlt, or_iff_right hlt]
    nth_rewrite 2 [← List.take_append_drop 64 t.text]
    exact List.append_right_inj _

/-- A label that is new and stored is in the table as it is, if there is room for its
name. -/
theorem tabled_stored_iff (htab : Tabled t.labels passed) (hnew : t.New passed)
    (hroom : labelCount passed < maxLabels) :
    Tabled (t.labels ++ [t.stored env]) (passed ++ [⟨t.text, t.behind⟩]) ↔
      t.text.length < 64 ∨ env.stack (labelCount passed) = t.text.drop 64 := by
  rw [← htab.length_eq, ← stored_eq_iff]
  constructor
  · intro h
    have hmem := (h.same ⟨t.text, t.behind⟩).mpr (List.mem_append_right _ List.mem_cons_self)
    obtain hold | hlast := List.mem_append.mp hmem
    · have hname := List.mem_map_of_mem (f := MacroLabel.name) ((htab.same _).mp hold)
      exact absurd hname hnew.2
    · exact (List.mem_singleton.mp hlast).symm
  · intro hstored
    rw [hstored]
    exact htab.append (by rwa [htab.length_eq]) hnew.2

/-- A label that is not new was passed. -/
theorem tabled_of_not_new (htab : Tabled t.labels passed) (hplain : t.Plain)
    (hnew : ¬ t.New passed) (honce : NamedOnce (passed ++ t.label?.toList)) :
    Tabled t.labels (passed ++ t.label?.toList) := by
  by_cases htext : t.text = []
  · have hnone : t.label? = none := if_neg fun h => h.2 htext
    rw [hnone, Option.toList_none, List.append_nil]
    exact htab
  · have hsome : t.label? = some ⟨t.text, t.behind⟩ := if_pos ⟨hplain, htext⟩
    rw [hsome, Option.toList_some] at honce ⊢
    have hold : t.text ∈ labelNames passed := not_not.mp fun h => hnew ⟨htext, h⟩
    obtain ⟨l, hl, hname⟩ := List.mem_map.mp hold
    have heq := honce l (List.mem_append_left _ hl) _
      (List.mem_append_right _ List.mem_cons_self) hname
    exact htab.insert (heq ▸ hl)

/-- **The table has the labels passed behind a line exactly if the line fits.** -/
theorem kept_iff (htab : Tabled t.labels passed) (hplain : t.Plain)
    (honce : NamedOnce (passed ++ t.label?.toList)) :
    t.Kept env passed ↔ t.Fits env passed := by
  have hcount : labelCount (passed ++ t.label?.toList) =
      labelCount passed + if t.New passed then 1 else 0 := labelCount_label hplain
  rw [fits_iff]
  by_cases htaken : passed = [] ∨ t.next ∈ labelNames passed
  · rw [kept_taken htab hplain htaken]
    by_cases hnew : t.New passed
    · have hsome : t.label? = some ⟨t.text, t.behind⟩ := if_pos ⟨hplain, hnew.1⟩
      rw [hsome, Option.toList_some, and_iff_right (iff_of_true htaken hnew),
        forall_prop_of_true hnew, forall_prop_of_true hnew]
      exact and_congr_right fun hroom => tabled_stored_iff htab hnew hroom
    · -- one label more in the table, but not among those passed
      refine iff_of_false (fun h => ?_) fun h => hnew (h.1.mp htaken)
      have hlength := h.2.length_eq
      rw [List.length_append, htab.length_eq, hcount, if_neg hnew, List.length_singleton] at hlength
      omega
  · rw [kept_not_taken htab hplain htaken]
    by_cases hnew : t.New passed
    · refine iff_of_false (fun h => ?_) fun h => htaken (h.1.mpr hnew)
      have hlength := h.length_eq
      rw [htab.length_eq, hcount, if_pos hnew] at hlength
      omega
    · exact iff_of_true (tabled_of_not_new htab hplain hnew honce)
        ⟨iff_of_false htaken hnew, fun h => absurd h hnew, fun h => absurd h hnew⟩

end MacroTurn

/-! ## Runs -/

/-- The labels that a run has passed. -/
def passedLabels (env : MacroEnv W) (sts : List (LoopState W)) : List MacroLabel :=
  sts.filterMap fun st => (st.turn env).label?

variable {st st' : LoopState W}

/-- A jump to a label that was passed goes on behind it. -/
def LoopState.Jumps (env : MacroEnv W)
    (call : List u8 → MacroWorld W → Option (ℤ × MacroWorld W)) (args : List u8)
    (st : LoopState W) (passed : List MacroLabel) : Prop :=
  ∀ l ∈ passed, (st.turn env).text = 46 :: l.name →
    ∃ st', loopStep env call args st = some (.inl st') ∧ st'.ptr = l.ptr

/-- The line has an end, and the jump leads to another one. -/
def LoopState.Away (env : MacroEnv W) (st : LoopState W) (passed : List MacroLabel) : Prop :=
  ∀ l ∈ passed, (st.turn env).text = 46 :: l.name → st.ptr ≠ l.ptr ∧ st.ended.isSome

instance : Decidable (st.Away env passed) := inferInstanceAs (Decidable (∀ _ ∈ _, _ → _))

theorem le_of_newline {s : MacroWorld W} {ptr : ℕ × ℕ} {e : ℕ} (h : s.newline ptr = some e) :
    ptr.2 ≤ e := by
  obtain ⟨k, -, rfl⟩ := Option.map_eq_some_iff.mp h
  exact Nat.le_add_right ptr.2 k

theorem inl_of_loopNext {labels : List MacroLabel} {ptr : ℕ × ℕ} {s : MacroWorld W}
    (h : loopNext labels ptr s = .inl st') : st'.ptr = ptr ∧ st'.labels = labels := by
  unfold loopNext at h
  split_ifs at h
  obtain rfl := Sum.inl.inj h
  exact ⟨rfl, rfl⟩

/-- What a turn does that goes on. -/
theorem loopStep_inl (h : loopStep env call args st = some (.inl st')) :
    ∃ ptr2, macroLabelProcess env (st.turn env) = some (some ptr2, st'.labels) ∧
      if st.ptr ≠ ptr2 ∧ st.ended.isSome then st'.ptr = ptr2
      else ∃ e, st.ended = some e ∧ st'.ptr = (st.ptr.1, e + 1) := by
  obtain ⟨⟨ptr2, labels⟩, hptr2, hnext⟩ := Option.bind_eq_some_iff.mp h
  cases ptr2 with
  | none => exact absurd (Option.some.inj hnext) Sum.inr_ne_inl
  | some ptr2 =>
    dsimp only at hnext
    by_cases hjump : st.ptr ≠ ptr2 ∧ st.ended.isSome = true
    · rw [if_pos hjump] at hnext
      obtain ⟨hptr, hlabels⟩ := inl_of_loopNext (Option.some.inj hnext)
      rw [hlabels]
      exact ⟨ptr2, hptr2, (if_pos hjump).mpr hptr⟩
    · rw [if_neg hjump] at hnext
      obtain ⟨⟨_, s⟩, -, hlast⟩ := Option.bind_eq_some_iff.mp hnext
      cases hended : st.ended with
      | none =>
        rw [hended] at hlast
        exact absurd (Option.some.inj hlast) Sum.inr_ne_inl
      | some e =>
        rw [hended] at hlast
        obtain ⟨hptr, hlabels⟩ := inl_of_loopNext (Option.some.inj hlast)
        rw [hended] at hjump
        rw [hlabels]
        exact ⟨ptr2, hptr2, (if_neg hjump).mpr ⟨e, rfl, hptr⟩⟩

theorem macroBreak_poke {s : MacroWorld W} {i : ℕ} {o : Option ℕ} {c : u8} :
    (s.poke i o c).macroBreak = s.macroBreak := by
  cases o <;> rfl

/-- A goto that leads to another line. -/
theorem loopStep_goto {labels : List MacroLabel} {ptr2 : ℕ × ℕ}
    (hptr2 : macroLabelProcess env (st.turn env) = some (some ptr2, labels))
    (hjump : st.ptr ≠ ptr2 ∧ st.ended.isSome) :
    ∃ st', loopStep env call args st = some (.inl st') ∧ st'.ptr = ptr2 := by
  have hgoing : ((st.world.within env st.labels st.ptr st.ended).poke st.ptr.1 st.ended
      10).macroBreak = false := by
    rw [macroBreak_poke]
    exact (macroBreak_poke (s := st.world)).trans st.going
  have hstep : loopStep env call args st =
      some (loopNext labels ptr2 ((st.world.within env st.labels st.ptr st.ended).poke st.ptr.1
        st.ended 10)) := by
    rw [loopStep, hptr2]
    exact if_pos hjump
  rw [hstep, loopNext, dif_neg (by rw [hgoing]; exact Bool.false_ne_true)]
  exact ⟨_, rfl, rfl⟩

/-- A label ends in a colon. -/
theorem getLast?_name (hl : l ∈ t.label?) : l.name.getLast? = some 58 := by
  obtain ⟨⟨hplain, htext⟩, rfl⟩ := MacroTurn.label?_eq_some.mp hl
  have hlast := hplain.1
  rw [MacroTurn.last_of_ne_nil htext] at hlast
  rw [List.getLast?_eq_some_getLast htext, hlast]

/-- **A goto to a label that was passed goes on behind it exactly if it leads away.** -/
theorem jumps_iff (htab : Tabled st.labels passed)
    (hcolon : ∀ l ∈ passed, l.name.getLast? = some 58) :
    st.Jumps env call args passed ↔ st.Away env passed := by
  refine forall₂_congr fun l hl => imp_congr_right fun htext => ?_
  have hlast : (st.turn env).last = 58 := by
    have hcons : (st.turn env).text.getLast? = some 58 := by
      rw [htext, List.getLast?_cons, hcolon l hl]
      rfl
    rw [MacroTurn.last, hcons, Option.getD_some]
  have hprocess : macroLabelProcess env (st.turn env) = some (some l.ptr, st.labels) := by
    rw [macroLabelProcess_goto htext hlast]
    exact congrArg (fun ptr2 => some (ptr2, st.labels))
      (findLabel_of_mem htab.once ((htab.same l).mpr hl))
  refine ⟨fun h => ?_, loopStep_goto hprocess⟩
  obtain ⟨st', hstep, hptr⟩ := h
  obtain ⟨ptr2, hptr2, hcase⟩ := loopStep_inl hstep
  obtain ⟨rfl, -⟩ : l.ptr = ptr2 ∧ _ := by
    rw [hprocess, Option.some.injEq, Prod.mk.injEq, Option.some.injEq] at hptr2
    exact hptr2
  by_contra haway
  rw [if_neg haway] at hcase
  obtain ⟨e, hended, hptr'⟩ := hcase
  -- behind the end of the line it stands on, and so no longer where it was
  have hsame : st.ptr = l.ptr := by
    by_contra hne
    exact haway ⟨hne, by rw [hended]; rfl⟩
  have hsnd : st.ptr.2 = e + 1 := by rw [hsame, ← hptr, hptr']
  have hle := le_of_newline hended
  omega

/-- A loop that ends has gone through such turns. -/
theorem macroLoop_run {fuel : ℕ} {r : LoopEnd × MacroWorld W}
    (h : macroLoop env call args fuel st.labels st.ptr st.ended st.world = some r) :
    ∃ sts last, (st :: sts).IsChain (fun st st' => loopStep env call args st = some (.inl st')) ∧
      last ∈ (st :: sts).getLast? ∧ loopStep env call args last = some (.inr r) := by
  induction fuel generalizing st with
  | zero => exact absurd h (Option.some_ne_none r).symm
  | succ fuel ih =>
    rw [macroLoop_succ] at h
    obtain ⟨next, hnext, hon⟩ := Option.bind_eq_some_iff.mp h
    cases next with
    | inl st' =>
      obtain ⟨sts, last, hchain, hlast, hstop⟩ := ih hon
      refine ⟨st' :: sts, last, List.isChain_cons_cons.mpr ⟨hnext, hchain⟩, ?_, hstop⟩
      rw [List.getLast?_cons_cons]
      exact hlast
    | inr stop =>
      obtain rfl := Option.some.inj hon
      exact ⟨[], st, List.isChain_singleton st, rfl, hnext⟩

/-- The table has the labels passed, also behind the line, and a goto to one of them is
taken. -/
structure LoopState.Right (env : MacroEnv W)
    (call : List u8 → MacroWorld W → Option (ℤ × MacroWorld W)) (args : List u8)
    (front : List (LoopState W)) (st : LoopState W) : Prop where
  tabled : Tabled st.labels (passedLabels env front)
  kept : (st.turn env).Kept env (passedLabels env front)
  jumps : st.Jumps env call args (passedLabels env front)

/-- A line that may be a label fits, and a goto leads away. -/
structure LoopState.Safe (env : MacroEnv W) (front : List (LoopState W)) (st : LoopState W) :
    Prop where
  fits : (st.turn env).Plain → (st.turn env).Fits env (passedLabels env front)
  away : st.Away env (passedLabels env front)

/-- Turns of a loop, from the first one on. -/
structure LoopRun (env : MacroEnv W) (call : List u8 → MacroWorld W → Option (ℤ × MacroWorld W))
    (args : List u8) (sts : List (LoopState W)) : Prop where
  start : ∀ st ∈ sts.head?, st.labels = []
  chain : sts.IsChain fun st st' => loopStep env call args st = some (.inl st')

variable {front sts : List (LoopState W)}

theorem passedLabels_append :
    passedLabels env (front ++ [st]) = passedLabels env front ++ (st.turn env).label?.toList := by
  rw [passedLabels, List.filterMap_append, List.filterMap_cons, List.filterMap_nil, passedLabels]
  cases (st.turn env).label? <;> rfl

theorem getLast?_of_passed : ∀ l ∈ passedLabels env front, l.name.getLast? = some 58 := by
  intro l hl
  obtain ⟨st, -, hst⟩ := List.mem_filterMap.mp hl
  exact getLast?_name hst

/-- What a state in which the table is right needs to be right. -/
theorem right_iff (htab : Tabled st.labels (passedLabels env front))
    (honce : NamedOnce (passedLabels env (front ++ [st]))) :
    st.Right env call args front ↔ st.Safe env front := by
  rw [passedLabels_append] at honce
  have hjumps : st.Jumps env call args (passedLabels env front) ↔
      st.Away env (passedLabels env front) := jumps_iff htab getLast?_of_passed
  constructor
  · intro h
    exact ⟨fun hplain => (MacroTurn.kept_iff htab hplain honce).mp h.kept, hjumps.mp h.jumps⟩
  · intro h
    refine ⟨htab, ?_, hjumps.mpr h.away⟩
    by_cases hplain : (st.turn env).Plain
    · exact (MacroTurn.kept_iff htab hplain honce).mpr (h.fits hplain)
    · exact MacroTurn.kept_of_not_plain htab hplain

/-- A turn leaves the table with the labels passed, if it is right. -/
theorem tabled_of_right (h : st.Right env call args front)
    (hstep : loopStep env call args st = some (.inl st')) :
    Tabled st'.labels (passedLabels env (front ++ [st])) := by
  obtain ⟨ptr2, labels, hprocess, htab⟩ := h.kept
  obtain ⟨ptr2', hprocess', -⟩ := loopStep_inl hstep
  rw [hprocess, Option.some.injEq, Prod.mk.injEq] at hprocess'
  rw [passedLabels_append, ← hprocess'.2]
  exact htab

/-- **The labels of a macro.** -/
theorem macro_labels_iff (hrun : LoopRun env call args sts)
    (honce : NamedOnce (passedLabels env sts)) :
    Always (LoopState.Right env call args) sts ↔ Always (LoopState.Safe env) sts := by
  refine always_iff (fun front st => Tabled st.labels (passedLabels env front)) hrun.chain
    (fun st hst => ?_) (fun front st rest hsplit htab => right_iff htab ?_)
    (fun front st h => h.tabled) fun front st st' h hstep => tabled_of_right h hstep
  · rw [hrun.start st hst]
    exact tabled_nil
  · have hsub : ∀ l ∈ passedLabels env (front ++ [st]), l ∈ passedLabels env sts := by
      intro l hl
      rw [hsplit, List.append_cons, passedLabels, List.filterMap_append]
      exact List.mem_append_left _ hl
    exact fun l hl l' hl' => honce l (hsub l hl) l' (hsub l' hl')

/-- The loop in front of the code of a macro. -/
def loopStart (code : List u8) : LoopState Unit := ⟨[], (0, 0), oneMacro code, rfl⟩

/-- The state behind a turn of a macro whose commands do nothing. -/
def idleTurn (st : LoopState Unit) : LoopState Unit :=
  match loopStep idleEnv (fun _ _ => none) [0] st with
  | some (.inl st') => st'
  | _ => st

/-- The first turns of such a macro. -/
def idleTurns : ℕ → LoopState Unit → List (LoopState Unit)
  | 0, st => [st]
  | n + 1, st => st :: idleTurns n (idleTurn st)

/-- The lines `b:`, `ab:`, `c` and `.ab:` of a macro: behind the goto the loop is at the
`c` again. -/
theorem macro_labels_of_two :
    (idleTurns 4 (loopStart [98, 58, 10, 97, 98, 58, 10, 99, 10, 46, 97, 98, 58, 10])).map
        LoopState.ptr = [(0, 0), (0, 3), (0, 7), (0, 9), (0, 7)] ∧
      Always (LoopState.Right idleEnv (fun _ _ => none) [0])
        (idleTurns 4 (loopStart [98, 58, 10, 97, 98, 58, 10, 99, 10, 46, 97, 98, 58, 10])) := by
  refine ⟨rfl, (macro_labels_iff ⟨fun _ hst => Option.some.inj hst ▸ rfl, ?_⟩
    (namedOnce_of_nodup (by decide))).mpr ?_⟩
  · exact List.isChain_cons_cons.mpr ⟨rfl, List.isChain_cons_cons.mpr ⟨rfl,
      List.isChain_cons_cons.mpr ⟨rfl, List.isChain_pair.mpr rfl⟩⟩⟩
  -- two labels, a command, the goto, and the command again
  · refine always_cons ⟨fun _ => ⟨by decide, by decide, by decide, by decide⟩, by decide⟩ ?_
    refine always_cons ⟨fun _ => ⟨by decide, by decide, by decide, by decide⟩, by decide⟩ ?_
    refine always_cons ⟨fun hplain => absurd hplain (by decide), by decide⟩ ?_
    refine always_cons ⟨fun hplain => absurd hplain (by decide), by decide⟩ ?_
    exact always_cons ⟨fun hplain => absurd hplain (by decide), by decide⟩ always_nil

/-- A second label is not put into the table. -/
theorem second_label_missed :
    ¬∀ (W : Type) (env : MacroEnv W) (call : List u8 → MacroWorld W → Option (ℤ × MacroWorld W))
      (args : List u8) (sts : List (LoopState W)), LoopRun env call args sts →
      NamedOnce (passedLabels env sts) → Always (LoopState.Right env call args) sts := by
  intro h
  -- the lines `a:` and `b:`
  have hrun := h Unit idleEnv (fun _ _ => none) [0] [loopStart [97, 58, 10, 98, 58, 10], _]
    ⟨fun _ hst => Option.some.inj hst ▸ rfl, List.isChain_pair.mpr rfl⟩
    (namedOnce_of_nodup (by decide)) [loopStart [97, 58, 10, 98, 58, 10]] _ [] rfl
  obtain ⟨ptr2, labels, hprocess, htab⟩ := hrun.kept
  have hlength := htab.length_eq
  rw [← (Prod.mk.inj (Option.some.inj hprocess)).2] at hlength
  exact absurd hlength (by decide)

end Radare
