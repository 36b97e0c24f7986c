import Radare.Flags.Model
/-!
# Flags defined by name

`flag_set` looks for the name it is given among the names stored, and
stores the first 39 characters of it. So a longer name is never found, by
`flag_set` or by `flag_get`; nor does `flag_get` look for one that begins
with a digit. Interrupted, `flag_set` does not look at all. Without these
the table is a map (`definitions_unique`): a name has one flag, and
`flag_get` finds it with its last address.
-/

namespace Radare

variable {c : FlagConfig} {flags flags' : List FlagT} {name : List u8} {addr : ut64} {f : FlagT}

/-- The names of a table. -/
def names (flags : List FlagT) : List (List u8) := flags.map FlagT.name

/-- A definition: `flag_set` of a valid name, without `dup`. -/
structure Definition where
  config : FlagConfig
  name : List u8
  addr : ut64
  valid : flagIsValidName name = true

/-- The table after it. -/
def Definition.run (flags : List FlagT) (d : Definition) : List FlagT :=
  (flagSet d.config flags d.name d.addr false).1

/-- The table after a run of definitions, from the empty one. -/
def table (ds : List Definition) : List FlagT := ds.foldl Definition.run []

/-! ## One definition -/

/-- The walk of `flag_set` finds a name that is there, and no other. -/
theorem moveFlag_eq_none_iff : moveFlag c name addr flags = none ↔ name ∉ names flags := by
  unfold names
  induction flags with
  | nil => exact iff_of_true rfl List.not_mem_nil
  | cons f flags ih =>
    unfold moveFlag
    rw [List.map_cons, List.mem_cons, not_or]
    by_cases hname : f.name = name
    · rw [if_pos hname]
      exact iff_of_false (Option.some_ne_none _) fun h => h.1 hname.symm
    · rw [if_neg hname, Option.map_eq_none_iff, ih]
      exact (and_iff_right (Ne.symm hname)).symm

/-- It leaves the names as they are, and one flag of the name is at the
address. -/
theorem moveFlag_eq_some (h : moveFlag c name addr flags = some flags') :
    names flags' = names flags ∧
      ∃ f ∈ flags', f.name = name ∧ f.offset = addr + c.flagFrom := by
  unfold names
  induction flags generalizing flags' with
  | nil => cases h
  | cons g flags ih =>
    unfold moveFlag at h
    split_ifs at h with hname
    · cases h
      exact ⟨rfl, _, List.mem_cons_self, hname, rfl⟩
    · obtain ⟨rest, hrest, rfl⟩ := Option.map_eq_some_iff.mp h
      obtain ⟨hnames, f, hf, hfound⟩ := ih hrest
      refine ⟨?_, f, List.mem_cons_of_mem _ hf, hfound⟩
      rw [List.map_cons, List.map_cons, hnames]

/-- A valid name passes both checks of `flag_set`. -/
theorem flagSet_of_valid (hvalid : flagIsValidName name = true) :
    (flagSet c flags name addr false).1 =
      (if c.interrupted then none else moveFlag c name addr flags).getD
        (flags ++ [newFlag c name addr]) := by
  have hall : ∀ ch ∈ name, flagIsValidChar ch = true := by
    unfold flagIsValidName at hvalid
    have h := of_decide_eq_true hvalid
    exact List.all_eq_true.mp h.2
  have hstar : name ≠ [42] := by
    rintro rfl
    exact absurd (hall 42 List.mem_cons_self) (by decide)
  -- a valid character is printable, so the second check adds nothing
  have hprint : ∀ ch, flagIsValidChar ch = true → isPrintable ch = true := by
    intro ch hch
    unfold flagIsValidChar at hch
    split_ifs at hch with hbad hdigit
    · unfold isPrintable
      exact decide_eq_true ⟨UInt8.le_trans (by decide) hdigit.1, UInt8.le_trans hdigit.2 (by decide)⟩
    · exact hch
  have htail : ¬name.tail.any (!isPrintable ·) = true := by
    rw [List.any_eq_true]
    rintro ⟨ch, hch, hnot⟩
    rw [hprint ch (hall ch (List.mem_of_mem_tail hch))] at hnot
    cases hnot
  have hcheck : ¬(!false ∧ (name = [42] ∨ !flagIsValidName name ∨ name.tail.any (!isPrintable ·))) := by
    rintro ⟨-, h | h | h⟩
    · exact hstar h
    · rw [hvalid] at h
      cases h
    · exact htail h
  unfold flagSet
  rw [if_neg hcheck, if_neg Bool.false_ne_true]
  dsimp only
  cases (if c.interrupted then none else moveFlag c name addr flags) with
  | none => rfl
  | some flags' => rfl

/-- **The names after a definition.** -/
theorem names_run (d : Definition) :
    names (d.run flags) =
      if d.config.interrupted = false ∧ d.name ∈ names flags then names flags
      else names flags ++ [storedName d.name] := by
  unfold Definition.run
  rw [flagSet_of_valid d.valid]
  cases hint : d.config.interrupted with
  | true =>
    rw [if_pos rfl, if_neg fun h => Bool.noConfusion h.1]
    exact List.map_append
  | false =>
    rw [if_neg Bool.false_ne_true]
    cases hmove : moveFlag d.config d.name d.addr flags with
    | none =>
      rw [if_neg fun h => moveFlag_eq_none_iff.mp hmove h.2]
      exact List.map_append
    | some flags' =>
      have hmem : d.name ∈ names flags := by
        by_contra hnot
        rw [moveFlag_eq_none_iff.mpr hnot] at hmove
        cases hmove
      rw [if_pos ⟨rfl, hmem⟩]
      exact (moveFlag_eq_some hmove).1

/-! ## Runs -/

theorem table_concat (ds : List Definition) (d : Definition) :
    table (ds ++ [d]) = d.run (table ds) := by
  unfold table
  rw [List.foldl_append]
  rfl

theorem storedName_storedName : storedName (storedName name) = storedName name := by
  unfold storedName
  rw [List.take_take, min_self]

/-- **The names stored** are those of the definitions, cut to the buffer. -/
theorem mem_names_table {ds : List Definition} :
    name ∈ names (table ds) ↔ ∃ d ∈ ds, storedName d.name = name := by
  induction ds using List.reverseRecOn generalizing name with
  | nil => simp [table, names]
  | append_singleton ds d ih =>
    have hlast : (∃ e ∈ ds ++ [d], storedName e.name = name) ↔
        (∃ e ∈ ds, storedName e.name = name) ∨ storedName d.name = name := by
      simp [or_and_right, exists_or]
    rw [table_concat, names_run, hlast, ← ih]
    split_ifs with hfound
    · -- a name found is one stored, and whole
      obtain ⟨e, -, he⟩ := ih.mp hfound.2
      have hwhole : storedName d.name = d.name := by rw [← he, storedName_storedName]
      refine (or_iff_left_of_imp ?_).symm
      rintro rfl
      rw [hwhole]
      exact hfound.2
    · rw [List.mem_append, List.mem_singleton, eq_comm (a := name)]

/-- A flag has its name whole only if the name fits the buffer. -/
theorem length_of_mem_names {ds : List Definition} (h : name ∈ names (table ds)) :
    name.length ≤ flagBsize - 1 := by
  obtain ⟨d, -, rfl⟩ := mem_names_table.mp h
  exact List.length_take_le _ _

theorem storedName_eq (h : name.length ≤ flagBsize - 1) : storedName name = name :=
  List.take_of_length_le h

/-- What `flag_get` finds has the name, and that is no number. -/
theorem of_flagGet_eq_some (h : flagGet flags name = some f) :
    name ∈ names flags ∧ startsWithDigit name = false := by
  unfold flagGet at h
  split_ifs at h with hdigit
  have hname : f.name = name := by simpa using List.find?_some h
  have hmem : f ∈ flags := List.mem_reverse.mp (List.mem_of_find?_eq_some h)
  exact ⟨List.mem_map.mpr ⟨f, hmem, hname⟩, Bool.eq_false_of_not_eq_true hdigit⟩

/-- With one flag a name, `flag_get` finds it. -/
theorem flagGet_of_nodup (hnodup : (names flags).Nodup) (hf : f ∈ flags)
    (hdigit : startsWithDigit f.name = false) : flagGet flags f.name = some f := by
  unfold flagGet
  rw [hdigit, if_neg Bool.false_ne_true]
  cases hfind : flags.reverse.find? fun g => g.name = f.name with
  | none =>
    have hnone := List.find?_eq_none.mp hfind f (List.mem_reverse.mpr hf)
    exact absurd (decide_eq_true rfl) hnone
  | some g =>
    have hname : g.name = f.name := by simpa using List.find?_some hfind
    have hg : g ∈ flags := List.mem_reverse.mp (List.mem_of_find?_eq_some hfind)
    rw [List.inj_on_of_nodup_map hnodup hg hf hname]

/-- A definition of a name that fits puts a flag of it at its address. -/
theorem mem_run (flags : List FlagT) (d : Definition) (hfits : d.name.length ≤ flagBsize - 1) :
    ∃ f ∈ d.run flags, f.name = d.name ∧ f.offset = d.addr + d.config.flagFrom := by
  have hnew : ∃ f ∈ flags ++ [newFlag d.config d.name d.addr],
      f.name = d.name ∧ f.offset = d.addr + d.config.flagFrom :=
    ⟨_, List.mem_append_right _ List.mem_cons_self, storedName_eq hfits, rfl⟩
  unfold Definition.run
  rw [flagSet_of_valid d.valid]
  split_ifs with hint
  · exact hnew
  · cases hmove : moveFlag d.config d.name d.addr flags with
    | none => exact hnew
    | some flags' => exact (moveFlag_eq_some hmove).2

/-- **A definition keeps the names apart** exactly if one that is not looked
for, or not found whole, is not there. -/
theorem nodup_run_iff (d : Definition) (h : (names flags).Nodup) :
    (names (d.run flags)).Nodup ↔
      (d.config.interrupted = false → d.name ∉ names flags) →
        storedName d.name ∉ names flags := by
  rw [names_run]
  split_ifs with hfound
  · exact iff_of_true h fun hnot => absurd hfound.2 (hnot hfound.1)
  · have happend : (names flags ++ [storedName d.name]).Nodup ↔
        storedName d.name ∉ names flags := by
      rw [List.nodup_append_comm, List.singleton_append, List.nodup_cons, and_iff_left h]
    have hguard : d.config.interrupted = false → d.name ∉ names flags := fun hint hmem =>
      hfound ⟨hint, hmem⟩
    rw [happend]
    exact ⟨fun hnot _ => hnot, fun hnot => hnot hguard⟩

/-- A definition that keeps the table a map, after others. -/
structure Definition.Kept (before : List Definition) (d : Definition) : Prop where
  fits : d.name.length ≤ flagBsize - 1
  letter : startsWithDigit d.name = false
  looked : d.config.interrupted = true → ∀ e ∈ before, e.name ≠ d.name

theorem nodup_table {ds : List Definition}
    (h : ∀ before d after, ds = before ++ d :: after → d.Kept before) :
    (names (table ds)).Nodup := by
  induction ds using List.reverseRecOn with
  | nil => exact List.nodup_nil
  | append_singleton ds d ih =>
    have hd := h ds d [] rfl
    have hds : ∀ before e after, ds = before ++ e :: after → e.Kept before := by
      intro before e after hsplit
      refine h before e (after ++ [d]) ?_
      rw [hsplit, List.append_assoc, List.cons_append]
    rw [table_concat, nodup_run_iff d (ih hds), storedName_eq hd.fits]
    intro hguard hmem
    cases hint : d.config.interrupted with
    | false => exact hguard hint hmem
    | true =>
      -- the name is there from an earlier definition, of the same name
      obtain ⟨e, he, hname⟩ := mem_names_table.mp hmem
      obtain ⟨before, after, hsplit⟩ := List.append_of_mem he
      rw [storedName_eq (hds before e after hsplit).fits] at hname
      exact hd.looked hint e he hname

/-- **When definitions keep the table a map**: at each step of a run of
definitions the names are apart and `flag_get` finds the name defined, at
its address, exactly if every name fits the buffer and begins with no
digit, and none that was defined before is defined again interrupted. -/
theorem definitions_unique (ds : List Definition) :
    (∀ before d after, ds = before ++ d :: after →
        (names (table (before ++ [d]))).Nodup ∧
          ∃ f, flagGet (table (before ++ [d])) d.name = some f ∧
            f.offset = d.addr + d.config.flagFrom) ↔
      ∀ before d after, ds = before ++ d :: after → d.Kept before := by
  constructor
  · intro h before d after hsplit
    obtain ⟨hnodup, f, hget, -⟩ := h before d after hsplit
    obtain ⟨hmem, hletter⟩ := of_flagGet_eq_some hget
    have hfits := length_of_mem_names hmem
    refine ⟨hfits, hletter, fun hint e he hname => ?_⟩
    rw [table_concat, names_run, if_neg fun h => by rw [hint] at h; cases h.1] at hnodup
    have hthere : storedName d.name ∈ names (table before) :=
      mem_names_table.mpr ⟨e, he, by rw [hname]⟩
    exact List.disjoint_of_nodup_append hnodup hthere List.mem_cons_self
  · intro h before d after hsplit
    have hbefore : ∀ pre e post, before ++ [d] = pre ++ e :: post → e.Kept pre := by
      intro pre e post hpre
      refine h pre e (post ++ after) ?_
      rw [hsplit, ← List.singleton_append, ← List.append_assoc, hpre, List.append_assoc,
        List.cons_append]
    have hnodup := nodup_table hbefore
    have hd := h before d after hsplit
    obtain ⟨f, hf, hname, hoff⟩ := mem_run (table before) d hd.fits
    rw [← table_concat] at hf
    refine ⟨hnodup, f, ?_, hoff⟩
    rw [← hname]
    exact flagGet_of_nodup hnodup hf (by rw [hname]; exact hd.letter)

/-- **A name of 40 characters is not found again**: defined twice, it has
two flags, and `flag_get` finds neither. -/
theorem long_name_defined_twice :
    let d : Definition := ⟨⟨false, 0, 0, 0, 0⟩, List.replicate 40 97, 0, by decide⟩
    names (table [d, d]) = [List.replicate 39 97, List.replicate 39 97] ∧
      flagGet (table [d, d]) d.name = none := by
  decide

/-! ## Definitions that may repeat

With `dup` the walk asks for the name and the address it is given, and
stores the name cut and the address moved up by `flag_from_i`. So what it
has stored it finds again only where both are what was given. -/

/-- A call with `dup`: nothing, where the name is there at the address, and
a new flag otherwise. -/
theorem flagSet_dup :
    (flagSet c flags name addr true).1 =
      if c.interrupted = false ∧ ∃ f ∈ flags, f.name = name ∧ f.offset = addr then flags
      else flags ++ [newFlag c name addr] := by
  have hany : (flags.any fun f => decide (f.name = name ∧ f.offset = addr)) = true ↔
      ∃ f ∈ flags, f.name = name ∧ f.offset = addr := by
    simp only [List.any_eq_true, decide_eq_true_eq]
  unfold flagSet
  rw [if_neg (by simp)]
  dsimp only
  cases c.interrupted with
  | true => rfl
  | false =>
    rw [if_neg Bool.false_ne_true, if_pos rfl]
    by_cases hfound : ∃ f ∈ flags, f.name = name ∧ f.offset = addr
    · rw [if_pos (hany.mpr hfound), if_pos ⟨rfl, hfound⟩]
    · rw [if_neg (mt hany.mp hfound), if_neg fun h => hfound h.2]

/-- The flag stored has the name and the address given. -/
theorem newFlag_found_iff :
    ((newFlag c name addr).name = name ∧ (newFlag c name addr).offset = addr) ↔
      name.length ≤ flagBsize - 1 ∧ c.flagFrom = 0 := by
  have hname : storedName name = name ↔ name.length ≤ flagBsize - 1 := by
    unfold storedName
    exact List.take_eq_self_iff name
  have hoffset : addr + c.flagFrom = addr ↔ c.flagFrom = 0 := by grind
  exact and_congr hname hoffset

/-- **When a definition with `dup` may be repeated**: the second call leaves
the table as the first one did exactly if the program is not interrupted
and the name was there at the address before, or it fits the buffer and no
base is added to the address. -/
theorem flagSet_dup_again_iff (c : FlagConfig) (flags : List FlagT) (name : List u8) (addr : ut64) :
    (flagSet c (flagSet c flags name addr true).1 name addr true).1 =
        (flagSet c flags name addr true).1 ↔
      c.interrupted = false ∧
        ((∃ f ∈ flags, f.name = name ∧ f.offset = addr) ∨
          (name.length ≤ flagBsize - 1 ∧ c.flagFrom = 0)) := by
  have hagain : ∀ table : List FlagT, (flagSet c table name addr true).1 = table ↔
      c.interrupted = false ∧ ∃ f ∈ table, f.name = name ∧ f.offset = addr := by
    intro table
    rw [flagSet_dup]
    split_ifs with hfound
    · exact iff_of_true rfl hfound
    · exact iff_of_false (by simp) hfound
  rw [hagain, flagSet_dup]
  refine and_congr_right fun hint => ?_
  split_ifs with hfound
  · exact iff_of_true hfound.2 (Or.inl hfound.2)
  · -- the flag of the first call is the only one that can be found
    have hnone : ¬∃ f ∈ flags, f.name = name ∧ f.offset = addr := fun h => hfound ⟨hint, h⟩
    have hnew : (newFlag c name addr).name = name ∧ (newFlag c name addr).offset = addr ↔ _ :=
      newFlag_found_iff
    rw [or_iff_right hnone, ← hnew]
    simp only [List.mem_append, List.mem_singleton, or_and_right, exists_or, exists_eq_left]
    exact or_iff_right hnone

/-- **With a base address every repetition counts**: the flag `a` at 0 is
stored at `0x1000`, and once more. -/
theorem repeated_with_base :
    let c : FlagConfig := ⟨false, 0x1000, 0, 0, 0⟩
    (flagSet c (flagSet c [] [97] 0 true).1 [97] 0 true).1 ≠ (flagSet c [] [97] 0 true).1 := by
  decide

end Radare
