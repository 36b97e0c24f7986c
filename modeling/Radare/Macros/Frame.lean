import Mathlib.Order.Nat
import Radare.Common.Wear
import Radare.Macros.Call
/-!
# What a call leaves of the macros

A turn of the loop borrows the newline at the end of its line. It gives it
back when it goes on to another line, or has executed this one, whatever the
command has called meanwhile. A jump to a label that is not known leaves the
loop with the newline still out (`MacroTurn.Missed`), and no one ever puts it
back. So the macros are as they were before the call exactly if there was no
such turn in it, here or in a call further in (`macros_kept_iff`).
-/

namespace Radare

open Common

variable {W : Type} {env : MacroEnv W}

/-- A jump to no label, on a line with an end. -/
def MacroTurn.Missed (env : MacroEnv W) (t : MacroTurn) : Prop :=
  t.ended = true ∧ ∃ labels, macroLabelProcess env t = some (none, labels)

/-! ## The memory of the macros -/

/-- The characters of the macros, by their addresses. -/
def MacroWorld.cells (s : MacroWorld W) (a : ℕ × ℕ) : ℕ := ((s.code a.1)[a.2]?.getD 0).toNat

/-- All else of the macros. -/
def MacroWorld.shape (s : MacroWorld W) : List (List u8 × ℕ × ℕ) :=
  s.macros.map fun m => (m.name, m.nargs, m.code.length)

variable {s s' s₁ s₂ : MacroWorld W} {i e : ℕ} {c : u8}

theorem MacroT.ext_code {m m' : MacroT} (hname : m.name = m'.name) (hnargs : m.nargs = m'.nargs)
    (hcode : m.code = m'.code) : m = m' := by
  obtain ⟨name, code, nargs, hplain⟩ := m
  obtain ⟨name', code', nargs', hplain'⟩ := m'
  subst hname hnargs hcode
  rfl

theorem code_of_getElem? {m : MacroT} (h : s.macros[i]? = some m) : s.code i = m.code := by
  rw [MacroWorld.code, h]
  rfl

/-- The macros are known by their shape and their cells. -/
theorem macros_eq (hshape : s'.shape = s.shape) (hcells : s'.cells = s.cells) :
    s'.macros = s.macros := by
  have hlength : s'.macros.length = s.macros.length := by
    simpa [MacroWorld.shape] using congrArg List.length hshape
  refine List.ext_getElem hlength fun i hi' hi => ?_
  have hi₁ := congrArg (·[i]?) hshape
  simp only [MacroWorld.shape, List.getElem?_map, List.getElem?_eq_getElem hi',
    List.getElem?_eq_getElem hi, Option.map_some, Option.some.injEq, Prod.mk.injEq] at hi₁
  obtain ⟨hname, hnargs, hlen⟩ := hi₁
  refine MacroT.ext_code hname hnargs (List.ext_getElem hlen fun j hj' hj => ?_)
  have hcell := congrFun hcells (i, j)
  rw [MacroWorld.cells, MacroWorld.cells, code_of_getElem? (List.getElem?_eq_getElem hi'),
    code_of_getElem? (List.getElem?_eq_getElem hi), List.getElem?_eq_getElem hj',
    List.getElem?_eq_getElem hj] at hcell
  exact UInt8.toNat_inj.mp hcell

theorem macros_eq_iff (hshape : s'.shape = s.shape) :
    s'.macros = s.macros ↔ s'.cells = s.cells := by
  refine ⟨fun h => ?_, macros_eq hshape⟩
  funext a
  rw [MacroWorld.cells, MacroWorld.cells, MacroWorld.code, MacroWorld.code, h]

theorem shape_poke (o : Option ℕ) : (s.poke i o c).shape = s.shape := by
  cases o with
  | none => rfl
  | some e =>
    refine List.ext_getElem? fun k => ?_
    simp only [MacroWorld.shape, MacroWorld.poke, List.getElem?_map, List.getElem?_modify]
    cases s.macros[k]? with
    | none => rfl
    | some m =>
      -- the code of one macro is another, as long as it was
      by_cases hik : i = k <;> simp [hik]

theorem code_poke (k : ℕ) :
    (s.poke i (some e) c).code k = if i = k then (s.code k).set e c else s.code k := by
  rw [MacroWorld.code, MacroWorld.code, MacroWorld.poke, List.getElem?_modify]
  cases s.macros[k]? with
  | none => simp
  | some m => split <;> simp [*]

/-- A cell that is not empty is there. -/
theorem lt_length_of_cells (h : s.cells (i, e) ≠ 0) : e < (s.code i).length := by
  by_contra hle
  refine h ?_
  rw [MacroWorld.cells, List.getElem?_eq_none (Nat.le_of_not_lt hle)]
  rfl

theorem cells_poke (he : e < (s.code i).length) :
    (s.poke i (some e) c).cells = Function.update s.cells (i, e) c.toNat := by
  refine Function.eq_update_iff.mpr ⟨?_, fun a ha => ?_⟩
  · rw [MacroWorld.cells, code_poke, if_pos rfl, List.getElem?_set_self he]
    rfl
  · obtain ⟨k, j⟩ := a
    rw [MacroWorld.cells, MacroWorld.cells, code_poke]
    split
    · rename_i hik
      subst hik
      rw [List.getElem?_set_ne]
      rintro rfl
      exact ha rfl
    · rfl

theorem length_code_of_shape (h : s'.shape = s.shape) : (s'.code i).length = (s.code i).length := by
  have hi := congrArg (·[i]?) h
  simp only [MacroWorld.shape, List.getElem?_map] at hi
  rw [MacroWorld.code, MacroWorld.code]
  cases hm : s.macros[i]? with
  | none =>
    rw [hm] at hi
    rw [Option.map_eq_none_iff.mp hi]
  | some m =>
    rw [hm] at hi
    obtain ⟨m', hm', heq⟩ := Option.map_eq_some_iff.mp hi
    rw [hm']
    exact (Prod.mk.inj (Prod.mk.inj heq).2).2

/-- A newline that is found is there. -/
theorem cells_newline {ptr : ℕ × ℕ} (h : s.newline ptr = some e) : s.cells (ptr.1, e) = 10 := by
  obtain ⟨k, hk, rfl⟩ := Option.map_eq_some_iff.mp h
  obtain ⟨hlt, hget, -⟩ := List.idxOf?_eq_some_iff.mp hk
  have hfront := List.takeWhile_prefix (l := (s.code ptr.1).drop ptr.2) (· ≠ (0 : u8))
  have hmem : ((s.code ptr.1).drop ptr.2)[k]? = some 10 := by
    rw [← hget]
    exact List.getElem?_eq_some_iff.mpr ⟨hlt.trans_le hfront.length_le, (hfront.getElem hlt).symm⟩
  rw [List.getElem?_drop] at hmem
  rw [MacroWorld.cells, hmem]
  rfl

/-! ## Turns, loops and calls -/

/-- What a run does to the macros, by its turns. -/
abbrev Worn (env : MacroEnv W) : MacroWorld W → MacroWorld W → Prop :=
  Wear MacroWorld.shape MacroWorld.cells MacroWorld.turns (MacroTurn.Missed env)

/-- The state in a turn, with the end of its line out. -/
def MacroWorld.within (env : MacroEnv W) (labels : List MacroLabel) (ptr : ℕ × ℕ)
    (ended : Option ℕ) (s : MacroWorld W) : MacroWorld W :=
  let s := s.poke ptr.1 ended 0
  { s with turns := s.turns ++ [s.turn env labels ptr ended.isSome] }

variable {labels : List MacroLabel} {ptr : ℕ × ℕ} {ended : Option ℕ}

theorem turns_poke (o : Option ℕ) : (s.poke i o c).turns = s.turns := by
  cases o <;> rfl

theorem worn_of_eq (hmacros : s'.macros = s.macros) (hturns : s'.turns = s.turns) :
    Worn env s s' := by
  refine Wear.of_eq ?_ ?_ hturns
  · rw [MacroWorld.shape, hmacros, MacroWorld.shape]
  · funext a
    rw [MacroWorld.cells, MacroWorld.code, hmacros]
    rfl

/-- **A turn that gives the newline back.** -/
theorem worn_turn (hend : ∀ e, ended = some e → s.cells (ptr.1, e) = 10)
    (ht : ¬((s.poke ptr.1 ended 0).turn env labels ptr ended.isSome).Missed env)
    (h : Worn env (s.within env labels ptr ended) s₂) :
    Worn env s (s₂.poke ptr.1 ended 10) := by
  have hlog : (s.within env labels ptr ended).turns
      = s.turns ++ [(s.poke ptr.1 ended 0).turn env labels ptr ended.isSome] :=
    congrArg (· ++ _) (turns_poke ended)
  cases ended with
  | none =>
    have hentry : Worn env s (s.within env labels ptr none) := Wear.entry ht rfl rfl hlog
    exact hentry.trans h
  | some e =>
    have hcell := hend e rfl
    have he : e < (s.code ptr.1).length := lt_length_of_cells (by omega)
    have hshape : (s.within env labels ptr (some e)).shape = s.shape := shape_poke (some e)
    have hout : (s.within env labels ptr (some e)).cells = Function.update s.cells (ptr.1, e) ⊥ :=
      cells_poke he
    refine h.borrow ht hshape hout hlog (shape_poke (some e)) ?_ (turns_poke (some e))
    rw [hcell]
    exact cells_poke (by rwa [length_code_of_shape (h.shape_eq.trans hshape)])

/-- **A turn that does not.** -/
theorem worn_missed (hend : ∀ e, ended = some e → s.cells (ptr.1, e) = 10)
    (hnone : ∃ labels', macroLabelProcess env
      ((s.poke ptr.1 ended 0).turn env labels ptr ended.isSome) = some (none, labels')) :
    Worn env s (s.within env labels ptr ended) := by
  have hlog : (s.within env labels ptr ended).turns
      = s.turns ++ [(s.poke ptr.1 ended 0).turn env labels ptr ended.isSome] :=
    congrArg (· ++ _) (turns_poke ended)
  cases ended with
  | none => exact Wear.entry (fun h => absurd h.1 Bool.false_ne_true) rfl rfl hlog
  | some e =>
    have hcell := hend e rfl
    have he : e < (s.code ptr.1).length := lt_length_of_cells (by omega)
    have hout : (s.within env labels ptr (some e)).cells = Function.update s.cells (ptr.1, e) ⊥ :=
      cells_poke he
    refine Wear.keep ⟨rfl, hnone⟩ (shape_poke (some e)) hout ?_ hlog
    rw [hcell]
    exact Nat.succ_ne_zero 9

variable {call : List u8 → MacroWorld W → Option (ℤ × MacroWorld W)} {args : List u8}

/-- The loop, if the calls in it are such. -/
theorem worn_macroLoop (hcall : ∀ a s r s', call a s = some (r, s') → Worn env s s')
    {fuel : ℕ} {stop : LoopEnd} (hend : ∀ e, ended = some e → s.cells (ptr.1, e) = 10)
    (h : macroLoop env call args fuel labels ptr ended s = some (stop, s')) :
    Worn env s s' := by
  induction fuel generalizing labels ptr ended s with
  | zero => cases h
  | succ fuel ih =>
    obtain ⟨⟨ptr2, labels'⟩, hlabel, h⟩ := Option.bind_eq_some_iff.mp h
    cases ptr2 with
    | none =>
      obtain ⟨-, rfl⟩ := Prod.mk.inj (Option.some.inj h)
      exact worn_missed hend ⟨labels', hlabel⟩
    | some ptr2 =>
      have ht : ¬((s.poke ptr.1 ended 0).turn env labels ptr ended.isSome).Missed env := by
        rintro ⟨-, labels'', hnone⟩
        cases hlabel.symm.trans hnone
      dsimp only at h
      split at h
      · -- the next line, or that of the label
        have hturn := worn_turn hend ht (Wear.refl _)
        split at h
        · obtain ⟨-, rfl⟩ := Prod.mk.inj (Option.some.inj h)
          exact hturn
        · exact hturn.trans (ih (fun e => cells_newline) h)
      · obtain ⟨⟨_, s₂⟩, hcmd, h⟩ := Option.bind_eq_some_iff.mp h
        have hrun : Worn env (s.within env labels ptr ended) s₂ :=
          Wear.lift_run
            (fun (p : W × Bool) s => { s with world := p.1, macroBreak := p.2 })
            (fun _ _ => rfl) (fun _ _ => rfl) (fun _ _ => rfl) hcall hcmd
        have hturn := worn_turn hend ht hrun
        cases ended with
        | none =>
          obtain ⟨-, rfl⟩ := Prod.mk.inj (Option.some.inj h)
          exact hturn
        | some e =>
          dsimp only at h
          split at h
          · obtain ⟨-, rfl⟩ := Prod.mk.inj (Option.some.inj h)
            exact hturn
          · exact hturn.trans (ih (fun e => cells_newline) h)

/-- The macros of a name. -/
theorem worn_macroFind (hcall : ∀ a s r s', call a s = some (r, s') → Worn env s s')
    {fuel nargs : ℕ} {str : List u8} {is : List ℕ} {r : ℤ}
    (h : macroFind env call fuel str args nargs is labels s = some (r, s')) :
    Worn env s s' := by
  induction is generalizing labels s with
  | nil =>
    obtain ⟨-, rfl⟩ := Prod.mk.inj (Option.some.inj h)
    exact Wear.refl s
  | cons i is ih =>
    rw [macroFind] at h
    cases hi : s.macros[i]? with
    | none =>
      rw [hi] at h
      cases h
    | some mac =>
      rw [hi] at h
      dsimp only at h
      split at h
      · split at h
        · obtain ⟨-, rfl⟩ := Prod.mk.inj (Option.some.inj h)
          exact Wear.refl s
        · obtain ⟨⟨stop, s₁⟩, hloop, h⟩ := Option.bind_eq_some_iff.mp h
          have hstart : Worn env s { s with macroBreak := false } := worn_of_eq rfl rfl
          have hworn := hstart.trans (worn_macroLoop hcall (fun e => cells_newline) hloop)
          cases stop with
          | returned | broken =>
            obtain ⟨-, rfl⟩ := Prod.mk.inj (Option.some.inj h)
            exact hworn
          | oops labels' =>
            dsimp only at h
            split at h
            · obtain ⟨-, rfl⟩ := Prod.mk.inj (Option.some.inj h)
              exact hworn
            · exact hworn.trans (ih h)
      · exact ih h

/-- A call, and those in it. -/
theorem worn_radareMacroCall {fuel : ℕ} {name : List u8} {r : ℤ}
    (h : radareMacroCall env fuel name s = some (r, s')) : Worn env s s' := by
  induction fuel generalizing name s r s' with
  | zero => cases h
  | succ fuel ih =>
    rw [radareMacroCall] at h
    dsimp only at h
    split at h
    · obtain ⟨-, rfl⟩ := Prod.mk.inj (Option.some.inj h)
      exact worn_of_eq rfl rfl
    · obtain ⟨⟨r', s₁⟩, hfind, heq⟩ := Option.map_eq_some_iff.mp h
      obtain ⟨-, rfl⟩ := Prod.mk.inj heq
      have henter : Worn env s { s with macroLevel := s.macroLevel + 1 } := worn_of_eq rfl rfl
      have hleave : Worn env s₁ { s₁ with macroLevel := s₁.macroLevel - 1 } := worn_of_eq rfl rfl
      exact henter.trans ((worn_macroFind (fun a s r s' => ih) hfind).trans hleave)

/-- **A call leaves the macros as they were exactly if no turn of it, or of
the calls in it, misses its label.** -/
theorem macros_kept_iff (env : MacroEnv W) (fuel : ℕ) (name : List u8) (s s' : MacroWorld W)
    (r : ℤ) (turns : List MacroTurn) (h : radareMacroCall env fuel name s = some (r, s'))
    (hturns : s'.turns = s.turns ++ turns) :
    s'.macros = s.macros ↔ ∀ t ∈ turns, ¬t.Missed env := by
  have hworn := worn_radareMacroCall h
  rw [macros_eq_iff hworn.shape_eq]
  exact hworn.mem_eq_iff hturns

/-- Commands that do nothing. -/
def idleEnv : MacroEnv Unit where
  lastCmp _ := 0
  macroCounter _ := 0
  radareCmd _ := pure ()
  front _ := 0
  stack _ := []

/-- A table with one macro, `f`. -/
def oneMacro (code : List u8) : MacroWorld Unit where
  macros := [⟨[102], code, 0, by decide⟩]
  macroLevel := 0
  macroBreak := false
  world := ()
  turns := []

/-- The lines `l:` and `a` of a macro. -/
theorem macros_kept_of_label :
    ∃ s', radareMacroCall idleEnv 4 [102, 41] (oneMacro [108, 58, 10, 97, 10]) = some (1, s')
      ∧ s'.macros = (oneMacro [108, 58, 10, 97, 10]).macros := by
  obtain ⟨s', turns, hcall, hturns, hfound⟩ : ∃ s' turns,
      radareMacroCall idleEnv 4 [102, 41] (oneMacro [108, 58, 10, 97, 10]) = some (1, s')
        ∧ s'.turns = (oneMacro [108, 58, 10, 97, 10]).turns ++ turns
        ∧ turns.all (fun t => (macroLabelProcess idleEnv t).all fun p => p.1.isSome) = true :=
    ⟨_, _, rfl, rfl, rfl⟩
  refine ⟨s', hcall, (macros_kept_iff idleEnv 4 _ _ s' 1 turns hcall hturns).mpr ?_⟩
  rintro t ht ⟨-, labels, hnone⟩
  have hsome := List.all_eq_true.mp hfound t ht
  rw [hnone] at hsome
  cases hsome

/-- A jump to a label further down takes the newline behind it away. -/
theorem label_further_down :
    ¬∀ (W : Type) (env : MacroEnv W) (fuel : ℕ) (name : List u8) (s s' : MacroWorld W) (r : ℤ),
      radareMacroCall env fuel name s = some (r, s') → s'.macros = s.macros := by
  intro h
  -- the lines `.x:` and `x:`
  have hrun := h Unit idleEnv 2 [102, 41] (oneMacro [46, 120, 58, 10, 120, 58, 10]) _ 0 rfl
  have hcodes := congrArg (List.map MacroT.code) hrun
  exact absurd hcodes (by decide)

end Radare
