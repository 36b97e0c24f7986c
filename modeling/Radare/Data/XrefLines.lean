import Radare.Data.Command
/-!
# References through their own lines

The line of a reference says `C`, a letter, the address it is from, and the
address it is to behind the `@`. The command takes them the other way
around: what it is given is where the reference goes to, and the seek is
where it is from. And the letter of a reference to data is the one of a data
item. So the lines make of each reference to code the one back, with the
base address put on and taken off (`XrefT.exchanged`), and of the others
none. The table is the same exactly if it has no others and is its own
image (`xrefsList_restores_iff`).
-/

namespace Radare

open Common

variable {env : DataEnv} {n : ℕ} {x : XrefT} {s t : Program} {xrefs : List XrefT} {vaddr : ut64}

/-! ## One line -/

/-- What `Cx` takes the base address off. -/
def lowered (vaddr from_ : ut64) : ut64 := if from_ ≥ vaddr * 2 then from_ - vaddr else from_

/-- The reference that comes back for one to code. -/
def XrefT.exchanged (env : DataEnv) (vaddr : ut64) (x : XrefT) : XrefT where
  addr := lowered vaddr (env.nums.read 1 x.from_)
  from_ := seekAt vaddr (env.nums.address x.addr (env.label x.from_)) + vaddr
  type := 0

/-- **From and to are exchanged**, where numbers are read as what they are
and there is no base address. -/
theorem exchanged_eq (hfrom : env.nums.read 1 x.from_ = x.from_)
    (haddr : env.nums.address x.addr (env.label x.from_) = x.addr) (hne : x.addr ≠ -1) :
    x.exchanged env 0 = ⟨x.from_, x.addr, 0⟩ := by
  have hseek : seekAt 0 x.addr = x.addr := by
    rw [seekAt, if_neg hne]
    exact rebase_eq_self_iff.mpr (Or.inl rfl)
  have hlow : lowered 0 x.from_ = x.from_ := by
    unfold lowered
    split_ifs
    · exact UInt64.sub_zero _
    · rfl
  unfold XrefT.exchanged
  rw [hfrom, haddr, hseek, hlow, UInt64.add_zero]

/-- The table with the reference that comes back for one of it. -/
def addBack (env : DataEnv) (vaddr : ut64) (back : List XrefT) (x : XrefT) : List XrefT :=
  if x.type = 0 then
    dataXrefsAdd back (x.exchanged env vaddr).addr (x.exchanged env vaddr).from_ 0
  else back

/-- The command of a line. -/
def xrefCommand (x : XrefT) : List u8 :=
  (if x.type ≠ 0 then 100 else 120) :: 32 :: (hexWord x.from_ ++ [32])

theorem xrefLine_eq (env : DataEnv) (x : XrefT) :
    xrefLine env x = dumpLine (xrefCommand x) x.addr (env.label x.from_) := by
  simp [xrefLine, dumpLine, xrefCommand]

theorem plainLine_xrefLine (h : (env.label x.from_).Plain) :
    Cmd.PlainLine (xrefLine env x) (67 :: xrefCommand x)
      (32 :: addressText x.addr (env.label x.from_)) := by
  have hchar : ∀ c ∈ xrefCommand x, Cmd.PlainChar c ∧ c ≠ 64 := by
    intro c hc
    unfold xrefCommand at hc
    simp only [List.mem_cons, List.mem_append, List.not_mem_nil, or_false] at hc
    rcases hc with rfl | rfl | hc | rfl
    · split_ifs <;> decide
    · decide
    · exact plainChar_of_printed (Or.inr (Or.inr (of_mem_hexWord hc)))
    · decide
  rw [xrefLine_eq]
  exact plainLine_dumpLine h (fun c hc => (hchar c hc).1) fun hc => (hchar 64 hc).2 rfl

/-! ### Where the base address stays -/

theorem vaddr_radareSetBlockSizeI {W : Type} (env : Cmd.CmdEnv W) (s : State) (sz : ℤ) :
    (Cmd.radareSetBlockSizeI env s sz).config.vaddr = s.config.vaddr :=
  vaddr_radareRead _

/-- An item changes no reference. -/
theorem xrefs_addItem (env : DataEnv) (len : ut64) (type : DataType) (arg : List u8) (s : Program) :
    (addItem env len type arg s).world.xrefs = s.world.xrefs ∧
      (addItem env len type arg s).state.config.vaddr = s.state.config.vaddr := by
  refine ⟨rfl, ?_⟩
  unfold addItem
  dsimp only
  rw [vaddr_radareSetBlockSizeI, vaddr_radareSetBlockSizeI]

/-- **The command of a line.** -/
theorem radareCode_xrefCommand (env : DataEnv) (x : XrefT) (s : Program) :
    ∃ t, radareCode env s (xrefCommand x) = some t ∧
      t.state.config.vaddr = s.state.config.vaddr ∧
      t.world.xrefs = if x.type = 0 then
        dataXrefsAdd s.world.xrefs (lowered s.state.config.vaddr (env.nums.read 1 x.from_))
          (s.state.config.seek + s.state.config.vaddr) 0
      else s.world.xrefs := by
  by_cases htype : x.type = 0
  · have hcmd : xrefCommand x = 120 :: 32 :: (hexWord x.from_ ++ [32]) := by
      rw [xrefCommand, if_neg (not_not.mpr htype)]
    have hread : getMathText env.nums s.state (32 :: (hexWord x.from_ ++ [32])) =
        env.nums.read 1 x.from_ := getMathText_argument
    rw [hcmd, if_pos htype, ← hread]
    exact ⟨_, rfl, rfl, rfl⟩
  · have hcmd : xrefCommand x = 100 :: 32 :: (hexWord x.from_ ++ [32]) := by
      rw [xrefCommand, if_pos htype]
    obtain ⟨hxrefs, hvaddr⟩ := xrefs_addItem env
      (getMathText env.nums s.state (hexWord x.from_ ++ [32])) .hex (hexWord x.from_ ++ [32]).tail s
    rw [hcmd, if_neg htype]
    exact ⟨_, rfl, hvaddr, hxrefs⟩

/-- **The line of a reference.** -/
theorem atAddress_xref (env : DataEnv) (x : XrefT) (s : Program) :
    ∃ t, atAddress (env.nums.address x.addr (env.label x.from_))
        (fun s => radareCode env s (xrefCommand x)) s = some t ∧
      t.state.config.vaddr = s.state.config.vaddr ∧
      t.world.xrefs = addBack env s.state.config.vaddr s.world.xrefs x := by
  obtain ⟨t, ht, hvaddr, hxrefs⟩ := radareCode_xrefCommand env x
    (goTo (env.nums.address x.addr (env.label x.from_)) s)
  obtain ⟨t', ht', hworld, hback⟩ := atAddress_of (fun s => radareCode env s (xrefCommand x)) ht
  rw [vaddr_goTo] at hvaddr hxrefs
  rw [seek_goTo] at hxrefs
  exact ⟨t', ht', hback.trans hvaddr, (congrArg Tables.xrefs hworld).trans hxrefs⟩

/-! ## The whole table -/

theorem lineStep_xref (h : (env.label x.from_).Plain) :
    LineStep env (xrefLine env)
      (fun s x t => t.state.config.vaddr = s.state.config.vaddr ∧
        t.world.xrefs = addBack env s.state.config.vaddr s.world.xrefs x) x :=
  ⟨xrefCommand x, x.addr, env.label x.from_, plainLine_xrefLine h, h, atAddress_xref env x⟩

/-- **What the lines make of the table**, of references and nothing else. -/
theorem runDump_xrefs (h : ∀ x ∈ xrefs, (env.label x.from_).Plain) {s : Cmd.Shell Tables}
    (hs : s.tmpoff = -1) :
    ∃ t, runDump env (n + 2) (dataXrefsList env xrefs) s = some { s with session := t } ∧
      t.world.xrefs =
        xrefs.foldl (addBack env s.session.state.config.vaddr) s.session.world.xrefs := by
  refine runDump_spec (P := fun xrefs s t =>
    t.world.xrefs = xrefs.foldl (addBack env s.state.config.vaddr) s.world.xrefs)
    (fun _ => rfl) (fun hstep hrest => ?_) (fun x hx => lineStep_xref (h x hx)) hs
  rw [hrest, hstep.1, hstep.2, List.foldl_cons]

/-- A reference that is added to references to code. -/
theorem mem_dataXrefsAdd {back : List XrefT} (hback : ∀ e ∈ back, e.type = 0) (e : XrefT) (a f : ut64) :
    e ∈ dataXrefsAdd back a f 0 ↔ e ∈ back ∨ e = ⟨a, f, 0⟩ := by
  unfold dataXrefsAdd
  split_ifs with hany
  · -- it is there, as none of them is to data
    obtain ⟨y, hy, heq⟩ := List.any_eq_true.mp hany
    obtain ⟨rfl, rfl⟩ := of_decide_eq_true heq
    refine (or_iff_left_of_imp ?_).symm
    rintro rfl
    have htype := hback y hy
    rwa [← htype]
  · rw [List.mem_cons, or_comm]

/-- **The references that come back.** -/
theorem mem_foldl_addBack (xrefs : List XrefT) {back : List XrefT} (hback : ∀ e ∈ back, e.type = 0)
    (e : XrefT) :
    e ∈ xrefs.foldl (addBack env vaddr) back ↔
      e ∈ back ∨ ∃ x ∈ xrefs, x.type = 0 ∧ e = x.exchanged env vaddr := by
  induction xrefs generalizing back with
  | nil => simp
  | cons x xrefs ih =>
    have hmem : ∀ e, e ∈ addBack env vaddr back x ↔
        e ∈ back ∨ x.type = 0 ∧ e = x.exchanged env vaddr := by
      intro e
      unfold addBack
      split_ifs with htype
      · rw [mem_dataXrefsAdd hback]
        exact or_congr_right (and_iff_right htype).symm
      · exact (or_iff_left fun h => htype h.1).symm
    have hcode : ∀ e ∈ addBack env vaddr back x, e.type = 0 := by
      intro e he
      rcases (hmem e).mp he with he | ⟨-, rfl⟩
      · exact hback e he
      · rfl
    rw [List.foldl_cons, ih hcode, hmem, or_assoc, List.exists_mem_cons_iff]

/-- **A table comes back through its own lines exactly if all its references
are to code, and it is its own image under the exchange of addresses.** -/
theorem xrefsList_restores_iff (env : DataEnv) (n : ℕ) (state : State) (data : List DataT)
    (xrefs : List XrefT) :
    (∀ x ∈ xrefs, (env.label x.from_).Plain) ∧
        (∃ s', runDump env (n + 2) (dataXrefsList env xrefs) { session := ⟨state, ⟨data, []⟩⟩ } =
          some s' ∧ ∀ e, e ∈ s'.session.world.xrefs ↔ e ∈ xrefs) ↔
      (∀ x ∈ xrefs, (env.label x.from_).Plain ∧ x.type = 0) ∧
        ∀ e, e ∈ xrefs.map (XrefT.exchanged env state.config.vaddr) ↔ e ∈ xrefs := by
  have hback : ∀ e ∈ ([] : List XrefT), e.type = 0 := fun e he => absurd he List.not_mem_nil
  have hrun : (∀ x ∈ xrefs, (env.label x.from_).Plain) →
      ∃ t, runDump env (n + 2) (dataXrefsList env xrefs) { session := ⟨state, ⟨data, []⟩⟩ } =
          some { session := t } ∧
        ∀ e, e ∈ t.world.xrefs ↔ ∃ x ∈ xrefs, x.type = 0 ∧ e = x.exchanged env state.config.vaddr := by
    intro h
    obtain ⟨t, ht, hxrefs⟩ := runDump_xrefs (n := n) h
      (s := { session := ⟨state, ⟨data, []⟩⟩ }) rfl
    refine ⟨t, ht, fun e => ?_⟩
    rw [hxrefs, mem_foldl_addBack xrefs hback]
    exact or_iff_right List.not_mem_nil
  constructor
  · rintro ⟨hplain, s', hs', hsame⟩
    obtain ⟨t, ht, hmem⟩ := hrun hplain
    obtain rfl := Option.some.inj (ht.symm.trans hs')
    have htype : ∀ x ∈ xrefs, x.type = 0 := by
      intro x hx
      obtain ⟨y, -, -, rfl⟩ := (hmem x).mp ((hsame x).mpr hx)
      rfl
    refine ⟨fun x hx => ⟨hplain x hx, htype x hx⟩, fun e => ?_⟩
    rw [← hsame e, hmem e, List.mem_map]
    exact exists_congr fun x => and_congr_right fun hx =>
      ⟨fun h => ⟨htype x hx, h.symm⟩, fun h => h.2.symm⟩
  · rintro ⟨hall, himage⟩
    have hplain := fun x hx => (hall x hx).1
    obtain ⟨t, ht, hmem⟩ := hrun hplain
    refine ⟨hplain, _, ht, fun e => ?_⟩
    rw [← himage e, hmem e, List.mem_map]
    exact exists_congr fun x => and_congr_right fun hx =>
      ⟨fun h => h.2.symm, fun h => ⟨(hall x hx).2, h.symm⟩⟩

/-- A reference to `0x10` from `0x20` comes back as one to `0x20` from
`0x10`. -/
theorem reference_turned :
    ¬∀ (env : DataEnv) (n : ℕ) (state : State) (data : List DataT) (xrefs : List XrefT),
      (∀ x ∈ xrefs, (env.label x.from_).Plain) →
      ∃ s', runDump env (n + 2) (dataXrefsList env xrefs) { session := ⟨state, ⟨data, []⟩⟩ } =
        some s' ∧ ∀ e, e ∈ s'.session.world.xrefs ↔ e ∈ xrefs := by
  intro h
  have hplain : ∀ x ∈ [(⟨0x10, 0x20, 0⟩ : XrefT)], (bareEnv.label x.from_).Plain :=
    fun x _ c hc => absurd hc List.not_mem_nil
  obtain ⟨s', hs', hsame⟩ := h bareEnv 0 (openFile [] 1 1) [] [⟨0x10, 0x20, 0⟩] hplain
  obtain ⟨t, ht, hxrefs⟩ := runDump_xrefs (n := 0) hplain
    (s := { session := ⟨openFile [] 1 1, ⟨[], []⟩⟩ }) rfl
  obtain rfl := Option.some.inj (ht.symm.trans hs')
  have hturned : ⟨0x20, 0x10, 0⟩ ∈ t.world.xrefs := by
    rw [hxrefs]
    decide +kernel
  exact absurd ((hsame _).mp hturned) (by decide)

end Radare
