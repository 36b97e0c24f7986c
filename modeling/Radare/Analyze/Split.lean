import Mathlib.Data.List.Pairwise
import Mathlib.Data.List.Perm.Basic
import Radare.Analyze.Complete
import Radare.Common.Lookup
/-!
# Blocks that are split

A block of a program has the addresses from its own on, as many as it has bytes,
counted modulo 2^64. `program_block_split_new` looks for the block that an address
lies strictly inside of, by a comparison with its end that goes wrong where the end
is 0 or beyond (`splits_iff`); `program_block_split` is told the block. Both cut it
in two, the second part being a new block or the one that is already at its address.

The blocks of a program are in the order in which they are walked over, the last
first.
-/

namespace Radare

open Common

/-! ## The code -/

/-- The part of `struct program_t` that is changed here. -/
structure ProgramT where
  blocks : List BlockT
  nBlocks : ℕ

/-- `program_block_get_new`, and what is then done to the block. -/
def ProgramT.getNew (prg : ProgramT) (addr : ut64) (change : BlockT → BlockT) : ProgramT where
  blocks := programBlockGetNew prg.blocks addr change
  nBlocks := if (programBlockGet prg.blocks addr).isSome then prg.nBlocks else prg.nBlocks + 1

/-- The test of `program_block_split_new`. -/
def BlockT.splits (addr : ut64) (bt : BlockT) : Bool :=
  addr > bt.addr && addr < bt.addr + UInt64.ofNat bt.bytes.length

/-- `bt` behind the split: it goes on in the new block. -/
def BlockT.front (bt : BlockT) (addr : ut64) : BlockT :=
  { bt with
    type := .head
    bytes := bt.bytes.take (addr - bt.addr).toNat
    tnext := addr
    fnext := 0 }

/-- `bta`, which has what is left of `bt`. -/
def BlockT.rest (bt : BlockT) (addr : ut64) (bta : BlockT) : BlockT :=
  { bta with
    addr := addr
    bytes := bt.bytes.drop (addr - bt.addr).toNat
    tnext := bt.tnext
    fnext := bt.fnext }

/-- `program_block_split_new`. The two blocks are never one, so it does not matter
which is written first. -/
def ProgramT.splitNew (prg : ProgramT) (addr : ut64) : ProgramT :=
  match prg.blocks.find? (BlockT.splits addr) with
  | some bt =>
    ProgramT.getNew
      { prg with
        blocks := prg.blocks.modify (prg.blocks.findIdx (BlockT.splits addr)) fun bt =>
          bt.front addr } addr (bt.rest addr)
  | none => prg

/-- What is left of `n` bytes as an `int`. -/
def splitBytes (n offset : ℕ) : ℤ := Int.bmod ((n : ℤ) - offset) (2 ^ 32)

/-- `program_block_split`, of the block at the place `i`. -/
def ProgramT.split (prg : ProgramT) (i offset : ℕ) : ProgramT :=
  match prg.blocks[i]? with
  | none => prg
  | some block =>
    if splitBytes block.bytes.length offset < 1 then prg
    else
      ProgramT.getNew
        { prg with
          blocks := prg.blocks.modify i fun block =>
            { block with
              bytes := block.bytes.take offset
              tnext := block.addr + UInt64.ofNat offset
              fnext := 0 } }
        (block.addr + UInt64.ofNat offset) fun new =>
          { new with
            bytes := (block.bytes.drop offset).take (splitBytes block.bytes.length offset).toNat
            tnext := block.tnext
            fnext := block.tnext }

/-! ## Addresses of blocks -/

/-- The block has the address. -/
def BlockT.Has (bt : BlockT) (x : ut64) : Prop := (x - bt.addr).toNat < bt.bytes.length

/-- The address lies strictly inside of the block. -/
def BlockT.Inside (bt : BlockT) (x : ut64) : Prop := bt.Has x ∧ x ≠ bt.addr

/-- The block ends in front of the end of the addresses. -/
def BlockT.Ends (bt : BlockT) : Prop := bt.addr.toNat + bt.bytes.length < 2 ^ 64

/-- No address is in both blocks. -/
def BlockT.Parted (b c : BlockT) : Prop := ∀ x, ¬(b.Has x ∧ c.Has x)

/-- No address is in two blocks; `n_bytes` is an `unsigned int`. -/
structure ProgramT.Apart (prg : ProgramT) : Prop where
  fits : ∀ bt ∈ prg.blocks, bt.bytes.length < 2 ^ 32
  apart : prg.blocks.Pairwise BlockT.Parted

variable {prg : ProgramT} {bt block b c : BlockT} {addr x : ut64} {i offset : ℕ}
  {l₁ l₂ : List BlockT}

instance instSymmParted : Std.Symm BlockT.Parted := ⟨fun _ _ h x hx => h x hx.symm⟩

instance instDecidableBlockHas : Decidable (bt.Has x) := inferInstanceAs (Decidable (_ < _))

instance instDecidableBlockEnds : Decidable bt.Ends := inferInstanceAs (Decidable (_ < _))

theorem toNat_sub_cases (x a : ut64) :
    (x - a).toNat = if a.toNat ≤ x.toNat then x.toNat - a.toNat
      else 2 ^ 64 + x.toNat - a.toNat := by
  have hx := x.toNat_lt
  have ha := a.toNat_lt
  rw [UInt64.toNat_sub]
  split <;> omega

/-- **The comparison with the end** is right for a block that ends in front of
the end of the addresses, and finds nothing in any other. -/
theorem splits_iff (hfits : bt.bytes.length < 2 ^ 32) :
    bt.splits addr = true ↔ bt.Inside addr ∧ bt.Ends := by
  have ha := addr.toNat_lt
  have hb := bt.addr.toNat_lt
  have hsize : bt.bytes.length < 2 ^ 64 := by omega
  have hsub := toNat_sub_cases addr bt.addr
  have hend : (bt.addr + UInt64.ofNat bt.bytes.length).toNat =
      (bt.addr.toNat + bt.bytes.length) % 2 ^ 64 := by
    rw [UInt64.toNat_add, UInt64.toNat_ofNat_of_lt' hsize]
  have hne : addr ≠ bt.addr ↔ addr.toNat ≠ bt.addr.toNat := not_congr UInt64.toNat_inj.symm
  rw [BlockT.splits, Bool.and_eq_true, decide_eq_true_iff, decide_eq_true_iff, gt_iff_lt,
    UInt64.lt_iff_toNat_lt, UInt64.lt_iff_toNat_lt, hend, BlockT.Inside, BlockT.Has, BlockT.Ends,
    hne, hsub]
  split <;> omega

/-- **A block that has an address** is the only one, wherever the others are. -/
theorem ProgramT.Apart.others (h : prg.Apart) (hsplit : prg.blocks = l₁ ++ bt :: l₂)
    (hx : bt.Has x) : ∀ b ∈ l₁ ++ l₂, ¬b.Has x := by
  have hpart := h.apart
  rw [hsplit, List.pairwise_append, List.pairwise_cons] at hpart
  obtain ⟨-, ⟨hbehind, -⟩, hfront⟩ := hpart
  intro b hb hbx
  rcases List.mem_append.mp hb with hb | hb
  · exact hfront b hb bt List.mem_cons_self x ⟨hbx, hx⟩
  · exact hbehind b hb x ⟨hx, hbx⟩

/-- An address of two blocks makes them one. -/
theorem ProgramT.Apart.eq_of_has (h : prg.Apart) (hb : b ∈ prg.blocks) (hbt : bt ∈ prg.blocks)
    (hbx : b.Has x) (hx : bt.Has x) : b = bt := by
  obtain ⟨l₁, l₂, hsplit⟩ := List.append_of_mem hbt
  by_contra hne
  refine h.others hsplit hx b ?_ hbx
  rw [hsplit] at hb
  rcases List.mem_append.mp hb with hb | hb
  · exact List.mem_append_left _ hb
  · exact List.mem_append_right _ ((List.mem_cons.mp hb).resolve_left hne)

theorem ProgramT.Apart.not_splits (h : prg.Apart) (hb : b ∈ prg.blocks) (hx : ¬b.Has addr) :
    ¬b.splits addr = true := fun hs => hx ((splits_iff (h.fits b hb)).mp hs).1.1

/-! ## What the splits do -/

/-- Nothing is found: nothing changes. -/
theorem splitNew_of_none (h : ∀ b ∈ prg.blocks, ¬b.splits addr = true) :
    prg.splitNew addr = prg := by
  rw [ProgramT.splitNew, List.find?_eq_none.mpr h]

/-- The block that is found, in its place. -/
theorem splitNew_of_splits (h : prg.Apart) (hsplit : prg.blocks = l₁ ++ bt :: l₂)
    (hin : bt.Inside addr) (hends : bt.Ends) :
    prg.splitNew addr =
      ProgramT.getNew { prg with blocks := l₁ ++ bt.front addr :: l₂ } addr (bt.rest addr) := by
  have hbt : bt ∈ prg.blocks := by
    rw [hsplit]
    exact List.mem_append_right l₁ List.mem_cons_self
  have hhit : bt.splits addr = true := (splits_iff (h.fits bt hbt)).mpr ⟨hin, hends⟩
  have hmiss : ∀ b ∈ l₁, ¬b.splits addr = true := by
    intro b hb
    refine h.not_splits ?_ (h.others hsplit hin.1 b (List.mem_append_left l₂ hb))
    rw [hsplit]
    exact List.mem_append_left _ hb
  have hfind : prg.blocks.find? (BlockT.splits addr) = some bt := by
    rw [hsplit, List.find?_append, List.find?_eq_none.mpr hmiss, Option.none_or,
      List.find?_cons_of_pos hhit]
  have hidx : prg.blocks.findIdx (BlockT.splits addr) = l₁.length := by
    rw [hsplit, List.findIdx_append, List.findIdx_cons, hhit,
      List.findIdx_eq_length_of_false fun b hb => Bool.eq_false_iff.mpr (hmiss b hb)]
    simp
  rw [ProgramT.splitNew, hfind]
  simp only [hidx]
  rw [hsplit, modify_length]

/-! ## A block that is split -/

theorem has_front (h : (addr - bt.addr).toNat ≤ bt.bytes.length) :
    (bt.front addr).Has x ↔ (x - bt.addr).toNat < (addr - bt.addr).toNat := by
  have hlen : (bt.front addr).bytes.length = (addr - bt.addr).toNat := List.length_take_of_le h
  rw [BlockT.Has, hlen]
  rfl

theorem has_rest : (bt.rest addr b).Has x ↔
    (x - addr).toNat < bt.bytes.length - (addr - bt.addr).toNat := by
  have hlen : (bt.rest addr b).bytes.length = bt.bytes.length - (addr - bt.addr).toNat :=
    List.length_drop
  rw [BlockT.Has, hlen]
  rfl

/-- **Both parts have addresses of the block, and none together.** -/
theorem parts_parted (hin : bt.Has addr) (hfits : bt.bytes.length < 2 ^ 32) :
    ((bt.front addr).Has x → bt.Has x) ∧ ((bt.rest addr b).Has x → bt.Has x) ∧
      ¬((bt.front addr).Has x ∧ (bt.rest addr b).Has x) := by
  have hx := x.toNat_lt
  have ha := addr.toNat_lt
  have hb := bt.addr.toNat_lt
  have h1 := toNat_sub_cases x bt.addr
  have h2 := toNat_sub_cases x addr
  have h3 := toNat_sub_cases addr bt.addr
  have hin' : (addr - bt.addr).toNat < bt.bytes.length := hin
  rw [has_front hin'.le, has_rest, BlockT.Has]
  split_ifs at h1 h2 h3 <;> omega

/-- **The program with the block in two**, and all others as they were. -/
structure SplitAt (prg prg' : ProgramT) (bt : BlockT) (addr : ut64) (front rest : BlockT)
    (others : List BlockT) : Prop where
  blocks : prg.blocks.Perm (bt :: others)
  blocks' : prg'.blocks.Perm (front :: rest :: others)
  front_addr : front.addr = bt.addr
  rest_addr : rest.addr = addr
  adjacent : rest.addr = front.addr + UInt64.ofNat front.bytes.length
  bytes : front.bytes ++ rest.bytes = bt.bytes
  front_tnext : front.tnext = rest.addr
  front_fnext : front.fnext = 0
  rest_tnext : rest.tnext = bt.tnext
  rest_fnext : rest.fnext = bt.fnext
  apart : prg'.Apart
  nBlocks : prg'.nBlocks = prg.nBlocks + 1

/-- The program with a block taken apart is apart. -/
theorem apart_split (h : prg.Apart) (hsplit : prg.blocks = l₁ ++ bt :: l₂) (hin : bt.Has addr)
    (hn : ℕ) :
    ProgramT.Apart ⟨bt.rest addr (blockNew addr) :: (l₁ ++ bt.front addr :: l₂), hn⟩ := by
  have hbt : bt ∈ prg.blocks := by
    rw [hsplit]
    exact List.mem_append_right l₁ List.mem_cons_self
  have hfits := h.fits bt hbt
  have hperm : (bt.rest addr (blockNew addr) :: (l₁ ++ bt.front addr :: l₂)).Perm
      (bt.rest addr (blockNew addr) :: bt.front addr :: (l₁ ++ l₂)) :=
    List.Perm.cons _ List.perm_middle
  have hmem : ∀ b ∈ l₁ ++ l₂, b ∈ prg.blocks := by
    intro b hb
    rw [hsplit]
    rcases List.mem_append.mp hb with hb | hb
    · exact List.mem_append_left _ hb
    · exact List.mem_append_right _ (List.mem_cons_of_mem bt hb)
  have hold : (bt :: (l₁ ++ l₂)).Pairwise BlockT.Parted := by
    have hpart := h.apart
    rw [hsplit] at hpart
    exact (List.perm_middle.pairwise_iff fun hbc => Std.Symm.symm _ _ hbc).mp hpart
  obtain ⟨hbt', hrest⟩ := List.pairwise_cons.mp hold
  constructor
  · intro b hb
    rcases List.mem_cons.mp (hperm.mem_iff.mp hb) with rfl | hb
    · have hlen : (bt.rest addr (blockNew addr)).bytes.length ≤ bt.bytes.length := by
        show (bt.bytes.drop _).length ≤ _
        rw [List.length_drop]
        omega
      omega
    · rcases List.mem_cons.mp hb with rfl | hb
      · have hlen : (bt.front addr).bytes.length ≤ bt.bytes.length := List.length_take_le' _ _
        omega
      · exact h.fits b (hmem b hb)
  · refine (hperm.pairwise_iff fun hbc => Std.Symm.symm _ _ hbc).mpr ?_
    refine List.pairwise_cons.mpr ⟨fun b hb x hx => ?_, List.pairwise_cons.mpr
      ⟨fun b hb x hx => ?_, hrest⟩⟩
    · obtain ⟨hfront, hback, hnot⟩ :=
        parts_parted (x := x) (b := blockNew addr) hin hfits
      rcases List.mem_cons.mp hb with rfl | hb
      · exact hnot hx.symm
      · exact hbt' b hb x ⟨hback hx.1, hx.2⟩
    · obtain ⟨hfront, -, -⟩ := parts_parted (x := x) (b := blockNew addr) hin hfits
      exact hbt' b hb x ⟨hfront hx.1, hx.2⟩

/-- **A block that ends and an address without a block**: the block is split. -/
theorem splitAt_splitNew (h : prg.Apart) (hbt : bt ∈ prg.blocks) (hin : bt.Inside addr)
    (hends : bt.Ends) (hfree : ∀ b ∈ prg.blocks, b.addr ≠ addr) :
    ∃ others, SplitAt prg (prg.splitNew addr) bt addr (bt.front addr)
      (bt.rest addr (blockNew addr)) others := by
  obtain ⟨l₁, l₂, hsplit⟩ := List.append_of_mem hbt
  have hfree' : addr ∉ (l₁ ++ bt.front addr :: l₂).map BlockT.addr := by
    have haddrs : (l₁ ++ bt.front addr :: l₂).map BlockT.addr = prg.blocks.map BlockT.addr := by
      rw [hsplit, List.map_append, List.map_append]
      rfl
    rw [haddrs]
    intro hmem
    obtain ⟨b, hb, heq⟩ := List.mem_map.mp hmem
    exact hfree b hb heq
  have hin' : (addr - bt.addr).toNat < bt.bytes.length := hin.1
  have hnew : prg.splitNew addr =
      ⟨bt.rest addr (blockNew addr) :: (l₁ ++ bt.front addr :: l₂), prg.nBlocks + 1⟩ := by
    rw [splitNew_of_splits h hsplit hin hends, ProgramT.getNew, programBlockGetNew_new hfree',
      if_neg fun hsome => hfree' (programBlockGet_isSome.mp hsome)]
  have hlen : (bt.front addr).bytes.length = (addr - bt.addr).toNat :=
    List.length_take_of_le hin'.le
  refine ⟨l₁ ++ l₂, ?_, ?_, rfl, rfl, ?_, List.take_append_drop _ _, rfl, rfl, rfl, rfl, ?_, ?_⟩
  · rw [hsplit]
    exact List.perm_middle
  · rw [hnew]
    exact (List.Perm.cons _ List.perm_middle).trans (List.Perm.swap _ _ _)
  · rw [hlen, UInt64.ofNat_toNat]
    show addr = bt.addr + (addr - bt.addr)
    rw [UInt64.add_comm, UInt64.sub_add_cancel]
  · rw [hnew]
    exact apart_split h hsplit hin.1 _
  · rw [hnew]

/-- Where a block is already there, none is added. -/
theorem nBlocks_splitNew_of_mem (hb : b ∈ prg.blocks) (haddr : b.addr = addr) :
    (prg.splitNew addr).nBlocks = prg.nBlocks := by
  rw [ProgramT.splitNew]
  split
  · have hmem : addr ∈ (prg.blocks.modify (prg.blocks.findIdx (BlockT.splits addr)) fun bt =>
        bt.front addr).map BlockT.addr := by
      have haddrs := map_changeAt (f := fun bt => BlockT.front bt addr) (g := BlockT.addr)
        prg.blocks (some (prg.blocks.findIdx (BlockT.splits addr))) fun _ => rfl
      rw [changeAt] at haddrs
      rw [haddrs]
      exact List.mem_map.mpr ⟨b, hb, haddr⟩
    rw [ProgramT.getNew, if_pos (programBlockGet_isSome.mpr hmem)]
  · rfl

/-- **Splitting a block preserves the program**: the block that an address lies
strictly inside of is replaced by its two parts and nothing else changes, and for any
other address nothing changes at all, exactly when the block ends in front of the end
of the addresses and no block is already at the address. -/
theorem splitNew_iff (prg : ProgramT) (h : prg.Apart) (addr : ut64) :
    ((∀ bt ∈ prg.blocks, bt.Inside addr → ∃ front rest others,
      SplitAt prg (prg.splitNew addr) bt addr front rest others) ∧
      ((∀ bt ∈ prg.blocks, ¬bt.Inside addr) → prg.splitNew addr = prg)) ↔
      ∀ bt ∈ prg.blocks, bt.Inside addr → bt.Ends ∧ ∀ b ∈ prg.blocks, b.addr ≠ addr := by
  constructor
  · rintro ⟨hsplit, -⟩ bt hbt hin
    obtain ⟨front, rest, others, hat⟩ := hsplit bt hbt hin
    constructor
    · by_contra hends
      have hnone : ∀ b ∈ prg.blocks, ¬b.splits addr = true := by
        intro b hb hs
        obtain ⟨hb', hends'⟩ := (splits_iff (h.fits b hb)).mp hs
        have heq := h.eq_of_has hb hbt hb'.1 hin.1
        exact hends (heq ▸ hends')
      have hcount := hat.nBlocks
      rw [splitNew_of_none hnone] at hcount
      omega
    · intro b hb haddr
      have hcount := hat.nBlocks
      rw [nBlocks_splitNew_of_mem hb haddr] at hcount
      omega
  · intro hall
    constructor
    · intro bt hbt hin
      obtain ⟨hends, hfree⟩ := hall bt hbt hin
      obtain ⟨others, hat⟩ := splitAt_splitNew h hbt hin hends hfree
      exact ⟨_, _, others, hat⟩
    · intro hout
      exact splitNew_of_none fun b hb hs =>
        hout b hb ((splits_iff (h.fits b hb)).mp hs).1

/-- A program of one block, of four bytes. -/
def oneBlock (addr tnext fnext : ut64) : ProgramT :=
  ⟨[⟨addr, .body, [0x90, 0x90, 0x90, 0xc3], tnext, fnext, []⟩], 1⟩

theorem oneBlock_apart (addr tnext fnext : ut64) : (oneBlock addr tnext fnext).Apart where
  fits := by
    intro bt hbt
    rw [List.mem_singleton.mp hbt]
    show 4 < 2 ^ 32
    omega
  apart := List.pairwise_singleton _ _

theorem splitNew_iff_middle :
    ∃ bt ∈ (oneBlock 0x1000 1 2).blocks, ∃ front rest others,
      SplitAt (oneBlock 0x1000 1 2) ((oneBlock 0x1000 1 2).splitNew 0x1002) bt 0x1002 front rest
        others := by
  have hends : ∀ bt ∈ (oneBlock 0x1000 1 2).blocks, bt.Inside 0x1002 →
      bt.Ends ∧ ∀ b ∈ (oneBlock 0x1000 1 2).blocks, b.addr ≠ 0x1002 := by
    intro bt hbt _
    rw [List.mem_singleton.mp hbt]
    exact ⟨by decide +kernel, by decide +kernel⟩
  have hall := (splitNew_iff (oneBlock 0x1000 1 2) (oneBlock_apart 0x1000 1 2) 0x1002).mpr hends
  exact ⟨_, List.mem_singleton_self _, hall.1 _ (List.mem_singleton_self _)
    ⟨by decide +kernel, by decide +kernel⟩⟩

/-- The last four bytes there are, and the address in their middle. -/
theorem last_block_not_split :
    (oneBlock (-4) 1 2).Apart ∧ ∃ bt ∈ (oneBlock (-4) 1 2).blocks, bt.Inside (-2) ∧
      ¬∃ front rest others,
        SplitAt (oneBlock (-4) 1 2) ((oneBlock (-4) 1 2).splitNew (-2)) bt (-2) front rest
          others := by
  refine ⟨oneBlock_apart (-4) 1 2, _, List.mem_singleton_self _,
    ⟨by decide +kernel, by decide +kernel⟩, ?_⟩
  rintro ⟨front, rest, others, hat⟩
  have hcount : ((oneBlock (-4) 1 2).splitNew (-2)).nBlocks = 1 := by decide +kernel
  have hmore := hat.nBlocks
  rw [hcount] at hmore
  exact absurd hmore (by decide)

/-! ## The two splits -/

/-- What a block is compared by. -/
def BlockT.view (bt : BlockT) : ut64 × List u8 × ut64 × ut64 :=
  (bt.addr, bt.bytes, bt.tnext, bt.fnext)

/-- A block put where its address is, or first. -/
def putView (views : List (ut64 × List u8 × ut64 × ut64)) (v : ut64 × List u8 × ut64 × ut64) :
    List (ut64 × List u8 × ut64 × ut64) :=
  if ∃ w ∈ views, w.1 = v.1 then views.set (views.findIdx fun w => w.1 = v.1) v else v :: views

/-- **A block that is got and filled** is seen as what it is filled with. -/
theorem map_view_getNew (blocks : List BlockT) (change : BlockT → BlockT)
    {v : ut64 × List u8 × ut64 × ut64} (hv : ∀ b, b.addr = v.1 → (change b).view = v) :
    (programBlockGetNew blocks v.1 change).map BlockT.view =
      putView (blocks.map BlockT.view) v := by
  have haddrs : (∃ w ∈ blocks.map BlockT.view, w.1 = v.1) ↔ v.1 ∈ blocks.map BlockT.addr := by
    simp only [List.mem_map, exists_exists_and_eq_and]
    rfl
  rw [putView, if_congr haddrs rfl rfl, programBlockGetNew]
  by_cases hmem : v.1 ∈ blocks.map BlockT.addr
  · rw [if_pos (programBlockGet_isSome.mpr hmem), if_pos hmem]
    clear haddrs
    induction blocks with
    | nil => cases hmem
    | cons b blocks ih =>
      rw [List.map_cons, List.findIdx_cons, List.findIdx_cons]
      by_cases hb : b.addr = v.1
      · have hb' : b.view.1 = v.1 := hb
        simp only [hb, hb', decide_true, cond_true, List.modify_zero_cons, List.set_cons_zero,
          List.map_cons, hv b hb]
      · have hb' : ¬b.view.1 = v.1 := hb
        have hrest := ih ((List.mem_cons.mp hmem).resolve_left fun h => hb h.symm)
        simp only [hb, hb', decide_false, cond_false, List.modify_succ_cons, List.set_cons_succ,
          List.map_cons, hrest]
  · rw [if_neg fun hsome => hmem (programBlockGet_isSome.mp hsome), if_neg hmem, List.map_cons,
      hv _ rfl]

theorem putView_inj {views : List (ut64 × List u8 × ut64 × ut64)}
    {v w : ut64 × List u8 × ut64 × ut64} (haddr : v.1 = w.1) :
    putView views v = putView views w ↔ v = w := by
  refine ⟨fun h => ?_, fun h => by rw [h]⟩
  rw [putView, putView, ← haddr] at h
  split at h
  · rename_i hmem
    have hlt : (views.findIdx fun u => u.1 = v.1) < views.length := by
      obtain ⟨u, hu, heq⟩ := hmem
      exact List.findIdx_lt_length_of_exists ⟨u, hu, decide_eq_true heq⟩
    have hget := congrArg (fun l => l[views.findIdx fun u => u.1 = v.1]?) h
    simp only [List.getElem?_set_self hlt] at hget
    exact Option.some.inj hget
  · exact (List.cons.inj h).1

/-- What is left of the bytes is an `int` above 0, or it is taken for an error. -/
theorem splitBytes_lt_one (h0 : offset < block.bytes.length)
    (hfits : block.bytes.length < 2 ^ 32) :
    splitBytes block.bytes.length offset < 1 ↔ ¬block.bytes.length - offset < 2 ^ 31 := by
  rw [splitBytes, Int.bmod_def]
  split <;> omega

/-- The first part, as both splits leave it. -/
def BlockT.cut (offset : ℕ) (block : BlockT) : BlockT :=
  { block with
    bytes := block.bytes.take offset
    tnext := block.addr + UInt64.ofNat offset
    fnext := 0 }

/-- The second part, with this edge for the condition that is false. -/
def BlockT.tailView (offset : ℕ) (fnext : ut64) (block : BlockT) : ut64 × List u8 × ut64 × ut64 :=
  (block.addr + UInt64.ofNat offset, block.bytes.drop offset, block.tnext, fnext)

section Agree

variable (h : prg.Apart) (hsplit : prg.blocks = l₁ ++ block :: l₂)
  (h0 : 0 < offset) (hlt : offset < block.bytes.length)

include h hsplit h0 hlt

omit h0 in
theorem toNat_offset : UInt64.ofNat offset = block.addr + UInt64.ofNat offset - block.addr ∧
    (UInt64.ofNat offset).toNat = offset := by
  have hmem : block ∈ prg.blocks := by
    rw [hsplit]
    exact List.mem_append_right l₁ List.mem_cons_self
  have hfits := h.fits block hmem
  have hsize : offset < 2 ^ 64 := by omega
  refine ⟨?_, UInt64.toNat_ofNat_of_lt' hsize⟩
  rw [UInt64.add_comm, UInt64.add_sub_cancel]

/-- The address behind the offset lies inside of the block. -/
theorem inside_offset : block.Inside (block.addr + UInt64.ofNat offset) := by
  obtain ⟨hsub, hoff⟩ := toNat_offset h hsplit hlt
  rw [BlockT.Inside, BlockT.Has, ← hsub, hoff]
  refine ⟨hlt, fun heq => ?_⟩
  have hself := congrArg (fun x => (x - block.addr).toNat) heq
  simp only [← hsub, hoff, UInt64.sub_self] at hself
  rw [hself] at h0
  exact absurd h0 (by decide)

/-- **The split by the address**, as it is seen. -/
theorem view_splitNew : (prg.splitNew (block.addr + UInt64.ofNat offset)).blocks.map BlockT.view =
    if block.Ends then
      putView ((l₁ ++ block.cut offset :: l₂).map BlockT.view) (block.tailView offset block.fnext)
    else prg.blocks.map BlockT.view := by
  have hin := inside_offset h hsplit h0 hlt
  obtain ⟨hsub, hoff⟩ := toNat_offset h hsplit hlt
  by_cases hends : block.Ends
  · have hchange : ∀ b : BlockT, b.addr = (block.tailView offset block.fnext).1 →
        (block.rest (block.addr + UInt64.ofNat offset) b).view =
          block.tailView offset block.fnext := by
      intro b hb
      simp only [BlockT.view, BlockT.rest, BlockT.tailView, ← hsub, hoff]
    have hfront : (block.front (block.addr + UInt64.ofNat offset)).view =
        (block.cut offset).view := by
      simp only [BlockT.view, BlockT.front, BlockT.cut, ← hsub, hoff]
    have hlist : (l₁ ++ block.front (block.addr + UInt64.ofNat offset) :: l₂).map BlockT.view =
        (l₁ ++ block.cut offset :: l₂).map BlockT.view := by
      rw [List.map_append, List.map_append, List.map_cons, List.map_cons, hfront]
    rw [if_pos hends, splitNew_of_splits h hsplit hin hends, ← hlist]
    exact map_view_getNew _ _ hchange
  · have hnone : ∀ b ∈ prg.blocks, ¬b.splits (block.addr + UInt64.ofNat offset) = true := by
      intro b hb hs
      have hmem : block ∈ prg.blocks := by
        rw [hsplit]
        exact List.mem_append_right l₁ List.mem_cons_self
      obtain ⟨hb', hends'⟩ := (splits_iff (h.fits b hb)).mp hs
      have heq := h.eq_of_has hb hmem hb'.1 hin.1
      exact hends (heq ▸ hends')
    rw [if_neg hends, splitNew_of_none hnone]

/-- **The split of the block**, as it is seen. -/
theorem view_split : (prg.split l₁.length offset).blocks.map BlockT.view =
    if block.bytes.length - offset < 2 ^ 31 then
      putView ((l₁ ++ block.cut offset :: l₂).map BlockT.view) (block.tailView offset block.tnext)
    else prg.blocks.map BlockT.view := by
  have hmem : block ∈ prg.blocks := by
    rw [hsplit]
    exact List.mem_append_right l₁ List.mem_cons_self
  have hfits := h.fits block hmem
  have hget : prg.blocks[l₁.length]? = some block := by
    rw [hsplit, List.getElem?_append_right le_rfl, Nat.sub_self]
    rfl
  have hone := splitBytes_lt_one hlt hfits
  rw [ProgramT.split, hget]
  by_cases hint : block.bytes.length - offset < 2 ^ 31
  · have hbytes : (splitBytes block.bytes.length offset).toNat = block.bytes.length - offset := by
      rw [splitBytes, Int.bmod_def]
      split <;> omega
    have htake : (block.bytes.drop offset).take (splitBytes block.bytes.length offset).toNat =
        block.bytes.drop offset := by
      rw [hbytes, ← List.length_drop, List.take_length]
    have hchange : ∀ b : BlockT, b.addr = (block.tailView offset block.tnext).1 →
        BlockT.view { b with
          bytes := block.bytes.drop offset
          tnext := block.tnext
          fnext := block.tnext } = block.tailView offset block.tnext := by
      intro b hb
      rw [BlockT.view, hb]
      rfl
    simp only [if_neg fun hneg => hone.mp hneg hint, if_pos hint, htake]
    rw [ProgramT.getNew, hsplit, modify_length]
    exact map_view_getNew (l₁ ++ block.cut offset :: l₂) _ hchange
  · simp only [if_pos (hone.mpr hint), if_neg hint]

/-- A block that is cut is seen. -/
theorem view_cut_ne (fnext : ut64) : prg.blocks.map BlockT.view ≠
    putView ((l₁ ++ block.cut offset :: l₂).map BlockT.view) (block.tailView offset fnext) := by
  have hne := (inside_offset h hsplit h0 hlt).2
  intro heq
  rw [putView] at heq
  split at heq
  · -- the block itself is another one than that with the rest
    have hplace : ((l₁ ++ block.cut offset :: l₂).map BlockT.view)[l₁.length]? =
        some (block.cut offset).view := by
      rw [List.getElem?_map, List.getElem?_append_right le_rfl, Nat.sub_self]
      rfl
    have hother : (((l₁ ++ block.cut offset :: l₂).map BlockT.view).findIdx fun w =>
        w.1 = (block.tailView offset fnext).1) ≠ l₁.length := by
      intro hidx
      rw [← hidx] at hplace
      have hfound := List.findIdx_of_getElem?_eq_some hplace
      have haddr : block.addr = block.addr + UInt64.ofNat offset := of_decide_eq_true hfound
      exact hne haddr.symm
    have hget := congrArg (fun l => l[l₁.length]?) heq
    simp only [List.getElem?_set_ne hother, hplace] at hget
    rw [hsplit, List.getElem?_map, List.getElem?_append_right le_rfl, Nat.sub_self] at hget
    have hbytes : block.bytes = block.bytes.take offset :=
      congrArg (fun v => v.2.1) (Option.some.inj hget)
    have hlen := congrArg List.length hbytes
    rw [List.length_take] at hlen
    omega
  · have hlen := congrArg List.length heq
    rw [hsplit] at hlen
    simp only [List.length_map, List.length_append, List.length_cons] at hlen
    omega

/-- **The two splits agree**, of a block and at an offset inside of it, exactly when
both go ahead and the block has one edge twice, or neither goes ahead. -/
theorem splits_agree_at :
    (prg.split l₁.length offset).blocks.map BlockT.view =
        (prg.splitNew (block.addr + UInt64.ofNat offset)).blocks.map BlockT.view ↔
      (block.bytes.length - offset < 2 ^ 31 ↔ block.Ends) ∧
        (block.Ends → block.tnext = block.fnext) := by
  have hne := view_cut_ne h hsplit h0 hlt
  rw [view_split h hsplit h0 hlt, view_splitNew h hsplit h0 hlt]
  by_cases hint : block.bytes.length - offset < 2 ^ 31
  · rw [if_pos hint]
    by_cases hends : block.Ends
    · rw [if_pos hends, putView_inj (v := block.tailView offset block.tnext)
        (w := block.tailView offset block.fnext) rfl]
      constructor
      · intro heq
        exact ⟨iff_of_true hint hends, fun _ => congrArg (fun v => v.2.2.2) heq⟩
      · rintro ⟨-, hedge⟩
        rw [hedge hends]
    · rw [if_neg hends]
      refine iff_of_false (fun heq => hne _ heq.symm) ?_
      rintro ⟨hboth, -⟩
      exact hends (hboth.mp hint)
  · rw [if_neg hint]
    by_cases hends : block.Ends
    · rw [if_pos hends]
      refine iff_of_false (hne _) ?_
      rintro ⟨hboth, -⟩
      exact hint (hboth.mpr hends)
    · rw [if_neg hends]
      exact iff_of_true rfl ⟨iff_of_false hint hends, fun hend => absurd hend hends⟩

end Agree

/-- **The two splitters agree** on every block and offset inside of it exactly when
the block ends in front of the end of the addresses just if the rest fits an `int`,
and has one edge twice if it does. -/
theorem splitters_agree_iff (prg : ProgramT) (h : prg.Apart) (i : ℕ) (block : BlockT)
    (hblock : prg.blocks[i]? = some block) (offset : ℕ) (h0 : 0 < offset)
    (hlt : offset < block.bytes.length) :
    (prg.split i offset).blocks.map BlockT.view =
        (prg.splitNew (block.addr + UInt64.ofNat offset)).blocks.map BlockT.view ↔
      (block.bytes.length - offset < 2 ^ 31 ↔ block.Ends) ∧
        (block.Ends → block.tnext = block.fnext) := by
  obtain ⟨hi, hget⟩ := List.getElem?_eq_some_iff.mp hblock
  have hsplit : prg.blocks = prg.blocks.take i ++ block :: prg.blocks.drop (i + 1) := by
    rw [← hget, ← List.drop_eq_getElem_cons hi, List.take_append_drop]
  have hlen : (prg.blocks.take i).length = i := List.length_take_of_le hi.le
  have hat := splits_agree_at h hsplit h0 hlt
  rwa [hlen] at hat

theorem splitters_agree_jump :
    ((oneBlock 0x1000 5 5).split 0 2).blocks.map BlockT.view =
      ((oneBlock 0x1000 5 5).splitNew (0x1000 + UInt64.ofNat 2)).blocks.map BlockT.view :=
  (splitters_agree_iff (oneBlock 0x1000 5 5) (oneBlock_apart 0x1000 5 5) 0 _ rfl 2 (by decide)
    (by decide)).mpr ⟨by decide +kernel, fun _ => rfl⟩

/-- A block with two edges is not split alike. -/
theorem two_edges_not_agree :
    (oneBlock 0x1000 5 6).Apart ∧
      ((oneBlock 0x1000 5 6).split 0 2).blocks.map BlockT.view ≠
        ((oneBlock 0x1000 5 6).splitNew (0x1000 + UInt64.ofNat 2)).blocks.map BlockT.view :=
  ⟨oneBlock_apart 0x1000 5 6, by decide +kernel⟩

end Radare
