import Radare.Common.Evict
import Radare.Data.Command
/-!
# Items through their own lines

The line of an item says its type, its length, the argument of a structure,
and its address. The command reads the length, sets the block size to it, and
makes an item of a block at the seek, which was sought twice by then. The
argument it keeps is all that is behind the first digit of the length (for a
function, the length too), so that a structure comes back with a longer
argument than it had. And an item that starts inside one that came back
before it takes that out.
-/

namespace Radare

open Common

variable {env : DataEnv} {n : ℕ} {d : DataT} {s t : Program} {data : List DataT} {vaddr : ut64}

/-! ## Lines of items -/

/-- A type that `data_list` has a letter for. -/
def DataType.Listed : DataType → Prop
  | .code => False
  | .other _ => False
  | _ => True

instance : DecidablePred DataType.Listed := fun type => by
  cases type <;> (unfold DataType.Listed; infer_instance)

/-- An item on a plain line; the argument of a structure is a string that the
item holds whole. -/
structure DataT.Plain (env : DataEnv) (d : DataT) : Prop where
  label : (env.label d.from_).Plain
  arg : d.type = .struct_ → ∀ c ∈ d.arg, Cmd.PlainChar c ∧ c ≠ 64
  length : d.type = .struct_ → d.arg.length < 128

/-- The length, as it is printed. -/
def DataT.len (d : DataT) : ut64 := d.to_ - d.from_

/-- What is behind the letter and a blank, up to the `@`. -/
def DataT.rest (d : DataT) : List u8 :=
  longText d.len ++ 32 :: if d.type = .struct_ then d.arg else []

/-- Where the item comes back: the seek there, and the one for the block of
its length. -/
def DataT.start (env : DataEnv) (vaddr : ut64) (d : DataT) : ut64 :=
  seekAt vaddr (seekAt vaddr (env.nums.address d.from_ (env.label d.from_)))

/-- The argument that comes back. -/
def DataT.lineArg (d : DataT) : List u8 :=
  (if d.type = .fun_ then d.rest else d.rest.tail).take 128

/-- The block size that the length is read as. -/
def DataT.block (env : DataEnv) (d : DataT) : ℤ :=
  Cmd.allocatedSize (Cmd.toInt (env.nums.named (longText d.len ++ [32]) d.len))

/-- The item that comes back, with a block size. -/
def DataT.remade (env : DataEnv) (vaddr : ut64) (blockSize : ℤ) (d : DataT) : DataT :=
  { dataNew ⟨blockSize, false, 0, 0, 0⟩ (d.start env vaddr) d.type with arg := d.lineArg }

/-- What the line of an item puts into the table, and where. -/
structure DataT.Puts (env : DataEnv) (vaddr : ut64) (d : DataT) (p : ut64 × Option DataT) :
    Prop where
  start : p.1 = d.start env vaddr
  item : ∃ blockSize : ℤ, 1 ≤ blockSize ∧ blockSize + 32 < 2 ^ 31 ∧
    (d.type ≠ .struct_ → d.len < 2 ^ 63 → blockSize = d.block env) ∧
    p.2 = if d.type.Listed then some (d.remade env vaddr blockSize) else none

/-- The command of a line. -/
def itemCommand (d : DataT) : List u8 := d.type.letter :: 32 :: d.rest

theorem itemLine_eq (env : DataEnv) (d : DataT) :
    itemLine env d = dumpLine (itemCommand d) d.from_ (env.label d.from_) := by
  simp [itemLine, dumpLine, itemCommand, DataT.rest, DataT.len]

theorem of_mem_longText_int {n : ut64} {c : u8} (hc : c ∈ longText n) : c = 45 ∨ 48 ≤ c ∧ c ≤ 57 := by
  unfold longText at hc
  split_ifs at hc
  · exact Or.inr (of_mem_decText hc)
  · exact (List.mem_cons.mp hc).imp id of_mem_decText

theorem plainLine_itemLine (h : d.Plain env) :
    Cmd.PlainLine (itemLine env d) (67 :: itemCommand d)
      (32 :: addressText d.from_ (env.label d.from_)) := by
  have hchar : ∀ c ∈ itemCommand d, Cmd.PlainChar c ∧ c ≠ 64 := by
    intro c hc
    unfold itemCommand DataT.rest at hc
    simp only [List.mem_cons, List.mem_append] at hc
    have hletter : d.type.letter ∈ ([117, 102, 70, 100, 115, 109, 99] : List u8) := by
      unfold DataType.letter
      split <;> decide
    have hletters : ∀ c ∈ ([117, 102, 70, 100, 115, 109, 99] : List u8),
        Cmd.PlainChar c ∧ c ≠ 64 := by decide +kernel
    rcases hc with rfl | rfl | hc | rfl | hc
    · exact hletters _ hletter
    · decide
    · exact plainChar_of_printed (Or.inr ((of_mem_longText_int hc).imp id Or.inl))
    · decide
    · split_ifs at hc with hstruct
      · exact h.arg hstruct c hc
      · cases hc
  rw [itemLine_eq]
  exact plainLine_dumpLine h.label (fun c hc => (hchar c hc).1) fun hc => (hchar 64 hc).2 rfl

/-! ## What a line does -/

theorem length_radareRead (s : State) :
    (radareRead s false).1.config.block.length = s.config.block.length := by
  have hoverlay : ∀ buf data : List u8, data.length ≤ buf.length →
      (overlay buf data).length = buf.length := by
    intro buf data hle
    rw [overlay, List.length_append, List.length_drop]
    omega
  unfold radareRead
  by_cases hseek : s.config.seek = -1
  · rw [if_pos hseek]
  · rw [if_neg hseek]
    refine (hoverlay _ _ ?_).trans List.length_replicate
    rw [List.length_replicate]
    exact ioRead_length_le

/-- One byte at least, and 32 more go into an `int`. -/
theorem allocatedSize_bounds (sz : ℤ) :
    1 ≤ Cmd.allocatedSize sz ∧ Cmd.allocatedSize sz + 32 < 2 ^ 31 := by
  unfold Cmd.allocatedSize
  split_ifs with hfits
  · exact ⟨le_max_left _ _, hfits⟩
  · omega

/-- The program with a block of a size. -/
theorem radareSetBlockSizeI_spec {W : Type} (env : Cmd.CmdEnv W) (s : State) (sz : ℤ) :
    ((Cmd.radareSetBlockSizeI env s sz).config.block.length : ℤ) = Cmd.allocatedSize sz ∧
      (Cmd.radareSetBlockSizeI env s sz).config.seek = seekAt s.config.vaddr s.config.seek ∧
      (Cmd.radareSetBlockSizeI env s sz).config.vaddr = s.config.vaddr := by
  refine ⟨?_, seek_radareRead, vaddr_radareRead _⟩
  unfold Cmd.radareSetBlockSizeI
  have hpos := (allocatedSize_bounds sz).1
  rw [length_radareRead, malloc, List.length_map, List.length_range]
  omega

/-- **An item of a length**, outside of cursor mode. -/
theorem addItem_spec (hcursor : env.cursorMode = false) (len : ut64) (type : DataType)
    (arg : List u8) (s : Program) :
    (addItem env len type arg s).state.config.vaddr = s.state.config.vaddr ∧
      (addItem env len type arg s).world.data =
        dataAddArg ⟨Cmd.allocatedSize (Cmd.toInt len), false, 0, 0, 0⟩ s.world.data
          (seekAt s.state.config.vaddr s.state.config.seek) type (some arg) := by
  obtain ⟨hlength, hseek, hvaddr⟩ := radareSetBlockSizeI_spec env.base s.state (Cmd.toInt len)
  constructor
  · refine (vaddr_radareRead _).trans hvaddr
  · unfold addItem dataAddArg dataNew dataRange DataEnv.config
    dsimp only
    rw [hcursor, hlength, hseek]
    simp only [Bool.false_eq_true, if_false, UInt64.add_zero]

theorem length_printed_ne_nil (d : DataT) : longText d.len ≠ [] := by
  by_cases hn : d.len < 2 ^ 63
  · exact longText_ne_nil hn
  · rw [longText, if_neg hn]
    exact List.cons_ne_nil _ _

/-- What is behind the letter starts with the length. -/
theorem rest_cons (d : DataT) : ∃ c l, d.rest = c :: l ∧ c ≠ 32 ∧ c ≠ 42 := by
  obtain ⟨c, l, hcl⟩ := List.exists_cons_of_ne_nil (length_printed_ne_nil d)
  have hc : c = 45 ∨ 48 ≤ c ∧ c ≤ 57 := of_mem_longText_int (by rw [hcl]; exact List.mem_cons_self)
  refine ⟨c, _, by rw [DataT.rest, hcl, List.cons_append], ?_, ?_⟩ <;>
  · rintro rfl
    exact absurd hc (by decide)

/-- The type of the item that a command makes. -/
def DataType.made (type : DataType) : DataType := if type.Listed then type else .code

/-- **The command of a line** makes an item of its type. -/
theorem radareCode_itemCommand (env : DataEnv) (d : DataT) (s : Program) :
    radareCode env s (itemCommand d) =
      some (addItem env (getMathText env.nums s.state d.rest) d.type.made
        (if d.type = .fun_ then d.rest else d.rest.tail) s) := by
  obtain ⟨c, l, hrest, hblank, hstar⟩ := rest_cons d
  have hdrop : (32 :: d.rest).dropWhile (· = 32) = d.rest := by
    rw [List.dropWhile_cons, if_pos (by decide), hrest, List.dropWhile_cons,
      if_neg fun h => hblank (of_decide_eq_true h)]
  have hone : ¬(d.rest = [] ∨ d.rest.head? = some 42) := by
    rw [hrest]
    rintro (h | h)
    · cases h
    · exact hstar (Option.some.inj h)
  have hcode : ∀ (letter : u8) (type : DataType), codeType letter = some type → letter ≠ 120 →
      letter ≠ 88 → letter ≠ 70 → radareCode env s (letter :: 32 :: d.rest) =
        some (addItem env (getMathText env.nums s.state d.rest) type d.rest.tail s) := by
    intro letter type htype h120 h88 h70
    unfold radareCode
    split
    · exact absurd (List.cons.inj ‹_›).1 h120
    · exact absurd (List.cons.inj ‹_›).1 h88
    · exact absurd (List.cons.inj ‹_›).1 h70
    · rename_i heq
      obtain ⟨rfl, rfl⟩ := List.cons.inj heq
      rw [htype]
      dsimp only
      rw [hdrop, if_neg hone]
    · rename_i heq
      cases heq
  unfold itemCommand
  cases d.type with
  | fun_ =>
    have hne : ¬d.rest = [] := fun h => hone (Or.inl h)
    show (if d.rest = [] then some s else
      some (addItem env (getMathText env.nums s.state d.rest) .fun_ d.rest s)) = _
    rw [if_neg hne]
    rfl
  | other k => exact hcode 99 .code rfl (by decide) (by decide) (by decide)
  | hex | str | code | struct_ | foldO | foldC =>
    exact hcode _ _ rfl (by decide) (by decide) (by decide)

/-- The table behind a line. -/
theorem dataAddArg_eq {blockSize : ℤ} (off : ut64) (type : DataType) (arg : List u8)
    (data : List DataT) :
    dataAddArg ⟨blockSize, false, 0, 0, 0⟩ data off type.made (some arg) =
      putOne DataT.has data (off, if type.Listed then
        some { dataNew ⟨blockSize, false, 0, 0, 0⟩ off type with arg := arg.take 128 } else none) := by
  unfold dataAddArg putOne DataType.made
  dsimp only
  rw [dataClear_eq]
  by_cases hlisted : type.Listed
  · have hcode : ¬type = .code := by
      rintro rfl
      exact hlisted
    rw [if_pos hlisted, if_neg hcode, if_pos hlisted]
    rfl
  · rw [if_neg hlisted, if_pos rfl, if_neg hlisted]
    rfl

/-- **The line of an item.** -/
theorem lineStep_item (hcursor : env.cursorMode = false) (h : d.Plain env) :
    LineStep env (itemLine env)
      (fun s d t => t.state.config.vaddr = s.state.config.vaddr ∧
        ∃ p, d.Puts env s.state.config.vaddr p ∧ t.world.data = putOne DataT.has s.world.data p)
      d := by
  refine ⟨itemCommand d, d.from_, env.label d.from_, plainLine_itemLine h, h.label, fun s => ?_⟩
  have hcmd := radareCode_itemCommand env d (goTo (env.nums.address d.from_ (env.label d.from_)) s)
  obtain ⟨t, ht, hworld, hvaddr⟩ := atAddress_of (fun s => radareCode env s (itemCommand d)) hcmd
  obtain ⟨hbase, hdata⟩ := addItem_spec hcursor
    (getMathText env.nums (goTo (env.nums.address d.from_ (env.label d.from_)) s).state d.rest)
    d.type.made (if d.type = .fun_ then d.rest else d.rest.tail)
    (goTo (env.nums.address d.from_ (env.label d.from_)) s)
  rw [vaddr_goTo] at hbase
  rw [dataAddArg_eq, vaddr_goTo, seek_goTo] at hdata
  refine ⟨t, ht, hvaddr.trans hbase, _, ⟨rfl, _, ?_, ?_, ?_, rfl⟩,
    (congrArg Tables.data hworld).trans hdata⟩
  · exact (allocatedSize_bounds _).1
  · exact (allocatedSize_bounds _).2
  · intro hstruct hlen
    have hrest : d.rest = longText d.len ++ [32] := by rw [DataT.rest, if_neg hstruct]
    rw [hrest, getMathText_length hlen, DataT.block]

/-! ## The whole table -/

/-- **What the lines make of the table**, of items and nothing else. -/
theorem runDump_items (hcursor : env.cursorMode = false) (h : ∀ d ∈ data, d.Plain env)
    {s : Cmd.Shell Tables} (hs : s.tmpoff = -1) :
    ∃ t, runDump env (n + 2) (dataList env data) s = some { s with session := t } ∧
      ∃ ps, List.Forall₂ (DataT.Puts env s.session.state.config.vaddr) data ps ∧
        t.world.data = putAll DataT.has s.session.world.data ps := by
  refine runDump_spec (P := fun data s t =>
    ∃ ps, List.Forall₂ (DataT.Puts env s.state.config.vaddr) data ps ∧
      t.world.data = putAll DataT.has s.world.data ps)
    (fun _ => ⟨[], List.Forall₂.nil, rfl⟩) ?_ (fun d hd => lineStep_item hcursor (h d hd)) hs
  rintro d ds s t u ⟨hvaddr, p, hp, hdata⟩ ⟨ps, hps, hrest⟩
  rw [hvaddr] at hps
  refine ⟨p :: ps, List.Forall₂.cons hp hps, ?_⟩
  rw [hrest, hdata]
  rfl

/-- What is compared of an item. -/
def DataT.key (d : DataT) : ut64 × ut64 × DataType × List u8 := (d.from_, d.to_, d.type, d.arg)

/-- An item whose line says all of it. -/
structure DataT.Simple (d : DataT) : Prop where
  listed : d.type.Listed
  unstructured : d.type ≠ .struct_
  len_pos : 1 ≤ d.len
  /-- And 32 more go into an `int`. -/
  len_lt : d.len < 2 ^ 31 - 32

/-- What comes back for it. -/
def DataT.relisted (env : DataEnv) (vaddr : ut64) (d : DataT) : DataT :=
  d.remade env vaddr (d.block env)

/-- **A simple item is the same exactly if its argument is what is left of its
length**, where its address and its length are read as what they are. -/
theorem key_relisted_iff (hd : d.Simple) (hstart : d.start env vaddr = d.from_)
    (hlen : env.nums.named (longText d.len ++ [32]) d.len = d.len) :
    (d.relisted env vaddr).key = d.key ↔ d.arg = d.lineArg := by
  have hbound : ((2 : ut64) ^ 31 - 32).toNat = 2 ^ 31 - 32 := by decide +kernel
  have hlt := hd.len_lt
  have hpos : 1 ≤ d.len.toNat := UInt64.le_iff_toNat_le.mp hd.len_pos
  rw [UInt64.lt_iff_toNat_lt, hbound] at hlt
  have hblock : d.block env = d.len.toNat := by
    have hint : Cmd.toInt d.len = d.len.toNat := Int.bmod_eq_of_le (by omega) (by omega)
    rw [DataT.block, hlen, hint, Cmd.allocatedSize]
    split_ifs <;> omega
  have hto : d.from_ + d.len = d.to_ := by
    unfold DataT.len
    grind
  have hkey : (d.relisted env vaddr).key = (d.from_, d.to_, d.type, d.lineArg) := by
    unfold DataT.relisted DataT.remade DataT.key dataNew dataRange
    simp only [Bool.false_eq_true, if_false]
    rw [hstart, hblock, ofInt_toNat, hto]
  rw [hkey, DataT.key, Prod.mk.injEq, Prod.mk.injEq, Prod.mk.injEq]
  exact ⟨fun h => h.2.2.2.symm, fun h => ⟨rfl, rfl, rfl, h.symm⟩⟩

variable {p : ut64 × Option DataT} {ps : List (ut64 × Option DataT)}

theorem DataT.Puts.eq_of_simple (h : d.Puts env vaddr p) (hd : d.Simple) :
    p = (d.start env vaddr, some (d.relisted env vaddr)) := by
  obtain ⟨blockSize, -, -, hblock, hitem⟩ := h.item
  have hlen : d.len < 2 ^ 63 := UInt64.lt_trans hd.len_lt (by decide +kernel)
  rw [if_pos hd.listed, hblock hd.unstructured hlen] at hitem
  exact Prod.ext h.start hitem

/-- A table of such items puts in what comes back for each. -/
theorem puts_eq_map (h : List.Forall₂ (DataT.Puts env vaddr) data ps)
    (hdata : ∀ d ∈ data, d.Simple) :
    ps = data.map fun d => (d.start env vaddr, some (d.relisted env vaddr)) := by
  induction h with
  | nil => rfl
  | cons hp _ ih =>
    rw [hp.eq_of_simple (hdata _ List.mem_cons_self),
      ih fun d hd => hdata d (List.mem_cons_of_mem _ hd)]
    rfl

theorem len_remade (env : DataEnv) (vaddr : ut64) (d : DataT) (blockSize : ℤ) :
    (d.remade env vaddr blockSize).len = UInt64.ofInt blockSize := by
  unfold DataT.len DataT.remade dataNew dataRange
  simp only [Bool.false_eq_true, if_false]
  grind

theorem arg_remade (blockSize : ℤ) : (d.remade env vaddr blockSize).key.2.2.2 = d.lineArg := rfl

/-- **The argument of a structure grows.** -/
theorem length_lineArg (hstruct : d.type = .struct_) (h : d.arg.length < 128) :
    d.arg.length < d.lineArg.length := by
  obtain ⟨c, l, hrest, -, -⟩ := rest_cons d
  have hlen : (longText d.len).length + (d.arg.length + 1) = l.length + 1 := by
    have hboth := congrArg List.length hrest
    rw [DataT.rest, if_pos hstruct, List.length_append, List.length_cons, List.length_cons] at hboth
    exact hboth
  have hpos := List.length_pos_iff.mpr (length_printed_ne_nil d)
  unfold DataT.lineArg
  rw [if_neg (by rw [hstruct]; decide), hrest, List.tail_cons, List.length_take]
  omega

/-- The characters that structures have for arguments. -/
def structChars (data : List DataT) : ℕ :=
  (data.map fun d => if d.type = .struct_ then d.arg.length else 0).sum

theorem structChars_perm {data' : List DataT} (h : (data.map DataT.key).Perm (data'.map DataT.key)) :
    structChars data = structChars data' := by
  have hkey : ∀ data : List DataT, structChars data = ((data.map DataT.key).map
      fun k => if k.2.2.1 = .struct_ then k.2.2.2.length else 0).sum := by
    intro data
    rw [List.map_map]
    rfl
  rw [hkey, hkey, (h.map _).sum_eq]

/-- What comes back for items of which each is put in has as many characters
for arguments only if there is no structure. -/
theorem structChars_puts (h : List.Forall₂ (DataT.Puts env vaddr) data ps)
    (hsome : ∀ p ∈ ps, p.2.isSome) (harg : ∀ d ∈ data, d.type = .struct_ → d.arg.length < 128) :
    structChars data ≤ structChars (ps.filterMap (·.2)) ∧
      (structChars (ps.filterMap (·.2)) = structChars data → ∀ d ∈ data, d.type ≠ .struct_) := by
  induction h with
  | nil => exact ⟨Nat.le_refl _, fun _ d hd => absurd hd List.not_mem_nil⟩
  | @cons d p data ps hp _ ih =>
    obtain ⟨hle, heq⟩ := ih (fun p hp => hsome p (List.mem_cons_of_mem _ hp))
      fun d hd => harg d (List.mem_cons_of_mem _ hd)
    obtain ⟨i, hi⟩ := Option.isSome_iff_exists.mp (hsome p List.mem_cons_self)
    obtain ⟨blockSize, -, -, -, hitem⟩ := hp.item
    rw [hi] at hitem
    have hremade : i = d.remade env vaddr blockSize := by
      split_ifs at hitem
      exact Option.some.inj hitem
    have hcons : structChars ((p :: ps).filterMap (·.2)) =
        (if d.type = .struct_ then d.lineArg.length else 0) + structChars (ps.filterMap (·.2)) := by
      rw [List.filterMap_cons_some hi, hremade]
      rfl
    have hcons' : structChars (d :: data) =
        (if d.type = .struct_ then d.arg.length else 0) + structChars data := rfl
    rw [hcons, hcons', List.forall_mem_cons]
    by_cases hstruct : d.type = .struct_
    · have hgrows := length_lineArg hstruct (harg d List.mem_cons_self hstruct)
      rw [if_pos hstruct, if_pos hstruct]
      exact ⟨by omega, fun h => by omega⟩
    · rw [if_neg hstruct, if_neg hstruct]
      exact ⟨by omega, fun h => ⟨hstruct, heq (by omega)⟩⟩

/-- What is put in is an item of a size that an `int` has. -/
theorem len_of_puts (h : List.Forall₂ (DataT.Puts env vaddr) data ps) {i : DataT}
    (hi : i ∈ ps.filterMap (·.2)) :
    ∃ d ∈ data, d.type.Listed ∧ ∃ blockSize : ℤ, 1 ≤ blockSize ∧ blockSize + 32 < 2 ^ 31 ∧
      i = d.remade env vaddr blockSize := by
  induction h with
  | nil => cases hi
  | @cons d p data ps hp _ ih =>
    obtain ⟨blockSize, hpos, hlt, -, hitem⟩ := hp.item
    cases hsome : p.2 with
    | none =>
      rw [List.filterMap_cons_none hsome] at hi
      obtain ⟨d', hd', hrest⟩ := ih hi
      exact ⟨d', List.mem_cons_of_mem _ hd', hrest⟩
    | some j =>
      rw [List.filterMap_cons_some hsome] at hi
      rw [hsome] at hitem
      rcases List.mem_cons.mp hi with rfl | hi
      · split_ifs at hitem with hlisted
        exact ⟨d, List.mem_cons_self, hlisted, blockSize, hpos, hlt, Option.some.inj hitem⟩
      · obtain ⟨d', hd', hrest⟩ := ih hi
        exact ⟨d', List.mem_cons_of_mem _ hd', hrest⟩

/-- **Items that are all put in are such as a line says all of**, if they come
back. -/
theorem simple_of_perm (h : List.Forall₂ (DataT.Puts env vaddr) data ps)
    (hsome : ∀ p ∈ ps, p.2.isSome) (hplain : ∀ d ∈ data, d.Plain env)
    (hperm : ((ps.filterMap (·.2)).map DataT.key).Perm (data.map DataT.key)) :
    ∀ d ∈ data, d.Simple := by
  have hstruct := (structChars_puts h hsome fun d hd => (hplain d hd).length).2
    (structChars_perm hperm)
  intro d hd
  obtain ⟨i, hi, hkey⟩ := List.mem_map.mp (hperm.mem_iff.mpr (List.mem_map_of_mem hd))
  obtain ⟨d', -, hlisted, blockSize, hpos, hlt, rfl⟩ := len_of_puts h hi
  have hfrom := congrArg Prod.fst hkey
  have hto := congrArg (fun k => k.2.1) hkey
  have htype : d'.type = d.type := congrArg (fun k => k.2.2.1) hkey
  have hlen : d.len = UInt64.ofInt blockSize := by
    rw [← len_remade env vaddr d']
    unfold DataT.len
    exact congrArg₂ (· - ·) hto.symm hfrom.symm
  have hnat : d.len.toNat = blockSize.toNat := by
    have hmod : blockSize % 2 ^ 64 = blockSize := Int.emod_eq_of_lt (by omega) (by omega)
    have hsize : blockSize.toNat < UInt64.size := by
      have h64 : UInt64.size = 2 ^ 64 := rfl
      omega
    rw [hlen, UInt64.ofInt, hmod, UInt64.toNat_ofNat_of_lt' hsize]
  have hbound : ((2 : ut64) ^ 31 - 32).toNat = 2 ^ 31 - 32 := by decide +kernel
  refine ⟨htype ▸ hlisted, hstruct d hd, ?_, ?_⟩
  · rw [UInt64.le_iff_toNat_le, hnat]
    show 1 ≤ _
    omega
  · rw [UInt64.lt_iff_toNat_lt, hnat, hbound]
    omega

/-- What comes back for simple items, before any is hit. -/
theorem filterMap_puts (env : DataEnv) (vaddr : ut64) (data : List DataT) :
    (data.map fun d => (d.start env vaddr, some (d.relisted env vaddr))).filterMap (·.2) =
      data.map (DataT.relisted env vaddr) := by
  rw [List.filterMap_map]
  exact congrFun List.filterMap_eq_map data

/-- **When items come back through their own lines**: with the labels and
arguments plain, exactly if every item is one whose line says all of it, what
comes back for the items are those items, and none of them is hit by the
address of a later line. -/
theorem dataList_restores_iff (env : DataEnv) (hcursor : env.cursorMode = false) (n : ℕ)
    (state : State) (xrefs : List XrefT) (data : List DataT) :
    (∀ d ∈ data, d.Plain env) ∧
        (∃ s', runDump env (n + 2) (dataList env data) { session := ⟨state, ⟨[], xrefs⟩⟩ } =
          some s' ∧ (s'.session.world.data.map DataT.key).Perm (data.map DataT.key)) ↔
      (∀ d ∈ data, d.Plain env ∧ d.Simple) ∧
        ((data.map (DataT.relisted env state.config.vaddr)).map DataT.key).Perm
          (data.map DataT.key) ∧
        data.Pairwise fun d d' =>
          (d.relisted env state.config.vaddr).has (d'.start env state.config.vaddr) = false := by
  have hrun := fun h : ∀ d ∈ data, d.Plain env => runDump_items (n := n) hcursor h
    (s := { session := ⟨state, ⟨[], xrefs⟩⟩ }) rfl
  constructor
  · rintro ⟨hplain, s', hs', hperm⟩
    obtain ⟨t, ht, ps, hps, hdata⟩ := hrun hplain
    obtain rfl := Option.some.inj (ht.symm.trans hs')
    dsimp only at hps hdata
    rw [hdata] at hperm
    have hlength : (putAll DataT.has [] ps).length = ([] : List DataT).length + ps.length := by
      have hkeys := hperm.length_eq
      rw [List.length_map, List.length_map] at hkeys
      rw [hkeys, hps.length_eq, List.length_nil, Nat.zero_add]
    have hunhit := length_putAll_eq_iff.mp hlength
    rw [hunhit.putAll_eq, List.append_nil, List.map_reverse] at hperm
    replace hperm := (List.reverse_perm _).symm.trans hperm
    have hsimple := simple_of_perm hps hunhit.isSome hplain hperm
    obtain rfl := puts_eq_map hps hsimple
    rw [filterMap_puts] at hperm
    refine ⟨fun d hd => ⟨hplain d hd, hsimple d hd⟩, hperm, ?_⟩
    refine (List.pairwise_map.mp hunhit.new).imp fun {d d'} hnot => ?_
    exact hnot _ rfl
  · rintro ⟨hall, hperm, hpair⟩
    obtain ⟨t, ht, ps, hps, hdata⟩ := hrun fun d hd => (hall d hd).1
    obtain rfl := puts_eq_map hps fun d hd => (hall d hd).2
    have hunhit : Unhit DataT.has [] (data.map fun d =>
        (d.start env state.config.vaddr, some (d.relisted env state.config.vaddr))) := by
      refine ⟨fun p hp => ?_, fun a ha => absurd ha List.not_mem_nil, ?_⟩
      · obtain ⟨d, -, rfl⟩ := List.mem_map.mp hp
        rfl
      · refine List.pairwise_map.mpr (hpair.imp fun {d d'} hnot a ha => ?_)
        obtain rfl := Option.some.inj ha
        exact hnot
    refine ⟨fun d hd => (hall d hd).1, _, ht, ?_⟩
    dsimp only at hdata ⊢
    rw [hdata, hunhit.putAll_eq, List.append_nil, filterMap_puts, List.map_reverse]
    exact (List.reverse_perm _).trans hperm

/-- Four bytes of data, with what a line leaves of `4 ` for an argument. -/
theorem four_bytes_restored :
    ∃ s', runDump bareEnv 2 (dataList bareEnv [⟨0x10, 0x14, .hex, 5, [32]⟩])
        { session := ⟨openFile [] 1 1, ⟨[], []⟩⟩ } = some s' ∧
      (s'.session.world.data.map DataT.key).Perm
        ([(⟨0x10, 0x14, .hex, 5, [32]⟩ : DataT)].map DataT.key) := by
  have hplain : (⟨0x10, 0x14, .hex, 5, [32]⟩ : DataT).Plain bareEnv :=
    ⟨fun c hc => absurd hc List.not_mem_nil, by decide +kernel, by decide⟩
  have hsimple : (⟨0x10, 0x14, .hex, 5, [32]⟩ : DataT).Simple :=
    ⟨by decide, by decide, by decide, by decide⟩
  refine ((dataList_restores_iff bareEnv rfl 0 (openFile [] 1 1) []
    [⟨0x10, 0x14, .hex, 5, [32]⟩]).mpr ⟨?_, ?_, List.pairwise_singleton _ _⟩).2
  · intro d hd
    rw [List.mem_singleton.mp hd]
    exact ⟨hplain, hsimple⟩
  · decide +kernel

/-- A structure of four bytes loses its argument for another. -/
theorem structure_argument_grows :
    ¬∀ (env : DataEnv) (n : ℕ) (state : State) (xrefs : List XrefT) (data : List DataT),
      env.cursorMode = false → (∀ d ∈ data, d.Plain env) →
      ∃ s', runDump env (n + 2) (dataList env data) { session := ⟨state, ⟨[], xrefs⟩⟩ } =
        some s' ∧ (s'.session.world.data.map DataT.key).Perm (data.map DataT.key) := by
  intro h
  have hplain : ∀ d ∈ [(⟨0x10, 0x14, .struct_, 5, [105]⟩ : DataT)], d.Plain bareEnv := by
    intro d hd
    rw [List.mem_singleton.mp hd]
    exact ⟨fun c hc => absurd hc List.not_mem_nil, by decide +kernel, by decide⟩
  obtain ⟨s', hs', hperm⟩ := h bareEnv 0 (openFile [] 1 1) [] _ rfl hplain
  obtain ⟨t, ht, ps, hps, hdata⟩ := runDump_items (n := 0) rfl hplain
    (s := { session := ⟨openFile [] 1 1, ⟨[], []⟩⟩ }) rfl
  obtain rfl := Option.some.inj (ht.symm.trans hs')
  cases hps with
  | cons hp hnil =>
    cases hnil
    obtain ⟨blockSize, -, -, -, hitem⟩ := hp.item
    have hone : t.world.data = [DataT.remade bareEnv 0 blockSize ⟨0x10, 0x14, .struct_, 5, [105]⟩] := by
      refine hdata.trans ?_
      rw [putAll, List.foldl_cons, List.foldl_nil, putOne, hitem]
      rfl
    have hkey := List.perm_singleton.mp (hone ▸ hperm)
    -- the argument comes back with a blank in front
    have harg := congrArg (fun k => k.2.2.2) (List.cons.inj hkey).1
    rw [arg_remade] at harg
    exact absurd harg (by decide +kernel)

end Radare
