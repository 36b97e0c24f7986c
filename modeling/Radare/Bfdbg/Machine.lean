import Mathlib.Data.List.GetD
import Radare.Common.DoWhile
import Radare.Model.Word
/-!
# The brainfuck debugger

The machine steps over the bytes of a file. `[` does nothing there, and `]`
goes back behind the nearest `[`, so that a loop is done at least once and an
outer loop ends up in the inner one. `!cont` does what the loops say, read so
(`bfvmCont_iff`).

From 0x10000 on the machine's own memory is read in place of the file; what is
read there is a parameter. There is no result where a byte is written beside
the screen's buffer, or where `]` finds no `[` at any address.
-/

namespace Radare

open Common

/-! ## The program -/

/-- `struct bfvm_cpu_t`. The sizes are the lengths of the buffers. -/
structure Bfvm where
  eip : ut64
  ptr : Int32
  base : ut64
  mem : List u8
  screen_idx : ℕ
  screen_buf : List u8
  input_idx : ℕ
  input_buf : List u8
  circular : Bool

/-- `bfvm_init`. -/
def bfvmInit (size : ℕ) (circular : Bool) : Bfvm where
  eip := 0
  ptr := 0
  base := if size > 65536 then 0xd0000000 else 0xd0000
  mem := List.replicate size 0
  screen_idx := 0
  screen_buf := List.replicate 4096 0
  input_idx := 0
  input_buf := List.replicate 4096 0
  circular := circular

/-- `bfvm_get_ptr_at`: the place in the memory. No `ut64` is below 0. -/
def Bfvm.getPtrAt (cpu : Bfvm) (addr : ut64) : ℕ :=
  let addr := if addr ≥ cpu.base then addr - cpu.base else addr
  if addr.toNat ≥ cpu.mem.length then
    if cpu.circular then 0 else cpu.mem.length - 1
  else addr.toNat

/-- `bfvm_get_ptr`. -/
def Bfvm.getPtr (cpu : Bfvm) : ℕ := cpu.getPtrAt cpu.ptr.toInt64.toUInt64

/-- `bfvm_get`. -/
def Bfvm.get (cpu : Bfvm) : u8 := cpu.mem.getD cpu.getPtr 0

/-- A byte is stored where the pointer points. -/
def Bfvm.put (cpu : Bfvm) (b : u8) : Bfvm := { cpu with mem := cpu.mem.set cpu.getPtr b }

/-- `bfvm_peek`. -/
def Bfvm.peek (cpu : Bfvm) : Bfvm :=
  let idx := if cpu.input_idx ≥ cpu.input_buf.length then 0 else cpu.input_idx
  { cpu.put (cpu.input_buf.getD idx 0) with input_idx := idx + 1 }

/-- `bfvm_poke`. -/
def Bfvm.poke (cpu : Bfvm) : Option Bfvm :=
  if cpu.screen_idx < cpu.screen_buf.length then
    some { cpu with
      screen_buf := cpu.screen_buf.set cpu.screen_idx cpu.get
      screen_idx := cpu.screen_idx + 1 }
  else none

/-- The opcodes. -/
inductive BfOp where
  | trap
  | dot
  | comma
  | plus
  | minus
  | right
  | left
  | lbracket
  | rbracket
  | other
deriving DecidableEq

/-- The cases of a `switch` over a byte. -/
def bfOp (op : u8) : BfOp :=
  if op = 0 then .trap
  else if op = 0x2e then .dot
  else if op = 0x2c then .comma
  else if op = 0x2b then .plus
  else if op = 0x2d then .minus
  else if op = 0x3e then .right
  else if op = 0x3c then .left
  else if op = 0x5b then .lbracket
  else if op = 0x5d then .rbracket
  else .other

variable (text : List u8) (beyond : Bfvm → u8)

/-- `bfvm_op`, where `io.vaddr` is 0 and there are no maps. Behind the file
there is 0xff. -/
def bfvmOp (cpu : Bfvm) : u8 :=
  if cpu.eip < 0x10000 then text.getD cpu.eip.toNat 0xff else beyond cpu

/-- `bfvm_in_trap`. -/
def bfvmInTrap (cpu : Bfvm) : Bool := bfvmOp text beyond cpu = 0 ∨ bfvmOp text beyond cpu = 0xff

/-- The loop of `]`, over so many addresses. `eip` is never below 0. -/
def bfvmBack : ℕ → Bfvm → Option Bfvm
  | 0, _ => none
  | n + 1, cpu =>
    let cpu := { cpu with eip := cpu.eip - 1 }
    if bfOp (bfvmOp text beyond cpu) = .lbracket then some cpu else bfvmBack n cpu

/-- What an opcode does that is neither `]` nor a trap. -/
def Bfvm.exec (cpu : Bfvm) : BfOp → Option Bfvm
  | .dot => cpu.poke
  | .comma => some cpu.peek
  | .plus => some (cpu.put (cpu.get + 1))
  | .minus => some (cpu.put (cpu.get - 1))
  | .right => some { cpu with ptr := cpu.ptr + 1 }
  | .left => some { cpu with ptr := cpu.ptr - 1 }
  | _ => some cpu

/-- The `switch` of `bfvm_step`. -/
def bfvmSwitch (cpu : Bfvm) : BfOp → Option Bfvm
  | .rbracket => if cpu.get ≠ 0 then bfvmBack text beyond (2 ^ 64) cpu else some cpu
  | op => cpu.exec op

/-- `bfvm_step`, at most `fuel` turns of it. -/
def bfvmStep (stepo : Bool) : ℕ → Bfvm → Option Bfvm
  | 0, _ => none
  | fuel + 1, cpu =>
    let op := bfvmOp text beyond cpu
    if bfOp op = .trap then some cpu
    else
      match bfvmSwitch text beyond cpu (bfOp op) with
      | none => none
      | some cpu =>
        let cpu := { cpu with eip := cpu.eip + 1 }
        if stepo ∧ op = bfvmOp text beyond cpu then bfvmStep stepo fuel cpu else some cpu

/-- `bfvm_cont`, at most `fuel` turns of it, without an interrupt. -/
def bfvmCont (stop : ut64) : ℕ → Bfvm → Option Bfvm
  | 0, _ => none
  | fuel + 1, cpu =>
    if cpu.eip = stop then some cpu
    else
      match bfvmStep text beyond false 1 cpu with
      | none => none
      | some cpu => if bfvmInTrap text beyond cpu then some cpu else bfvmCont stop fuel cpu

/-! ## The bytes as a code -/

/-- A byte as an instruction. -/
def instrOf (b : u8) : Instr u8 :=
  match bfOp b with
  | .lbracket => .mark
  | .rbracket => .back
  | _ => .plain b

/-- The bytes of a file as a code. -/
def bfCode (text : List u8) : List (Instr u8) := text.map instrOf

/-- What a byte does that is no bracket. -/
def bfAct (b : u8) (cpu : Bfvm) : Option Bfvm := cpu.exec (bfOp b)

/-- The test at the end of a loop. -/
def bfAgain (cpu : Bfvm) : Bool := cpu.get ≠ 0

/-- The machine at a place. -/
def Bfvm.at (cpu : Bfvm) (pc : ℕ) : Bfvm := { cpu with eip := UInt64.ofNat pc }

/-- A text the machine runs to its end on: it ends before the machine's own
memory, traps nowhere, and has a `[` before every `]`. -/
structure Runnable (text : List u8) : Prop where
  length : text.length < 0x10000
  trap : ∀ b ∈ text, b ≠ 0 ∧ b ≠ 0xff
  marked : Marked (bfCode text)

variable {text beyond} {cpu cpu' s t : Bfvm} {pc n : ℕ} {b : u8} {op : BfOp}

@[simp] theorem Bfvm.get_at : (cpu.at pc).get = cpu.get := rfl

@[simp] theorem Bfvm.at_at (pc' : ℕ) : (cpu.at pc).at pc' = cpu.at pc' := rfl

theorem Bfvm.exec_at : (cpu.at pc).exec op = (cpu.exec op).map fun t => t.at pc := by
  cases op with
  | dot =>
    unfold Bfvm.exec Bfvm.poke
    by_cases hfit : cpu.screen_idx < cpu.screen_buf.length
    · rw [if_pos (show (cpu.at pc).screen_idx < (cpu.at pc).screen_buf.length from hfit),
        if_pos hfit]
      rfl
    · rw [if_neg (show ¬ (cpu.at pc).screen_idx < (cpu.at pc).screen_buf.length from hfit),
        if_neg hfit]
      rfl
  | _ => rfl

theorem Bfvm.at_succ :
    ({ cpu.at pc with eip := (cpu.at pc).eip + 1 } : Bfvm) = cpu.at (pc + 1) := by
  have heip : UInt64.ofNat pc + 1 = UInt64.ofNat (pc + 1) := by
    rw [UInt64.ofNat_add]
    rfl
  unfold Bfvm.at
  dsimp only
  rw [heip]

theorem bfvmOp_at (hpc : pc < 0x10000) : bfvmOp text beyond (cpu.at pc) = text.getD pc 0xff := by
  have hsmall : (UInt64.ofNat pc).toNat = pc := by
    rw [UInt64.toNat_ofNat']
    omega
  have hlt : (cpu.at pc).eip < 0x10000 := by
    rw [UInt64.lt_iff_toNat_lt]
    exact hsmall.symm ▸ hpc
  rw [bfvmOp, if_pos hlt]
  exact congrArg (text.getD · 0xff) hsmall

theorem getElem?_bfCode (hpc : pc < text.length) :
    (bfCode text)[pc]? = some (instrOf (text.getD pc 0xff)) := by
  have hget : text.getD pc 0xff = text[pc] := List.getD_eq_getElem text 0xff hpc
  rw [bfCode, List.getElem?_map, List.getElem?_eq_getElem hpc, hget]
  rfl

theorem length_bfCode : (bfCode text).length = text.length := List.length_map _

theorem instrOf_mark : instrOf b = .mark ↔ bfOp b = .lbracket := by
  unfold instrOf
  split
  · rename_i h
    exact ⟨fun _ => h, fun _ => rfl⟩
  · rename_i h
    rw [h]
    exact ⟨nofun, nofun⟩
  · rename_i hnot _
    exact ⟨nofun, fun h => absurd h hnot⟩

/-- **The search back** finds the nearest `[`. -/
theorem bfvmBack_at {mark : ℕ} (hpc : pc ≤ text.length) (hlen : text.length < 0x10000)
    (hmark : nearestMark (bfCode text) pc = some mark) (hn : pc ≤ n) :
    bfvmBack text beyond n (cpu.at pc) = some (cpu.at mark) := by
  induction pc generalizing n with
  | zero => cases hmark
  | succ pc ih =>
    obtain ⟨n, rfl⟩ := Nat.exists_eq_succ_of_ne_zero (show n ≠ 0 by omega)
    have hprev :
        ({ cpu.at (pc + 1) with eip := (cpu.at (pc + 1)).eip - 1 } : Bfvm) = cpu.at pc := by
      have heip : UInt64.ofNat (pc + 1) - 1 = UInt64.ofNat pc := by
        rw [UInt64.ofNat_add]
        exact UInt64.add_sub_cancel _ _
      unfold Bfvm.at
      dsimp only
      rw [heip]
    rw [nearestMark, getElem?_bfCode hpc] at hmark
    rw [bfvmBack, hprev, bfvmOp_at (by omega)]
    split at hmark
    · rename_i hget
      obtain rfl := Option.some.inj hmark
      rw [if_pos (instrOf_mark.mp (Option.some.inj hget))]
    · rename_i hnot
      have hop : ¬ bfOp (text.getD pc 0xff) = .lbracket := by
        intro hop
        exact hnot (congrArg some (instrOf_mark.mpr hop))
      rw [if_neg hop]
      exact ih (by omega) hmark (by omega)

/-- **A step** is a turn of the code. -/
theorem bfvmStep_at (h : Runnable text) (hpc : pc < text.length) :
    bfvmStep text beyond false 1 (s.at pc) =
      (turn bfAct bfAgain (bfCode text) pc s).map fun x => x.2.at x.1 := by
  have hlen := h.length
  have hop : bfvmOp text beyond (s.at pc) = text.getD pc 0xff := bfvmOp_at (by omega)
  have hget := getElem?_bfCode hpc
  set b := text.getD pc 0xff with hb
  have hmem : b ∈ text := by
    rw [hb, List.getD_eq_getElem text 0xff hpc]
    exact List.getElem_mem hpc
  have htrap : bfOp b ≠ .trap := by
    unfold bfOp
    rw [if_neg (h.trap b hmem).1]
    split_ifs <;> exact nofun
  have hstep : bfvmStep text beyond false 1 (s.at pc) =
      (bfvmSwitch text beyond (s.at pc) (bfOp b)).map fun t => { t with eip := t.eip + 1 } := by
    rw [bfvmStep]
    dsimp only
    rw [hop, if_neg htrap]
    cases bfvmSwitch text beyond (s.at pc) (bfOp b) with
    | none => rfl
    | some t => rfl
  rw [hstep]
  unfold turn
  rw [hget]
  have hplain : ∀ op, op ≠ .rbracket → bfvmSwitch text beyond (s.at pc) op =
      (s.exec op).map fun t => t.at pc := by
    intro op hne
    rw [← Bfvm.exec_at]
    cases op <;> first | rfl | exact absurd rfl hne
  cases hinstr : instrOf b with
  | mark =>
    have hne : BfOp.lbracket ≠ .rbracket := nofun
    rw [instrOf_mark.mp hinstr, hplain _ hne]
    exact congrArg some Bfvm.at_succ
  | back =>
    have hclose : bfOp b = .rbracket := by
      unfold instrOf at hinstr
      split at hinstr
      · cases hinstr
      · assumption
      · cases hinstr
    rw [hinstr] at hget
    obtain ⟨m, hm, hmget⟩ := h.marked pc hget
    obtain ⟨mark, hmark⟩ := nearestMark_of_lt hm hmget
    rw [hclose, bfvmSwitch, Bfvm.get_at]
    dsimp only
    by_cases hzero : s.get = 0
    · have hagain : ¬ bfAgain s = true := by
        unfold bfAgain
        rw [hzero]
        exact nofun
      rw [if_neg (not_not.mpr hzero), if_neg hagain]
      exact congrArg some Bfvm.at_succ
    · have hagain : bfAgain s = true := decide_eq_true hzero
      rw [if_pos hzero, if_pos hagain, hmark, bfvmBack_at hpc.le hlen hmark (by omega)]
      exact congrArg some Bfvm.at_succ
  | plain i =>
    have hi : i = b ∧ bfOp b ≠ .rbracket := by
      unfold instrOf at hinstr
      split at hinstr
      · cases hinstr
      · cases hinstr
      · rename_i hnot
        cases hinstr
        exact ⟨rfl, hnot⟩
    rw [hplain _ hi.2, hi.1, Option.map_map]
    show Option.map _ (s.exec (bfOp b)) = Option.map _ (Option.map _ (s.exec (bfOp b)))
    rw [Option.map_map]
    refine congrArg (Option.map · (s.exec (bfOp b))) (funext fun t => ?_)
    exact Bfvm.at_succ

/-! ## Runs -/

theorem bfvmInTrap_at (h : Runnable text) (hpc : pc ≤ text.length) :
    bfvmInTrap text beyond (s.at pc) = true ↔ pc = text.length := by
  have hlen := h.length
  have hop : bfvmOp text beyond (s.at pc) = text.getD pc 0xff := bfvmOp_at (by omega)
  unfold bfvmInTrap
  rw [hop, decide_eq_true_iff]
  rcases Nat.lt_or_ge pc text.length with hlt | hge
  · have hget : text.getD pc 0xff = text[pc] := List.getD_eq_getElem text 0xff hlt
    obtain ⟨hzero, hff⟩ := h.trap text[pc] (List.getElem_mem hlt)
    rw [hget]
    exact ⟨fun hor => (hor.elim hzero hff).elim, fun heq => by omega⟩
  · have hget : text.getD pc 0xff = 0xff := List.getD_eq_default text 0xff hge
    exact ⟨fun _ => by omega, fun _ => .inr hget⟩

variable {stop : ut64}

/-- **A turn of `!cont`**. -/
theorem bfvmCont_at (h : Runnable text) (hstop : text.length < stop.toNat)
    (hpc : pc < text.length) : bfvmCont text beyond stop (n + 1) (s.at pc) =
      (turn bfAct bfAgain (bfCode text) pc s).bind fun x =>
        if x.1 = text.length then some (x.2.at x.1)
        else bfvmCont text beyond stop n (x.2.at x.1) := by
  have hlen := h.length
  have hgo : ¬ (s.at pc).eip = stop := by
    intro heq
    have hsmall : (UInt64.ofNat pc).toNat = pc := by
      rw [UInt64.toNat_ofNat']
      omega
    have := congrArg UInt64.toNat heq
    rw [show ((s.at pc).eip).toNat = pc from hsmall] at this
    omega
  rw [bfvmCont, if_neg hgo, bfvmStep_at h hpc]
  cases hturn : turn bfAct bfAgain (bfCode text) pc s with
  | none => rfl
  | some x =>
    have hle : x.1 ≤ text.length := by
      have hpcCode : pc < (bfCode text).length := by rwa [length_bfCode]
      have := turn_le hpcCode hturn
      rwa [length_bfCode] at this
    rw [Option.map_some, Option.bind_some]
    dsimp only
    by_cases hend : x.1 = text.length
    · rw [if_pos hend, if_pos ((bfvmInTrap_at h hle).mpr hend)]
    · rw [if_neg hend, if_neg (fun htrap => hend ((bfvmInTrap_at h hle).mp htrap))]

/-- **A run of `!cont`** to the end of the text. -/
theorem bfvmCont_goes (h : Runnable text) (hstop : text.length < stop.toNat)
    (hpc : pc < text.length) :
    (∃ n, bfvmCont text beyond stop n (s.at pc) = some cpu') ↔
      ∃ t, Goes bfAct bfAgain (bfCode text) (pc, s) (text.length, t) ∧
        cpu' = t.at text.length := by
  constructor
  · rintro ⟨n, hn⟩
    induction n generalizing pc s with
    | zero => cases hn
    | succ n ih =>
      rw [bfvmCont_at h hstop hpc] at hn
      obtain ⟨⟨pc', s'⟩, hturn, hrest⟩ := Option.bind_eq_some_iff.mp hn
      have hle := turn_le (by rw [length_bfCode]; exact hpc) hturn
      rw [length_bfCode] at hle
      split_ifs at hrest with hend
      · obtain rfl : pc' = text.length := hend
        exact ⟨s', .single hturn, (Option.some.inj hrest).symm⟩
      · obtain ⟨t, hgo, heq⟩ := ih (show pc' < text.length by omega) hrest
        exact ⟨t, .head hturn hgo, heq⟩
  · rintro ⟨t, hgo, rfl⟩
    suffices hall : ∀ x : ℕ × Bfvm, Goes bfAct bfAgain (bfCode text) x (text.length, t) →
        x.1 < text.length → ∃ n, bfvmCont text beyond stop n (x.2.at x.1) =
          some (t.at text.length) from hall (pc, s) hgo hpc
    intro x hx
    induction hx using Relation.ReflTransGen.head_induction_on with
    | refl => exact fun hlt => absurd hlt (Nat.lt_irrefl _)
    | @head x y hturn hrest ih =>
      intro hlt
      have hle := turn_le (by rw [length_bfCode]; exact hlt) hturn
      rw [length_bfCode] at hle
      by_cases hend : y.1 = text.length
      · have hsame : y = (text.length, t) := by
          rcases Relation.ReflTransGen.cases_head hrest with heq | ⟨z, hnext, -⟩
          · exact heq
          · unfold turn at hnext
            rw [hend, List.getElem?_eq_none (Nat.le_of_eq length_bfCode)] at hnext
            cases hnext
        refine ⟨1, ?_⟩
        rw [bfvmCont_at h hstop hlt, hturn, Option.bind_some, if_pos hend, hsame]
      · obtain ⟨n, hn⟩ := ih (by omega)
        refine ⟨n + 1, ?_⟩
        rw [bfvmCont_at h hstop hlt, hturn, Option.bind_some, if_neg hend, hn]

/-- **What `!cont` does** from the start of a text, with no stop in it: it comes
to the end of the text just if the loops do, each done at least once and each
from the nearest `[` on, and leaves what they leave. -/
theorem bfvmCont_iff (h : Runnable text) (hne : text ≠ []) (hstop : text.length < stop.toNat) :
    (∃ n, bfvmCont text beyond stop n (cpu.at 0) = some cpu') ↔
      ∃ t, CodeDoes bfAct bfAgain (bfCode text) cpu t ∧ cpu' = t.at text.length := by
  have hpos : 0 < text.length := List.length_pos_iff.mpr hne
  rw [bfvmCont_goes h hstop hpos]
  refine exists_congr fun t => and_congr_left' ?_
  have hmeans : Goes bfAct bfAgain (bfCode text) (0, cpu) ((bfCode text).length, t) ↔
      CodeDoes bfAct bfAgain (bfCode text) cpu t := goes_iff h.marked
  rwa [length_bfCode] at hmeans

/-- A loop that is done twice: `+` twice, `-` until there is 0, and a dot. -/
def twice : List u8 := [0x2b, 0x2b, 0x5b, 0x2d, 0x5d, 0x2e]

theorem runnable_twice : Runnable twice :=
  ⟨by simp [twice], by simp [twice], ((straight_bodiesFrom .nil (bfCode twice)).mp trivial).2⟩

/-- A machine with four cells and a screen of one. -/
def fourCells (mem : List u8) : Bfvm := { bfvmInit 4 true with mem := mem, screen_buf := [0xff] }

theorem bfvmCont_twice :
    ∃ n, bfvmCont twice (fun _ => 0) 0x100 n ((fourCells [0, 0, 0, 0]).at 0) =
      some ({ fourCells [0, 0, 0, 0] with screen_buf := [0], screen_idx := 1 }.at 6) := by
  have hadd : (Body.plain (.plain .nil 0x2b) 0x2b).Does bfAct bfAgain (fourCells [0, 0, 0, 0])
      (fourCells [2, 0, 0, 0]) := .plain (.plain (.nil _) rfl) rfl
  have hfirst : (Body.plain .nil 0x2d).Does bfAct bfAgain (fourCells [2, 0, 0, 0])
      (fourCells [1, 0, 0, 0]) := .plain (.nil _) rfl
  have hsecond : (Body.plain .nil 0x2d).Does bfAct bfAgain (fourCells [1, 0, 0, 0])
      (fourCells [0, 0, 0, 0]) := .plain (.nil _) rfl
  refine (bfvmCont_iff runnable_twice nofun (by simp [twice])).mpr ⟨_, ⟨_, hadd, _, ?_, rfl⟩, rfl⟩
  exact .plain (.again hfirst rfl (.last hsecond rfl)) rfl

end Radare
