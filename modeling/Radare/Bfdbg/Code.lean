import Radare.Bfdbg.Machine
/-!
# The code analysis for brainfuck

Equal bytes in a row are one opcode, of which at most 257 are counted, and `]`
is a jump to the last `[` that was analysed. The debugger agrees: `!stepo` goes
over such a row (`bfvmStep_over`), and in a sweep over a file the jump leads
where the machine goes (`bfSweep_jump`).
-/

namespace Radare

open Common

/-! ## The program -/

/-- `AOP_TYPE_`, as far as it is used here. -/
inductive BfAopType where
  | unk
  | trap
  | cjmp
  | nop
deriving DecidableEq

/-- The part of `struct aop_t` that is set here. -/
structure BfAop where
  type : BfAopType
  jump : ut64
  fail : ut64
  eob : Bool
  length : ℕ

/-- The loop over equal bytes, from a place on. -/
def bfRepeats (buf : ℕ → u8) : ℕ → ℕ → ℕ
  | 0, i => i
  | len + 1, i => if buf i = buf (i + 1) then bfRepeats buf len (i + 1) else i

/-- `arch_bf_aop`, with `last_loop` before it and behind it. -/
def archBfAop (lastLoop addr : ut64) (buf : ℕ → u8) : BfAop × ut64 :=
  let i := bfRepeats buf 256 0
  let length := if i < 1 then 1 else i + 1
  match bfOp (buf 0) with
  | .lbracket => (⟨.trap, 0, 0, false, length⟩, addr)
  | .rbracket => (⟨.cjmp, lastLoop, addr + 1, true, length⟩, lastLoop)
  | .right | .left | .plus | .minus => (⟨.unk, 0, 0, false, length⟩, lastLoop)
  | .dot | .comma | .trap => (⟨.trap, 0, 0, false, length⟩, lastLoop)
  | .other => (⟨.nop, 0, 0, false, length⟩, lastLoop)

/-- What is read of a file from a place on, `io.vaddr` being 0 and no map there.
The buffer that is analysed is taken to hold 0xff behind the file. -/
def bytesAt (text : List u8) (pc i : ℕ) : u8 := text.getD (pc + i) 0xff

/-- Opcode behind opcode to the end of a file, as the loop of
`analyze_function` goes over them. That loop ends at `to`, or after
`MAX_FUN_SIZE` bytes, if these come first. -/
def bfSweep (text : List u8) : ℕ → ut64 → ℕ → List (ℕ × BfAop)
  | 0, _, _ => []
  | fuel + 1, lastLoop, pc =>
    if pc < text.length then
      let (aop, lastLoop) := archBfAop lastLoop (UInt64.ofNat pc) (bytesAt text pc)
      (pc, aop) :: bfSweep text fuel lastLoop (pc + aop.length)
    else []

/-! ## Rows of equal bytes -/

variable {buf : ℕ → u8} {len i k pc n : ℕ} {text : List u8} {beyond : Bfvm → u8} {s t : Bfvm}

theorem bfRepeats_spec (buf : ℕ → u8) (len i : ℕ) :
    i ≤ bfRepeats buf len i ∧ bfRepeats buf len i ≤ i + len ∧
      (∀ j, i ≤ j → j ≤ bfRepeats buf len i → buf j = buf i) ∧
      (bfRepeats buf len i < i + len → buf (bfRepeats buf len i + 1) ≠ buf i) := by
  induction len generalizing i with
  | zero => exact ⟨Nat.le_refl i, Nat.le_refl i, fun j hj hle => by
      rw [Nat.le_antisymm hle hj, bfRepeats], fun h => absurd h (Nat.lt_irrefl i)⟩
  | succ len ih =>
    rw [bfRepeats]
    split_ifs with heq
    · obtain ⟨hge, hle, hsame, hend⟩ := ih (i + 1)
      refine ⟨by omega, by omega, fun j hj hjle => ?_, fun hlt => ?_⟩
      · rcases Nat.eq_or_lt_of_le hj with rfl | hlt
        · rfl
        · rw [hsame j hlt hjle, heq]
      · rw [heq]
        exact hend (by omega)
    · refine ⟨Nat.le_refl i, by omega, fun j hj hle => ?_, fun _ => ?_⟩
      · rw [Nat.le_antisymm hle hj]
      · exact fun h => heq h.symm

theorem length_archBfAop (lastLoop addr : ut64) (buf : ℕ → u8) :
    (archBfAop lastLoop addr buf).1.length = bfRepeats buf 256 0 + 1 := by
  have hlen : (if bfRepeats buf 256 0 < 1 then 1 else bfRepeats buf 256 0 + 1) =
      bfRepeats buf 256 0 + 1 := by
    split_ifs <;> omega
  unfold archBfAop
  dsimp only
  split <;> exact hlen

/-- So many bytes from a place on are equal, and the next is another. -/
structure Row (text : List u8) (pc k : ℕ) : Prop where
  same : ∀ j < k, text.getD (pc + j) 0xff = text.getD pc 0xff
  next : text.getD (pc + k) 0xff ≠ text.getD pc 0xff

/-- There is a row at every place, and the opcode is as long, up to 257. -/
theorem exists_row (h : Runnable text) (hpc : pc < text.length) (lastLoop addr : ut64) :
    ∃ k, Row text pc k ∧ 0 < k ∧ pc + k ≤ text.length ∧
      (archBfAop lastLoop addr (bytesAt text pc)).1.length = min k 257 := by
  obtain ⟨-, -, hsame, hend⟩ := bfRepeats_spec (bytesAt text pc) text.length 0
  obtain ⟨-, hle', hsame', hend'⟩ := bfRepeats_spec (bytesAt text pc) 256 0
  have hlen := length_archBfAop lastLoop addr (bytesAt text pc)
  set r := bfRepeats (bytesAt text pc) text.length 0
  set r' := bfRepeats (bytesAt text pc) 256 0
  have hbyte : text.getD pc 0xff ≠ 0xff := by
    rw [List.getD_eq_getElem text 0xff hpc]
    exact (h.trap _ (List.getElem_mem hpc)).2
  -- behind the text there is another byte
  have hinside : pc + r < text.length := by
    refine Nat.lt_of_not_le fun hge => hbyte ?_
    have hlast := hsame r (Nat.zero_le r) (Nat.le_refl r)
    have hout : bytesAt text pc r = 0xff := List.getD_eq_default text 0xff hge
    exact hlast.symm.trans hout
  have hnext := hend (by omega)
  refine ⟨r + 1, ⟨fun j hj => ?_, hnext⟩, Nat.succ_pos r, by omega, ?_⟩
  · exact hsame j (Nat.zero_le j) (by omega)
  · rw [hlen]
    rcases Nat.lt_trichotomy r r' with hlt | heq | hgt
    · exact absurd (hsame' (r + 1) (Nat.zero_le _) hlt) hnext
    · omega
    · have hfull : ¬ r' < 0 + 256 := by
        intro hshort
        exact hend' hshort (hsame (r' + 1) (Nat.zero_le _) hgt)
      omega

/-- So many single steps. -/
def bfvmSteps (text : List u8) (beyond : Bfvm → u8) : ℕ → Bfvm → Option Bfvm
  | 0, cpu => some cpu
  | n + 1, cpu => (bfvmStep text beyond false 1 cpu).bind (bfvmSteps text beyond n)

/-- A step over is a single step, and on if the byte is the same. -/
theorem bfvmStep_succ {cpu : Bfvm} (htrap : bfOp (bfvmOp text beyond cpu) ≠ .trap) :
    bfvmStep text beyond true (n + 1) cpu = (bfvmStep text beyond false 1 cpu).bind fun cpu' =>
      if bfvmOp text beyond cpu = bfvmOp text beyond cpu' then bfvmStep text beyond true n cpu'
      else some cpu' := by
  rw [bfvmStep, bfvmStep]
  dsimp only
  rw [if_neg htrap, if_neg htrap]
  cases bfvmSwitch text beyond cpu (bfOp (bfvmOp text beyond cpu)) with
  | none => rfl
  | some cpu' =>
    dsimp only
    rw [if_neg (show ¬ (false = true ∧ _) from fun h => Bool.noConfusion h.1), Option.bind_some]
    congr 1
    exact propext ⟨fun h => h.2, fun h => ⟨rfl, h⟩⟩

/-- A single step at a byte that is no `]`. -/
theorem bfvmStep_straight (h : Runnable text) (hpc : pc < text.length)
    (hop : bfOp (text.getD pc 0xff) ≠ .rbracket) : bfvmStep text beyond false 1 (s.at pc) =
      (bfAct (text.getD pc 0xff) s).map fun t => t.at (pc + 1) := by
  rw [bfvmStep_at h hpc]
  unfold turn
  rw [getElem?_bfCode hpc]
  unfold instrOf bfAct
  split
  · rename_i heq
    split at heq
    · cases heq
    · cases heq
    · cases heq
  · rename_i heq
    split at heq
    · cases heq
    · cases heq
    · cases heq
      rw [Option.map_map]
      rfl
  · rename_i heq
    split at heq
    · rename_i hmark
      rw [hmark]
      rfl
    · cases heq
    · cases heq
  · rename_i heq
    split at heq
    · cases heq
    · rename_i hclose
      exact absurd hclose hop
    · cases heq

/-- A row goes on behind its first byte. -/
theorem Row.tail (h : Row text pc (k + 1)) (hk : 0 < k) :
    text.getD (pc + 1) 0xff = text.getD pc 0xff ∧ Row text (pc + 1) k := by
  have hfirst : text.getD (pc + 1) 0xff = text.getD pc 0xff := h.same 1 (by omega)
  refine ⟨hfirst, fun j hj => ?_, ?_⟩
  · rw [hfirst, Nat.add_assoc, Nat.add_comm 1 j]
    exact h.same (j + 1) (by omega)
  · rw [hfirst, Nat.add_assoc, Nat.add_comm 1 k]
    exact h.next

/-- **A step over a row** is a single step for every byte of it. -/
theorem bfvmStep_row (h : Runnable text) (hrow : Row text pc k) (hk : 0 < k)
    (hfit : pc + k ≤ text.length) (hop : bfOp (text.getD pc 0xff) ≠ .rbracket) (hn : k ≤ n) :
    bfvmStep text beyond true n (s.at pc) = bfvmSteps text beyond k (s.at pc) ∧
      ∀ t, bfvmSteps text beyond k (s.at pc) = some t → t.eip = UInt64.ofNat (pc + k) := by
  induction k generalizing pc s n with
  | zero => exact absurd hk (Nat.lt_irrefl 0)
  | succ k ih =>
    obtain ⟨n, rfl⟩ := Nat.exists_eq_succ_of_ne_zero (show n ≠ 0 by omega)
    have hpc : pc < text.length := by omega
    have hlen := h.length
    have hread : bfvmOp text beyond (s.at pc) = text.getD pc 0xff := bfvmOp_at (by omega)
    have htrap : bfOp (bfvmOp text beyond (s.at pc)) ≠ .trap := by
      have hmem : text.getD pc 0xff ∈ text := by
        rw [List.getD_eq_getElem text 0xff hpc]
        exact List.getElem_mem hpc
      rw [hread]
      unfold bfOp
      rw [if_neg (h.trap _ hmem).1]
      split_ifs <;> exact nofun
    have hstep : bfvmStep text beyond false 1 (s.at pc) =
        (bfAct (text.getD pc 0xff) s).map fun t => t.at (pc + 1) := bfvmStep_straight h hpc hop
    rw [bfvmStep_succ htrap, bfvmSteps, hstep]
    cases bfAct (text.getD pc 0xff) s with
    | none => exact ⟨rfl, nofun⟩
    | some u =>
      have hread' : bfvmOp text beyond (u.at (pc + 1)) = text.getD (pc + 1) 0xff :=
        bfvmOp_at (by omega)
      rw [Option.map_some, Option.bind_some, Option.bind_some, hread, hread']
      rcases Nat.eq_zero_or_pos k with rfl | hpos
      · rw [if_neg (fun heq => hrow.next heq.symm)]
        refine ⟨rfl, fun t ht => ?_⟩
        cases ht
        rfl
      · obtain ⟨hfirst, hrest⟩ := hrow.tail hpos
        obtain ⟨hover, heip⟩ := ih (s := u) hrest hpos (by omega)
          (by rw [hfirst]; exact hop) (show k ≤ n by omega)
        rw [if_pos hfirst.symm]
        refine ⟨hover, fun t ht => ?_⟩
        rw [heip t ht, Nat.add_assoc, Nat.add_comm 1 k]

/-- **`!stepo` agrees with the analysis**: at a byte that is no `]` it does a
single step for every byte of the row there and ends behind the row, and the
length of the opcode is that of the row, up to 257. -/
theorem bfvmStep_over (h : Runnable text) (hpc : pc < text.length)
    (hop : bfOp (text.getD pc 0xff) ≠ .rbracket) (hn : text.length ≤ n) (lastLoop addr : ut64)
    (beyond : Bfvm → u8) (s : Bfvm) :
    ∃ k, Row text pc k ∧ (archBfAop lastLoop addr (bytesAt text pc)).1.length = min k 257 ∧
      bfvmStep text beyond true n (s.at pc) = bfvmSteps text beyond k (s.at pc) ∧
      ∀ t, bfvmStep text beyond true n (s.at pc) = some t → t.eip = UInt64.ofNat (pc + k) := by
  obtain ⟨k, hrow, hpos, hfit, hlen⟩ := exists_row h hpc lastLoop addr
  obtain ⟨hover, heip⟩ : bfvmStep text beyond true n (s.at pc) =
      bfvmSteps text beyond k (s.at pc) ∧ ∀ t, bfvmSteps text beyond k (s.at pc) = some t →
        t.eip = UInt64.ofNat (pc + k) := bfvmStep_row h hrow hpos hfit hop (by omega)
  exact ⟨k, hrow, hlen, hover, fun t ht => heip t (hover ▸ ht)⟩

theorem bfvmStep_over_twice :
    ∃ k, Row twice 0 k ∧ (archBfAop 0 0 (bytesAt twice 0)).1.length = min k 257 ∧
      bfvmStep twice (fun _ => 0) true 6 ((fourCells [0, 0, 0, 0]).at 0) =
        bfvmSteps twice (fun _ => 0) k ((fourCells [0, 0, 0, 0]).at 0) := by
  obtain ⟨k, hrow, hlen, hover, -⟩ :=
    bfvmStep_over runnable_twice (show 0 < twice.length from Nat.succ_pos 5) nofun (Nat.le_refl 6)
      0 0 (fun _ => 0) (fourCells [0, 0, 0, 0])
  exact ⟨k, hrow, hlen, hover⟩

/-! ## A sweep -/

/-- The last `[` that was analysed, seen from a place: from there to the nearest
`[` there are no other bytes. -/
def LastLoop (text : List u8) (lastLoop : ut64) (pc : ℕ) : Prop :=
  ∀ mark, nearestMark (bfCode text) pc = some mark → lastLoop.toNat ≤ mark ∧
    ∀ j, lastLoop.toNat ≤ j → j ≤ mark → (bfCode text)[j]? = some .mark

/-- Where there are no marks, the nearest mark stays. -/
theorem nearestMark_add {code : List (Instr u8)}
    (hno : ∀ j, pc ≤ j → j < pc + k → code[j]? ≠ some .mark) :
    nearestMark code (pc + k) = nearestMark code pc := by
  induction k with
  | zero => rfl
  | succ k ih =>
    rw [← Nat.add_assoc, nearestMark]
    split
    · rename_i hget
      exact absurd hget (hno (pc + k) (by omega) (by omega))
    · exact ih fun j hj hlt => hno j hj (by omega)

/-- **An opcode of the sweep** leaves the last `[` as seen from behind it. -/
theorem LastLoop.next {lastLoop : ut64} (h : Runnable text) (hpc : pc < text.length)
    (hlast : LastLoop text lastLoop pc) :
    LastLoop text (archBfAop lastLoop (UInt64.ofNat pc) (bytesAt text pc)).2
      (pc + (archBfAop lastLoop (UInt64.ofNat pc) (bytesAt text pc)).1.length) := by
  have hlen := h.length
  obtain ⟨k, hrow, hpos, hfit, hlength⟩ := exists_row h hpc lastLoop (UInt64.ofNat pc)
  rw [hlength]
  set m := min k 257 with hm
  have hbytes : ∀ j < m, (bfCode text)[pc + j]? = some (instrOf (text.getD pc 0xff)) := by
    intro j hj
    rw [getElem?_bfCode (by omega), hrow.same j (by omega)]
  by_cases hopen : bfOp (text.getD pc 0xff) = .lbracket
  · have hnew : (archBfAop lastLoop (UInt64.ofNat pc) (bytesAt text pc)).2 = UInt64.ofNat pc := by
      unfold archBfAop
      dsimp only
      rw [show bfOp (bytesAt text pc 0) = .lbracket from hopen]
    have hsmall : (UInt64.ofNat pc).toNat = pc := by
      rw [UInt64.toNat_ofNat']
      omega
    have hmarks : ∀ j < m, (bfCode text)[pc + j]? = some .mark := by
      intro j hj
      rw [hbytes j hj, instrOf_mark.mpr hopen]
    rw [hnew]
    intro mark hmark
    obtain ⟨hlt, -, hbetween⟩ := nearestMark_some hmark
    have hend : mark = pc + (m - 1) := by
      rcases Nat.lt_trichotomy mark (pc + (m - 1)) with hlt' | heq | hgt
      · exact absurd (hmarks (m - 1) (by omega)) (hbetween _ hlt' (by omega))
      · exact heq
      · omega
    rw [hsmall]
    refine ⟨by omega, fun j hj hle => ?_⟩
    obtain ⟨i, rfl⟩ := Nat.exists_eq_add_of_le hj
    exact hmarks i (by omega)
  · have hold : (archBfAop lastLoop (UInt64.ofNat pc) (bytesAt text pc)).2 = lastLoop := by
      unfold archBfAop
      dsimp only
      split
      · rename_i heq
        exact absurd heq hopen
      all_goals rfl
    have hskip : nearestMark (bfCode text) (pc + m) = nearestMark (bfCode text) pc := by
      refine nearestMark_add fun j hj hlt => ?_
      obtain ⟨i, rfl⟩ := Nat.exists_eq_add_of_le hj
      rw [hbytes i (by omega)]
      exact fun heq => hopen (instrOf_mark.mp (Option.some.inj heq))
    rw [hold]
    intro mark hmark
    rw [hskip] at hmark
    exact hlast mark hmark

/-- **A sweep**: every opcode is analysed with the last `[` as seen from it. -/
theorem mem_bfSweep (h : Runnable text) {lastLoop : ut64} (hlast : LastLoop text lastLoop pc)
    {x : ℕ × BfAop} (hx : x ∈ bfSweep text n lastLoop pc) :
    ∃ lastLoop', x.1 < text.length ∧ LastLoop text lastLoop' x.1 ∧
      x.2 = (archBfAop lastLoop' (UInt64.ofNat x.1) (bytesAt text x.1)).1 := by
  induction n generalizing lastLoop pc with
  | zero => cases hx
  | succ n ih =>
    rw [bfSweep] at hx
    split_ifs at hx with hpc
    · rcases List.mem_cons.mp hx with rfl | hx
      · exact ⟨lastLoop, hpc, hlast, rfl⟩
      · exact ih (hlast.next h hpc) hx
    · cases hx

/-- Over `[`s the machine steps and does nothing. -/
theorem bfvmSteps_marks (h : Runnable text)
    (hmarks : ∀ j, pc ≤ j → j < pc + k → (bfCode text)[j]? = some .mark) :
    bfvmSteps text beyond k (s.at pc) = some (s.at (pc + k)) := by
  induction k generalizing pc with
  | zero => rfl
  | succ k ih =>
    have hmark := hmarks pc (Nat.le_refl pc) (by omega)
    have hpc : pc < text.length := by
      obtain ⟨hlt, -⟩ := List.getElem?_eq_some_iff.mp hmark
      rwa [length_bfCode] at hlt
    have hstep : bfvmStep text beyond false 1 (s.at pc) = some (s.at (pc + 1)) := by
      rw [bfvmStep_at h hpc]
      unfold turn
      rw [hmark]
      rfl
    rw [bfvmSteps, hstep, Option.bind_some, ih fun j hj hlt => hmarks j (by omega) (by omega)]
    rw [Nat.add_assoc, Nat.add_comm 1 k]

/-- **The jumps of a sweep** lead where the machine goes: at the address of a
`]` it goes on at `fail` if the cell is 0, and else to a place to which it also
comes from `jump`, with nothing done on the way. What was analysed before the
sweep does not matter. -/
theorem bfSweep_jump (h : Runnable text) {lastLoop : ut64} {aop : BfAop}
    (hx : (pc, aop) ∈ bfSweep text n lastLoop 0) (htype : aop.type = .cjmp)
    (beyond : Bfvm → u8) (s : Bfvm) :
    if s.get = 0 then
      bfvmStep text beyond false 1 (s.at pc) = some { s with eip := aop.fail }
    else
      ∃ pc' k, bfvmStep text beyond false 1 (s.at pc) = some (s.at pc') ∧
        bfvmSteps text beyond k { s with eip := aop.jump } = some (s.at pc') := by
  obtain ⟨last, hpc, hlast, haop⟩ := mem_bfSweep h (fun mark hmark => by cases hmark) hx
  dsimp only at hpc hlast haop
  have hclose : bfOp (text.getD pc 0xff) = .rbracket ∧ aop.jump = last ∧
      aop.fail = UInt64.ofNat pc + 1 := by
    unfold archBfAop at haop
    dsimp only at haop
    split at haop
    all_goals rw [haop] at htype ⊢
    all_goals first | exact BfAopType.noConfusion htype | skip
    rename_i hop
    exact ⟨hop, rfl, rfl⟩
  obtain ⟨hop, hjump, hfail⟩ := hclose
  have hback : (bfCode text)[pc]? = some .back := by
    rw [getElem?_bfCode hpc]
    unfold instrOf
    rw [hop]
  have hstep : bfvmStep text beyond false 1 (s.at pc) =
      (turn bfAct bfAgain (bfCode text) pc s).map fun x => x.2.at x.1 := bfvmStep_at h hpc
  unfold turn at hstep
  rw [hback] at hstep
  dsimp only at hstep
  split_ifs with hzero
  · have hagain : ¬ bfAgain s = true := by
      unfold bfAgain
      rw [hzero]
      exact nofun
    rw [hstep, if_neg hagain, hfail, Option.map_some]
    unfold Bfvm.at
    dsimp only
    rw [UInt64.ofNat_add]
    rfl
  · have hagain : bfAgain s = true := decide_eq_true hzero
    obtain ⟨m, hm, hmget⟩ := h.marked pc hback
    obtain ⟨mark, hmark⟩ := nearestMark_of_lt hm hmget
    obtain ⟨hle, hmarks⟩ := hlast mark hmark
    rw [if_pos hagain, hmark] at hstep
    have hat : ({ s with eip := aop.jump } : Bfvm) = s.at last.toNat := by
      unfold Bfvm.at
      rw [hjump, UInt64.ofNat_toNat]
    refine ⟨mark + 1, mark + 1 - last.toNat, hstep, ?_⟩
    have hgo : bfvmSteps text beyond (mark + 1 - last.toNat) (s.at last.toNat) =
        some (s.at (last.toNat + (mark + 1 - last.toNat))) :=
      bfvmSteps_marks h fun j hj hlt => hmarks j hj (by omega)
    rw [hat, hgo, Nat.add_sub_cancel' (by omega)]

theorem bfSweep_jump_twice :
    ∃ pc' k, bfvmStep twice (fun _ => 0) false 1 ((fourCells [1, 0, 0, 0]).at 4) =
        some ((fourCells [1, 0, 0, 0]).at pc') ∧
      bfvmSteps twice (fun _ => 0) k { fourCells [1, 0, 0, 0] with eip := 2 } =
        some ((fourCells [1, 0, 0, 0]).at pc') := by
  have hget : (bfSweep twice 6 0 0)[3]? = some (4, ⟨.cjmp, 2, 5, true, 1⟩) := rfl
  have hjump := bfSweep_jump runnable_twice (List.mem_of_getElem? hget) rfl (fun _ => 0)
    (fourCells [1, 0, 0, 0])
  rwa [if_neg (show ¬ (fourCells [1, 0, 0, 0]).get = 0 by decide)] at hjump

end Radare
