import Mathlib.Logic.Relation
import Radare.Analyze.Split
import Radare.Common.Descent
/-!
# Collecting the bytes of blocks

`code_analyze_r_nosplit` and `code_analyze_r_split` copy the opcodes from an address
on, one behind the other, into a buffer of as many bytes as a block has. The loop
looks four bytes ahead, where an opcode may have fifteen, and the length is held in
an `unsigned int`, where -1 is a large number. A copy that leaves the buffer and the
block has no result, so the collectors stay inside exactly where no opcode that is
come to is cut by the end or cannot be decoded (`collectors_inside_iff`). The first
of them makes of a program what the analysis does (`codeAnalyzeRNosplit_eq`).
-/

namespace Radare

open Common Relation

/-- The types of opcodes that the collectors tell apart. -/
inductive OpType where
  | jmp
  | trap
  | ret
  | call
  | push
  /-- Any other. -/
  | other
deriving DecidableEq

/-- The part of `struct aop_t` that is read here. -/
structure OpT where
  type : OpType
  eob : Bool
  jump : ut64
  fail : ut64
  ref : ut64
deriving DecidableEq

/-- What the collectors work on. -/
structure Collector where
  /-- What two calls of `radare_read` leave for an address: the seek, and the memory
  of the block. -/
  read : ut64 → ut64 × List u8
  /-- `arch_aop`: the length, and what it makes of the opcode that is there. -/
  archAop : ut64 → List u8 → OpT → ℤ × OpT
  archAop_ge : ∀ at_ memory aop, -1 ≤ (archAop at_ memory aop).1
  archAop_le : ∀ at_ memory aop, (archAop at_ memory aop).1 ≤ 15
  /-- What is on the stack for `aop`. -/
  stack : ut64 → OpT
  /-- `config.interrupted`, in a call for an address: at its start, or in front of
  the opcode at so many bytes. -/
  interrupted : ut64 → Option ℕ → Bool
  /-- `graph.callblocks`. -/
  callblocks : Bool
  /-- `graph.refblocks`. -/
  refblocks : Bool

/-- `config.block_size`. -/
def collectBlockSize : ℕ := 4096

/-- What an opcode at so many bytes, of such a length, is made of, and the calls
that are added. -/
abbrev Turn := ℕ → ℕ → OpT → OpT × List ut64

/-- An opcode that pushes a reference. -/
def pushTurn (env : Collector) (oseek : ut64) (bsz sz : ℕ) (aop : OpT) : OpT × List ut64 :=
  if aop.type = .push ∧ aop.ref ≠ 0 ∧ env.refblocks then
    ({ aop with
        eob := true
        jump := aop.ref
        fail := oseek + UInt64.ofNat bsz + UInt64.ofNat sz }, [aop.ref])
  else (aop, [])

/-- What `code_analyze_r_nosplit` makes of an opcode. -/
def nosplitTurn (env : Collector) (oseek : ut64) : Turn := fun bsz sz aop =>
  match aop.type with
  | .jmp => ({ aop with eob := true }, [])
  | .call => ({ aop with eob := env.callblocks }, [aop.jump])
  | _ => pushTurn env oseek bsz sz aop

/-- What `code_analyze_r_split` makes of an opcode. -/
def splitTurn (env : Collector) (oseek : ut64) : Turn := fun bsz sz aop =>
  match aop.type with
  | .jmp | .trap | .ret => ({ aop with eob := true }, [])
  | .call => ({ aop with eob := env.callblocks }, [])
  | _ => pushTurn env oseek bsz sz aop

/-- What is found up to the end of a block. -/
structure Collected where
  aop : OpT
  bsz : ℕ
  calls : List ut64

/-- An `int` put into an `unsigned int`. -/
def asUnsigned (n : ℤ) : ℕ := (n % 2 ^ 32).toNat

/-- The opcode at so many bytes. -/
def Collector.op (env : Collector) (seek : ut64) (bsz : ℕ) (aop : OpT) : ℤ × OpT :=
  env.archAop ((env.read seek).1 + UInt64.ofNat bsz) ((env.read seek).2.drop bsz) aop

/-- The loop goes on with the next opcode. -/
def Collector.Goes (env : Collector) (seek : ut64) (bsz : ℕ) (aop : OpT) : Prop :=
  aop.eob = false ∧ bsz + 4 < collectBlockSize ∧ env.interrupted seek (some bsz) = false

instance instDecidableGoes (env : Collector) (seek : ut64) (bsz : ℕ) (aop : OpT) :
    Decidable (env.Goes seek bsz aop) := inferInstanceAs (Decidable (_ ∧ _ ∧ _))

/-- The loop of both functions, which copies an opcode if it is inside of the
buffer and the block. -/
def collectLoop (env : Collector) (turn : Turn) (seek : ut64) (bsz : ℕ) (aop : OpT)
    (calls : List ut64) : Option Collected :=
  if env.Goes seek bsz aop then
    let sz := asUnsigned (env.op seek bsz aop).1
    if _hsz : sz = 0 then some ⟨(env.op seek bsz aop).2, bsz, calls⟩
    else if _hin : bsz + sz ≤ bufSize ∧ bsz + sz ≤ collectBlockSize then
      let t := turn bsz sz (env.op seek bsz aop).2
      collectLoop env turn seek (bsz + sz) t.1 (calls ++ t.2)
    else none
  else some ⟨aop, bsz, calls⟩
termination_by bufSize - bsz
decreasing_by omega

/-! ## `code_analyze_r_nosplit` -/

/-- The type of a block. -/
def OpT.blkType (aop : OpT) : BlkType :=
  if aop.jump ≠ 0 then .body
  else if aop.type = .ret then .last
  else .head

/-- What is put into the program. -/
def Collector.put (env : Collector) (seek : ut64) (w : Collected) (prg : List BlockT) :
    List BlockT :=
  programBlockGetNew (w.calls.foldl (fun prg dest => programBlockAddCall prg seek dest) prg) seek
    fun bt =>
      { bt with
        type := w.aop.blkType
        bytes := (env.read seek).2.take w.bsz
        tnext := w.aop.jump
        fnext := w.aop.fail }

/-- Where it goes on. -/
def OpT.next (aop : OpT) : List ut64 := [aop.jump, aop.fail].filter (· ≠ 0)

/-- The loop of `code_analyze_r_nosplit`. -/
def Collector.nosplit (env : Collector) (seek : ut64) : Option Collected :=
  collectLoop env (nosplitTurn env seek) seek 0 { env.stack seek with eob := false } []

/-- A call of `code_analyze_r_nosplit`, of a depth above 0. -/
def nosplitVisit (env : Collector) (seek : ut64) (prg : List BlockT) :
    Visit ut64 (List BlockT) :=
  if env.interrupted seek none then .skip
  else if (programBlockGet prg seek).isSome then .skip
  else
    match env.nosplit seek with
    | none => .bad
    | some w => .go (env.put seek w prg) w.aop.next

/-- `code_analyze_r_nosplit`. A depth that is negative is like 0. -/
def codeAnalyzeRNosplit (env : Collector) (prg : List BlockT) (seek : ut64) (depth : ℕ) :
    Option (List BlockT) := descend (nosplitVisit env) depth seek prg

/-! ## `code_analyze_r_split` -/

/-- The opcode the loop of `code_analyze_r_split` starts with: none, if a block is
split. -/
def splitStart (env : Collector) (seek : ut64) (prg : ProgramT) : OpT :=
  match prg.blocks.find? (BlockT.splits (env.read seek).1) with
  | some bt => { env.stack seek with jump := bt.tnext, fail := bt.fnext, eob := true }
  | none => { env.stack seek with eob := false }

/-- The loop of `code_analyze_r_split`. -/
def Collector.split (env : Collector) (seek : ut64) (prg : ProgramT) : Option Collected :=
  collectLoop env (splitTurn env seek) seek 0 (splitStart env seek prg) []

/-- A call of `code_analyze_r_split`, of a depth above 0. -/
def splitVisit (env : Collector) (seek : ut64) (prg : ProgramT) : Visit ut64 ProgramT :=
  match env.split seek prg with
  | none => .bad
  | some w =>
    .go (w.calls.foldl (fun prg dest => prg.getNew seek fun bt =>
      { bt with calls := bt.calls ++ [dest] }) (prg.splitNew (env.read seek).1)) w.aop.next

/-- `code_analyze_r_split`. -/
def codeAnalyzeRSplit (env : Collector) (prg : ProgramT) (seek : ut64) (depth : ℕ) :
    Option ProgramT := descend (splitVisit env) depth seek prg

variable {env : Collector} {turn : Turn} {seek : ut64} {bsz : ℕ} {aop : OpT} {calls : List ut64}
  {p q : ℕ × OpT}

/-! ## The walk of the analysis -/

/-- The types of opcodes that the walk tells apart. -/
def OpType.toAop : OpType → AopType
  | jmp => .jmp
  | call => .call
  | push => .push
  | ret => .ret
  | trap | other => .other

def OpT.toAop (aop : OpT) : AopT := ⟨aop.type.toAop, aop.eob, aop.jump, aop.fail, aop.ref⟩

/-- The collector walks as an analyzer does: nothing interrupts, an opcode is decoded
whatever was before it, and the memory holds the block. -/
structure Collector.Walks (env : Collector) (a : Analyzer) : Prop where
  read : a.read = env.read
  memory : ∀ seek, collectBlockSize ≤ (env.read seek).2.length
  blockSize : a.blockSize = collectBlockSize
  archAop : ∀ at_ memory aop, a.archAop at_ memory =
    (asUnsigned (env.archAop at_ memory aop).1, (env.archAop at_ memory aop).2.toAop)
  stack : ∀ seek, a.stack seek = (env.stack seek).toAop
  calm : ∀ seek bsz, env.interrupted seek bsz = false
  callblocks : a.callblocks = env.callblocks
  refblocks : a.refblocks = env.refblocks

def Collected.walked (w : Collected) : Walked := ⟨w.aop.toAop, w.bsz, w.calls⟩

variable {a : Analyzer} {prg : List BlockT}

theorem Collector.Walks.aopEnd (h : env.Walks a) (bsz sz : ℕ) (aop : OpT) :
    aopEnd a seek bsz sz aop.toAop =
      ((nosplitTurn env seek bsz sz aop).1.toAop, (nosplitTurn env seek bsz sz aop).2) := by
  obtain ⟨type, eob, jump, fail, ref⟩ := aop
  cases type with
  | push =>
    have hend : Radare.aopEnd a seek bsz sz (OpT.mk .push eob jump fail ref).toAop =
        if ref ≠ 0 ∧ a.refblocks then
          (⟨.push, true, ref, seek + UInt64.ofNat bsz + UInt64.ofNat sz, ref⟩, [ref])
        else (⟨.push, eob, jump, fail, ref⟩, []) := rfl
    have hturn : nosplitTurn env seek bsz sz (OpT.mk .push eob jump fail ref) =
        if OpType.push = .push ∧ ref ≠ 0 ∧ env.refblocks then
          (⟨.push, true, ref, seek + UInt64.ofNat bsz + UInt64.ofNat sz, ref⟩, [ref])
        else (⟨.push, eob, jump, fail, ref⟩, []) := rfl
    rw [hend, hturn, h.refblocks]
    by_cases href : ref ≠ 0 ∧ env.refblocks = true
    · rw [if_pos href, if_pos ⟨rfl, href⟩]
      rfl
    · rw [if_neg href, if_neg fun h => href h.2]
      rfl
  | call => exact congrArg (fun b => ((⟨.call, b, jump, fail, ref⟩ : AopT), [jump])) h.callblocks
  | jmp => rfl
  | ret => rfl
  | trap => rfl
  | other => rfl

/-- **The two loops** find the same. -/
theorem Collector.Walks.walkLoop (h : env.Walks a) {fuel : ℕ}
    (hfuel : collectBlockSize - bsz < fuel) :
    walkLoop a seek fuel bsz aop.toAop calls =
      (collectLoop env (nosplitTurn env seek) seek bsz aop calls).map Collected.walked := by
  induction fuel generalizing bsz aop calls with
  | zero => exact absurd hfuel (Nat.not_lt_zero _)
  | succ fuel ih =>
    obtain ⟨at_, memory, hread⟩ : ∃ at_ memory, a.read seek = (at_, memory) := ⟨_, _, rfl⟩
    have hmemory : collectBlockSize ≤ memory.length := by
      have hlong := h.memory seek
      rwa [← h.read, hread] at hlong
    have hgoes : env.Goes seek bsz aop ↔ ¬(aop.toAop.eob = true ∨ a.blockSize ≤ bsz + 4) := by
      rw [h.blockSize, not_or, Bool.not_eq_true, not_le]
      exact and_congr_right fun _ => and_iff_left (h.calm seek _)
    have hop : a.archAop (at_ + UInt64.ofNat bsz) (memory.drop bsz) =
        (asUnsigned (env.op seek bsz aop).1, (env.op seek bsz aop).2.toAop) := by
      unfold Collector.op
      rw [← h.read, hread]
      exact h.archAop _ _ aop
    rw [Radare.walkLoop, collectLoop]
    by_cases hend : aop.toAop.eob = true ∨ a.blockSize ≤ bsz + 4
    · rw [if_pos hend, if_neg fun hg => hgoes.mp hg hend]
      rfl
    rw [if_neg hend, if_pos (hgoes.mpr hend), hread]
    simp only [hop]
    set sz := asUnsigned (env.op seek bsz aop).1
    by_cases hzero : sz = 0
    · rw [if_pos hzero, dif_pos hzero]
      rfl
    rw [if_neg hzero, dif_neg hzero, h.aopEnd]
    dsimp only
    by_cases hin : bsz + sz ≤ bufSize ∧ bsz + sz ≤ collectBlockSize
    · rw [if_neg (by omega), dif_pos hin]
      exact ih (by omega)
    · have hsame : bufSize = collectBlockSize := rfl
      rw [if_pos (by omega), dif_neg hin]
      rfl

/-- **The walk is that of the analysis**, and so is all that it makes of a program. -/
theorem codeAnalyzeRNosplit_eq (h : env.Walks a) (depth : ℕ) :
    codeAnalyzeRNosplit env prg seek depth = codeAnalyzeR a depth seek prg := by
  unfold codeAnalyzeRNosplit
  induction depth generalizing seek prg with
  | zero => rfl
  | succ depth ih =>
    have hwalk : a.walk seek = (env.nosplit seek).map Collected.walked := by
      have hstart : { a.stack seek with eob := false } =
          ({ env.stack seek with eob := false } : OpT).toAop := by
        rw [h.stack]
        rfl
      unfold Analyzer.walk Collector.nosplit
      rw [hstart, h.walkLoop (by rw [h.blockSize]; omega)]
    rw [descend, codeAnalyzeR, nosplitVisit, h.calm, if_neg Bool.false_ne_true, hwalk]
    by_cases hknown : (programBlockGet prg seek).isSome
    · rw [if_pos hknown, if_pos hknown]
    rw [if_neg hknown, if_neg hknown]
    cases hw : env.nosplit seek with
    | none => rfl
    | some w =>
      have hput : putBlock a seek w.walked prg = env.put seek w prg := by
        have htype : blkType w.walked.aop = w.aop.blkType := by
          have hret : w.aop.type.toAop = .ret ↔ w.aop.type = .ret := by
            cases w.aop.type <;> decide
          unfold blkType OpT.blkType
          dsimp only [Collected.walked, OpT.toAop]
          simp only [hret]
        unfold putBlock Collector.put
        rw [htype, h.read]
        rfl
      have hjump : w.walked.aop.jump = w.aop.jump := rfl
      have hfail : w.walked.aop.fail = w.aop.fail := rfl
      rw [Option.map_some]
      dsimp only [Option.bind_eq_bind, Option.bind_some]
      rw [hput, hjump, hfail, OpT.next]
      simp only [ih]
      by_cases hj : w.aop.jump = 0
      all_goals by_cases hf : w.aop.fail = 0
      all_goals simp [hj, hf]

/-! ## Where an opcode may lie -/

/-- The loop comes from one opcode to the next. -/
def Collector.Step (env : Collector) (turn : Turn) (seek : ut64) (p q : ℕ × OpT) : Prop :=
  env.Goes seek p.1 p.2 ∧ 0 < (env.op seek p.1 p.2).1 ∧
    q = (p.1 + (env.op seek p.1 p.2).1.toNat,
      (turn p.1 (env.op seek p.1 p.2).1.toNat (env.op seek p.1 p.2).2).1)

/-- The opcode can be decoded, and ends inside. -/
def Collector.Fits (env : Collector) (seek : ut64) (p : ℕ × OpT) : Prop :=
  env.Goes seek p.1 p.2 →
    (env.op seek p.1 p.2).1 ≠ -1 ∧ p.1 + (env.op seek p.1 p.2).1 ≤ collectBlockSize

theorem asUnsigned_op (env : Collector) (seek : ut64) (bsz : ℕ) (aop : OpT) :
    asUnsigned (env.op seek bsz aop).1 =
      if (env.op seek bsz aop).1 = -1 then 2 ^ 32 - 1
      else (env.op seek bsz aop).1.toNat := by
  have hge : -1 ≤ (env.op seek bsz aop).1 := env.archAop_ge _ _ _
  have hle : (env.op seek bsz aop).1 ≤ 15 := env.archAop_le _ _ _
  rw [asUnsigned]
  split <;> omega

/-- **A turn of the loop**: an opcode that does not fit is a copy that leaves the buffer;
behind one that fits the loop ends, or goes on with the next. -/
theorem collectLoop_turn (env : Collector) (turn : Turn) (seek : ut64) (bsz : ℕ) (aop : OpT)
    (calls : List ut64) :
    (¬ env.Fits seek (bsz, aop) ∧ collectLoop env turn seek bsz aop calls = none) ∨
    (env.Fits seek (bsz, aop) ∧ (∀ p, ¬ env.Step turn seek (bsz, aop) p) ∧
      collectLoop env turn seek bsz aop calls ≠ none) ∨
    env.Fits seek (bsz, aop) ∧ ∃ p calls', bsz < p.1 ∧ p.1 ≤ bufSize ∧
      (∀ q, env.Step turn seek (bsz, aop) q ↔ q = p) ∧
      collectLoop env turn seek bsz aop calls = collectLoop env turn seek p.1 p.2 calls' := by
  have hge : -1 ≤ (env.op seek bsz aop).1 := env.archAop_ge _ _ _
  have hsz := asUnsigned_op env seek bsz aop
  rw [collectLoop]
  by_cases hgoes : env.Goes seek bsz aop
  · rw [if_pos hgoes]
    by_cases hneg : (env.op seek bsz aop).1 = -1
    · -- as a length, -1 is larger than the buffer
      rw [if_pos hneg] at hsz
      have hout : ¬(bsz + asUnsigned (env.op seek bsz aop).1 ≤ bufSize ∧
          bsz + asUnsigned (env.op seek bsz aop).1 ≤ collectBlockSize) := by
        unfold bufSize
        omega
      rw [dif_neg (by omega), dif_neg hout]
      exact .inl ⟨fun h => (h hgoes).1 hneg, rfl⟩
    rw [if_neg hneg] at hsz
    by_cases hzero : (env.op seek bsz aop).1 = 0
    · have hbefore := hgoes.2.1
      rw [dif_pos (by omega)]
      have hend : (bsz : ℤ) + (env.op seek bsz aop).1 ≤ collectBlockSize := by omega
      refine .inr (.inl ⟨fun _ => ⟨hneg, hend⟩, fun p hp => ?_, Option.some_ne_none _⟩)
      have hpos : 0 < (env.op seek bsz aop).1 := hp.2.1
      omega
    rw [dif_neg (by omega)]
    by_cases hin : bsz + asUnsigned (env.op seek bsz aop).1 ≤ collectBlockSize
    · have hbuf : bsz + asUnsigned (env.op seek bsz aop).1 ≤ bufSize := hin
      have hend : (bsz : ℤ) + (env.op seek bsz aop).1 ≤ collectBlockSize := by omega
      have hpos : 0 < (env.op seek bsz aop).1 := by omega
      rw [dif_pos ⟨hbuf, hin⟩]
      refine .inr (.inr ⟨fun _ => ⟨hneg, hend⟩, (_, _), _, ?_, hbuf, fun q => ?_, rfl⟩)
      · show bsz < bsz + asUnsigned (env.op seek bsz aop).1
        omega
      · rw [hsz]
        exact ⟨fun hq => hq.2.2, fun hq => ⟨hgoes, hpos, hq⟩⟩
    · rw [dif_neg fun h => hin h.2]
      refine .inl ⟨fun h => ?_, rfl⟩
      have hend : (bsz : ℤ) + (env.op seek bsz aop).1 ≤ collectBlockSize := (h hgoes).2
      omega
  · rw [if_neg hgoes]
    refine .inr (.inl ⟨fun h => absurd h hgoes, fun p hp => ?_, Option.some_ne_none _⟩)
    exact hgoes hp.1

/-- **The loop**: no copy leaves the buffer exactly if every opcode that is come to
fits. -/
theorem collectLoop_ne_none_iff :
    collectLoop env turn seek bsz aop calls ≠ none ↔
      ∀ q, ReflTransGen (env.Step turn seek) (bsz, aop) q → env.Fits seek q := by
  induction hk : bufSize - bsz using Nat.strong_induction_on generalizing bsz aop calls with
  | _ k ih =>
    rw [forall_reached_iff]
    obtain ⟨hfits, hnone⟩ | ⟨hfits, hlast, hsome⟩ | ⟨hfits, p, calls', hlt, hle, hstep, hloop⟩ :=
      collectLoop_turn env turn seek bsz aop calls
    · exact iff_of_false (fun h => h hnone) fun h => hfits h.1
    · exact iff_of_true hsome ⟨hfits, fun p hp => absurd hp (hlast p)⟩
    · rw [hloop, ih (bufSize - p.1) (by omega) rfl, and_iff_right hfits]
      simp only [hstep, forall_eq]

/-- Every opcode fits that the loop for an address comes to, from `aop` on. -/
def Collector.Inside (env : Collector) (turn : Turn) (seek : ut64) (aop : OpT) : Prop :=
  ∀ q, ReflTransGen (env.Step turn seek) (0, aop) q → env.Fits seek q

theorem nosplitVisit_bad_iff {prg : List BlockT} :
    nosplitVisit env seek prg ≠ .bad ↔
      (env.interrupted seek none = false → programBlockGet prg seek = none →
        env.Inside (nosplitTurn env seek) seek { env.stack seek with eob := false }) := by
  have hloop : env.nosplit seek ≠ none ↔
      env.Inside (nosplitTurn env seek) seek { env.stack seek with eob := false } :=
    collectLoop_ne_none_iff
  rw [← hloop, nosplitVisit]
  cases env.interrupted seek none with
  | true => exact iff_of_true nofun nofun
  | false =>
    rw [if_neg Bool.false_ne_true]
    cases programBlockGet prg seek with
    | some bt => exact iff_of_true nofun nofun
    | none =>
      rw [Option.isSome_none, if_neg Bool.false_ne_true]
      cases env.nosplit seek with
      | none => exact iff_of_false (fun h => h rfl) fun h => h rfl rfl rfl
      | some w => exact iff_of_true nofun fun _ _ => nofun

theorem splitVisit_bad_iff {prg : ProgramT} :
    splitVisit env seek prg ≠ .bad ↔
      env.Inside (splitTurn env seek) seek (splitStart env seek prg) := by
  have hloop : env.split seek prg ≠ none ↔
      env.Inside (splitTurn env seek) seek (splitStart env seek prg) := collectLoop_ne_none_iff
  rw [← hloop, splitVisit]
  cases env.split seek prg with
  | none => exact iff_of_false (fun h => h rfl) fun h => h rfl
  | some w => exact iff_of_true nofun nofun

/-- **The collectors stay in their buffer** and in the block exactly when, in every
call that is made and walks over a block, every opcode that is come to can be decoded
and ends inside of the block. -/
theorem collectors_inside_iff (env : Collector) (blocks : List BlockT) (prg : ProgramT)
    (seek : ut64) (depth : ℕ) :
    (codeAnalyzeRNosplit env blocks seek depth ≠ none ↔
      ∀ d a s, Calls (nosplitVisit env) depth seek blocks (d + 1) a s →
        env.interrupted a none = false → programBlockGet s a = none →
          env.Inside (nosplitTurn env a) a { env.stack a with eob := false }) ∧
    (codeAnalyzeRSplit env prg seek depth ≠ none ↔
      ∀ d a s, Calls (splitVisit env) depth seek prg (d + 1) a s →
        env.Inside (splitTurn env a) a (splitStart env a s)) := by
  constructor
  · rw [codeAnalyzeRNosplit, descend_ne_none_iff]
    simp only [nosplitVisit_bad_iff]
  · rw [codeAnalyzeRSplit, descend_ne_none_iff]
    simp only [splitVisit_bad_iff]

theorem neg_one_le_fifteen : (-1 : ℤ) ≤ 15 := by omega

/-- Nothing can be decoded. -/
def undecoded : Collector where
  read := fun seek => (seek, List.replicate 4096 0)
  archAop := fun _ _ aop => (-1, aop)
  archAop_ge := fun _ _ _ => Int.le_refl (-1)
  archAop_le := fun _ _ _ => neg_one_le_fifteen
  stack := fun _ => ⟨.other, false, 0, 0, 0⟩
  interrupted := fun _ _ => false
  callblocks := false
  refblocks := false

/-- Where nothing can be decoded, the first copy has 4294967295 bytes. -/
theorem undecoded_not_inside :
    codeAnalyzeRNosplit undecoded [] 0 1 = none ∧
      codeAnalyzeRSplit undecoded ⟨[], 0⟩ 0 1 = none := by
  have hgoes : undecoded.Goes 0 0 ⟨.other, false, 0, 0, 0⟩ := ⟨rfl, by decide, rfl⟩
  have hloop (turn : Turn) (calls : List ut64) :
      collectLoop undecoded turn 0 0 ⟨.other, false, 0, 0, 0⟩ calls = none := by
    rw [collectLoop, if_pos hgoes]
    rfl
  constructor
  · have hwalk : undecoded.nosplit 0 = none := hloop _ _
    rw [codeAnalyzeRNosplit, descend, nosplitVisit, hwalk]
    rfl
  · have hwalk : undecoded.split 0 ⟨[], 0⟩ = none := hloop _ _
    rw [codeAnalyzeRSplit, descend, splitVisit, hwalk]

end Radare
