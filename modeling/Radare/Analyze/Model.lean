import Radare.Model.Word
/-!
# Code analysis

`code_analyze_r_nosplit` walks over the opcodes from an address to the end
of their block, keeps the block in the program, and goes on where its last
opcode leads to, if the depth is not used up and the address has no block
yet.

The decoder and what is read from the file are left to `Analyzer`. The
bytes of a block are collected in a buffer of 4096; where more are copied
than there is memory for, there is no result. Nothing interrupts.
-/

namespace Radare

/-- The types of opcodes that are told apart. -/
inductive AopType where
  | jmp
  | call
  | push
  | ret
  /-- Any other. -/
  | other
deriving DecidableEq

/-- The part of `struct aop_t` that is read here. -/
structure AopT where
  type : AopType
  eob : Bool
  jump : ut64
  fail : ut64
  ref : ut64
deriving DecidableEq

/-- What the analysis works on. An address is read and walked over once at
most, so what it finds there may depend on the address alone. -/
structure Analyzer where
  /-- What two calls of `radare_read` leave for an address: the seek, and
  the memory of the block, which has 32 bytes more than it. -/
  read : ut64 → ut64 × List u8
  /-- `config.block_size`. -/
  blockSize : ℕ
  /-- `arch_aop`: the length and the opcode. -/
  archAop : ut64 → List u8 → ℕ × AopT
  /-- What is on the stack for `aop`. -/
  stack : ut64 → AopT
  /-- `graph.callblocks`. -/
  callblocks : Bool
  /-- `graph.refblocks`. -/
  refblocks : Bool

/-- `BLK_TYPE_`. -/
inductive BlkType where
  | head
  | body
  | last
deriving DecidableEq

/-- The part of `struct block_t` that the analysis sets. -/
structure BlockT where
  addr : ut64
  type : BlkType
  bytes : List u8
  tnext : ut64
  fnext : ut64
  calls : List ut64
deriving DecidableEq

/-! ## `rdb.c` -/

/-- `block_new`. -/
def blockNew (addr : ut64) : BlockT := ⟨addr, .head, [], 0, 0, []⟩

/-- `program_block_get`, of the blocks of a program, the last first. -/
def programBlockGet (prg : List BlockT) (addr : ut64) : Option BlockT :=
  prg.find? fun bt => bt.addr = addr

/-- `program_block_get_new`, and what is then done to the block. -/
def programBlockGetNew (prg : List BlockT) (addr : ut64) (change : BlockT → BlockT) :
    List BlockT :=
  if (programBlockGet prg addr).isSome then
    prg.modify (prg.findIdx fun bt => bt.addr = addr) change
  else change (blockNew addr) :: prg

/-- `program_block_add_call`. -/
def programBlockAddCall (prg : List BlockT) (addr dest : ut64) : List BlockT :=
  programBlockGetNew prg addr fun bt => { bt with calls := bt.calls ++ [dest] }

/-! ## `analyze.c` -/

/-- The memory for the bytes of a block. -/
def bufSize : ℕ := 4096

/-- What is found from an address to the end of its block: the last opcode,
the size, and where the calls go. -/
structure Walked where
  aop : AopT
  size : ℕ
  calls : List ut64
deriving DecidableEq

/-- What becomes of an opcode at the end of `bsz` bytes, and its call. -/
def aopEnd (env : Analyzer) (seek : ut64) (bsz sz : ℕ) (aop : AopT) : AopT × List ut64 :=
  match aop.type with
  | .jmp => ({ aop with eob := true }, [])
  | .call => ({ aop with eob := env.callblocks }, [aop.jump])
  | .push =>
    if aop.ref ≠ 0 ∧ env.refblocks then
      ({ aop with
          eob := true
          jump := aop.ref
          fail := seek + UInt64.ofNat bsz + UInt64.ofNat sz }, [aop.ref])
    else (aop, [])
  | _ => (aop, [])

/-- The loop over the opcodes. Every turn has a byte at least, so as many as
the block has are enough, and one more. -/
def walkLoop (env : Analyzer) (seek : ut64) : ℕ → ℕ → AopT → List ut64 → Option Walked
  | 0, _, _, _ => none
  | fuel + 1, bsz, aop, calls =>
    if aop.eob ∨ env.blockSize ≤ bsz + 4 then some ⟨aop, bsz, calls⟩
    else
      let (at_, memory) := env.read seek
      let (sz, aop) := env.archAop (at_ + UInt64.ofNat bsz) (memory.drop bsz)
      if sz = 0 then some ⟨aop, bsz, calls⟩
      else
        let (aop, call) := aopEnd env seek bsz sz aop
        if bufSize < bsz + sz ∨ memory.length < bsz + sz then none
        else walkLoop env seek fuel (bsz + sz) aop (calls ++ call)

/-- The walk from an address. -/
def Analyzer.walk (env : Analyzer) (seek : ut64) : Option Walked :=
  walkLoop env seek (env.blockSize + 1) 0 { env.stack seek with eob := false } []

/-- The type of a block. -/
def blkType (aop : AopT) : BlkType :=
  if aop.jump ≠ 0 then .body
  else if aop.type = .ret then .last
  else .head

/-- The block that is walked over, put into the program. -/
def putBlock (env : Analyzer) (seek : ut64) (w : Walked) (prg : List BlockT) : List BlockT :=
  let prg := w.calls.foldl (fun prg dest => programBlockAddCall prg seek dest) prg
  programBlockGetNew prg seek fun bt =>
    { bt with
      type := blkType w.aop
      bytes := (env.read seek).2.take w.size
      tnext := w.aop.jump
      fnext := w.aop.fail }

/-- `code_analyze_r_nosplit`. A depth that is negative is like 0. -/
def codeAnalyzeR (env : Analyzer) : ℕ → ut64 → List BlockT → Option (List BlockT)
  | 0, _, prg => some prg
  | depth + 1, seek, prg =>
    if (programBlockGet prg seek).isSome then some prg
    else do
      let w ← env.walk seek
      let prg := putBlock env seek w prg
      let prg ← if w.aop.jump ≠ 0 then codeAnalyzeR env depth w.aop.jump prg else some prg
      if w.aop.fail ≠ 0 then codeAnalyzeR env depth w.aop.fail prg else some prg

end Radare
