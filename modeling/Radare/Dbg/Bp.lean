import Mathlib.Data.Fin.Basic
import Mathlib.Logic.Function.Basic
import Mathlib.Tactic.Common
import Radare.Model.Word
/-!
# The table of breakpoints

`bp.c` keeps the breakpoints in a table of `MAX_BPS` slots and their number
in `ps.bps_n`. A slot is free if its address is 0. This file is the code;
what the hooks of the architecture make of the debuggee, and of what a slot
saves of it, is a parameter.
-/

namespace Radare

def maxBps : ℕ := 128

/-- `BP_NONE` and the others. -/
inductive BpType where
  | none
  | hard
  | soft
  | trace
deriving DecidableEq

/-- `struct bp_t`. -/
structure BpT where
  hw : Bool := false
  addr : ut64 := 0
  len : ℕ := 0
  trace : Bool := false
  data : List u8 := []

/-- What `ps` has of the breakpoints, and the debuggee. -/
structure DebugT (σ : Type) where
  bps : Fin maxBps → BpT
  bpsN : ℤ
  world : σ

/-- What a hook returns, what it leaves in the slot, and the debuggee. -/
structure HookRet (σ : Type) where
  ret : ℤ
  len : ℕ
  data : List u8
  world : σ

/-- The architecture, and the flags. -/
structure ArchHooks (σ : Type) where
  /-- `arch_pc`. -/
  pc : σ → ut64
  setBpHw : BpT → ut64 → σ → HookRet σ
  setBpSoft : BpT → ut64 → σ → HookRet σ
  bpRmHw : BpT → σ → HookRet σ
  bpRmSoft : BpT → σ → HookRet σ
  /-- The command `f -breakpoint@` with an address. -/
  flagRm : ut64 → σ → σ

variable {σ : Type}

/-- The slot as a hook leaves it. -/
def BpT.saved (bp : BpT) (r : HookRet σ) : BpT := { bp with len := r.len, data := r.data }

/-- A slot rewritten. -/
def DebugT.put (ps : DebugT σ) (i : Fin maxBps) (bp : BpT) : DebugT σ :=
  { ps with bps := Function.update ps.bps i bp }

/-- The slot where a hook failed. -/
def DebugT.failed (ps : DebugT σ) (i : Fin maxBps) (r : HookRet σ) : DebugT σ :=
  { ps.put i ((ps.bps i).saved r) with world := r.world }

/-- The slot where it did not, which is free then. -/
def DebugT.freed (ps : DebugT σ) (i : Fin maxBps) (r : HookRet σ) : DebugT σ :=
  { ps.put i { (ps.bps i).saved r with addr := 0 } with
      bpsN := ps.bpsN - 1, world := r.world }

/-- `debug_bp_get`: the first slot with an address. Of 0, it is the first
one that is free. -/
def debugBpGet (ps : DebugT σ) (addr : ut64) : Option (Fin maxBps) :=
  Fin.find? fun i => (ps.bps i).addr = addr

/-- The switch of `debug_bp_set`. -/
def setBp (h : ArchHooks σ) (type : BpType) (bp : BpT) (addr : ut64) (w : σ) : HookRet σ :=
  match type with
  | .hard => h.setBpHw bp addr w
  | .none | .soft | .trace => h.setBpSoft bp addr w

/-- It, and what follows where that hook failed: the hardware hook, and the
other one. -/
def armSlot (h : ArchHooks σ) (bp : BpT) (addr : ut64) (type : BpType) (w : σ) : ℤ × BpT × σ :=
  let bp := { bp with trace := type = .trace }
  let r := setBp h type bp addr w
  let bp := { bp.saved r with hw := type = .hard }
  if 0 ≤ r.ret then (r.ret, { bp with addr := addr }, r.world)
  else
    let r := h.setBpHw bp addr r.world
    let bp := bp.saved r
    if 0 ≤ r.ret then (r.ret, { bp with hw := true, addr := addr }, r.world)
    else
      let r := h.setBpSoft bp addr r.world
      let bp := bp.saved r
      if 0 ≤ r.ret then (r.ret, { bp with hw := false, addr := addr }, r.world)
      else (r.ret, { bp with addr := 0 }, r.world)

/-- `debug_bp_set`. Where no slot is free it would write in front of the
table. -/
def debugBpSet (h : ArchHooks σ) (ps : DebugT σ) (addr : ut64) (type : BpType) :
    Option (ℤ × DebugT σ) :=
  let addr := if addr = 0 then h.pc ps.world else addr
  if ps.bpsN = maxBps then some (-2, ps)
  else if (debugBpGet ps addr).isSome then some (0, ps)
  else
    (debugBpGet ps 0).map fun i =>
      let (ret, bp, world) := armSlot h (ps.bps i) addr type ps.world
      if ret < 0 then (ret, { ps.put i bp with world := world })
      else (i, { ps.put i bp with bpsN := ps.bpsN + 1, world := world })

/-- The hook that removes a breakpoint of its kind. -/
def bpRm (h : ArchHooks σ) (bp : BpT) (w : σ) : HookRet σ :=
  if bp.hw then h.bpRmHw bp w else h.bpRmSoft bp w

/-- `debug_bp_rm`. -/
def debugBpRm (h : ArchHooks σ) (ps : DebugT σ) (addr : ut64) : ℤ × DebugT σ :=
  match debugBpGet ps addr with
  | none => (-1, ps)
  | some i =>
    let r := bpRm h (ps.bps i) ps.world
    if r.ret < 0 then (r.ret, ps.failed i r)
    else (0, { ps.freed i r with world := h.flagRm addr r.world })

/-- `debug_bp_get_num`. -/
def debugBpGetNum (ps : DebugT σ) (num : ℤ) : Option ℕ :=
  if 0 ≤ num ∧ num < ps.bpsN then some num.toNat else none

/-- `debug_bp_rm_num`. With a number from `MAX_BPS` on it would read behind
the table. -/
def debugBpRmNum (h : ArchHooks σ) (ps : DebugT σ) (num : ℤ) : Option (ℤ × DebugT σ) :=
  if 0 ≤ num ∧ num < ps.bpsN then
    if hnum : num.toNat < maxBps then some (debugBpRm h ps (ps.bps ⟨num.toNat, hnum⟩).addr)
    else none
  else some (0, ps)

/-- The loop of `debug_bp_rms`, over the slots from one on. -/
def rmsLoop (h : ArchHooks σ) (ps : DebugT σ) : List (Fin maxBps) → DebugT σ
  | [] => ps
  | i :: is =>
    if 0 < ps.bpsN then
      if (ps.bps i).addr > 0 then
        let r := bpRm h (ps.bps i) ps.world
        if r.ret < 0 then ps.failed i r else rmsLoop h (ps.freed i r) is
      else rmsLoop h ps is
    else ps

/-- `debug_bp_rms`. -/
def debugBpRms (h : ArchHooks σ) (ps : DebugT σ) : ℤ × DebugT σ :=
  let ps' := rmsLoop h ps (List.finRange maxBps)
  (ps.bpsN - ps'.bpsN, ps')

/-- A call. -/
inductive BpOp where
  | set (addr : ut64) (type : BpType)
  | rm (addr : ut64)
  | rmNum (num : ℤ)
  | rms

/-- What it makes of the table. -/
def bpStep (h : ArchHooks σ) (ps : DebugT σ) : BpOp → Option (DebugT σ)
  | .set addr type => (debugBpSet h ps addr type).map Prod.snd
  | .rm addr => some (debugBpRm h ps addr).2
  | .rmNum num => (debugBpRmNum h ps num).map Prod.snd
  | .rms => some (debugBpRms h ps).2

/-- The table as `debug_init` clears it. -/
def emptyTable (w : σ) : DebugT σ where
  bps _ := {}
  bpsN := 0
  world := w

end Radare
