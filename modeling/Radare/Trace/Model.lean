import Radare.Model.Word
import Radare.Common.MoveSort
/-!
# Traces

`trace.c` keeps a list of the addresses that were executed, each with how
often and under which tags. This file is the code: `traceAdd` appends a
record, and before it under `trace.dup`, or instead of it otherwise, brings
the records of the address up to date; `traceGet` looks for a record of an
address, and of a tag; `traceSort` moves the nodes of the list, under the
flag `trace_changed`.
-/

namespace Radare

/-- `struct trace_t`. -/
structure TraceT where
  addr : ut64
  tags : ut64 := 0
  opsize : ℤ := 0
  times : ℤ := 0
  count : ℕ := 0
  /-- What `gettimeofday` gave. -/
  tm : ℕ := 0
deriving DecidableEq, Repr

/-- The static variables of `trace.c`, as they start. -/
structure TraceState where
  traces : List TraceT := []
  nTraces : ℕ := 0
  changed : Bool := false
  tag : ℤ := -1
deriving DecidableEq

/-- What `trace_add` is given by the rest of the program. -/
structure TraceEnv where
  /-- `arch_aop`, which may be `NULL`: the length of an opcode. -/
  archAop : Option (ut64 → List u8 → ℤ)
  /-- `config_get("trace.dup")`. -/
  dup : Bool
  /-- The 16 bytes read at the address. -/
  bytes : List u8
  /-- `gettimeofday`. -/
  now : ℕ

/-- `trace_tag_set`. -/
def traceTagSet (s : TraceState) (id : ℤ) : TraceState × ℤ :=
  if id ≥ -1 ∧ id < 64 then ({ s with tag := id }, 1) else (s, 0)

/-- `1<<tag`, as it is converted for the test. For a tag that is negative,
or too large for an `int`, the language says nothing. -/
def shiftOne (undef : ℤ → ut64) (tag : ℤ) : ut64 :=
  if 0 ≤ tag ∧ tag < 31 then UInt64.ofNat (2 ^ tag.toNat) else undef tag

/-- `trace_get`: the first record of an address that has the tag. -/
def traceGet (undef : ℤ → ut64) (s : TraceState) (addr : ut64) (tag : ℤ) : Option TraceT :=
  s.traces.find? fun h => ¬(tag ≠ -1 ∧ h.tags &&& shiftOne undef tag = 0) ∧ h.addr = addr

/-- `if (trace_tag != -1) t->tags |= trace_tag`. -/
def TraceT.mark (tag : ℤ) (t : TraceT) : TraceT :=
  if tag ≠ -1 then { t with tags := t.tags ||| UInt64.ofInt tag } else t

/-- The loop of `trace_add` under `trace.dup`: every record of the
address. -/
def traceBumpAll (tag : ℤ) (addr : ut64) (traces : List TraceT) : List TraceT :=
  traces.map fun t =>
    if t.addr = addr then { t.mark tag with times := t.times + 1 } else t

/-- The other loop, which ends at the first record of the address; `none`
where there is none. -/
def traceBump (tag : ℤ) (addr : ut64) (count now : ℕ) : List TraceT → Option (List TraceT × ℤ)
  | [] => none
  | t :: traces =>
    if t.addr = addr then
      some ({ t.mark tag with count := count, tm := now, times := t.times + 1 } :: traces,
        t.times + 1)
    else (traceBump tag addr count now traces).map fun (l, times) => (t :: l, times)

/-- The record appended at the end of `trace_add`. -/
def traceNew (env : TraceEnv) (aop : ut64 → List u8 → ℤ) (s : TraceState) (addr : ut64) : TraceT :=
  TraceT.mark s.tag
    { addr := addr, times := 1, opsize := aop addr env.bytes, tm := env.now, count := s.nTraces + 1 }

/-- `trace_add`. -/
def traceAdd (env : TraceEnv) (s : TraceState) (addr : ut64) : TraceState × ℤ :=
  match env.archAop with
  | none => (s, -1)
  | some aop =>
    let append := fun s : TraceState =>
      ({ s with
          traces := s.traces ++ [traceNew env aop s addr]
          nTraces := s.nTraces + 1
          changed := true }, (1 : ℤ))
    if env.dup then append { s with traces := traceBumpAll s.tag addr s.traces }
    else
      match traceBump s.tag addr (s.nTraces + 1) env.now s.traces with
      | some (traces, times) => ({ s with traces := traces, nTraces := s.nTraces + 1 }, times)
      | none => append s

/-- `trace_sort`. -/
def traceSort (s : TraceState) : Option TraceState :=
  if s.changed = false then some s
  else
    (Common.moveSort (fun n : ℕ × TraceT => n.2.addr)
      ((List.range s.traces.length).zip s.traces)).map
        fun (nodes, ch) => { s with traces := nodes.map Prod.snd, changed := ch }

/-! ## Runs -/

/-- The calls. -/
inductive TraceOp where
  | tagSet (id : ℤ)
  | add (env : TraceEnv) (addr : ut64)
  | sort

/-- One call. -/
def TraceOp.step (s : TraceState) : TraceOp → Option TraceState
  | .tagSet id => some (traceTagSet s id).1
  | .add env addr => some (traceAdd env s addr).1
  | .sort => traceSort s

/-- The calls one after the other, from the start. -/
def traceRun (ops : List TraceOp) : Option TraceState :=
  ops.foldlM TraceOp.step {}

end Radare
