import Radare.Model.Word
import Radare.Common.MoveSort
/-!
# Range lists

`ranges.c` keeps a list of half-open address ranges: a global one, and
one for each `ranges_new`. This file is the code. `rangesAdd` rewrites
the elements its interval touches and appends the interval where it
touches none; `rangesSub` scans from the head again after each element
it deletes or splits; `rangesMerge` adds every element to the list it is
in; `rangesSort` moves the nodes of the global list, but only under the
flag `ranges_changed`, which an append and a deletion set and an update
in place does not.

The payload of a range (`data`, `datalen`) is never read here and is left
out.
-/

namespace Radare

/-- `struct range_t`: the addresses from `from_` up to and without
`to_`. -/
structure RangeT where
  from_ : ut64
  to_ : ut64
deriving DecidableEq, Repr

/-- `ranges_abs`: the two ends, the lower one first. -/
def rangesAbs (f t : ut64) : ut64 × ut64 :=
  if f > t then (t, f) else (f, t)

/-- `ranges_get`: the first range an address lies in. -/
def rangesGet (rang : List RangeT) (addr : ut64) : Option RangeT :=
  rang.find? fun r => addr ≥ r.from_ ∧ addr < r.to_

/-- `ranges_size`: the lengths, summed in 64 bits. -/
def rangesSize (rang : List RangeT) : ut64 :=
  rang.foldl (fun sum r => sum + (r.to_ - r.from_)) 0

/-! ## `ranges_add` -/

/-- What the loop of `ranges_add` does to one element. -/
inductive AddCase where
  /-- No case applies: the element neither meets the interval nor touches
  it. -/
  | apart
  /-- The element is left as it is, and the interval is not appended. -/
  | keep
  /-- The element is rewritten, and becomes the value returned. -/
  | update (r : RangeT)
deriving DecidableEq

/-- The five cases, in the source's order: equal, update to, update from,
ignore, update from and to. -/
def addCase (f t : ut64) (r : RangeT) : AddCase :=
  if r.from_ = f ∧ r.to_ = t then .keep
  else if r.from_ ≤ f ∧ r.from_ ≤ t ∧ r.to_ ≥ f ∧ r.to_ ≤ t then .update { r with to_ := t }
  else if r.from_ ≥ f ∧ r.from_ ≤ t ∧ r.to_ ≥ f ∧ r.to_ ≥ t then .update { r with from_ := f }
  else if r.from_ ≤ f ∧ r.from_ ≤ t ∧ r.to_ ≥ f ∧ r.to_ ≥ t then .keep
  else if r.from_ ≥ f ∧ r.from_ ≤ t ∧ r.to_ ≥ f ∧ r.to_ ≤ t then .update ⟨f, t⟩
  else .apart

/-- The element after its turn of the loop. -/
def AddCase.apply (r : RangeT) : AddCase → RangeT
  | .update r' => r'
  | _ => r

/-- The element a case stores in `ret`. -/
def AddCase.ret : AddCase → Option RangeT
  | .update r' => some r'
  | _ => none

/-- What `ranges_add` leaves behind. -/
structure RangesAdd where
  rang : List RangeT
  /-- Whether `ranges_changed` is set. -/
  changed : Bool
  /-- The range returned; `none` where the source returns `ret` without
  having assigned it. -/
  ret : Option RangeT
deriving DecidableEq

/-- `ranges_add`. Each turn of its loop reads and writes one element, so
the pass is a map; `add` survives where no case applied to any element. -/
def rangesAdd (rang : List RangeT) (f t : ut64) (rw : Bool) : RangesAdd :=
  let (f, t) := rangesAbs f t
  let cases := rang.map (addCase f t)
  let rang' := rang.map fun r => (addCase f t r).apply r
  let add := cases.all (· = .apart)
  if rw && add then ⟨rang' ++ [⟨f, t⟩], true, some ⟨f, t⟩⟩
  else ⟨rang', false, (cases.filterMap AddCase.ret).getLast?⟩

/-! ## `ranges_sub` -/

/-- The first two cases of the loop of `ranges_sub`: update to, else
update from. -/
def subTrim (f t : ut64) (r : RangeT) : RangeT :=
  if r.from_ < f ∧ r.from_ < t ∧ r.to_ > f ∧ r.to_ < t then { r with to_ := f }
  else if r.from_ > f ∧ r.from_ < t ∧ r.to_ > f ∧ r.to_ > t then { r with from_ := t }
  else r

/-- The guard of the third case: the range goes. -/
def subDeletes (f t : ut64) (r : RangeT) : Bool :=
  r.from_ > f ∧ r.from_ < t ∧ r.to_ > f ∧ r.to_ < t

/-- The guard of the fourth case: the range is to be cut in two. -/
def subSplits (f t : ut64) (r : RangeT) : Bool :=
  r.from_ < f ∧ r.from_ < t ∧ r.to_ > f ∧ r.to_ > t

/-- How one scan of `ranges_sub` ends: at the head again, or by a
`goto __reloop`. `changed` is whether it set `ranges_changed`. -/
inductive SubScan where
  | done (rang : List RangeT)
  | reloop (rang : List RangeT) (changed : Bool)
deriving DecidableEq

/-- One scan of `ranges_sub`, `pre` being the elements it has passed. The
split adds from `t` to `r->to` after it has set `r->to` to `f`, so what
it adds is the interval it was to remove. -/
def subScan (f t : ut64) (pre : List RangeT) : List RangeT → SubScan
  | [] => .done pre
  | r :: rest =>
    let r := subTrim f t r
    if subDeletes f t r then .reloop (pre ++ rest) true
    else if subSplits f t r then
      let r := { r with to_ := f }
      let out := rangesAdd (pre ++ r :: rest) t r.to_ true
      .reloop out.rang out.changed
    else subScan f t (pre ++ [r]) rest

/-- The scans of `ranges_sub` with their restarts, at most `fuel` of
them. -/
def subLoop (f t : ut64) : ℕ → List RangeT → Bool → Option (List RangeT × Bool)
  | 0, _, _ => none
  | fuel + 1, rang, changed =>
    match subScan f t [] rang with
    | .done rang => some (rang, changed)
    | .reloop rang changed' => subLoop f t fuel rang (changed || changed')

/-- `ranges_sub`: the list left, and whether `ranges_changed` was set. One
scan for each element and one more are enough (`rangesSub_isSome`). -/
def rangesSub (rang : List RangeT) (f t : ut64) : Option (List RangeT × Bool) :=
  let (f, t) := rangesAbs f t
  subLoop f t (rang.length + 1) rang false

/-! ## `ranges_merge` -/

/-- A turn of `ranges_merge` at the `k`-th node of the list it iterates
and adds to. -/
def mergeAt (rang : List RangeT) (k : ℕ) : List RangeT :=
  match rang[k]? with
  | some r => (rangesAdd rang r.from_ r.to_ false).rang
  | none => rang

/-- `ranges_merge(NULL)`. With `rw = 0` no node is added, so the nodes
iterated are those the list had, each read as the turns before left
it. -/
def rangesMerge (rang : List RangeT) : List RangeT :=
  (List.range rang.length).foldl mergeAt rang

/-- `ranges_merge(rang)` into a list of its own: the turns add the
elements of the global list `ranges` to it. -/
def rangesMergeInto (ranges rang : List RangeT) : List RangeT :=
  ranges.foldl (fun rang r => (rangesAdd rang r.from_ r.to_ false).rang) rang

/-- The global list and one list of `ranges_new`. -/
structure RangeLists where
  ranges : List RangeT := []
  rang : List RangeT := []
deriving DecidableEq

/-- The calls that build the two lists: `ranges_add` with `rw` set and
`ranges_merge`, each with `rang` null or not. -/
inductive BuildOp where
  | add (f t : ut64)
  | addTo (f t : ut64)
  | merge
  | mergeTo
deriving DecidableEq

/-- One call. -/
def BuildOp.step (s : RangeLists) : BuildOp → RangeLists
  | .add f t => { s with ranges := (rangesAdd s.ranges f t true).rang }
  | .addTo f t => { s with rang := (rangesAdd s.rang f t true).rang }
  | .merge => { s with ranges := rangesMerge s.ranges }
  | .mergeTo => { s with rang := rangesMergeInto s.ranges s.rang }

/-- The lists a sequence of calls builds. -/
def build (ops : List BuildOp) : RangeLists := ops.foldl BuildOp.step {}

/-! ## The global list -/

/-- The statics of `ranges.c`. -/
structure RangesState where
  ranges : List RangeT := []
  changed : Bool := false
deriving DecidableEq

/-- `ranges_sort`: nothing under a clear flag; else the nodes are moved,
and the flag becomes whether any was. A node is told from another by its
place in the list on entry, which is what its address is to the
source. -/
def rangesSort (s : RangesState) : Option RangesState :=
  if s.changed = false then some s
  else
    (Common.moveSort (fun n : ℕ × RangeT => n.2.from_) ((List.range s.ranges.length).zip s.ranges)).map
      fun (nodes, ch) => ⟨nodes.map Prod.snd, ch⟩

/-- The calls that change the global list. -/
inductive RangesOp where
  | add (f t : ut64)
  | sub (f t : ut64)
  | merge
  | free
  | sort
deriving DecidableEq

/-- One call. -/
def RangesOp.step (s : RangesState) : RangesOp → Option RangesState
  | .add f t =>
    let out := rangesAdd s.ranges f t true
    some ⟨out.rang, s.changed || out.changed⟩
  | .sub f t => (rangesSub s.ranges f t).map fun (rang, changed) => ⟨rang, s.changed || changed⟩
  | .merge => some { s with ranges := rangesMerge s.ranges }
  | .free => some { s with ranges := [] }
  | .sort => rangesSort s

/-- The global list a sequence of calls leaves. -/
def rangesRun (ops : List RangesOp) : Option RangesState := ops.foldlM RangesOp.step {}

end Radare
