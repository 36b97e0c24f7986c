import Mathlib.Data.Int.Notation
import Mathlib.Data.List.Basic
import Mathlib.Tactic.Common
import Radare.Common.Loop
import Radare.Model.Word
/-!
# Data items and cross references

The two tables of `data.c`, the newest entry first: what stands at a range
of addresses, and which address refers to which. `data_add` puts an item in
front of the others, once those that have its first address are gone.
-/

namespace Radare

open Common

/-- The types of a data item. -/
inductive DataType where
  /-- `DATA_HEX` -/
  | hex
  /-- `DATA_STR` -/
  | str
  /-- `DATA_CODE` -/
  | code
  /-- `DATA_FUN` -/
  | fun_
  /-- `DATA_STRUCT` -/
  | struct_
  /-- `DATA_FOLD_O` -/
  | foldO
  /-- `DATA_FOLD_C` -/
  | foldC
  | other (n : ℤ)
deriving DecidableEq

/-- `struct data_t`. -/
structure DataT where
  from_ : ut64
  to_ : ut64
  type : DataType
  size : ut64
  /-- The first 128 characters. -/
  arg : List u8
deriving DecidableEq

/-- What `data_add` reads of the configuration. -/
structure DataConfig where
  blockSize : ℤ
  cursorMode : Bool
  cursor : ℤ
  ocursor : ℤ
  seek : ut64

/-- `struct xrefs_t`: what is referred to, from where, and how: 0 is code,
1 is data. -/
structure XrefT where
  addr : ut64
  from_ : ut64
  type : ℤ
deriving DecidableEq

/-! ## Items -/

/-- The item has the address. -/
def DataT.has (d : DataT) (off : ut64) : Bool := d.from_ ≤ off ∧ off < d.to_

/-- The loop of `data_add`, which starts again behind each item it takes
out. -/
def dataClear (off : ut64) (data : List DataT) : List DataT :=
  eraseLoop (·.has off) data.length data

/-- The range of a new item: a block, or with a cursor from the one end of
it to the other. -/
def dataRange (c : DataConfig) (off : ut64) : ut64 × ut64 :=
  if c.cursorMode then
    let from_ := off + UInt64.ofInt c.cursor
    let to_ := if c.ocursor ≠ -1 then c.seek + UInt64.ofInt c.ocursor else off + 1
    if to_ < from_ then (to_, from_) else (from_, to_)
  else (off, off + UInt64.ofInt c.blockSize)

/-- The item `data_add` makes. -/
def dataNew (c : DataConfig) (off : ut64) (type : DataType) : DataT :=
  let (from_, to_) := dataRange c off
  let size := if to_ > from_ then to_ - from_ + 1 else from_ - to_ + 1
  { from_ := from_, to_ := to_, type := type, size := if size < 1 then 1 else size, arg := [] }

/-- `data_add`. -/
def dataAdd (c : DataConfig) (data : List DataT) (off : ut64) (type : DataType) : List DataT :=
  let data := dataClear off data
  if type = .code then data else dataNew c off type :: data

/-- All items that have the address go. -/
theorem dataClear_eq (off : ut64) (data : List DataT) :
    dataClear off data = data.filter (!·.has off) :=
  eraseLoop_eq (Nat.le_refl _)

/-- `data_add_arg`. -/
def dataAddArg (c : DataConfig) (data : List DataT) (off : ut64) (type : DataType)
    (arg : Option (List u8)) : List DataT :=
  match arg with
  | none => data
  | some arg =>
    let data := dataClear off data
    if type = .code then data else { dataNew c off type with arg := arg.take 128 } :: data

/-- `data_del`. -/
def dataDel (data : List DataT) (addr : ut64) (type : DataType) (len : ℤ) : List DataT :=
  data.eraseP fun d =>
    d.from_ = addr ∧ type = d.type ∧ (len = 0 ∨ UInt64.ofInt len = d.size)

/-- `data_get`. -/
def dataGet (data : List DataT) (offset : ut64) : Option DataT := data.find? (·.has offset)

/-! ## References -/

/-- `data_xrefs_add`. -/
def dataXrefsAdd (xrefs : List XrefT) (addr from_ : ut64) (type : ℤ) : List XrefT :=
  if xrefs.any fun x => x.addr = addr ∧ x.from_ = from_ then xrefs
  else ⟨addr, from_, type⟩ :: xrefs

end Radare
