import Radare.Ranges.Model
import Radare.Common.Cover
import Radare.Ranges.Add
import Radare.Ranges.Sub
import Radare.Ranges.Count
import Radare.Ranges.Order
import Radare.Common.Window
import Radare.Search.Binparse
import Radare.Search.Step
import Radare.Search.Soundness
import Radare.Search.Bounds
import Radare.Search.Accepting
import Radare.Search.Completeness
import Radare.Search.Independence
import Radare.Rio.Decode
import Radare.Common.Patch
import Radare.Rio.Frame
import Radare.Rio.Undo
import Radare.Rio.Writes
import Radare.Search.Driver
import Radare.Search.Filter
import Radare.Search.Drivers
import Radare.Search.FileDriver
import Radare.Search.RangeDriver
import Radare.Search.Fed
import Radare.Rio.Cursor
import Radare.Rio.Protect
import Radare.Common.Numeral
import Radare.Model.Text
import Radare.Rio.Listing
import Radare.Rio.Redo
import Radare.Rio.SeekHistory
import Radare.Model.Words
import Radare.Rio.Sections
import Radare.Rio.CommandLine
import Radare.Rio.Restore
import Radare.Flags.Model
import Radare.Flags.Remove
import Radare.Flags.Set
import Radare.Flags.Here
import Radare.Trace.Model
import Radare.Trace.Sort
import Radare.Trace.Tags
import Radare.Config.Map
import Radare.Config.Bool
import Radare.Data.Overlap
import Radare.Macros.Table
import Radare.Cons.Buffer
import Radare.Vm.Cache
import Radare.Common.Run
import Radare.Common.Slots
import Radare.Dbg.Bp
import Radare.Dbg.BpTable
import Radare.Dbg.Soft
import Radare.Dbg.Cond
import Radare.Common.Prog
import Radare.Utils.Math
import Radare.Utils.Level
import Radare.Cmd.Raw
import Radare.Cmd.Guard
import Radare.Cmd.TempSeek
import Radare.Cons.GrepAgree
import Radare.Rio.HexPairs
import Radare.Search.HexKeyword
import Radare.Remote.Framing
import Radare.Macros.Frame
import Radare.Data.XrefLines
import Radare.Data.ItemLines
import Radare.Data.Sums
import Radare.Common.Chunks
import Radare.Rahash.Generate
import Radare.Rahash.Check
import Radare.Common.DepthSearch
import Radare.Analyze.Complete
import Radare.Common.Zipper
import Radare.Cons.LineEditor
import Radare.Rio.Copies
import Radare.Rio.Insert
import Radare.Rio.Resize
import Radare.Rio.Masks
import Radare.Common.Groups
import Radare.Rio.BlockOp
import Radare.Rio.BlockKey
import Radare.Rio.Buffers
import Radare.Rio.HexBounds
import Radare.Common.Gaps
import Radare.Flags.Filter
import Radare.Ranges.Boolean
import Radare.Search.Syntax
import Radare.Ranges.Expr
import Radare.Rio.MapReads
import Radare.Common.Trail
import Radare.Trace.Show
import Radare.Common.Attempts
import Radare.Search.SeekSearch
import Radare.Search.FirstMatch
import Radare.Rio.Escapes
import Radare.Rio.HexReads
import Radare.Common.Parting
import Radare.Utils.Words
import Radare.Utils.StrGrep
import Radare.Utils.Literal
import Radare.Utils.Arith
import Radare.Utils.Compare
import Radare.Common.Binary
import Radare.Utils.Bits
import Radare.Rax.Model
import Radare.Rax.Binary
import Radare.Common.Marks
import Radare.Utils.Strsub
import Radare.Common.Tries
import Radare.Cons.Replace
import Radare.Cons.Ansi
import Radare.Data.Comments
import Radare.Data.Vars
import Radare.Common.Ring
import Radare.Data.DelRange
import Radare.Rio.Align
import Radare.Common.Lookup
import Radare.Vm.Model
import Radare.Vm.Regs
import Radare.Vm.Stack
import Radare.Vm.Alias
import Radare.Vm.Store
import Radare.Common.ShiftReg
import Radare.Rahash.Crc
import Radare.Common.Differ
import Radare.Radiff.ByteDiff
import Radare.Radiff.RdbDiff
import Radare.Analyze.Split
import Radare.Common.Descent
import Radare.Analyze.Collect
import Radare.Common.Runs
import Radare.Analyze.Memory
import Radare.Dbg.RegTok
import Radare.Macros.Args
import Radare.Common.History
import Radare.Macros.Labels
import Radare.Common.Hanging
import Radare.Btree.Model
import Radare.Btree.Remove
import Radare.Btree.Built
import Radare.Btree.Delete
import Radare.Common.Traced
import Radare.Macros.Level
import Radare.Radiff.Count
import Radare.Common.Stores
import Radare.Rasc.Shellcode
import Radare.Javasm.Pool
import Radare.Javasm.Ops
import Radare.Pas.Mips
import Radare.Rasm.Branches
import Radare.Common.Stretches
import Radare.Strings.Stripstr
import Radare.Common.Digest
import Radare.Rahash.Md5
import Radare.Rahash.Digests
import Radare.Common.Delta
import Radare.Radiff.Bsdiff
import Radare.Radiff.Bspatch
import Radare.Bfdbg.Code
import Radare.Remote.Gdb
