import Mathlib.Algebra.Group.Nat.Defs
import Mathlib.Tactic.Common
import Radare.Model.Text
/-!
# Stop conditions

`dbg/parser.c` reads a condition into a group of tokens, each with the
operator behind it, and a group keeps its tokens in the order of a list
they are added in front of. This file is the code: the reader of a token
(`getTok`), that of a group (`condLoop`), and the evaluator, which goes
through a group from its first token and passes what cannot matter
(`evalGroup`).
-/

namespace Radare

/-- `enum`, the arithmetical operations. -/
inductive CmpOp where
  | lt
  | le
  | eq
  | ne
  | ge
  | gt
deriving DecidableEq

/-- `LOG_OR` and `LOG_AND`. -/
inductive LogOp where
  | or
  | and
deriving DecidableEq

/-- `REG_TOK` and `MEM_TOK`. -/
inductive TokType where
  | reg
  | mem
deriving DecidableEq

/-- What `val` points to. -/
inductive TokVal where
  | long (n : ut64)
  | bytes (data : List u8)
deriving DecidableEq

/-- A token that is no group. -/
structure CondTok where
  /-- How much of the text was left where it starts, which tells it from
  the others. -/
  pos : ℕ
  type : TokType
  off : ut64
  op : CmpOp
  val : TokVal
  len : ℕ
deriving DecidableEq

/-- `struct tok`. -/
inductive Tok where
  | atom (t : CondTok) (logOp : Option LogOp)
  | group (list : List Tok) (logOp : Option LogOp)

/-- What the parser asks of the rest of the program. -/
structure ParserEnv where
  /-- The registers of the architecture, with their offsets. -/
  roff : List (List u8 × ut64)
  /-- `sizeof(unsigned long)`. -/
  longSize : ℕ
  /-- The number that memory just allocated has for a type, for a token
  that starts some text. -/
  fresh : List u8 → ℤ
  getMath : List u8 → ut64
  hexstr2binstr : List u8 → List u8

variable (env : ParserEnv)

/-! ## Tokens -/

/-- `skip_chars`. -/
def skipChars (c : List u8) : List u8 := c.dropWhile fun ch => ch = 32 ∨ ch = 9

/-- `ishexa`. -/
def isHexa (c : u8) : Bool := (hexDigit c).isSome

def isDec (c : u8) : Bool := 48 ≤ c ∧ c ≤ 57

/-- `get_reg`: the first register whose name the text starts with. -/
def getReg (text : List u8) : Option (List u8 × ut64) :=
  env.roff.find? fun r => r.1.isPrefixOf text

/-- The operation read by `get_tok_op`, and what is behind it. -/
def readOp : List u8 → Option (CmpOp × List u8)
  | 62 :: c => if c.head? = some 61 then some (.ge, c.drop 1) else some (.gt, c)
  | 61 :: c => some (.eq, c)
  | 60 :: c =>
    if c.head? = some 61 then some (.le, c)
    else if c.head? = some 62 then some (.ne, c.drop 1)
    else some (.lt, c.drop 1)
  | _ => none

/-- `get_tok_op`, of a token that is not of a type yet. -/
def getTokOp (type : ℤ) (c : List u8) : Option (CmpOp × List u8) :=
  (readOp c).filter fun (op, _) => type ≠ 2 ∨ op = .eq ∨ op = .ne

/-- A number as an `unsigned long`. -/
def toLong (n : ut64) : ut64 := UInt64.ofNat (n.toNat % 256 ^ env.longSize)

/-- `get_tok_value`: the value, its length, and what is behind it. There is none for a
decimal number that does not fit into `aux`, which it is copied into. -/
def getTokValue (type : TokType) (c : List u8) : Option (TokVal × ℕ × List u8) :=
  if [48, 120].isPrefixOf c then
    let digits := (c.drop 2).takeWhile isHexa
    let rest := (c.drop 2).dropWhile isHexa
    if digits.length = 0 ∨ (type = .reg ∧ env.longSize < digits.length / 2) ∨
        512 ≤ digits.length + 2 then none
    else if type = .reg then
      some (.long (toLong env (env.getMath ([48, 120] ++ digits))), env.longSize, rest)
    else
      let data := env.hexstr2binstr digits
      some (.bytes data, data.length, rest)
  else
    let digits := c.takeWhile isDec
    if digits = [] ∨ 512 ≤ digits.length then none
    else some (.long (toLong env (env.getMath digits)), env.longSize, c.dropWhile isDec)

/-- `get_tok` from a `%` on. -/
def getTokReg (pos : ℕ) (c : List u8) : Option (CondTok × List u8) := do
  let (name, off) ← getReg env (c.drop 1)
  let (op, rest) ← getTokOp (env.fresh c) (skipChars (c.drop (name.length + 1)))
  let (val, len, rest) ← getTokValue env .reg (skipChars rest)
  return (⟨pos, .reg, off, op, val, len⟩, rest)

/-- `get_tok` from a `[` on. -/
def getTokMem (pos : ℕ) (c : List u8) : Option (CondTok × List u8) :=
  let addr := skipChars (c.drop 1)
  let digits := (addr.drop 2).takeWhile isHexa
  let rest := skipChars ((addr.drop 2).dropWhile isHexa)
  if ¬[48, 120].isPrefixOf addr ∨ env.longSize < digits.length / 2 ∨ rest.head? ≠ some 93 then none
  else do
    let (op, rest) ← getTokOp (env.fresh c) (skipChars (rest.drop 1))
    let (val, len, rest) ← getTokValue env .mem (skipChars rest)
    return (⟨pos, .mem, env.getMath ([48, 120] ++ digits), op, val, len⟩, rest)

/-- `get_tok`. A token of a register with a `[` behind it is replaced by
the one that starts there. -/
def getTok (c : List u8) : Option (CondTok × List u8) :=
  let c := skipChars c
  if c.head? = some 37 then do
    let (t, rest) ← getTokReg env c.length c
    if rest.head? = some 91 then getTokMem env c.length rest else return (t, rest)
  else if c.head? = some 91 then getTokMem env c.length c
  else none

/-! ## Groups -/

/-- `and` and `or`. -/
def LogOp.text : LogOp → List u8
  | .and => [97, 110, 100]
  | .or => [111, 114]

/-- The operator of the token added last. -/
def setLogOp (op : LogOp) : List Tok → List Tok
  | [] => []
  | .atom t _ :: list => .atom t (some op) :: list
  | .group l _ :: list => .group l (some op) :: list

/-- `get_log_op`, which wants a token before the operator. -/
def getLogOp (c : List u8) (list : List Tok) (f : Bool) : Option (List u8 × List Tok) :=
  if LogOp.and.text.isPrefixOf c then
    if f then some (c.drop 3, setLogOp .and list) else none
  else if LogOp.or.text.isPrefixOf c then
    if f then some (c.drop 2, setLogOp .or list) else none
  else some (c, list)

/-- A token or a group, with `process_cond` for what stands in brackets. -/
def condItem (group : List u8 → Option (List Tok × List u8)) (c : List u8) :
    Option (Tok × List u8) :=
  if c.head? = some 40 then do
    let (list, c) ← group (c.drop 1)
    if c.head? = some 41 then return (.group list none, c.drop 1) else none
  else do
    let (t, c) ← getTok env c
    return (.atom t none, c)

/-- The loop of `process_cond`, in a number of steps. -/
def condLoop : ℕ → Bool → Bool → List Tok → List u8 → Option (List Tok × List u8)
  | 0, _, _, _, _ => none
  | n + 1, top, f, list, c =>
    if c = [] then some (list, [])
    else do
      let (c, list) ← getLogOp (skipChars c) list f
      let c := skipChars c
      if c.head? = some 41 then (if top then none else some (list, c))
      else do
        let (t, c) ← condItem env (condLoop n false false []) c
        condLoop n top true (t :: list) c

/-- `parse_cond`: the group of a text, each step of whose loop takes a
character of it. -/
def parseCond (cond : List u8) : Option (List Tok) :=
  (condLoop env (cond.length + 1) true false [] cond).map Prod.fst

/-! ## Evaluation -/

/-- A value decides what the operator joins it to. -/
def LogOp.decides : LogOp → Bool → Bool
  | .or, val => val
  | .and, val => !val

mutual

/-- `eval_token` by what it makes of a token, and `eval_cond` of a group. -/
def evalTok (truth : CondTok → Bool) : Tok → Bool
  | .atom t _ => truth t
  | .group list _ => (evalGroup truth list).2

/-- The loop of `eval_cond`, from the end of the list, with `log_op` and
`val_cond`. -/
def evalGroup (truth : CondTok → Bool) : List Tok → Option LogOp × Bool
  | [] => (none, true)
  | t :: list =>
    let (logOp, val) := evalGroup truth list
    if logOp.any (·.decides val) then (logOp, val)
    else ((match t with | .atom _ op | .group _ op => op.or logOp), evalTok truth t)

end

/-- `eval_cond`. -/
def evalCond (truth : CondTok → Bool) (group : List Tok) : Bool := (evalGroup truth group).2

end Radare
