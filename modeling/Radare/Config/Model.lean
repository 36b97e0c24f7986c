import Mathlib.Data.List.Basic
import Mathlib.Tactic.Common
import Radare.Model.Text
/-!
# The configuration

`config.c` keeps the variables of the program in a list of nodes, and
looks for one by the hash of its name, from the end of the list. This file
is the code. What a value means as a number is asked of the expression
reader, and what a node's callback does is left to the program.
-/

namespace Radare

def cnBool : ℕ := 1
def cnInt : ℕ := 2
def cnOfft : ℕ := 4
def cnStr : ℕ := 8
def cnRo : ℕ := 16
def cnRw : ℕ := 32

/-- `true`. -/
def trueText : List u8 := [116, 114, 117, 101]

/-- `false`. -/
def falseText : List u8 := [102, 97, 108, 115, 101]

/-- `struct config_node_t`. -/
structure ConfigNode where
  name : List u8
  /-- The hash of the name. -/
  hash : UInt32
  flags : ℕ
  value : List u8
  iValue : ut64
  /-- The function it points to, if any. -/
  callback : Option ℕ
deriving DecidableEq

/-- `struct config_new_t`. -/
structure ConfigNew where
  lock : Bool := false
  nodes : List ConfigNode := []

/-- What the configuration asks of the rest of the program. -/
structure ConfigEnv where
  getMath : List u8 → ut64
  getOffset : List u8 → ut64
  /-- What a callback makes of the nodes, called with one of them. -/
  call : ℕ → ConfigNode → ConfigNew → ConfigNew

/-! ## `strhash` -/

/-- A `char` as an `int`. -/
def charInt (c : u8) : UInt32 := if c < 128 then c.toUInt32 else c.toUInt32 - 256

/-- The loop of `strhash`, with `i`, `a` and `h`. -/
def hashLoop (i a h : UInt32) : List u8 → UInt32
  | [] => h
  | c :: rest => hashLoop (i + 1) (a * 0x337) (h + charInt c * i * a) rest

/-- `strhash`. The loop starts behind the first character, which of the
empty text is its end: it goes on in what is behind it in memory. -/
def strhash (behind : List u8) : List u8 → UInt32
  | [] => hashLoop 1 0x31 0 behind &&& 0x7ffffff
  | c :: rest => hashLoop 1 0x31 (charInt c) rest &&& 0x7ffffff

/-! ## Nodes -/

/-- `config_node_new`. -/
def configNodeNew (name : List u8) (value : Option (List u8)) : ConfigNode where
  name := name
  hash := strhash [] name
  flags := cnRw ||| cnStr
  value := value.getD []
  iValue := 0
  callback := none

/-- `config_node_get`, which walks the list from its end. -/
def configNodeGet (behind : List u8) (c : ConfigNew) (name : List u8) : Option ConfigNode :=
  c.nodes.findRev? fun bt => bt.hash = strhash behind name

/-- The node it finds, rewritten. -/
def nodeUpdate (hash : UInt32) (f : ConfigNode → ConfigNode) : List ConfigNode → List ConfigNode
  | [] => []
  | bt :: nodes =>
    if nodes.any fun bt => bt.hash = hash then bt :: nodeUpdate hash f nodes
    else (if bt.hash = hash then f bt else bt) :: nodes

/-- What `config_set` writes to a node that is there. -/
def ConfigNode.assign (env : ConfigEnv) (value : Option (List u8)) (node : ConfigNode) :
    ConfigNode :=
  if node.flags &&& cnBool ≠ 0 then
    let b : Bool := value = some trueText ∨ value = some [49]
    { node with iValue := if b then 1 else 0, value := if b then trueText else falseText }
  else
    match value with
    | none => { node with value := [], iValue := 0 }
    | some value =>
      { node with
          value := value
          iValue := if 37 ∈ value then 0
            else if 47 ∈ value then env.getOffset value
            else env.getMath value
          flags := node.flags ||| cnInt }

/-- What it makes of a name that has no node. -/
def configCreate (name : List u8) (value : Option (List u8)) : ConfigNode :=
  let node := configNodeNew name value
  if value = some trueText ∨ value = some falseText then
    { node with flags := node.flags ||| cnBool, iValue := if value = some trueText then 1 else 0 }
  else node

/-- The callback of a node, if it has one. -/
def ConfigEnv.notify (env : ConfigEnv) (node : ConfigNode) (c : ConfigNew) : ConfigNew :=
  match node.callback with
  | some f => env.call f node c
  | none => c

/-- `config_set`. -/
def configSet (env : ConfigEnv) (c : ConfigNew) (name : List u8) (value : Option (List u8)) :
    ConfigNew :=
  if name = [] then c
  else
    match configNodeGet [] c name with
    | some node =>
      if node.flags &&& cnRo ≠ 0 then c
      else
        env.notify (node.assign env value)
          { c with nodes := nodeUpdate (strhash [] name) (·.assign env value) c.nodes }
    | none =>
      if c.lock then c
      else
        env.notify (configCreate name value)
          { c with nodes := c.nodes ++ [configCreate name value] }

/-- What `config_set_i` writes to a node that is there. -/
def ConfigNode.assignI (i : ut64) (node : ConfigNode) : ConfigNode :=
  { node with
      value := if node.flags &&& cnBool ≠ 0 then if i ≠ 0 then trueText else falseText
        else longText i
      flags := cnRw ||| cnInt
      iValue := i }

/-- What it makes of a name that has no node. -/
def configCreateI (name : List u8) (i : ut64) : ConfigNode :=
  { configNodeNew name (some (intText i.toUInt32)) with flags := cnRw ||| cnOfft, iValue := i }

/-- `config_set_i`. -/
def configSetI (env : ConfigEnv) (behind : List u8) (c : ConfigNew) (name : List u8) (i : ut64) :
    ConfigNew :=
  match configNodeGet behind c name with
  | some node =>
    if node.flags &&& cnRo ≠ 0 then c
    else
      env.notify (node.assignI i)
        { c with nodes := nodeUpdate (strhash behind name) (·.assignI i) c.nodes }
  | none =>
    if c.lock then c
    else env.notify (configCreateI name i) { c with nodes := c.nodes ++ [configCreateI name i] }

/-- What `config_get` returns. -/
inductive ConfigValue where
  | null
  /-- The number 1, as a pointer. -/
  | one
  | str (value : List u8)
deriving DecidableEq

/-- `config_get`, and `config_get_notfound`. -/
def configGet (behind : List u8) (c : ConfigNew) (name : List u8) : ConfigValue × Bool :=
  match configNodeGet behind c name with
  | some node =>
    if node.flags &&& cnBool ≠ 0 then
      (if node.value = trueText ∨ node.value = [49] then .one else .null, false)
    else (.str node.value, false)
  | none => (.null, true)

/-- `config_get_i`. -/
def configGetI (env : ConfigEnv) (behind : List u8) (c : ConfigNew) (name : List u8) : ut64 :=
  match configNodeGet behind c name with
  | some node => if node.iValue ≠ 0 then node.iValue else env.getMath node.value
  | none => 0

end Radare
