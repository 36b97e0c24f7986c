import Radare.Common.Lines
import Radare.Dbg.Cond
import Radare.Utils.Compare
/-!
# Conditions on registers

A condition on a register is read by `get_tok` and told by `eval_token_reg`. The reader
of the operator goes on by a character too few behind `<=`, and by one too many behind
`<`, the evaluator takes `>` for `>=`, and the number is what `get_math` makes of it.
So which conditions are read to their end and told rightly depends on the operator and
on the blanks around it (`regCond_iff`).
-/

namespace Radare

open Common

/-! ## The evaluator -/

/-- What an operator stands for. -/
def CmpOp.Holds : CmpOp → ℕ → ℕ → Prop
  | .lt, x, n => x < n
  | .le, x, n => x ≤ n
  | .eq, x, n => x = n
  | .ne, x, n => x ≠ n
  | .ge, x, n => n ≤ x
  | .gt, x, n => n < x

/-- `eval_token_reg`, with `config.debug` and `debug_get_regoff`. -/
def evalTokenReg (env : ParserEnv) (debug : Bool) (regoff : ut64 → ut64) (t : CondTok) : Bool :=
  if debug then
    match t.val with
    -- a register is not compared with bytes
    | .bytes _ => false
    | .long val =>
      let regVal := toLong env (regoff t.off)
      match t.op with
      | .le => regVal ≤ val
      | .lt => regVal < val
      | .eq => regVal = val
      | .ne => regVal ≠ val
      | .ge => val ≤ regVal
      -- `default` as well
      | .gt => val ≤ regVal
  else false

variable {env : ParserEnv} {c rest tail w : List u8} {op : CmpOp} {a : Literal} {n : ℕ}
  {off x v : ut64} {math : Utils.MathEnv} {flags : List FlagT} {level : ℤ}

theorem toNat_toLong (env : ParserEnv) (x : ut64) :
    (toLong env x).toNat = x.toNat % 256 ^ env.longSize := by
  have hle := Nat.mod_le x.toNat (256 ^ env.longSize)
  have hlt := x.toNat_lt
  rw [toLong, UInt64.toNat_ofNat']
  exact Nat.mod_eq_of_lt (by omega)

theorem evalTokenReg_long {pos len : ℕ} {regoff : ut64 → ut64} :
    evalTokenReg env true regoff ⟨pos, .reg, off, op, .long v, len⟩ = true ↔
      (if op = .gt then CmpOp.ge else op).Holds (toLong env (regoff off)).toNat v.toNat := by
  cases op <;>
    simp [evalTokenReg, CmpOp.Holds, UInt64.le_iff_toNat_le, UInt64.lt_iff_toNat_lt,
      ← UInt64.toNat_inj]

/-- The number the evaluator has to be given to tell about another one. -/
def CmpOp.given (op : CmpOp) (n : ℕ) : ℕ := if op = .gt then n + 1 else n

/-- Two relations to numbers agree on all that a register can be. -/
theorem holds_iff {m k : ℕ} (hop : op ≠ .le) (hk : k < m) :
    (∀ x < m, (if op = .gt then CmpOp.ge else op).Holds x k ↔ op.Holds x n) ↔ k = op.given n := by
  constructor
  · intro h
    by_contra hne
    -- the smaller of the two numbers tells them apart
    have hself := h (min k (op.given n)) (by omega)
    cases op with
    | le => exact hop rfl
    | lt | eq | ne | ge | gt =>
      simp only [CmpOp.Holds, CmpOp.given, reduceCtorEq, if_false, if_true] at hself hne
      omega
  · rintro rfl x -
    cases op with
    | gt => exact Nat.succ_le_iff
    | lt | le | eq | ne | ge => simp [CmpOp.Holds, CmpOp.given]

/-- **What the evaluator tells**, of every value of a register: the relation to the
number that is read, and a `>` as `>=`. -/
theorem evalTokenReg_iff {pos len : ℕ} (hop : op ≠ .le) :
    (∀ regoff, evalTokenReg env true regoff ⟨pos, .reg, off, op, .long (toLong env v), len⟩ = true ↔
        op.Holds (toLong env (regoff off)).toNat n) ↔
      (toLong env v).toNat = op.given n := by
  simp only [evalTokenReg_long]
  constructor
  · intro h
    refine (holds_iff hop (Nat.lt_succ_self _)).mp fun x hx => ?_
    -- a register can be each number up to the one that is read
    have hreach : (toLong env (UInt64.ofNat x)).toNat = x := by
      have hread := toNat_toLong env v
      have hlt := v.toNat_lt
      have hle := Nat.mod_le v.toNat (256 ^ env.longSize)
      have hmod := Nat.mod_lt v.toNat (Nat.pow_pos (n := env.longSize) (by omega : 0 < 256))
      rw [toNat_toLong, UInt64.toNat_ofNat', Nat.mod_eq_of_lt (by omega : x < 2 ^ 64),
        Nat.mod_eq_of_lt (by omega)]
    have hat := h fun _ => UInt64.ofNat x
    rwa [hreach] at hat
  · intro h regoff
    exact (holds_iff hop (Nat.lt_succ_of_le (Nat.le_max_left _ _))).mpr h _
      (Nat.lt_succ_of_le (Nat.le_max_right _ _))

/-! ## The number -/

/-- What `get_math` makes of a number: the value of the option found by its text, or
what `sscanf` makes of it. -/
def Literal.asMath (math : Utils.MathEnv) (level : ℤ) (a : Literal) : ut64 :=
  if level ≤ 5 then (a.readAt math 0 ⟨level + 1, math.disk⟩).1 else 0

/-- The body of `get_math`, of a number by itself. -/
theorem mathBody_literal (math : Utils.MathEnv) (a : Literal) :
    Utils.mathBody math a.text = Utils.getOffset math (a.within 0 0) := by
  have hwithin : a.within 0 0 = a.text := by simp [Literal.within]
  have hsqueeze : squeeze a.text = a.within 0 0 := by
    have := a.squeeze_within_end 0 0
    rwa [hwithin] at this ⊢
  have hsigned := a.unsigned 0 0 []
  rw [List.append_nil, ← hsqueeze] at hsigned
  have hplain : ∀ c ∈ a.within 0 0, c ∉ operators := fun c hc => (Literal.of_mem_within hc).1
  have hstart : (Utils.MathState.start math (a.within 0 0)).oop ∉ [33, 61, 91, 92] := by
    change (0 : u8) ∉ [33, 61, 91, 92]
    decide
  have htxt : (Utils.MathState.start math (a.within 0 0)).txt =
      [] ++ a.within 0 0 ++ 0 :: math.behind := rfl
  rw [Utils.mathBody_unsigned hsigned, hsqueeze,
    Utils.mathLoop_step_last hstart hplain (a.within_ne_nil 0 0) (zero_not_mem_within a 0 0)
      htxt rfl, bind_assoc]
  refine (congrArg (Utils.getOffset math (a.within 0 0) >>= ·) (funext fun x => ?_)).trans
    (bind_pure _)
  rw [pure_bind]
  exact congrArg pure (UInt64.zero_add x)

theorem getMath_literal (hdigit : ∀ c name, 48 ≤ c ∧ c ≤ 57 → math.flagGet (c :: name) = none)
    (a : Literal) : (Utils.getMath math a.text level).1 = a.asMath math level := by
  unfold Literal.asMath
  by_cases hlevel : level ≤ 5
  · have hrun := run_getOffset_within a 0 0 ⟨level + 1, math.disk⟩ hdigit
    rw [← mathBody_literal] at hrun
    rw [if_pos hlevel, Utils.getMath_of_body hlevel a.text_ne_nil hrun]
    rfl
  · rw [if_neg hlevel, getMath_deep hlevel]

/-- **When the number is the one that is written**, if no option is found by its text:
when `sscanf` reads it and it is a `long`. -/
theorem asMath_eq_val_iff (env : ParserEnv) (hlevel : level ≤ 5)
    (hnone : configNodeGet math.behindName math.config a.text = none) :
    (toLong env (a.asMath math level)).toNat = a.val ↔
      a.val < a.bound ∧ a.val < 256 ^ env.longSize := by
  have hoption : optionAt math (a.text ++ List.replicate 0 32) ⟨level + 1, math.disk⟩ =
      (0, ⟨level + 1, math.disk⟩) := by
    rw [List.replicate_zero, List.append_nil, optionAt, hnone]
  have hread : a.asMath math level = UInt64.ofNat a.read := by
    rw [Literal.asMath, if_pos hlevel, Literal.readAt, hoption]
    rfl
  have hpos := Nat.pow_pos (n := env.longSize) (by omega : 0 < 256)
  rw [toNat_toLong, hread, toNat_ofNat_read]
  by_cases hval : a.val < a.bound
  · rw [Literal.read_eq_val hval, and_iff_right hval]
    exact ⟨fun h => h ▸ Nat.mod_lt _ hpos, Nat.mod_eq_of_lt⟩
  · have hle := Nat.mod_le a.read (256 ^ env.longSize)
    have hlt : a.read < a.val := by
      have hbound : 0 < a.bound := by
        unfold Literal.bound
        split <;> omega
      unfold Literal.read
      omega
    refine iff_of_false ?_ fun h => hval h.1
    omega

/-! ## The text of a value -/

/-- What is behind a number does not go on with it. -/
def Literal.Stops (a : Literal) (rest : List u8) : Prop :=
  ∀ c ∈ rest.head?, if a.hex then isHexa c = false
    else isDec c = false ∧ (a.digits = [48] → c ≠ 120)

/-- The digits of a number that is not too long for `get_tok_value`. -/
def Literal.Short (longSize : ℕ) (a : Literal) : Prop :=
  if a.hex then a.digits.length / 2 ≤ longSize ∧ a.digits.length + 2 < 512
  else a.digits.length < 512

instance decidableShort (longSize : ℕ) (a : Literal) : Decidable (a.Short longSize) :=
  inferInstanceAs (Decidable (if a.hex then _ else _))

theorem isHexa_digit (a : Literal) : ∀ c ∈ a.digits, isHexa c = true := fun c hc =>
  Option.isSome_of_any (a.digit c hc)

theorem isDec_digit (hhex : a.hex = false) : ∀ c ∈ a.digits, isDec c = true := by
  intro c hc
  have htext : c ∈ a.text := by rwa [Literal.text, hhex]
  exact decide_eq_true (Literal.decimal hhex htext)

theorem stops_hex (hhex : a.hex = true) (hstop : a.Stops rest) :
    ∀ c ∈ rest.head?, isHexa c = false := by
  intro c hc
  have := hstop c hc
  rwa [hhex, if_pos rfl] at this

theorem stops_dec (hhex : a.hex = false) (hstop : a.Stops rest) :
    ∀ c ∈ rest.head?, isDec c = false ∧ (a.digits = [48] → c ≠ 120) := by
  intro c hc
  have := hstop c hc
  rwa [hhex, if_neg Bool.false_ne_true] at this

theorem short_hex (hhex : a.hex = true) :
    a.Short n ↔ a.digits.length / 2 ≤ n ∧ a.digits.length + 2 < 512 := by
  rw [Literal.Short, hhex, if_pos rfl]

theorem short_dec (hhex : a.hex = false) : a.Short n ↔ a.digits.length < 512 := by
  rw [Literal.Short, hhex, if_neg Bool.false_ne_true]

/-- A decimal number does not start as a hexadecimal one. -/
theorem not_hex_prefix (hhex : a.hex = false) (hstop : a.Stops rest) :
    [48, 120].isPrefixOf (a.digits ++ rest) = false := by
  have hdec := isDec_digit hhex
  have hrest := stops_dec hhex hstop
  obtain ⟨d, ds, hds⟩ := List.exists_cons_of_ne_nil a.ne_nil
  refine Bool.eq_false_iff.mpr fun hprefix => ?_
  rw [hds] at hprefix hdec hrest
  cases ds with
  | nil =>
    cases rest with
    | nil => simp [List.isPrefixOf] at hprefix
    | cons c rest =>
      simp only [List.singleton_append, List.isPrefixOf, Bool.and_true, Bool.and_eq_true,
        beq_iff_eq] at hprefix
      exact (hrest c rfl).2 (by rw [← hprefix.1]) hprefix.2.symm
  | cons e ds =>
    simp only [List.cons_append, List.isPrefixOf, Bool.and_true, Bool.and_eq_true,
      beq_iff_eq] at hprefix
    have := hdec e (List.mem_cons_of_mem d List.mem_cons_self)
    rw [← hprefix.2] at this
    exact absurd this (by decide)

/-- **A number is read** if it is not too long. -/
theorem getTokValue_literal (hstop : a.Stops rest) :
    getTokValue env .reg (a.text ++ rest) =
      if a.Short env.longSize then
        some (.long (toLong env (env.getMath a.text)), env.longSize, rest)
      else none := by
  have hpos := List.length_pos_iff.mpr a.ne_nil
  by_cases hhex : a.hex = true
  · have hrest := stops_hex hhex hstop
    have htext : a.text = [48, 120] ++ a.digits := by rw [Literal.text, hhex]; rfl
    have hdrop : (a.text ++ rest).drop 2 = a.digits ++ rest := by rw [htext]; rfl
    have hprefix : [48, 120].isPrefixOf (a.text ++ rest) = true := by rw [htext]; rfl
    unfold getTokValue
    dsimp only
    rw [if_pos hprefix, hdrop, takeWhile_stop (isHexa_digit a) hrest,
      dropWhile_stop (isHexa_digit a) hrest, ← htext, if_pos rfl]
    by_cases hshort : a.Short env.longSize
    · have hlen := (short_hex hhex).mp hshort
      rw [if_pos hshort, if_neg]
      rintro (h | ⟨-, h⟩ | h) <;> omega
    · have hlen := mt (short_hex hhex).mpr hshort
      rw [if_neg hshort, if_pos]
      by_cases hlarge : env.longSize < a.digits.length / 2
      · exact .inr (.inl ⟨rfl, hlarge⟩)
      · exact .inr (.inr (by omega))
  · have hdecimal : a.hex = false := Bool.eq_false_iff.mpr hhex
    have hrest := fun c hc => (stops_dec hdecimal hstop c hc).1
    have htext : a.text = a.digits := by rw [Literal.text, hdecimal]; rfl
    have hdec := isDec_digit hdecimal
    have hprefix := not_hex_prefix hdecimal hstop
    unfold getTokValue
    dsimp only
    rw [htext, hprefix, takeWhile_stop hdec hrest, dropWhile_stop hdec hrest,
      if_neg Bool.false_ne_true]
    by_cases hshort : a.Short env.longSize
    · have hlen := (short_dec hdecimal).mp hshort
      rw [if_pos hshort, if_neg]
      rintro (h | h)
      · exact a.ne_nil h
      · omega
    · have hlen := mt (short_dec hdecimal).mpr hshort
      rw [if_neg hshort, if_pos (.inr (by omega))]

/-! ## Registers and operators -/

def isBlank (c : u8) : Bool := c = 32 ∨ c = 9

/-- A small letter or a digit. -/
def isRegChar (c : u8) : Bool := 48 ≤ c ∧ c ≤ 57 ∨ 97 ≤ c ∧ c ≤ 122

/-- A table of registers: no name starts one that is behind it. -/
structure RegTable where
  regs : List (List u8 × ut64)
  names : ∀ r ∈ regs, ∀ c ∈ r.1, isRegChar c = true
  apart : regs.Pairwise fun r s => ¬ r.1 <+: s.1

variable {T : RegTable} {r : List u8 × ut64}

/-- A name that a text starts with is in front of what is no name. -/
theorem prefix_of_prefix_append {l l' : List u8} (hl : ∀ c ∈ l, isRegChar c = true)
    (htail : ∀ c ∈ tail.head?, isRegChar c = false) (h : l <+: l' ++ tail) : l <+: l' := by
  rcases Nat.le_total l.length l'.length with hle | hlt
  · exact List.prefix_of_prefix_length_le h (List.prefix_append l' tail) hle
  · obtain ⟨t, rfl⟩ := List.prefix_of_prefix_length_le (List.prefix_append l' tail) h hlt
    cases t with
    | nil => rw [List.append_nil]
    | cons c t =>
      obtain ⟨u, rfl⟩ := (List.prefix_append_right_inj l').mp h
      have hyes := hl c (List.mem_append_right _ List.mem_cons_self)
      rw [htail c rfl] at hyes
      cases hyes

/-- **A register is found** by its name. -/
theorem getReg_of_mem (hroff : env.roff = T.regs) (hr : r ∈ T.regs)
    (htail : ∀ c ∈ tail.head?, isRegChar c = false) : getReg env (r.1 ++ tail) = some r := by
  obtain ⟨front, behind, hsplit⟩ := List.append_of_mem hr
  have hapart := T.apart
  rw [hsplit, List.pairwise_append] at hapart
  refine List.find?_eq_some_iff_append.mpr ⟨?_, front, behind, hroff.trans hsplit, fun s hs => ?_⟩
  · exact List.isPrefixOf_iff_prefix.mpr (List.prefix_append r.1 tail)
  · have hmem : s ∈ T.regs := hsplit ▸ List.mem_append_left _ hs
    refine Bool.not_eq_true' _ ▸ Bool.eq_false_iff.mpr fun hprefix => ?_
    exact hapart.2.2 s hs r List.mem_cons_self
      (prefix_of_prefix_append (T.names s hmem) htail (List.isPrefixOf_iff_prefix.mp hprefix))

/-- How an operator is written. -/
def CmpOp.text : CmpOp → List u8
  | .lt => [60]
  | .le => [60, 61]
  | .eq => [61]
  | .ne => [60, 62]
  | .ge => [62, 61]
  | .gt => [62]

/-- What `get_tok_op` leaves of an operator and the text behind it. -/
def CmpOp.left : CmpOp → List u8 → List u8
  | .lt, tail => tail.drop 1
  | .le, tail => 61 :: tail
  | _, tail => tail

/-- What needs no look at the type of a token. -/
def CmpOp.OnMemory (op : CmpOp) : Prop := op = .eq ∨ op = .ne

instance decidableOnMemory (op : CmpOp) : Decidable op.OnMemory := inferInstanceAs (Decidable (_ ∨ _))

theorem readOp_text (htail : ∀ c ∈ tail.head?, c ≠ 61 ∧ c ≠ 62) :
    readOp (op.text ++ tail) = some (op, op.left tail) := by
  have h61 : tail.head? ≠ some 61 := fun h => (htail 61 h).1 rfl
  have h62 : tail.head? ≠ some 62 := fun h => (htail 62 h).2 rfl
  cases op <;> simp [readOp, CmpOp.text, CmpOp.left, h61, h62]

theorem getTokOp_text {type : ℤ} (htail : ∀ c ∈ tail.head?, c ≠ 61 ∧ c ≠ 62) :
    getTokOp type (op.text ++ tail) =
      if type ≠ 2 ∨ op.OnMemory then some (op, op.left tail) else none := by
  rw [getTokOp, readOp_text htail, Option.filter_some]
  exact if_congr (decide_eq_true_iff) rfl rfl

theorem skipChars_blanks {blanks : List u8} (hblanks : ∀ c ∈ blanks, isBlank c = true)
    (htail : ∀ c ∈ tail.head?, isBlank c = false) : skipChars (blanks ++ tail) = tail := by
  have hskip : skipChars (blanks ++ tail) = (blanks ++ tail).dropWhile isBlank := rfl
  rw [hskip, dropWhile_stop hblanks htail]

/-! ## The text of a condition -/

/-- A condition on a register, with what is behind it. -/
structure RegCond (T : RegTable) where
  lead : List u8
  reg : List u8 × ut64
  before : List u8
  op : CmpOp
  behind : List u8
  value : Literal
  rest : List u8
  mem : reg ∈ T.regs
  blanks : ∀ c ∈ lead ++ before ++ behind, isBlank c = true
  ends : value.Stops rest

namespace RegCond

variable {s : RegCond T}

/-- From behind the operator on. -/
def operand (s : RegCond T) : List u8 := s.behind ++ (s.value.text ++ s.rest)

/-- From the `%` on. -/
def start (s : RegCond T) : List u8 :=
  37 :: (s.reg.1 ++ (s.before ++ (s.op.text ++ s.operand)))

/-- How it is written. -/
def text (s : RegCond T) : List u8 := s.lead ++ s.start

/-- A value starts with a digit. -/
theorem head_value (a : Literal) (rest : List u8) :
    ∀ c ∈ (a.text ++ rest).head?, (hexDigit c).isSome = true := by
  intro c hc
  rw [List.head?_append_of_ne_nil _ a.text_ne_nil] at hc
  by_cases hhex : a.hex = true
  · rw [Literal.text, if_pos hhex] at hc
    cases hc
    decide
  · rw [Literal.text, if_neg hhex] at hc
    exact Option.isSome_of_any (a.digit c (List.mem_of_mem_head? hc))

theorem isSome_hexDigit_cases {c : u8} (h : (hexDigit c).isSome = true) :
    isBlank c = false ∧ c ≠ 61 ∧ c ≠ 62 := by
  refine ⟨Bool.eq_false_iff.mpr fun hblank => ?_, ?_, ?_⟩
  · rcases of_decide_eq_true hblank with rfl | rfl <;> exact absurd h (by decide)
  · rintro rfl
    exact absurd h (by decide)
  · rintro rfl
    exact absurd h (by decide)

theorem head_operand (s : RegCond T) : ∀ c ∈ s.operand.head?, c ≠ 61 ∧ c ≠ 62 := by
  intro c hc
  rw [operand] at hc
  cases hbehind : s.behind with
  | nil =>
    rw [hbehind, List.nil_append] at hc
    exact (isSome_hexDigit_cases (head_value s.value s.rest c hc)).2
  | cons d ds =>
    rw [hbehind] at hc
    have hmem : c ∈ s.behind := hbehind ▸ List.mem_of_mem_head? hc
    have hblank := s.blanks c (List.mem_append_right _ hmem)
    rcases of_decide_eq_true hblank with rfl | rfl <;> decide

theorem head_op (op : CmpOp) (tail : List u8) :
    ∀ c ∈ (op.text ++ tail).head?, isBlank c = false ∧ isRegChar c = false := by
  intro c hc
  cases op <;> cases hc <;> decide

/-- **The reader of a register**, up to its value. -/
theorem getTokReg_start (hroff : env.roff = T.regs) {pos : ℕ} :
    getTokReg env pos s.start =
      if env.fresh s.start ≠ 2 ∨ s.op.OnMemory then
        (getTokValue env .reg (skipChars (s.op.left s.operand))).map fun v =>
          (⟨pos, .reg, s.reg.2, s.op, v.1, v.2.1⟩, v.2.2)
      else none := by
  have hop := fun c hc => (head_op s.op s.operand c hc).1
  have hbefore : ∀ c ∈ s.before, isBlank c = true := fun c hc =>
    s.blanks c (List.mem_append_left _ (List.mem_append_right _ hc))
  have hname : ∀ c ∈ (s.before ++ (s.op.text ++ s.operand)).head?, isRegChar c = false := by
    intro c hc
    cases hblanks : s.before with
    | nil =>
      rw [hblanks] at hc
      exact (head_op s.op s.operand c hc).2
    | cons d ds =>
      rw [hblanks] at hc
      have hblank := hbefore c (hblanks ▸ List.mem_of_mem_head? hc)
      rcases of_decide_eq_true hblank with rfl | rfl <;> decide
  have hdrop : s.start.drop (s.reg.1.length + 1) = s.before ++ (s.op.text ++ s.operand) :=
    List.drop_left
  have hreg : getReg env (s.start.drop 1) = some s.reg := getReg_of_mem hroff s.mem hname
  unfold getTokReg
  rw [hreg, Option.bind_eq_bind, Option.bind_some]
  dsimp only
  rw [hdrop, skipChars_blanks hbefore hop, getTokOp_text (head_operand s)]
  by_cases htype : env.fresh s.start ≠ 2 ∨ s.op.OnMemory
  · rw [if_pos htype, if_pos htype, Option.bind_eq_bind, Option.bind_some]
    exact (Option.map_eq_bind ..).symm
  · rw [if_neg htype, if_neg htype]
    rfl

/-- The number that is read up to the end of the value: none behind `<=`, and what is
behind its first digit if that is behind `<`. -/
def Takes (s : RegCond T) (a : Literal) : Prop :=
  match s.op with
  | .le => False
  | .lt =>
    if s.behind = [] then
      (∃ d, s.value.digits = d :: a.digits) ∧ s.value.hex = false ∧ a.hex = false ∧ a.Stops s.rest
    else a = s.value
  | _ => a = s.value

/-- The value is left with blanks in front. -/
theorem skipChars_value {blanks : List u8} (a : Literal) (rest : List u8)
    (hblanks : ∀ c ∈ blanks, isBlank c = true) :
    skipChars (blanks ++ (a.text ++ rest)) = a.text ++ rest :=
  skipChars_blanks hblanks fun c hc => (isSome_hexDigit_cases (head_value a rest c hc)).1

theorem getTokValue_zero_x {v : TokVal × ℕ × List u8}
    (h : getTokValue env .reg (48 :: 120 :: rest) = some v) : v.2.2.length ≤ rest.length := by
  have hprefix : [48, 120].isPrefixOf (48 :: 120 :: rest) = true := rfl
  unfold getTokValue at h
  dsimp only at h
  rw [if_pos hprefix] at h
  split_ifs at h with hlarge htype
  · cases h
    exact (List.dropWhile_suffix _).length_le
  · exact absurd rfl htype

theorem takes_lost_iff (hop : s.op = .lt) (hbehind : s.behind = []) (a : Literal) :
    s.Takes a ↔ (∃ d, s.value.digits = d :: a.digits) ∧ s.value.hex = false ∧ a.hex = false ∧
      a.Stops s.rest := by
  unfold Takes
  rw [hop]
  dsimp only
  rw [if_pos hbehind]

/-- A number that goes on behind its digits is a zero, with an `x` behind it. -/
theorem zero_x_of_not_stops {a : Literal} (hhex : a.hex = false)
    (hdec : ∀ c ∈ rest.head?, isDec c = false) (hstop : ¬ a.Stops rest) :
    ∃ tail, a.text ++ rest = 48 :: 120 :: tail ∧ tail.length < rest.length := by
  have htext : a.text = a.digits := by rw [Literal.text, hhex]; rfl
  cases rest with
  | nil => exact absurd (fun c hc => by cases hc) hstop
  | cons c tail =>
    have hzero : a.digits = [48] ∧ c = 120 := by
      by_contra hne
      refine hstop fun c' hc' => ?_
      obtain rfl := Option.some.inj hc'
      rw [hhex, if_neg Bool.false_ne_true]
      exact ⟨hdec c rfl, fun hdigits hc => hne ⟨hdigits, hc⟩⟩
    refine ⟨tail, ?_, Nat.lt_succ_self _⟩
    rw [htext, hzero.1, hzero.2]
    rfl

/-- What is read behind `<` of a decimal value, without its first digit. -/
theorem getTokValue_lost_dec (env : ParserEnv) (hop : s.op = .lt) (hbehind : s.behind = [])
    (hdecimal : s.value.hex = false) {d : u8} {a : Literal} (hhex : a.hex = false)
    (hdigits : s.value.digits = d :: a.digits) :
    s.Takes a ∨ (∀ b, ¬ s.Takes b) ∧ ∀ v, getTokValue env .reg (a.text ++ s.rest) = some v →
      v.2.2.length < s.rest.length := by
  by_cases hstop : a.Stops s.rest
  · exact .inl ((takes_lost_iff hop hbehind a).mpr ⟨⟨d, hdigits⟩, hdecimal, hhex, hstop⟩)
  · refine .inr ⟨fun b hb => ?_, fun v hv => ?_⟩
    · obtain ⟨⟨e, he⟩, -, hhexb, hstopb⟩ := (takes_lost_iff hop hbehind b).mp hb
      obtain ⟨-, hsame⟩ := List.cons.inj (hdigits.symm.trans he)
      refine hstop fun c hc => ?_
      rw [hhex, if_neg Bool.false_ne_true, hsame]
      exact stops_dec hhexb hstopb c hc
    · have hdec := fun c hc => (stops_dec hdecimal s.ends c hc).1
      obtain ⟨tail, htail, hlt⟩ := zero_x_of_not_stops hhex hdec hstop
      rw [htail] at hv
      exact (getTokValue_zero_x hv).trans_lt hlt

/-- What is read behind `<`, without the first digit of the value. -/
theorem getTokValue_lost (env : ParserEnv) (hop : s.op = .lt) (hbehind : s.behind = []) :
    (∃ a, s.Takes a ∧ skipChars (s.op.left s.operand) = a.text ++ s.rest) ∨
      (∀ a, ¬ s.Takes a) ∧ ∀ v, getTokValue env .reg (skipChars (s.op.left s.operand)) = some v →
        v.2.2.length < s.rest.length := by
  have hleft : s.op.left s.operand = (s.value.text ++ s.rest).drop 1 := by
    rw [hop, operand, hbehind]
    rfl
  rw [hleft]
  obtain ⟨d, ds, hds⟩ := List.exists_cons_of_ne_nil s.value.ne_nil
  by_cases hhex : s.value.hex = true
  · -- an `x` is no digit
    have hx : (s.value.text ++ s.rest).drop 1 = 120 :: (s.value.digits ++ s.rest) := by
      rw [Literal.text, if_pos hhex]
      rfl
    refine .inr ⟨fun a ha => ?_, fun v hv => ?_⟩
    · have hdecimal := ((takes_lost_iff hop hbehind a).mp ha).2.1
      exact Bool.false_ne_true (hdecimal.symm.trans hhex)
    · rw [hx, skipChars_cons (by decide)] at hv
      cases hv
  · have hdecimal : s.value.hex = false := Bool.eq_false_iff.mpr hhex
    have htail : (s.value.text ++ s.rest).drop 1 = ds ++ s.rest := by
      rw [Literal.text, if_neg hhex, hds]
      rfl
    rw [htail]
    by_cases hnil : ds = []
    · -- the next value is read
      refine .inr ⟨fun a ha => ?_, fun ⟨val, len, r⟩ hv => ?_⟩
      · obtain ⟨⟨e, he⟩, -⟩ := (takes_lost_iff hop hbehind a).mp ha
        exact a.ne_nil ((List.cons.inj (he.symm.trans hds)).2.trans hnil)
      · have hlen := length_getTokValue hv
        have hle := length_skipChars_le (ds ++ s.rest)
        rw [hnil, List.nil_append] at hlen hle
        exact hlen.trans_le hle
    · have hdigit : ∀ c ∈ ds, (hexDigit c).any (· < if false = true then 16 else 10) = true := by
        intro c hc
        have hany := s.value.digit c (hds ▸ List.mem_cons_of_mem d hc)
        rwa [hdecimal] at hany
      let a : Literal := ⟨false, ds, hnil, hdigit⟩
      have hskip : skipChars (ds ++ s.rest) = a.text ++ s.rest :=
        skipChars_value a s.rest (List.forall_mem_nil _)
      rw [hskip]
      exact (getTokValue_lost_dec env hop hbehind hdecimal rfl hds).imp_left fun ha => ⟨a, ha, rfl⟩

theorem takes_value (h : s.op ≠ .le) (hlt : s.op = .lt → s.behind ≠ []) {a : Literal} :
    s.Takes a ↔ a = s.value := by
  unfold Takes
  cases hop : s.op with
  | le => exact absurd hop h
  | lt => exact iff_of_eq (if_neg (hlt hop))
  | eq | ne | ge | gt => exact Iff.rfl

/-- **The value that is read**: a number up to its end, or none, or one that ends
behind it. -/
theorem getTokValue_left (env : ParserEnv) (s : RegCond T) :
    (∃ a, s.Takes a ∧ getTokValue env .reg (skipChars (s.op.left s.operand)) =
        if a.Short env.longSize then
          some (.long (toLong env (env.getMath a.text)), env.longSize, s.rest)
        else none) ∨
      (∀ a, ¬ s.Takes a) ∧ ∀ v, getTokValue env .reg (skipChars (s.op.left s.operand)) = some v →
        v.2.2.length < s.rest.length := by
  have hbehind : ∀ c ∈ s.behind, isBlank c = true := fun c hc =>
    s.blanks c (List.mem_append_right _ hc)
  by_cases hle : s.op = .le
  · -- the `=` is no value
    refine .inr ⟨fun a ha => ?_, fun v hv => ?_⟩
    · rw [Takes, hle] at ha
      exact ha
    · rw [hle, CmpOp.left, skipChars_cons (by decide)] at hv
      cases hv
  · by_cases hlost : s.op = .lt ∧ s.behind = []
    · rcases getTokValue_lost env hlost.1 hlost.2 with ⟨a, ha, htext⟩ | hnone
      · refine .inl ⟨a, ha, ?_⟩
        have hstop : a.Stops s.rest := ((takes_lost_iff hlost.1 hlost.2 a).mp ha).2.2.2
        rw [htext, getTokValue_literal hstop]
      · exact .inr hnone
    · have hlt : s.op = .lt → s.behind ≠ [] := fun hop hnil => hlost ⟨hop, hnil⟩
      refine .inl ⟨s.value, (takes_value hle hlt).mpr rfl, ?_⟩
      have hskip : skipChars (s.op.left s.operand) = s.value.text ++ s.rest := by
        cases hop : s.op with
        | le => exact absurd hop hle
        | lt =>
          obtain ⟨d, ds, hds⟩ := List.exists_cons_of_ne_nil (hlt hop)
          have hdrop : CmpOp.lt.left s.operand = ds ++ (s.value.text ++ s.rest) := by
            rw [operand, hds]
            rfl
          rw [hdrop, skipChars_value _ _ fun c hc => hbehind c (hds ▸ List.mem_cons_of_mem d hc)]
        | eq | ne | ge | gt => exact skipChars_value s.value s.rest hbehind
      rw [hskip, getTokValue_literal s.ends]

theorem takes_unique {a b : Literal} (ha : s.Takes a) (hb : s.Takes b) : a = b := by
  by_cases hle : s.op = .le
  · rw [Takes, hle] at ha
    exact ha.elim
  · by_cases hlost : s.op = .lt ∧ s.behind = []
    · obtain ⟨⟨d, hd⟩, -, hhexa, -⟩ := (takes_lost_iff hlost.1 hlost.2 a).mp ha
      obtain ⟨⟨e, he⟩, -, hhexb, -⟩ := (takes_lost_iff hlost.1 hlost.2 b).mp hb
      have hdigits := (List.cons.inj (hd.symm.trans he)).2
      cases a
      cases b
      simp_all
    · have hlt : s.op = .lt → s.behind ≠ [] := fun hop hnil => hlost ⟨hop, hnil⟩
      exact ((takes_value hle hlt).mp ha).trans ((takes_value hle hlt).mp hb).symm

/-- The token with the number that is read. -/
def tok (s : RegCond T) (env : ParserEnv) (a : Literal) : CondTok :=
  ⟨s.start.length, .reg, s.reg.2, s.op, .long (toLong env (env.getMath a.text)), env.longSize⟩

/-- A token of the memory that starts in what is behind a value ends behind it. -/
theorem not_getTokMem {pos : ℕ} {t : CondTok} {l : List u8} (hlen : l.length ≤ rest.length) :
    getTokMem env pos l ≠ some (t, rest) := by
  intro h
  have hne : l ≠ [] := by
    rintro rfl
    cases h
  have := (getTokMem_spec h hne).1
  omega

/-- **A condition is read to its end**: what is found in the memory for its type is not
that of a memory token, or the operator is one for these, a number is read up to the end
of the value, and no other token starts there. -/
theorem getTok_text (hroff : env.roff = T.regs) {t : CondTok} :
    getTok env s.text = some (t, s.rest) ↔
      (env.fresh s.start ≠ 2 ∨ s.op.OnMemory) ∧ s.rest.head? ≠ some 91 ∧
        ∃ a, s.Takes a ∧ a.Short env.longSize ∧ t = s.tok env a := by
  have hskip : skipChars s.text = s.start :=
    skipChars_blanks (fun c hc => s.blanks c (List.mem_append_left _ (List.mem_append_left _ hc)))
      fun c hc => by cases hc; decide
  have hstart : s.start.head? = some 37 := rfl
  unfold getTok
  dsimp only
  rw [hskip, if_pos hstart, getTokReg_start hroff]
  by_cases htype : env.fresh s.start ≠ 2 ∨ s.op.OnMemory
  · rw [if_pos htype, and_iff_right htype]
    rcases getTokValue_left env s with ⟨a, ha, hread⟩ | ⟨hnone, hread⟩
    · rw [hread]
      by_cases hshort : a.Short env.longSize
      · rw [if_pos hshort, Option.map_some, Option.bind_eq_bind, Option.bind_some]
        dsimp only
        by_cases hbracket : s.rest.head? = some 91
        · rw [if_pos hbracket]
          exact iff_of_false (not_getTokMem le_rfl) fun h => h.1 hbracket
        · rw [if_neg hbracket, and_iff_right hbracket]
          constructor
          · intro h
            cases h
            exact ⟨a, ha, hshort, rfl⟩
          · rintro ⟨b, hb, -, rfl⟩
            rw [takes_unique hb ha]
            rfl
      · rw [if_neg hshort]
        refine iff_of_false (fun h => by cases h) ?_
        rintro ⟨-, b, hb, hshortb, -⟩
        exact hshort (takes_unique hb ha ▸ hshortb)
    · refine iff_of_false (fun h => ?_) fun ⟨_, a, ha, _⟩ => hnone a ha
      obtain ⟨⟨t', l⟩, hl, h⟩ := Option.bind_eq_some_iff.mp h
      obtain ⟨v, hv, hvl⟩ := Option.map_eq_some_iff.mp hl
      cases hvl
      have hlen := hread v hv
      dsimp only at h
      split_ifs at h with hbracket
      · exact not_getTokMem hlen.le h
      · have hend : v.2.2 = s.rest := congrArg Prod.snd (Option.some.inj h)
        rw [hend] at hlen
        omega
  · rw [if_neg htype]
    simp [htype]

end RegCond

/-! ## When a condition is read and told -/

/-- The parser, with the registers and the `get_math` of the program. -/
def ParserEnv.inProgram (env : ParserEnv) (T : RegTable) (math : Utils.MathEnv)
    (flags : List FlagT) (level : ℤ) : ParserEnv :=
  { env with
    roff := T.regs
    getMath := fun text => (Utils.getMath (math.withFlags flags) text level).1 }

/-- A condition is read to the end of its value, and tells, while a program is debugged,
whether its register stands in the relation to the number. -/
def RegCond.Works (env : ParserEnv) (s : RegCond T) : Prop :=
  ∃ t, getTok env s.text = some (t, s.rest) ∧ ∀ regoff, evalTokenReg env true regoff t = true ↔
    s.op.Holds (toLong env (regoff s.reg.2)).toNat s.value.val

/-- **When a condition on a register works.** -/
structure RegCond.Right (env : ParserEnv) (math : Utils.MathEnv) (level : ℤ) (s : RegCond T) :
    Prop where
  type : env.fresh s.start ≠ 2 ∨ s.op.OnMemory
  next : s.rest.head? ≠ some 91
  number : ∃ a, s.Takes a ∧ a.Short env.longSize ∧
    (toLong env (a.asMath math level)).toNat = s.op.given s.value.val

theorem regCond_iff (env : ParserEnv) (T : RegTable) (math : Utils.MathEnv) (flags : List FlagT)
    (level : ℤ) (s : RegCond T) :
    s.Works (env.inProgram T math flags level) ↔ s.Right env (math.withFlags flags) level := by
  have hread : ∀ t, getTok (env.inProgram T math flags level) s.text = some (t, s.rest) ↔ _ :=
    fun t => RegCond.getTok_text rfl
  have htold : ∀ a, s.Takes a → ((∀ regoff,
      evalTokenReg (env.inProgram T math flags level) true regoff
          (s.tok (env.inProgram T math flags level) a) = true ↔
        s.op.Holds (toLong env (regoff s.reg.2)).toNat s.value.val) ↔
      (toLong env (a.asMath (math.withFlags flags) level)).toNat = s.op.given s.value.val) := by
    intro a ha
    have hop : s.op ≠ .le := by
      intro hop
      rw [RegCond.Takes, hop] at ha
      exact ha
    rw [← getMath_literal (withFlags_digit math flags) a]
    exact evalTokenReg_iff hop
  constructor
  · rintro ⟨t, ht, htells⟩
    obtain ⟨htype, hnext, a, ha, hshort, rfl⟩ := (hread t).mp ht
    exact ⟨htype, hnext, a, ha, hshort, (htold a ha).mp htells⟩
  · rintro ⟨htype, hnext, a, ha, hshort, hnumber⟩
    exact ⟨_, (hread _).mpr ⟨htype, hnext, a, ha, hshort, rfl⟩, (htold a ha).mpr hnumber⟩

/-! ## A condition that is not read -/

/-- The names of the registers of the `i386`, and where they are. -/
def i386Roff : List (List u8 × ut64) :=
  [([101, 97, 120], 24), ([101, 98, 120], 0), ([101, 99, 120], 4), ([101, 100, 120], 8),
    ([101, 115, 105], 12), ([101, 100, 105], 16), ([101, 115, 112], 60), ([101, 98, 112], 20),
    ([101, 105, 112], 48), ([101, 102, 108, 97, 103, 115], 56)]

theorem i386Roff_names : ∀ r ∈ i386Roff, ∀ c ∈ r.1, isRegChar c = true := by decide +kernel

theorem i386Roff_apart : i386Roff.Pairwise fun r s => ¬ r.1 <+: s.1 := by decide +kernel

def i386Regs : RegTable := ⟨i386Roff, i386Roff_names, i386Roff_apart⟩

theorem eax_mem : ([101, 97, 120], 24) ∈ i386Regs.regs := List.mem_cons_self

theorem one_digit : ∀ c ∈ [(49 : u8)], (hexDigit c).any (· < if false = true then 16 else 10) = true := by
  decide +kernel

theorem one_stops : Literal.Stops ⟨false, [49], List.cons_ne_nil _ _, one_digit⟩ [] := by
  intro c hc
  cases hc

/-- `%eax<=1`. -/
def eaxAtMostOne : RegCond i386Regs where
  lead := []
  reg := ([101, 97, 120], 24)
  before := []
  op := .le
  behind := []
  value := ⟨false, [49], List.cons_ne_nil _ _, one_digit⟩
  rest := []
  mem := eax_mem
  blanks := List.forall_mem_nil _
  ends := one_stops

/-- **`<=`**: the value is looked for at its `=`. -/
theorem le_not_read : ¬ eaxAtMostOne.Works (i386Env.inProgram i386Regs {} [] 0) := by
  rintro ⟨t, ht, -⟩
  have hnone : getTok (i386Env.inProgram i386Regs {} [] 0) eaxAtMostOne.text = none := by
    decide +kernel
  rw [hnone] at ht
  cases ht

end Radare
