import Radare.Utils.Arith
/-!
# Comparisons

`get_math` writes `=` for `==` and `!` for `!=` before it looks for operators.
An operator is applied one token after it was read, and a comparison reads what
is behind the operator at the end of that token: so one character has to be left
in front of the right side for it to be read at all. It is left only by mistake.
Of an odd number of blanks the last one goes together with a step over the
character behind it, and then both characters of the operator stay.

With none or an even number of blanks a number is compared with itself.
-/

namespace Radare

open Common

/-! ## The texts -/

/-- Two numbers to be compared, with blanks around each. -/
structure Comparison where
  left : Literal
  before : ℕ
  after : ℕ
  right : Literal
  before' : ℕ
  after' : ℕ

/-- How it is written, with `==` or `!=` by its first character. -/
def Comparison.text (c : Comparison) (op : u8) : List u8 :=
  c.left.within c.before c.after ++ op :: 61 :: c.right.within c.before' c.after'

/-- What `get_math` makes of a comparison of two values. -/
def compared (op : u8) (x y : ut64) : ut64 :=
  if op = 61 then y - x else if y - x = 0 then 1 else 0

/-- An option, asked for with a counter and a disk: its value, and these
behind. -/
def optionAt (env : Utils.MathEnv) (name : List u8) (sh : Utils.Shared) : ut64 × Utils.Shared :=
  match configNodeGet env.behindName env.config name with
  | some node =>
    if node.iValue ≠ 0 then (node.iValue, sh) else Utils.answer env (.math node.value) sh
  | none => (0, sh)

/-- What a number is read as, with blanks behind it: an option of that name comes
first. -/
def Literal.readAt (env : Utils.MathEnv) (a : Literal) (blanks : ℕ) (sh : Utils.Shared) :
    ut64 × Utils.Shared :=
  let r := optionAt env (a.text ++ List.replicate blanks 32) sh
  (if r.1.toUInt32 ≠ 0 then r.1 else UInt64.ofNat a.read, r.2)

/-- What the numbers are read as, one behind the other. -/
def Comparison.operands (env : Utils.MathEnv) (c : Comparison) (level : ℤ) : ut64 × ut64 :=
  let x := c.left.readAt env (c.after / 2) ⟨level + 1, env.disk⟩
  let y := c.right.readAt env ((c.after' + 1) / 2) x.2
  (x.1, y.1)

/-- The two comparisons tell what they are for. -/
def Comparison.Tells (env : Utils.MathEnv) (level : ℤ) (c : Comparison) : Prop :=
  ((Utils.getMath env (c.text 61) level).1 = 0 ↔ c.left.val = c.right.val) ∧
    ((Utils.getMath env (c.text 33) level).1 = 0 ↔ c.left.val ≠ c.right.val)

variable {env : Utils.MathEnv} {m : Utils.MathState} {c : Comparison} {a : Literal} {op d : u8}
variable {tok pre behind rest : List u8} {n b b' k k' l l' : ℕ} {level level' : ℤ} {x y : ut64}
variable {tmp : Option ℕ}

/-! ## The switch -/

/-- **A comparison** at a token with an operator behind it. -/
theorem mathSwitch_compare (hoop : m.oop = 61 ∨ m.oop = 33) (hcmp : m.isCmp = 0) (p : ℕ) :
    Utils.mathSwitch env m tok (some p) =
      Utils.getOffset env (Utils.cstr m.txt (m.ptr + 1)) >>= fun y =>
        pure ({ m with isCmp := if m.oop = 61 then 1 else -1, cmpOff := m.newOff, newOff := y },
          some p) := by
  obtain ⟨txt, txt2, ptr, newOff, cmpOff, isCmp, op, oop⟩ := m
  dsimp only at hoop hcmp ⊢
  subst hcmp
  rcases hoop with rfl | rfl <;> simp [Utils.mathSwitch]

/-- At the last token nothing is read. -/
theorem mathSwitch_alone (hoop : m.oop = 61 ∨ m.oop = 33) (hcmp : m.isCmp = 0) :
    Utils.mathSwitch env m tok none =
      pure ({ m with isCmp := if m.oop = 61 then 1 else -1, cmpOff := m.newOff }, none) := by
  obtain ⟨txt, txt2, ptr, newOff, cmpOff, isCmp, op, oop⟩ := m
  dsimp only at hoop hcmp ⊢
  subst hcmp
  rcases hoop with rfl | rfl <;> simp [Utils.mathSwitch]

/-- There is one comparison. -/
theorem mathSwitch_compared (hoop : m.oop = 61 ∨ m.oop = 33) (hcmp : m.isCmp ≠ 0) :
    Utils.mathSwitch env m tok tmp = pure (m, tmp) := by
  obtain ⟨txt, txt2, ptr, newOff, cmpOff, isCmp, op, oop⟩ := m
  dsimp only at hoop hcmp ⊢
  rcases hoop with rfl | rfl <;> simp [Utils.mathSwitch, hcmp]

/-! ## The loop -/

theorem compared_result (hoop : op = 61 ∨ op = 33)
    (hcmp : m.isCmp = if op = 61 then 1 else -1) :
    m.result = compared op m.cmpOff m.newOff := by
  unfold Utils.MathState.result compared
  rcases hoop with rfl | rfl
  · have hpos : m.isCmp = 1 := hcmp
    rw [hpos]
    rfl
  · have hneg : m.isCmp = -1 := hcmp
    rw [hneg]
    rfl

theorem zero_not_mem_within (a : Literal) (b b' : ℕ) : 0 ∉ a.within b b' := fun h =>
  (Literal.of_mem_within h).2 rfl

/-- The turn at the left side. -/
theorem mathLoop_left (hop : op = 61 ∨ op = 33) (hrest : 0 ∉ rest)
    (htxt : m.txt = [] ++ (a.within k k' ++ op :: rest) ++ 0 :: behind) (hptr : m.ptr = 0)
    (hoff : m.newOff = 0) (hoop : m.oop = 0) :
    Utils.mathLoop env (n + 1) m = Utils.getOffset env (a.within k k') >>= fun x =>
      Utils.mathLoop env n
        { m with
          txt := [] ++ a.within k k' ++ [0] ++ rest ++ 0 :: behind
          ptr := ([] ++ a.within k k' ++ [0]).length
          newOff := x
          op := op
          oop := op } := by
  have hplain : ∀ c ∈ a.within k k', c ∉ operators := fun c hc => (Literal.of_mem_within hc).1
  have hoperator : op ∈ operators ∧ op ≠ 0 := by
    rcases hop with rfl | rfl <;> decide
  have hall : 0 ∉ a.within k k' ++ op :: rest := by
    intro h
    rcases List.mem_append.mp h with h | h
    · exact zero_not_mem_within a k k' h
    · exact List.not_mem_cons_of_ne_of_not_mem hoperator.2.symm hrest h
  have hstart : m.oop ∉ [33, 61, 91, 92] := by rw [hoop]; decide
  rw [Utils.mathLoop_step hstart hplain hoperator.1 hall htxt hptr]
  refine congrArg (Utils.getOffset env (a.within k k') >>= ·) (funext fun x => ?_)
  have hsum : Utils.stepOff m.oop m.newOff x = x := by
    rw [hoop, hoff]
    exact UInt64.zero_add x
  rw [hsum]

/-- **Both characters of the operator**: the number behind them is read. -/
theorem mathLoop_compare {a' : Literal} (hop : op = 61 ∨ op = 33)
    (htxt : m.txt = [] ++ (a.within k k' ++ op :: 61 :: a'.within l l') ++ 0 :: behind)
    (hptr : m.ptr = 0) (hoff : m.newOff = 0) (hoop : m.oop = 0) (hcmp : m.isCmp = 0) :
    (Utils.mathLoop env (n + 3) m >>= fun m => pure m.result) =
      Utils.getOffset env (a.within k k') >>= fun x =>
        Utils.getOffset env (a'.within l l') >>= fun y => pure (compared op x y) := by
  have hplain : ∀ c ∈ a'.within l l', c ∉ operators := fun c hc => (Literal.of_mem_within hc).1
  have hzero := zero_not_mem_within a' l l'
  have hrest : 0 ∉ 61 :: a'.within l l' := List.not_mem_cons_of_ne_of_not_mem (by decide) hzero
  rw [mathLoop_left hop hrest htxt hptr hoff hoop, bind_assoc]
  refine congrArg (Utils.getOffset env (a.within k k') >>= ·) (funext fun x => ?_)
  -- the second turn is at the empty token between the two characters
  generalize [] ++ a.within k k' ++ [0] = pre
  have htxt₁ : pre ++ 61 :: a'.within l l' ++ 0 :: behind =
      pre ++ ([] ++ 61 :: a'.within l l') ++ 0 :: behind := rfl
  have hbehind : Utils.cstr (pre ++ [] ++ [0] ++ a'.within l l' ++ 0 :: behind) (pre.length + 1) =
      a'.within l l' := by
    have hlen : pre.length + 1 = (pre ++ [] ++ [0]).length := by
      rw [List.append_nil, List.length_append, List.length_singleton]
    rw [hlen]
    exact Utils.cstr_append hzero
  rw [Utils.mathLoop_turn (List.forall_mem_nil _) (by decide) hrest htxt₁ rfl,
    mathSwitch_compare (by exact hop) (by exact hcmp), bind_assoc, bind_assoc]
  dsimp only
  rw [hbehind]
  refine congrArg (Utils.getOffset env (a'.within l l') >>= ·) (funext fun y => ?_)
  rw [pure_bind]
  dsimp only
  rw [Utils.next_token List.not_mem_nil]
  -- and the third at the number, which has been read
  have hne : (if op = 61 then 1 else -1 : ℤ) ≠ 0 := by split_ifs <;> decide
  rw [Utils.mathLoop_last hplain (a'.within_ne_nil l l') hzero rfl rfl,
    mathSwitch_compared (by exact Or.inl rfl) (by exact hne), pure_bind]
  dsimp only
  rw [pure_bind]
  exact congrArg pure (compared_result hop rfl)

/-- **One character of it**: nothing is read for the right side. -/
theorem mathLoop_alone {a' : Literal} (hop : op = 61 ∨ op = 33)
    (htxt : m.txt = [] ++ (a.within k k' ++ op :: a'.within l l') ++ 0 :: behind)
    (hptr : m.ptr = 0) (hoff : m.newOff = 0) (hoop : m.oop = 0) (hcmp : m.isCmp = 0) :
    (Utils.mathLoop env (n + 2) m >>= fun m => pure m.result) =
      Utils.getOffset env (a.within k k') >>= fun x => pure (compared op x x) := by
  have hplain : ∀ c ∈ a'.within l l', c ∉ operators := fun c hc => (Literal.of_mem_within hc).1
  have hzero := zero_not_mem_within a' l l'
  rw [mathLoop_left hop hzero htxt hptr hoff hoop, bind_assoc]
  refine congrArg (Utils.getOffset env (a.within k k') >>= ·) (funext fun x => ?_)
  rw [Utils.mathLoop_last hplain (a'.within_ne_nil l l') hzero rfl rfl,
    mathSwitch_alone (by exact hop) (by exact hcmp), pure_bind]
  dsimp only
  rw [pure_bind]
  exact congrArg pure (compared_result hop rfl)

/-! ## Blanks -/

theorem squeeze_equal_sign (h : rest.head? ≠ some 61) :
    squeeze (61 :: rest) = 61 :: squeeze rest := by
  cases rest with
  | nil => rfl
  | cons c rest =>
    rw [squeeze]
    all_goals
      intros
      simp_all

theorem squeeze_right (a : Literal) (b b' : ℕ) :
    squeeze (61 :: a.within b b') = 61 :: a.within (b / 2) ((b' + 1) / 2) := by
  have hhead : (a.within b b').head? ≠ some 61 := fun h =>
    (Literal.of_mem_within (List.mem_of_mem_head? h)).1 (by decide)
  rw [squeeze_equal_sign hhead, Literal.squeeze_within_end]

/-- An odd number of blanks in front keeps both characters of the operator. -/
theorem squeeze_text_odd (hodd : c.after % 2 = 1) (op : u8) :
    squeeze (c.text op) = c.left.within (c.before / 2) (c.after / 2) ++
      op :: 61 :: c.right.within (c.before' / 2) ((c.after' + 1) / 2) := by
  have hafter : c.after = 2 * (c.after / 2) + 1 := by omega
  unfold Comparison.text Literal.within
  rw [List.append_assoc, Literal.squeeze_before]
  conv_lhs => rw [hafter]
  rw [squeeze_odd, ← List.append_assoc]
  exact congrArg (_ ++ op :: ·) (squeeze_right c.right c.before' c.after')

/-- An even number leaves one of them. -/
theorem squeeze_text_even (heven : ¬c.after % 2 = 1) (hop : op = 61 ∨ op = 33) :
    squeeze (c.text op) =
      c.left.within (c.before / 2) (c.after / 2 + if op = 61 then 1 else 0) ++
        op :: c.right.within (c.before' / 2) ((c.after' + 1) / 2) := by
  have hafter : c.after = 2 * (c.after / 2) := by omega
  unfold Comparison.text Literal.within
  rw [List.append_assoc, Literal.squeeze_before]
  conv_lhs => rw [hafter]
  rw [squeeze_even, ← List.append_assoc]
  have hright := squeeze_right c.right c.before' c.after'
  have hend := Literal.squeeze_within_end c.right c.before' c.after'
  rcases hop with rfl | rfl
  · -- a blank is written over the first of two `=`
    have hblank : squeeze (61 :: 61 :: c.right.within c.before' c.after') =
        32 :: 61 :: c.right.within (c.before' / 2) ((c.after' + 1) / 2) :=
      congrArg (32 :: ·) hright
    rw [if_pos rfl, List.replicate_succ']
    refine (congrArg (_ ++ ·) hblank).trans ?_
    simp [Literal.within]
  · have hgone : squeeze (33 :: 61 :: c.right.within c.before' c.after') =
        33 :: c.right.within (c.before' / 2) ((c.after' + 1) / 2) :=
      congrArg (33 :: ·) hend
    rw [if_neg (by decide), Nat.add_zero]
    exact congrArg (_ ++ ·) hgone

/-! ## The value -/

/-- What is asked for within a call of `get_math`. -/
abbrev nested (env : Utils.MathEnv) (a : Utils.Ask) (sh : Utils.Shared) :
    Option (ut64 × Utils.Shared) :=
  some (Utils.answer env a sh)

theorem run_getOffset_within (a : Literal) (b b' : ℕ) (sh : Utils.Shared)
    (hdigit : ∀ c name, 48 ≤ c ∧ c ≤ 57 → env.flagGet (c :: name) = none) :
    (Utils.getOffset env (a.within b b')).inside.run (nested env) sh =
      some (a.readAt env b' sh) := by
  have hconfig : ∀ name, (Utils.configGetI env name).inside.run (nested env) sh =
      some (optionAt env name sh) := by
    intro name
    unfold Utils.configGetI optionAt
    cases configNodeGet env.behindName env.config name with
    | none => rfl
    | some node =>
      dsimp only
      split_ifs <;> rfl
  rw [Literal.getOffset_within env a b b' hdigit, Prog.inside_bind, Prog.run_bind, hconfig]
  rfl

/-- **The body**, with both characters of the operator left. -/
theorem mathBody_odd (hop : op = 61 ∨ op = 33) (hodd : c.after % 2 = 1) :
    Utils.mathBody env (c.text op) =
      Utils.getOffset env (c.left.within (c.before / 2) (c.after / 2)) >>= fun x =>
        Utils.getOffset env (c.right.within (c.before' / 2) ((c.after' + 1) / 2)) >>= fun y =>
          pure (compared op x y) := by
  have hsqueeze := squeeze_text_odd hodd op
  have hsigned := c.left.unsigned (c.before / 2) (c.after / 2)
    (op :: 61 :: c.right.within (c.before' / 2) ((c.after' + 1) / 2))
  rw [← hsqueeze] at hsigned
  obtain ⟨n, hn⟩ : ∃ n, (squeeze (c.text op) ++ 0 :: env.behind).length + 1 = n + 3 := by
    refine ⟨(squeeze (c.text op) ++ 0 :: env.behind).length - 2, ?_⟩
    rw [hsqueeze]
    simp only [List.length_append, List.length_cons]
    omega
  rw [Utils.mathBody_unsigned hsigned, hn]
  exact mathLoop_compare hop (by rw [← hsqueeze]; rfl) rfl rfl rfl rfl

/-- **The body**, with one of them. -/
theorem mathBody_even (hop : op = 61 ∨ op = 33) (heven : ¬c.after % 2 = 1) :
    Utils.mathBody env (c.text op) =
      Utils.getOffset env (c.left.within (c.before / 2)
        (c.after / 2 + if op = 61 then 1 else 0)) >>= fun x => pure (compared op x x) := by
  have hsqueeze := squeeze_text_even heven hop
  have hsigned := c.left.unsigned (c.before / 2) (c.after / 2 + if op = 61 then 1 else 0)
    (op :: c.right.within (c.before' / 2) ((c.after' + 1) / 2))
  rw [← hsqueeze] at hsigned
  obtain ⟨n, hn⟩ : ∃ n, (squeeze (c.text op) ++ 0 :: env.behind).length + 1 = n + 2 := by
    refine ⟨(squeeze (c.text op) ++ 0 :: env.behind).length - 1, ?_⟩
    rw [hsqueeze]
    simp only [List.length_append, List.length_cons]
    omega
  rw [Utils.mathBody_unsigned hsigned, hn]
  exact mathLoop_alone hop (by rw [← hsqueeze]; rfl) rfl rfl rfl rfl

/-- **The value of a comparison**: of the two numbers as they are read, or of one
with itself. -/
theorem getMath_compare (hop : op = 61 ∨ op = 33) (hlevel : level ≤ 5) (c : Comparison)
    (hdigit : ∀ c name, 48 ≤ c ∧ c ≤ 57 → env.flagGet (c :: name) = none) :
    (Utils.getMath env (c.text op) level).1 =
      if c.after % 2 = 1 then compared op (c.operands env level).1 (c.operands env level).2
      else compared op 0 0 := by
  have hne : c.text op ≠ [] := List.append_ne_nil_of_left_ne_nil (c.left.within_ne_nil _ _) _
  by_cases hodd : c.after % 2 = 1
  · have hrun : (Utils.mathBody env (c.text op)).inside.run (nested env)
        ⟨level + 1, env.disk⟩ =
          some (compared op (c.operands env level).1 (c.operands env level).2,
            (c.right.readAt env ((c.after' + 1) / 2)
              (c.left.readAt env (c.after / 2) ⟨level + 1, env.disk⟩).2).2) := by
      rw [mathBody_odd hop hodd, Prog.inside_bind, Prog.run_bind_of
        (run_getOffset_within c.left _ _ _ hdigit), Prog.inside_bind, Prog.run_bind_of
        (run_getOffset_within c.right _ _ _ hdigit)]
      rfl
    rw [if_pos hodd, Utils.getMath_of_body hlevel hne hrun]
  · have hself : ∀ x : ut64, compared op x x = compared op 0 0 := by
      intro x
      unfold compared
      rw [UInt64.sub_self]
      rfl
    have hleft := run_getOffset_within c.left (c.before / 2)
      (c.after / 2 + if op = 61 then 1 else 0) ⟨level + 1, env.disk⟩ hdigit
    have hrun : (Utils.mathBody env (c.text op)).inside.run (nested env) ⟨level + 1, env.disk⟩ =
        some (compared op 0 0, (c.left.readAt env (c.after / 2 + if op = 61 then 1 else 0)
          ⟨level + 1, env.disk⟩).2) := by
      rw [mathBody_even hop hodd, Prog.inside_bind, Prog.run_bind_of hleft]
      exact congrArg (fun v => some (v, _)) (hself _)
    rw [if_neg hodd, Utils.getMath_of_body hlevel hne hrun]

/-- Too deep in itself, `get_math` gives up. -/
theorem getMath_deep (hlevel : ¬level ≤ 5) (text : List u8) :
    (Utils.getMath env text level).1 = 0 := by
  have hcall : Utils.mathCall env 1 (.math text) ⟨level, env.disk⟩ =
      some (0, ⟨level + 1, env.disk⟩) := if_pos (Int.not_le.mp hlevel)
  unfold Utils.getMath
  rw [Utils.answer_eq hcall]

/-! ## When the comparisons tell -/

theorem sub_eq_zero_iff : y - x = 0 ↔ x = y := by
  rw [UInt64.sub_eq_iff_eq_add, UInt64.zero_add, eq_comm]

theorem compared_equal_iff : compared 61 x y = 0 ↔ x = y := by
  unfold compared
  rw [if_pos rfl, sub_eq_zero_iff]

theorem compared_differ_iff : compared 33 x y = 0 ↔ x ≠ y := by
  unfold compared
  rw [if_neg (by decide)]
  by_cases hxy : y - x = 0
  · rw [if_pos hxy]
    exact iff_of_false (by decide) fun h => h (sub_eq_zero_iff.mp hxy)
  · rw [if_neg hxy]
    exact iff_of_true rfl fun h => hxy (sub_eq_zero_iff.mpr h)

/-- **When `==` and `!=` tell** whether two numbers are equal: the counter is not
beyond its limit, and an odd number of blanks stands in front of the operator and
the numbers are read as equal ones just if they are, or an even number does and
they are. -/
theorem comparison_iff (env : Utils.MathEnv) (flags : List FlagT) (level : ℤ) (c : Comparison) :
    c.Tells (env.withFlags flags) level ↔
      level ≤ 5 ∧
        if c.after % 2 = 1 then
          ((c.operands (env.withFlags flags) level).1 = (c.operands (env.withFlags flags) level).2 ↔
            c.left.val = c.right.val)
        else c.left.val = c.right.val := by
  have hdigit := withFlags_digit env flags
  unfold Comparison.Tells
  by_cases hlevel : level ≤ 5
  · rw [getMath_compare (Or.inl rfl) hlevel c hdigit, getMath_compare (Or.inr rfl) hlevel c hdigit,
      and_iff_right hlevel]
    by_cases hodd : c.after % 2 = 1
    · rw [if_pos hodd, if_pos hodd, if_pos hodd, compared_equal_iff, compared_differ_iff,
        not_iff_not, and_self_iff]
    · rw [if_neg hodd, if_neg hodd, if_neg hodd, compared_equal_iff, compared_differ_iff]
      constructor
      · exact fun h => h.1.mp rfl
      · exact fun h => ⟨iff_of_true rfl h, iff_of_false (fun hne => hne rfl) fun hne => hne h⟩
  · rw [getMath_deep hlevel, getMath_deep hlevel]
    constructor
    · exact fun h => absurd (h.1.mp rfl) (h.2.mp rfl)
    · exact fun h => absurd h.1 hlevel

/-- `1==2` is 0. -/
theorem comparison_no_blank :
    let c : Comparison :=
      { left := ⟨false, [49], List.cons_ne_nil _ _, List.forall_mem_singleton.mpr rfl⟩
        before := 0
        after := 0
        right := ⟨false, [50], List.cons_ne_nil _ _, List.forall_mem_singleton.mpr rfl⟩
        before' := 0
        after' := 0 }
    let env : Utils.MathEnv := {}
    ¬((Utils.getMath (env.withFlags []) (c.text 61) 0).1 = 0 ↔ c.left.val = c.right.val) := by
  intro c env h
  rw [getMath_compare (Or.inl rfl) (by decide) c (withFlags_digit env [])] at h
  have hvals : c.left.val ≠ c.right.val := by decide +kernel
  exact hvals (h.mp rfl)

end Radare
