import Mathlib.Data.Int.ModEq
import Radare.Utils.Literal
/-!
# Arithmetic

Numbers with `+ - * / % < >` between them, as `get_math` takes them from left to
right. Its first loop takes blanks out of the text, but never two in a row, so
that every number keeps about half of those around it; then an operator is
applied one token after it was read.

The numbers are added, and so on, modulo 2^64. That is right of the numbers that
`sscanf` reads, and a number that is too large for it is another one.
-/

namespace Radare

open Common

/-! ## The expressions -/

/-- An operator. -/
inductive ArithOp
  | add | sub | mul | div | mod | shl | shr

namespace ArithOp

/-- Its character. -/
def char : ArithOp → u8
  | add => 43
  | sub => 45
  | mul => 42
  | div => 47
  | mod => 37
  | shl => 60
  | shr => 62

/-- What it makes of a value and the number behind it. -/
def on : ArithOp → ℤ → ℕ → ℤ
  | add, x, n => x + n
  | sub, x, n => x - n
  | mul, x, n => x * n
  | div, x, n => if n = 0 then x else x / n
  | mod, x, n => if n = 0 then x else x % n
  | shl, x, n => x * 2 ^ n
  | shr, x, n => x / 2 ^ n

/-- It shifts. -/
def Shifts (op : ArithOp) : Prop := op = shl ∨ op = shr

end ArithOp

/-- An operator with its number, and blanks around that. -/
structure ArithTerm where
  op : ArithOp
  num : Literal
  before : ℕ
  after : ℕ
  count : op.Shifts → num.val < 64

/-- An expression. -/
structure Arith where
  num : Literal
  before : ℕ
  after : ℕ
  terms : List ArithTerm

namespace ArithTerm

/-- How they are written. -/
def text (t : ArithTerm) : List u8 := t.op.char :: t.num.within t.before t.after

/-- Both without the blanks. -/
def plain (t : ArithTerm) : ArithOp × Literal := (t.op, t.num)

/-- The value behind it, modulo 2^64, by what numbers are. -/
def step (val : Literal → ℕ) (x : ℤ) (t : ArithTerm) : ℤ := t.op.on x (val t.num) % 2 ^ 64

/-- The same in a machine word, with the number that is read. -/
def stepRead (x : ut64) (t : ArithTerm) : ut64 :=
  Utils.stepOff t.op.char x (UInt64.ofNat t.num.read)

end ArithTerm

namespace Arith

/-- How it is written. -/
def text (e : Arith) : List u8 := e.num.within e.before e.after ++ e.terms.flatMap ArithTerm.text

/-- Its numbers. -/
def nums (e : Arith) : List Literal := e.num :: e.terms.map ArithTerm.num

/-- Its value from left to right, modulo 2^64, by what numbers are. -/
def eval (val : Literal → ℕ) (e : Arith) : ℤ :=
  e.terms.foldl (ArithTerm.step val) (val e.num % 2 ^ 64)

end Arith

variable {e : Arith} {a : Literal} {t : ArithTerm} {ts us : List ArithTerm} {op : ArithOp}
variable {c : u8} {rest w pre behind : List u8} {n b b' k : ℕ} {x : ut64}
variable {env : Utils.MathEnv} {m : Utils.MathState} {f : Utils.Ask → Unit → Option (ut64 × Unit)}

/-! ## Blanks -/

theorem squeeze_cons (hc : c ≠ 32 ∧ c ≠ 33 ∧ c ≠ 61) (rest : List u8) :
    squeeze (c :: rest) = c :: squeeze rest :=
  squeeze_front (t := [c]) rest fun _ hd => List.mem_singleton.mp hd ▸ hc

/-- Blanks go by twos, each with one that is passed over. -/
theorem squeeze_even (n : ℕ) (rest : List u8) :
    squeeze (List.replicate (2 * n) 32 ++ rest) = List.replicate n 32 ++ squeeze rest := by
  induction n with
  | zero => rfl
  | succ n ih =>
    have htwice : 2 * (n + 1) = 2 * n + 1 + 1 := by omega
    rw [htwice, List.replicate_succ, List.replicate_succ, List.replicate_succ, List.cons_append,
      List.cons_append, List.cons_append, ← ih]
    rfl

/-- One more goes with the character behind it. -/
theorem squeeze_odd (n : ℕ) (c : u8) (rest : List u8) :
    squeeze (List.replicate (2 * n + 1) 32 ++ c :: rest) =
      List.replicate n 32 ++ c :: squeeze rest := by
  rw [List.replicate_succ', List.append_assoc, squeeze_even]
  rfl

/-- **Of blanks in front of a character** half are left. -/
theorem squeeze_blanks (n : ℕ) (hc : c ≠ 32 ∧ c ≠ 33 ∧ c ≠ 61) (rest : List u8) :
    squeeze (List.replicate n 32 ++ c :: rest) =
      List.replicate (n / 2) 32 ++ c :: squeeze rest := by
  rcases Nat.even_or_odd' n with ⟨k, rfl | rfl⟩
  · have hhalf : 2 * k / 2 = k := by omega
    rw [squeeze_even, squeeze_cons hc, hhalf]
  · have hhalf : (2 * k + 1) / 2 = k := by omega
    rw [squeeze_odd, hhalf]

theorem squeeze_blanks_end (n : ℕ) :
    squeeze (List.replicate n 32) = List.replicate ((n + 1) / 2) 32 := by
  rcases Nat.even_or_odd' n with ⟨k, rfl | rfl⟩
  · have heven := squeeze_even k []
    have hhalf : (2 * k + 1) / 2 = k := by omega
    rw [List.append_nil, squeeze, List.append_nil] at heven
    rw [hhalf, heven]
  · have hodd := squeeze_even k [32]
    have hhalf : (2 * k + 1 + 1) / 2 = k + 1 := by omega
    rw [hhalf, List.replicate_succ', List.replicate_succ']
    exact hodd

namespace Literal

theorem solid (hc : c ∈ a.text) : c ≠ 32 ∧ c ≠ 33 ∧ c ≠ 61 := by
  refine ⟨?_, ?_, ?_⟩
  all_goals
    rintro rfl
    exact not_mem_text (by decide) (by decide) hc

/-- A number with blanks in front. -/
theorem squeeze_before (a : Literal) (b : ℕ) (rest : List u8) :
    squeeze (List.replicate b 32 ++ a.text ++ rest) =
      List.replicate (b / 2) 32 ++ a.text ++ squeeze rest := by
  obtain ⟨c, w, hcw⟩ := List.exists_cons_of_ne_nil a.text_ne_nil
  have hsolid : ∀ d ∈ c :: w, d ≠ 32 ∧ d ≠ 33 ∧ d ≠ 61 := fun d hd => solid (hcw ▸ hd)
  have hfront : squeeze (w ++ rest) = w ++ squeeze rest :=
    squeeze_front rest fun d hd => hsolid d (List.mem_cons_of_mem _ hd)
  rw [hcw, List.append_assoc, List.append_assoc, List.cons_append, List.cons_append,
    squeeze_blanks b (hsolid c List.mem_cons_self), hfront]

theorem squeeze_within (a : Literal) (b b' : ℕ) (hc : c ≠ 32 ∧ c ≠ 33 ∧ c ≠ 61)
    (rest : List u8) :
    squeeze (a.within b b' ++ c :: rest) = a.within (b / 2) (b' / 2) ++ c :: squeeze rest := by
  unfold within
  rw [List.append_assoc, squeeze_before, squeeze_blanks b' hc, ← List.append_assoc]

theorem squeeze_within_end (a : Literal) (b b' : ℕ) :
    squeeze (a.within b b') = a.within (b / 2) ((b' + 1) / 2) := by
  unfold within
  rw [squeeze_before, squeeze_blanks_end]

/-- What a token is not made of. -/
theorem of_mem_within (hc : c ∈ a.within b b') : c ∉ operators ∧ c ≠ 0 := by
  unfold within at hc
  rcases List.mem_append.mp hc with hc | hc
  · rcases List.mem_append.mp hc with hc | hc
    · rw [List.eq_of_mem_replicate hc]
      decide
    · refine ⟨not_operator hc, ?_⟩
      rintro rfl
      exact not_mem_text (by decide) (by decide) hc
  · rw [List.eq_of_mem_replicate hc]
    decide

theorem within_ne_nil (a : Literal) (b b' : ℕ) : a.within b b' ≠ [] :=
  List.append_ne_nil_of_left_ne_nil (List.append_ne_nil_of_right_ne_nil _ a.text_ne_nil) _

/-- A number has no sign in front. -/
theorem unsigned (a : Literal) (b b' : ℕ) (rest : List u8) :
    ¬((a.within b b' ++ rest).head? = some 43 ∨ (a.within b b' ++ rest).head? = some 45) := by
  have hhead : ∀ c ∈ operators, (a.within b b' ++ rest).head? ≠ some c := by
    intro c hc h
    rw [List.head?_append_of_ne_nil _ (a.within_ne_nil b b')] at h
    exact (of_mem_within (List.mem_of_mem_head? h)).1 hc
  rintro (h | h)
  · exact hhead 43 (by decide) h
  · exact hhead 45 (by decide) h

end Literal

namespace ArithOp

theorem char_solid (op : ArithOp) : op.char ≠ 32 ∧ op.char ≠ 33 ∧ op.char ≠ 61 := by
  cases op <;> decide

theorem char_mem (op : ArithOp) : op.char ∈ operators := by
  cases op <;> decide

theorem char_plain (op : ArithOp) : op.char ∉ [33, 61, 91, 92] := by
  cases op <;> decide

end ArithOp

/-- **The first loop** changes nothing but the blanks. -/
theorem squeeze_terms (a : Literal) (b b' : ℕ) (ts : List ArithTerm) :
    ∃ (k k' : ℕ) (us : List ArithTerm), squeeze (a.within b b' ++ ts.flatMap ArithTerm.text) =
        a.within k k' ++ us.flatMap ArithTerm.text ∧
      us.map ArithTerm.plain = ts.map ArithTerm.plain := by
  induction ts generalizing a b b' with
  | nil =>
    refine ⟨b / 2, (b' + 1) / 2, [], ?_, rfl⟩
    rw [List.flatMap_nil, List.append_nil, Literal.squeeze_within_end, List.append_nil]
  | cons t ts ih =>
    obtain ⟨k, k', us, htext, hus⟩ := ih t.num t.before t.after
    refine ⟨b / 2, b' / 2, { t with before := k, after := k' } :: us, ?_, ?_⟩
    · rw [List.flatMap_cons, List.flatMap_cons, ArithTerm.text, List.cons_append,
        Literal.squeeze_within a b b' t.op.char_solid, htext]
      rfl
    · rw [List.map_cons, List.map_cons, hus]
      rfl

/-! ## The loop -/

/-- The characters behind a number are operators, blanks and digits. -/
theorem zero_not_mem_terms (a : Literal) (b b' : ℕ) (ts : List ArithTerm) :
    0 ∉ a.within b b' ++ ts.flatMap ArithTerm.text := by
  intro h
  rcases List.mem_append.mp h with h | h
  · exact (Literal.of_mem_within h).2 rfl
  · obtain ⟨t, -, ht⟩ := List.mem_flatMap.mp h
    rcases List.mem_cons.mp ht with ht | ht
    · exact absurd ht.symm (by cases t.op <;> decide)
    · exact (Literal.of_mem_within ht).2 rfl

/-- A term has a character at least. -/
theorem length_terms_le (ts : List ArithTerm) :
    ts.length ≤ (ts.flatMap ArithTerm.text).length := by
  induction ts with
  | nil => exact le_rfl
  | cons t ts ih =>
    rw [List.flatMap_cons, List.length_append, List.length_cons, ArithTerm.text, List.length_cons]
    omega

/-- **The loop of `get_math`** applies each operator to the number behind it. -/
theorem run_mathLoop_terms (a : Literal) (b b' : ℕ) (hoop : m.oop ∉ [33, 61, 91, 92])
    (hvals : ∀ c ∈ a :: ts.map ArithTerm.num, ∀ b b',
      (Utils.getOffset env (c.within b b')).run f () = some (UInt64.ofNat c.read, ()))
    (htxt : m.txt = pre ++ (a.within b b' ++ ts.flatMap ArithTerm.text) ++ 0 :: behind)
    (hptr : m.ptr = pre.length) (hn : ts.length < n) :
    ∃ m', (Utils.mathLoop env n m).run f () = some (m', ()) ∧ m'.isCmp = m.isCmp ∧
      m'.newOff =
        ts.foldl ArithTerm.stepRead (Utils.stepOff m.oop m.newOff (UInt64.ofNat a.read)) := by
  induction ts generalizing m pre a b b' n with
  | nil =>
    obtain ⟨n, rfl⟩ : ∃ k, n = k + 1 := Nat.exists_eq_succ_of_ne_zero (by omega)
    have hplain : ∀ c ∈ a.within b b', c ∉ operators := fun c hc => (Literal.of_mem_within hc).1
    have hzero : 0 ∉ a.within b b' := fun h => (Literal.of_mem_within h).2 rfl
    rw [List.flatMap_nil, List.append_nil] at htxt
    rw [Utils.mathLoop_step_last hoop hplain (a.within_ne_nil b b') hzero htxt hptr,
      Prog.run_bind_of (hvals a List.mem_cons_self b b')]
    exact ⟨_, rfl, rfl, rfl⟩
  | cons t ts ih =>
    obtain ⟨n, rfl⟩ : ∃ k, n = k + 1 := Nat.exists_eq_succ_of_ne_zero (by omega)
    have hplain : ∀ c ∈ a.within b b', c ∉ operators := fun c hc => (Literal.of_mem_within hc).1
    have hzero := zero_not_mem_terms a b b' (t :: ts)
    rw [List.flatMap_cons, ArithTerm.text, List.cons_append] at htxt hzero
    rw [Utils.mathLoop_step hoop hplain t.op.char_mem hzero htxt hptr,
      Prog.run_bind_of (hvals a List.mem_cons_self b b'), List.foldl_cons]
    refine ih t.num t.before t.after t.op.char_plain ?_ rfl rfl (Nat.lt_of_succ_lt_succ hn)
    exact fun c hc => hvals c (List.mem_cons_of_mem _ hc)

/-! ## The numbers -/

theorem Literal.read_lt (a : Literal) : a.read < 2 ^ 64 := by
  unfold read bound
  split_ifs <;> omega

theorem toNat_ofNat_read (a : Literal) : (UInt64.ofNat a.read).toNat = a.read :=
  (UInt64.toNat_ofNat' ..).trans (Nat.mod_eq_of_lt a.read_lt)

/-- **An operator, on a machine word.** -/
theorem stepOff_on (op : ArithOp) (x : ut64) (a : Literal) (hcount : op.Shifts → a.read < 64) :
    ((Utils.stepOff op.char x (UInt64.ofNat a.read)).toNat : ℤ) =
      op.on x.toNat a.read % 2 ^ 64 := by
  have ht := toNat_ofNat_read a
  have hx := x.toNat_lt
  have hlt := a.read_lt
  generalize UInt64.ofNat a.read = t at ht ⊢
  generalize a.read = k at ht hlt hcount ⊢
  have hzero : t = 0 ↔ k = 0 := by rw [← ht, ← UInt64.toNat_inj]; rfl
  have hsmall : ∀ y : ℕ, y ≤ x.toNat → (y : ℤ) % 2 ^ 64 = y := fun y hy =>
    Int.emod_eq_of_lt (by omega) (by omega)
  cases op with
  | add =>
    have hadd : (x + t).toNat = (x.toNat + k) % 2 ^ 64 := ht ▸ UInt64.toNat_add x t
    change ((x + t).toNat : ℤ) = ((x.toNat : ℤ) + k) % 2 ^ 64
    rw [hadd]
    push_cast
    rfl
  | sub =>
    have hsub : (x - t).toNat = (2 ^ 64 - k + x.toNat) % 2 ^ 64 := ht ▸ UInt64.toNat_sub x t
    change ((x - t).toNat : ℤ) = ((x.toNat : ℤ) - k) % 2 ^ 64
    rw [hsub]
    omega
  | mul =>
    have hmul : (x * t).toNat = x.toNat * k % 2 ^ 64 := ht ▸ UInt64.toNat_mul x t
    change ((x * t).toNat : ℤ) = ((x.toNat : ℤ) * k) % 2 ^ 64
    rw [hmul]
    push_cast
    rfl
  | div =>
    change ((if t = 0 then x else x / t).toNat : ℤ) =
      (if k = 0 then (x.toNat : ℤ) else (x.toNat : ℤ) / k) % 2 ^ 64
    by_cases hk : k = 0
    · rw [if_pos (hzero.mpr hk), if_pos hk, hsmall _ le_rfl]
    · have hdiv : (x / t).toNat = x.toNat / k := ht ▸ UInt64.toNat_div x t
      rw [if_neg (mt hzero.mp hk), if_neg hk, hdiv, ← Int.natCast_div,
        hsmall _ (Nat.div_le_self _ _)]
  | mod =>
    change ((if t = 0 then x else x % t).toNat : ℤ) =
      (if k = 0 then (x.toNat : ℤ) else (x.toNat : ℤ) % k) % 2 ^ 64
    by_cases hk : k = 0
    · rw [if_pos (hzero.mpr hk), if_pos hk, hsmall _ le_rfl]
    · have hmod : (x % t).toNat = x.toNat % k := ht ▸ UInt64.toNat_mod x t
      rw [if_neg (mt hzero.mp hk), if_neg hk, hmod, ← Int.natCast_mod,
        hsmall _ (Nat.mod_le _ _)]
  | shl =>
    have hk : k < 64 := hcount (Or.inl rfl)
    have hshl : (x <<< t).toNat = x.toNat * 2 ^ k % 2 ^ 64 := by
      rw [UInt64.toNat_shiftLeft, ht, Nat.mod_eq_of_lt hk, Nat.shiftLeft_eq]
    change ((x <<< t).toNat : ℤ) = ((x.toNat : ℤ) * 2 ^ k) % 2 ^ 64
    rw [hshl]
    push_cast
    rfl
  | shr =>
    have hk : k < 64 := hcount (Or.inr rfl)
    have hshr : (x >>> t).toNat = x.toNat / 2 ^ k := by
      rw [UInt64.toNat_shiftRight, ht, Nat.mod_eq_of_lt hk, Nat.shiftRight_eq_div_pow]
    have hcast : (x.toNat : ℤ) / 2 ^ k = ((x.toNat / 2 ^ k : ℕ) : ℤ) := by push_cast; rfl
    change ((x >>> t).toNat : ℤ) = ((x.toNat : ℤ) / 2 ^ k) % 2 ^ 64
    rw [hshr, hcast, hsmall _ (Nat.div_le_self _ _)]

/-- **The operators one behind the other.** -/
theorem foldl_stepRead (ts : List ArithTerm) (x : ut64) :
    ((ts.foldl ArithTerm.stepRead x).toNat : ℤ) =
      ts.foldl (ArithTerm.step Literal.read) (x.toNat : ℤ) := by
  induction ts generalizing x with
  | nil => rfl
  | cons t ts ih =>
    have hcount : t.op.Shifts → t.num.read < 64 := fun h =>
      lt_of_le_of_lt (Nat.min_le_left _ _) (t.count h)
    have hstep : ((ArithTerm.stepRead x t).toNat : ℤ) = ArithTerm.step Literal.read x.toNat t :=
      stepOff_on t.op x t.num hcount
    rw [List.foldl_cons, List.foldl_cons, ih, hstep]

/-- The blanks make no difference to the value. -/
theorem foldl_step_plain {val : Literal → ℕ}
    (h : us.map ArithTerm.plain = ts.map ArithTerm.plain) (x : ℤ) :
    us.foldl (ArithTerm.step val) x = ts.foldl (ArithTerm.step val) x := by
  have hmap : ∀ l : List ArithTerm, l.foldl (ArithTerm.step val) x =
      (l.map ArithTerm.plain).foldl (fun x p => p.1.on x (val p.2) % 2 ^ 64) x :=
    fun l => by rw [List.foldl_map]; rfl
  rw [hmap, h, ← hmap]

/-! ## Expressions -/

/-- No option has the name of a number, with whatever blanks behind it. -/
def Arith.Unnamed (env : Utils.MathEnv) (e : Arith) : Prop :=
  ∀ a ∈ e.nums, ∀ b, configNodeGet env.behindName env.config (a.text ++ List.replicate b 32) = none

/-- **The value of an expression** is that of the numbers that `sscanf` reads. -/
theorem getMath_arith (flags : List FlagT) (hnames : e.Unnamed env) :
    ((Utils.getMath (env.withFlags flags) e.text 0).1.toNat : ℤ) = e.eval Literal.read := by
  obtain ⟨k, k', us, hsqueeze, hus⟩ := squeeze_terms e.num e.before e.after e.terms
  have hnums : us.map ArithTerm.num = e.terms.map ArithTerm.num := by
    have h := congrArg (List.map Prod.snd) hus
    rwa [List.map_map, List.map_map] at h
  have htext : e.text ≠ [] := List.append_ne_nil_of_left_ne_nil (e.num.within_ne_nil _ _) _
  have hsigned : ¬((squeeze e.text).head? = some 43 ∨ (squeeze e.text).head? = some 45) :=
    hsqueeze ▸ e.num.unsigned k k' _
  have hvals : ∀ f : Utils.Ask → Unit → Option (ut64 × Unit),
      ∀ a ∈ e.num :: us.map ArithTerm.num, ∀ b b',
        (Utils.getOffset (env.withFlags flags) (a.within b b')).run f () =
          some (UInt64.ofNat a.read, ()) := by
    intro f a ha b b'
    rw [hnums] at ha
    have hconfig : Utils.configGetI (env.withFlags flags) (a.text ++ List.replicate b' 32) =
        pure 0 := by
      have hnone : configNodeGet (env.withFlags flags).behindName (env.withFlags flags).config
          (a.text ++ List.replicate b' 32) = none := hnames a ha b'
      unfold Utils.configGetI
      rw [hnone]
    rw [Literal.getOffset_within _ a b b' (withFlags_digit env flags), hconfig]
    rfl
  have hmath : Utils.getMath (env.withFlags flags) e.text 0 =
      (us.foldl ArithTerm.stepRead (UInt64.ofNat e.num.read), 0) := by
    refine Utils.getMath_of_run htext hsigned fun f n m hn htxt hptr hoff hoop => ?_
    have hlen : us.length < n := by
      have hle := length_terms_le us
      have heq : squeeze e.text = _ := hsqueeze
      rw [heq, List.length_append] at hn
      omega
    have hplain : m.oop ∉ [33, 61, 91, 92] := by rw [hoop]; decide
    have hfirst : Utils.stepOff m.oop m.newOff (UInt64.ofNat e.num.read) =
        UInt64.ofNat e.num.read := by
      rw [hoop, hoff]
      exact UInt64.zero_add _
    have htxt' : m.txt = [] ++ (e.num.within k k' ++ us.flatMap ArithTerm.text) ++
        0 :: (env.withFlags flags).behind := by
      rw [htxt]
      exact congrArg (fun t => [] ++ t ++ 0 :: (env.withFlags flags).behind) hsqueeze
    rw [← hfirst]
    exact run_mathLoop_terms e.num k k' hplain (hvals f) htxt' hptr hlen
  have hbegin : ((e.num.read : ℕ) : ℤ) % 2 ^ 64 = e.num.read :=
    Int.emod_eq_of_lt (by omega) (by exact_mod_cast e.num.read_lt)
  rw [hmath, foldl_stepRead, toNat_ofNat_read, foldl_step_plain hus]
  unfold Arith.eval
  rw [hbegin]

theorem Literal.read_eq_val (h : a.val < a.bound) : a.read = a.val :=
  Nat.min_eq_left (Nat.le_pred_of_lt h)

/-- **When an expression has its value**: if no option has the name of a number,
just when a decimal number from 2^63 on and a hexadecimal one from 2^64 on are
none of its numbers, or make no difference to the greatest number below. -/
theorem getMath_arith_iff (env : Utils.MathEnv) (flags : List FlagT) (e : Arith)
    (hnames : e.Unnamed env) :
    ((Utils.getMath (env.withFlags flags) e.text 0).1.toNat : ℤ) = e.eval Literal.val ↔
      (∃ a ∈ e.nums, a.bound ≤ a.val) → e.eval Literal.read = e.eval Literal.val := by
  rw [getMath_arith flags hnames]
  constructor
  · exact fun h _ => h
  · intro h
    by_cases hlarge : ∃ a ∈ e.nums, a.bound ≤ a.val
    · exact h hlarge
    · have hsame : ∀ a ∈ e.nums, a.read = a.val := fun a ha =>
        Literal.read_eq_val (Nat.lt_of_not_le fun hle => hlarge ⟨a, ha, hle⟩)
      have hterms : ∀ x : ℤ, e.terms.foldl (ArithTerm.step Literal.read) x =
          e.terms.foldl (ArithTerm.step Literal.val) x := fun x =>
        List.foldl_ext _ _ x fun y t ht => by
          rw [ArithTerm.step, ArithTerm.step,
            hsame t.num (List.mem_cons_of_mem _ (List.mem_map_of_mem ht))]
      unfold Arith.eval
      rw [hsame e.num List.mem_cons_self, hterms]

/-- `1 + 2* 3` is 9, from left to right. -/
theorem getMath_sum_times :
    let e : Arith :=
      { num := ⟨false, [49], by decide, by decide +kernel⟩
        before := 0
        after := 1
        terms :=
          [⟨.add, ⟨false, [50], by decide, by decide +kernel⟩, 1, 0,
              by rintro (h | h) <;> cases h⟩,
            ⟨.mul, ⟨false, [51], by decide, by decide +kernel⟩, 1, 0,
              by rintro (h | h) <;> cases h⟩] }
    let env : Utils.MathEnv := {}
    ((Utils.getMath (env.withFlags []) e.text 0).1.toNat : ℤ) = e.eval Literal.val := by
  intro e env
  refine (getMath_arith_iff env [] e fun a _ b => rfl).mpr ?_
  rintro ⟨a, ha, hlarge⟩
  have hsmall : ∀ a ∈ e.nums, a.val < a.bound := by decide +kernel
  exact absurd hlarge (Nat.not_le.mpr (hsmall a ha))

/-- 2^63 in decimal is read as the number before. -/
theorem getMath_large_decimal :
    let e : Arith :=
      { num := ⟨false, [57, 50, 50, 51, 51, 55, 50, 48, 51, 54, 56, 53, 52, 55, 55, 53, 56, 48, 56],
          by decide, by decide +kernel⟩
        before := 0
        after := 0
        terms := [] }
    let env : Utils.MathEnv := {}
    ((Utils.getMath (env.withFlags []) e.text 0).1.toNat : ℤ) ≠ e.eval Literal.val := by
  intro e env
  have hnames : e.Unnamed env := fun a _ b => rfl
  rw [getMath_arith [] hnames]
  decide +kernel

end Radare
