import Mathlib.Data.List.Basic
import Mathlib.Tactic.Common
import Radare.Cmd.PlainLine
import Radare.Javasm.Pool
/-!
# Pseudo code of an instruction

`pas_aop` takes the text of an instruction apart and `pas_aop_mips` puts the words into the
template of its opcode, or into the short one where the first two operands are the same.
Behind a second comma the first operand is put into `w2` once more, so they nearly always are;
and the short template is read as far as the other one goes (`pasAop_right_iff`).
-/

namespace Radare

namespace Pas

/-- The types of the table. -/
inductive PasType where
  | mov
  | cmp
  | load
  | store
  | call
  | jmp
  | cjmp
  | nop
  | ret
deriving DecidableEq

/-- An entry of the table of `pas_aop_mips`. -/
structure PasOp where
  op : List u8
  str : List u8
  str12eq : List u8
  type : PasType
deriving DecidableEq

/-- `ops` of `pas_aop_mips`. -/
def mipsOps : List PasOp :=
  [⟨ascii "li", ascii "1 = 2", ascii "...", .mov⟩,
    ⟨ascii "lui", ascii "1 = 2", ascii "...", .mov⟩,
    ⟨ascii "move", ascii "1 = 2", ascii "...", .cmp⟩,
    ⟨ascii "and", ascii "1 = 2 & 3", ascii "and 1 &= 3", .mov⟩,
    ⟨ascii "addi", ascii "1 = 2 + 3", ascii "1 += 3", .mov⟩,
    ⟨ascii "addu", ascii "1 = 2 + 3", ascii "1 += 3", .mov⟩,
    ⟨ascii "addiu", ascii "1 = 2 + 3", ascii "1 += 3", .mov⟩,
    ⟨ascii "subu", ascii "1 = 2 - 3", ascii "1 -= 3", .mov⟩,
    ⟨ascii "subi", ascii "1 = 2 - 3", ascii "1 -= 3", .mov⟩,
    ⟨ascii "lbu", ascii "1 = [.8: 2 ]", [], .load⟩,
    ⟨ascii "lw", ascii "1 = [.3.2: 2 ]", [], .load⟩,
    ⟨ascii "sw", ascii "[.3.2: 2 ] = 1", [], .store⟩,
    ⟨ascii "bal", ascii "call 1", [], .call⟩,
    ⟨ascii "b", ascii "jmp 1", [], .jmp⟩,
    ⟨ascii "beqzl", ascii "jbe 1", [], .cjmp⟩,
    ⟨ascii "bnez", ascii "jnz 1", [], .cjmp⟩,
    ⟨ascii "beqz", ascii "jz 1", [], .cjmp⟩,
    ⟨ascii "bne", ascii "jne 1", [], .cjmp⟩,
    ⟨ascii "nop", ascii "...", [], .nop⟩,
    ⟨ascii "jalr", ascii "call 1", [], .call⟩,
    ⟨ascii "jr ", ascii "jmp 1", [], .call⟩]

/-! ## `pas_aop_mips` -/

/-- The loop of `pas_aop_mips`, from where it stands in `ops[i].str` and in `str`, each with
its NUL: what is written to `newstr`. There is no result where it reads behind one of them. -/
def expand (argv : List (List u8)) : List u8 → List u8 → List u8 → Option (List u8)
  | [], _, _ => none
  | o :: os, str, out =>
    if o = 0 then some out
    else
      match str with
      | [] => none
      | d :: ds =>
        if d = 46 then
          match os, ds with
          | _ :: os, x :: ds => expand argv os ds (out ++ [x])
          | _, _ => none
        else if 48 ≤ d ∧ d ≤ 57 then
          match argv[d.toNat - 48]? with
          | some w => expand argv os ds (out ++ w)
          | none => none
        else expand argv os ds (out ++ [d])

/-- What `pas_aop_mips` leaves: `newstr` up to the last NUL, the template that was taken, and
the type, where it is set. -/
structure PasRun where
  newstr : List u8
  str : Option (List u8)
  type : Option PasType

/-- The words one after the other, for `newstr`. -/
def joinWords (argc : ℕ) (argv : List (List u8)) : List u8 :=
  (List.range argc).flatMap fun i =>
    argv.getD i [] ++ [if i = 0 ∨ i = argc - 1 then 32 else 44]

/-- `pas_aop_mips`. -/
def pasAopMips (argc : ℕ) (argv : List (List u8)) (newstr : List u8) : Option PasRun :=
  if (argv.getD 0 [] = ascii "jalr" ∨ argv.getD 0 [] = ascii "jr") ∧
      argv.getD 1 [] = ascii "ra" then
    some ⟨ascii "ret", none, some .ret⟩
  else
    match mipsOps.find? (·.op = argv.getD 0 []) with
    | some row =>
      let str := if argc > 2 ∧ argv.getD 1 [] = argv.getD 2 [] then row.str12eq else row.str
      (expand argv (row.str ++ [0]) (str ++ [0]) []).map fun out => ⟨out, some str, some row.type⟩
    | none => some ⟨newstr ++ joinWords argc argv, none, none⟩

/-! ## `pas_aop` -/

/-- `for(ptr=ptr+1;ptr[0]==' ';ptr=ptr+1);` -/
def skipBlanks (s : List u8) : List u8 := s.dropWhile (· = 32)

/-- `w0` to `w3`. There is no result where a text is copied that does not fit. -/
def pasWords (str : List u8) : Option (List (List u8)) :=
  match (Cmd.strchr 32 str).or (Cmd.strchr 9 str) with
  | none => some [[], [], [], []]
  | some (w0, ptr) =>
    let ptr := skipBlanks ptr
    if 32 ≤ w0.length ∨ 32 ≤ ptr.length then none
    else
      match Cmd.strchr 44 ptr with
      | none => some [w0, ptr, [], []]
      | some (optr, ptr) =>
        let ptr := skipBlanks ptr
        match Cmd.strchr 44 ptr with
        | none => some [w0, optr, ptr, []]
        -- `optr` is where it was
        | some (_, ptr) => some [w0, optr, optr, skipBlanks ptr]

/-- `pas_aop` for `ARCH_MIPS` and pseudo code: `str` is what `udis_arch_string` makes of the
bytes, and `w4` is what the stack holds. -/
def pasAop (w4 newstr str : List u8) : Option PasRun :=
  if 64 ≤ str.length then none
  else if str = [] then some ⟨newstr, none, none⟩
  else (pasWords str).bind fun ws => pasAopMips (ws.countP (· ≠ [])) (ws ++ [w4]) newstr

/-! ## Templates -/

/-- A template with the operands in it. -/
def render (a b c : List u8) : List u8 → List u8
  | [] => []
  | 46 :: x :: t => x :: render a b c t
  | d :: t =>
    (if d = 49 then a else if d = 50 then b else if d = 51 then c else [d]) ++ render a b c t

/-- How often a template has a digit. -/
def uses (n : u8) : List u8 → ℕ
  | [] => 0
  | 46 :: _ :: t => uses n t
  | d :: t => (if d = n then 1 else 0) + uses n t

/-- How many characters of a template stay. -/
def stays : List u8 → ℕ
  | [] => 0
  | 46 :: _ :: t => 1 + stays t
  | d :: t => (if d = 49 ∨ d = 50 ∨ d = 51 then 0 else 1) + stays t

/-- Each dot has a character behind it, and each digit is one of three. -/
def wellFormed : List u8 → Bool
  | [] => true
  | 46 :: _ :: t => wellFormed t
  | d :: t =>
    d ≠ 0 && d ≠ 46 && (d = 49 || d = 50 || d = 51 || !(48 ≤ d && d ≤ 57)) && wellFormed t

/-- Three operands, as they are written. -/
def operandText (a b c : List u8) : List u8 := a ++ 44 :: 32 :: (b ++ 44 :: 32 :: c)

/-- The text of an instruction. -/
def pasText (op a b c : List u8) : List u8 := op ++ 32 :: operandText a b c

/-- The short template is taken just where the first two operands are the same, and the
operands are put into what is taken. -/
def PasRight (row : PasOp) (a b c : List u8) (run : Option PasRun) : Prop :=
  ∃ r, run = some r ∧ r.str = some (if a = b then row.str12eq else row.str) ∧
    r.newstr = render a b c (if a = b then row.str12eq else row.str)

/-- The opcodes with the first operand alone in their template. -/
def firstOnly : List (List u8) :=
  [ascii "bal", ascii "b", ascii "beqzl", ascii "bnez", ascii "beqz", ascii "bne", ascii "jalr"]

/-- The first operand is empty and is all that is needed; or it is `and`, whose short template
is the longer one, and what is cut off of it is empty. -/
def PasRightWhen (row : PasOp) (a b c : List u8) : Prop :=
  a = [] ∧ b ≠ [] ∧ row.op ∈ firstOnly ∧ b.length + c.length + 4 < 32 ∨
    row.op = ascii "and" ∧ a ≠ [] ∧ b = a ∧ c = [] ∧ 44 ∉ a ∧ a.head? ≠ some 32 ∧
      2 * a.length + 4 < 32

/-! ### What they are like -/

section Template

variable {a b c a' b' c' : List u8} {s : List u8}

theorem length_render (s : List u8) :
    (render a b c s).length = stays s + uses 49 s * a.length + uses 50 s * b.length +
      uses 51 s * c.length := by
  fun_induction render a b c s with
  | case1 => simp [stays, uses]
  | case2 x t ih =>
    rw [List.length_cons, ih, stays, uses, uses, uses]
    omega
  | case3 d t hd ih =>
    have hword : (if d = 49 then a else if d = 50 then b else if d = 51 then c else [d]).length =
        (if d = 49 ∨ d = 50 ∨ d = 51 then 0 else 1) + (if d = 49 then 1 else 0) * a.length +
          (if d = 50 then 1 else 0) * b.length + (if d = 51 then 1 else 0) * c.length := by
      by_cases h1 : d = 49
      · subst h1
        simp
      by_cases h2 : d = 50
      · subst h2
        simp
      by_cases h3 : d = 51
      · subst h3
        simp
      simp [h1, h2, h3]
    rw [List.length_append, hword, ih, stays, uses, uses, uses, Nat.add_mul, Nat.add_mul,
      Nat.add_mul]
    · omega
    all_goals exact hd

/-- An operand that is not used does not matter. -/
theorem render_congr (ha : a = a' ∨ uses 49 s = 0) (hb : b = b' ∨ uses 50 s = 0)
    (hc : c = c' ∨ uses 51 s = 0) : render a b c s = render a' b' c' s := by
  fun_induction render a b c s with
  | case1 => rfl
  | case2 x t ih =>
    rw [uses] at ha hb hc
    rw [render, ih ha hb hc]
  | case3 d t hd ih =>
    have htail : ∀ {n : u8} {w w' : List u8}, w = w' ∨ uses n (d :: t) = 0 →
        (w = w' ∨ d ≠ n) ∧ (w = w' ∨ uses n t = 0) := by
      intro n w w' h
      rw [uses] at h
      obtain h | h := h
      · exact ⟨.inl h, .inl h⟩
      · refine ⟨.inr fun hdn => ?_, .inr (by omega)⟩
        rw [if_pos hdn] at h
        omega
      · exact hd
    obtain ⟨ha, ha'⟩ := htail ha
    obtain ⟨hb, hb'⟩ := htail hb
    obtain ⟨hc, hc'⟩ := htail hc
    rw [render, ih ha' hb' hc']
    · congr 1
      split_ifs with h1 h2 h3
      · exact ha.resolve_right (not_not.mpr h1)
      · exact hb.resolve_right (not_not.mpr h2)
      · exact hc.resolve_right (not_not.mpr h3)
      · rfl
    · exact hd

/-! ## The loop -/

variable {argv argv' : List (List u8)} {o d x : u8} {os ds w : List u8}

/-- A turn of the loop. -/
theorem expand_cons (argv : List (List u8)) (o : u8) (os str out : List u8) :
    expand argv (o :: os) str out =
      if o = 0 then some out
      else
        match str with
        | [] => none
        | d :: ds =>
          if d = 46 then
            match os, ds with
            | _ :: os, x :: ds => expand argv os ds (out ++ [x])
            | _, _ => none
          else if 48 ≤ d ∧ d ≤ 57 then
            match argv[d.toNat - 48]? with
            | some w => expand argv os ds (out ++ w)
            | none => none
          else expand argv os ds (out ++ [d]) := expand.eq_def ..

theorem expand_end (argv : List (List u8)) (os ds out : List u8) :
    expand argv (0 :: os) ds out = some out := by
  rw [expand_cons, if_pos rfl]

theorem expand_dot (ho : o ≠ 0) (out : List u8) :
    expand argv (o :: d :: os) (46 :: x :: ds) out = expand argv os ds (out ++ [x]) := by
  rw [expand_cons, if_neg ho]
  exact if_pos rfl

theorem expand_word (ho : o ≠ 0) (hd : 48 ≤ d ∧ d ≤ 57) (hw : argv[d.toNat - 48]? = some w)
    (out : List u8) : expand argv (o :: os) (d :: ds) out = expand argv os ds (out ++ w) := by
  have hdot : d ≠ 46 := by
    rintro rfl
    exact absurd hd (by decide)
  rw [expand_cons, if_neg ho]
  dsimp only
  rw [if_neg hdot, if_pos hd, hw]

theorem expand_char (ho : o ≠ 0) (hdot : d ≠ 46) (hd : ¬(48 ≤ d ∧ d ≤ 57)) (out : List u8) :
    expand argv (o :: os) (d :: ds) out = expand argv os ds (out ++ [d]) := by
  rw [expand_cons, if_neg ho]
  dsimp only
  rw [if_neg hdot, if_neg hd]

/-- **A template is put down as it should be** where nothing else is read. -/
theorem expand_self (w0 w4 : List u8) (hs : wellFormed s) (out : List u8) :
    expand [w0, a, b, c, w4] (s ++ [0]) (s ++ [0]) out = some (out ++ render a b c s) := by
  fun_induction render a b c s generalizing out with
  | case1 =>
    rw [List.append_nil]
    rfl
  | case2 x t ih =>
    rw [wellFormed] at hs
    change expand [w0, a, b, c, w4] (46 :: x :: (t ++ [0])) (46 :: x :: (t ++ [0])) out = _
    rw [expand_dot (by decide), ih hs, List.append_assoc]
    rfl
  | case3 d t hd ih =>
    rw [wellFormed] at hs
    · simp only [Bool.and_eq_true, Bool.or_eq_true, Bool.not_eq_true', decide_eq_true_eq] at hs
      obtain ⟨⟨⟨hne, hdot⟩, hdigit⟩, hs⟩ := hs
      rw [List.cons_append]
      by_cases h1 : d = 49
      · subst h1
        rw [expand_word hne (by decide) rfl, ih hs, List.append_assoc]
        rfl
      by_cases h2 : d = 50
      · subst h2
        rw [expand_word hne (by decide) rfl, ih hs, List.append_assoc]
        rfl
      by_cases h3 : d = 51
      · subst h3
        rw [expand_word hne (by decide) rfl, ih hs, List.append_assoc]
        rfl
      have hplain : ¬(48 ≤ d ∧ d ≤ 57) := by simpa [h1, h2, h3] using hdigit
      rw [expand_char hne hdot hplain, ih hs, if_neg h1, if_neg h2, if_neg h3, List.append_assoc]
    · exact hd

/-- What the words are does not matter for how far the templates are read. -/
theorem expand_eq_none (hlen : argv.length = argv'.length) {ostr str out out' : List u8}
    (h : expand argv ostr str out = none) : expand argv' ostr str out' = none := by
  fun_induction expand argv ostr str out generalizing out' with
  | case1 => rfl
  | case2 => cases h
  | case3 o os out ho => rw [expand_cons, if_neg ho]
  | case4 o out ho d os x ds ih =>
    rw [expand_dot ho]
    exact ih h
  | case5 o os out ho ds hend =>
    rw [expand_cons, if_neg ho]
    dsimp only
    rw [if_pos rfl]
    split
    · exact absurd rfl (hend _ _ _ _ rfl)
    · rfl
  | case6 o os out ho d ds hdot hd w hw ih =>
    obtain ⟨hlt, -⟩ := List.getElem?_eq_some_iff.mp hw
    rw [expand_word ho hd (List.getElem?_eq_getElem (hlen ▸ hlt))]
    exact ih h
  | case7 o os out ho d ds hdot hd hw =>
    have hw' : argv'[d.toNat - 48]? = none := by
      rw [List.getElem?_eq_none_iff] at hw ⊢
      omega
    rw [expand_cons, if_neg ho]
    dsimp only
    rw [if_neg hdot, if_pos hd, hw']
  | case8 o os out ho d ds hdot hd ih =>
    rw [expand_char ho hdot hd]
    exact ih h

end Template

/-! ## The words -/

section Words

variable {op rest a b c R : List u8} {x : u8}

/-- In front of the first comma. -/
def front (s : List u8) : List u8 := s.takeWhile (· ≠ 44)

/-- Behind it. -/
def behind (s : List u8) : List u8 := (s.dropWhile (· ≠ 44)).tail

theorem front_cons (hx : x ≠ 44) (s : List u8) : front (x :: s) = x :: front s :=
  List.takeWhile_cons_of_pos (decide_eq_true hx)

theorem behind_cons (hx : x ≠ 44) (s : List u8) : behind (x :: s) = behind s :=
  congrArg List.tail (List.dropWhile_cons_of_pos (decide_eq_true hx))

theorem front_append_behind (h : 44 ∈ R) : R = front R ++ 44 :: behind R := by
  induction R with
  | nil => cases h
  | cons x R ih =>
    by_cases hx : x = 44
    · subst hx
      rfl
    · have hR : 44 ∈ R := List.mem_of_ne_of_mem (Ne.symm hx) h
      rw [front_cons hx, behind_cons hx, List.cons_append, ← ih hR]

theorem strchr_comma (h : 44 ∈ R) : Cmd.strchr 44 R = some (front R, behind R) := if_pos h

theorem comma_not_mem_front (R : List u8) : 44 ∉ front R := by
  induction R with
  | nil => exact List.not_mem_nil
  | cons x R ih =>
    by_cases hx : x = 44
    · subst hx
      exact List.not_mem_nil
    · rw [front_cons hx]
      exact List.not_mem_cons_of_ne_of_not_mem (Ne.symm hx) ih

theorem count_behind (h : 44 ∈ R) : (behind R).count 44 + 1 = R.count 44 := by
  conv_rhs => rw [front_append_behind h]
  rw [List.count_append, List.count_eq_zero_of_not_mem (comma_not_mem_front R),
    List.count_cons_self, Nat.zero_add]

theorem count_skipBlanks (s : List u8) : (skipBlanks s).count 44 = s.count 44 := by
  induction s with
  | nil => rfl
  | cons x s ih =>
    rw [skipBlanks, List.dropWhile_cons]
    split_ifs with hx
    · obtain rfl := of_decide_eq_true hx
      exact ih.trans (List.count_cons_of_ne (by decide)).symm
    · rfl

theorem length_skipBlanks_le (s : List u8) : (skipBlanks s).length ≤ s.length :=
  (List.dropWhile_sublist _).length_le

/-- Between two commas, the first operand is put into `w2`. -/
theorem pasWords_of_commas (hop : 32 ∉ op) (hcommas : 2 ≤ rest.count 44) :
    pasWords (op ++ 32 :: rest) =
      if 32 ≤ op.length ∨ 32 ≤ (skipBlanks rest).length then none
      else some [op, front (skipBlanks rest), front (skipBlanks rest),
        skipBlanks (behind (skipBlanks (behind (skipBlanks rest))))] := by
  have hsplit : Cmd.strchr 32 (op ++ 32 :: rest) = some (op, rest) := Cmd.strchr_append hop
  rw [← count_skipBlanks] at hcommas
  rw [pasWords, hsplit]
  dsimp only [Option.or]
  generalize skipBlanks rest = R at hcommas ⊢
  have hfirst : 44 ∈ R := List.count_pos_iff.mp (by omega)
  have hsecond : 44 ∈ skipBlanks (behind R) := by
    have := count_behind hfirst
    rw [← List.count_pos_iff, count_skipBlanks]
    omega
  split_ifs
  · rfl
  · rw [strchr_comma hfirst]
    dsimp only
    rw [strchr_comma hsecond]

/-- What is left of a text behind its second comma. -/
def third (s : List u8) : List u8 := skipBlanks (behind (skipBlanks (behind s)))

variable {w4 newstr : List u8} {r : PasRun} {row : PasOp}

/-- There is a result only where the operands fit. -/
theorem pasAop_of_commas (hop : 32 ∉ op) (hcommas : 2 ≤ rest.count 44)
    (hrun : pasAop w4 newstr (op ++ 32 :: rest) = some r) :
    (skipBlanks rest).length < 32 ∧
      pasAopMips ([op, front (skipBlanks rest), front (skipBlanks rest),
          third (skipBlanks rest)].countP (· ≠ []))
        [op, front (skipBlanks rest), front (skipBlanks rest), third (skipBlanks rest), w4]
        newstr = some r := by
  have hne : op ++ 32 :: rest ≠ [] := List.append_ne_nil_of_right_ne_nil _ (List.cons_ne_nil _ _)
  rw [pasAop, if_neg hne, pasWords_of_commas hop hcommas] at hrun
  split at hrun
  · cases hrun
  · split at hrun
    · cases hrun
    · rename_i hfits
      exact ⟨by omega, hrun⟩

theorem pasAop_fits (hop : 32 ∉ op) (hcommas : 2 ≤ rest.count 44) (hshort : op.length < 32)
    (hall : op.length + rest.length + 1 < 64) (hfits : (skipBlanks rest).length < 32) :
    pasAop w4 newstr (op ++ 32 :: rest) =
      pasAopMips ([op, front (skipBlanks rest), front (skipBlanks rest),
          third (skipBlanks rest)].countP (· ≠ []))
        [op, front (skipBlanks rest), front (skipBlanks rest), third (skipBlanks rest), w4]
        newstr := by
  have hne : op ++ 32 :: rest ≠ [] := List.append_ne_nil_of_right_ne_nil _ (List.cons_ne_nil _ _)
  have hlength : (op ++ 32 :: rest).length = op.length + rest.length + 1 := by
    rw [List.length_append, List.length_cons, Nat.add_assoc]
  rw [pasAop, if_neg hne, pasWords_of_commas hop hcommas, if_neg (by omega), if_neg (by omega)]
  rfl

/-- **The short template is taken where the first operand is not empty**, whatever the second
one is. -/
theorem pasAopMips_words (x w3 : List u8) (hne : op ≠ [])
    (hfind : mipsOps.find? (·.op = op) = some row)
    (hret : ¬((op = ascii "jalr" ∨ op = ascii "jr") ∧ x = ascii "ra")) :
    pasAopMips ([op, x, x, w3].countP (· ≠ [])) [op, x, x, w3, w4] newstr =
      (expand [op, x, x, w3, w4] (row.str ++ [0])
          ((if x = [] then row.str else row.str12eq) ++ [0]) []).map fun out =>
        ⟨out, some (if x = [] then row.str else row.str12eq), some row.type⟩ := by
  have hargc : [op, x, x, w3].countP (· ≠ []) > 2 ↔ x ≠ [] := by
    by_cases hx : x = []
    · by_cases hw : w3 = [] <;> simp [hx, hw, hne]
    · by_cases hw : w3 = [] <;> simp [hx, hw, hne]
  have htemplate : (if [op, x, x, w3].countP (· ≠ []) > 2 ∧ x = x then row.str12eq else row.str) =
      if x = [] then row.str else row.str12eq := by
    by_cases hx : x = []
    · rw [if_pos hx, if_neg fun h => hargc.mp h.1 hx]
    · rw [if_neg hx, if_pos ⟨hargc.mpr hx, rfl⟩]
  rw [pasAopMips]
  change (if (op = ascii "jalr" ∨ op = ascii "jr") ∧ x = ascii "ra" then _ else
    match mipsOps.find? (·.op = op) with
    | some row => _
    | none => _) = _
  rw [if_neg hret, hfind]
  dsimp only
  rw [← htemplate]
  rfl

end Words

/-! ## The table -/

section Table

variable {row : PasOp}

/-- An opcode of the table, other than `jr` with its blank, is found as it is. -/
theorem find_op (hrow : row ∈ mipsOps) (hjr : row.op ≠ ascii "jr ") :
    mipsOps.find? (·.op = row.op) = some row ∧ 32 ∉ row.op ∧ row.op ≠ [] ∧ row.op.length ≤ 5 := by
  have hall : ∀ row ∈ mipsOps, row.op ≠ ascii "jr " →
      mipsOps.find? (·.op = row.op) = some row ∧ 32 ∉ row.op ∧ row.op ≠ [] ∧
        row.op.length ≤ 5 := by decide +kernel
  exact hall row hrow hjr

/-- What is read of the templates: but for that of `and`, each short one is left behind, and one
of dots alone is not read to its end. -/
theorem templates_read : ∀ row ∈ mipsOps, row.str ≠ row.str12eq ∧
    (row.op ≠ ascii "and" →
      expand [[], [], [], [], []] (row.str ++ [0]) (row.str12eq ++ [0]) [] = none) ∧
    (row.op = ascii "nop" →
      expand [[], [], [], [], []] (row.str ++ [0]) (row.str ++ [0]) [] = none) ∧
    (row.op = ascii "and" → row.str = ascii "1 = 2 & 3" ∧ row.str12eq = ascii "and 1 &= 3") := by
  decide +kernel

theorem and_row (hrow : row ∈ mipsOps) (hop : row.op = ascii "and") :
    row.str = ascii "1 = 2 & 3" ∧ row.str12eq = ascii "and 1 &= 3" :=
  (templates_read row hrow).2.2.2 hop

/-- The long templates have the first operand once; one with the third has all three, and
the opcodes that need the first alone are these. -/
theorem long_templates : ∀ row ∈ mipsOps, row.op ≠ ascii "nop" →
    wellFormed row.str = true ∧ uses 49 row.str = 1 ∧
      (uses 51 row.str = 0 ∧
          (uses 50 row.str = 0 ↔ row.op ∈ firstOnly ∨ row.op = ascii "jr ") ∨
        row.op ∉ firstOnly ∧
          ∃ o ∈ ([38, 43, 45] : List u8), row.str = [49, 32, 61, 32, 50, 32, o, 32, 51]) := by
  decide +kernel

/-- An opcode with the first operand alone. -/
theorem firstOnly_str (hrow : row ∈ mipsOps) (hop : row.op ∈ firstOnly) :
    row.op ≠ ascii "jr " ∧ wellFormed row.str = true ∧ uses 50 row.str = 0 ∧
      uses 51 row.str = 0 := by
  have hother : ∀ op ∈ firstOnly, op ≠ ascii "jr " ∧ op ≠ ascii "nop" := by decide
  obtain ⟨hjr, hnop⟩ := hother _ hop
  obtain ⟨hwell, -, ⟨hthree, htwo⟩ | ⟨hout, -⟩⟩ := long_templates row hrow hnop
  · exact ⟨hjr, hwell, htwo.mpr (.inl hop), hthree⟩
  · exact absurd hop hout

/-- Without its blank `jr` is not in the table. -/
theorem str_of_jr {argc : ℕ} {argv : List (List u8)} {newstr : List u8} {r : PasRun}
    (hrun : pasAopMips argc (ascii "jr" :: argv) newstr = some r) : r.str = none := by
  have hnone : mipsOps.find? (·.op = ascii "jr") = none := by decide +kernel
  have hfirst : (ascii "jr" :: argv).getD 0 [] = ascii "jr" := rfl
  rw [pasAopMips, hfirst, hnone] at hrun
  split at hrun
  · obtain rfl := Option.some.inj hrun
    rfl
  · obtain rfl := Option.some.inj hrun
    rfl

end Table

/-! ## The operands -/

section Operands

variable {a b c t : List u8} {o : u8}

theorem two_le_count (a b c : List u8) : 2 ≤ (operandText a b c).count 44 := by
  rw [operandText, List.count_append, List.count_cons_self, List.count_cons_of_ne (by decide),
    List.count_append, List.count_cons_self]
  omega

theorem length_front_append_le (a t : List u8) : (front (a ++ 44 :: t)).length ≤ a.length := by
  induction a with
  | nil => exact Nat.le_refl _
  | cons x a ih =>
    rw [List.cons_append]
    by_cases hx : x = 44
    · subst hx
      exact Nat.zero_le _
    · rw [front_cons hx, List.length_cons, List.length_cons]
      omega

theorem length_front_skipBlanks_le (a t : List u8) :
    (front (skipBlanks (a ++ 44 :: t))).length ≤ a.length := by
  induction a with
  | nil => exact Nat.zero_le _
  | cons x a ih =>
    by_cases hx : x = 32
    · subst hx
      exact ih.trans (Nat.le_succ _)
    · have hskip : skipBlanks (x :: a ++ 44 :: t) = x :: a ++ 44 :: t :=
        List.dropWhile_cons_of_neg (by rwa [decide_eq_true_eq])
      rw [hskip]
      exact length_front_append_le _ _

/-- What is in front of the comma starts with no blank. -/
theorem head_front_skipBlanks (s : List u8) : (front (skipBlanks s)).head? ≠ some 32 := by
  induction s with
  | nil => exact fun h => by cases h
  | cons x s ih =>
    by_cases hx : x = 32
    · subst hx
      exact ih
    · have hskip : skipBlanks (x :: s) = x :: s :=
        List.dropWhile_cons_of_neg (by rwa [decide_eq_true_eq])
      rw [hskip]
      by_cases hcomma : x = 44
      · subst hcomma
        exact fun h => by cases h
      · rw [front_cons hcomma, List.head?_cons]
        exact fun h => hx (Option.some.inj h)

/-- An operand without a comma, and without a blank in front, is read as it is. -/
theorem front_operand (hcomma : 44 ∉ a) (hblank : a.head? ≠ some 32) :
    skipBlanks (a ++ 44 :: t) = a ++ 44 :: t ∧ front (a ++ 44 :: t) = a := by
  refine ⟨?_, ?_⟩
  · cases a with
    | nil => rfl
    | cons x a =>
      refine List.dropWhile_cons_of_neg ?_
      rw [decide_eq_true_eq]
      exact fun hx => hblank (congrArg some hx)
  · have hword : ∀ x ∈ a, decide (x ≠ 44) = true := by
      intro x hx
      refine decide_eq_true ?_
      rintro rfl
      exact hcomma hx
    rw [front, List.takeWhile_append_of_pos hword, List.takeWhile_cons_of_neg (by decide),
      List.append_nil]

theorem length_behind_lt (h : 44 ∈ t) : (behind t).length < t.length := by
  have hlength := congrArg List.length (front_append_behind h)
  rw [List.length_append, List.length_cons] at hlength
  omega

/-- Without the first two operands no other text is what it would be with them. -/
theorem render_three_ne (ho : o ∈ ([38, 43, 45] : List u8)) (hab : a ≠ b)
    (hfront : front (skipBlanks (operandText a b c)) = []) :
    render [] [] (third (skipBlanks (operandText a b c))) [49, 32, 61, 32, 50, 32, o, 32, 51] ≠
      render a b c [49, 32, 61, 32, 50, 32, o, 32, 51] := by
  have hrender : ∀ a b c : List u8, render a b c [49, 32, 61, 32, 50, 32, o, 32, 51] =
      a ++ 32 :: 61 :: 32 :: (b ++ 32 :: o :: 32 :: c) := by
    intro a b c
    simp only [List.mem_cons, List.not_mem_nil, or_false] at ho
    obtain rfl | rfl | rfl := ho
    all_goals
      change a ++ 32 :: 61 :: 32 :: (b ++ 32 :: _ :: 32 :: (c ++ [])) = _
      rw [List.append_nil]
  have ho32 : o ≠ 32 ∧ o ≠ 44 := by
    simp only [List.mem_cons, List.not_mem_nil, or_false] at ho
    obtain rfl | rfl | rfl := ho <;> decide
  intro heq
  rw [hrender, hrender] at heq
  -- the first operand is empty
  obtain rfl : a = [] := by
    cases a with
    | nil => rfl
    | cons x a =>
      obtain ⟨rfl, heq⟩ := List.cons.inj heq
      cases a with
      | nil => exact absurd (List.cons.inj heq).1 (by decide)
      | cons y a =>
        obtain ⟨rfl, -⟩ := List.cons.inj heq
        exact absurd hfront (List.cons_ne_nil _ _)
  have hsecond : 32 :: o :: 32 :: third (skipBlanks (operandText [] b c)) =
      b ++ 32 :: o :: 32 :: c := (List.cons.inj (List.cons.inj (List.cons.inj heq).2).2).2
  -- and the second one starts with a blank and the operator
  cases b with
  | nil => exact hab rfl
  | cons x b =>
    obtain ⟨rfl, hsecond⟩ := List.cons.inj hsecond
    cases b with
    | nil => exact ho32.1 (List.cons.inj hsecond).1
    | cons y b =>
      obtain ⟨rfl, hsecond⟩ := List.cons.inj hsecond
      have hskip : skipBlanks (o :: (b ++ 44 :: 32 :: c)) = o :: (b ++ 44 :: 32 :: c) :=
        List.dropWhile_cons_of_neg (by rw [decide_eq_true_eq]; exact ho32.1)
      have hthird : third (skipBlanks (operandText [] (32 :: o :: b) c)) =
          skipBlanks (behind (b ++ 44 :: 32 :: c)) := by
        change skipBlanks (behind (skipBlanks (o :: (b ++ 44 :: 32 :: c)))) = _
        rw [hskip, behind_cons ho32.2]
      have hlength : (32 :: skipBlanks (behind (b ++ 44 :: 32 :: c))).length =
          (b ++ 32 :: o :: 32 :: c).length := by
        rw [← hthird]
        exact congrArg List.length hsecond
      have hle := length_skipBlanks_le (behind (b ++ 44 :: 32 :: c))
      have hlt : (behind (b ++ 44 :: 32 :: c)).length < (b ++ 44 :: 32 :: c).length :=
        length_behind_lt (List.mem_append_right _ List.mem_cons_self)
      simp only [List.length_append, List.length_cons] at hlength hlt
      omega

end Operands

/-! ## Which operands are put together rightly -/

section Right

variable {a b c w4 newstr : List u8} {row : PasOp}

/-- Without the first operand, the long template is right where it needs no other. -/
theorem empty_of_render (hrow : row ∈ mipsOps) (hnop : row.op ≠ ascii "nop")
    (hjr : row.op ≠ ascii "jr ") (hab : a ≠ b)
    (hfront : front (skipBlanks (operandText a b c)) = [])
    (heq : render [] [] (third (skipBlanks (operandText a b c))) row.str = render a b c row.str) :
    a = [] ∧ b ≠ [] ∧ row.op ∈ firstOnly := by
  obtain ⟨-, hone, ⟨hthree, honly⟩ | ⟨-, o, ho, hstr⟩⟩ := long_templates row hrow hnop
  · have hlength := congrArg List.length heq
    rw [length_render, length_render, hone, hthree] at hlength
    simp only [List.length_nil, Nat.mul_zero, Nat.zero_mul, Nat.one_mul] at hlength
    obtain rfl : a = [] := List.length_eq_zero_iff.mp (by omega)
    have hb : b ≠ [] := Ne.symm hab
    have hpos := List.length_pos_iff.mpr hb
    have htwo : uses 50 row.str = 0 := by
      obtain h | h := Nat.mul_eq_zero.mp (show uses 50 row.str * b.length = 0 by omega)
      · exact h
      · omega
    exact ⟨rfl, hb, (honly.mp htwo).resolve_right hjr⟩
  · rw [hstr] at heq
    exact absurd heq (render_three_ne ho hab hfront)

/-- The short template of `and`, as far as the other one goes. -/
theorem expand_and (w0 x w3 w4 : List u8) :
    expand [w0, x, x, w3, w4] (ascii "1 = 2 & 3" ++ [0]) (ascii "and 1 &= 3" ++ [0]) [] =
      some (ascii "and " ++ (x ++ ascii " &= ")) := by
  have hlong : ascii "1 = 2 & 3" ++ [0] = [49, 32, 61, 32, 50, 32, 38, 32, 51, 0] := by decide
  have hshort : ascii "and 1 &= 3" ++ [0] = [97, 110, 100, 32, 49, 32, 38, 61, 32, 51, 0] := by
    decide
  have hfront : ascii "and " = [97, 110, 100, 32] := by decide
  have hend : ascii " &= " = [32, 38, 61, 32] := by decide
  rw [hlong, hshort, hfront, hend]
  -- four characters, the operand, and four more
  iterate 4 rw [expand_char (by decide) (by decide) (by decide)]
  rw [expand_word (by decide) (by decide) rfl]
  iterate 4 rw [expand_char (by decide) (by decide) (by decide)]
  rw [expand_end]
  simp only [List.append_assoc, List.nil_append, List.cons_append]

theorem render_and (a c : List u8) :
    render a a c (ascii "and 1 &= 3") = ascii "and " ++ (a ++ (ascii " &= " ++ c)) := by
  have hshort : ascii "and 1 &= 3" = [97, 110, 100, 32, 49, 32, 38, 61, 32, 51] := by decide
  have hfront : ascii "and " = [97, 110, 100, 32] := by decide
  have hend : ascii " &= " = [32, 38, 61, 32] := by decide
  rw [hshort, hfront, hend]
  change 97 :: 110 :: 100 :: 32 :: (a ++ 32 :: 38 :: 61 :: 32 :: (c ++ [])) = _
  rw [List.append_nil]
  rfl

/-- The operands of `and` that are put together rightly. -/
theorem and_of_render (hfront : front (skipBlanks (operandText a b c)) ≠ [])
    (heq : ascii "and " ++ (front (skipBlanks (operandText a b c)) ++ ascii " &= ") =
      ascii "and " ++ (a ++ (ascii " &= " ++ c))) :
    a ≠ [] ∧ c = [] ∧ 44 ∉ a ∧ a.head? ≠ some 32 := by
  have hle : (front (skipBlanks (operandText a b c))).length ≤ a.length :=
    length_front_skipBlanks_le a _
  have htail := List.append_cancel_left heq
  have hlength := congrArg List.length htail
  simp only [List.length_append] at hlength
  obtain rfl : c = [] := List.length_eq_zero_iff.mp (by omega)
  have hword : front (skipBlanks (operandText a b [])) = a :=
    (List.append_inj htail (by rw [List.length_nil] at hlength; omega)).1
  refine ⟨?_, rfl, ?_, ?_⟩
  · rwa [hword] at hfront
  · rw [← hword]
    exact comma_not_mem_front _
  · rw [← hword]
    exact head_front_skipBlanks _

theorem pasText_jr (a b c : List u8) :
    pasText (ascii "jr ") a b c = ascii "jr" ++ 32 :: (32 :: operandText a b c) := rfl

/-- Where the result is right, the operands are those. -/
theorem rightWhen_of_right (hrow : row ∈ mipsOps)
    (h : PasRight row a b c (pasAop w4 newstr (pasText row.op a b c))) :
    PasRightWhen row a b c := by
  obtain ⟨r, hrun, hstr, hnewstr⟩ := h
  have hnone : r.str ≠ none := by
    rw [hstr]
    exact Option.some_ne_none _
  by_cases hjr : row.op = ascii "jr "
  · have hcommas : 2 ≤ (32 :: operandText a b c).count 44 := by
      rw [List.count_cons_of_ne (by decide)]
      exact two_le_count a b c
    rw [hjr, pasText_jr] at hrun
    exact absurd (str_of_jr (pasAop_of_commas (by decide) hcommas hrun).2) hnone
  obtain ⟨hfind, hblank, hne, -⟩ := find_op hrow hjr
  obtain ⟨hfits, hrun⟩ := pasAop_of_commas hblank (two_le_count a b c) hrun
  by_cases hret : (row.op = ascii "jalr" ∨ row.op = ascii "jr") ∧
      front (skipBlanks (operandText a b c)) = ascii "ra"
  · have hrun : some (⟨ascii "ret", none, some .ret⟩ : PasRun) = some r :=
      (if_pos hret).symm.trans hrun
    obtain rfl := Option.some.inj hrun
    exact absurd rfl hnone
  rw [pasAopMips_words _ _ hne hfind hret] at hrun
  obtain ⟨out, hout, rfl⟩ := Option.map_eq_some_iff.mp hrun
  obtain ⟨hstrs, hread, hdots, -⟩ := templates_read row hrow
  by_cases hfront : front (skipBlanks (operandText a b c)) = []
  · -- the long template
    have hab : a ≠ b := by
      rintro rfl
      rw [if_pos hfront, if_pos rfl] at hstr
      exact hstrs (Option.some.inj hstr)
    have hnop : row.op ≠ ascii "nop" := by
      intro hnop
      rw [if_pos hfront] at hout
      exact Option.some_ne_none _ (hout.symm.trans (expand_eq_none (by rfl) (hdots hnop)))
    rw [if_pos hfront, hfront, expand_self _ _ (long_templates row hrow hnop).1, List.nil_append] at hout
    rw [if_neg hab] at hnewstr
    obtain ⟨rfl, hb, honly⟩ := empty_of_render hrow hnop hjr hab hfront
      ((Option.some.inj hout).trans hnewstr)
    refine .inl ⟨rfl, hb, honly, ?_⟩
    have hlength : (skipBlanks (operandText [] b c)).length = b.length + c.length + 4 := by
      change (44 :: 32 :: (b ++ 44 :: 32 :: c)).length = _
      simp only [List.length_cons, List.length_append]
      omega
    omega
  · -- the short one, of which all is read for `and` alone
    have hand : row.op = ascii "and" := by
      by_contra hand
      rw [if_neg hfront] at hout
      exact Option.some_ne_none _ (hout.symm.trans (expand_eq_none (by rfl) (hread hand)))
    have hab : a = b := by
      by_contra hab
      rw [if_neg hfront, if_neg hab] at hstr
      exact hstrs (Option.some.inj hstr).symm
    subst hab
    obtain ⟨hlong, hshort⟩ := and_row hrow hand
    rw [if_neg hfront, hlong, hshort, expand_and] at hout
    rw [if_pos rfl, hshort, render_and, ← Option.some.inj hout] at hnewstr
    obtain ⟨ha, rfl, hcomma, hhead⟩ := and_of_render hfront hnewstr
    refine .inr ⟨hand, ha, rfl, rfl, hcomma, hhead, ?_⟩
    have hskip : skipBlanks (operandText a a []) = operandText a a [] :=
      (front_operand hcomma hhead).1
    rw [hskip, operandText] at hfits
    simp only [List.length_cons, List.length_append, List.length_nil] at hfits
    omega

/-- **The template of the opcode is put together rightly just where the first operand is empty
and is all that it needs**, or the opcode is `and` with the third operand empty and the others
the same. -/
theorem pasAop_right_iff (hrow : row ∈ mipsOps) (w4 newstr a b c : List u8) :
    PasRight row a b c (pasAop w4 newstr (pasText row.op a b c)) ↔ PasRightWhen row a b c := by
  refine ⟨rightWhen_of_right hrow, ?_⟩
  rintro (⟨rfl, hb, honly, hfits⟩ | ⟨hand, ha, hsame, rfl, hcomma, hhead, hfits⟩)
  · obtain ⟨hjr, hwell, htwo, hthree⟩ := firstOnly_str hrow honly
    obtain ⟨hfind, hblank, hne, hshort⟩ := find_op hrow hjr
    have hlength : (operandText [] b c).length = b.length + c.length + 4 := by
      change (44 :: 32 :: (b ++ 44 :: 32 :: c)).length = _
      simp only [List.length_cons, List.length_append]
      omega
    have hskip : skipBlanks (operandText [] b c) = operandText [] b c := rfl
    have hfront : front (operandText [] b c) = [] := rfl
    have hret : ¬((row.op = ascii "jalr" ∨ row.op = ascii "jr") ∧ ([] : List u8) = ascii "ra") :=
      fun h => absurd h.2 (by decide)
    have hrun : pasAop w4 newstr (pasText row.op [] b c) = _ :=
      pasAop_fits hblank (two_le_count [] b c) (by omega) (by omega) (by rw [hskip]; omega)
    rw [hskip, hfront, pasAopMips_words _ _ hne hfind hret, if_pos rfl, expand_self _ _ hwell,
      List.nil_append, Option.map_some] at hrun
    refine ⟨_, hrun, ?_, ?_⟩
    · rw [if_neg (Ne.symm hb)]
    · rw [if_neg (Ne.symm hb)]
      exact render_congr (.inl rfl) (.inr htwo) (.inr hthree)
  · obtain rfl : a = b := hsame.symm
    have hjr : row.op ≠ ascii "jr " := by
      rw [hand]
      decide
    obtain ⟨hfind, hblank, hne, hshort⟩ := find_op hrow hjr
    obtain ⟨hskip, hfront⟩ : skipBlanks (operandText a a []) = operandText a a [] ∧
        front (operandText a a []) = a := front_operand hcomma hhead
    obtain ⟨hlong, hstr⟩ := and_row hrow hand
    have hlength : (operandText a a []).length = 2 * a.length + 4 := by
      rw [operandText]
      simp only [List.length_cons, List.length_append, List.length_nil]
      omega
    have hret : ¬((row.op = ascii "jalr" ∨ row.op = ascii "jr") ∧ a = ascii "ra") := by
      rw [hand]
      exact fun h => absurd h.1 (by decide)
    have hrun : pasAop w4 newstr (pasText row.op a a []) = _ :=
      pasAop_fits hblank (two_le_count a a []) (by omega) (by omega) (by rw [hskip]; omega)
    rw [hskip, hfront, pasAopMips_words _ _ hne hfind hret, if_neg ha, hlong, hstr,
      expand_and, Option.map_some] at hrun
    refine ⟨_, hrun, ?_, ?_⟩
    · rw [if_pos rfl, hstr]
    · rw [if_pos rfl, hstr, render_and, List.append_nil]

def addi : PasOp := ⟨ascii "addi", ascii "1 = 2 + 3", ascii "1 += 3", .mov⟩

theorem addi_mem : addi ∈ mipsOps := List.mem_of_getElem? (i := 4) rfl

/-- `addi a0, a1, 4` -/
theorem addi_wrong :
    ¬PasRight addi (ascii "a0") (ascii "a1") (ascii "4")
      (pasAop [] [] (pasText addi.op (ascii "a0") (ascii "a1") (ascii "4"))) := by
  intro h
  obtain ⟨ha, -⟩ | ⟨hop, -⟩ := rightWhen_of_right addi_mem h
  · exact absurd ha (by decide)
  · exact absurd hop (by decide)

def bal : PasOp := ⟨ascii "bal", ascii "call 1", [], .call⟩

theorem bal_mem : bal ∈ mipsOps := List.mem_of_getElem? (i := 12) rfl

/-- `bal , a1, 4` -/
theorem pasAop_right_bal :
    bal ∈ mipsOps ∧ PasRight bal [] (ascii "a1") (ascii "4")
      (pasAop [] [] (pasText bal.op [] (ascii "a1") (ascii "4"))) :=
  ⟨bal_mem, (pasAop_right_iff bal_mem [] [] [] (ascii "a1") (ascii "4")).mpr
    (.inl ⟨rfl, by decide, by decide, by decide⟩)⟩

end Right

end Pas

end Radare
