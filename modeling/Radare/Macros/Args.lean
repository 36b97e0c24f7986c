import Radare.Macros.Call
import Radare.Rio.Decode
import Radare.Utils.Words
/-!
# Arguments of a macro

`radare_cmd_args` builds the command of a line in memory that it has taken from the
stack, as many bytes as the line has and 1024 more. One index walks the line and one
the command, and the second is set anew from the length of the command behind every
word and every counter that is put in.

As long as the command fits into the memory it is the line with its pieces replaced
(`radareCmdArgs_executes`). It is executed if it does not start with a `)`, which ends
the body of a macro.
-/

namespace Radare

open Common

/-! ## The code -/

/-- `get0word` of the arguments, which may be none at all. -/
def argWord (args : Option (List u8)) (d : ℕ) : List u8 :=
  match args with
  | none => []
  | some mem => get0word d mem

/-- `strcat`. -/
def strcatAt (cmd src : List u8) : Option (List u8) := strcpyAt cmd (cstr cmd).length src

/-- A character, and a NUL behind it. -/
def putChar (cmd : List u8) (i : ℕ) (c : u8) : Option (List u8) :=
  (store cmd i c).bind fun cmd => store cmd (i + 1) 0

/-- The loop of `radare_cmd_args`, at a character of the line, with `i`. What is put in
leaves `i` at the end of the command. -/
def cmdArgsLoop (args : Option (List u8)) (counter : UInt32) :
    List u8 → ℕ → List u8 → Option (List u8)
  | [], _, cmd => some cmd
  | [c], i, cmd => putChar cmd i c
  | c :: d :: ptr, i, cmd =>
    if c = 36 ∧ 48 ≤ d ∧ d ≤ 57 then
      (strcatAt cmd (argWord args (d - 48).toNat)).bind fun cmd =>
        cmdArgsLoop args counter ptr (cstr cmd).length cmd
    else if c = 36 ∧ d = 64 then
      (strcatAt cmd (intText counter)).bind fun cmd =>
        cmdArgsLoop args counter ptr (cstr cmd).length cmd
    else (putChar cmd i c).bind fun cmd => cmdArgsLoop args counter (d :: ptr) (i + 1) cmd

/-- What is executed of a text: nothing if it starts with a `)`. -/
def executed (text : List u8) : Option (List u8) :=
  let cmd := text.dropWhile fun c => c = 32 ∨ c = 9
  if cmd.head? = some 41 then none else some cmd

/-- `radare_cmd_args`, with what is on the stack: the command that is executed, if any.
There is no result where the command does not fit into its memory. -/
def radareCmdArgsAt (stack : ℕ → u8) (counter : UInt32) (line : List u8)
    (args : Option (List u8)) : Option (Option (List u8)) :=
  (store ((List.range (line.length + 1024)).map stack) 0 0).bind fun cmd =>
    (cmdArgsLoop args counter line 0 cmd).map fun cmd => executed (cstr cmd)

/-! ## What a line is made of -/

/-- A piece of a line. -/
inductive ArgPiece where
  | word (d : Fin 10)
  | counter
  | char (c : u8)

/-- How it is written. -/
def ArgPiece.text : ArgPiece → List u8
  | .word d => [36, 48 + UInt8.ofNat d]
  | .counter => [36, 64]
  | .char c => [c]

/-- What it is replaced by: a word, if there are so many, the counter, or itself. -/
def ArgPiece.value (words : List (List u8)) (counter : UInt32) : ArgPiece → List u8
  | .word d => words.getD d []
  | .counter => intText counter
  | .char c => [c]

/-- The pieces are those of their text: there is a `$` only in front of something else. -/
def Pieces : List ArgPiece → Prop
  | [] => True
  | p :: ps =>
    (∀ c, p = .char c → c = 36 →
      ∀ d ∈ (ps.flatMap ArgPiece.text).head?, ¬ (48 ≤ d ∧ d ≤ 57) ∧ d ≠ 64) ∧ Pieces ps

variable {words : List (List u8)} {counter : UInt32} {args : Option (List u8)}
  {ps : List ArgPiece} {line done junk text : List u8} {c d : u8} {n : ℕ}

/-- The digits. -/
theorem digit_char (d : Fin 10) : 48 ≤ 48 + UInt8.ofNat d ∧ 48 + UInt8.ofNat d ≤ 57 ∧
    (48 + UInt8.ofNat d - 48).toNat = d := by
  revert d
  decide +kernel

theorem exists_digit (hd : 48 ≤ d ∧ d ≤ 57) : ∃ k : Fin 10, d = 48 + UInt8.ofNat k := by
  have hle : d.toNat ≤ 57 := UInt8.le_iff_toNat_le.mp hd.2
  have hge : 48 ≤ d.toNat := UInt8.le_iff_toNat_le.mp hd.1
  refine ⟨⟨d.toNat - 48, by omega⟩, ?_⟩
  rw [← UInt8.toNat_inj, UInt8.toNat_add, UInt8.toNat_ofNat']
  change d.toNat = (48 + (d.toNat - 48) % 2 ^ 8) % 2 ^ 8
  omega

/-- **Every line has its pieces.** -/
theorem exists_pieces (line : List u8) : ∃ ps, Pieces ps ∧ ps.flatMap ArgPiece.text = line := by
  induction line using List.twoStepInduction with
  | nil => exact ⟨[], trivial, rfl⟩
  | singleton c =>
    refine ⟨[.char c], ⟨fun _ _ _ d hd => ?_, trivial⟩, rfl⟩
    cases hd
  | cons_cons c d rest ih ih' =>
    by_cases hword : c = 36 ∧ 48 ≤ d ∧ d ≤ 57
    · obtain ⟨ps, hps, htext⟩ := ih
      obtain ⟨k, rfl⟩ := exists_digit hword.2
      refine ⟨.word k :: ps, ⟨fun _ h => (by cases h), hps⟩, ?_⟩
      rw [List.flatMap_cons, htext, hword.1]
      rfl
    · by_cases hcounter : c = 36 ∧ d = 64
      · obtain ⟨ps, hps, htext⟩ := ih
        refine ⟨.counter :: ps, ⟨fun _ h => (by cases h), hps⟩, ?_⟩
        rw [List.flatMap_cons, htext, hcounter.1, hcounter.2]
        rfl
      · obtain ⟨ps, hps, htext⟩ := ih' d
        refine ⟨.char c :: ps, ⟨fun e he hdollar f hf => ?_, hps⟩, ?_⟩
        · cases he
          rw [htext] at hf
          cases hf
          exact ⟨fun hd => hword ⟨hdollar, hd⟩, fun hd => hcounter ⟨hdollar, hd⟩⟩
        · rw [List.flatMap_cons, htext]
          rfl

/-- **The text of a line** is that of its pieces. -/
theorem macroArgs_pieces {mem : List u8} (hps : Pieces ps)
    (hwords : ∀ d : Fin 10, .word d ∈ ps → get0word d mem = words.getD d []) :
    macroArgs mem counter (ps.flatMap ArgPiece.text) =
      ps.flatMap (ArgPiece.value words counter) := by
  induction ps with
  | nil => rfl
  | cons p ps ih =>
    obtain ⟨hchar, hps⟩ := hps
    rw [List.flatMap_cons, List.flatMap_cons,
      ← ih hps fun d hd => hwords d (List.mem_cons_of_mem p hd)]
    cases p with
    | word k =>
      obtain ⟨hge, hle, hval⟩ := digit_char k
      rw [ArgPiece.text, List.cons_append, List.singleton_append, macroArgs,
        if_pos ⟨rfl, hge, hle⟩, hval, hwords k List.mem_cons_self]
      rfl
    | counter =>
      rw [ArgPiece.text, List.cons_append, List.singleton_append, macroArgs,
        if_neg (by decide), if_pos ⟨rfl, rfl⟩]
      rfl
    | char c =>
      rw [ArgPiece.text, List.singleton_append, ArgPiece.value, List.singleton_append]
      cases hrest : ps.flatMap ArgPiece.text with
      | nil => rfl
      | cons e rest =>
        have hplain : c = 36 → ¬ (48 ≤ e ∧ e ≤ 57) ∧ e ≠ 64 := fun hc =>
          hchar c rfl hc e (by rw [hrest]; rfl)
        rw [macroArgs, if_neg fun h => (hplain h.1).1 h.2, if_neg fun h => (hplain h.1).2 h.2]

/-! ## The command in its memory -/

/-- What is put into the command has no NUL. -/
theorem zero_not_mem_get0word (n : ℕ) (mem : List u8) : 0 ∉ get0word n mem := by
  induction n generalizing mem with
  | zero =>
    intro h
    simpa using List.mem_takeWhile_imp h
  | succ n ih =>
    rw [get0word]
    split
    · exact List.not_mem_nil
    · exact ih _

theorem zero_not_mem_intText : 0 ∉ intText counter := by
  have hdec : ∀ k, 0 ∉ decText 0 k := fun k h => absurd (of_mem_decText h).1 (by decide)
  rw [intText]
  split
  · exact hdec _
  · exact List.not_mem_cons_of_ne_of_not_mem (by decide) (hdec _)

theorem argWord_eq (args : Option (List u8)) (n : ℕ) :
    argWord args n = get0word n (args.getD []) := by
  cases args with
  | none => cases n <;> rfl
  | some mem => rfl

theorem strcatAt_eq {src : List u8} (hdone : 0 ∉ done)
    (hfit : (done ++ src).length < (done ++ 0 :: junk).length) :
    ∃ junk', strcatAt (done ++ 0 :: junk) src = some (done ++ src ++ 0 :: junk') ∧
      (done ++ src ++ 0 :: junk').length = (done ++ 0 :: junk).length := by
  simp only [List.length_append, List.length_cons] at hfit
  have hroom : done.length + src.length + 1 ≤ (done ++ 0 :: junk).length := by
    rw [List.length_append, List.length_cons]
    omega
  refine ⟨junk.drop src.length, ?_, ?_⟩
  · rw [strcatAt, cstr_front hdone, strcpyAt, if_pos hroom, List.take_left, Nat.add_assoc,
      List.drop_length_add_append, List.drop_succ_cons]
  · simp only [List.length_append, List.length_cons, List.length_drop]
    omega

theorem putChar_eq (hfit : (done ++ [c]).length < (done ++ 0 :: junk).length) :
    ∃ junk', putChar (done ++ 0 :: junk) done.length c = some (done ++ [c] ++ 0 :: junk') ∧
      (done ++ [c] ++ 0 :: junk').length = (done ++ 0 :: junk).length := by
  simp only [List.length_append, List.length_cons, List.length_nil] at hfit
  obtain ⟨b, junk', rfl⟩ := List.exists_cons_of_length_pos (by omega : 0 < junk.length)
  have hset : (done ++ c :: b :: junk').set (done.length + 1) 0 = done ++ [c] ++ 0 :: junk' := by
    have hlen : done.length + 1 = (done ++ [c]).length := by simp
    have hcons : done ++ c :: b :: junk' = done ++ [c] ++ b :: junk' := by simp
    rw [hcons, hlen, set_front]
  refine ⟨junk', ?_, by simp⟩
  rw [putChar, store, if_pos (by simp), Option.bind_some, set_front, store,
    if_pos (by simp), hset]

theorem zero_not_mem_macroArgs (mem : List u8) (hline : 0 ∉ line) :
    0 ∉ macroArgs mem counter line := by
  induction line using List.twoStepInduction with
  | nil => exact hline
  | singleton c => exact hline
  | cons_cons c d rest ih ih' =>
    have hd : 0 ∉ d :: rest := fun h => hline (List.mem_cons_of_mem c h)
    have hrest : 0 ∉ rest := fun h => hd (List.mem_cons_of_mem d h)
    rw [macroArgs]
    split_ifs
    · exact fun h => (List.mem_append.mp h).elim (zero_not_mem_get0word _ _) (ih hrest)
    · exact fun h => (List.mem_append.mp h).elim zero_not_mem_intText (ih hrest)
    · exact List.not_mem_cons_of_ne_of_not_mem (fun h => hline (h ▸ List.mem_cons_self)) (ih' d hd)

/-- **The loop puts the text of the line behind what there is.** -/
theorem cmdArgsLoop_eq (args : Option (List u8)) (counter : UInt32) (done junk : List u8)
    (hline : 0 ∉ line) (hdone : 0 ∉ done)
    (hfit : (done ++ macroArgs (args.getD []) counter line).length <
      (done ++ 0 :: junk).length) :
    ∃ junk', cmdArgsLoop args counter line done.length (done ++ 0 :: junk) =
      some (done ++ macroArgs (args.getD []) counter line ++ 0 :: junk') := by
  induction line using List.twoStepInduction generalizing done junk with
  | nil => exact ⟨junk, by rw [macroArgs, List.append_nil]; rfl⟩
  | singleton c =>
    obtain ⟨junk', hput, -⟩ := putChar_eq (by exact hfit)
    exact ⟨junk', hput⟩
  | cons_cons c d rest ih ih' =>
    have hrest : 0 ∉ rest := fun h => hline (List.mem_cons_of_mem c (List.mem_cons_of_mem d h))
    -- a text is put in, and the loop goes on behind it
    have hinsert : ∀ src, 0 ∉ src →
        (done ++ (src ++ macroArgs (args.getD []) counter rest)).length <
          (done ++ 0 :: junk).length →
        ∃ junk', ((strcatAt (done ++ 0 :: junk) src).bind fun cmd =>
          cmdArgsLoop args counter rest (cstr cmd).length cmd) =
            some (done ++ (src ++ macroArgs (args.getD []) counter rest) ++ 0 :: junk') := by
      intro src hsrc hfit
      rw [← List.append_assoc] at hfit ⊢
      have hfirst : (done ++ src).length < (done ++ 0 :: junk).length :=
        lt_of_le_of_lt (List.prefix_append _ _).length_le hfit
      obtain ⟨junk₁, hcat, hlen⟩ := strcatAt_eq hdone hfirst
      have hmore : 0 ∉ done ++ src := fun h => (List.mem_append.mp h).elim hdone hsrc
      rw [hcat, Option.bind_some, cstr_front hmore]
      exact ih _ _ hrest hmore (hlen ▸ hfit)
    rw [cmdArgsLoop]
    rw [macroArgs] at hfit ⊢
    by_cases hword : c = 36 ∧ 48 ≤ d ∧ d ≤ 57
    · rw [if_pos hword] at hfit ⊢
      rw [if_pos hword, argWord_eq]
      exact hinsert _ (zero_not_mem_get0word _ _) hfit
    · rw [if_neg hword] at hfit ⊢
      rw [if_neg hword]
      by_cases hcounter : c = 36 ∧ d = 64
      · rw [if_pos hcounter] at hfit ⊢
        rw [if_pos hcounter]
        exact hinsert _ zero_not_mem_intText hfit
      · rw [if_neg hcounter] at hfit ⊢
        rw [if_neg hcounter]
        have hc : 0 ≠ c := fun h => hline (h ▸ List.mem_cons_self)
        have hline' : 0 ∉ d :: rest := fun h => hline (List.mem_cons_of_mem c h)
        have hmore : 0 ∉ done ++ [c] := fun h =>
          (List.mem_append.mp h).elim hdone fun h => hc (List.mem_singleton.mp h)
        have hcons : ∀ l, done ++ c :: l = done ++ [c] ++ l := fun l => by simp
        rw [hcons] at hfit ⊢
        have hfirst : (done ++ [c]).length < (done ++ 0 :: junk).length :=
          lt_of_le_of_lt (List.prefix_append _ _).length_le hfit
        obtain ⟨junk₁, hput, hlen⟩ := putChar_eq hfirst
        have hnext : done.length + 1 = (done ++ [c]).length := by simp
        rw [hput, Option.bind_some, hnext]
        exact ih' d _ _ hline' hmore (hlen ▸ hfit)

/-! ## The command -/

/-- The arguments of a line: none, or what `set0word` leaves of a text with one blank
between any two words, in its buffer. Nothing is found behind the words if there is a NUL,
and a line that has only words of the arguments does not look. -/
def HasWords (args : Option (List u8)) (words : List (List u8)) (ps : List ArgPiece) : Prop :=
  (args = none ∧ words = []) ∨
    ∃ text behind nargs mem, 0 ∉ text ∧
      ((trimmed 32 text).IsChain fun c d => c = 32 → d ≠ 32) ∧
      set0wordAt (text ++ 0 :: behind) = some (nargs, mem) ∧
      args = some mem ∧ words = wordsOf 32 text ∧
      (words = [] ∨ NulBehind text behind ∨ ∀ d, .word d ∈ ps → d.val < words.length)

/-- **The words are found**, and nothing where there are fewer. -/
theorem get0word_hasWords (hargs : HasWords args words ps) {d : Fin 10} (hd : .word d ∈ ps) :
    get0word d (args.getD []) = words.getD d [] := by
  rcases hargs with ⟨rfl, rfl⟩ | ⟨text, behind, nargs, mem, hzero, hone, hset, rfl, rfl, hbehind⟩
  · rcases d with ⟨_ | d, hd⟩ <;> rfl
  obtain ⟨hwords, -, rest, rfl, hnul⟩ := set0wordAt_single hzero hone hset
  rw [Option.getD_some, List.getD_eq_getElem?_getD]
  by_cases hlt : d.val < (wordsOf 32 text).length
  · rw [get0word_joined rest hwords hlt, List.getElem?_eq_getElem hlt, Option.getD_some]
  · rw [List.getElem?_eq_none (by omega), Option.getD_none]
    by_cases hnil : wordsOf 32 text = []
    · rw [hnil]
      exact get0word_nul
    rcases hbehind with hnone | hbehind | hall
    · exact absurd hnone hnil
    · obtain ⟨rest, rfl⟩ := List.head?_eq_some_iff.mp ((hnul hbehind).resolve_left hnil)
      obtain ⟨k, hk⟩ := Nat.exists_eq_add_of_le (Nat.le_of_not_lt hlt)
      rw [hk, get0word_behind hnil hwords, get0word_nul]
    · exact absurd (hall d hd) hlt

/-- The command of a line, if it fits into its memory. -/
theorem radareCmdArgsAt_eq (stack : ℕ → u8) (hline : 0 ∉ line)
    (hfit : (macroArgs (args.getD []) counter line).length < line.length + 1024) :
    radareCmdArgsAt stack counter line args =
      some (executed (macroArgs (args.getD []) counter line)) := by
  obtain ⟨b, junk, hmemory⟩ : ∃ b junk,
      (List.range (line.length + 1024)).map stack = b :: junk :=
    List.exists_cons_of_length_pos (by simp)
  have hlen : (b :: junk).length = line.length + 1024 := by
    rw [← hmemory, List.length_map, List.length_range]
  have hstart : store (b :: junk) 0 0 = some ([] ++ 0 :: junk) := if_pos (Nat.succ_pos _)
  obtain ⟨junk', hloop⟩ := cmdArgsLoop_eq args counter [] junk hline
    List.not_mem_nil (by rw [List.nil_append]; exact hfit.trans_eq hlen.symm)
  rw [List.nil_append, List.nil_append, List.length_nil] at hloop
  rw [radareCmdArgsAt, hmemory, hstart, Option.bind_some, List.nil_append, hloop, Option.map_some,
    cstr_front (zero_not_mem_macroArgs _ hline)]

/-- In the calls of a macro this is what the command of a line is. -/
theorem radareCmdArgs_eq {W : Type} (env : MacroEnv W) (line mem : List u8) :
    radareCmdArgs env line mem = Prog.read >>= fun s =>
      match executed (macroArgs mem (env.macroCounter s.1) line) with
      | none => pure ()
      | some cmd => env.radareCmd cmd := by
  refine congrArg (Prog.read >>= ·) (funext fun s => ?_)
  dsimp only [executed]
  split_ifs <;> rfl

/-- **What `radare_cmd_args` executes**: the line with its pieces replaced, if that fits
into the memory of the command and does not start with a `)`. -/
theorem radareCmdArgs_executes (stack : ℕ → u8) (counter : UInt32) (line : List u8)
    (args : Option (List u8)) (words : List (List u8)) (hline : 0 ∉ line) :
    (∃ ps, Pieces ps ∧ ps.flatMap ArgPiece.text = line) ∧
      ∀ ps, Pieces ps → ps.flatMap ArgPiece.text = line → HasWords args words ps →
        (ps.flatMap (ArgPiece.value words counter)).length < line.length + 1024 →
        radareCmdArgsAt stack counter line args =
          some (executed (ps.flatMap (ArgPiece.value words counter))) := by
  refine ⟨exists_pieces line, fun ps hps htext hargs hfit => ?_⟩
  have hmacro : macroArgs (args.getD []) counter line =
      ps.flatMap (ArgPiece.value words counter) := by
    rw [← htext]
    exact macroArgs_pieces hps fun d hd => get0word_hasWords hargs hd
  rw [← hmacro] at hfit ⊢
  exact radareCmdArgsAt_eq stack hline hfit

/-- `f $1` with the arguments ` ab c`. -/
theorem radareCmdArgs_second_word :
    radareCmdArgsAt (fun _ => 7) 0 [102, 32, 36, 49] (some [97, 98, 0, 99, 0, 0]) =
      some (some [102, 32, 99]) := by
  have hpieces : Pieces [.char 102, .char 32, .word 1] := by simp [Pieces]
  have hargs : HasWords (some [97, 98, 0, 99, 0, 0]) [[97, 98], [99]]
      [.char 102, .char 32, .word 1] := by
    refine Or.inr ⟨[32, 97, 98, 32, 99], [], 2, _, by decide, by decide, by decide, rfl,
      by decide, ?_⟩
    exact Or.inr (Or.inl (Or.inl rfl))
  have hfit : 3 < 4 + 1024 := by omega
  have hmain := (radareCmdArgs_executes (fun _ => 7) 0 [102, 32, 36, 49]
    (some [97, 98, 0, 99, 0, 0]) [[97, 98], [99]] (by decide)).2 _ hpieces rfl hargs hfit
  rw [hmain]
  rfl

/-- **The end of a body** is not executed. -/
theorem radareCmdArgs_bracket : radareCmdArgsAt (fun _ => 7) 0 [41] none = some none := by
  rw [radareCmdArgsAt_eq (fun _ => 7) (by decide) (by decide)]
  rfl

end Radare
