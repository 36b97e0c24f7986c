import Radare.Rio.Cursor
import Radare.Rio.SectionLines
/-!
# A section line run

What `radare_cmd_raw` does with a section line: the numbers `section_list`
prints are read by `get_math` as themselves, unless a variable has the name
(`getMath_hexWord`, `getMath_blanks`), and a line with nothing special in it
runs its command at the address behind the `@` (`radareCmdRaw_at`). There
the command finds the table and the base address as they were, and the seek
that the address leads to (`atSeek_cmdSections`).
-/

namespace Radare

open Common

variable {nums : Numbers} {shell : List u8 → State → State} {behind line cmd w : List u8}
  {s : State} {n x : ut64} {b : ℕ} {c : u8}

/-! ## Numbers read -/

/-- A hexadecimal number with blanks behind it, as it is read: a variable
of that name comes first. -/
def Numbers.read (nums : Numbers) (b : ℕ) (n : ut64) : ut64 :=
  let ret := nums.configGetI (hexWord n ++ List.replicate b 32)
  if ret.toNat % 2 ^ 32 ≠ 0 then ret else n

/-- The characters of a number. -/
theorem of_mem_number {k : ℕ} (hc : c ∈ [48, 120] ++ hexText k n) :
    48 ≤ c ∧ c ≤ 57 ∨ 97 ≤ c ∧ c ≤ 122 := by
  have hbegin : ∀ c ∈ ([48, 120] : List u8), 48 ≤ c ∧ c ≤ 57 ∨ 97 ≤ c ∧ c ≤ 122 := by
    decide +kernel
  rcases List.mem_append.mp hc with hc | hc
  · exact hbegin c hc
  · rcases of_mem_hexText hc with h | h
    · exact Or.inl h
    · exact Or.inr ⟨h.1, UInt8.le_trans h.2 (by decide)⟩

theorem of_mem_hexWord (hc : c ∈ hexWord n) : 48 ≤ c ∧ c ≤ 57 ∨ 97 ≤ c ∧ c ≤ 122 :=
  of_mem_number hc

/-- A character that no number has. -/
theorem not_mem_hexWord (hc : ¬(48 ≤ c ∧ c ≤ 57 ∨ 97 ≤ c ∧ c ≤ 122)) : c ∉ hexWord n :=
  fun hmem => hc (of_mem_hexWord hmem)

theorem isWord_hexWord : IsWord (hexWord n) := by
  intro c hc
  constructor
  · rintro rfl
    exact not_mem_hexWord (by decide) hc
  · rintro rfl
    exact not_mem_hexWord (by decide) hc

theorem hexWord_ne_nil : hexWord n ≠ [] := List.cons_ne_nil _ _

/-- Blanks behind a word end it. -/
theorem takeWhile_blanks (hw : 32 ∉ w) :
    (w ++ List.replicate b 32).takeWhile (· ≠ 32) = w := by
  exact takeWhile_ne_append hw fun d hd => List.eq_of_mem_replicate (List.mem_of_mem_head? hd)

theorem getOffset_hexWord : getOffset nums s (hexWord n ++ List.replicate b 32) = nums.read b n := by
  have hdrop : (hexWord n ++ List.replicate b 32).dropWhile (· = 32) =
      hexWord n ++ List.replicate b 32 := rfl
  have hword : (hexWord n ++ List.replicate b 32).takeWhile (· ≠ 32) = hexWord n :=
    takeWhile_blanks fun h => (isWord_hexWord _ h).1 rfl
  have hno : 91 ∉ hexWord n ++ List.replicate b 32 := by
    intro h
    rcases List.mem_append.mp h with h | h
    · exact not_mem_hexWord (by decide) h
    · exact absurd (List.eq_of_mem_replicate h) (by decide)
  have hvalue : hexValue ((hexWord n).drop 2) = some n := hexValue_hexText (by decide) (by decide)
  unfold getOffset Numbers.read
  dsimp only
  rw [hdrop, hword, if_pos ⟨rfl, hno⟩, hvalue]

/-- A text without blanks, `=` and `!` is not squeezed, and at its end a
blank stays. -/
theorem squeeze_append (hw : ∀ c ∈ w, c ≠ 32 ∧ c ≠ 33 ∧ c ≠ 61) (hb : b ≤ 1) :
    squeeze (w ++ List.replicate b 32) = w ++ List.replicate b 32 := by
  induction w with
  | nil =>
    rcases Nat.le_one_iff_eq_zero_or_eq_one.mp hb with rfl | rfl
    · rfl
    · rfl
  | cons c w ih =>
    obtain ⟨h32, h33, h61⟩ := hw c List.mem_cons_self
    rw [List.cons_append, squeeze, ih fun d hd => hw d (List.mem_cons_of_mem _ hd)]
    all_goals
      intros
      contradiction

theorem squeeze_hexWord (hb : b ≤ 1) :
    squeeze (hexWord n ++ List.replicate b 32) = hexWord n ++ List.replicate b 32 := by
  refine squeeze_append ?_ hb
  intro c hc
  refine ⟨?_, ?_, ?_⟩ <;>
  · rintro rfl
    exact not_mem_hexWord (by decide) hc

theorem not_operator :
    ¬(hexWord n ++ List.replicate b 32).any (operators.contains ·) = true := by
  rw [List.any_eq_true]
  rintro ⟨c, hc, hop⟩
  have hops : ∀ c ∈ operators, c ≠ 32 ∧ ¬(48 ≤ c ∧ c ≤ 57 ∨ 97 ≤ c ∧ c ≤ 122) := by
    decide +kernel
  obtain ⟨hblank, hdigit⟩ := hops c (List.contains_iff_mem.mp hop)
  rcases List.mem_append.mp hc with hc | hc
  · exact not_mem_hexWord hdigit hc
  · exact hblank (List.eq_of_mem_replicate hc)

/-- What comes to a number once the blanks are gone is read as it. -/
theorem getMath_of_squeeze (hw : w ≠ []) (h : squeeze w = hexWord n ++ List.replicate b 32) :
    getMath nums s w = nums.read b n := by
  unfold getMath
  dsimp only
  rw [if_neg hw, h, if_neg not_operator, getOffset_hexWord]

/-- **A number is read.** -/
theorem getMath_hexWord : getMath nums s (hexWord n) = nums.read 0 n := by
  refine getMath_of_squeeze hexWord_ne_nil ?_
  have h : squeeze (hexWord n ++ List.replicate 0 32) = hexWord n ++ List.replicate 0 32 :=
    squeeze_hexWord (Nat.zero_le 1)
  rwa [List.replicate_zero, List.append_nil] at h ⊢

/-- And with a blank on both sides. -/
theorem getMath_blanks : getMath nums s (32 :: (hexWord n ++ [32])) = nums.read 1 n := by
  have h : squeeze (hexWord n ++ List.replicate 1 32) = hexWord n ++ List.replicate 1 32 :=
    squeeze_hexWord (Nat.le_refl 1)
  -- the blank before it goes, and the rest is as it would be without
  exact getMath_of_squeeze (List.cons_ne_nil _ _) h

/-! ## A line at its address -/

/-- A line without any of the characters that make it special. -/
theorem not_special (h : ∀ c ∈ line, c ≠ 10 ∧ c ≠ 62 ∧ c ≠ 96 ∧ c ≠ 38 ∧ c ≠ 124) :
    ¬Special line := by
  rintro (hc | hc | hc | hc | hc)
  · exact (h _ hc).1 rfl
  · exact (h _ hc).2.1 rfl
  · exact (h _ hc).2.2.1 rfl
  · exact (h _ (hc.subset List.mem_cons_self)).2.2.2.1 rfl
  · exact (h _ (of_decide_eq_true hc).1).2.2.2.2 rfl

/-- Where a seek to an address comes to, by the time the command runs. -/
def seekAt (vaddr x : ut64) : ut64 := if x = -1 then 0 else rebase vaddr x

theorem seek_radareRead :
    (radareRead s false).1.config.seek = seekAt s.config.vaddr s.config.seek := by
  unfold radareRead seekAt
  by_cases hseek : s.config.seek = -1
  · rw [if_pos hseek, if_pos hseek]
  · rw [if_neg hseek, if_neg hseek]
    exact seek_ioRead.trans (seek_radareSeek.trans (if_neg hseek))

theorem config_cmdSections : (cmdSections nums behind s cmd).config = s.config := by
  unfold cmdSections addSection
  split <;> try rfl
  split_ifs <;> rfl

/-- A command at an address finds the table, the base address, and the seek
there; and it leaves the base address alone. -/
theorem atSeek_cmdSections (nums : Numbers) (behind cmd : List u8) (s : State) (x : ut64) :
    ∃ s₁ : State, s₁.config.seek = seekAt s.config.vaddr x ∧ s₁.config.vaddr = s.config.vaddr ∧
      s₁.sections = s.sections ∧
      (atSeek s x fun s => cmdSections nums behind s cmd).sections =
        (cmdSections nums behind s₁ cmd).sections ∧
      (atSeek s x fun s => cmdSections nums behind s cmd).config.vaddr = s.config.vaddr := by
  have hcore : (radareRead { s with config.seek := x } false).1.core = s.core := core_radareRead false
  have hvaddr := congrArg Core.vaddr hcore
  refine ⟨_, seek_radareRead, hvaddr, congrArg Core.sections hcore, ?_, ?_⟩
  · unfold atSeek
    dsimp only
    split_ifs <;> rfl
  · have hrun : (cmdSections nums behind (radareRead { s with config.seek := x } false).1
        cmd).config.vaddr = s.config.vaddr := by rw [config_cmdSections]; exact hvaddr
    unfold atSeek
    dsimp only
    split_ifs <;> exact hrun

/-- The end of a line has nothing to clean. -/
theorem strclean_line (hcmd : cmd.head? = some 83) :
    strclean (cmd ++ [32, 64, 32] ++ hexWord n) = cmd ++ [32, 64, 32] ++ hexWord n := by
  obtain ⟨cmd, rfl⟩ : ∃ l, cmd = 83 :: l := by
    cases cmd with
    | nil => cases hcmd
    | cons c l => exact ⟨l, by rw [Option.some.inj hcmd]⟩
  have hlast : ∀ h, ¬iswhitechar (((83 :: cmd) ++ [32, 64, 32] ++ hexWord n).getLast h) = true := by
    intro h
    rw [List.getLast_append_of_ne_nil h hexWord_ne_nil]
    have hmem := of_mem_hexWord (List.getLast_mem (hexWord_ne_nil (n := n)))
    intro hwhite
    have hnot : ∀ c : u8, iswhitechar c = true → ¬(48 ≤ c ∧ c ≤ 57 ∨ 97 ≤ c ∧ c ≤ 122) := by
      intro c hc
      unfold iswhitechar at hc
      rcases of_decide_eq_true hc with rfl | rfl | rfl | rfl <;> decide
    exact hnot _ hwhite hmem
  unfold strclean
  have hdrop : ((83 :: cmd) ++ [32, 64, 32] ++ hexWord n).dropWhile iswhitechar =
      (83 :: cmd) ++ [32, 64, 32] ++ hexWord n := rfl
  rw [hdrop, List.rdropWhile_eq_self_iff]
  exact hlast

/-- **A line runs its command at its address.** -/
theorem radareCmdRaw_at (hcmd : cmd.head? = some 83)
    (hline : ¬Special (cmd ++ [32, 64, 32] ++ hexWord x)) (hgrep : 126 ∉ cmd) (hat : 64 ∉ cmd) :
    radareCmdRaw nums shell behind (cmd ++ [32, 64, 32] ++ hexWord x) s =
      atSeek s (nums.read 0 x) fun s => cmdSections nums behind s (cmd.tail ++ [32]) := by
  have hhead : (cmd ++ [32, 64, 32] ++ hexWord x).head? = some 83 := by
    rw [List.append_assoc, List.head?_append, hcmd]
    rfl
  have hno : 126 ∉ cmd ++ [32, 64, 32] ++ hexWord x := by
    intro hc
    rcases List.mem_append.mp hc with hc | hc
    · rcases List.mem_append.mp hc with hc | hc
      · exact hgrep hc
      · exact absurd hc (by decide)
    · exact not_mem_hexWord (by decide) hc
  have hbefore : 64 ∉ cmd ++ [32] := by
    intro hc
    rcases List.mem_append.mp hc with hc | hc
    · exact hat hc
    · exact absurd hc (by decide)
  have hsplit : cmd ++ [32, 64, 32] ++ hexWord x = (cmd ++ [32]) ++ 64 :: 32 :: hexWord x := by simp
  have hcolon : ¬((32 :: hexWord x).head? = some 64 ∨ 58 ∈ (32 :: hexWord x).tail) := by
    rintro (h | h)
    · cases h
    · exact not_mem_hexWord (by decide) h
  have hptr : (32 :: hexWord x).dropWhile (· = 32) = hexWord x := rfl
  have hsign : ¬((hexWord x).head? = some 43 ∨ (hexWord x).head? = some 45) := by
    rintro (h | h) <;> cases h
  have htail : (cmd ++ [32]).tail = cmd.tail ++ [32] := by
    cases cmd with
    | nil => cases hcmd
    | cons c l => rfl
  unfold radareCmdRaw
  dsimp only
  rw [strclean_line hcmd, hhead, if_neg (not_or.mpr ⟨fun h => h rfl, hline⟩),
    List.takeWhile_eq_self_iff.mpr (forall_decide_ne hno), hsplit, takeWhile_ne_cons hbefore,
    dropWhile_ne_cons hbefore]
  dsimp only
  rw [if_neg hcolon, hptr, if_neg hsign, getMath_hexWord, htail]

end Radare
