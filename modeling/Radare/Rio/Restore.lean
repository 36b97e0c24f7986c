import Radare.Rio.CommandLine
/-!
# The section table through its own lines

The lines `section_list` prints make a table again, but not the same one: a
section gets the base address of the program for its `vaddr`, the
permissions 7, and a comment of one word or none; and it starts at the
address a seek there comes to, with the base added. Where these are what it
had, and the addresses on disk go to the sections they are of, the table is
the same, and otherwise it is not (`sectionList_restores`).
-/

namespace Radare

open Common

variable {nums : Numbers} {shell : List u8 → State → State} {behind : List u8}
  {s : State} {sec : SectionT} {vaddr : ut64} {c : u8}

/-! ## One section -/

/-- A section whose line says one command, with the address behind the only
`@`; the comment is a string that the table holds whole. -/
structure SectionT.Plain (sec : SectionT) : Prop where
  string : 0 ∉ sec.comment
  length : sec.comment.length < 254
  single : ¬Special (addLine sec)
  grep : 126 ∉ sec.comment
  address : 64 ∉ sec.comment

/-- What a section's line is without its address. -/
def addCommand (sec : SectionT) : List u8 :=
  [83, 32] ++ joined 32 [hexWord (sec.to_ - sec.from_), hexWord sec.vaddr, sec.comment]

/-- The comment that comes back. -/
def keptComment (behind : List u8) (sec : SectionT) : List u8 :=
  let (i, mem) := set0word ((addCommand sec).drop 2 ++ [32])
  ((if i = 3 then some (get0word 2 (mem ++ [0])) else none).map (sectionComment behind)).getD []

/-- The section that comes back, before the second line. -/
def remade (nums : Numbers) (vaddr : ut64) (sec : SectionT) : SectionT where
  from_ := seekAt vaddr (nums.read 0 sec.from_) + vaddr
  to_ := seekAt vaddr (nums.read 0 sec.from_) + nums.read 0 (sec.to_ - sec.from_) + vaddr
  vaddr := vaddr
  paddr := nums.read 0 sec.vaddr
  rwx := 7
  comment := sec.comment

/-- What the second line does to the sections made so far. -/
def reput (nums : Numbers) (vaddr : ut64) (sec other : SectionT) : SectionT :=
  if other.from_ = seekAt vaddr (nums.read 0 sec.from_) ∧ nums.read 1 sec.paddr ≠ -1 then
    { other with paddr := nums.read 1 sec.paddr }
  else other

/-- The words of a line: the comment is the third, if there is one. -/
def addWords (sec : SectionT) : List (List u8) :=
  [hexWord (sec.to_ - sec.from_), hexWord sec.vaddr] ++ if sec.comment = [] then [] else [sec.comment]

theorem isWord_addWords (h : sec.Plain) (hblank : 32 ∉ sec.comment) :
    ∀ w ∈ addWords sec, w ≠ [] ∧ IsWord w := by
  intro w hw
  rcases List.mem_append.mp hw with hw | hw
  · -- a number is a word
    rcases List.mem_pair.mp hw with rfl | rfl <;> exact ⟨hexWord_ne_nil, isWord_hexWord⟩
  · split_ifs at hw with hnil
    · exact absurd hw List.not_mem_nil
    · rw [List.mem_singleton.mp hw]
      refine ⟨hnil, fun c hc => ⟨?_, ?_⟩⟩
      · rintro rfl
        exact hblank hc
      · rintro rfl
        exact h.string hc

theorem set0word_addCommand (h : sec.Plain) (hblank : 32 ∉ sec.comment) :
    set0word ((addCommand sec).drop 2 ++ [32]) = ((addWords sec).length, joined 0 (addWords sec)) := by
  have hne : addWords sec ≠ [] := List.cons_ne_nil _ _
  -- an empty comment leaves one blank more at the end
  have hline : ∃ b, (addCommand sec).drop 2 ++ [32] =
      joined 32 (addWords sec) ++ List.replicate b 32 := by
    unfold addCommand addWords
    by_cases hnil : sec.comment = []
    · exact ⟨2, by simp [hnil, joined, List.replicate_succ]⟩
    · exact ⟨1, by simp [hnil]⟩
  obtain ⟨b, hline⟩ := hline
  rw [hline, set0word_joined hne (isWord_addWords h hblank)]

theorem length_addWords (sec : SectionT) :
    (addWords sec).length = if sec.comment = [] then 2 else 3 := by
  unfold addWords
  split_ifs <;> rfl

/-- **A comment comes back exactly if it has no blank.** -/
theorem keptComment_eq_iff (h : sec.Plain) :
    keptComment behind sec = sec.comment ↔ 32 ∉ sec.comment := by
  constructor
  · intro hkept hblank
    unfold keptComment at hkept
    dsimp only at hkept
    rw [← hkept] at hblank
    split_ifs at hblank with hi
    · rw [if_pos hi] at hkept
      have hnot := blank_not_mem_get0word ((addCommand sec).drop 2 ++ [32]) 2
      -- a word cut at 254 characters would be too long for the comment it was
      have hlen := h.length
      rw [← hkept] at hlen
      simp only [Option.map_some, Option.getD_some] at hblank hlen
      unfold sectionComment at hblank hlen
      split_ifs at hblank hlen with hshort
      · exact hnot hblank
      · rw [List.length_append, List.length_take] at hlen
        omega
    · exact List.not_mem_nil hblank
  · intro hblank
    have hlen := length_addWords sec
    unfold keptComment
    rw [set0word_addCommand h hblank]
    dsimp only
    by_cases hnil : sec.comment = []
    · rw [if_pos hnil] at hlen
      rw [hlen, hnil]
      rfl
    · rw [if_neg hnil] at hlen
      have hthird : (addWords sec)[2] = sec.comment := by
        unfold addWords
        simp [hnil]
      rw [if_pos hlen, get0word_joined [] (isWord_addWords h hblank) (by rw [hlen]; decide), hthird,
        Option.map_some, Option.getD_some]
      unfold sectionComment
      rw [if_pos h.length]

theorem cmdSections_blank {arg : List u8} (harg : ¬arg.head? = some 45) :
    cmdSections nums behind s (32 :: arg) = addSection nums behind s arg := by
  show (if arg.head? = some 45 then { s with sections := sectionRm s.sections (atoi arg) }
    else addSection nums behind s arg) = _
  rw [if_neg harg]

/-- The first command, at a seek. -/
theorem cmdSections_add (nums : Numbers) (behind : List u8) (s : State) (h : sec.Plain) :
    ∃ to_ ondisk : ut64,
      (cmdSections nums behind s ((addCommand sec).tail ++ [32])).sections =
        ⟨s.config.seek + s.config.vaddr, to_, s.config.vaddr, ondisk, 7, keptComment behind sec⟩ ::
          s.sections ∧
      (32 ∉ sec.comment →
        to_ = s.config.seek + nums.read 0 (sec.to_ - sec.from_) + s.config.vaddr ∧
          ondisk = nums.read 0 sec.vaddr) := by
  have hminus : ¬((addCommand sec).drop 2 ++ [32]).head? = some 45 := by
    intro h
    cases h
  have hcmd : (addCommand sec).tail ++ [32] = 32 :: ((addCommand sec).drop 2 ++ [32]) := rfl
  rcases hset : set0word ((addCommand sec).drop 2 ++ [32]) with ⟨i, mem⟩
  refine ⟨s.config.seek + (if i = 1 ∨ i = 2 ∨ i = 3 then getMath nums s (get0word 0 (mem ++ [0]))
    else UInt64.ofNat s.config.block.length) + s.config.vaddr,
    if i = 2 ∨ i = 3 then getMath nums s (get0word 1 (mem ++ [0])) else 0, ?_, ?_⟩
  · rw [hcmd, cmdSections_blank hminus]
    unfold addSection keptComment
    rw [hset]
    rfl
  · intro hblank
    rw [set0word_addCommand h hblank, Prod.mk.injEq] at hset
    obtain ⟨rfl, rfl⟩ := hset
    have hcount : (addWords sec).length = 2 ∨ (addWords sec).length = 3 := by
      rw [length_addWords]
      split_ifs
      · exact Or.inl rfl
      · exact Or.inr rfl
    have hword := isWord_addWords h hblank
    have h0 := get0word_joined (n := 0) [] hword (by omega)
    have h1 := get0word_joined (n := 1) [] hword (by omega)
    rw [if_pos (Or.inr hcount), if_pos hcount, h0, h1]
    exact ⟨congrArg (s.config.seek + · + s.config.vaddr) getMath_hexWord, getMath_hexWord⟩

/-- The second command, at a seek. -/
theorem cmdSections_ondisk :
    (cmdSections nums behind s ([83, 100, 32] ++ hexWord sec.paddr ++ [32]).tail).sections =
      s.sections.map fun other =>
        if other.from_ = s.config.seek ∧ nums.read 1 sec.paddr ≠ -1 then
          { other with paddr := nums.read 1 sec.paddr }
        else other := by
  have hcmd : ([83, 100, 32] ++ hexWord sec.paddr ++ [32]).tail =
      100 :: 32 :: (hexWord sec.paddr ++ [32]) := rfl
  rw [hcmd]
  show sectionSet behind s.sections s.config.seek (-1) (-1)
    (getMath nums s (32 :: (hexWord sec.paddr ++ [32]))) (2 ^ 32 - 1) none = _
  rw [getMath_blanks]
  unfold sectionSet
  refine List.map_congr_left fun other _ => ?_
  by_cases hfrom : other.from_ = s.config.seek
  · rw [if_pos hfrom]
    unfold SectionT.put
    by_cases hp : nums.read 1 sec.paddr = -1
    · simp [hp]
    · simp [hp, hfrom]
  · rw [if_neg hfrom, if_neg fun h => hfrom h.1]

/-! ## The two lines of a section -/

theorem not_special_ondiskLine : ¬Special (ondiskLine sec) := by
  refine not_special fun c hc => ?_
  have hline : c ∈ ([83, 100, 32] : List u8) ∨ c ∈ ([32, 64, 32] : List u8) ∨
      c ∈ hexWord sec.paddr ∨ c ∈ hexWord sec.from_ := by
    unfold ondiskLine at hc
    simp only [List.mem_append] at hc
    tauto
  have hone : ∀ c ∈ ([83, 100, 32] : List u8), c ≠ 10 ∧ c ≠ 62 ∧ c ≠ 96 ∧ c ≠ 38 ∧ c ≠ 124 := by
    decide +kernel
  have htwo : ∀ c ∈ ([32, 64, 32] : List u8), c ≠ 10 ∧ c ≠ 62 ∧ c ≠ 96 ∧ c ≠ 38 ∧ c ≠ 124 := by
    decide +kernel
  have hnumber : ∀ n : ut64, c ∈ hexWord n → c ≠ 10 ∧ c ≠ 62 ∧ c ≠ 96 ∧ c ≠ 38 ∧ c ≠ 124 := by
    intro n hn
    refine ⟨?_, ?_, ?_, ?_, ?_⟩ <;>
    · rintro rfl
      exact not_mem_hexWord (by decide) hn
  rcases hline with hc | hc | hc | hc
  · exact hone c hc
  · exact htwo c hc
  · exact hnumber _ hc
  · exact hnumber _ hc

/-- A character of a command that is in no number is one of the comment. -/
theorem not_mem_addCommand (hc : ¬(48 ≤ c ∧ c ≤ 57 ∨ 97 ≤ c ∧ c ≤ 122)) (hblank : c ≠ 32)
    (hletter : c ≠ 83) (h : c ∉ sec.comment) : c ∉ addCommand sec := by
  unfold addCommand
  simp only [joined, List.mem_append, List.mem_cons, List.not_mem_nil, or_false, hblank, hletter,
    false_or]
  rintro (hn | hn | hn)
  · exact not_mem_hexWord hc hn
  · exact not_mem_hexWord hc hn
  · exact h hn

/-- **The first line** puts a section before the others. -/
theorem addLine_run (nums : Numbers) (shell : List u8 → State → State) (behind : List u8)
    (s : State) (h : sec.Plain) :
    ∃ made : SectionT, made.comment = keptComment behind sec ∧
      (32 ∉ sec.comment → made = remade nums s.config.vaddr sec) ∧
      (radareCmdRaw nums shell behind (addLine sec) s).sections = made :: s.sections ∧
      (radareCmdRaw nums shell behind (addLine sec) s).config.vaddr = s.config.vaddr := by
  have hgrep : 126 ∉ addCommand sec :=
    not_mem_addCommand (by decide) (by decide) (by decide) h.grep
  have hat : 64 ∉ addCommand sec :=
    not_mem_addCommand (by decide) (by decide) (by decide) h.address
  have hadd : addLine sec = addCommand sec ++ [32, 64, 32] ++ hexWord sec.from_ := rfl
  have hsingle := h.single
  rw [hadd] at hsingle
  have hline : radareCmdRaw nums shell behind (addLine sec) s =
      atSeek s (nums.read 0 sec.from_) fun s =>
        cmdSections nums behind s ((addCommand sec).tail ++ [32]) := by
    rw [hadd]
    exact radareCmdRaw_at rfl hsingle hgrep hat
  obtain ⟨s₁, hseek, hvaddr, hsec, hrun, hbase⟩ :=
    atSeek_cmdSections nums behind ((addCommand sec).tail ++ [32]) s (nums.read 0 sec.from_)
  obtain ⟨to_, ondisk, hmade, hwords⟩ := cmdSections_add nums behind s₁ h
  rw [hsec] at hmade
  refine ⟨⟨s₁.config.seek + s₁.config.vaddr, to_, s₁.config.vaddr, ondisk, 7,
    keptComment behind sec⟩, by dsimp only, ?_, by rw [hline, hrun, hmade], by rw [hline, hbase]⟩
  intro hblank
  obtain ⟨hto, hondisk⟩ := hwords hblank
  rw [hto, hondisk, (keptComment_eq_iff h).mpr hblank, hseek, hvaddr]
  unfold remade
  dsimp only

/-- **The second line** gives the sections at its seek its address on
disk. -/
theorem ondiskLine_run (nums : Numbers) (shell : List u8 → State → State) (behind : List u8)
    (sec : SectionT) (s : State) :
    (radareCmdRaw nums shell behind (ondiskLine sec) s).sections =
        s.sections.map (reput nums s.config.vaddr sec) ∧
      (radareCmdRaw nums shell behind (ondiskLine sec) s).config.vaddr = s.config.vaddr := by
  have hno : ∀ c, c = 126 ∨ c = 64 → c ∉ [83, 100, 32] ++ hexWord sec.paddr := by
    intro c hc hmem
    rcases List.mem_append.mp hmem with hmem | hmem
    · rcases hc with rfl | rfl <;> exact absurd hmem (by decide)
    · rcases hc with rfl | rfl <;> exact not_mem_hexWord (by decide) hmem
  have hline : radareCmdRaw nums shell behind (ondiskLine sec) s =
      atSeek s (nums.read 0 sec.from_) fun s =>
        cmdSections nums behind s (([83, 100, 32] ++ hexWord sec.paddr).tail ++ [32]) :=
    radareCmdRaw_at rfl not_special_ondiskLine (hno 126 (Or.inl rfl)) (hno 64 (Or.inr rfl))
  obtain ⟨s₁, hseek, -, hsec, hrun, hbase⟩ :=
    atSeek_cmdSections nums behind (([83, 100, 32] ++ hexWord sec.paddr).tail ++ [32]) s
      (nums.read 0 sec.from_)
  constructor
  · rw [hline, hrun]
    refine cmdSections_ondisk.trans ?_
    rw [hseek, hsec]
    rfl
  · rw [hline, hbase]

/-- The program after the two lines of a section. -/
def relist (nums : Numbers) (shell : List u8 → State → State) (behind : List u8) (sec : SectionT)
    (s : State) : State :=
  radareCmdRaw nums shell behind (ondiskLine sec) (radareCmdRaw nums shell behind (addLine sec) s)

/-- **The two lines together.** -/
theorem relist_run (nums : Numbers) (shell : List u8 → State → State) (behind : List u8)
    (s : State) (h : sec.Plain) :
    ∃ made : SectionT, made.comment = keptComment behind sec ∧
      (32 ∉ sec.comment → made = remade nums s.config.vaddr sec) ∧
      (relist nums shell behind sec s).sections =
        (made :: s.sections).map (reput nums s.config.vaddr sec) ∧
      (relist nums shell behind sec s).config.vaddr = s.config.vaddr := by
  obtain ⟨made, hcomment, hmade, hadd, hbase⟩ := addLine_run nums shell behind s h
  obtain ⟨hput, hbase'⟩ := ondiskLine_run nums shell behind sec
    (radareCmdRaw nums shell behind (addLine sec) s)
  rw [hbase] at hput hbase'
  rw [hadd] at hput
  exact ⟨made, hcomment, hmade, hput, hbase'⟩

/-! ## The whole table -/

/-- The text comes apart into its lines. -/
theorem splitOn_sectionLines {sections : List SectionT} (h : ∀ sec ∈ sections, sec.Plain) :
    ((sections.flatMap fun sec => addLine sec ++ 10 :: (ondiskLine sec ++ [10])).splitOn 10).filter
      (· ≠ []) = sections.flatMap fun sec => [addLine sec, ondiskLine sec] := by
  have htext : (sections.flatMap fun sec => addLine sec ++ 10 :: (ondiskLine sec ++ [10])) =
      (sections.flatMap fun sec => [addLine sec, ondiskLine sec]).flatMap fun line => line ++ [10] := by
    rw [List.flatMap_assoc]
    refine congrArg (sections.flatMap ·) (funext fun sec => ?_)
    simp
  rw [htext]
  refine splitOn_lines fun line hline => ?_
  obtain ⟨sec, hsec, hline⟩ := List.mem_flatMap.mp hline
  rcases List.mem_pair.mp hline with rfl | rfl
  · exact ⟨fun hmem => (h sec hsec).single (Or.inl hmem), List.cons_ne_nil _ _⟩
  · exact ⟨fun hmem => not_special_ondiskLine (Or.inl hmem), List.cons_ne_nil _ _⟩

/-- The lines of a table, taken one section after the other. -/
theorem runLines_sectionList {sections : List SectionT} (h : ∀ sec ∈ sections, sec.Plain) :
    runLines nums shell behind (sectionList sections) s =
      sections.foldr (relist nums shell behind) s := by
  have hreverse : ∀ sec ∈ sections.reverse, sec.Plain := fun sec hsec =>
    h sec (List.mem_reverse.mp hsec)
  have hstep : (fun sec s => [addLine sec, ondiskLine sec].foldl
      (fun s line => radareCmdRaw nums shell behind line s) s) = relist nums shell behind := by
    funext sec s
    unfold relist
    rw [List.foldl_cons, List.foldl_cons, List.foldl_nil]
  unfold runLines sectionList
  rw [splitOn_sectionLines hreverse, List.foldl_flatMap, List.foldl_reverse, hstep]

/-- The table that comes back, if its comments do. -/
def remadeAll (nums : Numbers) (vaddr : ut64) : List SectionT → List SectionT
  | [] => []
  | sec :: older =>
    (remade nums vaddr sec :: remadeAll nums vaddr older).map (reput nums vaddr sec)

theorem comment_reput {other : SectionT} : (reput nums vaddr sec other).comment = other.comment := by
  unfold reput
  split_ifs <;> rfl

/-- **The comments that come back.** -/
theorem comments_foldr (nums : Numbers) (shell : List u8 → State → State) (behind : List u8)
    (s : State) {sections : List SectionT} (h : ∀ sec ∈ sections, sec.Plain) :
    (sections.foldr (relist nums shell behind) s).sections.map SectionT.comment =
        sections.map (keptComment behind) ++ s.sections.map SectionT.comment ∧
      (sections.foldr (relist nums shell behind) s).config.vaddr = s.config.vaddr := by
  induction sections with
  | nil => exact ⟨rfl, rfl⟩
  | cons sec older ih =>
    obtain ⟨ihc, ihv⟩ := ih fun other ho => h other (List.mem_cons_of_mem _ ho)
    obtain ⟨made, hcomment, -, hsec, hbase⟩ := relist_run nums shell behind
      (older.foldr (relist nums shell behind) s) (h sec List.mem_cons_self)
    have hkeep : SectionT.comment ∘ reput nums (older.foldr (relist nums shell behind) s).config.vaddr
        sec = SectionT.comment := funext fun other => comment_reput
    rw [List.foldr_cons]
    constructor
    · rw [hsec, List.map_map, hkeep, List.map_cons, ihc, hcomment, List.map_cons, List.cons_append]
    · rw [hbase, ihv]

/-- **The table that comes back**, where every comment does. -/
theorem sections_foldr {sections : List SectionT} (h : ∀ sec ∈ sections, sec.Plain)
    (hblank : ∀ sec ∈ sections, 32 ∉ sec.comment) (hs : s.sections = []) :
    (sections.foldr (relist nums shell behind) s).sections =
      remadeAll nums s.config.vaddr sections := by
  induction sections with
  | nil => exact hs
  | cons sec older ih =>
    have holder : ∀ other ∈ older, other.Plain := fun other ho => h other (List.mem_cons_of_mem _ ho)
    specialize ih holder fun other ho => hblank other (List.mem_cons_of_mem _ ho)
    obtain ⟨made, -, hmade, hsec, -⟩ := relist_run nums shell behind
      (older.foldr (relist nums shell behind) s) (h sec List.mem_cons_self)
    have hvaddr := (comments_foldr nums shell behind s holder).2
    rw [List.foldr_cons, hsec, hmade (hblank sec List.mem_cons_self), hvaddr, ih]
    rfl

/-! ## The same table -/

/-- The address on disk a section comes to, given the sections whose second
line is run from its own on, the last of them first. -/
def paddrAfter (nums : Numbers) (vaddr : ut64) (setters : List SectionT) (sec : SectionT) : ut64 :=
  match setters.find? fun other =>
      sec.from_ = seekAt vaddr (nums.read 0 other.from_) ∧ nums.read 1 other.paddr ≠ -1 with
  | some other => nums.read 1 other.paddr
  | none => sec.paddr

/-- Second lines set the address on disk, and nothing else. -/
theorem foldr_reput (setters : List SectionT) (sec : SectionT) :
    setters.foldr (reput nums vaddr) sec =
      { sec with paddr := paddrAfter nums vaddr setters sec } := by
  induction setters with
  | nil => rfl
  | cons other setters ih =>
    rw [List.foldr_cons, ih]
    unfold reput paddrAfter
    dsimp only
    by_cases hset : sec.from_ = seekAt vaddr (nums.read 0 other.from_) ∧ nums.read 1 other.paddr ≠ -1
    · rw [if_pos hset, List.find?_cons_of_pos (by simpa using hset)]
    · rw [if_neg hset, List.find?_cons_of_neg (by simpa using hset)]

/-- A section that comes back as it was, from a table with newer sections
before it. -/
structure SectionT.Restored (nums : Numbers) (vaddr : ut64) (newer : List SectionT)
    (sec : SectionT) : Prop where
  plain : sec.Plain
  blank : 32 ∉ sec.comment
  rwx : sec.rwx = 7
  base : sec.vaddr = vaddr
  start : seekAt vaddr (nums.read 0 sec.from_) + vaddr = sec.from_
  size : nums.read 0 (sec.to_ - sec.from_) = sec.to_ - sec.from_
  ondisk : paddrAfter nums vaddr (newer ++ [sec]) { sec with paddr := nums.read 0 sec.vaddr } =
    sec.paddr

theorem foldr_reput_remade_iff {newer : List SectionT} (h : sec.Plain) (hblank : 32 ∉ sec.comment) :
    (newer ++ [sec]).foldr (reput nums vaddr) (remade nums vaddr sec) = sec ↔
      sec.Restored nums vaddr newer := by
  have hpaddr : ∀ hstart : seekAt vaddr (nums.read 0 sec.from_) + vaddr = sec.from_,
      paddrAfter nums vaddr (newer ++ [sec]) (remade nums vaddr sec) =
        paddrAfter nums vaddr (newer ++ [sec]) { sec with paddr := nums.read 0 sec.vaddr } := by
    intro hstart
    unfold paddrAfter remade
    dsimp only
    rw [hstart]
  have hend : seekAt vaddr (nums.read 0 sec.from_) + nums.read 0 (sec.to_ - sec.from_) + vaddr =
      (seekAt vaddr (nums.read 0 sec.from_) + vaddr) + nums.read 0 (sec.to_ - sec.from_) := by
    grind
  rw [foldr_reput]
  constructor
  · intro heq
    have hstart := congrArg SectionT.from_ heq
    have hto := congrArg SectionT.to_ heq
    have hondisk := congrArg SectionT.paddr heq
    refine ⟨h, hblank, (congrArg SectionT.rwx heq).symm, (congrArg SectionT.vaddr heq).symm, hstart,
      ?_, (hpaddr hstart).symm.trans hondisk⟩
    have hto' := hend.symm.trans hto
    rw [show seekAt vaddr (nums.read 0 sec.from_) + vaddr = sec.from_ from hstart] at hto'
    grind
  · intro hr
    have hto := hend
    rw [hr.start, hr.size] at hto
    have hto' : sec.from_ + (sec.to_ - sec.from_) = sec.to_ := by grind
    rw [hpaddr hr.start, hr.ondisk]
    unfold remade
    dsimp only
    rw [hr.start, hr.size, hto, hto', ← hr.base, ← hr.rwx]

/-- The table comes back as it was, if each section does. -/
theorem map_remadeAll_iff (nums : Numbers) (vaddr : ut64) (newer sections : List SectionT) :
    (remadeAll nums vaddr sections).map (fun x => newer.foldr (reput nums vaddr) x) = sections ↔
      ∀ mid sec older, sections = mid ++ sec :: older →
        (newer ++ mid ++ [sec]).foldr (reput nums vaddr) (remade nums vaddr sec) = sec := by
  induction sections generalizing newer with
  | nil =>
    refine iff_of_true rfl ?_
    intro mid sec older h
    exact absurd h.symm (List.append_ne_nil_of_right_ne_nil _ (List.cons_ne_nil _ _))
  | cons first rest ih =>
    have hfold : (fun x => newer.foldr (reput nums vaddr) x) ∘ reput nums vaddr first =
        fun x => (newer ++ [first]).foldr (reput nums vaddr) x := by
      funext x
      rw [List.foldr_append]
      rfl
    unfold remadeAll
    rw [List.map_map, hfold, List.map_cons, List.cons.injEq, ih]
    constructor
    · rintro ⟨hfirst, hrest⟩ mid sec older h
      cases mid with
      | nil =>
        obtain ⟨rfl, rfl⟩ := List.cons.inj h
        rwa [List.append_nil]
      | cons m mid =>
        obtain ⟨rfl, rfl⟩ := List.cons.inj h
        have := hrest mid sec older rfl
        rwa [List.append_assoc newer, List.singleton_append] at this
    · intro h
      constructor
      · have := h [] first rest rfl
        rwa [List.append_nil] at this
      · intro mid sec older hrest
        have := h (first :: mid) sec older (by rw [hrest, List.cons_append])
        rwa [List.append_assoc newer, List.singleton_append]

theorem remadeAll_eq_iff (nums : Numbers) (vaddr : ut64) (sections : List SectionT) :
    remadeAll nums vaddr sections = sections ↔
      ∀ newer sec older, sections = newer ++ sec :: older →
        (newer ++ [sec]).foldr (reput nums vaddr) (remade nums vaddr sec) = sec := by
  have h := map_remadeAll_iff nums vaddr [] sections
  have hid : (remadeAll nums vaddr sections).map
      (fun x => ([] : List SectionT).foldr (reput nums vaddr) x) = remadeAll nums vaddr sections :=
    List.map_id _
  rw [hid] at h
  exact h

/-- **When a table is restored by its own lines**: a table of plain sections
comes back from the lines `section_list` prints, run with no section to
begin with, exactly if every section of it is restored. -/
theorem sectionList_restores (nums : Numbers) (shell : List u8 → State → State)
    (behind : List u8) (s : State) (sections : List SectionT) :
    (∀ sec ∈ sections, sec.Plain) ∧
        (runLines nums shell behind (sectionList sections) { s with sections := [] }).sections =
          sections ↔
      ∀ newer sec older, sections = newer ++ sec :: older →
        sec.Restored nums s.config.vaddr newer := by
  constructor
  · rintro ⟨hplain, heq⟩
    rw [runLines_sectionList hplain] at heq
    -- the comments come back, so no section has a blank in its own
    have hcomments := (comments_foldr nums shell behind { s with sections := [] } hplain).1
    rw [heq, List.map_nil, List.append_nil, List.map_inj_left] at hcomments
    have hblank : ∀ sec ∈ sections, 32 ∉ sec.comment := fun sec hsec =>
      (keptComment_eq_iff (hplain sec hsec)).mp (hcomments sec hsec).symm
    rw [sections_foldr hplain hblank rfl, remadeAll_eq_iff] at heq
    intro newer sec older hsplit
    have hsec : sec ∈ sections := by
      rw [hsplit]
      exact List.mem_append_right _ List.mem_cons_self
    exact (foldr_reput_remade_iff (hplain sec hsec) (hblank sec hsec)).mp
      (heq newer sec older hsplit)
  · intro h
    have hr : ∀ sec ∈ sections, ∃ newer, sec.Restored nums s.config.vaddr newer := by
      intro sec hsec
      obtain ⟨newer, older, hsplit⟩ := List.append_of_mem hsec
      exact ⟨newer, h newer sec older hsplit⟩
    have hplain : ∀ sec ∈ sections, sec.Plain := fun sec hsec => (hr sec hsec).elim fun _ h => h.plain
    have hblank : ∀ sec ∈ sections, 32 ∉ sec.comment := fun sec hsec =>
      (hr sec hsec).elim fun _ h => h.blank
    refine ⟨hplain, ?_⟩
    rw [runLines_sectionList hplain, sections_foldr hplain hblank rfl, remadeAll_eq_iff]
    intro newer sec older hsplit
    have hsec := h newer sec older hsplit
    exact (foldr_reput_remade_iff hsec.plain hsec.blank).mpr hsec

/-- **Permissions are lost**: a section that can only be read comes back
with all of them. -/
theorem read_only_section_lost :
    let nums : Numbers := ⟨fun _ => 0, fun _ _ => 0, fun _ _ => 0⟩
    let sec : SectionT := ⟨0x1000, 0x1fff, 0, 0x400, 4, [0x74, 0x65, 0x78, 0x74]⟩
    (runLines nums (fun _ s => s) [] (sectionList [sec]) (openFile [] 1 1)).sections =
      [{ sec with rwx := 7 }] ∧ [{ sec with rwx := 7 }] ≠ [sec] := by
  decide +kernel

end Radare
