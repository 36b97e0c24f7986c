import Radare.Common.Loop
import Radare.Rio.Model
/-!
# The section table

The functions of `section.c` that make and edit the table, and what
`section_align` has to do with it. The newest section is the first of the
table, and `section_get` finds it; `section_align` goes through the table
from its end, behind an answer it kept. So it gives the mapping of the
section found (`sectionMap`) where the kept answer and the oldest section
happen to say the same (`sectionAlign_eq_iff`).
-/

namespace Radare

open Common

variable {s : State} {addr vaddr paddr x y : ut64} {sections : List SectionT} {sec : SectionT}

/-- A comment as `strncpy` stores it: 254 characters, and behind as many
whatever the memory has up to its next NUL. -/
def sectionComment (behind comment : List u8) : List u8 :=
  if comment.length < 254 then comment else comment.take 254 ++ behind

/-- `section_add`. -/
def sectionAdd (behind : List u8) (sections : List SectionT) (from_ to_ vaddr paddr : ut64)
    (rwx : ℕ) (comment : Option (List u8)) : List SectionT :=
  ⟨from_ + vaddr, to_ + vaddr, vaddr, paddr, rwx,
    (comment.map (sectionComment behind)).getD []⟩ :: sections

/-- `section_set`, over one section: what is `-1` is left. The permissions
are an `int`, as its 32 bits. -/
def SectionT.put (behind : List u8) (sec : SectionT) (to_ vaddr paddr : ut64) (rwx : ℕ)
    (comment : Option (List u8)) : SectionT where
  from_ := sec.from_
  to_ := if to_ ≠ -1 then to_ else sec.to_
  vaddr := if vaddr ≠ -1 then vaddr else sec.vaddr
  paddr := if paddr ≠ -1 then paddr else sec.paddr
  rwx := if rwx ≠ 2 ^ 32 - 1 then rwx else sec.rwx
  comment := (comment.map (sectionComment behind)).getD sec.comment

/-- `section_set`, for every section that starts at an address. -/
def sectionSet (behind : List u8) (sections : List SectionT) (from_ to_ vaddr paddr : ut64)
    (rwx : ℕ) (comment : Option (List u8)) : List SectionT :=
  sections.map fun sec =>
    if sec.from_ = from_ then sec.put behind to_ vaddr paddr rwx comment else sec

/-- `section_get_i`, which counts from the end of the list. -/
def sectionGetI (sections : List SectionT) (idx : ℤ) : Option SectionT :=
  nthFrom idx 0 sections.reverse

/-- `section_rm`. -/
def sectionRm (sections : List SectionT) (idx : ℤ) : List SectionT :=
  match sectionGetI sections idx with
  | none => sections
  | some _ => (sections.reverse.eraseIdx idx.toNat).reverse

/-! ## Runs -/

/-- An edit of the table, or a call of `section_align`. -/
inductive SectionOp where
  | add (behind : List u8) (from_ to_ vaddr paddr : ut64) (rwx : ℕ) (comment : Option (List u8))
  | set (behind : List u8) (from_ to_ vaddr paddr : ut64) (rwx : ℕ) (comment : Option (List u8))
  | rm (idx : ℤ)
  | align (addr vaddr paddr : ut64)

/-- The program after it. -/
def SectionOp.run (s : State) : SectionOp → State
  | .add behind from_ to_ vaddr paddr rwx comment =>
    { s with sections := sectionAdd behind s.sections from_ to_ vaddr paddr rwx comment }
  | .set behind from_ to_ vaddr paddr rwx comment =>
    { s with sections := sectionSet behind s.sections from_ to_ vaddr paddr rwx comment }
  | .rm idx => { s with sections := sectionRm s.sections idx }
  | .align addr vaddr paddr => (sectionAlign s addr vaddr paddr).1

/-- The program after a run of them. -/
def sectionRun (ops : List SectionOp) (s : State) : State := ops.foldl SectionOp.run s

/-! ## The mapping -/

/-- The mapping of the section that `section_get` finds, and without one
the mapping of the program. -/
def sectionMap (sections : List SectionT) (addr vaddr paddr : ut64) : ut64 :=
  match sectionGet sections addr with
  | some sec => sec.paddr + (addr - sec.from_)
  | none => addr - vaddr + paddr

/-- By how much a section moves its addresses. -/
def SectionT.shift (sec : SectionT) : ut64 := sec.paddr - sec.from_

/-- The address is the answer kept, and the mapping leaves it where it is;
or it is not, and the newest and the oldest section with it move it by the
same. -/
def State.Aligns (s : State) (addr vaddr paddr : ut64) : Prop :=
  if addr = s.lastAlign then
    match sectionGet s.sections addr with
    | some sec => sec.shift = 0
    | none => vaddr = paddr
  else
    (sectionGet s.sections addr).map SectionT.shift =
      (sectionGet s.sections.reverse addr).map SectionT.shift

/-- A section found from one end of the table is found from the other. -/
theorem sectionGet_reverse_eq_none_iff :
    sectionGet sections.reverse addr = none ↔ sectionGet sections addr = none := by
  unfold sectionGet
  rw [List.find?_eq_none, List.find?_eq_none]
  exact forall_congr' fun sec => by rw [List.mem_reverse]

/-- **`section_align` is the mapping of the table exactly where the answer
kept and the order of the walk make no difference.** -/
theorem sectionAlign_eq_iff :
    (sectionAlign s addr vaddr paddr).2 = sectionMap s.sections addr vaddr paddr ↔
      s.Aligns addr vaddr paddr := by
  unfold sectionAlign sectionMap State.Aligns SectionT.shift
  split_ifs with hlast
  · -- the answer kept is the address itself
    rw [← hlast]
    cases hget : sectionGet s.sections addr with
    | none =>
      dsimp only
      grind
    | some sec =>
      dsimp only
      grind
  · cases hrev : sectionGet s.sections.reverse addr with
    | none =>
      have hget := sectionGet_reverse_eq_none_iff.mp hrev
      rw [hget]
      exact iff_of_true rfl rfl
    | some sec' =>
      cases hget : sectionGet s.sections addr with
      | none =>
        rw [sectionGet_reverse_eq_none_iff.mpr hget] at hrev
        cases hrev
      | some sec =>
        dsimp only [Option.map_some]
        rw [Option.some_inj]
        grind

/-- **When an address is mapped by the table**: after any run of edits and
calls, a call of `section_align` gives the mapping of the section that
`section_get` finds exactly if the table and the answer kept align it. -/
theorem sectionAlign_mapped (s : State) (ops : List SectionOp) (addr vaddr paddr : ut64) :
    (sectionAlign (sectionRun ops s) addr vaddr paddr).2 =
        sectionMap (sectionRun ops s).sections addr vaddr paddr ↔
      (sectionRun ops s).Aligns addr vaddr paddr :=
  sectionAlign_eq_iff

/-- **The first address is kept before it is asked for**: with a section
that maps 0 to `0x100`, a new program gives 0. -/
theorem align_kept_from_start :
    let s := sectionRun [.add [] 0 0x10 0 0x100 7 none] (openFile [] 1 1)
    (sectionAlign s 0 0 0).2 = 0 ∧ sectionMap s.sections 0 0 0 = 0x100 := by
  decide

end Radare
