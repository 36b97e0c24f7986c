import Mathlib.Data.List.Basic
import Radare.Model.Word
/-!
# Differences of programs

`rdb_diff` compares the blocks and functions of two programs. Blocks with one
checksum are ignored, then blocks with one name are reported; both go over the
blocks of `b` for every block of `a` (`rdbOuter`). The functions are compared by
their frames, but the other function is looked for among those of `a` again: where
no two have one address, the search ends at the last one it looks at
(`rdbPartner_eq`).

Lists are in the order in which they are walked over, the last first.
-/

namespace Radare

/-- The part of `struct block_t` that is compared. -/
structure RdbBlock where
  name : Option (List u8)
  addr : ut64
  ignored : Bool
  framesize : ℤ
  /-- `n_bytes` of them. -/
  bytes : List u8
  checksum : UInt32
deriving DecidableEq

/-- The part of `struct function_t` that is compared. -/
structure RdbFunction where
  name : List u8
  addr : ut64
  frame : ℤ
deriving DecidableEq

/-- `struct program_t`. -/
structure RdbProgram where
  name : List u8
  nBlocks : ℤ
  blocks : List RdbBlock
  functions : List RdbFunction

/-- What is printed. -/
inductive RdbLine where
  /-- `ignored by checksum: %s / %s` -/
  | ignoredByChecksum (name0 name1 : Option (List u8))
  /-- `Ignored blocks by checksum: %d / (%d, %d)` -/
  | ignoredBlocks (ignored : ℕ) (n0 n1 : ℤ)
  /-- `There are different number of code blocks!!! %d vs %d` -/
  | differentNumber (n0 n1 : ℤ)
  /-- `Function '%s' differs (address = 0x%08llx)` -/
  | blockDiffers (name : Option (List u8)) (addr : ut64)
  /-- `stackframe differs: %d vs %d` -/
  | stackframeDiffers (f0 f1 : ℤ)
  /-- `n_bytes differs: %d vs %d` -/
  | nBytesDiffers (n0 n1 : ℕ)
  /-- `%d %02x vs %02x` -/
  | bytes (i : ℕ) (x y : u8)
  /-- `Function differs: %s (0x%08llx)` -/
  | functionDiffers (name : List u8) (addr : ut64)
  /-- `Found %d/(%d,%d) blocks with same name and different checksum` -/
  | found (count : ℕ) (n0 n1 : ℤ)
  /-- `Missing %d blocks to analyze` -/
  | missing (n : ℤ)
  /-- `%s block 0x%08llx not processed` -/
  | notProcessed (name : List u8) (addr : ut64)
deriving DecidableEq

/-- The lines that say that something differs. -/
def RdbLine.differs : RdbLine → Bool
  | .blockDiffers _ _ | .stackframeDiffers _ _ | .nBytesDiffers _ _ | .functionDiffers _ _ => true
  | _ => false

/-- The loop over the bytes, from `i` on. -/
def rdbDiffBytes : ℕ → List u8 → List u8 → List RdbLine
  | i, x :: xs, y :: ys => (if x ≠ y then [.bytes i x y] else []) ++ rdbDiffBytes (i + 1) xs ys
  | _, _, _ => []

/-- `rdb_diff_block`. -/
def rdbDiffBlock (a b : RdbBlock) : List RdbLine :=
  .blockDiffers b.name b.addr ::
    (if a.framesize ≠ b.framesize then [.stackframeDiffers a.framesize b.framesize] else []) ++
    if a.bytes.length ≠ b.bytes.length then [.nBytesDiffers a.bytes.length b.bytes.length]
    else rdbDiffBytes 0 a.bytes b.bytes

/-- What a loop over blocks leaves: the blocks, the lines, and how many were
found. -/
structure RdbMarked where
  blocks : List RdbBlock
  lines : List RdbLine
  count : ℕ

/-- The inner loop of both passes: what is not ignored and found is reported,
and ignored from then on. -/
def rdbInner (hit : RdbBlock → Bool) (report : RdbBlock → List RdbLine) :
    List RdbBlock → RdbMarked
  | [] => ⟨[], [], 0⟩
  | b1 :: bs =>
    let m := rdbInner hit report bs
    if !b1.ignored && hit b1 then
      ⟨{ b1 with ignored := true } :: m.blocks, report b1 ++ m.lines, m.count + 1⟩
    else ⟨b1 :: m.blocks, m.lines, m.count⟩

/-- What a pass leaves of both programs. -/
structure RdbPass where
  blocks0 : List RdbBlock
  blocks1 : List RdbBlock
  lines : List RdbLine
  count : ℕ

/-- The outer loop of both passes. -/
def rdbOuter (hit : RdbBlock → RdbBlock → Bool) (report : RdbBlock → RdbBlock → List RdbLine) :
    List RdbBlock → List RdbBlock → RdbPass
  | [], bs => ⟨[], bs, [], 0⟩
  | b0 :: as, bs =>
    if b0.ignored then
      let p := rdbOuter hit report as bs
      { p with blocks0 := b0 :: p.blocks0 }
    else
      let m := rdbInner (hit b0) (report b0) bs
      let p := rdbOuter hit report as m.blocks
      ⟨{ b0 with ignored := m.count ≠ 0 } :: p.blocks0, p.blocks1, m.lines ++ p.lines,
        m.count + p.count⟩

/-- The blocks have one checksum. -/
def checksumHit (b0 b1 : RdbBlock) : Bool := b1.checksum ≠ 0 && b0.checksum = b1.checksum

/-- The blocks have one name. -/
def nameHit (b0 b1 : RdbBlock) : Bool :=
  b0.name.isSome && b1.name.isSome && b1.checksum ≠ 0 && b0.name = b1.name

/-- `f1`, for the function `f0` at the place `i`: the first other one of its
address, or the one the search ends at. -/
def rdbPartner (fs : List RdbFunction) (i : ℕ) (f0 : RdbFunction) : Option RdbFunction :=
  match fs.zipIdx.find? fun (f1, j) => i ≠ j && f0.addr = f1.addr with
  | some (f1, _) => some f1
  | none => fs.getLast?

/-- `program_block_get`, and the block is ignored. -/
def rdbIgnore (blocks : List RdbBlock) (addr : ut64) : List RdbBlock :=
  blocks.modify (blocks.findIdx fun b => b.addr = addr) fun b => { b with ignored := true }

/-- One round of the loop over the functions. -/
def rdbFunction (fs : List RdbFunction) (p : RdbPass) (f : RdbFunction × ℕ) : RdbPass :=
  if (rdbPartner fs f.2 f.1).map RdbFunction.frame = some f.1.frame then
    if p.blocks0.any fun b => b.addr = f.1.addr then
      { p with
        blocks0 := rdbIgnore p.blocks0 f.1.addr
        blocks1 := rdbIgnore p.blocks1 f.1.addr
        count := p.count + 1 }
    else p
  else { p with lines := p.lines ++ [.functionDiffers f.1.name f.1.addr] }

/-- The blocks that are left. -/
def rdbLeft (name : List u8) (blocks : List RdbBlock) : List RdbLine :=
  (blocks.filter fun b => !b.ignored).map fun b => .notProcessed name b.addr

/-- `rdb_diff`: what it prints and returns. -/
def rdbDiff (a b : RdbProgram) : List RdbLine × ℕ :=
  let p1 := rdbOuter checksumHit (fun b0 b1 => [.ignoredByChecksum b0.name b1.name]) a.blocks
    b.blocks
  let p2 := rdbOuter nameHit rdbDiffBlock p1.blocks0 p1.blocks1
  let p3 := a.functions.zipIdx.foldl (rdbFunction a.functions) p2
  (p1.lines ++ [.ignoredBlocks p1.count a.nBlocks b.nBlocks] ++
      (if a.nBlocks ≠ b.nBlocks then [.differentNumber a.nBlocks b.nBlocks] else []) ++ p3.lines ++
      (if p3.count ≠ 0 then [.found p3.count a.nBlocks b.nBlocks] else []) ++
      [.missing (a.nBlocks - (p3.count + p1.count))] ++ rdbLeft a.name p3.blocks0 ++
      rdbLeft a.name p3.blocks1, p3.count)

/-! ## The passes over the blocks -/

variable {hit : RdbBlock → Bool} {report : RdbBlock → List RdbLine}
  {hits : RdbBlock → RdbBlock → Bool} {reports : RdbBlock → RdbBlock → List RdbLine}
  {as bs : List RdbBlock} {b0 b1 : RdbBlock} {p : RdbPass}

/-- What is not ignored behind the loop was there before, and was not found. -/
theorem of_mem_rdbInner (h : b1 ∈ (rdbInner hit report bs).blocks) (hnot : b1.ignored = false) :
    b1 ∈ bs ∧ hit b1 = false := by
  induction bs with
  | nil => cases h
  | cons b bs ih =>
    rw [rdbInner] at h
    split at h
    · rcases List.mem_cons.mp h with rfl | h
      · cases hnot
      · exact ⟨List.mem_cons_of_mem b (ih h).1, (ih h).2⟩
    · rename_i hskip
      rcases List.mem_cons.mp h with rfl | h
      · refine ⟨List.mem_cons_self, ?_⟩
        rw [hnot, Bool.not_false, Bool.true_and] at hskip
        exact Bool.eq_false_iff.mpr hskip
      · exact ⟨List.mem_cons_of_mem b (ih h).1, (ih h).2⟩

/-- **What a pass leaves of `b`** was found for no block of `a`. -/
theorem of_mem_rdbOuter (h : b1 ∈ (rdbOuter hits reports as bs).blocks1)
    (hnot : b1.ignored = false) :
    b1 ∈ bs ∧ ∀ b0 ∈ as, b0.ignored = false → hits b0 b1 = false := by
  induction as generalizing bs with
  | nil => exact ⟨h, fun b0 hb => nomatch hb⟩
  | cons b as ih =>
    rw [rdbOuter] at h
    split at h
    · rename_i hign
      obtain ⟨hmem, hall⟩ := ih h
      refine ⟨hmem, fun b0 hb hb0 => ?_⟩
      rcases List.mem_cons.mp hb with rfl | hb
      · exact absurd hign (Bool.eq_false_iff.mp hb0)
      · exact hall b0 hb hb0
    · obtain ⟨hmem, hall⟩ := ih h
      obtain ⟨hmem', hfirst⟩ := of_mem_rdbInner hmem hnot
      refine ⟨hmem', fun b0 hb hb0 => ?_⟩
      rcases List.mem_cons.mp hb with rfl | hb
      · exact hfirst
      · exact hall b0 hb hb0

/-- Where nothing is found, nothing is reported. -/
theorem rdbInner_none (h : ∀ b1 ∈ bs, b1.ignored = true ∨ hit b1 = false) :
    rdbInner hit report bs = ⟨bs, [], 0⟩ := by
  induction bs with
  | nil => rfl
  | cons b bs ih =>
    have hskip : (!b.ignored && hit b) = false := by
      rcases h b List.mem_cons_self with hb | hb
      · rw [hb]
        rfl
      · rw [hb, Bool.and_false]
    rw [rdbInner, ih fun b1 hb => h b1 (List.mem_cons_of_mem b hb), hskip]
    rfl

theorem lines_rdbOuter_none (h : ∀ b0, ∀ b1 ∈ bs, b1.ignored = true ∨ hits b0 b1 = false) :
    (rdbOuter hits reports as bs).lines = [] := by
  induction as with
  | nil => rfl
  | cons b as ih =>
    rw [rdbOuter]
    split
    · exact ih
    · rw [rdbInner_none (h b)]
      exact ih

/-- Lines that are all of a kind stay so. -/
theorem of_mem_lines_rdbInner {line : RdbLine} (h : line ∈ (rdbInner hit report bs).lines) :
    ∃ b1 ∈ bs, line ∈ report b1 := by
  induction bs with
  | nil => cases h
  | cons b bs ih =>
    rw [rdbInner] at h
    split at h
    · rcases List.mem_append.mp h with h | h
      · exact ⟨b, List.mem_cons_self, h⟩
      · obtain ⟨b1, hb, hline⟩ := ih h
        exact ⟨b1, List.mem_cons_of_mem b hb, hline⟩
    · obtain ⟨b1, hb, hline⟩ := ih h
      exact ⟨b1, List.mem_cons_of_mem b hb, hline⟩

theorem of_mem_lines_rdbOuter {line : RdbLine}
    (h : line ∈ (rdbOuter hits reports as bs).lines) : ∃ b0 b1, line ∈ reports b0 b1 := by
  induction as generalizing bs with
  | nil => cases h
  | cons b as ih =>
    rw [rdbOuter] at h
    split at h
    · exact ih h
    · rcases List.mem_append.mp h with h | h
      · obtain ⟨b1, -, hline⟩ := of_mem_lines_rdbInner h
        exact ⟨b, b1, hline⟩
      · exact ih h

/-- **A program and its copy**: no block is reported, since one with a checksum
that is not ignored yet is so by its own copy. -/
theorem rdbOuter_self (blocks : List RdbBlock) :
    (rdbOuter nameHit rdbDiffBlock
      (rdbOuter checksumHit (fun b0 b1 => [.ignoredByChecksum b0.name b1.name]) blocks
        blocks).blocks0
      (rdbOuter checksumHit (fun b0 b1 => [.ignoredByChecksum b0.name b1.name]) blocks
        blocks).blocks1).lines = [] := by
  refine lines_rdbOuter_none fun b0 b1 hb => ?_
  cases hign : b1.ignored with
  | true => exact .inl rfl
  | false =>
    obtain ⟨hmem, hall⟩ := of_mem_rdbOuter hb hign
    have hself := hall b1 hmem hign
    have hzero : b1.checksum = 0 := by
      simpa [checksumHit] using hself
    refine .inr ?_
    simp [nameHit, hzero]

/-! ## The loop over the functions -/

variable {fs : List RdbFunction} {f : RdbFunction} {i : ℕ}

/-- Where no two functions have one address, the search goes to its end. -/
theorem rdbPartner_eq (h : (fs.map RdbFunction.addr).Nodup) (hi : fs[i]? = some f) :
    rdbPartner fs i f = fs.getLast? := by
  have hnone : (fs.zipIdx.find? fun (f1, j) => i ≠ j && f.addr = f1.addr) = none := by
    refine List.find?_eq_none.mpr fun (f1, j) hmem => ?_
    have hj : fs[j]? = some f1 := List.mem_zipIdx_iff_getElem?.mp hmem
    simp only [ne_eq, Bool.and_eq_true, decide_eq_true_iff, not_and]
    intro hne heq
    obtain ⟨hilt, hfi⟩ := List.getElem?_eq_some_iff.mp hi
    obtain ⟨hjlt, hfj⟩ := List.getElem?_eq_some_iff.mp hj
    have hi' : i < (fs.map RdbFunction.addr).length := by rwa [List.length_map]
    have hj' : j < (fs.map RdbFunction.addr).length := by rwa [List.length_map]
    have hsame : (fs.map RdbFunction.addr)[i] = (fs.map RdbFunction.addr)[j] := by
      rw [List.getElem_map, List.getElem_map, hfi, hfj, heq]
    exact hne (h.getElem_inj_iff.mp hsame)
  rw [rdbPartner, hnone]

/-- **One round** says that the function differs if its frame is not that of
its partner. -/
theorem lines_rdbFunction (g : RdbFunction) (hg : rdbPartner fs i f = some g) :
    (rdbFunction fs p (f, i)).lines =
      p.lines ++ if g.frame = f.frame then [] else [.functionDiffers f.name f.addr] := by
  have hcond : (rdbPartner fs i f).map RdbFunction.frame = some f.frame ↔ g.frame = f.frame := by
    rw [hg, Option.map_some]
    exact Option.some_inj
  rw [rdbFunction]
  simp only [hcond]
  by_cases heq : g.frame = f.frame
  · rw [if_pos heq, if_pos heq, List.append_nil]
    split <;> rfl
  · rw [if_neg heq, if_neg heq]

theorem lines_rdbFunctions (g : RdbFunction) {l : List (RdbFunction × ℕ)}
    (hg : ∀ f ∈ l, rdbPartner fs f.2 f.1 = some g) :
    (l.foldl (rdbFunction fs) p).lines =
      p.lines ++ l.flatMap fun f =>
        if g.frame = f.1.frame then [] else [.functionDiffers f.1.name f.1.addr] := by
  induction l generalizing p with
  | nil => rw [List.foldl_nil, List.flatMap_nil, List.append_nil]
  | cons f l ih =>
    rw [List.foldl_cons, ih fun f' hf => hg f' (List.mem_cons_of_mem f hf),
      lines_rdbFunction g (hg f List.mem_cons_self), List.flatMap_cons, List.append_assoc]

/-- The functions of a program of which no two have one address: a line for each
of another frame than the one the searches end at. -/
theorem differs_rdbFunctions (h : (fs.map RdbFunction.addr).Nodup) (hp : p.lines = []) :
    (∀ line ∈ (fs.zipIdx.foldl (rdbFunction fs) p).lines, line.differs = false) ↔
      ∀ f ∈ fs, ∀ g ∈ fs, f.frame = g.frame := by
  cases hlast : fs.getLast? with
  | none =>
    obtain rfl := List.getLast?_eq_none_iff.mp hlast
    rw [List.zipIdx_nil, List.foldl_nil, hp]
    simp
  | some g =>
    have hpartner : ∀ f ∈ fs.zipIdx, rdbPartner fs f.2 f.1 = some g := by
      intro f hf
      rw [rdbPartner_eq h (List.mem_zipIdx_iff_getElem?.mp hf), hlast]
    have hg : g ∈ fs := List.mem_of_getLast? hlast
    rw [lines_rdbFunctions g hpartner, hp, List.nil_append]
    constructor
    · intro hall
      have hframe : ∀ f ∈ fs, g.frame = f.frame := by
        intro f hf
        by_contra hne
        obtain ⟨i, hi⟩ := List.mem_iff_getElem?.mp hf
        have hmem : (f, i) ∈ fs.zipIdx := List.mem_zipIdx_iff_getElem?.mpr hi
        have hline := hall (.functionDiffers f.name f.addr)
          (List.mem_flatMap.mpr ⟨(f, i), hmem, by rw [if_neg hne]; exact List.mem_singleton_self _⟩)
        cases hline
      exact fun f hf f' hf' => (hframe f hf).symm.trans (hframe f' hf')
    · intro hall line hline
      obtain ⟨⟨f, i⟩, hf, hin⟩ := List.mem_flatMap.mp hline
      have hmem : f ∈ fs := List.mem_of_getElem? (List.mem_zipIdx_iff_getElem?.mp hf)
      rw [if_pos (hall g hg f hmem)] at hin
      cases hin

/-- **A program and its copy**: no line says that something differs exactly when
all functions have one frame. -/
theorem rdbDiff_self (p : RdbProgram) (hfs : (p.functions.map RdbFunction.addr).Nodup) :
    (∀ line ∈ (rdbDiff p p).1, line.differs = false) ↔
      ∀ f ∈ p.functions, ∀ g ∈ p.functions, f.frame = g.frame := by
  have hself := rdbOuter_self p.blocks
  rw [← differs_rdbFunctions hfs hself, rdbDiff]
  constructor
  · intro h line hline
    refine h line ?_
    simp only [List.mem_append]
    exact .inl (.inl (.inl (.inl (.inr hline))))
  · intro h line hline
    have hleft (blocks : List RdbBlock) (hmem : line ∈ rdbLeft p.name blocks) :
        line.differs = false := by
      obtain ⟨b, -, rfl⟩ := List.mem_map.mp hmem
      rfl
    simp only [List.mem_append] at hline
    rcases hline with ((((((hline | hline) | hline) | hline) | hline) | hline) | hline) | hline
    · obtain ⟨b0, b1, hmem⟩ := of_mem_lines_rdbOuter hline
      rw [List.mem_singleton.mp hmem]
      rfl
    · rw [List.mem_singleton.mp hline]
      rfl
    · rw [if_neg (not_not.mpr rfl)] at hline
      cases hline
    · exact h line hline
    · split at hline
      · rw [List.mem_singleton.mp hline]
        rfl
      · cases hline
    · rw [List.mem_singleton.mp hline]
      rfl
    · exact hleft _ hline
    · exact hleft _ hline

/-- A block with two functions, of these frames. -/
def twoFunctions (frame frame' : ℤ) : RdbProgram where
  name := [97]
  nBlocks := 1
  blocks := [⟨some [98], 16, false, 8, [0x90, 0xc3], 7⟩]
  functions := [⟨[102], 32, frame'⟩, ⟨[103], 16, frame⟩]

theorem rdbDiff_self_same :
    (rdbDiff (twoFunctions 8 8) (twoFunctions 8 8)).1.any RdbLine.differs = false := by
  have hsame := (rdbDiff_self (twoFunctions 8 8) (by decide +kernel)).mpr (by decide)
  rw [List.any_eq_false]
  intro line hline
  rw [hsame line hline]
  exact Bool.false_ne_true

/-- Two frames are enough for a program to differ from itself. -/
theorem twoFrames_differ :
    ((twoFunctions 0 8).blocks.map RdbBlock.addr).Nodup ∧
      ((twoFunctions 0 8).functions.map RdbFunction.addr).Nodup ∧
      ¬∀ line ∈ (rdbDiff (twoFunctions 0 8) (twoFunctions 0 8)).1, line.differs = false := by
  decide +kernel

end Radare
