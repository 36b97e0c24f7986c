import Mathlib.Data.Nat.Count
import Radare.Common.Delta
import Radare.Model.Bytes
/-!
# `bsdiff`

The new file is described by stretches of the old one, of which the
differences are kept, and by what lies between them. Where a stretch may be is
found with a suffix array. Nothing here rests on the array being one: with any
places of the old file in it nothing is read beside a file, the loop comes to
its end, and the stretches describe the new file (`bsdiffLoop_describes`).

Places are `off_t`, that is integers. Where a byte is read beside a file there
is no result.
-/

namespace Radare

open Common

/-! ## The search -/

/-- `matchlen`. -/
def matchlen : List u8 → List u8 → ℕ
  | a :: old, b :: new => if a = b then matchlen old new + 1 else 0
  | _, _ => 0

/-- `memcmp`, as far as both go: the first is lower. -/
def memcmpLt : List u8 → List u8 → Bool
  | a :: old, b :: new => if a = b then memcmpLt old new else a < b
  | _, _ => false

/-- `search`: the length of the match, and its place. -/
def bsearch (I : List ℕ) (old new : List u8) (st en : ℕ) : Option (ℕ × ℕ) :=
  if en - st < 2 then do
    let a ← I[st]?
    let b ← I[en]?
    let x := matchlen (old.drop a) new
    let y := matchlen (old.drop b) new
    return if x > y then (x, a) else (y, b)
  else
    let x := st + (en - st) / 2
    match I[x]? with
    | none => none
    | some i =>
      if memcmpLt (old.drop i) new then bsearch I old new x en else bsearch I old new st x
termination_by en - st

/-- A byte of a file. -/
def byteAt (file : List u8) (i : ℤ) : Option u8 := if 0 ≤ i then file[i.toNat]? else none

/-- The byte of the old file at an offset is that of the new one. -/
def sameByte (old new : List u8) (lastoffset i : ℤ) : Option Bool :=
  if i + lastoffset < old.length then do
    let a ← byteAt old (i + lastoffset)
    let b ← byteAt new i
    return decide (a = b)
  else some false

/-- The loop that counts in `oldscore` what the last offset would match. -/
def scoreLoop (old new : List u8) (lastoffset stop scsc oldscore : ℤ) : Option (ℤ × ℤ) :=
  if scsc < stop then
    match sameByte old new lastoffset scsc with
    | none => none
    | some same =>
      scoreLoop old new lastoffset stop (scsc + 1) (if same then oldscore + 1 else oldscore)
  else some (scsc, oldscore)
termination_by (stop - scsc).toNat

/-- What the loop over the new file leaves. -/
structure Scan where
  scan : ℤ
  oldscore : ℤ
  len : ℤ
  pos : ℤ

/-- The loop over the new file, to where a match is better than the last
offset. -/
def scanLoop (I : List ℕ) (old new : List u8) (lastoffset scan scsc oldscore len pos : ℤ) :
    Option Scan :=
  if scan < new.length then
    match bsearch I old (new.drop scan.toNat) 0 old.length with
    | none => none
    | some (len, pos) =>
      match scoreLoop old new lastoffset (scan + len) scsc oldscore with
      | none => none
      | some (scsc, oldscore) =>
        if ((len : ℤ) = oldscore ∧ len ≠ 0) ∨ (len : ℤ) > oldscore + 8 then
          some ⟨scan, oldscore, len, pos⟩
        else
          match sameByte old new lastoffset scan with
          | none => none
          | some same =>
            scanLoop I old new lastoffset (scan + 1) scsc
              (if same then oldscore - 1 else oldscore) len pos
  else some ⟨scan, oldscore, len, pos⟩
termination_by (new.length - scan).toNat

/-! ## A stretch -/

/-- How far the last stretch goes forwards. -/
def forwards (old new : List u8) (scan lastscan lastpos i s Sf lenf : ℤ) : Option ℤ :=
  if lastscan + i < scan ∧ lastpos + i < old.length then
    match byteAt old (lastpos + i), byteAt new (lastscan + i) with
    | some a, some b =>
      let s := if a = b then s + 1 else s
      if s * 2 - (i + 1) > Sf * 2 - lenf then
        forwards old new scan lastscan lastpos (i + 1) s s (i + 1)
      else forwards old new scan lastscan lastpos (i + 1) s Sf lenf
    | _, _ => none
  else some lenf
termination_by (scan - (lastscan + i)).toNat

/-- How far the next one goes backwards. -/
def backwards (old new : List u8) (scan lastscan pos i s Sb lenb : ℤ) : Option ℤ :=
  if scan ≥ lastscan + i ∧ pos ≥ i then
    match byteAt old (pos - i), byteAt new (scan - i) with
    | some a, some b =>
      let s := if a = b then s + 1 else s
      if s * 2 - i > Sb * 2 - lenb then backwards old new scan lastscan pos (i + 1) s s i
      else backwards old new scan lastscan pos (i + 1) s Sb lenb
    | _, _ => none
  else some lenb
termination_by (scan + 1 - (lastscan + i)).toNat

/-- Where two stretches that overlap are parted. The overlap begins at a place
of the new file and one of the old one for either stretch. -/
def parting (old new : List u8) (new₁ old₁ new₂ old₂ overlap i s Ss lens : ℤ) : Option ℤ :=
  if i < overlap then
    match byteAt new (new₁ + i), byteAt old (old₁ + i), byteAt new (new₂ + i),
      byteAt old (old₂ + i) with
    | some b, some a, some b', some a' =>
      let s := if b = a then s + 1 else s
      let s := if b' = a' then s - 1 else s
      if s > Ss then parting old new new₁ old₁ new₂ old₂ overlap (i + 1) s s (i + 1)
      else parting old new new₁ old₁ new₂ old₂ overlap (i + 1) s Ss lens
    | _, _, _, _ => none
  else some lens
termination_by (overlap - i).toNat

/-- The differences of so many bytes. -/
def dbBytes (old new : List u8) (lastscan lastpos : ℤ) : ℕ → Option (List u8)
  | 0 => some []
  | n + 1 => do
    let b ← byteAt new lastscan
    let a ← byteAt old lastpos
    let rest ← dbBytes old new (lastscan + 1) (lastpos + 1) n
    return (b - a) :: rest

/-- So many bytes of the new file. -/
def ebBytes (new : List u8) (i : ℤ) : ℕ → Option (List u8)
  | 0 => some []
  | n + 1 => do
    let b ← byteAt new i
    let rest ← ebBytes new (i + 1) n
    return b :: rest

/-- `offtout`: a sign and a magnitude, the lowest byte first. -/
def offtout (x : ℤ) : List u8 :=
  let buf := bytesOf 8 x.natAbs
  if x < 0 then buf.set 7 (buf.getD 7 0 ||| 0x80) else buf

/-! ## The loop -/

/-- The variables of `main`. -/
structure Bsdiff where
  scan : ℤ
  len : ℤ
  lastscan : ℤ
  lastpos : ℤ
  lastoffset : ℤ
  pos : ℤ
  /-- The control block. -/
  ctrl : List u8
  db : List u8
  eb : List u8

/-- How far the next stretch goes backwards, where there is one. -/
def Bsdiff.lenb (old new : List u8) (st : Bsdiff) : Option ℤ :=
  if st.scan < new.length then backwards old new st.scan st.lastscan st.pos 1 0 0 0 else some 0

/-- The lengths of the two stretches, parted where they overlap. -/
def Bsdiff.parted (old new : List u8) (st : Bsdiff) (lenf lenb : ℤ) : Option (ℤ × ℤ) :=
  if st.lastscan + lenf > st.scan - lenb then
    let overlap := (st.lastscan + lenf) - (st.scan - lenb)
    (parting old new (st.lastscan + lenf - overlap) (st.lastpos + lenf - overlap)
      (st.scan - lenb) (st.pos - lenb) overlap 0 0 0 0).map fun lens =>
        (lenf + (lens - overlap), lenb - lens)
  else some (lenf, lenb)

/-- A stretch is written, and what is behind it up to the next. -/
def Bsdiff.emit (old new : List u8) (st : Bsdiff) : Option Bsdiff := do
  let lenf ← forwards old new st.scan st.lastscan st.lastpos 0 0 0 0
  let lenb ← st.lenb old new
  let (lenf, lenb) ← st.parted old new lenf lenb
  let diff ← dbBytes old new st.lastscan st.lastpos lenf.toNat
  let extra := (st.scan - lenb) - (st.lastscan + lenf)
  let extras ← ebBytes new (st.lastscan + lenf) extra.toNat
  return { st with
    ctrl := st.ctrl ++ (offtout lenf ++ offtout extra ++
      offtout ((st.pos - lenb) - (st.lastpos + lenf)))
    db := st.db ++ diff
    eb := st.eb ++ extras
    lastscan := st.scan - lenb
    lastpos := st.pos - lenb
    lastoffset := st.pos - st.scan }

/-- The loop of `main`, at most `fuel` turns of it. -/
def bsdiffLoop (I : List ℕ) (old new : List u8) : ℕ → Bsdiff → Option Bsdiff
  | 0, _ => none
  | fuel + 1, st =>
    if st.scan < new.length then do
      let r ← scanLoop I old new st.lastoffset (st.scan + st.len) (st.scan + st.len) 0 st.len st.pos
      let st := { st with scan := r.scan, len := r.len, pos := r.pos }
      let st ← if r.len ≠ r.oldscore ∨ r.scan = new.length then st.emit old new else some st
      bsdiffLoop I old new fuel st
    else some st

/-- The variables before the loop. `pos` has no value yet. -/
def Bsdiff.start (pos : ℤ) : Bsdiff := ⟨0, 0, 0, 0, 0, pos, [], [], []⟩

/-! ## Nothing is read beside a file -/

variable {I : List ℕ} {old new : List u8} {scan lastscan lastpos lastoffset pos i s : ℤ}

theorem byteAt_some (file : List u8) (hpos : 0 ≤ i) (hlt : i < file.length) :
    ∃ b, byteAt file i = some b := by
  unfold byteAt
  rw [if_pos hpos, List.getElem?_eq_getElem (by omega)]
  exact ⟨_, rfl⟩

theorem matchlen_le (old new : List u8) : matchlen old new ≤ new.length := by
  induction old generalizing new with
  | nil => exact Nat.zero_le _
  | cons a old ih =>
    cases new with
    | nil => exact Nat.zero_le _
    | cons b new =>
      rw [matchlen]
      split_ifs
      · exact Nat.succ_le_succ (ih new)
      · exact Nat.zero_le _

/-- The places in the array are places of the old file. -/
structure Places (I : List ℕ) (old : List u8) : Prop where
  length : I.length = old.length + 1
  le : ∀ i ∈ I, i ≤ old.length

/-- **The search** finds a place of the old file, and a match inside the new
one. -/
theorem bsearch_spec (hI : Places I old) {st en : ℕ} (hst : st ≤ old.length)
    (hen : en ≤ old.length) (rest : List u8) :
    ∃ len pos, bsearch I old rest st en = some (len, pos) ∧ len ≤ rest.length ∧
      pos ≤ old.length := by
  have hlen := hI.length
  have hget : ∀ j, j ≤ old.length → ∃ a, I[j]? = some a ∧ a ≤ old.length := by
    intro j hj
    exact ⟨I[j], List.getElem?_eq_getElem (by omega), hI.le _ (List.getElem_mem _)⟩
  fun_induction bsearch I old rest st en with
  | case1 st en hlt =>
    obtain ⟨a, ha, hale⟩ := hget st hst
    obtain ⟨b, hb, hble⟩ := hget en hen
    by_cases hgt : matchlen (old.drop a) rest > matchlen (old.drop b) rest
    · exact ⟨matchlen (old.drop a) rest, a, by simp [ha, hb, hgt], matchlen_le _ _, hale⟩
    · exact ⟨matchlen (old.drop b) rest, b, by simp [ha, hb, hgt], matchlen_le _ _, hble⟩
  | case2 st en hge x hnone =>
    obtain ⟨a, ha, -⟩ := hget x (by omega)
    rw [ha] at hnone
    cases hnone
  | case3 st en hge x i hi hlt ih => exact ih (by omega) hen
  | case4 st en hge x i hi hge' ih => exact ih hst (by omega)

theorem sameByte_some (old : List u8) (hpos : 0 ≤ i + lastoffset) (hi : 0 ≤ i)
    (hlt : i < new.length) : ∃ b, sameByte old new lastoffset i = some b := by
  unfold sameByte
  split_ifs with hold
  · obtain ⟨a, ha⟩ := byteAt_some old hpos hold
    obtain ⟨b, hb⟩ := byteAt_some new hi hlt
    rw [ha, hb]
    exact ⟨_, rfl⟩
  · exact ⟨false, rfl⟩

/-- How many bytes before a place the offset matches. -/
def matched (old new : List u8) (lastoffset k : ℤ) : ℕ :=
  Nat.count (fun i : ℕ => sameByte old new lastoffset i = some true) k.toNat

theorem matched_succ {b : Bool} (hi : 0 ≤ i) (hb : sameByte old new lastoffset i = some b) :
    (matched old new lastoffset (i + 1) : ℤ) =
      matched old new lastoffset i + if b then 1 else 0 := by
  have hnext : (i + 1).toNat = i.toNat + 1 := by omega
  have hcast : ((i.toNat : ℕ) : ℤ) = i := Int.toNat_of_nonneg hi
  unfold matched
  rw [hnext, Nat.count_succ, hcast, hb]
  cases b <;> simp

theorem matched_mono (old new : List u8) (lastoffset : ℤ) {k : ℤ} (hle : i ≤ k) :
    matched old new lastoffset i ≤ matched old new lastoffset k :=
  Nat.count_monotone _ (by omega)

/-- **The score** is how many bytes the offset matches. -/
theorem scoreLoop_spec (old : List u8) (oldscore : ℤ) {stop scsc : ℤ}
    (hpos : 0 ≤ scsc + lastoffset) (hscsc : 0 ≤ scsc) (hstop : stop ≤ new.length) :
    ∃ scsc' oldscore', scoreLoop old new lastoffset stop scsc oldscore = some (scsc', oldscore') ∧
      scsc' = max scsc stop ∧ oldscore' - matched old new lastoffset scsc' =
        oldscore - matched old new lastoffset scsc := by
  fun_induction scoreLoop old new lastoffset stop scsc oldscore with
  | case1 scsc oldscore hlt hnone =>
    obtain ⟨b, hb⟩ := sameByte_some old hpos hscsc (show scsc < new.length by omega)
    rw [hb] at hnone
    cases hnone
  | case2 scsc oldscore hlt b hb ih =>
    obtain ⟨scsc', oldscore', hrun, hmax, hscore⟩ := ih (by omega) (by omega)
    have hsucc := matched_succ hscsc hb
    refine ⟨scsc', oldscore', hrun, by omega, ?_⟩
    rw [hscore, hsucc]
    split_ifs <;> omega
  | case3 scsc oldscore hge => exact ⟨scsc, oldscore, rfl, by omega, rfl⟩

/-- One turn of the loop over the new file. -/
theorem scan_turn (hI : Places I old) {scsc oldscore scsc' oldscore' : ℤ} {len' pos' : ℕ}
    (hscan : 0 ≤ scan) (hlt : scan < new.length) (hscsc : 0 ≤ scsc) (hscoff : 0 ≤ scsc + lastoffset)
    (hscore : oldscore = matched old new lastoffset scsc - matched old new lastoffset scan)
    (hs : bsearch I old (new.drop scan.toNat) 0 old.length = some (len', pos'))
    (hrun : scoreLoop old new lastoffset (scan + len') scsc oldscore = some (scsc', oldscore')) :
    scan + len' ≤ new.length ∧ pos' ≤ old.length ∧ scsc' = max scsc (scan + len') ∧
      oldscore' = matched old new lastoffset scsc' - matched old new lastoffset scan := by
  obtain ⟨len'', pos'', hs', hlen, hpos'⟩ := bsearch_spec hI (Nat.zero_le _) (Nat.le_refl _)
    (new.drop scan.toNat)
  rw [hs] at hs'
  cases hs'
  rw [List.length_drop] at hlen
  have hfit : scan + len' ≤ new.length := by omega
  obtain ⟨a, b, hrun', hmax, hscore'⟩ := scoreLoop_spec old oldscore hscoff hscsc hfit
  rw [hrun] at hrun'
  cases hrun'
  exact ⟨hfit, hpos', hmax, by omega⟩

/-- **The loop over the new file** comes to its end, at the end of the file or
with a match that is not empty. -/
theorem scanLoop_spec (hI : Places I old) {scsc : ℤ} (oldscore len : ℤ) (hscan : 0 ≤ scan)
    (hle : scan ≤ new.length) (hoff : 0 ≤ scan + lastoffset) (hscsc : 0 ≤ scsc)
    (hscoff : 0 ≤ scsc + lastoffset) (hnear : scan ≤ scsc + 1)
    (hscore : oldscore = matched old new lastoffset scsc - matched old new lastoffset scan)
    (hpos : scan = new.length → 0 ≤ pos ∧ pos ≤ old.length) :
    ∃ r, scanLoop I old new lastoffset scan scsc oldscore len pos = some r ∧
      scan ≤ r.scan ∧ r.scan ≤ new.length ∧ 0 ≤ r.pos ∧ r.pos ≤ old.length ∧
      (r.scan < new.length → 0 < r.len ∧ r.scan + r.len ≤ new.length) := by
  fun_induction scanLoop I old new lastoffset scan scsc oldscore len pos with
  | case1 scan scsc oldscore len pos hlt hnone =>
    obtain ⟨len', pos', hs, -, -⟩ := bsearch_spec hI (Nat.zero_le _) (Nat.le_refl _)
      (new.drop scan.toNat)
    rw [hs] at hnone
    cases hnone
  | case2 scan scsc oldscore len pos hlt len' pos' hs hnone =>
    obtain ⟨len'', pos'', hs', hlen, -⟩ := bsearch_spec hI (Nat.zero_le _) (Nat.le_refl _)
      (new.drop scan.toNat)
    rw [hs] at hs'
    cases hs'
    rw [List.length_drop] at hlen
    obtain ⟨a, b, hrun, -⟩ := scoreLoop_spec old oldscore hscoff hscsc
      (show scan + len' ≤ new.length by omega)
    rw [hrun] at hnone
    cases hnone
  | case3 scan scsc oldscore len pos hlt len' pos' hs scsc' oldscore' hrun hbreak =>
    obtain ⟨hfit, hpos', hmax, hscore'⟩ := scan_turn hI hscan hlt hscsc hscoff hscore hs hrun
    -- the score is a number of bytes by now
    have hmono := matched_mono old new lastoffset (show scan ≤ scsc' by omega)
    refine ⟨_, rfl, Int.le_refl _, hle, Int.natCast_nonneg _, Int.ofNat_le.mpr hpos', fun _ => ?_⟩
    dsimp only
    omega
  | case4 scan scsc oldscore len pos hlt len' pos' hs scsc' oldscore' hrun hgo hnone =>
    obtain ⟨b, hb⟩ := sameByte_some old hoff hscan hlt
    rw [hb] at hnone
    cases hnone
  | case5 scan scsc oldscore len pos hlt len' pos' hs scsc' oldscore' hrun hgo same hsame ih =>
    obtain ⟨hfit, hpos', hmax, hscore'⟩ := scan_turn hI hscan hlt hscsc hscoff hscore hs hrun
    have hsucc := matched_succ hscan hsame
    obtain ⟨r, hr, hge, hrest⟩ := ih (by omega) (by omega) (by omega) (by omega) (by omega)
      (by omega) (by rw [hsucc]; split_ifs <;> omega) (by omega)
    exact ⟨r, hr, by omega, hrest⟩
  | case6 scan scsc oldscore len pos hge =>
    obtain ⟨hpos0, hposle⟩ := hpos (by omega)
    exact ⟨_, rfl, Int.le_refl _, hle, hpos0, hposle, fun hlt => absurd hlt hge⟩

/-! ## The stretches are inside the files -/

/-- **Forwards**, the stretch ends where the scan is, and inside the old file. -/
theorem forwards_spec {Sf lenf : ℤ} (hscan : scan ≤ new.length) (hlast : 0 ≤ lastscan)
    (hpos : 0 ≤ lastpos) (hi : 0 ≤ i) (hlenf : 0 ≤ lenf) (hle : lastscan + lenf ≤ scan)
    (hold : lastpos + lenf ≤ old.length) :
    ∃ r, forwards old new scan lastscan lastpos i s Sf lenf = some r ∧ 0 ≤ r ∧
      lastscan + r ≤ scan ∧ lastpos + r ≤ old.length := by
  fun_induction forwards old new scan lastscan lastpos i s Sf lenf with
  | case1 i s Sf lenf hlt a ha b hb s' hbetter ih =>
    exact ih (by omega) (by omega) (by omega) (by omega)
  | case2 i s Sf lenf hlt a ha b hb s' hworse ih => exact ih (by omega) hlenf hle hold
  | case3 i s Sf lenf hlt hnone =>
    obtain ⟨a, ha⟩ := byteAt_some old (show 0 ≤ lastpos + i by omega) hlt.2
    obtain ⟨b, hb⟩ := byteAt_some new (show 0 ≤ lastscan + i by omega) (by omega)
    exact (hnone a b ha hb).elim
  | case4 i s Sf lenf hge => exact ⟨lenf, rfl, hlenf, hle, hold⟩

/-- **Backwards**, the stretch begins behind the last one, and inside the old
file. -/
theorem backwards_spec {Sb lenb : ℤ} (hscan : scan ≤ new.length) (hlast : 0 ≤ lastscan)
    (hold : pos ≤ old.length) (hi : 1 ≤ i) (hlenb : 0 ≤ lenb) (hle : lastscan + lenb ≤ scan)
    (hpos : lenb ≤ pos) :
    ∃ r, backwards old new scan lastscan pos i s Sb lenb = some r ∧ 0 ≤ r ∧
      lastscan + r ≤ scan ∧ r ≤ pos := by
  fun_induction backwards old new scan lastscan pos i s Sb lenb with
  | case1 i s Sb lenb hlt a ha b hb s' hbetter ih =>
    exact ih (by omega) (by omega) (by omega) (by omega)
  | case2 i s Sb lenb hlt a ha b hb s' hworse ih => exact ih (by omega) hlenb hle hpos
  | case3 i s Sb lenb hlt hnone =>
    obtain ⟨a, ha⟩ := byteAt_some old (show 0 ≤ pos - i by omega) (by omega)
    obtain ⟨b, hb⟩ := byteAt_some new (show 0 ≤ scan - i by omega) (by omega)
    exact (hnone a b ha hb).elim
  | case4 i s Sb lenb hge => exact ⟨lenb, rfl, hlenb, hle, hpos⟩

/-- **Stretches are parted** inside their overlap. -/
theorem parting_spec {new₁ old₁ new₂ old₂ overlap Ss lens : ℤ}
    (h₁ : 0 ≤ new₁ ∧ new₁ + overlap ≤ new.length)
    (h₂ : 0 ≤ old₁ ∧ old₁ + overlap ≤ old.length)
    (h₃ : 0 ≤ new₂ ∧ new₂ + overlap ≤ new.length)
    (h₄ : 0 ≤ old₂ ∧ old₂ + overlap ≤ old.length) (hi : 0 ≤ i) (hlens : 0 ≤ lens)
    (hle : lens ≤ overlap) :
    ∃ r, parting old new new₁ old₁ new₂ old₂ overlap i s Ss lens = some r ∧ 0 ≤ r ∧
      r ≤ overlap := by
  fun_induction parting old new new₁ old₁ new₂ old₂ overlap i s Ss lens with
  | case1 i s Ss lens hlt b hb a ha b' hb' a' ha' s₁ s₂ hbetter ih =>
    exact ih (by omega) (by omega) (by omega)
  | case2 i s Ss lens hlt b hb a ha b' hb' a' ha' s₁ s₂ hworse ih => exact ih (by omega) hlens hle
  | case3 i s Ss lens hlt hnone =>
    obtain ⟨b, hb⟩ := byteAt_some new (show 0 ≤ new₁ + i by omega) (by omega)
    obtain ⟨a, ha⟩ := byteAt_some old (show 0 ≤ old₁ + i by omega) (by omega)
    obtain ⟨b', hb'⟩ := byteAt_some new (show 0 ≤ new₂ + i by omega) (by omega)
    obtain ⟨a', ha'⟩ := byteAt_some old (show 0 ≤ old₂ + i by omega) (by omega)
    exact (hnone b a b' a' hb ha hb' ha').elim
  | case4 i s Ss lens hge => exact ⟨lens, rfl, hlens, hle⟩

theorem dbBytes_eq {n : ℕ} {front place : ℕ} (hnew : front + n ≤ new.length)
    (hold : place + n ≤ old.length) : dbBytes old new front place n =
      some (List.zipWith (· - ·) ((new.drop front).take n) (old.drop place)) := by
  induction n generalizing front place with
  | zero => rw [List.take_zero, List.zipWith_nil_left]; rfl
  | succ n ih =>
    have hb : byteAt new front = some new[front] := by
      rw [byteAt, if_pos (Int.natCast_nonneg front)]
      exact List.getElem?_eq_getElem (by omega)
    have ha : byteAt old place = some old[place] := by
      rw [byteAt, if_pos (Int.natCast_nonneg place)]
      exact List.getElem?_eq_getElem (by omega)
    have hrest := ih (show front + 1 + n ≤ new.length by omega)
      (show place + 1 + n ≤ old.length by omega)
    have hfront : new.drop front = new[front] :: new.drop (front + 1) :=
      List.drop_eq_getElem_cons (by omega)
    have hplace : old.drop place = old[place] :: old.drop (place + 1) :=
      List.drop_eq_getElem_cons (by omega)
    rw [hfront, hplace, List.take_succ_cons, List.zipWith_cons_cons, dbBytes, hb, ha]
    simp only [bind, Option.bind]
    rw [show (front : ℤ) + 1 = (front + 1 : ℕ) from rfl,
      show (place : ℤ) + 1 = (place + 1 : ℕ) from rfl, hrest]
    rfl

theorem ebBytes_eq {n front : ℕ} (hnew : front + n ≤ new.length) :
    ebBytes new front n = some ((new.drop front).take n) := by
  induction n generalizing front with
  | zero => rw [List.take_zero]; rfl
  | succ n ih =>
    have hb : byteAt new front = some new[front] := by
      rw [byteAt, if_pos (Int.natCast_nonneg front)]
      exact List.getElem?_eq_getElem (by omega)
    have hrest := ih (show front + 1 + n ≤ new.length by omega)
    have hfront : new.drop front = new[front] :: new.drop (front + 1) :=
      List.drop_eq_getElem_cons (by omega)
    rw [hfront, List.take_succ_cons, ebBytes, hb]
    simp only [bind, Option.bind]
    rw [show (front : ℤ) + 1 = (front + 1 : ℕ) from rfl, hrest]
    rfl

/-! ## The stretches describe the new file -/

/-- The control block of pieces. -/
def ctrlOf (ps : List (Piece u8)) : List u8 :=
  ps.flatMap fun p => offtout p.diff.length ++ offtout p.extra.length ++ offtout p.seek

/-- What is written are pieces that give the new file up to `lastscan`. -/
structure Bsdiff.Wrote (old new : List u8) (st : Bsdiff) (ps : List (Piece u8)) : Prop where
  lastscan_nonneg : 0 ≤ st.lastscan
  lastpos_nonneg : 0 ≤ st.lastpos
  lastpos_le : st.lastpos ≤ old.length
  describes : Describes old new st.lastscan.toNat st.lastpos ps
  ctrl : st.ctrl = ctrlOf ps
  db : st.db = ps.flatMap Piece.diff
  eb : st.eb = ps.flatMap Piece.extra
  seeks : ∀ p ∈ ps, p.seek.natAbs ≤ old.length

variable {st : Bsdiff} {ps : List (Piece u8)}

/-- **The lengths of the two stretches**: they meet, or there is something
between them. -/
theorem Bsdiff.Wrote.lengths (h : st.Wrote old new ps) (hscan : st.lastscan ≤ st.scan)
    (hle : st.scan ≤ new.length) (hpos : 0 ≤ st.pos) (hposle : st.pos ≤ old.length) :
    ∃ lenf lenb lenf' lenb', forwards old new st.scan st.lastscan st.lastpos 0 0 0 0 = some lenf ∧
      st.lenb old new = some lenb ∧ st.parted old new lenf lenb = some (lenf', lenb') ∧
      0 ≤ lenf' ∧ 0 ≤ lenb' ∧ st.lastscan + lenf' ≤ st.scan - lenb' ∧
      st.lastpos + lenf' ≤ old.length ∧ lenb' ≤ st.pos ∧ (st.scan = new.length → lenb' = 0) := by
  have hlast := h.lastscan_nonneg
  have hlastpos := h.lastpos_nonneg
  have hlastle := h.lastpos_le
  have hforw : ∃ lenf, forwards old new st.scan st.lastscan st.lastpos 0 0 0 0 = some lenf ∧
      0 ≤ lenf ∧ st.lastscan + lenf ≤ st.scan ∧ st.lastpos + lenf ≤ old.length :=
    forwards_spec hle hlast hlastpos (Int.le_refl 0) (Int.le_refl 0) (by omega) (by omega)
  obtain ⟨lenf, hf, hf0, hfscan, hfold⟩ := hforw
  have hback : ∃ lenb, st.lenb old new = some lenb ∧ 0 ≤ lenb ∧ st.lastscan + lenb ≤ st.scan ∧
      lenb ≤ st.pos ∧ (st.scan = new.length → lenb = 0) := by
    unfold Bsdiff.lenb
    split_ifs with hlt
    · have hb : ∃ lenb, backwards old new st.scan st.lastscan st.pos 1 0 0 0 = some lenb ∧
          0 ≤ lenb ∧ st.lastscan + lenb ≤ st.scan ∧ lenb ≤ st.pos :=
        backwards_spec hle hlast hposle (Int.le_refl 1) (Int.le_refl 0) (by omega) hpos
      obtain ⟨lenb, hb, hb0, hbscan, hbpos⟩ := hb
      exact ⟨lenb, hb, hb0, hbscan, hbpos, fun heq => by omega⟩
    · exact ⟨0, rfl, Int.le_refl 0, by omega, hpos, fun _ => rfl⟩
  obtain ⟨lenb, hb, hb0, hbscan, hbpos, hbend⟩ := hback
  by_cases hover : st.lastscan + lenf > st.scan - lenb
  · set overlap := (st.lastscan + lenf) - (st.scan - lenb) with hoverlap
    have hpart : ∃ lens, parting old new (st.lastscan + lenf - overlap)
        (st.lastpos + lenf - overlap) (st.scan - lenb) (st.pos - lenb) overlap 0 0 0 0 =
          some lens ∧ 0 ≤ lens ∧ lens ≤ overlap :=
      parting_spec (by omega) (by omega) (by omega) (by omega) (Int.le_refl 0) (Int.le_refl 0)
        (by omega)
    obtain ⟨lens, hl, hl0, hlle⟩ := hpart
    refine ⟨lenf, lenb, lenf + (lens - overlap), lenb - lens, hf, hb, ?_, by omega, by omega,
      by omega, by omega, by omega, fun heq => by have := hbend heq; omega⟩
    unfold Bsdiff.parted
    simp only [if_pos hover, ← hoverlap, hl, Option.map_some]
  · exact ⟨lenf, lenb, lenf, lenb, hf, hb, if_neg hover, hf0, hb0, by omega, hfold, hbpos, hbend⟩

/-- **A stretch is written**: one piece more. -/
theorem Bsdiff.Wrote.emit (h : st.Wrote old new ps) (hscan : st.lastscan ≤ st.scan)
    (hle : st.scan ≤ new.length) (hpos : 0 ≤ st.pos) (hposle : st.pos ≤ old.length) :
    ∃ st' p, st.emit old new = some st' ∧ st'.Wrote old new (ps ++ [p]) ∧ st'.scan = st.scan ∧
      st'.len = st.len ∧ st'.pos = st.pos ∧ st'.lastscan ≤ st.scan ∧
      st'.lastoffset = st.pos - st.scan ∧ (st.scan = new.length → st'.lastscan = new.length) := by
  obtain ⟨lenf, lenb, lenf', lenb', hf, hb, hparted, hf0, hb0, hmeet, hfold, hbpos, hend⟩ :=
    h.lengths hscan hle hpos hposle
  obtain ⟨front, hfront⟩ := Int.eq_ofNat_of_zero_le h.lastscan_nonneg
  obtain ⟨place, hplace⟩ := Int.eq_ofNat_of_zero_le h.lastpos_nonneg
  obtain ⟨n, hn⟩ := Int.eq_ofNat_of_zero_le hf0
  obtain ⟨k, hk⟩ := Int.eq_ofNat_of_zero_le
    (show 0 ≤ (st.scan - lenb') - (st.lastscan + lenf') by omega)
  have hdiff : dbBytes old new front place n =
      some (List.zipWith (· - ·) ((new.drop front).take n) (old.drop place)) :=
    dbBytes_eq (by omega) (by omega)
  have hextra : ebBytes new (front + n : ℕ) k = some ((new.drop (front + n)).take k) :=
    ebBytes_eq (by omega)
  set diff := List.zipWith (· - ·) ((new.drop front).take n) (old.drop place) with hdiffDef
  set extra := (new.drop (front + n)).take k with hextraDef
  have hdifflen : diff.length = n := by
    rw [hdiffDef, List.length_zipWith, List.length_take, List.length_drop, List.length_drop]
    omega
  have hextralen : extra.length = k := by
    rw [hextraDef, List.length_take, List.length_drop]
    omega
  have hconcat : Describes old new (front + n + k) (st.pos - lenb')
      (ps ++ [⟨diff, extra, (st.pos - lenb') - (st.lastpos + lenf')⟩]) := by
    have hdesc := h.describes
    rw [hfront, hplace, Int.toNat_natCast] at hdesc
    refine hdesc.concat (fun a b => UInt8.sub_add_cancel a b) (show place + n ≤ _ by omega)
      (by omega) (by omega) hdiffDef ?_ ?_
    · rw [Nat.add_sub_cancel_left]
    · show st.pos - lenb' - (st.lastpos + lenf') = st.pos - lenb' - (place + n)
      omega
  refine ⟨{ st with
    ctrl := st.ctrl ++ (offtout lenf' ++ offtout ((st.scan - lenb') - (st.lastscan + lenf')) ++
      offtout ((st.pos - lenb') - (st.lastpos + lenf')))
    db := st.db ++ diff
    eb := st.eb ++ extra
    lastscan := st.scan - lenb'
    lastpos := st.pos - lenb'
    lastoffset := st.pos - st.scan }, ⟨diff, extra, (st.pos - lenb') - (st.lastpos + lenf')⟩,
    ?_, ⟨?_, ?_, ?_, ?_, ?_, ?_, ?_, ?_⟩, rfl, rfl, rfl, ?_, rfl, ?_⟩
  · have hplaceN : st.lastscan + lenf' = (front + n : ℕ) := by omega
    have hdiff' : dbBytes old new st.lastscan st.lastpos lenf'.toNat = some diff := by
      rw [hfront, hplace, hn, Int.toNat_natCast, hdiff]
    have hextra' : ebBytes new (st.lastscan + lenf')
        ((st.scan - lenb') - (st.lastscan + lenf')).toNat = some extra := by
      rw [hk, hplaceN, Int.toNat_natCast, hextra]
    unfold Bsdiff.emit
    simp only [Option.bind_eq_bind, hf, Option.bind_some, hb, hparted, hdiff', hextra']
    rfl
  · dsimp only
    omega
  · dsimp only
    omega
  · dsimp only
    omega
  · have hstop : (st.scan - lenb').toNat = front + n + k := by omega
    rw [hstop]
    exact hconcat
  · rw [h.ctrl, ctrlOf, ctrlOf, List.flatMap_append, List.flatMap_singleton, hdifflen, hextralen,
      hk, hn]
  · rw [h.db, List.flatMap_append, List.flatMap_singleton]
  · rw [h.eb, List.flatMap_append, List.flatMap_singleton]
  · intro p hp
    rcases List.mem_append.mp hp with hp | hp
    · exact h.seeks p hp
    · rw [List.mem_singleton.mp hp]
      have hlastpos := h.lastpos_nonneg
      dsimp only
      omega
  · dsimp only
    omega
  · intro heq
    have := hend heq
    dsimp only
    omega

/-- Where the loop is, between two turns. -/
structure Bsdiff.Between (old new : List u8) (st : Bsdiff) (ps : List (Piece u8)) : Prop where
  wrote : st.Wrote old new ps
  lastscan_le : st.lastscan ≤ st.scan
  scan_le : st.scan ≤ new.length
  /-- What the last offset gives is a place of the old file. -/
  offset : 0 ≤ st.scan + st.lastoffset
  len : st.scan < new.length → 0 ≤ st.len ∧ st.scan + st.len ≤ new.length
  pos : st.scan < new.length → st.scan + st.len = new.length → 0 ≤ st.pos ∧ st.pos ≤ old.length
  ended : st.scan = new.length → st.lastscan = new.length

/-- **The loop comes to its end**, with pieces that give the whole file, at
most one for each turn. -/
theorem bsdiffLoop_spec (hI : Places I old) {fuel : ℕ} (h : st.Between old new ps)
    (hfuel : 1 ≤ fuel)
    (hmore : st.scan < new.length → new.length - (st.scan + st.len) + 2 ≤ fuel) :
    ∃ st' qs, bsdiffLoop I old new fuel st = some st' ∧ st'.Wrote old new (ps ++ qs) ∧
      st'.lastscan = new.length ∧ qs.length < fuel := by
  induction fuel generalizing st ps with
  | zero => omega
  | succ fuel ih =>
    have hscan := h.scan_le
    by_cases hlt : st.scan < new.length
    · obtain ⟨hlen, hfit⟩ := h.len hlt
      have hlast := h.wrote.lastscan_nonneg
      have hle := h.lastscan_le
      have hoff := h.offset
      have hmore' := hmore hlt
      obtain ⟨r, hr, hge, hrle, hrpos, hrposle, hrlen⟩ := scanLoop_spec hI 0 st.len
        (show 0 ≤ st.scan + st.len by omega) hfit
        (show 0 ≤ st.scan + st.len + st.lastoffset by omega)
        (show 0 ≤ st.scan + st.len by omega) (by omega) (by omega) (by omega) (h.pos hlt)
      set st₁ : Bsdiff := { st with scan := r.scan, len := r.len, pos := r.pos } with hst₁
      have hwrote₁ : st₁.Wrote old new ps :=
        ⟨h.wrote.lastscan_nonneg, h.wrote.lastpos_nonneg, h.wrote.lastpos_le, h.wrote.describes,
          h.wrote.ctrl, h.wrote.db, h.wrote.eb, h.wrote.seeks⟩
      by_cases hemit : r.len ≠ r.oldscore ∨ r.scan = new.length
      · obtain ⟨st₂, p, he, hwrote₂, hs₂, hl₂, hp₂, hlast₂, hoff₂, hend₂⟩ := hwrote₁.emit
          (show st.lastscan ≤ r.scan by omega) hrle hrpos hrposle
        have hbetween : st₂.Between old new (ps ++ [p]) := by
          have hs : st₂.scan = r.scan := hs₂
          have hoff' : st₂.lastoffset = r.pos - r.scan := hoff₂
          have hlast' : st₂.lastscan ≤ r.scan := hlast₂
          refine ⟨hwrote₂, ?_, ?_, ?_, ?_, ?_, ?_⟩
          · rw [hs]
            exact hlast'
          · rw [hs]
            exact hrle
          · rw [hoff', hs]
            omega
          · intro hlt'
            obtain ⟨hpos', hfit'⟩ := hrlen (by rw [hs₂] at hlt'; exact hlt')
            rw [hs₂, hl₂]
            exact ⟨hpos'.le, hfit'⟩
          · intro _ _
            rw [hp₂]
            exact ⟨hrpos, hrposle⟩
          · intro heq
            exact hend₂ (hs₂.symm.trans heq)
        obtain ⟨st', qs, hrun, hw, hdone, hcount⟩ := ih hbetween (by omega) (by
          intro hlt'
          rw [hs₂] at hlt' ⊢
          have := hrlen hlt'
          rw [hl₂]
          show new.length - (r.scan + r.len) + 2 ≤ (fuel : ℤ)
          omega)
        refine ⟨st', p :: qs, ?_, by rwa [List.append_assoc] at hw, hdone, ?_⟩
        · rw [bsdiffLoop, if_pos hlt]
          simp only [Option.bind_eq_bind, hr, Option.bind_some, if_pos hemit, ← hst₁, he]
          exact hrun
        · rw [List.length_cons]
          omega
      · -- nothing is written, and the match is passed over
        have hbetween : st₁.Between old new ps := by
          refine ⟨hwrote₁, ?_, hrle, ?_, ?_, fun _ _ => ⟨hrpos, hrposle⟩, ?_⟩
          · show st.lastscan ≤ r.scan
            omega
          · show 0 ≤ r.scan + st.lastoffset
            omega
          · intro hlt'
            have := hrlen hlt'
            exact ⟨this.1.le, this.2⟩
          · exact fun heq => absurd (Or.inr heq) hemit
        obtain ⟨st', qs, hrun, hw, hdone, hcount⟩ := ih hbetween (by omega) (by
          intro hlt'
          have := hrlen hlt'
          show new.length - (r.scan + r.len) + 2 ≤ (fuel : ℤ)
          omega)
        refine ⟨st', qs, ?_, hw, hdone, by omega⟩
        rw [bsdiffLoop, if_pos hlt]
        simp only [Option.bind_eq_bind, hr, Option.bind_some, if_neg hemit, ← hst₁]
        exact hrun
    · refine ⟨st, [], if_neg hlt, by rw [List.append_nil]; exact h.wrote, h.ended (by omega), ?_⟩
      exact Nat.succ_pos fuel

theorem Bsdiff.between_start (old new : List u8) (pos : ℤ) :
    (Bsdiff.start pos).Between old new [] where
  wrote := ⟨Int.le_refl 0, Int.le_refl 0, Int.natCast_nonneg _, ⟨rfl, rfl⟩, rfl, rfl, rfl,
    fun _ hp => absurd hp List.not_mem_nil⟩
  lastscan_le := Int.le_refl 0
  scan_le := Int.natCast_nonneg _
  offset := Int.le_refl 0
  len := fun _ => ⟨Int.le_refl 0, Int.natCast_nonneg _⟩
  pos := by
    intro hlt heq
    exact absurd heq (Int.ne_of_lt hlt)
  ended := id

theorem totalSize_eq (ps : List (Piece u8)) :
    totalSize ps = (ps.flatMap Piece.diff).length + (ps.flatMap Piece.extra).length := by
  induction ps with
  | nil => rfl
  | cons p ps ih =>
    rw [totalSize, ih, Piece.size, List.flatMap_cons, List.flatMap_cons, List.length_append,
      List.length_append]
    omega

/-- **What the loop writes**, with whatever places of the old file in the
array: in at most so many turns as the new file has bytes, and one more, it
comes to its end without a byte read beside a file. The two blocks together
have the length of the new file, and with the control block they give it. -/
theorem bsdiffLoop_describes (hI : Places I old) (new : List u8) (pos : ℤ) :
    ∃ st ps, bsdiffLoop I old new (new.length + 2) (Bsdiff.start pos) = some st ∧
      st.ctrl = ctrlOf ps ∧ st.db = ps.flatMap Piece.diff ∧ st.eb = ps.flatMap Piece.extra ∧
      rebuild old 0 ps = new ∧ st.db.length + st.eb.length = new.length ∧
      ps.length ≤ new.length + 1 ∧ ∀ p ∈ ps, p.seek.natAbs ≤ old.length := by
  obtain ⟨st, ps, hrun, hw, hdone, hcount⟩ :=
    bsdiffLoop_spec hI (Bsdiff.between_start old new pos) (show 1 ≤ new.length + 2 by omega) (by
      intro _
      show (new.length : ℤ) - (0 + 0) + 2 ≤ (new.length + 2 : ℕ)
      omega)
  rw [List.nil_append] at hw
  have hall : rebuild old 0 ps = new := by
    rw [hw.describes.rebuilt, hdone, Int.toNat_natCast, List.take_length]
  have hsize : totalSize ps = new.length := by rw [← length_rebuild, hall]
  refine ⟨st, ps, hrun, hw.ctrl, hw.db, hw.eb, hall, ?_, Nat.lt_succ_iff.mp hcount, hw.seeks⟩
  rw [hw.db, hw.eb, ← totalSize_eq, hsize]

theorem places_radare : Places [6, 1, 3, 2, 5, 0, 4] [114, 97, 100, 97, 114, 101] :=
  ⟨by decide, by decide⟩

theorem bsdiffLoop_describes_radare :
    ∃ st ps, bsdiffLoop [6, 1, 3, 2, 5, 0, 4] [114, 97, 100, 97, 114, 101]
        [114, 97, 115, 109] 6 (Bsdiff.start 0) = some st ∧
      st.ctrl = ctrlOf ps ∧ rebuild [114, 97, 100, 97, 114, 101] 0 ps = [114, 97, 115, 109] := by
  obtain ⟨st, ps, hrun, hctrl, -, -, hall, -⟩ :=
    bsdiffLoop_describes places_radare [114, 97, 115, 109] 0
  exact ⟨st, ps, hrun, hctrl, hall⟩

end Radare
