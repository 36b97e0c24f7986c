import Radare.Common.Attempts
import Radare.Rio.Decode
import Radare.Search.Drivers
/-!
# Seeking to a keyword

`radare_seek_search` reads block behind block from the next offset on and
counts how much of the keyword it has; a byte that is not the next one
brings the count back to nothing and is spent. So it goes from attempt to
attempt over what `radare_read` gives (`State.stream`), which is the file
and `0xff` behind it (`stream_eq`). Its loop ends where an attempt is
completed in a block that is searched, or before the first block that is
not (`loopAt_sound`), and it ends if there is either (`loopAt_ends`).
-/

namespace Radare

open Common

variable {s t : State} {kw : List u8} {eseek limit off : ut64} {a i k n : ℕ}

/-! ## The function -/

/-- The array `kw` with the first 1023 bytes of an argument: `strncpy`
fills it up with NULs, and leaves its last byte as it is. -/
def copyKeyword (kw arg : List u8) : List u8 :=
  arg.take 1023 ++ List.replicate (1023 - arg.length) 0 ++ kw.drop 1023

/-- The keyword of a string search; without a NUL in the array `strlen`
leaves it. -/
def stringKeyword (kw arg : List u8) : Option (List u8) :=
  ((copyKeyword kw arg).findIdx? (· = 0)).map fun len => (copyKeyword kw arg).take len

/-- The keyword of a hexadecimal search. The array lies behind the
argument. -/
def hexKeyword (getMath : List u8 → ut64) (behind kw arg : List u8) : Option (List u8) :=
  let out := (arg ++ 0 :: behind).length
  (hexstr2binstr getMath (arg ++ 0 :: behind ++ copyKeyword kw arg) 0 out).map
    fun (len, mem) => (mem.drop out).take len

/-- The loop over a block from byte `i` on: the byte that completes the
keyword, or `kw_idx` behind the block. -/
def seekBlock (kw : List u8) : ℕ → ℕ → List u8 → ℕ ⊕ ℕ
  | _, idx, [] => .inr idx
  | i, idx, c :: block =>
    if c = kw.getD idx 0 then
      if idx + 1 = kw.length then .inl i else seekBlock kw (i + 1) (idx + 1) block
    else seekBlock kw (i + 1) 0 block

/-- The search loop, and whether it has found the keyword. -/
def seekLoop (kw : List u8) (eseek maxbytes : ut64) :
    ℕ → State → ℕ → ut64 → Option (State × Bool)
  | 0, _, _, _ => none
  | fuel + 1, s, idx, bytes =>
    if s.config.seek < eseek ∧ !s.config.interrupted then
      match seekBlock kw 0 idx s.config.block with
      | .inl i =>
        let off := s.config.seek + UInt64.ofNat i - UInt64.ofNat kw.length + 1
        some ((radareSeek s off .set).1, true)
      | .inr idx =>
        let s := (radareRead s true).1
        let bytes := bytes + UInt64.ofNat s.config.block.length
        if maxbytes ≠ 0 ∧ bytes > maxbytes then some (s, false)
        else seekLoop kw eseek maxbytes fuel s idx bytes
    else some (s, false)

/-- `config.seek = off`. -/
def State.setSeek (s : State) (off : ut64) : State :=
  { s with config := { s.config with seek := off } }

/-- The program with its seek on the next offset, and the block there. -/
def seekAhead (s : State) : State :=
  radareControlc (radareRead (s.setSeek (s.config.seek + 1)) false).1

/-- The search for a keyword: `maxbytes` is `search.limit`. -/
def seekWord (maxbytes eseek : ut64) (fuel : ℕ) (s : State) (kw : List u8) : Option (State × ℤ) :=
  if kw.length = 0 then some (s, 1)
  else (seekLoop kw eseek maxbytes fuel (seekAhead s) 0 0).map fun (t, found) =>
    (if found then t else (radareSeek t s.config.seek .set).1, 0)

/-- The end of the search; `to_` is `search.to`. -/
def State.searchEnd (s : State) (to_ : ut64) : ut64 := if to_ ≠ 0 then to_ else s.config.size

/-- `radare_seek_search`: the value returned. `kw` is what the array holds
before, and `behind` what lies between the argument and it. -/
def radareSeekSearch (getMath : List u8 → ut64) (behind kw : List u8) (maxbytes to_ : ut64)
    (fuel : ℕ) (s : State) (str : List u8) : Option (State × ℤ) :=
  match str with
  | [] => some (s, 1)
  | c :: arg =>
    if c = 32 then (stringKeyword kw arg).bind (seekWord maxbytes (s.searchEnd to_) fuel s)
    else if c = 120 then
      (hexKeyword getMath behind kw arg).bind (seekWord maxbytes (s.searchEnd to_) fuel s)
    else some (s, 1)

/-! ## Where the turns come to -/

/-- The program when the block with a number is to be searched. -/
def State.turn (s : State) : ℕ → State
  | 0 => seekAhead s
  | k + 1 => (radareRead (s.turn k) true).1

/-- The bytes in the blocks, one behind the other. -/
def State.stream (s : State) (n : ℕ) : u8 :=
  (s.turn (n / s.config.block.length)).config.block.getD (n % s.config.block.length) 0xff

/-- The file from the next offset on, and `0xff` behind it. -/
def State.ahead (s : State) (n : ℕ) : u8 := s.file.getD (s.config.seek.toNat + 1 + n) 0xff

/-- The bytes counted before a block are within the limit. -/
def State.Within (s : State) (maxbytes : ut64) (k : ℕ) : Prop :=
  k ≠ 0 → maxbytes ≠ 0 → UInt64.ofNat (k * s.config.block.length) ≤ maxbytes

/-- The loop goes on with a block: it is before the end, and within the
limit. -/
def State.GoesOn (s : State) (eseek maxbytes : ut64) (k : ℕ) : Prop :=
  (s.turn k).config.seek < eseek ∧ s.Within maxbytes k

/-- The block is searched, if the keyword is not found before. -/
def State.Searches (s : State) (eseek maxbytes : ut64) (k : ℕ) : Prop :=
  ∀ j ≤ k, s.GoesOn eseek maxbytes j

/-! ## The turns -/

theorem State.Opened.setSeek (hs : s.Opened) : (s.setSeek off).Opened :=
  ⟨hs.ioMaps, hs.vaddr, hs.debug, hs.size, hs.block, hs.most, hs.small⟩

theorem seekAhead_eq (hs : s.Opened) (hne : s.config.seek + 1 ≠ -1) :
    seekAhead s = radareControlc
      (radareSeek (s.setSeek (s.config.seek + 1)) (s.config.seek + 1) .set).1.fill :=
  congrArg (radareControlc ∘ Prod.fst)
    (radareRead_fill hs.setSeek.vaddr hs.setSeek.ioMaps hs.setSeek.most hne false rfl)

/-- Before the last offset but one the seek is turned back to 0. -/
theorem seekAhead_last (h : s.config.seek + 1 = -1) :
    seekAhead s = radareControlc (s.setSeek 0) := by
  have hseek : (s.setSeek (s.config.seek + 1)).config.seek = -1 := h
  unfold seekAhead radareRead
  dsimp only
  rw [if_pos hseek]
  rfl

theorem State.Moved.opened (hs : s.Opened) (h : (radareControlc s).Moved t) :
    t.config.vaddr = 0 ∧ t.ioMaps = [] ∧ t.config.block.length ≤ readMost :=
  ⟨(congrArg Core.vaddr h.core).trans hs.vaddr, (congrArg Core.ioMaps h.core).trans hs.ioMaps,
    h.block.trans_le hs.most⟩

theorem turn_zero (s : State) : s.turn 0 = seekAhead s := rfl

theorem seek_fill (s : State) : s.fill.config.seek = s.config.seek := rfl

theorem seek_radareControlc (s : State) : (radareControlc s).config.seek = s.config.seek := rfl

/-- **What the turns leave alone**, and that they are never at the last
offset. -/
theorem moved_turn (hs : s.Opened) (k : ℕ) :
    (radareControlc s).Moved (s.turn k) ∧ (s.turn k).config.seek ≠ -1 := by
  induction k with
  | zero =>
    rw [turn_zero]
    by_cases hne : s.config.seek + 1 = -1
    · have hzero : (0 : ut64) ≠ -1 := by decide
      rw [seekAhead_last hne]
      exact ⟨⟨rfl, rfl, rfl⟩, hzero⟩
    · have hv : (s.setSeek (s.config.seek + 1)).config.vaddr = 0 := hs.vaddr
      have hmoved : (s.setSeek (s.config.seek + 1)).Moved
          (radareSeek (s.setSeek (s.config.seek + 1)) (s.config.seek + 1) .set).1.fill :=
        (moved_radareSeek hv).trans moved_fill
      rw [seekAhead_eq hs hne]
      refine ⟨⟨hmoved.core, hmoved.block, rfl⟩, ?_⟩
      rw [seek_radareControlc, seek_fill, seek_plain hv, if_neg hne]
      exact hne
  | succ k ih =>
    obtain ⟨hmoved, hne⟩ := ih
    obtain ⟨hv, hm, hmost⟩ := hmoved.opened hs
    have hturn : s.turn (k + 1) = (radareSeek (s.turn k)
        ((s.turn k).config.seek + UInt64.ofNat (s.turn k).config.block.length) .set).1.fill :=
      congrArg Prod.fst (radareRead_fill hv hm hmost hne true rfl)
    rw [hturn]
    refine ⟨hmoved.trans ((moved_radareSeek hv).trans moved_fill), ?_⟩
    rw [seek_fill, seek_plain hv]
    split_ifs with h
    · exact hne
    · exact h

/-- A turn reads the next block. -/
theorem turn_succ (hs : s.Opened) (k : ℕ) :
    s.turn (k + 1) = (radareSeek (s.turn k)
      ((s.turn k).config.seek + UInt64.ofNat s.config.block.length) .set).1.fill := by
  obtain ⟨hmoved, hne⟩ := moved_turn hs k
  obtain ⟨hv, hm, hmost⟩ := hmoved.opened hs
  exact congrArg Prod.fst (radareRead_fill hv hm hmost hne true
    (congrArg (fun n => (s.turn k).config.seek + UInt64.ofNat n) hmoved.block.symm))

/-- **Where a turn has its seek**, as long as it does not come round. -/
theorem seek_turn (hs : s.Opened)
    (h : s.config.seek.toNat + 1 + k * s.config.block.length < 2 ^ 64 - 1) :
    (s.turn k).config.seek.toNat = s.config.seek.toNat + 1 + k * s.config.block.length := by
  induction k with
  | zero =>
    rw [Nat.zero_mul, Nat.add_zero] at h ⊢
    have hnext : (s.config.seek + 1).toNat = s.config.seek.toNat + 1 :=
      toNat_add_ofNat (p := s.config.seek) (n := 1) (by omega)
    have hne : s.config.seek + 1 ≠ -1 := ne_last (by omega)
    rw [turn_zero, seekAhead_eq hs hne, seek_radareControlc, seek_fill,
      seek_plain hs.setSeek.vaddr, if_neg hne, hnext]
  | succ k ih =>
    rw [Nat.succ_mul] at h ⊢
    have hprev := ih (by omega)
    have hnext : ((s.turn k).config.seek + UInt64.ofNat s.config.block.length).toNat =
        s.config.seek.toNat + 1 + (k * s.config.block.length + s.config.block.length) := by
      rw [toNat_add_ofNat (by omega)]
      omega
    have hne := ne_last (hnext.trans_lt h)
    rw [turn_succ hs, seek_fill, seek_plain ((moved_turn hs k).1.opened hs).1, if_neg hne, hnext]

/-- **The block of a turn**, and the descriptor behind the end of the file
where it does not follow any more. -/
theorem block_turn (hs : s.Opened) (hstart : s.config.seek.toNat + 1 < 2 ^ 63)
    (h : s.config.seek.toNat + 1 + k * s.config.block.length < 2 ^ 64 - 1) :
    (s.turn k).config.block = blockAt s.file
        (s.config.seek.toNat + 1 + k * s.config.block.length) s.config.block.length ∧
      (2 ^ 63 ≤ s.config.seek.toNat + 1 + k * s.config.block.length + s.config.block.length →
        s.file.length ≤ (s.turn k).pos) := by
  induction k with
  | zero =>
    rw [Nat.zero_mul, Nat.add_zero]
    have hnext : (s.config.seek + 1).toNat = s.config.seek.toNat + 1 :=
      toNat_add_ofNat (p := s.config.seek) (n := 1) (by omega)
    have hne : s.config.seek + 1 ≠ -1 := ne_last (by omega)
    have hfill := fill_radareSeek (s := s.setSeek (s.config.seek + 1)) hs.vaddr hs.small hne
      fun hge => absurd hge (by omega)
    rw [hnext] at hfill
    rw [turn_zero, seekAhead_eq hs hne]
    exact hfill
  | succ k ih =>
    rw [Nat.succ_mul] at h ⊢
    obtain ⟨-, hbehind⟩ := ih (by omega)
    have hseek := seek_turn hs (k := k) (by omega)
    obtain ⟨hmoved, -⟩ := moved_turn hs k
    have hfile : (s.turn k).file = s.file := congrArg Core.file hmoved.core
    have hlen : (s.turn k).config.block.length = s.config.block.length := hmoved.block
    have hnext : ((s.turn k).config.seek + UInt64.ofNat s.config.block.length).toNat =
        s.config.seek.toNat + 1 + (k * s.config.block.length + s.config.block.length) := by
      rw [toNat_add_ofNat (by omega)]
      omega
    have hne := ne_last (hnext.trans_lt h)
    have hfill := fill_radareSeek (s := s.turn k) (hmoved.opened hs).1
      (by rw [hfile, hlen]; exact hs.small) hne (by rw [hfile]; exact fun _ => hbehind (by omega))
    rw [hnext, hfile, hlen] at hfill
    rw [turn_succ hs]
    exact hfill

/-- **What is searched** is the file from the next offset on, and `0xff`
behind it. -/
theorem stream_eq (hs : s.Opened) (hstart : s.config.seek.toNat + 1 < 2 ^ 63)
    (h : s.config.seek.toNat + 1 + n < 2 ^ 64 - 1) : s.stream n = s.ahead n := by
  have hmod := Nat.mod_add_div' n s.config.block.length
  have hlt := Nat.mod_lt n hs.block
  obtain ⟨hblock, -⟩ := block_turn hs (k := n / s.config.block.length) hstart (by omega)
  unfold State.stream State.ahead
  rw [hblock, List.getD_eq_getElem?_getD, blockAt_getElem? hlt, Option.getD_some]
  congr 1
  omega

/-! ## The loop over a block -/

/-- What the loop over `n` bytes from a place of the text on comes to: an
attempt has the whole keyword, or one is under way. -/
def BlockEnds (kw : List u8) (text : ℕ → u8) (base n : ℕ) : ℕ ⊕ ℕ → Prop
  | .inl i => ∃ a, Whole kw text a ∧ a + kw.length = base + i + 1 ∧ i < n
  | .inr k => ∃ a, Trying kw text a k ∧ a + k = base + n

/-- **The attempts in a block.** -/
theorem seekBlock_ends {text : ℕ → u8} {block : List u8} {base : ℕ} (h : Trying kw text a k)
    (hplace : a + k = base + i) (hlen : i + block.length = n)
    (htext : ∀ j c, block[j]? = some c → text (base + i + j) = c) :
    BlockEnds kw text base n (seekBlock kw i k block) := by
  induction block generalizing i k a with
  | nil =>
    rw [List.length_nil] at hlen
    exact ⟨a, h, by omega⟩
  | cons c block ih =>
    rw [List.length_cons] at hlen
    have hc : text (a + k) = c := by
      rw [hplace]
      exact htext 0 c rfl
    have hrest : ∀ j d, block[j]? = some d → text (base + (i + 1) + j) = d := by
      intro j d hd
      have := htext (j + 1) d (by rwa [List.getElem?_cons_succ])
      rwa [show base + (i + 1) + j = base + i + (j + 1) by omega]
    have hkw : kw[k]? = some (kw.getD k 0) := by
      rw [List.getD_eq_getElem?_getD, List.getElem?_eq_getElem h.lt]
      rfl
    unfold seekBlock
    by_cases hsame : c = kw.getD k 0
    · have hk : kw[k]? = some (text (a + k)) := by rw [hkw, hc, hsame]
      rw [if_pos hsame]
      by_cases hlast : k + 1 = kw.length
      · rw [if_pos hlast]
        exact ⟨a, h.whole hk hlast, by omega, by omega⟩
      · have hlt := h.lt
        rw [if_neg hlast]
        exact ih (h.more hk (by omega)) (by omega) (by omega) hrest
    · have hk : kw[k]? ≠ some (text (a + k)) := by
        rw [hkw, hc]
        exact fun heq => hsame (Option.some.inj heq).symm
      rw [if_neg hsame]
      exact ih (h.anew hk) (by omega) (by omega) hrest

/-! ## The search loop -/

/-- An attempt has the whole keyword in a block that is searched. -/
def State.Finds (s : State) (kw : List u8) (eseek maxbytes : ut64) (a : ℕ) : Prop :=
  Whole kw s.stream a ∧
    s.Searches eseek maxbytes ((a + kw.length - 1) / s.config.block.length)

/-- Where the search goes then. -/
def State.found (s : State) (kw : List u8) (a : ℕ) : State :=
  let n := a + kw.length - 1
  let t := s.turn (n / s.config.block.length)
  (radareSeek t (t.config.seek + UInt64.ofNat (n % s.config.block.length) -
    UInt64.ofNat kw.length + 1) .set).1

theorem State.Finds.unique (ha : s.Finds kw eseek limit a) (hb : s.Finds kw eseek limit b) :
    a = b := ha.1.unique hb.1

/-- The search loop from a block on. -/
def State.loopAt (s : State) (kw : List u8) (eseek maxbytes : ut64) (k idx fuel : ℕ) :
    Option (State × Bool) :=
  seekLoop kw eseek maxbytes fuel (s.turn k) idx (UInt64.ofNat (k * s.config.block.length))

theorem loopAt_succ (hs : s.Opened) (fuel : ℕ) :
    s.loopAt kw eseek limit k i (fuel + 1) =
      if (s.turn k).config.seek < eseek then
        match seekBlock kw 0 i (s.turn k).config.block with
        | .inl i =>
          some ((radareSeek (s.turn k) ((s.turn k).config.seek + UInt64.ofNat i -
            UInt64.ofNat kw.length + 1) .set).1, true)
        | .inr i =>
          if limit ≠ 0 ∧ UInt64.ofNat ((k + 1) * s.config.block.length) > limit then
            some (s.turn (k + 1), false)
          else s.loopAt kw eseek limit (k + 1) i fuel
      else some (s.turn k, false) := by
  have hinterrupted : (s.turn k).config.interrupted = false := (moved_turn hs k).1.interrupted
  have hlen : (s.turn (k + 1)).config.block.length = s.config.block.length :=
    (moved_turn hs (k + 1)).1.block
  have hbytes : UInt64.ofNat (k * s.config.block.length) + UInt64.ofNat s.config.block.length =
      UInt64.ofNat ((k + 1) * s.config.block.length) := by
    rw [Nat.succ_mul, UInt64.ofNat_add]
  have hturn : (radareRead (s.turn k) true).1 = s.turn (k + 1) := rfl
  rw [State.loopAt, seekLoop]
  simp only [hinterrupted, hturn, hlen, hbytes, Bool.not_false, and_true]
  rfl

/-- The block of a turn is the stream's. -/
theorem stream_turn (hs : s.Opened) (j : ℕ) (c : u8)
    (hc : (s.turn k).config.block[j]? = some c) :
    s.stream (k * s.config.block.length + j) = c := by
  have hlt : j < s.config.block.length := by
    rw [← show (s.turn k).config.block.length = s.config.block.length from
      (moved_turn hs k).1.block]
    exact (List.getElem?_eq_some_iff.mp hc).1
  have hdiv : (k * s.config.block.length + j) / s.config.block.length = k := by
    rw [Nat.mul_comm, Nat.mul_add_div hs.block, Nat.div_eq_of_lt hlt, Nat.add_zero]
  have hmod : (k * s.config.block.length + j) % s.config.block.length = j := by
    rw [Nat.mul_comm, Nat.mul_add_mod, Nat.mod_eq_of_lt hlt]
  unfold State.stream
  rw [hdiv, hmod, List.getD_eq_getElem?_getD, hc]
  rfl

/-- A block searched. -/
theorem seekBlock_turn (hs : s.Opened) (h : Trying kw s.stream a i)
    (hplace : a + i = k * s.config.block.length) :
    BlockEnds kw s.stream (k * s.config.block.length) s.config.block.length
      (seekBlock kw 0 i (s.turn k).config.block) := by
  have hlen : (s.turn k).config.block.length = s.config.block.length := (moved_turn hs k).1.block
  refine seekBlock_ends h hplace (by rw [hlen, Nat.zero_add]) fun j c hc => ?_
  rw [Nat.add_zero]
  exact stream_turn hs j c hc

/-- Nothing is found if the loop does not go on with a block, and an
attempt is under way there. -/
theorem not_finds (hs : s.Opened) (h : Trying kw s.stream a i)
    (hplace : a + i = k * s.config.block.length) (hstop : ¬s.GoesOn eseek limit k) (b : ℕ) :
    ¬s.Finds kw eseek limit b := by
  rintro ⟨hwhole, hsearches⟩
  have hlt := h.lt_of_whole hwhole
  have hle : k ≤ (b + kw.length - 1) / s.config.block.length := by
    rw [Nat.le_div_iff_mul_le hs.block]
    omega
  exact hstop (hsearches k hle)

/-- **A turn of the loop**: it ends before the block, or with an attempt
completed in it, or behind it at the limit, or goes on. -/
theorem loopAt_turn (hs : s.Opened) (h : Trying kw s.stream a i)
    (hplace : a + i = k * s.config.block.length) (hlimit : s.Within limit k) :
    (¬s.GoesOn eseek limit k ∧
        ∀ fuel, s.loopAt kw eseek limit k i (fuel + 1) = some (s.turn k, false)) ∨
      (s.GoesOn eseek limit k ∧ ∃ b, Whole kw s.stream b ∧
        (b + kw.length - 1) / s.config.block.length = k ∧
        ∀ fuel, s.loopAt kw eseek limit k i (fuel + 1) = some (s.found kw b, true)) ∨
      (s.GoesOn eseek limit k ∧ ∃ b i', Trying kw s.stream b i' ∧
        b + i' = (k + 1) * s.config.block.length ∧
        ((¬s.GoesOn eseek limit (k + 1) ∧
            ∀ fuel, s.loopAt kw eseek limit k i (fuel + 1) = some (s.turn (k + 1), false)) ∨
          (s.Within limit (k + 1) ∧ ∀ fuel, s.loopAt kw eseek limit k i (fuel + 1) =
            s.loopAt kw eseek limit (k + 1) i' fuel))) := by
  by_cases hgo : (s.turn k).config.seek < eseek
  · have hends := seekBlock_turn hs h hplace
    have hsucc : ∀ fuel, s.loopAt kw eseek limit k i (fuel + 1) = _ := loopAt_succ hs
    simp only [if_pos hgo] at hsucc
    cases hblock : seekBlock kw 0 i (s.turn k).config.block with
    | inl i' =>
      rw [hblock] at hends
      simp only [hblock] at hsucc
      obtain ⟨b, hwhole, hb, hi'⟩ := hends
      have hn : b + kw.length - 1 = s.config.block.length * k + i' := by
        rw [Nat.mul_comm]
        omega
      have hdiv : (b + kw.length - 1) / s.config.block.length = k := by
        rw [hn, Nat.mul_add_div hs.block, Nat.div_eq_of_lt hi', Nat.add_zero]
      have hmod : (b + kw.length - 1) % s.config.block.length = i' := by
        rw [hn, Nat.mul_add_mod, Nat.mod_eq_of_lt hi']
      refine Or.inr (Or.inl ⟨⟨hgo, hlimit⟩, b, hwhole, hdiv, fun fuel => ?_⟩)
      unfold State.found
      dsimp only
      rw [hsucc, hdiv, hmod]
    | inr i' =>
      rw [hblock] at hends
      simp only [hblock] at hsucc
      obtain ⟨b, htrying, hb⟩ := hends
      refine Or.inr (Or.inr ⟨⟨hgo, hlimit⟩, b, i', htrying, by rw [hb, Nat.succ_mul], ?_⟩)
      by_cases hover : limit ≠ 0 ∧ UInt64.ofNat ((k + 1) * s.config.block.length) > limit
      · refine Or.inl ⟨fun hgoes => ?_, fun fuel => by rw [hsucc, if_pos hover]⟩
        exact absurd (hgoes.2 (Nat.succ_ne_zero k) hover.1) (not_le.mpr hover.2)
      · refine Or.inr ⟨fun _ hne => ?_, fun fuel => by rw [hsucc, if_neg hover]⟩
        exact not_lt.mp fun hlt => hover ⟨hne, hlt⟩
  · refine Or.inl ⟨fun hgoes => hgo hgoes.1, fun fuel => ?_⟩
    rw [loopAt_succ hs, if_neg hgo]

/-- **What the loop ends with** is what an attempt completed makes of it,
or the first block that is not searched. -/
theorem loopAt_sound (hs : s.Opened) {fuel : ℕ} {found : Bool} (h : Trying kw s.stream a i)
    (hplace : a + i = k * s.config.block.length) (hbefore : ∀ j < k, s.GoesOn eseek limit j)
    (hlimit : s.Within limit k) (hloop : s.loopAt kw eseek limit k i fuel = some (t, found)) :
    (found = true ∧ ∃ b, s.Finds kw eseek limit b ∧ t = s.found kw b) ∨
      (found = false ∧ (∀ b, ¬s.Finds kw eseek limit b) ∧
        ∃ j, ¬s.GoesOn eseek limit j ∧ t = s.turn j) := by
  induction fuel generalizing k a i with
  | zero => cases hloop
  | succ fuel ih =>
    have hsearches : s.GoesOn eseek limit k → s.Searches eseek limit k := by
      intro hgoes j hj
      rcases hj.lt_or_eq with hlt | rfl
      · exact hbefore j hlt
      · exact hgoes
    rcases loopAt_turn hs h hplace hlimit with ⟨hstop, hturn⟩ |
      ⟨hgoes, b, hwhole, hdiv, hturn⟩ | ⟨hgoes, b, i', htrying, hb, ⟨hstop, hturn⟩ | ⟨hlim, hturn⟩⟩
    all_goals rw [hturn] at hloop
    · obtain ⟨rfl, rfl⟩ := Prod.mk.inj (Option.some.inj hloop)
      exact Or.inr ⟨rfl, not_finds hs h hplace hstop, k, hstop, rfl⟩
    · obtain ⟨rfl, rfl⟩ := Prod.mk.inj (Option.some.inj hloop)
      refine Or.inl ⟨rfl, b, ⟨hwhole, ?_⟩, rfl⟩
      rw [hdiv]
      exact hsearches hgoes
    · obtain ⟨rfl, rfl⟩ := Prod.mk.inj (Option.some.inj hloop)
      exact Or.inr ⟨rfl, not_finds hs htrying hb hstop, k + 1, hstop, rfl⟩
    · exact ih htrying hb (fun j hj => hsearches hgoes j (Nat.lt_succ_iff.mp hj)) hlim hloop

/-- **The loop ends**, if it does not go on with some block or an attempt
is completed before. -/
theorem loopAt_ends (hs : s.Opened) (h : Trying kw s.stream a i)
    (hplace : a + i = k * s.config.block.length) (hlimit : s.Within limit k) {m : ℕ}
    (hend : ¬s.GoesOn eseek limit (k + m) ∨
      ∃ b, Whole kw s.stream b ∧ b + kw.length ≤ (k + m + 1) * s.config.block.length) :
    ∃ fuel r, s.loopAt kw eseek limit k i fuel = some r := by
  induction m generalizing k a i with
  | zero =>
    rcases loopAt_turn hs h hplace hlimit with ⟨-, hturn⟩ | ⟨-, b, -, -, hturn⟩ |
      ⟨hgoes, b, i', htrying, hb, -⟩
    · exact ⟨1, _, hturn 0⟩
    · exact ⟨1, _, hturn 0⟩
    · rcases hend with hstop | ⟨c, hwhole, hc⟩
      · exact absurd hgoes hstop
      · have := htrying.lt_of_whole hwhole
        rw [Nat.add_zero] at hc
        omega
  | succ m ih =>
    rcases loopAt_turn hs h hplace hlimit with ⟨-, hturn⟩ | ⟨-, b, -, -, hturn⟩ |
      ⟨-, b, i', htrying, hb, ⟨-, hturn⟩ | ⟨hlim, hturn⟩⟩
    · exact ⟨1, _, hturn 0⟩
    · exact ⟨1, _, hturn 0⟩
    · exact ⟨1, _, hturn 0⟩
    · have hnext : k + 1 + m = k + (m + 1) := by omega
      obtain ⟨fuel, r, hr⟩ := ih htrying hb hlim (by rwa [hnext])
      exact ⟨fuel + 1, r, (hturn fuel).trans hr⟩

end Radare
