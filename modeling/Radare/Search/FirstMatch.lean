import Mathlib.Order.Bounds.Basic
import Radare.Rio.HexPairs
import Radare.Search.SeekSearch
/-!
# The first match ahead

`radare_seek_search` seeks to the first match behind the seek if and only
if an attempt begins there and its blocks are searched, or, where there is
no match, no attempt is completed (`radareSeekSearch_first_iff`). As long
as no offset comes round behind the last one this is said of the file
alone (`findsFirst_near_iff`).
-/

namespace Radare

open Common

variable {getMath : List u8 → ut64} {s t : State} {kw key behind str : List u8}
variable {eseek limit to_ off : ut64} {a k p : ℕ}

/-! ## Where the search ends -/

/-- A run of the search that ends with its seek at an offset. -/
def EndsAt (run : ℕ → Option (State × ℤ)) (off : ut64) : Prop :=
  ∃ fuel t ret, run fuel = some (t, ret) ∧ t.config.seek = off

theorem seekWord_eq (hpos : 0 < kw.length) (fuel : ℕ) :
    seekWord limit eseek fuel s kw =
      (s.loopAt kw eseek limit 0 0 fuel).map fun (t, found) =>
        (if found then t else (radareSeek t s.config.seek .set).1, 0) := by
  unfold seekWord State.loopAt
  rw [if_neg (by omega), Nat.zero_mul]
  rfl

/-- The start of the loop. -/
theorem within_zero : s.Within limit 0 := fun h => absurd rfl h

theorem loopAt_zero_sound (hs : s.Opened) (hpos : 0 < kw.length) {fuel : ℕ} {found : Bool}
    (hloop : s.loopAt kw eseek limit 0 0 fuel = some (t, found)) :
    (found = true ∧ ∃ b, s.Finds kw eseek limit b ∧ t = s.found kw b) ∨
      (found = false ∧ (∀ b, ¬s.Finds kw eseek limit b) ∧
        ∃ j, ¬s.GoesOn eseek limit j ∧ t = s.turn j) :=
  loopAt_sound hs (trying_zero hpos) (by omega) (fun j hj => absurd hj (Nat.not_lt_zero j))
    within_zero hloop

/-- **Where an attempt completed leads.** -/
theorem endsAt_iff_of_finds (hs : s.Opened) (hpos : 0 < kw.length)
    (ha : s.Finds kw eseek limit a) :
    EndsAt (fun fuel => seekWord limit eseek fuel s kw) off ↔ (s.found kw a).config.seek = off := by
  constructor
  · rintro ⟨fuel, t, ret, hrun, rfl⟩
    dsimp only at hrun
    rw [seekWord_eq hpos] at hrun
    obtain ⟨⟨t', found⟩, hloop, heq⟩ := Option.map_eq_some_iff.mp hrun
    rcases loopAt_zero_sound hs hpos hloop with ⟨rfl, b, hb, rfl⟩ | ⟨-, hnone, -⟩
    · obtain ⟨rfl, -⟩ := Prod.mk.inj heq
      rw [ha.unique hb, if_pos rfl]
    · exact absurd ha (hnone a)
  · rintro rfl
    have hend : a + kw.length ≤ (0 + (a + kw.length - 1) / s.config.block.length + 1) *
        s.config.block.length := by
      have := Nat.lt_div_mul_add hs.block (a := a + kw.length - 1)
      rw [Nat.zero_add, Nat.succ_mul]
      omega
    have hends : ∃ fuel r, s.loopAt kw eseek limit 0 0 fuel = some r :=
      loopAt_ends hs (trying_zero hpos) (by omega) within_zero (Or.inr ⟨a, ha.1, hend⟩)
    obtain ⟨fuel, ⟨t, found⟩, hloop⟩ := hends
    rcases loopAt_zero_sound hs hpos hloop with ⟨rfl, b, hb, rfl⟩ | ⟨-, hnone, -⟩
    · refine ⟨fuel, _, 0, ?_, rfl⟩
      dsimp only
      rw [seekWord_eq hpos, hloop, ha.unique hb]
      rfl
    · exact absurd ha (hnone a)

/-- **Where no attempt is completed** the seek is what it was, if the loop
ends. -/
theorem endsAt_iff_of_none (hs : s.Opened) (hpos : 0 < kw.length) (hne : s.config.seek ≠ -1)
    (hnone : ∀ a, ¬s.Finds kw eseek limit a) :
    EndsAt (fun fuel => seekWord limit eseek fuel s kw) off ↔
      (∃ j, ¬s.GoesOn eseek limit j) ∧ s.config.seek = off := by
  have hseek : ∀ j, (radareSeek (s.turn j) s.config.seek .set).1.config.seek = s.config.seek := by
    intro j
    rw [seek_plain ((moved_turn hs j).1.opened hs).1, if_neg hne]
  constructor
  · rintro ⟨fuel, t, ret, hrun, rfl⟩
    dsimp only at hrun
    rw [seekWord_eq hpos] at hrun
    obtain ⟨⟨t', found⟩, hloop, heq⟩ := Option.map_eq_some_iff.mp hrun
    rcases loopAt_zero_sound hs hpos hloop with ⟨-, b, hb, -⟩ | ⟨rfl, -, j, hstop, rfl⟩
    · exact absurd hb (hnone b)
    · obtain ⟨rfl, -⟩ := Prod.mk.inj heq
      exact ⟨⟨j, hstop⟩, (hseek j).symm⟩
  · rintro ⟨⟨j, hstop⟩, rfl⟩
    have hstop' : ¬s.GoesOn eseek limit (0 + j) := by rwa [Nat.zero_add]
    have hends : ∃ fuel r, s.loopAt kw eseek limit 0 0 fuel = some r :=
      loopAt_ends hs (trying_zero hpos) (by omega) within_zero (Or.inl hstop')
    obtain ⟨fuel, ⟨t, found⟩, hloop⟩ := hends
    rcases loopAt_zero_sound hs hpos hloop with ⟨-, b, hb, -⟩ | ⟨rfl, -, j', -, rfl⟩
    · exact absurd hb (hnone b)
    · refine ⟨fuel, _, 0, ?_, hseek j'⟩
      dsimp only
      rw [seekWord_eq hpos, hloop]
      rfl

/-- It never ends at the last offset. -/
theorem endsAt_ne_last (hs : s.Opened) (hpos : 0 < kw.length) :
    ¬EndsAt (fun fuel => seekWord limit eseek fuel s kw) (-1) := by
  have hseek : ∀ j x, (radareSeek (s.turn j) x .set).1.config.seek ≠ -1 := by
    intro j x
    rw [seek_plain ((moved_turn hs j).1.opened hs).1]
    split_ifs with hx
    · exact (moved_turn hs j).2
    · exact hx
  rintro ⟨fuel, t, ret, hrun, hlast⟩
  dsimp only at hrun
  rw [seekWord_eq hpos] at hrun
  obtain ⟨⟨t', found⟩, hloop, heq⟩ := Option.map_eq_some_iff.mp hrun
  obtain ⟨rfl, -⟩ := Prod.mk.inj heq
  rcases loopAt_zero_sound hs hpos hloop with ⟨rfl, b, -, rfl⟩ | ⟨rfl, -, j, -, rfl⟩
  · exact hseek _ _ hlast
  · exact hseek _ _ hlast

/-- An attempt that is completed before the offsets come round leads to
where it began. -/
theorem seek_found (hs : s.Opened) (hpos : 0 < kw.length)
    (h : s.config.seek.toNat + 1 + a + kw.length < 2 ^ 64) :
    (s.found kw a).config.seek.toNat = s.config.seek.toNat + 1 + a := by
  have hmod := Nat.mod_add_div' (a + kw.length - 1) s.config.block.length
  have hturn := seek_turn hs (k := (a + kw.length - 1) / s.config.block.length) (by omega)
  have hsum : ((s.turn ((a + kw.length - 1) / s.config.block.length)).config.seek +
      UInt64.ofNat ((a + kw.length - 1) % s.config.block.length)).toNat =
      s.config.seek.toNat + a + kw.length := by
    rw [toNat_add_ofNat (by omega)]
    omega
  have hoff : (s.turn ((a + kw.length - 1) / s.config.block.length)).config.seek +
      UInt64.ofNat ((a + kw.length - 1) % s.config.block.length) - UInt64.ofNat kw.length + 1 =
      UInt64.ofNat (s.config.seek.toNat + 1 + a) := by
    apply UInt64.toNat_inj.mp
    rw [UInt64.toNat_add, UInt64.toNat_sub, hsum]
    simp only [UInt64.toNat_ofNat', UInt64.toNat_one]
    omega
  have htoNat : (UInt64.ofNat (s.config.seek.toNat + 1 + a)).toNat =
      s.config.seek.toNat + 1 + a := by
    rw [UInt64.toNat_ofNat']
    omega
  unfold State.found
  dsimp only
  rw [hoff, seek_plain ((moved_turn hs _).1.opened hs).1, if_neg (ne_last (by omega)), htoNat]

/-! ## The keyword -/

/-- An argument that asks for a keyword: its characters, or digits that
make it. -/
def AsksFor (getMath : List u8 → ut64) (behind kw str key : List u8) : Prop :=
  (str = 32 :: key ∧ 0 ∉ key) ∨
    ∃ arg, str = 120 :: arg ∧ hexKeyword getMath behind kw arg = some key

/-- The characters leave room for a NUL in the array, or there is one
behind them. -/
def Ended (kw str key : List u8) : Prop :=
  str = 32 :: key → key.length < 1023 ∨ kw[1023]? = some 0

theorem findIdx?_nul (hnul : 0 ∉ key) (rest : List u8) :
    (key ++ 0 :: rest).findIdx? (· = 0) = some key.length := by
  have hnone : key.findIdx? (fun c => decide (c = 0)) = none :=
    List.findIdx?_eq_none_iff.mpr fun c hc => decide_eq_false fun h => hnul (h ▸ hc)
  rw [List.findIdx?_append, hnone, List.findIdx?_cons, if_pos (decide_eq_true rfl)]
  exact congrArg some (Nat.zero_add _)

/-- **The keyword of a string search** is the characters, if `strlen` finds
their end. -/
theorem stringKeyword_eq (hkw : kw.length = 1024) (hnul : 0 ∉ key) (hlen : key.length ≤ 1023) :
    stringKeyword kw key =
      if key.length < 1023 ∨ kw[1023]? = some 0 then some key else none := by
  have hlast : kw.drop 1023 = [kw[1023]] := by
    rw [List.drop_eq_getElem_cons (by omega), List.drop_of_length_le (by omega)]
  have hcopy : copyKeyword kw key =
      key ++ (List.replicate (1023 - key.length) (0 : u8) ++ [kw[1023]]) := by
    rw [copyKeyword, List.take_of_length_le hlen, hlast, List.append_assoc]
  have htake : ∀ rest, (key ++ rest).take key.length = key := fun rest =>
    (List.take_append_of_le_length le_rfl).trans List.take_length
  unfold stringKeyword
  rw [hcopy, List.getElem?_eq_getElem (by omega : 1023 < kw.length)]
  rcases Nat.lt_or_ge key.length 1023 with hlt | hge
  · obtain ⟨m, hm⟩ := Nat.exists_eq_add_of_lt hlt
    have hfill : 1023 - key.length = m + 1 := by omega
    rw [if_pos (Or.inl hlt), hfill, List.replicate_succ, List.cons_append, findIdx?_nul hnul]
    exact congrArg some (htake _)
  · have hfull : 1023 - key.length = 0 := by omega
    rw [hfull, List.replicate_zero, List.nil_append]
    by_cases hzero : kw[1023] = 0
    · rw [if_pos (Or.inr (congrArg some hzero)), hzero, findIdx?_nul hnul]
      exact congrArg some (htake _)
    · have hnone : (key ++ [kw[1023]]).findIdx? (fun c => decide (c = 0)) = none := by
        refine List.findIdx?_eq_none_iff.mpr fun c hc => decide_eq_false fun h => ?_
        rcases List.mem_append.mp hc with hc | hc
        · exact hnul (h ▸ hc)
        · exact hzero ((List.mem_singleton.mp hc).symm.trans h)
      have hneither : ¬(key.length < 1023 ∨ some kw[1023] = some 0) := by
        rintro (h | h)
        · omega
        · exact hzero (Option.some.inj h)
      rw [if_neg hneither, hnone]
      rfl

/-- Every keyword has an argument that asks for it, in pairs of digits. -/
theorem asksFor_hexPairs (hkw : kw.length = 1024) (hlen : key.length ≤ 1023) :
    AsksFor getMath behind kw (120 :: hexPairs key) key := by
  have hroom : key.length ≤ (copyKeyword kw (hexPairs key)).length := by
    unfold copyKeyword
    simp only [List.length_append, List.length_take, List.length_replicate, List.length_drop]
    omega
  obtain ⟨out, hrun, htake⟩ := hexstr2binstr_hexPairs getMath behind hroom
  refine Or.inr ⟨_, rfl, ?_⟩
  unfold hexKeyword
  dsimp only
  rw [hrun, Option.map_some, List.drop_left, htake]

/-- **What the search runs with.** -/
theorem radareSeekSearch_eq (s : State) (limit to_ : ut64) (hkw : kw.length = 1024)
    (hlen : key.length ≤ 1023) (hasks : AsksFor getMath behind kw str key) (fuel : ℕ) :
    (Ended kw str key → radareSeekSearch getMath behind kw limit to_ fuel s str =
        seekWord limit (s.searchEnd to_) fuel s key) ∧
      (¬Ended kw str key → radareSeekSearch getMath behind kw limit to_ fuel s str = none) := by
  rcases hasks with ⟨rfl, hnul⟩ | ⟨arg, rfl, hhex⟩
  · have hword := stringKeyword_eq hkw hnul hlen
    unfold radareSeekSearch
    dsimp only
    rw [if_pos rfl, hword]
    refine ⟨fun hended => ?_, fun hended => ?_⟩
    · rw [if_pos (hended rfl), Option.bind_some]
    · rw [if_neg fun h => hended fun _ => h, Option.bind_none]
  · refine ⟨fun _ => ?_, fun hended => absurd (fun h => ?_) hended⟩
    · have hne : (120 : u8) ≠ 32 := by decide
      unfold radareSeekSearch
      dsimp only
      rw [if_neg hne, if_pos rfl, hhex, Option.bind_some]
    · exact absurd (List.cons.inj h).1 (by decide)

/-! ## The first match -/

/-- The places behind an offset and below another at which the keyword is
in the file. -/
def matchesAhead (file key : List u8) (seek eseek : ut64) : Set ℕ :=
  {p | seek.toNat < p ∧ p < eseek.toNat ∧ key <+: file.drop p}

/-- A search that ends at the first match, or where it has begun if there
is none. -/
def FindsFirst (run : ℕ → Option (State × ℤ)) (s : State) (key : List u8) (eseek : ut64) : Prop :=
  (∀ p, IsLeast (matchesAhead s.file key s.config.seek eseek) p → EndsAt run (UInt64.ofNat p)) ∧
    (matchesAhead s.file key s.config.seek eseek = ∅ → EndsAt run s.config.seek)

/-- The offsets have come round before the keyword is found, and it is
found at this one. -/
def State.ComesRound (s : State) (key : List u8) (eseek maxbytes off : ut64) : Prop :=
  ∃ a, s.Finds key eseek maxbytes a ∧ 2 ^ 64 ≤ s.config.seek.toNat + 1 + a + key.length ∧
    (s.found key a).config.seek = off

/-- **The search ends at an offset ahead** if the attempt completed begins
there, or comes round to it. -/
theorem endsAt_ahead_iff (hs : s.Opened) (hpos : 0 < key.length) (hseek : s.config.seek.toNat < p)
    (hp : p + key.length < 2 ^ 64) :
    EndsAt (fun fuel => seekWord limit eseek fuel s key) (UInt64.ofNat p) ↔
      s.Finds key eseek limit (p - (s.config.seek.toNat + 1)) ∨
        s.ComesRound key eseek limit (UInt64.ofNat p) := by
  have htoNat : (UInt64.ofNat p).toNat = p := by
    rw [UInt64.toNat_ofNat']
    omega
  by_cases hfinds : ∃ a, s.Finds key eseek limit a
  · obtain ⟨a, ha⟩ := hfinds
    rw [endsAt_iff_of_finds hs hpos ha]
    by_cases hround : 2 ^ 64 ≤ s.config.seek.toNat + 1 + a + key.length
    · constructor
      · exact fun h => Or.inr ⟨a, ha, hround, h⟩
      · rintro (h | ⟨b, hb, -, h⟩)
        · have := ha.unique h
          omega
        · rwa [ha.unique hb]
    · have hfound := seek_found hs hpos (not_le.mp hround)
      have hiff : (s.found key a).config.seek = UInt64.ofNat p ↔
          a = p - (s.config.seek.toNat + 1) := by
        rw [← UInt64.toNat_inj, hfound, htoNat]
        omega
      rw [hiff]
      constructor
      · rintro rfl
        exact Or.inl ha
      · rintro (h | ⟨b, hb, hle, -⟩)
        · exact ha.unique h
        · rw [← ha.unique hb] at hle
          exact absurd hle hround
  · have hnone : ∀ a, ¬s.Finds key eseek limit a := fun a ha => hfinds ⟨a, ha⟩
    have hne : s.config.seek ≠ -1 := ne_last (by omega)
    rw [endsAt_iff_of_none hs hpos hne hnone]
    refine iff_of_false ?_ ?_
    · rintro ⟨-, h⟩
      rw [← UInt64.toNat_inj, htoNat] at h
      omega
    · rintro (h | ⟨b, hb, -⟩)
      · exact hnone _ h
      · exact hnone b hb

/-- **It is back where it began** if no attempt is completed, or one that
comes round to it. -/
theorem endsAt_back_iff (hs : s.Opened) (hpos : 0 < key.length) :
    EndsAt (fun fuel => seekWord limit eseek fuel s key) s.config.seek ↔
      s.config.seek ≠ -1 ∧
        ((∀ a, ¬s.Finds key eseek limit a) ∧ (∃ j, ¬s.GoesOn eseek limit j) ∨
          s.ComesRound key eseek limit s.config.seek) := by
  by_cases hlast : s.config.seek = -1
  · refine iff_of_false (fun h => ?_) fun h => h.1 hlast
    rw [hlast] at h
    exact endsAt_ne_last hs hpos h
  rw [and_iff_right hlast]
  by_cases hfinds : ∃ a, s.Finds key eseek limit a
  · obtain ⟨a, ha⟩ := hfinds
    rw [endsAt_iff_of_finds hs hpos ha]
    constructor
    · intro h
      refine Or.inr ⟨a, ha, ?_, h⟩
      by_contra hround
      have hfound := seek_found hs hpos (not_le.mp hround)
      rw [h] at hfound
      omega
    · rintro (⟨hnone, -⟩ | ⟨b, hb, -, h⟩)
      · exact absurd ha (hnone a)
      · rwa [ha.unique hb]
  · have hnone : ∀ a, ¬s.Finds key eseek limit a := fun a ha => hfinds ⟨a, ha⟩
    rw [endsAt_iff_of_none hs hpos hlast hnone, and_iff_left rfl]
    constructor
    · exact fun h => Or.inl ⟨hnone, h⟩
    · rintro (⟨-, h⟩ | ⟨b, hb, -⟩)
      · exact h
      · exact absurd hb (hnone b)

/-- At a match the keyword stands in the stream, and the attempts before
it are the file's. -/
theorem finds_iff (hs : s.Opened) (hpos : 0 < key.length)
    (hp : p ∈ matchesAhead s.file key s.config.seek eseek) :
    s.Finds key eseek limit (p - (s.config.seek.toNat + 1)) ↔
      Begins key s.ahead (p - (s.config.seek.toNat + 1)) ∧ s.Searches eseek limit
        ((p - (s.config.seek.toNat + 1) + key.length - 1) / s.config.block.length) := by
  obtain ⟨hseek, -, hmatch⟩ := hp
  have hsmall := hs.small
  have hfile : p + key.length ≤ s.file.length := by
    have := hmatch.length_le
    rw [List.length_drop] at this
    omega
  have hsame : ∀ j, s.config.seek.toNat + 1 + j < p + key.length → s.stream j = s.ahead j :=
    fun j hj => stream_eq hs (by omega) (by omega)
  have hstands : Stands key s.stream (p - (s.config.seek.toNat + 1)) key.length := by
    intro i hi
    have hplace : s.config.seek.toNat + 1 + (p - (s.config.seek.toNat + 1) + i) = p + i := by omega
    have hget : s.file[p + i]? = key[i]? := by
      obtain ⟨rest, hrest⟩ := hmatch
      rw [← List.getElem?_drop, ← hrest, List.getElem?_append_left hi]
    rw [hsame _ (by omega), State.ahead, hplace, List.getD_eq_getElem?_getD, hget,
      List.getElem?_eq_getElem hi]
    rfl
  constructor
  · rintro ⟨hwhole, hsearches⟩
    exact ⟨hwhole.begins.congr fun j hj => hsame j (by omega), hsearches⟩
  · rintro ⟨hbegins, hsearches⟩
    exact ⟨⟨hbegins.congr fun j hj => (hsame j (by omega)).symm, hstands⟩, hsearches⟩

/-- The search for the first match is the one for the keyword, if it is
read. -/
theorem findsFirst_iff (hkw : kw.length = 1024) (hlen : key.length ≤ 1023)
    (hasks : AsksFor getMath behind kw str key) :
    FindsFirst (fun fuel => radareSeekSearch getMath behind kw limit to_ fuel s str) s key eseek ↔
      Ended kw str key ∧
        FindsFirst (fun fuel => seekWord limit (s.searchEnd to_) fuel s key) s key eseek := by
  have heq := radareSeekSearch_eq s limit to_ hkw hlen hasks
  by_cases hended : Ended kw str key
  · rw [and_iff_right hended, funext fun fuel => (heq fuel).1 hended]
  · have hnever : ∀ off, ¬EndsAt
        (fun fuel => radareSeekSearch getMath behind kw limit to_ fuel s str) off := by
      rintro off ⟨fuel, t, ret, hrun, -⟩
      cases ((heq fuel).2 hended).symm.trans hrun
    refine iff_of_false (fun h => ?_) fun h => hended h.1
    rcases Set.eq_empty_or_nonempty (matchesAhead s.file key s.config.seek eseek) with
      hempty | hsome
    · exact hnever _ (h.2 hempty)
    · classical exact hnever _ (h.1 _ hsome.isLeast_natFind)

/-- A match ends below `2 ^ 63`. -/
theorem match_lt (hs : s.Opened) (hpos : 0 < key.length)
    (hp : p ∈ matchesAhead s.file key s.config.seek eseek) : p + key.length < 2 ^ 63 := by
  have hsmall := hs.small
  have hfile := hp.2.2.length_le
  rw [List.length_drop] at hfile
  omega

/-! ## In one round -/

/-- A block that is searched is before the end, where no offset comes
round. -/
theorem State.Searches.before (hs : s.Opened) (hstart : s.config.seek.toNat + 1 < 2 ^ 63)
    (hend : eseek.toNat + s.config.block.length < 2 ^ 64) (h : s.Searches eseek limit k) :
    s.config.seek.toNat + 1 + k * s.config.block.length < eseek.toNat := by
  induction k with
  | zero =>
    have hgo := (h 0 le_rfl).1
    rwa [UInt64.lt_iff_toNat_lt, seek_turn hs (by omega)] at hgo
  | succ k ih =>
    have hprev := ih fun j hj => h j (Nat.le_succ_of_le hj)
    have hgo := (h (k + 1) le_rfl).1
    rwa [UInt64.lt_iff_toNat_lt, seek_turn hs (by rw [Nat.succ_mul]; omega)] at hgo

/-- **The blocks that are searched**, in one round: those that start before
the end, as long as what is counted is within the limit. -/
theorem searches_iff (hs : s.Opened) (hstart : s.config.seek.toNat + 1 < 2 ^ 63)
    (hend : eseek.toNat + s.config.block.length < 2 ^ 64) :
    s.Searches eseek limit k ↔
      s.config.seek.toNat + 1 + k * s.config.block.length < eseek.toNat ∧
        ∀ j ≤ k, s.Within limit j := by
  constructor
  · exact fun h => ⟨h.before hs hstart hend, fun j hj => (h j hj).2⟩
  · rintro ⟨hbefore, hlimit⟩ j hj
    have hle := Nat.mul_le_mul_right s.config.block.length hj
    refine ⟨?_, hlimit j hj⟩
    rw [UInt64.lt_iff_toNat_lt, seek_turn hs (by omega)]
    omega

/-- So what is found ends at most a block behind the end. -/
theorem State.Searches.end_lt (hs : s.Opened) (hstart : s.config.seek.toNat + 1 < 2 ^ 63)
    (hend : eseek.toNat + s.config.block.length < 2 ^ 64)
    (h : s.Searches eseek limit ((a + kw.length - 1) / s.config.block.length)) :
    s.config.seek.toNat + 1 + a + kw.length < 2 ^ 64 := by
  have hbefore := h.before hs hstart hend
  have hlt := Nat.lt_div_mul_add hs.block (a := a + kw.length - 1)
  omega

theorem not_comesRound (hs : s.Opened) (hstart : s.config.seek.toNat + 1 < 2 ^ 63)
    (hend : eseek.toNat + s.config.block.length < 2 ^ 64) : ¬s.ComesRound kw eseek limit off := by
  rintro ⟨a, ⟨-, hsearches⟩, hround, -⟩
  exact absurd (hsearches.end_lt hs hstart hend) (not_lt.mpr hround)

theorem exists_not_goesOn (limit : ut64) (hs : s.Opened) (hstart : s.config.seek.toNat + 1 < 2 ^ 63)
    (hend : eseek.toNat + s.config.block.length < 2 ^ 64) : ∃ j, ¬s.GoesOn eseek limit j := by
  by_contra hall
  have hsearches : s.Searches eseek limit eseek.toNat :=
    fun j _ => not_not.mp fun hstop => hall ⟨j, hstop⟩
  have hbefore := hsearches.before hs hstart hend
  have hle := Nat.le_mul_of_pos_right eseek.toNat hs.block
  omega

/-- A byte ahead is in a block that starts before the end, and the bytes
counted before that block and the ones in front of it are within the limit. -/
def State.InReach (s : State) (eseek maxbytes : ut64) (n : ℕ) : Prop :=
  s.config.seek.toNat + 1 + n / s.config.block.length * s.config.block.length < eseek.toNat ∧
    ∀ j ≤ n / s.config.block.length, s.Within maxbytes j

/-- **In one round**: the attempts are those at the file, with `0xff` behind
it, in the blocks that start before the end. -/
theorem findsFirst_near_iff (hs : s.Opened) (hkw : kw.length = 1024)
    (hasks : AsksFor getMath behind kw str key) (hpos : 0 < key.length) (hlen : key.length ≤ 1023)
    (hstart : s.config.seek.toNat + 1 < 2 ^ 63)
    (hend : (s.searchEnd to_).toNat + s.config.block.length < 2 ^ 64 - 1) :
    FindsFirst (fun fuel => radareSeekSearch getMath behind kw limit to_ fuel s str) s key
        (s.searchEnd to_) ↔
      Ended kw str key ∧
        (∀ p, IsLeast (matchesAhead s.file key s.config.seek (s.searchEnd to_)) p →
          Begins key s.ahead (p - (s.config.seek.toNat + 1)) ∧
            s.InReach (s.searchEnd to_) limit (p - (s.config.seek.toNat + 1) + key.length - 1)) ∧
        (matchesAhead s.file key s.config.seek (s.searchEnd to_) = ∅ → ∀ a,
          Whole key s.ahead a → ¬s.InReach (s.searchEnd to_) limit (a + key.length - 1)) := by
  have hreach : ∀ n, s.Searches (s.searchEnd to_) limit (n / s.config.block.length) ↔
      s.InReach (s.searchEnd to_) limit n := fun n => searches_iff hs hstart (hend.trans (by omega))
  have hstop := exists_not_goesOn limit hs hstart (hend.trans (by omega))
  have hround : ∀ off, ¬s.ComesRound key (s.searchEnd to_) limit off := fun off =>
    not_comesRound hs hstart (hend.trans (by omega))
  rw [findsFirst_iff hkw hlen hasks]
  refine and_congr_right fun _ =>
    and_congr (forall₂_congr fun p hp => ?_) (imp_congr_right fun _ => ?_)
  · have hlt := match_lt hs hpos hp.1
    rw [endsAt_ahead_iff hs hpos hp.1.1 (by omega), finds_iff hs hpos hp.1, or_iff_left (hround _),
      hreach]
  · rw [endsAt_back_iff hs hpos, and_iff_right (ne_last (by omega)), or_iff_left (hround _),
      and_iff_left hstop]
    refine forall_congr' fun a => ?_
    rw [← hreach]
    have hsame : s.Searches (s.searchEnd to_) limit ((a + key.length - 1) / s.config.block.length) →
        ∀ j < a + key.length, s.stream j = s.ahead j := by
      intro hsearches j hj
      have hbefore := hsearches.before hs hstart (hend.trans (by omega))
      have hlt := Nat.lt_div_mul_add hs.block (a := a + key.length - 1)
      exact stream_eq hs hstart (by omega)
    constructor
    · exact fun h hwhole hsearches => h ⟨hwhole.congr fun j hj => (hsame hsearches j hj).symm,
        hsearches⟩
    · exact fun h ⟨hwhole, hsearches⟩ => h (hwhole.congr (hsame hsearches)) hsearches

/-! ## In any number of rounds -/

/-- **When the search finds the first match**: for all files, blocks,
seeks, limits and keywords, it ends at the first match, or where it was if
there is none, if and only if `strlen` finds the end of the keyword; an
attempt begins at the first match, and the blocks as far as its end are
searched; and without a match no attempt is completed in the blocks
searched, the loop ends, and the seek is one it can be set back to. (Where
the offsets come round behind the last one, it may also be found then.) -/
theorem radareSeekSearch_first_iff (hs : s.Opened) (hkw : kw.length = 1024)
    (hasks : AsksFor getMath behind kw str key) (hpos : 0 < key.length) (hlen : key.length ≤ 1023) :
    FindsFirst (fun fuel => radareSeekSearch getMath behind kw limit to_ fuel s str) s key
        (s.searchEnd to_) ↔
      Ended kw str key ∧
        (∀ p, IsLeast (matchesAhead s.file key s.config.seek (s.searchEnd to_)) p →
          Begins key s.ahead (p - (s.config.seek.toNat + 1)) ∧ s.Searches (s.searchEnd to_) limit
              ((p - (s.config.seek.toNat + 1) + key.length - 1) / s.config.block.length) ∨
            s.ComesRound key (s.searchEnd to_) limit (UInt64.ofNat p)) ∧
        (matchesAhead s.file key s.config.seek (s.searchEnd to_) = ∅ → s.config.seek ≠ -1 ∧
          ((∀ a, ¬s.Finds key (s.searchEnd to_) limit a) ∧
              (∃ j, ¬s.GoesOn (s.searchEnd to_) limit j) ∨
            s.ComesRound key (s.searchEnd to_) limit s.config.seek)) := by
  rw [findsFirst_iff hkw hlen hasks]
  refine and_congr_right fun _ =>
    and_congr (forall₂_congr fun p hp => ?_) (imp_congr_right fun _ => endsAt_back_iff hs hpos)
  have hlt := match_lt hs hpos hp.1
  rw [endsAt_ahead_iff hs hpos hp.1.1 (by omega), finds_iff hs hpos hp.1]

/-- The keyword `ab` in `xab`. -/
theorem first_match_found :
    FindsFirst (fun fuel => radareSeekSearch (fun _ => 0) [] (List.replicate 1024 0) 0 0 fuel
        (openFile [0x78, 0x61, 0x62] 4 1) [32, 0x61, 0x62])
      (openFile [0x78, 0x61, 0x62] 4 1) [0x61, 0x62]
      ((openFile [0x78, 0x61, 0x62] 4 1).searchEnd 0) := by
  have hs : (openFile [0x78, 0x61, 0x62] 4 1).Opened :=
    openFile_opened (by decide) (by decide) (by decide)
  have hin : 1 ∈ matchesAhead [0x78, 0x61, 0x62] [0x61, 0x62] 0 3 :=
    ⟨by decide, by decide, by decide⟩
  refine (radareSeekSearch_first_iff hs List.length_replicate (Or.inl ⟨rfl, by decide⟩)
    (by decide) (by decide)).mpr ⟨fun _ => Or.inl (by decide), fun p hp => Or.inl ?_, fun h => ?_⟩
  · have hfirst : p = 1 := le_antisymm (hp.2 hin) hp.1.1
    rw [hfirst]
    refine ⟨Relation.ReflTransGen.refl, fun j hj => ?_⟩
    obtain rfl : j = 0 := Nat.le_zero.mp hj
    exact ⟨by decide, fun h => absurd rfl h⟩
  · exact absurd (h ▸ hin) (Set.notMem_empty 1)

/-- **A match inside a failed attempt**: `ab` in `xaab`. The second `a` ends
the attempt of the first and begins none. -/
theorem match_inside_attempt_passed :
    ¬FindsFirst (fun fuel => radareSeekSearch (fun _ => 0) [] (List.replicate 1024 0) 0 0 fuel
        (openFile [0x78, 0x61, 0x61, 0x62] 4 1) [32, 0x61, 0x62])
      (openFile [0x78, 0x61, 0x61, 0x62] 4 1) [0x61, 0x62]
      ((openFile [0x78, 0x61, 0x61, 0x62] 4 1).searchEnd 0) := by
  have hs : (openFile [0x78, 0x61, 0x61, 0x62] 4 1).Opened :=
    openFile_opened (by decide) (by decide) (by decide)
  rw [findsFirst_near_iff hs List.length_replicate (Or.inl ⟨rfl, by decide⟩) (by decide)
    (by decide) (by decide) (by decide)]
  rintro ⟨-, hfirst, -⟩
  have hin : 2 ∈ matchesAhead [0x78, 0x61, 0x61, 0x62] [0x61, 0x62] 0 4 :=
    ⟨by decide, by decide, by decide⟩
  have hleast : IsLeast (matchesAhead [0x78, 0x61, 0x61, 0x62] [0x61, 0x62] 0 4) 2 := by
    refine ⟨hin, fun p hp => ?_⟩
    by_contra hlt
    obtain rfl : p = 1 := le_antisymm (Nat.lt_succ_iff.mp (not_le.mp hlt)) hp.1
    exact absurd hp.2.2 (by decide)
  -- the attempt at the first `a` has one byte, and another begins behind the next
  have hone : Stands [0x61, 0x62] (openFile [0x78, 0x61, 0x61, 0x62] 4 1).ahead 0 1 := by
    intro i hi
    obtain rfl : i = 0 := by omega
    rfl
  have hover := (Begins.lt_of_lt Relation.ReflTransGen.refl (hfirst 2 hleast).1 (by decide) hone).1
  exact absurd hover (by decide)

end Radare
