import Radare.Search.RangeDriver
import Radare.Search.FileDriver
/-!
# When the drivers feed the file

`search_range` feeds its range if the range is blocks through and through,
and `search_from_file` the rest of its file if, besides, the block of no
hit differs from the block searched behind it (`drivers_feed`). Either
feeds whole blocks: what is behind the end of a range goes to the
automaton too, and `0xff` behind the end of the file.
-/

namespace Radare

open Common

variable {f : Filter} {s : State} {tls : List TokenList} {file bytes : List u8} {start : ut64}
variable {i j k n bs : ℕ}

/-- A driver has a run that feeds these bytes, from a position on. -/
def Feeds (run : ℕ → Option Driver) (start : ut64) (bytes : List u8) : Prop :=
  ∃ fuel d, run fuel = some d ∧ d.fed = pairs start bytes

/-- The bytes of a file from one offset up to another. -/
def slice (file : List u8) (i j : ℕ) : List u8 := (file.drop i).take (j - i)

theorem slice_length (hj : j ≤ file.length) : (slice file i j).length = j - i := by
  unfold slice
  rw [List.length_take, List.length_drop]
  omega

theorem slice_getElem? (hj : j ≤ file.length) (hk : k < j - i) :
    (slice file i j)[k]? = some (file.getD (i + k) 0xff) := by
  have hlt : i + k < file.length := by omega
  unfold slice
  rw [List.getElem?_take_of_lt hk, List.getElem?_drop, List.getD_eq_getElem?_getD,
    List.getElem?_eq_getElem hlt]
  rfl

theorem slice_take (hk : k ≤ j - i) : (slice file i j).take k = slice file i (i + k) := by
  unfold slice
  rw [List.take_take, Nat.min_eq_left hk, Nat.add_sub_cancel_left]

/-- The blocks that hold some bytes, and whether they hold no more. -/
theorem exists_blocks (n : ℕ) (hbs : 0 < bs) :
    ∃ m, n ≤ m * bs ∧ m * bs < n + bs ∧ (m * bs = n ↔ bs ∣ n) := by
  have hle : n ≤ (n + bs - 1) / bs * bs := by
    have := Nat.lt_div_mul_add hbs (a := n + bs - 1)
    omega
  have hlt : (n + bs - 1) / bs * bs < n + bs := by
    have := Nat.div_mul_le_self (n + bs - 1) bs
    omega
  refine ⟨_, hle, hlt, fun h => ⟨_, by rw [Nat.mul_comm]; exact h.symm⟩, ?_⟩
  rintro ⟨q, rfl⟩
  rw [Nat.mul_comm bs q] at hle hlt ⊢
  have hq : q ≤ (q * bs + bs - 1) / bs := Nat.le_of_mul_le_mul_right hle hbs
  have hq' : (q * bs + bs - 1) / bs < q + 1 := by
    refine Nat.lt_of_mul_lt_mul_right (a := bs) ?_
    rwa [Nat.succ_mul]
  rw [Nat.le_antisymm (Nat.lt_succ_iff.mp hq') hq]

/-- **What a driver feeds is decided by what its loop gives.** -/
theorem feeds_iff {run : ℕ → Option Driver} {m : ℕ} {t : Bool} {bytes' : List u8}
    (h : ∀ fuel, Gives (run fuel) (decide (m < fuel) && t) fun d => d.fed = pairs start bytes') :
    Feeds run start bytes ↔ t = true ∧ bytes' = bytes := by
  constructor
  · rintro ⟨fuel, d, hrun, hfed⟩
    obtain ⟨ht, hfed'⟩ := (h fuel).of_eq_some hrun
    exact ⟨(Bool.and_eq_true_iff.mp ht).2, pairs_inj.mp (hfed'.symm.trans hfed)⟩
  · rintro ⟨rfl, rfl⟩
    obtain ⟨d, hrun, hfed⟩ := (h (m + 1)).some (by simp)
    exact ⟨m + 1, d, hrun, hfed⟩

/-- The seek back to where the search came from feeds nothing. -/
theorem feeds_map {run : ℕ → Option Driver} {g : Driver → Driver} (hg : ∀ d, (g d).fed = d.fed) :
    Feeds (fun fuel => (run fuel).map g) start bytes ↔ Feeds run start bytes := by
  constructor
  · rintro ⟨fuel, d, hrun, hfed⟩
    obtain ⟨d', hrun', rfl⟩ := Option.map_eq_some_iff.mp hrun
    exact ⟨fuel, d', hrun', (hg d').symm.trans hfed⟩
  · rintro ⟨fuel, d, hrun, hfed⟩
    exact ⟨fuel, g d, Option.map_eq_some_iff.mpr ⟨d, hrun, rfl⟩, (hg d).trans hfed⟩

/-! ## The condition on the input -/

/-- A range `search_range` feeds byte for byte: it has an end, `search.to`
at 0 being none; without keywords it has at most a byte; and with keywords
it is whole blocks, over which the automaton keeps inside its arrays. -/
structure WholeRange (f : Filter) (s : State) (tls : List TokenList) (from_ to_ : ut64) :
    Prop where
  ends : to_ ≠ 0
  noKeywords : tls = [] → to_.toNat ≤ from_.toNat + 1
  blocks : tls ≠ [] → s.config.block.length ∣ to_.toNat - from_.toNat
  defined : tls ≠ [] →
    (f.run tls from_ (slice s.file from_.toNat to_.toNat)).defined = true

/-- A file `search_from_file` feeds byte for byte from the seek on: the
same, and every byte behind a hit accepted in its block is the byte that
the block read at the hit has in its place. -/
structure WholeFile (f : Filter) (s : State) (tls : List TokenList) : Prop where
  noKeywords : tls = [] → s.file.length ≤ s.config.seek.toNat + 1
  blocks : tls ≠ [] → s.config.block.length ∣ s.file.length - s.config.seek.toNat
  defined : tls ≠ [] →
    (f.run tls s.config.seek (slice s.file s.config.seek.toNat s.file.length)).defined = true
  hits : tls ≠ [] → ∀ k < s.file.length - s.config.seek.toNat,
    let start := s.config.seek
    let i := k % s.config.block.length
    let block := f.run tls start (slice s.file start.toNat (start.toNat + (k - i)))
    let now := f.run tls start (slice s.file start.toNat (start.toNat + k))
    now.s.1 ≠ block.s.1 →
      s.file.getD (now.s.2.toNat + i) 0xff = s.file.getD (start.toNat + k) 0xff

theorem State.Opened.controlc (hs : s.Opened) : (radareControlc s).Opened :=
  ⟨hs.ioMaps, hs.vaddr, hs.debug, hs.size, hs.block, hs.most, hs.small⟩

/-- A search before its first byte. -/
theorem Driver.at_nil {d : Driver} (hprogram : d.s = s.load start start) (htls : d.tls = tls)
    (hnhit : d.nhit = 0) (hfed : d.fed = []) : d.At f s tls start start start [] :=
  ⟨hprogram, htls, hnhit, hfed, rfl⟩

/-! ## The range -/

/-- The search `search_range` starts its loop with. -/
def rangeStart (s : State) (tls : List TokenList) (from_ : ut64) : Driver :=
  ((⟨radareControlc s, tls, 0, []⟩ : Driver).setSeek from_).read false

theorem rangeStart_program (hs : s.Opened) {from_ : ut64} (hfrom : from_.toNat < 2 ^ 63) :
    (rangeStart s tls from_).s = (radareControlc s).load from_ from_ := by
  have hread := radareRead_eq (s := ((⟨radareControlc s, tls, 0, []⟩ : Driver).setSeek from_).s)
    hs.vaddr hs.ioMaps hs.most hfrom false rfl hfrom
  exact congrArg Prod.fst hread

theorem searchRange_feeds {nocase : Bool} {align count from_ to_ : ut64} :
    Feeds (fun fuel => searchRange nocase align count from_ to_ fuel s tls) start bytes ↔
      Feeds (fun fuel => rangeLoop ⟨nocase, asInt align, asInt count⟩
        (if to_ ≠ 0 then to_ else s.config.limit) fuel 1 (rangeStart s tls from_)) start bytes :=
  feeds_map fun _ => rfl

/-- The bytes fed over a range are the range's if they are as many. -/
theorem grow_fileNext_iff (n : ℕ) (from_ : ut64) (hj : j ≤ file.length) :
    grow (fileNext file from_) n [] = slice file from_.toNat j ↔ n = j - from_.toNat := by
  have hlen := slice_length (i := from_.toNat) hj
  rw [grow_nil_eq_iff, hlen, eq_comm (a := j - from_.toNat)]
  refine ⟨And.left, fun h => ⟨h, fun k hk => ?_⟩⟩
  rw [slice_getElem? hj (by omega), fileNext, List.length_take, hlen, Nat.min_eq_left (by omega)]

/-- One byte is a slice of one. -/
theorem singleton_eq_slice_iff (hi : i < j) (hj : j ≤ file.length) :
    [file.getD i 0xff] = slice file i j ↔ j ≤ i + 1 := by
  have hlen := slice_length (i := i) hj
  constructor
  · intro h
    have := congrArg List.length h
    rw [hlen, List.length_singleton] at this
    omega
  · intro h
    obtain rfl : j = i + 1 := by omega
    refine List.ext_getElem? fun k => ?_
    cases k with
    | zero =>
      rw [slice_getElem? hj (by omega)]
      rfl
    | succ k => rw [List.getElem?_eq_none (by simp), List.getElem?_eq_none (by omega)]

variable {from_ to_ : ut64}

/-- Without an end the loop is not left before its first byte. -/
theorem not_feeds_nil (hs : s.Opened) {limit : ut64} :
    ¬Feeds (fun fuel => rangeLoop f limit fuel 1 (rangeStart s tls 0)) 0 [] := by
  rintro ⟨fuel, d, hloop, hfed⟩
  refine rangeLoop_ne_nil hs.controlc rfl (rangeStart_program hs (by decide)) one_ne_zero ?_ hloop
    hfed
  rintro ⟨hne, hge⟩
  exact hne (UInt64.le_zero_iff.mp hge)

/-- Without keywords the loop ends behind its first byte. -/
theorem feeds_noKeywords_iff (hs : s.Opened) (hfrom : from_.toNat ≤ to_.toNat)
    (hto : to_.toNat ≤ s.file.length) (hne : to_ ≠ 0) :
    Feeds (fun fuel => rangeLoop f to_ fuel 1 (rangeStart s [] from_)) from_
        (slice s.file from_.toNat to_.toNat) ↔ to_.toNat ≤ from_.toNat + 1 := by
  have hsmall := hs.small
  have hprogram : (rangeStart s [] from_).s = _ := rangeStart_program hs (by omega)
  rcases Nat.lt_or_ge from_.toNat to_.toNat with hlt | hge
  · have hgo : ¬(to_ ≠ 0 ∧ from_ ≥ to_) := by
      rintro ⟨-, h⟩
      rw [ge_iff_le, UInt64.le_iff_toNat_le] at h
      omega
    have hbytes : pairs from_ [s.file.getD from_.toNat 0xff] =
        (rangeStart s [] from_).fed ++ [(s.file.getD from_.toNat 0xff, from_)] := by
      simp [pairs, rangeStart, Driver.read, Driver.setSeek]
    have hgives : ∀ fuel, Gives (rangeLoop f to_ fuel 1 (rangeStart s [] from_))
        (decide (1 < fuel) && true)
        fun d => d.fed = pairs from_ [s.file.getD from_.toNat 0xff] := fun fuel => by
      rw [Bool.and_true, hbytes]
      exact rangeLoop_nil hs.controlc rfl hprogram rfl one_ne_zero hgo (hfrom.trans hto)
    rw [feeds_iff hgives, singleton_eq_slice_iff hlt hto]
    exact and_iff_right rfl
  · -- nothing lies between the two, and the loop is left at once
    have hreached : to_ ≠ 0 ∧ from_ ≥ to_ := ⟨hne, UInt64.le_iff_toNat_le.mpr hge⟩
    have hnil : slice s.file from_.toNat to_.toNat = [] :=
      List.eq_nil_of_length_eq_zero (by rw [slice_length hto]; omega)
    refine iff_of_true ⟨1, rangeStart s [] from_, ?_, by rw [hnil]; rfl⟩ (by omega)
    dsimp only
    rw [rangeLoop_succ f to_ 0 1 hs.controlc rfl hprogram, if_pos hreached, ite_self]

/-- With keywords whole blocks are fed. -/
theorem feeds_keywords_iff (hs : s.Opened) (hrest : ∀ tk ∈ tls, tk.estat = 0) (htls : tls ≠ [])
    (hfrom : from_.toNat ≤ to_.toNat) (hto : to_.toNat ≤ s.file.length) (hne : to_ ≠ 0) :
    Feeds (fun fuel => rangeLoop f to_ fuel 1 (rangeStart s tls from_)) from_
        (slice s.file from_.toNat to_.toNat) ↔
      s.config.block.length ∣ to_.toNat - from_.toNat ∧
        (f.run tls from_ (slice s.file from_.toNat to_.toNat)).defined = true := by
  have hbs := hs.block
  have hsmall := hs.small
  obtain ⟨m, hle, hlt, hdvd⟩ := exists_blocks (to_.toNat - from_.toNat) hbs
  have hat : (rangeStart s tls from_).At f (radareControlc s) tls from_ from_ from_ [] :=
    Driver.at_nil (rangeStart_program hs (by omega)) rfl rfl rfl
  have hgives : ∀ fuel, Gives (rangeLoop f to_ fuel 1 (rangeStart s tls from_)) _ _ := fun fuel =>
    rangeLoop_gives hs.controlc rfl hrest htls hne hto hat (by simp) (fun _ => one_ne_zero) hle hlt
  rw [feeds_iff hgives]
  have hfed := grow_fileNext_iff (m * s.config.block.length) from_ hto
  rw [hdvd] at hfed
  constructor
  · rintro ⟨hdef, hbytes⟩
    exact ⟨hfed.mp hbytes, hbytes ▸ hdef⟩
  · rintro ⟨hblocks, hdef⟩
    have hbytes := hfed.mpr hblocks
    exact ⟨hbytes ▸ hdef, hbytes⟩

/-- **When `search_range` feeds its range.** -/
theorem searchRange_feeds_iff (nocase : Bool) (align count from_ to_ : ut64) (hs : s.Opened)
    (hrest : ∀ tk ∈ tls, tk.estat = 0) (hfrom : from_ ≤ to_) (hto : to_.toNat ≤ s.file.length) :
    Feeds (fun fuel => searchRange nocase align count from_ to_ fuel s tls) from_
        (slice s.file from_.toNat to_.toNat) ↔
      WholeRange ⟨nocase, asInt align, asInt count⟩ s tls from_ to_ := by
  rw [searchRange_feeds]
  generalize Filter.mk nocase (asInt align) (asInt count) = f
  by_cases hne : to_ ≠ 0
  · rw [if_pos hne]
    rw [UInt64.le_iff_toNat_le] at hfrom
    by_cases htls : tls = []
    · subst htls
      rw [feeds_noKeywords_iff hs hfrom hto hne]
      exact ⟨fun h => ⟨hne, fun _ => h, fun h => absurd rfl h, fun h => absurd rfl h⟩,
        fun h => h.noKeywords rfl⟩
    · rw [feeds_keywords_iff hs hrest htls hfrom hto hne]
      exact ⟨fun h => ⟨hne, fun h => absurd h htls, fun _ => h.1, fun _ => h.2⟩,
        fun h => ⟨h.blocks htls, h.defined htls⟩⟩
  · obtain rfl := not_not.mp hne
    obtain rfl := UInt64.le_zero_iff.mp hfrom
    exact iff_of_false (not_feeds_nil hs) fun h => h.ends rfl

/-! ## The file -/

/-- The search `search_from_file` starts its loop with. -/
def fileStart (s : State) (tls : List TokenList) : Driver :=
  (⟨radareControlc s, tls, 0, []⟩ : Driver).read false

theorem fileStart_program (hs : s.Opened) (hseek : s.config.seek.toNat < 2 ^ 63) :
    (fileStart s tls).s = (radareControlc s).load s.config.seek s.config.seek := by
  have hread := radareRead_eq (s := radareControlc s) hs.vaddr hs.ioMaps hs.most hseek false rfl hseek
  exact congrArg Prod.fst hread

theorem searchFromFile_feeds : Feeds (fun fuel => searchFromFile f fuel s tls) start bytes ↔
    Feeds (fun fuel => fileLoop f fuel (fileStart s tls)) start bytes :=
  feeds_map fun _ => rfl

/-- The byte a driver feeds next is the file's, unless a hit in its block
has another in its place. -/
theorem next_slice_iff (f : Filter) (bs : ℕ) (tls : List TokenList) (hsmall : file.length < 2 ^ 63)
    (hk : k < file.length - start.toNat) :
    (slice file start.toNat file.length)[k]? =
        some (f.next file bs tls start ((slice file start.toNat file.length).take k)) ↔
      ((f.run tls start (slice file start.toNat (start.toNat + k))).s.1 ≠
        (f.run tls start (slice file start.toNat (start.toNat + (k - k % bs)))).s.1 →
      file.getD ((f.run tls start (slice file start.toNat (start.toNat + k))).s.2.toNat + k % bs)
        0xff = file.getD (start.toNat + k) 0xff) := by
  have hlen : (slice file start.toNat (start.toNat + k)).length = k := by
    rw [slice_length (by omega), Nat.add_sub_cancel_left]
  have htake : (slice file start.toNat (start.toNat + k)).take (k - k % bs) =
      slice file start.toNat (start.toNat + (k - k % bs)) := slice_take (by omega)
  rw [slice_getElem? le_rfl hk, slice_take (by omega)]
  unfold Filter.next Filter.blockSrc
  rw [hlen, htake, Option.some_inj]
  split_ifs with hsame
  · have hmod : k % bs ≤ k := Nat.mod_le k bs
    have hplace : (start + UInt64.ofNat (k - k % bs)).toNat + k % bs = start.toNat + k := by
      rw [toNat_add_ofNat (by omega)]
      omega
    rw [hplace]
    exact iff_of_true rfl fun hne => absurd hsame hne
  · exact ⟨fun h _ => h.symm, fun h => (h hsame).symm⟩

/-- Without keywords the loop ends behind its first byte. -/
theorem file_feeds_noKeywords_iff (hs : s.Opened) (hseek : s.config.seek.toNat ≤ s.file.length) :
    Feeds (fun fuel => fileLoop f fuel (fileStart s [])) s.config.seek
        (slice s.file s.config.seek.toNat s.file.length) ↔
      s.file.length ≤ s.config.seek.toNat + 1 := by
  have hsmall := hs.small
  have hprogram : (fileStart s []).s = _ := fileStart_program hs (by omega)
  rcases Nat.lt_or_ge s.config.seek.toNat s.file.length with hlt | hge
  · have hbytes : pairs s.config.seek [s.file.getD s.config.seek.toNat 0xff] =
        (fileStart s []).fed ++ [(s.file.getD s.config.seek.toNat 0xff, s.config.seek)] := by
      simp [pairs, fileStart, Driver.read]
    have hgives : ∀ fuel, Gives (fileLoop f fuel (fileStart s [])) (decide (1 < fuel) && true)
        fun d => d.fed = pairs s.config.seek [s.file.getD s.config.seek.toNat 0xff] :=
      fun fuel => by
        rw [Bool.and_true, hbytes]
        exact fileLoop_nil hs.controlc rfl hprogram rfl hlt
    rw [feeds_iff hgives, singleton_eq_slice_iff hlt le_rfl]
    exact and_iff_right rfl
  · have hnil : slice s.file s.config.seek.toNat s.file.length = [] :=
      List.eq_nil_of_length_eq_zero (by rw [slice_length le_rfl]; omega)
    refine iff_of_true ⟨1, fileStart s [], ?_, by rw [hnil]; rfl⟩ (by omega)
    dsimp only
    rw [fileLoop_succ f 0 hs.controlc rfl hprogram]
    exact if_neg (not_lt.mpr hge)

/-- With keywords whole blocks are fed, from the hits' blocks behind a
hit. -/
theorem file_feeds_keywords_iff (hs : s.Opened) (hrest : ∀ tk ∈ tls, tk.estat = 0)
    (htls : tls ≠ []) (hseek : s.config.seek.toNat ≤ s.file.length) :
    Feeds (fun fuel => fileLoop f fuel (fileStart s tls)) s.config.seek
        (slice s.file s.config.seek.toNat s.file.length) ↔ WholeFile f s tls := by
  have hbs := hs.block
  have hsmall := hs.small
  obtain ⟨m, hle, hlt, hdvd⟩ := exists_blocks (s.file.length - s.config.seek.toNat) hbs
  have hat : (fileStart s tls).At f (radareControlc s) tls s.config.seek s.config.seek
    s.config.seek [] := Driver.at_nil (fileStart_program hs (by omega)) rfl rfl rfl
  have hgives : ∀ fuel, Gives (fileLoop f fuel (fileStart s tls)) _ _ := fun fuel =>
    fileLoop_gives hs.controlc rfl hrest htls hat (Nat.dvd_zero _) (by simp) hle hlt
  have hfed : grow (f.next s.file s.config.block.length tls s.config.seek)
      (m * s.config.block.length) [] = slice s.file s.config.seek.toNat s.file.length ↔ _ :=
    grow_nil_eq_iff
  rw [slice_length le_rfl, eq_comm (b := m * _)] at hfed
  have hnext : ∀ k < s.file.length - s.config.seek.toNat, _ ↔ _ := fun k hk =>
    next_slice_iff f s.config.block.length tls (by omega) hk
  rw [feeds_iff hgives]
  constructor
  · rintro ⟨hdef, hbytes⟩
    obtain ⟨hlen, hall⟩ := hfed.mp hbytes
    refine ⟨fun h => absurd h htls, fun _ => hdvd.mp hlen, fun _ => ?_, fun _ k hk => ?_⟩
    · exact hbytes ▸ hdef
    · exact (hnext k hk).mp (hall k (hlen ▸ hk))
  · intro h
    have hlen := hdvd.mpr (h.blocks htls)
    have hbytes := hfed.mpr
      ⟨hlen, fun k hk => (hnext k (hlen ▸ hk)).mpr (h.hits htls k (hlen ▸ hk))⟩
    refine ⟨?_, hbytes⟩
    have hdef := h.defined htls
    rw [← hbytes] at hdef
    exact hdef

/-- **When `search_from_file` feeds its file.** -/
theorem searchFromFile_feeds_iff (f : Filter) (hs : s.Opened) (hrest : ∀ tk ∈ tls, tk.estat = 0)
    (hseek : s.config.seek.toNat ≤ s.file.length) :
    Feeds (fun fuel => searchFromFile f fuel s tls) s.config.seek
        (slice s.file s.config.seek.toNat s.file.length) ↔ WholeFile f s tls := by
  rw [searchFromFile_feeds]
  by_cases htls : tls = []
  · subst htls
    rw [file_feeds_noKeywords_iff hs hseek]
    exact ⟨fun h => ⟨fun _ => h, fun h => absurd rfl h, fun h => absurd rfl h,
      fun h => absurd rfl h⟩, fun h => h.noKeywords rfl⟩
  · exact file_feeds_keywords_iff hs hrest htls hseek

/-- **When the drivers feed the automaton the file**, byte for byte and
nothing else: `search_range` its range, and `search_from_file` what is
behind the seek. -/
theorem drivers_feed (nocase : Bool) (align count from_ to_ : ut64) (f : Filter) (s : State)
    (tls : List TokenList) (hs : s.Opened) (hrest : ∀ tk ∈ tls, tk.estat = 0)
    (hfrom : from_ ≤ to_) (hto : to_.toNat ≤ s.file.length)
    (hseek : s.config.seek.toNat ≤ s.file.length) :
    (Feeds (fun fuel => searchRange nocase align count from_ to_ fuel s tls) from_
        (slice s.file from_.toNat to_.toNat) ↔
      WholeRange ⟨nocase, asInt align, asInt count⟩ s tls from_ to_) ∧
    (Feeds (fun fuel => searchFromFile f fuel s tls) s.config.seek
        (slice s.file s.config.seek.toNat s.file.length) ↔ WholeFile f s tls) :=
  ⟨searchRange_feeds_iff nocase align count from_ to_ hs hrest hfrom hto,
    searchFromFile_feeds_iff f hs hrest hseek⟩

/-- The keyword `ab` over `xabcab` in blocks of three, which end with its
hits. -/
theorem drivers_feed_xabcab :
    Feeds (fun fuel => searchRange false 0 0 0 6 fuel
        (openFile [0x78, 0x61, 0x62, 0x63, 0x61, 0x62] 3 0)
        [TokenList.ofTokens [⟨0x61, 0, 0xff⟩, ⟨0x62, 0, 0xff⟩]]) 0
      [0x78, 0x61, 0x62, 0x63, 0x61, 0x62] ∧
    Feeds (fun fuel => searchFromFile ⟨false, 0, 0⟩ fuel
        (openFile [0x78, 0x61, 0x62, 0x63, 0x61, 0x62] 3 0)
        [TokenList.ofTokens [⟨0x61, 0, 0xff⟩, ⟨0x62, 0, 0xff⟩]]) 0
      [0x78, 0x61, 0x62, 0x63, 0x61, 0x62] := by
  have h := drivers_feed false 0 0 0 6 ⟨false, 0, 0⟩
    (openFile [0x78, 0x61, 0x62, 0x63, 0x61, 0x62] 3 0)
    [TokenList.ofTokens [⟨0x61, 0, 0xff⟩, ⟨0x62, 0, 0xff⟩]]
    (openFile_opened (by decide) (by decide) (by decide)) (by simp [TokenList.ofTokens])
    (by decide) (by decide) (by decide)
  refine ⟨h.1.mpr ⟨by decide, fun h => (nomatch h), fun _ => by decide, fun _ => by decide⟩,
    h.2.mpr ⟨fun h => (nomatch h), fun _ => by decide, fun _ => by decide, fun _ => by decide⟩⟩

/-- **Bytes behind the end, and bytes of the hit**: in blocks of six,
`search_range` feeds the byte behind `[0, 5)` too, and behind the hit at 1
`search_from_file` feeds bytes of the block read there. -/
theorem drivers_feed_other_bytes :
    ¬ Feeds (fun fuel => searchRange false 0 0 0 5 fuel
        (openFile [0x78, 0x61, 0x62, 0x63, 0x61, 0x62] 6 0)
        [TokenList.ofTokens [⟨0x61, 0, 0xff⟩, ⟨0x62, 0, 0xff⟩]]) 0
      [0x78, 0x61, 0x62, 0x63, 0x61] ∧
    ¬ Feeds (fun fuel => searchFromFile ⟨false, 0, 0⟩ fuel
        (openFile [0x78, 0x61, 0x62, 0x63, 0x61, 0x62] 6 0)
        [TokenList.ofTokens [⟨0x61, 0, 0xff⟩, ⟨0x62, 0, 0xff⟩]]) 0
      [0x78, 0x61, 0x62, 0x63, 0x61, 0x62] := by
  have hs : (openFile [0x78, 0x61, 0x62, 0x63, 0x61, 0x62] 6 0).Opened :=
    openFile_opened (by decide) (by decide) (by decide)
  have hrest : ∀ tk ∈ [TokenList.ofTokens [⟨0x61, 0, 0xff⟩, ⟨0x62, 0, 0xff⟩]], tk.estat = 0 := by
    simp [TokenList.ofTokens]
  constructor
  · intro h
    have hwhole := (searchRange_feeds_iff false 0 0 0 5 hs hrest (by decide)
      (by decide)).mp h
    exact absurd (hwhole.blocks (by simp)) (by decide)
  · intro h
    have hwhole := (searchFromFile_feeds_iff ⟨false, 0, 0⟩ hs hrest (by decide)).mp h
    exact absurd (hwhole.hits (by simp) 3 (by decide)) (by decide)

end Radare
