import Radare.Search.Drivers
/-!
# The driver of a range

`search_range` reads its block anew after every hit, so the byte it feeds
next is always the file's (`rangeBlock_gives`). It feeds whole blocks up
to the first that starts at the limit or behind it (`rangeLoop_gives`).
-/

namespace Radare

open Common

variable {f : Filter} {s : State} {d d' : Driver} {tls : List TokenList} {bytes : List u8}
variable {start p : ut64} {i n : ℕ}

/-- The byte of the file behind those fed. -/
def fileNext (file : List u8) (start : ut64) (bytes : List u8) : u8 :=
  file.getD (start.toNat + bytes.length) 0xff

/-- **The rest of a block of a range**: the file's bytes, whatever is
hit. -/
theorem rangeBlock_gives (hs : s.Opened) (hint : s.config.interrupted = false)
    (hrest : ∀ tk ∈ tls, tk.estat = 0) (htls : tls ≠ []) (h : d.At f s tls start p p bytes)
    (hi : i + n ≤ s.config.block.length) (hp : p.toNat + i = start.toNat + bytes.length)
    (hsmall : start.toNat + bytes.length + n < 2 ^ 63) :
    Gives (rangeBlock f p i n d)
      (f.run tls start (grow (fileNext s.file start) n bytes)).defined
      (Driver.At f s tls start p p (grow (fileNext s.file start) n bytes)) := by
  induction n generalizing i d bytes with
  | zero => exact ⟨fun _ => ⟨d, rfl, h⟩, fun hdef => absurd (hdef.symm.trans h.defined) (by decide)⟩
  | succ n ih =>
    have hinterrupted : d.s.config.interrupted = false := by
      rw [h.program]
      exact hint
    unfold rangeBlock
    rw [hinterrupted, if_neg Bool.false_ne_true, grow_succ]
    have hc : s.file.getD (p.toNat + i) 0xff = fileNext s.file start bytes := by
      rw [fileNext, hp]
    refine (h.update hs hrest htls (by omega) hp (by omega) hc).bind ?_
      fun hdef => f.run_defined prefix_grow hdef
    rintro ⟨d', ret⟩ ⟨hd', -, hzero⟩
    have hlen : (bytes ++ [fileNext s.file start bytes]).length = bytes.length + 1 := by simp
    refine ih ?_ (by omega) (by rw [hlen]; omega) (by rw [hlen]; omega)
    -- the block read anew after a hit is the one left
    split_ifs with hret
    · exact hd'.reread hs (by omega)
    · rwa [hzero (not_not.mp hret)] at hd'

/-- A turn of the search loop. -/
theorem rangeLoop_succ (f : Filter) (limit : ut64) (fuel r : ℕ) (hs : s.Opened)
    (hint : s.config.interrupted = false) (h : d.s = s.load p p) :
    rangeLoop f limit (fuel + 1) r d =
      if r = 0 then some d
      else if limit ≠ 0 ∧ p ≥ limit then some d
      else (rangeBlock f p 0 s.config.block.length d).bind fun d =>
        rangeLoop f limit fuel (radareRead (d.setSeek p).s true).2 ((d.setSeek p).read true) := by
  have hinterrupted : d.s.config.interrupted = false := by
    rw [h]
    exact hint
  have hdebug : d.s.config.debug = false := by
    rw [h]
    exact hs.debug
  have hseek : d.s.config.seek = p := by
    rw [h]
    rfl
  have hblock : d.s.config.block.length = s.config.block.length := by
    rw [h]
    exact blockAt_length
  have hattached : ¬((false : Bool) = true ∧ p = 0xFFFFFFFF) := by
    rintro ⟨h, -⟩
    cases h
  rw [rangeLoop, hinterrupted, if_neg Bool.false_ne_true]
  dsimp only
  rw [hseek, hdebug, hblock, if_neg hattached]

/-- **The search loop of a range**, with `m` blocks to come. -/
theorem rangeLoop_gives (hs : s.Opened) (hint : s.config.interrupted = false)
    (hrest : ∀ tk ∈ tls, tk.estat = 0) (htls : tls ≠ []) {limit : ut64} (hlimit : limit ≠ 0)
    (hfile : limit.toNat ≤ s.file.length) {fuel r m : ℕ} (h : d.At f s tls start p p bytes)
    (hp : p.toNat = start.toNat + bytes.length) (hr : p < limit → r ≠ 0)
    (hle : limit.toNat - p.toNat ≤ m * s.config.block.length)
    (hlt : m * s.config.block.length < limit.toNat - p.toNat + s.config.block.length) :
    Gives (rangeLoop f limit fuel r d)
      (decide (m < fuel) && (f.run tls start
        (grow (fileNext s.file start) (m * s.config.block.length) bytes)).defined)
      fun d' => d'.fed = pairs start
        (grow (fileNext s.file start) (m * s.config.block.length) bytes) := by
  have hbs := hs.block
  have hsmall := hs.small
  induction fuel generalizing m d p r bytes with
  | zero => exact ⟨fun ht => absurd ht (by simp), fun _ => rfl⟩
  | succ fuel ih =>
    rw [rangeLoop_succ f limit fuel r hs hint h.program]
    cases m with
    | zero =>
      -- the limit is reached, or the end of the file
      have hreached : limit ≠ 0 ∧ p ≥ limit := ⟨hlimit, by
        rw [ge_iff_le, UInt64.le_iff_toNat_le]
        omega⟩
      rw [if_pos hreached, ite_self, Nat.zero_mul, grow_zero]
      exact ⟨fun _ => ⟨d, rfl, h.fed⟩, fun ht => absurd ht (by simp [h.defined])⟩
    | succ m =>
      have hbefore : p < limit := by
        rw [UInt64.lt_iff_toNat_lt]
        rw [Nat.succ_mul] at hlt
        omega
      have hgo : ¬(limit ≠ 0 ∧ p ≥ limit) := fun hstop => absurd hbefore (not_lt.mpr hstop.2)
      rw [UInt64.lt_iff_toNat_lt] at hbefore
      rw [if_neg (hr (UInt64.lt_iff_toNat_lt.mpr hbefore)), if_neg hgo]
      have hsplit : (m + 1) * s.config.block.length =
          s.config.block.length + m * s.config.block.length := by
        rw [Nat.succ_mul, Nat.add_comm]
      rw [hsplit] at hle hlt ⊢
      rw [grow_add]
      have hturn := rangeBlock_gives hs hint hrest htls h (i := 0) (n := s.config.block.length)
        (by omega) (by omega) (by omega)
      have htest : decide (m + 1 < fuel + 1) = decide (m < fuel) := by simp
      rw [htest]
      refine hturn.bind (fun d' hd' => ?_) fun ht =>
        f.run_defined prefix_grow (Bool.and_eq_true_iff.mp ht).2
      -- on to the next block
      have hnext : (p + UInt64.ofNat s.config.block.length).toNat =
          p.toNat + s.config.block.length := toNat_add_ofNat (by omega)
      obtain ⟨hat, hvalue⟩ := (hd'.setSeek p).readNext hs (by omega) rfl (by omega)
      refine ih hat ?_ ?_ ?_ ?_
      · rw [hnext, grow_length]
        omega
      · intro hlt'
        rw [UInt64.lt_iff_toNat_lt] at hlt'
        rw [hvalue, List.length_take, List.length_drop]
        omega
      · rw [hnext]
        omega
      · rw [hnext]
        omega

/-! ## Without keywords, and without an end -/

theorem rangeBlock_interrupted (h : d.s.config.interrupted = true) :
    rangeBlock f p i n d = some d := by
  cases n with
  | zero => rfl
  | succ n =>
    unfold rangeBlock
    rw [if_pos h]

/-- Without keywords one byte is fed, and the loop is left. -/
theorem rangeLoop_nil (hs : s.Opened) (hint : s.config.interrupted = false) {limit : ut64}
    {fuel r : ℕ} (h : d.s = s.load p p) (htls : d.tls = []) (hr : r ≠ 0)
    (hgo : ¬(limit ≠ 0 ∧ p ≥ limit)) (hp : p.toNat ≤ s.file.length) :
    Gives (rangeLoop f limit fuel r d) (decide (1 < fuel))
      fun d' => d'.fed = d.fed ++ [(s.file.getD p.toNat 0xff, p)] := by
  have hbs := hs.block
  have hsmall := hs.small
  cases fuel with
  | zero => exact ⟨fun ht => absurd ht (by simp), fun _ => rfl⟩
  | succ fuel =>
    obtain ⟨d', hupdate, hstopped⟩ := Driver.update_nil (f := f) hs h htls
    have hreread := hstopped.reread hs (by omega)
    have hturn : rangeBlock f p 0 s.config.block.length d = some ((d'.setSeek p).read false) := by
      have hinterrupted : d.s.config.interrupted = false := by
        rw [h]
        exact hint
      obtain ⟨k, hk⟩ := Nat.exists_eq_add_one.mpr hbs
      rw [hk]
      unfold rangeBlock
      rw [hinterrupted, if_neg Bool.false_ne_true, hupdate]
      exact rangeBlock_interrupted hreread.interrupted
    have hnext := hreread.setSeek.readNext hs (by omega) rfl
      ((toNat_add_ofNat (by omega)).trans_lt (by omega))
    rw [rangeLoop_succ f limit fuel r hs hint h, if_neg hr, if_neg hgo, hturn]
    cases fuel with
    | zero => exact ⟨fun ht => absurd ht (by simp), fun _ => rfl⟩
    | succ fuel =>
      have hleft : rangeLoop f limit (fuel + 1)
          (radareRead (((d'.setSeek p).read false).setSeek p).s true).2
          ((((d'.setSeek p).read false).setSeek p).read true) = some _ := if_pos hnext.interrupted
      exact ⟨fun _ => ⟨_, hleft, hnext.fed⟩, fun ht => absurd ht (by simp)⟩

/-- What is fed stays fed. -/
theorem Driver.update_fed {ret : ℤ} (h : d.update f i = some (d', ret)) :
    ∃ x, d'.fed = d.fed ++ [x] := by
  obtain ⟨v, -, heq⟩ := Option.map_eq_some_iff.mp h
  obtain ⟨rfl, -⟩ := Prod.mk.inj heq
  exact ⟨_, rfl⟩

theorem rangeBlock_fed (h : rangeBlock f p i n d = some d') : d.fed <+: d'.fed := by
  induction n generalizing i d with
  | zero =>
    obtain rfl := Option.some.inj h
    exact List.prefix_rfl
  | succ n ih =>
    unfold rangeBlock at h
    split_ifs at h
    · obtain rfl := Option.some.inj h
      exact List.prefix_rfl
    · obtain ⟨⟨d₁, ret⟩, hd₁, hrest⟩ := Option.bind_eq_some_iff.mp h
      obtain ⟨x, hx⟩ := Driver.update_fed hd₁
      have hfed : d₁.fed <+: d'.fed := by
        have := ih hrest
        split_ifs at this <;> exact this
      exact (hx ▸ List.prefix_append d.fed [x]).trans hfed

theorem rangeLoop_fed {limit : ut64} {fuel r : ℕ} (h : rangeLoop f limit fuel r d = some d') :
    d.fed <+: d'.fed := by
  induction fuel generalizing r d with
  | zero => cases h
  | succ fuel ih =>
    unfold rangeLoop at h
    dsimp only at h
    split_ifs at h
    -- the four ways to leave the loop, and a block
    case neg =>
      obtain ⟨d₁, hd₁, hrest⟩ := Option.bind_eq_some_iff.mp h
      have hmore : ((d₁.setSeek d.s.config.seek).read true).fed <+: d'.fed := ih hrest
      exact (rangeBlock_fed hd₁).trans hmore
    all_goals
      obtain rfl := Option.some.inj h
      exact List.prefix_rfl

/-- A loop that is not left at once feeds a byte. -/
theorem rangeLoop_ne_nil (hs : s.Opened) (hint : s.config.interrupted = false) {limit : ut64}
    {fuel r : ℕ} (hprogram : d.s = s.load p p) (hr : r ≠ 0) (hgo : ¬(limit ≠ 0 ∧ p ≥ limit))
    (h : rangeLoop f limit fuel r d = some d') : d'.fed ≠ [] := by
  have hbs := hs.block
  cases fuel with
  | zero => cases h
  | succ fuel =>
    obtain ⟨k, hk⟩ := Nat.exists_eq_add_one.mpr hbs
    rw [rangeLoop_succ f limit fuel r hs hint hprogram, if_neg hr, if_neg hgo, hk] at h
    obtain ⟨d₁, hd₁, hrest⟩ := Option.bind_eq_some_iff.mp h
    have hinterrupted : d.s.config.interrupted = false := by
      rw [hprogram]
      exact hint
    unfold rangeBlock at hd₁
    rw [hinterrupted, if_neg Bool.false_ne_true] at hd₁
    obtain ⟨⟨d₂, ret⟩, hd₂, hd₁⟩ := Option.bind_eq_some_iff.mp hd₁
    obtain ⟨x, hx⟩ := Driver.update_fed hd₂
    have hblock : d₂.fed <+: d₁.fed := by
      have := rangeBlock_fed hd₁
      split_ifs at this <;> exact this
    have hmore : ((d₁.setSeek p).read true).fed <+: d'.fed := rangeLoop_fed hrest
    have hfed : d₂.fed <+: d'.fed := hblock.trans hmore
    intro hnil
    rw [hnil, List.prefix_nil, hx] at hfed
    simp at hfed

end Radare
