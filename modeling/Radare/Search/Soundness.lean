import Radare.Search.Step
import Radare.Common.Window
import Mathlib.Tactic.IntervalCases
/-!
# Hits are matches

`estat` says how many tokens the last bytes match (`EndsIn`), and a byte
that a keyword does not see makes it say too much. `update_tlist` hides
the byte from every keyword behind one whose hit is accepted, and so the
hits are matches for as long as no hit is accepted: `feed_sound`.
-/

namespace Radare

open Common

variable {σ : Type} {tk : TokenList} {t : Token} {c : u8} {xs : List u8}

/-- What a token says of a byte: a value of its range, or its own byte
under the mask. -/
def Token.Accepts (t : Token) (c : u8) : Prop :=
  if t.range > 0 then t.mintok.toNat ≤ c.toNat ∧ c.toNat ≤ t.mintok.toNat + t.range.toNat
  else c &&& t.mask = t.mintok &&& t.mask

instance (t : Token) (c : u8) : Decidable (t.Accepts c) :=
  inferInstanceAs (Decidable (if t.range > 0 then
    t.mintok.toNat ≤ c.toNat ∧ c.toNat ≤ t.mintok.toNat + t.range.toNat
  else c &&& t.mask = t.mintok &&& t.mask))

/-- A token whose range stays inside a byte. -/
def Token.Fits (t : Token) : Prop := t.mintok.toNat + t.range.toNat < 256

instance (t : Token) : Decidable t.Fits := inferInstanceAs (Decidable (_ < _))

/-- The comparison is the token's, up to `numtok`, and fails on every
range that does not fit. -/
theorem TokenList.compares_iff (h : tk.estat ≤ tk.numtok) :
    tk.compares c = true ↔ (tk.tl tk.estat).Accepts c ∧ (tk.tl tk.estat).Fits := by
  unfold TokenList.compares
  rw [TokenList.index_eq h]
  generalize tk.tl tk.estat = t
  unfold Token.Accepts Token.Fits
  dsimp only
  have hmin := t.mintok.toNat_lt
  have hrange := t.range.toNat_lt
  have hc := c.toNat_lt
  split_ifs with hr
  · simp only [ge_iff_le, decide_eq_true_eq, UInt8.le_iff_toNat_le, UInt8.toNat_add]
    omega
  · simp only [gt_iff_lt, UInt8.lt_iff_toNat_lt, UInt8.toNat_zero] at hr
    simp only [decide_eq_true_eq]
    exact ⟨fun h => ⟨h, by omega⟩, And.left⟩

/-- The tests of a keyword, place by place. -/
def TokenList.tests (tk : TokenList) (k : ℕ) (c : u8) : Prop := (tk.tl k).Accepts c

/-- **What `estat` should say**: that many bytes, and not the whole
keyword. -/
structure TokenList.Tracks (nocase : Bool) (tk : TokenList) (xs : List u8) : Prop where
  lt : tk.estat < tk.numtok
  ends : EndsIn tk.tests tk.estat (xs.map (fold nocase))

variable {nocase : Bool}

/-- A byte that is compared keeps it. -/
theorem TokenList.Tracks.advance (h : tk.Tracks nocase xs) :
    EndsIn tk.tests (tk.advance (fold nocase c)) ((xs ++ [c]).map (fold nocase)) := by
  unfold TokenList.advance
  split_ifs with hc
  · rw [TokenList.index_eq h.lt.le, List.map_append]
    exact h.ends.concat ((TokenList.compares_iff h.lt.le).mp hc).1
  · exact EndsIn.zero

theorem TokenList.Tracks.passed (h : tk.Tracks nocase xs) :
    (tk.passed (fold nocase c)).Tracks nocase (xs ++ [c]) := by
  refine ⟨TokenList.passed_lt h.lt _, ?_⟩
  unfold TokenList.passed
  split_ifs with hc
  · exact EndsIn.zero
  · exact h.advance

/-- **A completed keyword occurs**, where the callback is told. -/
theorem TokenList.Tracks.found (h : tk.Tracks nocase xs) {base : ut64}
    (hc : tk.calledFor (fold nocase c) = true) :
    ∃ n, n + tk.numtok = (xs ++ [c]).length ∧
      tk.found (base + UInt64.ofNat xs.length) = base + UInt64.ofNat n ∧
      Occurs tk.tests tk.numtok ((xs ++ [c]).map (fold nocase)) n := by
  have hends := h.advance (c := c)
  rw [(TokenList.calledFor_iff.mp hc).1] at hends
  obtain ⟨n, hn, ho⟩ := hends
  rw [List.length_map] at hn
  rw [List.length_append, List.length_singleton] at hn
  exact ⟨n, by simpa using hn, TokenList.found_eq hn.symm base, ho⟩

/-- The hits are matches: from the position of each on the stream has
bytes that the tokens of its keyword accept, one by one. -/
def HitsMatch (nocase : Bool) (tls : List TokenList) (base : ut64) (stream : List u8)
    (hits : List (ℕ × ut64)) : Prop :=
  ∀ i p, (i, p) ∈ hits →
    ∃ tk n, tls[i]? = some tk ∧ p = base + UInt64.ofNat n ∧ n + tk.numtok ≤ stream.length ∧
      ∀ k < tk.numtok, ∃ c, stream[n + k]? = some c ∧ (tk.tl k).Accepts (fold nocase c)

/-- **Every hit is a match**, in every run in which no hit is accepted
before the last byte. -/
theorem feed_sound (nocase : Bool) (callback : Option (Callback σ)) (tls : List TokenList) (s : σ)
    (base : ut64) (stream : List u8)
    (hinit : ∀ tk ∈ tls, 0 < tk.numtok ∧ tk.estat = 0)
    (hquiet : Quiet nocase callback tls s base stream) :
    HitsMatch nocase tls base stream (feed nocase callback tls s base stream).calls := by
  intro i p hp
  obtain ⟨pre, c, tk, hreads, hc, rfl⟩ := feed_calls hp
  have htracks := hquiet.invariant (P := fun tk xs => tk.Tracks nocase xs)
    (fun tk htk => ⟨by have := hinit tk htk; omega, by rw [(hinit tk htk).2]; exact EndsIn.zero⟩)
    (fun tk xs c h => h.passed) pre c i tk hreads
  obtain ⟨⟨post, rfl⟩, hdef, htk⟩ := hreads
  obtain ⟨tk', htk', htl, hnum⟩ := feed_getElem? htk
  obtain ⟨n, hn, hpos, ho⟩ := htracks.found hc
  rw [hnum] at hn ho
  refine ⟨tk', n, htk', hpos, by simp at hn ⊢; omega, fun k hk => ?_⟩
  obtain ⟨d, hd, hacc⟩ := ho k hk
  rw [List.getElem?_map] at hd
  obtain ⟨e, he, rfl⟩ := Option.map_eq_some_iff.mp hd
  refine ⟨e, ?_, ?_⟩
  · have hlt := (List.getElem?_eq_some_iff.mp he).1
    rw [show pre ++ c :: post = (pre ++ [c]) ++ post by simp, List.getElem?_append_left hlt, he]
  · rwa [TokenList.tests, htl] at hacc

/-- The keyword `ab` in `xab`, its hit accepted. -/
theorem feed_sound_ab :
    HitsMatch false [TokenList.ofTokens [⟨0x61, 0, 0xff⟩, ⟨0x62, 0, 0xff⟩]] 0 [0x78, 0x61, 0x62]
      (feed false (some acceptAll) [TokenList.ofTokens [⟨0x61, 0, 0xff⟩, ⟨0x62, 0, 0xff⟩]] () 0
        [0x78, 0x61, 0x62]).calls := by
  refine feed_sound false (some acceptAll) _ () 0 _ (by simp [TokenList.ofTokens]) ?_
  intro pre c post heq hpost
  rcases pre with _ | ⟨_, _ | ⟨_, pre⟩⟩
  · obtain ⟨rfl, rfl⟩ := List.cons.inj heq
    exact trivial
  · simp only [List.cons_append, List.nil_append, List.cons.injEq] at heq
    obtain ⟨rfl, rfl, rfl⟩ := heq
    exact trivial
  · have := congrArg List.length heq
    have := List.length_pos_iff.mpr hpost
    simp at *
    omega

/-- **A hit that is no match**: the byte `a` completes the first keyword
and is hidden from the second, which takes `xay` for `xy` at `ay`. -/
theorem feed_unsound_behind_hit :
    ¬ HitsMatch false [TokenList.ofTokens [⟨0x61, 0, 0xff⟩],
        TokenList.ofTokens [⟨0x78, 0, 0xff⟩, ⟨0x79, 0, 0xff⟩]] 0 [0x78, 0x61, 0x79]
      (feed false (some acceptAll) [TokenList.ofTokens [⟨0x61, 0, 0xff⟩],
        TokenList.ofTokens [⟨0x78, 0, 0xff⟩, ⟨0x79, 0, 0xff⟩]] () 0 [0x78, 0x61, 0x79]).calls := by
  intro hsound
  obtain ⟨tk, n, htk, hp, hn, hacc⟩ := hsound 1 1 (by decide)
  obtain rfl := Option.some.inj htk
  have hle : n ≤ 1 := by simpa [TokenList.ofTokens] using hn
  interval_cases n
  · exact absurd hp (by decide)
  · obtain ⟨c, hc, ht⟩ := hacc 0 (by decide)
    obtain rfl := Option.some.inj hc
    exact absurd ht (by decide)

end Radare
