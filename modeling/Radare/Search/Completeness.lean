import Radare.Search.Accepting
import Radare.Search.Soundness
/-!
# Matches that are hits

One keyword and a callback that accepts. The number climbs by one or
starts again, so a match is reported if and only if its first byte is the
first of a climb: the keyword was at rest before it, or past its end
(`reported_iff`). A mismatch spends the byte it is found at, and so a
match that begins inside a failed attempt is missed, as is one behind a
hit whose next byte has not brought the number back
(`match_inside_attempt_missed`).
-/

namespace Radare

open Common

variable {σ : Type} {nocase : Bool} {f : Callback σ} {s : σ} {tk : TokenList} {base : ut64}
variable {stream : List u8} {n m : ℕ} {c : u8}

/-- The keyword matches the stream from byte `n` on. -/
def Matches (nocase : Bool) (tk : TokenList) (stream : List u8) (n : ℕ) : Prop :=
  ∀ k < tk.numtok, ∃ c, stream[n + k]? = some c ∧ (tk.tl k).Accepts (fold nocase c)

/-- Before byte `n` the keyword is at rest or past its end, and the byte
passes the comparison. -/
def StartsAt (nocase : Bool) (f : Callback σ) (tk : TokenList) (s : σ) (base : ut64)
    (stream : List u8) (n : ℕ) : Prop :=
  ∃ c tk', stream[n]? = some c ∧
    (feed nocase (some f) [tk] s base (stream.take n)).tls[0]? = some tk' ∧
    (tk'.estat = 0 ∨ tk'.numtok < tk'.estat) ∧ tk'.compares (fold nocase c) = true

theorem TokenList.reached_take (h : stream[m]? = some c) :
    tk.reached nocase (stream.take (m + 1)) =
      tk.climb (tk.reached nocase (stream.take m)) (fold nocase c) := by
  rw [List.take_add_one, h, Option.toList_some, TokenList.reached_concat]

/-- The number grows where the comparison passes at it. -/
theorem TokenList.climb_eq_succ {e : ℕ} (he : e ≤ tk.numtok) :
    tk.climb e c = e + 1 ↔ (tk.tl e).Accepts c ∧ (tk.tl e).Fits := by
  have hiff : ({ tk with estat := e } : TokenList).compares c = true ↔ _ :=
    TokenList.compares_iff he
  rw [← hiff, TokenList.climb, TokenList.advance, TokenList.index_eq he]
  split_ifs with h
  · simp [h]
  · simp [h]

/-- It comes to 1 from rest, or from past the end. -/
theorem TokenList.climb_eq_one {e : ℕ} :
    tk.climb e c = 1 ↔
      (e = 0 ∨ tk.numtok < e) ∧ ({ tk with estat := e } : TokenList).compares c = true := by
  unfold TokenList.climb TokenList.advance TokenList.index
  dsimp only
  split_ifs with hc hlt
  · simp [hc, hlt]
  · simp only [hc, and_true]
    omega
  · simp [hc]

/-- **A climb that ends at `numtok` begins at the match.** -/
theorem reached_iff (hpos : 0 < tk.numtok) (hm : Matches nocase tk stream n) :
    tk.reached nocase (stream.take (n + tk.numtok)) = tk.numtok ↔
      (∀ k < tk.numtok, 0 < k → (tk.tl k).Fits) ∧
        tk.reached nocase (stream.take (n + 1)) = 1 := by
  have hlength := Occurs.le_length hm hpos
  constructor
  · intro hend
    have hup : ∀ k < tk.numtok, tk.reached nocase (stream.take (n + k + 1)) = k + 1 := by
      intro k hk
      have hsplit : stream.take (n + tk.numtok) =
          stream.take (n + k + 1) ++ (stream.drop (n + k + 1)).take (tk.numtok - (k + 1)) := by
        rw [← List.take_add]
        congr 1
        omega
      have hlen : ((stream.drop (n + k + 1)).take (tk.numtok - (k + 1))).length =
          tk.numtok - (k + 1) := by
        rw [List.length_take, List.length_drop]
        omega
      rw [hsplit, TokenList.reached, List.map_append] at hend
      refine climb_back tk.climbs (hend.trans ?_)
      rw [List.length_map, hlen]
      omega
    refine ⟨fun k hkn hk => ?_, by simpa using hup 0 hpos⟩
    obtain ⟨d, hd, -⟩ := hm k hkn
    have hprev := hup (k - 1) (by omega)
    have hnext := hup k hkn
    rw [show n + (k - 1) + 1 = n + k by omega, show k - 1 + 1 = k by omega] at hprev
    rw [TokenList.reached_take hd, hprev] at hnext
    exact ((TokenList.climb_eq_succ hkn.le).mp hnext).2
  · rintro ⟨hfit, hone⟩
    have hlen : ((stream.drop (n + 1)).take (tk.numtok - 1)).length = tk.numtok - 1 := by
      rw [List.length_take, List.length_drop]
      omega
    have hsplit : stream.take (n + tk.numtok) =
        stream.take (n + 1) ++ (stream.drop (n + 1)).take (tk.numtok - 1) := by
      rw [← List.take_add]
      congr 1
      omega
    rw [hsplit, TokenList.reached, List.map_append, climb_up hone, List.length_map, hlen]
    · omega
    · intro k d hd
      rw [List.getElem?_map] at hd
      obtain ⟨e, he, rfl⟩ := Option.map_eq_some_iff.mp hd
      have hk := (List.getElem?_eq_some_iff.mp he).1
      rw [hlen] at hk
      rw [List.getElem?_take_of_lt hk, List.getElem?_drop] at he
      obtain ⟨e', he', hacc⟩ := hm (k + 1) (by omega)
      rw [show n + (k + 1) = n + 1 + k by omega, he] at he'
      obtain rfl := Option.some.inj he'
      exact (TokenList.climb_eq_succ (by omega)).mpr ⟨hacc, hfit (k + 1) (by omega) (by omega)⟩

/-! ## The report -/

/-- Positions below `2 ^ 64` are told apart. -/
theorem TokenList.found_inj (hpos : 0 < tk.numtok) (hm : m + 1 ≤ 2 ^ 64)
    (hn : n + tk.numtok ≤ 2 ^ 64)
    (h : tk.found (base + UInt64.ofNat m) = base + UInt64.ofNat n) : m + 1 = n + tk.numtok := by
  have heq : UInt64.ofNat (m + 1) = UInt64.ofNat (n + tk.numtok) := by
    rw [UInt64.ofNat_add, UInt64.ofNat_add]
    change UInt64.ofNat m + 1 = _
    unfold TokenList.found at h
    grind
  have hmod := congrArg UInt64.toNat heq
  simp only [UInt64.toNat_ofNat'] at hmod
  omega

/-- **A match is reported where a climb begins at it**, and the keyword is
short enough for `actp`. -/
theorem reported_iff (hrest : tk.estat = 0) (hpos : 0 < tk.numtok)
    (hacc : ∀ s i p, (f s i p).2 = 0) (hlen : stream.length ≤ 2 ^ 64)
    (hm : Matches nocase tk stream n) :
    (0, base + UInt64.ofNat n) ∈ (feed nocase (some f) [tk] s base stream).calls ↔
      tk.numtok + 1 < actpSize ∧ (∀ k < tk.numtok, 0 < k → (tk.tl k).Fits) ∧
        StartsAt nocase f tk s base stream n := by
  have hin : n + tk.numtok ≤ stream.length := by
    obtain ⟨d, hd, -⟩ := hm (tk.numtok - 1) (by omega)
    have := (List.getElem?_eq_some_iff.mp hd).1
    omega
  obtain ⟨c, hc, -⟩ := hm 0 hpos
  rw [Nat.add_zero] at hc
  by_cases hsize : tk.numtok + 1 < actpSize
  · have hsizes : ∀ tk' ∈ [tk], tk'.numtok + 1 < actpSize := by simpa using hsize
    have hfirst : [tk][0]? = some tk := rfl
    have hrep : ∀ xs, (feed nocase (some f) [tk] s base xs).tls[0]? =
        some { tk with estat := tk.reached nocase xs } := fun xs =>
      (feed_reports xs hacc hsizes hfirst hrest).2.1
    have hstart : StartsAt nocase f tk s base stream n ↔
        tk.reached nocase (stream.take (n + 1)) = 1 := by
      rw [TokenList.reached_take hc, TokenList.climb_eq_one]
      constructor
      · rintro ⟨d, tk', hd, htk', hstart, hcmp⟩
        rw [hrep (stream.take n)] at htk'
        obtain rfl := Option.some.inj htk'
        obtain rfl := Option.some.inj (hc.symm.trans hd)
        exact ⟨hstart, hcmp⟩
      · rintro ⟨hstart, hcmp⟩
        exact ⟨c, _, hc, hrep (stream.take n), hstart, hcmp⟩
    rw [(feed_reports stream hacc hsizes hfirst hrest).2.2, hstart,
      ← reached_iff hpos hm]
    constructor
    · rintro ⟨i, hi, hr, hp⟩
      rw [← TokenList.found_inj hpos (by omega) (by omega) hp]
      exact ⟨hsize, hr⟩
    · rintro ⟨-, hr⟩
      refine ⟨n + tk.numtok - 1, by omega, ?_, TokenList.found_eq (by omega) base⟩
      rwa [show n + tk.numtok - 1 + 1 = n + tk.numtok by omega]
  · refine iff_of_false ?_ fun h => hsize h.1
    intro h
    obtain ⟨pre, d, tk', ⟨-, -, htk'⟩, hcalled, -⟩ := feed_calls h
    obtain ⟨tk'', htk'', -, hnum⟩ := feed_getElem? htk'
    obtain rfl := Option.some.inj htk''
    obtain ⟨hadv, hover⟩ := TokenList.calledFor_iff.mp hcalled
    simp [TokenList.overruns, TokenList.completes, hadv] at hover
    omega

/-- A match that no earlier report overlaps. -/
def Due (nocase : Bool) (f : Callback σ) (tk : TokenList) (s : σ) (base : ut64)
    (stream : List u8) (n : ℕ) : Prop :=
  Matches nocase tk stream n ∧
    ∀ m < n, (0, base + UInt64.ofNat m) ∈ (feed nocase (some f) [tk] s base stream).calls →
      m + tk.numtok ≤ n

/-- **The matches due are reported if and only if a climb begins at each
of them**: it is preceded by rest, or by a number past the end, and its
first byte passes the comparison; none of the tokens behind the first is
a range past the last byte; and there are at most 298 of them. -/
theorem feed_complete (nocase : Bool) (f : Callback σ) (tk : TokenList) (s : σ) (base : ut64)
    (stream : List u8) (hrest : tk.estat = 0) (hpos : 0 < tk.numtok)
    (hacc : ∀ s i p, (f s i p).2 = 0) (hlen : stream.length ≤ 2 ^ 64) :
    (∀ n, Due nocase f tk s base stream n →
        (0, base + UInt64.ofNat n) ∈ (feed nocase (some f) [tk] s base stream).calls) ↔
      ∀ n, Due nocase f tk s base stream n →
        tk.numtok + 1 < actpSize ∧ (∀ k < tk.numtok, 0 < k → (tk.tl k).Fits) ∧
          StartsAt nocase f tk s base stream n :=
  forall₂_congr fun _ hdue => reported_iff hrest hpos hacc hlen hdue.1

/-- The keyword `ab` in `xab`, where it is once. -/
theorem feed_complete_xab :
    Matches false (TokenList.ofTokens [⟨0x61, 0, 0xff⟩, ⟨0x62, 0, 0xff⟩]) [0x78, 0x61, 0x62] 1 ∧
      ∀ n, Due false acceptAll (TokenList.ofTokens [⟨0x61, 0, 0xff⟩, ⟨0x62, 0, 0xff⟩]) () 0
          [0x78, 0x61, 0x62] n →
        (0, 0 + UInt64.ofNat n) ∈ (feed false (some acceptAll)
          [TokenList.ofTokens [⟨0x61, 0, 0xff⟩, ⟨0x62, 0, 0xff⟩]] () 0 [0x78, 0x61, 0x62]).calls := by
  constructor
  · intro k hk
    match k, hk with
    | 0, _ => exact ⟨0x61, rfl, by decide⟩
    | 1, _ => exact ⟨0x62, rfl, by decide⟩
  refine (feed_complete false acceptAll _ () 0 _ rfl (by decide) (fun _ _ _ => rfl)
    (by decide)).mpr ?_
  rintro n ⟨hm, -⟩
  obtain ⟨c, hc, hacc⟩ := hm 0 (by decide)
  refine ⟨by decide, by decide, ?_⟩
  match n with
  | 0 =>
    obtain rfl := Option.some.inj hc
    exact absurd hacc (by decide)
  | 1 => exact ⟨0x61, _, rfl, rfl, by decide, by decide⟩
  | 2 =>
    obtain rfl := Option.some.inj hc
    exact absurd hacc (by decide)
  | n + 3 => simp at hc

/-- **A match inside a failed attempt**: `ab` in `aab`. The second `a`
ends the attempt of the first and begins none. -/
theorem match_inside_attempt_missed :
    ¬ ∀ n, Due false acceptAll (TokenList.ofTokens [⟨0x61, 0, 0xff⟩, ⟨0x62, 0, 0xff⟩]) () 0
        [0x61, 0x61, 0x62] n →
      (0, 0 + UInt64.ofNat n) ∈ (feed false (some acceptAll)
        [TokenList.ofTokens [⟨0x61, 0, 0xff⟩, ⟨0x62, 0, 0xff⟩]] () 0 [0x61, 0x61, 0x62]).calls := by
  intro h
  have hnone : (feed false (some acceptAll)
      [TokenList.ofTokens [⟨0x61, 0, 0xff⟩, ⟨0x62, 0, 0xff⟩]] () 0 [0x61, 0x61, 0x62]).calls = [] := by
    decide
  have hdue : Due false acceptAll (TokenList.ofTokens [⟨0x61, 0, 0xff⟩, ⟨0x62, 0, 0xff⟩]) () 0
      [0x61, 0x61, 0x62] 1 := by
    refine ⟨fun k hk => ?_, fun m _ hcall => by simp [hnone] at hcall⟩
    match k, hk with
    | 0, _ => exact ⟨0x61, rfl, by decide⟩
    | 1, _ => exact ⟨0x62, rfl, by decide⟩
  simpa [hnone] using h 1 hdue

end Radare
