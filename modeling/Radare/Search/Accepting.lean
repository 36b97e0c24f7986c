import Radare.Search.Step
import Radare.Common.Window
/-!
# Callbacks that accept every hit

Then a keyword misses exactly the bytes that complete a keyword before it
(`Hidden`, `step_accept`), and otherwise counts on its own: by `climb`,
whose state is the number alone. No byte is hidden from the first keyword,
so `climb` says all that is reported for it (`feed_reports`).

What lies behind the tokens takes part: after a hit the number is
`numtok`, and after a hit and a byte like the memory there, one more.
-/

namespace Radare

open Common

variable {σ : Type} {nocase : Bool} {f : Callback σ} {s : σ} {i k : ℕ}
variable {tls : List TokenList} {tk tk' : TokenList} {c inchar : u8} {where_ p base : ut64}
variable {stream : List u8}

/-- A keyword before the `k`-th is completed by the byte. -/
def Hidden (tls : List TokenList) (inchar : u8) (k : ℕ) : Prop :=
  ∃ j < k, ∃ tk, tls[j]? = some tk ∧ tk.completes inchar = true

theorem not_hidden_zero : ¬ Hidden tls inchar 0 := by
  rintro ⟨j, hj, -⟩
  omega

theorem hidden_succ : Hidden (tk :: tls) inchar (k + 1) ↔
    tk.completes inchar = true ∨ Hidden tls inchar k := by
  constructor
  · rintro ⟨j, hj, tk', htk', hc⟩
    cases j with
    | zero => exact Or.inl (Option.some.inj htk' ▸ hc)
    | succ j => exact Or.inr ⟨j, by omega, tk', htk', hc⟩
  · rintro (hc | ⟨j, hj, tk', htk', hc⟩)
    · exact ⟨0, by omega, tk, rfl, hc⟩
    · exact ⟨j + 1, by omega, tk', htk', hc⟩

/-- The index is never beyond `numtok`. -/
theorem TokenList.index_le (tk : TokenList) : tk.index ≤ tk.numtok := by
  unfold TokenList.index
  split_ifs <;> omega

/-- So a keyword of at most 298 tokens never writes behind `actp`. -/
theorem TokenList.overruns_eq_false (h : tk.numtok + 1 < actpSize) (c : u8) :
    tk.overruns c = false := by
  have := tk.index_le
  simp only [TokenList.overruns, Bool.or_eq_false_iff, decide_eq_false_iff_not, not_and, not_le,
    ge_iff_le, Bool.decide_or]
  exact ⟨fun _ => by omega, fun _ => h⟩

theorem hit_accept (hacc : ∀ s i p, (f s i p).2 = 0) (s : σ) (i : ℕ) (p : ut64) :
    (hit (some f) s i p).accepted = true ∧ (hit (some f) s i p).calls = [(i, p)] := by
  simp [hit, hacc]

/-! ## One byte -/

/-- The first keyword's turn: the last one, or one that leaves no trace
in the calls. -/
theorem updateLoop_cons (hacc : ∀ s i p, (f s i p).2 = 0) (hsize : tk.numtok + 1 < actpSize)
    (tls : List TokenList) (inchar : u8) (where_ : ut64) (i : ℕ) (s : σ) :
    (tk.completes inchar = true →
      (updateLoop (some f) inchar where_ i s (tk :: tls)).ret = some 1 ∧
      (updateLoop (some f) inchar where_ i s (tk :: tls)).tls =
        { tk with estat := tk.advance inchar } :: tls ∧
      (updateLoop (some f) inchar where_ i s (tk :: tls)).calls = [(i, tk.found where_)]) ∧
    (tk.completes inchar = false →
      (updateLoop (some f) inchar where_ i s (tk :: tls)).ret =
        (updateLoop (some f) inchar where_ (i + 1) s tls).ret ∧
      (updateLoop (some f) inchar where_ i s (tk :: tls)).tls =
        { tk with estat := tk.advance inchar } ::
          (updateLoop (some f) inchar where_ (i + 1) s tls).tls ∧
      (updateLoop (some f) inchar where_ i s (tk :: tls)).calls =
        (updateLoop (some f) inchar where_ (i + 1) s tls).calls) := by
  have hov : ¬ tk.overruns inchar = true := by simp [TokenList.overruns_eq_false hsize]
  obtain ⟨hret, hcalls⟩ := hit_accept hacc s i (tk.found where_)
  constructor
  · intro hc
    simp [updateLoop, hov, hc, hret, hcalls]
  · intro hc
    simp [updateLoop, hov, hc, Update.after]

/-- No call of the loop from `i + 1` on is for `i`. -/
theorem not_mem_calls (tls : List TokenList) (callback : Option (Callback σ)) :
    (i, p) ∉ (updateLoop callback inchar where_ (i + 1) s tls).calls := by
  intro h
  obtain ⟨k, -, -, hk, -⟩ := updateLoop_calls tls (i + 1) s h
  omega

/-- **A keyword whose byte is hidden is left alone**, and one whose byte
is not is moved, and called for where that completes it. -/
theorem updateLoop_accept (hacc : ∀ s i p, (f s i p).2 = 0) (inchar : u8) (where_ : ut64) :
    ∀ (tls : List TokenList) (i : ℕ) (s : σ) (k : ℕ),
      (∀ tk ∈ tls, tk.numtok + 1 < actpSize) → tls[k]? = some tk →
      (Hidden tls inchar k → (updateLoop (some f) inchar where_ i s tls).tls[k]? = some tk ∧
        ∀ p, (i + k, p) ∉ (updateLoop (some f) inchar where_ i s tls).calls) ∧
      (¬ Hidden tls inchar k →
        (updateLoop (some f) inchar where_ i s tls).tls[k]? =
          some { tk with estat := tk.advance inchar } ∧
        ∀ p, (i + k, p) ∈ (updateLoop (some f) inchar where_ i s tls).calls ↔
          tk.completes inchar = true ∧ tk.found where_ = p) := by
  intro tls
  induction tls with
  | nil => intro i s k _ h; simp at h
  | cons tk₀ rest ih =>
    intro i s k hsize hk
    obtain ⟨hsize₀, hsize⟩ := List.forall_mem_cons.mp hsize
    obtain ⟨hstop, hgo⟩ := updateLoop_cons hacc hsize₀ rest inchar where_ i s
    cases hc : tk₀.completes inchar with
    | true =>
      obtain ⟨-, htls, hcalls⟩ := hstop hc
      rw [htls, hcalls]
      cases k with
      | zero =>
        obtain rfl := Option.some.inj hk
        refine ⟨fun h => absurd h not_hidden_zero, fun _ => ⟨rfl, fun p => ?_⟩⟩
        simp [hc, eq_comm]
      | succ k =>
        refine ⟨fun _ => ⟨hk, fun p => by simp⟩, fun h => ?_⟩
        exact absurd (hidden_succ.mpr (Or.inl hc)) h
    | false =>
      obtain ⟨-, htls, hcalls⟩ := hgo hc
      rw [htls, hcalls]
      cases k with
      | zero =>
        obtain rfl := Option.some.inj hk
        refine ⟨fun h => absurd h not_hidden_zero, fun _ => ⟨rfl, fun p => ?_⟩⟩
        simp [hc, not_mem_calls]
      | succ k =>
        have hhid : Hidden (tk₀ :: rest) inchar (k + 1) ↔ Hidden rest inchar k := by
          simp [hidden_succ, hc]
        rw [hhid, List.getElem?_cons_succ, show i + (k + 1) = i + 1 + k by omega]
        exact ih (i + 1) s k hsize hk

theorem updateLoop_ret_ne_none (hacc : ∀ s i p, (f s i p).2 = 0) (inchar : u8) (where_ : ut64) :
    ∀ (tls : List TokenList) (i : ℕ) (s : σ), (∀ tk ∈ tls, tk.numtok + 1 < actpSize) →
      (updateLoop (some f) inchar where_ i s tls).ret ≠ none := by
  intro tls
  induction tls with
  | nil => intro i s _; simp [updateLoop]
  | cons tk rest ih =>
    intro i s hsize
    obtain ⟨hsize₀, hsize⟩ := List.forall_mem_cons.mp hsize
    obtain ⟨hstop, hgo⟩ := updateLoop_cons hacc hsize₀ rest inchar where_ i s
    cases hc : tk.completes inchar with
    | true => rw [(hstop hc).1]; simp
    | false => rw [(hgo hc).1]; exact ih (i + 1) s hsize

/-- The same of a run that reads one byte more. -/
theorem step_accept {st : Search σ} (nocase : Bool) (c : u8) (where_ : ut64)
    (hacc : ∀ s i p, (f s i p).2 = 0)
    (hsize : ∀ tk ∈ st.tls, tk.numtok + 1 < actpSize) (hdef : st.defined = true)
    (hk : st.tls[i]? = some tk) :
    (st.step nocase (some f) c where_).defined = true ∧
      (Hidden st.tls (fold nocase c) i →
        (st.step nocase (some f) c where_).tls[i]? = some tk ∧
        ∀ p, (i, p) ∈ (st.step nocase (some f) c where_).calls ↔ (i, p) ∈ st.calls) ∧
      (¬ Hidden st.tls (fold nocase c) i →
        (st.step nocase (some f) c where_).tls[i]? =
          some { tk with estat := tk.advance (fold nocase c) } ∧
        ∀ p, (i, p) ∈ (st.step nocase (some f) c where_).calls ↔
          (i, p) ∈ st.calls ∨ tk.completes (fold nocase c) = true ∧ tk.found where_ = p) := by
  have hne : st.tls ≠ [] := by
    intro h
    simp [h] at hk
  have hret := updateLoop_ret_ne_none hacc (fold nocase c) where_ st.tls 0 st.s hsize
  obtain ⟨hhid, hseen⟩ := updateLoop_accept hacc (fold nocase c) where_ st.tls 0 st.s i hsize hk
  rw [Nat.zero_add] at hhid hseen
  unfold Search.step updateTlist
  rw [if_pos hdef, if_neg hne]
  refine ⟨Option.isSome_iff_ne_none.mpr hret, fun h => ?_, fun h => ?_⟩
  · refine ⟨(hhid h).1, fun p => ?_⟩
    rw [List.mem_append]
    simp [(hhid h).2 p]
  · refine ⟨(hseen h).1, fun p => ?_⟩
    rw [List.mem_append, (hseen h).2 p]

/-- A byte that leaves the keyword at rest does so hidden or not. -/
theorem step_rest {st : Search σ} (nocase : Bool) (c : u8) (where_ : ut64)
    (hacc : ∀ s i p, (f s i p).2 = 0)
    (hsize : ∀ tk ∈ st.tls, tk.numtok + 1 < actpSize) (hdef : st.defined = true)
    (hk : st.tls[i]? = some tk) (hpos : 0 < tk.numtok) (hrest : tk.estat = 0)
    (hno : tk.compares (fold nocase c) = false) :
    (st.step nocase (some f) c where_).tls[i]? = some tk ∧
      ∀ p, (i, p) ∈ (st.step nocase (some f) c where_).calls ↔ (i, p) ∈ st.calls := by
  obtain ⟨-, hhid, hseen⟩ := step_accept nocase c where_ hacc hsize hdef hk
  by_cases hh : Hidden st.tls (fold nocase c) i
  · exact hhid hh
  · have hadv : tk.advance (fold nocase c) = 0 := by
      rw [TokenList.advance, hno]
      rfl
    obtain ⟨htls, hcalls⟩ := hseen hh
    refine ⟨?_, fun p => ?_⟩
    · rw [htls, hadv, ← hrest]
    · rw [hcalls p]
      simp [TokenList.completes, hadv, hpos.ne]

/-! ## The run -/

/-- The number after a byte, by itself. -/
def TokenList.climb (tk : TokenList) (estat : ℕ) (c : u8) : ℕ :=
  { tk with estat := estat }.advance c

theorem TokenList.climbs (tk : TokenList) : Climbs tk.climb := by
  intro e c
  unfold TokenList.climb TokenList.advance TokenList.index
  split_ifs <;> simp

/-- The number of a keyword at rest after a stream. -/
def TokenList.reached (nocase : Bool) (tk : TokenList) (stream : List u8) : ℕ :=
  (stream.map (fold nocase)).foldl tk.climb 0

theorem TokenList.reached_concat (nocase : Bool) (tk : TokenList) (stream : List u8) (c : u8) :
    tk.reached nocase (stream ++ [c]) = tk.climb (tk.reached nocase stream) (fold nocase c) := by
  simp [TokenList.reached]

/-- Sizes are the keywords'. -/
theorem sizes_of_keyword {tls' : List TokenList}
    (hkey : tls'.map TokenList.keyword = tls.map TokenList.keyword)
    (hsize : ∀ tk ∈ tls, tk.numtok + 1 < actpSize) : ∀ tk ∈ tls', tk.numtok + 1 < actpSize := by
  intro tk htk
  have hmem := List.mem_map_of_mem (f := TokenList.keyword) htk
  rw [hkey] at hmem
  obtain ⟨tk', htk', heq⟩ := List.mem_map.mp hmem
  have hnum : tk'.numtok = tk.numtok := congrArg Prod.snd heq
  exact hnum ▸ hsize tk' htk'

/-- **What is reported for the first keyword is what its own counter
completes**: no byte is hidden from it. -/
theorem feed_reports (stream : List u8) (hacc : ∀ s i p, (f s i p).2 = 0)
    (hsize : ∀ tk ∈ tls, tk.numtok + 1 < actpSize) (hk : tls[0]? = some tk)
    (hrest : tk.estat = 0) :
    (feed nocase (some f) tls s base stream).defined = true ∧
      (feed nocase (some f) tls s base stream).tls[0]? =
        some { tk with estat := tk.reached nocase stream } ∧
      ∀ p, (0, p) ∈ (feed nocase (some f) tls s base stream).calls ↔
        ∃ n < stream.length, tk.reached nocase (stream.take (n + 1)) = tk.numtok ∧
          tk.found (base + UInt64.ofNat n) = p := by
  induction stream using List.reverseRecOn with
  | nil =>
    refine ⟨rfl, ?_, fun p => by simp [feed]⟩
    rw [show tk.reached nocase [] = tk.estat from hrest.symm]
    exact hk
  | append_singleton stream c ih =>
    obtain ⟨hdef, htls, hcalls⟩ := ih
    have hsizes : ∀ tk ∈ (feed nocase (some f) tls s base stream).tls, tk.numtok + 1 < actpSize :=
      sizes_of_keyword feed_keyword hsize
    obtain ⟨hdef', -, hseen⟩ := step_accept nocase c
      (base + UInt64.ofNat stream.length) hacc hsizes hdef htls
    obtain ⟨htls', hcalls'⟩ := hseen not_hidden_zero
    have hreach : tk.reached nocase (stream ++ [c]) =
        ({ tk with estat := tk.reached nocase stream } : TokenList).advance (fold nocase c) :=
      TokenList.reached_concat nocase tk stream c
    rw [feed_concat]
    refine ⟨hdef', by rw [htls', hreach], fun p => ?_⟩
    rw [hcalls' p, hcalls p]
    simp only [TokenList.completes, decide_eq_true_eq, ← hreach]
    have htake : ∀ n < stream.length, (stream ++ [c]).take (n + 1) = stream.take (n + 1) :=
      fun n hn => List.take_append_of_le_length (by omega)
    have hlast : (stream ++ [c]).take (stream.length + 1) = stream ++ [c] :=
      List.take_of_length_le (by simp)
    constructor
    · rintro (⟨n, hn, hr, hp⟩ | ⟨hr, hp⟩)
      · exact ⟨n, by simp; omega, (htake n hn).symm ▸ hr, hp⟩
      · exact ⟨stream.length, by simp, hlast.symm ▸ hr, hp⟩
    · rintro ⟨n, hn, hr, hp⟩
      rw [List.length_append, List.length_singleton] at hn
      rcases Nat.lt_succ_iff_lt_or_eq.mp hn with hn | rfl
      · exact Or.inl ⟨n, hn, htake n hn ▸ hr, hp⟩
      · exact Or.inr ⟨hlast ▸ hr, hp⟩

end Radare
