import Radare.Search.Accepting
/-!
# Two tokenizers and one keyword

A keyword that sees the same bytes in two tokenizers counts the same in
both, and is reported at the same positions (`feed_independent`). It need
not see quite the same: a byte that would have left it at rest is no loss.
Its tokens have to be the same, and the memory in the two places behind
them, which it comes to read after a hit.

Nothing less will do: the keyword in front decides which bytes are seen
(`keyword_in_front_hides`).
-/

namespace Radare

variable {nocase : Bool} {tk tk' : TokenList}

/-- The same tokens, and the same memory in the two places behind them. -/
def TokenList.Like (tk tk' : TokenList) : Prop :=
  tk'.numtok = tk.numtok ∧ ∀ k < tk.numtok + 2, tk'.tl k = tk.tl k

/-- **The counter reads no further.** -/
theorem TokenList.Like.compares (h : tk.Like tk') (he : tk'.estat = tk.estat)
    (hlt : tk.estat < tk.numtok + 2) (c : u8) :
    tk'.index = tk.index ∧ tk'.compares c = tk.compares c := by
  have hidx : tk'.index = tk.index := by
    unfold TokenList.index
    rw [he, h.1]
  have hle := tk.index_le
  refine ⟨hidx, ?_⟩
  unfold TokenList.compares
  rw [hidx, he, h.2 _ hlt, h.2 _ (by omega)]

theorem TokenList.Like.advance (h : tk.Like tk') (he : tk'.estat = tk.estat)
    (hlt : tk.estat < tk.numtok + 2) (c : u8) :
    tk'.advance c = tk.advance c ∧ tk.advance c < tk.numtok + 2 := by
  obtain ⟨hidx, hcmp⟩ := h.compares he hlt c
  have hle := tk.index_le
  unfold TokenList.advance
  rw [hidx, hcmp]
  refine ⟨rfl, ?_⟩
  split_ifs <;> omega

variable {σ σ' : Type} {st : Search σ} {st' : Search σ'} {i i' : ℕ} {c : u8}

/-- Two runs at one place, with one keyword at `i` and at `i'`. -/
structure Alike (i i' : ℕ) (st : Search σ) (st' : Search σ') : Prop where
  defined : st.defined = true
  defined' : st'.defined = true
  size : ∀ tk ∈ st.tls, tk.numtok + 1 < actpSize
  size' : ∀ tk ∈ st'.tls, tk.numtok + 1 < actpSize
  /-- The keyword stands at one number in both. -/
  keyword : ∃ tk tk', st.tls[i]? = some tk ∧ st'.tls[i']? = some tk' ∧ tk.Like tk' ∧
    tk'.estat = tk.estat ∧ tk.estat < tk.numtok + 2 ∧ 0 < tk.numtok
  /-- And has been reported at the same positions. -/
  calls : ∀ p, (i, p) ∈ st.calls ↔ (i', p) ∈ st'.calls

/-- The byte is hidden from the keyword in both, or in neither, or leaves
it at rest. -/
def HideAlike (i i' : ℕ) (st : Search σ) (st' : Search σ') (c : u8) : Prop :=
  (Hidden st.tls c i ↔ Hidden st'.tls c i') ∨
    ∃ tk, st.tls[i]? = some tk ∧ tk.estat = 0 ∧ tk.compares c = false

/-- **One byte more.** -/
theorem Alike.step {f : Callback σ} {f' : Callback σ'} (hacc : ∀ s i p, (f s i p).2 = 0)
    (hacc' : ∀ s i p, (f' s i p).2 = 0) (where_ : ut64) (h : Alike i i' st st')
    (hhide : HideAlike i i' st st' (fold nocase c)) :
    Alike i i' (st.step nocase (some f) c where_) (st'.step nocase (some f') c where_) := by
  obtain ⟨tk, tk', htk, htk', hlike, he, hlt, hpos⟩ := h.keyword
  obtain ⟨hdef, hhid, hseen⟩ := step_accept nocase c where_ hacc h.size h.defined htk
  obtain ⟨hdef', hhid', hseen'⟩ := step_accept nocase c where_ hacc' h.size' h.defined' htk'
  -- where the turn leaves the keyword alone in both
  have hstill : (st.step nocase (some f) c where_).tls[i]? = some tk ∧
        (∀ p, (i, p) ∈ (st.step nocase (some f) c where_).calls ↔ (i, p) ∈ st.calls) →
      (st'.step nocase (some f') c where_).tls[i']? = some tk' ∧
        (∀ p, (i', p) ∈ (st'.step nocase (some f') c where_).calls ↔ (i', p) ∈ st'.calls) →
      Alike i i' (st.step nocase (some f) c where_) (st'.step nocase (some f') c where_) := by
    rintro ⟨hs, hc⟩ ⟨hs', hc'⟩
    refine ⟨hdef, hdef', sizes_of_keyword st.step_keyword h.size,
      sizes_of_keyword st'.step_keyword h.size', ⟨tk, tk', hs, hs', hlike, he, hlt, hpos⟩,
      fun p => ?_⟩
    rw [hc p, hc' p, h.calls p]
  rcases hhide with hiff | ⟨tk₀, htk₀, hrest, hno⟩
  · by_cases hh : Hidden st.tls (fold nocase c) i
    · exact hstill (hhid hh) (hhid' (hiff.mp hh))
    · -- seen by both
      obtain ⟨hs, hc⟩ := hseen hh
      obtain ⟨hs', hc'⟩ := hseen' fun h' => hh (hiff.mpr h')
      obtain ⟨hadv, hadvlt⟩ := hlike.advance he hlt (fold nocase c)
      refine ⟨hdef, hdef', sizes_of_keyword st.step_keyword h.size,
        sizes_of_keyword st'.step_keyword h.size',
        ⟨_, _, hs, hs', hlike, hadv, hadvlt, hpos⟩, fun p => ?_⟩
      rw [hc p, hc' p, h.calls p, TokenList.completes, TokenList.completes, hadv, hlike.1,
        TokenList.found, TokenList.found, hlike.1]
  · obtain rfl := Option.some.inj (htk₀.symm.trans htk)
    refine hstill (step_rest nocase c where_ hacc h.size h.defined htk hpos hrest hno) ?_
    refine step_rest nocase c where_ hacc' h.size' h.defined' htk' (hlike.1 ▸ hpos)
      (he.trans hrest) ?_
    rw [(hlike.compares he hlt _).2, hno]

/-- **A keyword is reported at the same positions in two tokenizers**
whose runs hide the same bytes from it, those apart that leave it at
rest; what lies behind its tokens is the same in both, and no keyword has
more than 298 tokens. -/
theorem feed_independent (nocase : Bool) (base : ut64) (stream : List u8)
    (f : Callback σ) (s : σ) (tls : List TokenList) (i : ℕ) (tk : TokenList)
    (f' : Callback σ') (s' : σ') (tls' : List TokenList) (i' : ℕ) (tk' : TokenList)
    (hacc : ∀ s i p, (f s i p).2 = 0) (hacc' : ∀ s i p, (f' s i p).2 = 0)
    (hk : tls[i]? = some tk) (hk' : tls'[i']? = some tk')
    (hrest : tk.estat = 0) (hrest' : tk'.estat = 0) (hpos : 0 < tk.numtok)
    (hlike : tk.Like tk')
    (hsize : ∀ tk ∈ tls, tk.numtok + 1 < actpSize) (hsize' : ∀ tk ∈ tls', tk.numtok + 1 < actpSize)
    (hhide : ∀ pre c post, stream = pre ++ c :: post →
      HideAlike i i' (feed nocase (some f) tls s base pre) (feed nocase (some f') tls' s' base pre)
        (fold nocase c)) :
    ∀ p, (i, p) ∈ (feed nocase (some f) tls s base stream).calls ↔
      (i', p) ∈ (feed nocase (some f') tls' s' base stream).calls := by
  have hrun : Alike i i' (feed nocase (some f) tls s base stream)
      (feed nocase (some f') tls' s' base stream) := by
    induction stream using List.reverseRecOn with
    | nil =>
      refine ⟨rfl, rfl, hsize, hsize', ⟨tk, tk', hk, hk', hlike, ?_, ?_, hpos⟩, fun p => ?_⟩
      · rw [hrest, hrest']
      · omega
      · simp [feed]
    | append_singleton stream c ih =>
      rw [feed_concat, feed_concat]
      refine (ih fun pre d post heq => hhide pre d (post ++ [c]) ?_).step hacc hacc' _
        (hhide stream c [] rfl)
      rw [heq, List.append_assoc, List.cons_append]
  exact hrun.calls

/-- The keyword `ab` behind `z`, and alone, in `zab`. -/
theorem feed_independent_zab :
    (0, 1) ∈ (feed false (some acceptAll)
        [TokenList.ofTokens [⟨0x61, 0, 0xff⟩, ⟨0x62, 0, 0xff⟩]] () 0 [0x7a, 0x61, 0x62]).calls ∧
      ∀ p, (1, p) ∈ (feed false (some acceptAll) [TokenList.ofTokens [⟨0x7a, 0, 0xff⟩],
          TokenList.ofTokens [⟨0x61, 0, 0xff⟩, ⟨0x62, 0, 0xff⟩]] () 0 [0x7a, 0x61, 0x62]).calls ↔
        (0, p) ∈ (feed false (some acceptAll)
          [TokenList.ofTokens [⟨0x61, 0, 0xff⟩, ⟨0x62, 0, 0xff⟩]] () 0 [0x7a, 0x61, 0x62]).calls := by
  refine ⟨by decide, ?_⟩
  refine feed_independent false 0 _ acceptAll () _ 1 _ acceptAll () _ 0 _
    (fun _ _ _ => rfl) (fun _ _ _ => rfl) rfl rfl rfl rfl (by decide) ⟨rfl, fun _ _ => rfl⟩
    (by simp [TokenList.ofTokens, actpSize]) (by simp [TokenList.ofTokens, actpSize]) ?_
  intro pre c post heq
  have hseen : ∀ tk : TokenList, tk.completes (fold false c) = false →
      ∀ rest, ¬ Hidden (tk :: rest) (fold false c) 1 := by
    intro tk hc rest
    simp [hidden_succ, hc, not_hidden_zero]
  match pre with
  | [] =>
    obtain ⟨rfl, -⟩ := List.cons.inj heq
    exact Or.inr ⟨_, rfl, rfl, by decide⟩
  | [_] =>
    simp only [List.cons_append, List.nil_append, List.cons.injEq] at heq
    obtain ⟨rfl, rfl, -⟩ := heq
    exact Or.inl (iff_of_false (hseen _ (by decide) _) not_hidden_zero)
  | [_, _] =>
    simp only [List.cons_append, List.nil_append, List.cons.injEq] at heq
    obtain ⟨rfl, rfl, rfl, -⟩ := heq
    exact Or.inl (iff_of_false (hseen _ (by decide) _) not_hidden_zero)
  | _ :: _ :: _ :: pre =>
    have := congrArg List.length heq
    simp at this

/-- **A keyword in front hides a byte**: `ab` is found in `ab`, and is not
found behind the keyword `a`. -/
theorem keyword_in_front_hides :
    ¬ ∀ p, (1, p) ∈ (feed false (some acceptAll) [TokenList.ofTokens [⟨0x61, 0, 0xff⟩],
        TokenList.ofTokens [⟨0x61, 0, 0xff⟩, ⟨0x62, 0, 0xff⟩]] () 0 [0x61, 0x62]).calls ↔
      (0, p) ∈ (feed false (some acceptAll)
        [TokenList.ofTokens [⟨0x61, 0, 0xff⟩, ⟨0x62, 0, 0xff⟩]] () 0 [0x61, 0x62]).calls := by
  intro h
  have hmem := (h 0).mpr (by decide)
  exact absurd hmem (by decide)

end Radare
