import Radare.Search.Binparse
import Mathlib.Data.List.Induction
/-!
# One byte

What a turn of `update_tlist` can do is said once: a call and an access
come from a keyword and its byte (`updateLoop_calls`,
`updateLoop_accesses`), tokens never change (`updateLoop_keyword`), and a
turn that no callback ends and no write spoils moves every keyword
(`updateLoop_passed`). The rest of the search is read off these four, and
off their versions for a whole run.
-/

namespace Radare

variable {σ : Type} {nocase : Bool} {callback : Option (Callback σ)} {s : σ} {i j : ℕ}
variable {tls : List TokenList} {tk tk' : TokenList} {inchar c : u8} {where_ p base : ut64}
variable {stream : List u8} {a : Access}

/-- The keyword, wherever it has got. -/
def TokenList.keyword (tk : TokenList) : (ℕ → Token) × ℕ := (tk.tl, tk.numtok)

/-- The byte completes the keyword, and the two bytes this clears are in
`actp`. -/
def TokenList.calledFor (tk : TokenList) (inchar : u8) : Bool :=
  tk.completes inchar && !tk.overruns inchar

theorem TokenList.calledFor_iff :
    tk.calledFor inchar = true ↔ tk.advance inchar = tk.numtok ∧ tk.overruns inchar = false := by
  simp [TokenList.calledFor, TokenList.completes]

/-- A keyword the byte has moved, back at rest where the byte completed
it. -/
def TokenList.passed (tk : TokenList) (inchar : u8) : TokenList :=
  { tk with estat := if tk.completes inchar then 0 else tk.advance inchar }

/-- A number below `numtok` is the index, and grows by one at most. -/
theorem TokenList.index_eq (h : tk.estat ≤ tk.numtok) : tk.index = tk.estat :=
  if_neg (Nat.not_lt.mpr h)

theorem TokenList.advance_le (h : tk.estat < tk.numtok) (c : u8) : tk.advance c ≤ tk.numtok := by
  unfold TokenList.advance
  rw [TokenList.index_eq h.le]
  split_ifs
  · omega
  · omega

/-- Moved by a byte it stays below. -/
theorem TokenList.passed_lt (h : tk.estat < tk.numtok) (c : u8) :
    (tk.passed c).estat < (tk.passed c).numtok := by
  have hle := TokenList.advance_le h c
  unfold TokenList.passed
  split_ifs with hc
  · dsimp only
    omega
  · simp only [TokenList.completes, decide_eq_true_eq] at hc
    exact lt_of_le_of_ne hle hc

/-- The position of the last byte and that of the first. -/
theorem TokenList.found_eq {m n : ℕ} (h : m + 1 = n + tk.numtok) (base : ut64) :
    tk.found (base + UInt64.ofNat m) = base + UInt64.ofNat n := by
  have hpos : UInt64.ofNat m + 1 = UInt64.ofNat n + UInt64.ofNat tk.numtok := by
    rw [← UInt64.ofNat_add, ← h, UInt64.ofNat_add]
    rfl
  unfold TokenList.found
  grind

/-! ## The loop -/

/-- A hit is given to the callback as it is. -/
theorem hit_calls (h : (j, p) ∈ (hit callback s i base).calls) : j = i ∧ p = base := by
  unfold hit at h
  cases callback with
  | none => simp at h
  | some f => simpa using h

/-- **A call is made for a keyword the byte completes.** -/
theorem updateLoop_calls : ∀ (tls : List TokenList) (i : ℕ) (s : σ),
    (j, p) ∈ (updateLoop callback inchar where_ i s tls).calls →
      ∃ k tk, tls[k]? = some tk ∧ j = i + k ∧ tk.calledFor inchar = true ∧
        tk.found where_ = p := by
  intro tls
  induction tls with
  | nil => intro i s h; simp [updateLoop] at h
  | cons tk rest ih =>
    intro i s h
    have hrest : ∀ s', (j, p) ∈ (updateLoop callback inchar where_ (i + 1) s' rest).calls →
        ∃ k tk', (tk :: rest)[k]? = some tk' ∧ j = i + k ∧ tk'.calledFor inchar = true ∧
          tk'.found where_ = p := by
      intro s' h'
      obtain ⟨k, tk', hk, hj, hc⟩ := ih (i + 1) s' h'
      exact ⟨k + 1, tk', List.getElem?_cons_succ.trans hk, by omega, hc⟩
    rw [updateLoop] at h
    dsimp only at h
    split_ifs at h with hov hc hacc
    · simp at h
    · obtain ⟨rfl, rfl⟩ := hit_calls h
      exact ⟨0, tk, rfl, rfl, by simp [TokenList.calledFor, hc, hov], rfl⟩
    · rcases List.mem_append.mp h with h | h
      · obtain ⟨rfl, rfl⟩ := hit_calls h
        exact ⟨0, tk, rfl, rfl, by simp [TokenList.calledFor, hc, hov], rfl⟩
      · exact hrest _ h
    · exact hrest s (by simpa [Update.after] using h)

/-- **An access is of a keyword the byte moves.** -/
theorem updateLoop_accesses : ∀ (tls : List TokenList) (i : ℕ) (s : σ),
    (j, a) ∈ (updateLoop callback inchar where_ i s tls).accesses →
      ∃ k tk, tls[k]? = some tk ∧ j = i + k ∧ a ∈ tk.accesses inchar := by
  intro tls
  induction tls with
  | nil => intro i s h; simp [updateLoop] at h
  | cons tk rest ih =>
    intro i s h
    have hself : (j, a) ∈ (tk.accesses inchar).map (fun a => (i, a)) →
        ∃ k tk', (tk :: rest)[k]? = some tk' ∧ j = i + k ∧ a ∈ tk'.accesses inchar := by
      intro h'
      obtain ⟨b, hb, heq⟩ := List.mem_map.mp h'
      rw [Prod.mk.injEq] at heq
      exact ⟨0, tk, rfl, by omega, heq.2 ▸ hb⟩
    have hboth : ∀ s', (j, a) ∈ (tk.accesses inchar).map (fun a => (i, a)) ++
        (updateLoop callback inchar where_ (i + 1) s' rest).accesses →
        ∃ k tk', (tk :: rest)[k]? = some tk' ∧ j = i + k ∧ a ∈ tk'.accesses inchar := by
      intro s' h'
      rcases List.mem_append.mp h' with h' | h'
      · exact hself h'
      · obtain ⟨k, tk', hk, hj, ha⟩ := ih (i + 1) s' h'
        exact ⟨k + 1, tk', List.getElem?_cons_succ.trans hk, by omega, ha⟩
    rw [updateLoop] at h
    dsimp only at h
    split_ifs at h with hov hc hacc
    · exact hself h
    · exact hself h
    · exact hboth _ h
    · exact hboth _ h

/-- **The keywords stay what they are.** -/
theorem updateLoop_keyword : ∀ (tls : List TokenList) (i : ℕ) (s : σ),
    (updateLoop callback inchar where_ i s tls).tls.map TokenList.keyword =
      tls.map TokenList.keyword := by
  intro tls
  induction tls with
  | nil => intro i s; rfl
  | cons tk rest ih =>
    intro i s
    rw [updateLoop, List.map_cons]
    dsimp only
    split_ifs with hov hc hacc
    · rfl
    · rfl
    · rw [← ih (i + 1) (hit callback s i (tk.found where_)).s]; rfl
    · rw [← ih (i + 1) s]; rfl

/-- **A turn that goes to the end moves every keyword.** -/
theorem updateLoop_passed : ∀ (tls : List TokenList) (i : ℕ) (s : σ),
    (updateLoop callback inchar where_ i s tls).ret = some 0 →
      (updateLoop callback inchar where_ i s tls).tls = tls.map fun tk => tk.passed inchar := by
  intro tls
  induction tls with
  | nil => intro i s _; rfl
  | cons tk rest ih =>
    intro i s h
    rw [updateLoop] at h ⊢
    dsimp only at h ⊢
    split_ifs at h ⊢ with hov hc hacc
    · exact absurd h (by simp)
    · have hpass : tk.passed inchar = { tk with estat := 0 } := by
        rw [TokenList.passed, if_pos hc]
      rw [List.map_cons, hpass, ← ih _ _ h]
      rfl
    · have hpass : tk.passed inchar = { tk with estat := tk.advance inchar } := by
        rw [TokenList.passed, if_neg hc]
      rw [List.map_cons, hpass, ← ih _ _ h]
      rfl

/-! ## Callbacks that accept nothing -/

/-- The hits a byte makes, if no callback ends the turn. -/
def completions (inchar : u8) (where_ : ut64) (i : ℕ) (tls : List TokenList) : List (ℕ × ut64) :=
  (tls.zipIdx i).filterMap fun (tk, i) =>
    if tk.completes inchar then some (i, tk.found where_) else none

/-- The callback accepts none of the hits, given one by one. -/
def Refuses (callback : Option (Callback σ)) : σ → List (ℕ × ut64) → Prop
  | _, [] => True
  | s, (i, p) :: hits =>
    (hit callback s i p).accepted = false ∧ Refuses callback (hit callback s i p).s hits

/-- A turn ends early for a hit accepted, and for nothing else. -/
theorem updateLoop_ret : ∀ (tls : List TokenList) (i : ℕ) (s : σ),
    Refuses callback s (completions inchar where_ i tls) →
      (updateLoop callback inchar where_ i s tls).ret ≠ none →
        (updateLoop callback inchar where_ i s tls).ret = some 0 := by
  intro tls
  induction tls with
  | nil => intro i s _ _; rfl
  | cons tk rest ih =>
    intro i s href h
    rw [updateLoop] at h ⊢
    rw [completions, List.zipIdx_cons, List.filterMap_cons] at href
    dsimp only at h ⊢ href
    split_ifs at h ⊢ with hov hc hacc
    · exact absurd rfl h
    · rw [if_pos hc] at href
      exact absurd (href.1.symm.trans hacc) (by decide)
    · rw [if_pos hc] at href
      exact ih _ _ href.2 h
    · rw [if_neg hc] at href
      exact ih _ _ href h

/-! ## The call -/

theorem updateTlist_calls (h : (j, p) ∈ (updateTlist nocase callback tls s inchar where_).calls) :
    ∃ tk, tls[j]? = some tk ∧ tk.calledFor (fold nocase inchar) = true ∧ tk.found where_ = p := by
  unfold updateTlist at h
  split_ifs at h
  · simp at h
  · obtain ⟨k, tk, hk, hj, hc⟩ := updateLoop_calls tls 0 s h
    rw [Nat.zero_add] at hj
    exact ⟨tk, hj ▸ hk, hc⟩

theorem updateTlist_accesses
    (h : (j, a) ∈ (updateTlist nocase callback tls s inchar where_).accesses) :
    ∃ tk, tls[j]? = some tk ∧ a ∈ tk.accesses (fold nocase inchar) := by
  unfold updateTlist at h
  split_ifs at h
  · simp at h
  · obtain ⟨k, tk, hk, hj, ha⟩ := updateLoop_accesses tls 0 s h
    rw [Nat.zero_add] at hj
    exact ⟨tk, hj ▸ hk, ha⟩

theorem updateTlist_keyword :
    (updateTlist nocase callback tls s inchar where_).tls.map TokenList.keyword =
      tls.map TokenList.keyword := by
  unfold updateTlist
  split_ifs
  · rfl
  · exact updateLoop_keyword tls 0 s

theorem updateTlist_passed
    (href : Refuses callback s (completions (fold nocase inchar) where_ 0 tls))
    (h : (updateTlist nocase callback tls s inchar where_).ret ≠ none) :
    (updateTlist nocase callback tls s inchar where_).tls =
      tls.map fun tk => tk.passed (fold nocase inchar) := by
  unfold updateTlist at h ⊢
  split_ifs at h ⊢ with hnil
  · simp [hnil]
  · exact updateLoop_passed tls 0 s (updateLoop_ret tls 0 s href h)

/-! ## The run -/

theorem feed_concat : feed nocase callback tls s base (stream ++ [c]) =
    (feed nocase callback tls s base stream).step nocase callback c
      (base + UInt64.ofNat stream.length) := by
  simp [feed, List.zipIdx_append]

theorem Search.step_keyword (st : Search σ) :
    (st.step nocase callback c where_).tls.map TokenList.keyword =
      st.tls.map TokenList.keyword := by
  unfold Search.step
  split_ifs
  · exact updateTlist_keyword
  · rfl

/-- The tokenizer a run ends with holds the keywords it was given. -/
theorem feed_keyword : (feed nocase callback tls s base stream).tls.map TokenList.keyword =
    tls.map TokenList.keyword := by
  induction stream using List.reverseRecOn with
  | nil => rfl
  | append_singleton stream c ih => rw [feed_concat, Search.step_keyword, ih]

theorem feed_getElem? (h : (feed nocase callback tls s base stream).tls[j]? = some tk) :
    ∃ tk', tls[j]? = some tk' ∧ tk.tl = tk'.tl ∧ tk.numtok = tk'.numtok := by
  have hkey := congrArg (fun l => l[j]?)
    (feed_keyword : (feed nocase callback tls s base stream).tls.map TokenList.keyword = _)
  simp only [List.getElem?_map, h, Option.map_some] at hkey
  obtain ⟨tk', htk', heq⟩ := Option.map_eq_some_iff.mp hkey.symm
  exact ⟨tk', htk', congrArg Prod.fst heq.symm, congrArg Prod.snd heq.symm⟩

/-- A run comes to the byte `c` behind `pre`, with keyword `j` as `tk`. -/
def Reads (nocase : Bool) (callback : Option (Callback σ)) (tls : List TokenList) (s : σ)
    (base : ut64) (stream pre : List u8) (c : u8) (j : ℕ) (tk : TokenList) : Prop :=
  (∃ post, stream = pre ++ c :: post) ∧
    (feed nocase callback tls s base pre).defined = true ∧
    (feed nocase callback tls s base pre).tls[j]? = some tk

/-- **What a run has collected is from a byte it read.** `kept` is a list of
the search, and `added` what a byte puts behind it. -/
theorem feed_mem {α : Type*} {x : α} (kept : Search σ → List α) (added : Update σ → List α)
    (hnil : kept ⟨tls, s, [], [], true⟩ = [])
    (hstep : ∀ (st : Search σ) c p, st.defined = true →
      kept (st.step nocase callback c p) =
        kept st ++ added (updateTlist nocase callback st.tls st.s c p))
    (h : x ∈ kept (feed nocase callback tls s base stream)) :
    ∃ pre c post, stream = pre ++ c :: post ∧
      (feed nocase callback tls s base pre).defined = true ∧
      x ∈ added (updateTlist nocase callback (feed nocase callback tls s base pre).tls
        (feed nocase callback tls s base pre).s c (base + UInt64.ofNat pre.length)) := by
  induction stream using List.reverseRecOn with
  | nil =>
    change x ∈ kept ⟨tls, s, [], [], true⟩ at h
    simp [hnil] at h
  | append_singleton stream c ih =>
    rw [feed_concat] at h
    by_cases hdef : (feed nocase callback tls s base stream).defined = true
    · rw [hstep _ _ _ hdef] at h
      rcases List.mem_append.mp h with h | h
      · obtain ⟨pre, d, post, rfl, hrest⟩ := ih h
        exact ⟨pre, d, post ++ [c], by simp, hrest⟩
      · exact ⟨stream, c, [], rfl, hdef, h⟩
    · -- a run that has written behind an array goes no further
      rw [Search.step, if_neg hdef] at h
      obtain ⟨pre, d, post, rfl, hrest⟩ := ih h
      exact ⟨pre, d, post ++ [c], by simp, hrest⟩

/-- **A hit of a run is of a byte that completes its keyword.** -/
theorem feed_calls (h : (j, p) ∈ (feed nocase callback tls s base stream).calls) :
    ∃ pre c tk, Reads nocase callback tls s base stream pre c j tk ∧
      tk.calledFor (fold nocase c) = true ∧
      tk.found (base + UInt64.ofNat pre.length) = p := by
  obtain ⟨pre, c, post, hstream, hdef, h⟩ := feed_mem Search.calls Update.calls rfl
    (fun st c p hdef => by rw [Search.step, if_pos hdef]) h
  obtain ⟨tk, htk, hc⟩ := updateTlist_calls h
  exact ⟨pre, c, tk, ⟨⟨post, hstream⟩, hdef, htk⟩, hc⟩

/-- And an access is of a keyword at its byte. -/
theorem feed_accesses (h : (j, a) ∈ (feed nocase callback tls s base stream).accesses) :
    ∃ pre c tk, Reads nocase callback tls s base stream pre c j tk ∧
      a ∈ tk.accesses (fold nocase c) := by
  obtain ⟨pre, c, post, hstream, hdef, h⟩ := feed_mem Search.accesses Update.accesses rfl
    (fun st c p hdef => by rw [Search.step, if_pos hdef]) h
  obtain ⟨tk, htk, ha⟩ := updateTlist_accesses h
  exact ⟨pre, c, tk, ⟨⟨post, hstream⟩, hdef, htk⟩, ha⟩

/-- The hits of the next byte, in the state a run has come to. -/
def Search.completions (st : Search σ) (nocase : Bool) (base : ut64) (n : ℕ) (c : u8) :
    List (ℕ × ut64) :=
  Radare.completions (fold nocase c) (base + UInt64.ofNat n) 0 st.tls

/-- **No hit is accepted before the last byte.** -/
def Quiet (nocase : Bool) (callback : Option (Callback σ)) (tls : List TokenList) (s : σ)
    (base : ut64) (stream : List u8) : Prop :=
  ∀ pre c post, stream = pre ++ c :: post → post ≠ [] →
    Refuses callback (feed nocase callback tls s base pre).s
      ((feed nocase callback tls s base pre).completions nocase base pre.length c)

/-- **The invariant rule.** What holds of a keyword at rest, and what
moving it by a byte keeps, holds before every byte of a quiet run. -/
theorem Quiet.invariant {P : TokenList → List u8 → Prop}
    (hquiet : Quiet nocase callback tls s base stream) (hinit : ∀ tk ∈ tls, P tk [])
    (hstep : ∀ tk xs c, P tk xs → P (tk.passed (fold nocase c)) (xs ++ [c])) :
    ∀ pre c j tk, Reads nocase callback tls s base stream pre c j tk → P tk pre := by
  have hall : ∀ pre c post, stream = pre ++ c :: post →
      (feed nocase callback tls s base pre).defined = true →
      ∀ tk ∈ (feed nocase callback tls s base pre).tls, P tk pre := by
    intro pre
    induction pre using List.reverseRecOn with
    | nil => exact fun _ _ _ _ => hinit
    | append_singleton pre d ih =>
      intro c post hstream hdef tk htk
      have hstream' : stream = pre ++ d :: c :: post := by simpa using hstream
      rw [feed_concat, Search.step] at hdef htk
      dsimp only at hdef htk
      split_ifs at hdef htk with hpre
      · have hret := Option.isSome_iff_ne_none.mp hdef
        have hpass := updateTlist_passed (hquiet pre d (c :: post) hstream' (by simp)) hret
        obtain ⟨tk', htk', rfl⟩ := List.mem_map.mp (hpass ▸ htk)
        exact hstep tk' pre d (ih d (c :: post) hstream' hpre tk' htk')
      · exact absurd hdef hpre
  rintro pre c j tk ⟨⟨post, hstream⟩, hdef, htk⟩
  exact hall pre c post hstream hdef tk (List.mem_of_getElem? htk)

end Radare
