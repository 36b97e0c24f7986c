import Radare.Search.Driver
import Radare.Search.Step
/-!
# What the callback decides

`radare_tsearch_callback` moves the whole program, but what it returns is
settled by the position, the number of hits and two settings. So its runs
are those of a callback that has these alone (`hitFilter`), and the
program is as the last hit accepted left it (`updateTlist_follows`).
-/

namespace Radare

variable {align count : ℤ} {s : State} {nhit i j k : ℕ} {last p where_ base : ut64}
variable {inchar : u8} {tls : List TokenList} {tk : TokenList}

/-- The hit is not counted: it is not aligned, or there are enough. -/
def rejects (align count : ℤ) (nhit : ℕ) (where_ : ut64) : Bool :=
  (align ≠ 0 ∧ where_ % UInt64.ofInt align ≠ 0) ∨ (count ≠ 0 ∧ (nhit : ℤ) ≥ count)

/-- The callback over the number of hits and the place of the last. -/
def hitFilter (align count : ℤ) : Callback (ℕ × ut64) := fun (nhit, last) _ where_ =>
  if rejects align count nhit where_ then ((nhit, last), 1) else ((nhit + 1, where_), 0)

/-- The program with a hit read into the block. -/
def State.showHit (s : State) (where_ : ut64) : State :=
  let t := (radareRead (radareSeek s where_ .set).1 false).1
  { t with config := { t.config with seek := s.config.seek } }

theorem radareTsearchCallback_eq : radareTsearchCallback align count (s, nhit) i where_ =
    if rejects align count nhit where_ then ((s, nhit), 1)
    else ((s.showHit where_, nhit + 1), 0) := by
  unfold radareTsearchCallback rejects State.showHit
  dsimp only
  by_cases halign : align ≠ 0 ∧ where_ % UInt64.ofInt align ≠ 0
  · rw [if_pos halign, if_pos (decide_eq_true (Or.inl halign))]
  by_cases hcount : count ≠ 0 ∧ (nhit : ℤ) ≥ count
  · rw [if_neg halign, if_pos hcount, if_pos (decide_eq_true (Or.inr hcount))]
  · have hneither : ¬((align ≠ 0 ∧ where_ % UInt64.ofInt align ≠ 0) ∨
        (count ≠ 0 ∧ (nhit : ℤ) ≥ count)) := by
      rintro (h | h)
      · exact halign h
      · exact hcount h
    rw [if_neg halign, if_neg hcount, if_neg (by rwa [decide_eq_true_eq])]

/-- An update counts its hit if it returns 1. -/
structure Tallies (nhit : ℕ) (last : ut64) (v : Update (ℕ × ut64)) : Prop where
  accepted : v.ret = some 1 → v.s.1 = nhit + 1 ∧ ∃ j, (j, v.s.2) ∈ v.calls
  rest : v.ret ≠ some 1 → v.s = (nhit, last)

/-- And the program has read the hit then. -/
structure Follows (s : State) (nhit : ℕ) (u : Update (State × ℕ)) (v : Update (ℕ × ut64)) :
    Prop where
  tls : u.tls = v.tls
  ret : u.ret = v.ret
  interrupted : u.interrupted = v.interrupted
  accepted : v.ret = some 1 → u.s = (s.showHit v.s.2, v.s.1)
  rest : v.ret ≠ some 1 → u.s = (s, nhit)

variable {u : Update (State × ℕ)} {v : Update (ℕ × ut64)} {calls calls' : List (ℕ × ut64)}
variable {accesses : List (ℕ × Access)}

theorem Tallies.after (h : Tallies nhit last v) : Tallies nhit last (v.after tk calls accesses) where
  accepted := fun hret => by
    obtain ⟨hnhit, j, hj⟩ := h.accepted hret
    exact ⟨hnhit, j, List.mem_append_right _ hj⟩
  rest := h.rest

theorem Follows.after (h : Follows s nhit u v) :
    Follows s nhit (u.after tk calls' accesses) (v.after tk calls accesses) where
  tls := by rw [Update.after, Update.after, h.tls]
  ret := h.ret
  interrupted := h.interrupted
  accepted := h.accepted
  rest := h.rest

theorem updateLoop_tallies : ∀ (tls : List TokenList) (i : ℕ),
    Tallies nhit last
      (updateLoop (some (hitFilter align count)) inchar where_ i (nhit, last) tls) := by
  intro tls
  induction tls with
  | nil => exact fun i => ⟨fun h => absurd (Option.some.inj h) (by decide), fun _ => rfl⟩
  | cons tk rest ih =>
    intro i
    rw [updateLoop]
    by_cases hov : tk.overruns inchar = true
    · simp only [hov, if_true]
      exact ⟨fun h => absurd h.symm (Option.some_ne_none 1), fun _ => rfl⟩
    simp only [hov]
    by_cases hc : tk.completes inchar = true
    swap
    · simp only [hc]
      exact (ih (i + 1)).after
    simp only [hc, if_true, hit, hitFilter]
    by_cases hrej : rejects align count nhit (tk.found where_) = true
    · simp only [hrej, if_true]
      exact (ih (i + 1)).after
    · simp only [hrej]
      exact ⟨fun _ => ⟨rfl, i, List.mem_singleton.mpr rfl⟩, fun h => absurd rfl h⟩

/-- **The program follows the filter**, keyword by keyword. -/
theorem updateLoop_follows : ∀ (tls : List TokenList) (i : ℕ),
    Follows s nhit
      (updateLoop (some (radareTsearchCallback align count)) inchar where_ i (s, nhit) tls)
      (updateLoop (some (hitFilter align count)) inchar where_ i (nhit, last) tls) := by
  intro tls
  induction tls with
  | nil =>
    exact fun i => ⟨rfl, rfl, rfl, fun h => absurd (Option.some.inj h) (by decide), fun _ => rfl⟩
  | cons tk rest ih =>
    intro i
    rw [updateLoop, updateLoop]
    by_cases hov : tk.overruns inchar = true
    · simp only [hov, if_true]
      exact ⟨rfl, rfl, rfl, fun h => absurd h.symm (Option.some_ne_none 1), fun _ => rfl⟩
    simp only [hov]
    by_cases hc : tk.completes inchar = true
    swap
    · simp only [hc]
      exact (ih (i + 1)).after
    simp only [hc, if_true, hit, radareTsearchCallback_eq, hitFilter]
    -- both callbacks ask the same question
    by_cases hrej : rejects align count nhit (tk.found where_) = true
    · simp only [hrej, if_true]
      exact (ih (i + 1)).after
    · simp only [hrej]
      exact ⟨rfl, rfl, rfl, fun _ => rfl, fun h => absurd rfl h⟩

variable {f : Filter} {nocase : Bool} {σ : Type} {callback : Option (Callback σ)} {st : σ}
variable {stream : List u8} {c : u8}

theorem updateTlist_tallies (f : Filter) (nhit : ℕ) (last : ut64) (tls : List TokenList) (c : u8)
    (p : ut64) : Tallies nhit last
      (updateTlist f.nocase (some (hitFilter f.align f.count)) tls (nhit, last) c p) := by
  unfold updateTlist
  split_ifs
  · exact ⟨fun h => (nomatch h), fun _ => rfl⟩
  · exact updateLoop_tallies tls 0

theorem updateTlist_follows (f : Filter) (s : State) (nhit : ℕ) (last : ut64)
    (tls : List TokenList) (c : u8) (p : ut64) : Follows s nhit
      (updateTlist f.nocase (some (radareTsearchCallback f.align f.count)) tls (s, nhit) c p)
      (updateTlist f.nocase (some (hitFilter f.align f.count)) tls (nhit, last) c p) := by
  unfold updateTlist
  split_ifs
  · exact ⟨rfl, rfl, rfl, fun h => (nomatch h), fun _ => rfl⟩
  · exact updateLoop_follows tls 0

/-! ## How far a keyword can have got -/

theorem TokenList.advance_le_succ (tk : TokenList) (inchar : u8) :
    tk.advance inchar ≤ tk.estat + 1 := by
  unfold TokenList.advance TokenList.index
  split_ifs <;> omega

/-- A byte moves a keyword by one place at most. -/
theorem updateLoop_estat : ∀ (tls : List TokenList) (i : ℕ) (st : σ),
    (∀ tk ∈ tls, tk.estat ≤ k) →
      ∀ tk ∈ (updateLoop callback inchar where_ i st tls).tls, tk.estat ≤ k + 1 := by
  intro tls
  induction tls with
  | nil => intro i st _ tk htk; simp [updateLoop] at htk
  | cons tk rest ih =>
    intro i st h
    have htk : tk.advance inchar ≤ k + 1 := by
      have := tk.advance_le_succ inchar
      have := h tk List.mem_cons_self
      omega
    have hrest : ∀ tk' ∈ rest, tk'.estat ≤ k := fun tk' h' => h tk' (List.mem_cons_of_mem _ h')
    rw [updateLoop]
    dsimp only
    split_ifs
    · rintro tk' (_ | ⟨_, h'⟩)
      · exact htk
      · exact (hrest tk' h').trans (Nat.le_succ k)
    · rintro tk' (_ | ⟨_, h'⟩)
      · exact htk
      · exact (hrest tk' h').trans (Nat.le_succ k)
    · rintro tk' (_ | ⟨_, h'⟩)
      · exact Nat.zero_le _
      · exact ih _ _ hrest tk' h'
    · rintro tk' (_ | ⟨_, h'⟩)
      · exact htk
      · exact ih _ _ hrest tk' h'

/-- What an update with keywords returns, and that it does not stop the
search. -/
theorem updateLoop_values : ∀ (tls : List TokenList) (i : ℕ) (st : σ),
    let u := updateLoop callback inchar where_ i st tls
    u.interrupted = false ∧ (u.ret = none ∨ u.ret = some 0 ∨ u.ret = some 1) := by
  intro tls
  induction tls with
  | nil => exact fun _ _ => ⟨rfl, Or.inr (Or.inl rfl)⟩
  | cons tk rest ih =>
    intro i st
    rw [updateLoop]
    dsimp only
    split_ifs
    · exact ⟨rfl, Or.inl rfl⟩
    · exact ⟨rfl, Or.inr (Or.inr rfl)⟩
    · exact ih _ _
    · exact ih _ _

theorem updateTlist_values (nocase : Bool) (h : tls ≠ []) (callback : Option (Callback σ)) (st : σ)
    (c : u8) (p : ut64) :
    let u := updateTlist nocase callback tls st c p
    u.interrupted = false ∧ (u.ret = none ∨ u.ret = some 0 ∨ u.ret = some 1) := by
  unfold updateTlist
  rw [if_neg h]
  exact updateLoop_values tls 0 st

/-! ## The filter's run -/

/-- The bytes given to the automaton, with the callback that has nothing
but the filter. -/
def Filter.run (f : Filter) (tls : List TokenList) (base : ut64) (stream : List u8) :
    Search (ℕ × ut64) :=
  feed f.nocase (some (hitFilter f.align f.count)) tls (0, base) base stream

theorem Filter.run_concat : f.run tls base (stream ++ [c]) =
    (f.run tls base stream).step f.nocase (some (hitFilter f.align f.count)) c
      (base + UInt64.ofNat stream.length) := feed_concat

theorem Filter.run_ne_nil (h : tls ≠ []) : (f.run tls base stream).tls ≠ [] := by
  intro hnil
  have hkey : (f.run tls base stream).tls.map TokenList.keyword = _ := feed_keyword
  rw [hnil, List.map_nil] at hkey
  exact h (List.map_eq_nil_iff.mp hkey.symm)

/-- A run that writes behind an array stays spoilt. -/
theorem Filter.run_defined {stream' : List u8} (h : stream <+: stream')
    (hdef : (f.run tls base stream').defined = true) : (f.run tls base stream).defined = true := by
  obtain ⟨post, rfl⟩ := h
  induction post using List.reverseRecOn with
  | nil => rwa [List.append_nil] at hdef
  | append_singleton post c ih =>
    refine ih ?_
    rw [← List.append_assoc, Filter.run_concat] at hdef
    by_contra hpost
    unfold Search.step at hdef
    rw [if_neg hpost] at hdef
    exact hpost hdef

/-- A byte counts one hit, or leaves the count and the place. -/
theorem Filter.run_hits (f : Filter) (tls : List TokenList) (base : ut64) (stream : List u8)
    (c : u8) :
    (f.run tls base (stream ++ [c])).s = (f.run tls base stream).s ∨
      (f.run tls base (stream ++ [c])).s.1 = (f.run tls base stream).s.1 + 1 := by
  rw [Filter.run_concat]
  unfold Search.step
  split_ifs
  · have htallies := updateTlist_tallies f (f.run tls base stream).s.1 (f.run tls base stream).s.2
      (f.run tls base stream).tls c (base + UInt64.ofNat stream.length)
    by_cases hret : (updateTlist f.nocase (some (hitFilter f.align f.count))
        (f.run tls base stream).tls (f.run tls base stream).s c
        (base + UInt64.ofNat stream.length)).ret = some 1
    · exact Or.inr (htallies.accepted hret).1
    · exact Or.inl (htallies.rest hret)
  · exact Or.inl rfl

/-- The count never goes down. -/
theorem Filter.run_hits_le {stream' : List u8} (h : stream <+: stream') :
    (f.run tls base stream).s.1 ≤ (f.run tls base stream').s.1 := by
  obtain ⟨post, rfl⟩ := h
  induction post using List.reverseRecOn with
  | nil => rw [List.append_nil]
  | append_singleton post c ih =>
    rw [← List.append_assoc]
    rcases f.run_hits tls base (stream ++ post) c with h | h
    · rwa [h]
    · rw [h]
      omega

/-- **Where a run can be**: no keyword is further than the bytes, and the
last hit is at one of them, or behind the last. -/
structure Filter.Within (f : Filter) (tls : List TokenList) (base : ut64) (stream : List u8) :
    Prop where
  estat : ∀ tk ∈ (f.run tls base stream).tls, tk.estat ≤ stream.length
  last : ∃ n ≤ stream.length, (f.run tls base stream).s.2 = base + UInt64.ofNat n

theorem Filter.within (hrest : ∀ tk ∈ tls, tk.estat = 0) : f.Within tls base stream := by
  induction stream using List.reverseRecOn with
  | nil => exact ⟨fun tk htk => (hrest tk htk).le, 0, le_rfl, by simp [Filter.run, feed]⟩
  | append_singleton stream c ih =>
    obtain ⟨hestat, n, hn, hlast⟩ := ih
    have hlen : (stream ++ [c]).length = stream.length + 1 := by simp
    generalize hrun : f.run tls base stream = r at hestat hlast
    obtain ⟨rtls, ⟨nhit, last⟩, calls, accesses, defined⟩ := r
    dsimp only at hestat hlast
    refine ⟨?_, ?_⟩
    all_goals
      rw [Filter.run_concat, hrun, hlen]
      unfold Search.step
      dsimp only
      split_ifs
    · dsimp only
      unfold updateTlist
      split_ifs
      · exact fun tk htk => (hestat tk htk).trans (Nat.le_succ _)
      · exact updateLoop_estat _ _ _ hestat
    · exact fun tk htk => (hestat tk htk).trans (Nat.le_succ _)
    · dsimp only
      have htallies := updateTlist_tallies f nhit last rtls c (base + UInt64.ofNat stream.length)
      by_cases hret : (updateTlist f.nocase (some (hitFilter f.align f.count)) rtls (nhit, last) c
          (base + UInt64.ofNat stream.length)).ret = some 1
      · -- a hit is of a keyword the byte completes, which has got that far
        obtain ⟨-, j, hj⟩ := htallies.accepted hret
        obtain ⟨tk, htk, hc, hfound⟩ := updateTlist_calls hj
        have hnum := (TokenList.calledFor_iff.mp hc).1
        have hadvance := tk.advance_le_succ (fold f.nocase c)
        have hbound := hestat tk (List.mem_of_getElem? htk)
        refine ⟨stream.length + 1 - tk.numtok, by omega, ?_⟩
        rw [← hfound]
        exact TokenList.found_eq (by omega) base
      · rw [htallies.rest hret]
        exact ⟨n, hn.trans (Nat.le_succ _), hlast⟩
    · exact ⟨n, hn.trans (Nat.le_succ _), hlast⟩

end Radare
