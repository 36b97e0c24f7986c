import Radare.Search.Step
/-!
# The indices stay inside

`estat` is below `numtok` before every byte of a run in which no hit is
accepted, so the tokens read are tokens and the bytes stored in `actp`
are below `numtok + 2`. That is all there is to it: the range check of
`update_tlist` is never what keeps an index inside, and after a hit that
is accepted nothing does (`read_behind_tokens`).
-/

namespace Radare

variable {σ : Type} {tk : TokenList} {c : u8} {a : Access}

/-- The accesses of a turn that starts below `numtok`. -/
theorem TokenList.accesses_inBounds (hlt : tk.estat < tk.numtok) (hlen : tk.numtok + 1 < actpSize)
    (ha : a ∈ tk.accesses c) : a.InBounds tk.numtok := by
  unfold TokenList.accesses at ha
  rw [TokenList.index_eq hlt.le] at ha
  simp only [List.mem_append, List.mem_cons, List.not_mem_nil, or_false] at ha
  rcases ha with ((rfl | rfl | rfl) | ha) | ha
  · exact hlt
  · exact hlt
  · exact hlt
  · split_ifs at ha
    · obtain rfl := List.mem_singleton.mp ha
      exact show tk.estat < actpSize by omega
    · simp at ha
  · split_ifs at ha
    · rcases List.mem_cons.mp ha with rfl | ha
      · exact hlen
      · obtain rfl := List.mem_singleton.mp ha
        exact show 0 < actpSize by decide
    · simp at ha

/-- **Every access is inside its array**, in every run over keywords of 1
to 298 tokens in which no hit is accepted before the last byte. -/
theorem feed_inBounds (nocase : Bool) (callback : Option (Callback σ)) (tls : List TokenList)
    (s : σ) (base : ut64) (stream : List u8)
    (hinit : ∀ tk ∈ tls, 0 < tk.numtok ∧ tk.numtok + 1 < actpSize ∧ tk.estat = 0)
    (hquiet : Quiet nocase callback tls s base stream) :
    ∀ i a, (i, a) ∈ (feed nocase callback tls s base stream).accesses →
      ∃ tk, tls[i]? = some tk ∧ a.InBounds tk.numtok := by
  intro i a ha
  obtain ⟨pre, c, tk, hreads, ha⟩ := feed_accesses ha
  have hinv : tk.estat < tk.numtok ∧ tk.numtok + 1 < actpSize :=
    hquiet.invariant (P := fun tk _ => tk.estat < tk.numtok ∧ tk.numtok + 1 < actpSize)
      (fun tk htk => ⟨by have := hinit tk htk; omega, (hinit tk htk).2.1⟩)
      (fun tk _ c h => ⟨TokenList.passed_lt h.1 _, h.2⟩) pre c i tk hreads
  obtain ⟨tk', htk', -, hnum⟩ := feed_getElem? hreads.2.2
  exact ⟨tk', htk', hnum ▸ TokenList.accesses_inBounds hinv.1 hinv.2 ha⟩

/-- Two bytes and a keyword of two tokens, its hit accepted. -/
theorem feed_inBounds_ab :
    (0, 0) ∈ (feed false (some acceptAll)
        [TokenList.ofTokens [⟨0x61, 0, 0xff⟩, ⟨0x62, 0, 0xff⟩]] () 0 [0x61, 0x62]).calls ∧
      ∀ i a, (i, a) ∈ (feed false (some acceptAll)
          [TokenList.ofTokens [⟨0x61, 0, 0xff⟩, ⟨0x62, 0, 0xff⟩]] () 0 [0x61, 0x62]).accesses →
        ∃ tk, [TokenList.ofTokens [⟨0x61, 0, 0xff⟩, ⟨0x62, 0, 0xff⟩]][i]? = some tk ∧
          a.InBounds tk.numtok := by
  refine ⟨by decide, ?_⟩
  refine feed_inBounds false (some acceptAll) _ () 0 _
    (by simp [TokenList.ofTokens, actpSize]) ?_
  intro pre c post heq hpost
  rcases pre with _ | ⟨_, pre⟩
  · obtain ⟨rfl, rfl⟩ := List.cons.inj heq
    exact trivial
  · have := congrArg List.length heq
    have := List.length_pos_iff.mpr hpost
    simp at *
    omega

/-- **A read behind the tokens**: the keyword `a` and the bytes `aa`. The
first is a hit that is accepted, and leaves `estat` at `numtok`. -/
theorem read_behind_tokens :
    ¬ ∀ i a, (i, a) ∈ (feed false (some acceptAll)
        [TokenList.ofTokens [⟨0x61, 0, 0xff⟩]] () 0 [0x61, 0x61]).accesses →
      ∃ tk, [TokenList.ofTokens [⟨0x61, 0, 0xff⟩]][i]? = some tk ∧ a.InBounds tk.numtok := by
  intro h
  obtain ⟨tk, htk, ha⟩ := h 0 (.tl 1) (by decide)
  obtain rfl := Option.some.inj htk
  exact absurd ha (by decide)

end Radare
