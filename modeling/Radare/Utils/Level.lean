import Radare.Rio.Cursor
import Radare.Utils.Math
/-!
# The counter of `get_math`, and the seek

`get_math` counts how deep it is in itself, and gives up from the seventh
level on without taking back that it was counted. What stands in brackets it
seeks to, and back, which brings the seek back only below the base address.
So counter and seek are where they were exactly behind a text whose evaluation
is at most six levels deep with no bracket that loses the seek
(`getMath_traceless_iff`): the counter does not go down, the seek does not go up,
and what has been lost is lost to all later calls.

Two more variables are left behind by the seeks of a bracket: the position in
the file, and the last address that `section_align` computed. They make no
difference to a bracket that is `Settled`.
-/

namespace Radare

namespace Utils

open Common

variable {env : MathEnv} {text : List u8} {level : ℤ} {n k : ℕ} {v v' : ut64} {a : Ask}
variable {sh sh' : Shared} {s s' t t' : State} {ok : State → ut64 → ℤ → Bool}
variable {addr : ut64} {size : ℤ} {big : Bool}

/-- What is asked for, if its evaluation is at most so many levels deep and
its brackets are all `ok` on the disk where they are read. No counter is
involved. -/
def mathWithin (env : MathEnv) (ok : State → ut64 → ℤ → Bool) :
    ℕ → Ask → State → Option (ut64 × State)
  | 0, .math _, _ => none
  | n + 1, .math text, s =>
    if text = [] then some (0, s) else (mathBody env text).inside.run (mathWithin env ok n) s
  | _, .pointer addr size big, s => if ok s addr size then some (pointerAt s addr size big) else none
  | _, .seek, s => some (s.config.seek, s)

theorem mathCall_succ (hlevel : ¬sh.level > 5) (htext : text ≠ []) :
    mathCall env (n + 1) (.math text) sh =
      ((mathBody env text).inside.run (mathCall env n) { sh with level := sh.level + 1 }).map
        fun (v, sh) => (v, { sh with level := sh.level - 1 }) := by
  rw [mathCall, if_neg hlevel, if_neg htext]

theorem mathCall_pointer (env : MathEnv) (n : ℕ) (sh : Shared) :
    mathCall env n (.pointer addr size big) sh =
      some ((pointerAt sh.disk addr size big).1,
        ⟨sh.level, (pointerAt sh.disk addr size big).2⟩) := by
  cases n <;> rfl

theorem mathCall_seek (env : MathEnv) (n : ℕ) (sh : Shared) :
    mathCall env n .seek sh = some (sh.disk.config.seek, sh) := by
  cases n <;> rfl

theorem mathWithin_pointer (env : MathEnv) (n : ℕ) (s : State) :
    mathWithin env ok n (.pointer addr size big) s =
      if ok s addr size then some (pointerAt s addr size big) else none := by
  cases n <;> rfl

theorem mathWithin_seek (env : MathEnv) (n : ℕ) (s : State) :
    mathWithin env ok n .seek s = some (s.config.seek, s) := by
  cases n <;> rfl

/-! ## Brackets -/

/-- **The seek behind a bracket** is the one behind a read. -/
theorem seek_pointerAt :
    (pointerAt s addr size big).2.config.seek = seekBack s.config.vaddr s.config.seek addr := by
  unfold pointerAt
  split_ifs
  · exact seek_radareReadAt
  · dsimp only
    rw [seek_radareSeek, seek_radareSeek, vaddr_radareSeek]
    rfl

/-- A seek back leads no higher. -/
theorem seekBack_le (vaddr cur off : ut64) : seekBack vaddr cur off ≤ cur := by
  have hmax : ∀ x : ut64, x ≤ -1 := by
    intro x
    have hx := x.toNat_lt
    have htop : (-1 : ut64).toNat = 2 ^ 64 - 1 := rfl
    rw [UInt64.le_iff_toNat_le, htop]
    omega
  unfold seekBack
  by_cases hcur : cur = -1
  · rw [hcur]
    exact hmax _
  · rw [if_neg hcur]
    unfold rebase
    split_ifs with hlt
    · exact UInt64.le_refl cur
    · rw [UInt64.le_iff_toNat_le, UInt64.toNat_sub_of_le _ _ (UInt64.not_lt.mp hlt)]
      omega

/-- The seek is where it was behind a bracket. -/
def keepsSeek (s : State) (addr : ut64) (_ : ℤ) : Bool :=
  decide (Restores s.config.vaddr s.config.seek addr)

theorem keepsSeek_iff :
    keepsSeek s addr size ↔ (pointerAt s addr size big).2.config.seek = s.config.seek := by
  unfold keepsSeek
  rw [decide_eq_true_iff, seek_pointerAt, seekBack_eq_iff]

/-! ## Calls -/

/-- A call returns, and does not lower the counter. -/
theorem mathCall_returns (env : MathEnv) (a : Ask) (hn : 6 < n + sh.level) (hpos : 0 < n) :
    ∃ v sh', mathCall env n a sh = some (v, sh') ∧ sh.level ≤ sh'.level := by
  induction n generalizing a sh with
  | zero => omega
  | succ n ih =>
    cases a with
    | pointer addr size big => exact ⟨_, _, mathCall_pointer env (n + 1) sh, le_rfl⟩
    | seek => exact ⟨_, _, mathCall_seek env (n + 1) sh, le_rfl⟩
    | math text =>
      by_cases hlevel : sh.level > 5
      · refine ⟨0, { sh with level := sh.level + 1 }, if_pos hlevel, ?_⟩
        show sh.level ≤ sh.level + 1
        omega
      · by_cases htext : text = []
        · refine ⟨0, sh, ?_, le_rfl⟩
          rw [mathCall, if_neg hlevel, if_pos htext]
        · -- the calls within are made from one level higher at least
          have hcalls : ∀ a (t : Shared), sh.level + 1 ≤ t.level →
              ∃ v t', mathCall env n a t = some (v, t') ∧ sh.level + 1 ≤ t'.level := by
            intro a t ht
            have hroom : 6 < (n : ℤ) + t.level := by
              push_cast at hn
              omega
            obtain ⟨v, t', hcall, hle⟩ := ih a hroom (by omega)
            exact ⟨v, t', hcall, ht.trans hle⟩
          obtain ⟨v, sh', hrun, hle⟩ := Prog.lift_returns (fun _ : Shared => ()) (fun _ t => t)
            (fun _ _ ht => ht) hcalls (mathBody env text)
            (s := { sh with level := sh.level + 1 }) (le_refl (sh.level + 1))
          rw [mathCall_succ hlevel htext, hrun]
          refine ⟨v, { sh' with level := sh'.level - 1 }, rfl, ?_⟩
          show sh.level ≤ sh'.level - 1
          omega

/-- More levels of calls than are needed give the same. -/
theorem mathCall_mono {r : ut64 × Shared} (h : mathCall env n a sh = some r) :
    mathCall env (n + 1) a sh = some r := by
  induction n generalizing a sh r with
  | zero =>
    cases a with
    | math text => cases h
    | pointer addr size big => exact h
    | seek => exact h
  | succ n ih =>
    cases a with
    | pointer addr size big => exact h
    | seek => exact h
    | math text =>
      by_cases hlevel : sh.level > 5
      · rw [mathCall, if_pos hlevel] at h ⊢
        exact h
      · by_cases htext : text = []
        · rw [mathCall, if_neg hlevel, if_pos htext] at h ⊢
          exact h
        · rw [mathCall_succ hlevel htext] at h ⊢
          obtain ⟨⟨v, t⟩, hrun, hr⟩ := Option.map_eq_some_iff.mp h
          rw [Prog.run_mono ih hrun]
          exact congrArg some hr

/-- The counter is no lower, and the seek no higher. -/
def Shared.Goes (sh sh' : Shared) : Prop :=
  sh.level ≤ sh'.level ∧ sh'.disk.config.seek ≤ sh.disk.config.seek

theorem Shared.Goes.refl (sh : Shared) : sh.Goes sh := ⟨le_rfl, UInt64.le_refl _⟩

theorem Shared.Goes.trans {sh sh' sh'' : Shared} (h : sh.Goes sh') (h' : sh'.Goes sh'') :
    sh.Goes sh'' :=
  ⟨h.1.trans h'.1, UInt64.le_trans h'.2 h.2⟩

theorem goes_pointer (h : mathCall env n (.pointer addr size big) sh = some (v, sh')) :
    sh.Goes sh' := by
  rw [mathCall_pointer] at h
  cases h
  exact ⟨le_rfl, (UInt64.le_of_eq seek_pointerAt).trans (seekBack_le _ _ _)⟩

theorem goes_seek (h : mathCall env n .seek sh = some (v, sh')) : sh.Goes sh' := by
  rw [mathCall_seek] at h
  cases h
  exact Shared.Goes.refl sh

/-- **A call does not lower the counter**, and does not raise the seek. -/
theorem mathCall_goes (h : mathCall env n a sh = some (v, sh')) : sh.Goes sh' := by
  induction n generalizing a sh v sh' with
  | zero =>
    cases a with
    | math text => cases h
    | pointer addr size big => exact goes_pointer h
    | seek => exact goes_seek h
  | succ n ih =>
    cases a with
    | pointer addr size big => exact goes_pointer h
    | seek => exact goes_seek h
    | math text =>
      by_cases hlevel : sh.level > 5
      · rw [mathCall, if_pos hlevel] at h
        cases h
        refine ⟨?_, UInt64.le_refl _⟩
        show sh.level ≤ sh.level + 1
        omega
      · by_cases htext : text = []
        · rw [mathCall, if_neg hlevel, if_pos htext] at h
          cases h
          exact Shared.Goes.refl sh
        · rw [mathCall_succ hlevel htext] at h
          obtain ⟨⟨w, t⟩, hrun, hr⟩ := Option.map_eq_some_iff.mp h
          cases hr
          obtain ⟨hle, hseek⟩ := Prog.inside_goes Shared.Goes.refl Shared.Goes.trans ih hrun
          refine ⟨?_, hseek⟩
          have hle : sh.level + 1 ≤ t.level := hle
          show sh.level ≤ t.level - 1
          omega

/-- The counter, and by how much the seek is below the highest. Neither goes
down. -/
def Shared.lost (sh : Shared) : ℤ := sh.level - sh.disk.config.seek.toNat

theorem Shared.lost_mk (level : ℤ) (s : State) :
    Shared.lost ⟨level, s⟩ = level - s.config.seek.toNat := rfl

theorem Shared.Goes.lost_le (h : sh.Goes sh') : sh.lost ≤ sh'.lost := by
  obtain ⟨hlevel, hseek⟩ := h
  have hseek := UInt64.le_iff_toNat_le.mp hseek
  unfold Shared.lost
  omega

/-- Nothing is lost just if both are where they were. -/
theorem Shared.Goes.lost_eq_iff (h : sh.Goes sh') :
    sh'.lost = sh.lost ↔ sh'.level = sh.level ∧ sh'.disk.config.seek = sh.disk.config.seek := by
  obtain ⟨hlevel, hseek⟩ := h
  have hseek := UInt64.le_iff_toNat_le.mp hseek
  unfold Shared.lost
  rw [← UInt64.toNat_inj]
  omega

/-- An answer that is no expression is the same at every level. -/
theorem mathCall_plain (ha : ∀ text, a ≠ .math text)
    (h : mathWithin env ok k a sh.disk = some (v, s')) :
    mathCall env n a sh = some (v, ⟨sh.level, s'⟩) := by
  cases a with
  | math text => exact absurd rfl (ha text)
  | pointer addr size big =>
    rw [mathWithin_pointer] at h
    split_ifs at h
    rw [mathCall_pointer, Option.some.inj h]
  | seek =>
    rw [mathWithin_seek] at h
    rw [mathCall_seek]
    cases h
    rfl

/-- **A call whose evaluation is not too deep** keeps the counter, and has the
value of the evaluation. -/
theorem mathCall_of_within (hn : k < n) (hlevel : sh.level + k = 6)
    (h : mathWithin env ok k a sh.disk = some (v, s')) :
    mathCall env n a sh = some (v, ⟨sh.level, s'⟩) := by
  induction k generalizing n a sh v s' with
  | zero =>
    refine mathCall_plain ?_ h
    rintro text rfl
    cases h
  | succ k ih =>
    by_cases ha : ∀ text, a ≠ .math text
    · exact mathCall_plain ha h
    obtain ⟨text, rfl⟩ := not_forall_not.mp ha
    obtain ⟨n, rfl⟩ : ∃ m, n = m + 1 := Nat.exists_eq_succ_of_ne_zero (by omega)
    have hroom : ¬sh.level > 5 := by omega
    by_cases htext : text = []
    · rw [mathWithin, if_pos htext] at h
      rw [mathCall, if_neg hroom, if_pos htext]
      cases h
      rfl
    · rw [mathWithin, if_neg htext] at h
      -- the calls within are made from one level higher
      obtain ⟨t, hrun, rfl⟩ := Prog.inside_run (e := mathCall env n)
        (L := fun s t => t = ⟨sh.level + 1, s⟩) (t := ⟨sh.level + 1, sh.disk⟩)
        (fun hst hr => by
          subst hst
          refine ⟨_, ih (by omega) ?_ hr, rfl⟩
          show sh.level + 1 + k = 6
          omega) rfl h
      rw [mathCall_succ hroom htext, hrun]
      exact congrArg (fun l => some (v, Shared.mk l s')) (Int.add_sub_cancel sh.level 1)

/-- A call loses nothing. -/
def LosesNothing (env : MathEnv) (n : ℕ) (a : Ask) (sh : Shared) : Prop :=
  ∃ v sh', mathCall env n a sh = some (v, sh') ∧ sh'.lost = sh.lost

theorem losesNothing_plain (ha : ∀ text, a ≠ .math text) :
    LosesNothing env n a sh ↔ (mathWithin env keepsSeek k a sh.disk).isSome := by
  cases a with
  | math text => exact absurd rfl (ha text)
  | pointer addr size big =>
    have hcall : mathCall env n (.pointer addr size big) sh = _ := mathCall_pointer env n sh
    have hlost := (goes_pointer hcall).lost_eq_iff
    rw [mathWithin_pointer]
    split_ifs with hkeeps
    · exact iff_of_true ⟨_, _, hcall, hlost.mpr ⟨rfl, keepsSeek_iff.mp hkeeps⟩⟩ rfl
    · refine iff_of_false ?_ Bool.false_ne_true
      rintro ⟨v, sh', h, heq⟩
      obtain ⟨-, rfl⟩ := Prod.mk.inj (Option.some.inj (hcall.symm.trans h))
      exact hkeeps (keepsSeek_iff.mpr (hlost.mp heq).2)
  | seek =>
    rw [mathWithin_seek]
    exact iff_of_true ⟨_, _, mathCall_seek env n sh, rfl⟩ rfl

/-- **When a call loses nothing**: its evaluation is not too deep, and every
bracket in it keeps the seek. -/
theorem losesNothing_iff (hn : k < n) (hlevel : sh.level + k = 6) :
    LosesNothing env n a sh ↔ (mathWithin env keepsSeek k a sh.disk).isSome := by
  induction k generalizing n a sh with
  | zero =>
    by_cases ha : ∀ text, a ≠ .math text
    · exact losesNothing_plain ha
    obtain ⟨text, rfl⟩ := not_forall_not.mp ha
    obtain ⟨n, rfl⟩ : ∃ m, n = m + 1 := Nat.exists_eq_succ_of_ne_zero (by omega)
    refine iff_of_false ?_ Bool.false_ne_true
    rintro ⟨v, sh', h, hlost⟩
    rw [mathCall, if_pos (by omega)] at h
    cases h
    rw [Shared.lost_mk, Shared.lost] at hlost
    omega
  | succ k ih =>
    by_cases ha : ∀ text, a ≠ .math text
    · exact losesNothing_plain ha
    obtain ⟨text, rfl⟩ := not_forall_not.mp ha
    obtain ⟨n, rfl⟩ : ∃ m, n = m + 1 := Nat.exists_eq_succ_of_ne_zero (by omega)
    have hroom : ¬sh.level > 5 := by omega
    unfold LosesNothing
    by_cases htext : text = []
    · rw [mathWithin, if_pos htext, mathCall, if_neg hroom, if_pos htext]
      exact iff_of_true ⟨0, sh, rfl, rfl⟩ rfl
    · rw [mathWithin, if_neg htext, mathCall_succ hroom htext]
      have hinner : ∀ {s t}, t = Shared.mk (sh.level + 1) s → t.level + k = 6 ∧ t.disk = s := by
        rintro s t rfl
        refine ⟨?_, rfl⟩
        show sh.level + 1 + k = 6
        omega
      have hall := Prog.inside_all_iff (e := mathCall env n) (g := mathWithin env keepsSeek k)
        (Q := LosesNothing env n) (q := mathBody env text) (t := ⟨sh.level + 1, sh.disk⟩)
        (L := fun s t => t = ⟨sh.level + 1, s⟩)
        (fun hst hr => by
          subst hst
          exact ⟨_, mathCall_of_within (by omega) (hinner rfl).1 hr, rfl⟩)
        (fun hst => by
          rw [ih (by omega) (hinner hst).1, (hinner hst).2]) rfl
      have hreturns : 6 < ((n + 1 : ℕ) : ℤ) + sh.level := by omega
      obtain ⟨w, sh', hcall, -⟩ := mathCall_returns env (.math text) hreturns (Nat.succ_pos n)
      rw [mathCall_succ hroom htext] at hcall
      obtain ⟨⟨w, t⟩, hrun, hr⟩ := Option.map_eq_some_iff.mp hcall
      cases hr
      -- the counter is raised in front of the body and lowered behind it
      have hquiet := Prog.quiet_lift (f := mathCall env n) (μ := Shared.lost)
        (s := ⟨sh.level + 1, sh.disk⟩) (fun _ => ()) (fun _ _ => rfl) (mathBody env text)
      obtain ⟨-, hlost⟩ := hquiet.run (Prog.counts_of_le fun h => (mathCall_goes h).lost_le) hrun
      rw [← hall, hrun]
      refine Iff.trans ?_ hlost
      have hbefore : Shared.lost ⟨sh.level + 1, sh.disk⟩ = sh.lost + 1 := by
        rw [Shared.lost_mk, Shared.lost]
        omega
      have hbehind : Shared.lost ⟨t.level - 1, t.disk⟩ = t.lost - 1 := by
        rw [Shared.lost_mk, Shared.lost]
        omega
      rw [hbefore]
      constructor
      · rintro ⟨v, sh', h, heq⟩
        cases h
        have heq : Shared.lost ⟨t.level - 1, t.disk⟩ = sh.lost := heq
        omega
      · intro heq
        exact ⟨w, _, rfl, hbehind.trans (by omega)⟩

/-! ## Settled brackets -/

/-- Two disks, but for the position and the last address computed. -/
def Alike (s t : State) : Prop := s.still = t.still ∧ s.config.seek = t.config.seek

theorem Alike.refl (s : State) : Alike s s := ⟨rfl, rfl⟩

theorem Alike.symm (h : Alike s t) : Alike t s := ⟨h.1.symm, h.2.symm⟩

theorem Alike.trans {s t u : State} (h : Alike s t) (h' : Alike t u) : Alike s u :=
  ⟨h.1.trans h'.1, h.2.trans h'.2⟩

/-- A bracket keeps the seek, and what it reads does not depend on what was
read before. -/
def settled (s : State) (addr : ut64) (size : ℤ) : Bool :=
  keepsSeek s addr size &&
    decide (size = 1 ∨ size = 2 ∨ size = 4 ∨ size = 8 → s.Settled addr size.toNat)

theorem bytesThere_alike (h : Alike s t) (addr : ut64) (n : ℕ) :
    s.bytesThere addr n = t.bytesThere addr n := by
  have hstill : ∀ u : State,
      u.bytesThere addr n = (u.still.withSeek u.config.seek).bytesThere addr n := fun _ => rfl
  rw [hstill s, hstill t, h.1, h.2]

theorem still_pointerAt : (pointerAt s addr size big).2.still = s.still := by
  unfold pointerAt
  split_ifs
  · exact still_radareReadAt
  · dsimp only
    rw [still_radareSeek, still_radareSeek]

/-- **A settled bracket** has the same value on disks that are alike, -/
theorem pointerAt_alike (hs : settled s addr size) (ht : settled t addr size) (h : Alike s t) :
    (pointerAt s addr size big).1 = (pointerAt t addr size big).1 := by
  have hread : ∀ u : State, settled u addr size →
      (size = 1 ∨ size = 2 ∨ size = 4 ∨ size = 8) →
      (radareReadAt u addr (List.replicate size.toNat 0)).2 =
        overlay (List.replicate size.toNat 0) (u.bytesThere addr size.toNat) := by
    intro u hu hsize
    have hsettled := of_decide_eq_true (Bool.and_eq_true_iff.mp hu).2 hsize
    have hlen : (List.replicate size.toNat (0 : u8)).length = size.toNat := List.length_replicate
    rw [radareReadAt_settled (by rwa [hlen]), hlen]
  unfold pointerAt
  split_ifs with hsize
  · dsimp only
    rw [hread s hs hsize, hread t ht hsize, bytesThere_alike h]
  · rfl

/-- and leaves a disk like the one before. -/
theorem alike_pointerAt (h : settled s addr size) : Alike s (pointerAt s addr size big).2 :=
  ⟨still_pointerAt.symm, (keepsSeek_iff.mp (Bool.and_eq_true_iff.mp h).1).symm⟩

theorem alike_plain (ha : ∀ text, a ≠ .math text)
    (h : mathWithin env settled k a s = some (v, s')) : Alike s s' := by
  cases a with
  | math text => exact absurd rfl (ha text)
  | pointer addr size big =>
    rw [mathWithin_pointer] at h
    split_ifs at h with hsettled
    have heq : (pointerAt s addr size big).2 = s' := congrArg Prod.snd (Option.some.inj h)
    exact heq ▸ alike_pointerAt hsettled
  | seek =>
    rw [mathWithin_seek] at h
    cases h
    exact Alike.refl s

theorem same_plain (ha : ∀ text, a ≠ .math text) (hst : Alike s t)
    (hs : mathWithin env settled k a s = some (v, s'))
    (ht : mathWithin env settled k a t = some (v', t')) : v = v' := by
  cases a with
  | math text => exact absurd rfl (ha text)
  | pointer addr size big =>
    rw [mathWithin_pointer] at hs ht
    split_ifs at hs with hsettled
    split_ifs at ht with hsettled'
    have heq : (pointerAt s addr size big).1 = v := congrArg Prod.fst (Option.some.inj hs)
    have heq' : (pointerAt t addr size big).1 = v' := congrArg Prod.fst (Option.some.inj ht)
    rw [← heq, ← heq', pointerAt_alike hsettled hsettled' hst]
  | seek =>
    rw [mathWithin_seek] at hs ht
    cases hs
    cases ht
    exact hst.2

/-- **A settled evaluation** leaves a disk like the one before. -/
theorem alike_mathWithin (h : mathWithin env settled k a s = some (v, s')) : Alike s s' := by
  induction k generalizing a s v s' with
  | zero =>
    refine alike_plain ?_ h
    rintro text rfl
    cases h
  | succ k ih =>
    by_cases ha : ∀ text, a ≠ .math text
    · exact alike_plain ha h
    obtain ⟨text, rfl⟩ := not_forall_not.mp ha
    rw [mathWithin] at h
    split_ifs at h
    · cases h
      exact Alike.refl s
    · exact Prog.inside_goes Alike.refl Alike.trans ih h

/-- **Settled evaluations on disks that are alike** have the same value. -/
theorem mathWithin_same (hst : Alike s t) (hs : mathWithin env settled k a s = some (v, s'))
    (ht : mathWithin env settled k a t = some (v', t')) : v = v' := by
  induction k generalizing a s t v s' v' t' with
  | zero =>
    refine same_plain ?_ hst hs ht
    rintro text rfl
    cases hs
  | succ k ih =>
    by_cases ha : ∀ text, a ≠ .math text
    · exact same_plain ha hst hs ht
    obtain ⟨text, rfl⟩ := not_forall_not.mp ha
    rw [mathWithin] at hs ht
    split_ifs at hs ht
    · cases hs
      cases ht
      rfl
    · refine (Prog.inside_agree (L := Alike) ?_ hst hs ht).1
      intro a s t r s' r' t' hst hs ht
      exact ⟨ih hst hs ht, (alike_mathWithin hs).symm.trans (hst.trans (alike_mathWithin ht))⟩

/-! ## Sequences of calls -/

/-- The result does not depend on how many levels of calls are allowed. -/
theorem answer_eq {r : ut64 × Shared} (h : mathCall env n a sh = some r) :
    answer env a sh = r := by
  have hroom : 6 < (((6 - sh.level).toNat + 1 : ℕ) : ℤ) + sh.level := by omega
  obtain ⟨v, sh', hcall, -⟩ := mathCall_returns env a hroom (Nat.succ_pos _)
  have hmono : ∀ {m r}, mathCall env m a sh = some r → ∀ k, mathCall env (m + k) a sh = some r := by
    intro m r hm k
    induction k with
    | zero => exact hm
    | succ k ih => exact mathCall_mono ih
  have h₁ := hmono h ((6 - sh.level).toNat + 1)
  have h₂ := hmono hcall n
  rw [Nat.add_comm] at h₂
  unfold answer
  rw [hcall, Option.getD_some]
  exact Option.some.inj (h₂.symm.trans h₁)

/-- **`get_math` calls itself** one level higher. -/
theorem answer_of_body (hlevel : sh.level ≤ 5) (htext : text ≠ [])
    (h : (mathBody env text).inside.run (fun a t => some (answer env a t))
      ⟨sh.level + 1, sh.disk⟩ = some (v, sh')) :
    answer env (.math text) sh = (v, ⟨sh'.level - 1, sh'.disk⟩) := by
  obtain ⟨n, hn⟩ : ∃ n : ℕ, (n : ℤ) + sh.level = 6 := ⟨(6 - sh.level).toNat, by omega⟩
  have hreturns : ∀ a (t : Shared), sh.level + 1 ≤ t.level →
      ∃ v t', mathCall env n a t = some (v, t') ∧ t.level ≤ t'.level := fun a t ht =>
    mathCall_returns env a (by omega) (by omega)
  have hcalls : ∀ a (t : Shared), sh.level + 1 ≤ t.level →
      mathCall env n a t = some (answer env a t) := by
    intro a t ht
    obtain ⟨v, t', hcall, -⟩ := hreturns a t ht
    rw [hcall, answer_eq hcall]
  have hkeep : ∀ a (t : Shared) r t', sh.level + 1 ≤ t.level → mathCall env n a t = some (r, t') →
      sh.level + 1 ≤ t'.level := fun a t r t' ht hcall => ht.trans (mathCall_goes hcall).1
  have hrun := Prog.lift_run_congr (fun _ : Shared => ()) (fun _ t => t) (fun _ _ ht => ht) hcalls
    hkeep (mathBody env text) (s := ⟨sh.level + 1, sh.disk⟩) (le_refl (sh.level + 1))
  refine answer_eq (n := n + 1) ?_
  rw [mathCall_succ (by omega) htext]
  show ((mathBody env text).inside.run (mathCall env n) ⟨sh.level + 1, sh.disk⟩).map _ = _
  rw [hrun, h]
  rfl

theorem getMath_of_body (hlevel : level ≤ 5) (htext : text ≠ [])
    (h : (mathBody env text).inside.run (fun a t => some (answer env a t))
      ⟨level + 1, env.disk⟩ = some (v, sh')) : (getMath env text level).1 = v := by
  have hcall : answer env (.math text) ⟨level, env.disk⟩ = (v, ⟨sh'.level - 1, sh'.disk⟩) :=
    answer_of_body hlevel htext h
  unfold getMath
  rw [hcall]

/-- A call from level 0, of an expression that is not too deep. -/
theorem answer_of_within (h : mathWithin env ok 6 (.math text) s = some (v, s')) :
    answer env (.math text) ⟨0, s⟩ = (v, ⟨0, s'⟩) := by
  have hcall : mathCall env 7 (.math text) ⟨0, s⟩ = some (v, ⟨0, s'⟩) :=
    mathCall_of_within (by decide) rfl h
  exact answer_eq hcall

theorem getMath_of_within (h : mathWithin env ok 6 (.math text) env.disk = some (v, s')) :
    getMath env text 0 = (v, 0) := by
  unfold getMath
  rw [answer_of_within h]

/-- An expression, and the program at the time it is evaluated, but for the
disk. -/
structure MathText where
  env : MathEnv
  text : List u8

/-- Its evaluation. -/
def MathText.call (c : MathText) (sh : Shared) : ut64 × Shared := answer c.env (.math c.text) sh

/-- The evaluation is at most six levels deep, and its brackets are `ok`. -/
def MathText.Shallow (ok : State → ut64 → ℤ → Bool) (c : MathText) (s : State) : Prop :=
  (mathWithin c.env ok 6 (.math c.text) s).isSome

/-- Counter and seek are where they were behind it. -/
def MathText.Traceless (c : MathText) (sh : Shared) : Prop :=
  (c.call sh).2.level = sh.level ∧ (c.call sh).2.disk.config.seek = sh.disk.config.seek

/-- What is shared behind calls from a program that has just started. -/
def sharedAfter (s : State) (calls : List MathText) : Shared :=
  calls.foldl (fun sh c => (c.call sh).2) ⟨0, s⟩

variable {calls pre : List MathText} {c : MathText}

theorem sharedAfter_concat :
    sharedAfter s (pre ++ [c]) = (c.call (sharedAfter s pre)).2 := by
  unfold sharedAfter
  rw [List.foldl_append]
  rfl

/-- **One call leaves no trace** just if it is shallow. -/
theorem MathText.traceless_iff (c : MathText) (hlevel : sh.level = 0) :
    c.Traceless sh ↔ c.Shallow keepsSeek sh.disk := by
  have hroom : sh.level + (6 : ℕ) = 6 := by
    rw [hlevel]
    rfl
  obtain ⟨v, sh', hcall, -⟩ : ∃ v sh', mathCall c.env 7 (.math c.text) sh = some (v, sh') ∧
      sh.level ≤ sh'.level := mathCall_returns c.env (.math c.text) (by omega) (by decide)
  have hlost : LosesNothing c.env 7 (.math c.text) sh ↔
      (mathWithin c.env keepsSeek 6 (.math c.text) sh.disk).isSome :=
    losesNothing_iff (by decide) hroom
  unfold MathText.Traceless MathText.call MathText.Shallow
  rw [answer_eq hcall, ← hlost, ← (mathCall_goes hcall).lost_eq_iff]
  constructor
  · exact fun h => ⟨v, sh', hcall, h⟩
  · rintro ⟨w, t, h, heq⟩
    obtain ⟨-, rfl⟩ := Prod.mk.inj (Option.some.inj (hcall.symm.trans h))
    exact heq

/-- The counter is at 0 before every call, if it was brought back by those
before. -/
theorem level_sharedAfter
    (h : ∀ pre c, pre ++ [c] <+: calls → (sharedAfter s pre).level = 0 →
      (c.call (sharedAfter s pre)).2.level = 0)
    (hpre : pre <+: calls) : (sharedAfter s pre).level = 0 := by
  induction pre using List.reverseRecOn with
  | nil => rfl
  | append_singleton pre c ih =>
    rw [sharedAfter_concat]
    exact h pre c hpre (ih ((List.prefix_append pre [c]).trans hpre))

/-- A settled evaluation has the value it has in the beginning. -/
theorem MathText.call_settled (h : c.Shallow settled sh.disk) (hs : c.Shallow settled s)
    (hlevel : sh.level = 0) (hst : Alike s sh.disk) :
    (c.call sh).1 = (c.call ⟨0, s⟩).1 ∧ (c.call sh).2.level = 0 ∧
      Alike s (c.call sh).2.disk := by
  obtain ⟨⟨v, t⟩, hv⟩ := Option.isSome_iff_exists.mp h
  obtain ⟨⟨w, u⟩, hw⟩ := Option.isSome_iff_exists.mp hs
  obtain ⟨level, disk⟩ := sh
  have hlevel : level = 0 := hlevel
  subst hlevel
  unfold MathText.call
  rw [answer_of_within hv, answer_of_within hw]
  exact ⟨(mathWithin_same hst hw hv).symm, rfl, hst.trans (alike_mathWithin hv)⟩

/-- An option `x` whose value is `x`. -/
def selfEnv : MathEnv := { config := { nodes := [configNodeNew [120] (some [120])] } }

/-- **A bracket that loses the seek**: with the base at `0x1000`, the seek at
`0x1800` is at `0x800` behind `[0]`, and `+0` is no longer what it was. -/
theorem bracket_loses_seek :
    let s : State := { openFile [] 1 1 with config :=
      { (openFile [] 1 1).config with vaddr := 0x1000, seek := 0x1800 } }
    let calls : List MathText := [⟨{}, [91, 48, 93]⟩, ⟨{}, [43, 48]⟩]
    (calls.map fun c => (c.call ⟨0, s⟩).1) = [0, 0x1800] ∧
      (sharedAfter s [⟨{}, [91, 48, 93]⟩]).disk.config.seek = 0x800 ∧
      (MathText.call ⟨{}, [43, 48]⟩ (sharedAfter s [⟨{}, [91, 48, 93]⟩])).1 = 0x800 := by
  decide +kernel

end Utils

end Radare
