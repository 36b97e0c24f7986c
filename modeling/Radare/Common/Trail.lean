import Mathlib.Data.Finset.Max
import Mathlib.Logic.Relation
import Radare.Common.Gaps
/-!
# Trails of intervals

Half-open intervals, of which some may start at one address: the first of
the list is the one that counts there. From an address where one starts a
trail goes to its end, and on from the first start there or ahead. What the
trail passes over is some of what the intervals cover, and all of it if and
only if no interval reaches beyond an end at which none starts
(`trail_eq_cover_iff`).
-/

namespace Radare

namespace Common

open Relation

variable {α : Type*} [LinearOrder α] {l : List (α × α)} {r q : α × α} {a b c e x : α}

/-- The interval that counts at an address. -/
def firstAt (l : List (α × α)) (a : α) : Option (α × α) := l.find? fun r => r.1 = a

/-- The first start at an address or ahead of it. -/
def IsNext (l : List (α × α)) (e b : α) : Prop :=
  (∃ q ∈ l, q.1 = b) ∧ e ≤ b ∧ ∀ q ∈ l, e ≤ q.1 → b ≤ q.1

/-- A trail goes from one start to another. -/
def Leads (l : List (α × α)) (a b : α) : Prop := ∃ r, firstAt l a = some r ∧ IsNext l r.2 b

/-- What a trail passes over. -/
def trail (l : List (α × α)) (a : α) : Set α :=
  {x | ∃ b r, ReflTransGen (Leads l) a b ∧ firstAt l b = some r ∧ x ∈ stretch r}

/-- What it passes over from an address on, at which none may start. -/
def trailFrom (l : List (α × α)) (e : α) : Set α := {x | ∃ b, IsNext l e b ∧ x ∈ trail l b}

/-- Where a trail comes to an end at which no interval starts, none
reaches beyond it. -/
def NoneBeyond (l : List (α × α)) (a : α) : Prop :=
  ∀ b r, ReflTransGen (Leads l) a b → firstAt l b = some r → (∀ q ∈ l, q.1 ≠ r.2) →
    ∀ q ∈ l, q.1 < r.2 → q.2 ≤ r.2

/-! ## Starts -/

theorem of_firstAt (h : firstAt l a = some r) : r ∈ l ∧ r.1 = a := by
  unfold firstAt at h
  have hfrom := List.find?_some h
  exact ⟨List.mem_of_find?_eq_some h, of_decide_eq_true hfrom⟩

theorem firstAt_isSome (h : r ∈ l) : ∃ r', firstAt l r.1 = some r' :=
  Option.isSome_iff_exists.mp (List.find?_isSome.mpr ⟨r, h, decide_eq_true rfl⟩)

/-- There is one if any start is ahead. -/
theorem exists_isNext (hq : q ∈ l) (he : e ≤ q.1) : ∃ b, IsNext l e b ∧ b ≤ q.1 := by
  obtain ⟨m, hm, hleast⟩ := Finset.exists_min_image (l.toFinset.filter fun r => e ≤ r.1) Prod.fst
    ⟨q, Finset.mem_filter.mpr ⟨List.mem_toFinset.mpr hq, he⟩⟩
  obtain ⟨hml, hme⟩ := Finset.mem_filter.mp hm
  have hall : ∀ p ∈ l, e ≤ p.1 → m.1 ≤ p.1 := fun p hp hep =>
    hleast p (Finset.mem_filter.mpr ⟨List.mem_toFinset.mpr hp, hep⟩)
  exact ⟨m.1, ⟨⟨m, List.mem_toFinset.mp hml, rfl⟩, hme, hall⟩, hall q hq he⟩

theorem IsNext.unique (hb : IsNext l e b) (hc : IsNext l e c) : b = c := by
  obtain ⟨⟨q, hq, rfl⟩, hqe, hqleast⟩ := hb
  obtain ⟨⟨p, hp, rfl⟩, hpe, hpleast⟩ := hc
  exact le_antisymm (hqleast p hp hpe) (hpleast q hq hqe)

/-- At a start it is this one. -/
theorem isNext_self (hq : q ∈ l) : IsNext l q.1 q.1 := ⟨⟨q, hq, rfl⟩, le_rfl, fun _ _ h => h⟩

/-! ## A trail, an interval at a time -/

theorem trail_eq (hr : firstAt l a = some r) : trail l a = stretch r ∪ trailFrom l r.2 := by
  ext x
  constructor
  · rintro ⟨b, r', hab, hr', hx⟩
    rcases ReflTransGen.cases_head hab with rfl | ⟨d, ⟨r'', hr'', hnext⟩, hdb⟩
    · obtain rfl := Option.some.inj (hr.symm.trans hr')
      exact Or.inl hx
    · obtain rfl := Option.some.inj (hr.symm.trans hr'')
      exact Or.inr ⟨d, hnext, b, r', hdb, hr', hx⟩
  · rintro (hx | ⟨d, hnext, b, r', hdb, hr', hx⟩)
    · exact ⟨a, r, ReflTransGen.refl, hr, hx⟩
    · exact ⟨b, r', ReflTransGen.head ⟨r, hr, hnext⟩ hdb, hr', hx⟩

theorem trailFrom_of_isNext (h : IsNext l e b) : trailFrom l e = trail l b := by
  ext x
  constructor
  · rintro ⟨c, hc, hx⟩
    rwa [← hc.unique h]
  · exact fun hx => ⟨b, h, hx⟩

theorem trailFrom_of_none (h : ∀ q ∈ l, q.1 < e) : trailFrom l e = ∅ := by
  refine Set.eq_empty_of_forall_notMem ?_
  rintro x ⟨b, ⟨⟨q, hq, rfl⟩, he, -⟩, -⟩
  exact (h q hq).not_ge he

theorem trail_subset : trail l a ⊆ cover stretch l := by
  rintro x ⟨b, r, -, hr, hx⟩
  exact ⟨r, (of_firstAt hr).1, hx⟩

/-! ## Trails go ahead -/

theorem leads_unique (hb : Leads l a b) (hc : Leads l a c) : b = c := by
  obtain ⟨r, hr, hb⟩ := hb
  obtain ⟨r', hr', hc⟩ := hc
  obtain rfl := Option.some.inj (hr.symm.trans hr')
  exact hb.unique hc

theorem le_of_reach (hpos : ∀ r ∈ l, r.1 < r.2) (h : ReflTransGen (Leads l) a b) : a ≤ b := by
  induction h with
  | refl => exact le_rfl
  | tail _ hbc ih =>
    obtain ⟨r, hr, hnext⟩ := hbc
    obtain ⟨hmem, rfl⟩ := of_firstAt hr
    exact ih.trans ((hpos r hmem).le.trans hnext.2.1)

/-- **What is ahead on a trail is behind the end.** -/
theorem end_le_of_reach (hpos : ∀ r ∈ l, r.1 < r.2) (h : ReflTransGen (Leads l) b c)
    (hr : firstAt l b = some r) (hne : b ≠ c) : r.2 ≤ c := by
  rcases ReflTransGen.cases_head h with rfl | ⟨d, ⟨r', hr', hnext⟩, hdc⟩
  · exact absurd rfl hne
  · obtain rfl := Option.some.inj (hr.symm.trans hr')
    exact hnext.2.1.trans (le_of_reach hpos hdc)

/-- Of two places on a trail one is behind the end of the other. -/
theorem end_le_of_lt (hpos : ∀ r ∈ l, r.1 < r.2) (hb : ReflTransGen (Leads l) a b)
    (hc : ReflTransGen (Leads l) a c)
    (hr : firstAt l b = some r) (hlt : b < c) : r.2 ≤ c := by
  have hright : Relator.RightUnique (Leads l) := fun _ _ _ => leads_unique
  rcases ReflTransGen.total_of_right_unique hright hb hc with h | h
  · exact end_le_of_reach hpos h hr hlt.ne
  · exact absurd (le_of_reach hpos h) hlt.not_ge

/-! ## All that is covered -/

/-- **Where a trail is at an address**: in an interval, or between its end
and the next start. -/
theorem trail_at (hpos : ∀ r ∈ l, r.1 < r.2) (hr : firstAt l a = some r) (hx : a ≤ x) :
    ∃ b r', ReflTransGen (Leads l) a b ∧ firstAt l b = some r' ∧ b ≤ x ∧
      (x < r'.2 ∨ ∀ q ∈ l, r'.2 ≤ q.1 → x < q.1) := by
  -- the induction is on the number of starts ahead
  induction hn : (l.toFinset.filter fun q => a < q.1).card using Nat.strong_induction_on
    generalizing a r with
  | _ n ih =>
    by_cases hin : x < r.2
    · exact ⟨a, r, ReflTransGen.refl, hr, hx, Or.inl hin⟩
    by_cases hahead : ∀ q ∈ l, r.2 ≤ q.1 → x < q.1
    · exact ⟨a, r, ReflTransGen.refl, hr, hx, Or.inr hahead⟩
    obtain ⟨q, hq, hrq, hqx⟩ : ∃ q ∈ l, r.2 ≤ q.1 ∧ q.1 ≤ x := by
      simpa only [not_forall, not_lt, exists_prop] using hahead
    obtain ⟨b, hnext, hbq⟩ := exists_isNext hq hrq
    obtain ⟨⟨p, hp, rfl⟩, hrp, -⟩ := id hnext
    obtain ⟨hmem, hra⟩ := of_firstAt hr
    have hab : a < p.1 := (hra ▸ hpos r hmem).trans_le hrp
    obtain ⟨r', hr'⟩ := firstAt_isSome hp
    have hfewer : (l.toFinset.filter fun q => p.1 < q.1).card < n := by
      rw [← hn]
      refine Finset.card_lt_card (Finset.ssubset_iff_of_subset ?_ |>.mpr ⟨p, ?_, ?_⟩)
      · exact Finset.monotone_filter_right _ fun q _ hpq => hab.trans hpq
      · exact Finset.mem_filter.mpr ⟨List.mem_toFinset.mpr hp, hab⟩
      · exact fun h => lt_irrefl _ (Finset.mem_filter.mp h).2
    obtain ⟨c, r'', hreach, hr'', hcx, hcase⟩ := ih _ hfewer hr' (hbq.trans hqx) rfl
    exact ⟨c, r'', ReflTransGen.head ⟨r, hr, hnext⟩ hreach, hr'', hcx, hcase⟩

/-- **When a trail passes over everything**: from the first start, if and
only if no interval reaches beyond an end of the trail at which none
starts. -/
theorem trail_eq_cover_iff (hpos : ∀ r ∈ l, r.1 < r.2) (hmem : r ∈ l)
    (hleast : ∀ q ∈ l, r.1 ≤ q.1) :
    trail l r.1 = cover stretch l ↔ NoneBeyond l r.1 := by
  obtain ⟨r₀, hr₀⟩ := firstAt_isSome hmem
  constructor
  · intro h b r' hb hr' hnone q hq hlt
    by_contra hbeyond
    -- the end is covered, and the trail has no interval there
    have hin : r'.2 ∈ trail l r.1 := by
      rw [h]
      exact ⟨q, hq, hlt.le, not_le.mp hbeyond⟩
    obtain ⟨c, r'', hc, hr'', hlo, hhi⟩ := hin
    obtain ⟨hmem'', rfl⟩ := of_firstAt hr''
    rcases lt_trichotomy r''.1 b with hcb | rfl | hbc
    · have hle := end_le_of_lt hpos hc hb hr'' hcb
      obtain ⟨hmem', rfl⟩ := of_firstAt hr'
      exact ((hpos r' hmem').trans hhi).not_ge hle
    · obtain rfl := Option.some.inj (hr'.symm.trans hr'')
      exact lt_irrefl _ hhi
    · have hle := end_le_of_lt hpos hb hc hr' hbc
      exact hnone r'' hmem'' (le_antisymm hlo hle)
  · intro h
    refine Set.Subset.antisymm trail_subset ?_
    rintro x ⟨q, hq, hqx, hxq⟩
    obtain ⟨b, r', hb, hr', hbx, hin | hahead⟩ := trail_at hpos hr₀ ((hleast q hq).trans hqx)
    · exact ⟨b, r', hb, hr', (of_firstAt hr').2 ▸ hbx, hin⟩
    · by_cases hin : x < r'.2
      · exact ⟨b, r', hb, hr', (of_firstAt hr').2 ▸ hbx, hin⟩
      have hlt : q.1 < r'.2 := not_le.mp fun hle => (hahead q hq hle).not_ge hqx
      have hnone : ∀ p ∈ l, p.1 ≠ r'.2 := fun p hp heq =>
        (hahead p hp heq.ge).not_ge (heq.le.trans (not_lt.mp hin))
      exact absurd (hxq.trans_le (h b r' hb hr' hnone q hq hlt)) hin

end Common

end Radare
