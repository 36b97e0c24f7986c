import Radare.Common.Cover
import Radare.Common.Run
import Radare.Data.Model
/-!
# Items that overlap

`data_add` makes room for the first address of an item, not for the rest
of its block. So the items stay disjoint as long as no item starts within
the block behind that address (`items_disjoint_iff`).
-/

namespace Radare

open Common

/-- The addresses of an item. -/
def DataT.range (d : DataT) : Set ut64 := Set.Ico d.from_ d.to_

/-- **No two items of the list overlap.** -/
def ItemsDisjoint (data : List DataT) : Prop := data.Pairwise fun d e => Disjoint d.range e.range

/-- The configuration outside of cursor mode. -/
structure BlockConfig extends DataConfig where
  off : cursorMode = false
  pos : 1 ≤ blockSize

/-- The calls that edit the list. -/
inductive DataOp where
  | add (c : BlockConfig) (off : ut64) (type : DataType)
  | del (addr : ut64) (type : DataType) (len : ℤ)

def dataStep (data : List DataT) : DataOp → Option (List DataT)
  | .add c off type => some (dataAdd c.toDataConfig data off type)
  | .del addr type len => some (dataDel data addr type len)

/-- An item is added where none starts within its block, behind its first
address. -/
def DataOp.Clear (data : List DataT) : DataOp → Prop
  | .add c off type => type ≠ .code → ∀ d ∈ data,
      off < d.from_ → d.from_ < d.to_ → off + UInt64.ofInt c.blockSize ≤ d.from_
  | .del _ _ _ => True

/-! ## One call -/

variable {data : List DataT} {d : DataT} {off x : ut64} {c : BlockConfig} {type : DataType}

theorem has_iff : d.has x = true ↔ x ∈ d.range := by
  unfold DataT.has DataT.range
  rw [decide_eq_true_iff, Set.mem_Ico]

theorem range_dataNew (c : BlockConfig) (off : ut64) (type : DataType) :
    (dataNew c.toDataConfig off type).range = Set.Ico off (off + UInt64.ofInt c.blockSize) := by
  unfold DataT.range dataNew dataRange
  rw [if_neg (by rw [c.off]; exact Bool.false_ne_true)]

/-- The block at an address is disjoint from an item without the address
exactly if the item does not start in it. -/
theorem disjoint_block_iff {e : ut64} (h : off ∉ d.range) :
    Disjoint (Set.Ico off e) d.range ↔ (off < d.from_ → d.from_ < d.to_ → e ≤ d.from_) := by
  unfold DataT.range at *
  constructor
  · intro hd hlt hne
    by_contra hle
    exact Set.disjoint_left.mp hd ⟨hlt.le, not_le.mp hle⟩ ⟨le_rfl, hne⟩
  · intro hd
    refine Set.disjoint_left.mpr ?_
    rintro y ⟨hoff, hy⟩ ⟨hfrom, hto⟩
    rcases lt_or_ge off d.from_ with hlt | hge
    · exact absurd (hy.trans_le (hd hlt (hfrom.trans_lt hto))) (not_lt.mpr hfrom)
    · exact h ⟨hge, hoff.trans_lt hto⟩

theorem itemsDisjoint_dataClear (h : ItemsDisjoint data) : ItemsDisjoint (dataClear off data) := by
  rw [dataClear_eq]
  exact h.filter _

/-- **An item added** leaves the items disjoint exactly if it is clear. -/
theorem itemsDisjoint_dataAdd_iff (h : ItemsDisjoint data) :
    ItemsDisjoint (dataAdd c.toDataConfig data off type) ↔ DataOp.Clear data (.add c off type) := by
  unfold dataAdd DataOp.Clear
  dsimp only
  by_cases htype : type = .code
  · rw [if_pos htype]
    exact iff_of_true (itemsDisjoint_dataClear h) fun hne => absurd htype hne
  · rw [if_neg htype, forall_prop_of_true htype]
    have hrest : ItemsDisjoint (dataClear off data) := itemsDisjoint_dataClear h
    unfold ItemsDisjoint at hrest ⊢
    rw [List.pairwise_cons, range_dataNew, and_iff_left hrest, dataClear_eq]
    constructor
    · intro hdis d hd hlt
      have hnot : off ∉ d.range := fun hmem => not_le.mpr hlt hmem.1
      have hmem : d ∈ data.filter (!·.has off) := by
        rw [List.mem_filter, Bool.not_eq_true', ← Bool.not_eq_true, has_iff]
        exact ⟨hd, hnot⟩
      exact (disjoint_block_iff hnot).mp (hdis d hmem) hlt
    · intro hclear d hd
      rw [List.mem_filter, Bool.not_eq_true', ← Bool.not_eq_true, has_iff] at hd
      exact (disjoint_block_iff hd.2).mpr (hclear d hd.1)

theorem itemsDisjoint_dataDel (h : ItemsDisjoint data) (addr : ut64) (len : ℤ) :
    ItemsDisjoint (dataDel data addr type len) :=
  h.sublist List.eraseP_sublist

/-- **Items are disjoint if and only if `data_get` has at most one candidate
for every address.** -/
theorem itemsDisjoint_iff_candidates :
    ItemsDisjoint data ↔ ∀ x, (data.filter (·.has x)).length ≤ 1 := by
  induction data with
  | nil => exact iff_of_true List.Pairwise.nil fun x => Nat.zero_le 1
  | cons d data ih =>
    unfold ItemsDisjoint at ih ⊢
    rw [List.pairwise_cons, ih]
    constructor
    · rintro ⟨hd, hrest⟩ x
      by_cases hx : d.has x = true
      · have hnone : data.filter (·.has x) = [] := by
          refine List.filter_eq_nil_iff.mpr fun e he hex => ?_
          exact Set.disjoint_left.mp (hd e he) (has_iff.mp hx) (has_iff.mp hex)
        rw [List.filter_cons_of_pos (p := (DataT.has · x)) hx, hnone]
        exact Nat.le_refl 1
      · rw [List.filter_cons_of_neg (p := (DataT.has · x)) hx]
        exact hrest x
    · intro h
      have hrest : ∀ x, (data.filter (·.has x)).length ≤ 1 := fun x =>
        ((List.sublist_cons_self d data).filter _).length_le.trans (h x)
      refine ⟨fun e he => Set.disjoint_left.mpr fun x hxd hxe => ?_, hrest⟩
      have hone := h x
      rw [List.filter_cons_of_pos (p := (DataT.has · x)) (has_iff.mpr hxd), List.length_cons] at hone
      have hmem : e ∈ data.filter (·.has x) := List.mem_filter.mpr ⟨he, has_iff.mpr hxe⟩
      have := List.length_pos_of_mem hmem
      omega

/-- Then `data_get` finds the item that has the address. -/
theorem dataGet_eq_some_iff (h : ItemsDisjoint data) :
    dataGet data x = some d ↔ d ∈ data ∧ d.has x = true := by
  unfold dataGet
  constructor
  · exact fun hfind => ⟨List.mem_of_find?_eq_some hfind, List.find?_some (p := (DataT.has · x)) hfind⟩
  · rintro ⟨hd, hx⟩
    have hone := itemsDisjoint_iff_candidates.mp h x
    have hmem : d ∈ data.filter (·.has x) := List.mem_filter.mpr ⟨hd, hx⟩
    obtain ⟨e, he⟩ : ∃ e, data.filter (·.has x) = [e] := by
      have hpos := List.length_pos_of_mem hmem
      exact List.length_eq_one_iff.mp (by omega)
    rw [he, List.mem_singleton] at hmem
    rw [← List.head?_filter, he, hmem]
    rfl

/-! ## Runs -/

/-- **When items stay disjoint**: in a run of `data_add` outside of cursor
mode and `data_del`, no two items ever overlap if and only if each item is
added where none starts within its block. -/
theorem items_disjoint_iff (ops : List DataOp) :
    RunKeeps dataStep ItemsDisjoint [] ops ↔ RunSafe dataStep DataOp.Clear [] ops := by
  refine runs_keep_iff ?_ List.Pairwise.nil
  intro data op h
  cases op with
  | add c off type =>
    rw [← itemsDisjoint_dataAdd_iff h]
    exact some_good_iff
  | del addr type len =>
    exact iff_of_true ⟨_, rfl, itemsDisjoint_dataDel h addr len⟩ trivial

/-- **A block over an item behind it**: 16 bytes at 0x1008, and then 16 at
0x1000. -/
theorem block_over_item :
    let c : BlockConfig := ⟨⟨16, false, 0, -1, 0⟩, rfl, by decide⟩
    ¬RunKeeps dataStep ItemsDisjoint [] [.add c 0x1008 .hex, .add c 0x1000 .str] := by
  intro c h
  obtain ⟨data, hdata, hdis⟩ := h _ List.prefix_rfl
  obtain rfl := Option.some.inj hdata
  have hone := itemsDisjoint_iff_candidates.mp hdis 0x1008
  exact absurd hone (by decide)

end Radare
