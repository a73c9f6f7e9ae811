import Pd3Estimator.LossSort
import Pd3Estimator.ExtentPackets

/-!
# What `lossdata_a2r` counts on distinct sequence numbers

`lossdata_arrival` coalesces the arrivals of an epoch into ranges as they come, so two orders of
the same arrivals leave different range lists. `lossdata_a2r_compute` sorts the ranges and
sweeps them; when the sequence numbers are distinct and lie in `[1, 2 ^ 31)`, no range overlaps
another, no range is clipped, and the sweep counts sequence number after sequence number.

* `tallySeqnos`: the sweep read on sequence numbers, each counted as a range of its own;
  `tallySeqnos_range`: a range of the sweep is its sequence numbers;
* `sweep_separated`: on ranges in increasing order, none overlapping the next, the sweep counts
  their sequence numbers and clips nothing;
* `sliceBounds_decomp` and `sortRanges_decomp`: the sorted array is the ranges up to the past
  one, the slice, and future ranges; `lossdataA2rCompute_slice`: the computation sweeps the
  slice and gives the chain's ranges back;
* `lossdataA2rCompute_eq` and `lossdataA2r_canon`: **`lossdata_a2r` counts the sorted sequence
  numbers between the last past one and the last one that is not future** (`lossCanon`), which
  depend only on the sets of present and future sequence numbers (`lossCanon_perm`); it leaves
  `high_seqno` and `last_range.high` at the last of them (`lossTop`), and the later maps'
  ranges as they were, flags apart.
-/

namespace Pd3Estimator

/-! ### Sequence numbers in order -/

instance : IsTotal Seqno (· ≤ ·) := ⟨fun x y => Nat.le_total x.toNat y.toNat⟩

instance : IsTrans Seqno (· ≤ ·) := ⟨fun _ _ _ h₁ h₂ => le_iff_toNat.2 (Nat.le_trans h₁ h₂)⟩

instance : IsAntisymm Seqno (· ≤ ·) := ⟨fun _ _ h₁ h₂ => eq_iff_toNat.2 (Nat.le_antisymm h₁ h₂)⟩

/-- Sequence numbers in increasing order. -/
def sortSeqnos (l : List Seqno) : List Seqno := l.insertionSort (· ≤ ·)

theorem sortSeqnos_eq_of_perm {l l' : List Seqno} (h : l.Perm l') : sortSeqnos l = sortSeqnos l' :=
  List.eq_of_perm_of_sorted
    (((List.perm_insertionSort _ l).trans h).trans (List.perm_insertionSort _ l').symm)
    (List.sorted_insertionSort _ _) (List.sorted_insertionSort _ _)

theorem mem_seqnosFrom {x i : Seqno} : ∀ {n : Nat}, i.toNat + n ≤ 2 ^ 32 →
    (x ∈ seqnosFrom i n ↔ i.toNat ≤ x.toNat ∧ x.toNat < i.toNat + n)
  | 0, _ => by simp [seqnosFrom]
  | n + 1, h => by
    have := toNat_lt_two_pow x
    rw [seqnosFrom, List.mem_cons, mem_seqnosFrom (by rw [toNat_add', toNat_one]; omega),
      eq_iff_toNat, toNat_add', toNat_one]
    omega

/-- The sequence numbers of a range are those between its ends. -/
theorem mem_seqnos {x : Seqno} {r : SeqnoRange} :
    x ∈ r.seqnos ↔ r.low.toNat ≤ x.toNat ∧ x.toNat ≤ r.high.toNat := by
  have := toNat_lt_two_pow r.high
  have := toNat_lt_two_pow r.low
  rw [SeqnoRange.seqnos, mem_seqnosFrom (by omega)]
  omega

theorem sorted_seqnosFrom (i : Seqno) : ∀ n, i.toNat + n ≤ 2 ^ 32 → (seqnosFrom i n).Sorted (· < ·)
  | 0, _ => List.sorted_nil
  | n + 1, h => by
    have hi : (i + 1).toNat + n ≤ 2 ^ 32 := by rw [toNat_add', toNat_one]; omega
    refine List.sorted_cons.2 ⟨fun b hb => ?_, sorted_seqnosFrom (i + 1) n hi⟩
    rw [mem_seqnosFrom hi, toNat_add', toNat_one] at hb
    exact lt_iff_toNat.2 (by omega)

theorem sorted_seqnos (r : SeqnoRange) : r.seqnos.Sorted (· < ·) :=
  sorted_seqnosFrom _ _ (by have := toNat_lt_two_pow r.high; have := toNat_lt_two_pow r.low; omega)

/-- Ranges in increasing order, each ending before the next starts. -/
def Separated (l : List SeqnoRange) : Prop := l.Pairwise fun r s => r.high.toNat < s.low.toNat

theorem sorted_flatMap_seqnos : ∀ {l : List SeqnoRange}, Separated l →
    (l.flatMap SeqnoRange.seqnos).Sorted (· < ·)
  | [], _ => List.sorted_nil
  | r :: rs, h => by
    rw [List.flatMap_cons, List.Sorted, List.pairwise_append]
    refine ⟨sorted_seqnos r, sorted_flatMap_seqnos (List.pairwise_cons.1 h).2,
      fun x hx y hy => ?_⟩
    obtain ⟨s, hs, hy⟩ := List.mem_flatMap.1 hy
    have := (List.pairwise_cons.1 h).1 s hs
    rw [mem_seqnos] at hx hy
    exact lt_iff_toNat.2 (by omega)

/-! ### The sweep on sequence numbers -/

/-- `gap` of `lossdata_a2r_compute` between the last counted sequence number `prev` and the
next one it counts, `x`. -/
def seqGap (prev x : Seqno) : PacketCount :=
  let distance := modularDistance prev x
  if distance > 0 then distance - 1 else 0

theorem gapBefore_eq_seqGap (prev r : SeqnoRange) : gapBefore prev r = seqGap prev.high r.low :=
  rfl

/-- The sweep read on sequence numbers: each of `xs` counted as a range of its own, after the
last counted sequence number `prev`. -/
def tallySeqnos : LossDataR → Seqno → List Seqno → LossDataR
  | ldr, _, [] => ldr
  | ldr, prev, x :: xs => tallySeqnos (ldr.tally 1 (seqGap prev x)) x xs

theorem tally_zero (ldr : LossDataR) (recd : PacketCount) :
    ldr.tally recd 0 = { ldr with received := ldr.received + recd, dropped := ldr.dropped + 0 } := by
  unfold LossDataR.tally
  rfl

theorem tally_received (ldr : LossDataR) (recd gap : PacketCount) :
    (ldr.tally recd gap).received = ldr.received + recd := by
  unfold LossDataR.tally
  by_cases h1 : gap > 1 <;> by_cases h0 : gap > 0 <;> simp only [h1, h0, if_true, if_false]

theorem tally_add (ldr : LossDataR) (a b gap : PacketCount) :
    ldr.tally (a + b) gap = { ldr.tally a gap with received := ldr.received + (a + b) } := by
  unfold LossDataR.tally
  by_cases h1 : gap > 1 <;> by_cases h0 : gap > 0 <;> simp only [h1, h0, if_true, if_false]

/-- A range that follows the last counted one without a gap adds to `received` only. -/
theorem tally_tally_zero (ldr : LossDataR) (a b g : PacketCount) :
    (ldr.tally a g).tally b 0 = ldr.tally (a + b) g := by
  have hr : ldr.received + a + b = ldr.received + (a + b) := by
    rw [eq_iff_toNat]
    simp only [toNat_add']
    omega
  have hd : (ldr.tally a g).dropped + 0 = (ldr.tally a g).dropped := by
    rw [eq_iff_toNat, toNat_add' _ 0]
    exact Nat.mod_eq_of_lt (toNat_lt_two_pow _)
  rw [tally_zero, hd, tally_received, hr, tally_add]

theorem seqGap_succ {x : Seqno} (h : x.toNat < 2 ^ 32 - 1) : seqGap x (x + 1) = 0 := by
  have hd : modularDistance x (x + 1) = 1 := by
    rw [eq_iff_toNat, modularDistance_toNat, toNat_succ h, if_pos (by omega), toNat_one]
    omega
  simp only [seqGap, hd]
  rfl

theorem tallySeqnos_seqnosFrom (rest : List Seqno) : ∀ (n : Nat) (ldr : LossDataR) (prev lo : Seqno),
    lo.toNat + n < 2 ^ 32 - 1 →
    tallySeqnos ldr prev (seqnosFrom lo (n + 1) ++ rest) =
      tallySeqnos (ldr.tally (1 + UInt32.ofNat n) (seqGap prev lo)) (lo + UInt32.ofNat n) rest
  | 0, ldr, prev, lo, _ => by
    rw [add_ofNat_zero, add_ofNat_zero]
    rfl
  | n + 1, ldr, prev, lo, hn => by
    have hlo : lo.toNat < 2 ^ 32 - 1 := by omega
    have hc : (1 : PacketCount) + (1 + UInt32.ofNat n) = 1 + UInt32.ofNat (n + 1) := by
      rw [eq_iff_toNat]
      simp only [toNat_add', toNat_ofNat_nat, toNat_one]
      omega
    rw [seqnosFrom, List.cons_append, tallySeqnos, tallySeqnos_seqnosFrom rest n
      (ldr.tally 1 (seqGap prev lo)) lo (lo + 1) (by rw [toNat_succ hlo]; omega),
      seqGap_succ hlo, tally_tally_zero, hc, add_one_add_ofNat]

/-- **A range of the sweep is its sequence numbers**, counted one by one. -/
theorem tallySeqnos_range {r : SeqnoRange} (hlo : r.low.toNat ≤ r.high.toNat)
    (hhi : r.high.toNat < 2 ^ 32 - 1) (ldr : LossDataR) (prev : Seqno) (rest : List Seqno) :
    tallySeqnos ldr prev (r.seqnos ++ rest) =
      tallySeqnos (ldr.tally (r.high - r.low + 1) (seqGap prev r.low)) r.high rest := by
  rw [SeqnoRange.seqnos, show r.high.toNat + 1 - r.low.toNat = (r.high.toNat - r.low.toNat) + 1
    by omega, tallySeqnos_seqnosFrom rest _ _ _ _ (by omega), rangeSize_eq hlo]
  congr
  rw [eq_iff_toNat, toNat_add', toNat_ofNat_nat]
  have := toNat_lt_two_pow r.high
  omega

/-! ### The sweep over separated ranges -/

/-- **On separated ranges above `base`, the sweep clips nothing** and counts their sequence
numbers one by one, from the last counted range `prev`; it ends at the last range, or at `prev`
when there is none. -/
theorem sweep_separated (base : Seqno) : ∀ (l : List (Nat × SeqnoRange)) (ldr : LossDataR)
    (prev : SeqnoRange), base.toNat ≤ prev.high.toNat → Separated (prev :: l.map Prod.snd) →
    (∀ x ∈ l, x.2.low.toNat ≤ x.2.high.toNat ∧ x.2.high.toNat < 2 ^ 32 - 1) →
    sweep base (ldr, prev) l =
      ((tallySeqnos ldr prev.high ((l.map Prod.snd).flatMap SeqnoRange.seqnos),
        (l.map Prod.snd).getLast?.getD prev), l)
  | [], _, _, _, _, _ => rfl
  | (k, r) :: rest, ldr, prev, hb, hsep, hr => by
    have hsep' := List.pairwise_cons.1 hsep
    have hpr : prev.high.toNat < r.low.toNat := hsep'.1 r (List.mem_cons_self _ _)
    obtain ⟨hlo, hhi⟩ : r.low.toNat ≤ r.high.toNat ∧ r.high.toNat < 2 ^ 32 - 1 :=
      hr (k, r) (List.mem_cons_self _ _)
    have hclip : clipRange base prev r = some r := by
      have hd : ¬modularDistance base r.low ≤ modularDistance base prev.high := by
        rw [le_iff_toNat, modularDistance_toNat, modularDistance_toNat, if_pos (by omega),
          if_pos hb]
        omega
      have hf : ¬r.high < r.low := fun h => absurd (lt_iff_toNat.1 h) (by omega)
      simp only [clipRange, if_neg hd, fixHigh, if_neg hf]
    rw [sweep, hclip]
    dsimp only
    rw [sweep_separated base rest _ r (by omega) hsep'.2
      (fun x hx => hr x (List.mem_cons_of_mem _ hx))]
    simp only [List.map_cons, List.flatMap_cons, tallySeqnos_range hlo hhi, gapBefore_eq_seqGap,
      List.getLast?_cons, Option.getD_some]

/-! ### The slice -/

/-- The step of the loop of `sliceBounds`. -/
def sliceStep (be : Nat × Nat) (ir : Nat × SeqnoRange) : Nat × Nat :=
  (if ir.2.arrivalPeriod = .past then ir.1 + 1 else be.1,
   if ir.2.arrivalPeriod ≠ .future then ir.1 else be.2)

theorem sliceBounds_eq_foldl (arr : List SeqnoRange) :
    sliceBounds arr = (arr.enumFrom 0).foldl sliceStep (0, arr.length) := rfl

theorem foldl_sliceStep_concat (l : List SeqnoRange) (x : SeqnoRange) (n : Nat) (be : Nat × Nat) :
    ((l ++ [x]).enumFrom n).foldl sliceStep be =
      sliceStep ((l.enumFrom n).foldl sliceStep be) (n + l.length, x) := by
  rw [List.enumFrom_append, List.foldl_append, List.enumFrom_singleton]
  rfl

theorem foldl_sliceStep_fst {l : List SeqnoRange} (h : ∀ r ∈ l, r.arrivalPeriod ≠ .past) :
    ∀ n be, ((l.enumFrom n).foldl sliceStep be).1 = be.1 := by
  induction l with
  | nil => exact fun _ _ => rfl
  | cons r rs ih =>
    intro n be
    rw [List.enumFrom_cons, List.foldl_cons, ih (fun r hr => h r (List.mem_cons_of_mem _ hr))]
    exact if_neg (h r (List.mem_cons_self _ _))

theorem foldl_sliceStep_future {l : List SeqnoRange} (h : ∀ r ∈ l, r.arrivalPeriod = .future) :
    ∀ n be, (l.enumFrom n).foldl sliceStep be = be := by
  induction l with
  | nil => exact fun _ _ => rfl
  | cons r rs ih =>
    intro n be
    have hr := h r (List.mem_cons_self _ _)
    rw [List.enumFrom_cons, List.foldl_cons, ih (fun r hr => h r (List.mem_cons_of_mem _ hr))]
    simp [sliceStep, hr]

/-- **Where the slice lies**: in an array `A ++ B ++ C` where `A` is empty or ends with the
last past range, `A ++ B` ends with a range that is not future, and `C` is future, the slice
is `B`. -/
theorem sliceBounds_decomp {A B C : List SeqnoRange}
    (hA : A = [] ∨ ∃ A' p, A = A' ++ [p] ∧ p.arrivalPeriod = .past)
    (hBC : ∀ r ∈ B ++ C, r.arrivalPeriod ≠ .past)
    (hlast : ∃ L q, A ++ B = L ++ [q] ∧ q.arrivalPeriod ≠ .future)
    (hC : ∀ r ∈ C, r.arrivalPeriod = .future) :
    sliceBounds (A ++ B ++ C) = (A.length, A.length + B.length - 1) := by
  rw [sliceBounds_eq_foldl, List.enumFrom_append, List.foldl_append, foldl_sliceStep_future hC]
  obtain ⟨L, q, hLq, hq⟩ := hlast
  refine Prod.ext ?_ ?_
  · rw [List.enumFrom_append, List.foldl_append,
      foldl_sliceStep_fst (fun r hr => hBC r (List.mem_append_left _ hr))]
    rcases hA with rfl | ⟨A', p, rfl, hp⟩
    · rfl
    · rw [foldl_sliceStep_concat]
      simp [sliceStep, hp]
  · have hlen := congrArg List.length hLq
    rw [hLq, foldl_sliceStep_concat]
    simp only [List.length_append, List.length_singleton] at hlen
    simp only [sliceStep, if_pos hq]
    omega

/-- `sliceBounds_decomp` on the ranges of a tagged array. -/
theorem sliceBounds_map_snd {A B C L : List (Nat × SeqnoRange)} {q : Nat × SeqnoRange}
    (hA : A = [] ∨ ∃ A' p, A = A' ++ [p] ∧ p.2.arrivalPeriod = .past)
    (hBC : ∀ x ∈ B ++ C, x.2.arrivalPeriod ≠ .past) (hLq : A ++ B = L ++ [q])
    (hq : q.2.arrivalPeriod ≠ .future) (hC : ∀ x ∈ C, x.2.arrivalPeriod = .future) :
    sliceBounds ((A ++ B ++ C).map Prod.snd) = (A.length, A.length + B.length - 1) := by
  have h := @sliceBounds_decomp (A.map Prod.snd) (B.map Prod.snd) (C.map Prod.snd)
    (by
      rcases hA with rfl | ⟨A', p, rfl, hp⟩
      · exact .inl rfl
      · exact .inr ⟨A'.map Prod.snd, p.2, by simp, hp⟩)
    (fun r hr => by
      rw [← List.map_append] at hr
      obtain ⟨x, hx, rfl⟩ := List.mem_map.1 hr
      exact hBC x hx)
    ⟨L.map Prod.snd, q.2, by rw [← List.map_append, hLq, List.map_append]; rfl, hq⟩
    (fun r hr => by
      obtain ⟨x, hx, rfl⟩ := List.mem_map.1 hr
      exact hC x hx)
  rwa [List.length_map, List.length_map, ← List.map_append, ← List.map_append] at h

/-! ### The sorted array of a chain in `[1, 2 ^ 31)` -/

/-- A range whose sequence numbers lie in `[1, 2 ^ 31)`. -/
def SeqnoRange.InArc (r : SeqnoRange) : Prop :=
  1 ≤ r.low.toNat ∧ r.low.toNat ≤ r.high.toNat ∧ r.high.toNat < 2 ^ 31

theorem arcOffset_zero (r : SeqnoRange) : arcOffset 0 r = r.low.toNat := by
  rw [arcOffset, toNat_sub']
  have := toNat_lt_two_pow r.low
  simp only [toNat_ofNat']
  omega

/-- The chain's ranges come back from the array as they went in, apart from the flags the
cleanup loop resets. -/
theorem cleanupRanges_writeBack {chain : List SeqnoRange} {arr : List (Nat × SeqnoRange)}
    (harr : (arr.map clearWrapped).Perm chain.enum) :
    cleanupRanges (writeBack chain arr) = cleanupRanges chain := by
  conv_rhs => rw [← List.enum_map_snd chain]
  rw [cleanupRanges, cleanupRanges, writeBack, List.map_map, List.map_map]
  refine List.map_congr_left fun ⟨k, r⟩ hkr => ?_
  obtain ⟨x, hx, hxkr⟩ := List.mem_map.1 (harr.symm.subset hkr)
  have hxk : x.1 = k := congrArg Prod.fst hxkr
  obtain ⟨y, hy⟩ : ∃ y, arr.find? (·.1 = k) = some y :=
    Option.isSome_iff_exists.1 (List.find?_isSome.2 ⟨x, hx, by simp [hxk]⟩)
  have hyk : y.1 = k := by simpa using List.find?_some hy
  have hymem : clearWrapped y ∈ chain.enum :=
    harr.subset (List.mem_map_of_mem _ (List.mem_of_find?_eq_some hy))
  have hr : (clearWrapped y).2 = r := by
    have h1 := List.mem_enum_iff_getElem?.1 hymem
    have h2 := List.mem_enum_iff_getElem?.1 hkr
    simp only [clearWrapped, hyk] at h1 h2
    exact Option.some.inj (h1.symm.trans h2)
  simp only [Function.comp, hy, Option.map_some', Option.getD_some, ← hr]
  rfl

section Chain
variable {chain : List SeqnoRange} (hc : ∀ r ∈ chain, r.wraparound = false ∧ r.InArc)
include hc

theorem arc_enum : ∀ x ∈ chain.enum, arcOffset 0 x.2 < 2 ^ 31 := fun x hx => by
  rw [arcOffset_zero]
  have := (hc x.2 (List.snd_mem_of_mem_enum hx)).2
  unfold SeqnoRange.InArc at this
  omega

theorem unwrapped_enum : ∀ x ∈ chain.enum, x.2.wraparound = false := fun x hx =>
  (hc x.2 (List.snd_mem_of_mem_enum hx)).1

/-- Marks aside, the sorted array holds the chain's ranges. -/
theorem perm_sortRanges : ((sortRanges chain.enum).map clearWrapped).Perm chain.enum :=
  map_clearWrapped_sortRanges (unwrapped_enum hc) (arc_enum hc) ▸ perm_qsortRanges (arc_enum hc)

theorem mem_sortRanges {x : Nat × SeqnoRange} (hx : x ∈ sortRanges chain.enum) :
    x.2.InArc ∧ ∃ r ∈ chain, r = { x.2 with wraparound := false } :=
  have hr := List.snd_mem_of_mem_enum ((perm_sortRanges hc).subset (List.mem_map_of_mem _ hx))
  ⟨(hc _ hr).2, _, hr, rfl⟩

theorem flatMap_sortRanges_perm :
    (((sortRanges chain.enum).map Prod.snd).flatMap SeqnoRange.seqnos).Perm
      (chain.flatMap SeqnoRange.seqnos) := by
  have h := ((perm_sortRanges hc).map Prod.snd).flatMap_right SeqnoRange.seqnos
  rw [List.enum_map_snd, List.map_map, List.flatMap_map] at h
  rw [List.flatMap_map]
  exact h

theorem exists_sortRanges_of_mem {r : SeqnoRange} (hr : r ∈ chain) :
    ∃ x ∈ sortRanges chain.enum, { x.2 with wraparound := false } = r := by
  obtain ⟨i, hi, rfl⟩ := List.getElem_of_mem hr
  have hmem : (i, chain[i]) ∈ chain.enum := List.mem_enum_iff_getElem?.2 (by simp)
  obtain ⟨x, hx, hxe⟩ := List.mem_map.1 ((perm_sortRanges hc).symm.subset hmem)
  exact ⟨x, hx, congrArg Prod.snd hxe⟩

variable (hnd : (chain.flatMap SeqnoRange.seqnos).Nodup)
include hnd

/-- **The sorted array is separated**: sorted by `low`, and no two ranges share a sequence
number, so each ends before the next starts. -/
theorem separated_sortRanges : Separated ((sortRanges chain.enum).map Prod.snd) := by
  have hq := perm_qsortRanges (arc_enum hc)
  have hw : ∀ x ∈ qsortRanges chain.enum, x.2.wraparound = false := fun x hx =>
    unwrapped_enum hc x (hq.subset hx)
  have hle : (qsortRanges chain.enum).Pairwise fun x y => x.2.low.toNat ≤ y.2.low.toNat :=
    (sorted_qsortRanges (arc_enum hc)).imp_of_mem fun {x y} hx hy hxy => by
      simpa [arcKey, hw x hx, hw y hy, arcOffset_zero] using hxy
  have hdisj := (List.nodup_flatMap.1 (((hq.map Prod.snd).flatMap_right
    SeqnoRange.seqnos).nodup_iff.2 (by rwa [List.enum_map_snd]))).2
  rw [List.pairwise_map] at hdisj
  have hsep : Separated ((qsortRanges chain.enum).map Prod.snd) := by
    rw [Separated, List.pairwise_map]
    refine (hle.and hdisj).imp_of_mem fun {x y} hx hy ⟨hxy, hd⟩ => Nat.lt_of_not_le fun h => ?_
    have hx' := (hc x.2 (List.snd_mem_of_mem_enum (hq.subset hx))).2
    have hy' := (hc y.2 (List.snd_mem_of_mem_enum (hq.subset hy))).2
    unfold SeqnoRange.InArc at hx' hy'
    exact hd (mem_seqnos.2 ⟨hxy, h⟩) (mem_seqnos.2 ⟨le_rfl, hy'.2.1⟩)
  rw [← map_clearWrapped_sortRanges (unwrapped_enum hc) (arc_enum hc), List.map_map] at hsep
  rw [Separated, List.pairwise_map] at hsep ⊢
  exact hsep

/-- The sequence numbers of the sorted array, range after range, are the chain's in order. -/
theorem flatMap_sortRanges :
    ((sortRanges chain.enum).map Prod.snd).flatMap SeqnoRange.seqnos =
      sortSeqnos (chain.flatMap SeqnoRange.seqnos) :=
  List.eq_of_perm_of_sorted ((flatMap_sortRanges_perm hc).trans (List.perm_insertionSort _ _).symm)
    ((sorted_flatMap_seqnos (separated_sortRanges hc hnd)).imp fun h => le_iff_toNat.2 (Nat.le_of_lt h))
    (List.sorted_insertionSort _ _)

end Chain

/-! ### The computation over the slice -/

/-- **`lossdata_a2r_compute` sweeps the slice and nothing else**: on a chain whose sorted array
is `TA`, then the slice `TB` of separated ranges above the range `st.lastRange` the sweep starts
from, then `TC`, where `TA ++ TB` ends with `q`, it counts the slice's sequence numbers, leaves
the slice's last range as `last_range` and `q.high` as `present_high`, and gives the chain's
ranges back as they were, flags apart. -/
theorem lossdataA2rCompute_slice {chain : List SeqnoRange} {TA TB TC L : List (Nat × SeqnoRange)}
    {q : Nat × SeqnoRange} (ldr : LossDataR) (state : LossState)
    (harr : sortRanges chain.enum = TA ++ TB ++ TC) (hLq : TA ++ TB = L ++ [q])
    (hperm : ((TA ++ TB ++ TC).map clearWrapped).Perm chain.enum)
    (hbe : sliceBounds ((TA ++ TB ++ TC).map Prod.snd) = (TA.length, TA.length + TB.length - 1))
    (hsep : Separated (TB.map Prod.snd))
    (hin : ∀ x ∈ TB, x.2.low.toNat ≤ x.2.high.toNat ∧ x.2.high.toNat < 2 ^ 32 - 1)
    (st : LossState) (hst : (if state.hasLastRange then state else
      { state with hasLastRange := true, lastRange :=
        SeqnoRange.single ((((TA ++ TB ++ TC).get? TA.length).map (·.2.low)).getD 0 - 1) }) = st)
    (hbelow : ∀ r ∈ TB.map Prod.snd, st.lastRange.high.toNat < r.low.toNat) :
    lossdataA2rCompute ldr state chain =
      (some (tallySeqnos ldr st.lastRange.high ((TB.map Prod.snd).flatMap SeqnoRange.seqnos),
        { st with lastRange := (TB.map Prod.snd).getLast?.getD st.lastRange }, q.2.high),
       cleanupRanges chain) := by
  have hlen : TA.length + TB.length = L.length + 1 := by simpa using congrArg List.length hLq
  have hclen : chain.length = TA.length + TB.length + TC.length := by
    simpa [Nat.add_assoc] using hperm.length_eq.symm
  have hslice : List.take (TA.length + TB.length - 1 + 1 - TA.length)
      (List.drop TA.length (TA ++ TB ++ TC)) = TB := by
    rw [show TA.length + TB.length - 1 + 1 - TA.length = TB.length by omega, List.append_assoc,
      List.drop_left, List.take_left]
  have hrebuild : List.take TA.length (TA ++ TB ++ TC) ++ TB ++
      List.drop (TA.length + TB.length - 1 + 1) (TA ++ TB ++ TC) = TA ++ TB ++ TC := by
    rw [show TA.length + TB.length - 1 + 1 = (TA ++ TB).length by simp; omega, List.drop_left,
      List.append_assoc TA TB, List.take_left, List.append_assoc]
  have hget : (TA ++ TB ++ TC).get? (TA.length + TB.length - 1) = some q := by
    rw [hLq, show TA.length + TB.length - 1 = L.length by omega, List.append_assoc,
      List.get?_eq_getElem?, List.getElem?_append_right le_rfl, Nat.sub_self]
    simp
  unfold SeqnoRange.single at hst
  unfold lossdataA2rCompute
  rw [harr]
  simp only [if_neg (List.ne_nil_of_length_pos (by omega) : chain ≠ []), hbe,
    if_neg (show ¬chain.length ≤ TA.length + TB.length - 1 by omega), hslice, hst]
  rw [sweep_separated st.lastRange.high TB ldr st.lastRange le_rfl
    (List.pairwise_cons.2 ⟨hbelow, hsep⟩) hin]
  simp only [hrebuild, hget, Option.map_some', Option.getD_some, cleanupRanges_writeBack hperm]

/-! ### What `lossdata_a2r` counts -/

/-- The last sequence number that is not future: the largest of the past and present ones. -/
def lossTop (past : Option Seqno) (present : List Seqno) : Seqno :=
  (sortSeqnos (past.toList ++ present)).getLastD 0

/-- `lossdata_a2r` read on sequence numbers: from the last past sequence number `past`, or from
just below the first sequence number when there is none, the sweep counts the sorted past,
present and future sequence numbers up to `lossTop`. -/
def lossCanon (ldr : LossDataR) (past : Option Seqno) (present future : List Seqno) :
    LossDataR :=
  let all := sortSeqnos (future ++ past.toList ++ present)
  let base := past.getD (all.headD 0 - 1)
  tallySeqnos ldr base (all.filter fun x => base < x ∧ x ≤ lossTop past present)

theorem getLastD_sortSeqnos {l : List Seqno} {m : Seqno} (hm : m ∈ l)
    (hmax : ∀ y ∈ l, y.toNat ≤ m.toNat) : (sortSeqnos l).getLastD 0 = m := by
  have hs : (sortSeqnos l).Perm l := List.perm_insertionSort _ _
  have hne : sortSeqnos l ≠ [] := fun h => by simp [h] at hs; simp [hs] at hm
  have hsplit := List.dropLast_append_getLast hne
  have hsorted : (sortSeqnos l).Sorted (· ≤ ·) := List.sorted_insertionSort _ _
  rw [List.getLastD_eq_getLast?, List.getLast?_eq_getLast _ hne, Option.getD_some]
  refine eq_iff_toNat.2 (Nat.le_antisymm (hmax _ (hs.subset (List.getLast_mem hne))) ?_)
  have hm' := hs.symm.subset hm
  rw [← hsplit] at hm' hsorted
  rcases List.mem_append.1 hm' with hm' | hm'
  · exact (List.pairwise_append.1 hsorted).2.2 m hm' _ (List.mem_singleton_self _)
  · rw [List.mem_singleton.1 hm']

/-- In separated ranges ending with `q`, no range ends above `q`. -/
theorem high_le_of_separated {L : List SeqnoRange} {q : SeqnoRange} (hsep : Separated (L ++ [q]))
    (hq : q.low.toNat ≤ q.high.toNat) : ∀ r ∈ L ++ [q], r.high.toNat ≤ q.high.toNat := fun r hr => by
  rcases List.mem_append.1 hr with hr | hr
  · exact Nat.le_of_lt (Nat.lt_of_lt_of_le ((List.pairwise_append.1 hsep).2.2 r hr q
      (List.mem_singleton_self _)) hq)
  · rw [List.mem_singleton.1 hr]

/-- In separated ranges `A ++ B ++ C` where `A ++ B` ends with `q`, `A` lies at or below `base`
and `B` above it, the sequence numbers strictly above `base` and up to `q.high` are `B`'s. -/
theorem filter_flatMap_separated {A B C L : List SeqnoRange} {q : SeqnoRange} {base : Seqno}
    (hsep : Separated (A ++ B ++ C)) (hlo : ∀ r ∈ A ++ B ++ C, r.low.toNat ≤ r.high.toNat)
    (hLq : A ++ B = L ++ [q]) (hA : ∀ r ∈ A, r.high.toNat ≤ base.toNat)
    (hB : ∀ r ∈ B, base.toNat < r.low.toNat) :
    ((A ++ B ++ C).flatMap SeqnoRange.seqnos).filter (fun x => base < x ∧ x ≤ q.high) =
      B.flatMap SeqnoRange.seqnos := by
  have hsepAB := (List.pairwise_append.1 hsep).1
  have hsepC := (List.pairwise_append.1 hsep).2.2
  rw [hLq] at hsepAB hsepC
  have hq : q ∈ L ++ [q] := List.mem_append_right _ (List.mem_singleton_self _)
  have hqlo := hlo q (List.mem_append_left _ (hLq ▸ hq))
  have hle := high_le_of_separated hsepAB hqlo
  have hfA : (A.flatMap SeqnoRange.seqnos).filter (fun x => base < x ∧ x ≤ q.high) = [] :=
    List.filter_eq_nil_iff.2 fun x hx => by
      obtain ⟨r, hr, hx⟩ := List.mem_flatMap.1 hx
      have := hA r hr
      rw [mem_seqnos] at hx
      simp only [decide_eq_true_eq, lt_iff_toNat, le_iff_toNat]
      omega
  have hfB : (B.flatMap SeqnoRange.seqnos).filter (fun x => base < x ∧ x ≤ q.high) =
      B.flatMap SeqnoRange.seqnos :=
    List.filter_eq_self.2 fun x hx => by
      obtain ⟨r, hr, hx⟩ := List.mem_flatMap.1 hx
      have := hB r hr
      have := hle r (hLq ▸ List.mem_append_right _ hr)
      rw [mem_seqnos] at hx
      simp only [decide_eq_true_eq, lt_iff_toNat, le_iff_toNat]
      omega
  have hfC : (C.flatMap SeqnoRange.seqnos).filter (fun x => base < x ∧ x ≤ q.high) = [] :=
    List.filter_eq_nil_iff.2 fun x hx => by
      obtain ⟨r, hr, hx⟩ := List.mem_flatMap.1 hx
      have := hsepC q hq r hr
      rw [mem_seqnos] at hx
      simp only [decide_eq_true_eq, lt_iff_toNat, le_iff_toNat]
      omega
  rw [List.flatMap_append, List.flatMap_append, List.filter_append, List.filter_append, hfA, hfB,
    hfC, List.nil_append, List.append_nil]

/-- A list of ranges is the ranges up to the last one that is not future, then future ones. -/
theorem exists_future_suffix : ∀ R : List (Nat × SeqnoRange), ∃ B C, R = B ++ C ∧
    (∀ x ∈ C, x.2.arrivalPeriod = .future) ∧
    (B = [] ∨ ∃ B' q, B = B' ++ [q] ∧ q.2.arrivalPeriod ≠ .future)
  | [] => ⟨[], [], rfl, fun _ h => absurd h (List.not_mem_nil _), .inl rfl⟩
  | y :: R => by
    obtain ⟨B, C, rfl, hC, hB⟩ := exists_future_suffix R
    rcases hB with rfl | ⟨B', q, rfl, hq⟩
    · by_cases hy : y.2.arrivalPeriod = .future
      · refine ⟨[], y :: C, rfl, fun x hx => ?_, .inl rfl⟩
        rcases List.mem_cons.1 hx with rfl | hx
        exacts [hy, hC x hx]
      · exact ⟨[y], C, rfl, hC, .inr ⟨[], y, rfl, hy⟩⟩
    · exact ⟨y :: B' ++ [q], C, rfl, hC, .inr ⟨y :: B', q, rfl, hq⟩⟩

theorem flatMap_seqnos_single (o : Option Seqno) :
    (o.toList.map SeqnoRange.single).flatMap SeqnoRange.seqnos = o.toList := by
  cases o <;> simp [seqnos_single]

/-- The sequence numbers of the chain `lossdata_a2r` assembles: future, past, present. -/
theorem flatMap_seqnos_chain (F P : List SeqnoRange) (past : Option Seqno) :
    (F ++ past.toList.map SeqnoRange.single ++ P).flatMap SeqnoRange.seqnos =
      F.flatMap SeqnoRange.seqnos ++ past.toList ++ P.flatMap SeqnoRange.seqnos := by
  rw [List.flatMap_append, List.flatMap_append, flatMap_seqnos_single]

section Shape
variable {F P : List SeqnoRange} {past : Option Seqno}

theorem countP_sortRanges
    (hc : ∀ r ∈ F ++ past.toList.map SeqnoRange.single ++ P, r.wraparound = false ∧ r.InArc)
    (p : ArrivalPeriod → Bool) :
    (sortRanges (F ++ past.toList.map SeqnoRange.single ++ P).enum).countP
        (fun x => p x.2.arrivalPeriod) =
      (F ++ past.toList.map SeqnoRange.single ++ P).countP fun r => p r.arrivalPeriod := by
  have h := (perm_sortRanges hc).countP_eq fun x => p x.2.arrivalPeriod
  rw [List.countP_map] at h
  conv_rhs => rw [← List.enum_map_snd (F ++ past.toList.map SeqnoRange.single ++ P),
    List.countP_map]
  exact h

/-- **`lossCanon` counts the slice**: the sorted array is the ranges `TA`, the slice `TB` and
`TC`, `TA ++ TB` ends with `q`, whose `high` is `lossTop`, and the base of `lossCanon` lies at or
above `TA` and below `TB`. -/
theorem lossCanon_eq_tallySeqnos
    (hc : ∀ r ∈ F ++ past.toList.map SeqnoRange.single ++ P, r.wraparound = false ∧ r.InArc)
    (hnd : ((F ++ past.toList.map SeqnoRange.single ++ P).flatMap SeqnoRange.seqnos).Nodup)
    {TA TB TC L : List (Nat × SeqnoRange)} {q : Nat × SeqnoRange}
    (harr : sortRanges (F ++ past.toList.map SeqnoRange.single ++ P).enum = TA ++ TB ++ TC)
    (hLq : TA ++ TB = L ++ [q]) (htop : lossTop past (P.flatMap SeqnoRange.seqnos) = q.2.high)
    {base : Seqno} (hb : past.getD ((sortSeqnos (F.flatMap SeqnoRange.seqnos ++ past.toList ++
      P.flatMap SeqnoRange.seqnos)).headD 0 - 1) = base)
    (hA : ∀ r ∈ TA.map Prod.snd, r.high.toNat ≤ base.toNat)
    (hB : ∀ r ∈ TB.map Prod.snd, base.toNat < r.low.toNat) (ldr : LossDataR) :
    lossCanon ldr past (P.flatMap SeqnoRange.seqnos) (F.flatMap SeqnoRange.seqnos) =
      tallySeqnos ldr base ((TB.map Prod.snd).flatMap SeqnoRange.seqnos) := by
  have hsep := separated_sortRanges hc hnd
  rw [harr, List.map_append, List.map_append] at hsep
  have hlo : ∀ r ∈ TA.map Prod.snd ++ TB.map Prod.snd ++ TC.map Prod.snd,
      r.low.toNat ≤ r.high.toNat := fun r hr => by
    rw [← List.map_append, ← List.map_append, ← harr] at hr
    obtain ⟨x, hx, rfl⟩ := List.mem_map.1 hr
    exact (mem_sortRanges hc hx).1.2.1
  have hLq' : TA.map Prod.snd ++ TB.map Prod.snd = L.map Prod.snd ++ [q.2] := by
    rw [← List.map_append, hLq, List.map_append]
    rfl
  unfold lossCanon
  dsimp only
  rw [hb, ← flatMap_seqnos_chain, ← flatMap_sortRanges hc hnd, htop, harr, List.map_append,
    List.map_append, filter_flatMap_separated hsep hlo hLq' hA hB]

variable (hF : ∀ r ∈ F, r.arrivalPeriod = .future) (hP : ∀ r ∈ P, r.arrivalPeriod = .present)
include hF hP

/-- The chain's past range is the one-packet range at `past`. -/
theorem eq_single_of_past {r : SeqnoRange}
    (hr : r ∈ F ++ past.toList.map SeqnoRange.single ++ P) (hp : r.arrivalPeriod = .past) :
    ∃ h ∈ past, r = SeqnoRange.single h := by
  rcases List.mem_append.1 hr with hr | hr
  · rcases List.mem_append.1 hr with hr | hr
    · exact absurd (hF r hr ▸ hp) (by decide)
    · obtain ⟨h, hh, rfl⟩ := List.mem_map.1 hr
      exact ⟨h, Option.mem_toList.1 hh, rfl⟩
  · exact absurd (hP r hr ▸ hp) (by decide)

theorem countP_past_chain :
    (F ++ past.toList.map SeqnoRange.single ++ P).countP
      (fun r => decide (r.arrivalPeriod = .past)) = past.toList.length := by
  have hF0 : F.countP (fun r => decide (r.arrivalPeriod = .past)) = 0 :=
    List.countP_eq_zero.2 fun r hr => by simp [hF r hr]
  have hP0 : P.countP (fun r => decide (r.arrivalPeriod = .past)) = 0 :=
    List.countP_eq_zero.2 fun r hr => by simp [hP r hr]
  have hpast : (past.toList.map SeqnoRange.single).countP
      (fun r => decide (r.arrivalPeriod = .past)) = past.toList.length := by
    rw [List.countP_eq_length.2 fun r hr => by obtain ⟨h, -, rfl⟩ := List.mem_map.1 hr; rfl,
      List.length_map]
  rw [List.countP_append, List.countP_append, hF0, hP0, hpast, Nat.zero_add, Nat.add_zero]

variable (hc : ∀ r ∈ F ++ past.toList.map SeqnoRange.single ++ P, r.wraparound = false ∧ r.InArc)
include hc

/-- **The shape of the sorted array**: the ranges up to the past one, if any; then the slice,
which ends with the last range that is not future; then future ranges. -/
theorem sortRanges_decomp (hPne : P ≠ []) :
    ∃ TA TB TC L q, sortRanges (F ++ past.toList.map SeqnoRange.single ++ P).enum =
        TA ++ TB ++ TC ∧ TA ++ TB = L ++ [q] ∧ q.2.arrivalPeriod ≠ .future ∧
      (∀ x ∈ TC, x.2.arrivalPeriod = .future) ∧ (∀ x ∈ TB ++ TC, x.2.arrivalPeriod ≠ .past) ∧
      (past = none ∧ TA = [] ∨
        ∃ h TA' x, past = some h ∧ TA = TA' ++ [x] ∧ x.2.arrivalPeriod = .past ∧ x.2.high = h) := by
  have hcount := countP_sortRanges hc
  have hpresent : 0 < (sortRanges (F ++ past.toList.map SeqnoRange.single ++ P).enum).countP
      (fun x => decide (x.2.arrivalPeriod = .present)) := by
    have hcp : (sortRanges (F ++ past.toList.map SeqnoRange.single ++ P).enum).countP
        (fun x => decide (x.2.arrivalPeriod = .present)) =
          (F ++ past.toList.map SeqnoRange.single ++ P).countP
            (fun r => decide (r.arrivalPeriod = .present)) := hcount (· = .present)
    obtain ⟨r, hr⟩ := List.exists_mem_of_ne_nil P hPne
    have : 0 < P.countP (fun r => decide (r.arrivalPeriod = .present)) :=
      List.countP_pos_iff.2 ⟨r, hr, decide_eq_true (hP r hr)⟩
    rw [hcp, List.countP_append]
    omega
  have hpast : (sortRanges (F ++ past.toList.map SeqnoRange.single ++ P).enum).countP
      (fun x => decide (x.2.arrivalPeriod = .past)) = past.toList.length :=
    (hcount (· = .past)).trans (countP_past_chain hF hP)
  obtain ⟨y, hy, hyp⟩ := List.countP_pos_iff.1 hpresent
  have hyf : y.2.arrivalPeriod ≠ .future := by
    rw [of_decide_eq_true hyp]
    decide
  have hhigh : ∀ x ∈ sortRanges (F ++ past.toList.map SeqnoRange.single ++ P).enum,
      x.2.arrivalPeriod = .past → ∃ h ∈ past, x.2.high = h := fun x hx hxp => by
    obtain ⟨-, r, hr, rfl⟩ := mem_sortRanges hc hx
    obtain ⟨h, hh, hrh⟩ := eq_single_of_past hF hP hr hxp
    exact ⟨h, hh, congrArg SeqnoRange.high hrh⟩
  generalize sortRanges (F ++ past.toList.map SeqnoRange.single ++ P).enum = arr at hy hpast hhigh ⊢
  rcases past with _ | h
  · have hnp : ∀ x ∈ arr, x.2.arrivalPeriod ≠ .past := fun x hx hxp =>
      List.countP_eq_zero.1 hpast x hx (decide_eq_true hxp)
    obtain ⟨B, C, rfl, hC, hB⟩ := exists_future_suffix arr
    rcases hB with rfl | ⟨B', q, rfl, hq⟩
    · exact absurd (hC y hy) hyf
    · exact ⟨[], B' ++ [q], C, B', q, rfl, rfl, hq, hC, hnp, .inl ⟨rfl, rfl⟩⟩
  · obtain ⟨x, hx, hxp⟩ := List.countP_pos_iff.1 (by rw [hpast]; exact Nat.one_pos)
    have hxp' := of_decide_eq_true hxp
    obtain ⟨h', hh', hxh'⟩ := hhigh x hx hxp'
    have hxh : x.2.high = h := hxh'.trans (Option.some.inj hh').symm
    obtain ⟨A', R, rfl⟩ := List.append_of_mem hx
    rw [List.countP_append, List.countP_cons, if_pos hxp] at hpast
    have hnp : ∀ z ∈ A' ++ R, z.2.arrivalPeriod ≠ .past := fun z hz hzp => by
      have : 0 < (A' ++ R).countP fun x => decide (x.2.arrivalPeriod = .past) :=
        List.countP_pos_iff.2 ⟨z, hz, decide_eq_true hzp⟩
      rw [List.countP_append] at this
      simp only [Option.toList_some, List.length_singleton] at hpast
      omega
    obtain ⟨B, C, rfl, hC, hB⟩ := exists_future_suffix R
    have hnp' : ∀ z ∈ B ++ C, z.2.arrivalPeriod ≠ .past := fun z hz =>
      hnp z (List.mem_append_right _ hz)
    have hsplit : A' ++ x :: (B ++ C) = A' ++ [x] ++ B ++ C := by simp
    rcases hB with rfl | ⟨B', q, rfl, hq⟩
    · exact ⟨A' ++ [x], [], C, A', x, hsplit, List.append_nil _, by rw [hxp']; decide, hC, hnp',
        .inr ⟨h, A', x, rfl, rfl, hxp', hxh⟩⟩
    · exact ⟨A' ++ [x], B' ++ [q], C, A' ++ [x] ++ B', q, hsplit, by simp, hq, hC, hnp',
        .inr ⟨h, A', x, rfl, rfl, hxp', hxh⟩⟩

/-- `lossTop` is the `high` end of the last range of the slice, or of the past range when the
slice is empty. -/
theorem lossTop_eq_high {TA TB TC L : List (Nat × SeqnoRange)} {q : Nat × SeqnoRange}
    (hnd : ((F ++ past.toList.map SeqnoRange.single ++ P).flatMap SeqnoRange.seqnos).Nodup)
    (harr : sortRanges (F ++ past.toList.map SeqnoRange.single ++ P).enum = TA ++ TB ++ TC)
    (hLq : TA ++ TB = L ++ [q]) (hq : q.2.arrivalPeriod ≠ .future)
    (hC : ∀ x ∈ TC, x.2.arrivalPeriod = .future) (hpast : ∀ h ∈ past, ∃ x ∈ TA, x.2.high = h) :
    lossTop past (P.flatMap SeqnoRange.seqnos) = q.2.high := by
  have hsep := separated_sortRanges hc hnd
  rw [harr, List.map_append, List.map_append, ← List.map_append, hLq, List.map_append] at hsep
  have hmemq : q ∈ sortRanges (F ++ past.toList.map SeqnoRange.single ++ P).enum := by
    rw [harr, hLq]
    simp
  have hle := high_le_of_separated (List.pairwise_append.1 hsep).1
    (mem_sortRanges hc hmemq).1.2.1
  have hleAB : ∀ x ∈ TA ++ TB, x.2.high.toNat ≤ q.2.high.toNat := fun x hx =>
    hle x.2 (by rw [← List.map_singleton, ← List.map_append, ← hLq]; exact List.mem_map_of_mem _ hx)
  unfold lossTop
  refine getLastD_sortSeqnos ?_ fun y hy => ?_
  · obtain ⟨-, r, hr, hrq⟩ := mem_sortRanges hc hmemq
    rcases List.mem_append.1 hr with hr | hr
    · rcases List.mem_append.1 hr with hr | hr
      · have hr' := hF r hr
        rw [hrq] at hr'
        exact absurd hr' hq
      · obtain ⟨h, hh, rfl⟩ := List.mem_map.1 hr
        have : q.2.high = h := congrArg SeqnoRange.high hrq.symm
        exact List.mem_append_left _ (this ▸ hh)
    · have hin := (hc r (List.mem_append_right _ hr)).2
      refine List.mem_append_right _ (List.mem_flatMap.2 ⟨r, hr, ?_⟩)
      subst hrq
      exact mem_seqnos.2 ⟨hin.2.1, le_rfl⟩
  · rcases List.mem_append.1 hy with hy | hy
    · obtain ⟨x, hx, rfl⟩ := hpast y (Option.mem_toList.1 hy)
      exact hleAB x (List.mem_append_left _ hx)
    · obtain ⟨r, hr, hy⟩ := List.mem_flatMap.1 hy
      obtain ⟨x, hx, rfl⟩ := exists_sortRanges_of_mem hc
        (List.mem_append_right (F ++ past.toList.map SeqnoRange.single) hr)
      rw [harr, List.mem_append] at hx
      rcases hx with hx | hx
      · exact Nat.le_trans (mem_seqnos.1 hy).2 (hleAB x hx)
      · exact absurd ((hC x hx).symm.trans (hP { x.2 with wraparound := false } hr)) (by decide)

/-- **`lossdata_a2r_compute` on the chain `lossdata_a2r` assembles** counts what `lossCanon`
says; it leaves the last range it counted, which ends at `lossTop`, as `last_range`, and the
chain's ranges as they were, flags apart. -/
theorem lossdataA2rCompute_eq (hPne : P ≠ [])
    (hnd : ((F ++ past.toList.map SeqnoRange.single ++ P).flatMap SeqnoRange.seqnos).Nodup)
    (ldr : LossDataR) {state : LossState} (hst : state.hasLastRange = past.isSome)
    (hlast : ∀ h ∈ past, state.lastRange.high = h) :
    ∃ R : SeqnoRange, R.high = lossTop past (P.flatMap SeqnoRange.seqnos) ∧
      lossdataA2rCompute ldr state (F ++ past.toList.map SeqnoRange.single ++ P) =
        (some (lossCanon ldr past (P.flatMap SeqnoRange.seqnos) (F.flatMap SeqnoRange.seqnos),
          { state with hasLastRange := true, lastRange := R },
          lossTop past (P.flatMap SeqnoRange.seqnos)),
         cleanupRanges (F ++ past.toList.map SeqnoRange.single ++ P)) := by
  obtain ⟨TA, TB, TC, L, q, harr, hLq, hq, hC, hBC, hA⟩ := sortRanges_decomp hF hP hc hPne
  have hin : ∀ x ∈ TA ++ TB ++ TC, x.2.InArc := fun x hx => (mem_sortRanges hc (harr ▸ hx)).1
  have hinB : ∀ x ∈ TB, x.2.low.toNat ≤ x.2.high.toNat ∧ x.2.high.toNat < 2 ^ 32 - 1 :=
    fun x hx => by
      have := hin x (List.mem_append_left _ (List.mem_append_right _ hx))
      unfold SeqnoRange.InArc at this
      omega
  have htop := lossTop_eq_high hF hP hc hnd harr hLq hq hC fun h hh => by
    rcases hA with ⟨rfl, -⟩ | ⟨h', TA', x, rfl, rfl, -, hxh⟩
    · exact absurd hh (by simp)
    · exact ⟨x, by simp, hxh.trans (Option.some.inj hh)⟩
  have hsep := separated_sortRanges hc hnd
  rw [harr, List.map_append, List.map_append] at hsep
  have hsepB : Separated (TB.map Prod.snd) :=
    (List.pairwise_append.1 (List.pairwise_append.1 hsep).1).2.1
  have hbe := sliceBounds_map_snd (by
    rcases hA with ⟨-, rfl⟩ | ⟨h, TA', x, -, rfl, hxp, -⟩
    exacts [.inl rfl, .inr ⟨TA', x, rfl, hxp⟩]) hBC hLq hq hC
  have hslice := lossdataA2rCompute_slice ldr state harr hLq
    (harr ▸ perm_sortRanges hc) hbe hsepB hinB
  rcases hA with ⟨rfl, rfl⟩ | ⟨h, TA', x, rfl, rfl, hxp, hxh⟩
  · -- no past range: the sweep starts just below the first range of the slice
    obtain ⟨b, TB', rfl⟩ := List.exists_cons_of_ne_nil (show TB ≠ [] by rintro rfl; simp at hLq)
    have hb := hin b (by simp)
    unfold SeqnoRange.InArc at hb
    have hlow : (b.2.low - 1).toNat = b.2.low.toNat - 1 := by
      rw [toNat_sub', toNat_one]
      omega
    have hbelow : ∀ r ∈ (b :: TB').map Prod.snd, (b.2.low - 1).toNat < r.low.toNat := by
      intro r hr
      rw [hlow]
      rcases List.mem_cons.1 hr with rfl | hr
      · omega
      · have := (List.pairwise_cons.1 hsepB).1 r hr
        omega
    have hhead : (sortSeqnos (F.flatMap SeqnoRange.seqnos ++ none.toList ++
        P.flatMap SeqnoRange.seqnos)).headD 0 = b.2.low := by
      rw [← flatMap_seqnos_chain, ← flatMap_sortRanges hc hnd, harr, List.nil_append,
        List.map_append, List.map_cons, List.cons_append, List.flatMap_cons, SeqnoRange.seqnos,
        show b.2.high.toNat + 1 - b.2.low.toNat = (b.2.high.toNat - b.2.low.toNat) + 1 by omega]
      rfl
    have hlastB : ((b :: TB').map Prod.snd).getLast? = some q.2 := by
      rw [List.nil_append] at hLq
      rw [List.getLast?_map, hLq, List.getLast?_append_of_ne_nil _ (List.cons_ne_nil _ _)]
      rfl
    refine ⟨q.2, htop.symm, ?_⟩
    rw [hslice { state with hasLastRange := true, lastRange := SeqnoRange.single (b.2.low - 1) }
        (by simp only [hst, Option.isSome_none, Bool.false_eq_true, if_false]; rfl) hbelow,
      hlastB, lossCanon_eq_tallySeqnos hc hnd harr hLq htop (by rw [hhead]; rfl)
        (fun r hr => absurd hr (List.not_mem_nil r)) hbelow, htop]
    rfl
  · -- a past range ends `TA`: the sweep starts from `last_range`, which ends at it
    have hst' : state.hasLastRange = true := hst
    have hprev : state.lastRange.high = x.2.high := (hlast h rfl).trans hxh.symm
    have hsepA := (List.pairwise_append.1 (List.pairwise_append.1 hsep).1)
    have hbelow : ∀ r ∈ TB.map Prod.snd, state.lastRange.high.toNat < r.low.toNat := by
      rw [hprev]
      exact hsepA.2.2 x.2 (by simp)
    have hAle : ∀ r ∈ (TA' ++ [x]).map Prod.snd, r.high.toNat ≤ state.lastRange.high.toNat := by
      rw [hprev, List.map_append, List.map_singleton]
      refine high_le_of_separated ?_ (hin x (by simp)).2.1
      simpa only [List.map_append, List.map_singleton] using hsepA.1
    have hR : ((TB.map Prod.snd).getLast?.getD state.lastRange).high = q.2.high := by
      by_cases hTB : TB = []
      · subst hTB
        have hqx : some x = some q := by simpa using congrArg List.getLast? hLq
        rw [← Option.some.inj hqx, ← hprev]
        rfl
      · have hl := congrArg List.getLast? hLq
        rw [List.getLast?_append_of_ne_nil _ hTB, List.getLast?_append_of_ne_nil _
          (List.cons_ne_nil _ _)] at hl
        rw [List.getLast?_map, hl]
        rfl
    refine ⟨_, hR.trans htop.symm, ?_⟩
    rw [hslice state (if_pos hst') hbelow, lossCanon_eq_tallySeqnos hc hnd harr hLq htop
      (by rw [hprev, hxh]; rfl) hAle hbelow, htop]
    cases state
    subst hst'
    rfl

end Shape

/-! ### One call of `lossdata_a2r` -/

theorem lossTop_perm {past : Option Seqno} {present present' : List Seqno}
    (h : present.Perm present') : lossTop past present = lossTop past present' := by
  unfold lossTop
  rw [sortSeqnos_eq_of_perm (h.append_left _)]

theorem lossCanon_perm (ldr : LossDataR) (past : Option Seqno) {present present' future future' : List Seqno}
    (hp : present.Perm present') (hf : future.Perm future') :
    lossCanon ldr past present future = lossCanon ldr past present' future' := by
  unfold lossCanon
  rw [lossTop_perm hp, sortSeqnos_eq_of_perm ((hf.append_right _).append hp)]

theorem lossTop_mem {past : Option Seqno} {present : List Seqno} (h : past.toList ++ present ≠ []) :
    lossTop past present ∈ past.toList ++ present := by
  have hs : (sortSeqnos (past.toList ++ present)).Perm (past.toList ++ present) :=
    List.perm_insertionSort _ _
  have hne : sortSeqnos (past.toList ++ present) ≠ [] := fun he => h (he ▸ hs).nil_eq.symm
  unfold lossTop
  rw [List.getLastD_eq_getLast?, List.getLast?_eq_getLast _ hne, Option.getD_some]
  exact hs.subset (List.getLast_mem hne)

theorem flatMap_seqnos_reflag (l : List SeqnoRange) (w : Bool) (p : ArrivalPeriod) :
    (l.map fun r => { r with wraparound := w, arrivalPeriod := p }).flatMap SeqnoRange.seqnos =
      l.flatMap SeqnoRange.seqnos := by
  rw [List.flatMap_map]
  rfl

theorem unjoinLike_map_flatten {α β : Type} (f : β → α) :
    ∀ ls : List (List β), unjoinLike ls (ls.map (List.map f)).flatten = ls.map (List.map f)
  | [] => rfl
  | l :: ls => by
    rw [List.map_cons, List.flatten_cons, unjoinLike, List.take_left' (List.length_map _ _),
      List.drop_left' (List.length_map _ _), unjoinLike_map_flatten f ls]

/-- What `lossdata_a2r` writes back into the later maps: their ranges after the cleanup. -/
theorem unjoinLike_cleanupRanges (fut : List (List SeqnoRange)) (rest : List SeqnoRange) :
    unjoinLike (fut.map (List.map fun r : SeqnoRange =>
        { r with wraparound := false, arrivalPeriod := .future }))
      ((cleanupRanges ((fut.map (List.map fun r : SeqnoRange =>
          { r with wraparound := false, arrivalPeriod := .future })).flatten.reverse ++ rest)).take
        (fut.map (List.map fun r : SeqnoRange =>
          { r with wraparound := false, arrivalPeriod := .future })).flatten.length).reverse =
      fut.map cleanupRanges := by
  rw [cleanupRanges, List.map_append, List.take_left' (by rw [List.length_map, List.length_reverse]),
    ← List.map_reverse, List.reverse_reverse, List.map_flatten, unjoinLike_map_flatten, List.map_map]
  refine List.map_congr_left fun l _ => ?_
  rw [Function.comp, List.map_map, cleanupRanges]
  rfl

/-- The last sequence number of the previous computation, when the state has one. -/
def lossPast (st : LossState) : Option Seqno := if st.hasHighSeqno then some st.highSeqno else none

/-- The sequence numbers of a map's loss ranges. -/
def LossDataA.seqnos (lda : LossDataA) : List Seqno := lda.ranges.flatMap SeqnoRange.seqnos

/-- `last_range` ends where `high_seqno` is, and is set exactly when it is. -/
def LossState.Inv (st : LossState) : Prop :=
  st.hasLastRange = st.hasHighSeqno ∧ st.lastRange.high = st.highSeqno

/-- **`lossdata_a2r` counts what `lossCanon` says** when the sequence numbers of the epoch, of
the later maps and the last past one are distinct and lie in `[1, 2 ^ 31)`: it leaves
`high_seqno` and `last_range.high` at `lossTop`, and the later maps' ranges as they were. -/
theorem lossdataA2r_canon {lda : LossDataA} {lstate : LossState} {future : List (List SeqnoRange)}
    {W : Nat} (hflow : flowstateBeginp lda.flowstate = true) (hne : lda.ranges ≠ [])
    (hinv : lstate.Inv) (hr : ∀ r ∈ lda.ranges ++ future.flatten, r.InArc)
    (hpast : ∀ h ∈ lossPast lstate, 1 ≤ h.toNat ∧ h.toNat < 2 ^ 31)
    (hnd : ((lossPast lstate).toList ++ (lda.ranges ++ future.flatten).flatMap SeqnoRange.seqnos).Nodup) :
    ∃ R : SeqnoRange, R.high = lossTop (lossPast lstate) lda.seqnos ∧
      lossdataA2r lda lstate future W =
        (lossCanon { flowstate := lda.flowstate } (lossPast lstate) lda.seqnos
            ((future.take (W - 1)).flatten.flatMap SeqnoRange.seqnos),
         { hasHighSeqno := true, highSeqno := lossTop (lossPast lstate) lda.seqnos,
           hasLastRange := true, lastRange := R },
         (future.take (W - 1)).map cleanupRanges ++ future.drop (W - 1)) := by
  unfold lossdataA2r
  -- the chain `lossdata_a2r` assembles: the later maps' ranges, the past range, the epoch's
  set vis := (future.take (W - 1)).map (List.map fun r : SeqnoRange =>
    { r with wraparound := false, arrivalPeriod := .future }) with hvis
  set pres := lda.ranges.map fun r : SeqnoRange =>
    { r with wraparound := false, arrivalPeriod := .present } with hpres
  have hpastL : (if flowstateBeginp lda.flowstate = true ∧ lstate.hasHighSeqno = true then
      [({ low := lstate.highSeqno, high := lstate.highSeqno } : SeqnoRange)] else []) =
      (lossPast lstate).toList.map SeqnoRange.single := by
    unfold lossPast
    cases lstate.hasHighSeqno <;> simp [hflow, SeqnoRange.single]
  have hF : ∀ r ∈ vis.flatten.reverse, r.arrivalPeriod = .future ∧ r.wraparound = false ∧ r.InArc :=
    fun r h => by
      obtain ⟨l, hl, h⟩ := List.mem_flatten.1 (List.mem_reverse.1 h)
      obtain ⟨l', hl', rfl⟩ := List.mem_map.1 hl
      obtain ⟨r', hr', rfl⟩ := List.mem_map.1 h
      exact ⟨rfl, rfl, hr r' (List.mem_append_right _
        (List.mem_flatten.2 ⟨l', List.mem_of_mem_take hl', hr'⟩))⟩
  have hP : ∀ r ∈ pres, r.arrivalPeriod = .present ∧ r.wraparound = false ∧ r.InArc := fun r h => by
    obtain ⟨r', hr', rfl⟩ := List.mem_map.1 h
    exact ⟨rfl, rfl, hr r' (List.mem_append_left _ hr')⟩
  have hc : ∀ r ∈ vis.flatten.reverse ++ (lossPast lstate).toList.map SeqnoRange.single ++ pres,
      r.wraparound = false ∧ r.InArc := by
    intro r h
    rcases List.mem_append.1 h with h | h
    · rcases List.mem_append.1 h with h | h
      · exact (hF r h).2
      · obtain ⟨x, hx, rfl⟩ := List.mem_map.1 h
        have := hpast x (Option.mem_toList.1 hx)
        exact ⟨rfl, this.1, le_rfl, this.2⟩
    · exact (hP r h).2
  have hseqF : (vis.flatten.reverse.flatMap SeqnoRange.seqnos).Perm
      ((future.take (W - 1)).flatten.flatMap SeqnoRange.seqnos) := by
    refine ((List.reverse_perm _).flatMap_right _).trans (.of_eq ?_)
    rw [hvis, ← List.map_flatten, flatMap_seqnos_reflag]
  have hsub : ((future.take (W - 1)).flatten.flatMap SeqnoRange.seqnos).Sublist
      (future.flatten.flatMap SeqnoRange.seqnos) := by
    conv_rhs => rw [← List.take_append_drop (W - 1) future]
    rw [List.flatten_append, List.flatMap_append]
    exact List.sublist_append_left _ _
  have hndc : ((vis.flatten.reverse ++ (lossPast lstate).toList.map SeqnoRange.single ++
      pres).flatMap SeqnoRange.seqnos).Nodup := by
    rw [flatMap_seqnos_chain, hpres, flatMap_seqnos_reflag, List.append_assoc]
    refine ((hseqF.append_right _).trans List.perm_append_comm).nodup_iff.2 ?_
    rw [List.flatMap_append, ← List.append_assoc] at hnd
    exact hnd.sublist (hsub.append_left _)
  have hst : ({ lstate with hasHighSeqno := false } : LossState).hasLastRange =
      (lossPast lstate).isSome := by
    rw [hinv.1]
    unfold lossPast
    cases lstate.hasHighSeqno <;> rfl
  have hlast : ∀ h ∈ lossPast lstate,
      ({ lstate with hasHighSeqno := false } : LossState).lastRange.high = h := fun h hh => by
    unfold lossPast at hh
    split at hh
    · exact hinv.2.trans (Option.some.inj hh)
    · exact absurd hh (by simp)
  obtain ⟨R, hRh, hcomp⟩ := lossdataA2rCompute_eq (fun r h => (hF r h).1) (fun r h => (hP r h).1) hc
    (by simpa [hpres] using hne) hndc { flowstate := lda.flowstate } hst hlast
  simp only [hpastL, hcomp]
  refine ⟨R, ?_, ?_⟩
  · rw [hRh, hpres, flatMap_seqnos_reflag]
    rfl
  · rw [hpres, flatMap_seqnos_reflag, lossCanon_perm _ _ (List.Perm.refl _) hseqF, List.append_assoc,
      hvis, unjoinLike_cleanupRanges]
    rfl

end Pd3Estimator
