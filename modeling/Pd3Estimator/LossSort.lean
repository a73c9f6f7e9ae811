import Pd3Estimator.Loss

/-!
# Sorting the ranges of one arc

`lossdata_a2r_compute` sorts its array of ranges with `qsort` and `rangecmp`, marks ranges as
wrapped from the front up to the first gap above `WRAPAROUND / 2`, and sorts again when it found
one. `rangecmp` compares two `low` ends by the sign of their 32-bit difference, which orders
only ranges whose `low` ends lie in one half of the sequence space.

* `arcOffset a r`: how far `r.low` lies past `a`; `arcKey a r`: wrapped ranges first, then by
  offset;
* `rangecmp_nonpos_iff`: on an arc of length `2 ^ 31` from `a`, `rangecmp x y ≤ 0` is
  `arcKey a x ≤ arcKey a y`, so `rangecmp` is a total preorder there and every sorting
  algorithm returns an array ordered by `arcKey`; `qsortRanges_eq`: the model's insertion
  sort is the insertion sort by `arcKey`;
* `detectWraparound_eq`: the detection marks a prefix of the array;
* `sortRanges_arc`: the array `lossdata_a2r_compute` obtains is ordered by offset and holds the
  chain's ranges, and the second sort leaves it as the detection left it.
-/

namespace Pd3Estimator

/-- How far the `low` end of `r` lies past `a`, along the sequence space. -/
def arcOffset (a : Seqno) (r : SeqnoRange) : Nat := (r.low - a).toNat

/-- The order `rangecmp` stands for on an arc from `a`: wrapped ranges first, then by offset. -/
def arcKey (a : Seqno) (r : SeqnoRange) : Nat :=
  (if r.wraparound then 0 else 2 ^ 32) + arcOffset a r

/-- A range marked by the wrap-around detection. -/
def markWrapped (x : Nat × SeqnoRange) : Nat × SeqnoRange := (x.1, { x.2 with wraparound := true })

/-- A range with its wrap-around mark cleared. -/
def clearWrapped (x : Nat × SeqnoRange) : Nat × SeqnoRange := (x.1, { x.2 with wraparound := false })

theorem toInt32_nonpos_iff (u : UInt32) : toInt32 u ≤ 0 ↔ u.toNat = 0 ∨ 2 ^ 31 ≤ u.toNat := by
  have := toNat_lt_two_pow u
  unfold toInt32
  split_ifs <;> omega

theorem clearWrapped_of_not_wrapped {x : Nat × SeqnoRange} (h : x.2.wraparound = false) :
    clearWrapped x = x := by
  obtain ⟨i, ⟨low, high, w, p⟩⟩ := x
  subst h
  rfl

theorem map_clearWrapped {l : List (Nat × SeqnoRange)} (h : ∀ x ∈ l, x.2.wraparound = false) :
    l.map clearWrapped = l := by
  conv_rhs => rw [← List.map_id l]
  exact List.map_congr_left fun x hx => clearWrapped_of_not_wrapped (h x hx)

section Arc
variable {a : Seqno}

/-- On an arc of length `2 ^ 31`, the sign of the 32-bit difference of two sequence numbers is
the order of their offsets. -/
theorem toInt32_sub_nonpos_iff {x y : Seqno} (hx : (x - a).toNat < 2 ^ 31)
    (hy : (y - a).toNat < 2 ^ 31) : toInt32 (x - y) ≤ 0 ↔ (x - a).toNat ≤ (y - a).toNat := by
  rw [toInt32_nonpos_iff]
  simp only [toNat_sub'] at hx hy ⊢
  have := toNat_lt_two_pow x
  have := toNat_lt_two_pow y
  have := toNat_lt_two_pow a
  omega

/-- **`rangecmp` is the order of `arcKey`** on ranges of one arc. -/
theorem rangecmp_nonpos_iff {x y : SeqnoRange} (hx : arcOffset a x < 2 ^ 31)
    (hy : arcOffset a y < 2 ^ 31) : rangecmp x y ≤ 0 ↔ arcKey a x ≤ arcKey a y := by
  have hx' : arcOffset a x < 2 ^ 32 := by omega
  have hy' : arcOffset a y < 2 ^ 32 := by omega
  unfold rangecmp arcKey
  cases hwx : x.wraparound <;> cases hwy : y.wraparound <;>
    simp only [ne_eq, not_true_eq_false, if_false, if_true, Bool.toNat_true, Bool.toNat_false,
      reduceCtorEq, not_false_eq_true, Bool.false_eq_true] <;>
    first
      | (rw [toInt32_sub_nonpos_iff hx hy]; unfold arcOffset; omega)
      | omega

/-- On an arc, `qsortRanges` is the insertion sort by `arcKey`. -/
theorem qsortRanges_eq {l : List (Nat × SeqnoRange)} (hl : ∀ x ∈ l, arcOffset a x.2 < 2 ^ 31) :
    qsortRanges l = l.insertionSort fun x y => arcKey a x.2 ≤ arcKey a y.2 := by
  simpa using List.map_insertionSort _ _ id l fun x hx y hy =>
    rangecmp_nonpos_iff (hl x hx) (hl y hy)

theorem sorted_qsortRanges {l : List (Nat × SeqnoRange)}
    (hl : ∀ x ∈ l, arcOffset a x.2 < 2 ^ 31) :
    (qsortRanges l).Sorted fun x y => arcKey a x.2 ≤ arcKey a y.2 := by
  haveI : IsTotal (Nat × SeqnoRange) fun x y => arcKey a x.2 ≤ arcKey a y.2 :=
    ⟨fun _ _ => le_total _ _⟩
  haveI : IsTrans (Nat × SeqnoRange) fun x y => arcKey a x.2 ≤ arcKey a y.2 :=
    ⟨fun _ _ _ => le_trans⟩
  rw [qsortRanges_eq hl]
  exact List.sorted_insertionSort _ _

end Arc

/-- **The wrap-around detection marks a prefix** of the array, the whole array when it finds
no gap. -/
theorem detectWraparound_eq : ∀ l : List (Nat × SeqnoRange), ∃ k,
    (detectWraparound l).1 = (l.take k).map markWrapped ++ l.drop k ∧
      ((detectWraparound l).2 = false → l.length ≤ k)
  | [] => ⟨0, rfl, fun _ => le_rfl⟩
  | [x] => ⟨1, rfl, fun _ => le_rfl⟩
  | x :: y :: rest => by
    rw [detectWraparound]
    split_ifs
    · exact ⟨1, rfl, fun h => absurd h (by decide)⟩
    · obtain ⟨k, hk, hlen⟩ := detectWraparound_eq (y :: rest)
      refine ⟨k + 1, ?_, fun h => ?_⟩
      · rw [List.take_succ_cons, List.map_cons, List.drop_succ_cons, List.cons_append, ← hk]
        rfl
      · have := hlen h
        simp only [List.length_cons] at this ⊢
        omega

section Arc
variable {a : Seqno}

/-- Marking a prefix of an array ordered by offset, whose ranges are not marked, leaves it
ordered by `arcKey`. -/
theorem sorted_markPrefix {l : List (Nat × SeqnoRange)} (hw : ∀ x ∈ l, x.2.wraparound = false)
    (hs : l.Sorted fun x y => arcKey a x.2 ≤ arcKey a y.2) (k : Nat) :
    ((l.take k).map markWrapped ++ l.drop k).Sorted fun x y => arcKey a x.2 ≤ arcKey a y.2 := by
  have hoff : ∀ x, arcOffset a x < 2 ^ 32 := fun x => toNat_lt_two_pow _
  have hkey : ∀ x ∈ l, arcKey a x.2 = 2 ^ 32 + arcOffset a x.2 := fun x hx => by
    simp [arcKey, hw x hx]
  have hmark : ∀ x, arcKey a (markWrapped x).2 = arcOffset a x.2 := fun x => by
    simp [arcKey, markWrapped, arcOffset]
  rw [List.Sorted, List.pairwise_append, List.pairwise_map]
  refine ⟨?_, (hs.sublist (List.drop_sublist k l)), fun x hx y hy => ?_⟩
  · refine (hs.sublist (List.take_sublist k l)).imp_of_mem fun {x y} hx hy hxy => ?_
    have hx' := List.mem_of_mem_take hx
    have hy' := List.mem_of_mem_take hy
    rw [hmark, hmark]
    rw [hkey x hx', hkey y hy'] at hxy
    omega
  · obtain ⟨x', -, rfl⟩ := List.mem_map.1 hx
    rw [hmark, hkey y (List.mem_of_mem_drop hy)]
    have := hoff x'.2
    omega

theorem perm_qsortRanges {chain : List (Nat × SeqnoRange)}
    (harc : ∀ x ∈ chain, arcOffset a x.2 < 2 ^ 31) : (qsortRanges chain).Perm chain :=
  (qsortRanges_eq harc).symm ▸ List.perm_insertionSort _ chain

section Chain
variable {chain : List (Nat × SeqnoRange)} (hw : ∀ x ∈ chain, x.2.wraparound = false)
  (harc : ∀ x ∈ chain, arcOffset a x.2 < 2 ^ 31)
include hw harc

/-- The second `qsort` leaves the array as the detection left it. -/
theorem sortRanges_eq_detect : sortRanges chain = (detectWraparound (qsortRanges chain)).1 := by
  have hmem : ∀ {x}, x ∈ qsortRanges chain → x ∈ chain := fun hx =>
    (perm_qsortRanges harc).subset hx
  obtain ⟨k, hk, -⟩ := detectWraparound_eq (qsortRanges chain)
  dsimp only [sortRanges]
  split_ifs
  · rw [hk, qsortRanges_eq, List.Sorted.insertionSort_eq
      (sorted_markPrefix (fun x hx => hw x (hmem hx)) (sorted_qsortRanges harc) k)]
    intro x hx
    rcases List.mem_append.1 hx with hx | hx
    · obtain ⟨x', hx', rfl⟩ := List.mem_map.1 hx
      exact harc x' (hmem (List.mem_of_mem_take hx'))
    · exact harc x (hmem (List.mem_of_mem_drop hx))
  · rfl

/-- Marks aside, the array is the first sort's. -/
theorem map_clearWrapped_sortRanges : (sortRanges chain).map clearWrapped = qsortRanges chain := by
  obtain ⟨k, hk, -⟩ := detectWraparound_eq (qsortRanges chain)
  rw [sortRanges_eq_detect hw harc, hk, List.map_append, List.map_map]
  have hc : clearWrapped ∘ markWrapped = clearWrapped := rfl
  rw [hc, ← List.map_append, List.take_append_drop,
    map_clearWrapped fun x hx => hw x ((perm_qsortRanges harc).subset hx)]

end Chain

/-- **The array `lossdata_a2r_compute` sorts**, from a chain of unmarked ranges whose `low` ends
lie on an arc of length `2 ^ 31` from `a`: on the chain `rangecmp` is the order of the offsets;
the second `qsort` leaves the array as the detection left it; the array is ordered by offset;
and, marks aside, it holds the chain's ranges. -/
theorem sortRanges_arc {chain : List (Nat × SeqnoRange)}
    (hw : ∀ x ∈ chain, x.2.wraparound = false) (harc : ∀ x ∈ chain, arcOffset a x.2 < 2 ^ 31) :
    (∀ x ∈ chain, ∀ y ∈ chain, rangecmp x.2 y.2 ≤ 0 ↔ arcOffset a x.2 ≤ arcOffset a y.2) ∧
      sortRanges chain = (detectWraparound (qsortRanges chain)).1 ∧
      ((sortRanges chain).map fun x => arcOffset a x.2).Sorted (· ≤ ·) ∧
      ((sortRanges chain).map clearWrapped).Perm chain := by
  have hclear := map_clearWrapped_sortRanges hw harc
  refine ⟨fun x hx y hy => ?_, sortRanges_eq_detect hw harc, ?_,
    hclear ▸ perm_qsortRanges harc⟩
  · rw [rangecmp_nonpos_iff (harc x hx) (harc y hy)]
    simp [arcKey, hw x hx, hw y hy]
  · have hoff : (sortRanges chain).map (fun x => arcOffset a x.2) =
        (qsortRanges chain).map fun x => arcOffset a x.2 := by
      rw [← hclear, List.map_map]
      rfl
    have hw' : ∀ x ∈ qsortRanges chain, x.2.wraparound = false := fun x hx =>
      hw x ((perm_qsortRanges harc).subset hx)
    rw [hoff, List.Sorted, List.pairwise_map]
    refine (sorted_qsortRanges harc).imp_of_mem fun {x y} hx hy hxy => ?_
    simp only [arcKey, hw' x hx, hw' y hy] at hxy
    omega

/-- A past range just below `0` and a present range just above it, on the arc from
`0xFFFFFF00`: the detection finds the gap after `[2, 3]` and the array starts there. -/
theorem sortRanges_arc_across_zero :
    let chain : List (Nat × SeqnoRange) :=
      [(0, ⟨2, 3, false, .present⟩), (1, ⟨0xFFFFFFF0, 0xFFFFFFF0, false, .past⟩)]
    (∀ x ∈ chain, x.2.wraparound = false) ∧ (∀ x ∈ chain, arcOffset 0xFFFFFF00 x.2 < 2 ^ 31) ∧
      (∀ x ∈ chain, ∀ y ∈ chain,
        rangecmp x.2 y.2 ≤ 0 ↔ arcOffset 0xFFFFFF00 x.2 ≤ arcOffset 0xFFFFFF00 y.2) ∧
      sortRanges chain = (detectWraparound (qsortRanges chain)).1 ∧
      ((sortRanges chain).map fun x => arcOffset 0xFFFFFF00 x.2).Sorted (· ≤ ·) ∧
      ((sortRanges chain).map clearWrapped).Perm chain :=
  ⟨by decide, by decide, sortRanges_arc (by decide) (by decide)⟩

end Arc

end Pd3Estimator
