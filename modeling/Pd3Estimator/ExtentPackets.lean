import Pd3Estimator.Reorder

/-!
# Reorder extent, packet by packet

`reorderdata_a2r` handles the reorder extent one range at a time: a range that starts at or
ahead of `nextExp` is counted in one step (case 1), a range that starts behind it packet by
packet (case 2). This module shows that both cases compute what processing the packets of
the range one at a time does (`extentPacket`), and that the ranges `reorderdata_arrival`
builds hold exactly the arrivals, in order. Together they reduce the extent estimator to a
fold of `extentPacket` over the arrival sequence.

* `seqnosFrom` and `SeqnoRange.seqnos` list the sequence numbers of a range;
* `forLe_eq_foldlM`: a loop `for (i = lo; i <= hi; i++)` with `hi < 0xFFFFFFFF` terminates
  and folds its body over `lo, ..., hi`;
* `extentRange_eq_foldl`: the extent part of one range is the fold of `extentPacket` over its
  packets;
* `reorderAggregate_seqnos`: the epoch's ranges, expanded, are its arrivals;
* `aggregate_ranges_arrivals`: and the loss ranges, the same ranges newest first
  (`lossAggregate_ranges`), hold the same sequence numbers.
-/

namespace Pd3Estimator

/-- `n` consecutive sequence numbers from `i`. -/
def seqnosFrom (i : Seqno) : Nat → List Seqno
  | 0 => []
  | n + 1 => i :: seqnosFrom (i + 1) n

/-- The sequence numbers `low, low + 1, ..., high` of a range with `low ≤ high`. -/
def SeqnoRange.seqnos (r : SeqnoRange) : List Seqno :=
  seqnosFrom r.low (r.high.toNat + 1 - r.low.toNat)

theorem toNat_succ {i : Seqno} (h : i.toNat < 2 ^ 32 - 1) : (i + 1).toNat = i.toNat + 1 := by
  rw [toNat_add', toNat_one]
  omega

theorem seqnosFrom_succ (i : Seqno) (n : Nat) :
    seqnosFrom i (n + 1) = seqnosFrom i n ++ [i + UInt32.ofNat n] := by
  induction n generalizing i with
  | zero =>
    have : i + UInt32.ofNat 0 = i := by
      rw [eq_iff_toNat, toNat_add', toNat_ofNat_nat]
      have := toNat_lt_two_pow i
      omega
    rw [this]
    rfl
  | succ n ih =>
    rw [seqnosFrom, ih, seqnosFrom, List.cons_append]
    congr 3
    rw [eq_iff_toNat, toNat_add', toNat_add', toNat_add', toNat_ofNat_nat, toNat_ofNat_nat,
      toNat_one]
    omega

/-! ### C loops as folds -/

/-- A loop `for (i = lo; i <= hi; i++)` with `hi < 0xFFFFFFFF` runs its body over
`lo, ..., hi` and exits, given more fuel than iterations. -/
theorem forLe_eq_foldlM {σ : Type} (body : Seqno → σ → Option σ) {hi : Seqno}
    (hhi : hi.toNat < 2 ^ 32 - 1) :
    ∀ (n fuel : Nat) (i : Seqno) (s : σ), i.toNat + n = hi.toNat + 1 → n < fuel →
      forLe body fuel i hi s = (seqnosFrom i n).foldlM (fun s x => body x s) s
  | _, 0, _, _, _, hf => absurd hf (Nat.not_lt_zero _)
  | 0, fuel + 1, i, s, h, _ => by
    rw [forLe, if_neg (by rw [le_iff_toNat]; omega)]
    rfl
  | n + 1, fuel + 1, i, s, h, hf => by
    rw [forLe, if_pos (by rw [le_iff_toNat]; omega), seqnosFrom, List.foldlM_cons]
    cases body i s with
    | none => rfl
    | some s' =>
      exact forLe_eq_foldlM body hhi n fuel (i + 1) s' (by rw [toNat_succ (by omega)]; omega)
        (by omega)

theorem foldlM_some {α β : Type} (f : β → α → β) :
    ∀ (l : List α) (b : β), l.foldlM (fun b a => some (f b a)) b = some (l.foldl f b)
  | [], _ => rfl
  | a :: l, b => foldlM_some f l (f b a)

/-- The loop over a whole range `r` with `r.low ≤ r.high < 0xFFFFFFFF`. -/
theorem forLe_range {σ : Type} (body : Seqno → σ → Option σ) {r : SeqnoRange}
    (hlo : r.low.toNat ≤ r.high.toNat) (hhi : r.high.toNat < 2 ^ 32 - 1) (s : σ) :
    forLe body loopFuel r.low r.high s = r.seqnos.foldlM (fun s x => body x s) s :=
  forLe_eq_foldlM body hhi _ _ _ s (by omega) (by unfold loopFuel; omega)

/-! ### Counter arithmetic -/

theorem add_ofNat_zero (a : UInt32) : a + UInt32.ofNat 0 = a := by
  rw [eq_iff_toNat, toNat_add', toNat_ofNat_nat]
  have := toNat_lt_two_pow a
  omega

theorem add_one_add_ofNat (a : UInt32) (n : Nat) :
    a + 1 + UInt32.ofNat n = a + UInt32.ofNat (n + 1) := by
  rw [eq_iff_toNat, toNat_add', toNat_add', toNat_add', toNat_ofNat_nat, toNat_ofNat_nat, toNat_one]
  omega

theorem u64_add_ofNat_zero (a : UInt64) : a + UInt64.ofNat 0 = a := by
  rw [u64_eq_iff_toNat, u64_toNat_add, u64_toNat_ofNat]
  have := u64_toNat_lt a
  omega

theorem u64_add_one_add_ofNat (a : UInt64) (n : Nat) :
    a + 1 + UInt64.ofNat n = a + UInt64.ofNat (n + 1) := by
  rw [u64_eq_iff_toNat, u64_toNat_add, u64_toNat_add, u64_toNat_add, u64_toNat_ofNat,
    u64_toNat_ofNat, u64_toNat_one]
  omega

/-! ### One packet at a time -/

/-- Recording missing packets changes nothing but `missingPackets`. -/
theorem recordMissingRange_eq (refIndex : PacketCount) : ∀ (st : ReorderState) (i : Seqno) (n : Nat),
    recordMissingRange refIndex st i n =
      { st with missingPackets := (recordMissingRange refIndex st i n).missingPackets }
  | _, _, 0 => rfl
  | st, i, n + 1 => by
    rw [recordMissingRange, recordMissingRange_eq refIndex _ (i + 1) n]
    rfl

/-- Resolving a missing packet leaves `nextExp` alone. -/
theorem resolve_nextExp (dr : ReorderDataR) (st : ReorderState) (seq : Seqno) :
    (reorderdataResolveMissingPacket dr st seq).2.nextExp = st.nextExp := by
  unfold reorderdataResolveMissingPacket
  split
  · rfl
  · split_ifs <;> rfl

/-- Extent processing of the single arrival `x`, as `reorderdata_a2r` does for the range
`[x, x]`: the abstraction against which its ranges are compared. -/
def extentPacket (x : Seqno) (s : ReorderDataR × ReorderState) : ReorderDataR × ReorderState :=
  let st := s.2
  if seqcmp x st.nextExp ≥ 0 then
    let st' :=
      if seqcmp x st.nextExp > 0 then
        recordMissingRange (st.numArrivals + 1).toUInt32 st st.nextExp (x - st.nextExp).toNat
      else st
    ({ s.1 with extentToCount := bump s.1.extentToCount 0 },
     { st' with nextExp := x + 1, numArrivals := st.numArrivals + 1 })
  else extentReorderedStep x s

/-- Packets that each arrive exactly at `nextExp` count as in order and move it on. -/
theorem foldl_extentPacket_nextExp : ∀ (n : Nat) (s : ReorderDataR × ReorderState),
    (seqnosFrom s.2.nextExp n).foldl (fun s x => extentPacket x s) s =
      ({ s.1 with extentToCount :=
          Function.update s.1.extentToCount 0 (s.1.extentToCount 0 + UInt32.ofNat n) },
       { s.2 with nextExp := s.2.nextExp + UInt32.ofNat n,
                  numArrivals := s.2.numArrivals + UInt64.ofNat n })
  | 0, (dr, st) => by
    simp only [seqnosFrom, List.foldl_nil, add_ofNat_zero, u64_add_ofNat_zero,
      Function.update_eq_self]
  | n + 1, (dr, st) => by
    have hstep : extentPacket st.nextExp (dr, st) =
        ({ dr with extentToCount := bump dr.extentToCount 0 },
         { st with nextExp := st.nextExp + 1, numArrivals := st.numArrivals + 1 }) := by
      simp only [extentPacket, seqcmp_self, ge_iff_le, le_refl, if_true, gt_iff_lt,
        lt_self_iff_false, if_false]
    rw [seqnosFrom, List.foldl_cons, hstep, foldl_extentPacket_nextExp n]
    simp only [bump, Function.update_idem, Function.update_same, add_one_add_ofNat,
      u64_add_one_add_ofNat]

/-- The size of a range that does not wrap, as the `PACKETCOUNT` the code computes. -/
theorem rangeSize_eq {r : SeqnoRange} (hlo : r.low.toNat ≤ r.high.toNat) :
    r.high - r.low + 1 = 1 + UInt32.ofNat (r.high.toNat - r.low.toNat) := by
  rw [eq_iff_toNat, toNat_add', toNat_add', toNat_sub', toNat_one, toNat_ofNat_nat]
  have := toNat_lt_two_pow r.high
  omega

/-- Case 1: a range that starts at or ahead of `nextExp` is its packets, one at a time. -/
theorem extentRange_inorder {r : SeqnoRange} (hlo : r.low.toNat ≤ r.high.toNat)
    (hhi : r.high.toNat < 2 ^ 32 - 1) {s : ReorderDataR × ReorderState}
    (hc : seqcmp r.low s.2.nextExp ≥ 0) :
    extentRange r s = some (r.seqnos.foldl (fun s x => extentPacket x s) s) := by
  obtain ⟨dr, st⟩ := s
  set n := r.high.toNat - r.low.toNat with hn
  have hseq : r.seqnos = r.low :: seqnosFrom (r.low + 1) n := by
    rw [SeqnoRange.seqnos, show r.high.toNat + 1 - r.low.toNat = n + 1 by omega]
    rfl
  set st' := if seqcmp r.low st.nextExp > 0 then
      recordMissingRange (st.numArrivals + 1).toUInt32 st st.nextExp (r.low - st.nextExp).toNat
    else st with hst'
  have hN : st'.numArrivals = st.numArrivals := by
    rw [hst']
    split_ifs
    · rw [recordMissingRange_eq]
    · rfl
  have h1 : extentPacket r.low (dr, st) =
      ({ dr with extentToCount := bump dr.extentToCount 0 },
       { st' with nextExp := r.low + 1, numArrivals := st.numArrivals + 1 }) := by
    simp only [extentPacket, if_pos hc]
  have h2 : extentRange r (dr, st) =
      some ({ dr with extentToCount :=
                Function.update dr.extentToCount 0 (dr.extentToCount 0 + (r.high - r.low + 1)) },
            { st' with nextExp := r.high + 1,
                       numArrivals := st.numArrivals + (r.high - r.low + 1).toUInt64 }) := by
    simp only [extentRange, if_pos hc, ← hst', hN]
  have hsize : r.high - r.low + 1 = 1 + UInt32.ofNat n := rangeSize_eq hlo
  have hA : dr.extentToCount 0 + 1 + UInt32.ofNat n = dr.extentToCount 0 + (r.high - r.low + 1) := by
    rw [hsize, eq_iff_toNat, toNat_add', toNat_add', toNat_add', toNat_add', toNat_one]
    omega
  have hB : r.low + 1 + UInt32.ofNat n = r.high + 1 := by
    rw [eq_iff_toNat, toNat_add', toNat_add', toNat_add', toNat_one, toNat_ofNat_nat]
    omega
  have hC : st.numArrivals + 1 + UInt64.ofNat n =
      st.numArrivals + (r.high - r.low + 1).toUInt64 := by
    rw [u64_eq_iff_toNat, u64_toNat_add, u64_toNat_add, u64_toNat_add, toNat_toUInt64, hsize,
      toNat_add', toNat_one, toNat_ofNat_nat, u64_toNat_one, u64_toNat_ofNat]
    omega
  rw [hseq, List.foldl_cons, h1, h2, foldl_extentPacket_nextExp]
  simp only [bump, Function.update_idem, Function.update_same, hA, hB, hC]

/-- Case 2: while a packet is not ahead of `nextExp`, the step of case 2 is `extentPacket`. -/
theorem extentPacket_of_behind {i : Seqno} {s : ReorderDataR × ReorderState}
    (h : (s.2.nextExp - i).toNat < 2 ^ 31) : extentPacket i s = extentReorderedStep i s := by
  obtain ⟨dr, st⟩ := s
  dsimp only at h
  by_cases hi : i = st.nextExp
  · subst hi
    simp only [extentPacket, extentReorderedStep, seqcmp_self, ge_iff_le, le_refl, if_true,
      gt_iff_lt, lt_self_iff_false, if_false]
  · have hpos : 0 < (st.nextExp - i).toNat := by
      rw [eq_iff_toNat] at hi
      rw [toNat_sub']
      have := toNat_lt_two_pow i
      have := toNat_lt_two_pow st.nextExp
      omega
    have hneg : seqcmp i st.nextExp < 0 := (seqcmp_neg_iff _ _).2 ⟨hpos, h⟩
    rw [extentPacket, if_neg (Int.not_le.2 hneg)]

/-- In case 2 the packet after one that is not ahead of `nextExp` is not ahead of it either:
the range's packets are consecutive. -/
theorem extentReorderedStep_behind {i : Seqno} {s : ReorderDataR × ReorderState}
    (h : (s.2.nextExp - i).toNat < 2 ^ 31) :
    ((extentReorderedStep i s).2.nextExp - (i + 1)).toNat < 2 ^ 31 := by
  obtain ⟨dr, st⟩ := s
  dsimp only at h
  by_cases hi : i = st.nextExp
  · subst hi
    simp only [extentReorderedStep, seqcmp_self, ge_iff_le, le_refl, if_true, sub_self']
    decide
  · have hn : (extentReorderedStep i (dr, st)).2.nextExp = st.nextExp := by
      have : ¬seqcmp i st.nextExp ≥ 0 := by
        rw [ge_iff_le, seqcmp_nonneg_iff]
        rw [eq_iff_toNat] at hi
        rw [toNat_sub'] at h ⊢
        have := toNat_lt_two_pow i
        have := toNat_lt_two_pow st.nextExp
        omega
      simp only [extentReorderedStep, if_neg this]
      exact resolve_nextExp _ _ _
    rw [eq_iff_toNat] at hi
    rw [hn, toNat_sub', toNat_add', toNat_one]
    rw [toNat_sub'] at h
    have := toNat_lt_two_pow i
    have := toNat_lt_two_pow st.nextExp
    omega

theorem foldl_extentReorderedStep : ∀ (n : Nat) (i : Seqno) (s : ReorderDataR × ReorderState),
    (s.2.nextExp - i).toNat < 2 ^ 31 →
      (seqnosFrom i n).foldl (fun s x => extentReorderedStep x s) s =
        (seqnosFrom i n).foldl (fun s x => extentPacket x s) s
  | 0, _, _, _ => rfl
  | n + 1, i, s, h => by
    rw [seqnosFrom, List.foldl_cons, List.foldl_cons, extentPacket_of_behind h]
    exact foldl_extentReorderedStep n (i + 1) _ (extentReorderedStep_behind h)

/-- **The extent part of one range is its packets, one at a time**, in both cases of
`reorderdata_a2r`, for a range with `low ≤ high < 0xFFFFFFFF`. -/
theorem extentRange_eq_foldl {r : SeqnoRange} (hlo : r.low.toNat ≤ r.high.toNat)
    (hhi : r.high.toNat < 2 ^ 32 - 1) (s : ReorderDataR × ReorderState) :
    extentRange r s = some (r.seqnos.foldl (fun s x => extentPacket x s) s) := by
  by_cases hc : seqcmp r.low s.2.nextExp ≥ 0
  · exact extentRange_inorder hlo hhi hc
  · have h := ((seqcmp_neg_iff _ _).1 (Int.not_le.1 hc)).2
    simp only [extentRange, if_neg hc]
    rw [forLe_range _ hlo hhi, foldlM_some, SeqnoRange.seqnos,
      foldl_extentReorderedStep _ _ _ h]

/-! ### The epoch's ranges hold its arrivals -/

theorem seqnos_single (seqno : Seqno) : (SeqnoRange.single seqno).seqnos = [seqno] := by
  rw [SeqnoRange.seqnos, SeqnoRange.single, Nat.add_sub_cancel_left]
  rfl

/-- The packet after `high`, when it is not `0`, is `high + 1` without wrapping. -/
theorem toNat_of_sub_one {high seqno : Seqno} (hnext : high = seqno - 1) (hne : seqno ≠ 0) :
    seqno.toNat = high.toNat + 1 := by
  have hne' : seqno.toNat ≠ 0 := fun h => hne (eq_iff_toNat.2 h)
  rw [hnext, toNat_sub', toNat_one]
  have := toNat_lt_two_pow seqno
  omega

/-- Extending a range by the packet after its `high`. -/
theorem seqnos_extend {r : SeqnoRange} {seqno : Seqno} (hlo : r.low.toNat ≤ r.high.toNat)
    (hnext : r.high = seqno - 1) (hne : seqno ≠ 0) :
    { r with high := seqno }.seqnos = r.seqnos ++ [seqno] := by
  have hs := toNat_of_sub_one hnext hne
  rw [SeqnoRange.seqnos, SeqnoRange.seqnos]
  dsimp only
  rw [hs,
    show r.high.toNat + 1 + 1 - r.low.toNat = (r.high.toNat + 1 - r.low.toNat) + 1 by omega,
    seqnosFrom_succ]
  congr 2
  rw [eq_iff_toNat, toNat_add', toNat_ofNat_nat, hs]
  have := toNat_lt_two_pow seqno
  omega

/-- One arrival: the ranges, expanded, gain it at the end, and every range still has
`low ≤ high` and is an old range or ends at the arrival. -/
theorem reorderdataArrival_seqnos {ranges : List SeqnoRange} (seqno : Seqno)
    (hw : ∀ r ∈ ranges, r.low.toNat ≤ r.high.toNat) :
    (reorderdataArrival ranges seqno).flatMap SeqnoRange.seqnos =
        ranges.flatMap SeqnoRange.seqnos ++ [seqno] ∧
      ∀ r ∈ reorderdataArrival ranges seqno,
        r.low.toNat ≤ r.high.toNat ∧ (r ∈ ranges ∨ r.high = seqno) := by
  unfold reorderdataArrival
  split
  · rename_i last hlast
    obtain ⟨ys, rfl⟩ := List.getLast?_eq_some_iff.1 hlast
    have hl := hw last (List.mem_append_right _ (List.mem_singleton_self _))
    split_ifs with hext
    · rw [List.dropLast_concat, List.flatMap_append, List.flatMap_append, List.flatMap_singleton,
        List.flatMap_singleton, seqnos_extend hl hext.1 hext.2, List.append_assoc]
      refine ⟨rfl, fun r hr => ?_⟩
      rcases List.mem_append.1 hr with hr | hr
      · exact ⟨hw r (List.mem_append_left _ hr), .inl (List.mem_append_left _ hr)⟩
      · rw [List.mem_singleton] at hr
        subst hr
        have hs := toNat_of_sub_one hext.1 hext.2
        exact ⟨show last.low.toNat ≤ seqno.toNat by omega, .inr rfl⟩
    · rw [List.flatMap_append, List.flatMap_singleton, seqnos_single]
      refine ⟨rfl, fun r hr => ?_⟩
      rcases List.mem_append.1 hr with hr | hr
      · exact ⟨hw r hr, .inl hr⟩
      · rw [List.mem_singleton] at hr
        subst hr
        exact ⟨le_refl _, .inr rfl⟩
  · rename_i hnone
    rw [List.getLast?_eq_none_iff.1 hnone, List.flatMap_singleton, seqnos_single]
    refine ⟨rfl, fun r hr => ?_⟩
    rw [List.mem_singleton] at hr
    subst hr
    exact ⟨le_refl _, .inr rfl⟩

/-- **The epoch's ranges, expanded, are its arrivals**, and each range has `low ≤ high` and
ends at an arrival. -/
theorem reorderAggregate_seqnos (arrivals : List Seqno) :
    (reorderAggregate arrivals).flatMap SeqnoRange.seqnos = arrivals ∧
      ∀ r ∈ reorderAggregate arrivals, r.low.toNat ≤ r.high.toNat ∧ r.high ∈ arrivals := by
  suffices ∀ init : List SeqnoRange, (∀ r ∈ init, r.low.toNat ≤ r.high.toNat) →
      (arrivals.foldl reorderdataArrival init).flatMap SeqnoRange.seqnos =
          init.flatMap SeqnoRange.seqnos ++ arrivals ∧
        ∀ r ∈ arrivals.foldl reorderdataArrival init,
          r.low.toNat ≤ r.high.toNat ∧ (r ∈ init ∨ r.high ∈ arrivals) by
    obtain ⟨h1, h2⟩ := this [] (fun r hr => absurd hr (List.not_mem_nil r))
    refine ⟨h1, fun r hr => ?_⟩
    obtain ⟨hlo, hr | hr⟩ := h2 r hr
    · exact absurd hr (List.not_mem_nil r)
    · exact ⟨hlo, hr⟩
  induction arrivals with
  | nil => exact fun init hw => ⟨(List.append_nil _).symm, fun r hr => ⟨hw r hr, .inl hr⟩⟩
  | cons a as ih =>
    intro init hw
    obtain ⟨e1, e2⟩ := reorderdataArrival_seqnos a hw
    obtain ⟨f1, f2⟩ := ih _ fun r hr => (e2 r hr).1
    refine ⟨by rw [List.foldl_cons, f1, e1, List.append_assoc, List.singleton_append], ?_⟩
    intro r hr
    obtain ⟨hlo, hr | hr⟩ := f2 r hr
    · obtain ⟨-, hr | hr⟩ := e2 r hr
      · exact ⟨hlo, .inl hr⟩
      · exact ⟨hlo, .inr (hr ▸ List.mem_cons_self _ _)⟩
    · exact ⟨hlo, .inr (List.mem_cons_of_mem _ hr)⟩

/-- `lossdata_arrival` is `reorderdata_arrival` on the list taken newest first: it extends the
head range, or puts a new one at the head. -/
theorem lossdataArrival_ranges (lda : LossDataA) (seqno : Seqno) :
    (lossdataArrival lda seqno).ranges = (reorderdataArrival lda.ranges.reverse seqno).reverse := by
  rcases hr : lda.ranges with _ | ⟨r, rs⟩
  · simp [lossdataArrival, reorderdataArrival, hr]
  · simp only [lossdataArrival, reorderdataArrival, hr, List.reverse_cons, List.getLast?_concat,
      List.dropLast_concat]
    split_ifs <;> simp

/-- The loss ranges of an epoch are its reorder ranges, newest first. -/
theorem lossAggregate_ranges (arrivals : List Seqno) :
    (lossAggregate arrivals).ranges = (reorderAggregate arrivals).reverse := by
  suffices ∀ lda : LossDataA, (arrivals.foldl lossdataArrival lda).ranges =
      (arrivals.foldl reorderdataArrival lda.ranges.reverse).reverse from this {}
  induction arrivals with
  | nil => exact fun lda => (List.reverse_reverse _).symm
  | cons a as ih =>
    intro lda
    rw [List.foldl_cons, List.foldl_cons, ih, lossdataArrival_ranges, List.reverse_reverse]

/-- **Both range lists of an epoch hold its arrivals**: the reorder ranges, expanded range by
range, are the arrivals in order; the loss ranges hold the same sequence numbers, each arrival
in one range; and no range ends below its start. -/
theorem aggregate_ranges_arrivals (arrivals : List Seqno) :
    (reorderAggregate arrivals).flatMap SeqnoRange.seqnos = arrivals ∧
      ((lossAggregate arrivals).ranges.flatMap SeqnoRange.seqnos).Perm arrivals ∧
      ∀ r ∈ reorderAggregate arrivals ++ (lossAggregate arrivals).ranges, ¬r.high < r.low := by
  obtain ⟨hflat, hlo⟩ := reorderAggregate_seqnos arrivals
  rw [lossAggregate_ranges]
  refine ⟨hflat, ?_, fun r hr => ?_⟩
  · exact ((List.reverse_perm _).flatMap_right _).trans (.of_eq hflat)
  · rw [List.mem_append, List.mem_reverse, or_self] at hr
    exact Nat.not_lt.2 (hlo r hr).1

end Pd3Estimator
