import Pd3Estimator.ExtentPackets

/-!
# Missing-packet records across the wrap

Extent case 1 of `reorderdata_a2r` records every sequence number of the gap
`nextExp, ..., r->low - 1` with `for (i = nextExp; i != r->low; i++)`, taken modulo `2 ^ 32`,
without looking at the records already in `missingPackets`. With `rbtree_insert`, whose code is
not in the sources, modelled as keeping records with equal keys, a gap that wraps around onto a
sequence number that still has a record therefore gives it a second one.

* `extentRange_ahead_records`: **case 1 calls `reorderdata_record_missing_packet` once for each
  number of the modular gap, in order, whatever records are there**;
* `countP_recordMissingRange`: the records with key `s` after the loop are those before, plus
  one if `s` is in the gap;
* `extentRange_ahead`: what case 1 does to `nextExp`, `numArrivals` and the records;
* `reorderRun_duplicate_record`: one epoch with the arrivals `0, 2 ^ 31 + 1, 2` from a fresh
  stream does so: two jumps of `2 ^ 31`, each of which `seqcmp` calls ahead;
* `mem_prune_of_half_behind`: the pruning keeps a record `2 ^ 31` or more behind `nextExp`;
* `foldlM_reorderRange_duplicates`: duplicates of a late sequence number without a record count
  arrivals and nothing else, so `numArrivals - refIndex` of a later record grows without bound
  and its extent, read as an `int`, turns negative.
-/

namespace Pd3Estimator

/-- How often `s` occurs among `n ≤ 2 ^ 32` consecutive sequence numbers from `i`. -/
theorem count_seqnosFrom (i s : Seqno) : ∀ n, n ≤ 2 ^ 32 →
    (seqnosFrom i n).count s = if (s - i).toNat < n then 1 else 0
  | 0, _ => by simp [seqnosFrom]
  | n + 1, hn => by
    have hlast : (i + UInt32.ofNat n = s) ↔ (s - i).toNat = n := by
      rw [eq_iff_toNat, toNat_add', toNat_ofNat_nat, toNat_sub']
      have := toNat_lt_two_pow i
      have := toNat_lt_two_pow s
      omega
    rw [seqnosFrom_succ, List.count_append, count_seqnosFrom i s n (by omega),
      List.count_singleton]
    simp only [beq_iff_eq, hlast]
    split_ifs <;> omega

/-- `reorderdata_record_missing_packet` adds one record, whatever is there. -/
theorem countP_reorderdataRecordMissingPacket (st : ReorderState) (i : Seqno)
    (ref : PacketCount) (s : Seqno) :
    (reorderdataRecordMissingPacket st i ref).missingPackets.countP (·.seq = s) =
      st.missingPackets.countP (·.seq = s) + if i = s then 1 else 0 := by
  rw [reorderdataRecordMissingPacket]
  dsimp only
  rw [(List.perm_orderedInsert _ _ _).countP_eq, List.countP_cons]
  simp

/-- The records with key `s` after `recordMissingRange`: those before, plus one for each
occurrence of `s` in the gap. -/
theorem countP_recordMissingRange (ref : PacketCount) (s : Seqno) :
    ∀ (n : Nat) (st : ReorderState) (i : Seqno),
      (recordMissingRange ref st i n).missingPackets.countP (·.seq = s) =
        st.missingPackets.countP (·.seq = s) + (seqnosFrom i n).count s
  | 0, st, i => rfl
  | n + 1, st, i => by
    rw [recordMissingRange, countP_recordMissingRange ref s n, seqnosFrom, List.count_cons,
      countP_reorderdataRecordMissingPacket]
    simp only [beq_iff_eq]
    omega

/-- The loop of extent case 1 is one `reorderdata_record_missing_packet` for each sequence
number of the gap, in order. -/
theorem recordMissingRange_eq_foldl (ref : PacketCount) :
    ∀ (n : Nat) (st : ReorderState) (i : Seqno), recordMissingRange ref st i n =
      (seqnosFrom i n).foldl (fun s j => reorderdataRecordMissingPacket s j ref) st
  | 0, _, _ => rfl
  | n + 1, _, i => recordMissingRange_eq_foldl ref n _ (i + 1)

/-- Extent case 1 as one equation: the gap recorded, `nextExp` past the range, and the range's
packets counted as arrivals and as extent 0. At `r->low = nextExp` the gap is empty. -/
theorem extentRange_of_ge (r : SeqnoRange) (dr : ReorderDataR) (st : ReorderState)
    (hc : seqcmp r.low st.nextExp ≥ 0) :
    extentRange r (dr, st) = some
      ({ dr with extentToCount :=
          Function.update dr.extentToCount 0 (dr.extentToCount 0 + (r.high - r.low + 1)) },
        { recordMissingRange (st.numArrivals + 1).toUInt32 st st.nextExp
            (r.low - st.nextExp).toNat with
          nextExp := r.high + 1, numArrivals := st.numArrivals + (r.high - r.low + 1).toUInt64 }) := by
  have hrec : (if seqcmp r.low st.nextExp > 0 then
      recordMissingRange (st.numArrivals + 1).toUInt32 st st.nextExp (r.low - st.nextExp).toNat
      else st) =
      recordMissingRange (st.numArrivals + 1).toUInt32 st st.nextExp (r.low - st.nextExp).toNat := by
    split_ifs with hpos
    · rfl
    · have hx : r.low = st.nextExp := by
        by_contra hne
        exact hpos ((seqcmp_pos_iff _ _).2 ⟨hne, (seqcmp_nonneg_iff _ _).1 hc⟩)
      rw [hx, sub_self']
      rfl
  have hn : (recordMissingRange (st.numArrivals + 1).toUInt32 st st.nextExp
      (r.low - st.nextExp).toNat).numArrivals = st.numArrivals := by
    rw [recordMissingRange_eq]
  simp only [extentRange, if_pos hc, hrec, hn]

example : seqnosFrom 0xFFFFFFFE ((2 : Seqno) - 0xFFFFFFFE).toNat = [0xFFFFFFFE, 0xFFFFFFFF, 0, 1] := by
  decide

/-- **Extent case 1**: a range that `seqcmp` does not put behind `nextExp` moves `nextExp` past
it, counts its packets as arrivals, and adds one record for each sequence number from `nextExp`
up to `r->low`, on top of those already there. -/
theorem extentRange_ahead (r : SeqnoRange) (dr : ReorderDataR) (st : ReorderState)
    (hc : seqcmp r.low st.nextExp ≥ 0) :
    ∃ s', extentRange r (dr, st) = some s' ∧ s'.2.initialized = st.initialized ∧
      s'.2.nextExp = r.high + 1 ∧
      s'.2.numArrivals = st.numArrivals + (r.high - r.low + 1).toUInt64 ∧
      ∀ s, s'.2.missingPackets.countP (·.seq = s) = st.missingPackets.countP (·.seq = s) +
        if (s - st.nextExp).toNat < (r.low - st.nextExp).toNat then 1 else 0 := by
  have hst₁ := recordMissingRange_eq (st.numArrivals + 1).toUInt32 st st.nextExp
    (r.low - st.nextExp).toNat
  refine ⟨_, extentRange_of_ge r dr st hc, by rw [hst₁], rfl, rfl, fun s => ?_⟩
  show (recordMissingRange _ st st.nextExp _).missingPackets.countP _ = _
  rw [countP_recordMissingRange, count_seqnosFrom _ _ _
    (by have := toNat_lt_two_pow (r.low - st.nextExp); omega)]

/-- The pruning at the end of `reorderdata_a2r` keeps every record that is not stale. -/
theorem countP_prune {p : MissingPacket → Bool} (dr : ReorderDataR) (st : ReorderState)
    (hp : ∀ mp, p mp = true → ¬(seqcmp mp.seq st.nextExp < 0 ∧
      (modularDistance mp.seq st.nextExp).toNat > reorderMaxHistory)) :
    (reorderdataPruneMissingPackets dr st).2.missingPackets.countP p =
      st.missingPackets.countP p := by
  simp only [reorderdataPruneMissingPackets, List.countP_filter]
  refine List.countP_congr fun mp _ => ?_
  simp only [Bool.and_eq_true, decide_eq_true_eq, and_iff_left_iff_imp]
  intro h
  simpa using hp mp h

/-- With reorder density off, a range is extent case 1 or 2 on the set-up state. -/
theorem reorderRange_extent_only {cfg : ReorderConfig} (he : cfg.extentEnabled = true)
    (hd : cfg.densityEnabled = false) (s : ReorderDataR × ReorderState) (r : SeqnoRange) :
    reorderRange cfg s r =
      extentRange r (s.1, if s.2.initialized then s.2 else initReorderState cfg s.2 r) := by
  simp [reorderRange, he, hd]

/-- One epoch with the arrivals `0, 2 ^ 31 + 1, 2` on a fresh stream, reorder extent on: the
ranges `[2 ^ 31 + 1]` and `[2]` each jump `nextExp` by `2 ^ 31`, and sequence number 1 ends up
with two records. -/
theorem reorderRun_duplicate_record :
    (reorderRun ⟨true, false⟩ {} [[0, 2147483649, 2]]).map
      (fun r => r.2.missingPackets.countP (·.seq = 1)) = some 2 := by
  have hagg : reorderAggregate [0, 2147483649, 2] =
      [.single 0, .single 2147483649, .single 2] := by decide
  obtain ⟨s₁, h₁, hi₁, hn₁, -, hc₁⟩ :=
    extentRange_ahead (.single 0) {} (initReorderState ⟨true, false⟩ {} (.single 0)) (by decide)
  obtain ⟨s₂, h₂, hi₂, hn₂, -, hc₂⟩ :=
    extentRange_ahead (.single 2147483649) s₁.1 s₁.2 (by rw [hn₁]; decide)
  obtain ⟨s₃, h₃, -, hn₃, -, hc₃⟩ :=
    extentRange_ahead (.single 2) s₂.1 s₂.2 (by rw [hn₂]; decide)
  have hrun : reorderRun ⟨true, false⟩ {} [[0, 2147483649, 2]] =
      some ([(reorderdataPruneMissingPackets s₃.1 s₃.2).1],
        (reorderdataPruneMissingPackets s₃.1 s₃.2).2) := by
    rw [reorderRun, if_neg (by decide), hagg, reorderdataA2r]
    have hR := @reorderRange_extent_only ⟨true, false⟩ rfl rfl
    have hi₁' : s₁.2.initialized = true := hi₁
    have hi₂' : s₂.2.initialized = true := hi₂.trans hi₁
    simp only [List.foldlM_cons, List.foldlM_nil, hR, Bool.false_eq_true, if_false, if_true, h₁,
      Option.bind_eq_bind, Option.some_bind, hi₁', hi₂', Prod.mk.eta, h₂, h₃, Option.pure_def,
      Option.map_some', reorderRun]
  rw [hrun, Option.map_some', countP_prune _ _ fun mp hmp => ?_, hc₃, hc₂, hc₁, hn₂, hn₁]
  · decide
  · rw [of_decide_eq_true hmp, hn₃]
    decide

/-- The pruning keeps every record that `seqcmp` does not put strictly behind `nextExp`, however
far from it: in particular one that lies `2 ^ 31` or more behind. -/
theorem mem_prune_of_half_behind {dr : ReorderDataR} {st : ReorderState} {mp : MissingPacket}
    (hmp : mp ∈ st.missingPackets) (hd : 2 ^ 31 ≤ (st.nextExp - mp.seq).toNat) :
    mp ∈ (reorderdataPruneMissingPackets dr st).2.missingPackets := by
  refine List.mem_filter.2 ⟨hmp, ?_⟩
  have : ¬seqcmp mp.seq st.nextExp < 0 := by
    rw [seqcmp_neg_iff]
    omega
  simp [this]

/-- One epoch with the arrivals `0, 2 ^ 31` on a fresh stream, reorder extent on: the jump from
`nextExp = 1` records `1, ..., 2 ^ 31 - 1` and moves `nextExp` to `2 ^ 31 + 1`, and the record
for `1`, `2 ^ 31` behind it, survives the pruning. -/
theorem reorderRun_record_half_behind :
    ∃ drs st, reorderRun ⟨true, false⟩ {} [[0, 2147483648]] = some (drs, st) ∧
      ∃ mp ∈ st.missingPackets, (st.nextExp - mp.seq).toNat = 2 ^ 31 := by
  have hagg : reorderAggregate [0, 2147483648] = [.single 0, .single 2147483648] := by decide
  obtain ⟨s₁, h₁, hi₁, hn₁, -, hc₁⟩ :=
    extentRange_ahead (.single 0) {} (initReorderState ⟨true, false⟩ {} (.single 0)) (by decide)
  obtain ⟨s₂, h₂, -, hn₂, -, hc₂⟩ :=
    extentRange_ahead (.single 2147483648) s₁.1 s₁.2 (by rw [hn₁]; decide)
  have hrun : reorderRun ⟨true, false⟩ {} [[0, 2147483648]] =
      some ([(reorderdataPruneMissingPackets s₂.1 s₂.2).1],
        (reorderdataPruneMissingPackets s₂.1 s₂.2).2) := by
    rw [reorderRun, if_neg (by decide), hagg, reorderdataA2r]
    have hR := @reorderRange_extent_only ⟨true, false⟩ rfl rfl
    have hi₁' : s₁.2.initialized = true := hi₁
    simp only [List.foldlM_cons, List.foldlM_nil, hR, Bool.false_eq_true, if_false, if_true, h₁,
      Option.bind_eq_bind, Option.some_bind, hi₁', Prod.mk.eta, h₂, Option.pure_def,
      Option.map_some', reorderRun]
  refine ⟨_, _, hrun, ?_⟩
  -- the gap recorded `1`
  have hcount : 0 < s₂.2.missingPackets.countP (·.seq = 1) := by
    rw [hc₂, hc₁, hn₁]
    decide
  obtain ⟨mp, hmp, hseq⟩ := List.countP_pos_iff.1 hcount
  have hseq : mp.seq = 1 := of_decide_eq_true hseq
  have hd : (s₂.2.nextExp - mp.seq).toNat = 2 ^ 31 := by
    rw [hn₂, hseq]
    decide
  exact ⟨mp, mem_prune_of_half_behind hmp hd.ge, hd⟩

/-! ### The extent of a late packet -/

section Index
variable {cfg : ReorderConfig} (he : cfg.extentEnabled = true) (hd : cfg.densityEnabled = false)
include he hd

/-- A late single sequence number is one step of the extent loop. -/
theorem reorderRange_single_behind {x : Seqno} {st : ReorderState}
    (hi : st.initialized = true) (hb : seqcmp x st.nextExp < 0) (hx : x.toNat < 2 ^ 32 - 1)
    (dr : ReorderDataR) :
    reorderRange cfg (dr, st) (.single x) = some (extentReorderedStep x (dr, st)) := by
  have hb' : ¬seqcmp (SeqnoRange.single x).low st.nextExp ≥ 0 := not_le.2 hb
  rw [reorderRange_extent_only he hd, if_pos hi]
  simp only [extentRange, if_neg hb']
  rw [forLe_range _ le_rfl hx, seqnos_single]
  rfl

/-- A range `[x, x]` behind `nextExp` whose sequence number has no record only counts an
arrival: `numArrivals` runs ahead while `nextExp` stays. -/
theorem reorderRange_behind_unrecorded {x : Seqno} {st : ReorderState}
    (hi : st.initialized = true) (hb : seqcmp x st.nextExp < 0) (hx : x.toNat < 2 ^ 32 - 1)
    (hn : st.missingPackets.find? (·.seq = x) = none) (dr : ReorderDataR) :
    reorderRange cfg (dr, st) (.single x) =
      some (dr, { st with numArrivals := st.numArrivals + 1 }) := by
  rw [reorderRange_single_behind he hd hi hb hx]
  simp only [extentReorderedStep, if_neg (not_le.2 hb), reorderdataResolveMissingPacket, hn]

/-- Duplicates of such a sequence number count `n` arrivals and change nothing else. -/
theorem foldlM_reorderRange_duplicates {x : Seqno} (hx : x.toNat < 2 ^ 32 - 1) (dr : ReorderDataR) :
    ∀ (n : Nat) (st : ReorderState), st.initialized = true → seqcmp x st.nextExp < 0 →
      st.missingPackets.find? (·.seq = x) = none →
      (List.replicate n (SeqnoRange.single x)).foldlM (reorderRange cfg) (dr, st) =
        some (dr, { st with numArrivals := st.numArrivals + UInt64.ofNat n })
  | 0, st, _, _, _ => by
    rw [u64_add_ofNat_zero]
    rfl
  | n + 1, st, hi, hb, hn => by
    rw [List.replicate_succ, List.foldlM_cons,
      reorderRange_behind_unrecorded he hd hi hb hx hn dr, Option.bind_eq_bind, Option.some_bind,
      foldlM_reorderRange_duplicates hx dr n { st with numArrivals := st.numArrivals + 1 } hi hb hn,
      u64_add_one_add_ofNat]

end Index

/-- An arrival that does not follow the last range starts a new one. -/
theorem reorderdataArrival_append_single (ranges : List SeqnoRange) {x y : Seqno}
    (h : ¬(x = y - 1 ∧ y ≠ 0)) :
    reorderdataArrival (ranges ++ [.single x]) y = ranges ++ [.single x] ++ [.single y] := by
  simp only [reorderdataArrival, List.getLast?_concat]
  exact if_neg h

/-- `1`, `3`, `n` duplicates of `3`, and `2` make the ranges `[1]`, `[3]`, `n` times `[3]`,
and `[2]`. -/
theorem reorderAggregate_late_two (n : Nat) :
    reorderAggregate ([1, 3] ++ List.replicate n 3 ++ [2]) =
      [.single 1, .single 3] ++ List.replicate n (.single 3) ++ [.single 2] := by
  have hrep : ∀ (n : Nat) (init : List SeqnoRange),
      (List.replicate n 3).foldl reorderdataArrival (init ++ [.single 3]) =
        init ++ [.single 3] ++ List.replicate n (.single 3) := by
    intro n
    induction n with
    | zero => exact fun init => (List.append_nil _).symm
    | succ n ih =>
      intro init
      rw [List.replicate_succ, List.foldl_cons, reorderdataArrival_append_single _ (by decide), ih]
      simp [List.replicate_succ]
  have hl : [SeqnoRange.single 1] ++ [.single 3] ++ List.replicate n (.single 3) =
      ([.single 1] ++ List.replicate n (.single 3)) ++ [.single 3] := by
    simp only [List.singleton_append, List.cons_append, List.nil_append, List.cons.injEq, true_and]
    rw [← List.replicate_succ, List.replicate_succ']
  rw [reorderAggregate, List.foldl_append, List.foldl_append,
    show List.foldl reorderdataArrival [] [1, 3] = [.single 1] ++ [.single 3] from rfl, hrep, hl,
    List.foldl_cons, List.foldl_nil, reorderdataArrival_append_single _ (by decide), ← hl]
  rfl

/-- Reorder extent on, one epoch on a fresh stream: `1`, then `3`, which records `2` with
`refIndex = 2`, then `2 ^ 31` duplicates of `3`, each of which counts an arrival and finds no
record, then `2`. Its extent `arrivalIndex - refIndex = 2 ^ 31 + 1` is negative as an `int`,
and `reorderdata_resolve_missing_packet` writes `extentToCount[-2147483647]`. -/
theorem reorderRun_extent_negative_index :
    ∃ dr st, reorderRun ⟨true, false⟩ {} [[1, 3] ++ List.replicate (2 ^ 31) 3 ++ [2]] =
      some ([dr], st) ∧ dr.extentToCount (-2147483647) = 1 := by
  -- the first two ranges, from the fresh stream
  have h₂ : ((List.foldlM (reorderRange ⟨true, false⟩) ({}, {})
      [SeqnoRange.single 1, .single 3]).map fun s => (s.1.extentToCount (-2147483647), s.2)) =
      some (0, { initialized := true, numArrivals := 2, nextExp := 4,
                 missingPackets := [⟨2, false, 2, -1⟩] }) := by
    decide
  obtain ⟨⟨dr₂, st₂⟩, h₂, hproj⟩ := Option.map_eq_some'.1 h₂
  simp only [Prod.mk.injEq] at hproj
  obtain ⟨hc₂, rfl⟩ := hproj
  -- the duplicates, then the late `2`
  have h₃ := foldlM_reorderRange_duplicates (show (⟨true, false⟩ : ReorderConfig).extentEnabled = true
    from rfl) rfl (show (3 : Seqno).toNat < 2 ^ 32 - 1 by decide)
    dr₂ (2 ^ 31) { initialized := true, numArrivals := 2, nextExp := 4,
                   missingPackets := [⟨2, false, 2, -1⟩] } rfl (by decide) (by decide)
  have hext : toInt32 ((2 + UInt64.ofNat (2 ^ 31) + 1).toUInt32 - 2) = -2147483647 := by decide
  have hfind : [(⟨2, false, 2, -1⟩ : MissingPacket)].find? (·.seq = 2) = some ⟨2, false, 2, -1⟩ :=
    rfl
  have hrun : (reorderRun ⟨true, false⟩ {} [[1, 3] ++ List.replicate (2 ^ 31) 3 ++ [2]]).map
      (fun r => r.1.map (·.extentToCount (-2147483647))) = some [1] := by
    have hne : [1, 3] ++ List.replicate (2 ^ 31) (3 : Seqno) ++ [2] ≠ [] := List.cons_ne_nil _ _
    rw [reorderRun, if_neg hne, reorderAggregate_late_two, reorderdataA2r,
      List.foldlM_append, List.foldlM_append, h₂, Option.bind_eq_bind, Option.some_bind, h₃,
      Option.some_bind, List.foldlM_cons,
      reorderRange_single_behind (show (⟨true, false⟩ : ReorderConfig).extentEnabled = true
        from rfl) rfl rfl (by decide) (by decide)]
    simp only [extentReorderedStep, reorderdataResolveMissingPacket,
      if_neg (show ¬seqcmp 2 4 ≥ 0 by decide), hfind, hext, Bool.false_eq_true, if_false,
      if_neg (show ¬(-2147483647 : Int) > reorderMaxExtent by decide), List.foldlM_nil,
      Option.some_bind, Option.pure_def, Option.map_some', reorderRun, if_true,
      reorderdataPruneMissingPackets, List.map_cons, List.map_nil, bump, Function.update_same, hc₂]
    rfl
  obtain ⟨⟨drs, st⟩, hr, hdrs⟩ := Option.map_eq_some'.1 hrun
  rcases drs with _ | ⟨dr, _ | ⟨_, _⟩⟩ <;> simp only [List.map_cons, List.map_nil,
    List.cons.injEq, reduceCtorEq, and_false, and_true] at hdrs
  exact ⟨dr, st, hr, hdrs⟩

end Pd3Estimator
