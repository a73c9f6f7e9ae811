import Pd3Estimator.Rfc4737
import Pd3Estimator.DensityWindow

/-!
# The extent estimator computes RFC 4737's histogram

For pairwise-distinct arrivals in `[s₁, s₁ + 2 * REORDER_MAX_EXTENT]`, the extent part of
`reorderdata_a2r`, run by the reporter over the epochs of one stream, bins every arrival as RFC
4737 does (`rfcBins`) and never prunes an unobserved record.

* `ExtentInv s₁ e st`: after the arrivals `e`, `numArrivals` counts them, `nextExp` is RFC
  4737's `NextExp`, and `rbtree_lookup_key` on `missingPackets` finds `expectedRecord e`;
* `extentPacket_sim`: one packet bins as `rfcBin` and keeps `ExtentInv`;
* `reorderRange_sim`, `reorderdataA2r_sim`: a range, and an epoch, with reorder density on or
  off (it writes `FD` and `RD` only, `DensityWindow`);
* `reorderRun_extent_rfc4737`: the reporter's whole run from a fresh `struct reorderState`.
-/

namespace Pd3Estimator

/-! ### The missing-packet tree -/

/-- `rbtree_lookup_key` after an `rbtree_insert` of a key no matching record has. -/
theorem find?_orderedInsert {α : Type} (r : α → α → Prop) [DecidableRel r] (p : α → Bool)
    (a : α) : ∀ {l : List α}, (∀ b ∈ l, p b → ¬p a) →
      (l.orderedInsert r a).find? p = (a :: l).find? p
  | [], _ => rfl
  | b :: l, h => by
    have hb := h b (List.mem_cons_self _ _)
    rw [List.orderedInsert]
    split_ifs
    · rfl
    · by_cases pb : p b
      · rw [List.find?_cons_of_pos _ pb, List.find?_cons_of_neg _ (hb pb),
          List.find?_cons_of_pos _ pb]
      · rw [List.find?_cons_of_neg _ pb,
          find?_orderedInsert r p a fun c hc => h c (List.mem_cons_of_mem _ hc)]
        by_cases pa : p a
        · rw [List.find?_cons_of_pos _ pa, List.find?_cons_of_pos _ pa]
        · rw [List.find?_cons_of_neg _ pa, List.find?_cons_of_neg _ pa,
            List.find?_cons_of_neg _ pb]

/-- The records after `recordMissingRange`: a fresh unobserved one for each of
`i, ..., i + n - 1`, none of which had one. -/
theorem recordMissingRange_find (ref : PacketCount) (s : Seqno) :
    ∀ (n : Nat) (st : ReorderState) (i : Seqno), i.toNat + n < 2 ^ 32 →
      (∀ mp ∈ st.missingPackets, ¬(i.toNat ≤ mp.seq.toNat ∧ mp.seq.toNat < i.toNat + n)) →
      (recordMissingRange ref st i n).missingPackets.find? (·.seq = s) =
        if i.toNat ≤ s.toNat ∧ s.toNat < i.toNat + n then
          some { seq := s, observed := false, refIndex := ref, extent := -1 }
        else st.missingPackets.find? (·.seq = s)
  | 0, st, i, _, _ => by rw [if_neg (by omega)]; rfl
  | n + 1, st, i, hn, h => by
    have hi : (i + 1).toNat = i.toNat + 1 := toNat_succ (by omega)
    have hins : (reorderdataRecordMissingPacket st i ref).missingPackets.find? (·.seq = s) =
        if i = s then some { seq := i, observed := false, refIndex := ref, extent := -1 }
        else st.missingPackets.find? (·.seq = s) := by
      rw [reorderdataRecordMissingPacket]
      dsimp only
      rw [find?_orderedInsert]
      · by_cases his : i = s
        · rw [if_pos his, List.find?_cons_of_pos _ (by simpa using his)]
        · rw [if_neg his, List.find?_cons_of_neg _ (by simpa using his)]
      · intro b hb hbs his
        simp only [decide_eq_true_eq] at hbs his
        have := h b hb
        rw [hbs, ← his] at this
        omega
    rw [recordMissingRange, recordMissingRange_find ref s n _ (i + 1) (by omega), hins, hi]
    · by_cases his : i = s
      · subst his
        rw [if_pos rfl, if_pos (show i.toNat ≤ i.toNat ∧ i.toNat < i.toNat + (n + 1) by omega),
          ite_self]
      · have : i.toNat ≠ s.toNat := fun h => his (eq_iff_toNat.2 h)
        rw [if_neg his]
        split_ifs <;> first | rfl | omega
    · intro mp hmp
      rw [reorderdataRecordMissingPacket, List.mem_orderedInsert] at hmp
      rcases hmp with rfl | hmp
      · dsimp only
        rw [hi]
        omega
      · have := h mp hmp
        rw [hi]
        omega

/-- `rbtree_lookup_key` after the record of `x` is marked observed. -/
theorem find?_markObserved (x s : Seqno) : ∀ l : List MissingPacket,
    (markObserved x l).find? (·.seq = s) =
      if s = x then (l.find? (·.seq = x)).map fun mp => { mp with observed := true }
      else l.find? (·.seq = s)
  | [] => by split_ifs <;> rfl
  | mp :: l => by
    rw [markObserved]
    by_cases hm : mp.seq = x
    · have hx : (mp :: l).find? (·.seq = x) = some mp :=
        List.find?_cons_of_pos _ (by simpa using hm)
      rw [if_pos hm, hx]
      by_cases hs : s = x
      · subst hs
        rw [if_pos rfl, List.find?_cons_of_pos _ (by simpa using hm)]
        rfl
      · have hms : ¬mp.seq = s := fun h => hs (h ▸ hm)
        have h1 : ({ mp with observed := true } :: l).find? (·.seq = s) = l.find? (·.seq = s) :=
          List.find?_cons_of_neg _ (by simpa using hms)
        have h2 : (mp :: l).find? (·.seq = s) = l.find? (·.seq = s) :=
          List.find?_cons_of_neg _ (by simpa using hms)
        rw [if_neg hs, h1, h2]
    · have hx : (mp :: l).find? (·.seq = x) = l.find? (·.seq = x) :=
        List.find?_cons_of_neg _ (by simpa using hm)
      rw [if_neg hm, hx]
      by_cases hms : mp.seq = s
      · have hs : ¬s = x := fun h => hm (hms.trans h)
        have h1 : (mp :: markObserved x l).find? (·.seq = s) = some mp :=
          List.find?_cons_of_pos _ (by simpa using hms)
        have h2 : (mp :: l).find? (·.seq = s) = some mp :=
          List.find?_cons_of_pos _ (by simpa using hms)
        rw [h1, if_neg hs, h2]
      · have h1 : (mp :: markObserved x l).find? (·.seq = s) =
            (markObserved x l).find? (·.seq = s) :=
          List.find?_cons_of_neg _ (by simpa using hms)
        have h2 : (mp :: l).find? (·.seq = s) = l.find? (·.seq = s) :=
          List.find?_cons_of_neg _ (by simpa using hms)
        rw [h1, find?_markObserved x s l, h2]

/-! ### The invariant -/

/-- The extent state after the arrivals `e` of a stream whose first arrival is `s₁`, as RFC 4737
describes it. -/
structure ExtentInv (s₁ : Seqno) (e : List Seqno) (st : ReorderState) : Prop where
  /-- The first range has been seen. -/
  initialized : st.initialized = true
  /-- `numArrivals` counts the arrivals. -/
  numArrivals : st.numArrivals.toNat = e.length
  /-- `nextExp` is RFC 4737's `NextExp`. -/
  nextExp : st.nextExp = rfcNextExp s₁ e
  /-- `rbtree_lookup_key` finds the record RFC 4737 implies. -/
  records : ∀ s, st.missingPackets.find? (·.seq = s) = expectedRecord e s

/-- The state `reorderdata_a2r` sets up on a stream's first range. -/
theorem extentInv_init {cfg : ReorderConfig} (he : cfg.extentEnabled = true) {st : ReorderState}
    (h0 : st.numArrivals = 0) (r : SeqnoRange) : ExtentInv r.low [] (initReorderState cfg st r) := by
  unfold initReorderState
  simp only [he, if_true]
  refine ⟨?_, ?_, ?_, fun s => ?_⟩ <;> split_ifs <;> first | rfl | simp [h0]

/-- Every record lies strictly between `s₁` and `nextExp`. -/
theorem ExtentInv.seq_bounds {s₁ : Seqno} {e : List Seqno} {st : ReorderState}
    (h : ExtentInv s₁ e st) (hw : InWindow s₁ e) {mp : MissingPacket}
    (hmp : mp ∈ st.missingPackets) :
    s₁.toNat < mp.seq.toNat ∧ mp.seq.toNat < (rfcNextExp s₁ e).toNat := by
  have hsome : (st.missingPackets.find? (·.seq = mp.seq)).isSome :=
    List.find?_isSome.2 ⟨mp, hmp, by simp⟩
  rw [h.records, expectedRecord, Option.isSome_map'] at hsome
  obtain ⟨r, hr⟩ := Option.isSome_iff_exists.1 hsome
  exact expectedRef_bounds hw hr

/-! ### One packet -/

/-- `extentPacket` on a packet at or ahead of `nextExp`: the missing packets before it are
recorded, bin 0 counts it, and `nextExp` moves past it. -/
theorem extentPacket_of_ahead {x : Seqno} {dr : ReorderDataR} {st : ReorderState}
    (hc : seqcmp x st.nextExp ≥ 0) :
    extentPacket x (dr, st) =
      ({ dr with extentToCount := bump dr.extentToCount 0 },
       { recordMissingRange (st.numArrivals + 1).toUInt32 st st.nextExp (x - st.nextExp).toNat with
           nextExp := x + 1, numArrivals := st.numArrivals + 1 }) := by
  have hrec : (if seqcmp x st.nextExp > 0 then
      recordMissingRange (st.numArrivals + 1).toUInt32 st st.nextExp (x - st.nextExp).toNat
      else st) =
        recordMissingRange (st.numArrivals + 1).toUInt32 st st.nextExp (x - st.nextExp).toNat := by
    split_ifs with hpos
    · rfl
    · -- `seqcmp` is 0: `x = nextExp`, and the loop records nothing
      have hx : x = st.nextExp := by
        by_contra hne
        exact hpos ((seqcmp_pos_iff _ _).2 ⟨hne, (seqcmp_nonneg_iff _ _).1 hc⟩)
      rw [hx, sub_self']
      rfl
  simp only [extentPacket, if_pos hc, hrec]

/-- `extentPacket` on a packet behind `nextExp`: it is counted and its record resolved. -/
theorem extentPacket_reordered {x : Seqno} {dr : ReorderDataR} {st : ReorderState}
    (hc : seqcmp x st.nextExp < 0) :
    extentPacket x (dr, st) =
      reorderdataResolveMissingPacket dr { st with numArrivals := st.numArrivals + 1 } x := by
  simp only [extentPacket, extentReorderedStep, if_neg (Int.not_le.2 hc)]

/-- Resolving an unobserved record bins the capped extent and marks the record observed. -/
theorem reorderdataResolveMissingPacket_unobserved {dr : ReorderDataR} {st : ReorderState}
    {seq : Seqno} {mp : MissingPacket} (h : st.missingPackets.find? (·.seq = seq) = some mp)
    (hobs : mp.observed = false) :
    reorderdataResolveMissingPacket dr st seq =
      ({ dr with
          extentToCount := bump dr.extentToCount
            (if toInt32 (st.numArrivals.toUInt32 - mp.refIndex) > reorderMaxExtent then
              (reorderMaxExtent : Int) else toInt32 (st.numArrivals.toUInt32 - mp.refIndex)) },
       { st with missingPackets := markObserved seq st.missingPackets }) := by
  unfold reorderdataResolveMissingPacket
  rw [h]
  dsimp only
  rw [if_neg (by simp [hobs])]

/-- The capped extent of a packet at position `k` whose record has reference `r`. -/
theorem resolve_extent {k r : Nat} (hrk : r ≤ k) (hk : k < 2 ^ 31) :
    (if toInt32 (UInt32.ofNat k - UInt32.ofNat r) > reorderMaxExtent then (reorderMaxExtent : Int)
      else toInt32 (UInt32.ofNat k - UInt32.ofNat r)) = (min (k - r) reorderMaxExtent : Nat) := by
  have hd : (UInt32.ofNat k - UInt32.ofNat r).toNat = k - r := by
    rw [toNat_sub', toNat_ofNat_nat, toNat_ofNat_nat]
    omega
  have ht : toInt32 (UInt32.ofNat k - UInt32.ofNat r) = ((k - r : Nat) : Int) := by
    rw [toInt32, hd, if_pos (show k - r < 2 ^ 31 by omega)]
  rw [ht]
  simp only [reorderMaxExtent, Nat.min_def]
  split_ifs <;> omega

section
variable {s₁ x : Seqno} {e : List Seqno} {st : ReorderState}

theorem extentPacket_inorder_sim (hinv : ExtentInv s₁ e st) (hw : InWindow s₁ (e ++ [x]))
    (hle : (rfcNextExp s₁ e).toNat ≤ x.toNat) (dr : ReorderDataR) :
    (extentPacket x (dr, st)).1 = { dr with extentToCount := bump dr.extentToCount (rfcBin e x) } ∧
      ExtentInv s₁ (e ++ [x]) (extentPacket x (dr, st)).2 ∧
      (extentPacket x (dr, st)).2.rd = st.rd := by
  have hwe := hw.of_append_left
  obtain ⟨hN1, hN0, -⟩ := rfcNextExp_spec hwe
  have hx2 := hw.le x (List.mem_append_right e (List.mem_singleton_self x))
  have hb := hw.bound
  have hlen := hw.length_le
  rw [List.length_append, List.length_singleton] at hlen
  unfold reorderMaxExtent at hx2 hb hlen
  have hcount : (x - rfcNextExp s₁ e).toNat = x.toNat - (rfcNextExp s₁ e).toNat := by
    rw [toNat_sub']
    omega
  have hc : seqcmp x st.nextExp ≥ 0 := by
    rw [hinv.nextExp, ge_iff_le, seqcmp_nonneg_iff, hcount]
    omega
  have hbin : rfcBin e x = 0 := by
    rw [rfcBin, firstAbove_eq_none_iff.2 fun y hy => by have := hN1 y hy; omega]
  have href : (st.numArrivals + 1).toUInt32 = UInt32.ofNat (e.length + 1) := by
    rw [eq_iff_toNat, toNat_u64_toUInt32, u64_toNat_add, u64_toNat_one, hinv.numArrivals,
      toNat_ofNat_nat]
    omega
  rw [extentPacket_of_ahead hc, hbin, hinv.nextExp, href, hcount]
  refine ⟨rfl, ⟨?_, ?_, ?_, fun s => ?_⟩, ?_⟩
  · show (recordMissingRange _ st _ _).initialized = true
    rw [recordMissingRange_eq]
    exact hinv.initialized
  · show (st.numArrivals + 1).toNat = (e ++ [x]).length
    rw [u64_toNat_add, u64_toNat_one, hinv.numArrivals, List.length_append, List.length_singleton]
    omega
  · show x + 1 = rfcNextExp s₁ (e ++ [x])
    rw [rfcNextExp_append, nextExpStep, if_pos (le_iff_toNat.2 hle)]
  · show (recordMissingRange _ st _ _).missingPackets.find? _ = _
    rw [recordMissingRange_find _ s _ _ _ (by omega)
        fun mp hmp => by have := (hinv.seq_bounds hwe hmp).2; omega,
      hinv.records, expectedRecord_append_inorder hw hle,
      show (rfcNextExp s₁ e).toNat + (x.toNat - (rfcNextExp s₁ e).toNat) = x.toNat by omega]
  · show (recordMissingRange _ st _ _).rd = st.rd
    rw [recordMissingRange_eq]

theorem extentPacket_reordered_sim (hinv : ExtentInv s₁ e st) (hw : InWindow s₁ (e ++ [x]))
    (hlt : x.toNat < (rfcNextExp s₁ e).toNat) (dr : ReorderDataR) :
    (extentPacket x (dr, st)).1 = { dr with extentToCount := bump dr.extentToCount (rfcBin e x) } ∧
      ExtentInv s₁ (e ++ [x]) (extentPacket x (dr, st)).2 ∧
      (extentPacket x (dr, st)).2.rd = st.rd := by
  have hwe := hw.of_append_left
  have hN2 := (rfcNextExp_spec hwe).2.2.1
  have hx1 := hw.ge x (List.mem_append_right e (List.mem_singleton_self x))
  have hb := hw.bound
  have hlen := hw.length_le
  rw [List.length_append, List.length_singleton] at hlen
  unfold reorderMaxExtent at hN2 hb hlen
  have hc : seqcmp x st.nextExp < 0 := by
    rw [hinv.nextExp, seqcmp_neg_iff, toNat_sub']
    omega
  obtain ⟨j, hj, hrec⟩ := expectedRecord_reordered hw hlt
  obtain ⟨hjl, -⟩ := firstAbove_eq_some hj
  have hfind : ({ st with numArrivals := st.numArrivals + 1 } : ReorderState).missingPackets.find?
      (·.seq = x) =
        some { seq := x, observed := false, refIndex := UInt32.ofNat (j + 2), extent := -1 } := by
    rw [← hrec]
    exact hinv.records x
  have hk : (st.numArrivals + 1).toUInt32 = UInt32.ofNat (e.length + 1) := by
    rw [eq_iff_toNat, toNat_u64_toUInt32, u64_toNat_add, u64_toNat_one, hinv.numArrivals,
      toNat_ofNat_nat]
    omega
  have hbin : rfcBin e x = (min (e.length + 1 - (j + 2)) reorderMaxExtent : Nat) := by
    rw [rfcBin, hj, show e.length + 1 - (j + 2) = e.length - (j + 1) by omega]
  rw [extentPacket_reordered hc, reorderdataResolveMissingPacket_unobserved hfind rfl]
  dsimp only
  rw [hk, resolve_extent (by omega) (by omega), ← hbin]
  refine ⟨rfl, ⟨hinv.initialized, ?_, ?_, fun s => ?_⟩, rfl⟩
  · show (st.numArrivals + 1).toNat = (e ++ [x]).length
    rw [u64_toNat_add, u64_toNat_one, hinv.numArrivals, List.length_append, List.length_singleton]
    omega
  · show st.nextExp = rfcNextExp s₁ (e ++ [x])
    rw [rfcNextExp_append, nextExpStep, if_neg (fun h => absurd (le_iff_toNat.1 h) (by omega)),
      hinv.nextExp]
  · show (markObserved x st.missingPackets).find? _ = _
    simp only [find?_markObserved, hinv.records, expectedRecord_append_reordered hw hlt]

/-- **One packet** bins as RFC 4737 does and keeps `ExtentInv`; `RD` is left alone. -/
theorem extentPacket_sim (hinv : ExtentInv s₁ e st) (hw : InWindow s₁ (e ++ [x]))
    (dr : ReorderDataR) :
    (extentPacket x (dr, st)).1 = { dr with extentToCount := bump dr.extentToCount (rfcBin e x) } ∧
      ExtentInv s₁ (e ++ [x]) (extentPacket x (dr, st)).2 ∧
      (extentPacket x (dr, st)).2.rd = st.rd := by
  by_cases hle : (rfcNextExp s₁ e).toNat ≤ x.toNat
  · exact extentPacket_inorder_sim hinv hw hle dr
  · exact extentPacket_reordered_sim hinv hw (Nat.lt_of_not_le hle) dr

end

/-- **A run of packets** bins each as RFC 4737 does and keeps `ExtentInv`. -/
theorem foldl_extentPacket_sim {s₁ : Seqno} : ∀ (xs e : List Seqno) (dr : ReorderDataR)
    (st : ReorderState), ExtentInv s₁ e st → InWindow s₁ (e ++ xs) →
      ∃ st', xs.foldl (fun s x => extentPacket x s) (dr, st) =
          ({ dr with extentToCount := (rfcBins e xs).foldl bump dr.extentToCount }, st') ∧
        ExtentInv s₁ (e ++ xs) st' ∧ st'.rd = st.rd
  | [], e, dr, st, hinv, _ => ⟨st, rfl, by rwa [List.append_nil], rfl⟩
  | x :: xs, e, dr, st, hinv, hw => by
    have happ : e ++ x :: xs = (e ++ [x]) ++ xs := by
      rw [List.append_assoc, List.singleton_append]
    rw [happ] at hw ⊢
    obtain ⟨h1, h2, h3⟩ := extentPacket_sim hinv hw.of_append_left dr
    simp only [List.foldl_cons, rfcBins]
    generalize extentPacket x (dr, st) = p at h1 h2 h3 ⊢
    obtain ⟨dr₁, st₁⟩ := p
    dsimp only at h1 h2 h3
    subst h1
    obtain ⟨st', hst', hinv', hrd'⟩ := foldl_extentPacket_sim xs (e ++ [x]) _ st₁ h2 hw
    exact ⟨st', hst', hinv', hrd'.trans h3⟩

/-! ### Histograms -/

/-- `h[i]++` over a list of bins adds each bin's count, below `2 ^ 32`. -/
theorem foldl_bump_toNat {ι : Type} [DecidableEq ι] (b : ι) :
    ∀ (l : List ι) (h : ι → PacketCount), (h b).toNat + l.length < 2 ^ 32 →
      ((l.foldl bump h) b).toNat = (h b).toNat + l.count b
  | [], _, _ => rfl
  | c :: l, h, hl => by
    rw [List.length_cons] at hl
    have hc : ((bump h c) b).toNat = (h b).toNat + if c = b then 1 else 0 := by
      unfold bump
      by_cases hcb : c = b
      · subst hcb
        rw [Function.update_same, if_pos rfl, toNat_add', toNat_one]
        omega
      · rw [Function.update_noteq (Ne.symm hcb), if_neg hcb]
        rfl
    rw [List.foldl_cons, foldl_bump_toNat b l _ (by rw [hc]; split_ifs <;> omega), hc,
      List.count_cons]
    simp only [beq_iff_eq]
    omega

theorem length_rfcBins : ∀ (e xs : List Seqno), (rfcBins e xs).length = xs.length
  | _, [] => rfl
  | e, x :: xs => by rw [rfcBins, List.length_cons, length_rfcBins, List.length_cons]

/-! ### Ranges, epochs, and the run -/

@[simp] theorem initReorderState_initialized (cfg : ReorderConfig) (st : ReorderState)
    (r : SeqnoRange) : (initReorderState cfg st r).initialized = true := by
  unfold initReorderState
  split_ifs <;> rfl

section
variable {cfg : ReorderConfig} {s₁ : Seqno}

/-- A stream's first range sets up the state before anything else. -/
theorem reorderRange_init {st : ReorderState} (h : st.initialized = false) (dr : ReorderDataR)
    (r : SeqnoRange) : reorderRange cfg (dr, st) r = reorderRange cfg (dr, initReorderState cfg st r) r := by
  simp only [reorderRange, h, initReorderState_initialized]
  rfl

/-- A range of an initialized stream: reorder density, when on, writes `FD` and `RD` only, and the
extent part is the range's packets, one at a time. -/
theorem reorderRange_sim (he : cfg.extentEnabled = true) {e : List Seqno} {st : ReorderState}
    (hinv : ExtentInv s₁ e st) (hrd : RdInv st.rd) {r : SeqnoRange}
    (hlo : r.low.toNat ≤ r.high.toNat) (hhi : r.high.toNat < 2 ^ 32 - 1)
    (hw : InWindow s₁ (e ++ r.seqnos)) (dr : ReorderDataR) :
    ∃ fd st', reorderRange cfg (dr, st) r =
        some ({ dr with extentToCount := (rfcBins e r.seqnos).foldl bump dr.extentToCount, fd },
          st') ∧
      ExtentInv s₁ (e ++ r.seqnos) st' ∧ RdInv st'.rd := by
  -- the density loop, which the extent part follows
  obtain ⟨fd, rd, hdens, hrd'⟩ : ∃ fd rd, (if cfg.densityEnabled then
      (forLe densityStep loopFuel r.low r.high (dr, st.rd)).map fun d => (d.1, { st with rd := d.2 })
      else some (dr, st)) = some ({ dr with fd }, { st with rd }) ∧ RdInv rd := by
    split_ifs
    · obtain ⟨d, hd, hinv', hfd⟩ := forLe_densityStep hlo hhi dr hrd
      refine ⟨d.1.fd, d.2, ?_, hinv'⟩
      rw [hd, Option.map_some', ← hfd]
    · exact ⟨dr.fd, st.rd, rfl, hrd⟩
  obtain ⟨st', hst', hinv', hrd''⟩ :=
    foldl_extentPacket_sim r.seqnos e { dr with fd } { st with rd } ⟨hinv.1, hinv.2, hinv.3, hinv.4⟩ hw
  refine ⟨fd, st', ?_, hinv', by rw [hrd'']; exact hrd'⟩
  simp only [reorderRange]
  rw [if_pos hinv.initialized, hdens, Option.some_bind, if_pos he, extentRange_eq_foldl hlo hhi,
    hst']

/-- The ranges of an epoch, one after another. -/
theorem foldlM_reorderRange_sim (he : cfg.extentEnabled = true) :
    ∀ (ranges : List SeqnoRange) (e : List Seqno) (dr : ReorderDataR) (st : ReorderState),
      ExtentInv s₁ e st → RdInv st.rd →
      (∀ r ∈ ranges, r.low.toNat ≤ r.high.toNat ∧ r.high.toNat < 2 ^ 32 - 1) →
      InWindow s₁ (e ++ ranges.flatMap SeqnoRange.seqnos) →
      ∃ fd st', ranges.foldlM (reorderRange cfg) (dr, st) =
          some ({ dr with
            extentToCount := (rfcBins e (ranges.flatMap SeqnoRange.seqnos)).foldl bump
              dr.extentToCount, fd }, st') ∧
        ExtentInv s₁ (e ++ ranges.flatMap SeqnoRange.seqnos) st' ∧ RdInv st'.rd
  | [], e, dr, st, hinv, hrd, _, _ => ⟨dr.fd, st, rfl, by rwa [List.flatMap_nil, List.append_nil], hrd⟩
  | r :: rs, e, dr, st, hinv, hrd, hr, hw => by
    rw [List.flatMap_cons, ← List.append_assoc] at hw ⊢
    obtain ⟨hlo, hhi⟩ := hr r (List.mem_cons_self _ _)
    obtain ⟨fd₁, st₁, h1, hinv₁, hrd₁⟩ := reorderRange_sim he hinv hrd hlo hhi hw.of_append_left dr
    obtain ⟨fd₂, st₂, h2, hinv₂, hrd₂⟩ := foldlM_reorderRange_sim he rs _ _ st₁ hinv₁ hrd₁
      (fun r' h => hr r' (List.mem_cons_of_mem _ h)) hw
    refine ⟨fd₂, st₂, ?_, hinv₂, hrd₂⟩
    rw [List.foldlM_cons, h1]
    refine h2.trans ?_
    rw [rfcBins_append, List.foldl_append]

/-- With every record within `2 * REORDER_MAX_EXTENT` of `nextExp`, pruning removes nothing. -/
theorem prune_eq {e : List Seqno} {st : ReorderState} (hinv : ExtentInv s₁ e st)
    (hw : InWindow s₁ e) (dr : ReorderDataR) : reorderdataPruneMissingPackets dr st = (dr, st) := by
  have hN := (rfcNextExp_spec hw).2.2.1
  have hfresh : ∀ mp ∈ st.missingPackets, ¬(seqcmp mp.seq st.nextExp < 0 ∧
      (modularDistance mp.seq st.nextExp).toNat > reorderMaxHistory) := by
    rintro mp hmp ⟨-, hd⟩
    obtain ⟨h1, h2⟩ := hinv.seq_bounds hw hmp
    rw [hinv.nextExp, modularDistance_toNat, if_pos (by omega)] at hd
    unfold reorderMaxHistory reorderMaxExtent at hd hN
    omega
  have h0 : dr.extentAssumedDrops + (0 : Nat).toUInt32 = dr.extentAssumedDrops := by
    rw [eq_iff_toNat, toNat_add', show (0 : Nat).toUInt32.toNat = 0 from rfl]
    have := toNat_lt_two_pow dr.extentAssumedDrops
    omega
  simp only [reorderdataPruneMissingPackets]
  rw [List.countP_eq_zero.2 fun mp hmp h => hfresh mp hmp
      (by simp only [decide_eq_true_eq] at h; exact h.1),
    List.filter_eq_self.2 fun mp hmp => by simp only [decide_eq_true_eq]; exact hfresh mp hmp, h0]

/-- **One epoch** of an initialized stream. -/
theorem reorderdataA2r_sim (he : cfg.extentEnabled = true) {e arrivals : List Seqno}
    {st : ReorderState} (hinv : ExtentInv s₁ e st) (hrd : RdInv st.rd)
    (hw : InWindow s₁ (e ++ arrivals)) :
    ∃ dr st', reorderdataA2r cfg (reorderAggregate arrivals) st = some (dr, st') ∧
      dr.extentToCount = (rfcBins e arrivals).foldl bump (fun _ => 0) ∧
      dr.extentAssumedDrops = 0 ∧ ExtentInv s₁ (e ++ arrivals) st' ∧ RdInv st'.rd := by
  obtain ⟨hflat, hranges⟩ := reorderAggregate_seqnos arrivals
  have hr : ∀ r ∈ reorderAggregate arrivals,
      r.low.toNat ≤ r.high.toNat ∧ r.high.toNat < 2 ^ 32 - 1 := fun r h => by
    have := hw.le _ (List.mem_append_right e (hranges r h).2)
    have := hw.bound
    exact ⟨(hranges r h).1, by omega⟩
  obtain ⟨fd, st', h, hinv', hrd'⟩ :=
    foldlM_reorderRange_sim he _ e {} st hinv hrd hr (by rwa [hflat])
  rw [hflat] at h hinv'
  refine ⟨{ ({} : ReorderDataR) with
    extentToCount := (rfcBins e arrivals).foldl bump (fun _ => 0), fd }, st', ?_, rfl, rfl,
    hinv', hrd'⟩
  rw [reorderdataA2r, h, Option.map_some', if_pos he, prune_eq hinv' hw]

/-- **The first epoch** of a fresh stream: its first range sets up the state at `s₁`. -/
theorem reorderdataA2r_first (he : cfg.extentEnabled = true) {arrivals : List Seqno}
    (hw : InWindow s₁ arrivals) (hne : arrivals ≠ []) :
    ∃ dr st', reorderdataA2r cfg (reorderAggregate arrivals) {} = some (dr, st') ∧
      dr.extentToCount = (rfcBins [] arrivals).foldl bump (fun _ => 0) ∧
      dr.extentAssumedDrops = 0 ∧ ExtentInv s₁ arrivals st' ∧ RdInv st'.rd := by
  obtain ⟨hflat, hranges⟩ := reorderAggregate_seqnos arrivals
  cases hagg : reorderAggregate arrivals with
  | nil => rw [hagg, List.flatMap_nil] at hflat; exact absurd hflat.symm hne
  | cons r rs =>
    have hlo := (hranges r (by rw [hagg]; exact List.mem_cons_self _ _)).1
    -- the first range starts at the first arrival
    have hr : r.low = s₁ := by
      have hseq : r.seqnos = r.low :: seqnosFrom (r.low + 1) (r.high.toNat - r.low.toNat) := by
        rw [SeqnoRange.seqnos, show r.high.toNat + 1 - r.low.toNat =
          r.high.toNat - r.low.toNat + 1 by omega]
        rfl
      rw [hagg, List.flatMap_cons, hseq, List.cons_append] at hflat
      exact hw.head r.low (by rw [← hflat]; rfl)
    have hinit : reorderdataA2r cfg (r :: rs) {} = reorderdataA2r cfg (r :: rs)
        (initReorderState cfg {} r) := by
      rw [reorderdataA2r, reorderdataA2r, List.foldlM_cons, List.foldlM_cons,
        reorderRange_init rfl]
    have hrd : RdInv (initReorderState cfg {} r).rd := by
      unfold initReorderState
      split_ifs <;> exact rdInv_init
    rw [hinit, ← hagg]
    have hinv : ExtentInv s₁ [] (initReorderState cfg {} r) := hr ▸ extentInv_init he rfl r
    exact reorderdataA2r_sim he hinv hrd hw

/-- The reporter's run over the remaining epochs, from a fresh stream or one that has seen the
arrivals `e`. -/
theorem reorderRun_sim (he : cfg.extentEnabled = true) : ∀ (epochs : List (List Seqno))
    (e : List Seqno) (st : ReorderState),
    (st = {} ∧ e = [] ∨ ExtentInv s₁ e st ∧ RdInv st.rd) → InWindow s₁ (e ++ epochs.flatten) →
      ∃ drs st', reorderRun cfg st epochs = some (drs, st') ∧
        (∀ b, (drs.map fun d => (d.extentToCount b).toNat).sum =
          (rfcBins e epochs.flatten).count b) ∧
        ∀ d ∈ drs, d.extentAssumedDrops = 0
  | [], e, st, _, _ => ⟨[], st, rfl, fun b => by simp [rfcBins], by simp⟩
  | a :: rest, e, st, hrun, hw => by
    rw [List.flatten_cons, ← List.append_assoc] at hw
    rw [List.flatten_cons]
    by_cases ha : a = []
    · subst ha
      rw [reorderRun, if_pos rfl]
      simpa using reorderRun_sim he rest e st hrun (by simpa using hw)
    · obtain ⟨dr, st₁, h1, hc, hd, hinv₁, hrd₁⟩ : ∃ dr st',
          reorderdataA2r cfg (reorderAggregate a) st = some (dr, st') ∧
          dr.extentToCount = (rfcBins e a).foldl bump (fun _ => 0) ∧
          dr.extentAssumedDrops = 0 ∧ ExtentInv s₁ (e ++ a) st' ∧ RdInv st'.rd := by
        rcases hrun with ⟨rfl, rfl⟩ | ⟨hinv, hrd⟩
        · exact reorderdataA2r_first he (by simpa using hw.of_append_left) ha
        · exact reorderdataA2r_sim he hinv hrd hw.of_append_left
      obtain ⟨drs, st', h2, hsum, hdrops⟩ :=
        reorderRun_sim he rest (e ++ a) st₁ (.inr ⟨hinv₁, hrd₁⟩) hw
      refine ⟨dr :: drs, st', ?_, fun b => ?_, ?_⟩
      · rw [reorderRun, if_neg ha, h1, Option.some_bind, h2]
        rfl
      · have hlen := hw.length_le
        rw [List.length_append, List.length_append] at hlen
        unfold reorderMaxExtent at hlen
        have hb : ((fun _ => (0 : PacketCount)) b).toNat + (rfcBins e a).length < 2 ^ 32 := by
          rw [length_rfcBins]
          show 0 + a.length < 2 ^ 32
          omega
        rw [List.map_cons, List.sum_cons, hsum, hc, foldl_bump_toNat b _ _ hb, rfcBins_append,
          List.count_append, show (0 : PacketCount).toNat = 0 from rfl, Nat.zero_add]
      · rintro d (_ | ⟨_, hd'⟩)
        · exact hd
        · exact hdrops d hd'

end

/-- **The extent estimator computes RFC 4737's extent histogram.** For pairwise-distinct
arrivals that start at `s₁` and lie in `[s₁, s₁ + 2 * REORDER_MAX_EXTENT]`, below `0xFFFFFFFF`,
split into epochs in any way, the reporter's `reorderdata_a2r` calls on a fresh stream, with
reorder extent on (and reorder density on or off), all return; bin by bin, their `extentToCount`
histograms add up to RFC 4737's (`rfcBins`); and `extent_assumed_drops` stays 0. -/
theorem reorderRun_extent_rfc4737 {cfg : ReorderConfig} (he : cfg.extentEnabled = true)
    {s₁ : Seqno} {epochs : List (List Seqno)} (hw : InWindow s₁ epochs.flatten) :
    ∃ drs st, reorderRun cfg {} epochs = some (drs, st) ∧
      (∀ b : Int, (drs.map fun d => (d.extentToCount b).toNat).sum =
        (rfcBins [] epochs.flatten).count b) ∧
      ∀ d ∈ drs, d.extentAssumedDrops = 0 :=
  reorderRun_sim he epochs [] {} (.inl ⟨rfl, rfl⟩) (by rwa [List.nil_append])

/-- The arrivals `1, 3 | 2` in two epochs, with both reorder estimators on. -/
theorem reorderRun_extent_rfc4737_late_two :
    InWindow 1 [[(1 : Seqno), 3], [2]].flatten ∧
      ∃ drs st, reorderRun ⟨true, true⟩ {} [[1, 3], [2]] = some (drs, st) ∧
        (∀ b : Int, (drs.map fun d => (d.extentToCount b).toNat).sum =
          (rfcBins [] [[(1 : Seqno), 3], [2]].flatten).count b) ∧
        ∀ d ∈ drs, d.extentAssumedDrops = 0 :=
  have hw : InWindow 1 [[(1 : Seqno), 3], [2]].flatten :=
    ⟨fun y hy => (Option.some.inj hy).symm, by decide, by decide, by decide, by decide⟩
  ⟨hw, reorderRun_extent_rfc4737 rfl hw⟩

end Pd3Estimator
