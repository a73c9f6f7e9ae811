import Pd3Estimator.ExtentPackets

/-!
# The density window is never popped empty

`rd_process_next_packet` pops `RD.window` whenever `RI` is in the window or in the buffer, and
a pop of an empty `Queue` has no entry to read. The loop of `reorderdata_a2r` only calls it in
`state` 0, and keeps the window full there:

* `RdInv`: before the window is initialized, `state` is 0, the window holds at most
  `REORDER_DT` entries and the buffer none; afterwards the window holds `REORDER_DT + 1`
  entries in state 0 and `REORDER_DT` in state 1 (`RdFull`); throughout, the window holds each
  sequence number once and none of the buffer's (`RdDistinct`);
* `RdInv.addNewArrival`, `RdInv.processNextPacket`, `densityBootstrap_inv`: the calls of the
  loop body keep it; `densityStep_inv`: so does one iteration, which returns and changes no
  field of `struct reorderDataR` but `FD`;
* `forLe_densityStep`: the density loop over a range with `high < 0xFFFFFFFF` returns;
* `RdReachable`: the states the loop passes through; `rdReachable_window` says what every one of
  them with an initialized window satisfies, and `reorderRun_rdReachable` that the reporter's
  runs end in such states.
-/

namespace Pd3Estimator

/-- The window of an initialized density state is full: `REORDER_DT + 1` entries while
processing window items, `REORDER_DT` while looking for the next arrival. -/
def RdFull (st : RdState) : Prop :=
  (st.state = 0 ∧ st.window.length = reorderDt + 1) ∨ (st.state = 1 ∧ st.window.length = reorderDt)

/-- The window holds each sequence number once, and none that the buffer holds. -/
structure RdDistinct (window buffer : List Seqno) : Prop where
  nodup : window.Nodup
  disjoint : ∀ x ∈ window, x ∉ buffer

/-- The invariant of the density state between iterations of the loop: before the window is
initialized, state 0, at most `REORDER_DT` entries and an empty buffer; afterwards a full
window (`RdFull`); and throughout, `RdDistinct`. -/
structure RdInv (st : RdState) : Prop where
  size : if st.windowInitialized then RdFull st
    else st.state = 0 ∧ st.window.length ≤ reorderDt ∧ st.buffer = []
  distinct : RdDistinct st.window st.buffer

theorem rdInv_init : RdInv {} :=
  ⟨by simp [reorderDt], ⟨List.nodup_nil, fun _ h => absurd h (List.not_mem_nil _)⟩⟩

theorem RdInv.full {st : RdState} (h : RdInv st) (hi : st.windowInitialized = true) :
    RdFull st := by
  simpa only [hi, if_true] using h.size

theorem RdInv.of_full {st : RdState} (hi : st.windowInitialized = true) (hf : RdFull st)
    (hd : RdDistinct st.window st.buffer) : RdInv st :=
  ⟨by simpa only [hi, if_true] using hf, hd⟩

/-! ### One call at a time -/

/-- `rd_advance_RI` moves `RI` only. -/
theorem rdAdvanceRI_eq (st : RdState) : rdAdvanceRI st = { st with ri := (rdAdvanceRI st).ri } := by
  unfold rdAdvanceRI
  dsimp only
  split_ifs <;> rfl

/-- `rd_record_distance` writes `FD` only. -/
theorem rdRecordDistance_eq (dr : ReorderDataR) (d : Int) :
    rdRecordDistance dr d = { dr with fd := (rdRecordDistance dr d).fd } := by
  unfold rdRecordDistance
  split_ifs <;> rfl

/-- Appending an arrival that is in neither the window nor the buffer keeps them distinct. -/
theorem RdDistinct.push {window buffer : List Seqno} (h : RdDistinct window buffer)
    {seq : Seqno} (hw : seq ∉ window) (hb : seq ∉ buffer) :
    RdDistinct (window ++ [seq]) buffer where
  nodup := h.nodup.append (List.nodup_singleton _) (List.disjoint_singleton.2 hw)
  disjoint x hx := by
    rcases List.mem_append.1 hx with hx | hx
    · exact h.disjoint x hx
    · exact List.mem_singleton.1 hx ▸ hb

/-- `rd_maybe_add_new_arrival_to_window` keeps the invariant of an initialized window. -/
theorem RdInv.addNewArrival {st : RdState} (h : RdInv st) (hi : st.windowInitialized = true)
    (seq : Seqno) :
    RdInv (rdMaybeAddNewArrivalToWindow st seq) ∧
      (rdMaybeAddNewArrivalToWindow st seq).windowInitialized = true := by
  unfold rdMaybeAddNewArrivalToWindow
  split_ifs with h0 hadd
  · exact ⟨h, hi⟩
  · have hw : st.window.length = reorderDt := by
      rcases h.full hi with h | h
      · exact absurd h.1 h0
      · exact h.2
    exact ⟨.of_full hi (.inl ⟨rfl, by rw [List.length_append, hw]; rfl⟩)
      (h.distinct.push hadd.2.1 hadd.2.2), hi⟩
  · exact ⟨h, hi⟩

/-- **`rd_process_next_packet` on an initialized window in state 0** pops an entry or advances
`RI`: it never pops an empty window, keeps the invariant, and writes `FD` only. -/
theorem RdInv.processNextPacket {st : RdState} (h : RdInv st) (hi : st.windowInitialized = true)
    (h0 : st.state = 0) (dr : ReorderDataR) :
    ∃ r, rdProcessNextPacket dr st = some r ∧ RdInv r.2 ∧ r.2.windowInitialized = true ∧
      r.1 = { dr with fd := r.1.fd } := by
  have hw : st.window.length = reorderDt + 1 := by
    rcases h.full hi with h | h
    · exact h.2
    · rw [h0] at h; exact absurd h.1 (by decide)
  obtain ⟨e, window, hew⟩ : ∃ e window, st.window = e :: window :=
    List.exists_cons_of_length_pos (by omega)
  have hlen : window.length = reorderDt := by
    rw [hew, List.length_cons] at hw
    omega
  have hnd : (e :: window).Nodup := hew ▸ h.distinct.nodup
  -- the rest of the window is off every buffer made of the old one and `e`
  have hpop : ∀ buf : List Seqno, (∀ x ∈ buf, x ∈ st.buffer ∨ x = e) →
      RdDistinct window buf := fun buf hbuf =>
    ⟨(List.nodup_cons.1 hnd).2, fun x hx hxb => (hbuf x hxb).elim
      (h.distinct.disjoint x (hew ▸ List.mem_cons_of_mem e hx))
      (fun hxe => (List.nodup_cons.1 hnd).1 (hxe ▸ hx))⟩
  have herase : ∀ x ∈ st.buffer.erase st.ri, x ∈ st.buffer ∨ x = e :=
    fun x hx => .inl (List.mem_of_mem_erase hx)
  unfold rdProcessNextPacket
  split_ifs
  · rw [hew]
    dsimp only
    split_ifs
    · refine ⟨_, rfl, .of_full hi (.inr ⟨rfl, hlen⟩) (hpop _ fun x hx => ?_), hi,
        rdRecordDistance_eq _ _⟩
      rcases (List.mem_orderedInsert _).1 hx with rfl | hx
      · exact .inr rfl
      · exact herase x hx
    · exact ⟨_, rfl, .of_full hi (.inr ⟨rfl, hlen⟩) (hpop _ herase), hi, rdRecordDistance_eq _ _⟩
    · exact ⟨_, rfl, .of_full hi (.inr ⟨rfl, hlen⟩) (hpop _ fun x hx => .inl hx), hi, rfl⟩
  · rw [rdAdvanceRI_eq]
    exact ⟨_, rfl, .of_full hi (.inl ⟨rfl, hw⟩) h.distinct, hi, rfl⟩

/-! ### One iteration, and the loop -/

/-- The bootstrap of the window: the state after the first `if` of the loop body. -/
theorem densityBootstrap_inv {st : RdState} (h : RdInv st) (i : Seqno) :
    RdInv (if st.windowInitialized then st
      else
        let st := rdMaybeAddSeqToWindow st i
        if st.window.length = reorderDt + 1 then { st with ri := 0, windowInitialized := true }
        else st) := by
  cases hi : st.windowInitialized
  · have hs := h.size
    simp only [hi, if_false, Bool.false_eq_true] at hs ⊢
    obtain ⟨h0, hlen, hbuf⟩ := hs
    -- `rd_maybe_add_seq_to_window` adds `i` when it is not in the window
    obtain ⟨hd, hlen', hadd⟩ : RdDistinct (rdMaybeAddSeqToWindow st i).window st.buffer ∧
        (rdMaybeAddSeqToWindow st i).window.length ≤ reorderDt + 1 ∧
        rdMaybeAddSeqToWindow st i = { st with window := (rdMaybeAddSeqToWindow st i).window } := by
      unfold rdMaybeAddSeqToWindow
      split_ifs with hmem
      · exact ⟨h.distinct, by omega, rfl⟩
      · exact ⟨h.distinct.push hmem (by simp [hbuf]), by simp; omega, rfl⟩
    rw [hadd]
    split_ifs with hfull
    · exact .of_full rfl (.inl ⟨h0, hfull⟩) hd
    · exact ⟨by simpa [hi, h0, hbuf] using Nat.le_of_lt_succ (lt_of_le_of_ne hlen' hfull), hd⟩
  · simpa only [if_true] using h

/-- **One iteration of the density loop returns**, keeps `RdInv`, and writes `FD` only. -/
theorem densityStep_inv (i : Seqno) {s : ReorderDataR × RdState} (h : RdInv s.2) :
    ∃ r, densityStep i s = some r ∧ RdInv r.2 ∧ r.1 = { s.1 with fd := r.1.fd } := by
  obtain ⟨dr, st⟩ := s
  have hboot := densityBootstrap_inv h i
  unfold densityStep
  generalize (if st.windowInitialized then st else _) = st₁ at hboot ⊢
  dsimp only
  cases hi : st₁.windowInitialized
  · exact ⟨(dr, st₁), by simp [hi], hboot, rfl⟩
  simp only [hi, not_true_eq_false, if_false]
  -- the window item to process, after a first try to add the arrival
  obtain ⟨h₂, hi₂⟩ : RdInv (if st₁.state = 1 then rdMaybeAddNewArrivalToWindow st₁ i else st₁) ∧
      (if st₁.state = 1 then rdMaybeAddNewArrivalToWindow st₁ i else st₁).windowInitialized =
        true := by
    split_ifs
    · exact hboot.addNewArrival hi i
    · exact ⟨hboot, hi⟩
  generalize (if st₁.state = 1 then rdMaybeAddNewArrivalToWindow st₁ i else st₁) = st₂ at h₂ hi₂ ⊢
  obtain ⟨r, hr, h₃, hi₃, hfd⟩ : ∃ r, (if st₂.state = 0 then rdProcessNextPacket dr st₂
      else some (dr, st₂)) = some r ∧ RdInv r.2 ∧ r.2.windowInitialized = true ∧
        r.1 = { dr with fd := r.1.fd } := by
    split_ifs with h0
    · exact h₂.processNextPacket hi₂ h0 dr
    · exact ⟨_, rfl, h₂, hi₂, rfl⟩
  rw [hr, Option.map_some']
  refine ⟨_, rfl, ?_, ?_⟩
  · split_ifs
    · exact (h₃.addNewArrival hi₃ i).1
    · exact h₃
  · split_ifs <;> exact hfd

/-- **The density loop over a range with `high < 0xFFFFFFFF` returns**, keeps `RdInv`, and
writes `FD` only. -/
theorem forLe_densityStep {r : SeqnoRange} (hlo : r.low.toNat ≤ r.high.toNat)
    (hhi : r.high.toNat < 2 ^ 32 - 1) (dr : ReorderDataR) {rd : RdState} (h : RdInv rd) :
    ∃ d, forLe densityStep loopFuel r.low r.high (dr, rd) = some d ∧ RdInv d.2 ∧
      d.1 = { dr with fd := d.1.fd } := by
  rw [forLe_range _ hlo hhi]
  suffices ∀ (l : List Seqno) (s : ReorderDataR × RdState), RdInv s.2 →
      s.1 = { dr with fd := s.1.fd } → ∃ d, l.foldlM (fun s x => densityStep x s) s = some d ∧
        RdInv d.2 ∧ d.1 = { dr with fd := d.1.fd } from this _ _ h rfl
  intro l
  induction l with
  | nil => exact fun s hs hfd => ⟨s, rfl, hs, hfd⟩
  | cons x l ih =>
    intro s hs hfd
    obtain ⟨s', hs', hinv, hfd'⟩ := densityStep_inv x hs
    rw [List.foldlM_cons, hs']
    exact ih s' hinv (by rw [hfd', hfd])

/-! ### Every state the loop reaches -/

/-- The density states the loop of `reorderdata_a2r` passes through on a stream: the one the
stream's first range sets up, and those one iteration of the loop leads to. -/
inductive RdReachable : RdState → Prop
  | init : RdReachable {}
  | step {st : RdState} {r : ReorderDataR × RdState} (dr : ReorderDataR) (i : Seqno) :
      RdReachable st → densityStep i (dr, st) = some r → RdReachable r.2

theorem RdReachable.inv {st : RdState} (h : RdReachable st) : RdInv st := by
  induction h with
  | init => exact rdInv_init
  | step dr i _ hr ih =>
    obtain ⟨r, hr', hinv, -⟩ := densityStep_inv i (s := (dr, _)) ih
    rw [hr] at hr'
    cases hr'
    exact hinv

theorem reorderdataResolveMissingPacket_rd (dr : ReorderDataR) (st : ReorderState) (seq : Seqno) :
    (reorderdataResolveMissingPacket dr st seq).2.rd = st.rd := by
  unfold reorderdataResolveMissingPacket
  split
  · rfl
  · split_ifs <;> rfl

theorem extentRange_rd {r : SeqnoRange} {s s' : ReorderDataR × ReorderState}
    (h : extentRange r s = some s') : s'.2.rd = s.2.rd := by
  unfold extentRange at h
  dsimp only at h
  split_ifs at h
  · cases h
    show (recordMissingRange _ _ _ _).rd = _
    rw [recordMissingRange_eq]
  · cases h
    rfl
  · refine forLe_invariant (fun x : ReorderDataR × ReorderState => x.2.rd = s.2.rd)
      (fun i s₁ s₂ h₁ h₂ => ?_) _ _ _ _ _ h rfl
    cases h₁
    rw [← h₂]
    unfold extentReorderedStep
    dsimp only
    split_ifs
    · rfl
    · exact reorderdataResolveMissingPacket_rd _ _ _

section Runs
variable {cfg : ReorderConfig} (hd : cfg.densityEnabled = true)
include hd

theorem reorderRange_rdReachable {s s' : ReorderDataR × ReorderState} {r : SeqnoRange}
    (h : reorderRange cfg s r = some s') (hs : RdReachable s.2.rd) : RdReachable s'.2.rd := by
  unfold reorderRange at h
  simp only [hd, if_true] at h
  obtain ⟨d, hd', h⟩ := Option.bind_eq_some.1 h
  obtain ⟨d₀, hd₀, rfl⟩ := Option.map_eq_some'.1 hd'
  -- the stream's first range sets up `RD`
  have hst : RdReachable (if s.2.initialized then s.2 else initReorderState cfg s.2 r).rd := by
    split_ifs
    · exact hs
    · simpa [initReorderState, hd] using RdReachable.init
  have hd₁ : RdReachable d₀.2 := forLe_invariant (fun x => RdReachable x.2)
    (fun i a b hab ha => .step a.1 i ha hab) _ _ _ _ _ hd₀ hst
  by_cases he : cfg.extentEnabled
  · rw [if_pos he] at h
    rw [extentRange_rd h]
    exact hd₁
  · rw [if_neg he] at h
    cases h
    exact hd₁

theorem reorderdataA2r_rdReachable {ranges : List SeqnoRange} {st : ReorderState}
    {s : ReorderDataR × ReorderState} (h : reorderdataA2r cfg ranges st = some s)
    (hs : RdReachable st.rd) : RdReachable s.2.rd := by
  obtain ⟨s₁, h₁, rfl⟩ := Option.map_eq_some'.1 h
  have hr : RdReachable s₁.2.rd := foldlM_invariant (fun x => RdReachable x.2.rd)
    (fun _ _ _ hr hb => reorderRange_rdReachable hd hr hb) ranges _ _ h₁ hs
  split_ifs
  · exact hr
  · exact hr

/-- The density state after every run of the reporter's calls for one stream is reachable. -/
theorem reorderRun_rdReachable : ∀ {epochs : List (List Seqno)} {st st' : ReorderState}
    {drs : List ReorderDataR}, reorderRun cfg st epochs = some (drs, st') →
      RdReachable st.rd → RdReachable st'.rd
  | [], _, _, _, h, hs => by
    cases h
    exact hs
  | a :: rest, st, st', drs, h, hs => by
    rw [reorderRun] at h
    split_ifs at h
    · exact reorderRun_rdReachable h hs
    · obtain ⟨s, hs₁, h⟩ := Option.bind_eq_some.1 h
      obtain ⟨r, hr, hrr⟩ := Option.map_eq_some'.1 h
      cases hrr
      exact reorderRun_rdReachable hr (reorderdataA2r_rdReachable hd hs₁ hs)

end Runs

end Pd3Estimator
