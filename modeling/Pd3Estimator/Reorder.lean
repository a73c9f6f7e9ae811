import Pd3Estimator.Loss
import Mathlib.Logic.Function.Basic

/-!
# The reorder estimators

`reorderdata.c` and `reorderdata.h`: reorder extent (RFC 4737, missing-packet records) and
reorder density (RFC 5236, a window and a buffer), both driven by `reorderdata_a2r` over the
epoch's reorder ranges in arrival order.

* `reorderdataArrival` appends to the epoch's range list, extending the last range when the
  packet follows it.
* The per-packet loops `for (SEQNO i = r->low; i <= r->high; i++)` are `forLe`, run with
  `loopFuel`, more iterations than any terminating loop over a 32-bit counter can take:
  `none` is a loop that does not terminate (or a pop of an empty window, which crashes).
* The missing-packet loop `for (i = nextExp; i != r->low; i++)` always runs
  `(r->low - nextExp) mod 2 ^ 32` times: `recordMissingRange`.
* `reorderdataA2r` is the per-stream computation of one epoch; `reorderRun` is the reporter's
  sequence of calls for one stream.

`missingPackets` and the density `buffer` are `rbtree`s and the window a `Queue`, whose code is
not part of the sources; the spec asks only for "any ordered-by-key set and FIFO". The trees
are lists sorted by key, the queue a list with its head first. What `rbtree_insert` does with a
key already in the tree is said neither by the sources nor by the spec: the model keeps both
records, and `rbtree_lookup_key` finds the first record with the key.
-/

namespace Pd3Estimator

/-- `REORDER_MAX_EXTENT`. -/
def reorderMaxExtent : Nat := 255

/-- `REORDER_MAX_HISTORY`: `REORDER_MAX_EXTENT * 2`. -/
def reorderMaxHistory : Nat := reorderMaxExtent * 2

/-- `REORDER_DT`. -/
def reorderDt : Nat := 8

/-- `struct reorderDataR`. `extentToCount` is indexed by the `int` extent, so that a write
outside `[0, REORDER_MAX_EXTENT]` stays visible; `FD` has `REORDER_WINDOW_SIZE` bins. -/
structure ReorderDataR where
  extentToCount : Int → PacketCount := fun _ => 0
  fd : Nat → PacketCount := fun _ => 0
  extentAssumedDrops : PacketCount := 0
  rdAssumedDrops : PacketCount := 0

/-- `struct reorderMissingPacket`. -/
structure MissingPacket where
  seq : Seqno
  observed : Bool
  refIndex : PacketCount
  extent : Int
  deriving DecidableEq, Repr

/-- `struct rdState`. `state` is `0` while processing window items, `1` while looking for the
next arrival. -/
structure RdState where
  state : Nat := 0
  ri : Seqno := 0
  windowInitialized : Bool := false
  window : List Seqno := []
  buffer : List Seqno := []
  deriving DecidableEq, Repr

/-- `struct reorderState`. -/
structure ReorderState where
  initialized : Bool := false
  numArrivals : UInt64 := 0
  nextExp : Seqno := 0
  missingPackets : List MissingPacket := []
  rd : RdState := {}
  deriving DecidableEq, Repr

/-- Which estimators `reorderdata_init` enabled. -/
structure ReorderConfig where
  extentEnabled : Bool
  densityEnabled : Bool
  deriving DecidableEq, Repr

/-! ### Arrivals -/

/-- `reorderdata_arrival`: the epoch's reorder ranges, oldest first. -/
def reorderdataArrival (ranges : List SeqnoRange) (seqno : Seqno) : List SeqnoRange :=
  match ranges.getLast? with
  | some r =>
    if r.high = seqno - 1 ∧ seqno ≠ 0 then ranges.dropLast ++ [{ r with high := seqno }]
    else ranges ++ [SeqnoRange.single seqno]
  | none => [SeqnoRange.single seqno]

/-- The reorder ranges of one stream in one epoch after the given arrivals. -/
def reorderAggregate (arrivals : List Seqno) : List SeqnoRange :=
  arrivals.foldl reorderdataArrival []

/-! ### C loops -/

/-- `for (SEQNO i = lo; i <= hi; i++) body`, for at most `fuel` iterations: `none` when the
fuel runs out, or `body` fails, before the guard fails. -/
def forLe {σ : Type} (body : Seqno → σ → Option σ) : Nat → Seqno → Seqno → σ → Option σ
  | 0, _, _, _ => none
  | fuel + 1, i, hi, s => if i ≤ hi then (body i s).bind (forLe body fuel (i + 1) hi) else some s

/-- More iterations than any terminating loop over a 32-bit counter runs. -/
def loopFuel : Nat := 2 ^ 32 + 1

/-- A loop up to `0xFFFFFFFF` never exits: every counter value passes the guard. -/
theorem forLe_max {σ : Type} (body : Seqno → σ → Option σ) :
    ∀ (fuel : Nat) (i : Seqno) (s : σ), forLe body fuel i 0xFFFFFFFF s = none
  | 0, _, _ => rfl
  | fuel + 1, i, s => by
    rw [forLe, if_pos (le_max_seqno i)]
    cases body i s with
    | none => rfl
    | some s' => exact forLe_max body fuel (i + 1) s'

/-- What every iteration of a loop keeps, the loop keeps when it exits. -/
theorem forLe_invariant {σ : Type} {body : Seqno → σ → Option σ} (P : σ → Prop)
    (hb : ∀ i s s', body i s = some s' → P s → P s') :
    ∀ (fuel : Nat) (i hi : Seqno) (s s' : σ), forLe body fuel i hi s = some s' → P s → P s'
  | 0, _, _, _, _, h, _ => absurd h (by simp [forLe])
  | fuel + 1, i, hi, s, s', h, hs => by
    rw [forLe] at h
    split_ifs at h
    · obtain ⟨s₁, h₁, h⟩ := Option.bind_eq_some.1 h
      exact forLe_invariant P hb fuel (i + 1) hi s₁ s' h (hb i s s₁ h₁ hs)
    · cases h
      exact hs

/-- `h[i]++` on a histogram. -/
def bump {ι : Type} [DecidableEq ι] (h : ι → PacketCount) (i : ι) : ι → PacketCount :=
  Function.update h i (h i + 1)

/-! ### Reorder density -/

/-- `rd_maybe_add_seq_to_window`, during the bootstrap. -/
def rdMaybeAddSeqToWindow (st : RdState) (i : Seqno) : RdState :=
  if i ∈ st.window then st else { st with window := st.window ++ [i] }

/-- `rd_maybe_add_new_arrival_to_window`. -/
def rdMaybeAddNewArrivalToWindow (st : RdState) (seq : Seqno) : RdState :=
  if st.state = 0 then st
  else if seq ≥ st.ri ∧ seq ∉ st.window ∧ seq ∉ st.buffer then
    { st with window := st.window ++ [seq], state := 0 }
  else st

/-- `rd_record_distance`. -/
def rdRecordDistance (dr : ReorderDataR) (d : Int) : ReorderDataR :=
  if d < -reorderDt ∨ d > reorderDt then dr else { dr with fd := bump dr.fd (d + reorderDt).toNat }

/-- `rd_window_min`. -/
def rdWindowMin (st : RdState) : Seqno :=
  st.window.foldl (fun m e => if e < m then e else m) 0xFFFFFFFF

/-- `rd_buffer_min`. -/
def rdBufferMin (st : RdState) : Seqno := st.buffer.headD 0xFFFFFFFF

/-- `rd_advance_RI`. -/
def rdAdvanceRI (st : RdState) : RdState :=
  let m := if rdWindowMin st ≤ rdBufferMin st then rdWindowMin st else rdBufferMin st
  if st.ri < m then { st with ri := m } else { st with ri := st.ri + 1 }

/-- `rd_process_next_packet`; `none` when it pops an empty window. `D = state->RI - e->seq` is
the difference modulo `2 ^ 32` read as an `int` (two's complement, `toInt32`). At
`RI - e->seq = 0x80000000`, `D` is `INT_MIN` and `AD = -D` overflows, which C leaves undefined:
the model takes `AD = 2 ^ 31`, beyond `REORDER_DT`, where a build that wraps `-D` would get
`AD = INT_MIN` and record the distance `INT_MIN`. -/
def rdProcessNextPacket (dr : ReorderDataR) (st : RdState) : Option (ReorderDataR × RdState) :=
  if st.ri ∈ st.window ∨ st.ri ∈ st.buffer then
    match st.window with
    | [] => none
    | e :: window =>
      let d := toInt32 (st.ri - e)
      if d.natAbs ≤ reorderDt then
        let buffer := st.buffer.erase st.ri
        let buffer := if d < 0 then buffer.orderedInsert (· ≤ ·) e else buffer
        some (rdRecordDistance dr d, { st with window, buffer, ri := st.ri + 1, state := 1 })
      else some (dr, { st with window, state := 1 })
  else some (dr, { rdAdvanceRI st with state := 0 })

/-- One iteration of the density loop of `reorderdata_a2r`, for the arrival `i`. -/
def densityStep (i : Seqno) (s : ReorderDataR × RdState) : Option (ReorderDataR × RdState) :=
  let st :=
    if s.2.windowInitialized then s.2
    else
      let st := rdMaybeAddSeqToWindow s.2 i
      if st.window.length = reorderDt + 1 then { st with ri := 0, windowInitialized := true }
      else st
  if ¬st.windowInitialized then some (s.1, st)
  else
    let processedThis := st.state = 1
    let st := if processedThis then rdMaybeAddNewArrivalToWindow st i else st
    let res := if st.state = 0 then rdProcessNextPacket s.1 st else some (s.1, st)
    res.map fun r =>
      if r.2.state = 1 ∧ ¬processedThis then (r.1, rdMaybeAddNewArrivalToWindow r.2 i) else r

/-! ### Reorder extent -/

/-- `reorderdata_record_missing_packet`: an `rbtree_insert` of a fresh record. The code of
`rbtree_insert` is not in the sources: it is modelled as an insert into the list sorted by key
(`mp_compare`) that keeps the records already there, those with the same key included, so that
a sequence number recorded twice has two records. A tree that replaced or refused a record with
an equal key would keep one. -/
def reorderdataRecordMissingPacket (st : ReorderState) (seq : Seqno) (refIndex : PacketCount) :
    ReorderState :=
  let mp : MissingPacket := { seq, observed := false, refIndex, extent := -1 }
  { st with missingPackets := st.missingPackets.orderedInsert (fun a b => a.seq ≤ b.seq) mp }

/-- The loop `for (i = nextExp; i != r->low; i++)` recording `n` missing packets from `i`. -/
def recordMissingRange (refIndex : PacketCount) : ReorderState → Seqno → Nat → ReorderState
  | st, _, 0 => st
  | st, i, n + 1 =>
    recordMissingRange refIndex (reorderdataRecordMissingPacket st i refIndex) (i + 1) n

/-- Mark the first record with key `seq` as observed. -/
def markObserved (seq : Seqno) : List MissingPacket → List MissingPacket
  | [] => []
  | mp :: mps => if mp.seq = seq then { mp with observed := true } :: mps
    else mp :: markObserved seq mps

/-- `reorderdata_resolve_missing_packet`, after `numArrivals` was incremented. -/
def reorderdataResolveMissingPacket (dr : ReorderDataR) (st : ReorderState) (seq : Seqno) :
    ReorderDataR × ReorderState :=
  match st.missingPackets.find? (·.seq = seq) with
  | none => (dr, st)
  | some mp =>
    if mp.observed then (dr, { st with numArrivals := st.numArrivals - 1 })
    else
      let extent := toInt32 (st.numArrivals.toUInt32 - mp.refIndex)
      let extent := if extent > reorderMaxExtent then (reorderMaxExtent : Int) else extent
      ({ dr with extentToCount := bump dr.extentToCount extent },
       { st with missingPackets := markObserved seq st.missingPackets })

/-- `reorderdata_prune_missing_packets`. -/
def reorderdataPruneMissingPackets (dr : ReorderDataR) (st : ReorderState) :
    ReorderDataR × ReorderState :=
  let stale : MissingPacket → Bool := fun mp =>
    seqcmp mp.seq st.nextExp < 0 ∧ (modularDistance mp.seq st.nextExp).toNat > reorderMaxHistory
  ({ dr with extentAssumedDrops := dr.extentAssumedDrops +
      (st.missingPackets.countP fun mp => stale mp ∧ ¬mp.observed).toUInt32 },
   { st with missingPackets := st.missingPackets.filter fun mp => ¬stale mp })

/-- Extent case 2, one packet `i` of a range that starts behind `nextExp`. -/
def extentReorderedStep (i : Seqno) (s : ReorderDataR × ReorderState) :
    ReorderDataR × ReorderState :=
  let st := { s.2 with numArrivals := s.2.numArrivals + 1 }
  if seqcmp i st.nextExp ≥ 0 then
    ({ s.1 with extentToCount := bump s.1.extentToCount 0 }, { st with nextExp := i + 1 })
  else reorderdataResolveMissingPacket s.1 st i

/-- The extent part of `reorderdata_a2r` for one range. -/
def extentRange (r : SeqnoRange) (s : ReorderDataR × ReorderState) :
    Option (ReorderDataR × ReorderState) :=
  let rangeSize : PacketCount := r.high - r.low + 1
  let st := s.2
  if seqcmp r.low st.nextExp ≥ 0 then
    let st :=
      if seqcmp r.low st.nextExp > 0 then
        recordMissingRange (st.numArrivals + 1).toUInt32 st st.nextExp (r.low - st.nextExp).toNat
      else st
    let count := Function.update s.1.extentToCount 0 (s.1.extentToCount 0 + rangeSize)
    some ({ s.1 with extentToCount := count },
          { st with nextExp := r.high + 1, numArrivals := st.numArrivals + rangeSize.toUInt64 })
  else forLe (fun i s => some (extentReorderedStep i s)) loopFuel r.low r.high s

/-- The special case of the first range a stream ever has. -/
def initReorderState (cfg : ReorderConfig) (st : ReorderState) (r : SeqnoRange) : ReorderState :=
  let st := if cfg.extentEnabled then { st with nextExp := r.low, missingPackets := [] } else st
  let st := if cfg.densityEnabled then { st with rd := {} } else st
  { st with initialized := true }

/-- The body of the range loop of `reorderdata_a2r`. -/
def reorderRange (cfg : ReorderConfig) (s : ReorderDataR × ReorderState) (r : SeqnoRange) :
    Option (ReorderDataR × ReorderState) :=
  let st := if s.2.initialized then s.2 else initReorderState cfg s.2 r
  let density :=
    if cfg.densityEnabled then
      (forLe densityStep loopFuel r.low r.high (s.1, st.rd)).map fun d => (d.1, { st with rd := d.2 })
    else some (s.1, st)
  density.bind fun s => if cfg.extentEnabled then extentRange r s else some s

/-- `reorderdata_a2r` on a fresh `struct reorderDataR`: `none` when it does not return. -/
def reorderdataA2r (cfg : ReorderConfig) (ranges : List SeqnoRange) (st : ReorderState) :
    Option (ReorderDataR × ReorderState) :=
  (ranges.foldlM (reorderRange cfg) ({}, st)).map fun s =>
    if cfg.extentEnabled then reorderdataPruneMissingPackets s.1 s.2 else s

/-- The reporter's `reorderdata_a2r` calls for one stream over the epochs (the stream's
arrivals in each, in order), skipping the epochs where it has none. -/
def reorderRun (cfg : ReorderConfig) : ReorderState → List (List Seqno) →
    Option (List ReorderDataR × ReorderState)
  | st, [] => some ([], st)
  | st, arrivals :: rest =>
    if arrivals = [] then reorderRun cfg st rest
    else
      (reorderdataA2r cfg (reorderAggregate arrivals) st).bind fun s =>
        (reorderRun cfg s.2 rest).map fun r => (s.1 :: r.1, r.2)

/-! ### Ranges that end at `0xFFFFFFFF` -/

/-- `reorderdata_arrival` never extends a range past `0xFFFFFFFF`, since `0` starts a range. -/
theorem reorderdataArrival_keeps_max {ranges : List SeqnoRange} (seqno : Seqno)
    (h : ∃ r ∈ ranges, r.high = 0xFFFFFFFF) :
    ∃ r ∈ reorderdataArrival ranges seqno, r.high = 0xFFFFFFFF := by
  obtain ⟨r, hr, hmax⟩ := h
  unfold reorderdataArrival
  split
  · rename_i last hlast
    obtain ⟨ys, rfl⟩ := List.getLast?_eq_some_iff.1 hlast
    split_ifs with hext
    · rw [List.dropLast_concat]
      rcases List.mem_append.1 hr with hr | hr
      · exact ⟨r, List.mem_append_left _ hr, hmax⟩
      · rw [List.mem_singleton] at hr
        subst hr
        exact absurd (eq_zero_of_sub_one_eq_max (hext.1 ▸ hmax)) hext.2
    · exact ⟨r, List.mem_append_left _ hr, hmax⟩
  · simp_all

/-- The arrival `0xFFFFFFFF` leaves a range ending there. -/
theorem reorderdataArrival_max (ranges : List SeqnoRange) :
    ∃ r ∈ reorderdataArrival ranges 0xFFFFFFFF, r.high = 0xFFFFFFFF := by
  unfold reorderdataArrival
  split
  · split_ifs
    · exact ⟨_, List.mem_append_right _ (List.mem_singleton_self _), rfl⟩
    · exact ⟨_, List.mem_append_right _ (List.mem_singleton_self _), rfl⟩
  · exact ⟨_, List.mem_singleton_self _, rfl⟩

/-- An epoch in which the stream received `0xFFFFFFFF` has a reorder range ending there. -/
theorem reorderAggregate_max {arrivals : List Seqno} (h : 0xFFFFFFFF ∈ arrivals) :
    ∃ r ∈ reorderAggregate arrivals, r.high = 0xFFFFFFFF := by
  suffices ∀ (init : List SeqnoRange), ((∃ r ∈ init, r.high = 0xFFFFFFFF) ∨ 0xFFFFFFFF ∈ arrivals) →
      ∃ r ∈ arrivals.foldl reorderdataArrival init, r.high = 0xFFFFFFFF from this [] (.inr h)
  clear h
  induction arrivals with
  | nil => intro init h; simpa using h
  | cons a as ih =>
    intro init h
    refine ih _ ?_
    rcases h with h | h
    · exact .inl (reorderdataArrival_keeps_max a h)
    · rcases List.mem_cons.1 h with rfl | h
      · exact .inl (reorderdataArrival_max init)
      · exact .inr h

theorem foldlM_eq_none_of_mem {α β : Type} {f : β → α → Option β} {a : α}
    (hf : ∀ b, f b a = none) : ∀ {l : List α} (init : β), a ∈ l → l.foldlM f init = none
  | x :: xs, init, h => by
    rw [List.foldlM_cons]
    rcases List.mem_cons.1 h with rfl | h
    · rw [hf]; rfl
    · cases f init x with
      | none => rfl
      | some b => exact foldlM_eq_none_of_mem hf b h

/-- What every call of `f` keeps, a fold of `f` in `Option` keeps when it returns. -/
theorem foldlM_invariant {α β : Type} {f : β → α → Option β} (P : β → Prop)
    (hf : ∀ b a b', f b a = some b' → P b → P b') :
    ∀ (l : List α) (b b' : β), l.foldlM f b = some b' → P b → P b'
  | [], b, b', h, hb => by
    cases h
    exact hb
  | a :: l, b, b', h, hb => by
    rw [List.foldlM_cons] at h
    obtain ⟨b₁, h₁, h⟩ := Option.bind_eq_some.1 h
    exact foldlM_invariant P hf l b₁ b' h (hf b a b₁ h₁ hb)

section
variable {cfg : ReorderConfig}

/-- With reorder density enabled, `reorderdata_a2r` does not return on a range list holding a
range that ends at `0xFFFFFFFF`. -/
theorem reorderdataA2r_eq_none (hd : cfg.densityEnabled = true) {ranges : List SeqnoRange}
    {r : SeqnoRange} (hr : r ∈ ranges) (hmax : r.high = 0xFFFFFFFF) (st : ReorderState) :
    reorderdataA2r cfg ranges st = none := by
  have : ∀ s, reorderRange cfg s r = none := by
    intro s
    simp [reorderRange, hd, hmax, forLe_max]
  simp [reorderdataA2r, foldlM_eq_none_of_mem this _ hr]

/-- With reorder density enabled, the reporter hangs on the first epoch in which a stream
received `0xFFFFFFFF`. -/
theorem reorderRun_eq_none (hd : cfg.densityEnabled = true) {arrivals : List Seqno}
    (hmax : 0xFFFFFFFF ∈ arrivals) :
    ∀ {epochs : List (List Seqno)} (st : ReorderState), arrivals ∈ epochs →
      reorderRun cfg st epochs = none
  | a :: rest, st, he => by
    have ha : arrivals ≠ [] := List.ne_nil_of_mem hmax
    rw [reorderRun]
    rcases List.mem_cons.1 he with rfl | he
    · obtain ⟨r, hr, hr'⟩ := reorderAggregate_max hmax
      rw [if_neg ha, reorderdataA2r_eq_none hd hr hr']
      rfl
    · split_ifs
      · exact reorderRun_eq_none hd hmax st he
      · cases reorderdataA2r cfg (reorderAggregate a) st with
        | none => rfl
        | some s => simp [reorderRun_eq_none hd hmax s.2 he]

end

/-- Reorder density on, one epoch whose only arrival is `0xFFFFFFFF`: the loop
`for (SEQNO i = r->low; i <= r->high; i++)` never exits. -/
theorem reorderRun_max_diverges : reorderRun ⟨false, true⟩ {} [[0xFFFFFFFF]] = none :=
  reorderRun_eq_none rfl (List.mem_singleton_self _) {} (List.mem_singleton_self _)

/-- An in-order stream with one gap, reorder density on: the arrival `12` is processed while
`RI = 2` is missing, `rd_advance_RI` moves `RI` on, and `12` is neither put into the window nor
counted. Eleven arrivals, nine left in the window, one count in `FD[REORDER_DT]`. -/
theorem reorderRun_density_drops_arrival :
    (reorderRun ⟨false, true⟩ {} [[1, 3, 4, 5, 6, 7, 8, 9, 10, 11, 12]]).map
      (fun r => (r.1.map fun d => d.fd reorderDt, r.2.rd.window.length)) = some ([1], 9) := by
  decide

end Pd3Estimator
