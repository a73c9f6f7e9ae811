import Pd3Estimator.Loss
import Pd3Estimator.Reorder
import Mathlib.Data.UInt

/-!
# The reporter's slots: accumulation, roll-up and callbacks

`reporter_thread` turns each map the aggregator retired into one `struct reporterData` per
stream (`packetdata_a2r`, `lossdata_a2r`, `reorderdata_a2r`) and adds it with `accumulate_time`
to the stream's item in every tracker slot. When a slot's schedule is due, its stream items are
rolled up into flow items with `accumulate_flow`, every flow item that counted packets gives a
callback, and the slot is emptied.

* `packetdataAccumulate`, `lossdataAccumulate` with its `_time` and `_flows` forms,
  `reorderdataAccumulate`, `accumulateTime`, `accumulateFlow`;
* a slot is the item list of its `struct hashMap`, newest first; `hashmapForce` finds the item
  of a key or puts a zeroed one at the head, as `add_hashmapitem` does;
* `consolidate`, `buildCallbackResults`, `reportSlot`, `reporterEpoch`, `reporterRun`.

Main results:

* `reportSlot_additive`: a callback of a due slot is built from one flow item, and every
  quantity that both accumulations add is, in that item, the sum over the flow's stream items;
* `reporterEpoch_report_sums`: **over every run, the packet count, the extent bins and drops
  and the density bins of every callback are the sums over the streams of the flow and the
  maps since the slot was last due**;
* `reporterRun_loss_unit_skipped`: the loss counts are not. `lossdata_accumulate` tests
  `received + dropped != 0` in 32 bits, and a unit whose sum wraps to 0 is left out.
-/

namespace Pd3Estimator

/-! ### Reporter data and its accumulation -/

/-- `TIMESTAMP`. -/
abbrev Timestamp := UInt64

/-- `struct packetData`. -/
structure PacketData where
  packetCount : PacketCount := 0
  earliest : Timestamp := 0
  latest : Timestamp := 0
  minSeq : Seqno := 0
  maxSeq : Seqno := 0
  deriving DecidableEq, Repr

/-- `packetdata_arrival`. -/
def packetdataArrival (pd : PacketData) (ts : Timestamp) (seq : Seqno) : PacketData where
  earliest := if pd.packetCount = 0 ∨ ts < pd.earliest then ts else pd.earliest
  latest := if pd.packetCount = 0 ∨ ts > pd.latest then ts else pd.latest
  minSeq := if pd.packetCount = 0 ∨ seqcmp seq pd.minSeq < 0 then seq else pd.minSeq
  maxSeq := if pd.packetCount = 0 ∨ seqcmp seq pd.maxSeq > 0 then seq else pd.maxSeq
  packetCount := pd.packetCount + 1

/-- The packet data of one stream in one epoch after the arrivals `(timestamp, seqno)`, from
the zeroed item; `packetdata_a2r` copies it. -/
def packetAggregate (arrivals : List (Timestamp × Seqno)) : PacketData :=
  arrivals.foldl (fun pd a => packetdataArrival pd a.1 a.2) {}

/-- `packetdata_accumulate`. -/
def packetdataAccumulate (accum unit : PacketData) : PacketData where
  minSeq :=
    if accum.packetCount = 0 ∨ seqcmp unit.minSeq accum.minSeq < 0 then unit.minSeq
    else accum.minSeq
  maxSeq :=
    if accum.packetCount = 0 ∨ seqcmp unit.maxSeq accum.maxSeq > 0 then unit.maxSeq
    else accum.maxSeq
  packetCount := accum.packetCount + unit.packetCount
  earliest := if accum.earliest = 0 then unit.earliest else min accum.earliest unit.earliest
  latest := max accum.latest unit.latest

/-- `lossdata_accumulate`: the tallies add when both sides have `received + dropped != 0`, in
32 bits; a unit is copied over an accumulator without them, and is dropped without them. -/
def lossdataAccumulate (accum unit : LossDataR) : LossDataR :=
  if accum.received + accum.dropped ≠ 0 ∧ unit.received + unit.dropped ≠ 0 then
    { accum with
      received := accum.received + unit.received
      dropped := accum.dropped + unit.dropped
      consecutiveDrops := accum.consecutiveDrops + unit.consecutiveDrops
      gapTotal := accum.gapTotal + unit.gapTotal
      gapCount := accum.gapCount + unit.gapCount
      gapMin := min accum.gapMin unit.gapMin
      gapMax := max accum.gapMax unit.gapMax }
  else if unit.received + unit.dropped ≠ 0 then unit
  else accum

/-- `lossdata_accumulate_time`. -/
def lossdataAccumulateTime (accum unit : LossDataR) : LossDataR :=
  let accum := lossdataAccumulate accum unit
  { accum with flowstate := flowstateConcatenate accum.flowstate unit.flowstate }

/-- `lossdata_accumulate_flows`. -/
def lossdataAccumulateFlows (accum unit : LossDataR) : LossDataR :=
  if flowstateError unit.flowstate then { accum with badflows := accum.badflows + 1 }
  else lossdataAccumulate accum unit

/-- `REORDER_WINDOW_SIZE`. -/
def reorderWindowSize : Nat := reorderDt * 2 + 1

/-- `reorderdata_accumulate`: extent bins `0 .. REORDER_MAX_EXTENT - 1` and the density bins,
each only when its estimator is on. -/
def reorderdataAccumulate (cfg : ReorderConfig) (accum unit : ReorderDataR) : ReorderDataR :=
  let accum :=
    if cfg.extentEnabled then
      { accum with
        extentToCount := fun i =>
          if 0 ≤ i ∧ i < reorderMaxExtent then accum.extentToCount i + unit.extentToCount i
          else accum.extentToCount i
        extentAssumedDrops := accum.extentAssumedDrops + unit.extentAssumedDrops }
    else accum
  if cfg.densityEnabled then
    { accum with
      fd := fun i => if i < reorderWindowSize then accum.fd i + unit.fd i else accum.fd i
      rdAssumedDrops := accum.rdAssumedDrops + unit.rdAssumedDrops }
  else accum

/-- `reorderdata_accumulate_time`. -/
def reorderdataAccumulateTime (cfg : ReorderConfig) (accum unit : ReorderDataR) : ReorderDataR :=
  reorderdataAccumulate cfg accum unit

/-- `reorderdata_accumulate_flows`. -/
def reorderdataAccumulateFlows (cfg : ReorderConfig) (accum unit : ReorderDataR) : ReorderDataR :=
  reorderdataAccumulate cfg accum unit

/-- Which estimators the library runs (`loss_enabled` and the two reorder flags), and whether a
callback is registered (`callbacks.cb`). -/
structure EstimatorConfig where
  lossEnabled : Bool
  reorder : ReorderConfig
  callbackSet : Bool
  deriving DecidableEq, Repr

/-- `struct reporterData`. -/
structure ReporterData where
  received : PacketData := {}
  loss : LossDataR := {}
  reorder : ReorderDataR := {}

/-- `accumulate_time`. -/
def accumulateTime (cfg : EstimatorConfig) (accum unit : ReporterData) : ReporterData where
  received := packetdataAccumulate accum.received unit.received
  loss := if cfg.lossEnabled then lossdataAccumulateTime accum.loss unit.loss else accum.loss
  reorder :=
    if cfg.reorder.extentEnabled ∨ cfg.reorder.densityEnabled then
      reorderdataAccumulateTime cfg.reorder accum.reorder unit.reorder
    else accum.reorder

/-- `accumulate_flow`. -/
def accumulateFlow (cfg : EstimatorConfig) (accum unit : ReporterData) : ReporterData where
  received := packetdataAccumulate accum.received unit.received
  loss := if cfg.lossEnabled then lossdataAccumulateFlows accum.loss unit.loss else accum.loss
  reorder :=
    if cfg.reorder.extentEnabled ∨ cfg.reorder.densityEnabled then
      reorderdataAccumulateFlows cfg.reorder accum.reorder unit.reorder
    else accum.reorder

/-! ### Slots -/

/-- `stream_tuple`: the two bytes of `flow_key` and the `stream_id`. -/
structure StreamTuple where
  flowKey : UInt8 × UInt8
  streamId : UInt8
  deriving DecidableEq, Repr

/-- `struct hashMapKey` of the reporter's maps. -/
inductive HashMapKey
  | stream (s : StreamTuple)
  | flow (s : StreamTuple)
  deriving DecidableEq, Repr

/-- `set_flowtuple`: a stream's flow is its tuple with `stream_id` 0. -/
def setFlowtuple (s : StreamTuple) : HashMapKey := .flow { s with streamId := 0 }

/-- The items of a reporter `struct hashMap`, newest first. -/
abbrev HashMapItems := List (HashMapKey × ReporterData)

/-- Update the data of the first item with key `k`. -/
def updateFirst (k : HashMapKey) (f : ReporterData → ReporterData) : HashMapItems → HashMapItems
  | [] => []
  | it :: its => if it.1 = k then (it.1, f it.2) :: its else it :: updateFirst k f its

/-- `hashmap_force(hm, k)` followed by an update `f` of the item's `rep_data`: the item with key
`k`, or a zeroed one that `add_hashmapitem` puts at the head. -/
def hashmapForce (items : HashMapItems) (k : HashMapKey) (f : ReporterData → ReporterData) :
    HashMapItems :=
  if items.any (·.1 = k) then updateFirst k f items else (k, f {}) :: items

/-- The tracker loop for one item of the map being processed: `accumulate_time` into the
stream's item of every slot. -/
def accumulateItem (cfg : EstimatorConfig) (trackers : List HashMapItems)
    (u : StreamTuple × ReporterData) : List HashMapItems :=
  trackers.map fun t => hashmapForce t (.stream u.1) (accumulateTime cfg · u.2)

/-- One iteration of the roll-up loop: a stream item is added to its flow's item with
`accumulate_flow`. -/
def rollUpItem (cfg : EstimatorConfig) (acc : HashMapItems) (it : HashMapKey × ReporterData) :
    HashMapItems :=
  match it.1 with
  | .stream s => hashmapForce acc (setFlowtuple s) (accumulateFlow cfg · it.2)
  | .flow _ => acc

/-- The roll-up of a due slot, over its items from the head. Flow items are put before the
head, so the loop never meets them, and stream items are never written, so the loop reads them
as they were. -/
def consolidate (cfg : EstimatorConfig) (items : HashMapItems) : HashMapItems :=
  items.foldl (rollUpItem cfg) items

/-- The fields of `pd3_estimator_results` that `build_callback_results` sets from a flow's
data. The loss counts are `double`s holding 32-bit values; the loss ratio and `autocorr`
computed from them, and `duration`, are left out. -/
structure Pd3EstimatorResults where
  flowKey : UInt8 × UInt8
  earliest : Timestamp
  latest : Timestamp
  minSeq : Seqno
  maxSeq : Seqno
  packetCount : PacketCount
  loss : Bool
  packetsReceived : PacketCount
  packetsDropped : PacketCount
  consecutiveDrops : PacketCount
  reorderExtent : Bool
  extentNumBins : Nat
  extentBins : Nat → PacketCount
  extentAssumedDrops : PacketCount
  reorderDensity : Bool
  densityNumBins : Nat
  densityBins : Nat → PacketCount × Int

/-- `build_callback_results` for the flow item of `s`. -/
def buildCallbackResults (cfg : EstimatorConfig) (s : StreamTuple) (rd : ReporterData) :
    Pd3EstimatorResults :=
  let ldr := rd.loss
  let hasLoss := cfg.lossEnabled ∧ ldr.received > 0
  let rdr := rd.reorder
  let extentBins := (List.range reorderMaxExtent).any fun i => rdr.extentToCount i > 0
  let densityBins := (List.range reorderWindowSize).any fun i => rdr.fd i > 0
  { flowKey := s.flowKey
    earliest := rd.received.earliest
    latest := rd.received.latest
    minSeq := rd.received.minSeq
    maxSeq := rd.received.maxSeq
    packetCount := rd.received.packetCount
    loss := hasLoss
    packetsReceived := if hasLoss then ldr.received else 0
    packetsDropped := if hasLoss then ldr.dropped else 0
    consecutiveDrops := if hasLoss then ldr.consecutiveDrops else 0
    reorderExtent := cfg.reorder.extentEnabled ∧ (extentBins ∨ rdr.extentAssumedDrops > 0)
    extentNumBins := if cfg.reorder.extentEnabled ∧ extentBins then reorderMaxExtent else 0
    extentBins := fun i =>
      if cfg.reorder.extentEnabled ∧ i < reorderMaxExtent then rdr.extentToCount i else 0
    extentAssumedDrops := if cfg.reorder.extentEnabled then rdr.extentAssumedDrops else 0
    reorderDensity := cfg.reorder.densityEnabled ∧ (densityBins ∨ rdr.rdAssumedDrops > 0)
    densityNumBins := if cfg.reorder.densityEnabled ∧ densityBins then reorderWindowSize else 0
    densityBins := fun i =>
      if cfg.reorder.densityEnabled ∧ i < reorderWindowSize then (rdr.fd i, i - reorderDt)
      else (0, 0) }

/-- The report of a due slot whose schedule item has the outlet letters `outlets`: the roll-up,
then, when `strchr(outlets, 'c')` finds `c` and a callback is registered, one callback per flow
item that counted packets. -/
def reportSlot (cfg : EstimatorConfig) (outlets : List Char) (items : HashMapItems) :
    List Pd3EstimatorResults :=
  if 'c' ∈ outlets ∧ cfg.callbackSet then
    (consolidate cfg items).filterMap fun it =>
      match it.1 with
      | .flow s => if it.2.received.packetCount = 0 then none else some (buildCallbackResults cfg s it.2)
      | .stream _ => none
  else []

/-- One processed map: `units` are its items with the reporter data a2r made for each, in the
map's item order, and `due` says which slots' schedules have fired (`schedule_outlets(i)` is not
`NULL`). A due slot reports and is emptied by `zeroout_hashmap`. Returns the slots and the
callbacks, each with its slot. -/
def reporterEpoch (cfg : EstimatorConfig) (outlets : List (List Char)) (trackers : List HashMapItems)
    (units : List (StreamTuple × ReporterData)) (due : List Bool) :
    List HashMapItems × List (Nat × Pd3EstimatorResults) :=
  let trackers := units.foldl (accumulateItem cfg) trackers
  let reports := trackers.enum.map fun (i, t) =>
    if due.getD i false then (([] : HashMapItems), (reportSlot cfg (outlets.getD i []) t).map (i, ·))
    else (t, [])
  (reports.map (·.1), (reports.map (·.2)).flatten)

/-- The reporter over the processed maps, each with the slots due after it. -/
def reporterRun (cfg : EstimatorConfig) (outlets : List (List Char)) :
    List HashMapItems → List (List (StreamTuple × ReporterData) × List Bool) →
      List HashMapItems × List (Nat × Pd3EstimatorResults)
  | trackers, [] => (trackers, [])
  | trackers, (units, due) :: rest =>
    let e := reporterEpoch cfg outlets trackers units due
    let r := reporterRun cfg outlets e.1 rest
    (r.1, e.2 ++ r.2)

/-! ### A slot's items -/

/-- The sum of `φ` over the items whose key satisfies `p`. -/
def keySum (φ : ReporterData → PacketCount) (p : HashMapKey → Bool) (items : HashMapItems) :
    PacketCount :=
  ((items.filter fun it => p it.1).map fun it => φ it.2).sum

/-- The stream keys whose flow is `f`. -/
def streamOf (f : HashMapKey) : HashMapKey → Bool
  | .stream s => setFlowtuple s = f
  | .flow _ => false

/-- A slot's side of the tracker loop over a map's items. -/
def accumulateUnits (cfg : EstimatorConfig) (units : List (StreamTuple × ReporterData))
    (t : HashMapItems) : HashMapItems :=
  units.foldl (fun t u => hashmapForce t (.stream u.1) (accumulateTime cfg · u.2)) t

/-- A slot between two reports: one item per key, all of them stream items. -/
structure SlotInv (t : HashMapItems) : Prop where
  nodup : (t.map (·.1)).Nodup
  streams : ∀ it ∈ t, ∃ s, it.1 = .stream s

section Items
variable {φ : ReporterData → PacketCount} {p : HashMapKey → Bool} {k : HashMapKey}
  {f : ReporterData → ReporterData}

theorem keySum_cons (it : HashMapKey × ReporterData) (items : HashMapItems) :
    keySum φ p (it :: items) = (if p it.1 then φ it.2 else 0) + keySum φ p items := by
  unfold keySum
  rw [List.filter_cons]
  split_ifs <;> simp

theorem keySum_eq_zero {items : HashMapItems} (h : ∀ it ∈ items, p it.1 = false) :
    keySum φ p items = 0 := by
  rw [keySum, List.filter_eq_nil_iff.2 fun it hit => by simp [h it hit]]
  rfl

/-- Updating the item of `k` adds `c` to the sums that count `k`. -/
theorem keySum_updateFirst {c : PacketCount} (hc : ∀ x, φ (f x) = φ x + c) :
    ∀ items : HashMapItems, items.any (·.1 = k) →
      keySum φ p (updateFirst k f items) = keySum φ p items + if p k then c else 0
  | [], h => absurd h (by simp)
  | it :: its, h => by
    by_cases hk : it.1 = k
    · rw [updateFirst, if_pos hk, keySum_cons, keySum_cons, hc]
      dsimp only
      rw [hk]
      split_ifs
      · exact add_right_comm _ _ _
      · rw [add_zero]
    · have h : its.any (·.1 = k) := by simpa [hk] using h
      rw [updateFirst, if_neg hk, keySum_cons, keySum_cons, keySum_updateFirst hc its h, add_assoc]

/-- **`hashmap_force` and an update that adds `c`** add `c` to the sums that count `k`, whether
the item was there or is new. -/
theorem keySum_hashmapForce {c : PacketCount} (hz : φ {} = 0) (hc : ∀ x, φ (f x) = φ x + c)
    (items : HashMapItems) :
    keySum φ p (hashmapForce items k f) = keySum φ p items + if p k then c else 0 := by
  by_cases h : items.any (·.1 = k)
  · rw [hashmapForce, if_pos h]
    exact keySum_updateFirst hc items h
  · rw [hashmapForce, if_neg h, keySum_cons, hc, hz, zero_add, add_comm]

theorem mem_updateFirst {it : HashMapKey × ReporterData} :
    ∀ {items : HashMapItems}, it ∈ updateFirst k f items → it.1 = k ∨ it ∈ items
  | [], h => by simp [updateFirst] at h
  | it' :: its, h => by
    rw [updateFirst] at h
    split_ifs at h with hk
    · rcases List.mem_cons.1 h with rfl | h
      · exact .inl hk
      · exact .inr (List.mem_cons_of_mem _ h)
    · rcases List.mem_cons.1 h with rfl | h
      · exact .inr (List.mem_cons_self _ _)
      · exact (mem_updateFirst h).imp_right (List.mem_cons_of_mem _)

theorem mem_hashmapForce {items : HashMapItems} {it : HashMapKey × ReporterData}
    (h : it ∈ hashmapForce items k f) : it.1 = k ∨ it ∈ items := by
  unfold hashmapForce at h
  split_ifs at h
  · exact mem_updateFirst h
  · rcases List.mem_cons.1 h with rfl | h
    · exact .inl rfl
    · exact .inr h

theorem keys_updateFirst :
    ∀ items : HashMapItems, (updateFirst k f items).map (·.1) = items.map (·.1)
  | [] => rfl
  | it :: its => by
    rw [updateFirst]
    split_ifs
    · rfl
    · rw [List.map_cons, List.map_cons, keys_updateFirst its]

/-- `hashmap_force` keeps one item per key. -/
theorem nodup_hashmapForce {items : HashMapItems} (h : (items.map (·.1)).Nodup) :
    ((hashmapForce items k f).map (·.1)).Nodup := by
  unfold hashmapForce
  split_ifs with hk
  · rwa [keys_updateFirst]
  · refine List.nodup_cons.2 ⟨fun hm => hk ?_, h⟩
    obtain ⟨it, hit, rfl⟩ := List.mem_map.1 hm
    exact List.any_eq_true.2 ⟨it, hit, by simp⟩

/-- With one item per key, the sum over the key of an item is that item's. -/
theorem keySum_key {d : ReporterData} :
    ∀ {items : HashMapItems}, (items.map (·.1)).Nodup → (k, d) ∈ items →
      keySum φ (· = k) items = φ d
  | [], _, h => absurd h (List.not_mem_nil _)
  | it :: its, hn, h => by
    rw [List.map_cons, List.nodup_cons] at hn
    rw [keySum_cons]
    rcases List.mem_cons.1 h with rfl | h
    · rw [if_pos (by simp), keySum_eq_zero fun it' hit' => ?_, add_zero]
      simp only [decide_eq_false_iff_not]
      exact fun he => hn.1 (he ▸ List.mem_map_of_mem (·.1) hit')
    · have hk : it.1 ≠ k := fun he => hn.1 (he ▸ List.mem_map_of_mem (·.1) h)
      rw [if_neg (by simpa using hk), zero_add, keySum_key hn.2 h]

end Items

/-! ### A slot over the maps -/

section Slot
variable {cfg : EstimatorConfig} {φ : ReporterData → PacketCount}

theorem foldl_accumulateItem (units : List (StreamTuple × ReporterData)) :
    ∀ trackers : List HashMapItems,
      units.foldl (accumulateItem cfg) trackers = trackers.map (accumulateUnits cfg units) := by
  induction units with
  | nil => exact fun trackers => (List.map_id'' (fun _ => rfl) trackers).symm
  | cons u units ih =>
    intro trackers
    rw [List.foldl_cons, ih, accumulateItem, List.map_map]
    rfl

theorem accumulateUnits_append (units units' : List (StreamTuple × ReporterData))
    (t : HashMapItems) :
    accumulateUnits cfg (units ++ units') t = accumulateUnits cfg units' (accumulateUnits cfg units t) :=
  List.foldl_append _ _ _ _

/-- **The tracker loop keeps `SlotInv`.** -/
theorem slotInv_accumulateUnits (units : List (StreamTuple × ReporterData)) :
    ∀ {t : HashMapItems}, SlotInv t → SlotInv (accumulateUnits cfg units t) := by
  induction units with
  | nil => exact id
  | cons u units ih =>
    intro t ht
    refine ih ⟨nodup_hashmapForce ht.nodup, fun it hit => ?_⟩
    rcases mem_hashmapForce hit with h | h
    · exact ⟨u.1, h⟩
    · exact ht.streams it h

/-- The sums of a slot after the tracker loop, for a quantity that `accumulate_time` adds. -/
theorem keySum_accumulateUnits {p : HashMapKey → Bool} (hz : φ {} = 0)
    (ht : ∀ a u, φ (accumulateTime cfg a u) = φ a + φ u) (units : List (StreamTuple × ReporterData)) :
    ∀ t : HashMapItems, keySum φ p (accumulateUnits cfg units t) =
      keySum φ p t + ((units.filter fun u => p (.stream u.1)).map fun u => φ u.2).sum := by
  induction units with
  | nil => intro t; rw [List.filter_nil, List.map_nil, List.sum_nil, add_zero]; rfl
  | cons u units ih =>
    intro t
    show keySum φ p (accumulateUnits cfg units (hashmapForce t _ _)) = _
    rw [ih, keySum_hashmapForce hz (fun x => ht x u.2), List.filter_cons]
    split_ifs <;> simp [add_assoc]

/-- The roll-up adds to the flow item of `f` the sum over the stream items of `f`. -/
theorem keySum_rollUp {f : HashMapKey} (hz : φ {} = 0)
    (hf : ∀ a u, φ (accumulateFlow cfg a u) = φ a + φ u) :
    ∀ (items acc : HashMapItems), keySum φ (· = f) (items.foldl (rollUpItem cfg) acc) =
      keySum φ (· = f) acc + keySum φ (streamOf f) items
  | [], acc => (add_zero _).symm
  | it :: items, acc => by
    rw [List.foldl_cons, keySum_rollUp hz hf items, keySum_cons, ← add_assoc]
    congr 1
    obtain ⟨k, d⟩ := it
    cases k with
    | stream s =>
      rw [rollUpItem, keySum_hashmapForce hz (fun x => hf x d)]
      simp [streamOf]
    | flow s => simp [rollUpItem, streamOf]

theorem nodup_rollUp : ∀ (items : HashMapItems) {acc : HashMapItems},
    (acc.map (·.1)).Nodup → ((items.foldl (rollUpItem cfg) acc).map (·.1)).Nodup
  | [], _, h => h
  | ⟨.stream _, _⟩ :: items, _, h => nodup_rollUp items (nodup_hashmapForce h)
  | ⟨.flow _, _⟩ :: items, _, h => nodup_rollUp items h

theorem mem_rollUp {it : HashMapKey × ReporterData} : ∀ (items : HashMapItems) {acc : HashMapItems},
    it ∈ items.foldl (rollUpItem cfg) acc → it ∈ acc ∨ ∃ s, it.1 = setFlowtuple s
  | [], _, h => .inl h
  | ⟨.stream s, _⟩ :: items, _, h => by
    rcases mem_rollUp items h with h | h
    · exact (mem_hashmapForce h).symm.imp_right fun h => ⟨s, h⟩
    · exact .inr h
  | ⟨.flow _, _⟩ :: items, _, h => mem_rollUp items h

/-- **A callback of a due slot is built from one flow item**, with `stream_id` 0, and each
quantity that `accumulate_flow` adds is, in that item, the sum over the flow's stream items. -/
theorem reportSlot_additive {outlets : List Char} {t : HashMapItems} (ht : SlotInv t)
    {r : Pd3EstimatorResults} (hr : r ∈ reportSlot cfg outlets t) :
    ∃ s d, r = buildCallbackResults cfg s d ∧ s.streamId = 0 ∧
      ∀ φ : ReporterData → PacketCount, φ {} = 0 →
        (∀ a u, φ (accumulateFlow cfg a u) = φ a + φ u) → φ d = keySum φ (streamOf (.flow s)) t := by
  unfold reportSlot at hr
  split_ifs at hr
  · obtain ⟨⟨k, d⟩, hit, hr⟩ := List.mem_filterMap.1 hr
    cases k with
    | stream s => exact absurd hr (by simp)
    | flow s =>
      have hr : r = buildCallbackResults cfg s d := by
        dsimp only at hr
        split_ifs at hr
        exact (Option.some.inj hr).symm
      have hs : s.streamId = 0 := by
        rcases mem_rollUp t hit with h | ⟨s', h⟩
        · obtain ⟨_, h⟩ := ht.streams _ h
          cases h
        · cases h
          rfl
      refine ⟨s, d, hr, hs, fun φ hz hf => ?_⟩
      refine (keySum_key (nodup_rollUp t ht.nodup) hit).symm.trans ?_
      rw [keySum_rollUp hz hf, keySum_eq_zero fun it hit => ?_, zero_add]
      obtain ⟨s', h⟩ := ht.streams it hit
      simp [h]
  · exact absurd hr (List.not_mem_nil _)

end Slot

/-! ### The slots over a run -/

/-- The items of the maps since slot `i` was last due, on top of `acc`: what its next report
covers. -/
def sinceDue (i : Nat) : List (List (StreamTuple × ReporterData) × List Bool) →
    List (StreamTuple × ReporterData) → List (StreamTuple × ReporterData)
  | [], acc => acc
  | (units, due) :: rest, acc => sinceDue i rest (if due.getD i false then [] else acc ++ units)

section Run
variable {cfg : EstimatorConfig} {outlets : List (List Char)}

/-- After a map, a due slot is empty and the others have the map's items added. -/
theorem reporterEpoch_fst (trackers : List HashMapItems) (units : List (StreamTuple × ReporterData))
    (due : List Bool) (i : Nat) :
    (reporterEpoch cfg outlets trackers units due).1[i]? =
      trackers[i]?.map fun t => if due.getD i false then [] else accumulateUnits cfg units t := by
  simp only [reporterEpoch, foldl_accumulateItem, List.getElem?_map, List.getElem?_enum,
    Option.map_map]
  cases trackers[i]? with
  | none => rfl
  | some t => simp only [Option.map_some', Function.comp]; split_ifs <;> rfl

/-- A callback of slot `i` after a map comes from the slot's report. -/
theorem mem_reporterEpoch_snd {trackers : List HashMapItems}
    {units : List (StreamTuple × ReporterData)} {due : List Bool} {i : Nat}
    {r : Pd3EstimatorResults} (h : (i, r) ∈ (reporterEpoch cfg outlets trackers units due).2) :
    ∃ t, trackers[i]? = some t ∧
      r ∈ reportSlot cfg (outlets.getD i []) (accumulateUnits cfg units t) := by
  simp only [reporterEpoch, foldl_accumulateItem, List.map_map, List.mem_flatten, List.mem_map] at h
  obtain ⟨_, ⟨⟨j, t⟩, hj, rfl⟩, h⟩ := h
  rw [List.mem_enum_iff_getElem?, List.getElem?_map] at hj
  obtain ⟨t₀, h₀, rfl⟩ := Option.map_eq_some'.1 hj
  dsimp only [Function.comp] at h
  split_ifs at h
  · obtain ⟨r', hr', he⟩ := List.mem_map.1 h
    obtain ⟨rfl, rfl⟩ := Prod.mk.inj he
    exact ⟨t₀, h₀, hr'⟩
  · exact absurd h (List.not_mem_nil _)

/-- **The slot's items are those of the maps since it was last due.** -/
theorem reporterRun_fst (i : Nat) :
    ∀ (es : List (List (StreamTuple × ReporterData) × List Bool)) (trackers : List HashMapItems)
      (P : List (StreamTuple × ReporterData)),
      (∀ t, trackers[i]? = some t → t = accumulateUnits cfg P []) →
      ∀ t, (reporterRun cfg outlets trackers es).1[i]? = some t →
        t = accumulateUnits cfg (sinceDue i es P) []
  | [], _, _, hP => hP
  | (units, due) :: rest, trackers, P, hP => by
    refine reporterRun_fst i rest _ _ fun t ht => ?_
    rw [reporterEpoch_fst] at ht
    obtain ⟨t₀, h₀, rfl⟩ := Option.map_eq_some'.1 ht
    rw [hP t₀ h₀]
    split_ifs
    · rfl
    · exact (accumulateUnits_append _ _ _).symm

end Run

/-! ### What a callback carries -/

section Fields
variable {cfg : EstimatorConfig}

theorem reorderdataAccumulate_extentToCount {rc : ReorderConfig} (he : rc.extentEnabled = true)
    (a u : ReorderDataR) (b : Int) :
    (reorderdataAccumulate rc a u).extentToCount b =
      if 0 ≤ b ∧ b < reorderMaxExtent then a.extentToCount b + u.extentToCount b
      else a.extentToCount b := by
  obtain ⟨_, _ | _⟩ := rc <;> (cases he; rfl)

theorem reorderdataAccumulate_extentAssumedDrops {rc : ReorderConfig}
    (he : rc.extentEnabled = true) (a u : ReorderDataR) :
    (reorderdataAccumulate rc a u).extentAssumedDrops =
      a.extentAssumedDrops + u.extentAssumedDrops := by
  obtain ⟨_, _ | _⟩ := rc <;> (cases he; rfl)

theorem reorderdataAccumulate_fd {rc : ReorderConfig} (hd : rc.densityEnabled = true)
    (a u : ReorderDataR) (b : Nat) :
    (reorderdataAccumulate rc a u).fd b =
      if b < reorderWindowSize then a.fd b + u.fd b else a.fd b := by
  obtain ⟨_ | _, _⟩ := rc <;> (cases hd; rfl)

theorem accumulateTime_reorder (h : cfg.reorder.extentEnabled ∨ cfg.reorder.densityEnabled)
    (a u : ReporterData) :
    (accumulateTime cfg a u).reorder = reorderdataAccumulate cfg.reorder a.reorder u.reorder :=
  if_pos h

theorem accumulateFlow_reorder (h : cfg.reorder.extentEnabled ∨ cfg.reorder.densityEnabled)
    (a u : ReporterData) :
    (accumulateFlow cfg a u).reorder = reorderdataAccumulate cfg.reorder a.reorder u.reorder :=
  if_pos h

theorem streamOf_flow {s : StreamTuple} (hs : s.streamId = 0) (u : StreamTuple) :
    streamOf (.flow s) (.stream u) = decide (u.flowKey = s.flowKey) := by
  obtain ⟨fk, sid⟩ := s
  cases hs
  simp [streamOf, setFlowtuple]

/-- What a flow's callback should carry: the sums, over `units`, of the fields that both
accumulations add. -/
structure CarriesSums (cfg : EstimatorConfig) (units : List (StreamTuple × ReporterData))
    (r : Pd3EstimatorResults) : Prop where
  packetCount : r.packetCount = (units.map fun u => u.2.received.packetCount).sum
  extentBins : cfg.reorder.extentEnabled = true → ∀ b < reorderMaxExtent,
    r.extentBins b = (units.map fun u => u.2.reorder.extentToCount b).sum
  extentAssumedDrops : cfg.reorder.extentEnabled = true →
    r.extentAssumedDrops = (units.map fun u => u.2.reorder.extentAssumedDrops).sum
  densityBins : cfg.reorder.densityEnabled = true → ∀ b < reorderWindowSize,
    (r.densityBins b).1 = (units.map fun u => u.2.reorder.fd b).sum

/-- **Every callback's packet count, extent bins and drops, and density bins are the sums over
the streams of its flow and the maps since its slot was last due**, in every run. -/
theorem reporterEpoch_report_sums {outlets : List (List Char)}
    (es : List (List (StreamTuple × ReporterData) × List Bool))
    (units : List (StreamTuple × ReporterData)) (due : List Bool) {i : Nat}
    {r : Pd3EstimatorResults}
    (h : (i, r) ∈ (reporterEpoch cfg outlets
      (reporterRun cfg outlets (outlets.map fun _ => []) es).1 units due).2) :
    CarriesSums cfg ((sinceDue i es [] ++ units).filter fun u => u.1.flowKey = r.flowKey) r := by
  obtain ⟨t, hti, hr⟩ := mem_reporterEpoch_snd h
  have hstart : ∀ t, (outlets.map fun _ => ([] : HashMapItems))[i]? = some t →
      t = accumulateUnits cfg [] [] := fun t ht => by
    rw [List.getElem?_map] at ht
    obtain ⟨_, _, rfl⟩ := Option.map_eq_some'.1 ht
    rfl
  rw [reporterRun_fst i es _ [] hstart t hti, ← accumulateUnits_append] at hr
  have hempty : SlotInv [] := ⟨List.nodup_nil, fun _ h => absurd h (List.not_mem_nil _)⟩
  obtain ⟨s, d, rfl, hs, hadd⟩ := reportSlot_additive (slotInv_accumulateUnits _ hempty) hr
  -- a quantity that both accumulations add is the sum over the pending items
  have hsum : ∀ φ : ReporterData → PacketCount, φ {} = 0 →
      (∀ a u, φ (accumulateTime cfg a u) = φ a + φ u) →
      (∀ a u, φ (accumulateFlow cfg a u) = φ a + φ u) →
        φ d = (((sinceDue i es [] ++ units).filter fun u => u.1.flowKey = s.flowKey).map
          fun u => φ u.2).sum := by
    intro φ hz ht hf
    rw [hadd φ hz hf, keySum_accumulateUnits hz ht]
    refine (zero_add _).trans (congrArg _ (congrArg _ (List.filter_congr fun u _ => ?_)))
    exact streamOf_flow hs u.1
  refine ⟨hsum (fun d => d.received.packetCount) rfl (fun _ _ => rfl) (fun _ _ => rfl),
    fun he b hb => ?_, fun he => ?_, fun hd b hb => ?_⟩
  · have hx : ∀ x : ReporterData → ReporterData → ReporterData,
        (∀ a u, (x a u).reorder = reorderdataAccumulate cfg.reorder a.reorder u.reorder) →
        ∀ a u, (x a u).reorder.extentToCount b = a.reorder.extentToCount b + u.reorder.extentToCount b :=
      fun x hx a u => by
        rw [hx, reorderdataAccumulate_extentToCount he, if_pos ⟨by omega, by exact_mod_cast hb⟩]
    have hor : cfg.reorder.extentEnabled ∨ cfg.reorder.densityEnabled := .inl he
    exact (if_pos ⟨he, hb⟩).trans (hsum (fun d => d.reorder.extentToCount b) rfl
      (hx _ (accumulateTime_reorder hor)) (hx _ (accumulateFlow_reorder hor)))
  · have hor : cfg.reorder.extentEnabled ∨ cfg.reorder.densityEnabled := .inl he
    refine (if_pos he).trans (hsum (fun d => d.reorder.extentAssumedDrops) rfl ?_ ?_) <;>
      intro a u <;> dsimp only
    · rw [accumulateTime_reorder hor, reorderdataAccumulate_extentAssumedDrops he]
    · rw [accumulateFlow_reorder hor, reorderdataAccumulate_extentAssumedDrops he]
  · have hor : cfg.reorder.extentEnabled ∨ cfg.reorder.densityEnabled := .inr hd
    refine (congrArg Prod.fst (if_pos ⟨hd, hb⟩)).trans
      (hsum (fun d => d.reorder.fd b) rfl ?_ ?_) <;> intro a u <;> dsimp only
    · rw [accumulateTime_reorder hor, reorderdataAccumulate_fd hd, if_pos hb]
    · rw [accumulateFlow_reorder hor, reorderdataAccumulate_fd hd, if_pos hb]

/-- One map with one stream, all estimators on, and one slot due. -/
theorem reporterEpoch_report_sums_one_map :
    let cfg : EstimatorConfig := ⟨true, ⟨true, true⟩, true⟩
    let s : StreamTuple := ⟨(0, 0), 1⟩
    let u : ReporterData := { received := packetAggregate [(1, 7)] }
    ∃ r, (0, r) ∈ (reporterEpoch cfg [['c']]
        (reporterRun cfg [['c']] ([['c']].map fun _ => []) []).1 [(s, u)] [true]).2 ∧
      CarriesSums cfg ((sinceDue 0 [] [] ++ [(s, u)]).filter fun u => u.1.flowKey = r.flowKey) r := by
  intro cfg s u
  have h : (0, _) ∈ (reporterEpoch cfg [['c']]
      (reporterRun cfg [['c']] ([['c']].map fun _ => []) []).1 [(s, u)] [true]).2 :=
    List.mem_singleton.2 rfl
  exact ⟨_, h, reporterEpoch_report_sums [] _ _ h⟩

end Fields

/-! ### The loss counts -/

/-- One slot with outlet `c`, due after the second map; loss on, reorder off; one stream whose
two maps hold the arrivals `1, 2, 3, 4, 2` and `3, 4, 5`, each with the tallies `lossdata_a2r`
makes for them when the reporter waits for one map. The second unit has `received = 3` and
`dropped = 2 ^ 32 - 3`, whose 32-bit sum is 0: `lossdata_accumulate` leaves it out, and the
callback reports 4 packets received and none dropped. -/
theorem reporterRun_loss_unit_skipped :
    let s : StreamTuple := ⟨(0, 0), 0⟩
    let loss := lossReport 1 [[1, 2, 3, 4, 2], [3, 4, 5]]
    let u₁ : ReporterData :=
      { received := packetAggregate [(1, 1), (2, 2), (3, 3), (4, 4), (5, 2)], loss := loss.getD 0 {} }
    let u₂ : ReporterData :=
      { received := packetAggregate [(6, 3), (7, 4), (8, 5)], loss := loss.getD 1 {} }
    (u₁.loss.received, u₁.loss.dropped, u₂.loss.received, u₂.loss.dropped) = (4, 0, 3, 0xFFFFFFFD) ∧
      (reporterRun ⟨true, ⟨false, false⟩, true⟩ [['c']] [[]]
          [([(s, u₁)], [false]), ([(s, u₂)], [true])]).2.map
        (fun r => (r.1, r.2.packetCount, r.2.packetsReceived, r.2.packetsDropped)) =
        [(0, 8, 4, 0)] := by
  decide

end Pd3Estimator
