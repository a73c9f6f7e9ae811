import Pd3Estimator.Datatypes
import Mathlib.Data.List.Sort
import Mathlib.Algebra.Group.Int

/-!
# The loss estimator

`lossdata.c` and `lossdata.h`: the aggregator's arrival ranges and the reporter's
`lossdata_a2r`.

* `lossdataArrival` extends the newest range of the epoch when the packet follows it, and
  otherwise starts a new range at the front of the list.
* `lossdataA2r` assembles the epoch's present ranges, a one-packet past range at the last
  sequence number of the previous computation, and the ranges of the next
  `periods_to_wait - 1` maps (future), sorts them with `rangecmp`, runs the wrap-around
  detection, and sweeps the slice between the last past range and the last range that is not
  future, counting received packets and gaps.
* The sweep rewrites the ranges it clips in place; those include future ranges that sort
  inside the slice, which the later epochs then see. The chain is therefore carried with each
  range tagged by its position, and `writeBack` returns every range as the sweep left it.
* `lossRun` is the reporter's sequence of `lossdata_a2r` calls for one stream over the maps
  the aggregator retired.

`qsort` is modelled by insertion sort with the same comparator (`qsortRanges`). Every input
that a theorem below evaluates has pairwise distinct `low` ends inside one arc of length
`< 2 ^ 31`, where `rangecmp` is a strict total order and every sorting algorithm returns
the same array.
-/

namespace Pd3Estimator

/-- `struct lossDataA`: the epoch's arrival ranges, newest first, and its flow state. -/
structure LossDataA where
  ranges : List SeqnoRange := []
  flowstate : FlowState := .null
  deriving DecidableEq, Repr

/-- `struct lossDataR` without its assembly chain, which only `lossdata_a2r` uses. -/
structure LossDataR where
  flowstate : FlowState := .null
  badflows : UInt32 := 0
  received : PacketCount := 0
  dropped : PacketCount := 0
  consecutiveDrops : PacketCount := 0
  gapTotal : PacketCount := 0
  gapCount : PacketCount := 0
  gapMin : PacketCount := 0
  gapMax : PacketCount := 0
  deriving DecidableEq, Repr

/-- `struct lossState`: the reporter's per-stream memory between computations. -/
structure LossState where
  hasHighSeqno : Bool := false
  highSeqno : Seqno := 0
  hasLastRange : Bool := false
  lastRange : SeqnoRange := { low := 0, high := 0 }
  deriving DecidableEq, Repr

/-! ### Arrivals -/

/-- `lossdata_arrival`. -/
def lossdataArrival (lda : LossDataA) (seqno : Seqno) : LossDataA where
  ranges :=
    match lda.ranges with
    | r :: rs =>
      if r.high = seqno - 1 ∧ seqno ≠ 0 then { r with high := seqno } :: rs
      else SeqnoRange.single seqno :: r :: rs
    | [] => [SeqnoRange.single seqno]
  flowstate := flowstatePacket lda.flowstate

/-- The loss data of one stream in one epoch after the given arrivals, from the zeroed item
that `hashmap_force` creates. -/
def lossAggregate (arrivals : List Seqno) : LossDataA := arrivals.foldl lossdataArrival {}

/-! ### Sorting and wrap-around detection -/

/-- `WRAPAROUND`: `1 << (sizeof(SEQNO) * 4)`. -/
def wraparound : Seqno := (1 : Seqno) <<< 16

/-- The C conversion of an `unsigned int` to the `int` that `rangecmp` returns. -/
def toInt32 (u : UInt32) : Int := if u.toNat < 2 ^ 31 then u.toNat else (u.toNat : Int) - 2 ^ 32

/-- `rangecmp`: wrapped ranges first, then by `low` through the sign of the 32-bit difference. -/
def rangecmp (rx ry : SeqnoRange) : Int :=
  if rx.wraparound ≠ ry.wraparound then ry.wraparound.toNat - rx.wraparound.toNat
  else toInt32 (rx.low - ry.low)

/-- `qsort(array, n, sizeof(struct seqnoRange *), rangecmp)` on the tagged array. -/
def qsortRanges (arr : List (Nat × SeqnoRange)) : List (Nat × SeqnoRange) :=
  arr.insertionSort fun x y => rangecmp x.2 y.2 ≤ 0

/-- The wrap-around detection loop: mark ranges from the front as wrapped until the first
gap `array[i+1]->low - r->high` above `WRAPAROUND / 2`; `true` when it was found. -/
def detectWraparound : List (Nat × SeqnoRange) → List (Nat × SeqnoRange) × Bool
  | [] => ([], false)
  | [x] => ([(x.1, { x.2 with wraparound := true })], false)
  | x :: y :: rest =>
    if y.2.low - x.2.high > wraparound / 2 then
      ((x.1, { x.2 with wraparound := true }) :: y :: rest, true)
    else
      let l := detectWraparound (y :: rest)
      ((x.1, { x.2 with wraparound := true }) :: l.1, l.2)

/-- The array after `qsort`, the wrap-around detection, and the second `qsort` when it fired. -/
def sortRanges (chain : List (Nat × SeqnoRange)) : List (Nat × SeqnoRange) :=
  let marked := detectWraparound (qsortRanges chain)
  if marked.2 then qsortRanges marked.1 else marked.1

/-- `begin` (one past the last past range) and `end` (the last range that is not future,
`n` when there is none). -/
def sliceBounds (arr : List SeqnoRange) : Nat × Nat :=
  arr.enum.foldl
    (fun be ir =>
      (if ir.2.arrivalPeriod = .past then ir.1 + 1 else be.1,
       if ir.2.arrivalPeriod ≠ .future then ir.1 else be.2))
    (0, arr.length)

/-! ### The sweep -/

/-- The tallies after one counted range of `recd` packets that follows a gap of `gap`. -/
def LossDataR.tally (ldr : LossDataR) (recd gap : PacketCount) : LossDataR :=
  let ldr := { ldr with received := ldr.received + recd, dropped := ldr.dropped + gap }
  let ldr := if gap > 1 then { ldr with consecutiveDrops := ldr.consecutiveDrops + (gap - 1) }
    else ldr
  if gap > 0 then
    { ldr with
      gapMin := if ldr.gapCount = 0 ∨ gap < ldr.gapMin then gap else ldr.gapMin
      gapMax := if ldr.gapCount = 0 ∨ gap > ldr.gapMax then gap else ldr.gapMax
      gapTotal := ldr.gapTotal + gap
      gapCount := ldr.gapCount + 1 }
  else ldr

/-- `if (r->high < r->low) r->high = base - 1`. -/
def fixHigh (base : Seqno) (r : SeqnoRange) : SeqnoRange :=
  if r.high < r.low then { r with high := base - 1 } else r

/-- The overlap test of the sweep, measured from `base`: `none` when `r` is subsumed by
`prev` (`continue`), else `r` with its low end moved past `prev` when they overlap. -/
def clipRange (base : Seqno) (prev r : SeqnoRange) : Option SeqnoRange :=
  let dPrevHigh := modularDistance base prev.high
  if modularDistance base r.low ≤ dPrevHigh then
    if modularDistance base r.high ≤ dPrevHigh then none
    else some (fixHigh base { r with low := (if r.high ≤ prev.high then r.high else prev.high) + 1 })
  else some (fixHigh base r)

/-- `gap`: the packets missing between `prev` and the counted range `r`. -/
def gapBefore (prev r : SeqnoRange) : PacketCount :=
  let distance := modularDistance prev.high r.low
  if distance > 0 then distance - 1 else 0

/-- The loop `for (i = begin; i <= end; i++)` over the slice: the tallies and the last counted
range, and the slice with the clipped ranges rewritten. -/
def sweep (base : Seqno) :
    LossDataR × SeqnoRange → List (Nat × SeqnoRange) →
      (LossDataR × SeqnoRange) × List (Nat × SeqnoRange)
  | acc, [] => (acc, [])
  | (ldr, prev), (k, r) :: rest =>
    match clipRange base prev r with
    | none =>
      let s := sweep base (ldr, prev) rest
      (s.1, (k, r) :: s.2)
    | some r' =>
      let s := sweep base (ldr.tally (r'.high - r'.low + 1) (gapBefore prev r'), r') rest
      (s.1, (k, r') :: s.2)

/-- Each range of the chain as the array finally holds it (array and chain share objects). -/
def writeBack (chain : List SeqnoRange) (arr : List (Nat × SeqnoRange)) : List SeqnoRange :=
  chain.enum.map fun kr => ((arr.find? (·.1 = kr.1)).map Prod.snd).getD kr.2

/-- The cleanup loop over the chain. -/
def cleanupRanges (chain : List SeqnoRange) : List SeqnoRange :=
  chain.map fun r => { r with wraparound := false, arrivalPeriod := .present }

/-- `lossdata_a2r_compute` on the assembly chain: the tallies, the loss state and
`present_high` when it returns `1` (`none` when it returns `0`), and the chain's ranges as
the sort, the sweep and the cleanup left them. -/
def lossdataA2rCompute (ldr : LossDataR) (state : LossState) (chain : List SeqnoRange) :
    Option (LossDataR × LossState × Seqno) × List SeqnoRange :=
  if chain = [] then (none, chain) else
  let arr := sortRanges chain.enum
  let be := sliceBounds (arr.map Prod.snd)
  if chain.length ≤ be.2 then (none, writeBack chain arr) else
  let state :=
    if state.hasLastRange then state
    else
      let low := ((arr.get? be.1).map (·.2.low)).getD 0 - 1
      { state with hasLastRange := true, lastRange := { low := low, high := low } }
  let s := sweep state.lastRange.high (ldr, state.lastRange) ((arr.drop be.1).take (be.2 + 1 - be.1))
  let arr := arr.take be.1 ++ s.2 ++ arr.drop (be.2 + 1)
  let presentHigh := ((arr.get? be.2).map (·.2.high)).getD 0
  (some (s.1.1, { state with lastRange := s.1.2 }, presentHigh), cleanupRanges (writeBack chain arr))

/-- Cut `xs` into consecutive pieces as long as the lists of `shape`. -/
def unjoinLike {α β : Type} : List (List β) → List α → List (List α)
  | [], _ => []
  | l :: ls, xs => xs.take l.length :: unjoinLike ls (xs.drop l.length)

/-- `lossdata_a2r` for one stream: the epoch's loss data `lda`, the stream's loss state, and
the loss ranges of the stream in the maps after this one (`[]` where it has none). Returns the
tallies, the new state, and the later maps' ranges as the computation left them. -/
def lossdataA2r (lda : LossDataA) (lstate : LossState) (future : List (List SeqnoRange))
    (periodsToWait : Nat) : LossDataR × LossState × List (List SeqnoRange) :=
  let present := lda.ranges.map fun r => { r with wraparound := false, arrivalPeriod := .present }
  let past : List SeqnoRange :=
    if flowstateBeginp lda.flowstate ∧ lstate.hasHighSeqno then
      [{ low := lstate.highSeqno, high := lstate.highSeqno }]
    else []
  let visited := (future.take (periodsToWait - 1)).map
    (List.map fun r => { r with wraparound := false, arrivalPeriod := .future })
  let chain := visited.flatten.reverse ++ past ++ present
  let ldr : LossDataR := { flowstate := lda.flowstate }
  let lstate := { lstate with hasHighSeqno := false }
  let c := lossdataA2rCompute ldr lstate chain
  let future' := unjoinLike visited (c.2.take visited.flatten.length).reverse ++
    future.drop (periodsToWait - 1)
  match c.1 with
  | none => (ldr, lstate, future')
  | some (ldr', st, presentHigh) => (ldr', { st with hasHighSeqno := true, highSeqno := presentHigh }, future')

/-! ### The reporter's calls for one stream -/

/-- Put the ranges `fut` back into the maps `rest`. -/
def setRanges : List LossDataA → List (List SeqnoRange) → List LossDataA
  | lda :: rest, r :: rs => { lda with ranges := r } :: setRanges rest rs
  | rest, _ => rest

/-- The reporter's `lossdata_a2r` calls for one stream over the maps in the order the
aggregator retired them: the first `count` maps are processed in turn, each with the maps after
it as its future, and only those where the stream has arrivals. Returns each call's tallies. -/
def lossRun (periodsToWait : Nat) : Nat → LossState → List LossDataA → List LossDataR
  | 0, _, _ => []
  | _ + 1, _, [] => []
  | count + 1, st, lda :: rest =>
    if lda.ranges = [] then lossRun periodsToWait count st rest
    else
      let c := lossdataA2r lda st (rest.map (·.ranges)) periodsToWait
      c.1 :: lossRun periodsToWait count c.2.1 (setRanges rest c.2.2)

/-- The tallies the reporter has produced for one stream once the aggregator has retired the
maps holding `epochs` (the stream's arrivals in each, in order): every map with at least
`periodsToWait - 1` maps after it has been processed. -/
def lossReport (periodsToWait : Nat) (epochs : List (List Seqno)) : List LossDataR :=
  lossRun periodsToWait (epochs.length + 1 - periodsToWait) {} (epochs.map lossAggregate)

/-- A stream whose first packet is `0` is not counted: its fabricated predecessor
`0 - 1 = 0xFFFFFFFF` lies at `modular_distance` `0` from `0`, so the range looks subsumed.
Across the wrap `0xFFFFFFFF → 0` the count is off by almost `2 ^ 32`. -/
theorem lossReport_start_zero :
    (lossReport 1 [[0]]).map (·.received) = [0] ∧
      (lossReport 1 [[0xFFFFFFFE, 0xFFFFFFFF, 0, 1]]).map (·.received) = [0xFFFFFFFD] := by
  decide

/-- The duplicate `2` leaves the last sorted range subsumed, so `high_seqno = 2` is saved below
`last_range.high = 4`; in the next epoch `3` sorts after the past range and is counted again,
after a gap of `2 ^ 32 - 3`. -/
theorem lossReport_double_count :
    (lossReport 1 [[1, 2, 3, 4, 2], [3]]).map (fun l => (l.received, l.dropped)) =
      [(4, 0), (1, 0xFFFFFFFD)] := by
  decide

end Pd3Estimator
