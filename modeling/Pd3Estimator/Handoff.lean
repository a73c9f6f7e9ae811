import Pd3Estimator.Storage
import Pd3Estimator.Reporter

/-!
# The handoff between the aggregator and the reporter

`pd3_estimator.c` runs two threads over storage in three stages. The aggregator fills the latest
map of `working_a`; at the end of each period it retires that map to `working_sh` under
`shared_mutex`, takes back the free lists the reporter left in the shared area, and, after the
unlock, adds a new map. The reporter, under the same mutex, takes all of `working_sh` into
`working_r` and leaves its own free lists in the shared area; then, while `working_r` holds at
least `periods_to_wait` maps, it processes the earliest one (reading the later ones as
look-ahead) and recycles that map, its items and their ranges onto its free lists.

The model is at the level of the pointers, over three pools (`Storage`): the maps, the items
and the ranges. Every list header is in its pool's table of headers, indexed by where the header
lives: `working_a` is `maps.hdr (.working .a)`, `free_hashmapitems_sh` is
`items.hdr (.free .sh)`, the `items` of the map at `hm` are `items.hdr (.map hm)`, the loss
ranges of the item at `x` are `ranges.hdr (.item .loss x)`. Of an item the model keeps its key,
which `hashmap_force` looks up, and of a range its bounds, which `lossdata_arrival` and
`reorderdata_arrival` extend; the other data and the hash tables, which always index exactly the
items of a map in use, are the Reporter, Loss and Reorder modules' or left out.

Each call is one step: the two critical sections are atomic by the mutex, and the rest of each
thread touches only its own stage (`_a` for the aggregator; `_r`, `free_hmis_local`, the
trackers and `state_data` for the reporter), so it commutes with the other thread's steps.
Each map carries a ghost epoch, numbered when `add_hashmap` puts it on `working_a`.
-/

namespace Pd3Estimator

/-! ### State -/

/-- The three places of the handoff: the aggregator's (`_a`), the shared area under
`shared_mutex` (`_sh`), the reporter's (`_r`). -/
inductive Stage
  | a
  | sh
  | r
  deriving DecidableEq, Repr

/-- A `struct hashMapList`: `working_a`, `working_sh`, `working_r`, `free_hashmaps_a`, ... -/
inductive MapOwner
  | working (st : Stage)
  | free (st : Stage)
  deriving DecidableEq, Repr

/-- Where a `struct hashMapItemList` lives: `free_hashmapitems_a`, `_sh`, `_r`; the `items` of
the map at `hm`; `free_hmis_local`; the `items` of `trackers[i]`; the `items` of
`state_data`. -/
inductive ItemOwner
  | free (st : Stage)
  | map (hm : Nat)
  | hmisLocal
  | tracker (i : Nat)
  | stateData
  deriving DecidableEq, Repr

/-- The two lists of ranges an item of an aggregator map has. -/
inductive RangeKind
  | loss
  | reorder
  deriving DecidableEq, Repr

/-- Where a `struct seqnoRangeList` lives: `free_lossranges_a`, ..., `free_reorderranges_r`;
the `agg_data.loss.ranges` or `agg_data.reorder.ranges` of the item at `hmi`. -/
inductive RangeOwner
  | free (k : RangeKind) (st : Stage)
  | item (k : RangeKind) (hmi : Nat)
  deriving DecidableEq, Repr

/-- The storage of the handoff, the aggregator's place in its loop (`adding`: between
`period_transition` and `add_hashmap`), the reporter's (`exchanged`: it has taken the shared
maps once, and since `working_r` is its own, it is back at the wait exactly when
`working_r.count < periods_to_wait`), and the ghost epochs. -/
structure HandoffState where
  maps : MapHeap MapOwner
  items : ListHeap ItemOwner
  key : Nat → HashMapKey
  ranges : ListHeap RangeOwner
  low : Nat → Seqno
  high : Nat → Seqno
  adding : Bool
  exchanged : Bool
  epoch : Nat → Nat
  nextEpoch : Nat

/-- After `pd3_estimator_init`: every list empty, nothing allocated, and the aggregator about to
add its first map. -/
def HandoffState.init : HandoffState where
  maps := ⟨fun _ => none, fun _ => {}, 0⟩
  items := ⟨fun _ => none, fun _ => {}, 0⟩
  key := fun _ => .stream ⟨(0, 0), 0⟩
  ranges := ⟨fun _ => none, fun _ => {}, 0⟩
  low := fun _ => 0
  high := fun _ => 0
  adding := true
  exchanged := false
  epoch := fun _ => 0
  nextEpoch := 0

namespace HandoffState

/-! ### Items and ranges -/

/-- `add_hashmapitem(list, freelist)`: an item from `freelist`, or `malloc`ed, at the head of
`list`; its `memset` empties its range lists. -/
def addHashmapitem (s : HandoffState) (list freelist : ItemOwner) : HandoffState × Nat :=
  let (items, x) := s.items.allocHead freelist list
  ({ s with
      items := items
      ranges := { s.ranges with
        hdr := Function.update (Function.update s.ranges.hdr (.item .loss x) {})
          (.item .reorder x) {} } }, x)

/-- The item with key `k` among at most `fuel` items from `p`. -/
def findKey (next : NextHeap) (key : Nat → HashMapKey) (k : HashMapKey) :
    Nat → Option Nat → Option Nat
  | _, none => none
  | 0, some _ => none
  | fuel + 1, some x => if key x = k then some x else findKey next key k fuel (next x)

/-- `hashmap_force(hm, k, freelist)` on the map whose items are the list `list`: its item with
key `k`, or a new one at the head of its items. -/
def hashmapForce (s : HandoffState) (list : ItemOwner) (k : HashMapKey) (freelist : ItemOwner) :
    HandoffState × Nat :=
  match findKey s.items.next s.key k s.items.fresh (s.items.hdr list).head with
  | some x => (s, x)
  | none =>
    let (s, x) := s.addHashmapitem list freelist
    ({ s with key := Function.update s.key x k }, x)

/-- A zeroed range `[seqno, seqno]` put on a list by `alloc`. -/
def newRange (s : HandoffState) (alloc : ListHeap RangeOwner × Nat) (seqno : Seqno) :
    HandoffState :=
  { s with
      ranges := alloc.1
      low := Function.update s.low alloc.2 seqno
      high := Function.update s.high alloc.2 seqno }

/-- The range `lossdata_arrival` or `reorderdata_arrival` extends to `seqno`: the one at `p`,
when `seqno` directly follows it. -/
def extendable (s : HandoffState) (p : Option Nat) (seqno : Seqno) : Option Nat :=
  p.bind fun r => if s.high r = seqno - 1 ∧ seqno ≠ 0 then some r else none

/-- `lossdata_arrival(&ad->loss, seqno, free_ranges)` on the item at `hmi`, its list part:
extend the head range, or put a new one at the head. -/
def lossdataArrival (s : HandoffState) (hmi : Nat) (seqno : Seqno) (freeRanges : RangeOwner) :
    HandoffState :=
  match s.extendable (s.ranges.hdr (.item .loss hmi)).head seqno with
  | some r => { s with high := Function.update s.high r seqno }
  | none => s.newRange (s.ranges.allocHead freeRanges (.item .loss hmi)) seqno

/-- `reorderdata_arrival(&ad->reorder, seqno, free_ranges)` on the item at `hmi`: extend the
tail range, or put a new one at the end. -/
def reorderdataArrival (s : HandoffState) (hmi : Nat) (seqno : Seqno)
    (freeRanges : RangeOwner) : HandoffState :=
  match s.extendable (s.ranges.hdr (.item .reorder hmi)).tail seqno with
  | some r => { s with high := Function.update s.high r seqno }
  | none => s.newRange (s.ranges.allocTail freeRanges (.item .reorder hmi)) seqno

/-! ### The aggregator -/

/-- `handle_packet_arrival`: the stream's item in the latest map of `working_a`, and its loss
and reorder ranges. `none` when `working_a` is empty, where the code reads through `NULL`. -/
def handlePacketArrival (cfg : EstimatorConfig) (s : HandoffState) (stream : StreamTuple)
    (seq : Seqno) : Option HandoffState :=
  (s.maps.hdr (.working .a)).latest.map fun hm =>
    let (s, hmi) := s.hashmapForce (.map hm) (.stream stream) (.free .a)
    let s := if cfg.lossEnabled then s.lossdataArrival hmi seq (.free .loss .a) else s
    if cfg.reorder.extentEnabled || cfg.reorder.densityEnabled then
      s.reorderdataArrival hmi seq (.free .reorder .a)
    else s

/-- `data_exchange_aggregator_unsafe()`. -/
def dataExchangeAggregatorUnsafe (s : HandoffState) : Option HandoffState := do
  let maps := s.maps.moveone (.working .sh) (.working .a)
  let maps ← maps.moveall (.free .a) (.free .sh)
  let items ← s.items.move (.free .a) (.free .sh)
  let ranges ← s.ranges.move (.free .loss .a) (.free .loss .sh)
  let ranges ← ranges.move (.free .reorder .a) (.free .reorder .sh)
  pure { s with maps, items, ranges }

/-- `add_hashmap(&working_a, &free_hashmaps_a)`: its `memset` also empties the map's items. The
map gets the next ghost epoch. -/
def addHashmap (s : HandoffState) : HandoffState :=
  let (maps, hm) := s.maps.add (.working .a) (.free .a)
  { s with
      maps
      items := { s.items with hdr := Function.update s.items.hdr (.map hm) {} }
      epoch := Function.update s.epoch hm s.nextEpoch
      nextEpoch := s.nextEpoch + 1 }

/-! ### The reporter -/

/-- `data_exchange_reporter_unsafe()`. -/
def dataExchangeReporterUnsafe (s : HandoffState) : Option HandoffState := do
  let maps ← s.maps.moveall (.working .r) (.working .sh)
  let maps ← maps.moveall (.free .sh) (.free .r)
  let items ← s.items.move (.free .sh) (.free .r)
  let ranges ← s.ranges.move (.free .loss .sh) (.free .loss .r)
  let ranges ← ranges.move (.free .reorder .sh) (.free .reorder .r)
  pure { s with maps, items, ranges }

/-- The first loop of the processing, at an item with key `k`: `hashmap_force` it in
`state_data` and in every tracker (the conversions and `accumulate_time` are the Reporter
module's). -/
def convertItem (ntrackers : Nat) (s : HandoffState) (k : HashMapKey) : HandoffState :=
  (List.range ntrackers).foldl (fun s i => (s.hashmapForce (.tracker i) k .hmisLocal).1)
    (s.hashmapForce .stateData k .hmisLocal).1

/-- The consolidation loop of tracker `i`, at the item `y`: a stream item is forced in
`state_data`, and its flow in the tracker, before the point of iteration. -/
def consolidateItem (i : Nat) (s : HandoffState) (y : Nat) : HandoffState :=
  match s.key y with
  | .stream st =>
    let s := (s.hashmapForce .stateData (.stream st) .hmisLocal).1
    (s.hashmapForce (.tracker i) (setFlowtuple st) .hmisLocal).1
  | .flow _ => s

/-- `zeroout_hashmap(hm, freelist)` on the map whose items are `list`. -/
def zerooutHashmap (s : HandoffState) (list freelist : ItemOwner) : Option HandoffState :=
  (s.items.move freelist list).map fun items => { s with items }

/-- Tracker `i` at the report: skipped when it is not due; else consolidated, then zeroed out
into `free_hmis_local`. -/
def reportTracker (s : HandoffState) (i : Nat) (due : Bool) : Option HandoffState :=
  if due then
    (walk (·.items.next) (fun y s => some (s.consolidateItem i y)) s.items.fresh
      (s.items.hdr (.tracker i)).head s).bind fun s => s.zerooutHashmap (.tracker i) .hmisLocal
  else some s

/-- The recycling loop, at the item `x`: its loss and reorder ranges go to the reporter's free
lists. -/
def recycleRanges (s : HandoffState) (x : Nat) : Option HandoffState := do
  let ranges ← s.ranges.move (.free .loss .r) (.item .loss x)
  let ranges ← ranges.move (.free .reorder .r) (.item .reorder x)
  pure { s with ranges }

/-- One pass of `while (working_r.count >= periods_to_wait)`: process the earliest map of
`working_r` with `ntrackers` trackers, of which those in `due` report; then recycle its ranges,
its items and the map itself. -/
def processEarliest (ntrackers : Nat) (due : List Bool) (s : HandoffState) :
    Option HandoffState := do
  let hm ← (s.maps.hdr (.working .r)).earliest
  let s ← walk (·.items.next) (fun x s => some (s.convertItem ntrackers (s.key x))) s.items.fresh
    (s.items.hdr (.map hm)).head s
  let s ← (List.range ntrackers).foldlM (fun s i => s.reportTracker i (due.getD i false)) s
  let s ← walk (·.items.next) (fun x s => s.recycleRanges x) s.items.fresh
    (s.items.hdr (.map hm)).head s
  let items ← s.items.move (.free .r) (.map hm)
  pure { s with items, maps := s.maps.moveone (.free .r) (.working .r) }

end HandoffState

/-- The maps the look-ahead of `lossdata_a2r` visits from `future`:
`for (i = 1, hm_f = future; i < periods_to_wait && hm_f; i++, hm_f = hm_f->next)`, with
`n = periods_to_wait - 1`. -/
def lookAhead (next : NextHeap) : Nat → Option Nat → List Nat
  | 0, _ => []
  | _ + 1, none => []
  | n + 1, some hm => hm :: lookAhead next n (next hm)

/-! ### Runs -/

/-- A step of one of the two threads. -/
inductive HandoffCall
  | arrival (stream : StreamTuple) (seq : Seqno)
  | transition
  | addHashmap
  | exchange
  | process (due : List Bool)
  deriving DecidableEq, Repr

/-- What a step tells about the epochs: the aggregator retired one, or the reporter processed
one, reading the maps of `lookAhead` ahead. -/
inductive HandoffEvent
  | retired (epoch : Nat)
  | processed (epoch : Nat) (lookAhead : List Nat)
  deriving DecidableEq, Repr

/-- One step, with `periods_to_wait` and `ntrackers` trackers; `none` where its thread cannot
take it: the aggregator alternates arrivals and `period_transition` with `add_hashmap` after
each transition; the reporter takes the shared maps, when some are pending, at its first wait
and whenever its `while (working_r.count >= periods_to_wait)` loop has ended, and processes
while that loop runs. -/
def handoffStep (cfg : EstimatorConfig) (periodsToWait ntrackers : Nat) (s : HandoffState) :
    HandoffCall → Option (HandoffState × Option HandoffEvent)
  | .arrival stream seq =>
    if s.adding then none else (s.handlePacketArrival cfg stream seq).map (·, none)
  | .transition =>
    if s.adding then none
    else s.dataExchangeAggregatorUnsafe.map fun s' =>
      ({ s' with adding := true },
        (s.maps.hdr (.working .a)).earliest.map fun hm => .retired (s.epoch hm))
  | .addHashmap => if s.adding then some ({ s.addHashmap with adding := false }, none) else none
  | .exchange =>
    if (s.exchanged = false ∨ (s.maps.hdr (.working .r)).count.toNat < periodsToWait) ∧
        (s.maps.hdr (.working .sh)).count ≠ 0 then
      s.dataExchangeReporterUnsafe.map ({ · with exchanged := true }, none)
    else none
  | .process due =>
    if s.exchanged = true ∧ periodsToWait ≤ (s.maps.hdr (.working .r)).count.toNat then
      (s.maps.hdr (.working .r)).earliest.bind fun hm =>
        (s.processEarliest ntrackers due).map fun s' =>
          (s', some (.processed (s.epoch hm)
            ((lookAhead s.maps.next (periodsToWait - 1) (s.maps.next hm)).map s.epoch)))
    else none

/-- An interleaving of steps: the final state and the events, in order; `none` when some step
cannot be taken where it is placed. -/
def handoffRun (cfg : EstimatorConfig) (periodsToWait ntrackers : Nat) (s : HandoffState) :
    List HandoffCall → Option (HandoffState × List HandoffEvent)
  | [] => some (s, [])
  | c :: cs =>
    (handoffStep cfg periodsToWait ntrackers s c).bind fun r =>
      (handoffRun cfg periodsToWait ntrackers r.1 cs).map fun t => (t.1, r.2.toList ++ t.2)

end Pd3Estimator
