import Mathlib.Data.List.Basic
import Mathlib.Logic.Function.Basic

/-!
# The fistq producer/consumer queue

`fistq.c`: all handles opened on one `(src, dst)` pair share one `fistq_t`, whose `internal`
queue is protected by its mutex; each handle also owns a local queue `lq` that only its thread
touches. A `queue_t` is a dummy `head` node, a `tail` pointer (at the dummy when the queue is
empty) and a `size`.

The model is at the level of the pointers: a `next` field for every dummy head and every
`queue_node_t`, each queue's `tail` and `size`, and a bump allocator for `calloc`. Each API
call is one atomic step: its mutex-protected part is atomic by the lock, and the rest touches
only the calling handle's local queue and the nodes on it.

* `fistqEnqueueAny`, `fistqFlush`, `fistqDirect`, `fistqDequeueAny`,
  `fistqTimeddequeueAny`, and `fistqRun` over any interleaving of calls;
* `fistqRun_flush_overtakes`: an item pushed with `FISTQ_FLUSH` reaches the consumer before an
  item the same handle pushed earlier with `FISTQ_NOFLUSH`.
-/

namespace Pd3Estimator

/-! ### State -/

/-- A `queue_t` of the fistq: the shared `internal` queue, or the local queue of handle `h`. -/
inductive QueueId
  | internal
  | lq (h : Nat)
  deriving DecidableEq, Repr

/-- A place that holds a `next` field: the dummy `head` node of a queue, or the
`queue_node_t` at an address. -/
inductive Loc
  | head (q : QueueId)
  | node (a : Nat)
  deriving DecidableEq, Repr

/-- `fistq_data_type`. -/
inductive FistqDataType
  | null
  | timeout
  | pinfo
  deriving DecidableEq, Repr

/-- `flush_option_t`. -/
inductive FlushOption
  | default
  | flush
  | noflush
  deriving DecidableEq, Repr

/-- `DEFAULT_THRESHOLD`. -/
def defaultThreshold : UInt16 := 5

/-- `FISTQ_FREE`, the first value of `free_option_t` (`FISTQ_NOFREE` is `1`). -/
def fistqFree : UInt32 := 0

/-- The fields `cb` and `free_data` of a `queue_t`, which only `queue_free` reads: the callback
that frees a datum, by its address (`none` for `NULL`), and the `free_option_t`, kept as the
`u_int32_t` value that `fistq_getHandle` casts to it. -/
structure QueueOptions where
  cb : Option Nat
  freeData : UInt32
  deriving DecidableEq, Repr

/-- The memory of one `fistq_t` and its handles. `next` is `none` for `NULL`; `data` is the
`void *` a node carries, with `0` for `NULL`; addresses from `fresh` on were never returned
by `calloc`; `options q` are the `cb` and `free_data` of queue `q`. -/
structure FistqState where
  next : Loc → Option Nat
  data : Nat → Nat
  type : Nat → FistqDataType
  size : QueueId → UInt32
  tail : QueueId → Loc
  threshold : Nat → UInt16
  fresh : Nat
  options : QueueId → QueueOptions

/-- The fistq as `fistq_create_unsafe` makes it, with every handle as `fistq_getHandle` makes
it: all queues empty, every `tail` at its dummy head, every threshold `DEFAULT_THRESHOLD`, and
every queue with the `NULL` callback and the `FISTQ_FREE` that `calloc` leaves, until a
`fistq_getHandle` sets those it is passed. -/
def FistqState.init : FistqState where
  next := fun _ => none
  data := fun _ => 0
  type := fun _ => .null
  size := fun _ => 0
  tail := fun q => .head q
  threshold := fun _ => defaultThreshold
  fresh := 0
  options := fun _ => ⟨none, fistqFree⟩

/-! ### Pointer writes -/

/-- `l->next = v`. -/
@[simps]
def FistqState.setNext (s : FistqState) (l : Loc) (v : Option Nat) : FistqState :=
  { s with next := Function.update s.next l v }

/-- `q->tail = l`. -/
@[simps]
def FistqState.setTail (s : FistqState) (q : QueueId) (l : Loc) : FistqState :=
  { s with tail := Function.update s.tail q l }

/-- `q->size = n`. -/
@[simps]
def FistqState.setSize (s : FistqState) (q : QueueId) (n : UInt32) : FistqState :=
  { s with size := Function.update s.size q n }

/-- `calloc` of a `queue_node_t` and `qn->data = data; qn->type = type; qn->next = NULL`. -/
def FistqState.newNode (s : FistqState) (data : Nat) (type : FistqDataType) : FistqState × Nat :=
  ({ s with
      fresh := s.fresh + 1
      next := Function.update s.next (.node s.fresh) none
      data := Function.update s.data s.fresh data
      type := Function.update s.type s.fresh type }, s.fresh)

/-- `q->tail->next = qn; q->tail = qn; q->size++`. -/
def FistqState.append (s : FistqState) (q : QueueId) (qn : Nat) : FistqState :=
  let s := s.setNext (s.tail q) (some qn)
  let s := s.setTail q (.node qn)
  s.setSize q (s.size q + 1)

/-- Splice queue `src` onto the end of queue `dst` and empty `src`, as `fistq_flush` and the
dequeue functions write it: `dst->tail->next = src->head.next; dst->tail = src->tail;
src->head.next = NULL; src->tail = &src->head; dst->size += src->size; src->size = 0`. -/
def FistqState.splice (s : FistqState) (dst src : QueueId) : FistqState :=
  let s := s.setNext (s.tail dst) (s.next (.head src))
  let s := s.setTail dst (s.tail src)
  let s := s.setNext (.head src) none
  let s := s.setTail src (.head src)
  let s := s.setSize dst (s.size dst + s.size src)
  s.setSize src 0

section Writes
variable (s : FistqState) (q dst src : QueueId) (qn : Nat)

@[simp] theorem FistqState.append_next :
    (s.append q qn).next = Function.update s.next (s.tail q) (some qn) := rfl
@[simp] theorem FistqState.append_tail :
    (s.append q qn).tail = Function.update s.tail q (.node qn) := rfl
@[simp] theorem FistqState.append_size :
    (s.append q qn).size = Function.update s.size q (s.size q + 1) := rfl
@[simp] theorem FistqState.append_data : (s.append q qn).data = s.data := rfl
@[simp] theorem FistqState.append_type : (s.append q qn).type = s.type := rfl
@[simp] theorem FistqState.append_fresh : (s.append q qn).fresh = s.fresh := rfl

@[simp] theorem FistqState.splice_next : (s.splice dst src).next =
    Function.update (Function.update s.next (s.tail dst) (s.next (.head src))) (.head src) none :=
  rfl
@[simp] theorem FistqState.splice_tail : (s.splice dst src).tail =
    Function.update (Function.update s.tail dst (s.tail src)) src (.head src) := rfl
@[simp] theorem FistqState.splice_size : (s.splice dst src).size =
    Function.update (Function.update s.size dst (s.size dst + s.size src)) src 0 := rfl
@[simp] theorem FistqState.splice_data : (s.splice dst src).data = s.data := rfl
@[simp] theorem FistqState.splice_type : (s.splice dst src).type = s.type := rfl
@[simp] theorem FistqState.splice_fresh : (s.splice dst src).fresh = s.fresh := rfl

end Writes

/-! ### The API calls -/

/-- `fistq_flush`: `-1` when the local queue is empty. -/
def fistqFlush (s : FistqState) (h : Nat) : FistqState × Int :=
  if s.size (.lq h) = 0 then (s, -1) else (s.splice .internal (.lq h), 0)

/-- `fistq_direct`: append one node to the internal queue under the mutex. -/
def fistqDirect (s : FistqState) (qn : Nat) : FistqState :=
  s.append .internal qn

/-- `fistq_enqueue_any` on a live handle `h`: `-1` for `NULL` data. -/
def fistqEnqueueAny (s : FistqState) (h data : Nat) (type : FistqDataType) (op : FlushOption) :
    FistqState × Int :=
  if data = 0 then (s, -1)
  else
    let (s, qn) := s.newNode data type
    if op = .flush then (fistqDirect s qn, 0)
    else
      let s := s.append (.lq h) qn
      if op ≠ .noflush ∧ (s.threshold h).toNat ≤ (s.size (.lq h)).toNat then ((fistqFlush s h).1, 0)
      else (s, 0)

/-- The end of both dequeue functions: unlink the first node of the local queue and return its
`data` and `type`; `none` when `lq.head.next` is `NULL`, where the code would read through it. -/
def FistqState.popLocal (s : FistqState) (h : Nat) : Option (FistqState × Nat × FistqDataType) :=
  match s.next (.head (.lq h)) with
  | none => none
  | some qn =>
    let s := s.setNext (.head (.lq h)) (s.next (.node qn))
    let s := s.setSize (.lq h) (s.size (.lq h) - 1)
    let s := if s.size (.lq h) = 0 then s.setTail (.lq h) (.head (.lq h)) else s
    some (s, s.data qn, s.type qn)

/-- `fistq_dequeue_any` on a live handle `h`; `none` while it waits on the condition variable
(both queues empty). -/
def fistqDequeueAny (s : FistqState) (h : Nat) : Option (FistqState × Nat × FistqDataType) :=
  if s.size (.lq h) = 0 then
    if s.size .internal = 0 then none
    else
      let s := s.splice (.lq h) .internal
      if s.size (.lq h) = 0 then some (s, 0, .null) else s.popLocal h
  else s.popLocal h

/-- `fistq_timeddequeue_any` on a live handle `h`: when both queues are empty the wait ends at
the deadline (`timedOut`) with `FISTQ_TYPE_TIMEOUT`, or goes on (`none`). -/
def fistqTimeddequeueAny (s : FistqState) (h : Nat) (timedOut : Bool) :
    Option (FistqState × Nat × FistqDataType) :=
  if s.size (.lq h) = 0 then
    if s.size .internal = 0 then
      if timedOut then some (s, 0, .timeout) else none
    else (s.splice (.lq h) .internal).popLocal h
  else s.popLocal h

/-! ### Runs -/

/-- One call, by the thread that owns handle `h`. -/
inductive FistqCall
  | enqueue (h data : Nat) (type : FistqDataType) (op : FlushOption)
  | flush (h : Nat)
  | dequeue (h : Nat)
  | timeddequeue (h : Nat) (timedOut : Bool)
  deriving DecidableEq, Repr

/-- What a dequeue hands to handle `h`: its data, unless that is `NULL`. -/
def delivered (h : Nat) (r : FistqState × Nat × FistqDataType) : FistqState × Option (Nat × Nat) :=
  (r.1, if r.2.1 = 0 then none else some (h, r.2.1))

/-- One call: the new state and, for a dequeue that returns data, the handle and the data;
`none` when the call cannot return in this state. -/
def fistqStep (s : FistqState) : FistqCall → Option (FistqState × Option (Nat × Nat))
  | .enqueue h data type op => some ((fistqEnqueueAny s h data type op).1, none)
  | .flush h => some ((fistqFlush s h).1, none)
  | .dequeue h => (fistqDequeueAny s h).map (delivered h)
  | .timeddequeue h timedOut => (fistqTimeddequeueAny s h timedOut).map (delivered h)

/-- An interleaving of calls: the final state and the data delivered, in order, each with the
handle that dequeued it; `none` when some call cannot return where it is placed. -/
def fistqRun (s : FistqState) : List FistqCall → Option (FistqState × List (Nat × Nat))
  | [] => some (s, [])
  | c :: cs =>
    (fistqStep s c).bind fun r =>
      (fistqRun r.1 cs).map fun t => (t.1, r.2.toList ++ t.2)

/-- Handle 0 pushes item 1 with `FISTQ_NOFLUSH`, then item 2 with `FISTQ_FLUSH`; handle 1
dequeues, handle 0 flushes, handle 1 dequeues again. Item 2 goes straight to the internal queue
and item 1 stays in the local queue, so the consumer gets 2 before 1. -/
theorem fistqRun_flush_overtakes :
    (fistqRun .init [.enqueue 0 1 .pinfo .noflush, .enqueue 0 2 .pinfo .flush, .dequeue 1,
      .flush 0, .dequeue 1]).map (·.2) = some [(1, 2), (1, 1)] := by
  decide

end Pd3Estimator
