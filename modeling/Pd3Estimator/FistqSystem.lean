import Pd3Estimator.FistqOwnership
import Pd3Estimator.FistqList
import Mathlib.Data.List.Perm.Basic

/-!
# The fistq library: every fistq with its queues

`fistq.c` as a whole: the list of fistqs and the handles (`FistqList`), and, for each
`fistq_t`, its `internal` queue and the local queues of its handles (`FistqState`). A call on a
queue goes through its handle's `fh->fq`. `fistq_getHandle` `calloc`s the handle, whose local
queue it sets up with `fh->lq.tail = &fh->lq.head`, and a `fistq_t` that `fistq_create_unsafe`
has just `calloc`ed starts with its queues empty. `fistq_destroyHandle` first frees the local
queue of the handle (`queue_free(&fh->lq)`), and, when the handle was the last one of its fistq,
`fistq_free` frees the fistq's internal queue (`queue_free(&fq->internal)`). `queue_free` frees
every node; the data of a node it frees, hands to the queue's callback, or leaves to its owner,
as the `free_data` and `cb` that `fistq_getHandle` set on the queue ask (`DataRelease`).

* `FistqState.queueFree`, `fistqSystemGetHandle`, `fistqSystemDestroyHandle`,
  `fistqSystemStep`, and `fistqSystemRun` over any sequence of calls;
* `FistqSystemInv`: the list of fistqs keeps `FistqListInv`, the queues of every fistq on it keep
  `FistqInv`, and the local queue of a handle is empty in every fistq it is not connected to;
* `FistqSystemInv.getHandle`, `FistqSystemInv.destroyHandle`, `FistqSystemInv.queue`,
  `FistqSystemInv.step`, `FistqSystemInv.run`: every call keeps it and accounts for every item:
  the items a call enqueues, with those queued before it, are those it delivers, those it
  releases and those queued after it;
* `OptionsFrom.step`, `OptionsFrom.run`: the options of the queues that a `fistq_destroyHandle`
  can release are those some `fistq_getHandle` was passed;
* `fistqSystemRun_conserves`: **over every sequence of calls of the library from `fistq_init`,
  every item enqueued was delivered once, released once by a `fistq_destroyHandle`, which freed
  its data, handed it to a callback, or left it to its owner as a `fistq_getHandle` of the run
  asked, or is on a queue of a fistq on the list**; `fistqSystemRun_destroy_frees`: **in every
  state a run reaches, `fistq_destroyHandle` of a live handle releases exactly the items on its
  local queue and, when it is the last handle of its fistq, those on the fistq's internal queue,
  each as the options of its queue ask**.
-/

namespace Pd3Estimator

/-! ### State -/

/-- The memory of the fistq library: the list of fistqs and the handles, and the queues of the
`fistq_t` at each address, with the local queues of its handles. -/
structure FistqSystem where
  list : FistqList
  queues : Nat → FistqState

/-- `fistq_init`. -/
def FistqSystem.init : FistqSystem := ⟨.init, fun _ => .init⟩

/-! ### The calls -/

/-- What `queue_free` does with the data of a node it frees. -/
inductive DataRelease
  /-- `free(qn->data)`. -/
  | free
  /-- `(*q->cb)(qn->data)`, with the callback at the address `cb`. -/
  | callback (cb : Nat)
  /-- Nothing: the node is freed, and its data left to its owner. -/
  | keep
  deriving DecidableEq, Repr

/-- The test `queue_free` makes for each node of a queue with the options `o`:
`if (q->free_data == FISTQ_FREE) q->cb ? (*q->cb)(qn->data) : free(qn->data);`. -/
def QueueOptions.release (o : QueueOptions) : DataRelease :=
  if o.freeData = fistqFree then
    match o.cb with
    | some cb => .callback cb
    | none => .free
  else .keep

/-- `queue_free(q)`: `while (q->head.next != NULL) { qn = q->head.next;
q->head.next = qn->next; ...; free(qn); }`, over at most `fuel` nodes: the state and, for each
node freed, in order, its data and what `queue_free` did with it; `none` when the loop runs past
`fuel` nodes. -/
def FistqState.queueFree (q : QueueId) :
    Nat → FistqState → Option (FistqState × List (Nat × DataRelease))
  | fuel, s =>
    match s.next (.head q) with
    | none => some (s, [])
    | some qn =>
      match fuel with
      | 0 => none
      | fuel + 1 =>
        (FistqState.queueFree q fuel (s.setNext (.head q) (s.next (.node qn)))).map
          fun r => (r.1, (s.data qn, (s.options q).release) :: r.2)

/-- `q->cb = cb; q->free_data = (free_option_t)value`, with `o = ⟨cb, value⟩`. -/
def FistqState.setOptions (s : FistqState) (q : QueueId) (o : QueueOptions) : FistqState :=
  { s with options := Function.update s.options q o }

/-- The local queue of handle `fh` as `calloc` returns it and `fistq_getHandle` sets it up:
`lq.head.next` `NULL`, `lq.size` zero, `lq.tail = &lq.head`. -/
def FistqState.clearLocal (s : FistqState) (fh : Nat) : FistqState :=
  ((s.setNext (.head (.lq fh)) none).setTail (.lq fh) (.head (.lq fh))).setSize (.lq fh) 0

/-- A new handle `fh`: its local queue as `clearLocal` leaves it, with the options `o`
(`fh->lq.cb = cb; fh->lq.free_data = (free_option_t)value`), and
`fh->threshold = DEFAULT_THRESHOLD`. -/
def FistqState.initHandle (s : FistqState) (fh : Nat) (o : QueueOptions) : FistqState :=
  { (s.clearLocal fh).setOptions (.lq fh) o with
    threshold := Function.update s.threshold fh defaultThreshold }

/-- `fistq_getHandle(src, dst, value, cb)`: `fistqGetHandle`, with the local queue of the new
handle set up among the queues of its `fistq_t` with the options `⟨cb, value⟩`. A `fistq_t` that
`fistq_create_unsafe(src, dst, value, cb)` has just `calloc`ed at the address `fresh` starts with
its queues empty and the same options on its internal queue. -/
def fistqSystemGetHandle (st : FistqSystem) (src dst : String) (value : UInt32)
    (cb : Option Nat) : Option (FistqSystem × Option Nat) :=
  (fistqGetHandle st.list src dst).map fun r =>
    match r.2 with
    | none => ({ st with list := r.1 }, none)
    | some fh =>
      match r.1.fq fh with
      | none => ({ st with list := r.1 }, some fh)
      | some a =>
        let q := if a = st.list.fresh then FistqState.init.setOptions .internal ⟨cb, value⟩
          else st.queues a
        ({ list := r.1, queues := Function.update st.queues a (q.initHandle fh ⟨cb, value⟩) },
          some fh)

/-- `fistq_destroyHandle(fh)`: `queue_free(&fh->lq)`; then `fistqDestroyHandle`; then, when that
leaves the `ref_count` of the handle's fistq at zero, `fistq_free(fh->fq)`, whose
`queue_free(&fq->internal)` frees the internal queue; last `free(fh)`, after which the model keeps
the handle's local queue as `calloc` returns it. Returns the data of the nodes freed, in order,
each with what `queue_free` did with it; `none` for a handle that is not live. -/
def fistqSystemDestroyHandle (st : FistqSystem) :
    Option Nat → Option (FistqSystem × Int × List (Nat × DataRelease))
  | none => some (st, -1, [])
  | some fh =>
    (st.list.fq fh).bind fun a =>
      ((st.queues a).queueFree (.lq fh) (st.queues a).fresh).bind fun r₁ =>
        (fistqDestroyHandle st.list (some fh)).bind fun r₂ =>
          let r₃ := if r₂.1.refCount a = 0 then r₁.1.queueFree .internal r₁.1.fresh
            else some (r₁.1, [])
          r₃.map fun r₃ =>
            ({ list := r₂.1, queues := Function.update st.queues a (r₃.1.clearLocal fh) }, r₂.2,
              r₁.2 ++ r₃.2)

/-- A call of the library. -/
inductive FistqSystemCall
  | getHandle (src dst : String) (value : UInt32) (cb : Option Nat)
  | destroyHandle (fh : Option Nat)
  | queue (c : FistqCall)
  deriving DecidableEq, Repr

/-- One call: the new state, the handle and datum a dequeue delivers, and the data released,
each with what became of it; `none` for a call through a handle that is not live, or that cannot
return here. -/
def fistqSystemStep (st : FistqSystem) :
    FistqSystemCall → Option (FistqSystem × Option (Nat × Nat) × List (Nat × DataRelease))
  | .getHandle src dst value cb =>
    (fistqSystemGetHandle st src dst value cb).map fun r => (r.1, none, [])
  | .destroyHandle fh => (fistqSystemDestroyHandle st fh).map fun r => (r.1, none, r.2.2)
  | .queue c =>
    (st.list.fq c.handle).bind fun a =>
      (fistqStep (st.queues a) c).map fun r =>
        ({ st with queues := Function.update st.queues a r.1 }, r.2, [])

/-- A sequence of calls: the final state, the data delivered, each with the handle that dequeued
it, and the data released, each with what became of it, in order. -/
def fistqSystemRun (st : FistqSystem) :
    List FistqSystemCall → Option (FistqSystem × List (Nat × Nat) × List (Nat × DataRelease))
  | [] => some (st, [], [])
  | c :: cs =>
    (fistqSystemStep st c).bind fun r =>
      (fistqSystemRun r.1 cs).map fun t => (t.1, r.2.1.toList ++ t.2.1, r.2.2 ++ t.2.2)

/-- Calls of the kind `pd3_estimator.c` makes: the client and the aggregator each open a handle on
the same fistq, with `FISTQ_FREE` and no callback, the client enqueues three items and sends only
the second at once (`FISTQ_FLUSH`), the aggregator takes it, and its next timed wait ends at the
deadline. -/
def pd3FistqCalls : List FistqSystemCall :=
  [.getHandle "pd3_estimator_client" "pd3_estimator_aggregator" fistqFree none,
    .getHandle "pd3_estimator_client" "pd3_estimator_aggregator" fistqFree none,
    .queue (.enqueue 0 7 .pinfo .noflush), .queue (.enqueue 0 8 .pinfo .flush),
    .queue (.enqueue 0 9 .pinfo .noflush), .queue (.timeddequeue 1 false),
    .queue (.timeddequeue 1 true)]

/-- The data a call enqueues. -/
def FistqSystemCall.enqueued : FistqSystemCall → List Nat
  | .queue c => enqueuedData [c]
  | _ => []

/-- The options a call passes for the queues it sets up: those of a `fistq_getHandle`. -/
def FistqSystemCall.options : FistqSystemCall → List QueueOptions
  | .getHandle _ _ value cb => [⟨cb, value⟩]
  | _ => []

/-! ### Queues -/

section Queues
variable {s : FistqState} {v : Option QueueId → List Nat}

theorem FistqState.setNext_setNext (l : Loc) (w w' : Option Nat) :
    (s.setNext l w).setNext l w' = s.setNext l w' := by
  simp only [FistqState.setNext, Function.update_idem]

theorem FistqState.clearLocal_setNext (fh : Nat) (w : Option Nat) :
    (s.setNext (.head (.lq fh)) w).clearLocal fh = s.clearLocal fh := by
  rw [FistqState.clearLocal, FistqState.setNext_setNext]
  rfl

/-- **`queue_free`** walks the chain of a queue to its end within `fuel` nodes when the chain has
at most that many, and frees its nodes in order, each datum as the queue's options ask, leaving
`head.next` `NULL`. -/
theorem FistqState.queueFree_chain {q : QueueId} : ∀ {xs : List Nat} {s : FistqState}
    {fuel : Nat}, Chain s.nodeNext (s.next (.head q)) xs → xs.length ≤ fuel →
      s.queueFree q fuel =
        some (s.setNext (.head q) none, xs.map fun x => (s.data x, (s.options q).release))
  | [], s, fuel, hc, _ => by
    have hn : s.next (.head q) = none := hc
    unfold FistqState.queueFree
    rw [hn]
    show some (s, []) = some ({ s with next := _ }, [])
    congr
    rw [← hn, Function.update_eq_self]
  | _ :: _, _, 0, _, hl => absurd hl (by simp)
  | x :: xs, s, fuel + 1, hc, hl => by
    obtain ⟨hx, hc'⟩ := chain_cons.1 hc
    have hc₁ : Chain (s.setNext (.head q) (s.next (.node x))).nodeNext
        ((s.setNext (.head q) (s.next (.node x))).next (.head q)) xs := by
      rw [FistqState.setNext_head_nodeNext, FistqState.setNext_next, Function.update_same]
      exact hc'
    unfold FistqState.queueFree
    rw [hx]
    simp only
    rw [FistqState.queueFree_chain hc₁ (by simpa using hl), Option.map_some',
      FistqState.setNext_setNext]
    rfl

theorem queueHolds_clearLocal (s : FistqState) (fh : Nat) :
    QueueHolds (s.clearLocal fh) (.lq fh) [] :=
  ⟨by simp [FistqState.clearLocal], by simp [FistqState.clearLocal],
    by simp [FistqState.clearLocal]⟩

/-- **Freeing the local queue** of `fh` moves its nodes to those delivered or freed. -/
theorem FistqInv.clearLocal (h : FistqInv s v) (fh : Nat) :
    FistqInv (s.clearLocal fh) (Function.update (Function.update v (some (.lq fh)) []) none
      (v none ++ v (some (.lq fh)))) := by
  refine ⟨fun q => ?_, h.part.update₂ (by simp) (by simpa using List.perm_append_comm), h.data⟩
  rw [Function.update_noteq (by simp)]
  by_cases hq : q = .lq fh
  · subst hq
    rw [Function.update_same]
    exact queueHolds_clearLocal s fh
  · rw [Function.update_noteq (by simpa using hq)]
    exact (((h.holds q).setNext (by simpa using Ne.symm hq) (fun _ _ => by simp) none).setTail
      (Ne.symm hq) _).setSize (Ne.symm hq) _

/-- Setting the options of a queue keeps the ownership. -/
theorem FistqInv.setOptions (h : FistqInv s v) (q : QueueId) (o : QueueOptions) :
    FistqInv (s.setOptions q o) v :=
  ⟨fun q' => (h.holds q').congr rfl (fun _ _ => rfl) rfl rfl, h.part, h.data⟩

/-- A new handle, whose local queue holds nothing, keeps the ownership. -/
theorem FistqInv.initHandle (h : FistqInv s v) {fh : Nat} {o : QueueOptions}
    (hfh : v (some (.lq fh)) = []) : FistqInv (s.initHandle fh o) v := by
  have hv : Function.update (Function.update v (some (.lq fh)) []) none
      (v none ++ v (some (.lq fh))) = v := by
    rw [hfh, List.append_nil, ← hfh, Function.update_eq_self, Function.update_eq_self]
  have h' := h.clearLocal fh
  rw [hv] at h'
  exact ⟨fun q => (h'.holds q).congr rfl (fun _ _ => rfl) rfl rfl, h'.part, h'.data⟩

/-- The data on the queues of `s`: those of its nodes that were neither delivered nor freed. -/
def queuedData (s : FistqState) (v : Option QueueId → List Nat) : List Nat :=
  ((List.range s.fresh).filter fun x => x ∉ v none).map s.data

/-- The nodes `calloc` returned are those delivered or freed, and those on a queue. -/
theorem FistqInv.range_perm (h : FistqInv s v) :
    (List.range s.fresh).Perm (v none ++ (List.range s.fresh).filter fun x => x ∉ v none) := by
  have hv : ((List.range s.fresh).filter fun x => x ∈ v none).Perm (v none) :=
    (List.perm_ext_iff_of_nodup ((List.nodup_range _).filter _) (h.part.nodup none)).2
      fun x => by simpa using fun hx => h.part.lt hx
  have hp := List.filter_append_perm (fun x => decide (x ∈ v none)) (List.range s.fresh)
  simp only [← decide_not] at hp
  exact hp.symm.trans (hv.append_right _)

/-- **One step on the queues**: the data on them, with those the step enqueues, are those it
delivers or frees and those on the queues after it. -/
theorem FistqInv.queued_step {s' : FistqState} {v' : Option QueueId → List Nat}
    {out ds : List Nat} (h : FistqInv s v) (h' : FistqInv s' v') (hv : v' none = v none ++ out)
    (ha : Allocated s s' ds) :
    (queuedData s v ++ ds).Perm (out.map s'.data ++ queuedData s' v') := by
  have hd : (v none).map s'.data = (v none).map s.data :=
    List.map_congr_left fun x hx => ha.data_eq (h.part.lt hx)
  rw [← List.perm_append_left_iff ((v none).map s.data)]
  calc (v none).map s.data ++ (queuedData s v ++ ds)
      = (v none ++ (List.range s.fresh).filter fun x => x ∉ v none).map s.data ++ ds := by
        simp [queuedData]
    List.Perm _ ((List.range s.fresh).map s.data ++ ds) :=
        (h.range_perm.map _).symm.append_right _
    _ = (List.range s'.fresh).map s'.data := ha.symm
    List.Perm _ ((v' none ++ (List.range s'.fresh).filter fun x => x ∉ v' none).map s'.data) :=
        h'.range_perm.map _
    _ = (v none).map s.data ++ (out.map s'.data ++ queuedData s' v') := by
        simp [queuedData, hv, hd]

/-- With the local queues of the handles other than `hh` empty, the data on the queues are
those on the local queue of `hh` and then on the internal queue. -/
theorem FistqInv.queued_eq_dequeueOrder (h : FistqInv s v) {hh : Nat}
    (hl : ∀ fh, fh ≠ hh → v (some (.lq fh)) = []) :
    (queuedData s v).Perm ((dequeueOrder v hh).map s.data) := by
  refine List.Perm.map _ ((List.perm_ext_iff_of_nodup ((List.nodup_range _).filter _)
    (h.part.nodup_append (by simp))).2 fun x => ?_)
  simp only [List.mem_filter, List.mem_range, decide_eq_true_eq, dequeueOrder, List.mem_append]
  constructor
  · rintro ⟨hx, hxn⟩
    obtain ⟨i, hi⟩ := (h.part.mem x).1 hx
    rcases i with _ | _ | fh
    · exact absurd hi hxn
    · exact .inr hi
    · rcases eq_or_ne fh hh with rfl | hfh
      · exact .inl hi
      · rw [hl fh hfh] at hi
        exact absurd hi (List.not_mem_nil _)
  · rintro (hx | hx) <;> exact ⟨h.part.lt hx, h.part.not_mem (by simp) hx⟩

/-! The calls on the queues write no option. -/

theorem fistqFlush_options (s : FistqState) (h : Nat) : (fistqFlush s h).1.options = s.options := by
  unfold fistqFlush
  split_ifs <;> rfl

theorem fistqEnqueueAny_options (s : FistqState) (h data : Nat) (type : FistqDataType)
    (op : FlushOption) : (fistqEnqueueAny s h data type op).1.options = s.options := by
  unfold fistqEnqueueAny
  split_ifs
  · rfl
  · rfl
  · dsimp only
    split_ifs
    · exact fistqFlush_options _ h
    · rfl

theorem FistqState.popLocal_options {h : Nat} {r : FistqState × Nat × FistqDataType}
    (hp : s.popLocal h = some r) : r.1.options = s.options := by
  unfold FistqState.popLocal at hp
  split at hp
  · cases hp
  · cases hp
    split_ifs <;> rfl

theorem fistqStep_options {c : FistqCall} {r : FistqState × Option (Nat × Nat)}
    (hs : fistqStep s c = some r) : r.1.options = s.options := by
  cases c with
  | enqueue h data type op =>
    cases hs
    exact fistqEnqueueAny_options s h data type op
  | flush h =>
    cases hs
    exact fistqFlush_options s h
  | dequeue h =>
    obtain ⟨r', hd, rfl⟩ := Option.map_eq_some'.1 hs
    unfold fistqDequeueAny at hd
    split_ifs at hd
    · -- the local queue was refilled from the internal one
      dsimp only at hd
      split_ifs at hd
      · cases hd
        rfl
      · exact (FistqState.popLocal_options hd :)
    · exact FistqState.popLocal_options hd
  | timeddequeue h timedOut =>
    obtain ⟨r', hd, rfl⟩ := Option.map_eq_some'.1 hs
    unfold fistqTimeddequeueAny at hd
    split_ifs at hd
    · -- the deadline passed
      cases hd
      rfl
    · exact (FistqState.popLocal_options hd :)
    · exact FistqState.popLocal_options hd

end Queues

/-! ### The invariant -/

/-- **The invariant of the library**: the list of fistqs keeps its invariant with the fistqs
`l`, the queues of each fistq `a` on it keep the ownership `v a`, and the local queue of a handle
that is not connected to `a` is empty among `a`'s queues. -/
structure FistqSystemInv (st : FistqSystem) (l : List Nat)
    (v : Nat → Option QueueId → List Nat) : Prop where
  list : FistqListInv st.list l
  queues : ∀ a ∈ l, FistqInv (st.queues a) (v a)
  idle : ∀ a ∈ l, ∀ fh, st.list.fq fh ≠ some a → v a (some (.lq fh)) = []

theorem fistqSystemInv_init : FistqSystemInv .init [] fun _ _ => [] :=
  ⟨fistqListInv_init, nofun, nofun⟩

/-- The data on the queues of the fistqs on `l`. -/
def FistqSystem.queued (st : FistqSystem) (l : List Nat)
    (v : Nat → Option QueueId → List Nat) : List Nat :=
  l.flatMap fun a => queuedData (st.queues a) (v a)

/-- What has been allocated: at most `k` fistqs, and at most `k` nodes in each fistq on `l`. -/
def FistqSystem.Bounded (st : FistqSystem) (l : List Nat) (k : Nat) : Prop :=
  st.list.fresh ≤ k ∧ ∀ a ∈ l, (st.queues a).fresh ≤ k

section Inv
variable {st : FistqSystem} {l : List Nat} {v : Nat → Option QueueId → List Nat} {k : Nat}

theorem FistqSystem.queued_perm_erase {a : Nat} (ha : a ∈ l) :
    (st.queued l v).Perm (queuedData (st.queues a) (v a) ++ st.queued (l.erase a) v) := by
  simpa [FistqSystem.queued] using (List.perm_cons_erase ha).flatMap_right _

theorem FistqSystem.queued_congr {st' : FistqSystem} {l : List Nat}
    {v' : Nat → Option QueueId → List Nat}
    (h : ∀ b ∈ l, queuedData (st'.queues b) (v' b) = queuedData (st.queues b) (v b)) :
    st'.queued l v' = st.queued l v :=
  List.flatMap_congr h

/-- A call on the queues of `a` leaves those of the fistqs on `l`, when `a` is not on it. -/
theorem FistqSystem.queued_update_of_not_mem {a : Nat} (ha : a ∉ l) (list : FistqList)
    (q : FistqState) (va : Option QueueId → List Nat) :
    FistqSystem.queued ⟨list, Function.update st.queues a q⟩ l (Function.update v a va) =
      st.queued l v :=
  FistqSystem.queued_congr fun b hb => by
    have hba : b ≠ a := fun he => ha (he ▸ hb)
    show queuedData (Function.update st.queues a q b) _ = _
    rw [Function.update_noteq hba, Function.update_noteq hba]

/-- New queues for a fistq `a` on `l`: the data on the queues are those of `a`, then those of the
other fistqs. -/
theorem FistqSystem.queued_update (hl : l.Nodup) {a : Nat} (ha : a ∈ l) (list : FistqList)
    (q : FistqState) (va : Option QueueId → List Nat) :
    (FistqSystem.queued ⟨list, Function.update st.queues a q⟩ l (Function.update v a va)).Perm
      (queuedData q va ++ st.queued (l.erase a) v) := by
  have e := @FistqSystem.queued_perm_erase ⟨list, Function.update st.queues a q⟩ _
    (Function.update v a va) _ ha
  rw [FistqSystem.queued_update_of_not_mem hl.not_mem_erase] at e
  simpa only [Function.update_same] using e

/-- **New queues for one fistq `a`**, with the new list of fistqs `list` on `l'`, keep the
invariant when `l'` has no fistq that `l` has not but `a`, the new queues of `a` are well owned,
and a handle that `list` does not connect to another fistq was not connected to it before. -/
theorem FistqSystemInv.update (h : FistqSystemInv st l v) {list : FistqList} {l' : List Nat}
    {a : Nat} {q : FistqState} {va : Option QueueId → List Nat} (hl : FistqListInv list l')
    (hsub : ∀ b ∈ l', b ≠ a → b ∈ l) (hq : a ∈ l' → FistqInv q va)
    (hidle : a ∈ l' → ∀ fh, list.fq fh ≠ some a → va (some (.lq fh)) = [])
    (hfq : ∀ b ∈ l', b ≠ a → ∀ fh, list.fq fh ≠ some b → st.list.fq fh ≠ some b) :
    FistqSystemInv ⟨list, Function.update st.queues a q⟩ l' (Function.update v a va) := by
  refine ⟨hl, fun b hb => ?_, fun b hb fh hfh => ?_⟩ <;> rcases eq_or_ne b a with rfl | hba
  · simpa using hq hb
  · simpa [Function.update_noteq hba] using h.queues b (hsub b hb hba)
  · simpa using hidle hb fh hfh
  · simpa [Function.update_noteq hba] using h.idle b (hsub b hb hba) fh (hfq b hb hba fh hfh)

theorem FistqSystem.Bounded.update (hb : st.Bounded l k) {list : FistqList} {l' : List Nat}
    {a : Nat} {q : FistqState} {k' : Nat} (hk : k ≤ k') (hlist : list.fresh ≤ k')
    (hsub : ∀ b ∈ l', b ≠ a → b ∈ l) (hq : a ∈ l' → q.fresh ≤ k') :
    FistqSystem.Bounded ⟨list, Function.update st.queues a q⟩ l' k' :=
  ⟨hlist, fun b hb' => by
    rcases eq_or_ne b a with rfl | hba
    · simpa using hq hb'
    · simpa [Function.update_noteq hba] using (hb.2 b (hsub b hb' hba)).trans hk⟩

/-- **A call on the queues** of the fistq of its handle keeps the invariant, and the data it
enqueues, with those queued before, are those it delivers and those queued after. -/
theorem FistqSystemInv.queue (h : FistqSystemInv st l v) (hb : st.Bounded l k)
    (hk : k + 1 < 2 ^ 32) {c : FistqCall} {st' : FistqSystem} {e : Option (Nat × Nat)}
    {d : List (Nat × DataRelease)} (hs : fistqSystemStep st (.queue c) = some (st', e, d)) :
    ∃ v', FistqSystemInv st' l v' ∧ st'.Bounded l (k + 1) ∧
      (enqueuedData [c] ++ st.queued l v).Perm
        (e.toList.map Prod.snd ++ d.map Prod.fst ++ st'.queued l v') := by
  obtain ⟨a, ha, hs⟩ := Option.bind_eq_some.1 hs
  obtain ⟨⟨s', e'⟩, hs', he⟩ := Option.map_eq_some'.1 hs
  obtain ⟨rfl, rfl, rfl⟩ : _ = st' ∧ e' = e ∧ [] = d := by simpa using he
  have hal : a ∈ l := (h.list.fq _ _ ha).2
  obtain ⟨va, out, h', hv, hout, hloc, -, halloc⟩ :=
    (h.queues a hal).step (by have := hb.2 a hal; omega) hs'
  refine ⟨Function.update v a va,
    h.update h.list (fun b hb' _ => hb') (fun _ => h') (fun _ fh hfh => ?_) fun _ _ _ _ => id,
    hb.update k.le_succ (Nat.le_succ_of_le hb.1) (fun b hb' _ => hb') fun _ => ?_, ?_⟩
  · -- the call touches no other handle's local queue
    rw [hloc fh fun he => hfh (he ▸ ha)]
    exact h.idle a hal fh hfh
  · have := halloc.fresh_eq
    have := length_enqueuedData_singleton c
    have := hb.2 a hal
    omega
  · calc List.Perm (enqueuedData [c] ++ st.queued l v)
          (enqueuedData [c] ++ (queuedData (st.queues a) (v a) ++ st.queued (l.erase a) v)) :=
          (FistqSystem.queued_perm_erase hal).append_left _
      List.Perm _ ((queuedData (st.queues a) (v a) ++ enqueuedData [c]) ++
          st.queued (l.erase a) v) := by
          rw [← List.append_assoc]
          exact List.perm_append_comm.append_right _
      List.Perm _ ((out.map s'.data ++ queuedData s' va) ++ st.queued (l.erase a) v) :=
          ((h.queues a hal).queued_step h' hv halloc).append_right _
      List.Perm _ (e'.toList.map Prod.snd ++ ([] : List (Nat × DataRelease)).map Prod.fst ++
          FistqSystem.queued ⟨st.list, Function.update st.queues a s'⟩ l
            (Function.update v a va)) := by
          rw [hout, List.map_nil, List.append_nil, List.append_assoc]
          exact (FistqSystem.queued_update h.list.nodup hal _ _ _).symm.append_left _

/-- **`fistq_getHandle`** keeps the invariant, and leaves the data on the queues as they were. -/
theorem FistqSystemInv.getHandle (h : FistqSystemInv st l v) (hb : st.Bounded l k)
    (hk : k + 1 < 2 ^ 32) {src dst : String} {value : UInt32} {cb : Option Nat}
    {st' : FistqSystem} {r : Option Nat}
    (hg : fistqSystemGetHandle st src dst value cb = some (st', r)) :
    ∃ l' v', FistqSystemInv st' l' v' ∧ st'.Bounded l' (k + 1) ∧
      st'.queued l' v' = st.queued l v := by
  by_cases hne : src = "" ∨ dst = ""
  · -- `NULL`, with nothing allocated
    simp only [fistqSystemGetHandle, fistqGetHandle, if_pos hne, Option.map_some',
      Option.some.injEq, Prod.mk.injEq] at hg
    obtain ⟨rfl, -⟩ := hg
    exact ⟨l, v, h, ⟨Nat.le_succ_of_le hb.1, fun a ha => Nat.le_succ_of_le (hb.2 a ha)⟩, rfl⟩
  obtain ⟨s', l', a, hgh, h', hfq, -, -, hhf, hl', hold, -⟩ :=
    h.list.getHandle (by have := hb.1; omega) hne
  have hnew : st.list.fq st.list.hfresh = none :=
    Option.eq_none_iff_forall_not_mem.2 fun b hb => lt_irrefl _ (h.list.fq _ b hb).1
  -- a handle that the new list does not connect to a fistq was not connected to it before
  have hfq' : ∀ b fh, s'.fq fh ≠ some b → st.list.fq fh ≠ some b := fun b fh hfh => by
    rcases eq_or_ne fh st.list.hfresh with rfl | hfh'
    · rw [hnew]
      exact nofun
    · rwa [← hold fh hfh']
  simp only [fistqSystemGetHandle, hgh, Option.map_some', hfq, Option.some.injEq,
    Prod.mk.injEq] at hg
  obtain ⟨rfl, -⟩ := hg
  rcases hl' with ⟨hal, hll, hfr⟩ | ⟨rfl, rfl, hfr⟩
  · -- `fistq_find_unsafe` found `a`
    rw [hll] at h'
    have haf : a ≠ st.list.fresh := (h.list.lt a hal).ne
    simp only [if_neg haf]
    refine ⟨l, v, ⟨h', fun b hb' => ?_, fun b hb' fh hfh => h.idle b hb' fh (hfq' b fh hfh)⟩,
      ⟨by dsimp only; have := hb.1; omega, fun b hb' => ?_⟩,
      FistqSystem.queued_congr fun b _ => ?_⟩ <;> rcases eq_or_ne b a with rfl | hba
    · simpa using (h.queues b hb').initHandle (h.idle b hb' _ (by rw [hnew]; exact nofun))
    · simpa [Function.update_noteq hba] using h.queues b hb'
    · simpa [FistqState.initHandle, FistqState.clearLocal, FistqState.setOptions] using
        Nat.le_succ_of_le (hb.2 b hb')
    · simpa [Function.update_noteq hba] using Nat.le_succ_of_le (hb.2 b hb')
    · simp only [Function.update_same]
      rfl
    · simp only [Function.update_noteq hba]
  · -- `fistq_create_unsafe` made a fistq at `fresh`, with its queues empty
    rw [if_pos rfl]
    have hbf : ∀ b ∈ l, b ≠ st.list.fresh := fun b hb => (h.list.lt b hb).ne
    have hsub : ∀ b ∈ st.list.fresh :: l, b ≠ st.list.fresh → b ∈ l := fun b hb' hb =>
      (List.mem_cons.1 hb').resolve_left hb
    refine ⟨st.list.fresh :: l, Function.update v st.list.fresh fun _ => [],
      h.update h' hsub (fun _ => (fistqInv_init.setOptions .internal _).initHandle rfl)
        (fun _ _ _ => rfl)
        fun b _ _ => hfq' b,
      hb.update k.le_succ (by have := hb.1; omega) hsub fun _ => Nat.zero_le _, ?_⟩
    · rw [FistqSystem.queued, List.flatMap_cons, Function.update_same]
      show queuedData (Function.update st.queues st.list.fresh _ st.list.fresh) _ ++ _ = _
      rw [Function.update_same]
      exact FistqSystem.queued_update_of_not_mem (fun hm => hbf _ hm rfl) s' _ _

/-- The nodes `fistq_destroyHandle(x)` frees, `x` being a handle of a fistq with the ownership
`v` and the `ref_count` `rc`: those on the local queue of `x`, then, when `x` is the last handle,
those on the internal queue. -/
def destroyedNodes (v : Option QueueId → List Nat) (x : Nat) (rc : Int) : List Nat :=
  v (some (.lq x)) ++ if rc = 1 then v (some .internal) else []

/-- What `fistq_destroyHandle(x)` releases, `x` being a handle of the fistq `s` with the ownership
`v` and the `ref_count` `rc`: the data of the nodes `destroyedNodes`, each with what the options
of its queue make `queue_free` do with it. -/
def destroyedData (s : FistqState) (v : Option QueueId → List Nat) (x : Nat) (rc : Int) :
    List (Nat × DataRelease) :=
  (v (some (.lq x))).map (fun n => (s.data n, (s.options (.lq x)).release)) ++
    if rc = 1 then (v (some .internal)).map fun n => (s.data n, (s.options .internal).release)
    else []

theorem map_fst_destroyedData (s : FistqState) (v : Option QueueId → List Nat) (x : Nat)
    (rc : Int) : (destroyedData s v x rc).map Prod.fst = (destroyedNodes v x rc).map s.data := by
  unfold destroyedData destroyedNodes
  split_ifs <;> simp [Function.comp_def]

/-- New queues for the fistq `a` with its options keep the options of every fistq. -/
theorem options_update {qs : Nat → FistqState} {a : Nat} {q : FistqState}
    (h : q.options = (qs a).options) (b : Nat) :
    (Function.update qs a q b).options = (qs b).options := by
  rcases eq_or_ne b a with rfl | hba
  · rw [Function.update_same, h]
  · rw [Function.update_noteq hba]

/-- **`fistq_destroyHandle`** of a live handle `x` keeps the invariant and frees the nodes on its
local queue and, when it is the last handle of its fistq `a`, those on the internal queue,
releasing their data as the options of their queues ask: the data on the queues before it are
those it releases and those on the queues after it. It writes no option, and disconnects `x`. -/
theorem FistqSystemInv.destroyHandle (h : FistqSystemInv st l v) {x a : Nat}
    (hxa : st.list.fq x = some a) :
    ∃ st' l' v', fistqSystemDestroyHandle st (some x) =
        some (st', 0, destroyedData (st.queues a) (v a) x (st.list.refCount a)) ∧
      FistqSystemInv st' l' v' ∧ st'.list.fresh = st.list.fresh ∧
      (∀ b ∈ l', b ∈ l ∧ (st'.queues b).fresh = (st.queues b).fresh) ∧
      st'.list.fq = Function.update st.list.fq x none ∧
      (∀ b, (st'.queues b).options = (st.queues b).options) ∧
      (st.queued l v).Perm
        ((destroyedNodes (v a) x (st.list.refCount a)).map (st.queues a).data ++
          st'.queued l' v') := by
  have hal : a ∈ l := (h.list.fq x a hxa).2
  have ha := h.queues a hal
  have hnd := h.list.nodup
  have hlen : ∀ q, (v a (some q)).length ≤ (st.queues a).fresh := fun q =>
    length_le_of_lt (ha.part.nodup _) fun y hy => ha.part.lt hy
  obtain ⟨s', l', hd, h', -, hfr, -, -, hfq, hrc, hl'⟩ := h.list.destroyHandle hxa
  -- a handle that the new list does not connect to a fistq `b` was not connected to it before,
  -- unless it is `x` and `b` is `a`
  have hfq' : ∀ b fh, s'.fq fh ≠ some b → (b = a → fh ≠ x) → st.list.fq fh ≠ some b :=
    fun b fh hfh hx => by
      rcases eq_or_ne fh x with rfl | hfx
      · rw [hxa]
        exact fun he => hx (Option.some.inj he).symm rfl
      · rwa [hfq, Function.update_noteq hfx] at hfh
  have hf₁ := FistqState.queueFree_chain (ha.holds (.lq x)).chain (hlen _)
  simp only [fistqSystemDestroyHandle, hxa, Option.some_bind, hf₁, hd]
  by_cases h1 : st.list.refCount a = 1
  · -- the last handle: `fistq_free` frees the internal queue, and `a` leaves the list
    have h0 : s'.refCount a = 0 := by rw [hrc, h1]; rfl
    have hci : Chain ((st.queues a).setNext (.head (.lq x)) none).nodeNext
        (((st.queues a).setNext (.head (.lq x)) none).next (.head .internal))
        (v a (some .internal)) := by
      rw [FistqState.setNext_head_nodeNext, FistqState.setNext_next,
        Function.update_noteq (by simp)]
      exact (ha.holds .internal).chain
    have hothers : ∀ fh, fh ≠ x → v a (some (.lq fh)) = [] := fun fh hfx =>
      h.idle a hal fh fun he => hfx <| List.mem_singleton.1 <|
        h.list.handlesOf_eq_singleton hxa h1 ▸ FistqList.mem_handlesOf.2 ⟨(h.list.fq fh a he).1, he⟩
    have hmem : ∀ b, b ∈ l' ↔ b ∈ l.erase a := fun b => by
      rw [hl', hnd.mem_erase_iff, h1]
      simp [and_comm]
    have hf₂ : ((st.queues a).setNext (.head (.lq x)) none).queueFree .internal
        ((st.queues a).setNext (.head (.lq x)) none).fresh =
          some (((st.queues a).setNext (.head (.lq x)) none).setNext (.head .internal) none,
            (v a (some .internal)).map fun n =>
              ((st.queues a).data n, ((st.queues a).options .internal).release)) :=
      FistqState.queueFree_chain hci (hlen _)
    simp only [h0, if_true, hf₂, Option.map_some', destroyedNodes, destroyedData, h1]
    have hne : ∀ b ∈ l', b ≠ a ∧ b ∈ l := fun b hb =>
      (hnd.mem_erase_iff.1 ((hmem b).1 hb))
    have hal' : a ∉ l' := fun ha' => (hne a ha').1 rfl
    refine ⟨_, l', Function.update v a fun _ => [], rfl,
      h.update h' (fun b hb _ => (hne b hb).2) (absurd · hal') (absurd · hal')
        fun b _ hba fh hfh => hfq' b fh hfh (absurd · hba),
      hfr, fun b hb => ⟨(hne b hb).2, by simp [Function.update_noteq (hne b hb).1]⟩, hfq,
      options_update rfl, ?_⟩
    · have hperm : l'.Perm (l.erase a) := (List.perm_ext_iff_of_nodup h'.nodup (hnd.erase a)).2 hmem
      calc List.Perm (st.queued l v)
            (queuedData (st.queues a) (v a) ++ st.queued (l.erase a) v) :=
            FistqSystem.queued_perm_erase hal
        List.Perm _ ((dequeueOrder (v a) x).map (st.queues a).data ++ st.queued (l.erase a) v) :=
            (ha.queued_eq_dequeueOrder hothers).append_right _
        _ = _ := by
          rw [← FistqSystem.queued_update_of_not_mem hnd.not_mem_erase s' _ (fun _ => [])]
          rfl
        List.Perm _ _ := List.Perm.append_left _ (hperm.flatMap_right _).symm
  · -- `a` keeps its other handles
    have h0 : s'.refCount a ≠ 0 := by
      rw [hrc]
      omega
    simp only [h0, if_false, Option.map_some', destroyedNodes, destroyedData, h1, List.append_nil,
      FistqState.clearLocal_setNext]
    have hmem : ∀ b, b ∈ l' ↔ b ∈ l := fun b => by
      rw [hl']
      simp [h1]
    have hv₁ := ha.clearLocal x
    refine ⟨_, l', _, rfl, h.update h' (fun b hb _ => (hmem b).1 hb) (fun _ => hv₁)
        (fun _ fh hfh => ?_) (fun b _ hba fh hfh => hfq' b fh hfh (absurd · hba)), hfr,
      fun b hb => ⟨(hmem b).1 hb, ?_⟩, hfq, options_update rfl, ?_⟩
    · -- the other handles of `a` keep their empty local queues
      rcases eq_or_ne fh x with rfl | hfx
      · simp
      · rw [Function.update_noteq (by simp), Function.update_noteq (by simpa using hfx)]
        exact h.idle a hal fh (hfq' a fh hfh fun _ => hfx)
    · rcases eq_or_ne b a with rfl | hba
      · simp [FistqState.clearLocal]
      · simp [Function.update_noteq hba]
    · have hperm : l.Perm l' := (List.perm_ext_iff_of_nodup hnd h'.nodup).2 fun b => (hmem b).symm
      calc List.Perm (st.queued l v)
            (queuedData (st.queues a) (v a) ++ st.queued (l.erase a) v) :=
            FistqSystem.queued_perm_erase hal
        List.Perm _ (((v a (some (.lq x))).map (st.queues a).data ++
            queuedData ((st.queues a).clearLocal x) _) ++ st.queued (l.erase a) v) :=
            List.Perm.append_right _
              (by simpa using ha.queued_step hv₁ (by simp) (Allocated.of_eq rfl rfl))
        List.Perm _ _ := by
          rw [List.append_assoc]
          exact ((FistqSystem.queued_update hnd hal _ _ _).symm.trans
            (hperm.flatMap_right _)).append_left _

theorem FistqSystem.Bounded.mono (hb : st.Bounded l k) {k' : Nat} (hk : k ≤ k') :
    st.Bounded l k' :=
  ⟨hb.1.trans hk, fun a ha => (hb.2 a ha).trans hk⟩

/-- Every call keeps the invariant and accounts for every item: those it enqueues, with those
queued before it, are those it delivers, those it releases and those queued after it. -/
theorem FistqSystemInv.step (h : FistqSystemInv st l v) (hb : st.Bounded l k)
    (hk : k + 1 < 2 ^ 32) {c : FistqSystemCall} {st' : FistqSystem} {e : Option (Nat × Nat)}
    {d : List (Nat × DataRelease)} (hs : fistqSystemStep st c = some (st', e, d)) :
    ∃ l' v', FistqSystemInv st' l' v' ∧ st'.Bounded l' (k + 1) ∧
      (c.enqueued ++ st.queued l v).Perm
        (e.toList.map Prod.snd ++ d.map Prod.fst ++ st'.queued l' v') := by
  cases c with
  | getHandle src dst value cb =>
    obtain ⟨⟨st₁, r⟩, hg, he⟩ := Option.map_eq_some'.1 hs
    simp only [Prod.mk.injEq] at he
    obtain ⟨rfl, rfl, rfl⟩ := he
    obtain ⟨l', v', h', hb', hq⟩ := h.getHandle hb hk hg
    exact ⟨l', v', h', hb', by simp [FistqSystemCall.enqueued, hq]⟩
  | destroyHandle fh =>
    obtain ⟨⟨st₁, rc, fr⟩, hd, he⟩ := Option.map_eq_some'.1 hs
    simp only [Prod.mk.injEq] at he
    obtain ⟨rfl, rfl, rfl⟩ := he
    cases fh with
    | none =>
      simp only [fistqSystemDestroyHandle, Option.some.injEq, Prod.mk.injEq] at hd
      obtain ⟨rfl, -, rfl⟩ := hd
      exact ⟨l, v, h, hb.mono k.le_succ, by simp [FistqSystemCall.enqueued]⟩
    | some x =>
      cases hxa : st.list.fq x with
      | none => simp [fistqSystemDestroyHandle, hxa] at hd
      | some a =>
        obtain ⟨st₂, l', v', hd', h', hfr, hl', -, -, hq⟩ := h.destroyHandle hxa
        rw [hd'] at hd
        simp only [Option.some.injEq, Prod.mk.injEq] at hd
        obtain ⟨rfl, -, rfl⟩ := hd
        refine ⟨l', v', h', ⟨by rw [hfr]; exact hb.1.trans k.le_succ, fun b hb' => ?_⟩,
          by simpa [FistqSystemCall.enqueued, map_fst_destroyedData] using hq⟩
        rw [(hl' b hb').2]
        exact (hb.2 b (hl' b hb').1).trans k.le_succ
  | queue c =>
    obtain ⟨v', h', hb', hq⟩ := h.queue hb hk hs
    exact ⟨l, v', h', hb', hq⟩

/-- **A run keeps the invariant and accounts for every item**: the items a run enqueues, with
those queued before it, are those it delivers, those it releases and those queued after it. -/
theorem FistqSystemInv.run : ∀ {calls : List FistqSystemCall} {st st' : FistqSystem}
    {l : List Nat} {v : Nat → Option QueueId → List Nat} {k : Nat} {tr : List (Nat × Nat)}
    {d : List (Nat × DataRelease)}, FistqSystemInv st l v → st.Bounded l k →
    k + calls.length < 2 ^ 32 → fistqSystemRun st calls = some (st', tr, d) →
    ∃ l' v', FistqSystemInv st' l' v' ∧ st'.Bounded l' (k + calls.length) ∧
      (calls.flatMap FistqSystemCall.enqueued ++ st.queued l v).Perm
        (tr.map Prod.snd ++ d.map Prod.fst ++ st'.queued l' v')
  | [], st, st', l, v, k, tr, d, h, hb, _, hr => by
    simp only [fistqSystemRun, Option.some.injEq, Prod.mk.injEq] at hr
    obtain ⟨rfl, rfl, rfl⟩ := hr
    exact ⟨l, v, h, hb, by simp⟩
  | c :: cs, st, st', l, v, k, tr, d, h, hb, hk, hr => by
    obtain ⟨⟨st₁, e, d₁⟩, hs, hr₁⟩ := Option.bind_eq_some.1 hr
    obtain ⟨⟨st₂, tr₂, d₂⟩, hr₂, heq⟩ := Option.map_eq_some'.1 hr₁
    simp only [Prod.mk.injEq] at heq
    obtain ⟨rfl, rfl, rfl⟩ := heq
    simp only [List.length_cons] at hk
    obtain ⟨l₁, v₁, h₁, hb₁, hp₁⟩ := h.step hb (by omega) hs
    obtain ⟨l₂, v₂, h₂, hb₂, hp₂⟩ := FistqSystemInv.run h₁ hb₁ (by omega) hr₂
    refine ⟨l₂, v₂, h₂, by simpa [Nat.add_assoc, Nat.add_comm 1] using hb₂, ?_⟩
    -- the two ledgers, added up item by item
    rw [List.perm_iff_count] at hp₁ hp₂ ⊢
    intro n
    have h₁ := hp₁ n
    have h₂ := hp₂ n
    simp only [List.flatMap_cons, List.map_append, List.count_append] at h₁ h₂ ⊢
    omega

end Inv

/-- With no handle left, no fistq is left on the list. -/
theorem FistqListInv.eq_nil_of_fq_none {s : FistqList} {l : List Nat} (h : FistqListInv s l)
    (hfq : ∀ fh, s.fq fh = none) : l = [] :=
  List.eq_nil_iff_forall_not_mem.2 fun a ha => (h.refCount a ha).2 <|
    List.eq_nil_iff_forall_not_mem.2 fun fh hfh => by
      simpa [hfq fh] using (FistqList.mem_handlesOf.1 hfh).2

/-! ### What becomes of the data -/

/-- The options of the local queue of every live handle, and of the internal queue of its fistq,
are among `os`: those are the queues a `fistq_destroyHandle` can free. -/
def OptionsFrom (st : FistqSystem) (os : List QueueOptions) : Prop :=
  ∀ fh a, st.list.fq fh = some a →
    (st.queues a).options (.lq fh) ∈ os ∧ (st.queues a).options .internal ∈ os

theorem optionsFrom_init : OptionsFrom .init [] := fun _ _ h => Option.noConfusion h

/-- The options that the calls pass are those of their `fistq_getHandle`s. -/
theorem mem_flatMap_options {calls : List FistqSystemCall} {o : QueueOptions}
    (h : o ∈ calls.flatMap FistqSystemCall.options) :
    ∃ src dst, FistqSystemCall.getHandle src dst o.freeData o.cb ∈ calls := by
  obtain ⟨c, hc, hoc⟩ := List.mem_flatMap.1 h
  cases c with
  | getHandle src dst value cb =>
    obtain rfl := List.mem_singleton.1 hoc
    exact ⟨src, dst, hc⟩
  | destroyHandle => exact absurd hoc (List.not_mem_nil _)
  | queue => exact absurd hoc (List.not_mem_nil _)

section Options
variable {st st' : FistqSystem} {l : List Nat} {v : Nat → Option QueueId → List Nat} {k : Nat}
  {os : List QueueOptions}

theorem OptionsFrom.mono (ho : OptionsFrom st os) {os' : List QueueOptions} (hs : os ⊆ os') :
    OptionsFrom st os' :=
  fun fh a ha => ⟨hs (ho fh a ha).1, hs (ho fh a ha).2⟩

/-- **`fistq_getHandle(src, dst, value, cb)`** gives the local queue of the new handle the
options `⟨cb, value⟩`, and the internal queue of a fistq it creates the same; it writes no option
of another live queue. -/
theorem OptionsFrom.getHandle (h : FistqSystemInv st l v) (ho : OptionsFrom st os)
    (hf : st.list.fresh + 1 < 2 ^ 32) {src dst : String} {value : UInt32} {cb : Option Nat}
    {r : Option Nat} (hg : fistqSystemGetHandle st src dst value cb = some (st', r)) :
    OptionsFrom st' (os ++ [⟨cb, value⟩]) := by
  by_cases hne : src = "" ∨ dst = ""
  · -- `NULL`, with nothing allocated
    simp only [fistqSystemGetHandle, fistqGetHandle, if_pos hne, Option.map_some',
      Option.some.injEq, Prod.mk.injEq] at hg
    obtain ⟨rfl, -⟩ := hg
    exact ho.mono (List.subset_append_left _ _)
  obtain ⟨s', l', a, hgh, -, hfq, -, -, -, hl', hold, -⟩ := h.list.getHandle hf hne
  simp only [fistqSystemGetHandle, hgh, Option.map_some', hfq, Option.some.injEq,
    Prod.mk.injEq] at hg
  obtain ⟨rfl, -⟩ := hg
  intro fh b hfb
  dsimp only at hfb ⊢
  rcases eq_or_ne fh st.list.hfresh with rfl | hfh
  · -- the new handle, connected to `a`
    rw [hfq, Option.some.injEq] at hfb
    subst hfb
    rw [Function.update_same]
    refine ⟨by simp [FistqState.initHandle, FistqState.setOptions], ?_⟩
    rcases hl' with ⟨hal, -, -⟩ | ⟨rfl, -, -⟩
    · -- `a` was on the list: the options of its internal queue are those of its live handles
      obtain ⟨fh', hfh'⟩ := List.exists_mem_of_ne_nil _ (h.list.refCount a hal).2
      rw [if_neg (h.list.lt a hal).ne]
      exact List.mem_append_left _ (ho fh' a (FistqList.mem_handlesOf.1 hfh').2).2
    · rw [if_pos rfl]
      simp [FistqState.initHandle, FistqState.setOptions, FistqState.clearLocal]
  · -- an old handle, connected to `b`
    rw [hold fh hfh] at hfb
    have hbl := (h.list.fq fh b hfb).2
    have ho' := (ho fh b hfb).imp (List.mem_append_left [⟨cb, value⟩])
      (List.mem_append_left [⟨cb, value⟩])
    rcases eq_or_ne b a with rfl | hba
    · rw [Function.update_same, if_neg (h.list.lt b hbl).ne]
      have hne' : QueueId.lq fh ≠ .lq st.list.hfresh := by simpa using hfh
      simpa [FistqState.initHandle, FistqState.setOptions, FistqState.clearLocal, hne'] using ho'
    · rwa [Function.update_noteq hba]

/-- **`fistq_destroyHandle`** writes no option, and releases each datum as the options of its
queue, which are among `os`, ask. -/
theorem OptionsFrom.destroyHandle (h : FistqSystemInv st l v) (ho : OptionsFrom st os)
    {fh : Option Nat} {rc : Int} {d : List (Nat × DataRelease)}
    (hd : fistqSystemDestroyHandle st fh = some (st', rc, d)) :
    OptionsFrom st' os ∧ ∀ r ∈ d, ∃ o ∈ os, r.2 = o.release := by
  cases fh with
  | none =>
    simp only [fistqSystemDestroyHandle, Option.some.injEq, Prod.mk.injEq] at hd
    obtain ⟨rfl, -, rfl⟩ := hd
    exact ⟨ho, nofun⟩
  | some x =>
    cases hxa : st.list.fq x with
    | none => simp [fistqSystemDestroyHandle, hxa] at hd
    | some a =>
      obtain ⟨st₂, -, -, hd', -, -, -, hfq, hopt, -⟩ := h.destroyHandle hxa
      rw [hd', Option.some.injEq, Prod.mk.injEq, Prod.mk.injEq] at hd
      obtain ⟨rfl, -, rfl⟩ := hd
      refine ⟨fun fh b hfb => ?_, fun r hr => ?_⟩
      · rcases eq_or_ne fh x with rfl | hfx
        · simp [hfq] at hfb
        · rw [hfq, Function.update_noteq hfx] at hfb
          rw [hopt]
          exact ho fh b hfb
      · obtain ⟨hl, hi⟩ := ho x a hxa
        simp only [destroyedData, List.mem_append, List.mem_map] at hr
        rcases hr with ⟨n, -, rfl⟩ | hr
        · exact ⟨_, hl, rfl⟩
        · split_ifs at hr
          · obtain ⟨n, -, rfl⟩ := List.mem_map.1 hr
            exact ⟨_, hi, rfl⟩
          · exact absurd hr (List.not_mem_nil _)

/-- A call on the queues writes no option, and releases nothing. -/
theorem OptionsFrom.queue (ho : OptionsFrom st os) {c : FistqCall} {e : Option (Nat × Nat)}
    {d : List (Nat × DataRelease)} (hs : fistqSystemStep st (.queue c) = some (st', e, d)) :
    OptionsFrom st' os ∧ d = [] := by
  obtain ⟨a, -, hs⟩ := Option.bind_eq_some.1 hs
  obtain ⟨⟨s', e'⟩, hs', he⟩ := Option.map_eq_some'.1 hs
  obtain ⟨rfl, -, rfl⟩ : _ = st' ∧ e' = e ∧ [] = d := by simpa using he
  have hq : s'.options = (st.queues a).options := fistqStep_options hs'
  refine ⟨fun fh b hfb => ?_, rfl⟩
  dsimp only at hfb ⊢
  rw [options_update hq]
  exact ho fh b hfb

/-- **Every call** keeps the options of the live queues among those passed so far, and releases
each datum as one of those before it asks. -/
theorem OptionsFrom.step (h : FistqSystemInv st l v) (hb : st.Bounded l k) (hk : k + 1 < 2 ^ 32)
    (ho : OptionsFrom st os) {c : FistqSystemCall} {e : Option (Nat × Nat)}
    {d : List (Nat × DataRelease)} (hs : fistqSystemStep st c = some (st', e, d)) :
    OptionsFrom st' (os ++ c.options) ∧ ∀ r ∈ d, ∃ o ∈ os, r.2 = o.release := by
  cases c with
  | getHandle src dst value cb =>
    obtain ⟨⟨st₁, r⟩, hg, he⟩ := Option.map_eq_some'.1 hs
    simp only [Prod.mk.injEq] at he
    obtain ⟨rfl, -, rfl⟩ := he
    exact ⟨ho.getHandle h (by have := hb.1; omega) hg, nofun⟩
  | destroyHandle fh =>
    obtain ⟨⟨st₁, rc, fr⟩, hd, he⟩ := Option.map_eq_some'.1 hs
    simp only [Prod.mk.injEq] at he
    obtain ⟨rfl, -, rfl⟩ := he
    obtain ⟨ho', hr⟩ := ho.destroyHandle h hd
    exact ⟨by simpa [FistqSystemCall.options] using ho', hr⟩
  | queue c =>
    obtain ⟨ho', rfl⟩ := ho.queue hs
    exact ⟨by simpa [FistqSystemCall.options] using ho', nofun⟩

/-- **Over a run**, the options of the live queues are among those passed before it and by its
`fistq_getHandle`s, and each datum it releases is released as one of those asks. -/
theorem OptionsFrom.run : ∀ {calls : List FistqSystemCall} {st st' : FistqSystem}
    {l : List Nat} {v : Nat → Option QueueId → List Nat} {k : Nat} {os : List QueueOptions}
    {tr : List (Nat × Nat)} {d : List (Nat × DataRelease)}, FistqSystemInv st l v →
    st.Bounded l k → k + calls.length < 2 ^ 32 → OptionsFrom st os →
    fistqSystemRun st calls = some (st', tr, d) →
    OptionsFrom st' (os ++ calls.flatMap FistqSystemCall.options) ∧
      ∀ r ∈ d, ∃ o ∈ os ++ calls.flatMap FistqSystemCall.options, r.2 = o.release
  | [], st, st', l, v, k, os, tr, d, _, _, _, ho, hr => by
    simp only [fistqSystemRun, Option.some.injEq, Prod.mk.injEq] at hr
    obtain ⟨rfl, -, rfl⟩ := hr
    exact ⟨by simpa using ho, nofun⟩
  | c :: cs, st, st', l, v, k, os, tr, d, h, hb, hk, ho, hr => by
    obtain ⟨⟨st₁, e, d₁⟩, hs, hr₁⟩ := Option.bind_eq_some.1 hr
    obtain ⟨⟨st₂, tr₂, d₂⟩, hr₂, heq⟩ := Option.map_eq_some'.1 hr₁
    simp only [Prod.mk.injEq] at heq
    obtain ⟨rfl, -, rfl⟩ := heq
    simp only [List.length_cons] at hk
    obtain ⟨l₁, v₁, h₁, hb₁, -⟩ := h.step hb (by omega) hs
    obtain ⟨ho₁, hd₁⟩ := ho.step h hb (by omega) hs
    obtain ⟨ho₂, hd₂⟩ := OptionsFrom.run h₁ hb₁ (by omega) ho₁ hr₂
    rw [List.flatMap_cons, ← List.append_assoc]
    refine ⟨ho₂, fun r hr => ?_⟩
    rcases List.mem_append.1 hr with hr | hr
    · obtain ⟨o, ho, he⟩ := hd₁ r hr
      exact ⟨o, List.mem_append_left _ (List.mem_append_left _ ho), he⟩
    · exact hd₂ r hr

end Options

/-- **No item is lost or handed out twice**, over every sequence of calls of the library from
`fistq_init`, by any number of producers and consumers on any number of fistqs, with handles
opened and destroyed at any point: every fistq on the list keeps its queues well formed, and the
items enqueued are, each once, those delivered, those released by a `fistq_destroyHandle`, and
those still on a queue of a fistq on the list. Each item released had its data freed, handed to a
callback, or left to its owner, as the value and callback of a `fistq_getHandle` of the run ask.
Once every handle has been destroyed, every item was delivered or released. -/
theorem fistqSystemRun_conserves {calls : List FistqSystemCall} {st : FistqSystem}
    {tr : List (Nat × Nat)} {d : List (Nat × DataRelease)} (hlen : calls.length < 2 ^ 32)
    (hrun : fistqSystemRun .init calls = some (st, tr, d)) :
    ∃ l v, FistqListInv st.list l ∧ (∀ a ∈ l, FistqInv (st.queues a) (v a)) ∧
      (calls.flatMap FistqSystemCall.enqueued).Perm
        (tr.map Prod.snd ++ d.map Prod.fst ++ st.queued l v) ∧
      (∀ r ∈ d, ∃ src dst value cb, FistqSystemCall.getHandle src dst value cb ∈ calls ∧
        r.2 = QueueOptions.release ⟨cb, value⟩) ∧
      ((∀ fh, st.list.fq fh = none) →
        (calls.flatMap FistqSystemCall.enqueued).Perm (tr.map Prod.snd ++ d.map Prod.fst)) := by
  have hk : 0 + calls.length < 2 ^ 32 := by simpa using hlen
  obtain ⟨l, v, h, -, hp⟩ := fistqSystemInv_init.run ⟨le_rfl, nofun⟩ hk hrun
  have hd := (OptionsFrom.run fistqSystemInv_init ⟨le_rfl, nofun⟩ hk optionsFrom_init hrun).2
  refine ⟨l, v, h.list, h.queues, by simpa [FistqSystem.queued] using hp, fun r hr => ?_,
    fun hfq => ?_⟩
  · obtain ⟨o, ho, he⟩ := hd r hr
    obtain ⟨src, dst, hc⟩ := mem_flatMap_options (by simpa using ho)
    exact ⟨src, dst, o.freeData, o.cb, hc, he⟩
  · have := h.list.eq_nil_of_fq_none hfq
    subst this
    simpa [FistqSystem.queued] using hp

/-- The two items the client never flushed have their data freed when it destroys its handle. -/
theorem fistqSystemRun_conserves_pd3 :
    ∃ st tr d, fistqSystemRun .init (pd3FistqCalls ++ [FistqSystemCall.destroyHandle (some 0),
        .destroyHandle (some 1)]) = some (st, tr, d) ∧
      tr = [(1, 8)] ∧ d = [(7, .free), (9, .free)] ∧
      ∃ (l : List Nat) (v : Nat → Option QueueId → List Nat), FistqListInv st.list l ∧
        (∀ a ∈ l, FistqInv (st.queues a) (v a)) ∧
        ((pd3FistqCalls ++ [FistqSystemCall.destroyHandle (some 0),
          .destroyHandle (some 1)]).flatMap FistqSystemCall.enqueued).Perm
          (tr.map Prod.snd ++ d.map Prod.fst ++ st.queued l v) ∧
        (∀ r ∈ d, ∃ src dst value cb, FistqSystemCall.getHandle src dst value cb ∈
          pd3FistqCalls ++ [FistqSystemCall.destroyHandle (some 0), .destroyHandle (some 1)] ∧
          r.2 = QueueOptions.release ⟨cb, value⟩) ∧
        ((∀ fh, st.list.fq fh = none) →
          ((pd3FistqCalls ++ [FistqSystemCall.destroyHandle (some 0),
            .destroyHandle (some 1)]).flatMap FistqSystemCall.enqueued).Perm
            (tr.map Prod.snd ++ d.map Prod.fst)) :=
  ⟨_, _, _, rfl, rfl, rfl, fistqSystemRun_conserves (by decide) rfl⟩

/-- **`fistq_destroyHandle` releases what its handle never flushed**: in every state a run
reaches, destroying a live handle `x` of the fistq `a` returns 0 and releases the data of the
nodes on the local queue of `x`, in queue order, and, when `x` is the last handle of `a`, then
those of the nodes on the internal queue of `a`, which no one can dequeue any more. Each datum is
freed, handed to the callback of its queue, or left to its owner, as the options of its queue
ask, and those options are ones that a `fistq_getHandle` of the run was passed. -/
theorem fistqSystemRun_destroy_frees {calls : List FistqSystemCall} {st : FistqSystem}
    {tr : List (Nat × Nat)} {d : List (Nat × DataRelease)} (hlen : calls.length < 2 ^ 32)
    (hrun : fistqSystemRun .init calls = some (st, tr, d)) {x a : Nat}
    (hxa : st.list.fq x = some a) :
    ∃ lq iq st', Chain (st.queues a).nodeNext ((st.queues a).next (.head (.lq x))) lq ∧
      Chain (st.queues a).nodeNext ((st.queues a).next (.head .internal)) iq ∧
      fistqSystemDestroyHandle st (some x) = some (st', 0,
        lq.map (fun n => ((st.queues a).data n, ((st.queues a).options (.lq x)).release)) ++
          if st.list.refCount a = 1 then
            iq.map fun n => ((st.queues a).data n, ((st.queues a).options .internal).release)
          else []) ∧
      (∃ src dst, FistqSystemCall.getHandle src dst ((st.queues a).options (.lq x)).freeData
        ((st.queues a).options (.lq x)).cb ∈ calls) ∧
      ∃ src dst, FistqSystemCall.getHandle src dst ((st.queues a).options .internal).freeData
        ((st.queues a).options .internal).cb ∈ calls := by
  have hk : 0 + calls.length < 2 ^ 32 := by simpa using hlen
  obtain ⟨l, v, h, -⟩ := fistqSystemInv_init.run ⟨le_rfl, nofun⟩ hk hrun
  have ho := (OptionsFrom.run fistqSystemInv_init ⟨le_rfl, nofun⟩ hk optionsFrom_init hrun).1
  have ha := h.queues a (h.list.fq x a hxa).2
  obtain ⟨st', -, -, hd, -⟩ := h.destroyHandle hxa
  exact ⟨_, _, st', (ha.holds _).chain, (ha.holds _).chain, hd,
    mem_flatMap_options (by simpa using (ho x a hxa).1),
    mem_flatMap_options (by simpa using (ho x a hxa).2)⟩

/-- Destroying the client's handle before the aggregator's frees the data of the items it never
flushed, as the `FISTQ_FREE` and the `NULL` callback of `pd3_estimator.c` ask. -/
theorem fistqSystemRun_destroy_frees_pd3 :
    ∃ st tr d, fistqSystemRun .init pd3FistqCalls = some (st, tr, d) ∧ st.list.fq 0 = some 0 ∧
      ∃ lq iq st', Chain (st.queues 0).nodeNext ((st.queues 0).next (.head (.lq 0))) lq ∧
        Chain (st.queues 0).nodeNext ((st.queues 0).next (.head .internal)) iq ∧
        fistqSystemDestroyHandle st (some 0) = some (st', 0,
          lq.map (fun n => ((st.queues 0).data n, ((st.queues 0).options (.lq 0)).release)) ++
            if st.list.refCount 0 = 1 then
              iq.map fun n => ((st.queues 0).data n, ((st.queues 0).options .internal).release)
            else []) ∧
        (∃ src dst, FistqSystemCall.getHandle src dst ((st.queues 0).options (.lq 0)).freeData
          ((st.queues 0).options (.lq 0)).cb ∈ pd3FistqCalls) ∧
        ∃ src dst, FistqSystemCall.getHandle src dst ((st.queues 0).options .internal).freeData
          ((st.queues 0).options .internal).cb ∈ pd3FistqCalls :=
  ⟨_, _, _, rfl, rfl, @fistqSystemRun_destroy_frees pd3FistqCalls _ _ _ (by decide) rfl 0 0 rfl⟩

end Pd3Estimator
