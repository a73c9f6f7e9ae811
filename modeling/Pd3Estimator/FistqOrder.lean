import Pd3Estimator.FistqOwnership

/-!
# What the fistq does with a producer's items

`pd3_estimator.c` uses its fistq with one consumer. Every client pushes packet infos through its
own handle (`pd3_estimator_push_packet_info`, that is `fistq_enqueue_any(..., FISTQ_NOFLUSH)`)
and flushes them (`pd3_estimator_flush`, that is `fistq_flush`). The aggregator thread alone takes
them, through its own handle (`fistq_timeddequeue_any`). The loss and reorder estimators read the
sequence numbers in the order the aggregator receives them, so the fistq has to hand each client's
items over in the order the client enqueued them.

An item of a producer goes to its local queue, then to the internal queue, then to the consumer's
local queue, and is then delivered. `FifoInv` says that the local queue of a producer holds only
its own items. It also says that the items of each producer, taken in that order (delivered, on
the consumer's queues, on its own local queue), are the items it enqueued, in order.

* `FistqCall.oneConsumer`: the calls of such a use;
* `FifoInv.push` (an enqueue without `FISTQ_FLUSH`, or a flush), `FifoInv.pop` (a dequeue by the
  consumer), `FifoInv.step`; the run is `FistqInv.runWith`;
* `fistqRun_producer_order`: **over every interleaving of such calls, the items of each producer
  that the consumer has received are the first of the items that producer enqueued, in the same
  order**;
* `SizeFrame`, `fistqStep_sizeFrame`: a call writes no threshold and no size but those of its
  handle's local queue and of the internal queue; `fistqRun_default_holds_back_lt`: **a handle
  that enqueues with `FISTQ_DEFAULT` (or `FISTQ_FLUSH`) and never dequeues keeps fewer than
  `DEFAULT_THRESHOLD` items from the consumers**.

`FISTQ_FLUSH` is left out because `fistq_direct` puts the item ahead of those still on the
producer's local queue. A dequeue by a producer is left out too: it takes the newest items of its
own local queue first.
-/

namespace Pd3Estimator

/-- A call of a fistq used as `pd3_estimator.c` uses it. `c` is the one consumer and `owner`
names the producer of each datum. A producer enqueues its own data, never with `FISTQ_FLUSH`,
and flushes; `c` only dequeues. -/
def FistqCall.oneConsumer (owner : Nat → Nat) (c : Nat) : FistqCall → Bool
  | .enqueue hh data _ op => hh != c && op != .flush && owner data == hh
  | .flush hh => hh != c
  | .dequeue hh => hh == c
  | .timeddequeue hh _ => hh == c

/-- The data of producer `p` on the nodes `xs`, in order. -/
def producerItems (s : FistqState) (owner : Nat → Nat) (p : Nat) (xs : List Nat) : List Nat :=
  (xs.map s.data).filter fun d => owner d = p

/-- The order invariant of a fistq with the one consumer `c`. -/
structure FifoInv (owner : Nat → Nat) (c : Nat) (s : FistqState)
    (v : Option QueueId → List Nat) : Prop where
  /-- the local queue of a producer holds its own items -/
  own : ∀ hh, hh ≠ c → ∀ a ∈ v (some (.lq hh)), owner (s.data a) = hh
  /-- the items of producer `p`, delivered, on the consumer's queues, then on `p`'s own local
  queue, are the items `p` enqueued -/
  order : ∀ p, p ≠ c → producerItems s owner p (v none ++ dequeueOrder v c ++ v (some (.lq p))) =
    producerItems s owner p (List.range s.fresh)

section Order
variable {owner : Nat → Nat} {c p : Nat} {s s' : FistqState} {v v' : Option QueueId → List Nat}

@[simp] theorem producerItems_append (xs ys : List Nat) :
    producerItems s owner p (xs ++ ys) =
      producerItems s owner p xs ++ producerItems s owner p ys := by
  simp only [producerItems, List.map_append, List.filter_append]

theorem producerItems_eq_nil {xs : List Nat} (h : ∀ a ∈ xs, owner (s.data a) ≠ p) :
    producerItems s owner p xs = [] :=
  List.filter_eq_nil_iff.2 fun d hd => by
    obtain ⟨a, ha, rfl⟩ := List.mem_map.1 hd
    simpa using h a ha

/-- The nodes `calloc` had returned keep their data. -/
theorem Allocated.producerItems_eq {ds : List Nat} (ha : Allocated s s' ds) {xs : List Nat}
    (hxs : ∀ a ∈ xs, a < s.fresh) : producerItems s' owner p xs = producerItems s owner p xs := by
  rw [producerItems, producerItems, List.map_congr_left fun a h => ha.data_eq (hxs a h)]

theorem Allocated.producerItems_range {ds : List Nat} (ha : Allocated s s' ds) :
    producerItems s' owner p (List.range s'.fresh) =
      producerItems s owner p (List.range s.fresh) ++ ds.filter fun d => owner d = p := by
  rw [producerItems, ha, List.filter_append]
  rfl

theorem Allocated.data_fresh {d : Nat} (ha : Allocated s s' [d]) : s'.data s.fresh = d := by
  have h := ha
  rw [Allocated, ha.fresh_eq, List.length_singleton, List.range_succ, List.map_append] at h
  simpa using (List.append_inj' h rfl).2

theorem FistqInv.producerItems_eq (h : FistqInv s v) {ds : List Nat} (ha : Allocated s s' ds)
    (i : Option QueueId) : producerItems s' owner p (v i) = producerItems s owner p (v i) :=
  ha.producerItems_eq fun _ => h.part.lt

theorem fifoInv_init (owner : Nat → Nat) (c : Nat) : FifoInv owner c .init fun _ => [] :=
  ⟨fun _ _ _ => nofun, fun _ _ => rfl⟩

/-- **A producer `hh` puts the nodes `new`**, carrying its data `ds`, on the end of its local
queue, which it may then move to the end of the internal queue. -/
theorem FifoInv.push (hf : FifoInv owner c s v) (h : FistqInv s v) {hh : Nat}
    {new ds : List Nat} (hhc : hh ≠ c) (ha : Allocated s s' ds) (hnew : new.map s'.data = ds)
    (hown : ∀ d ∈ ds, owner d = hh) (hv : v' none = v none) (hl : LocalFrame hh v v')
    (hm : v' (some (.lq hh)) = v (some (.lq hh)) ++ new ∧
        v' (some .internal) = v (some .internal) ∨
      v' (some (.lq hh)) = [] ∧
        v' (some .internal) = v (some .internal) ++ (v (some (.lq hh)) ++ new)) :
    FifoInv owner c s' v' := by
  have hc : v' (some (.lq c)) = v (some (.lq c)) := hl c (Ne.symm hhc)
  have hnew' : ∀ p, producerItems s' owner p new = ds.filter fun d => owner d = p := fun p => by
    rw [producerItems, hnew]
  refine ⟨fun h₂ h₂c a ha' => ?_, fun p hp => ?_⟩
  · -- a local queue gets only its producer's items
    have hold : a ∈ v (some (.lq h₂)) → owner (s'.data a) = h₂ := fun ha' => by
      rw [ha.data_eq (h.part.lt ha')]
      exact hf.own h₂ h₂c a ha'
    rcases eq_or_ne h₂ hh with rfl | h₂h
    · rcases hm with ⟨e, -⟩ | ⟨e, -⟩ <;> rw [e] at ha'
      · rcases List.mem_append.1 ha' with ha' | ha'
        · exact hold ha'
        · exact hown _ (hnew ▸ List.mem_map_of_mem _ ha')
      · exact absurd ha' (List.not_mem_nil a)
    · exact hold (hl h₂ h₂h ▸ ha')
  · rw [ha.producerItems_range, ← hf.order p hp]
    rcases eq_or_ne p hh with rfl | hph
    · -- the producer's own items: `new` comes after all of them
      have hL : v' none ++ dequeueOrder v' c ++ v' (some (.lq p)) =
          v none ++ dequeueOrder v c ++ v (some (.lq p)) ++ new := by
        rcases hm with ⟨e₁, e₂⟩ | ⟨e₁, e₂⟩ <;> simp [dequeueOrder, hv, hc, e₁, e₂]
      rw [hL, producerItems_append, hnew' p]
      simp only [dequeueOrder, producerItems_append, h.producerItems_eq ha]
    · -- another producer's items: those of `hh` are not among them
      have hF : (ds.filter fun d => owner d = p) = [] :=
        List.filter_eq_nil_iff.2 fun d hd => by simpa [hown d hd] using Ne.symm hph
      have hE : producerItems s owner p (v (some (.lq hh))) = [] :=
        producerItems_eq_nil fun a ha' => (hf.own hh hhc a ha').trans_ne (Ne.symm hph)
      rw [hF, List.append_nil]
      rcases hm with ⟨-, e₂⟩ | ⟨-, e₂⟩ <;>
        simp only [dequeueOrder, hv, hc, e₂, hl p hph, producerItems_append,
          h.producerItems_eq ha, hnew' p, hE, hF, List.nil_append, List.append_nil]

/-- **The consumer takes `out`** off the front of its queues. -/
theorem FifoInv.pop (hf : FifoInv owner c s v) (h : FistqInv s v) (ha : Allocated s s' [])
    {out : List Nat} (hv : v' none = v none ++ out) (hl : LocalFrame c v v')
    (hm : dequeueOrder v c = out ++ dequeueOrder v' c) : FifoInv owner c s' v' := by
  refine ⟨fun h₂ h₂c a ha' => ?_, fun p hp => ?_⟩
  · rw [hl h₂ h₂c] at ha'
    rw [ha.data_eq (h.part.lt ha')]
    exact hf.own h₂ h₂c a ha'
  · have hL : v' none ++ dequeueOrder v' c ++ v' (some (.lq p)) =
        v none ++ dequeueOrder v c ++ v (some (.lq p)) := by
      rw [hv, hm, hl p hp]
      simp only [List.append_assoc]
    rw [hL, ha.producerItems_range, List.filter_nil, List.append_nil, ← hf.order p hp]
    simp only [dequeueOrder, producerItems_append, h.producerItems_eq ha]

/-- **Every call of such a use keeps `FifoInv`.** -/
theorem FifoInv.step (hf : FifoInv owner c s v) (h : FistqInv s v) {x : FistqCall}
    (hx : x.oneConsumer owner c) {out : List Nat} (hv : v' none = v none ++ out)
    (hl : LocalFrame x.handle v v') (hm : Moves s.fresh out v v' x)
    (ha : Allocated s s' (enqueuedData [x])) : FifoInv owner c s' v' := by
  cases x with
  | enqueue hh data type op =>
    simp only [FistqCall.oneConsumer, Bool.and_eq_true, bne_iff_ne, ne_eq, beq_iff_eq] at hx
    obtain ⟨⟨hhc, hop⟩, hown⟩ := hx
    obtain ⟨rfl, hm⟩ := hm
    have hm' : v' (some (.lq hh)) = v (some (.lq hh)) ++ (if data = 0 then [] else [s.fresh]) ∧
        v' (some .internal) = v (some .internal) ∨ v' (some (.lq hh)) = [] ∧
          v' (some .internal) = v (some .internal) ++
            (v (some (.lq hh)) ++ if data = 0 then [] else [s.fresh]) := by
      cases op with
      | flush => exact absurd rfl hop
      | _ => exact hm
    by_cases hd : data = 0
    · simp only [enqueuedData, List.filterMap_cons, hd, if_true, List.filterMap_nil] at ha
      rw [if_pos hd] at hm'
      exact hf.push h hhc ha List.map_nil nofun (by simpa using hv) hl hm'
    · simp only [enqueuedData, List.filterMap_cons, hd, if_false, List.filterMap_nil] at ha
      rw [if_neg hd] at hm'
      exact hf.push h hhc ha (by simp [ha.data_fresh]) (by simpa using hown)
        (by simpa using hv) hl hm'
  | flush hh =>
    have hhc : hh ≠ c := by simpa [FistqCall.oneConsumer] using hx
    obtain ⟨rfl, hm⟩ := hm
    exact hf.push h hhc ha List.map_nil nofun (by simpa using hv) hl
      (Or.inr (by simpa using hm))
  | dequeue hh =>
    obtain rfl : hh = c := by simpa [FistqCall.oneConsumer] using hx
    exact hf.pop h ha hv hl hm
  | timeddequeue hh timedOut =>
    obtain rfl : hh = c := by simpa [FistqCall.oneConsumer] using hx
    exact hf.pop h ha hv hl hm

end Order

/-- **Each producer's items reach the consumer in the order it enqueued them, none skipped**,
over every interleaving of fewer than `2 ^ 32` calls from the fistq `fistq_create_unsafe` makes,
by any number of producers and the one consumer `c`, used as `pd3_estimator.c` uses them: the data
of producer `p` that the dequeues hand back are, in order, the first of the data `p` enqueued. -/
theorem fistqRun_producer_order {calls : List FistqCall} {s : FistqState} {tr : List (Nat × Nat)}
    {owner : Nat → Nat} {c : Nat} (hlen : calls.length < 2 ^ 32)
    (hcalls : ∀ x ∈ calls, x.oneConsumer owner c) (hrun : fistqRun .init calls = some (s, tr))
    {p : Nat} (hp : p ≠ c) :
    (tr.map Prod.snd).filter (fun d => owner d = p) <+:
      (enqueuedData calls).filter fun d => owner d = p := by
  obtain ⟨v, out, h, hf, hv, htr, -, ha⟩ :=
    FistqInv.runWith (I := fun x => x.oneConsumer owner c) (J := FifoInv owner c)
      (fun hx h hj _ hv hl hm ha => hj.step h hx hv hl hm ha) hcalls fistqInv_init
      (fifoInv_init owner c) (by simpa [FistqState.init] using hlen) hrun
  have hr : (List.range s.fresh).map s.data = enqueuedData calls := by
    simpa [Allocated, FistqState.init] using ha
  refine ⟨producerItems s owner p (dequeueOrder v c ++ v (some (.lq p))), ?_⟩
  rw [htr, ← hr, ← producerItems, ← producerItems, ← hf.order p hp, hv, List.nil_append,
    List.append_assoc]
  exact (producerItems_append _ _).symm

/-- Two clients and the aggregator: client 2's flushed item comes first, then client 1's two
items, in the order client 1 pushed them. -/
theorem fistqRun_producer_order_two_clients :
    ∃ s tr, fistqRun .init [.enqueue 1 10 .pinfo .noflush, .enqueue 2 20 .pinfo .noflush,
        .enqueue 1 11 .pinfo .noflush, .flush 2, .timeddequeue 0 false, .flush 1,
        .enqueue 2 21 .pinfo .noflush, .timeddequeue 0 false, .timeddequeue 0 false] =
        some (s, tr) ∧
      tr = [(0, 20), (0, 10), (0, 11)] ∧ (1 : Nat) ≠ 0 ∧
      (tr.map Prod.snd).filter (fun d => d / 10 = 1) <+:
        (enqueuedData [.enqueue 1 10 .pinfo .noflush, .enqueue 2 20 .pinfo .noflush,
          .enqueue 1 11 .pinfo .noflush, .flush 2, .timeddequeue 0 false, .flush 1,
          .enqueue 2 21 .pinfo .noflush, .timeddequeue 0 false, .timeddequeue 0 false]).filter
          fun d => d / 10 = 1 :=
  ⟨_, _, rfl, rfl, by decide, @fistqRun_producer_order [.enqueue 1 10 .pinfo .noflush,
    .enqueue 2 20 .pinfo .noflush, .enqueue 1 11 .pinfo .noflush, .flush 2, .timeddequeue 0 false,
    .flush 1, .enqueue 2 21 .pinfo .noflush, .timeddequeue 0 false, .timeddequeue 0 false] _ _
    (fun d => d / 10) 0 (by decide) (by decide) rfl 1 (by decide)⟩

/-! ### Holding back -/

/-- `s'` has the thresholds of `s` and its sizes, except those of the internal queue and of the
local queue of `h`. -/
def SizeFrame (h : Nat) (s s' : FistqState) : Prop :=
  s'.threshold = s.threshold ∧ ∀ q, q ≠ .internal → q ≠ .lq h → s'.size q = s.size q


section Frames
variable {h : Nat} {s s' : FistqState}

theorem SizeFrame.refl (h : Nat) (s : FistqState) : SizeFrame h s s := ⟨rfl, fun _ _ _ => rfl⟩

theorem SizeFrame.trans {s₁ s₂ s₃ : FistqState} (h₁ : SizeFrame h s₁ s₂)
    (h₂ : SizeFrame h s₂ s₃) : SizeFrame h s₁ s₃ :=
  ⟨h₂.1.trans h₁.1, fun q hi hl => (h₂.2 q hi hl).trans (h₁.2 q hi hl)⟩

theorem fistqFlush_sizeFrame (s : FistqState) (h : Nat) : SizeFrame h s (fistqFlush s h).1 := by
  unfold fistqFlush
  split_ifs
  · exact SizeFrame.refl h s
  · exact ⟨rfl, fun q hi hl => by simp [hi, hl]⟩

theorem fistqEnqueueAny_sizeFrame (s : FistqState) (h data : Nat) (type : FistqDataType)
    (op : FlushOption) : SizeFrame h s (fistqEnqueueAny s h data type op).1 := by
  obtain ⟨s₁, hs₁⟩ : ∃ s₁, s.newNode data type = (s₁, s.fresh) := ⟨_, rfl⟩
  have h₁ : SizeFrame h s s₁ := by
    rw [Prod.mk.inj_iff.1 hs₁ |>.1.symm]
    exact ⟨rfl, fun _ _ _ => rfl⟩
  have hl : SizeFrame h s₁ (s₁.append (.lq h) s.fresh) :=
    ⟨rfl, fun q _ hl => by simp [hl]⟩
  simp only [fistqEnqueueAny, hs₁]
  split_ifs
  · exact SizeFrame.refl h s
  · exact h₁.trans ⟨rfl, fun q hi _ => by simp [fistqDirect, hi]⟩
  · exact (h₁.trans hl).trans (fistqFlush_sizeFrame _ h)
  · exact h₁.trans hl

theorem FistqState.popLocal_sizeFrame {r : Nat × FistqDataType}
    (hp : s.popLocal h = some (s', r)) : SizeFrame h s s' := by
  unfold FistqState.popLocal at hp
  split at hp
  · exact absurd hp nofun
  · simp only [Option.some.injEq, Prod.mk.injEq] at hp
    obtain ⟨rfl, -⟩ := hp
    refine ⟨by split_ifs <;> rfl, fun q hi hl => ?_⟩
    split_ifs <;> simp [hl]

/-- The refill of a local queue from the internal one. -/
theorem FistqState.refill_sizeFrame (s : FistqState) (h : Nat) :
    SizeFrame h s (s.splice (.lq h) .internal) :=
  ⟨rfl, fun q hi hl => by simp [hi, hl]⟩

theorem fistqDequeueAny_sizeFrame {r : Nat × FistqDataType}
    (hd : fistqDequeueAny s h = some (s', r)) : SizeFrame h s s' := by
  have hsp := s.refill_sizeFrame h
  unfold fistqDequeueAny at hd
  split_ifs at hd
  · -- the local queue was refilled from the internal one
    dsimp only at hd
    split_ifs at hd
    · obtain ⟨rfl, -⟩ := Prod.mk.inj_iff.1 (Option.some.inj hd)
      exact hsp
    · exact hsp.trans (FistqState.popLocal_sizeFrame hd)
  · exact FistqState.popLocal_sizeFrame hd

theorem fistqTimeddequeueAny_sizeFrame {timedOut : Bool} {r : Nat × FistqDataType}
    (hd : fistqTimeddequeueAny s h timedOut = some (s', r)) : SizeFrame h s s' := by
  unfold fistqTimeddequeueAny at hd
  split_ifs at hd
  · -- the deadline passed
    obtain ⟨rfl, -⟩ := Prod.mk.inj_iff.1 (Option.some.inj hd)
    exact SizeFrame.refl h s
  · exact (s.refill_sizeFrame h).trans (FistqState.popLocal_sizeFrame hd)
  · exact FistqState.popLocal_sizeFrame hd

/-- **A call writes no threshold, and no size but those of its handle's local queue and of the
internal queue.** -/
theorem fistqStep_sizeFrame {c : FistqCall} {e : Option (Nat × Nat)}
    (hs : fistqStep s c = some (s', e)) : SizeFrame c.handle s s' := by
  cases c with
  | enqueue hh data type op =>
    obtain ⟨rfl, -⟩ := Prod.mk.inj_iff.1 (Option.some.inj hs)
    exact fistqEnqueueAny_sizeFrame s hh data type op
  | flush hh =>
    obtain ⟨rfl, -⟩ := Prod.mk.inj_iff.1 (Option.some.inj hs)
    exact fistqFlush_sizeFrame s hh
  | dequeue hh =>
    obtain ⟨⟨s'', r⟩, hd, he⟩ := Option.map_eq_some'.1 hs
    obtain ⟨rfl, -⟩ := Prod.mk.inj_iff.1 he
    exact fistqDequeueAny_sizeFrame hd
  | timeddequeue hh timedOut =>
    obtain ⟨⟨s'', r⟩, hd, he⟩ := Option.map_eq_some'.1 hs
    obtain ⟨rfl, -⟩ := Prod.mk.inj_iff.1 he
    exact fistqTimeddequeueAny_sizeFrame hd

/-- The calls that leave their handle's local queue below its threshold: an enqueue with
`FISTQ_DEFAULT` or `FISTQ_FLUSH`, and a flush. -/
def FistqCall.flushesAtThreshold : FistqCall → Bool
  | .enqueue _ _ _ op => op != .noflush
  | .flush _ => true
  | _ => false

/-- An enqueue with `FISTQ_DEFAULT` flushes when the local queue reaches the threshold. -/
theorem fistqStep_size_lt {c : FistqCall} {e : Option (Nat × Nat)}
    (hs : fistqStep s c = some (s', e)) (hc : c.flushesAtThreshold)
    (hsz : (s.size (.lq c.handle)).toNat < (s.threshold c.handle).toNat) :
    (s'.size (.lq c.handle)).toNat < (s'.threshold c.handle).toNat := by
  rw [(fistqStep_sizeFrame hs).1]
  -- a flush leaves the local queue empty, below a threshold that is at least 1
  have hflush : ∀ t : FistqState, t.threshold = s.threshold → ((fistqFlush t c.handle).1.size
      (.lq c.handle)).toNat < (s.threshold c.handle).toNat := fun t ht => by
    unfold fistqFlush
    split_ifs with h0
    · rw [h0]
      exact Nat.lt_of_le_of_lt (Nat.zero_le _) hsz
    · simpa using Nat.lt_of_le_of_lt (Nat.zero_le _) hsz
  cases c with
  | enqueue hh data type op =>
    obtain ⟨rfl, -⟩ := Prod.mk.inj_iff.1 (Option.some.inj hs)
    obtain ⟨s₁, hs₁⟩ : ∃ s₁, s.newNode data type = (s₁, s.fresh) := ⟨_, rfl⟩
    obtain ⟨hsize, hth⟩ : s₁.size = s.size ∧ s₁.threshold = s.threshold := by
      rw [Prod.mk.inj_iff.1 hs₁ |>.1.symm]
      exact ⟨rfl, rfl⟩
    simp only [FistqCall.flushesAtThreshold, bne_iff_ne, ne_eq] at hc
    dsimp only [FistqCall.handle] at hsz hflush ⊢
    simp only [fistqEnqueueAny, hs₁]
    split_ifs with hd hop hth'
    · exact hsz
    · simpa [fistqDirect, hsize] using hsz
    · exact hflush _ hth
    · -- below the threshold after the append
      rw [← hth]
      exact Nat.lt_of_not_le fun hle => hth' ⟨hc, hle⟩
  | flush hh =>
    obtain ⟨rfl, -⟩ := Prod.mk.inj_iff.1 (Option.some.inj hs)
    exact hflush s rfl
  | dequeue hh => simp [FistqCall.flushesAtThreshold] at hc
  | timeddequeue hh timedOut => simp [FistqCall.flushesAtThreshold] at hc

end Frames

/-- **A handle that never holds items back keeps its local queue below its threshold**, over
every run: its own calls are enqueues with `FISTQ_DEFAULT` or `FISTQ_FLUSH` and flushes, and no
call of another handle touches its local queue or any threshold. -/
theorem fistqRun_size_lt : ∀ {calls : List FistqCall} {s s' : FistqState}
    {tr : List (Nat × Nat)} {p : Nat}, (∀ c ∈ calls, c.handle = p → c.flushesAtThreshold) →
    (s.size (.lq p)).toNat < (s.threshold p).toNat → fistqRun s calls = some (s', tr) →
    s'.threshold = s.threshold ∧ (s'.size (.lq p)).toNat < (s'.threshold p).toNat
  | [], s, s', tr, p, _, hsz, hr => by
    simp only [fistqRun, Option.some.injEq, Prod.mk.injEq] at hr
    obtain ⟨rfl, rfl⟩ := hr
    exact ⟨rfl, hsz⟩
  | c :: cs, s, s', tr, p, hp, hsz, hr => by
    obtain ⟨⟨s₁, e⟩, hs, hr₁⟩ := Option.bind_eq_some.1 hr
    obtain ⟨⟨s₂, t⟩, hr₂, heq⟩ := Option.map_eq_some'.1 hr₁
    obtain ⟨rfl, -⟩ := Prod.mk.inj_iff.1 heq
    have hf := fistqStep_sizeFrame hs
    have hsz₁ : (s₁.size (.lq p)).toNat < (s₁.threshold p).toNat := by
      by_cases hcp : c.handle = p
      · subst hcp
        exact fistqStep_size_lt hs (hp c (List.mem_cons_self _ _) rfl) hsz
      · rw [hf.1, hf.2 _ (by simp) (by simpa using Ne.symm hcp)]
        exact hsz
    obtain ⟨ht, hsz₂⟩ := fistqRun_size_lt (fun c' hc' => hp c' (List.mem_cons_of_mem _ hc'))
      hsz₁ hr₂
    exact ⟨ht.trans hf.1, hsz₂⟩

/-- **`FISTQ_DEFAULT` holds back at most four items**: in every state a run of any calls of
any handles reaches from the fistq `fistq_create_unsafe` makes, a handle whose own calls are
enqueues with `FISTQ_DEFAULT` or `FISTQ_FLUSH` and flushes has fewer than `DEFAULT_THRESHOLD`
items on its local queue, where no consumer can see them. -/
theorem fistqRun_default_holds_back_lt {calls : List FistqCall} {s : FistqState}
    {tr : List (Nat × Nat)} {p : Nat} (hp : ∀ c ∈ calls, c.handle = p → c.flushesAtThreshold)
    (hrun : fistqRun .init calls = some (s, tr)) :
    (s.size (.lq p)).toNat < defaultThreshold.toNat := by
  have h₀ : (FistqState.init.size (.lq p)).toNat < (FistqState.init.threshold p).toNat :=
    show 0 < 5 by decide
  obtain ⟨ht, hsz⟩ := fistqRun_size_lt hp h₀ hrun
  rwa [ht] at hsz

/-- Seven items pushed with `FISTQ_DEFAULT`: the fifth flushes the local queue, the consumer
takes the first, and the sixth and seventh wait on the local queue. -/
theorem fistqRun_default_holds_back_seven :
    ∃ s tr, fistqRun .init [.enqueue 0 1 .pinfo .default, .enqueue 0 2 .pinfo .default,
        .enqueue 0 3 .pinfo .default, .enqueue 0 4 .pinfo .default,
        .enqueue 0 5 .pinfo .default, .dequeue 1, .enqueue 0 6 .pinfo .default,
        .enqueue 0 7 .pinfo .default] = some (s, tr) ∧
      tr = [(1, 1)] ∧ s.size (.lq 0) = 2 ∧
      (∀ c ∈ [FistqCall.enqueue 0 1 .pinfo .default, .enqueue 0 2 .pinfo .default,
        .enqueue 0 3 .pinfo .default, .enqueue 0 4 .pinfo .default,
        .enqueue 0 5 .pinfo .default, .dequeue 1, .enqueue 0 6 .pinfo .default,
        .enqueue 0 7 .pinfo .default], c.handle = 0 → c.flushesAtThreshold) ∧
      (s.size (.lq 0)).toNat < defaultThreshold.toNat :=
  ⟨_, _, rfl, rfl, rfl, by decide, @fistqRun_default_holds_back_lt
    [.enqueue 0 1 .pinfo .default, .enqueue 0 2 .pinfo .default, .enqueue 0 3 .pinfo .default,
      .enqueue 0 4 .pinfo .default, .enqueue 0 5 .pinfo .default, .dequeue 1,
      .enqueue 0 6 .pinfo .default, .enqueue 0 7 .pinfo .default] _ _ 0 (by decide) rfl⟩

end Pd3Estimator
