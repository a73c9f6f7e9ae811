import Pd3Estimator.Fistq
import Pd3Estimator.Storage

/-!
# Ownership and conservation in the fistq

The `queue_t`s of `fistq.c` are singly linked through `next` from a dummy `head` node. A queue
is represented by `QueueHolds s q xs`: following `next` from the dummy head of `q` visits the
nodes `xs` and then `NULL` (`Chain`), `tail` is the last node of `xs` (the dummy head when `xs`
is empty), and `size` is the length of `xs`.

The ownership is `FistqInv s v`: queue `q` holds `v (some q)`, `v none` lists the nodes
delivered so far, oldest first, and together they share out every node `calloc` returned
(`Partition`), so an item that was enqueued is on exactly one queue, once, or was delivered,
once.

* `QueueHolds.append`, `QueueHolds.splice`, `QueueHolds.popLocal`: the three list operations of
  `fistq.c`, each with the frame fact that every other queue is left alone;
* `FistqInv.enqueue`, `FistqInv.flush`, `FistqInv.dequeue`, `FistqInv.timeddequeue`: each call
  keeps the invariant, and a dequeue that returns delivers the first node of its queues;
* `FistqInv.step`: a call leaves the local queues of the other handles alone (`LocalFrame`) and
  moves the nodes of its own handle as `Moves` says; `FistqInv.runWith`, `FistqInv.run`: the run
  lemma, also for any invariant that every step keeps;
* `fistqRun_conserves`: over every interleaving of the calls of any number of handles, every
  queue is well formed and no item is lost or delivered twice;
* `fistqRun_dequeue_ready`: a dequeue waits only while both of its queues are empty, and
  otherwise delivers an item.
-/

namespace Pd3Estimator

/-! ### Queues -/

/-- The `next` fields of the `queue_node_t`s. -/
def FistqState.nodeNext (s : FistqState) : NextHeap := fun a => s.next (.node a)

theorem FistqState.setNext_node_nodeNext (s : FistqState) (a : Nat) (v : Option Nat) :
    (s.setNext (.node a) v).nodeNext = Function.update s.nodeNext a v :=
  Function.update_comp_eq_of_injective s.next (fun _ _ h => Loc.node.inj h) a v

theorem FistqState.setNext_head_nodeNext (s : FistqState) (q : QueueId) (v : Option Nat) :
    (s.setNext (.head q) v).nodeNext = s.nodeNext :=
  funext fun _ => by simp [FistqState.nodeNext]

/-- Queue `q` holds the nodes `xs`: its chain, its `tail` and its `size` are those of `xs`. -/
structure QueueHolds (s : FistqState) (q : QueueId) (xs : List Nat) : Prop where
  chain : Chain s.nodeNext (s.next (.head q)) xs
  tail : s.tail q = (xs.getLast?.map Loc.node).getD (.head q)
  size : (s.size q).toNat = xs.length

theorem queueHolds_init (q : QueueId) : QueueHolds .init q [] := ⟨rfl, rfl, rfl⟩

section Queues
variable {s s' : FistqState} {q q' : QueueId} {xs ys : List Nat}

/-- A queue is read at its dummy head, its nodes, its `tail` and its `size` only. -/
theorem QueueHolds.congr (h : QueueHolds s q xs) (hh : s'.next (.head q) = s.next (.head q))
    (hn : ∀ a ∈ xs, s'.next (.node a) = s.next (.node a)) (ht : s'.tail q = s.tail q)
    (hs : s'.size q = s.size q) : QueueHolds s' q xs where
  chain := by
    rw [hh]
    exact h.chain.congr hn
  tail := ht.trans h.tail
  size := hs ▸ h.size

theorem QueueHolds.setNext (h : QueueHolds s q xs) {l : Loc} (hl : l ≠ .head q)
    (hn : ∀ a ∈ xs, l ≠ .node a) (v : Option Nat) : QueueHolds (s.setNext l v) q xs :=
  h.congr (Function.update_noteq (Ne.symm hl) _ _)
    (fun a ha => Function.update_noteq (Ne.symm (hn a ha)) _ _) rfl rfl

theorem QueueHolds.setTail (h : QueueHolds s q xs) (hq : q' ≠ q) (l : Loc) :
    QueueHolds (s.setTail q' l) q xs :=
  h.congr rfl (fun _ _ => rfl) (Function.update_noteq (Ne.symm hq) _ _) rfl

theorem QueueHolds.setSize (h : QueueHolds s q xs) (hq : q' ≠ q) (n : UInt32) :
    QueueHolds (s.setSize q' n) q xs :=
  h.congr rfl (fun _ _ => rfl) rfl (Function.update_noteq (Ne.symm hq) _ _)

/-- The `tail` of queue `q'` lies outside every other queue whose nodes are not `q'`'s. -/
theorem QueueHolds.tail_outside (h : QueueHolds s q' ys) (hq : q' ≠ q)
    (hd : ∀ a ∈ xs, a ∉ ys) : s.tail q' ≠ .head q ∧ ∀ a ∈ xs, s.tail q' ≠ .node a := by
  rw [h.tail]
  cases hl : ys.getLast? with
  | none => simpa using hq
  | some l =>
    have hly : l ∈ ys := List.mem_of_mem_getLast? hl
    exact ⟨by simp, fun a ha he => hd a ha (Loc.node.inj he ▸ hly)⟩

theorem QueueHolds.tail_ne_node (h : QueueHolds s q xs) {a : Nat} (ha : a ∉ xs) :
    s.tail q ≠ .node a := by
  rw [h.tail]
  cases hl : xs.getLast? with
  | none => simp
  | some l => exact fun he => ha (Loc.node.inj he ▸ List.mem_of_mem_getLast? hl)

theorem QueueHolds.size_eq_zero (h : QueueHolds s q xs) : s.size q = 0 ↔ xs = [] := by
  rw [eq_iff_toNat, h.size]
  exact List.length_eq_zero

/-- **`q->tail->next = qn; q->tail = qn; q->size++`** puts a node that is on no list, with a
`NULL` `next`, at the end of `q`. -/
theorem QueueHolds.append (h : QueueHolds s q xs) (hnd : xs.Nodup) {qn : Nat} (hqn : qn ∉ xs)
    (hnext : s.next (.node qn) = none) (hlen : xs.length + 1 < 2 ^ 32) :
    QueueHolds (s.append q qn) q (xs ++ [qn]) := by
  refine ⟨?_, by simp, ?_⟩
  · rcases List.eq_nil_or_concat xs with rfl | ⟨ys, l, rfl⟩
    · -- the tail is the dummy head
      have ht : s.tail q = .head q := h.tail
      show Chain _ ((s.append q qn).next (.head q)) [qn]
      rw [FistqState.append_next, ht]
      exact ⟨Function.update_same _ _ _, by simpa [FistqState.nodeNext, Function.update_apply, ht]⟩
    · -- the tail is the last node `l`, which now links to `qn`
      rw [List.concat_eq_append] at h hnd hqn ⊢
      have ht : s.tail q = .node l := by rw [h.tail, List.getLast?_concat]; rfl
      have hly : l ∉ ys := fun hl => (List.nodup_append.1 hnd).2.2 hl (List.mem_singleton_self l)
      have hlq : l ∉ [qn] := by
        simpa using fun (he : l = qn) =>
          hqn (he ▸ List.mem_append_right _ (List.mem_singleton_self l))
      have hq : Chain s.nodeNext (some qn) [qn] := ⟨rfl, hnext⟩
      have hc := Chain.link hq hlq hly h.chain
      have hnn : ∀ a ∈ ys ++ [l] ++ [qn],
          (s.append q qn).nodeNext a = Function.update s.nodeNext l (some qn) a := fun a _ => by
        simp only [FistqState.nodeNext, FistqState.append_next, ht, Function.update_apply,
          Loc.node.injEq]
      rw [FistqState.append_next, ht, Function.update_noteq (by simp)]
      exact hc.congr hnn
  · rw [FistqState.append_size, Function.update_same, toNat_add', h.size, toNat_one,
      List.length_append, List.length_singleton]
    omega

theorem QueueHolds.append_other (h : QueueHolds s q' ys) (hq : q ≠ q')
    (htail : s.tail q ≠ .head q' ∧ ∀ a ∈ ys, s.tail q ≠ .node a) (qn : Nat) :
    QueueHolds (s.append q qn) q' ys :=
  ((h.setNext htail.1 htail.2 _).setTail hq _).setSize hq _

/-- **Splicing** queue `src` (not empty) onto the end of `dst` gives `dst` the nodes of both, in
order. -/
theorem QueueHolds.splice (hd : QueueHolds s q xs) (hs : QueueHolds s q' ys) (hne : q ≠ q')
    (hys : ys ≠ []) (hnd : (xs ++ ys).Nodup) (hlen : (xs ++ ys).length < 2 ^ 32) :
    QueueHolds (s.splice q q') q (xs ++ ys) := by
  have hl : ys.getLast? = some (ys.getLast hys) := List.getLast?_eq_getLast ys hys
  have hhead : (Loc.head q' : Loc) ≠ .head q := by simpa using hne.symm
  refine ⟨?_, ?_, ?_⟩
  · rcases List.eq_nil_or_concat xs with rfl | ⟨zs, l, rfl⟩
    · -- the dummy head of `dst` now links to the first node of `src`
      have ht : s.tail q = .head q := hd.tail
      show Chain _ ((s.splice q q').next (.head q)) ys
      rw [FistqState.splice_next, ht, Function.update_noteq hhead.symm, Function.update_same]
      exact hs.chain.congr fun a _ => by simp [FistqState.nodeNext, ht, Function.update_apply]
    · -- the last node `l` of `dst` now links to the first node of `src`
      rw [List.concat_eq_append] at hd hnd ⊢
      have ht : s.tail q = .node l := by rw [hd.tail, List.getLast?_concat]; rfl
      have hly : l ∉ ys := fun h' =>
        (List.nodup_append.1 hnd).2.2 (List.mem_append_right _ (List.mem_singleton_self l)) h'
      have hlz : l ∉ zs := fun h' =>
        (List.nodup_append.1 (List.nodup_append.1 hnd).1).2.2 h' (List.mem_singleton_self l)
      have hc := Chain.link hs.chain hly hlz hd.chain
      rw [FistqState.splice_next, ht, Function.update_noteq hhead.symm,
        Function.update_noteq (by simp)]
      exact hc.congr fun a _ => by simp [FistqState.nodeNext, ht, Function.update_apply]
  · rw [FistqState.splice_tail, Function.update_noteq hne, Function.update_same, hs.tail,
      List.getLast?_append, hl]
    rfl
  · rw [FistqState.splice_size, Function.update_noteq hne, Function.update_same, toNat_add',
      hd.size, hs.size]
    rw [List.length_append] at hlen ⊢
    omega

theorem queueHolds_splice_src (s : FistqState) (q q' : QueueId) :
    QueueHolds (s.splice q q') q' [] :=
  ⟨Function.update_same _ _ _, Function.update_same _ _ _, by simp⟩

theorem QueueHolds.splice_other {q'' : QueueId} {zs : List Nat} (h : QueueHolds s q'' zs)
    (hd : QueueHolds s q xs) (hq : q ≠ q'') (hq' : q' ≠ q'') (hdis : ∀ a ∈ zs, a ∉ xs) :
    QueueHolds (s.splice q q') q'' zs :=
  have ht := hd.tail_outside hq hdis
  (((((h.setNext ht.1 ht.2 _).setTail hq _).setNext (by simpa using hq') (by simp) _).setTail
    hq' _).setSize hq _).setSize hq' _

/-- **The end of both dequeue functions** unlinks the first node `qn` of the local queue and
returns its data, leaving every other queue alone. -/
theorem QueueHolds.popLocal {hh qn : Nat} {rest : List Nat}
    (h : QueueHolds s (.lq hh) (qn :: rest)) :
    ∃ s', s.popLocal hh = some (s', s.data qn, s.type qn) ∧ QueueHolds s' (.lq hh) rest ∧
      s'.data = s.data ∧ s'.fresh = s.fresh ∧
      ∀ q ys, q ≠ .lq hh → QueueHolds s q ys → QueueHolds s' q ys := by
  have hp : s.next (.head (.lq hh)) = some qn := h.chain.1
  have hlt := toNat_lt_two_pow (s.size (.lq hh))
  rw [h.size, List.length_cons] at hlt
  have hsz : (s.size (.lq hh) - 1).toNat = rest.length := by
    rw [toNat_sub', h.size, toNat_one, List.length_cons]
    omega
  have hz : s.size (.lq hh) - 1 = 0 ↔ rest = [] := by
    rw [eq_iff_toNat, hsz]
    exact List.length_eq_zero
  -- the queue after the unlink and the decrement, before the reset of `tail`
  have hc : Chain (s.setNext (.head (.lq hh)) (s.next (.node qn))).nodeNext
      (s.next (.node qn)) rest := by
    rw [FistqState.setNext_head_nodeNext]
    exact h.chain.2
  have hframe : ∀ q ys, q ≠ .lq hh → QueueHolds s q ys →
      QueueHolds ((s.setNext (.head (.lq hh)) (s.next (.node qn))).setSize (.lq hh)
        (s.size (.lq hh) - 1)) q ys :=
    fun q ys hq hq' => (hq'.setNext (by simpa using hq.symm) (by simp) _).setSize hq.symm _
  simp only [FistqState.popLocal, hp, FistqState.setSize_size, FistqState.setNext_size,
    Function.update_same]
  by_cases h0 : rest = []
  · -- the queue is now empty, and `tail` goes back to the dummy head
    subst h0
    rw [if_pos (hz.2 rfl)]
    exact ⟨_, rfl, ⟨by simpa using hc, Function.update_same _ _ _, by simpa using hsz⟩, rfl,
      rfl, fun q ys hq hq' => (hframe q ys hq hq').setTail hq.symm _⟩
  · rw [if_neg (mt hz.1 h0)]
    obtain ⟨r, rs, rfl⟩ := List.exists_cons_of_ne_nil h0
    refine ⟨_, rfl, ⟨by simpa using hc, ?_, by simpa using hsz⟩, rfl, rfl, hframe⟩
    simp only [FistqState.setSize_tail, FistqState.setNext_tail, h.tail, List.getLast?_cons_cons]

end Queues

/-! ### The ownership -/

/-- **The ownership of the fistq's nodes**: queue `q` holds `v (some q)`, `v none` lists the
nodes delivered so far, oldest first, and together they share out the nodes `calloc` returned;
every node carries non-`NULL` data. -/
structure FistqInv (s : FistqState) (v : Option QueueId → List Nat) : Prop where
  holds : ∀ q, QueueHolds s q (v (some q))
  part : Partition v s.fresh
  data : ∀ a < s.fresh, s.data a ≠ 0

theorem fistqInv_init : FistqInv .init fun _ => [] :=
  ⟨queueHolds_init, Partition.empty, fun _ h => absurd h (Nat.not_lt_zero _)⟩

/-- `s'` keeps the nodes of `s` with their data, and has new nodes carrying `ds`. -/
def Allocated (s s' : FistqState) (ds : List Nat) : Prop :=
  (List.range s'.fresh).map s'.data = (List.range s.fresh).map s.data ++ ds

theorem Allocated.of_eq {s s' : FistqState} (hd : s'.data = s.data) (hf : s'.fresh = s.fresh) :
    Allocated s s' [] := by
  rw [Allocated, hd, hf, List.append_nil]

theorem Allocated.congr_right {s s₁ s₂ : FistqState} {ds : List Nat} (h : Allocated s s₁ ds)
    (hd : s₂.data = s₁.data) (hf : s₂.fresh = s₁.fresh) : Allocated s s₂ ds := by
  rw [Allocated, hd, hf]
  exact h

theorem Allocated.fresh_eq {s s' : FistqState} {ds : List Nat} (h : Allocated s s' ds) :
    s'.fresh = s.fresh + ds.length := by
  simpa using congrArg List.length h

theorem Allocated.trans {s₁ s₂ s₃ : FistqState} {ds₁ ds₂ : List Nat} (h₁ : Allocated s₁ s₂ ds₁)
    (h₂ : Allocated s₂ s₃ ds₂) : Allocated s₁ s₃ (ds₁ ++ ds₂) := by
  rw [Allocated, h₂, h₁, List.append_assoc]

/-- The nodes of `s` keep their data. -/
theorem Allocated.data_eq {s s' : FistqState} {ds : List Nat} (h : Allocated s s' ds) {a : Nat}
    (ha : a < s.fresh) : s'.data a = s.data a := by
  have hl := congrArg List.length h
  simp only [List.length_map, List.length_range, List.length_append] at hl
  have h' := congrArg (·[a]?) h
  have ha' : a < ((List.range s.fresh).map s.data).length := by simpa using ha
  simp only [List.getElem?_append_left ha', List.getElem?_map, List.getElem?_range ha,
    List.getElem?_range (show a < s'.fresh by omega), Option.map_some'] at h'
  exact Option.some.inj h'

theorem allocated_newNode (s : FistqState) (data : Nat) (type : FistqDataType) :
    Allocated s (s.newNode data type).1 [data] := by
  simp only [Allocated, FistqState.newNode, List.range_succ, List.map_append, List.map_singleton,
    Function.update_same]
  congr 1
  exact List.map_congr_left fun a ha => Function.update_noteq (List.mem_range.1 ha).ne _ _

section Inv
variable {s : FistqState} {v : Option QueueId → List Nat}

/-- **`calloc` and the append** of the new node to the end of queue `q`. -/
theorem FistqInv.newAppend (h : FistqInv s v) (hf : s.fresh + 1 < 2 ^ 32) {data : Nat}
    (hd : data ≠ 0) (type : FistqDataType) (q : QueueId) :
    FistqInv (((s.newNode data type).1).append q s.fresh)
      (Function.update v (some q) (v (some q) ++ [s.fresh])) := by
  -- `calloc` changes no queue
  have h₁ : ∀ q', QueueHolds (s.newNode data type).1 q' (v (some q')) := fun q' =>
    (h.holds q').congr (by simp [FistqState.newNode])
      (fun a ha => Function.update_noteq (by simpa using (h.part.lt ha).ne) _ _) rfl rfl
  refine ⟨fun q' => ?_, h.part.fresh (List.perm_append_singleton _ _), fun a ha => ?_⟩
  · by_cases hq : q' = q
    · subst hq
      rw [Function.update_same]
      exact (h₁ q').append (h.part.nodup _) (h.part.fresh_not_mem _)
        (Function.update_same _ _ _) (by have := h.part.length_le (some q'); omega)
    · rw [Function.update_noteq (by simpa using hq)]
      exact (h₁ q').append_other (Ne.symm hq) ((h₁ q).tail_outside (Ne.symm hq)
        fun a ha => h.part.not_mem (by simpa using hq) ha) _
  · show Function.update s.data s.fresh data a ≠ 0
    rw [Function.update_apply]
    split_ifs with ha'
    · exact hd
    · exact h.data a (by simp [FistqState.newNode] at ha; omega)

/-- **Splicing** queue `src` (not empty) onto the end of `dst` moves its nodes there. -/
theorem FistqInv.splice (h : FistqInv s v) (hf : s.fresh < 2 ^ 32) (dst src : QueueId)
    (hne : dst ≠ src) (hsrc : v (some src) ≠ []) :
    FistqInv (s.splice dst src) (Function.update
      (Function.update v (some dst) (v (some dst) ++ v (some src))) (some src) []) := by
  have hij : (some dst : Option QueueId) ≠ some src := by simpa using hne
  refine ⟨fun q => ?_, h.part.update₂ hij (by rw [List.append_nil]), h.data⟩
  by_cases hs : q = src
  · subst hs
    rw [Function.update_same]
    exact queueHolds_splice_src _ _ _
  · rw [Function.update_noteq (by simpa using hs)]
    by_cases hd : q = dst
    · subst hd
      rw [Function.update_same]
      exact (h.holds q).splice (h.holds src) hne hsrc (h.part.nodup_append hij)
        (lt_of_le_of_lt (h.part.length_append_le hij) hf)
    · rw [Function.update_noteq (by simpa using hd)]
      exact (h.holds q).splice_other (h.holds dst) (Ne.symm hd) (Ne.symm hs)
        fun a ha => h.part.not_mem (by simpa using hd) ha

/-- **Unlinking** the first node `qn` of a local queue delivers it. -/
theorem FistqInv.popLocal (h : FistqInv s v) {hh qn : Nat} {rest : List Nat}
    (hq : v (some (.lq hh)) = qn :: rest) :
    ∃ s', s.popLocal hh = some (s', s.data qn, s.type qn) ∧
      FistqInv s' (Function.update (Function.update v (some (.lq hh)) rest) none
        (v none ++ [qn])) ∧ s'.data = s.data ∧ s'.fresh = s.fresh := by
  have hl : QueueHolds s (.lq hh) (qn :: rest) := hq ▸ h.holds (.lq hh)
  obtain ⟨s', hs', hl', hd, hf, hframe⟩ := hl.popLocal
  refine ⟨s', hs', ⟨fun q => ?_, ?_, ?_⟩, hd, hf⟩
  · rw [Function.update_noteq (by simp)]
    by_cases hql : q = .lq hh
    · subst hql
      rw [Function.update_same]
      exact hl'
    · rw [Function.update_noteq (by simpa using hql)]
      exact hframe q _ hql (h.holds q)
  · rw [hf]
    refine h.part.update₂ (by simp) ?_
    rw [hq, List.cons_append, ← List.append_assoc]
    exact List.perm_append_singleton _ _
  · rw [hf, hd]
    exact h.data

end Inv

/-! ### The calls -/

/-- The data of the items the calls enqueue: `fistq_enqueue_any` refuses `NULL`. -/
def enqueuedData (calls : List FistqCall) : List Nat :=
  calls.filterMap fun
    | .enqueue _ data _ _ => if data = 0 then none else some data
    | _ => none

theorem enqueuedData_cons (c : FistqCall) (cs : List FistqCall) :
    enqueuedData (c :: cs) = enqueuedData [c] ++ enqueuedData cs := by
  rw [enqueuedData, enqueuedData, enqueuedData, ← List.filterMap_append]
  rfl

theorem length_enqueuedData_singleton (c : FistqCall) : (enqueuedData [c]).length ≤ 1 := by
  cases c with
  | enqueue _ data => by_cases h : data = 0 <;> simp [enqueuedData, h]
  | _ => simp [enqueuedData]

/-- The handle a call is made through. -/
def FistqCall.handle : FistqCall → Nat
  | .enqueue hh _ _ _ => hh
  | .flush hh => hh
  | .dequeue hh => hh
  | .timeddequeue hh _ => hh

/-- The local queues of the handles other than `hh` hold what they held: a call through `hh`
touches no other handle's local queue. -/
def LocalFrame (hh : Nat) (v v' : Option QueueId → List Nat) : Prop :=
  ∀ fh, fh ≠ hh → v' (some (.lq fh)) = v (some (.lq fh))

theorem LocalFrame.refl (hh : Nat) (v : Option QueueId → List Nat) : LocalFrame hh v v :=
  fun _ _ => rfl

theorem LocalFrame.trans {hh : Nat} {v₁ v₂ v₃ : Option QueueId → List Nat}
    (h₁ : LocalFrame hh v₁ v₂) (h₂ : LocalFrame hh v₂ v₃) : LocalFrame hh v₁ v₃ :=
  fun fh hfh => (h₂ fh hfh).trans (h₁ fh hfh)

/-- Rewriting a list that is no other handle's local queue. -/
theorem LocalFrame.update {hh : Nat} {v : Option QueueId → List Nat} {i : Option QueueId}
    (hi : ∀ fh, fh ≠ hh → some (.lq fh) ≠ i) (l : List Nat) :
    LocalFrame hh v (Function.update v i l) :=
  fun fh hfh => Function.update_noteq (hi fh hfh) _ _

theorem localFrame_internal (hh : Nat) (v : Option QueueId → List Nat) (l : List Nat) :
    LocalFrame hh v (Function.update v (some .internal) l) :=
  LocalFrame.update (fun _ _ => by simp) l

theorem localFrame_lq (hh : Nat) (v : Option QueueId → List Nat) (l : List Nat) :
    LocalFrame hh v (Function.update v (some (.lq hh)) l) :=
  LocalFrame.update (fun _ hfh => by simpa using hfh) l

theorem localFrame_none (hh : Nat) (v : Option QueueId → List Nat) (l : List Nat) :
    LocalFrame hh v (Function.update v none l) :=
  LocalFrame.update (fun _ _ => by simp) l

section Calls
variable {s : FistqState} {v : Option QueueId → List Nat}

/-- **`fistq_flush`** moves the local queue, when it has items, to the end of the internal
one. -/
theorem FistqInv.flush (h : FistqInv s v) (hf : s.fresh < 2 ^ 32) (hh : Nat) :
    ∃ v', FistqInv (fistqFlush s hh).1 v' ∧ v' none = v none ∧ LocalFrame hh v v' ∧
      (fistqFlush s hh).1.data = s.data ∧ (fistqFlush s hh).1.fresh = s.fresh ∧
      v' (some (.lq hh)) = [] ∧ v' (some .internal) = v (some .internal) ++ v (some (.lq hh)) := by
  unfold fistqFlush
  split_ifs with h0
  · have hl := (h.holds _).size_eq_zero.1 h0
    exact ⟨v, h, rfl, LocalFrame.refl _ _, rfl, rfl, hl, by rw [hl, List.append_nil]⟩
  · exact ⟨_, h.splice hf .internal (.lq hh) (by simp)
      (fun he => h0 ((h.holds _).size_eq_zero.2 he)), by simp,
      (localFrame_internal _ _ _).trans (localFrame_lq _ _ _), rfl, rfl, by simp, by simp⟩

/-- Where `fistq_enqueue_any` through `hh` puts its new nodes `new`: on the end of the internal
queue (`FISTQ_FLUSH`), or on the end of the local queue, which it may then have moved to the end
of the internal one. -/
def Enqueues (hh : Nat) (new : List Nat) (v v' : Option QueueId → List Nat) : FlushOption → Prop
  | .flush => v' (some (.lq hh)) = v (some (.lq hh)) ∧
      v' (some .internal) = v (some .internal) ++ new
  | _ => v' (some (.lq hh)) = v (some (.lq hh)) ++ new ∧ v' (some .internal) = v (some .internal) ∨
      v' (some (.lq hh)) = [] ∧
        v' (some .internal) = v (some .internal) ++ (v (some (.lq hh)) ++ new)

/-- **`fistq_enqueue_any`** puts a non-`NULL` item on the internal queue (`FISTQ_FLUSH`) or on
the end of the local queue, which it then flushes at the threshold (`FISTQ_DEFAULT`). -/
theorem FistqInv.enqueue (h : FistqInv s v) (hf : s.fresh + 1 < 2 ^ 32) (hh data : Nat)
    (type : FistqDataType) (op : FlushOption) :
    ∃ v', FistqInv (fistqEnqueueAny s hh data type op).1 v' ∧ v' none = v none ∧
      LocalFrame hh v v' ∧ Enqueues hh (if data = 0 then [] else [s.fresh]) v v' op ∧
      Allocated s (fistqEnqueueAny s hh data type op).1 (if data = 0 then [] else [data]) := by
  by_cases hd : data = 0
  · simp only [fistqEnqueueAny, if_pos hd]
    exact ⟨v, h, rfl, LocalFrame.refl _ _, by cases op <;> simp [Enqueues],
      Allocated.of_eq rfl rfl⟩
  have hn := allocated_newNode s data type
  have hI := h.newAppend hf hd type .internal
  have hL := h.newAppend hf hd type (.lq hh)
  obtain ⟨s₁, hs₁⟩ : ∃ s₁, s.newNode data type = (s₁, s.fresh) := ⟨_, rfl⟩
  rw [hs₁] at hn hI hL
  simp only [fistqEnqueueAny, if_neg hd, hs₁]
  cases op with
  | flush =>
    exact ⟨_, hI, by simp, localFrame_internal _ _ _, by simp [Enqueues, hd],
      hn.congr_right rfl rfl⟩
  | noflush =>
    exact ⟨_, hL, by simp, localFrame_lq _ _ _, by simp [Enqueues, hd], hn.congr_right rfl rfl⟩
  | default =>
    simp only [reduceCtorEq, ne_eq, not_false_eq_true, true_and, if_false]
    split_ifs
    · have hf₁ : s₁.fresh = s.fresh + 1 := hn.fresh_eq
      obtain ⟨v', h', hv', hl', hd', hf', hlq, hi⟩ := hL.flush (by simpa [hf₁] using hf) hh
      exact ⟨v', h', by simp [hv'], (localFrame_lq _ _ _).trans hl',
        Or.inr ⟨hlq, by simpa [hd] using hi⟩, hn.congr_right hd' hf'⟩
    · exact ⟨_, hL, by simp, localFrame_lq _ _ _, by simp [Enqueues, hd], hn.congr_right rfl rfl⟩

/-- The queues of handle `hh` as its dequeues see them: its local queue, then the internal one. -/
def dequeueOrder (v : Option QueueId → List Nat) (hh : Nat) : List Nat :=
  v (some (.lq hh)) ++ v (some .internal)

/-- Node `qn` is unlinked by a dequeue through `hh`: the result carries its data and type, and
the new state `s'` has the ownership `v` with `qn` delivered last, taken off the front of the
handle's queues, and the local queues of the other handles as they were. -/
def Delivers (s : FistqState) (v : Option QueueId → List Nat) (hh qn : Nat) :
    Option (FistqState × Nat × FistqDataType) → Prop
  | none => False
  | some (s', data, type) => data = s.data qn ∧ type = s.type qn ∧ s'.data = s.data ∧
    s'.fresh = s.fresh ∧ ∃ v', FistqInv s' v' ∧ v' none = v none ++ [qn] ∧ LocalFrame hh v v' ∧
      dequeueOrder v hh = qn :: dequeueOrder v' hh

/-- **Unlinking** the first node of a nonempty local queue delivers it. -/
theorem FistqInv.popFirst (h : FistqInv s v) (hh : Nat) {qn : Nat} {rest : List Nat}
    (hq : v (some (.lq hh)) = qn :: rest) :
    s.size (.lq hh) ≠ 0 ∧ Delivers s v hh qn (s.popLocal hh) := by
  obtain ⟨s', hs', h', hd, hf⟩ := h.popLocal hq
  refine ⟨fun h0 => List.cons_ne_nil qn rest (hq ▸ (h.holds _).size_eq_zero.1 h0), ?_⟩
  rw [hs']
  exact ⟨rfl, rfl, hd, hf, _, h', by simp, (localFrame_lq _ _ _).trans (localFrame_none _ _ _),
    by simp [dequeueOrder, hq]⟩

/-- **Refilling** an empty local queue from a nonempty internal queue, then unlinking the first
node delivers the first node of the internal queue. -/
theorem FistqInv.refill (h : FistqInv s v) (hf : s.fresh < 2 ^ 32) {hh qn : Nat}
    {rest : List Nat} (hl : v (some (.lq hh)) = []) (hi : v (some .internal) = qn :: rest) :
    s.size (.lq hh) = 0 ∧ s.size .internal ≠ 0 ∧
      (s.splice (.lq hh) .internal).size (.lq hh) ≠ 0 ∧
      Delivers s v hh qn ((s.splice (.lq hh) .internal).popLocal hh) := by
  have h₁ := h.splice hf (.lq hh) .internal (by simp) (hi ▸ List.cons_ne_nil qn rest)
  obtain ⟨hsz, hpop⟩ := h₁.popFirst hh (show _ = qn :: rest by simp [hl, hi])
  refine ⟨(h.holds _).size_eq_zero.2 hl,
    fun h0 => List.cons_ne_nil qn rest (hi ▸ (h.holds _).size_eq_zero.1 h0), hsz, ?_⟩
  revert hpop
  cases (s.splice (.lq hh) .internal).popLocal hh with
  | none => exact id
  | some r => exact fun ⟨hd, ht, hd', hf', v', h', hv', hl', ho⟩ => ⟨hd, ht, hd', hf', v', h',
      by simp [hv'], ((localFrame_lq _ _ _).trans (localFrame_internal _ _ _)).trans hl',
      by rw [← ho]; simp [dequeueOrder, hl]⟩

/-- **`fistq_dequeue_any`** delivers the first node of the handle's queues. -/
theorem FistqInv.dequeue (h : FistqInv s v) (hf : s.fresh < 2 ^ 32) {hh qn : Nat}
    {rest : List Nat} (hq : dequeueOrder v hh = qn :: rest) :
    Delivers s v hh qn (fistqDequeueAny s hh) := by
  unfold fistqDequeueAny
  cases hl : v (some (.lq hh)) with
  | nil =>
    obtain ⟨h0, hi, hsz, hpop⟩ := h.refill hf hl (by simpa [dequeueOrder, hl] using hq)
    simpa only [if_pos h0, if_neg hi, if_neg hsz] using hpop
  | cons qn' rest' =>
    obtain ⟨rfl, -⟩ := List.cons.inj (by simpa [dequeueOrder, hl] using hq)
    obtain ⟨h0, hpop⟩ := h.popFirst hh hl
    simpa only [if_neg h0] using hpop

/-- **`fistq_timeddequeue_any`** delivers the first node of the handle's queues. -/
theorem FistqInv.timeddequeue (h : FistqInv s v) (hf : s.fresh < 2 ^ 32) {hh qn : Nat}
    {rest : List Nat} (timedOut : Bool) (hq : dequeueOrder v hh = qn :: rest) :
    Delivers s v hh qn (fistqTimeddequeueAny s hh timedOut) := by
  unfold fistqTimeddequeueAny
  cases hl : v (some (.lq hh)) with
  | nil =>
    obtain ⟨h0, hi, -, hpop⟩ := h.refill hf hl (by simpa [dequeueOrder, hl] using hq)
    simpa only [if_pos h0, if_neg hi] using hpop
  | cons qn' rest' =>
    obtain ⟨rfl, -⟩ := List.cons.inj (by simpa [dequeueOrder, hl] using hq)
    obtain ⟨h0, hpop⟩ := h.popFirst hh hl
    simpa only [if_neg h0] using hpop

/-- With both of its queues empty, a dequeue waits, and a timed dequeue waits until its deadline
and then returns `FISTQ_TYPE_TIMEOUT`. -/
theorem FistqInv.dequeue_empty (h : FistqInv s v) {hh : Nat} (hq : dequeueOrder v hh = [])
    (timedOut : Bool) : fistqDequeueAny s hh = none ∧
      fistqTimeddequeueAny s hh timedOut = if timedOut then some (s, 0, .timeout) else none := by
  obtain ⟨hl, hi⟩ := List.append_eq_nil.1 hq
  have h0 : s.size (.lq hh) = 0 := (h.holds _).size_eq_zero.2 hl
  have hi0 : s.size .internal = 0 := (h.holds _).size_eq_zero.2 hi
  simp only [fistqDequeueAny, fistqTimeddequeueAny, if_pos h0, if_pos hi0, and_true]

end Calls

/-! ### Runs -/

section Runs
variable {s : FistqState} {v : Option QueueId → List Nat}

/-- A node on a handle's queues was returned by `calloc`. -/
theorem FistqInv.first_lt (h : FistqInv s v) {hh qn : Nat} {rest : List Nat}
    (hq : dequeueOrder v hh = qn :: rest) : qn < s.fresh := by
  have hm : qn ∈ dequeueOrder v hh := hq ▸ List.mem_cons_self qn rest
  rcases List.mem_append.1 hm with hm | hm <;> exact h.part.lt hm

theorem Delivers.eq_some {hh qn : Nat} {r : Option (FistqState × Nat × FistqDataType)}
    (hr : Delivers s v hh qn r) : ∃ s', r = some (s', s.data qn, s.type qn) := by
  match r, hr with
  | some (s', _, _), ⟨rfl, rfl, _⟩ => exact ⟨s', rfl⟩

/-- A dequeue that delivers the first node of the handle's queues hands its caller that node's
data, which is not `NULL`. -/
theorem FistqInv.delivered_step (h : FistqInv s v) {hh qn : Nat} {rest : List Nat}
    (hq : dequeueOrder v hh = qn :: rest) {r : Option (FistqState × Nat × FistqDataType)}
    (hr : Delivers s v hh qn r) {s' : FistqState} {e : Option (Nat × Nat)}
    (hs : r.map (delivered hh) = some (s', e)) :
    ∃ v' out, FistqInv s' v' ∧ v' none = v none ++ out ∧ e.toList.map Prod.snd = out.map s'.data ∧
      LocalFrame hh v v' ∧ dequeueOrder v hh = out ++ dequeueOrder v' hh ∧ Allocated s s' [] := by
  match r, hr with
  | some (s'', _, _), ⟨rfl, rfl, hd, hf, v', h', hv', hl', ho⟩ =>
    have h0 : s.data qn ≠ 0 := h.data qn (h.first_lt hq)
    simp only [Option.map_some', delivered, if_neg h0, Option.some.injEq, Prod.mk.injEq] at hs
    obtain ⟨rfl, rfl⟩ := hs
    exact ⟨v', [qn], h', hv', by simp [hd], hl', ho, Allocated.of_eq hd hf⟩

/-- What a call does to the queues of its handle, `n` being the next node and `out` the nodes it
delivers: an enqueue delivers nothing and puts its node where `Enqueues` says, a flush delivers
nothing and moves the local queue to the end of the internal one, and a dequeue takes `out` off
the front of the handle's queues. -/
def Moves (n : Nat) (out : List Nat) (v v' : Option QueueId → List Nat) : FistqCall → Prop
  | .enqueue hh data _ op => out = [] ∧ Enqueues hh (if data = 0 then [] else [n]) v v' op
  | .flush hh => out = [] ∧ v' (some (.lq hh)) = [] ∧
      v' (some .internal) = v (some .internal) ++ v (some (.lq hh))
  | .dequeue hh => dequeueOrder v hh = out ++ dequeueOrder v' hh
  | .timeddequeue hh _ => dequeueOrder v hh = out ++ dequeueOrder v' hh

/-- **One call keeps the ownership**: it delivers the nodes `out`, which carry the data it hands
back, the node it `calloc`s carries the datum it enqueues, it moves the nodes of its handle's
queues as `Moves` says, and it touches the local queue of no other handle. -/
theorem FistqInv.step (h : FistqInv s v) (hf : s.fresh + 1 < 2 ^ 32) {c : FistqCall}
    {s' : FistqState} {e : Option (Nat × Nat)} (hs : fistqStep s c = some (s', e)) :
    ∃ v' out, FistqInv s' v' ∧ v' none = v none ++ out ∧ e.toList.map Prod.snd = out.map s'.data ∧
      LocalFrame c.handle v v' ∧ Moves s.fresh out v v' c ∧ Allocated s s' (enqueuedData [c]) := by
  cases c with
  | enqueue hh data type op =>
    simp only [fistqStep, Option.some.injEq, Prod.mk.injEq] at hs
    obtain ⟨rfl, rfl⟩ := hs
    obtain ⟨v', h', hv', hl', hm, ha⟩ := h.enqueue hf hh data type op
    refine ⟨v', [], h', by simp [hv'], rfl, hl', ⟨rfl, hm⟩, ?_⟩
    by_cases hd : data = 0 <;> simpa [enqueuedData, hd] using ha
  | flush hh =>
    simp only [fistqStep, Option.some.injEq, Prod.mk.injEq] at hs
    obtain ⟨rfl, rfl⟩ := hs
    obtain ⟨v', h', hv', hl', hd, hfr, hm⟩ := h.flush (by omega) hh
    exact ⟨v', [], h', by simp [hv'], rfl, hl', ⟨rfl, hm⟩, Allocated.of_eq hd hfr⟩
  | dequeue hh =>
    cases hq : dequeueOrder v hh with
    | nil => simp [fistqStep, (h.dequeue_empty hq false).1] at hs
    | cons qn rest => exact h.delivered_step hq (h.dequeue (by omega) hq) hs
  | timeddequeue hh timedOut =>
    cases hq : dequeueOrder v hh with
    | nil =>
      rw [fistqStep, (h.dequeue_empty hq timedOut).2] at hs
      cases timedOut <;> simp [delivered] at hs
      obtain ⟨rfl, rfl⟩ := hs
      exact ⟨v, [], h, by simp, rfl, LocalFrame.refl _ _, rfl, Allocated.of_eq rfl rfl⟩
    | cons qn rest => exact h.delivered_step hq (h.timeddequeue (by omega) timedOut hq) hs

theorem length_enqueuedData_le (calls : List FistqCall) :
    (enqueuedData calls).length ≤ calls.length :=
  List.length_filterMap_le _ _

/-- **Every run keeps the ownership**, and with it every invariant `J` that each call `I`
allows keeps: the nodes a run delivers carry the data it hands back, in order, the nodes it
`calloc`s carry the data it enqueues, in order, and the local queue of a handle that makes none of
its calls holds what it held. -/
theorem FistqInv.runWith {I : FistqCall → Prop}
    {J : FistqState → (Option QueueId → List Nat) → Prop}
    (hJ : ∀ {s s' : FistqState} {v v' : Option QueueId → List Nat} {out : List Nat}
      {c : FistqCall}, I c → FistqInv s v → J s v → FistqInv s' v' → v' none = v none ++ out →
      LocalFrame c.handle v v' → Moves s.fresh out v v' c → Allocated s s' (enqueuedData [c]) →
      J s' v') :
    ∀ {calls : List FistqCall} {s s' : FistqState} {v : Option QueueId → List Nat}
      {tr : List (Nat × Nat)}, (∀ c ∈ calls, I c) → FistqInv s v → J s v →
      s.fresh + calls.length < 2 ^ 32 → fistqRun s calls = some (s', tr) →
      ∃ v' out, FistqInv s' v' ∧ J s' v' ∧ v' none = v none ++ out ∧
        tr.map Prod.snd = out.map s'.data ∧
        (∀ fh, (∀ c ∈ calls, c.handle ≠ fh) → v' (some (.lq fh)) = v (some (.lq fh))) ∧
        Allocated s s' (enqueuedData calls)
  | [], s, s', v, tr, _, h, hj, _, hr => by
    simp only [fistqRun, Option.some.injEq, Prod.mk.injEq] at hr
    obtain ⟨rfl, rfl⟩ := hr
    exact ⟨v, [], h, hj, by simp, rfl, fun _ _ => rfl, Allocated.of_eq rfl rfl⟩
  | c :: cs, s, s', v, tr, hI, h, hj, hf, hr => by
    obtain ⟨⟨s₁, e⟩, hs, hr₁⟩ := Option.bind_eq_some.1 hr
    obtain ⟨⟨s₂, t⟩, hr₂, heq⟩ := Option.map_eq_some'.1 hr₁
    simp only [Prod.mk.injEq] at heq
    obtain ⟨rfl, rfl⟩ := heq
    simp only [List.length_cons] at hf
    obtain ⟨v₁, out₁, h₁, hv₁, he, hl₁, hm₁, ha₁⟩ := h.step (by omega) hs
    have hf₁ : s₁.fresh + cs.length < 2 ^ 32 := by
      have := ha₁.fresh_eq
      have := length_enqueuedData_singleton c
      omega
    obtain ⟨v₂, out₂, h₂, hj₂, hv₂, ht, hl₂, ha₂⟩ :=
      FistqInv.runWith hJ (fun c' hc' => hI c' (List.mem_cons_of_mem _ hc')) h₁
        (hJ (hI c (List.mem_cons_self _ _)) h hj h₁ hv₁ hl₁ hm₁ ha₁) hf₁ hr₂
    refine ⟨v₂, out₁ ++ out₂, h₂, hj₂, by rw [hv₂, hv₁, List.append_assoc], ?_,
      fun fh hc => (hl₂ fh fun c' hc' => hc c' (List.mem_cons_of_mem _ hc')).trans
        (hl₁ fh (Ne.symm (hc c (List.mem_cons_self _ _)))), ?_⟩
    · -- the nodes delivered first keep their data
      rw [List.map_append, List.map_append, he, ht]
      congr 1
      exact List.map_congr_left fun a ha =>
        (ha₂.data_eq (h₁.part.lt (hv₁ ▸ List.mem_append_right _ ha))).symm
    · rw [enqueuedData_cons]
      exact ha₁.trans ha₂

theorem FistqInv.run {calls : List FistqCall} {s s' : FistqState}
    {v : Option QueueId → List Nat} {tr : List (Nat × Nat)} (h : FistqInv s v)
    (hf : s.fresh + calls.length < 2 ^ 32) (hr : fistqRun s calls = some (s', tr)) :
    ∃ v' out, FistqInv s' v' ∧ v' none = v none ++ out ∧ tr.map Prod.snd = out.map s'.data ∧
      (∀ fh, (∀ c ∈ calls, c.handle ≠ fh) → v' (some (.lq fh)) = v (some (.lq fh))) ∧
      Allocated s s' (enqueuedData calls) := by
  obtain ⟨v', out, h', -, hr'⟩ := FistqInv.runWith (I := fun _ => True) (J := fun _ _ => True)
    (fun _ _ _ _ _ _ _ _ => trivial) (fun _ _ => trivial) h trivial hf hr
  exact ⟨v', out, h', hr'⟩

/-- **No item is lost or delivered twice**, over every interleaving of the calls of any number
of handles, from the fistq `fistq_create_unsafe` makes: every queue is well formed, every node
`calloc` returned is on exactly one queue, once, or was delivered, once, the nodes carry the
data enqueued, in order, and the data the dequeues hand back are those of the delivered nodes,
in order. -/
theorem fistqRun_conserves {calls : List FistqCall} {s : FistqState} {tr : List (Nat × Nat)}
    (hlen : calls.length < 2 ^ 32) (hrun : fistqRun .init calls = some (s, tr)) :
    ∃ v : Option QueueId → List Nat, (∀ q, QueueHolds s q (v (some q))) ∧ Partition v s.fresh ∧
      tr.map Prod.snd = (v none).map s.data ∧
      (List.range s.fresh).map s.data = enqueuedData calls := by
  obtain ⟨v, out, h, hv, htr, -, ha⟩ := fistqInv_init.run (by simpa [FistqState.init] using hlen) hrun
  exact ⟨v, h.holds, h.part, by rw [htr, hv]; rfl, by simpa [Allocated, FistqState.init] using ha⟩

/-- Two producers and a consumer: the consumer's timed dequeue takes producer 1's flushed item,
then producer 0's item after its flush, and times out on the empty queues. -/
theorem fistqRun_conserves_two_producers :
    ∃ s tr, fistqRun .init [.enqueue 0 5 .pinfo .noflush, .enqueue 1 6 .pinfo .flush,
      .timeddequeue 2 false, .flush 0, .timeddequeue 2 false, .timeddequeue 2 true] = some (s, tr) ∧
    ∃ v : Option QueueId → List Nat, (∀ q, QueueHolds s q (v (some q))) ∧ Partition v s.fresh ∧
      tr.map Prod.snd = (v none).map s.data ∧
      (List.range s.fresh).map s.data = enqueuedData [.enqueue 0 5 .pinfo .noflush,
        .enqueue 1 6 .pinfo .flush, .timeddequeue 2 false, .flush 0, .timeddequeue 2 false,
        .timeddequeue 2 true] :=
  ⟨_, _, rfl, fistqRun_conserves (by decide) rfl⟩

/-- **A dequeue waits only while both of its queues are empty**: in every state a run reaches, a
dequeue by any handle, blocking or timed, delivers the first node of its local queue, or of the
internal queue when the local one is empty, with that node's data, which is not `NULL`; with
both queues empty, `fistq_dequeue_any` waits and `fistq_timeddequeue_any` returns
`FISTQ_TYPE_TIMEOUT` at its deadline. -/
theorem fistqRun_dequeue_ready {calls : List FistqCall} {s : FistqState} {tr : List (Nat × Nat)}
    (hlen : calls.length < 2 ^ 32) (hrun : fistqRun .init calls = some (s, tr)) :
    ∃ v : Option QueueId → List Nat, (∀ q, QueueHolds s q (v (some q))) ∧ ∀ hh timedOut,
      (dequeueOrder v hh = [] → fistqDequeueAny s hh = none ∧
        fistqTimeddequeueAny s hh timedOut = if timedOut then some (s, 0, .timeout) else none) ∧
      ∀ qn rest, dequeueOrder v hh = qn :: rest → s.data qn ≠ 0 ∧
        (∃ s', fistqDequeueAny s hh = some (s', s.data qn, s.type qn)) ∧
        ∃ s', fistqTimeddequeueAny s hh timedOut = some (s', s.data qn, s.type qn) := by
  obtain ⟨v, -, h, -, -, -, ha⟩ := fistqInv_init.run (by simpa [FistqState.init] using hlen) hrun
  have hf : s.fresh < 2 ^ 32 := by
    have := ha.fresh_eq
    have := length_enqueuedData_le calls
    simp only [FistqState.init, zero_add] at *
    omega
  exact ⟨v, h.holds, fun hh timedOut => ⟨fun hq => h.dequeue_empty hq timedOut,
    fun qn rest hq => ⟨h.data qn (h.first_lt hq), (h.dequeue hf hq).eq_some,
      (h.timeddequeue hf timedOut hq).eq_some⟩⟩⟩

/-- Producer 0 enqueues an item without flushing it, then flushes: in the state reached, a dequeue
by any other handle delivers that item. -/
theorem fistqRun_dequeue_ready_unflushed :
    ∃ s tr, fistqRun .init [.enqueue 0 5 .pinfo .noflush, .flush 0] = some (s, tr) ∧
    ∃ v : Option QueueId → List Nat, (∀ q, QueueHolds s q (v (some q))) ∧ ∀ hh timedOut,
      (dequeueOrder v hh = [] → fistqDequeueAny s hh = none ∧
        fistqTimeddequeueAny s hh timedOut = if timedOut then some (s, 0, .timeout) else none) ∧
      ∀ qn rest, dequeueOrder v hh = qn :: rest → s.data qn ≠ 0 ∧
        (∃ s', fistqDequeueAny s hh = some (s', s.data qn, s.type qn)) ∧
        ∃ s', fistqTimeddequeueAny s hh timedOut = some (s', s.data qn, s.type qn) :=
  ⟨_, _, rfl,
    @fistqRun_dequeue_ready [.enqueue 0 5 .pinfo .noflush, .flush 0] _ _ (by decide) rfl⟩

end Runs


end Pd3Estimator
