import Pd3Estimator.LossPermutation
import Mathlib.Algebra.Order.BigOperators.Group.List

/-!
# What the loss estimator counts over a run

`lossdataA2r_canon` reads one call of `lossdata_a2r` on sequence numbers: the sweep
`tallySeqnos` from a base over the sorted sequence numbers up to `lossTop`. Here a whole run of
one stream whose sequence numbers are distinct and lie in `[1, 2 ^ 31)`.

* `LossCounter`: a tally of `lossDataR` that the sweep raises by a function of the gap at each
  sequence number it counts (`received`, `dropped`, `gap_total`, `consecutive_drops`,
  `gap_count`); `LossCounter.tallySeqnos_toNat`: over increasing sequence numbers above its base
  the sweep raises it by a sum over the gaps between them (`gapsFrom`), without overflow;
* `lossBase` and `lossCounted`: where one call starts counting and what it counts;
* `lossSweeps`: the run read on sequence numbers, a base and the counted sequence numbers per
  call; `lossRun_sweeps`: the reporter's calls compute it;
* `Chained`: each call counts from where the one before stopped, so the tallies summed over the
  calls are one sweep over everything the run counts (`LossCounter.sum_chained`);
* `lossReport_in_order`: on an in-order stream that is the processed arrivals, so the summed
  tallies are exact;
* `lossReport_counts_once`: whatever the order of arrivals, it is distinct arrivals in increasing
  order, so no sequence number is counted twice, and received plus dropped stays within the span
  of the arrivals.
-/

namespace Pd3Estimator

/-! ### Gaps -/

/-- The gaps the sweep measures when it counts the increasing `xs` after `prev`. -/
def gapsFrom : Nat → List Nat → List Nat
  | _, [] => []
  | prev, x :: xs => (x - prev - 1) :: gapsFrom x xs

theorem gapsFrom_eq_zipWith : ∀ (prev : Nat) (xs : List Nat),
    gapsFrom prev xs = List.zipWith (fun a b => b - a - 1) (prev :: xs) xs
  | _, [] => rfl
  | prev, x :: xs => by rw [gapsFrom, gapsFrom_eq_zipWith x xs]; rfl

theorem length_gapsFrom : ∀ (prev : Nat) (xs : List Nat), (gapsFrom prev xs).length = xs.length
  | _, [] => rfl
  | _, x :: xs => congrArg Nat.succ (length_gapsFrom x xs)

theorem gapsFrom_append (prev : Nat) (xs ys : List Nat) :
    gapsFrom prev (xs ++ ys) = gapsFrom prev xs ++ gapsFrom (xs.getLastD prev) ys := by
  induction xs generalizing prev with
  | nil => rfl
  | cons x xs ih =>
    rw [List.cons_append, gapsFrom, gapsFrom, ih, List.getLastD_cons, List.cons_append]

/-- Each counted sequence number and the gap before it span the distance from `prev` to the
last one. -/
theorem sum_gapsFrom_succ : ∀ {prev : Nat} {xs : List Nat}, (prev :: xs).Sorted (· < ·) →
    ((gapsFrom prev xs).map (· + 1)).sum + prev = xs.getLastD prev
  | _, [], _ => Nat.zero_add _
  | _, x :: _, h => by
    have hx := List.rel_of_sorted_cons h x (List.mem_cons_self _ _)
    have ih := sum_gapsFrom_succ (List.sorted_cons.1 h).2
    rw [gapsFrom, List.map_cons, List.sum_cons, List.getLastD_cons]
    omega

/-- In increasing `a :: l`, a continuation of `l` above its last element keeps the order. -/
theorem sorted_append_of_getLastD : ∀ {a : Nat} {l m : List Nat}, (a :: l).Sorted (· < ·) →
    (l.getLastD a :: m).Sorted (· < ·) → (a :: (l ++ m)).Sorted (· < ·)
  | _, [], _, _, h₂ => h₂
  | a, x :: l, m, h₁, h₂ => by
    have ih := sorted_append_of_getLastD (List.sorted_cons.1 h₁).2 (List.getLastD_cons a x l ▸ h₂)
    have hax := List.rel_of_sorted_cons h₁ x (List.mem_cons_self _ _)
    refine List.sorted_cons.2 ⟨fun y hy => ?_, ih⟩
    rcases List.mem_cons.1 hy with rfl | hy
    · exact hax
    · exact hax.trans (List.rel_of_sorted_cons ih y hy)

/-! ### The tallies of a sweep -/

/-- A tally of `lossDataR` that the sweep raises by `w gap` at each sequence number it counts,
`gap` being the packets missing before it, modulo `2 ^ 32`; `w gap` is at most one more than the
gap, and the tally is zero in a fresh `lossDataR`. -/
structure LossCounter (f : LossDataR → PacketCount) (w : Nat → Nat) : Prop where
  tally : ∀ ldr gap, (f (ldr.tally 1 gap)).toNat = ((f ldr).toNat + w gap.toNat) % 2 ^ 32
  le : ∀ g, w g ≤ g + 1
  fresh : ∀ fs, (f { flowstate := fs }).toNat = 0

/-- The branches of `LossDataR.tally`, on natural numbers. -/
theorem tally_gt_iff (gap : PacketCount) :
    (gap > 1 ↔ 1 < gap.toNat) ∧ (gap > 0 ↔ 0 < gap.toNat) :=
  ⟨Iff.rfl, Iff.rfl⟩

/-- What one counted range of one sequence number adds to the additive tallies. -/
theorem tally_toNat (ldr : LossDataR) (gap : PacketCount) :
    (ldr.tally 1 gap).dropped.toNat = (ldr.dropped.toNat + gap.toNat) % 2 ^ 32 ∧
      (ldr.tally 1 gap).gapTotal.toNat = (ldr.gapTotal.toNat + gap.toNat) % 2 ^ 32 ∧
      (ldr.tally 1 gap).consecutiveDrops.toNat =
        (ldr.consecutiveDrops.toNat + (gap.toNat - 1)) % 2 ^ 32 ∧
      (ldr.tally 1 gap).gapCount.toNat =
        (ldr.gapCount.toNat + if 0 < gap.toNat then 1 else 0) % 2 ^ 32 := by
  have := toNat_lt_two_pow ldr.gapTotal
  have := toNat_lt_two_pow ldr.consecutiveDrops
  have := toNat_lt_two_pow ldr.gapCount
  have := toNat_lt_two_pow gap
  unfold LossDataR.tally
  by_cases h1 : 1 < gap.toNat <;> by_cases h0 : 0 < gap.toNat <;>
    simp only [tally_gt_iff, h1, h0, if_true, if_false, toNat_add', toNat_sub', toNat_one,
      true_and, and_true] <;>
    omega

theorem lossCounter_received : LossCounter (·.received) fun _ => 1 :=
  ⟨fun ldr gap => by rw [tally_received, toNat_add', toNat_one], fun _ => by omega, fun _ => rfl⟩

theorem lossCounter_dropped : LossCounter (·.dropped) fun g => g :=
  ⟨fun ldr gap => (tally_toNat ldr gap).1, fun _ => by omega, fun _ => rfl⟩

theorem lossCounter_gapTotal : LossCounter (·.gapTotal) fun g => g :=
  ⟨fun ldr gap => (tally_toNat ldr gap).2.1, fun _ => by omega, fun _ => rfl⟩

theorem lossCounter_consecutiveDrops : LossCounter (·.consecutiveDrops) fun g => g - 1 :=
  ⟨fun ldr gap => (tally_toNat ldr gap).2.2.1, fun _ => by omega, fun _ => rfl⟩

theorem lossCounter_gapCount : LossCounter (·.gapCount) fun g => if 0 < g then 1 else 0 :=
  ⟨fun ldr gap => (tally_toNat ldr gap).2.2.2, fun _ => by split <;> omega, fun _ => rfl⟩

theorem seqGap_of_lt {prev x : Seqno} (h : prev.toNat < x.toNat) :
    (seqGap prev x).toNat = x.toNat - prev.toNat - 1 := by
  have hd : (modularDistance prev x).toNat = x.toNat - prev.toNat := by
    rw [modularDistance_toNat, if_pos (Nat.le_of_lt h)]
  have hpos : modularDistance prev x > 0 := lt_iff_toNat.2 (by rw [hd]; exact Nat.sub_pos_of_lt h)
  have := toNat_lt_two_pow x
  simp only [seqGap, if_pos hpos, toNat_sub', hd, toNat_one]
  omega

section Counter
variable {f : LossDataR → PacketCount} {w : Nat → Nat}

/-- **The sweep over increasing sequence numbers above its base** raises a counter by `w` of
each gap, modulo `2 ^ 32`. -/
theorem LossCounter.tallySeqnos_mod (hc : LossCounter f w) : ∀ {ldr : LossDataR} {prev : Seqno}
    {xs : List Seqno}, ((prev :: xs).map UInt32.toNat).Sorted (· < ·) →
    (f (tallySeqnos ldr prev xs)).toNat =
      ((f ldr).toNat + ((gapsFrom prev.toNat (xs.map UInt32.toNat)).map w).sum) % 2 ^ 32
  | ldr, _, [], _ => (Nat.mod_eq_of_lt (toNat_lt_two_pow (f ldr))).symm
  | ldr, prev, x :: xs, h => by
    have hx := List.rel_of_sorted_cons h x.toNat (List.mem_cons_self _ _)
    rw [Pd3Estimator.tallySeqnos, hc.tallySeqnos_mod (List.sorted_cons.1 h).2, hc.tally,
      seqGap_of_lt hx, List.map_cons, gapsFrom, List.map_cons, List.sum_cons]
    omega

/-- From a fresh `lossDataR` the sum does not overflow: it is at most the distance from the
base to the last sequence number. -/
theorem LossCounter.tallySeqnos_toNat (hc : LossCounter f w) {prev : Seqno} {xs : List Seqno}
    (h : ((prev :: xs).map UInt32.toNat).Sorted (· < ·)) (fs : FlowState) :
    (f (tallySeqnos { flowstate := fs } prev xs)).toNat =
      ((gapsFrom prev.toNat (xs.map UInt32.toNat)).map w).sum := by
  have hle : ((gapsFrom prev.toNat (xs.map UInt32.toNat)).map w).sum ≤
      ((gapsFrom prev.toNat (xs.map UInt32.toNat)).map (· + 1)).sum :=
    List.sum_le_sum fun g _ => hc.le g
  have hspan := sum_gapsFrom_succ h
  have hlast := toNat_lt_two_pow (xs.getLastD prev)
  rw [← List.getLastD_map UInt32.toNat] at hlast
  rw [hc.tallySeqnos_mod h, hc.fresh]
  omega

/-- The calls of a run, each a base and the sequence numbers it counts: each counts increasing
sequence numbers above its base, and the next one's base is where it stopped. -/
def Chained : Seqno → List (Seqno × List Seqno) → Prop
  | _, [] => True
  | b, s :: rest => s.1 = b ∧ ((b :: s.2).map UInt32.toNat).Sorted (· < ·) ∧
      Chained (s.2.getLastD b) rest

/-- **Chained sweeps are one sweep** over the sequence numbers their calls count. -/
theorem LossCounter.sum_chained (hc : LossCounter f w) (fs : FlowState) : ∀ {b : Seqno}
    {sw : List (Seqno × List Seqno)}, Chained b sw →
    (sw.map fun s => (f (Pd3Estimator.tallySeqnos { flowstate := fs } s.1 s.2)).toNat).sum =
      ((gapsFrom b.toNat ((sw.flatMap Prod.snd).map UInt32.toNat)).map w).sum
  | _, [], _ => rfl
  | _, (_, c) :: _, ⟨rfl, hs, hrest⟩ => by
    rw [List.map_cons, List.sum_cons, hc.tallySeqnos_toNat hs, hc.sum_chained fs hrest,
      List.flatMap_cons, List.map_append, gapsFrom_append, List.map_append, List.sum_append,
      List.getLastD_map]

end Counter

theorem Chained.sorted : ∀ {b : Seqno} {sw : List (Seqno × List Seqno)}, Chained b sw →
    ((b :: sw.flatMap Prod.snd).map UInt32.toNat).Sorted (· < ·)
  | _, [], _ => List.sorted_singleton _
  | b, (_, c) :: _, ⟨_, hs, hrest⟩ => by
    have h := hrest.sorted
    rw [List.map_cons, ← List.getLastD_map UInt32.toNat] at h
    rw [List.flatMap_cons, List.map_cons, List.map_append]
    exact sorted_append_of_getLastD hs h

/-! ### One call on sequence numbers -/

/-- The base `lossCanon` counts from: the last past sequence number, or one below the
smallest. -/
def lossBase (past : Option Seqno) (present future : List Seqno) : Seqno :=
  past.getD ((sortSeqnos (future ++ past.toList ++ present)).headD 0 - 1)

/-- The sequence numbers `lossCanon` counts, in increasing order: those above the base, up to
`lossTop`. -/
def lossCounted (past : Option Seqno) (present future : List Seqno) : List Seqno :=
  (sortSeqnos (future ++ past.toList ++ present)).filter fun x =>
    lossBase past present future < x ∧ x ≤ lossTop past present

theorem lossCanon_eq_lossCounted (ldr : LossDataR) (past : Option Seqno)
    (present future : List Seqno) :
    lossCanon ldr past present future =
      tallySeqnos ldr (lossBase past present future) (lossCounted past present future) :=
  rfl

/-- In a list ordered by a reflexive `r`, every element is related to the last one. -/
theorem rel_getLastD {α : Type} {r : α → α → Prop} (hr : ∀ a, r a a) :
    ∀ {l : List α}, l.Pairwise r → ∀ {x : α}, x ∈ l → ∀ d, r x (l.getLastD d)
  | a :: t, h, x, hx, _ => by
    rw [List.getLastD_cons]
    rcases List.mem_cons.1 hx with rfl | hx
    · rcases List.mem_cons.1 (List.getLastD_mem_cons t x) with he | hm
      · rw [he]
        exact hr x
      · exact List.rel_of_pairwise_cons h hm
    · exact rel_getLastD hr (List.pairwise_cons.1 h).2 hx a

theorem sorted_sortSeqnos {l : List Seqno} (h : l.Nodup) :
    ((sortSeqnos l).map UInt32.toNat).Sorted (· < ·) :=
  List.pairwise_map.2 (((List.sorted_insertionSort _ l).and
    ((List.perm_insertionSort _ l).nodup_iff.2 h)).imp
      fun h => Nat.lt_of_le_of_ne (le_iff_toNat.1 h.1) fun e => h.2 (eq_iff_toNat.2 e))

/-- `lossTop` is the largest past or present sequence number. -/
theorem le_lossTop {past : Option Seqno} {present : List Seqno} {x : Seqno}
    (hx : x ∈ past.toList ++ present) : x.toNat ≤ (lossTop past present).toNat :=
  le_iff_toNat.1 <| rel_getLastD UInt32.le_refl (List.sorted_insertionSort _ _)
    ((List.perm_insertionSort _ _).symm.subset hx) 0

section Call
variable {past : Option Seqno} {present future : List Seqno}

theorem perm_sortSeqnos_call :
    (sortSeqnos (future ++ past.toList ++ present)).Perm (past.toList ++ present ++ future) :=
  (List.perm_insertionSort _ _).trans (by rw [List.append_assoc]; exact List.perm_append_comm)

/-- Without a past sequence number a call counts from just below the smallest sequence number,
which it counts first. -/
theorem lossCounted_none (hpos : ∀ x ∈ present ++ future, 1 ≤ x.toNat) (hne : present ≠ []) :
    lossCounted none present future ≠ [] ∧
      lossBase none present future = (lossCounted none present future).headD 1 - 1 := by
  have hperm : (sortSeqnos (future ++ none.toList ++ present)).Perm (present ++ future) :=
    perm_sortSeqnos_call
  obtain ⟨h, t, hs⟩ : ∃ h t, sortSeqnos (future ++ none.toList ++ present) = h :: t := by
    cases hsrt : sortSeqnos (future ++ none.toList ++ present) with
    | nil => exact absurd (List.append_eq_nil.1 (hsrt ▸ hperm).nil_eq.symm).1 hne
    | cons h t => exact ⟨h, t, rfl⟩
  rw [hs] at hperm
  have hh := hpos h (hperm.subset (List.mem_cons_self _ _))
  have htop : h.toNat ≤ (lossTop none present).toNat := by
    have hsorted : (h :: t).Sorted (· ≤ ·) := hs ▸ List.sorted_insertionSort _ _
    have hmem := hperm.symm.subset (List.mem_append_left future
      (lossTop_mem (by simpa using hne) : lossTop none present ∈ none.toList ++ present))
    rcases List.mem_cons.1 hmem with he | hm
    · rw [← he]
    · exact le_iff_toNat.1 (List.rel_of_sorted_cons hsorted _ hm)
  have hbase : lossBase none present future = h - 1 := by
    rw [lossBase, hs]
    rfl
  have hpass : lossBase none present future < h ∧ h ≤ lossTop none present := by
    rw [hbase, lt_iff_toNat, le_iff_toNat, toNat_sub', toNat_one]
    have := toNat_lt_two_pow h
    omega
  rw [lossCounted, hs, List.filter_cons, if_pos (decide_eq_true hpass)]
  exact ⟨List.cons_ne_nil _ _, hbase⟩

theorem lossBase_le_lossTop (hpos : ∀ x ∈ present ++ future, 1 ≤ x.toNat) (hne : present ≠ []) :
    (lossBase past present future).toNat ≤ (lossTop past present).toNat := by
  cases past with
  | some p => exact le_lossTop (List.mem_append_left _ (List.mem_singleton_self p))
  | none =>
    obtain ⟨hc, -⟩ := lossCounted_none hpos hne
    obtain ⟨x, hx⟩ := List.exists_mem_of_ne_nil _ hc
    have := of_decide_eq_true (List.mem_filter.1 hx).2
    exact Nat.le_of_lt (Nat.lt_of_lt_of_le (lt_iff_toNat.1 this.1) (le_iff_toNat.1 this.2))

theorem sorted_lossCounted (hnd : (past.toList ++ present ++ future).Nodup) :
    ((lossBase past present future :: lossCounted past present future).map UInt32.toNat).Sorted
      (· < ·) := by
  have hnd' : (future ++ past.toList ++ present).Nodup :=
    (List.perm_insertionSort _ _).nodup_iff.1 (perm_sortSeqnos_call.nodup_iff.2 hnd)
  rw [List.map_cons]
  refine List.sorted_cons.2 ⟨fun y hy => ?_,
    (sorted_sortSeqnos hnd').sublist ((List.filter_sublist _).map _)⟩
  obtain ⟨x, hx, rfl⟩ := List.mem_map.1 hy
  exact lt_iff_toNat.1 (of_decide_eq_true (List.mem_filter.1 hx).2).1

/-- A call stops at `lossTop`: the last sequence number it counts is `lossTop`, or it counts
none and its base is `lossTop`. -/
theorem getLastD_lossCounted (hnd : (past.toList ++ present ++ future).Nodup)
    (hpos : ∀ x ∈ present ++ future, 1 ≤ x.toNat) (hne : present ≠ []) :
    (lossCounted past present future).getLastD (lossBase past present future) =
      lossTop past present := by
  have hle : (lossBase past present future).toNat ≤ (lossTop past present).toNat :=
    lossBase_le_lossTop hpos hne
  rcases Nat.lt_or_eq_of_le hle with hlt | heq
  · -- `lossTop` is counted, and nothing counted lies above it
    have htop : lossTop past present ∈ lossCounted past present future :=
      List.mem_filter.2 ⟨perm_sortSeqnos_call.symm.subset (List.mem_append_left _
        (lossTop_mem (by simp [hne]))), decide_eq_true ⟨hlt, UInt32.le_refl _⟩⟩
    have hs := (List.pairwise_map.1 (List.sorted_cons.1 (sorted_lossCounted hnd)).2).imp
      Nat.le_of_lt
    refine eq_iff_toNat.2 (Nat.le_antisymm ?_
      (rel_getLastD (r := fun a b : Seqno => a.toNat ≤ b.toNat) (fun _ => le_rfl) hs htop _))
    rcases List.mem_cons.1 (List.getLastD_mem_cons (lossCounted past present future)
      (lossBase past present future)) with he | hm
    · rw [he]
      exact hle
    · exact le_iff_toNat.1 (of_decide_eq_true (List.mem_filter.1 hm).2).2
  · -- nothing lies above the base up to `lossTop`
    have hnil : lossCounted past present future = [] := List.filter_eq_nil_iff.2 fun x _ hx => by
      have h := of_decide_eq_true hx
      have h1 := lt_iff_toNat.1 h.1
      have h2 := le_iff_toNat.1 h.2
      omega
    rw [hnil, List.getLastD_nil]
    exact eq_iff_toNat.2 heq

/-- A call counts only present and future sequence numbers, never the past one. -/
theorem mem_lossCounted {x : Seqno} (hx : x ∈ lossCounted past present future) :
    x ∈ present ++ future := by
  obtain ⟨hx, hp⟩ := List.mem_filter.1 hx
  have hx := perm_sortSeqnos_call.subset hx
  rw [List.append_assoc, List.mem_append] at hx
  rcases hx with hx | hx
  · cases past with
    | none => exact absurd hx (List.not_mem_nil x)
    | some p =>
      obtain rfl := List.mem_singleton.1 hx
      exact absurd (lt_iff_toNat.1 (of_decide_eq_true hp).1) (Nat.lt_irrefl _)
  · exact hx

/-- **In order, a call counts exactly its epoch's arrivals.** -/
theorem lossCounted_in_order
    (hs : ((past.toList ++ present ++ future).map UInt32.toNat).Sorted (· < ·))
    (hpos : ∀ x ∈ present, 1 ≤ x.toNat) (hne : present ≠ []) :
    lossCounted past present future = present := by
  have hperm : (future ++ past.toList ++ present).Perm (past.toList ++ present ++ future) := by
    rw [List.append_assoc]
    exact List.perm_append_comm
  have hall : sortSeqnos (future ++ past.toList ++ present) = past.toList ++ present ++ future := by
    rw [sortSeqnos_eq_of_perm hperm, sortSeqnos, List.Sorted.insertionSort_eq
      ((List.pairwise_map.1 hs).imp fun h => le_iff_toNat.2 (Nat.le_of_lt h))]
  have hs := List.pairwise_map.1 hs
  rw [List.pairwise_append] at hs
  obtain ⟨h, t, rfl⟩ := List.exists_cons_of_ne_nil hne
  -- the past sequence number is the base
  have hP : ∀ x ∈ past.toList,
      ¬(lossBase past (h :: t) future < x ∧ x ≤ lossTop past (h :: t)) := fun x hx hp => by
    cases past with
    | none => exact absurd hx (List.not_mem_nil x)
    | some p =>
      obtain rfl := List.mem_singleton.1 hx
      exact absurd (lt_iff_toNat.1 hp.1) (Nat.lt_irrefl _)
  -- the epoch lies above the base, up to `lossTop`
  have hE : ∀ x ∈ h :: t,
      lossBase past (h :: t) future < x ∧ x ≤ lossTop past (h :: t) := fun x hx => by
    refine ⟨?_, le_iff_toNat.2 (le_lossTop (List.mem_append_right _ hx))⟩
    have hsp := (List.pairwise_append.1 hs.1)
    cases past with
    | some p => exact hsp.2.2 p (List.mem_singleton_self p) x hx
    | none =>
      have hbase : lossBase none (h :: t) future = h - 1 := by
        rw [lossBase, Option.getD_none, hall]
        rfl
      have hhx : h.toNat ≤ x.toNat := by
        rcases List.mem_cons.1 hx with rfl | hx
        · exact le_rfl
        · exact Nat.le_of_lt (List.rel_of_pairwise_cons hsp.2.1 hx)
      have := hpos h (List.mem_cons_self _ _)
      have := toNat_lt_two_pow h
      rw [hbase, lt_iff_toNat, toNat_sub', toNat_one]
      omega
  -- the future lies above `lossTop`
  have hF : ∀ x ∈ future,
      ¬(lossBase past (h :: t) future < x ∧ x ≤ lossTop past (h :: t)) := fun x hx hp =>
    absurd (le_iff_toNat.1 hp.2) (Nat.not_le.2 (hs.2.2 _ (lossTop_mem (by simp)) x hx))
  unfold lossCounted
  rw [hall, List.filter_append, List.filter_append,
    List.filter_eq_nil_iff.2 fun x hx hp => hP x hx (of_decide_eq_true hp),
    List.filter_eq_self.2 fun x hx => decide_eq_true (hE x hx),
    List.filter_eq_nil_iff.2 fun x hx hp => hF x hx (of_decide_eq_true hp), List.nil_append,
    List.append_nil]

end Call

/-! ### A run on sequence numbers -/

/-- The reporter's loss computations for one stream read on sequence numbers: the calls over the
first `count` epochs, each a base and the sequence numbers it counts, over its epoch's arrivals,
the last past sequence number and the arrivals of the next `periods_to_wait - 1` epochs. An
epoch without arrivals is skipped. -/
def lossSweeps (periodsToWait : Nat) :
    Nat → Option Seqno → List (List Seqno) → List (Seqno × List Seqno)
  | 0, _, _ => []
  | _ + 1, _, [] => []
  | count + 1, past, e :: rest =>
    if e = [] then lossSweeps periodsToWait count past rest
    else
      (lossBase past e (rest.take (periodsToWait - 1)).flatten,
          lossCounted past e (rest.take (periodsToWait - 1)).flatten) ::
        lossSweeps periodsToWait count (some (lossTop past e)) rest

/-- The sequence numbers still to come and the last past one are distinct, and none is `0`. -/
def LossDistinct (past : Option Seqno) (es : List (List Seqno)) : Prop :=
  (past.toList ++ es.flatten).Nodup ∧ ∀ x ∈ past.toList ++ es.flatten, 1 ≤ x.toNat

section Distinct
variable {past : Option Seqno} {e : List Seqno} {rest : List (List Seqno)}

theorem flatten_take_sublist (k : Nat) (es : List (List Seqno)) :
    (es.take k).flatten.Sublist es.flatten := by
  conv_rhs => rw [← List.take_append_drop k es, List.flatten_append]
  exact List.sublist_append_left _ _

/-- A call sees distinct sequence numbers, none of them `0`. -/
theorem LossDistinct.call (h : LossDistinct past (e :: rest)) (k : Nat) :
    (past.toList ++ e ++ (rest.take k).flatten).Nodup ∧
      ∀ x ∈ e ++ (rest.take k).flatten, 1 ≤ x.toNat := by
  have hsub : (past.toList ++ e ++ (rest.take k).flatten).Sublist
      (past.toList ++ (e :: rest).flatten) := by
    rw [List.flatten_cons, List.append_assoc]
    exact ((flatten_take_sublist k rest).append_left e).append_left _
  refine ⟨h.1.sublist hsub, fun x hx => h.2 x (hsub.subset ?_)⟩
  rw [List.append_assoc]
  exact List.mem_append_right _ hx

/-- After a call on arrivals, `lossTop` is the last past sequence number. -/
theorem LossDistinct.next (h : LossDistinct past (e :: rest)) (hne : e ≠ []) :
    LossDistinct (some (lossTop past e)) rest := by
  have hmem : lossTop past e ∈ past.toList ++ e := lossTop_mem (by simp [hne])
  have hnd := h.1
  rw [List.flatten_cons, ← List.append_assoc, List.nodup_append] at hnd
  refine ⟨List.nodup_cons.2 ⟨fun hx => hnd.2.2 hmem hx, hnd.2.1⟩, fun x hx => h.2 x ?_⟩
  rw [List.flatten_cons, ← List.append_assoc]
  rcases List.mem_cons.1 hx with rfl | hx
  · exact List.mem_append_left _ hmem
  · exact List.mem_append_right _ hx

end Distinct

/-- **The calls are chained**: each counts from where the one before stopped; without a past
sequence number the first counts from just below the first sequence number it counts. -/
theorem lossSweeps_chained (W : Nat) : ∀ (count : Nat) {past : Option Seqno}
    {es : List (List Seqno)}, LossDistinct past es →
    Chained (past.getD (((lossSweeps W count past es).flatMap Prod.snd).headD 1 - 1))
      (lossSweeps W count past es)
  | 0, _, _, _ => trivial
  | _ + 1, _, [], _ => trivial
  | count + 1, past, e :: rest, h => by
    rw [lossSweeps]
    split_ifs with he
    · subst he
      exact lossSweeps_chained W count h
    · obtain ⟨hnd, hpos⟩ := h.call (W - 1)
      have hb : past.getD (((lossCounted past e (rest.take (W - 1)).flatten) ++
          (lossSweeps W count (some (lossTop past e)) rest).flatMap Prod.snd).headD 1 - 1) =
            lossBase past e (rest.take (W - 1)).flatten := by
        cases past with
        | some p => rw [lossBase, Option.getD_some, Option.getD_some]
        | none =>
          obtain ⟨hc, hbase⟩ := lossCounted_none hpos he
          obtain ⟨x, xs, hx⟩ := List.exists_cons_of_ne_nil hc
          rw [hbase, hx]
          rfl
      rw [List.flatMap_cons, hb]
      exact ⟨rfl, sorted_lossCounted hnd, by
        rw [getLastD_lossCounted hnd hpos he]
        exact lossSweeps_chained W count (h.next he)⟩

/-- The run counts only sequence numbers that arrived. -/
theorem mem_lossSweeps (W : Nat) : ∀ (count : Nat) {past : Option Seqno}
    {es : List (List Seqno)} {x : Seqno}, x ∈ (lossSweeps W count past es).flatMap Prod.snd →
    x ∈ es.flatten
  | 0, _, _, _, h => absurd h (List.not_mem_nil _)
  | _ + 1, _, [], _, h => absurd h (List.not_mem_nil _)
  | count + 1, past, e :: rest, x, h => by
    rw [lossSweeps] at h
    rw [List.flatten_cons]
    split_ifs at h with he
    · exact List.mem_append_right _ (mem_lossSweeps W count h)
    · rw [List.flatMap_cons, List.mem_append] at h
      rcases h with h | h
      · rcases List.mem_append.1 (mem_lossCounted h) with h | h
        · exact List.mem_append_left _ h
        · exact List.mem_append_right _ ((flatten_take_sublist _ rest).subset h)
      · exact List.mem_append_right _ (mem_lossSweeps W count h)

/-- **In order, the run counts exactly the arrivals of the epochs it processes.** -/
theorem lossSweeps_in_order (W : Nat) : ∀ (count : Nat) {past : Option Seqno}
    {es : List (List Seqno)}, ((past.toList ++ es.flatten).map UInt32.toNat).Sorted (· < ·) →
    (∀ x ∈ es.flatten, 1 ≤ x.toNat) →
    (lossSweeps W count past es).flatMap Prod.snd = (es.take count).flatten
  | 0, _, _, _, _ => rfl
  | _ + 1, _, [], _, _ => rfl
  | count + 1, past, e :: rest, hs, hpos => by
    rw [lossSweeps, List.take_succ_cons, List.flatten_cons]
    have hpos' : ∀ x ∈ rest.flatten, 1 ≤ x.toNat := fun x hx =>
      hpos x (List.mem_append_right _ hx)
    split_ifs with he
    · subst he
      exact lossSweeps_in_order W count hs hpos'
    · rw [List.flatten_cons, ← List.append_assoc, List.map_append] at hs
      have hsplit := List.pairwise_append.1 hs
      have hcall : ((past.toList ++ e ++ (rest.take (W - 1)).flatten).map UInt32.toNat).Sorted
          (· < ·) := by
        rw [List.map_append]
        exact hs.sublist (((flatten_take_sublist _ rest).map _).append_left _)
      have htop : ((some (lossTop past e)).toList ++ rest.flatten).map UInt32.toNat |>.Sorted
          (· < ·) := by
        refine List.sorted_cons.2 ⟨fun y hy => ?_, hsplit.2.1⟩
        exact hsplit.2.2 _ (List.mem_map_of_mem _ (lossTop_mem (by simp [he]))) y hy
      rw [List.flatMap_cons, lossCounted_in_order hcall (fun x hx => hpos x
        (List.mem_append_left _ hx)) he, lossSweeps_in_order W count htop hpos']

/-! ### The reporter computes the run on sequence numbers -/

/-- A map holds the arrivals `e` of its epoch: the same sequence numbers, and the flow state
`lossdata_arrival` leaves once a packet has arrived. -/
def LossDataA.Holds (a : LossDataA) (e : List Seqno) : Prop :=
  a.seqnos.Perm e ∧ (e ≠ [] → a.flowstate = .p)

theorem perm_flatMap_of_holds {l : List LossDataA} {es : List (List Seqno)}
    (h : List.Forall₂ LossDataA.Holds l es) : (l.flatMap LossDataA.seqnos).Perm es.flatten := by
  induction h with
  | nil => exact List.Perm.refl _
  | cons hab _ ih => exact hab.1.append ih

/-- The maps after a computation, the first `k` cleaned up, still hold their epochs. -/
theorem forall₂_holds_cleanup (k : Nat) {l : List LossDataA} {es : List (List Seqno)}
    (h : List.Forall₂ LossDataA.Holds l es) :
    List.Forall₂ LossDataA.Holds
      ((l.take k).map (fun a : LossDataA => { a with ranges := cleanupRanges a.ranges }) ++
        l.drop k) es := by
  induction h generalizing k with
  | nil => cases k <;> exact List.Forall₂.nil
  | @cons a e l es hae h ih =>
    cases k with
    | zero => exact List.Forall₂.cons hae h
    | succ k => exact List.Forall₂.cons ⟨(seqnos_cleanup a).symm ▸ hae.1, hae.2⟩ (ih k)

/-- The reporter before a call against the run on sequence numbers: the maps still to come hold
the epochs still to come, these and the last past sequence number are distinct, the last past
one lies in `[1, 2 ^ 31)`, and the loss state's `high_seqno` is the last past one. -/
structure Tracks (st : LossState) (past : Option Seqno) (l : List LossDataA)
    (es : List (List Seqno)) : Prop where
  holds : List.Forall₂ LossDataA.Holds l es
  sound : ∀ a ∈ l, a.Sound
  nodup : (past.toList ++ es.flatten).Nodup
  past_mem : ∀ h ∈ past, 1 ≤ h.toNat ∧ h.toNat < 2 ^ 31
  inv : st.Inv
  lossPast_eq : lossPast st = past

section Tracks
variable {st : LossState} {past : Option Seqno} {a : LossDataA} {l : List LossDataA}
  {e : List Seqno} {es : List (List Seqno)}

/-- A map has ranges exactly when its epoch has arrivals. -/
theorem Tracks.ranges_eq_nil_iff (h : Tracks st past (a :: l) (e :: es)) :
    a.ranges = [] ↔ e = [] := by
  rw [← seqnos_eq_nil (h.sound a (List.mem_cons_self _ _)), ← List.length_eq_zero,
    ← List.length_eq_zero, (List.forall₂_cons.1 h.holds).1.1.length_eq]

theorem Tracks.skip (h : Tracks st past (a :: l) (e :: es)) (ha : a.ranges = []) :
    Tracks st past l es where
  holds := (List.forall₂_cons.1 h.holds).2
  sound := fun c hc => h.sound c (List.mem_cons_of_mem _ hc)
  nodup := by simpa [h.ranges_eq_nil_iff.1 ha] using h.nodup
  past_mem := h.past_mem
  inv := h.inv
  lossPast_eq := h.lossPast_eq

/-- **One call of `lossdata_a2r` is one call of the run on sequence numbers**: it reports the
sweep over `lossCounted` from `lossBase`, and leaves `lossTop` as the last past sequence
number. -/
theorem Tracks.call (W : Nat) (h : Tracks st past (a :: l) (e :: es)) (ha : a.ranges ≠ []) :
    let c := lossdataA2r a st (l.map (·.ranges)) W
    c.1 = tallySeqnos { flowstate := .p } (lossBase past e (es.take (W - 1)).flatten)
        (lossCounted past e (es.take (W - 1)).flatten) ∧
      Tracks c.2.1 (some (lossTop past e)) (setRanges l c.2.2) es := by
  obtain ⟨⟨hperm, hflow⟩, hrel⟩ := List.forall₂_cons.1 h.holds
  have hsa := h.sound a (List.mem_cons_self _ _)
  have hs := fun c hc => h.sound c (List.mem_cons_of_mem _ hc)
  have he : e ≠ [] := mt h.ranges_eq_nil_iff.2 ha
  have hnd := h.nodup
  rw [List.flatten_cons] at hnd
  have hseq : ((lossPast st).toList ++ (a.ranges ++ (l.map (·.ranges)).flatten).flatMap
      SeqnoRange.seqnos).Perm (past.toList ++ (e ++ es.flatten)) := by
    rw [h.lossPast_eq, List.flatMap_append, flatMap_seqnos_flatten]
    exact (hperm.append (perm_flatMap_of_holds hrel)).append_left _
  obtain ⟨R, hR, hc⟩ := @lossdataA2r_canon a st (l.map (·.ranges)) W (hsa.2 ha) ha h.inv
    (inArc_ranges hsa hs) (h.lossPast_eq ▸ h.past_mem) (hseq.nodup_iff.2 hnd)
  have hfut : (((l.map (·.ranges)).take (W - 1)).flatten.flatMap SeqnoRange.seqnos).Perm
      (es.take (W - 1)).flatten := by
    rw [← List.map_take, flatMap_seqnos_flatten]
    exact perm_flatMap_of_holds (List.forall₂_take _ hrel)
  have htop : lossTop (lossPast st) a.seqnos = lossTop past e := by
    rw [h.lossPast_eq]
    exact lossTop_perm hperm
  -- the new past sequence number is one of the epoch's, or the old one
  have hmem : lossTop past e ∈ past.toList ++ e := lossTop_mem (by simp [he])
  rw [← List.append_assoc, List.nodup_append] at hnd
  dsimp only
  rw [hc, setRanges_cleanup]
  refine ⟨by rw [hflow he, h.lossPast_eq, lossCanon_perm _ _ hperm hfut]; rfl,
    forall₂_holds_cleanup _ hrel, sound_cleanup_all _ hs,
    List.nodup_cons.2 ⟨fun hx => hnd.2.2 hmem hx, hnd.2.1⟩, fun x hx => ?_, ⟨rfl, hR⟩,
    by rw [← htop]; rfl⟩
  obtain rfl : lossTop past e = x := Option.some.inj hx
  rcases List.mem_append.1 hmem with hm | hm
  · exact h.past_mem _ (Option.mem_toList.1 hm)
  · exact inArc_of_mem_seqnos hsa (hperm.symm.subset hm)

end Tracks

/-- **The reporter's calls compute the run on sequence numbers.** -/
theorem lossRun_sweeps (W : Nat) : ∀ (count : Nat) {st : LossState} {past : Option Seqno}
    {l : List LossDataA} {es : List (List Seqno)}, Tracks st past l es →
    lossRun W count st l =
      (lossSweeps W count past es).map fun s => tallySeqnos { flowstate := .p } s.1 s.2
  | 0, _, _, _, _, _ => rfl
  | _ + 1, _, _, [], [], _ => rfl
  | _ + 1, _, _, [], _ :: _, h => nomatch h.holds
  | _ + 1, _, _, _ :: _, [], h => nomatch h.holds
  | count + 1, _, _, a :: _, _ :: _, h => by
    rw [lossRun, lossSweeps]
    by_cases ha : a.ranges = []
    · rw [if_pos ha, if_pos (h.ranges_eq_nil_iff.1 ha)]
      exact lossRun_sweeps W count (h.skip ha)
    · obtain ⟨hv, h'⟩ := h.call W ha
      rw [if_neg ha, if_neg (mt h.ranges_eq_nil_iff.2 ha), List.map_cons]
      exact congrArg₂ _ hv (lossRun_sweeps W count h')

/-- The stream's maps as the aggregator leaves them hold its epochs. -/
theorem tracks_lossAggregate {epochs : List (List Seqno)} (hnd : epochs.flatten.Nodup)
    (hrange : ∀ x ∈ epochs.flatten, 1 ≤ x.toNat ∧ x.toNat < 2 ^ 31) :
    Tracks {} none (epochs.map lossAggregate) epochs where
  holds := List.forall₂_map_left_iff.2 (List.forall₂_same.2 fun e _ =>
    ⟨lossAggregate_seqnos e, fun he => by
      rw [lossAggregate, foldl_lossdataArrival_flowstate _ _ (.inl rfl), if_neg he]⟩)
  sound := fun a ha => by
    obtain ⟨e, he, rfl⟩ := List.mem_map.1 ha
    exact lossAggregate_sound fun x hx => hrange x (List.mem_flatten.2 ⟨e, he, hx⟩)
  nodup := hnd
  past_mem := fun _ h => nomatch h
  inv := ⟨rfl, rfl⟩
  lossPast_eq := rfl

/-! ### What the reporter's tallies add up to -/

/-- The sequence numbers the reporter's calls have counted, in the order they counted them, once
the aggregator has retired the maps holding `epochs`. -/
def lossReportCounted (periodsToWait : Nat) (epochs : List (List Seqno)) : List Seqno :=
  (lossSweeps periodsToWait (epochs.length + 1 - periodsToWait) none epochs).flatMap Prod.snd

section Report
variable {W : Nat} {epochs : List (List Seqno)}

/-- **The reporter's tallies, summed over its calls, are one sweep** over the sequence numbers
it counted, from just below the first. -/
theorem lossReport_sum (hnd : epochs.flatten.Nodup)
    (hrange : ∀ x ∈ epochs.flatten, 1 ≤ x.toNat ∧ x.toNat < 2 ^ 31)
    {f : LossDataR → PacketCount} {w : Nat → Nat} (hc : LossCounter f w) :
    ((lossReport W epochs).map fun r => (f r).toNat).sum =
      ((gapsFrom ((lossReportCounted W epochs).headD 1 - 1).toNat
        ((lossReportCounted W epochs).map UInt32.toNat)).map w).sum := by
  have hd : LossDistinct none epochs := ⟨hnd, fun x hx => (hrange x hx).1⟩
  rw [lossReport, lossRun_sweeps W _ (tracks_lossAggregate hnd hrange), List.map_map]
  exact hc.sum_chained .p (lossSweeps_chained W _ hd)

theorem sorted_lossReportCounted (hnd : epochs.flatten.Nodup)
    (hpos : ∀ x ∈ epochs.flatten, 1 ≤ x.toNat) :
    ((((lossReportCounted W epochs).headD 1 - 1) :: lossReportCounted W epochs).map
      UInt32.toNat).Sorted (· < ·) :=
  have hd : LossDistinct none epochs := ⟨hnd, hpos⟩
  (lossSweeps_chained W _ hd).sorted

theorem sum_map_one (l : List Nat) : (l.map fun _ => 1).sum = l.length := by
  induction l with
  | nil => rfl
  | cons _ _ ih => rw [List.map_cons, List.sum_cons, ih, List.length_cons, Nat.add_comm]

theorem sum_map_pos (l : List Nat) :
    (l.map fun g => if 0 < g then 1 else 0).sum = l.countP (0 < ·) := by
  induction l with
  | nil => rfl
  | cons g _ ih =>
    rw [List.map_cons, List.sum_cons, ih, List.countP_cons]
    by_cases hg : 0 < g <;> simp [hg, Nat.add_comm]

end Report

/-- **On an in-order stream the loss tallies are exact.** For one stream whose sequence numbers
arrive in increasing order within `[1, 2 ^ 31)`, split into epochs in any way, the tallies of the
reporter's `lossdata_a2r` calls, summed over the calls, count every arrival of the epochs it has
processed once, and every gap between consecutive ones: `dropped` and `gap_total` add up the
gaps, `consecutive_drops` each gap less one, and `gap_count` the gaps that are not empty. -/
theorem lossReport_in_order {W : Nat} {epochs : List (List Seqno)}
    (hinc : (epochs.flatten.map UInt32.toNat).Sorted (· < ·))
    (hrange : ∀ x ∈ epochs.flatten, 1 ≤ x.toNat ∧ x.toNat < 2 ^ 31) :
    let arrivals := (epochs.take (epochs.length + 1 - W)).flatten.map UInt32.toNat
    let gaps := List.zipWith (fun a b => b - a - 1) arrivals arrivals.tail
    let reports := lossReport W epochs
    (reports.map fun r => r.received.toNat).sum = arrivals.length ∧
      (reports.map fun r => r.dropped.toNat).sum = gaps.sum ∧
      (reports.map fun r => r.gapTotal.toNat).sum = gaps.sum ∧
      (reports.map fun r => r.consecutiveDrops.toNat).sum = (gaps.map (· - 1)).sum ∧
      (reports.map fun r => r.gapCount.toNat).sum = gaps.countP (0 < ·) := by
  have hnd : epochs.flatten.Nodup := hinc.nodup.of_map _
  have hcounted : lossReportCounted W epochs = (epochs.take (epochs.length + 1 - W)).flatten :=
    lossSweeps_in_order W _ hinc fun x hx => (hrange x hx).1
  have hpos : ∀ x ∈ (epochs.take (epochs.length + 1 - W)).flatten, 1 ≤ x.toNat := fun x hx =>
    (hrange x ((flatten_take_sublist _ epochs).subset hx)).1
  dsimp only
  simp only [lossReport_sum hnd hrange lossCounter_received, lossReport_sum hnd hrange
    lossCounter_dropped, lossReport_sum hnd hrange lossCounter_gapTotal, lossReport_sum hnd hrange
    lossCounter_consecutiveDrops, lossReport_sum hnd hrange lossCounter_gapCount, hcounted]
  generalize (epochs.take (epochs.length + 1 - W)).flatten = xs at hpos
  cases xs with
  | nil => exact ⟨rfl, rfl, rfl, rfl, rfl⟩
  | cons x xs =>
    -- from just below the first arrival, the sweep's gaps are `0`, then the gaps between arrivals
    have hx := hpos x (List.mem_cons_self _ _)
    have hfirst : ((x :: xs).headD 1 - 1).toNat = x.toNat - 1 := by
      rw [List.headD_cons, toNat_sub', toNat_one]
      have := toNat_lt_two_pow x
      omega
    rw [hfirst, List.map_cons, gapsFrom, gapsFrom_eq_zipWith, show x.toNat - (x.toNat - 1) - 1 = 0
      by omega, List.tail_cons]
    simp only [List.map_cons, List.sum_cons, sum_map_one, sum_map_pos, List.map_id',
      List.countP_cons, List.length_zipWith, List.length_cons, List.length_map, Nat.lt_irrefl,
      ite_false, decide_False]
    omega

/-- Epochs `1, 2, 5`, `7, 8`, none, `12, 13, 20` with `periods_to_wait = 2`: the first three
are processed. -/
theorem lossReport_in_order_four_epochs :
    ((([[1, 2, 5], [7, 8], [], [12, 13, 20]] : List (List Seqno)).flatten.map UInt32.toNat).Sorted
      (· < ·) ∧
      (∀ x ∈ ([[1, 2, 5], [7, 8], [], [12, 13, 20]] : List (List Seqno)).flatten,
        1 ≤ x.toNat ∧ x.toNat < 2 ^ 31)) ∧
    let arrivals := (([[1, 2, 5], [7, 8], [], [12, 13, 20]] : List (List Seqno)).take 3).flatten.map
      UInt32.toNat
    let gaps := List.zipWith (fun a b => b - a - 1) arrivals arrivals.tail
    let reports := lossReport 2 [[1, 2, 5], [7, 8], [], [12, 13, 20]]
    (reports.map fun r => r.received.toNat).sum = arrivals.length ∧
      (reports.map fun r => r.dropped.toNat).sum = gaps.sum ∧
      (reports.map fun r => r.gapTotal.toNat).sum = gaps.sum ∧
      (reports.map fun r => r.consecutiveDrops.toNat).sum = (gaps.map (· - 1)).sum ∧
      (reports.map fun r => r.gapCount.toNat).sum = gaps.countP (0 < ·) :=
  have h₁ : (([[1, 2, 5], [7, 8], [], [12, 13, 20]] : List (List Seqno)).flatten.map
      UInt32.toNat).Sorted (· < ·) := by decide
  have h₂ : ∀ x ∈ ([[1, 2, 5], [7, 8], [], [12, 13, 20]] : List (List Seqno)).flatten,
      1 ≤ x.toNat ∧ x.toNat < 2 ^ 31 := by decide
  ⟨⟨h₁, h₂⟩, lossReport_in_order h₁ h₂⟩

/-- **No sequence number is counted twice.** For one stream whose sequence numbers are distinct
and lie in `[lo, hi]` within `[1, 2 ^ 31)`, arriving in any order and split into epochs in any
way, the reporter's summed `received` is at most the number of arrivals, and its summed
`received` plus `dropped` at most the size of `[lo, hi]`. -/
theorem lossReport_counts_once {W : Nat} {epochs : List (List Seqno)} {lo hi : Nat}
    (hnd : epochs.flatten.Nodup) (hlo : 1 ≤ lo) (hhi : hi < 2 ^ 31)
    (hrange : ∀ x ∈ epochs.flatten, lo ≤ x.toNat ∧ x.toNat ≤ hi) :
    ((lossReport W epochs).map fun r => r.received.toNat).sum ≤ epochs.flatten.length ∧
      ((lossReport W epochs).map fun r => r.received.toNat + r.dropped.toNat).sum ≤
        hi + 1 - lo := by
  have hr : ∀ x ∈ epochs.flatten, 1 ≤ x.toNat ∧ x.toNat < 2 ^ 31 := fun x hx => by
    have := hrange x hx
    omega
  have hs := sorted_lossReportCounted (W := W) hnd fun x hx => (hr x hx).1
  have hmem : ∀ x ∈ lossReportCounted W epochs, x ∈ epochs.flatten := fun _ hx =>
    mem_lossSweeps W _ hx
  rw [List.sum_map_add, lossReport_sum hnd hr lossCounter_received,
    lossReport_sum hnd hr lossCounter_dropped, sum_map_one, List.map_id', length_gapsFrom,
    List.length_map]
  refine ⟨(List.subperm_of_subset ((List.sorted_cons.1 hs).2.nodup.of_map _) hmem).length_le, ?_⟩
  -- received and dropped span the counted sequence numbers, from just below the first
  have hspan := sum_gapsFrom_succ hs
  rw [List.sum_map_add, List.map_id', sum_map_one, length_gapsFrom, List.length_map] at hspan
  generalize lossReportCounted W epochs = L at hs hmem hspan ⊢
  cases L with
  | nil => exact Nat.zero_le _
  | cons x xs =>
    have hx := hrange x (hmem x (List.mem_cons_self _ _))
    have hfirst : ((x :: xs).headD 1 - 1).toNat = x.toNat - 1 := by
      rw [List.headD_cons, toNat_sub', toNat_one]
      have := toNat_lt_two_pow x
      omega
    have hlast : ((x :: xs).map UInt32.toNat).getLastD (x.toNat - 1) ≤ hi := by
      rcases List.mem_cons.1 (List.getLastD_mem_cons ((x :: xs).map UInt32.toNat)
        (x.toNat - 1)) with he | hm
      · omega
      · obtain ⟨y, hy, he⟩ := List.mem_map.1 hm
        exact he ▸ (hrange y (hmem y hy)).2
    rw [hfirst] at hspan ⊢
    rw [List.length_cons] at hspan ⊢
    omega

/-- Epochs `3, 1, 2, 9`, `5, 4, 12`, `7, 6`, `15, 11` with `periods_to_wait = 2`: arrivals late
and early across epochs. -/
theorem lossReport_counts_once_reordered :
    ([[3, 1, 2, 9], [5, 4, 12], [7, 6], [15, 11]] : List (List Seqno)).flatten.Nodup ∧ 1 ≤ 1 ∧
      15 < 2 ^ 31 ∧
      (∀ x ∈ ([[3, 1, 2, 9], [5, 4, 12], [7, 6], [15, 11]] : List (List Seqno)).flatten,
        1 ≤ x.toNat ∧ x.toNat ≤ 15) ∧
    ((lossReport 2 [[3, 1, 2, 9], [5, 4, 12], [7, 6], [15, 11]]).map fun r =>
        r.received.toNat).sum ≤
        ([[3, 1, 2, 9], [5, 4, 12], [7, 6], [15, 11]] : List (List Seqno)).flatten.length ∧
      ((lossReport 2 [[3, 1, 2, 9], [5, 4, 12], [7, 6], [15, 11]]).map fun r =>
        r.received.toNat + r.dropped.toNat).sum ≤ 15 + 1 - 1 :=
  have h₁ : ([[3, 1, 2, 9], [5, 4, 12], [7, 6], [15, 11]] : List (List Seqno)).flatten.Nodup := by
    decide
  have h₄ : ∀ x ∈ ([[3, 1, 2, 9], [5, 4, 12], [7, 6], [15, 11]] : List (List Seqno)).flatten,
      1 ≤ x.toNat ∧ x.toNat ≤ 15 := by decide
  ⟨h₁, le_rfl, by decide, h₄, lossReport_counts_once h₁ le_rfl (by decide) h₄⟩

end Pd3Estimator
