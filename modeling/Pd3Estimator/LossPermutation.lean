import Pd3Estimator.LossSweep
import Mathlib.Data.List.Forall2

/-!
# The loss estimator does not see the order of arrivals inside an epoch

A run of one stream is the reporter's `lossdata_a2r` calls over the maps the aggregator retired
(`lossTrace`, which is `lossRun` with the loss state each call leaves). By `lossdataA2r_canon`
each call depends only on the sets of sequence numbers of its epoch and of the later maps, and on
`high_seqno`; it leaves the later maps' sequence numbers as they were. So two runs whose maps
hold the same sequence numbers agree call after call.

* `InStep`: two runs between calls, over maps related map by map by `SameArrivals`, from
  states that agree on `high_seqno`; `InStep.skip` and `InStep.call`: each call keeps them in
  step, and a call on a map with ranges reports the same on both sides;
* `lossTrace_congr`: two runs in step give the same tallies and loss states, call after call;
* `lossTrace_perm`: **permuting the arrivals inside any epoch changes neither a computation's
  tallies nor the loss state it leaves**, for a stream whose sequence numbers are distinct and
  lie in `[1, 2 ^ 31)`, whatever `periods_to_wait`.
-/

namespace Pd3Estimator

/-! ### A run of one stream -/

/-- `lossRun`, with the loss state each call leaves. -/
def lossTrace (periodsToWait : Nat) : Nat → LossState → List LossDataA → List (LossDataR × LossState)
  | 0, _, _ => []
  | _ + 1, _, [] => []
  | count + 1, st, lda :: rest =>
    if lda.ranges = [] then lossTrace periodsToWait count st rest
    else
      let c := lossdataA2r lda st (rest.map (·.ranges)) periodsToWait
      (c.1, c.2.1) :: lossTrace periodsToWait count c.2.1 (setRanges rest c.2.2)

theorem lossRun_eq_lossTrace (W : Nat) : ∀ count st ldas,
    lossRun W count st ldas = (lossTrace W count st ldas).map Prod.fst
  | 0, _, _ => rfl
  | _ + 1, _, [] => rfl
  | count + 1, st, lda :: rest => by
    rw [lossRun, lossTrace]
    split_ifs
    · exact lossRun_eq_lossTrace W count st rest
    · dsimp only
      rw [List.map_cons, lossRun_eq_lossTrace W count]

/-- What a computation reports and leaves: the tallies, `has_high_seqno`, `high_seqno` and
`last_range.high`. -/
def lossView (c : LossDataR × LossState) : LossDataR × Bool × Seqno × Seqno :=
  (c.1, c.2.hasHighSeqno, c.2.highSeqno, c.2.lastRange.high)

/-- A map of the stream whose ranges lie in `[1, 2 ^ 31)`, with a flow state that begins with a
packet when it has ranges. -/
def LossDataA.Sound (lda : LossDataA) : Prop :=
  (∀ r ∈ lda.ranges, r.InArc) ∧ (lda.ranges ≠ [] → flowstateBeginp lda.flowstate = true)

theorem setRanges_map_ranges : ∀ l : List LossDataA, setRanges l (l.map (·.ranges)) = l
  | [] => rfl
  | a :: l => by rw [List.map_cons, setRanges, setRanges_map_ranges l]

/-- The later maps after a computation: the first `k` with their ranges cleaned up. -/
theorem setRanges_cleanup : ∀ (k : Nat) (rest : List LossDataA),
    setRanges rest (((rest.map (·.ranges)).take k).map cleanupRanges ++ (rest.map (·.ranges)).drop k) =
      (rest.take k).map (fun a : LossDataA => { a with ranges := cleanupRanges a.ranges }) ++ rest.drop k
  | k, [] => by cases k <;> rfl
  | 0, rest => by simp only [List.take_zero, List.map_nil, List.nil_append, List.drop_zero,
      setRanges_map_ranges]
  | k + 1, a :: rest => by
    rw [List.map_cons, List.take_succ_cons, List.map_cons, List.drop_succ_cons, List.cons_append,
      setRanges, setRanges_cleanup k rest]
    rfl

theorem seqnos_cleanup (a : LossDataA) : { a with ranges := cleanupRanges a.ranges }.seqnos = a.seqnos :=
  flatMap_seqnos_reflag _ _ _

theorem sound_cleanup {a : LossDataA} (h : a.Sound) : { a with ranges := cleanupRanges a.ranges }.Sound := by
  refine ⟨fun r hr => ?_, fun hne => h.2 fun he => hne (by simp [cleanupRanges, he])⟩
  obtain ⟨r', hr', rfl⟩ := List.mem_map.1 hr
  exact h.1 r' hr'

theorem flatMap_seqnos_flatten (l : List LossDataA) :
    (l.map (·.ranges)).flatten.flatMap SeqnoRange.seqnos = l.flatMap LossDataA.seqnos := by
  induction l with
  | nil => rfl
  | cons a l ih => rw [List.map_cons, List.flatten_cons, List.flatMap_append, ih]; rfl

theorem perm_flatMap_of_forall₂ {l₁ l₂ : List LossDataA}
    (h : List.Forall₂ (fun a b => a.flowstate = b.flowstate ∧ a.seqnos.Perm b.seqnos) l₁ l₂) :
    (l₁.flatMap LossDataA.seqnos).Perm (l₂.flatMap LossDataA.seqnos) := by
  induction h with
  | nil => exact List.Perm.refl _
  | cons hab _ ih => exact hab.2.append ih

theorem seqnos_eq_nil {a : LossDataA} (h : a.Sound) : a.seqnos = [] ↔ a.ranges = [] := by
  refine ⟨fun he => ?_, fun he => by simp [LossDataA.seqnos, he]⟩
  cases hr : a.ranges with
  | nil => rfl
  | cons r rs =>
    have := (h.1 r (by simp [hr])).2.1
    have hm : r.low ∈ a.seqnos := List.mem_flatMap.2 ⟨r, by simp [hr], mem_seqnos.2 ⟨le_rfl, this⟩⟩
    simp [he] at hm

theorem inArc_of_mem_seqnos {a : LossDataA} (h : a.Sound) {x : Seqno} (hx : x ∈ a.seqnos) :
    1 ≤ x.toNat ∧ x.toNat < 2 ^ 31 := by
  obtain ⟨r, hr, hx⟩ := List.mem_flatMap.1 hx
  have := h.1 r hr
  rw [mem_seqnos] at hx
  unfold SeqnoRange.InArc at this
  omega

/-- Maps with the same flow state whose sequence numbers are a permutation of each other. -/
def SameArrivals (a b : LossDataA) : Prop := a.flowstate = b.flowstate ∧ a.seqnos.Perm b.seqnos

theorem forall₂_cleanup (k : Nat) {l₁ l₂ : List LossDataA} (h : List.Forall₂ SameArrivals l₁ l₂) :
    List.Forall₂ SameArrivals
      ((l₁.take k).map (fun a : LossDataA => { a with ranges := cleanupRanges a.ranges }) ++ l₁.drop k)
      ((l₂.take k).map (fun a : LossDataA => { a with ranges := cleanupRanges a.ranges }) ++ l₂.drop k) := by
  induction h generalizing k with
  | nil => cases k <;> exact List.Forall₂.nil
  | @cons a b l₁ l₂ hab h ih =>
    cases k with
    | zero => exact List.Forall₂.cons hab h
    | succ k =>
      refine List.Forall₂.cons ⟨hab.1, ?_⟩ (ih k)
      rw [seqnos_cleanup, seqnos_cleanup]
      exact hab.2

theorem flatMap_seqnos_cleanup (k : Nat) (l : List LossDataA) :
    ((l.take k).map (fun a : LossDataA => { a with ranges := cleanupRanges a.ranges }) ++ l.drop k).flatMap
      LossDataA.seqnos = l.flatMap LossDataA.seqnos := by
  conv_rhs => rw [← List.take_append_drop k l]
  rw [List.flatMap_append, List.flatMap_append, List.flatMap_map]
  simp only [seqnos_cleanup]

theorem sound_cleanup_all (k : Nat) {l : List LossDataA} (h : ∀ a ∈ l, a.Sound) :
    ∀ a ∈ (l.take k).map (fun a : LossDataA => { a with ranges := cleanupRanges a.ranges }) ++ l.drop k,
      a.Sound := fun a ha => by
  rcases List.mem_append.1 ha with ha | ha
  · obtain ⟨a', ha', rfl⟩ := List.mem_map.1 ha
    exact sound_cleanup (h a' (List.mem_of_mem_take ha'))
  · exact h a (List.mem_of_mem_drop ha)

theorem inArc_ranges {c : LossDataA} {l : List LossDataA} (hc : c.Sound) (hl : ∀ d ∈ l, d.Sound) :
    ∀ r ∈ c.ranges ++ (l.map (·.ranges)).flatten, r.InArc := fun r hr => by
  rcases List.mem_append.1 hr with hr | hr
  · exact hc.1 r hr
  · obtain ⟨_, hm, hr⟩ := List.mem_flatten.1 hr
    obtain ⟨d, hd, rfl⟩ := List.mem_map.1 hm
    exact (hl d hd).1 r hr

/-- Two runs in step before a call: the maps still to come are related map by map by
`SameArrivals`, the sequence numbers still to come and the last past one are distinct and lie
in `[1, 2 ^ 31)`, and the two loss states agree on `high_seqno`. -/
structure InStep (st₁ st₂ : LossState) (l₁ l₂ : List LossDataA) : Prop where
  /-- The maps to come hold the same arrivals, map by map. -/
  rel : List.Forall₂ SameArrivals l₁ l₂
  sound₁ : ∀ a ∈ l₁, a.Sound
  sound₂ : ∀ b ∈ l₂, b.Sound
  /-- No sequence number comes twice, nor comes again after it was the last past one. -/
  nodup : ((lossPast st₁).toList ++ l₁.flatMap LossDataA.seqnos).Nodup
  past : ∀ h ∈ lossPast st₁, 1 ≤ h.toNat ∧ h.toNat < 2 ^ 31
  inv₁ : st₁.Inv
  inv₂ : st₂.Inv
  hasHighSeqno : st₁.hasHighSeqno = st₂.hasHighSeqno
  highSeqno : st₁.highSeqno = st₂.highSeqno

section InStep
variable {st₁ st₂ : LossState} {a b : LossDataA} {l₁ l₂ : List LossDataA}

theorem InStep.lossPast_eq (h : InStep st₁ st₂ l₁ l₂) :
    lossPast st₂ = lossPast st₁ := by
  unfold lossPast
  rw [h.hasHighSeqno, h.highSeqno]

/-- A map has ranges on one side exactly when the map it is related to has. -/
theorem InStep.ranges_eq_nil_iff (h : InStep st₁ st₂ (a :: l₁) (b :: l₂)) :
    a.ranges = [] ↔ b.ranges = [] := by
  rw [← seqnos_eq_nil (h.sound₁ a (List.mem_cons_self _ _)),
    ← seqnos_eq_nil (h.sound₂ b (List.mem_cons_self _ _)), ← List.length_eq_zero,
    ← List.length_eq_zero, (List.forall₂_cons.1 h.rel).1.2.length_eq]

/-- A map without ranges is skipped on both sides, and the runs stay in step. -/
theorem InStep.skip (h : InStep st₁ st₂ (a :: l₁) (b :: l₂)) (ha : a.ranges = []) :
    InStep st₁ st₂ l₁ l₂ where
  rel := (List.forall₂_cons.1 h.rel).2
  sound₁ := fun c hc => h.sound₁ c (List.mem_cons_of_mem _ hc)
  sound₂ := fun c hc => h.sound₂ c (List.mem_cons_of_mem _ hc)
  nodup := by
    have hnd := h.nodup
    rwa [List.flatMap_cons, (seqnos_eq_nil (h.sound₁ a (List.mem_cons_self _ _))).2 ha,
      List.nil_append] at hnd
  past := h.past
  inv₁ := h.inv₁
  inv₂ := h.inv₂
  hasHighSeqno := h.hasHighSeqno
  highSeqno := h.highSeqno

/-- **One call on both sides**: on a map with ranges, `lossdata_a2r` gives the same tallies and
leaves the same `has_high_seqno`, `high_seqno` and `last_range.high` on both sides, and the runs
stay in step over the later maps as it leaves them. -/
theorem InStep.call (W : Nat) (h : InStep st₁ st₂ (a :: l₁) (b :: l₂)) (ha : a.ranges ≠ []) :
    let c₁ := lossdataA2r a st₁ (l₁.map (·.ranges)) W
    let c₂ := lossdataA2r b st₂ (l₂.map (·.ranges)) W
    lossView (c₁.1, c₁.2.1) = lossView (c₂.1, c₂.2.1) ∧
      InStep c₁.2.1 c₂.2.1 (setRanges l₁ c₁.2.2) (setRanges l₂ c₂.2.2) := by
  obtain ⟨hab, hrel⟩ := List.forall₂_cons.1 h.rel
  have hsa := h.sound₁ a (List.mem_cons_self _ _)
  have hsb := h.sound₂ b (List.mem_cons_self _ _)
  have hs₁ := fun c hc => h.sound₁ c (List.mem_cons_of_mem _ hc)
  have hs₂ := fun c hc => h.sound₂ c (List.mem_cons_of_mem _ hc)
  have hb : b.ranges ≠ [] := mt h.ranges_eq_nil_iff.2 ha
  have hpast₂ := h.lossPast_eq
  have hnd := h.nodup
  rw [List.flatMap_cons] at hnd
  have hperm₂ : ((lossPast st₂).toList ++ (b.seqnos ++ l₂.flatMap LossDataA.seqnos)).Perm
      ((lossPast st₁).toList ++ (a.seqnos ++ l₁.flatMap LossDataA.seqnos)) := by
    rw [hpast₂]
    exact (hab.2.symm.append (perm_flatMap_of_forall₂ hrel).symm).append_left _
  obtain ⟨R₁, hR₁, hc₁⟩ := @lossdataA2r_canon _ _ _ W (hsa.2 ha) ha h.inv₁ (inArc_ranges hsa hs₁)
    h.past (by rwa [List.flatMap_append, flatMap_seqnos_flatten])
  obtain ⟨R₂, hR₂, hc₂⟩ := @lossdataA2r_canon _ _ _ W (hsb.2 hb) hb h.inv₂ (inArc_ranges hsb hs₂)
    (hpast₂ ▸ h.past)
    (by rw [List.flatMap_append, flatMap_seqnos_flatten]; exact hperm₂.nodup_iff.2 hnd)
  have htop : lossTop (lossPast st₂) b.seqnos = lossTop (lossPast st₁) a.seqnos := by
    rw [hpast₂]
    exact lossTop_perm hab.2.symm
  have hfut : (((l₁.map (·.ranges)).take (W - 1)).flatten.flatMap SeqnoRange.seqnos).Perm
      (((l₂.map (·.ranges)).take (W - 1)).flatten.flatMap SeqnoRange.seqnos) := by
    rw [← List.map_take, ← List.map_take, flatMap_seqnos_flatten, flatMap_seqnos_flatten]
    exact perm_flatMap_of_forall₂ (List.forall₂_take _ hrel)
  -- the new past sequence number is one of the epoch's, or the old one
  have hmem := @lossTop_mem (lossPast st₁) a.seqnos fun he =>
    ha ((seqnos_eq_nil hsa).1 (List.append_eq_nil.1 he).2)
  rw [← List.append_assoc, List.nodup_append] at hnd
  dsimp only
  rw [hc₁, hc₂, setRanges_cleanup, setRanges_cleanup]
  refine ⟨?_, forall₂_cleanup _ hrel, sound_cleanup_all _ hs₁, sound_cleanup_all _ hs₂, ?_, ?_,
    ⟨rfl, hR₁⟩, ⟨rfl, hR₂⟩, rfl, htop.symm⟩
  · rw [lossView, lossView, hR₁, hR₂, htop, hab.1, hpast₂, lossCanon_perm _ _ hab.2 hfut]
  · rw [flatMap_seqnos_cleanup]
    exact List.nodup_cons.2 ⟨fun h => hnd.2.2 hmem h, hnd.2.1⟩
  · intro x hx
    obtain rfl : lossTop (lossPast st₁) a.seqnos = x := Option.some.inj hx
    rcases List.mem_append.1 hmem with hm | hm
    · exact h.past _ (Option.mem_toList.1 hm)
    · exact inArc_of_mem_seqnos hsa hm

end InStep

/-- **Two runs that see the same sets of sequence numbers report the same**: from two runs in
step, every call gives the same tallies and the same `has_high_seqno`, `high_seqno` and
`last_range.high`. -/
theorem lossTrace_congr (W : Nat) : ∀ (count : Nat) {st₁ st₂ : LossState} {l₁ l₂ : List LossDataA},
    InStep st₁ st₂ l₁ l₂ →
    (lossTrace W count st₁ l₁).map lossView = (lossTrace W count st₂ l₂).map lossView
  | 0, _, _, _, _, _ => rfl
  | _ + 1, _, _, [], [], _ => rfl
  | _ + 1, _, _, [], _ :: _, h => nomatch h.rel
  | _ + 1, _, _, _ :: _, [], h => nomatch h.rel
  | count + 1, _, _, a :: _, _ :: _, h => by
    rw [lossTrace, lossTrace]
    by_cases ha : a.ranges = []
    · rw [if_pos ha, if_pos (h.ranges_eq_nil_iff.1 ha)]
      exact lossTrace_congr W count (h.skip ha)
    · obtain ⟨hv, h'⟩ := h.call W ha
      rw [if_neg ha, if_neg (mt h.ranges_eq_nil_iff.2 ha), List.map_cons, List.map_cons]
      exact congrArg₂ _ hv (lossTrace_congr W count h')

/-! ### The stream's epochs -/

theorem foldl_lossdataArrival_flowstate : ∀ (arrivals : List Seqno) (lda : LossDataA),
    lda.flowstate = .null ∨ lda.flowstate = .p →
    (arrivals.foldl lossdataArrival lda).flowstate = if arrivals = [] then lda.flowstate else .p
  | [], _, _ => rfl
  | x :: xs, lda, h => by
    have hp : (lossdataArrival lda x).flowstate = .p := by
      rcases h with h | h <;> simp [lossdataArrival, h, flowstatePacket]
    rw [List.foldl_cons, foldl_lossdataArrival_flowstate xs _ (.inr hp), hp, if_neg (List.cons_ne_nil x xs)]
    exact ite_self _

theorem lossAggregate_seqnos (arrivals : List Seqno) : (lossAggregate arrivals).seqnos.Perm arrivals := by
  rw [LossDataA.seqnos, lossAggregate_ranges]
  exact ((List.reverse_perm _).flatMap_right _).trans (.of_eq (reorderAggregate_seqnos arrivals).1)

theorem lossAggregate_sound {arrivals : List Seqno}
    (h : ∀ x ∈ arrivals, 1 ≤ x.toNat ∧ x.toNat < 2 ^ 31) : (lossAggregate arrivals).Sound := by
  obtain ⟨hflat, hlo⟩ := reorderAggregate_seqnos arrivals
  refine ⟨fun r hr => ?_, fun hne => ?_⟩
  · rw [lossAggregate_ranges, List.mem_reverse] at hr
    obtain ⟨hle, hhigh⟩ := hlo r hr
    have hlow : r.low ∈ arrivals := hflat ▸ List.mem_flatMap.2 ⟨r, hr, mem_seqnos.2 ⟨le_rfl, hle⟩⟩
    exact ⟨(h _ hlow).1, hle, (h _ hhigh).2⟩
  · have ha : arrivals ≠ [] := by
      rintro rfl
      exact hne rfl
    rw [lossAggregate, foldl_lossdataArrival_flowstate _ _ (.inl rfl), if_neg ha]
    rfl

theorem perm_flatMap_lossAggregate (epochs : List (List Seqno)) :
    ((epochs.map lossAggregate).flatMap LossDataA.seqnos).Perm epochs.flatten := by
  induction epochs with
  | nil => exact List.Perm.refl _
  | cons a es ih => exact (lossAggregate_seqnos a).append ih

theorem sameArrivals_lossAggregate {a b : List Seqno} (h : a.Perm b) :
    SameArrivals (lossAggregate a) (lossAggregate b) := by
  refine ⟨?_, (lossAggregate_seqnos a).trans (h.trans (lossAggregate_seqnos b).symm)⟩
  rw [lossAggregate, lossAggregate, foldl_lossdataArrival_flowstate _ _ (.inl rfl),
    foldl_lossdataArrival_flowstate _ _ (.inl rfl)]
  have hab : a = [] ↔ b = [] := by
    rw [← List.length_eq_zero, ← List.length_eq_zero, h.length_eq]
  by_cases ha : a = []
  · rw [if_pos ha, if_pos (hab.1 ha)]
  · rw [if_neg ha, if_neg (mt hab.2 ha)]

theorem perm_flatten_of_forall₂ {es es' : List (List Seqno)} (h : List.Forall₂ List.Perm es es') :
    es.flatten.Perm es'.flatten := by
  induction h with
  | nil => exact List.Perm.refl _
  | cons hab _ ih => exact hab.append ih

/-- **Permuting the arrivals inside any epoch changes no loss computation.** For a stream
whose sequence numbers are distinct and lie in `[1, 2 ^ 31)`, every call of `lossdata_a2r` in a
run over its epochs gives the same tallies and leaves the same `has_high_seqno`, `high_seqno`
and `last_range.high` when each epoch's arrivals come in another order; in particular the
reporter's tallies are the same. -/
theorem lossTrace_perm {W : Nat} {epochs epochs' : List (List Seqno)}
    (hperm : List.Forall₂ List.Perm epochs epochs') (hnd : epochs.flatten.Nodup)
    (hrange : ∀ x ∈ epochs.flatten, 1 ≤ x.toNat ∧ x.toNat < 2 ^ 31) :
    (∀ count, (lossTrace W count {} (epochs.map lossAggregate)).map lossView =
      (lossTrace W count {} (epochs'.map lossAggregate)).map lossView) ∧
    lossReport W epochs = lossReport W epochs' := by
  have hflat := perm_flatten_of_forall₂ hperm
  have hsound : ∀ {es : List (List Seqno)}, (∀ x ∈ es.flatten, 1 ≤ x.toNat ∧ x.toNat < 2 ^ 31) →
      ∀ a ∈ es.map lossAggregate, a.Sound := fun hr a ha => by
    obtain ⟨e, he, rfl⟩ := List.mem_map.1 ha
    exact lossAggregate_sound fun x hx => hr x (List.mem_flatten.2 ⟨e, he, hx⟩)
  have hrel : List.Forall₂ SameArrivals (epochs.map lossAggregate) (epochs'.map lossAggregate) := by
    rw [List.forall₂_map_left_iff, List.forall₂_map_right_iff]
    exact hperm.imp fun _ _ => sameArrivals_lossAggregate
  have hcongr : ∀ count, (lossTrace W count {} (epochs.map lossAggregate)).map lossView =
      (lossTrace W count {} (epochs'.map lossAggregate)).map lossView := fun count =>
    lossTrace_congr W count ⟨hrel, hsound hrange, hsound fun x hx => hrange x (hflat.symm.subset hx),
      (perm_flatMap_lossAggregate epochs).nodup_iff.2 hnd, fun h hh => absurd hh (by simp [lossPast]),
      ⟨rfl, rfl⟩, ⟨rfl, rfl⟩, rfl, rfl⟩
  refine ⟨hcongr, ?_⟩
  have hfst : ∀ l : List (LossDataR × LossState), (l.map lossView).map Prod.fst = l.map Prod.fst :=
    fun l => by rw [List.map_map]; rfl
  unfold lossReport
  rw [lossRun_eq_lossTrace, lossRun_eq_lossTrace, ← hperm.length_eq, ← hfst, hcongr, hfst]

/-- Two epochs of a stream, the first arriving `3, 1, 2` and the second `6, 4`, against the
same arrivals in order. -/
theorem lossTrace_perm_reordered :
    List.Forall₂ List.Perm ([[3, 1, 2], [6, 4]] : List (List Seqno)) [[1, 2, 3], [4, 6]] ∧
      ([[3, 1, 2], [6, 4]] : List (List Seqno)).flatten.Nodup ∧
      (∀ x ∈ ([[3, 1, 2], [6, 4]] : List (List Seqno)).flatten, 1 ≤ x.toNat ∧ x.toNat < 2 ^ 31) ∧
      ((∀ count, (lossTrace 2 count {} ([[3, 1, 2], [6, 4]].map lossAggregate)).map lossView =
        (lossTrace 2 count {} ([[1, 2, 3], [4, 6]].map lossAggregate)).map lossView) ∧
      lossReport 2 [[3, 1, 2], [6, 4]] = lossReport 2 [[1, 2, 3], [4, 6]]) :=
  have h₁ : List.Forall₂ List.Perm ([[3, 1, 2], [6, 4]] : List (List Seqno)) [[1, 2, 3], [4, 6]] := by
    decide
  have h₂ : ([[3, 1, 2], [6, 4]] : List (List Seqno)).flatten.Nodup := by decide
  have h₃ : ∀ x ∈ ([[3, 1, 2], [6, 4]] : List (List Seqno)).flatten,
      1 ≤ x.toNat ∧ x.toNat < 2 ^ 31 := by decide
  ⟨h₁, h₂, h₃, lossTrace_perm h₁ h₂ h₃⟩

end Pd3Estimator
