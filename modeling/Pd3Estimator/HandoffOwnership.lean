import Pd3Estimator.Handoff

/-!
# Ownership in the handoff

`HandoffShape` is the abstract state of the handoff: the list of nodes each header holds.
`Owned s v` says that the pointers of `s` represent `v` (every chain, `tail`, `latest` and
`count` is right), that the lists of `v` share out every map, item and range `malloc` returned
(each on exactly one list, once), and the two facts that make the recycling lose nothing: a map
that is not in use has no items, and an item that is not on a map in use has no ranges (the
`memset` of `add_hashmap` and of `add_hashmapitem` would otherwise drop them).

* `Owned.hashmapForce`: `hashmap_force` onto a list from a free list;
* `Owned.handlePacketArrival`, `Owned.dataExchangeAggregatorUnsafe`, `Owned.addHashmap`: the
  aggregator's steps;
* `Owned.dataExchangeReporterUnsafe`: the reporter's critical section.
-/

namespace Pd3Estimator

/-- The list of nodes each header of the handoff holds. -/
structure HandoffShape where
  maps : MapOwner → List Nat
  items : ItemOwner → List Nat
  ranges : RangeOwner → List Nat

namespace HandoffShape

/-- The map at `hm` is on a working list. -/
def InUse (v : HandoffShape) (hm : Nat) : Prop := ∃ st, hm ∈ v.maps (.working st)

/-- The item at `x` is an item of a map in use. -/
def Live (v : HandoffShape) (x : Nat) : Prop := ∃ hm, v.InUse hm ∧ x ∈ v.items (.map hm)

/-- Every list empty. -/
def empty : HandoffShape := ⟨fun _ => [], fun _ => [], fun _ => []⟩

end HandoffShape

/-- **Ownership**: `s` represents the lists `v`, which share out all the storage; the maps not
in use have no items, and the items not on a map in use have no ranges. -/
structure Owned (s : HandoffState) (v : HandoffShape) : Prop where
  maps : s.maps.Inv v.maps
  items : s.items.Inv v.items
  ranges : s.ranges.Inv v.ranges
  mapItems : ∀ hm, v.items (.map hm) ≠ [] → v.InUse hm
  itemRanges : ∀ k x, v.ranges (.item k x) ≠ [] → v.Live x

theorem owned_init : Owned .init .empty where
  maps := ⟨fun _ => MapList.holds_empty _, Partition.empty⟩
  items := ⟨fun _ => SList.holds_empty _, Partition.empty⟩
  ranges := ⟨fun _ => SList.holds_empty _, Partition.empty⟩
  mapItems := fun _ h => absurd rfl h
  itemRanges := fun _ _ h => absurd rfl h

/-- `s'` differs from `s` in its items pool and its keys only. -/
def ItemsOnly (s s' : HandoffState) : Prop := s' = { s with items := s'.items, key := s'.key }

/-- `s'` grows the lists of `s` but `fl`, whose nodes it may take: it `malloc`s only, `fl` only
shrinks, and `next` changes only at nodes taken from `fl` or `malloc`ed. -/
structure Grows (fl : ItemOwner) (s s' : HandoffState) (c c' : ItemOwner → List Nat) : Prop where
  fresh : s.items.fresh ≤ s'.items.fresh
  grow : ∀ o, o ≠ fl → ∀ a ∈ c o, a ∈ c' o
  shrink : ∀ a ∈ c' fl, a ∈ c fl
  next : ∀ a, a < s.items.fresh → a ∉ c fl → s'.items.next a = s.items.next a

theorem Grows.refl (fl : ItemOwner) (s : HandoffState) (c : ItemOwner → List Nat) :
    Grows fl s s c c :=
  ⟨le_rfl, fun _ _ _ h => h, fun _ h => h, fun _ _ _ => rfl⟩

theorem Grows.trans {fl : ItemOwner} {s₁ s₂ s₃ : HandoffState} {c₁ c₂ c₃ : ItemOwner → List Nat}
    (h₁ : Grows fl s₁ s₂ c₁ c₂) (h₂ : Grows fl s₂ s₃ c₂ c₃) : Grows fl s₁ s₃ c₁ c₃ :=
  ⟨h₁.fresh.trans h₂.fresh, fun o ho a ha => h₂.grow o ho a (h₁.grow o ho a ha),
    fun a ha => h₁.shrink a (h₂.shrink a ha), fun a ha hn =>
      (h₂.next a (lt_of_lt_of_le ha h₁.fresh) fun h' => hn (h₁.shrink a h')).trans
        (h₁.next a ha hn)⟩

/-- The item the search of `hashmap_force` finds is on the list it searches. -/
theorem findKey_mem {next : NextHeap} {key : Nat → HashMapKey} {k : HashMapKey} :
    ∀ {fuel : Nat} {p : Option Nat} {xs : List Nat} {x : Nat}, Chain next p xs →
      HandoffState.findKey next key k fuel p = some x → x ∈ xs
  | fuel, _, [], _, hc, hf => by
    rw [chain_nil.1 hc] at hf
    cases fuel <;> cases hf
  | 0, _, a :: xs, _, hc, hf => by
    rw [(chain_cons.1 hc).1] at hf
    cases hf
  | fuel + 1, _, a :: xs, x, hc, hf => by
    obtain ⟨hp, hc⟩ := chain_cons.1 hc
    rw [hp, HandoffState.findKey] at hf
    split_ifs at hf
    · cases hf
      exact List.mem_cons_self _ _
    · exact List.mem_cons_of_mem _ (findKey_mem hc hf)

section Owned
variable {s : HandoffState} {v : HandoffShape}

theorem Owned.ranges_nil (h : Owned s v) {x : Nat} (hx : ¬v.Live x) (k : RangeKind) :
    v.ranges (.item k x) = [] :=
  by_contra fun hne => hx (h.itemRanges k x hne)

/-- The item an allocation from a free list returns is on no map. -/
theorem Owned.not_live_headD (h : Owned s v) {fl : ItemOwner} (hfl : ∀ hm, fl ≠ .map hm) :
    ¬v.Live ((v.items fl).headD s.items.fresh) :=
  fun ⟨hm, _, hx⟩ => h.items.part.headD_not_mem (hfl hm).symm hx

/-- The `memset` of `add_hashmapitem` changes no range list: the item it zeroes had none. -/
theorem Owned.addHashmapitem_eq (h : Owned s v) {list fl : ItemOwner} (hne : list ≠ fl)
    (hfl : ∀ hm, fl ≠ .map hm) :
    s.addHashmapitem list fl =
      ({ s with items := (s.items.allocHead fl list).1 }, (s.items.allocHead fl list).2) := by
  obtain ⟨hx, -⟩ := h.items.allocHead fl list hne
  have hr : ∀ k, s.ranges.hdr (.item k (s.items.allocHead fl list).2) = {} := fun k => by
    have hk := h.ranges.holds (.item k (s.items.allocHead fl list).2)
    rw [h.ranges_nil (hx ▸ h.not_live_headD hfl) k] at hk
    exact hk.eq_empty
  have e1 : Function.update s.ranges.hdr (.item .loss (s.items.allocHead fl list).2) {} =
      s.ranges.hdr := Function.update_eq_self_iff.2 (hr .loss).symm
  simp only [HandoffState.addHashmapitem]
  rw [e1, Function.update_eq_self_iff.2 (hr .reorder).symm]

/-- A state that differs from `s` in its items pool and keys only is owned with the new lists
of items, when the maps with items are in use and the items with ranges stay on them. -/
theorem Owned.withItems (h : Owned s v) {s' : HandoffState} {c : ItemOwner → List Nat}
    (hs : ItemsOnly s s') (hi : s'.items.Inv c)
    (hmap : ∀ hm, c (.map hm) ≠ [] → v.InUse hm)
    (hlive : ∀ k y, v.ranges (.item k y) ≠ [] → ∃ hm, v.InUse hm ∧ y ∈ c (.map hm)) :
    Owned s' { v with items := c } := by
  rw [ItemsOnly] at hs
  rw [hs] at hi ⊢
  exact ⟨h.maps, hi, h.ranges, hmap, hlive⟩

/-- **`hashmap_force`** onto `list` from the free list `fl`: the item it returns is on `list`;
no list but `list` and `fl` changes, `list` grows, and `fl` only shrinks. -/
theorem Owned.hashmapForce (h : Owned s v) (list fl : ItemOwner) (hne : list ≠ fl)
    (hfl : ∀ hm, fl ≠ .map hm) (hlist : ∀ hm, list = .map hm → v.InUse hm) (k : HashMapKey) :
    ∃ c, Owned (s.hashmapForce list k fl).1 { v with items := c } ∧
      ItemsOnly s (s.hashmapForce list k fl).1 ∧
      (s.hashmapForce list k fl).2 ∈ c list ∧ (∀ o, o ≠ list → o ≠ fl → c o = v.items o) ∧
      Grows fl s (s.hashmapForce list k fl).1 v.items c := by
  unfold HandoffState.hashmapForce
  split
  · rename_i x hx
    exact ⟨v.items, h, rfl, findKey_mem (h.items.holds list).chain hx, fun _ _ _ => rfl,
      Grows.refl _ _ _⟩
  · obtain ⟨hx, hf, hinv, hfr⟩ := h.items.allocHead fl list hne
    rw [h.addHashmapitem_eq hne hfl]
    -- where the lists of the maps are afterwards
    have hmap : ∀ hm, .map hm ≠ list → Function.update (Function.update v.items list
        ((v.items fl).headD s.items.fresh :: v.items list)) fl (v.items fl).tail (.map hm) =
          v.items (.map hm) := fun hm hm' => by
      rw [Function.update_noteq (hfl hm).symm, Function.update_noteq hm']
    refine ⟨_, h.withItems rfl hinv (fun hm hne' => ?_) (fun k y hy => ?_), rfl, ?_,
      fun o h1 h2 => by rw [Function.update_noteq h2, Function.update_noteq h1], ?_⟩
    · by_cases hm' : .map hm = list
      · exact hlist hm hm'.symm
      · exact h.mapItems hm (hmap hm hm' ▸ hne')
    · obtain ⟨hm, hu, hy⟩ := h.itemRanges k y hy
      refine ⟨hm, hu, ?_⟩
      by_cases hm' : .map hm = list
      · subst hm'
        rw [Function.update_noteq (hfl hm).symm, Function.update_same]
        exact List.mem_cons_of_mem _ hy
      · rwa [hmap hm hm']
    · rw [hx, Function.update_noteq hne, Function.update_same]
      exact List.mem_cons_self _ _
    · refine ⟨by rw [hf]; split_ifs <;> omega, fun o ho a ha => ?_, fun a ha => ?_,
        fun a ha hn => hfr a fun he => ?_⟩
      · by_cases h1 : o = list
        · subst h1
          rw [Function.update_noteq ho, Function.update_same]
          exact List.mem_cons_of_mem _ ha
        · rwa [Function.update_noteq ho, Function.update_noteq h1]
      · rw [Function.update_same] at ha
        exact List.mem_of_mem_tail ha
      · cases hc : v.items fl with
        | nil => rw [hc] at he; exact lt_irrefl _ (he ▸ ha)
        | cons y ys => rw [hc] at he hn; exact hn (he ▸ List.mem_cons_self y ys)

/-- `s'` differs from `s` in its ranges pool and range bounds only. -/
def RangesOnly (s s' : HandoffState) : Prop :=
  s' = { s with ranges := s'.ranges, low := s'.low, high := s'.high }

/-- `s'` keeps the maps of `s`, the aggregator's place and the epochs. -/
structure SameMaps (s s' : HandoffState) : Prop where
  maps : s'.maps = s.maps
  adding : s'.adding = s.adding
  epoch : s'.epoch = s.epoch
  nextEpoch : s'.nextEpoch = s.nextEpoch

theorem SameMaps.trans {s₁ s₂ s₃ : HandoffState} (h₁ : SameMaps s₁ s₂) (h₂ : SameMaps s₂ s₃) :
    SameMaps s₁ s₃ :=
  ⟨h₂.maps.trans h₁.maps, h₂.adding.trans h₁.adding, h₂.epoch.trans h₁.epoch,
    h₂.nextEpoch.trans h₁.nextEpoch⟩

theorem ItemsOnly.sameMaps {s' : HandoffState} (h : ItemsOnly s s') : SameMaps s s' := by
  rw [ItemsOnly] at h
  rw [h]
  exact ⟨rfl, rfl, rfl, rfl⟩

theorem RangesOnly.sameMaps {s' : HandoffState} (h : RangesOnly s s') : SameMaps s s' := by
  rw [RangesOnly] at h
  rw [h]
  exact ⟨rfl, rfl, rfl, rfl⟩

/-- A state that differs from `s` in its ranges pool and bounds only is owned with the new lists
of ranges, when only items on maps in use have ranges. -/
theorem Owned.withRanges (h : Owned s v) {s' : HandoffState} {c : RangeOwner → List Nat}
    (hs : RangesOnly s s') (hr : s'.ranges.Inv c) (hlive : ∀ k y, c (.item k y) ≠ [] → v.Live y) :
    Owned s' { v with ranges := c } := by
  rw [RangesOnly] at hs
  rw [hs] at hr ⊢
  exact ⟨h.maps, h.items, hr, h.mapItems, hlive⟩

/-- Storage moved between lists so that every map in use stays in use, and no list of items of
a map and no list of ranges of an item changes, stays owned. -/
theorem Owned.of_inUse (h : Owned s v) {s' : HandoffState} {cm : MapOwner → List Nat}
    {ci : ItemOwner → List Nat} {cr : RangeOwner → List Nat}
    (hm : s'.maps.Inv cm) (hi : s'.items.Inv ci) (hr : s'.ranges.Inv cr)
    (hu : ∀ hm, v.InUse hm → ∃ st, hm ∈ cm (.working st))
    (hmi : ∀ hm, ci (.map hm) = v.items (.map hm))
    (hri : ∀ k x, cr (.item k x) = v.ranges (.item k x)) : Owned s' ⟨cm, ci, cr⟩ where
  maps := hm
  items := hi
  ranges := hr
  mapItems hm' hne := hu hm' (h.mapItems hm' (hmi hm' ▸ hne))
  itemRanges k x hne := by
    obtain ⟨hm', hu', hx⟩ := h.itemRanges k x (hri k x ▸ hne)
    refine ⟨hm', hu hm' hu', ?_⟩
    show x ∈ ci (.map hm')
    rwa [hmi]

/-- Only the ranges of the item at `hmi` grow, or a free list changes: the items with ranges are
live, when `hmi` is. -/
theorem Owned.live_update (h : Owned s v) {k₀ : RangeKind} {hmi : Nat} (hl : v.Live hmi)
    {fl : RangeOwner} (hfl : ∀ k y, fl ≠ .item k y) (l t : List Nat) :
    ∀ k y, Function.update (Function.update v.ranges (.item k₀ hmi) l) fl t (.item k y) ≠ [] →
      v.Live y := by
  intro k y hy
  rw [Function.update_noteq (hfl k y).symm] at hy
  by_cases he : RangeOwner.item k y = .item k₀ hmi
  · cases he
    exact hl
  · rw [Function.update_noteq he] at hy
    exact h.itemRanges k y hy

/-- **`lossdata_arrival`** on a live item keeps the ownership. -/
theorem Owned.lossdataArrival (h : Owned s v) {hmi : Nat} (hl : v.Live hmi) (seqno : Seqno) :
    ∃ c, Owned (s.lossdataArrival hmi seqno (.free .loss .a)) { v with ranges := c } ∧
      RangesOnly s (s.lossdataArrival hmi seqno (.free .loss .a)) := by
  unfold HandoffState.lossdataArrival
  split
  · exact ⟨v.ranges, ⟨h.maps, h.items, h.ranges, h.mapItems, h.itemRanges⟩, rfl⟩
  · obtain ⟨-, -, hinv, -⟩ :=
      h.ranges.allocHead (.free .loss .a) (.item .loss hmi) (by simp)
    exact ⟨_, h.withRanges rfl hinv (h.live_update hl (fun _ _ => by simp) _ _), rfl⟩

/-- **`reorderdata_arrival`** on a live item keeps the ownership. -/
theorem Owned.reorderdataArrival (h : Owned s v) {hmi : Nat} (hl : v.Live hmi) (seqno : Seqno) :
    ∃ c, Owned (s.reorderdataArrival hmi seqno (.free .reorder .a)) { v with ranges := c } ∧
      RangesOnly s (s.reorderdataArrival hmi seqno (.free .reorder .a)) := by
  unfold HandoffState.reorderdataArrival
  split
  · exact ⟨v.ranges, ⟨h.maps, h.items, h.ranges, h.mapItems, h.itemRanges⟩, rfl⟩
  · obtain ⟨-, -, hinv, -⟩ :=
      h.ranges.allocTail (.free .reorder .a) (.item .reorder hmi) (by simp)
    exact ⟨_, h.withRanges rfl hinv (h.live_update hl (fun _ _ => by simp) _ _), rfl⟩

/-- A step of the ranges that a flag turns on or off. -/
theorem Owned.ite_ranges (h : Owned s v) (b : Bool) {f : HandoffState → HandoffState}
    (hf : ∃ c, Owned (f s) { v with ranges := c } ∧ RangesOnly s (f s)) :
    ∃ c, Owned (if b then f s else s) { v with ranges := c } ∧
      RangesOnly s (if b then f s else s) := by
  cases b
  · exact ⟨v.ranges, h, rfl⟩
  · exact hf

/-- **`handle_packet_arrival`** into the latest map of `working_a` keeps the ownership and the
maps. -/
theorem Owned.handlePacketArrival (h : Owned s v) (cfg : EstimatorConfig) (stream : StreamTuple)
    (seq : Seqno) {hm : Nat} (hl : (s.maps.hdr (.working .a)).latest = some hm) :
    ∃ s' v', s.handlePacketArrival cfg stream seq = some s' ∧ Owned s' v' ∧ v'.maps = v.maps ∧
      SameMaps s s' := by
  have hu : v.InUse hm :=
    ⟨.a, List.mem_of_mem_getLast? ((h.maps.holds (.working .a)).latest ▸ hl)⟩
  obtain ⟨c, h₁, hs₁, hmem, -, -⟩ := h.hashmapForce (.map hm) (.free .a) (by simp)
    (fun _ => by simp) (fun _ he => by cases he; exact hu) (.stream stream)
  set r := s.hashmapForce (.map hm) (.stream stream) (.free .a)
  have hlive : { v with items := c }.Live r.2 := ⟨hm, hu, hmem⟩
  obtain ⟨c₂, h₂, hs₂⟩ := h₁.ite_ranges cfg.lossEnabled
    (f := fun s => s.lossdataArrival r.2 seq (.free .loss .a)) (h₁.lossdataArrival hlive seq)
  obtain ⟨c₃, h₃, hs₃⟩ := h₂.ite_ranges (cfg.reorder.extentEnabled || cfg.reorder.densityEnabled)
    (f := fun s => s.reorderdataArrival r.2 seq (.free .reorder .a))
    (h₂.reorderdataArrival hlive seq)
  exact ⟨_, _, by rw [HandoffState.handlePacketArrival, hl]; rfl, h₃, rfl,
    hs₁.sameMaps.trans (hs₂.sameMaps.trans hs₃.sameMaps)⟩

/-- **The aggregator's critical section** moves the map of `working_a` to the end of
`working_sh` and takes the free lists of the shared area. -/
theorem Owned.dataExchangeAggregatorUnsafe (h : Owned s v) (hf : s.maps.fresh < 2 ^ 32) {x : Nat}
    {rest : List Nat} (ha : v.maps (.working .a) = x :: rest) :
    ∃ s' v', s.dataExchangeAggregatorUnsafe = some s' ∧ Owned s' v' ∧
      v'.maps (.working .r) = v.maps (.working .r) ∧
      v'.maps (.working .sh) = v.maps (.working .sh) ++ [x] ∧ v'.maps (.working .a) = rest ∧
      s'.maps.fresh = s.maps.fresh ∧ s'.adding = s.adding ∧ s'.epoch = s.epoch ∧
      s'.nextEpoch = s.nextEpoch := by
  obtain ⟨hf₁, hm₁⟩ := h.maps.moveone (.working .sh) (.working .a) (by simp) hf ha
  obtain ⟨M, hM, hfM, hm₂⟩ := hm₁.moveall (.free .a) (.free .sh) (by simp) (hf₁ ▸ hf)
  obtain ⟨I, hI, -, hi, -⟩ := h.items.move (.free .a) (.free .sh) (by simp)
  obtain ⟨R₁, hR₁, -, hr₁, -⟩ :=
    h.ranges.move (.free .loss .a) (.free .loss .sh) (by simp)
  obtain ⟨R₂, hR₂, -, hr₂, -⟩ :=
    hr₁.move (.free .reorder .a) (.free .reorder .sh) (by simp)
  refine ⟨{ s with maps := M, items := I, ranges := R₂ }, _,
    by simp [HandoffState.dataExchangeAggregatorUnsafe, hM, hI, hR₁, hR₂],
    h.of_inUse hm₂ hi hr₂ (fun hm ⟨st, hu⟩ => ?_) (fun _ => by simp [Function.update_apply])
      (fun _ _ => by simp [Function.update_apply]), by simp [Function.update_apply],
    by simp [Function.update_apply], by simp [Function.update_apply], hfM.trans hf₁, rfl, rfl, rfl⟩
  cases st with
  | a =>
    rw [ha] at hu
    rcases List.mem_cons.1 hu with rfl | hu
    · exact ⟨.sh, by simp [Function.update_apply]⟩
    · exact ⟨.a, by simp [Function.update_apply, hu]⟩
  | sh => exact ⟨.sh, by simp [Function.update_apply, hu]⟩
  | r => exact ⟨.r, by simp [Function.update_apply, hu]⟩

/-- **`add_hashmap`** puts a map that was not in use (from `free_hashmaps_a`, or `malloc`ed)
at the end of `working_a`, with the next epoch. -/
theorem Owned.addHashmap (h : Owned s v) (hf : s.maps.fresh + 1 < 2 ^ 32) :
    ∃ v' x, Owned s.addHashmap v' ∧ ¬v.InUse x ∧ v'.maps (.working .r) = v.maps (.working .r) ∧
      v'.maps (.working .sh) = v.maps (.working .sh) ∧
      v'.maps (.working .a) = v.maps (.working .a) ++ [x] ∧
      s.addHashmap.maps.fresh ≤ s.maps.fresh + 1 ∧
      s.addHashmap.epoch = Function.update s.epoch x s.nextEpoch := by
  obtain ⟨hx, hf', hinv⟩ := h.maps.add (.working .a) (.free .a) (by simp) hf
  obtain ⟨x, hxd⟩ : ∃ x, (v.maps (.free .a)).headD s.maps.fresh = x := ⟨_, rfl⟩
  rw [hxd] at hx hinv
  have hnu : ¬v.InUse x := fun ⟨_, hm⟩ => h.maps.part.headD_not_mem (by simp) (hxd ▸ hm)
  -- the `memset` empties items the map did not have
  have hitems : s.items.hdr (.map x) = {} := by
    have hi := h.items.holds (.map x)
    rw [show v.items (.map x) = [] from by_contra fun hne => hnu (h.mapItems x hne)] at hi
    exact hi.eq_empty
  have heq : s.addHashmap =
      { s with
          maps := (s.maps.add (.working .a) (.free .a)).1
          epoch := Function.update s.epoch x s.nextEpoch
          nextEpoch := s.nextEpoch + 1 } := by
    simp only [HandoffState.addHashmap, hx]
    rw [Function.update_eq_self_iff.2 hitems.symm]
  rw [heq]
  refine ⟨_, x, h.of_inUse hinv h.items h.ranges (fun hm ⟨st, hu⟩ => ⟨st, ?_⟩)
    (fun _ => rfl) (fun _ _ => rfl), hnu, by simp [Function.update_apply],
    by simp [Function.update_apply], by simp [Function.update_apply], ?_, rfl⟩
  · cases st <;> simp [Function.update_apply, hu]
  · dsimp only
    rw [hf']
    split_ifs <;> omega

/-- **The reporter's critical section** takes all of `working_sh` to the end of `working_r`
and leaves its free lists in the shared area. -/
theorem Owned.dataExchangeReporterUnsafe (h : Owned s v) (hf : s.maps.fresh < 2 ^ 32) :
    ∃ s' v', s.dataExchangeReporterUnsafe = some s' ∧ Owned s' v' ∧
      v'.maps (.working .r) = v.maps (.working .r) ++ v.maps (.working .sh) ∧
      v'.maps (.working .sh) = [] ∧ v'.maps (.working .a) = v.maps (.working .a) ∧
      s'.maps.fresh = s.maps.fresh ∧ s'.adding = s.adding ∧ s'.epoch = s.epoch ∧
      s'.nextEpoch = s.nextEpoch := by
  obtain ⟨M₁, hM₁, hf₁, hm₁⟩ := h.maps.moveall (.working .r) (.working .sh) (by simp) hf
  obtain ⟨M, hM, hfM, hm₂⟩ := hm₁.moveall (.free .sh) (.free .r) (by simp) (hf₁ ▸ hf)
  obtain ⟨I, hI, -, hi, -⟩ := h.items.move (.free .sh) (.free .r) (by simp)
  obtain ⟨R₁, hR₁, -, hr₁, -⟩ :=
    h.ranges.move (.free .loss .sh) (.free .loss .r) (by simp)
  obtain ⟨R₂, hR₂, -, hr₂, -⟩ :=
    hr₁.move (.free .reorder .sh) (.free .reorder .r) (by simp)
  refine ⟨{ s with maps := M, items := I, ranges := R₂ }, _,
    by simp [HandoffState.dataExchangeReporterUnsafe, hM₁, hM, hI, hR₁, hR₂],
    h.of_inUse hm₂ hi hr₂ (fun hm ⟨st, hu⟩ => ?_) (fun _ => by simp [Function.update_apply])
      (fun _ _ => by simp [Function.update_apply]), by simp [Function.update_apply],
    by simp [Function.update_apply], by simp [Function.update_apply], hfM.trans hf₁, rfl, rfl, rfl⟩
  cases st with
  | a => exact ⟨.a, by simp [Function.update_apply, hu]⟩
  | sh => exact ⟨.r, by simp [Function.update_apply, hu]⟩
  | r => exact ⟨.r, by simp [Function.update_apply, hu]⟩

end Owned

end Pd3Estimator
