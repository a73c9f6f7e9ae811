import Pd3Estimator.HandoffOwnership

/-!
# Ownership through the reporter's processing

One pass of the reporter's processing loop has three loops over lists of items and ends by
recycling a map. Each loop is taken through `walk_spec` with the nodes still to visit on a list
whose `next` fields the body does not write:

* the conversion loop (`Owned.convertLoop`) walks the items of the map, and its body only
  takes items from `free_hmis_local` onto `state_data` and the trackers (`LocalStep`);
* the consolidation of a tracker walks the tracker while its body prepends flows to it, which
  are taken from `free_hmis_local` or `malloc`ed (`Grows`); `zeroout_hashmap` then gives the
  tracker's items back to `free_hmis_local` (`Owned.reportTracker`, `Owned.reportTrackers`);
* the recycling loop (`Owned.recycleLoop`) walks the items of the map and moves only ranges,
  leaving each visited item without ranges, so that `move_hmilist` and `moveone_hashmap` can
  retire the map (`Owned.recycleMap`).

`Owned.processEarliest` assembles them: the pass never fails, keeps the ownership, and takes
the earliest map off `working_r`.
-/

namespace Pd3Estimator

/-- The lists of items only the reporter thread touches: `free_hmis_local`, the trackers and
`state_data`. -/
def ItemOwner.isLocal : ItemOwner → Bool
  | .hmisLocal => true
  | .tracker _ => true
  | .stateData => true
  | _ => false

/-- `s'` comes from `s` by work on the reporter's own lists of items: only the items pool and
the keys change, every other list is as it was, and `next` is kept at its nodes. -/
structure LocalStep (s s' : HandoffState) (v v' : HandoffShape) : Prop where
  only : ItemsOnly s s'
  maps : v'.maps = v.maps
  ranges : v'.ranges = v.ranges
  shared : ∀ o, o.isLocal = false → v'.items o = v.items o
  next : ∀ o, o.isLocal = false → ∀ a ∈ v.items o, s'.items.next a = s.items.next a

section Steps
variable {s s₁ s₂ s₃ : HandoffState} {v v₁ v₂ v₃ : HandoffShape}

theorem ItemsOnly.trans (h₁ : ItemsOnly s₁ s₂) (h₂ : ItemsOnly s₂ s₃) : ItemsOnly s₁ s₃ := by
  unfold ItemsOnly at *
  conv_lhs => rw [h₂, h₁]

theorem RangesOnly.trans (h₁ : RangesOnly s₁ s₂) (h₂ : RangesOnly s₂ s₃) : RangesOnly s₁ s₃ := by
  unfold RangesOnly at *
  conv_lhs => rw [h₂, h₁]

theorem RangesOnly.items (h : RangesOnly s₁ s₂) : s₂.items = s₁.items := by
  rw [RangesOnly] at h
  rw [h]

theorem LocalStep.refl (s : HandoffState) (v : HandoffShape) : LocalStep s s v v :=
  ⟨rfl, rfl, rfl, fun _ _ => rfl, fun _ _ _ _ => rfl⟩

theorem LocalStep.trans (h₁ : LocalStep s₁ s₂ v₁ v₂) (h₂ : LocalStep s₂ s₃ v₂ v₃) :
    LocalStep s₁ s₃ v₁ v₃ :=
  ⟨h₁.only.trans h₂.only, h₂.maps.trans h₁.maps, h₂.ranges.trans h₁.ranges,
    fun o ho => (h₂.shared o ho).trans (h₁.shared o ho), fun o ho a ha =>
      (h₂.next o ho a ((h₁.shared o ho).symm ▸ ha)).trans (h₁.next o ho a ha)⟩

end Steps

section Owned
variable {s : HandoffState} {v : HandoffShape}

/-- **`hashmap_force`** on a list of the reporter's, from `free_hmis_local`. -/
theorem Owned.forceLocal (h : Owned s v) (list : ItemOwner) (hl : list.isLocal = true)
    (hne : list ≠ .hmisLocal) (k : HashMapKey) :
    ∃ v', Owned (s.hashmapForce list k .hmisLocal).1 v' ∧
      LocalStep s (s.hashmapForce list k .hmisLocal).1 v v' ∧
      Grows .hmisLocal s (s.hashmapForce list k .hmisLocal).1 v.items v'.items := by
  obtain ⟨c, h', hs, -, hother, hg⟩ :=
    h.hashmapForce list .hmisLocal hne (fun _ => by simp) (fun _ he => by subst he; cases hl) k
  have hnl : ∀ o : ItemOwner, o.isLocal = false → o ≠ .hmisLocal := fun o ho he => by
    subst he
    cases ho
  refine ⟨_, h', ⟨hs, rfl, rfl, fun o ho => hother o (fun he => ?_) (hnl o ho),
    fun o ho a ha => hg.next a (h.items.part.lt ha) (h.items.part.not_mem (hnl o ho) ha)⟩, hg⟩
  subst he
  rw [hl] at ho
  cases ho

/-- The tracker loop of the conversion: `hashmap_force` in every tracker of a list. -/
theorem Owned.forceTrackers (k : HashMapKey) :
    ∀ (l : List Nat) {s : HandoffState} {v : HandoffShape}, Owned s v →
      ∃ v', Owned (l.foldl (fun s i => (s.hashmapForce (.tracker i) k .hmisLocal).1) s) v' ∧
        LocalStep s (l.foldl (fun s i => (s.hashmapForce (.tracker i) k .hmisLocal).1) s) v v'
  | [], _, v, h => ⟨v, h, LocalStep.refl _ _⟩
  | i :: l, _, _, h => by
    obtain ⟨v₁, h₁, hl₁, -⟩ := h.forceLocal (.tracker i) rfl (by simp) k
    obtain ⟨v₂, h₂, hl₂⟩ := Owned.forceTrackers k l h₁
    exact ⟨v₂, h₂, hl₁.trans hl₂⟩

/-- The body of the conversion loop works on the reporter's own lists. -/
theorem Owned.convertItem (h : Owned s v) (n : Nat) (k : HashMapKey) :
    ∃ v', Owned (s.convertItem n k) v' ∧ LocalStep s (s.convertItem n k) v v' := by
  obtain ⟨v₁, h₁, hl₁, -⟩ := h.forceLocal .stateData rfl (by simp) k
  obtain ⟨v₂, h₂, hl₂⟩ := Owned.forceTrackers k (List.range n) h₁
  exact ⟨v₂, h₂, hl₁.trans hl₂⟩

/-- The body of the consolidation loop works on the reporter's own lists, growing them. -/
theorem Owned.consolidateItem (h : Owned s v) (i y : Nat) :
    ∃ v', Owned (s.consolidateItem i y) v' ∧ LocalStep s (s.consolidateItem i y) v v' ∧
      Grows .hmisLocal s (s.consolidateItem i y) v.items v'.items := by
  unfold HandoffState.consolidateItem
  split
  · obtain ⟨v₁, h₁, hl₁, hg₁⟩ := h.forceLocal .stateData rfl (by simp) _
    obtain ⟨v₂, h₂, hl₂, hg₂⟩ := h₁.forceLocal (.tracker i) rfl (by simp) _
    exact ⟨v₂, h₂, hl₁.trans hl₂, hg₁.trans hg₂⟩
  · exact ⟨v, h, LocalStep.refl _ _, Grows.refl _ _ _⟩

/-- **`zeroout_hashmap`** of a tracker gives its items back to `free_hmis_local`. -/
theorem Owned.zerooutHashmap (h : Owned s v) (i : Nat) :
    ∃ s' v', s.zerooutHashmap (.tracker i) .hmisLocal = some s' ∧ Owned s' v' ∧
      LocalStep s s' v v' := by
  obtain ⟨I, hI, -, hi, hfr⟩ := h.items.move (.hmisLocal) (.tracker i) (by simp)
  have hsame : ∀ o, o.isLocal = false → Function.update (Function.update v.items .hmisLocal
      (v.items .hmisLocal ++ v.items (.tracker i))) (.tracker i) [] o = v.items o :=
    fun o ho => by
      have h1 : o ≠ .tracker i := fun he => by subst he; cases ho
      have h2 : o ≠ .hmisLocal := fun he => by subst he; cases ho
      rw [Function.update_noteq h1, Function.update_noteq h2]
  refine ⟨{ s with items := I }, _, by simp [HandoffState.zerooutHashmap, hI],
    h.withItems rfl hi (fun hm hne => h.mapItems hm (hsame (.map hm) rfl ▸ hne))
      (fun k y hy => ?_),
    ⟨rfl, rfl, rfl, hsame, fun o ho a ha => hfr a (h.items.part.not_mem ?_ ha)⟩⟩
  · obtain ⟨hm, hu, hm'⟩ := h.itemRanges k y hy
    exact ⟨hm, hu, (hsame (.map hm) rfl).symm ▸ hm'⟩
  · rintro rfl
    cases ho

/-- **A tracker's report** works on the reporter's own lists: its consolidation loop runs to
the end, over the tracker as it was, and its `zeroout_hashmap` never fails. -/
theorem Owned.reportTracker (h : Owned s v) (i : Nat) (due : Bool) :
    ∃ s' v', s.reportTracker i due = some s' ∧ Owned s' v' ∧ LocalStep s s' v v' := by
  unfold HandoffState.reportTracker
  split
  · obtain ⟨s₁, hw, v₁, h₁, hl₁, -⟩ : ∃ s₁, walk (·.items.next)
        (fun y s => some (s.consolidateItem i y)) s.items.fresh (s.items.hdr (.tracker i)).head s =
          some s₁ ∧ ∃ v₁, Owned s₁ v₁ ∧ LocalStep s s₁ v v₁ ∧
            Grows .hmisLocal s s₁ v.items v₁.items := by
      refine walk_spec (P := fun _ s' => ∃ v', Owned s' v' ∧ LocalStep s s' v v' ∧
          Grows .hmisLocal s s' v.items v'.items) (v.items (.tracker i)) ?_ _ [] _ _ _ rfl
        (h.items.holds _).chain (h.items.part.length_le _)
        ⟨v, h, LocalStep.refl _ _, Grows.refl _ _ _⟩
      intro pre x post s' hxs ⟨v', h', hl', hg'⟩ hc
      obtain ⟨v'', h'', hl'', hg''⟩ := h'.consolidateItem i x
      -- the tracker's nodes still to visit keep their `next`: the body writes only new nodes
      have hkeep : ∀ a ∈ x :: post,
          (s'.consolidateItem i x).items.next a = s'.items.next a := fun a ha => by
        have hav : a ∈ v.items (.tracker i) := hxs ▸ List.mem_append_right pre ha
        have hlt := h.items.part.lt hav
        have hnl : a ∉ v.items .hmisLocal := h.items.part.not_mem (by simp) hav
        rw [(hg'.trans hg'').next a hlt hnl, hg'.next a hlt hnl]
      refine ⟨_, rfl, ⟨v'', h'', hl'.trans hl'', hg'.trans hg''⟩, ?_⟩
      rw [hkeep x (List.mem_cons_self _ _)]
      exact hc.congr fun a ha => hkeep a (List.mem_cons_of_mem _ ha)
    obtain ⟨s₂, v₂, hz, h₂, hl₂⟩ := h₁.zerooutHashmap i
    exact ⟨s₂, v₂, by rw [hw]; exact hz, h₂, hl₁.trans hl₂⟩
  · exact ⟨s, v, rfl, h, LocalStep.refl _ _⟩

/-- **The body of the recycling loop** moves the ranges of one item to the reporter's free lists
and changes no other list of ranges of an item. -/
theorem Owned.recycleRanges (h : Owned s v) (x : Nat) :
    ∃ s' v', s.recycleRanges x = some s' ∧ Owned s' v' ∧ RangesOnly s s' ∧ v'.maps = v.maps ∧
      v'.items = v.items ∧ (∀ k, v'.ranges (.item k x) = []) ∧
      ∀ k y, v.ranges (.item k y) = [] → v'.ranges (.item k y) = [] := by
  obtain ⟨R₁, hR₁, -, hr₁, -⟩ :=
    h.ranges.move (.free .loss .r) (.item .loss x) (by simp)
  obtain ⟨R₂, hR₂, -, hr₂, -⟩ :=
    hr₁.move (.free .reorder .r) (.item .reorder x) (by simp)
  refine ⟨{ s with ranges := R₂ }, _, by simp [HandoffState.recycleRanges, hR₁, hR₂],
    h.withRanges rfl hr₂ fun k y hy => ?_, rfl, rfl, rfl, fun k => ?_, fun k y hy => ?_⟩
  · by_cases hyx : y = x
    · subst hyx
      cases k <;> simp [Function.update_apply] at hy
    · simp [Function.update_apply, hyx] at hy
      exact h.itemRanges k y hy
  · cases k <;> simp [Function.update_apply]
  · by_cases hyx : y = x
    · subst hyx
      cases k <;> simp [Function.update_apply]
    · simpa [Function.update_apply, hyx] using hy

/-- **Retiring the earliest map of `working_r`** once its items have no ranges: its items go to
`free_hashmapitems_r` and the map to `free_hashmaps_r`. -/
theorem Owned.recycleMap (h : Owned s v) (hf : s.maps.fresh < 2 ^ 32) {hm : Nat}
    {rest : List Nat} (hr : v.maps (.working .r) = hm :: rest)
    (hx : ∀ y ∈ v.items (.map hm), ∀ k, v.ranges (.item k y) = []) :
    ∃ I v', s.items.move (.free .r) (.map hm) = some I ∧
      Owned { s with items := I, maps := s.maps.moveone (.free .r) (.working .r) } v' ∧
      v'.maps (.working .r) = rest ∧ v'.maps (.working .sh) = v.maps (.working .sh) ∧
      v'.maps (.working .a) = v.maps (.working .a) ∧
      (s.maps.moveone (.free .r) (.working .r)).fresh = s.maps.fresh := by
  obtain ⟨I, hI, -, hi, -⟩ := h.items.move (.free .r) (.map hm) (by simp)
  obtain ⟨hfM, hm'⟩ := h.maps.moveone (.free .r) (.working .r) (by simp) hf hr
  set cm := Function.update (Function.update v.maps (.working .r) rest) (.free .r)
    (v.maps (.free .r) ++ [hm]) with hcm
  have hr' : cm (.working .r) = rest := by simp [hcm, Function.update_apply]
  have hsh : cm (.working .sh) = v.maps (.working .sh) := by simp [hcm, Function.update_apply]
  have ha : cm (.working .a) = v.maps (.working .a) := by simp [hcm, Function.update_apply]
  -- a map in use but `hm` stays in use
  have huse : ∀ hm', v.InUse hm' → hm' ≠ hm → ∃ st, hm' ∈ cm (.working st) := by
    rintro hm' ⟨st, hu⟩ hne
    cases st with
    | r =>
      rw [hr] at hu
      exact ⟨.r, hr' ▸ (List.mem_cons.1 hu).resolve_left hne⟩
    | sh => exact ⟨.sh, hsh ▸ hu⟩
    | a => exact ⟨.a, ha ▸ hu⟩
  set ci := Function.update (Function.update v.items (.free .r)
    (v.items (.free .r) ++ v.items (.map hm))) (.map hm) [] with hci
  have hitems : ∀ hm', hm' ≠ hm → ci (.map hm') = v.items (.map hm') :=
    fun hm' he => by simp [hci, Function.update_apply, he]
  refine ⟨I, ⟨cm, ci, v.ranges⟩, hI, ⟨hm', hi, h.ranges, fun hm' hne => ?_, fun k y hy => ?_⟩,
    hr', hsh, ha, hfM⟩
  · by_cases he : hm' = hm
    · subst he
      simp [hci] at hne
    · exact huse hm' (h.mapItems hm' (hitems hm' he ▸ hne)) he
  · obtain ⟨hm', hu, hy'⟩ := h.itemRanges k y hy
    have he : hm' ≠ hm := fun he => hy (hx y (he ▸ hy') k)
    refine ⟨hm', huse hm' hu he, ?_⟩
    show y ∈ ci (.map hm')
    rwa [hitems hm' he]

/-- **The conversion loop** over the items of the map at `hm` never fails, and moves items
between the reporter's lists only. -/
theorem Owned.convertLoop (h : Owned s v) (ntrackers hm : Nat) :
    ∃ s₁, walk (·.items.next) (fun x s => some (s.convertItem ntrackers (s.key x)))
        s.items.fresh (s.items.hdr (.map hm)).head s = some s₁ ∧
      ∃ v₁, Owned s₁ v₁ ∧ LocalStep s s₁ v v₁ := by
  refine walk_spec (P := fun _ s' => ∃ v', Owned s' v' ∧ LocalStep s s' v v')
    (v.items (.map hm)) ?_ _ [] _ _ _ rfl (h.items.holds _).chain (h.items.part.length_le _)
    ⟨v, h, LocalStep.refl _ _⟩
  intro pre x post s' hxs ⟨v', h', hl'⟩ hc
  obtain ⟨v'', h'', hl''⟩ := h'.convertItem ntrackers (s'.key x)
  -- the body writes `next` on the reporter's lists only
  have hkeep : ∀ a ∈ x :: post,
      (s'.convertItem ntrackers (s'.key x)).items.next a = s'.items.next a := fun a ha => by
    have hav : a ∈ v.items (.map hm) := hxs ▸ List.mem_append_right pre ha
    rw [(hl'.trans hl'').next (.map hm) rfl a hav, hl'.next (.map hm) rfl a hav]
  refine ⟨_, rfl, ⟨v'', h'', hl'.trans hl''⟩, ?_⟩
  rw [hkeep x (List.mem_cons_self _ _)]
  exact hc.congr fun a ha => hkeep a (List.mem_cons_of_mem _ ha)

/-- **The reports of the trackers** never fail, and move items between the reporter's lists
only. -/
theorem Owned.reportTrackers (h : Owned s v) (ntrackers : Nat) (due : List Bool) :
    ∃ s₂, (List.range ntrackers).foldlM
        (fun s i => s.reportTracker i (due.getD i false)) s = some s₂ ∧
      ∃ v₂, Owned s₂ v₂ ∧ LocalStep s s₂ v v₂ :=
  foldlM_spec (P := fun s' => ∃ v', Owned s' v' ∧ LocalStep s s' v v')
    (fun s' i ⟨_, h', hl'⟩ => by
      obtain ⟨s'', v'', hs'', h'', hl''⟩ := h'.reportTracker i (due.getD i false)
      exact ⟨s'', hs'', v'', h'', hl'.trans hl''⟩) _ _ ⟨v, h, LocalStep.refl _ _⟩

/-- **The recycling loop** over the items of the map at `hm` never fails, moves ranges only,
and leaves every item of the map without ranges. -/
theorem Owned.recycleLoop (h : Owned s v) (hm : Nat) :
    ∃ s₃, walk (·.items.next) (fun x s => s.recycleRanges x) s.items.fresh
        (s.items.hdr (.map hm)).head s = some s₃ ∧
      ∃ v₃, Owned s₃ v₃ ∧ RangesOnly s s₃ ∧ v₃.maps = v.maps ∧ v₃.items = v.items ∧
        ∀ y ∈ v.items (.map hm), ∀ k, v₃.ranges (.item k y) = [] := by
  refine walk_spec (P := fun pre s' => ∃ v', Owned s' v' ∧ RangesOnly s s' ∧
      v'.maps = v.maps ∧ v'.items = v.items ∧ ∀ y ∈ pre, ∀ k, v'.ranges (.item k y) = [])
    (v.items (.map hm)) ?_ _ [] _ _ _ rfl (h.items.holds _).chain
    (h.items.part.length_le _) ⟨v, h, rfl, rfl, rfl, fun _ h => absurd h (List.not_mem_nil _)⟩
  intro pre x post s' _ ⟨v', h', hs', hm', hi', hpre⟩ hc
  obtain ⟨s'', v'', hs'', h'', hr'', hm'', hi'', hx'', hkeep⟩ := h'.recycleRanges x
  refine ⟨s'', hs'', ⟨v'', h'', hs'.trans hr'', hm''.trans hm', hi''.trans hi',
    fun y hy k => ?_⟩, by rw [hr''.items]; exact hc⟩
  rcases List.mem_append.1 hy with hy | hy
  · exact hkeep k y (hpre y hy k)
  · rw [List.mem_singleton.1 hy]
    exact hx'' k

/-- **One pass of the processing loop** on a `working_r` whose earliest map is `hm` never fails,
keeps the ownership, and takes `hm` off `working_r`. -/
theorem Owned.processEarliest (h : Owned s v) (hf : s.maps.fresh < 2 ^ 32) {hm : Nat}
    {rest : List Nat} (hr : v.maps (.working .r) = hm :: rest) (ntrackers : Nat)
    (due : List Bool) :
    ∃ s' v', s.processEarliest ntrackers due = some s' ∧ Owned s' v' ∧
      v'.maps (.working .r) = rest ∧ v'.maps (.working .sh) = v.maps (.working .sh) ∧
      v'.maps (.working .a) = v.maps (.working .a) ∧ s'.maps.fresh = s.maps.fresh ∧
      s'.adding = s.adding ∧ s'.epoch = s.epoch ∧ s'.nextEpoch = s.nextEpoch := by
  have he : (s.maps.hdr (.working .r)).earliest = some hm := by
    have hc := (h.maps.holds (.working .r)).chain
    rw [hr] at hc
    exact hc.1
  obtain ⟨s₁, hw₁, v₁, h₁, hl₁⟩ := h.convertLoop ntrackers hm
  obtain ⟨s₂, hf₂, v₂, h₂, hl₂⟩ := h₁.reportTrackers ntrackers due
  obtain ⟨s₃, hw₃, v₃, h₃, hs₃, hm₃, hi₃, hnil⟩ := h₂.recycleLoop hm
  -- the maps are those of `s` until the end
  have hsm : SameMaps s s₃ := (hl₁.trans hl₂).only.sameMaps.trans hs₃.sameMaps
  have hv : v₃.maps = v.maps := hm₃.trans (hl₁.trans hl₂).maps
  obtain ⟨I, v₄, hI, h₄, hr₄, hsh₄, ha₄, hf₄⟩ :=
    h₃.recycleMap (hsm.maps ▸ hf) (hv ▸ hr) fun y hy => hnil y (hi₃ ▸ hy)
  refine ⟨_, v₄, ?_, h₄, hr₄, hsh₄.trans (by rw [hv]), ha₄.trans (by rw [hv]),
    hf₄.trans (by rw [hsm.maps]), hsm.adding, hsm.epoch, hsm.nextEpoch⟩
  simp only [HandoffState.processEarliest, he, Option.bind_eq_bind, Option.some_bind, hw₁, hf₂,
    hw₃, hI]
  rfl

end Owned

end Pd3Estimator
