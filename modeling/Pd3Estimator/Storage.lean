import Pd3Estimator.LinkedLists

/-!
# Pools of list nodes

All the `struct hashMapItem`s of the estimator are nodes of one pool, as are all its
`struct seqnoRange`s and all its `struct hashMap`s. A pool is the `next` field of each node, the
list headers that hold nodes of the pool, indexed by where each header lives, and `malloc`:
addresses from `fresh` on were never returned by it.

* `ListHeap` with `move` (`move_hmilist`, `move_seqnorangelist`) and `allocHead`, `allocTail`
  (a node taken from a free list, or `malloc`ed when the free list is empty, and put at the
  head or at the end of a list);
* `MapHeap` with `moveone` (`moveone_hashmap`), `moveall` (`moveall_hashmap`) and `add` (the list
  part of `add_hashmap`);
* `ListHeap.Inv H c`, `MapHeap.Inv H c`: every header holds its list in `c`, and the lists
  share out the nodes `malloc` returned (`Partition`). Each operation keeps it, and its lemma
  names the lists afterwards.
-/

namespace Pd3Estimator

section Lists
variable {next next' : NextHeap} {xs : List Nat}

theorem SList.Holds.congr {L : SList} (h : L.Holds next xs) (hx : ∀ a ∈ xs, next' a = next a) :
    L.Holds next' xs :=
  ⟨h.chain.congr hx, h.tail⟩

theorem MapList.Holds.congr {L : MapList} (h : L.Holds next xs)
    (hx : ∀ a ∈ xs, next' a = next a) : L.Holds next' xs :=
  ⟨h.chain.congr hx, h.latest, h.count⟩

/-- A header that holds no node is the zeroed header. -/
theorem SList.Holds.eq_empty {L : SList} (h : L.Holds next []) : L = {} := by
  cases L
  exact SList.mk.injEq _ _ _ _ ▸ ⟨h.chain, h.tail⟩

end Lists

section Partition
variable {ι : Type} {c : ι → List Nat} {n : Nat}

theorem Partition.length_append_le (h : Partition c n) {i j : ι} (hij : i ≠ j) :
    (c i ++ c j).length ≤ n := by
  have hs : List.Subperm (c i ++ c j) (List.range n) :=
    List.subperm_of_subset (h.nodup_append hij) fun a ha =>
      List.mem_range.2 (by rcases List.mem_append.1 ha with ha | ha <;> exact h.lt ha)
  simpa using hs.length_le

theorem Partition.empty : Partition (fun _ : ι => ([] : List Nat)) 0 :=
  ⟨fun a => by simp, fun _ => List.nodup_nil, fun h => absurd h (List.not_mem_nil _)⟩

theorem Partition.length_le (h : Partition c n) (i : ι) : (c i).length ≤ n := by
  have hs : List.Subperm (c i) (List.range n) :=
    List.subperm_of_subset (h.nodup i) fun _ ha => List.mem_range.2 (h.lt ha)
  simpa using hs.length_le

/-- The node `malloc` would return is on no list. -/
theorem Partition.fresh_not_mem (h : Partition c n) (i : ι) : n ∉ c i :=
  fun hm => lt_irrefl n (h.lt hm)

/-- The node an allocation from the free list `fl` returns (its first node, or a fresh one) is
on no other list. -/
theorem Partition.headD_not_mem (h : Partition c n) {fl o : ι} (ho : o ≠ fl) :
    (c fl).headD n ∉ c o := by
  cases hfl : c fl with
  | nil => exact h.fresh_not_mem o
  | cons y ys =>
    have hy : y ∈ c fl := hfl ▸ List.mem_cons_self y ys
    exact h.not_mem (Ne.symm ho) hy

theorem Partition.headD_not_mem_tail (h : Partition c n) (fl : ι) :
    (c fl).headD n ∉ (c fl).tail := by
  cases hfl : c fl with
  | nil => exact List.not_mem_nil _
  | cons y ys => exact (List.nodup_cons.1 (hfl ▸ h.nodup fl)).1

variable [DecidableEq ι]

/-- **An allocation** from the free list `fl` onto `o`, whose new list `l` is the old one with
the allocated node added, keeps the partition of the nodes `malloc` returned by then. -/
theorem Partition.alloc (h : Partition c n) {fl o : ι} (hne : o ≠ fl) {l : List Nat}
    (hl : l.Perm ((c fl).headD n :: c o)) :
    Partition (Function.update (Function.update c o l) fl (c fl).tail)
      (if c fl = [] then n + 1 else n) := by
  cases hfl : c fl with
  | nil =>
    have hc : (Function.update c o l) fl = [] := by rw [Function.update_noteq hne.symm, hfl]
    rw [hfl] at hl
    rw [if_pos rfl, List.tail_nil, ← hc, Function.update_eq_self]
    exact h.fresh hl
  | cons y ys =>
    rw [hfl] at hl
    rw [if_neg (List.cons_ne_nil y ys), List.tail_cons]
    refine h.update₂ hne ?_
    rw [hfl]
    exact (hl.append_right ys).trans List.perm_middle.symm

end Partition

/-! ### Pools of items and ranges -/

/-- A pool of nodes linked by one `next` field: the field of every node, every list header,
indexed by where it lives, and `malloc`. -/
structure ListHeap (ι : Type) where
  next : NextHeap
  hdr : ι → SList
  fresh : Nat

namespace ListHeap
variable {ι : Type} [DecidableEq ι]

/-- `move_hmilist(dst, src)`, `move_seqnorangelist(dst, src)`. -/
def move (H : ListHeap ι) (dst src : ι) : Option (ListHeap ι) :=
  (moveList H.next (H.hdr dst) (H.hdr src)).map fun r =>
    { H with next := r.1, hdr := Function.update (Function.update H.hdr dst r.2.1) src r.2.2 }

/-- `if (fl->head) { x = fl->head; fl->head = x->next; if (x == fl->tail) fl->tail = NULL; }
else x = malloc(...)`. -/
def alloc (H : ListHeap ι) (fl : ι) : ListHeap ι × Nat :=
  match popHead H.next (H.hdr fl) with
  | some (x, L) => ({ H with hdr := Function.update H.hdr fl L }, x)
  | none => ({ H with fresh := H.fresh + 1 }, H.fresh)

/-- A node from `fl`, or `malloc`ed, put at the head of `o` (`add_hashmapitem`,
`lossdata_arrival`). -/
def allocHead (H : ListHeap ι) (fl o : ι) : ListHeap ι × Nat :=
  let (H, x) := H.alloc fl
  let r := pushHead H.next (H.hdr o) x
  ({ H with next := r.1, hdr := Function.update H.hdr o r.2 }, x)

/-- A node from `fl`, or `malloc`ed, put at the end of `o` (`reorderdata_arrival`). -/
def allocTail (H : ListHeap ι) (fl o : ι) : ListHeap ι × Nat :=
  let (H, x) := H.alloc fl
  let r := pushTail H.next (H.hdr o) x
  ({ H with next := r.1, hdr := Function.update H.hdr o r.2 }, x)

/-- The pool holds the lists `c`: every header holds its list, and the lists share out the
nodes `malloc` returned, each on exactly one list, once. -/
structure Inv (H : ListHeap ι) (c : ι → List Nat) : Prop where
  holds : ∀ o, (H.hdr o).Holds H.next (c o)
  part : Partition c H.fresh

variable {H : ListHeap ι} {c : ι → List Nat}

/-- **`move`** appends the list of `src` to that of `dst` and empties `src`. -/
theorem Inv.move (h : H.Inv c) (dst src : ι) (hne : dst ≠ src) :
    ∃ H', H.move dst src = some H' ∧ H'.fresh = H.fresh ∧
      H'.Inv (Function.update (Function.update c dst (c dst ++ c src)) src []) ∧
      ∀ a, a ∉ c dst → H'.next a = H.next a := by
  obtain ⟨r, hr, hd, hs, hfr⟩ :=
    moveList_holds (h.holds dst) (h.holds src) (h.part.nodup_append hne)
  refine ⟨{ H with next := r.1, hdr := Function.update (Function.update H.hdr dst r.2.1) src r.2.2 },
    by rw [ListHeap.move, hr]; rfl, rfl, ⟨fun o => ?_, ?_⟩, hfr⟩
  · by_cases hos : o = src
    · subst hos
      simpa only [Function.update_same] using hs
    · by_cases hod : o = dst
      · subst hod
        simpa only [Function.update_same, Function.update_noteq hos] using hd
      · simp only [Function.update_noteq hos, Function.update_noteq hod]
        exact (h.holds o).congr fun a ha => hfr a (h.part.not_mem hod ha)
  · exact h.part.update₂ hne (by rw [List.append_nil])

/-- What `alloc` does to the free list: it returns its first node and holds the rest, or
returns the fresh node and leaves it empty. -/
theorem Inv.alloc (h : H.Inv c) (fl : ι) :
    (H.alloc fl).2 = (c fl).headD H.fresh ∧ (H.alloc fl).1.next = H.next ∧
      (H.alloc fl).1.fresh = (if c fl = [] then H.fresh + 1 else H.fresh) ∧
      ((H.alloc fl).1.hdr fl).Holds H.next (c fl).tail ∧
      ∀ o, o ≠ fl → (H.alloc fl).1.hdr o = H.hdr o := by
  cases hfl : c fl with
  | nil =>
    have he := hfl ▸ h.holds fl
    rw [ListHeap.alloc, popHead_none he]
    exact ⟨rfl, rfl, rfl, he, fun _ _ => rfl⟩
  | cons y ys =>
    obtain ⟨L, hp, hL⟩ := popHead_holds (hfl ▸ h.holds fl) (hfl ▸ h.part.nodup fl)
    rw [ListHeap.alloc, hp]
    exact ⟨rfl, rfl, rfl, by simpa using hL, fun o ho => Function.update_noteq ho _ _⟩

/-- **`allocHead`** takes the first node of `fl` (or a fresh one) to the head of `o`, writing
`next` at that node only. -/
theorem Inv.allocHead (h : H.Inv c) (fl o : ι) (hne : o ≠ fl) :
    (H.allocHead fl o).2 = (c fl).headD H.fresh ∧
      (H.allocHead fl o).1.fresh = (if c fl = [] then H.fresh + 1 else H.fresh) ∧
      (H.allocHead fl o).1.Inv (Function.update
        (Function.update c o ((c fl).headD H.fresh :: c o)) fl (c fl).tail) ∧
      ∀ a, a ≠ (c fl).headD H.fresh → (H.allocHead fl o).1.next a = H.next a := by
  obtain ⟨hx, hn, hf, hfl, ho⟩ := h.alloc fl
  obtain ⟨x, hxd⟩ : ∃ x, (c fl).headD H.fresh = x := ⟨_, rfl⟩
  rw [hxd] at hx ⊢
  have hxo : ∀ o', o' ≠ fl → x ∉ c o' := fun o' h' => hxd ▸ h.part.headD_not_mem h'
  have hxt : x ∉ (c fl).tail := hxd ▸ h.part.headD_not_mem_tail fl
  have hpush := pushHead_holds (L := (H.alloc fl).1.hdr o)
    (by rw [ho o hne]; exact h.holds o) (hxo o hne)
  simp only [ListHeap.allocHead, hx, hn, hf, true_and]
  refine ⟨⟨fun o' => ?_, hxd ▸ h.part.alloc hne (hxd ▸ List.Perm.refl _)⟩,
    fun a ha => Function.update_noteq ha _ _⟩
  dsimp only
  by_cases h1 : o' = o
  · subst h1
    simpa only [Function.update_same, Function.update_noteq hne] using hpush
  · by_cases h2 : o' = fl
    · subst h2
      simp only [Function.update_same, Function.update_noteq h1]
      exact hfl.congr fun a ha => Function.update_noteq (fun (he : a = x) => hxt (he ▸ ha)) _ _
    · simp only [Function.update_noteq h1, Function.update_noteq h2, ho o' h2]
      exact (h.holds o').congr fun a ha =>
        Function.update_noteq (fun (he : a = x) => hxo o' h2 (he ▸ ha)) _ _

/-- **`allocTail`** takes the first node of `fl` (or a fresh one) to the end of `o`, writing
`next` at that node and at the old last node of `o` only. -/
theorem Inv.allocTail (h : H.Inv c) (fl o : ι) (hne : o ≠ fl) :
    (H.allocTail fl o).2 = (c fl).headD H.fresh ∧
      (H.allocTail fl o).1.fresh = (if c fl = [] then H.fresh + 1 else H.fresh) ∧
      (H.allocTail fl o).1.Inv (Function.update
        (Function.update c o (c o ++ [(c fl).headD H.fresh])) fl (c fl).tail) ∧
      ∀ a, a ∉ c o → a ≠ (c fl).headD H.fresh → (H.allocTail fl o).1.next a = H.next a := by
  obtain ⟨hx, hn, hf, hfl, ho⟩ := h.alloc fl
  obtain ⟨x, hxd⟩ : ∃ x, (c fl).headD H.fresh = x := ⟨_, rfl⟩
  rw [hxd] at hx ⊢
  have hxo : ∀ o', o' ≠ fl → x ∉ c o' := fun o' h' => hxd ▸ h.part.headD_not_mem h'
  have hxt : x ∉ (c fl).tail := hxd ▸ h.part.headD_not_mem_tail fl
  obtain ⟨hpush, hfr⟩ := pushTail_holds (L := (H.alloc fl).1.hdr o)
    (by rw [ho o hne]; exact h.holds o) (hxo o hne) (h.part.nodup o)
  simp only [ListHeap.allocTail, hx, hn, hf, true_and]
  refine ⟨⟨fun o' => ?_, hxd ▸ h.part.alloc hne (hxd ▸ List.perm_append_singleton _ _)⟩,
    hfr⟩
  dsimp only
  by_cases h1 : o' = o
  · subst h1
    simpa only [Function.update_same, Function.update_noteq hne] using hpush
  · by_cases h2 : o' = fl
    · subst h2
      simp only [Function.update_same, Function.update_noteq h1]
      exact hfl.congr fun a ha => hfr a (h.part.not_mem h1 (List.mem_of_mem_tail ha))
        fun he => hxt (he ▸ ha)
    · simp only [Function.update_noteq h1, Function.update_noteq h2, ho o' h2]
      exact (h.holds o').congr fun a ha =>
        hfr a (h.part.not_mem h1 ha) fun he => hxo o' h2 (he ▸ ha)

end ListHeap

/-! ### The pool of maps -/

/-- The `struct hashMap`s: their `next` fields, the `struct hashMapList` headers, and `malloc`. -/
structure MapHeap (ι : Type) where
  next : NextHeap
  hdr : ι → MapList
  fresh : Nat

namespace MapHeap
variable {ι : Type} [DecidableEq ι]

/-- `moveone_hashmap(dst, src)`: the earliest map of `src`, if any, becomes the latest of
`dst`. -/
def moveone (H : MapHeap ι) (dst src : ι) : MapHeap ι :=
  match popEarliest H.next (H.hdr src) with
  | some (next, L, hm) =>
    let r := pushLatest next (H.hdr dst) hm
    { H with next := r.1, hdr := Function.update (Function.update H.hdr src L) dst r.2 }
  | none => H

/-- `moveall_hashmap(dst, src)`. -/
def moveall (H : MapHeap ι) (dst src : ι) : Option (MapHeap ι) :=
  (moveallHashmap H.next (H.hdr dst) (H.hdr src)).map fun r =>
    { H with next := r.1, hdr := Function.update (Function.update H.hdr dst r.2.1) src r.2.2 }

/-- The list part of `add_hashmap(list, freelist)`: the earliest map of `freelist`, or a
`malloc`ed one, zeroed (`next = NULL`) and pushed latest on `list`. -/
def add (H : MapHeap ι) (list freelist : ι) : MapHeap ι × Nat :=
  let (H, hm) : MapHeap ι × Nat :=
    match popEarliest H.next (H.hdr freelist) with
    | some (next, L, hm) => ({ H with next := next, hdr := Function.update H.hdr freelist L }, hm)
    | none => ({ H with fresh := H.fresh + 1 }, H.fresh)
  let r := pushLatest (Function.update H.next hm none) (H.hdr list) hm
  ({ H with next := r.1, hdr := Function.update H.hdr list r.2 }, hm)

/-- The pool holds the lists `c`: every header holds its list (and its `count` is its length),
and the lists share out the maps `malloc` returned. -/
structure Inv (H : MapHeap ι) (c : ι → List Nat) : Prop where
  holds : ∀ o, (H.hdr o).Holds H.next (c o)
  part : Partition c H.fresh

variable {H : MapHeap ι} {c : ι → List Nat}

/-- **`moveall`** appends the maps of `src` to those of `dst` and empties `src`. -/
theorem Inv.moveall (h : H.Inv c) (dst src : ι) (hne : dst ≠ src) (hf : H.fresh < 2 ^ 32) :
    ∃ H', H.moveall dst src = some H' ∧ H'.fresh = H.fresh ∧
      H'.Inv (Function.update (Function.update c dst (c dst ++ c src)) src []) := by
  obtain ⟨r, hr, hd, hs, hfr⟩ := moveallHashmap_holds (h.holds dst) (h.holds src)
    (h.part.nodup_append hne) (by have := h.part.length_append_le hne; simp at this; omega)
  refine ⟨{ H with next := r.1, hdr := Function.update (Function.update H.hdr dst r.2.1) src r.2.2 },
    by rw [MapHeap.moveall, hr]; rfl, rfl, fun o => ?_, ?_⟩
  · by_cases hos : o = src
    · subst hos
      simpa only [Function.update_same] using hs
    · by_cases hod : o = dst
      · subst hod
        simpa only [Function.update_same, Function.update_noteq hos] using hd
      · simp only [Function.update_noteq hos, Function.update_noteq hod]
        exact (h.holds o).congr fun a ha => hfr a (h.part.not_mem hod ha)
  · exact h.part.update₂ hne (by rw [List.append_nil])

/-- **`moveone`** from a nonempty `src` moves its earliest map to the end of `dst`. -/
theorem Inv.moveone (h : H.Inv c) (dst src : ι) (hne : dst ≠ src) (hf : H.fresh < 2 ^ 32)
    {x : Nat} {rest : List Nat} (hsrc : c src = x :: rest) :
    (H.moveone dst src).fresh = H.fresh ∧
      (H.moveone dst src).Inv (Function.update (Function.update c src rest) dst (c dst ++ [x])) := by
  have hnd := h.part.nodup_append hne
  rw [hsrc] at hnd
  have hxd : x ∉ c dst := fun hm => List.disjoint_of_nodup_append hnd hm (List.mem_cons_self x rest)
  obtain ⟨L, hp, hL⟩ := popEarliest_holds (hsrc ▸ h.holds src) (hsrc ▸ h.part.nodup src)
  have hdst : (H.hdr dst).Holds (clearNext H.next x) (c dst) :=
    (h.holds dst).congr fun a ha => clearNext_ne _ fun he => hxd (he ▸ ha)
  have hlen := h.part.length_append_le hne
  rw [hsrc] at hlen
  obtain ⟨hpush, hfr⟩ := pushLatest_holds hdst (List.nodup_append.1 hnd).1 hxd
    (clearNext_self _ _) (by simp at hlen; omega)
  simp only [MapHeap.moveone, hp]
  refine ⟨trivial, fun o => ?_, h.part.update₂ (Ne.symm hne) ?_⟩
  · dsimp only
    by_cases hod : o = dst
    · subst hod
      simpa only [Function.update_same] using hpush
    · by_cases hos : o = src
      · subst hos
        simp only [Function.update_same, Function.update_noteq hod]
        exact hL.congr fun a ha => hfr a fun hm =>
          List.disjoint_of_nodup_append hnd hm (List.mem_cons_of_mem x ha)
      · simp only [Function.update_noteq hod, Function.update_noteq hos]
        refine (h.holds o).congr fun a ha => ?_
        rw [hfr a (h.part.not_mem hod ha), clearNext_ne]
        exact fun (hax : a = x) =>
          h.part.not_mem (Ne.symm hos) (hsrc ▸ List.mem_cons_self x rest) (hax ▸ ha)
  · rw [hsrc, ← List.append_assoc]
    exact List.perm_append_singleton _ _

/-- **`add`** takes the earliest map of `freelist` (or a fresh one) to the end of `list`. -/
theorem Inv.add (h : H.Inv c) (list freelist : ι) (hne : list ≠ freelist)
    (hf : H.fresh + 1 < 2 ^ 32) :
    (H.add list freelist).2 = (c freelist).headD H.fresh ∧
      (H.add list freelist).1.fresh = (if c freelist = [] then H.fresh + 1 else H.fresh) ∧
      (H.add list freelist).1.Inv (Function.update
        (Function.update c list (c list ++ [(c freelist).headD H.fresh])) freelist
          (c freelist).tail) := by
  obtain ⟨x, hxd⟩ : ∃ x, (c freelist).headD H.fresh = x := ⟨_, rfl⟩
  have hxo : ∀ o, o ≠ freelist → x ∉ c o := fun o h' => hxd ▸ h.part.headD_not_mem h'
  have hxt : x ∉ (c freelist).tail := hxd ▸ h.part.headD_not_mem_tail freelist
  have hpart := h.part.alloc hne (List.perm_append_singleton ((c freelist).headD H.fresh) (c list))
  rw [hxd] at hpart ⊢
  -- the pool after the pop (or the `malloc`), before the push
  obtain ⟨H₁, hadd, hf₁, hl₁, hfl₁, ho₁⟩ : ∃ H₁ : MapHeap ι, H.add list freelist =
      (let r := pushLatest (Function.update H₁.next x none) (H₁.hdr list) x
       ({ H₁ with next := r.1, hdr := Function.update H₁.hdr list r.2 }, x)) ∧
      H₁.fresh = (if c freelist = [] then H.fresh + 1 else H.fresh) ∧
      (H₁.hdr list).Holds H₁.next (c list) ∧ (H₁.hdr freelist).Holds H₁.next (c freelist).tail ∧
      ∀ o, o ≠ freelist → o ≠ list → (H₁.hdr o).Holds H₁.next (c o) := by
    cases hfl : c freelist with
    | nil =>
      rw [hfl] at hxd
      subst hxd
      have he := hfl ▸ h.holds freelist
      refine ⟨{ H with fresh := H.fresh + 1 }, ?_, rfl, h.holds list, he, fun o _ _ => h.holds o⟩
      simp only [MapHeap.add, popEarliest_none he]
      rfl
    | cons y ys =>
      rw [hfl] at hxd
      subst hxd
      obtain ⟨L, hp, hL⟩ :=
        popEarliest_holds (hfl ▸ h.holds freelist) (hfl ▸ h.part.nodup freelist)
      have hy : ∀ o, o ≠ freelist → ∀ a ∈ c o, clearNext H.next y a = H.next a :=
        fun o ho a ha => clearNext_ne _ fun (he : a = y) =>
          h.part.not_mem ho (he ▸ ha) (hfl ▸ List.mem_cons_self y ys)
      refine ⟨{ H with next := clearNext H.next y, hdr := Function.update H.hdr freelist L }, ?_,
        rfl, ?_, by simpa using hL, fun o ho _ => ?_⟩
      · simp only [MapHeap.add, hp]
        rfl
      · simpa only [Function.update_noteq hne] using (h.holds list).congr (hy list hne)
      · simpa only [Function.update_noteq ho] using (h.holds o).congr (hy o ho)
  have hlen := h.part.length_le list
  obtain ⟨hpush, hfr⟩ := pushLatest_holds (hl₁.congr fun a ha =>
      Function.update_noteq (fun (he : a = x) => hxo list hne (he ▸ ha)) _ _) (h.part.nodup list)
    (hxo list hne) (Function.update_same _ _ _) (by omega)
  rw [hadd]
  refine ⟨rfl, hf₁, fun o => ?_, by dsimp only; rw [hf₁]; exact hpart⟩
  dsimp only
  have hfr' : ∀ a, a ∉ c list → a ≠ x →
      (pushLatest (Function.update H₁.next x none) (H₁.hdr list) x).1 a = H₁.next a :=
    fun a ha hax => (hfr a ha).trans (Function.update_noteq hax _ _)
  by_cases h1 : o = list
  · subst h1
    simpa only [Function.update_same, Function.update_noteq hne] using hpush
  · by_cases h2 : o = freelist
    · subst h2
      simp only [Function.update_same, Function.update_noteq h1]
      exact hfl₁.congr fun a ha =>
        hfr' a (h.part.not_mem h1 (List.mem_of_mem_tail ha)) fun he => hxt (he ▸ ha)
    · simp only [Function.update_noteq h1, Function.update_noteq h2]
      exact (ho₁ o h2 h1).congr fun a ha =>
        hfr' a (h.part.not_mem h1 ha) fun he => hxo o h2 (he ▸ ha)

end MapHeap

end Pd3Estimator
