import Pd3Estimator.HashTable
import Pd3Estimator.Handoff

/-!
# The list searches refine the chained table

The Reporter and the Handoff model `hashmap_force(hm, k, freelist)` on the items list of the
map: a reporter slot is the list of its items with their data (`hashmapForce`), and the handoff
searches the `items` list of a map from its head (`HandoffState.hashmapForce`). The code walks
the chain `hash_table[hash_key(k) % HASHTABLESIZE]` instead (`HashTableState.hashmapForce`).
On a map whose table keeps its invariant, which every run of calls does (`HashTableRun.inv`),
the two searches find the same item and the two models allocate the same one:

* `findKey_chain`: the handoff's search walks the items list to its first item with the key;
* `reporterItems`: a map of the table as the reporter sees it, its items newest first, each with
  the key it stands for and its `rep_data`; `updateFirst_reporterItems`: the reporter's update
  of the first item of a key is the update of that key's only item;
* `Inv.reporter_hashmapForce`, `HashTableRun.reporter_hashmapForce`: **the reporter's
  `hashmapForce` does to the reporter's view of a map what the chained `hashmap_force`, followed
  by the same update of the item's data, does**, at every call of every run;
* `Inv.handoff_hashmapForce`, `HashTableRun.handoff_hashmapForce`: **the handoff's
  `hashmap_force` returns the item the chained one returns and leaves the same pool**, at every
  call of every run where the keys of the map's items stand for the handoff's keys.
-/

namespace Pd3Estimator

open HashMapKeyStruct

/-- `findKey` walks a chain of at most `fuel` nodes to its first node with the key. -/
theorem findKey_chain {next : NextHeap} {key : Nat → HashMapKey} {k : HashMapKey} :
    ∀ {fuel : Nat} {p : Option Nat} {l : List Nat}, Chain next p l → l.length ≤ fuel →
      HandoffState.findKey next key k fuel p = l.find? fun x => key x = k
  | fuel, _, [], h, _ => by
    rw [chain_nil.1 h]
    cases fuel <;> rfl
  | 0, _, _ :: _, _, hl => absurd hl (by simp)
  | fuel + 1, _, x :: l, h, hl => by
    obtain ⟨rfl, hl'⟩ := chain_cons.1 h
    rw [HandoffState.findKey, List.find?_cons]
    by_cases hx : key x = k
    · simp [hx]
    · simp only [hx, if_false, decide_False]
      exact findKey_chain hl' (by simpa using hl)

namespace HashTableState

section Reporter
variable {ι : Type} {s s' : HashTableState ι} {l : List Nat} {d d' : Nat → ReporterData}

/-- A map of the table as the reporter sees it: the items of the list `l`, newest first, each
with the key it stands for and its `rep_data` from `d`. -/
def reporterItems (s : HashTableState ι) (l : List Nat) (d : Nat → ReporterData) : HashMapItems :=
  l.filterMap fun x => (s.key x).toKey.map (·, d x)

theorem reporterItems_congr (hk : ∀ y ∈ l, s'.key y = s.key y) (hd : ∀ y ∈ l, d' y = d y) :
    s'.reporterItems l d' = s.reporterItems l d :=
  List.filterMap_congr fun y hy => by rw [hk y hy, hd y hy]

theorem any_reporterItems (k : HashMapKey) :
    (s.reporterItems l d).any (·.1 = k) = true ↔ ∃ y ∈ l, (s.key y).toKey = some k := by
  simp only [reporterItems, List.any_filterMap, List.any_eq_true]
  refine exists_congr fun y => and_congr_right fun _ => ?_
  cases (s.key y).toKey <;> simp

theorem reporterItems_cons {y : Nat} {a : HashMapKey} (hy : (s.key y).toKey = some a) :
    s.reporterItems (y :: l) d = (a, d y) :: s.reporterItems l d := by
  simp [reporterItems, hy]

/-- `updateFirst` of a key that exactly one item of the list has updates that item's data. -/
theorem updateFirst_reporterItems {x : Nat} {k : HashMapKey} (g : ReporterData → ReporterData)
    (hl : l.Nodup) (hk : ∀ y ∈ l, (s.key y).toKey = some k ↔ y = x) :
    updateFirst k g (s.reporterItems l d) = s.reporterItems l (Function.update d x (g (d x))) := by
  induction l with
  | nil => rfl
  | cons y l ih =>
    obtain ⟨hyl, hl⟩ := List.nodup_cons.1 hl
    have ih' := ih hl fun z hz => hk z (List.mem_cons_of_mem y hz)
    by_cases hyx : y = x
    · -- the item of the key
      subst hyx
      have hy := (hk y (List.mem_cons_self _ _)).2 rfl
      have hrest : s.reporterItems l (Function.update d y (g (d y))) = s.reporterItems l d :=
        reporterItems_congr (fun _ _ => rfl)
          fun z hz => Function.update_noteq (ne_of_mem_of_not_mem hz hyl) _ _
      rw [reporterItems_cons hy, reporterItems_cons hy, updateFirst, if_pos rfl,
        Function.update_same, hrest]
    · cases ha : (s.key y).toKey with
      | none => simpa [reporterItems, ha] using ih'
      | some a =>
        have hak : a ≠ k := fun he => hyx ((hk y (List.mem_cons_self _ _)).1 (he ▸ ha))
        rw [reporterItems_cons ha, reporterItems_cons ha, updateFirst, if_neg hak, ih',
          Function.update_noteq hyx]

end Reporter

section Force
variable {ι : Type} [DecidableEq ι] {crc : HashMapKeyStruct → UInt64} {m : ι}
  {s : HashTableState ι} {c : ι → List Nat} {t : Fin 1024 → List Nat}
  {f : HashMapKey → Option Nat} {K : HashMapKeyStruct} {k : HashMapKey} {fl : ι}

/-- **The reporter's `hashmapForce` is the chained table's.** On a map whose table keeps its
invariant, `hashmap_force` of a valid key `K` standing for `k`, followed by the update `g` of the
`rep_data` of the item it returns, zeroed by the `memset` of `add_hashmapitem` when the item is
new, does to the reporter's view of the map what the reporter's `hashmapForce` does. -/
theorem Inv.reporter_hashmapForce (h : s.Inv crc m c t f) (hK : K.Valid crc)
    (hk : K.toKey = some k) (hfl : fl ≠ m) (d : Nat → ReporterData)
    (g : ReporterData → ReporterData) :
    ∃ s' hmi c' t', s.hashmapForce crc m K fl = some (s', hmi, K.hashed crc) ∧
      s'.Inv crc m c' t' (Function.update f k (some hmi)) ∧
      Pd3Estimator.hashmapForce (s.reporterItems (c m) d) k g =
        s'.reporterItems (c' m) (Function.update d hmi (g (if (f k).isSome then d hmi else {}))) := by
  cases hfa : f k with
  | some x =>
    -- the key has its item, the only one of the map with that key
    refine ⟨s, x, c, t, h.force_some hK hk fl hfa, by rwa [← hfa, Function.update_eq_self], ?_⟩
    have hx : ∀ y ∈ c m, (s.key y).toKey = some k ↔ y = x := fun y hy => by
      have e := h.abs k y
      rw [hfa, Option.some.injEq, and_iff_right hy] at e
      exact ⟨fun hy' => (e.2 hy').symm, fun hy' => e.1 hy'.symm⟩
    rw [Pd3Estimator.hashmapForce, if_pos ((any_reporterItems k).2 ⟨x, ((h.abs k x).1 hfa).1,
      ((h.abs k x).1 hfa).2⟩), Option.isSome_some, if_pos rfl]
    exact updateFirst_reporterItems g (h.pool.part.nodup m) hx
  | none =>
    -- a new item, zeroed, at the head of the map's list
    obtain ⟨c', t', hf, hc', hxm, h'⟩ := h.force_none hK hk hfl hfa
    refine ⟨_, _, c', t', hf, h', ?_⟩
    have hno : ¬∃ y ∈ c m, (s.key y).toKey = some k := fun ⟨y, hy, hyk⟩ => by
      simpa [hfa] using (h.abs k y).2 ⟨hy, hyk⟩
    rw [Pd3Estimator.hashmapForce, if_neg (mt (any_reporterItems k).1 hno), hc', Option.isSome_none,
      if_neg Bool.false_ne_true, reporterItems_cons (a := k) (by simp [toKey_hashed, hk]),
      Function.update_same]
    congr 1
    exact (reporterItems_congr (fun y hy => Function.update_noteq (ne_of_mem_of_not_mem hy hxm) _ _)
      fun y hy => Function.update_noteq (ne_of_mem_of_not_mem hy hxm) _ _).symm

end Force

variable {crc : HashMapKeyStruct → UInt64} {m fl : ItemOwner} {s : HashTableState ItemOwner}
  {c : ItemOwner → List Nat} {t : Fin 1024 → List Nat} {f : HashMapKey → Option Nat}
  {K : HashMapKeyStruct} {k : HashMapKey}

/-- **The handoff's `hashmap_force` is the chained table's.** Let the table `s` of the map whose
items are the list `m` keep its invariant and share the handoff's pool of items, and let the key
of each item of the map stand for the handoff's key of it. Then `hashmap_force` of a valid key
`K` standing for `k` returns the item that the handoff's search of the list returns; the two
leave the same pool, and the keys of the map's items still stand for the handoff's. -/
theorem Inv.handoff_hashmapForce (h : s.Inv crc m c t f) {hs : HandoffState}
    (hitems : s.items = hs.items) (hkey : ∀ x ∈ c m, (s.key x).toKey = some (hs.key x))
    (hK : K.Valid crc) (hk : K.toKey = some k) (hfl : fl ≠ m) :
    ∃ s' c' t', s.hashmapForce crc m K fl = some (s', (hs.hashmapForce m k fl).2, K.hashed crc) ∧
      s'.Inv crc m c' t' (Function.update f k (some (hs.hashmapForce m k fl).2)) ∧
      s'.items = (hs.hashmapForce m k fl).1.items ∧
      ∀ x ∈ c' m, (s'.key x).toKey = some ((hs.hashmapForce m k fl).1.key x) := by
  obtain ⟨items, key, hashnext, table⟩ := s
  dsimp only at hitems
  subst hitems
  -- the search of the map's list finds the item of the key
  have hc : Chain hs.items.next (hs.items.hdr m).head (c m) := (h.pool.holds m).chain
  have hlen : (c m).length ≤ hs.items.fresh :=
    length_le_of_lt (h.pool.part.nodup m) fun _ hy => h.pool.part.lt hy
  have hfind : HandoffState.findKey hs.items.next hs.key k hs.items.fresh (hs.items.hdr m).head =
      f k := by
    rw [findKey_chain hc hlen]
    refine find?_eq_of_iff (fun y hy => ?_) fun x hx => ((h.abs k x).1 hx).1
    rw [h.abs, hkey y hy]
    simp [hy]
  unfold HandoffState.hashmapForce
  rw [hfind]
  cases hfa : f k with
  | some x =>
    exact ⟨_, c, t, h.force_some hK hk fl hfa, by rwa [← hfa, Function.update_eq_self], rfl, hkey⟩
  | none =>
    obtain ⟨c', t', hf, hc', hxm, h'⟩ := h.force_none hK hk hfl hfa
    refine ⟨_, c', t', hf, h', rfl, fun x hx => ?_⟩
    show (Function.update key (hs.items.allocHead fl m).2 (K.hashed crc) x).toKey =
      some (Function.update hs.key (hs.items.allocHead fl m).2 k x)
    rcases List.mem_cons.1 (hc' ▸ hx) with rfl | hx
    · rw [Function.update_same, Function.update_same, toKey_hashed, hk]
    · have hne : x ≠ (hs.items.allocHead fl m).2 := ne_of_mem_of_not_mem hx hxm
      rw [Function.update_noteq hne, Function.update_noteq hne]
      exact hkey x hx

end HashTableState

/-! ### Over every run -/

section Runs
variable {ι : Type} [DecidableEq ι] {crc : HashMapKeyStruct → UInt64} {m : ι}
  {s₀ s : HashTableState ι} {calls : List (HashTableCall ι)} {c₀ : ι → List Nat}

open HashTableState

/-- **The reporter's slots rest on the chained table**: in every state a run of calls reaches
from a zeroed map, forcing a valid key with the code's chained `hashmap_force` and updating its
item's data does to the reporter's view of the map's items list what the reporter's
`hashmapForce` does; the item is new exactly when no `hashmap_force` of the key returned one since
the last `zeroout_hashmap`. -/
theorem HashTableRun.reporter_hashmapForce (h₀ : s₀.items.Inv c₀) (hm : c₀ m = [])
    (ht : s₀.hashTable = fun _ => none) (hrun : HashTableRun crc m s₀ calls s) :
    ∃ l, (s.items.hdr m).Holds s.items.next l ∧
      ∀ (K : HashMapKeyStruct) (k : HashMapKey) (fl : ι), K.Valid crc → K.toKey = some k →
        fl ≠ m → ∀ (d : Nat → ReporterData) (g : ReporterData → ReporterData),
          ∃ s' hmi l', s.hashmapForce crc m K fl = some (s', hmi, K.hashed crc) ∧
            (s'.items.hdr m).Holds s'.items.next l' ∧
            hashmapForce (s.reporterItems l d) k g = s'.reporterItems l'
              (Function.update d hmi
                (g (if (forcedItems calls k).isSome then d hmi else {}))) := by
  obtain ⟨-, c, t, h⟩ := hrun.inv (inv_zeroed h₀ hm ht)
  refine ⟨c m, h.pool.holds m, fun K k fl hK hk hfl d g => ?_⟩
  obtain ⟨s', hmi, c', t', hf, h', he⟩ := h.reporter_hashmapForce hK hk hfl d g
  exact ⟨s', hmi, c' m, hf, h'.pool.holds m, he⟩

end Runs

/-- **The handoff's maps rest on the chained table**: in every state a run of calls on a map of
the handoff's pool reaches from a zeroed map, where the key of each item on the map's list
stands for the handoff's key of it, the chained `hashmap_force` of a valid key returns the item
the handoff's `hashmap_force` returns, and the two leave the same pool. -/
theorem HashTableRun.handoff_hashmapForce {crc : HashMapKeyStruct → UInt64} {m : ItemOwner}
    {s₀ s : HashTableState ItemOwner} {calls : List (HashTableCall ItemOwner)}
    {c₀ : ItemOwner → List Nat} (h₀ : s₀.items.Inv c₀) (hm : c₀ m = [])
    (ht : s₀.hashTable = fun _ => none) (hrun : HashTableRun crc m s₀ calls s) :
    ∃ l, (s.items.hdr m).Holds s.items.next l ∧
      ∀ (hs : HandoffState) (K : HashMapKeyStruct) (k : HashMapKey) (fl : ItemOwner),
        s.items = hs.items → (∀ x ∈ l, (s.key x).toKey = some (hs.key x)) → K.Valid crc →
        K.toKey = some k → fl ≠ m →
        ∃ s', s.hashmapForce crc m K fl = some (s', (hs.hashmapForce m k fl).2, K.hashed crc) ∧
          s'.items = (hs.hashmapForce m k fl).1.items := by
  obtain ⟨-, c, t, h⟩ := hrun.inv (HashTableState.inv_zeroed h₀ hm ht)
  refine ⟨c m, h.pool.holds m, fun hs K k fl hitems hkey hK hk hfl => ?_⟩
  obtain ⟨s', -, -, hf, -, he, -⟩ := h.handoff_hashmapForce hitems hkey hK hk hfl
  exact ⟨s', hf, he⟩

end Pd3Estimator
