import Pd3Estimator.Storage
import Pd3Estimator.Reporter

/-!
# The hash table of a `struct hashMap`

A `struct hashMap` keeps its items twice: on the list `items`, linked by `next`, and on the
chains of `hash_table[HASHTABLESIZE]`, linked by `hashnext`. `hashmap_force(hm, k, freelist)`
walks the chain `hash_table[hash_key(k) % HASHTABLESIZE]` for an item whose key is `equal_key`
to `k`, and when there is none takes an item with `add_hashmapitem(&hm->items, freelist)`,
copies `k` into it and puts it first on the chain; `hashmap_retrieve` walks the same chain;
`zeroout_hashmap` empties every chain and moves the items to a free list.

Keys are compared with `memcmp`, so the cache of `hash_key` (`has_hash`, `hash`) is part of the
comparison: a key is found only in the form `hash_key` leaves it. The model keeps the key as it
lies in memory (`HashMapKeyStruct`), and `crc_generate`, whose table is not in the source, as a
parameter `crc`: every result holds for every hash function.

* `hashKey`, `hashlistContains`, `HashTableState.hashmapForce`, `hashmapRetrieve`,
  `zerooutHashmap`: the code; `Recycle`: what the rest of the estimator does to the pool of
  items between two calls; `HashTableRun`: the runs of calls on one map;
* `HashMapKeyStruct.Valid`: the keys callers pass, built by `set_streamtuple` or
  `set_flowtuple`, or copied from stored items; `hashKey_valid`: `hash_key` brings all of them
  to one form, which depends on the key's type and tuple only;
* `HashTableState.Inv`: the chains hold exactly the items of the map, each on the chain of its
  hash, and the map refines an abstract map `f` from keys to items; `Inv.force`,
  `Inv.retrieve`, `Inv.zeroout`, `Inv.recycle`: every call, and every recycling step, keeps it;
* `forcedItems`: the abstract map after a history of calls, the item the last `hashmap_force`
  of each key returned since the last `zeroout_hashmap`; `hashTableRun_correct`: **in every run
  from a zeroed map, the map holds one item per key, every item is on its chain, each call
  answers as the abstract map says, and a stream key and its flow key never share an item**.
-/

namespace Pd3Estimator

/-! ### Keys -/

/-- `enum hashMapKeyType`. -/
inductive HashMapKeyType
  | unknown
  | streamtuple
  | flowtuple
  deriving DecidableEq, Repr

/-- `struct hashMapKey` as it lies in memory: `keytype` (4 bytes), the `stream_tuple` of the
union (`flow_key[2]` and `stream_id`, 3 bytes), `has_hash` (1 byte) and `hash` (an
`unsigned long`, 8 bytes). The 16 bytes have no padding, so `memcmp` over the struct compares
exactly these fields. -/
structure HashMapKeyStruct where
  keytype : HashMapKeyType := .unknown
  stream : StreamTuple := ⟨(0, 0), 0⟩
  hasHash : UInt8 := 0
  hash : UInt64 := 0
  deriving DecidableEq, Repr

namespace HashMapKeyStruct

/-- `set_streamtuple(hmk, stream)`: the key `memset` to zero, then its type and tuple. -/
def setStreamtuple (stream : StreamTuple) : HashMapKeyStruct :=
  { keytype := .streamtuple, stream := stream }

/-- `set_flowtuple(hmk, stream)`: as `set_streamtuple`, with every stream ID mapped to 0. -/
def setFlowtuple (stream : StreamTuple) : HashMapKeyStruct :=
  { keytype := .flowtuple, stream := { stream with streamId := 0 } }

/-- The key a `struct hashMapKey` stands for, in the reporter's terms; `none` for
`HMK_UNKNOWN`. -/
def toKey (k : HashMapKeyStruct) : Option HashMapKey :=
  match k.keytype with
  | .unknown => none
  | .streamtuple => some (.stream k.stream)
  | .flowtuple => some (.flow k.stream)

/-- The key as `hash_key` leaves it: the cache filled with `crc` of the key with `has_hash` set
and `hash` zero. -/
def hashed (crc : HashMapKeyStruct → UInt64) (k : HashMapKeyStruct) : HashMapKeyStruct :=
  { k with hasHash := 1, hash := crc { k with hasHash := 1, hash := 0 } }

/-- A key as callers pass it: a stream or flow key whose cache is empty, as `set_streamtuple`
and `set_flowtuple` build it, or filled by `hash_key`, as in a copy of a stored key. -/
def Valid (crc : HashMapKeyStruct → UInt64) (k : HashMapKeyStruct) : Prop :=
  k.keytype ≠ .unknown ∧ (k.hasHash = 0 ∧ k.hash = 0 ∨ k = k.hashed crc)

variable {crc : HashMapKeyStruct → UInt64}

theorem valid_setStreamtuple (stream : StreamTuple) : (setStreamtuple stream).Valid crc :=
  ⟨nofun, .inl ⟨rfl, rfl⟩⟩

theorem valid_setFlowtuple (stream : StreamTuple) : (setFlowtuple stream).Valid crc :=
  ⟨nofun, .inl ⟨rfl, rfl⟩⟩

theorem toKey_hashed (k : HashMapKeyStruct) : (k.hashed crc).toKey = k.toKey := rfl

theorem hashed_hashed (k : HashMapKeyStruct) : (k.hashed crc).hashed crc = k.hashed crc := rfl

theorem exists_toKey {k : HashMapKeyStruct} (h : k.keytype ≠ .unknown) : ∃ a, k.toKey = some a := by
  obtain ⟨t, s, _, _⟩ := k
  cases t <;> simp_all [toKey]

/-- The form `hash_key` leaves depends on the key's type and tuple only: two keys, one of them
a stream or flow key, have the same form exactly when they stand for the same key. -/
theorem hashed_eq_iff {k₁ k₂ : HashMapKeyStruct} (h : k₁.keytype ≠ .unknown) :
    k₁.hashed crc = k₂.hashed crc ↔ k₁.toKey = k₂.toKey := by
  refine ⟨fun he => by rw [← toKey_hashed, he, toKey_hashed], fun he => ?_⟩
  obtain ⟨t₁, s₁, _, _⟩ := k₁
  obtain ⟨t₂, s₂, _, _⟩ := k₂
  cases t₁ <;> cases t₂ <;> simp_all [toKey, hashed]

end HashMapKeyStruct

open HashMapKeyStruct

/-- `equal_key(k1, k2)`: `memcmp` of the two keys. -/
def equalKey (k₁ k₂ : HashMapKeyStruct) : Bool := k₁ == k₂

/-- `hash_key(hmk)`: on first use, set `has_hash` and cache `crc_generate` of the key's bytes
(taken with `has_hash` already set); return the cached hash. Also returns the key as the call
leaves it. -/
def hashKey (crc : HashMapKeyStruct → UInt64) (hmk : HashMapKeyStruct) :
    HashMapKeyStruct × UInt64 :=
  if hmk.hasHash = 0 then
    let hmk := { hmk with hasHash := 1 }
    let hmk := { hmk with hash := crc hmk }
    (hmk, hmk.hash)
  else (hmk, hmk.hash)

/-- **`hash_key` brings every key callers pass to one form**, the key's `hashed` form. -/
theorem hashKey_valid {crc : HashMapKeyStruct → UInt64} {k : HashMapKeyStruct} (hk : k.Valid crc) :
    hashKey crc k = (k.hashed crc, (k.hashed crc).hash) := by
  rcases hk.2 with ⟨h0, hh⟩ | hk
  · obtain ⟨t, s, _, _⟩ := k
    simp only at h0 hh
    subst h0 hh
    rfl
  · have h1 : k.hasHash = 1 := by rw [hk]; rfl
    calc hashKey crc k = (k, k.hash) := by rw [hashKey, if_neg (by rw [h1]; decide)]
      _ = (k.hashed crc, (k.hashed crc).hash) := by rw [← hk]

/-- `hash % HASHTABLESIZE`, with `HASHTABLESIZE` 1024: the chain a hash selects. -/
def bucketOf (hash : UInt64) : Fin 1024 := ⟨hash.toNat % 1024, Nat.mod_lt _ (by decide)⟩

/-! ### One map and its pool of items -/

/-- One `struct hashMap`, `hm`, and the pool of items it takes them from: the items' `next`,
`key` and `hashnext` fields, the item list headers (`hm->items` is one of them), and
`hm->hash_table`. -/
structure HashTableState (ι : Type) where
  items : ListHeap ι
  key : Nat → HashMapKeyStruct
  hashnext : NextHeap
  hashTable : Fin 1024 → Option Nat

/-- `for (; hmi; hmi = hmi->hashnext) if (equal_key(&hmi->key, k)) return hmi;` from `hmi = p`,
over at most `fuel` items: the loop of `hashlist_contains`, `hashmap_force` and
`hashmap_retrieve`. `some r` when the loop ends, `r` the item found or `none` for `NULL`;
`none` when it runs past `fuel` items. -/
def hashlistContains (hashnext : NextHeap) (key : Nat → HashMapKeyStruct) (k : HashMapKeyStruct) :
    Nat → Option Nat → Option (Option Nat)
  | _, none => some none
  | 0, some _ => none
  | fuel + 1, some x =>
    if equalKey (key x) k then some (some x) else hashlistContains hashnext key k fuel (hashnext x)

/-- **The loop over a chain** ends within `fuel` items when the chain has at most that many,
and finds the first item of the chain with key `k`. -/
theorem hashlistContains_chain {hashnext : NextHeap} {key : Nat → HashMapKeyStruct}
    {k : HashMapKeyStruct} : ∀ {fuel : Nat} {p : Option Nat} {l : List Nat},
    Chain hashnext p l → l.length ≤ fuel →
      hashlistContains hashnext key k fuel p = some (l.find? fun x => equalKey (key x) k)
  | fuel, _, [], h, _ => by
    rw [chain_nil.1 h]
    cases fuel <;> rfl
  | 0, _, _ :: _, _, hl => absurd hl (by simp)
  | fuel + 1, _, x :: l, h, hl => by
    obtain ⟨rfl, hl'⟩ := chain_cons.1 h
    rw [hashlistContains, List.find?_cons]
    cases he : equalKey (key x) k
    · rw [if_neg (by simp)]
      exact hashlistContains_chain hl' (by simpa using hl)
    · rw [if_pos rfl]

/-- `find?` of a predicate that holds on the list exactly at the item `o` names. -/
theorem find?_eq_of_iff {l : List Nat} {p : Nat → Bool} {o : Option Nat}
    (h : ∀ y ∈ l, p y = true ↔ o = some y) (ho : ∀ x ∈ o, x ∈ l) : l.find? p = o := by
  cases o with
  | none => exact List.find?_eq_none.2 fun y hy hp => by simpa using (h y hy).1 hp
  | some x =>
    obtain ⟨y, hy⟩ := Option.isSome_iff_exists.1
      (List.find?_isSome.2 ⟨x, ho x rfl, (h x (ho x rfl)).2 rfl⟩)
    rw [hy, (h y (List.mem_of_find?_eq_some hy)).1 (List.find?_some hy)]

/-- The chains after `x` is put first on the chain `B`. -/
theorem mem_update_cons {t : Fin 1024 → List Nat} {B b : Fin 1024} {x y : Nat} :
    y ∈ Function.update t B (x :: t B) b ↔ y = x ∧ B = b ∨ y ∈ t b := by
  by_cases hb : B = b
  · subst hb
    simp
  · simp [Function.update_noteq (Ne.symm hb), hb]

namespace HashTableState
variable {ι : Type}

section Code
variable [DecidableEq ι]

/-- `hashmap_force(hm, k, freelist)`, `hm->items` being the list `m`: the item with key `k` on
the chain of `hash_key(k)`, or an item from `add_hashmapitem(&hm->items, freelist)` with a copy
of `k`, put first on that chain. Returns the state, the item and the caller's key as
`hash_key` left it; `none` where the loop does not end within the items `malloc` returned. -/
def hashmapForce (crc : HashMapKeyStruct → UInt64) (s : HashTableState ι) (m : ι)
    (k : HashMapKeyStruct) (freelist : ι) : Option (HashTableState ι × Nat × HashMapKeyStruct) :=
  let (k, h) := hashKey crc k
  let hash := bucketOf h
  (hashlistContains s.hashnext s.key k s.items.fresh (s.hashTable hash)).map fun
    | some hmi => (s, hmi, k)
    | none =>
      let r := s.items.allocHead freelist m
      let hmi := r.2
      ({ items := r.1
         key := Function.update s.key hmi k
         hashnext := Function.update s.hashnext hmi (s.hashTable hash)
         hashTable := Function.update s.hashTable hash (some hmi) }, hmi, k)

/-- `zeroout_hashmap(hm, freelist)`: every chain emptied, and the items of `m` moved to
`freelist`. -/
def zerooutHashmap (s : HashTableState ι) (m freelist : ι) : Option (HashTableState ι) :=
  (s.items.move freelist m).map fun items => { s with items, hashTable := fun _ => none }

/-- What the rest of the estimator does to the pool between two calls on `hm`, whose items are
the list `m`: `move_hmilist` between two other lists (the exchanges of free lists,
`zeroout_hashmap` of another map, the recycling of a processed map's items), and
`hashmap_force` on another map, which takes an item from a free list to that map's items and
writes its key and `hashnext`. -/
inductive Recycle (m : ι) : HashTableState ι → HashTableState ι → Prop
  | move {s : HashTableState ι} {dst src : ι} {items : ListHeap ι} : dst ≠ m → src ≠ m →
      dst ≠ src → s.items.move dst src = some items → Recycle m s { s with items }
  | force {s : HashTableState ι} {fl o : ι} (k : HashMapKeyStruct) (p : Option Nat) : fl ≠ m →
      o ≠ m → o ≠ fl → Recycle m s
        { s with
          items := (s.items.allocHead fl o).1
          key := Function.update s.key (s.items.allocHead fl o).2 k
          hashnext := Function.update s.hashnext (s.items.allocHead fl o).2 p }

end Code

/-- `hashmap_retrieve(hm, k)`: the item with key `k` on the chain of `hash_key(k)`, or `NULL`;
with the caller's key as `hash_key` left it. -/
def hashmapRetrieve (crc : HashMapKeyStruct → UInt64) (s : HashTableState ι)
    (k : HashMapKeyStruct) : Option (HashMapKeyStruct × Option Nat) :=
  let (k, h) := hashKey crc k
  (hashlistContains s.hashnext s.key k s.items.fresh (s.hashTable (bucketOf h))).map (k, ·)

/-! ### The invariant -/

/-- The invariant of `hm`, whose items are the list `m`, with the lists `c` of the pool, the
chains `t` of the table and the abstract map `f`: the pool holds its lists; chain `b` is
`t b`, and holds exactly the items of the map whose hash selects `b`; each item keeps a stream
or flow key in the form `hash_key` leaves; and `f` maps a key to the item with that key. -/
structure Inv (crc : HashMapKeyStruct → UInt64) (m : ι) (s : HashTableState ι)
    (c : ι → List Nat) (t : Fin 1024 → List Nat) (f : HashMapKey → Option Nat) : Prop where
  pool : s.items.Inv c
  chain : ∀ b, Chain s.hashnext (s.hashTable b) (t b)
  nodup : ∀ b, (t b).Nodup
  onChain : ∀ b x, x ∈ t b ↔ x ∈ c m ∧ bucketOf (s.key x).hash = b
  stored : ∀ x ∈ c m, (s.key x).keytype ≠ .unknown ∧ s.key x = (s.key x).hashed crc
  abs : ∀ a x, f a = some x ↔ x ∈ c m ∧ (s.key x).toKey = some a

section Inv
variable {crc : HashMapKeyStruct → UInt64} {m : ι} {s : HashTableState ι} {c : ι → List Nat}
  {t : Fin 1024 → List Nat} {f : HashMapKey → Option Nat}

/-- The map of a zeroed `struct hashMap`, as `add_hashmap` and `zeroout_hashmap` leave it,
whose items list is empty, is the empty map. -/
theorem inv_zeroed (h : s.items.Inv c) (hm : c m = []) (ht : s.hashTable = fun _ => none) :
    s.Inv crc m c (fun _ => []) (fun _ => none) where
  pool := h
  chain := fun b => by rw [ht]; rfl
  nodup := fun _ => List.nodup_nil
  onChain := fun b x => by simp [hm]
  stored := fun x hx => absurd hx (hm ▸ List.not_mem_nil x)
  abs := fun a x => by simp [hm]

/-- An item of the map is the item `f` has for its key. -/
theorem Inv.abs_key (h : s.Inv crc m c t f) {x : Nat} (hx : x ∈ c m) :
    ∃ a, (s.key x).toKey = some a ∧ f a = some x := by
  obtain ⟨a, ha⟩ := exists_toKey (h.stored x hx).1
  exact ⟨a, ha, (h.abs a x).2 ⟨hx, ha⟩⟩

/-- **The chain of a key** holds the item `f` has for it, and no other item with its key. -/
theorem Inv.find (h : s.Inv crc m c t f) {k : HashMapKeyStruct} {a : HashMapKey}
    (ha : k.toKey = some a) :
    hashlistContains s.hashnext s.key (k.hashed crc) s.items.fresh
      (s.hashTable (bucketOf (k.hashed crc).hash)) = some (f a) := by
  set b := bucketOf (k.hashed crc).hash
  have hlen : (t b).length ≤ s.items.fresh :=
    length_le_of_lt (h.nodup b) fun x hx => h.pool.part.lt ((h.onChain b x).1 hx).1
  rw [hashlistContains_chain (h.chain b) hlen]
  congr 1
  refine find?_eq_of_iff (fun y hy => ?_) fun x hx => ?_
  · obtain ⟨hym, -⟩ := (h.onChain b y).1 hy
    obtain ⟨hu, hy⟩ := h.stored y hym
    rw [equalKey, beq_iff_eq, hy, hashed_eq_iff hu, ha, h.abs]
    exact ⟨fun he => ⟨hym, he⟩, fun he => he.2⟩
  · obtain ⟨hxm, hxa⟩ := (h.abs a x).1 hx
    obtain ⟨hu, hkx⟩ := h.stored x hxm
    refine (h.onChain b x).2 ⟨hxm, ?_⟩
    rw [hkx, (hashed_eq_iff hu).2 (hxa.trans ha.symm)]

/-- **`hashmap_retrieve`** returns the item `f` has for the key, or `NULL`. -/
theorem Inv.retrieve (h : s.Inv crc m c t f) {k : HashMapKeyStruct} {a : HashMapKey}
    (hk : k.Valid crc) (ha : k.toKey = some a) :
    s.hashmapRetrieve crc k = some (k.hashed crc, f a) := by
  rw [hashmapRetrieve, hashKey_valid hk]
  dsimp only
  rw [h.find ha]
  rfl

/-- The map holds at most one item per key. -/
theorem Inv.key_inj (h : s.Inv crc m c t f) {x y : Nat} (hx : x ∈ c m) (hy : y ∈ c m)
    (he : (s.key x).toKey = (s.key y).toKey) : x = y := by
  obtain ⟨a, ha, hfx⟩ := h.abs_key hx
  have hfy : f a = some y := (h.abs a y).2 ⟨hy, he ▸ ha⟩
  exact Option.some.inj (hfx.symm.trans hfy)

/-- Every item of the map is on the chain of the bucket `hash_key` gives for its key. -/
theorem Inv.mem_chain (h : s.Inv crc m c t f) {x : Nat} (hx : x ∈ c m) :
    ∃ l, Chain s.hashnext (s.hashTable (bucketOf (hashKey crc (s.key x)).2)) l ∧ x ∈ l := by
  obtain ⟨hu, hkx⟩ := h.stored x hx
  have hb : (hashKey crc (s.key x)).2 = (s.key x).hash := by
    rw [hashKey_valid ⟨hu, .inr hkx⟩, ← hkx]
  exact ⟨_, hb ▸ h.chain _, (h.onChain _ x).2 ⟨hx, rfl⟩⟩

/-- The stream key and the flow key of one tuple never find the same item. -/
theorem Inv.retrieve_stream_ne_flow (h : s.Inv crc m c t f) {st : StreamTuple}
    {k₁ k₂ : HashMapKeyStruct} {x y : Nat}
    (hs : s.hashmapRetrieve crc (setStreamtuple st) = some (k₁, some x))
    (hf : s.hashmapRetrieve crc (HashMapKeyStruct.setFlowtuple st) = some (k₂, some y)) : x ≠ y := by
  rw [h.retrieve (valid_setStreamtuple st) rfl, Option.some.injEq, Prod.mk.injEq] at hs
  rw [h.retrieve (valid_setFlowtuple st) rfl, Option.some.injEq, Prod.mk.injEq] at hf
  rintro rfl
  have hxs := ((h.abs _ x).1 hs.2).2
  rw [((h.abs _ x).1 hf.2).2, Option.some.injEq] at hxs
  exact HashMapKey.noConfusion hxs

/-- **A frame rule**: a step that leaves the table, the map's list, and the key and `hashnext`
of every item of the map as they were keeps the invariant. -/
theorem Inv.frame (h : s.Inv crc m c t f) {s' : HashTableState ι} {c' : ι → List Nat}
    (hpool : s'.items.Inv c') (hm : c' m = c m) (ht : s'.hashTable = s.hashTable)
    (hx : ∀ x ∈ c m, s'.key x = s.key x ∧ s'.hashnext x = s.hashnext x) :
    s'.Inv crc m c' t f where
  pool := hpool
  chain := fun b => by
    rw [ht]
    exact (h.chain b).congr fun x hx' => (hx x ((h.onChain b x).1 hx').1).2
  nodup := h.nodup
  onChain := fun b x => by
    rw [hm, h.onChain]
    exact and_congr_right fun hxm => by rw [(hx x hxm).1]
  stored := fun x hxm => by
    rw [hm] at hxm
    rw [(hx x hxm).1]
    exact h.stored x hxm
  abs := fun a x => by
    rw [hm, h.abs]
    exact and_congr_right fun hxm => by rw [(hx x hxm).1]

/-- **Adding an item** `x` that is not in the map, with the key `K` in the form `hash_key`
leaves, first on the chain of its hash, the pool's lists being now `c'`, where the map's list
has gained `x`: the map gains `x` for the key of `K`. -/
theorem Inv.insert (h : s.Inv crc m c t f) {items : ListHeap ι} {c' : ι → List Nat} {x : Nat}
    (hpool : items.Inv c') (hc : c' m = x :: c m) (hx : x ∉ c m) {K : HashMapKeyStruct}
    (hK : K.keytype ≠ .unknown ∧ K = K.hashed crc) {a : HashMapKey} (ha : K.toKey = some a)
    (hfa : f a = none) :
    Inv crc m
      { items
        key := Function.update s.key x K
        hashnext := Function.update s.hashnext x (s.hashTable (bucketOf K.hash))
        hashTable := Function.update s.hashTable (bucketOf K.hash) (some x) }
      c' (Function.update t (bucketOf K.hash) (x :: t (bucketOf K.hash)))
      (Function.update f a (some x)) where
  pool := hpool
  chain := fun b => by
    dsimp only
    have hxt : x ∉ t b := fun hm => hx ((h.onChain b x).1 hm).1
    by_cases hb : b = bucketOf K.hash
    · subst hb
      simp only [Function.update_same]
      exact chain_cons.2 ⟨rfl, by rw [Function.update_same]; exact (h.chain _).update_of_not_mem hxt⟩
    · simp only [Function.update_noteq hb]
      exact (h.chain b).update_of_not_mem hxt
  nodup := fun b => by
    by_cases hb : b = bucketOf K.hash
    · subst hb
      rw [Function.update_same]
      exact List.nodup_cons.2 ⟨fun hm => hx ((h.onChain _ x).1 hm).1, h.nodup _⟩
    · rw [Function.update_noteq hb]
      exact h.nodup b
  onChain := fun b y => by
    dsimp only
    rw [hc, mem_update_cons, h.onChain, List.mem_cons]
    by_cases hy : y = x
    · subst hy
      simp [hx]
    · simp [hy, Function.update_noteq hy]
  stored := fun y hy => by
    dsimp only
    rw [hc] at hy
    by_cases hyx : y = x
    · subst hyx
      rw [Function.update_same]
      exact hK
    · rw [Function.update_noteq hyx]
      exact h.stored y ((List.mem_cons.1 hy).resolve_left hyx)
  abs := fun a' y => by
    dsimp only
    rw [hc, List.mem_cons]
    by_cases hyx : y = x
    · subst hyx
      have hf : f a' ≠ some y := fun he => hx ((h.abs a' y).1 he).1
      by_cases ha' : a' = a
      · subst ha'
        simp [ha]
      · simp [Function.update_noteq ha', hf, ha, Ne.symm ha']
    · rw [Function.update_noteq hyx, or_iff_right hyx, ← h.abs]
      by_cases ha' : a' = a
      · subst ha'
        simp [hfa, Ne.symm hyx]
      · rw [Function.update_noteq ha']

end Inv

section Step
variable [DecidableEq ι] {crc : HashMapKeyStruct → UInt64} {m : ι} {s : HashTableState ι}
  {c : ι → List Nat} {t : Fin 1024 → List Nat} {f : HashMapKey → Option Nat}

/-- `hashmap_force` of a key that has an item returns it, leaving the state as it is. -/
theorem Inv.force_some (h : s.Inv crc m c t f) {k : HashMapKeyStruct} {a : HashMapKey}
    (hk : k.Valid crc) (ha : k.toKey = some a) (fl : ι) {x : Nat} (hfa : f a = some x) :
    s.hashmapForce crc m k fl = some (s, x, k.hashed crc) := by
  rw [hashmapForce, hashKey_valid hk]
  dsimp only
  rw [h.find ha, hfa]
  rfl

/-- `hashmap_force` of a key with no item takes one with `add_hashmapitem(&hm->items,
freelist)`, gives it the key and puts it first on the key's chain: the map's list gains it, and
the map gains it for the key. -/
theorem Inv.force_none (h : s.Inv crc m c t f) {k : HashMapKeyStruct} {a : HashMapKey}
    (hk : k.Valid crc) (ha : k.toKey = some a) {fl : ι} (hfl : fl ≠ m) (hfa : f a = none) :
    ∃ c' t', s.hashmapForce crc m k fl = some
        ({ items := (s.items.allocHead fl m).1
           key := Function.update s.key (s.items.allocHead fl m).2 (k.hashed crc)
           hashnext := Function.update s.hashnext (s.items.allocHead fl m).2
             (s.hashTable (bucketOf (k.hashed crc).hash))
           hashTable := Function.update s.hashTable (bucketOf (k.hashed crc).hash)
             (some (s.items.allocHead fl m).2) },
          (s.items.allocHead fl m).2, k.hashed crc) ∧
      c' m = (s.items.allocHead fl m).2 :: c m ∧ (s.items.allocHead fl m).2 ∉ c m ∧
      Inv crc m
        { items := (s.items.allocHead fl m).1
          key := Function.update s.key (s.items.allocHead fl m).2 (k.hashed crc)
          hashnext := Function.update s.hashnext (s.items.allocHead fl m).2
            (s.hashTable (bucketOf (k.hashed crc).hash))
          hashTable := Function.update s.hashTable (bucketOf (k.hashed crc).hash)
            (some (s.items.allocHead fl m).2) }
        c' t' (Function.update f a (some (s.items.allocHead fl m).2)) := by
  obtain ⟨hx, -, hpool, -⟩ := h.pool.allocHead fl m (Ne.symm hfl)
  have hxm : (s.items.allocHead fl m).2 ∉ c m := hx ▸ h.pool.part.headD_not_mem (Ne.symm hfl)
  have hcm : (Function.update (Function.update c m ((c fl).headD s.items.fresh :: c m)) fl
      (c fl).tail) m = (s.items.allocHead fl m).2 :: c m := by
    rw [Function.update_noteq (Ne.symm hfl), Function.update_same, hx]
  refine ⟨_, _, ?_, hcm, hxm, h.insert (K := k.hashed crc) hpool hcm hxm
    ⟨hk.1, (hashed_hashed k).symm⟩ (by rw [toKey_hashed, ha]) hfa⟩
  rw [hashmapForce, hashKey_valid hk]
  dsimp only
  rw [h.find ha, hfa]
  rfl

/-- **`hashmap_force`** of a key returns the item `f` has for it, leaving the state as it is;
or, when there is none, takes an item from the free list (or `malloc`s one) and gives it the
key: the map gains that item for the key. -/
theorem Inv.force (h : s.Inv crc m c t f) {k : HashMapKeyStruct} {a : HashMapKey}
    (hk : k.Valid crc) (ha : k.toKey = some a) {fl : ι} (hfl : fl ≠ m) :
    ∃ s' hmi c' t', s.hashmapForce crc m k fl = some (s', hmi, k.hashed crc) ∧
      s'.Inv crc m c' t' (Function.update f a (some hmi)) ∧ ∀ x ∈ f a, hmi = x := by
  cases hfa : f a with
  | some x =>
    -- the key has its item
    refine ⟨s, x, c, t, h.force_some hk ha fl hfa, ?_, fun y hy => Option.some.inj hy⟩
    rwa [← hfa, Function.update_eq_self]
  | none =>
    -- a new item, first on the chain of the key
    obtain ⟨c', t', hf, -, -, h'⟩ := h.force_none hk ha hfl hfa
    exact ⟨_, _, c', t', hf, h', fun y hy => absurd hy (by simp)⟩

/-- **`zeroout_hashmap`** empties the map. -/
theorem Inv.zeroout (h : s.Inv crc m c t f) {fl : ι} (hfl : fl ≠ m) :
    ∃ s', s.zerooutHashmap m fl = some s' ∧
      s'.Inv crc m (Function.update (Function.update c fl (c fl ++ c m)) m [])
        (fun _ => []) (fun _ => none) := by
  obtain ⟨H, hmove, -, hpool, -⟩ := h.pool.move fl m hfl
  exact ⟨_, by rw [zerooutHashmap, hmove]; rfl, inv_zeroed hpool (Function.update_same _ _ _) rfl⟩

/-- **The rest of the estimator** leaves the map as it is. -/
theorem Inv.recycle (h : s.Inv crc m c t f) {s' : HashTableState ι} (hr : Recycle m s s') :
    ∃ c', s'.Inv crc m c' t f := by
  cases hr with
  | move hd hs hne hmove =>
    obtain ⟨H, hH, -, hpool, -⟩ := h.pool.move _ _ hne
    rw [hmove, Option.some.injEq] at hH
    subst hH
    exact ⟨_, h.frame hpool (by rw [Function.update_noteq (Ne.symm hs),
      Function.update_noteq (Ne.symm hd)]) rfl fun _ _ => ⟨rfl, rfl⟩⟩
  | force k p hfl ho hne =>
    obtain ⟨hx, -, hpool, -⟩ := h.pool.allocHead _ _ hne
    have hxm : (s.items.allocHead _ _).2 ∉ c m := hx ▸ h.pool.part.headD_not_mem (Ne.symm hfl)
    refine ⟨_, h.frame hpool (by rw [Function.update_noteq (Ne.symm hfl),
      Function.update_noteq (Ne.symm ho)]) rfl fun y hy => ?_⟩
    have hyx : y ≠ (s.items.allocHead _ _).2 := fun he => hxm (he ▸ hy)
    exact ⟨Function.update_noteq hyx _ _, Function.update_noteq hyx _ _⟩

end Step

end HashTableState

/-! ### Runs -/

section Runs
variable {ι : Type}

/-- A call on `hm` and what it returned. -/
inductive HashTableCall (ι : Type)
  | force (k : HashMapKeyStruct) (freelist : ι) (hmi : Nat)
  | retrieve (k : HashMapKeyStruct) (hmi : Option Nat)
  | zeroout (freelist : ι)

/-- The abstract map after one more call: `hashmap_force` maps its key to the item it returned,
`zeroout_hashmap` empties the map. -/
def forcedStep (f : HashMapKey → Option Nat) : HashTableCall ι → HashMapKey → Option Nat
  | .force k _ hmi =>
    match k.toKey with
    | some a => Function.update f a (some hmi)
    | none => f
  | .retrieve _ _ => f
  | .zeroout _ => fun _ => none

/-- The abstract map after a history of calls: the item the last `hashmap_force` of each key
returned since the last `zeroout_hashmap`. -/
def forcedItems (calls : List (HashTableCall ι)) : HashMapKey → Option Nat :=
  calls.foldl forcedStep fun _ => none

theorem forcedItems_append_singleton (calls : List (HashTableCall ι)) (call : HashTableCall ι) :
    forcedItems (calls ++ [call]) = forcedStep (forcedItems calls) call := by
  rw [forcedItems, List.foldl_append]
  rfl

/-- A call answered as the abstract map `f` before it says: a retrieve returned the item of its
key, or `NULL` when there is none; a force of a key that has an item returned that item. -/
def CallAnswered (f : HashMapKey → Option Nat) : HashTableCall ι → Prop
  | .force k _ hmi => ∀ a ∈ k.toKey, ∀ x ∈ f a, hmi = x
  | .retrieve k r => ∀ a ∈ k.toKey, r = f a
  | .zeroout _ => True

/-- Each call of a history answered as the abstract map before it says, from the map `f`. -/
def AnsweredFrom : (HashMapKey → Option Nat) → List (HashTableCall ι) → Prop
  | _, [] => True
  | f, call :: calls => CallAnswered f call ∧ AnsweredFrom (forcedStep f call) calls

theorem answeredFrom_append_singleton (call : HashTableCall ι) :
    ∀ (f : HashMapKey → Option Nat) (calls : List (HashTableCall ι)),
      AnsweredFrom f (calls ++ [call]) ↔
        AnsweredFrom f calls ∧ CallAnswered (calls.foldl forcedStep f) call
  | f, [] => by simp [AnsweredFrom]
  | f, c :: calls => by
    rw [List.cons_append, AnsweredFrom, AnsweredFrom, answeredFrom_append_singleton call _ calls,
      List.foldl_cons, and_assoc]

variable [DecidableEq ι]

/-- The runs of calls on `hm`, whose items are the list `m`, from the state `s₀`: the history of
the calls, each with what it returned, and the state after them. Each call passes a key as
callers pass them and a free list other than the map's own; between two calls the rest of the
estimator may recycle items through the other lists. -/
inductive HashTableRun (crc : HashMapKeyStruct → UInt64) (m : ι) (s₀ : HashTableState ι) :
    List (HashTableCall ι) → HashTableState ι → Prop
  | nil : HashTableRun crc m s₀ [] s₀
  | force {calls : List (HashTableCall ι)} {s s' : HashTableState ι} {k k' : HashMapKeyStruct}
      {fl : ι} {hmi : Nat} : HashTableRun crc m s₀ calls s → k.Valid crc → fl ≠ m →
      s.hashmapForce crc m k fl = some (s', hmi, k') →
      HashTableRun crc m s₀ (calls ++ [.force k fl hmi]) s'
  | retrieve {calls : List (HashTableCall ι)} {s : HashTableState ι} {k k' : HashMapKeyStruct}
      {r : Option Nat} : HashTableRun crc m s₀ calls s → k.Valid crc →
      s.hashmapRetrieve crc k = some (k', r) →
      HashTableRun crc m s₀ (calls ++ [.retrieve k r]) s
  | zeroout {calls : List (HashTableCall ι)} {s s' : HashTableState ι} {fl : ι} :
      HashTableRun crc m s₀ calls s → fl ≠ m → s.zerooutHashmap m fl = some s' →
      HashTableRun crc m s₀ (calls ++ [.zeroout fl]) s'
  | recycle {calls : List (HashTableCall ι)} {s s' : HashTableState ι} :
      HashTableRun crc m s₀ calls s → HashTableState.Recycle m s s' →
      HashTableRun crc m s₀ calls s'

open HashTableState

variable {crc : HashMapKeyStruct → UInt64} {m : ι} {s₀ s : HashTableState ι}
  {calls : List (HashTableCall ι)}

/-- **Every run keeps the invariant**, with the abstract map of its history, and every call of
it answered as that map says. -/
theorem HashTableRun.inv {c₀ : ι → List Nat} {t₀ : Fin 1024 → List Nat}
    (hrun : HashTableRun crc m s₀ calls s) (h₀ : s₀.Inv crc m c₀ t₀ fun _ => none) :
    AnsweredFrom (fun _ => none) calls ∧ ∃ c t, s.Inv crc m c t (forcedItems calls) := by
  induction hrun with
  | nil => exact ⟨trivial, _, _, h₀⟩
  | force _ hk hfl hf ih =>
    obtain ⟨hans, c, t, h⟩ := ih
    obtain ⟨a, ha⟩ := exists_toKey hk.1
    obtain ⟨s', hmi, c', t', hf', h', hx⟩ := h.force hk ha hfl
    rw [hf', Option.some.injEq, Prod.mk.injEq, Prod.mk.injEq] at hf
    obtain ⟨rfl, rfl, -⟩ := hf
    refine ⟨(answeredFrom_append_singleton _ _ _).2 ⟨hans, fun a' ha' x hx' => ?_⟩, c', t', ?_⟩
    · rw [ha, Option.mem_some_iff] at ha'
      subst ha'
      exact hx x hx'
    · rwa [forcedItems_append_singleton, forcedStep, ha]
  | retrieve _ hk hr ih =>
    obtain ⟨hans, c, t, h⟩ := ih
    obtain ⟨a, ha⟩ := exists_toKey hk.1
    rw [h.retrieve hk ha, Option.some.injEq, Prod.mk.injEq] at hr
    obtain ⟨-, rfl⟩ := hr
    refine ⟨(answeredFrom_append_singleton _ _ _).2 ⟨hans, fun a' ha' => ?_⟩, c, t, ?_⟩
    · rw [ha, Option.mem_some_iff] at ha'
      rw [← ha']
      rfl
    · rwa [forcedItems_append_singleton]
  | zeroout _ hfl hz ih =>
    obtain ⟨hans, c, t, h⟩ := ih
    obtain ⟨s', hz', h'⟩ := h.zeroout hfl
    rw [hz', Option.some.injEq] at hz
    subst hz
    exact ⟨(answeredFrom_append_singleton _ _ _).2 ⟨hans, trivial⟩, _, _,
      by rwa [forcedItems_append_singleton]⟩
  | recycle _ hr ih =>
    obtain ⟨hans, c, t, h⟩ := ih
    obtain ⟨c', h'⟩ := h.recycle hr
    exact ⟨hans, c', t, h'⟩

/-- **The hash table of a map, over every run from a zeroed map.** Whatever keys callers build
with `set_streamtuple` and `set_flowtuple` or copy from stored items, whatever the buckets they
collide in, and whatever items and lists the rest of the estimator recycles between calls:
every `hashmap_force` of a key that has an item returned that item, and every
`hashmap_retrieve` returned the item the last `hashmap_force` of its key returned since the
last `zeroout_hashmap`, or `NULL`. In the state a run reaches, the map's items list holds at
most one item per key, each of them on the chain of its bucket, the stream and the flow key of
a tuple never find the same item, and `hashmap_force` and `zeroout_hashmap` return. -/
theorem hashTableRun_correct {c₀ : ι → List Nat} (h₀ : s₀.items.Inv c₀) (hm : c₀ m = [])
    (ht : s₀.hashTable = fun _ => none) (hrun : HashTableRun crc m s₀ calls s) :
    AnsweredFrom (fun _ => none) calls ∧
    ∃ l, (s.items.hdr m).Holds s.items.next l ∧
      (∀ x ∈ l, ∀ y ∈ l, (s.key x).toKey = (s.key y).toKey → x = y) ∧
      (∀ x ∈ l, ∃ l', Chain s.hashnext (s.hashTable (bucketOf (hashKey crc (s.key x)).2)) l' ∧
        x ∈ l') ∧
      (∀ k a, k.Valid crc → k.toKey = some a →
        ∃ k', s.hashmapRetrieve crc k = some (k', forcedItems calls a)) ∧
      (∀ st k₁ k₂ x y, s.hashmapRetrieve crc (setStreamtuple st) = some (k₁, some x) →
        s.hashmapRetrieve crc (HashMapKeyStruct.setFlowtuple st) = some (k₂, some y) → x ≠ y) ∧
      (∀ k fl, k.Valid crc → fl ≠ m → ∃ r, s.hashmapForce crc m k fl = some r) ∧
      (∀ fl, fl ≠ m → ∃ s', s.zerooutHashmap m fl = some s') := by
  obtain ⟨hans, c, t, h⟩ := hrun.inv (inv_zeroed h₀ hm ht)
  refine ⟨hans, c m, h.pool.holds m, fun x hx y hy => h.key_inj hx hy, fun x hx => h.mem_chain hx,
    fun k a hk ha => ⟨_, h.retrieve hk ha⟩, fun _ _ _ _ _ => h.retrieve_stream_ne_flow,
    fun k fl hk hfl => ?_, fun fl hfl => ?_⟩
  · obtain ⟨a, ha⟩ := exists_toKey hk.1
    obtain ⟨_, _, _, _, hf, -⟩ := h.force hk ha hfl
    exact ⟨_, hf⟩
  · obtain ⟨_, hz, -⟩ := h.zeroout (t := t) (f := forcedItems calls) hfl
    exact ⟨_, hz⟩

/-- The stream and the flow key of one tuple, colliding in bucket `0`, forced and retrieved; the
map zeroed out; and the flow key forced again, which takes its item back from the free list. -/
theorem hashTableRun_correct_reuse :
    ∃ calls s, calls = [.force (setStreamtuple ⟨(1, 2), 3⟩) true 0,
        .force (HashMapKeyStruct.setFlowtuple ⟨(1, 2), 3⟩) true 1,
        .retrieve (setStreamtuple ⟨(1, 2), 3⟩) (some 0), .zeroout true,
        .force (HashMapKeyStruct.setFlowtuple ⟨(1, 2), 3⟩) true 1,
        .retrieve (setStreamtuple ⟨(1, 2), 3⟩) none] ∧
      HashTableRun (fun _ => 0) false
        ⟨⟨fun _ => none, fun _ => {}, 0⟩, fun _ => {}, fun _ => none, fun _ => none⟩ calls s ∧
      AnsweredFrom (fun _ => none) calls ∧
      ∃ l, (s.items.hdr false).Holds s.items.next l ∧
        (∀ x ∈ l, ∀ y ∈ l, (s.key x).toKey = (s.key y).toKey → x = y) ∧
        (∀ x ∈ l, ∃ l', Chain s.hashnext
          (s.hashTable (bucketOf (hashKey (fun _ => 0) (s.key x)).2)) l' ∧ x ∈ l') ∧
        (∀ k a, k.Valid (fun _ => 0) → k.toKey = some a →
          ∃ k', s.hashmapRetrieve (fun _ => 0) k = some (k', forcedItems calls a)) ∧
        (∀ st k₁ k₂ x y, s.hashmapRetrieve (fun _ => 0) (setStreamtuple st) = some (k₁, some x) →
          s.hashmapRetrieve (fun _ => 0) (HashMapKeyStruct.setFlowtuple st) = some (k₂, some y) →
          x ≠ y) ∧
        (∀ k fl, k.Valid (fun _ => 0) → fl ≠ false →
          ∃ r, s.hashmapForce (fun _ => 0) false k fl = some r) ∧
        (∀ fl, fl ≠ false → ∃ s', s.zerooutHashmap false fl = some s') := by
  refine ⟨_, ?s, rfl, ?hrun,
    hashTableRun_correct ⟨fun _ => SList.holds_empty _, Partition.empty⟩ (by rfl) (by rfl) ?hrun⟩
  case hrun =>
    have hne : true ≠ false := nofun
    exact ((((((@HashTableRun.nil Bool _ (fun _ => 0) false
      ⟨⟨fun _ => none, fun _ => {}, 0⟩, fun _ => {}, fun _ => none, fun _ => none⟩).force
      (valid_setStreamtuple ⟨(1, 2), 3⟩) hne rfl).force
      (valid_setFlowtuple ⟨(1, 2), 3⟩) hne rfl).retrieve
      (valid_setStreamtuple ⟨(1, 2), 3⟩) rfl).zeroout hne rfl).force
      (valid_setFlowtuple ⟨(1, 2), 3⟩) hne rfl).retrieve (valid_setStreamtuple ⟨(1, 2), 3⟩) rfl

end Runs

end Pd3Estimator
