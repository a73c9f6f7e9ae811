import Pd3Estimator.Datatypes
import Mathlib.Data.List.Nodup

/-!
# Singly linked lists in memory

The lists the estimator hands between its threads (`struct hashMapList`,
`struct hashMapItemList`, `struct seqnoRangeList`) are headers over objects linked by a `next`
field. Objects of one kind live at addresses `Nat`; their `next` fields are a `NextHeap`.

* `Chain next p xs`: following `next` from `p` visits the nodes `xs` and then `NULL`;
* `SList` (`head`, `tail`) with `SList.Holds`: the header's chain is `xs` and its tail is the
  last node of `xs`;
* the list operations of the source, each with the lemma that it keeps `Holds` and writes
  `next` only at its own nodes: `moveList` (the body of both `move_hmilist` and
  `move_seqnorangelist`), `popHead` and `pushHead` (the free-list pop and the insertion of
  `add_hashmapitem` and `lossdata_arrival`), `pushTail` (`reorderdata_arrival`);
* `MapList` (`count`, `earliest`, `latest`) with `popEarliest`, `pushLatest` and
  `moveallHashmap`, whose `count` is the length of the chain;
* `Partition c n`: the lists `c` share out the addresses below `n`, each on exactly one list,
  once; moving nodes between two lists and adding a fresh node keep it;
* `walk`: the loop `for (p = head; p; p = p->next) body`, with its loop rule `walk_spec`, and
  `foldlM_spec`, the rule for a `for` over a list of indices.
-/

namespace Pd3Estimator

/-- The `next` field of every object of one kind; `none` is `NULL`. -/
abbrev NextHeap := Nat → Option Nat

/-- Following `next` from `p` visits the nodes `xs`, in order, and then `NULL`. -/
def Chain (next : NextHeap) : Option Nat → List Nat → Prop
  | p, [] => p = none
  | p, a :: xs => p = some a ∧ Chain next (next a) xs

section Chain
variable {next next' : NextHeap}

@[simp] theorem chain_nil {p : Option Nat} : Chain next p [] ↔ p = none := Iff.rfl

@[simp] theorem chain_cons {p : Option Nat} {a : Nat} {xs : List Nat} :
    Chain next p (a :: xs) ↔ p = some a ∧ Chain next (next a) xs := Iff.rfl

/-- A chain reads `next` only at its own nodes. -/
theorem Chain.congr : ∀ {p : Option Nat} {xs : List Nat}, (∀ a ∈ xs, next' a = next a) →
    Chain next p xs → Chain next' p xs
  | _, [], _, h => h
  | _, a :: xs, hn, ⟨hp, h⟩ => by
    refine ⟨hp, ?_⟩
    rw [hn a (List.mem_cons_self _ _)]
    exact Chain.congr (fun b hb => hn b (List.mem_cons_of_mem _ hb)) h

theorem Chain.update_of_not_mem {p : Option Nat} {xs : List Nat} {a : Nat} {v : Option Nat}
    (ha : a ∉ xs) (h : Chain next p xs) : Chain (Function.update next a v) p xs :=
  h.congr fun b hb => Function.update_noteq (fun (he : b = a) => ha (he ▸ hb)) _ _

/-- A chain starts at its first node. -/
theorem Chain.head? : ∀ {p : Option Nat} {xs : List Nat}, Chain next p xs → p = xs.head?
  | _, [], h => h
  | _, _ :: _, h => h.1

/-- **Linking the last node `l` of a chain to the chain of `ys`** gives the chain of
`xs ++ [l] ++ ys`. -/
theorem Chain.link {l : Nat} {q : Option Nat} {ys : List Nat} (hq : Chain next q ys)
    (hly : l ∉ ys) : ∀ {p : Option Nat} {xs : List Nat}, l ∉ xs → Chain next p (xs ++ [l]) →
      Chain (Function.update next l q) p (xs ++ [l] ++ ys)
  | _, [], _, ⟨hp, _⟩ => ⟨hp, by rw [Function.update_same]; exact hq.update_of_not_mem hly⟩
  | _, a :: xs, hlx, ⟨hp, h⟩ => by
    refine ⟨hp, ?_⟩
    rw [Function.update_noteq fun (he : a = l) => hlx (he ▸ List.mem_cons_self _ _)]
    exact Chain.link hq hly (fun h' => hlx (List.mem_cons_of_mem _ h')) h

/-- A list of distinct addresses below `n` has at most `n` of them. -/
theorem length_le_of_lt {l : List Nat} {n : Nat} (hl : l.Nodup) (h : ∀ x ∈ l, x < n) :
    l.length ≤ n := by
  simpa using (List.subperm_of_subset hl fun x hx => List.mem_range.2 (h x hx)).length_le

end Chain

/-! ### List headers -/

/-- A list header with `head` and `tail` (`struct hashMapItemList`, `struct seqnoRangeList`). -/
structure SList where
  head : Option Nat := none
  tail : Option Nat := none
  deriving DecidableEq, Repr

/-- The header `L` holds the nodes `xs`: its chain is `xs` and its tail is the last of `xs`. -/
structure SList.Holds (next : NextHeap) (L : SList) (xs : List Nat) : Prop where
  chain : Chain next L.head xs
  tail : L.tail = xs.getLast?

theorem SList.holds_empty (next : NextHeap) : SList.Holds next {} [] := ⟨rfl, rfl⟩

/-- The body of `move_hmilist(to, from)` and of `move_seqnorangelist(to, from)`: the nodes of
`from` go to the end of `to`, and `from` is emptied. `none` where it writes through a `NULL`
tail. -/
def moveList (next : NextHeap) (dst src : SList) : Option (NextHeap × SList × SList) :=
  match src.head with
  | none => some (next, dst, src)
  | some h =>
    match dst.head with
    | none => some (next, { head := src.head, tail := src.tail }, {})
    | some _ =>
      dst.tail.map fun t => (Function.update next t (some h), { dst with tail := src.tail }, {})

/-- The pop of the first node of a free list: `x = l->head; l->head = x->next;
if (x == l->tail) l->tail = NULL`; `none` when the list is empty. -/
def popHead (next : NextHeap) (L : SList) : Option (Nat × SList) :=
  L.head.map fun x => (x, { head := next x, tail := if L.tail = some x then none else L.tail })

/-- The insertion of `x` at the front: `x->next = l->head; l->head = x;
if (!l->tail) l->tail = x`. -/
def pushHead (next : NextHeap) (L : SList) (x : Nat) : NextHeap × SList :=
  (Function.update next x L.head, { head := some x, tail := if L.tail = none then some x else L.tail })

/-- The insertion of `x` at the end: `x->next = NULL; if (!l->tail) { l->tail = x; l->head = x; }
else { l->tail->next = x; l->tail = x; }`. -/
def pushTail (next : NextHeap) (L : SList) (x : Nat) : NextHeap × SList :=
  let next := Function.update next x none
  match L.tail with
  | none => (next, { head := some x, tail := some x })
  | some t => (Function.update next t (some x), { L with tail := some x })

section Ops
variable {next : NextHeap} {L src : SList} {xs ys : List Nat}

theorem getLast?_eq_some_of_ne_nil {xs : List Nat} (h : xs ≠ []) :
    ∃ l ys, xs = ys ++ [l] ∧ xs.getLast? = some l :=
  ⟨xs.getLast h, xs.dropLast, (List.dropLast_append_getLast h).symm,
    List.getLast?_eq_getLast xs h⟩

theorem Chain.eq_nil_of_none {xs : List Nat} (h : Chain next none xs) : xs = [] := by
  cases xs with
  | nil => rfl
  | cons _ _ => exact absurd h.1 (by simp)

theorem Chain.ne_nil_of_some {a : Nat} {xs : List Nat} (h : Chain next (some a) xs) : xs ≠ [] := by
  rintro rfl
  exact absurd h (by simp)

/-- **`moveList`** puts the nodes of `from` after those of `to`, empties `from`, and writes
`next` only at the last node of `to`. -/
theorem moveList_holds (hto : L.Holds next xs) (hfr : src.Holds next ys) (hn : (xs ++ ys).Nodup) :
    ∃ r, moveList next L src = some r ∧ r.2.1.Holds r.1 (xs ++ ys) ∧ r.2.2.Holds r.1 [] ∧
      ∀ a, a ∉ xs → r.1 a = next a := by
  unfold moveList
  split
  · rename_i hs
    have hys := (hs ▸ hfr.chain).eq_nil_of_none
    subst hys
    exact ⟨_, rfl, by rwa [List.append_nil], hfr, fun _ _ => rfl⟩
  · rename_i y hs
    have hys := (hs ▸ hfr.chain).ne_nil_of_some
    split
    · rename_i hd
      have hxs := (hd ▸ hto.chain).eq_nil_of_none
      subst hxs
      exact ⟨_, rfl, hfr, SList.holds_empty _, fun _ _ => rfl⟩
    · rename_i x hd
      obtain ⟨l, zs, hxs, hl⟩ := getLast?_eq_some_of_ne_nil (hd ▸ hto.chain).ne_nil_of_some
      rw [hto.tail, hl]
      rw [hxs, List.nodup_append] at hn
      have hlz : l ∉ zs := fun hm => (List.nodup_append.1 hn.1).2.2 hm (List.mem_singleton_self l)
      have hly : l ∉ ys := fun hm => hn.2.2 (List.mem_append_right _ (List.mem_singleton_self l)) hm
      refine ⟨_, rfl, ⟨?_, ?_⟩, SList.holds_empty _, fun a ha => Function.update_noteq ?_ _ _⟩
      · dsimp only
        rw [hxs, ← hs]
        exact Chain.link hfr.chain hly hlz (hxs ▸ hto.chain)
      · dsimp only
        rw [hfr.tail, List.getLast?_append_of_ne_nil _ hys]
      · rintro rfl
        exact ha (hxs ▸ List.mem_append_right _ (List.mem_singleton_self _))

/-- **`popHead`** of a nonempty list returns its first node and holds the rest. -/
theorem popHead_holds {x : Nat} (h : L.Holds next (x :: xs)) (hn : (x :: xs).Nodup) :
    ∃ L', popHead next L = some (x, L') ∧ L'.Holds next xs := by
  refine ⟨_, by rw [popHead, h.chain.1]; rfl, ⟨h.chain.2, ?_⟩⟩
  dsimp only
  rw [h.tail]
  cases xs with
  | nil => simp
  | cons y ys =>
    have hne : (x :: y :: ys).getLast? ≠ some x := by
      rw [List.getLast?_cons_cons]
      intro he
      exact (List.nodup_cons.1 hn).1 (List.mem_of_mem_getLast? he)
    rw [if_neg hne, List.getLast?_cons_cons]

theorem popHead_none (h : L.Holds next []) : popHead next L = none := by
  rw [popHead, h.chain.head?]
  rfl

/-- **`pushHead`** of a node not on the list puts it first, writing `next` at that node only. -/
theorem pushHead_holds {x : Nat} (h : L.Holds next xs) (hx : x ∉ xs) :
    (pushHead next L x).2.Holds (pushHead next L x).1 (x :: xs) := by
  dsimp only [pushHead]
  refine ⟨chain_cons.2 ⟨rfl, ?_⟩, ?_⟩
  · rw [Function.update_same]
    exact h.chain.update_of_not_mem hx
  · rw [h.tail]
    cases xs with
    | nil => rfl
    | cons y ys => rw [if_neg (by simp), List.getLast?_cons_cons]

/-- **`pushTail`** of a node not on the list puts it last, writing `next` at that node and at
the old last node only. -/
theorem pushTail_holds {x : Nat} (h : L.Holds next xs) (hx : x ∉ xs) (hn : xs.Nodup) :
    (pushTail next L x).2.Holds (pushTail next L x).1 (xs ++ [x]) ∧
      ∀ a, a ∉ xs → a ≠ x → (pushTail next L x).1 a = next a := by
  unfold pushTail
  cases xs with
  | nil =>
    rw [h.tail]
    exact ⟨⟨chain_cons.2 ⟨rfl, chain_nil.2 (Function.update_same _ _ _)⟩, rfl⟩,
      fun a _ hax => Function.update_noteq hax _ _⟩
  | cons y ys =>
    obtain ⟨l, zs, hxs, hl⟩ := getLast?_eq_some_of_ne_nil (List.cons_ne_nil y ys)
    rw [h.tail, hl]
    have hlz : l ∉ zs := by
      rw [hxs] at hn
      exact fun hm => (List.nodup_append.1 hn).2.2 hm (List.mem_singleton_self l)
    have hxl : x ≠ l := fun he => hx (hxs ▸ he ▸ List.mem_append_right _ (List.mem_singleton_self _))
    have hc : Chain (Function.update next x none) L.head (zs ++ [l]) :=
      hxs ▸ h.chain.update_of_not_mem hx
    refine ⟨⟨?_, ?_⟩, fun a ha hax => ?_⟩
    · dsimp only
      rw [hxs]
      exact Chain.link (chain_cons.2 ⟨rfl, chain_nil.2 (Function.update_same _ _ _)⟩)
        (by simpa using hxl.symm) hlz hc
    · dsimp only
      rw [List.getLast?_append_of_ne_nil _ (List.cons_ne_nil _ _)]
      rfl
    · have hal : a ≠ l := fun he =>
        ha (hxs ▸ he ▸ List.mem_append_right _ (List.mem_singleton_self _))
      dsimp only
      rw [Function.update_noteq hal, Function.update_noteq hax]

end Ops

/-! ### Lists of maps -/

/-- `struct hashMapList`: a header with a `count` (`unsigned int`). -/
structure MapList where
  count : UInt32 := 0
  earliest : Option Nat := none
  latest : Option Nat := none
  deriving DecidableEq, Repr

/-- The header `L` holds the maps `xs`: its chain is `xs`, `latest` is the last of `xs`, and
`count` is the length of `xs`. -/
structure MapList.Holds (next : NextHeap) (L : MapList) (xs : List Nat) : Prop where
  chain : Chain next L.earliest xs
  latest : L.latest = xs.getLast?
  count : L.count.toNat = xs.length

theorem MapList.holds_empty (next : NextHeap) : MapList.Holds next {} [] := ⟨rfl, rfl, rfl⟩

/-- `if (hm->next) { ...; hm->next = NULL; }`: clear the `next` of `hm`. -/
def clearNext (next : NextHeap) (hm : Nat) : NextHeap :=
  if (next hm).isSome then Function.update next hm none else next

theorem clearNext_self (next : NextHeap) (hm : Nat) : clearNext next hm hm = none := by
  unfold clearNext
  split_ifs with hs
  · exact Function.update_same _ _ _
  · exact Option.not_isSome_iff_eq_none.1 hs

theorem clearNext_ne (next : NextHeap) {hm a : Nat} (h : a ≠ hm) : clearNext next hm a = next a := by
  unfold clearNext
  split_ifs
  · exact Function.update_noteq h _ _
  · rfl

/-- `pop_earliest(from)`, leaving out the writes to `previous`, which nothing reads; `none`
when the list is empty (the code returns `NULL`). -/
def popEarliest (next : NextHeap) (L : MapList) : Option (NextHeap × MapList × Nat) :=
  L.earliest.map fun hm =>
    let L' : MapList := { L with count := L.count - 1, earliest := next hm }
    (clearNext next hm, if L'.latest = some hm then { L' with latest := none } else L', hm)

/-- `push_latest(to, hm)`, leaving out the write to `hm->previous`. -/
def pushLatest (next : NextHeap) (L : MapList) (hm : Nat) : NextHeap × MapList :=
  let L := if L.earliest = none then { L with earliest := some hm } else L
  let next := match L.latest with
    | some l => Function.update next l (some hm)
    | none => next
  (next, { L with count := L.count + 1, latest := some hm })

/-- `moveall_hashmap(to, from)`, leaving out the write to `from->earliest->previous`; `none`
where it writes through a `NULL` `to->latest`. -/
def moveallHashmap (next : NextHeap) (dst src : MapList) : Option (NextHeap × MapList × MapList) :=
  match src.earliest with
  | none => some (next, dst, src)
  | some e =>
    let r : Option (NextHeap × MapList) :=
      match dst.earliest with
      | none => some (next, { dst with earliest := src.earliest, latest := src.latest })
      | some _ => dst.latest.map fun l => (Function.update next l (some e), { dst with latest := src.latest })
    r.map fun r => (r.1, { r.2 with count := r.2.count + src.count }, {})

section MapOps
variable {next : NextHeap} {L src : MapList} {xs ys : List Nat}

/-- **`popEarliest`** of a nonempty list returns its first map, holds the rest, and clears the
`next` of the map it returns. -/
theorem popEarliest_holds {x : Nat} (h : L.Holds next (x :: xs)) (hn : (x :: xs).Nodup) :
    ∃ L', popEarliest next L = some (clearNext next x, L', x) ∧ L'.Holds (clearNext next x) xs := by
  have hx : x ∉ xs := (List.nodup_cons.1 hn).1
  have hc : Chain (clearNext next x) (next x) xs :=
    h.chain.2.congr fun a ha => clearNext_ne next fun he => hx (he ▸ ha)
  have hcount : (L.count - 1).toNat = xs.length := by
    have hc := h.count
    rw [List.length_cons] at hc
    rw [toNat_sub', toNat_one]
    have := toNat_lt_two_pow L.count
    omega
  refine ⟨_, by rw [popEarliest, h.chain.1]; rfl, ?_⟩
  dsimp only
  rw [h.latest]
  cases xs with
  | nil => rw [if_pos (show [x].getLast? = some x from rfl)]; exact ⟨hc, rfl, hcount⟩
  | cons y ys =>
    have hne : (x :: y :: ys).getLast? ≠ some x := by
      rw [List.getLast?_cons_cons]
      exact fun he => hx (List.mem_of_mem_getLast? he)
    rw [if_neg hne]
    exact ⟨hc, List.getLast?_cons_cons, hcount⟩

theorem popEarliest_none (h : L.Holds next []) : popEarliest next L = none := by
  rw [popEarliest, h.chain.head?]
  rfl

/-- **`pushLatest`** of a map not on the list, whose `next` is `NULL`, puts it last, writing
`next` at the old last map only. -/
theorem pushLatest_holds {x : Nat} (h : L.Holds next xs) (hn : xs.Nodup) (hx : x ∉ xs)
    (hnx : next x = none) (hlen : xs.length + 1 < 2 ^ 32) :
    (pushLatest next L x).2.Holds (pushLatest next L x).1 (xs ++ [x]) ∧
      ∀ a, a ∉ xs → (pushLatest next L x).1 a = next a := by
  have hcount : (L.count + 1).toNat = (xs ++ [x]).length := by
    rw [toNat_add', toNat_one, h.count, List.length_append, List.length_singleton]
    omega
  unfold pushLatest
  cases xs with
  | nil =>
    have he : L.earliest = none := h.chain.head?
    have hl : L.latest = none := h.latest
    rw [if_pos he]
    dsimp only
    rw [hl]
    exact ⟨⟨chain_cons.2 ⟨rfl, chain_nil.2 hnx⟩, rfl, hcount⟩, fun _ _ => rfl⟩
  | cons y ys =>
    obtain ⟨l, zs, hxs, hl⟩ := getLast?_eq_some_of_ne_nil (List.cons_ne_nil y ys)
    have he : L.earliest ≠ none := by rw [h.chain.head?]; simp
    have hlat : L.latest = some l := h.latest.trans hl
    have hlz : l ∉ zs := by
      rw [hxs] at hn
      exact fun hm => (List.nodup_append.1 hn).2.2 hm (List.mem_singleton_self l)
    have hxl : l ∉ [x] := by
      rw [List.mem_singleton]
      rintro rfl
      exact hx (hxs ▸ List.mem_append_right _ (List.mem_singleton_self _))
    rw [if_neg he]
    dsimp only
    rw [hlat]
    refine ⟨⟨?_, ?_, hcount⟩, fun a ha => Function.update_noteq ?_ _ _⟩
    · rw [hxs]
      exact Chain.link (chain_cons.2 ⟨rfl, chain_nil.2 hnx⟩) hxl hlz (hxs ▸ h.chain)
    · rw [List.getLast?_append_of_ne_nil _ (List.cons_ne_nil _ _)]
      rfl
    · rintro rfl
      exact ha (hxs ▸ List.mem_append_right _ (List.mem_singleton_self _))

/-- **`moveallHashmap`** puts the maps of `from` after those of `to` and empties `from`,
writing `next` only at the last map of `to`. -/
theorem moveallHashmap_holds {D : MapList} (hto : D.Holds next xs) (hfr : src.Holds next ys)
    (hn : (xs ++ ys).Nodup) (hlen : xs.length + ys.length < 2 ^ 32) :
    ∃ r, moveallHashmap next D src = some r ∧ r.2.1.Holds r.1 (xs ++ ys) ∧ r.2.2.Holds r.1 [] ∧
      ∀ a, a ∉ xs → r.1 a = next a := by
  have hcount : (D.count + src.count).toNat = (xs ++ ys).length := by
    rw [toNat_add', hto.count, hfr.count, List.length_append]
    omega
  unfold moveallHashmap
  split
  · rename_i hs
    have hys := (hs ▸ hfr.chain).eq_nil_of_none
    subst hys
    exact ⟨_, rfl, by rwa [List.append_nil], hfr, fun _ _ => rfl⟩
  · rename_i e hs
    have hys := (hs ▸ hfr.chain).ne_nil_of_some
    split
    · rename_i hd
      have hxs := (hd ▸ hto.chain).eq_nil_of_none
      subst hxs
      exact ⟨_, rfl, ⟨hfr.chain, hfr.latest, hcount⟩, MapList.holds_empty _, fun _ _ => rfl⟩
    · rename_i x hd
      obtain ⟨l, zs, hxs, hl⟩ := getLast?_eq_some_of_ne_nil (hd ▸ hto.chain).ne_nil_of_some
      rw [hto.latest, hl]
      rw [hxs, List.nodup_append] at hn
      have hlz : l ∉ zs := fun hm => (List.nodup_append.1 hn.1).2.2 hm (List.mem_singleton_self l)
      have hly : l ∉ ys := fun hm => hn.2.2 (List.mem_append_right _ (List.mem_singleton_self l)) hm
      refine ⟨_, rfl, ⟨?_, ?_, hcount⟩, MapList.holds_empty _, fun a ha => Function.update_noteq ?_ _ _⟩
      · dsimp only
        rw [hxs, ← hs]
        exact Chain.link hfr.chain hly hlz (hxs ▸ hto.chain)
      · dsimp only
        rw [hfr.latest, List.getLast?_append_of_ne_nil _ hys]
      · rintro rfl
        exact ha (hxs ▸ List.mem_append_right _ (List.mem_singleton_self _))

end MapOps

/-! ### Ownership -/

/-- The lists `c` share out the addresses below `n`: each of them is on exactly one list, once,
and no other address is on any list. -/
structure Partition {ι : Type} (c : ι → List Nat) (n : Nat) : Prop where
  mem : ∀ a, a < n ↔ ∃ i, a ∈ c i
  nodup : ∀ i, (c i).Nodup
  unique : ∀ {i j a}, a ∈ c i → a ∈ c j → i = j

section Partition
variable {ι : Type} {c : ι → List Nat} {n : Nat}

theorem Partition.not_mem (h : Partition c n) {i j : ι} {a : Nat} (hij : i ≠ j) (ha : a ∈ c i) :
    a ∉ c j :=
  fun hj => hij (h.unique ha hj)

theorem Partition.nodup_append (h : Partition c n) {i j : ι} (hij : i ≠ j) :
    (c i ++ c j).Nodup :=
  List.nodup_append.2 ⟨h.nodup i, h.nodup j, fun _ ha hb => h.not_mem hij ha hb⟩

theorem Partition.lt (h : Partition c n) {i : ι} {a : Nat} (ha : a ∈ c i) : a < n :=
  (h.mem a).2 ⟨i, ha⟩

variable [DecidableEq ι]

/-- Where an address is after lists `i` and `j` are replaced by `l₁` and `l₂`. -/
theorem mem_update₂ {i j : ι} (hij : i ≠ j) (l₁ l₂ : List Nat) (k : ι) (a : Nat) :
    a ∈ Function.update (Function.update c i l₁) j l₂ k ↔
      (k = i ∧ a ∈ l₁) ∨ (k = j ∧ a ∈ l₂) ∨ (k ≠ i ∧ k ≠ j ∧ a ∈ c k) := by
  by_cases hkj : k = j
  · subst hkj
    simp [Function.update_same, hij.symm]
  · by_cases hki : k = i
    · subst hki
      simp [Function.update_noteq hkj, hkj]
    · simp [Function.update_noteq hkj, Function.update_noteq hki, hki, hkj]

theorem exists_mem_update₂ {i j : ι} (hij : i ≠ j) (l₁ l₂ : List Nat) (a : Nat) :
    (∃ k, a ∈ Function.update (Function.update c i l₁) j l₂ k) ↔
      (a ∈ l₁ ∨ a ∈ l₂) ∨ ∃ k, k ≠ i ∧ k ≠ j ∧ a ∈ c k := by
  simp only [mem_update₂ hij]
  constructor
  · rintro ⟨k, ⟨-, h⟩ | ⟨-, h⟩ | h⟩
    exacts [.inl (.inl h), .inl (.inr h), .inr ⟨k, h⟩]
  · rintro ((h | h) | ⟨k, h⟩)
    exacts [⟨i, .inl ⟨rfl, h⟩⟩, ⟨j, .inr (.inl ⟨rfl, h⟩)⟩, ⟨k, .inr (.inr h)⟩]

/-- **Moving nodes between two lists** keeps the partition: afterwards the two lists hold the
same nodes between them. -/
theorem Partition.update₂ (h : Partition c n) {i j : ι} (hij : i ≠ j) {l₁ l₂ : List Nat}
    (hp : (l₁ ++ l₂).Perm (c i ++ c j)) :
    Partition (Function.update (Function.update c i l₁) j l₂) n := by
  have hnd : (l₁ ++ l₂).Nodup := hp.nodup_iff.2 (h.nodup_append hij)
  have hpair : ∀ a, a ∈ l₁ ∨ a ∈ l₂ ↔ a ∈ c i ∨ a ∈ c j := fun a => by
    rw [← List.mem_append, ← List.mem_append]
    exact hp.mem_iff
  refine ⟨fun a => ?_, fun k => ?_, fun {k k' a} hk hk' => ?_⟩
  · have hc := exists_mem_update₂ (c := c) hij (c i) (c j) a
    rw [Function.update_eq_self, Function.update_eq_self] at hc
    rw [h.mem a, hc, exists_mem_update₂ hij, hpair]
  · by_cases hkj : k = j
    · subst hkj
      rw [Function.update_same]
      exact (List.nodup_append.1 hnd).2.1
    · by_cases hki : k = i
      · subst hki
        rw [Function.update_noteq hkj, Function.update_same]
        exact (List.nodup_append.1 hnd).1
      · rw [Function.update_noteq hkj, Function.update_noteq hki]
        exact h.nodup k
  · -- an address on one of the two lists was on one of them before
    have hold : ∀ a, a ∈ l₁ ∨ a ∈ l₂ → ∀ k, k ≠ i → k ≠ j → a ∉ c k := by
      intro a ha k hki hkj hk
      rcases (hpair a).1 ha with h' | h'
      · exact hki (h.unique hk h')
      · exact hkj (h.unique hk h')
    have hdis : ∀ a, a ∈ l₁ → a ∉ l₂ := fun a h1 h2 => (List.nodup_append.1 hnd).2.2 h1 h2
    rcases (mem_update₂ hij l₁ l₂ k a).1 hk with ⟨rfl, h1⟩ | ⟨rfl, h2⟩ | ⟨hki, hkj, h3⟩ <;>
    rcases (mem_update₂ hij l₁ l₂ k' a).1 hk' with ⟨rfl, h1'⟩ | ⟨rfl, h2'⟩ | ⟨hki', hkj', h3'⟩
    · rfl
    · exact absurd h2' (hdis a h1)
    · exact absurd h3' (hold a (.inl h1) k' hki' hkj')
    · exact absurd h2 (hdis a h1')
    · rfl
    · exact absurd h3' (hold a (.inr h2) k' hki' hkj')
    · exact absurd h3 (hold a (.inl h1') k hki hkj)
    · exact absurd h3 (hold a (.inr h2') k hki hkj)
    · exact h.unique h3 h3'

/-- **A fresh node** (the next address `malloc` returns) put on list `j` keeps the partition
of the addresses below `n + 1`. -/
theorem Partition.fresh (h : Partition c n) {j : ι} {l : List Nat} (hp : l.Perm (n :: c j)) :
    Partition (Function.update c j l) (n + 1) := by
  have hn : n ∉ c j := fun hm => lt_irrefl n (h.lt hm)
  have hnd : l.Nodup := hp.nodup_iff.2 (List.nodup_cons.2 ⟨hn, h.nodup j⟩)
  have hl : ∀ a, a ∈ l ↔ a = n ∨ a ∈ c j := fun a => by
    rw [hp.mem_iff, List.mem_cons]
  refine ⟨fun a => ?_, fun k => ?_, fun {k k' a} hk hk' => ?_⟩
  · constructor
    · intro ha
      rcases Nat.lt_succ_iff_lt_or_eq.1 ha with ha | rfl
      · obtain ⟨k, hk⟩ := (h.mem a).1 ha
        by_cases hkj : k = j
        · subst hkj
          exact ⟨k, by rw [Function.update_same, hl]; exact .inr hk⟩
        · exact ⟨k, by rw [Function.update_noteq hkj]; exact hk⟩
      · exact ⟨j, by rw [Function.update_same, hl]; exact .inl rfl⟩
    · rintro ⟨k, hk⟩
      by_cases hkj : k = j
      · subst hkj
        rw [Function.update_same, hl] at hk
        rcases hk with rfl | hk
        · exact Nat.lt_succ_self _
        · exact Nat.lt_succ_of_lt (h.lt hk)
      · rw [Function.update_noteq hkj] at hk
        exact Nat.lt_succ_of_lt (h.lt hk)
  · by_cases hkj : k = j
    · subst hkj
      rw [Function.update_same]
      exact hnd
    · rw [Function.update_noteq hkj]
      exact h.nodup k
  · -- the fresh node is on `j` only
    have hfresh : ∀ {k}, k ≠ j → a ∈ Function.update c j l k → a ∈ c k ∧ a ≠ n := by
      intro k hkj hk
      rw [Function.update_noteq hkj] at hk
      exact ⟨hk, fun he => lt_irrefl n (he ▸ h.lt hk)⟩
    by_cases hkj : k = j <;> by_cases hkj' : k' = j
    · rw [hkj, hkj']
    · obtain ⟨hk3, hne⟩ := hfresh hkj' hk'
      rw [hkj, Function.update_same, hl] at hk
      rcases hk with rfl | hk
      · exact absurd rfl hne
      · exact absurd (h.unique hk hk3) (Ne.symm (hkj ▸ hkj'))
    · obtain ⟨hk3, hne⟩ := hfresh hkj hk
      rw [hkj', Function.update_same, hl] at hk'
      rcases hk' with rfl | hk'
      · exact absurd rfl hne
      · exact absurd (h.unique hk3 hk') (hkj' ▸ hkj)
    · exact h.unique (hfresh hkj hk).1 (hfresh hkj' hk').1

end Partition

/-! ### Loops over a list -/

/-- `for (p = head; p; p = p->next) body`, reading `next` from the state after the body, for at
most `fuel` iterations; `none` when the fuel runs out, or `body` fails, first. -/
def walk {σ : Type} (nextOf : σ → NextHeap) (body : Nat → σ → Option σ) :
    Nat → Option Nat → σ → Option σ
  | _, none, s => some s
  | 0, some _, _ => none
  | fuel + 1, some x, s => (body x s).bind fun s' => walk nextOf body fuel (nextOf s' x) s'

/-- **The loop rule**: a loop over the chain `xs`, whose body keeps the chain of the nodes still
to visit and takes `P` from the visited prefix to the next, returns with `P xs`. -/
theorem walk_spec {σ : Type} {nextOf : σ → NextHeap} {body : Nat → σ → Option σ}
    {P : List Nat → σ → Prop} (xs : List Nat)
    (hbody : ∀ pre x post s, pre ++ x :: post = xs → P pre s → Chain (nextOf s) (nextOf s x) post →
      ∃ s', body x s = some s' ∧ P (pre ++ [x]) s' ∧ Chain (nextOf s') (nextOf s' x) post) :
    ∀ (rest pre : List Nat) (fuel : Nat) (p : Option Nat) (s : σ), pre ++ rest = xs →
      Chain (nextOf s) p rest → rest.length ≤ fuel → P pre s →
        ∃ s', walk nextOf body fuel p s = some s' ∧ P xs s'
  | [], pre, fuel, p, s, he, hc, _, hP => by
    rw [List.append_nil] at he
    subst he
    rw [chain_nil.1 hc]
    cases fuel <;> exact ⟨s, rfl, hP⟩
  | x :: post, pre, fuel + 1, p, s, he, hc, hlen, hP => by
    obtain ⟨hp, hc⟩ := chain_cons.1 hc
    obtain ⟨s', hs', hP', hc'⟩ := hbody pre x post s he hP hc
    rw [hp, walk, hs', Option.some_bind]
    exact walk_spec xs hbody post (pre ++ [x]) fuel _ s' (by rw [List.append_assoc]; exact he) hc'
      (Nat.le_of_succ_le_succ hlen) hP'

/-- **The loop rule for a `for` over a list** whose body cannot fail while `P` holds. -/
theorem foldlM_spec {σ α : Type} {f : σ → α → Option σ} {P : σ → Prop}
    (hf : ∀ s a, P s → ∃ s', f s a = some s' ∧ P s') :
    ∀ (l : List α) (s : σ), P s → ∃ s', l.foldlM f s = some s' ∧ P s'
  | [], s, h => ⟨s, rfl, h⟩
  | a :: l, s, h => by
    obtain ⟨s', hs', h'⟩ := hf s a h
    obtain ⟨s'', hs'', h''⟩ := foldlM_spec hf l s' h'
    exact ⟨s'', by rw [List.foldlM_cons, hs']; exact hs'', h''⟩

end Pd3Estimator
