import Pd3Estimator.LinkedLists

/-!
# The list of fistqs and the handles connected to them

`fistq.c` keeps every `fistq_t` on one doubly linked list that starts at the dummy node
`fistq_list_head`, linked by `next` and `prev`, and counts them in `fistq_list_size`.
`fistq_getHandle(src, dst, ...)` `calloc`s a handle and connects it to the `fistq_t` named
`(src, dst)`: `fistq_find_unsafe` walks the list for it and raises its `ref_count`, or else
`fistq_create_unsafe` makes one, with `ref_count` 1, first on the list.
`fistq_destroyHandle(fh)` lowers the `ref_count` of the handle's `fistq_t` and, when it reaches
zero, unlinks the `fistq_t` from the list and frees it. Both take `fistq_list_lock` around all
of this, so each call is one atomic step.

The model keeps what these calls read and write: `fistq_list_head.next`, the `next`, `prev`,
`src`, `dst` and `ref_count` of each `fistq_t`, `fistq_list_size`, the `fq` of each handle, and
`calloc` for both kinds of object. The queues of a fistq and of its handles are in `Fistq`.

* `fistqFindUnsafe`, `fistqCreateUnsafe`, `fistqGetHandle`, `FistqList.unlink`,
  `fistqDestroyHandle`, and `fistqListRun` over any sequence of calls;
* `FistqListInv s l`: following `next` from `fistq_list_head` visits `l`, and `prev` leads back
  the same way; no two fistqs on it share their names; `fistq_list_size` is its length; every
  live handle is connected to a fistq on it; and each fistq's `ref_count` is its number of live
  handles, at least one;
* `FistqListInv.getHandle`, `FistqListInv.destroyHandle`, `FistqListInv.run`: every call, and
  so every run, keeps it;
* `fistqListRun_shared`: **in every state a run reaches, live handles opened on one
  `(src, dst)` pair share one `fistq_t`, handles opened on different pairs never do, and the
  list holds exactly the fistqs that have live handles, each with its number of handles as
  `ref_count`**.
-/

namespace Pd3Estimator

/-! ### State -/

/-- Where a `prev` field points: the dummy node `fistq_list_head`, or a `fistq_t`. -/
inductive FqRef
  | listHead
  | fq (a : Nat)
  deriving DecidableEq, Repr

/-- The list of fistqs and the handles. `fistq_t`s and handles live at addresses `Nat` of their
own kinds; addresses from `fresh` (`hfresh` for handles) on were never returned by `calloc`.
`fq fh` is the `fistq_t` of handle `fh`, `none` for a handle that was never returned or has
been freed. -/
structure FistqList where
  headNext : Option Nat
  next : NextHeap
  prev : Nat → FqRef
  src : Nat → String
  dst : Nat → String
  refCount : Nat → Int
  size : UInt32
  fresh : Nat
  fq : Nat → Option Nat
  hfresh : Nat

/-- `fistq_init`: `fistq_list_head` zeroed and `fistq_list_size = 0`, before any `fistq_t` or
handle is allocated. -/
def FistqList.init : FistqList where
  headNext := none
  next := fun _ => none
  prev := fun _ => .listHead
  src := fun _ => ""
  dst := fun _ => ""
  refCount := fun _ => 0
  size := 0
  fresh := 0
  fq := fun _ => none
  hfresh := 0

/-- The live handles connected to the `fistq_t` at `a`. -/
def FistqList.handlesOf (s : FistqList) (a : Nat) : List Nat :=
  (List.range s.hfresh).filter fun fh => s.fq fh = some a

/-! ### The calls -/

/-- The loop of `fistq_find_unsafe` from `fq`, over at most `fuel` fistqs: `some (some a)` for
the first `fistq_t` named `(src, dst)` (`strcmp` of both names), `some none` at `NULL`, and
`none` when it runs past `fuel` fistqs. -/
def findFq (s : FistqList) (src dst : String) : Nat → Option Nat → Option (Option Nat)
  | _, none => some none
  | 0, some _ => none
  | fuel + 1, some a =>
    if s.src a = src ∧ s.dst a = dst then some (some a) else findFq s src dst fuel (s.next a)

/-- `fistq_find_unsafe(src, dst)`: the `fistq_t` named `(src, dst)`, whose `ref_count` it
raises. -/
def fistqFindUnsafe (s : FistqList) (src dst : String) : Option (FistqList × Option Nat) :=
  (findFq s src dst s.fresh s.headNext).map fun
    | some a => ({ s with refCount := Function.update s.refCount a (s.refCount a + 1) }, some a)
    | none => (s, none)

/-- `fistq_create_unsafe(src, dst, ...)`: a new `fistq_t` named `(src, dst)` with `ref_count` 1,
inserted first on the list: `fq->next = fistq_list_head.next; fq->prev = &fistq_list_head;
if (fistq_list_head.next != NULL) fistq_list_head.next->prev = fq; fistq_list_head.next = fq;
fistq_list_size++`. -/
def fistqCreateUnsafe (s : FistqList) (src dst : String) : FistqList × Nat :=
  let a := s.fresh
  let s := { s with
    fresh := a + 1
    src := Function.update s.src a src
    dst := Function.update s.dst a dst
    refCount := Function.update s.refCount a 1
    next := Function.update s.next a s.headNext
    prev := Function.update s.prev a .listHead }
  let s := match s.headNext with
    | some b => { s with prev := Function.update s.prev b (.fq a) }
    | none => s
  ({ s with headNext := some a, size := s.size + 1 }, a)

/-- `fistq_getHandle(src, dst, ...)`: `NULL` when a name is empty; otherwise a new handle,
connected to the `fistq_t` named `(src, dst)` that `fistq_find_unsafe` finds or
`fistq_create_unsafe` makes. -/
def fistqGetHandle (s : FistqList) (src dst : String) : Option (FistqList × Option Nat) :=
  if src = "" ∨ dst = "" then some (s, none)
  else
    let fh := s.hfresh
    let s := { s with hfresh := fh + 1 }
    (fistqFindUnsafe s src dst).map fun r =>
      let c := match r.2 with
        | some a => (r.1, a)
        | none => fistqCreateUnsafe r.1 src dst
      ({ c.1 with fq := Function.update c.1.fq fh (some c.2) }, some fh)

/-- The unlinking of `a` in `fistq_destroyHandle`: `fq->prev->next = fq->next;
if (fq->next != NULL) fq->next->prev = fq->prev; fistq_list_size--`. -/
def FistqList.unlink (s : FistqList) (a : Nat) : FistqList :=
  let s := match s.prev a with
    | .listHead => { s with headNext := s.next a }
    | .fq p => { s with next := Function.update s.next p (s.next a) }
  let s := match s.next a with
    | some b => { s with prev := Function.update s.prev b (s.prev a) }
    | none => s
  { s with size := s.size - 1 }

/-- `fistq_destroyHandle(fh)`: `-1` for `NULL`; otherwise `ref_count--`, the unlinking of the
`fistq_t` when that leaves zero, and `free(fh)`. `none` for a handle that is not live, whose
`fq` the code would read after `free`. -/
def fistqDestroyHandle (s : FistqList) : Option Nat → Option (FistqList × Int)
  | none => some (s, -1)
  | some fh =>
    (s.fq fh).map fun a =>
      let rc : Int := s.refCount a - 1
      let s : FistqList := { s with refCount := Function.update s.refCount a rc }
      let s := if rc = 0 then s.unlink a else s
      ({ s with fq := Function.update s.fq fh none }, 0)

/-- A call on the list of fistqs. -/
inductive FistqListCall
  | getHandle (src dst : String)
  | destroyHandle (fh : Option Nat)
  deriving DecidableEq, Repr

/-- A sequence of calls: the final state and the handles `fistq_getHandle` returned, each with
the names it was called with; `none` when a call destroys a handle that is not live. -/
def fistqListRun (s : FistqList) :
    List FistqListCall → Option (FistqList × List (Nat × String × String))
  | [] => some (s, [])
  | .getHandle src dst :: cs =>
    (fistqGetHandle s src dst).bind fun r =>
      (fistqListRun r.1 cs).map fun t => (t.1, (r.2.map fun fh => (fh, src, dst)).toList ++ t.2)
  | .destroyHandle fh :: cs => (fistqDestroyHandle s fh).bind fun r => fistqListRun r.1 cs

/-! ### Doubly linked lists -/

/-- Following `prev` back along the fistqs `l`: the first leads to `r`, each other one to the
fistq before it. -/
def PrevLinked (prev : Nat → FqRef) : FqRef → List Nat → Prop
  | _, [] => True
  | r, a :: l => prev a = r ∧ PrevLinked prev (.fq a) l

section Links
variable {next : NextHeap} {prev prev' : Nat → FqRef}

@[simp] theorem prevLinked_cons {r : FqRef} {a : Nat} {l : List Nat} :
    PrevLinked prev r (a :: l) ↔ prev a = r ∧ PrevLinked prev (.fq a) l := Iff.rfl

/-- Backward links read `prev` only at their own fistqs. -/
theorem PrevLinked.congr : ∀ {r : FqRef} {l : List Nat}, (∀ a ∈ l, prev' a = prev a) →
    PrevLinked prev r l → PrevLinked prev' r l
  | _, [], _, h => h
  | _, a :: _, hp, ⟨ha, h⟩ =>
    ⟨(hp a (List.mem_cons_self _ _)).trans ha,
      PrevLinked.congr (fun b hb => hp b (List.mem_cons_of_mem _ hb)) h⟩

/-- The backward links of a list give those of each of its prefixes. -/
theorem PrevLinked.of_append : ∀ {r : FqRef} (xs ys : List Nat),
    PrevLinked prev r (xs ++ ys) → PrevLinked prev r xs
  | _, [], _, _ => trivial
  | _, _ :: xs, ys, ⟨ha, h⟩ => ⟨ha, PrevLinked.of_append xs ys h⟩

/-- The fistq after `p` leads back to `p`. -/
theorem PrevLinked.prev_after : ∀ {r : FqRef} {xs : List Nat} {p a : Nat} {ys : List Nat},
    PrevLinked prev r (xs ++ p :: a :: ys) → prev a = .fq p
  | _, [], _, _, _, ⟨_, ha, _⟩ => ha
  | _, _ :: _, _, _, _, ⟨_, h⟩ => h.prev_after

/-- No fistq on a list leads back to itself. -/
theorem PrevLinked.ne_self : ∀ {r : FqRef} {l : List Nat}, PrevLinked prev r l → l.Nodup →
    (∀ c, r = .fq c → c ∉ l) → ∀ a ∈ l, prev a ≠ .fq a
  | _, [], _, _, _, _, ha => absurd ha (List.not_mem_nil _)
  | _, b :: l, ⟨hb, h⟩, hn, hr, a, ha => by
    rcases List.mem_cons.1 ha with rfl | ha
    · rw [hb]
      exact fun he => hr a he (List.mem_cons_self _ _)
    · refine h.ne_self (List.nodup_cons.1 hn).2 (fun c hc => ?_) a ha
      cases hc
      exact (List.nodup_cons.1 hn).1

/-- **Unlinking `a` before `b`**: pointing the `prev` of `b` at `a`'s own `prev` gives the
backward links of the list without `a`. -/
theorem PrevLinked.unlink {a b : Nat} {ys : List Nat} : ∀ {r : FqRef} (xs : List Nat),
    PrevLinked prev r (xs ++ a :: b :: ys) → (xs ++ a :: b :: ys).Nodup →
    PrevLinked (Function.update prev b (prev a)) r (xs ++ b :: ys)
  | _, [], ⟨ha, hb, h⟩, hn => by
    have hby : b ∉ ys := (List.nodup_cons.1 (List.nodup_cons.1 hn).2).1
    exact ⟨by rw [Function.update_same, ha], h.congr fun c hc =>
      Function.update_noteq (fun (he : c = b) => hby (he ▸ hc)) _ _⟩
  | _, c :: xs, ⟨hc, h⟩, hn => by
    have hcb : c ≠ b := fun he => (List.nodup_cons.1 hn).1 (by simp [he])
    exact ⟨by rw [Function.update_noteq hcb, hc], h.unlink xs (List.nodup_cons.1 hn).2⟩

/-- **Unlinking `a` after `p`**: pointing the `next` of `p` at `a`'s own `next` gives the chain
of the list without `a`. -/
theorem Chain.bypass {p a : Nat} {ys : List Nat} : ∀ {q : Option Nat} {xs : List Nat},
    Chain next q (xs ++ p :: a :: ys) → (xs ++ p :: a :: ys).Nodup →
    Chain (Function.update next p (next a)) q (xs ++ p :: ys)
  | _, [], ⟨hq, _, h⟩, hn => by
    have hpy : p ∉ ys := fun hm => (List.nodup_cons.1 hn).1 (by simp [hm])
    exact ⟨hq, by rw [Function.update_same]; exact h.update_of_not_mem hpy⟩
  | _, c :: xs, ⟨hq, h⟩, hn => by
    have hcp : c ≠ p := fun he => (List.nodup_cons.1 hn).1 (by simp [he])
    exact ⟨hq, by rw [Function.update_noteq hcp]; exact h.bypass (List.nodup_cons.1 hn).2⟩

end Links

/-! ### Handles -/

section Handles
variable {s : FistqList}

theorem FistqList.handlesOf_congr {s' : FistqList} (hq : s'.fq = s.fq) (hh : s'.hfresh = s.hfresh) :
    s'.handlesOf = s.handlesOf := by
  unfold FistqList.handlesOf
  rw [hq, hh]

/-- **Connecting the new handle** `hfresh` to `a` adds it to the handles of `a`. -/
theorem FistqList.handlesOf_connect {s' : FistqList} {a : Nat} (hh : s'.hfresh = s.hfresh + 1)
    (hq : s'.fq = Function.update s.fq s.hfresh (some a)) (b : Nat) :
    s'.handlesOf b = s.handlesOf b ++ if a = b then [s.hfresh] else [] := by
  unfold FistqList.handlesOf
  rw [hh, hq, List.range_succ, List.filter_append]
  congr 1
  · exact List.filter_congr fun x hx => by
      rw [Function.update_noteq (List.mem_range.1 hx).ne]
  · by_cases hab : a = b <;> simp [hab]

/-- **Freeing a handle** `fh` takes it off the handles of its fistq. -/
theorem FistqList.handlesOf_free {s' : FistqList} {fh : Nat} (hh : s'.hfresh = s.hfresh)
    (hq : s'.fq = Function.update s.fq fh none) (b : Nat) :
    s'.handlesOf b = (s.handlesOf b).erase fh := by
  unfold FistqList.handlesOf
  rw [hh, hq, List.Nodup.erase_eq_filter ((List.nodup_range _).filter _), List.filter_filter]
  refine List.filter_congr fun x _ => ?_
  by_cases hx : x = fh
  · subst hx
    simp
  · simp [Function.update_noteq hx, hx]

theorem FistqList.mem_handlesOf {a fh : Nat} :
    fh ∈ s.handlesOf a ↔ fh < s.hfresh ∧ s.fq fh = some a := by
  simp [FistqList.handlesOf]

end Handles

/-- **The loop of `fistq_find_unsafe`** over a list of fistqs ends within `fuel` steps when the
list has at most that many, and finds the first one named `(src, dst)`. -/
theorem findFq_chain {s : FistqList} {src dst : String} : ∀ {fuel : Nat} {p : Option Nat}
    {l : List Nat}, Chain s.next p l → l.length ≤ fuel →
      findFq s src dst fuel p = some (l.find? fun a => s.src a = src ∧ s.dst a = dst)
  | fuel, _, [], h, _ => by
    rw [chain_nil.1 h]
    cases fuel <;> rfl
  | 0, _, _ :: _, _, hl => absurd hl (by simp)
  | fuel + 1, _, a :: l, h, hl => by
    obtain ⟨rfl, hl'⟩ := chain_cons.1 h
    rw [findFq, List.find?_cons]
    by_cases hm : s.src a = src ∧ s.dst a = dst
    · rw [if_pos hm, decide_eq_true hm]
    · rw [if_neg hm, decide_eq_false hm]
      exact findFq_chain hl' (by simpa using hl)

/-! ### What the calls write -/

section Writes
variable (s : FistqList) (src dst : String) (a : Nat)

/-- The fields `fistq_create_unsafe` writes, and those it leaves as they were. -/
theorem fistqCreateUnsafe_eq :
    let c := fistqCreateUnsafe s src dst
    c.2 = s.fresh ∧ c.1.headNext = some s.fresh ∧
      c.1.next = Function.update s.next s.fresh s.headNext ∧
      c.1.prev = (match s.headNext with
        | some b => Function.update (Function.update s.prev s.fresh .listHead) b (.fq s.fresh)
        | none => Function.update s.prev s.fresh .listHead) ∧
      c.1.src = Function.update s.src s.fresh src ∧ c.1.dst = Function.update s.dst s.fresh dst ∧
      c.1.refCount = Function.update s.refCount s.fresh 1 ∧ c.1.size = s.size + 1 ∧
      c.1.fresh = s.fresh + 1 ∧ c.1.fq = s.fq ∧ c.1.hfresh = s.hfresh := by
  unfold fistqCreateUnsafe
  dsimp only
  split <;> exact ⟨rfl, rfl, rfl, rfl, rfl, rfl, rfl, rfl, rfl, rfl, rfl⟩

/-- What the unlinking of `a` leaves as it was. -/
theorem FistqList.unlink_frame :
    (s.unlink a).src = s.src ∧ (s.unlink a).dst = s.dst ∧ (s.unlink a).refCount = s.refCount ∧
      (s.unlink a).fresh = s.fresh ∧ (s.unlink a).fq = s.fq ∧ (s.unlink a).hfresh = s.hfresh := by
  rcases hp : s.prev a with _ | p <;> rcases hn : s.next a with _ | b <;>
    simp [FistqList.unlink, hp, hn] <;> split <;> simp

/-- The fields the unlinking of `a` writes, when `a` does not lead back to itself, and those it
leaves as they were. -/
theorem FistqList.unlink_eq (ha : s.prev a ≠ .fq a) :
    (s.unlink a).headNext = (match s.prev a with
        | .listHead => s.next a
        | .fq _ => s.headNext) ∧
      (s.unlink a).next = (match s.prev a with
        | .listHead => s.next
        | .fq p => Function.update s.next p (s.next a)) ∧
      (s.unlink a).prev = (match s.next a with
        | some b => Function.update s.prev b (s.prev a)
        | none => s.prev) ∧
      (s.unlink a).size = s.size - 1 ∧ (s.unlink a).src = s.src ∧ (s.unlink a).dst = s.dst ∧
      (s.unlink a).refCount = s.refCount ∧ (s.unlink a).fresh = s.fresh ∧
      (s.unlink a).fq = s.fq ∧ (s.unlink a).hfresh = s.hfresh := by
  rcases hp : s.prev a with _ | p
  · rcases hn : s.next a with _ | b <;> simp [FistqList.unlink, hp, hn]
  · have hpa : a ≠ p := fun he => ha (he ▸ hp)
    rcases hn : s.next a with _ | b <;> simp [FistqList.unlink, hp, hn, Function.update_noteq hpa]

end Writes

theorem Chain.next_of_mem {next : NextHeap} {a : Nat} {ys : List Nat} :
    ∀ {p : Option Nat} {xs : List Nat}, Chain next p (xs ++ a :: ys) → Chain next (next a) ys
  | _, [], ⟨_, h⟩ => h
  | _, _ :: _, ⟨_, h⟩ => h.next_of_mem

/-! ### The list of fistqs -/

/-- **The shape of the list of fistqs**: following `next` from `fistq_list_head` visits `l`,
following `prev` leads back the same way, the fistqs on it were `calloc`ed and carry distinct
name pairs, and `fistq_list_size` counts them. -/
structure FistqListShape (s : FistqList) (l : List Nat) : Prop where
  chain : Chain s.next s.headNext l
  prev : PrevLinked s.prev .listHead l
  nodup : l.Nodup
  lt : ∀ a ∈ l, a < s.fresh
  names : ∀ a ∈ l, ∀ b ∈ l, s.src a = s.src b → s.dst a = s.dst b → a = b
  size : s.size.toNat = l.length

section Shape
variable {s : FistqList} {l : List Nat}

/-- The shape reads neither `ref_count` nor the handles. -/
theorem FistqListShape.frame (h : FistqListShape s l) (refCount : Nat → Int)
    (fq : Nat → Option Nat) (hfresh : Nat) :
    FistqListShape { s with refCount := refCount, fq := fq, hfresh := hfresh } l :=
  ⟨h.chain, h.prev, h.nodup, h.lt, h.names, h.size⟩

/-- **`fistq_create_unsafe`** puts a new `fistq_t`, named as no fistq on the list is, first on
the list. -/
theorem FistqListShape.create (h : FistqListShape s l) (hf : s.fresh + 1 < 2 ^ 32)
    {src dst : String} (hnew : ∀ b ∈ l, ¬(s.src b = src ∧ s.dst b = dst)) :
    FistqListShape (fistqCreateUnsafe s src dst).1 (s.fresh :: l) := by
  obtain ⟨-, hhead, hnext, hprev, hsrc, hdst, -, hsize, hfr, -, -⟩ :=
    fistqCreateUnsafe_eq s src dst
  have ha : s.fresh ∉ l := fun hm => lt_irrefl _ (h.lt _ hm)
  have hne : ∀ b ∈ l, b ≠ s.fresh := fun b hb he => ha (he ▸ hb)
  refine ⟨?_, ?_, List.nodup_cons.2 ⟨ha, h.nodup⟩, ?_, ?_, ?_⟩
  · rw [hhead, hnext]
    exact ⟨rfl, by rw [Function.update_same]; exact h.chain.update_of_not_mem ha⟩
  · rw [hprev]
    cases l with
    | nil =>
      rw [show s.headNext = none from h.chain]
      exact ⟨Function.update_same _ _ _, trivial⟩
    | cons b l =>
      have hbl : b ∉ l := (List.nodup_cons.1 h.nodup).1
      rw [show s.headNext = some b from h.chain.1]
      dsimp only
      refine ⟨by rw [Function.update_noteq (hne b (List.mem_cons_self _ _)).symm,
        Function.update_same], Function.update_same _ _ _, h.prev.2.congr fun c hc => ?_⟩
      rw [Function.update_noteq fun (he : c = b) => hbl (he ▸ hc),
        Function.update_noteq (hne c (List.mem_cons_of_mem _ hc))]
  · intro a ha'
    rw [hfr]
    rcases List.mem_cons.1 ha' with rfl | hm
    · exact Nat.lt_succ_self _
    · exact Nat.lt_succ_of_lt (h.lt a hm)
  · -- the new name pair is on no other fistq
    have hold : ∀ b ∈ l, (fistqCreateUnsafe s src dst).1.src b = s.src b ∧
        (fistqCreateUnsafe s src dst).1.dst b = s.dst b := fun b hb => by
      rw [hsrc, hdst, Function.update_noteq (hne b hb), Function.update_noteq (hne b hb)]
      exact ⟨rfl, rfl⟩
    have hnew' : ∀ b ∈ l, ¬((fistqCreateUnsafe s src dst).1.src b =
        (fistqCreateUnsafe s src dst).1.src s.fresh ∧ (fistqCreateUnsafe s src dst).1.dst b =
        (fistqCreateUnsafe s src dst).1.dst s.fresh) := fun b hb => by
      rw [(hold b hb).1, (hold b hb).2, hsrc, hdst, Function.update_same, Function.update_same]
      exact hnew b hb
    intro a ha' b hb' hs hd
    rcases List.mem_cons.1 ha' with rfl | ha'' <;> rcases List.mem_cons.1 hb' with rfl | hb''
    · rfl
    · exact absurd ⟨hs.symm, hd.symm⟩ (hnew' b hb'')
    · exact absurd ⟨hs, hd⟩ (hnew' a ha'')
    · rw [(hold a ha'').1, (hold a ha'').2, (hold b hb'').1, (hold b hb'').2] at *
      exact h.names a ha'' b hb'' hs hd
  · rw [hsize, toNat_add', h.size, toNat_one]
    have := length_le_of_lt h.nodup h.lt
    simp only [List.length_cons]
    omega

/-- **Unlinking** a fistq takes it off the list. -/
theorem FistqListShape.unlink {xs ys : List Nat} {a : Nat} (h : FistqListShape s (xs ++ a :: ys)) :
    FistqListShape (s.unlink a) (xs ++ ys) := by
  have hn := h.nodup
  have hsub : (xs ++ ys).Sublist (xs ++ a :: ys) := (List.sublist_cons_self a ys).append_left xs
  have hna : Chain s.next (s.next a) ys := h.chain.next_of_mem
  obtain ⟨hhead, hnext, hprev, hsize, hsrc, hdst, -, hfr, -, -⟩ :=
    s.unlink_eq a (h.prev.ne_self hn (fun _ => nofun) a (by simp))
  have hlinks : Chain (s.unlink a).next (s.unlink a).headNext (xs ++ ys) ∧
      PrevLinked (s.unlink a).prev .listHead (xs ++ ys) := by
    rw [hprev]
    rcases List.eq_nil_or_concat xs with rfl | ⟨xs', p, rfl⟩
    · -- `a` is first: `fistq_list_head.next = a->next`
      have hpa : s.prev a = .listHead := h.prev.1
      simp only [hpa] at hhead hnext
      refine ⟨by rw [hhead, hnext]; exact hna, ?_⟩
      cases ys with
      | nil => simp only [show s.next a = none from hna]; trivial
      | cons b ys =>
        simp only [show s.next a = some b from hna.1]
        simpa [hpa] using h.prev.unlink [] hn
    · -- `a` follows `p`: `p->next = a->next`
      simp only [List.concat_eq_append, List.append_assoc, List.singleton_append] at h hn ⊢
      have hpa : s.prev a = .fq p := h.prev.prev_after
      simp only [hpa] at hhead hnext
      refine ⟨by rw [hhead, hnext]; exact h.chain.bypass hn, ?_⟩
      cases ys with
      | nil =>
        simp only [show s.next a = none from hna]
        simpa using PrevLinked.of_append (xs' ++ [p]) [a] (by simpa using h.prev)
      | cons b ys =>
        simp only [show s.next a = some b from hna.1, hpa]
        have hu := PrevLinked.unlink (xs' ++ [p]) (by simpa using h.prev) (by simpa using hn)
        rw [hpa] at hu
        simpa using hu
  refine ⟨hlinks.1, hlinks.2, hn.sublist hsub, fun b hb => hfr ▸ h.lt b (hsub.subset hb),
    fun b hb c hc => ?_, ?_⟩
  · rw [hsrc, hdst]
    exact h.names b (hsub.subset hb) c (hsub.subset hc)
  · have := h.size
    have := toNat_lt_two_pow s.size
    simp only [List.length_append, List.length_cons] at *
    rw [hsize, toNat_sub', toNat_one]
    omega

end Shape

/-! ### Handles and reference counts -/

/-- **The invariant of the list of fistqs**: its shape, every live handle is connected to a fistq
on the list, and each fistq on it has its number of live handles, at least one, as `ref_count`. -/
structure FistqListInv (s : FistqList) (l : List Nat) extends FistqListShape s l : Prop where
  fq : ∀ fh a, s.fq fh = some a → fh < s.hfresh ∧ a ∈ l
  refCount : ∀ a ∈ l, s.refCount a = (s.handlesOf a).length ∧ s.handlesOf a ≠ []

theorem fistqListInv_init : FistqListInv .init [] :=
  ⟨⟨rfl, trivial, List.nodup_nil, nofun, nofun, rfl⟩, fun _ _ h => Option.noConfusion h, nofun⟩

section Inv
variable {s : FistqList} {l : List Nat}

/-- **Connecting the new handle** `hfresh` to the fistq `a`, in a state `t` of the shape `l'`
whose `ref_count` of `a` counts the new handle as well. -/
theorem FistqListInv.connect (h : FistqListInv s l) {t : FistqList} {l' : List Nat} {a : Nat}
    (ht : FistqListShape t l') (hh : t.hfresh = s.hfresh + 1) (hq : t.fq = s.fq)
    (hl : ∀ b ∈ l, b ∈ l') (ha : a ∈ l') (hrc : t.refCount a = (s.handlesOf a).length + 1)
    (hb : ∀ b ∈ l', b ≠ a → b ∈ l ∧ t.refCount b = s.refCount b) :
    FistqListInv { t with fq := Function.update t.fq s.hfresh (some a) } l' := by
  have hconn : ∀ b, FistqList.handlesOf { t with fq := Function.update t.fq s.hfresh (some a) } b =
      s.handlesOf b ++ if a = b then [s.hfresh] else [] :=
    FistqList.handlesOf_connect hh (by rw [hq])
  refine ⟨ht.frame t.refCount _ t.hfresh, fun fh b hfb => ?_, fun b hb' => ?_⟩
  · dsimp only at hfb ⊢
    rw [hh]
    by_cases hfh : fh = s.hfresh
    · subst hfh
      rw [Function.update_same] at hfb
      cases hfb
      exact ⟨Nat.lt_succ_self _, ha⟩
    · rw [Function.update_noteq hfh, hq] at hfb
      exact ⟨Nat.lt_succ_of_lt (h.fq fh b hfb).1, hl _ (h.fq fh b hfb).2⟩
  · rw [hconn]
    by_cases hab : a = b
    · subst hab
      simp [hrc]
    · obtain ⟨hbl, hrb⟩ := hb b hb' (Ne.symm hab)
      obtain ⟨hrc', hne'⟩ := h.refCount b hbl
      simp [hab, hrb, hrc', hne']

/-- **`fistq_getHandle`** with two non-empty names returns a new handle, connected to the fistq
named by them: the one on the list, or a new one. -/
theorem FistqListInv.getHandle (h : FistqListInv s l) (hf : s.fresh + 1 < 2 ^ 32)
    {src dst : String} (hne : ¬(src = "" ∨ dst = "")) :
    ∃ s' l' a, fistqGetHandle s src dst = some (s', some s.hfresh) ∧ FistqListInv s' l' ∧
      s'.fq s.hfresh = some a ∧ s'.src a = src ∧ s'.dst a = dst ∧ s'.hfresh = s.hfresh + 1 ∧
      (a ∈ l ∧ l' = l ∧ s'.fresh = s.fresh ∨
        a = s.fresh ∧ l' = s.fresh :: l ∧ s'.fresh = s.fresh + 1) ∧
      (∀ fh, fh ≠ s.hfresh → s'.fq fh = s.fq fh) ∧
      ∀ b < s.fresh, s'.src b = s.src b ∧ s'.dst b = s.dst b := by
  have hfind : findFq { s with hfresh := s.hfresh + 1 } src dst s.fresh s.headNext =
      some (l.find? fun a => s.src a = src ∧ s.dst a = dst) :=
    findFq_chain h.chain (length_le_of_lt h.nodup h.lt)
  simp only [fistqGetHandle, if_neg hne, fistqFindUnsafe, hfind, Option.map_some']
  cases hl : l.find? (fun a => decide (s.src a = src ∧ s.dst a = dst)) with
  | some a =>
    -- `fistq_find_unsafe` finds `a` and raises its `ref_count`
    dsimp only
    have hal : a ∈ l := List.mem_of_find?_eq_some hl
    have hna : s.src a = src ∧ s.dst a = dst := by simpa using List.find?_some hl
    refine ⟨_, l, a, rfl, h.connect (h.frame _ s.fq _) rfl rfl (fun _ => id) hal ?_ ?_,
      Function.update_same _ _ _, hna.1, hna.2, rfl, .inl ⟨hal, rfl, rfl⟩,
      fun fh hfh => Function.update_noteq hfh _ _, fun _ _ => ⟨rfl, rfl⟩⟩
    · show Function.update s.refCount a (s.refCount a + 1) a = _
      rw [Function.update_same, (h.refCount a hal).1]
    · exact fun b hb hba => ⟨hb, Function.update_noteq hba _ _⟩
  | none =>
    -- `fistq_create_unsafe` makes a fistq named `(src, dst)`
    have hnew : ∀ b ∈ l, ¬(s.src b = src ∧ s.dst b = dst) := fun b hb hm => by
      simpa [hm] using List.find?_eq_none.1 hl b hb
    have hfresh : s.handlesOf s.fresh = [] := List.filter_eq_nil_iff.2 fun fh _ he =>
      lt_irrefl _ (h.lt _ (h.fq fh _ (of_decide_eq_true he)).2)
    obtain ⟨hc2, -, -, -, hsrc, hdst, hrc, -, hfr, hfq, hhf⟩ :=
      fistqCreateUnsafe_eq { s with hfresh := s.hfresh + 1 } src dst
    dsimp only at hc2 hsrc hdst hrc hfr hfq hhf ⊢
    rw [hc2]
    have hne' : ∀ b < s.fresh, b ≠ s.fresh := fun _ hb => hb.ne
    refine ⟨_, s.fresh :: l, s.fresh, rfl,
      h.connect ((h.frame s.refCount s.fq (s.hfresh + 1)).create hf hnew) hhf hfq
        (fun _ => List.mem_cons_of_mem _)
        (List.mem_cons_self _ _) ?_ ?_, Function.update_same _ _ _, ?_, ?_, hhf,
      .inr ⟨rfl, rfl, by simp [hfr]⟩, fun fh hfh => ?_, fun b hb => ?_⟩
    · simp [hrc, hfresh]
    · intro b hb hbf
      exact ⟨(List.mem_cons.1 hb).resolve_left hbf, by rw [hrc, Function.update_noteq hbf]⟩
    · simp [hsrc]
    · simp [hdst]
    · simp [hfq, Function.update_noteq hfh]
    · simp [hsrc, hdst, Function.update_noteq (hne' b hb)]

/-- The handle `x` of a fistq whose `ref_count` is 1 is its only handle. -/
theorem FistqListInv.handlesOf_eq_singleton (h : FistqListInv s l) {x a : Nat}
    (hxa : s.fq x = some a) (h1 : s.refCount a = 1) : s.handlesOf a = [x] := by
  have hx : x ∈ s.handlesOf a := FistqList.mem_handlesOf.2 ⟨(h.fq x a hxa).1, hxa⟩
  obtain ⟨y, hy⟩ := List.length_eq_one.1 (by
    rw [← Int.ofNat_inj, ← (h.refCount a (h.fq x a hxa).2).1, h1]; rfl)
  rw [hy, List.mem_singleton] at hx
  rw [hy, hx]

/-- **Freeing the handle** `x` of the fistq `a`, in a state `u` of the shape `l'` that lowered
the `ref_count` of `a` by one and took `a` off the list when `x` was its last handle. -/
theorem FistqListInv.free (h : FistqListInv s l) {u : FistqList} {l' : List Nat} {x a : Nat}
    (hxa : s.fq x = some a) (hu : FistqListShape u l') (hh : u.hfresh = s.hfresh)
    (hq : u.fq = s.fq) (hl : ∀ b, b ∈ l' ↔ b ∈ l ∧ (b ≠ a ∨ s.refCount a ≠ 1))
    (hrc : ∀ b ∈ l', u.refCount b = s.refCount b - if b = a then 1 else 0) :
    FistqListInv { u with fq := Function.update u.fq x none } l' := by
  have hx : x ∈ s.handlesOf a := FistqList.mem_handlesOf.2 ⟨(h.fq x a hxa).1, hxa⟩
  have hfree : ∀ b, FistqList.handlesOf { u with fq := Function.update u.fq x none } b =
      (s.handlesOf b).erase x :=
    FistqList.handlesOf_free hh (by rw [hq])
  refine ⟨hu.frame u.refCount _ u.hfresh, fun y b hyb => ?_, fun b hb => ?_⟩
  · dsimp only at hyb ⊢
    have hyx : y ≠ x := by
      rintro rfl
      simp at hyb
    rw [Function.update_noteq hyx, hq] at hyb
    obtain ⟨hy, hbl⟩ := h.fq y b hyb
    refine ⟨hh ▸ hy, (hl b).2 ⟨hbl, not_and_or.1 fun ⟨hba, h1⟩ => hyx ?_⟩⟩
    -- otherwise `x` is the only handle of `a`, and `y` another one
    subst hba
    have hy' : y ∈ s.handlesOf b := FistqList.mem_handlesOf.2 ⟨hy, hyb⟩
    rwa [h.handlesOf_eq_singleton hxa h1, List.mem_singleton] at hy'
  · obtain ⟨hbl, hba'⟩ := (hl b).1 hb
    obtain ⟨hrcb, hne⟩ := h.refCount b hbl
    rw [hfree]
    show u.refCount b = _ ∧ _
    rw [hrc b hb]
    by_cases hba : b = a
    · subst hba
      have h1 : s.refCount b ≠ 1 := hba'.resolve_left (not_not.2 rfl)
      have hlen := List.length_erase_of_mem hx
      have hpos := List.length_pos_of_mem hx
      rw [hrcb] at h1 ⊢
      refine ⟨by rw [if_pos rfl, hlen]; omega, List.ne_nil_of_length_pos ?_⟩
      omega
    · rw [if_neg hba, List.erase_of_not_mem fun hm =>
        hba (Option.some.inj ((FistqList.mem_handlesOf.1 hm).2.symm.trans hxa))]
      exact ⟨by simp [hrcb], hne⟩

/-- **`fistq_destroyHandle`** of a live handle frees it and lowers the `ref_count` of its fistq,
which it unlinks when that reaches zero. -/
theorem FistqListInv.destroyHandle (h : FistqListInv s l) {x a : Nat} (hxa : s.fq x = some a) :
    ∃ s' l', fistqDestroyHandle s (some x) = some (s', 0) ∧ FistqListInv s' l' ∧
      s'.hfresh = s.hfresh ∧ s'.fresh = s.fresh ∧ s'.src = s.src ∧ s'.dst = s.dst ∧
      s'.fq = Function.update s.fq x none ∧ s'.refCount a = s.refCount a - 1 ∧
      ∀ b, b ∈ l' ↔ b ∈ l ∧ (b ≠ a ∨ s.refCount a ≠ 1) := by
  have hal := (h.fq x a hxa).2
  have ht := h.frame (Function.update s.refCount a (s.refCount a - 1)) s.fq s.hfresh
  have hrc : ∀ b, Function.update s.refCount a (s.refCount a - 1) b =
      s.refCount b - if b = a then 1 else 0 := fun b => by
    rcases eq_or_ne b a with rfl | hba
    · simp
    · simp [hba]
  simp only [fistqDestroyHandle, hxa, Option.map_some']
  split_ifs with h0
  · -- `x` was the last handle of `a`: `a` leaves the list
    obtain ⟨xs, ys, rfl⟩ := List.append_of_mem hal
    obtain ⟨hsrc, hdst, hrc', hfr, hfq, hhf⟩ :=
      FistqList.unlink_frame
        { s with refCount := Function.update s.refCount a (s.refCount a - 1) } a
    have ha : a ∉ xs ++ ys := (List.nodup_cons.1 (List.nodup_middle.1 h.nodup)).1
    have hl : ∀ b, b ∈ xs ++ ys ↔ b ∈ xs ++ a :: ys ∧ (b ≠ a ∨ s.refCount a ≠ 1) := fun b => by
      rcases eq_or_ne b a with rfl | hba
      · simp [ha, show s.refCount b = 1 by omega]
      · simp [hba]
    refine ⟨_, xs ++ ys, rfl, h.free hxa ht.unlink hhf hfq hl
      (fun b _ => by rw [hrc']; exact hrc b), hhf, hfr, hsrc, hdst,
      congrArg (Function.update · x none) hfq, (congrFun hrc' a).trans (Function.update_same _ _ _),
      hl⟩
  · -- `a` keeps its other handles
    have hl : ∀ b, b ∈ l ↔ b ∈ l ∧ (b ≠ a ∨ s.refCount a ≠ 1) := fun _ =>
      iff_self_and.2 fun _ => .inr fun h1 => h0 (by rw [h1]; rfl)
    exact ⟨_, l, rfl, h.free hxa ht rfl rfl hl (fun b _ => hrc b), rfl, rfl, rfl, rfl, rfl,
      Function.update_same _ _ _, hl⟩

end Inv

/-! ### Runs -/

/-- The handles `opened` so far, each with the names `fistq_getHandle` was called with: they are
the handles `calloc`ed, in order, and a live one is connected to a fistq of those names. -/
structure Opened (s : FistqList) (opened : List (Nat × String × String)) : Prop where
  handles : opened.map Prod.fst = List.range s.hfresh
  names : ∀ p ∈ opened, ∀ a, s.fq p.1 = some a → s.src a = p.2.1 ∧ s.dst a = p.2.2

section Runs
variable {s : FistqList} {l : List Nat} {o : List (Nat × String × String)}

theorem Opened.lt (ho : Opened s o) {p : Nat × String × String} (hp : p ∈ o) : p.1 < s.hfresh :=
  List.mem_range.1 (ho.handles ▸ List.mem_map_of_mem _ hp)

/-- A new handle opened on `(src, dst)`. -/
theorem Opened.getHandle (h : FistqListInv s l) (ho : Opened s o) (hf : s.fresh + 1 < 2 ^ 32)
    {src dst : String} (hne : ¬(src = "" ∨ dst = "")) :
    ∃ s' l', fistqGetHandle s src dst = some (s', some s.hfresh) ∧ FistqListInv s' l' ∧
      Opened s' (o ++ [(s.hfresh, src, dst)]) ∧ s'.fresh ≤ s.fresh + 1 := by
  obtain ⟨s', l', a, hg, h', hfq, hsrc, hdst, hhf, hl', hold, hnames⟩ := h.getHandle hf hne
  refine ⟨s', l', hg, h', ⟨by rw [List.map_append, ho.handles, hhf, List.range_succ]; rfl, ?_⟩,
    by rcases hl' with ⟨-, -, hfr⟩ | ⟨-, -, hfr⟩ <;> omega⟩
  intro p hp b hb
  rcases List.mem_append.1 hp with hp | hp
  · -- a handle opened before keeps its fistq, whose names stay
    rw [hold _ (ho.lt hp).ne] at hb
    rw [(hnames b (h.lt b (h.fq _ _ hb).2)).1, (hnames b (h.lt b (h.fq _ _ hb).2)).2]
    exact ho.names p hp b hb
  · rw [List.mem_singleton.1 hp] at hb ⊢
    rw [hfq] at hb
    cases hb
    exact ⟨hsrc, hdst⟩

/-- **Every run keeps the invariant**, and the handles it opens join those opened before. -/
theorem FistqListInv.run : ∀ {calls : List FistqListCall} {s s' : FistqList} {l : List Nat}
    {o o' : List (Nat × String × String)}, FistqListInv s l → Opened s o →
    s.fresh + calls.length < 2 ^ 32 → fistqListRun s calls = some (s', o') →
    ∃ l', FistqListInv s' l' ∧ Opened s' (o ++ o')
  | [], _, _, _, _, _, h, ho, _, hr => by
    cases hr
    exact ⟨_, h, by simpa using ho⟩
  | .getHandle src dst :: cs, s, _, l, o, _, h, ho, hlen, hr => by
    obtain ⟨r, hr₁, hr₂⟩ := Option.bind_eq_some.1 hr
    obtain ⟨⟨s₂, o₂⟩, ht, he⟩ := Option.map_eq_some'.1 hr₂
    obtain ⟨rfl, rfl⟩ := Prod.mk.inj he
    have hlen' : s.fresh + 1 + cs.length < 2 ^ 32 := by
      simp only [List.length_cons] at hlen
      omega
    by_cases hne : src = "" ∨ dst = ""
    · -- `NULL`, with nothing allocated
      simp only [fistqGetHandle, if_pos hne, Option.some.injEq] at hr₁
      subst hr₁
      simpa using FistqListInv.run h ho (by omega) ht
    · obtain ⟨s₁, l₁, hg, h₁, ho₁, hfr⟩ := ho.getHandle h (by omega) hne
      rw [hg, Option.some.injEq] at hr₁
      subst hr₁
      obtain ⟨l', h', ho'⟩ := FistqListInv.run h₁ ho₁ (by omega) ht
      exact ⟨l', h', by simpa using ho'⟩
  | .destroyHandle fh :: cs, s, _, l, o, _, h, ho, hlen, hr => by
    obtain ⟨⟨s₁, r⟩, hr₁, hr₂⟩ := Option.bind_eq_some.1 hr
    simp only [List.length_cons] at hlen
    rcases fh with _ | x
    · -- `NULL`
      cases hr₁
      exact FistqListInv.run h ho (by omega) hr₂
    obtain ⟨a, hxa, -⟩ := Option.map_eq_some'.1 hr₁
    obtain ⟨s', l₁, hd, h₁, hhf, hfr, hsrc, hdst, hfq, -, -⟩ := h.destroyHandle hxa
    rw [hd] at hr₁
    cases hr₁
    refine FistqListInv.run h₁ ⟨hhf ▸ ho.handles, fun p hp b hb => ?_⟩ (by omega) hr₂
    have hpx : p.1 ≠ x := by
      rintro he
      rw [hfq, he, Function.update_same] at hb
      cases hb
    rw [hfq, Function.update_noteq hpx] at hb
    rw [hsrc, hdst]
    exact ho.names p hp b hb

/-- **Handles share a fistq exactly when they were opened on one pair of names**: in every state
a run reaches, the handles `calloc`ed are those `fistq_getHandle` returned, in order; two live
ones are connected to one `fistq_t` if and only if they were opened with the same `(src, dst)`;
and following `next` from `fistq_list_head` visits a list, linked back by `prev` and counted by
`fistq_list_size`, of exactly the fistqs with live handles, each with its number of live handles
as `ref_count`. -/
theorem fistqListRun_shared {calls : List FistqListCall} {s : FistqList}
    {opened : List (Nat × String × String)} (hlen : calls.length < 2 ^ 32)
    (hrun : fistqListRun .init calls = some (s, opened)) :
    opened.map Prod.fst = List.range s.hfresh ∧
      (∀ p ∈ opened, ∀ q ∈ opened, ∀ a b, s.fq p.1 = some a → s.fq q.1 = some b →
        (a = b ↔ p.2 = q.2)) ∧
      ∃ l, Chain s.next s.headNext l ∧ PrevLinked s.prev .listHead l ∧ l.Nodup ∧
        s.size.toNat = l.length ∧
        ∀ a, (a ∈ l ↔ s.handlesOf a ≠ []) ∧ (a ∈ l → s.refCount a = (s.handlesOf a).length) := by
  obtain ⟨l, h, ho⟩ := fistqListInv_init.run (show Opened .init [] from ⟨rfl, nofun⟩)
    (by simpa [FistqList.init] using hlen) hrun
  rw [List.nil_append] at ho
  refine ⟨ho.handles, fun p hp q hq a b ha hb => ?_, l, h.chain, h.prev, h.nodup, h.size,
    fun a => ⟨⟨fun ha => (h.refCount a ha).2, fun ha => ?_⟩, fun ha => (h.refCount a ha).1⟩⟩
  · obtain ⟨hpa, hpd⟩ := ho.names p hp a ha
    obtain ⟨hqb, hqd⟩ := ho.names q hq b hb
    constructor
    · rintro rfl
      exact Prod.ext (hpa.symm.trans hqb) (hpd.symm.trans hqd)
    · intro he
      exact h.names a (h.fq _ _ ha).2 b (h.fq _ _ hb).2 (by rw [hpa, hqb, he])
        (by rw [hpd, hqd, he])
  · obtain ⟨fh, hfh⟩ := List.exists_mem_of_ne_nil _ ha
    exact (h.fq fh a (FistqList.mem_handlesOf.1 hfh).2).2

/-- The pd3 aggregator and two clients open handles on `(FISTQ_SRC, FISTQ_DST)`, a third caller
opens one with an empty name and gets `NULL`, and the clients close theirs. -/
theorem fistqListRun_shared_pd3 :
    ∃ s opened, fistqListRun .init [.getHandle "pd3_estimator_client" "pd3_estimator_aggregator",
      .getHandle "pd3_estimator_client" "pd3_estimator_aggregator",
      .getHandle "" "pd3_estimator_aggregator",
      .getHandle "pd3_estimator_client" "pd3_estimator_aggregator",
      .destroyHandle (some 1), .destroyHandle none, .destroyHandle (some 2)] = some (s, opened) ∧
    (opened.map Prod.fst = List.range s.hfresh ∧
      (∀ p ∈ opened, ∀ q ∈ opened, ∀ a b, s.fq p.1 = some a → s.fq q.1 = some b →
        (a = b ↔ p.2 = q.2)) ∧
      ∃ l, Chain s.next s.headNext l ∧ PrevLinked s.prev .listHead l ∧ l.Nodup ∧
        s.size.toNat = l.length ∧
        ∀ a, (a ∈ l ↔ s.handlesOf a ≠ []) ∧ (a ∈ l → s.refCount a = (s.handlesOf a).length)) :=
  ⟨_, _, rfl, @fistqListRun_shared [.getHandle "pd3_estimator_client" "pd3_estimator_aggregator",
    .getHandle "pd3_estimator_client" "pd3_estimator_aggregator",
    .getHandle "" "pd3_estimator_aggregator",
    .getHandle "pd3_estimator_client" "pd3_estimator_aggregator",
    .destroyHandle (some 1), .destroyHandle none, .destroyHandle (some 2)] _ _ (by decide) rfl⟩

end Runs

end Pd3Estimator
