import Trampoline.Proofs.Reservation

/-!
What the counters of a heap add up to.

A ledger is kept beside a heap through any sequence of operations: what each collection left, what
was granted at the last checkpoint, and the blocks that were handed out since. The sizes and counters
of the heap can all be told from it, and so can whether the next block will be handed out.
-/

namespace Trampoline.Heap

variable {w : Width}

structure Extent where
  offset : Nat
  words : Nat
deriving DecidableEq, Repr

/-- What the operations on a heap so far amount to. -/
structure Ledger where
  /-- Words that each collection left, the last collection first. -/
  lives : List Nat
  /-- Words handed out since the last collection. -/
  since : Nat
  /-- The heap pointer at the last checkpoint. -/
  start : Nat
  /-- Words granted there. -/
  granted : Nat
  /-- What was handed out since, the last block first. -/
  blocks : List Extent
deriving DecidableEq, Repr

namespace Ledger

def opening : Ledger := ⟨[], 0, 0, 0, []⟩

def taken (l : Ledger) : Nat := (l.blocks.map Extent.words).sum

def collect (l : Ledger) (live : Nat) : Ledger := ⟨live :: l.lives, 0, live, 0, []⟩

def grant (l : Ledger) (hp words : Nat) : Ledger :=
  { l with start := hp, granted := words, blocks := [] }

def handOut (l : Ledger) (b : Extent) : Ledger :=
  { l with since := l.since + b.words, blocks := b :: l.blocks }

end Ledger

/-- Words are copied to the front of a new block, and the block is written then. -/
def copying (source : Ref) (count : Nat) (contents : List (Word w)) : Alloc w Nat := do
  let offset ← Alloc.bumpCopy contents.length source count
  Alloc.fill offset contents
  return offset

/-- The words that are copied first are all written over. -/
theorem complete_copying (source : Ref) (count : Nat) (contents : List (Word w)) (h : Heap w) :
    (copying source count contents).complete h =
      (h.planCopy contents.length source count).map fun q => (q.1, h.place contents) := by
  rcases Alloc.bumpCopy_cases h contents.length source count with
    ⟨t, _, hplan, hcopy, _⟩ | ⟨copied, hplan, hcopy⟩
  · have hx : copying source count contents h = _ := bind_of_error hcopy
    rw [Alloc.complete, hx, hplan]
    rfl
  · obtain ⟨hcount, _, _, _, hcopied⟩ := planCopy_eq_ok hplan
    have hlength : copied.length ≤ contents.length := by
      rw [hcopied, Space.length_segment]
      exact hcount
    have hspace := h.space.write_write h.hp hlength
    have hx : copying source count contents h = .ok h.hp (h.place contents) := by
      rw [place, ← hspace]
      exact bind_of_ok hcopy
    rw [Alloc.complete, hx, hplan]
    rfl

theorem complete_copying_eq_ok {source : Ref} {count : Nat} {contents : List (Word w)} {h : Heap w}
    {q : Nat × Heap w} (hcopy : (copying source count contents).complete h = .ok q) :
    h.hp + contents.length ≤ h.limit ∧ q = (h.hp, h.place contents) := by
  rw [complete_copying] at hcopy
  cases hplan : h.planCopy contents.length source count with
  | error t =>
    rw [hplan] at hcopy
    cases hcopy
  | ok p =>
    obtain ⟨offset, copied⟩ := p
    rw [hplan] at hcopy
    obtain ⟨_, rfl, hfit, _⟩ := planCopy_eq_ok hplan
    cases hcopy
    exact ⟨hfit, rfl⟩

/-- What can be done with a heap. The contents of a block are as they are once the block has been
written to, also where words are copied into it first. -/
inductive Operation (w : Width) where
  | reserve (words : Nat) (roots : List (Word w))
  | collect (roots : List (Word w))
  | alloc (contents : List (Word w))
  | copy (source : Ref) (count : Nat) (contents : List (Word w))

namespace Operation

/-- Carry out an operation, and enter it into the ledger. -/
def perform (h : Heap w) (l : Ledger) : Operation w → Except (Trap w) (Heap w × Ledger)
  | reserve words roots => do
    let c ← h.reserve words roots
    let l := if words ≤ h.free then l else l.collect c.heap.hp
    return (c.heap, if c.shortage.isNone then l.grant c.heap.hp words else l)
  | collect roots => do
    let c ← h.collect roots
    return (c.heap, l.collect c.heap.hp)
  | alloc contents => do
    let (offset, k) ← (Alloc.store contents).complete h
    return (k, l.handOut ⟨offset, contents.length⟩)
  | copy source count contents => do
    let (offset, k) ← (copying source count contents).complete h
    return (k, l.handOut ⟨offset, contents.length⟩)

def performs : List (Operation w) → Heap w → Ledger → Except (Trap w) (Heap w × Ledger)
  | [], h, l => .ok (h, l)
  | op :: ops, h, l => do
    let (h, l) ← op.perform h l
    performs ops h l

/-- Does the operation collect? A reservation does when its words are not free. -/
def collects (h : Heap w) : Operation w → Bool
  | reserve words _ => h.free < words
  | collect _ => true
  | alloc _ => false
  | copy _ _ _ => false

end Operation

/-- Blocks, the last one first, that follow each other without gaps from `start` up to `top`. -/
def Consecutive (start : Nat) : List Extent → Nat → Prop
  | [], top => top = start
  | b :: bs, top => b.offset + b.words = top ∧ Consecutive start bs b.offset

/-- A heap is in order, and its ledger is right. -/
structure Balanced (s : HeapSettings) (h : Heap w) (l : Ledger) : Prop where
  settings : h.settings = s
  hp_le : h.hp ≤ h.limit
  limit_le : h.limit ≤ h.capacity
  initial_le : s.initialWords ≤ h.capacity
  capacity_le : h.capacity ≤ s.maxWords
  max_le : s.maxWords ≤ w.maxOffset
  peak : h.stats.peakCapacity = h.capacity
  grows_le : h.stats.grows ≤ h.stats.collections
  collections : h.stats.collections = l.lives.length
  copied : h.stats.wordsCopied = l.lives.sum
  live : h.stats.lastLiveWords = l.lives.headD 0
  hp_eq : h.hp = h.stats.lastLiveWords + l.since
  limit_eq : h.limit = l.start + l.granted
  consecutive : Consecutive l.start l.blocks h.hp

/-- As many operations count no more than this, so that for a long time no counter comes to the end
of its range. -/
structure Tallied (s : HeapSettings) (n : Nat) (h : Heap w) : Prop where
  collections : h.stats.collections ≤ n
  allocated : h.stats.wordsAllocated ≤ n * s.maxWords
  copied : h.stats.wordsCopied ≤ n * s.maxWords

/-! ### Blocks that follow each other -/

namespace Consecutive

variable {start top : Nat} {bs : List Extent}

theorem top_eq (C : Consecutive start bs top) : top = start + (bs.map Extent.words).sum := by
  induction bs generalizing top with
  | nil => exact C
  | cons b bs ih =>
    obtain ⟨rfl, C⟩ := C
    rw [ih C, List.map_cons, List.sum_cons]
    omega

theorem within (C : Consecutive start bs top) :
    ∀ b ∈ bs, start ≤ b.offset ∧ b.offset + b.words ≤ top := by
  induction bs generalizing top with
  | nil => simp
  | cons b bs ih =>
    obtain ⟨rfl, C⟩ := C
    have hstart := C.top_eq
    refine List.forall_mem_cons.mpr ⟨⟨by omega, Nat.le_refl _⟩, fun a ha => ?_⟩
    have hwithin := ih C a ha
    omega

theorem apart (C : Consecutive start bs top) :
    bs.Pairwise fun b a => a.offset + a.words ≤ b.offset := by
  induction bs generalizing top with
  | nil => exact .nil
  | cons b bs ih => exact .cons (fun a ha => (C.2.within a ha).2) (ih C.2)

end Consecutive

/-! ### One operation -/

variable {s : HeapSettings} {h h' : Heap w} {l l' : Ledger}

theorem balanced_vacant (hvalid : s.validate w = .ok ()) :
    (vacant s : Heap w).Balanced s .opening where
  settings := rfl
  hp_le := Nat.le_refl _
  limit_le := Nat.zero_le _
  initial_le := Nat.le_refl _
  capacity_le := (Machine.validate_heap hvalid).1
  max_le := (Machine.validate_heap hvalid).2
  peak := rfl
  grows_le := Nat.le_refl _
  collections := rfl
  copied := rfl
  live := rfl
  hp_eq := rfl
  limit_eq := rfl
  consecutive := rfl

theorem tallied_vacant (s : HeapSettings) : (vacant s : Heap w).Tallied s 0 :=
  ⟨Nat.le_refl 0, Nat.zero_le _, Nat.zero_le _⟩

namespace Balanced

theorem bounded (B : h.Balanced s l) : h.Bounded where
  hp_le := B.hp_le.trans B.limit_le
  limit_le := B.limit_le
  capacity_le := B.settings ▸ B.capacity_le
  max_le := B.settings ▸ B.max_le

theorem hp_eq_taken (B : h.Balanced s l) : h.hp = l.start + l.taken := B.consecutive.top_eq

/-- A collection leaves a heap in order, with one more entry in the ledger. -/
theorem collectFor (B : h.Balanced s l) {words : Nat} {roots : List (Word w)} {c : Checkpoint w}
    (hc : h.collectFor words roots = .ok c) :
    c.heap.Balanced s (l.collect c.heap.hp) ∧ h.capacity ≤ c.heap.capacity := by
  obtain ⟨hhp, hlimit, hset, hcap, hstats, _⟩ := collectFor_collected hc
  have hkeep := h.capacity_le_capacityFor c.heap.hp words
  have hmax := B.bounded.capacityFor_le c.heap.hp words
  rw [B.settings, ← hcap] at hmax
  rw [← hcap] at hkeep
  have hgrows := B.grows_le
  refine ⟨?_, hkeep⟩
  exact
    { settings := hset.trans B.settings
      hp_le := hlimit.ge
      limit_le := hlimit.trans_le (hhp.trans hkeep)
      initial_le := B.initial_le.trans hkeep
      capacity_le := hmax
      max_le := B.max_le
      peak := by
        rw [hstats, ← hcap]
        have hpeak := B.peak
        dsimp only
        split <;> omega
      grows_le := by
        rw [hstats]
        dsimp only
        split <;> omega
      collections := by rw [hstats]; exact congrArg (· + 1) B.collections
      copied := by rw [hstats]; simp [Ledger.collect, B.copied, Nat.add_comm]
      live := by rw [hstats]; rfl
      hp_eq := by rw [hstats]; rfl
      limit_eq := hlimit
      consecutive := rfl }

theorem grant (B : h.Balanced s l) {words : Nat} (hfree : words ≤ h.free) :
    (h.grant words).Balanced s (l.grant h.hp words) :=
  { B with
    hp_le := Nat.le_add_right _ _
    limit_le := (B.bounded.grant hfree).limit_le
    limit_eq := rfl
    consecutive := rfl }

/-- A block that fits is handed out at the heap pointer. -/
theorem place (B : h.Balanced s l) {contents : List (Word w)}
    (hfit : h.hp + contents.length ≤ h.limit) :
    (h.place contents).Balanced s (l.handOut ⟨h.hp, contents.length⟩) := by
  have hcap : (h.place contents).capacity = h.capacity := Space.write_capacity _ _ _
  exact
    { settings := B.settings
      hp_le := hfit
      limit_le := hcap ▸ B.limit_le
      initial_le := hcap ▸ B.initial_le
      capacity_le := hcap ▸ B.capacity_le
      max_le := B.max_le
      peak := hcap ▸ B.peak
      grows_le := B.grows_le
      collections := B.collections
      copied := B.copied
      live := B.live
      hp_eq := by
        have hhp := B.hp_eq
        simp only [Heap.place, Ledger.handOut] at *
        omega
      limit_eq := B.limit_eq
      consecutive := ⟨rfl, B.consecutive⟩ }

/-- What a reservation leaves: the words are granted on the heap as it is, or there is a collection,
and they are granted on what it leaves unless they are missing there. -/
theorem reserve (B : h.Balanced s l) {words : Nat} {roots : List (Word w)} {c : Checkpoint w}
    (hc : h.reserve words roots = .ok c) :
    words ≤ h.free ∧ c.shortage = none ∧ c.heap = h.grant words ∨
    h.free < words ∧ h.capacity ≤ c.heap.capacity ∧
      c.heap.stats.collections = h.stats.collections + 1 ∧
      c.heap.Balanced s (if c.shortage.isNone then (l.collect c.heap.hp).grant c.heap.hp words
        else l.collect c.heap.hp) := by
  obtain ⟨hfree, rfl⟩ | ⟨hfree, hc⟩ := reserve_eq_ok hc
  · exact .inl ⟨hfree, rfl, rfl⟩
  · obtain ⟨d, hd, hrest⟩ := of_except_bind_eq_ok hc
    obtain ⟨B', hkeep⟩ := B.collectFor hd
    have hcount := (collectFor_counts hd).2
    refine .inr ⟨Nat.not_le.mp hfree, ?_⟩
    split at hrest
    · cases hrest
      exact ⟨hkeep, hcount, B'⟩
    · next hroom =>
      cases hrest
      rw [(collectFor_collected hd).granted]
      exact ⟨hkeep, hcount, B'.grant (Nat.not_lt.mp hroom)⟩

/-- An operation keeps a heap in order and its ledger right. Room is only ever added, and the
operations that collect are counted. -/
theorem perform (B : h.Balanced s l) {op : Operation w} (hop : op.perform h l = .ok (h', l')) :
    h'.Balanced s l' ∧ h.capacity ≤ h'.capacity ∧
      h'.stats.collections = h.stats.collections + if op.collects h then 1 else 0 := by
  cases op with
  | reserve words roots =>
    obtain ⟨c, hc, hop⟩ := of_except_bind_eq_ok hop
    cases hop
    obtain ⟨hfree, hnone, hheap⟩ | ⟨hslow, hkeep, hcount, B'⟩ := B.reserve hc
    · rw [hnone, if_pos hfree, hheap]
      simp only [Operation.collects, Nat.not_lt.mpr hfree, decide_false]
      exact ⟨B.grant hfree, Nat.le_refl _, rfl⟩
    · rw [if_neg (Nat.not_le.mpr hslow)]
      simp only [Operation.collects, hslow, decide_true]
      exact ⟨B', hkeep, hcount⟩
  | collect roots =>
    obtain ⟨c, hc, hop⟩ := of_except_bind_eq_ok hop
    cases hop
    obtain ⟨B', hkeep⟩ := B.collectFor hc
    exact ⟨B', hkeep, (collectFor_counts hc).2⟩
  | alloc contents =>
    obtain ⟨q, hstore, hop⟩ := of_except_bind_eq_ok hop
    cases hop
    obtain ⟨hfit, rfl⟩ := Alloc.complete_store_eq_ok hstore
    exact ⟨B.place hfit, (Space.write_capacity _ _ _).ge, rfl⟩
  | copy source count contents =>
    obtain ⟨q, hcopy, hop⟩ := of_except_bind_eq_ok hop
    cases hop
    obtain ⟨hfit, rfl⟩ := complete_copying_eq_ok hcopy
    exact ⟨B.place hfit, (Space.write_capacity _ _ _).ge, rfl⟩

/-- A collection counts once, and copies no more words than the heap can have. -/
theorem tallied_collectFor (B : h.Balanced s l) {n : Nat} (T : h.Tallied s n) {words : Nat}
    {roots : List (Word w)} {c : Checkpoint w} (hc : h.collectFor words roots = .ok c) :
    c.heap.Tallied s (n + 1) := by
  have C := collectFor_collected hc
  have hlive : c.heap.hp ≤ s.maxWords := C.hp_le.trans B.capacity_le
  have hallocated := T.allocated
  have hcopied := T.copied
  constructor
  · rw [C.stats]
    exact Nat.succ_le_succ T.collections
  · rw [C.stats, Nat.succ_mul]
    exact hallocated.trans (Nat.le_add_right _ _)
  · rw [C.stats, Nat.succ_mul]
    exact Nat.add_le_add hcopied hlive

theorem tallied_place (B : h.Balanced s l) {n : Nat} (T : h.Tallied s n)
    {contents : List (Word w)} (hfit : h.hp + contents.length ≤ h.limit) :
    (h.place contents).Tallied s (n + 1) := by
  have hwords : contents.length ≤ s.maxWords :=
    (Nat.le_add_left _ _).trans (hfit.trans (B.limit_le.trans B.capacity_le))
  refine ⟨T.collections.trans (Nat.le_succ n), ?_, ?_⟩
  · rw [Nat.succ_mul]
    exact Nat.add_le_add T.allocated hwords
  · rw [Nat.succ_mul]
    exact T.copied.trans (Nat.le_add_right _ _)

/-- One operation adds no more to a counter than the heap can have words. -/
theorem tallied_perform (B : h.Balanced s l) {n : Nat} (T : h.Tallied s n) {op : Operation w}
    (hop : op.perform h l = .ok (h', l')) : h'.Tallied s (n + 1) := by
  cases op with
  | reserve words roots =>
    obtain ⟨c, hc, hop⟩ := of_except_bind_eq_ok hop
    cases hop
    obtain ⟨_, rfl⟩ | ⟨_, hc⟩ := reserve_eq_ok hc
    · have hmore : n * s.maxWords ≤ (n + 1) * s.maxWords := Nat.mul_le_mul_right _ (Nat.le_succ n)
      exact ⟨T.collections.trans (Nat.le_succ n), T.allocated.trans hmore, T.copied.trans hmore⟩
    · obtain ⟨d, hd, hrest⟩ := of_except_bind_eq_ok hc
      have T' := B.tallied_collectFor T hd
      split at hrest
      · cases hrest
        exact T'
      · cases hrest
        exact ⟨T'.collections, T'.allocated, T'.copied⟩
  | collect roots =>
    obtain ⟨c, hc, hop⟩ := of_except_bind_eq_ok hop
    cases hop
    exact B.tallied_collectFor T hc
  | alloc contents =>
    obtain ⟨q, hstore, hop⟩ := of_except_bind_eq_ok hop
    cases hop
    obtain ⟨hfit, rfl⟩ := Alloc.complete_store_eq_ok hstore
    exact B.tallied_place T hfit
  | copy source count contents =>
    obtain ⟨q, hcopy, hop⟩ := of_except_bind_eq_ok hop
    cases hop
    obtain ⟨hfit, rfl⟩ := complete_copying_eq_ok hcopy
    exact B.tallied_place T hfit

/-- What the reservation has room for is what was granted less what was handed out since. -/
theorem limit_lt_iff (B : h.Balanced s l) (words : Nat) :
    h.limit < h.hp + words ↔ l.granted < l.taken + words := by
  have hhp := B.hp_eq_taken
  have hlimit := B.limit_eq
  omega

/-- Within a balanced heap there is one reason only for which a block is refused. -/
theorem alloc_traps_iff (B : h.Balanced s l) (contents : List (Word w)) :
    (∃ t, (Operation.alloc contents).perform h l = .error t) ↔
      l.granted < l.taken + contents.length := by
  rw [← B.limit_lt_iff]
  constructor
  · rintro ⟨t, ht⟩
    by_contra hfit
    rw [Operation.perform, Alloc.complete_store, B.bounded.span_eq (Nat.not_lt.mp hfit)] at ht
    cases ht
  · intro hover
    cases hstore : (Alloc.store contents).complete h with
    | error t => exact ⟨t, by rw [Operation.perform, hstore]; rfl⟩
    | ok q => exact absurd (Alloc.complete_store_eq_ok hstore).1 (Nat.not_le.mpr hover)

/-- The same holds of a block that words are copied into, as long as they are words of the space and
no more than the block has. -/
theorem copy_traps_iff (B : h.Balanced s l) {source : Ref} {count : Nat} {contents : List (Word w)}
    (hcount : count ≤ contents.length) (hsource : source.offset + count ≤ h.capacity) :
    (∃ t, (Operation.copy source count contents).perform h l = .error t) ↔
      l.granted < l.taken + contents.length := by
  rw [← B.limit_lt_iff]
  constructor
  · rintro ⟨t, ht⟩
    by_contra hfit
    have hcopy : h.planCopy contents.length source count =
        .ok (h.hp, h.space.segment source.offset count) := by
      have hfit := Nat.not_lt.mp hfit
      rw [planCopy, if_neg (Nat.not_lt.mpr hcount), B.bounded.room_eq hfit, Space.slice_eq hsource]
      exact if_neg (Nat.not_lt.mpr (hfit.trans B.limit_le))
    rw [Operation.perform, complete_copying, hcopy] at ht
    cases ht
  · intro hover
    cases hcopy : (copying source count contents).complete h with
    | error t => exact ⟨t, by rw [Operation.perform, hcopy]; rfl⟩
    | ok q => exact absurd (complete_copying_eq_ok hcopy).1 (Nat.not_le.mpr hover)

end Balanced

/-! ### Any sequence of operations -/

/-- Step after step, the heap stays in order and its counters stay within what the steps can add. -/
theorem balanced_performs {ops : List (Operation w)} (B : h.Balanced s l)
    {n : Nat} (T : h.Tallied s n) (hops : Operation.performs ops h l = .ok (h', l')) :
    h'.Balanced s l' ∧ h'.Tallied s (n + ops.length) := by
  induction ops generalizing h l n with
  | nil =>
    cases hops
    exact ⟨B, T⟩
  | cons op ops ih =>
    obtain ⟨⟨h₁, l₁⟩, hop, hops⟩ := of_except_bind_eq_ok hops
    rw [List.length_cons, ← Nat.add_assoc, Nat.add_right_comm]
    exact ih (B.perform hop).1 (B.tallied_perform T hop) hops

/-- After any operations on a new heap that do not trap, the heap is in order and its ledger right,
and its counters are no more than so many operations can make them. No operation takes room away, and
just those that have to are counted as collections, each of which leaves the live words. A block is
handed out just when it fits into what was granted at the last checkpoint, beside what was handed out
since; those blocks lie apart from each other in the space, at offsets that references can hold. -/
theorem bookkeeping {h₀ : Heap w} {ops : List (Operation w)} (hmade : create s = .ok h₀)
    (hops : Operation.performs ops h₀ .opening = .ok (h, l)) :
    h.Balanced s l ∧ h.Tallied s ops.length ∧
    (∀ (op : Operation w) (h' : Heap w) (l' : Ledger), op.perform h l = .ok (h', l') →
      h.capacity ≤ h'.capacity ∧
        h'.stats.collections = h.stats.collections + if op.collects h then 1 else 0) ∧
    (∀ (words : Nat) (roots : List (Word w)) (blocks : Set Ref) (c : Checkpoint w),
      h.space.Layout h.hp blocks → (∀ v ∈ roots, v.Into blocks) →
      h.collectFor words roots = .ok c → c.heap.hp = h.space.liveWords roots) ∧
    (∀ contents : List (Word w), (∃ t, (Operation.alloc contents).perform h l = .error t) ↔
      l.granted < l.taken + contents.length) ∧
    (∀ (source : Ref) (count : Nat) (contents : List (Word w)),
      count ≤ contents.length → source.offset + count ≤ h.capacity →
      ((∃ t, (Operation.copy source count contents).perform h l = .error t) ↔
        l.granted < l.taken + contents.length)) ∧
    l.blocks.Pairwise (fun b a => a.offset + a.words ≤ b.offset) ∧
    ∀ b ∈ l.blocks, l.start ≤ b.offset ∧ b.offset + b.words ≤ h.hp ∧
      ∀ pair, Ref.checked (w := w) b.offset pair = .ok ⟨b.offset, pair⟩ := by
  obtain ⟨hvalid, rfl⟩ := create_eq_ok hmade
  obtain ⟨B, T⟩ := balanced_performs (balanced_vacant hvalid) (tallied_vacant s) hops
  rw [Nat.zero_add] at T
  refine ⟨B, T, fun op h' l' hop => (B.perform hop).2, ?_, B.alloc_traps_iff,
    fun source count contents => B.copy_traps_iff, B.consecutive.apart, fun b hb => ?_⟩
  · intro words roots blocks c L hroots hc
    obtain ⟨_, _, _, ⟨_, herr⟩ | ⟨_, d, hd, _, _, _, hhp, _⟩⟩ :=
      collectFor_eq B.bounded L hroots words
    · rw [hc] at herr
      cases herr
    · rw [hc] at hd
      cases hd
      exact hhp
  · obtain ⟨hstart, htop⟩ := B.consecutive.within b hb
    have hoffset := B.bounded.hp_le_maxOffset
    refine ⟨hstart, htop, fun pair => ?_⟩
    rw [Ref.checked, if_pos (by omega)]

/-- A pair and a copy of it are made. A reservation that does not fit collects the first of them and
grows the heap, the next one is refused, and a pair is made from a small one. -/
def churning : List (Operation .bits64) :=
  [.reserve 6 [], .alloc [.ofNat 4, .ofNat 8], .copy ⟨0, true⟩ 2 [.ofNat 4, .ofNat 8],
    .reserve 8 [(Ref.mk 2 true).word], .reserve 20 [(Ref.mk 0 true).word], .reserve 3 [],
    .alloc [(Ref.mk 0 true).word, .ofNat 12]]

/-- Two collections have left a pair each, and one of three words granted is left. -/
theorem bookkeeping_churning :
    ∃ (h₀ h : Heap .bits64) (l : Ledger), create ⟨8, 12, 0.5⟩ = .ok h₀ ∧
      Operation.performs churning h₀ .opening = .ok (h, l) ∧ l = ⟨[2, 2], 2, 2, 3, [⟨2, 2⟩]⟩ ∧
      h.hp = 4 ∧ h.limit = 5 ∧ h.capacity ≤ 12 ∧ h.stats.wordsCopied = 4 ∧
      h.stats.collections = 2 ∧
      ∃ t, (Operation.alloc [.ofNat 4, .ofNat 8]).perform h l = .error t := by
  have hmade : create ⟨8, 12, 0.5⟩ = .ok (vacant ⟨8, 12, 0.5⟩ : Heap .bits64) :=
    create_vacant (by decide +kernel) (by decide)
  have hledger : (Operation.performs churning (vacant ⟨8, 12, 0.5⟩) .opening).toOption.map (·.2) =
      some ⟨[2, 2], 2, 2, 3, [⟨2, 2⟩]⟩ := by decide +kernel
  cases hops : Operation.performs churning (vacant ⟨8, 12, 0.5⟩) .opening with
  | error t =>
    rw [hops] at hledger
    cases hledger
  | ok q =>
    obtain ⟨h, l⟩ := q
    rw [hops] at hledger
    cases hledger
    obtain ⟨B, _, _, _, htraps, _⟩ := bookkeeping hmade hops
    exact ⟨_, h, _, hmade, hops, rfl, B.hp_eq_taken, B.limit_eq, B.capacity_le, B.copied,
      B.collections, (htraps _).mpr (by decide)⟩

end Trampoline.Heap
