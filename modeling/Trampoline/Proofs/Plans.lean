import Trampoline.Proofs.Agreement
import Trampoline.Proofs.Blocks

/-!
Plans for new objects.

What an allocation will answer and write can be told before anything is done: the plan of an object
says which word is to refer to it and which words are to make up its block. The allocation carries
the plan out. Where there is no plan because something is going to trap, the allocation traps in the
same way; by then it may have taken the words of the block and written some of them, and has touched
nothing else.
-/

namespace Trampoline

variable {w : Width}

/-- A value to be, and the words of its block. A value without a block has none. -/
structure Plan (w : Width) where
  value : Word w
  contents : List (Word w)
deriving DecidableEq, Repr

namespace Heap

/-- Where so many words can be taken and written. -/
def span (h : Heap w) (words : Nat) : Except (Trap w) Nat := do
  let offset ← h.room words
  if h.capacity < offset + words then .error .bounds else .ok offset

def taken (h : Heap w) (words : Nat) : Heap w :=
  { h with
    hp := h.hp + words
    stats := { h.stats with wordsAllocated := h.stats.wordsAllocated + words } }

def place (h : Heap w) (contents : List (Word w)) : Heap w :=
  { h with
    space := h.space.write h.hp contents
    hp := h.hp + contents.length
    stats := { h.stats with wordsAllocated := h.stats.wordsAllocated + contents.length } }

def planConstruct (h : Heap w) (c : Constructor) (fields : List (Word w)) :
    Except (Trap w) (Plan w) :=
  if fields.length ≠ c.fields then .error .arity
  else match c.representation with
    | .unboxed => do return ⟨← c.unboxedValue, []⟩
    | .boxed => do
      let offset ← h.span (Shape.constructor fields.length).words
      let header ← c.header
      let r ← Ref.checked offset false
      return ⟨r.word, header.word :: fields⟩

def planPair (h : Heap w) (fst snd : Word w) : Except (Trap w) (Plan w) := do
  let offset ← h.span Shape.pair.words
  let r ← Ref.checked offset true
  return ⟨r.word, [fst, snd]⟩

def planClosure (h : Heap w) (f : Function) (captured : List (Word w)) :
    Except (Trap w) (Plan w) :=
  if f.arity < captured.length then .error .tooManyCaptures
  else do
    let offset ← h.span (Shape.closure captured.length).words
    let header ← Header.checked .closure f.uid captured.length
    let r ← Ref.checked offset false
    return ⟨r.word, header.word :: .ofNat f.label.index :: .ofNat f.arity :: captured⟩

/-- Where a block of `words` words begins, and the words that are copied to its front. -/
def planCopy (h : Heap w) (words : Nat) (source : Ref) (count : Nat) :
    Except (Trap w) (Nat × List (Word w)) :=
  if words < count then .error .copyTooLong
  else do
    let offset ← h.room words
    let copied ← h.space.slice source.offset count
    if h.capacity < offset + words then .error .bounds else .ok (offset, copied)

def planExtend (h : Heap w) (c : ClosureView w) (args : List (Word w)) :
    Except (Trap w) (Plan w) := do
  let (offset, copied) ← h.planCopy (Shape.closure (c.captured + args.length)).words c.object
    (Shape.closure c.captured).words
  let header ← Header.checked .closure c.header.uid (c.captured + args.length)
  let r ← Ref.checked offset false
  return ⟨r.word, header.word :: copied.tail ++ args⟩

variable {h k : Heap w} {words offset : Nat}

/-- A heap that differs from another one at most in so many words from the heap pointer on, which
may have been taken. -/
structure Touched (h : Heap w) (words : Nat) (k : Heap w) : Prop where
  settings : k.settings = h.settings
  limit : k.limit = h.limit
  capacity : k.capacity = h.capacity
  hp : k.hp = h.hp ∨ k.hp = h.hp + words ∧ h.hp + words ≤ h.limit
  stats : k.stats =
    { h.stats with wordsAllocated := h.stats.wordsAllocated + (k.hp - h.hp) }
  cells : ∀ i, i < h.hp ∨ h.hp + words ≤ i → k.space.cell i = h.space.cell i

namespace Touched

theorem refl (h : Heap w) (words : Nat) : h.Touched words h where
  settings := rfl
  limit := rfl
  capacity := rfl
  hp := .inl rfl
  stats := by rw [Nat.sub_self]; rfl
  cells _ _ := rfl

theorem taken (hfit : h.hp + words ≤ h.limit) : h.Touched words (h.taken words) where
  settings := rfl
  limit := rfl
  capacity := rfl
  hp := .inr ⟨rfl, hfit⟩
  stats := by
    change _ = { h.stats with wordsAllocated := h.stats.wordsAllocated + (h.hp + words - h.hp) }
    rw [Nat.add_sub_cancel_left]
    rfl
  cells _ _ := rfl

/-- Writing within the words that were touched touches no others. -/
theorem fill (T : h.Touched words k) {i : Nat} {vs : List (Word w)} (hle : h.hp ≤ i)
    (hend : i + vs.length ≤ h.hp + words) :
    h.Touched words { k with space := k.space.write i vs } where
  settings := T.settings
  limit := T.limit
  capacity := (Space.write_capacity _ _ _).trans T.capacity
  hp := T.hp
  stats := T.stats
  cells j hj := by
    have hout : (k.space.write i vs).cell j = k.space.cell j := by
      rcases hj with hj | hj
      · exact Space.cell_write_of_lt _ _ (by omega)
      · exact Space.cell_write_of_ge _ _ (by omega)
    exact hout.trans (T.cells j hj)

end Touched

/-- Room is found at the heap pointer only, within the reservation. -/
theorem room_eq_ok (hr : h.room words = .ok offset) :
    offset = h.hp ∧ h.hp + words ≤ h.limit := by
  unfold room at hr
  obtain ⟨top, htop, hr⟩ := of_except_bind_eq_ok hr
  unfold Size.add at htop
  split at htop
  · cases htop
    split at hr
    · cases hr
    · cases hr
      exact ⟨rfl, by omega⟩
  · cases htop

theorem span_eq_ok (hs : h.span words = .ok offset) :
    offset = h.hp ∧ h.hp + words ≤ h.limit ∧ h.hp + words ≤ h.capacity := by
  obtain ⟨top, hroom, hs⟩ := of_except_bind_eq_ok hs
  obtain ⟨rfl, hfit⟩ := room_eq_ok hroom
  split at hs
  · cases hs
  · next hin =>
    cases hs
    exact ⟨rfl, hfit, Nat.not_lt.mp hin⟩

/-- What a plan to copy that is possible tells. -/
theorem planCopy_eq_ok {count : Nat} {source : Ref} {vs : List (Word w)}
    (hc : h.planCopy words source count = .ok (offset, vs)) :
    count ≤ words ∧ offset = h.hp ∧ h.hp + words ≤ h.limit ∧ h.hp + words ≤ h.capacity ∧
      vs = h.space.segment source.offset count := by
  unfold planCopy at hc
  split at hc
  · cases hc
  · next hshort =>
    obtain ⟨top, hroom, hc⟩ := of_except_bind_eq_ok hc
    obtain ⟨copied, hcopied, hc⟩ := of_except_bind_eq_ok hc
    obtain ⟨rfl, hfit⟩ := room_eq_ok hroom
    obtain ⟨_, rfl⟩ := Space.slice_eq_ok hcopied
    split at hc
    · cases hc
    · next hin =>
      cases hc
      exact ⟨Nat.not_lt.mp hshort, rfl, hfit, Nat.not_lt.mp hin, rfl⟩

end Heap

/-! ### Writing in pieces -/

namespace Space

theorem write_append (s : Space w) (i : Nat) (xs ys : List (Word w)) :
    s.write i (xs ++ ys) = (s.write i xs).write (i + xs.length) ys := by
  induction xs generalizing s i with
  | nil => rfl
  | cons x xs ih =>
    rw [List.cons_append, write, write, ih, List.length_cons, Nat.add_assoc, Nat.add_comm 1]

theorem size_put (s : Space w) (i : Nat) (v : Word w) :
    (s.put i v).cells.size = max s.cells.size (i + 1) := by
  unfold put
  split
  · rw [Array.size_setIfInBounds]
    omega
  · rw [Array.size_push, Array.size_append, Array.size_replicate]
    omega

/-- Two spaces are the same when they store as many words, and the same ones. -/
theorem ext_cell {s t : Space w} (hcap : s.capacity = t.capacity)
    (hsize : s.cells.size = t.cells.size) (hcell : ∀ i, s.cell i = t.cell i) : s = t := by
  obtain ⟨cells, capacity⟩ := s
  obtain ⟨cells', capacity'⟩ := t
  obtain rfl : capacity = capacity' := hcap
  have hcells : cells = cells' := by
    refine Array.ext hsize fun i hi hi' => ?_
    have := hcell i
    simpa [cell, Array.getD, hi, hi'] using this
  rw [hcells]

theorem size_write (s : Space w) (i : Nat) {vs : List (Word w)} (hvs : vs ≠ []) :
    (s.write i vs).cells.size = max s.cells.size (i + vs.length) := by
  induction vs generalizing s i with
  | nil => exact absurd rfl hvs
  | cons v vs ih =>
    cases vs with
    | nil => exact s.size_put i v
    | cons u us =>
      rw [write, ih _ _ (List.cons_ne_nil _ _), size_put]
      simp only [List.length_cons]
      omega

/-- Of words that are written over, nothing is left. -/
theorem write_write (s : Space w) (i : Nat) {xs ys : List (Word w)} (h : xs.length ≤ ys.length) :
    (s.write i xs).write i ys = s.write i ys := by
  rcases eq_or_ne xs [] with rfl | hxs
  · rfl
  have hys : ys ≠ [] := List.ne_nil_of_length_pos ((List.length_pos_iff.mpr hxs).trans_le h)
  refine ext_cell (by simp only [write_capacity]) ?_ fun j => ?_
  · rw [size_write _ _ hys, size_write _ _ hxs, size_write _ _ hys]
    omega
  · by_cases hlt : j < i
    · simp only [cell_write_of_lt _ _ hlt]
    · by_cases hge : i + ys.length ≤ j
      · rw [cell_write_of_ge _ _ hge, cell_write_of_ge _ _ hge, cell_write_of_ge _ _ (by omega)]
      · obtain ⟨d, rfl⟩ := Nat.exists_eq_add_of_le (Nat.not_lt.mp hlt)
        rw [cell_write _ _ _ (by omega), cell_write _ _ _ (by omega)]

/-- The first of the words that have been written may be written again. -/
theorem write_write_head (s : Space w) (i : Nat) (x y : Word w) (xs : List (Word w)) :
    (s.write i (x :: xs)).write i [y] = s.write i (y :: xs) := by
  refine ext_cell (by simp only [write_capacity]) ?_ fun j => ?_
  · rw [size_write _ _ (List.cons_ne_nil _ _), size_write _ _ (List.cons_ne_nil _ _),
      size_write _ _ (List.cons_ne_nil _ _)]
    simp only [List.length_cons, List.length_nil]
    omega
  · change ((s.write i (x :: xs)).put i y).cell j = ((s.put i y).write (i + 1) xs).cell j
    rw [cell_put]
    by_cases hj : j = i
    · rw [if_pos hj, cell_write_of_lt _ _ (by omega), cell_put, if_pos hj]
    · rw [if_neg hj]
      change ((s.put i x).write (i + 1) xs).cell j = _
      by_cases hlt : j < i + 1
      · rw [cell_write_of_lt _ _ hlt, cell_write_of_lt _ _ hlt, cell_put, cell_put, if_neg hj,
          if_neg hj]
      · by_cases hge : i + 1 + xs.length ≤ j
        · rw [cell_write_of_ge _ _ hge, cell_write_of_ge _ _ hge, cell_put, cell_put, if_neg hj,
            if_neg hj]
        · obtain ⟨d, rfl⟩ := Nat.exists_eq_add_of_le (Nat.not_lt.mp hlt)
          rw [cell_write _ _ _ (by omega), cell_write _ _ _ (by omega)]

end Space

/-! ### Carrying plans out -/

namespace Alloc

variable {α : Type} {h : Heap w} {words : Nat}

/-- What an allocation that follows a plan comes to. -/
def Yields (h : Heap w) (words : Nat) (r : EStateM.Result (Trap w) (Heap w) (Word w)) :
    Except (Trap w) (Plan w) → Prop
  | .ok p => r = .ok p.value (h.place p.contents)
  | .error t => ∃ k, r = .error t k ∧ h.Touched words k

/-- The allocation carries out the plan, or traps having touched no more than so many words. -/
def Follows (x : Alloc w (Word w)) (plan : Heap w → Except (Trap w) (Plan w)) (words : Nat) : Prop :=
  ∀ h, Yields h words (x h) (plan h)

theorem Follows.ok {x : Alloc w (Word w)} {plan : Heap w → Except (Trap w) (Plan w)} {p : Plan w}
    (F : Follows x plan words) (hp : plan h = .ok p) :
    x h = .ok p.value (h.place p.contents) := by
  have hyields := F h
  rwa [hp] at hyields

theorem Follows.error {x : Alloc w (Word w)} {plan : Heap w → Except (Trap w) (Plan w)} {t : Trap w}
    (F : Follows x plan words) (hp : plan h = .error t) :
    ∃ k, x h = .error t k ∧ h.Touched words k := by
  have hyields := F h
  rwa [hp] at hyields

theorem Follows.eq_ok {x : Alloc w (Word w)} {plan : Heap w → Except (Trap w) (Plan w)} {v : Word w}
    {k : Heap w} (F : Follows x plan words) (hx : x h = .ok v k) :
    ∃ p, plan h = .ok p ∧ v = p.value ∧ k = h.place p.contents := by
  cases hp : plan h with
  | error t =>
    obtain ⟨_, hx', _⟩ := F.error hp
    cases hx.symm.trans hx'
  | ok p =>
    cases hx.symm.trans (F.ok hp)
    exact ⟨p, rfl, rfl, rfl⟩

/-- The last step of an allocation. -/
theorem yields_refer {k : Heap w} (T : h.Touched words k) {offset : Nat} {pair : Bool}
    {contents : List (Word w)} (hk : k = h.place contents) :
    Yields h words (refer offset pair k) (do
      let r ← Ref.checked offset pair
      return ⟨r.word, contents⟩) := by
  unfold refer
  cases hr : Ref.checked (w := w) offset pair with
  | error t => exact ⟨k, rfl, T⟩
  | ok r => exact congrArg _ hk

/-- Words are taken if there is room for them, and nothing is done otherwise. -/
theorem take_cases (h : Heap w) (words : Nat) :
    (∃ t, h.room words = .error t ∧ take words h = .error t h) ∨
    (h.room words = .ok h.hp ∧ h.hp + words ≤ h.limit ∧
      take words h = .ok h.hp (h.taken words)) := by
  cases hroom : h.room words with
  | error t =>
    refine .inl ⟨t, rfl, ?_⟩
    change ((liftM (h.room words) : Alloc w Nat) >>= _) h = _
    rw [hroom]
    rfl
  | ok offset =>
    obtain ⟨rfl, hfit⟩ := Heap.room_eq_ok hroom
    refine .inr ⟨rfl, hfit, ?_⟩
    change ((liftM (h.room words) : Alloc w Nat) >>= _) h = _
    rw [hroom]
    rfl

theorem within_apply (offset words : Nat) :
    within offset words h =
      if h.capacity < offset + words then .error .bounds h else .ok () h := by
  change (if h.capacity < offset + words then throw .bounds else pure () : Alloc w Unit) h = _
  split <;> rfl

/-- Words are taken that can be written, or it traps. Where they lie outside the space they have
been taken by then. -/
theorem bump_cases (h : Heap w) (words : Nat) :
    (∃ t k, h.span words = .error t ∧ bump words h = .error t k ∧ h.Touched words k) ∨
    (h.span words = .ok h.hp ∧ h.hp + words ≤ h.limit ∧
      bump words h = .ok h.hp (h.taken words)) := by
  unfold Heap.span bump
  rcases take_cases h words with ⟨t, hroom, htake⟩ | ⟨hroom, hfit, htake⟩
  · rw [hroom]
    exact .inl ⟨t, h, rfl, bind_of_error htake, .refl h words⟩
  · rw [hroom, bind_of_ok htake]
    by_cases hout : h.capacity < h.hp + words
    · refine .inl ⟨.bounds, h.taken words, if_pos hout, bind_of_error ?_, .taken hfit⟩
      exact (within_apply _ _).trans (if_pos hout)
    · refine .inr ⟨if_neg hout, hfit, bind_of_ok (a := ()) ?_⟩
      exact (within_apply _ _).trans (if_neg hout)

/-- Words that can be taken and written are handed out. -/
theorem store_of_span {contents : List (Word w)} {offset : Nat}
    (hs : h.span contents.length = .ok offset) :
    store contents h = .ok offset (h.place contents) := by
  rcases bump_cases h contents.length with ⟨t, _, hspan, _⟩ | ⟨hspan, _, hbump⟩
  · cases hs.symm.trans hspan
  · cases hs.symm.trans hspan
    exact bind_of_ok hbump

theorem store_eq_ok {contents : List (Word w)} {offset : Nat} {k : Heap w}
    (hs : store contents h = .ok offset k) :
    h.span contents.length = .ok offset ∧ k = h.place contents := by
  rcases bump_cases h contents.length with ⟨t, _, _, hbump, _⟩ | ⟨hspan, _, hbump⟩
  · cases hs.symm.trans (bind_of_error hbump)
  · cases hs.symm.trans (bind_of_ok hbump)
    exact ⟨hspan, rfl⟩

/-- The value of an allocation and the heap it leaves, if it does not trap. -/
def complete (x : Alloc w α) (h : Heap w) : Except (Trap w) (α × Heap w) :=
  match x h with
  | .ok a k => .ok (a, k)
  | .error t _ => .error t

theorem complete_store (contents : List (Word w)) (h : Heap w) :
    (store contents).complete h =
      (h.span contents.length).map fun offset => (offset, h.place contents) := by
  rcases bump_cases h contents.length with ⟨t, _, hspan, hbump, _⟩ | ⟨hspan, _, hbump⟩
  · have hstore : store contents h = _ := bind_of_error hbump
    rw [complete, hstore, hspan]
    rfl
  · rw [complete, store_of_span hspan, hspan]
    rfl

/-- A block that is handed out has been reserved, and is where the heap pointer was. -/
theorem complete_store_eq_ok {contents : List (Word w)} {q : Nat × Heap w}
    (hstore : (store contents).complete h = .ok q) :
    h.hp + contents.length ≤ h.limit ∧ q = (h.hp, h.place contents) := by
  rw [complete_store] at hstore
  cases hspan : h.span contents.length with
  | error t =>
    rw [hspan] at hstore
    cases hstore
  | ok offset =>
    rw [hspan] at hstore
    obtain ⟨rfl, hfit, _⟩ := Heap.span_eq_ok hspan
    cases hstore
    exact ⟨hfit, rfl⟩

/-- A constructor is made as planned. Its words are taken before its header is made. -/
theorem follows_construct (c : Constructor) (fields : List (Word w)) :
    Follows (construct c fields) (·.planConstruct c fields)
      (Shape.constructor fields.length).words := by
  intro h
  unfold construct Heap.planConstruct
  split
  · exact ⟨h, rfl, .refl h _⟩
  · cases c.representation with
    | unboxed =>
      dsimp only
      cases c.unboxedValue (w := w) with
      | error t => exact ⟨h, rfl, .refl h _⟩
      | ok v => rfl
    | boxed =>
      dsimp only
      rcases bump_cases h (Shape.constructor fields.length).words with
        ⟨t, k, hspan, hbump, T⟩ | ⟨hspan, hfit, hbump⟩
      · rw [hspan]
        exact ⟨k, bind_of_error hbump, T⟩
      · rw [hspan, bind_of_ok hbump]
        cases c.header (w := w) with
        | error t => exact ⟨_, rfl, .taken hfit⟩
        | ok header =>
          have hlength : (header.word :: fields).length = (Shape.constructor fields.length).words :=
            Nat.add_comm _ _
          refine yields_refer ((Heap.Touched.taken hfit).fill (Nat.le_refl _) ?_) ?_
          · exact (congrArg _ hlength).le
          · rw [Heap.place, hlength]
            rfl

/-- A pair is made as planned. -/
theorem follows_makePair (fst snd : Word w) :
    Follows (makePair fst snd) (·.planPair fst snd) Shape.pair.words := by
  intro h
  unfold makePair Heap.planPair
  beta_reduce
  rcases bump_cases h Shape.pair.words with ⟨t, k, hspan, hbump, T⟩ | ⟨hspan, hfit, hbump⟩
  · have hstore : store [fst, snd] h = .error t k := bind_of_error hbump
    rw [hspan]
    exact ⟨k, bind_of_error hstore, T⟩
  · have hstore : store [fst, snd] h = .ok h.hp (h.place [fst, snd]) := bind_of_ok hbump
    rw [hspan, bind_of_ok hstore]
    exact yields_refer ((Heap.Touched.taken hfit).fill (Nat.le_refl _) (Nat.le_refl _)) rfl

/-- A closure is made as planned. Its words are taken before its header is made. -/
theorem follows_makeClosure (f : Function) (captured : List (Word w)) :
    Follows (makeClosure f captured) (·.planClosure f captured)
      (Shape.closure captured.length).words := by
  intro h
  unfold makeClosure Heap.planClosure
  beta_reduce
  split
  · exact ⟨h, rfl, .refl h _⟩
  · rcases bump_cases h (Shape.closure captured.length).words with
      ⟨t, k, hspan, hbump, T⟩ | ⟨hspan, hfit, hbump⟩
    · rw [hspan]
      exact ⟨k, bind_of_error hbump, T⟩
    · rw [hspan, bind_of_ok hbump]
      cases Header.checked (w := w) .closure f.uid captured.length with
      | error t => exact ⟨_, rfl, .taken hfit⟩
      | ok header =>
        have hlength : (header.word :: .ofNat f.label.index :: .ofNat f.arity :: captured).length =
            (Shape.closure captured.length).words :=
          Nat.add_comm captured.length 3
        refine yields_refer ((Heap.Touched.taken hfit).fill (Nat.le_refl _) ?_) ?_
        · exact (congrArg _ hlength).le
        · rw [Heap.place, hlength]
          rfl

/-- A copy is taken and written at the front as planned, or it traps. -/
theorem bumpCopy_cases (h : Heap w) (words : Nat) (source : Ref) (count : Nat) :
    (∃ t k, h.planCopy words source count = .error t ∧
      bumpCopy words source count h = .error t k ∧ h.Touched words k) ∨
    ∃ copied, h.planCopy words source count = .ok (h.hp, copied) ∧
      bumpCopy words source count h =
        .ok h.hp { h.taken words with space := h.space.write h.hp copied } := by
  by_cases hshort : words < count
  · refine .inl ⟨.copyTooLong, h, if_pos hshort, ?_, .refl h words⟩
    rw [bumpCopy, if_pos hshort]
    rfl
  rw [Heap.planCopy, if_neg hshort, bumpCopy, if_neg hshort]
  rcases take_cases h words with ⟨t, hroom, htake⟩ | ⟨hroom, hfit, htake⟩
  · rw [hroom]
    exact .inl ⟨t, h, rfl, bind_of_error htake, .refl h words⟩
  rw [hroom, bind_of_ok htake]
  cases hslice : h.space.slice source.offset count with
  | error t =>
    have hread : (liftM (h.space.slice source.offset count) : Alloc w _) (h.taken words) =
        .error t (h.taken words) := by
      rw [hslice]
      rfl
    exact .inl ⟨t, h.taken words, rfl, (bind_of_ok rfl).trans (bind_of_error hread), .taken hfit⟩
  | ok copied =>
    have hread : (liftM (h.space.slice source.offset count) : Alloc w _) (h.taken words) =
        .ok copied (h.taken words) := by
      rw [hslice]
      rfl
    have hlength : copied.length = count := by
      obtain ⟨_, rfl⟩ := Space.slice_eq_ok hslice
      exact Space.length_segment _ _ _
    have T : h.Touched words { h.taken words with space := h.space.write h.hp copied } :=
      (Heap.Touched.taken hfit).fill (Nat.le_refl _) (by omega)
    -- the front has to be in the space before it is written, and the rest of the block after that
    by_cases hfront : h.capacity < h.hp + count
    · refine .inl ⟨.bounds, h.taken words, if_pos (by omega), ?_, .taken hfit⟩
      refine (bind_of_ok hread).trans (bind_of_error ?_)
      exact (within_apply _ _).trans (if_pos hfront)
    have hwithin : within h.hp count (h.taken words) = .ok () (h.taken words) :=
      (within_apply _ _).trans (if_neg hfront)
    have hrest := within_apply (h := { h.taken words with space := h.space.write h.hp copied })
      h.hp words
    rw [T.capacity] at hrest
    by_cases hout : h.capacity < h.hp + words
    · rw [if_pos hout] at hrest
      exact .inl ⟨.bounds, _, if_pos hout,
        (bind_of_ok hread).trans
          ((bind_of_ok hwithin).trans ((bind_of_ok rfl).trans (bind_of_error hrest))), T⟩
    · rw [if_neg hout] at hrest
      exact .inr ⟨copied, if_neg hout,
        (bind_of_ok hread).trans
          ((bind_of_ok hwithin).trans ((bind_of_ok rfl).trans (bind_of_ok hrest)))⟩

/-- A closure is extended as planned. Its words are taken and the source is copied to them before
its header is made. -/
theorem follows_extend (c : ClosureView w) (args : List (Word w)) :
    Follows (extend c args) (·.planExtend c args)
      (Shape.closure (c.captured + args.length)).words := by
  intro h
  unfold extend Heap.planExtend
  beta_reduce
  rcases bumpCopy_cases h (Shape.closure (c.captured + args.length)).words c.object
      (Shape.closure c.captured).words with ⟨t, k, hplan, hcopy, T⟩ | ⟨copied, hplan, hcopy⟩
  · rw [hplan]
    exact ⟨k, bind_of_error hcopy, T⟩
  · obtain ⟨hcount, _, hfit, _, hcopied⟩ := Heap.planCopy_eq_ok hplan
    have hlength : copied.length = (Shape.closure c.captured).words := by
      rw [hcopied, Space.length_segment]
    have T : h.Touched (Shape.closure (c.captured + args.length)).words
        { h.taken (Shape.closure (c.captured + args.length)).words with
          space := h.space.write h.hp copied } :=
      (Heap.Touched.taken hfit).fill (Nat.le_refl _) (by omega)
    rw [hplan, bind_of_ok hcopy]
    cases Header.checked (w := w) .closure c.header.uid (c.captured + args.length) with
    | error t => exact ⟨_, rfl, T⟩
    | ok header =>
      simp only [Shape.closure, Shape.words] at hlength hcount
      have hhead : h.hp + [header.word].length ≤
          h.hp + (Shape.closure (c.captured + args.length)).words := by
        simp only [List.length_singleton, Shape.closure, Shape.words]
        omega
      have hargs : h.hp + (Shape.closure c.captured).words + args.length ≤
          h.hp + (Shape.closure (c.captured + args.length)).words := by
        simp only [Shape.closure, Shape.words]
        omega
      refine yields_refer ((T.fill (Nat.le_refl _) hhead).fill (by omega) hargs) ?_
      -- the copied words are written first, then the header over the first of them
      obtain ⟨x, xs, rfl⟩ : ∃ x xs, copied = x :: xs :=
        List.exists_cons_of_ne_nil (by rintro rfl; simp at hlength; omega)
      rw [List.length_cons] at hlength
      have hspace : ((h.space.write h.hp (x :: xs)).write h.hp [header.word]).write
          (h.hp + (Shape.closure c.captured).words) args =
            h.space.write h.hp (header.word :: xs ++ args) := by
        rw [Space.write_write_head, Space.write_append, List.length_cons, hlength]
        rfl
      have hwords : (header.word :: xs ++ args).length =
          (Shape.closure (c.captured + args.length)).words := by
        simp only [List.length_append, List.length_cons, Shape.closure, Shape.words]
        omega
      rw [Heap.place, List.tail_cons, hwords, ← hspace]
      rfl

end Alloc

namespace Machine

variable {m : Machine w} {x : Alloc w (Word w)} {plan : Heap w → Except (Trap w) (Plan w)}
  {words : Nat}

theorem allocate_of_ok (F : x.Follows plan words) {p : Plan w} (hp : plan m.heap = .ok p) :
    allocate x m = .ok p.value { m with heap := m.heap.place p.contents } := by
  rw [allocate, F.ok hp]

theorem allocate_of_error (F : x.Follows plan words) {t : Trap w} (hp : plan m.heap = .error t) :
    ∃ k, allocate x m = .error (.trap t) { m with heap := k } ∧ m.heap.Touched words k := by
  obtain ⟨k, hx, T⟩ := F.error hp
  refine ⟨k, ?_, T⟩
  rw [allocate, hx]

theorem allocate_eq_ok (F : x.Follows plan words) {v : Word w} {n : Machine w}
    (h : allocate x m = .ok v n) :
    ∃ p, plan m.heap = .ok p ∧ v = p.value ∧ n = { m with heap := m.heap.place p.contents } := by
  unfold allocate at h
  split at h
  · next hx =>
    cases h
    obtain ⟨p, hp, hv, hk⟩ := F.eq_ok hx
    exact ⟨p, hp, hv, by rw [hk]⟩
  · cases h

end Machine

end Trampoline
