import Trampoline.Proofs.Currying
import Trampoline.Proofs.Transparency

/-!
Safe points.

A reservation may collect, and a collection moves what the machine refers to. Values that are held
beside the machine are roots for as long as they ride on the stack, so the reservation moves them,
the slots below them and the result register alike, and takes nothing else along. This is so whether
or not the words are to be had.
-/

namespace Trampoline

variable {w : Width}

theorem Word.move_id (v : Word w) : v.move id = v := by
  cases hr : v.ref? with
  | none => exact move_of_none hr
  | some r =>
    rw [move_of_some hr]
    exact (eq_word hr).symm

namespace Heap

variable {h : Heap w} {roots : List (Word w)} {blocks : Set Ref} {words : Nat} {c : Checkpoint w}

/-! ### Reservations -/

theorem reserve_of_overgrows (P : h.Partitioned roots blocks) (hslow : h.free < words)
    (hover : h.Overgrows words roots) : h.reserve words roots = .error .bounds := by
  obtain ⟨_, herr⟩ | ⟨hbad, _⟩ := collectFor_cases P.bounded P.layout P.rooted words
  · rw [reserve_of_not_free P.bounded.hp_le (Nat.not_le.mpr hslow)]
    exact reclaim_of_error herr
  · exact absurd hover hbad

theorem reserve_of_not_overgrows (P : h.Partitioned roots blocks)
    (hover : ¬ (h.free < words ∧ h.Overgrows words roots)) :
    ∃ c, h.reserve words roots = .ok c ∧ h.Reserved words roots c := by
  by_cases hfree : words ≤ h.free
  · exact ⟨_, reserve_of_free P.bounded.hp_le hfree, P.reserved_of_free hfree⟩
  · have hslow := Nat.not_le.mp hfree
    rw [reserve_of_not_free P.bounded.hp_le hfree]
    exact P.reserved_of_collected hslow fun hbad => hover ⟨hslow, hbad⟩

namespace Reserved

/-- Only a collection moves anything. -/
theorem relocates (V : h.Reserved words roots c) (P : h.Partitioned roots blocks) :
    ∃ ρ, h.Relocates roots c.heap c.roots ρ ∧
      (c.heap.stats.collections = h.stats.collections → ∀ v : Word w, v.move ρ = v) := by
  by_cases hfree : words ≤ h.free
  · rw [V.unmoved hfree]
    exact ⟨id, relocates_grant P.layout P.rooted words, fun _ => Word.move_id⟩
  · obtain ⟨d, ρ, hd, R, hroots, hheap⟩ := V.collected (Nat.not_le.mp hfree)
    have hcount := (collectFor_counts hd).2
    rw [hroots, hheap]
    split
    · refine ⟨ρ, ⟨R.rooted, R.matched, R.layout⟩, fun hsame => ?_⟩
      exact absurd (hcount.symm.trans hsame) (Nat.succ_ne_self _)
    · exact ⟨ρ, R, fun hsame => absurd (hcount.symm.trans hsame) (Nat.succ_ne_self _)⟩

theorem shortage_eq (V : h.Reserved words roots c) :
    c.shortage = if h.space.liveWords roots + words ≤ h.settings.maxWords then none
      else some ⟨words, h.space.liveWords roots, h.settings.maxWords⟩ := by
  split
  · next hfit => exact V.exact.mpr hfit
  · next hfull =>
    cases hs : c.shortage with
    | none => exact absurd (V.exact.mp hs) hfull
    | some missing => rw [(V.refused missing hs).1]

end Reserved

/-- The blocks placed one after the other, each of them within the reservation. -/
def placeAll (h : Heap w) : List (List (Word w)) → Except (Trap w) (Heap w)
  | [] => .ok h
  | contents :: rest => do
    let (_, k) ← (Alloc.store contents).complete h
    k.placeAll rest

/-- What can be placed is as many words as are reserved, in blocks of whatever sizes. -/
theorem Bounded.placeAll_iff (B : h.Bounded) (hlimit : h.limit = h.hp + words)
    (requests : List (List (Word w))) :
    (∃ k, h.placeAll requests = .ok k) ↔ (requests.map List.length).sum ≤ words := by
  induction requests generalizing h words with
  | nil => simp [placeAll]
  | cons contents rest ih =>
    rw [List.map_cons, List.sum_cons]
    by_cases hfit : contents.length ≤ words
    · have hroom : h.hp + contents.length ≤ h.limit := by omega
      have hplaced : (h.place contents).Bounded := B.place (p := ⟨.ofNat 0, contents⟩) (.inr hroom)
      have hleft : (h.place contents).limit = (h.place contents).hp + (words - contents.length) := by
        change h.limit = h.hp + contents.length + _
        omega
      have hstep : h.placeAll (contents :: rest) = (h.place contents).placeAll rest := by
        rw [placeAll, Alloc.complete_store, B.span_eq hroom]
        rfl
      rw [hstep, ih hplaced hleft]
      omega
    · refine iff_of_false ?_ (by omega)
      rintro ⟨k, hk⟩
      obtain ⟨_, hstore, _⟩ := of_except_bind_eq_ok hk
      have := (Alloc.complete_store_eq_ok hstore).1
      omega

end Heap

namespace Stack

def map (f : Word w → Word w) (s : Stack w) : Stack w := { s with slots := s.slots.map f }

variable {s : Stack w} {f : Word w → Word w} {vs : List (Word w)}

@[simp] theorem slots_map : (s.map f).slots.toList = s.slots.toList.map f := by simp [map]

theorem above_map_pushList : ((s.pushList vs).map f).above s.depth = vs.map f := by
  rw [above_eq, slots_map, slots_pushList, List.map_append]
  exact List.drop_left' (by rw [List.length_map, depth_eq])

theorem shrink_map_pushList :
    ((s.pushList vs).map f).shrink s.depth =
      { slots := s.slots.map f, highWater := (s.pushList vs).highWater } := by
  have hslots : (((s.pushList vs).map f).shrink s.depth).slots = s.slots.map f := by
    apply Array.toList_inj.mp
    rw [slots_shrink, slots_map, slots_pushList, List.map_append, Array.toList_map]
    exact List.take_left' (by rw [List.length_map, depth_eq])
  rw [← hslots]
  rfl

end Stack

namespace Machine

variable {m : Machine w} {temps : List (Word w)} {words : Nat} {c : Checkpoint w} {ρ : Nat → Nat}

/-! ### Riding on the stack -/

/-- A checkpoint gives new values to the roots, and keeps everything that is not in the heap. -/
theorem checkpoint_of_ok {f : Word w → Word w} (hc : m.heap.reserve words m.roots = .ok c)
    (hroots : c.roots = m.roots.map f) :
    checkpoint words m = .ok c.shortage
      { m with
        heap := c.heap
        stack := m.stack.map f
        result := f m.result
        journal := m.journal.recordHeap c.events } := by
  have hset : m.setRoots c.roots = { m with stack := m.stack.map f, result := f m.result } := by
    rw [hroots, roots, List.map_cons, setRoots, ← Array.toList_map, Array.toArray_toList]
    rfl
  rw [checkpoint_eq, hc]
  simp only [hset]

theorem checkpoint_of_error {t : Trap w} (hc : m.heap.reserve words m.roots = .error t) :
    ∃ n, checkpoint words m = .error (.trap t) n := by
  rw [checkpoint_eq, hc]
  exact ⟨_, rfl⟩

def laden (m : Machine w) (vs : List (Word w)) : Machine w :=
  { m with stack := m.stack.pushList vs }

theorem roots_laden (vs : List (Word w)) : (m.laden vs).roots = m.roots ++ vs :=
  roots_pushList m vs

/-- The machine that has let values ride across a checkpoint. Of them only the mark of the highest
depth is left. -/
def resumed (m : Machine w) (temps : List (Word w)) (c : Checkpoint w) (f : Word w → Word w) :
    Machine w :=
  { m with
    heap := c.heap
    stack := { slots := m.stack.slots.map f, highWater := (m.stack.pushList temps).highWater }
    result := f m.result
    journal := m.journal.recordHeap c.events }

theorem preallocSaving_of_lt (hfull : m.maxStackWords < m.slots.length + temps.length) :
    preallocSaving words temps m = .error (.error (.stackOverflow m.maxStackWords)) m :=
  bind_of_error (checkStack_of_lt hfull)

/-- The part of the reservation that follows the check. -/
theorem preallocSaving_of_le (hroom : m.slots.length + temps.length ≤ m.maxStackWords) :
    preallocSaving words temps m =
      (checkpoint words >>= fun shortage => do
        let n ← get
        truncate m.stack.depth
        return (n.stack.above m.stack.depth, shortage)) (m.laden temps) :=
  bind_of_ok (checkStack_of_le hroom)

theorem preallocSaving_of_error {t : Trap w}
    (hroom : m.slots.length + temps.length ≤ m.maxStackWords)
    (hc : m.heap.reserve words (m.roots ++ temps) = .error t) :
    ∃ n, preallocSaving words temps m = .error (.trap t) n := by
  rw [← roots_laden] at hc
  obtain ⟨n, hpoint⟩ := checkpoint_of_error (m := m.laden temps) hc
  exact ⟨n, by rw [preallocSaving_of_le hroom, bind_of_error hpoint]⟩

/-- What the checkpoint has put into the slots above the old depth is handed back. -/
theorem preallocSaving_of_ok {f : Word w → Word w}
    (hroom : m.slots.length + temps.length ≤ m.maxStackWords)
    (hc : m.heap.reserve words (m.roots ++ temps) = .ok c)
    (hroots : c.roots = (m.roots ++ temps).map f) :
    preallocSaving words temps m = .ok (temps.map f, c.shortage) (m.resumed temps c f) := by
  rw [← roots_laden] at hc hroots
  rw [preallocSaving_of_le hroom, bind_of_ok (checkpoint_of_ok hc hroots)]
  set n : Machine w :=
    { m.laden temps with
      heap := c.heap
      stack := (m.laden temps).stack.map f
      result := f (m.laden temps).result
      journal := (m.laden temps).journal.recordHeap c.events }
  have habove : n.stack.above m.stack.depth = temps.map f := Stack.above_map_pushList
  have hshrink : n.dropped m.stack.depth = m.resumed temps c f := by
    rw [dropped, resumed, ← Stack.shrink_map_pushList]
    rfl
  have hdeep : m.stack.depth ≤ n.slots.length := by
    change m.stack.depth ≤ ((m.stack.pushList temps).map f).slots.toList.length
    simp [depth_eq, slots]
  change (truncate m.stack.depth >>= fun _ => pure (n.stack.above m.stack.depth, c.shortage)) n = _
  rw [bind_of_ok (truncate_of_le hdeep), habove, hshrink]
  rfl

/-- Values held beside a machine have gone with it across a reservation: the result register, the
slots and the held values have all been moved by `ρ`, with the blocks they lead to, and nothing else
of the machine has changed. -/
structure Rides (m : Machine w) (vs : List (Word w)) (n : Machine w) (us : List (Word w))
    (ρ : Nat → Nat) : Prop where
  depth : n.stack.depth = m.stack.depth
  fp : n.fp = m.fp
  aside : n.names = m.names ∧ n.sink = m.sink ∧ n.steps = m.steps ∧
    n.maxStackWords = m.maxStackWords
  result : n.result = m.result.move ρ
  slots : n.slots = m.slots.map (Word.move ρ)
  held : us = vs.map (Word.move ρ)
  relocates : m.heap.Relocates (m.roots ++ vs) n.heap (n.roots ++ us) ρ
  partitioned : ∃ blocks, n.heap.Partitioned (n.roots ++ us) blocks
  unfolds : ∀ v ∈ m.roots ++ vs, ∀ t,
    n.heap.space.Unfolds (v.move ρ) t ↔ m.heap.space.Unfolds v t
  unmoved : n.heap.stats.collections = m.heap.stats.collections → ∀ v : Word w, v.move ρ = v

/-- Values that have ridden across a checkpoint have moved with the machine. -/
theorem rides_resumed (V : m.heap.Reserved words (m.roots ++ temps) c)
    (R : m.heap.Relocates (m.roots ++ temps) c.heap c.roots ρ)
    (hstill : c.heap.stats.collections = m.heap.stats.collections → ∀ v : Word w, v.move ρ = v) :
    m.Rides temps (m.resumed temps c (Word.move ρ)) (temps.map (Word.move ρ)) ρ := by
  obtain ⟨blocks, P⟩ := V.partitioned
  have hroots : (m.resumed temps c (Word.move ρ)).roots ++ temps.map (Word.move ρ) = c.roots := by
    rw [R.roots_eq, List.map_append]
    simp [resumed, roots]
  exact
    { depth := by simp [resumed, Stack.depth]
      fp := rfl
      aside := ⟨rfl, rfl, rfl, rfl⟩
      result := rfl
      slots := by simp [resumed, Machine.slots]
      held := rfl
      relocates := by
        rw [hroots]
        exact R
      partitioned := by
        rw [hroots]
        exact ⟨blocks, P⟩
      unfolds := by
        intro v hv t
        refine R.matched.unfolds_iff (R.word_matched P.bounded fun r hr => ?_)
        exact .root hv hr
      unmoved := hstill }

/-- A reservation that holds on to values is a safe point. Where the stack has no room for them it
fails and has done nothing. Else, whether or not the words are to be had, the values come back and
the machine goes on, both moved by one relocation, which does nothing unless there was a collection;
and if the words are to be had, as many as were asked for can be placed. -/
theorem preallocSaving_transparent (m : Machine w) (words : Nat) (temps : List (Word w))
    (blocks : Set Ref) (P : m.heap.Partitioned (m.roots ++ temps) blocks) :
    (m.maxStackWords < m.stack.depth + temps.length →
      preallocSaving words temps m = .error (.error (.stackOverflow m.maxStackWords)) m) ∧
    (m.stack.depth + temps.length ≤ m.maxStackWords →
      (m.heap.free < words ∧ m.heap.Overgrows words (m.roots ++ temps) ∧
        ∃ n, preallocSaving words temps m = .error (.trap .bounds) n) ∨
      (¬ (m.heap.free < words ∧ m.heap.Overgrows words (m.roots ++ temps)) ∧
        ∃ temps' shortage n ρ, preallocSaving words temps m = .ok (temps', shortage) n ∧
          m.Rides temps n temps' ρ ∧
          shortage = (if m.heap.space.liveWords (m.roots ++ temps) + words ≤
              m.heap.settings.maxWords then none
            else some ⟨words, m.heap.space.liveWords (m.roots ++ temps),
              m.heap.settings.maxWords⟩) ∧
          (shortage = none → ∀ requests, (∃ k, n.heap.placeAll requests = .ok k) ↔
            (requests.map List.length).sum ≤ words))) := by
  rw [depth_eq]
  refine ⟨preallocSaving_of_lt, fun hroom => ?_⟩
  by_cases hover : m.heap.free < words ∧ m.heap.Overgrows words (m.roots ++ temps)
  · have herr := Heap.reserve_of_overgrows P hover.1 hover.2
    exact .inl ⟨hover.1, hover.2, preallocSaving_of_error hroom herr⟩
  · obtain ⟨c, hc, V⟩ := Heap.reserve_of_not_overgrows P hover
    obtain ⟨ρ, R, hstill⟩ := V.relocates P
    refine .inr ⟨hover, _, _, _, ρ, preallocSaving_of_ok hroom hc R.roots_eq,
      rides_resumed V R hstill, V.shortage_eq, fun hs requests => ?_⟩
    obtain ⟨_, P'⟩ := V.partitioned
    exact P'.bounded.placeAll_iff (V.granted hs).2 requests

def holding : Machine .bits64 where
  heap := Heap.lookalike
  stack := { slots := #[.ofNat 8, (Ref.mk 12 true).word], highWater := 2 }
  fp := 1
  maxStackWords := 4

theorem holding_partitioned :
    holding.heap.Partitioned (holding.roots ++ [(Ref.mk 9 false).word, .ofNat 12])
      {r | r ∈ Heap.lookalikeBlocks} :=
  { Heap.lookalike_partitioned with rooted := by decide }

/-- Two words are free and three are asked for. The list cell that is held is also a field of the
pair on the stack, and both are moved to where the collection has put them. One more value would not
fit on the stack. -/
theorem preallocSaving_transparent_holding :
    holding.heap.Partitioned (holding.roots ++ [(Ref.mk 9 false).word, .ofNat 12])
      {r | r ∈ Heap.lookalikeBlocks} ∧
    holding.heap.free = 2 ∧
    (∃ n ρ, preallocSaving 3 [(Ref.mk 9 false).word, .ofNat 12] holding =
        .ok ([(Ref.mk 9 false).word.move ρ, .ofNat 12], none) n ∧
      n.slots = [.ofNat 8, (Ref.mk 12 true).word.move ρ] ∧ n.fp = 1 ∧
      n.heap.space.Unfolds ((Ref.mk 9 false).word.move ρ)
        (.node (.constructor 9 2) [.immediate (.ofNat 4), .immediate (.ofNat 8)])) ∧
    preallocSaving 3 [.ofNat 4, .ofNat 4, .ofNat 4] holding =
      .error (.error (.stackOverflow 4)) holding := by
  have P := holding_partitioned
  have P' : holding.heap.Partitioned (holding.roots ++ [.ofNat 4, .ofNat 4, .ofNat 4])
      {r | r ∈ Heap.lookalikeBlocks} :=
    { P with rooted := by decide }
  refine ⟨P, by decide, ?_, (preallocSaving_transparent holding 3 _ _ P').1 (by decide)⟩
  obtain ⟨_, hover, _⟩ | ⟨_, temps, shortage, n, ρ, hrun, R, hs, _⟩ :=
    (preallocSaving_transparent holding 3 _ _ P).2 (by decide)
  · exact absurd hover (P.bounded.not_overgrows (by decide) _ _)
  · have hlive := P.bounded.liveWords_le P.layout P.rooted
    have hfits : holding.heap.space.liveWords
        (holding.roots ++ [(Ref.mk 9 false).word, .ofNat 12]) + 3 ≤
          holding.heap.settings.maxWords := by
      change _ ≤ 14 at hlive
      change _ ≤ 32
      omega
    rw [if_pos hfits] at hs
    have himm : ∀ v : Word .bits64, v.ref? = none → v.move ρ = v := fun v => Word.move_of_none
    refine ⟨n, ρ, ?_, ?_, R.fp, ?_⟩
    · rw [hrun, hs, R.held, List.map_cons, List.map_cons, himm (.ofNat 12) (by decide)]
      rfl
    · rw [R.slots]
      change [Word.move ρ _, Word.move ρ _] = _
      rw [himm (.ofNat 8) (by decide)]
    · rw [R.unfolds _ (by decide)]
      exact .block (r := ⟨9, false⟩) (by decide)
        (.cons (.immediate (by decide)) (.cons (.immediate (by decide)) .nil))

end Machine

end Trampoline
