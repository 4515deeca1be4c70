import Trampoline.Proofs.Observation
import Trampoline.Proofs.Stacks

/-!
What is kept, whatever the code: the sizes of the heap stay in order.

This holds of careless code too. A plan for a new object is made only when the reservation has room
for it, and a collection copies no more words than the old space holds. So it does of a machine from
its making on.
-/

namespace Trampoline

variable {w : Width}

/-! ### Collections -/

namespace Evacuation

/-- The copied words fit into `room` words, and so do those of the source. -/
structure Within (room : Nat) (e : Evacuation w) : Prop where
  capacity : e.source.capacity = room
  size : e.target.size ≤ room

variable {room : Nat} {e e' : Evacuation w} {v : Word w}

/-- What a copy that goes through has found and done. -/
theorem copy_eq_ok {r : Ref} {hr : r.offset < e.marked.size} (hc : e.copy r hr = .ok (v, e')) :
    ∃ block, 0 < block.length ∧ e.target.size + block.length ≤ e.source.capacity ∧
      e' = e.copied r hr block := by
  obtain ⟨shape, hshape, hc⟩ := of_except_bind_eq_ok hc
  obtain ⟨block, hblock, hc⟩ := of_except_bind_eq_ok hc
  dsimp only at hc
  split at hc
  · cases hc
  · next hroom =>
    obtain ⟨moved, hmoved, hc⟩ := of_except_bind_eq_ok hc
    obtain ⟨_, rfl⟩ := Ref.checked_eq_ok hmoved
    cases hc
    have hlength : block.length = shape.words := by
      rw [(Space.slice_eq_ok hblock).2, Space.length_segment]
    have hpos : 0 < shape.words := by
      rw [Space.shape_eq_ok hshape]
      exact e.source.extent_pos r
    exact ⟨block, by omega, by omega, rfl⟩

/-- A forwarding copies one block, that of an unmarked reference, or changes nothing. -/
theorem forward_eq_ok {u : Word w} (hf : e.forward v = .ok (u, e')) :
    e' = e ∨ ∃ r, ∃ hr : r.offset < e.marked.size, ∃ block, v.ref? = some r ∧
      e.marked[r.offset] = false ∧ 0 < block.length ∧
      e.target.size + block.length ≤ e.source.capacity ∧ e' = e.copied r hr block := by
  unfold Evacuation.forward at hf
  split at hf
  · cases hf
    exact .inl rfl
  · next r hv =>
    split at hf
    · next hr =>
      split at hf
      · obtain ⟨offset, _, hf⟩ := of_except_bind_eq_ok hf
        obtain ⟨moved, _, hf⟩ := of_except_bind_eq_ok hf
        cases hf
        exact .inl rfl
      · next hm =>
        obtain ⟨block, hpos, hroom, he⟩ := copy_eq_ok hf
        exact .inr ⟨r, hr, block, hv, by simpa using hm, hpos, hroom, he⟩
    · cases hf

theorem size_copied {r : Ref} {hr : r.offset < e.marked.size} {block : List (Word w)} :
    (e.copied r hr block).target.size = e.target.size + block.length := by
  rw [copied, ← Array.length_toList, Array.toList_appendList, List.length_append,
    Array.length_toList]

theorem Within.copied (h : Within room e) {r : Ref} (hr : r.offset < e.marked.size)
    {block : List (Word w)} (hroom : e.target.size + block.length ≤ e.source.capacity) :
    Within room (e.copied r hr block) := by
  refine ⟨(Space.put_capacity _ _ _).trans h.capacity, ?_⟩
  rw [size_copied, ← h.capacity]
  exact hroom

theorem Within.stored (h : Within room e) (i : Nat) (v : Word w) : Within room (e.stored i v) := by
  refine ⟨h.capacity, ?_⟩
  rw [Evacuation.stored, Array.size_setIfInBounds]
  exact h.size

theorem Within.forward (h : Within room e) {u : Word w} (hf : e.forward v = .ok (u, e')) :
    Within room e' := by
  obtain rfl | ⟨r, hr, block, _, _, _, hroom, rfl⟩ := forward_eq_ok hf
  · exact h
  · exact h.copied hr hroom

/-- Copied words stay within the room while words of a list are forwarded. -/
theorem Within.forwardList (h : Within room e) {done vs us : List (Word w)}
    (hf : e.forwardList done vs = .ok (us, e')) : Within room e' := by
  induction vs generalizing e done with
  | nil =>
    cases hf
    exact h
  | cons v vs ih =>
    unfold Evacuation.forwardList at hf
    split at hf
    · cases hf
    · next u e₁ hv => exact ih (h.forward hv) hf

/-- They stay within it while a block is scanned. -/
theorem Within.scan (h : Within room e) {i n : Nat} (hs : e.scan i n = .ok e') :
    Within room e' := by
  induction n generalizing e i with
  | zero =>
    cases hs
    exact h
  | succ n ih =>
    unfold Evacuation.scan at hs
    split at hs
    · split at hs
      · cases hs
      · next u e₁ hv => exact ih ((h.forward hv).stored i u) hs
    · cases hs

theorem Within.drain (h : Within room e) (hd : e.drain = .ok e') : Within room e' := by
  fun_induction Evacuation.drain e with
  | case1 e hp =>
    cases hd
    exact h
  | case2 => cases hd
  | case3 => cases hd
  | case4 e r rest hp shape hshape e₁ hscan ih =>
    have h₁ : Within room { e with pending := rest } := ⟨h.capacity, h.size⟩
    exact ih (h₁.scan hscan) hd

/-- An evacuation copies no more than the source has room for. -/
theorem size_le_of_run {s : Space w} {used : Nat} {roots moved : List (Word w)}
    (h : run s used roots = .ok (moved, e)) : e.target.size ≤ s.capacity := by
  obtain ⟨⟨moved', e₁⟩, hroots, h⟩ := of_except_bind_eq_ok h
  obtain ⟨e₂, hdrain, h⟩ := of_except_bind_eq_ok h
  cases h
  have hstart : Within s.capacity (start s used) := ⟨rfl, Nat.zero_le _⟩
  exact ((hstart.forwardList hroots).drain hdrain).size

theorem length_forwardList {done vs us : List (Word w)}
    (hf : e.forwardList done vs = .ok (us, e')) : us.length = done.length + vs.length := by
  induction vs generalizing e done with
  | nil =>
    cases hf
    simp
  | cons v vs ih =>
    unfold Evacuation.forwardList at hf
    split at hf
    · cases hf
    · rw [ih hf, List.length_cons, List.length_cons]
      omega

theorem length_of_run {s : Space w} {used : Nat} {roots moved : List (Word w)}
    (h : run s used roots = .ok (moved, e)) : moved.length = roots.length := by
  obtain ⟨⟨moved', e₁⟩, hroots, h⟩ := of_except_bind_eq_ok h
  obtain ⟨e₂, _, h⟩ := of_except_bind_eq_ok h
  cases h
  simpa using length_forwardList hroots

theorem length_forwardUntil (e : Evacuation w) (vs : List (Word w)) :
    (e.forwardUntil vs).length = vs.length := by
  induction vs generalizing e with
  | nil => rfl
  | cons v vs ih =>
    unfold forwardUntil
    split
    · rfl
    · rw [List.length_cons, List.length_cons, ih]

end Evacuation

namespace Heap

variable {h : Heap w}

theorem Bounded.grant (B : h.Bounded) {words : Nat} (hfree : words ≤ h.free) :
    (h.grant words).Bounded := by
  have hhp := B.hp_le
  refine ⟨hhp, ?_, B.capacity_le, B.max_le⟩
  simp only [Heap.grant, Heap.capacity, Heap.free] at *
  omega

/-- What a collection that had to serve `words` words leaves, in terms of the heap pointer. -/
structure Collected (h : Heap w) (words : Nat) (roots : List (Word w)) (c : Checkpoint w) :
    Prop where
  hp_le : c.heap.hp ≤ h.capacity
  limit : c.heap.limit = c.heap.hp
  settings : c.heap.settings = h.settings
  capacity : c.heap.capacity = h.capacityFor c.heap.hp words
  stats : c.heap.stats =
    { collections := h.stats.collections + 1
      grows := if h.capacity < h.capacityFor c.heap.hp words then h.stats.grows + 1
        else h.stats.grows
      wordsAllocated := h.stats.wordsAllocated
      wordsCopied := h.stats.wordsCopied + c.heap.hp
      lastLiveWords := c.heap.hp
      peakCapacity := if h.capacity < h.capacityFor c.heap.hp words then
        max h.stats.peakCapacity (h.capacityFor c.heap.hp words) else h.stats.peakCapacity }
  length : c.roots.length = roots.length
  granted : c.shortage = none

/-- The parts of a heap that a collection leaves, apart from its words. -/
theorem collectFor_collected {words : Nat} {roots : List (Word w)} {c : Checkpoint w}
    (hc : h.collectFor words roots = .ok c) : h.Collected words roots c := by
  obtain ⟨⟨moved, e⟩, hrun, hc⟩ := of_except_bind_eq_ok hc
  have hsize : e.target.size ≤ h.capacity := Evacuation.size_le_of_run hrun
  have hlength := Evacuation.length_of_run hrun
  dsimp only at hc
  split at hc
  · next hgrow =>
    obtain ⟨capacity, hcapacity, hc⟩ := of_except_bind_eq_ok hc
    unfold Size.ofWords at hcapacity
    split at hcapacity
    · cases hcapacity
      cases hc
      exact ⟨hsize, rfl, rfl, rfl, by rw [if_pos hgrow, if_pos hgrow], hlength, rfl⟩
    · cases hcapacity
  · next hgrow =>
    cases hc
    exact ⟨hsize, rfl, rfl, rfl, by rw [if_neg hgrow, if_neg hgrow], hlength, rfl⟩

/-- A collection that traps leaves as many roots as there were. -/
theorem length_wreck (h : Heap w) (roots : List (Word w)) :
    (h.wreck roots).2.length = roots.length := by
  unfold wreck
  split
  · exact Evacuation.length_forwardUntil _ _
  · next hrun => exact Evacuation.length_of_run hrun

theorem Bounded.collectFor (B : h.Bounded) {words : Nat} {roots : List (Word w)}
    {c : Checkpoint w} (hc : h.collectFor words roots = .ok c) :
    c.heap.Bounded ∧ c.heap.settings = h.settings := by
  have C := collectFor_collected hc
  have hgrow := h.capacity_le_capacityFor c.heap.hp words
  have hmax := B.capacityFor_le c.heap.hp words
  rw [← C.capacity] at hgrow hmax
  have hhp := C.hp_le.trans hgrow
  exact ⟨⟨hhp, C.limit.trans_le hhp, C.settings ▸ hmax, C.settings ▸ B.max_le⟩, C.settings⟩

/-- A collection leaves nothing reserved, and is counted. -/
theorem collectFor_counts {words : Nat} {roots : List (Word w)} {c : Checkpoint w}
    (hc : h.collectFor words roots = .ok c) :
    c.heap.limit = c.heap.hp ∧ c.heap.stats.collections = h.stats.collections + 1 := by
  have C := collectFor_collected hc
  exact ⟨C.limit, by rw [C.stats]⟩

/-- A checkpoint leaves the sizes of the heap in order. -/
theorem Bounded.reserve (B : h.Bounded) {words : Nat} {roots : List (Word w)} {c : Checkpoint w}
    (hc : h.reserve words roots = .ok c) : c.heap.Bounded ∧ c.heap.settings = h.settings := by
  obtain ⟨hfree, rfl⟩ | ⟨_, hc⟩ := reserve_eq_ok hc
  · exact ⟨B.grant hfree, rfl⟩
  · obtain ⟨c', hc', hc⟩ := of_except_bind_eq_ok hc
    obtain ⟨B', hset⟩ := B.collectFor hc'
    split at hc
    · cases hc
      exact ⟨B', hset⟩
    · next hfree =>
      cases hc
      exact ⟨B'.grant (by omega), hset⟩

def Fits (h : Heap w) (p : Plan w) : Prop :=
  p.contents = [] ∨ h.hp + p.contents.length ≤ h.limit

/-- A plan that fits leaves the sizes in order. -/
theorem Bounded.place (B : h.Bounded) {p : Plan w} (hp : h.Fits p) :
    (h.place p.contents).Bounded := by
  have hlimit := B.limit_le
  have hcapacity : (h.place p.contents).capacity = h.capacity := Space.write_capacity _ _ _
  refine ⟨?_, ?_, ?_, B.max_le⟩
  · rw [hcapacity]
    obtain hnil | hroom := hp
    · rw [hnil]
      exact B.hp_le
    · exact hroom.trans hlimit
  · rw [hcapacity]
    exact hlimit
  · rw [hcapacity]
    exact B.capacity_le

variable {p : Plan w} {vs : List (Word w)}

theorem fits_construct {c : Constructor} (hp : h.planConstruct c vs = .ok p) : h.Fits p := by
  obtain ⟨_, ⟨_, v, _, rfl⟩ | ⟨_, header, _, hfit, rfl⟩⟩ := planConstruct_eq_ok hp
  · exact .inl rfl
  · right
    simpa [Nat.add_comm] using hfit

theorem fits_makePair {v u : Word w} (hp : h.planPair v u = .ok p) : h.Fits p := by
  obtain ⟨hfit, rfl⟩ := planPair_eq_ok hp
  exact .inr hfit

theorem fits_makeClosure {f : Function} (hp : h.planClosure f vs = .ok p) : h.Fits p := by
  obtain ⟨header, _, _, hfit, rfl⟩ := planClosure_eq_ok hp
  right
  simp only [List.length_append, List.length_cons, List.length_nil]
  omega

theorem fits_extend {c : ClosureView w} (hp : h.planExtend c vs = .ok p) : h.Fits p := by
  obtain ⟨⟨offset, words⟩, hcopy, hp⟩ := of_except_bind_eq_ok hp
  obtain ⟨header, _, hp⟩ := of_except_bind_eq_ok hp
  obtain ⟨r, _, hp⟩ := of_except_bind_eq_ok hp
  cases hp
  obtain ⟨_, _, hfit, _, rfl⟩ := planCopy_eq_ok hcopy
  right
  simp only [Shape.closure, Shape.words] at hfit ⊢
  simp only [List.length_append, List.length_cons, List.length_tail, Space.length_segment]
  omega

end Heap

/-! ### Operations -/

/-- A computation that keeps a property of the state, however it ends. -/
def Keeps {σ α : Type} (I : σ → Prop) (x : EStateM (Fault w RuntimeError) σ α) : Prop :=
  ∀ s, I s → I (Outcome.state (x s))

namespace Keeps

variable {σ α β : Type} {I : σ → Prop}

theorem pure (a : α) : Keeps (w := w) I (Pure.pure a) := fun _ h => h

theorem throw (e : Fault w RuntimeError) : Keeps (α := α) I (throw e) := fun _ h => h

/-- Two computations in a row keep what each of them keeps. -/
theorem bind {x : EStateM (Fault w RuntimeError) σ α} {f : α → EStateM (Fault w RuntimeError) σ β}
    (hx : Keeps I x) (hf : ∀ a, Keeps I (f a)) : Keeps I (x >>= f) := by
  intro s hs
  have h := hx s hs
  cases hxs : x s with
  | ok a s' =>
    rw [hxs] at h
    rw [bind_of_ok hxs]
    exact hf a s' h
  | error e s' =>
    rw [hxs] at h
    rw [bind_of_error hxs]
    exact h

theorem get {f : σ → EStateM (Fault w RuntimeError) σ β}
    (hf : ∀ s, Keeps I (f s)) : Keeps I (MonadState.get >>= f) := fun s hs => hf s s hs

theorem modify {f : σ → σ} (hf : ∀ s, I s → I (f s)) :
    Keeps (w := w) I (modify f) := fun s hs => hf s hs

theorem ite {c : Prop} [Decidable c] {x y : EStateM (Fault w RuntimeError) σ α} (hx : Keeps I x)
    (hy : Keeps I y) : Keeps I (if c then x else y) := by
  split
  · exact hx
  · exact hy

/-- What may trap changes nothing. -/
theorem except {I : Machine w → Prop} (r : Except (Trap w) α) : Keeps I (liftM r : Op w α) := by
  cases r with
  | ok a => exact .pure a
  | error t => exact .throw _

end Keeps

/-! ### Machines that have been made -/

namespace Machine

theorem validate_heap {s : HeapSettings} (h : s.validate w = .ok ()) :
    s.initialWords ≤ s.maxWords ∧ s.maxWords ≤ w.maxOffset := by
  unfold HeapSettings.validate at h
  split at h
  · cases h
  · split at h
    · cases h
    · split at h
      · cases h
      · omega

/-- Settings that are valid for a machine are valid for its heap, and the stack fits a small
integer. -/
theorem validate_machine {s : MachineSettings} (h : s.validate w = .ok ()) :
    s.heap.validate w = .ok () ∧ (s.maxStackWords : Int) ≤ w.maxInt := by
  unfold MachineSettings.validate at h
  obtain ⟨_, hheap, h⟩ := of_except_bind_eq_ok h
  refine ⟨hheap, ?_⟩
  by_cases hlink : w.maxInt < s.maxStackWords
  · by_cases hsmall : s.maxStackWords < 16
    · rw [if_pos hsmall] at h
      cases h
    · rw [if_neg hsmall, if_pos hlink] at h
      cases h
  · exact Int.not_lt.mp hlink

end Machine

namespace Heap

variable {s : HeapSettings}

def vacant (s : HeapSettings) : Heap w :=
  { space := .empty s.initialWords
    hp := 0
    limit := 0
    settings := s
    stats := { peakCapacity := s.initialWords } }

theorem create_vacant (hvalid : s.validate w = .ok ()) (hroom : s.initialWords ≤ w.maxSpaceWords) :
    create s = .ok (vacant s : Heap w) := by
  unfold create
  rw [hvalid]
  simp only [Size.ofWords, if_pos hroom]
  rfl

/-- A heap is only made with valid settings, and then empty. -/
theorem create_eq_ok {h : Heap w} (hc : create s = .ok h) :
    s.validate w = .ok () ∧ h = vacant s := by
  unfold create at hc
  split at hc
  · cases hc
  · next hvalid =>
    refine ⟨hvalid, ?_⟩
    obtain ⟨capacity, hcapacity, hc⟩ := of_except_bind_eq_ok hc
    unfold Size.ofWords at hcapacity
    split at hcapacity
    · cases hcapacity
      cases hc
      rfl
    · cases hcapacity

theorem bounded_vacant (hvalid : s.validate w = .ok ()) : (vacant s : Heap w).Bounded := by
  obtain ⟨hinitial, hmax⟩ := Machine.validate_heap hvalid
  exact ⟨Nat.zero_le _, Nat.zero_le _, hinitial, hmax⟩

end Heap

namespace Machine

variable {s : MachineSettings}

/-- The sizes of the heap are in order, and the machine has the given settings. -/
structure Made (s : MachineSettings) (m : Machine w) : Prop where
  heap : m.heap.Bounded
  settings : m.heap.settings = s.heap
  stack : m.maxStackWords = s.maxStackWords

/-- A new machine has an empty heap, and nothing but the unit value to start with. -/
theorem create_eq {sink : Sink w} {journal : Journal w} {m : Machine w}
    (h : create s sink journal = .ok m) :
    s.validate w = .ok () ∧ ∃ j,
      m = { heap := .vacant s.heap, sink, maxStackWords := s.maxStackWords, journal := j } := by
  unfold create at h
  split at h
  · cases h
  · next hvalid =>
    dsimp only at h
    split at h
    · cases h
    · next hcreate =>
      cases h
      rw [(Heap.create_eq_ok hcreate).2]
      exact ⟨hvalid, _, rfl⟩

/-- A new machine has valid settings, and is as they say. -/
theorem create_eq_ok {sink : Sink w} {journal : Journal w} {m : Machine w}
    (h : create s sink journal = .ok m) : s.validate w = .ok () ∧ Made s m := by
  obtain ⟨hvalid, _, rfl⟩ := create_eq h
  exact ⟨hvalid, Heap.bounded_vacant (validate_machine hvalid).1, rfl, rfl⟩

def blank (s : MachineSettings) : Machine w :=
  { heap :=
      { space := .empty s.heap.initialWords
        hp := 0
        limit := 0
        settings := s.heap
        stats := { peakCapacity := s.heap.initialWords } }
    maxStackWords := s.maxStackWords }

theorem create_blank (hvalid : s.validate w = .ok ()) (hroom : s.heap.initialWords ≤ w.maxSpaceWords) :
    create s {} {} = .ok (blank s : Machine w) := by
  have hcreate : Heap.create s.heap = .ok (blank s : Machine w).heap :=
    Heap.create_vacant (validate_machine hvalid).1 hroom
  unfold create
  rw [hvalid]
  simp only [hcreate]
  rfl

end Machine

end Trampoline
