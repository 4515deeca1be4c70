import Trampoline.Proofs.Agreement

/-!
The stack of a machine as the list of its slots, from the bottom up, and small facts about programs
and about what is recorded.
-/

namespace Trampoline

variable {w : Width}

namespace Stack

variable (s : Stack w)

theorem depth_eq : s.depth = s.slots.toList.length := by simp [depth]

@[simp] theorem slots_push (v : Word w) : (s.push v).slots.toList = s.slots.toList ++ [v] := by
  simp [push]

@[simp] theorem highWater_push (v : Word w) :
    (s.push v).highWater = max s.highWater (s.depth + 1) := by
  simp [push, depth]

@[simp] theorem slots_pushList (vs : List (Word w)) :
    (s.pushList vs).slots.toList = s.slots.toList ++ vs := by
  induction vs generalizing s with
  | nil => simp [pushList]
  | cons v vs ih =>
    have h := ih (s.push v)
    simp only [pushList, List.foldl_cons] at h ⊢
    rw [h]
    simp

/-- Pushing raises the mark of a stack to its new depth. -/
theorem highWater_pushList {s : Stack w} (hmark : s.depth ≤ s.highWater) (vs : List (Word w)) :
    (s.pushList vs).highWater = max s.highWater (s.depth + vs.length) := by
  induction vs generalizing s with
  | nil => simp [pushList, hmark]
  | cons v vs ih =>
    have hdepth : (s.push v).depth = s.depth + 1 := by simp [depth_eq]
    have h := ih (s := s.push v) (by rw [highWater_push, hdepth]; exact Nat.le_max_right _ _)
    rw [highWater_push, hdepth] at h
    simp only [pushList, List.foldl_cons, List.length_cons] at h ⊢
    rw [h]
    omega

theorem eq_of_slots {s t : Stack w} (hslots : s.slots.toList = t.slots.toList)
    (hmark : s.highWater = t.highWater) : s = t := by
  obtain ⟨⟨slots⟩, mark⟩ := s
  obtain ⟨⟨slots'⟩, mark'⟩ := t
  cases hslots
  cases hmark
  rfl

@[simp] theorem slots_replace (i : Nat) (v : Word w) :
    (s.replace i v).slots.toList = s.slots.toList.set i v := by
  simp [replace]

@[simp] theorem slots_shrink (d : Nat) : (s.shrink d).slots.toList = s.slots.toList.take d := by
  simp [shrink]

theorem above_eq (d : Nat) : s.above d = s.slots.toList.drop d := by
  simp only [above, Array.toList_extract, List.extract_eq_take_drop]
  exact List.take_of_length_le (by simp)

theorem get_eq_ok {i : Nat} {v : Word w} (h : s.get i = .ok v) :
    s.slots.toList[i]? = some v := by
  unfold get at h
  split at h
  · next hv => cases h; simpa using hv
  · cases h

theorem get_of_some {i : Nat} {v : Word w} (h : s.slots.toList[i]? = some v) :
    s.get i = .ok v := by
  unfold get
  rw [← Array.getElem?_toList, h]

end Stack

namespace Program

variable {κ μ : Type} (p : Program κ) (f : κ → μ)

theorem slot?_map (l : Label) :
    (p.map f).slot? l = (p.slot? l).map fun s => ⟨s.name, s.maxAlloc, s.code.map f⟩ := by
  simp [slot?, map]

theorem labelName?_map (l : Label) : (p.map f).labelName? l = p.labelName? l := by
  simp only [labelName?, slot?_map, Option.map_map]
  rfl

end Program

namespace Machine

def slots (m : Machine w) : List (Word w) := m.stack.slots.toList

theorem depth_eq (m : Machine w) : m.stack.depth = m.slots.length := m.stack.depth_eq

theorem roots_eq (m : Machine w) : m.roots = m.result :: m.slots := rfl

theorem setRoots_roots (m : Machine w) : m.setRoots m.roots = m := by
  simp [setRoots, roots]

theorem fp_setRoots (m : Machine w) (vs : List (Word w)) : (m.setRoots vs).fp = m.fp := by
  cases vs <;> rfl

theorem maxStackWords_setRoots (m : Machine w) (vs : List (Word w)) :
    (m.setRoots vs).maxStackWords = m.maxStackWords := by
  cases vs <;> rfl

/-- Roots are put back into as many slots as there were. -/
theorem depth_setRoots {m : Machine w} {vs : List (Word w)} (h : vs.length = m.roots.length) :
    (m.setRoots vs).stack.depth = m.stack.depth ∧
      (m.setRoots vs).stack.highWater = m.stack.highWater := by
  cases vs with
  | nil => exact ⟨rfl, rfl⟩
  | cons v vs =>
    rw [roots_eq, List.length_cons, List.length_cons] at h
    refine ⟨?_, rfl⟩
    rw [depth_eq m, Stack.depth_eq]
    exact Nat.succ.inj h

/-- A checkpoint is a reservation from the roots. If it traps, it is in the collection, unless the
space has been lost before. -/
theorem checkpoint_eq (words : Nat) (m : Machine w) :
    checkpoint words m =
      match m.heap.reserve words m.roots with
      | .error t => .error (.trap t) (if m.heap.capacity < m.heap.hp then m else m.wrecked)
      | .ok c => .ok c.shortage
        { m.setRoots c.roots with heap := c.heap, journal := m.journal.recordHeap c.events } := by
  unfold checkpoint Heap.reserve
  change (ite _ _ _ : Op w _) m = _
  by_cases hlost : m.heap.capacity < m.heap.hp
  · rw [if_pos hlost, if_pos hlost, if_pos hlost]
    rfl
  rw [if_neg hlost, if_neg hlost, if_neg hlost]
  by_cases hfree : words ≤ m.heap.free
  · rw [if_pos hfree, if_pos hfree]
    simp only [setRoots_roots]
    rfl
  · rw [if_neg hfree, if_neg hfree]
    cases m.heap.reclaim words m.roots with
    | error t => rfl
    | ok c => rfl

/-- What a collection from the roots of a machine leaves. -/
theorem collect_eq (m : Machine w) :
    collect m =
      match m.heap.collect m.roots with
      | .error t => .error (.trap t) m.wrecked
      | .ok c => .ok ()
        { m.setRoots c.roots with heap := c.heap, journal := m.journal.recordHeap c.events } := by
  unfold collect
  change (settle (m.heap.collect m.roots) >>= fun _ => pure ()) m = _
  cases m.heap.collect m.roots with
  | error t => rfl
  | ok c => rfl

/-! ### What is recorded does not matter -/

/-- Recording an event about a label traps if the label has no name, and else adds to the journal
only. -/
theorem recordNamed_cases (p : Program (Code w)) (label : Label) (event : String → Event w)
    (m : Machine w) :
    (∃ t m', recordNamed p label event m = .error (.trap t) m') ∨
      ∃ j, recordNamed p label event m = .ok () { m with journal := j } := by
  by_cases hr : m.journal.records .debug = true
  · cases hn : p.labelName? label with
    | none =>
      left
      refine ⟨.bounds, m, ?_⟩
      change (ite _ _ _ : Op w Unit) m = _
      rw [if_pos hr, hn]
      rfl
    | some name =>
      right
      refine ⟨m.journal.record (event name), ?_⟩
      change (ite _ _ _ : Op w Unit) m = _
      rw [if_pos hr, hn]
      rfl
  · right
    refine ⟨m.journal, ?_⟩
    change (ite _ _ _ : Op w Unit) m = _
    rw [if_neg hr]
    rfl

theorem dumpStack_eq (m : Machine w) : ∃ j, dumpStack m = .ok () { m with journal := j } := by
  change ∃ j, (ite _ _ _ : Op w Unit) m = _
  by_cases hr : m.journal.records .debug = true
  · rw [if_pos hr]
    exact ⟨_, rfl⟩
  · rw [if_neg hr]
    exact ⟨m.journal, rfl⟩

theorem reportFailure_cases (p : Program (Code w)) (e : RuntimeError) (label : Label)
    (m : Machine w) :
    (∃ t m', reportFailure p e label m = .error (.trap t) m') ∨
      ∃ j, reportFailure p e label m = .ok () { m with journal := j } := by
  change (∃ t m', (recordNamed p label _ >>= fun _ => dumpStack) m = .error (.trap t) m') ∨
    ∃ j, (recordNamed p label _ >>= fun _ => dumpStack) m = .ok () { m with journal := j }
  obtain ⟨t, m', ht⟩ | ⟨j, hj⟩ := recordNamed_cases p label (.runFailed e) m
  · exact .inl ⟨t, m', bind_of_error ht⟩
  · obtain ⟨l, hl⟩ := dumpStack_eq { m with journal := j }
    exact .inr ⟨l, (bind_of_ok hj).trans hl⟩

end Machine

end Trampoline
