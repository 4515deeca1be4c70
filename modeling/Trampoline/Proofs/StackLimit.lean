import Trampoline.Proofs.Custody
import Trampoline.Proofs.Service

/-!
The stack never outgrows its limit.

Words are pushed only after a check that they fit, so the mark of the stack, which is the largest
depth it has had, stays within the limit. The limit fits a small integer, and so does every depth
that a call stores as a link and every number of arguments in a pending block.
-/

namespace Trampoline

variable {w : Width}

/-- A reservation moves the roots one by one. -/
theorem Heap.length_roots_of_reserve {h : Heap w} {words : Nat} {roots : List (Word w)}
    {c : Checkpoint w} (hc : h.reserve words roots = .ok c) : c.roots.length = roots.length := by
  obtain ⟨_, rfl⟩ | ⟨_, hc⟩ := reserve_eq_ok hc
  · rfl
  · obtain ⟨d, hd, hrest⟩ := of_except_bind_eq_ok hc
    have hlength := (collectFor_collected hd).length
    split at hrest <;> cases hrest <;> exact hlength

namespace Machine

variable {m n : Machine w} {most : Nat} {N : Int → Prop}

/-! ### Shallow machines -/

/-- The stack and its mark are within a limit that fits a small integer, and so does the frame
pointer. -/
structure Shallow (most : Nat) (m : Machine w) : Prop where
  depth_le : m.stack.depth ≤ m.stack.highWater
  mark_le : m.stack.highWater ≤ most
  limit : m.maxStackWords = most
  small : (most : Int) ≤ w.maxInt
  link : ∃ v : Word w, Word.size m.fp = .ok v

theorem Shallow.moved {roots : List (Word w)} {h : Heap w} (S : Shallow most m)
    (hlength : roots.length = m.roots.length) :
    Shallow most { m.setRoots roots with heap := h } := by
  obtain ⟨hdepth, hmark⟩ := depth_setRoots hlength
  refine ⟨hdepth.trans_le (S.depth_le.trans_eq hmark.symm), hmark.trans_le S.mark_le,
    (maxStackWords_setRoots m _).trans S.limit, S.small, ?_⟩
  change ∃ v : Word w, Word.size (m.setRoots roots).fp = .ok v
  rw [fp_setRoots]
  exact S.link

/-- No operation, not even one that traps, takes the stack beyond its limit. -/
theorem conserved_shallow :
    Conserved (Shallow most : Machine w → Prop) (Shallow most) N where
  aside {m n} S hheap hstack hfp hmax := by
    refine ⟨?_, ?_, hmax.trans S.limit, S.small, ?_⟩
    · rw [hstack]
      exact S.depth_le
    · rw [hstack]
      exact S.mark_le
    · rw [hfp]
      exact S.link
  dropped {m} d S := by
    refine ⟨?_, S.mark_le, S.limit, S.small, S.link⟩
    refine le_trans ?_ S.depth_le
    rw [depth_eq, depth_eq, slots_dropped]
    exact List.length_take_le' _ _
  replaced {m} i v S := by
    refine ⟨le_trans (le_of_eq ?_) S.depth_le, S.mark_le, S.limit, S.small, S.link⟩
    rw [Stack.depth_eq, Stack.depth_eq, Stack.slots_replace, List.length_set]
  pushed {m vs} S hroom := by
    have hmark := Stack.highWater_pushList S.depth_le vs
    have hlimit := S.limit
    have hmost := S.mark_le
    refine ⟨?_, ?_, S.limit, S.small, S.link⟩
    · rw [Stack.depth_eq, Stack.slots_pushList, List.length_append, ← Stack.depth_eq]
      exact hmark ▸ Nat.le_max_right _ _
    · change (m.stack.pushList vs).highWater ≤ most
      rw [hmark, depth_eq]
      omega
  entered {m} S := by
    have hdepth := S.depth_le.trans S.mark_le
    have hsmall := S.small
    exact ⟨S.depth_le, S.mark_le, S.limit, S.small, Word.size_of_le (n := m.stack.depth) (by omega)⟩
  linked S hv := ⟨S.depth_le, S.mark_le, S.limit, S.small, _, hv⟩
  placed S _ := ⟨S.depth_le, S.mark_le, S.limit, S.small, S.link⟩
  reserved S hc := S.moved (Heap.length_roots_of_reserve hc)
  collected S hc := S.moved (Heap.collectFor_collected hc).length
  trapped S hlength := S.moved hlength
  reset names S :=
    ⟨Nat.le_refl _, Nat.zero_le _, S.limit, S.small,
      Word.size_of_le (n := 0) (by cases w <;> decide)⟩
  link S := by
    obtain ⟨v, hv⟩ := S.link
    rw [hv]
    exact .ok v
  count {m n} S hn := by
    have hsmall := S.small
    have hlimit := S.limit
    obtain ⟨v, hv⟩ := Word.size_of_le (w := w) (n := n) (by omega)
    rw [hv]
    exact .ok v

/-! ### Machines in use -/

variable {s : MachineSettings}

theorem Served.shallow (h : Served s m) : Shallow s.maxStackWords m := by
  obtain ⟨held, h⟩ := h
  induction h with
  | fresh hc =>
    obtain ⟨hvalid, _, rfl⟩ := create_eq hc
    exact ⟨Nat.le_refl _, Nat.zero_le _, rfl, (validate_machine hvalid).2,
      Word.size_of_le (n := 0) (by cases w <;> decide)⟩
  | put _ _ hu hr _ ih =>
    subst hr
    exact (conserved_shallow.common hu).keeps _ ih

theorem Served.stack (h : Served s m) :
    m.maxStackWords = s.maxStackWords ∧ 16 ≤ m.maxStackWords ∧
      (m.maxStackWords : Int) ≤ w.maxInt := by
  have hlimit := h.shallow.limit
  obtain ⟨_, h⟩ := h
  rw [hlimit]
  exact ⟨rfl, validate_stack h.valid, (validate_machine h.valid).2⟩

/-! ### Operations that are refused -/

variable {α β : Type} {x : Op w α} {f : α → Op w β}

def Silent (x : Op w α) : Prop := ∀ m n m', x m ≠ .error (.error (.stackOverflow n)) m'

namespace Silent

theorem pure (a : α) : Silent (Pure.pure a : Op w α) := nofun

theorem throw {e : Fault w RuntimeError} (he : ∀ n, e ≠ .error (.stackOverflow n)) :
    Silent (throw e : Op w α) := by
  rintro m n _ ⟨⟩
  exact he n rfl

theorem bind (hx : Silent x) (hf : ∀ a, Silent (f a)) : Silent (x >>= f) := by
  intro m n m' h
  obtain hx' | ⟨a, o, _, hf'⟩ := of_bind_eq_error h
  · exact hx m n m' hx'
  · exact hf a o n m' hf'

theorem get {g : Machine w → Op w β} (hg : ∀ m, Silent (g m)) : Silent (MonadState.get >>= g) :=
  fun m n m' h => hg m m n m' h

theorem modify (g : Machine w → Machine w) : Silent (modify g) := nofun

theorem except (r : Except (Trap w) α) : Silent (liftM r : Op w α) := by
  cases r with
  | ok a => exact .pure a
  | error t => exact .throw nofun

theorem settle (r : Except (Trap w) (Checkpoint w)) : Silent (settle r) := by
  cases r with
  | ok c => nofun
  | error t => nofun

theorem ite {c : Prop} [Decidable c] {y : Op w α} (hx : Silent x) (hy : Silent y) :
    Silent (if c then x else y) := by
  split
  · exact hx
  · exact hy

end Silent

/-- A stack overflow in an operation leaves the machine as it was. -/
def Refuses (x : Op w α) : Prop :=
  ∀ m n m', x m = .error (.error (.stackOverflow n)) m' → m' = m

theorem Refuses.bind (hx : Refuses x) (hf : ∀ a, Silent (f a)) : Refuses (x >>= f) := by
  intro m n m' h
  obtain hx' | ⟨a, o, _, hf'⟩ := of_bind_eq_error h
  · exact hx m n m' hx'
  · exact absurd hf' (hf a o n m')

theorem refuses_checkStack (words : Nat) : Refuses (checkStack (w := w) words) := by
  intro m n m' h
  by_cases hroom : m.slots.length + words ≤ m.maxStackWords
  · rw [checkStack_of_le hroom] at h
    cases h
  · rw [checkStack_of_lt (Nat.not_le.mp hroom)] at h
    cases h
    rfl

theorem refuses_pushLocal (v : Word w) : Refuses (pushLocal v) :=
  (refuses_checkStack 1).bind fun _ => .modify _

theorem refuses_pushFrame (k : Label) (arity : Nat) : Refuses (pushFrame (w := w) k arity) :=
  (refuses_checkStack _).bind fun _ => .get fun _ => .bind (.except _) fun _ =>
    .bind (.except _) fun _ => .bind (.modify _) fun _ => .bind (.modify _) fun _ => .modify _

theorem refuses_call (callee : Label) (args : List (Word w)) (k : Label) :
    Refuses (call callee args k) :=
  (refuses_pushFrame k _).bind fun _ => .bind (.modify _) fun _ => .pure _

theorem refuses_preallocSaving (words : Nat) (temps : List (Word w)) :
    Refuses (preallocSaving words temps) := by
  have htruncate : ∀ d, Silent (truncate (w := w) d) := fun d =>
    .get fun _ => .ite (.bind (.throw nofun) fun _ => .modify _) (.modify _)
  have hcheckpoint : Silent (checkpoint (w := w) words) :=
    .get fun _ => .ite (.throw nofun) (.ite (.bind (.modify _) fun _ => .pure _) (.settle _))
  exact (refuses_checkStack _).bind fun _ => .get fun _ => .bind (.modify _) fun _ =>
    .bind hcheckpoint fun _ => .get fun _ => .bind (htruncate _) fun _ => .pure _

theorem silent_closureView (v : Word w) : Silent (closureView v) := by
  refine .get fun m => .bind (.except _) fun c => ?_
  cases c with
  | some c => exact .pure c
  | none => exact .throw nofun

/-- A stack overflow in a saturated call has changed nothing. -/
theorem refuses_callClosure (cl : Word w) (args : List (Word w)) (k : Label) :
    Refuses (callClosure cl args k) := by
  intro m n m' h
  have henter : ∀ c, Refuses (enter c args k) := fun c =>
    (refuses_pushFrame k _).bind fun _ => .bind (.get fun _ => .bind (.except _) fun _ => .pure _)
      fun _ => .bind (.modify _) fun _ => .pure _
  obtain hview | ⟨c, o, hview, hrest⟩ := of_bind_eq_error h
  · exact absurd hview (silent_closureView cl m n m')
  · obtain ⟨rfl, _⟩ := closureView_eq_ok hview
    dsimp only at hrest
    split at hrest
    · cases hrest
    · exact henter c _ n m' hrest

/-- However a machine has been used, also after operations that failed, its stack is within the
limit, and so is the mark of the largest depth. No link and no number of pending arguments is too
large to be stored: an action whose labels fit small integers makes no small integer overflow, and a
run only those that its program makes itself, of literals, labels and counts. Operations that check
the stack before anything else change nothing if it overflows. -/
theorem stack_within_limit (h : Served s m) :
    (m.stack.depth ≤ m.stack.highWater ∧ m.stack.highWater ≤ m.maxStackWords ∧
      m.maxStackWords = s.maxStackWords) ∧
    (∀ a : Action w, (∀ k ∈ a.labels, ∃ v : Word w, Word.codeAddress k.id = .ok v) →
      ∀ z m', a.perform m ≠ .error (.trap (.intOverflow z)) m') ∧
    (∀ (p : Program (Body w)) (fuel : Nat) (z : Int) (m' : Machine w),
      run (p.map Body.code) fuel m = .error (.trap (.intOverflow z)) m' →
        .error (.intOverflow z) ∈ p.makes) ∧
    (∀ n m', (∃ v, pushLocal v m = .error (.error (.stackOverflow n)) m') ∨
        (∃ callee args k, call callee args k m = .error (.error (.stackOverflow n)) m') ∨
        (∃ cl args k, callClosure cl args k m = .error (.error (.stackOverflow n)) m') ∨
        (∃ words temps, preallocSaving words temps m = .error (.error (.stackOverflow n)) m') →
      m' = m) := by
  have S := h.shallow
  refine ⟨⟨S.depth_le, S.mark_le.trans_eq S.limit.symm, S.limit⟩, ?_, ?_, ?_⟩
  · intro a hk z m' herr
    have C : Conserved (Shallow s.maxStackWords : Machine w → Prop) (Shallow s.maxStackWords)
      fun _ => False := conserved_shallow
    refine (C.perform a fun k hmem => ?_).overflow S herr
    obtain ⟨v, hv⟩ := hk k hmem
    rw [hv]
    exact .ok v
  · intro p fuel z m' herr
    have C : Conserved (Shallow s.maxStackWords : Machine w → Prop) (Shallow s.maxStackWords)
      fun z => .error (.intOverflow z) ∈ p.makes := conserved_shallow
    exact (C.run_bodies p (fun r hr z hz => hz ▸ hr) fuel).overflow S herr
  · rintro n m' (⟨v, herr⟩ | ⟨callee, args, k, herr⟩ | ⟨cl, args, k, herr⟩ | ⟨words, temps, herr⟩)
    · exact refuses_pushLocal v m n m' herr
    · exact refuses_call callee args k m n m' herr
    · exact refuses_callClosure cl args k m n m' herr
    · exact refuses_preallocSaving words temps m n m' herr

def after (m : Machine w) (as : List (Action w)) : Machine w :=
  as.foldl (fun m a => Outcome.state (a.perform m)) m

theorem Served.after (h : Served s m) (as : List (Action w)) : Served s (m.after as) := by
  induction as generalizing m with
  | nil => exact h
  | cons a as ih => exact ih (h.acted a)

/-- A frame that fills the stack, a call that does not fit, and a tail call that does not fit in
place of the frame. -/
def crowding : List (Action .bits64) :=
  [.call ⟨2⟩ (List.replicate 14 4) ⟨3⟩, .call ⟨2⟩ [] ⟨3⟩, .tailCall ⟨2⟩ (List.replicate 15 4)]

/-- A full stack, and two calls that it has no room for. -/
theorem stack_within_limit_crowding :
    Served snug ((blank snug).after crowding) ∧ ((blank snug).after crowding).stack.depth = 2 ∧
      ((blank snug).after crowding).stack.highWater = 16 ∧
      ((blank snug).after crowding).stack.highWater ≤
        ((blank snug).after crowding).maxStackWords ∧
      ∀ z m', (Action.call ⟨2⟩ [4] ⟨3⟩).perform ((blank snug).after crowding) ≠
        .error (.trap (.intOverflow z)) m' := by
  have h : Served snug ((blank snug).after crowding) :=
    Served.after (.fresh (create_blank (by decide +kernel) (by decide))) crowding
  have hlabel : ∀ k ∈ [(⟨3⟩ : Label)], ∃ v : Word .bits64, Word.codeAddress k.id = .ok v := by
    intro k hk
    obtain rfl := List.mem_singleton.mp hk
    exact ⟨_, rfl⟩
  obtain ⟨⟨_, hmark, _⟩, hsmall, _⟩ := stack_within_limit h
  exact ⟨h, by decide +kernel, by decide +kernel, hmark, hsmall _ hlabel⟩

end Machine

end Trampoline
