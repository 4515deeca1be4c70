import Trampoline.Proofs.Closures
import Trampoline.Proofs.Frames
import Trampoline.Proofs.Usage

/-!
Use of a machine through its operations.

Whoever uses a machine holds values outside it: those that operations have answered. They may be
passed in again until a collection moves the blocks; after it, values have to be read from the stack
or the result register, which follow the blocks, or come back from an operation that saved them. A
machine that is used like that, from its making on, always has a heap that falls into blocks without
cycles, so that any two of its values can be compared.

Operations that leave the heap alone only move words between the stack, the result register and the
caller. Those that allocate add a block of such words. A checkpoint moves everything at once. So a
property that every closure has when it is made is one of all closures on the heap; the lemmas carry
such a property along.
-/

namespace Trampoline

variable {w : Width}

/-- What follows a value may rely on what is known of the value. -/
theorem Keeps.bind_value {σ α β : Type} {I : σ → Prop} {x : EStateM (Fault w RuntimeError) σ α}
    {f : α → EStateM (Fault w RuntimeError) σ β} {P : α → Prop} (hx : Keeps I x)
    (hP : ∀ s a s', I s → x s = .ok a s' → P a) (hf : ∀ a, P a → Keeps I (f a)) :
    Keeps I (x >>= f) := by
  intro s hs
  have h := hx s hs
  cases hxs : x s with
  | ok a s' =>
    rw [hxs] at h
    rw [bind_of_ok hxs]
    exact hf a (hP s a s' hs hxs) s' h
  | error e s' =>
    rw [hxs] at h
    rw [bind_of_error hxs]
    exact h

theorem Keeps.lift {α β : Type} {I : Machine w → Prop} {r : Except (Trap w) α} {f : α → Op w β}
    (hf : ∀ a, r = .ok a → Keeps I (f a)) : Keeps I ((liftM r : Op w α) >>= f) := by
  refine .bind_value (.except r) (fun m a m' _ h => ?_) hf
  cases r with
  | ok b => cases h; rfl
  | error t => cases h

namespace Machine

/-! ### Operations that leave the heap alone -/

/-- The machine has the given heap, and its roots refer to the given blocks. -/
structure On (h : Heap w) (D : Set Ref) (m : Machine w) : Prop where
  heap : m.heap = h
  rooted : ∀ v ∈ m.roots, v.Into D

def Holding (h : Heap w) (D : Set Ref) (c : ClosureView w) : Prop :=
  ∀ xs, h.capturedArgs c = .ok xs → ∀ x ∈ xs, x.Into D

section

variable {h : Heap w} {D : Set Ref} {m : Machine w} {v : Word w} {vs args : List (Word w)}
  {k : Label} {c : ClosureView w}

theorem On.slots (hm : On h D m) : ∀ v ∈ m.slots, v.Into D :=
  fun v hv => hm.rooted v (.tail _ hv)

theorem On.setStack (hm : On h D m) {s : Stack w} (hs : ∀ v ∈ s.slots.toList, v.Into D) :
    On h D { m with stack := s } := by
  refine ⟨hm.heap, fun v hv => ?_⟩
  rcases List.mem_cons.mp hv with rfl | hv
  · exact hm.rooted _ (.head _)
  · exact hs v hv

theorem keeps_checkStack (words : Nat) : Keeps (On h D) (checkStack words) :=
  .get fun _ => .ite (.throw _) (.pure _)

theorem keeps_pushList (hvs : ∀ v ∈ vs, v.Into D) : Keeps (On h D) (pushList vs) := by
  refine .modify fun m hm => hm.setStack fun x hx => ?_
  rw [Stack.slots_pushList, List.mem_append] at hx
  exact hx.elim (hm.slots x) (hvs x)

theorem keeps_push (hv : v.Into D) : Keeps (On h D) (push v) := by
  refine .modify fun m hm => hm.setStack fun x hx => ?_
  rw [Stack.slots_push, List.mem_append, List.mem_singleton] at hx
  exact hx.elim (hm.slots x) fun heq => heq ▸ hv

theorem keeps_truncate (d : Nat) : Keeps (On h D) (truncate d) := by
  have hshrink : Keeps (w := w) (On h D) (modify fun m => { m with stack := m.stack.shrink d }) := by
    refine .modify fun m hm => hm.setStack fun x hx => ?_
    rw [Stack.slots_shrink] at hx
    exact hm.slots x (List.mem_of_mem_take hx)
  exact .get fun _ => .ite (.bind (.throw _) fun _ => hshrink) hshrink

theorem keeps_setSlot (i : Nat) (hv : v.Into D) : Keeps (On h D) (setSlot i v) := by
  have hreplace : ∀ j, Keeps (w := w) (On h D)
      (modify fun m => { m with stack := m.stack.replace j v }) := by
    refine fun j => .modify fun m hm => hm.setStack fun x hx => ?_
    rw [Stack.slots_replace] at hx
    rcases List.mem_or_eq_of_mem_set hx with hx | rfl
    · exact hm.slots x hx
    · exact hv
  exact .get fun _ => .bind (.except _) fun j =>
    .ite (.bind (.throw _) fun _ => hreplace j) (hreplace j)

theorem keeps_pushLocal (hv : v.Into D) : Keeps (On h D) (pushLocal v) :=
  .bind (keeps_checkStack 1) fun _ => keeps_push hv

theorem keeps_pushFrame (k : Label) (arity : Nat) : Keeps (On h D) (pushFrame k arity) :=
  .bind (keeps_checkStack _) fun _ => .get fun _ =>
    .lift fun _ ha => .lift fun _ hb =>
      .bind (keeps_push (Word.into_of_none (Word.ref?_codeAddress ha))) fun _ =>
        .bind (keeps_push (Word.into_of_none (Word.ref?_size hb))) fun _ =>
          .modify fun _ hm => ⟨hm.heap, hm.rooted⟩

theorem keeps_leaveFrame : Keeps (On h D) leaveFrame :=
  .get fun _ => .bind (.except _) fun _ => .bind (.except _) fun _ => .bind (.except _) fun _ =>
    .bind (.except _) fun _ => .bind (.except _) fun _ => .bind (keeps_truncate _) fun _ =>
      .bind (.modify fun _ hm => ⟨hm.heap, hm.rooted⟩) fun _ => .pure _

theorem keeps_call (callee : Label) (hargs : ∀ v ∈ args, v.Into D) (k : Label) :
    Keeps (On h D) (call callee args k) :=
  .bind (keeps_pushFrame _ _) fun _ => .bind (keeps_pushList hargs) fun _ => .pure _

theorem keeps_replaceFrame {x : Op w (List (Word w))} (arity : Nat) (hx : Keeps (On h D) x)
    (hvs : ∀ m vs m', On h D m → x m = .ok vs m' → ∀ v ∈ vs, v.Into D) :
    Keeps (On h D) (replaceFrame x arity) :=
  .get fun _ => .bind (keeps_truncate _) fun _ => .bind (keeps_checkStack _) fun _ =>
    .bind_value hx hvs fun _ hvs => keeps_pushList hvs

theorem keeps_tailCall (callee : Label) (hargs : ∀ v ∈ args, v.Into D) :
    Keeps (On h D) (tailCall callee args) := by
  refine .bind (keeps_replaceFrame _ (.pure _) fun m vs m' _ heq => ?_) fun _ => .pure _
  cases heq
  exact hargs

theorem keeps_ret (hv : v.Into D) : Keeps (On h D) (ret v) := by
  refine .bind (.modify fun m hm => ⟨hm.heap, fun x hx => ?_⟩) fun _ => keeps_leaveFrame
  rcases List.mem_cons.mp hx with rfl | hx
  · exact hv
  · exact hm.slots x hx

theorem keeps_allArgs (c : ClosureView w) (args : List (Word w)) :
    Keeps (On h D) (allArgs c args) :=
  .get fun _ => .bind (.except _) fun _ => .pure _

theorem into_allArgs (hc : Holding h D c) (hargs : ∀ v ∈ args, v.Into D) {m' : Machine w}
    (hm : On h D m) (heq : allArgs c args m = .ok vs m') : ∀ v ∈ vs, v.Into D := by
  obtain ⟨xs, hxs, heq⟩ := of_liftM_bind_eq_ok (of_get_bind_eq_ok heq)
  cases heq
  rw [hm.heap] at hxs
  intro v hv
  exact (List.mem_append.mp hv).elim (hc xs hxs v) (hargs v)

theorem keeps_enter (hc : Holding h D c) (hargs : ∀ v ∈ args, v.Into D) (k : Label) :
    Keeps (On h D) (enter c args k) :=
  .bind (keeps_pushFrame _ _) fun _ =>
    .bind_value (keeps_allArgs c args) (fun _ _ _ hm heq => into_allArgs hc hargs hm heq)
      fun _ hvs => .bind (keeps_pushList hvs) fun _ => .pure _

theorem keeps_tailEnter (hc : Holding h D c) (hargs : ∀ v ∈ args, v.Into D) :
    Keeps (On h D) (tailEnter c args) :=
  .bind (keeps_replaceFrame _ (keeps_allArgs c args)
    fun _ _ _ hm heq => into_allArgs hc hargs hm heq) fun _ => .pure _

theorem keeps_overApply (hc : Holding h D c) (hargs : ∀ v ∈ args, v.Into D) (k : Label) :
    Keeps (On h D) (overApply c args k) :=
  .lift fun _ _ => .bind (keeps_checkStack _) fun _ =>
    .lift fun _ ha => .bind (keeps_push (Word.into_of_none (Word.ref?_codeAddress ha))) fun _ =>
      .bind (keeps_pushList fun v hv => hargs v (List.mem_of_mem_drop hv)) fun _ =>
        .lift fun _ hn => .bind (keeps_push (Word.into_of_none (Word.ref?_size hn))) fun _ =>
          keeps_enter hc (fun v hv => hargs v (List.mem_of_mem_take hv)) _

/-- A closure is taken apart where it is. -/
theorem keeps_closureView {β : Type} {f : ClosureView w → Op w β}
    (hf : ∀ c, h.closure? v = .ok (some c) → Keeps (On h D) (f c)) :
    Keeps (On h D) (closureView v >>= f) := by
  have hview : Keeps (On h D) (closureView v) := .get fun m => .bind (.except _) fun c => by
    cases c with
    | some c => exact .pure c
    | none => exact .throw _
  refine .bind_value hview (fun m c m' hm heq => ?_) hf
  obtain ⟨o, ho, heq⟩ := of_liftM_bind_eq_ok (of_get_bind_eq_ok heq)
  rw [hm.heap] at ho
  cases o with
  | none => cases heq
  | some d =>
    cases heq
    exact ho

theorem keeps_callClosure (L : h.space.Layout h.hp D) (hv : v.Into D)
    (hargs : ∀ v ∈ args, v.Into D) (k : Label) : Keeps (On h D) (callClosure v args k) :=
  keeps_closureView fun _ hc =>
    have hheld : Holding h D _ := fun _ hxs => Heap.into_capturedArgs L hv hc hxs
    .ite (.bind (.throw _) fun _ => keeps_enter hheld hargs k) (keeps_enter hheld hargs k)

theorem keeps_tailCallClosure (L : h.space.Layout h.hp D) (hv : v.Into D)
    (hargs : ∀ v ∈ args, v.Into D) : Keeps (On h D) (tailCallClosure v args) :=
  keeps_closureView fun _ hc =>
    have hheld : Holding h D _ := fun _ hxs => Heap.into_capturedArgs L hv hc hxs
    .ite (.bind (.throw _) fun _ => keeps_tailEnter hheld hargs) (keeps_tailEnter hheld hargs)

end

/-! ### Operations that allocate or collect -/

/-- The heap falls into blocks without cycles, all closures among which are as `Q` says. To them
refer the roots of the machine and the words `vs`, and also the words held, unless there have been
more than `n` collections. -/
structure Orderly (Q : ClosureView w → Prop) (n : Nat) (held : List (Word w)) (m : Machine w)
    (vs : List (Word w)) : Prop where
  since : n ≤ m.heap.stats.collections
  founded : ∃ blocks, m.heap.Founded (m.roots ++ vs) blocks ∧ m.heap.Closures Q blocks ∧
    (m.heap.stats.collections = n → ∀ v ∈ held, v.Into blocks)

/-- An operation that does not trap leaves an orderly machine, and answers words that may be used
with it. -/
def Leaves {α : Type} (Q : ClosureView w → Prop) (n : Nat) (held : List (Word w))
    (out : α → List (Word w)) : Outcome w (Machine w) α → Prop
  | .ok a m => Orderly Q n held m (out a)
  | .error (.trap _) _ => True
  | .error _ m => Orderly Q n held m []

variable {α β : Type} {Q : ClosureView w → Prop} {n : Nat} {held : List (Word w)}
  {m m' : Machine w} {vs us : List (Word w)} {v : Word w} {args : List (Word w)}
  {out : α → List (Word w)} {out' : β → List (Word w)}

/-- Words of the machine, and immediate words, may be used with it. -/
theorem Orderly.more (O : Orderly Q n held m vs)
    (hus : ∀ u ∈ us, u.ref? = none ∨ u ∈ m.roots ++ vs) : Orderly Q n held m us := by
  obtain ⟨D, F, C, hheld⟩ := O.founded
  refine ⟨O.since, D, F.reroot fun u hu => ?_, C, hheld⟩
  rcases List.mem_append.mp hu with hu | hu
  · exact F.rooted u (List.mem_append_left _ hu)
  · exact (hus u hu).elim Word.into_of_none (F.rooted u)

theorem Orderly.nil (O : Orderly Q n held m vs) : Orderly Q n held m [] := O.more fun _ hu => nomatch hu

/-- What follows may rely on how the first part has ended. -/
theorem Leaves.bind_ok {x : Op w α} {f : α → Op w β} (hx : Leaves Q n held out (x m))
    (hf : ∀ a m', x m = .ok a m' → Orderly Q n held m' (out a) →
      Leaves Q n held out' (f a m')) :
    Leaves Q n held out' ((x >>= f) m) := by
  cases hxm : x m with
  | ok a m' =>
    rw [hxm] at hx
    rw [bind_of_ok hxm]
    exact hf a m' hxm hx
  | error e m' =>
    rw [hxm] at hx
    rw [bind_of_error hxm]
    cases e <;> exact hx

theorem Leaves.bind {x : Op w α} {f : α → Op w β} (hx : Leaves Q n held out (x m))
    (hf : ∀ a m', Orderly Q n held m' (out a) → Leaves Q n held out' (f a m')) :
    Leaves Q n held out' ((x >>= f) m) :=
  hx.bind_ok fun a m' _ => hf a m'

/-- Words that an operation answers need not be used. -/
theorem Leaves.forget {r : Outcome w (Machine w) α} (h : Leaves Q n held out r) :
    Leaves (α := α) Q n held (fun _ => []) r := by
  cases r with
  | ok a m' => exact Orderly.nil h
  | error e m' => cases e <;> exact h

theorem Leaves.lift {r : Except (Trap w) α} {f : α → Op w β}
    (hf : ∀ a, r = .ok a → Leaves Q n held out' (f a m)) :
    Leaves Q n held out' (((liftM r : Op w α) >>= f) m) := by
  cases r with
  | ok a => exact hf a rfl
  | error t => trivial

theorem Leaves.get {f : Machine w → Op w β} (hf : Leaves Q n held out' (f m m)) :
    Leaves Q n held out' ((MonadState.get >>= f) m) := hf

/-- Taking a closure apart leaves everything as it is. -/
theorem Leaves.closureView {f : ClosureView w → Op w β} (O : Orderly Q n held m vs)
    (hf : ∀ c, m.heap.closure? v = .ok (some c) → Leaves Q n held out' (f c m)) :
    Leaves Q n held out' ((closureView v >>= f) m) := by
  cases hc : m.heap.closure? v with
  | error t =>
    have heq : Machine.closureView v m = .error (.trap t) m := by
      change ((liftM (m.heap.closure? v) : Op w _) >>= _) m = _
      rw [hc]
      rfl
    rw [bind_of_error heq]
    trivial
  | ok c =>
    cases c with
    | some c =>
      rw [bind_of_ok (closureView_of_some hc)]
      exact hf c hc
    | none =>
      have heq : Machine.closureView v m = .error (.error (.assertionFailed .closureApplied)) m := by
        change ((liftM (m.heap.closure? v) : Op w _) >>= _) m = _
        rw [liftM_bind_of_ok hc]
        rfl
      rw [bind_of_error heq]
      exact O.nil

/-- An operation that leaves the heap alone, and puts only words of the heap's blocks on the stack,
leaves everything orderly. -/
theorem Orderly.keeps (O : Orderly Q n held m vs) {x : Op w α}
    (hx : ∀ D, m.heap.Founded (m.roots ++ vs) D → Keeps (On m.heap D) x) :
    Leaves Q n held (fun _ => vs) (x m) := by
  obtain ⟨D, F, C, hheld⟩ := O.founded
  have hon := hx D F m ⟨rfl, fun v hv => F.rooted v (List.mem_append_left _ hv)⟩
  have hleft : ∀ m', On m.heap D m' → Orderly Q n held m' vs := by
    intro m' hm'
    refine ⟨?_, D, ?_, ?_, ?_⟩
    · rw [hm'.heap]
      exact O.since
    · rw [hm'.heap]
      refine F.reroot fun u hu => ?_
      rcases List.mem_append.mp hu with hu | hu
      · exact hm'.rooted u hu
      · exact F.rooted u (List.mem_append_right _ hu)
    · rw [hm'.heap]
      exact C
    · rw [hm'.heap]
      exact hheld
  cases hr : x m with
  | ok a m' =>
    rw [hr] at hon
    exact hleft m' hon
  | error e m' =>
    rw [hr] at hon
    cases e with
    | trap t => trivial
    | error e => exact (hleft m' hon).nil
    | unfinished => exact (hleft m' hon).nil

/-- A new object of words that may be used may be used. -/
theorem Orderly.allocate (O : Orderly Q n held m vs) {x : Alloc w (Word w)}
    {plan : Heap w → Except (Trap w) (Plan w)} {words : Nat} (follows : x.Follows plan words)
    (hplan : ∀ D p, m.heap.Founded (m.roots ++ vs) D → plan m.heap = .ok p → m.heap.Plans D p)
    (hnew : ∀ D p, m.heap.Founded (m.roots ++ vs) D → m.heap.Closures Q D → plan m.heap = .ok p →
      ∀ r c, p.value.ref? = some r → (m.heap.place p.contents).closureAt r = some c → Q c) :
    Leaves Q n held (fun u => [u]) (allocate x m) := by
  obtain ⟨D, F, C, hheld⟩ := O.founded
  cases hp : plan m.heap with
  | error t =>
    obtain ⟨_, hx, _⟩ := allocate_of_error follows hp
    rw [hx]
    trivial
  | ok p =>
  rw [allocate_of_ok follows hp]
  have F' := F.place (hplan D p F hp)
  refine ⟨O.since, Heap.joined D p.value, F'.reroot fun u hu => ?_,
    C.place F.layout (fun _ hr => hr) (hnew D p F C hp),
    fun hn u hu => (hheld hn u hu).mono Set.subset_union_left⟩
  rcases List.mem_append.mp hu with hu | hu
  · exact F'.rooted u (List.mem_cons_of_mem _ (List.mem_append_left _ hu))
  · rw [List.mem_singleton.mp hu]
    exact F'.rooted _ List.mem_cons_self

theorem Orderly.construct (O : Orderly Q n held m vs) (c : Constructor) :
    Leaves Q n held (fun u => [u]) (construct c vs m) := by
  refine O.allocate (Alloc.follows_construct c vs) (fun _ _ F hp => ?_) fun _ _ F _ hp r d hr hd => ?_
  · exact Heap.plans_construct (fun v hv => F.rooted v (List.mem_append_right _ hv)) hp
  · rw [Heap.closureAt_construct F.bounded hp hr] at hd
    cases hd

theorem Orderly.makePair {u : Word w} (O : Orderly Q n held m [v, u]) :
    Leaves Q n held (fun u => [u]) (makePair v u m) := by
  refine O.allocate (Alloc.follows_makePair v u) (fun _ _ F hp => ?_) fun _ _ F _ hp r d hr hd => ?_
  · exact Heap.plans_makePair (F.rooted v (by simp)) (F.rooted u (by simp)) hp
  · rw [Heap.closureAt_makePair F.bounded hp hr] at hd
    cases hd

/-- A closure may be made where all closures of the function that hold as many arguments are as they
should be. -/
theorem Orderly.makeClosure (O : Orderly Q n held m vs) {f : Function}
    (hQ : vs.length ≤ f.arity → ∀ d : ClosureView w, d.header.uid = f.uid → d.entry = f.label →
      d.arity = (Word.ofNat f.arity : Word w).toNat → d.captured = vs.length → Q d) :
    Leaves Q n held (fun u => [u]) (makeClosure f vs m) := by
  refine O.allocate (Alloc.follows_makeClosure f vs) (fun _ _ F hp => ?_) fun _ _ F _ hp r d hr hd => ?_
  · exact Heap.plans_makeClosure (fun v hv => F.rooted v (List.mem_append_right _ hv)) hp
  · obtain ⟨huid, hentry, harity, hcaptured, hle⟩ := Heap.closureAt_makeClosure F.bounded hp hr hd
    exact hQ hle d huid hentry harity hcaptured

/-- An extended closure is as good as its source, if extensions are. -/
theorem Orderly.extendClosure (O : Orderly Q n held m (v :: args))
    (hQ : ∀ c d, m.heap.closure? v = .ok (some c) → Q c → c.Extends args.length d → Q d) :
    Leaves Q n held (fun u => [u]) (extendClosure v args m) := by
  refine .closureView O fun c hc => ?_
  obtain ⟨hr, hcl⟩ := Heap.closure?_eq_some hc
  have hmem : ∀ {D}, m.heap.Founded (m.roots ++ v :: args) D → c.object ∈ D :=
    fun F => F.rooted v (List.mem_append_right _ (.head _)) _ hr
  refine O.allocate (Alloc.follows_extend c args) (fun D p F hp => ?_)
    fun D p F C hp r d hd hnew => ?_
  · exact Heap.plans_extend F.layout hcl (hmem F)
      (fun x hx => F.rooted x (List.mem_append_right _ (.tail _ hx))) hp
  · exact hQ c d hc (C _ (hmem F) c hcl) (Heap.closureAt_extend F.bounded hcl hp hd hnew)

/-- A collection moves the words of the machine, and no others. -/
theorem Orderly.relocated (O : Orderly Q n held m vs) {c : Checkpoint w} {D : Set Ref}
    (hcount : c.heap.stats.collections = m.heap.stats.collections + 1)
    {R : Word w → Word w → Prop} (hroots : List.Forall₂ R m.roots c.roots)
    (F : c.heap.Founded c.roots D) (C : c.heap.Closures Q D) (j : Journal w) :
    Orderly Q n held { m.setRoots c.roots with heap := c.heap, journal := j } [] := by
  have hsince := O.since
  refine ⟨?_, D, F.reroot fun u hu => ?_, C, fun hn => ?_⟩
  · change n ≤ c.heap.stats.collections
    omega
  · rw [List.append_nil] at hu
    change u ∈ (m.setRoots c.roots).roots at hu
    rw [roots_setRoots hroots] at hu
    exact F.rooted u hu
  · change c.heap.stats.collections = n at hn
    omega

/-- A checkpoint leaves an orderly machine, whether it grants, collects or refuses. -/
theorem Orderly.checkpoint (O : Orderly Q n held m vs) (H : Heritable Q) (words : Nat) :
    Leaves Q n held (fun _ => []) (checkpoint words m) := by
  obtain ⟨D, F, C, hheld⟩ := O.founded
  rw [checkpoint_eq]
  cases hc : m.heap.reserve words m.roots with
  | error t => trivial
  | ok c =>
    have hrooted : m.heap.Founded m.roots D :=
      F.reroot fun v hv => F.rooted v (List.mem_append_left _ hv)
    obtain ⟨hheap, hroots, F'⟩ | ⟨hcount, ρ, R, F'⟩ := hrooted.reserve hc
    · refine ⟨?_, D, ?_, ?_, ?_⟩
      · change n ≤ c.heap.stats.collections
        rw [hheap]
        exact O.since
      · change c.heap.Founded ((m.setRoots c.roots).roots ++ []) D
        rw [hroots, setRoots_roots, List.append_nil, ← hroots]
        exact F'
      · change c.heap.Closures Q D
        rw [hheap]
        exact C
      · intro hn
        change c.heap.stats.collections = n at hn
        rw [hheap] at hn
        exact hheld hn
    · have C' := C.moved H R.matched fun a _ hab => F.layout.reachable hrooted.rooted hab.1
      exact O.relocated hcount R.rooted F' C' _

theorem Orderly.prealloc (O : Orderly Q n held m vs) (H : Heritable Q) (words : Nat) :
    Leaves Q n held (fun _ => []) (prealloc words m) := by
  refine (O.checkpoint H words).bind fun shortage m' O' => ?_
  cases shortage with
  | none => exact O'
  | some s => exact O'

/-- The roots after a checkpoint are those before it, wherever their blocks are now. -/
theorem Orderly.prealloc_matched (O : Orderly Q n held m vs) {words : Nat} {u : Unit}
    (h : Machine.prealloc words m = .ok u m') :
    ∃ φ, m.heap.space.Matched m'.heap.space φ ∧
      List.Forall₂ (Word.Matched φ) m.roots m'.roots := by
  obtain ⟨D, F, _⟩ := O.founded
  have hpoint := checkpoint_eq words m
  unfold Machine.prealloc at h
  cases hc : m.heap.reserve words m.roots with
  | error t =>
    rw [hc] at hpoint
    rw [bind_of_error hpoint] at h
    cases h
  | ok c =>
    rw [hc] at hpoint
    rw [bind_of_ok hpoint] at h
    have hm' : m' = { m.setRoots c.roots with
        heap := c.heap, journal := m.journal.recordHeap c.events } := by
      cases hs : c.shortage with
      | none => rw [hs] at h; cases h; rfl
      | some s => rw [hs] at h; cases h
    have hrooted : ∀ v ∈ m.roots, v.Into D := fun v hv => F.rooted v (List.mem_append_left _ hv)
    obtain herr | ⟨d, ρ, hd, R, _⟩ := Heap.reserve_cases F.bounded F.layout hrooted words
    · rw [hc] at herr
      cases herr
    · rw [hc] at hd
      cases hd
      subst hm'
      refine ⟨_, R.matched, ?_⟩
      change List.Forall₂ _ _ (m.setRoots c.roots).roots
      rw [roots_setRoots R.rooted]
      exact R.rooted

/-- A closure that rides on the stack across a checkpoint is the same one after it. -/
theorem Orderly.prealloc_closure (O : Orderly Q n held m vs) {words i : Nat} {u : Unit}
    (h : Machine.prealloc words m = .ok u m') {c d : ClosureView w} {v' : Word w}
    (hv : m.slots[i]? = some v) (hv' : m'.slots[i]? = some v')
    (hc : m.heap.closure? v = .ok (some c)) (hd : m'.heap.closure? v' = .ok (some d)) :
    c.Extends 0 d ∧ m'.slots.length = m.slots.length := by
  obtain ⟨φ, M, hroots⟩ := O.prealloc_matched h
  obtain ⟨_, hslots⟩ := List.forall₂_cons.mp hroots
  refine ⟨?_, hslots.length_eq.symm⟩
  obtain ⟨hnone, _⟩ | ⟨x, y, hx, hy, hxy⟩ := forall₂_getElem? hslots i
  · cases hv.symm.trans hnone
  · cases hv.symm.trans hx
    cases hv'.symm.trans hy
    obtain ⟨hr, hcl⟩ := Heap.closure?_eq_some hc
    obtain ⟨hr', hcl'⟩ := Heap.closure?_eq_some hd
    obtain ⟨b, hb, hab⟩ := hxy.of_some hr
    rw [hr'] at hb
    cases hb
    rw [Heap.closureAt_matched M hab, hcl] at hcl'
    rw [← Option.some.inj hcl']
    exact c.extends_moved _

/-- Values that ride on the stack across a checkpoint come back from it. -/
theorem Orderly.preallocSaving (O : Orderly Q n held m vs) (H : Heritable Q) (words : Nat) :
    Leaves Q n held (fun r => r.1) (preallocSaving words vs m) := by
  refine (O.keeps fun D _ => keeps_checkStack _).bind fun _ m₁ O₁ => ?_
  refine .get <| (O₁.keeps fun D F =>
    keeps_pushList fun v hv => F.rooted v (List.mem_append_right _ hv)).bind fun _ m₂ O₂ => ?_
  refine (O₂.checkpoint H words).bind fun shortage m₃ O₃ => ?_
  have O₄ : Orderly Q n held m₃ (m₃.stack.above m₁.stack.depth) := by
    refine O₃.more fun u hu => .inr ?_
    rw [Stack.above_eq] at hu
    exact List.mem_append_left _ (.tail _ (List.mem_of_mem_drop hu))
  exact (O₄.keeps fun _ _ => keeps_truncate _).bind fun _ _ O₅ => O₅

/-- A closure may be extended as long as it still misses arguments then. -/
theorem Orderly.extendSaving (O : Orderly Q n held m (v :: args)) (H : Heritable Q)
    (hfew : ∀ c, m.heap.closure? v = .ok (some c) → c.captured + args.length < c.arity) :
    Leaves Q n held (fun u => [u]) (extendSaving v args m) := by
  unfold Machine.extendSaving
  split
  · refine O.more fun u hu => .inr ?_
    rw [List.mem_singleton.mp hu]
    exact List.mem_append_right _ (.head _)
  · refine .closureView O fun c hc => ?_
    refine .get <| (O.keeps fun D _ => keeps_checkStack _).bind_ok fun _ m₁ hcheck O₁ => ?_
    obtain ⟨rfl, _⟩ := checkStack_eq_ok hcheck
    refine (O₁.keeps fun D F => keeps_pushList fun v hv =>
      F.rooted v (List.mem_append_right _ hv)).bind_ok fun _ m₂ hpush O₂ => ?_
    cases hpush
    have hslots : Machine.slots { m with stack := m.stack.pushList (v :: args) } =
        m.slots ++ v :: args := Stack.slots_pushList _ _
    refine (O₂.prealloc H _).bind_ok fun _ m₃ halloc O₃ => ?_
    refine .get <| .lift fun moved hmoved => ?_
    have hat := Stack.get_eq_ok _ hmoved
    have O₄ : Orderly Q n held m₃ (moved :: m₃.stack.above (m.stack.depth + 1)) := by
      refine O₃.more fun u hu => .inr (List.mem_append_left _ (.tail _ ?_))
      rcases List.mem_cons.mp hu with rfl | hu
      · exact List.mem_of_getElem? hat
      · rw [Stack.above_eq] at hu
        exact List.mem_of_mem_drop hu
    refine (O₄.extendClosure fun c' d hc' hQ hd => ?_).bind fun u m₄ O₅ => ?_
    · -- the closure and its arguments are those that were pushed
      obtain ⟨hsame, hlength⟩ := O₂.prealloc_closure halloc
        (by rw [hslots, depth_eq]; simp) hat hc hc'
      have habove : (m₃.stack.above (m.stack.depth + 1)).length = args.length := by
        rw [Stack.above_eq, List.length_drop]
        change m₃.slots.length - _ = _
        rw [hlength, hslots, depth_eq, List.length_append, List.length_cons]
        omega
      have hlt := hfew c hc
      refine H c' _ d hQ hd (.inr ?_)
      rw [hd.captured, hd.arity, hsame.captured, hsame.arity, habove]
      exact hlt
    · exact (O₅.keeps fun _ _ => keeps_truncate _).bind fun _ _ O₆ => O₆

/-- An application to as many arguments as are missing, or more, leaves the heap alone. -/
theorem Orderly.entering (O : Orderly Q n held m (v :: args)) {c : ClosureView w}
    (hc : m.heap.closure? v = .ok (some c)) {x : Op w α}
    (hx : ∀ D, Holding m.heap D c → (∀ u ∈ args, u.Into D) → Keeps (On m.heap D) x) :
    Leaves Q n held (fun _ => []) (x m) := by
  refine (O.keeps fun _ F => hx _ (fun xs hxs => ?_) fun u hu => ?_).forget
  · exact Heap.into_capturedArgs F.layout (F.rooted v (List.mem_append_right _ (.head _))) hc hxs
  · exact F.rooted u (List.mem_append_right _ (.tail _ hu))

/-- An application that leaves arguments missing can extend the closure. -/
theorem fewer_of_compare {c : ClosureView w} (hc : m.heap.closure? v = .ok (some c))
    (hlt : compare (c.captured + args.length) c.arity = .lt) :
    ∀ d, m.heap.closure? v = .ok (some d) → d.captured + args.length < d.arity := by
  intro d hd
  rw [hc] at hd
  cases hd
  exact compare_lt_iff_lt.mp hlt

/-- An application leaves an orderly machine, with too few arguments, enough or too many. -/
theorem Orderly.apply (O : Orderly Q n held m (v :: args)) (H : Heritable Q) (k : Label) :
    Leaves Q n held (fun _ => []) (apply v args k m) := by
  refine .closureView O fun c hc => ?_
  cases hcompare : compare (c.captured + args.length) c.arity with
  | eq => exact O.entering hc fun D hheld hargs => keeps_enter hheld hargs k
  | gt => exact O.entering hc fun D hheld hargs => keeps_overApply hheld hargs k
  | lt =>
    refine (O.extendSaving H (fewer_of_compare hc hcompare)).bind fun u m' O' => ?_
    obtain ⟨D, F, C, hheld⟩ := O'.founded
    refine ⟨O'.since, D, F.reroot fun x hx => ?_, C, hheld⟩
    rw [List.append_nil] at hx
    rcases List.mem_cons.mp hx with rfl | hx
    · exact F.rooted _ (List.mem_append_right _ (.head _))
    · exact F.rooted x (List.mem_append_left _ (.tail _ hx))

theorem Orderly.ret (O : Orderly Q n held m [v]) : Leaves Q n held (fun _ => []) (ret v m) :=
  (O.keeps fun _ F => keeps_ret (F.rooted v (List.mem_append_right _ (.head _)))).forget

theorem Orderly.tailApply (O : Orderly Q n held m (v :: args)) (H : Heritable Q) :
    Leaves Q n held (fun _ => []) (tailApply v args m) := by
  refine .closureView O fun c hc => ?_
  cases hcompare : compare (c.captured + args.length) c.arity with
  | eq => exact O.entering hc fun D hheld hargs => keeps_tailEnter hheld hargs
  | gt =>
    exact O.entering hc fun D hheld hargs =>
      .bind keeps_leaveFrame fun k => keeps_overApply hheld hargs k
  | lt =>
    exact (O.extendSaving H (fewer_of_compare hc hcompare)).bind fun u m' O' => O'.ret

/-- A pending block holds values that may be used. -/
theorem Orderly.applyPending (O : Orderly Q n held m vs) (H : Heritable Q) :
    Leaves Q n held (fun _ => []) (applyPending m) := by
  refine .lift fun top _ => .lift fun saved _ => .lift fun count _ => .lift fun below _ =>
    .lift fun base _ => .lift fun continuation _ => .lift fun id _ => ?_
  have O₁ : Orderly Q n held m (m.result :: (m.stack.above (base + 1)).take (Size.ofInt count)) := by
    refine O.more fun u hu => .inr (List.mem_append_left _ ?_)
    rcases List.mem_cons.mp hu with rfl | hu
    · exact .head _
    · rw [Stack.above_eq] at hu
      exact .tail _ (List.mem_of_mem_drop (List.mem_of_mem_take hu))
  exact (O₁.keeps fun _ _ => keeps_truncate _).bind fun _ _ O₂ => O₂.apply H _

/-- A collection leaves an orderly machine, on which only the roots may be used. -/
theorem Orderly.collect (O : Orderly Q n held m vs) (H : Heritable Q) :
    Leaves Q n held (fun _ => []) (collect m) := by
  obtain ⟨D, F, C, _⟩ := O.founded
  rw [collect_eq]
  cases hc : m.heap.collect m.roots with
  | error t => trivial
  | ok c =>
    have hrooted : m.heap.Founded m.roots D :=
      F.reroot fun v hv => F.rooted v (List.mem_append_left _ hv)
    obtain ⟨ρ, R, F'⟩ := hrooted.collectFor hc
    have C' := C.moved H R.matched fun a _ hab => F.layout.reachable hrooted.rooted hab.1
    exact O.relocated (Heap.collectFor_counts hc).2 R.rooted F' C' _

/-! ### Use -/

namespace Action

def Reads (m : Machine w) : Action w → Prop
  | field v _ => m.heap.closure? v = .ok none
  | _ => True

/-- The values passed in are immediate, or held. -/
def Proper (held : List (Word w)) (m : Machine w) (a : Action w) : Prop :=
  (∀ v ∈ a.inputs, v.ref? = none ∨ v ∈ held) ∧ a.Reads m

instance (m : Machine w) : (a : Action w) → Decidable (a.Reads m)
  | field v _ => inferInstanceAs (Decidable (m.heap.closure? v = .ok none))
  | prealloc _ | preallocSaving _ _ | collect | construct _ _ | makePair _ _ | makeClosure _ _
  | extendClosure _ _ | fst _ | snd _ | slot _ | lastResult | pushLocal _ | setSlot _ _ | call _ _ _
  | tailCall _ _ | ret _ | callClosure _ _ _ | tailCallClosure _ _ | apply _ _ _ | tailApply _ _
  | applyPending | reset _ => .isTrue trivial

-- The list is gone through, not all words.
instance (held : List (Word w)) (m : Machine w) (a : Action w) : Decidable (a.Proper held m) :=
  have : Decidable (∀ v ∈ a.inputs, v.ref? = none ∨ v ∈ held) := List.decidableBAll _ _
  inferInstanceAs (Decidable (_ ∧ _))

end Action

/-- A word that is read from the heap leads to its blocks. -/
theorem Orderly.reads (O : Orderly Q n held m vs) {r : Except (Trap w) (Word w)}
    (hr : ∀ D x, m.heap.Founded (m.roots ++ vs) D → r = .ok x → x.Into D) :
    Leaves Q n held id (((liftM r : Op w (Word w)) >>= fun x => pure [x]) m) := by
  obtain ⟨D, F, C, hheld⟩ := O.founded
  refine .lift fun x hx => ⟨O.since, D, F.reroot fun u hu => ?_, C, hheld⟩
  rcases List.mem_append.mp hu with hu | hu
  · exact F.rooted u (List.mem_append_left _ hu)
  · rw [List.mem_singleton.mp hu]
    exact hr D x F hx

theorem Orderly.slot (O : Orderly Q n held m vs) (i : Nat) :
    Leaves Q n held (fun x => [x]) (slot i m) := by
  refine .get <| .lift fun j _ => ?_
  cases hx : m.stack.slots[j]? with
  | none => trivial
  | some x =>
    refine O.more fun u hu => .inr (List.mem_append_left _ (.tail _ ?_))
    rw [List.mem_singleton.mp hu]
    rw [← Array.getElem?_toList] at hx
    exact List.mem_of_getElem? hx

/-- The closure that the action makes, if it does, is as `Q` says. -/
def Action.Makes (Q : ClosureView w → Prop) (m : Machine w) : Action w → Prop
  | makeClosure f captured => captured.length ≤ f.arity → ∀ d : ClosureView w,
      d.header.uid = f.uid → d.entry = f.label → d.arity = (Word.ofNat f.arity : Word w).toNat →
      d.captured = captured.length → Q d
  | extendClosure cl args => ∀ c d, m.heap.closure? cl = .ok (some c) → Q c →
      c.Extends args.length d → Q d
  | _ => True

/-- Every action leaves an orderly machine. -/
theorem Orderly.perform {a : Action w} (O : Orderly Q n held m a.inputs) (H : Heritable Q)
    (hreads : a.Reads m) (hmakes : a.Makes Q m) : Leaves Q n held id (a.perform m) := by
  have hin : ∀ {D v}, m.heap.Founded (m.roots ++ a.inputs) D → v ∈ a.inputs → v.Into D :=
    fun F hv => F.rooted _ (List.mem_append_right _ hv)
  cases a with
  | prealloc words => exact (O.prealloc H words).bind fun _ _ O' => O'
  | preallocSaving words temps => exact (O.preallocSaving H words).bind fun _ _ O' => O'
  | collect => exact (O.collect H).bind fun _ _ O' => O'
  | construct c fields => exact (O.construct c).bind fun _ _ O' => O'
  | makePair v u => exact O.makePair.bind fun _ _ O' => O'
  | makeClosure f captured => exact (O.makeClosure hmakes).bind fun _ _ O' => O'
  | extendClosure cl args => exact (O.extendClosure hmakes).bind fun _ _ O' => O'
  | field v i => exact O.reads fun D x F hx => Heap.into_field F.layout (hin F (.head _)) hreads hx
  | fst v => exact O.reads fun D x F hx => Heap.into_fst F.layout (hin F (.head _)) hx
  | snd v => exact O.reads fun D x F hx => Heap.into_snd F.layout (hin F (.head _)) hx
  | slot i => exact (O.slot i).bind fun _ _ O' => O'
  | lastResult =>
    exact O.more fun u hu => .inr (List.mem_singleton.mp hu ▸ .head _)
  | pushLocal v =>
    exact (O.keeps fun D F => keeps_pushLocal (hin F (.head _))).bind fun _ _ O' => O'.nil
  | setSlot i v =>
    exact (O.keeps fun D F => keeps_setSlot i (hin F (.head _))).bind fun _ _ O' => O'.nil
  | call callee args k =>
    exact (O.keeps fun D F => keeps_call callee (fun v hv => hin F hv) k).bind
      fun _ _ O' => O'.nil
  | tailCall callee args =>
    exact (O.keeps fun D F => keeps_tailCall callee fun v hv => hin F hv).bind
      fun _ _ O' => O'.nil
  | ret v => exact O.ret.bind fun _ _ O' => O'
  | callClosure cl args k =>
    exact (O.keeps fun D F => keeps_callClosure F.layout (hin F (.head _))
      (fun v hv => hin F (.tail _ hv)) k).bind fun _ _ O' => O'.nil
  | tailCallClosure cl args =>
    exact (O.keeps fun D F => keeps_tailCallClosure F.layout (hin F (.head _))
      fun v hv => hin F (.tail _ hv)).bind fun _ _ O' => O'.nil
  | apply cl args k => exact (O.apply H k).bind fun _ _ O' => O'
  | tailApply cl args => exact (O.tailApply H).bind fun _ _ O' => O'
  | applyPending => exact (O.applyPending H).bind fun _ _ O' => O'
  | reset names =>
    obtain ⟨D, F, C, hheld⟩ := O.founded
    refine ⟨O.since, D, F.reroot fun u hu => ?_, C, hheld⟩
    change u ∈ (m.reset names).roots ++ [] at hu
    rw [List.append_nil] at hu
    rw [List.mem_singleton.mp hu]
    exact Word.into_of_none Word.ref?_unitWord

/-- A machine that was made with the settings, and has since been used with values that could be
held; and the values that are held now. -/
def Uses (s : MachineSettings) : Machine w → List (Word w) → Prop := Performed s Action.Proper

/-- What is kept after an operation may still be used. -/
theorem Orderly.kept (O : Orderly Q m.heap.stats.collections held m' vs) :
    ∃ blocks, m'.heap.Founded (m'.roots ++ (vs ++ kept m m' held)) blocks ∧
      m'.heap.Closures Q blocks := by
  obtain ⟨D, F, C, hheld⟩ := O.founded
  refine ⟨D, F.reroot fun u hu => ?_, C⟩
  rw [← List.append_assoc] at hu
  rcases List.mem_append.mp hu with hu | hu
  · exact F.rooted u hu
  · unfold Machine.kept at hu
    split at hu
    · next hn => exact hheld hn u hu
    · cases hu

variable {s : MachineSettings}

/-- One action on a machine whose heap is in order leaves one. -/
theorem Action.Proper.orderly {a : Action w} (ha : a.Proper held m) (H : Heritable Q)
    (hmakes : a.Makes Q m) {D : Set Ref} (F : m.heap.Founded (m.roots ++ held) D)
    (C : m.heap.Closures Q D) :
    Leaves Q m.heap.stats.collections held id (a.perform m) := by
  have O : Orderly Q m.heap.stats.collections held m a.inputs := by
    refine ⟨Nat.le_refl _, D, F.reroot fun u hu => ?_, C,
      fun _ u hu => F.rooted u (List.mem_append_right _ hu)⟩
    rcases List.mem_append.mp hu with hu | hu
    · exact F.rooted u (List.mem_append_left _ hu)
    · exact (ha.1 u hu).elim Word.into_of_none fun hu => F.rooted u (List.mem_append_right _ hu)
  exact O.perform H ha.2 hmakes

/-- An action with values that could be held leaves a heap without cycles, in which all values held
lead to blocks. -/
theorem Action.Proper.founded {a : Action w} {r : Outcome w (Machine w) (List (Word w))}
    (ha : a.Proper held m) (H : Heritable Q) (hmakes : a.Makes Q m) {D : Set Ref}
    (F : m.heap.Founded (m.roots ++ held) D) (C : m.heap.Closures Q D) (hr : a.perform m = r)
    (hend : r.ended = true) :
    ∃ blocks, r.state.heap.Founded (r.state.roots ++ (r.answers ++ Machine.kept m r.state held))
      blocks ∧ r.state.heap.Closures Q blocks := by
  have hleaves := ha.orderly H hmakes F C
  rw [hr] at hleaves
  match r with
  | .ok out m' => exact Orderly.kept hleaves
  | .error (.error e) m' => exact Orderly.kept hleaves
  | .error (.trap t) m' => cases hend
  | .error .unfinished m' => cases hend

theorem founded_of_create {sink : Sink w} {journal : Journal w}
    (hc : create s sink journal = .ok m) : m.heap.Founded (m.roots ++ []) ∅ := by
  obtain ⟨hvalid, _, rfl⟩ := create_eq hc
  refine Heap.founded_vacant (validate_machine hvalid).1 fun v hv => ?_
  rw [List.append_nil] at hv
  rw [List.mem_singleton.mp hv]
  exact Word.ref?_unitWord

/-- Of closures in general nothing is asked. -/
theorem Action.makes_any (a : Action w) : a.Makes (fun _ => True) m := by
  cases a <;> simp [Action.Makes]

/-- If all closures that may be made are as `Q` says, then so are all closures on the heap. -/
theorem Performed.founded {allowed : List (Word w) → Machine w → Action w → Prop}
    (h : Performed s allowed m held) (H : Heritable Q)
    (hallowed : ∀ {held m a}, allowed held m a → a.Proper held m ∧ a.Makes Q m) :
    ∃ blocks, m.heap.Founded (m.roots ++ held) blocks ∧ m.heap.Closures Q blocks := by
  induction h with
  | fresh hc => exact ⟨∅, founded_of_create hc, fun _ hr => hr.elim⟩
  | put _ _ hu hr hend ih =>
    obtain ⟨a, rfl, ha⟩ := hu
    obtain ⟨hproper, hmakes⟩ := hallowed ha
    obtain ⟨D, F, C⟩ := ih
    exact hproper.founded H hmakes F C hr hend

/-- However a machine has been used, the words of its heap fall into blocks, all references lead to
them, and no chain of references leads back to where it starts. So any two values that lead to blocks
of the heap can be compared: the loop of the comparison ends with an answer. -/
theorem heap_acyclic_of_uses (h : Uses s m held) :
    ∃ blocks, m.heap.Partitioned (m.roots ++ held) blocks ∧ m.heap.space.Acyclic blocks ∧
      ∀ x y : Word w, x.Into blocks → y.Into blocks →
        ∃ b, m.heap.equal x y = .ok (some b) ∧ m.heap.space.Decides [(x, y)] b := by
  obtain ⟨D, F, _⟩ := Performed.founded h (fun _ _ _ _ _ _ => trivial) fun {_ _ a} ha =>
    ⟨ha, a.makes_any⟩
  exact ⟨D, F.toPartitioned, F.acyclic, fun x y hx hy => F.equal_ends hx hy⟩

def snug : MachineSettings := ⟨⟨16, 16, 1.0⟩, 16⟩

/-- A pair that is put on the stack and collected stands before the pair that it was made of. -/
def restacking : List (Action .bits64) :=
  [.prealloc 4, .makePair 4 8, .makePair (Ref.mk 0 true).word 12, .pushLocal (Ref.mk 2 true).word,
    .collect, .slot 0]

/-- A collection can put a block before one that it refers to, and still there is no cycle. -/
theorem heap_acyclic_of_uses_restacking :
    ∃ m held, Uses snug m held ∧ m.heap.stats.collections = 1 ∧
      m.heap.space.Refers ⟨0, true⟩ ⟨2, true⟩ ∧
      ∃ blocks, m.heap.Partitioned (m.roots ++ held) blocks ∧ m.heap.space.Acyclic blocks ∧
        ∀ x y : Word .bits64, x.Into blocks → y.Into blocks →
          ∃ b, m.heap.equal x y = .ok (some b) ∧ m.heap.space.Decides [(x, y)] b := by
  have hend : ∃ q ∈ advances Action.Proper (blank snug, []) restacking,
      q.1.heap.stats.collections = 1 ∧ (Ref.mk 2 true).word ∈ q.1.heap.space.traced ⟨0, true⟩ := by
    decide +kernel
  obtain ⟨⟨m, held⟩, hq, hcount, hrefers⟩ := hend
  have huses : Uses snug m held :=
    Performed.advances (.fresh (create_blank (by decide +kernel) (by decide))) hq
  exact ⟨m, held, huses, hcount, ⟨_, hrefers, by decide⟩, heap_acyclic_of_uses huses⟩

end Machine

end Trampoline
