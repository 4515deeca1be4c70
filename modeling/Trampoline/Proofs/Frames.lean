import Trampoline.Proofs.Graph
import Trampoline.Proofs.Stacks

/-!
The stack as a chain of frames and pending blocks.

Every frame stands on a stack that its continuation can go on with, and every pending block on one
that its own continuation can go on with. A call adds a frame, a return takes one off, and an
application to too many arguments adds a pending block and a frame on it: each of them turns a chain
into a chain.
-/

namespace Trampoline

variable {w : Width}

/-- The machine can go on at a label, with a frame pointer and a stack: on the stack are frames and
pending blocks, down to `d` slots with which it can go on at `k₀` with frame pointer `f₀`. -/
inductive Chain (d : Nat) (k₀ : Label) (f₀ : Nat) : Label → Nat → List (Word w) → Prop where
  | base {s : List (Word w)} : s.length = d → Chain d k₀ f₀ k₀ f₀ s
  /-- Continuation, link, and the slots of the frame. -/
  | frame {k l : Label} {f : Nat} {s locals : List (Word w)} {continuation link : Word w} :
      Chain d k₀ f₀ k f s → continuation.toCodeAddress = .ok k.id →
      link.toSmallInt = .ok (f : Int) → l.isReserved = false →
      Chain d k₀ f₀ l (s.length + 2) (s ++ continuation :: link :: locals)
  /-- Continuation, arguments, and their number. -/
  | pending {k : Label} {f : Nat} {s args : List (Word w)} {continuation count : Word w} :
      Chain d k₀ f₀ k f s → continuation.toCodeAddress = .ok k.id → args ≠ [] →
      count.toSmallInt = .ok (args.length : Int) →
      Chain d k₀ f₀ .applyPending f (s ++ continuation :: (args ++ [count]))

namespace Chain

variable {d : Nat} {k₀ k l : Label} {f₀ f : Nat} {s t : List (Word w)} {ψ : Ref → Ref → Prop}

theorem le_length (C : Chain d k₀ f₀ k f s) : d ≤ s.length := by
  induction C with
  | base h => omega
  | frame _ _ _ _ ih => simp only [List.length_append]; omega
  | pending _ _ _ _ ih => simp only [List.length_append]; omega

theorem fp_le (hf : f₀ ≤ d) (C : Chain d k₀ f₀ k f s) : f ≤ s.length := by
  induction C with
  | base h => omega
  | frame _ _ _ _ ih => simp only [List.length_append, List.length_cons]; omega
  | pending _ _ _ _ ih => simp only [List.length_append]; omega

/-- Above the base there is a frame on top of the stack at every label with code of its own. -/
theorem of_not_reserved (C : Chain d k₀ f₀ l f s) (hd : d < s.length) (hl : l.isReserved = false) :
    ∃ k g below continuation link locals, Chain d k₀ f₀ k g below ∧
      continuation.toCodeAddress = .ok k.id ∧ link.toSmallInt = .ok (g : Int) ∧
      f = below.length + 2 ∧ s = below ++ continuation :: link :: locals := by
  cases C with
  | base h => omega
  | frame C ha hb _ => exact ⟨_, _, _, _, _, _, C, ha, hb, rfl, rfl⟩
  | pending => cases hl

/-- Above the base there is a pending block on top of the stack where one is to be applied. -/
theorem of_applyPending (C : Chain d k₀ f₀ .applyPending f s) (hd : d < s.length) :
    ∃ k below continuation args count, Chain d k₀ f₀ k f below ∧
      continuation.toCodeAddress = .ok k.id ∧ args ≠ [] ∧
      count.toSmallInt = .ok (args.length : Int) ∧
      s = below ++ continuation :: (args ++ [count]) := by
  cases C with
  | base h => omega
  | frame _ _ _ hl => cases hl
  | pending C ha hne hc => exact ⟨_, _, _, _, _, C, ha, hne, hc, rfl⟩

/-- At the base there is nothing but the base. -/
theorem at_base (C : Chain d k₀ f₀ l f s) (hs : s.length ≤ d) : l = k₀ ∧ f = f₀ := by
  cases C with
  | base _ => exact ⟨rfl, rfl⟩
  | frame C _ _ _ =>
    have hle := C.le_length
    simp only [List.length_append, List.length_cons] at hs
    omega
  | pending C _ _ _ =>
    have hle := C.le_length
    simp only [List.length_append, List.length_cons] at hs
    omega

theorem not_reserved (C : Chain d k₀ f₀ l f s) (hd : d < s.length) (hl : l ≠ .applyPending) :
    l.isReserved = false := by
  cases C with
  | base h => omega
  | frame _ _ _ hl => exact hl
  | pending => exact absurd rfl hl

/-- The header of the current frame decides; its slots, and which label with code the machine is
at, do not. -/
theorem refill (C : Chain d k₀ f₀ k f s) (hd : d < s.length) (hk : k.isReserved = false)
    (hl : l.isReserved = false) (locals : List (Word w)) :
    d < (s.take f).length ∧ Chain d k₀ f₀ l f (s.take f ++ locals) := by
  obtain ⟨_, _, below, a, b, old, C', ha, hb, rfl, rfl⟩ := C.of_not_reserved hd hk
  have htake : (below ++ a :: b :: old).take (below.length + 2) = below ++ [a, b] := by
    rw [List.take_length_add_append]
    rfl
  have hle := C'.le_length
  rw [htake, List.append_assoc]
  exact ⟨by simp only [List.length_append, List.length_cons]; omega, .frame C' ha hb hl⟩

/-- A chain stays one when blocks move: what it consists of are small integers. -/
theorem relocate (C : Chain d k₀ f₀ k f s) (h : List.Forall₂ (Word.Matched ψ) s t) :
    Chain d k₀ f₀ k f t := by
  induction C generalizing t with
  | base hlen => exact .base (h.length_eq.symm.trans hlen)
  | frame C ha hb hl ih =>
    obtain ⟨below, top, rfl, hbelow, htop⟩ := forall₂_append_split h
    cases htop with
    | cons ha' htop =>
      cases htop with
      | cons hb' htop =>
        rw [ha'.eq_of_none (Word.ref?_of_toCodeAddress ha),
          hb'.eq_of_none (Word.ref?_of_toSmallInt hb), hbelow.length_eq]
        exact .frame (ih hbelow) ha hb hl
  | pending C ha hne hc ih =>
    obtain ⟨below, top, rfl, hbelow, htop⟩ := forall₂_append_split h
    cases htop with
    | cons ha' htop =>
      obtain ⟨args, last, rfl, hargs, hlast⟩ := forall₂_append_split htop
      cases hlast with
      | cons hc' hnil =>
        cases hnil
        rw [ha'.eq_of_none (Word.ref?_of_toCodeAddress ha),
          hc'.eq_of_none (Word.ref?_of_toSmallInt hc)]
        rw [hargs.length_eq] at hc
        refine .pending (ih hbelow) ha ?_ hc
        rintro rfl
        cases hargs
        exact hne rfl

end Chain

/-! ### What operations do to the stack -/

section

variable {α β : Type} {m n : Machine w} {r : Except (Trap w) α} {f : α → Op w β}

theorem liftM_bind_of_ok {a : α} (h : r = .ok a) :
    ((liftM r : Op w α) >>= f) m = f a m := by
  rw [h]
  rfl

theorem of_liftM_bind_eq_ok {b : β} (h : ((liftM r : Op w α) >>= f) m = .ok b n) :
    ∃ a, r = .ok a ∧ f a m = .ok b n := by
  cases r with
  | ok a => exact ⟨a, rfl, h⟩
  | error t => cases h

theorem of_get_bind_eq_ok {g : Machine w → Op w β} {b : β}
    (h : (get >>= g) m = .ok b n) : g m m = .ok b n := h

end

namespace Machine

variable {m n : Machine w} {args : List (Word w)} {k l : Label} {c : ClosureView w}

def opened (m : Machine w) (continuation link : Word w) (locals : List (Word w)) : Machine w :=
  { m with
    stack := ((m.stack.push continuation).push link).pushList locals
    fp := m.slots.length + 2 }

def suspended (m : Machine w) (continuation : Word w) (args : List (Word w)) (count : Word w) :
    Machine w :=
  { m with stack := ((m.stack.push continuation).pushList args).push count }

def dropped (m : Machine w) (d : Nat) : Machine w := { m with stack := m.stack.shrink d }

@[simp] theorem slots_opened (continuation link : Word w) (locals : List (Word w)) :
    (m.opened continuation link locals).slots = m.slots ++ continuation :: link :: locals := by
  simp [opened, slots]

@[simp] theorem slots_suspended (continuation count : Word w) (args : List (Word w)) :
    (m.suspended continuation args count).slots = m.slots ++ continuation :: (args ++ [count]) := by
  simp [suspended, slots]

@[simp] theorem slots_dropped (d : Nat) : (m.dropped d).slots = m.slots.take d := by
  simp [dropped, slots]

/-- Roots that a collection has moved are put back where they were. -/
theorem roots_setRoots {R : Word w → Word w → Prop} {roots : List (Word w)}
    (hroots : List.Forall₂ R m.roots roots) : (m.setRoots roots).roots = roots := by
  cases hroots with
  | cons _ _ => simp [setRoots, Machine.roots]

theorem closureView_of_some {v : Word w} (hc : m.heap.closure? v = .ok (some c)) :
    closureView v m = .ok c m := by
  change ((liftM (m.heap.closure? v) : Op w _) >>= _) m = _
  rw [liftM_bind_of_ok hc]
  rfl

theorem closureView_eq_ok {v : Word w} (h : closureView v m = .ok c n) :
    n = m ∧ m.heap.closure? v = .ok (some c) := by
  obtain ⟨o, ho, h⟩ := of_liftM_bind_eq_ok (of_get_bind_eq_ok h)
  cases o with
  | some c =>
    cases h
    exact ⟨rfl, ho⟩
  | none => cases h

theorem checkStack_eq_ok {words : Nat} {u : Unit} (h : checkStack words m = .ok u n) :
    m = n ∧ m.slots.length + words ≤ m.maxStackWords := by
  have h := of_get_bind_eq_ok h
  rw [depth_eq] at h
  split at h
  · cases h
  · next hroom =>
    cases h
    exact ⟨rfl, by omega⟩

theorem checkStack_of_le {words : Nat} (h : m.slots.length + words ≤ m.maxStackWords) :
    checkStack words m = .ok () m := by
  change (ite _ _ _ : Op w Unit) m = _
  rw [depth_eq, if_neg (by omega)]
  rfl

theorem checkStack_of_lt {words : Nat} (h : m.maxStackWords < m.slots.length + words) :
    checkStack words m = .error (.error (.stackOverflow m.maxStackWords)) m := by
  change (ite _ _ _ : Op w Unit) m = _
  rw [depth_eq, if_pos h]
  rfl

theorem truncate_of_le {d : Nat} (h : d ≤ m.slots.length) :
    truncate d m = .ok () (m.dropped d) := by
  change (ite _ _ _ : Op w Unit) m = _
  rw [depth_eq, if_neg (by omega)]
  rfl

theorem truncate_eq_ok {d : Nat} {u : Unit} (h : truncate d m = .ok u n) : n = m.dropped d := by
  have h := of_get_bind_eq_ok h
  split at h
  · cases h
  · cases h
    rfl

/-- With room for it, a frame is opened on the stack. -/
theorem pushFrame_of_room {arity : Nat} {continuation link : Word w}
    (hk : Word.codeAddress k.id = .ok continuation) (hlink : Word.size m.fp = .ok link)
    (hroom : m.slots.length + (2 + arity) ≤ m.maxStackWords) :
    pushFrame k arity m = .ok () (m.opened continuation link []) := by
  have hdepth : ((m.stack.push continuation).push link).depth = m.slots.length + 2 := by
    simp [Stack.depth_eq, slots]
  refine (bind_of_ok (checkStack_of_le hroom)).trans ?_
  change ((liftM (Word.codeAddress (w := w) k.id) : Op w _) >>= _) m = _
  rw [liftM_bind_of_ok hk, liftM_bind_of_ok hlink]
  simp only [opened, Stack.pushList, List.foldl_nil, ← hdepth]
  rfl

theorem pushFrame_of_lt {arity : Nat} (h : m.maxStackWords < m.slots.length + (2 + arity)) :
    pushFrame k arity m = .error (.error (.stackOverflow m.maxStackWords)) m :=
  bind_of_error (checkStack_of_lt h)

/-- A frame that has been opened had room. -/
theorem pushFrame_eq_ok {arity : Nat} {u : Unit} (h : pushFrame k arity m = .ok u n) :
    ∃ continuation link, Word.codeAddress k.id = .ok continuation ∧ Word.size m.fp = .ok link ∧
      m.slots.length + (2 + arity) ≤ m.maxStackWords ∧ n = m.opened continuation link [] := by
  obtain ⟨_, _, hcheck, hrest⟩ := of_bind_eq_ok h
  obtain ⟨rfl, hroom⟩ := checkStack_eq_ok hcheck
  obtain ⟨continuation, hk, hrest⟩ := of_liftM_bind_eq_ok (of_get_bind_eq_ok hrest)
  obtain ⟨link, hl, hrest⟩ := of_liftM_bind_eq_ok hrest
  refine ⟨continuation, link, hk, hl, hroom, ?_⟩
  cases hrest
  have hdepth : ((m.stack.push continuation).push link).depth = m.slots.length + 2 := by
    simp [Stack.depth_eq, slots]
  simp only [opened, Stack.pushList, List.foldl_nil, hdepth]

theorem call_eq_ok {callee : Label} (h : call callee args k m = .ok l n) :
    ∃ continuation link, Word.codeAddress k.id = .ok continuation ∧ Word.size m.fp = .ok link ∧
      m.slots.length + (2 + args.length) ≤ m.maxStackWords ∧ l = callee ∧
      n = m.opened continuation link args := by
  obtain ⟨_, _, hpush, hrest⟩ := of_bind_eq_ok h
  obtain ⟨continuation, link, hk, hl, hroom, rfl⟩ := pushFrame_eq_ok hpush
  cases hrest
  exact ⟨continuation, link, hk, hl, hroom, rfl, rfl⟩

/-- What a saturated call that returns has done. -/
theorem enter_eq_ok (h : enter c args k m = .ok l n) :
    ∃ continuation link held, Word.codeAddress k.id = .ok continuation ∧
      Word.size m.fp = .ok link ∧ m.heap.capturedArgs c = .ok held ∧
      m.slots.length + (2 + c.arity) ≤ m.maxStackWords ∧ l = c.entry ∧
      n = m.opened continuation link (held ++ args) := by
  obtain ⟨_, _, hpush, hrest⟩ := of_bind_eq_ok h
  obtain ⟨continuation, link, hk, hl, hroom, rfl⟩ := pushFrame_eq_ok hpush
  obtain ⟨all, _, hall, hrest⟩ := of_bind_eq_ok hrest
  obtain ⟨held, hheld, hall⟩ := of_liftM_bind_eq_ok (of_get_bind_eq_ok hall)
  cases hall
  cases hrest
  exact ⟨continuation, link, held, hk, hl, hheld, hroom, rfl, rfl⟩

/-- New arguments take the place of the slots of the frame. -/
theorem replaceFrame_eq_ok {x : Op w (List (Word w))} {arity : Nat} {u : Unit}
    (hx : ∀ vs m₁ m₂, x m₁ = .ok vs m₂ → m₁ = m₂) (h : replaceFrame x arity m = .ok u n) :
    ∃ vs, x (m.dropped m.fp) = .ok vs (m.dropped m.fp) ∧
      n = { m.dropped m.fp with stack := (m.dropped m.fp).stack.pushList vs } := by
  obtain ⟨_, _, htruncate, hrest⟩ := of_bind_eq_ok (of_get_bind_eq_ok h)
  cases truncate_eq_ok htruncate
  obtain ⟨_, _, hcheck, hrest⟩ := of_bind_eq_ok hrest
  obtain ⟨rfl, _⟩ := checkStack_eq_ok hcheck
  obtain ⟨vs, _, hvs, hrest⟩ := of_bind_eq_ok hrest
  cases hx _ _ _ hvs
  cases hrest
  exact ⟨vs, hvs, rfl⟩

/-- What an application to too many arguments that returns has done. -/
theorem overApply_eq_ok (h : overApply c args k m = .ok l n) :
    ∃ need continuation count, c.captured + need = c.arity ∧
      Word.codeAddress k.id = .ok continuation ∧
      Word.size (args.drop need).length = .ok count ∧
      m.slots.length + ((args.drop need).length + 2) ≤ m.maxStackWords ∧
      enter c (args.take need) .applyPending (m.suspended continuation (args.drop need) count) =
        .ok l n := by
  obtain ⟨need, hneed, hrest⟩ := of_liftM_bind_eq_ok h
  obtain ⟨hle, rfl⟩ := Size.sub_eq_ok hneed
  obtain ⟨_, _, hcheck, hrest⟩ := of_bind_eq_ok hrest
  obtain ⟨rfl, hroom⟩ := checkStack_eq_ok hcheck
  obtain ⟨continuation, hk, hrest⟩ := of_liftM_bind_eq_ok hrest
  obtain ⟨_, _, hpush, hrest⟩ := of_bind_eq_ok hrest
  cases hpush
  obtain ⟨_, _, hpush, hrest⟩ := of_bind_eq_ok hrest
  cases hpush
  obtain ⟨count, hc, hrest⟩ := of_liftM_bind_eq_ok hrest
  obtain ⟨_, _, hpush, hrest⟩ := of_bind_eq_ok hrest
  cases hpush
  exact ⟨_, continuation, count, by omega, hk, hc, hroom, hrest⟩

/-! ### Chains through operations -/

variable {d : Nat} {k₀ : Label} {f₀ : Nat}

theorem ofInt_toSmallInt {v : Word w} {f : Nat} (h : v.toSmallInt = .ok (f : Int)) :
    Size.ofInt (f : Int) = f := by
  have hle := Word.toSmallInt_le h
  refine Size.ofInt_natCast ?_
  cases w <;> simp only [Width.maxInt, sizeRange] at * <;> omega

/-- A frame is left for its continuation. -/
theorem leaveFrame_of_header {below locals : List (Word w)} {continuation link : Word w} {g : Int}
    (ha : continuation.toCodeAddress = .ok k.id) (hb : link.toSmallInt = .ok g)
    (hfp : m.fp = below.length + 2) (hslots : m.slots = below ++ continuation :: link :: locals) :
    leaveFrame m = .ok k { m.dropped below.length with fp := Size.ofInt g } := by
  have hbase : Size.sub (w := w) m.fp frameHeaderWords = .ok below.length := by
    rw [hfp]
    exact Size.add_sub _ _
  have hget : m.stack.get below.length = .ok continuation :=
    Stack.get_of_some _ (by change m.slots[_]? = _; simp [hslots])
  have hget' : m.stack.get (below.length + 1) = .ok link :=
    Stack.get_of_some _ (by change m.slots[_]? = _; simp [hslots])
  have hle : below.length ≤ m.slots.length := by simp [hslots]
  change (liftM _ >>= _ : Op w Label) m = _
  rw [liftM_bind_of_ok hbase, liftM_bind_of_ok hget, liftM_bind_of_ok ha, liftM_bind_of_ok hget',
    liftM_bind_of_ok hb, bind_of_ok (truncate_of_le hle)]
  rfl

/-- A frame that is part of a chain can be left. -/
theorem leaveFrame_of_frame {below locals : List (Word w)} {continuation link : Word w} {g : Nat}
    (ha : continuation.toCodeAddress = .ok k.id) (hb : link.toSmallInt = .ok (g : Int))
    (hfp : m.fp = below.length + 2) (hslots : m.slots = below ++ continuation :: link :: locals) :
    leaveFrame m = .ok k { m.dropped below.length with fp := g } := by
  rw [leaveFrame_of_header ha hb hfp hslots, ofInt_toSmallInt hb]

/-- A pending block that is part of a chain is found, and its arguments are applied to. -/
theorem applyPending_of_pending {below : List (Word w)} {continuation count : Word w}
    (ha : continuation.toCodeAddress = .ok k.id) (hc : count.toSmallInt = .ok (args.length : Int))
    (hslots : m.slots = below ++ continuation :: (args ++ [count])) :
    applyPending m = apply m.result args k (m.dropped below.length) := by
  have hdepth : m.stack.depth = below.length + args.length + 2 := by
    rw [depth_eq, hslots]
    simp only [List.length_append, List.length_cons, List.length_nil]
    omega
  have htop : Size.sub (w := w) m.stack.depth 1 = .ok (below.length + args.length + 1) := by
    rw [hdepth]
    exact Size.add_sub _ _
  have hget : m.stack.get (below.length + args.length + 1) = .ok count :=
    Stack.get_of_some _ (by
      change m.slots[_]? = _
      rw [hslots, List.getElem?_append_right (by omega)]
      simp [show below.length + args.length + 1 - below.length = args.length + 1 by omega])
  have hsub : Size.sub (w := w) m.stack.depth 2 = .ok (below.length + args.length) := by
    rw [hdepth]
    exact Size.add_sub _ _
  have hbase : Size.sub (w := w) (below.length + args.length) args.length = .ok below.length :=
    Size.add_sub _ _
  have hget' : m.stack.get below.length = .ok continuation :=
    Stack.get_of_some _ (by change m.slots[_]? = _; simp [hslots])
  have hargs : (m.stack.above (below.length + 1)).take args.length = args := by
    rw [Stack.above_eq]
    change (m.slots.drop _).take _ = _
    rw [hslots, List.drop_length_add_append]
    simp
  have hle : below.length ≤ m.slots.length := by simp [hslots]
  change (liftM _ >>= _ : Op w Label) m = _
  rw [liftM_bind_of_ok htop, liftM_bind_of_ok hget, liftM_bind_of_ok hc]
  simp only [ofInt_toSmallInt hc]
  rw [liftM_bind_of_ok hsub, liftM_bind_of_ok hbase, liftM_bind_of_ok hget', liftM_bind_of_ok ha,
    bind_of_ok (truncate_of_le hle), hargs]

end Machine

namespace Chain

open Machine

variable {m n : Machine w} {args : List (Word w)} {k l : Label} {c : ClosureView w} {d f₀ : Nat}
  {k₀ : Label} {continuation link count : Word w}

theorem opened (C : Chain d k₀ f₀ k m.fp m.slots) (hf : f₀ ≤ d) {arity : Nat}
    (hroom : m.slots.length + arity ≤ m.maxStackWords) (hmax : (m.maxStackWords : Int) ≤ w.maxInt)
    (ha : Word.codeAddress k.id = .ok continuation) (hb : Word.size m.fp = .ok link)
    (hl : l.isReserved = false) (locals : List (Word w)) :
    Chain d k₀ f₀ l (m.opened continuation link locals).fp
      (m.opened continuation link locals).slots := by
  rw [slots_opened]
  have hfp := C.fp_le hf
  exact .frame C (Word.toCodeAddress_codeAddress ha) (Word.toSmallInt_size (by omega) hb) hl

theorem suspended (C : Chain d k₀ f₀ k m.fp m.slots)
    (hroom : m.slots.length + (args.length + 2) ≤ m.maxStackWords)
    (hmax : (m.maxStackWords : Int) ≤ w.maxInt) (hne : args ≠ [])
    (ha : Word.codeAddress k.id = .ok continuation) (hc : Word.size args.length = .ok count) :
    Chain d k₀ f₀ .applyPending (m.suspended continuation args count).fp
      (m.suspended continuation args count).slots := by
  rw [slots_suspended]
  exact .pending C (Word.toCodeAddress_codeAddress ha) hne (Word.toSmallInt_size (by omega) hc)

theorem call {callee : Label} (C : Chain d k₀ f₀ k m.fp m.slots) (hf : f₀ ≤ d)
    (hmax : (m.maxStackWords : Int) ≤ w.maxInt) (hcallee : callee.isReserved = false)
    (h : Machine.call callee args k m = .ok l n) : Chain d k₀ f₀ l n.fp n.slots := by
  obtain ⟨a, b, ha, hb, hroom, rfl, rfl⟩ := call_eq_ok h
  exact C.opened hf hroom hmax ha hb hcallee args

theorem enter (C : Chain d k₀ f₀ k m.fp m.slots) (hf : f₀ ≤ d)
    (hmax : (m.maxStackWords : Int) ≤ w.maxInt) (hc : c.entry.isReserved = false)
    (h : Machine.enter c args k m = .ok l n) : Chain d k₀ f₀ l n.fp n.slots := by
  obtain ⟨a, b, held, ha, hb, _, hroom, rfl, rfl⟩ := enter_eq_ok h
  exact C.opened hf hroom hmax ha hb hc _

theorem overApply (C : Chain d k₀ f₀ k m.fp m.slots) (hf : f₀ ≤ d)
    (hmax : (m.maxStackWords : Int) ≤ w.maxInt) (hc : c.entry.isReserved = false)
    (hsurplus : c.arity < c.captured + args.length)
    (h : Machine.overApply c args k m = .ok l n) : Chain d k₀ f₀ l n.fp n.slots := by
  obtain ⟨need, a, count, hneed, ha, hcount, hroom, hrest⟩ := overApply_eq_ok h
  have hne : args.drop need ≠ [] := by
    rw [Ne, List.drop_eq_nil_iff]
    omega
  exact (C.suspended hroom hmax hne ha hcount).enter hf hmax hc hrest

/-- A frame is refilled and keeps its header. -/
theorem replaceFrame {x : Op w (List (Word w))} {arity : Nat} {u : Unit}
    (hx : ∀ vs m₁ m₂, x m₁ = .ok vs m₂ → m₁ = m₂) (C : Chain d k₀ f₀ k m.fp m.slots)
    (hd : d < m.slots.length) (hk : k.isReserved = false) (hl : l.isReserved = false)
    (h : Machine.replaceFrame x arity m = .ok u n) : Chain d k₀ f₀ l n.fp n.slots := by
  obtain ⟨vs, _, rfl⟩ := replaceFrame_eq_ok hx h
  have hslots : ({ m.dropped m.fp with stack := (m.dropped m.fp).stack.pushList vs } :
      Machine w).slots = m.slots.take m.fp ++ vs := by
    rw [← slots_dropped]
    exact Stack.slots_pushList _ _
  rw [hslots]
  exact (C.refill hd hk hl vs).2

theorem allArgs_eq_ok {vs : List (Word w)} (h : Machine.allArgs c args m = .ok vs n) : m = n := by
  obtain ⟨held, _, h⟩ := of_liftM_bind_eq_ok (of_get_bind_eq_ok h)
  cases h
  rfl

theorem tailCall {callee : Label} (C : Chain d k₀ f₀ k m.fp m.slots) (hd : d < m.slots.length)
    (hk : k.isReserved = false) (hcallee : callee.isReserved = false)
    (h : Machine.tailCall callee args m = .ok l n) : Chain d k₀ f₀ l n.fp n.slots := by
  obtain ⟨_, _, hreplace, hrest⟩ := of_bind_eq_ok h
  cases hrest
  refine C.replaceFrame ?_ hd hk hcallee hreplace
  intro _ _ _ hvs
  cases hvs
  rfl

theorem tailEnter (C : Chain d k₀ f₀ k m.fp m.slots) (hd : d < m.slots.length)
    (hk : k.isReserved = false) (hc : c.entry.isReserved = false)
    (h : Machine.tailEnter c args m = .ok l n) : Chain d k₀ f₀ l n.fp n.slots := by
  obtain ⟨_, _, hreplace, hrest⟩ := of_bind_eq_ok h
  cases hrest
  exact C.replaceFrame (fun _ _ _ h => allArgs_eq_ok h) hd hk hc hreplace

/-- At a label with code of its own the frame can be left, and what is below it is a chain. -/
theorem leaveFrame (C : Chain d k₀ f₀ l m.fp m.slots) (hd : d < m.slots.length)
    (hl : l.isReserved = false) :
    ∃ k g, 2 ≤ m.fp ∧ Machine.leaveFrame m = .ok k { m.dropped (m.fp - 2) with fp := g } ∧
      Chain d k₀ f₀ k g (m.slots.take (m.fp - 2)) := by
  obtain ⟨k, g, below, a, b, locals, C', ha, hb, hfp, hslots⟩ := C.of_not_reserved hd hl
  have hleave := leaveFrame_of_frame ha hb hfp hslots
  have hbase : m.fp - 2 = below.length := by omega
  refine ⟨k, g, by omega, ?_, ?_⟩
  · rw [hbase]
    exact hleave
  · rw [hbase, hslots, List.take_left]
    exact C'

end Chain

end Trampoline
