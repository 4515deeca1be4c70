import Trampoline.Proofs.Frames
import Trampoline.Proofs.Overflows
import Trampoline.Proofs.Usage

/-!
What operations make of a machine, whatever the code.

Operations change a machine in a few ways only: slots are pushed after a check that they fit, dropped
or overwritten, the frame pointer is set to the depth or to a link that was read, blocks are placed
in reservations and moved by collections. A property of machines that these changes keep is kept by
every operation, by the code of every body and by every run, however it ends; only a trap may leave
less, because it can come in the middle of a change. The same goes for the integers that overflow:
they are those that the code itself makes.
-/

namespace Trampoline

variable {w : Width}

section

variable {σ α β : Type} {I J : σ → Prop} {N : Int → Prop}

/-- The state of an outcome has the property `I`, or `J` if it is that of a trap. There is a value with
`Q`, or a fault; and if a small integer has overflowed then it is one of `N`. -/
def Outcome.Meets (I J : σ → Prop) (N : Int → Prop) (Q : α → σ → Prop) : Outcome w σ α → Prop
  | .ok a s => I s ∧ Q a s
  | .error e s => (I s ∨ (∃ t, e = .trap t) ∧ J s) ∧ ∀ z, e = .trap (.intOverflow z) → N z

/-- Two computations in a row keep what each of them keeps. -/
theorem Outcome.Meets.bind {x : EStateM (Fault w RuntimeError) σ α}
    {f : α → EStateM (Fault w RuntimeError) σ β} {Q : α → σ → Prop} {R : β → σ → Prop} {s : σ}
    (hx : Outcome.Meets I J N Q (x s)) (hf : ∀ a s', I s' → Q a s' → Outcome.Meets I J N R (f a s')) :
    Outcome.Meets I J N R ((x >>= f) s) := by
  cases hr : x s with
  | ok a s' =>
    rw [hr] at hx
    rw [bind_of_ok hr]
    exact hf a s' hx.1 hx.2
  | error e s' =>
    rw [hr] at hx
    rw [bind_of_error hr]
    exact hx

theorem Outcome.Meets.mono {Q R : α → σ → Prop} {r : Outcome w σ α} (h : Outcome.Meets I J N Q r)
    (hQR : ∀ a s, Q a s → R a s) : Outcome.Meets I J N R r := by
  cases r with
  | ok a s => exact ⟨h.1, hQR a s h.2⟩
  | error e s => exact h

/-- A computation keeps the property `I` of the state, unless it traps and leaves `J`, and no small
integer overflows in it but those of `N`. -/
def Ensures (I J : σ → Prop) (N : Int → Prop) (x : EStateM (Fault w RuntimeError) σ α) : Prop :=
  ∀ s, I s → Outcome.Meets I J N (fun _ _ => True) (x s)

namespace Ensures

variable {x y : EStateM (Fault w RuntimeError) σ α} {f : α → EStateM (Fault w RuntimeError) σ β}

theorem keeps (h : Ensures I I N x) : Keeps I x := by
  intro s hs
  have hx := h s hs
  cases hr : x s with
  | ok a s' => rw [hr] at hx; exact hx.1
  | error e s' => rw [hr] at hx; exact hx.1.elim id And.right

theorem kept (h : Ensures I J N x) {s : σ} (hs : I s) (hend : Outcome.ended (x s) = true) :
    I (Outcome.state (x s)) := by
  have hx := h s hs
  cases hr : x s with
  | ok a s' => rw [hr] at hx; exact hx.1
  | error e s' =>
    rw [hr] at hx hend
    rcases hx.1 with hs' | ⟨⟨t, rfl⟩, _⟩
    · exact hs'
    · cases hend

theorem overflow (h : Ensures I J N x) {s s' : σ} (hs : I s) {z : Int}
    (hx : x s = .error (.trap (.intOverflow z)) s') : N z := by
  have hmeets := h s hs
  rw [hx] at hmeets
  exact hmeets.2 z rfl

theorem pure (a : α) : Ensures (w := w) I J N (Pure.pure a) := fun _ hs => ⟨hs, trivial⟩

theorem throw {e : Fault w RuntimeError} (he : ∀ z, e ≠ .trap (.intOverflow z)) :
    Ensures (α := α) I J N (throw e) := fun _ hs => ⟨.inl hs, fun z hz => absurd hz (he z)⟩

theorem bind (hx : Ensures I J N x) (hf : ∀ a, Ensures I J N (f a)) : Ensures I J N (x >>= f) :=
  fun s hs => (hx s hs).bind fun a s' hs' _ => hf a s' hs'

theorem get {f : σ → EStateM (Fault w RuntimeError) σ β} (hf : ∀ s, Ensures I J N (f s)) :
    Ensures I J N (MonadState.get >>= f) := fun s hs => hf s s hs

theorem modify {f : σ → σ} (hf : ∀ s, I s → I (f s)) : Ensures (w := w) I J N (modify f) :=
  fun s hs => ⟨hf s hs, trivial⟩

theorem ite {c : Prop} [Decidable c] (hx : Ensures I J N x) (hy : Ensures I J N y) :
    Ensures I J N (if c then x else y) := by
  split
  · exact hx
  · exact hy

end Ensures

end

namespace Machine

variable {α β : Type}

/-- Changes that operations make of a machine keep the property, and the sizes that they store
overflow only in `N`. -/
structure Conserved (I J : Machine w → Prop) (N : Int → Prop) : Prop where
  /-- Names, what is printed and what is recorded do not matter, nor does the result. -/
  aside : ∀ {m n : Machine w}, I m → n.heap = m.heap → n.stack = m.stack → n.fp = m.fp →
    n.maxStackWords = m.maxStackWords → I n
  dropped : ∀ {m : Machine w} (d : Nat), I m → I (m.dropped d)
  replaced : ∀ {m : Machine w} (i : Nat) (v : Word w), I m →
    I { m with stack := m.stack.replace i v }
  pushed : ∀ {m : Machine w} {vs : List (Word w)}, I m →
    m.slots.length + vs.length ≤ m.maxStackWords → I { m with stack := m.stack.pushList vs }
  entered : ∀ {m : Machine w}, I m → I { m with fp := m.stack.depth }
  linked : ∀ {m : Machine w} {f : Nat} {v : Word w}, I m → Word.size f = .ok v → I { m with fp := f }
  placed : ∀ {m : Machine w} {p : Plan w}, I m → m.heap.Fits p →
    I { m with heap := m.heap.place p.contents }
  reserved : ∀ {m : Machine w} {words : Nat} {c : Checkpoint w}, I m →
    m.heap.reserve words m.roots = .ok c → I { m.setRoots c.roots with heap := c.heap }
  collected : ∀ {m : Machine w} {c : Checkpoint w}, I m → m.heap.collect m.roots = .ok c →
    I { m.setRoots c.roots with heap := c.heap }
  /-- A trap may leave any heap, and some of the roots moved. -/
  trapped : ∀ {m : Machine w} {h : Heap w} {roots : List (Word w)}, I m →
    roots.length = m.roots.length → J { m.setRoots roots with heap := h }
  reset : ∀ {m : Machine w} (names : Names), I m → I (m.reset names)
  link : ∀ {m : Machine w}, I m → Overflows N (Word.size (w := w) m.fp)
  count : ∀ {m : Machine w} {n : Nat}, I m → n ≤ m.maxStackWords →
    Overflows N (Word.size (w := w) n)

theorem ensures_except {I J : Machine w → Prop} {N : Int → Prop} {r : Except (Trap w) α}
    (hr : Overflows N r) : Ensures I J N (liftM r : Op w α) := by
  cases r with
  | ok a => exact .pure a
  | error t => exact fun m hm => ⟨.inl hm, fun z hz => hr z (by cases hz; rfl)⟩

theorem meets_lift {I J : Machine w → Prop} {N : Int → Prop} {r : Except (Trap w) α} {f : α → Op w β}
    {Q : β → Machine w → Prop} {m : Machine w} (hm : I m) (hr : Overflows N r)
    (hf : ∀ a, r = .ok a → Outcome.Meets I J N Q (f a m)) :
    Outcome.Meets I J N Q (((liftM r : Op w α) >>= f) m) := by
  cases r with
  | ok a => exact hf a rfl
  | error t => exact ⟨.inl hm, fun z hz => hr z (by cases hz; rfl)⟩

namespace Conserved

variable {I J : Machine w → Prop} {N : Int → Prop} {m : Machine w} {k : Label} {v : Word w}
  {args vs : List (Word w)} {c : ClosureView w}

/-! ### What is on the side -/

theorem modify (C : Conserved I J N) {f : Machine w → Machine w} (hheap : ∀ m, (f m).heap = m.heap)
    (hstack : ∀ m, (f m).stack = m.stack) (hfp : ∀ m, (f m).fp = m.fp)
    (hmax : ∀ m, (f m).maxStackWords = m.maxStackWords) : Ensures (w := w) I J N (modify f) :=
  .modify fun m hm => C.aside hm (hheap m) (hstack m) (hfp m) (hmax m)

theorem record (C : Conserved I J N) (e : Event w) : Ensures I J N (record e) :=
  C.modify (fun _ => rfl) (fun _ => rfl) (fun _ => rfl) fun _ => rfl

theorem print (C : Conserved I J N) (kind : PrintKind) (v : Word w) (text : String) :
    Ensures I J N (print kind v text) :=
  C.modify (fun _ => rfl) (fun _ => rfl) (fun _ => rfl) fun _ => rfl

theorem dumpStack (C : Conserved I J N) : Ensures I J N (dumpStack (w := w)) :=
  .get fun _ => .ite (C.modify (fun _ => rfl) (fun _ => rfl) (fun _ => rfl) fun _ => rfl) (.pure _)

theorem render (v : Word w) : Ensures I J N (render v) :=
  .get fun m => ensures_except (m.heap.overflows_renderLevels _ _ v)

theorem trace (C : Conserved I J N) (v : Word w) : Ensures I J N (trace v) :=
  .bind (render v) fun _ => C.print _ _ _

theorem failure (C : Conserved I J N) (v : Word w) : Ensures (α := α) I J N (failure v) :=
  .bind (render v) fun _ => .bind (C.print _ _ _) fun _ => .throw nofun

/-! ### Blocks -/

/-- An allocation keeps what placing a plan that fits keeps. -/
theorem allocate (C : Conserved I J N) {x : Alloc w (Word w)}
    {plan : Heap w → Except (Trap w) (Plan w)} {words : Nat} (F : x.Follows plan words)
    (hplan : ∀ h p, plan h = .ok p → h.Fits p) (hsmall : ∀ h, Overflows N (plan h)) :
    Ensures I J N (allocate x) := by
  intro m hm
  cases hp : plan m.heap with
  | error t =>
    obtain ⟨k, hx, _⟩ := allocate_of_error F hp
    have htrapped := C.trapped (h := k) hm rfl
    rw [setRoots_roots] at htrapped
    rw [hx]
    exact ⟨.inr ⟨⟨t, rfl⟩, htrapped⟩, fun z hz => hsmall m.heap z (by cases hz; exact hp)⟩
  | ok p =>
    rw [allocate_of_ok F hp]
    exact ⟨C.placed hm (hplan _ p hp), trivial⟩

theorem construct (C : Conserved I J N) (c : Constructor) (fields : List (Word w)) :
    Ensures I J N (construct c fields) :=
  C.allocate (Alloc.follows_construct c fields) (fun _ _ => Heap.fits_construct) fun h =>
    h.overflows_construct c fields

theorem makePair (C : Conserved I J N) (fst snd : Word w) : Ensures I J N (makePair fst snd) :=
  C.allocate (Alloc.follows_makePair fst snd) (fun _ _ => Heap.fits_makePair) fun h =>
    h.overflows_makePair fst snd

theorem makeClosure (C : Conserved I J N) (f : Function) (captured : List (Word w)) :
    Ensures I J N (makeClosure f captured) :=
  C.allocate (Alloc.follows_makeClosure f captured) (fun _ _ => Heap.fits_makeClosure) fun h =>
    h.overflows_makeClosure f captured

theorem closureView (v : Word w) : Ensures I J N (closureView v) := by
  refine .get fun m => .bind (ensures_except (m.heap.overflows_closure? v)) fun c => ?_
  cases c with
  | some c => exact .pure c
  | none => exact .throw nofun

theorem extendClosure (C : Conserved I J N) (v : Word w) (args : List (Word w)) :
    Ensures I J N (extendClosure v args) :=
  .bind (closureView v) fun c =>
    C.allocate (Alloc.follows_extend c args) (fun _ _ => Heap.fits_extend) fun h =>
      h.overflows_extend c args

theorem equalValues (a b : Word w) : Ensures I J N (equalValues a b) := by
  refine .get fun m => .bind (ensures_except (m.heap.overflows_equal a b)) fun r => ?_
  cases r with
  | some r => exact .pure r
  | none => exact .throw nofun

theorem wrecked (C : Conserved I J N) (hm : I m) : J m.wrecked :=
  C.trapped hm (m.heap.length_wreck m.roots)

/-- A checkpoint keeps what granting and collecting keep. -/
theorem checkpoint (C : Conserved I J N) (words : Nat) :
    Ensures I J N (checkpoint (w := w) words) := by
  intro m hm
  rw [checkpoint_eq]
  cases hc : m.heap.reserve words m.roots with
  | error t =>
    refine ⟨?_, fun z hz => m.heap.overflows_reserve _ _ z (by cases hz; exact hc)⟩
    split
    · exact .inl hm
    · exact .inr ⟨⟨t, rfl⟩, C.wrecked hm⟩
  | ok c => exact ⟨C.aside (C.reserved hm hc) rfl rfl rfl rfl, trivial⟩

theorem collect (C : Conserved I J N) : Ensures I J N (collect (w := w)) := by
  intro m hm
  rw [collect_eq]
  cases hc : m.heap.collect m.roots with
  | error t =>
    exact ⟨.inr ⟨⟨t, rfl⟩, C.wrecked hm⟩,
      fun z hz => m.heap.overflows_collectFor 0 _ z (by cases hz; exact hc)⟩
  | ok c => exact ⟨C.aside (C.collected hm hc) rfl rfl rfl rfl, trivial⟩

theorem prealloc (C : Conserved I J N) (words : Nat) : Ensures I J N (prealloc (w := w) words) := by
  refine .bind (C.checkpoint words) fun shortage => ?_
  cases shortage with
  | none => exact .pure ()
  | some _ => exact .throw nofun

/-! ### Frames -/

/-- After the check, as many words as it was made for can be pushed. -/
theorem checkStack (hm : I m) (words : Nat) :
    Outcome.Meets I J N (fun _ n => m = n ∧ m.slots.length + words ≤ m.maxStackWords)
      (checkStack words m) := by
  by_cases hroom : m.slots.length + words ≤ m.maxStackWords
  · rw [checkStack_of_le hroom]
    exact ⟨hm, rfl, hroom⟩
  · rw [checkStack_of_lt (Nat.not_le.mp hroom)]
    exact ⟨.inl hm, nofun⟩

theorem truncate (C : Conserved I J N) (d : Nat) : Ensures I J N (truncate (w := w) d) :=
  .get fun _ => .ite (.bind (.throw nofun) fun _ => .modify fun _ => C.dropped d)
    (.modify fun _ => C.dropped d)

theorem slot (i : Nat) : Ensures I J N (slot (w := w) i) := by
  refine .get fun m => .bind (ensures_except (Size.overflows_add _ _)) fun j => ?_
  cases m.stack.slots[j]? with
  | some v => exact .pure v
  | none => exact .throw nofun

theorem setSlot (C : Conserved I J N) (i : Nat) (v : Word w) : Ensures I J N (setSlot i v) :=
  .get fun _ => .bind (ensures_except (Size.overflows_add _ _)) fun j =>
    .ite (.bind (.throw nofun) fun _ => .modify fun _ => C.replaced j v)
      (.modify fun _ => C.replaced j v)

theorem pushLocal (C : Conserved I J N) (v : Word w) : Ensures I J N (pushLocal v) := by
  intro m hm
  refine (checkStack hm 1).bind ?_
  rintro _ _ _ ⟨rfl, hroom⟩
  exact ⟨C.pushed hm (show m.slots.length + [v].length ≤ m.maxStackWords from hroom), trivial⟩

/-- A frame is opened with room for its arguments. -/
theorem pushFrame (C : Conserved I J N) (hm : I m) (hk : Overflows N (Word.codeAddress (w := w) k.id))
    (arity : Nat) :
    Outcome.Meets I J N (fun _ n => n.slots.length + arity ≤ n.maxStackWords) (pushFrame k arity m) := by
  refine (checkStack hm _).bind ?_
  rintro _ _ _ ⟨rfl, hroom⟩
  refine meets_lift hm hk fun a _ => meets_lift hm (C.link hm) fun b _ => ?_
  have hpushed : I { m with stack := m.stack.pushList [a, b] } :=
    C.pushed hm (le_trans (by simp [frameHeaderWords]) hroom)
  refine ⟨C.entered hpushed, ?_⟩
  change ((m.stack.pushList [a, b]).slots.toList).length + arity ≤ m.maxStackWords
  rw [Stack.slots_pushList, List.length_append, Nat.add_assoc]
  exact hroom

/-- The number of a label that was read from a word fits a small integer. -/
theorem overflows_address {id : UInt32} (h : v.toCodeAddress = .ok id) :
    Overflows N (Word.codeAddress (w := w) id) := by
  obtain ⟨u, hu⟩ := Word.codeAddress_of_toCodeAddress h
  rw [hu]
  exact .ok u

theorem overflows_small {id : UInt32} (h : (id.toNat : Int) ≤ w.maxInt) :
    Overflows N (Word.codeAddress (w := w) id) := by
  obtain ⟨u, hu⟩ := Word.size_of_le h
  rw [Word.codeAddress, hu]
  exact .ok u

/-- A frame is left for a label that can be called again. -/
theorem leaveFrame (C : Conserved I J N) (hm : I m) :
    Outcome.Meets I J N (fun k _ => Overflows N (Word.codeAddress (w := w) k.id)) (leaveFrame m) := by
  refine meets_lift hm (Size.overflows_sub _ _) fun base _ =>
    meets_lift hm (m.stack.overflows_get _) fun continuation _ =>
      meets_lift hm continuation.overflows_toCodeAddress fun id hid =>
        meets_lift hm (m.stack.overflows_get _) fun saved _ =>
          meets_lift hm saved.overflows_toSmallInt fun link hlink => ?_
  exact (C.truncate base m hm).bind fun _ n hn _ =>
    ⟨C.linked hn (Word.size_ofInt hlink), overflows_address hid⟩

theorem call (C : Conserved I J N) (callee : Label) (args : List (Word w))
    (hk : Overflows N (Word.codeAddress (w := w) k.id)) : Ensures I J N (call callee args k) :=
  fun _ hm => (C.pushFrame hm hk _).bind fun _ _ hn hroom => ⟨C.pushed hn hroom, trivial⟩

/-- The words that take the place of a frame are as many as the check was made for. -/
theorem replaceFrame (C : Conserved I J N) {x : Op w (List (Word w))} {arity : Nat}
    (hx : ∀ n, I n → Outcome.Meets I J N (fun vs n' => n = n' ∧ vs.length ≤ arity) (x n)) :
    Ensures I J N (replaceFrame x arity) := by
  intro m hm
  refine (C.truncate m.fp m hm).bind fun _ n hn _ => (checkStack hn arity).bind ?_
  rintro _ _ _ ⟨rfl, hroom⟩
  refine (hx n hn).bind ?_
  rintro vs _ _ ⟨rfl, hle⟩
  exact ⟨C.pushed hn (by omega), trivial⟩

theorem tailCall (C : Conserved I J N) (callee : Label) (args : List (Word w)) :
    Ensures I J N (tailCall callee args) :=
  .bind (C.replaceFrame fun _ hn => ⟨hn, rfl, Nat.le_refl _⟩) fun _ => .pure _

theorem ret (C : Conserved I J N) (v : Word w) : Ensures I J N (ret v) :=
  .bind (C.modify (fun _ => rfl) (fun _ => rfl) (fun _ => rfl) fun _ => rfl) fun _ _ hm =>
    (C.leaveFrame hm).mono fun _ _ _ => trivial

theorem branch (v : Word w) (a b : Label) : Ensures I J N (branch v a b) :=
  .ite (.pure _) (.ite (.pure _) (.throw nofun))

theorem select (C : Conserved I J N) {γ : Type} (c : Case γ) (v : Word w) : Ensures I J N (select c v) := by
  refine .get fun m => .bind ?_ fun _ => .bind (C.record _) fun _ => .pure _
  cases hr : c.select m.heap v with
  | ok b => exact .pure b
  | error e =>
    refine .throw fun z hz => c.select_ne m.heap v z ?_
    rw [hr, hz]

/-- What is kept is kept too while values ride across a checkpoint. -/
theorem preallocSaving (C : Conserved I J N) (words : Nat) (vs : List (Word w)) :
    Ensures I J N (preallocSaving words vs) := by
  intro m hm
  refine (checkStack hm _).bind ?_
  rintro _ _ _ ⟨rfl, hroom⟩
  have hrest : Ensures I J N (do
      let shortage ← Machine.checkpoint words
      let m' ← get
      let temps := m'.stack.above m.stack.depth
      Machine.truncate m.stack.depth
      return (temps, shortage) : Op w (List (Word w) × Option Shortage)) :=
    .bind (C.checkpoint words) fun _ => .get fun _ => .bind (C.truncate _) fun _ => .pure _
  exact hrest _ (C.pushed hm hroom)

/-! ### Application -/

theorem allArgs (hm : I m) (hle : c.captured + args.length ≤ c.arity) :
    Outcome.Meets I J N (fun vs n => m = n ∧ vs.length ≤ c.arity) (allArgs c args m) := by
  refine meets_lift hm (m.heap.overflows_capturedArgs c) fun held hheld => ⟨hm, rfl, ?_⟩
  obtain ⟨_, rfl⟩ := Space.slice_eq_ok hheld
  rw [List.length_append, Space.length_segment]
  exact hle

theorem enter (C : Conserved I J N) (hle : c.captured + args.length ≤ c.arity)
    (hk : Overflows N (Word.codeAddress (w := w) k.id)) : Ensures I J N (enter c args k) := by
  intro m hm
  refine (C.pushFrame hm hk _).bind fun _ n hn hroom => (allArgs hn hle).bind ?_
  rintro vs _ _ ⟨rfl, hlen⟩
  exact ⟨C.pushed hn (by omega), trivial⟩

theorem tailEnter (C : Conserved I J N) (hle : c.captured + args.length ≤ c.arity) :
    Ensures I J N (tailEnter c args) :=
  .bind (C.replaceFrame fun _ hn => allArgs hn hle) fun _ => .pure _

theorem callClosure (C : Conserved I J N) (cl : Word w) (args : List (Word w))
    (hk : Overflows N (Word.codeAddress (w := w) k.id)) : Ensures I J N (callClosure cl args k) := by
  refine .bind (closureView cl) fun c => ?_
  by_cases heq : c.captured + args.length = c.arity
  · rw [if_neg (not_not_intro heq)]
    exact C.enter heq.le hk
  · rw [if_pos heq]
    exact .throw nofun

theorem tailCallClosure (C : Conserved I J N) (cl : Word w) (args : List (Word w)) :
    Ensures I J N (tailCallClosure cl args) := by
  refine .bind (closureView cl) fun c => ?_
  by_cases heq : c.captured + args.length = c.arity
  · rw [if_neg (not_not_intro heq)]
    exact C.tailEnter heq.le
  · rw [if_pos heq]
    exact .throw nofun

/-- Extending a closure at a checkpoint of its own keeps what its parts keep. -/
theorem extendSaving (C : Conserved I J N) (cl : Word w) (args : List (Word w)) :
    Ensures I J N (extendSaving cl args) := by
  refine .ite (.pure _) (.bind (closureView cl) fun c => ?_)
  intro m hm
  refine (checkStack hm (1 + args.length)).bind ?_
  rintro _ _ _ ⟨rfl, hroom⟩
  have hrest : Ensures I J N (do
      Machine.prealloc (Shape.closure (c.captured + args.length)).words
      let m' ← get
      let moved ← m'.stack.get m.stack.depth
      let extended ← Machine.extendClosure moved (m'.stack.above (m.stack.depth + 1))
      Machine.truncate m.stack.depth
      return extended : Op w (Word w)) :=
    .bind (C.prealloc _) fun _ => .get fun m' =>
      .bind (ensures_except (m'.stack.overflows_get _)) fun _ =>
        .bind (C.extendClosure _ _) fun _ => .bind (C.truncate _) fun _ => .pure _
  refine hrest _ (C.pushed hm ?_)
  rw [List.length_cons]
  omega

/-- A pending block is as large as the check was made for, and counts its arguments. -/
theorem overApply (C : Conserved I J N) (c : ClosureView w) (args : List (Word w))
    (hk : Overflows N (Word.codeAddress (w := w) k.id)) : Ensures I J N (overApply c args k) := by
  intro m hm
  refine meets_lift hm (Size.overflows_sub _ _) fun need hneed => (checkStack hm _).bind ?_
  rintro _ _ _ ⟨rfl, hroom⟩
  refine meets_lift hm hk fun a _ => ?_
  have hrest : I { m with stack := m.stack.pushList (a :: args.drop need) } := by
    refine C.pushed hm ?_
    rw [List.length_cons]
    omega
  have hsmall : (args.drop need).length ≤ m.maxStackWords := by omega
  refine meets_lift hrest (C.count hrest hsmall) fun count _ => ?_
  have hcount : I { m with stack := (m.stack.pushList (a :: args.drop need)).pushList [count] } := by
    refine C.pushed hrest ?_
    change (m.stack.pushList (a :: args.drop need)).slots.toList.length + 1 ≤ m.maxStackWords
    rw [Stack.slots_pushList, List.length_append, List.length_cons]
    exact le_trans (by simp only [Machine.slots]; omega) hroom
  refine C.enter ?_ (overflows_small (by cases w <;> decide)) _ hcount
  obtain ⟨hle, rfl⟩ := Size.sub_eq_ok hneed
  rw [List.length_take]
  omega

theorem apply (C : Conserved I J N) (cl : Word w) (args : List (Word w))
    (hk : Overflows N (Word.codeAddress (w := w) k.id)) : Ensures I J N (apply cl args k) := by
  refine .bind (closureView cl) fun c => ?_
  cases hcompare : compare (c.captured + args.length) c.arity with
  | eq => exact C.enter (compare_eq_iff_eq.mp hcompare).le hk
  | lt =>
    exact .bind (C.extendSaving _ _) fun _ =>
      .bind (C.modify (fun _ => rfl) (fun _ => rfl) (fun _ => rfl) fun _ => rfl) fun _ => .pure _
  | gt => exact C.overApply c args hk

theorem tailApply (C : Conserved I J N) (cl : Word w) (args : List (Word w)) :
    Ensures I J N (tailApply cl args) := by
  refine .bind (closureView cl) fun c => ?_
  cases hcompare : compare (c.captured + args.length) c.arity with
  | eq => exact C.tailEnter (compare_eq_iff_eq.mp hcompare).le
  | lt => exact .bind (C.extendSaving _ _) fun _ => C.ret _
  | gt => exact fun m hm => (C.leaveFrame hm).bind fun k n hn hk => C.overApply c args hk n hn

theorem applyPending (C : Conserved I J N) : Ensures I J N (applyPending (w := w)) := by
  intro m hm
  refine meets_lift hm (Size.overflows_sub _ _) fun top _ =>
    meets_lift hm (m.stack.overflows_get _) fun saved _ =>
      meets_lift hm saved.overflows_toSmallInt fun count _ =>
        meets_lift hm (Size.overflows_sub _ _) fun _ _ =>
          meets_lift hm (Size.overflows_sub _ _) fun base _ =>
            meets_lift hm (m.stack.overflows_get _) fun continuation _ =>
              meets_lift hm continuation.overflows_toCodeAddress fun id hid => ?_
  refine (C.truncate base m hm).bind fun _ n hn _ => C.apply _ _ (overflows_address hid) n hn

end Conserved

end Machine

/-! ### Bodies -/

def OverflowAll (N : Int → Prop) (rs : List (Except (Trap w) (Word w))) : Prop :=
  ∀ r ∈ rs, Overflows N r

section

variable {N : Int → Prop} {rs qs : List (Except (Trap w) (Word w))}

theorem OverflowAll.left (h : OverflowAll N (rs ++ qs)) : OverflowAll N rs :=
  fun r hr => h r (List.mem_append_left _ hr)

theorem OverflowAll.right (h : OverflowAll N (rs ++ qs)) : OverflowAll N qs :=
  fun r hr => h r (List.mem_append_right _ hr)

end

mutual

/-- The words that an expression makes of literals. -/
def Expr.makes : Expr w → List (Except (Trap w) (Word w))
  | .literal l => [l.word]
  | .register _ | .slot _ | .result | .nullary _ => []
  | .construct _ es | .closure _ es => Expr.makesList es
  | .extend e es => e.makes ++ Expr.makesList es
  | .pair a b | .equal a b | .arith _ a b => a.makes ++ b.makes
  | .field e _ | .fst e | .snd e => e.makes

def Expr.makesList : List (Expr w) → List (Except (Trap w) (Word w))
  | [] => []
  | e :: es => e.makes ++ Expr.makesList es

end

def Probe.makes : Probe w → List (Except (Trap w) (Word w))
  | eval e | render e | headerOf e | view e | block e | route _ e => e.makes
  | same a b => a.makes ++ b.makes
  | frameLength | stack | peek _ | allocWords _ | names _ | stats => []

def Transfer.makes : Transfer w → List (Except (Trap w) (Word w))
  | jump _ => []
  | ret e | branch e _ _ | select _ e | fail e => e.makes
  | call _ args k => Expr.makesList args ++ [Word.codeAddress k.id]
  | tailCall _ args => Expr.makesList args
  | callClosure cl args k | apply cl args k =>
    cl.makes ++ (Expr.makesList args ++ [Word.codeAddress k.id])
  | tailCallClosure cl args | tailApply cl args => cl.makes ++ Expr.makesList args

mutual

def Stmt.makes : Stmt w → List (Except (Trap w) (Word w))
  | .assign _ e | .push e | .setSlot _ e | .trace e => e.makes
  | .prealloc _ | .preallocSaving _ _ | .dumpStack => []
  | .cond e ifTrue ifFalse => e.makes ++ (Stmt.makesList ifTrue ++ Stmt.makesList ifFalse)
  | .rounds n body => (List.range n).map (fun k : Nat => Word.int (k : Int)) ++ Stmt.makesList body
  | .probe p => p.makes
  | .transfer t => t.makes

def Stmt.makesList : List (Stmt w) → List (Except (Trap w) (Word w))
  | [] => []
  | s :: ss => s.makes ++ Stmt.makesList ss

end

namespace Machine.Conserved

variable {α : Type} {I J : Machine w → Prop} {N : Int → Prop}

theorem op {x : Op w α} (h : Ensures I J N x) :
    Ensures (fun d : Desk w => I d.machine) (fun d => J d.machine) N (liftM x : Act w α) := by
  intro d hd
  have hx := h d.machine hd
  rw [Act.lift_apply]
  cases hr : x d.machine with
  | ok a m => rw [hr] at hx; exact hx
  | error e m => rw [hr] at hx; exact hx

theorem check {r : Except (Trap w) α} (hr : Overflows N r) :
    Ensures (fun d : Desk w => I d.machine) (fun d => J d.machine) N (Act.check r) := by
  cases r with
  | ok a => exact .pure a
  | error t => exact fun d hd => ⟨.inl hd, fun z hz => hr z (by cases hz; rfl)⟩

theorem register (name : String) :
    Ensures (fun d : Desk w => I d.machine) (fun d => J d.machine) N (Act.register name) :=
  .get fun d => check (d.registers.overflows_get name)

theorem registers (names : List String) :
    Ensures (fun d : Desk w => I d.machine) (fun d => J d.machine) N (Act.registers names) := by
  induction names with
  | nil => exact .pure []
  | cons name names ih => exact .bind (register name) fun _ => .bind ih fun _ => .pure _

/-- Rounds keep what one round keeps, if their counts do not overflow. -/
theorem rounds {x : Act w (Option Label)} (hx : Ensures (fun d : Desk w => I d.machine) (fun d => J d.machine) N x)
    (n k : Nat) (hsmall : ∀ i < k + n, k ≤ i → Overflows N (Word.int (w := w) i)) :
    Ensures (fun d : Desk w => I d.machine) (fun d => J d.machine) N (Act.rounds x k n) := by
  induction n generalizing k with
  | zero => exact .pure none
  | succ n ih =>
    refine .bind (check (hsmall k (by omega) (Nat.le_refl k))) fun _ =>
      .bind (.modify fun _ hd => hd) fun _ => .bind hx fun r => ?_
    cases r with
    | some label => exact .pure _
    | none => exact ih (k + 1) fun i hi hki => hsmall i (by omega) (by omega)

mutual

/-- Evaluating an expression keeps what operations keep. By recursion on the expression. -/
theorem eval (C : Conserved I J N) : ∀ e : Expr w, OverflowAll N e.makes →
    Ensures (fun d : Desk w => I d.machine) (fun d => J d.machine) N e.eval
  | .literal l, h => check (h _ (.head _))
  | .register name, _ => register name
  | .slot i, _ => op (slot i)
  | .result, _ => op (.get fun _ => .pure _)
  | .nullary c, _ => check c.overflows_unboxedValue
  | .construct c fields, h =>
    .bind (C.evalList fields h) fun _ =>
      op (C.construct c _)
  | .pair a b, h =>
    .bind (C.eval a h.left) fun _ => .bind (C.eval b h.right) fun _ =>
      op (C.makePair _ _)
  | .closure f captured, h =>
    .bind (C.evalList captured h) fun _ =>
      op (C.makeClosure f _)
  | .extend e args, h =>
    .bind (C.eval e h.left) fun _ => .bind (C.evalList args h.right) fun _ =>
      op (C.extendClosure _ _)
  | .field e i, h =>
    .bind (C.eval e h) fun _ => op (.get fun m => ensures_except (m.heap.overflows_field _ _))
  | .fst e, h =>
    .bind (C.eval e h) fun _ => op (.get fun m => ensures_except (m.heap.overflows_fst _))
  | .snd e, h =>
    .bind (C.eval e h) fun _ => op (.get fun m => ensures_except (m.heap.overflows_snd _))
  | .equal a b, h =>
    .bind (C.eval a h.left) fun _ => .bind (C.eval b h.right) fun _ =>
      .bind (op (equalValues _ _)) fun _ => .pure _
  | .arith o a b, h =>
    .bind (C.eval a h.left) fun v => .bind (C.eval b h.right) fun u => by
      cases hr : o.apply v u with
      | ok x => exact .pure x
      | error e =>
        refine .throw fun z hz => o.apply_ne v u z ?_
        rw [hr, hz]

theorem evalList (C : Conserved I J N) : ∀ es : List (Expr w), OverflowAll N (Expr.makesList es) →
    Ensures (fun d : Desk w => I d.machine) (fun d => J d.machine) N (Expr.evalList es)
  | [], _ => .pure []
  | e :: es, h => .bind (C.eval e h.left) fun _ => .bind (C.evalList es h.right) fun _ => .pure _

end

/-- So does asking a question. -/
theorem ask (C : Conserved I J N) (p : Probe w) (h : OverflowAll N p.makes) :
    Ensures (fun d : Desk w => I d.machine) (fun d => J d.machine) N p.ask := by
  cases p with
  | eval e => exact .bind (C.eval e h) fun _ => .pure _
  | render e => exact .bind (C.eval e h) fun _ => .bind (op (render _)) fun _ => .pure _
  | headerOf e =>
    exact .bind (C.eval e h) fun _ =>
      .bind (.get fun d => check (d.machine.heap.overflows_headerOf _)) fun _ => .pure _
  | view e => exact .bind (C.eval e h) fun _ => .bind (op (closureView _)) fun _ => .pure _
  | same a b =>
    exact .bind (C.eval a h.left) fun _ => .bind (C.eval b h.right) fun _ =>
      .bind (op (equalValues _ _)) fun _ => .pure _
  | block e =>
    exact .bind (C.eval e h) fun _ => .bind (check (Heap.overflows_expectRef _)) fun _ =>
      .bind (.get fun d => check (d.machine.heap.space.overflows_block _)) fun _ => .pure _
  | route c e =>
    refine .bind (C.eval e h) fun v => .get fun d => ?_
    cases hr : c.select d.machine.heap v with
    | ok b => exact .pure _
    | error e =>
      refine .throw fun z hz => c.select_ne d.machine.heap v z ?_
      rw [hr, hz]
  | frameLength => exact .get fun _ => .bind (check (Size.overflows_sub _ _)) fun _ => .pure _
  | stack => exact .get fun _ => .pure _
  | peek n =>
    exact .get fun _ => .bind (check (.bind (Size.overflows_add _ _) fun _ => .ok _)) fun _ => .pure _
  | allocWords c => exact .pure _
  | names uid => exact .get fun _ => .pure _
  | stats => exact .get fun _ => .pure _

/-- So does a transfer, which may also store the label of its continuation. -/
theorem transfer (C : Conserved I J N) (t : Transfer w) (h : OverflowAll N t.makes) :
    Ensures (fun d : Desk w => I d.machine) (fun d => J d.machine) N t.exec := by
  cases t with
  | jump label => exact .pure _
  | ret e => exact .bind (C.eval e h) fun _ => op (C.ret _)
  | call callee args k =>
    exact .bind (C.evalList args h.left) fun _ => op (C.call _ _ (h.right _ (.head _)))
  | tailCall callee args => exact .bind (C.evalList args h) fun _ => op (C.tailCall _ _)
  | branch e a b => exact .bind (C.eval e h) fun _ => op (branch _ _ _)
  | select c e => exact .bind (C.eval e h) fun _ => op (C.select _ _)
  | callClosure cl args k =>
    exact .bind (C.eval cl h.left) fun _ => .bind (C.evalList args h.right.left) fun _ =>
      op (C.callClosure _ _ (h.right.right _ (.head _)))
  | tailCallClosure cl args =>
    exact .bind (C.eval cl h.left) fun _ => .bind (C.evalList args h.right) fun _ =>
      op (C.tailCallClosure _ _)
  | apply cl args k =>
    exact .bind (C.eval cl h.left) fun _ => .bind (C.evalList args h.right.left) fun _ =>
      op (C.apply _ _ (h.right.right _ (.head _)))
  | tailApply cl args =>
    exact .bind (C.eval cl h.left) fun _ => .bind (C.evalList args h.right) fun _ =>
      op (C.tailApply _ _)
  | fail e => exact .bind (C.eval e h) fun _ => op (C.failure _)

theorem reserveSaving (C : Conserved I J N) (words : Nat) (names : List String) :
    Ensures (fun d : Desk w => I d.machine) (fun d => J d.machine) N (Stmt.reserveSaving words names) := by
  refine .bind (registers names) fun vs => .bind (op (C.preallocSaving words vs)) fun r =>
    .bind (.modify fun _ hd => hd) fun _ => ?_
  cases r.2 with
  | none => exact .pure _
  | some _ => exact .throw nofun

mutual

/-- So does a statement. By recursion on the statement. -/
theorem exec (C : Conserved I J N) : ∀ x : Stmt w, OverflowAll N x.makes →
    Ensures (fun d : Desk w => I d.machine) (fun d => J d.machine) N x.exec
  | .assign _ e, h => .bind (C.eval e h) fun _ => .bind (.modify fun _ hd => hd) fun _ => .pure _
  | .push e, h => .bind (C.eval e h) fun _ => .bind (op (C.pushLocal _)) fun _ => .pure _
  | .setSlot i e, h => .bind (C.eval e h) fun _ => .bind (op (C.setSlot i _)) fun _ => .pure _
  | .trace e, h => .bind (C.eval e h) fun _ => .bind (op (C.trace _)) fun _ => .pure _
  | .prealloc words, _ => .bind (op (C.prealloc words)) fun _ => .pure _
  | .preallocSaving words names, _ => .bind (C.reserveSaving words names) fun _ => .pure _
  | .dumpStack, _ => .bind (op C.dumpStack) fun _ => .pure _
  | .cond e ifTrue ifFalse, h =>
    .bind (C.eval e h.left) fun v => .bind (check v.overflows_isTrue) fun _ =>
      .ite (C.execList ifTrue h.right.left) (C.execList ifFalse h.right.right)
  | .rounds n body, h =>
    rounds (C.execList body h.right) n 0 fun i hi _ =>
      h.left _ (List.mem_map.mpr ⟨i, List.mem_range.mpr (by omega), rfl⟩)
  | .probe p, h =>
    .bind (C.ask p h) fun _ =>
      .bind (.modify fun _ hd => C.aside hd rfl rfl rfl rfl) fun _ => .pure _
  | .transfer t, h => .bind (C.transfer t h) fun _ => .pure _

theorem execList (C : Conserved I J N) : ∀ xs : List (Stmt w), OverflowAll N (Stmt.makesList xs) →
    Ensures (fun d : Desk w => I d.machine) (fun d => J d.machine) N (Stmt.execList xs)
  | [], _ => .pure _
  | x :: xs, h => by
    refine .bind (C.exec x h.left) fun r => ?_
    cases r with
    | some label => exact .pure _
    | none => exact C.execList xs h.right

end

/-- The code of a body keeps what operations on a machine keep. -/
theorem code (C : Conserved I J N) (body : Body w) (h : OverflowAll N (Stmt.makesList body)) :
    Ensures I J N body.code := by
  intro m hm
  have hexec := C.execList body h ⟨m, {}⟩ hm
  unfold Body.code
  cases hr : Stmt.execList body ⟨m, {}⟩ with
  | ok a d =>
    rw [hr] at hexec
    cases a with
    | some label => exact hexec
    | none => exact ⟨.inl hexec.1, nofun⟩
  | error e d =>
    rw [hr] at hexec
    exact hexec

/-! ### Runs -/

variable {p : Program (Code w)}

/-- A step keeps what the code of its label keeps. -/
theorem step (C : Conserved I J N)
    (hp : ∀ label name maxAlloc code, p.slot? label = some ⟨name, maxAlloc, some code⟩ →
      Ensures I J N code) (label : Label) : Ensures I J N (step p label) := by
  unfold Machine.step
  refine .ite C.applyPending ?_
  match hs : p.slot? label with
  | none => exact .throw nofun
  | some ⟨_, _, none⟩ => exact .throw nofun
  | some ⟨name, maxAlloc, some code⟩ =>
    have hcode := hp label name maxAlloc code hs
    exact .bind (C.record _) fun _ => .ite (.bind (C.prealloc _) fun _ => hcode) hcode

theorem recordNamed (C : Conserved I J N) (label : Label) (event : String → Event w) :
    Ensures I J N (recordNamed p label event) := by
  refine .get fun m => .ite ?_ (.pure _)
  cases p.labelName? label with
  | none => exact .throw nofun
  | some name => exact C.record _

/-- The loop of a run keeps what one step keeps. By induction on the fuel. -/
theorem loop (C : Conserved I J N)
    (hp : ∀ label name maxAlloc code, p.slot? label = some ⟨name, maxAlloc, some code⟩ →
      Ensures I J N code) (fuel : Nat) (label : Label) : Ensures I J N (loop p fuel label) := by
  induction fuel generalizing label with
  | zero => exact .ite (.pure _) (.throw nofun)
  | succ fuel ih =>
    intro m hm
    unfold Machine.loop
    split
    · exact ⟨hm, trivial⟩
    split
    · exact ⟨.inl hm, nofun⟩
    · have hstep := C.step hp label m.ticked (C.aside hm rfl rfl rfl rfl)
      cases hr : Machine.step p label m.ticked with
      | ok next m' =>
        rw [hr] at hstep
        exact ih next m' hstep.1
      | error e m' =>
        rw [hr] at hstep
        cases e with
        | trap t => exact hstep
        | unfinished => exact hstep
        | error e =>
          have hreport : Ensures I J N (reportFailure p e label >>= fun _ => fail (α := Unit) e) :=
            .bind (.bind (C.recordNamed _ _) fun _ => C.dumpStack) fun _ => .throw nofun
          exact hreport m' (hstep.1.resolve_right fun ⟨⟨_, ht⟩, _⟩ => nomatch ht)

theorem run (C : Conserved I J N)
    (hp : ∀ label name maxAlloc code, p.slot? label = some ⟨name, maxAlloc, some code⟩ →
      Ensures I J N code) (fuel : Nat) : Ensures I J N (run p fuel) := by
  have hstart : Ensures I J N (start p) :=
    .bind (.modify fun _ => C.reset p.names) fun _ => .bind (C.recordNamed _ _) fun _ =>
      C.call _ _ (overflows_small (by cases w <;> decide))
  refine .bind hstart fun entry => .bind (C.loop hp fuel entry) fun _ => .get fun m =>
    .ite (.bind (.throw nofun) fun _ => ?_) ?_
  all_goals
    exact .bind (C.record _) fun _ => .bind (render _) fun _ => .bind (C.print _ _ _) fun _ => .pure _

end Machine.Conserved

/-- The words that the code of a program makes of literals, labels and counts. -/
def Program.makes (p : Program (Body w)) : List (Except (Trap w) (Word w)) :=
  p.slots.toList.flatMap fun s => (s.code.map Stmt.makesList).getD []

namespace Machine

variable {I J : Machine w → Prop} {N : Int → Prop}

/-- A run keeps what operations keep, whatever its program. -/
theorem Conserved.run_bodies (C : Conserved I J N) (p : Program (Body w)) (hp : OverflowAll N p.makes)
    (fuel : Nat) : Ensures I J N (Machine.run (p.map Body.code) fuel) := by
  refine C.run (fun label name maxAlloc code hs => ?_) fuel
  rw [Program.slot?_map] at hs
  match hslot : p.slot? label with
  | none => rw [hslot] at hs; cases hs
  | some ⟨_, _, none⟩ => rw [hslot] at hs; cases hs
  | some ⟨name', maxAlloc', some body⟩ =>
    rw [hslot] at hs
    cases hs
    have hmem : ⟨name', maxAlloc', some body⟩ ∈ p.slots.toList :=
      Array.mem_toList_iff.mpr (Array.mem_of_getElem? hslot)
    exact C.code body fun r hr => hp r (List.mem_flatMap.mpr ⟨_, hmem, hr⟩)

/-! ### Single operations -/

def Action.labels : Action w → List Label
  | call _ _ k | callClosure _ _ k | apply _ _ k => [k]
  | _ => []

/-- An action keeps what is conserved, and only the numbers of its labels can
overflow. -/
theorem Conserved.perform (C : Conserved I J N) (a : Action w)
    (hk : ∀ k ∈ a.labels, Overflows N (Word.codeAddress (w := w) k.id)) :
    Ensures I J N a.perform := by
  cases a with
  | prealloc words => exact .bind (C.prealloc words) fun _ => .pure _
  | preallocSaving words temps => exact .bind (C.preallocSaving words temps) fun _ => .pure _
  | collect => exact .bind C.collect fun _ => .pure _
  | construct c fields => exact .bind (C.construct c fields) fun _ => .pure _
  | makePair v u => exact .bind (C.makePair v u) fun _ => .pure _
  | makeClosure f captured => exact .bind (C.makeClosure f captured) fun _ => .pure _
  | extendClosure cl args => exact .bind (C.extendClosure cl args) fun _ => .pure _
  | field v i =>
    exact .bind (.get fun m => ensures_except (m.heap.overflows_field v i)) fun _ => .pure _
  | fst v => exact .bind (.get fun m => ensures_except (m.heap.overflows_fst v)) fun _ => .pure _
  | snd v => exact .bind (.get fun m => ensures_except (m.heap.overflows_snd v)) fun _ => .pure _
  | slot i => exact .bind (Conserved.slot i) fun _ => .pure _
  | lastResult => exact .bind (.get fun _ => .pure _) fun _ => .pure _
  | pushLocal v => exact .bind (C.pushLocal v) fun _ => .pure _
  | setSlot i v => exact .bind (C.setSlot i v) fun _ => .pure _
  | call callee args k => exact .bind (C.call callee args (hk k (.head _))) fun _ => .pure _
  | tailCall callee args => exact .bind (C.tailCall callee args) fun _ => .pure _
  | ret v => exact .bind (C.ret v) fun _ => .pure _
  | callClosure cl args k => exact .bind (C.callClosure cl args (hk k (.head _))) fun _ => .pure _
  | tailCallClosure cl args => exact .bind (C.tailCallClosure cl args) fun _ => .pure _
  | apply cl args k => exact .bind (C.apply cl args (hk k (.head _))) fun _ => .pure _
  | tailApply cl args => exact .bind (C.tailApply cl args) fun _ => .pure _
  | applyPending => exact .bind C.applyPending fun _ => .pure _
  | reset names => exact .bind (.modify fun _ => C.reset names) fun _ => .pure _

/-! ### Machines that have been used -/

variable {s : MachineSettings}

/-- No operation puts the sizes of the heap out of order, or changes the settings. -/
theorem conserved_made :
    Conserved (Made s : Machine w → Prop) (fun _ => True) fun _ => True where
  aside M hheap _ _ hmax :=
    ⟨by rw [hheap]; exact M.heap, by rw [hheap]; exact M.settings, by rw [hmax]; exact M.stack⟩
  dropped _ M := ⟨M.heap, M.settings, M.stack⟩
  replaced _ _ M := ⟨M.heap, M.settings, M.stack⟩
  pushed M _ := ⟨M.heap, M.settings, M.stack⟩
  entered M := ⟨M.heap, M.settings, M.stack⟩
  linked M _ := ⟨M.heap, M.settings, M.stack⟩
  placed M hp := ⟨M.heap.place hp, M.settings, M.stack⟩
  reserved {m _ c} M hc := by
    obtain ⟨B, hset⟩ := M.heap.reserve hc
    exact ⟨B, hset.trans M.settings, (maxStackWords_setRoots m _).trans M.stack⟩
  collected {m _} M hc := by
    obtain ⟨B, hset⟩ := M.heap.collectFor hc
    exact ⟨B, hset.trans M.settings, (maxStackWords_setRoots m _).trans M.stack⟩
  trapped _ _ := trivial
  reset _ M := ⟨M.heap, M.settings, M.stack⟩
  link _ _ _ := trivial
  count _ _ _ _ := trivial

/-- A machine that was only used for runs that ended has its sizes in order. -/
theorem History.made {m : Machine w} (H : History s m) : Made s m := by
  obtain ⟨held, H⟩ := H
  induction H with
  | fresh hc => exact (create_eq_ok hc).2
  | put _ _ hu hr hend ih =>
    obtain ⟨p, fuel, rfl⟩ := hu
    subst hr
    have hrun : Ensures (Made s) (fun _ => True) (fun _ => True)
        (Use.run (p.map Body.code) fuel).perform :=
      .bind (conserved_made.run_bodies p (fun _ _ _ _ => trivial) fuel) fun _ => .pure _
    exact hrun.kept ih hend

/-- Depths of the stack fit a small integer. -/
theorem History.linkable {m : Machine w} (H : History s m) : (m.maxStackWords : Int) ≤ w.maxInt := by
  rw [H.made.stack]
  obtain ⟨held, H⟩ := H
  exact (validate_machine H.valid).2

end Machine

end Trampoline
