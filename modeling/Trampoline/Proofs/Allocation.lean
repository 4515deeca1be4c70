import Trampoline.Proofs.Currying
import Trampoline.Proofs.Levels

/-!
New values.

Whatever is made is placed above the blocks that are there, and those are never written to again
until they are collected. So a new value is a node over the trees of the values it was made from, and
every value that was there keeps its tree, what is printed of it, and which values it is equal to,
through any number of allocations.
-/

namespace Trampoline

variable {w : Width}

/-! ### Growing heaps -/

namespace Heap

variable {h k l : Heap w} {D : Set Ref} {v u x : Word w} {p : Plan w}

/-- The words below the heap pointer are the same in the second heap, which may have more. -/
structure Grows (h k : Heap w) : Prop where
  bounded : k.Bounded
  hp_le : h.hp ≤ k.hp
  below : ∀ i < h.hp, k.space.cell i = h.space.cell i

namespace Grows

theorem refl (B : h.Bounded) : h.Grows h := ⟨B, Nat.le_refl _, fun _ _ => rfl⟩

theorem trans (G : h.Grows k) (G' : k.Grows l) : h.Grows l where
  bounded := G'.bounded
  hp_le := G.hp_le.trans G'.hp_le
  below i hi := (G'.below i (hi.trans_le G.hp_le)).trans (G.below i hi)

theorem keeps (G : h.Grows k) (L : h.space.Layout h.hp D) {r : Ref} (hr : r ∈ D) :
    h.space.Keeps k.space r := by
  have hwithin := L.within r hr
  exact fun i hi => G.below _ (by omega)

/-- Blocks stay apart in a heap that has grown above them. -/
theorem layout (G : h.Grows k) (L : h.space.Layout h.hp D) : k.space.Layout k.hp D := by
  have hext : ∀ r ∈ D, k.space.extent r = h.space.extent r := fun r hr => by
    rw [Space.extent, (G.keeps L hr).shapeAt, Space.extent]
  have hhp := G.hp_le
  refine ⟨fun r hr => ?_, fun r hr hp => ?_, fun a ha b hb hne => ?_, fun r hr v hv => ?_⟩
  · have hwithin := L.within r hr
    rw [hext r hr]
    omega
  · have hcell := G.keeps L hr 0 (h.space.extent_pos r)
    rw [Nat.add_zero] at hcell
    rw [hcell]
    exact L.headed r hr hp
  · rw [Space.Apart, hext a ha, hext b hb]
    exact L.apart a ha b hb hne
  · rw [(G.keeps L hr).traced] at hv
    exact L.closed r hr v hv

/-- Every block is its own image. -/
theorem mirrors (G : h.Grows k) (B : h.Bounded) (L : h.space.Layout h.hp D) :
    Mirrors (fun a b => a ∈ D ∧ b = a) h k where
  left := B
  right := G.bounded
  layout := by simpa using L
  layout' := by simpa using G.layout L
  matched := by
    refine (Space.Matched.refl L).of_keeps ?_
    rintro a b ⟨ha, rfl⟩
    exact G.keeps L ha

end Grows

/-- A plan that fits is placed above the heap pointer. -/
theorem Fits.grows (hp : h.Fits p) (B : h.Bounded) : h.Grows (h.place p.contents) where
  bounded := B.place hp
  hp_le := Nat.le_add_right _ _
  below _ hi := Space.cell_write_of_lt _ _ hi

/-- What was to be seen of the blocks is still to be seen. -/
structure Persists (h k : Heap w) (D : Set Ref) : Prop where
  blocks : ∀ r ∈ D, k.space.nodeAt r = h.space.nodeAt r ∧ k.space.traced r = h.space.traced r
  unfolds : ∀ v, v.Into D → ∀ t, k.space.Unfolds v t ↔ h.space.Unfolds v t
  render : ∀ v, v.Into D → ∀ names, k.render names v = h.render names v
  equal : ∀ v u, v.Into D → u.Into D → k.equal v u = h.equal v u

theorem Grows.persists (G : h.Grows k) (B : h.Bounded) (L : h.space.Layout h.hp D) :
    h.Persists k D := by
  have R := G.mirrors B L
  refine ⟨fun r hr => ?_, fun v hv t => ?_, fun v hv names => ?_, fun v u hv hu => ?_⟩
  · exact ⟨(R.matched.nodeAt ⟨hr, rfl⟩).symm, (G.keeps L hr).traced⟩
  · exact R.matched.unfolds_iff hv.unmoved
  · exact R.renderLevels names _ hv.unmoved
  · exact R.equal_eq hv.unmoved hu.unmoved

end Heap

/-! ### What is made -/

/-- What an operation makes: an immediate value, or a node over words. -/
inductive Product (w : Width) where
  | value (v : Word w)
  | node (n : Node w) (words : List (Word w))

def Product.size : Product w → Nat
  | value _ => 0
  | node .pair _ => Shape.pair.words
  | node (.constructor _ _) words => (Shape.constructor words.length).words
  | node (.closure _ _ _) words => (Shape.closure words.length).words

def Space.Shows (s : Space w) (v : Word w) : Product w → Prop
  | .value u => v = u ∧ u.ref? = none
  | .node n words => ∃ r, v.ref? = some r ∧ s.nodeAt r = n ∧ s.traced r = words

inductive Allocation (w : Width) where
  | construct (c : Constructor) (fields : List (Word w))
  | makePair (fst snd : Word w)
  | makeClosure (f : Function) (captured : List (Word w))
  | extendClosure (source : Word w) (args : List (Word w))

namespace Allocation

def perform : Allocation w → Op w (Word w)
  | construct c fields => Machine.construct c fields
  | makePair fst snd => Machine.makePair fst snd
  | makeClosure f captured => Machine.makeClosure f captured
  | extendClosure source args => Machine.extendClosure source args

def inputs : Allocation w → List (Word w)
  | construct _ fields => fields
  | makePair fst snd => [fst, snd]
  | makeClosure _ captured => captured
  | extendClosure source args => source :: args

/-- What is made. A closure that is extended holds the new arguments after those of its source. -/
def product (h : Heap w) : Allocation w → Product w
  | construct c fields =>
    match c.representation with
    | .unboxed => .value (Header.pack .constructor c.uid 0).word
    | .boxed => .node (.constructor c.uid c.fields) fields
  | makePair fst snd => .node .pair [fst, snd]
  | makeClosure f captured =>
    .node (.closure f.uid (.ofNat f.label.index) (.ofNat f.arity)) captured
  | extendClosure source args =>
    match source.ref? with
    | none => .value source
    | some r => .node (h.space.nodeAt r) (h.space.traced r ++ args)

inductive Makes (s : Space w) : Allocation w → Tree w → Prop where
  | unboxed {c : Constructor} {fields : List (Word w)} : c.representation = .unboxed →
      Makes s (construct c fields) (.immediate (Header.pack .constructor c.uid 0).word)
  | boxed {c : Constructor} {fields : List (Word w)} {ts : List (Tree w)} :
      c.representation = .boxed → List.Forall₂ s.Unfolds fields ts →
      Makes s (construct c fields) (.node (.constructor c.uid c.fields) ts)
  | pair {fst snd : Word w} {t u : Tree w} : s.Unfolds fst t → s.Unfolds snd u →
      Makes s (makePair fst snd) (.node .pair [t, u])
  | closure {f : Function} {captured : List (Word w)} {ts : List (Tree w)} :
      List.Forall₂ s.Unfolds captured ts →
      Makes s (makeClosure f captured)
        (.node (.closure f.uid (.ofNat f.label.index) (.ofNat f.arity)) ts)
  | extended {source : Word w} {args : List (Word w)} {uid : Nat} {entry arity : Word w}
      {ts us : List (Tree w)} : s.Unfolds source (.node (.closure uid entry arity) ts) →
      List.Forall₂ s.Unfolds args us →
      Makes s (extendClosure source args) (.node (.closure uid entry arity) (ts ++ us))

/-- The constructor or function is one that can be declared, and the source is a closure. -/
def Sound (h : Heap w) : Allocation w → Prop
  | construct c _ =>
    c.uid ≤ w.maxUid ∧ c.fields ≤ w.maxFields ∧ (c.representation = .unboxed → c.fields = 0)
  | makePair _ _ => True
  | makeClosure f _ => f.uid ≤ w.maxUid ∧ f.arity ≤ w.maxFields
  | extendClosure source _ => ∃ c, h.closure? source = .ok (some c)

/-- There are as many values as the object has room for: a constructor takes its fields, a closure
no more than the arguments of its function, and an extended one as many as a header can count. -/
def Apt (h : Heap w) : Allocation w → Prop
  | construct c fields => fields.length = c.fields
  | makePair _ _ => True
  | makeClosure f captured => captured.length ≤ f.arity
  | extendClosure source args =>
    ∀ c, h.closure? source = .ok (some c) → c.captured + args.length ≤ w.maxFields

/-- The heap as it is left by an operation that is not apt. An extension takes the words of the new
closure and copies the source to them before it counts. -/
def abandoned (h : Heap w) (a : Allocation w) : Heap w :=
  match a with
  | extendClosure source _ =>
    match source.ref? with
    | none => h
    | some r =>
      { h.taken (a.product h).size with
        space := h.space.write h.hp (h.space.segment r.offset (h.space.extent r)) }
  | _ => h

def Planned (h : Heap w) (p : Plan w) : Allocation w → Prop
  | construct c fields => h.planConstruct c fields = .ok p
  | makePair fst snd => h.planPair fst snd = .ok p
  | makeClosure f captured => h.planClosure f captured = .ok p
  | extendClosure source args => ∃ c, h.closure? source = .ok (some c) ∧ h.planExtend c args = .ok p

end Allocation

/-! ### Carrying out plans -/

/-- More values than a header can count are noticed when the source has been copied. -/
theorem Alloc.extend_of_uncounted {h : Heap w} {c : ClosureView w} {args copied : List (Word w)}
    (hplan : h.planCopy (Shape.closure (c.captured + args.length)).words c.object
      (Shape.closure c.captured).words = .ok (h.hp, copied))
    (hlong : w.maxFields < c.captured + args.length) :
    Alloc.extend c args h = .error .fieldCount
      { h.taken (Shape.closure (c.captured + args.length)).words with
        space := h.space.write h.hp copied } := by
  have hheader : Header.checked (w := w) .closure c.header.uid (c.captured + args.length) =
      .error .fieldCount := by
    rw [Header.checked, if_neg (Nat.not_lt.mpr c.header.uid_le), if_pos hlong]
  obtain ⟨t, k, herr, _⟩ | ⟨copied', hplan', hcopy⟩ := Alloc.bumpCopy_cases h
    (Shape.closure (c.captured + args.length)).words c.object (Shape.closure c.captured).words
  · cases hplan.symm.trans herr
  · cases hplan.symm.trans hplan'
    rw [Alloc.extend, bind_of_ok hcopy, hheader]
    rfl

namespace Machine

variable {m : Machine w}

theorem extendClosure_of_some {c : ClosureView w} {source : Word w} {args : List (Word w)}
    (hc : m.heap.closure? source = .ok (some c)) :
    extendClosure source args m = allocate (.extend c args) m :=
  bind_of_ok (closureView_of_some hc)

end Machine

namespace Allocation

variable {m n : Machine w} {h : Heap w} {D : Set Ref} {a : Allocation w} {p : Plan w} {v : Word w}

theorem perform_of_planned (hp : a.Planned m.heap p) :
    a.perform m = .ok p.value { m with heap := m.heap.place p.contents } := by
  cases a with
  | construct c fields => exact Machine.allocate_of_ok (Alloc.follows_construct c fields) hp
  | makePair fst snd => exact Machine.allocate_of_ok (Alloc.follows_makePair fst snd) hp
  | makeClosure f captured => exact Machine.allocate_of_ok (Alloc.follows_makeClosure f captured) hp
  | extendClosure source args =>
    obtain ⟨c, hc, hp⟩ := hp
    exact (Machine.extendClosure_of_some hc).trans
      (Machine.allocate_of_ok (Alloc.follows_extend c args) hp)

/-- An operation that returns has carried out a plan. -/
theorem perform_eq_ok (hv : a.perform m = .ok v n) :
    ∃ p, a.Planned m.heap p ∧ n = { m with heap := m.heap.place p.contents } := by
  cases a with
  | construct c fields =>
    obtain ⟨p, hp, _, hn⟩ := Machine.allocate_eq_ok (Alloc.follows_construct c fields) hv
    exact ⟨p, hp, hn⟩
  | makePair fst snd =>
    obtain ⟨p, hp, _, hn⟩ := Machine.allocate_eq_ok (Alloc.follows_makePair fst snd) hv
    exact ⟨p, hp, hn⟩
  | makeClosure f captured =>
    obtain ⟨p, hp, _, hn⟩ := Machine.allocate_eq_ok (Alloc.follows_makeClosure f captured) hv
    exact ⟨p, hp, hn⟩
  | extendClosure source args =>
    obtain ⟨c, o, hc, hbuild⟩ := of_bind_eq_ok hv
    obtain ⟨rfl, hsome⟩ := Machine.closureView_eq_ok hc
    obtain ⟨p, hp, _, hn⟩ := Machine.allocate_eq_ok (Alloc.follows_extend c args) hbuild
    exact ⟨p, ⟨c, hsome, hp⟩, hn⟩

theorem Planned.fits (hp : a.Planned h p) : h.Fits p := by
  cases a with
  | construct c fields => exact Heap.fits_construct hp
  | makePair fst snd => exact Heap.fits_makePair hp
  | makeClosure f captured => exact Heap.fits_makeClosure hp
  | extendClosure source args =>
    obtain ⟨c, _, hp⟩ := hp
    exact Heap.fits_extend hp

/-- A plan leads only to what the operation was given. -/
theorem Planned.plans (hp : a.Planned h p) (L : h.space.Layout h.hp D)
    (hinputs : ∀ v ∈ a.inputs, v.Into D) : h.Plans D p := by
  cases a with
  | construct c fields => exact Heap.plans_construct hinputs hp
  | makePair fst snd =>
    obtain ⟨hfst, hsnd⟩ := List.forall_mem_cons.mp hinputs
    exact Heap.plans_makePair hfst (List.forall_mem_singleton.mp hsnd) hp
  | makeClosure f captured => exact Heap.plans_makeClosure hinputs hp
  | extendClosure source args =>
    obtain ⟨c, hc, hp⟩ := hp
    obtain ⟨hr, hcl⟩ := Heap.closure?_eq_some hc
    obtain ⟨hsource, hargs⟩ := List.forall_mem_cons.mp hinputs
    exact Heap.plans_extend L hcl (hsource _ hr) hargs hp

end Allocation

/-! ### Making room for plans -/

namespace Heap

variable {h : Heap w} {vs : List (Word w)}

theorem Bounded.checked_hp (B : h.Bounded) (pair : Bool) :
    Ref.checked (w := w) h.hp pair = .ok ⟨h.hp, pair⟩ := by
  rw [Ref.checked, if_pos (B.hp_le.trans (B.capacity_le.trans B.max_le))]

theorem construct_of_unboxed {c : Constructor} (hc : c.representation = .unboxed)
    (hu : c.uid ≤ w.maxUid) (hf : c.fields ≤ w.maxFields) (hlen : vs.length = c.fields) :
    h.planConstruct c vs = .ok ⟨(Header.pack .constructor c.uid c.fields).word, []⟩ := by
  have hheader : c.header = .ok (Header.pack .constructor c.uid c.fields : Header w) :=
    Header.checked_of_le hu hf
  simp [planConstruct, hlen, hc, Constructor.unboxedValue, hheader, bind, Except.bind, pure, Except.pure]

theorem construct_of_room (B : h.Bounded) {c : Constructor} (hc : c.representation = .boxed)
    (hu : c.uid ≤ w.maxUid) (hf : c.fields ≤ w.maxFields) (hlen : vs.length = c.fields)
    (hroom : h.hp + (Shape.constructor vs.length).words ≤ h.limit) :
    h.planConstruct c vs = .ok
      ⟨(Ref.mk h.hp false).word, (Header.pack .constructor c.uid c.fields).word :: vs⟩ := by
  have hheader : c.header = .ok (Header.pack .constructor c.uid c.fields : Header w) :=
    Header.checked_of_le hu hf
  rw [hlen] at hroom
  simp [planConstruct, hlen, hc, hheader, B.span_eq hroom, B.checked_hp false, bind, Except.bind, pure,
    Except.pure]

theorem makePair_of_room (B : h.Bounded) {fst snd : Word w}
    (hroom : h.hp + Shape.pair.words ≤ h.limit) :
    h.planPair fst snd = .ok ⟨(Ref.mk h.hp true).word, [fst, snd]⟩ := by
  simp [planPair, B.span_eq hroom, B.checked_hp true, bind, Except.bind, pure, Except.pure]

theorem makeClosure_of_room (B : h.Bounded) {f : Function} (hu : f.uid ≤ w.maxUid)
    (hf : f.arity ≤ w.maxFields) (hlen : vs.length ≤ f.arity)
    (hroom : h.hp + (Shape.closure vs.length).words ≤ h.limit) :
    h.planClosure f vs = .ok ⟨(Ref.mk h.hp false).word, (Header.pack .closure f.uid vs.length).word ::
      .ofNat f.label.index :: .ofNat f.arity :: vs⟩ := by
  have hheader : Header.checked .closure f.uid vs.length =
      .ok (Header.pack .closure f.uid vs.length : Header w) :=
    Header.checked_of_le hu (hlen.trans hf)
  simp [planClosure, Nat.not_lt.mpr hlen, hheader, B.span_eq hroom, B.checked_hp false, bind,
    Except.bind, pure, Except.pure]

end Heap

/-! ### What plans make -/

namespace Space

variable (s : Space w) (stop : Nat) {uid n : Nat} (rest : List (Word w))

theorem headerAt_write (header : Header w) :
    (s.write stop (header.word :: rest)).headerAt ⟨stop, false⟩ = header := by
  have hcell := cell_write s stop (header.word :: rest) (i := 0) (by simp)
  rw [Nat.add_zero] at hcell
  rw [headerAt, hcell, List.getElem_cons_zero]

theorem nodeAt_write_constructor (hu : uid ≤ w.maxUid) (hn : n ≤ w.maxFields) :
    (s.write stop ((Header.pack .constructor uid n).word :: rest)).nodeAt ⟨stop, false⟩ =
      .constructor uid n := by
  have hat := s.headerAt_write stop rest (.pack .constructor uid n)
  have hkind : (Header.pack .constructor uid n : Header w).kind = .constructor :=
    Header.kind_pack hu hn
  rw [nodeAt_of_constructor rfl (by rw [hat, hkind]), hat, Header.uid_pack hu hn,
    Header.fields_pack hu hn]

theorem nodeAt_write_closure (hu : uid ≤ w.maxUid) (hn : n ≤ w.maxFields) (entry arity : Word w) :
    (s.write stop ((Header.pack .closure uid n).word :: entry :: arity :: rest)).nodeAt
      ⟨stop, false⟩ = .closure uid entry arity := by
  have hat := s.headerAt_write stop (entry :: arity :: rest) (.pack .closure uid n)
  have hkind : (Header.pack .closure uid n : Header w).kind = .closure := Header.kind_pack hu hn
  have hcell := fun i hi =>
    cell_write s stop ((Header.pack .closure uid n).word :: entry :: arity :: rest) (i := i) hi
  rw [nodeAt_of_closure rfl (by rw [hat, hkind]), hat, Header.uid_pack hu hn, hcell 1 (by simp),
    hcell 2 (by simp)]
  rfl

end Space

namespace Heap

variable {h : Heap w} {p : Plan w} {vs : List (Word w)}

theorem length_closure (header entry arity : Word w) (xs : List (Word w)) :
    ([header, entry, arity] ++ xs).length = (Shape.closure xs.length).words := by
  rw [List.length_append]
  rfl

theorem nodeAt_of_closureAt {c : ClosureView w} (hc : h.closureAt c.object = some c) :
    h.space.nodeAt c.object = .closure c.header.uid (h.space.cell (c.object.offset + 1))
      (h.space.cell (c.object.offset + 2)) := by
  obtain ⟨hpair, hk, hview⟩ := closureAt_eq_some hc
  have hheader : c.header = h.space.headerAt c.object := congrArg ClosureView.header hview
  change (h.space.headerAt c.object).isClosure = true at hk
  rw [hheader]
  exact Space.nodeAt_of_closure hpair (by simpa [Header.isClosure] using hk)

structure Realizes (h : Heap w) (p : Plan w) (x : Product w) : Prop where
  size : p.contents.length = x.size
  shows : (h.place p.contents).space.Shows p.value x

/-- The plan of a constructor makes the constructor over its fields. -/
theorem realizes_construct (B : h.Bounded) {c : Constructor}
    (hc : c.representation = .unboxed → c.fields = 0) (hp : h.planConstruct c vs = .ok p) :
    h.Realizes p ((Allocation.construct c vs).product h) := by
  obtain ⟨hlen, ⟨hrep, v, hv, rfl⟩ | ⟨hrep, header, hheader, _, rfl⟩⟩ := planConstruct_eq_ok hp
  · have hnone := Constructor.ref?_unboxedValue hv
    rw [Constructor.unboxedValue, hrep] at hv
    obtain ⟨header, hheader, hv⟩ := of_except_bind_eq_ok hv
    obtain ⟨_, _, rfl⟩ := Header.checked_eq_ok hheader
    cases hv
    rw [hc hrep] at hnone ⊢
    simp only [Allocation.product, hrep]
    exact ⟨rfl, rfl, hnone⟩
  · have hblock : Block false [header.word] vs := by
      rw [Constructor.header, ← hlen] at hheader
      exact block_of_checked hheader rfl
    obtain ⟨hu, hn, rfl⟩ := Header.checked_eq_ok hheader
    simp only [Allocation.product, hrep]
    exact ⟨by simp [Product.size, Shape.constructor, Shape.words, Nat.add_comm], ⟨h.hp, false⟩,
      B.ref?_hp false, h.space.nodeAt_write_constructor h.hp vs hu hn, Space.traced_write hblock⟩

theorem realizes_makePair (B : h.Bounded) {fst snd : Word w} (hp : h.planPair fst snd = .ok p) :
    h.Realizes p ((Allocation.makePair fst snd).product h) := by
  obtain ⟨_, rfl⟩ := planPair_eq_ok hp
  exact ⟨rfl, ⟨h.hp, true⟩, B.ref?_hp true, Space.nodeAt_of_pair rfl,
    Space.traced_write (.pair fst snd)⟩

theorem realizes_makeClosure (B : h.Bounded) {f : Function} (hp : h.planClosure f vs = .ok p) :
    h.Realizes p ((Allocation.makeClosure f vs).product h) := by
  obtain ⟨header, _, hheader, _, rfl⟩ := planClosure_eq_ok hp
  have hblock : Block false [header.word, .ofNat f.label.index, .ofNat f.arity] vs :=
    block_of_checked hheader rfl
  obtain ⟨hu, hn, rfl⟩ := Header.checked_eq_ok hheader
  exact ⟨length_closure _ _ _ _, ⟨h.hp, false⟩, B.ref?_hp false, h.space.nodeAt_write_closure h.hp vs hu hn _ _,
    Space.traced_write hblock⟩

/-- The plan of an extension makes a closure that holds the arguments of the source and then the new
ones. -/
theorem realizes_extend (B : h.Bounded) {c : ClosureView w} {source : Word w}
    (hc : h.closure? source = .ok (some c)) (hp : h.planExtend c vs = .ok p) :
    h.Realizes p ((Allocation.extendClosure source vs).product h) := by
  obtain ⟨hr, hcl⟩ := closure?_eq_some hc
  obtain ⟨header, hheader, _, rfl⟩ := planExtend_eq_ok hcl hp
  have hlen : (h.space.traced c.object ++ vs).length = c.captured + vs.length := by
    rw [List.length_append, Space.length_traced, (shapeAt_of_closure hcl).2]
  have hblock : Block false
      [header.word, h.space.cell (c.object.offset + 1), h.space.cell (c.object.offset + 2)]
      (h.space.traced c.object ++ vs) := by
    rw [← hlen] at hheader
    exact block_of_checked hheader rfl
  obtain ⟨hu, hn, rfl⟩ := Header.checked_eq_ok hheader
  simp only [Allocation.product, hr, nodeAt_of_closureAt hcl]
  exact ⟨length_closure _ _ _ _, ⟨h.hp, false⟩, B.ref?_hp false, h.space.nodeAt_write_closure h.hp _ hu hn _ _, Space.traced_write hblock⟩

end Heap

namespace Allocation

variable {m n : Machine w} {h k : Heap w} {D : Set Ref} {a : Allocation w} {p : Plan w} {v : Word w}
  {t : Tree w}

theorem Planned.realizes (hp : a.Planned h p) (B : h.Bounded) (hs : a.Sound h) :
    h.Realizes p (a.product h) := by
  cases a with
  | construct c fields => exact Heap.realizes_construct B hs.2.2 hp
  | makePair fst snd => exact Heap.realizes_makePair B hp
  | makeClosure f captured => exact Heap.realizes_makeClosure B hp
  | extendClosure source args =>
    obtain ⟨c, hc, hp⟩ := hp
    exact Heap.realizes_extend B hc hp

theorem size_product_extend {source : Word w} {c : ClosureView w}
    (hc : h.closure? source = .ok (some c)) (args : List (Word w)) :
    ((extendClosure source args).product h).size =
      (Shape.closure (c.captured + args.length)).words := by
  obtain ⟨hr, hcl⟩ := Heap.closure?_eq_some hc
  simp only [product, hr, Heap.nodeAt_of_closureAt hcl, Product.size, List.length_append,
    Space.length_traced, (Heap.shapeAt_of_closure hcl).2]

/-- What is sound and apt can be planned within a reservation. -/
theorem planned_of_apt (B : h.Bounded) (L : h.space.Layout h.hp D)
    (hinputs : ∀ v ∈ a.inputs, v.Into D) (hs : a.Sound h) (ha : a.Apt h)
    (hroom : h.hp + (a.product h).size ≤ h.limit) : ∃ p, a.Planned h p := by
  cases a with
  | construct c fields =>
    obtain ⟨hu, hf, _⟩ := hs
    cases hc : c.representation with
    | unboxed => exact ⟨_, Heap.construct_of_unboxed hc hu hf ha⟩
    | boxed =>
      simp only [product, hc] at hroom
      exact ⟨_, Heap.construct_of_room B hc hu hf ha hroom⟩
  | makePair fst snd => exact ⟨_, Heap.makePair_of_room B hroom⟩
  | makeClosure f captured => exact ⟨_, Heap.makeClosure_of_room B hs.1 hs.2 ha hroom⟩
  | extendClosure source args =>
    obtain ⟨c, hc⟩ := hs
    obtain ⟨hr, hcl⟩ := Heap.closure?_eq_some hc
    rw [size_product_extend hc] at hroom
    obtain ⟨p, hp⟩ := Heap.extend_of_room B L (hinputs _ List.mem_cons_self _ hr) hcl (ha c hc) hroom
    exact ⟨p, c, hc, hp⟩

/-- With a number of values that it has no room for, the operation traps. Of all of them only an
extension has by then taken its words. -/
theorem perform_of_not_apt (B : m.heap.Bounded) (L : m.heap.space.Layout m.heap.hp D)
    (hinputs : ∀ v ∈ a.inputs, v.Into D) (hs : a.Sound m.heap) (ha : ¬ a.Apt m.heap)
    (hroom : m.heap.hp + (a.product m.heap).size ≤ m.heap.limit) :
    ∃ t, a.perform m = .error (.trap t) { m with heap := a.abandoned m.heap } := by
  cases a with
  | construct c fields =>
    have hnew : Alloc.construct c fields m.heap = .error .arity m.heap := by
      rw [Alloc.construct, if_pos (show fields.length ≠ c.fields from ha)]
      rfl
    exact ⟨.arity, by rw [perform, Machine.construct, Machine.allocate, hnew]; rfl⟩
  | makePair fst snd => exact absurd trivial ha
  | makeClosure f captured =>
    have hnew : Alloc.makeClosure f captured m.heap = .error .tooManyCaptures m.heap := by
      rw [Alloc.makeClosure, if_pos (Nat.not_le.mp ha)]
      rfl
    exact ⟨.tooManyCaptures, by rw [perform, Machine.makeClosure, Machine.allocate, hnew]; rfl⟩
  | extendClosure source args =>
    obtain ⟨c, hc⟩ := hs
    obtain ⟨hr, hcl⟩ := Heap.closure?_eq_some hc
    have hextent : m.heap.space.extent c.object = (Shape.closure c.captured).words := by
      rw [Space.extent, (Heap.shapeAt_of_closure hcl).2]
      rfl
    have hlong : w.maxFields < c.captured + args.length := by
      by_contra hle
      refine ha fun d hd => ?_
      cases hc.symm.trans hd
      exact Nat.not_lt.mp hle
    rw [size_product_extend hc] at hroom
    have hcopy := Heap.planCopy_of_room B L (hinputs _ List.mem_cons_self _ hr) hcl hroom
    have hnew := Alloc.extend_of_uncounted hcopy hlong
    refine ⟨.fieldCount, ?_⟩
    rw [perform, Machine.extendClosure_of_some hc, Machine.allocate, hnew]
    simp only [abandoned, hr, size_product_extend hc, hextent]
    rfl

/-- What the operation leaves has all that was there. -/
theorem grows_abandoned (B : h.Bounded) (hroom : h.hp + (a.product h).size ≤ h.limit) :
    h.Grows (a.abandoned h) := by
  cases a with
  | construct _ _ => exact .refl B
  | makePair _ _ => exact .refl B
  | makeClosure _ _ => exact .refl B
  | extendClosure source args =>
    simp only [abandoned]
    split
    · exact .refl B
    · refine ⟨⟨?_, ?_, ?_, B.max_le⟩, Nat.le_add_right _ _, fun i hi => Space.cell_write_of_lt _ _ hi⟩
      · exact (hroom.trans B.limit_le).trans (Space.write_capacity _ _ _).ge
      · exact B.limit_le.trans (Space.write_capacity _ _ _).ge
      · exact (Space.write_capacity _ _ _).le.trans B.capacity_le

end Allocation

/-! ### Trees of what is made -/

/-- Relations that agree on the elements of a list have the same images of it. -/
theorem forall₂_congr_left {α β : Type} {R S : α → β → Prop} {xs : List α} {ys : List β}
    (h : ∀ x ∈ xs, ∀ y, R x y ↔ S x y) : List.Forall₂ R xs ys ↔ List.Forall₂ S xs ys := by
  induction xs generalizing ys with
  | nil => simp
  | cons x xs ih =>
    obtain ⟨hx, hxs⟩ := List.forall_mem_cons.mp h
    cases ys with
    | nil => simp
    | cons y ys => rw [List.forall₂_cons, List.forall₂_cons, hx, ih hxs]

def Product.Unfolds (s : Space w) (t : Tree w) : Product w → Prop
  | value v => t = .immediate v
  | node n words => ∃ ts, t = .node n ts ∧ List.Forall₂ s.Unfolds words ts

def Product.words : Product w → List (Word w)
  | value _ => []
  | node _ words => words

namespace Allocation

variable {h k : Heap w} {D : Set Ref} {a : Allocation w} {v : Word w} {t : Tree w}

/-- What is under the new node are values passed in, or values that the source led to. -/
theorem into_words (L : h.space.Layout h.hp D) (hinputs : ∀ v ∈ a.inputs, v.Into D) :
    ∀ v ∈ (a.product h).words, v.Into D := by
  cases a with
  | construct c fields =>
    cases hc : c.representation with
    | unboxed => simp [product, hc, Product.words]
    | boxed => simpa [product, hc, Product.words, inputs] using hinputs
  | makePair fst snd => exact hinputs
  | makeClosure f captured => exact hinputs
  | extendClosure source args =>
    obtain ⟨hsource, hargs⟩ := List.forall_mem_cons.mp hinputs
    cases hr : source.ref? with
    | none => simp [product, hr, Product.words]
    | some r =>
      simp only [product, hr, Product.words]
      exact List.forall_mem_append.mpr ⟨L.closed r (hsource r hr), hargs⟩

/-- Trees of the new value are told by the trees of what is under it, which are as before. -/
theorem unfolds_iff (hshows : k.space.Shows v (a.product h))
    (hwords : ∀ u ∈ (a.product h).words, ∀ t, k.space.Unfolds u t ↔ h.space.Unfolds u t) :
    k.space.Unfolds v t ↔ (a.product h).Unfolds h.space t := by
  cases hx : a.product h with
  | value u =>
    rw [hx] at hshows
    obtain ⟨rfl, hu⟩ := hshows
    exact Space.unfolds_iff_of_none hu
  | node n words =>
    rw [hx] at hshows hwords
    obtain ⟨r, hr, hn, rfl⟩ := hshows
    have himages : ∀ ts, List.Forall₂ k.space.Unfolds (k.space.traced r) ts ↔
        List.Forall₂ h.space.Unfolds (k.space.traced r) ts := fun _ => forall₂_congr_left hwords
    simp only [Space.unfolds_iff_of_some hr, hn, Product.Unfolds, himages]

/-- The trees that the operation is said to make are those of its product. -/
theorem makes_iff (hs : a.Sound h) : a.Makes h.space t ↔ (a.product h).Unfolds h.space t := by
  constructor
  · intro hm
    cases hm with
    | unboxed hc => simp [product, hc, Product.Unfolds]
    | boxed hc hts =>
      simp only [product, hc, Product.Unfolds]
      exact ⟨_, rfl, hts⟩
    | pair hfst hsnd => exact ⟨_, rfl, .cons hfst (.cons hsnd .nil)⟩
    | closure hts => exact ⟨_, rfl, hts⟩
    | @extended source args _ _ _ _ _ hsource hargs =>
      cases hr : source.ref? with
      | none => cases (Space.unfolds_iff_of_none hr).mp hsource
      | some r =>
        obtain ⟨ts, hnode, hts⟩ := (Space.unfolds_iff_of_some hr).mp hsource
        rw [Tree.node.injEq] at hnode
        obtain ⟨hnode, rfl⟩ := hnode
        simp only [product, hr, Product.Unfolds, hnode]
        exact ⟨_, rfl, List.rel_append hts hargs⟩
  · intro hm
    cases a with
    | construct c fields =>
      cases hc : c.representation with
      | unboxed =>
        simp only [product, hc, Product.Unfolds] at hm
        rw [hm]
        exact .unboxed hc
      | boxed =>
        simp only [product, hc, Product.Unfolds] at hm
        obtain ⟨ts, rfl, hts⟩ := hm
        exact .boxed hc hts
    | makePair fst snd =>
      obtain ⟨ts, rfl, hts⟩ := hm
      cases hts with
      | cons hfst hrest =>
        cases hrest with
        | cons hsnd hnil =>
          cases hnil
          exact .pair hfst hsnd
    | makeClosure f captured =>
      obtain ⟨ts, rfl, hts⟩ := hm
      exact .closure hts
    | extendClosure source args =>
      obtain ⟨c, hc⟩ := hs
      obtain ⟨hr, hcl⟩ := Heap.closure?_eq_some hc
      simp only [product, hr, Product.Unfolds, Heap.nodeAt_of_closureAt hcl] at hm
      obtain ⟨ts, rfl, hts⟩ := hm
      obtain ⟨ts, us, rfl, hts, hargs⟩ := forall₂_append_split hts
      exact .extended (Space.unfolds_iff_of_some hr |>.mpr
        ⟨ts, by rw [Heap.nodeAt_of_closureAt hcl], hts⟩) hargs

end Allocation

/-! ### Runs of allocations -/

namespace Machine

variable {m n : Machine w} {roots : List (Word w)} {blocks : Set Ref}

theorem grows_of_perform (B : m.heap.Bounded) {a : Allocation w} {v : Word w}
    (hv : a.perform m = .ok v n) : ∃ h, n = { m with heap := h } ∧ m.heap.Grows h := by
  obtain ⟨p, hp, rfl⟩ := Allocation.perform_eq_ok hv
  exact ⟨_, rfl, hp.fits.grows B⟩

/-- Allocations, one after the other, change nothing but the heap, which grows. -/
theorem grows_of_performs (B : m.heap.Bounded) {as : List (Allocation w)} {vs : List (Word w)}
    (hvs : as.mapM Allocation.perform m = .ok vs n) :
    ∃ h, n = { m with heap := h } ∧ m.heap.Grows h := by
  induction as generalizing m vs with
  | nil =>
    cases hvs
    exact ⟨_, rfl, .refl B⟩
  | cons a as ih =>
    rw [List.mapM_cons] at hvs
    obtain ⟨v, o, hv, hrest⟩ := of_bind_eq_ok hvs
    obtain ⟨us, o', hus, hlast⟩ := of_bind_eq_ok hrest
    cases hlast
    obtain ⟨k, rfl, G⟩ := grows_of_perform B hv
    obtain ⟨l, rfl, G'⟩ := ih G.bounded hus
    exact ⟨l, rfl, G.trans G'⟩

/-- In a heap that falls into blocks, with room in the reservation, an operation that is given as
many values as it takes makes its node out of the free words alone, and the heap falls into blocks
again, the new one among them; if it is given more, or a constructor other than its fields, it
traps, and an extension leaves words behind that it has taken. Through all allocations that follow, one or many, every value that was there keeps its block,
its trees, what is printed of it and what it is equal to. -/
theorem allocation_refines_trees (P : m.heap.Partitioned roots blocks) :
    (∀ a : Allocation w, (∀ v ∈ a.inputs, v.Into blocks) → a.Sound m.heap →
      m.heap.hp + (a.product m.heap).size ≤ m.heap.limit →
      (¬ a.Apt m.heap →
        (∃ t, a.perform m = .error (.trap t) { m with heap := a.abandoned m.heap }) ∧
        m.heap.Persists (a.abandoned m.heap) blocks) ∧
      (a.Apt m.heap → ∃ v h, a.perform m = .ok v { m with heap := h } ∧
        h.hp = m.heap.hp + (a.product m.heap).size ∧ h.limit = m.heap.limit ∧
        (∀ i, i < m.heap.hp ∨ h.hp ≤ i → h.space.cell i = m.heap.space.cell i) ∧
        h.Partitioned (v :: roots) (Heap.joined blocks v) ∧
        (m.heap.Founded roots blocks →
          h.Founded (v :: roots) (Heap.joined blocks v) ∧ ∃! t, h.space.Unfolds v t) ∧
        h.space.Shows v (a.product m.heap) ∧
        ∀ t, h.space.Unfolds v t ↔ a.Makes m.heap.space t)) ∧
    ∀ (as : List (Allocation w)) (vs : List (Word w)) (n : Machine w),
      as.mapM Allocation.perform m = .ok vs n →
      ∃ h, n = { m with heap := h } ∧ m.heap.Persists h blocks := by
  have L := P.layout
  constructor
  · intro a hinputs hs hroom
    constructor
    · intro hinapt
      have G := Allocation.grows_abandoned P.bounded hroom
      exact ⟨Allocation.perform_of_not_apt P.bounded L hinputs hs hinapt hroom,
        G.persists P.bounded L⟩
    · intro ha
      obtain ⟨p, hp⟩ := Allocation.planned_of_apt P.bounded L hinputs hs ha hroom
      have R := hp.realizes P.bounded hs
      have persists := (hp.fits.grows P.bounded).persists P.bounded L
      refine ⟨p.value, m.heap.place p.contents, Allocation.perform_of_planned hp, ?_, rfl, ?_,
        P.place (hp.plans L hinputs), ?_, R.shows, ?_⟩
      · rw [← R.size]
        rfl
      · rintro i (hi | hi)
        · exact Space.cell_write_of_lt _ _ hi
        · exact Space.cell_write_of_ge _ _ hi
      · intro F
        have F' := F.place (hp.plans L hinputs)
        exact ⟨F', F'.acyclic.unfolds F'.layout (F'.rooted _ List.mem_cons_self)⟩
      · intro t
        rw [Allocation.makes_iff hs]
        exact Allocation.unfolds_iff R.shows fun u hu t =>
          persists.unfolds u (Allocation.into_words L hinputs u hu) t
  · intro as vs n hvs
    obtain ⟨h, rfl, G⟩ := grows_of_performs P.bounded hvs
    exact ⟨h, rfl, G.persists P.bounded L⟩

def unfilled : Machine .bits64 where
  heap :=
    { space :=
        { cells :=
            #[.ofNat 4, .ofNat 8,
              (Header.pack .closure 8 1).word, .ofNat 5, .ofNat 3, (Ref.mk 0 true).word]
          capacity := 16 }
      hp := 6
      limit := 16
      settings := ⟨16, 16, 1.0⟩
      stats := {} }
  maxStackWords := 16

theorem partitioned_unfilled : unfilled.heap.Partitioned [] {r | r ∈ [⟨0, true⟩, ⟨2, false⟩]} where
  bounded := ⟨by decide, by decide, by decide, by decide⟩
  layout := by decide
  cover := by
    change ∀ i < 6, ∃ r ∈ [(⟨0, true⟩ : Ref), ⟨2, false⟩], _
    decide
  rooted := by simp

/-- The closure is extended, and what it holds stays as it was. -/
theorem allocation_refines_trees_unfilled :
    unfilled.heap.Partitioned [] {r | r ∈ [⟨0, true⟩, ⟨2, false⟩]} ∧
    ∃ v h t, extendClosure (Ref.mk 2 false).word [.ofNat 12] unfilled =
        .ok v { unfilled with heap := h } ∧
      h.space.Unfolds (Ref.mk 2 false).word (.node (.closure 8 (.ofNat 5) (.ofNat 3)) [t]) ∧
      h.space.Unfolds v
        (.node (.closure 8 (.ofNat 5) (.ofNat 3)) [t, .immediate (.ofNat 12)]) := by
  refine ⟨partitioned_unfilled, ?_⟩
  let a : Allocation .bits64 := .extendClosure (Ref.mk 2 false).word [.ofNat 12]
  let t : Tree .bits64 := .node .pair [.immediate (.ofNat 4), .immediate (.ofNat 8)]
  have hpair : unfilled.heap.space.Unfolds (Ref.mk 0 true).word t :=
    .block (r := ⟨0, true⟩) (by decide)
      (.cons (.immediate (by decide)) (.cons (.immediate (by decide)) .nil))
  have hsource : unfilled.heap.space.Unfolds (Ref.mk 2 false).word
      (.node (.closure 8 (.ofNat 5) (.ofNat 3)) [t]) :=
    .block (r := ⟨2, false⟩) (by decide) (.cons hpair .nil)
  have hsome : ∃ c ∈ unfilled.heap.closureAt ⟨2, false⟩, c.captured = 1 := by decide
  obtain ⟨c, hc, hcaptured⟩ := hsome
  have hview : unfilled.heap.closure? (Ref.mk 2 false).word = .ok (some c) := by
    rw [Heap.closure?_of_layout partitioned_unfilled.bounded partitioned_unfilled.layout (by decide)]
    exact congrArg Except.ok hc
  obtain ⟨hmakes, hkeeps⟩ := allocation_refines_trees partitioned_unfilled
  obtain ⟨_, hmade⟩ := hmakes a (by decide) ⟨c, hview⟩ (by decide)
  obtain ⟨v, h, hv, _, _, _, _, _, _, hunfolds⟩ := hmade fun d hd => by
    cases hview.symm.trans hd
    rw [hcaptured]
    decide
  have hrun : [a].mapM Allocation.perform unfilled = .ok [v] { unfilled with heap := h } := by
    rw [List.mapM_cons, bind_of_ok hv]
    rfl
  obtain ⟨k, hk, hpersists⟩ := hkeeps _ _ _ hrun
  obtain rfl : h = k := congrArg Machine.heap hk
  have hextended : a.Makes unfilled.heap.space
      (.node (.closure 8 (.ofNat 5) (.ofNat 3)) ([t] ++ [.immediate (.ofNat 12)])) :=
    .extended hsource (.cons (.immediate (by decide)) .nil)
  exact ⟨v, h, t, hv, (hpersists.unfolds _ (by decide) _).mpr hsource, (hunfolds _).mpr hextended⟩

/-- A closure of one argument on a heap with room for much more. -/
def spacious : Machine .bits32 where
  heap :=
    { space :=
        { cells := #[(Header.pack .closure 8 0).word, .ofNat 2, .ofNat 1]
          capacity := 512 }
      hp := 3
      limit := 512
      settings := ⟨512, 512, 1.0⟩
      stats := {} }
  maxStackWords := 16

theorem partitioned_spacious : spacious.heap.Partitioned [] {r | r ∈ [⟨0, false⟩]} where
  bounded := ⟨by decide, by decide, by decide, by decide⟩
  layout := by decide
  cover := by
    change ∀ i < 3, ∃ r ∈ [(⟨0, false⟩ : Ref)], _
    decide
  rooted := by simp

/-- A closure cannot be extended beyond what a header counts, however much room there is. The words
of the new one have been taken by then. -/
theorem extendClosure_beyond_fields_traps :
    spacious.heap.Partitioned [] {r | r ∈ [⟨0, false⟩]} ∧
    spacious.heap.hp + (Shape.closure 256).words ≤ spacious.heap.limit ∧
    (∃ c, spacious.heap.closure? (Ref.mk 0 false).word = .ok (some c)) ∧
    ∃ t h, extendClosure (Ref.mk 0 false).word (List.replicate 256 (.ofNat 4)) spacious =
        .error (.trap t) { spacious with heap := h } ∧
      h.hp = spacious.heap.hp + (Shape.closure 256).words := by
  have hsome : ∃ c ∈ spacious.heap.closureAt ⟨0, false⟩, c.captured = 0 := by decide
  obtain ⟨c, hc, hcaptured⟩ := hsome
  have P := partitioned_spacious
  have hview : spacious.heap.closure? (Ref.mk 0 false).word = .ok (some c) := by
    rw [Heap.closure?_of_layout P.bounded P.layout (by decide)]
    exact congrArg Except.ok hc
  let a : Allocation .bits32 := .extendClosure (Ref.mk 0 false).word (List.replicate 256 (.ofNat 4))
  have hlong : ¬ a.Apt spacious.heap := fun ha => by
    have hle := ha c hview
    rw [hcaptured, List.length_replicate] at hle
    exact absurd hle (by decide)
  have hinputs : ∀ v ∈ a.inputs, v.Into {r | r ∈ [(⟨0, false⟩ : Ref)]} := by
    refine List.forall_mem_cons.mpr ⟨by decide, fun v hv => ?_⟩
    rw [List.eq_of_mem_replicate hv]
    decide
  obtain ⟨t, htrap⟩ := Allocation.perform_of_not_apt (a := a) P.bounded P.layout hinputs
    ⟨c, hview⟩ hlong (by decide +kernel)
  exact ⟨P, by decide, ⟨c, hview⟩, t, _, htrap, by decide +kernel⟩

end Machine

end Trampoline
