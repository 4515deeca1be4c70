import Trampoline.Proofs.Acyclicity
import Trampoline.Proofs.Uids

/-!
What the blocks of a heap were built as.

A builder gives a uid of its own to every constructor and every function it declares. A block is
built as a pair, as a value of a constructor, or as a closure of a function, and the latter two have
the uid in their header. Extensions of a closure and collections leave it there, so the header of a
block always tells what it was built as.
-/

namespace Trampoline

variable {w : Width} {κ : Type}

/-! ### Declarations -/

/-- A builder, and the constructors and functions that it has declared. The builtin constructors
are there from the beginning. -/
inductive Builder.Declares : Builder w κ → List Constructor → List Function → Prop where
  | empty : Declares .empty [.builtin 0, .builtin 1, .builtin 2] []
  | label {b b' : Builder w κ} {cs : List Constructor} {fs : List Function} {name : String}
      {l : Label} :
      Declares b cs fs → Builder.label name b = .ok l b' → Declares b' cs fs
  | bind {b b' : Builder w κ} {cs : List Constructor} {fs : List Function} {l : Label}
      {maxAlloc : Nat} {code : κ} :
      Declares b cs fs → Builder.bind l maxAlloc code b = .ok () b' → Declares b' cs fs
  | constructor {b b' : Builder w κ} {cs : List Constructor} {fs : List Function} {name : String}
      {fields : Nat} {r : Representation} {c : Constructor} :
      Declares b cs fs → Builder.constructor name fields r b = .ok c b' → Declares b' (c :: cs) fs
  | function {b b' : Builder w κ} {cs : List Constructor} {fs : List Function} {name : String}
      {arity maxAlloc : Nat} {f : Function} :
      Declares b cs fs → Builder.function name arity maxAlloc b = .ok f b' → Declares b' cs (f :: fs)

/-- Uids tell constructors from each other, and from functions. -/
structure Distinct (cs : List Constructor) (fs : List Function) : Prop where
  constructors : ∀ c ∈ cs, ∀ d ∈ cs, c.uid = d.uid → c = d
  functions : ∀ c ∈ cs, ∀ f ∈ fs, c.uid ≠ f.uid

namespace Distinct

variable {cs : List Constructor} {fs : List Function}

/-- A constructor with a uid above all others can be told from them. -/
theorem constructor {c : Constructor} (D : Distinct cs fs) (hcs : ∀ d ∈ cs, d.uid < c.uid)
    (hfs : ∀ f ∈ fs, f.uid < c.uid) : Distinct (c :: cs) fs where
  constructors d hd e he heq := by
    rcases List.mem_cons.mp hd with rfl | hd'
    · rcases List.mem_cons.mp he with rfl | he'
      · rfl
      · exact absurd heq (hcs e he').ne'
    · rcases List.mem_cons.mp he with rfl | he'
      · exact absurd heq (hcs d hd').ne
      · exact D.constructors d hd' e he' heq
  functions d hd f hf := by
    rcases List.mem_cons.mp hd with rfl | hd'
    · exact (hfs f hf).ne'
    · exact D.functions d hd' f hf

theorem function {f : Function} (D : Distinct cs fs) (hcs : ∀ c ∈ cs, c.uid < f.uid) :
    Distinct cs (f :: fs) where
  constructors := D.constructors
  functions c hc g hg := by
    rcases List.mem_cons.mp hg with rfl | hg'
    · exact (hcs c hc).ne
    · exact D.functions c hc g hg'

end Distinct

namespace Builder

variable {b b' : Builder w κ} {cs : List Constructor} {fs : List Function}

/-- Uids are given out in order, so those given out before are smaller than the next one. -/
theorem Declares.distinct (h : Declares b cs fs) :
    Distinct cs fs ∧ (∀ c ∈ cs, c.uid < b.nextUid) ∧ ∀ f ∈ fs, f.uid < b.nextUid := by
  induction h with
  | empty =>
    have hnext : (Builder.empty : Builder w κ).nextUid = 8 := rfl
    rw [hnext]
    exact ⟨⟨by decide, by decide⟩, by decide, by decide⟩
  | label _ hl ih =>
    cases hl
    exact ih
  | bind _ hb ih =>
    obtain ⟨_, _, _, _, rfl⟩ := bind_eq_ok hb
    exact ih
  | constructor _ hc ih =>
    obtain ⟨D, hcs, hfs⟩ := ih
    obtain ⟨rfl, rfl⟩ := constructor_eq_ok hc
    exact ⟨D.constructor hcs hfs,
      List.forall_mem_cons.mpr ⟨Nat.lt_succ_self _, fun d hd => Nat.lt_succ_of_lt (hcs d hd)⟩,
      fun f hf => Nat.lt_succ_of_lt (hfs f hf)⟩
  | function _ hf ih =>
    obtain ⟨D, hcs, hfs⟩ := ih
    obtain ⟨_, rfl, rfl⟩ := function_eq_ok hf
    exact ⟨D.function hcs, fun c hc => Nat.lt_succ_of_lt (hcs c hc),
      List.forall_mem_cons.mpr ⟨Nat.lt_succ_self _, fun g hg => Nat.lt_succ_of_lt (hfs g hg)⟩⟩

end Builder

/-! ### Origins -/

inductive Origin where
  | pair
  | constructor (c : Constructor)
  | closure (f : Function)
deriving DecidableEq, Repr

abbrev Origins := Ref → Origin → Prop

namespace Origins

def blocks (O : Origins) : Set Ref := {r | ∃ x, O r x}

/-- The block that a value refers to, if it does, is a new one. -/
def add (O : Origins) (v : Word w) (x : Origin) : Origins :=
  fun r y => O r y ∨ (v.ref? = some r ∧ y = x)

/-- The blocks that a collection found are where it has put them. -/
def moved (O : Origins) (s : Space w) (roots : List (Word w)) (ρ : Nat → Nat) : Origins :=
  fun b x => ∃ a, s.Moves roots ρ a b ∧ O a x

end Origins

namespace Heap

/-- A heap that was made empty, and on which blocks were then built from declared constructors and
functions and from values that lead to its blocks. A reservation that does not collect leaves the
blocks where they are; a collection moves those that it reaches. -/
inductive Stocked (cs : List Constructor) (fs : List Function) : Heap w → Origins → Prop where
  | made {s : HeapSettings} {h : Heap w} : create s = .ok h → Stocked cs fs h fun _ _ => False
  | constructed {h k : Heap w} {O : Origins} {c : Constructor} {vs : List (Word w)} {v : Word w} :
      Stocked cs fs h O → c ∈ cs → (∀ v ∈ vs, v.Into O.blocks) → Alloc.construct c vs h = .ok v k →
      Stocked cs fs k (O.add v (.constructor c))
  | paired {h k : Heap w} {O : Origins} {fst snd v : Word w} :
      Stocked cs fs h O → fst.Into O.blocks → snd.Into O.blocks →
      Alloc.makePair fst snd h = .ok v k → Stocked cs fs k (O.add v .pair)
  | closed {h k : Heap w} {O : Origins} {f : Function} {vs : List (Word w)} {v : Word w} :
      Stocked cs fs h O → f ∈ fs → (∀ v ∈ vs, v.Into O.blocks) → Alloc.makeClosure f vs h = .ok v k →
      Stocked cs fs k (O.add v (.closure f))
  | extended {h k : Heap w} {O : Origins} {cl v : Word w} {c : ClosureView w} {args : List (Word w)}
      {x : Origin} :
      Stocked cs fs h O → h.closure? cl = .ok (some c) → O c.object x →
      (∀ v ∈ args, v.Into O.blocks) → Alloc.extend c args h = .ok v k →
      Stocked cs fs k (O.add v x)
  | reserved {h : Heap w} {O : Origins} {words : Nat} {roots : List (Word w)} {r : Checkpoint w} :
      Stocked cs fs h O → h.reserve words roots = .ok r →
      r.heap.stats.collections = h.stats.collections → Stocked cs fs r.heap O
  | reclaimed {h : Heap w} {O : Origins} {words : Nat} {roots : List (Word w)} {r : Checkpoint w}
      {ρ : Nat → Nat} :
      Stocked cs fs h O → (∀ v ∈ roots, v.Into O.blocks) → h.reserve words roots = .ok r →
      h.Relocates roots r.heap r.roots ρ → Stocked cs fs r.heap (O.moved h.space roots ρ)
  | collected {h : Heap w} {O : Origins} {roots : List (Word w)} {r : Checkpoint w}
      {ρ : Nat → Nat} :
      Stocked cs fs h O → (∀ v ∈ roots, v.Into O.blocks) → h.collect roots = .ok r →
      h.Relocates roots r.heap r.roots ρ → Stocked cs fs r.heap (O.moved h.space roots ρ)

variable {cs : List Constructor} {fs : List Function} {h : Heap w} {O : Origins} {r : Ref}
  {x : Origin}

/-- What a block shows of its origin: the kind of reference, and the uid in its header. -/
def Bears (cs : List Constructor) (fs : List Function) (h : Heap w) (r : Ref) : Origin → Prop
  | .pair => r.pair = true
  | .constructor c => r.pair = false ∧ c ∈ cs ∧ c.representation = .boxed ∧
      (Header.mk (h.space.cell r.offset)).uid = c.uid
  | .closure f => r.pair = false ∧ f ∈ fs ∧ (Header.mk (h.space.cell r.offset)).uid = f.uid

/-- A block shows the same origin wherever it is, as long as its kind and its uid are the same. -/
theorem Bears.congr {k : Heap w} {q : Ref} (hx : h.Bears cs fs r x) (hp : q.pair = r.pair)
    (huid : r.pair = false → (Header.mk (k.space.cell q.offset)).uid =
      (Header.mk (h.space.cell r.offset)).uid) : k.Bears cs fs q x := by
  cases x with
  | pair => exact hp.trans hx
  | constructor c =>
    obtain ⟨hpair, hc, hboxed, hc'⟩ := hx
    exact ⟨hp.trans hpair, hc, hboxed, (huid hpair).trans hc'⟩
  | closure f =>
    obtain ⟨hpair, hf, hf'⟩ := hx
    exact ⟨hp.trans hpair, hf, (huid hpair).trans hf'⟩

/-- A block with the uid of a constructor was built from it. -/
theorem Bears.eq_constructor {c : Constructor} (hx : h.Bears cs fs r x) (D : Distinct cs fs)
    (hc : c ∈ cs) (hpair : r.pair = false)
    (huid : (Header.mk (h.space.cell r.offset)).uid = c.uid) : x = .constructor c := by
  cases x with
  | pair => exact absurd (hpair.symm.trans hx) (by decide)
  | constructor d =>
    obtain ⟨_, hd, _, hd'⟩ := hx
    rw [D.constructors d hd c hc (hd'.symm.trans huid)]
  | closure f =>
    obtain ⟨_, hf, hf'⟩ := hx
    exact absurd (huid.symm.trans hf') (D.functions c hc f hf)

/-- The blocks of a heap make up a layout, and show what they were built as. -/
structure Labelled (cs : List Constructor) (fs : List Function) (h : Heap w) (O : Origins) :
    Prop where
  bounded : h.Bounded
  layout : h.space.Layout h.hp O.blocks
  bears : ∀ r x, O r x → h.Bears cs fs r x

/-- The uid of a new block is that of its header. -/
theorem uid_place {kind : Kind} {uid n : Nat} {header : Header w} {rest : List (Word w)}
    (hhd : Header.checked kind uid n = .ok header) :
    (Header.mk ((h.place (header.word :: rest)).space.cell h.hp)).uid = uid := by
  have hcell : (h.place (header.word :: rest)).space.cell h.hp = header.word :=
    Space.cell_write h.space h.hp (header.word :: rest) (i := 0) (by simp)
  obtain ⟨hu, hn, rfl⟩ := Header.checked_eq_ok hhd
  rw [hcell]
  exact Header.uid_pack hu hn

namespace Labelled

/-- A planned object joins the blocks, which stay as they are. -/
theorem place (L : Labelled cs fs h O) {p : Plan w} (hp : h.Plans O.blocks p)
    (hx : ∀ r, p.value.ref? = some r → (h.place p.contents).Bears cs fs r x) :
    Labelled cs fs (h.place p.contents) (O.add p.value x) := by
  cases hp with
  | @value v hv =>
    have hO : O.add v x = O := by
      funext r y
      simp [Origins.add, hv]
    rw [hO]
    exact ⟨L.bounded.place (p := ⟨v, []⟩) (.inl rfl), L.layout, L.bears⟩
  | @block pair lead xs B _ hxs hfit =>
    have href := L.bounded.ref?_hp pair
    have hblocks : (O.add ((Ref.mk h.hp pair).word : Word w) x).blocks =
        insert ⟨h.hp, pair⟩ O.blocks := by
      ext r
      simp [Origins.blocks, Origins.add, href, exists_or, or_comm, eq_comm]
    refine ⟨L.bounded.place (p := ⟨(Ref.mk h.hp pair).word, lead ++ xs⟩) (.inr hfit), ?_, ?_⟩
    · rw [hblocks]
      exact L.layout.write B hxs
    · rintro r y (hy | ⟨hr, rfl⟩)
      · refine (L.bears r y hy).congr rfl fun _ => ?_
        have hkeeps := Space.keeps_write (lead ++ xs) (L.layout.within r ⟨y, hy⟩)
        have hcell : (h.place (lead ++ xs)).space.cell r.offset = h.space.cell r.offset :=
          hkeeps 0 (h.space.extent_pos r)
        rw [hcell]
      · exact hx r hr

/-- Blocks still show their origins where a collection has put them. -/
theorem moved (L : Labelled cs fs h O) {k : Heap w} {roots roots' : List (Word w)} {ρ : Nat → Nat}
    (hroots : ∀ v ∈ roots, v.Into O.blocks) (B : k.Bounded) (R : h.Relocates roots k roots' ρ) :
    Labelled cs fs k (O.moved h.space roots ρ) := by
  have hblocks : (O.moved h.space roots ρ).blocks = {b | ∃ a, h.space.Moves roots ρ a b} := by
    ext b
    constructor
    · rintro ⟨x, a, hab, _⟩
      exact ⟨a, hab⟩
    · rintro ⟨a, hab⟩
      obtain ⟨x, hx⟩ := L.layout.reachable hroots hab.1
      exact ⟨x, a, hab, hx⟩
  refine ⟨B, ?_, ?_⟩
  · rw [hblocks]
    exact R.layout
  · rintro b x ⟨a, hab, hx⟩
    refine (L.bears a x hx).congr (R.matched.pair hab).symm fun hp => ?_
    rw [R.matched.header hab hp]

end Labelled

/-- A reservation that does not collect only grants words that are free. -/
theorem reserve_of_uncollected {words : Nat} {roots : List (Word w)} {r : Checkpoint w}
    (hr : h.reserve words roots = .ok r)
    (hcount : r.heap.stats.collections = h.stats.collections) :
    words ≤ h.free ∧ r.heap = h.grant words := by
  obtain ⟨hfree, rfl⟩ | ⟨_, hr⟩ := reserve_eq_ok hr
  · exact ⟨hfree, rfl⟩
  · obtain ⟨d, hd, hr⟩ := of_except_bind_eq_ok hr
    have hcollected := (collectFor_counts hd).2
    split at hr <;> cases hr <;> change d.heap.stats.collections = _ at hcount <;> omega

/-- Every block of a stocked heap shows what it was built as. -/
theorem Stocked.labelled (H : Stocked cs fs h O) : Labelled cs fs h O := by
  induction H with
  | made hc =>
    obtain ⟨hvalid, rfl⟩ := create_eq_ok hc
    refine ⟨bounded_vacant hvalid, ⟨?_, ?_, ?_, ?_⟩, fun r x hx => hx.elim⟩ <;>
      exact fun r hr => (hr.choose_spec : False).elim
  | constructed _ hc hvs hnew ih =>
    obtain ⟨p, hp, rfl, rfl⟩ := (Alloc.follows_construct _ _).eq_ok hnew
    refine ih.place (plans_construct hvs hp) fun r hr => ?_
    obtain ⟨_, ⟨_, v, hv, rfl⟩ | ⟨hboxed, header, hhd, _, rfl⟩⟩ := planConstruct_eq_ok hp
    · cases hr.symm.trans (Constructor.ref?_unboxedValue hv)
    · cases hr.symm.trans (ih.bounded.ref?_hp false)
      exact ⟨rfl, hc, hboxed, uid_place hhd⟩
  | paired _ hv hu hnew ih =>
    obtain ⟨p, hp, rfl, rfl⟩ := (Alloc.follows_makePair _ _).eq_ok hnew
    refine ih.place (plans_makePair hv hu hp) fun r hr => ?_
    obtain ⟨_, rfl⟩ := planPair_eq_ok hp
    cases hr.symm.trans (ih.bounded.ref?_hp true)
    rfl
  | closed _ hf hvs hnew ih =>
    obtain ⟨p, hp, rfl, rfl⟩ := (Alloc.follows_makeClosure _ _).eq_ok hnew
    refine ih.place (plans_makeClosure hvs hp) fun r hr => ?_
    obtain ⟨header, _, hhd, _, rfl⟩ := planClosure_eq_ok hp
    cases hr.symm.trans (ih.bounded.ref?_hp false)
    exact ⟨rfl, hf, uid_place hhd⟩
  | @extended h k O cl v c args x _ hv hx hargs hnew ih =>
    obtain ⟨p, hp, rfl, rfl⟩ := (Alloc.follows_extend _ _).eq_ok hnew
    obtain ⟨_, hcl⟩ := closure?_eq_some hv
    refine ih.place (plans_extend ih.layout hcl ⟨x, hx⟩ hargs hp) fun r hr => ?_
    obtain ⟨header, hhd, _, rfl⟩ := planExtend_eq_ok hcl hp
    cases hr.symm.trans (ih.bounded.ref?_hp false)
    -- The header of the extension has the uid that the closure shows.
    obtain ⟨hpair, _, hview⟩ := closureAt_eq_some hcl
    have hheader : c.header = ⟨h.space.cell c.object.offset⟩ := congrArg ClosureView.header hview
    refine (ih.bears _ x hx).congr hpair.symm fun _ => ?_
    rw [← hheader]
    exact uid_place hhd
  | reserved _ hr hcount ih =>
    obtain ⟨hfree, heq⟩ := reserve_of_uncollected hr hcount
    rw [heq]
    exact ⟨ih.bounded.grant hfree, ih.layout, ih.bears⟩
  | reclaimed _ hroots hr R ih => exact ih.moved hroots (ih.bounded.reserve hr).1 R
  | collected _ hroots hr R ih => exact ih.moved hroots (ih.bounded.collectFor hr).1 R

end Heap

end Trampoline
