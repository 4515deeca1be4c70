import Trampoline.Proofs.Acyclicity

/-!
The closures on a heap, apart from where they lie.

A closure is of one function for as long as it exists, and it never holds more arguments than it was
made with: an extension is a new closure. So what holds of every closure when it is made holds of all
closures on the heap, wherever collections may have moved them.
-/

namespace Trampoline

variable {w : Width}

/-- The second closure is of the same function as the first one and holds `n` more arguments. -/
structure ClosureView.Extends (c : ClosureView w) (n : Nat) (d : ClosureView w) : Prop where
  uid : d.header.uid = c.header.uid
  entry : d.entry = c.entry
  arity : d.arity = c.arity
  captured : d.captured = c.captured + n

theorem ClosureView.extends_moved (c : ClosureView w) (r : Ref) :
    c.Extends 0 { c with object := r } := ⟨rfl, rfl, rfl, rfl⟩

/-- A property of closures that has nothing to do with where they lie, and that a closure passes on
to its extensions as long as these still miss arguments. -/
def Heritable (Q : ClosureView w → Prop) : Prop :=
  ∀ c n d, Q c → c.Extends n d → n = 0 ∨ d.captured < d.arity → Q d

namespace Heap

variable {h k : Heap w} {Q : ClosureView w → Prop} {D E : Set Ref} {φ : Ref → Ref → Prop}
  {r : Ref} {c : ClosureView w} {vs : List (Word w)} {p : Plan w}

def Closures (h : Heap w) (Q : ClosureView w → Prop) (D : Set Ref) : Prop :=
  ∀ r ∈ D, ∀ c, h.closureAt r = some c → Q c

theorem Closures.moved (C : h.Closures Q D) (H : Heritable Q) (M : h.space.Matched k.space φ)
    (hD : ∀ a b, φ a b → a ∈ D) : k.Closures Q {b | ∃ a, φ a b} := by
  rintro b ⟨a, hab⟩ d hd
  rw [closureAt_matched M hab] at hd
  obtain ⟨c, hc, rfl⟩ := Option.map_eq_some_iff.mp hd
  exact H c 0 _ (C a (hD a b hab) c hc) (c.extends_moved b) (.inl rfl)

/-- A closure is seen as before where its words are kept. -/
theorem closureAt_of_keeps (hkeeps : h.space.Keeps k.space r) :
    k.closureAt r = h.closureAt r := by
  have hcell := hkeeps 0 (h.space.extent_pos r)
  rw [Nat.add_zero] at hcell
  unfold closureAt
  rw [hcell]
  split
  · next hcl =>
    have hkind : (Header.mk (h.space.cell r.offset)).kind = .closure := by
      simpa [Header.isClosure] using hcl.2
    have hext : 2 < h.space.extent r := by
      simp only [Space.extent, Space.shapeAt, hcl.1, Header.shape, hkind, Shape.words,
        Shape.closure, Bool.false_eq_true, if_false]
      omega
    rw [hkeeps 1 (by omega), hkeeps 2 hext]
  · rfl

/-- Only the object that has been planned is new. -/
theorem Closures.place (C : h.Closures Q D) (L : h.space.Layout h.hp D)
    (hE : ∀ r ∈ E, r ∈ D ∨ p.value.ref? = some r)
    (hnew : ∀ r c, p.value.ref? = some r → (h.place p.contents).closureAt r = some c → Q c) :
    (h.place p.contents).Closures Q E := by
  intro r hr c hc
  rcases hE r hr with hold | hvalue
  · have hkeeps : h.space.Keeps (h.place p.contents).space r :=
      Space.keeps_write p.contents (L.within r hold)
    rw [closureAt_of_keeps hkeeps] at hc
    exact C r hold c hc
  · exact hnew r c hvalue hc

/-! ### New objects -/

/-- A new constructor is no closure. -/
theorem closureAt_construct {d : Constructor} (B : h.Bounded) (hp : h.planConstruct d vs = .ok p)
    (hr : p.value.ref? = some r) : (h.place p.contents).closureAt r = none := by
  obtain ⟨hlen, ⟨_, v, hv, rfl⟩ | ⟨_, header, hhd, _, rfl⟩⟩ := planConstruct_eq_ok hp
  · cases hr.symm.trans (Constructor.ref?_unboxedValue hv)
  · cases hr.symm.trans (B.ref?_hp false)
    have hcell : (h.place ([header.word] ++ vs)).space.cell h.hp = header.word :=
      Space.cell_write h.space h.hp ([header.word] ++ vs) (i := 0) (by simp)
    obtain ⟨hu, hf, rfl⟩ := Header.checked_eq_ok hhd
    rw [closureAt, hcell]
    refine if_neg fun hcl => ?_
    rw [Header.isClosure, Header.kind_pack hu hf] at hcl
    cases hcl.2

theorem closureAt_makePair {v u : Word w} (B : h.Bounded) (hp : h.planPair v u = .ok p)
    (hr : p.value.ref? = some r) : (h.place p.contents).closureAt r = none := by
  obtain ⟨_, rfl⟩ := planPair_eq_ok hp
  cases hr.symm.trans (B.ref?_hp true)
  exact if_neg fun hcl => by cases hcl.1

/-- A closure that was placed is seen as it was written. -/
theorem closureAt_place {xs : List (Word w)} {header : Header w} {entry arity : Word w}
    (hk : header.isClosure = true) :
    (h.place ([header.word, entry, arity] ++ xs)).closureAt ⟨h.hp, false⟩ =
      some ⟨⟨h.hp, false⟩, header, .ofNat entry.toNat, arity.toNat⟩ := by
  have hcell : ∀ i (hi : i < ([header.word, entry, arity] ++ xs).length),
      (h.place ([header.word, entry, arity] ++ xs)).space.cell (h.hp + i) =
        ([header.word, entry, arity] ++ xs)[i] :=
    fun i hi => Space.cell_write _ _ _ hi
  have h0 := hcell 0 (by simp)
  rw [Nat.add_zero] at h0
  rw [closureAt, h0, hcell 1 (by simp), hcell 2 (by simp)]
  exact if_pos ⟨rfl, hk⟩

theorem isClosure_of_checked {uid n : Nat} {header : Header w}
    (hhd : Header.checked .closure uid n = .ok header) :
    header.isClosure = true ∧ header.uid = uid ∧ header.fields = n := by
  obtain ⟨hu, hf, rfl⟩ := Header.checked_eq_ok hhd
  refine ⟨?_, Header.uid_pack hu hf, Header.fields_pack hu hf⟩
  rw [Header.isClosure, Header.kind_pack hu hf]
  rfl

/-- A closure that is made is of the function, and holds what it is given. -/
theorem closureAt_makeClosure {f : Function} (B : h.Bounded) (hp : h.planClosure f vs = .ok p)
    (hr : p.value.ref? = some r) (hc : (h.place p.contents).closureAt r = some c) :
    c.header.uid = f.uid ∧ c.entry = f.label ∧ c.arity = (Word.ofNat f.arity : Word w).toNat ∧
      c.captured = vs.length ∧ vs.length ≤ f.arity := by
  obtain ⟨header, hle, hhd, _, rfl⟩ := planClosure_eq_ok hp
  cases hr.symm.trans (B.ref?_hp false)
  obtain ⟨hk, huid, hfields⟩ := isClosure_of_checked hhd
  cases (closureAt_place hk).symm.trans hc
  exact ⟨huid, Label.ofNat_toNat_ofNat f.label, rfl, hfields, hle⟩

/-- A closure that is extended is a new one of the same function. -/
theorem closureAt_extend {d : ClosureView w} (B : h.Bounded) (hcl : h.closureAt c.object = some c)
    (hp : h.planExtend c vs = .ok p) (hr : p.value.ref? = some r)
    (hd : (h.place p.contents).closureAt r = some d) : c.Extends vs.length d := by
  obtain ⟨header, hhd, _, rfl⟩ := planExtend_eq_ok hcl hp
  cases hr.symm.trans (B.ref?_hp false)
  obtain ⟨hk, huid, hfields⟩ := isClosure_of_checked hhd
  cases (closureAt_place hk).symm.trans hd
  obtain ⟨_, _, hview⟩ := closureAt_eq_some hcl
  exact ⟨huid, (congrArg ClosureView.entry hview).symm, (congrArg ClosureView.arity hview).symm,
    hfields⟩

end Heap

end Trampoline
