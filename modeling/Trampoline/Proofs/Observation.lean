import Trampoline.Proofs.Twins

/-!
What can be read from twin heaps.

Components and fields of related blocks are related words, and related closures have the same entry
and arity and related arguments. Objects planned on both sides from related words become a new pair
of blocks.
-/

namespace Trampoline

variable {w : Width}

/-- Where a shape can be read, it is the shape of the block. -/
theorem Space.shape_eq_ok {s : Space w} {r : Ref} {x : Shape} (h : s.shape r = .ok x) :
    x = s.shapeAt r := by
  unfold shape at h
  unfold shapeAt
  split at h
  · next hp => cases h; rw [if_pos hp]
  · next hp =>
    obtain ⟨v, hv, h⟩ := of_except_bind_eq_ok h
    obtain ⟨_, rfl⟩ := read_eq_ok hv
    cases h
    rw [if_neg hp]

theorem Constructor.ref?_unboxedValue {c : Constructor} {v : Word w}
    (hv : c.unboxedValue = .ok v) : v.ref? = none := by
  unfold Constructor.unboxedValue at hv
  split at hv
  · cases hv
  · obtain ⟨header, hhd, hv⟩ := of_except_bind_eq_ok hv
    obtain ⟨hu, hf, rfl⟩ := Header.checked_eq_ok hhd
    cases hv
    exact Word.ref?_of_isHeader (Header.isHeader_pack hu hf)

namespace Heap

/-! ### Reading one heap -/

variable {h k : Heap w}

theorem header_eq_ok {r : Ref} {hd : Header w} (hr : h.header r = .ok hd) :
    r.pair = false ∧ hd = ⟨h.space.cell r.offset⟩ := by
  unfold Heap.header at hr
  cases hp : r.pair with
  | true =>
    rw [hp] at hr
    cases hr
  | false =>
    rw [hp] at hr
    obtain ⟨v, hv, hr⟩ := of_except_bind_eq_ok hr
    obtain ⟨_, rfl⟩ := Space.read_eq_ok hv
    refine ⟨rfl, ?_⟩
    split at hr
    · next hx =>
      cases hr
      exact (Word.header?_eq_some hx).2
    · cases hr

theorem load_eq_ok {r : Ref} {i : Nat} {v : Word w} (hr : h.load r i = .ok v) :
    v = h.space.cell (r.offset + i) :=
  (Space.read_eq_ok hr).2

theorem expectRef_eq_ok {v : Word w} {r : Ref} (hv : expectRef v = .ok r) : v.ref? = some r := by
  unfold expectRef at hv
  split at hv
  · next hr => cases hv; exact hr
  · cases hv

/-- The header of a block of a layout can be read. -/
theorem header_of_layout {D : Set Ref} (B : h.Bounded) (L : h.space.Layout h.hp D) {r : Ref}
    (hr : r ∈ D) (hp : r.pair = false) : h.header r = .ok ⟨h.space.cell r.offset⟩ := by
  have hhd : (h.space.cell r.offset).header? = some ⟨h.space.cell r.offset⟩ := by
    rw [Word.header?, if_pos (L.headed r hr hp)]
  have hread : h.space.read r.offset = .ok (h.space.cell r.offset) := by
    have hwithin := L.within r hr
    have hpos := h.space.extent_pos r
    have hcap := B.hp_le
    exact Space.read_eq (show _ < h.capacity by omega)
  simp only [header, hp, hread, bind, Except.bind, hhd, pure, Except.pure]
  rfl

def closureAt (h : Heap w) (r : Ref) : Option (ClosureView w) :=
  if r.pair = false ∧ (Header.mk (h.space.cell r.offset)).isClosure = true then
    some ⟨r, ⟨h.space.cell r.offset⟩, .ofNat (h.space.cell (r.offset + 1)).toNat,
      (h.space.cell (r.offset + 2)).toNat⟩
  else none

/-- What is found of a closure is what is there. -/
theorem closure?_eq_ok {v : Word w} {c : Option (ClosureView w)} (hc : h.closure? v = .ok c) :
    c = v.ref?.bind h.closureAt := by
  unfold closure? at hc
  cases hr : v.ref? with
  | none =>
    rw [hr] at hc
    cases hc
    rfl
  | some r =>
    rw [hr] at hc
    cases hp : r.pair with
    | true =>
      simp only [hp, if_true] at hc
      cases hc
      simp [closureAt, hp]
    | false =>
      simp only [hp, Bool.false_eq_true, if_false] at hc
      obtain ⟨hd, hhd, hc⟩ := of_except_bind_eq_ok hc
      obtain ⟨_, rfl⟩ := header_eq_ok hhd
      cases hcl : (Header.mk (h.space.cell r.offset)).isClosure with
      | false =>
        simp only [hcl, Bool.not_false, if_true] at hc
        cases hc
        simp [closureAt, hcl]
      | true =>
        simp only [hcl, Bool.not_true, Bool.false_eq_true, if_false] at hc
        obtain ⟨entry, hentry, hc⟩ := of_except_bind_eq_ok hc
        obtain ⟨arity, harity, hc⟩ := of_except_bind_eq_ok hc
        obtain ⟨_, rfl⟩ := Space.read_eq_ok hentry
        obtain ⟨_, rfl⟩ := Space.read_eq_ok harity
        cases hc
        simp [closureAt, hp, hcl]

/-- What is seen of a closure are the first words of its block. -/
theorem closureAt_eq_some {r : Ref} {c : ClosureView w} (hc : h.closureAt r = some c) :
    r.pair = false ∧ (Header.mk (h.space.cell r.offset)).isClosure = true ∧
      c = ⟨r, ⟨h.space.cell r.offset⟩, .ofNat (h.space.cell (r.offset + 1)).toNat,
        (h.space.cell (r.offset + 2)).toNat⟩ := by
  unfold closureAt at hc
  split at hc
  · next hr => exact ⟨hr.1, hr.2, (Option.some.inj hc).symm⟩
  · cases hc

theorem shapeAt_of_closure {r : Ref} {c : ClosureView w} (hc : h.closureAt r = some c) :
    c.object = r ∧ h.space.shapeAt r = ⟨3, c.captured⟩ := by
  obtain ⟨hpair, hclosure, rfl⟩ := closureAt_eq_some hc
  have hk : (Header.mk (h.space.cell r.offset)).kind = .closure := by
    simpa [Header.isClosure] using hclosure
  exact ⟨rfl, by simp [Space.shapeAt, hpair, Header.shape, hk, Shape.closure, ClosureView.captured]⟩

/-- The raw words of a closure: its header, entry and arity. -/
theorem leads_of_closure {r : Ref} {c : ClosureView w} (hc : h.closureAt r = some c) :
    h.space.leads r =
      [h.space.cell r.offset, h.space.cell (r.offset + 1), h.space.cell (r.offset + 2)] := by
  rw [Space.leads, (shapeAt_of_closure hc).2]
  rfl

/-- A field that was read is a word of a headed block, within the count of its header. -/
theorem field_eq_ok {v x : Word w} {i : Nat} (hx : h.field v i = .ok x) :
    ∃ r, v.ref? = some r ∧ r.pair = false ∧ i < (Header.mk (h.space.cell r.offset)).fields ∧
      x = h.space.cell (r.offset + 1 + i) := by
  unfold Heap.field at hx
  obtain ⟨r, hr, hx⟩ := of_except_bind_eq_ok hx
  cases hp : r.pair with
  | true =>
    rw [hp] at hx
    cases hx
  | false =>
    rw [hp] at hx
    obtain ⟨hd, hhd, hx⟩ := of_except_bind_eq_ok hx
    obtain ⟨_, rfl⟩ := header_eq_ok hhd
    split at hx
    · cases hx
    · next hi =>
      refine ⟨r, expectRef_eq_ok hr, hp, Nat.not_le.mp hi, ?_⟩
      rw [load_eq_ok hx, Nat.add_assoc]

theorem fst_eq_ok {v x : Word w} (hx : h.fst v = .ok x) :
    ∃ r, v.ref? = some r ∧ r.pair = true ∧ x = h.space.cell (r.offset + 0) := by
  unfold Heap.fst at hx
  obtain ⟨r, hr, hx⟩ := of_except_bind_eq_ok hx
  cases hp : r.pair with
  | true =>
    rw [hp] at hx
    exact ⟨r, expectRef_eq_ok hr, hp, load_eq_ok hx⟩
  | false =>
    rw [hp] at hx
    cases hx

theorem snd_eq_ok {v x : Word w} (hx : h.snd v = .ok x) :
    ∃ r, v.ref? = some r ∧ r.pair = true ∧ x = h.space.cell (r.offset + 1) := by
  unfold Heap.snd at hx
  obtain ⟨r, hr, hx⟩ := of_except_bind_eq_ok hx
  cases hp : r.pair with
  | true =>
    rw [hp] at hx
    exact ⟨r, expectRef_eq_ok hr, hp, load_eq_ok hx⟩
  | false =>
    rw [hp] at hx
    cases hx

/-- A headed block that is not a closure is a constructor's. -/
theorem shapeAt_of_no_closure {v : Word w} {r : Ref} (hcl : h.closure? v = .ok none)
    (hr : v.ref? = some r) (hp : r.pair = false) :
    h.space.shapeAt r = ⟨1, (Header.mk (h.space.cell r.offset)).fields⟩ := by
  have hnone := closure?_eq_ok hcl
  rw [hr] at hnone
  cases hk : (Header.mk (h.space.cell r.offset)).kind with
  | constructor => simp [Space.shapeAt, hp, Header.shape, hk, Shape.constructor]
  | closure => simp [closureAt, hp, Header.isClosure, hk] at hnone

theorem closure?_eq_some {v : Word w} {c : ClosureView w} (hc : h.closure? v = .ok (some c)) :
    v.ref? = some c.object ∧ h.closureAt c.object = some c := by
  have hbind := (closure?_eq_ok hc).symm
  obtain ⟨r, hr, hcl⟩ := Option.bind_eq_some_iff.mp hbind
  obtain rfl := (shapeAt_of_closure hcl).1
  exact ⟨hr, hcl⟩

theorem load_of_layout {D : Set Ref} (B : h.Bounded) (L : h.space.Layout h.hp D) {r : Ref}
    (hr : r ∈ D) {i : Nat} (hi : i < h.space.extent r) :
    h.load r i = .ok (h.space.cell (r.offset + i)) := by
  have hwithin := L.within r hr
  have hcap := B.hp_le
  exact Space.read_eq (show _ < h.capacity by omega)

/-- A closure of a layout can be taken apart. -/
theorem closure?_of_closureAt {D : Set Ref} {v : Word w} {c : ClosureView w} (B : h.Bounded)
    (L : h.space.Layout h.hp D) (hr : v.ref? = some c.object)
    (hc : c.object ∈ D) (hcl : h.closureAt c.object = some c) : h.closure? v = .ok (some c) := by
  have hext : c.object.offset + (3 + c.captured) ≤ h.capacity := by
    have hwithin := L.within _ hc
    rw [Space.extent, (shapeAt_of_closure hcl).2] at hwithin
    exact hwithin.trans B.hp_le
  have hread : ∀ i < 3, h.space.read (c.object.offset + i) =
      .ok (h.space.cell (c.object.offset + i)) := by
    intro i hi
    exact Space.read_eq (show _ < h.capacity by omega)
  obtain ⟨hp, hk, hview⟩ := closureAt_eq_some hcl
  simp only [closure?, hr, hp, header_of_layout B L hc hp, hk, bind, Except.bind, word,
    hread 1 (by omega), hread 2 (by omega), pure, Except.pure]
  exact congrArg (fun d => Except.ok (some d)) hview.symm

/-- Any value of a layout can be looked at as a closure. -/
theorem closure?_of_layout {D : Set Ref} {v : Word w} (B : h.Bounded) (L : h.space.Layout h.hp D)
    (hv : v.Into D) : h.closure? v = .ok (v.ref?.bind h.closureAt) := by
  cases hr : v.ref? with
  | none => simp [closure?, hr, pure, Except.pure]
  | some r =>
    have hrD := hv r hr
    cases hcl : h.closureAt r with
    | some c =>
      obtain rfl := (shapeAt_of_closure hcl).1
      rw [closure?_of_closureAt B L hr hrD hcl, Option.bind_some, hcl]
    | none =>
      rw [Option.bind_some, hcl]
      cases hp : r.pair with
      | true => simp [closure?, hr, hp, pure, Except.pure]
      | false =>
        have hk : (Header.mk (h.space.cell r.offset)).isClosure = false := by
          simpa [closureAt, hp] using hcl
        simp [closure?, hr, hp, header_of_layout B L hrD hp, hk, bind, Except.bind, pure,
          Except.pure]

/-- The captured arguments of a closure are its traced words. -/
theorem capturedArgs_eq_ok {c : ClosureView w} {vs : List (Word w)}
    (hcl : h.closureAt c.object = some c) (hv : h.capturedArgs c = .ok vs) :
    vs = h.space.traced c.object := by
  obtain ⟨_, rfl⟩ := Space.slice_eq_ok hv
  rw [Space.traced, (shapeAt_of_closure hcl).2]

/-- The arguments of a closure of a layout can be read. -/
theorem capturedArgs_of_closureAt {D : Set Ref} {c : ClosureView w} (B : h.Bounded)
    (L : h.space.Layout h.hp D) (hc : c.object ∈ D) (hcl : h.closureAt c.object = some c) :
    h.capturedArgs c = .ok (h.space.traced c.object) := by
  have hshape := (shapeAt_of_closure hcl).2
  have hwithin := L.within _ hc
  have hcap := B.hp_le
  rw [Space.extent, hshape] at hwithin
  change _ + (3 + c.captured) ≤ _ at hwithin
  rw [Space.traced, hshape]
  refine Space.slice_eq ?_
  change _ ≤ h.capacity
  omega

/-! ### What is read leads to blocks -/

section

variable {D : Set Ref} {v x : Word w}

theorem into_field (L : h.space.Layout h.hp D) (hv : v.Into D) (hcl : h.closure? v = .ok none)
    {i : Nat} (hx : h.field v i = .ok x) : x.Into D := by
  obtain ⟨r, hr, hp, hi, rfl⟩ := field_eq_ok hx
  have hshape := shapeAt_of_no_closure hcl hr hp
  exact L.closed r (hv r hr) _ (Space.mem_traced.mpr ⟨i, by rw [hshape]; exact hi, by rw [hshape]⟩)

theorem into_component (L : h.space.Layout h.hp D) {r : Ref} (hr : r ∈ D) (hp : r.pair = true)
    {i : Nat} (hi : i < 2) : (h.space.cell (r.offset + i)).Into D := by
  have hshape : h.space.shapeAt r = ⟨0, 2⟩ := by simp [Space.shapeAt, hp, Shape.pair]
  exact L.closed r hr _ (Space.mem_traced.mpr ⟨i, by rw [hshape]; exact hi, by rw [hshape]; rfl⟩)

theorem into_fst (L : h.space.Layout h.hp D) (hv : v.Into D) (hx : h.fst v = .ok x) :
    x.Into D := by
  obtain ⟨r, hr, hp, rfl⟩ := fst_eq_ok hx
  exact into_component L (hv r hr) hp (by omega)

theorem into_snd (L : h.space.Layout h.hp D) (hv : v.Into D) (hx : h.snd v = .ok x) :
    x.Into D := by
  obtain ⟨r, hr, hp, rfl⟩ := snd_eq_ok hx
  exact into_component L (hv r hr) hp (by omega)

theorem into_capturedArgs (L : h.space.Layout h.hp D) (hv : v.Into D) {c : ClosureView w}
    (hc : h.closure? v = .ok (some c)) {xs : List (Word w)} (hxs : h.capturedArgs c = .ok xs) :
    ∀ x ∈ xs, x.Into D := by
  obtain ⟨hr, hcl⟩ := closure?_eq_some hc
  rw [capturedArgs_eq_ok hcl hxs]
  exact L.closed _ (hv _ hr)

end

/-! ### Reading twins -/

/-- Related blocks are closures on both sides or on none, with the same leading words. -/
theorem closureAt_matched {φ : Ref → Ref → Prop} (M : h.space.Matched k.space φ) {a b : Ref}
    (hab : φ a b) : k.closureAt b = (h.closureAt a).map fun c => { c with object := b } := by
  have hpair := M.pair hab
  unfold closureAt
  rw [← hpair]
  cases hp : a.pair with
  | true => simp
  | false =>
    rw [← M.header hab hp]
    cases hcl : (Header.mk (h.space.cell a.offset)).isClosure with
    | false => simp
    | true =>
      have hk : (Header.mk (h.space.cell a.offset)).kind = .closure := by
        simpa [Header.isClosure] using hcl
      have hlead : (h.space.shapeAt a).lead = 3 := by
        simp [Space.shapeAt, hp, Header.shape, hk, Shape.closure]
      rw [← M.cell_lead hab (i := 1) (by omega),
        ← M.cell_lead hab (i := 2) (by omega)]
      simp

/-- Two heaps whose related blocks look the same and can be read on both sides. -/
structure Mirrors (φ : Ref → Ref → Prop) (h k : Heap w) : Prop where
  left : h.Bounded
  right : k.Bounded
  layout : h.space.Layout h.hp {a | ∃ b, φ a b}
  layout' : k.space.Layout k.hp {b | ∃ a, φ a b}
  matched : h.space.Matched k.space φ

namespace Mirrors

variable {φ : Ref → Ref → Prop} {a b : Ref} {v u : Word w}

theorem header (R : Mirrors φ h k) (hab : φ a b) (hp : a.pair = false) :
    h.header a = .ok ⟨h.space.cell a.offset⟩ ∧ k.header b = .ok ⟨h.space.cell a.offset⟩ := by
  refine ⟨header_of_layout R.left R.layout ⟨b, hab⟩ hp, ?_⟩
  rw [R.matched.header hab hp]
  exact header_of_layout R.right R.layout' ⟨a, hab⟩ ((R.matched.pair hab).symm.trans hp)

/-- Related words are closures on both sides or on none, and differ in where they lie. -/
theorem closure? (R : Mirrors φ h k) (hvu : Word.Matched φ v u) :
    (h.closure? v = .ok none ∧ k.closure? u = .ok none) ∨
    ∃ c b, h.closure? v = .ok (some c) ∧ k.closure? u = .ok (some { c with object := b }) ∧
      φ c.object b := by
  rw [closure?_of_layout R.left R.layout hvu.into.1,
    closure?_of_layout R.right R.layout' hvu.into.2]
  cases hvu with
  | same hv hu =>
    rw [hu, hv]
    exact .inl ⟨rfl, rfl⟩
  | @moved a b ha hb hab =>
    rw [ha, hb, Option.bind_some, Option.bind_some, closureAt_matched R.matched hab]
    cases hcl : h.closureAt a with
    | none => exact .inl ⟨rfl, rfl⟩
    | some c => exact .inr ⟨c, b, rfl, rfl, (shapeAt_of_closure hcl).1.symm ▸ hab⟩

end Mirrors

namespace Twins

variable {W : Pairing} {v u x y : Word w} {vs us : List (Word w)}

theorem mirrors (T : Twins W h k) : Mirrors W.Links h k :=
  ⟨T.left, T.right, T.layout, T.layout', T.matched⟩

theorem closureAt_eq (T : Twins W h k) {a b : Ref} (hab : W.Links a b) :
    k.closureAt b = (h.closureAt a).map fun c => { c with object := b } :=
  closureAt_matched T.matched hab

/-- Related words are closures on both sides or on none. -/
theorem closure? (T : Twins W h k) (hvu : Word.Matched W.Links v u)
    {c d : Option (ClosureView w)} (hc : h.closure? v = .ok c) (hd : k.closure? u = .ok d) :
    (c = none ∧ d = none) ∨ ∃ cl b, c = some cl ∧ d = some { cl with object := b } ∧
      W.Links cl.object b ∧ h.closureAt cl.object = some cl := by
  obtain ⟨hc', hd'⟩ | ⟨cl, b, hc', hd', hab⟩ := T.mirrors.closure? hvu
  · rw [hc] at hc'
    rw [hd] at hd'
    cases hc'
    cases hd'
    exact .inl ⟨rfl, rfl⟩
  · have hcl := (closure?_eq_some hc').2
    rw [hc] at hc'
    rw [hd] at hd'
    cases hc'
    cases hd'
    exact .inr ⟨cl, b, rfl, rfl, hab, hcl⟩

theorem capturedArgs (T : Twins W h k) {c : ClosureView w} {b : Ref}
    (hcl : h.closureAt c.object = some c) (hcb : W.Links c.object b)
    (hv : h.capturedArgs c = .ok vs) (hu : k.capturedArgs { c with object := b } = .ok us) :
    List.Forall₂ (Word.Matched W.Links) vs us := by
  have hcl' : k.closureAt b = some { c with object := b } := by
    rw [T.closureAt_eq hcb, hcl]
    rfl
  rw [capturedArgs_eq_ok hcl hv, capturedArgs_eq_ok (c := { c with object := b }) hcl' hu]
  exact T.matched.traced hcb

/-- A field of a block that is not a closure. -/
theorem field (T : Twins W h k) (hvu : Word.Matched W.Links v u) {i : Nat}
    (hcl : h.closure? v = .ok none) (hx : h.field v i = .ok x) (hy : k.field u i = .ok y) :
    Word.Matched W.Links x y := by
  obtain ⟨a, ha, hp, hi, rfl⟩ := field_eq_ok hx
  obtain ⟨b, hb, _, _, rfl⟩ := field_eq_ok hy
  obtain ⟨b', hb', hab⟩ := hvu.of_some ha
  rw [hb] at hb'
  cases hb'
  have hshape := shapeAt_of_no_closure hcl ha hp
  have hword := T.matched.cell_traced hab (i := i) (by rw [hshape]; exact hi)
  rwa [hshape] at hword

/-- A component of a pair. -/
theorem component (T : Twins W h k) (hvu : Word.Matched W.Links v u) {a b : Ref}
    (ha : v.ref? = some a) (hb : u.ref? = some b) (hp : a.pair = true) {i : Nat} (hi : i < 2) :
    Word.Matched W.Links (h.space.cell (a.offset + i)) (k.space.cell (b.offset + i)) := by
  obtain ⟨b', hb', hab⟩ := hvu.of_some ha
  rw [hb] at hb'
  cases hb'
  have hshape : h.space.shapeAt a = .pair := by simp [Space.shapeAt, hp]
  have hword := T.matched.cell_traced hab (i := i) (by rw [hshape]; exact hi)
  rwa [hshape] at hword

theorem fst (T : Twins W h k) (hvu : Word.Matched W.Links v u)
    (hx : h.fst v = .ok x) (hy : k.fst u = .ok y) : Word.Matched W.Links x y := by
  obtain ⟨a, ha, hp, rfl⟩ := fst_eq_ok hx
  obtain ⟨b, hb, _, rfl⟩ := fst_eq_ok hy
  exact T.component hvu ha hb hp (by omega)

theorem snd (T : Twins W h k) (hvu : Word.Matched W.Links v u)
    (hx : h.snd v = .ok x) (hy : k.snd u = .ok y) : Word.Matched W.Links x y := by
  obtain ⟨a, ha, hp, rfl⟩ := snd_eq_ok hx
  obtain ⟨b, hb, _, rfl⟩ := snd_eq_ok hy
  exact T.component hvu ha hb hp (by omega)

end Twins

/-! ### New objects -/

/-- What is left of a reservation can be handed out. -/
theorem Bounded.room_eq (B : h.Bounded) {words : Nat} (hfit : h.hp + words ≤ h.limit) :
    h.room words = .ok h.hp := by
  have hlimit := B.limit_le.trans (B.capacity_le.trans B.max_le)
  have hsize : w.maxOffset < sizeRange := by cases w <;> decide
  have hadd : Size.add (w := w) h.hp words = .ok (h.hp + words) := by
    rw [Size.add, if_pos (by omega)]
  simp only [room, hadd, bind, Except.bind, if_neg (Nat.not_lt.mpr hfit)]
  rfl

theorem Bounded.span_eq (B : h.Bounded) {words : Nat} (hfit : h.hp + words ≤ h.limit) :
    h.span words = .ok h.hp := by
  rw [span, B.room_eq hfit]
  exact if_neg (Nat.not_lt.mpr (hfit.trans B.limit_le))

/-- A constructor's value is immediate, or a block of its header and the fields. -/
theorem planConstruct_eq_ok {c : Constructor} {vs : List (Word w)} {p : Plan w}
    (hp : h.planConstruct c vs = .ok p) :
    vs.length = c.fields ∧
      ((c.representation = .unboxed ∧ ∃ v, c.unboxedValue = .ok v ∧ p = ⟨v, []⟩) ∨
        (c.representation = .boxed ∧ ∃ header, c.header = .ok header ∧
          h.hp + (1 + vs.length) ≤ h.limit ∧
          p = ⟨(Ref.mk h.hp false).word, [header.word] ++ vs⟩)) := by
  unfold Heap.planConstruct at hp
  by_cases hlen : vs.length ≠ c.fields
  · rw [if_pos hlen] at hp
    cases hp
  rw [if_neg hlen] at hp
  refine ⟨not_not.mp hlen, ?_⟩
  cases hrep : c.representation with
  | unboxed =>
    rw [hrep] at hp
    obtain ⟨v, hv, hp⟩ := of_except_bind_eq_ok hp
    cases hp
    exact .inl ⟨rfl, v, hv, rfl⟩
  | boxed =>
    rw [hrep] at hp
    obtain ⟨offset, hspan, hp⟩ := of_except_bind_eq_ok hp
    obtain ⟨header, hhd, hp⟩ := of_except_bind_eq_ok hp
    obtain ⟨r, hr, hp⟩ := of_except_bind_eq_ok hp
    obtain ⟨rfl, hfit, _⟩ := span_eq_ok hspan
    obtain ⟨_, rfl⟩ := Ref.checked_eq_ok hr
    cases hp
    exact .inr ⟨rfl, header, hhd, hfit, rfl⟩

theorem planPair_eq_ok {fst snd : Word w} {p : Plan w} (hp : h.planPair fst snd = .ok p) :
    h.hp + 2 ≤ h.limit ∧ p = ⟨(Ref.mk h.hp true).word, [fst, snd]⟩ := by
  unfold Heap.planPair at hp
  obtain ⟨offset, hspan, hp⟩ := of_except_bind_eq_ok hp
  obtain ⟨r, hr, hp⟩ := of_except_bind_eq_ok hp
  obtain ⟨rfl, hfit, _⟩ := span_eq_ok hspan
  obtain ⟨_, rfl⟩ := Ref.checked_eq_ok hr
  cases hp
  exact ⟨hfit, rfl⟩

/-- The words of a closure: header, entry, arity, and what it holds. -/
theorem planClosure_eq_ok {f : Function} {vs : List (Word w)} {p : Plan w}
    (hp : h.planClosure f vs = .ok p) :
    ∃ header, vs.length ≤ f.arity ∧ Header.checked .closure f.uid vs.length = .ok header ∧
      h.hp + (3 + vs.length) ≤ h.limit ∧
      p = ⟨(Ref.mk h.hp false).word,
        [header.word, .ofNat f.label.index, .ofNat f.arity] ++ vs⟩ := by
  unfold Heap.planClosure at hp
  by_cases hmany : f.arity < vs.length
  · rw [if_pos hmany] at hp
    cases hp
  rw [if_neg hmany] at hp
  obtain ⟨offset, hspan, hp⟩ := of_except_bind_eq_ok hp
  obtain ⟨header, hhd, hp⟩ := of_except_bind_eq_ok hp
  obtain ⟨r, hr, hp⟩ := of_except_bind_eq_ok hp
  obtain ⟨rfl, hfit, _⟩ := span_eq_ok hspan
  obtain ⟨_, rfl⟩ := Ref.checked_eq_ok hr
  cases hp
  exact ⟨header, Nat.not_lt.mp hmany, hhd, hfit, rfl⟩

/-- The words of a closure that holds more arguments. -/
theorem planExtend_eq_ok {c : ClosureView w} {vs : List (Word w)} {p : Plan w}
    (hcl : h.closureAt c.object = some c) (hp : h.planExtend c vs = .ok p) :
    ∃ header, Header.checked .closure c.header.uid (c.captured + vs.length) = .ok header ∧
      h.hp + (3 + (c.captured + vs.length)) ≤ h.limit ∧
      p = ⟨(Ref.mk h.hp false).word,
        [header.word, h.space.cell (c.object.offset + 1), h.space.cell (c.object.offset + 2)] ++
          (h.space.traced c.object ++ vs)⟩ := by
  have hshape := (shapeAt_of_closure hcl).2
  have hlead := leads_of_closure hcl
  have hblock := h.space.segment_extent c.object
  rw [Space.extent, hshape, hlead] at hblock
  unfold Heap.planExtend at hp
  obtain ⟨⟨offset, words⟩, hcopy, hp⟩ := of_except_bind_eq_ok hp
  obtain ⟨header, hhd, hp⟩ := of_except_bind_eq_ok hp
  obtain ⟨r, hr, hp⟩ := of_except_bind_eq_ok hp
  obtain ⟨_, rfl, hfit, _, rfl⟩ := planCopy_eq_ok hcopy
  obtain ⟨_, rfl⟩ := Ref.checked_eq_ok hr
  cases hp
  refine ⟨header, hhd, hfit, ?_⟩
  simp only [Shape.closure] at hblock ⊢
  rw [hblock]
  simp

/-- Plans for one object on both sides: the same immediate value, or blocks of related words. -/
inductive Planned (W : Pairing) (h k : Heap w) : Plan w → Plan w → Prop where
  | value {v : Word w} : v.ref? = none → Planned W h k ⟨v, []⟩ ⟨v, []⟩
  | block {pair : Bool} {lead xs ys : List (Word w)} : Block pair lead xs →
      List.Forall₂ (Word.Matched W.Links) xs ys →
      (∀ header entry arity, lead = [header, entry, arity] →
        (Label.ofNat entry.toNat).isReserved = false) →
      h.hp + (lead ++ xs).length ≤ h.limit → k.hp + (lead ++ ys).length ≤ k.limit →
      Planned W h k ⟨(Ref.mk h.hp pair).word, lead ++ xs⟩ ⟨(Ref.mk k.hp pair).word, lead ++ ys⟩

/-- Carrying out plans for one object keeps twins. -/
theorem Twins.build {W : Pairing} (T : Twins W h k) {p q : Plan w} (P : Planned W h k p q) :
    ∃ V, W ⊆ V ∧ Twins V (h.place p.contents) (k.place q.contents) ∧
      Word.Matched V.Links p.value q.value := by
  cases P with
  | value hv => exact ⟨W, List.Subset.refl W, T, .refl_of_none hv⟩
  | @block pair lead xs ys B hxy henter hroom kroom =>
    refine ⟨_, List.subset_cons_self _ W, T.place B hxy henter hroom kroom, ?_⟩
    exact .moved (T.left.ref?_hp pair) (T.right.ref?_hp pair)
      (Pairing.links_cons.mpr (.inl ⟨rfl, rfl⟩))

def leadWords : Kind → Nat
  | .constructor => 1
  | .closure => 3

/-- A checked header stands at the front of a block of its kind. -/
theorem block_of_checked {kind : Kind} {uid : Nat} {header : Header w} {rest xs : List (Word w)}
    (hc : Header.checked kind uid xs.length = .ok header)
    (hrest : rest.length + 1 = leadWords kind) :
    Block false (header.word :: rest) xs := by
  obtain ⟨hu, hf, rfl⟩ := Header.checked_eq_ok hc
  refine .headed (Header.isHeader_pack hu hf) ?_
  have hk : (Header.pack kind uid xs.length : Header w).kind = kind := Header.kind_pack hu hf
  have hfields : (Header.pack kind uid xs.length : Header w).fields = xs.length :=
    Header.fields_pack hu hf
  simp only [Header.shape, hk, hfields]
  cases kind with
  | constructor => rw [hrest]; rfl
  | closure => rw [hrest]; rfl

namespace Twins

variable {W : Pairing} {p q : Plan w} {vs us : List (Word w)}

/-- The plans for one constructor on both sides are of related words. -/
theorem construct (_ : Twins W h k) {c : Constructor}
    (hvs : List.Forall₂ (Word.Matched W.Links) vs us) (hp : h.planConstruct c vs = .ok p)
    (hq : k.planConstruct c us = .ok q) : Planned W h k p q := by
  obtain ⟨hlen, ⟨hrep, v, hv, rfl⟩ | ⟨hrep, header, hhd, hfit, rfl⟩⟩ := planConstruct_eq_ok hp
  · obtain ⟨_, ⟨_, u, hu, rfl⟩ | ⟨hbox, _⟩⟩ := planConstruct_eq_ok hq
    · rw [hv] at hu
      cases hu
      exact .value (Constructor.ref?_unboxedValue hv)
    · rw [hrep] at hbox
      cases hbox
  · obtain ⟨_, ⟨hunbox, _⟩ | ⟨_, header', hhd', kfit, rfl⟩⟩ := planConstruct_eq_ok hq
    · rw [hrep] at hunbox
      cases hunbox
    rw [hhd] at hhd'
    cases hhd'
    rw [Constructor.header, ← hlen] at hhd
    refine .block (block_of_checked hhd rfl) hvs (by simp) ?_ ?_
    · simpa [Nat.add_comm] using hfit
    · simpa [Nat.add_comm] using kfit

theorem makePair (_ : Twins W h k) {v u x y : Word w} (hvu : Word.Matched W.Links v u)
    (hxy : Word.Matched W.Links x y) (hp : h.planPair v x = .ok p) (hq : k.planPair u y = .ok q) :
    Planned W h k p q := by
  obtain ⟨hfit, rfl⟩ := planPair_eq_ok hp
  obtain ⟨kfit, rfl⟩ := planPair_eq_ok hq
  exact @Planned.block w W h k true [] [v, x] [u, y] (.pair v x) (.cons hvu (.cons hxy .nil))
    (by simp) hfit kfit

/-- The plans for one closure on both sides are of related words. -/
theorem makeClosure (_ : Twins W h k) {f : Function} (hlabel : f.label.isReserved = false)
    (hvs : List.Forall₂ (Word.Matched W.Links) vs us) (hp : h.planClosure f vs = .ok p)
    (hq : k.planClosure f us = .ok q) : Planned W h k p q := by
  obtain ⟨header, _, hhd, hfit, rfl⟩ := planClosure_eq_ok hp
  obtain ⟨header', _, hhd', kfit, rfl⟩ := planClosure_eq_ok hq
  rw [← hvs.length_eq] at hhd'
  rw [hhd] at hhd'
  cases hhd'
  refine .block (block_of_checked hhd rfl) hvs ?_ ?_ ?_
  · rintro _ _ _ ⟨⟩
    rw [Label.ofNat_toNat_ofNat]
    exact hlabel
  · simp only [List.length_append, List.length_cons, List.length_nil]
    omega
  · simp only [List.length_append, List.length_cons, List.length_nil]
    omega

/-- The plans for one extension on both sides are of related words, and both keep what the source
held. -/
theorem extend (T : Twins W h k) {c : ClosureView w} {b : Ref}
    (hcl : h.closureAt c.object = some c) (hcb : W.Links c.object b)
    (hvs : List.Forall₂ (Word.Matched W.Links) vs us) (hp : h.planExtend c vs = .ok p)
    (hq : k.planExtend { c with object := b } us = .ok q) : Planned W h k p q := by
  have hshape := (shapeAt_of_closure hcl).2
  have hcl' : k.closureAt b = some { c with object := b } := by
    rw [T.closureAt_eq hcb, hcl]
    rfl
  obtain ⟨header, hhd, hfit, rfl⟩ := planExtend_eq_ok hcl hp
  obtain ⟨header', hhd', kfit, rfl⟩ := planExtend_eq_ok hcl' hq
  simp only [ClosureView.captured, ← hvs.length_eq] at hhd hhd' hfit kfit
  rw [hhd] at hhd'
  cases hhd'
  have htraced := T.matched.traced hcb
  have hlen : (h.space.traced c.object).length = c.captured := by
    rw [Space.traced, Space.length_segment, hshape]
  have hlen' : (k.space.traced b).length = c.captured := by rw [← htraced.length_eq, hlen]
  rw [← T.matched.cell_lead hcb (i := 1) (by simp [hshape]),
    ← T.matched.cell_lead hcb (i := 2) (by simp [hshape])]
  have hcount : Header.checked .closure c.header.uid (h.space.traced c.object ++ vs).length =
      .ok header := by
    rw [List.length_append, hlen]
    exact hhd
  refine .block (block_of_checked hcount rfl) ?_ ?_ ?_ ?_
  · exact List.rel_append htraced hvs
  · rintro _ _ _ ⟨⟩
    exact T.enters c.object ⟨b, hcb⟩ _ _ _ (leads_of_closure hcl)
  · simp only [List.length_append, List.length_cons, List.length_nil, hlen, ClosureView.captured]
    omega
  · simp only [List.length_append, List.length_cons, List.length_nil, hlen', ← hvs.length_eq,
      ClosureView.captured]
    omega

end Twins

end Heap

end Trampoline
