import Mathlib.Algebra.BigOperators.Finprod
import Mathlib.Data.List.Forall2
import Mathlib.Order.Interval.Finset.Nat
import Trampoline.Proofs.Blocks

/-!
The graph of blocks in a space.

A layout is a set of blocks that lie apart from each other, with no reference leading out of it.
Two spaces are matched by a relation between references when related blocks have the same shape and
leading words, and traced words that are related one by one. The relation is one to one, so that
sharing and cycles look the same from both sides.
-/

namespace Trampoline

/-- A word whose reference, if it is one, is in the set. -/
def Word.Into {w : Width} (D : Set Ref) (v : Word w) : Prop := ∀ r, v.ref? = some r → r ∈ D

theorem Word.into_of_none {w : Width} {D : Set Ref} {v : Word w} (h : v.ref? = none) : v.Into D := by
  intro r hr
  rw [h] at hr
  cases hr

theorem Word.Into.mono {w : Width} {D E : Set Ref} {v : Word w} (h : v.Into D) (hDE : D ⊆ E) :
    v.Into E := fun r hr => hDE (h r hr)

instance {w : Width} (v : Word w) (B : List Ref) : Decidable (v.Into {r | r ∈ B}) :=
  decidable_of_iff (∀ r ∈ v.ref?, r ∈ B) Iff.rfl

instance {w : Width} (vs : List (Word w)) (B : List Ref) :
    Decidable (∀ v ∈ vs, v.Into {r | r ∈ B}) :=
  List.decidableBAll _ vs

namespace Space

variable {w : Width}

def Apart (s : Space w) (a b : Ref) : Prop :=
  a.offset + s.extent a ≤ b.offset ∨ b.offset + s.extent b ≤ a.offset

/-- A set of blocks below `stop`, apart from each other, that no reference leads out of. -/
structure Layout (s : Space w) (stop : Nat) (D : Set Ref) : Prop where
  within : ∀ r ∈ D, r.offset + s.extent r ≤ stop
  headed : ∀ r ∈ D, r.pair = false → (s.cell r.offset).isHeader = true
  apart : ∀ a ∈ D, ∀ b ∈ D, a ≠ b → s.Apart a b
  closed : ∀ r ∈ D, ∀ v ∈ s.traced r, v.Into D

/-- Whether a list of blocks is a layout can be checked. -/
instance (s : Space w) (stop : Nat) (B : List Ref) : Decidable (s.Layout stop {r | r ∈ B}) :=
  decidable_of_iff
    ((∀ r ∈ B, r.offset + s.extent r ≤ stop) ∧
      (∀ r ∈ B, r.pair = false → (s.cell r.offset).isHeader = true) ∧
      (∀ a ∈ B, ∀ b ∈ B, a ≠ b →
        a.offset + s.extent a ≤ b.offset ∨ b.offset + s.extent b ≤ a.offset) ∧
      ∀ r ∈ B, ∀ v ∈ s.traced r, v.Into {r | r ∈ B})
    ⟨fun ⟨hw, hh, ha, hc⟩ => ⟨hw, hh, ha, hc⟩, fun ⟨hw, hh, ha, hc⟩ => ⟨hw, hh, ha, hc⟩⟩

inductive Reachable (s : Space w) (roots : List (Word w)) : Ref → Prop where
  | root {v : Word w} {r : Ref} : v ∈ roots → v.ref? = some r → Reachable s roots r
  | child {a r : Ref} {v : Word w} :
      Reachable s roots a → v ∈ s.traced a → v.ref? = some r → Reachable s roots r

/-- Words of all the blocks that can be reached from the roots. -/
noncomputable def liveWords (s : Space w) (roots : List (Word w)) : Nat :=
  ∑ᶠ r ∈ {r | s.Reachable roots r}, s.extent r

def total (s : Space w) (rs : List Ref) : Nat := (rs.map s.extent).sum

@[simp] theorem total_nil (s : Space w) : s.total [] = 0 := rfl
@[simp] theorem total_cons (s : Space w) (r : Ref) (rs : List Ref) :
    s.total (r :: rs) = s.extent r + s.total rs := rfl
@[simp] theorem total_append (s : Space w) (rs ts : List Ref) :
    s.total (rs ++ ts) = s.total rs + s.total ts := by simp [total]

/-- Whatever contains the roots' blocks and has no reference leading out contains all that can be
reached. -/
theorem Reachable.subset {s : Space w} {roots : List (Word w)} {D : Set Ref}
    (hroots : ∀ v ∈ roots, v.Into D) (hclosed : ∀ r ∈ D, ∀ v ∈ s.traced r, v.Into D) {r : Ref}
    (h : s.Reachable roots r) : r ∈ D := by
  induction h with
  | root hv hr => exact hroots _ hv _ hr
  | child _ hv hr ih => exact hclosed _ ih _ hv _ hr

theorem Layout.reachable {s : Space w} {stop : Nat} {D : Set Ref} (L : s.Layout stop D)
    {roots : List (Word w)} (hroots : ∀ v ∈ roots, v.Into D) {r : Ref}
    (h : s.Reachable roots r) : r ∈ D :=
  h.subset hroots L.closed

/-- The blocks of a layout that can be reached are a layout of their own. -/
theorem Layout.live {s : Space w} {stop : Nat} {D : Set Ref} (L : s.Layout stop D)
    {roots : List (Word w)} (hroots : ∀ v ∈ roots, v.Into D) :
    s.Layout stop {r | s.Reachable roots r} where
  within r hr := L.within r (L.reachable hroots hr)
  headed r hr := L.headed r (L.reachable hroots hr)
  apart a ha b hb := L.apart a (L.reachable hroots ha) b (L.reachable hroots hb)
  closed _ hr _ hv _ hc := .child hr hv hc

theorem Apart.symm {s : Space w} {a b : Ref} (h : s.Apart a b) : s.Apart b a := Or.symm h

/-- Two blocks of a layout at one offset are the same block. -/
theorem Layout.eq_of_offset {s : Space w} {stop : Nat} {D : Set Ref} (L : s.Layout stop D)
    {a b : Ref} (ha : a ∈ D) (hb : b ∈ D) (h : a.offset = b.offset) : a = b := by
  by_contra hne
  have hpa := s.extent_pos a
  have hpb := s.extent_pos b
  rcases L.apart a ha b hb hne with hab | hba <;> omega

theorem Layout.finite {s : Space w} {stop : Nat} {D : Set Ref} (L : s.Layout stop D) :
    D.Finite := by
  have hinj : Set.InjOn Ref.offset D := fun a ha b hb h => L.eq_of_offset ha hb h
  refine Set.Finite.of_injOn (t := Set.Iio stop) (fun r hr => ?_) hinj (Set.finite_Iio stop)
  have hle := L.within r hr
  have hpos := s.extent_pos r
  exact Set.mem_Iio.mpr (by omega)

/-- No block of a layout starts inside another one. -/
theorem Layout.not_inside {s : Space w} {stop : Nat} {D : Set Ref} (L : s.Layout stop D)
    {a b : Ref} (ha : a ∈ D) (hb : b ∈ D) {i : Nat} (hi : i < s.extent a)
    (h : b.offset = a.offset + i) : b = a := by
  by_contra hne
  have hpb := s.extent_pos b
  rcases L.apart b hb a ha hne with hba | hab <;> omega

/-- Different blocks of a layout take different words, all of them below `stop`. -/
theorem Layout.total_le {s : Space w} {stop : Nat} {D : Set Ref} (L : s.Layout stop D)
    {rs : List Ref} (hnd : rs.Nodup) (hD : ∀ r ∈ rs, r ∈ D) : s.total rs ≤ stop := by
  classical
  have hsum : s.total rs = ∑ r ∈ rs.toFinset, s.extent r :=
    (List.sum_toFinset s.extent hnd).symm
  have hcard : ∀ r, s.extent r = (Finset.Ico r.offset (r.offset + s.extent r)).card := by
    intro r
    rw [Nat.card_Ico]
    omega
  have hdisj : ∀ a ∈ rs.toFinset, ∀ b ∈ rs.toFinset, a ≠ b →
      Disjoint (Finset.Ico a.offset (a.offset + s.extent a))
        (Finset.Ico b.offset (b.offset + s.extent b)) := by
    intro a ha b hb hne
    rw [Finset.disjoint_left]
    intro i hia hib
    rw [Finset.mem_Ico] at hia hib
    rcases L.apart a (hD a (List.mem_toFinset.mp ha)) b (hD b (List.mem_toFinset.mp hb)) hne with
      h | h <;> omega
  calc s.total rs
      = ∑ r ∈ rs.toFinset, (Finset.Ico r.offset (r.offset + s.extent r)).card := by
        rw [hsum]
        exact Finset.sum_congr rfl fun r _ => hcard r
    _ = (rs.toFinset.biUnion fun r => Finset.Ico r.offset (r.offset + s.extent r)).card :=
        (Finset.card_biUnion hdisj).symm
    _ ≤ (Finset.range stop).card := by
        apply Finset.card_le_card
        intro i hi
        obtain ⟨r, hr, hir⟩ := Finset.mem_biUnion.mp hi
        have := L.within r (hD r (List.mem_toFinset.mp hr))
        rw [Finset.mem_Ico] at hir
        rw [Finset.mem_range]
        omega
    _ = stop := Finset.card_range stop

end Space

/-! ### Matched spaces -/

theorem forall₂_trans {α β γ : Type} {R : α → β → Prop} {S : β → γ → Prop} {T : α → γ → Prop}
    (hRS : ∀ a b c, R a b → S b c → T a c) {xs : List α} {ys : List β} {zs : List γ}
    (h : List.Forall₂ R xs ys) (h' : List.Forall₂ S ys zs) : List.Forall₂ T xs zs := by
  induction h generalizing zs with
  | nil => cases h'; exact .nil
  | cons hab _ ih =>
    cases h' with
    | cons hbc hrest => exact .cons (hRS _ _ _ hab hbc) (ih hrest)

theorem forall₂_exists_right {α β : Type} {R : α → β → Prop} {xs : List α} {ys : List β}
    (h : List.Forall₂ R xs ys) {x : α} (hx : x ∈ xs) : ∃ y ∈ ys, R x y := by
  induction h with
  | nil => cases hx
  | cons hab _ ih =>
    rcases List.mem_cons.mp hx with rfl | hx
    · exact ⟨_, List.mem_cons_self, hab⟩
    · obtain ⟨y, hy, hxy⟩ := ih hx
      exact ⟨y, List.mem_cons_of_mem _ hy, hxy⟩

theorem forall₂_set {α β : Type} {R : α → β → Prop} {xs : List α} {ys : List β}
    (h : List.Forall₂ R xs ys) {x : α} {y : β} (hxy : R x y) (i : Nat) :
    List.Forall₂ R (xs.set i x) (ys.set i y) := by
  induction h generalizing i with
  | nil => exact .nil
  | cons hab hrest ih =>
    cases i with
    | zero => exact .cons hxy hrest
    | succ i => exact .cons hab (ih i)

theorem forall₂_getElem? {α β : Type} {R : α → β → Prop} {xs : List α} {ys : List β}
    (h : List.Forall₂ R xs ys) (i : Nat) :
    (xs[i]? = none ∧ ys[i]? = none) ∨ ∃ x y, xs[i]? = some x ∧ ys[i]? = some y ∧ R x y := by
  induction h generalizing i with
  | nil => exact .inl ⟨rfl, rfl⟩
  | cons hab hrest ih =>
    cases i with
    | zero => exact .inr ⟨_, _, rfl, rfl, hab⟩
    | succ i => exact ih i

theorem forall₂_append_split {α β : Type} {R : α → β → Prop} {xs xs' : List α} {ys : List β}
    (h : List.Forall₂ R (xs ++ xs') ys) :
    ∃ zs zs', ys = zs ++ zs' ∧ List.Forall₂ R xs zs ∧ List.Forall₂ R xs' zs' := by
  induction xs generalizing ys with
  | nil => exact ⟨[], ys, rfl, .nil, h⟩
  | cons x xs ih =>
    cases h with
    | cons hxy hrest =>
      obtain ⟨zs, zs', rfl, h₁, h₂⟩ := ih hrest
      exact ⟨_ :: zs, zs', rfl, .cons hxy h₁, h₂⟩

theorem forall₂_zip {α β γ δ : Type} {R : α → β → Prop} {S : γ → δ → Prop} {as : List α}
    {bs : List β} {cs : List γ} {ds : List δ} (h : List.Forall₂ R as bs)
    (h' : List.Forall₂ S cs ds) :
    List.Forall₂ (fun p q => R p.1 q.1 ∧ S p.2 q.2) (as.zip cs) (bs.zip ds) := by
  induction h generalizing cs ds with
  | nil => simp
  | cons hab _ ih =>
    cases h' with
    | nil => simp
    | cons hcd hrest => exact .cons ⟨hab, hcd⟩ (ih hrest)

/-- Two words are the same immediate word, or refer to related blocks. -/
inductive Word.Matched {w : Width} (φ : Ref → Ref → Prop) (v u : Word w) : Prop where
  | same : v.ref? = none → u = v → Word.Matched φ v u
  | moved {a b : Ref} : v.ref? = some a → u.ref? = some b → φ a b → Word.Matched φ v u

/-- Two spaces look the same through a relation between their blocks. -/
structure Space.Matched {w : Width} (s t : Space w) (φ : Ref → Ref → Prop) : Prop where
  unique : ∀ {a b a' b'}, φ a b → φ a' b' → (a = a' ↔ b = b')
  pair : ∀ {a b}, φ a b → a.pair = b.pair
  shape : ∀ {a b}, φ a b → s.shapeAt a = t.shapeAt b
  leads : ∀ {a b}, φ a b → s.leads a = t.leads b
  traced : ∀ {a b}, φ a b → List.Forall₂ (Word.Matched φ) (s.traced a) (t.traced b)

namespace Word.Matched

variable {w : Width} {φ ψ : Ref → Ref → Prop} {v u x : Word w}

theorem refl_of_none (h : v.ref? = none) : Word.Matched φ v v := .same h rfl

theorem mono (h : Word.Matched φ v u) (hφ : ∀ a b, φ a b → ψ a b) : Word.Matched ψ v u := by
  cases h with
  | same hv hu => exact .same hv hu
  | moved ha hb hab => exact .moved ha hb (hφ _ _ hab)

theorem symm (h : Word.Matched φ v u) : Word.Matched (fun b a => φ a b) u v := by
  cases h with
  | same hv hu => subst hu; exact .same hv rfl
  | moved ha hb hab => exact .moved hb ha hab

/-- Relations between words compose as those between blocks do. -/
theorem trans (h : Word.Matched φ v u) (h' : Word.Matched ψ u x) :
    Word.Matched (fun a c => ∃ b, φ a b ∧ ψ b c) v x := by
  cases h with
  | same hv hu =>
    subst hu
    cases h' with
    | same _ hx => exact .same hv hx
    | moved hb _ _ => rw [hv] at hb; cases hb
  | moved ha hb hab =>
    cases h' with
    | same hu _ => rw [hu] at hb; cases hb
    | moved hb' hc hbc =>
      rw [hb] at hb'
      cases hb'
      exact .moved ha hc ⟨_, hab, hbc⟩

theorem eq_of_none (h : Word.Matched φ v u) (hv : v.ref? = none) : u = v := by
  cases h with
  | same _ hu => exact hu
  | moved ha _ _ => rw [hv] at ha; cases ha

theorem of_some (h : Word.Matched φ v u) {a : Ref} (ha : v.ref? = some a) :
    ∃ b, u.ref? = some b ∧ φ a b := by
  cases h with
  | same hv _ => rw [hv] at ha; cases ha
  | moved ha' hb hab =>
    rw [ha] at ha'
    cases ha'
    exact ⟨_, hb, hab⟩

/-- Related words lead to related blocks. -/
theorem into (h : Word.Matched φ v u) : v.Into {a | ∃ b, φ a b} ∧ u.Into {b | ∃ a, φ a b} := by
  constructor
  · intro a ha
    obtain ⟨b, _, hab⟩ := h.of_some ha
    exact ⟨b, hab⟩
  · intro b hb
    obtain ⟨a, _, hab⟩ := h.symm.of_some hb
    exact ⟨a, hab⟩

end Word.Matched

/-- A word that leads to blocks is its own image where the blocks stay. -/
theorem Word.Into.unmoved {w : Width} {D : Set Ref} {v : Word w} (h : v.Into D) :
    Word.Matched (fun a b => a ∈ D ∧ b = a) v v := by
  cases hr : v.ref? with
  | none => exact .same hr rfl
  | some r => exact .moved hr hr ⟨h r hr, rfl⟩

namespace Space.Matched

variable {w : Width} {s t u : Space w} {φ ψ : Ref → Ref → Prop}

theorem symm (M : s.Matched t φ) : t.Matched s fun b a => φ a b where
  unique h h' := (M.unique h h').symm
  pair h := (M.pair h).symm
  shape h := (M.shape h).symm
  leads h := (M.leads h).symm
  traced h := (List.Forall₂.imp (fun _ _ hx => hx.symm) (M.traced h)).flip

/-- A space that looks like one that looks like a third looks like it. -/
theorem trans (M : s.Matched t φ) (N : t.Matched u ψ) :
    s.Matched u fun a c => ∃ b, φ a b ∧ ψ b c where
  unique := by
    rintro a c a' c' ⟨b, hab, hbc⟩ ⟨b', hab', hbc'⟩
    exact (M.unique hab hab').trans (N.unique hbc hbc')
  pair := by
    rintro a c ⟨b, hab, hbc⟩
    exact (M.pair hab).trans (N.pair hbc)
  shape := by
    rintro a c ⟨b, hab, hbc⟩
    exact (M.shape hab).trans (N.shape hbc)
  leads := by
    rintro a c ⟨b, hab, hbc⟩
    exact (M.leads hab).trans (N.leads hbc)
  traced := by
    rintro a c ⟨b, hab, hbc⟩
    exact forall₂_trans (fun _ _ _ h h' => h.trans h') (M.traced hab) (N.traced hbc)

/-- On a layout, a space is matched with itself. -/
theorem refl {stop : Nat} {D : Set Ref} (L : s.Layout stop D) :
    s.Matched s fun a b => a ∈ D ∧ b = a where
  unique := by
    rintro a b a' b' ⟨_, rfl⟩ ⟨_, rfl⟩
    rfl
  pair := by rintro a b ⟨_, rfl⟩; rfl
  shape := by rintro a b ⟨_, rfl⟩; rfl
  leads := by rintro a b ⟨_, rfl⟩; rfl
  traced := by
    rintro a b ⟨ha, rfl⟩
    rw [List.forall₂_same]
    exact fun v hv => Word.Into.unmoved (L.closed _ ha v hv)

/-- What is reached on one side is related to what is reached on the other. -/
theorem reachable (M : s.Matched t φ) {vs us : List (Word w)}
    (hroots : List.Forall₂ (Word.Matched φ) vs us) {a : Ref} (h : s.Reachable vs a) :
    ∃ b, φ a b ∧ t.Reachable us b := by
  induction h with
  | root hv hr =>
    obtain ⟨u, hu, hvu⟩ := forall₂_exists_right hroots hv
    obtain ⟨b, hb, hab⟩ := hvu.of_some hr
    exact ⟨b, hab, .root hu hb⟩
  | child _ hv hr ih =>
    obtain ⟨b, hab, hb⟩ := ih
    obtain ⟨u, hu, hvu⟩ := forall₂_exists_right (M.traced hab) hv
    obtain ⟨c, hc, hac⟩ := hvu.of_some hr
    exact ⟨c, hac, .child hb hu hc⟩

theorem cell_lead (M : s.Matched t φ) {a b : Ref} (h : φ a b) {i : Nat}
    (hi : i < (s.shapeAt a).lead) : s.cell (a.offset + i) = t.cell (b.offset + i) := by
  have hlead := M.leads h
  rw [Space.leads, Space.leads, ← M.shape h] at hlead
  have hget := List.getElem_of_eq hlead (by simpa using hi)
  rwa [Space.getElem_segment, Space.getElem_segment] at hget

theorem cell_traced (M : s.Matched t φ) {a b : Ref} (h : φ a b) {i : Nat}
    (hi : i < (s.shapeAt a).traced) :
    Word.Matched φ (s.cell (a.offset + (s.shapeAt a).lead + i))
      (t.cell (b.offset + (s.shapeAt a).lead + i)) := by
  have hw := M.traced h
  rw [Space.traced, Space.traced, ← M.shape h] at hw
  have hget := hw.get (by simpa using hi) (by simpa using hi)
  simpa only [List.get_eq_getElem, Space.getElem_segment] using hget

/-- Related headed blocks have the same header. -/
theorem header (M : s.Matched t φ) {a b : Ref} (h : φ a b) (hp : a.pair = false) :
    s.cell a.offset = t.cell b.offset :=
  M.cell_lead h (i := 0) (Space.lead_pos hp)

theorem extent (M : s.Matched t φ) {a b : Ref} (h : φ a b) : s.extent a = t.extent b := by
  rw [Space.extent, M.shape h, Space.extent]

/-- Matched roots keep equally many words alive. -/
theorem liveWords_eq (M : s.Matched t φ) {vs us : List (Word w)}
    (hroots : List.Forall₂ (Word.Matched φ) vs us) : s.liveWords vs = t.liveWords us := by
  have hto : ∀ a, ∃ b, s.Reachable vs a → φ a b ∧ t.Reachable us b := by
    intro a
    by_cases ha : s.Reachable vs a
    · obtain ⟨b, hab, hb⟩ := M.reachable hroots ha
      exact ⟨b, fun _ => ⟨hab, hb⟩⟩
    · exact ⟨a, fun h => absurd h ha⟩
  choose f hf using hto
  have hback : List.Forall₂ (Word.Matched fun b a => φ a b) us vs :=
    (List.Forall₂.imp (fun _ _ hx => hx.symm) hroots).flip
  apply finsum_mem_eq_of_bijOn f
  · refine ⟨fun a ha => (hf a ha).2, fun a ha a' ha' he => ?_, fun b hb => ?_⟩
    · exact (M.unique (hf a ha).1 (hf a' ha').1).mpr he
    · obtain ⟨a, hab, ha⟩ := M.symm.reachable hback hb
      exact ⟨a, ha, (M.unique (hf a ha).1 hab).mp rfl⟩
  · exact fun a ha => M.extent (hf a ha).1

end Space.Matched

end Trampoline
