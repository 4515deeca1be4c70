import Trampoline.Proofs.Collection

/-!
A new block above a layout.

Words written above all blocks leave the blocks as they are. If the words are those of a block, and
its traced words refer to blocks that are there, the new block joins the layout.
-/

namespace Trampoline

/-- The leading and the traced words of a block: two traced words of a pair, or a header that
counts the words after it. -/
inductive Block {w : Width} : Bool → List (Word w) → List (Word w) → Prop where
  | pair (fst snd : Word w) : Block true [] [fst, snd]
  | headed {header : Word w} {rest xs : List (Word w)} : header.isHeader = true →
      (Header.mk header).shape = ⟨rest.length + 1, xs.length⟩ → Block false (header :: rest) xs

/-- Only the number of traced words matters. -/
theorem Block.congr {w : Width} {pair : Bool} {lead xs ys : List (Word w)}
    (B : Block pair lead xs) (h : xs.length = ys.length) : Block pair lead ys := by
  cases B with
  | pair fst snd =>
    match ys, h with
    | [a, b], _ => exact .pair a b
  | headed hheader hshape => exact .headed hheader (h ▸ hshape)

namespace Space

variable {w : Width} {s t : Space w}

/-- The words of a block are the same in the second space. -/
def Keeps (s t : Space w) (r : Ref) : Prop :=
  ∀ i < s.extent r, t.cell (r.offset + i) = s.cell (r.offset + i)

theorem Keeps.shapeAt {r : Ref} (h : s.Keeps t r) : t.shapeAt r = s.shapeAt r :=
  shapeAt_congr rfl fun _ => h 0 (s.extent_pos r)

theorem Keeps.leads {r : Ref} (h : s.Keeps t r) : t.leads r = s.leads r := by
  have hext := s.extent_eq r
  rw [Space.leads, Space.leads, h.shapeAt]
  exact segment_congr fun i hi => h i (by omega)

theorem Keeps.traced {r : Ref} (h : s.Keeps t r) : t.traced r = s.traced r := by
  have hext := s.extent_eq r
  rw [Space.traced, Space.traced, h.shapeAt]
  refine segment_congr fun i hi => ?_
  rw [Nat.add_assoc]
  exact h _ (by omega)

/-- Blocks below the words written stay as they are. -/
theorem keeps_write {r : Ref} {stop : Nat} (vs : List (Word w))
    (h : r.offset + s.extent r ≤ stop) : s.Keeps (s.write stop vs) r :=
  fun i hi => cell_write_of_lt s vs (by omega)

/-! ### The new block -/

variable {stop : Nat} {pair : Bool} {lead xs : List (Word w)}

theorem shapeAt_write (B : Block pair lead xs) :
    (s.write stop (lead ++ xs)).shapeAt ⟨stop, pair⟩ = ⟨lead.length, xs.length⟩ := by
  cases B with
  | pair fst snd => rfl
  | @headed header rest _ _ hshape =>
    have hc := cell_write s stop (header :: rest ++ xs) (i := 0) (by simp)
    simp only [Nat.add_zero, List.cons_append, List.getElem_cons_zero] at hc
    simp only [shapeAt, List.cons_append, hc]
    exact hshape

theorem leads_write (B : Block pair lead xs) :
    (s.write stop (lead ++ xs)).leads ⟨stop, pair⟩ = lead := by
  have h := segment_write s stop (lead ++ xs)
  rw [List.length_append, segment_append] at h
  rw [leads, shapeAt_write B]
  exact (List.append_inj h (by simp)).1

theorem traced_write (B : Block pair lead xs) :
    (s.write stop (lead ++ xs)).traced ⟨stop, pair⟩ = xs := by
  have h := segment_write s stop (lead ++ xs)
  rw [List.length_append, segment_append] at h
  rw [traced, shapeAt_write B]
  exact (List.append_inj h (by simp)).2

theorem extent_write (B : Block pair lead xs) :
    (s.write stop (lead ++ xs)).extent ⟨stop, pair⟩ = (lead ++ xs).length := by
  rw [extent, shapeAt_write B, List.length_append]
  rfl

/-- The new block joins the layout. -/
theorem Layout.write {D : Set Ref} (L : s.Layout stop D) (B : Block pair lead xs)
    (hxs : ∀ v ∈ xs, v.Into D) :
    (s.write stop (lead ++ xs)).Layout (stop + (lead ++ xs).length) (insert ⟨stop, pair⟩ D) := by
  have hext : ∀ r ∈ D, (s.write stop (lead ++ xs)).extent r = s.extent r := fun r hr => by
    rw [extent, (keeps_write _ (L.within r hr)).shapeAt, extent]
  refine ⟨?_, ?_, ?_, ?_⟩
  · rintro r (rfl | hr)
    · rw [extent_write B]
    · have := L.within r hr
      rw [hext r hr]
      omega
  · rintro r (rfl | hr) hp
    · cases B with
      | pair fst snd => cases hp
      | @headed header rest _ hheader _ =>
        have hc := cell_write s stop (header :: rest ++ xs) (i := 0) (by simp)
        simp only [Nat.add_zero, List.cons_append, List.getElem_cons_zero] at hc
        rw [List.cons_append, hc]
        exact hheader
    · have hc := keeps_write (lead ++ xs) (L.within r hr) 0 (s.extent_pos r)
      rw [Nat.add_zero] at hc
      rw [hc]
      exact L.headed r hr hp
  · have hnew : ∀ r ∈ D, (s.write stop (lead ++ xs)).Apart r ⟨stop, pair⟩ := fun r hr =>
      .inl (by rw [hext r hr]; exact L.within r hr)
    rintro a (rfl | ha) b (rfl | hb) hne
    · exact absurd rfl hne
    · exact (hnew b hb).symm
    · exact hnew a ha
    · have h := L.apart a ha b hb hne
      rw [Apart, hext a ha, hext b hb]
      exact h
  · rintro r (rfl | hr) v hv
    · rw [traced_write B] at hv
      exact (hxs v hv).mono (Set.subset_insert _ _)
    · rw [(keeps_write _ (L.within r hr)).traced] at hv
      exact (L.closed r hr v hv).mono (Set.subset_insert _ _)

/-- A match carries over to a space in which the blocks it relates have not changed. -/
theorem Matched.of_keeps {u : Space w} {φ : Ref → Ref → Prop} (M : u.Matched s φ)
    (h : ∀ a b, φ a b → s.Keeps t b) : u.Matched t φ where
  unique := M.unique
  pair := M.pair
  shape hab := by rw [(h _ _ hab).shapeAt]; exact M.shape hab
  leads hab := by rw [(h _ _ hab).leads]; exact M.leads hab
  traced hab := by rw [(h _ _ hab).traced]; exact M.traced hab

end Space

end Trampoline
