import Trampoline.Proofs.Graph

/-!
The order in which a graph is discovered.

Words are visited from left to right. A block met for the first time is the last one found so far
and the first one to be opened next; opening it visits its traced words. Where the blocks lie plays
no part in this: two matched graphs are discovered in step with each other.
-/

namespace Trampoline

/-- Blocks in the order they were found in, and those still to be opened, the last one first. -/
structure Frontier where
  found : List Ref
  pending : List Ref

namespace Frontier

variable {w : Width}

def visit (f : Frontier) (v : Word w) : Frontier :=
  match v.ref? with
  | none => f
  | some r => if r ∈ f.found then f else ⟨f.found ++ [r], r :: f.pending⟩

def visitAll (f : Frontier) (vs : List (Word w)) : Frontier := vs.foldl visit f

@[simp] theorem visitAll_nil (f : Frontier) : f.visitAll ([] : List (Word w)) = f := rfl
@[simp] theorem visitAll_cons (f : Frontier) (v : Word w) (vs : List (Word w)) :
    f.visitAll (v :: vs) = (f.visit v).visitAll vs := rfl

theorem visit_of_none {v : Word w} (h : v.ref? = none) (f : Frontier) : f.visit v = f := by
  simp [visit, h]

theorem visit_of_mem {f : Frontier} {v : Word w} {r : Ref} (h : v.ref? = some r)
    (hr : r ∈ f.found) : f.visit v = f := by
  simp [visit, h, hr]

theorem visit_of_not_mem {f : Frontier} {v : Word w} {r : Ref} (h : v.ref? = some r)
    (hr : r ∉ f.found) : f.visit v = ⟨f.found ++ [r], r :: f.pending⟩ := by
  simp [visit, h, hr]

end Frontier

/-- Opening block after block until none is left to be opened ends with this order. -/
inductive Space.Explores {w : Width} (s : Space w) : Frontier → List Ref → Prop where
  | finished (found : List Ref) : Explores s ⟨found, []⟩ found
  | opened {found rest order : List Ref} {r : Ref} :
      Explores s (Frontier.visitAll ⟨found, rest⟩ (s.traced r)) order →
      Explores s ⟨found, r :: rest⟩ order

/-- The blocks that the roots reach, in the order of their discovery. -/
def Space.Discovers {w : Width} (s : Space w) (roots : List (Word w)) (order : List Ref) : Prop :=
  s.Explores (Frontier.visitAll ⟨[], []⟩ roots) order

/-! ### Matched graphs -/

/-- Two frontiers hold related blocks in the same order. -/
structure Frontier.Matched (φ : Ref → Ref → Prop) (f g : Frontier) : Prop where
  found : List.Forall₂ φ f.found g.found
  pending : List.Forall₂ φ f.pending g.pending

namespace Space.Matched

variable {w : Width} {s t : Space w} {φ : Ref → Ref → Prop}

/-- Related blocks are found together or not at all. -/
theorem mem_iff (M : s.Matched t φ) {rs ts : List Ref} (h : List.Forall₂ φ rs ts) {a b : Ref}
    (hab : φ a b) : a ∈ rs ↔ b ∈ ts := by
  induction h with
  | nil => simp
  | cons hxy _ ih => simp only [List.mem_cons, M.unique hab hxy, ih]

/-- Visiting related words keeps frontiers related. -/
theorem visit (M : s.Matched t φ) {f g : Frontier} (F : f.Matched φ g) {v u : Word w}
    (h : Word.Matched φ v u) : (f.visit v).Matched φ (g.visit u) := by
  cases h with
  | same hv hu =>
    subst hu
    rw [Frontier.visit_of_none hv, Frontier.visit_of_none hv]
    exact F
  | @moved a b ha hb hab =>
    have hiff := M.mem_iff F.found hab
    by_cases hmem : a ∈ f.found
    · rw [Frontier.visit_of_mem ha hmem, Frontier.visit_of_mem hb (hiff.mp hmem)]
      exact F
    · rw [Frontier.visit_of_not_mem ha hmem, Frontier.visit_of_not_mem hb (mt hiff.mpr hmem)]
      exact ⟨List.rel_append F.found (.cons hab .nil), .cons hab F.pending⟩

theorem visitAll (M : s.Matched t φ) {f g : Frontier} (F : f.Matched φ g) {vs us : List (Word w)}
    (h : List.Forall₂ (Word.Matched φ) vs us) : (f.visitAll vs).Matched φ (g.visitAll us) := by
  induction h generalizing f g with
  | nil => exact F
  | cons hvu _ ih => exact ih (M.visit F hvu)

/-- Matched graphs are explored in step. -/
theorem explores (M : s.Matched t φ) {f g : Frontier} (F : f.Matched φ g) {order order' : List Ref}
    (h : s.Explores f order) (h' : t.Explores g order') : List.Forall₂ φ order order' := by
  induction h generalizing g with
  | finished found =>
    cases h' with
    | finished found' => exact F.found
    | opened _ => cases F.pending
  | @opened found rest _ r _ ih =>
    cases h' with
    | finished found' => cases F.pending
    | @opened found' rest' _ r' h' =>
      obtain ⟨hab, hrest⟩ := List.forall₂_cons.mp F.pending
      have F' : Frontier.Matched φ ⟨found, rest⟩ ⟨found', rest'⟩ := ⟨F.found, hrest⟩
      exact ih (M.visitAll F' (M.traced hab)) h'

/-- Matched graphs are discovered in the same order. -/
theorem discovers (M : s.Matched t φ) {vs us : List (Word w)}
    (hroots : List.Forall₂ (Word.Matched φ) vs us) {order order' : List Ref}
    (h : s.Discovers vs order) (h' : t.Discovers us order') : List.Forall₂ φ order order' :=
  M.explores (M.visitAll ⟨.nil, .nil⟩ hroots) h h'

/-- Related blocks take equally many words. -/
theorem total_eq (M : s.Matched t φ) {rs ts : List Ref} (h : List.Forall₂ φ rs ts) :
    s.total rs = t.total ts := by
  induction h with
  | nil => rfl
  | cons hab _ ih => rw [total_cons, total_cons, M.extent hab, ih]

end Space.Matched

end Trampoline
