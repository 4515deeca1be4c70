import Trampoline.Proofs.Tagging
import Trampoline.Proofs.Unfolding

/-!
Equal values are printed alike.

A comparison that finds no difference has gone through two values side by side: wherever it found
different words, they led to blocks with the same leading words. The printed form of a block is made
from its leading words and the printed forms of the others. So it does not tell the two apart,
however many levels are printed and whichever blocks are shared.
-/

namespace Trampoline

variable {w : Width}

namespace Space

variable {s : Space w} {stop : Nat} {D : Set Ref} {v u : Word w}

/-- The words are the same, or lead to blocks that are alike and whose traced words agree. -/
inductive Agree (s : Space w) (D : Set Ref) : Word w → Word w → Prop where
  | same (v : Word w) : Agree s D v v
  | blocks {v u : Word w} {a b : Ref} : v.ref? = some a → u.ref? = some b → a ∈ D → b ∈ D →
      s.Alike a b → List.Forall₂ (Agree s D) (s.traced a) (s.traced b) → Agree s D v u

/-- Blocks that open questions are alike, and the questions are about all their traced words. -/
theorem agree_of_opens (hv : v.Into D) (hu : u.Into D) {qs : List (Word w × Word w)}
    (hopen : s.openBlocks v u = .ok (some qs)) (hqs : ∀ q ∈ qs, s.Agree D q.1 q.2) :
    s.Agree D v u := by
  cases ha : v.ref? with
  | none =>
    rw [openBlocks_none (.inl ha)] at hopen
    cases hopen
  | some a =>
    cases hb : u.ref? with
    | none =>
      rw [openBlocks_none (.inr hb)] at hopen
      cases hopen
    | some b =>
      obtain ⟨halike, heq⟩ | ⟨_, heq⟩ := openBlocks_cases ha hb hopen
      · cases heq
        exact .blocks ha hb (hv a ha) (hu b hb) halike
          (List.forall₂_iff_zip.mpr ⟨halike.node.2, fun hq => hqs _ hq⟩)
      · cases heq

/-- A loop that ends without a difference has found that all its questions are about words that
agree. -/
theorem Decides.agree (L : s.Layout stop D) {qs : List (Word w × Word w)} {d : Bool}
    (h : s.Decides qs d) (hd : d = true) (hqs : ∀ q ∈ qs, q.1.Into D ∧ q.2.Into D) :
    ∀ q ∈ qs, s.Agree D q.1 q.2 := by
  induction h with
  | done => simp
  | same _ ih =>
    have hrest := ih hd fun q hq => hqs q (.tail _ hq)
    exact List.forall_mem_cons.mpr ⟨.same _, hrest⟩
  | differ => cases hd
  | opened _ hopen _ ih =>
    obtain ⟨hv, hu⟩ := hqs _ (.head _)
    have hall := ih hd fun q hq => by
      rcases List.mem_append.mp hq with hq | hq
      · exact L.opens_into hv hu hopen q (List.mem_reverse.mp hq)
      · exact hqs q (.tail _ hq)
    obtain ⟨hnew, hrest⟩ := List.forall_mem_append.mp hall
    have hopened := agree_of_opens hv hu hopen fun q hq => hnew q (List.mem_reverse.mpr hq)
    exact List.forall_mem_cons.mpr ⟨hopened, hrest⟩

end Space

namespace Heap

variable {h : Heap w} {D : Set Ref} {v u : Word w}

/-- Words that agree are printed alike, however many levels are shown. -/
theorem renderLevels_of_agree (B : h.Bounded) (L : h.space.Layout h.hp D) (names : Names)
    (levels : Nat) (hvu : h.space.Agree D v u) :
    h.renderLevels names levels v = h.renderLevels names levels u := by
  induction levels generalizing v u with
  | zero => rfl
  | succ levels ih =>
    cases hvu with
    | same => rfl
    | @blocks _ _ a b ha hb haD hbD halike htraced =>
      obtain ⟨hpair, _, hleads⟩ := halike
      have hparts := mapM_forall₂ htraced fun _ _ hxy => ih hxy
      rw [renderLevels_of_ref B L ha haD, renderLevels_of_ref B L hb hbD, hpair, hleads, hparts]

/-- Values without reserved tags are printed. -/
theorem renderLevels_total (B : h.Bounded) (L : h.space.Layout h.hp D)
    (hunreserved : ∀ r ∈ D, ∀ x ∈ h.space.traced r, x.tag ≠ 2) (names : Names) (levels : Nat)
    (hv : v.Into D) (htag : v.tag ≠ 2) : ∃ text, h.renderLevels names levels v = .ok text := by
  induction levels generalizing v with
  | zero => exact ⟨_, rfl⟩
  | succ levels ih =>
    cases hr : v.ref? with
    | none =>
      obtain ⟨view, hview, _⟩ := Word.word_view htag
      rw [renderLevels, hview]
      cases view with
      | int n => exact ⟨_, rfl⟩
      | header header => exact ⟨_, rfl⟩
      | ref r =>
        rw [Word.ref?_of_view hview] at hr
        cases hr
    | some r =>
      have hrD := hv r hr
      obtain ⟨parts, hparts⟩ := mapM_of_ok fun x (hx : x ∈ h.space.traced r) =>
        ih (L.closed r hrD x hx) (hunreserved r hrD x hx)
      rw [renderLevels_of_ref B L hr hrD, hparts]
      exact ⟨_, rfl⟩

variable {roots : List (Word w)} {blocks : Set Ref} {x y : Word w}

/-- Values that a comparison finds equal are printed alike, whatever their names are and whichever
blocks they share; and they are printed, unless a word with the reserved tag is among them. -/
theorem equal_prints_alike (P : h.Partitioned roots blocks) (hx : x.Into blocks)
    (hy : y.Into blocks) (heq : h.equal x y = .ok (some true)) (names : Names) :
    h.render names x = h.render names y ∧
      ((∀ r ∈ blocks, ∀ v ∈ h.space.traced r, v.tag ≠ 2) → x.tag ≠ 2 →
        ∃ text, h.render names x = .ok text ∧ h.render names y = .ok text) := by
  have hdecides : h.space.Decides [(x, y)] true := Space.decides_of_compare heq
  have hagree : h.space.Agree blocks x y :=
    hdecides.agree P.layout rfl (by simpa using ⟨hx, hy⟩) (x, y) (.head _)
  have hsame : h.render names x = h.render names y :=
    renderLevels_of_agree P.bounded P.layout names _ hagree
  refine ⟨hsame, fun hunreserved htag => ?_⟩
  obtain ⟨text, htext⟩ := renderLevels_total P.bounded P.layout hunreserved names _ hx htag
  exact ⟨text, htext, hsame.symm.trans htext⟩

/-- Two blocks that share their fields differently are equal, and printed alike. -/
theorem equal_prints_alike_doubled :
    doubled.Partitioned [] {r | r ∈ doubledBlocks} ∧
    doubled.equal (Ref.mk 4 false).word (Ref.mk 7 false).word = .ok (some true) ∧
    ∃ text, doubled.render .builtin (Ref.mk 4 false).word = .ok text ∧
      doubled.render .builtin (Ref.mk 7 false).word = .ok text := by
  let fst : Word .bits64 := (Ref.mk 0 true).word
  let snd : Word .bits64 := (Ref.mk 2 true).word
  have houter : doubled.space.openBlocks (Ref.mk 4 false).word (Ref.mk 7 false).word =
      .ok (some [(fst, fst), (fst, snd)]) := by decide
  have hinner : doubled.space.openBlocks fst snd =
      .ok (some [(.ofNat 4, .ofNat 4), (.ofNat 8, .ofNat 8)]) := by decide
  have heq : doubled.equal (Ref.mk 4 false).word (Ref.mk 7 false).word = .ok (some true) := by
    change doubled.space.compare [⟨224 + 1, _, _⟩] = _
    rw [Space.compare_differ (by decide), houter]
    change doubled.space.compare [⟨223 + 1, fst, snd⟩, ⟨224, fst, fst⟩] = _
    rw [Space.compare_differ (by decide), hinner]
    simp [Space.compare]
  have hunreserved : ∀ r ∈ doubledBlocks, ∀ v ∈ doubled.space.traced r, v.tag ≠ 2 := by
    have hall : ∀ r ∈ doubledBlocks, (doubled.space.traced r).all (·.tag != 2) = true := by decide
    intro r hr v hv
    simpa using List.all_eq_true.mp (hall r hr) v hv
  have hprints :=
    equal_prints_alike founded_doubled.toPartitioned (by decide) (by decide) heq .builtin
  exact ⟨founded_doubled.toPartitioned, heq, hprints.2 hunreserved (by decide)⟩

end Heap

end Trampoline
