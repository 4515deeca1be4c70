import Trampoline.Proofs.Unfolding

/-!
The levels that a comparison opens.

A comparison may open no more levels than its bound, and where blocks refer to each other in cycles
it may need more than any bound. If the loop without a bound ends, though, the bound does no harm: a
question that is answered within `n + 1` levels and not within `n` opens one that is answered within
`n` and not before, and so on down. Those are questions about different pairs of blocks, and the
bound is larger than the number of such pairs. So equality as it is computed is equality as the
loop has it, on every heap that falls into blocks.
-/

namespace Trampoline

variable {w : Width}

namespace Space

variable {s : Space w} {stop : Nat} {D : Set Ref} {q : Word w × Word w}
  {qs rest : List (Word w × Word w)} {d e : Bool} {m n : Nat}

/-- Questions that may each open `n` more levels. -/
def asked (n : Nat) (qs : List (Word w × Word w)) : List (Question w) :=
  qs.map fun q => ⟨n, q.1, q.2⟩

/-- Questions are worked off one list after the other, until a difference is found. -/
theorem compare_append (s : Space w) (qs rest : List (Question w)) :
    s.compare (qs ++ rest) =
      match s.compare qs with
      | .ok (some true) => s.compare rest
      | r => r := by
  fun_induction Space.compare s qs with
  | case1 => rfl
  | case2 levels v tail ih => rw [List.cons_append, compare_same, ih]
  | case3 v u tail hne =>
    rw [List.cons_append, compare.eq_def]
    simp only [if_neg hne]
  | case4 v u tail hne levels t hopen =>
    rw [List.cons_append, compare_differ hne, hopen]
  | case5 v u tail hne levels hopen =>
    rw [List.cons_append, compare_differ hne, hopen]
  | case6 v u tail hne levels qs hopen ih =>
    rw [List.cons_append, compare_differ hne, hopen]
    simp only
    rw [← List.append_assoc, ih]

/-- The question gets this answer, and opens no more than `n` levels. -/
def Answers (s : Space w) (n : Nat) (q : Word w × Word w) (d : Bool) : Prop :=
  s.compare (asked n [q]) = .ok (some d)

theorem compare_asked_cons (n : Nat) (q : Word w × Word w) (qs : List (Word w × Word w)) :
    s.compare (asked n (q :: qs)) =
      match s.compare (asked n [q]) with
      | .ok (some true) => s.compare (asked n qs)
      | r => r :=
  compare_append s (asked n [q]) (asked n qs)

/-- If each question is answered within `m` levels as it is within `n`, all of them together are. -/
theorem compare_asked_of_answers (h : ∀ q ∈ qs, ∀ d, s.Answers n q d → s.Answers m q d)
    (hd : s.compare (asked n qs) = .ok (some d)) : s.compare (asked m qs) = .ok (some d) := by
  induction qs with
  | nil => exact hd
  | cons q qs ih =>
    obtain ⟨hq, hqs⟩ := List.forall_mem_cons.mp h
    rw [compare_asked_cons] at hd ⊢
    cases hfirst : s.compare (asked n [q]) with
    | error t => rw [hfirst] at hd; cases hd
    | ok o =>
      rw [hfirst] at hd
      cases o with
      | none => cases hd
      | some b =>
        rw [show s.compare (asked m [q]) = .ok (some b) from hq b hfirst]
        cases b with
        | false => exact hd
        | true => exact ih hqs hd

/-- A question about different words is answered by those that it opens. -/
theorem answers_succ_iff (hne : q.1 ≠ q.2) :
    s.Answers (n + 1) q d ↔
      (d = false ∧ s.openBlocks q.1 q.2 = .ok none) ∨
        ∃ qs, s.openBlocks q.1 q.2 = .ok (some qs) ∧
          s.compare (asked n qs.reverse) = .ok (some d) := by
  have hstep : s.compare (asked (n + 1) [q]) = _ := compare_differ hne n []
  rw [Answers, hstep]
  cases s.openBlocks q.1 q.2 with
  | error t => simp
  | ok o =>
    cases o with
    | none => cases d <;> simp
    | some qs => simp [asked]

theorem answers_of_eq (n : Nat) (v : Word w) : s.Answers n (v, v) true := by
  change s.compare (⟨n, v, v⟩ :: []) = _
  rw [compare_same, compare]

/-- More levels do not change an answer. -/
theorem Answers.succ (h : s.Answers n q d) : s.Answers (n + 1) q d := by
  induction n generalizing q d with
  | zero =>
    obtain ⟨v, u⟩ := q
    by_cases heq : v = u
    · subst heq
      cases (answers_of_eq 0 v).symm.trans h
      exact answers_of_eq _ v
    · rw [Answers, asked, List.map_cons, compare.eq_def] at h
      simp only [if_neg heq] at h
      cases h
  | succ n ih =>
    obtain ⟨v, u⟩ := q
    by_cases heq : v = u
    · subst heq
      cases (answers_of_eq (n + 1) v).symm.trans h
      exact answers_of_eq _ v
    · rw [answers_succ_iff heq] at h ⊢
      rcases h with hnone | ⟨qs, hopen, hqs⟩
      · exact .inl hnone
      · exact .inr ⟨qs, hopen, compare_asked_of_answers (fun q _ d hq => ih hq) hqs⟩

theorem Answers.mono (h : s.Answers n q d) (hle : n ≤ m) : s.Answers m q d := by
  induction hle with
  | refl => exact h
  | step _ ih => exact ih.succ

/-- A question that is answered within `n + 1` levels, and not within `n`. -/
def Takes (s : Space w) (n : Nat) (q : Word w × Word w) : Prop :=
  ∃ d, s.Answers (n + 1) q d ∧ ¬ s.Answers n q d

theorem Takes.le (h : s.Takes m q) (h' : s.Takes n q) : n ≤ m := by
  obtain ⟨d, hd, _⟩ := h
  obtain ⟨e, he, hnot⟩ := h'
  by_contra hlt
  have hd' : s.Answers (n + 1) q d := hd.mono (by omega)
  cases he.symm.trans hd'
  exact hnot (hd.mono (by omega))

theorem Takes.unique (h : s.Takes m q) (h' : s.Takes n q) : m = n :=
  Nat.le_antisymm (h'.le h) (h.le h')

theorem Takes.ne (h : s.Takes n q) : q.1 ≠ q.2 := by
  obtain ⟨d, hd, hnot⟩ := h
  obtain ⟨v, u⟩ := q
  rintro (rfl : v = u)
  cases (answers_of_eq (n + 1) v).symm.trans hd
  exact hnot (answers_of_eq n v)

/-- Some question that it opens takes one level less. -/
theorem Takes.opens (h : s.Takes (n + 1) q) :
    ∃ qs, s.openBlocks q.1 q.2 = .ok (some qs) ∧ ∃ p ∈ qs, s.Takes n p := by
  have hne := h.ne
  obtain ⟨d, hd, hnot⟩ := h
  rcases (answers_succ_iff hne).mp hd with ⟨rfl, hnone⟩ | ⟨qs, hopen, hqs⟩
  · exact absurd ((answers_succ_iff hne).mpr (.inl ⟨rfl, hnone⟩)) hnot
  refine ⟨qs, hopen, ?_⟩
  by_contra hnone
  have hall : ∀ p ∈ qs.reverse, ∀ e, s.Answers (n + 1) p e → s.Answers n p e := by
    intro p hp e he
    by_contra hlate
    exact hnone ⟨p, List.mem_reverse.mp hp, e, he, hlate⟩
  exact hnot ((answers_succ_iff hne).mpr (.inr ⟨qs, hopen, compare_asked_of_answers hall hqs⟩))

def About (q : Word w × Word w) (p : Ref × Ref) : Prop :=
  q.1.ref? = some p.1 ∧ q.2.ref? = some p.2

/-- A question that takes many levels leads to a question about two blocks for every smaller
number of levels. -/
theorem Takes.blocks (L : s.Layout stop D) (h : s.Takes n q) (h₁ : q.1.Into D) (h₂ : q.2.Into D)
    {i : Nat} (hpos : 0 < i) (hi : i ≤ n) : ∃ p ∈ D ×ˢ D, ∃ q', About q' p ∧ s.Takes i q' := by
  induction n generalizing q with
  | zero => omega
  | succ n ih =>
    obtain ⟨qs, hopen, q', hq', htakes⟩ := h.opens
    by_cases hlast : i = n + 1
    · subst hlast
      cases ha : q.1.ref? with
      | none =>
        rw [openBlocks_none (.inl ha)] at hopen
        cases hopen
      | some a =>
        cases hb : q.2.ref? with
        | none =>
          rw [openBlocks_none (.inr hb)] at hopen
          cases hopen
        | some b => exact ⟨(a, b), ⟨h₁ a ha, h₂ b hb⟩, q, ⟨ha, hb⟩, h⟩
    · obtain ⟨hx, hy⟩ := L.opens_into h₁ h₂ hopen q' hq'
      exact ih htakes hx hy (by omega)

/-- No question takes more levels than there are pairs of blocks. -/
theorem Takes.le_pairs (L : s.Layout stop D) (h : s.Takes n q) (h₁ : q.1.Into D)
    (h₂ : q.2.Into D) : n ≤ stop * stop := by
  have hblocks : ∀ i, ∃ p, 0 < i → i ≤ n → p ∈ D ×ˢ D ∧ ∃ q', About q' p ∧ s.Takes i q' := by
    intro i
    by_cases hi : 0 < i ∧ i ≤ n
    · obtain ⟨p, hp, hq'⟩ := h.blocks L h₁ h₂ hi.1 hi.2
      exact ⟨p, fun _ _ => ⟨hp, hq'⟩⟩
    · exact ⟨(⟨0, true⟩, ⟨0, true⟩), fun hpos hle => absurd ⟨hpos, hle⟩ hi⟩
  choose f hf using hblocks
  have hinj : Set.InjOn f (Set.Icc 1 n) := by
    intro i hi j hj heq
    obtain ⟨_, p, hp, htakes⟩ := hf i hi.1 hi.2
    obtain ⟨_, p', hp', htakes'⟩ := hf j hj.1 hj.2
    rw [← heq] at hp'
    obtain rfl : p = p' :=
      Prod.ext (Word.ref?_inj hp.1 hp'.1) (Word.ref?_inj hp.2 hp'.2)
    exact htakes.unique htakes'
  calc n = (Set.Icc 1 n).ncard := by
        rw [Set.ncard_eq_toFinset_card', Set.toFinset_Icc, Nat.card_Icc, Nat.add_sub_cancel]
    _ ≤ (D ×ˢ D).ncard :=
        Set.ncard_le_ncard_of_injOn f (fun i hi => (hf i hi.1 hi.2).1) hinj (L.finite.prod L.finite)
    _ = D.ncard * D.ncard := Set.ncard_prod
    _ ≤ stop * stop := Nat.mul_le_mul L.ncard_le L.ncard_le

/-- A loop that ends opens finitely many levels. -/
theorem Decides.asked (h : s.Decides qs d) : ∃ n, s.compare (asked n qs) = .ok (some d) := by
  induction h with
  | done => exact ⟨0, by rw [Space.asked, List.map_nil, compare]⟩
  | @same v rest b _ ih =>
    obtain ⟨n, hn⟩ := ih
    exact ⟨n, (compare_same v n _).trans hn⟩
  | @differ v u rest hne hopen =>
    refine ⟨1, (compare_differ hne 0 _).trans ?_⟩
    rw [hopen]
  | @opened v u qs rest b hne hopen _ ih =>
    obtain ⟨n, hn⟩ := ih
    refine ⟨n + 1, (compare_differ hne n _).trans ?_⟩
    rw [hopen]
    simp only [Space.asked, List.map_append, List.map_reverse] at hn ⊢
    rw [compare_append] at hn ⊢
    split at hn
    · exact compare_asked_of_answers (fun q _ d hq => hq.succ) hn
    · exact hn

/-- Questions about words of a layout can be worked off without a trap. -/
theorem compare_of_layout (L : s.Layout stop D) (hstop : stop ≤ s.capacity)
    {qs : List (Question w)} (hqs : ∀ q ∈ qs, q.left.Into D ∧ q.right.Into D) :
    ∃ o, s.compare qs = .ok o := by
  fun_induction Space.compare s qs with
  | case1 => exact ⟨_, rfl⟩
  | case2 levels v rest ih => exact ih fun q hq => hqs q (.tail _ hq)
  | case3 => exact ⟨_, rfl⟩
  | case4 v u rest hne levels t hopen =>
    obtain ⟨hv, hu⟩ := hqs _ (.head _)
    obtain ⟨o, ho⟩ := openBlocks_of_layout L hstop hv hu
    rw [hopen] at ho
    cases ho
  | case5 => exact ⟨_, rfl⟩
  | case6 v u rest hne levels qs hopen ih =>
    refine ih fun q hq => ?_
    rcases List.mem_append.mp hq with hq | hq
    · obtain ⟨p, hp, rfl⟩ := List.mem_map.mp (List.mem_reverse.mp hq)
      obtain ⟨hv, hu⟩ := hqs _ (.head _)
      exact L.opens_into hv hu hopen p hp
    · exact hqs q (.tail _ hq)

end Space

/-! ### Equality -/

namespace Heap

variable {h k : Heap w} {D : Set Ref} {φ : Ref → Ref → Prop} {v u x y : Word w} {d : Bool}

/-- Equality is answered as the loop without a bound answers it, whether there are cycles or not. -/
theorem equal_eq_some_iff (L : h.space.Layout h.hp D) (hx : x.Into D) (hy : y.Into D) :
    h.equal x y = .ok (some d) ↔ h.space.Decides [(x, y)] d := by
  constructor
  · exact fun hd => Space.decides_of_compare hd
  · intro hd
    obtain ⟨n, hn⟩ := hd.asked
    classical
    by_contra hnot
    -- the first number of levels that suffices is beyond the bound
    have hex : ∃ n, h.space.Answers n (x, y) d := ⟨n, hn⟩
    have hfirst := Nat.find_spec hex
    have hlevels : Space.levelsFor h.hp < Nat.find hex := by
      by_contra hle
      exact hnot (hfirst.mono (Nat.not_lt.mp hle))
    obtain ⟨k, hk⟩ := Nat.exists_eq_succ_of_ne_zero (Nat.ne_zero_of_lt hlevels)
    have htakes : h.space.Takes k (x, y) := by
      rw [hk] at hfirst
      exact ⟨d, hfirst, Nat.find_min hex (by omega)⟩
    have hle := htakes.le_pairs L hx hy
    have hbound : h.hp * h.hp < Space.levelsFor h.hp :=
      Nat.mul_lt_mul'' (by omega) (by omega)
    omega

theorem equal_eq_ok (B : h.Bounded) (L : h.space.Layout h.hp D) (hx : x.Into D) (hy : y.Into D) :
    ∃ o, h.equal x y = .ok o :=
  Space.compare_of_layout L B.hp_le (by simpa using ⟨hx, hy⟩)

namespace Mirrors

theorem symm (R : Mirrors φ h k) : Mirrors (fun b a => φ a b) k h :=
  ⟨R.right, R.left, R.layout', R.layout, R.matched.symm⟩

/-- A loop that ends on one side ends on the other side, with the same answer. -/
theorem decides (R : Mirrors φ h k) {qs ps : List (Word w × Word w)}
    (hqs : List.Forall₂ (fun q p => Word.Matched φ q.1 p.1 ∧ Word.Matched φ q.2 p.2) qs ps)
    (hd : h.space.Decides qs d) : k.space.Decides ps d := by
  have hopens : ∀ {q p : Word w × Word w}, Word.Matched φ q.1 p.1 ∧ Word.Matched φ q.2 p.2 →
      ∃ o, k.space.openBlocks p.1 p.2 = .ok o := fun hqp =>
    Space.openBlocks_of_layout R.layout' R.right.hp_le hqp.1.into.2 hqp.2.into.2
  induction hd generalizing ps with
  | done =>
    cases hqs
    exact .done
  | same _ ih =>
    cases hqs with
    | @cons _ p _ _ hqp hrest =>
      obtain ⟨v', u'⟩ := p
      obtain rfl : v' = u' := (Word.Matched.eq_iff R.matched.unique hqp.1 hqp.2).mp rfl
      exact .same (ih hrest)
  | differ hne hopen =>
    cases hqs with
    | cons hqp hrest =>
      have hne' := mt (Word.Matched.eq_iff R.matched.unique hqp.1 hqp.2).mpr hne
      obtain ⟨o, ho⟩ := hopens hqp
      obtain ⟨_, rfl⟩ | ⟨_, _, _, _, _, _, _, hsome, _⟩ :=
        R.matched.openBlocks hqp.1 hqp.2 hopen ho
      · exact .differ hne' ho
      · cases hsome
  | opened hne hopen _ ih =>
    cases hqs with
    | cons hqp hrest =>
      have hne' := mt (Word.Matched.eq_iff R.matched.unique hqp.1 hqp.2).mpr hne
      obtain ⟨o, ho⟩ := hopens hqp
      obtain ⟨hnone, _⟩ | ⟨a, b, a', b', _, hab, hab', hqs, rfl⟩ :=
        R.matched.openBlocks hqp.1 hqp.2 hopen ho
      · cases hnone
      · cases hqs
        have hzip := forall₂_zip (R.matched.traced hab) (R.matched.traced hab')
        exact .opened hne' ho (ih (List.rel_append (List.rel_reverse hzip) hrest))

/-- Equality has the same answer on both sides, and is without one on both or on none. -/
theorem equal_eq (R : Mirrors φ h k) (hvu : Word.Matched φ v u) (hxy : Word.Matched φ x y) :
    k.equal u y = h.equal v x := by
  obtain ⟨o, ho⟩ := equal_eq_ok R.left R.layout hvu.into.1 hxy.into.1
  obtain ⟨o', ho'⟩ := equal_eq_ok R.right R.layout' hvu.into.2 hxy.into.2
  rw [ho, ho']
  refine congrArg _ (Option.ext fun d => ?_)
  have hleft := equal_eq_some_iff (d := d) R.layout hvu.into.1 hxy.into.1
  have hright := equal_eq_some_iff (d := d) R.layout' hvu.into.2 hxy.into.2
  rw [ho, Except.ok.injEq] at hleft
  rw [ho', Except.ok.injEq] at hright
  rw [hleft, hright]
  constructor
  · exact R.symm.decides (.cons ⟨hvu.symm, hxy.symm⟩ .nil)
  · exact R.decides (.cons ⟨hvu, hxy⟩ .nil)

end Mirrors

end Heap

end Trampoline
