import Trampoline.Proofs.Careful
import Trampoline.Proofs.Observation

/-!
Equality, printing and dispatch on heaps that look the same.

None of these tells twins apart. A comparison always ends, on either side: the blocks that open
questions lead to get older from level to level, and there are fewer blocks than words. Printing and
dispatch need no such order.
-/

namespace Trampoline

variable {w : Width}

/-- Whether two words are the same is the same on both sides. -/
theorem Word.Matched.eq_iff {φ : Ref → Ref → Prop} {v u x y : Word w}
    (hφ : ∀ {a b a' b'}, φ a b → φ a' b' → (a = a' ↔ b = b')) (h : Word.Matched φ v u)
    (h' : Word.Matched φ x y) : v = x ↔ u = y := by
  cases h with
  | same hv hu =>
    subst hu
    cases h' with
    | same hx hy => subst hy; rfl
    | moved hx hy _ =>
      constructor
      · rintro rfl; rw [hv] at hx; cases hx
      · rintro rfl; rw [hv] at hy; cases hy
  | moved hv hu hvu =>
    cases h' with
    | same hx hy =>
      subst hy
      constructor
      · rintro rfl; rw [hx] at hv; cases hv
      · rintro rfl; rw [hx] at hu; cases hu
    | moved hx hy hxy =>
      constructor
      · rintro rfl
        rw [hv] at hx
        cases hx
        cases (hφ hvu hxy).mp rfl
        exact Word.ref?_inj hu hy
      · rintro rfl
        rw [hu] at hy
        cases hy
        cases (hφ hvu hxy).mpr rfl
        exact Word.ref?_inj hv hx

theorem Word.Matched.eq_iff_of_none {φ : Ref → Ref → Prop} {v u x : Word w}
    (h : Word.Matched φ v u) (hx : x.ref? = none) : v = x ↔ u = x := by
  constructor
  · rintro rfl
    exact h.eq_of_none hx
  · rintro rfl
    exact (h.symm.eq_of_none hx)

theorem Word.ref?_ofBool (b : Bool) : (Word.ofBool b : Word w).ref? = none := by
  cases w <;> cases b <;> decide

theorem Word.ref?_unitWord : (Word.unitWord : Word w).ref? = none := by
  cases w <;> decide

/-- A builtin boolean is no reference. -/
theorem Word.ref?_of_isTrue {v : Word w} {b : Bool} (h : v.isTrue = .ok b) : v.ref? = none := by
  unfold Word.isTrue at h
  split at h
  · next hv =>
    rw [hv]
    exact Word.ref?_ofBool true
  · split at h
    · next hv =>
      rw [hv]
      exact Word.ref?_ofBool false
    · cases h

theorem mapM_congr {ε α β : Type} {f g : α → Except ε β} {as : List α}
    (hfg : ∀ a ∈ as, f a = g a) : as.mapM f = as.mapM g := by
  induction as with
  | nil => rfl
  | cons a as ih =>
    rw [List.mapM_cons, List.mapM_cons, hfg a List.mem_cons_self,
      ih fun a ha => hfg a (List.mem_cons_of_mem _ ha)]

theorem mapM_of_ok {ε α β : Type} {f : α → Except ε β} {as : List α}
    (hf : ∀ a ∈ as, ∃ b, f a = .ok b) : ∃ bs, as.mapM f = .ok bs := by
  induction as with
  | nil => exact ⟨[], rfl⟩
  | cons a as ih =>
    obtain ⟨b, hb⟩ := hf a List.mem_cons_self
    obtain ⟨bs, hbs⟩ := ih fun a ha => hf a (List.mem_cons_of_mem _ ha)
    exact ⟨b :: bs, by rw [List.mapM_cons, hb, hbs]; rfl⟩

theorem mapM_forall₂ {ε α β γ : Type} {R : α → β → Prop} {f : α → Except ε γ} {g : β → Except ε γ}
    {as : List α} {bs : List β} (hab : List.Forall₂ R as bs) (hfg : ∀ a b, R a b → f a = g b) :
    as.mapM f = bs.mapM g := by
  induction hab with
  | nil => rfl
  | cons hab _ ih => rw [List.mapM_cons, List.mapM_cons, hfg _ _ hab, ih]

theorem Word.view_of_ref {v : Word w} {r : Ref} (h : v.ref? = some r) : v.view = .ok (.ref r) := by
  have hint : v.isInt = false := by
    cases hi : v.isInt with
    | false => rfl
    | true =>
      rw [Word.ref?_eq_none_of_tag] at h
      · cases h
      · have : v.tag = 0 := by simpa [Word.isInt] using hi
        omega
  simp [Word.view, hint, h]

theorem Word.ref?_of_view {v : Word w} {r : Ref} (h : v.view = .ok (.ref r)) :
    v.ref? = some r := by
  unfold Word.view at h
  split at h
  · cases h
  · split at h
    · next hr => cases h; exact hr
    · cases h
    · cases h

/-- No arm of a plain case is for a reference. -/
theorem Case.arm_of_ref {β : Type} {c : Case β} {arms : Std.TreeMap Nat β} (hc : c.plain = true)
    (harms : c.immediate = .switch arms) {v : Word w} {r : Ref} (hv : v.ref? = some r) :
    arms[v.toNat]? = none := by
  apply Std.TreeMap.getElem?_eq_none
  intro hmem
  rw [Case.plain, harms, List.all_eq_true] at hc
  have hkey := hc v.toNat (Std.TreeMap.mem_keys.mpr hmem)
  have htag : v.toNat % 4 = 1 := by
    rw [Word.ref?_eq_some hv]
    split <;> omega
  simp [htag] at hkey

namespace Space

variable {s : Space w}

theorem block_eq_ok {r : Ref} {ws : List (Word w)} (h : s.block r = .ok ws) :
    ws = s.leads r ++ s.traced r := by
  obtain ⟨x, hx, h⟩ := of_except_bind_eq_ok h
  rw [shape_eq_ok hx] at h
  rw [(slice_eq_ok h).2]
  exact s.segment_extent r

theorem compare_same (a : Word w) (levels : Nat) (rest : List (Question w)) :
    s.compare (⟨levels, a, a⟩ :: rest) = s.compare rest := by
  conv_lhs => rw [compare.eq_def]
  simp

theorem compare_differ {a b : Word w} (hne : a ≠ b) (levels : Nat) (rest : List (Question w)) :
    s.compare (⟨levels + 1, a, b⟩ :: rest) =
      match s.openBlocks a b with
      | .error t => .error t
      | .ok none => .ok (some false)
      | .ok (some qs) => s.compare ((qs.map fun q => ⟨levels, q.1, q.2⟩).reverse ++ rest) := by
  conv_lhs => rw [compare.eq_def]
  simp only [if_neg hne]
  split <;> simp [*]

/-- Two blocks of one shape with the same leading words. -/
def Alike (s : Space w) (a b : Ref) : Prop :=
  a.pair = b.pair ∧ s.shapeAt a = s.shapeAt b ∧ s.leads a = s.leads b

theorem length_leads (s : Space w) (r : Ref) : (s.leads r).length = (s.shapeAt r).lead := by
  rw [leads, length_segment]

/-- A header tells how many leading words there are, so it is enough to compare as many words as
lead one of the blocks. -/
theorem alike_of_take {a b : Ref} (hp : a.pair = b.pair)
    (h : (s.leads a ++ s.traced a).take (s.shapeAt a).lead =
      (s.leads b ++ s.traced b).take (s.shapeAt a).lead) : s.Alike a b := by
  rw [List.take_left' (s.length_leads a)] at h
  have hshape : s.shapeAt a = s.shapeAt b := by
    refine shapeAt_congr hp fun hpa => ?_
    have hpos := lead_pos (s := s) hpa
    have hpos' := lead_pos (s := s) (hp ▸ hpa : b.pair = false)
    have hlen := s.length_leads b
    have hfirst := List.getElem_of_eq h (i := 0) (by rw [s.length_leads]; exact hpos)
    rw [List.getElem_take, List.getElem_append_left (by omega)] at hfirst
    simpa only [leads, getElem_segment, Nat.add_zero] using hfirst
  refine ⟨hp, hshape, ?_⟩
  rw [h, hshape]
  exact List.take_left' (s.length_leads b)

theorem openBlocks_none {v u : Word w} (h : v.ref? = none ∨ u.ref? = none) :
    s.openBlocks v u = .ok none := by
  unfold openBlocks
  rcases h with h | h
  · rw [h]
  · rw [h]
    cases v.ref? <;> rfl

/-- What a comparison of two blocks leaves open. -/
theorem openBlocks_cases {v u : Word w} {a b : Ref} {x : Option (List (Word w × Word w))}
    (hv : v.ref? = some a) (hu : u.ref? = some b) (h : s.openBlocks v u = .ok x) :
    (s.Alike a b ∧ x = some ((s.traced a).zip (s.traced b))) ∨ (¬ s.Alike a b ∧ x = none) := by
  unfold openBlocks at h
  rw [hv, hu] at h
  by_cases hp : a.pair = b.pair
  · simp only [ne_eq, hp, not_true_eq_false, if_false] at h
    split at h
    · cases h
    · cases h
    · cases h
    · next wa wb sh hwa hwb hsh =>
      rw [block_eq_ok hwa, block_eq_ok hwb, shape_eq_ok hsh] at h
      split at h
      · next hdiff =>
        cases h
        refine .inr ⟨?_, rfl⟩
        rintro ⟨_, hshape, hlead⟩
        rcases hdiff with hlen | htake
        · exact hlen (by simp only [List.length_append, traced, length_segment, hlead, hshape])
        · refine htake ?_
          rw [List.take_left' (s.length_leads a), hshape, List.take_left' (s.length_leads b), hlead]
      · next hsame =>
        cases h
        rw [not_or, not_not, not_not] at hsame
        have halike := alike_of_take hp hsame.2
        refine .inl ⟨halike, ?_⟩
        rw [List.drop_left' (s.length_leads a), halike.2.1, List.drop_left' (s.length_leads b)]
  · simp only [ne_eq, hp, not_false_eq_true, if_true] at h
    cases h
    exact .inr ⟨fun halike => hp halike.1, rfl⟩

theorem Matched.alike_iff {t : Space w} {φ : Ref → Ref → Prop} (M : s.Matched t φ) {a b a' b' : Ref}
    (hab : φ a b) (hab' : φ a' b') : s.Alike a a' ↔ t.Alike b b' := by
  rw [Alike, Alike, M.pair hab, M.pair hab', M.shape hab, M.shape hab', M.leads hab, M.leads hab']

/-- A comparison of two blocks leaves the same questions open on both sides. -/
theorem Matched.openBlocks {t : Space w} {φ : Ref → Ref → Prop} (M : s.Matched t φ)
    {v u x y : Word w} (hvu : Word.Matched φ v u) (hxy : Word.Matched φ x y)
    {o o' : Option (List (Word w × Word w))} (ho : s.openBlocks v x = .ok o)
    (ho' : t.openBlocks u y = .ok o') :
    (o = none ∧ o' = none) ∨ ∃ a b a' b', v.ref? = some a ∧ φ a b ∧ φ a' b' ∧
      o = some ((s.traced a).zip (s.traced a')) ∧ o' = some ((t.traced b).zip (t.traced b')) := by
  cases hvu with
  | same hn hu =>
    rw [openBlocks_none (.inl hn)] at ho
    rw [openBlocks_none (.inl (hu ▸ hn))] at ho'
    cases ho
    cases ho'
    exact .inl ⟨rfl, rfl⟩
  | @moved a b ha hb hab =>
    cases hxy with
    | same hn hy =>
      rw [openBlocks_none (.inr hn)] at ho
      rw [openBlocks_none (.inr (hy ▸ hn))] at ho'
      cases ho
      cases ho'
      exact .inl ⟨rfl, rfl⟩
    | @moved a' b' ha' hb' hab' =>
      have hiff := M.alike_iff hab hab'
      obtain ⟨halike, rfl⟩ | ⟨halike, rfl⟩ := openBlocks_cases ha ha' ho <;>
        obtain ⟨halike', rfl⟩ | ⟨halike', rfl⟩ := openBlocks_cases hb hb' ho'
      · exact .inr ⟨a, b, a', b', ha, hab, hab', rfl, rfl⟩
      · exact absurd (hiff.mp halike) halike'
      · exact absurd (hiff.mpr halike') halike
      · exact .inl ⟨rfl, rfl⟩

theorem Grounded.suffix {V W : Pairing} (hs : s.Grounded W) (hV : V <:+ W) : s.Grounded V := by
  obtain ⟨front, rfl⟩ := hV
  induction front with
  | nil => exact hs
  | cons p front ih => exact ih hs.2

/-- What a block refers to is older. -/
theorem Grounded.older {W : Pairing} (hs : s.Grounded W) {a : Ref} (ha : a ∈ W.lefts) :
    ∃ V : Pairing, V <:+ W ∧ V.length < W.length ∧ ∀ v ∈ s.traced a, v.Into V.lefts := by
  induction W with
  | nil => simp [Pairing.lefts, Pairing.Links] at ha
  | cons p W ih =>
    obtain ⟨x, y⟩ := p
    rw [Pairing.lefts_cons] at ha
    rcases ha with rfl | ha
    · exact ⟨W, List.suffix_cons _ W, by simp, hs.1⟩
    · obtain ⟨V, hV, hlen, hinto⟩ := ih hs.2 ha
      exact ⟨V, hV.trans (List.suffix_cons _ W), by simp; omega, hinto⟩

end Space

/-- One question asked of both sides. Each may open more levels than there are blocks that it can
lead to. -/
structure Asked (W : Pairing) (q p : Question w) : Prop where
  left : Word.Matched W.Links q.left p.left
  right : Word.Matched W.Links q.right p.right
  deep : ∃ V : Pairing, V <:+ W ∧ q.left.Into V.lefts ∧ V.length < q.levels ∧ V.length < p.levels

namespace Heap.Twins

variable {W : Pairing} {h k : Heap w} {v u x y : Word w}

/-- A question opens the same questions on both sides, about older blocks. -/
theorem openBlocks (T : Twins W h k) (hvu : Word.Matched W.Links v u)
    (hxy : Word.Matched W.Links x y) {V : Pairing} (hV : V <:+ W) (hv : v.Into V.lefts)
    {o o' : Option (List (Word w × Word w))} (ho : h.space.openBlocks v x = .ok o)
    (ho' : k.space.openBlocks u y = .ok o') :
    (o = none ∧ o' = none) ∨ ∃ qs ps, o = some qs ∧ o' = some ps ∧
      ∀ m n, V.length ≤ m → V.length ≤ n → List.Forall₂ (Asked W)
        (qs.map fun q => ⟨m, q.1, q.2⟩) (ps.map fun p => ⟨n, p.1, p.2⟩) := by
  obtain hnone | ⟨a, b, a', b', ha, hab, hab', rfl, rfl⟩ := T.matched.openBlocks hvu hxy ho ho'
  · exact .inl hnone
  · obtain ⟨V', hV', hlen, hinto⟩ := (T.grounded.suffix hV).older (hv a ha)
    refine .inr ⟨_, _, rfl, rfl, fun m n hm hn => ?_⟩
    rw [List.forall₂_map_left_iff, List.forall₂_map_right_iff]
    have hzip := forall₂_zip
      ((List.forall₂_and_left _ _).mpr ⟨hinto, T.matched.traced hab⟩) (T.matched.traced hab')
    refine hzip.imp fun q p hqp => ⟨hqp.1.2, hqp.2, V', hV'.trans hV, hqp.1.1, ?_, ?_⟩
    · simp only
      omega
    · simp only
      omega

theorem left_eq_iff (T : Twins W h k) {q p : Question w} (hqp : Asked W q p) :
    q.left = q.right ↔ p.left = p.right :=
  Word.Matched.eq_iff T.matched.unique hqp.left hqp.right

/-- Questions asked of both sides get the same answer, and always get one. -/
theorem compare (T : Twins W h k) {qs ps : List (Question w)} (hqs : List.Forall₂ (Asked W) qs ps)
    {r r' : Option Bool} (hr : h.space.compare qs = .ok r) (hr' : k.space.compare ps = .ok r') :
    r = r' ∧ r ≠ none := by
  fun_induction Space.compare h.space qs generalizing ps with
  | case1 =>
    cases hqs
    rw [Space.compare] at hr'
    cases hr
    cases hr'
    exact ⟨rfl, by simp⟩
  | case2 levels b rest ih =>
    cases hqs with
    | @cons _ p _ ps hqp hrest =>
      obtain ⟨m, a', b'⟩ := p
      have heq := (T.left_eq_iff hqp).mp rfl
      simp only at heq
      subst heq
      rw [Space.compare_same] at hr'
      exact ih hrest hr hr'
  | case3 a b rest hne =>
    cases hqs with
    | cons hqp _ =>
      obtain ⟨V, _, _, hV, _⟩ := hqp.deep
      exact absurd hV (Nat.not_lt_zero _)
  | case4 => cases hr
  | case5 a b rest hne levels hopen =>
    cases hqs with
    | @cons _ p _ ps hqp hrest =>
      obtain ⟨V, hV, hinto, _, hdeep⟩ := hqp.deep
      obtain ⟨m, a', b'⟩ := p
      obtain ⟨m, rfl⟩ := Nat.exists_eq_succ_of_ne_zero (Nat.ne_zero_of_lt hdeep)
      have hne' : a' ≠ b' := fun he => hne ((T.left_eq_iff hqp).mpr he)
      rw [Space.compare_differ hne'] at hr'
      cases hopen' : k.space.openBlocks a' b' with
      | error t => rw [hopen'] at hr'; cases hr'
      | ok o =>
        obtain ⟨_, rfl⟩ | ⟨_, _, h, _⟩ := T.openBlocks hqp.left hqp.right hV hinto hopen hopen'
        · rw [hopen'] at hr'
          cases hr
          cases hr'
          exact ⟨rfl, by simp⟩
        · cases h
  | case6 a b rest hne levels qs hopen ih =>
    cases hqs with
    | @cons _ p _ ps hqp hrest =>
      obtain ⟨V, hV, hinto, hdeep, hdeep'⟩ := hqp.deep
      obtain ⟨m, a', b'⟩ := p
      obtain ⟨m, rfl⟩ := Nat.exists_eq_succ_of_ne_zero (Nat.ne_zero_of_lt hdeep')
      have hne' : a' ≠ b' := fun he => hne ((T.left_eq_iff hqp).mpr he)
      rw [Space.compare_differ hne'] at hr'
      cases hopen' : k.space.openBlocks a' b' with
      | error t => rw [hopen'] at hr'; cases hr'
      | ok o =>
        obtain ⟨h, _⟩ | ⟨_, ps', ⟨⟩, rfl, hasked⟩ :=
          T.openBlocks hqp.left hqp.right hV hinto hopen hopen'
        · cases h
        · rw [hopen'] at hr'
          refine ih ?_ hr hr'
          have hnew := hasked levels m (by simp only at hdeep; omega) (by simp only at hdeep'; omega)
          exact List.rel_append (List.rel_reverse hnew) hrest

/-- There are no more pairs than words on either side. -/
theorem length_le (T : Twins W h k) : W.length ≤ h.hp ∧ W.length ≤ k.hp := by
  have hlen : ∀ (s : Space w) (rs : List Ref), rs.length ≤ s.total rs := by
    intro s rs
    induction rs with
    | nil => simp
    | cons r rs ih =>
      have := s.extent_pos r
      rw [Space.total_cons, List.length_cons]
      omega
  constructor
  · have hnd : (W.map Prod.fst).Nodup := by
      refine T.fresh.map_on ?_
      rintro ⟨a, b⟩ hab ⟨a', b'⟩ hab' rfl
      rw [(T.matched.unique hab hab').mp rfl]
    have htotal := T.layout.total_le hnd fun r hr => by
      obtain ⟨⟨a, b⟩, hab, rfl⟩ := List.mem_map.mp hr
      exact ⟨b, hab⟩
    have := hlen h.space (W.map Prod.fst)
    rw [List.length_map] at this
    omega
  · have hnd : (W.map Prod.snd).Nodup := by
      refine T.fresh.map_on ?_
      rintro ⟨a, b⟩ hab ⟨a', b'⟩ hab' rfl
      rw [(T.matched.unique hab hab').mpr rfl]
    have htotal := T.layout'.total_le hnd fun r hr => by
      obtain ⟨⟨a, b⟩, hab, rfl⟩ := List.mem_map.mp hr
      exact ⟨a, hab⟩
    have := hlen k.space (W.map Prod.snd)
    rw [List.length_map] at this
    omega

/-- Structural equality has the same answer on both sides. -/
theorem equal (T : Twins W h k) (hvu : Word.Matched W.Links v u) (hxy : Word.Matched W.Links x y)
    {r r' : Option Bool} (hr : h.equal v x = .ok r) (hr' : k.equal u y = .ok r') :
    r = r' ∧ r ≠ none := by
  have hlevels : ∀ n, W.length ≤ n → W.length < Space.levelsFor n := by
    intro n hn
    have : n + 2 ≤ (n + 2) * (n + 2) := Nat.le_mul_self _
    unfold Space.levelsFor
    omega
  refine T.compare (.cons ⟨hvu, hxy, W, List.suffix_refl W, ?_, ?_, ?_⟩ .nil) hr hr'
  · intro a ha
    obtain ⟨b, _, hab⟩ := hvu.of_some ha
    exact ⟨b, hab⟩
  · exact hlevels _ T.length_le.1
  · exact hlevels _ T.length_le.2

end Heap.Twins

/-! ### Printing -/

/-- The text of a block: its leading words tell what it is, and its traced words are printed. -/
def Names.blockText (names : Names) (pair : Bool) (leads : List (Word w)) (parts : List String) :
    String :=
  if pair then "(" ++ ", ".intercalate parts ++ ")"
  else
    let header : Header w := ⟨leads.getD 0 (.ofNat 0)⟩
    match header.kind with
    | .constructor =>
      let name := names.constructorText header.uid
      if header.fields = 0 then name else name ++ "(" ++ ", ".intercalate parts ++ ")"
    | .closure =>
      "<closure " ++ names.functionText header.uid ++ "/" ++
        toString (leads.getD 2 (.ofNat 0)).toNat ++ "+" ++ toString header.fields ++
        String.join (parts.map (" " ++ ·)) ++ ">"

namespace Heap

variable {h : Heap w} {D : Set Ref} {v : Word w} {r : Ref}

/-- The traced words of a block are loaded one after the other. -/
theorem mapM_load (B : h.Bounded) (L : h.space.Layout h.hp D) (hr : r ∈ D) {lead n : Nat}
    (hshape : h.space.shapeAt r = ⟨lead, n⟩) {α : Type} (f : Word w → Except (Trap w) α) :
    (List.range n).mapM (fun i => h.load r (lead + i) >>= f) = (h.space.traced r).mapM f := by
  have htraced : h.space.traced r =
      (List.range n).map fun i => h.space.cell (r.offset + (lead + i)) := by
    rw [Space.traced, hshape, Space.segment, List.range'_eq_map_range, List.map_map]
    refine List.map_congr_left fun i _ => ?_
    rw [Function.comp_apply, Nat.add_assoc]
  rw [htraced, List.mapM_map]
  refine mapM_congr fun i hi => ?_
  have hlt : lead + i < h.space.extent r := by
    rw [Space.extent, hshape]
    exact Nat.add_lt_add_left (List.mem_range.mp hi) lead
  rw [load_of_layout B L hr hlt]
  rfl

theorem getD_leads {i : Nat} (hi : i < (h.space.shapeAt r).lead) :
    (h.space.leads r).getD i (.ofNat 0) = h.space.cell (r.offset + i) := by
  have hlen : i < (h.space.leads r).length := by rwa [Space.length_leads]
  rw [List.getD_eq_getElem?_getD, List.getElem?_eq_getElem hlen, Option.getD_some]
  simp only [Space.leads, Space.getElem_segment]

/-- A block is printed from its leading words and the printed forms of its traced words. -/
theorem renderLevels_of_ref (B : h.Bounded) (L : h.space.Layout h.hp D) (hv : v.ref? = some r)
    (hr : r ∈ D) (names : Names) (levels : Nat) :
    h.renderLevels names (levels + 1) v = (do
      let parts ← (h.space.traced r).mapM (h.renderLevels names levels)
      return names.blockText r.pair (h.space.leads r) parts) := by
  have hparts {lead n : Nat} (hshape : h.space.shapeAt r = ⟨lead, n⟩) :=
    mapM_load B L hr hshape (h.renderLevels names levels)
  rw [renderLevels, Word.view_of_ref hv]
  simp only [bind, Except.bind, pure, Except.pure, Names.blockText] at hparts ⊢
  cases hp : r.pair with
  | true =>
    have hshape : h.space.shapeAt r = ⟨0, 2⟩ := by simp [Space.shapeAt, hp, Shape.pair]
    rw [← hparts hshape]
    simp only [if_true, List.range_succ, List.range_zero, List.nil_append, List.cons_append,
      List.mapM_cons, List.mapM_nil, bind, Except.bind, pure, Except.pure, Nat.zero_add]
    have hload : ∀ i < 2, h.load r i = .ok (h.space.cell (r.offset + i)) := fun i hi =>
      load_of_layout B L hr (by simpa [Space.extent, hshape, Shape.words] using hi)
    simp only [hload 0 (by decide), hload 1 (by decide)]
    cases h.renderLevels names levels (h.space.cell (r.offset + 0)) with
    | error t => rfl
    | ok fst =>
      cases h.renderLevels names levels (h.space.cell (r.offset + 1)) with
      | error t => rfl
      | ok snd => simp [String.append_assoc]
  | false =>
    have hhead : (h.space.leads r).getD 0 (.ofNat 0) = h.space.cell r.offset :=
      getD_leads (Space.lead_pos hp)
    simp only [Bool.false_eq_true, if_false, header_of_layout B L hr hp, hhead]
    cases hkind : (Header.mk (h.space.cell r.offset)).kind with
    | constructor =>
      have hshape : h.space.shapeAt r = ⟨1, (Header.mk (h.space.cell r.offset)).fields⟩ := by
        simp [Space.shapeAt, hp, Header.shape, hkind, Shape.constructor]
      rw [← hparts hshape]
      dsimp only
      split
      · next hfields => simp [hfields, pure, Except.pure]
      · rfl
    | closure =>
      have hshape : h.space.shapeAt r = ⟨3, (Header.mk (h.space.cell r.offset)).fields⟩ := by
        simp [Space.shapeAt, hp, Header.shape, hkind, Shape.closure]
      have harity : h.word (r.offset + 2) = .ok ((h.space.leads r).getD 2 (.ofNat 0)) := by
        have hlead : 2 < (h.space.shapeAt r).lead := by simp [hshape]
        rw [getD_leads hlead]
        exact load_of_layout B L hr (Nat.lt_add_right _ hlead)
      rw [← hparts hshape, harity]

end Heap

namespace Heap.Mirrors

variable {φ : Ref → Ref → Prop} {h k : Heap w} {v u : Word w}

/-- What is printed of a value is the same on both sides, to any depth. -/
theorem renderLevels (R : Mirrors φ h k) (names : Names) (levels : Nat)
    (hvu : Word.Matched φ v u) :
    k.renderLevels names levels u = h.renderLevels names levels v := by
  induction levels generalizing v u with
  | zero => rfl
  | succ levels ih =>
    cases hvu with
    | same hn hu =>
      subst hu
      rw [Heap.renderLevels, Heap.renderLevels]
      cases hview : u.view with
      | error t => simp only [bind, Except.bind]
      | ok view =>
        cases view with
        | int n => simp only [bind, Except.bind]
        | header hd => simp only [bind, Except.bind]
        | ref r =>
          rw [Word.ref?_of_view hview] at hn
          cases hn
    | @moved a b ha hb hab =>
      have hparts : (h.space.traced a).mapM (h.renderLevels names levels) =
          (k.space.traced b).mapM (k.renderLevels names levels) :=
        mapM_forall₂ (R.matched.traced hab) fun _ _ hxy => (ih hxy).symm
      have hleft := renderLevels_of_ref R.left R.layout ha ⟨b, hab⟩ names levels
      have hright := renderLevels_of_ref R.right R.layout' hb ⟨a, hab⟩ names levels
      rw [hleft, hright, R.matched.pair hab, R.matched.leads hab, hparts]

/-! ### Dispatch -/

/-- A case finds the same branch for related values. -/
theorem selectBoxed {β : Type} (R : Mirrors φ h k) (c : Case β) (hvu : Word.Matched φ v u) :
    c.selectBoxed k u = c.selectBoxed h v := by
  unfold Case.selectBoxed
  cases c.boxed with
  | skip => rfl
  | elided branch => rfl
  | switch arms =>
    cases hvu with
    | same hn hu => rw [hu, hn]
    | @moved a b ha hb hab =>
      rw [ha, hb]
      simp only [← R.matched.pair hab]
      cases hp : a.pair with
      | true => rfl
      | false =>
        obtain ⟨hhd, hhd'⟩ := R.header hab hp
        rw [hhd, hhd']

/-- A plain case takes the same branch on both sides. -/
theorem select {β : Type} (R : Mirrors φ h k) {c : Case β} (hc : c.plain = true)
    (hvu : Word.Matched φ v u) : c.select k u = c.select h v := by
  have hboxed := R.selectBoxed c hvu
  unfold Case.select
  cases himm : c.immediate with
  | skip => exact hboxed
  | elided branch => rfl
  | switch arms =>
    cases hvu with
    | same hn hu =>
      subst hu
      simp only [hboxed]
    | moved ha hb hab =>
      simp only [Case.arm_of_ref hc himm ha, Case.arm_of_ref hc himm hb]
      exact hboxed

end Heap.Mirrors

end Trampoline
