import Trampoline.Case
import Trampoline.Proofs.Origins

/-!
Case dispatch, and the match that it stands for.

An arm has a key: the word or the uid that a tier looks for, or nothing to look for in case of the
fallback. Arms make up a case when all of them have keys and no two have the same one, in whatever
order they are given. A value of a heap whose blocks were built from declared constructors and
functions shows the key of an arm when it matches the arm, and only then. So a tier finds the arm
that matches; what it leaves out of the test, it leaves out because nothing else could match.
-/

namespace Trampoline

variable {w : Width} {β κ : Type}

/-! ### Arms -/

namespace Arm

def branch : Arm β → β
  | int _ branch | constructor _ branch | fallback branch => branch

def immediate : Arm β → Bool
  | int _ _ => true
  | constructor c _ => c.representation == .unboxed
  | fallback _ => false

def boxed : Arm β → Bool
  | constructor c _ => c.representation == .boxed
  | int _ _ | fallback _ => false

/-- A value is what the arm is for, as the origins of the blocks tell. -/
def Matches (O : Origins) (v : Word w) : Arm β → Prop
  | int n _ => Word.int n = .ok v
  | constructor c _ =>
    match c.representation with
    | .unboxed => c.unboxedValue = .ok v
    | .boxed => ∃ r, v.ref? = some r ∧ O r (.constructor c)
  | fallback _ => False

inductive Key (w : Width) where
  | word (v : Word w)
  | uid (n : Nat)
  | fallback

/-- The key of an arm, unless its word does not exist at the width. -/
def key? (w : Width) : Arm β → Option (Key w)
  | int n _ => (Word.int n).toOption.map .word
  | constructor c _ =>
    match c.representation with
    | .unboxed => c.unboxedValue.toOption.map .word
    | .boxed => some (.uid c.uid)
  | fallback _ => some .fallback

def immediate? (w : Width) (arm : Arm β) : Option (Nat × β) :=
  match arm.key? w with
  | some (.word v) => some (v.toNat, arm.branch)
  | _ => none

def boxed? (w : Width) (arm : Arm β) : Option (Nat × β) :=
  match arm.key? w with
  | some (.uid n) => some (n, arm.branch)
  | _ => none

def fallback? : Arm β → Option β
  | fallback branch => some branch
  | int _ _ | constructor _ _ => none

variable {arm : Arm β}

theorem immediate?_eq_some {p : Nat × β} :
    arm.immediate? w = some p ↔ ∃ v, arm.key? w = some (.word v) ∧ p = (v.toNat, arm.branch) := by
  unfold immediate?
  split <;> simp_all [eq_comm]

theorem boxed?_eq_some {p : Nat × β} :
    arm.boxed? w = some p ↔ ∃ n, arm.key? w = some (.uid n) ∧ p = (n, arm.branch) := by
  unfold boxed?
  split <;> simp_all [eq_comm]

theorem fallback?_eq_some {b : β} : arm.fallback? = some b ↔ arm = .fallback b := by
  cases arm <;> simp [fallback?]

theorem key?_eq_word {u : Word w} : arm.key? w = some (.word u) ↔
    (∃ n b, arm = .int n b ∧ Word.int n = .ok u) ∨
    ∃ c b, arm = .constructor c b ∧ c.representation = .unboxed ∧ c.unboxedValue = .ok u := by
  cases arm with
  | int n b =>
    cases hu : (Word.int n : Except (Trap w) (Word w)) <;> simp [key?, Except.toOption, hu]
  | constructor c b =>
    cases hr : c.representation <;> cases hu : (c.unboxedValue : Except (Trap w) (Word w)) <;>
      simp [key?, Except.toOption, hr, hu]
  | fallback b => simp [key?]

theorem key?_eq_uid {n : Nat} : arm.key? w = some (.uid n) ↔
    ∃ c b, arm = .constructor c b ∧ c.representation = .boxed ∧ c.uid = n := by
  cases arm with
  | int m b => simp [key?]
  | constructor c b => cases hr : c.representation <;> simp [key?, hr]
  | fallback b => simp [key?]

theorem key?_eq_fallback : arm.key? w = some .fallback ↔ ∃ b, arm = .fallback b := by
  cases arm with
  | int n b => simp [key?]
  | constructor c b => cases hr : c.representation <;> simp [key?, hr]
  | fallback b => simp [key?]

/-- An arm is in the tier that its representation asks for. -/
theorem isSome_tiers (h : arm.key? w ≠ none) :
    (arm.immediate? w).isSome = arm.immediate ∧ (arm.boxed? w).isSome = arm.boxed := by
  obtain ⟨key, hkey⟩ := Option.ne_none_iff_exists'.mp h
  cases key with
  | word u =>
    rcases key?_eq_word.mp hkey with ⟨n, b, rfl, _⟩ | ⟨c, b, rfl, hr, _⟩
    · simp [immediate?, boxed?, hkey, immediate, boxed]
    · simp [immediate?, boxed?, hkey, immediate, boxed, hr]
  | uid n =>
    obtain ⟨c, b, rfl, hr, _⟩ := key?_eq_uid.mp hkey
    simp [immediate?, boxed?, hkey, immediate, boxed, hr]
  | fallback =>
    obtain ⟨b, rfl⟩ := key?_eq_fallback.mp hkey
    exact ⟨rfl, rfl⟩

/-- The word of an arm is not a reference. -/
theorem ref?_of_key {u : Word w} (h : arm.key? w = some (.word u)) : u.ref? = none := by
  rcases key?_eq_word.mp h with ⟨n, b, _, hu⟩ | ⟨c, b, _, _, hu⟩
  · exact Word.ref?_int hu
  · exact Constructor.ref?_unboxedValue hu

end Arm

namespace Arms

def Has (a : Arms β) : Arm.Key w → Prop
  | .word v => ∃ p ∈ a.immediate, p.1 = v.toNat
  | .uid n => ∃ p ∈ a.boxed, p.1 = n
  | .fallback => a.fallback.isSome

def push (a : Arms β) (branch : β) : Arm.Key w → Arms β
  | .word v => { a with immediate := (v.toNat, branch) :: a.immediate }
  | .uid n => { a with boxed := (n, branch) :: a.boxed }
  | .fallback => { a with fallback := some branch }

variable {a a' : Arms β} {arm : Arm β} {arms arms' : List (Arm β)}

theorem duplicate_repeated {key : CaseKey} : (a.repeated key).duplicate ≠ none := by
  simp [repeated]

/-- What all arms do: they are noted as duplicates, or else they are there afterwards. -/
theorem unless_duplicate_iff {taken : Prop} [Decidable taken] {d b : Arms β}
    (hd : d.duplicate ≠ none) :
    (if taken then d else b) = a' ∧ a'.duplicate = none ↔
      b.duplicate = none ∧ ¬ taken ∧ a' = b := by
  split
  · next htaken =>
    refine ⟨?_, fun h => absurd htaken h.2.1⟩
    rintro ⟨rfl, hdup⟩
    exact absurd hdup hd
  · next hfree =>
    constructor
    · rintro ⟨rfl, hdup⟩
      exact ⟨hdup, hfree, rfl⟩
    · rintro ⟨hdup, _, rfl⟩
      exact ⟨rfl, hdup⟩

theorem addImmediate_iff {v : Word w} {branch : β} {key : CaseKey} :
    a.addImmediate v branch key = a' ∧ a'.duplicate = none ↔
      a.duplicate = none ∧ ¬ a.Has (.word v) ∧ a' = a.push branch (.word v) := by
  have hany : (a.immediate.any (·.1 == v.toNat)) = true ↔ a.Has (.word v) := by
    simp [Has]
  rw [addImmediate, unless_duplicate_iff duplicate_repeated, hany]
  rfl

theorem setFallback_eq {branch : β} :
    a.setFallback branch =
      if a.fallback.isSome then { a.repeated .fallback with fallback := some branch }
      else { a with fallback := some branch } := by
  unfold setFallback
  dsimp only
  split <;> rfl

theorem setFallback_iff {branch : β} :
    a.setFallback branch = a' ∧ a'.duplicate = none ↔
      a.duplicate = none ∧ ¬ a.Has (w := w) .fallback ∧ a' = a.push (w := w) branch .fallback := by
  rw [setFallback_eq]
  exact unless_duplicate_iff duplicate_repeated

/-- An arm is taken, and not as a duplicate, when it has a key that is not there yet. -/
theorem add_iff :
    add w a arm = .ok a' ∧ a'.duplicate = none ↔
      a.duplicate = none ∧
        ∃ key, arm.key? w = some key ∧ ¬ a.Has key ∧ a' = a.push arm.branch key := by
  cases arm with
  | int n branch =>
    unfold add int Arm.key?
    dsimp only
    cases (Word.int n : Except (Trap w) (Word w)) with
    | error t => simp [bind, Except.bind, Except.toOption]
    | ok v =>
      simpa [bind, Except.bind, pure, Except.pure, Except.toOption, Arm.branch] using
        addImmediate_iff
  | constructor c branch =>
    unfold add constructor Arm.key?
    dsimp only
    cases c.representation with
    | unboxed =>
      dsimp only
      cases (c.unboxedValue : Except (Trap w) (Word w)) with
      | error t => simp [bind, Except.bind, Except.toOption]
      | ok v =>
        simpa [bind, Except.bind, pure, Except.pure, Except.toOption, Arm.branch] using
          addImmediate_iff
    | boxed =>
      have hany : (a.boxed.any (·.1 == c.uid)) = true ↔ a.Has (w := w) (.uid c.uid) := by
        simp [Has]
      dsimp only
      rw [← apply_ite, Except.ok.injEq, unless_duplicate_iff duplicate_repeated, hany]
      simp [push, Arm.branch]
  | fallback branch =>
    simpa [add, Arm.key?, Arm.branch] using setFallback_iff (w := w)

/-- Arms in the order in which the tiers have them. -/
def ofList (w : Width) (arms : List (Arm β)) : Arms β where
  immediate := (arms.filterMap (Arm.immediate? w)).reverse
  boxed := (arms.filterMap (Arm.boxed? w)).reverse
  fallback := (arms.filterMap Arm.fallback?).head?

/-- All arms have keys, and no two have the same one. -/
structure Apart (w : Width) (arms : List (Arm β)) : Prop where
  keyed : ∀ arm ∈ arms, arm.key? w ≠ none
  distinct : arms.Pairwise fun x y => x.key? w ≠ y.key? w

theorem mem_immediate {p : Nat × β} :
    p ∈ (ofList w arms).immediate ↔
      ∃ arm ∈ arms, ∃ v, arm.key? w = some (.word v) ∧ p = (v.toNat, arm.branch) := by
  simp [ofList, Arm.immediate?_eq_some]

theorem mem_boxed {p : Nat × β} :
    p ∈ (ofList w arms).boxed ↔
      ∃ arm ∈ arms, ∃ n, arm.key? w = some (.uid n) ∧ p = (n, arm.branch) := by
  simp [ofList, Arm.boxed?_eq_some]

theorem fallback_eq_none : (ofList w arms).fallback = none ↔ ∀ b, .fallback b ∉ arms := by
  simp only [ofList, List.head?_eq_none_iff, List.filterMap_eq_nil_iff]
  constructor
  · intro h b hb
    cases h _ hb
  · intro h arm harm
    cases arm with
    | fallback b => exact absurd harm (h b)
    | _ => rfl

/-- The tiers have just the keys of the arms. -/
theorem has_ofList {key : Arm.Key w} :
    (ofList w arms).Has key ↔ ∃ arm ∈ arms, arm.key? w = some key := by
  cases key with
  | word v =>
    simp only [Has, mem_immediate]
    constructor
    · rintro ⟨p, ⟨arm, harm, u, hu, rfl⟩, heq⟩
      exact ⟨arm, harm, by rw [hu, BitVec.eq_of_toNat_eq heq]⟩
    · rintro ⟨arm, harm, hv⟩
      exact ⟨_, ⟨arm, harm, v, hv, rfl⟩, rfl⟩
  | uid n =>
    simp only [Has, mem_boxed]
    constructor
    · rintro ⟨p, ⟨arm, harm, u, hu, rfl⟩, rfl⟩
      exact ⟨arm, harm, hu⟩
    · rintro ⟨arm, harm, hn⟩
      exact ⟨_, ⟨arm, harm, n, hn, rfl⟩, rfl⟩
  | fallback =>
    simp only [Has, Option.isSome_iff_ne_none, ne_eq, fallback_eq_none, Arm.key?_eq_fallback]
    grind

/-- An arm with a new key comes after those that are there. -/
theorem push_ofList {key : Arm.Key w} (hkey : arm.key? w = some key)
    (hfree : ¬ (ofList w arms).Has key) :
    (ofList w arms).push arm.branch key = ofList w (arms ++ [arm]) := by
  have hfallback : key ≠ .fallback → arm.fallback? = none := by
    intro hne
    cases hf : arm.fallback? with
    | none => rfl
    | some b =>
      rw [Arm.fallback?_eq_some.mp hf] at hkey
      exact absurd (Option.some.inj hkey).symm hne
  cases key with
  | word v =>
    simp [push, ofList, List.filterMap_append, Arm.immediate?, Arm.boxed?, hkey,
      hfallback (by simp)]
  | uid n =>
    simp [push, ofList, List.filterMap_append, Arm.immediate?, Arm.boxed?, hkey,
      hfallback (by simp)]
  | fallback =>
    obtain ⟨b, rfl⟩ := Arm.key?_eq_fallback.mp hkey
    have hnone : arms.filterMap Arm.fallback? = [] := by
      simpa [Has, ofList] using hfree
    simp [push, ofList, List.filterMap_append, Arm.immediate?, Arm.boxed?, Arm.fallback?, hkey,
      hnone, Arm.branch]

/-- Arms are apart if all but the last are, and the last has a key of its own. -/
theorem apart_append : Apart w (arms ++ [arm]) ↔
    Apart w arms ∧ ∃ key, arm.key? w = some key ∧ ¬ (ofList w arms).Has key := by
  constructor
  · rintro ⟨hkeyed, hdistinct⟩
    obtain ⟨hpre, _, hnew⟩ := List.pairwise_append.mp hdistinct
    obtain ⟨key, hkey⟩ := Option.ne_none_iff_exists'.mp (hkeyed arm (by simp))
    refine ⟨⟨fun x hx => hkeyed x (by simp [hx]), hpre⟩, key, hkey, fun hhas => ?_⟩
    obtain ⟨x, hx, hxkey⟩ := has_ofList.mp hhas
    exact hnew x hx arm (by simp) (hxkey.trans hkey.symm)
  · rintro ⟨⟨hkeyed, hdistinct⟩, key, hkey, hfree⟩
    refine ⟨fun x hx => ?_, List.pairwise_append.mpr ⟨hdistinct, by simp, fun x hx y hy heq => ?_⟩⟩
    · rcases List.mem_append.mp hx with hx | hx
      · exact hkeyed x hx
      · rw [List.mem_singleton.mp hx, hkey]
        simp
    · rw [List.mem_singleton.mp hy] at heq
      exact hfree (has_ofList.mpr ⟨x, hx, heq.trans hkey⟩)

/-- Arms are taken one after the other, and none as a duplicate, when their keys are apart. -/
theorem foldlM_add_iff :
    arms.foldlM (add w) {} = .ok a ∧ a.duplicate = none ↔ Apart w arms ∧ a = ofList w arms := by
  induction arms using List.reverseRecOn generalizing a with
  | nil =>
    constructor
    · rintro ⟨h, _⟩
      cases h
      exact ⟨⟨by simp, .nil⟩, rfl⟩
    · rintro ⟨_, rfl⟩
      exact ⟨rfl, rfl⟩
  | append_singleton arms arm ih =>
    rw [List.foldlM_append, apart_append]
    constructor
    · rintro ⟨hfold, hdup⟩
      obtain ⟨b, hb, hadd⟩ := of_except_bind_eq_ok hfold
      rw [List.foldlM_cons] at hadd
      obtain ⟨c, hc, hlast⟩ := of_except_bind_eq_ok hadd
      cases hlast
      obtain ⟨hbdup, key, hkey, hfree, rfl⟩ := add_iff.mp ⟨hc, hdup⟩
      obtain ⟨hapart, rfl⟩ := ih.mp ⟨hb, hbdup⟩
      exact ⟨⟨hapart, key, hkey, hfree⟩, push_ofList hkey hfree⟩
    · rintro ⟨⟨hapart, key, hkey, hfree⟩, rfl⟩
      obtain ⟨hfold, hdup⟩ := ih.mpr ⟨hapart, rfl⟩
      obtain ⟨hadd, hdup'⟩ := add_iff.mpr ⟨hdup, key, hkey, hfree, (push_ofList hkey hfree).symm⟩
      refine ⟨?_, hdup'⟩
      rw [hfold]
      change List.foldlM (add w) (ofList w arms) [arm] = _
      rw [List.foldlM_cons, hadd]
      rfl

theorem duplicate_of_build {c : Case β} (hc : a.build = .ok c) : a.duplicate = none := by
  unfold build at hc
  split at hc
  · cases hc
  · assumption

namespace Apart

theorem perm (A : Apart w arms) (hperm : arms.Perm arms') : Apart w arms' where
  keyed arm harm := A.keyed arm (hperm.mem_iff.mpr harm)
  distinct := (hperm.pairwise_iff fun h => h.symm).mp A.distinct

theorem eq_of_key (A : Apart w arms) {x y : Arm β} (hx : x ∈ arms) (hy : y ∈ arms)
    (heq : x.key? w = y.key? w) : x = y := by
  have : Std.Symm fun x y : Arm β => x.key? w ≠ y.key? w := ⟨fun _ _ h => h.symm⟩
  by_contra hne
  exact A.distinct.forall hx hy hne heq

theorem immediate (A : Apart w arms) :
    (ofList w arms).immediate.Pairwise fun p q => p.1 ≠ q.1 := by
  refine List.pairwise_reverse.mpr (List.pairwise_filterMap.mpr (A.distinct.imp ?_))
  intro x y hne p hp q hq heq
  obtain ⟨u, hu, rfl⟩ := Arm.immediate?_eq_some.mp hp
  obtain ⟨v, hv, rfl⟩ := Arm.immediate?_eq_some.mp hq
  exact hne (by rw [hu, hv, BitVec.eq_of_toNat_eq heq])

theorem boxed (A : Apart w arms) : (ofList w arms).boxed.Pairwise fun p q => p.1 ≠ q.1 := by
  refine List.pairwise_reverse.mpr (List.pairwise_filterMap.mpr (A.distinct.imp ?_))
  intro x y hne p hp q hq heq
  obtain ⟨m, hm, rfl⟩ := Arm.boxed?_eq_some.mp hp
  obtain ⟨n, hn, rfl⟩ := Arm.boxed?_eq_some.mp hq
  exact hne (by rw [hm, hn, show m = n from heq.symm])

/-- The fallback of the tiers is the one among the arms. -/
theorem fallback_eq_some (A : Apart w arms) {b : β} :
    (ofList w arms).fallback = some b ↔ .fallback b ∈ arms := by
  constructor
  · intro h
    obtain ⟨arm, harm, hb⟩ := List.mem_filterMap.mp (List.mem_of_head? h)
    rwa [Arm.fallback?_eq_some.mp hb] at harm
  · intro h
    cases hf : (ofList w arms).fallback with
    | none => exact absurd h (fallback_eq_none.mp hf b)
    | some b' =>
      obtain ⟨arm, harm, hb⟩ := List.mem_filterMap.mp (List.mem_of_head? hf)
      rw [Arm.fallback?_eq_some.mp hb] at harm
      cases A.eq_of_key h harm rfl
      rfl

theorem fallback_perm (A : Apart w arms) (hperm : arms.Perm arms') :
    (ofList w arms').fallback = (ofList w arms).fallback := by
  refine Option.ext fun b => ?_
  rw [A.fallback_eq_some, (A.perm hperm).fallback_eq_some, hperm.mem_iff]

end Apart

theorem tier_perm {f : Arm β → Option (Nat × β)} (hperm : arms.Perm arms') :
    (arms.filterMap f).reverse.Perm (arms'.filterMap f).reverse :=
  ((List.reverse_perm _).trans (hperm.filterMap f)).trans (List.reverse_perm _).symm

/-- A tier has as many arms as are meant for it, and just the one if there is one. -/
theorem tier_of_filter {f : Arm β → Option (Nat × β)} {q : Arm β → Bool}
    (hf : ∀ arm ∈ arms, (f arm).isSome = q arm) :
    (arms.filterMap f).reverse.length = (arms.filter q).length ∧
      ∀ arm, arms.filter q = [arm] → ∃ p, f arm = some p ∧ (arms.filterMap f).reverse = [p] := by
  have hfilter : arms.filterMap f = (arms.filter q).filterMap f := by
    rw [List.filterMap_filter]
    refine List.filterMap_congr fun arm harm => ?_
    rw [← hf arm harm]
    cases f arm <;> rfl
  refine ⟨?_, fun arm harm => ?_⟩
  · rw [List.length_reverse, List.length_filterMap_eq_countP, ← List.countP_eq_length_filter]
    exact List.countP_congr fun arm harm => by rw [hf arm harm]
  · have hmem : arm ∈ arms.filter q := by simp [harm]
    obtain ⟨hin, hq⟩ := List.mem_filter.mp hmem
    obtain ⟨p, hp⟩ := Option.isSome_iff_exists.mp ((hf arm hin).trans hq)
    exact ⟨p, hp, by simp [hfilter, harm, hp]⟩

end Arms

/-! ### Tiers -/

namespace Tier

variable {l l' : List (Nat × β)} {live : Bool} {key : Option Nat} {hit : Route}

/-- What a tier makes of a key, when a match is to be reported as `hit`. -/
def answer (t : Tier β) (key : Option Nat) (hit : Route) : Option (β × Route) :=
  match t with
  | skip => none
  | elided branch => some (branch, .elided)
  | switch arms => (key.bind (arms[·]?)).map (·, hit)

/-- A table that was made of pairs with different keys holds just these. -/
theorem lookup_ofList (hl : l.Pairwise fun p q => p.1 ≠ q.1) {k : Nat} {b : β} :
    (Std.TreeMap.ofList l)[k]? = some b ↔ (k, b) ∈ l := by
  have hcmp : l.Pairwise fun p q => ¬ compare p.1 q.1 = .eq := by
    simpa [Nat.compare_eq_eq] using hl
  have hmem : ∀ b', (k, b') ∈ l → (Std.TreeMap.ofList l)[k]? = some b' := fun b' hb' =>
    Std.TreeMap.getElem?_ofList_of_mem (by simp) hcmp hb'
  refine ⟨fun h => ?_, hmem b⟩
  by_cases hk : k ∈ l.map Prod.fst
  · obtain ⟨⟨k', b'⟩, hb', rfl⟩ := List.mem_map.mp hk
    rw [hmem b' hb'] at h
    cases h
    exact hb'
  · rw [Std.TreeMap.getElem?_ofList_of_contains_eq_false (by simpa using hk)] at h
    cases h

/-- A tier answers without a test when it has one arm and nothing comes after it, and by its arm
for the key otherwise. -/
theorem answer_compile (hl : l.Pairwise fun p q => p.1 ≠ q.1) {x : β × Route} :
    (compile l live).answer key hit = some x ↔
      (live = false ∧ x.2 = .elided ∧ ∃ k, l = [(k, x.1)]) ∨
      ((live = true ∨ l.length ≠ 1) ∧ x.2 = hit ∧ ∃ k, key = some k ∧ (k, x.1) ∈ l) := by
  obtain ⟨b, route⟩ := x
  have hswitch : (switch (.ofList l)).answer key hit = some (b, route) ↔
      route = hit ∧ ∃ k, key = some k ∧ (k, b) ∈ l := by
    cases key with
    | none => simp [answer]
    | some k =>
      simp only [answer, Option.bind_some, Option.map_eq_some_iff, lookup_ofList hl]
      grind
  match l, live with
  | [], _ => simp [compile, answer]
  | [(k, b')], false => simp [compile, answer, eq_comm, and_comm]
  | [p], true => simpa [compile] using hswitch
  | p :: q :: r, _ => simpa [compile] using hswitch

/-- The arm for a key is the answer, with or without a test. -/
theorem answer_of_mem (hl : l.Pairwise fun p q => p.1 ≠ q.1) {k : Nat} {b : β} (hb : (k, b) ∈ l) :
    ∃ route, (compile l live).answer (some k) hit = some (b, route) := by
  by_cases hone : live = true ∨ l.length ≠ 1
  · exact ⟨hit, (answer_compile hl).mpr (.inr ⟨hone, rfl, k, rfl, hb⟩)⟩
  · obtain ⟨hlive, hlen⟩ := not_or.mp hone
    obtain ⟨p, rfl⟩ := List.length_eq_one_iff.mp (not_not.mp hlen)
    cases List.mem_singleton.mp hb
    exact ⟨.elided, (answer_compile hl).mpr (.inl ⟨by simpa using hlive, rfl, k, rfl⟩)⟩

theorem answer_eq_none (hl : l.Pairwise fun p q => p.1 ≠ q.1) (hone : live = true ∨ l.length ≠ 1)
    (hmiss : ∀ k b, key = some k → (k, b) ∉ l) : (compile l live).answer key hit = none := by
  cases hx : (compile l live).answer key hit with
  | none => rfl
  | some x =>
    rcases (answer_compile hl).mp hx with ⟨hlive, _, k, rfl⟩ | ⟨_, _, k, hk, hmem⟩
    · simp [hlive] at hone
    · exact absurd hmem (hmiss k x.1 hk)

/-- The order of its arms makes no difference to a tier. -/
theorem answer_perm (hl : l.Pairwise fun p q => p.1 ≠ q.1) (hperm : l.Perm l') :
    (compile l' live).answer key hit = (compile l live).answer key hit := by
  have hl' : l'.Pairwise fun p q => p.1 ≠ q.1 := (hperm.pairwise_iff fun h => h.symm).mp hl
  refine Option.ext fun x => ?_
  rw [answer_compile hl, answer_compile hl']
  simp only [hperm.length_eq, hperm.mem_iff]
  have hsingle : ∀ p, l' = [p] ↔ l = [p] := fun p =>
    ⟨fun h => List.perm_singleton.mp (h ▸ hperm), fun h => List.perm_singleton.mp (h ▸ hperm.symm)⟩
  simp only [hsingle]

end Tier

/-! ### Selection -/

/-- The uid that a value shows: the one in the header of the block that it refers to, if this is
not a pair. -/
def Heap.uid? (h : Heap w) (v : Word w) : Option Nat :=
  match v.ref? with
  | none => none
  | some r => if r.pair then none else some (Header.mk (h.space.cell r.offset)).uid

/-- A value shows a key. -/
def Arm.Key.Shown (h : Heap w) (v : Word w) : Arm.Key w → Prop
  | .word u => v = u
  | .uid n => h.uid? v = some n
  | .fallback => False

namespace Case

variable {cs : List Constructor} {fs : List Function} {h : Heap w} {O : Origins} {v : Word w}
  {arms : List (Arm β)}

/-- A case looks at the word first, and then at the uid that the value shows. -/
theorem select_eq (L : h.Labelled cs fs O) (hv : v.Into O.blocks) (c : Case β) :
    c.select h v = match c.immediate.answer (some v.toNat) .unboxed with
      | some x => .ok x
      | none => match c.boxed.answer (h.uid? v) .boxed with
        | some x => .ok x
        | none => c.otherwise := by
  have hboxed : c.selectBoxed h v = match c.boxed.answer (h.uid? v) .boxed with
      | some x => .ok x
      | none => c.otherwise := by
    unfold selectBoxed Tier.answer Heap.uid?
    cases c.boxed with
    | skip => rfl
    | elided b => rfl
    | switch m =>
      cases hr : v.ref? with
      | none => rfl
      | some r =>
        dsimp only
        split
        · rfl
        · next hpair =>
          rw [Heap.header_of_layout L.bounded L.layout (hv r hr) (by simpa using hpair)]
          dsimp only [Option.bind_some]
          cases m[(Header.mk (h.space.cell r.offset)).uid]? <;> rfl
  rw [← hboxed]
  unfold select
  cases c.immediate with
  | skip => rfl
  | elided b => rfl
  | switch m =>
    dsimp only [Tier.answer, Option.bind_some]
    cases m[v.toNat]? <;> rfl

/-- The dispatch does what the match of its arms says. A value goes to the arm that it matches. One
that matches none goes to the fallback; without a fallback it goes to the only arm that could be
meant, or there is no branch for it. By a test of its header, a value goes only to an arm that it
matches, so closures and pairs do not go anywhere that way. -/
structure Implements (c : Case β) (arms : List (Arm β)) (O : Origins) (h : Heap w) (v : Word w) :
    Prop where
  matched : ∀ arm ∈ arms, arm.Matches O v → ∃ route, c.select h v = .ok (arm.branch, route)
  fallback : (∀ arm ∈ arms, ¬ arm.Matches O v) → ∀ b, .fallback b ∈ arms →
    c.select h v = .ok (b, .fallback)
  unmatched : (∀ arm ∈ arms, ¬ arm.Matches O v) → (∀ b, .fallback b ∉ arms) →
    c.select h v = match arms.filter Arm.boxed, arms.filter Arm.immediate with
      | [arm], _ => .ok (arm.branch, .elided)
      | [], [arm] => .ok (arm.branch, .elided)
      | _, _ => .error (.error .unreachableCase)
  switched : ∀ b, c.select h v = .ok (b, .boxed) →
    ∃ arm ∈ arms, arm.boxed = true ∧ arm.Matches O v ∧ arm.branch = b
  unswitched : ∀ r, v.ref? = some r → (O r .pair ∨ ∃ f, O r (.closure f)) →
    ∀ b, c.select h v ≠ .ok (b, .boxed)

structure Compiled (w : Width) (arms : List (Arm β)) (c : Case β) : Prop where
  immediate : c.immediate = .compile (Arms.ofList w arms).immediate
    (!(Arms.ofList w arms).boxed.isEmpty || c.fallback.isSome)
  boxed : c.boxed = .compile (Arms.ofList w arms).boxed c.fallback.isSome
  fallback : c.fallback = (Arms.ofList w arms).fallback

variable {c : Case β}

theorem compiled_of_build (hc : (Arms.ofList w arms).build = .ok c) : Compiled w arms c := by
  cases hc
  exact ⟨rfl, rfl, rfl⟩

namespace Compiled

/-- The first tier finds nothing. -/
theorem immediate_missed (C : Compiled w arms c) (A : Arms.Apart w arms)
    (hone : (Arms.ofList w arms).boxed ≠ [] ∨ c.fallback.isSome = true ∨
      (Arms.ofList w arms).immediate.length ≠ 1)
    (hmiss : ∀ arm ∈ arms, arm.key? w ≠ some (.word v)) :
    c.immediate.answer (some v.toNat) .unboxed = none := by
  rw [C.immediate]
  refine Tier.answer_eq_none A.immediate ?_ fun k b hk hmem => ?_
  · rcases hone with hne | hsome | hlen
    · exact .inl (by simp [hne])
    · exact .inl (by simp [hsome])
    · exact .inr hlen
  · obtain ⟨arm, harm, u, hu, heq⟩ := Arms.mem_immediate.mp hmem
    cases hk
    have huv : v = u := BitVec.eq_of_toNat_eq (congrArg Prod.fst heq)
    exact hmiss arm harm (huv ▸ hu)

/-- The second tier finds nothing. -/
theorem boxed_missed (C : Compiled w arms c) (A : Arms.Apart w arms)
    (hone : c.fallback.isSome = true ∨ (Arms.ofList w arms).boxed.length ≠ 1)
    (hmiss : ∀ arm ∈ arms, ∀ n, h.uid? v = some n → arm.key? w ≠ some (.uid n)) :
    c.boxed.answer (h.uid? v) .boxed = none := by
  rw [C.boxed]
  refine Tier.answer_eq_none A.boxed hone fun k b hk hmem => ?_
  obtain ⟨arm, harm, n, hn, heq⟩ := Arms.mem_boxed.mp hmem
  cases heq
  exact hmiss arm harm k hk hn

end Compiled

section Match

variable (D : Distinct cs fs) (L : h.Labelled cs fs O) (hv : v.Into O.blocks)
  (harms : ∀ d b, .constructor d b ∈ arms → d ∈ cs) (A : Arms.Apart w arms)
  (C : Compiled w arms c)

include D L hv

/-- The uid that a value shows tells the constructor that it was built from. -/
theorem uid?_eq_some {d : Constructor} (hd : d ∈ cs) :
    h.uid? v = some d.uid ↔ ∃ r, v.ref? = some r ∧ O r (.constructor d) := by
  unfold Heap.uid?
  cases hr : v.ref? with
  | none => simp
  | some r =>
    constructor
    · dsimp only
      split
      · intro huid
        cases huid
      · next hpair =>
        intro huid
        obtain ⟨x, hx⟩ := hv r hr
        have heq := (L.bears r x hx).eq_constructor D hd (by simpa using hpair)
          (Option.some.inj huid)
        exact ⟨r, rfl, heq ▸ hx⟩
    · rintro ⟨q, hq, hd⟩
      cases hq
      obtain ⟨hpair, _, _, huid⟩ := L.bears r _ hd
      simp [hpair, huid]

include harms

/-- A value matches an arm when it shows the key of the arm. -/
theorem matches_iff {arm : Arm β} (harm : arm ∈ arms) {key : Arm.Key w}
    (hkey : arm.key? w = some key) : arm.Matches O v ↔ key.Shown h v := by
  cases key with
  | word u =>
    rcases Arm.key?_eq_word.mp hkey with ⟨n, b, rfl, hu⟩ | ⟨d, b, rfl, hr, hu⟩
    · simp [Arm.Matches, Arm.Key.Shown, hu, eq_comm]
    · simp [Arm.Matches, Arm.Key.Shown, hr, hu, eq_comm]
  | uid n =>
    obtain ⟨d, b, rfl, hr, rfl⟩ := Arm.key?_eq_uid.mp hkey
    simp only [Arm.Matches, hr, Arm.Key.Shown]
    exact (uid?_eq_some D L hv (harms d b harm)).symm
  | fallback =>
    obtain ⟨b, rfl⟩ := Arm.key?_eq_fallback.mp hkey
    rfl

include A C

/-- A value goes to the branch of the arm that it matches. -/
theorem select_of_matches {arm : Arm β} (harm : arm ∈ arms) (hm : arm.Matches O v) :
    ∃ route, c.select h v = .ok (arm.branch, route) := by
  obtain ⟨key, hkey⟩ := Option.ne_none_iff_exists'.mp (A.keyed arm harm)
  have hshown := (matches_iff D L hv harms harm hkey).mp hm
  rw [select_eq L hv]
  cases key with
  | word u =>
    cases hshown
    have hmem := Arms.mem_immediate.mpr ⟨arm, harm, v, hkey, rfl⟩
    obtain ⟨route, hroute⟩ := Tier.answer_of_mem A.immediate hmem
    exact ⟨route, by rw [C.immediate, hroute]⟩
  | uid n =>
    have hmem := Arms.mem_boxed.mpr ⟨arm, harm, n, hkey, rfl⟩
    obtain ⟨route, hroute⟩ := Tier.answer_of_mem A.boxed hmem
    -- The value is a reference, and the words of the first tier are not.
    have hfirst : c.immediate.answer (some v.toNat) .unboxed = none := by
      refine C.immediate_missed A (.inl (List.ne_nil_of_mem hmem)) fun x _ hx => ?_
      simp [Arm.Key.Shown, Heap.uid?, Arm.ref?_of_key hx] at hshown
    refine ⟨route, ?_⟩
    rw [hfirst, C.boxed, show h.uid? v = some n from hshown]
    dsimp only
    rw [hroute]
  | fallback => exact hshown.elim

/-- What matches no arm is left to the end, unless a tier leaves out its test. -/
theorem select_of_missed (hmiss : ∀ arm ∈ arms, ¬ arm.Matches O v)
    (himmediate : (Arms.ofList w arms).boxed ≠ [] ∨ c.fallback.isSome = true ∨
      (Arms.ofList w arms).immediate.length ≠ 1)
    (hboxed : c.fallback.isSome = true ∨ (Arms.ofList w arms).boxed.length ≠ 1) :
    c.select h v = c.otherwise := by
  have hfirst := C.immediate_missed A himmediate fun arm harm hkey =>
    hmiss arm harm ((matches_iff D L hv harms harm hkey).mpr rfl)
  have hsecond := C.boxed_missed A hboxed fun arm harm n hn hkey =>
    hmiss arm harm ((matches_iff D L hv harms harm hkey).mpr hn)
  rw [select_eq L hv, hfirst, hsecond]

theorem select_of_fallback (hmiss : ∀ arm ∈ arms, ¬ arm.Matches O v) {b : β}
    (hb : .fallback b ∈ arms) : c.select h v = .ok (b, .fallback) := by
  have hlast : c.fallback = some b := C.fallback.trans (A.fallback_eq_some.mpr hb)
  have hlive : c.fallback.isSome = true := by simp [hlast]
  rw [select_of_missed D L hv harms A C hmiss (.inr (.inl hlive)) (.inl hlive), otherwise, hlast]

/-- Where no arm matches and there is no fallback, a tier with only one arm is taken without a test.
-/
theorem select_of_unmatched (hmiss : ∀ arm ∈ arms, ¬ arm.Matches O v)
    (hnone : ∀ b, .fallback b ∉ arms) :
    c.select h v = match arms.filter Arm.boxed, arms.filter Arm.immediate with
      | [arm], _ => .ok (arm.branch, .elided)
      | [], [arm] => .ok (arm.branch, .elided)
      | _, _ => .error (.error .unreachableCase) := by
  have hlast : c.fallback = none := C.fallback.trans (Arms.fallback_eq_none.mpr hnone)
  have hdead : c.fallback.isSome = false := by simp [hlast]
  have hnowhere : c.otherwise = (.error (.error .unreachableCase) : Except (Fault w _) _) := by
    rw [otherwise, hlast]
  have hmissed := select_of_missed D L hv harms A C hmiss
  obtain ⟨hlenB, honeB⟩ :=
    Arms.tier_of_filter fun arm harm => (Arm.isSome_tiers (A.keyed arm harm)).2
  obtain ⟨hlenI, honeI⟩ :=
    Arms.tier_of_filter fun arm harm => (Arm.isSome_tiers (A.keyed arm harm)).1
  change (Arms.ofList w arms).boxed.length = (arms.filter Arm.boxed).length at hlenB
  change (Arms.ofList w arms).immediate.length = (arms.filter Arm.immediate).length at hlenI
  rcases hB : arms.filter Arm.boxed with _ | ⟨arm, _ | ⟨arm', rest⟩⟩
  · rw [hB] at hlenB
    rcases hI : arms.filter Arm.immediate with _ | ⟨arm, _ | ⟨arm', rest⟩⟩
    · exact (hmissed (.inr (.inr (by simp [hlenI, hI]))) (.inr (by simp [hlenB]))).trans hnowhere
    · obtain ⟨p, hp, hsingle⟩ := honeI arm hI
      obtain ⟨u, _, rfl⟩ := Arm.immediate?_eq_some.mp hp
      have hempty : (Arms.ofList w arms).boxed = [] := List.length_eq_zero_iff.mp hlenB
      have hfirst : c.immediate.answer (some v.toNat) .unboxed = some (arm.branch, .elided) := by
        rw [C.immediate]
        exact (Tier.answer_compile A.immediate).mpr
          (.inl ⟨by simp [hempty, hdead], rfl, u.toNat, hsingle⟩)
      rw [select_eq L hv, hfirst]
    · exact (hmissed (.inr (.inr (by simp [hlenI, hI]))) (.inr (by simp [hlenB]))).trans hnowhere
  · obtain ⟨p, hp, hsingle⟩ := honeB arm hB
    obtain ⟨n, _, rfl⟩ := Arm.boxed?_eq_some.mp hp
    have hfirst := C.immediate_missed A (.inl (by simp [Arms.ofList, hsingle])) fun x hx hkey =>
      hmiss x hx ((matches_iff D L hv harms hx hkey).mpr rfl)
    have hsecond : c.boxed.answer (h.uid? v) .boxed = some (arm.branch, .elided) := by
      rw [C.boxed]
      exact (Tier.answer_compile A.boxed).mpr (.inl ⟨hdead, rfl, n, hsingle⟩)
    rw [select_eq L hv, hfirst, hsecond]
  · have hlen : (Arms.ofList w arms).boxed.length = rest.length + 2 := by simp [hlenB, hB]
    refine (hmissed (.inl fun hnil => ?_) (.inr (by omega))).trans hnowhere
    simp [hnil] at hlen

/-- What was found by a test in the second tier matches its arm. -/
theorem matches_of_switched {b : β} (hs : c.select h v = .ok (b, .boxed)) :
    ∃ arm ∈ arms, arm.boxed = true ∧ arm.Matches O v ∧ arm.branch = b := by
  rw [select_eq L hv] at hs
  split at hs
  · next x hx =>
    cases hs
    rw [C.immediate] at hx
    rcases (Tier.answer_compile A.immediate).mp hx with ⟨_, hroute, _⟩ | ⟨_, hroute, _⟩ <;>
      cases hroute
  · split at hs
    · next x hx =>
      cases hs
      rw [C.boxed] at hx
      rcases (Tier.answer_compile A.boxed).mp hx with ⟨_, hroute, _⟩ | ⟨_, _, k, hk, hmem⟩
      · cases hroute
      · obtain ⟨arm, harm, n, hkey, heq⟩ := Arms.mem_boxed.mp hmem
        cases heq
        have hboxed : (arm.boxed? w).isSome = true := by
          rw [Arm.boxed?_eq_some.mpr ⟨k, hkey, rfl⟩]
          rfl
        exact ⟨arm, harm, (Arm.isSome_tiers (A.keyed arm harm)).2.symm.trans hboxed,
          (matches_iff D L hv harms harm hkey).mpr hk, rfl⟩
    · unfold otherwise at hs
      split at hs <;> cases hs

/-- No block is built as a pair or a closure and as a value of a constructor. -/
theorem not_switched {r : Ref} (hr : v.ref? = some r) (hO : O r .pair ∨ ∃ f, O r (.closure f))
    (b : β) : c.select h v ≠ .ok (b, .boxed) := by
  intro hs
  obtain ⟨arm, harm, hboxed, hm, _⟩ := matches_of_switched D L hv harms A C hs
  cases arm with
  | constructor d b =>
    simp only [Arm.boxed, beq_iff_eq] at hboxed
    simp only [Arm.Matches, hboxed] at hm
    obtain ⟨q, hq, hd⟩ := hm
    cases hr.symm.trans hq
    obtain ⟨hpair, hmem, _, huid⟩ := L.bears r _ hd
    rcases hO with hx | ⟨f, hx⟩ <;>
      cases (L.bears r _ hx).eq_constructor D hmem hpair huid
  | _ => cases hboxed

theorem implements_of_compiled : c.Implements arms O h v where
  matched _ harm hm := select_of_matches D L hv harms A C harm hm
  fallback hmiss _ hb := select_of_fallback D L hv harms A C hmiss hb
  unmatched := select_of_unmatched D L hv harms A C
  switched _ := matches_of_switched D L hv harms A C
  unswitched _ := not_switched D L hv harms A C

end Match

/-- Cases of the same arms in another order select alike. -/
theorem Compiled.select_perm {arms' : List (Arm β)} {c c' : Case β} (C : Compiled w arms c)
    (C' : Compiled w arms' c') (A : Arms.Apart w arms) (hperm : arms.Perm arms')
    (L : h.Labelled cs fs O) (hv : v.Into O.blocks) : c'.select h v = c.select h v := by
  have hfallback : c'.fallback = c.fallback :=
    C'.fallback.trans ((A.fallback_perm hperm).trans C.fallback.symm)
  have himmediate : (Arms.ofList w arms).immediate.Perm (Arms.ofList w arms').immediate :=
    Arms.tier_perm hperm
  have hboxed : (Arms.ofList w arms).boxed.Perm (Arms.ofList w arms').boxed := Arms.tier_perm hperm
  rw [select_eq L hv, select_eq L hv, C.immediate, C.boxed, C'.immediate, C'.boxed, hfallback,
    ← hboxed.isEmpty_eq, Tier.answer_perm A.immediate himmediate, Tier.answer_perm A.boxed hboxed]
  simp only [otherwise, hfallback]

/-- The arms of a case that can be built, over declared constructors, are dispatched as their match
says, and this in whatever order they are given. -/
theorem select_implements_match {b : Builder w κ} {a : Arms β} {c : Case β}
    (hb : b.Declares cs fs) (H : Heap.Stocked cs fs h O) (hv : v.Into O.blocks)
    (harms : ∀ d x, .constructor d x ∈ arms → d ∈ cs)
    (ha : arms.foldlM (Arms.add w) {} = .ok a) (hc : a.build = .ok c) :
    c.Implements arms O h v ∧
      ∀ arms', arms.Perm arms' → ∃ a' c', arms'.foldlM (Arms.add w) {} = .ok a' ∧
        a'.build = .ok c' ∧ c'.select h v = c.select h v := by
  obtain ⟨A, rfl⟩ := Arms.foldlM_add_iff.mp ⟨ha, Arms.duplicate_of_build hc⟩
  have C := compiled_of_build hc
  have L := H.labelled
  refine ⟨implements_of_compiled hb.distinct.1 L hv harms A C, fun arms' hperm => ?_⟩
  obtain ⟨ha', _⟩ := Arms.foldlM_add_iff.mpr ⟨A.perm hperm, rfl⟩
  exact ⟨_, _, ha', rfl, C.select_perm (compiled_of_build rfl) A hperm L hv⟩

def listConstructors : List Constructor :=
  [⟨9, 2, .boxed⟩, ⟨8, 0, .unboxed⟩, .builtin 0, .builtin 1, .builtin 2]

def listFunctions : List Function := [⟨10, ⟨2⟩, 2, 0⟩]

theorem declares_lists : ∃ b : Builder .bits64 Unit, b.Declares listConstructors listFunctions := by
  have hnil : Builder.constructor "Nil" 0 .unboxed (.empty : Builder .bits64 Unit) =
      .ok ⟨8, 0, .unboxed⟩ _ := rfl
  have hcons := Builder.Declares.constructor (.constructor .empty hnil)
    (show Builder.constructor "Cons" 2 .boxed _ = .ok ⟨9, 2, .boxed⟩ _ from rfl)
  exact ⟨_, hcons.function (show Builder.function "fold" 2 0 _ = .ok ⟨10, ⟨2⟩, 2, 0⟩ _ from rfl)⟩

/-- A value of the boxed constructor, a pair and a closure, one after the other. -/
theorem stocked_lists : ∃ (h : Heap .bits64) (O : Origins),
    Heap.Stocked listConstructors listFunctions h O ∧ O ⟨0, false⟩ (.constructor ⟨9, 2, .boxed⟩) ∧
    O ⟨3, true⟩ .pair ∧ O ⟨5, false⟩ (.closure ⟨10, ⟨2⟩, 2, 0⟩) := by
  have hvs : ∀ (O : Origins), ∀ v ∈ [(4 : Word .bits64), 8], v.Into O.blocks := by
    intro O v hv
    have hnone : ∀ v ∈ [(4 : Word .bits64), 8], v.ref? = none := by simp; decide
    exact Word.into_of_none (hnone v hv)
  have hmade : Heap.Stocked listConstructors listFunctions
      (Heap.vacant ⟨16, 16, 1.0⟩ : Heap .bits64) _ :=
    .made (Heap.create_vacant (by decide +kernel) (by decide))
  have hroom := hmade.reserved (show Heap.reserve _ 8 [] = .ok _ from rfl) rfl
  have hcons := hroom.constructed (List.mem_cons_self) (hvs _)
    (show Alloc.construct ⟨9, 2, .boxed⟩ [4, 8] _ = .ok _ _ from rfl)
  have hpair := hcons.paired (hvs _ 4 (by simp)) (hvs _ 8 (by simp))
    (show Alloc.makePair 4 8 _ = .ok _ _ from rfl)
  have hfold := hpair.closed (List.mem_cons_self) (by simp)
    (show Alloc.makeClosure ⟨10, ⟨2⟩, 2, 0⟩ [] _ = .ok _ _ from rfl)
  exact ⟨_, _, hfold, .inl (.inl (.inr ⟨rfl, rfl⟩)), .inl (.inr ⟨rfl, rfl⟩), .inr ⟨rfl, rfl⟩⟩

def listArms : List (Arm Nat) :=
  [.int 3 0, .constructor ⟨8, 0, .unboxed⟩ 1, .constructor ⟨9, 2, .boxed⟩ 2, .fallback 3]

/-- A list cell finds its branch whichever way round the arms were given, and a closure is not taken
for a cell. -/
theorem select_implements_match_lists :
    ∃ (h : Heap .bits64) (O : Origins) (a : Arms Nat) (c : Case Nat),
      Heap.Stocked listConstructors listFunctions h O ∧ O ⟨0, false⟩ (.constructor ⟨9, 2, .boxed⟩) ∧
      O ⟨5, false⟩ (.closure ⟨10, ⟨2⟩, 2, 0⟩) ∧ listArms.foldlM (Arms.add .bits64) {} = .ok a ∧
      a.build = .ok c ∧ (∃ route, c.select h (Ref.mk 0 false).word = .ok (2, route)) ∧
      (∀ x, c.select h (Ref.mk 5 false).word ≠ .ok (x, .boxed)) ∧
      ∃ a' c', listArms.reverse.foldlM (Arms.add .bits64) {} = .ok a' ∧ a'.build = .ok c' ∧
        c'.select h (Ref.mk 0 false).word = c.select h (Ref.mk 0 false).word := by
  obtain ⟨b, hb⟩ := declares_lists
  obtain ⟨h, O, H, hcons, -, hfold⟩ := stocked_lists
  have harms : ∀ d x, .constructor d x ∈ listArms → d ∈ listConstructors := by
    intro d x hd
    have hone : d = ⟨8, 0, .unboxed⟩ ∧ x = 1 ∨ d = ⟨9, 2, .boxed⟩ ∧ x = 2 := by
      simpa [listArms] using hd
    rcases hone with ⟨rfl, _⟩ | ⟨rfl, _⟩ <;> decide
  have hinto : ∀ r x, ((r : Ref).word : Word .bits64).ref? = some r → O r x →
      (r.word : Word .bits64).Into O.blocks := by
    intro r x hr hx q hq
    cases hr.symm.trans hq
    exact ⟨x, hx⟩
  have ha : listArms.foldlM (Arms.add .bits64) {} = .ok _ := rfl
  have hthere := select_implements_match hb H (hinto _ _ rfl hcons) harms ha rfl
  have hapart := select_implements_match hb H (hinto _ _ rfl hfold) harms ha rfl
  refine ⟨h, O, _, _, H, hcons, hfold, ha, rfl, ?_, ?_, hthere.2 _ listArms.reverse_perm.symm⟩
  · exact hthere.1.matched (.constructor ⟨9, 2, .boxed⟩ 2) (by simp [listArms]) ⟨_, rfl, hcons⟩
  · exact hapart.1.unswitched ⟨5, false⟩ rfl (.inr ⟨_, hfold⟩)

end Case

end Trampoline
