import Trampoline.Proofs.Dispatch

/-!
Arms that are given twice.

Arms are looked at as they are given, and an arm whose key is there already is noted, unless one was
noted before. So the note is about the first arm that repeats an earlier one, whatever comes after
it, and there is a note exactly when two arms have the same key. Words and uids are keys of different
kinds: a word never stands in the way of a uid. Without a note every arm is where it belongs.
-/

namespace Trampoline

variable {w : Width} {β : Type}

namespace Arm

variable {arm x y : Arm β}

def Fits (w : Width) : Arm β → Prop
  | int n _ => w.minInt ≤ n ∧ n ≤ w.maxInt
  | constructor c _ => c.representation = .unboxed → c.uid ≤ w.maxUid ∧ c.fields ≤ w.maxFields
  | fallback _ => True

def label : Arm β → CaseKey
  | int n _ => .integer n
  | constructor c _ => .constructor c.uid
  | fallback _ => .fallback

/-- The arm is for the word of a small integer or of an unboxed constructor. -/
def StandsFor (v : Word w) : Arm β → Prop
  | int n _ => Word.int n = .ok v
  | constructor c _ => c.representation = .unboxed ∧ c.unboxedValue = .ok v
  | fallback _ => False

/-- Two arms are for the same word, or for boxed constructors with the same uid, or for all that is
left. -/
inductive Clash (w : Width) : Arm β → Arm β → Prop where
  | word {x y : Arm β} {v : Word w} : x.StandsFor v → y.StandsFor v → Clash w x y
  | uid {c d : Constructor} {b b' : β} : c.representation = .boxed → d.representation = .boxed →
      c.uid = d.uid → Clash w (.constructor c b) (.constructor d b')
  | fallback {b b' : β} : Clash w (.fallback b) (.fallback b')

theorem standsFor_iff {v : Word w} : arm.StandsFor v ↔ arm.key? w = some (.word v) := by
  rw [key?_eq_word]
  cases arm <;> simp [StandsFor]

/-- An arm for which there is a word has a key. -/
theorem Fits.keyed (h : arm.Fits w) : arm.key? w ≠ none := by
  cases arm with
  | int n b =>
    have hint : Word.int n = .ok (Word.wrapInt n : Word w) := if_pos h
    simp [key?, hint, Except.toOption]
  | constructor c b =>
    cases hr : c.representation with
    | boxed => simp [key?, hr]
    | unboxed =>
      obtain ⟨hu, hf⟩ := h hr
      simp [key?, hr, Constructor.unboxedValue, Constructor.header, Header.checked_of_le hu hf,
        bind, Except.bind, pure, Except.pure, Except.toOption]
  | fallback b => simp [key?]

/-- Arms clash when they have the same key. -/
theorem clash_iff (hx : x.key? w ≠ none) : Clash w x y ↔ x.key? w = y.key? w := by
  constructor
  · intro h
    cases h with
    | word hx hy => rw [standsFor_iff.mp hx, standsFor_iff.mp hy]
    | uid hc hd huid => simp [key?, hc, hd, huid]
    | fallback => rfl
  · intro heq
    obtain ⟨key, hkey⟩ := Option.ne_none_iff_exists'.mp hx
    have hkey' : y.key? w = some key := heq.symm.trans hkey
    cases key with
    | word v => exact .word (standsFor_iff.mpr hkey) (standsFor_iff.mpr hkey')
    | uid n =>
      obtain ⟨c, b, rfl, hc, hn⟩ := key?_eq_uid.mp hkey
      obtain ⟨d, b', rfl, hd, hn'⟩ := key?_eq_uid.mp hkey'
      exact .uid hc hd (hn.trans hn'.symm)
    | fallback =>
      obtain ⟨b, rfl⟩ := key?_eq_fallback.mp hkey
      obtain ⟨b', rfl⟩ := key?_eq_fallback.mp hkey'
      exact .fallback

/-- An arm has one place: the first tier, the second one, or after both. -/
theorem one_place (h : arm.key? w ≠ none) :
    [(arm.immediate? w).isSome, (arm.boxed? w).isSome, arm.fallback?.isSome].count true = 1 := by
  obtain ⟨himmediate, hboxed⟩ := isSome_tiers h
  rw [himmediate, hboxed]
  cases arm with
  | int n b => rfl
  | constructor c b => cases hr : c.representation <;> simp [immediate, boxed, fallback?, hr]
  | fallback b => rfl

end Arm

namespace Arms

variable {a : Arms β} {arm : Arm β} {arms : List (Arm β)}

/-! ### One arm more -/

/-- What all arms do: the first of them that is there already is noted. -/
theorem noted_of_taken {taken : Prop} [Decidable taken] {d b : Arms β} {label : CaseKey}
    (hd : d.duplicate = (a.repeated label).duplicate) (hb : b.duplicate = a.duplicate) :
    (∀ key, a.duplicate = some key → (if taken then d else b).duplicate = some key) ∧
      (a.duplicate = none → taken → (if taken then d else b).duplicate = some label) := by
  constructor
  · intro key hkey
    split
    · rw [hd, repeated, hkey]
      rfl
    · rw [hb, hkey]
  · intro hnone htaken
    rw [if_pos htaken, hd, repeated, hnone]
    rfl

/-- An arm with a key is accepted. It is noted if its key is there and nothing has been noted. -/
theorem add_noted {key : Arm.Key w} (hkey : arm.key? w = some key) :
    ∃ a', add w a arm = .ok a' ∧ (∀ k, a.duplicate = some k → a'.duplicate = some k) ∧
      (a.duplicate = none → a.Has key → a'.duplicate = some arm.label) := by
  have himmediate : ∀ (v : Word w) (branch : β) (label : CaseKey),
      (∀ k, a.duplicate = some k → (a.addImmediate v branch label).duplicate = some k) ∧
        (a.duplicate = none → a.Has (.word v) →
          (a.addImmediate v branch label).duplicate = some label) := by
    intro v branch label
    have hany : a.Has (.word v) ↔ (a.immediate.any (·.1 == v.toNat)) = true := by simp [Has]
    rw [addImmediate, hany]
    exact noted_of_taken rfl rfl
  cases key with
  | word v =>
    rcases Arm.key?_eq_word.mp hkey with ⟨n, b, rfl, hv⟩ | ⟨c, b, rfl, hr, hv⟩
    · have hadd : add w a (.int n b) = .ok (a.addImmediate v b (.integer n)) := by
        simp [add, int, hv, bind, Except.bind, pure, Except.pure]
      exact ⟨_, hadd, himmediate v b _⟩
    · have hadd : add w a (.constructor c b) = .ok (a.addImmediate v b (.constructor c.uid)) := by
        simp [add, constructor, hr, hv, bind, Except.bind, pure, Except.pure]
      exact ⟨_, hadd, himmediate v b _⟩
  | uid n =>
    obtain ⟨c, b, rfl, hr, rfl⟩ := Arm.key?_eq_uid.mp hkey
    have hany : a.Has (w := w) (.uid c.uid) ↔ (a.boxed.any (·.1 == c.uid)) = true := by simp [Has]
    have hadd : add w a (.constructor c b) =
        .ok (if a.boxed.any (·.1 == c.uid) then a.repeated (.constructor c.uid)
          else { a with boxed := (c.uid, b) :: a.boxed }) := by
      rw [add, constructor, hr, ← apply_ite]
    rw [hany]
    exact ⟨_, hadd, noted_of_taken rfl rfl⟩
  | fallback =>
    obtain ⟨b, rfl⟩ := Arm.key?_eq_fallback.mp hkey
    refine ⟨_, rfl, ?_⟩
    rw [setFallback_eq]
    exact noted_of_taken rfl rfl

/-! ### All arms -/

/-- The arm repeats an earlier one, and is the first to do so. -/
def FirstRepeat (w : Width) (arms : List (Arm β)) (arm : Arm β) : Prop :=
  ∃ before after, arms = before ++ arm :: after ∧
    (before.Pairwise fun x y => ¬ x.Clash w y) ∧ ∃ x ∈ before, x.Clash w arm

theorem FirstRepeat.append {arm' : Arm β} (h : FirstRepeat w arms arm) :
    FirstRepeat w (arms ++ [arm']) arm := by
  obtain ⟨before, after, rfl, hbefore, hrepeat⟩ := h
  exact ⟨before, after ++ [arm'], by simp, hbefore, hrepeat⟩

theorem Apart.pairwise (A : Apart w arms) : arms.Pairwise fun x y => ¬ x.Clash w y := by
  refine A.distinct.imp_of_mem fun hx _ hne => ?_
  rwa [Arm.clash_iff (A.keyed _ hx)]

/-- Arms whose keys are apart have one fallback among them, or none. -/
theorem Apart.toList_fallback (A : Apart w arms) :
    (ofList w arms).fallback.toList = arms.filterMap Arm.fallback? := by
  have hpairwise : (arms.filterMap Arm.fallback?).Pairwise fun _ _ => False := by
    refine List.pairwise_filterMap.mpr (A.distinct.imp ?_)
    intro x y hne b hb b' hb'
    rw [Arm.fallback?_eq_some.mp hb, Arm.fallback?_eq_some.mp hb'] at hne
    exact hne rfl
  change (arms.filterMap Arm.fallback?).head?.toList = arms.filterMap Arm.fallback?
  match arms.filterMap Arm.fallback?, hpairwise with
  | [], _ => rfl
  | [b], _ => rfl
  | b :: b' :: rest, h => exact (List.rel_of_pairwise_cons h List.mem_cons_self).elim

/-- Arms that fit are all accepted, and what is noted is the first repeat among them. -/
theorem foldlM_add_noted (hfits : ∀ arm ∈ arms, arm.Fits w) :
    ∃ a, arms.foldlM (add w) {} = .ok a ∧
      (a.duplicate = none ∨ ∃ arm, FirstRepeat w arms arm ∧ a.duplicate = some arm.label) := by
  induction arms using List.reverseRecOn with
  | nil => exact ⟨{}, rfl, .inl rfl⟩
  | append_singleton arms arm ih =>
    obtain ⟨a, ha, hnoted⟩ := ih fun x hx => hfits x (List.mem_append_left _ hx)
    obtain ⟨key, hkey⟩ := Option.ne_none_iff_exists'.mp (hfits arm (by simp)).keyed
    obtain ⟨a', ha', hkeep, hnote⟩ := add_noted (a := a) hkey
    have hfold : (arms ++ [arm]).foldlM (add w) {} = .ok a' := by
      rw [List.foldlM_append, ha]
      change List.foldlM (add w) a [arm] = _
      rw [List.foldlM_cons, ha']
      rfl
    refine ⟨a', hfold, ?_⟩
    rcases hnoted with hnone | ⟨first, hfirst, hdup⟩
    · obtain ⟨A, rfl⟩ := foldlM_add_iff.mp ⟨ha, hnone⟩
      by_cases hhas : (ofList w arms).Has key
      · obtain ⟨x, hx, hxkey⟩ := has_ofList.mp hhas
        have hclash : x.Clash w arm := (Arm.clash_iff (A.keyed x hx)).mpr (hxkey.trans hkey.symm)
        exact .inr ⟨arm, ⟨arms, [], rfl, A.pairwise, x, hx, hclash⟩, hnote hnone hhas⟩
      · obtain ⟨hadd, hfree⟩ := add_iff.mpr ⟨hnone, key, hkey, hhas, rfl⟩
        rw [ha'] at hadd
        cases hadd
        exact .inl hfree
    · exact .inr ⟨first, hfirst.append, hkeep _ hdup⟩

end Arms

/-! ### Tiers -/

namespace Tier

variable {l : List (Nat × β)} {live : Bool}

/-- The tier has these arms and no others. A tier without a test has one arm, of which it keeps the
branch. -/
inductive Holds : Tier β → List (Nat × β) → Prop where
  | skip : Holds .skip []
  | elided {k : Nat} {branch : β} : Holds (.elided branch) [(k, branch)]
  | switch {arms : Std.TreeMap Nat β} {l : List (Nat × β)} :
      arms.toList.Perm l → Holds (.switch arms) l

theorem toList_ofList (hl : l.Pairwise fun p q => p.1 ≠ q.1) :
    (Std.TreeMap.ofList l).toList.Perm l := by
  have hdistinct : (Std.TreeMap.ofList l).toList.Nodup :=
    Std.TreeMap.distinct_keys_toList.imp fun {p q} hne heq => hne (by simp [heq])
  have hl' : l.Nodup := hl.imp fun hne heq => hne (congrArg Prod.fst heq)
  refine (List.perm_ext_iff_of_nodup hdistinct hl').mpr fun ⟨k, b⟩ => ?_
  rw [Std.TreeMap.mem_toList_iff_getElem?_eq_some, lookup_ofList hl]

theorem holds_compile (hl : l.Pairwise fun p q => p.1 ≠ q.1) : (compile l live).Holds l := by
  match l, live with
  | [], _ => exact .skip
  | [(k, b)], false => exact .elided
  | [p], true => exact .switch (toList_ofList hl)
  | p :: q :: r, _ => exact .switch (toList_ofList hl)

theorem Holds.perm {t : Tier β} {l' : List (Nat × β)} (h : t.Holds l) (hperm : l.Perm l') :
    t.Holds l' := by
  cases h with
  | skip =>
    cases List.nil_perm.mp hperm
    exact .skip
  | elided =>
    cases List.singleton_perm.mp hperm
    exact .elided
  | switch htoList => exact .switch (htoList.trans hperm)

theorem Holds.armCount {t : Tier β} (h : t.Holds l) : t.armCount = l.length := by
  cases h with
  | skip => rfl
  | elided => rfl
  | switch htoList => rw [← htoList.length_eq, Std.TreeMap.length_toList, Tier.armCount]

end Tier

namespace Case

variable {arms : List (Arm β)} {c : Case β}

/-- A case has the arms that it was given, each of them in one place. -/
structure Houses (w : Width) (c : Case β) (arms : List (Arm β)) : Prop where
  immediate : c.immediate.Holds (arms.filterMap (Arm.immediate? w))
  boxed : c.boxed.Holds (arms.filterMap (Arm.boxed? w))
  fallback : c.fallback.toList = arms.filterMap Arm.fallback?
  one_place : ∀ arm ∈ arms,
    [(arm.immediate? w).isSome, (arm.boxed? w).isSome, arm.fallback?.isSome].count true = 1
  counts : c.armCounts = ((arms.filter Arm.immediate).length, (arms.filter Arm.boxed).length)

/-- A compiled case has each of its arms in one place. -/
theorem Compiled.houses (C : Compiled w arms c) (A : Arms.Apart w arms) : c.Houses w arms := by
  have himmediate : c.immediate.Holds (arms.filterMap (Arm.immediate? w)) := by
    rw [C.immediate]
    exact (Tier.holds_compile A.immediate).perm (List.reverse_perm _)
  have hboxed : c.boxed.Holds (arms.filterMap (Arm.boxed? w)) := by
    rw [C.boxed]
    exact (Tier.holds_compile A.boxed).perm (List.reverse_perm _)
  have htiers := fun arm harm => Arm.isSome_tiers (A.keyed arm harm)
  obtain ⟨hlenI, _⟩ := Arms.tier_of_filter fun arm harm => (htiers arm harm).1
  obtain ⟨hlenB, _⟩ := Arms.tier_of_filter fun arm harm => (htiers arm harm).2
  rw [List.length_reverse] at hlenI hlenB
  refine ⟨himmediate, hboxed, ?_, fun arm harm => Arm.one_place (A.keyed arm harm), ?_⟩
  · rw [C.fallback]
    exact A.toList_fallback
  · rw [armCounts, himmediate.armCount, hboxed.armCount, hlenI, hlenB]

end Case

namespace Arms

variable {arms : List (Arm β)}

/-- Arms that fit can be given in any number and order. There is no case of them exactly when two of
them clash, and the first one that clashes with an earlier one is reported. Else the case has all of
them, each in its place. -/
theorem build_detects_repeats (hfits : ∀ arm ∈ arms, arm.Fits w) :
    ∃ a, arms.foldlM (add w) {} = .ok a ∧
      ((∃ key, a.build = .error (.duplicateCase key)) ↔
        ∃ x y, [x, y].Sublist arms ∧ x.Clash w y) ∧
      (∀ e, a.build = .error e → ∃ arm, FirstRepeat w arms arm ∧ e = .duplicateCase arm.label) ∧
      ∀ c, a.build = .ok c → c.Houses w arms := by
  obtain ⟨a, ha, hnone | ⟨arm, hfirst, hdup⟩⟩ := foldlM_add_noted hfits
  · obtain ⟨A, rfl⟩ := foldlM_add_iff.mp ⟨ha, hnone⟩
    have hclashes : ¬ ∃ x y, [x, y].Sublist arms ∧ x.Clash w y := by
      rintro ⟨x, y, hxy, hclash⟩
      exact List.pairwise_iff_forall_sublist.mp A.pairwise hxy hclash
    have hbuild : ∃ c, (ofList w arms).build = .ok c := ⟨_, rfl⟩
    obtain ⟨c, hc⟩ := hbuild
    refine ⟨_, ha, ?_, ?_, fun c' hc' => (Case.compiled_of_build hc').houses A⟩
    · simp [hc, hclashes]
    · intro e he
      rw [hc] at he
      cases he
  · have hbuild : a.build = .error (.duplicateCase arm.label) := by rw [build, hdup]
    refine ⟨a, ha, ⟨fun _ => ?_, fun _ => ⟨_, hbuild⟩⟩, fun e he => ?_, fun c hc => ?_⟩
    · obtain ⟨before, after, rfl, _, x, hx, hclash⟩ := hfirst
      have hpair : [x, arm].Sublist (before ++ arm :: after) :=
        (List.singleton_sublist.mpr hx).append ((List.nil_sublist after).cons_cons arm)
      exact ⟨x, arm, hpair, hclash⟩
    · rw [hbuild] at he
      cases he
      exact ⟨arm, hfirst, rfl⟩
    · rw [hbuild] at hc
      cases hc

/-- An integer, two boxed constructors with the uid of an unboxed one, and the integer again. -/
def echoing : List (Arm Nat) :=
  [.int 3 0, .constructor ⟨8, 0, .unboxed⟩ 1, .constructor ⟨8, 2, .boxed⟩ 2, .int 3 3,
    .constructor ⟨8, 1, .boxed⟩ 4, .fallback 5, .fallback 6]

/-- The uid of a boxed constructor does not clash with an unboxed one, and of the three repeats the
first is reported. -/
theorem build_detects_repeats_echoing :
    (∀ arm ∈ echoing, arm.Fits .bits32) ∧
    (∃ a, echoing.foldlM (add .bits32) {} = .ok a ∧
      a.build = .error (.duplicateCase (.integer 3)) ∧
      ∃ arm, FirstRepeat .bits32 echoing arm ∧ arm.label = .integer 3) ∧
    ∃ a c, (echoing.take 3).foldlM (add .bits32) {} = .ok a ∧ a.build = .ok c ∧
      c.Houses .bits32 (echoing.take 3) ∧ c.armCounts = (2, 1) := by
  have hfits : ∀ arm ∈ echoing, arm.Fits .bits32 := by
    simp [echoing, Arm.Fits, Width.minInt, Width.maxInt, Width.maxUid, Width.uidRange]
  refine ⟨hfits, ?_, ?_⟩
  · obtain ⟨a, ha, _, hreport, _⟩ := build_detects_repeats hfits
    cases ha
    obtain ⟨arm, hfirst, hlabel⟩ := hreport (.duplicateCase (.integer 3)) rfl
    exact ⟨_, rfl, rfl, arm, hfirst, (ProgramError.duplicateCase.inj hlabel).symm⟩
  · have htake : ∀ arm ∈ echoing.take 3, arm.Fits .bits32 := fun arm harm =>
      hfits arm (List.mem_of_mem_take harm)
    obtain ⟨a, ha, _, _, hhouses⟩ := build_detects_repeats htake
    cases ha
    exact ⟨_, _, rfl, rfl, hhouses _ rfl, (hhouses _ rfl).counts⟩

end Arms

end Trampoline
