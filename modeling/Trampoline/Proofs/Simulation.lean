import Trampoline.Proofs.Comparison
import Trampoline.Proofs.Stacks

/-!
Twin machines: two machines side by side, on twin heaps.

Twin machines hold related words in the result register and on the stack, and agree on everything
that does not depend on where blocks lie. Operations given related words keep them twins, and end
alike. Traps are tolerated on the right side, where less may have been reserved.

On the way, one part of the past is kept in mind: some slots at the bottom of the left stack are
those of an earlier machine, moved by the collections since then.
-/

namespace Trampoline

variable {w : Width}

/-- What the twins are measured against: slots of an earlier machine that are still on the stack,
and what had been printed on either side. -/
structure Scene (w : Width) where
  origin : Machine w
  kept : Nat
  printed : List (PrintKind × String)
  printed' : List (PrintKind × String)

def Scene.lower (S : Scene w) (k : Nat) : Scene w := { S with kept := k }

namespace Machine

def printed (m : Machine w) : List (PrintKind × String) :=
  m.sink.seen.toList.map fun p => (p.kind, p.text)

def keeping (m : Machine w) (k : Nat) : Scene w := ⟨m, k, m.printed, m.printed⟩

structure Outward (S : Scene w) (m n : Machine w) : Prop where
  steps : m.steps = n.steps
  highWater : m.stack.highWater = n.stack.highWater
  keep : m.sink.keep = n.sink.keep
  printed : ∃ ps, m.printed = S.printed ++ ps ∧ n.printed = S.printed' ++ ps

theorem Outward.setJournal {S : Scene w} {m n : Machine w} (h : Outward S m n) (j l : Journal w) :
    Outward S { m with journal := j } { n with journal := l } :=
  ⟨h.steps, h.highWater, h.keep, h.printed⟩

/-- Slots of the earlier machine are still on the stack, moved, and its limit is the same. -/
def Carried (S : Scene w) (W : Pairing) (m : Machine w) : Prop :=
  S.kept ≤ m.slots.length ∧ m.maxStackWords = S.origin.maxStackWords ∧ ∃ ψ : Ref → Ref → Prop,
    S.origin.heap.space.Matched m.heap.space ψ ∧ (∀ a b, ψ a b → b ∈ W.lefts) ∧
    List.Forall₂ (Word.Matched ψ) (S.origin.slots.take S.kept) (m.slots.take S.kept)

/-- Two machines with the same frame pointer `f` look the same through pairs of blocks. -/
structure Twins (S : Scene w) (f : Nat) (W : Pairing) (m n : Machine w) : Prop where
  heap : Heap.Twins W m.heap n.heap
  result : Word.Matched W.Links m.result n.result
  slots : List.Forall₂ (Word.Matched W.Links) m.slots n.slots
  fp : m.fp = f
  fp' : n.fp = f
  names : m.names = n.names
  maxStack : m.maxStackWords = n.maxStackWords
  outward : Outward S m n
  carried : Carried S W m

/-- Only the bottom slots matter to the past. -/
theorem Carried.of_slots {S : Scene w} {W : Pairing} {m m' : Machine w} (C : Carried S W m)
    (hheap : m'.heap = m.heap) (hmax : m'.maxStackWords = m.maxStackWords)
    (hlen : S.kept ≤ m'.slots.length) (hslots : m'.slots.take S.kept = m.slots.take S.kept) :
    Carried S W m' := by
  obtain ⟨_, hstack, ψ, hM, hψ, hs⟩ := C
  exact ⟨hlen, hmax.trans hstack, ψ, hheap ▸ hM, hψ, hslots ▸ hs⟩

/-- The past is carried through a relocation. -/
theorem Carried.relocate {S : Scene w} {W V : Pairing} {m m' : Machine w} {ρ : Nat → Nat}
    {roots : List (Word w)} (C : Carried S W m)
    (R : m.heap.Relocates roots m'.heap (m'.result :: m'.slots) ρ)
    (hroots : roots = m.result :: m.slots) (hmax : m'.maxStackWords = m.maxStackWords)
    (hV : V.lefts = {x | ∃ a, m.heap.space.Moves roots ρ a x}) : Carried S V m' := by
  obtain ⟨hlen, hstack, ψ, hM, _, hslots⟩ := C
  have hmoved : List.Forall₂ (Word.Matched (m.heap.space.Moves roots ρ)) m.slots m'.slots := by
    have hall := R.rooted
    rw [hroots] at hall ⊢
    cases hall with
    | cons _ h => exact h
  refine ⟨hmoved.length_eq ▸ hlen, hmax.trans hstack, _, hM.trans R.matched, ?_, ?_⟩
  · rintro a c ⟨b, _, hbc⟩
    rw [hV]
    exact ⟨b, hbc⟩
  · exact forall₂_trans (fun _ _ _ h h' => h.trans h') hslots (List.forall₂_take _ hmoved)

theorem Carried.lower {S : Scene w} {W : Pairing} {m : Machine w} (C : Carried S W m) {k : Nat}
    (hk : k ≤ S.kept) : Carried (S.lower k) W m := by
  obtain ⟨hlen, hstack, ψ, hM, hψ, hslots⟩ := C
  refine ⟨Nat.le_trans hk hlen, hstack, ψ, hM, hψ, ?_⟩
  have htake := List.forall₂_take k hslots
  rw [List.take_take, List.take_take, Nat.min_eq_left hk] at htake
  exact htake

namespace Twins

variable {S : Scene w} {f : Nat} {W : Pairing} {m n : Machine w} {v u : Word w}
  {vs us : List (Word w)}

theorem depth (M : Twins S f W m n) : m.stack.depth = n.stack.depth := by
  rw [depth_eq, depth_eq]
  exact M.slots.length_eq

theorem lower (M : Twins S f W m n) {k : Nat} (hk : k ≤ S.kept) : Twins (S.lower k) f W m n :=
  ⟨M.heap, M.result, M.slots, M.fp, M.fp', M.names, M.maxStack,
    ⟨M.outward.steps, M.outward.highWater, M.outward.keep, M.outward.printed⟩,
    M.carried.lower hk⟩

/-- A machine that has a twin is its own twin, with any part of its stack to be kept. -/
theorem diag (M : Twins S f W m n) {k : Nat} (hk : k ≤ m.slots.length) :
    Twins (m.keeping k) f W.diag m m where
  heap := M.heap.diag
  result := Pairing.matched_diag M.result
  slots := Pairing.forall₂_diag M.slots
  fp := M.fp
  fp' := M.fp
  names := rfl
  maxStack := rfl
  outward := ⟨rfl, rfl, rfl, [], (List.append_nil _).symm, (List.append_nil _).symm⟩
  carried := ⟨hk, rfl, W.diag.Links, M.heap.diag.matched, fun _ b hab => ⟨b, by
      obtain ⟨ha, rfl⟩ := Pairing.links_diag.mp hab
      exact Pairing.links_diag.mpr ⟨ha, rfl⟩⟩,
    List.forall₂_take k (Pairing.forall₂_diag M.slots)⟩

/-! ### Changes to one part -/

theorem setJournal (M : Twins S f W m n) (j l : Journal w) :
    Twins S f W { m with journal := j } { n with journal := l } :=
  ⟨M.heap, M.result, M.slots, M.fp, M.fp', M.names, M.maxStack, M.outward.setJournal j l,
    M.carried⟩

theorem ticked (M : Twins S f W m n) : Twins S f W m.ticked n.ticked :=
  ⟨M.heap, M.result, M.slots, M.fp, M.fp', M.names, M.maxStack,
    ⟨congrArg (· + 1) M.outward.steps, M.outward.highWater, M.outward.keep, M.outward.printed⟩,
    M.carried⟩

theorem setResult (M : Twins S f W m n) (hvu : Word.Matched W.Links v u) :
    Twins S f W { m with result := v } { n with result := u } :=
  ⟨M.heap, hvu, M.slots, M.fp, M.fp', M.names, M.maxStack,
    ⟨M.outward.steps, M.outward.highWater, M.outward.keep, M.outward.printed⟩, M.carried⟩

theorem setFp (M : Twins S f W m n) (g : Nat) :
    Twins S g W { m with fp := g } { n with fp := g } :=
  ⟨M.heap, M.result, M.slots, rfl, rfl, M.names, M.maxStack,
    ⟨M.outward.steps, M.outward.highWater, M.outward.keep, M.outward.printed⟩, M.carried⟩

theorem setStack (M : Twins S f W m n) {s t : Stack w}
    (hslots : List.Forall₂ (Word.Matched W.Links) s.slots.toList t.slots.toList)
    (hhigh : s.highWater = t.highWater) (hlen : S.kept ≤ s.slots.toList.length)
    (htake : s.slots.toList.take S.kept = m.slots.take S.kept) :
    Twins S f W { m with stack := s } { n with stack := t } :=
  ⟨M.heap, M.result, hslots, M.fp, M.fp', M.names, M.maxStack,
    ⟨M.outward.steps, hhigh, M.outward.keep, M.outward.printed⟩,
    M.carried.of_slots rfl rfl hlen htake⟩

/-- Twins stay twins when related words are pushed. -/
theorem pushed (M : Twins S f W m n) (hvu : Word.Matched W.Links v u) :
    Twins S f W { m with stack := m.stack.push v } { n with stack := n.stack.push u } := by
  have hkept := M.carried.1
  apply M.setStack
  · rw [Stack.slots_push, Stack.slots_push]
    exact List.rel_append M.slots (.cons hvu .nil)
  · rw [Stack.highWater_push, Stack.highWater_push, M.depth, M.outward.highWater]
  · rw [Stack.slots_push, List.length_append]
    exact Nat.le_add_right_of_le hkept
  · rw [Stack.slots_push]
    exact List.take_append_of_le_length hkept

theorem pushedList (M : Twins S f W m n) (hvs : List.Forall₂ (Word.Matched W.Links) vs us) :
    Twins S f W { m with stack := m.stack.pushList vs } { n with stack := n.stack.pushList us } := by
  induction hvs generalizing m n with
  | nil => exact M
  | cons hvu _ ih => exact ih (M.pushed hvu)

/-- Twins stay twins when slots are dropped, as long as those to be kept are not. -/
theorem shrunk (M : Twins S f W m n) {d : Nat} (hd : S.kept ≤ d) :
    Twins S f W { m with stack := m.stack.shrink d } { n with stack := n.stack.shrink d } := by
  have hkept := M.carried.1
  apply M.setStack
  · rw [Stack.slots_shrink, Stack.slots_shrink]
    exact List.forall₂_take d M.slots
  · exact M.outward.highWater
  · rw [Stack.slots_shrink, List.length_take]
    exact Nat.le_min.mpr ⟨hd, hkept⟩
  · rw [Stack.slots_shrink, List.take_take, Nat.min_eq_left hd]
    rfl

/-- Twins stay twins when a slot above those to be kept is overwritten on both sides. -/
theorem replaced (M : Twins S f W m n) (hvu : Word.Matched W.Links v u) {i : Nat}
    (hi : S.kept ≤ i) :
    Twins S f W { m with stack := m.stack.replace i v } { n with stack := n.stack.replace i u } := by
  have hkept := M.carried.1
  apply M.setStack
  · rw [Stack.slots_replace, Stack.slots_replace]
    exact forall₂_set M.slots hvu i
  · exact M.outward.highWater
  · rw [Stack.slots_replace, List.length_set]
    exact hkept
  · rw [Stack.slots_replace, List.take_set_of_le hi]
    rfl

/-- The same text printed on both sides leaves the same to be seen. -/
theorem printedTwice (M : Twins S f W m n) (kind : PrintKind) (text : String) :
    Twins S f W { m with sink := m.sink.print ⟨kind, v, text⟩ }
      { n with sink := n.sink.print ⟨kind, u, text⟩ } := by
  obtain ⟨ps, hm, hn⟩ := M.outward.printed
  have hprint : ∀ (s : Sink w) (x : Word w),
      (s.print ⟨kind, x, text⟩).seen.toList.map (fun p => (p.kind, p.text)) =
        s.seen.toList.map (fun p => (p.kind, p.text)) ++
          if s.keep then [(kind, text)] else [] := by
    intro s x
    unfold Sink.print
    split <;> simp
  have hkeep : ∀ (s : Sink w) (x : Word w), (s.print ⟨kind, x, text⟩).keep = s.keep := by
    intro s x
    unfold Sink.print
    split <;> rfl
  refine ⟨M.heap, M.result, M.slots, M.fp, M.fp', M.names, M.maxStack,
    ⟨M.outward.steps, M.outward.highWater, ?_, ?_⟩, M.carried⟩
  · rw [hkeep, hkeep]
    exact M.outward.keep
  · refine ⟨ps ++ if m.sink.keep then [(kind, text)] else [], ?_, ?_⟩
    · rw [← List.append_assoc, ← hm]
      exact hprint m.sink v
    · rw [← List.append_assoc, ← hn, M.outward.keep]
      exact hprint n.sink u

/-! ### Stack operations -/

/-- How operations on twins end: with the same error, or in a given relation. -/
abbrev Alike {α β : Type} (S : Scene w) (Q : α → β → Machine w → Machine w → Prop) :
    Outcome w (Machine w) α → Outcome w (Machine w) β → Prop := Agree True (Outward S) Q

theorem checkStack (M : Twins S f W m n) (words : Nat) :
    Alike S (fun _ _ m' n' => m' = m ∧ n' = n) (Machine.checkStack words m)
      (Machine.checkStack words n) := by
  unfold Machine.checkStack
  refine Agree.get ?_
  rw [← M.depth, ← M.maxStack]
  split
  · exact ⟨rfl, M.outward⟩
  · exact ⟨rfl, rfl⟩

theorem push (M : Twins S f W m n) (hvu : Word.Matched W.Links v u) :
    Alike S (fun _ _ m' n' => Twins S f W m' n' ∧ m'.heap = m.heap ∧ m'.slots = m.slots ++ [v])
      (Machine.push v m) (Machine.push u n) :=
  ⟨M.pushed hvu, rfl, m.stack.slots_push v⟩

theorem pushList (M : Twins S f W m n) (hvs : List.Forall₂ (Word.Matched W.Links) vs us) :
    Alike S (fun _ _ m' n' => Twins S f W m' n' ∧ m'.heap = m.heap)
      (Machine.pushList vs m) (Machine.pushList us n) :=
  ⟨M.pushedList hvs, rfl⟩

/-- Twins drop their slots alike. -/
theorem truncate (M : Twins S f W m n) {d : Nat} (hd : S.kept ≤ d) :
    Alike S (fun _ _ m' n' => Twins S f W m' n' ∧ m'.heap = m.heap ∧ m'.slots.length = d)
      (Machine.truncate d m) (Machine.truncate d n) := by
  unfold Machine.truncate
  refine Agree.get ?_
  rw [← M.depth]
  split
  · trivial
  · next hdepth =>
    rw [depth_eq] at hdepth
    refine ⟨M.shrunk hd, rfl, ?_⟩
    change (m.stack.shrink d).slots.toList.length = d
    rw [Stack.slots_shrink, List.length_take]
    exact Nat.min_eq_left (Nat.not_lt.mp hdepth)

/-- Slots of twins hold related words. -/
theorem slot (M : Twins S f W m n) (i : Nat) :
    Alike S (fun a b m' n' => Twins S f W m' n' ∧ Word.Matched W.Links a b) (Machine.slot i m)
      (Machine.slot i n) := by
  unfold Machine.slot
  refine Agree.get (Agree.bind_except fun index index' hi hi' => ?_)
  rw [M.fp] at hi
  rw [M.fp', hi] at hi'
  cases hi'
  rw [← Array.getElem?_toList, ← Array.getElem?_toList]
  obtain ⟨hv, hu⟩ | ⟨v, u, hv, hu, hvu⟩ := forall₂_getElem? M.slots index
  · rw [Machine.slots] at hv
    rw [hv]
    trivial
  · rw [Machine.slots] at hv hu
    rw [hv, hu]
    exact ⟨M, hvu⟩

theorem setSlot (M : Twins S f W m n) (i : Nat) (hkept : S.kept ≤ f)
    (hvu : Word.Matched W.Links v u) :
    Alike S (fun _ _ m' n' => Twins S f W m' n') (Machine.setSlot i v m)
      (Machine.setSlot i u n) := by
  unfold Machine.setSlot
  refine Agree.get (Agree.bind_except fun index index' hi hi' => ?_)
  rw [M.fp] at hi
  rw [M.fp', hi] at hi'
  cases hi'
  have hle : S.kept ≤ index := by
    rw [Size.add_eq_ok hi]
    omega
  rw [← M.depth]
  split
  · trivial
  · exact M.replaced hvu hle

theorem pushLocal (M : Twins S f W m n) (hvu : Word.Matched W.Links v u) :
    Alike S (fun _ _ m' n' => Twins S f W m' n') (Machine.pushLocal v m)
      (Machine.pushLocal u n) := by
  refine Agree.bind (M.checkStack 1) ?_
  rintro _ _ _ _ ⟨rfl, rfl⟩
  exact M.pushed hvu

theorem lastResult (M : Twins S f W m n) :
    Alike S (fun a b m' n' => Twins S f W m' n' ∧ Word.Matched W.Links a b) (Machine.lastResult m)
      (Machine.lastResult n) :=
  ⟨M, M.result⟩

/-! ### Reading and printing -/

theorem render (M : Twins S f W m n) (hvu : Word.Matched W.Links v u) :
    Alike S (fun a b m' n' => Twins S f W m' n' ∧ a = b ∧ m' = m ∧ n' = n) (Machine.render v m)
      (Machine.render u n) := by
  refine Agree.get (Agree.except fun a b ha hb => ⟨M, ?_, rfl, rfl⟩)
  rw [M.names] at ha
  exact Except.ok.inj (ha.symm.trans ((M.heap.mirrors.renderLevels _ _ hvu).symm.trans hb))

theorem trace (M : Twins S f W m n) (hvu : Word.Matched W.Links v u) :
    Alike S (fun _ _ m' n' => Twins S f W m' n') (Machine.trace v m) (Machine.trace u n) := by
  refine Agree.bind (M.render hvu) ?_
  rintro text _ _ _ ⟨_, rfl, rfl, rfl⟩
  exact M.printedTwice .trace text

/-- What is recorded does not matter. -/
theorem dumpStack (M : Twins S f W m n) :
    Alike S (fun _ _ m' n' => Twins S f W m' n') (Machine.dumpStack m) (Machine.dumpStack n) := by
  obtain ⟨j, hj⟩ := m.dumpStack_eq
  obtain ⟨l, hl⟩ := n.dumpStack_eq
  rw [hj, hl]
  exact M.setJournal j l

theorem failure {α : Type} {Q : α → α → Machine w → Machine w → Prop} (M : Twins S f W m n)
    (hvu : Word.Matched W.Links v u) :
    Alike S Q (Machine.failure v m) (Machine.failure u n) := by
  refine Agree.bind (M.render hvu) ?_
  rintro text _ _ _ ⟨_, rfl, rfl, rfl⟩
  exact ⟨rfl, (M.printedTwice .failure text).outward⟩

theorem field (M : Twins S f W m n) (hvu : Word.Matched W.Links v u) (i : Nat)
    (hcl : m.heap.closure? v = .ok none) :
    Alike S (fun a b m' n' => Twins S f W m' n' ∧ Word.Matched W.Links a b) (Machine.field v i m)
      (Machine.field u i n) :=
  Agree.get (Agree.except fun _ _ ha hb => ⟨M, M.heap.field hvu hcl ha hb⟩)

theorem fst (M : Twins S f W m n) (hvu : Word.Matched W.Links v u) :
    Alike S (fun a b m' n' => Twins S f W m' n' ∧ Word.Matched W.Links a b) (Machine.fst v m)
      (Machine.fst u n) :=
  Agree.get (Agree.except fun _ _ ha hb => ⟨M, M.heap.fst hvu ha hb⟩)

theorem snd (M : Twins S f W m n) (hvu : Word.Matched W.Links v u) :
    Alike S (fun a b m' n' => Twins S f W m' n' ∧ Word.Matched W.Links a b) (Machine.snd v m)
      (Machine.snd u n) :=
  Agree.get (Agree.except fun _ _ ha hb => ⟨M, M.heap.snd hvu ha hb⟩)

theorem equalValues (M : Twins S f W m n) {x y : Word w} (hvu : Word.Matched W.Links v u)
    (hxy : Word.Matched W.Links x y) :
    Alike S (fun a b m' n' => Twins S f W m' n' ∧ a = b) (Machine.equalValues v x m)
      (Machine.equalValues u y n) := by
  refine Agree.get (Agree.bind_except fun r r' hr hr' => ?_)
  obtain ⟨rfl, hsome⟩ := M.heap.equal hvu hxy hr hr'
  cases r with
  | none => exact absurd rfl hsome
  | some b => exact ⟨M, rfl⟩

structure Views (W : Pairing) (h : Heap w) (c d : ClosureView w) : Prop where
  shown : h.closureAt c.object = some c
  links : W.Links c.object d.object
  same : d = { c with object := d.object }

theorem closureView (M : Twins S f W m n) (hvu : Word.Matched W.Links v u) :
    Alike S (fun c d m' n' => m' = m ∧ n' = n ∧ Views W m.heap c d) (Machine.closureView v m)
      (Machine.closureView u n) := by
  refine Agree.get (Agree.bind_except fun c d hc hd => ?_)
  obtain ⟨rfl, rfl⟩ | ⟨cl, b, rfl, rfl, hlink, hshown⟩ := M.heap.closure? hvu hc hd
  · exact ⟨rfl, M.outward⟩
  · exact ⟨rfl, rfl, hshown, hlink, rfl⟩

/-! ### Objects -/

/-- Post-condition of operations that answer a word and may have made new blocks. -/
def Answers (S : Scene w) (f : Nat) (W : Pairing) (v u : Word w) (m n : Machine w) : Prop :=
  ∃ V, W ⊆ V ∧ Twins S f V m n ∧ Word.Matched V.Links v u

theorem matched_mono {V : Pairing} (hWV : W ⊆ V) (hvu : Word.Matched W.Links v u) :
    Word.Matched V.Links v u :=
  hvu.mono fun _ _ hab => hWV hab

/-- Objects of related words are made on both sides, or it traps on one of them. -/
theorem allocate (M : Twins S f W m n) {x y : Alloc w (Word w)}
    {plan plan' : Heap w → Except (Trap w) (Plan w)} {words words' : Nat}
    (F : x.Follows plan words) (G : y.Follows plan' words')
    (hplan : ∀ p q, plan m.heap = .ok p → plan' n.heap = .ok q →
      Heap.Planned W m.heap n.heap p q) :
    Alike S (Answers S f W) (Machine.allocate x m) (Machine.allocate y n) := by
  cases hp : plan m.heap with
  | error t =>
    obtain ⟨_, hx, _⟩ := allocate_of_error F hp
    rw [hx]
    trivial
  | ok p =>
  cases hq : plan' n.heap with
  | error t =>
    obtain ⟨_, hy, _⟩ := allocate_of_error G hq
    rw [hy]
    exact Agree.trap_right trivial
  | ok q =>
  rw [allocate_of_ok F hp, allocate_of_ok G hq]
  obtain ⟨V, hWV, T, hvalue⟩ := M.heap.build (hplan p q hp hq)
  refine ⟨V, hWV, ⟨T, matched_mono hWV M.result, M.slots.imp fun _ _ h => matched_mono hWV h, M.fp,
    M.fp', M.names, M.maxStack,
    ⟨M.outward.steps, M.outward.highWater, M.outward.keep, M.outward.printed⟩, ?_⟩, hvalue⟩
  obtain ⟨hlen, hstack, ψ, hψM, hψ, hslots⟩ := M.carried
  refine ⟨hlen, hstack, ψ, hψM.of_keeps fun a b hab => M.heap.keeps_left _ (hψ a b hab), ?_, hslots⟩
  intro a b hab
  obtain ⟨c, hbc⟩ := hψ a b hab
  exact ⟨c, hWV hbc⟩

theorem construct (M : Twins S f W m n) (c : Constructor)
    (hvs : List.Forall₂ (Word.Matched W.Links) vs us) :
    Alike S (Answers S f W) (Machine.construct c vs m) (Machine.construct c us n) :=
  M.allocate (Alloc.follows_construct c vs) (Alloc.follows_construct c us) fun _ _ hp hq =>
    M.heap.construct hvs hp hq

theorem makePair (M : Twins S f W m n) {x y : Word w} (hvu : Word.Matched W.Links v u)
    (hxy : Word.Matched W.Links x y) :
    Alike S (Answers S f W) (Machine.makePair v x m) (Machine.makePair u y n) :=
  M.allocate (Alloc.follows_makePair v x) (Alloc.follows_makePair u y) fun _ _ hp hq =>
    M.heap.makePair hvu hxy hp hq

theorem makeClosure (M : Twins S f W m n) {g : Function} (hg : g.label.isReserved = false)
    (hvs : List.Forall₂ (Word.Matched W.Links) vs us) :
    Alike S (Answers S f W) (Machine.makeClosure g vs m) (Machine.makeClosure g us n) :=
  M.allocate (Alloc.follows_makeClosure g vs) (Alloc.follows_makeClosure g us) fun _ _ hp hq =>
    M.heap.makeClosure hg hvs hp hq

theorem extendClosure (M : Twins S f W m n) (hvu : Word.Matched W.Links v u)
    (hvs : List.Forall₂ (Word.Matched W.Links) vs us) :
    Alike S (Answers S f W) (Machine.extendClosure v vs m) (Machine.extendClosure u us n) := by
  refine Agree.bind (M.closureView hvu) ?_
  rintro c d _ _ ⟨rfl, rfl, hshown, hlinks, hsame⟩
  refine M.allocate (Alloc.follows_extend c vs) (Alloc.follows_extend d us) fun p q hp hq => ?_
  rw [hsame] at hq
  exact M.heap.extend hshown hlinks hvs hp hq

/-! ### Checkpoints -/

/-- A checkpoint grants and refuses alike, although it may collect on one side only. -/
theorem checkpoint (M : Twins S f W m n) (words : Nat) :
    Alike S (fun a b m' n' => a = b ∧ m'.slots.length = m.slots.length ∧ ∃ V, Twins S f V m' n')
      (Machine.checkpoint words m) (Machine.checkpoint words n) := by
  rw [checkpoint_eq, checkpoint_eq]
  have hroots : List.Forall₂ (Word.Matched W.Links) m.roots n.roots := .cons M.result M.slots
  obtain ⟨t, ht⟩ | ⟨t, ht⟩ | ⟨c, d, ρ, V, hc, hd, T, hcd, hshort, R, hV⟩ :=
    M.heap.reserve hroots words
  · rw [ht]
    trivial
  · rw [ht]
    exact Agree.trap_right trivial
  · rw [hc, hd]
    have hmoved := R.rooted
    rw [roots_eq] at hmoved
    obtain ⟨cheap, croots, cevents, cshortage⟩ := c
    obtain ⟨dheap, droots, devents, dshortage⟩ := d
    cases hcd with
    | nil => cases hmoved
    | @cons x y xs ys hxy hxys =>
      cases hmoved with
      | cons _ hslots =>
        exact ⟨hshort, hslots.length_eq.symm, V, T, hxy, hxys, M.fp, M.fp', M.names, M.maxStack,
          ⟨M.outward.steps, M.outward.highWater, M.outward.keep, M.outward.printed⟩,
          M.carried.relocate R rfl rfl hV⟩

theorem prealloc (M : Twins S f W m n) (words : Nat) :
    Alike S (fun _ _ m' n' => m'.slots.length = m.slots.length ∧ ∃ V, Twins S f V m' n')
      (Machine.prealloc words m) (Machine.prealloc words n) := by
  refine Agree.bind (M.checkpoint words) ?_
  rintro a _ m' n' ⟨rfl, hlen, V, M'⟩
  cases a with
  | none => exact ⟨hlen, V, M'⟩
  | some s => exact ⟨rfl, M'.outward⟩

theorem kept_le (M : Twins S f W m n) : S.kept ≤ m.stack.depth := by
  rw [depth_eq]
  exact M.carried.1

/-- Words that ride on the stack across a checkpoint come back related. -/
theorem preallocSaving (M : Twins S f W m n) (words : Nat)
    (hvs : List.Forall₂ (Word.Matched W.Links) vs us) :
    Alike S (fun a b m' n' => a.2 = b.2 ∧ ∃ V, Twins S f V m' n' ∧
        List.Forall₂ (Word.Matched V.Links) a.1 b.1)
      (Machine.preallocSaving words vs m) (Machine.preallocSaving words us n) := by
  unfold Machine.preallocSaving
  rw [← hvs.length_eq]
  refine Agree.bind (M.checkStack vs.length) ?_
  rintro _ _ _ _ ⟨rfl, rfl⟩
  refine Agree.get ?_
  rw [← M.depth]
  refine Agree.bind (M.pushList hvs) ?_
  rintro _ _ m₁ n₁ ⟨M₁, _⟩
  refine Agree.bind (M₁.checkpoint words) ?_
  rintro shortage _ m₂ n₂ ⟨rfl, _, V, M₂⟩
  refine Agree.get (Agree.bind (M₂.truncate M.kept_le) ?_)
  rintro _ _ m₃ n₃ ⟨M₃, _⟩
  refine ⟨rfl, V, M₃, ?_⟩
  rw [Stack.above_eq, Stack.above_eq]
  exact List.forall₂_drop _ M₂.slots

/-- A plain case takes both machines to one branch. -/
theorem select {β : Type} (M : Twins S f W m n) {c : Case β} (hc : c.plain = true)
    (hvu : Word.Matched W.Links v u) :
    Alike S (fun a b m' n' => a = b ∧ Twins S f W m' n') (Machine.select c v m)
      (Machine.select c u n) := by
  unfold Machine.select
  refine Agree.get ?_
  rw [M.heap.mirrors.select hc hvu]
  cases hsel : c.select m.heap v with
  | ok branch => exact ⟨rfl, M.setJournal _ _⟩
  | error e =>
    cases e with
    | trap t => trivial
    | error e => exact ⟨rfl, M.outward⟩
    | unfinished => exact M.outward

/-- Twins branch alike, as booleans are the same words. -/
theorem branch (M : Twins S f W m n) (hvu : Word.Matched W.Links v u) (ifTrue ifFalse : Label) :
    Alike S (fun a b m' n' => a = b ∧ Twins S f W m' n') (Machine.branch v ifTrue ifFalse m)
      (Machine.branch u ifTrue ifFalse n) := by
  have htrue := hvu.eq_iff_of_none (Word.ref?_ofBool true)
  have hfalse := hvu.eq_iff_of_none (Word.ref?_ofBool false)
  simp only [Word.ofBool, if_true, if_false, Bool.false_eq_true] at htrue hfalse
  unfold Machine.branch
  simp only [htrue, hfalse]
  split
  · exact ⟨rfl, M⟩
  · split
    · exact ⟨rfl, M⟩
    · exact ⟨rfl, M.outward⟩

end Twins

end Machine

end Trampoline
