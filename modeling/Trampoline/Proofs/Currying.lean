import Trampoline.Proofs.Closures
import Trampoline.Proofs.OverApplication
import Trampoline.Proofs.Reservation

/-!
Arguments in groups.

A closure may be given its arguments all at once, or group by group: each application that leaves
arguments missing delivers a closure that holds those it was given, and this closure is what the next
group is given to. In the end the machine is in the same place. Between the groups there may be
collections, so places are the same up to where blocks have moved.
-/

namespace Trampoline

variable {w : Width}

namespace Heap

variable {h k l : Heap w} {D E G : Set Ref} {ψ χ : Ref → Ref → Prop} {v u : Word w}
  {vs us xs args : List (Word w)} {c : ClosureView w}

/-! ### Extending within a reservation -/

/-- Within a reservation a closure is copied to the front of a longer one. -/
theorem planCopy_of_room (B : h.Bounded) (L : h.space.Layout h.hp D) (hc : c.object ∈ D)
    (hcl : h.closureAt c.object = some c) {more : Nat}
    (hroom : h.hp + (3 + (c.captured + more)) ≤ h.limit) :
    h.planCopy (3 + (c.captured + more)) c.object (3 + c.captured) =
      .ok (h.hp, h.space.segment c.object.offset (3 + c.captured)) := by
  have hwithin := L.within _ hc
  rw [Space.extent, (shapeAt_of_closure hcl).2] at hwithin
  change _ + (3 + c.captured) ≤ _ at hwithin
  have hcap := B.hp_le
  have hcopied : h.space.slice c.object.offset (3 + c.captured) =
      .ok (h.space.segment c.object.offset (3 + c.captured)) :=
    Space.slice_eq (show _ ≤ h.capacity by omega)
  have hshort : ¬ 3 + (c.captured + more) < 3 + c.captured := by omega
  simp only [planCopy, if_neg hshort, B.room_eq hroom, hcopied, bind, Except.bind]
  exact if_neg (Nat.not_lt.mpr (hroom.trans B.limit_le))

/-- A closure can be extended within a reservation, as long as its header can count the arguments. -/
theorem extend_of_room (B : h.Bounded) (L : h.space.Layout h.hp D) (hc : c.object ∈ D)
    (hcl : h.closureAt c.object = some c) (hfields : c.captured + args.length ≤ w.maxFields)
    (hroom : h.hp + (3 + (c.captured + args.length)) ≤ h.limit) : ∃ p, h.planExtend c args = .ok p := by
  have hcopy := planCopy_of_room B L hc hcl hroom
  have href : Ref.checked (w := w) h.hp false = .ok ⟨h.hp, false⟩ := by
    rw [Ref.checked, if_pos (B.hp_le.trans (B.capacity_le.trans B.max_le))]
  simp only [planExtend, Shape.closure, Shape.words, hcopy, bind, Except.bind, pure, Except.pure,
    Header.checked_of_le c.header.uid_le hfields, href]
  exact ⟨_, rfl⟩

/-! ### Heaps that blocks are carried to -/

/-- The blocks that matter of an earlier heap are found among the blocks `E` of a later one: all the
blocks `D`, and where they were, unless there has been a collection. -/
structure Carries (ψ : Ref → Ref → Prop) (D E : Set Ref) (h k : Heap w) : Prop where
  bounded : k.Bounded
  layout : k.space.Layout k.hp E
  matched : h.space.Matched k.space ψ
  into : ∀ {a b}, ψ a b → b ∈ E
  later : h.stats.collections ≤ k.stats.collections
  unmoved : k.stats.collections = h.stats.collections → ∀ a ∈ D, ψ a a

namespace Carries

/-- Blocks that are carried twice are carried. -/
theorem trans (C : Carries ψ D E h k) (C' : Carries χ E G k l) :
    Carries (fun a c => ∃ b, ψ a b ∧ χ b c) D G h l where
  bounded := C'.bounded
  layout := C'.layout
  matched := C.matched.trans C'.matched
  into := by
    rintro a c ⟨b, _, hbc⟩
    exact C'.into hbc
  later := C.later.trans C'.later
  unmoved hcount a ha := by
    have hle := C.later
    have hle' := C'.later
    have haa := C.unmoved (by omega) a ha
    exact ⟨a, haa, C'.unmoved (by omega) a (C.into haa)⟩

theorem word_into (C : Carries ψ D E h k) (hvu : Word.Matched ψ v u) : u.Into E := by
  intro b hb
  obtain ⟨a, _, hab⟩ := hvu.symm.of_some hb
  exact C.into hab

theorem words_into (C : Carries ψ D E h k) (hvu : List.Forall₂ (Word.Matched ψ) vs us) :
    ∀ u ∈ us, u.Into E := by
  intro u hu
  obtain ⟨v, _, huv⟩ := forall₂_exists_right hvu.flip hu
  exact C.word_into huv

end Carries

/-- Words that lead to blocks are themselves where the blocks stay. -/
theorem forall₂_unmoved (hvs : ∀ v ∈ vs, v.Into D) :
    List.Forall₂ (Word.Matched fun a b => a ∈ D ∧ b = a) vs vs := by
  rw [List.forall₂_same]
  exact fun v hv => (hvs v hv).unmoved

theorem carries_refl (B : h.Bounded) (L : h.space.Layout h.hp D) :
    Carries (fun a b => a ∈ D ∧ b = a) D D h h where
  bounded := B
  layout := L
  matched := .refl L
  into := by
    rintro a b ⟨ha, rfl⟩
    exact ha
  later := Nat.le_refl _
  unmoved _ a ha := ⟨ha, rfl⟩

/-- A new block leaves the others where they are. -/
theorem carries_place (B : h.Bounded) (L : h.space.Layout h.hp D) {pair : Bool}
    {lead : List (Word w)} (hblock : Block pair lead xs) (hxs : ∀ x ∈ xs, x.Into D)
    (hfit : h.hp + (lead ++ xs).length ≤ h.limit) :
    Carries (fun a b => a ∈ D ∧ b = a) D (insert ⟨h.hp, pair⟩ D) h (h.place (lead ++ xs)) where
  bounded := B.place (p := ⟨(Ref.mk h.hp pair).word, lead ++ xs⟩) (.inr hfit)
  layout := L.write hblock hxs
  matched := by
    refine (Space.Matched.refl L).of_keeps ?_
    rintro a b ⟨ha, rfl⟩
    exact Space.keeps_write _ (L.within _ ha)
  into := by
    rintro a b ⟨ha, rfl⟩
    exact .inr ha
  later := Nat.le_refl _
  unmoved _ a ha := ⟨ha, rfl⟩

/-- A reservation carries the blocks over, unless the heap would have to grow too large. -/
theorem reserve_carries (B : h.Bounded) (L : h.space.Layout h.hp D) (hvs : ∀ v ∈ vs, v.Into D)
    (words : Nat) :
    (h.Overgrows words vs ∧ h.reserve words vs = .error .bounds) ∨
    ∃ r ψ E, h.reserve words vs = .ok r ∧ Carries ψ D E h r.heap ∧
      List.Forall₂ (Word.Matched ψ) vs r.roots ∧
      (r.shortage = none → r.heap.hp + words ≤ r.heap.limit) := by
  by_cases hfree : words ≤ h.free
  · have C := carries_refl (B.grant hfree) L
    rw [reserve_of_free B.hp_le hfree]
    refine .inr ⟨_, _, D, rfl, ⟨C.bounded, C.layout, C.matched, C.into, C.later, C.unmoved⟩,
      forall₂_unmoved hvs, fun _ => Nat.le_refl _⟩
  · rw [reserve_of_not_free B.hp_le hfree]
    obtain ⟨hover, herr⟩ | ⟨_, d, ρ, hd, R, Bd, _⟩ := collectFor_cases B L hvs words
    · exact .inl ⟨hover, reclaim_of_error herr⟩
    · have hcount := (collectFor_counts hd).2
      have C : Carries (h.space.Moves vs ρ) D {b | ∃ a, h.space.Moves vs ρ a b} h d.heap :=
        { bounded := Bd
          layout := R.layout
          matched := R.matched
          into := fun hab => ⟨_, hab⟩
          later := by omega
          unmoved := fun heq => by omega }
      rw [reclaim_eq hd]
      by_cases hroom : d.heap.free < words
      · rw [if_pos hroom]
        exact .inr ⟨_, _, _, rfl, C, R.rooted, fun hnone => by cases hnone⟩
      · have hle := Nat.not_lt.mp hroom
        rw [if_neg hroom]
        exact .inr ⟨_, _, _, rfl, ⟨Bd.grant hle, C.layout, C.matched, C.into, C.later, C.unmoved⟩,
          R.rooted, fun _ => Nat.le_refl _⟩

/-! ### What a closure holds -/

/-- A value is a closure of the same function as another one, and holds the given arguments. -/
def Holds (h : Heap w) (v : Word w) (c : ClosureView w) (xs : List (Word w)) : Prop :=
  ∃ d, h.closure? v = .ok (some d) ∧ d.header.uid = c.header.uid ∧ d.entry = c.entry ∧
    d.arity = c.arity ∧ h.capturedArgs d = .ok xs

theorem Holds.length_eq {d : ClosureView w} (hd : h.capturedArgs d = .ok xs) :
    d.captured = xs.length := by
  obtain ⟨_, rfl⟩ := Space.slice_eq_ok hd
  rw [Space.length_segment]

/-- A closure is carried with what it holds. -/
theorem Holds.carried (H : h.Holds v c xs) (C : Carries ψ D E h k) (hvu : Word.Matched ψ v u) :
    ∃ ys, k.Holds u c ys ∧ List.Forall₂ (Word.Matched ψ) xs ys := by
  obtain ⟨d, hd, huid, hentry, harity, hxs⟩ := H
  obtain ⟨hr, hcl⟩ := closure?_eq_some hd
  obtain ⟨b, hb, hab⟩ := hvu.of_some hr
  have hcl' : k.closureAt b = some { d with object := b } := by
    rw [closureAt_matched C.matched hab, hcl]
    rfl
  refine ⟨k.space.traced b, ⟨{ d with object := b }, ?_, huid, hentry, harity, ?_⟩, ?_⟩
  · exact closure?_of_closureAt (c := { d with object := b }) C.bounded C.layout hb (C.into hab) hcl'
  · exact capturedArgs_of_closureAt (c := { d with object := b }) C.bounded C.layout (C.into hab) hcl'
  · rw [capturedArgs_eq_ok hcl hxs]
    exact C.matched.traced hab

/-- A closure that is extended holds the new arguments after its own. -/
theorem Holds.extended (H : h.Holds v c xs) (B : h.Bounded) (L : h.space.Layout h.hp D)
    (hv : v.Into D) (hargs : ∀ x ∈ args, x.Into D) (hfields : xs.length + args.length ≤ w.maxFields)
    (hroom : h.hp + (3 + (xs.length + args.length)) ≤ h.limit) :
    ∃ d p, h.closure? v = .ok (some d) ∧ h.planExtend d args = .ok p ∧
      Carries (fun a b => a ∈ D ∧ b = a) D (insert ⟨h.hp, false⟩ D) h (h.place p.contents) ∧
      p.value.Into (insert ⟨h.hp, false⟩ D) ∧ (h.place p.contents).Holds p.value c (xs ++ args) := by
  obtain ⟨d, hd, huid, hentry, harity, hxs⟩ := H
  obtain ⟨hr, hcl⟩ := closure?_eq_some hd
  have hmem := hv _ hr
  have hlen : d.captured = xs.length := Holds.length_eq hxs
  rw [← hlen] at hfields hroom
  obtain ⟨p, hp⟩ := extend_of_room B L hmem hcl hfields hroom
  obtain ⟨header, hhd, _, rfl⟩ := planExtend_eq_ok hcl hp
  have htraced := capturedArgs_eq_ok hcl hxs
  rw [← htraced] at hp
  obtain ⟨hclosure, _, _⟩ := isClosure_of_checked hhd
  have hblock : Block false [header.word, h.space.cell (d.object.offset + 1),
      h.space.cell (d.object.offset + 2)] (xs ++ args) := by
    rw [hlen, ← List.length_append] at hhd
    exact block_of_checked hhd rfl
  have hinto : ∀ x ∈ xs ++ args, x.Into D := by
    intro x hx
    rcases List.mem_append.mp hx with hx | hx
    · rw [htraced] at hx
      exact L.closed _ hmem x hx
    · exact hargs x hx
  have C := carries_place B L hblock hinto (by
    simp only [List.length_append, List.length_cons, List.length_nil]
    omega)
  have href := B.ref?_hp false
  have hnew := @closureAt_place w h (xs ++ args) header (h.space.cell (d.object.offset + 1))
    (h.space.cell (d.object.offset + 2)) hclosure
  have hextends := closureAt_extend B hcl hp href hnew
  have hread := closure?_of_closureAt (c := ⟨⟨h.hp, false⟩, _, _, _⟩) C.bounded C.layout href
    (.inl rfl) hnew
  refine ⟨d, _, hd, hp, C, ?_, _, hread, hextends.uid.trans huid, hextends.entry.trans hentry,
    hextends.arity.trans harity, ?_⟩
  · intro r hr
    rw [href] at hr
    cases hr
    exact .inl rfl
  · have hheld := capturedArgs_of_closureAt (c := ⟨⟨h.hp, false⟩, _, _, _⟩) C.bounded C.layout
      (.inl rfl) hnew
    rw [hheld]
    exact congrArg _ (Space.traced_write hblock)

end Heap

namespace Machine

variable {m n o : Machine w} {D E G : Set Ref} {ψ χ : Ref → Ref → Prop} {v u : Word w}
  {vs us xs args : List (Word w)} {c : ClosureView w} {k l : Label}

/-! ### Machines that blocks are carried to -/

/-- A machine whose references lead to the blocks `D`, as do those of the words `vs`. The frame
pointer is on the stack, whose depths are small integers. -/
structure Whole (D : Set Ref) (m : Machine w) (vs : List (Word w)) : Prop where
  bounded : m.heap.Bounded
  layout : m.heap.space.Layout m.heap.hp D
  rooted : ∀ v ∈ m.roots ++ vs, v.Into D
  fp_le : m.fp ≤ m.slots.length
  limit : (m.maxStackWords : Int) ≤ w.maxInt

/-- A later machine with the same stack, on a heap that the blocks were carried to. -/
structure Transfers (ψ : Ref → Ref → Prop) (D E : Set Ref) (m n : Machine w) : Prop where
  heap : m.heap.Carries ψ D E n.heap
  slots : List.Forall₂ (Word.Matched ψ) m.slots n.slots
  result : n.result.Into E
  fp : n.fp = m.fp
  limit : n.maxStackWords = m.maxStackWords

theorem Whole.given (hm : Whole D m vs) : ∀ v ∈ vs, v.Into D :=
  fun v hv => hm.rooted v (List.mem_append_right _ hv)

theorem Whole.slots (hm : Whole D m vs) : ∀ v ∈ m.slots, v.Into D :=
  fun v hv => hm.rooted v (List.mem_append_left _ (.tail _ hv))

theorem Transfers.refl (B : m.heap.Bounded) (L : m.heap.space.Layout m.heap.hp D)
    (hroots : ∀ v ∈ m.roots, v.Into D) : Transfers (fun a b => a ∈ D ∧ b = a) D D m m where
  heap := Heap.carries_refl B L
  slots := Heap.forall₂_unmoved fun v hv => hroots v (.tail _ hv)
  result := hroots _ (.head _)
  fp := rfl
  limit := rfl

theorem Whole.roots (hm : Whole D m vs) : ∀ v ∈ m.roots, v.Into D :=
  fun v hv => hm.rooted v (List.mem_append_left _ hv)

theorem Whole.refl (hm : Whole D m vs) : Transfers (fun a b => a ∈ D ∧ b = a) D D m m :=
  .refl hm.bounded hm.layout hm.roots

theorem Transfers.trans (C : Transfers ψ D E m n) (C' : Transfers χ E G n o) :
    Transfers (fun a c => ∃ b, ψ a b ∧ χ b c) D G m o where
  heap := C.heap.trans C'.heap
  slots := forall₂_trans (fun _ _ _ h h' => h.trans h') C.slots C'.slots
  result := C'.result
  fp := C'.fp.trans C.fp
  limit := C'.limit.trans C.limit

/-- A machine that blocks were carried to is as whole as the one they come from. -/
theorem Transfers.whole (C : Transfers ψ D E m n) (hm : Whole D m vs) (hus : ∀ u ∈ us, u.Into E) :
    Whole E n us where
  bounded := C.heap.bounded
  layout := C.heap.layout
  rooted := by
    intro u hu
    rcases List.mem_append.mp hu with hu | hu
    · rcases List.mem_cons.mp hu with rfl | hu
      · exact C.result
      · exact C.heap.words_into C.slots u hu
    · exact hus u hu
  fp_le := by
    rw [C.fp, ← C.slots.length_eq]
    exact hm.fp_le
  limit := by
    rw [C.limit]
    exact hm.limit

/-- A check of the machine has failed: the stack is too deep, the heap is exhausted, or it would
have to grow beyond what room can be made for. -/
inductive CheckFails (m : Machine w) : Fault w RuntimeError → Prop where
  | stack : CheckFails m (.error (.stackOverflow m.maxStackWords))
  | memory (s : Shortage) : CheckFails m (.error (.outOfMemory s))
  | room {words : Nat} {roots : List (Word w)} : m.heap.Overgrows words roots →
      CheckFails m (.trap .bounds)

def Ends {α : Type} (m : Machine w) (P : α → Machine w → Prop) : Outcome w (Machine w) α → Prop
  | .ok a n => P a n
  | .error e _ => CheckFails m e

theorem CheckFails.congr {e : Fault w RuntimeError} (h : CheckFails n e) (hheap : n.heap = m.heap)
    (hmax : n.maxStackWords = m.maxStackWords) : CheckFails m e := by
  cases h with
  | stack =>
    rw [hmax]
    exact .stack
  | memory s => exact .memory s
  | room hover =>
    rw [hheap] at hover
    exact .room hover

/-- What follows on the machine that an operation leaves decides how both end. -/
theorem Ends.bind {α β : Type} {x : Op w α} {f : α → Op w β} {P : α → Machine w → Prop}
    {Q : β → Machine w → Prop} (hx : Ends m P (x m))
    (hf : ∀ a n, P a n → Ends m Q (f a n)) : Ends m Q ((x >>= f) m) := by
  cases hr : x m with
  | ok a n =>
    rw [hr] at hx
    rw [bind_of_ok hr]
    exact hf a n hx
  | error e n =>
    rw [hr] at hx
    rw [bind_of_error hr]
    exact hx

theorem Ends.mono {α : Type} {P Q : α → Machine w → Prop} {r : Outcome w (Machine w) α}
    (h : Ends m P r) (hPQ : ∀ a n, P a n → Q a n) : Ends m Q r := by
  cases r with
  | ok a n => exact hPQ a n h
  | error e n => exact h

theorem Ends.on {α : Type} {P : α → Machine w → Prop} {r : Outcome w (Machine w) α}
    (h : Ends n P r) (hheap : n.heap = m.heap) (hmax : n.maxStackWords = m.maxStackWords) :
    Ends m P r := by
  cases r with
  | ok a o => exact h
  | error e o => exact CheckFails.congr h hheap hmax

theorem ends_checkStack (words : Nat) :
    Ends m (fun _ n => m = n ∧ m.slots.length + words ≤ m.maxStackWords) (checkStack words m) := by
  by_cases hroom : m.slots.length + words ≤ m.maxStackWords
  · rw [checkStack_of_le hroom]
    exact ⟨rfl, hroom⟩
  · rw [checkStack_of_lt (Nat.not_le.mp hroom)]
    exact .stack

/-- A checkpoint grants its words on a heap that everything was carried to, unless a check fails. -/
theorem ends_prealloc (B : m.heap.Bounded) (L : m.heap.space.Layout m.heap.hp D)
    (hroots : ∀ v ∈ m.roots, v.Into D) (words : Nat) :
    Ends m (fun _ n => ∃ ψ E, Transfers ψ D E m n ∧ n.heap.hp + words ≤ n.heap.limit)
      (prealloc words m) := by
  have hpoint := checkpoint_eq words m
  obtain ⟨hover, herr⟩ | ⟨r, ψ, E, hr, C, hmoved, hlimit⟩ :=
    Heap.reserve_carries B L hroots words
  · rw [herr] at hpoint
    unfold prealloc
    rw [bind_of_error hpoint]
    exact .room hover
  · rw [hr] at hpoint
    unfold prealloc
    rw [bind_of_ok hpoint]
    cases hs : r.shortage with
    | some s => exact .memory s
    | none =>
      have hput := roots_setRoots hmoved
      rw [← hput, roots_eq, roots_eq] at hmoved
      cases hmoved with
      | cons hresult hslots =>
        exact ⟨ψ, E, ⟨C, hslots, C.word_into hresult, fp_setRoots m _, maxStackWords_setRoots m _⟩,
          hlimit hs⟩

/-! ### Extending a closure -/

theorem roots_pushList (m : Machine w) (vs : List (Word w)) :
    ({ m with stack := m.stack.pushList vs } : Machine w).roots = m.roots ++ vs := by
  simp [roots_eq, slots]

/-- After the checkpoint the closure and the arguments are found on the stack. -/
theorem ridden {below : List (Word w)} (hn : n.slots = below ++ v :: args) :
    n.stack.get below.length = .ok v ∧ n.stack.above (below.length + 1) = args := by
  constructor
  · refine Stack.get_of_some _ ?_
    change n.slots[_]? = _
    simp [hn]
  · rw [Stack.above_eq]
    change n.slots.drop _ = _
    rw [hn, List.drop_length_add_append]
    rfl

/-- The closure is extended, and dropped from the stack with the arguments. -/
theorem extend_ridden {d : ClosureView w} {p : Plan w} {below : List (Word w)} {base : Nat}
    (hn : n.slots = below ++ v :: args) (hbase : base = below.length)
    (hd : n.heap.closure? v = .ok (some d)) (hp : n.heap.planExtend d args = .ok p) :
    (do
      let m' ← get
      let moved ← m'.stack.get base
      let extended ← extendClosure moved (m'.stack.above (base + 1))
      truncate base
      return extended : Op w (Word w)) n =
        .ok p.value (({ n with heap := n.heap.place p.contents } : Machine w).dropped base) := by
  subst hbase
  obtain ⟨hget, habove⟩ := ridden hn
  have hextend : extendClosure v args n =
      .ok p.value { n with heap := n.heap.place p.contents } := by
    refine (bind_of_ok (closureView_of_some hd)).trans ?_
    exact allocate_of_ok (Alloc.follows_extend d args) hp
  have hle : below.length ≤
      ({ n with heap := n.heap.place p.contents } : Machine w).slots.length := by
    change _ ≤ n.slots.length
    simp [hn]
  change ((liftM (n.stack.get below.length) : Op w _) >>= _) n = _
  rw [liftM_bind_of_ok hget, habove, bind_of_ok hextend, bind_of_ok (truncate_of_le hle)]
  rfl

/-- After a checkpoint that granted the words, the closure is extended where it has been moved to. -/
theorem extend_carried (C : Transfers ψ D E { m with stack := m.stack.pushList (v :: args) } n)
    (H : m.heap.Holds v c xs) (hfields : xs.length + args.length ≤ w.maxFields)
    (hlimit : n.heap.hp + (Shape.closure (xs.length + args.length)).words ≤ n.heap.limit) :
    ∃ u o, (do
      let m' ← get
      let moved ← m'.stack.get m.stack.depth
      let extended ← extendClosure moved (m'.stack.above (m.stack.depth + 1))
      truncate m.stack.depth
      return extended : Op w (Word w)) n = .ok u o ∧
      ∃ ψ E ys, Transfers ψ D E m o ∧ u.Into E ∧ o.heap.Holds u c ys ∧
        List.Forall₂ (Word.Matched ψ) (xs ++ args) ys := by
  have hslots := C.slots
  rw [show ({ m with stack := m.stack.pushList (v :: args) } : Machine w).slots =
    m.slots ++ v :: args from Stack.slots_pushList _ _] at hslots
  obtain ⟨below, top, hn, hbelow, htop⟩ := forall₂_append_split hslots
  cases htop with
  | @cons _ moved _ args' hmoved hargs' =>
    obtain ⟨xs', H', hxs'⟩ := H.carried C.heap hmoved
    rw [hxs'.length_eq, hargs'.length_eq] at hlimit hfields
    obtain ⟨d', p, hd', hp, C', hvalue, H''⟩ := H'.extended C.heap.bounded C.heap.layout
      (C.heap.word_into hmoved) (C.heap.words_into hargs') hfields hlimit
    have hall := List.rel_append hxs' hargs'
    have htrans := fun (x y z : Word w) (hx : Word.Matched ψ x y)
      (hy : Word.Matched (fun a b => a ∈ E ∧ b = a) y z) => hx.trans hy
    refine ⟨_, _, extend_ridden hn (by rw [depth_eq, hbelow.length_eq]) hd' hp, _, _, _,
      ⟨C.heap.trans C', ?_, C.result.mono (Set.subset_insert _ _), C.fp, C.limit⟩,
      hvalue, H'', forall₂_trans htrans hall (Heap.forall₂_unmoved (C.heap.words_into hall))⟩
    rw [slots_dropped]
    change List.Forall₂ _ _ (n.slots.take _)
    rw [hn, depth_eq, hbelow.length_eq, List.take_left]
    exact forall₂_trans htrans hbelow (Heap.forall₂_unmoved (C.heap.words_into hbelow))

/-- A closure that is applied to too few arguments is extended: it rides on the stack across the
checkpoint, with the arguments. -/
theorem ends_extendSaving (B : m.heap.Bounded) (L : m.heap.space.Layout m.heap.hp D)
    (hrooted : ∀ x ∈ m.roots ++ v :: args, x.Into D) (H : m.heap.Holds v c xs)
    (hfields : args ≠ [] → xs.length + args.length ≤ w.maxFields) :
    Ends m (fun u n => ∃ ψ E ys, Transfers ψ D E m n ∧ u.Into E ∧ n.heap.Holds u c ys ∧
      List.Forall₂ (Word.Matched ψ) (xs ++ args) ys) (extendSaving v args m) := by
  obtain ⟨d, hd, _, _, _, hxs⟩ := id H
  unfold extendSaving
  by_cases hempty : args.isEmpty
  · rw [if_pos hempty]
    have hv : v.Into D := hrooted v (List.mem_append_right _ (.head _))
    have hheld := Heap.forall₂_unmoved (Heap.into_capturedArgs L hv hd hxs)
    rw [List.isEmpty_iff.mp hempty, List.append_nil]
    exact ⟨_, D, xs, .refl B L fun x hx => hrooted x (List.mem_append_left _ hx), hv, H, hheld⟩
  rw [if_neg hempty, bind_of_ok (closureView_of_some hd)]
  change Ends m _ ((checkStack (1 + args.length) >>= _) m)
  refine (ends_checkStack _).bind ?_
  rintro _ _ ⟨rfl, _⟩
  have hroots : ∀ x ∈ ({ m with stack := m.stack.pushList (v :: args) } : Machine w).roots,
      x.Into D := by
    intro x hx
    rw [roots_pushList] at hx
    exact hrooted x hx
  change Ends m _ ((prealloc _ >>= _) { m with stack := m.stack.pushList (v :: args) })
  refine Ends.on (n := { m with stack := m.stack.pushList (v :: args) }) ?_ rfl rfl
  refine Ends.bind (ends_prealloc (m := { m with stack := m.stack.pushList (v :: args) }) B L hroots
    _) ?_
  rintro _ n ⟨ψ, E, C, hlimit⟩
  rw [Heap.Holds.length_eq hxs] at hlimit
  obtain ⟨u, o, hend, hcarried⟩ := extend_carried C H (hfields (mt List.isEmpty_iff.mpr hempty)) hlimit
  rw [hend]
  exact hcarried

/-! ### One application -/

/-- Where an application leaves the machine `m` it is made on, with the arguments `xs` in all, those
that the closure holds and then the new ones: too few are delivered to the continuation in a closure;
with the right number of them the function is entered, in a frame over that of `m`; and if there are
more, they wait in a pending block beneath the frame. Blocks have been moved by `ψ`. -/
inductive Lands (ψ : Ref → Ref → Prop) (m : Machine w) (c : ClosureView w) (xs : List (Word w))
    (k : Label) : Label → Machine w → Prop where
  | delivered {n : Machine w} {ys : List (Word w)} : xs.length < c.arity → n.fp = m.fp →
      List.Forall₂ (Word.Matched ψ) m.slots n.slots → n.heap.Holds n.result c ys →
      List.Forall₂ (Word.Matched ψ) xs ys → Lands ψ m c xs k k n
  | entered {n : Machine w} {continuation link : Word w} : xs.length = c.arity →
      Word.codeAddress k.id = .ok continuation → Word.size m.fp = .ok link →
      n.fp = m.slots.length + 2 →
      List.Forall₂ (Word.Matched ψ) (m.slots ++ continuation :: link :: xs) n.slots →
      Lands ψ m c xs k c.entry n
  | suspended {n : Machine w} {continuation count pending link : Word w} : c.arity < xs.length →
      Word.codeAddress k.id = .ok continuation → Word.size (xs.length - c.arity) = .ok count →
      Word.codeAddress Label.applyPending.id = .ok pending → Word.size m.fp = .ok link →
      n.fp = m.slots.length + (xs.length - c.arity) + 4 →
      List.Forall₂ (Word.Matched ψ) (m.slots ++ continuation ::
        (xs.drop c.arity ++ count :: pending :: link :: xs.take c.arity)) n.slots →
      Lands ψ m c xs k c.entry n

/-- A saturated call opens a frame with all the arguments in it. -/
theorem ends_enter {d : ClosureView w} {a : Word w} (args : List (Word w))
    (hfp : m.fp ≤ m.slots.length) (hlimit : (m.maxStackWords : Int) ≤ w.maxInt)
    (hk : Word.codeAddress k.id = .ok a) (hd : m.heap.capturedArgs d = .ok xs) :
    Ends m (fun l n => l = d.entry ∧ ∃ b, Word.size m.fp = .ok b ∧ n = m.opened a b (xs ++ args))
      (enter d args k m) := by
  have hframe : Ends m (fun _ n => ∃ b, Word.size m.fp = .ok b ∧ n = m.opened a b [])
      (pushFrame k d.arity m) := by
    by_cases hroom : m.slots.length + (2 + d.arity) ≤ m.maxStackWords
    · obtain ⟨b, hb⟩ := Word.size_of_le (w := w) (n := m.fp) (by omega)
      rw [pushFrame_of_room hk hb hroom]
      exact ⟨b, hb, rfl⟩
    · rw [pushFrame_of_lt (Nat.not_le.mp hroom)]
      exact .stack
  refine hframe.bind ?_
  rintro _ _ ⟨b, hb, rfl⟩
  have hall : allArgs d args (m.opened a b []) = .ok (xs ++ args) (m.opened a b []) :=
    liftM_bind_of_ok hd
  rw [bind_of_ok hall]
  exact ⟨rfl, b, hb, rfl⟩

/-- An application to too many arguments leaves the surplus in a pending block beneath the frame of
the call. -/
theorem ends_overApply {d : ClosureView w} {a : Word w} (args : List (Word w))
    (hfp : m.fp ≤ m.slots.length) (hlimit : (m.maxStackWords : Int) ≤ w.maxInt)
    (hk : Word.codeAddress k.id = .ok a) (hd : m.heap.capturedArgs d = .ok xs) {need : Nat}
    (hneed : d.captured + need = d.arity) :
    Ends m (fun l n => l = d.entry ∧ ∃ count p b, Word.size (args.drop need).length = .ok count ∧
      Word.codeAddress Label.applyPending.id = .ok p ∧ Word.size m.fp = .ok b ∧
      n = (m.suspended a (args.drop need) count).opened p b (xs ++ args.take need))
      (overApply d args k m) := by
  have hsub : Size.sub (w := w) d.arity d.captured = .ok need := by
    rw [← hneed, Nat.add_comm]
    exact Size.add_sub _ _
  unfold overApply
  rw [liftM_bind_of_ok hsub]
  refine (ends_checkStack _).bind ?_
  rintro _ _ ⟨rfl, hroom⟩
  obtain ⟨count, hcount⟩ := Word.size_of_le (w := w) (n := (args.drop need).length) (by omega)
  obtain ⟨p, hp⟩ : ∃ p : Word w, Word.codeAddress Label.applyPending.id = .ok p :=
    Word.size_of_le (by cases w <;> decide)
  rw [liftM_bind_of_ok hk]
  change Ends m _ ((liftM (Word.size (w := w) (args.drop need).length) >>= _ : Op w Label) _)
  rw [liftM_bind_of_ok hcount]
  change Ends m _ (enter d (args.take need) .applyPending (m.suspended a (args.drop need) count))
  have hfp' : (m.suspended a (args.drop need) count).fp ≤
      (m.suspended a (args.drop need) count).slots.length := by
    rw [slots_suspended, List.length_append]
    exact hfp.trans (Nat.le_add_right _ _)
  have henter := ends_enter (m := m.suspended a (args.drop need) count) (args.take need) hfp' hlimit
    hp hd
  refine (henter.on (m := m) rfl rfl).mono ?_
  rintro l n ⟨hl, b, hb, hn⟩
  exact ⟨hl, count, p, b, hcount, hp, hb, hn⟩

/-- An application to too few arguments delivers a closure. -/
theorem ends_apply_of_lt (hm : Whole D m (v :: args)) (H : m.heap.Holds v c xs)
    (harity : c.arity ≤ w.maxFields) (hlt : xs.length + args.length < c.arity) :
    Ends m (fun l n => l = k ∧ ∃ ψ E ys, Transfers ψ D E m n ∧ n.heap.Holds n.result c ys ∧
      List.Forall₂ (Word.Matched ψ) (xs ++ args) ys) (apply v args k m) := by
  obtain ⟨d, hd, _, _, hda, hxs⟩ := id H
  have hcompare : compare (d.captured + args.length) d.arity = .lt := by
    rw [compare_lt_iff_lt, hda, Heap.Holds.length_eq hxs]
    exact hlt
  unfold apply
  rw [bind_of_ok (closureView_of_some hd), hcompare]
  refine (ends_extendSaving hm.bounded hm.layout hm.rooted H fun _ => by omega).bind ?_
  rintro u n ⟨ψ, E, ys, C, hu, H', hys⟩
  exact ⟨rfl, ψ, E, ys, ⟨C.heap, C.slots, hu, C.fp, C.limit⟩, H', hys⟩

/-- An application lands where its number of arguments says. -/
theorem ends_apply {a : Word w} (hm : Whole D m (v :: args)) (H : m.heap.Holds v c xs)
    (harity : c.arity ≤ w.maxFields) (hheld : xs.length ≤ c.arity)
    (hk : Word.codeAddress k.id = .ok a) :
    Ends m (fun l n => ∃ ψ, m.heap.space.Matched n.heap.space ψ ∧ Lands ψ m c (xs ++ args) k l n)
      (apply v args k m) := by
  obtain ⟨d, hd, _, hde, hda, hxs⟩ := id H
  have hlen := Heap.Holds.length_eq hxs
  have hinto : ∀ x ∈ xs ++ args, x.Into D := by
    intro x hx
    rcases List.mem_append.mp hx with hx | hx
    · exact Heap.into_capturedArgs hm.layout (hm.given v (.head _)) hd hxs x hx
    · exact hm.given x (.tail _ hx)
  rcases Nat.lt_trichotomy (xs.length + args.length) c.arity with hlt | heq | hgt
  · refine (ends_apply_of_lt hm H harity hlt).mono ?_
    rintro _ n ⟨rfl, ψ, E, ys, C, H', hys⟩
    exact ⟨ψ, C.heap.matched, .delivered (by rwa [List.length_append]) C.fp C.slots H' hys⟩
  · rw [apply_of_saturated hd (by rw [hlen, hda]; exact heq)]
    refine (ends_enter args hm.fp_le hm.limit hk hxs).mono ?_
    rintro _ _ ⟨rfl, b, hb, rfl⟩
    rw [hde]
    refine ⟨_, .refl hm.layout, .entered (by rwa [List.length_append]) hk hb rfl ?_⟩
    rw [slots_opened]
    refine Heap.forall₂_unmoved fun x hx => ?_
    rw [List.mem_append, List.mem_cons, List.mem_cons] at hx
    rcases hx with hx | rfl | rfl | hx
    · exact hm.slots x hx
    · exact Word.into_of_none (Word.ref?_codeAddress hk)
    · exact Word.into_of_none (Word.ref?_size hb)
    · exact hinto x hx
  · have happly : apply v args k m = overApply d args k m := by
      have hcompare : compare (d.captured + args.length) d.arity = .gt := by
        rw [compare_gt_iff_gt, hda, hlen]
        exact hgt
      unfold apply
      rw [bind_of_ok (closureView_of_some hd), hcompare]
    have hdrop : (xs ++ args).drop c.arity = args.drop (c.arity - xs.length) := by
      rw [List.drop_append, List.drop_eq_nil_of_le hheld, List.nil_append]
    have htake : (xs ++ args).take c.arity = xs ++ args.take (c.arity - xs.length) := by
      rw [List.take_append, List.take_of_length_le hheld]
    have hsurplus : (args.drop (c.arity - xs.length)).length = (xs ++ args).length - c.arity := by
      rw [← hdrop, List.length_drop]
    rw [happly]
    refine (ends_overApply args hm.fp_le hm.limit hk hxs
      (show d.captured + (c.arity - xs.length) = d.arity by omega)).mono ?_
    rintro _ _ ⟨rfl, count, p, b, hcount, hp, hb, rfl⟩
    rw [hsurplus] at hcount
    rw [hde]
    refine ⟨_, .refl hm.layout, .suspended (by rwa [List.length_append]) hk hcount hp hb ?_ ?_⟩
    · change (m.suspended _ _ _).slots.length + 2 = _
      rw [slots_suspended, ← hsurplus]
      simp only [List.length_append, List.length_cons, List.length_nil]
      omega
    · rw [slots_opened, slots_suspended, hdrop, htake]
      simp only [List.append_assoc, List.cons_append, List.nil_append]
      refine Heap.forall₂_unmoved fun x hx => ?_
      rw [← hdrop, ← htake, List.mem_append, List.mem_cons, List.mem_append, List.mem_cons,
        List.mem_cons, List.mem_cons] at hx
      rcases hx with hx | rfl | hx | rfl | rfl | rfl | hx
      · exact hm.slots x hx
      · exact Word.into_of_none (Word.ref?_codeAddress hk)
      · exact hinto x (List.mem_of_mem_drop hx)
      · exact Word.into_of_none (Word.ref?_size hcount)
      · exact Word.into_of_none (Word.ref?_codeAddress hp)
      · exact Word.into_of_none (Word.ref?_size hb)
      · exact hinto x (List.mem_of_mem_take hx)

/-- Landing from a machine that everything was carried to is landing from where it came from. -/
theorem Lands.carried {ys : List (Word w)} (h : Lands χ n c ys k l o) (C : Transfers ψ D E m n)
    (hxs : List.Forall₂ (Word.Matched ψ) xs ys) :
    Lands (fun a c => ∃ b, ψ a b ∧ χ b c) m c xs k l o := by
  have htrans := fun (x y z : Word w) (hx : Word.Matched ψ x y) (hy : Word.Matched χ y z) =>
    hx.trans hy
  have hlen := hxs.length_eq
  cases h with
  | delivered hlt hfp hslots H hheld =>
    exact .delivered (hlen ▸ hlt) (hfp.trans C.fp) (forall₂_trans htrans C.slots hslots) H
      (forall₂_trans htrans hxs hheld)
  | entered heq ha hb hfp hslots =>
    rw [C.fp] at hb
    refine .entered (hlen ▸ heq) ha hb (C.slots.length_eq ▸ hfp) (forall₂_trans htrans ?_ hslots)
    exact List.rel_append C.slots (.cons (.refl_of_none (Word.ref?_codeAddress ha))
      (.cons (.refl_of_none (Word.ref?_size hb)) hxs))
  | suspended hgt ha hcount hp hb hfp hslots =>
    rw [C.fp] at hb
    rw [← hlen] at hgt hcount hfp
    refine .suspended hgt ha hcount hp hb (C.slots.length_eq ▸ hfp)
      (forall₂_trans htrans ?_ hslots)
    exact List.rel_append C.slots (.cons (.refl_of_none (Word.ref?_codeAddress ha))
      (List.rel_append (List.forall₂_drop _ hxs) (.cons (.refl_of_none (Word.ref?_size hcount))
        (.cons (.refl_of_none (Word.ref?_codeAddress hp)) (.cons (.refl_of_none (Word.ref?_size hb))
          (List.forall₂_take _ hxs))))))

/-- Two machines are in the same place: the stacks are the same up to where blocks are, and so is
what the result registers hold, if it has been delivered. -/
structure SamePlace (c : ClosureView w) (delivered : Prop) (m n : Machine w) : Prop where
  fp : n.fp = m.fp
  moved : ∃ ψ : Ref → Ref → Prop, m.heap.space.Matched n.heap.space ψ ∧
    List.Forall₂ (Word.Matched ψ) m.slots n.slots ∧
    (delivered → ∃ xs ys, m.heap.Holds m.result c xs ∧ n.heap.Holds n.result c ys ∧
      List.Forall₂ (Word.Matched ψ) xs ys)

/-- Where an application leads to does not depend on where blocks have been moved. -/
theorem Lands.agree {m₁ m₂ : Machine w} {l₁ l₂ : Label} (h₁ : Lands ψ m c xs k l₁ m₁)
    (h₂ : Lands χ m c xs k l₂ m₂) (M₁ : m.heap.space.Matched m₁.heap.space ψ)
    (M₂ : m.heap.space.Matched m₂.heap.space χ) :
    l₂ = l₁ ∧ SamePlace c (xs.length < c.arity) m₁ m₂ := by
  have hback : ∀ {us us₁ us₂ : List (Word w)}, List.Forall₂ (Word.Matched ψ) us us₁ →
      List.Forall₂ (Word.Matched χ) us us₂ →
      List.Forall₂ (Word.Matched fun a c => ∃ b, ψ b a ∧ χ b c) us₁ us₂ := fun hus₁ hus₂ =>
    forall₂_trans (fun _ _ _ hx hy => hx.symm.trans hy) hus₁.flip hus₂
  have M := M₁.symm.trans M₂
  cases h₁ with
  | delivered hlt₁ hfp₁ hslots₁ H₁ hxs₁ =>
    cases h₂ with
    | delivered _ hfp₂ hslots₂ H₂ hxs₂ =>
      exact ⟨rfl, hfp₂.trans hfp₁.symm, _, M, hback hslots₁ hslots₂,
        fun _ => ⟨_, _, H₁, H₂, hback hxs₁ hxs₂⟩⟩
    | entered heq => omega
    | suspended hgt => omega
  | entered heq ha hb hfp₁ hslots₁ =>
    cases h₂ with
    | delivered hlt => omega
    | entered _ ha' hb' hfp₂ hslots₂ =>
      rw [ha] at ha'
      rw [hb] at hb'
      cases ha'
      cases hb'
      exact ⟨rfl, hfp₂.trans hfp₁.symm, _, M, hback hslots₁ hslots₂, fun hlt => by omega⟩
    | suspended hgt => omega
  | suspended hgt ha hcount hp hb hfp₁ hslots₁ =>
    cases h₂ with
    | delivered hlt => omega
    | entered heq => omega
    | suspended _ ha' hcount' hp' hb' hfp₂ hslots₂ =>
      rw [ha] at ha'
      rw [hcount] at hcount'
      rw [hp] at hp'
      rw [hb] at hb'
      cases ha'
      cases hcount'
      cases hp'
      cases hb'
      exact ⟨rfl, hfp₂.trans hfp₁.symm, _, M, hback hslots₁ hslots₂, fun hlt => by omega⟩

/-! ### Group by group -/

/-- A word is found again through the stack: in the same slot, or in the same place of a block that
is found. -/
inductive Rooted (m n : Machine w) : Word w → Word w → Prop where
  | slot {i : Nat} {x y : Word w} : m.slots[i]? = some x → n.slots[i]? = some y → Rooted m n x y
  | inside {i : Nat} {x y x' y' : Word w} {a b : Ref} : Rooted m n x y → x.ref? = some a →
      y.ref? = some b → (m.heap.space.traced a)[i]? = some x' →
      (n.heap.space.traced b)[i]? = some y' → Rooted m n x' y'

/-- What a word has become: an immediate word stays, any other one too unless there has been a
collection, and else it is found through the stack. -/
inductive Found (m n : Machine w) (x : Word w) : Word w → Prop where
  | immediate : x.ref? = none → Found m n x x
  | unmoved : n.heap.stats.collections = m.heap.stats.collections → Found m n x x
  | rooted {y : Word w} : Rooted m n x y → Found m n x y

/-- What is found through the stack is what was carried. -/
theorem Rooted.matched {x y : Word w} (h : Rooted m n x y) (C : Transfers ψ D E m n) :
    Word.Matched ψ x y := by
  induction h with
  | @slot i x y hx hy =>
    obtain ⟨hnone, _⟩ | ⟨x', y', hx', hy', hxy⟩ := forall₂_getElem? C.slots i
    · rw [hx] at hnone
      cases hnone
    · rw [hx] at hx'
      rw [hy] at hy'
      cases hx'
      cases hy'
      exact hxy
  | @inside i x y x' y' a b _ ha hb hx hy ih =>
    obtain ⟨b', hb', hab⟩ := ih.of_some ha
    rw [hb] at hb'
    cases hb'
    obtain ⟨hnone, _⟩ | ⟨x₁, y₁, hx₁, hy₁, hxy⟩ := forall₂_getElem? (C.heap.matched.traced hab) i
    · rw [hx] at hnone
      cases hnone
    · rw [hx] at hx₁
      rw [hy] at hy₁
      cases hx₁
      cases hy₁
      exact hxy

theorem Found.matched {x y : Word w} (h : Found m n x y) (C : Transfers ψ D E m n)
    (hx : x.Into D) : Word.Matched ψ x y := by
  cases h with
  | immediate hr => exact .refl_of_none hr
  | unmoved hcount =>
    cases hr : x.ref? with
    | none => exact .refl_of_none hr
    | some a => exact .moved hr hr (C.heap.unmoved hcount a (hx a hr))
  | rooted hrooted => exact hrooted.matched C

/-- Groups of arguments are given to a value on a machine one after the other, each to what the last
application has delivered. At any time there are a value, a machine, and the groups still to come,
as they are found then. -/
inductive InTurn (v : Word w) (groups : List (List (Word w))) (m : Machine w) :
    Word w → List (List (Word w)) → Machine w → Prop where
  | start : InTurn v groups m v groups m
  | next {u : Word w} {g : List (Word w)} {gs gs' : List (List (Word w))} {n n' : Machine w}
      {k l : Label} : InTurn v groups m u (g :: gs) n → gs ≠ [] → apply u g k n = .ok l n' →
      List.Forall₂ (List.Forall₂ (Found n n')) gs gs' → InTurn v groups m n'.result gs' n'

variable {groups gs : List (List (Word w))} {g held : List (Word w)}

/-- Between the groups, the value is a closure of the same function that holds all the arguments so
far, and everything else is as it was. -/
theorem InTurn.carried (hm : Whole D m (v :: groups.flatten)) (H : m.heap.Holds v c held)
    (harity : c.arity ≤ w.maxFields)
    (hunder : ∀ done rest, groups = done ++ rest → rest ≠ [] →
      held.length + done.flatten.length < c.arity)
    (h : InTurn v groups m u gs n) :
    ∃ done rest ψ E ys, groups = done ++ rest ∧ Transfers ψ D E m n ∧ u.Into E ∧
      n.heap.Holds u c ys ∧ List.Forall₂ (Word.Matched ψ) (held ++ done.flatten) ys ∧
      List.Forall₂ (List.Forall₂ (Word.Matched ψ)) rest gs := by
  induction h with
  | start =>
    obtain ⟨d, hd, _, _, _, hxs⟩ := id H
    have hv := hm.given v (.head _)
    refine ⟨[], groups, _, D, held, rfl, hm.refl, hv, H, ?_, ?_⟩
    · rw [List.flatten_nil, List.append_nil]
      exact Heap.forall₂_unmoved (Heap.into_capturedArgs hm.layout hv hd hxs)
    · rw [List.forall₂_same]
      intro g hg
      exact Heap.forall₂_unmoved fun x hx =>
        hm.given x (.tail _ (List.mem_flatten_of_mem hg hx))
  | @next u g gs gs' n n' k l _ hgs happly hfound ih =>
    obtain ⟨done, rest, ψ, E, ys, hgroups, C, hu, H', hys, hrest⟩ := ih
    cases hrest with
    | @cons g₀ _ rest _ hg hrest =>
      have hne : rest ≠ [] := by
        rintro rfl
        cases hrest
        exact hgs rfl
      have hgroups' : groups = (done ++ [g₀]) ++ rest := by simp [hgroups]
      have hlt : ys.length + g.length < c.arity := by
        have hlt := hunder _ _ hgroups' hne
        have hlen := hys.length_eq
        have hlen' := hg.length_eq
        simp only [List.flatten_append, List.flatten_cons, List.flatten_nil, List.length_append,
          List.length_nil] at hlt hlen
        omega
      have hn : Whole E n (u :: g) := C.whole hm fun x hx => by
        rcases List.mem_cons.mp hx with rfl | hx
        · exact hu
        · exact C.heap.words_into hg x hx
      have hends := ends_apply_of_lt (k := k) hn H' harity hlt
      rw [happly] at hends
      obtain ⟨_, χ, G, zs, C', H'', hzs⟩ := hends
      refine ⟨done ++ [g₀], rest, _, G, zs, hgroups', C.trans C', C'.result, H'', ?_, ?_⟩
      · have hall : List.Forall₂ (Word.Matched ψ) (held ++ done.flatten ++ g₀) (ys ++ g) :=
          List.rel_append hys hg
        have hflat : held ++ (done ++ [g₀]).flatten = held ++ done.flatten ++ g₀ := by simp
        rw [hflat]
        exact forall₂_trans (fun _ _ _ h h' => h.trans h') hall hzs
      · refine forall₂_trans (fun _ _ _ hxs hys => ?_) hrest hfound
        refine forall₂_trans (fun x y z hxy hyz => ?_) hxs hys
        exact hxy.trans (hyz.matched C' (C.heap.word_into hxy))

/-- Words on the stack are found again as long as the stack is as it was. -/
theorem Transfers.found (C : Transfers ψ D E m n) {x : Word w} (hx : x.ref? = none ∨ x ∈ m.slots) :
    ∃ y, Found m n x y := by
  rcases hx with hr | hx
  · exact ⟨x, .immediate hr⟩
  · obtain ⟨i, hi⟩ := List.getElem?_of_mem hx
    obtain ⟨hnone, _⟩ | ⟨x', y, _, hy, _⟩ := forall₂_getElem? C.slots i
    · rw [hi] at hnone
      cases hnone
    · exact ⟨y, .rooted (.slot hi hy)⟩

/-- A closure is given arguments in groups of which no proper part saturates it. Each application
returns, unless a check of the machine fails. Those before the last one deliver to their
continuations, and words on the stack are found again after them. The last one lands where all the
arguments say: it leaves the machine in the same place as the application to all of them at once,
which returns unless a check fails. -/
theorem apply_in_turn {a : Word w} (hm : Whole D m (v :: groups.flatten))
    (hc : m.heap.closure? v = .ok (some c)) (hheld : m.heap.capturedArgs c = .ok held)
    (harity : c.arity ≤ w.maxFields)
    (hunder : ∀ done rest, groups = done ++ rest → rest ≠ [] →
      c.captured + done.flatten.length < c.arity)
    (hturn : InTurn v groups m u (g :: gs) n) (hk : Word.codeAddress k.id = .ok a) :
    (∀ e n', apply u g k n = .error e n' → CheckFails n e) ∧
    (∀ l n', apply u g k n = .ok l n' → gs ≠ [] →
      l = k ∧ ∀ x : Word w, x.ref? = none ∨ x ∈ n.slots → ∃ y, Found n n' x y) ∧
    (∀ e m', apply v groups.flatten k m = .error e m' → CheckFails m e) ∧
    ∀ l n', apply u g k n = .ok l n' → gs = [] →
      (∃ ψ, m.heap.space.Matched n'.heap.space ψ ∧ Lands ψ m c (held ++ groups.flatten) k l n') ∧
      ∀ l' m', apply v groups.flatten k m = .ok l' m' →
        l = l' ∧ SamePlace c (c.captured + groups.flatten.length < c.arity) m' n' := by
  have H : m.heap.Holds v c held := ⟨c, hc, rfl, rfl, rfl, hheld⟩
  have hlen := Heap.Holds.length_eq hheld
  rw [hlen] at hunder ⊢
  obtain ⟨done, rest, ψ, E, ys, hgroups, C, hu, H', hys, hrest⟩ := hturn.carried hm H harity hunder
  cases hrest with
  | @cons g₀ _ rest _ hg hrest =>
    have hn : Whole E n (u :: g) := C.whole hm fun x hx => by
      rcases List.mem_cons.mp hx with rfl | hx
      · exact hu
      · exact C.heap.words_into hg x hx
    have hcaptured : held.length ≤ c.arity := by
      have := hunder [] groups rfl (by simp [hgroups])
      omega
    have hsofar : ys.length ≤ c.arity := by
      have := hunder done (g₀ :: rest) hgroups (by simp)
      rw [← hys.length_eq, List.length_append]
      omega
    have hall : List.Forall₂ (Word.Matched ψ) (held ++ done.flatten ++ g₀) (ys ++ g) :=
      List.rel_append hys hg
    have hlast := ends_apply (k := k) hn H' harity hsofar hk
    have hsingle := ends_apply (k := k) hm H harity hcaptured hk
    refine ⟨?_, ?_, ?_, ?_⟩
    · intro e n' herr
      rw [herr] at hlast
      exact hlast
    · intro l n' hok hgs
      have hlt : ys.length + g.length < c.arity := by
        have hne : rest ≠ [] := by
          rintro rfl
          cases hrest
          exact hgs rfl
        have hlt := hunder (done ++ [g₀]) rest (by simp [hgroups]) hne
        have hlen' := hall.length_eq
        simp only [List.flatten_append, List.flatten_cons, List.flatten_nil, List.length_append,
          List.length_nil] at hlt hlen'
        omega
      have hends := ends_apply_of_lt (k := k) hn H' harity hlt
      rw [hok] at hends
      obtain ⟨hl, χ, G, zs, C', _⟩ := hends
      exact ⟨hl, fun x hx => C'.found hx⟩
    · intro e m' herr
      rw [herr] at hsingle
      exact hsingle
    · rintro l n' hok rfl
      cases hrest
      have hargs : held ++ groups.flatten = held ++ done.flatten ++ g₀ := by simp [hgroups]
      rw [hok] at hlast
      obtain ⟨χ, M, hlands⟩ := hlast
      have hthere := hlands.carried C (hargs ▸ hall)
      have hmatched := C.heap.matched.trans M
      refine ⟨⟨_, hmatched, hthere⟩, fun l' m' hok' => ?_⟩
      rw [hok'] at hsingle
      obtain ⟨ξ, M', hlands'⟩ := hsingle
      rw [← List.length_append]
      exact hlands'.agree hthere M' hmatched

def sharing : Machine .bits64 where
  heap :=
    { space :=
        { cells := #[(Header.pack .closure 8 0).word, .ofNat 2, .ofNat 3, .ofNat 4, .ofNat 8]
          capacity := 12 }
      hp := 5
      limit := 5
      settings := ⟨12, 12, 1.0⟩
      stats := {} }
  stack := { slots := #[(Ref.mk 3 true).word] }
  maxStackWords := 16

theorem whole_sharing :
    Whole {r | r ∈ [⟨0, false⟩, ⟨3, true⟩]} sharing
      ((Ref.mk 0 false).word :: [[4], [(Ref.mk 3 true).word], [8]].flatten) where
  bounded := ⟨by decide, by decide, by decide, by decide⟩
  layout := by decide
  rooted := by decide
  fp_le := by decide
  limit := by decide

/-- The second group is given in a collection, which moves the pair. -/
theorem apply_in_turn_sharing :
    Whole {r | r ∈ [⟨0, false⟩, ⟨3, true⟩]} sharing
      ((Ref.mk 0 false).word :: [[4], [(Ref.mk 3 true).word], [8]].flatten) ∧
    ∃ c u n, sharing.heap.closure? (Ref.mk 0 false).word = .ok (some c) ∧
      InTurn (Ref.mk 0 false).word [[4], [(Ref.mk 3 true).word], [8]] sharing u [[8]] n ∧
      n.slots = [(Ref.mk 4 true).word] ∧
      ∃ l n' l' m', apply u [8] ⟨5⟩ n = .ok l n' ∧
        apply (Ref.mk 0 false).word [4, (Ref.mk 3 true).word, 8] ⟨5⟩ sharing = .ok l' m' ∧
        l = l' ∧ SamePlace c (c.captured + 3 < c.arity) m' n' := by
  have hfirst : apply (Ref.mk 0 false).word [4] ⟨5⟩ sharing = .ok ⟨5⟩ _ :=
    Outcome.eq_ok (by decide +kernel)
  generalize hm₁ : Outcome.state (apply (Ref.mk 0 false).word [4] ⟨5⟩ sharing) = m₁ at hfirst
  have hsecond : apply m₁.result [(Ref.mk 3 true).word] ⟨5⟩ m₁ = .ok ⟨5⟩ _ :=
    Outcome.eq_ok (by rw [← hm₁]; decide +kernel)
  generalize hm₂ : Outcome.state (apply m₁.result [(Ref.mk 3 true).word] ⟨5⟩ m₁) = m₂ at hsecond
  have hthird : apply m₂.result [8] ⟨5⟩ m₂ = .ok ⟨2⟩ _ :=
    Outcome.eq_ok (by rw [← hm₂, ← hm₁]; decide +kernel)
  have hsingle : apply (Ref.mk 0 false).word [4, (Ref.mk 3 true).word, 8] ⟨5⟩ sharing =
      .ok ⟨2⟩ _ := Outcome.eq_ok (by decide +kernel)
  have hc : sharing.heap.closure? (Ref.mk 0 false).word =
      .ok (some ⟨⟨0, false⟩, .pack .closure 8 0, ⟨2⟩, 3⟩) := by decide +kernel
  have hmid : InTurn (Ref.mk 0 false).word [[4], [(Ref.mk 3 true).word], [8]] sharing m₁.result
      [[(Ref.mk 3 true).word], [8]] m₁ := by
    have hcount : m₁.heap.stats.collections = 0 := by
      rw [← hm₁]
      decide +kernel
    exact .next .start (by simp) hfirst (.cons (.cons (.unmoved hcount) .nil)
      (.cons (.cons (.immediate (by decide)) .nil) .nil))
  have hturn : InTurn (Ref.mk 0 false).word [[4], [(Ref.mk 3 true).word], [8]] sharing m₂.result
      [[8]] m₂ :=
    .next hmid (by simp) hsecond (.cons (.cons (.immediate (by decide)) .nil) .nil)
  have hunder : ∀ done rest : List (List (Word .bits64)),
      [[4], [(Ref.mk 3 true).word], [8]] = done ++ rest → rest ≠ [] → 0 + done.flatten.length < 3 := by
    intro done rest hgroups hne
    rcases done with _ | ⟨x, _ | ⟨y, _ | ⟨z, done⟩⟩⟩ <;>
      simp only [List.nil_append, List.cons_append, List.cons.injEq, List.nil_eq,
        List.append_eq_nil_iff] at hgroups
    · decide
    · obtain ⟨rfl, _⟩ := hgroups
      decide
    · obtain ⟨rfl, rfl, _⟩ := hgroups
      decide
    · exact absurd hgroups.2.2.2.2 hne
  have hheld : sharing.heap.capturedArgs ⟨⟨0, false⟩, .pack .closure 8 0, ⟨2⟩, 3⟩ = .ok [] := by
    decide +kernel
  have hall := apply_in_turn whole_sharing hc hheld (by decide) hunder hturn
    (show Word.codeAddress (w := .bits64) 5 = .ok _ from rfl)
  refine ⟨whole_sharing, _, m₂.result, m₂, hc, hturn, ?_, _, _, _, _, hthird, hsingle,
    (hall.2.2.2 _ _ hthird rfl).2 _ _ hsingle⟩
  rw [← hm₂, ← hm₁]
  decide +kernel

end Machine

end Trampoline
