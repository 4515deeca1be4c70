import Trampoline.Proofs.Currying
import Trampoline.Proofs.Rounding

/-!
A tail call is a return and then a call.

The frame is refilled in place where a return and a call would drop it and open it again: the header
that they write is the one that they drop, so the two leave the same stack, and the same number of
words has to fit on it. With too few arguments the closure is extended while the frame is still on
the stack. The checkpoint then has more roots than after the return, so the two heaps differ in where
the blocks are; but whatever the roots of the frame do not keep from being granted is granted
without them, since a heap with less to keep asks for no more room.
-/

namespace Trampoline

variable {w : Width}

/-! ### Fewer roots -/

theorem Space.Reachable.mono {s : Space w} {vs us : List (Word w)} (hsub : us ⊆ vs) {r : Ref}
    (h : s.Reachable us r) : s.Reachable vs r := by
  induction h with
  | root hv hr => exact .root (hsub hv) hr
  | child _ hv hr ih => exact .child ih hv hr

namespace Heap

variable {h : Heap w} {D : Set Ref} {vs us : List (Word w)} {words : Nat}

/-- From fewer roots, no more words can be reached. -/
theorem liveWords_mono (L : h.space.Layout h.hp D) (hvs : ∀ v ∈ vs, v.Into D) (hsub : us ⊆ vs) :
    h.space.liveWords us ≤ h.space.liveWords vs := by
  have hfin : {r | h.space.Reachable vs r}.Finite := (L.live hvs).finite
  have hreach : {r | h.space.Reachable us r} ⊆ {r | h.space.Reachable vs r} :=
    fun _ hr => hr.mono hsub
  rw [Space.liveWords, Space.liveWords, finsum_mem_eq_finite_toFinset_sum _ hfin,
    finsum_mem_eq_finite_toFinset_sum _ (hfin.subset hreach)]
  exact Finset.sum_le_sum_of_subset (Set.Finite.toFinset_subset_toFinset.mpr hreach)

/-- Words are granted if they are free, or if the heap need not grow too large and they fit beside
the live words under the maximum. -/
theorem granted_iff (B : h.Bounded) (L : h.space.Layout h.hp D) (hvs : ∀ v ∈ vs, v.Into D) :
    (∃ r, h.reserve words vs = .ok r ∧ r.shortage = none) ↔
      words ≤ h.free ∨
        (¬ h.Overgrows words vs ∧ h.space.liveWords vs + words ≤ h.settings.maxWords) := by
  have hlive := B.liveWords_le L hvs
  by_cases hfree : words ≤ h.free
  · simp [reserve_of_free B.hp_le hfree, hfree]
  · rw [reserve_of_not_free B.hp_le hfree]
    obtain ⟨hover, herr⟩ | ⟨hover, d, ρ, hd, _, _, hs, _, hhp, hcap, _⟩ :=
      collectFor_cases B L hvs words
    · simp [hfree, hover, reclaim_of_error herr]
    · have hiff := free_lt_iff B (Nat.not_le.mp hfree) hlive hhp hcap
      rw [reclaim_eq hd]
      by_cases hfit : d.heap.free < words
      · have hmax := hiff.mp hfit
        simp [hfit, hfree, hmax]
      · have hmax := Nat.not_lt.mp (mt hiff.mpr hfit)
        simp [hfit, hfree, hover, hmax, hs]

/-- Words that are granted are granted to fewer roots too. -/
theorem granted_mono (B : h.Bounded) (L : h.space.Layout h.hp D) (hvs : ∀ v ∈ vs, v.Into D)
    (hsub : us ⊆ vs) (hgranted : ∃ r, h.reserve words vs = .ok r ∧ r.shortage = none) :
    ∃ r, h.reserve words us = .ok r ∧ r.shortage = none := by
  have hle := liveWords_mono L hvs hsub
  have hlive := B.liveWords_le L hvs
  rw [granted_iff B L hvs] at hgranted
  rw [granted_iff B L fun v hv => hvs v (hsub hv)]
  refine hgranted.imp id fun ⟨hover, hmax⟩ => ⟨fun hover' => hover ?_, by omega⟩
  have hlt : h.space.liveWords vs < 2 ^ 64 := by
    have hhp := B.hp_le_maxOffset
    cases w <;> simp only [Width.maxOffset] at hhp <;> omega
  have hcap := h.capacityFor_mono hle hlt words
  unfold Overgrows at hover' ⊢
  omega

end Heap

/-- A frame that is dropped and opened again reaches as high as one that is refilled. -/
theorem Stack.highWater_reopen {s : Stack w} (hmark : s.depth ≤ s.highWater) {d : Nat}
    (hd : d + 2 ≤ s.depth) (a b : Word w) (vs : List (Word w)) :
    ((s.shrink d).pushList (a :: b :: vs)).highWater =
      ((s.shrink (d + 2)).pushList vs).highWater := by
  have hshrink : ∀ {i : Nat}, i ≤ s.depth → (s.shrink i).depth = i := by
    intro i hi
    rw [depth_eq] at *
    rw [slots_shrink, List.length_take]
    exact Nat.min_eq_left hi
  have hmark' : ∀ {i : Nat}, i ≤ s.depth → (s.shrink i).depth ≤ (s.shrink i).highWater := by
    intro i hi
    rw [hshrink hi]
    exact hi.trans hmark
  rw [highWater_pushList (hmark' (by omega)), highWater_pushList (hmark' hd), hshrink (by omega),
    hshrink hd, List.length_cons, List.length_cons]
  change max s.highWater _ = max s.highWater _
  congr 1
  omega

namespace Machine

variable {m n : Machine w} {k l : Label} {continuation link : Word w} {g : Int} {D E : Set Ref}
  {ψ : Ref → Ref → Prop} {v u : Word w} {vs xs args : List (Word w)} {c : ClosureView w}

/-! ### The frame that is left -/

/-- The machine is in a frame: beneath its slots are the word of a continuation and a link. -/
structure Framed (m : Machine w) (k : Label) (continuation link : Word w) (g : Int) : Prop where
  header_le : 2 ≤ m.fp
  continuation_at : m.slots[m.fp - 2]? = some continuation
  link_at : m.slots[m.fp - 1]? = some link
  address : Word.codeAddress k.id = .ok continuation
  small : link.toSmallInt = .ok g

def left (m : Machine w) (g : Int) : Machine w := { m.dropped (m.fp - 2) with fp := Size.ofInt g }

def refilled (m : Machine w) (vs : List (Word w)) : Machine w :=
  { m with stack := (m.stack.shrink m.fp).pushList vs }

@[simp] theorem slots_left : (m.left g).slots = m.slots.take (m.fp - 2) := slots_dropped _

@[simp] theorem slots_refilled : (m.refilled vs).slots = m.slots.take m.fp ++ vs := by
  simp [refilled, slots]

namespace Framed

theorem fp_le (F : Framed m k continuation link g) : m.fp ≤ m.slots.length := by
  have hlt := (List.getElem?_eq_some_iff.mp F.link_at).1
  have := F.header_le
  omega

theorem take_fp (F : Framed m k continuation link g) :
    m.slots.take m.fp = m.slots.take (m.fp - 2) ++ [continuation, link] := by
  have hle := F.header_le
  have hfp : m.fp = m.fp - 2 + 1 + 1 := by omega
  have hlink : m.slots[m.fp - 2 + 1]? = some link := by
    rw [← F.link_at]
    congr 1
    omega
  rw [hfp, List.take_add_one, List.take_add_one, hlink, ← hfp, F.continuation_at]
  simp

/-- In a frame, leaving it answers its continuation and restores the link. -/
theorem leave (F : Framed m k continuation link g) : leaveFrame m = .ok k (m.left g) := by
  have hle := F.header_le
  have hbase : (m.slots.take (m.fp - 2)).length = m.fp - 2 := by
    have := F.fp_le
    rw [List.length_take]
    omega
  have hslots : m.slots =
      m.slots.take (m.fp - 2) ++ continuation :: link :: m.slots.drop m.fp := by
    have hsplit := List.take_append_drop m.fp m.slots
    rw [F.take_fp, List.append_assoc] at hsplit
    exact hsplit.symm
  rw [leaveFrame_of_header (Word.toCodeAddress_codeAddress F.address) F.small (by omega) hslots,
    hbase]
  rfl

/-- A frame is still one after words have been moved. -/
theorem carried (F : Framed m k continuation link g) (C : Transfers ψ D E m n) :
    Framed n k continuation link g := by
  have hkept : ∀ {i : Nat} {x : Word w}, m.slots[i]? = some x → x.ref? = none →
      n.slots[i]? = some x := by
    intro i x hx hr
    obtain ⟨hnone, _⟩ | ⟨x', y, hx', hy, hxy⟩ := forall₂_getElem? C.slots i
    · rw [hx] at hnone
      cases hnone
    · rw [hx] at hx'
      cases hx'
      rw [hy, hxy.eq_of_none hr]
  have hfp := C.fp
  refine ⟨hfp ▸ F.header_le, ?_, ?_, F.address, F.small⟩
  · rw [hfp]
    exact hkept F.continuation_at (Word.ref?_codeAddress F.address)
  · rw [hfp]
    exact hkept F.link_at (Word.ref?_of_toSmallInt F.small)

end Framed

/-! ### With enough arguments -/

/-- Two machines that come from `m` are the same. Their stacks have the same slots, and the same
mark too, if the mark of `m` is one. -/
structure Coincide (m n n' : Machine w) : Prop where
  slots : n'.slots = n.slots
  rest : n' = { n with stack := n'.stack }
  mark : m.stack.depth ≤ m.stack.highWater → n'.stack = n.stack

/-- Two transfers of control from `m` tally: if one of them returns then so does the other, the same
label, and they leave the same machine. -/
structure Tally (m : Machine w) (r q : Outcome w (Machine w) Label) : Prop where
  returns : r.value? = q.value?
  coincide : r.value?.isSome → Coincide m r.state q.state

theorem Tally.refl (m : Machine w) (r : Outcome w (Machine w) Label) : Tally m r r :=
  ⟨rfl, fun _ => ⟨rfl, rfl, fun _ => rfl⟩⟩

/-- The frame that is opened anew is the one that was left. -/
theorem Framed.coincide (F : Framed m k continuation link g) (vs : List (Word w)) :
    Coincide m (m.refilled vs) ((m.left g).opened continuation link vs) := by
  have hslots : ((m.left g).opened continuation link vs).slots = (m.refilled vs).slots := by
    rw [slots_opened, slots_left, slots_refilled, F.take_fp]
    simp
  have hle := F.header_le
  have hdepth := F.fp_le
  refine ⟨hslots, ?_, fun hmark => Stack.eq_of_slots hslots ?_⟩
  · have hfp : (m.refilled vs).fp = ((m.left g).opened continuation link vs).fp := by
      change m.fp = (m.left g).slots.length + 2
      rw [slots_left, List.length_take]
      omega
    rw [hfp]
    rfl
  · have hreopen := Stack.highWater_reopen hmark (d := m.fp - 2)
      (by rw [depth_eq]; omega) continuation link vs
    rw [Nat.sub_add_cancel hle] at hreopen
    exact hreopen

/-- Arguments are found the same in the heap by both transfers, and as many words have to fit. -/
theorem Framed.tally (F : Framed m k continuation link g) {x : Op w (List (Word w))}
    {r : Except (Trap w) (List (Word w))}
    (hx : ∀ n : Machine w, n.heap = m.heap → x n = (liftM r : Op w (List (Word w))) n)
    (arity : Nat) (l : Label) :
    Tally m ((do replaceFrame x arity; return l : Op w Label) m)
      ((do pushFrame k arity; pushList (← x); return l : Op w Label) (m.left g)) := by
  have hle := F.header_le
  have hfp := F.fp_le
  have hkept : (m.dropped m.fp).slots.length = m.fp := by
    rw [slots_dropped, List.length_take]
    omega
  have hbase : (m.left g).slots.length + 2 = m.fp := by
    rw [slots_left, List.length_take]
    omega
  have hreplace : replaceFrame x arity m =
      (checkStack arity >>= fun _ => x >>= pushList) (m.dropped m.fp) :=
    bind_of_ok (truncate_of_le hfp)
  by_cases hroom : m.fp + arity ≤ m.maxStackWords
  · have hpush : pushFrame k arity (m.left g) = .ok () ((m.left g).opened continuation link []) :=
      pushFrame_of_room F.address (Word.size_ofInt F.small) (by
        change _ ≤ m.maxStackWords
        omega)
    rw [bind_of_ok (checkStack_of_le (by rw [hkept]; exact hroom))] at hreplace
    have hdropped := hx (m.dropped m.fp) rfl
    have hopened := hx ((m.left g).opened continuation link []) rfl
    rw [bind_of_ok hpush]
    cases r with
    | ok vs =>
      rw [bind_of_ok hdropped] at hreplace
      rw [bind_of_ok hreplace, bind_of_ok hopened]
      exact ⟨rfl, fun _ => F.coincide vs⟩
    | error t =>
      rw [bind_of_error hdropped] at hreplace
      rw [bind_of_error hreplace, bind_of_error hopened]
      exact ⟨rfl, fun h => by cases h⟩
  · have hpush : pushFrame k arity (m.left g) =
        .error (.error (.stackOverflow m.maxStackWords)) (m.left g) := by
      refine pushFrame_of_lt ?_
      change m.maxStackWords < _ + (2 + arity)
      omega
    have hcheck : checkStack arity (m.dropped m.fp) =
        .error (.error (.stackOverflow m.maxStackWords)) (m.dropped m.fp) := by
      refine checkStack_of_lt ?_
      rw [hkept]
      exact Nat.not_le.mp hroom
    rw [bind_of_error hcheck] at hreplace
    rw [bind_of_error hreplace, bind_of_error hpush]
    exact ⟨rfl, fun h => by cases h⟩

def returnThen (transfer : Label → Op w Label) : Op w Label := do
  transfer (← leaveFrame)

theorem Framed.returnThen (F : Framed m k continuation link g) (transfer : Label → Op w Label) :
    returnThen transfer m = transfer k (m.left g) :=
  bind_of_ok F.leave

theorem Framed.tally_tailCall (F : Framed m k continuation link g) (callee : Label)
    (args : List (Word w)) :
    Tally m (tailCall callee args m) (Machine.returnThen (call callee args) m) := by
  rw [F.returnThen]
  exact F.tally (x := pure args) (r := .ok args) (fun _ _ => rfl) args.length callee

/-- With enough arguments, a tail application does what leaving the frame and applying does. -/
theorem Framed.tally_tailApply (F : Framed m k continuation link g)
    (hc : m.heap.closure? v = .ok (some c)) (harity : c.arity ≤ c.captured + args.length) :
    Tally m (tailApply v args m) (Machine.returnThen (apply v args) m) := by
  have hview := closureView_of_some hc
  have hleft : closureView v (m.left g) = .ok c (m.left g) := closureView_of_some hc
  rw [F.returnThen]
  unfold tailApply apply
  rw [bind_of_ok hview, bind_of_ok hleft]
  rcases harity.eq_or_lt with heq | hlt
  · rw [compare_eq_iff_eq.mpr heq.symm]
    refine F.tally (r := (m.heap.capturedArgs c).map (· ++ args)) (fun n hn => ?_) c.arity c.entry
    change ((liftM (n.heap.capturedArgs c) : Op w _) >>= _) n = _
    rw [hn]
    cases m.heap.capturedArgs c with
    | ok held => rfl
    | error t => rfl
  · rw [compare_gt_iff_gt.mpr hlt]
    change Tally m ((leaveFrame >>= overApply c args) m) _
    rw [bind_of_ok F.leave]
    exact .refl m _

/-! ### With too few arguments -/

theorem prealloc_of_granted {words : Nat} {r : Checkpoint w}
    (hr : m.heap.reserve words m.roots = .ok r) (hs : r.shortage = none) :
    ∃ n, prealloc words m = .ok () n := by
  have hpoint := checkpoint_eq words m
  rw [hr] at hpoint
  unfold prealloc
  rw [bind_of_ok hpoint, hs]
  exact ⟨_, rfl⟩

/-- A reservation that returns has been granted. -/
theorem prealloc_eq_ok {words : Nat} {u : Unit} (h : prealloc words m = .ok u n) :
    ∃ r, m.heap.reserve words m.roots = .ok r ∧ r.shortage = none := by
  have hpoint := checkpoint_eq words m
  unfold prealloc at h
  cases hr : m.heap.reserve words m.roots with
  | error t =>
    rw [hr] at hpoint
    rw [bind_of_error hpoint] at h
    cases h
  | ok r =>
    rw [hr] at hpoint
    rw [bind_of_ok hpoint] at h
    cases hs : r.shortage with
    | none => exact ⟨r, rfl, hs⟩
    | some s =>
      rw [hs] at h
      cases h

/-- What it takes for a closure that holds so many arguments to be given more: the closure and the
arguments fit on the stack, a header counts them all, and the words are granted. -/
structure Extensible (m : Machine w) (v : Word w) (held : Nat) (args : List (Word w)) : Prop where
  room : m.slots.length + (1 + args.length) ≤ m.maxStackWords
  counted : held + args.length ≤ w.maxFields
  granted : ∃ r, m.heap.reserve (Shape.closure (held + args.length)).words (m.roots ++ v :: args) =
    .ok r ∧ r.shortage = none

/-- Whatever can be extended is extended. -/
theorem Extensible.extends (X : Extensible m v xs.length args) (B : m.heap.Bounded)
    (L : m.heap.space.Layout m.heap.hp D) (hrooted : ∀ x ∈ m.roots ++ v :: args, x.Into D)
    (H : m.heap.Holds v c xs) : ∃ u n, extendSaving v args m = .ok u n := by
  unfold extendSaving
  by_cases hempty : args.isEmpty
  · rw [if_pos hempty]
    exact ⟨v, m, rfl⟩
  obtain ⟨d, hd, _, _, _, hxs⟩ := id H
  obtain ⟨r, hr, hs⟩ := X.granted
  rw [← roots_pushList] at hr hrooted
  obtain ⟨n, hn⟩ := prealloc_of_granted (m := { m with stack := m.stack.pushList (v :: args) }) hr hs
  have hends := ends_prealloc (m := { m with stack := m.stack.pushList (v :: args) }) B L hrooted
    (Shape.closure (xs.length + args.length)).words
  rw [hn] at hends
  obtain ⟨ψ, E, C, hlimit⟩ := hends
  obtain ⟨u, o, hend, _⟩ := extend_carried C H X.counted hlimit
  refine ⟨u, o, ?_⟩
  rw [if_neg hempty, bind_of_ok (closureView_of_some hd), Heap.Holds.length_eq hxs]
  change (checkStack (1 + args.length) >>= _) m = _
  rw [bind_of_ok (checkStack_of_le X.room)]
  exact (bind_of_ok hn).trans hend

/-- Whatever was extended could be. -/
theorem extensible_of_ok (B : m.heap.Bounded) (L : m.heap.space.Layout m.heap.hp D)
    (hrooted : ∀ x ∈ m.roots ++ v :: args, x.Into D) (H : m.heap.Holds v c xs) (hne : args ≠ [])
    (h : extendSaving v args m = .ok u n) : Extensible m v xs.length args := by
  obtain ⟨d, hd, _, _, _, hxs⟩ := id H
  unfold extendSaving at h
  rw [if_neg (mt List.isEmpty_iff.mp hne), bind_of_ok (closureView_of_some hd),
    Heap.Holds.length_eq hxs] at h
  change (checkStack (1 + args.length) >>= _) m = _ at h
  obtain ⟨_, _, hcheck, hrest⟩ := of_bind_eq_ok h
  obtain ⟨rfl, hroom⟩ := checkStack_eq_ok hcheck
  change (prealloc _ >>= _) { m with stack := m.stack.pushList (v :: args) } = _ at hrest
  obtain ⟨_, n₁, hpre, hrest⟩ := of_bind_eq_ok hrest
  have hgranted := prealloc_eq_ok hpre
  rw [← roots_pushList] at hrooted
  have hends := ends_prealloc (m := { m with stack := m.stack.pushList (v :: args) }) B L hrooted
    (Shape.closure (xs.length + args.length)).words
  rw [hpre] at hends
  obtain ⟨ψ, E, C, _⟩ := hends
  rw [roots_pushList] at hgranted
  refine ⟨hroom, ?_, hgranted⟩
  -- the header of the new block has been made
  have hslots := C.slots
  rw [show ({ m with stack := m.stack.pushList (v :: args) } : Machine w).slots =
    m.slots ++ v :: args from Stack.slots_pushList _ _] at hslots
  obtain ⟨below, top, hn, hbelow, htop⟩ := forall₂_append_split hslots
  cases htop with
  | @cons _ moved _ args' hmoved hargs' =>
    obtain ⟨xs', ⟨d', hd', _, _, _, hxs'⟩, hheld⟩ := H.carried C.heap hmoved
    obtain ⟨hget, habove⟩ := ridden hn
    obtain ⟨moved', hget', hrest⟩ := of_liftM_bind_eq_ok (of_get_bind_eq_ok hrest)
    rw [depth_eq, hbelow.length_eq] at hget' hrest
    rw [hget] at hget'
    cases hget'
    rw [habove] at hrest
    obtain ⟨_, _, hextend, _⟩ := of_bind_eq_ok hrest
    unfold extendClosure at hextend
    rw [bind_of_ok (closureView_of_some hd')] at hextend
    obtain ⟨p, hp, _⟩ := allocate_eq_ok (Alloc.follows_extend d' args') hextend
    obtain ⟨_, hheader, _⟩ := Heap.planExtend_eq_ok (Heap.closure?_eq_some hd').2 hp
    rw [hheld.length_eq, hargs'.length_eq, ← Heap.Holds.length_eq hxs']
    exact (Header.checked_eq_ok hheader).2.1

theorem transfers_of_extendSaving (B : m.heap.Bounded) (L : m.heap.space.Layout m.heap.hp D)
    (hrooted : ∀ x ∈ m.roots ++ v :: args, x.Into D) (H : m.heap.Holds v c xs)
    (h : extendSaving v args m = .ok u n) :
    ∃ ψ E ys, Transfers ψ D E m { n with result := u } ∧ n.heap.Holds u c ys ∧
      List.Forall₂ (Word.Matched ψ) (xs ++ args) ys := by
  have hends := ends_extendSaving B L hrooted H fun hne =>
    (extensible_of_ok B L hrooted H hne h).counted
  rw [h] at hends
  obtain ⟨ψ, E, ys, C, hu, H', hys⟩ := hends
  exact ⟨ψ, E, ys, ⟨C.heap, C.slots, hu, C.fp, C.limit⟩, H', hys⟩

theorem roots_left (m : Machine w) (g : Int) (vs : List (Word w)) :
    (m.left g).roots ++ vs ⊆ m.roots ++ vs := by
  intro x hx
  rw [roots_eq, slots_left] at hx
  rw [roots_eq]
  refine List.mem_append.mpr ((List.mem_append.mp hx).imp_left fun h => ?_)
  exact List.cons_subset_cons _ (List.take_subset _ _) h

/-- What can be done in a frame can be done when it has been left. -/
theorem extendSaving_left (B : m.heap.Bounded) (L : m.heap.space.Layout m.heap.hp D)
    (hrooted : ∀ x ∈ m.roots ++ v :: args, x.Into D) (H : m.heap.Holds v c xs)
    (h : extendSaving v args m = .ok u n) : ∃ u' n', extendSaving v args (m.left g) = .ok u' n' := by
  by_cases hne : args = []
  · subst hne
    exact ⟨v, _, rfl⟩
  · have X := extensible_of_ok B L hrooted H hne h
    have hsub := roots_left m g (v :: args)
    have hroom : (m.left g).slots.length + (1 + args.length) ≤ (m.left g).maxStackWords := by
      have hroom := X.room
      change _ ≤ m.maxStackWords
      rw [slots_left, List.length_take]
      omega
    have X' : Extensible (m.left g) v xs.length args :=
      ⟨hroom, X.counted, Heap.granted_mono B L hrooted hsub X.granted⟩
    exact X'.extends (m := m.left g) B L (fun x hx => hrooted x (hsub hx)) H

/-- With too few arguments, a tail application and a return and an application land at the same
place. -/
theorem Framed.tailApply_of_lt (F : Framed m k continuation link g) (B : m.heap.Bounded)
    (L : m.heap.space.Layout m.heap.hp D) (hrooted : ∀ x ∈ m.roots ++ v :: args, x.Into D)
    (hc : m.heap.closure? v = .ok (some c)) (hxs : m.heap.capturedArgs c = .ok xs)
    (hlt : c.captured + args.length < c.arity) (h : tailApply v args m = .ok l n) :
    (∃ ψ, m.heap.space.Matched n.heap.space ψ ∧ Lands ψ (m.left g) c (xs ++ args) k l n) ∧
    ∃ n', Machine.returnThen (apply v args) m = .ok k n' ∧
      ∃ ψ, m.heap.space.Matched n'.heap.space ψ ∧
        Lands ψ (m.left g) c (xs ++ args) k k n' := by
  have H : m.heap.Holds v c xs := ⟨c, hc, rfl, rfl, rfl, hxs⟩
  have hall : (xs ++ args).length < c.arity := by
    rw [List.length_append, ← Heap.Holds.length_eq hxs]
    exact hlt
  have hleft : closureView v (m.left g) = .ok c (m.left g) := closureView_of_some hc
  unfold tailApply at h
  rw [bind_of_ok (closureView_of_some hc), compare_lt_iff_lt.mpr hlt] at h
  obtain ⟨u, n₁, hextend, hret⟩ := of_bind_eq_ok h
  constructor
  · obtain ⟨ψ, E, ys, C, H₁, hys⟩ := transfers_of_extendSaving B L hrooted H hextend
    change leaveFrame { n₁ with result := u } = _ at hret
    rw [(F.carried C).leave] at hret
    cases hret
    refine ⟨ψ, C.heap.matched, .delivered hall rfl ?_ H₁ hys⟩
    rw [slots_left, slots_left, C.fp]
    exact List.forall₂_take _ C.slots
  · have hrooted' : ∀ x ∈ (m.left g).roots ++ v :: args, x.Into D := fun x hx =>
      hrooted x (roots_left m g (v :: args) hx)
    obtain ⟨u', n', hextend'⟩ := extendSaving_left (g := g) B L hrooted H hextend
    obtain ⟨χ, E, ys, C, H', hys⟩ :=
      transfers_of_extendSaving (m := m.left g) B L hrooted' H hextend'
    refine ⟨{ n' with result := u' }, ?_, χ, C.heap.matched, .delivered hall C.fp C.slots H' hys⟩
    rw [F.returnThen]
    unfold apply
    rw [bind_of_ok hleft, compare_lt_iff_lt.mpr hlt]
    exact bind_of_ok hextend'

/-! ### What a tail call keeps -/

/-- Nothing has changed beneath the header of the frame of `m`, nor in the heap. -/
def SameBelow (m n : Machine w) : Prop :=
  n.heap = m.heap ∧ n.slots.take (m.fp - 2) = m.slots.take (m.fp - 2)

theorem Framed.sameBelow_of_slots (F : Framed m k continuation link g) (hheap : n.heap = m.heap)
    (hslots : ∃ vs, n.slots = m.slots.take (m.fp - 2) ++ vs) : SameBelow m n := by
  have hfp := F.fp_le
  obtain ⟨vs, hslots⟩ := hslots
  refine ⟨hheap, ?_⟩
  rw [hslots, List.take_append_of_le_length, List.take_take, Nat.min_self]
  rw [List.length_take]
  omega

theorem Framed.refilled (F : Framed m k continuation link g) (vs : List (Word w)) :
    SameBelow m (m.refilled vs) ∧ (m.refilled vs).stack.depth = m.fp + vs.length := by
  refine ⟨F.sameBelow_of_slots rfl ⟨[continuation, link] ++ vs, ?_⟩, ?_⟩
  · rw [slots_refilled, F.take_fp, List.append_assoc]
  · have hfp := F.fp_le
    rw [depth_eq, slots_refilled, List.length_append, List.length_take]
    omega

theorem tailCall_eq_ok {callee : Label} (h : tailCall callee args m = .ok l n) :
    l = callee ∧ n = m.refilled args := by
  obtain ⟨_, _, hfill, hrest⟩ := of_bind_eq_ok h
  obtain ⟨_, hvs, rfl⟩ := replaceFrame_eq_ok (by rintro _ _ _ ⟨⟩; rfl) hfill
  cases hvs
  cases hrest
  exact ⟨rfl, rfl⟩

/-- A saturated tail call puts all the arguments into the frame, and nothing else. -/
theorem tailApply_eq_ok_of_saturated (hc : m.heap.closure? v = .ok (some c))
    (heq : c.captured + args.length = c.arity) (h : tailApply v args m = .ok l n) :
    l = c.entry ∧ ∃ held, held.length = c.captured ∧ n = m.refilled (held ++ args) := by
  unfold tailApply at h
  rw [bind_of_ok (closureView_of_some hc), compare_eq_iff_eq.mpr heq] at h
  obtain ⟨_, _, hfill, hrest⟩ := of_bind_eq_ok h
  obtain ⟨_, hvs, rfl⟩ := replaceFrame_eq_ok (fun _ _ _ h => Chain.allArgs_eq_ok h) hfill
  obtain ⟨held, hheld, hvs⟩ := of_liftM_bind_eq_ok (of_get_bind_eq_ok hvs)
  cases hvs
  cases hrest
  exact ⟨rfl, held, (Heap.Holds.length_eq hheld).symm, rfl⟩

/-- With too many arguments, everything beneath the frame stays as it was. -/
theorem Framed.sameBelow_of_surplus (F : Framed m k continuation link g)
    (hc : m.heap.closure? v = .ok (some c)) (hlt : c.arity < c.captured + args.length)
    (h : tailApply v args m = .ok l n) : SameBelow m n := by
  unfold tailApply at h
  rw [bind_of_ok (closureView_of_some hc), compare_gt_iff_gt.mpr hlt] at h
  change (leaveFrame >>= overApply c args) m = _ at h
  rw [bind_of_ok F.leave] at h
  obtain ⟨_, _, _, _, _, _, _, henter⟩ := overApply_eq_ok h
  obtain ⟨_, _, _, _, _, _, _, _, rfl⟩ := enter_eq_ok henter
  refine F.sameBelow_of_slots rfl ?_
  rw [slots_opened, slots_suspended, slots_left, List.append_assoc]
  exact ⟨_, rfl⟩

/-- In a frame, a tail call is a return and then a call, and a tail application a return and then an
application. With enough arguments the one returns if and only if the other does, and they leave the
same machine. With too few, the latter returns if the former does, and they leave the machine in
the same place. What is beneath the header of the frame stays as it is, up to where blocks are, and
the frame of a saturated call has just the arguments in it. -/
theorem tail_transfers (F : Framed m k continuation link g) :
    (∀ callee args, Tally m (tailCall callee args m) (returnThen (call callee args) m) ∧
      ∀ l n, tailCall callee args m = .ok l n →
        SameBelow m n ∧ n.stack.depth = m.fp + args.length) ∧
    ∀ v c args, m.heap.closure? v = .ok (some c) →
      (c.arity ≤ c.captured + args.length →
        Tally m (tailApply v args m) (returnThen (apply v args) m) ∧
        ∀ l n, tailApply v args m = .ok l n → SameBelow m n ∧
          (c.captured + args.length = c.arity → n.stack.depth = m.fp + c.arity)) ∧
      (c.captured + args.length < c.arity → ∀ D, m.heap.Bounded →
        m.heap.space.Layout m.heap.hp D → (∀ x ∈ m.roots ++ v :: args, x.Into D) →
        ∀ l n, tailApply v args m = .ok l n →
          (∃ n', returnThen (apply v args) m = .ok l n' ∧ n'.stack.depth = n.stack.depth ∧
            SamePlace c True n n') ∧
          ∃ ψ xs, m.heap.capturedArgs c = .ok xs ∧ m.heap.space.Matched n.heap.space ψ ∧
            Lands ψ (m.left g) c (xs ++ args) k l n) := by
  refine ⟨fun callee args => ⟨F.tally_tailCall callee args, fun l n h => ?_⟩,
    fun v c args hc => ⟨fun harity => ⟨F.tally_tailApply hc harity, fun l n h => ?_⟩, ?_⟩⟩
  · obtain ⟨_, rfl⟩ := tailCall_eq_ok h
    exact F.refilled args
  · rcases harity.eq_or_lt with heq | hlt
    · obtain ⟨_, held, hheld, rfl⟩ := tailApply_eq_ok_of_saturated hc heq.symm h
      obtain ⟨hbelow, hdepth⟩ := F.refilled (held ++ args)
      rw [List.length_append, hheld, ← heq] at hdepth
      exact ⟨hbelow, fun _ => hdepth⟩
    · exact ⟨F.sameBelow_of_surplus hc hlt h, fun heq => by omega⟩
  · intro hlt D B L hrooted l n h
    obtain ⟨hr, hcl⟩ := Heap.closure?_eq_some hc
    have hmem := hrooted v (List.mem_append_right _ (.head _)) _ hr
    have hxs := Heap.capturedArgs_of_closureAt B L hmem hcl
    obtain ⟨⟨ψ, M, hlands⟩, n', hthen, χ, M', hlands'⟩ := F.tailApply_of_lt B L hrooted hc hxs hlt h
    obtain ⟨rfl, hplace⟩ := hlands.agree hlands' M M'
    obtain ⟨ξ, Mξ, hslots, hresult⟩ := hplace.moved
    refine ⟨⟨n', hthen, ?_, hplace.fp, ξ, Mξ, hslots, fun _ => hresult ?_⟩, ψ, _, hxs, M, hlands⟩
    · rw [depth_eq, depth_eq, hslots.length_eq]
    · rw [List.length_append, ← Heap.Holds.length_eq hxs]
      exact hlt

/-- A machine in a frame with a closure of three arguments on a full heap; only the frame keeps a
pair. -/
def calling : Machine .bits64 where
  heap :=
    { space :=
        { cells := #[(Header.pack .closure 8 0).word, .ofNat 2, .ofNat 3, .ofNat 4, .ofNat 8]
          capacity := 8 }
      hp := 5
      limit := 5
      settings := ⟨8, 12, 1.0⟩
      stats := {} }
  stack := { slots := #[.ofNat 4, .ofNat 20, .ofNat 0, (Ref.mk 3 true).word], highWater := 4 }
  fp := 3
  maxStackWords := 16

/-- The pair is moved with the frame, but not without it. -/
theorem tail_transfers_calling :
    Framed calling ⟨5⟩ 20 0 0 ∧
    Tally calling (tailCall ⟨2⟩ [4, 8] calling) (returnThen (call ⟨2⟩ [4, 8]) calling) ∧
    ∃ l n n', tailApply (Ref.mk 0 false).word [4] calling = .ok l n ∧
      returnThen (apply (Ref.mk 0 false).word [4]) calling = .ok l n' ∧ n'.result ≠ n.result ∧
      ∃ c, SamePlace c True n n' := by
  have F : Framed calling ⟨5⟩ 20 0 0 :=
    ⟨by decide, by decide, by decide, by decide, by decide⟩
  have hc : calling.heap.closure? (Ref.mk 0 false).word =
      .ok (some ⟨⟨0, false⟩, .pack .closure 8 0, ⟨2⟩, 3⟩) := by decide +kernel
  have htail : tailApply (Ref.mk 0 false).word [4] calling = .ok ⟨5⟩ _ :=
    Outcome.eq_ok (by decide +kernel)
  have hthen : returnThen (apply (Ref.mk 0 false).word [4]) calling = .ok ⟨5⟩ _ :=
    Outcome.eq_ok (by decide +kernel)
  obtain ⟨htally, hunder⟩ := tail_transfers F
  obtain ⟨⟨n', hthen', _, hplace⟩, _⟩ := (hunder _ _ [4] hc).2 (by decide)
    {r | r ∈ [⟨0, false⟩, ⟨3, true⟩]} ⟨by decide, by decide, by decide, by decide⟩ (by decide)
    (by decide) _ _ htail
  rw [hthen] at hthen'
  cases hthen'
  exact ⟨F, (htally ⟨2⟩ [4, 8]).1, _, _, _, htail, hthen, by decide +kernel, _, hplace⟩

end Machine

end Trampoline
