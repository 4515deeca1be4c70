import Trampoline.Proofs.Holdings

/-!
Closures that are applied, where it is known what they hold.

A closure of a known function that holds known integers is a partial application. The words that a
run has for such closures are listed with them: a checkpoint moves the closures and leaves them what
they are, a new closure joins the list, and an application to too few arguments adds a closure that
holds more. How many words that takes is known from the list alone, and so is whether they are
granted. Applications to enough arguments, or to too many, do not touch the heap.
-/

namespace Trampoline

variable {w : Width}

/-- A function with integers for its first arguments. -/
structure PartialApplication (w : Width) where
  function : Function
  held : List Int
  uid_le : function.uid ≤ w.maxUid
  arity_le : function.arity ≤ w.maxFields
  held_le : held.length ≤ function.arity

namespace PartialApplication

variable (p : PartialApplication w)

def words : Nat := 3 + p.held.length

def header : Header w := .pack .closure p.function.uid p.held.length

/-- The words of the closure that are not traced: its header, its entry and its arity. -/
def lead : List (Word w) :=
  [p.header.word, .ofNat p.function.label.index, .ofNat p.function.arity]

def captured : List (Word w) := p.held.map .wrapInt

/-- What is seen of the closure, if its block is at a reference. -/
def view (r : Ref) : ClosureView w := ⟨r, p.header, p.function.label, p.function.arity⟩

/-- The function with more integers, as far as it takes them. -/
def give (xs : List Int) (h : p.held.length + xs.length ≤ p.function.arity) :
    PartialApplication w :=
  { p with held := p.held ++ xs, held_le := by rwa [List.length_append] }

structure At (s : Space w) (v : Word w) (r : Ref) : Prop where
  ref : v.ref? = some r
  block : s.BlockAt r p.lead p.captured

theorem fields_le : p.held.length ≤ w.maxFields := p.held_le.trans p.arity_le

theorem length_captured : p.captured.length = p.held.length := List.length_map _

theorem block : Block false p.lead p.captured := by
  have hheader : Header.checked .closure p.function.uid p.captured.length = .ok p.header := by
    rw [length_captured]
    exact Header.checked_of_le p.uid_le p.fields_le
  exact Heap.block_of_checked hheader rfl

@[simp] theorem captured_view (r : Ref) : (p.view r).captured = p.held.length :=
  Header.fields_pack p.uid_le p.fields_le

theorem into_captured (D : Set Ref) : ∀ v ∈ p.captured, v.Into D := by
  intro v hv
  obtain ⟨z, _, rfl⟩ := List.mem_map.mp hv
  exact Word.into_of_none (Word.ref?_wrapInt z)

theorem map_move_wrapInt (ρ : Nat → Nat) (xs : List Int) :
    (xs.map (Word.wrapInt (w := w))).map (Word.move ρ) = xs.map .wrapInt := by
  rw [List.map_map]
  exact List.map_congr_left fun z _ => Word.move_wrapInt ρ z

theorem toNat_arity : (Word.ofNat p.function.arity : Word w).toNat = p.function.arity := by
  have harity := p.arity_le
  rw [Word.toNat_ofNat]
  apply Nat.mod_eq_of_lt
  cases w <;> simp only [Width.maxFields, Width.fieldRange, Width.modulus] at * <;> omega

variable {p} {s : Space w} {h : Heap w} {v : Word w} {r : Ref}

/-- What is seen at the reference is the partial application. -/
theorem At.closureAt (c : p.At h.space v r) : h.closureAt r = some (p.view r) := by
  have hheader : h.space.cell r.offset = p.header.word := c.block.cell (i := 0) rfl
  have hentry : h.space.cell (r.offset + 1) = .ofNat p.function.label.index :=
    c.block.cell (i := 1) rfl
  have harity : h.space.cell (r.offset + 2) = .ofNat p.function.arity := c.block.cell (i := 2) rfl
  have hclosure : p.header.isClosure = true := by
    rw [header, Header.isClosure, Header.kind_pack p.uid_le p.fields_le]
    rfl
  rw [Heap.closureAt, hheader, hentry, harity, if_pos ⟨c.block.headed, hclosure⟩,
    Label.ofNat_toNat_ofNat, toNat_arity]
  rfl

end PartialApplication

namespace Heap

abbrev Closed (w : Width) := List (Word w × PartialApplication w)

def Closed.move (ρ : Nat → Nat) (ks : Closed w) : Closed w := ks.map fun k => (k.1.move ρ, k.2)

def Closed.total (ks : Closed w) : Nat := (ks.map fun k => k.2.words).sum

theorem Closed.total_move (ks : Closed w) (ρ : Nat → Nat) : (ks.move ρ).total = ks.total := by
  rw [total, move, List.map_map]
  rfl

/-- A heap with the settings that has a block for each of the closures. It still has the capacity,
unless there is nothing else in it. -/
structure Furnished (s : HeapSettings) (room : Nat) (h : Heap w) (ks : Closed w) : Prop where
  bounded : h.Bounded
  settings : h.settings = s
  tidy : h.Tidy room ks.total
  blocks : ∃ rs : List Ref, rs.Nodup ∧ h.space.Layout h.hp {r | r ∈ rs} ∧
    List.Forall₂ (fun k r => k.2.At h.space k.1 r) ks rs

variable {s : HeapSettings} {room : Nat} {h h' : Heap w} {ks : Closed w} {rs : List Ref}
  {v : Word w} {p : PartialApplication w}

theorem furnished_nil (B : h.Bounded) (hs : h.settings = s) : h.Furnished s h.capacity [] :=
  ⟨B, hs, .inl rfl, [], .nil, ⟨nofun, nofun, nofun, nofun⟩, .nil⟩

theorem total_closed {t : Space w} (hks : List.Forall₂ (fun k r => k.2.At t k.1 r) ks rs) :
    t.total rs = ks.total := by
  induction hks with
  | nil => rfl
  | @cons k r ks rs hk _ ih =>
    rw [Space.total_cons, hk.block.extent, ih, k.2.length_captured]
    rfl

theorem closed_keeps {t u : Space w} (hks : List.Forall₂ (fun k r => k.2.At t k.1 r) ks rs)
    (hkeeps : ∀ r ∈ rs, t.Keeps u r) : List.Forall₂ (fun k r => k.2.At u k.1 r) ks rs := by
  induction hks with
  | nil => exact .nil
  | cons hk _ ih =>
    exact .cons ⟨hk.ref, hk.block.keeps (hkeeps _ List.mem_cons_self)⟩
      (ih fun r hr => hkeeps r (List.mem_cons_of_mem _ hr))

/-- Closures stay what they are where they are moved to. -/
theorem closed_moved {roots : List (Word w)} {all : List Ref} {words : Nat} {ρ : Nat → Nat}
    (S : h.Secured roots all words h' ρ)
    (hks : List.Forall₂ (fun k r => k.2.At h.space k.1 r) ks rs) (hall : ∀ r ∈ rs, r ∈ all) :
    List.Forall₂ (fun k r => k.2.At h'.space k.1 r) (ks.move ρ) (rs.map (Ref.move ρ)) := by
  induction hks with
  | nil => exact .nil
  | @cons k r ks rs hk _ ih =>
    have hr := hall r List.mem_cons_self
    have hblock := S.block hr hk.block
    rw [PartialApplication.captured, PartialApplication.map_move_wrapInt] at hblock
    exact .cons ⟨S.word hr hk.ref, hblock⟩ (ih fun r hr => hall r (List.mem_cons_of_mem _ hr))

/-- The closures are held by any roots that have the same references. -/
theorem holdings_closed {roots : List (Word w)} (hnodup : rs.Nodup)
    (L : h.space.Layout h.hp {r | r ∈ rs})
    (hks : List.Forall₂ (fun k r => k.2.At h.space k.1 r) ks rs)
    (hroots : ∀ u r, u.ref? = some r → (u ∈ roots ↔ u ∈ ks.map Prod.fst)) :
    h.Holdings roots rs where
  nodup := hnodup
  layout := L
  rooted u hu r hr := by
    obtain ⟨k, hk, rfl⟩ := List.mem_map.mp ((hroots u r hr).mp hu)
    obtain ⟨r', hr', hat⟩ := forall₂_exists_right hks hk
    cases hat.ref.symm.trans hr
    exact hr'
  reachable r hr := by
    obtain ⟨k, hk, hat⟩ := forall₂_exists_right hks.flip hr
    exact .root ((hroots _ _ hat.ref).mpr (List.mem_map_of_mem hk)) hat.ref

namespace Furnished

/-- Each of the closures can be seen. -/
theorem closure (F : h.Furnished s room ks) (hv : (v, p) ∈ ks) :
    ∃ r, h.closure? v = .ok (some (p.view r)) ∧ h.capturedArgs (p.view r) = .ok p.captured := by
  obtain ⟨rs, _, L, hks⟩ := F.blocks
  obtain ⟨r, hr, hat⟩ := forall₂_exists_right hks hv
  refine ⟨r, closure?_of_closureAt (c := p.view r) F.bounded L hat.ref hr hat.closureAt, ?_⟩
  rw [capturedArgs_of_closureAt (c := p.view r) F.bounded L hr hat.closureAt]
  exact congrArg Except.ok hat.block.traced

/-- A new closure joins the others. -/
theorem place (F : h.Furnished s room ks) (p : PartialApplication w)
    (hroom : h.hp + p.words ≤ h.limit) :
    (h.place (p.lead ++ p.captured)).Furnished s room (((Ref.mk h.hp false).word, p) :: ks) := by
  obtain ⟨rs, hnodup, L, hks⟩ := F.blocks
  have hlength : (p.lead ++ p.captured).length = p.words := by
    rw [List.length_append, p.length_captured]
    rfl
  have hfits : h.Fits ⟨(Ref.mk h.hp false).word, p.lead ++ p.captured⟩ := by
    rw [← hlength] at hroom
    exact .inr hroom
  have htidy : (h.place (p.lead ++ p.captured)).Tidy room
      (Closed.total (((Ref.mk h.hp false).word, p) :: ks)) := by
    have hplaced := F.tidy.place (p.lead ++ p.captured)
    rwa [hlength, Nat.add_comm] at hplaced
  exact ⟨F.bounded.place hfits, F.settings, htidy, ⟨h.hp, false⟩ :: rs,
    List.nodup_cons.mpr ⟨hp_notMem L, hnodup⟩, layout_place L p.block (p.into_captured _),
    .cons ⟨F.bounded.ref?_hp false, blockAt_place p.block⟩
      (closed_keeps hks fun r hr => Space.keeps_write _ (L.within r hr))⟩

/-- A closure can be extended in words that are granted, by as many arguments as it takes. -/
theorem extend (F : h.Furnished s room ks) (hv : (v, p) ∈ ks) (xs : List Int)
    (hle : p.held.length + xs.length ≤ p.function.arity)
    (hroom : h.hp + (p.give xs hle).words ≤ h.limit) :
    ∃ r, h.closure? v = .ok (some (p.view r)) ∧
      h.planExtend (p.view r) (xs.map .wrapInt) =
        .ok ⟨(Ref.mk h.hp false).word, (p.give xs hle).lead ++ (p.give xs hle).captured⟩ := by
  obtain ⟨rs, _, L, hks⟩ := F.blocks
  obtain ⟨r, hr, hat⟩ := forall₂_exists_right hks hv
  refine ⟨r, closure?_of_closureAt (c := p.view r) F.bounded L hat.ref hr hat.closureAt, ?_⟩
  have hfields : (p.view r).captured + (xs.map (Word.wrapInt (w := w))).length =
      (p.give xs hle).held.length := by
    rw [p.captured_view, List.length_map]
    exact (List.length_append).symm
  obtain ⟨plan, hplan⟩ : ∃ plan, h.planExtend (p.view r) (xs.map .wrapInt) = .ok plan :=
    extend_of_room F.bounded L hr hat.closureAt (hfields ▸ (p.give xs hle).fields_le)
      (hfields ▸ hroom)
  obtain ⟨header, hheader, _, rfl⟩ := planExtend_eq_ok (c := p.view r) hat.closureAt hplan
  have huid : (p.view r).header.uid = p.function.uid := Header.uid_pack p.uid_le p.fields_le
  rw [hfields, huid] at hheader
  obtain ⟨_, _, rfl⟩ := Header.checked_eq_ok hheader
  have hentry : h.space.cell (r.offset + 1) = .ofNat p.function.label.index :=
    hat.block.cell (i := 1) rfl
  have harity : h.space.cell (r.offset + 2) = .ofNat p.function.arity := hat.block.cell (i := 2) rfl
  rw [hplan]
  change Except.ok (Plan.mk _ ([_, h.space.cell (r.offset + 1), h.space.cell (r.offset + 2)] ++
    (h.space.traced r ++ _))) = _
  rw [hentry, harity, hat.block.traced, PartialApplication.captured, ← List.map_append]
  rfl

end Furnished

end Heap

/-- The references of the pose are those to the closures. -/
def Pose.Refers (q : Pose w) (ks : Heap.Closed w) : Prop :=
  ∀ u r, u.ref? = some r → (u ∈ q.result :: q.slots ↔ u ∈ ks.map Prod.fst)

namespace Machine

variable {m : Machine w} {q q' : Pose w} {v u a b : Word w} {c d : ClosureView w}
  {xs ys vs us args : List (Word w)} {k l : Label} {e : Fault w RuntimeError}

/-! ### Applications -/

theorem takes_enter (hk : Word.codeAddress k.id = .ok a)
    (hlink : Word.size q.beneath.length = .ok b) (hxs : q.heap.capturedArgs c = .ok xs)
    (hroom : q.slots.length + (2 + c.arity) ≤ m.maxStackWords) (args : List (Word w)) :
    m.Takes (enter c args k) q c.entry (q.opened a b (xs ++ args)) := by
  refine .of_eq fun j => ?_
  have hframe := pushFrame_of_room (m := m.posed q j) hk hlink hroom
  have hall : allArgs c args ((m.posed q j).opened a b []) =
      .ok (xs ++ args) ((m.posed q j).opened a b []) := liftM_bind_of_ok hxs
  rw [← posed_opened]
  exact (bind_of_ok hframe).trans (bind_of_ok hall)

/-- With the right number of arguments the closure is entered. -/
theorem takes_apply_of_eq (hc : q.heap.closure? v = .ok (some c))
    (heq : c.captured + xs.length = c.arity) (henter : m.Takes (enter c xs k) q l q') :
    m.Takes (apply v xs k) q l q' := by
  intro j
  rw [apply_of_saturated (m := m.posed q j) hc heq]
  exact henter j

theorem posed_suspended (j : Journal w) :
    (m.posed q j).suspended a ys b = m.posed (q.refill (q.locals ++ a :: (ys ++ [b]))) j := by
  refine posed_eq rfl ?_ ?_ rfl rfl rfl rfl rfl rfl
  · rw [slots_suspended, slots_posed]
    simp [Pose.refill, Pose.slots]
  · have hpush : ((m.posed q j).suspended a ys b).stack =
        (m.posed q j).stack.pushList (a :: (ys ++ [b])) := by
      simp [suspended, Stack.pushList]
    rw [hpush, Stack.highWater_pushList_cons, depth_eq, slots_posed]
    simp [posed, Pose.refill, Pose.slots, Nat.add_assoc]

/-- With more arguments the closure is entered over a pending block. -/
theorem takes_apply_of_gt (hc : q.heap.closure? v = .ok (some c))
    (heq : c.captured + xs.length = c.arity) (hys : ys ≠ [])
    (hk : Word.codeAddress k.id = .ok a) (hcount : Word.size ys.length = .ok b)
    (hroom : q.slots.length + (ys.length + 2) ≤ m.maxStackWords)
    (henter : m.Takes (enter c xs .applyPending) (q.refill (q.locals ++ a :: (ys ++ [b]))) l q') :
    m.Takes (apply v (xs ++ ys) k) q l q' := by
  intro j
  obtain ⟨j', hj'⟩ := henter j
  have happly : apply v (xs ++ ys) k (m.posed q j) = overApply c (xs ++ ys) k (m.posed q j) := by
    have hgt : compare (c.captured + (xs ++ ys).length) c.arity = .gt := by
      have hpos := List.length_pos_iff.mpr hys
      rw [compare_gt_iff_gt, List.length_append]
      omega
    unfold apply
    rw [bind_of_ok (closureView_of_some hc), hgt]
  have hneed : Size.sub (w := w) c.arity c.captured = .ok xs.length := by
    rw [← heq, Nat.add_comm]
    exact Size.add_sub _ _
  refine ⟨j', happly.trans ?_⟩
  unfold overApply
  rw [liftM_bind_of_ok hneed, List.drop_left, List.take_left]
  refine (bind_of_ok (checkStack_of_le hroom)).trans ?_
  rw [liftM_bind_of_ok hk]
  change (liftM (Word.size (w := w) ys.length) >>= _ : Op w Label) _ = _
  rw [liftM_bind_of_ok hcount]
  change enter c xs .applyPending ((m.posed q j).suspended a ys b) = _
  rw [posed_suspended]
  exact hj'

/-- A pending block is taken off, and the result is applied to its arguments. -/
theorem takes_applyPending (hk : Word.codeAddress k.id = .ok a)
    (hcount : Word.size args.length = .ok b) (hsmall : (args.length : Int) ≤ w.maxInt)
    (hlocals : q.locals = vs ++ a :: (args ++ [b]))
    (happly : m.Takes (apply q.result args k) { q with locals := vs } l q') :
    m.Takes applyPending q l q' := by
  intro j
  have hslots : (m.posed q j).slots = (q.beneath ++ vs) ++ a :: (args ++ [b]) := by
    rw [slots_posed, Pose.slots, hlocals, List.append_assoc]
  have hdropped : (m.posed q j).dropped (q.beneath ++ vs).length =
      m.posed { q with locals := vs } j := by
    refine posed_eq rfl ?_ rfl rfl rfl rfl rfl rfl rfl
    rw [slots_dropped, hslots, List.take_left]
    rfl
  rw [applyPending_of_pending (Word.toCodeAddress_codeAddress hk)
    (Word.toSmallInt_size hsmall hcount) hslots, hdropped]
  exact happly j

theorem leads_applyPending {p : Program (Code w)} (h : m.Takes applyPending q.tick l q')
    (hcount : q'.steps = q.steps + 1) : Leads m p .applyPending q l q' := by
  refine leads_of_step (by decide) ?_ hcount
  rw [step_applyPending]
  exact h

/-- The closure and the arguments are put on the stack, where a checkpoint finds them. -/
theorem extendSaving_posed (hc : q.heap.closure? v = .ok (some c)) (hargs : args ≠ [])
    (hroom : q.slots.length + (1 + args.length) ≤ m.maxStackWords) (j : Journal w) :
    extendSaving v args (m.posed q j) =
      (prealloc (Shape.closure (c.captured + args.length)).words >>= fun _ => do
        let m' ← get
        let moved ← m'.stack.get q.slots.length
        let extended ← extendClosure moved (m'.stack.above (q.slots.length + 1))
        truncate q.slots.length
        return extended : Op w (Word w)) (m.posed (q.refill (q.locals ++ v :: args)) j) := by
  have hpush : { m.posed q j with stack := (m.posed q j).stack.pushList (v :: args) } =
      m.posed (q.refill (q.locals ++ v :: args)) j := by
    refine posed_eq rfl ?_ ?_ rfl rfl rfl rfl rfl rfl
    · change ((m.posed q j).stack.pushList (v :: args)).slots.toList = _
      rw [Stack.slots_pushList]
      simp [posed, Pose.refill, Pose.slots]
    · change ((m.posed q j).stack.pushList (v :: args)).highWater = _
      rw [Stack.highWater_pushList_cons, depth_eq, slots_posed]
      simp [posed, Pose.refill, Pose.slots, Nat.add_assoc]
  have hempty : ¬ args.isEmpty := by simpa using hargs
  unfold extendSaving
  rw [if_neg hempty, bind_of_ok (closureView_of_some hc), ← hpush]
  exact bind_of_ok (checkStack_of_le hroom)

/-- After the checkpoint the closure is extended where it has been moved to. -/
theorem takes_extendSaving {plan : Plan w} (hc : q.heap.closure? v = .ok (some c))
    (hargs : args ≠ []) (hroom : q.slots.length + (1 + args.length) ≤ m.maxStackWords)
    (hready : m.Takes (prealloc (Shape.closure (c.captured + args.length)).words)
      (q.refill (q.locals ++ v :: args)) () q')
    (hlocals : q'.locals = vs ++ u :: us) (hbase : (q'.beneath ++ vs).length = q.slots.length)
    (hd : q'.heap.closure? u = .ok (some d)) (hplan : q'.heap.planExtend d us = .ok plan) :
    m.Takes (extendSaving v args) q plan.value
      { q' with heap := q'.heap.place plan.contents, locals := vs } := by
  intro j
  obtain ⟨j', hj'⟩ := hready j
  have hslots : (m.posed q' j').slots = (q'.beneath ++ vs) ++ u :: us := by
    rw [slots_posed, Pose.slots, hlocals, List.append_assoc]
  refine ⟨j', (extendSaving_posed hc hargs hroom j).trans <| (bind_of_ok hj').trans <|
    (extend_ridden hslots hbase.symm hd hplan).trans ?_⟩
  refine congrArg (EStateM.Result.ok plan.value) (posed_eq rfl ?_ rfl rfl rfl rfl rfl rfl rfl)
  rw [slots_dropped, ← hbase]
  change ((m.posed q' j').slots).take _ = _
  rw [hslots, List.take_left]
  rfl

/-- With too few arguments a closure that holds them is delivered. -/
theorem takes_apply_of_lt (hc : q.heap.closure? v = .ok (some c))
    (hlt : c.captured + args.length < c.arity) (hextend : m.Takes (extendSaving v args) q u q') :
    m.Takes (apply v args k) q k { q' with result := u } := by
  intro j
  obtain ⟨j', hj'⟩ := hextend j
  unfold apply
  rw [bind_of_ok (closureView_of_some hc), compare_lt_iff_lt.mpr hlt]
  exact ⟨j', bind_of_ok hj'⟩

/-- The checkpoint may fail. -/
theorem stops_apply_of_lt (hc : q.heap.closure? v = .ok (some c))
    (hlt : c.captured + args.length < c.arity) (hargs : args ≠ [])
    (hroom : q.slots.length + (1 + args.length) ≤ m.maxStackWords)
    (hready : m.Stops (prealloc (Shape.closure (c.captured + args.length)).words)
      (q.refill (q.locals ++ v :: args)) e) :
    m.Stops (apply v args k) q e := by
  intro j
  obtain ⟨n, hn⟩ := hready j
  have hextend := (extendSaving_posed hc hargs hroom j).trans (bind_of_error hn)
  unfold apply
  rw [bind_of_ok (closureView_of_some hc), compare_lt_iff_lt.mpr hlt]
  exact ⟨n, bind_of_error hextend⟩

/-! ### Closures that are kept -/

section

variable {s : HeapSettings} {room : Nat} {ks : Heap.Closed w} {p : PartialApplication w}
  {z : List Int}

/-- How a checkpoint ends, where all references are to closures that are known. -/
theorem checkpoint_closed (F : q.heap.Furnished s room ks) (hrefers : q.Refers ks) (words : Nat) :
    (s.MayOvergrow w room (ks.total + words) ∧ m.Stops (prealloc words) q (.trap .bounds)) ∨
      (s.maxWords < ks.total + words ∧
        m.Stops (prealloc words) q (.error (.outOfMemory ⟨words, ks.total, s.maxWords⟩))) ∨
      (ks.total + words ≤ s.maxWords ∧ ∃ h ρ, m.Takes (prealloc words) q () (q.moved ρ h) ∧
        h.Furnished s room (ks.move ρ) ∧ h.limit = h.hp + words) := by
  obtain ⟨rs, hnodup, L, hks⟩ := F.blocks
  have htotal := Heap.total_closed hks
  have hcases := prealloc_cases (m := m) (Heap.holdings_closed hnodup L hks hrefers) F.bounded
    (htotal.symm ▸ F.tidy) words
  rw [F.settings, htotal] at hcases
  refine hcases.imp id (.imp id ?_)
  rintro ⟨hfits, h, ρ, htakes, S⟩
  have htidy : h.Tidy room ks.total := htotal ▸ S.tidy (htotal.symm ▸ F.tidy)
  exact ⟨hfits, h, ρ, htakes, ⟨S.bounded, S.settings.trans F.settings, ks.total_move ρ ▸ htidy, _,
    S.holdings.nodup, S.holdings.layout, Heap.closed_moved S hks fun _ hr => hr⟩, S.limit⟩

/-- A closure is made in words that are granted. -/
theorem takes_makeClosure (F : q.heap.Furnished s room ks) (p : PartialApplication w)
    (hroom : q.heap.hp + p.words ≤ q.heap.limit) :
    ∃ h v, h.Furnished s room ((v, p) :: ks) ∧ h.limit = q.heap.limit ∧
      h.hp = q.heap.hp + p.words ∧
      m.Takes (makeClosure p.function p.captured) q v { q with heap := h } := by
  have hlen : p.captured.length ≤ p.function.arity := p.length_captured ▸ p.held_le
  have hplan : q.heap.planClosure p.function p.captured =
      .ok ⟨(Ref.mk q.heap.hp false).word, p.lead ++ p.captured⟩ := by
    rw [Heap.makeClosure_of_room F.bounded p.uid_le p.arity_le hlen
      (p.length_captured.symm ▸ hroom), p.length_captured]
    rfl
  refine ⟨_, _, F.place p hroom, rfl, ?_,
    takes_allocate (Alloc.follows_makeClosure p.function p.captured) hplan⟩
  change q.heap.hp + (p.lead ++ p.captured).length = _
  rw [List.length_append, p.length_captured]
  rfl

/-- A closure that rides on the stack with integers adds no references. -/
theorem refers_ride (hrefers : q.Refers ks) (hv : (v, p) ∈ ks) :
    (q.refill (q.locals ++ v :: z.map .wrapInt)).Refers ks := by
  intro u r hu
  have hint : u ∉ z.map .wrapInt := by
    intro hmem
    obtain ⟨x, _, hx⟩ := List.mem_map.mp hmem
    exact Word.ne_wrapInt hu x hx.symm
  have hslots : (q.refill (q.locals ++ v :: z.map .wrapInt)).slots =
      q.slots ++ v :: z.map .wrapInt := by
    simp [Pose.refill, Pose.slots]
  have hmem : v ∈ ks.map Prod.fst := List.mem_map_of_mem hv
  rw [hslots, ← hrefers u r hu]
  change u ∈ q.result :: (q.slots ++ v :: z.map .wrapInt) ↔ _
  simp only [List.mem_cons, List.mem_append, hint, or_false]
  constructor
  · rintro (h | h | rfl)
    · exact .inl h
    · exact .inr h
    · exact List.mem_cons.mp ((hrefers u r hu).mpr hmem)
  · rintro (h | h)
    · exact .inl h
    · exact .inr (.inl h)

/-- An application to too few integers needs words for the closure that it delivers. -/
theorem apply_closed_cases (F : q.heap.Furnished s room ks) (hrefers : q.Refers ks)
    (hv : (v, p) ∈ ks) (hz : z ≠ []) (hlt : p.held.length + z.length < p.function.arity)
    (hroom : q.slots.length + (1 + z.length) ≤ m.maxStackWords) (k : Label) :
    (s.MayOvergrow w room (ks.total + (p.give z hlt.le).words) ∧
        m.Stops (apply v (z.map .wrapInt) k) q (.trap .bounds)) ∨
      (s.maxWords < ks.total + (p.give z hlt.le).words ∧ m.Stops (apply v (z.map .wrapInt) k) q
        (.error (.outOfMemory ⟨(p.give z hlt.le).words, ks.total, s.maxWords⟩))) ∨
      (ks.total + (p.give z hlt.le).words ≤ s.maxWords ∧
        ∃ h ρ u, h.Furnished s room ((u, p.give z hlt.le) :: ks.move ρ) ∧
          m.Takes (apply v (z.map .wrapInt) k) q k
            { q.moved ρ h with
              result := u, mark := max q.mark (q.slots.length + (1 + z.length)) }) := by
  obtain ⟨r, hc, _⟩ := F.closure hv
  have hwords :
      (Shape.closure ((p.view r).captured + (z.map (Word.wrapInt (w := w))).length)).words =
        (p.give z hlt.le).words := by
    rw [p.captured_view, List.length_map]
    change 3 + (p.held.length + z.length) = 3 + (p.held ++ z).length
    rw [List.length_append]
  have hfew : (p.view r).captured + (z.map (Word.wrapInt (w := w))).length < (p.view r).arity := by
    rw [p.captured_view, List.length_map]
    exact hlt
  have hnonempty : z.map (Word.wrapInt (w := w)) ≠ [] := by simpa using hz
  have hfit : q.slots.length + (1 + (z.map (Word.wrapInt (w := w))).length) ≤ m.maxStackWords := by
    rwa [List.length_map]
  refine (checkpoint_closed (m := m) (q := q.refill (q.locals ++ v :: z.map .wrapInt)) F
    (refers_ride hrefers hv) (p.give z hlt.le).words).imp ?_ (.imp ?_ ?_)
  · rintro ⟨hlarge, hstop⟩
    exact ⟨hlarge, stops_apply_of_lt hc hfew hnonempty hfit (hwords.symm ▸ hstop)⟩
  · rintro ⟨hfull, hstop⟩
    exact ⟨hfull, stops_apply_of_lt hc hfew hnonempty hfit (hwords.symm ▸ hstop)⟩
  · rintro ⟨hfits, h, ρ, hready, F', hlimit⟩
    have hmoved : (v.move ρ, p) ∈ ks.move ρ := List.mem_map_of_mem hv
    obtain ⟨r', hc', hplan⟩ := F'.extend hmoved z hlt.le hlimit.ge
    have hlocals : ((q.refill (q.locals ++ v :: z.map .wrapInt)).moved ρ h).locals =
        q.locals.map (Word.move ρ) ++ v.move ρ :: z.map .wrapInt := by
      change (q.locals ++ v :: z.map .wrapInt).map (Word.move ρ) = _
      rw [List.map_append, List.map_cons, PartialApplication.map_move_wrapInt]
    have hbase : (q.beneath.map (Word.move ρ) ++ q.locals.map (Word.move ρ)).length =
        q.slots.length := by
      rw [← List.map_append, List.length_map]
      rfl
    have hmark : max q.mark (q.slots.length + (1 + z.length)) =
        (q.refill (q.locals ++ v :: z.map .wrapInt)).mark := by
      simp only [Pose.refill, Pose.slots, List.length_append, List.length_cons, List.length_map]
      omega
    rw [hmark]
    exact ⟨hfits, _, ρ, _, F'.place _ hlimit.ge, takes_apply_of_lt hc hfew
      (takes_extendSaving hc hnonempty hfit (hwords.symm ▸ hready) hlocals hbase hc' hplan)⟩

end

end Machine

end Trampoline
