import Trampoline.Proofs.Simulation

/-!
Calls, returns and applications on twin machines.

A frame is left through two small integers, and a pending block is found through one, so twins
leave the same frame for the same label. Closures of twins have the same entry and arity, and the
arguments they hold are related.
-/

namespace Trampoline.Machine.Twins

variable {w : Width} {S : Scene w} {f : Nat} {W : Pairing} {m n : Machine w} {v u : Word w}
  {vs us : List (Word w)}

def Arrives (S : Scene w) (a b : Label) (m n : Machine w) : Prop :=
  a = b ∧ ∃ f W, Twins S f W m n

/-! ### Frames -/

/-- Frames opened on twins are the same up to the words of the blocks. -/
theorem pushFrame (M : Twins S f W m n) (ret : Label) (arity : Nat) :
    Alike S (fun _ _ m' n' => Twins S (m.slots.length + 2) W m' n' ∧ m'.heap = m.heap)
      (Machine.pushFrame ret arity m) (Machine.pushFrame ret arity n) := by
  unfold Machine.pushFrame
  refine Agree.bind (M.checkStack _) ?_
  rintro _ _ _ _ ⟨rfl, rfl⟩
  refine Agree.get (Agree.bind_except fun a b ha hb => ?_)
  rw [ha] at hb
  cases hb
  refine Agree.bind_except fun l k hl hk => ?_
  rw [M.fp] at hl
  rw [M.fp', hl] at hk
  cases hk
  refine Agree.bind (M.push (.refl_of_none (Word.ref?_codeAddress ha))) ?_
  rintro _ _ m₁ n₁ ⟨M₁, hheap₁, hslots₁⟩
  refine Agree.bind (M₁.push (.refl_of_none (Word.ref?_size hl))) ?_
  rintro _ _ m₂ n₂ ⟨M₂, hheap₂, hslots₂⟩
  have hdepth : m₂.stack.depth = m₂.slots.length := m₂.depth_eq
  rw [hslots₂, hslots₁, List.length_append, List.length_append] at hdepth
  refine ⟨?_, hheap₂.trans hheap₁⟩
  change Twins S _ W { m₂ with fp := m₂.stack.depth } { n₂ with fp := n₂.stack.depth }
  rw [← M₂.depth, hdepth]
  exact M₂.setFp _

/-- What is read from one slot of twins is related. -/
theorem get_matched (M : Twins S f W m n) {i : Nat} (hv : m.stack.get i = .ok v)
    (hu : n.stack.get i = .ok u) : Word.Matched W.Links v u := by
  have hm := Stack.get_eq_ok _ hv
  have hn := Stack.get_eq_ok _ hu
  obtain ⟨hx, _⟩ | ⟨x, y, hx, hy, hxy⟩ := forall₂_getElem? M.slots i
  · rw [Machine.slots, hm] at hx
    cases hx
  · rw [Machine.slots, hm] at hx
    rw [Machine.slots, hn] at hy
    cases hx
    cases hy
    exact hxy

/-- Words at one place of two stacks that are read as numbers are equal. -/
theorem get_eq {α : Type} {decode : Word w → Except (Trap w) α}
    (hdecode : ∀ {x : Word w} {a}, decode x = .ok a → x.ref? = none) (M : Twins S f W m n) {i : Nat}
    {a b : α} (hv : m.stack.get i = .ok v) (ha : decode v = .ok a) (hu : n.stack.get i = .ok u)
    (hb : decode u = .ok b) : a = b := by
  rw [(M.get_matched hv hu).eq_of_none (hdecode ha), ha] at hb
  exact Except.ok.inj hb

/-- Twins leave their frames to the same continuation. -/
theorem leaveFrame (M : Twins S f W m n) (hkept : S.kept ≤ f - 2) :
    Alike S (fun a b m' n' => a = b ∧ m'.heap = m.heap ∧ ∃ g, Twins S g W m' n')
      (Machine.leaveFrame m) (Machine.leaveFrame n) := by
  unfold Machine.leaveFrame
  refine Agree.get (Agree.bind_except fun base base' hbase hbase' => ?_)
  rw [M.fp] at hbase
  rw [M.fp', hbase] at hbase'
  cases hbase'
  have hle : S.kept ≤ base := by
    rw [(Size.sub_eq_ok hbase).2]
    exact hkept
  refine Agree.bind_except fun k k' hk hk' => Agree.bind_except fun id id' hid hid' => ?_
  cases M.get_eq Word.ref?_of_toCodeAddress hk hid hk' hid'
  refine Agree.bind_except fun l l' hl hl' => Agree.bind_except fun link link' hlink hlink' => ?_
  cases M.get_eq Word.ref?_of_toSmallInt hl hlink hl' hlink'
  refine Agree.bind (M.truncate hle) ?_
  rintro _ _ m₁ n₁ ⟨M₁, hheap, _⟩
  exact ⟨rfl, hheap, _, M₁.setFp _⟩

theorem call (M : Twins S f W m n) (callee k : Label)
    (hvs : List.Forall₂ (Word.Matched W.Links) vs us) :
    Alike S (Arrives S) (Machine.call callee vs k m) (Machine.call callee us k n) := by
  unfold Machine.call
  rw [← hvs.length_eq]
  refine Agree.bind (M.pushFrame k vs.length) ?_
  rintro _ _ m₁ n₁ ⟨M₁, _⟩
  refine Agree.bind (M₁.pushList hvs) ?_
  rintro _ _ m₂ n₂ ⟨M₂, _⟩
  exact ⟨rfl, _, W, M₂⟩

/-- New arguments in a frame, provided that they can be had with the old ones gone. -/
theorem replaceFrame (M : Twins S f W m n) (hkept : S.kept ≤ f) {args args' : Op w (List (Word w))}
    (arity : Nat)
    (hargs : ∀ m₁ n₁, Twins S f W m₁ n₁ → m₁.heap = m.heap →
      Alike S (fun xs ys m' n' => Twins S f W m' n' ∧ List.Forall₂ (Word.Matched W.Links) xs ys)
        (args m₁) (args' n₁)) :
    Alike S (fun _ _ m' n' => Twins S f W m' n') (Machine.replaceFrame args arity m)
      (Machine.replaceFrame args' arity n) := by
  unfold Machine.replaceFrame
  refine Agree.get ?_
  rw [M.fp, M.fp']
  refine Agree.bind (M.truncate hkept) ?_
  rintro _ _ m₁ n₁ ⟨M₁, hheap, _⟩
  refine Agree.bind (M₁.checkStack arity) ?_
  rintro _ _ _ _ ⟨rfl, rfl⟩
  refine Agree.bind (hargs _ _ M₁ hheap) ?_
  rintro xs ys m₂ n₂ ⟨M₂, hxs⟩
  exact (M₂.pushList hxs).mono fun _ _ _ _ h => h.1

theorem tailCall (M : Twins S f W m n) (hkept : S.kept ≤ f) (callee : Label)
    (hvs : List.Forall₂ (Word.Matched W.Links) vs us) :
    Alike S (Arrives S) (Machine.tailCall callee vs m) (Machine.tailCall callee us n) := by
  unfold Machine.tailCall
  rw [← hvs.length_eq]
  refine Agree.bind (M.replaceFrame hkept vs.length fun m₁ n₁ M₁ _ => ?_) ?_
  · exact ⟨M₁, hvs⟩
  · intro _ _ m₁ n₁ M₁
    exact ⟨rfl, f, W, M₁⟩

theorem ret (M : Twins S f W m n) (hkept : S.kept ≤ f - 2) (hvu : Word.Matched W.Links v u) :
    Alike S (Arrives S) (Machine.ret v m) (Machine.ret u n) := by
  refine ((M.setResult hvu).leaveFrame hkept).mono ?_
  rintro a b m₁ n₁ ⟨hab, _, g, M₁⟩
  exact ⟨hab, g, W, M₁⟩

/-! ### Closures -/

variable {c d : ClosureView w}

theorem allArgs (M : Twins S f W m n) (hcd : Views W m.heap c d)
    (hvs : List.Forall₂ (Word.Matched W.Links) vs us) :
    Alike S (fun xs ys m' n' => Twins S f W m' n' ∧ List.Forall₂ (Word.Matched W.Links) xs ys)
      (Machine.allArgs c vs m) (Machine.allArgs d us n) := by
  refine Agree.get (Agree.bind_except fun xs ys hxs hys => ?_)
  rw [hcd.same] at hys
  exact ⟨M, List.rel_append (M.heap.capturedArgs hcd.shown hcd.links hxs hys) hvs⟩

theorem Views.arity (hcd : Views W m.heap c d) : d.arity = c.arity := by rw [hcd.same]

theorem Views.captured (hcd : Views W m.heap c d) : d.captured = c.captured := by
  rw [hcd.same]
  rfl

theorem Views.entry (hcd : Views W m.heap c d) : d.entry = c.entry := by rw [hcd.same]

/-- A saturated call takes twins to the entry of the one function. -/
theorem enter (M : Twins S f W m n) (hcd : Views W m.heap c d) (k : Label)
    (hvs : List.Forall₂ (Word.Matched W.Links) vs us) :
    Alike S (Arrives S) (Machine.enter c vs k m) (Machine.enter d us k n) := by
  unfold Machine.enter
  rw [hcd.arity, hcd.entry]
  refine Agree.bind (M.pushFrame k c.arity) ?_
  rintro _ _ m₁ n₁ ⟨M₁, hheap⟩
  refine Agree.bind (M₁.allArgs (hheap ▸ hcd) hvs) ?_
  rintro xs ys m₂ n₂ ⟨M₂, hxs⟩
  refine Agree.bind (M₂.pushList hxs) ?_
  rintro _ _ m₃ n₃ ⟨M₃, _⟩
  exact ⟨rfl, _, W, M₃⟩

theorem tailEnter (M : Twins S f W m n) (hkept : S.kept ≤ f) (hcd : Views W m.heap c d)
    (hvs : List.Forall₂ (Word.Matched W.Links) vs us) :
    Alike S (Arrives S) (Machine.tailEnter c vs m) (Machine.tailEnter d us n) := by
  unfold Machine.tailEnter
  rw [hcd.arity, hcd.entry]
  refine Agree.bind (M.replaceFrame hkept c.arity fun m₁ n₁ M₁ hheap => ?_) ?_
  · exact M₁.allArgs (hheap ▸ hcd) hvs
  · intro _ _ m₁ n₁ M₁
    exact ⟨rfl, f, W, M₁⟩

/-- A call that has to be saturated. -/
theorem saturated {x y : ClosureView w → Op w Label} (M : Twins S f W m n)
    (hvu : Word.Matched W.Links v u) (count : Nat)
    (hxy : ∀ c d, Views W m.heap c d → Alike S (Arrives S) (x c m) (y d n)) :
    Alike S (Arrives S)
      ((do
        let c ← Machine.closureView v
        if c.captured + count ≠ c.arity then fail (.assertionFailed .saturatedCall)
        x c) m)
      ((do
        let c ← Machine.closureView u
        if c.captured + count ≠ c.arity then fail (.assertionFailed .saturatedCall)
        y c) n) := by
  refine Agree.bind (M.closureView hvu) ?_
  rintro c d _ _ ⟨rfl, rfl, hcd⟩
  rw [hcd.arity, hcd.captured]
  split
  · exact ⟨rfl, M.outward⟩
  · exact hxy c d hcd

theorem callClosure (M : Twins S f W m n) (hvu : Word.Matched W.Links v u)
    (hvs : List.Forall₂ (Word.Matched W.Links) vs us) (k : Label) :
    Alike S (Arrives S) (Machine.callClosure v vs k m) (Machine.callClosure u us k n) := by
  unfold Machine.callClosure
  rw [← hvs.length_eq]
  exact M.saturated hvu vs.length fun c d hcd => M.enter hcd k hvs

theorem tailCallClosure (M : Twins S f W m n) (hkept : S.kept ≤ f)
    (hvu : Word.Matched W.Links v u) (hvs : List.Forall₂ (Word.Matched W.Links) vs us) :
    Alike S (Arrives S) (Machine.tailCallClosure v vs m) (Machine.tailCallClosure u us n) := by
  unfold Machine.tailCallClosure
  rw [← hvs.length_eq]
  exact M.saturated hvu vs.length fun c d hcd => M.tailEnter hkept hcd hvs

/-! ### Application -/

/-- An extended closure is made at a checkpoint of its own, so everything may move. -/
theorem extendSaving (M : Twins S f W m n) (hvu : Word.Matched W.Links v u)
    (hvs : List.Forall₂ (Word.Matched W.Links) vs us) :
    Alike S (fun a b m' n' => m'.slots.length = m.slots.length ∧
        ∃ V, Twins S f V m' n' ∧ Word.Matched V.Links a b)
      (Machine.extendSaving v vs m) (Machine.extendSaving u us n) := by
  unfold Machine.extendSaving
  have hempty : us.isEmpty = vs.isEmpty := by cases hvs <;> rfl
  rw [hempty]
  split
  · exact ⟨rfl, W, M, hvu⟩
  refine Agree.bind (M.closureView hvu) ?_
  rintro c d _ _ ⟨rfl, rfl, hcd⟩
  refine Agree.get ?_
  rw [← M.depth, ← hvs.length_eq, hcd.captured]
  refine Agree.bind (M.checkStack _) ?_
  rintro _ _ _ _ ⟨rfl, rfl⟩
  refine Agree.bind (M.pushList (.cons hvu hvs)) ?_
  rintro _ _ m₁ n₁ ⟨M₁, _⟩
  refine Agree.bind (M₁.prealloc _) ?_
  rintro _ _ m₂ n₂ ⟨_, V, M₂⟩
  refine Agree.get (Agree.bind_except fun x y hx hy => ?_)
  rw [Stack.above_eq, Stack.above_eq]
  refine Agree.bind (M₂.extendClosure (M₂.get_matched hx hy) (List.forall₂_drop _ M₂.slots)) ?_
  rintro a b m₃ n₃ ⟨V', _, M₃, hab⟩
  refine Agree.bind (M₃.truncate M.kept_le) ?_
  rintro _ _ m₄ n₄ ⟨M₄, _, hlen⟩
  exact ⟨hlen.trans (depth_eq _), V', M₄, hab⟩

/-- The arguments that are left over lie in one pending block on both sides. -/
theorem overApply (M : Twins S f W m n) (hcd : Views W m.heap c d) (k : Label)
    (hvs : List.Forall₂ (Word.Matched W.Links) vs us) :
    Alike S (Arrives S) (Machine.overApply c vs k m) (Machine.overApply d us k n) := by
  unfold Machine.overApply
  rw [hcd.arity, hcd.captured]
  refine Agree.bind_except fun need need' hneed hneed' => ?_
  rw [hneed] at hneed'
  cases hneed'
  have hrest := List.forall₂_drop need hvs
  simp only [← hrest.length_eq]
  refine Agree.bind (M.checkStack _) ?_
  rintro _ _ _ _ ⟨rfl, rfl⟩
  refine Agree.bind_except fun a a' ha ha' => ?_
  rw [ha] at ha'
  cases ha'
  refine Agree.bind (M.push (.refl_of_none (Word.ref?_codeAddress ha))) ?_
  rintro _ _ m₁ n₁ ⟨M₁, hheap₁, _⟩
  refine Agree.bind (M₁.pushList hrest) ?_
  rintro _ _ m₂ n₂ ⟨M₂, hheap₂⟩
  refine Agree.bind_except fun l l' hl hl' => ?_
  rw [hl] at hl'
  cases hl'
  refine Agree.bind (M₂.push (.refl_of_none (Word.ref?_size hl))) ?_
  rintro _ _ m₃ n₃ ⟨M₃, hheap₃, _⟩
  rw [← hheap₁, ← hheap₂, ← hheap₃] at hcd
  exact M₃.enter hcd .applyPending (List.forall₂_take need hvs)

/-- An application takes twins to the same label, whether there are too few arguments, enough or too
many. -/
theorem apply (M : Twins S f W m n) (hvu : Word.Matched W.Links v u)
    (hvs : List.Forall₂ (Word.Matched W.Links) vs us) (k : Label) :
    Alike S (Arrives S) (Machine.apply v vs k m) (Machine.apply u us k n) := by
  unfold Machine.apply
  refine Agree.bind (M.closureView hvu) ?_
  rintro c d _ _ ⟨rfl, rfl, hcd⟩
  rw [hcd.arity, hcd.captured, ← hvs.length_eq]
  cases compare (c.captured + vs.length) c.arity with
  | eq => exact M.enter hcd k hvs
  | lt =>
    refine Agree.bind (M.extendSaving hvu hvs) ?_
    rintro a b m₁ n₁ ⟨_, V, M₁, hab⟩
    exact ⟨rfl, f, V, M₁.setResult hab⟩
  | gt => exact M.overApply hcd k hvs

/-- So does a tail application, as long as the frame to be left is above the slots to be kept. -/
theorem tailApply (M : Twins S f W m n) (hkept : S.kept ≤ f - 2) (hvu : Word.Matched W.Links v u)
    (hvs : List.Forall₂ (Word.Matched W.Links) vs us) :
    Alike S (Arrives S) (Machine.tailApply v vs m) (Machine.tailApply u us n) := by
  unfold Machine.tailApply
  refine Agree.bind (M.closureView hvu) ?_
  rintro c d _ _ ⟨rfl, rfl, hcd⟩
  rw [hcd.arity, hcd.captured, ← hvs.length_eq]
  cases compare (c.captured + vs.length) c.arity with
  | eq => exact M.tailEnter (by omega) hcd hvs
  | lt =>
    refine Agree.bind (M.extendSaving hvu hvs) ?_
    rintro a b m₁ n₁ ⟨_, V, M₁, hab⟩
    exact M₁.ret hkept hab
  | gt =>
    refine Agree.bind (M.leaveFrame hkept) ?_
    rintro k _ m₁ n₁ ⟨rfl, hheap, g, M₁⟩
    exact M₁.overApply (hheap ▸ hcd) k hvs

/-- The pending block on top of the stack does not reach into the slots to be kept. -/
def PendingAbove (m : Machine w) (kept : Nat) : Prop :=
  ∀ v count, m.stack.get (m.slots.length - 1) = .ok v → v.toSmallInt = .ok count →
    Size.ofInt count + 2 ≤ m.slots.length → kept + Size.ofInt count + 2 ≤ m.slots.length

/-- A pending block is applied alike, as long as it is above the slots to be kept. -/
theorem applyPending (M : Twins S f W m n) (hkept : PendingAbove m S.kept) :
    Alike S (Arrives S) (Machine.applyPending m) (Machine.applyPending n) := by
  unfold Machine.applyPending
  refine Agree.get ?_
  simp only [← M.depth]
  refine Agree.bind_except fun top top' htop htop' => ?_
  rw [htop] at htop'
  cases htop'
  refine Agree.bind_except fun l l' hl hl' => Agree.bind_except fun count count' hc hc' => ?_
  cases M.get_eq Word.ref?_of_toSmallInt hl hc hl' hc'
  refine Agree.bind_except fun b b' hb hb' => ?_
  rw [hb] at hb'
  cases hb'
  refine Agree.bind_except fun base base' hbase hbase' => ?_
  rw [hbase] at hbase'
  cases hbase'
  refine Agree.bind_except fun k k' hk hk' => Agree.bind_except fun id id' hid hid' => ?_
  cases M.get_eq Word.ref?_of_toCodeAddress hk hid hk' hid'
  have hle : S.kept ≤ base := by
    rw [depth_eq] at htop hb
    rw [(Size.sub_eq_ok htop).2] at hl
    obtain ⟨hb, rfl⟩ := Size.sub_eq_ok hb
    obtain ⟨hbase, rfl⟩ := Size.sub_eq_ok hbase
    have hroom := hkept l count hl hc (by omega)
    omega
  refine Agree.bind (M.truncate hle) ?_
  rintro _ _ m₁ n₁ ⟨M₁, _⟩
  rw [Stack.above_eq, Stack.above_eq]
  exact M₁.apply M.result (List.forall₂_take _ (List.forall₂_drop _ M.slots)) ⟨id⟩

end Trampoline.Machine.Twins
