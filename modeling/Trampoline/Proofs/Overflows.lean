import Trampoline.Proofs.Plans

/-!
Where small integers overflow.

A trap for an integer that is too large names the integer. Words are read, blocks are found, moved,
compared and printed without any such trap: an integer overflows only where it is made, from a
literal, a count, a link or the number of a label.
-/

namespace Trampoline

variable {w : Width} {α β : Type} {N : Int → Prop}

/-- A result that is a trap for an overflow only if the integer is one of `N`. -/
def Overflows (N : Int → Prop) (r : Except (Trap w) α) : Prop :=
  ∀ z, r = .error (.intOverflow z) → N z

namespace Overflows

theorem ok (a : α) : Overflows (w := w) N (.ok a) := nofun

theorem error {t : Trap w} (h : ∀ z, t ≠ .intOverflow z) : Overflows (α := α) N (.error t) := by
  rintro z ⟨⟩
  exact absurd rfl (h z)

theorem of_error {r : Except (Trap w) α} (hr : Overflows N r) {t : Trap w} (h : r = .error t) :
    Overflows (α := β) N (.error t) := by
  rintro z ⟨⟩
  exact hr z h

theorem bind {r : Except (Trap w) α} {f : α → Except (Trap w) β} (hr : Overflows N r)
    (hf : ∀ a, Overflows N (f a)) : Overflows N (r >>= f) := by
  cases r with
  | ok a => exact hf a
  | error t => exact hr.of_error rfl

theorem map {r : Except (Trap w) α} (hr : Overflows N r) (f : α → β) : Overflows N (f <$> r) := by
  cases r with
  | ok a => exact .ok _
  | error t => exact hr.of_error rfl

theorem ite {c : Prop} [Decidable c] {r q : Except (Trap w) α} (hr : Overflows N r)
    (hq : Overflows N q) : Overflows N (if c then r else q) := by
  split
  · exact hr
  · exact hq

theorem mapM {γ : Type} {f : γ → Except (Trap w) α} (hf : ∀ a, Overflows N (f a)) (as : List γ) :
    Overflows N (as.mapM f) := by
  induction as with
  | nil => exact .ok []
  | cons a as ih =>
    rw [List.mapM_cons]
    exact .bind (hf a) fun _ => .bind ih fun _ => .ok _

end Overflows

/-! ### Words and sizes -/

theorem Word.overflows_toSmallInt (v : Word w) : Overflows N v.toSmallInt :=
  .ite (.ok _) (.error nofun)

theorem Word.overflows_toCodeAddress (v : Word w) : Overflows N v.toCodeAddress :=
  .bind v.overflows_toSmallInt fun _ => .ok _

theorem Word.overflows_isTrue (v : Word w) : Overflows N v.isTrue :=
  .ite (.ok _) (.ite (.ok _) (.error nofun))

theorem Word.overflows_view (v : Word w) : Overflows N v.view := by
  unfold Word.view
  refine .ite (.ok _) ?_
  split
  · exact .ok _
  · exact .ok _
  · exact .error nofun

theorem Size.overflows_add (a b : Nat) : Overflows (w := w) N (Size.add a b) :=
  .ite (.ok _) (.error nofun)

theorem Size.overflows_sub (a b : Nat) : Overflows (w := w) N (Size.sub a b) :=
  .ite (.ok _) (.error nofun)

theorem Size.overflows_ofWords (n : Nat) : Overflows (w := w) N (Size.ofWords n) :=
  .ite (.ok _) (.error nofun)

theorem Ref.overflows_checked (offset : Nat) (pair : Bool) :
    Overflows (w := w) N (Ref.checked offset pair) :=
  .ite (.ok _) (.error nofun)

theorem Header.overflows_checked (kind : Kind) (uid fields : Nat) :
    Overflows (w := w) N (Header.checked kind uid fields) :=
  .ite (.error nofun) (.ite (.error nofun) (.ok _))

theorem Constructor.overflows_unboxedValue (c : Constructor) :
    Overflows (w := w) N c.unboxedValue := by
  unfold Constructor.unboxedValue
  cases c.representation with
  | boxed => exact .error nofun
  | unboxed => exact .bind (Header.overflows_checked _ _ _) fun _ => .ok _

theorem Registers.overflows_get (r : Registers w) (name : String) : Overflows N (r.get name) := by
  unfold Registers.get
  split
  · exact .ok _
  · exact .error nofun

theorem Stack.overflows_get (s : Stack w) (i : Nat) : Overflows N (s.get i) := by
  unfold Stack.get
  split
  · exact .ok _
  · exact .error nofun

/-! ### Spaces -/

namespace Space

theorem overflows_read (s : Space w) (i : Nat) : Overflows N (s.read i) :=
  .ite (.ok _) (.error nofun)

theorem overflows_slice (s : Space w) (start len : Nat) : Overflows N (s.slice start len) :=
  .ite (.ok _) (.error nofun)

theorem overflows_shape (s : Space w) (r : Ref) : Overflows N (s.shape r) :=
  .ite (.ok _) (.bind (s.overflows_read _) fun _ => .ok _)

theorem overflows_block (s : Space w) (r : Ref) : Overflows N (s.block r) :=
  .bind (s.overflows_shape r) fun _ => s.overflows_slice _ _

theorem overflows_openBlocks (s : Space w) (a b : Word w) : Overflows N (s.openBlocks a b) := by
  unfold openBlocks
  split
  · refine .ite (.ok _) ?_
    split
    · next hb => exact (s.overflows_block _).of_error hb
    · next hb _ => exact (s.overflows_block _).of_error hb
    · next hs _ _ => exact (s.overflows_shape _).of_error hs
    · exact .ite (.ok _) (.ok _)
  · exact .ok _

theorem overflows_compare (s : Space w) (qs : List (Question w)) : Overflows N (s.compare qs) := by
  fun_induction compare s qs with
  | case1 => exact .ok _
  | case2 levels b rest ih => exact ih
  | case3 => exact .ok _
  | case4 a b rest hab levels t hq => exact (s.overflows_openBlocks a b).of_error hq
  | case5 => exact .ok _
  | case6 a b rest hab levels qs hq ih => exact ih

end Space

/-! ### Collections -/

namespace Evacuation

variable {e : Evacuation w}

theorem overflows_copy (r : Ref) (h : r.offset < e.marked.size) : Overflows N (e.copy r h) :=
  .bind (e.source.overflows_shape r) fun _ => .bind (e.source.overflows_slice _ _) fun _ =>
    .ite (.error nofun) (.bind (Ref.overflows_checked _ _) fun _ => .ok _)

/-- Forwarding makes no small integers, so none overflows in it. -/
theorem overflows_forward (v : Word w) : Overflows N (e.forward v) := by
  cases hr : v.ref? with
  | none =>
    simp only [forward, hr]
    exact .ok _
  | some r =>
    simp only [forward, hr]
    split
    · exact .ite (.bind (e.source.overflows_read _) fun _ =>
        .bind (Ref.overflows_checked _ _) fun _ => .ok _) (overflows_copy _ _)
    · exact .error fun z h => by cases h

theorem overflows_forwardList (done vs : List (Word w)) : Overflows N (e.forwardList done vs) := by
  fun_induction forwardList e done vs with
  | case1 => exact .ok _
  | case2 e done v vs t ht => exact (overflows_forward v).of_error ht
  | case3 e done v vs v' e' hv ih => exact ih

theorem overflows_scan (i n : Nat) : Overflows N (e.scan i n) := by
  fun_induction scan e i n with
  | case1 => exact .ok _
  | case2 e i n h t ht => exact (overflows_forward _).of_error ht
  | case3 e i n h v e' hv ih => exact ih
  | case4 => exact .error nofun

theorem overflows_drain : Overflows N e.drain := by
  fun_induction drain e with
  | case1 => exact .ok _
  | case2 e r rest hp t ht => exact (e.targetSpace.overflows_shape r).of_error ht
  | case3 e r rest hp shape hs t ht => exact (overflows_scan _ _).of_error ht
  | case4 e r rest hp shape hs e' he ih => exact ih

theorem overflows_run (s : Space w) (used : Nat) (roots : List (Word w)) :
    Overflows N (run s used roots) :=
  .bind (overflows_forwardList _ _) fun _ => .bind overflows_drain fun _ => .ok _

end Evacuation

/-! ### Heaps -/

namespace Heap

variable (h : Heap w)

theorem overflows_collectFor (words : Nat) (roots : List (Word w)) :
    Overflows N (h.collectFor words roots) :=
  .bind (Evacuation.overflows_run _ _ _) fun ⟨_, _⟩ =>
    .ite (.bind (Size.overflows_ofWords _) fun _ => .ok _) (.ok _)

theorem overflows_reserve (words : Nat) (roots : List (Word w)) :
    Overflows N (h.reserve words roots) :=
  .ite (.error nofun) (.ite (.ok _) (.bind (h.overflows_collectFor _ _) fun _ =>
    .ite (.ok _) (.ok _)))

theorem overflows_room (words : Nat) : Overflows N (h.room words) :=
  .bind (Size.overflows_add _ _) fun _ => .ite (.error nofun) (.ok _)

theorem overflows_span (words : Nat) : Overflows N (h.span words) :=
  .bind (h.overflows_room _) fun _ => .ite (.error nofun) (.ok _)

theorem overflows_header (r : Ref) : Overflows N (h.header r) := by
  refine .ite (.error nofun) (.bind (h.space.overflows_read _) fun v => ?_)
  cases v.header? with
  | some header => exact .ok _
  | none => exact .error nofun

theorem overflows_construct (c : Constructor) (vs : List (Word w)) :
    Overflows N (h.planConstruct c vs) := by
  refine .ite (.error nofun) ?_
  cases c.representation with
  | unboxed => exact .bind c.overflows_unboxedValue fun _ => .ok _
  | boxed =>
    exact .bind (h.overflows_span _) fun _ => .bind (Header.overflows_checked _ _ _) fun _ =>
      .bind (Ref.overflows_checked _ _) fun _ => .ok _

theorem overflows_makePair (v u : Word w) : Overflows N (h.planPair v u) :=
  .bind (h.overflows_span _) fun _ => .bind (Ref.overflows_checked _ _) fun _ => .ok _

theorem overflows_makeClosure (f : Function) (vs : List (Word w)) :
    Overflows N (h.planClosure f vs) :=
  .ite (.error nofun) (.bind (h.overflows_span _) fun _ =>
    .bind (Header.overflows_checked _ _ _) fun _ => .bind (Ref.overflows_checked _ _) fun _ => .ok _)

theorem overflows_planCopy (words : Nat) (source : Ref) (count : Nat) :
    Overflows N (h.planCopy words source count) :=
  .ite (.error nofun) (.bind (h.overflows_room _) fun _ =>
    .bind (h.space.overflows_slice _ _) fun _ => .ite (.error nofun) (.ok _))

theorem overflows_extend (c : ClosureView w) (args : List (Word w)) :
    Overflows N (h.planExtend c args) :=
  .bind (h.overflows_planCopy _ _ _) fun _ => .bind (Header.overflows_checked _ _ _) fun _ =>
    .bind (Ref.overflows_checked _ _) fun _ => .ok _

theorem overflows_headerOf (v : Word w) : Overflows N (h.headerOf v) := by
  unfold headerOf
  split
  · exact .ok _
  · exact .ite (.ok _) ((h.overflows_header _).map _)

theorem overflows_expectRef (v : Word w) : Overflows N (expectRef v) := by
  unfold expectRef
  split
  · exact .ok _
  · exact .error nofun

theorem overflows_field (v : Word w) (i : Nat) : Overflows N (h.field v i) :=
  .bind (overflows_expectRef v) fun _ => .ite (.error nofun)
    (.bind (h.overflows_header _) fun _ => .ite (.error nofun) (h.space.overflows_read _))

theorem overflows_fst (v : Word w) : Overflows N (h.fst v) :=
  .bind (overflows_expectRef v) fun _ => .ite (.error nofun) (h.space.overflows_read _)

theorem overflows_snd (v : Word w) : Overflows N (h.snd v) :=
  .bind (overflows_expectRef v) fun _ => .ite (.error nofun) (h.space.overflows_read _)

theorem overflows_closure? (v : Word w) : Overflows N (h.closure? v) := by
  unfold closure?
  split
  · exact .ok _
  · exact .ite (.ok _) (.bind (h.overflows_header _) fun _ => .ite (.ok _)
      (.bind (h.space.overflows_read _) fun _ => .bind (h.space.overflows_read _) fun _ => .ok _))

theorem overflows_capturedArgs (c : ClosureView w) : Overflows N (h.capturedArgs c) :=
  h.space.overflows_slice _ _

theorem overflows_equal (a b : Word w) : Overflows N (h.equal a b) :=
  h.space.overflows_compare _

theorem overflows_renderLevels (names : Names) (levels : Nat) (v : Word w) :
    Overflows N (h.renderLevels names levels v) := by
  induction levels generalizing v with
  | zero => exact .ok _
  | succ levels ih =>
    have hpart : ∀ (r : Ref) (i : Nat), Overflows N (do
        let v ← h.load r i
        h.renderLevels names levels v) :=
      fun r i => .bind (h.space.overflows_read _) fun _ => ih _
    refine .bind v.overflows_view fun u => ?_
    cases u with
    | int n => exact .ok _
    | header header => exact .ok _
    | ref r =>
      refine .ite (.bind (hpart r 0) fun _ => .bind (hpart r 1) fun _ => .ok _)
        (.bind (h.overflows_header r) fun header => ?_)
      cases header.kind with
      | constructor =>
        exact .ite (.ok _) (.bind (.mapM (fun i => hpart r (1 + i)) _) fun _ => .ok _)
      | closure =>
        exact .bind (h.space.overflows_read _) fun _ =>
          .bind (.mapM (fun i => hpart r (3 + i)) _) fun _ => .ok _

end Heap

/-! ### Arithmetic and cases -/

theorem Fixnum.overflows_check (a b : Word w) : Overflows N (Fixnum.check a b) :=
  .ite (.error nofun) (.ite (.error nofun) (.ok _))

theorem Fixnum.total_ne {r : Except (Trap w) (Word w)} (hr : Overflows (fun _ => False) r) (z : Int) :
    Fixnum.total r ≠ .error (.trap (.intOverflow z)) := by
  cases r with
  | ok v => nofun
  | error t =>
    rintro ⟨⟩
    exact hr z rfl

theorem Fixnum.quotient_ne {r : Except (Trap w) (Option (Word w))}
    (hr : Overflows (fun _ => False) r) (z : Int) :
    Fixnum.quotient r ≠ .error (.trap (.intOverflow z)) := by
  match r with
  | .ok (some v) => nofun
  | .ok none => nofun
  | .error t =>
    rintro ⟨⟩
    exact hr z rfl

/-- Results of arithmetic wrap around. -/
theorem Fixnum.Operator.apply_ne (o : Fixnum.Operator) (a b : Word w) (z : Int) :
    o.apply a b ≠ .error (.trap (.intOverflow z)) := by
  have hwrap : ∀ {β : Type} (r : β),
      Overflows (fun _ => False) (do Fixnum.check a b; return r) :=
    fun _ => .bind (Fixnum.overflows_check a b) fun _ => .ok _
  cases o with
  | add => exact Fixnum.total_ne (hwrap _) z
  | sub => exact Fixnum.total_ne (hwrap _) z
  | mul => exact Fixnum.total_ne (hwrap _) z
  | lt => exact Fixnum.total_ne (hwrap _) z
  | le => exact Fixnum.total_ne (hwrap _) z
  | div => exact Fixnum.quotient_ne (hwrap _) z
  | mod => exact Fixnum.quotient_ne (hwrap _) z

namespace Case

theorem otherwise_ne (c : Case β) (z : Int) :
    c.otherwise (w := w) ≠ .error (.trap (.intOverflow z)) := by
  unfold otherwise
  split <;> nofun

theorem selectBoxed_ne (c : Case β) (h : Heap w) (v : Word w) (z : Int) :
    c.selectBoxed h v ≠ .error (.trap (.intOverflow z)) := by
  unfold selectBoxed
  split
  · exact c.otherwise_ne z
  · nofun
  · split
    · exact c.otherwise_ne z
    · split
      · exact c.otherwise_ne z
      · split
        · next t ht =>
          rintro ⟨⟩
          exact h.overflows_header (N := fun _ => False) _ z ht
        · split
          · nofun
          · exact c.otherwise_ne z

theorem select_ne (c : Case β) (h : Heap w) (v : Word w) (z : Int) :
    c.select h v ≠ .error (.trap (.intOverflow z)) := by
  unfold select
  split
  · exact c.selectBoxed_ne h v z
  · nofun
  · split
    · nofun
    · exact c.selectBoxed_ne h v z

end Case

end Trampoline
