import Trampoline.Proofs.Dispatch
import Trampoline.Proofs.Holdings
import Trampoline.Proofs.Looping

/-!
A list that is built and summed at every size of the heap.

The list grows by one cell of three words for each round, and each round starts with a checkpoint
for the next cell. Whatever the checkpoint does, the cells are what the run holds on to: so the
words are granted as long as the cells and one more fit under the maximum, and the first round where
they do not ends the run. A list that is complete is then summed cell by cell, through a case that tells
the empty list from a cell.
-/

namespace Trampoline.Demo.ListSum

open Machine

variable {w : Width}

/-- The constructor of the empty list, which is no block. -/
def nil : Constructor := ⟨8, 0, .unboxed⟩

def cons : Constructor := ⟨9, 2, .boxed⟩

def nilWord : Word w := (Header.pack .constructor 8 0).word

def consWord : Word w := (Header.pack .constructor 9 2).word

/-- The case that tells the empty list from a cell: the only arm for blocks needs no test. -/
def dispatch (w : Width) : Case Label :=
  ⟨.switch (.ofList [((nilWord : Word w).toNat, Label.mk 7)]), .elided ⟨8⟩, none⟩

def table (n : Int) : Program (Code w) :=
  { slots := #[{ name := "program_end" }, { name := "apply_pending" },
      ⟨"main", 0, some (start n nil ⟨3⟩)⟩, ⟨"build", 3, some (test ⟨5⟩ ⟨4⟩)⟩,
      ⟨"build_step", 0, some (step cons ⟨3⟩)⟩, ⟨"build_done", 0, some (built ⟨6⟩)⟩,
      ⟨"sum", 0, some (sum (dispatch w))⟩, ⟨"sum_nil", 0, some sumNil⟩,
      ⟨"sum_cons", 0, some (sumCons ⟨6⟩)⟩]
    entry := ⟨2⟩
    names := (Names.builtin.enter 8 (.constructor "Nil")).enter 9 (.constructor "Cons") }

theorem unboxedValue_nil : nil.unboxedValue = .ok (nilWord : Word w) := by
  cases w <;> rfl

theorem caseOf_lists (b : Builder w (Code w)) :
    Declare.caseOf [.constructor nil ⟨7⟩, .constructor cons ⟨8⟩] b = .ok (dispatch w) b := by
  have hnil : ({} : Arms Label).constructor w nil ⟨7⟩ =
      .ok { immediate := [((nilWord : Word w).toNat, ⟨7⟩)] } := by
    simp only [Arms.constructor, show nil.representation = .unboxed from rfl, unboxedValue_nil]
    rfl
  simp only [Declare.caseOf, List.foldlM, Arms.add, hnil]
  rfl

/-- Declaring the program ends with its table. -/
theorem program_declare (n : Int) (journal : Journal w) :
    ∃ journal', (declare n).program journal = .ok (table n, journal') := by
  let slots := (table n : Program (Code w)).slots.toList
  let reserved : Array (Slot (Code w)) := #[{ name := "program_end" }, { name := "apply_pending" }]
  let names := (table n : Program (Code w)).names
  have hnil : (Builder.constructor "Nil" 0 .unboxed : Declare w Constructor) .empty =
      .ok nil ⟨reserved, Names.builtin.enter 8 (.constructor "Nil"), 9⟩ := by
    cases w <;> rfl
  have hcons : (Builder.constructor "Cons" 2 .boxed : Declare w Constructor)
      ⟨reserved, Names.builtin.enter 8 (.constructor "Nil"), 9⟩ =
        .ok cons ⟨reserved, names, 10⟩ := by
    cases w <;> rfl
  have hbind {l : Label} {name : String} {maxAlloc : Nat} {code : Code w}
      (hl : l.isReserved = false) (hs : slots[l.index]? = some ⟨name, maxAlloc, some code⟩) :=
    Declare.bind_sketch hl hs names 10
  have hd : (declare n : Declare w Label) .empty =
      .ok ⟨2⟩ ⟨Declare.sketch slots 9, names, 10⟩ := by
    refine (bind_of_ok hnil).trans <| (bind_of_ok hcons).trans <|
      (bind_of_ok rfl).trans <| (bind_of_ok rfl).trans <|
      (bind_of_ok rfl).trans <| (bind_of_ok rfl).trans <|
      (bind_of_ok rfl).trans <| (bind_of_ok rfl).trans <|
      (bind_of_ok rfl).trans <| (bind_of_ok (caseOf_lists _)).trans ?_
    exact (bind_of_ok (hbind (l := ⟨2⟩) rfl rfl)).trans <|
      (bind_of_ok (hbind (l := ⟨3⟩) rfl rfl)).trans <|
      (bind_of_ok (hbind (l := ⟨4⟩) rfl rfl)).trans <|
      (bind_of_ok (hbind (l := ⟨5⟩) rfl rfl)).trans <|
      (bind_of_ok (hbind (l := ⟨6⟩) rfl rfl)).trans <|
      (bind_of_ok (hbind (l := ⟨7⟩) rfl rfl)).trans <|
      bind_of_ok (hbind (l := ⟨8⟩) rfl rfl)
  exact Declare.program_of_bound hd rfl rfl journal

/-! ### Lists on the heap -/

theorem ref?_nilWord : (nilWord : Word w).ref? = none :=
  Constructor.ref?_unboxedValue unboxedValue_nil

theorem uid_cons_le : cons.uid ≤ w.maxUid := by
  cases w <;> decide

theorem fields_cons_le : cons.fields ≤ w.maxFields := by
  cases w <;> decide

theorem block_cons (v u : Word w) : Block false [consWord] [v, u] :=
  Heap.block_of_checked (Header.checked_of_le uid_cons_le fields_cons_le) rfl

/-- The word of a list of integers, and the cells that it consists of. -/
inductive Lists (s : Space w) : Word w → List Int → List Ref → Prop where
  | nil : Lists s nilWord [] []
  | cons {v u : Word w} {r : Ref} {x : Int} {xs : List Int} {rs : List Ref} :
      v.ref? = some r → s.BlockAt r [consWord] [.wrapInt x, u] → Lists s u xs rs →
      Lists s v (x :: xs) (r :: rs)

namespace Lists

variable {s t : Space w} {v : Word w} {xs : List Int} {rs : List Ref}

theorem total (h : Lists s v xs rs) : s.total rs = 3 * xs.length := by
  induction h with
  | nil => rfl
  | cons _ b _ ih =>
    rw [Space.total_cons, b.extent, ih, List.length_cons]
    simp only [List.length_cons, List.length_nil]
    omega

theorem into (h : Lists s v xs rs) : v.Into {r | r ∈ rs} := by
  cases h with
  | nil => exact Word.into_of_none ref?_nilWord
  | cons hv _ _ =>
    intro r hr
    cases hv.symm.trans hr
    exact List.mem_cons_self

/-- From a list all its cells can be reached. -/
theorem reachable (h : Lists s v xs rs) {roots : List (Word w)}
    (hv : ∀ r, v.ref? = some r → s.Reachable roots r) : ∀ r ∈ rs, s.Reachable roots r := by
  induction h with
  | nil => exact nofun
  | @cons v u r x xs rs href b _ ih =>
    have hr := hv r href
    have htail : ∀ r' ∈ rs, s.Reachable roots r' :=
      ih fun r' hr' => .child hr (by rw [b.traced]; simp) hr'
    intro r' hr'
    obtain rfl | hr' := List.mem_cons.mp hr'
    · exact hr
    · exact htail r' hr'

theorem keeps (h : Lists s v xs rs) (hk : ∀ r ∈ rs, s.Keeps t r) : Lists t v xs rs := by
  induction h with
  | nil => exact .nil
  | cons hv b _ ih =>
    exact .cons hv (b.keeps (hk _ List.mem_cons_self))
      (ih fun r hr => hk r (List.mem_cons_of_mem _ hr))

/-- A list moves with its cells. -/
theorem moved {h h' : Heap w} {roots : List (Word w)} {all : List Ref} {words : Nat} {ρ : Nat → Nat}
    (S : h.Secured roots all words h' ρ) (hl : Lists h.space v xs rs) (hall : ∀ r ∈ rs, r ∈ all) :
    Lists h'.space (v.move ρ) xs (rs.map (Ref.move ρ)) := by
  induction hl with
  | nil =>
    rw [Word.move_of_none ref?_nilWord]
    exact .nil
  | @cons v u r x xs rs hv b _ ih =>
    have hr := hall r List.mem_cons_self
    have hblock := S.block hr b
    rw [List.map_cons, List.map_cons, Word.move_wrapInt] at hblock
    exact .cons (S.word hr hv) hblock (ih fun r hr => hall r (List.mem_cons_of_mem _ hr))

end Lists

/-- A heap with the settings, in which a list is all that its word holds on to. It still has the
capacity, unless there is nothing else in it. -/
structure Stock (s : HeapSettings) (c : Nat) (h : Heap w) (v : Word w) (xs : List Int) : Prop where
  bounded : h.Bounded
  settings : h.settings = s
  tidy : h.Tidy c (3 * xs.length)
  listed : ∃ rs, Lists h.space v xs rs ∧ h.Holdings [v] rs

section

variable {s : HeapSettings} {h : Heap w} {v : Word w} {xs : List Int} {i n z : Int} {c t : Nat}
  {m : Machine w}

/-- The list is built: the counter and the list so far are in the frame. -/
def building (h : Heap w) (i : Int) (v : Word w) (steps : Nat) : Pose w :=
  { heap := h, beneath := [.wrapInt 0, .wrapInt 0], locals := [.wrapInt i, v]
    result := .unitWord, mark := 4, steps := steps }

def summing (h : Heap w) (v : Word w) (sum : Int) (steps : Nat) : Pose w :=
  { heap := h, beneath := [.wrapInt 0, .wrapInt 0], locals := [v, .wrapInt sum]
    result := .unitWord, mark := 4, steps := steps }

theorem stock_nil (B : h.Bounded) (hs : h.settings = s) : Stock s h.capacity h nilWord [] :=
  ⟨B, hs, .inl rfl, [], .nil, Heap.holdings_nil fun v hv => by
    rw [List.mem_singleton.mp hv]
    exact ref?_nilWord⟩

/-- In the frame, only the list is a reference. -/
theorem mem_building {u : Word w} {r : Ref} (hu : u.ref? = some r) :
    u ∈ (building h i v t).result :: (building h i v t).slots ↔ u ∈ [v] := by
  simp [building, Pose.slots, Word.ne_unitWord hu, Word.ne_wrapInt hu]

theorem moved_building (ρ : Nat → Nat) (h' : Heap w) :
    (building h i v t).moved ρ h' = building h' i (v.move ρ) t := by
  simp only [building, Pose.moved, List.map_cons, List.map_nil, Word.move_wrapInt,
    Word.move_unitWord]

/-- How the checkpoint of a round ends. -/
theorem checkpoint_cases (S : Stock s c h v xs) :
    (s.MayOvergrow w c (3 * xs.length + 3) ∧
        m.Stops (provide 3) (building h i v t) (.trap .bounds)) ∨
      (s.maxWords < 3 * xs.length + 3 ∧ m.Stops (provide 3) (building h i v t)
        (.error (.outOfMemory ⟨3, 3 * xs.length, s.maxWords⟩))) ∨
      (3 * xs.length + 3 ≤ s.maxWords ∧ ∃ h' u, Stock s c h' u xs ∧ h'.limit = h'.hp + 3 ∧
        m.Takes (provide 3) (building h i v t) () (building h' i u t)) := by
  obtain ⟨rs, hlist, H⟩ := S.listed
  have hcases := prealloc_cases (m := m) (q := building h i v t)
    (H.congr fun _ _ hu => (mem_building hu).symm) S.bounded (hlist.total.symm ▸ S.tidy) 3
  have hsettings : (building h i v t).heap.settings = s := S.settings
  have htotal : (building h i v t).heap.space.total rs = 3 * xs.length := hlist.total
  rw [hsettings, htotal] at hcases
  refine hcases.imp id (.imp id ?_)
  rintro ⟨hfits, h', ρ, htakes, C⟩
  have hmoved := hlist.moved C fun _ hr => hr
  have htidy : h'.Tidy c (3 * xs.length) := htotal ▸ C.tidy (htotal.symm ▸ S.tidy)
  have hroots : ((building h i v t).result :: (building h i v t).slots).map (Word.move ρ) =
      (building h' i (v.move ρ) t).result :: (building h' i (v.move ρ) t).slots := by
    rw [← moved_building (h := h)]
    simp [Pose.moved, Pose.slots]
  rw [moved_building] at htakes
  exact ⟨hfits, h', v.move ρ, ⟨C.bounded, C.settings.trans S.settings, htidy, _, hmoved,
    (hroots ▸ C.holdings).congr fun _ _ hu => mem_building hu⟩, C.limit, htakes⟩

/-- A cell is built in the words of the checkpoint. -/
theorem takes_construct {q : Pose w} (hq : q.heap = h) (S : Stock s c h v xs)
    (hlimit : h.limit = h.hp + 3) :
    ∃ h' u, Stock s c h' u (i :: xs) ∧
      m.Takes (construct cons [.wrapInt i, v]) q u { q with heap := h' } := by
  subst hq
  obtain ⟨rs, hlist, H⟩ := S.listed
  have hplan : q.heap.planConstruct cons [.wrapInt i, v] = .ok _ :=
    Heap.construct_of_room S.bounded rfl uid_cons_le fields_cons_le rfl hlimit.ge
  have href := S.bounded.ref?_hp false
  have hblock := Heap.blockAt_place (h := q.heap) (block_cons (.wrapInt i) v)
  have hrest : Lists (q.heap.place ([consWord] ++ [.wrapInt i, v])).space v xs rs :=
    hlist.keeps fun r hr => H.keeps _ hr
  have hcell := Lists.cons href hblock hrest
  have hxs : ∀ u ∈ [.wrapInt i, v], u.Into {r | r ∈ rs} := by
    intro u hu
    obtain rfl | hu := List.mem_cons.mp hu
    · exact Word.into_of_none (Word.ref?_wrapInt i)
    · rw [List.mem_singleton.mp hu]
      exact hlist.into
  refine ⟨_, _, ⟨S.bounded.place (Heap.fits_construct hplan), S.settings, S.tidy.place _, _, hcell,
    ?_⟩, takes_allocate (Alloc.follows_construct cons [.wrapInt i, v]) hplan⟩
  refine H.place (block_cons _ _) hxs ?_ (hcell.reachable fun r hr => .root List.mem_cons_self hr)
  intro u hu
  rw [List.mem_singleton.mp hu]
  exact hcell.into

/-! ### Building the list -/

theorem leads_start (hroom : 4 ≤ m.maxStackWords) (hn : w.minInt ≤ n ∧ n ≤ w.maxInt) :
    Leads m (table n) ⟨2⟩ (entryPose h) ⟨3⟩ (building h n nilWord 1) :=
  leads_of_code rfl rfl rfl <| (takes_lift unboxedValue_nil).bind <| (takes_int hn).bind <|
    takes_tailCall hroom

/-- A round starts with a checkpoint, and then tests the counter. -/
theorem test_cases (hi : w.minInt ≤ i ∧ i ≤ w.maxInt) (hcount : t + 1 < sizeRange)
    (S : Stock s c h v xs) :
    (s.MayOvergrow w c (3 * xs.length + 3) ∧
        Fails m (table n) ⟨3⟩ (building h i v t) (.trap .bounds)) ∨
      (s.maxWords < 3 * xs.length + 3 ∧ Fails m (table n) ⟨3⟩ (building h i v t)
        (.error (.outOfMemory ⟨3, 3 * xs.length, s.maxWords⟩))) ∨
      (3 * xs.length + 3 ≤ s.maxWords ∧ ∃ h' u, Stock s c h' u xs ∧ h'.limit = h'.hp + 3 ∧
        Leads m (table n) ⟨3⟩ (building h i v t) (if i ≤ 0 then ⟨5⟩ else ⟨4⟩)
          (building h' i u (t + 1))) := by
  refine (checkpoint_cases (m := m) (i := i) (t := t + 1) S).imp ?_ (.imp ?_ ?_)
  · rintro ⟨hgrow, hstop⟩
    exact ⟨hgrow, fails_of_code (l := ⟨3⟩) rfl rfl hcount hstop.bind⟩
  · rintro ⟨hfull, hstop⟩
    exact ⟨hfull, fails_of_code (l := ⟨3⟩) rfl rfl hcount hstop.bind⟩
  · rintro ⟨hfits, h', u, S', hlimit, hready⟩
    have htest := takes_test (m := m) (q := building h' i u (t + 1)) hi rfl
      (show 2 < sizeRange by decide) ⟨5⟩ ⟨4⟩
    exact ⟨hfits, h', u, S', hlimit,
      leads_of_step (l := ⟨3⟩) (by decide) (takes_step rfl rfl hready htest) rfl⟩

/-- The rest of a round puts the counter in front of the list, and counts down. -/
theorem leads_step (hroom : 4 ≤ m.maxStackWords) (S : Stock s c h v xs)
    (hlimit : h.limit = h.hp + 3) :
    ∃ h' u, Stock s c h' u (i :: xs) ∧
      Leads m (table n) ⟨4⟩ (building h i v t) ⟨3⟩ (building h' (i - 1) u (t + 1)) := by
  obtain ⟨h', u, S', hbuild⟩ :=
    takes_construct (m := m) (i := i) (q := (building h i v t).tick) rfl S hlimit
  refine ⟨h', u, S', leads_of_code rfl rfl rfl ?_⟩
  exact (takes_slot rfl (show 2 < sizeRange by decide)).bind <|
    (takes_slot rfl (show 3 < sizeRange by decide)).bind <| hbuild.bind <|
    (takes_int (w.digit_range (by decide))).bind <| (takes_lift (Fixnum.sub_wrapInt i 1)).bind <|
    takes_tailCall hroom

/-- The list is complete just when its cells fit, with room for one more. -/
theorem build_cases (hroom : 4 ≤ m.maxStackWords) (k : Nat) (hk : i.toNat = k)
    (hi : w.minInt ≤ i ∧ i ≤ w.maxInt) (hcount : t + 2 * k + 1 < sizeRange) (S : Stock s c h v xs)
    (hxs : 3 * xs.length ≤ s.maxWords) :
    (s.MayOvergrow w c (3 * (xs.length + k) + 3) ∧
        Fails m (table n) ⟨3⟩ (building h i v t) (.trap .bounds)) ∨
      (s.maxWords < 3 * (xs.length + k) + 3 ∧ Fails m (table n) ⟨3⟩ (building h i v t)
        (.error (.outOfMemory ⟨3, 3 * (s.maxWords / 3), s.maxWords⟩))) ∨
      (3 * (xs.length + k) + 3 ≤ s.maxWords ∧ ∃ h' i' u ys, Stock s c h' u ys ∧
        ys.length = xs.length + k ∧ ys.sum = xs.sum + (k * (k + 1) / 2 : Nat) ∧
        Leads m (table n) ⟨3⟩ (building h i v t) ⟨5⟩ (building h' i' u (t + 2 * k + 1))) := by
  induction k generalizing h i v xs t with
  | zero =>
    refine (test_cases (m := m) hi hcount S).imp id (.imp ?_ ?_)
    · rintro ⟨hfull, hfail⟩
      rw [show xs.length = s.maxWords / 3 by omega] at hfail
      exact ⟨hfull, hfail⟩
    · rintro ⟨hfits, h', u, S', _, htest⟩
      rw [if_pos (Int.toNat_eq_zero.mp hk)] at htest
      exact ⟨hfits, h', i, u, xs, S', rfl, by simp, htest⟩
  | succ k ih =>
    obtain ⟨hgrow, hfail⟩ | ⟨hfull, hfail⟩ | ⟨hfits, h₁, u₁, S₁, hlimit, htest⟩ :=
      test_cases (m := m) (n := n) (t := t) hi (by omega) S
    · exact .inl ⟨hgrow.mono (by omega), hfail⟩
    · rw [show xs.length = s.maxWords / 3 by omega] at hfail
      exact .inr (.inl ⟨by omega, hfail⟩)
    · rw [if_neg (by omega)] at htest
      obtain ⟨h₂, u₂, S₂, hstep⟩ := leads_step (n := n) (i := i) (t := t + 1) hroom S₁ hlimit
      have hround := htest.trans hstep
      have hlength : (i :: xs).length + k = xs.length + (k + 1) := by
        rw [List.length_cons]
        omega
      have hsum : (i :: xs).sum + (k * (k + 1) / 2 : Nat) =
          xs.sum + ((k + 1) * (k + 1 + 1) / 2 : Nat) := by
        rw [List.sum_cons, half_mul_succ]
        omega
      have hzero := (w.digit_range (n := 0) (by decide)).1
      have hrest := ih (i := i - 1) (t := t + 2) (by omega) (by omega) (by omega) S₂
        (show 3 * (xs.length + 1) ≤ s.maxWords by omega)
      rw [hlength, show t + 2 + 2 * k + 1 = t + 2 * (k + 1) + 1 by omega] at hrest
      refine hrest.imp ?_ (.imp ?_ ?_)
      · exact fun ⟨hgrow, hfail⟩ => ⟨hgrow, hround.fails hfail⟩
      · exact fun ⟨hfull, hfail⟩ => ⟨hfull, hround.fails hfail⟩
      · rintro ⟨hfits', h', i', u, ys, S', hlong, hys, hlead⟩
        exact ⟨hfits', h', i', u, ys, S', hlong, hys.trans hsum, hround.trans hlead⟩

/-! ### Summing the list -/

theorem leads_built (hroom : 4 ≤ m.maxStackWords) :
    Leads m (table n) ⟨5⟩ (building h i v t) ⟨6⟩ (summing h v 0 (t + 1)) :=
  leads_of_code rfl rfl rfl <| (takes_slot rfl (show 3 < sizeRange by decide)).bind <|
    (takes_int (w.digit_range (by decide))).bind <| takes_tailCall hroom

theorem select_nil : (dispatch w).select h nilWord = .ok (⟨7⟩, .unboxed) := by
  have harm : (Std.TreeMap.ofList
      [((nilWord : Word w).toNat, Label.mk 7)])[(nilWord : Word w).toNat]? = some ⟨7⟩ :=
    (Tier.lookup_ofList (by simp)).mpr (by simp)
  simp only [Case.select, dispatch, harm]

/-- A cell is told from the empty list without a look at its header. -/
theorem select_cell {r : Ref} (hv : v.ref? = some r) :
    (dispatch w).select h v = .ok (⟨8⟩, .elided) := by
  have hne : (nilWord : Word w).toNat ≠ v.toNat := by
    intro heq
    rw [← BitVec.eq_of_toNat_eq heq] at hv
    cases ref?_nilWord.symm.trans hv
  have harm : (Std.TreeMap.ofList [((nilWord : Word w).toNat, Label.mk 7)])[v.toNat]? = none := by
    apply Option.eq_none_iff_forall_ne_some.mpr
    intro b hb
    simpa [hne.symm] using (Tier.lookup_ofList (by simp)).mp hb
  simp only [Case.select, dispatch, harm, Case.selectBoxed]

/-- The head of a cell is added to the sum so far, and the tail is left. -/
theorem takes_sumCons {q : Pose w} {u : Word w} {x : Int} (hv : q.locals[0]? = some v)
    (hz : q.locals[1]? = some (.wrapInt z)) (hsize : q.beneath.length + 1 < sizeRange)
    (hhead : q.heap.field v 0 = .ok (.wrapInt x)) (htail : q.heap.field v 1 = .ok u)
    (hroom : q.beneath.length + 2 ≤ m.maxStackWords) (l : Label) :
    m.Takes (sumCons l) q l (q.refill [u, .wrapInt (z + x)]) :=
  (takes_slot hv (Nat.lt_of_succ_lt hsize)).bind <| (takes_slot hz hsize).bind <|
    (takes_field hhead).bind <| (takes_field htail).bind <|
    (takes_lift (Fixnum.add_wrapInt z x)).bind <| takes_tailCall hroom

/-- The sum of the list is added to the sum so far, cell by cell. -/
theorem leads_sum (hroom : 4 ≤ m.maxStackWords) (B : h.Bounded) {D : Set Ref}
    (L : h.space.Layout h.hp D) {rs : List Ref} (hlist : Lists h.space v xs rs)
    (hrs : ∀ r ∈ rs, r ∈ D) :
    Leads m (table n) ⟨6⟩ (summing h v z t) .programEnd
      { heap := h, beneath := [], locals := [], result := .wrapInt (z + xs.sum), mark := 4
        steps := t + 2 * xs.length + 2 } := by
  induction hlist generalizing z t with
  | nil =>
    have hselect : Leads m (table n) ⟨6⟩ (summing h nilWord z t) ⟨7⟩
        (summing h nilWord z (t + 1)) :=
      leads_of_code rfl rfl rfl <| (takes_slot rfl (show 2 < sizeRange by decide)).bind <|
        takes_select select_nil
    refine hselect.trans (leads_of_code rfl rfl rfl ?_)
    rw [List.sum_nil, add_zero]
    exact (takes_slot rfl (show 3 < sizeRange by decide)).bind (takes_ret_end rfl)
  | @cons v u r x xs rs hv b _ ih =>
    have hr := hrs r List.mem_cons_self
    have hselect : Leads m (table n) ⟨6⟩ (summing h v z t) ⟨8⟩ (summing h v z (t + 1)) :=
      leads_of_code rfl rfl rfl <| (takes_slot rfl (show 2 < sizeRange by decide)).bind <|
        takes_select (select_cell hv)
    have hcount : [.wrapInt x, u].length ≤ w.maxFields := fields_cons_le
    have hfield {j : Nat} {y : Word w} (hy : [.wrapInt x, u][j]? = some y) : h.field v j = .ok y :=
      Heap.field_of_blockAt B L hr hv uid_cons_le hcount b hy
    have htakes := takes_sumCons (m := m) (q := (summing h v z (t + 1)).tick) rfl rfl
      (show 3 < sizeRange by decide) (hfield (j := 0) rfl) (hfield (j := 1) rfl) hroom ⟨6⟩
    have hadd : Leads m (table n) ⟨8⟩ (summing h v z (t + 1)) ⟨6⟩ (summing h u (z + x) (t + 2)) :=
      leads_of_code rfl rfl rfl htakes
    have hrest := ih (z := z + x) (t := t + 2) fun r hr => hrs r (List.mem_cons_of_mem _ hr)
    rw [List.sum_cons, ← add_assoc, List.length_cons,
      show t + 2 * (xs.length + 1) + 2 = t + 2 + 2 * xs.length + 2 by omega]
    exact hselect.trans (hadd.trans hrest)

/-- There are always fewer steps than can be counted. -/
theorem count_lt (hn : n ≤ w.maxInt) : 4 * n.toNat + 5 < sizeRange := by
  cases w <;> simp only [Width.maxInt] at hn <;> simp only [sizeRange] <;> omega

/-- From the first label to the end: the list is built and summed, or does not fit. -/
theorem run_cases (hroom : 4 ≤ m.maxStackWords) (hn : w.minInt ≤ n ∧ n ≤ w.maxInt) (B : h.Bounded)
    (hs : h.settings = s) :
    (s.MayOvergrow w h.capacity (3 * n.toNat + 3) ∧
        Fails m (table n) ⟨2⟩ (entryPose h) (.trap .bounds)) ∨
      (s.maxWords < 3 * n.toNat + 3 ∧ Fails m (table n) ⟨2⟩ (entryPose h)
        (.error (.outOfMemory ⟨3, 3 * (s.maxWords / 3), s.maxWords⟩))) ∨
      (3 * n.toNat + 3 ≤ s.maxWords ∧ ∃ h', Leads m (table n) ⟨2⟩ (entryPose h) .programEnd
        { heap := h', beneath := [], locals := []
          result := .wrapInt (n.toNat * (n.toNat + 1) / 2 : Nat), mark := 4
          steps := 4 * n.toNat + 5 }) := by
  have hstart := leads_start (m := m) (h := h) hroom hn
  have hcount := count_lt hn.2
  have hcases := build_cases (m := m) (n := n) (i := n) (t := 1) hroom n.toNat rfl hn (by omega)
    (stock_nil B hs) (Nat.zero_le _)
  rw [List.length_nil, Nat.zero_add] at hcases
  refine hcases.imp ?_ (.imp ?_ ?_)
  · exact fun ⟨hgrow, hfail⟩ => ⟨hgrow, hstart.fails hfail⟩
  · exact fun ⟨hfull, hfail⟩ => ⟨hfull, hstart.fails hfail⟩
  · rintro ⟨hfits, h', i', u, ys, S, hlong, hsum, hbuild⟩
    obtain ⟨rs, hlist, H⟩ := S.listed
    have hrest := leads_sum (m := m) (n := n) (z := 0) (t := 1 + 2 * n.toNat + 1 + 1) hroom
      S.bounded H.layout hlist fun _ hr => hr
    rw [hsum, List.sum_nil, zero_add, zero_add, hlong,
      show 1 + 2 * n.toNat + 1 + 1 + 2 * n.toNat + 2 = 4 * n.toNat + 5 by omega] at hrest
    exact ⟨hfits, h', hstart.trans (hbuild.trans ((leads_built hroom).trans hrest))⟩

end

variable {s : MachineSettings} {n : Int}

/-- On a machine that nothing has trapped on before, the list is built and summed just when its cells
fit into the heap with room for one more, four words of stack suffice for that, and otherwise the run
ends when as many cells are live as the heap can hold. It can trap instead only if the maximum is
more than there can be room for, and the capacity or the words that are needed are more than half of
that. -/
theorem listSum_exact_need (hvalid : s.validate w = .ok ()) (hn : w.minInt ≤ n ∧ n ≤ w.maxInt)
    (journal : Journal w) :
    ∃ p journal', (declare n).program journal = .ok (p, journal') ∧
      (∀ (sink : Sink w) (journal : Journal w),
        if s.heap.initialWords ≤ w.maxSpaceWords then ∃ m, create s sink journal = .ok m
        else create s sink journal = .error (.bounds, journal.recordMaking s.heap)) ∧
      ∀ m, Intact s m →
        (w.maxSpaceWords < s.heap.maxWords ∧
          w.maxSpaceWords < 2 * max m.heap.capacity (3 * n.toNat + 3) ∧
          ∃ m', Settles m p (.error (.trap .bounds) m')) ∨
        if 3 * n.toNat + 3 ≤ s.heap.maxWords then
          ∃ v m', Settles m p (.ok v m') ∧ v.Represents (n.toNat * (n.toNat + 1) / 2 : Nat) ∧
            m'.stack.highWater = 4 ∧ m'.steps = 4 * n.toNat + 5
        else ∃ m', Settles m p (.error
          (.error (.outOfMemory ⟨3, 3 * (s.heap.maxWords / 3), s.heap.maxWords⟩)) m') := by
  obtain ⟨journal', hbuilt⟩ := program_declare n journal
  refine ⟨table n, journal', hbuilt, create_of_valid hvalid, fun m hm => ?_⟩
  have hroom : 4 ≤ m.maxStackWords := le_trans (by decide) hm.served.stack.2.1
  have htwo : 2 ≤ m.maxStackWords := le_trans (by decide) hroom
  obtain ⟨hgrow, hfail⟩ | ⟨hfull, hfail⟩ | ⟨hfits, h', hlead⟩ :=
    run_cases (m := m.hosting (table n)) hroom hn hm.made.heap hm.made.settings
  · exact .inl ⟨hgrow.max_lt, hgrow.need_lt, hfail.settles rfl htwo⟩
  · rw [if_neg (Nat.not_le.mpr hfull)]
    exact .inr (hfail.settles rfl htwo)
  · rw [if_pos hfits]
    obtain ⟨m', hsettles, _, hmark, hsteps⟩ := hlead.settles rfl htwo (count_lt hn.2) rfl rfl
    exact .inr ⟨_, m', hsettles, Word.represents_wrapInt _, hmark, hsteps⟩

/-- Four cells fit into sixteen words with room for one more, and five do not. -/
theorem listSum_exact_need_snug :
    snug.validate .bits64 = .ok () ∧
      (∃ p journal', (declare 4).program {} = .ok (p, journal') ∧
        ∃ v m', Settles (blank snug : Machine .bits64) p (.ok v m') ∧ v.Represents 10 ∧
          m'.stack.highWater = 4 ∧ m'.steps = 21) ∧
      ∃ p journal', (declare 5).program {} = .ok (p, journal') ∧
        ∃ m', Settles (blank snug : Machine .bits64) p
          (.error (.error (.outOfMemory ⟨3, 15, 16⟩)) m') := by
  have hvalid : snug.validate .bits64 = .ok () := by decide +kernel
  have hintact : Intact snug (blank snug : Machine .bits64) :=
    .fresh (create_blank hvalid (by decide))
  obtain ⟨p, journal', hp, _, hrun⟩ :=
    listSum_exact_need (n := 4) hvalid (by decide) ({} : Journal .bits64)
  obtain ⟨q, journal'', hq, _, hrun'⟩ :=
    listSum_exact_need (n := 5) hvalid (by decide) ({} : Journal .bits64)
  have hsmall : ¬ Width.bits64.maxSpaceWords < snug.heap.maxWords := by decide
  refine ⟨hvalid, ⟨p, journal', hp, ?_⟩, q, journal'', hq, ?_⟩
  · exact (hrun _ hintact).resolve_left fun htrap => hsmall htrap.1
  · exact (hrun' _ hintact).resolve_left fun htrap => hsmall htrap.1

/-- With valid settings there may be no machine that could build the list. -/
theorem listSum_overlarge_traps :
    overlarge.validate .bits64 = .ok () ∧
      (∃ p journal', (declare 5 : Declare .bits64 Label).program {} = .ok (p, journal')) ∧
      ∀ (sink : Sink .bits64) (journal : Journal .bits64),
        create overlarge sink journal = .error (.bounds, journal.recordMaking overlarge.heap) :=
  ⟨validate_overlarge, ⟨_, program_declare 5 {}⟩, create_overlarge⟩

end Trampoline.Demo.ListSum
