import Trampoline.Proofs.PartialApplications
import Trampoline.Proofs.StackLimit

/-!
A sum of curried applications at every size of the heap.

The program applies closures to too few, enough, and too many arguments, and makes five of them on
the way. All of them stay on the stack, or are what is applied, until the last is made: so each of
the four checkpoints asks for words beside all closures so far, and with nineteen words in all none
of them fails. The stack is fourteen words deep at most.
-/

namespace Trampoline.Demo.Curry

open Machine Heap

variable {w : Width}

def add3Function : Function := ⟨8, ⟨2⟩, 3, 0⟩

def adderFunction : Function := ⟨9, ⟨3⟩, 1, 4⟩

def table (n : Int) : Program (Code w) :=
  { slots := #[{ name := "program_end" }, { name := "apply_pending" }, ⟨"add3", 0, some add3⟩,
      ⟨"adder", 4, some (adder add3Function)⟩,
      ⟨"main", 6, some (start n add3Function adderFunction ⟨5⟩)⟩,
      ⟨"k1", 0, some (applyResult n 2 ⟨6⟩)⟩, ⟨"k2", 0, some (applyResult n 3 ⟨7⟩)⟩,
      ⟨"k3", 0, some (applyAdder n ⟨8⟩)⟩, ⟨"k4", 0, some finish⟩]
    entry := ⟨4⟩
    names := (Names.builtin.enter 8 (.function "add3")).enter 9 (.function "adder") }

theorem program_declare (n : Int) (journal : Journal w) :
    ∃ journal', (declare n).program journal = .ok (table n, journal') := by
  have hd : (declare n : Declare w Label) .empty =
      .ok ⟨4⟩ ⟨(table n).slots, (table n : Program (Code w)).names, 10⟩ := by
    cases w <;> rfl
  exact Declare.program_of_bound hd rfl rfl journal

/-! ### Closures and poses -/

def adding (xs : List Int) (h : xs.length ≤ 3) : PartialApplication w :=
  ⟨add3Function, xs, by cases w <;> decide, by cases w <;> decide, h⟩

def giving : PartialApplication w :=
  ⟨adderFunction, [], by cases w <;> decide, by cases w <;> decide, by decide⟩

def standing (h : Heap w) (vs : List (Word w)) (v : Word w) (mark steps : Nat) : Pose w :=
  { heap := h, beneath := [.wrapInt 0, .wrapInt 0], locals := vs, result := v, mark := mark
    steps := steps }

/-- What a checkpoint of the program asks for, and how many words are live there: the first one that
does not get its words under a maximum. -/
def shortage (most : Nat) : Shortage :=
  if most < 6 then ⟨6, 0, most⟩
  else if most < 10 then ⟨4, 6, most⟩
  else if most < 15 then ⟨5, 10, most⟩
  else ⟨4, 15, most⟩

section

variable {s : HeapSettings} {room : Nat} {h : Heap w} {f g p u v c : Word w} {n x y z : Int}
  {t k : Nat} {m : Machine w} {q q' : Pose w} {l l' : Label} {vs : List (Word w)}

def Starves (m : Machine w) (n : Int) (s : HeapSettings) (room : Nat) (l : Label) (q : Pose w) :
    Prop :=
  (s.MayOvergrow w room 19 ∧ Fails m (table n) l q (.trap .bounds)) ∨
    (s.maxWords < 19 ∧ Fails m (table n) l q (.error (.outOfMemory (shortage s.maxWords))))

theorem Starves.after (h : Leads m (table n) l q l' q') (h' : Starves m n s room l' q') :
    Starves m n s room l q :=
  h'.imp (fun ⟨hgrow, hfail⟩ => ⟨hgrow, h.fails hfail⟩)
    fun ⟨hfull, hfail⟩ => ⟨hfull, h.fails hfail⟩

theorem starves_of_trap (hgrow : s.MayOvergrow w room k) (hk : k ≤ 19)
    (hfail : Fails m (table n) l q (.trap .bounds)) : Starves m n s room l q :=
  .inl ⟨hgrow.mono hk, hfail⟩

theorem starves_of_shortage (hfull : s.maxWords < 19) {e : Shortage}
    (hshort : shortage s.maxWords = e)
    (hfail : Fails m (table n) l q (.error (.outOfMemory e))) : Starves m n s room l q :=
  .inr ⟨hfull, hshort ▸ hfail⟩

theorem moved_standing (ρ : Nat → Nat) (h' : Heap w) :
    (standing h vs v k t).moved ρ h' =
      standing h' (vs.map (Word.move ρ)) (v.move ρ) k t := by
  simp only [standing, Pose.moved, List.map_cons, List.map_nil, Word.move_wrapInt]

/-! ### Too few arguments -/

theorem refers_standing {ks : Closed w}
    (hks : ∀ u r, u.ref? = some r → (u ∈ v :: vs ↔ u ∈ ks.map Prod.fst)) :
    (standing h vs v k t).Refers ks := by
  intro u r hu
  rw [← hks u r hu]
  simp [standing, Pose.slots, Word.ne_wrapInt hu]

/-- The first two closures are made in the words of the first checkpoint. -/
theorem continues_start (hroom : 16 ≤ m.maxStackWords) (hn : w.minInt ≤ n ∧ n ≤ w.maxInt)
    (F : h.Furnished s room []) (hlimit : h.limit = h.hp + 6) :
    ∃ h' f g, h'.Furnished s room [(g, giving), (f, adding [] (by simp))] ∧
      m.Continues (start n add3Function adderFunction ⟨5⟩) (standing h [] .unitWord 2 t)
        (apply f [.wrapInt n] ⟨5⟩) (standing h' [f, g] .unitWord 4 t) := by
  have hfit : h.hp + (adding (w := w) [] (by simp)).words ≤ h.limit := by
    change h.hp + 3 ≤ h.limit
    omega
  obtain ⟨h₁, f, F₁, hlimit₁, hhp₁, hf⟩ :=
    takes_makeClosure (m := m) (q := standing h [] .unitWord 2 t) F (adding [] (by simp)) hfit
  have hfit₁ : h₁.hp + (giving (w := w)).words ≤ h₁.limit := by
    rw [hlimit₁, hhp₁]
    change h.hp + 3 + 3 ≤ h.limit
    omega
  obtain ⟨h₂, g, F₂, _, _, hg⟩ :=
    takes_makeClosure (m := m) (q := standing h₁ [] .unitWord 2 t) F₁ giving hfit₁
  have hpush : m.Takes (pushLocal f) (standing h₂ [] .unitWord 2 t) ()
      (standing h₂ [f] .unitWord 3 t) :=
    takes_pushLocal (show 3 ≤ m.maxStackWords by omega)
  have hpush' : m.Takes (pushLocal g) (standing h₂ [f] .unitWord 3 t) ()
      (standing h₂ [f, g] .unitWord 4 t) :=
    takes_pushLocal (show 4 ≤ m.maxStackWords by omega)
  exact ⟨h₂, f, g, F₂, hf.continues.trans <| hg.continues.trans <| hpush.continues.trans <|
    hpush'.continues.trans (takes_int hn).continues⟩

/-- The first closures are made, and the adding function is given an argument. -/
theorem main_cases (hroom : 16 ≤ m.maxStackWords) (hn : w.minInt ≤ n ∧ n ≤ w.maxInt)
    (B : h.Bounded) (hs : h.settings = s) :
    Starves m n s h.capacity ⟨4⟩ (entryPose h) ∨ (10 ≤ s.maxWords ∧ ∃ h' f g p,
      h'.Furnished s h.capacity [(p, adding [n] (by simp)), (g, giving), (f, adding [] (by simp))] ∧
      Leads m (table n) ⟨4⟩ (entryPose h) ⟨5⟩ (standing h' [f, g] p 6 1)) := by
  have hrefers : (standing h [] .unitWord 2 1).Refers [] :=
    refers_standing fun u r hu => by simp [Word.ne_unitWord hu]
  obtain ⟨hgrow, hstop⟩ | ⟨hfull, hstop⟩ | ⟨hfits, h₁, ρ, hready, F₁, hlimit⟩ :=
    checkpoint_closed (m := m) (q := standing h [] .unitWord 2 1) (furnished_nil B hs) hrefers 6
  · exact .inl (starves_of_trap hgrow (show 6 ≤ 19 by decide)
      (fails_of_code (l := ⟨4⟩) rfl rfl (show 1 < sizeRange by decide) hstop.bind))
  · have hfull : s.maxWords < 6 := hfull
    have hshort : shortage s.maxWords = ⟨6, 0, s.maxWords⟩ := if_pos hfull
    exact .inl (starves_of_shortage (by omega) hshort
      (fails_of_code (l := ⟨4⟩) rfl rfl (show 1 < sizeRange by decide) hstop.bind))
  have hfits : 6 ≤ s.maxWords := hfits
  rw [moved_standing, Word.move_unitWord] at hready
  obtain ⟨h₂, f, g, F₂, hstart⟩ := continues_start (m := m) (t := 1) hroom hn F₁ hlimit
  have hrefers' : (standing h₂ [f, g] .unitWord 4 1).Refers
      [(g, giving), (f, adding [] (by simp))] :=
    refers_standing fun u r hu => by simp [Word.ne_unitWord hu, or_comm]
  obtain ⟨hgrow, hstop⟩ | ⟨hfull, hstop⟩ | ⟨hfits', h₃, ρ', p, F₃, happly⟩ :=
    apply_closed_cases (m := m) (p := adding [] (by simp)) (z := [n]) F₂ hrefers'
      (List.mem_cons_of_mem _ List.mem_cons_self) (by simp) (show 1 < 3 by decide)
      (show 6 ≤ m.maxStackWords by omega) ⟨5⟩
  · exact .inl (starves_of_trap hgrow (show 10 ≤ 19 by decide)
      (fails_of_code (l := ⟨4⟩) rfl rfl (show 1 < sizeRange by decide)
        (hready.bind_stops (hstart.stops hstop))))
  · have hfull : s.maxWords < 10 := hfull
    have hshort : shortage s.maxWords = ⟨4, 6, s.maxWords⟩ := by
      rw [shortage, if_neg (by omega), if_pos hfull]
    exact .inl (starves_of_shortage (by omega) hshort
      (fails_of_code (l := ⟨4⟩) rfl rfl (show 1 < sizeRange by decide)
        (hready.bind_stops (hstart.stops hstop))))
  · rw [moved_standing] at happly
    exact .inr ⟨hfits', h₃, f.move ρ', g.move ρ', p, F₃,
      leads_of_step (by decide) (takes_step rfl rfl hready (hstart.takes happly)) rfl⟩

/-- The result is kept in the frame, and applied to a multiple. -/
theorem continues_applyResult (hroom : (standing h vs v k t).slots.length + 1 ≤ m.maxStackWords)
    (hn : w.minInt ≤ n ∧ n ≤ w.maxInt) (hx : 0 ≤ x ∧ x ≤ 9) (l : Label) :
    m.Continues (applyResult n x l) (standing h vs v k t) (apply v [.wrapInt (x * n)] l)
      (standing h (vs ++ [v]) v (max k (2 + (vs ++ [v]).length)) t) :=
  takes_lastResult.continues.trans <| (takes_pushLocal hroom).continues.trans <|
    (takes_int (w.digit_range hx)).continues.trans <| (takes_int hn).continues.trans
      (takes_lift (Fixnum.mul_wrapInt x n)).continues

/-- The closure that was delivered is given another argument. -/
theorem first_cases (hroom : 16 ≤ m.maxStackWords) (hn : w.minInt ≤ n ∧ n ≤ w.maxInt)
    (F : h.Furnished s room [(p, adding [n] (by simp)), (g, giving), (f, adding [] (by simp))])
    (hcount : t + 1 < sizeRange) (hten : 10 ≤ s.maxWords) :
    Starves m n s room ⟨5⟩ (standing h [f, g] p 6 t) ∨ (15 ≤ s.maxWords ∧ ∃ h' f' g' p' v,
      h'.Furnished s room [(v, adding [n, 2 * n] (by simp)), (p', adding [n] (by simp)),
        (g', giving), (f', adding [] (by simp))] ∧
      Leads m (table n) ⟨5⟩ (standing h [f, g] p 6 t) ⟨6⟩
        (standing h' [f', g', p'] v 7 (t + 1))) := by
  have hfit : (standing h [f, g] p 6 (t + 1)).slots.length + 1 ≤ m.maxStackWords :=
    show 5 ≤ m.maxStackWords by omega
  have hcontinues : m.Continues (applyResult n 2 ⟨6⟩) (standing h [f, g] p 6 (t + 1))
      (apply p [.wrapInt (2 * n)] ⟨6⟩) (standing h [f, g, p] p 6 (t + 1)) :=
    continues_applyResult hfit hn (by decide) ⟨6⟩
  have hrefers : (standing h [f, g, p] p 6 (t + 1)).Refers
      [(p, adding [n] (by simp)), (g, giving), (f, adding [] (by simp))] :=
    refers_standing fun u r hu => by
      simp only [List.map_cons, List.map_nil, List.mem_cons, List.not_mem_nil, or_false]
      tauto
  obtain ⟨hgrow, hstop⟩ | ⟨hfull, hstop⟩ | ⟨hfits, h₁, ρ, v, F₁, happly⟩ :=
    apply_closed_cases (m := m) (p := adding [n] (by simp)) (z := [2 * n]) F hrefers
      List.mem_cons_self (by simp) (show 2 < 3 by decide) (show 7 ≤ m.maxStackWords by omega) ⟨6⟩
  · exact .inl (starves_of_trap hgrow (show 15 ≤ 19 by decide)
      (fails_of_code rfl rfl hcount (takes_provide_zero.bind_stops (hcontinues.stops hstop))))
  · have hfull : s.maxWords < 15 := hfull
    have hshort : shortage s.maxWords = ⟨5, 10, s.maxWords⟩ := by
      rw [shortage, if_neg (by omega), if_neg (by omega), if_pos hfull]
    exact .inl (starves_of_shortage (by omega) hshort
      (fails_of_code rfl rfl hcount (takes_provide_zero.bind_stops (hcontinues.stops hstop))))
  · rw [moved_standing] at happly
    exact .inr ⟨hfits, h₁, f.move ρ, g.move ρ, p.move ρ, v, F₁,
      leads_of_code rfl rfl rfl (hcontinues.takes happly)⟩

/-! ### Enough arguments -/

theorem size_two : Word.size 2 = .ok (.wrapInt 2 : Word w) :=
  Word.size_of_small (w.digit_range (by decide)).2

/-- The sum of three integers is returned to the first frame. -/
theorem leads_add3 {a : Word w} (hl : Word.codeAddress l.id = .ok a) (hvs : vs.length ≤ 9) :
    Leads m (table n) ⟨2⟩
      ((standing h vs v k t).opened a (.wrapInt 2) [.wrapInt x, .wrapInt y, .wrapInt z]) l
      (standing h vs (.wrapInt (x + y + z)) (max k (2 + vs.length + 5)) (t + 1)) := by
  have hsize (i : Nat) (hi : i ≤ 2) :
      ((standing h vs v k t).slots ++ [a, .wrapInt 2]).length + i < sizeRange := by
    have hlarge : 100 < sizeRange := by decide
    simp only [standing, Pose.slots, List.length_append, List.length_cons, List.length_nil]
    omega
  have hadd : m.Takes add3
      ((standing h vs v k t).opened a (.wrapInt 2) [.wrapInt x, .wrapInt y, .wrapInt z]).tick l _ :=
    (takes_slot rfl (hsize 0 (by decide))).bind <| (takes_slot rfl (hsize 1 (by decide))).bind <|
      (takes_lift (Fixnum.add_wrapInt x y)).bind <| (takes_slot rfl (hsize 2 (by decide))).bind <|
      (takes_lift (Fixnum.add_wrapInt (x + y) z)).bind <|
      takes_ret (q := standing h vs v k t) hl size_two (w.digit_range (n := 2) (by decide)).2 rfl
  have hmark : max k ((standing h vs v k t).slots.length + (2 + 3)) =
      max k (2 + vs.length + 5) := by
    simp only [standing, Pose.slots, List.length_append, List.length_cons, List.length_nil]
  rw [← hmark]
  exact leads_of_code rfl rfl rfl hadd

/-- The third argument saturates the closure. -/
theorem leads_second (hroom : 16 ≤ m.maxStackWords) (hn : w.minInt ≤ n ∧ n ≤ w.maxInt)
    {ks : Closed w} (F : h.Furnished s room ks) (hv : (v, adding [n, 2 * n] (by simp)) ∈ ks) :
    Leads m (table n) ⟨6⟩ (standing h [f, g, p] v 7 t) ⟨7⟩
      (standing h [f, g, p, v] (.wrapInt (n + 2 * n + 3 * n)) 11 (t + 2)) := by
  have hfit : (standing h [f, g, p] v 7 (t + 1)).slots.length + 1 ≤ m.maxStackWords :=
    show 6 ≤ m.maxStackWords by omega
  have hcontinues : m.Continues (applyResult n 3 ⟨7⟩) (standing h [f, g, p] v 7 (t + 1))
      (apply v [.wrapInt (3 * n)] ⟨7⟩) (standing h [f, g, p, v] v 7 (t + 1)) :=
    continues_applyResult hfit hn (by decide) ⟨7⟩
  obtain ⟨r, hc, hheld⟩ := F.closure hv
  have haddress : Word.codeAddress (w := w) 7 = .ok (.wrapInt 7) :=
    Word.codeAddress_of_digit (by decide)
  have henter := takes_enter (m := m) (q := standing h [f, g, p, v] v 7 (t + 1)) haddress size_two
    hheld (show 11 ≤ m.maxStackWords by omega) [.wrapInt (3 * n)]
  have happly := takes_apply_of_eq hc (by rw [PartialApplication.captured_view]; rfl) henter
  exact (leads_of_code rfl rfl rfl (hcontinues.takes happly)).trans (leads_add3 haddress (by simp))

/-! ### Too many arguments -/

/-- The pending block of the last application, over temporaries: its continuation, the arguments
that are left, and their number. -/
def pending (vs : List (Word w)) : List (Word w) :=
  vs ++ .wrapInt 8 :: ([.wrapInt 1, .wrapInt 2] ++ [.wrapInt 2])

/-- The frame of the function that gives the adding function its first argument, over the pending
block. -/
def entered (h : Heap w) (vs : List (Word w)) (v : Word w) (n : Int) (mark steps : Nat) : Pose w :=
  (standing h (pending vs) v mark steps).opened (.wrapInt 1) (.wrapInt 2) [.wrapInt n]

/-- Two of the arguments are left for later. -/
theorem leads_third (hroom : 16 ≤ m.maxStackWords) (hn : w.minInt ≤ n ∧ n ≤ w.maxInt)
    {ks : Closed w} (F : h.Furnished s room ks) (hg : (g, giving) ∈ ks) :
    Leads m (table n) ⟨7⟩ (standing h [f, g, p, v] (.wrapInt x) 11 t) ⟨3⟩
      (entered h [f, g, p, v, .wrapInt x] (.wrapInt x) n 11 (t + 1)) := by
  obtain ⟨r, hc, hheld⟩ := F.closure hg
  have haddress : Word.codeAddress (w := w) 8 = .ok (.wrapInt 8) :=
    Word.codeAddress_of_digit (by decide)
  have hpending : Word.codeAddress (w := w) Label.applyPending.id = .ok (.wrapInt 1) :=
    Word.codeAddress_of_digit (by decide)
  have hcount : Word.size (w := w) [Word.wrapInt (w := w) 1, .wrapInt 2].length =
      .ok (.wrapInt 2) := size_two
  have henter := takes_enter (m := m)
    (q := standing h (pending [f, g, p, v, .wrapInt x]) (.wrapInt x) 11 (t + 1)) hpending size_two
    hheld (show 14 ≤ m.maxStackWords by omega) [.wrapInt n]
  have happly := takes_apply_of_gt (m := m)
    (q := standing h [f, g, p, v, .wrapInt x] (.wrapInt x) 11 (t + 1)) hc
    (by rw [PartialApplication.captured_view]; rfl) (by simp) haddress hcount
    (show 11 ≤ m.maxStackWords by omega) henter
  have hpush : m.Takes (pushLocal (.wrapInt x)) (standing h [f, g, p, v] (.wrapInt x) 11 (t + 1)) ()
      (standing h [f, g, p, v, .wrapInt x] (.wrapInt x) 11 (t + 1)) :=
    takes_pushLocal (show 7 ≤ m.maxStackWords by omega)
  exact leads_of_code rfl rfl rfl <| takes_lastResult.bind <| hpush.bind <|
    (takes_slot rfl (show 3 < sizeRange by decide)).bind <| (takes_int hn).bind <|
    (takes_int (w.digit_range (by decide))).bind <|
    (takes_int (w.digit_range (by decide))).bind happly

theorem moved_entered (ρ : Nat → Nat) (h' : Heap w) :
    (entered h [f, g, p, v, .wrapInt x] (.wrapInt x) n k t).moved ρ h' =
      entered h' [f.move ρ, g.move ρ, p.move ρ, v.move ρ, .wrapInt x] (.wrapInt x) n k t := by
  simp only [entered, standing, pending, Pose.opened, Pose.slots, Pose.moved, List.map_append,
    List.map_cons, List.map_nil, Word.move_wrapInt, List.length_append, List.length_cons,
    List.length_nil]

/-- The last closure is made beside the other four. -/
theorem adder_cases
    (F : h.Furnished s room [(v, adding [n, 2 * n] (by simp)), (p, adding [n] (by simp)),
      (g, giving), (f, adding [] (by simp))]) (hcount : t + 1 < sizeRange)
    (hfifteen : 15 ≤ s.maxWords) :
    Starves m n s room ⟨3⟩ (entered h [f, g, p, v, .wrapInt x] (.wrapInt x) n 11 t) ∨
      (19 ≤ s.maxWords ∧ ∃ h' f' g' p' v' c ks,
        h'.Furnished s room ((c, adding [n] (by simp)) :: ks) ∧
        Leads m (table n) ⟨3⟩ (entered h [f, g, p, v, .wrapInt x] (.wrapInt x) n 11 t) .applyPending
          (standing h' (pending [f', g', p', v', .wrapInt x]) c 14 (t + 1))) := by
  have hrefers : (entered h [f, g, p, v, .wrapInt x] (.wrapInt x) n 11 (t + 1)).Refers
      [(v, adding [n, 2 * n] (by simp)), (p, adding [n] (by simp)), (g, giving),
        (f, adding [] (by simp))] := by
    intro u r hu
    simp only [entered, standing, pending, Pose.opened, Pose.slots, List.mem_cons, List.mem_append,
      List.not_mem_nil, or_false, false_or, Word.ne_wrapInt hu, List.map_cons, List.map_nil]
    tauto
  obtain ⟨hgrow, hstop⟩ | ⟨hfull, hstop⟩ | ⟨hfits, h₁, ρ, hready, F₁, hlimit⟩ :=
    checkpoint_closed (m := m) F hrefers 4
  · exact .inl (starves_of_trap hgrow (show 19 ≤ 19 by decide)
      (fails_of_code (l := ⟨3⟩) rfl rfl hcount hstop.bind))
  · have hfull : s.maxWords < 19 := hfull
    have hshort : shortage s.maxWords = ⟨4, 15, s.maxWords⟩ := by
      rw [shortage, if_neg (by omega), if_neg (by omega), if_neg (by omega)]
    exact .inl (starves_of_shortage hfull hshort
      (fails_of_code (l := ⟨3⟩) rfl rfl hcount hstop.bind))
  rw [moved_entered] at hready
  obtain ⟨h₂, c, F₂, _, _, hmake⟩ := takes_makeClosure (m := m)
    (q := entered h₁ [f.move ρ, g.move ρ, p.move ρ, v.move ρ, .wrapInt x] (.wrapInt x) n 11 (t + 1))
    F₁ (adding [n] (by simp)) hlimit.ge
  have hpending : Word.codeAddress (w := w) Label.applyPending.id = .ok (.wrapInt 1) :=
    Word.codeAddress_of_digit (by decide)
  have hret : m.Takes (ret c)
      (entered h₂ [f.move ρ, g.move ρ, p.move ρ, v.move ρ, .wrapInt x] (.wrapInt x) n 11 (t + 1))
      .applyPending (standing h₂ (pending [f.move ρ, g.move ρ, p.move ρ, v.move ρ, .wrapInt x]) c 14
        (t + 1)) :=
    takes_ret (q := standing h₂ (pending [f.move ρ, g.move ρ, p.move ρ, v.move ρ, .wrapInt x]) c 11
      (t + 1)) hpending size_two (w.digit_range (n := 2) (by decide)).2 rfl
  have hcode : m.Takes (adder add3Function)
      (entered h₁ [f.move ρ, g.move ρ, p.move ρ, v.move ρ, .wrapInt x] (.wrapInt x) n 11 (t + 1))
      _ _ :=
    (takes_slot rfl (show 13 < sizeRange by decide)).bind (hmake.bind hret)
  exact .inr ⟨hfits, h₂, _, _, _, _, c, _, F₂,
    leads_of_step (by decide) (takes_step rfl rfl hready hcode) rfl⟩

/-- The closure that was returned is applied to the arguments that were left. -/
theorem leads_pending (hroom : 16 ≤ m.maxStackWords) {ks : Closed w} (F : h.Furnished s room ks)
    (hc : (c, adding [n] (by simp)) ∈ ks) :
    Leads m (table n) .applyPending (standing h (pending [f, g, p, v, .wrapInt x]) c 14 t) ⟨8⟩
      (standing h [f, g, p, v, .wrapInt x] (.wrapInt (n + 1 + 2)) 14 (t + 2)) := by
  obtain ⟨r, hview, hheld⟩ := F.closure hc
  have haddress : Word.codeAddress (w := w) 8 = .ok (.wrapInt 8) :=
    Word.codeAddress_of_digit (by decide)
  have hcount : Word.size (w := w) [Word.wrapInt (w := w) 1, .wrapInt 2].length =
      .ok (.wrapInt 2) := size_two
  have henter := takes_enter (m := m) (q := standing h [f, g, p, v, .wrapInt x] c 14 (t + 1))
    haddress size_two hheld (show 12 ≤ m.maxStackWords by omega) [.wrapInt 1, .wrapInt 2]
  have happly := takes_apply_of_eq hview (by rw [PartialApplication.captured_view]; rfl) henter
  have hpending := takes_applyPending (m := m)
    (q := standing h (pending [f, g, p, v, .wrapInt x]) c 14 (t + 1)) haddress hcount
    (w.digit_range (n := 2) (by decide)).2 rfl happly
  exact (leads_applyPending hpending rfl).trans (leads_add3 haddress (by simp))

/-- The two sums are added. -/
theorem leads_finish :
    Leads m (table n) ⟨8⟩ (standing h [f, g, p, v, .wrapInt x] (.wrapInt y) 14 t) .programEnd
      { heap := h, beneath := [], locals := [], result := .wrapInt (x + y), mark := 14
        steps := t + 1 } :=
  leads_of_code rfl rfl rfl <| (takes_slot rfl (show 6 < sizeRange by decide)).bind <|
    takes_lastResult.bind <| (takes_lift (Fixnum.add_wrapInt x y)).bind <| takes_ret_end rfl

/-- From the first label to the end. -/
theorem run_cases (hroom : 16 ≤ m.maxStackWords) (hn : w.minInt ≤ n ∧ n ≤ w.maxInt)
    (B : h.Bounded) (hs : h.settings = s) :
    Starves m n s h.capacity ⟨4⟩ (entryPose h) ∨ (19 ≤ s.maxWords ∧ ∃ h',
      Leads m (table n) ⟨4⟩ (entryPose h) .programEnd
        { heap := h', beneath := [], locals := [], result := .wrapInt (7 * n + 3), mark := 14
          steps := 9 }) := by
  obtain hstarves | ⟨hten, h₁, f₁, g₁, p₁, F₁, hmain⟩ := main_cases (m := m) hroom hn B hs
  · exact .inl hstarves
  obtain hstarves | ⟨hfifteen, h₂, f₂, g₂, p₂, v₂, F₂, hfirst⟩ :=
    first_cases (m := m) (t := 1) hroom hn F₁ (by decide) hten
  · exact .inl (hstarves.after hmain)
  have hsecond := leads_second (m := m) (f := f₂) (g := g₂) (p := p₂) (t := 2) hroom hn F₂
    List.mem_cons_self
  have hthird := leads_third (m := m) (f := f₂) (g := g₂) (p := p₂) (v := v₂)
    (x := n + 2 * n + 3 * n) (t := 4) hroom hn F₂ (by simp)
  have hcall := hmain.trans (hfirst.trans (hsecond.trans hthird))
  obtain hstarves | ⟨hfits, h₃, f₃, g₃, p₃, v₃, c, ks, F₃, hadder⟩ :=
    adder_cases (m := m) (x := n + 2 * n + 3 * n) (t := 5) F₂ (by decide) hfifteen
  · exact .inl (hstarves.after hcall)
  have hsum : n + 2 * n + 3 * n + (n + 1 + 2) = 7 * n + 3 := by omega
  rw [← hsum]
  exact .inr ⟨hfits, h₃, hcall.trans (hadder.trans
    ((leads_pending hroom F₃ List.mem_cons_self).trans leads_finish))⟩

end

variable {s : MachineSettings} {n : Int}

/-- On a machine that nothing has trapped on before, nineteen words of heap are what the program needs,
and with less it ends at the first checkpoint that does not get its words. Fourteen words of stack
suffice, so it overflows no stack that is admitted. It can trap instead only if the maximum is more
than there can be room for, and the capacity is more than half of that. -/
theorem curry_exact_need (hvalid : s.validate w = .ok ()) (hn : w.minInt ≤ n ∧ n ≤ w.maxInt)
    (journal : Journal w) :
    ∃ p journal', (declare n).program journal = .ok (p, journal') ∧
      (∀ (sink : Sink w) (journal : Journal w),
        if s.heap.initialWords ≤ w.maxSpaceWords then ∃ m, create s sink journal = .ok m
        else create s sink journal = .error (.bounds, journal.recordMaking s.heap)) ∧
      ∀ m, Intact s m →
        (w.maxSpaceWords < s.heap.maxWords ∧ w.maxSpaceWords < 2 * m.heap.capacity ∧
          ∃ m', Settles m p (.error (.trap .bounds) m')) ∨
        if 19 ≤ s.heap.maxWords then
          ∃ v m', Settles m p (.ok v m') ∧ v.Represents (7 * n + 3) ∧
            m'.stack.highWater = 14 ∧ m'.steps = 9
        else ∃ m', Settles m p (.error (.error (.outOfMemory (shortage s.heap.maxWords))) m') := by
  obtain ⟨journal', hbuilt⟩ := program_declare n journal
  refine ⟨table n, journal', hbuilt, create_of_valid hvalid, fun m hm => ?_⟩
  have hroom : 16 ≤ m.maxStackWords := hm.served.stack.2.1
  have htwo : 2 ≤ m.maxStackWords := le_trans (by decide) hroom
  obtain (⟨hgrow, hfail⟩ | ⟨hfull, hfail⟩) | ⟨hfits, h', hlead⟩ :=
    run_cases (m := m.hosting (table n)) hroom hn hm.made.heap hm.made.settings
  · have hhalf : w.maxSpaceWords < 2 * m.heap.capacity := by
      have hneed := hgrow.need_lt
      have hroom : 38 ≤ w.maxSpaceWords := by cases w <;> decide
      omega
    exact .inl ⟨hgrow.max_lt, hhalf, hfail.settles rfl htwo⟩
  · rw [if_neg (Nat.not_le.mpr hfull)]
    exact .inr (hfail.settles rfl htwo)
  · rw [if_pos hfits]
    obtain ⟨m', hsettles, _, hmark, hsteps⟩ :=
      hlead.settles rfl htwo (show 9 < sizeRange by decide) rfl rfl
    exact .inr ⟨_, m', hsettles, Word.represents_wrapInt _, hmark, hsteps⟩

/-- A heap that may grow to just the words that are needed, and the least stack. -/
def frugal : MachineSettings := ⟨⟨1, 19, 1.0⟩, 16⟩

/-- Nineteen words are enough and sixteen are not. -/
theorem curry_exact_need_frugal :
    frugal.validate .bits64 = .ok () ∧ snug.validate .bits64 = .ok () ∧
      (∃ p journal', (declare 3).program {} = .ok (p, journal') ∧
        ∃ v m', Settles (blank frugal : Machine .bits64) p (.ok v m') ∧ v.Represents (7 * 3 + 3) ∧
          m'.stack.highWater = 14 ∧ m'.steps = 9) ∧
      ∃ p journal', (declare 3).program {} = .ok (p, journal') ∧
        ∃ m', Settles (blank snug : Machine .bits64) p
          (.error (.error (.outOfMemory ⟨4, 15, 16⟩)) m') := by
  have hfrugal : frugal.validate .bits64 = .ok () := by decide +kernel
  have hsnug : snug.validate .bits64 = .ok () := by decide +kernel
  obtain ⟨p, journal', hp, _, hrun⟩ :=
    curry_exact_need (n := 3) hfrugal (by decide) ({} : Journal .bits64)
  obtain ⟨q, journal'', hq, _, hrun'⟩ :=
    curry_exact_need (n := 3) hsnug (by decide) ({} : Journal .bits64)
  have hintact : Intact frugal (blank frugal : Machine .bits64) :=
    .fresh (create_blank hfrugal (by decide))
  have hintact' : Intact snug (blank snug : Machine .bits64) :=
    .fresh (create_blank hsnug (by decide))
  have hsmall : ¬ Width.bits64.maxSpaceWords < frugal.heap.maxWords := by decide
  have hsmall' : ¬ Width.bits64.maxSpaceWords < snug.heap.maxWords := by decide
  refine ⟨hfrugal, hsnug, ⟨p, journal', hp, ?_⟩, q, journal'', hq, ?_⟩
  · exact (hrun _ hintact).resolve_left fun htrap => hsmall htrap.1
  · exact (hrun' _ hintact').resolve_left fun htrap => hsmall' htrap.1

/-- With valid settings there may be no machine that could apply the closures. -/
theorem curry_overlarge_traps :
    overlarge.validate .bits64 = .ok () ∧
      (∃ p journal', (declare 3 : Declare .bits64 Label).program {} = .ok (p, journal')) ∧
      ∀ (sink : Sink .bits64) (journal : Journal .bits64),
        create overlarge sink journal = .error (.bounds, journal.recordMaking overlarge.heap) :=
  ⟨validate_overlarge, ⟨_, program_declare 3 {}⟩, create_overlarge⟩

end Trampoline.Demo.Curry
