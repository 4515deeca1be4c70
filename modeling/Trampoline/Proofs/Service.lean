import Trampoline.Proofs.Conduct
import Trampoline.Proofs.Uids

/-!
Machines in service.

Whatever a machine has been used for, operations, programs of bodies or sample programs, what
operations keep is kept. For a sample program this is read off its declarations: code that a label is
bound to consists of operations of the machine. So as long as nothing has trapped, the heap is in
order and the settings are those that the machine was made with.
-/

namespace Trampoline

variable {w : Width} {α β : Type}

/-! ### Code that declarations bind -/

/-- All code in the table of slots has the property. -/
def Builder.Consists (P : Code w → Prop) (b : Builder w (Code w)) : Prop :=
  ∀ (i : Nat) (name : String) (maxAlloc : Nat) (code : Code w),
    b.slots[i]? = some ⟨name, maxAlloc, some code⟩ → P code

namespace Declare

/-- All code that the declarations bind has the property. -/
def Binds (P : Code w → Prop) (d : Declare w α) : Prop :=
  ∀ b a b', b.Consists P → d b = .ok a b' → b'.Consists P

variable {P : Code w → Prop}

theorem Binds.pure (a : α) : Binds P (Pure.pure a : Declare w α) := by
  intro b _ b' hb h
  cases h
  exact hb

theorem Binds.throw (e : Fault w ProgramError) :
    Binds P (MonadExcept.throw e : Declare w α) := by
  intro b _ b' _ h
  cases h

theorem Binds.bind {d : Declare w α} {f : α → Declare w β} (hd : Binds P d)
    (hf : ∀ a, Binds P (f a)) : Binds P (d >>= f) := by
  intro b c b' hb h
  obtain ⟨a, b₁, hda, hfa⟩ := of_bind_eq_ok h
  exact hf a b₁ c b' (hd b a b₁ hb hda) hfa

theorem Consists.push {b b' : Builder w (Code w)} (hb : b.Consists P) {name : String}
    (hslots : b'.slots = b.slots.push { name }) : b'.Consists P := by
  intro i name' maxAlloc code hi
  rw [hslots, Array.getElem?_push] at hi
  split at hi
  · cases hi
  · exact hb i name' maxAlloc code hi

theorem binds_label (name : String) : Binds P (Builder.label name) := by
  intro b _ b' hb h
  cases h
  exact Consists.push hb rfl

/-- Binding a label to code with the property. -/
theorem binds_bind (l : Label) (maxAlloc : Nat) {code : Code w} (hcode : P code) :
    Binds P (Builder.bind l maxAlloc code) := by
  intro b a b' hb h
  obtain ⟨_, _, _, _, rfl⟩ := Builder.bind_eq_ok h
  intro i name' maxAlloc' code' hi
  simp only [Array.getElem?_setIfInBounds] at hi
  split at hi
  · split at hi
    · cases hi
      exact hcode
    · cases hi
  · exact hb i name' maxAlloc' code' hi

theorem binds_function (name : String) (arity maxAlloc : Nat) :
    Binds P (Builder.function name arity maxAlloc) := by
  intro b f b' hb h
  obtain ⟨_, _, rfl⟩ := Builder.function_eq_ok h
  exact Consists.push hb rfl

theorem binds_define (f : Function) {code : Code w} (hcode : P code) :
    Binds P (Builder.define f code) :=
  binds_bind f.label f.maxAlloc hcode

theorem binds_constructor (name : String) (fields : Nat) (r : Representation) :
    Binds P (Builder.constructor name fields r) := by
  intro b c b' hb h
  obtain ⟨_, rfl⟩ := Builder.constructor_eq_ok h
  exact hb

theorem binds_caseOf (arms : List (Arm Label)) : Binds P (caseOf (w := w) arms) := by
  unfold caseOf
  split
  · exact .throw _
  · split
    · exact .throw _
    · exact .pure _

/-- The code of a program is what its declarations bind. -/
theorem code_of_program {d : Declare w Label} (hd : Binds P d) {journal journal' : Journal w}
    {p : Program (Code w)} (h : d.program journal = .ok (p, journal')) {label : Label}
    {name : String} {maxAlloc : Nat} {code : Code w}
    (hs : p.slot? label = some ⟨name, maxAlloc, some code⟩) : P code := by
  obtain ⟨entry, b, hdeclare, h⟩ : ∃ entry b, d .empty = .ok entry b ∧
      b.build entry journal = .ok (p, journal') := by
    unfold program at h
    split at h
    · next hdeclare => exact ⟨_, _, hdeclare, h⟩
    · cases h
  have hempty : Builder.Consists P (.empty : Builder w (Code w)) := by
    intro i name maxAlloc code hi
    match i with
    | 0 => cases hi
    | 1 => cases hi
    | i + 2 => cases hi
  have hb := hd _ _ _ hempty hdeclare
  have hslots : p.slots = b.slots := by
    unfold Builder.build at h
    split at h
    · cases h
    · dsimp only at h
      split at h
      · split at h
        · cases h
        · cases h
          rfl
      · cases h
        rfl
  rw [Program.slot?, hslots] at hs
  exact hb _ _ _ _ hs

/-- Declarations that leave no label without code, and an entry among the labels, make a program. -/
theorem program_of_bound {d : Declare w Label} {entry : Label} {b : Builder w (Code w)}
    (hd : d .empty = .ok entry b) (hbound : b.unbound? = none) {slot : Slot (Code w)}
    (hentry : b.slots[entry.index]? = some slot) (journal : Journal w) :
    ∃ journal', d.program journal = .ok (⟨b.slots, entry, b.names⟩, journal') := by
  have hbuild : d.program journal = b.build entry journal := by
    unfold program
    rw [hd]
  rw [hbuild, Builder.build, hbound]
  dsimp only
  rw [hentry]
  split
  · exact ⟨_, rfl⟩
  · exact ⟨_, rfl⟩

/-- The slots of a program, where the labels from `k` on have no code yet. -/
def sketch (slots : List (Slot (Code w))) (k : Nat) : Array (Slot (Code w)) :=
  (slots.take k ++ (slots.drop k).map fun s => ({ name := s.name } : Slot (Code w))).toArray

/-- The labels are bound one after the other. -/
theorem bind_sketch {slots : List (Slot (Code w))} {l : Label} {name : String} {maxAlloc : Nat}
    {code : Code w} (hl : l.isReserved = false)
    (hs : slots[l.index]? = some ⟨name, maxAlloc, some code⟩) (names : Names) (uid : Nat) :
    (Builder.bind l maxAlloc code : Declare w Unit) ⟨sketch slots l.index, names, uid⟩ =
      .ok () ⟨sketch slots (l.index + 1), names, uid⟩ := by
  obtain ⟨hlt, hget⟩ := List.getElem?_eq_some_iff.mp hs
  have hlen : (slots.take l.index).length = l.index := List.length_take_of_le hlt.le
  have hdrop : slots.drop l.index = ⟨name, maxAlloc, some code⟩ :: slots.drop (l.index + 1) := by
    rw [List.drop_eq_getElem_cons hlt, hget]
  have hslot : (sketch slots l.index)[l.index]? = some { name } := by
    rw [sketch, List.getElem?_toArray, List.getElem?_append_right hlen.le, hlen, Nat.sub_self,
      hdrop]
    rfl
  have hset : (sketch slots l.index).setIfInBounds l.index ⟨name, maxAlloc, some code⟩ =
      sketch slots (l.index + 1) := by
    rw [sketch, sketch, List.setIfInBounds_toArray, List.set_append_right _ _ hlen.le, hlen,
      Nat.sub_self, hdrop, List.take_add_one, hs]
    simp
  simp [Builder.bind_apply, hslot, hl, hset]

end Declare

/-! ### Sample programs -/

namespace Demo

open Machine

variable {I J : Machine w → Prop}

theorem ensures_lift (r : Except (Trap w) α) : Ensures I J (fun _ => True) (liftM r : Op w α) :=
  ensures_except fun _ _ => trivial

theorem ensures_int (n : Int) : Ensures I J (fun _ => True) (int n : Op w (Word w)) := ensures_lift _

theorem ensures_lastResult : Ensures I J (fun _ => True) (lastResult (w := w)) :=
  .get fun _ => .pure _

variable (C : Conserved I J fun _ => True)

include C

theorem ensures_apply (v : Word w) (vs : List (Word w)) (k : Label) :
    Ensures I J (fun _ => True) (apply v vs k) :=
  C.apply v vs fun _ _ => trivial

theorem ensures_call (l : Label) (vs : List (Word w)) (k : Label) :
    Ensures I J (fun _ => True) (call l vs k) :=
  C.call l vs fun _ _ => trivial

theorem binds_toplevel :
    (Toplevel.declare : Declare w Label).Binds (Ensures I J fun _ => True) :=
  .bind (Declare.binds_label _) fun _ =>
    .bind (Declare.binds_bind _ _ (.bind (ensures_int _) fun _ => C.ret _)) fun _ => .pure _

/-- All code of the loop keeps what operations keep. -/
theorem binds_sumLoop (n : Int) :
    (SumLoop.declare n : Declare w Label).Binds (Ensures I J fun _ => True) := by
  refine .bind (Declare.binds_label _) fun _ => .bind (Declare.binds_label _) fun _ =>
    .bind (Declare.binds_label _) fun _ => .bind (Declare.binds_label _) fun _ =>
    .bind (Declare.binds_bind _ _ ?start) fun _ => .bind (Declare.binds_bind _ _ ?test) fun _ =>
    .bind (Declare.binds_bind _ _ ?step) fun _ => .bind (Declare.binds_bind _ _ ?done) fun _ =>
    .pure _
  case start =>
    exact .bind (ensures_int _) fun _ => .bind (ensures_int _) fun _ => C.tailCall _ _
  case test =>
    exact .bind (Conserved.slot _) fun _ => .bind (ensures_int _) fun _ =>
      .bind (ensures_lift _) fun _ => Conserved.branch _ _ _
  case step =>
    exact .bind (Conserved.slot _) fun _ => .bind (Conserved.slot _) fun _ =>
      .bind (ensures_int _) fun _ => .bind (ensures_lift _) fun _ => .bind (ensures_lift _) fun _ =>
      C.tailCall _ _
  case done => exact .bind (Conserved.slot _) fun _ => C.ret _

/-- All code of the recursion keeps what operations keep. -/
theorem binds_fib (n : Int) :
    (Fib.declare n : Declare w Label).Binds (Ensures I J fun _ => True) := by
  refine .bind (Declare.binds_label _) fun _ => .bind (Declare.binds_function _ _ _) fun _ =>
    .bind (Declare.binds_label _) fun _ => .bind (Declare.binds_label _) fun _ =>
    .bind (Declare.binds_label _) fun _ => .bind (Declare.binds_label _) fun _ =>
    .bind (Declare.binds_bind _ _ ?start) fun _ => .bind (Declare.binds_define _ ?test) fun _ =>
    .bind (Declare.binds_bind _ _ ?small) fun _ => .bind (Declare.binds_bind _ _ ?big) fun _ =>
    .bind (Declare.binds_bind _ _ ?first) fun _ => .bind (Declare.binds_bind _ _ ?second) fun _ =>
    .pure _
  case start => exact .bind (ensures_int _) fun _ => C.tailCall _ _
  case test =>
    exact .bind (Conserved.slot _) fun _ => .bind (ensures_int _) fun _ =>
      .bind (ensures_lift _) fun _ => Conserved.branch _ _ _
  case small => exact .bind (Conserved.slot _) fun _ => C.ret _
  case big =>
    exact .bind (Conserved.slot _) fun _ => .bind (ensures_int _) fun _ =>
      .bind (ensures_lift _) fun _ => ensures_call C _ _ _
  case first =>
    exact .bind ensures_lastResult fun _ => .bind (C.pushLocal _) fun _ =>
      .bind (Conserved.slot _) fun _ => .bind (ensures_int _) fun _ =>
      .bind (ensures_lift _) fun _ => ensures_call C _ _ _
  case second =>
    exact .bind (Conserved.slot _) fun _ => .bind ensures_lastResult fun _ =>
      .bind (ensures_lift _) fun _ => C.ret _

theorem ensures_applyResult (n factor : Int) (k : Label) :
    Ensures I J (fun _ => True) (Curry.applyResult n factor k) :=
  .bind ensures_lastResult fun _ => .bind (C.pushLocal _) fun _ => .bind (ensures_int _) fun _ =>
    .bind (ensures_int _) fun _ => .bind (ensures_lift _) fun _ => ensures_apply C _ _ _

/-- All code of the curried sum keeps what operations keep. -/
theorem binds_curry (n : Int) :
    (Curry.declare n : Declare w Label).Binds (Ensures I J fun _ => True) := by
  refine .bind (Declare.binds_function _ _ _) fun _ => .bind (Declare.binds_function _ _ _) fun _ =>
    .bind (Declare.binds_label _) fun _ => .bind (Declare.binds_label _) fun _ =>
    .bind (Declare.binds_label _) fun _ => .bind (Declare.binds_label _) fun _ =>
    .bind (Declare.binds_label _) fun _ => .bind (Declare.binds_define _ ?add3) fun _ =>
    .bind (Declare.binds_define _ ?adder) fun _ => .bind (Declare.binds_bind _ _ ?start) fun _ =>
    .bind (Declare.binds_bind _ _ (ensures_applyResult C _ _ _)) fun _ =>
    .bind (Declare.binds_bind _ _ (ensures_applyResult C _ _ _)) fun _ =>
    .bind (Declare.binds_bind _ _ ?surplus) fun _ => .bind (Declare.binds_bind _ _ ?finish) fun _ =>
    .pure _
  case add3 =>
    exact .bind (Conserved.slot _) fun _ => .bind (Conserved.slot _) fun _ =>
      .bind (ensures_lift _) fun _ => .bind (Conserved.slot _) fun _ =>
      .bind (ensures_lift _) fun _ => C.ret _
  case adder =>
    exact .bind (Conserved.slot _) fun _ => .bind (C.makeClosure _ _) fun _ => C.ret _
  case start =>
    exact .bind (C.makeClosure _ _) fun _ => .bind (C.makeClosure _ _) fun _ =>
      .bind (C.pushLocal _) fun _ => .bind (C.pushLocal _) fun _ => .bind (ensures_int _) fun _ =>
      ensures_apply C _ _ _
  case surplus =>
    exact .bind ensures_lastResult fun _ => .bind (C.pushLocal _) fun _ =>
      .bind (Conserved.slot _) fun _ => .bind (ensures_int _) fun _ =>
      .bind (ensures_int _) fun _ => .bind (ensures_int _) fun _ => ensures_apply C _ _ _
  case finish =>
    exact .bind (Conserved.slot _) fun _ => .bind ensures_lastResult fun _ =>
      .bind (ensures_lift _) fun _ => C.ret _

/-- All code of the list keeps what operations keep. -/
theorem binds_listSum (n : Int) :
    (ListSum.declare n : Declare w Label).Binds (Ensures I J fun _ => True) := by
  refine .bind (Declare.binds_constructor _ _ _) fun _ =>
    .bind (Declare.binds_constructor _ _ _) fun _ =>
    .bind (Declare.binds_label _) fun _ => .bind (Declare.binds_label _) fun _ =>
    .bind (Declare.binds_label _) fun _ => .bind (Declare.binds_label _) fun _ =>
    .bind (Declare.binds_label _) fun _ => .bind (Declare.binds_label _) fun _ =>
    .bind (Declare.binds_label _) fun _ => .bind (Declare.binds_caseOf _) fun _ =>
    .bind (Declare.binds_bind _ _ ?start) fun _ => .bind (Declare.binds_bind _ _ ?test) fun _ =>
    .bind (Declare.binds_bind _ _ ?step) fun _ => .bind (Declare.binds_bind _ _ ?built) fun _ =>
    .bind (Declare.binds_bind _ _ ?sum) fun _ => .bind (Declare.binds_bind _ _ ?sumNil) fun _ =>
    .bind (Declare.binds_bind _ _ ?sumCons) fun _ => .pure _
  case start =>
    exact .bind (ensures_lift _) fun _ => .bind (ensures_int _) fun _ => C.tailCall _ _
  case test =>
    exact .bind (Conserved.slot _) fun _ => .bind (ensures_int _) fun _ =>
      .bind (ensures_lift _) fun _ => Conserved.branch _ _ _
  case step =>
    exact .bind (Conserved.slot _) fun _ => .bind (Conserved.slot _) fun _ =>
      .bind (C.construct _ _) fun _ => .bind (ensures_int _) fun _ =>
      .bind (ensures_lift _) fun _ => C.tailCall _ _
  case built =>
    exact .bind (Conserved.slot _) fun _ => .bind (ensures_int _) fun _ => C.tailCall _ _
  case sum => exact .bind (Conserved.slot _) fun _ => C.select _ _
  case sumNil => exact .bind (Conserved.slot _) fun _ => C.ret _
  case sumCons =>
    exact .bind (Conserved.slot _) fun _ => .bind (Conserved.slot _) fun _ =>
      .bind (.get fun _ => ensures_lift _) fun _ => .bind (.get fun _ => ensures_lift _) fun _ =>
      .bind (ensures_lift _) fun _ => C.tailCall _ _

/-- All code of the pairs keeps what operations keep. -/
theorem binds_pairs (n : Int) :
    (Pairs.declare n : Declare w Label).Binds (Ensures I J fun _ => True) := by
  refine .bind (Declare.binds_label _) fun _ => .bind (Declare.binds_label _) fun _ =>
    .bind (Declare.binds_bind _ _ ?start) fun _ => .bind (Declare.binds_bind _ _ ?swap) fun _ =>
    .pure _
  case start =>
    exact .bind (ensures_int _) fun _ => .bind (ensures_lift _) fun _ =>
      .bind (C.makePair _ _) fun _ => .bind (C.trace _) fun _ => C.tailCall _ _
  case swap =>
    exact .bind (Conserved.slot _) fun _ => .bind (.get fun _ => ensures_lift _) fun _ =>
      .bind (.get fun _ => ensures_lift _) fun _ => .bind (C.makePair _ _) fun _ => C.ret _

theorem ensures_consDown (cons : Constructor) (k : Nat) (list : Word w) :
    Ensures I J (fun _ => True) (EqualLists.consDown cons k list) := by
  induction k generalizing list with
  | zero => exact .pure _
  | succ k ih =>
    exact .bind (ensures_int _) fun _ => .bind (C.construct _ _) fun _ => ih _

theorem binds_equal (n : Int) :
    (EqualLists.declare n : Declare w Label).Binds (Ensures I J fun _ => True) :=
  .bind (Declare.binds_constructor _ _ _) fun _ => .bind (Declare.binds_constructor _ _ _) fun _ =>
    .bind (Declare.binds_label _) fun _ =>
    .bind (Declare.binds_bind _ _ (.bind (ensures_lift _) fun _ =>
      .bind (ensures_consDown C _ _ _) fun _ => .bind (ensures_consDown C _ _ _) fun _ =>
      .bind (Conserved.equalValues _ _) fun _ => C.ret _)) fun _ => .pure _

/-- The code of the sample programs keeps what operations keep. -/
theorem binds_declare {d : Demo} (hd : d ∈ all) (n : Int) :
    (d.declare w n).Binds (Ensures I J fun _ => True) := by
  simp only [all, List.mem_cons, List.not_mem_nil, or_false] at hd
  rcases hd with rfl | rfl | rfl | rfl | rfl | rfl | rfl
  · exact binds_toplevel C
  · exact binds_sumLoop C n
  · exact binds_fib C n
  · exact binds_curry C n
  · exact binds_listSum C n
  · exact binds_pairs C n
  · exact binds_equal C n

end Demo

/-! ### Machines that have been used -/

namespace Machine

variable {s : MachineSettings} {m : Machine w}

/-- Every common use keeps what is conserved. -/
theorem Conserved.common {I J : Machine w → Prop} (C : Conserved I J fun _ => True) {u : Use w}
    (hu : u.Common) : Ensures I J (fun _ => True) u.perform := by
  cases hu with
  | act a => exact C.perform a fun _ _ _ _ => trivial
  | bodies p fuel => exact .bind (C.run_bodies p (fun _ _ _ _ => trivial) fuel) fun _ => .pure _
  | @demo d n _ _ _ fuel hd hp =>
    have hbinds := Demo.binds_declare C hd n
    exact .bind (C.run (fun _ _ _ _ => Declare.code_of_program hbinds hp) fuel) fun _ => .pure _

/-- As long as nothing has trapped, the heap is in order and the settings are the same. -/
theorem Intact.made (h : Intact s m) : Made s m := by
  obtain ⟨held, h⟩ := h
  induction h with
  | fresh hc => exact (create_eq_ok hc).2
  | put _ _ hu hr hend ih =>
    subst hr
    exact (conserved_made.common hu).kept ih hend

/-! ### Machines that can be made -/

/-- The least stack has room for 16 words. -/
theorem validate_stack (h : s.validate w = .ok ()) : 16 ≤ s.maxStackWords := by
  unfold MachineSettings.validate at h
  obtain ⟨_, _, h⟩ := of_except_bind_eq_ok h
  by_contra hsmall
  rw [if_pos (by omega)] at h
  cases h

/-- With valid settings a machine is made if there can be room for the words to start with, and
otherwise the making traps. -/
theorem create_of_valid (hvalid : s.validate w = .ok ()) (sink : Sink w) (journal : Journal w) :
    if s.heap.initialWords ≤ w.maxSpaceWords then ∃ m, create s sink journal = .ok m
    else create s sink journal = .error (.bounds, journal.recordMaking s.heap) := by
  have hheap := (validate_machine hvalid).1
  split
  · next hroom =>
    unfold create
    rw [hvalid]
    simp only [Heap.create_vacant hheap hroom]
    exact ⟨_, rfl⟩
  · next hroom =>
    have hcreate : Heap.create s.heap = .error (.bounds : Trap w) := by
      unfold Heap.create
      rw [hheap]
      simp only [Size.ofWords, if_neg hroom]
      rfl
    unfold create
    rw [hvalid]
    simp only [hcreate]

/-- A heap with more words to start with than there can be room for. -/
def overlarge : MachineSettings := ⟨⟨2 ^ 60, 2 ^ 60, 0.5⟩, 16⟩

theorem validate_overlarge : overlarge.validate .bits64 = .ok () := by decide +kernel

theorem create_overlarge (sink : Sink .bits64) (journal : Journal .bits64) :
    create overlarge sink journal = .error (.bounds, journal.recordMaking overlarge.heap) := by
  have hroom : ¬ overlarge.heap.initialWords ≤ Width.bits64.maxSpaceWords := by decide
  have h := create_of_valid validate_overlarge sink journal
  rwa [if_neg hroom] at h

end Machine

end Trampoline
