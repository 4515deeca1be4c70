import Trampoline.Proofs.Calls
import Trampoline.Proofs.Integers

/-!
Bodies on twin machines.

A body that is run with care on one machine, and as it is on a twin of it, does the same on both:
expressions have related values, statements leave twins, and the transfer at the end, whose operands
are related, is the same. Blocks made by an expression are added to the pairs of blocks; only a
checkpoint, which is a statement or part of a transfer, may take pairs away.
-/

namespace Trampoline

variable {w : Width}

/-! ### Transfers as operations on their operands -/

namespace Transfer

def operands : Transfer w → List (Expr w)
  | jump _ => []
  | ret e => [e]
  | call _ args _ => args
  | tailCall _ args => args
  | branch e _ _ => [e]
  | select _ e => [e]
  | callClosure closure args _ => closure :: args
  | tailCallClosure closure args => closure :: args
  | apply closure args _ => closure :: args
  | tailApply closure args => closure :: args
  | fail e => [e]

def perform : Transfer w → List (Word w) → Op w Label
  | jump label, _ => pure label
  | call callee _ k, args => Machine.call callee args k
  | tailCall callee _, args => Machine.tailCall callee args
  | ret _, v :: _ => Machine.ret v
  | branch _ ifTrue ifFalse, v :: _ => Machine.branch v ifTrue ifFalse
  | select c _, v :: _ => Machine.select c v
  | callClosure _ _ k, cl :: args => Machine.callClosure cl args k
  | tailCallClosure _ _, cl :: args => Machine.tailCallClosure cl args
  | apply _ _ k, cl :: args => Machine.apply cl args k
  | tailApply _ _, cl :: args => Machine.tailApply cl args
  | fail _, v :: _ => Machine.failure v
  | _, [] => Machine.trap .bounds

/-- A transfer that does not tell references apart by their words. -/
def plain : Transfer w → Bool
  | select c _ => c.plain
  | _ => true

theorem exec_eq (t : Transfer w) :
    t.exec = Expr.evalList t.operands >>= fun vs => liftM (t.perform vs) := by
  cases t with
  | jump label => rfl
  | _ => simp [exec, operands, perform, Expr.evalList]

theorem careful_eq (t : Transfer w) :
    t.careful = Act.refuse (!t.plain) >>= fun _ =>
      Expr.carefulList t.operands >>= fun vs => liftM (t.perform vs) := by
  cases t with
  | jump label => rfl
  | _ => simp [careful, operands, perform, plain, Expr.carefulList, Act.refuse]

end Transfer

namespace Stmt

mutual

def transfers : Stmt w → List (Transfer w)
  | cond _ ifTrue ifFalse => transfersList ifTrue ++ transfersList ifFalse
  | rounds _ body => transfersList body
  | transfer t => [t]
  | _ => []

def transfersList : List (Stmt w) → List (Transfer w)
  | [] => []
  | s :: ss => s.transfers ++ transfersList ss

end

end Stmt

/-! ### Twin desks -/

/-- Twin machines, and related words in the registers that the left side knows of. -/
structure Desk.Twins (S : Scene w) (f : Nat) (W : Pairing) (d e : Desk w) : Prop where
  machine : Machine.Twins S f W d.machine e.machine
  registers : d.registers.Related (Word.Matched W.Links) e.registers

abbrev Desk.Outward (S : Scene w) (d e : Desk w) : Prop := Machine.Outward S d.machine e.machine

/-- Two actions that only add pairs of blocks, and return values related by `R`. -/
def Act.Builds {α β : Type} (S : Scene w) (f : Nat) (W : Pairing) (R : Pairing → α → β → Prop)
    (x : Act w α) (y : Act w β) : Prop :=
  ∀ V, W ⊆ V → ∀ d e, Desk.Twins S f V d e →
    Agree True (Desk.Outward S)
      (fun a b d' e' => ∃ V', V ⊆ V' ∧ Desk.Twins S f V' d' e' ∧ R V' a b) (x d) (y e)

theorem Registers.Related.grow {W V : Pairing} {r q : Registers w} (hWV : W ⊆ V)
    (h : r.Related (Word.Matched W.Links) q) : r.Related (Word.Matched V.Links) q := by
  intro name v hv
  obtain ⟨u, hu, hvu⟩ := h name v hv
  exact ⟨u, hu, Machine.Twins.matched_mono hWV hvu⟩

namespace Act.Builds

variable {α β γ δ : Type} {S : Scene w} {f : Nat} {W : Pairing} {R : Pairing → α → β → Prop}
  {Q : Pairing → γ → δ → Prop}

theorem pure {a : α} {b : β} (h : ∀ V, W ⊆ V → R V a b) :
    Builds (w := w) S f W R (Pure.pure a) (Pure.pure b) :=
  fun V hWV _ _ D => ⟨V, fun _ h => h, D, h V hWV⟩

theorem bind {x : Act w α} {y : Act w β} {g : α → Act w γ} {k : β → Act w δ}
    (h : Builds S f W R x y) (hg : ∀ V a b, W ⊆ V → R V a b → Builds S f V Q (g a) (k b)) :
    Builds S f W Q (x >>= g) (y >>= k) := by
  intro V hWV d e D
  refine Agree.bind (h V hWV d e D) ?_
  rintro a b d₁ e₁ ⟨V₁, hV₁, D₁, hab⟩
  have hWV₁ : W ⊆ V₁ := fun _ h => hV₁ (hWV h)
  refine (hg V₁ a b hWV₁ hab V₁ (fun _ h => h) d₁ e₁ D₁).mono ?_
  rintro c c' d₂ e₂ ⟨V₂, hV₂, D₂, hcc⟩
  exact ⟨V₂, fun _ h => hV₂ (hV₁ h), D₂, hcc⟩

/-- A question that only the careful side asks of itself. -/
theorem refuse {breach : Bool} {x : Act w α} {y : Act w β}
    (h : breach = false → Builds S f W R x y) :
    Builds S f W R (Act.refuse breach >>= fun _ => x) y := by
  cases breach with
  | true => exact fun _ _ _ _ _ => trivial
  | false => exact h rfl

/-- Operations of twin machines. -/
theorem op {x : Op w α} {y : Op w β}
    (h : ∀ V m n, W ⊆ V → Machine.Twins S f V m n →
      Machine.Twins.Alike S
        (fun a b m' n' => ∃ V', V ⊆ V' ∧ Machine.Twins S f V' m' n' ∧ R V' a b) (x m) (y n)) :
    Builds S f W R (liftM x) (liftM y) := by
  intro V hWV d e D
  refine (Agree.lift (h V d.machine e.machine hWV D.machine)).mono ?_
  rintro a b d₁ e₁ ⟨⟨V₁, hV₁, M₁, hab⟩, hd, he⟩
  exact ⟨V₁, hV₁, ⟨M₁, hd ▸ he ▸ D.registers.grow hV₁⟩, hab⟩

/-- Operations that make no blocks. -/
theorem read {x : Op w α} {y : Op w β}
    (h : ∀ V m n, W ⊆ V → Machine.Twins S f V m n →
      Machine.Twins.Alike S (fun a b m' n' => Machine.Twins S f V m' n' ∧ R V a b) (x m) (y n)) :
    Builds S f W R (liftM x) (liftM y) :=
  op fun V m n hWV M => (h V m n hWV M).mono fun _ _ _ _ ⟨M', hab⟩ => ⟨V, fun _ h => h, M', hab⟩

/-- What is looked at, and may trap. -/
theorem look {x : Desk w → Except (Trap w) α} {y : Desk w → Except (Trap w) β}
    (h : ∀ V d e a b, W ⊆ V → Desk.Twins S f V d e → x d = .ok a → y e = .ok b → R V a b) :
    Builds S f W R (get >>= fun d => Act.check (x d)) (get >>= fun e => Act.check (y e)) := by
  intro V hWV d e D
  change Agree _ _ _ (Act.check (x d) d) (Act.check (y e) e)
  cases hx : x d with
  | error t => trivial
  | ok a =>
    cases hy : y e with
    | error t => exact Agree.trap_right trivial
    | ok b => exact ⟨V, fun _ h => h, D, h V d e a b hWV D hx hy⟩

theorem check {x : Except (Trap w) α} {y : Except (Trap w) β}
    (h : ∀ V a b, W ⊆ V → x = .ok a → y = .ok b → R V a b) :
    Builds S f W R (Act.check x) (Act.check y) :=
  look fun V _ _ a b hWV _ hx hy => h V a b hWV hx hy

end Act.Builds

/-! ### Expressions -/

/-- Operands that pass the check are no references. -/
theorem Fixnum.check_eq_ok {a b : Word w} (h : Fixnum.check a b = .ok ()) :
    a.ref? = none ∧ b.ref? = none := by
  have htag : ∀ {v : Word w}, v.isInt = true → v.ref? = none := by
    intro v hv
    refine Word.ref?_eq_none_of_tag ?_
    have h0 : v.tag = 0 := by simpa [Word.isInt] using hv
    omega
  unfold Fixnum.check at h
  split at h
  · cases h
  · split at h
    · cases h
    · next ha hb => exact ⟨htag (by simpa using ha), htag (by simpa using hb)⟩

theorem Fixnum.ref?_wordwise (f : Word w → Word w → Word w) (a b : Word w) :
    (Fixnum.wordwise f a b).ref? = none := by
  rw [Fixnum.wordwise, Word.shiftLeft_two]
  exact Word.ref?_wrapInt _

/-- Arithmetic is done on small integers only, and gives words that are not references. -/
theorem Fixnum.Operator.apply_cases (op : Fixnum.Operator) (a b : Word w) :
    (∃ t, op.apply a b = .error (.trap t)) ∨
      a.ref? = none ∧ b.ref? = none ∧ ∀ v, op.apply a b = .ok v → v.ref? = none := by
  cases hp : Fixnum.check a b with
  | error t =>
    left
    exact ⟨t, by cases op <;> simp [apply, Fixnum.add, Fixnum.sub, Fixnum.mul, Fixnum.div,
      Fixnum.mod, Fixnum.lt, Fixnum.le, Fixnum.combine, Fixnum.divide, Fixnum.compare, hp, bind,
      Except.bind, Fixnum.total, Fixnum.quotient]⟩
  | ok _ =>
    right
    obtain ⟨ha, hb⟩ := Fixnum.check_eq_ok hp
    refine ⟨ha, hb, fun v hv => ?_⟩
    by_cases h0 : b.intValue = 0 <;> cases op <;>
      simp only [apply, Fixnum.add, Fixnum.sub, Fixnum.mul, Fixnum.div, Fixnum.mod, Fixnum.lt,
        Fixnum.le, Fixnum.combine_of_check hp, Fixnum.divide_of_check hp,
        Fixnum.compare_of_check hp, Fixnum.total, Fixnum.quotient, h0, if_true, if_false] at hv <;>
      cases hv <;> simp only [Fixnum.ref?_wordwise, Word.ref?_ofBool]

abbrev Act.Evaluates (S : Scene w) (f : Nat) (W : Pairing) (x y : Act w (Word w)) : Prop :=
  Act.Builds S f W (fun V v u => Word.Matched V.Links v u) x y

open Act (Builds Evaluates)

section

variable {S : Scene w} {f : Nat} {W : Pairing}

theorem Act.Builds.literal (l : Literal w) :
    Evaluates S f W (Expr.literal l).careful (Expr.literal l).eval := by
  intro V _ d e D
  unfold Expr.careful Expr.eval
  cases l.word with
  | error t => trivial
  | ok v =>
    cases hv : v.ref? with
    | some r =>
      simp only [Act.check, Act.refuse, pure_bind, hv, Option.isSome_some, if_true]
      trivial
    | none =>
      simp only [Act.check, Act.refuse, pure_bind, hv, Option.isSome_none]
      exact ⟨V, fun _ h => h, D, .refl_of_none hv⟩

theorem Act.Builds.register (name : String) :
    Evaluates S f W (Act.register name) (Act.register name) := by
  refine .look fun V d e v u _ D hv hu => ?_
  unfold Registers.get at hv hu
  cases hl : d.registers.entries.lookup name with
  | none => rw [hl] at hv; cases hv
  | some x =>
    obtain ⟨y, hy, hxy⟩ := D.registers name x hl
    rw [hl] at hv
    rw [hy] at hu
    cases hv
    cases hu
    exact hxy

/-- A field is read alike on both sides. -/
theorem Act.Builds.field {v u : Word w} (hvu : Word.Matched W.Links v u) (i : Nat) :
    Evaluates S f W
      (Act.heap (·.closure? v) >>= fun c => Act.refuse c.isSome >>= fun _ =>
        liftM (Machine.field v i))
      (liftM (Machine.field u i)) := by
  intro V hWV d e D
  cases hc : d.machine.heap.closure? v with
  | error t =>
    rw [bind_of_error (Act.heap_of_error hc)]
    trivial
  | ok c =>
    rw [bind_of_ok (Act.heap_of_ok hc)]
    cases c with
    | some c => trivial
    | none =>
      refine (Agree.lift (D.machine.field (Machine.Twins.matched_mono hWV hvu) i hc)).mono ?_
      rintro a b d₁ e₁ ⟨⟨M₁, hab⟩, hd, he⟩
      exact ⟨V, fun _ h => h, ⟨M₁, hd ▸ he ▸ D.registers⟩, hab⟩

/-- Two operands, the second evaluated after the first. -/
theorem Act.Builds.operands {α β γ : Type} {x y : Act w (Word w)} {x' y' : Act w α}
    {R : Pairing → α → α → Prop} {Q : Pairing → β → γ → Prop} {g : Word w → α → Act w β}
    {k : Word w → α → Act w γ} (h : Evaluates S f W x y) (h' : ∀ V, Builds S f V R x' y')
    (hg : ∀ V v u a b, Word.Matched V.Links v u → R V a b → Builds S f V Q (g v a) (k u b)) :
    Builds S f W Q (x >>= fun v => x' >>= fun a => g v a) (y >>= fun u => y' >>= fun b => k u b) :=
  .bind h fun V v u _ hvu => .bind (h' V) fun V' a b hV hab =>
    hg V' v u a b (Machine.Twins.matched_mono hV hvu) hab

theorem Act.Builds.equal {v u x y : Word w} (hvu : Word.Matched W.Links v u)
    (hxy : Word.Matched W.Links x y) :
    Builds S f W (fun _ a b => a = b) (liftM (Machine.equalValues v x))
      (liftM (Machine.equalValues u y)) :=
  .read fun _ _ _ hV M =>
    M.equalValues (Machine.Twins.matched_mono hV hvu) (Machine.Twins.matched_mono hV hxy)

/-- Small integers are the same words on both sides, so that their results are too. -/
theorem Act.Builds.arith (op : Fixnum.Operator) {v u x y : Word w}
    (hvu : Word.Matched W.Links v u) (hxy : Word.Matched W.Links x y) :
    Evaluates S f W
      (match op.apply v x with
        | .ok z => Pure.pure z
        | .error e => throw e)
      (match op.apply u y with
        | .ok z => Pure.pure z
        | .error e => throw e) := by
  intro V _ d e D
  obtain ⟨t, ht⟩ | ⟨hv, hx, hz⟩ := op.apply_cases v x
  · rw [ht]
    trivial
  · rw [hvu.eq_of_none hv, hxy.eq_of_none hx]
    cases h : op.apply v x with
    | ok z => exact ⟨V, fun _ h => h, D, .refl_of_none (hz z h)⟩
    | error e =>
      cases e with
      | trap t => trivial
      | error e => exact ⟨rfl, D.machine.outward⟩
      | unfinished => exact D.machine.outward

mutual

/-- An expression has related values on twins. -/
theorem Expr.careful_twins : ∀ (e : Expr w) (W : Pairing), Evaluates S f W e.careful e.eval
  | .literal l, _ => .literal l
  | .register name, _ => .register name
  | .slot i, _ => .read fun _ _ _ _ M => M.slot i
  | .result, _ => .read fun _ _ _ _ M => M.lastResult
  | .nullary c, _ => .check fun V v u _ hv hu => by
    rw [hv] at hu
    cases hu
    exact .refl_of_none (Constructor.ref?_unboxedValue hv)
  | .construct c fields, W =>
    .bind (Expr.carefulList_twins fields W) fun V vs us _ hvs =>
      .op fun V' m n hV M => M.construct c (hvs.imp fun _ _ => Machine.Twins.matched_mono hV)
  | .pair a b, W =>
    .operands (a.careful_twins W) (fun V => b.careful_twins V) fun V v u x y hvu hxy =>
      .op fun _ m n hV M =>
        M.makePair (Machine.Twins.matched_mono hV hvu) (Machine.Twins.matched_mono hV hxy)
  | .closure g captured, W =>
    .refuse fun hg =>
      .bind (Expr.carefulList_twins captured W) fun V vs us _ hvs =>
        .op fun V' m n hV M =>
          M.makeClosure hg (hvs.imp fun _ _ => Machine.Twins.matched_mono hV)
  | .extend e args, W =>
    .operands (e.careful_twins W) (fun V => Expr.carefulList_twins args V)
      fun V v u vs us hvu hvs =>
        .op fun V' m n hV M =>
          M.extendClosure (Machine.Twins.matched_mono hV hvu)
            (hvs.imp fun _ _ => Machine.Twins.matched_mono hV)
  | .field e i, W => .bind (e.careful_twins W) fun V v u _ hvu => .field hvu i
  | .fst e, W =>
    .bind (e.careful_twins W) fun V v u _ hvu =>
      .read fun V' m n hV M => M.fst (Machine.Twins.matched_mono hV hvu)
  | .snd e, W =>
    .bind (e.careful_twins W) fun V v u _ hvu =>
      .read fun V' m n hV M => M.snd (Machine.Twins.matched_mono hV hvu)
  | .equal a b, W =>
    .operands (a.careful_twins W) (fun V => b.careful_twins V) fun V v u x y hvu hxy =>
      .bind (.equal hvu hxy) fun V' r s _ hrs => by
        subst hrs
        exact .pure fun _ _ => .refl_of_none (Word.ref?_ofBool r)
  | .arith o a b, W =>
    .operands (a.careful_twins W) (fun V => b.careful_twins V) fun V v u x y hvu hxy =>
      .arith o hvu hxy

theorem Expr.carefulList_twins : ∀ (es : List (Expr w)) (W : Pairing),
    Builds S f W (fun V vs us => List.Forall₂ (Word.Matched V.Links) vs us)
      (Expr.carefulList es) (Expr.evalList es)
  | [], _ => .pure fun _ _ => .nil
  | e :: es, W =>
    .bind (e.careful_twins W) fun V _ _ _ hvu =>
      .bind (Expr.carefulList_twins es V) fun _ _ _ hV hvs =>
        .pure fun _ hV' => .cons (Machine.Twins.matched_mono (fun _ h => hV' (hV h)) hvu)
          (hvs.imp fun _ _ => Machine.Twins.matched_mono hV')

end

/-- A value that is only noted. -/
theorem Act.Builds.noted {α β γ : Type} {R : Pairing → α → β → Prop} {x : Act w α} {y : Act w β}
    {g : α → γ} {k : β → γ} (h : Builds S f W R x y) :
    Builds S f W (fun _ _ _ => True) (x >>= fun a => Pure.pure (g a))
      (y >>= fun b => Pure.pure (k b)) :=
  .bind h fun _ _ _ _ _ => .pure fun _ _ => trivial

/-- What may trap on either side. -/
theorem Act.Builds.checked {α β : Type} {x : Except (Trap w) α} {y : Except (Trap w) β} :
    Builds S f W (fun _ _ _ => True) (Act.check x) (Act.check y) :=
  .check fun _ _ _ _ _ _ => trivial

theorem Act.Builds.asked {α β : Type} {x : Heap w → Except (Trap w) α}
    {y : Heap w → Except (Trap w) β} :
    Builds S f W (fun _ _ _ => True) (Act.heap x) (Act.heap y) :=
  .look fun _ _ _ _ _ _ _ _ _ => trivial

/-- The answer to a probe may be another on the other side; it goes into the journal. -/
theorem Probe.careful_twins (p : Probe w) (W : Pairing) :
    Builds S f W (fun _ _ _ => True) p.careful p.ask := by
  cases p with
  | eval e => exact (e.careful_twins W).noted
  | render e =>
    refine .bind (e.careful_twins W) fun V v u _ hvu => .noted (R := fun _ a b => a = b) ?_
    refine .read fun V' m n hV M => ?_
    exact (M.render (Machine.Twins.matched_mono hV hvu)).mono fun _ _ _ _ h => ⟨h.1, h.2.1⟩
  | headerOf e => exact .bind (e.careful_twins W) fun _ _ _ _ _ => .noted .asked
  | view e =>
    refine .bind (e.careful_twins W) fun V v u _ hvu => .noted (R := fun _ _ _ => True) ?_
    refine .read fun V' m n hV M => ?_
    refine (M.closureView (Machine.Twins.matched_mono hV hvu)).mono ?_
    rintro _ _ _ _ ⟨rfl, rfl, _⟩
    exact ⟨M, trivial⟩
  | same a b =>
    exact .operands (a.careful_twins W) (fun V => b.careful_twins V) fun _ _ _ _ _ hvu hxy =>
      .noted (.equal hvu hxy)
  | block e =>
    exact .bind (e.careful_twins W) fun _ _ _ _ _ => .bind .checked fun _ _ _ _ _ => .noted .asked
  | route c e =>
    refine .refuse fun hc => .bind (e.careful_twins W) fun V v u _ hvu V' hV d e D => ?_
    have hc : c.plain = true := by simpa using hc
    refine Agree.get ?_
    rw [D.machine.heap.mirrors.select hc (Machine.Twins.matched_mono hV hvu)]
    cases c.select d.machine.heap v with
    | ok branch => exact ⟨V', fun _ h => h, D, trivial⟩
    | error x =>
      cases x with
      | trap t => trivial
      | error x => exact ⟨rfl, D.machine.outward⟩
      | unfinished => exact D.machine.outward
  | frameLength => exact fun V _ d e D => Act.Builds.noted .checked V (fun _ h => h) d e D
  | stack => exact fun V _ d e D => ⟨V, fun _ h => h, D, trivial⟩
  | peek n => exact fun V _ d e D => Act.Builds.noted .checked V (fun _ h => h) d e D
  | allocWords c => exact .pure fun _ _ => trivial
  | names uid => exact fun V _ d e D => ⟨V, fun _ h => h, D, trivial⟩
  | stats => exact fun V _ d e D => ⟨V, fun _ h => h, D, trivial⟩

end

/-! ### Transfers -/

section

open Machine.Twins (Alike Arrives)

variable {S : Scene w} {f : Nat} {W : Pairing} {m n : Machine w} {vs us : List (Word w)}

/-- A transfer with related operands takes twins to one label. -/
theorem Transfer.perform_twins (t : Transfer w) (ht : t.plain = true)
    (M : Machine.Twins S f W m n) (hkept : S.kept ≤ f - 2)
    (hvs : List.Forall₂ (Word.Matched W.Links) vs us) :
    Alike S (Arrives S) (t.perform vs m) (t.perform us n) := by
  have hle : S.kept ≤ f := by omega
  cases t with
  | jump label => exact ⟨rfl, f, W, M⟩
  | call callee args k => exact M.call callee k hvs
  | tailCall callee args => exact M.tailCall hle callee hvs
  | ret e =>
    cases hvs with
    | nil => trivial
    | cons hvu _ => exact M.ret hkept hvu
  | branch e ifTrue ifFalse =>
    cases hvs with
    | nil => trivial
    | cons hvu _ => exact (M.branch hvu _ _).mono fun _ _ _ _ h => ⟨h.1, f, W, h.2⟩
  | select c e =>
    cases hvs with
    | nil => trivial
    | cons hvu _ => exact (M.select ht hvu).mono fun _ _ _ _ h => ⟨h.1, f, W, h.2⟩
  | callClosure closure args k =>
    cases hvs with
    | nil => trivial
    | cons hvu hvs => exact M.callClosure hvu hvs k
  | tailCallClosure closure args =>
    cases hvs with
    | nil => trivial
    | cons hvu hvs => exact M.tailCallClosure hle hvu hvs
  | apply closure args k =>
    cases hvs with
    | nil => trivial
    | cons hvu hvs => exact M.apply hvu hvs k
  | tailApply closure args =>
    cases hvs with
    | nil => trivial
    | cons hvu hvs => exact M.tailApply hkept hvu hvs
  | fail e =>
    cases hvs with
    | nil => trivial
    | cons hvu _ => exact M.failure hvu

/-- How a body comes to a label: one of its transfers takes twins there. -/
def Reached (S : Scene w) (f : Nat) (ts : List (Transfer w)) (label : Label) (m n : Machine w) :
    Prop :=
  ∃ t ∈ ts, t.plain = true ∧ ∃ W c d vs us, Machine.Twins S f W c d ∧
    List.Forall₂ (Word.Matched W.Links) vs us ∧ t.perform vs c = .ok label m ∧
    t.perform us d = .ok label n

theorem Reached.mono {ts ts' : List (Transfer w)} {label : Label} (h : Reached S f ts label m n)
    (hts : ts ⊆ ts') : Reached S f ts' label m n := by
  obtain ⟨t, ht, h⟩ := h
  exact ⟨t, hts ht, h⟩

/-- A transfer takes twins to the same label. -/
theorem Transfer.careful_twins (t : Transfer w) {d e : Desk w} (D : Desk.Twins S f W d e) :
    Agree True (Desk.Outward S)
      (fun a b d' e' => a = b ∧ Reached S f [t] a d'.machine e'.machine) (t.careful d)
      (t.exec e) := by
  rw [t.careful_eq, t.exec_eq]
  cases ht : t.plain with
  | false => trivial
  | true =>
    change Agree _ _ _ ((Expr.carefulList t.operands >>= _) d) _
    refine Agree.bind (Expr.carefulList_twins t.operands W W (fun _ h => h) d e D) ?_
    rintro vs us d₁ e₁ ⟨V, _, D₁, hvs⟩
    -- the frame may be left: nothing above its header is kept then
    have M := D₁.machine.lower (Nat.min_le_left S.kept (f - 2))
    have hperform := t.perform_twins ht M (Nat.min_le_right _ _) hvs
    have hout : Alike S (Arrives _) (t.perform vs d₁.machine) (t.perform us e₁.machine) :=
      hperform.weaken fun _ _ h => ⟨h.steps, h.highWater, h.keep, h.printed⟩
    refine (Agree.lift hout.record).mono ?_
    rintro a b d₂ e₂ ⟨⟨⟨rfl, _⟩, hd, he⟩, _, _⟩
    exact ⟨rfl, t, List.mem_singleton.mpr rfl, ht, V, _, _, vs, us, D₁.machine, hvs, hd, he⟩

end

/-! ### Statements -/

section

open Machine.Twins (Alike)

variable {S : Scene w} {f : Nat} {W : Pairing} {ts : List (Transfer w)}

/-- After statements: twins that go on, or twins that one of the transfers took away. -/
structure Stmt.Leaves (S : Scene w) (f : Nat) (ts : List (Transfer w)) (a b : Option Label)
    (d e : Desk w) : Prop where
  same : a = b
  goes : a = none → ∃ V, Desk.Twins S f V d e
  reached : ∀ label, a = some label → Reached S f ts label d.machine e.machine

/-- What statements do on twins. -/
def Act.Carries (S : Scene w) (f : Nat) (ts : List (Transfer w)) (x y : Act w (Option Label)) :
    Prop :=
  ∀ W d e, Desk.Twins S f W d e →
    Agree True (Desk.Outward S) (Stmt.Leaves S f ts) (x d) (y e)

/-- Registers that do not hold references stay as they are when blocks move. -/
theorem Registers.Related.forget {V : Pairing} {r q : Registers w}
    (h : r.Related (Word.Matched W.Links) q) : r.immediate.Related (Word.Matched V.Links) q := by
  intro name v hv
  obtain ⟨hlookup, hnone⟩ := Registers.lookup_immediate hv
  obtain ⟨u, hu, hvu⟩ := h name v hlookup
  rw [hvu.eq_of_none hnone] at hu
  exact ⟨v, hu, .refl_of_none hnone⟩

namespace Act.Carries

theorem goOn {d e : Desk w} (D : Desk.Twins S f W d e) :
    Agree True (Desk.Outward S) (Stmt.Leaves S f ts) ((pure none : Act w (Option Label)) d)
      ((pure none : Act w (Option Label)) e) :=
  ⟨rfl, fun _ => ⟨W, D⟩, fun _ h => by cases h⟩

theorem mono {ts' : List (Transfer w)} {x y : Act w (Option Label)} (h : Carries S f ts x y)
    (hts : ts ⊆ ts') : Carries S f ts' x y :=
  fun W d e D => (h W d e D).mono fun _ _ _ _ L =>
    ⟨L.same, L.goes, fun label hl => (L.reached label hl).mono hts⟩

/-- The value of an expression, and what is done with it. -/
theorem value {x y : Act w (Word w)} {g k : Word w → Act w (Option Label)}
    (h : ∀ W, Evaluates S f W x y)
    (hg : ∀ V v u d e, Word.Matched V.Links v u → Desk.Twins S f V d e →
      Agree True (Desk.Outward S) (Stmt.Leaves S f ts) (g v d) (k u e)) :
    Carries S f ts (x >>= g) (y >>= k) := by
  intro W d e D
  refine Agree.bind (h W W (fun _ h => h) d e D) ?_
  rintro v u d₁ e₁ ⟨V, _, D₁, hvu⟩
  exact hg V v u d₁ e₁ hvu D₁

/-- An operation of the machine that keeps the pairs of blocks. -/
theorem op {α : Type} {x y : Op w α} {d e : Desk w} (D : Desk.Twins S f W d e)
    (h : Alike S (fun _ _ m' n' => Machine.Twins S f W m' n') (x d.machine) (y e.machine)) :
    Agree True (Desk.Outward S) (Stmt.Leaves S f ts)
      (((liftM x : Act w α) >>= fun _ => pure none) d)
      (((liftM y : Act w α) >>= fun _ => pure none) e) := by
  refine Agree.bind (Agree.lift h) ?_
  rintro _ _ d₁ e₁ ⟨M₁, hd, he⟩
  exact goOn ⟨M₁, hd ▸ he ▸ D.registers⟩

/-- Statements one after the other, up to the first transfer. -/
theorem seq {x y : Act w (Option Label)} {x' y' : Act w (Option Label)}
    (h : Carries S f ts x y) (h' : Carries S f ts x' y') :
    Carries S f ts
      (x >>= fun r => match r with
        | some label => pure (some label)
        | none => x')
      (y >>= fun r => match r with
        | some label => pure (some label)
        | none => y') := by
  intro W d e D
  refine Agree.bind (h W d e D) ?_
  rintro a _ d₁ e₁ ⟨rfl, hgoes, hreached⟩
  cases a with
  | some label => exact ⟨rfl, fun h => by (cases h), hreached⟩
  | none =>
    obtain ⟨V, D₁⟩ := hgoes rfl
    exact h' V d₁ e₁ D₁

/-- Rounds carry twins on if one round does. -/
theorem rounds {x y : Act w (Option Label)} (h : Carries S f ts x y) (n : Nat) :
    ∀ k, Carries S f ts (Act.rounds x k n) (Act.rounds y k n) := by
  induction n with
  | zero => exact fun k W d e D => goOn D
  | succ n ih =>
    intro k W d e D
    unfold Act.rounds
    cases hi : (Word.int k : Except (Trap w) (Word w)) with
    | error t => trivial
    | ok i =>
      refine seq h (ih (k + 1)) W _ _ ⟨D.machine, D.registers.set "i" ?_⟩
      exact .refl_of_none (Word.ref?_int hi)

end Act.Carries

theorem Act.Builds.registers (names : List String) :
    ∀ W, Builds (w := w) S f W (fun V vs us => List.Forall₂ (Word.Matched V.Links) vs us)
      (Act.registers names) (Act.registers names) := by
  induction names with
  | nil => exact fun W => .pure fun _ _ => .nil
  | cons name names ih =>
    intro W
    refine .operands (.register name) ih fun V v u vs us hvu hvs => .pure fun V' hV => ?_
    exact .cons (Machine.Twins.matched_mono hV hvu)
      (hvs.imp fun _ _ => Machine.Twins.matched_mono hV)

/-- A checkpoint that registers ride across leaves twins, with the references in all other registers
forgotten. -/
theorem Stmt.reserveCareful_twins (words : Nat) (names : List String) {d e : Desk w}
    (D : Desk.Twins S f W d e) :
    Agree True (Desk.Outward S) (fun _ _ d' e' => ∃ V, Desk.Twins S f V d' e')
      (Stmt.reserveCareful words names d) (Stmt.reserveSaving words names e) := by
  refine Agree.bind (Act.Builds.registers names W W (fun _ h => h) d e D) ?_
  rintro vs us d₁ e₁ ⟨V, _, D₁, hvs⟩
  refine Agree.bind (Agree.lift (D₁.machine.preallocSaving words hvs)) ?_
  rintro ⟨vs', short⟩ ⟨us', _⟩ d₂ e₂ ⟨⟨rfl, V', M₂, hvs'⟩, hd, he⟩
  -- the careful side forgets its other references before the saved words are written back
  have hforgot : d₂.registers.immediate.Related (Word.Matched V'.Links) e₂.registers := by
    rw [hd, he]
    exact D₁.registers.forget
  have D₃ := hforgot.setAll hvs' names
  cases short with
  | none => exact ⟨V', M₂, D₃⟩
  | some s => exact ⟨rfl, M₂.outward⟩

open Act (Carries)

mutual

/-- Statements do the same on twins. -/
theorem Stmt.careful_twins (hkept : S.kept ≤ f) :
    ∀ s : Stmt w, Carries S f s.transfers s.careful s.exec
  | .assign name e =>
    .value e.careful_twins fun V v u d e' hvu D =>
      Carries.goOn (W := V) ⟨D.machine, D.registers.set name hvu⟩
  | .push e =>
    .value e.careful_twins fun V v u d e' hvu D => Carries.op D (D.machine.pushLocal hvu)
  | .setSlot i e =>
    .value e.careful_twins fun V v u d e' hvu D => Carries.op D (D.machine.setSlot i hkept hvu)
  | .trace e =>
    .value e.careful_twins fun V v u d e' hvu D => Carries.op D (D.machine.trace hvu)
  | .prealloc words => fun W d e D => by
    refine Agree.bind (Agree.lift (D.machine.prealloc words)) ?_
    rintro _ _ d₁ e₁ ⟨⟨_, V, M₁⟩, hd, he⟩
    refine Carries.goOn (W := V) ⟨M₁, ?_⟩
    change Registers.Related _ d₁.registers.immediate e₁.registers
    rw [he, hd]
    exact D.registers.forget
  | .preallocSaving words names => fun W d e D => by
    refine Agree.bind (Stmt.reserveCareful_twins words names D) ?_
    rintro _ _ d₁ e₁ ⟨V, D₁⟩
    exact Carries.goOn D₁
  | .dumpStack => fun W d e D => Carries.op D D.machine.dumpStack
  | .cond e ifTrue ifFalse =>
    .value e.careful_twins fun V v u d e' hvu D => by
      cases hv : v.isTrue with
      | error t => trivial
      | ok b =>
        rw [hvu.eq_of_none (Word.ref?_of_isTrue hv), hv]
        cases b with
        | true =>
          exact (Stmt.carefulList_twins hkept ifTrue).mono (List.subset_append_left _ _) V d e' D
        | false =>
          exact (Stmt.carefulList_twins hkept ifFalse).mono (List.subset_append_right _ _) V d e' D
  | .rounds n body => .rounds (Stmt.carefulList_twins hkept body) n 0
  | .probe p => fun W d e D => by
    refine Agree.bind (p.careful_twins W W (fun _ h => h) d e D) ?_
    rintro a b d₁ e₁ ⟨V, _, D₁, _⟩
    exact Carries.goOn (W := V) ⟨D₁.machine.setJournal _ _, D₁.registers⟩
  | .transfer t => fun W d e D => by
    refine Agree.bind (t.careful_twins D) ?_
    rintro label _ d₁ e₁ ⟨rfl, hreached⟩
    refine ⟨rfl, fun h => by (cases h), fun l hl => ?_⟩
    cases hl
    exact hreached

theorem Stmt.carefulList_twins (hkept : S.kept ≤ f) : ∀ ss : List (Stmt w),
    Carries S f (Stmt.transfersList ss) (Stmt.carefulList ss) (Stmt.execList ss)
  | [] => fun _ _ _ D => Carries.goOn D
  | s :: ss =>
    .seq ((Stmt.careful_twins hkept s).mono (List.subset_append_left _ _))
      ((Stmt.carefulList_twins hkept ss).mono (List.subset_append_right _ _))

end

/-- A body, run with care on one side, comes to the same label on twins. -/
theorem Body.careful_twins (hkept : S.kept ≤ f) (body : Body w) {m n : Machine w}
    (M : Machine.Twins S f W m n) :
    Alike S (fun a b m' n' => a = b ∧ Reached S f (Stmt.transfersList body) a m' n')
      (body.careful m) (body.code n) := by
  have D : Desk.Twins S f W ⟨m, {}⟩ ⟨n, {}⟩ := ⟨M, fun _ _ h => by cases h⟩
  exact Agree.finish ((Stmt.carefulList_twins hkept body W _ _ D).mono fun _ _ _ _ L =>
    ⟨L.same, L.reached⟩)

end

end Trampoline
