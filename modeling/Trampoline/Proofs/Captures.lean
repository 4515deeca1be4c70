import Trampoline.Proofs.Custody
import Trampoline.Proofs.Origins

/-!
How many arguments closures hold.

A closure is made with at most as many arguments as its function takes, and an application extends
it only if arguments are still missing then. Collections move closures and leave them as they are.
So no closure ever holds more arguments than its function takes, and the number of arguments that
are missing can always be computed, as long as no closure is extended beyond that by hand: nothing
keeps a direct extension from doing so.
-/

namespace Trampoline

variable {w : Width} {κ : Type} {cs : List Constructor} {fs : List Function}

theorem Builder.Declares.arity_le {b : Builder w κ} (h : b.Declares cs fs) :
    ∀ f ∈ fs, f.arity ≤ w.maxFields := by
  induction h with
  | empty => simp
  | label _ _ ih => exact ih
  | bind _ _ ih => exact ih
  | constructor _ _ ih => exact ih
  | function _ hf ih =>
    obtain ⟨hle, rfl, _⟩ := function_eq_ok hf
    exact List.forall_mem_cons.mpr ⟨hle, ih⟩

theorem Word.toNat_arity {f : Function} (hf : f.arity ≤ w.maxFields) :
    (ofNat f.arity : Word w).toNat = f.arity := by
  rw [toNat_ofNat]
  refine Nat.mod_eq_of_lt (Nat.lt_of_le_of_lt hf ?_)
  cases w <;> decide

/-- A closure of one of the functions that holds no more arguments than the function takes. -/
structure ClosureView.Fits (fs : List Function) (c : ClosureView w) : Prop where
  function : ∃ f ∈ fs, c.header.uid = f.uid ∧ c.entry = f.label ∧ c.arity = f.arity
  captured : c.captured ≤ c.arity

namespace ClosureView.Fits

variable {c d : ClosureView w} {n : Nat}

theorem of_extends (hc : c.Fits fs) (hd : c.Extends n d) (hn : c.captured + n ≤ c.arity) :
    d.Fits fs where
  function := by
    rw [hd.uid, hd.entry, hd.arity]
    exact hc.function
  captured := by
    rw [hd.captured, hd.arity]
    exact hn

theorem heritable : Heritable (Fits fs : ClosureView w → Prop) := by
  intro c n d hc hd hn
  refine hc.of_extends hd ?_
  rcases hn with rfl | hlt
  · exact hc.captured
  · rw [hd.captured, hd.arity] at hlt
    exact hlt.le

end ClosureView.Fits

namespace Machine

variable {s : MachineSettings} {m : Machine w} {held : List (Word w)}

/-- Closures are made of the functions only, and a closure is extended by no more arguments than it
misses. -/
def Action.Sparing (fs : List Function) (m : Machine w) : Action w → Prop
  | makeClosure f _ => f ∈ fs
  | extendClosure cl args =>
    ∀ c, m.heap.closure? cl = .ok (some c) → c.captured + args.length ≤ c.arity
  | _ => True

/-- The closures that are made sparingly hold no more than their functions take. -/
theorem Action.Sparing.makes {a : Action w} (ha : a.Sparing fs m)
    (hfs : ∀ f ∈ fs, f.arity ≤ w.maxFields) : a.Makes (ClosureView.Fits fs) m := by
  cases a with
  | makeClosure f captured =>
    intro hle d huid hentry harity hcaptured
    rw [Word.toNat_arity (hfs f ha)] at harity
    refine ⟨⟨f, ha, huid, hentry, harity⟩, ?_⟩
    rw [hcaptured, harity]
    exact hle
  | extendClosure cl args => exact fun c d hc hfits hd => hfits.of_extends hd (ha c hc)
  | _ => trivial

/-- A machine that was made with the settings, and has since been used with values that could be
held and sparingly; and the values that are held now. -/
def Employs (fs : List Function) (s : MachineSettings) : Machine w → List (Word w) → Prop :=
  Performed s fun held m a => a.Proper held m ∧ a.Sparing fs m

theorem Employs.fits (h : Employs fs s m held) (hfs : ∀ f ∈ fs, f.arity ≤ w.maxFields) :
    ∃ blocks, m.heap.Founded (m.roots ++ held) blocks ∧
      m.heap.Closures (ClosureView.Fits fs) blocks :=
  Performed.founded h ClosureView.Fits.heritable fun ha => ⟨ha.1, ha.2.makes hfs⟩

/-- However a machine has been used, if only no closure was extended directly by more arguments than
it missed, every closure block on its heap is of a declared function and holds at most as many
arguments as the function takes. So the number of arguments that a closure misses, by which an
application to too many arguments divides them, can be computed. -/
theorem captured_le_arity {b : Builder w κ} (hb : b.Declares cs fs) (h : Employs fs s m held) :
    ∃ blocks, m.heap.Partitioned (m.roots ++ held) blocks ∧
      (∀ r ∈ blocks, ∀ c, m.heap.closureAt r = some c →
        (∃ f ∈ fs, c.header.uid = f.uid ∧ c.entry = f.label ∧ c.arity = f.arity) ∧
        c.captured ≤ c.arity) ∧
      ∀ v : Word w, v.Into blocks → ∀ c, m.heap.closure? v = .ok (some c) →
        Size.sub (w := w) c.arity c.captured = .ok (c.arity - c.captured) := by
  obtain ⟨D, F, C⟩ := h.fits hb.arity_le
  refine ⟨D, F.toPartitioned, fun r hr c hc => ?_, fun v hv c hc => ?_⟩
  · have hfits := C r hr c hc
    exact ⟨hfits.function, hfits.captured⟩
  · obtain ⟨hr, hcl⟩ := Heap.closure?_eq_some hc
    exact if_pos (C _ (hv _ hr) c hcl).captured

instance (fs : List Function) (m : Machine w) : (a : Action w) → Decidable (a.Sparing fs m)
  | .makeClosure f _ => inferInstanceAs (Decidable (f ∈ fs))
  | .extendClosure cl args =>
    match h : m.heap.closure? cl with
    | .ok (some c) =>
      decidable_of_iff (c.captured + args.length ≤ c.arity)
        ⟨fun hle d hd => by cases h.symm.trans hd; exact hle, fun hall => hall c h⟩
    | .ok none => .isTrue fun c hc => by cases h.symm.trans hc
    | .error _ => .isTrue fun c hc => by cases h.symm.trans hc
  | .prealloc _ | .preallocSaving _ _ | .collect | .construct _ _ | .makePair _ _ | .field _ _
  | .fst _ | .snd _ | .slot _ | .lastResult | .pushLocal _ | .setSlot _ _ | .call _ _ _
  | .tailCall _ _ | .ret _ | .callClosure _ _ _ | .tailCallClosure _ _ | .apply _ _ _
  | .tailApply _ _ | .applyPending | .reset _ => .isTrue trivial

def ternary : Function := ⟨8, ⟨2⟩, 3, 0⟩

theorem declares_ternary :
    ∃ b : Builder .bits64 Unit, b.Declares [.builtin 0, .builtin 1, .builtin 2] [ternary] :=
  ⟨_, .function .empty (rfl : Builder.function "ternary" 3 0 .empty = .ok ternary _)⟩

/-- A closure is made, extended, collected, applied to too few arguments, and the closure that comes
of it to too many. -/
def mustering : List (Action .bits64) :=
  [.prealloc 12, .makeClosure ternary [], .extendClosure (Ref.mk 0 false).word [4],
    .pushLocal (Ref.mk 3 false).word, .collect, .slot 0, .apply (Ref.mk 0 false).word [8] ⟨3⟩,
    .lastResult, .apply (Ref.mk 4 false).word [12, 16] ⟨3⟩]

/-- Through a collection, an application to too few arguments and one to too many, no closure comes
to hold more than its function takes. -/
theorem captured_le_arity_mustering :
    ∃ m held, Employs [ternary] snug m held ∧ m.heap.stats.collections = 1 ∧
      (∃ c ∈ m.heap.closureAt ⟨4, false⟩, c.captured = 2) ∧
      ∃ blocks, m.heap.Partitioned (m.roots ++ held) blocks ∧
        (∀ r ∈ blocks, ∀ c, m.heap.closureAt r = some c →
          (∃ f ∈ [ternary], c.header.uid = f.uid ∧ c.entry = f.label ∧ c.arity = f.arity) ∧
          c.captured ≤ c.arity) ∧
        ∀ v : Word .bits64, v.Into blocks → ∀ c, m.heap.closure? v = .ok (some c) →
          Size.sub (w := .bits64) c.arity c.captured = .ok (c.arity - c.captured) := by
  have hend : ∃ q ∈ advances (fun held m a => a.Proper held m ∧ a.Sparing [ternary] m)
      (blank snug, []) mustering,
      q.1.heap.stats.collections = 1 ∧ ∃ c ∈ q.1.heap.closureAt ⟨4, false⟩, c.captured = 2 := by
    decide +kernel
  obtain ⟨⟨m, held⟩, hq, hcount, hclosure⟩ := hend
  have hemploys : Employs [ternary] snug m held :=
    Performed.advances (.fresh (create_blank (by decide +kernel) (by decide))) hq
  obtain ⟨b, hb⟩ := declares_ternary
  exact ⟨m, held, hemploys, hcount, hclosure, captured_le_arity hb hemploys⟩

def overfilling : List (Action .bits64) :=
  [.prealloc 10, .makeClosure ternary [], .extendClosure (Ref.mk 0 false).word [4, 8, 12, 16]]

/-- A direct extension is not refused, whatever the number of arguments. The closure that comes of
it cannot be applied. -/
theorem extendClosure_overfills :
    (∃ b : Builder .bits64 Unit, b.Declares [.builtin 0, .builtin 1, .builtin 2] [ternary]) ∧
    ∃ p ∈ advances Action.Proper (blank snug, []) overfilling, Uses snug p.1 p.2 ∧
      (Ref.mk 3 false).word ∈ p.2 ∧
      (∃ c ∈ p.1.heap.closureAt ⟨3, false⟩,
        c.header.uid = ternary.uid ∧ c.arity = 3 ∧ c.captured = 4) ∧
      ∃ m, apply (Ref.mk 3 false).word [4] ⟨3⟩ p.1 = .error (.trap .bounds) m := by
  have hend : ∃ q ∈ advances Action.Proper (blank snug, []) overfilling, (Ref.mk 3 false).word ∈ q.2 ∧
      (∃ c ∈ q.1.heap.closureAt ⟨3, false⟩,
        c.header.uid = ternary.uid ∧ c.arity = 3 ∧ c.captured = 4) ∧
      Outcome.trap? (apply (Ref.mk 3 false).word [4] ⟨3⟩ q.1) = some .bounds := by
    decide +kernel
  obtain ⟨p, hp, hheld, hclosure, htrap⟩ := hend
  have huses : Uses snug p.1 p.2 :=
    Performed.advances (.fresh (create_blank (by decide +kernel) (by decide))) hp
  exact ⟨declares_ternary, p, hp, huses, hheld, hclosure, _, Outcome.eq_trap htrap⟩

end Machine

end Trampoline
