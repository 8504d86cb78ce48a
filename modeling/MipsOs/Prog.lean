import Mathlib.Logic.Basic

/-! Sequential programs over a state. A program returns a value, returns an
error code, or stops the machine; an error leaves the state as it was when the
error came up. -/

set_option autoImplicit false
namespace MipsOs

inductive Outcome (σ ε π α : Type) where
  | ok (a : α) (s : σ)
  | err (e : ε) (s : σ)
  | panic (p : π)

def Prog (σ ε π α : Type) : Type := σ → Outcome σ ε π α

namespace Prog

variable {σ τ ε π α β : Type}

instance : Monad (Prog σ ε π) where
  pure a := fun s => .ok a s
  bind f g := fun s =>
    match f s with
    | .ok a t => g a t
    | .err e t => .err e t
    | .panic p => .panic p

def fail (e : ε) : Prog σ ε π α := fun s => .err e s

def halt (p : π) : Prog σ ε π α := fun _ => .panic p

def get : Prog σ ε π σ := fun s => .ok s s

def modify (f : σ → σ) : Prog σ ε π Unit := fun s => .ok () (f s)

def assert (c : Prop) [Decidable c] (p : π) : Prog σ ε π Unit :=
  if c then pure () else halt p

/-- Runs a program and hands its error code back as a value. -/
def attempt (f : Prog σ ε π α) : Prog σ ε π (Except ε α) := fun s =>
  match f s with
  | .ok a t => .ok (.ok a) t
  | .err e t => .ok (.error e) t
  | .panic p => .panic p

def ofExcept : Except ε α → Prog σ ε π α
  | .ok a => pure a
  | .error e => fail e

/-- Runs a program on a part of a larger state. -/
def zoom (part : τ → σ) (put : τ → σ → τ) (f : Prog σ ε π α) : Prog τ ε π α := fun t =>
  match f (part t) with
  | .ok a s => .ok a (put t s)
  | .err e s => .err e (put t s)
  | .panic p => .panic p

/-- Runs a program with a local variable, and hands its last value back. -/
def withLocal (v : τ) (f : Prog (σ × τ) ε π α) : Prog σ ε π (α × τ) := fun s =>
  match f (s,v) with
  | .ok a t => .ok (a,t.2) t.1
  | .err e t => .err e t.1
  | .panic p => .panic p

/-- Gives the error codes of a program another meaning. -/
def mapErr {ε' : Type} (k : ε → ε') (f : Prog σ ε π α) : Prog σ ε' π α := fun s =>
  match f s with
  | .ok a t => .ok a t
  | .err e t => .err (k e) t
  | .panic p => .panic p

/-- An error code stops the machine. -/
def orHalt {ε' : Type} (k : ε → π) (f : Prog σ ε π α) : Prog σ ε' π α := fun s =>
  match f s with
  | .ok a t => .ok a t
  | .err e _ => .panic (k e)
  | .panic p => .panic p

/-- The rounds `i`, `i+1`, …, `i+n-1` of a loop with accumulator `b`. -/
def loop (f : Nat → β → Prog σ ε π β) : Nat → Nat → β → Prog σ ε π β
  | _, 0, b => pure b
  | i, n+1, b => f i b >>= loop f (i+1) n

section Equations

variable {f : Prog σ ε π α} {g : α → Prog σ ε π β} {s t : σ} {a : α} {e : ε} {p : π}
  {part : τ → σ} {put : τ → σ → τ}

@[simp] theorem pure_apply (a : α) (s : σ) : (pure a : Prog σ ε π α) s = .ok a s := rfl

@[simp] theorem get_bind (g : σ → Prog σ ε π β) (s : σ) :
    ((get : Prog σ ε π σ) >>= g) s = g s s := rfl

@[simp] theorem modify_bind (f : σ → σ) (g : Unit → Prog σ ε π β) (s : σ) :
    ((modify f : Prog σ ε π Unit) >>= g) s = g () (f s) := rfl

theorem modify_to {f : σ → σ} (h : f s = t) (g : Unit → Prog σ ε π β) :
    ((modify f : Prog σ ε π Unit) >>= g) s = g () t := by
  rw [modify_bind,h]

@[simp] theorem pure_bind_apply (a : α) (g : α → Prog σ ε π β) (s : σ) :
    ((pure a : Prog σ ε π α) >>= g) s = g a s := rfl

theorem bind_ok (h : f s = .ok a t) : (f >>= g) s = g a t := by
  simp only [bind,h]

theorem bind_err (h : f s = .err e t) : (f >>= g) s = .err e t := by
  simp only [bind,h]

theorem bind_panic (h : f s = .panic p) : (f >>= g) s = .panic p := by
  simp only [bind,h]

theorem bind_eq_ok {b : β} {u : σ} :
    (f >>= g) s = .ok b u ↔ ∃ a t, f s = .ok a t ∧ g a t = .ok b u := by
  refine ⟨fun h => ?_,fun ⟨a,t,hf,hg⟩ => (bind_ok hf).trans hg⟩
  cases hf : f s with
  | ok a t => exact ⟨a,t,rfl,(bind_ok hf).symm.trans h⟩
  | err e t => cases (bind_err hf).symm.trans h
  | panic p => cases (bind_panic hf).symm.trans h

theorem bind_of_eq {f' : Prog σ ε π α} (h : f s = f' t) (g : α → Prog σ ε π β) :
    (f >>= g) s = (f' >>= g) t := by
  simp only [bind,h]

theorem bind_bind {γ : Type} (f : Prog σ ε π α) (g : α → Prog σ ε π β) (h : β → Prog σ ε π γ)
    (s : σ) : ((f >>= g) >>= h) s = (f >>= fun a => g a >>= h) s := by
  cases hf : f s with
  | ok a t => rw [bind_ok hf,bind_of_eq (bind_ok hf)]
  | err e t => rw [bind_err hf,bind_err (bind_err hf)]
  | panic p => rw [bind_panic hf,bind_panic (bind_panic hf)]

theorem attempt_ok (h : f s = .ok a t) : attempt f s = .ok (.ok a) t := by
  simp only [attempt,h]

theorem attempt_err (h : f s = .err e t) : attempt f s = .ok (.error e) t := by
  simp only [attempt,h]

@[simp] theorem assert_bind (c : Prop) [Decidable c] (p : π) (g : Unit → Prog σ ε π β) (hc : c) :
    (assert c p >>= g) s = g () s := by
  simp [assert,hc]

@[simp] theorem ofExcept_ok (a : α) (s : σ) :
    (ofExcept (.ok a) : Prog σ ε π α) s = .ok a s := rfl

@[simp] theorem ofExcept_error (e : ε) (s : σ) :
    (ofExcept (.error e) : Prog σ ε π α) s = .err e s := rfl

theorem mapErr_ok {ε' : Type} {k : ε → ε'} (h : f s = .ok a t) : mapErr k f s = .ok a t := by
  simp only [mapErr,h]

theorem mapErr_err {ε' : Type} {k : ε → ε'} (h : f s = .err e t) :
    mapErr k f s = .err (k e) t := by
  simp only [mapErr,h]

theorem orHalt_ok {ε' : Type} {k : ε → π} (h : f s = .ok a t) :
    (orHalt k f : Prog σ ε' π α) s = .ok a t := by
  simp only [orHalt,h]

theorem zoom_ok {r : τ} (h : f (part r) = .ok a t) :
    zoom part put f r = .ok a (put r t) := by
  simp only [zoom,h]

theorem zoom_err {r : τ} (h : f (part r) = .err e t) :
    zoom part put f r = .err e (put r t) := by
  simp only [zoom,h]

theorem zoom_bind (hpart : ∀ t s, part (put t s) = s)
    (hput : ∀ t s s', put (put t s) s' = put t s') (f : Prog σ ε π α) (g : α → Prog σ ε π β) :
    (zoom part put f >>= fun a => zoom part put (g a)) = zoom part put (f >>= g) := by
  funext t
  cases h : f (part t) with
  | ok a s =>
    rw [bind_ok (zoom_ok h)]
    simp only [zoom,bind_ok h,hpart,hput]
  | err e s =>
    rw [bind_err (zoom_err h)]
    simp only [zoom,bind_err h]
  | panic p =>
    have hz : zoom part put f t = .panic p := by simp only [zoom,h]
    rw [bind_panic hz]
    simp only [zoom,bind_panic h]

theorem zoom_pure (hput : ∀ t, put t (part t) = t) (a : α) :
    zoom part put (pure a : Prog σ ε π α) = pure a := by
  funext t
  exact congrArg (Outcome.ok a) (hput t)

theorem attempt_zoom (f : Prog σ ε π α) :
    attempt (zoom part put f) = zoom part put (attempt f) := by
  funext t
  simp only [attempt,zoom]
  cases f (part t) <;> rfl

theorem withLocal_ok {f : Prog (σ × τ) ε π α} {v w : τ} (h : f (s,v) = .ok a (t,w)) :
    withLocal v f s = .ok (a,w) t := by
  simp only [withLocal,h]

theorem withLocal_err {f : Prog (σ × τ) ε π α} {v w : τ} (h : f (s,v) = .err e (t,w)) :
    withLocal v f s = .err e t := by
  simp only [withLocal,h]

theorem withLocal_panic {f : Prog (σ × τ) ε π α} {v : τ} (h : f (s,v) = .panic p) :
    withLocal v f s = .panic p := by
  simp only [withLocal,h]

end Equations

end Prog

open Prog

variable {σ τ ε π α β : Type}

/-- The machine does not stop; a value comes back with `Q`, an error code with `E`. -/
def Outcome.Safe (o : Outcome σ ε π α) (Q : α → σ → Prop) (E : ε → σ → Prop) : Prop :=
  match o with
  | .ok a s => Q a s
  | .err e s => E e s
  | .panic _ => False

/-- A test of what comes back, for programs run on concrete states. -/
def Outcome.test (o : Outcome σ ε π α) (P : α → σ → Bool) : Bool :=
  match o with
  | .ok a s => P a s
  | _ => false

theorem Outcome.test_eq_true {o : Outcome σ ε π α} {P : α → σ → Bool} (h : o.test P = true) :
    ∃ a s, o = .ok a s ∧ P a s = true := by
  cases o with
  | ok a s => exact ⟨a,s,rfl,h⟩
  | err | panic => cases h

def Outcome.testErr [DecidableEq ε] (o : Outcome σ ε π α) (e : ε) (P : σ → Prop)
    [DecidablePred P] : Bool :=
  match o with
  | .err e' s => decide (e' = e ∧ P s)
  | _ => false

theorem Outcome.testErr_eq_true [DecidableEq ε] {o : Outcome σ ε π α} {e : ε} {P : σ → Prop}
    [DecidablePred P] (h : o.testErr e P = true) : ∃ s, o = .err e s ∧ P s := by
  cases o with
  | ok | panic => cases h
  | err e' s =>
    obtain ⟨rfl,hs⟩ := of_decide_eq_true h
    exact ⟨s,rfl,hs⟩

/-- The same outcome in a state that is changed by `g`. -/
def Outcome.after (g : σ → σ) : Outcome σ ε π α → Outcome σ ε π α
  | .ok a s => .ok a (g s)
  | .err e s => .err e (g s)
  | .panic p => .panic p

theorem Outcome.after_bind {g : σ → σ} {f : Prog σ ε π α} {k : α → Prog σ ε π β} {s : σ}
    (hf : f (g s) = (f s).after g) (hk : ∀ a t, f s = .ok a t → k a (g t) = (k a t).after g) :
    (f >>= k) (g s) = ((f >>= k) s).after g := by
  cases h : f s with
  | ok a t =>
    rw [h] at hf
    rw [bind_ok h,bind_ok hf]
    exact hk a t h
  | err e t =>
    rw [h] at hf
    rw [bind_err h,bind_err hf]
    rfl
  | panic p =>
    rw [h] at hf
    rw [bind_panic h,bind_panic hf]
    rfl

theorem Outcome.after_zoom {part : τ → σ} {put : τ → σ → τ} {g : τ → τ} {t : τ}
    (hpart : part (g t) = part t) (hput : ∀ s, put (g t) s = g (put t s)) (f : Prog σ ε π α) :
    zoom part put f (g t) = (zoom part put f t).after g := by
  unfold zoom
  rw [hpart]
  cases f (part t) with
  | ok a s => exact congrArg (Outcome.ok a) (hput s)
  | err e s => exact congrArg (Outcome.err e) (hput s)
  | panic p => rfl

/-- A value comes back with `Q`, an error code with `E`, and the machine stops for a reason in
`P`. -/
def Outcome.Ends (o : Outcome σ ε π α) (Q : α → σ → Prop) (E : ε → σ → Prop) (P : π → Prop) :
    Prop :=
  match o with
  | .ok a s => Q a s
  | .err e s => E e s
  | .panic p => P p

section Rules

variable {o : Outcome σ ε π α} {f : Prog σ ε π α} {g : α → Prog σ ε π β}
  {k : Except ε α → Prog σ ε π β} {part : τ → σ} {put : τ → σ → τ}
  {Q Q' : α → σ → Prop} {R : β → σ → Prop} {E E' : ε → σ → Prop} {s : σ}

namespace Outcome.Ends

variable {P P' : π → Prop}

theorem mono (h : o.Ends Q E P) (hq : ∀ a t, Q a t → Q' a t) (he : ∀ e t, E e t → E' e t)
    (hp : ∀ p, P p → P' p) : o.Ends Q' E' P' := by
  cases o with
  | ok a t => exact hq a t h
  | err e t => exact he e t h
  | panic p => exact hp p h

theorem bind (hf : (f s).Ends Q E P) (hg : ∀ a t, Q a t → (g a t).Ends R E' P')
    (he : ∀ e t, E e t → E' e t) (hp : ∀ p, P p → P' p) : ((f >>= g) s).Ends R E' P' := by
  simp only [Bind.bind]
  generalize f s = o at hf
  cases o with
  | ok a t => exact hg a t hf
  | err e t => exact he e t hf
  | panic p => exact hp p hf

theorem andThen (hf : (f s).Ends Q E P) (hg : ∀ a t, Q a t → (g a t).Ends R E P) :
    ((f >>= g) s).Ends R E P :=
  bind hf hg (fun _ _ he => he) fun _ hp => hp

theorem bind_unerring (hf : (f s).Ends Q (fun _ _ => False) P)
    (hg : ∀ a t, Q a t → (g a t).Ends R E P) : ((f >>= g) s).Ends R E P :=
  bind hf hg (fun _ _ he => he.elim) fun _ hp => hp

theorem eq {P : π → Prop} (h : o.Ends Q E P) : o.Ends (fun a s => Q a s ∧ o = .ok a s) E P := by
  cases o with
  | ok a t => exact ⟨h,rfl⟩
  | err | panic => exact h

theorem attempt {R : Except ε α → σ → Prop} (hf : (f s).Ends Q E P) (hq : ∀ a t, Q a t → R (.ok a) t)
    (he : ∀ e t, E e t → R (.error e) t) : (Prog.attempt f s).Ends R E' P := by
  unfold Prog.attempt
  generalize f s = o at hf
  cases o with
  | ok a t => exact hq a t hf
  | err e t => exact he e t hf
  | panic p => exact hf

theorem attempt_bind (hf : (f s).Ends Q E P) (hg : ∀ a t, Q a t → (k (.ok a) t).Ends R E' P')
    (he : ∀ e t, E e t → (k (.error e) t).Ends R E' P') (hp : ∀ p, P p → P' p) :
    ((Prog.attempt f >>= k) s).Ends R E' P' :=
  bind (E := fun _ _ => False) (attempt (R := fun x t => (k x t).Ends R E' P') hf hg he)
    (fun _ _ h => h) (fun _ _ h => h.elim) hp

theorem zoom {t : τ} {Q : α → τ → Prop} {E : ε → τ → Prop}
    (h : (f (part t)).Ends (fun a s => Q a (put t s)) (fun e s => E e (put t s)) P) :
    (Prog.zoom part put f t).Ends Q E P := by
  unfold Prog.zoom
  generalize f (part t) = o at h
  cases o <;> exact h

theorem mapErr {ε' : Type} {k : ε → ε'} {E' : ε' → σ → Prop}
    (h : (f s).Ends Q (fun e t => E' (k e) t) P) : (Prog.mapErr k f s).Ends Q E' P := by
  unfold Prog.mapErr
  generalize f s = o at h
  cases o <;> exact h

theorem withLocal {v : τ} {f : Prog (σ × τ) ε π α} {Q : α × τ → σ → Prop}
    (h : (f (s,v)).Ends (fun a t => Q (a,t.2) t.1) (fun e t => E e t.1) P) :
    (Prog.withLocal v f s).Ends Q E P := by
  unfold Prog.withLocal
  generalize f (s,v) = o at h
  cases o <;> exact h

theorem assert_bind {c : Prop} [Decidable c] {p : π} {g : Unit → Prog σ ε π β}
    (hg : c → (g () s).Ends R E P) (hp : ¬ c → P p) :
    ((Prog.assert c p >>= g) s).Ends R E P := by
  by_cases hc : c
  · rw [Prog.assert_bind _ _ _ hc]
    exact hg hc
  · rw [bind_panic (p := p) (by simp [Prog.assert,hc,halt])]
    exact hp hc

theorem loop {f : Nat → β → Prog σ ε π β} {I : Nat → β → σ → Prop} (n : Nat) {i : Nat} {b : β}
    (h0 : I i b s)
    (hstep : ∀ j c t, i ≤ j → j < i + n → I j c t → (f j c t).Ends (I (j+1)) E P) :
    (Prog.loop f i n b s).Ends (I (i+n)) E P := by
  induction n generalizing i b s with
  | zero => exact h0
  | succ n ih =>
    refine bind (hstep i b s (Nat.le_refl i) (by omega) h0) (fun c t hc => ?_) (fun _ _ he => he)
      fun _ hp => hp
    have hrest := ih hc fun j c t hle hlt hj => hstep j c t (by omega) (by omega) hj
    rwa [show i + 1 + n = i + (n + 1) by omega] at hrest

end Outcome.Ends

theorem Outcome.safe_iff : o.Safe Q E ↔ o.Ends Q E fun _ => False := by
  cases o <;> exact Iff.rfl

namespace Outcome.Safe

theorem mono (h : o.Safe Q E) (hq : ∀ a t, Q a t → Q' a t) (he : ∀ e t, E e t → E' e t) :
    o.Safe Q' E' :=
  safe_iff.mpr ((safe_iff.mp h).mono hq he fun _ hp => hp)

theorem and (h : o.Safe Q E) (h' : o.Safe Q' E') :
    o.Safe (fun a t => Q a t ∧ Q' a t) fun e t => E e t ∧ E' e t := by
  cases o with
  | ok | err => exact ⟨h,h'⟩
  | panic p => exact h

theorem cases (h : o.Safe Q E) :
    (∃ a t, o = .ok a t ∧ Q a t) ∨ ∃ e t, o = .err e t ∧ E e t := by
  cases o with
  | ok a t => exact .inl ⟨a,t,rfl,h⟩
  | err e t => exact .inr ⟨e,t,rfl,h⟩
  | panic p => exact h.elim

theorem returns (h : o.Safe Q fun _ _ => False) : ∃ a t, o = .ok a t ∧ Q a t := by
  rcases h.cases with hok | ⟨_,_,_,he⟩
  · exact hok
  · exact he.elim

theorem bind (hf : (f s).Safe Q E) (hg : ∀ a t, Q a t → (g a t).Safe R E')
    (he : ∀ e t, E e t → E' e t) : ((f >>= g) s).Safe R E' :=
  safe_iff.mpr ((safe_iff.mp hf).bind (fun a t ha => safe_iff.mp (hg a t ha)) he fun _ hp => hp)

theorem andThen (hf : (f s).Safe Q E) (hg : ∀ a t, Q a t → (g a t).Safe R E) :
    ((f >>= g) s).Safe R E :=
  bind hf hg fun _ _ he => he

theorem bind_unerring (hf : (f s).Safe Q fun _ _ => False)
    (hg : ∀ a t, Q a t → (g a t).Safe R E) : ((f >>= g) s).Safe R E :=
  bind hf hg fun _ _ he => he.elim

theorem attempt_bind (hf : (f s).Safe Q E) (hg : ∀ a t, Q a t → (k (.ok a) t).Safe R E')
    (he : ∀ e t, E e t → (k (.error e) t).Safe R E') : ((Prog.attempt f >>= k) s).Safe R E' :=
  safe_iff.mpr ((safe_iff.mp hf).attempt_bind (fun a t ha => safe_iff.mp (hg a t ha))
    (fun e t ht => safe_iff.mp (he e t ht)) fun _ hp => hp)

theorem attempt {R : Except ε α → σ → Prop} (hf : (f s).Safe Q E) (hq : ∀ a t, Q a t → R (.ok a) t)
    (he : ∀ e t, E e t → R (.error e) t) : (Prog.attempt f s).Safe R E' :=
  safe_iff.mpr ((safe_iff.mp hf).attempt hq he)

theorem mapErr {ε' : Type} {k : ε → ε'} {E' : ε' → σ → Prop}
    (h : (f s).Safe Q fun e t => E' (k e) t) : (Prog.mapErr k f s).Safe Q E' :=
  safe_iff.mpr (safe_iff.mp h).mapErr

theorem withLocal {v : τ} {f : Prog (σ × τ) ε π α} {Q : α × τ → σ → Prop}
    (h : (f (s,v)).Safe (fun a t => Q (a,t.2) t.1) fun e t => E e t.1) :
    (Prog.withLocal v f s).Safe Q E :=
  safe_iff.mpr (safe_iff.mp h).withLocal

theorem loop {f : Nat → β → Prog σ ε π β} {I : Nat → β → σ → Prop} (n : Nat) {i : Nat} {b : β}
    (h0 : I i b s)
    (hstep : ∀ j c t, i ≤ j → j < i + n → I j c t → (f j c t).Safe (I (j+1)) E) :
    (Prog.loop f i n b s).Safe (I (i+n)) E :=
  safe_iff.mpr (.loop n h0 fun j c t hle hlt hj => safe_iff.mp (hstep j c t hle hlt hj))

end Outcome.Safe

theorem Outcome.Ends.of_safe {P : π → Prop} (h : o.Safe Q E) : o.Ends Q E P :=
  (safe_iff.mp h).mono (fun _ _ h => h) (fun _ _ h => h) fun _ hp => hp.elim

theorem Outcome.Ends.orHalt {ε' : Type} {P : π → Prop} {k : ε → π} {E' : ε' → σ → Prop}
    (h : (f s).Safe Q E) (hp : ∀ e, P (k e)) : (Prog.orHalt k f s).Ends Q E' P := by
  unfold Prog.orHalt
  generalize f s = o at h
  cases o with
  | ok a t => exact h
  | err e t => exact hp e
  | panic p => exact h.elim

end Rules

/-- A program that keeps `I`, whether it returns a value or an error code, and stops the machine
for no reason outside `P`. -/
def Prog.Keeps (I : σ → Prop) (P : π → Prop) (f : Prog σ ε π α) : Prop :=
  ∀ s, I s → (f s).Ends (fun _ t => I t) (fun _ t => I t) P

/-- A program that keeps `I` and returns no error code. -/
def Prog.Unerring (I : σ → Prop) (P : π → Prop) (f : Prog σ ε π α) : Prop :=
  ∀ s, I s → (f s).Ends (fun _ t => I t) (fun _ _ => False) P

section Invariants

variable {I : σ → Prop} {P : π → Prop} {f : Prog σ ε π α}

namespace Prog.Unerring

theorem keeps (hf : Unerring I P f) : Keeps I P f := fun s hs =>
  (hf s hs).mono (fun _ _ ht => ht) (fun _ _ he => he.elim) fun _ hp => hp

theorem pure (a : α) : Unerring I P (Pure.pure a : Prog σ ε π α) := fun _ hs => hs

theorem halt {p : π} (hp : P p) : Unerring I P (Prog.halt p : Prog σ ε π α) := fun _ _ => hp

theorem bind {g : α → Prog σ ε π β} (hf : Unerring I P f) (hg : ∀ a, Unerring I P (g a)) :
    Unerring I P (f >>= g) := fun s hs =>
  (hf s hs).bind (fun a t ht => hg a t ht) (fun _ _ ht => ht) fun _ hp => hp

theorem ite {c : Prop} [Decidable c] {g : Prog σ ε π α} (hf : Unerring I P f)
    (hg : Unerring I P g) : Unerring I P (if c then f else g) := by
  by_cases hc : c
  · rwa [if_pos hc]
  · rwa [if_neg hc]

theorem attempt (hf : Keeps I P f) : Unerring I P (Prog.attempt f) := fun s hs =>
  (hf s hs).attempt (fun _ _ ht => ht) fun _ _ ht => ht

theorem loop {f : Nat → β → Prog σ ε π β} (hf : ∀ i b, Unerring I P (f i b)) (n i : Nat) (b : β) :
    Unerring I P (Prog.loop f i n b) := by
  induction n generalizing i b with
  | zero => exact .pure b
  | succ n ih => exact .bind (hf i b) fun c => ih (i+1) c

end Prog.Unerring

namespace Prog.Keeps

theorem pure (a : α) : Keeps I P (Pure.pure a : Prog σ ε π α) := fun _ hs => hs

theorem fail (e : ε) : Keeps I P (Prog.fail e : Prog σ ε π α) := fun _ hs => hs

theorem halt {p : π} (hp : P p) : Keeps I P (Prog.halt p : Prog σ ε π α) := fun _ _ => hp

theorem bind {g : α → Prog σ ε π β} (hf : Keeps I P f) (hg : ∀ a, Keeps I P (g a)) :
    Keeps I P (f >>= g) := fun s hs =>
  (hf s hs).bind (fun a t ht => hg a t ht) (fun _ _ ht => ht) fun _ hp => hp

theorem get_bind {g : σ → Prog σ ε π β} (hg : ∀ s, Keeps I P (g s)) : Keeps I P (get >>= g) :=
  fun s hs => hg s s hs

theorem ite {c : Prop} [Decidable c] {g : Prog σ ε π α} (hf : c → Keeps I P f)
    (hg : ¬ c → Keeps I P g) : Keeps I P (if c then f else g) := by
  by_cases hc : c
  · rw [if_pos hc]
    exact hf hc
  · rw [if_neg hc]
    exact hg hc

theorem modify_bind {m : σ → σ} {g : Unit → Prog σ ε π β} (hm : ∀ s, I s → I (m s))
    (hg : Keeps I P (g ())) : Keeps I P (Prog.modify m >>= g) := fun s hs => hg (m s) (hm s hs)

theorem attempt (hf : Keeps I P f) : Keeps I P (Prog.attempt f) := (Unerring.attempt hf).keeps

theorem ofExcept (x : Except ε α) : Keeps I P (Prog.ofExcept x : Prog σ ε π α) := by
  cases x with
  | ok a => exact pure a
  | error e => exact fail e

theorem zoom {part : τ → σ} {put : τ → σ → τ} (hput : ∀ t s, part (put t s) = s)
    (hf : Keeps I P f) : Keeps (fun t => I (part t)) P (Prog.zoom part put f) := by
  have hback : ∀ t s, I s → I (part (put t s)) := by
    intro t s hs
    rw [hput]
    exact hs
  exact fun t ht => .zoom ((hf (part t) ht).mono (fun _ s hs => hback t s hs)
    (fun _ s hs => hback t s hs) fun _ hp => hp)

end Prog.Keeps

end Invariants

/-- If a value comes back, it does so with `Q`. -/
def Outcome.Gives (o : Outcome σ ε π α) (Q : α → σ → Prop) : Prop := ∀ a s, o = .ok a s → Q a s

/-- As `Ends`, where it does not matter for which reason the machine stops. -/
def Outcome.Within (o : Outcome σ ε π α) (Q : α → σ → Prop) (E : ε → σ → Prop) (P : Prop) : Prop :=
  o.Ends Q E fun _ => P

section Rules

variable {o : Outcome σ ε π α} {f : Prog σ ε π α} {g : α → Prog σ ε π β}
  {k : Except ε α → Prog σ ε π β} {part : τ → σ} {put : τ → σ → τ}
  {Q Q' : α → σ → Prop} {R : β → σ → Prop} {E E' : ε → σ → Prop} {s : σ}

namespace Outcome.Gives

theorem mono (h : o.Gives Q) (hq : ∀ a t, Q a t → Q' a t) : o.Gives Q' :=
  fun a t ho => hq a t (h a t ho)

theorem of_ends {P : π → Prop} (h : o.Ends Q E P) : o.Gives Q := by
  rintro a t rfl
  exact h

theorem ends (h : o.Gives Q) : o.Ends Q (fun _ _ => True) fun _ => True := by
  cases o with
  | ok a t => exact h a t rfl
  | err | panic => exact trivial

theorem pure {a : α} (h : Q a s) : ((Pure.pure a : Prog σ ε π α) s).Gives Q :=
  of_ends (E := fun _ _ => True) (P := fun _ => True) h

theorem fail (e : ε) : ((Prog.fail e : Prog σ ε π α) s).Gives Q := fun _ _ ho => by cases ho

theorem panic (p : π) : (Outcome.panic p : Outcome σ ε π α).Gives Q := fun _ _ ho => by cases ho

theorem bind (hf : (f s).Gives Q) (hg : ∀ a t, Q a t → (g a t).Gives R) : ((f >>= g) s).Gives R :=
  of_ends (hf.ends.bind (fun a t ha => (hg a t ha).ends) (fun _ _ h => h) fun _ h => h)

theorem zoom (f : Prog σ ε π α) (t : τ) :
    (Prog.zoom part put f t).Gives fun _ u => ∃ s, u = put t s := by
  refine of_ends (Ends.zoom (E := fun _ _ => True) (P := fun _ => True) ?_)
  cases f (part t) with
  | ok a s => exact ⟨s,rfl⟩
  | err | panic => exact trivial

theorem loop {f : Nat → β → Prog σ ε π β} {I : Nat → β → σ → Prop} (n : Nat) {i : Nat} {b : β}
    (h0 : I i b s) (hstep : ∀ j c t, i ≤ j → j < i + n → I j c t → (f j c t).Gives (I (j+1))) :
    (Prog.loop f i n b s).Gives (I (i+n)) :=
  of_ends (.loop n h0 fun j c t hle hlt hj => (hstep j c t hle hlt hj).ends)

end Outcome.Gives

namespace Outcome.Within

variable {P P' : Prop}

theorem mono (h : o.Within Q E P) (hq : ∀ a t, Q a t → Q' a t) (he : ∀ e t, E e t → E' e t)
    (hp : P → P') : o.Within Q' E' P' :=
  Ends.mono h hq he fun _ => hp

theorem bind (hf : (f s).Within Q E P) (hg : ∀ a t, Q a t → (g a t).Within R E' P')
    (he : ∀ e t, E e t → E' e t) (hp : P → P') : ((f >>= g) s).Within R E' P' :=
  Ends.bind hf hg he fun _ => hp

theorem andThen (hf : (f s).Within Q E P) (hg : ∀ a t, Q a t → (g a t).Within R E P) :
    ((f >>= g) s).Within R E P :=
  Ends.andThen hf hg

theorem bind_unerring (hf : (f s).Within Q (fun _ _ => False) P)
    (hg : ∀ a t, Q a t → (g a t).Within R E P) : ((f >>= g) s).Within R E P :=
  Ends.bind_unerring hf hg

theorem attempt_bind (hf : (f s).Within Q E P) (hg : ∀ a t, Q a t → (k (.ok a) t).Within R E' P')
    (he : ∀ e t, E e t → (k (.error e) t).Within R E' P') (hp : P → P') :
    ((attempt f >>= k) s).Within R E' P' :=
  Ends.attempt_bind hf hg he fun _ => hp

theorem zoom {t : τ} {Q : α → τ → Prop} {E : ε → τ → Prop}
    (h : (f (part t)).Within (fun a s => Q a (put t s)) (fun e s => E e (put t s)) P) :
    (Prog.zoom part put f t).Within Q E P := Ends.zoom h

theorem assert_bind {c : Prop} [Decidable c] {p : π} {g : Unit → Prog σ ε π β}
    (hg : c → (g () s).Within R E P) (hp : ¬ c → P) :
    ((Prog.assert c p >>= g) s).Within R E P := Ends.assert_bind hg hp

end Outcome.Within

end Rules

end MipsOs
