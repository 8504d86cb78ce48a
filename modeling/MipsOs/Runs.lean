import Mathlib.Logic.Basic
import Mathlib.Logic.Relation

/-! Deterministic transition systems driven by a list of actions: a run fails as a whole when one of
its actions is not enabled. Data refinement along sequences of calls: a call may need a condition on
what has been called before it, and which of several answers it gives may depend on the
representation. -/

set_option autoImplicit false
namespace MipsOs

/-- An abstract data type: the answers that are allowed, and the value after an answer. -/
structure DataType (σ α ρ : Type) where
  answer : σ → α → ρ → Prop
  next : σ → α → ρ → σ

namespace DataType

variable {γ σ α ρ : Type} (D : DataType σ α ρ) (step : γ → α → Option (γ × ρ))

/-- The calls of a sequence meet `C` when they are made. -/
def Legal (C : γ → σ → α → Prop) : γ → σ → List α → Prop
  | _, _, [] => True
  | c, s, a :: as => C c s a ∧ ∀ x ∈ step c a, Legal C x.1 (D.next s a x.2) as

instance decidableLegal (C : γ → σ → α → Prop) [∀ c s a, Decidable (C c s a)] :
    ∀ c s as, Decidable (D.Legal step C c s as)
  | _, _, [] => isTrue True.intro
  | c, s, a :: as =>
    haveI : ∀ x : γ × ρ, Decidable (D.Legal step C x.1 (D.next s a x.2) as) :=
      fun x => decidableLegal C x.1 _ as
    inferInstanceAs (Decidable (C c s a ∧ ∀ x ∈ step c a, D.Legal step C x.1 (D.next s a x.2) as))

/-- Before and after each call of the sequence the representation stands for the abstract value as
`V` tells, and each call comes back with an answer that is allowed. -/
def Agrees (V : γ → σ → Prop) : γ → σ → List α → Prop
  | c, s, [] => V c s
  | c, s, a :: as => V c s ∧ ∃ c' r, step c a = some (c',r) ∧ D.answer s a r ∧
      Agrees V c' (D.next s a r) as

variable {D step} {C : γ → σ → α → Prop} {V R : γ → σ → Prop}

theorem agrees (hview : ∀ c s, R c s → V c s)
    (hstep : ∀ c s a, R c s → C c s a →
      ∃ c' r, step c a = some (c',r) ∧ D.answer s a r ∧ R c' (D.next s a r))
    {as : List α} {c : γ} {s : σ} (hR : R c s) (hlegal : D.Legal step C c s as) :
    D.Agrees step V c s as := by
  induction as generalizing c s with
  | nil => exact hview c s hR
  | cons a as ih =>
    obtain ⟨c',r,hr,ha,hnext⟩ := hstep c s a hR hlegal.1
    exact ⟨hview c s hR,c',r,hr,ha,ih hnext (hlegal.2 (c',r) hr)⟩

end DataType

variable {σ α : Type}

/-- A check of the state reached finds that there is one. -/
theorem some_of_any {o : Option σ} {c : σ → Bool} (h : o.any c = true) :
    ∃ s, o = some s ∧ c s = true :=
  (Option.any_eq_true c o).mp h

namespace Runs

/-- The state after a list of actions, if each of them was enabled. -/
def run (step : σ → α → Option σ) : σ → List α → Option σ
  | s, [] => some s
  | s, a :: as => (step s a).bind (run step · as)

@[simp] theorem run_nil (step : σ → α → Option σ) (s : σ) : run step s [] = some s := rfl

variable {step : σ → α → Option σ} {s t u : σ} {a : α} {as bs : List α} {C : σ → α → Prop}
  {c : σ → α → Bool} {I : σ → Prop} {E : σ → α → α → Prop}

theorem run_cons :
    run step s (a :: as) = some t ↔ ∃ u, step s a = some u ∧ run step u as = some t := by
  simp [run,Option.bind_eq_some_iff]

theorem run_append :
    run step s (as ++ bs) = some t ↔ ∃ u, run step s as = some u ∧ run step u bs = some t := by
  induction as generalizing s with
  | nil => simp
  | cons a as ih =>
    simp only [List.cons_append,run_cons,ih]
    constructor
    · rintro ⟨u,hu,v,hv,ht⟩
      exact ⟨v,⟨u,hu,hv⟩,ht⟩
    · rintro ⟨v,⟨u,hu,hv⟩,ht⟩
      exact ⟨u,hu,v,hv,ht⟩

/-- Each action of the list meets the condition `C` in the state it is taken in. -/
def Along (step : σ → α → Option σ) (C : σ → α → Prop) : σ → List α → Prop
  | _, [] => True
  | s, a :: as => C s a ∧ ∀ u, step s a = some u → Along step C u as

theorem Along.cons
    (hc : C s a) (hs : step s a = some u) (h : Along step C u as) : Along step C s (a :: as) := by
  refine ⟨hc,fun v hv => ?_⟩
  rw [hs] at hv
  cases hv
  exact h

/-- A Boolean test evaluated along the run. -/
def checkAlong (step : σ → α → Option σ) (c : σ → α → Bool) : σ → List α → Bool
  | _, [] => true
  | s, a :: as => c s a && (step s a).all (checkAlong step c · as)

/-- The test may rely on what the run keeps. -/
theorem Along.of_check_keeps (hc : ∀ s a, I s → c s a = true → C s a)
    (hstep : ∀ s a u, I s → C s a → step s a = some u → I u) (hs : I s)
    (h : checkAlong step c s as = true) : Along step C s as := by
  induction as generalizing s with
  | nil => exact True.intro
  | cons a as ih =>
    simp only [checkAlong,Bool.and_eq_true] at h
    have hca := hc s a hs h.1
    refine ⟨hca,fun u hu => ih (hstep s a u hs hca hu) ?_⟩
    rw [hu] at h
    exact h.2

theorem Along.of_check (hc : ∀ s a, c s a = true → C s a)
    (h : checkAlong step c s as = true) : Along step C s as :=
  of_check_keeps (I := fun _ => True) (fun s a _ => hc s a) (fun _ _ _ _ _ _ => True.intro)
    True.intro h

theorem Along.trivial (step : σ → α → Option σ) (s : σ) (as : List α) :
    Along step (fun _ _ => True) s as := by
  induction as generalizing s with
  | nil => exact True.intro
  | cons a as ih => exact ⟨True.intro,fun u _ => ih u⟩

theorem Along.and {P : α → Prop} (h : Along step C s as) (hp : ∀ a ∈ as, P a) :
    Along step (fun s a => C s a ∧ P a) s as := by
  induction as generalizing s with
  | nil => exact True.intro
  | cons a as ih =>
    refine ⟨⟨h.1,hp a List.mem_cons_self⟩,fun u hu => ?_⟩
    exact ih (h.2 u hu) fun b hb => hp b (List.mem_cons_of_mem a hb)

theorem Along.both {D : σ → α → Prop} (h : Along step C s as) (h' : Along step D s as) :
    Along step (fun s a => C s a ∧ D s a) s as := by
  induction as generalizing s with
  | nil => exact True.intro
  | cons a as ih => exact ⟨⟨h.1,h'.1⟩,fun u hu => ih (h.2 u hu) (h'.2 u hu)⟩

theorem Along.append (h : Along step C s (as ++ bs)) :
    Along step C s as ∧ ∀ u, run step s as = some u → Along step C u bs := by
  induction as generalizing s with
  | nil =>
    refine ⟨True.intro,fun u hu => ?_⟩
    cases hu
    exact h
  | cons a as ih =>
    obtain ⟨hc,hn⟩ := h
    refine ⟨⟨hc,fun u hu => (ih (hn u hu)).1⟩,fun t ht => ?_⟩
    obtain ⟨u,hu,hr⟩ := run_cons.mp ht
    exact (ih (hn u hu)).2 t hr

theorem Along.join (h : Along step C s as) (hu : run step s as = some u) (h' : Along step C u bs) :
    Along step C s (as ++ bs) := by
  induction as generalizing s with
  | nil =>
    cases hu
    exact h'
  | cons a as ih =>
    obtain ⟨v,hv,hr⟩ := run_cons.mp hu
    exact Along.cons h.1 hv (ih (h.2 v hv) hr)

/-- What one step keeps, under a condition on the action and the state it is
taken in, a whole run of such steps keeps. -/
theorem run_keeps (hstep : ∀ s a u, I s → C s a → step s a = some u → I u)
    (hs : I s) (hc : Along step C s as) (hr : run step s as = some t) : I t := by
  induction as generalizing s with
  | nil =>
    cases hr
    exact hs
  | cons a as ih =>
    obtain ⟨u,hu,hr⟩ := run_cons.mp hr
    exact ih (hstep s a u hs hc.1 hu) (hc.2 u hu) hr

theorem run_total (hstep : ∀ s a, I s → ∃ u, step s a = some u ∧ I u) (hs : I s) (as : List α) :
    ∃ t, run step s as = some t ∧ I t := by
  induction as generalizing s with
  | nil => exact ⟨s,rfl,hs⟩
  | cons a as ih =>
    obtain ⟨u,hu,hi⟩ := hstep s a hs
    obtain ⟨t,ht,hit⟩ := ih hi
    exact ⟨t,run_cons.mpr ⟨u,hu,ht⟩,hit⟩

/-- Two lists of actions that are related one by one, in the states the first list goes through. -/
def Paired (step : σ → α → Option σ) (E : σ → α → α → Prop) : σ → List α → List α → Prop
  | _, [], [] => True
  | s, a :: as, b :: bs => E s a b ∧ ∀ u, step s a = some u → Paired step E u as bs
  | _, _, _ => False

theorem Paired.refl (he : ∀ s a, E s a a) (s : σ) (as : List α) : Paired step E s as as := by
  induction as generalizing s with
  | nil => exact True.intro
  | cons a as ih => exact ⟨he s a,fun u _ => ih u⟩

theorem Paired.append {as' bs' : List α} (h : Paired step E s as bs)
    (h' : ∀ u, run step s as = some u → Paired step E u as' bs') :
    Paired step E s (as ++ as') (bs ++ bs') := by
  induction as generalizing s bs with
  | nil =>
    cases bs with
    | nil => exact h' s rfl
    | cons b bs => exact h.elim
  | cons a as ih =>
    cases bs with
    | nil => exact h.elim
    | cons b bs =>
      exact ⟨h.1,fun u hu => ih (h.2 u hu) fun v hv => h' v (run_cons.mpr ⟨u,hu,hv⟩)⟩

theorem Paired.along (h : Paired step E s as bs) (hc : Along step C s as) :
    Paired step (fun s a b => E s a b ∧ C s a) s as bs := by
  induction as generalizing s bs with
  | nil =>
    cases bs with
    | nil => exact True.intro
    | cons b bs => exact h
  | cons a as ih =>
    cases bs with
    | nil => exact h
    | cons b bs => exact ⟨⟨h.1,hc.1⟩,fun u hu => ih (h.2 u hu) (hc.2 u hu)⟩

theorem run_paired {R : σ → σ → Prop}
    (hstep : ∀ s t a b u, R s t → E s a b → step s a = some u → ∃ v, step t b = some v ∧ R u v)
    (hr : R s t) (hp : Paired step E s as bs)
    (hu : run step s as = some u) : ∃ v, run step t bs = some v ∧ R u v := by
  induction as generalizing s t bs with
  | nil =>
    cases bs with
    | nil =>
      cases hu
      exact ⟨t,rfl,hr⟩
    | cons b bs => exact hp.elim
  | cons a as ih =>
    cases bs with
    | nil => exact hp.elim
    | cons b bs =>
      obtain ⟨w,hw,hu⟩ := run_cons.mp hu
      obtain ⟨w',hw',hr'⟩ := hstep s t a b w hr hp.1 hw
      obtain ⟨v,hv,hrv⟩ := ih hr' (hp.2 w hw) hu
      exact ⟨v,run_cons.mpr ⟨w',hw',hv⟩,hrv⟩

end Runs

end MipsOs
