import Mathlib.Data.List.Basic
import MipsOs.Runs

/-! Threads that share a state and run one section at a time. A section is never interrupted. It may
wake up everybody who sleeps on a channel and may put its own thread to sleep on one; a thread that
sleeps does nothing until it is woken up. Among them are those that run straight-line programs over
locks. A lock knows its owner; who finds it owned sleeps on it, and a release wakes up all who do. A
release by somebody else is a failed assertion, after which the thread does nothing any more. -/

set_option autoImplicit false
namespace MipsOs.Tasks
open Function

variable {σ γ κ : Type}

/-- What a section leaves: the shared state, the place its thread goes on at, the channel whose
sleepers are woken up and the channel on which the thread goes to sleep. -/
structure Effect (σ γ κ : Type) where
  shared : σ
  next : γ
  wakes : Option κ
  sleeps : Option κ

structure State (σ γ κ : Type) where
  shared : σ
  place : Nat → γ
  asleep : Nat → Option κ

/-- The sections: what thread `t` does next at its place, or nothing when it is at its end. -/
abbrev Code (σ γ κ : Type) := Nat → γ → σ → Option (Effect σ γ κ)

section Steps

variable [DecidableEq κ]

def wake (c : Option κ) (asleep : Nat → Option κ) (t : Nat) : Option κ :=
  if asleep t = c then none else asleep t

def State.after (s : State σ γ κ) (t : Nat) (e : Effect σ γ κ) : State σ γ κ where
  shared := e.shared
  place := update s.place t e.next
  asleep := update (wake e.wakes s.asleep) t e.sleeps

def step (code : Code σ γ κ) (s : State σ γ κ) (t : Nat) : Option (State σ γ κ) :=
  if s.asleep t = none then (code t (s.place t) s.shared).map (s.after t) else none

/-- Some thread sleeps and every other one sleeps as well or is at its end. -/
def Stuck (code : Code σ γ κ) (s : State σ γ κ) : Prop :=
  (∃ t, s.asleep t ≠ none) ∧
    ∀ t, s.asleep t ≠ none ∨ code t (s.place t) s.shared = none

variable {code : Code σ γ κ} {s u : State σ γ κ} {t : Nat} {e : Effect σ γ κ}

theorem wake_eq_some {c : Option κ} {asleep : Nat → Option κ} {d : κ} :
    wake c asleep t = some d ↔ asleep t = some d ∧ c ≠ some d := by
  by_cases h : asleep t = c
  · simp only [wake,h]
    exact iff_of_false nofun fun hd => hd.2 hd.1
  · simp only [wake,if_neg h]
    exact ⟨fun hd => ⟨hd,fun hc => h (hd.trans hc.symm)⟩,fun hd => hd.1⟩

theorem step_eq_some :
    step code s t = some u ↔
      s.asleep t = none ∧ ∃ e, code t (s.place t) s.shared = some e ∧ s.after t e = u := by
  by_cases h : s.asleep t = none <;> simp [step,h]

@[simp] theorem after_shared : (s.after t e).shared = e.shared := rfl

@[simp] theorem after_place_self : (s.after t e).place t = e.next := update_self ..

theorem after_place_of_ne {t' : Nat} (h : t' ≠ t) : (s.after t e).place t' = s.place t' :=
  update_of_ne h ..

@[simp] theorem after_asleep_self : (s.after t e).asleep t = e.sleeps := update_self ..

theorem after_asleep_of_ne {t' : Nat} (h : t' ≠ t) :
    (s.after t e).asleep t' = wake e.wakes s.asleep t' := update_of_ne h ..

/-- Who sleeps after a section: its own thread, or one that slept before and was not woken up. -/
theorem asleep_after {t' : Nat} {c : κ} (h : (s.after t e).asleep t' = some c) :
    t' = t ∧ e.sleeps = some c ∨ t' ≠ t ∧ s.asleep t' = some c ∧ e.wakes ≠ some c := by
  by_cases ht : t' = t
  · subst ht
    exact .inl ⟨rfl,by simpa using h⟩
  · rw [after_asleep_of_ne ht,wake_eq_some] at h
    exact .inr ⟨ht,h⟩

/-- What is known of the sleepers: it is so for a thread that goes to sleep, and a section that
leaves a sleeper asleep does not change it. -/
theorem sleepers_after {B : γ → κ → σ → Prop}
    (h : ∀ t c, s.asleep t = some c → B (s.place t) c s.shared)
    (hsleep : ∀ c, e.sleeps = some c → B e.next c e.shared)
    (hkeep : ∀ p c, e.wakes ≠ some c → B p c s.shared → B p c e.shared) (t' : Nat) (c : κ)
    (hc : (s.after t e).asleep t' = some c) :
    B ((s.after t e).place t') c (s.after t e).shared := by
  rcases asleep_after hc with ⟨rfl,hs⟩ | ⟨ht,ha,hw⟩
  · simpa using hsleep c hs
  · rw [after_place_of_ne ht]
    exact hkeep _ _ hw (h t' c ha)

/-- Somebody awake will see to the sleepers of each channel: a section wakes them up, or leaves its
thread where it still will, or there is somebody else who will. -/
theorem wakers_after {W : κ → γ → Prop}
    (h : ∀ t c, s.asleep t = some c → ∃ t', s.asleep t' = none ∧ W c (s.place t'))
    (hsleep : ∀ c, e.sleeps = some c → ∃ t', t' ≠ t ∧ s.asleep t' = none ∧ W c (s.place t'))
    (hpass : ∀ c, W c (s.place t) → e.wakes = some c ∨ (e.sleeps = none ∧ W c e.next) ∨
      ∃ t', t' ≠ t ∧ s.asleep t' = none ∧ W c (s.place t')) (t₁ : Nat) (c : κ)
    (hc : (s.after t e).asleep t₁ = some c) :
    ∃ t', (s.after t e).asleep t' = none ∧ W c ((s.after t e).place t') := by
  have hstays : (∃ t', t' ≠ t ∧ s.asleep t' = none ∧ W c (s.place t')) →
      ∃ t', (s.after t e).asleep t' = none ∧ W c ((s.after t e).place t') := by
    rintro ⟨t',hne,ha,hw⟩
    refine ⟨t',?_,by rwa [after_place_of_ne hne]⟩
    rw [after_asleep_of_ne hne]
    simp [wake,ha]
  rcases asleep_after hc with ⟨-,hs⟩ | ⟨-,hold,hno⟩
  · exact hstays (hsleep c hs)
  · obtain ⟨t',ha,hw⟩ := h t₁ c hold
    by_cases ht : t' = t
    · subst ht
      rcases hpass c hw with hwakes | ⟨hs,hnext⟩ | hother
      · exact absurd hwakes hno
      · exact ⟨t',by simpa using hs,by simpa using hnext⟩
      · exact hstays hother
    · exact hstays ⟨t',ht,ha,hw⟩

/-- A thread that is not scheduled stays where it is, and if it was awake it stays so. -/
theorem run_untouched {sched : List Nat} (h : Runs.run (step code) s sched = some u)
    (ht : t ∉ sched) (ha : s.asleep t = none) : u.place t = s.place t ∧ u.asleep t = none := by
  induction sched generalizing s with
  | nil =>
    cases h
    exact ⟨rfl,ha⟩
  | cons x xs ih =>
    obtain ⟨v,hv,hr⟩ := Runs.run_cons.mp h
    obtain ⟨-,e,-,rfl⟩ := step_eq_some.mp hv
    have hne : t ≠ x := fun heq => ht (heq ▸ List.mem_cons_self)
    have hv : (s.after x e).asleep t = none := by
      rw [after_asleep_of_ne hne]
      simp [wake,ha]
    obtain ⟨hp,hn⟩ := ih hr (fun hmem => ht (List.mem_cons_of_mem x hmem)) hv
    exact ⟨hp.trans (after_place_of_ne hne),hn⟩

end Steps

end MipsOs.Tasks

namespace MipsOs.LockPrograms
open Tasks Function

variable {L M : Type}

inductive Op (L M : Type) where
  | acquire (l : L)
  | release (l : L)
  | say (m : M)
  deriving DecidableEq, Repr

/-- The owners of the locks and what has been said so far, each with the thread that said it. -/
structure Shared (L M : Type) where
  owner : L → Option Nat
  said : List (Nat × M)

abbrev Threads (L M : Type) := State (Shared L M) (List (Op L M)) L

def start (progs : Nat → List (Op L M)) : Threads L M := ⟨⟨fun _ => none,[]⟩,progs,fun _ => none⟩

def messages : List (Op L M) → List M
  | [] => []
  | .say m :: rest => m :: messages rest
  | _ :: rest => messages rest

def Holds (p : List (Op L M)) (l : L) : Prop := .release l ∈ p ∧ .acquire l ∉ p

/-- Each lock is acquired once, and released once after that. -/
def Balanced : List (Op L M) → Prop
  | [] => True
  | .acquire l :: rest => (.release l ∈ rest ∧ .acquire l ∉ rest) ∧ Balanced rest
  | .release l :: rest => (.release l ∉ rest ∧ .acquire l ∉ rest) ∧ Balanced rest
  | .say _ :: rest => Balanced rest

section Programs

variable {p q : List (Op L M)} {l l' : L} {m : M}

theorem Balanced.suffix (h : Balanced p) (hq : q <:+ p) : Balanced q := by
  induction p with
  | nil =>
    obtain rfl := List.suffix_nil.mp hq
    exact h
  | cons op rest ih =>
    rcases List.suffix_cons_iff.mp hq with rfl | hrest
    · exact h
    · refine ih ?_ hrest
      cases op with
      | acquire | release => exact h.2
      | say m => exact h

@[simp] theorem holds_say : Holds (.say m :: p) l ↔ Holds p l := by
  simp [Holds]

@[simp] theorem holds_acquire_self : ¬ Holds (.acquire l :: p) l := by
  simp [Holds]

end Programs

section Steps

variable [DecidableEq L]

def code : Code (Shared L M) (List (Op L M)) L
  | _, [], _ => none
  | t, .acquire l :: rest, x =>
    if x.owner l = none then
      some ⟨{ x with owner := update x.owner l (some t) },rest,none,none⟩
    else some ⟨x,.acquire l :: rest,none,some l⟩
  | t, .release l :: rest, x =>
    if x.owner l = some t then
      some ⟨{ x with owner := update x.owner l none },rest,some l,none⟩
    else none
  | t, .say m :: rest, x => some ⟨{ x with said := x.said ++ [(t,m)] },rest,none,none⟩

variable {s u : Threads L M} {t : Nat} {progs : Nat → List (Op L M)}

inductive Did (s : Threads L M) (t : Nat) : Threads L M → Prop
  | waits {l : L} {rest : List (Op L M)} (hp : s.place t = .acquire l :: rest)
      (ho : s.shared.owner l ≠ none) : Did s t (s.after t ⟨s.shared,.acquire l :: rest,none,some l⟩)
  | acquires {l : L} {rest : List (Op L M)} (hp : s.place t = .acquire l :: rest)
      (ho : s.shared.owner l = none) :
      Did s t (s.after t
        ⟨⟨update s.shared.owner l (some t),s.shared.said⟩,rest,none,none⟩)
  | releases {l : L} {rest : List (Op L M)} (hp : s.place t = .release l :: rest)
      (ho : s.shared.owner l = some t) :
      Did s t (s.after t ⟨⟨update s.shared.owner l none,s.shared.said⟩,rest,some l,none⟩)
  | tells {m : M} {rest : List (Op L M)} (hp : s.place t = .say m :: rest) :
      Did s t (s.after t ⟨⟨s.shared.owner,s.shared.said ++ [(t,m)]⟩,rest,none,none⟩)

theorem did_of_step (h : step code s t = some u) : Did s t u := by
  obtain ⟨-,e,he,rfl⟩ := step_eq_some.mp h
  cases hp : s.place t with
  | nil => simp [hp,code] at he
  | cons op rest =>
    cases op with
    | acquire l =>
      by_cases ho : s.shared.owner l = none
      · simp only [hp,code,if_pos ho,Option.some.injEq] at he
        exact he ▸ .acquires hp ho
      · simp only [hp,code,if_neg ho,Option.some.injEq] at he
        exact he ▸ .waits hp ho
    | release l =>
      by_cases ho : s.shared.owner l = some t
      · simp only [hp,code,if_pos ho,Option.some.injEq] at he
        exact he ▸ .releases hp ho
      · simp [hp,code,ho] at he
    | say m =>
      simp only [hp,code,Option.some.injEq] at he
      exact he ▸ .tells hp

def Queued (p : List (Op L M)) (l : L) (x : Shared L M) : Prop :=
  (∃ rest, p = .acquire l :: rest) ∧ x.owner l ≠ none

/-- The owner of a lock is the thread between its acquire and its release, whoever sleeps on a lock
is about to acquire it and finds it owned, and what has been said is what the parts of the programs
that have been run say. -/
structure Inv (progs : Nat → List (Op L M)) (s : Threads L M) : Prop where
  suffix : ∀ t, s.place t <:+ progs t
  owner : ∀ l t, s.shared.owner l = some t ↔ Holds (s.place t) l
  sleepers : ∀ t l, s.asleep t = some l → Queued (s.place t) l s.shared
  said : ∀ t, ((s.shared.said.filter fun x => x.1 == t).map Prod.snd) ++ messages (s.place t) =
    messages (progs t)

omit [DecidableEq L] in
theorem Inv.balanced (h : Inv progs s) (hb : ∀ t, Balanced (progs t)) (t : Nat) :
    Balanced (s.place t) := (hb t).suffix (h.suffix t)

omit [DecidableEq L] in
theorem inv_start (hfree : ∀ t l, ¬ Holds (progs t) l) : Inv progs (start progs) where
  suffix t := List.suffix_refl _
  owner l t := iff_of_false (by simp [start]) (hfree t l)
  sleepers t l h := by simp [start] at h
  said t := by simp [start]

variable {rest : List (Op L M)} {e : Effect (Shared L M) (List (Op L M)) L} {l : L}

section

variable (h : Inv progs s)

include h

theorem Inv.suffix_after {op : Op L M} (hp : s.place t = op :: rest) (he : e.next = rest)
    (t' : Nat) : (s.after t e).place t' <:+ progs t' := by
  by_cases ht : t' = t
  · subst ht
    have hsuf := h.suffix t'
    rw [hp] at hsuf
    rw [after_place_self,he]
    exact (List.suffix_cons op rest).trans hsuf
  · rw [after_place_of_ne ht]
    exact h.suffix t'

theorem Inv.said_after (hs : e.shared.said = s.shared.said)
    (he : messages e.next = messages (s.place t)) (t' : Nat) :
    (((s.after t e).shared.said.filter fun x => x.1 == t').map Prod.snd) ++
      messages ((s.after t e).place t') = messages (progs t') := by
  rw [after_shared,hs]
  by_cases ht : t' = t
  · subst ht
    rw [after_place_self,he]
    exact h.said t'
  · rw [after_place_of_ne ht]
    exact h.said t'

theorem Inv.waits (hp : s.place t = .acquire l :: rest) (ho : s.shared.owner l ≠ none) :
    Inv progs (s.after t ⟨s.shared,.acquire l :: rest,none,some l⟩) := by
  have hplace : ∀ t', (s.after t ⟨s.shared,.acquire l :: rest,none,some l⟩).place t' = s.place t' := by
    intro t'
    by_cases ht : t' = t
    · subst ht
      rw [after_place_self,hp]
    · exact after_place_of_ne ht
  refine ⟨fun t' => ?_,fun l' t' => ?_,?_,fun t' => ?_⟩
  · rw [hplace]
    exact h.suffix t'
  · rw [hplace]
    exact h.owner l' t'
  · refine sleepers_after (B := Queued) h.sleepers (fun c hc => ?_) fun _ _ _ hB => hB
    obtain rfl := Option.some.inj hc
    exact ⟨⟨rest,rfl⟩,ho⟩
  · rw [hplace]
    exact h.said t'

theorem Inv.acquires (hb : Balanced (s.place t)) (hp : s.place t = .acquire l :: rest)
    (ho : s.shared.owner l = none) :
    Inv progs (s.after t
      ⟨⟨update s.shared.owner l (some t),s.shared.said⟩,rest,none,none⟩) := by
  rw [hp] at hb
  have hothers : ∀ t', ¬ Holds (s.place t') l := by
    intro t' ht'
    rw [← h.owner,ho] at ht'
    cases ht'
  refine ⟨h.suffix_after hp rfl,fun l' t' => ?_,?_,h.said_after rfl (by simp [hp,messages])⟩
  · by_cases hl : l' = l
    · subst hl
      by_cases ht : t' = t
      · subst ht
        simpa [Holds] using hb.1
      · rw [after_place_of_ne ht]
        simpa [Ne.symm ht] using hothers t'
    · simp only [after_shared,update_of_ne hl,h.owner]
      by_cases ht : t' = t
      · subst ht
        simp [hp,Holds,hl]
      · rw [after_place_of_ne ht]
  · refine sleepers_after (B := Queued) h.sleepers (by simp) fun p c _ hB => ⟨hB.1,?_⟩
    by_cases hc : c = l
    · simp [hc]
    · simpa [hc] using hB.2

theorem Inv.releases (hb : Balanced (s.place t)) (hp : s.place t = .release l :: rest)
    (ho : s.shared.owner l = some t) :
    Inv progs (s.after t
      ⟨⟨update s.shared.owner l none,s.shared.said⟩,rest,some l,none⟩) := by
  rw [hp] at hb
  refine ⟨h.suffix_after hp rfl,fun l' t' => ?_,?_,h.said_after rfl (by simp [hp,messages])⟩
  · by_cases hl : l' = l
    · subst hl
      by_cases ht : t' = t
      · subst ht
        simp [Holds,hb.1]
      · rw [after_place_of_ne ht,← h.owner,ho]
        simp [Ne.symm ht]
    · simp only [after_shared,update_of_ne hl,h.owner]
      by_cases ht : t' = t
      · subst ht
        simp [hp,Holds,hl]
      · rw [after_place_of_ne ht]
  · refine sleepers_after (B := Queued) h.sleepers (by simp) fun p c hc hB => ⟨hB.1,?_⟩
    have hne : c ≠ l := fun heq => hc (heq ▸ rfl)
    simpa [hne] using hB.2

theorem Inv.tells {m : M} (hp : s.place t = .say m :: rest) :
    Inv progs (s.after t ⟨⟨s.shared.owner,s.shared.said ++ [(t,m)]⟩,rest,none,none⟩) := by
  refine ⟨h.suffix_after hp rfl,fun l t' => ?_,?_,fun t' => ?_⟩
  · simp only [after_shared,h.owner]
    by_cases ht : t' = t
    · subst ht
      rw [after_place_self,hp,holds_say]
    · rw [after_place_of_ne ht]
  · exact sleepers_after (B := Queued) h.sleepers (by simp) fun _ _ _ hB => hB
  · have hsaid := h.said t'
    by_cases ht : t' = t
    · subst ht
      rw [hp] at hsaid
      simpa [messages] using hsaid
    · rw [after_place_of_ne ht]
      simpa [Ne.symm ht] using hsaid

theorem Inv.did (hb : ∀ t, Balanced (progs t)) (hd : Did s t u) : Inv progs u := by
  cases hd with
  | waits hp ho => exact h.waits hp ho
  | acquires hp ho => exact h.acquires (h.balanced hb t) hp ho
  | releases hp ho => exact h.releases (h.balanced hb t) hp ho
  | tells hp => exact h.tells hp

theorem Inv.run (hb : ∀ t, Balanced (progs t)) {sched : List Nat}
    (hr : Runs.run (step code) s sched = some u) : Inv progs u :=
  Runs.run_keeps (C := fun _ _ => True) (fun _ _ _ hi _ hs => hi.did hb (did_of_step hs)) h
    (.trivial ..) hr

end

def Ready (s : Threads L M) (t : Nat) : Prop :=
  s.asleep t = none ∧ ∃ op rest u, s.place t = op :: rest ∧
    step code s t = some u ∧ u.place t = rest

def Waits (s : Threads L M) (t t' : Nat) (l : L) : Prop :=
  (∃ rest, s.place t = .acquire l :: rest) ∧ Holds (s.place t') l

omit [DecidableEq L] in
theorem Waits.ne {t' : Nat} (h : Waits s t t' l) : t' ≠ t := by
  rintro rfl
  obtain ⟨⟨rest,hp⟩,hh⟩ := h
  rw [hp] at hh
  exact holds_acquire_self hh

/-- A thread that is not at its end goes on or waits for another one, which is not at its end. -/
theorem Inv.ready_or_waits (h : Inv progs s) (hb : ∀ t, Balanced (progs t))
    (ht : s.place t ≠ []) : Ready s t ∨ ∃ t' l, Waits s t t' l ∧ s.place t' ≠ [] := by
  obtain ⟨op,rest,hp⟩ := List.exists_cons_of_ne_nil ht
  have hwaits : ∀ l, s.place t = .acquire l :: rest → s.shared.owner l ≠ none →
      ∃ t' l, Waits s t t' l ∧ s.place t' ≠ [] := by
    intro l hl ho
    obtain ⟨t',ht'⟩ := Option.ne_none_iff_exists'.mp ho
    have hholds := (h.owner l t').mp ht'
    exact ⟨t',l,⟨⟨rest,hl⟩,hholds⟩,List.ne_nil_of_mem hholds.1⟩
  cases ha : s.asleep t with
  | some l =>
    obtain ⟨⟨rest',hp'⟩,ho⟩ := h.sleepers t l ha
    rw [hp] at hp'
    cases hp'
    exact .inr (hwaits l hp ho)
  | none =>
    have hstep : ∀ e, code t (op :: rest) s.shared = some e → e.next = rest → Ready s t := by
      intro e he hn
      refine ⟨ha,op,rest,s.after t e,hp,step_eq_some.mpr ⟨ha,e,?_,rfl⟩,?_⟩
      · rw [hp]
        exact he
      · rw [after_place_self,hn]
    cases op with
    | acquire l =>
      by_cases ho : s.shared.owner l = none
      · exact .inl (hstep _ (by simp [code,ho]; rfl) rfl)
      · exact .inr (hwaits l hp ho)
    | release l =>
      have hbal := h.balanced hb t
      rw [hp] at hbal
      have ho : s.shared.owner l = some t := by
        rw [h.owner,hp]
        simpa [Holds] using hbal.1.2
      exact .inl (hstep _ (by simp [code,ho]; rfl) rfl)
    | say m => exact .inl (hstep _ rfl rfl)

end Steps

end MipsOs.LockPrograms
