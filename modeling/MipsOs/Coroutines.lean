import Mathlib.Logic.Function.Basic
import MipsOs.Runs

/-! Threads that share a state and one device. A thread is not interrupted between two uses of the
device. What a thread may rely on in between is given by what it holds: the others leave that alone,
and it leaves alone what they hold. -/

set_option autoImplicit false
namespace MipsOs.Coroutines
open Function Runs

/-- The code of a thread: it ends, it stops the machine, it changes the state and goes on, or it
uses the device. `ask` is what it tells the device when its turn has come; `none` gives up. -/
inductive Co (σ Q R π α : Type) where
  | ret (a : α)
  | halt (p : π)
  | act (f : σ → σ) (k : σ → Co σ Q R π α)
  | call (ask : σ → Option Q) (k : Option R → Co σ Q R π α)

variable {σ Q R π α β ρ ι : Type}

namespace Co

def bind : Co σ Q R π α → (α → Co σ Q R π β) → Co σ Q R π β
  | .ret a, h => h a
  | .halt p, _ => .halt p
  | .act f k, h => .act f fun s => (k s).bind h
  | .call ask k, h => .call ask fun r => (k r).bind h

instance instMonad : Monad (Co σ Q R π) where
  pure := .ret
  bind := .bind

def read (g : σ → β) : Co σ Q R π β := .act id fun s => .ret (g s)

def modify (f : σ → σ) : Co σ Q R π Unit := .act f fun _ => .ret ()

def settle : Co σ Q R π α → σ → σ × Co σ Q R π α
  | .act f k, s => settle (k s) (f s)
  | .ret a, s => (s,.ret a)
  | .halt p, s => (s,.halt p)
  | .call ask k, s => (s,.call ask k)

end Co

/-- `device` is the thread that has been granted the device, and what it asked for. -/
structure Machine (ι σ Q R π α : Type) where
  shared : σ
  code : ι → Co σ Q R π α
  device : Option (ι × Q)

section Steps

variable [DecidableEq ι]

def Machine.go (m : Machine ι σ Q R π α) (t : ι) (c : Co σ Q R π α) (s : σ)
    (d : Option (ι × Q)) : Machine ι σ Q R π α where
  shared := (c.settle s).1
  code := update m.code t (c.settle s).2
  device := d

/-- Thread `a.1` is run: it starts, it is granted the device, or the device has served it, with the
result `a.2`. -/
def step (serve : Q → ρ → σ → σ × R) (m : Machine ι σ Q R π α) (a : ι × ρ) :
    Option (Machine ι σ Q R π α) :=
  match m.code a.1 with
  | .ret _ => none
  | .halt _ => none
  | .act f k => some (m.go a.1 (.act f k) m.shared m.device)
  | .call ask k =>
    match m.device with
    | none =>
      match ask m.shared with
      | none => some (m.go a.1 (k none) m.shared none)
      | some q => some { m with device := some (a.1,q) }
    | some (t,q) =>
      if t = a.1 then
        some (m.go a.1 (k (some (serve q a.2 m.shared).2)) (serve q a.2 m.shared).1 none)
      else none

variable {serve : Q → ρ → σ → σ × R} {m u : Machine ι σ Q R π α} {a : ι × ρ}

theorem step_cases (h : step serve m a = some u) :
    (∃ f k, m.code a.1 = .act f k ∧ u = m.go a.1 (.act f k) m.shared m.device) ∨
    (∃ ask k, m.code a.1 = .call ask k ∧ m.device = none ∧ ask m.shared = none ∧
      u = m.go a.1 (k none) m.shared none) ∨
    (∃ ask k q, m.code a.1 = .call ask k ∧ m.device = none ∧ ask m.shared = some q ∧
      u = { m with device := some (a.1,q) }) ∨
    ∃ ask k q, m.code a.1 = .call ask k ∧ m.device = some (a.1,q) ∧
      u = m.go a.1 (k (some (serve q a.2 m.shared).2)) (serve q a.2 m.shared).1 none := by
  unfold step at h
  split at h
  · cases h
  · cases h
  · next f k hc =>
    cases h
    exact .inl ⟨f,k,hc,rfl⟩
  · next ask k hc =>
    split at h
    · next hd =>
      split at h
      · next hask =>
        cases h
        exact .inr (.inl ⟨ask,k,hc,hd,hask,rfl⟩)
      · next q hask =>
        cases h
        exact .inr (.inr (.inl ⟨ask,k,q,hc,hd,hask,rfl⟩))
    · next t q hd =>
      split at h
      · next ht =>
        cases h
        subst ht
        exact .inr (.inr (.inr ⟨ask,k,q,hc,hd,rfl⟩))
      · cases h

end Steps

section Rules

variable [DecidableEq ι] {W : Type}

-- `E t w s s'`: the states are the same for thread `t` while it holds `w`; `Fit ws s`: the threads
-- can hold `ws` in the state `s`; `ok`: the results that the device can have
variable (E : ι → W → σ → σ → Prop) (Fit : (ι → W) → σ → Prop) (serve : Q → ρ → σ → σ × R)
  (ok : ρ → Prop)

/-- Thread `t` goes from `s` to `s'` and holds `w` then. The others do not notice. -/
def Moves (t : ι) (ws : ι → W) (w : W) (s s' : σ) : Prop :=
  Fit (update ws t w) s' ∧ ∀ u, u ≠ t → E u (ws u) s s'

/-- The code of `t`, run in the state `s` by a thread that holds `w`, does not stop the machine, and
`P` holds when it ends, whatever the others do. -/
def Within (t : ι) (P : W → α → σ → Prop) : W → Co σ Q R π α → σ → Prop
  | w, .ret a, s => P w a s
  | _, .halt _, _ => False
  | w, .act f k, s => ∀ ws, Fit ws s → ws t = w →
    ∃ w', Moves E Fit t ws w' s (f s) ∧ Within t P w' (k s) (f s)
  | w, .call ask k, s => ∀ s', E t w s s' →
    (ask s' = none → Within t P w (k none) s') ∧
    ∀ q, ask s' = some q → ∀ s'', E t w s' s'' → ∀ r, ok r → ∀ ws, Fit ws s'' → ws t = w →
      ∃ w', Moves E Fit t ws w' s'' (serve q r s'').1 ∧
        Within t P w' (k (some (serve q r s'').2)) (serve q r s'').1

def Waits (t : ι) (P : W → α → σ → Prop) (w : W) (c : Co σ Q R π α) (s : σ) : Prop :=
  ∀ s', E t w s s' → Within E Fit serve ok t P w c s'

def Pending (t : ι) (P : W → α → σ → Prop) (w : W) (q : Q) (k : Option R → Co σ Q R π α)
    (s : σ) : Prop :=
  ∀ s', E t w s s' → ∀ r, ok r → ∀ ws, Fit ws s' → ws t = w →
    ∃ w', Moves E Fit t ws w' s' (serve q r s').1 ∧
      Within E Fit serve ok t P w' (k (some (serve q r s').2)) (serve q r s').1

variable {E Fit serve ok} {t : ι} {P : W → α → σ → Prop} {c : Co σ Q R π α} {s s' : σ} {w : W}
  {ws : ι → W}

theorem Within.bind {h : α → Co σ Q R π β} {P : W → β → σ → Prop}
    (hc : Within E Fit serve ok t (fun w a => Within E Fit serve ok t P w (h a)) w c s) :
    Within E Fit serve ok t P w (c >>= h) s := by
  induction c generalizing s w with
  | ret a => exact hc
  | halt p => exact hc.elim
  | act f k ih =>
    intro ws hfit hw
    obtain ⟨w',hmoves,hnext⟩ := hc ws hfit hw
    exact ⟨w',hmoves,ih s hnext⟩
  | call ask k ih =>
    intro s' hs
    obtain ⟨hnone,hsome⟩ := hc s' hs
    refine ⟨fun hq => ih none (hnone hq),fun q hq s'' hs' r hr ws hfit hw => ?_⟩
    obtain ⟨w',hmoves,hnext⟩ := hsome q hq s'' hs' r hr ws hfit hw
    exact ⟨w',hmoves,ih _ hnext⟩

theorem Within.mono {P' : W → α → σ → Prop} (h : Within E Fit serve ok t P w c s)
    (hp : ∀ w a s, P w a s → P' w a s) : Within E Fit serve ok t P' w c s := by
  induction c generalizing s w with
  | ret a => exact hp w a s h
  | halt p => exact h.elim
  | act f k ih =>
    intro ws hfit hw
    obtain ⟨w',hmoves,hnext⟩ := h ws hfit hw
    exact ⟨w',hmoves,ih s hnext⟩
  | call ask k ih =>
    intro s' hs
    obtain ⟨hnone,hsome⟩ := h s' hs
    refine ⟨fun hq => ih none (hnone hq),fun q hq s'' hs' r hr ws hfit hw => ?_⟩
    obtain ⟨w',hmoves,hnext⟩ := hsome q hq s'' hs' r hr ws hfit hw
    exact ⟨w',hmoves,ih _ hnext⟩

variable (hE : ∀ t w, Equivalence (E t w))

include hE

theorem Moves.same (hfit : Fit ws s) (hw : ws t = w) : Moves E Fit t ws w s s := by
  subst hw
  refine ⟨?_,fun u _ => (hE u _).refl s⟩
  rw [update_eq_self]
  exact hfit

/-- What the thread reads may depend on what the threads hold. -/
theorem Within.read {g : σ → α} (hp : ∀ ws, Fit ws s → ws t = w → P w (g s) s) :
    Within E Fit serve ok t P w (Co.read g : Co σ Q R π α) s :=
  fun ws hfit hw => ⟨w,Moves.same hE hfit hw,hp ws hfit hw⟩

omit hE in
theorem Within.modify {f : σ → σ} {P : W → Unit → σ → Prop} {w' : W}
    (hf : ∀ ws, Fit ws s → ws t = w → Moves E Fit t ws w' s (f s)) (hp : P w' () (f s)) :
    Within E Fit serve ok t P w (Co.modify f : Co σ Q R π Unit) s :=
  fun ws hfit hw => ⟨w',hf ws hfit hw,hp⟩

theorem Waits.congr (h : Waits E Fit serve ok t P w c s) (hs : E t w s s') :
    Waits E Fit serve ok t P w c s' := fun _ hs' => h _ ((hE t w).trans hs hs')

theorem Pending.congr {q : Q} {k : Option R → Co σ Q R π α}
    (h : Pending E Fit serve ok t P w q k s) (hs : E t w s s') :
    Pending E Fit serve ok t P w q k s' := fun _ hs' => h _ ((hE t w).trans hs hs')

theorem Moves.trans {s'' : σ} {w' : W} (h : Moves E Fit t ws w s s')
    (h' : Moves E Fit t (update ws t w) w' s' s'') : Moves E Fit t ws w' s s'' := by
  refine ⟨by simpa using h'.1,fun u hu => (hE u _).trans (h.2 u hu) ?_⟩
  simpa [update_of_ne hu] using h'.2 u hu

theorem Within.settle (hP : ∀ w a s s', E t w s s' → P w a s → P w a s')
    (h : Within E Fit serve ok t P w c s) (hfit : Fit ws s) (hw : ws t = w) :
    ∃ w', Moves E Fit t ws w' s (c.settle s).1 ∧
      Waits E Fit serve ok t P w' (c.settle s).2 (c.settle s).1 := by
  induction c generalizing s w ws with
  | ret a => exact ⟨w,Moves.same hE hfit hw,fun s' hs => hP w a s s' hs h⟩
  | halt p => exact h.elim
  | call ask k ih =>
    exact ⟨w,Moves.same hE hfit hw,fun s' hs s'' hs' => h s'' ((hE t w).trans hs hs')⟩
  | act f k ih =>
    obtain ⟨w₁,hmoves,hnext⟩ := h ws hfit hw
    obtain ⟨w₂,hrest,hend⟩ := ih s hnext hmoves.1 (by simp)
    exact ⟨w₂,hmoves.trans hE hrest,hend⟩

end Rules

section Runs

variable [DecidableEq ι] {W : Type} {E : ι → W → σ → σ → Prop} {Fit : (ι → W) → σ → Prop}
  {serve : Q → ρ → σ → σ × R} {ok : ρ → Prop} {P : ι → W → α → σ → Prop}
  {m u : Machine ι σ Q R π α} {a : ι × ρ} {t : ι} {ws : ι → W}

/-- The threads hold `ws`, and each of them can go on from where it is. -/
structure Kept (E : ι → W → σ → σ → Prop) (Fit : (ι → W) → σ → Prop)
    (serve : Q → ρ → σ → σ × R) (ok : ρ → Prop) (P : ι → W → α → σ → Prop) (ws : ι → W)
    (m : Machine ι σ Q R π α) : Prop where
  fit : Fit ws m.shared
  idle : ∀ t, (∀ q, m.device ≠ some (t,q)) →
    Waits E Fit serve ok t (P t) (ws t) (m.code t) m.shared
  busy : ∀ t q, m.device = some (t,q) → ∃ ask k, m.code t = .call ask k ∧
    Pending E Fit serve ok t (P t) (ws t) q k m.shared

variable (hE : ∀ t w, Equivalence (E t w))
  (hP : ∀ t w a s s', E t w s s' → P t w a s → P t w a s')

include hE hP

theorem Kept.go (h : Kept E Fit serve ok P ws m) {c : Co σ Q R π α} {s : σ} {w : W}
    (hmoves : Moves E Fit t ws w m.shared s) (hc : Within E Fit serve ok t (P t) w c s)
    {d : Option (ι × Q)} (hd : d = none ∨ d = m.device ∧ ∀ q, d ≠ some (t,q))
    (hdev : ∀ u q, m.device = some (u,q) → u ≠ t → d = m.device) :
    ∃ ws', Kept E Fit serve ok P ws' (m.go t c s d) := by
  obtain ⟨w',hrest,hend⟩ := hc.settle hE (hP t) hmoves.1 (by simp)
  obtain ⟨hfit,hframe⟩ := hmoves.trans hE hrest
  refine ⟨update ws t w',hfit,fun u hu => ?_,fun u q hu => ?_⟩
  · by_cases hut : u = t
    · subst hut
      simpa [Machine.go] using hend
    · have hidle : ∀ q, m.device ≠ some (u,q) := fun q hq =>
        hu q ((hdev u q hq hut).trans hq)
      simp only [Machine.go,update_of_ne hut]
      exact (h.idle u hidle).congr hE (hframe u hut)
  · rcases hd with rfl | ⟨rfl,hne⟩
    · cases hu
    · have hut : u ≠ t := fun he => hne q (he ▸ hu)
      obtain ⟨ask,k,hcode,hpend⟩ := h.busy u q hu
      simp only [Machine.go,update_of_ne hut]
      exact ⟨ask,k,hcode,hpend.congr hE (hframe u hut)⟩

theorem Kept.step (h : Kept E Fit serve ok P ws m) (ha : ok a.2)
    (hs : step serve m a = some u) : ∃ ws', Kept E Fit serve ok P ws' u := by
  have hsame : Moves E Fit a.1 ws (ws a.1) m.shared m.shared := Moves.same hE h.fit rfl
  rcases step_cases hs with ⟨f,k,hc,rfl⟩ | ⟨ask,k,hc,hd,hask,rfl⟩ | ⟨ask,k,q,hc,hd,hask,rfl⟩ |
    ⟨ask,k,q,hc,hd,rfl⟩
  · have hfree : ∀ q, m.device ≠ some (a.1,q) := by
      intro q hq
      obtain ⟨ask,k',hc',-⟩ := h.busy a.1 q hq
      rw [hc] at hc'
      cases hc'
    have hw := h.idle a.1 hfree m.shared ((hE _ _).refl _)
    rw [hc] at hw
    exact h.go hE hP hsame hw (.inr ⟨rfl,hfree⟩) fun _ _ _ _ => rfl
  · have hw := h.idle a.1 (by simp [hd]) m.shared ((hE _ _).refl _)
    rw [hc] at hw
    have hnext := (hw m.shared ((hE _ _).refl _)).1 hask
    exact h.go hE hP hsame hnext (.inl rfl) (by simp [hd])
  · have hw := h.idle a.1 (by simp [hd]) m.shared ((hE _ _).refl _)
    rw [hc] at hw
    refine ⟨ws,h.fit,fun t _ => h.idle t (by simp [hd]),fun t q' hq => ?_⟩
    cases hq
    exact ⟨ask,k,hc,(hw m.shared ((hE _ _).refl _)).2 q hask⟩
  · obtain ⟨ask',k',hc',hpend⟩ := h.busy a.1 q hd
    rw [hc] at hc'
    cases hc'
    obtain ⟨w,hmoves,hnext⟩ := hpend m.shared ((hE _ _).refl _) a.2 ha ws h.fit rfl
    refine h.go hE hP hmoves hnext (.inl rfl) fun u q' hq hne => ?_
    rw [hd] at hq
    cases hq
    exact absurd rfl hne

variable {acts : List (ι × ρ)}

theorem run_kept (h : Kept E Fit serve ok P ws m) (hok : ∀ a ∈ acts, ok a.2)
    (hr : run (step serve) m acts = some u) : ∃ ws', Kept E Fit serve ok P ws' u :=
  run_keeps (I := fun m => ∃ ws, Kept E Fit serve ok P ws m)
    (fun _ _ _ h ha hs => h.elim fun _ h => h.step hE hP ha.2 hs) ⟨ws,h⟩
    ((Along.trivial _ _ _).and hok) hr

omit hP in
theorem Kept.ended (h : Kept E Fit serve ok P ws m) {x : α} (hx : m.code t = .ret x) :
    P t (ws t) x m.shared := by
  have hfree : ∀ q, m.device ≠ some (t,q) := by
    intro q hq
    obtain ⟨ask,k,hc,-⟩ := h.busy t q hq
    rw [hx] at hc
    cases hc
  have hw := h.idle t hfree m.shared ((hE _ _).refl _)
  rw [hx] at hw
  exact hw

end Runs

section Alone

variable [DecidableEq ι] {serve : Q → ρ → σ → σ × R} {m : Machine ι σ Q R π α}

def Co.ended : Co σ Q R π α → Prop
  | .ret _ => True
  | .halt _ => True
  | _ => False

/-- `m'` is `m` after thread `t` has been run on, alone, to its end. -/
structure Alone (serve : Q → ρ → σ → σ × R) (t : ι) (r : ρ) (m m' : Machine ι σ Q R π α)
    (n : Nat) : Prop where
  run : run (step serve) m (List.replicate n (t,r)) = some m'
  ended : (m'.code t).ended
  device : m'.device = none
  others : ∀ u, u ≠ t → m'.code u = m.code u

theorem Alone.cons {t : ι} {r : ρ} {m' u : Machine ι σ Q R π α} {n : Nat}
    (hs : step serve m (t,r) = some u) (hothers : ∀ v, v ≠ t → u.code v = m.code v)
    (h : Alone serve t r u m' n) : Alone serve t r m m' (n+1) where
  run := run_cons.mpr ⟨u,hs,h.run⟩
  ended := h.ended
  device := h.device
  others v hv := (h.others v hv).trans (hothers v hv)

theorem go_others (c : Co σ Q R π α) (s : σ) (d : Option (ι × Q)) {t v : ι} (hv : v ≠ t) :
    (m.go t c s d).code v = m.code v := by
  simp [Machine.go,update_of_ne hv]

theorem alone_go (serve : Q → ρ → σ → σ × R) (t : ι) (r : ρ) (c : Co σ Q R π α) (s : σ)
    (m : Machine ι σ Q R π α) :
    ∃ n m', Alone serve t r (m.go t c s none) m' n := by
  induction c generalizing s m with
  | ret | halt => exact ⟨0,_,rfl,by simp [Machine.go,Co.settle,Co.ended],rfl,fun _ _ => rfl⟩
  | act f k ih => exact ih s (f s) m
  | call ask k ih =>
    have hcode : (m.go t (.call ask k) s none).code t = .call ask k := by
      simp [Machine.go,Co.settle]
    cases hq : ask s with
    | none =>
      obtain ⟨n,m',h⟩ := ih none s (m.go t (.call ask k) s none)
      refine ⟨n+1,m',h.cons ?_ fun v hv => go_others _ _ _ hv⟩
      simp only [step,hcode]
      simp [Machine.go,Co.settle,hq]
    | some q =>
      obtain ⟨n,m',h⟩ := ih (some (serve q r s).2) (serve q r s).1
        { m.go t (.call ask k) s none with device := some (t,q) }
      -- it is granted the device, and then served
      have hgrant : step serve (m.go t (.call ask k) s none) (t,r) =
          some { m.go t (.call ask k) s none with device := some (t,q) } := by
        simp only [step,hcode]
        simp [Machine.go,Co.settle,hq]
      refine ⟨n+1+1,m',Alone.cons hgrant (fun _ _ => rfl)
        (h.cons ?_ fun v hv => go_others _ _ _ hv)⟩
      simp only [step,hcode]
      simp [Machine.go,Co.settle]

theorem alone (serve : Q → ρ → σ → σ × R) (t : ι) (r : ρ) (hd : m.device = none) :
    ∃ n m', Alone serve t r m m' n := by
  cases hc : m.code t with
  | ret | halt => exact ⟨0,m,rfl,by simp [hc,Co.ended],hd,fun _ _ => rfl⟩
  | act f k =>
    obtain ⟨n,m',h⟩ := alone_go serve t r (.act f k) m.shared m
    refine ⟨n+1,m',h.cons ?_ fun v hv => go_others _ _ _ hv⟩
    simp only [step,hc,hd]
  | call ask k =>
    obtain ⟨n,m',h⟩ := alone_go serve t r (.call ask k) m.shared m
    have hgo : m.go t (.call ask k) m.shared none = m := by
      cases m
      simp only [Machine.go,Co.settle] at hc hd ⊢
      rw [← hc,update_eq_self,hd]
    rw [hgo] at h
    exact ⟨n,m',h⟩

end Alone

end MipsOs.Coroutines
