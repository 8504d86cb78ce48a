import Mathlib.Tactic.Abel
import MipsOs.VfsLayer

/-! Reference and open counts: what kern/fs/vfs/vnode.c does to them, over file systems whose
functions answer in any way. The calls on path names conserve references: each entry point is
followed through its early exits, with the references it holds on the way. -/

set_option autoImplicit false
namespace MipsOs.Vfs
open Prog Function

inductive CountPanic where
  | vfs (a : Assertion)
  | refcount | opencount | killRefcount | killOpencount
  /-- vnode_check finds a vnode nobody refers to. -/
  | zeroRefcount
  deriving DecidableEq, Repr

/-- What the functions of the file systems answer; `ω` is all they remember. -/
structure Behaviour (ω F V : Type) where
  getvolname : F → Option Str
  devVnode : Nat → V
  vnFs : V → Option F
  fsGetroot : F → ω → Option V × ω
  vopOpen : V → Nat → ω → Except Errno Unit × ω
  vopClose : V → ω → Except Errno Unit × ω
  vopReclaim : V → ω → Except Errno Unit × ω
  vopReadlink : V → ω → Except Errno Unit × ω
  vopGettype : V → ω → Except Errno Nat × ω
  vopTruncate : V → Nat → ω → Except Errno Unit × ω
  vopCreat : V → Str → Bool → ω → Except Errno V × ω
  vopSymlink : V → Str → Str → ω → Except Errno Unit × ω
  vopMkdir : V → Str → ω → Except Errno Unit × ω
  vopLink : V → Str → V → ω → Except Errno Unit × ω
  vopRemove : V → Str → ω → Except Errno Unit × ω
  vopRmdir : V → Str → ω → Except Errno Unit × ω
  vopRename : V → Str → V → Str → ω → Except Errno Unit × ω
  vopLookup : V → Str → ω → Except Errno V × ω
  vopLookparent : V → Str → Nat → ω → Except Errno (V × Str) × ω

/-- vn_refcount and vn_opencount of every vnode; a vnode that does not exist has no references.
`unreclaimed` counts the calls of VOP_RECLAIM that have failed. -/
structure Counts (ω V : Type) where
  refcount : V → Nat
  opencount : V → Nat
  unreclaimed : V → Nat
  rest : ω

section Vnode

variable {ω F V α : Type} [DecidableEq V]

abbrev CountM (ω V α : Type) : Type := Prog (Counts ω V) Errno CountPanic α

def bump (f : V → Nat) (v : V) : V → Nat := update f v (f v + 1)

def answer (f : ω → Except Errno α × ω) : CountM ω V α := fun s =>
  match f s.rest with
  | (.ok a,w) => .ok a { s with rest := w }
  | (.error e,w) => .err e { s with rest := w }

def vnodeIncref (v : V) : CountM ω V Unit :=
  modify fun s => { s with refcount := bump s.refcount v }

/-- The end of a reclaim routine that succeeds. -/
def vnodeKill (v : V) : CountM ω V Unit := do
  let s ← get
  assert (s.refcount v = 1) .killRefcount
  assert (s.opencount v = 0) .killOpencount
  modify fun s => { s with
    refcount := update s.refcount v 0, opencount := update s.opencount v 0 }

/-- VOP_RECLAIM of a file system; a routine that fails leaves the vnode, and its count, as they are.
dev_reclaim returns 0 and leaves the count too: the vnode of a device has a reference from the list
of devices, so that its last one is never dropped. -/
def vopReclaim (b : Behaviour ω F V) (v : V) : CountM ω V Unit := do
  let result ← attempt (answer (b.vopReclaim v))
  match result with
  | .ok _ => vnodeKill v
  | .error _ => modify fun s => { s with unreclaimed := bump s.unreclaimed v }

def vnodeDecref (b : Behaviour ω F V) (v : V) : CountM ω V Unit := do
  let s ← get
  assert (0 < s.refcount v) .refcount
  if 1 < s.refcount v then
    modify fun s => { s with refcount := update s.refcount v (s.refcount v - 1) }
  else vopReclaim b v

def vnodeIncopen (v : V) : CountM ω V Unit :=
  modify fun s => { s with opencount := bump s.opencount v }

/-- vnode_check, for all operations but vop_reclaim. -/
def vnodeCheck (v : V) : CountM ω V Unit := do
  let s ← get
  assert (0 < s.refcount v) .zeroRefcount

def vnodeDecopen (b : Behaviour ω F V) (v : V) : CountM ω V Unit := do
  let s ← get
  assert (0 < s.opencount v) .opencount
  modify fun s => { s with opencount := update s.opencount v (s.opencount v - 1) }
  if 1 < s.opencount v then pure ()
  else do
    vnodeCheck v
    let _ ← attempt (answer (b.vopClose v))

def vop (v : V) (f : ω → Except Errno α × ω) : CountM ω V α := do
  vnodeCheck v
  answer f

/-- A VOP macro whose function hands back a vnode with a new reference. -/
def vopVnode (v : V) (f : ω → Except Errno α × ω) (handed : α → V) : CountM ω V α := do
  let a ← vop v f
  vnodeIncref (handed a)
  pure a

def fsGetrootVnode (b : Behaviour ω F V) (f : F) : CountM ω V (Option V) := do
  let root ← answer fun w => let r := b.fsGetroot f w; (.ok r.1,r.2)
  match root with
  | some v => do
    vnodeIncref v
    pure (some v)
  | none => pure none

def Behaviour.ops (b : Behaviour ω F V) : Ops (Counts ω V) CountPanic F V where
  stop := .vfs
  getvolname := b.getvolname
  devVnode := b.devVnode
  vnFs := b.vnFs
  incref := vnodeIncref
  decref := vnodeDecref b
  incopen := vnodeIncopen
  decopen := vnodeDecopen b
  fsGetroot := fsGetrootVnode b
  vopOpen v flags := vop v (b.vopOpen v flags)
  vopReadlink v := vop v (b.vopReadlink v)
  vopGettype v := vop v (b.vopGettype v)
  vopTruncate v len := vop v (b.vopTruncate v len)
  vopCreat v name excl := vopVnode v (b.vopCreat v name excl) id
  vopSymlink v name contents := vop v (b.vopSymlink v name contents)
  vopMkdir v name := vop v (b.vopMkdir v name)
  vopLink v name file := vop v (b.vopLink v name file)
  vopRemove v name := vop v (b.vopRemove v name)
  vopRmdir v name := vop v (b.vopRmdir v name)
  vopRename v name v' name' := vop v (b.vopRename v name v' name')
  vopLookup v path := vopVnode v (b.vopLookup v path) id
  vopLookparent v path buflen := vopVnode v (b.vopLookparent v path buflen) Prod.fst

end Vnode

section Changes

variable {ω F V α : Type}

abbrev State (ω F V : Type) : Type := Sys (Counts ω V) F V

/-- The reference counts have changed by `r` and the open counts by `p`, apart from the reference
that each VOP_RECLAIM that failed has left behind. -/
structure Moved (s t : State ω F V) (r p : V → Int) : Prop where
  refs : ∀ v, (t.world.refcount v : Int) = s.world.refcount v + r v +
    (t.world.unreclaimed v - s.world.unreclaimed v)
  opens : ∀ v, (t.world.opencount v : Int) = s.world.opencount v + p v
  leaks : ∀ v, s.world.unreclaimed v ≤ t.world.unreclaimed v
  devices : t.knowndevs = s.knowndevs

/-- As `Moved`, with the stored references as they were. -/
structure Stays (s t : State ω F V) (r p : V → Int) : Prop extends Moved s t r p where
  cwd : t.cwd = s.cwd
  boot : t.bootfsVnode = s.bootfsVnode

variable {s t u : State ω F V} {r r' p p' : V → Int} {v : V}

theorem Moved.trans (h : Moved s t r p) (h' : Moved t u r' p') : Moved s u (r + r') (p + p') where
  refs v := by
    have h1 := h.refs v
    have h2 := h'.refs v
    simp only [Pi.add_apply]
    omega
  opens v := by
    have h1 := h.opens v
    have h2 := h'.opens v
    simp only [Pi.add_apply]
    omega
  leaks v := (h.leaks v).trans (h'.leaks v)
  devices := h'.devices.trans h.devices

theorem Moved.step {r'' p'' : V → Int} (h : Moved s t r p) (h' : Moved t u r' p')
    (hr : r + r' = r'') (hp : p + p' = p'') : Moved s u r'' p'' := by
  rw [← hr,← hp]
  exact h.trans h'

theorem Stays.step {r'' p'' : V → Int} (h : Stays s t r p) (h' : Stays t u r' p')
    (hr : r + r' = r'') (hp : p + p' = p'') : Stays s u r'' p'' :=
  ⟨h.toMoved.step h'.toMoved hr hp,h'.cwd.trans h.cwd,h'.boot.trans h.boot⟩

theorem Stays.held (h : Stays s t r p) (hr : 0 < r v) : t.world.refcount v ≠ 0 := by
  have h1 := h.refs v
  have h2 := h.leaks v
  omega

theorem Stays.refl (s : State ω F V) : Stays s s 0 0 :=
  ⟨⟨fun v => by simp,fun v => by simp,fun _ => le_refl _,rfl⟩,rfl,rfl⟩

theorem stays_world {w : Counts ω V}
    (hr : ∀ v, (w.refcount v : Int) = s.world.refcount v + r v +
      (w.unreclaimed v - s.world.unreclaimed v))
    (hp : ∀ v, (w.opencount v : Int) = s.world.opencount v + p v)
    (hl : ∀ v, s.world.unreclaimed v ≤ w.unreclaimed v) :
    Stays s { s with world := w } r p := ⟨⟨hr,hp,hl,rfl⟩,rfl,rfl⟩

theorem answer_within (f : ω → Except Errno α × ω) (c : Counts ω V) :
    (answer f c).Within (fun _ d => ∃ w, d = { c with rest := w })
      (fun _ d => ∃ w, d = { c with rest := w }) False := by
  unfold answer
  split
  · exact ⟨_,rfl⟩
  · exact ⟨_,rfl⟩

theorem stays_rest (w : ω) : Stays s { s with world := { s.world with rest := w } } 0 0 :=
  stays_world (fun _ => by simp) (fun _ => by simp) fun _ => le_refl _

theorem vop_within (v : V) (f : ω → Except Errno α × ω) (c : Counts ω V) :
    (vop v f c).Within (fun _ d => ∃ w, d = { c with rest := w })
      (fun _ d => ∃ w, d = { c with rest := w }) (c.refcount v = 0) := by
  rw [vop,vnodeCheck]
  refine Outcome.Within.assert_bind (fun _ => ?_) fun hz => by simpa using hz
  exact (answer_within f c).mono (fun _ _ h => h) (fun _ _ h => h) False.elim

theorem call_vop (v : V) (f : ω → Except Errno α × ω) :
    (call (vop v f) s).Within (fun _ t => Stays s t 0 0) (fun _ t => Stays s t 0 0)
      (s.world.refcount v = 0) := by
  refine Outcome.Within.zoom ((vop_within v f s.world).mono ?_ ?_ id)
  · rintro - d ⟨w,rfl⟩
    exact stays_rest w
  · rintro - d ⟨w,rfl⟩
    exact stays_rest w

end Changes

section Held

variable {ω F V : Type} [DecidableEq V]

def one (v : V) : V → Int := fun w => if w = v then 1 else 0

def opt : Option V → V → Int
  | some v => one v
  | none => 0

def stored (s : State ω F V) : V → Int := opt s.cwd + opt s.bootfsVnode

/-- The kernel holds the references it needs: every open file and every stored directory has its
reference, the current directory is not a device, file systems have roots and devices are there. -/
structure Sound (b : Behaviour ω F V) (s : State ω F V) : Prop where
  refs : ∀ v, (s.world.opencount v : Int) + stored s v ≤ s.world.refcount v
  current : ∀ v, s.cwd = some v → b.vnFs v ≠ none
  roots : ∀ f w, (b.fsGetroot f w).1 ≠ none
  devices : ∀ n, vfsGetroot b.getvolname s.knowndevs n ≠ .noDevice

variable {b : Behaviour ω F V} {s t : State ω F V} {r p : V → Int} {v : V}

theorem one_self (v : V) : one v v = 1 := if_pos rfl

@[simp] theorem opt_some (v : V) : opt (some v) = one v := rfl

@[simp] theorem opt_none : opt (none : Option V) = 0 := rfl

theorem one_nonneg (v w : V) : 0 ≤ one v w := by
  unfold one
  split <;> omega

theorem opt_nonneg (x : Option V) (w : V) : 0 ≤ opt x w := by
  cases x with
  | none => exact le_refl _
  | some v => exact one_nonneg v w

theorem stored_nonneg (s : State ω F V) (v : V) : 0 ≤ stored s v :=
  add_nonneg (opt_nonneg _ v) (opt_nonneg _ v)

/-- Who holds a reference besides those that are stored can use the vnode and give it up. -/
theorem Sound.spare (h : Sound b s) (hm : Moved s t r p) (hlt : p v < r v + stored s v) :
    t.world.opencount v < t.world.refcount v := by
  have h1 := h.refs v
  have h2 := hm.refs v
  have h3 := hm.opens v
  have h4 := hm.leaks v
  omega

end Held

section Primitives

variable {ω F V α : Type} [DecidableEq V] {b : Behaviour ω F V} {s : State ω F V}

theorem bump_apply (f : V → Nat) (v w : V) : (bump f v w : Int) = f w + one v w := by
  unfold bump one
  by_cases h : w = v
  · rw [h,update_self,if_pos rfl]
    rfl
  · rw [update_of_ne h,if_neg h,add_zero]

theorem drop_apply {f : V → Nat} {v : V} {n : Nat} (h : f v = n + 1) (w : V) :
    (update f v n w : Int) = f w + (-one v) w := by
  unfold one
  by_cases hw : w = v
  · rw [hw,update_self,Pi.neg_apply,if_pos rfl,h]
    omega
  · rw [update_of_ne hw,Pi.neg_apply,if_neg hw,neg_zero,add_zero]

theorem call_incref (v : V) :
    (call (vnodeIncref v) s).Within (fun _ t => Stays s t (one v) 0) (fun _ _ => False) False := by
  refine Outcome.Within.zoom (stays_world (fun w => ?_) (fun w => ?_) fun w => le_refl _)
  · simpa using bump_apply s.world.refcount v w
  · simp

theorem call_incopen (v : V) :
    (call (vnodeIncopen v) s).Within (fun _ t => Stays s t 0 (one v)) (fun _ _ => False) False := by
  refine Outcome.Within.zoom (stays_world (fun w => ?_) (fun w => ?_) fun w => le_refl _)
  · simp
  · exact bump_apply s.world.opencount v w

/-- A reference is given up. The machine stops if there is none, or if it is the last one of an
open file. -/
theorem call_decref (v : V) :
    (call (vnodeDecref b v) s).Within (fun _ t => Stays s t (-one v) 0) (fun _ _ => False)
      (s.world.refcount v ≤ s.world.opencount v) := by
  refine Outcome.Within.zoom ?_
  rw [vnodeDecref,get_bind]
  refine Outcome.Within.assert_bind (fun hpos => ?_) fun hz => by omega
  by_cases hlast : 1 < s.world.refcount v
  · rw [if_pos hlast]
    refine stays_world (fun w => ?_) (fun w => by simp) fun w => le_refl _
    simpa using drop_apply (v := v) (n := s.world.refcount v - 1) (by omega) w
  · rw [if_neg hlast,vopReclaim]
    have hone : s.world.refcount v = 0 + 1 := by omega
    refine (answer_within (b.vopReclaim v) s.world).attempt_bind ?_ ?_ False.elim
    · rintro - d ⟨w,rfl⟩
      show (vnodeKill v _).Within _ _ _
      rw [vnodeKill,get_bind]
      refine Outcome.Within.assert_bind (fun _ => ?_) fun hne => absurd hone hne
      refine Outcome.Within.assert_bind (fun hclosed => ?_) fun hopen => ?_
      rotate_left
      · have hopen : s.world.opencount v ≠ 0 := hopen
        omega
      refine stays_world (fun x => ?_) (fun x => ?_) fun x => le_refl _
      · simpa using drop_apply hone x
      · simp only [Pi.zero_apply,add_zero,Nat.cast_inj]
        exact congrFun (update_eq_self_iff.mpr hclosed.symm) x
    · rintro e d ⟨w,rfl⟩
      refine stays_world (fun x => ?_) (fun x => by simp) fun x => ?_
      · have := bump_apply s.world.unreclaimed v x
        simp only [Pi.neg_apply]
        omega
      · have := bump_apply s.world.unreclaimed v x
        have := one_nonneg v x
        simp only
        omega

theorem call_decopen (v : V) :
    (call (vnodeDecopen b v) s).Within (fun _ t => Stays s t 0 (-one v)) (fun _ _ => False)
      (s.world.opencount v = 0 ∨ s.world.refcount v = 0) := by
  refine Outcome.Within.zoom ?_
  rw [vnodeDecopen,get_bind]
  refine Outcome.Within.assert_bind (fun hpos => ?_) fun hz => .inl (by omega)
  rw [modify_bind]
  have hdown : ∀ w, Stays s { s with world := { s.world with
      opencount := update s.world.opencount v (s.world.opencount v - 1), rest := w } }
      0 (-one v) := by
    refine fun w => stays_world (fun x => by simp) (fun x => ?_) fun x => le_refl _
    exact drop_apply (v := v) (n := s.world.opencount v - 1) (by omega) x
  by_cases hlast : 1 < s.world.opencount v
  · rw [if_pos hlast]
    exact hdown s.world.rest
  · rw [if_neg hlast,vnodeCheck]
    refine Outcome.Within.assert_bind (fun _ => ?_) fun hz => .inr (by simpa using hz)
    refine (answer_within (b.vopClose v) _).attempt_bind ?_ ?_ False.elim
    · rintro - d ⟨w,rfl⟩
      exact hdown w
    · rintro - d ⟨w,rfl⟩
      exact hdown w

theorem call_vopVnode (v : V) (f : ω → Except Errno α × ω) (handed : α → V) :
    (call (vopVnode v f handed) s).Within (fun a t => Stays s t (one (handed a)) 0)
      (fun _ t => Stays s t 0 0) (s.world.refcount v = 0) := by
  refine Outcome.Within.zoom ?_
  rw [vopVnode]
  refine (vop_within v f s.world).bind ?_ ?_ id
  · rintro a d ⟨w,rfl⟩
    refine stays_world (fun x => ?_) (fun x => by simp) fun x => le_refl _
    simpa using bump_apply s.world.refcount (handed a) x
  · rintro - d ⟨w,rfl⟩
    exact stays_rest w

theorem call_fsGetroot (f : F) :
    (call (fsGetrootVnode b f) s).Within
      (fun x t => Stays s t (opt x) 0 ∧ ((∀ f w, (b.fsGetroot f w).1 ≠ none) → x ≠ none))
      (fun _ _ => False) False := by
  refine Outcome.Within.zoom ?_
  rw [fsGetrootVnode]
  cases hroot : (b.fsGetroot f s.world.rest).1 with
  | none =>
    rw [bind_ok (a := none) (t := { s.world with rest := (b.fsGetroot f s.world.rest).2 })
      (by simp only [answer,hroot])]
    exact ⟨stays_rest _,fun h => absurd hroot (h f _)⟩
  | some v =>
    rw [bind_ok (a := some v) (t := { s.world with rest := (b.fsGetroot f s.world.rest).2 })
      (by simp only [answer,hroot])]
    refine ⟨stays_world (fun x => ?_) (fun x => by simp) fun x => le_refl _,fun _ => nofun⟩
    simpa using bump_apply s.world.refcount v x

end Primitives

section Paths

variable {ω F V : Type} [DecidableEq V] {b : Behaviour ω F V} {s t : State ω F V}
  {r p : V → Int} {v : V} {m n : List V}

def sumOf : List V → V → Int
  | [] => 0
  | v :: m => one v + sumOf m

theorem sumOf_nonneg (m : List V) (v : V) : 0 ≤ sumOf m v := by
  induction m with
  | nil => exact le_refl _
  | cons w m ih => exact add_nonneg (one_nonneg w v) ih

theorem sumOf_pos (h : v ∈ m) : 0 < sumOf m v := by
  induction m with
  | nil => cases h
  | cons w m ih =>
    have hw := one_nonneg w v
    have hm := sumOf_nonneg m v
    simp only [sumOf,Pi.add_apply]
    rcases List.mem_cons.mp h with rfl | h
    · rw [one_self]
      omega
    · have := ih h
      omega

theorem sumOf_one (v : V) : sumOf [v] = one v := add_zero _

theorem sumOf_also (x : Option V) : sumOf m + opt x = sumOf (holdAlso x m) := by
  cases x with
  | none => exact add_zero _
  | some v => exact add_comm _ _

/-- Nobody can take away a reference that was got on the way from `s`. -/
theorem Stays.unsound (h : Stays s t r p) (hlt : p v < r v)
    (hbad : t.world.refcount v ≤ t.world.opencount v) : ¬ Sound b s := by
  intro hs
  have hspare := hs.spare (v := v) h.toMoved (by have := stored_nonneg s v; omega)
  omega

theorem vop_stays {α : Type} (h : Stays s t (sumOf m) (sumOf n)) (hv : v ∈ m)
    (f : ω → Except Errno α × ω) :
    (call (vop v f) t).Within (fun _ u => Stays s u (sumOf m) (sumOf n))
      (fun _ u => Stays s u (sumOf m) (sumOf n)) (¬ Sound b s) :=
  (call_vop v f).mono (fun _ _ hu => h.step hu (add_zero _) (add_zero _))
    (fun _ _ hu => h.step hu (add_zero _) (add_zero _)) fun hz => absurd hz (h.held (sumOf_pos hv))

theorem vopVnode_stays {α : Type} (h : Stays s t (sumOf (v :: m)) 0) (f : ω → Except Errno α × ω)
    (handed : α → V) :
    (call (vopVnode v f handed) t).Within (fun a u => Stays s u (sumOf (handed a :: v :: m)) 0)
      (fun _ u => Stays s u (sumOf (v :: m)) 0) (¬ Sound b s) :=
  (call_vopVnode v f handed).mono (fun _ _ hu => h.step hu (add_comm _ _) (add_zero _))
    (fun _ _ hu => h.step hu (add_zero _) (add_zero _))
    fun hz => absurd hz (h.held (sumOf_pos List.mem_cons_self))

theorem decref_stays (h : Stays s t (sumOf (v :: m)) 0) :
    (call (b.ops.decref v) t).Within (fun _ u => Stays s u (sumOf m) 0) (fun _ _ => False)
      (¬ Sound b s) :=
  (call_decref v).mono (fun _ _ hu => h.step hu (by rw [sumOf]; abel) (add_zero _)) (fun _ _ hf => hf)
    (h.unsound (sumOf_pos List.mem_cons_self))

/-- The counts since `s` follow what is held. -/
theorem counts_ledger (b : Behaviour ω F V) (s : State ω F V) :
    b.ops.Opens (fun m n t => Stays s t (sumOf m) (sumOf n)) (fun _ => ¬ Sound b s)
      (fun _ => False) (fun _ _ => True) (fun _ _ _ => False)
      (fun v t => Stays s t (one v) (one v)) where
  swap {u v m t} h := by
    have hswap : sumOf (u :: v :: m) = sumOf (v :: u :: m) := add_left_comm _ _ _
    exact hswap ▸ h
  bad hf := hf.elim
  current h hcwd hfs hs := hs.current _ (h.cwd ▸ hcwd) hfs
  device h hroot hs := hs.devices _ (h.devices ▸ hroot)
  incref v _ _ h := (call_incref v).mono (fun _ _ ht => h.step ht (add_comm _ _) (add_zero _))
    (fun _ _ hf => hf) False.elim
  decref _ _ _ h := decref_stays h
  fsGetroot f _ _ h := (call_fsGetroot f).mono
    (fun x _ ht => ⟨h.step ht.1 (sumOf_also x) (add_zero _),fun hx hs => ht.2 hs.roots hx⟩)
    (fun _ _ hf => hf) False.elim
  vopLookup _ _ _ _ h := vopVnode_stays h _ id
  vopLookparent _ _ _ _ _ h := (vopVnode_stays h _ Prod.fst).mono (fun _ _ ht => ⟨ht,True.intro⟩)
    (fun _ _ ht => ht) id
  done {v _} h := sumOf_one v ▸ h
  incopen v _ h := (call_incopen v).mono (fun _ _ ht => h.step ht (add_zero _) (add_comm _ _))
    (fun _ _ hf => hf) False.elim
  decopen v _ h := (call_decopen v).mono
    (fun _ _ ht => h.step ht (add_zero _) (by rw [sumOf_one,add_neg_cancel]; rfl))
    (fun _ _ hf => hf) fun hz => hz.elim
      (fun hz => absurd (h.opens v) (by simp only [sumOf,Pi.add_apply,Pi.zero_apply,one_self]; omega))
      fun hz => absurd hz (h.held (sumOf_pos List.mem_cons_self))
  vopOpen _ _ _ h := vop_stays h List.mem_cons_self _
  vopTruncate v _ h := (vop_stays h List.mem_cons_self _).mono (fun _ _ ht => sumOf_one v ▸ ht)
    (fun _ _ ht => ht) id
  vopCreat _ _ _ _ _ _ h := (vopVnode_stays h _ id).mono (fun _ _ ht => .inl ht)
    (fun _ _ ht => ht) id

theorem vfsClose_counts :
    (vfsClose b.ops v s).Within (fun _ t => Stays s t (-one v) (-one v)) (fun _ _ => False)
      (¬ (Sound b s ∧ 0 < s.world.opencount v)) := by
  rw [vfsClose]
  refine (call_decopen v).bind (fun _ t ht => ?_) (fun _ _ hf => hf) fun hz hs => ?_
  · refine (call_decref v).mono (fun _ u hu => ht.step hu (zero_add _) (add_zero _))
      (fun _ _ hf => hf) fun hbad hs => ?_
    have hspare := hs.1.spare (v := v) ht.toMoved (by
      have := stored_nonneg s v
      simp only [Pi.neg_apply,Pi.zero_apply,one_self]
      omega)
    omega
  · have h1 := hs.1.refs v
    have h2 := stored_nonneg s v
    omega

theorem dropOld_counts (old : Option V) :
    (dropOld b.ops old s).Within (fun _ t => Stays s t (-opt old) 0) (fun _ _ => False)
      (∃ v, old = some v ∧ s.world.refcount v ≤ s.world.opencount v) := by
  cases old with
  | none => exact (Stays.refl s).step (Stays.refl s) (by simp) (add_zero 0)
  | some v => exact (call_decref v).mono (fun _ _ h => h) (fun _ _ h => h) fun h => ⟨v,rfl,h⟩

structure Entered (s : State ω F V) (v : V) (t : State ω F V) (r : V → Int) : Prop extends
    Moved s t r 0 where
  cwd : t.cwd = some v
  boot : t.bootfsVnode = s.bootfsVnode

theorem vfsSetcurdir_counts (h : Stays s t (one v) 0) :
    (vfsSetcurdir b.ops v t).Within (fun _ u => Entered s v u (one v + one v + -opt s.cwd))
      (fun _ u => Stays s u (one v) 0) (¬ Sound b s) := by
  rw [vfsSetcurdir]
  refine (call_vop v _).bind (fun vtype u hu => ?_)
    (fun _ _ hu => h.step hu (add_zero _) (add_zero 0))
    fun hz => h.unsound (v := v) (by simp [one_self]) (by omega)
  have hstay : Stays s u (one v) 0 := h.step hu (add_zero _) (add_zero 0)
  split
  · exact hstay
  · refine (call_incref v).bind (fun _ w hw => ?_) (fun _ _ h => h.elim) False.elim
    have htwo : Stays s w (one v + one v) 0 := hstay.step hw rfl (add_zero 0)
    rw [get_bind,modify_bind,htwo.cwd]
    refine (dropOld_counts s.cwd).mono (fun _ x hx => ?_) (fun _ _ h => h.elim) ?_
    · have hmove : Moved w x (-opt s.cwd) 0 := ⟨hx.refs,hx.opens,hx.leaks,hx.devices⟩
      exact ⟨htwo.toMoved.step hmove rfl (add_zero 0),hx.cwd,hx.boot.trans htwo.boot⟩
    · rintro ⟨old,hold,hbad⟩ hs
      have hbad : w.world.refcount old ≤ w.world.opencount old := hbad
      have hspare := hs.spare (v := old) htwo.toMoved (by
        have h1 := one_nonneg v old
        have h2 := opt_nonneg s.bootfsVnode old
        simp only [stored,Pi.add_apply,Pi.zero_apply,hold,opt_some,one_self]
        omega)
      omega

theorem vfsChdir_counts (path : Str) :
    (vfsChdir b.ops path s).Within (fun _ t => ∃ v, Entered s v t (one v + -opt s.cwd))
      (fun _ t => Stays s t 0 0) (¬ Sound b s) := by
  have hs : Stays s s (sumOf []) (sumOf []) := Stays.refl s
  refine (vfsLookup_ledger (counts_ledger b s).toLedger path hs).andThen fun x t ht =>
    ht.deref fun v hv => ?_
  refine (vfsSetcurdir_counts (sumOf_one v ▸ hv)).attempt_bind (fun _ u hu => ?_) (fun e u hu => ?_) id
  · refine (call_decref v).bind (fun _ w hw => ⟨v,?_⟩) (fun _ _ h => h.elim) fun hbad hs => ?_
    · exact ⟨hu.toMoved.step hw.toMoved (by abel) (add_zero 0),hw.cwd.trans hu.cwd,
        hw.boot.trans hu.boot⟩
    · have hspare := hs.spare (v := v) hu.toMoved (by
        have := opt_nonneg s.bootfsVnode v
        simp only [stored,Pi.add_apply,Pi.neg_apply,Pi.zero_apply,one_self]
        omega)
      omega
  · rw [← sumOf_one] at hu
    exact (decref_stays hu).bind_unerring fun _ _ hw => hw

structure Booted (s : State ω F V) (v : V) (t : State ω F V) : Prop extends
    Moved s t (one v + -opt s.cwd + one v + -opt s.bootfsVnode) 0 where
  cwd : t.cwd = some v
  boot : t.bootfsVnode = some v

theorem vfsSetbootfs_counts (fsname : Str) :
    (vfsSetbootfs b.ops fsname s).Within (fun _ t => ∃ v, Booted s v t)
      (fun _ t => Stays s t 0 0) (¬ Sound b s) := by
  rw [vfsSetbootfs]
  split
  · exact Stays.refl s
  · refine (vfsChdir_counts _).andThen fun _ t ht => ?_
    obtain ⟨v,hv⟩ := ht
    have hcur : (vfsGetcurdir b.ops t).Within (fun v' u => v' = v ∧ Stays t u (one v) 0)
        (fun _ _ => False) False := by
      rw [vfsGetcurdir,get_bind,hv.cwd]
      exact (call_incref v).andThen fun _ _ hu => ⟨rfl,hu⟩
    refine hcur.bind ?_ (fun _ _ hf => hf.elim) False.elim
    rintro v' u ⟨rfl,hu⟩
    have hmove : Moved s u (one v' + -opt s.cwd + one v') 0 :=
      hv.toMoved.step hu.toMoved rfl (add_zero 0)
    rw [changeBootfs,get_bind,modify_bind,hu.boot.trans hv.boot]
    refine (dropOld_counts s.bootfsVnode).mono (fun _ w hw => ⟨v',?_⟩) (fun _ _ h => h.elim) ?_
    · have hlast : Moved u w (-opt s.bootfsVnode) 0 := ⟨hw.refs,hw.opens,hw.leaks,hw.devices⟩
      exact ⟨hmove.step hlast rfl (add_zero 0),hw.cwd.trans (hu.cwd.trans hv.cwd),hw.boot⟩
    · rintro ⟨old,hold,hbad⟩ hs
      have hbad : u.world.refcount old ≤ u.world.opencount old := hbad
      have hspare := hs.spare (v := old) hmove (by
        have := one_nonneg v' old
        simp only [stored,Pi.add_apply,Pi.neg_apply,Pi.zero_apply,hold,opt_some,one_self]
        omega)
      omega

end Paths

section Calls

variable {ω F V : Type}

def Call.closes : Call V → Option V
  | .close vn => some vn
  | _ => none

def Call.opens : Call V → Option V → Option V
  | .openPath _ _, vn => vn
  | _, _ => none

/-- Whether a call stores a directory in t_cwd, and in bootfs_vnode. -/
def Call.changesCwd : Call V → Bool
  | .chdir _ | .setbootfs _ => true
  | _ => false

def Call.changesBootfs : Call V → Bool
  | .setbootfs _ => true
  | _ => false

/-- Only open files are closed. -/
def Call.Valid (s : State ω F V) : Call V → Prop
  | .close vn => 0 < s.world.opencount vn
  | _ => True

/-- A call that fails has changed nothing. -/
structure Unchanged (s t : State ω F V) : Prop where
  refs : t.world.refcount = s.world.refcount
  opens : t.world.opencount = s.world.opencount
  cwd : t.cwd = s.cwd
  boot : t.bootfsVnode = s.bootfsVnode

theorem Stays.unchanged {s t : State ω F V} (h : Stays s t 0 0) :
    t.world.unreclaimed = s.world.unreclaimed ↔ Unchanged s t := by
  have hrefs := h.refs
  have hopens := h.opens
  simp only [Pi.zero_apply] at hrefs hopens
  refine ⟨fun hu => ⟨funext fun v => ?_,funext fun v => ?_,h.cwd,h.boot⟩,fun hu => funext fun v => ?_⟩
  · have hr := hrefs v
    rw [hu] at hr
    omega
  · have hp := hopens v
    omega
  · have hr := hrefs v
    rw [hu.refs] at hr
    omega

variable [DecidableEq V]

/-- A call that has returned `x` has changed each count by the references it returns or stores,
minus those it replaces or was asked to close. -/
structure Conserved (c : Call V) (s : State ω F V) (x : Option V) (t : State ω F V) : Prop where
  refs : ∀ v, (t.world.refcount v : Int) =
    s.world.refcount v + opt x v - opt c.closes v + (stored t v - stored s v)
  opens : ∀ v, (t.world.opencount v : Int) =
    s.world.opencount v + opt (c.opens x) v - opt c.closes v
  cwd : c.changesCwd = false → t.cwd = s.cwd
  boot : c.changesBootfs = false → t.bootfsVnode = s.bootfsVnode

variable {c : Call V} {s t : State ω F V} {x : Option V} {r p : V → Int}

theorem Moved.conserved (h : Moved s t r p)
    (hr : r = opt x + -opt c.closes + (stored t + -stored s))
    (hp : p = opt (c.opens x) + -opt c.closes) (hcwd : c.changesCwd = false → t.cwd = s.cwd)
    (hboot : c.changesBootfs = false → t.bootfsVnode = s.bootfsVnode) :
    t.world.unreclaimed = s.world.unreclaimed ↔ Conserved c s x t := by
  have hrefs := h.refs
  have hopens := h.opens
  simp only [hr,hp,Pi.add_apply,Pi.neg_apply] at hrefs hopens
  refine ⟨fun hu => ⟨fun v => ?_,fun v => ?_,hcwd,hboot⟩,fun hc => funext fun v => ?_⟩
  · have hv := hrefs v
    rw [hu] at hv
    omega
  · have hv := hopens v
    omega
  · have hv := hrefs v
    have hv' := hc.refs v
    omega

theorem Stays.conserved (h : Stays s t r p)
    (hr : r = opt x + -opt c.closes) (hp : p = opt (c.opens x) + -opt c.closes) :
    t.world.unreclaimed = s.world.unreclaimed ↔ Conserved c s x t := by
  refine h.toMoved.conserved ?_ hp (fun _ => h.cwd) fun _ => h.boot
  rw [hr,stored,stored,h.cwd,h.boot]
  abel

end Calls

section Conservation

variable {ω F V : Type} [DecidableEq F] [DecidableEq V] {b : Behaviour ω F V} {c : Call V}
  {s : State ω F V}

theorem quiet_call {f : VfsM (Counts ω V) CountPanic F V Unit}
    (hf : (f s).Within (fun _ t => Stays s t (sumOf []) (sumOf []))
      (fun _ t => Stays s t (sumOf []) (sumOf [])) (¬ Sound b s))
    (hrun : c.run b.ops = f >>= fun _ => pure none) (hclose : c.closes = none)
    (hopen : c.opens none = none) :
    (c.run b.ops s).Within
      (fun x t => Conserved c s x t ↔ t.world.unreclaimed = s.world.unreclaimed)
      (fun _ t => Unchanged s t ↔ t.world.unreclaimed = s.world.unreclaimed)
      (¬ (Sound b s ∧ c.Valid s)) := by
  rw [hrun]
  refine hf.bind (fun _ t ht => ?_) (fun _ t ht => ht.unchanged.symm) fun h hs => h hs.1
  exact (ht.conserved (by simp [sumOf,hclose]) (by simp [sumOf,hclose,hopen])).symm

/-- A call of the layer conserves the references, whatever the file systems answer, if and only if no
VOP_RECLAIM fails on the way; and it returns if the references it finds are in order. -/
theorem references_conserved (b : Behaviour ω F V) (c : Call V) (s : State ω F V) :
    (c.run b.ops s).Within
      (fun x t => Conserved c s x t ↔ t.world.unreclaimed = s.world.unreclaimed)
      (fun _ t => Unchanged s t ↔ t.world.unreclaimed = s.world.unreclaimed)
      (¬ (Sound b s ∧ c.Valid s)) := by
  have ho := counts_ledger b s
  have hl := ho.toLedger
  have hs : Stays s s (sumOf []) (sumOf []) := Stays.refl s
  cases c with
  | openPath path openflags =>
    refine (vfsOpen_ledger ho path openflags hs fun _ _ _ _ => id).bind
      (fun v t ht => ?_) (fun _ t ht => ht.unchanged.symm) fun _ h hs => h hs.1
    exact (ht.conserved (by simp [Call.closes]) (by simp [Call.closes,Call.opens])).symm
  | close vn =>
    refine vfsClose_counts.bind_unerring fun _ t ht => ?_
    exact (ht.conserved (by simp [Call.closes]) (by simp [Call.closes,Call.opens])).symm
  | remove path | symlink contents path | mkdir path | rmdir path =>
    exact quiet_call (onParent_ledger hl path hs fun _ _ _ ht => vop_stays ht (by simp) _) rfl rfl rfl
  | rename oldpath newpath =>
    exact quiet_call (vfsRename_ledger hl oldpath newpath hs fun _ _ _ _ _ ht =>
      vop_stays ht (by simp) _) rfl rfl rfl
  | link oldpath newpath =>
    exact quiet_call (vfsLink_ledger hl oldpath newpath hs fun _ _ _ _ _ _ ht =>
      vop_stays ht (by simp) _) rfl rfl rfl
  | readlink path =>
    exact quiet_call (vfsReadlink_ledger hl path hs fun _ _ ht => vop_stays ht (by simp) _) rfl rfl rfl
  | lookup path =>
    refine (vfsLookup_ledger hl path hs).mono (fun x t ht => ?_)
      (fun _ t ht => ht.unchanged.symm) fun _ h hs => h hs.1
    exact (ht.1.conserved (by rw [← sumOf_also]; simp [sumOf,Call.closes])
      (by simp [sumOf,Call.closes,Call.opens])).symm
  | lookparent path buflen =>
    refine (vfsLookparent_ledger hl path buflen hs).bind (fun x t ht => ?_)
      (fun _ t ht => ht.unchanged.symm) fun _ h hs => h hs.1
    exact (ht.1.conserved (by simp [sumOf,Call.closes])
      (by simp [sumOf,Call.closes,Call.opens])).symm
  | chdir path =>
    refine (vfsChdir_counts path).bind (fun _ t ht => ?_)
      (fun _ t ht => ht.unchanged.symm) fun h hs => h hs.1
    obtain ⟨v,hv⟩ := ht
    refine (hv.toMoved.conserved ?_ (by simp [Call.closes,Call.opens])
      (by simp [Call.changesCwd]) fun _ => hv.boot).symm
    rw [stored,stored,hv.cwd,hv.boot]
    simp only [opt_some,opt_none,Call.closes]
    abel
  | setbootfs fsname =>
    refine (vfsSetbootfs_counts fsname).bind (fun _ t ht => ?_)
      (fun _ t ht => ht.unchanged.symm) fun h hs => h hs.1
    obtain ⟨v,hv⟩ := ht
    refine (hv.toMoved.conserved ?_ (by simp [Call.closes,Call.opens])
      (by simp [Call.changesCwd]) (by simp [Call.changesBootfs])).symm
    rw [stored,stored,hv.cwd,hv.boot]
    simp only [opt_some,opt_none,Call.closes]
    abel

def stuckFs : Behaviour Unit Unit Unit where
  getvolname _ := none
  devVnode _ := ()
  vnFs _ := some ()
  fsGetroot _ _ := (some (),())
  vopOpen _ _ _ := (.ok (),())
  vopClose _ _ := (.ok (),())
  vopReclaim _ _ := (.error Errno.EIO,())
  vopReadlink _ _ := (.error .EINVAL,())
  vopGettype _ _ := (.ok 0o10000,())
  vopTruncate _ _ _ := (.ok (),())
  vopCreat _ _ _ _ := (.ok (),())
  vopSymlink _ _ _ _ := (.error .EUNIMP,())
  vopMkdir _ _ _ := (.error .EUNIMP,())
  vopLink _ _ _ _ := (.ok (),())
  vopRemove _ _ _ := (.ok (),())
  vopRmdir _ _ _ := (.error .EUNIMP,())
  vopRename _ _ _ _ _ := (.ok (),())
  vopLookup _ _ _ := (.ok (),())
  vopLookparent _ path _ _ := (.ok ((),path),())

def oneOpen : State Unit Unit Unit := ⟨[],none,none,⟨fun _ => 1,fun _ => 1,fun _ => 0,()⟩⟩

/-- When the file is closed and VOP_RECLAIM fails, the count stays at one. -/
theorem close_leaves_reference : Sound stuckFs oneOpen ∧
    ∃ t, Call.run stuckFs.ops (.close ()) oneOpen = .ok none t ∧ t.world.refcount () = 1 ∧
      ¬ Conserved (.close ()) oneOpen none t := by
  have hrefs : ∀ v, (oneOpen.world.opencount v : Int) + stored oneOpen v ≤
      oneOpen.world.refcount v := fun | () => by decide
  have hdevices : ∀ n, vfsGetroot stuckFs.getvolname oneOpen.knowndevs n ≠ .noDevice := nofun
  refine ⟨⟨hrefs,nofun,nofun,hdevices⟩,_,rfl,rfl,fun h => ?_⟩
  exact absurd (h.refs ()) (by decide)

end Conservation

end MipsOs.Vfs
