import Mathlib.Data.List.Count
import MipsOs.Runs

/-! The life of a vnode while threads pick it up and drop it: vnode_incref and vnode_decref of
kern/fs/vfs/vnode.c, sfs_loadvnode and sfs_reclaim, emufs_loadvnode and emufs_reclaim. A thread
can be switched out where it waits for a lock or for a device, between the search and the VOP_INCREF
of sfs_loadvnode, and after the check of the count in sfs_reclaim. What vn_countlock protects is one
step; so are the removal from the table and vnode_kill, between which nobody can find the vnode. The
assertion about vn_opencount is left out. The count never falls behind the references threads hold,
and it is exact as long as every reclaim routine consumes the reference it was given. -/

set_option autoImplicit false
namespace MipsOs.VnodeLife
open Function Runs

inductive FsType where
  | sfs | emufs
  deriving DecidableEq, Repr

/-- A struct vnode in its sfs_vnode or emufs_vnode; an emufs_vnode has a handle for `ino` and no
inode. -/
structure Vn where
  ino : Nat
  refcount : Nat
  linkcount : Nat
  dirty : Bool
  deriving DecidableEq, Repr

/-- Where a thread is; a vnode is named by its address. -/
inductive Pc where
  | idle
  /-- sfs_loadvnode waits for the block of the inode. -/
  | reading (ino : Nat)
  /-- sfs_loadvnode has found the vnode in the table. -/
  | found (v : Nat)
  /-- vnode_decref has seen the last reference and goes on to VOP_RECLAIM. -/
  | reclaim (v : Nat)
  /-- sfs_reclaim has checked the count. -/
  | checked (v : Nat)
  /-- sfs_reclaim waits for the disk, in VOP_TRUNCATE or in sfs_sync_inode. -/
  | truncating (v : Nat)
  | syncing (v : Nat)
  /-- emufs_reclaim waits in emu_close, with e_lock. -/
  | closing (v : Nat)
  deriving DecidableEq, Repr

inductive Panic where
  | refcount | reclaimRefcount | notInPool | kill
  /-- A vnode is used after it has been freed. -/
  | dangling
  deriving DecidableEq, Repr

/-- `held` lists the references of the threads; one that is being dropped is in it until
vnode_decref returns. -/
structure State where
  vnodes : Nat → Option Vn
  next : Nat
  table : List Nat
  elock : Option Nat
  held : List (Nat × Nat)
  pc : Nat → Pc

def start : State := ⟨fun _ => none,0,[],none,[],fun _ => .idle⟩

section Updates

variable (s : State)

def State.find (ino : Nat) : Option Nat :=
  s.table.find? fun v => (s.vnodes v).any fun vn => decide (vn.ino = ino)

def State.setVn (v : Nat) (vn : Vn) : State :=
  { s with vnodes := update s.vnodes v (some vn) }

def State.goto (t : Nat) (p : Pc) : State := { s with pc := update s.pc t p }

def State.take (t v : Nat) (vn : Vn) : State :=
  { s.setVn v { vn with refcount := vn.refcount + 1 } with held := (t,v) :: s.held }

def State.add (t : Nat) (vn : Vn) : State :=
  { s with
    vnodes := update s.vnodes s.next (some vn)
    next := s.next + 1
    table := s.table ++ [s.next]
    held := (t,s.next) :: s.held
    pc := update s.pc t .idle }

def State.back (t v : Nat) : State :=
  { s with held := s.held.erase (t,v), pc := update s.pc t .idle }

def State.drop (t v : Nat) (vn : Vn) : State :=
  (s.setVn v { vn with refcount := vn.refcount - 1 }).back t v

def State.free (t v : Nat) : State :=
  { s.back t v with
    vnodes := update s.vnodes v none
    table := s.table.erase v }

def State.kill (t v : Nat) (vn : Vn) : Except Panic State :=
  if v ∉ s.table then .error .notInPool
  else if vn.refcount ≠ 1 then .error .kill
  else .ok (s.free t v)

def State.sync (t v : Nat) (vn : Vn) : Except Panic State :=
  if vn.dirty then .ok (s.goto t (.syncing v)) else s.kill t v vn

end Updates

/-- What a thread can do when it is its turn. -/
inductive Act where
  /-- The search of sfs_loadvnode or emufs_loadvnode; `room` says whether kmallocs succeed. -/
  | load (t ino : Nat) (room : Bool)
  /-- The block has been read, or could not be; `room` as above. -/
  | loaded (t : Nat) (inode : Option (Nat × Bool)) (room : Bool)
  /-- VOP_INCREF in sfs_loadvnode. -/
  | raise (t : Nat)
  | incref (t v : Nat)
  | decref (t v : Nat)
  /-- The check of the count in sfs_reclaim or emufs_reclaim. -/
  | reclaim (t : Nat)
  /-- A thread goes on in a reclaim routine, after the check or when the device has answered. -/
  | answer (t : Nat) (ok : Bool)
  /-- Somebody changes the inode of an SFS vnode, or writes it out. -/
  | touch (v linkcount : Nat) (dirty : Bool)
  deriving DecidableEq, Repr

section Steps

variable (fs : FsType) (s : State)

def load (t ino : Nat) (room : Bool) : Option (Except Panic State) :=
  if s.pc t ≠ .idle ∨ (fs = .emufs ∧ s.elock ≠ none) then none
  else
    match s.find ino with
    | some v =>
      match fs with
      | .sfs => some (.ok (s.goto t (.found v)))
      | .emufs => (s.vnodes v).map fun vn => .ok (s.take t v vn)
    | none =>
      if room = false then some (.ok s)
      else
        match fs with
        | .sfs => some (.ok (s.goto t (.reading ino)))
        | .emufs => some (.ok (s.add t ⟨ino,1,0,false⟩))

def loaded (t : Nat) (inode : Option (Nat × Bool)) (room : Bool) : Option (Except Panic State) :=
  match s.pc t with
  | .reading ino =>
    match inode,room with
    | some i, true => some (.ok (s.add t ⟨ino,1,i.1,i.2⟩))
    | _, _ => some (.ok (s.goto t .idle))
  | _ => none

def raise (t : Nat) : Option (Except Panic State) :=
  match s.pc t with
  | .found v =>
    match s.vnodes v with
    | none => some (.error .dangling)
    | some vn => some (.ok ((s.take t v vn).goto t .idle))
  | _ => none

def State.holds (t v : Nat) : Bool := decide (s.pc t = .idle ∧ (t,v) ∈ s.held)

def incref (t v : Nat) : Option (Except Panic State) :=
  if s.holds t v then
    match s.vnodes v with
    | none => some (.error .dangling)
    | some vn => some (.ok (s.take t v vn))
  else none

def decref (t v : Nat) : Option (Except Panic State) :=
  if s.holds t v then
    match s.vnodes v with
    | none => some (.error .dangling)
    | some vn =>
      if vn.refcount = 0 then some (.error .refcount)
      else if 1 < vn.refcount then some (.ok (s.drop t v vn))
      else some (.ok (s.goto t (.reclaim v)))
  else none

def sfsReclaim (t v : Nat) (vn : Vn) : Except Panic State :=
  if vn.refcount ≠ 1 then
    if 1 < vn.refcount then .ok (s.drop t v vn) else .error .reclaimRefcount
  else .ok (s.goto t (.checked v))

/-- With e_lock free; the reference is not consumed if somebody has picked the vnode up. -/
def emufsReclaim (t v : Nat) (vn : Vn) : Except Panic State :=
  if vn.refcount ≠ 1 then .ok (s.back t v)
  else .ok { s.goto t (.closing v) with elock := some t }

def reclaim (t : Nat) : Option (Except Panic State) :=
  match s.pc t with
  | .reclaim v =>
    match s.vnodes v with
    | none => some (.error .dangling)
    | some vn =>
      match fs with
      | .sfs => some (sfsReclaim s t v vn)
      | .emufs => if s.elock ≠ none then none else some (emufsReclaim s t v vn)
  | _ => none

/-- The vnode a thread is reclaiming, past the check of the count. -/
def Pc.inReclaim : Pc → Option Nat
  | .checked v | .truncating v | .syncing v | .closing v => some v
  | _ => none

/-- What a reclaim routine does when the device has not failed. VOP_TRUNCATE marks the inode
dirty, and sfs_sync_inode clears that. -/
def resume (t v : Nat) (vn : Vn) : Except Panic State :=
  match s.pc t with
  | .checked _ => if vn.linkcount = 0 then .ok (s.goto t (.truncating v)) else s.sync t v vn
  | .truncating _ => (s.setVn v { vn with dirty := true }).sync t v { vn with dirty := true }
  | .syncing _ => (s.setVn v { vn with dirty := false }).kill t v { vn with dirty := false }
  | _ => { s with elock := none }.kill t v vn

def State.unlock (t : Nat) : State := if s.elock = some t then { s with elock := none } else s

def answer (t : Nat) (ok : Bool) : Option (Except Panic State) :=
  match (s.pc t).inReclaim with
  | none => none
  | some v =>
    match s.vnodes v with
    | none => some (.error .dangling)
    | some vn =>
      if ok ∨ s.pc t = .checked v then some (resume s t v vn)
      else some (.ok ((s.unlock t).back t v))

def touch (v linkcount : Nat) (dirty : Bool) : Option (Except Panic State) :=
  (s.vnodes v).map fun vn => .ok (s.setVn v { vn with linkcount := linkcount, dirty := dirty })

/-- An action that is possible, and whether it trips an assertion. -/
def act : Act → Option (Except Panic State)
  | .load t ino room => load fs s t ino room
  | .loaded t inode room => loaded s t inode room
  | .raise t => raise s t
  | .incref t v => incref s t v
  | .decref t v => decref s t v
  | .reclaim t => reclaim fs s t
  | .answer t ok => answer s t ok
  | .touch v linkcount dirty => touch s v linkcount dirty

def step (a : Act) : Option State := (act fs s a).bind Except.toOption

end Steps

section Changes

def Pc.vnode : Pc → Option Nat
  | .reclaim v | .checked v | .truncating v | .syncing v | .closing v => some v
  | _ => none

/-- What an action can do to the state. -/
inductive Change (fs : FsType) (s : State) (a : Act) : State → Prop where
  | same : Change fs s a s
  | away {t : Nat} {p : Pc} (hp : p.vnode = none) : Change fs s a (s.goto t p)
  | add {t : Nat} {vn : Vn} (hone : vn.refcount = 1) : Change fs s a (s.add t vn)
  /-- A reference is picked up from the table or copied. -/
  | take {t v : Nat} {vn : Vn} (hv : s.vnodes v = some vn) : Change fs s a (s.take t v vn)
  | raise {t v : Nat} {vn : Vn} (hv : s.vnodes v = some vn) :
      Change fs s a ((s.take t v vn).goto t .idle)
  | drop {t v : Nat} {vn : Vn} (hold : (t,v) ∈ s.held ∨ (s.pc t).vnode = some v)
      (hv : s.vnodes v = some vn) : Change fs s a (s.drop t v vn)
  | last {t v : Nat} (hold : (t,v) ∈ s.held) : Change fs s a (s.goto t (.reclaim v))
  | touch {v : Nat} {vn vn' : Vn} (hv : s.vnodes v = some vn)
      (hsame : vn'.refcount = vn.refcount) : Change fs s a (s.setVn v vn')
  /-- A reclaim routine goes on or waits for the device. -/
  | wait {t v : Nat} {vn vn' : Vn} {p : Pc} {e : Option Nat} (hpc : (s.pc t).vnode = some v)
      (hv : s.vnodes v = some vn) (hsame : vn'.refcount = vn.refcount)
      (hp : p.inReclaim = some v) : Change fs s a { (s.setVn v vn').goto t p with elock := e }
  /-- A reclaim routine gives up and leaves the count as it is. -/
  | leave {t v : Nat} {e : Option Nat} (hpc : (s.pc t).vnode = some v)
      (hwhy : a = .answer t false ∨ fs = .emufs ∧ a = .reclaim t ∧ s.pc t = .reclaim v ∧
        ∃ vn, s.vnodes v = some vn ∧ vn.refcount ≠ 1) :
      Change fs s a { s.back t v with elock := e }
  | free {t v : Nat} {vn : Vn} {e : Option Nat} (hpc : (s.pc t).vnode = some v)
      (hv : s.vnodes v = some vn) (hone : vn.refcount = 1) :
      Change fs s a { s.free t v with elock := e }

variable {fs : FsType} {s u : State} {a : Act} {t v ino : Nat} {vn : Vn}

theorem Pc.vnode_of_inReclaim {p : Pc} (h : p.inReclaim = some v) : p.vnode = some v := by
  cases p <;> simp_all [Pc.inReclaim,Pc.vnode]

theorem setVn_self (hv : s.vnodes v = some vn) : s.setVn v vn = s := by
  rw [State.setVn,← hv,update_eq_self]

theorem kill_ok {x : Vn} {e : Option Nat} (h : { s.setVn v x with elock := e }.kill t v x = .ok u) :
    x.refcount = 1 ∧ u = { s.free t v with elock := e } := by
  unfold State.kill at h
  split at h
  · cases h
  · split at h
    · cases h
    · next hone =>
      refine ⟨not_not.mp hone,?_⟩
      cases h
      simp only [State.free,State.setVn,State.back,update_idem]

theorem goto_change {p : Pc} (hpc : (s.pc t).vnode = some v) (hv : s.vnodes v = some vn)
    (hp : p.inReclaim = some v) : Change fs s a (s.goto t p) := by
  have hwait : Change fs s a _ := .wait (e := s.elock) hpc hv rfl hp
  rwa [setVn_self hv] at hwait

theorem sync_change {x : Vn} (hpc : (s.pc t).vnode = some v) (hv : s.vnodes v = some vn)
    (hsame : x.refcount = vn.refcount) (h : (s.setVn v x).sync t v x = .ok u) :
    Change fs s a u := by
  unfold State.sync at h
  split at h
  · cases h
    exact .wait hpc hv hsame rfl
  · obtain ⟨hx,rfl⟩ := kill_ok (e := s.elock) h
    exact .free hpc hv (hsame ▸ hx)

theorem load_change {room : Bool} (h : load fs s t ino room = some (.ok u)) :
    Change fs s (.load t ino room) u := by
  unfold load at h
  split at h
  · cases h
  · split at h
    · cases fs with
      | sfs =>
        cases h
        exact .away rfl
      | emufs =>
        obtain ⟨vn,hv,hu⟩ := Option.map_eq_some_iff.mp h
        cases hu
        exact .take hv
    · split at h
      · cases h
        exact .same
      · cases fs with
        | sfs =>
          cases h
          exact .away rfl
        | emufs =>
          cases h
          exact .add rfl

theorem loaded_change {inode : Option (Nat × Bool)} {room : Bool}
    (h : loaded s t inode room = some (.ok u)) : Change fs s (.loaded t inode room) u := by
  unfold loaded at h
  split at h
  · split at h
    · cases h
      exact .add rfl
    · cases h
      exact .away rfl
  · cases h

theorem raise_change (h : raise s t = some (.ok u)) : Change fs s (.raise t) u := by
  unfold raise at h
  split at h
  · split at h
    · cases h
    · next vn hv =>
      cases h
      exact .raise hv
  · cases h

theorem incref_change (h : incref s t v = some (.ok u)) : Change fs s (.incref t v) u := by
  unfold incref at h
  split at h
  · split at h
    · cases h
    · next vn hv =>
      cases h
      exact .take hv
  · cases h

theorem decref_change (h : decref s t v = some (.ok u)) : Change fs s (.decref t v) u := by
  unfold decref at h
  split at h
  · next hold =>
    obtain ⟨_,hold⟩ := of_decide_eq_true hold
    split at h
    · cases h
    · next vn hv =>
      split at h
      · cases h
      · split at h
        · cases h
          exact .drop (.inl hold) hv
        · cases h
          exact .last hold
  · cases h

theorem sfsReclaim_change (hpc : s.pc t = .reclaim v) (hv : s.vnodes v = some vn)
    (h : sfsReclaim s t v vn = .ok u) : Change fs s a u := by
  have hvn : (s.pc t).vnode = some v := by rw [hpc]; rfl
  unfold sfsReclaim at h
  split at h
  · split at h
    · cases h
      exact .drop (.inr hvn) hv
    · cases h
  · cases h
    exact goto_change hvn hv rfl

theorem emufsReclaim_change (hfs : fs = .emufs) (hpc : s.pc t = .reclaim v)
    (hv : s.vnodes v = some vn) (h : emufsReclaim s t v vn = .ok u) :
    Change fs s (.reclaim t) u := by
  have hvn : (s.pc t).vnode = some v := by rw [hpc]; rfl
  unfold emufsReclaim at h
  split at h
  · next hne =>
    cases h
    exact .leave (e := s.elock) hvn (.inr ⟨hfs,rfl,hpc,vn,hv,hne⟩)
  · cases h
    have hwait : Change fs s (.reclaim t) _ :=
      .wait (e := some t) (p := .closing v) hvn hv rfl rfl
    rwa [setVn_self hv] at hwait

theorem reclaim_change (h : reclaim fs s t = some (.ok u)) : Change fs s (.reclaim t) u := by
  unfold reclaim at h
  split at h
  · next v hpc =>
    split at h
    · cases h
    · next vn hv =>
      split at h
      · exact sfsReclaim_change hpc hv (Option.some.inj h)
      · split at h
        · cases h
        · exact emufsReclaim_change rfl hpc hv (Option.some.inj h)
  · cases h

theorem resume_change (hpc : (s.pc t).inReclaim = some v) (hv : s.vnodes v = some vn)
    (h : resume s t v vn = .ok u) : Change fs s a u := by
  have hvn := Pc.vnode_of_inReclaim hpc
  unfold resume at h
  split at h
  · split at h
    · cases h
      exact goto_change hvn hv rfl
    · rw [← setVn_self hv] at h
      exact sync_change hvn hv rfl h
  · exact sync_change (x := { vn with dirty := true }) hvn hv rfl h
  · obtain ⟨hone,rfl⟩ := kill_ok (e := s.elock) h
    exact .free hvn hv hone
  · rw [← setVn_self hv] at h
    obtain ⟨hone,rfl⟩ := kill_ok (e := none) h
    exact .free hvn hv hone

theorem answer_change {ok : Bool} (h : answer s t ok = some (.ok u)) :
    Change fs s (.answer t ok) u := by
  unfold answer at h
  split at h
  · cases h
  · next v hpc =>
    have hvn := Pc.vnode_of_inReclaim hpc
    split at h
    · cases h
    · next vn hv =>
      split at h
      · exact resume_change hpc hv (Option.some.inj h)
      · next hno =>
        obtain rfl : ok = false := Bool.eq_false_iff.mpr fun ho => hno (.inl ho)
        cases h
        unfold State.unlock
        split
        · exact .leave hvn (.inl rfl)
        · exact .leave (e := s.elock) hvn (.inl rfl)

theorem touch_change {linkcount : Nat} {dirty : Bool}
    (h : touch s v linkcount dirty = some (.ok u)) : Change fs s (.touch v linkcount dirty) u := by
  unfold touch at h
  obtain ⟨vn,hv,hu⟩ := Option.map_eq_some_iff.mp h
  cases hu
  exact .touch hv rfl

theorem step_change (h : step fs s a = some u) : Change fs s a u := by
  obtain ⟨r,hr,hu⟩ := Option.bind_eq_some_iff.mp h
  cases r with
  | error p => cases hu
  | ok w =>
    cases hu
    cases a with
    | load t ino room => exact load_change hr
    | loaded t inode room => exact loaded_change hr
    | raise t => exact raise_change hr
    | incref t v => exact incref_change hr
    | decref t v => exact decref_change hr
    | reclaim t => exact reclaim_change hr
    | answer t ok => exact answer_change hr
    | touch v linkcount dirty => exact touch_change hr

end Changes

def State.refs (s : State) (v : Nat) : Nat := s.held.countP fun r => decide (r.2 = v)

/-- No reference is without a vnode, and none is left out of the count. -/
structure Covered (s : State) : Prop where
  counted : ∀ v vn, s.vnodes v = some vn → s.refs v ≤ vn.refcount
  exist : ∀ t v, (t,v) ∈ s.held → s.vnodes v ≠ none
  busy : ∀ t v, (s.pc t).vnode = some v → (t,v) ∈ s.held
  fresh : ∀ v, s.next ≤ v → s.vnodes v = none
  table : ∀ v, v ∈ s.table ↔ s.vnodes v ≠ none
  nodup : s.table.Nodup

section Counting

variable {s : State} {t t' v w : Nat}

theorem refs_take (vn : Vn) : (s.take t v vn).refs w = s.refs w + if v = w then 1 else 0 := by
  simp [State.refs,State.take,List.countP_cons]

theorem refs_add (vn : Vn) : (s.add t vn).refs w = s.refs w + if s.next = w then 1 else 0 := by
  simp [State.refs,State.add,List.countP_cons]

theorem refs_back (h : (t,v) ∈ s.held) :
    (s.back t v).refs w + (if v = w then 1 else 0) = s.refs w := by
  have hperm := (List.perm_cons_erase h).countP_eq fun r => decide (r.2 = w)
  rw [State.refs,State.refs,hperm,List.countP_cons]
  simp [State.back]

theorem refs_pos (h : (t,v) ∈ s.held) : 0 < s.refs v :=
  List.countP_pos_iff.mpr ⟨(t,v),h,by simp⟩

end Counting

section Updates

variable (s : State) (t v w : Nat) (vn : Vn) (p : Pc)

theorem setVn_vnodes : (s.setVn v vn).vnodes w = if w = v then some vn else s.vnodes w :=
  update_apply ..

theorem add_vnodes : (s.add t vn).vnodes w = if w = s.next then some vn else s.vnodes w :=
  update_apply ..

theorem free_vnodes : (s.free t v).vnodes w = if w = v then none else s.vnodes w :=
  update_apply ..

end Updates

section Covering

variable {s : State} {t v : Nat} {vn x : Vn} {p : Pc}

theorem Covered.lock (h : Covered s) (e : Option Nat) : Covered { s with elock := e } :=
  ⟨h.counted,h.exist,h.busy,h.fresh,h.table,h.nodup⟩

theorem Covered.goto (h : Covered s) (hp : ∀ v, p.vnode = some v → (t,v) ∈ s.held) :
    Covered (s.goto t p) := by
  refine ⟨h.counted,h.exist,fun u w hw => ?_,h.fresh,h.table,h.nodup⟩
  simp only [State.goto,update_apply] at hw
  split at hw
  · next hu => exact hu ▸ hp w hw
  · exact h.busy u w hw

theorem setVn_ne_none (hv : s.vnodes v = some vn) (w : Nat) :
    (s.setVn v x).vnodes w ≠ none ↔ s.vnodes w ≠ none := by
  rw [setVn_vnodes]
  split
  · next hw => simp [hw,hv]
  · exact Iff.rfl

section

variable (h : Covered s)

include h

theorem Covered.setVn (hv : s.vnodes v = some vn) (hx : s.refs v ≤ x.refcount) :
    Covered (s.setVn v x) := by
  refine ⟨fun w vn' hw => ?_,fun u w hu => (setVn_ne_none hv w).mpr (h.exist u w hu),h.busy,
    fun w hw => ?_,fun w => (h.table w).trans (setVn_ne_none hv w).symm,h.nodup⟩
  · rw [setVn_vnodes] at hw
    split at hw
    · next hwv =>
      cases hw
      exact hwv ▸ hx
    · exact h.counted w vn' hw
  · by_contra hne
    exact (setVn_ne_none hv w).mp hne (h.fresh w hw)

theorem Covered.take (hv : s.vnodes v = some vn) : Covered (s.take t v vn) := by
  have hset : Covered (s.setVn v { vn with refcount := vn.refcount + 1 }) :=
    h.setVn hv (Nat.le_succ_of_le (h.counted v vn hv))
  refine ⟨fun w vn' hw => ?_,fun u w hu => ?_,
    fun u w hw => List.mem_cons_of_mem _ (h.busy u w hw),hset.fresh,hset.table,h.nodup⟩
  · rw [refs_take]
    split
    · next hvw =>
      subst hvw
      have hvn := (setVn_vnodes s v v _).symm.trans hw
      rw [if_pos rfl] at hvn
      cases hvn
      exact Nat.succ_le_succ (h.counted v vn hv)
    · exact hset.counted w vn' hw
  · rcases List.mem_cons.mp hu with he | hu
    · cases he
      exact (setVn_ne_none hv v).mpr (by rw [hv]; nofun)
    · exact hset.exist u w hu

theorem Covered.add (hone : vn.refcount = 1) : Covered (s.add t vn) := by
  have hnew : s.vnodes s.next = none := h.fresh _ (Nat.le_refl _)
  have hnone : s.refs s.next = 0 := by
    rw [State.refs,List.countP_eq_zero]
    rintro ⟨u,w⟩ hu hw
    obtain rfl : w = s.next := by simpa using hw
    exact h.exist u s.next hu hnew
  refine ⟨fun w vn' hw => ?_,fun u w hu => ?_,fun u w hw => ?_,fun w hw => ?_,fun w => ?_,?_⟩
  · rw [add_vnodes] at hw
    rw [refs_add]
    by_cases hwn : w = s.next
    · subst hwn
      rw [if_pos rfl] at hw
      cases hw
      rw [hnone,if_pos rfl]
      omega
    · rw [if_neg hwn] at hw
      rw [if_neg (Ne.symm hwn)]
      exact h.counted w vn' hw
  · rw [add_vnodes]
    split
    · nofun
    · next hwn =>
      rcases List.mem_cons.mp hu with he | hu
      · exact absurd (congrArg Prod.snd he) hwn
      · exact h.exist u w hu
  · simp only [State.add,update_apply] at hw
    split at hw
    · cases hw
    · exact List.mem_cons_of_mem _ (h.busy u w hw)
  · have hlt : s.next < w := hw
    rw [add_vnodes,if_neg (by omega)]
    exact h.fresh w (by omega)
  · rw [add_vnodes]
    show w ∈ s.table ++ [s.next] ↔ _
    rw [List.mem_append,List.mem_singleton,h.table]
    by_cases hwn : w = s.next
    · simp [hwn]
    · simp [hwn]
  · refine List.nodup_append.mpr ⟨h.nodup,by simp,fun a ha b hb hab => ?_⟩
    rw [List.mem_singleton.mp hb] at hab
    exact (h.table a).mp ha (hab ▸ hnew)

theorem back_busy (u w : Nat) (hw : ((s.back t v).pc u).vnode = some w) :
    (u,w) ∈ (s.back t v).held := by
  simp only [State.back,update_apply] at hw
  split at hw
  · cases hw
  · next hu => exact (List.mem_erase_of_ne (by simp [hu])).mpr (h.busy u w hw)

theorem Covered.back (hold : (t,v) ∈ s.held) : Covered (s.back t v) := by
  refine ⟨fun w vn' hw => ?_,fun u w hu => h.exist u w (List.mem_of_mem_erase hu),
    fun u w hw => back_busy h u w hw,h.fresh,h.table,h.nodup⟩
  have hle := h.counted w vn' hw
  have hback := refs_back (w := w) hold
  omega

theorem Covered.drop (hold : (t,v) ∈ s.held) (hv : s.vnodes v = some vn) :
    Covered (s.drop t v vn) := by
  have hback := h.back hold
  have hgone := refs_back (w := v) hold
  have hle := h.counted v vn hv
  rw [if_pos rfl] at hgone
  have hset : Covered ((s.back t v).setVn v { vn with refcount := vn.refcount - 1 }) :=
    hback.setVn (show (s.back t v).vnodes v = some vn from hv) (show _ ≤ vn.refcount - 1 by omega)
  exact hset

theorem Covered.free (hold : (t,v) ∈ s.held) (hv : s.vnodes v = some vn) (hone : vn.refcount = 1) :
    Covered (s.free t v) := by
  have hgone : (s.back t v).refs v = 0 := by
    have hback := refs_back (w := v) hold
    have hle := h.counted v vn hv
    rw [if_pos rfl] at hback
    omega
  have hback := h.back hold
  refine ⟨fun w vn' hw => ?_,fun u w hu => ?_,fun u w hw => back_busy h u w hw,fun w hw => ?_,
    fun w => ?_,h.nodup.erase v⟩
  · rw [free_vnodes] at hw
    split at hw
    · cases hw
    · exact hback.counted w vn' hw
  · rw [free_vnodes,if_neg]
    · exact hback.exist u w hu
    · rintro rfl
      have hpos : 0 < (s.back t w).refs w := refs_pos hu
      omega
  · rw [free_vnodes]
    split
    · rfl
    · exact h.fresh w hw
  · rw [free_vnodes]
    show w ∈ s.table.erase v ↔ _
    rw [h.nodup.mem_erase_iff,h.table]
    by_cases hwv : w = v
    · simp [hwv]
    · simp [hwv]

/-- Whatever the threads and the devices do, the count covers the references. -/
theorem Change.covered {fs : FsType} {a : Act} {u : State} (hc : Change fs s a u) : Covered u := by
  cases hc with
  | same => exact h
  | away hp => exact h.goto fun v hv => nomatch hp.symm.trans hv
  | add hone => exact h.add hone
  | take hv => exact h.take hv
  | raise hv => exact (h.take hv).goto fun _ hw => nomatch hw
  | drop hold hv => exact h.drop (hold.elim id (h.busy _ _)) hv
  | last hold => exact h.goto fun w hw => by cases hw; exact hold
  | touch hv hsame => exact h.setVn hv (hsame ▸ h.counted _ _ hv)
  | wait hpc hv hsame hp =>
    refine Covered.lock (Covered.goto (h.setVn hv (hsame ▸ h.counted _ _ hv)) fun w hw => ?_) _
    rw [Pc.vnode_of_inReclaim hp] at hw
    cases hw
    exact h.busy _ _ hpc
  | leave hpc hwhy => exact (h.back (h.busy _ _ hpc)).lock _
  | free hpc hv hone => exact (h.free (h.busy _ _ hpc) hv hone).lock _

end

theorem start_covered : Covered start :=
  ⟨fun _ _ h => (nomatch h),fun _ _ h => absurd h List.not_mem_nil,fun _ _ h => (nomatch h),
    fun _ _ => rfl,fun v => by simp [start],List.nodup_nil⟩

end Covering

section Exactness

/-- Every reference that is counted is held by a thread. -/
def Exact (s : State) : Prop := ∀ v vn, s.vnodes v = some vn → vn.refcount = s.refs v

/-- A reclaim routine that goes this way consumes the reference it was given: the device does not
fail, and emufs_reclaim does not find that the vnode has been picked up. -/
def consumes (fs : FsType) (s : State) : Act → Bool
  | .answer _ ok => ok
  | .reclaim t =>
    match fs,s.pc t with
    | .emufs,.reclaim v => (s.vnodes v).all fun vn => decide (vn.refcount = 1)
    | _,_ => true
  | _ => true

variable {s : State} {t v : Nat} {vn x : Vn}

theorem Exact.setVn (h : Exact s) (hv : s.vnodes v = some vn) (hx : x.refcount = vn.refcount) :
    Exact (s.setVn v x) := by
  intro w vn' hw
  rw [setVn_vnodes] at hw
  split at hw
  · next hwv =>
    cases hw
    rw [hwv,hx]
    exact h v vn hv
  · exact h w vn' hw

theorem Exact.take (h : Exact s) (hv : s.vnodes v = some vn) : Exact (s.take t v vn) := by
  intro w vn' hw
  have hset := (setVn_vnodes s v w _).symm.trans hw
  rw [refs_take]
  split at hset
  · next hwv =>
    cases hset
    rw [if_pos hwv.symm,hwv,← h v vn hv]
  · next hwv =>
    rw [if_neg (Ne.symm hwv)]
    exact h w vn' hset

theorem Exact.add (h : Exact s) (hc : Covered s) (hone : vn.refcount = 1) : Exact (s.add t vn) := by
  have hle := (hc.add (t := t) hone).counted
  intro w vn' hw
  refine Nat.le_antisymm ?_ (hle w vn' hw)
  rw [add_vnodes] at hw
  rw [refs_add]
  split at hw
  · next hwn =>
    cases hw
    rw [if_pos hwn.symm,hone]
    exact Nat.le_add_left 1 _
  · exact Nat.le_add_right_of_le (h w vn' hw ▸ Nat.le_refl _)

theorem Exact.drop (h : Exact s) (hold : (t,v) ∈ s.held) (hv : s.vnodes v = some vn) :
    Exact (s.drop t v vn) := by
  intro w vn' hw
  have hgone := refs_back (w := w) hold
  have hset := (setVn_vnodes s v w _).symm.trans hw
  show vn'.refcount = (s.back t v).refs w
  split at hset
  · next hwv =>
    cases hset
    have heq := h v vn hv
    rw [hwv] at hgone ⊢
    rw [if_pos rfl] at hgone
    show vn.refcount - 1 = _
    omega
  · next hwv =>
    rw [if_neg (Ne.symm hwv)] at hgone
    rw [h w vn' hset,← hgone]
    rfl

theorem Exact.free (h : Exact s) (hold : (t,v) ∈ s.held) : Exact (s.free t v) := by
  intro w vn' hw
  have hgone := refs_back (w := w) hold
  rw [free_vnodes] at hw
  split at hw
  · cases hw
  · next hwv =>
    rw [if_neg (Ne.symm hwv)] at hgone
    rw [h w vn' hw,← hgone]
    rfl

theorem Change.exact {fs : FsType} {a : Act} {u : State} (h : Exact s) (hcov : Covered s)
    (hok : consumes fs s a = true) (hc : Change fs s a u) : Exact u := by
  cases hc with
  | same | away | last => exact h
  | add hone => exact h.add hcov hone
  | take hv | raise hv => exact h.take hv
  | drop hold hv => exact h.drop (hold.elim id (hcov.busy _ _)) hv
  | touch hv hsame | wait hpc hv hsame hp => exact h.setVn hv hsame
  | leave hpc hwhy =>
    -- the two ways to leave without consuming are the ones excluded
    rcases hwhy with rfl | ⟨rfl,rfl,hre,vn,hv,hne⟩
    · cases hok
    · simp [consumes,hre,hv,hne] at hok
  | free hpc hv hone => exact h.free (hcov.busy _ _ hpc)

/-- If every reclaim routine consumes its reference, the count of a vnode is the number of
references that threads hold. -/
theorem refcount_exact (fs : FsType) {acts : List Act} {u : State}
    (hok : Along (step fs) (fun s a => consumes fs s a = true) start acts)
    (hrun : run (step fs) start acts = some u) {v : Nat} {vn : Vn}
    (hv : u.vnodes v = some vn) : vn.refcount = u.refs v := by
  have hstart : Covered start ∧ Exact start := ⟨start_covered,fun _ _ h => (nomatch h)⟩
  have hend : Covered u ∧ Exact u := by
    refine run_keeps (I := fun s => Covered s ∧ Exact s) (fun s a w hs hc hw => ?_) hstart
      hok hrun
    have hch := step_change hw
    exact ⟨hch.covered hs.1,hch.exact hs.2 hs.1 hc⟩
  exact hend.2 v vn hv

/-- Threads 1 and 2 share a vnode while another one is reclaimed. -/
def shared : List Act :=
  [.load 1 5 true,.loaded 1 (some (1,true)) true,.load 2 5 true,.raise 2,.incref 1 0,.decref 1 0,
    .load 3 6 true,.loaded 3 (some (1,true)) true,.decref 3 1,.reclaim 3,.answer 3 true,
    .decref 2 0,.answer 3 true]

theorem refcount_exact_shared :
    ∃ u vn, run (step .sfs) start shared = some u ∧ u.vnodes 1 = none ∧ u.vnodes 0 = some vn ∧
      vn.refcount = u.refs 0 ∧ u.refs 0 = 1 := by
  have hok : Along (step .sfs) (fun s a => consumes .sfs s a = true) start shared :=
    .of_check (fun _ _ h => h) (by decide)
  exact ⟨_,_,rfl,rfl,rfl,refcount_exact .sfs hok rfl rfl,rfl⟩

/-- Thread 1 drops the last reference to an emufs vnode, and thread 2 picks the vnode up before
emufs_reclaim has looked: vnode_decref has returned, one reference is held and two are counted.
When thread 2 drops its own, the vnode stays with a count of 1. -/
theorem emufsReclaim_keeps_reference :
    ∃ u vn, run (step .emufs) start
        [.load 1 5 true,.decref 1 0,.load 2 5 true,.reclaim 1] = some u ∧
      u.pc 1 = .idle ∧ u.held = [(2,0)] ∧ u.vnodes 0 = some vn ∧ vn.refcount = 2 ∧
      ∃ w vn', step .emufs u (.decref 2 0) = some w ∧ w.held = [] ∧
        w.vnodes 0 = some vn' ∧ vn'.refcount = 1 :=
  ⟨_,_,rfl,rfl,rfl,rfl,rfl,_,_,rfl,rfl,rfl,rfl⟩

end Exactness

end MipsOs.VnodeLife
