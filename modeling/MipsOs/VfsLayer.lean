import MipsOs.Prog
import MipsOs.VfsList

/-! Path names and the calls on them: kern/fs/vfs/vfslookup.c, vfscwd.c and vfspath.c, over the
operations that the vnodes of the mounted file systems and of the devices offer, and the references
they hold. The calls are followed through their early exits once, for any property of what is held. -/

set_option autoImplicit false
namespace MipsOs.Vfs
open Bytes Prog

/-- kern/include/kern/unistd.h -/
def oAccmode : Nat := 3
def oRdonly : Nat := 0
def oCreat : Nat := 4
def oExcl : Nat := 8
def oTrunc : Nat := 16
def oAppend : Nat := 32

def nameMax : Nat := 255

def sIsdir (mode : Nat) : Bool := (mode &&& 0o70000) == 0o20000

def colon : Byte := 58

def slash : Byte := 47

/-- Assertions of the VFS layer, and uses of a NULL pointer. -/
inductive Assertion where
  | nullVnode | nullDevice | currentFs
  deriving DecidableEq, Repr

/-- What the layer is built on: the reference and open counts of vnode.c, and the functions of
struct fs and struct vnode_ops. `φ` is the state of all file systems and devices. -/
structure Ops (φ π F V : Type) where
  stop : Assertion → π
  getvolname : F → Option Str
  devVnode : Nat → V
  vnFs : V → Option F
  incref : V → Prog φ Errno π Unit
  decref : V → Prog φ Errno π Unit
  incopen : V → Prog φ Errno π Unit
  decopen : V → Prog φ Errno π Unit
  fsGetroot : F → Prog φ Errno π (Option V)
  vopOpen : V → Nat → Prog φ Errno π Unit
  vopReadlink : V → Prog φ Errno π Unit
  vopGettype : V → Prog φ Errno π Nat
  vopTruncate : V → Nat → Prog φ Errno π Unit
  vopCreat : V → Str → Bool → Prog φ Errno π V
  vopSymlink : V → Str → Str → Prog φ Errno π Unit
  vopMkdir : V → Str → Prog φ Errno π Unit
  vopLink : V → Str → V → Prog φ Errno π Unit
  vopRemove : V → Str → Prog φ Errno π Unit
  vopRmdir : V → Str → Prog φ Errno π Unit
  vopRename : V → Str → V → Str → Prog φ Errno π Unit
  vopLookup : V → Str → Prog φ Errno π V
  vopLookparent : V → Str → Nat → Prog φ Errno π (V × Str)

/-- The table of devices, the vnode paths with a leading slash start at, the current directory of
the thread, and the file systems. -/
structure Sys (φ F V : Type) where
  knowndevs : List (Knowndev F)
  bootfsVnode : Option V
  cwd : Option V
  world : φ

section Layer

variable {φ π F V α : Type} [DecidableEq F] (o : Ops φ π F V)

abbrev VfsM (φ π F V α : Type) : Type := Prog (Sys φ F V) Errno π α

def call (f : Prog φ Errno π α) : VfsM φ π F V α :=
  zoom Sys.world (fun s w => { s with world := w }) f

def deref : Option V → VfsM φ π F V V
  | some v => pure v
  | none => halt (o.stop .nullVnode)

def vfsGetcurdir : VfsM φ π F V V := do
  let s ← get
  match s.cwd with
  | some v => do
    call (o.incref v)
    pure v
  | none => fail .ENOENT

/-- VOP_DECREF of what a variable held, unless that was NULL. -/
def dropOld : Option V → VfsM φ π F V Unit
  | some old => call (o.decref old)
  | none => pure ()

def vfsSetcurdir (dir : V) : VfsM φ π F V Unit := do
  let vtype ← call (o.vopGettype dir)
  if sIsdir vtype = false then fail .ENOTDIR
  else do
    call (o.incref dir)
    let s ← get
    modify fun s => { s with cwd := some dir }
    dropOld o s.cwd

inductive Start where
  | current
  | device (name : Str)
  | boot
  | root
  deriving DecidableEq, Repr

/-- The path behind a device name or a leading slash or colon; further slashes are skipped. -/
def skipSlashes (path : Str) : Str := path.dropWhile (· = slash)

/-- The part of getdevice that looks at the characters: the first colon or slash decides. -/
def splitPath (path : Str) : Start × Str :=
  match path.dropWhile fun c => decide (c ≠ colon ∧ c ≠ slash) with
  | [] => (.current,path)
  | c :: rest =>
    match path.takeWhile fun c => decide (c ≠ colon ∧ c ≠ slash) with
    | [] => if c = slash then (.boot,skipSlashes rest) else (.root,skipSlashes rest)
    | name => if c = colon then (.device name,skipSlashes rest) else (.current,path)

def vfsGetrootVnode (devname : Str) : VfsM φ π F V (Option V) := do
  let s ← get
  match vfsGetroot o.getvolname s.knowndevs devname with
  | .fs f => call (o.fsGetroot f)
  | .device n => do
    call (o.incref (o.devVnode n))
    pure (some (o.devVnode n))
  | .error e => fail e
  | .noDevice => halt (o.stop .nullDevice)

def currentRoot : VfsM φ π F V (Option V) := do
  let vn ← vfsGetcurdir o
  match o.vnFs vn with
  | none => halt (o.stop .currentFs)
  | some f => do
    let startvn ← call (o.fsGetroot f)
    call (o.decref vn)
    pure startvn

def bootRoot : VfsM φ π F V (Option V) := do
  let s ← get
  match s.bootfsVnode with
  | none => fail .ENOENT
  | some v => do
    call (o.incref v)
    pure (some v)

def startVnode : Start → VfsM φ π F V (Option V)
  | .current => do
    let vn ← vfsGetcurdir o
    pure (some vn)
  | .device name => vfsGetrootVnode o name
  | .boot => bootRoot o
  | .root => currentRoot o

def getdevice (path : Str) : VfsM φ π F V (Option V × Str) := do
  let startvn ← startVnode o (splitPath path).1
  pure (startvn,(splitPath path).2)

/-- A device name alone has no parent. -/
def lookparentAt (startvn : V) (path : Str) (buflen : Nat) : VfsM φ π F V (V × Str) :=
  if path = [] then fail .EINVAL else call (o.vopLookparent startvn path buflen)

/-- The vnode handed back and the last component of the path. -/
def vfsLookparent (path : Str) (buflen : Nat) : VfsM φ π F V (V × Str) := do
  let start ← getdevice o path
  let startvn ← deref o start.1
  let result ← attempt (lookparentAt o startvn start.2 buflen)
  call (o.decref startvn)
  ofExcept result

def vfsLookup (path : Str) : VfsM φ π F V (Option V) := do
  let start ← getdevice o path
  if start.2 = [] then pure start.1
  else do
    let startvn ← deref o start.1
    let result ← attempt (call (o.vopLookup startvn start.2))
    call (o.decref startvn)
    let vn ← ofExcept result
    pure (some vn)

def vfsChdir (path : Str) : VfsM φ π F V Unit := do
  let vn ← vfsLookup o path
  let vn ← deref o vn
  let result ← attempt (vfsSetcurdir o vn)
  call (o.decref vn)
  ofExcept result

def changeBootfs (newguy : Option V) : VfsM φ π F V Unit := do
  let s ← get
  modify fun s => { s with bootfsVnode := newguy }
  dropOld o s.bootfsVnode

/-- The test strlen(s)>0 holds for every colon, so a name with one is refused. -/
def vfsSetbootfs (fsname : Str) : VfsM φ π F V Unit :=
  if colon ∈ fsname.take (nameMax - 1) then fail .EINVAL
  else do
    vfsChdir o (fsname.take (nameMax - 1) ++ [colon])
    let newguy ← vfsGetcurdir o
    changeBootfs o (some newguy)

/-- The vnode vfs_open goes on with: made, or looked up. -/
def openVnode (path : Str) (openflags : Nat) : VfsM φ π F V (Option V) :=
  if openflags &&& oCreat ≠ 0 then do
    let dir ← vfsLookparent o path (nameMax + 1)
    let result ← attempt (call (o.vopCreat dir.1 dir.2 (decide (openflags &&& oExcl ≠ 0))))
    call (o.decref dir.1)
    let vn ← ofExcept result
    pure (some vn)
  else vfsLookup o path

def openTruncate (vn : V) (openflags : Nat) : VfsM φ π F V Unit :=
  if openflags &&& oTrunc ≠ 0 then
    if openflags &&& oAccmode = oRdonly then fail .EINVAL else call (o.vopTruncate vn 0)
  else pure ()

def vfsOpen (path : Str) (openflags : Nat) : VfsM φ π F V V :=
  if openflags &&& oAccmode = oAccmode then fail .EINVAL
  else do
    let vn ← openVnode o path openflags
    let vn ← deref o vn
    let result ← attempt (call (o.vopOpen vn openflags))
    match result with
    | .error e => do
      call (o.decref vn)
      fail e
    | .ok _ => do
      call (o.incopen vn)
      let result ← attempt (openTruncate o vn openflags)
      match result with
      | .error e => do
        call (o.decopen vn)
        call (o.decref vn)
        fail e
      | .ok _ => pure vn

def vfsClose (vn : V) : VfsM φ π F V Unit := do
  call (o.decopen vn)
  call (o.decref vn)

def onParent (path : Str) (f : V → Str → Prog φ Errno π Unit) : VfsM φ π F V Unit := do
  let dir ← vfsLookparent o path (nameMax + 1)
  let result ← attempt (call (f dir.1 dir.2))
  call (o.decref dir.1)
  ofExcept result

def vfsRemove (path : Str) : VfsM φ π F V Unit := onParent o path o.vopRemove

def vfsSymlink (contents path : Str) : VfsM φ π F V Unit :=
  onParent o path fun newdir newname => o.vopSymlink newdir newname contents

def vfsMkdir (path : Str) : VfsM φ π F V Unit := onParent o path o.vopMkdir

def vfsRmdir (path : Str) : VfsM φ π F V Unit := onParent o path o.vopRmdir

def vfsReadlink (path : Str) : VfsM φ π F V Unit := do
  let vn ← vfsLookup o path
  let vn ← deref o vn
  let result ← attempt (call (o.vopReadlink vn))
  call (o.decref vn)
  ofExcept result

/-- The end of vfs_rename and vfs_link, for two vnodes that have to be on one file system. -/
def onSameFs (vn newdir : V) (f : Prog φ Errno π Unit) : VfsM φ π F V Unit := do
  let result ← attempt
    (if o.vnFs vn = none ∨ o.vnFs newdir = none ∨ o.vnFs vn ≠ o.vnFs newdir then fail .EXDEV
    else call f)
  call (o.decref newdir)
  call (o.decref vn)
  ofExcept result

/-- What both do when the second path does not resolve. -/
def secondParent (vn : V) (path : Str) : VfsM φ π F V (V × Str) := do
  let result ← attempt (vfsLookparent o path (nameMax + 1))
  match result with
  | .error e => do
    call (o.decref vn)
    fail e
  | .ok dir => pure dir

def vfsRename (oldpath newpath : Str) : VfsM φ π F V Unit := do
  let olddir ← vfsLookparent o oldpath (nameMax + 1)
  let newdir ← secondParent o olddir.1 newpath
  onSameFs o olddir.1 newdir.1 (o.vopRename olddir.1 olddir.2 newdir.1 newdir.2)

/-- A NULL pointer is used after the second lookup, whether that succeeds or not. -/
def vfsLink (oldpath newpath : Str) : VfsM φ π F V Unit := do
  let oldfile ← vfsLookup o oldpath
  let oldfile ← deref o oldfile
  let newdir ← secondParent o oldfile newpath
  onSameFs o oldfile newdir.1 (o.vopLink newdir.1 newdir.2 oldfile)

end Layer

section Ledger

variable {φ π F V : Type}

/-- A pointer that may be NULL is held as well. -/
def holdAlso : Option V → List V → List V
  | some v, m => v :: m
  | none, m => m

/-- `R m n` is a property of a state in which the references `m` and the opens `n` are held besides
those there were at first, and `P` tells for which reasons the machine may stop. In `B` a function
has returned an error code that returns none in the source. `At sub` tells which parent and name
the path `sub` has. -/
structure Ops.Ledger (o : Ops φ π F V) (R : List V → List V → Sys φ F V → Prop) (P : π → Prop)
    (B : Sys φ F V → Prop) (At : Str → V × Str → Prop) : Prop where
  swap : ∀ {u v m s}, R (u :: v :: m) [] s → R (v :: u :: m) [] s
  bad : ∀ {m n s}, B s → R m n s
  current : ∀ {m s v}, R m [] s → s.cwd = some v → o.vnFs v = none → P (o.stop .currentFs)
  device : ∀ {m s name}, R m [] s → vfsGetroot o.getvolname s.knowndevs name = .noDevice →
    P (o.stop .nullDevice)
  incref : ∀ v {m s}, R m [] s →
    (call (o.incref v) s).Ends (fun _ => R (v :: m) []) (fun _ => B) P
  decref : ∀ v {m s}, R (v :: m) [] s → (call (o.decref v) s).Ends (fun _ => R m []) (fun _ => B) P
  fsGetroot : ∀ f {m s}, R m [] s → (call (o.fsGetroot f) s).Ends
    (fun x t => R (holdAlso x m) [] t ∧ (x = none → P (o.stop .nullVnode))) (fun _ => B) P
  vopLookup : ∀ v path {m s}, R (v :: m) [] s → (call (o.vopLookup v path) s).Ends
    (fun x => R (x :: v :: m) []) (fun _ => R (v :: m) []) P
  vopLookparent : ∀ v path buflen {m s}, R (v :: m) [] s →
    (call (o.vopLookparent v path buflen) s).Ends
      (fun x t => R (x.1 :: v :: m) [] t ∧ At path x) (fun _ => R (v :: m) []) P

variable {o : Ops φ π F V} {R : List V → List V → Sys φ F V → Prop} {P : π → Prop}
  {B : Sys φ F V → Prop} {At : Str → V × Str → Prop} {s : Sys φ F V} {m : List V}

def Handed (o : Ops φ π F V) (R : List V → List V → Sys φ F V → Prop) (P : π → Prop) (m : List V)
    (x : Option V) (s : Sys φ F V) : Prop :=
  R (holdAlso x m) [] s ∧ (x = none → P (o.stop .nullVnode))

theorem Handed.some {v : V} (h : R (v :: m) [] s) : Handed o R P m (some v) s :=
  ⟨h,fun he => by cases he⟩

theorem Handed.deref {β : Type} {x : Option V} {g : V → VfsM φ π F V β}
    {Q : β → Sys φ F V → Prop} {E : Errno → Sys φ F V → Prop} (h : Handed o R P m x s)
    (hg : ∀ v, R (v :: m) [] s → (g v s).Ends Q E P) : ((deref o x >>= g) s).Ends Q E P := by
  cases x with
  | none => exact h.2 rfl
  | some v => exact hg v h.1

variable (h : o.Ledger R P B At)

include h

theorem decref_then {β : Type} {v : V} {g : Unit → VfsM φ π F V β} {Q : β → Sys φ F V → Prop}
    {m' : List V} (hs : R (v :: m) [] s)
    (hg : ∀ t, R m [] t → (g () t).Ends Q (fun _ => R m' []) P) :
    ((call (o.decref v) >>= g) s).Ends Q (fun _ => R m' []) P :=
  (h.decref v hs).bind (fun _ t ht => hg t ht) (fun _ _ hb => h.bad hb) fun _ hp => hp

theorem vfsGetcurdir_ledger (hs : R m [] s) :
    (vfsGetcurdir o s).Ends (fun v t => R (v :: m) [] t ∧ s.cwd = some v) (fun _ => R m []) P := by
  rw [vfsGetcurdir,get_bind]
  cases s.cwd with
  | none => exact hs
  | some v =>
    exact (h.incref v hs).bind (fun _ _ ht => ⟨ht,rfl⟩) (fun _ _ hb => h.bad hb) fun _ hp => hp

theorem incref_handed (v : V) (hs : R m [] s) :
    ((call (o.incref v) >>= fun _ => pure (some v) : VfsM φ π F V (Option V)) s).Ends
      (Handed o R P m) (fun _ => R m []) P :=
  (h.incref v hs).bind (fun _ _ ht => .some ht) (fun _ _ hb => h.bad hb) fun _ hp => hp

theorem startVnode_ledger (st : Start) (hs : R m [] s) :
    (startVnode o st s).Ends (Handed o R P m) (fun _ => R m []) P := by
  cases st with
  | current => exact (vfsGetcurdir_ledger h hs).andThen fun _ _ ht => .some ht.1
  | device name =>
    rw [startVnode,vfsGetrootVnode,get_bind]
    cases hroot : vfsGetroot o.getvolname s.knowndevs name with
    | fs f => exact (h.fsGetroot f hs).mono (fun _ _ ht => ht) (fun _ _ hb => h.bad hb) fun _ hp => hp
    | device n => exact incref_handed h _ hs
    | error e => exact hs
    | noDevice => exact h.device hs hroot
  | boot =>
    rw [startVnode,bootRoot,get_bind]
    cases s.bootfsVnode with
    | none => exact hs
    | some v => exact incref_handed h v hs
  | root =>
    rw [startVnode,currentRoot]
    refine (vfsGetcurdir_ledger h hs).andThen fun v t ht => ?_
    cases hfs : o.vnFs v with
    | none => exact h.current hs ht.2 hfs
    | some f =>
      refine (h.fsGetroot f ht.1).bind (fun x u hu => ?_) (fun _ _ hb => h.bad hb) fun _ hp => hp
      have hheld : R (v :: holdAlso x m) [] u := by
        cases x with
        | none => exact hu.1
        | some r => exact h.swap hu.1
      exact (h.decref v hheld).bind (fun _ _ hw => ⟨hw,hu.2⟩) (fun _ _ hb => h.bad hb) fun _ hp => hp

theorem getdevice_ledger (path : Str) (hs : R m [] s) : (getdevice o path s).Ends
    (fun x t => x.2 = (splitPath path).2 ∧ Handed o R P m x.1 t) (fun _ => R m []) P :=
  (startVnode_ledger h _ hs).andThen fun _ _ ht => ⟨rfl,ht⟩

theorem vfsLookup_ledger (path : Str) (hs : R m [] s) :
    (vfsLookup o path s).Ends (Handed o R P m) (fun _ => R m []) P := by
  rw [vfsLookup]
  refine (getdevice_ledger h path hs).andThen fun x t ht => ?_
  split
  · exact ht.2
  · refine ht.2.deref fun v hv => (h.vopLookup v x.2 hv).attempt_bind (fun y u hu => ?_)
      (fun e u hu => decref_then h hu fun _ hw => hw) fun _ hp => hp
    exact decref_then h (h.swap hu) fun _ hw => .some hw

theorem vfsLookparent_ledger (path : Str) (buflen : Nat) (hs : R m [] s) :
    (vfsLookparent o path buflen s).Ends
      (fun x t => R (x.1 :: m) [] t ∧ At (splitPath path).2 x) (fun _ => R m []) P := by
  rw [vfsLookparent]
  refine (getdevice_ledger h path hs).andThen fun x t ht => ht.2.deref fun v hv => ?_
  have hat : (lookparentAt o v x.2 buflen t).Ends
      (fun y u => R (y.1 :: v :: m) [] u ∧ At (splitPath path).2 y) (fun _ => R (v :: m) []) P := by
    rw [lookparentAt,ht.1]
    split
    · exact hv
    · exact h.vopLookparent v _ buflen hv
  refine hat.attempt_bind (fun y u hu => ?_) (fun e u hu => decref_then h hu fun _ hw => hw)
    fun _ hp => hp
  exact decref_then h (h.swap hu.1) fun _ hw => ⟨hw,hu.2⟩

theorem tried_ledger {v : V} {f : Prog φ Errno π Unit}
    (hf : (call f s : Outcome (Sys φ F V) _ _ _).Ends (fun _ => R (v :: m) [])
      (fun _ => R (v :: m) []) P) :
    ((do let result ← attempt (call f)
         call (o.decref v)
         ofExcept result : VfsM φ π F V Unit) s).Ends (fun _ => R m []) (fun _ => R m []) P :=
  hf.attempt_bind (fun _ _ hu => decref_then h hu fun _ hw => hw)
    (fun _ _ hu => decref_then h hu fun _ hw => hw) fun _ hp => hp

theorem onParent_ledger (path : Str) {f : V → Str → Prog φ Errno π Unit} (hs : R m [] s)
    (hf : ∀ v name t, R (v :: m) [] t → (call (f v name) t).Ends (fun _ => R (v :: m) [])
      (fun _ => R (v :: m) []) P) :
    (onParent o path f s).Ends (fun _ => R m []) (fun _ => R m []) P :=
  (vfsLookparent_ledger h path _ hs).andThen fun x t ht => tried_ledger h (hf x.1 x.2 t ht.1)

theorem vfsReadlink_ledger (path : Str) (hs : R m [] s)
    (hf : ∀ v t, R (v :: m) [] t → (call (o.vopReadlink v) t).Ends (fun _ => R (v :: m) [])
      (fun _ => R (v :: m) []) P) :
    (vfsReadlink o path s).Ends (fun _ => R m []) (fun _ => R m []) P :=
  (vfsLookup_ledger h path hs).andThen fun _ t ht => ht.deref fun v hv =>
    tried_ledger h (hf v t hv)

/-- The second lookup of vfs_rename and vfs_link, with a reference held from the first. -/
theorem secondParent_ledger {v : V} (path : Str) (hs : R (v :: m) [] s) :
    (secondParent o v path s).Ends (fun x => R (x.1 :: v :: m) []) (fun _ => R m []) P :=
  (vfsLookparent_ledger h path _ hs).attempt_bind (fun _ _ ht => ht.1)
    (fun _ _ ht => decref_then h ht fun _ hw => hw) fun _ hp => hp

theorem onSameFs_ledger [DecidableEq F] {v w : V} {f : Prog φ Errno π Unit}
    (hs : R (w :: v :: m) [] s)
    (hf : (call f s : Outcome (Sys φ F V) _ _ _).Ends (fun _ => R (w :: v :: m) [])
      (fun _ => R (w :: v :: m) []) P) :
    (onSameFs o v w f s).Ends (fun _ => R m []) (fun _ => R m []) P := by
  have hdone : ∀ y t, R (w :: v :: m) [] t →
      ((do call (o.decref w)
           call (o.decref v)
           ofExcept y : VfsM φ π F V Unit) t).Ends (fun _ => R m []) (fun _ => R m []) P :=
    fun y t ht => decref_then h ht fun u hu => decref_then h hu fun _ hw => by
      cases y <;> exact hw
  rw [onSameFs]
  split
  · exact hdone _ s hs
  · exact hf.attempt_bind (fun _ t ht => hdone _ t ht) (fun _ t ht => hdone _ t ht) fun _ hp => hp

theorem vfsRename_ledger [DecidableEq F] (oldpath newpath : Str) (hs : R m [] s)
    (hf : ∀ v name w name' t, R (w :: v :: m) [] t → (call (o.vopRename v name w name') t).Ends
      (fun _ => R (w :: v :: m) []) (fun _ => R (w :: v :: m) []) P) :
    (vfsRename o oldpath newpath s).Ends (fun _ => R m []) (fun _ => R m []) P :=
  (vfsLookparent_ledger h oldpath _ hs).andThen fun _ _ ht =>
    (secondParent_ledger h newpath ht.1).andThen fun _ u hu =>
      onSameFs_ledger h hu (hf _ _ _ _ u hu)

theorem vfsLink_ledger [DecidableEq F] (oldpath newpath : Str) (hs : R m [] s)
    (hf : ∀ v t, vfsLookup o oldpath s = .ok (some v) t → ∀ w name u, R (w :: v :: m) [] u →
      (call (o.vopLink w name v) u).Ends (fun _ => R (w :: v :: m) [])
        (fun _ => R (w :: v :: m) []) P) :
    (vfsLink o oldpath newpath s).Ends (fun _ => R m []) (fun _ => R m []) P := by
  refine (vfsLookup_ledger h oldpath hs).eq.andThen fun x t ⟨ht,hx⟩ => ?_
  cases x with
  | none => exact ht.2 rfl
  | some v =>
    exact (secondParent_ledger h newpath ht.1).andThen fun _ u hu =>
      onSameFs_ledger h hu (hf v t hx _ _ u hu)

end Ledger

section Open

variable {φ π F V : Type}

/-- What vfs_open calls besides. Only a vnode that has been made under the name `sub` can come back
without a property of what is held, with `New sub` then; an open that is done leaves `Done`. -/
structure Ops.Opens (o : Ops φ π F V) (R : List V → List V → Sys φ F V → Prop) (P : π → Prop)
    (B : Sys φ F V → Prop) (At : Str → V × Str → Prop) (New : Str → V → Sys φ F V → Prop)
    (Done : V → Sys φ F V → Prop) : Prop extends o.Ledger R P B At where
  done : ∀ {v s}, R [v] [v] s → Done v s
  incopen : ∀ v {s}, R [v] [] s → (call (o.incopen v) s).Ends (fun _ => R [v] [v]) (fun _ => B) P
  decopen : ∀ v {s}, R [v] [v] s → (call (o.decopen v) s).Ends (fun _ => R [v] []) (fun _ => B) P
  vopOpen : ∀ v flags {s}, R [v] [] s →
    (call (o.vopOpen v flags) s).Ends (fun _ => R [v] []) (fun _ => R [v] []) P
  vopTruncate : ∀ v {s}, R [v] [v] s →
    (call (o.vopTruncate v 0) s).Ends (fun _ => Done v) (fun _ => R [v] [v]) P
  vopCreat : ∀ sub v name excl {s}, At sub (v,name) → R [v] [] s →
    (call (o.vopCreat v name excl) s).Ends (fun x t => R [x,v] [] t ∨ New sub x t)
      (fun _ => R [v] []) P

/-- What vfs_open does with the vnode `x` of a file that has just been made. -/
structure Ops.OpensNew (o : Ops φ π F V) (P : π → Prop) (New : Sys φ F V → Prop) (x : V) :
    Prop where
  decref : ∀ v {s}, New s → (call (o.decref v) s).Ends (fun _ => New) (fun _ _ => False) P
  incopen : ∀ {s}, New s → (call (o.incopen x) s).Ends (fun _ => New) (fun _ _ => False) P
  decopen : ∀ {s}, New s → (call (o.decopen x) s).Ends (fun _ => New) (fun _ _ => False) P
  vopOpen : ∀ flags {s}, New s → (call (o.vopOpen x flags) s).Ends (fun _ => New)
    (fun _ t => flags &&& oAppend ≠ 0 ∧ New t) P
  vopTruncate : ∀ {s}, New s →
    (call (o.vopTruncate x 0) s).Ends (fun _ _ => True) (fun _ _ => False) P

def FitsNew (openflags : Nat) : Prop :=
  openflags &&& oAppend = 0 ∧ (openflags &&& oTrunc ≠ 0 → openflags &&& oAccmode ≠ oRdonly)

/-- vfs_open gets to VOP_CREAT, which hands back `v`. -/
def Creats (o : Ops φ π F V) (path : Str) (openflags : Nat) (s : Sys φ F V) (dir : V × Str) (v : V)
    (t : Sys φ F V) : Prop :=
  openflags &&& oAccmode ≠ oAccmode ∧ openflags &&& oCreat ≠ 0 ∧
    ∃ u, vfsLookparent o path (nameMax + 1) s = .ok dir u ∧
      call (o.vopCreat dir.1 dir.2 (decide (openflags &&& oExcl ≠ 0))) u = .ok v t

variable {o : Ops φ π F V} {R : List V → List V → Sys φ F V → Prop} {P : π → Prop}
  {B : Sys φ F V → Prop} {At : Str → V × Str → Prop} {New : Str → V → Sys φ F V → Prop}
  {Done : V → Sys φ F V → Prop} {s : Sys φ F V} {v : V} {path : Str} {openflags : Nat}

section

variable (h : o.Opens R P B At New Done)

include h

theorem openVnode_ledger (hs : R [] [] s) (hacc : openflags &&& oAccmode ≠ oAccmode)
    (hold : ∀ dir v t, Creats o path openflags s dir v t → ¬ New (splitPath path).2 v t) :
    (openVnode o path openflags s).Ends (Handed o R P []) (fun _ => R [] []) P := by
  rw [openVnode]
  by_cases hc : openflags &&& oCreat ≠ 0
  · rw [if_pos hc]
    refine (vfsLookparent_ledger h.toLedger path _ hs).eq.andThen fun x t ⟨ht,hdir⟩ => ?_
    refine (h.vopCreat _ x.1 x.2 _ ht.2 ht.1).eq.attempt_bind (fun y u ⟨hu,hmade⟩ => ?_)
      (fun e u hu => decref_then h.toLedger hu fun _ hw => hw) fun _ hp => hp
    have hu := hu.resolve_right (hold x y u ⟨hacc,hc,t,hdir,hmade⟩)
    exact decref_then h.toLedger (h.swap hu) fun _ hw => .some hw
  · rw [if_neg hc]
    exact vfsLookup_ledger h.toLedger path hs

theorem openTruncate_ledger (openflags : Nat) (hs : R [v] [v] s) :
    (openTruncate o v openflags s).Ends (fun _ => Done v) (fun _ => R [v] [v]) P := by
  rw [openTruncate]
  split
  · split
    · exact hs
    · exact h.vopTruncate v hs
  · exact h.done hs

/-- An open that fails holds nothing, unless it has made a file. -/
theorem vfsOpen_ledger (path : Str) (openflags : Nat) (hs : R [] [] s)
    (hold : ∀ dir v t, Creats o path openflags s dir v t → ¬ New (splitPath path).2 v t) :
    (vfsOpen o path openflags s).Ends Done (fun _ => R [] []) P := by
  rw [vfsOpen]
  split
  · exact hs
  · next hacc =>
    refine (openVnode_ledger h hs hacc hold).andThen fun x t ht => ?_
    refine ht.deref fun v hv => (h.vopOpen v openflags hv).attempt_bind (fun _ u hu => ?_)
      (fun e u hu => decref_then h.toLedger hu fun _ hw => hw) fun _ hp => hp
    refine (h.incopen v hu).bind (fun _ w hw => ?_) (fun _ _ hb => h.bad hb) fun _ hp => hp
    refine (openTruncate_ledger h openflags hw).attempt_bind (fun _ _ hd => hd) (fun e x hx => ?_)
      fun _ hp => hp
    exact (h.decopen v hx).bind (fun _ y hy => decref_then h.toLedger hy fun _ hz => hz)
      (fun _ _ hb => h.bad hb) fun _ hp => hp

end

variable {New : Sys φ F V → Prop} (h : o.OpensNew P New v)

include h

theorem openTruncate_new (hs : New s) : (openTruncate o v openflags s).Ends (fun _ _ => True)
    (fun _ t => ¬ FitsNew openflags ∧ New t) P := by
  rw [openTruncate]
  split
  · next ht =>
    split
    · next hr => exact ⟨fun hf => hf.2 ht hr,hs⟩
    · exact (h.vopTruncate hs).mono (fun _ _ hd => hd) (fun _ _ hf => hf.elim) fun _ hp => hp
  · exact True.intro

/-- An open that has made a file and fails leaves it there, and the flags are why it fails. -/
theorem vfsOpen_new {dir : V × Str} {t : Sys φ F V} (hmade : Creats o path openflags s dir v t)
    (hnew : New t) : (vfsOpen o path openflags s).Ends (fun _ _ => True)
      (fun _ u => ¬ FitsNew openflags ∧ New u) P := by
  obtain ⟨hacc,hc,_,hdir,hmade⟩ := hmade
  have hvn : (openVnode o path openflags s).Ends (fun x u => x = some v ∧ New u)
      (fun _ _ => False) P := by
    rw [openVnode,if_pos hc,bind_ok hdir,bind_ok (attempt_ok hmade)]
    exact (h.decref dir.1 hnew).bind_unerring fun _ _ hu => ⟨rfl,hu⟩
  rw [vfsOpen,if_neg hacc]
  refine hvn.bind_unerring fun x u hu => ?_
  obtain ⟨rfl,hu⟩ := hu
  refine (h.vopOpen openflags hu).attempt_bind (fun _ u hu => ?_) (fun e u hu => ?_) fun _ hp => hp
  · refine (h.incopen hu).bind_unerring fun _ w hw => (openTruncate_new h hw).attempt_bind
      (fun _ _ hd => hd) (fun e x hx => ?_) fun _ hp => hp
    exact (h.decopen hx.2).bind_unerring fun _ y hy =>
      (h.decref v hy).bind_unerring fun _ _ hz => ⟨hx.1,hz⟩
  · exact (h.decref v hu.2).bind_unerring fun _ _ hw => ⟨fun hf => hu.1 hf.1,hw⟩

end Open

section Calls

variable {F V : Type}

inductive Call (V : Type) where
  | openPath (path : Str) (openflags : Nat)
  | close (vn : V)
  | remove (path : Str)
  | rename (oldpath newpath : Str)
  | link (oldpath newpath : Str)
  | symlink (contents path : Str)
  | readlink (path : Str)
  | mkdir (path : Str)
  | rmdir (path : Str)
  | lookup (path : Str)
  | lookparent (path : Str) (buflen : Nat)
  | chdir (path : Str)
  | setbootfs (fsname : Str)

def Call.run [DecidableEq F] {φ π : Type} (o : Ops φ π F V) :
    Call V → VfsM φ π F V (Option V)
  | .openPath path openflags => do
    let vn ← vfsOpen o path openflags
    pure (some vn)
  | .close vn => do
    vfsClose o vn
    pure none
  | .remove path => do
    vfsRemove o path
    pure none
  | .rename oldpath newpath => do
    vfsRename o oldpath newpath
    pure none
  | .link oldpath newpath => do
    vfsLink o oldpath newpath
    pure none
  | .symlink contents path => do
    vfsSymlink o contents path
    pure none
  | .readlink path => do
    vfsReadlink o path
    pure none
  | .mkdir path => do
    vfsMkdir o path
    pure none
  | .rmdir path => do
    vfsRmdir o path
    pure none
  | .lookup path => vfsLookup o path
  | .lookparent path buflen => do
    let dir ← vfsLookparent o path buflen
    pure (some dir.1)
  | .chdir path => do
    vfsChdir o path
    pure none
  | .setbootfs fsname => do
    vfsSetbootfs o fsname
    pure none

end Calls

section Keep

variable {φ π F V : Type}

/-- Every operation keeps `I` and stops the machine only for a reason in `P`; a link does so if
`ok` holds of the vnode that gets the new name. -/
structure Ops.Keep (o : Ops φ π F V) (I : φ → Prop) (P : π → Prop) (ok : V → Prop) : Prop where
  stop : ∀ a, P (o.stop a)
  incref : ∀ v, Keeps I P (o.incref v)
  decref : ∀ v, Keeps I P (o.decref v)
  incopen : ∀ v, Keeps I P (o.incopen v)
  decopen : ∀ v, Keeps I P (o.decopen v)
  fsGetroot : ∀ f, Keeps I P (o.fsGetroot f)
  vopOpen : ∀ v flags, Keeps I P (o.vopOpen v flags)
  vopReadlink : ∀ v, Keeps I P (o.vopReadlink v)
  vopGettype : ∀ v, Keeps I P (o.vopGettype v)
  vopTruncate : ∀ v len, Keeps I P (o.vopTruncate v len)
  vopCreat : ∀ v name excl, Keeps I P (o.vopCreat v name excl)
  vopSymlink : ∀ v name contents, Keeps I P (o.vopSymlink v name contents)
  vopMkdir : ∀ v name, Keeps I P (o.vopMkdir v name)
  vopLink : ∀ v name file, ok file → Keeps I P (o.vopLink v name file)
  vopRemove : ∀ v name, Keeps I P (o.vopRemove v name)
  vopRmdir : ∀ v name, Keeps I P (o.vopRmdir v name)
  vopRename : ∀ v name v' name', Keeps I P (o.vopRename v name v' name')
  vopLookup : ∀ v path, Keeps I P (o.vopLookup v path)
  vopLookparent : ∀ v path buflen, Keeps I P (o.vopLookparent v path buflen)

/-- The property of the file systems, as one of the whole state. -/
abbrev Holding (I : φ → Prop) (s : Sys φ F V) : Prop := I s.world

variable {o : Ops φ π F V} {I : φ → Prop} {P : π → Prop} {ok : V → Prop} {s : Sys φ F V}

theorem Keeps.call {α : Type} {f : Prog φ Errno π α} (hf : Keeps I P f) :
    Keeps (Holding I) P (call f : VfsM φ π F V α) := Prog.Keeps.zoom (fun _ _ => rfl) hf

variable (h : o.Keep I P ok)

include h

theorem Ops.Keep.opens : o.Opens (fun _ _ => Holding I) P (Holding I) (fun _ _ => True)
    (fun _ _ _ => False) (fun _ => Holding I) where
  swap hs := hs
  bad hs := hs
  current _ _ _ := h.stop _
  device _ _ := h.stop _
  incref v _ s hs := Keeps.call (h.incref v) s hs
  decref v _ s hs := Keeps.call (h.decref v) s hs
  fsGetroot f _ s hs := (Keeps.call (h.fsGetroot f) s hs).mono (fun _ _ ht => ⟨ht,fun _ => h.stop _⟩)
    (fun _ _ ht => ht) fun _ hp => hp
  vopLookup v path _ s hs := Keeps.call (h.vopLookup v path) s hs
  vopLookparent v path buflen _ s hs := (Keeps.call (h.vopLookparent v path buflen) s hs).mono
    (fun _ _ ht => ⟨ht,True.intro⟩) (fun _ _ ht => ht) fun _ hp => hp
  done hs := hs
  incopen v s hs := Keeps.call (h.incopen v) s hs
  decopen v s hs := Keeps.call (h.decopen v) s hs
  vopOpen v flags s hs := Keeps.call (h.vopOpen v flags) s hs
  vopTruncate v s hs := Keeps.call (h.vopTruncate v 0) s hs
  vopCreat _ v name excl s _ hs := (Keeps.call (h.vopCreat v name excl) s hs).mono
    (fun _ _ ht => .inl ht) (fun _ _ ht => ht) fun _ hp => hp

theorem dropOld_keeps (x : Option V) : Keeps (Holding I) P (dropOld o x) := by
  cases x with
  | none => exact .pure ()
  | some v => exact Keeps.call (h.decref v)

theorem vfsChdir_keeps (path : Str) : Keeps (Holding I) P (vfsChdir o path) := by
  have hset : ∀ v, Keeps (Holding I) P (vfsSetcurdir o v) := fun v =>
    (Keeps.call (h.vopGettype v)).bind fun vtype => .ite (fun _ => .fail _) fun _ =>
      (Keeps.call (h.incref v)).bind fun _ => .get_bind fun s =>
        .modify_bind (fun _ hs => hs) (dropOld_keeps h _)
  exact fun s hs => (vfsLookup_ledger (m := []) h.opens.toLedger path hs).andThen fun x t ht =>
    ht.deref fun v hv => ((hset v).attempt.bind fun y => (Keeps.call (h.decref v)).bind fun _ =>
      .ofExcept y) t hv

theorem vfsSetbootfs_keeps (fsname : Str) : Keeps (Holding I) P (vfsSetbootfs o fsname) := by
  have hcur : Keeps (Holding I) P (vfsGetcurdir o) := fun s hs =>
    (vfsGetcurdir_ledger (m := []) h.opens.toLedger hs).mono (fun _ _ ht => ht.1) (fun _ _ ht => ht)
      fun _ hp => hp
  exact .ite (fun _ => .fail _) fun _ => (vfsChdir_keeps h _).bind fun _ => hcur.bind fun v =>
    .get_bind fun s => .modify_bind (fun _ hs => hs) (dropOld_keeps h _)

def Call.Harmless (o : Ops φ π F V) (ok : V → Prop) (s : Sys φ F V) : Call V → Prop
  | .link oldpath _ => ∀ v t, vfsLookup o oldpath s = .ok (some v) t → ok v
  | _ => True

theorem Call.run_keeps [DecidableEq F] (c : Call V) (s : Sys φ F V) (hs : I s.world)
    (hc : c.Harmless o ok s) :
    (c.run o s).Ends (fun _ t => I t.world) (fun _ t => I t.world) P := by
  have hl : o.Ledger (fun _ _ => Holding I) P (Holding I) (fun _ _ => True) := h.opens.toLedger
  have hquiet : ∀ {f : VfsM φ π F V Unit}, (f s).Ends (fun _ => Holding I) (fun _ => Holding I) P →
      ((f >>= fun _ => Pure.pure none : VfsM φ π F V (Option V)) s).Ends (fun _ t => I t.world)
        (fun _ t => I t.world) P := fun hf => hf.andThen fun _ _ ht => ht
  cases c with
  | openPath path openflags =>
    exact (vfsOpen_ledger h.opens path openflags hs fun _ _ _ _ => id).andThen
      fun _ _ ht => ht
  | close vn =>
    exact hquiet (((Keeps.call (h.decopen vn)).bind fun _ => Keeps.call (h.decref vn)) s hs)
  | remove path =>
    exact hquiet (onParent_ledger (m := []) hl path hs fun v name t ht =>
      Keeps.call (h.vopRemove v name) t ht)
  | rename oldpath newpath =>
    exact hquiet (vfsRename_ledger (m := []) hl oldpath newpath hs fun v name w name' t ht =>
      Keeps.call (h.vopRename v name w name') t ht)
  | link oldpath newpath =>
    exact hquiet (vfsLink_ledger (m := []) hl oldpath newpath hs fun v t hv w name u hu =>
      Keeps.call (h.vopLink w name v (hc v t hv)) u hu)
  | symlink contents path =>
    exact hquiet (onParent_ledger (m := []) hl path hs fun v name t ht =>
      Keeps.call (h.vopSymlink v name contents) t ht)
  | readlink path =>
    exact hquiet (vfsReadlink_ledger (m := []) hl path hs fun v t ht =>
      Keeps.call (h.vopReadlink v) t ht)
  | mkdir path =>
    exact hquiet (onParent_ledger (m := []) hl path hs fun v name t ht =>
      Keeps.call (h.vopMkdir v name) t ht)
  | rmdir path =>
    exact hquiet (onParent_ledger (m := []) hl path hs fun v name t ht =>
      Keeps.call (h.vopRmdir v name) t ht)
  | lookup path =>
    exact (vfsLookup_ledger (m := []) hl path hs).mono (fun _ _ ht => ht.1) (fun _ _ ht => ht)
      fun _ hp => hp
  | lookparent path buflen =>
    exact (vfsLookparent_ledger (m := []) hl path buflen hs).andThen fun _ _ ht => ht.1
  | chdir path => exact hquiet (vfsChdir_keeps h path s hs)
  | setbootfs fsname => exact hquiet (vfsSetbootfs_keeps h fsname s hs)

end Keep

end MipsOs.Vfs
