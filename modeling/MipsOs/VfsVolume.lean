import MipsOs.SfsVolume
import MipsOs.VfsLayer

/-! The calls on path names over an SFS volume, with any other file systems and devices beside it.
The names of the root directory are those of regular files, unless the root itself is linked. -/

set_option autoImplicit false
namespace MipsOs.Vfs
open Prog Function Runs

inductive Stop (π : Type) where
  | sfs (p : Sfs.Panic)
  | other (p : π)
  | vfs (a : Assertion)
  /-- A vnode is used that has left the memory. -/
  | dangling
  | opencount | killOpencount
  /-- sfs_link and sfs_rename of vnodes of two file systems. -/
  | crossFs

/-- The volume, vn_opencount of its vnodes, and everything else. -/
structure World (φ : Type) where
  fs : Sfs.Fs
  opencount : Nat → Nat
  rest : φ

section Volume

variable {φ π G W α : Type}

abbrev WorldM (φ π α : Type) : Type := Prog (World φ) Errno (Stop π) α

/-- A vnode of an open file has been killed. -/
def World.killsOpen (w : World φ) (t : Sfs.Fs) : Bool :=
  w.fs.vnodes.any fun v => w.opencount v.ino != 0 && (t.vnode v.ino).isNone

/-- A call on vnodes of the volume, all of which must be in memory. vnode_kill asserts that
vn_opencount is zero; as that is kept here, it is looked at when the call has ended. -/
def onAct (a : Sfs.Act) : WorldM φ π Sfs.Reply := fun w =>
  if a.handles.all fun i => (w.fs.vnode i).isSome then
    match Sfs.exec a w.fs with
    | .ok r t => if w.killsOpen t then .panic .killOpencount else .ok r { w with fs := t }
    | .err e t => if w.killsOpen t then .panic .killOpencount else .err e { w with fs := t }
    | .panic p => .panic (.sfs p)
  else .panic .dangling

/-- A function of another file system. -/
def onRest (f : Prog φ Errno π α) : WorldM φ π α := fun w =>
  match f w.rest with
  | .ok a x => .ok a { w with rest := x }
  | .err e x => .err e { w with rest := x }
  | .panic p => .panic (.other p)

def atVnode (ino : Nat) : WorldM φ π Sfs.SfsVnode := fun w =>
  match w.fs.vnode ino with
  | some sv => .ok sv w
  | none => .panic .dangling

def replyIno : Sfs.Reply → Nat
  | .vnode ino => ino
  | _ => Sfs.sfsNoino

def cname (path : Str) : Sfs.Name :=
  ⟨path.takeWhile (· ≠ 0),fun h => by simpa using List.mem_takeWhile_imp h⟩

def sfsOpen (ino openflags : Nat) : WorldM φ π Unit := do
  let sv ← atVnode ino
  match sv.ops with
  | .file => if openflags &&& oAppend ≠ 0 then fail .EUNIMP else pure ()
  | .dir =>
    if openflags &&& oAccmode ≠ oRdonly ∨ openflags &&& oAppend ≠ 0 then fail .EISDIR else pure ()

def sfsReadlink (ino : Nat) : WorldM φ π Unit := do
  let sv ← atVnode ino
  match sv.ops with
  | .file => fail .ENOTDIR
  | .dir => fail .EISDIR

def sfsUnimp (ino : Nat) : WorldM φ π Unit := do
  let sv ← atVnode ino
  match sv.ops with
  | .file => fail .ENOTDIR
  | .dir => fail .EUNIMP

def sfsGettype (ino : Nat) : WorldM φ π Nat := do
  let sv ← atVnode ino
  match sv.i.type with
  | .file => pure 0o10000
  | .dir => pure 0o20000
  | _ => halt (.sfs (.invalidType ino))

def sfsLookparent (ino : Nat) (path : Str) (buflen : Nat) : WorldM φ π (Nat × Str) := do
  let sv ← atVnode ino
  if sv.ops = .file ∨ sv.i.type ≠ .dir then fail .ENOTDIR
  else if path.length + 1 > buflen then fail .ENAMETOOLONG
  else do
    let _ ← onAct (.incref ino)
    pure (ino,path)

def sfsIncopen (ino : Nat) : WorldM φ π Unit := do
  let _ ← atVnode ino
  modify fun w => { w with opencount := update w.opencount ino (w.opencount ino + 1) }

/-- VOP_CLOSE is VOP_FSYNC; its error is printed and forgotten. -/
def sfsDecopen (ino : Nat) : WorldM φ π Unit := do
  let _ ← atVnode ino
  let w ← get
  if w.opencount ino = 0 then halt .opencount
  else do
    modify fun w => { w with opencount := update w.opencount ino (w.opencount ino - 1) }
    if 1 < w.opencount ino then pure ()
    else do
      let _ ← attempt (onAct (.fsync ino))

def done (a : Sfs.Act) : WorldM φ π Unit := do
  let _ ← onAct a

def handsBack (a : Sfs.Act) : WorldM φ π (Nat ⊕ W) := do
  let r ← onAct a
  pure (.inl (replyIno r))

/-- The vnodes of the volume are its inode numbers; `none` is the volume itself. -/
def volumeOps (x : Ops φ π G W) (volname : Str) :
    Ops (World φ) (Stop π) (Option G) (Nat ⊕ W) where
  stop := .vfs
  getvolname
    | none => some volname
    | some g => x.getvolname g
  devVnode n := .inr (x.devVnode n)
  vnFs
    | .inl _ => some none
    | .inr v => (x.vnFs v).map some
  incref
    | .inl i => done (.incref i)
    | .inr v => onRest (x.incref v)
  decref
    | .inl i => done (.decref i)
    | .inr v => onRest (x.decref v)
  incopen
    | .inl i => sfsIncopen i
    | .inr v => onRest (x.incopen v)
  decopen
    | .inl i => sfsDecopen i
    | .inr v => onRest (x.decopen v)
  fsGetroot
    | none => do
      let v ← handsBack .getroot
      pure (some v)
    | some g => do
      let v ← onRest (x.fsGetroot g)
      pure (v.map .inr)
  vopOpen
    | .inl i, flags => sfsOpen i flags
    | .inr v, flags => onRest (x.vopOpen v flags)
  vopReadlink
    | .inl i => sfsReadlink i
    | .inr v => onRest (x.vopReadlink v)
  vopGettype
    | .inl i => sfsGettype i
    | .inr v => onRest (x.vopGettype v)
  vopTruncate
    | .inl i, len => done (.truncate i (Fin.ofNat (2^31) len))
    | .inr v, len => onRest (x.vopTruncate v len)
  vopCreat
    | .inl i, name, excl => handsBack (.creat i (cname name) excl)
    | .inr v, name, excl => do
      let v ← onRest (x.vopCreat v name excl)
      pure (.inr v)
  vopSymlink
    | .inl i, _, _ => sfsUnimp i
    | .inr v, name, contents => onRest (x.vopSymlink v name contents)
  vopMkdir
    | .inl i, _ => sfsUnimp i
    | .inr v, name => onRest (x.vopMkdir v name)
  vopLink
    | .inl i, name, .inl file => done (.link i (cname name) file)
    | .inr v, name, .inr file => onRest (x.vopLink v name file)
    | _, _, _ => halt .crossFs
  vopRemove
    | .inl i, name => done (.remove i (cname name))
    | .inr v, name => onRest (x.vopRemove v name)
  vopRmdir
    | .inl i, _ => sfsUnimp i
    | .inr v, name => onRest (x.vopRmdir v name)
  vopRename
    | .inl i, name, .inl i', name' => done (.rename i (cname name) i' (cname name'))
    | .inr v, name, .inr v', name' => onRest (x.vopRename v name v' name')
    | _, _, _, _ => halt .crossFs
  vopLookup
    | .inl i, path => handsBack (.lookup i (cname path))
    | .inr v, path => do
      let v ← onRest (x.vopLookup v path)
      pure (.inr v)
  vopLookparent
    | .inl i, path, buflen => do
      let r ← sfsLookparent i path buflen
      pure (.inl r.1,r.2)
    | .inr v, path, buflen => do
      let r ← onRest (x.vopLookparent v path buflen)
      pure (.inr r.1,r.2)

end Volume

section Files

variable {φ π G W α : Type}

def linkedFile : Sfs.Act → Option Nat
  | .link _ _ file => some file
  | _ => none

/-- A property that every call on the volume keeps, a link only of a file with `ok`, and which the
counts of opens and the other file systems have no part in. -/
structure Stable (I : World φ → Prop) (P : Stop π → Prop) (ok : Nat → Prop) : Prop where
  act : ∀ a, (∀ file, linkedFile a = some file → ok file) →
    Keeps I P (onAct a : WorldM φ π Sfs.Reply)
  rest : ∀ w x, I w → I { w with rest := x }
  opencount : ∀ w c, I w → I { w with opencount := c }
  stop : ∀ p, p ≠ .sfs .renameType → P p

section Stable

variable {I : World φ → Prop} {P : Stop π → Prop} {ok : Nat → Prop} (h : Stable I P ok)

include h

theorem Stable.unlinked {a : Sfs.Act} (ha : linkedFile a = none) :
    Keeps I P (onAct a : WorldM φ π Sfs.Reply) :=
  h.act a fun file hf => by
    rw [ha] at hf
    cases hf

theorem Stable.done {a : Sfs.Act} (ha : linkedFile a = none) :
    Keeps I P (done a : WorldM φ π Unit) :=
  (h.unlinked ha).bind fun _ => .pure ()

theorem Stable.handsBack {a : Sfs.Act} (ha : linkedFile a = none) :
    Keeps I P (handsBack a : WorldM φ π (Nat ⊕ W)) :=
  (h.unlinked ha).bind fun _ => .pure _

theorem Stable.onRest (f : Prog φ Errno π α) : Keeps I P (onRest f : WorldM φ π α) := by
  intro w hw
  unfold Vfs.onRest
  split
  · exact h.rest w _ hw
  · exact h.rest w _ hw
  · exact h.stop _ nofun

theorem Stable.atVnode (ino : Nat) : Keeps I P (atVnode ino : WorldM φ π Sfs.SfsVnode) := by
  intro w hw
  unfold Vfs.atVnode
  split
  · exact hw
  · exact h.stop _ nofun

theorem Stable.sfsUnimp (ino : Nat) : Keeps I P (sfsUnimp ino : WorldM φ π Unit) := by
  refine (h.atVnode ino).bind fun sv => ?_
  split
  · exact .fail _
  · exact .fail _

theorem Stable.sfsDecopen (ino : Nat) : Keeps I P (sfsDecopen ino : WorldM φ π Unit) := by
  refine (h.atVnode ino).bind fun _ => .get_bind fun w => ?_
  split
  · exact .halt (h.stop _ nofun)
  · refine .modify_bind (fun w hw => h.opencount w _ hw) ?_
    split
    · exact .pure ()
    · exact (h.unlinked rfl).attempt.bind fun _ => .pure ()

theorem Stable.sfsOpen (ino flags : Nat) : Keeps I P (sfsOpen ino flags : WorldM φ π Unit) := by
  refine (h.atVnode ino).bind fun sv => ?_
  split
  · split
    · exact .fail _
    · exact .pure ()
  · split
    · exact .fail _
    · exact .pure ()

theorem Stable.sfsReadlink (ino : Nat) : Keeps I P (sfsReadlink ino : WorldM φ π Unit) := by
  refine (h.atVnode ino).bind fun sv => ?_
  split
  · exact .fail _
  · exact .fail _

theorem Stable.sfsGettype (ino : Nat) : Keeps I P (sfsGettype ino : WorldM φ π Nat) := by
  refine (h.atVnode ino).bind fun sv => ?_
  split
  · exact .pure _
  · exact .pure _
  · exact .halt (h.stop _ nofun)

theorem Stable.sfsLookparent (ino : Nat) (path : Str) (buflen : Nat) :
    Keeps I P (sfsLookparent ino path buflen : WorldM φ π (Nat × Str)) := by
  refine (h.atVnode ino).bind fun sv => ?_
  split
  · exact .fail _
  · split
    · exact .fail _
    · exact (h.unlinked rfl).bind fun _ => .pure _

/-- The operations of the volume, a link perhaps apart, and those of the others. -/
theorem Stable.keep (x : Ops φ π G W) (volname : Str) :
    (volumeOps x volname).Keep I P fun v => ∀ i, v = .inl i → ok i where
  stop a := h.stop _ nofun
  incref
    | .inl i => h.done rfl
    | .inr v => h.onRest _
  decref
    | .inl i => h.done rfl
    | .inr v => h.onRest _
  incopen
    | .inl i => (h.atVnode i).bind fun _ w hw => h.opencount w _ hw
    | .inr v => h.onRest _
  decopen
    | .inl i => h.sfsDecopen i
    | .inr v => h.onRest _
  fsGetroot
    | none => (h.handsBack rfl).bind fun _ => .pure _
    | some g => (h.onRest _).bind fun _ => .pure _
  vopOpen
    | .inl i, flags => h.sfsOpen i flags
    | .inr v, flags => h.onRest _
  vopReadlink
    | .inl i => h.sfsReadlink i
    | .inr v => h.onRest _
  vopGettype
    | .inl i => h.sfsGettype i
    | .inr v => h.onRest _
  vopTruncate
    | .inl i, len => h.done rfl
    | .inr v, len => h.onRest _
  vopCreat
    | .inl i, name, excl => h.handsBack rfl
    | .inr v, name, excl => (h.onRest _).bind fun _ => .pure _
  vopSymlink
    | .inl i, name, contents => h.sfsUnimp i
    | .inr v, name, contents => h.onRest _
  vopMkdir
    | .inl i, name => h.sfsUnimp i
    | .inr v, name => h.onRest _
  vopLink
    | .inl i, name, .inl file, hok => (h.act _ fun f hf => by
        cases hf
        exact hok file rfl).bind fun _ => .pure ()
    | .inl i, name, .inr file, _ => .halt (h.stop _ nofun)
    | .inr v, name, .inl file, _ => .halt (h.stop _ nofun)
    | .inr v, name, .inr file, _ => h.onRest _
  vopRemove
    | .inl i, name => h.done rfl
    | .inr v, name => h.onRest _
  vopRmdir
    | .inl i, name => h.sfsUnimp i
    | .inr v, name => h.onRest _
  vopRename
    | .inl i, name, .inl i', name' => h.done rfl
    | .inl i, name, .inr v', name' => .halt (h.stop _ nofun)
    | .inr v, name, .inl i', name' => .halt (h.stop _ nofun)
    | .inr v, name, .inr v', name' => h.onRest _
  vopLookup
    | .inl i, path => h.handsBack rfl
    | .inr v, path => (h.onRest _).bind fun _ => .pure _
  vopLookparent
    | .inl i, path, buflen => (h.sfsLookparent i path buflen).bind fun _ => .pure _
    | .inr v, path, buflen => (h.onRest _).bind fun _ => .pure _

end Stable

/-- The books of the volume are in order, and the root has no name. -/
def FilesOnly (w : World φ) : Prop :=
  Sfs.Inv w.fs ∧
    ¬ (w.fs.fileAt Sfs.sfsRootLocation).names Sfs.sfsRootLocation

/-- The assertion of sfs_rename holds. -/
def NotRenameType (p : Stop π) : Prop := p ≠ .sfs .renameType

theorem onAct_keeps {a : Sfs.Act} (ha : a.linksRoot = false) :
    Keeps FilesOnly NotRenameType (onAct a : WorldM φ π Sfs.Reply) := by
  intro w hw
  have hkeep : ∀ t, (Sfs.Inv t ∧ (a.linksRoot = false → Sfs.RootKept w.fs t)) →
      FilesOnly { w with fs := t } := fun t ht => ⟨ht.1,fun hn => hw.2 (ht.2 ha hn)⟩
  unfold onAct
  split
  · next hall =>
    have hsafe := (Sfs.exec_rootKept hw.1 a fun i hi => List.all_eq_true.mp hall i hi).resolve_right
      fun hn => hw.2 hn.1
    cases hr : Sfs.exec a w.fs with
    | ok r t | err e t =>
      rw [hr] at hsafe
      simp only
      split
      · exact nofun
      · exact hkeep t hsafe
    | panic p =>
      rw [hr] at hsafe
      exact hsafe.elim
  · exact nofun

theorem filesOnly_stable :
    Stable (φ := φ) (π := π) FilesOnly NotRenameType (· ≠ Sfs.sfsRootLocation) where
  act a ha := by
    refine onAct_keeps ?_
    cases a with
    | link dir name file => simpa [Sfs.Act.linksRoot] using ha file rfl
    | _ => rfl
  rest _ _ hw := hw
  opencount _ _ hw := hw
  stop _ hp := hp

theorem volumeOps_keep (x : Ops φ π G W) (volname : Str) :
    (volumeOps x volname).Keep FilesOnly NotRenameType (· ≠ .inl Sfs.sfsRootLocation) :=
  { filesOnly_stable.keep x volname with
    vopLink := fun v name file hok => (filesOnly_stable.keep x volname).vopLink v name file
      fun _ hi he => hok (he ▸ hi) }

/-- The books of the volume are in order. -/
def InOrder (w : World φ) : Prop := Sfs.Inv w.fs

/-- Every call keeps them so, a rename of the root apart, which stops the machine. -/
theorem inOrder_stable : Stable (φ := φ) (π := π) InOrder (fun _ => True) fun _ => True where
  act a _ := by
    intro w hw
    unfold onAct
    split
    · next hall =>
      have hsafe := Sfs.exec_inv hw a fun i hi => List.all_eq_true.mp hall i hi
      cases hr : Sfs.exec a w.fs with
      | ok | err =>
        rw [hr] at hsafe
        simp only
        split
        · exact True.intro
        · exact hsafe.resolve_right (by simp)
      | panic p => exact True.intro
    · exact True.intro
  rest _ _ hw := hw
  opencount _ _ hw := hw
  stop _ _ := True.intro

end Files

section Runs

variable {φ π F V G W : Type} [DecidableEq F]

def vfsStep (o : Ops φ π F V) (s : Sys φ F V) (c : Call V) : Option (Sys φ F V) :=
  match c.run o s with
  | .ok _ t => some t
  | .err _ t => some t
  | .panic _ => none

/-- A volume that has just been mounted; the table has it under `none`. -/
def mountedVolume (knowndevs : List (Knowndev (Option G))) (v : Sfs.Fs) (rest : φ) :
    Sys (World φ) (Option G) (Nat ⊕ W) := ⟨knowndevs,none,none,⟨v,fun _ => 0,rest⟩⟩

/-- The old path of a link does not lead to the root directory of the volume. -/
abbrev LinksNoRoot (o : Ops φ π F (Nat ⊕ W)) (s : Sys φ F (Nat ⊕ W)) (c : Call (Nat ⊕ W)) : Prop :=
  c.Harmless o (· ≠ .inl Sfs.sfsRootLocation) s

theorem vfsStep_keeps {o : Ops φ π F V} {I : φ → Prop} {P : π → Prop} {ok : V → Prop}
    {s t : Sys φ F V} {c : Call V} (h : o.Keep I P ok) (hs : I s.world) (hc : c.Harmless o ok s)
    (ht : vfsStep o s c = some t) : I t.world := by
  have hends := Call.run_keeps h c s hs hc
  unfold vfsStep at ht
  split at ht
  · next r u hr =>
    rw [hr] at hends
    exact Option.some.inj ht ▸ hends
  · next e u hr =>
    rw [hr] at hends
    exact Option.some.inj ht ▸ hends
  · cases ht

theorem FilesOnly.type {w : World φ} (h : FilesOnly w) {k : Nat}
    (hk : (w.fs.fileAt Sfs.sfsRootLocation).used k) :
    (w.fs.inodeAt ((w.fs.fileAt Sfs.sfsRootLocation).entry k).ino).type = .file := by
  have hlive : Sfs.Live w.fs ((w.fs.fileAt Sfs.sfsRootLocation).entry k).ino :=
    .inr (.inl ⟨k,hk,rfl⟩)
  rw [(h.1.own.inodes _ hlive).type,if_neg fun he => h.2 ⟨k,hk,he⟩]

/-- In every state of a volume whose root is not linked, each used slot of the root directory
names a regular file, and sfs_rename finds one. -/
theorem root_names_files [DecidableEq G] (x : Ops φ π G W) (devname : Str)
    (knowndevs : List (Knowndev (Option G))) (rest : φ) {volname : Sfs.Name} {stSize : Fin (2^31)}
    {image : Nat → Sfs.Block} {v : Sfs.Fs} (hv : Sfs.volume volname stSize image = some v)
    {calls : List (Call (Nat ⊕ W))} {t : Sys (World φ) (Option G) (Nat ⊕ W)}
    (hlink : Along (vfsStep (volumeOps x devname)) (LinksNoRoot (volumeOps x devname))
      (mountedVolume knowndevs v rest) calls)
    (ht : run (vfsStep (volumeOps x devname)) (mountedVolume knowndevs v rest) calls = some t) :
    (∀ k, t.world.fs.root.used k →
      (t.world.fs.inodeAt (t.world.fs.root.entry k).ino).type = .file) ∧
    ∀ c, LinksNoRoot (volumeOps x devname) t c →
      c.run (volumeOps x devname) t ≠ .panic (.sfs .renameType) := by
  have hops := volumeOps_keep x devname
  have hfiles : FilesOnly t.world := by
    refine run_keeps (I := fun s => FilesOnly s.world)
      (fun s c u hs hc hu => vfsStep_keeps hops hs hc hu) ⟨Sfs.volume_inv hv,?_⟩ hlink ht
    obtain ⟨d,hd,rfl⟩ := Sfs.volume_mounted hv
    rintro ⟨k,hk,_⟩
    exact hd.unused k hk
  refine ⟨fun k hk => hfiles.type hk,fun c hc hstop => ?_⟩
  have hends := Call.run_keeps hops c t hfiles hc
  rw [hstop] at hends
  exact hends rfl

def noOthers : Ops Unit Unit Unit Unit where
  stop _ := ()
  getvolname _ := none
  devVnode _ := ()
  vnFs _ := none
  incref _ := pure ()
  decref _ := pure ()
  incopen _ := pure ()
  decopen _ := pure ()
  fsGetroot _ := pure none
  vopOpen _ _ := fail .EINVAL
  vopReadlink _ := fail .EINVAL
  vopGettype _ := fail .EINVAL
  vopTruncate _ _ := fail .EINVAL
  vopCreat _ _ _ := fail .EINVAL
  vopSymlink _ _ _ := fail .EINVAL
  vopMkdir _ _ := fail .EINVAL
  vopLink _ _ _ := fail .EINVAL
  vopRemove _ _ := fail .EINVAL
  vopRmdir _ _ := fail .EINVAL
  vopRename _ _ _ _ := fail .EINVAL
  vopLookup _ _ := fail .EINVAL
  vopLookparent _ _ _ := fail .EINVAL

def oneVolume : Ops (World Unit) (Stop Unit) (Option Unit) (Nat ⊕ Unit) := volumeOps noOthers vol0

def lhd0Mounted (v : Sfs.Fs) : Sys (World Unit) (Option Unit) (Nat ⊕ Unit) :=
  mountedVolume [⟨lhd0,some (mkrawname lhd0),true,0,some none⟩] v ()

def onLhd0 (name : Str) : Str := lhd0 ++ colon :: name

def linkAndRename : List (Call (Nat ⊕ Unit)) :=
  [.openPath (onLhd0 [97]) (oCreat + 2),.link (onLhd0 [97]) (onLhd0 [98]),
    .rename (onLhd0 [97]) (onLhd0 [99])]

def linkRoot : List (Call (Nat ⊕ Unit)) := [.link (onLhd0 []) (onLhd0 [120])]

def linksFile (s : Sys (World Unit) (Option Unit) (Nat ⊕ Unit)) : Call (Nat ⊕ Unit) → Bool
  | .link oldpath _ => (vfsLookup oneVolume oldpath s).test fun v _ =>
      decide (v ≠ some (.inl Sfs.sfsRootLocation))
  | _ => true

theorem linksFile_noRoot (s : Sys (World Unit) (Option Unit) (Nat ⊕ Unit)) (c : Call (Nat ⊕ Unit))
    (h : linksFile s c = true) : LinksNoRoot oneVolume s c := by
  cases c with
  | link oldpath newpath =>
    intro v t hv he
    rw [linksFile,hv] at h
    exact of_decide_eq_true h (congrArg some he)
  | _ => exact True.intro

theorem root_names_files_linkAndRename : ∃ v t, Sfs.volume4096 = some v ∧
    run (vfsStep oneVolume) (lhd0Mounted v) linkAndRename = some t ∧
    (∀ k, t.world.fs.root.used k →
      (t.world.fs.inodeAt (t.world.fs.root.entry k).ino).type = .file) ∧
    ∀ c, LinksNoRoot oneVolume t c → c.run oneVolume t ≠ .panic (.sfs .renameType) := by
  have hcheck : (Sfs.volume4096.any fun v =>
      checkAlong (vfsStep oneVolume) linksFile (lhd0Mounted v) linkAndRename &&
        (run (vfsStep oneVolume) (lhd0Mounted v) linkAndRename).isSome) = true := by
    decide +kernel
  obtain ⟨v,hv,h⟩ := some_of_any hcheck
  rw [Bool.and_eq_true] at h
  obtain ⟨t,ht⟩ := Option.isSome_iff_exists.mp h.2
  exact ⟨v,t,hv,ht,root_names_files noOthers vol0 _ () hv
    (Along.of_check linksFile_noRoot h.1) ht⟩

def stoppedByType {σ α : Type} : Outcome σ Errno (Stop Unit) α → Bool
  | .panic (.sfs .renameType) => true
  | _ => false

theorem eq_panic_of_stoppedByType {σ α : Type} {r : Outcome σ Errno (Stop Unit) α}
    (h : stoppedByType r = true) : r = .panic (.sfs .renameType) := by
  unfold stoppedByType at h
  split at h
  · rfl
  · cases h

/-- The root has been linked as x; a rename of x trips the assertion. -/
theorem linked_root_stops_rename : ∃ v t, Sfs.volume4096 = some v ∧
    run (vfsStep oneVolume) (lhd0Mounted v) linkRoot = some t ∧
    (∃ k, t.world.fs.root.used k ∧
      (t.world.fs.inodeAt (t.world.fs.root.entry k).ino).type = .dir) ∧
    vfsRename oneVolume (onLhd0 [120]) (onLhd0 [121]) t = .panic (.sfs .renameType) := by
  have hcheck : (Sfs.volume4096.any fun v =>
      (run (vfsStep oneVolume) (lhd0Mounted v) linkRoot).any fun t =>
      decide (0 < t.world.fs.root.slots ∧
        (t.world.fs.root.entry 0).ino ≠ Sfs.sfsNoino ∧
        (t.world.fs.inodeAt (t.world.fs.root.entry 0).ino).type = .dir) &&
      stoppedByType (vfsRename oneVolume (onLhd0 [120]) (onLhd0 [121]) t)) = true := by
    decide +kernel
  obtain ⟨v,hv,h⟩ := some_of_any hcheck
  obtain ⟨t,ht,h⟩ := some_of_any h
  rw [Bool.and_eq_true] at h
  obtain ⟨hslot,hino,htype⟩ := of_decide_eq_true h.1
  exact ⟨v,t,hv,ht,⟨0,⟨hslot,hino⟩,htype⟩,eq_panic_of_stoppedByType h.2⟩

end Runs

end MipsOs.Vfs
