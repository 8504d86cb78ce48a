import Mathlib.Data.Fin.Basic
import MipsOs.BlockDevice

/-! The file system proper: the structures of kern/include/kern/sfs.h as they lie in a block of a
big-endian machine, without the unused words of an inode, which nothing reads; sfs_io.c,
sfs_vnode.c and the reference counts of kern/fs/vfs/vnode.c. Calls run one after another, so a
vnode is named by its inode number and the count locks are left out. -/

set_option autoImplicit false
namespace MipsOs.Sfs
open Bytes Prog Function

def sfsMagic : Nat := 0xabadf001
def sfsBlocksize : Nat := 512
def sfsVolnameSize : Nat := 32
def sfsNdirect : Nat := 15
def sfsDbperidb : Nat := 128
def sfsNamelen : Nat := 60
def sfsSbLocation : Nat := 0
def sfsRootLocation : Nat := 1
def sfsMapLocation : Nat := 2
def sfsNoino : Nat := 0
def sfsBlockbits : Nat := 4096

/-- SFS_ROUNDUP, in 32 bits. -/
def sfsRoundup (a b : Nat) : Nat := (a + b - 1) % 2^32 / b * b

def sfsBitmapsize (nblocks : Nat) : Nat := sfsRoundup nblocks sfsBlockbits

def sfsBitblocks (nblocks : Nat) : Nat := sfsBitmapsize nblocks / sfsBlockbits

structure Super where
  magic : Nat
  nblocks : Nat
  volname : Buffer

/-- SFS_TYPE_INVAL, SFS_TYPE_FILE, SFS_TYPE_DIR; `other n` is the value n+3. -/
inductive FileType where
  | inval | file | dir | other (n : Nat)
  deriving DecidableEq, Repr

def FileType.code : FileType → Nat
  | .inval => 0
  | .file => 1
  | .dir => 2
  | .other n => n + 3

def FileType.ofCode : Nat → FileType
  | 0 => .inval
  | 1 => .file
  | 2 => .dir
  | n+3 => .other n

@[simp] theorem FileType.ofCode_code (t : FileType) : FileType.ofCode t.code = t := by
  cases t <;> rfl

structure Inode where
  size : Nat
  type : FileType
  linkcount : Nat
  direct : Fin 15 → Nat
  indirect : Nat

def sizeofDir : Nat := 64

structure Dirent where
  ino : Nat
  name : Buffer

def encodeSuper (sp : Super) : Buffer := fun k =>
  if k < 4 then be32Byte sp.magic k
  else if k < 8 then be32Byte sp.nblocks (k-4)
  else if k < 40 then sp.volname (k-8)
  else 0

def decodeSuper (b : Buffer) : Super := ⟨be32 b 0,be32 b 4,fun k => b (k+8)⟩

def encodeInode (i : Inode) : Buffer := fun k =>
  if k < 4 then be32Byte i.size k
  else if k < 6 then be16Byte i.type.code (k-4)
  else if k < 8 then be16Byte i.linkcount (k-6)
  else if h : k < 68 then be32Byte (i.direct ⟨(k-8)/4,by omega⟩) ((k-8)%4)
  else if k < 72 then be32Byte i.indirect (k-68)
  else 0

def decodeInode (b : Buffer) : Inode where
  size := be32 b 0
  type := .ofCode (be16 b 4)
  linkcount := be16 b 6
  direct k := be32 b (8 + 4 * k)
  indirect := be32 b 68

abbrev Idbuf : Type := Nat → Nat

def encodeIdbuf (e : Idbuf) : Buffer := fun k => be32Byte (e (k/4)) (k%4)

def decodeIdbuf (b : Buffer) : Idbuf := fun j => be32 b (4*j)

def encodeDirent (d : Dirent) : Buffer := fun k =>
  if k < 4 then be32Byte d.ino k else d.name (k-4)

def decodeDirent (b : Buffer) (i : Nat) : Dirent := ⟨be32 b i,fun k => b (i+4+k)⟩

def cstring (b : Buffer) (n : Nat) : List Byte := ((List.range n).map b).takeWhile (· ≠ 0)

/-- The names that fit their C strings: no NUL inside. -/
structure Name where
  chars : List Byte
  nul : 0 ∉ chars

def Name.buffer (n : Name) : Buffer := fun k => (n.chars[k]?).getD 0

def clip (b : Buffer) : Buffer := splice zeros 0 512 b 0

variable {b : Buffer} {i j : Nat}

theorem clip_apply {k : Nat} (h : k < 512) : clip b k = b k := by
  rw [clip,splice_inside (Nat.zero_le k) (by omega)]
  simp

theorem be32_clip (h : i + 4 ≤ 512) : be32 (clip b) i = be32 b i :=
  be32_congr fun _ _ => clip_apply (by omega)

theorem be16_clip (h : i + 2 ≤ 512) : be16 (clip b) i = be16 b i :=
  be16_congr fun _ _ => clip_apply (by omega)

theorem decodeInode_clip (b : Buffer) : decodeInode (clip b) = decodeInode b := by
  simp only [decodeInode,Inode.mk.injEq]
  refine ⟨be32_clip (by omega),by rw [be16_clip (by omega)],be16_clip (by omega),?_,
    be32_clip (by omega)⟩
  funext k
  exact be32_clip (by omega)

/-- Every field is in the range of its type. -/
structure Inode.Fits (i : Inode) : Prop where
  size : i.size < 2^32
  type : i.type.code < 2^16
  linkcount : i.linkcount < 2^16
  direct : ∀ k, i.direct k < 2^32
  indirect : i.indirect < 2^32

theorem decode_encodeInode {i : Inode} (h : i.Fits) : decodeInode (encodeInode i) = i := by
  obtain ⟨size,type,linkcount,direct,indirect⟩ := i
  simp only [decodeInode,Inode.mk.injEq]
  refine ⟨be32_eq h.size fun j hj => ?_,?_,be16_eq h.linkcount fun j hj => ?_,?_,
    be32_eq h.indirect fun j hj => ?_⟩
  · simp [encodeInode,hj]
  · rw [be16_eq h.type fun j hj => ?_,FileType.ofCode_code]
    simp only [encodeInode]
    rw [if_neg (by omega),if_pos (by omega)]
    congr 1
    omega
  · simp only [encodeInode]
    rw [if_neg (by omega),if_neg (by omega),if_pos (by omega)]
    congr 1
    omega
  · funext k
    refine be32_eq (h.direct k) fun j hj => ?_
    have hk := k.isLt
    simp only [encodeInode]
    rw [if_neg (by omega),if_neg (by omega),if_neg (by omega),dif_pos (by omega)]
    congr 2
    · exact Fin.ext (by simp only; omega)
    · omega
  · simp only [encodeInode]
    rw [if_neg (by omega),if_neg (by omega),if_neg (by omega),dif_neg (by omega),
      if_pos (by omega)]
    congr 1
    omega

theorem decodeIdbuf_clip (h : j < 128) :
    decodeIdbuf (clip b) j = decodeIdbuf b j := be32_clip (by omega)

theorem decode_encodeIdbuf {e : Idbuf} (h : e j < 2^32) : decodeIdbuf (encodeIdbuf e) j = e j := by
  refine be32_eq h fun k hk => ?_
  simp only [encodeIdbuf]
  congr 1
  · congr 1
    omega
  · omega

theorem decodeDirent_ino {d : Dirent} (hd : d.ino < 2^32)
    (h : ∀ k, k < 4 → b (i+k) = encodeDirent d k) : (decodeDirent b i).ino = d.ino := by
  refine be32_eq hd fun k hk => ?_
  rw [h k hk]
  simp [encodeDirent,hk]

theorem cstring_congr {c : Buffer} {n : Nat} (h : ∀ k, k < n → b k = c k) :
    cstring b n = cstring c n := by
  unfold cstring
  congr 1
  exact List.map_congr_left fun k hk => h k (List.mem_range.mp hk)

theorem Name.cstring_buffer (n : Name) {m : Nat} (h : n.chars.length ≤ m) :
    cstring n.buffer m = n.chars := by
  obtain ⟨l,rfl⟩ := Nat.exists_eq_add_of_le h
  have hmap : (List.range (n.chars.length + l)).map n.buffer =
      n.chars ++ List.replicate l 0 := by
    apply List.ext_getElem?
    intro k
    simp only [List.getElem?_map,List.getElem?_append,List.getElem?_replicate]
    by_cases hk : k < n.chars.length
    · simp [Name.buffer,hk,Nat.lt_of_lt_of_le hk (Nat.le_add_right _ l)]
    · by_cases hl : k < n.chars.length + l
      · rw [List.getElem?_range hl]
        have hlt : k - n.chars.length < l := by omega
        simp [Name.buffer,hk,hlt]
      · have hge : ¬ k - n.chars.length < l := by omega
        simp [hk,hl,hge]
  unfold cstring
  rw [hmap,List.takeWhile_append_of_pos fun a ha => ?_]
  · cases l with
    | zero => simp
    | succ l => simp [List.replicate_succ]
  · have hne : a ≠ 0 := fun h0 => n.nul (h0 ▸ ha)
    simpa using hne

/-- sfs_fileops and sfs_dirops. -/
inductive VnodeOps where
  | file | dir
  deriving DecidableEq, Repr

structure SfsVnode where
  ino : Nat
  i : Inode
  dirty : Bool
  refcount : Nat
  opencount : Nat
  ops : VnodeOps

/-- struct sfs_fs with its device. `kmallocs` are the results of the kmallocs to
come; when it is used up every kmalloc succeeds. -/
structure Fs where
  super : Super
  superdirty : Bool
  freemap : Bitmap
  freemapdirty : Bool
  vnodes : List SfsVnode
  dev : Device
  kmallocs : List Bool

abbrev SfsM (α : Type) : Type := Prog Fs Errno Panic α

abbrev UioM (α : Type) : Type := Prog (Fs × Uio) Errno Panic α

def onFs {α : Type} (f : SfsM α) : UioM α := zoom Prod.fst (fun t s => (s,t.2)) f

def onDevice {α : Type} (f : Prog (Device × Uio) Errno Panic α) : UioM α :=
  zoom (fun t => (t.1.dev,t.2)) (fun t d => ({ t.1 with dev := d.1 },d.2)) f

def rwblockOnce (again : UioM Unit) : UioM Unit := do
  let result ← attempt (onDevice lhdIo)
  match result with
  | .ok _ => pure ()
  | .error .EINVAL => halt .dioEinval
  | .error Errno.EIO => again
  | .error e => fail e

def rwblockRetries : Nat → UioM Unit
  | 0 => rwblockOnce (fail Errno.EIO)
  | n+1 => rwblockOnce (rwblockRetries n)

/-- A first attempt and up to ten more. -/
@[irreducible] def sfsRwblock : UioM Unit := rwblockRetries 10

def sfsUio (data : Buffer) (block : Nat) (rw : UioRw) : Uio :=
  mkKuio data sfsBlocksize (toInt32 (block * sfsBlocksize % 2^32)) rw

def sfsRblock (block : Nat) : SfsM Block := do
  let out ← withLocal (sfsUio zeros block .read) sfsRwblock
  pure out.2.buf

def sfsWblock (data : Buffer) (block : Nat) : SfsM Unit := do
  let _ ← withLocal (sfsUio data block .write) sfsRwblock

def sfsClearblock (block : Nat) : SfsM Unit := sfsWblock zeros block

def Fs.vnode (s : Fs) (ino : Nat) : Option SfsVnode := s.vnodes.find? fun v => v.ino == ino

def Fs.setVnode (s : Fs) (ino : Nat) (f : SfsVnode → SfsVnode) : Fs :=
  { s with vnodes := s.vnodes.map fun v => if v.ino = ino then f v else v }

def getVnode (ino : Nat) : SfsM SfsVnode := fun s =>
  match s.vnode ino with
  | some sv => .ok sv s
  | none => .panic (.dangling ino)

def modVnode (ino : Nat) (f : SfsVnode → SfsVnode) : SfsM Unit := modify fun s => s.setVnode ino f

def putInode (ino : Nat) (f : Inode → Inode) : SfsM Unit :=
  modVnode ino fun sv => { sv with i := f sv.i, dirty := true }

def sfsSyncInode (ino : Nat) : SfsM Unit := do
  let sv ← getVnode ino
  if sv.dirty then do
    sfsWblock (encodeInode sv.i) sv.ino
    modVnode ino fun sv => { sv with dirty := false }
  else pure ()

def sfsBalloc : SfsM Nat := do
  let s ← get
  match s.freemap.alloc with
  | .error a => halt (.bitmap a)
  | .ok none => fail .ENOSPC
  | .ok (some (diskblock,freemap)) =>
    modify fun s => { s with freemap := freemap, freemapdirty := true }
    if diskblock ≥ s.super.nblocks then halt (.ballocInvalid diskblock)
    else do
      sfsClearblock diskblock
      pure diskblock

def sfsBfree (diskblock : Nat) : SfsM Unit := do
  let s ← get
  match s.freemap.unmark diskblock with
  | .error a => halt (.bitmap a)
  | .ok freemap => modify fun s => { s with freemap := freemap, freemapdirty := true }

def sfsBused (diskblock : Nat) : SfsM Bool := do
  let s ← get
  if diskblock ≥ s.super.nblocks then halt (.busedRange diskblock)
  else pure (s.freemap.isset diskblock)

def handBack (ino fileblock block : Nat) : SfsM Nat :=
  if block = 0 then pure block
  else do
    let used ← sfsBused block
    if used then pure block else halt (.markedFree block fileblock ino)

def bmapDirect (ino : Nat) (k : Fin 15) (doalloc : Bool) : SfsM Nat := do
  let sv ← getVnode ino
  if sv.i.direct k = 0 ∧ doalloc = true then do
    let block ← sfsBalloc
    putInode ino fun i => { i with direct := update i.direct k block }
    handBack ino k block
  else handBack ino k (sv.i.direct k)

/-- The indirect block and its contents; it is allocated if it is missing. -/
def bmapIdblock (ino : Nat) : SfsM (Nat × Idbuf) := do
  let sv ← getVnode ino
  if sv.i.indirect = 0 then do
    let idblock ← sfsBalloc
    putInode ino fun i => { i with indirect := idblock }
    pure (idblock,fun _ => 0)
  else do
    let b ← sfsRblock sv.i.indirect
    pure (sv.i.indirect,decodeIdbuf b)

def bmapIndirect (ino idoff : Nat) (doalloc : Bool) : SfsM Nat := do
  let sv ← getVnode ino
  if sv.i.indirect = 0 ∧ doalloc = false then pure 0
  else do
    let id ← bmapIdblock ino
    if id.2 idoff = 0 ∧ doalloc = true then do
      let block ← sfsBalloc
      sfsWblock (encodeIdbuf (update id.2 idoff block)) id.1
      handBack ino idoff block
    else handBack ino idoff (id.2 idoff)

def sfsBmap (ino fileblock : Nat) (doalloc : Bool) : SfsM Nat :=
  if h : fileblock < 15 then bmapDirect ino ⟨fileblock,h⟩ doalloc
  else
    let fileblock := fileblock - sfsNdirect
    let idnum := fileblock / sfsDbperidb
    let idoff := fileblock % sfsDbperidb
    if idnum > 0 then fail .EINVAL else bmapIndirect ino idoff doalloc

def partialioBuf (rw : UioRw) (diskblock : Nat) : UioM Buffer :=
  if diskblock = 0 then do
    assert (rw = .read) .partialioHole
    pure zeros
  else onFs (sfsRblock diskblock)

def sfsPartialio (ino skipstart len : Nat) : UioM Unit := do
  let t ← get
  assert (skipstart + len ≤ sfsBlocksize) .partialioSpan
  let diskblock ← onFs (sfsBmap ino (toU32 (t.2.offset.tdiv sfsBlocksize)) (t.2.rw == .write))
  let iobuf ← partialioBuf t.2.rw diskblock
  let moved ← onUio (uiomove (fun k => iobuf (skipstart + k)) len)
  if t.2.rw = .write then
    onFs (sfsWblock (fun k => if k < skipstart then iobuf k else moved (k - skipstart)) diskblock)
  else pure ()

/-- The device works on the caller's uio, whose offset and residue are replaced
for the time of the transfer. -/
def blockioDevice (diskblock : Nat) : UioM Unit := do
  let t ← get
  assert (sfsBlocksize ≤ t.2.resid) .blockioResid
  modify fun x => (x.1,{ x.2 with
    offset := toInt32 (diskblock * sfsBlocksize % 2^32), resid := sfsBlocksize })
  let result ← attempt sfsRwblock
  modify fun x => (x.1,{ x.2 with
    offset := x.2.offset - toInt32 (diskblock * sfsBlocksize % 2^32) + t.2.offset
    resid := x.2.resid + t.2.resid - sfsBlocksize })
  ofExcept result

def sfsBlockio (ino : Nat) : UioM Unit := do
  let t ← get
  let diskblock ← onFs (sfsBmap ino (toU32 (t.2.offset.tdiv sfsBlocksize)) (t.2.rw == .write))
  if diskblock = 0 then do
    assert (t.2.rw = .read) .blockioHole
    onUio (uiomovezeros sfsBlocksize)
  else blockioDevice diskblock

def ioLeading (ino : Nat) : UioM Unit := do
  let t ← get
  if toU32 (t.2.offset.tmod sfsBlocksize) ≠ 0 then
    sfsPartialio ino (toU32 (t.2.offset.tmod sfsBlocksize))
      (min (toU32 (sfsBlocksize - toU32 (t.2.offset.tmod sfsBlocksize))) t.2.resid)
  else pure ()

def ioTrailing (ino : Nat) : UioM Unit := do
  let t ← get
  assert (t.2.resid < sfsBlocksize) .ioResid
  if 0 < t.2.resid then sfsPartialio ino 0 t.2.resid else pure ()

def ioBlocks (ino : Nat) : UioM Unit := do
  let t ← get
  if t.2.resid = 0 then pure ()
  else do
    assert (t.2.offset.tmod sfsBlocksize = 0) .ioAligned
    loop (fun _ _ => sfsBlockio ino) 0 (t.2.resid / sfsBlocksize) ()
    ioTrailing ino

def ioParts (ino : Nat) : UioM Unit := do
  ioLeading ino
  ioBlocks ino

def ioLength (ino : Nat) : UioM Unit := do
  let t ← get
  let sv ← onFs (getVnode ino)
  if t.2.rw = .write ∧ t.2.offset > toInt32 sv.i.size then
    onFs (putInode ino fun i => { i with size := toU32 t.2.offset })
  else pure ()

/-- The transfers and the common exit of sfs_io. -/
def ioTransfer (ino extraresid : Nat) : UioM Unit := do
  let result ← attempt (ioParts ino)
  ioLength ino
  modify fun t => (t.1,{ t.2 with resid := (t.2.resid + extraresid) % 2^32 })
  ofExcept result

def ioEndpos (u : Uio) : Int := toInt32 ((toU32 u.offset + u.resid) % 2^32)

/-- How much of a read lies behind the end of a file of the given size. -/
def ioExtraresid (size : Nat) (u : Uio) : Nat :=
  if ioEndpos u > toInt32 size then toU32 (ioEndpos u - toInt32 size) else 0

/-- A read of a file of the given size: nothing at or behind its end, and the
part of the request that lies behind the end is held back. -/
def ioRead (ino size : Nat) : UioM Unit := do
  let t ← get
  if t.2.offset ≥ toInt32 size then pure ()
  else do
    assert (ioEndpos t.2 > toInt32 size → t.2.resid > ioExtraresid size t.2) .ioExtraresid
    modify fun x => (x.1,{ x.2 with resid := x.2.resid - ioExtraresid size t.2 })
    ioTransfer ino (ioExtraresid size t.2)

def sfsIo (ino : Nat) : UioM Unit := do
  let t ← get
  let sv ← onFs (getVnode ino)
  match t.2.rw with
  | .write => ioTransfer ino 0
  | .read => ioRead ino sv.i.size

/-- The buffer is not initialised before the read; it is filled or the call ends. -/
def sfsReaddir (ino slot : Nat) : SfsM Dirent := do
  let out ← withLocal (mkKuio zeros sizeofDir (toInt32 (slot * sizeofDir % 2^32)) .read) (sfsIo ino)
  assert (out.2.resid = 0) (.shortEntry ino)
  pure (decodeDirent out.2.buf 0)

def sfsWritedir (ino : Nat) (sd : Dirent) (slot : Nat) : SfsM Unit := do
  let out ← withLocal (mkKuio (encodeDirent sd) sizeofDir (toInt32 (slot * sizeofDir % 2^32)) .write)
    (sfsIo ino)
  assert (out.2.resid = 0) (.shortWrite ino)

def sfsDirNentries (ino : Nat) : SfsM Nat := do
  let sv ← getVnode ino
  assert (sv.i.type = .dir) .nentriesType
  assert (sv.i.size % sizeofDir = 0) (.nentriesSize ino sv.i.size)
  pure (sv.i.size / sizeofDir)

/-- What sfs_dir_findname hands back: ENOENT is `found = false`, and `emptyslot`
is set in that case as well. -/
structure Find where
  found : Bool
  ino : Nat
  slot : Nat
  emptyslot : Option Nat

def findnameStep (dir : Nat) (name : Name) (i : Nat) (f : Find) : SfsM Find := do
  let tsd ← sfsReaddir dir i
  if tsd.ino = sfsNoino then pure { f with emptyslot := some i }
  else if cstring tsd.name (sfsNamelen - 1) = name.chars then do
    assert (f.found = false) .findnameFound
    pure { f with found := true, ino := tsd.ino, slot := i }
  else pure f

def sfsDirFindname (dir : Nat) (name : Name) : SfsM Find := do
  let nentries ← sfsDirNentries dir
  loop (findnameStep dir name) 0 nentries ⟨false,0,0,none⟩

def linkSlot (dir : Nat) : Option Nat → SfsM Nat
  | some k => pure k
  | none => sfsDirNentries dir

def sfsDirLink (dir : Nat) (name : Name) (ino : Nat) : SfsM Nat := do
  let f ← sfsDirFindname dir name
  if f.found = true then fail .EEXIST
  else if name.chars.length + 1 > sfsNamelen then fail .ENAMETOOLONG
  else do
    let emptyslot ← linkSlot dir f.emptyslot
    sfsWritedir dir ⟨ino,name.buffer⟩ emptyslot
    pure emptyslot

def sfsDirUnlink (dir slot : Nat) : SfsM Unit := sfsWritedir dir ⟨sfsNoino,zeros⟩ slot

/-- kmalloc, lock_create and array_add succeed or fail as `kmallocs` says. -/
def kmalloc : SfsM Unit := fun s =>
  match s.kmallocs with
  | [] => .ok () s
  | b :: bs => if b then .ok () { s with kmallocs := bs } else .err .ENOMEM { s with kmallocs := bs }

/-- The search through sfs_vnodes, which also checks every vnode it passes. -/
def searchVnodes (ino : Nat) : List SfsVnode → SfsM Bool
  | [] => pure false
  | sv :: rest => do
    let used ← sfsBused sv.ino
    if used = false then halt (.foundUnallocated sv.ino)
    else if sv.ino = ino then pure true
    else searchVnodes ino rest

def opsOf (ino : Nat) : FileType → SfsM VnodeOps
  | .file => pure .file
  | .dir => pure .dir
  | _ => halt (.invalidType ino)

def vnodeIncref (ino : Nat) : SfsM Unit :=
  modVnode ino fun sv => { sv with refcount := sv.refcount + 1 }

/-- FORCETYPE is set for a new file, whose block has just been zeroed. -/
def forceType (forcetype : FileType) (i : Inode) : Inode :=
  if forcetype = .inval then i else { i with type := forcetype }

/-- The half of sfs_loadvnode for an inode that is not in memory. -/
def loadInode (ino : Nat) (forcetype : FileType) : SfsM Unit := do
  kmalloc
  let used ← sfsBused ino
  if used = false then halt (.loadUnallocated ino)
  else do
    let b ← sfsRblock ino
    assert (forcetype ≠ .inval → (decodeInode b).type = .inval) .forcedInval
    let ops ← opsOf ino (forceType forcetype (decodeInode b)).type
    kmalloc
    kmalloc
    modify fun s => { s with vnodes := s.vnodes ++
      [⟨ino,forceType forcetype (decodeInode b),decide (forcetype ≠ .inval),1,0,ops⟩] }

def sfsLoadvnode (ino : Nat) (forcetype : FileType) : SfsM Unit := do
  let s ← get
  let found ← searchVnodes ino s.vnodes
  if found = true then do
    assert (forcetype = .inval) .forcetype
    vnodeIncref ino
  else loadInode ino forcetype

def sfsLookonce (dir : Nat) (name : Name) : SfsM (Nat × Nat) := do
  let f ← sfsDirFindname dir name
  if f.found = true then do
    sfsLoadvnode f.ino .inval
    let sv ← getVnode f.ino
    if sv.i.linkcount = 0 then halt (.lookonceLinkcount f.ino dir)
    else pure (f.ino,f.slot)
  else fail .ENOENT

def sfsMakeobj (type : FileType) : SfsM Nat := do
  let ino ← sfsBalloc
  sfsLoadvnode ino type
  pure ino

/-- DIVROUNDUP(len, SFS_BLOCKSIZE) of an off_t, stored in a u_int32_t. -/
def truncateBlocklen (len : Int) : Nat :=
  toU32 ((toInt32 (toU32 (len + sfsBlocksize - 1))).tdiv sfsBlocksize)

def truncateDirect (ino blocklen i : Nat) : SfsM Unit :=
  if h : i < 15 then do
    let sv ← getVnode ino
    if i ≥ blocklen ∧ sv.i.direct ⟨i,h⟩ ≠ 0 then do
      sfsBfree (sv.i.direct ⟨i,h⟩)
      putInode ino fun n => { n with direct := update n.direct ⟨i,h⟩ 0 }
    else pure ()
  else pure ()

structure TruncateLoop where
  idbuf : Idbuf
  hasnonzero : Bool
  iddirty : Bool

/-- Discards entry `j` if it is past the new end. -/
def truncateDiscard (blocklen j : Nat) (l : TruncateLoop) : SfsM TruncateLoop :=
  if blocklen < sfsNdirect + j ∧ l.idbuf j ≠ 0 then do
    sfsBfree (l.idbuf j)
    pure { l with idbuf := update l.idbuf j 0, iddirty := true }
  else pure l

def truncateEntry (blocklen j : Nat) (l : TruncateLoop) : SfsM TruncateLoop := do
  let l ← truncateDiscard blocklen j l
  pure { l with hasnonzero := l.hasnonzero || l.idbuf j != 0 }

/-- After the loop over the entries: the indirect block goes or is written back. -/
def truncateIdblock (ino idblock : Nat) (l : TruncateLoop) : SfsM Unit :=
  if l.hasnonzero = false then do
    sfsBfree idblock
    putInode ino fun n => { n with indirect := 0 }
  else if l.iddirty = true then sfsWblock (encodeIdbuf l.idbuf) idblock
  else pure ()

/-- SFS_NDIRECT + SFS_DBPERIDB - 1 is the highest block in the indirect block. -/
def truncateIndirect (ino blocklen : Nat) : SfsM Unit := do
  let sv ← getVnode ino
  if blocklen < sfsNdirect + sfsDbperidb - 1 ∧ sv.i.indirect ≠ 0 then do
    let b ← sfsRblock sv.i.indirect
    let l ← loop (truncateEntry blocklen) 0 sfsDbperidb ⟨decodeIdbuf b,false,false⟩
    truncateIdblock ino sv.i.indirect l
  else pure ()

def sfsTruncate (ino : Nat) (len : Int) : SfsM Unit := do
  loop (fun i _ => truncateDirect ino (truncateBlocklen len) i) 0 sfsNdirect ()
  truncateIndirect ino (truncateBlocklen len)
  putInode ino fun i => { i with size := toU32 len }

def vopTruncate (ino : Nat) (len : Int) : SfsM Unit := do
  let sv ← getVnode ino
  match sv.ops with
  | .file => sfsTruncate ino len
  | .dir => fail .EISDIR

/-- The end of sfs_reclaim: the vnode leaves sfs_vnodes and is killed. -/
def dropVnode (ino : Nat) : SfsM Unit := do
  let sv ← getVnode ino
  assert (sv.refcount = 1 ∧ sv.opencount = 0) .kill
  modify fun s => { s with vnodes := s.vnodes.eraseP fun v => v.ino == ino }

def reclaimTruncate (ino linkcount : Nat) : SfsM Unit :=
  if linkcount = 0 then vopTruncate ino 0 else pure ()

def reclaimInode (ino : Nat) : SfsM Unit := do
  let sv ← getVnode ino
  if sv.i.linkcount = 0 then sfsBfree ino else pure ()

def sfsReclaim (ino : Nat) : SfsM Unit := do
  let sv ← getVnode ino
  if sv.refcount ≠ 1 then do
    assert (1 < sv.refcount) .reclaimRefcount
    modVnode ino fun sv => { sv with refcount := sv.refcount - 1 }
    fail .EBUSY
  else do
    reclaimTruncate ino sv.i.linkcount
    sfsSyncInode ino
    reclaimInode ino
    dropVnode ino

/-- An error of VOP_RECLAIM is printed and forgotten. -/
def vnodeDecref (ino : Nat) : SfsM Unit := do
  let sv ← getVnode ino
  assert (0 < sv.refcount) .refcount
  if 1 < sv.refcount then modVnode ino fun sv => { sv with refcount := sv.refcount - 1 }
  else do
    let _ ← attempt (sfsReclaim ino)

def linkcountUp (ino : Nat) : SfsM Unit :=
  putInode ino fun i => { i with linkcount := (i.linkcount + 1) % 2^16 }

def linkcountDown (ino : Nat) : SfsM Unit :=
  putInode ino fun i => { i with linkcount := (i.linkcount + 2^16 - 1) % 2^16 }

def sfsCreat (dir : Nat) (name : Name) (excl : Bool) : SfsM Nat := do
  let f ← sfsDirFindname dir name
  if f.found = true then
    if excl = true then fail .EEXIST
    else do
      sfsLoadvnode f.ino .inval
      pure f.ino
  else do
    let newguy ← sfsMakeobj .file
    let result ← attempt (sfsDirLink dir name newguy)
    match result with
    | .error e => do
      vnodeDecref newguy
      fail e
    | .ok _ => do
      linkcountUp newguy
      pure newguy

def sfsLink (dir : Nat) (name : Name) (file : Nat) : SfsM Unit := do
  let _ ← sfsDirLink dir name file
  linkcountUp file

/-- If the entry has been erased, the link count goes down. -/
def removeLink (victim : Nat) : Except Errno Unit → SfsM Unit
  | .ok _ => do
    let sv ← getVnode victim
    assert (0 < sv.i.linkcount) .removeLinkcount
    linkcountDown victim
  | .error _ => pure ()

def sfsRemove (dir : Nat) (name : Name) : SfsM Unit := do
  let g ← sfsLookonce dir name
  let result ← attempt (sfsDirUnlink dir g.2)
  removeLink g.1 result
  vnodeDecref g.1
  ofExcept result

/-- After the new name has been entered in `slot2`. In the error path the link
count goes down without sv_dirty. -/
def renameUnlink (sv g1 slot1 slot2 : Nat) : SfsM Unit := do
  linkcountUp g1
  let result ← attempt (sfsDirUnlink sv slot1)
  match result with
  | .ok _ => do
    let v ← getVnode g1
    assert (0 < v.i.linkcount) .renameLinkcount
    linkcountDown g1
    vnodeDecref g1
  | .error e => do
    let result2 ← attempt (sfsDirUnlink sv slot2)
    match result2 with
    | .error _ => halt .cannotRecover
    | .ok _ => do
      modVnode g1 fun v => { v with i := { v.i with linkcount := (v.i.linkcount + 2^16 - 1) % 2^16 } }
      vnodeDecref g1
      fail e

def sfsRename (d1 : Nat) (n1 : Name) (d2 : Nat) (n2 : Name) : SfsM Unit := do
  assert (d1 = d2) .renameDirs
  assert (d1 = sfsRootLocation) .renameRoot
  let g ← sfsLookonce d1 n1
  let v ← getVnode g.1
  assert (v.i.type = .file) .renameType
  let result ← attempt (sfsDirLink d1 n2 g.1)
  match result with
  | .ok slot2 => renameUnlink d1 g.1 g.2 slot2
  | .error e => do
    vnodeDecref g.1
    fail e

/-- sfs_getroot; an error of sfs_loadvnode is a panic there. -/
def sfsGetroot : SfsM Nat := do
  let result ← attempt (sfsLoadvnode sfsRootLocation .inval)
  match result with
  | .ok _ => pure sfsRootLocation
  | .error _ => halt .getroot

/-- sfs_read and sfs_write. The uio comes back in every case, as it is the caller's. -/
def sfsReadWrite (ino : Nat) (u : Uio) : SfsM (Except Errno Unit × Uio) :=
  withLocal u (attempt (sfsIo ino))

instance instNeZeroOffset : NeZero (2^31) := ⟨by decide⟩

instance instNeZeroLength : NeZero (2^32) := ⟨by decide⟩

structure Request where
  offset : Fin (2^31)
  length : Fin (2^32)
  buf : Buffer
  faults : Nat → Bool

def Request.uio (r : Request) (rw : UioRw) : Uio :=
  ⟨r.buf,0,(r.offset.val : Int),r.length,rw,r.faults⟩

/-- Calls on vnodes, named by their inode numbers. -/
inductive Act where
  | getroot
  | lookup (dir : Nat) (name : Name)
  | creat (dir : Nat) (name : Name) (excl : Bool)
  | link (dir : Nat) (name : Name) (file : Nat)
  | remove (dir : Nat) (name : Name)
  | rename (d1 : Nat) (n1 : Name) (d2 : Nat) (n2 : Name)
  | read (ino : Nat) (r : Request)
  | write (ino : Nat) (r : Request)
  | truncate (ino : Nat) (len : Fin (2^31))
  | fsync (ino : Nat)
  | incref (ino : Nat)
  | decref (ino : Nat)
  | reclaim (ino : Nat)

/-- The vnodes a caller must hold for the call. -/
def Act.handles : Act → List Nat
  | .getroot => []
  | .lookup dir _ | .creat dir _ _ | .remove dir _ => [dir]
  | .link dir _ file => [dir,file]
  | .rename d1 _ d2 _ => [d1,d2]
  | .read ino _ | .write ino _ | .truncate ino _ | .fsync ino => [ino]
  | .incref ino | .decref ino | .reclaim ino => [ino]

/-- What a call hands back besides its error code. -/
inductive Reply where
  | nothing
  | vnode (ino : Nat)
  | io (result : Except Errno Unit) (u : Uio)

def forOps {α : Type} (ino : Nat) (ops : VnodeOps) (e : Errno) (f : SfsM α) : SfsM α := do
  let sv ← getVnode ino
  if sv.ops = ops then f else fail e

def onDir {α : Type} (dir : Nat) (f : SfsM α) : SfsM α := forOps dir .dir .ENOTDIR f

def onFile {α : Type} (ino : Nat) (f : SfsM α) : SfsM α := forOps ino .file .EISDIR f

/-- The directories of a rename both come from VOP_LOOKPARENT, which files do not have. -/
def exec : Act → SfsM Reply
  | .getroot => do
    let ino ← sfsGetroot
    pure (.vnode ino)
  | .lookup dir name => onDir dir do
    let g ← sfsLookonce dir name
    pure (.vnode g.1)
  | .creat dir name excl => onDir dir do
    let ino ← sfsCreat dir name excl
    pure (.vnode ino)
  | .link dir name file => onDir dir do
    sfsLink dir name file
    pure .nothing
  | .remove dir name => onDir dir do
    sfsRemove dir name
    pure .nothing
  | .rename d1 n1 d2 n2 => onDir d1 (onDir d2 do
    sfsRename d1 n1 d2 n2
    pure .nothing)
  | .read ino r => onFile ino do
    let out ← sfsReadWrite ino (r.uio .read)
    pure (.io out.1 out.2)
  | .write ino r => onFile ino do
    let out ← sfsReadWrite ino (r.uio .write)
    pure (.io out.1 out.2)
  | .truncate ino len => do
    vopTruncate ino len
    pure .nothing
  | .fsync ino => do
    sfsSyncInode ino
    pure .nothing
  | .incref ino => do
    vnodeIncref ino
    pure .nothing
  | .decref ino => do
    vnodeDecref ino
    pure .nothing
  | .reclaim ino => do
    sfsReclaim ino
    pure .nothing

/-- A call whose vnodes are loaded and which does not stop the machine. -/
def step (s : Fs) (a : Act) : Option Fs :=
  if a.handles.all fun ino => (s.vnode ino).isSome then
    match exec a s with
    | .ok _ t => some t
    | .err _ t => some t
    | .panic _ => none
  else none

end MipsOs.Sfs
