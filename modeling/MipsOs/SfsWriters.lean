import MipsOs.Coroutines
import MipsOs.SfsVolume

/-! sfs_write called by several threads: the write path of kern/fs/sfs/sfs_vnode.c and
kern/fs/sfs/sfs_io.c once more, this time with the static buffers of sfs_partialio and sfs_bmap,
which all callers share, and with lhd_io of kern/dev/lamebus/lhd.c, where a thread can be switched
at P(lh_clear) and at P(lh_done). -/

set_option autoImplicit false
namespace MipsOs.SfsWriters
open Bytes Coroutines Function
open Sfs (Fs Inode SfsVnode Panic LhdResult lhdSectsize sfsBlocksize sfsNdirect sfsDbperidb
  decodeIdbuf encodeIdbuf Request)

/-- The static buffers iobuf, in sfs_partialio, and idbuf, in sfs_bmap. -/
inductive Static where
  | iobuf | idbuf
  deriving DecidableEq, Repr

structure Kernel where
  fs : Fs
  buf : Static → Buffer

/-- Where the bytes of a write come from. -/
inductive Memory where
  | user (buf : Buffer)
  | static (b : Static)
  | zeros

def Kernel.bytes (s : Kernel) : Memory → Buffer
  | .user buf => buf
  | .static b => s.buf b
  | .zeros => Bytes.zeros

def Kernel.setBuf (s : Kernel) (b : Static) (data : Buffer) : Kernel :=
  { s with buf := update s.buf b data }

@[simp] theorem setBuf_self (s : Kernel) (b : Static) (data : Buffer) :
    (s.setBuf b data).buf b = data := by
  simp [Kernel.setBuf]

/-- All reads that a write needs are reads into a static buffer. -/
inductive Transfer where
  | write (src : Memory)
  | read (dst : Static)

structure Uio where
  transfer : Transfer
  base : Nat
  offset : Int
  resid : Nat
  faults : Nat → Bool

def Uio.advance (u : Uio) (n : Nat) : Uio :=
  { u with base := u.base + n, offset := u.offset + n, resid := u.resid - n }

def Uio.faulty (u : Uio) (n : Nat) : Bool := (List.range n).any fun i => u.faults (u.base + i)

/-- What the driver tells the card: the sector, and the data of a write in the card's buffer. -/
inductive Command where
  | read (sect : Nat)
  | write (sect : Nat) (data : Buffer)

abbrev Thread (α : Type) : Type := Co Kernel Command (LhdResult × Buffer) Panic α

/-- The disk works between the start of the command and the interrupt. The answer is the result
and what is then in the card's buffer. -/
def serve : Command → LhdResult → Kernel → Kernel × (LhdResult × Buffer)
  | .write sect data, .ok, s => ({ s with fs := s.fs.setSector sect data },(.ok,data))
  | .read sect, .ok, s => (s,(.ok,s.fs.dev.sector sect))
  | _, result, s => (s,(result,Bytes.zeros))

/-- From P(lh_clear) to V(lh_clear). A uio that faults gives up the device before any command. -/
def lhdCommand (ask : Kernel → Option Command) : Thread (Option (LhdResult × Buffer)) :=
  .call ask .ret

def lhdSector (u : Uio) (sect : Nat) : Thread (Except Errno Unit × Uio) :=
  match u.transfer with
  | .write src => do
    let answer ← lhdCommand fun s =>
      if u.faulty lhdSectsize then none
      else some (.write sect (splice Bytes.zeros 0 lhdSectsize (s.bytes src) u.base))
    match answer with
    | none => pure (.error .EFAULT,u)
    | some (result,_) =>
      match result.errno with
      | none => pure (.ok (),u.advance lhdSectsize)
      | some e => pure (.error e,u.advance lhdSectsize)
  | .read dst => do
    let answer ← lhdCommand fun _ => some (.read sect)
    match answer with
    | none => pure (.error .EFAULT,u)
    | some (result,data) =>
      match result.errno with
      | none => do
        Co.modify fun s => s.setBuf dst (splice (s.buf dst) u.base lhdSectsize data 0)
        pure (.ok (),u.advance lhdSectsize)
      | some e => pure (.error e,u)

def lhdLoop : Nat → Nat → Uio → Thread (Except Errno Unit × Uio)
  | 0, _, u => pure (.ok (),u)
  | n+1, sect, u => do
    let out ← lhdSector u (sect % 2^32)
    match out.1 with
    | .ok _ => lhdLoop n (sect+1) out.2
    | .error e => pure (.error e,out.2)

def lhdIo (u : Uio) : Thread (Except Errno Unit × Uio) := do
  let blocks ← Co.read fun s => s.fs.dev.blocks
  let sector := toU32 (u.offset.tdiv lhdSectsize)
  let sectoff := toU32 (u.offset.tmod lhdSectsize)
  let len := u.resid / lhdSectsize
  let lenoff := u.resid % lhdSectsize
  if sectoff ≠ 0 ∨ lenoff ≠ 0 then pure (.error .EINVAL,u)
  else if (sector + len) % 2^32 > blocks then pure (.error .EINVAL,u)
  else lhdLoop len sector u

def rwblockOnce (again : Uio → Thread (Except Errno Unit × Uio)) (u : Uio) :
    Thread (Except Errno Unit × Uio) := do
  let out ← lhdIo u
  match out.1 with
  | .ok _ => pure (.ok (),out.2)
  | .error .EINVAL => .halt .dioEinval
  | .error Errno.EIO => again out.2
  | .error e => pure (.error e,out.2)

def rwblockRetries : Nat → Uio → Thread (Except Errno Unit × Uio)
  | 0 => rwblockOnce fun u => pure (.error Errno.EIO,u)
  | n+1 => rwblockOnce (rwblockRetries n)

def sfsRwblock (u : Uio) : Thread (Except Errno Unit × Uio) := rwblockRetries 10 u

def sfsUio (transfer : Transfer) (block : Nat) : Uio :=
  ⟨transfer,0,toInt32 (block * sfsBlocksize % 2^32),sfsBlocksize,fun _ => false⟩

def sfsRblock (data : Static) (block : Nat) : Thread (Except Errno Unit) := do
  let out ← sfsRwblock (sfsUio (.read data) block)
  pure out.1

def sfsWblock (data : Memory) (block : Nat) : Thread (Except Errno Unit) := do
  let out ← sfsRwblock (sfsUio (.write data) block)
  pure out.1

def sfsClearblock (block : Nat) : Thread (Except Errno Unit) := sfsWblock .zeros block

def getVnode (ino : Nat) : Thread SfsVnode := do
  let sv ← Co.read fun s => s.fs.vnode ino
  match sv with
  | some sv => pure sv
  | none => .halt (.dangling ino)

def putInode (ino : Nat) (f : Inode → Inode) : Thread Unit :=
  Co.modify fun s =>
    { s with fs := s.fs.setVnode ino fun sv => { sv with i := f sv.i, dirty := true } }

def sfsBalloc : Thread (Except Errno Nat) := do
  let found ← Co.read fun s => s.fs.freemap.alloc
  match found with
  | .error a => .halt (.bitmap a)
  | .ok none => pure (.error .ENOSPC)
  | .ok (some (diskblock,freemap)) => do
    Co.modify fun s => { s with fs := { s.fs with freemap := freemap, freemapdirty := true } }
    let nblocks ← Co.read fun s => s.fs.super.nblocks
    if diskblock ≥ nblocks then .halt (.ballocInvalid diskblock)
    else do
      let result ← sfsClearblock diskblock
      match result with
      | .ok _ => pure (.ok diskblock)
      | .error e => pure (.error e)

def sfsBused (diskblock : Nat) : Thread Bool := do
  let nblocks ← Co.read fun s => s.fs.super.nblocks
  if diskblock ≥ nblocks then .halt (.busedRange diskblock)
  else Co.read fun s => s.fs.freemap.isset diskblock

def handBack (ino fileblock block : Nat) : Thread (Except Errno Nat) :=
  if block = 0 then pure (.ok block)
  else do
    let used ← sfsBused block
    if used then pure (.ok block) else .halt (.markedFree block fileblock ino)

def bmapDirect (ino : Nat) (k : Fin 15) (doalloc : Bool) : Thread (Except Errno Nat) := do
  let sv ← getVnode ino
  if sv.i.direct k = 0 ∧ doalloc = true then do
    let got ← sfsBalloc
    match got with
    | .error e => pure (.error e)
    | .ok block => do
      putInode ino fun i => { i with direct := update i.direct k block }
      handBack ino k block
  else handBack ino k (sv.i.direct k)

def bmapIdblock (ino : Nat) : Thread (Except Errno Nat) := do
  let sv ← getVnode ino
  if sv.i.indirect = 0 then do
    let got ← sfsBalloc
    match got with
    | .error e => pure (.error e)
    | .ok idblock => do
      putInode ino fun i => { i with indirect := idblock }
      Co.modify fun s => s.setBuf .idbuf Bytes.zeros
      pure (.ok idblock)
  else do
    let result ← sfsRblock .idbuf sv.i.indirect
    match result with
    | .ok _ => pure (.ok sv.i.indirect)
    | .error e => pure (.error e)

def bmapEntry (ino idblock idoff : Nat) (doalloc : Bool) : Thread (Except Errno Nat) := do
  let block ← Co.read fun s => decodeIdbuf (s.buf .idbuf) idoff
  if block = 0 ∧ doalloc = true then do
    let got ← sfsBalloc
    match got with
    | .error e => pure (.error e)
    | .ok block => do
      Co.modify fun s => s.setBuf .idbuf
        (encodeIdbuf (update (decodeIdbuf (s.buf .idbuf)) idoff block))
      let result ← sfsWblock (.static .idbuf) idblock
      match result with
      | .ok _ => handBack ino idoff block
      | .error e => pure (.error e)
  else handBack ino idoff block

def bmapIndirect (ino idoff : Nat) (doalloc : Bool) : Thread (Except Errno Nat) := do
  let sv ← getVnode ino
  if sv.i.indirect = 0 ∧ doalloc = false then pure (.ok 0)
  else do
    let got ← bmapIdblock ino
    match got with
    | .error e => pure (.error e)
    | .ok idblock => bmapEntry ino idblock idoff doalloc

def sfsBmap (ino fileblock : Nat) (doalloc : Bool) : Thread (Except Errno Nat) :=
  if h : fileblock < 15 then bmapDirect ino ⟨fileblock,h⟩ doalloc
  else
    let fileblock := fileblock - sfsNdirect
    let idnum := fileblock / sfsDbperidb
    let idoff := fileblock % sfsDbperidb
    if idnum > 0 then pure (.error .EINVAL) else bmapIndirect ino idoff doalloc

/-- uiomove(iobuf+skipstart, len, uio) for a uio that writes from `src`. -/
def uiomoveIobuf (src : Memory) (skipstart len : Nat) (u : Uio) :
    Thread (Except Errno Unit × Uio) :=
  if u.faulty (min len u.resid) then pure (.error .EFAULT,u)
  else do
    Co.modify fun s => s.setBuf .iobuf
      (splice (s.buf .iobuf) skipstart (min len u.resid) (s.bytes src) u.base)
    pure (.ok (),u.advance (min len u.resid))

def partialioBlock (src : Memory) (skipstart len diskblock : Nat) (u : Uio) :
    Thread (Except Errno Unit × Uio) := do
  let result ← sfsRblock .iobuf diskblock
  match result with
  | .error e => pure (.error e,u)
  | .ok _ => do
    let out ← uiomoveIobuf src skipstart len u
    match out.1 with
    | .error e => pure (.error e,out.2)
    | .ok _ => do
      let result ← sfsWblock (.static .iobuf) diskblock
      pure (result,out.2)

def sfsPartialio (ino : Nat) (src : Memory) (skipstart len : Nat) (u : Uio) :
    Thread (Except Errno Unit × Uio) :=
  if skipstart + len ≤ sfsBlocksize then do
    let got ← sfsBmap ino (toU32 (u.offset.tdiv sfsBlocksize)) true
    match got with
    | .error e => pure (.error e,u)
    | .ok diskblock =>
      if diskblock = 0 then .halt .partialioHole
      else partialioBlock src skipstart len diskblock u
  else .halt .partialioSpan

def blockioDevice (diskblock : Nat) (u : Uio) : Thread (Except Errno Unit × Uio) :=
  if sfsBlocksize ≤ u.resid then do
    let out ← sfsRwblock { u with
      offset := toInt32 (diskblock * sfsBlocksize % 2^32), resid := sfsBlocksize }
    pure (out.1,{ out.2 with
      offset := out.2.offset - toInt32 (diskblock * sfsBlocksize % 2^32) + u.offset
      resid := out.2.resid + u.resid - sfsBlocksize })
  else .halt .blockioResid

def sfsBlockio (ino : Nat) (u : Uio) : Thread (Except Errno Unit × Uio) := do
  let got ← sfsBmap ino (toU32 (u.offset.tdiv sfsBlocksize)) true
  match got with
  | .error e => pure (.error e,u)
  | .ok diskblock => if diskblock = 0 then .halt .blockioHole else blockioDevice diskblock u

def ioLeading (ino : Nat) (src : Memory) (u : Uio) : Thread (Except Errno Unit × Uio) :=
  if toU32 (u.offset.tmod sfsBlocksize) ≠ 0 then
    sfsPartialio ino src (toU32 (u.offset.tmod sfsBlocksize))
      (min (toU32 (sfsBlocksize - toU32 (u.offset.tmod sfsBlocksize))) u.resid) u
  else pure (.ok (),u)

def ioTrailing (ino : Nat) (src : Memory) (u : Uio) : Thread (Except Errno Unit × Uio) :=
  if u.resid < sfsBlocksize then
    if 0 < u.resid then sfsPartialio ino src 0 u.resid u else pure (.ok (),u)
  else .halt .ioResid

def ioLoop (ino : Nat) : Nat → Uio → Thread (Except Errno Unit × Uio)
  | 0, u => pure (.ok (),u)
  | n+1, u => do
    let out ← sfsBlockio ino u
    match out.1 with
    | .ok _ => ioLoop ino n out.2
    | .error e => pure (.error e,out.2)

def ioBlocks (ino : Nat) (src : Memory) (u : Uio) : Thread (Except Errno Unit × Uio) :=
  if u.resid = 0 then pure (.ok (),u)
  else if u.offset.tmod sfsBlocksize = 0 then do
    let out ← ioLoop ino (u.resid / sfsBlocksize) u
    match out.1 with
    | .ok _ => ioTrailing ino src out.2
    | .error e => pure (.error e,out.2)
  else .halt .ioAligned

def ioParts (ino : Nat) (src : Memory) (u : Uio) : Thread (Except Errno Unit × Uio) := do
  let out ← ioLeading ino src u
  match out.1 with
  | .ok _ => ioBlocks ino src out.2
  | .error e => pure (.error e,out.2)

def ioLength (ino : Nat) (u : Uio) : Thread Unit := do
  let sv ← getVnode ino
  if u.offset > toInt32 sv.i.size then putInode ino fun i => { i with size := toU32 u.offset }
  else pure ()

def sfsIo (ino : Nat) (src : Memory) (u : Uio) : Thread (Except Errno Unit) := do
  let out ← ioParts ino src u
  ioLength ino out.2
  pure out.1

def sfsWrite (ino : Nat) (r : Request) : Thread (Except Errno Unit) :=
  sfsIo ino (.user r.buf) ⟨.write (.user r.buf),0,(r.offset.val : Int),r.length,r.faults⟩

/-- Two calls of sfs_write, by thread `false` and by thread `true`. -/
abbrev Writers : Type := Machine Bool Kernel Command (LhdResult × Buffer) Panic (Except Errno Unit)

def start (s : Kernel) (ino : Bool → Nat) (r : Bool → Request) : Writers :=
  ⟨s,fun t => sfsWrite (ino t) (r t),none⟩

def Writers.returned (m : Writers) (t : Bool) : Prop := m.code t = .ret (.ok ())

def Writers.done (m : Writers) (t : Bool) : Bool :=
  match m.code t with
  | .ret (.ok _) => true
  | _ => false

theorem Writers.returned_of_done {m : Writers} {t : Bool} (h : m.done t = true) :
    m.returned t := by
  unfold Writers.done at h
  split at h
  · assumption
  · cases h

end MipsOs.SfsWriters
