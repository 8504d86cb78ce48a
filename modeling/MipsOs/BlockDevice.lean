import MipsOs.Bitmap
import MipsOs.Prog
import MipsOs.Types

/-! Transfers through a uio, as documented in kern/include/uio.h (uio.c is there as a pristine copy
only, under .svn/pristine/e0), and the disk driver kern/dev/lamebus/lhd.c. One thread uses the disk
at a time here, so the semaphores of the driver are always granted. -/

set_option autoImplicit false
namespace MipsOs.Sfs
open Bytes Prog Function

inductive Panic where
  | bitmap (a : BitmapAssertion)
  | uiomovezerosWrite
  | dioEinval
  | ballocInvalid (block : Nat)
  | busedRange (block : Nat)
  | markedFree (block fileblock ino : Nat)
  | partialioSpan | partialioHole | blockioHole | blockioResid
  | ioExtraresid | ioAligned | ioResid
  | shortEntry (ino : Nat) | shortWrite (ino : Nat)
  | nentriesType | nentriesSize (ino size : Nat)
  | findnameFound
  | lookonceLinkcount (ino dir : Nat)
  | foundUnallocated (ino : Nat) | loadUnallocated (ino : Nat)
  | forcetype | forcedInval | invalidType (ino : Nat)
  | refcount | kill | reclaimRefcount
  | removeLinkcount | renameDirs | renameRoot | renameType | renameLinkcount | cannotRecover
  | getroot
  | dangling (ino : Nat)
  deriving DecidableEq, Repr

inductive UioRw where
  | read | write
  deriving DecidableEq, Repr

/-- A uio whose buffer begins at `buf 0` and has been used up to `base`. The
bytes marked in `faults` are those copyin and copyout fail on. -/
structure Uio where
  buf : Buffer
  base : Nat
  offset : Int
  resid : Nat
  rw : UioRw
  faults : Nat → Bool

def mkKuio (kbuf : Buffer) (len : Nat) (pos : Int) (rw : UioRw) : Uio :=
  ⟨kbuf,0,pos,len,rw,fun _ => false⟩

def Uio.advance (u : Uio) (n : Nat) : Uio :=
  { u with base := u.base + n, offset := u.offset + n, resid := u.resid - n }

def Uio.faulty (u : Uio) (n : Nat) : Bool := (List.range n).any fun i => u.faults (u.base + i)

/-- uiomove hands the kernel buffer back as it is afterwards. -/
def uiomove (kbuffer : Buffer) (len : Nat) : Prog Uio Errno Panic Buffer := fun u =>
  let amt := min len u.resid
  if u.faulty amt then .err .EFAULT u
  else match u.rw with
    | .read => .ok kbuffer { u.advance amt with buf := splice u.buf u.base amt kbuffer 0 }
    | .write => .ok (splice kbuffer 0 amt u.buf u.base) (u.advance amt)

/-- The static buffer of uiomovezeros has 16 bytes. -/
def uiomovezeros (n : Nat) : Prog Uio Errno Panic Unit := do
  let u ← get
  assert (u.rw = .read) .uiomovezerosWrite
  loop (fun i _ => do let _ ← uiomove zeros (min 16 (n - 16 * i))) 0 ((n + 15) / 16) ()

def lhdSectsize : Nat := 512

abbrev Block : Type := Buffer

inductive LhdResult where
  | ok | invsect | media
  deriving DecidableEq, Repr

def LhdResult.errno : LhdResult → Option Errno
  | .ok => none
  | .invsect => some .EINVAL
  | .media => some Errno.EIO

/-- A disk. `results` are the results of the commands to come; when it is used
up every command succeeds. -/
structure Device where
  blocks : Nat
  sector : Nat → Block
  results : List LhdResult

def onUio {σ α : Type} (f : Prog Uio Errno Panic α) : Prog (σ × Uio) Errno Panic α :=
  zoom Prod.snd (fun t u => (t.1,u)) f

def lhdCommand : Prog (Device × Uio) Errno Panic (Option Errno) := fun t =>
  match t.1.results with
  | [] => .ok none t
  | r :: rs => .ok r.errno ({ t.1 with results := rs },t.2)

/-- One round of the loop of lhd_io. A command that fails leaves the sector alone. -/
def lhdSector (sect : Nat) : Prog (Device × Uio) Errno Panic Unit := do
  let t ← get
  match t.2.rw with
  | .write =>
    let buf ← onUio (uiomove zeros lhdSectsize)
    let result ← lhdCommand
    match result with
    | some e => fail e
    | none => modify fun t => ({ t.1 with sector := update t.1.sector sect buf },t.2)
  | .read =>
    let result ← lhdCommand
    match result with
    | some e => fail e
    | none => do
      let t ← get
      let _ ← onUio (uiomove (t.1.sector sect) lhdSectsize)

def lhdIo : Prog (Device × Uio) Errno Panic Unit := do
  let t ← get
  let sector := toU32 (t.2.offset.tdiv lhdSectsize)
  let sectoff := toU32 (t.2.offset.tmod lhdSectsize)
  let len := t.2.resid / lhdSectsize
  let lenoff := t.2.resid % lhdSectsize
  if sectoff ≠ 0 ∨ lenoff ≠ 0 then fail .EINVAL
  else if (sector + len) % 2^32 > t.1.blocks then fail .EINVAL
  else loop (fun i _ => lhdSector ((sector + i) % 2^32)) 0 len ()

section Specs

variable {u : Uio} {k : Buffer} {n : Nat}

theorem uiomove_fault (hn : n ≤ u.resid) (h : u.faulty n = true) :
    uiomove k n u = .err .EFAULT u := by
  simp [uiomove,Nat.min_eq_left hn,h]

theorem uiomove_read (hrw : u.rw = .read) (hn : n ≤ u.resid) (h : u.faulty n = false) :
    uiomove k n u = .ok k { u.advance n with buf := splice u.buf u.base n k 0 } := by
  simp [uiomove,Nat.min_eq_left hn,h,hrw]

theorem uiomove_write (hrw : u.rw = .write) (hn : n ≤ u.resid) (h : u.faulty n = false) :
    uiomove k n u = .ok (splice k 0 n u.buf u.base) (u.advance n) := by
  simp [uiomove,Nat.min_eq_left hn,h,hrw]

@[simp] theorem advance_zero (u : Uio) : u.advance 0 = u := by simp [Uio.advance]

theorem advance_advance (u : Uio) (n m : Nat) : (u.advance n).advance m = u.advance (n + m) := by
  simp only [Uio.advance,Uio.mk.injEq,true_and,and_true]
  push_cast
  omega

theorem sector_at {n : Int} {b : Nat} (hn : n = (b * 512 : Nat)) (hb : b ≤ 2^22) :
    toU32 (n.tdiv lhdSectsize) = b ∧ toU32 (n.tmod lhdSectsize) = 0 := by
  rw [hn,toU32_tdiv (by omega),toU32_tmod (by omega),lhdSectsize]
  omega

theorem lhdIo_one {d : Device} {b : Nat} (hoff : u.offset = (b * 512 : Nat)) (hres : u.resid = 512)
    (hb : b < d.blocks) (hd : b < 2^22) : lhdIo (d,u) = lhdSector b (d,u) := by
  obtain ⟨hsect,hsoff⟩ := sector_at hoff (by omega)
  have hlen : u.resid / lhdSectsize = 1 := by rw [hres,lhdSectsize]
  have hlenoff : u.resid % lhdSectsize = 0 := by rw [hres,lhdSectsize]
  have hrange : ¬ (b + 1) % 2^32 > d.blocks := by omega
  have hmod : (b + 0) % 2^32 = b := by omega
  unfold lhdIo
  simp only [get_bind,hsect,hsoff,hlen,hlenoff]
  rw [if_neg (by simp),if_neg hrange]
  simp only [loop,hmod]
  cases h : lhdSector b (d,u) with
  | ok a t => rw [bind_ok h,pure_apply]
  | err e t => rw [bind_err h]
  | panic p => rw [bind_panic h]

end Specs

section Commands

variable {d : Device} {u : Uio} {b : Nat}

def Device.spend (d : Device) : Device := { d with results := d.results.tail }

def Device.next (d : Device) : LhdResult := d.results.headD .ok

def Device.store (d : Device) (b : Nat) (blk : Block) : Device :=
  { d with sector := update d.sector b blk }

theorem Device.next_of_nil (h : d.results = []) : d.next = .ok := by
  rw [Device.next,h]
  rfl

theorem Device.spend_of_nil (h : d.results = []) : d.spend = d := by
  obtain ⟨blocks,sector,results⟩ := d
  obtain rfl : results = [] := h
  rfl

theorem lhdCommand_eq (d : Device) (u : Uio) :
    lhdCommand (d,u) = .ok d.next.errno (d.spend,u) := by
  obtain ⟨blocks,sector,results⟩ := d
  cases results <;> rfl

theorem lhdSector_read_fails {e : Errno} (hrw : u.rw = .read) (he : d.next.errno = some e) :
    lhdSector b (d,u) = .err e (d.spend,u) := by
  simp only [lhdSector,get_bind,hrw]
  rw [bind_ok (lhdCommand_eq d u),he]
  rfl

theorem lhdSector_read_succeeds (hrw : u.rw = .read) (hres : u.resid = 512)
    (hf : u.faulty 512 = false) (hok : d.next = .ok) : lhdSector b (d,u) =
      .ok () (d.spend,{ u.advance 512 with buf := splice u.buf u.base 512 (d.sector b) 0 }) := by
  have hmove : onUio (uiomove (d.spend.sector b) lhdSectsize) (d.spend,u) = .ok (d.sector b)
      (d.spend,{ u.advance 512 with buf := splice u.buf u.base 512 (d.sector b) 0 }) :=
    zoom_ok (uiomove_read hrw (by rw [hres,lhdSectsize]) hf)
  simp only [lhdSector,get_bind,hrw]
  rw [bind_ok (lhdCommand_eq d u),hok]
  simp only [LhdResult.errno,get_bind]
  rw [bind_ok hmove]
  rfl

theorem lhdSector_read_faults (hrw : u.rw = .read) (hres : u.resid = 512)
    (hf : u.faulty 512 = true) (hok : d.next = .ok) :
    lhdSector b (d,u) = .err .EFAULT (d.spend,u) := by
  have hmove : onUio (uiomove (d.spend.sector b) lhdSectsize) (d.spend,u) =
      .err .EFAULT (d.spend,u) := zoom_err (uiomove_fault (by rw [hres,lhdSectsize]) hf)
  simp only [lhdSector,get_bind,hrw]
  rw [bind_ok (lhdCommand_eq d u),hok]
  simp only [LhdResult.errno,get_bind]
  rw [bind_err hmove]

theorem fills_sector (hrw : u.rw = .write) (hres : u.resid = 512) (hf : u.faulty 512 = false) :
    onUio (uiomove zeros lhdSectsize) (d,u) =
      .ok (splice zeros 0 512 u.buf u.base) (d,u.advance 512) :=
  zoom_ok (uiomove_write hrw (by rw [hres,lhdSectsize]) hf)

/-- A write has used up the uio before it knows whether the command succeeds. -/
theorem lhdSector_write_fails {e : Errno} (hrw : u.rw = .write) (hres : u.resid = 512)
    (hf : u.faulty 512 = false) (he : d.next.errno = some e) :
    lhdSector b (d,u) = .err e (d.spend,u.advance 512) := by
  simp only [lhdSector,get_bind,hrw]
  rw [bind_ok (fills_sector hrw hres hf),bind_ok (lhdCommand_eq d _),he]
  rfl

theorem lhdSector_write_succeeds (hrw : u.rw = .write) (hres : u.resid = 512)
    (hf : u.faulty 512 = false) (hok : d.next = .ok) : lhdSector b (d,u) = .ok ()
      (d.spend.store b (splice zeros 0 512 u.buf u.base),u.advance 512) := by
  simp only [lhdSector,get_bind,hrw]
  rw [bind_ok (fills_sector hrw hres hf),bind_ok (lhdCommand_eq d _),hok]
  rfl

end Commands

end MipsOs.Sfs
