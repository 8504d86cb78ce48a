import MipsOs.Ledger
import MipsOs.SfsVnode

/-! Who owns the blocks of a volume. The block map of an inode is read off the
vnode if it is loaded and off the disk otherwise. -/

set_option autoImplicit false
namespace MipsOs.Sfs
open Bytes Prog Ledger Function

def Fs.inodeAt (s : Fs) (ino : Nat) : Inode :=
  match s.vnode ino with
  | some sv => sv.i
  | none => decodeInode (s.dev.sector ino)

def Fs.blockAt (s : Fs) (ino k : Nat) : Nat :=
  if h : k < 15 then (s.inodeAt ino).direct ⟨k,h⟩
  else if k < 143 ∧ (s.inodeAt ino).indirect ≠ 0 then
    decodeIdbuf (s.dev.sector (s.inodeAt ino).indirect) (k - 15)
  else 0

def Fs.byteAt (s : Fs) (ino p : Nat) : Byte :=
  if s.blockAt ino (p / 512) = 0 then 0
  else s.dev.sector (s.blockAt ino (p / 512)) (p % 512)

structure File where
  size : Nat
  byte : Buffer
  linkcount : Nat
  type : FileType

def Fs.fileAt (s : Fs) (ino : Nat) : File where
  size := (s.inodeAt ino).size
  byte := s.byteAt ino
  linkcount := (s.inodeAt ino).linkcount
  type := (s.inodeAt ino).type

abbrev Fs.root (s : Fs) : File := s.fileAt sfsRootLocation

inductive Owner where
  | super
  | map (j : Nat)
  | inode (ino : Nat)
  | indirect (ino : Nat)
  | slot (ino k : Nat)
  /-- A block that has been allocated and not been entered anywhere yet. -/
  | pending
  deriving DecidableEq, Repr

/-- `L` are the inodes in use. -/
def owns (s : Fs) (L : Nat → Prop) (pend : Option Nat) : Owner → Nat → Prop
  | .super, b => b = sfsSbLocation
  | .map j, b => j < sfsBitblocks s.super.nblocks ∧ b = sfsMapLocation + j
  | .inode ino, b => L ino ∧ b = ino
  | .indirect ino, b => L ino ∧ b ≠ 0 ∧ (s.inodeAt ino).indirect = b
  | .slot ino k, b => L ino ∧ b ≠ 0 ∧ s.blockAt ino k = b
  | .pending, b => pend = some b

def Fs.held (s : Fs) (b : Nat) : Prop := b < s.super.nblocks ∧ s.freemap.isset b = true

def Fs.free (s : Fs) (b : Nat) : Prop := ¬ s.held b ∧ b < s.super.nblocks

/-- The sizes fit together, and neither the disk nor kmalloc fails. -/
structure Geometry (s : Fs) : Prop where
  low : 2 + sfsBitblocks s.super.nblocks ≤ s.super.nblocks
  high : s.super.nblocks ≤ 131072
  disk : s.super.nblocks ≤ s.dev.blocks
  small : s.dev.blocks < 2^22
  nbits : s.freemap.nbits = sfsBitmapsize s.super.nblocks
  beyond : ∀ b, s.super.nblocks ≤ b → b < s.freemap.nbits → s.freemap.isset b = true
  results : s.dev.results = []
  kmallocs : s.kmallocs = []

def Device.super (d : Device) : Super :=
  { decodeSuper (clip (d.sector sfsSbLocation)) with
    volname := update (decodeSuper (clip (d.sector sfsSbLocation))).volname
      (sfsVolnameSize - 1) 0 }

def Fs.fixed (s : Fs) (b : Nat) : Prop :=
  b = sfsSbLocation ∨ ∃ j, j < sfsBitblocks s.super.nblocks ∧ b = sfsMapLocation + j

/-- The disk has the superblock, and it has the freemap unless that is marked dirty. -/
structure OnDisk (s : Fs) : Prop where
  superdirty : s.superdirty = false
  super : s.super = s.dev.super
  magic : s.super.magic = sfsMagic
  map : s.freemapdirty = false → ∀ j k, j < sfsBitblocks s.super.nblocks → k < 512 →
    s.dev.sector (sfsMapLocation + j) k = s.freemap.v (j * 512 + k)

structure VnodeOk (s : Fs) (L : Nat → Prop) (v : SfsVnode) : Prop where
  live : L v.ino
  refs : 0 < v.refcount
  closed : v.opencount = 0
  ops : v.ops = if v.ino = sfsRootLocation then .dir else .file
  links : v.i.linkcount < 2^16
  clean : v.dirty = false → decodeInode (s.dev.sector v.ino) = v.i

structure InodeOk (ino : Nat) (i : Inode) : Prop where
  type : i.type = if ino = sfsRootLocation then .dir else .file
  size : i.size < 2^31

structure Consistent (s : Fs) (L : Nat → Prop) : Prop where
  geo : Geometry s
  disk : OnDisk s
  nodup : (s.vnodes.map SfsVnode.ino).Nodup
  vnodes : ∀ v ∈ s.vnodes, VnodeOk s L v
  root : L sfsRootLocation
  inodes : ∀ i, L i → InodeOk i (s.inodeAt i)

/-- Every marked block has exactly one owner, every owned block is marked. -/
structure Own (s : Fs) (L : Nat → Prop) (pend : Option Nat) : Prop extends Consistent s L where
  exact : Exact (owns s L pend) s.held

section Vnodes

variable {s : Fs} {ino : Nat} {v w : SfsVnode} {f : SfsVnode → SfsVnode}

theorem vnode_ino (h : s.vnode ino = some v) : v.ino = ino := by
  simpa using List.find?_some h

theorem vnode_mem (h : s.vnode ino = some v) : v ∈ s.vnodes := List.mem_of_find?_eq_some h

theorem find_vnode {l : List SfsVnode} (hn : (l.map SfsVnode.ino).Nodup)
    (h : v ∈ l) : l.find? (fun w => w.ino == v.ino) = some v := by
  induction l with
  | nil => cases h
  | cons w l ih =>
    simp only [List.map_cons,List.nodup_cons] at hn
    rcases List.mem_cons.mp h with rfl | h
    · simp
    · have hne : w.ino ≠ v.ino := fun he => hn.1 (he ▸ List.mem_map_of_mem h)
      rw [List.find?_cons_of_neg (by simpa using hne)]
      exact ih hn.2 h

theorem vnode_of_mem (hn : (s.vnodes.map SfsVnode.ino).Nodup)
    (h : v ∈ s.vnodes) : s.vnode v.ino = some v := find_vnode hn h

theorem eq_vnode (hn : (s.vnodes.map SfsVnode.ino).Nodup)
    (hv : s.vnode ino = some v) (hw : w ∈ s.vnodes) (hi : w.ino = ino) : w = v := by
  have hw' := vnode_of_mem hn hw
  rw [hi,hv] at hw'
  exact (Option.some.inj hw').symm

theorem inodeAt_loaded (h : s.vnode ino = some v) : s.inodeAt ino = v.i := by
  simp [Fs.inodeAt,h]

theorem inodeAt_unloaded (h : s.vnode ino = none) :
    s.inodeAt ino = decodeInode (s.dev.sector ino) := by
  simp [Fs.inodeAt,h]

theorem getVnode_eq (h : s.vnode ino = some v) : getVnode ino s = .ok v s := by
  simp [getVnode,h]

theorem setVnode_vnode (s : Fs) (ino : Nat) (hf : ∀ v, (f v).ino = v.ino)
    (j : Nat) : (s.setVnode ino f).vnode j = if j = ino then (s.vnode j).map f else s.vnode j := by
  have hp : ((fun v : SfsVnode => v.ino == j) ∘ fun v => if v.ino = ino then f v else v) =
      fun v => v.ino == j := by
    funext v
    simp only [comp]
    split
    · rw [hf]
    · rfl
  simp only [Fs.vnode,Fs.setVnode,List.find?_map,hp]
  cases h : s.vnodes.find? (fun v => v.ino == j) with
  | none => simp
  | some v =>
    have hv : v.ino = j := by simpa using List.find?_some h
    simp only [Option.map_some,hv]
    split <;> rfl

theorem setVnode_inos (s : Fs) (ino : Nat) (hf : ∀ v, (f v).ino = v.ino) :
    (s.setVnode ino f).vnodes.map SfsVnode.ino = s.vnodes.map SfsVnode.ino := by
  simp only [Fs.setVnode,List.map_map]
  refine List.map_congr_left fun v _ => ?_
  simp only [comp]
  split
  · exact hf v
  · rfl

theorem mem_setVnode (h : w ∈ (s.setVnode ino f).vnodes) :
    (∃ v ∈ s.vnodes, v.ino = ino ∧ w = f v) ∨ w ∈ s.vnodes ∧ w.ino ≠ ino := by
  obtain ⟨v,hv,rfl⟩ := List.mem_map.mp h
  by_cases he : v.ino = ino
  · exact .inl ⟨v,hv,he,by simp [he]⟩
  · exact .inr ⟨by simpa [he] using hv,by simp [he]⟩

theorem inodeAt_setVnode (hv : s.vnode ino = some v) (hf : ∀ v, (f v).ino = v.ino) (j : Nat) :
    (s.setVnode ino f).inodeAt j = if j = ino then (f v).i else s.inodeAt j := by
  by_cases h : j = ino
  · subst h
    simp [Fs.inodeAt,setVnode_vnode s j hf,hv]
  · simp only [Fs.inodeAt,setVnode_vnode s ino hf,if_neg h]
    rfl

end Vnodes

section BlockIo

def Fs.setSector (s : Fs) (b : Nat) (blk : Block) : Fs :=
  { s with dev := { s.dev with sector := update s.dev.sector b blk } }

variable {s : Fs} {u : Uio} {b : Nat}

@[simp] theorem setSector_sector (blk : Block) :
    (s.setSector b blk).dev.sector = update s.dev.sector b blk := rfl

@[simp] theorem setSector_vnodes (blk : Block) : (s.setSector b blk).vnodes = s.vnodes := rfl

@[simp] theorem setSector_vnode (blk : Block) (j : Nat) :
    (s.setSector b blk).vnode j = s.vnode j := rfl

variable {α : Type} {d : Device} {u' : Uio}

theorem onDevice_ok {f : Prog (Device × Uio) Errno Panic α} {a : α}
    (h : f (s.dev,u) = .ok a (d,u')) : onDevice f (s,u) = .ok a ({ s with dev := d },u') := by
  simp only [onDevice,zoom,h]

theorem onDevice_err {f : Prog (Device × Uio) Errno Panic α} {e : Errno}
    (h : f (s.dev,u) = .err e (d,u')) : onDevice f (s,u) = .err e ({ s with dev := d },u') := by
  simp only [onDevice,zoom,h]

section

variable (hoff : u.offset = (b * 512 : Nat)) (hres : u.resid = 512) (hb : b < s.dev.blocks)
  (hsmall : s.dev.blocks < 2^22)

include hoff hres hb hsmall

theorem rwblock_of_lhdSector {a : Unit} (h : lhdSector b (s.dev,u) = .ok a (d,u')) :
    sfsRwblock (s,u) = .ok () ({ s with dev := d },u') := by
  have hio : onDevice lhdIo (s,u) = .ok a ({ s with dev := d },u') :=
    onDevice_ok (by rw [lhdIo_one hoff hres hb (by omega)]; exact h)
  simp only [sfsRwblock,rwblockRetries,rwblockOnce]
  rw [bind_ok (attempt_ok hio)]
  rfl

theorem rwblock_fault (h : lhdSector b (s.dev,u) = .err .EFAULT (s.dev,u)) :
    sfsRwblock (s,u) = .err .EFAULT (s,u) := by
  have hio : onDevice lhdIo (s,u) = .err .EFAULT ({ s with dev := s.dev },u) :=
    onDevice_err (by rw [lhdIo_one hoff hres hb (by omega)]; exact h)
  simp only [sfsRwblock,rwblockRetries,rwblockOnce]
  rw [bind_ok (attempt_err hio)]
  rfl

end

theorem lhdSector_read (hq : d.results = []) (hrw : u.rw = .read)
    (hres : u.resid = 512) (hf : u.faulty 512 = false) : lhdSector b (d,u) =
      .ok () (d,{ u.advance 512 with buf := splice u.buf u.base 512 (d.sector b) 0 }) := by
  rw [lhdSector_read_succeeds hrw hres hf (Device.next_of_nil hq),Device.spend_of_nil hq]

theorem lhdSector_write (hq : d.results = []) (hrw : u.rw = .write)
    (hres : u.resid = 512) (hf : u.faulty 512 = false) : lhdSector b (d,u) = .ok ()
      ({ d with sector := update d.sector b (splice zeros 0 512 u.buf u.base) },
        u.advance 512) := by
  rw [lhdSector_write_succeeds hrw hres hf (Device.next_of_nil hq),Device.spend_of_nil hq]
  rfl

theorem lhdSector_write_fault (hrw : u.rw = .write) (hres : u.resid = 512)
    (hf : u.faulty 512 = true) : lhdSector b (d,u) = .err .EFAULT (d,u) := by
  have hmove : onUio (uiomove zeros lhdSectsize) (d,u) = .err .EFAULT (d,u) :=
    zoom_err (uiomove_fault (by rw [hres,lhdSectsize]) hf)
  simp only [lhdSector,get_bind,hrw]
  rw [bind_err hmove]

theorem sfsUio_eq (data : Buffer) (rw : UioRw) (hb : b < 2^22) :
    sfsUio data b rw = ⟨data,0,((b * 512 : Nat) : Int),512,rw,fun _ => false⟩ := by
  simp only [sfsUio,mkKuio,sfsBlocksize]
  rw [Nat.mod_eq_of_lt (by omega),toInt32_of_lt (by omega)]

theorem faulty_none (buf : Buffer) (base : Nat) (off : Int) (res : Nat) (rw : UioRw) (n : Nat) :
    (Uio.mk buf base off res rw fun _ => false).faulty n = false := by
  simp [Uio.faulty]

theorem Geometry.block_lt (h : Geometry s) (hb : b < s.super.nblocks) :
    b < s.dev.blocks ∧ b < 2^22 := by
  have hdisk := h.disk
  have hsmall := h.small
  omega

theorem sfsRblock_eq (hb : b < s.dev.blocks) (hsmall : s.dev.blocks < 2^22)
    (hres : s.dev.results = []) : sfsRblock b s = .ok (clip (s.dev.sector b)) s := by
  have hrw := rwblock_of_lhdSector (s := s) rfl rfl hb hsmall
    (lhdSector_read (b := b) hres rfl rfl (faulty_none zeros 0 (b * 512 : Nat) 512 .read 512))
  rw [sfsRblock,sfsUio_eq zeros .read (by omega),bind_ok (withLocal_ok hrw)]
  rfl

theorem Geometry.rblock (h : Geometry s) (hb : b < s.super.nblocks) :
    sfsRblock b s = .ok (clip (s.dev.sector b)) s :=
  sfsRblock_eq (h.block_lt hb).1 h.small h.results

theorem Geometry.wblock (h : Geometry s) (hb : b < s.super.nblocks) (data : Buffer) :
    sfsWblock data b s = .ok () (s.setSector b (clip data)) := by
  obtain ⟨hdisk,hlt⟩ := h.block_lt hb
  have hrw := rwblock_of_lhdSector (s := s) rfl rfl hdisk h.small
    (lhdSector_write (b := b) h.results rfl rfl (faulty_none data 0 (b * 512 : Nat) 512 .write 512))
  rw [sfsWblock,sfsUio_eq data .write hlt,bind_ok (withLocal_ok hrw)]
  rfl

end BlockIo

section Maps

variable {s t : Fs} {L : Nat → Prop} {pend : Option Nat} {b : Nat}

variable {o : Owner} {i : Nat}

theorem Own.lt (h : Own s L pend) (ho : owns s L pend o b) : b < s.super.nblocks :=
  (h.exact.sound o b ho).1

theorem Own.isset (h : Own s L pend) (ho : owns s L pend o b) :
    s.freemap.isset b = true := (h.exact.sound o b ho).2

theorem Own.live_ne_zero (h : Own s L pend) {ino : Nat} (hL : L ino) : ino ≠ 0 := by
  rintro rfl
  have hu := h.exact.unique (.inode 0) .super 0 ⟨hL,rfl⟩ rfl
  cases hu

theorem Own.held_zero (h : Own s L pend) : s.held 0 := h.exact.sound .super 0 rfl

theorem owns_congr (hsup : t.super = s.super)
    (hind : ∀ i, L i → (t.inodeAt i).indirect = (s.inodeAt i).indirect)
    (hblk : ∀ i, L i → ∀ k, t.blockAt i k = s.blockAt i k) (o : Owner) (b : Nat) :
    owns t L pend o b ↔ owns s L pend o b := by
  cases o with
  | super | inode | pending => exact Iff.rfl
  | map j => simp only [owns,hsup]
  | indirect i =>
    refine and_congr_right fun hL => ?_
    rw [hind i hL]
  | slot i k =>
    refine and_congr_right fun hL => ?_
    rw [hblk i hL k]

theorem Own.not_fixed (h : Own s L pend) (ho : owns s L pend o b) (hs : o ≠ .super)
    (hm : ∀ j, o ≠ .map j) : ¬ s.fixed b := by
  rintro (hb | ⟨j,hj,hb⟩)
  · exact hs (h.exact.unique o .super b ho hb)
  · exact hm j (h.exact.unique o (.map j) b ho ⟨hj,hb⟩)

theorem Own.held_fixed (h : Own s L pend) (hb : s.fixed b) : s.held b := by
  rcases hb with hb | ⟨j,hj,hb⟩
  · exact h.exact.sound .super b hb
  · exact h.exact.sound (.map j) b ⟨hj,hb⟩

/-- Neither an inode in use nor the indirect block of one, nor one of the fixed blocks. -/
structure Plain (s : Fs) (L : Nat → Prop) (b : Nat) : Prop where
  fixed : ¬ s.fixed b
  inode : ¬ L b
  indirect : ∀ i, L i → (s.inodeAt i).indirect ≠ b

theorem Plain.ne_zero (h : Plain s L b) : b ≠ 0 := fun hb => h.fixed (.inl hb)

theorem Own.plain_of_free (h : Own s L pend) (hb : s.free b) : Plain s L b where
  fixed hf := hb.1 (h.held_fixed hf)
  inode hL := hb.1 (h.exact.sound (.inode b) b ⟨hL,rfl⟩)
  indirect i hL he := by
    refine hb.1 (h.exact.sound (.indirect i) b ⟨hL,?_,he⟩)
    rintro rfl
    exact hb.1 h.held_zero

theorem Own.plain_of_slot (h : Own s L pend) {k : Nat} (ho : owns s L pend (.slot i k) b) :
    Plain s L b where
  fixed := h.not_fixed ho nofun nofun
  inode hL := by
    have hu := h.exact.unique (.inode b) (.slot i k) b ⟨hL,rfl⟩ ho
    cases hu
  indirect j hL he := by
    have hu := h.exact.unique (.indirect j) (.slot i k) b ⟨hL,ho.2.1,he⟩ ho
    cases hu

theorem inodeAt_setSector {j : Nat} (blk : Block) (h : j ≠ b) :
    (s.setSector b blk).inodeAt j = s.inodeAt j := by
  simp only [Fs.inodeAt,setSector_vnode,setSector_sector,update_of_ne h]

theorem blockAt_congr (hi : t.inodeAt i = s.inodeAt i) (hsec : (s.inodeAt i).indirect ≠ 0 →
      t.dev.sector (s.inodeAt i).indirect = s.dev.sector (s.inodeAt i).indirect) (k : Nat) :
    t.blockAt i k = s.blockAt i k := by
  simp only [Fs.blockAt,hi]
  by_cases hz : (s.inodeAt i).indirect = 0
  · simp [hz]
  · rw [hsec hz]

theorem Plain.inodeAt (h : Plain s L b) (blk : Block) (hL : L i) :
    (s.setSector b blk).inodeAt i = s.inodeAt i :=
  inodeAt_setSector blk fun he => h.inode (he ▸ hL)

theorem Plain.blockAt (h : Plain s L b) (blk : Block) (hL : L i) (k : Nat) :
    (s.setSector b blk).blockAt i k = s.blockAt i k :=
  blockAt_congr (h.inodeAt blk hL) (fun _ => update_of_ne (h.indirect i hL) _ _) k

theorem Plain.byteAt (h : Plain s L b) (blk : Block) (hL : L i) (p : Nat) :
    (s.setSector b blk).byteAt i p =
      if s.blockAt i (p / 512) = b then blk (p % 512) else s.byteAt i p := by
  simp only [Fs.byteAt,h.blockAt blk hL,setSector_sector]
  by_cases he : s.blockAt i (p / 512) = b
  · simp [he,h.ne_zero]
  · rw [if_neg he,update_of_ne he]

theorem OnDisk.store (h : OnDisk s) (hb : ¬ s.fixed b) (blk : Block) :
    OnDisk (s.setSector b blk) where
  superdirty := h.superdirty
  super := by
    have hne : sfsSbLocation ≠ b := fun he => hb (.inl he.symm)
    simp only [Device.super,setSector_sector,update_of_ne hne]
    exact h.super
  magic := h.magic
  map hd j k hj hk := by
    have hne : sfsMapLocation + j ≠ b := fun he => hb (.inr ⟨j,hj,he.symm⟩)
    rw [setSector_sector,update_of_ne hne]
    exact h.map hd j k hj hk

theorem Consistent.store (h : Consistent s L) (hf : ¬ s.fixed b) (hb : ¬ L b) (blk : Block) :
    Consistent (s.setSector b blk) L where
  geo := ⟨h.geo.low,h.geo.high,h.geo.disk,h.geo.small,h.geo.nbits,h.geo.beyond,h.geo.results,
    h.geo.kmallocs⟩
  disk := h.disk.store hf blk
  nodup := h.nodup
  vnodes v hv := by
    have hok := h.vnodes v hv
    refine ⟨hok.live,hok.refs,hok.closed,hok.ops,hok.links,fun hc => ?_⟩
    have hne : v.ino ≠ b := fun he => hb (he ▸ hok.live)
    rw [setSector_sector,update_of_ne hne]
    exact hok.clean hc
  root := h.root
  inodes i hL := by
    have hne : i ≠ b := fun he => hb (he ▸ hL)
    rw [inodeAt_setSector blk hne]
    exact h.inodes i hL

theorem Own.setSector (h : Own s L pend) (hp : Plain s L b) (blk : Block) :
    Own (s.setSector b blk) L pend :=
  ⟨h.store hp.fixed hp.inode blk,h.exact.congr (owns_congr rfl (fun i hL => by rw [hp.inodeAt blk hL])
    fun i hL k => hp.blockAt blk hL k) fun _ => Iff.rfl⟩

end Maps

section Freemap

variable {s : Fs} {L : Nat → Prop} {pend : Option Nat} {b : Nat}

def Fs.mark (s : Fs) (b : Nat) : Fs :=
  { s with freemap := s.freemap.setBit b, freemapdirty := true }

def Fs.unmark (s : Fs) (b : Nat) : Fs :=
  { s with freemap := s.freemap.clearBit b, freemapdirty := true }

@[simp] theorem mark_super : (s.mark b).super = s.super := rfl

@[simp] theorem mark_inodeAt (j : Nat) : (s.mark b).inodeAt j = s.inodeAt j := rfl

@[simp] theorem mark_blockAt (j k : Nat) : (s.mark b).blockAt j k = s.blockAt j k := rfl

@[simp] theorem unmark_inodeAt (j : Nat) : (s.unmark b).inodeAt j = s.inodeAt j := rfl

@[simp] theorem unmark_blockAt (j k : Nat) : (s.unmark b).blockAt j k = s.blockAt j k := rfl

theorem held_mark (hb : b < s.super.nblocks) (c : Nat) : (s.mark b).held c ↔ s.held c ∨ c = b := by
  simp only [Fs.held,Fs.mark,Bitmap.isset_setBit,Bool.or_eq_true,decide_eq_true_eq]
  constructor
  · rintro ⟨hlt,he | hi⟩
    · exact .inr he
    · exact .inl ⟨hlt,hi⟩
  · rintro (⟨hlt,hi⟩ | rfl)
    · exact ⟨hlt,.inr hi⟩
    · exact ⟨hb,.inl rfl⟩

theorem held_unmark (c : Nat) : (s.unmark b).held c ↔ s.held c ∧ c ≠ b := by
  simp only [Fs.held,Fs.unmark,Bitmap.isset_clearBit,Bool.and_eq_true,Bool.not_eq_true',
    decide_eq_false_iff_not,ne_eq]
  tauto

theorem bitmapsize_bounds {n : Nat} (h : n ≤ 131072) :
    n ≤ sfsBitmapsize n ∧ sfsBitmapsize n < 2^18 ∧ sfsBitmapsize n % 8 = 0 := by
  unfold sfsBitmapsize sfsRoundup sfsBlockbits
  omega

theorem Geometry.nblocks_le (h : Geometry s) : s.super.nblocks ≤ s.freemap.nbits := by
  rw [h.nbits]
  exact (bitmapsize_bounds h.high).1

theorem Geometry.padded (h : Geometry s) : s.freemap.Padded := by
  obtain ⟨_,hlt,hmod⟩ := bitmapsize_bounds h.high
  rw [← h.nbits] at hlt hmod
  refine ⟨by omega,fun i hge hi => ?_⟩
  rw [Bitmap.words_eq (by omega)] at hi
  omega

theorem Geometry.mark (h : Geometry s) (b : Nat) : Geometry (s.mark b) where
  low := h.low
  high := h.high
  disk := h.disk
  small := h.small
  nbits := h.nbits
  beyond c hge hlt := by
    simp only [Fs.mark,Bitmap.isset_setBit]
    rw [h.beyond c hge hlt,Bool.or_true]
  results := h.results
  kmallocs := h.kmallocs

theorem OnDisk.mark (h : OnDisk s) (b : Nat) : OnDisk (s.mark b) :=
  ⟨h.superdirty,h.super,h.magic,fun hd => by cases hd⟩

theorem sfsBused_eq (hb : b < s.super.nblocks) : sfsBused b s = .ok (s.freemap.isset b) s := by
  rw [sfsBused,get_bind,if_neg (by omega),pure_apply]

theorem handBack_eq (ino k : Nat) (hb : b = 0 ∨ s.held b) : handBack ino k b s = .ok b s := by
  by_cases hz : b = 0
  · simp [handBack,hz]
  · obtain ⟨hlt,hset⟩ := hb.resolve_left hz
    rw [handBack,if_neg hz,bind_ok (sfsBused_eq hlt),hset]
    rfl

theorem Geometry.bfree (h : Geometry s) (hb : s.held b) : sfsBfree b s = .ok () (s.unmark b) := by
  have hle := h.nblocks_le
  have hun := Bitmap.unmark_eq (by have := hb.1; omega) hb.2
  rw [sfsBfree,get_bind,hun]
  rfl

def Fs.taken (s : Fs) (b : Nat) : Fs := (s.mark b).setSector b (clip zeros)

theorem clip_zeros : clip zeros = zeros := by
  funext k
  simp only [clip,splice,zeros]
  split <;> rfl

/-- sfs_balloc hands out a free block of the volume, or there is none. -/
theorem Geometry.balloc (h : Geometry s) :
    (∃ b, sfsBalloc s = .ok b (s.taken b) ∧ s.free b) ∨
    sfsBalloc s = .err .ENOSPC s ∧ ∀ b, ¬ s.free b := by
  rw [sfsBalloc,get_bind]
  rcases Bitmap.alloc_spec h.padded with ⟨hfull,hall⟩ | ⟨r,hgot,hlt,hclear,_⟩
  · rw [hfull]
    exact .inr ⟨rfl,fun b hb => hb.1 ⟨hb.2,hall b (Nat.lt_of_lt_of_le hb.2 h.nblocks_le)⟩⟩
  · have hin : r < s.super.nblocks := by
      by_contra hge
      rw [h.beyond r (by omega) hlt] at hclear
      cases hclear
    have hw := (h.mark r).wblock hin zeros
    refine .inl ⟨r,?_,fun hh => ?_,hin⟩
    · rw [hgot]
      simp only
      rw [modify_bind,if_neg (by omega)]
      exact bind_ok hw
    · rw [hh.2] at hclear
      cases hclear

theorem Own.taken (h : Own s L none) (hfree : s.free b) : Own (s.taken b) L (some b) := by
  have hmark : Own (s.mark b) L (some b) := by
    refine ⟨⟨h.geo.mark b,h.disk.mark b,h.nodup,fun v hv => ?_,h.root,fun i hL => h.inodes i hL⟩,
      h.exact.take (x := .pending) hfree.1 (fun o c => ?_) (held_mark hfree.2)⟩
    · have hok := h.vnodes v hv
      exact ⟨hok.live,hok.refs,hok.closed,hok.ops,hok.links,hok.clean⟩
    · cases o with
      | pending =>
        simp only [owns,Option.some.injEq,reduceCtorEq,true_and,false_or]
        exact eq_comm
      | _ => simp [owns]
  have hp := h.plain_of_free hfree
  exact hmark.setSector ⟨hp.fixed,hp.inode,hp.indirect⟩ (clip zeros)

end Freemap

section Frames

variable {s t u : Fs} {L : Nat → Prop} {pend : Option Nat}

def SfsVnode.key (v : SfsVnode) : Nat × Nat × Nat × VnodeOps :=
  (v.ino,v.refcount,v.opencount,v.ops)

structure Becomes (L : Nat → Prop) (ino : Nat) (f : File) (s t : Fs) : Prop where
  super : t.super = s.super
  keys : t.vnodes.map SfsVnode.key = s.vnodes.map SfsVnode.key
  self : t.fileAt ino = f
  others : ∀ i, L i → i ≠ ino → t.fileAt i = s.fileAt i

theorem Becomes.refl (L : Nat → Prop) (ino : Nat) (s : Fs) : Becomes L ino (s.fileAt ino) s s :=
  ⟨rfl,rfl,rfl,fun _ _ _ => rfl⟩

variable {ino i : Nat} {f : File}

theorem Becomes.trans {g : File} (h : Becomes L ino f s t)
    (h' : Becomes L ino g t u) : Becomes L ino g s u where
  super := h'.super.trans h.super
  keys := h'.keys.trans h.keys
  self := h'.self
  others i hL hne := (h'.others i hL hne).trans (h.others i hL hne)

theorem vnode_map_key (s : Fs) (i : Nat) :
    (s.vnode i).map SfsVnode.key = (s.vnodes.map SfsVnode.key).find? fun k => k.1 == i := by
  rw [List.find?_map]
  rfl

theorem Becomes.vnode (h : Becomes L ino f s t) (i : Nat) :
    (t.vnode i).map SfsVnode.key = (s.vnode i).map SfsVnode.key := by
  rw [vnode_map_key,vnode_map_key,h.keys]

theorem Becomes.loaded (h : Becomes L ino f s t) (i : Nat) :
    (t.vnode i).isSome = (s.vnode i).isSome := by
  have hv := congrArg Option.isSome (h.vnode i)
  simpa using hv

theorem exists_vnode (h : (s.vnode i).isSome = true) : ∃ v, s.vnode i = some v :=
  Option.isSome_iff_exists.mp h

theorem fileAt_congr (hi : t.inodeAt i = s.inodeAt i)
    (hb : ∀ p, t.byteAt i p = s.byteAt i p) : t.fileAt i = s.fileAt i := by
  simp only [Fs.fileAt,hi,File.mk.injEq,true_and,and_true]
  funext p
  exact hb p

end Frames

end MipsOs.Sfs
