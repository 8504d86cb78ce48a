import Mathlib.Data.List.TakeWhile
import MipsOs.SfsInvariant

/-! sbin/mksfs/mksfs.c writes an empty volume, and sfs_domount of
kern/fs/sfs/sfs_fs.c brings it in and takes it for what it is. -/

set_option autoImplicit false
namespace MipsOs.Sfs
open Bytes Prog Ledger Function

inductive MksfsError where
  | illegalName | longName | tooLarge | allocbit | write
  deriving DecidableEq, Repr

def maxbitblocks : Nat := 32

/-- Removes one trailing colon and refuses the names with colons or slashes in them. -/
def checkVolname (volname : Name) : Except MksfsError (List Byte) :=
  match volname.chars.dropWhile (· ≠ 58) with
  | _ :: _ :: _ => .error .illegalName
  | _ =>
    if (volname.chars.takeWhile (· ≠ 58)).contains 47 then .error .illegalName
    else .ok (volname.chars.takeWhile (· ≠ 58))

def diskwrite (data : Buffer) (block : Nat) (d : Device) : Except MksfsError Device :=
  if block < d.blocks then
    .ok { d with sector := update d.sector block (clip data) }
  else .error .write

def writesuper (volname : List Byte) (nblocks : Nat) (d : Device) : Except MksfsError Device :=
  if volname.length ≥ sfsVolnameSize then .error .longName
  else diskwrite (encodeSuper ⟨sfsMagic,nblocks,fun k => (volname[k]?).getD 0⟩) sfsSbLocation d

def rootInode : Inode := ⟨0,.dir,1,fun _ => 0,0⟩

def writerootdir (d : Device) : Except MksfsError Device :=
  diskwrite (encodeInode rootInode) sfsRootLocation d

def doallocbit (bitbuf : Buffer) (bit : Nat) : Except MksfsError Buffer :=
  if bitbuf (bit / 8) &&& Bitmap.mask (bit % 8) = 0 then
    .ok (update bitbuf (bit / 8) (bitbuf (bit / 8) ||| Bitmap.mask (bit % 8)))
  else .error .allocbit

def mksfsBits (fsblocks : Nat) : List Nat :=
  [sfsSbLocation,sfsRootLocation] ++
    (List.range (sfsBitblocks fsblocks)).map (sfsMapLocation + ·) ++
    List.range' fsblocks (sfsBitmapsize fsblocks - fsblocks)

def writebitmap (fsblocks : Nat) (d : Device) : Except MksfsError Device :=
  if sfsBitblocks fsblocks > maxbitblocks then .error .tooLarge
  else do
    let bitbuf ← (mksfsBits fsblocks).foldlM doallocbit zeros
    (List.range (sfsBitblocks fsblocks)).foldlM
      (fun d i => diskwrite (fun k => bitbuf (i * sfsBlocksize + k)) (sfsMapLocation + i) d) d

/-- mksfs on a disk with the given file size, which is an off_t, and contents. -/
def mksfs (volname : Name) (stSize : Fin (2^31)) (image : Nat → Block) :
    Except MksfsError Device := do
  let volname ← checkVolname volname
  let d ← writesuper volname (stSize / sfsBlocksize) ⟨stSize / sfsBlocksize,image,[]⟩
  let d ← writerootdir d
  writebitmap (stSize / sfsBlocksize) d

def mapioBlock (rw : UioRw) (j : Nat) : SfsM Unit :=
  match rw with
  | .read => do
    let b ← sfsRblock (sfsMapLocation + j)
    modify fun s => { s with freemap :=
      { s.freemap with v := splice s.freemap.v (j * sfsBlocksize) sfsBlocksize b 0 } }
  | .write => do
    let s ← get
    sfsWblock (fun k => s.freemap.v (j * sfsBlocksize + k)) (sfsMapLocation + j)

def sfsMapio (rw : UioRw) : SfsM Unit := do
  let s ← get
  loop (fun j _ => mapioBlock rw j) 0 (sfsBitblocks s.super.nblocks) ()

def mountBitmap : SfsM Unit := do
  kmalloc
  kmalloc
  let s ← get
  match Bitmap.create (sfsBitmapsize s.super.nblocks) with
  | .error a => halt (.bitmap a)
  | .ok freemap => modify fun s => { s with freemap := freemap }

/-- sfs_domount. A volume larger than the device only draws a warning. -/
def sfsDomount : SfsM Unit := do
  kmalloc
  kmalloc
  modify fun s => { s with vnodes := [] }
  let b ← sfsRblock sfsSbLocation
  if (decodeSuper b).magic ≠ sfsMagic then fail .EINVAL
  else do
    modify fun s => { s with super := { decodeSuper b with
      volname := update (decodeSuper b).volname (sfsVolnameSize - 1) 0 } }
    mountBitmap
    sfsMapio .read
    modify fun s => { s with superdirty := false, freemapdirty := false }

/-- struct sfs_fs as kmalloc hands it out; nothing of it is read before it is set. -/
def Fs.blank (d : Device) : Fs := ⟨⟨0,0,zeros⟩,false,⟨0,zeros⟩,false,[],d,[]⟩

def volume (volname : Name) (stSize : Fin (2^31)) (image : Nat → Block) : Option Fs :=
  match mksfs volname stSize image with
  | .error _ => none
  | .ok d =>
    match sfsDomount (Fs.blank d) with
    | .ok _ s => some s
    | _ => none

section Written

variable {n : Nat} {d d' : Device} {buf buf' : Buffer}

theorem except_bind_ok {ε α β : Type} {x : Except ε α} {f : α → Except ε β} {b : β}
    (h : (x >>= f) = .ok b) : ∃ a, x = .ok a ∧ f a = .ok b := by
  cases x with
  | error e => cases h
  | ok a => exact ⟨a,rfl,h⟩

theorem doallocbit_eq (buf : Buffer) (bit : Nat) : doallocbit buf bit =
    if (Bitmap.mk 0 buf).isset bit = true then .error .allocbit
    else .ok ((Bitmap.mk 0 buf).setBit bit).v := by
  unfold doallocbit Bitmap.isset Bitmap.setBit Bitmap.bitsPerWord
  by_cases h : buf (bit / 8) &&& Bitmap.mask (bit % 8) = 0
  · rw [if_pos h,if_neg (by simp [h])]
  · rw [if_neg h,if_pos (by simpa using h)]

variable {l : List Nat} {data : Buffer} {block base m : Nat} {volname : Name} {stSize : Fin (2^31)}
  {image : Nat → Block}

theorem doallocbits_ok (h : l.foldlM doallocbit buf = .ok buf') :
    l.Nodup ∧ (∀ b ∈ l, (Bitmap.mk 0 buf).isset b = false) ∧
      ∀ b, (Bitmap.mk 0 buf').isset b = (decide (b ∈ l) || (Bitmap.mk 0 buf).isset b) := by
  induction l generalizing buf with
  | nil =>
    cases h
    simp
  | cons x l ih =>
    rw [List.foldlM_cons] at h
    obtain ⟨c,hx,hl⟩ := except_bind_ok h
    rw [doallocbit_eq] at hx
    by_cases hset : (Bitmap.mk 0 buf).isset x = true
    · rw [if_pos hset] at hx
      cases hx
    · rw [if_neg hset] at hx
      obtain rfl := Except.ok.inj hx
      have hbit : ∀ b, (Bitmap.mk 0 ((Bitmap.mk 0 buf).setBit x).v).isset b =
          (decide (b = x) || (Bitmap.mk 0 buf).isset b) := (Bitmap.mk 0 buf).isset_setBit x
      obtain ⟨hnd,hclear,hall⟩ := ih hl
      have hxl : x ∉ l := fun hx => by
        have := hclear x hx
        rw [hbit] at this
        simp at this
      refine ⟨List.nodup_cons.mpr ⟨hxl,hnd⟩,fun b hb => ?_,fun b => ?_⟩
      · rcases List.mem_cons.mp hb with rfl | hb
        · simpa using hset
        · have := hclear b hb
          rw [hbit,Bool.or_eq_false_iff] at this
          exact this.2
      · rw [hall,hbit]
        by_cases hbx : b = x
        · simp [hbx]
        · simp [hbx]

theorem doallocbits_exists (hnd : l.Nodup) (hclear : ∀ b ∈ l, (Bitmap.mk 0 buf).isset b = false) :
    ∃ buf', l.foldlM doallocbit buf = .ok buf' := by
  induction l generalizing buf with
  | nil => exact ⟨buf,rfl⟩
  | cons x l ih =>
    obtain ⟨hx,hnd⟩ := List.nodup_cons.mp hnd
    have hstep : doallocbit buf x = .ok ((Bitmap.mk 0 buf).setBit x).v := by
      rw [doallocbit_eq,if_neg (by simp [hclear x List.mem_cons_self])]
    obtain ⟨buf',hbuf⟩ := ih hnd fun b hb => by
      have hbit := (Bitmap.mk 0 buf).isset_setBit x b
      have hne : b ≠ x := fun he => hx (he ▸ hb)
      have := hclear b (List.mem_cons_of_mem x hb)
      simp only [hne,decide_false,Bool.false_or,this] at hbit
      exact hbit
    exact ⟨buf',by rw [List.foldlM_cons,hstep]; exact hbuf⟩

theorem diskwrite_ok (h : diskwrite data block d = .ok d') :
    block < d.blocks ∧ d' = { d with sector := update d.sector block (clip data) } := by
  unfold diskwrite at h
  split at h
  · next hlt => exact ⟨hlt,(Except.ok.inj h).symm⟩
  · cases h

theorem diskwrite_eq (h : block < d.blocks) :
    diskwrite data block d =
      .ok { d with sector := update d.sector block (clip data) } := if_pos h

theorem diskwrites_ok {data : Nat → Buffer}
    (h : (List.range m).foldlM (fun d i => diskwrite (data i) (base + i) d) d = .ok d') :
    d'.blocks = d.blocks ∧ d'.results = d.results ∧ (m = 0 ∨ base + m ≤ d.blocks) ∧
      (∀ j, j < m → d'.sector (base + j) = clip (data j)) ∧
      ∀ b, b < base ∨ base + m ≤ b → d'.sector b = d.sector b := by
  induction m generalizing d' with
  | zero =>
    cases h
    exact ⟨rfl,rfl,.inl rfl,fun j hj => by omega,fun _ _ => rfl⟩
  | succ m ih =>
    rw [List.range_succ,List.foldlM_append] at h
    obtain ⟨c,hc,hlast⟩ := except_bind_ok h
    obtain ⟨hblocks,hres,_,hin,hout⟩ := ih hc
    rw [List.foldlM_cons] at hlast
    obtain ⟨e,he,hnil⟩ := except_bind_ok hlast
    cases hnil
    obtain ⟨hlt,rfl⟩ := diskwrite_ok he
    rw [hblocks] at hlt
    refine ⟨hblocks,hres,.inr (by omega),fun j hj => ?_,fun b hb => ?_⟩
    · by_cases hjm : j = m
      · subst hjm
        exact update_self ..
      · show update c.sector (base + m) _ (base + j) = _
        rw [update_of_ne (by omega)]
        exact hin j (by omega)
    · show update c.sector (base + m) _ b = _
      rw [update_of_ne (by omega)]
      exact hout b (by omega)

theorem diskwrites_exists (data : Nat → Buffer) (h : base + m ≤ d.blocks) :
    ∃ d', (List.range m).foldlM (fun d i => diskwrite (data i) (base + i) d) d = .ok d' := by
  induction m with
  | zero => exact ⟨d,rfl⟩
  | succ m ih =>
    obtain ⟨c,hc⟩ := ih (by omega)
    have hlt : base + m < c.blocks := by
      rw [(diskwrites_ok hc).1]
      omega
    refine ⟨{ c with sector := update c.sector (base + m) (clip (data m)) },?_⟩
    rw [List.range_succ,List.foldlM_append,hc]
    show ([m].foldlM (fun d i => diskwrite (data i) (base + i) d) c) = _
    rw [List.foldlM_cons,diskwrite_eq hlt]
    rfl

structure Formatted (n : Nat) (d : Device) : Prop where
  blocks : d.blocks = n
  results : d.results = []
  low : 2 + sfsBitblocks n ≤ n
  high : n ≤ 131072
  magic : (decodeSuper (d.sector sfsSbLocation)).magic = sfsMagic
  nblocks : (decodeSuper (d.sector sfsSbLocation)).nblocks = n
  root : decodeInode (d.sector sfsRootLocation) = rootInode
  map : ∃ buf, (∀ b, (Bitmap.mk 0 buf).isset b = decide (b ∈ mksfsBits n)) ∧
    ∀ j, j < sfsBitblocks n → d.sector (sfsMapLocation + j) =
      clip fun k => buf (j * sfsBlocksize + k)

theorem decode_encodeSuper (hm : m < 2^32) (hn : n < 2^32) (name : Buffer) :
    (decodeSuper (clip (encodeSuper ⟨m,n,name⟩))).magic = m ∧
      (decodeSuper (clip (encodeSuper ⟨m,n,name⟩))).nblocks = n := by
  simp only [decodeSuper]
  rw [be32_clip (by omega),be32_clip (by omega)]
  refine ⟨be32_eq hm fun j hj => ?_,be32_eq hn fun j hj => ?_⟩
  · simp [encodeSuper,hj]
  · simp only [encodeSuper]
    rw [if_neg (by omega),if_pos (by omega)]
    congr 1
    omega

theorem bitblocks_eq (h : n < 2^22) : sfsBitblocks n = (n + 4095) / 4096 ∧
    sfsBitmapsize n = (n + 4095) / 4096 * 4096 := by
  unfold sfsBitblocks sfsBitmapsize sfsRoundup sfsBlockbits
  rw [Nat.mod_eq_of_lt (by omega)]
  constructor
  · rw [Nat.mul_div_cancel _ (by decide)]
    rfl
  · rfl

theorem mem_mksfsBits {b : Nat} : b ∈ mksfsBits n ↔ b = 0 ∨ b = 1 ∨
    (2 ≤ b ∧ b < 2 + sfsBitblocks n) ∨ (n ≤ b ∧ b < n + (sfsBitmapsize n - n)) := by
  simp only [mksfsBits,sfsSbLocation,sfsRootLocation,sfsMapLocation,List.mem_append,List.mem_cons,
    List.not_mem_nil,or_false,List.mem_map,List.mem_range,List.mem_range'_1,or_assoc]
  refine or_congr_right (or_congr_right (or_congr_left ?_))
  constructor
  · rintro ⟨j,hj,rfl⟩
    omega
  · rintro ⟨hge,hlt⟩
    exact ⟨b - 2,by omega,by omega⟩

/-- The bits differ only if the volume has room for its own freemap. -/
theorem mksfsBits_low (hpos : 0 < n) (hlt : n < 2^22) (h : (mksfsBits n).Nodup) :
    2 + sfsBitblocks n ≤ n := by
  obtain ⟨hblocks,hsize⟩ := bitblocks_eq hlt
  by_contra hgt
  -- otherwise the first bit behind the end has been allocated before
  have hlast : n ∈ List.range' n (sfsBitmapsize n - n) := by
    rw [List.mem_range'_1]
    omega
  have hfirst : n ∈ [sfsSbLocation,sfsRootLocation] ++
      (List.range (sfsBitblocks n)).map (sfsMapLocation + ·) := by
    simp only [sfsSbLocation,sfsRootLocation,sfsMapLocation,List.mem_append,List.mem_cons,
      List.not_mem_nil,or_false,List.mem_map,List.mem_range]
    by_cases h1 : n = 1
    · exact .inl (.inr h1)
    · exact .inr ⟨n - 2,by omega,by omega⟩
  exact (List.nodup_append.mp h).2.2 n hfirst n hlast rfl

theorem mksfsBits_nodup (h : 2 + sfsBitblocks n ≤ n) : (mksfsBits n).Nodup := by
  unfold mksfsBits
  rw [List.nodup_append,List.nodup_append]
  refine ⟨⟨by decide,?_,?_⟩,List.nodup_range',?_⟩
  · exact List.nodup_range.map fun a b hab => by simpa using hab
  · intro a ha b hb
    simp only [sfsSbLocation,sfsRootLocation,sfsMapLocation,List.mem_cons,List.not_mem_nil,or_false,
      List.mem_map,List.mem_range] at ha hb
    omega
  · intro a ha b hb
    rw [List.mem_range'_1] at hb
    simp only [sfsSbLocation,sfsRootLocation,sfsMapLocation,List.mem_append,List.mem_cons,
      List.not_mem_nil,or_false,List.mem_map,List.mem_range] at ha
    omega

theorem isset_zeros (n b : Nat) : (Bitmap.mk n zeros).isset b = false := by
  rw [Bitmap.isset_eq]
  simp [zeros]

theorem rootInode_fits : rootInode.Fits :=
  ⟨by decide,by decide,by decide,fun _ => Nat.two_pow_pos 32,by decide⟩

theorem mksfs_writes (h : mksfs volname stSize image = .ok d) (hn : stSize.val / sfsBlocksize = n) :
    ∃ name buf, checkVolname volname = .ok name ∧ 0 < n ∧ sfsBitblocks n ≤ maxbitblocks ∧
      (mksfsBits n).foldlM doallocbit zeros = .ok buf ∧ d.blocks = n ∧ d.results = [] ∧
      d.sector sfsSbLocation =
        clip (encodeSuper ⟨sfsMagic,n,fun k => (name[k]?).getD 0⟩) ∧
      d.sector sfsRootLocation = clip (encodeInode rootInode) ∧
      ∀ j, j < sfsBitblocks n → d.sector (sfsMapLocation + j) =
        clip fun k => buf (j * sfsBlocksize + k) := by
  unfold mksfs at h
  rw [hn] at h
  obtain ⟨name,hname,h⟩ := except_bind_ok h
  obtain ⟨d1,hsuper,h⟩ := except_bind_ok h
  obtain ⟨d2,hroot,h⟩ := except_bind_ok h
  unfold writesuper at hsuper
  split at hsuper
  · cases hsuper
  obtain ⟨hpos,rfl⟩ := diskwrite_ok hsuper
  obtain ⟨_,rfl⟩ := diskwrite_ok hroot
  unfold writebitmap at h
  split at h
  · cases h
  · next hmax =>
    obtain ⟨buf,hbits,h⟩ := except_bind_ok h
    obtain ⟨hblocks,hres,_,hin,hout⟩ := diskwrites_ok h
    have hsup : d.sector sfsSbLocation = _ := hout 0 (.inl (by decide))
    have hino : d.sector sfsRootLocation = _ := hout 1 (.inl (by decide))
    refine ⟨name,buf,hname,hpos,Nat.le_of_not_lt hmax,hbits,hblocks,hres,?_,?_,hin⟩
    · rw [hsup]
      rfl
    · rw [hino]
      rfl

theorem mksfs_formatted
    (h : mksfs volname stSize image = .ok d) : Formatted (stSize / sfsBlocksize) d := by
  have hlt : stSize.val / sfsBlocksize < 2^22 := by
    have := stSize.isLt
    unfold sfsBlocksize
    omega
  obtain ⟨name,buf,_,hpos,hmax,hbits,hblocks,hres,hsup,hino,hmap⟩ := mksfs_writes h rfl
  generalize stSize.val / sfsBlocksize = n at *
  obtain ⟨hnd,_,hset⟩ := doallocbits_ok hbits
  have hdec := decode_encodeSuper (m := sfsMagic) (n := n) (by decide) (by omega)
    fun k => (name[k]?).getD 0
  have hbb := (bitblocks_eq hlt).1
  refine ⟨hblocks,hres,mksfsBits_low hpos hlt hnd,?_,?_,?_,?_,buf,fun b => ?_,hmap⟩
  · unfold maxbitblocks at hmax
    omega
  · rw [hsup]
    exact hdec.1
  · rw [hsup]
    exact hdec.2
  · rw [hino]
    exact (decodeInode_clip _).trans (decode_encodeInode rootInode_fits)
  · rw [hset,isset_zeros,Bool.or_false]

end Written

section Mounted

variable {n : Nat} {d : Device}

def Device.map (d : Device) (n : Nat) : Buffer := fun k =>
  if k < n * sfsBlocksize then d.sector (sfsMapLocation + k / sfsBlocksize) (k % sfsBlocksize) else 0

def Device.mounted (d : Device) : Fs :=
  ⟨d.super,false,⟨sfsBitmapsize d.super.nblocks,d.map (sfsBitblocks d.super.nblocks)⟩,false,[],d,[]⟩

theorem mounted_map (d : Device) : d.mounted.freemap.v = d.map (sfsBitblocks d.super.nblocks) := rfl

theorem mounted_onDisk {d : Device} (hmagic : d.super.magic = sfsMagic) : OnDisk d.mounted := by
  refine ⟨rfl,rfl,hmagic,fun _ j k hj hk => ?_⟩
  have hj : j < sfsBitblocks d.super.nblocks := hj
  rw [mounted_map,Device.map,sfsBlocksize,if_pos (by omega),show (j * 512 + k) / 512 = j by omega,
    show (j * 512 + k) % 512 = k by omega]
  rfl

theorem map_zero (d : Device) : d.map 0 = zeros := by
  funext k
  simp [Device.map,zeros]

theorem map_succ (d : Device) (j : Nat) : splice (d.map j) (j * sfsBlocksize) sfsBlocksize
    (clip (d.sector (sfsMapLocation + j))) 0 = d.map (j + 1) := by
  funext k
  unfold Device.map sfsBlocksize
  by_cases hk : j * 512 ≤ k ∧ k < j * 512 + 512
  · have hdiv : k / 512 = j := by omega
    rw [splice_inside hk.1 hk.2,clip_apply (by omega),if_pos (by omega),hdiv]
    congr 1
    omega
  · rw [splice_outside (by omega)]
    exact if_congr (by omega) rfl rfl

theorem create_eq (h : n % 8 = 0) (hn : n + 7 < 2^32) : Bitmap.create n = .ok ⟨n,zeros⟩ := by
  have hw : ¬ n / Bitmap.bitsPerWord < Bitmap.words n := by
    rw [Bitmap.words_eq hn,Bitmap.bitsPerWord]
    omega
  exact if_neg hw

theorem sfsMapio_read {s : Fs} (hres : s.dev.results = []) (hsmall : s.dev.blocks < 2^22)
    (hz : s.freemap.v = zeros) (hn : sfsMapLocation + sfsBitblocks s.super.nblocks ≤ s.dev.blocks) :
    sfsMapio .read s = .ok () { s with freemap :=
      { s.freemap with v := s.dev.map (sfsBitblocks s.super.nblocks) } } := by
  have hloop : (sfsMapio .read s).Safe (fun _ t => t = { s with freemap :=
      { s.freemap with v := s.dev.map (0 + sfsBitblocks s.super.nblocks) } })
      fun _ _ => False := by
    rw [sfsMapio,get_bind]
    refine Outcome.Safe.loop (I := fun j _ t => t = { s with freemap :=
      { s.freemap with v := s.dev.map j } }) _ ?_ fun j _ t _ hj ht => ?_
    · rw [map_zero,← hz]
    · subst ht
      have hread : sfsRblock (sfsMapLocation + j) { s with freemap :=
          { s.freemap with v := s.dev.map j } } = .ok (clip (s.dev.sector (sfsMapLocation + j)))
          { s with freemap := { s.freemap with v := s.dev.map j } } :=
        sfsRblock_eq (b := sfsMapLocation + j) (show _ < s.dev.blocks by omega) hsmall hres
      rw [mapioBlock,bind_ok hread,← map_succ]
      rfl
  rw [Nat.zero_add] at hloop
  obtain ⟨_,t,hok,rfl⟩ := hloop.returns
  exact hok

theorem mountBitmap_eq {s : Fs} (hk : s.kmallocs = []) (hn : s.super.nblocks ≤ 131072) :
    mountBitmap s = .ok () { s with freemap := ⟨sfsBitmapsize s.super.nblocks,zeros⟩ } := by
  obtain ⟨_,hlt,hmod⟩ := bitmapsize_bounds hn
  rw [mountBitmap,bind_ok (kmalloc_eq hk),bind_ok (kmalloc_eq hk),get_bind,
    create_eq hmod (by omega)]
  rfl

/-- A disk with a sound superblock can be mounted. -/
theorem sfsDomount_eq (hres : d.results = []) (hsmall : d.blocks < 2^22)
    (hmagic : d.super.magic = sfsMagic) (hn : d.super.nblocks ≤ 131072)
    (hlow : sfsMapLocation + sfsBitblocks d.super.nblocks ≤ d.blocks) :
    sfsDomount (Fs.blank d) = .ok () d.mounted := by
  have hpos : sfsSbLocation < d.blocks := by
    unfold sfsSbLocation sfsMapLocation at *
    omega
  have hread : sfsRblock sfsSbLocation (Fs.blank d) =
      .ok (clip (d.sector sfsSbLocation)) (Fs.blank d) :=
    sfsRblock_eq (s := Fs.blank d) hpos hsmall hres
  have hmagic' : ¬ (decodeSuper (clip (d.sector sfsSbLocation))).magic ≠ sfsMagic := not_not.mpr hmagic
  have hbitmap : mountBitmap ⟨d.super,false,⟨0,zeros⟩,false,[],d,[]⟩ =
      .ok () ⟨d.super,false,⟨sfsBitmapsize d.super.nblocks,zeros⟩,false,[],d,[]⟩ :=
    mountBitmap_eq rfl hn
  have hmapio : sfsMapio .read
      ⟨d.super,false,⟨sfsBitmapsize d.super.nblocks,zeros⟩,false,[],d,[]⟩ = .ok () d.mounted :=
    sfsMapio_read hres hsmall rfl hlow
  rw [sfsDomount,bind_ok (kmalloc_eq rfl),bind_ok (kmalloc_eq rfl),modify_to (t := Fs.blank d) rfl,
    bind_ok hread,if_neg hmagic',modify_to (t := ⟨d.super,false,⟨0,zeros⟩,false,[],d,[]⟩) rfl,
    bind_ok hbitmap,bind_ok hmapio]
  rfl

end Mounted

section Volume

variable {n : Nat} {d : Device} {s : Fs}

theorem Formatted.super (h : Formatted n d) : d.super.magic = sfsMagic ∧ d.super.nblocks = n := by
  have hmagic := h.magic
  have hnb := h.nblocks
  simp only [decodeSuper] at hmagic hnb
  simp only [Device.super,decodeSuper]
  rw [be32_clip (by omega),be32_clip (by omega)]
  exact ⟨hmagic,hnb⟩

theorem Formatted.domount (h : Formatted n d) : sfsDomount (Fs.blank d) = .ok () d.mounted := by
  obtain ⟨hmagic,hnb⟩ := h.super
  refine sfsDomount_eq h.results ?_ hmagic ?_ ?_
  · have := h.high
    rw [h.blocks]
    omega
  · rw [hnb]
    exact h.high
  · rw [hnb,h.blocks]
    exact h.low

variable {volname : Name} {stSize : Fin (2^31)} {image : Nat → Block}

theorem volume_mounted (h : volume volname stSize image = some s) :
    ∃ d, Formatted (stSize / sfsBlocksize) d ∧ s = d.mounted := by
  unfold volume at h
  split at h
  · cases h
  · next d hd =>
    have hf := mksfs_formatted hd
    rw [hf.domount] at h
    exact ⟨d,hf,(Option.some.inj h).symm⟩

theorem Formatted.isset (h : Formatted n d) {b : Nat} (hb : b < sfsBitmapsize n) :
    d.mounted.freemap.isset b = decide (b ∈ mksfsBits n) := by
  obtain ⟨buf,hset,hsec⟩ := h.map
  have hnb := h.super.2
  have hsize : sfsBitmapsize n = sfsBitblocks n * 4096 := by
    have := bitblocks_eq (n := n) (by have := h.high; omega)
    omega
  have hbyte : d.mounted.freemap.v (b / 8) = buf (b / 8) := by
    have hdiv : b / 8 / 512 < sfsBitblocks n := by omega
    rw [mounted_map,hnb]
    unfold Device.map sfsBlocksize
    rw [if_pos (by omega),hsec _ hdiv,clip_apply (by omega),sfsBlocksize]
    exact congrArg buf (by omega)
  rw [Bitmap.isset_eq,hbyte,← hset,Bitmap.isset_eq]

theorem Formatted.size (h : Formatted n d) : d.mounted.root.size = 0 := by
  show (decodeInode (d.sector sfsRootLocation)).size = 0
  rw [h.root]
  rfl

theorem Formatted.unused (h : Formatted n d) (k : Nat) :
    ¬ d.mounted.root.used k := by
  rintro ⟨hk,_⟩
  rw [File.slots,h.size] at hk
  simp at hk

theorem Formatted.live (h : Formatted n d) {i : Nat} : Live d.mounted i ↔ i = sfsRootLocation := by
  constructor
  · rintro (hi | ⟨k,hk,_⟩ | hi)
    · exact hi
    · exact (h.unused k hk).elim
    · cases hi
  · rintro rfl
    exact live_root _

theorem Formatted.inv (h : Formatted n d) : Inv d.mounted := by
  have hnb : d.mounted.super.nblocks = n := h.super.2
  have hroot : d.mounted.inodeAt sfsRootLocation = rootInode := h.root
  have hblk : ∀ k, d.mounted.blockAt sfsRootLocation k = 0 := fun k => by
    simp [Fs.blockAt,hroot,rootInode]
  have hhigh := h.high
  have hlow := h.low
  obtain ⟨hbb,hbm⟩ := bitblocks_eq (n := n) (by omega)
  have hheld : ∀ b, d.mounted.held b ↔ b = 0 ∨ b = 1 ∨ (2 ≤ b ∧ b < 2 + sfsBitblocks n) := by
    intro b
    rw [Fs.held,hnb]
    by_cases hb : b < n
    · rw [h.isset (by omega),decide_eq_true_eq,mem_mksfsBits]
      omega
    · omega
  have hgeo : Geometry d.mounted := by
    refine ⟨hnb ▸ hlow,hnb ▸ hhigh,?_,?_,rfl,fun b hge hlt => ?_,h.results,rfl⟩
    · rw [hnb]
      exact h.blocks.ge
    · show d.blocks < _
      rw [h.blocks]
      omega
    · have hlt : b < sfsBitmapsize d.mounted.super.nblocks := hlt
      rw [hnb] at hge hlt
      rw [h.isset hlt,decide_eq_true_eq,mem_mksfsBits]
      omega
  have hown : ∀ o b, owns d.mounted (Live d.mounted) none o b → o = .super ∧ b = 0 ∨
      o = .inode 1 ∧ b = 1 ∨ ∃ j, o = .map j ∧ j < sfsBitblocks n ∧ b = 2 + j := by
    intro o b ho
    cases o with
    | super => exact .inl ⟨rfl,ho⟩
    | map j => exact .inr (.inr ⟨j,rfl,hnb ▸ ho.1,ho.2⟩)
    | inode i =>
      obtain ⟨hi,rfl⟩ := ho
      rw [h.live] at hi
      subst hi
      exact .inr (.inl ⟨rfl,rfl⟩)
    | indirect i =>
      obtain ⟨hi,hne,hb⟩ := ho
      rw [h.live.mp hi,hroot] at hb
      exact (hne hb.symm).elim
    | slot i k =>
      obtain ⟨hi,hne,hb⟩ := ho
      rw [h.live.mp hi,hblk] at hb
      exact (hne hb.symm).elim
    | pending => cases ho
  refine ⟨⟨⟨hgeo,mounted_onDisk h.super.1,List.nodup_nil,fun v hv => (List.not_mem_nil hv).elim,live_root _,
    fun i hi => ?_⟩,
    ⟨fun o b ho => (hheld b).mpr ?_,fun b hb => ?_,fun o o' b ho ho' => ?_⟩⟩,
    ⟨?_,?_,fun k hk => ?_,fun k k' hk _ _ => ?_⟩,fun i hi => ?_⟩
  · rw [h.live.mp hi,hroot]
    exact ⟨rfl,by decide⟩
  · rcases hown o b ho with ⟨_,hb⟩ | ⟨_,hb⟩ | ⟨j,_,hj,hb⟩ <;> omega
  · rcases (hheld b).mp hb with rfl | rfl | ⟨hge,hlt⟩
    · exact ⟨.super,rfl⟩
    · exact ⟨.inode 1,live_root _,rfl⟩
    · refine ⟨.map (b - 2),?_,?_⟩
      · rw [hnb]
        omega
      · unfold sfsMapLocation
        omega
  · rcases hown o b ho with ⟨rfl,hb⟩ | ⟨rfl,hb⟩ | ⟨j,rfl,_,hb⟩ <;>
      rcases hown o' b ho' with ⟨rfl,hb'⟩ | ⟨rfl,hb'⟩ | ⟨j',rfl,_,hb'⟩ <;>
      first | rfl | omega | (congr 1; omega)
  · rw [h.size]
    rfl
  · rw [h.size]
    exact Nat.zero_le _
  · exact (h.unused k hk).elim
  · exact (h.unused k hk).elim
  · rw [h.live.mp hi]
    have hlinks : d.mounted.root.links sfsRootLocation = 0 := by
      rw [File.links,File.slots,h.size]
      exact Nat.count_zero _
    rw [hlinks]
    show (d.mounted.inodeAt sfsRootLocation).linkcount = _
    rw [hroot]
    rfl

theorem volume_inv (h : volume volname stSize image = some s) : Inv s := by
  obtain ⟨d,hd,rfl⟩ := volume_mounted h
  exact hd.inv

/-- mksfs and sfs_domount succeed on a disk with room for the freemap. -/
theorem volume_exists {name : List Byte}
    (hname : checkVolname volname = .ok name) (hlen : name.length < sfsVolnameSize)
    (hlow : 2 + sfsBitblocks (stSize / sfsBlocksize) ≤ stSize / sfsBlocksize)
    (hmax : sfsBitblocks (stSize / sfsBlocksize) ≤ maxbitblocks) (image : Nat → Block) :
    ∃ s, volume volname stSize image = some s := by
  have hmk : ∃ d, mksfs volname stSize image = .ok d := by
    unfold mksfs
    generalize stSize.val / sfsBlocksize = n at hlow hmax
    obtain ⟨buf,hbuf⟩ := doallocbits_exists (mksfsBits_nodup hlow)
      fun b _ => isset_zeros 0 b
    have hsuper : ∀ i, ∃ d1, writesuper name n ⟨n,i,[]⟩ = .ok d1 ∧ d1.blocks = n := fun i => by
      unfold writesuper
      rw [if_neg (by omega),diskwrite_eq (show sfsSbLocation < n by unfold sfsSbLocation; omega)]
      exact ⟨_,rfl,rfl⟩
    obtain ⟨d1,hd1,hb1⟩ := hsuper image
    have hroot : ∃ d2, writerootdir d1 = .ok d2 ∧ d2.blocks = n := by
      unfold writerootdir
      rw [diskwrite_eq (show sfsRootLocation < d1.blocks by unfold sfsRootLocation; omega)]
      exact ⟨_,rfl,hb1⟩
    obtain ⟨d2,hd2,hb2⟩ := hroot
    obtain ⟨d3,hd3⟩ := diskwrites_exists (d := d2) (m := sfsBitblocks n)
      (fun i k => buf (i * sfsBlocksize + k)) (by rw [hb2]; exact hlow)
    refine ⟨d3,?_⟩
    rw [hname]
    show (writesuper name n ⟨n,image,[]⟩ >>= fun d => writerootdir d >>= writebitmap n) = _
    rw [hd1]
    show (writerootdir d1 >>= writebitmap n) = _
    rw [hd2]
    show writebitmap n d2 = _
    unfold writebitmap
    rw [if_neg (by omega),hbuf]
    exact hd3
  obtain ⟨d,hd⟩ := hmk
  refine ⟨d.mounted,?_⟩
  unfold volume
  rw [hd]
  simp only
  rw [(mksfs_formatted hd).domount]

end Volume

/-- The names that mksfs accepts as they are. -/
structure Name.Legal (volname : Name) : Prop where
  length : volname.chars.length ≤ 31
  colon : (58 : Byte) ∉ volname.chars
  slash : (47 : Byte) ∉ volname.chars

theorem checkVolname_legal {volname : Name} (h : volname.Legal) :
    checkVolname volname = .ok volname.chars := by
  have hcolon : ∀ c ∈ volname.chars, decide (c ≠ 58) = true := fun c hc =>
    decide_eq_true fun heq => h.colon (heq ▸ hc)
  have htake : volname.chars.takeWhile (fun c => decide (c ≠ 58)) = volname.chars :=
    List.takeWhile_eq_self_iff.mpr hcolon
  have hdrop : volname.chars.dropWhile (fun c => decide (c ≠ 58)) = [] :=
    List.dropWhile_eq_nil_iff.mpr hcolon
  rw [checkVolname,hdrop,htake]
  exact if_neg (by simpa using h.slash)

theorem cstring_chars {chars : List Byte} {b : Buffer} {n : Nat} (hnul : 0 ∉ chars)
    (hlen : chars.length < n) (hb : ∀ k, k < n → b k = (chars[k]?).getD 0) :
    cstring b n = chars := by
  obtain ⟨m,rfl⟩ : ∃ m, n = chars.length + (m + 1) := ⟨n - chars.length - 1,by omega⟩
  have hfirst : (List.range chars.length).map b = chars := by
    refine List.ext_getElem (by simp) fun k hk hk' => ?_
    rw [List.getElem_map,List.getElem_range,hb k (by omega),List.getElem?_eq_getElem hk']
    rfl
  have hnext : b chars.length = 0 := by
    rw [hb _ (by omega),List.getElem?_eq_none (Nat.le_refl _)]
    rfl
  rw [cstring,List.range_add,List.map_append,hfirst,List.takeWhile_append_of_pos,
    List.range_succ_eq_map]
  · simp [hnext]
  · intro c hc
    refine decide_eq_true ?_
    rintro rfl
    exact hnul hc

theorem super_volname {d : Device} {n : Nat} {chars : List Byte} (hnul : 0 ∉ chars)
    (hlen : chars.length ≤ 31) (hd : d.sector sfsSbLocation =
      clip (encodeSuper ⟨sfsMagic,n,fun k => (chars[k]?).getD 0⟩)) :
    cstring d.super.volname sfsVolnameSize = chars := by
  refine cstring_chars hnul (by unfold sfsVolnameSize; omega) fun k hk => ?_
  unfold sfsVolnameSize at hk
  simp only [Device.super,decodeSuper,sfsVolnameSize]
  by_cases hlast : k = 31
  · subst hlast
    rw [update_self,List.getElem?_eq_none hlen]
    rfl
  · rw [update_of_ne hlast,hd,clip_apply (by omega),clip_apply (by omega)]
    simp only [encodeSuper]
    rw [if_neg (by omega),if_neg (by omega),if_pos (by omega),Nat.add_sub_cancel]

def sfsBallocs : Nat → SfsM (List Nat)
  | 0 => pure []
  | n+1 => do
    let b ← sfsBalloc
    let bs ← sfsBallocs n
    pure (b :: bs)

theorem Geometry.setSector {s : Fs} (h : Geometry s) (b : Nat) (blk : Block) :
    Geometry (s.setSector b blk) :=
  ⟨h.low,h.high,h.disk,h.small,h.nbits,h.beyond,h.results,h.kmallocs⟩

theorem Geometry.taken {s : Fs} (h : Geometry s) (b : Nat) : Geometry (s.taken b) :=
  (h.mark b).setSector b _

/-- Allocations hand out different free blocks of the volume, until there are none. -/
theorem Geometry.ballocs {s : Fs} (h : Geometry s) (k : Nat) :
    (sfsBallocs k s).Safe (fun bs _ => bs.Nodup ∧ ∀ b ∈ bs, s.free b) fun e _ => e = .ENOSPC := by
  induction k generalizing s with
  | zero => exact ⟨List.nodup_nil,nofun⟩
  | succ k ih =>
    rw [sfsBallocs]
    rcases h.balloc with ⟨b,hb,hfree⟩ | ⟨hfull,_⟩
    · rw [bind_ok hb]
      refine Outcome.Safe.bind (ih (h.taken b)) (fun bs t hbs => ?_) fun _ _ he => he
      have hheld : ∀ c, (s.taken b).held c ↔ s.held c ∨ c = b := held_mark hfree.2
      refine ⟨List.nodup_cons.mpr ⟨fun hmem => ?_,hbs.1⟩,fun c hc => ?_⟩
      · exact (hbs.2 b hmem).1 ((hheld b).mpr (.inr rfl))
      · rcases List.mem_cons.mp hc with rfl | hc
        · exact hfree
        · exact ⟨fun hh => (hbs.2 c hc).1 ((hheld c).mpr (.inl hh)),(hbs.2 c hc).2⟩
    · rw [bind_err hfull]
      exact rfl

section Agreement

variable {n : Nat} {volname : Name} {stSize : Fin (2^31)}

theorem low_of_range (hlow : 3 ≤ n) (hhigh : n ≤ 131072) :
    2 + sfsBitblocks n ≤ n ∧ sfsBitblocks n ≤ maxbitblocks := by
  have hbb := (bitblocks_eq (n := n) (by omega)).1
  unfold maxbitblocks
  omega

theorem isset_reserved {d : Device} (h : Formatted n d) {b : Nat} (hb : b < sfsBitmapsize n) :
    d.mounted.freemap.isset b = true ↔
      b = 0 ∨ b = 1 ∨ (2 ≤ b ∧ b < 2 + sfsBitblocks n) ∨ n ≤ b := by
  have hhigh := h.high
  have hsize := (bitmapsize_bounds hhigh).1
  rw [h.isset hb,decide_eq_true_iff,mem_mksfsBits]
  omega

/-- mksfs and the kernel agree on every disk and every name. -/
theorem mksfs_mounts (hlow : 3 ≤ n) (hhigh : n ≤ 131072) (hn : stSize.val / sfsBlocksize = n)
    (hname : volname.Legal) (image : Nat → Block) :
    ∃ d s, mksfs volname stSize image = .ok d ∧ sfsDomount (Fs.blank d) = .ok () s ∧
      s.super.nblocks = n ∧ cstring s.super.volname sfsVolnameSize = volname.chars ∧
      decodeInode (s.dev.sector sfsRootLocation) = ⟨0,.dir,1,fun _ => 0,0⟩ ∧
      s.freemap.nbits = sfsBitmapsize n ∧
      (∀ b < sfsBitmapsize n, s.freemap.isset b = true ↔
        b = 0 ∨ b = 1 ∨ (2 ≤ b ∧ b < 2 + sfsBitblocks n) ∨ n ≤ b) ∧
      ∀ k, (sfsBallocs k s).Safe
        (fun bs _ => bs.Nodup ∧ ∀ b ∈ bs, 2 + sfsBitblocks n ≤ b ∧ b < n)
        fun e _ => e = .ENOSPC := by
  obtain ⟨hroom,hmax⟩ := low_of_range hlow hhigh
  obtain ⟨s,hs⟩ := volume_exists (checkVolname_legal hname)
    (by have := hname.length; unfold sfsVolnameSize; omega) (by rw [hn]; exact hroom)
    (by rw [hn]; exact hmax) image
  cases hd : mksfs volname stSize image with
  | error e =>
    rw [volume,hd] at hs
    cases hs
  | ok d =>
    have hf := mksfs_formatted hd
    rw [hn] at hf
    obtain ⟨chars,_,hchars,_,_,_,_,_,hsuper,_,_⟩ := mksfs_writes hd hn
    rw [checkVolname_legal hname] at hchars
    cases hchars
    have hnb := hf.super.2
    have hgeo := hf.inv.own.geo
    refine ⟨d,d.mounted,rfl,hf.domount,hnb,super_volname volname.nul hname.length hsuper,hf.root,?_,
      fun b hb => isset_reserved hf hb,fun k => ?_⟩
    · show sfsBitmapsize d.super.nblocks = _
      rw [hnb]
    · refine (hgeo.ballocs k).mono (fun bs t hbs => ⟨hbs.1,fun b hb => ?_⟩) fun _ _ he => he
      obtain ⟨hfree,hlt⟩ := hbs.2 b hb
      have hlt : b < n := lt_of_lt_of_eq hlt hnb
      -- A block of the volume that is not marked is behind the freemap.
      refine ⟨?_,hlt⟩
      by_contra hres
      refine hfree ⟨by rw [show d.mounted.super.nblocks = n from hnb]; exact hlt,?_⟩
      have hsize := (bitmapsize_bounds hhigh).1
      exact (isset_reserved hf (by omega)).mpr (by omega)

/-- A disk whose freemap takes two blocks. -/
def mediumDisk : Fin (2^31) := ⟨5000 * 512,by decide⟩

def aVolume : Name := ⟨[109,121,118,111,108],by decide⟩

theorem mksfs_mounts_mediumDisk : ∃ d s, mksfs aVolume mediumDisk (fun _ => zeros) = .ok d ∧
    sfsDomount (Fs.blank d) = .ok () s ∧ s.super.nblocks = 5000 ∧
    cstring s.super.volname sfsVolnameSize = aVolume.chars := by
  have hsize : mediumDisk.val / sfsBlocksize = 5000 := by decide
  have hlegal : aVolume.Legal := ⟨by decide,by decide,by decide⟩
  obtain ⟨d,s,hd,hs,hnb,hname,_⟩ := mksfs_mounts (n := 5000) (by decide) (by decide) hsize hlegal
    fun _ => zeros
  exact ⟨d,s,hd,hs,hnb,hname⟩

end Agreement

end MipsOs.Sfs
