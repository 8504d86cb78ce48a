import MipsOs.SfsBlockMap

/-! sfs_io, writing. A transfer is cut into parts of blocks; together they copy
the buffer of the uio to the bytes of the file. -/

set_option autoImplicit false
namespace MipsOs.Sfs
open Bytes Prog Ledger

section Lift

variable {α : Type} {s t : Fs} {u w : Uio} {a : α} {e : Errno}

variable {f : SfsM α} {o : Nat}

theorem onFs_ok (h : f s = .ok a t) : onFs f (s,u) = .ok a (t,u) := by
  simp only [onFs,zoom,h]

theorem onFs_err (h : f s = .err e t) : onFs f (s,u) = .err e (t,u) := by
  simp only [onFs,zoom,h]

theorem onFs_panic {p : Panic} (h : f s = .panic p) : onFs f (s,u) = .panic p := by
  simp only [onFs,zoom,h]

theorem onUio_ok {f : Prog Uio Errno Panic α} (h : f u = .ok a w) :
    onUio f (s,u) = .ok a (s,w) := by
  simp only [onUio,zoom,h]

theorem onUio_err {f : Prog Uio Errno Panic α} (h : f u = .err e w) :
    onUio f (s,u) = .err e (s,w) := by
  simp only [onUio,zoom,h]

theorem faulty_iff (u : Uio) (n : Nat) :
    u.faulty n = true ↔ ∃ i, i < n ∧ u.faults (u.base + i) = true := by
  simp [Uio.faulty]

theorem exists_fault {u : Uio} {n : Nat} (h : u.faulty n = true) : ∃ i, u.faults i = true := by
  obtain ⟨i,_,hi⟩ := (faulty_iff u n).mp h
  exact ⟨_,hi⟩

theorem fileblock_eq (hoff : u.offset = (o : Int)) (ho : o < 2^31) :
    toU32 (u.offset.tdiv sfsBlocksize) = o / 512 := by
  rw [hoff]
  exact toU32_tdiv (by omega) 512

theorem blkoff_eq (hoff : u.offset = (o : Int)) (ho : o < 2^31) :
    toU32 (u.offset.tmod sfsBlocksize) = o % 512 := by
  rw [hoff]
  exact toU32_tmod (by omega) 512

end Lift

section Data

variable {s : Fs} {L : Nat → Prop} {ino fb b : Nat}

def File.patch (f : File) (o n : Nat) (src : Buffer) (k : Nat) : File :=
  { f with byte := splice f.byte o n src k }

@[simp] theorem patch_nothing (f : File) (o : Nat) (src : Buffer) (k : Nat) :
    f.patch o 0 src k = f := by
  simp [File.patch]

theorem patch_patch (f : File) (o n m : Nat) (src : Buffer) (k : Nat) :
    (f.patch o n src k).patch (o+n) m src (k+n) = f.patch o (n+m) src k := by
  simp only [File.patch,splice_splice]

theorem splice_congr {dst src src' : Buffer} {i n k k' : Nat}
    (h : ∀ j, j < n → src (j + k) = src' (j + k')) :
    splice dst i n src k = splice dst i n src' k' := by
  funext j
  by_cases hj : i ≤ j ∧ j < i + n
  · rw [splice_inside hj.1 hj.2,splice_inside hj.1 hj.2]
    exact h _ (by omega)
  · rw [splice_outside (by omega),splice_outside (by omega)]

theorem Own.writeData (h : Own s L none) (ho : owns s L none (.slot ino fb) b) (blk : Block) :
    Own (s.setSector b blk) L none ∧
      Becomes L ino ((s.fileAt ino).patch (fb * 512) 512 blk 0) s (s.setSector b blk) := by
  have hp := h.plain_of_slot ho
  refine ⟨h.setSector hp blk,rfl,rfl,?_,fun i hL hne => ?_⟩
  · simp only [Fs.fileAt,File.patch,hp.inodeAt blk ho.1,File.mk.injEq,true_and,and_true]
    funext p
    rw [hp.byteAt blk ho.1]
    have hb : s.blockAt ino (p / 512) = b ↔ p / 512 = fb := by
      constructor
      · intro he
        have hu := h.exact.unique (.slot ino (p / 512)) (.slot ino fb) b ⟨ho.1,ho.2.1,he⟩ ho
        exact (Owner.slot.inj hu).2
      · rintro rfl
        exact ho.2.2
    by_cases hin : p / 512 = fb
    · rw [if_pos (hb.mpr hin),splice_inside (by omega) (by omega)]
      congr 1
      omega
    · rw [if_neg fun he => hin (hb.mp he),splice_outside (by omega)]
  · refine fileAt_congr (hp.inodeAt blk hL) fun p => ?_
    rw [hp.byteAt blk hL,if_neg fun he => ?_]
    have hu := h.exact.unique (.slot i (p / 512)) (.slot ino fb) b ⟨hL,ho.2.1,he⟩ ho
    exact hne (Owner.slot.inj hu).1

theorem byteAt_slot (ho : owns s L none (.slot ino fb) b) {k : Nat} (hk : k < 512) :
    s.byteAt ino (fb * 512 + k) = s.dev.sector b k := by
  have hdiv : (fb * 512 + k) / 512 = fb := by omega
  have hmod : (fb * 512 + k) % 512 = k := by omega
  simp only [Fs.byteAt,hdiv,hmod,ho.2.2,if_neg ho.2.1]

theorem owns_slot_lt (ho : owns s L none (.slot ino fb) b) : fb < 143 := by
  by_contra hge
  have hz : s.blockAt ino fb = 0 := by
    simp only [Fs.blockAt]
    rw [dif_neg (by omega),if_neg (by omega)]
  exact ho.2.1 (ho.2.2 ▸ hz)

end Data

section Write

/-- A write that has come to the offset `o`. -/
structure Uio.WritesAt (u : Uio) (o : Nat) : Prop where
  rw : u.rw = .write
  offset : u.offset = (o : Int)
  lt : o < 2^31

structure Wrote (L : Nat → Prop) (ino o n : Nat) (x y : Fs × Uio) : Prop where
  own : Own y.1 L none
  uio : y.2 = x.2.advance n
  becomes : Becomes L ino ((x.1.fileAt ino).patch o n x.2.buf x.2.base) x.1 y.1
  bound : n = 0 ∨ o + n ≤ 143 * 512

/-- The same, and the blocks that come after those bytes are mapped as before. -/
structure Advanced (L : Nat → Prop) (ino o n : Nat) (x y : Fs × Uio) : Prop
    extends Wrote L ino o n x y where
  later : ∀ k, o + n ≤ k * 512 → y.1.blockAt ino k = x.1.blockAt ino k

/-- Why a write of `len` bytes stops after `n` of them. -/
def WriteError (ino o n len : Nat) (x : Fs × Uio) (e : Errno) : Prop :=
  e = .ENOSPC ∧ x.1.blockAt ino ((o + n) / 512) = 0 ∨
  e = .EINVAL ∧ 143 * 512 < o + max 1 len ∨
  e = .EFAULT ∧ ∃ i, x.2.faults i = true

variable {L : Nat → Prop} {ino o n m len : Nat} {x y z : Fs × Uio}

theorem Wrote.refl (h : Own x.1 L none) (ino o : Nat) : Wrote L ino o 0 x x where
  own := h
  uio := by simp
  becomes := by
    rw [patch_nothing]
    exact Becomes.refl L ino x.1
  bound := .inl rfl

theorem Advanced.refl (h : Own x.1 L none) (ino o : Nat) : Advanced L ino o 0 x x :=
  ⟨Wrote.refl h ino o,fun _ _ => rfl⟩

theorem Wrote.trans (h : Wrote L ino o n x y) (h' : Wrote L ino (o + n) m y z) :
    Wrote L ino o (n + m) x z where
  own := h'.own
  uio := by rw [h'.uio,h.uio,advance_advance]
  becomes := by
    have hb := h'.becomes
    rw [h.becomes.self,h.uio] at hb
    simp only [Uio.advance] at hb
    rw [patch_patch] at hb
    exact h.becomes.trans hb
  bound := by
    have h1 := h.bound
    have h2 := h'.bound
    omega

theorem Advanced.trans (h : Advanced L ino o n x y) (h' : Advanced L ino (o + n) m y z) :
    Advanced L ino o (n + m) x z where
  toWrote := h.toWrote.trans h'.toWrote
  later k hk := (h'.later k (by omega)).trans (h.later k (by omega))

variable {e : Errno} {len' fb skip b : Nat} {s t : Fs} {u : Uio}

/-- A write of `len` bytes can only end at its beginning or between two blocks. -/
def Breaks (o len n : Nat) : Prop := n = 0 ∨ n < len ∧ (o + n) % 512 = 0

def Stopped (L : Nat → Prop) (ino o len : Nat) (x : Fs × Uio) (e : Errno) (y : Fs × Uio) : Prop :=
  ∃ n, Breaks o len n ∧ Wrote L ino o n x y ∧ WriteError ino o n len x e

theorem Advanced.stopped (h : Advanced L ino o n x y) (h' : Stopped L ino (o + n) m y e z)
    (hat : n = 0 ∧ y = x ∨ 0 < m ∧ (o + n) % 512 = 0) (hle : n + m ≤ len) :
    Stopped L ino o len x e z := by
  obtain ⟨k,hk,hw,he⟩ := h'
  refine ⟨n + k,?_,h.toWrote.trans hw,?_⟩
  · unfold Breaks at hk ⊢
    omega
  · rcases he with ⟨rfl,hz⟩ | ⟨rfl,hlt⟩ | ⟨rfl,hf⟩
    · refine .inl ⟨rfl,?_⟩
      rw [← Nat.add_assoc]
      rcases hat with ⟨_,rfl⟩ | ⟨_,hal⟩
      · exact hz
      · rwa [h.later _ (by omega)] at hz
    · exact .inr (.inl ⟨rfl,by omega⟩)
    · rw [h.uio] at hf
      exact .inr (.inr ⟨rfl,hf⟩)

theorem Allocs.wrote (h : Allocs L ino fb s t) (o : Nat) : Wrote L ino o 0 (s,u) (t,u) where
  own := h.own
  uio := by simp
  becomes := by
    rw [patch_nothing]
    exact h.becomes
  bound := .inl rfl

theorem stopped_unmapped (hall : ∀ k, Allocs L ino k s t)
    (he : e = .ENOSPC ∧ s.blockAt ino (o / 512) = 0 ∨ e = .EINVAL ∧ 143 ≤ o / 512) :
    Stopped L ino o len (s,u) e (t,u) := by
  refine ⟨0,.inl rfl,(hall (o / 512)).wrote o,?_⟩
  rcases he with ⟨rfl,hz⟩ | ⟨rfl,hge⟩
  · exact .inl ⟨rfl,hz⟩
  · exact .inr (.inl ⟨rfl,by omega⟩)

theorem patch_part (f : File) {sec : Buffer} {len k : Nat} {src : Buffer}
    (hsec : ∀ j, j < 512 → f.byte (fb * 512 + j) = sec j) (hlen : skip + len ≤ 512) :
    f.patch (fb * 512) 512 (clip fun j => if j < skip then clip sec j else
      splice (fun i => clip sec (skip + i)) 0 len src k (j - skip)) 0 =
      f.patch (fb * 512 + skip) len src k := by
  simp only [File.patch,File.mk.injEq,true_and,and_true]
  funext p
  by_cases hp : fb * 512 ≤ p ∧ p < fb * 512 + 512
  · rw [splice_inside hp.1 hp.2,Nat.add_zero,clip_apply (by omega)]
    by_cases hs : p - fb * 512 < skip
    · rw [if_pos hs,clip_apply (by omega),← hsec _ (by omega),splice_outside (by omega)]
      congr 1
      omega
    · rw [if_neg hs]
      by_cases hl : p - fb * 512 - skip < len
      · rw [splice_inside (by omega) (by omega),splice_inside (by omega) (by omega)]
        congr 1
        omega
      · rw [splice_outside (by omega),splice_outside (by omega),clip_apply (by omega),
          ← hsec _ (by omega)]
        congr 1
        omega
  · rw [splice_outside (by omega),splice_outside (by omega)]

theorem Allocs.writeBlock {blk : Block}
    (hall : Allocs L ino fb s t) (hslot : owns t L none (.slot ino fb) b)
    (hpatch : ∀ f : File, (∀ j, j < 512 → f.byte (fb * 512 + j) = t.dev.sector b j) →
      f.patch (fb * 512) 512 blk 0 = f.patch (fb * 512 + skip) len u.buf u.base)
    (hlen : skip + len ≤ 512) (hpos : 0 < skip + len) :
    Advanced L ino (fb * 512 + skip) len (s,u) (t.setSector b blk,u.advance len) := by
  obtain ⟨hown,hbec⟩ := hall.own.writeData hslot blk
  have hlt := owns_slot_lt hslot
  rw [hpatch _ fun j hj => byteAt_slot hslot hj,hall.becomes.self] at hbec
  refine ⟨⟨hown,rfl,hall.becomes.trans hbec,.inr (by omega)⟩,fun k hk => ?_⟩
  rw [← hall.maps ino hslot.1 k (.inr (by omega))]
  exact (hall.own.plain_of_slot hslot).blockAt blk hslot.1 k

def partialBlock (skip len : Nat) (sec : Block) (u : Uio) : Block :=
  clip fun j => if j < skip then clip sec j else
    splice (fun i => clip sec (skip + i)) 0 len u.buf u.base (j - skip)

theorem partialio_mapped (hbmap : sfsBmap ino (o / 512) true s = .ok b t) (hown : Own t L none)
    (hslot : owns t L none (.slot ino (o / 512)) b) (hu : u.WritesAt o) (hlen : o % 512 + len ≤ 512)
    (hres : len ≤ u.resid) :
    sfsPartialio ino (o % 512) len (s,u) = if u.faulty len = true then .err .EFAULT (t,u)
      else .ok ()
        (t.setSector b (partialBlock (o % 512) len (t.dev.sector b) u),u.advance len) := by
  have hdo : (u.rw == .write) = true := by rw [hu.rw]; rfl
  have hspan : o % 512 + len ≤ sfsBlocksize := hlen
  have hbuf : partialioBuf u.rw b (t,u) = .ok (clip (t.dev.sector b)) (t,u) := by
    rw [partialioBuf,if_neg hslot.2.1]
    exact onFs_ok (hown.geo.rblock (hown.lt hslot))
  rw [sfsPartialio,get_bind,assert_bind _ _ _ hspan,fileblock_eq hu.offset hu.lt,hdo,
    bind_ok (onFs_ok hbmap),bind_ok hbuf]
  by_cases hf : u.faulty len = true
  · rw [bind_err (onUio_err (uiomove_fault hres hf)),if_pos hf]
  · rw [bind_ok (onUio_ok (uiomove_write hu.rw hres (Bool.eq_false_iff.mpr hf))),if_pos hu.rw,
      onFs_ok (hown.geo.wblock (hown.lt hslot) _),if_neg hf]
    rfl

theorem partialio_unmapped (hbmap : sfsBmap ino (o / 512) true s = .err e t) (hu : u.WritesAt o)
    (hlen : o % 512 + len ≤ 512) :
    sfsPartialio ino (o % 512) len (s,u) = .err e (t,u) := by
  have hdo : (u.rw == .write) = true := by rw [hu.rw]; rfl
  have hspan : o % 512 + len ≤ sfsBlocksize := hlen
  rw [sfsPartialio,get_bind,assert_bind _ _ _ hspan,fileblock_eq hu.offset hu.lt,hdo,
    bind_err (onFs_err hbmap)]

theorem partialio_write {v : SfsVnode} (h : Own s L none)
    (hv : s.vnode ino = some v) (hu : u.WritesAt o)
    (hlen : o % 512 + len ≤ 512) (hpos : 0 < o % 512 + len) (hres : len ≤ u.resid) :
    (sfsPartialio ino (o % 512) len (s,u)).Safe (fun _ y => Advanced L ino o len (s,u) y)
      fun e y => Stopped L ino o len (s,u) e y := by
  rcases (sfsBmap_write h hv (o / 512)).cases with
    ⟨b,t,hbmap,hall,hslot,_⟩ | ⟨e,t,hbmap,hall,he,_⟩
  · rw [partialio_mapped hbmap hall.own hslot hu hlen hres]
    by_cases hf : u.faulty len = true
    · rw [if_pos hf]
      exact ⟨0,.inl rfl,hall.wrote o,.inr (.inr ⟨rfl,exists_fault hf⟩)⟩
    · rw [if_neg hf]
      have hadv := hall.writeBlock (u := u) hslot (fun f hsec => patch_part f hsec hlen) hlen hpos
      rwa [show o / 512 * 512 + o % 512 = o by omega] at hadv
  · rw [partialio_unmapped hbmap hu hlen]
    exact stopped_unmapped hall he

end Write

section Device

variable {s : Fs} {u : Uio} {b : Nat}

abbrev Uio.forDevice (u : Uio) (b : Nat) : Uio :=
  { u with offset := (b * 512 : Nat), resid := sfsBlocksize }

theorem diskoff_eq (hb : b < 2^22) : toInt32 (b * sfsBlocksize % 2^32) = (b * 512 : Nat) := by
  rw [sfsBlocksize,Nat.mod_eq_of_lt (by omega),toInt32_of_lt (by omega)]

theorem blockioDevice_ok (h : Geometry s) (hb : b < s.super.nblocks) (hres : 512 ≤ u.resid)
    {d : Device} {buf : Buffer} (hsec : lhdSector b (s.dev,u.forDevice b) =
      .ok () (d,{ (u.forDevice b).advance 512 with buf := buf })) :
    blockioDevice b (s,u) = .ok () ({ s with dev := d },{ u.advance 512 with buf := buf }) := by
  obtain ⟨hdisk,hlt⟩ := h.block_lt hb
  have hle : sfsBlocksize ≤ u.resid := hres
  rw [blockioDevice,get_bind,assert_bind _ _ _ hle,diskoff_eq hlt,
    modify_to (t := (s,u.forDevice b)) rfl,
    bind_ok (attempt_ok (rwblock_of_lhdSector rfl rfl hdisk h.small hsec)),
    modify_to (t := ({ s with dev := d },{ u.advance 512 with buf := buf })) ?_,ofExcept_ok]
  simp only [Uio.advance,sfsBlocksize,Nat.sub_self,Nat.zero_add,Prod.mk.injEq,
    Uio.mk.injEq,true_and,and_true]
  push_cast
  omega

theorem blockioDevice_fault (h : Geometry s) (hb : b < s.super.nblocks) (hres : 512 ≤ u.resid)
    (hsec : lhdSector b (s.dev,u.forDevice b) = .err .EFAULT (s.dev,u.forDevice b)) :
    blockioDevice b (s,u) = .err .EFAULT (s,u) := by
  obtain ⟨hdisk,hlt⟩ := h.block_lt hb
  have hle : sfsBlocksize ≤ u.resid := hres
  rw [blockioDevice,get_bind,assert_bind _ _ _ hle,diskoff_eq hlt,
    modify_to (t := (s,u.forDevice b)) rfl,
    bind_ok (attempt_err (rwblock_fault rfl rfl hdisk h.small hsec)),
    modify_to (t := (s,u)) ?_,ofExcept_error]
  obtain ⟨buf,base,offset,resid,rw,faults⟩ := u
  simp [sfsBlocksize]

end Device

section WriteRun

variable {L : Nat → Prop} {ino o n m len : Nat} {x y z : Fs × Uio} {s : Fs} {u : Uio} {v : SfsVnode}

theorem blockio_mapped {t : Fs} {b : Nat} (hbmap : sfsBmap ino (o / 512) true s = .ok b t)
    (hown : Own t L none) (hslot : owns t L none (.slot ino (o / 512)) b) (hu : u.WritesAt o)
    (hres : 512 ≤ u.resid) :
    sfsBlockio ino (s,u) = if u.faulty 512 = true then .err .EFAULT (t,u)
      else .ok () (t.setSector b (splice zeros 0 512 u.buf u.base),u.advance 512) := by
  have hdo : (u.rw == .write) = true := by rw [hu.rw]; rfl
  have hlt := hown.lt hslot
  rw [sfsBlockio,get_bind,fileblock_eq hu.offset hu.lt,hdo,bind_ok (onFs_ok hbmap),if_neg hslot.2.1]
  by_cases hf : u.faulty 512 = true
  · rw [blockioDevice_fault hown.geo hlt hres (lhdSector_write_fault hu.rw rfl hf),if_pos hf]
  · rw [blockioDevice_ok hown.geo hlt hres
      (lhdSector_write hown.geo.results hu.rw rfl (Bool.eq_false_iff.mpr hf)),if_neg hf]
    rfl

theorem blockio_unmapped {t : Fs} {e : Errno} (hbmap : sfsBmap ino (o / 512) true s = .err e t)
    (hu : u.WritesAt o) :
    sfsBlockio ino (s,u) = .err e (t,u) := by
  have hdo : (u.rw == .write) = true := by rw [hu.rw]; rfl
  rw [sfsBlockio,get_bind,fileblock_eq hu.offset hu.lt,hdo,bind_err (onFs_err hbmap)]

theorem patch_whole (f : File) (i : Nat) (src : Buffer) (k : Nat) :
    f.patch i 512 (splice zeros 0 512 src k) 0 = f.patch (i + 0) 512 src k := by
  rw [File.patch,File.patch,Nat.add_zero,splice_congr fun j hj => ?_]
  rw [splice_inside (Nat.zero_le _) (by omega)]
  rfl

theorem blockio_write (h : Own s L none) (hv : s.vnode ino = some v) (hu : u.WritesAt o)
    (hal : o % 512 = 0) (hres : 512 ≤ u.resid) :
    (sfsBlockio ino (s,u)).Safe (fun _ y => Advanced L ino o 512 (s,u) y)
      fun e y => Stopped L ino o 512 (s,u) e y := by
  rcases (sfsBmap_write h hv (o / 512)).cases with
    ⟨b,t,hbmap,hall,hslot,_⟩ | ⟨e,t,hbmap,hall,he,_⟩
  · rw [blockio_mapped hbmap hall.own hslot hu hres]
    cases hf : u.faulty 512 with
    | true =>
      rw [if_pos rfl]
      exact ⟨0,.inl rfl,hall.wrote o,.inr (.inr ⟨rfl,exists_fault hf⟩)⟩
    | false =>
      have hadv := hall.writeBlock (u := u) hslot (fun f _ => patch_whole f _ u.buf u.base)
        (Nat.le_refl 512) (by omega)
      rw [if_neg Bool.false_ne_true]
      rwa [show o / 512 * 512 + 0 = o by omega] at hadv
  · rw [blockio_unmapped hbmap hu]
    exact stopped_unmapped hall he

theorem Wrote.ready (h : Wrote L ino o n (s,u) y) (hv : s.vnode ino = some v)
    (hu : u.WritesAt o) :
    (∃ w, y.1.vnode ino = some w) ∧ y.2.WritesAt (o + n) ∧ y.2.resid = u.resid - n := by
  refine ⟨exists_vnode ?_,⟨?_,?_,?_⟩,?_⟩
  · rw [h.becomes.loaded ino]
    simp [hv]
  · rw [h.uio]
    exact hu.rw
  · rw [h.uio]
    simp only [Uio.advance,hu.offset]
    push_cast
    rfl
  · have hlt := hu.lt
    have hb := h.bound
    omega
  · rw [h.uio]
    rfl

theorem blkrest_eq (o : Nat) : toU32 ((sfsBlocksize : Int) - (o % 512 : Nat)) = 512 - o % 512 := by
  rw [show (sfsBlocksize : Int) - (o % 512 : Nat) = ((512 - o % 512 : Nat) : Int) by
    rw [sfsBlocksize]; omega]
  exact toU32_natCast (by omega)

theorem aligned_eq (hoff : u.offset = (o : Int)) (hal : o % 512 = 0) :
    u.offset.tmod sfsBlocksize = 0 := by
  rw [hoff]
  exact Int.ofNat_eq_zero.mpr hal

section Parts

variable {I : Nat → Fs × Uio → Prop} {E : Errno → Fs × Uio → Prop} {P : Panic → Prop}
  (hready : ∀ n y, I n y → y.2.offset = ((o + n : Nat) : Int) ∧ o + n < 2^31 ∧
    y.2.resid = len - n)
  (hpart : ∀ n m y, I n y → m = min (512 - (o + n) % 512) (len - n) →
    n + m ≤ len ∧ 0 < (o + n) % 512 + m → n = 0 ∧ y = x ∨ 0 < m ∧ (o + n) % 512 = 0 →
    (sfsPartialio ino ((o + n) % 512) m y).Ends (fun _ z => I (n + m) z) E P)
  (hblock : ∀ n y, I n y → n + 512 ≤ len → (o + n) % 512 = 0 →
    (sfsBlockio ino y).Ends (fun _ z => I (n + 512) z) E P)

include hready hpart

theorem ioTrailing_ends (hy : I n y) (hn : n ≤ len) (hal : (o + n) % 512 = 0)
    (hlast : len - n < 512) : (ioTrailing ino y).Ends (fun _ z => I len z) E P := by
  obtain ⟨_,_,hres⟩ := hready n y hy
  have hle : y.2.resid < sfsBlocksize := hres ▸ hlast
  rw [ioTrailing,get_bind,assert_bind _ _ _ hle,hres]
  by_cases hz : 0 < len - n
  · have hend := hpart n _ y hy (by omega) (by omega) (.inr ⟨hz,hal⟩)
    rw [if_pos hz]
    rwa [hal,Nat.add_sub_cancel' hn] at hend
  · rw [if_neg hz,show len = n by omega]
    exact hy

include hblock

theorem ioBlocks_ends (hy : I n y) (hn : n ≤ len)
    (hal : len = n ∨ (o + n) % 512 = 0) :
    (ioBlocks ino y).Ends (fun _ z => I len z) E P := by
  obtain ⟨hoff,_,hres⟩ := hready n y hy
  rw [ioBlocks,get_bind]
  by_cases hz : y.2.resid = 0
  · rw [if_pos hz,show len = n by omega]
    exact hy
  · have hal := hal.resolve_left (by omega)
    have hdiv : y.2.resid / sfsBlocksize = y.2.resid / 512 := rfl
    rw [if_neg hz,assert_bind _ _ _ (aligned_eq hoff hal),hdiv]
    refine (Outcome.Ends.loop (I := fun j (_ : Unit) z => I (n + 512 * j) z) (i := 0)
      (y.2.resid / 512) hy fun j _ z _ hj hz => ?_).andThen fun _ z hz => ?_
    · rw [show n + 512 * (j + 1) = n + 512 * j + 512 by omega]
      exact hblock _ z hz (by omega) (by omega)
    · exact ioTrailing_ends hready hpart hz (by omega) (by omega) (by omega)

/-- How sfs_io cuts a transfer into parts: `I n` holds when `n` bytes have gone, and each part
carries it on. -/
theorem ioParts_ends (h : I 0 x) : (ioParts ino x).Ends (fun _ z => I len z) E P := by
  obtain ⟨hoff,ho,hres⟩ := hready 0 x h
  rw [ioParts]
  have hlead : (ioLeading ino x).Ends (fun _ y => ∃ n, I n y ∧ n ≤ len ∧
      (len = n ∨ (o + n) % 512 = 0)) E P := by
    rw [ioLeading,get_bind,blkoff_eq hoff ho,blkrest_eq,hres]
    by_cases hz : (o + 0) % 512 = 0
    · rw [if_neg (not_not.mpr hz)]
      exact ⟨0,h,Nat.zero_le _,.inr hz⟩
    · rw [if_pos hz]
      refine (hpart 0 _ x h rfl (by omega) (.inl ⟨rfl,rfl⟩)).mono
        (fun _ y hy => ⟨_,hy,by omega,by omega⟩) (fun _ _ he => he) fun _ hp => hp
  refine hlead.andThen fun _ y hy => ?_
  obtain ⟨n,hy,hn,hal⟩ := hy
  exact ioBlocks_ends hready hpart hblock hy hn hal

end Parts

theorem ioParts_write (h : Own s L none) (hv : s.vnode ino = some v) (hu : u.WritesAt o) :
    (ioParts ino (s,u)).Safe (fun _ y => Wrote L ino o u.resid (s,u) y)
      fun e y => Stopped L ino o u.resid (s,u) e y := by
  refine Outcome.safe_iff.mpr ((ioParts_ends (o := o) (I := fun n y => Advanced L ino o n (s,u) y)
    (fun n y hy => ?_) (fun n m y hy hm hle hat => ?_) (fun n y hy hle hal => ?_)
    (Advanced.refl h ino o)).mono (fun _ _ hy => hy.toWrote) (fun _ _ he => he) fun _ hp => hp)
  · obtain ⟨_,hu',hres'⟩ := hy.ready hv hu
    exact ⟨hu'.offset,hu'.lt,hres'⟩
  · obtain ⟨⟨w,hw⟩,hu',hres'⟩ := hy.ready hv hu
    exact .of_safe ((partialio_write hy.own hw hu' (by omega) hle.2 (by omega)).mono
      (fun _ z hz => hy.trans hz) fun e z hz => hy.stopped hz hat hle.1)
  · obtain ⟨⟨w,hw⟩,hu',hres'⟩ := hy.ready hv hu
    exact .of_safe ((blockio_write hy.own hw hu' hal (by omega)).mono
      (fun _ z hz => hy.trans hz) fun e z hz => hy.stopped hz (.inr ⟨by omega,hal⟩) hle)

/-- What sfs_io makes of a file when it has written `n` bytes. -/
def File.write (f : File) (o n : Nat) (src : Buffer) (k : Nat) : File :=
  { f.patch o n src k with size := max f.size (o + n) }

structure Written (L : Nat → Prop) (ino o n : Nat) (x y : Fs × Uio) : Prop where
  own : Own y.1 L none
  uio : y.2 = x.2.advance n
  becomes : Becomes L ino ((x.1.fileAt ino).write o n x.2.buf x.2.base) x.1 y.1
  bound : n = 0 ∨ o + n ≤ 143 * 512

theorem Wrote.ioLength (h : Wrote L ino o n (s,u) y) (hv : s.vnode ino = some v)
    (hu : u.WritesAt o) :
    ∃ z, ioLength ino y = .ok () z ∧ Written L ino o n (s,u) z := by
  obtain ⟨⟨w,hw⟩,hu',_⟩ := h.ready hv hu
  obtain ⟨t,u'⟩ := y
  simp only at hw
  have hok := h.own.loadedOk hw
  have hself := h.becomes.self
  have hsize : w.i.size = (s.fileAt ino).size := by
    rw [← inodeAt_loaded hw]
    exact congrArg File.size hself
  have hnew : toU32 u'.offset = o + n := by
    rw [hu'.offset]
    exact toU32_natCast (Nat.lt_trans hu'.lt (by decide))
  rw [Sfs.ioLength,get_bind,bind_ok (onFs_ok (getVnode_eq hw)),toInt32_of_lt hok.size,hnew]
  by_cases hlt : u'.rw = .write ∧ u'.offset > (w.i.size : Int)
  · have hgt : w.i.size < o + n := by
      have := hlt.2
      rw [hu'.offset] at this
      omega
    rw [if_pos hlt,onFs_ok (putInode_eq _)]
    refine ⟨_,rfl,h.own.putSame hw ⟨hok.type,hu'.lt⟩ (h.own.vnodeOk hw).links rfl rfl,h.uio,?_,h.bound⟩
    have hput := putSame_becomes (L := L) hw (g := fun i => { i with size := o + n }) rfl rfl
    refine h.becomes.trans ?_
    convert hput using 1
    have hfile : (s.fileAt ino).patch o n u.buf u.base =
        ⟨w.i.size,t.byteAt ino,w.i.linkcount,w.i.type⟩ := by
      rw [← hself,Fs.fileAt,inodeAt_loaded hw]
    have hmax : max (s.fileAt ino).size (o + n) = o + n := by omega
    simp only [File.write,hmax,hfile]
  · have hle : o + n ≤ w.i.size := by
      have := mt (And.intro hu'.rw) hlt
      rw [hu'.offset] at this
      omega
    rw [if_neg hlt,pure_apply]
    refine ⟨_,rfl,h.own,h.uio,?_,h.bound⟩
    convert h.becomes using 1
    have hmax : max (s.fileAt ino).size (o + n) = (s.fileAt ino).size := by omega
    simp only [File.write,hmax]
    rfl

/-- sfs_io, writing: all bytes arrive, or an initial part of them and the error
has one of three reasons. -/
theorem sfsIo_write (h : Own s L none) (hv : s.vnode ino = some v) (hu : u.WritesAt o)
    (hres : u.resid < 2^32) :
    (sfsIo ino (s,u)).Safe (fun _ y => Written L ino o u.resid (s,u) y)
      fun e y => ∃ n, Breaks o u.resid n ∧ Written L ino o n (s,u) y ∧
        WriteError ino o n u.resid (s,u) e := by
  have hio : sfsIo ino (s,u) = ioTransfer ino 0 (s,u) := by
    rw [sfsIo,get_bind,bind_ok (onFs_ok (getVnode_eq hv)),hu.rw]
  have hout : ∀ n z, Written L ino o n (s,u) z →
      (z.1,{ z.2 with resid := (z.2.resid + 0) % 2^32 }) = z := by
    intro n z hz
    have hlt : z.2.resid < 2^32 := by
      rw [hz.uio]
      simp only [Uio.advance]
      omega
    rw [Nat.add_zero,Nat.mod_eq_of_lt hlt]
  rw [hio,ioTransfer]
  refine (ioParts_write h hv hu).attempt_bind (fun _ y hy => ?_) fun e y hy => ?_
  · obtain ⟨z,hz,hw⟩ := hy.ioLength hv hu
    rw [bind_ok hz,modify_to (hout _ z hw),ofExcept_ok]
    exact hw
  · obtain ⟨n,hn,hwr,he⟩ := hy
    obtain ⟨z,hz,hw⟩ := hwr.ioLength hv hu
    rw [bind_ok hz,modify_to (hout _ z hw),ofExcept_error]
    exact ⟨n,hn,hw,he⟩

end WriteRun

end MipsOs.Sfs
