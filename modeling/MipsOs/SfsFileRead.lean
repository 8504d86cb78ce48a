import MipsOs.DiskFailures
import MipsOs.SfsFileIo

/-! sfs_io, reading, on a volume in order. Its disk may fail at any block; what has arrived by then
is what lies in the file. -/

set_option autoImplicit false
namespace MipsOs.Sfs
open Bytes Prog Ledger

section Read

variable {s : Fs} {L : Nat → Prop} {u w : Uio} {src : Buffer} {v : SfsVnode} {ino o n m len k : Nat}
  {rs rs' : List LhdResult} {ks : List Bool}

def Uio.took (u : Uio) (n : Nat) (src : Buffer) (k : Nat) : Uio :=
  { u.advance n with buf := splice u.buf u.base n src k }

@[simp] theorem took_nothing (u : Uio) (src : Buffer) (k : Nat) : u.took 0 src k = u := by
  simp [Uio.took]

theorem took_took (u : Uio) (n m : Nat) (src : Buffer) (k : Nat) :
    (u.took n src k).took m src (k + n) = u.took (n + m) src k := by
  simp only [Uio.took,Uio.advance,splice_splice,Uio.mk.injEq,true_and,and_true]
  push_cast
  omega

theorem took_congr {src' : Buffer} {k' : Nat} (h : ∀ j, j < n → src (j + k) = src' (j + k')) :
    u.took n src k = u.took n src' k' := by
  rw [Uio.took,splice_congr h]
  rfl

/-- Why a read of `len` bytes fails. -/
def ReadError (o len : Nat) (u : Uio) (e : Errno) : Prop :=
  e = .EINVAL ∧ 143 * 512 < o + max 1 len ∨ e = .EFAULT ∧ ∃ i, u.faults i = true

def Failed (s : Fs) (o len : Nat) (u : Uio) (e : Errno) (y : Fs × Uio) : Prop :=
  y.1 = s ∧ y.2.rw = .read ∧ ReadError o len u e

/-- `n` bytes from offset `o` of file `ino` have gone to the buffer of the uio. -/
def Took (s : Fs) (ino o n : Nat) (u : Uio) (y : Fs × Uio) : Prop :=
  y = (s,u.took n (s.byteAt ino) o) ∧ (n = 0 ∨ o + n ≤ 143 * 512)

theorem Took.refl (s : Fs) (ino o : Nat) (u : Uio) : Took s ino o 0 u (s,u) := by
  refine ⟨?_,.inl rfl⟩
  rw [took_nothing]

variable {y : Fs × Uio} {e : Errno} {extra : Nat}

theorem Took.trans {z : Fs × Uio} (h : Took s ino o n u y) (h' : Took s ino (o + n) m y.2 z) :
    Took s ino o (n + m) u z := by
  obtain ⟨rfl,hb⟩ := h
  obtain ⟨rfl,hb'⟩ := h'
  refine ⟨?_,by omega⟩
  rw [took_took]

/-- The same while the disk may fail; `rs` are the results that were to come before. -/
def TookFrom (s : Fs) (ks : List Bool) (rs : List LhdResult) (ino o n : Nat) (u : Uio)
    (y : Fs × Uio) : Prop :=
  ∃ rs' z, rs' <:+ rs ∧ Took s ino o n u z ∧ y = (z.1.failing rs' ks,z.2)

/-- What stops a read after `n` bytes: there are no further blocks, or the block at which it has
arrived does not fit into the part of the buffer that is mapped. -/
def Stuck (o n : Nat) (u : Uio) (e : Errno) : Prop :=
  e = .EINVAL ∧ 143 * 512 ≤ o + n ∨
    e = .EFAULT ∧ ∃ i, u.faults (u.base + i) = true ∧ (o + i) / 512 = (o + n) / 512

theorem Stuck.readError (h : Stuck o n u e) (hn : n < max 1 len) : ReadError o len u e := by
  rcases h with ⟨rfl,hge⟩ | ⟨rfl,i,hi,_⟩
  · exact .inl ⟨rfl,by omega⟩
  · exact .inr ⟨rfl,_,hi⟩

theorem Stuck.later (h : Stuck (o + n) k (u.took n src m) e) : Stuck o (n + k) u e := by
  refine h.imp (fun ⟨he,hge⟩ => ⟨he,by omega⟩) fun ⟨he,i,hi,hblock⟩ => ⟨he,n + i,?_,?_⟩
  · rw [← Nat.add_assoc]
    exact hi
  · rw [← Nat.add_assoc,hblock,Nat.add_assoc]

theorem stuck_of_faulty (h : u.faulty len = true) (hlen : o % 512 + len ≤ 512) :
    Stuck o 0 u .EFAULT := by
  obtain ⟨i,hi,hf⟩ := (faulty_iff u len).mp h
  exact .inr ⟨rfl,i,hf,by omega⟩

/-- A read of `len` bytes has stopped with an error, and what has arrived is the beginning of what
was asked for. -/
def StopsReading (s : Fs) (ks : List Bool) (rs : List LhdResult) (ino o len : Nat) (u : Uio)
    (e : Errno) (y : Fs × Uio) : Prop :=
  ∃ rs' n, rs' <:+ rs ∧ n < max 1 len ∧ Took s ino o n u (s,u.took n (s.byteAt ino) o) ∧
    y = (s.failing rs' ks,u.took n (s.byteAt ino) o) ∧
    (Stuck o n u e ∨ e = Errno.EIO ∧ GaveUp rs rs')

theorem TookFrom.refl (s : Fs) (ks : List Bool) (rs : List LhdResult) (ino o : Nat) (u : Uio) :
    TookFrom s ks rs ino o 0 u (s.failing rs ks,u) :=
  ⟨rs,(s,u),List.suffix_refl _,Took.refl s ino o u,rfl⟩

theorem TookFrom.goesOn {f : UioM Unit} (h : TookFrom s ks rs ino o n u y)
    (hm : n = 0 ∨ 0 < m) (hle : n + m ≤ len)
    (hf : ∀ rs', (f (s.failing rs' ks,u.took n (s.byteAt ino) o)).Ends
      (fun _ z => TookFrom s ks rs' ino (o + n) m (u.took n (s.byteAt ino) o) z)
      (fun e z => StopsReading s ks rs' ino (o + n) m (u.took n (s.byteAt ino) o) e z)
      (BadSector rs')) :
    (f y).Ends (fun _ z => TookFrom s ks rs ino o (n + m) u z)
      (fun e z => StopsReading s ks rs ino o len u e z) (BadSector rs) := by
  obtain ⟨rs₁,y',hs₁,htook,rfl⟩ := h
  have hy' := htook.1
  subst hy'
  refine (hf rs₁).mono (fun _ z hz => ?_) (fun e z hz => ?_) fun p hp => hp.later hs₁
  · obtain ⟨rs₂,z',hs₂,htook',rfl⟩ := hz
    exact ⟨rs₂,z',hs₂.trans hs₁,htook.trans htook',rfl⟩
  · obtain ⟨rs₂,k,hs₂,hk,htook',rfl,hcause⟩ := hz
    rw [took_took] at htook' ⊢
    exact ⟨rs₂,n + k,hs₂.trans hs₁,by omega,htook.trans htook',rfl,
      hcause.imp Stuck.later fun hgave => ⟨hgave.1,hgave.2.later hs₁⟩⟩

theorem stopsReading_now (hs : rs' <:+ rs)
    (hcause : Stuck o 0 u e ∨ e = Errno.EIO ∧ GaveUp rs rs') :
    StopsReading s ks rs ino o len u e (s.failing rs' ks,u) :=
  ⟨rs',0,hs,by omega,⟨rfl,.inl rfl⟩,by rw [took_nothing],hcause⟩

theorem uiomove_took (hrw : u.rw = .read) (hn : n ≤ u.resid) (kbuf : Buffer) :
    (uiomove kbuf n u).Safe (fun _ w => w = u.took n kbuf 0)
      fun e w => e = .EFAULT ∧ w = u ∧ u.faulty n = true := by
  by_cases hf : u.faulty n = true
  · rw [uiomove_fault hn hf]
    exact ⟨rfl,rfl,hf⟩
  · rw [uiomove_read hrw hn (Bool.eq_false_iff.mpr hf)]
    rfl

theorem uiomovezeros_took (hrw : u.rw = .read) (hn : n ≤ u.resid) :
    (uiomovezeros n u).Safe (fun _ w => w = u.took n zeros 0)
      fun e w => e = .EFAULT ∧ ∃ m, m < n ∧ w = u.took m zeros 0 ∧ u.faulty n = true := by
  rw [uiomovezeros,get_bind,assert_bind _ _ _ hrw]
  have hrun := Outcome.Safe.loop (s := u) (i := 0) (b := ())
    (f := fun i _ => (do let _ ← uiomove zeros (min 16 (n - 16 * i)) : Prog Uio Errno Panic Unit))
    (I := fun i _ w => w = u.took (min n (16 * i)) zeros 0)
    (E := fun e w => e = .EFAULT ∧ ∃ m, m < n ∧ w = u.took m zeros 0 ∧ u.faulty n = true)
    ((n + 15) / 16) (by simp) fun i _ w _ hi hw => ?_
  · refine hrun.mono (fun _ w hw => ?_) fun _ _ he => he
    rw [hw]
    congr 1
    omega
  · subst hw
    refine (uiomove_took (u := u.took (min n (16 * i)) zeros 0) hrw ?_ zeros).bind
      (fun _ w hw => ?_) fun e w he => ?_
    · simp only [Uio.took,Uio.advance]
      omega
    · show w = u.took (min n (16 * (i + 1))) zeros 0
      have hzero : (u.took (min n (16 * i)) zeros 0).took (min 16 (n - 16 * i)) zeros 0 =
          (u.took (min n (16 * i)) zeros 0).took (min 16 (n - 16 * i)) zeros (0 + min n (16 * i)) :=
        took_congr fun _ _ => rfl
      rw [hw,hzero,took_took]
      congr 1
      omega
    · obtain ⟨rfl,rfl,hf⟩ := he
      obtain ⟨j,hj,hf⟩ := (faulty_iff _ _).mp hf
      refine ⟨rfl,_,by omega,rfl,(faulty_iff u n).mpr ⟨min n (16 * i) + j,by omega,?_⟩⟩
      rw [← Nat.add_assoc]
      exact hf

section

variable (h : Own s L none) (hv : s.vnode ino = some v)

include h hv

theorem bmap_failing (fb : Nat) :
    (sfsBmap ino fb false (s.failing rs ks)).Ends
      (fun b t => b = s.blockAt ino fb ∧ fb < 143 ∧ ∃ rs', rs' <:+ rs ∧ t = s.failing rs' ks)
      (fun e t => ∃ rs', rs' <:+ rs ∧ t = s.failing rs' ks ∧
        (e = .EINVAL ∧ 143 ≤ fb ∨ e = Errno.EIO ∧ GaveUp rs rs')) (BadSector rs) := by
  have hv' : (s.failing rs ks).vnode ino = some v := hv
  have hback : ∀ rs' k, handBack ino k (s.blockAt ino fb) (s.failing rs' ks) =
      .ok (s.blockAt ino fb) (s.failing rs' ks) := by
    intro rs' k
    refine handBack_eq ino k ?_
    by_cases hz : s.blockAt ino fb = 0
    · exact .inl hz
    · exact .inr (h.slot_held (h.live hv) hz)
  by_cases hk : fb < 15
  · have hblk : s.blockAt ino fb = v.i.direct ⟨fb,hk⟩ := by
      simp [Fs.blockAt,inodeAt_loaded hv,hk]
    rw [sfsBmap,dif_pos hk,bmapDirect,bind_ok (getVnode_eq hv'),if_neg (by simp),← hblk,hback]
    exact ⟨rfl,by omega,rs,List.suffix_refl _,rfl⟩
  · by_cases hn : fb < 143
    · have hblk := blockAt_indirect (k := fb - 15) hv (by omega)
      rw [Nat.sub_add_cancel (by omega)] at hblk
      rw [sfsBmap_indirect hk hn,bmapIndirect,bind_ok (getVnode_eq hv')]
      by_cases hz : v.i.indirect = 0
      · rw [if_pos ⟨hz,rfl⟩]
        exact ⟨(hblk.trans (if_pos hz)).symm,hn,rs,List.suffix_refl _,rfl⟩
      · have hidb : owns s L none (.indirect ino) v.i.indirect :=
          ⟨h.live hv,hz,by rw [inodeAt_loaded hv]⟩
        have hid : (bmapIdblock ino (s.failing rs ks)).Ends
            (fun r t => r.2 = decodeIdbuf (clip (s.dev.sector v.i.indirect)) ∧
              ∃ rs', rs' <:+ rs ∧ t = s.failing rs' ks)
            (fun e t => e = Errno.EIO ∧ ∃ rs', GaveUp rs rs' ∧ t = s.failing rs' ks)
            (BadSector rs) := by
          rw [bmapIdblock,bind_ok (getVnode_eq hv'),if_neg hz]
          rcases rblock_failing h.geo (h.lt hidb) rs ks with
            ⟨rs',hpass,hr⟩ | ⟨rs',hgave,hr⟩ | ⟨p,hbad,hr⟩
          · rw [bind_ok hr]
            exact ⟨rfl,rs',hpass.suffix,rfl⟩
          · rw [bind_err hr]
            exact ⟨rfl,rs',hgave,rfl⟩
          · rw [bind_panic hr]
            exact hbad
        rw [if_neg hz,← decodeIdbuf_clip (by omega)] at hblk
        rw [if_neg fun hc => hz hc.1]
        refine hid.bind (fun r t hr => ?_) (fun e t he => ?_) fun _ hp => hp
        · obtain ⟨hr,rs',hs,rfl⟩ := hr
          rw [if_neg (by simp),hr,← hblk,hback]
          exact ⟨rfl,hn,rs',hs,rfl⟩
        · obtain ⟨rfl,rs',hgave,rfl⟩ := he
          exact ⟨rs',hgave.suffix,rfl,.inr ⟨rfl,hgave⟩⟩
    · rw [sfsBmap_beyond (by omega)]
      exact ⟨rs,List.suffix_refl _,rfl,.inl ⟨rfl,by omega⟩⟩

theorem bmap_read :
    (onFs (sfsBmap ino (o / 512) false) (s.failing rs ks,u)).Ends
      (fun b y => b = s.blockAt ino (o / 512) ∧ o / 512 < 143 ∧
        ∃ rs', rs' <:+ rs ∧ y = (s.failing rs' ks,u))
      (fun e y => StopsReading s ks rs ino o len u e y) (BadSector rs) := by
  refine .zoom ((bmap_failing h hv (o / 512)).mono (fun b t hb => ?_) (fun e t he => ?_)
    fun _ hp => hp)
  · obtain ⟨rfl,hlt,rs',hs,rfl⟩ := hb
    exact ⟨rfl,hlt,rs',hs,rfl⟩
  · obtain ⟨rs',hs,rfl,⟨rfl,hge⟩ | hgave⟩ := he
    · exact stopsReading_now hs (.inl (.inl ⟨rfl,by omega⟩))
    · exact stopsReading_now hs (.inr hgave)

theorem partialio_read (hrw : u.rw = .read) (hoff : u.offset = (o : Int)) (ho : o < 2^31)
    (hlen : o % 512 + len ≤ 512) (hres : len ≤ u.resid) (rs : List LhdResult) (ks : List Bool) :
    (sfsPartialio ino (o % 512) len (s.failing rs ks,u)).Ends
      (fun _ y => TookFrom s ks rs ino o len u y)
      (fun e y => StopsReading s ks rs ino o len u e y) (BadSector rs) := by
  have hdo : (u.rw == .write) = false := by rw [hrw]; rfl
  have hspan : o % 512 + len ≤ sfsBlocksize := hlen
  rw [sfsPartialio,get_bind,assert_bind _ _ _ hspan,fileblock_eq hoff ho,hdo]
  refine (bmap_read h hv).andThen fun b y hb => ?_
  obtain ⟨rfl,hlt,rs₁,hs₁,rfl⟩ := hb
  have hbuf : (partialioBuf u.rw (s.blockAt ino (o / 512)) (s.failing rs₁ ks,u)).Ends
      (fun iobuf y => (∀ j, j < 512 → iobuf j = s.byteAt ino (o / 512 * 512 + j)) ∧
        ∃ rs', rs' <:+ rs ∧ y = (s.failing rs' ks,u))
      (fun e y => StopsReading s ks rs ino o len u e y) (BadSector rs) := by
    by_cases hz : s.blockAt ino (o / 512) = 0
    · rw [partialioBuf,if_pos hz,assert_bind _ _ _ hrw]
      refine ⟨fun j hj => ?_,rs₁,hs₁,rfl⟩
      simp [Fs.byteAt,show (o / 512 * 512 + j) / 512 = o / 512 by omega,hz,zeros]
    · have hslot : owns s L none (.slot ino (o / 512)) _ := ⟨h.live hv,hz,rfl⟩
      rw [partialioBuf,if_neg hz]
      rcases rblock_failing h.geo (h.lt hslot) rs₁ ks with
        ⟨rs₂,hpass,hr⟩ | ⟨rs₂,hgave,hr⟩ | ⟨p,hbad,hr⟩
      · rw [onFs_ok hr]
        refine ⟨fun j hj => ?_,rs₂,hpass.suffix.trans hs₁,rfl⟩
        rw [clip_apply hj,byteAt_slot hslot hj]
      · rw [onFs_err hr]
        exact stopsReading_now (hgave.suffix.trans hs₁) (.inr ⟨rfl,hgave.later hs₁⟩)
      · rw [onFs_panic hr]
        exact hbad.later hs₁
  refine hbuf.andThen fun iobuf y hy => ?_
  obtain ⟨hbytes,rs₂,hs₂,rfl⟩ := hy
  have hmove : (onUio (uiomove (fun k => iobuf (o % 512 + k)) len) (s.failing rs₂ ks,u)).Ends
      (fun _ y => y = (s.failing rs₂ ks,u.took len (s.byteAt ino) o))
      (fun e y => StopsReading s ks rs ino o len u e y) (BadSector rs) := by
    refine .zoom (.of_safe ((uiomove_took hrw hres _).mono (fun _ w hw => ?_) fun e w he => ?_))
    · rw [hw,took_congr fun j hj => ?_]
      rw [hbytes _ (by omega)]
      congr 1
      omega
    · obtain ⟨rfl,rfl,hf⟩ := he
      exact stopsReading_now hs₂ (.inl (stuck_of_faulty hf hlen))
  refine hmove.andThen fun _ y hy => ?_
  subst hy
  rw [if_neg (by rw [hrw]; simp),pure_apply]
  exact ⟨rs₂,_,hs₂,⟨rfl,by omega⟩,rfl⟩

end

theorem blockioDevice_read {b : Nat} (h : Geometry s) (hb : b < s.super.nblocks)
    (hrw : u.rw = .read) (hres : 512 ≤ u.resid) :
    (blockioDevice b (s.failing rs ks,u)).Ends
      (fun _ y => ∃ rs', rs' <:+ rs ∧ y = (s.failing rs' ks,u.took 512 (s.dev.sector b) 0))
      (fun e y => ∃ rs', rs' <:+ rs ∧ y = (s.failing rs' ks,u) ∧
        (e = .EFAULT ∧ u.faulty 512 = true ∨ e = Errno.EIO ∧ GaveUp rs rs'))
      (BadSector rs) := by
  have hlt := (h.block_lt hb).2
  have hle : sfsBlocksize ≤ u.resid := hres
  have hread := rwblockRetries_reading (u := u.forDevice b) hrw rfl rfl (h.block_lt hb).1 hlt 10
    rs ks
  rw [← sfsRwblock] at hread
  rw [blockioDevice,get_bind,assert_bind _ _ _ hle,diskoff_eq hlt,
    modify_to (t := (s.failing rs ks,u.forDevice b)) rfl]
  refine hread.attempt_bind (fun _ y hy => ?_) (fun e y he => ?_) fun _ hp => hp
  · obtain ⟨rs',hpass,rfl⟩ := hy
    rw [modify_to (t := (s.failing rs' ks,u.took 512 (s.dev.sector b) 0)) ?_,ofExcept_ok]
    · exact ⟨rs',hpass.suffix,rfl⟩
    · simp only [Uio.took,Uio.advance,sfsBlocksize,Nat.sub_self,Nat.zero_add,Prod.mk.injEq,
        Uio.mk.injEq,true_and,and_true]
      push_cast
      omega
  · obtain ⟨rs',hs,rfl,hcause⟩ := he
    rw [modify_to (t := (s.failing rs' ks,u)) ?_,ofExcept_error]
    · refine ⟨rs',hs,rfl,hcause.imp_right fun hc => ⟨hc.1,?_⟩⟩
      exact hc.2 ▸ List.suffix_refl _
    · obtain ⟨buf,base,offset,resid,rw,faults⟩ := u
      simp [sfsBlocksize]

theorem blockio_read (h : Own s L none) (hv : s.vnode ino = some v) (hrw : u.rw = .read)
    (hoff : u.offset = (o : Int)) (ho : o < 2^31) (hal : o % 512 = 0) (hres : 512 ≤ u.resid) :
    (sfsBlockio ino (s.failing rs ks,u)).Ends (fun _ y => TookFrom s ks rs ino o 512 u y)
      (fun e y => StopsReading s ks rs ino o 512 u e y) (BadSector rs) := by
  have hdo : (u.rw == .write) = false := by rw [hrw]; rfl
  rw [sfsBlockio,get_bind,fileblock_eq hoff ho,hdo]
  refine (bmap_read h hv).andThen fun b y hb => ?_
  obtain ⟨rfl,hlt,rs₁,hs₁,rfl⟩ := hb
  by_cases hz : s.blockAt ino (o / 512) = 0
  · have hzero : ∀ m, m ≤ 512 → u.took m zeros 0 = u.took m (s.byteAt ino) o := by
      intro m hm
      refine took_congr fun j hj => ?_
      simp [Fs.byteAt,show (j + o) / 512 = o / 512 by omega,hz,zeros]
    rw [if_pos hz,assert_bind _ _ _ hrw]
    refine .zoom (.of_safe ((uiomovezeros_took hrw hres).mono (fun _ w hw => ?_) fun e w he => ?_))
    · rw [hw,hzero _ (Nat.le_refl _)]
      exact ⟨rs₁,_,hs₁,⟨rfl,by omega⟩,rfl⟩
    · obtain ⟨rfl,m,hm,rfl,hf⟩ := he
      obtain ⟨i,hi,hf⟩ := (faulty_iff u 512).mp hf
      rw [hzero m (by omega)]
      exact ⟨rs₁,m,hs₁,by omega,⟨rfl,by omega⟩,rfl,.inl (.inr ⟨rfl,i,hf,by omega⟩)⟩
  · have hslot : owns s L none (.slot ino (o / 512)) _ := ⟨h.live hv,hz,rfl⟩
    rw [if_neg hz]
    refine (blockioDevice_read h.geo (h.lt hslot) hrw hres).mono (fun _ y hy => ?_)
      (fun e y he => ?_) fun _ hp => hp.later hs₁
    · obtain ⟨rs₂,hs₂,rfl⟩ := hy
      refine ⟨rs₂,_,hs₂.trans hs₁,⟨rfl,by omega⟩,?_⟩
      rw [took_congr fun j hj => ?_]
      rw [Nat.add_zero,← byteAt_slot hslot hj]
      congr 1
      omega
    · obtain ⟨rs₂,hs₂,rfl,⟨rfl,hf⟩ | ⟨rfl,hgave⟩⟩ := he
      · exact stopsReading_now (hs₂.trans hs₁) (.inl (stuck_of_faulty hf (by omega)))
      · exact stopsReading_now (hs₂.trans hs₁) (.inr ⟨rfl,hgave.later hs₁⟩)

theorem TookFrom.ready (h : TookFrom s ks rs ino o n u y) (hoff : u.offset = (o : Int))
    (ho : o < 2^31) : (u.took n (s.byteAt ino) o).offset = ((o + n : Nat) : Int) ∧ o + n < 2^31 ∧
      (u.took n (s.byteAt ino) o).resid = u.resid - n ∧ y.2 = u.took n (s.byteAt ino) o := by
  obtain ⟨_,_,_,⟨rfl,hb⟩,rfl⟩ := h
  refine ⟨?_,by omega,rfl,rfl⟩
  simp only [Uio.took,Uio.advance,hoff]
  push_cast
  rfl

theorem ioParts_read (h : Own s L none) (hv : s.vnode ino = some v) (hrw : u.rw = .read)
    (hoff : u.offset = (o : Int)) (ho : o < 2^31) :
    (ioParts ino (s.failing rs ks,u)).Ends (fun _ y => TookFrom s ks rs ino o u.resid u y)
      (fun e y => StopsReading s ks rs ino o u.resid u e y) (BadSector rs) := by
  refine ioParts_ends (o := o) (I := fun n y => TookFrom s ks rs ino o n u y)
    (fun n y hy => ?_) (fun n m y hy hm hle hat => ?_) (fun n y hy hle hal => ?_)
    (TookFrom.refl s ks rs ino o u)
  · obtain ⟨hoff',ho',hres',heq⟩ := hy.ready hoff ho
    rw [heq]
    exact ⟨hoff',ho',hres'⟩
  · obtain ⟨hoff',ho',hres',_⟩ := hy.ready hoff ho
    exact hy.goesOn (hat.imp And.left And.left) hle.1 fun rs' =>
      partialio_read (u := u.took n _ o) h hv hrw hoff' ho' (by omega) (by omega) rs' ks
  · obtain ⟨hoff',ho',hres',_⟩ := hy.ready hoff ho
    exact hy.goesOn (.inr (by decide)) hle fun rs' =>
      blockio_read (u := u.took n _ o) h hv hrw hoff' ho' hal (by omega)

theorem ioEndpos_eq (hoff : u.offset = (o : Int)) (ho : o < 2^31) (hres : u.resid < 2^32) :
    ioEndpos u = if o + u.resid < 2^31 then ((o + u.resid : Nat) : Int)
      else ((o + u.resid : Nat) : Int) - 2^32 := by
  have hu : toU32 u.offset = o := by
    rw [hoff]
    exact toU32_natCast (by omega)
  rw [ioEndpos,hu]
  by_cases hlt : o + u.resid < 2^31
  · rw [if_pos hlt,Nat.mod_eq_of_lt (by omega),toInt32_of_lt hlt]
  · rw [if_neg hlt]
    by_cases hwrap : o + u.resid < 2^32
    · rw [Nat.mod_eq_of_lt hwrap,toInt32_of_ge (by omega) hwrap]
    · rw [Nat.mod_eq_sub_mod (by omega),Nat.mod_eq_of_lt (by omega),toInt32_of_lt (by omega)]
      omega

/-- Beyond the range of off_t the end position is taken for one before the end. -/
theorem ioExtraresid_eq {size : Nat} (hoff : u.offset = (o : Int)) (ho : o < size)
    (hsize : size < 2^31) (hres : u.resid < 2^32) :
    ioExtraresid size u = if o + u.resid < 2^31 then o + u.resid - size else 0 := by
  rw [ioExtraresid,ioEndpos_eq hoff (by omega) hres,toInt32_of_lt hsize]
  by_cases hlt : o + u.resid < 2^31
  · rw [if_pos hlt,if_pos hlt]
    by_cases hgt : ((o + u.resid : Nat) : Int) > (size : Int)
    · rw [if_pos hgt,toU32_of_nonneg (by omega) (by omega)]
      omega
    · rw [if_neg hgt]
      omega
  · rw [if_neg hlt,if_neg hlt,if_neg (by omega)]

theorem ioLength_read (hv : s.vnode ino = some v) (hrw : u.rw = .read) :
    ioLength ino (s.failing rs ks,u) = .ok () (s.failing rs ks,u) := by
  have hv' : (s.failing rs ks).vnode ino = some v := hv
  rw [ioLength,get_bind,bind_ok (onFs_ok (getVnode_eq hv')),if_neg (by simp [hrw]),pure_apply]

theorem took_put_back (hn : n ≤ u.resid - extra) (hextra : extra ≤ u.resid)
    (hres : u.resid < 2^32) :
    { Uio.took { u with resid := u.resid - extra } n src k with
      resid := ((Uio.took { u with resid := u.resid - extra } n src k).resid + extra) % 2^32 } =
      u.took n src k := by
  simp only [Uio.took,Uio.advance,Uio.mk.injEq,true_and,and_true]
  omega

section

variable (h : Own s L none) (hv : s.vnode ino = some v) (hrw : u.rw = .read)
  (hoff : u.offset = (o : Int)) (ho : o < 2^31)

include h hv hrw hoff ho

theorem ioTransfer_read (hextra : extra ≤ u.resid) (hres : u.resid < 2^32) :
    (ioTransfer ino extra (s.failing rs ks,{ u with resid := u.resid - extra })).Ends
      (fun _ y => TookFrom s ks rs ino o (u.resid - extra) u y)
      (fun e y => StopsReading s ks rs ino o (u.resid - extra) u e y) (BadSector rs) := by
  rw [ioTransfer]
  refine (ioParts_read (u := { u with resid := u.resid - extra }) h hv hrw hoff ho).attempt_bind
    (fun _ y hy => ?_) (fun e y hy => ?_) fun _ hp => hp
  · obtain ⟨rs',z,hs,⟨rfl,hb⟩,rfl⟩ := hy
    rw [bind_ok (ioLength_read hv (by exact hrw)),
      modify_to (t := (s.failing rs' ks,u.took (u.resid - extra) (s.byteAt ino) o)) ?_,ofExcept_ok]
    · exact ⟨rs',_,hs,⟨rfl,hb⟩,rfl⟩
    · rw [took_put_back (Nat.le_refl _) hextra hres]
  · obtain ⟨rs',n,hs,hn,htook,rfl,hcause⟩ := hy
    change n < max 1 (u.resid - extra) at hn
    rw [bind_ok (ioLength_read hv (by exact hrw)),
      modify_to (t := (s.failing rs' ks,u.took n (s.byteAt ino) o)) ?_,ofExcept_error]
    · exact ⟨rs',n,hs,hn,⟨rfl,htook.2⟩,rfl,hcause⟩
    · rw [took_put_back (by omega) hextra hres]

/-- How many bytes a read of a file of the given size is about. Beyond the range of off_t nothing
is held back. -/
def readable (size o len : Nat) : Nat :=
  if size ≤ o then 0 else if o + len < 2^31 then min len (size - o) else len

theorem sfsIo_reading (hres : u.resid < 2^32) (rs : List LhdResult) (ks : List Bool) :
    (sfsIo ino (s.failing rs ks,u)).Ends
      (fun _ y => TookFrom s ks rs ino o (readable v.i.size o u.resid) u y)
      (fun e y => StopsReading s ks rs ino o (readable v.i.size o u.resid) u e y)
      (BadSector rs) := by
  have hv' : (s.failing rs ks).vnode ino = some v := hv
  have hsize := (h.loadedOk hv).size
  have hio : sfsIo ino (s.failing rs ks,u) = ioRead ino v.i.size (s.failing rs ks,u) := by
    rw [sfsIo,get_bind,bind_ok (onFs_ok (getVnode_eq hv')),hrw]
  rw [hio,ioRead,get_bind,toInt32_of_lt hsize]
  by_cases hge : u.offset ≥ (v.i.size : Int)
  · rw [if_pos hge,pure_apply,readable,if_pos (by omega)]
    exact TookFrom.refl s ks rs ino o u
  · have hlt : o < v.i.size := by omega
    have hextra := ioExtraresid_eq hoff hlt hsize hres
    have hend := ioEndpos_eq hoff ho hres
    have hle : ioExtraresid v.i.size u ≤ u.resid := by
      rw [hextra]
      split <;> omega
    have hassert : ioEndpos (s.failing rs ks,u).2 > (v.i.size : Int) →
        (s.failing rs ks,u).2.resid > ioExtraresid v.i.size (s.failing rs ks,u).2 := by
      simp only [hextra,hend]
      split <;> omega
    have hreadable : readable v.i.size o u.resid = u.resid - ioExtraresid v.i.size u := by
      rw [readable,if_neg (by omega),hextra]
      split <;> omega
    rw [if_neg hge,assert_bind _ _ _ hassert,modify_to
      (t := (s.failing rs ks,{ u with resid := u.resid - ioExtraresid v.i.size u })) rfl,hreadable]
    exact ioTransfer_read h hv hrw hoff ho hle hres

/-- sfs_io, reading: nothing changes, and the bytes up to the end of the file arrive. -/
theorem sfsIo_read (hres : u.resid < 2^32) :
    (sfsIo ino (s,u)).Safe
      (fun _ y => ∃ n, y = (s,u.took n (s.byteAt ino) o) ∧
        (o + u.resid < 2^31 → n = min u.resid (v.i.size - o)))
      fun e y => Failed s o u.resid u e y := by
  have hread := sfsIo_reading h hv hrw hoff ho hres [] []
  rw [h.geo.healthy] at hread
  have hle : readable v.i.size o u.resid ≤ u.resid := by
    unfold readable
    split
    · omega
    · split <;> omega
  cases hio : sfsIo ino (s,u) with
  | ok x y =>
    rw [hio] at hread
    obtain ⟨rs',z,hs,⟨rfl,_⟩,rfl⟩ := hread
    obtain rfl := List.suffix_nil.mp hs
    rw [h.geo.healthy]
    refine ⟨_,rfl,fun hr => ?_⟩
    unfold readable
    split
    · omega
    · rfl
  | err e y =>
    rw [hio] at hread
    obtain ⟨rs',n,hs,hn,_,rfl,hcause⟩ := hread
    obtain rfl := List.suffix_nil.mp hs
    rw [h.geo.healthy]
    refine ⟨rfl,hrw,?_⟩
    rcases hcause with hstuck | ⟨_,hgave⟩
    · exact hstuck.readError (by omega)
    · exact (not_gaveUp_nil _ hgave).elim
  | panic p =>
    rw [hio] at hread
    exact (not_badSector_nil p hread).elim

end

end Read

end MipsOs.Sfs
