import MipsOs.SfsHistory

/-! Writes that move no byte, reads that reach the end of the file, and what sfs_truncate frees. -/

set_option autoImplicit false
namespace MipsOs.Sfs
open Bytes Prog Runs

section Idle

/-- No block of the file has been mapped, and none has lost its place. -/
def SameMap (ino : Nat) (s t : Fs) : Prop := ∀ k, t.blockAt ino k = s.blockAt ino k

/-- The map stays when the write begins in a block that is mapped, when it is empty and begins at a
block, or when there is no room for it. Otherwise the block that sfs_bmap allocates remains. -/
def IdleMap (ino o : Nat) (x : Fs × Uio) (t : Fs) : Prop :=
  SameMap ino x.1 t ↔ x.1.blockAt ino (o / 512) ≠ 0 ∨ (o % 512 = 0 ∧ x.2.resid = 0) ∨
    ¬ x.1.roomFor ino (o / 512)

variable {L : Nat → Prop} {ino o len : Nat} {s : Fs} {u : Uio} {v : SfsVnode}

section

variable (h : Own s L none) (hv : s.vnode ino = some v)

include h hv

/-- What sfs_partialio and sfs_blockio have in common: the block is mapped, then its sector is
replaced or the copy fails. -/
theorem part_maps {part : UioM Unit} {n : Nat} (hpos : 0 < o % 512 + u.resid)
    (herr : ∀ e t, sfsBmap ino (o / 512) true s = .err e t → part (s,u) = .err e (t,u))
    (hpart : ∀ b t, sfsBmap ino (o / 512) true s = .ok b t → Own t L none →
    owns t L none (.slot ino (o / 512)) b → ∃ blk, part (s,u) = if u.faulty
    n = true then .err .EFAULT (t,u) else .ok () (t.setSector b blk,u.advance n)) :
    (part (s,u)).Safe (fun _ y => IdleMap ino o (s,u) y.1)
      fun _ y => IdleMap ino o (s,u) y.1 := by
  rcases (sfsBmap_write h hv (o / 512)).cases with
    ⟨b,t,hbmap,hall,hslot,hroom⟩ | ⟨e,t,hbmap,hall,_,hfull⟩
  · have hmap : ∀ t', SameMap ino t t' → IdleMap ino o (s,u) t' := by
      refine fun t' hsame => ⟨fun hst => .inl fun hz => ?_,fun hcase => ?_⟩
      · exact hslot.2.1 (hslot.2.2.symm.trans ((hsame _).symm.trans ((hst _).trans hz)))
      · have hne : s.blockAt ino (o / 512) ≠ 0 := by
          rcases hcase with hne | ⟨hal,hz⟩ | hfull
          · exact hne
          · change u.resid = 0 at hz
            omega
          · exact fun hz => hfull (hroom hz)
        rw [sfsBmap_mapped h hv hne] at hbmap
        cases hbmap
        exact hsame
    obtain ⟨blk,heq⟩ := hpart b t hbmap hall.own hslot
    rw [heq]
    cases u.faulty n with
    | true => exact hmap t fun _ => rfl
    | false => exact hmap _ fun k => (hall.own.plain_of_slot hslot).blockAt blk hslot.1 k
  · rw [herr e t hbmap]
    exact iff_of_true (fun k => (hall (k + 1)).maps ino (h.live hv) k (.inr (by omega)))
      (.inr (.inr hfull))

theorem partialio_maps (hu : u.WritesAt o)
    (hlen : o % 512 + len ≤ 512) (hres : len ≤ u.resid) (hpos : 0 < o % 512 + u.resid) :
    (sfsPartialio ino (o % 512) len (s,u)).Safe (fun _ y => IdleMap ino o (s,u) y.1)
      fun _ y => IdleMap ino o (s,u) y.1 :=
  part_maps h hv hpos (fun _ _ hbmap => partialio_unmapped hbmap hu hlen)
    fun _ _ hbmap hown hslot => ⟨_,partialio_mapped hbmap hown hslot hu hlen hres⟩

theorem blockio_maps (hu : u.WritesAt o)
    (hres : 512 ≤ u.resid) :
    (sfsBlockio ino (s,u)).Safe (fun _ y => IdleMap ino o (s,u) y.1)
      fun _ y => IdleMap ino o (s,u) y.1 :=
  part_maps h hv (by omega) (fun _ _ hbmap => blockio_unmapped hbmap hu)
    fun _ _ hbmap hown hslot => ⟨_,blockio_mapped hbmap hown hslot hu hres⟩

end

/-- A transfer that has come to its error without moving a byte. -/
def IdleError (ino : Nat) (s : Fs) (u : Uio) (o : Nat) (y : Fs × Uio) : Prop :=
  y.2.resid = u.resid → IdleMap ino o (s,u) y.1

theorem idleError_later {n m len : Nat} {e : Errno} {x y : Fs × Uio}
    (h : Wrote L ino o n (s,u) x) (hx : Stopped L ino m len x e y) (hpos : 0 < n)
    (hn : n ≤ u.resid) : IdleError ino s u o y := by
  intro hres
  obtain ⟨k,_,hw,_⟩ := hx
  rw [hw.uio,h.uio] at hres
  simp only [Uio.advance] at hres
  omega

section

variable (h : Own s L none) (hv : s.vnode ino = some v) (hu : u.WritesAt o)

include h hv hu

theorem ioParts_empty (hz : u.resid = 0) :
    (ioParts ino (s,u)).Safe (fun _ y => IdleMap ino o (s,u) y.1)
      fun _ y => IdleMap ino o (s,u) y.1 := by
  have hlead : (ioLeading ino (s,u)).Safe (fun _ y => y.2.resid = 0 ∧ IdleMap ino o (s,u) y.1)
      fun _ y => IdleMap ino o (s,u) y.1 := by
    rw [ioLeading,get_bind,blkoff_eq hu.offset hu.lt,blkrest_eq]
    by_cases hal : o % 512 = 0
    · rw [if_neg (not_not.mpr hal)]
      exact ⟨hz,iff_of_true (fun _ => rfl) (.inr (.inl ⟨hal,hz⟩))⟩
    · have hle := Nat.min_le_right (512 - o % 512) u.resid
      rw [if_pos hal]
      refine ((partialio_maps h hv hu (by omega) hle (by omega)).and
        (partialio_write h hv hu (by omega) (by omega) hle)).mono
        (fun _ y hy => ⟨?_,hy.1⟩) fun _ _ hy => hy.1
      rw [hy.2.uio]
      exact Nat.sub_eq_zero_of_le (Nat.le_trans (Nat.le_of_eq hz) (Nat.zero_le _))
  rw [ioParts]
  refine hlead.bind (fun _ y hy => ?_) fun _ _ he => he
  rw [ioBlocks,get_bind,if_pos hy.1]
  exact hy.2

theorem ioParts_idle :
    (ioParts ino (s,u)).Safe (fun _ y => u.resid = 0 → IdleMap ino o (s,u) y.1)
      fun _ y => IdleError ino s u o y := by
  by_cases hz : u.resid = 0
  · exact (ioParts_empty h hv hu hz).mono (fun _ _ hy _ => hy) fun _ _ hy _ => hy
  refine Outcome.safe_iff.mpr ((ioParts_ends (o := o)
    (I := fun n y => Advanced L ino o n (s,u) y ∧ (n = 0 → y = (s,u)))
    (fun n y hy => ?_) (fun n m y hy hm hle hat => ?_) (fun n y hy hle hal => ?_)
    ⟨Advanced.refl h ino o,fun _ => rfl⟩).mono (fun _ y (_ : Advanced L ino o u.resid (s,u) y ∧ _)
      hzero => absurd hzero hz) (fun _ _ he => he) fun _ hp => hp)
  · obtain ⟨_,hu',hres'⟩ := hy.1.ready hv hu
    exact ⟨hu'.offset,hu'.lt,hres'⟩
  · obtain ⟨⟨w,hw⟩,hu',hres'⟩ := hy.1.ready hv hu
    have hstep := partialio_write hy.1.own hw hu' (by omega) hle.2 (by omega)
    cases n with
    | zero =>
      obtain rfl := hy.2 rfl
      exact .of_safe (((partialio_maps h hv hu (by omega) (by omega) (by omega)).and
        hstep).mono (fun _ z hz => ⟨hy.1.trans hz.2,fun hx => by omega⟩) fun e z hz _ => hz.1)
    | succ n =>
      exact .of_safe (hstep.mono (fun _ z hz => ⟨hy.1.trans hz,fun hx => by omega⟩) fun e z hz =>
        idleError_later hy.1.toWrote hz (by omega) (by omega))
  · obtain ⟨⟨w,hw⟩,hu',hres'⟩ := hy.1.ready hv hu
    have hstep := blockio_write hy.1.own hw hu' hal (by omega)
    cases n with
    | zero =>
      obtain rfl := hy.2 rfl
      exact .of_safe (((blockio_maps h hv hu (by omega)).and hstep).mono
        (fun _ z hz => ⟨hy.1.trans hz.2,fun hx => by omega⟩) fun e z hz _ => hz.1)
    | succ n =>
      exact .of_safe (hstep.mono (fun _ z hz => ⟨hy.1.trans hz,fun hx => by omega⟩) fun e z hz =>
        idleError_later hy.1.toWrote hz (by omega) (by omega))

end

theorem ioLength_maps {y : Fs × Uio} {w : SfsVnode} (hw : y.1.vnode ino = some w) :
    ∃ z, ioLength ino y = .ok () z ∧ SameMap ino y.1 z.1 ∧ z.2 = y.2 := by
  rw [ioLength,get_bind,bind_ok (onFs_ok (getVnode_eq hw))]
  split
  · rw [onFs_ok (putInode_eq _)]
    exact ⟨_,rfl,fun k => blockAt_put_same hw rfl rfl ino k,rfl⟩
  · exact ⟨y,rfl,fun _ => rfl,rfl⟩

theorem sfsIo_idle (h : Own s L none) (hv : s.vnode ino = some v) (hu : u.WritesAt o)
    (hres : u.resid < 2^32) :
    (sfsIo ino (s,u)).Safe (fun _ y => u.resid = 0 → IdleMap ino o (s,u) y.1)
      fun _ y => IdleError ino s u o y := by
  have hio : sfsIo ino (s,u) = ioTransfer ino 0 (s,u) := by
    rw [sfsIo,get_bind,bind_ok (onFs_ok (getVnode_eq hv)),hu.rw]
  have hsame : ∀ y z : Fs × Uio, SameMap ino y.1 z.1 → IdleMap ino o (s,u) y.1 →
      IdleMap ino o (s,u) z.1 := fun y z hmap hidle =>
    (forall_congr' fun k => by rw [hmap k]).trans hidle
  -- the exit of sfs_io neither maps a block nor counts a byte
  have hexit : ∀ n y, Wrote L ino o n (s,u) y → ∃ z, ioLength ino y = .ok () z ∧
      SameMap ino y.1 z.1 ∧ (z.2.resid + 0) % 2^32 = y.2.resid := by
    intro n y hy
    obtain ⟨⟨w,hw⟩,_⟩ := hy.ready hv hu
    obtain ⟨z,hz,hmap,hz2⟩ := ioLength_maps hw
    refine ⟨z,hz,hmap,?_⟩
    rw [hz2,hy.uio]
    exact Nat.mod_eq_of_lt (Nat.lt_of_le_of_lt (Nat.sub_le u.resid n) hres)
  rw [hio,ioTransfer]
  refine ((ioParts_write h hv hu).and (ioParts_idle h hv hu)).attempt_bind
    (fun _ y hy => ?_) fun e y hy => ?_
  · obtain ⟨z,hz,hmap,_⟩ := hexit _ y hy.1
    rw [bind_ok hz,modify_to rfl,ofExcept_ok]
    exact fun hzero => hsame y z hmap (hy.2 hzero)
  · obtain ⟨⟨n,_,hwrote,_⟩,hidle⟩ := hy
    obtain ⟨z,hz,hmap,hresid⟩ := hexit n y hwrote
    rw [bind_ok hz,modify_to rfl,ofExcept_error]
    exact fun hres => hsame y z hmap (hidle (hresid.symm.trans hres))

end Idle

section Volumes

variable {volname : Name} {stSize : Fin (2^31)} {image : Nat → Block} {s₀ s t : Fs} {ino : Nat}
  {before : List Act} {r : Request} {res : Except Errno Unit} {u : Uio}

theorem write_returned (hrun : exec (.write ino r) s = .ok (.io res u) t) :
    ∃ v, s.vnode ino = some v ∧ sfsReadWrite ino (r.uio .write) s = .ok (res,u) t := by
  cases hv : s.vnode ino with
  | none =>
    have hget : getVnode ino s = .panic (.dangling ino) := by simp [getVnode,hv]
    rw [exec,onFile,forOps,bind_panic hget] at hrun
    cases hrun
  | some v =>
    refine ⟨v,rfl,?_⟩
    rw [exec,onFile,forOps,bind_ok (getVnode_eq hv)] at hrun
    cases hops : v.ops with
    | dir =>
      rw [hops] at hrun
      cases hrun
    | file =>
      rw [hops,if_pos rfl] at hrun
      cases hrw : sfsReadWrite ino (r.uio .write) s with
      | ok out t' =>
        rw [bind_ok hrw] at hrun
        cases hrun
        rfl
      | err e t' =>
        rw [bind_err hrw] at hrun
        cases hrun
      | panic p =>
        rw [bind_panic hrw] at hrun
        cases hrun

def IdleOutcome (ino : Nat) (r : Request) (s : Fs) (out : Except Errno Unit × Uio) (t : Fs) :
    Prop :=
  match out.1 with
  | .ok _ => r.length.val = 0 → IdleMap ino r.offset (s,r.uio .write) t
  | .error _ => IdleError ino s (r.uio .write) r.offset (t,out.2)

/-- A write that has moved no byte leaves the file alone if and only if the file reaches up to the
offset and no block is allocated: the block at the offset is mapped, or the write is empty and
begins at a block, or there is no room for the block. -/
theorem idle_write_keeps (hs₀ : volume volname stSize image = some s₀)
    (hs : run step s₀ before = some s)
    (hrun : exec (.write ino r) s = .ok (.io res u) t) (hidle : u.resid = r.length) :
    (t.fileAt ino = s.fileAt ino ∧ ∀ k, t.blockAt ino k = s.blockAt ino k) ↔
      r.offset ≤ (s.fileAt ino).size ∧ (s.blockAt ino (r.offset / 512) ≠ 0 ∨
        (r.offset.val % 512 = 0 ∧ r.length.val = 0) ∨
        ¬ s.roomFor ino (r.offset / 512)) := by
  have h := reachable_inv hs₀ hs
  obtain ⟨v,hv,hrw⟩ := write_returned hrun
  have hout := sfsReadWrite_write h.own hv r
  have hmap : (sfsReadWrite ino (r.uio .write) s).Safe (IdleOutcome ino r s) fun _ _ => False :=
    Outcome.Safe.withLocal ((sfsIo_idle h.own hv ⟨rfl,rfl,r.offset.isLt⟩ r.length.isLt).attempt
      (fun _ _ hy => hy) fun _ _ hy => hy)
  rw [hrw] at hout hmap
  obtain ⟨n,hn,hbecomes,hall⟩ := WriteOutcome.count hout
  obtain rfl : n = 0 := by omega
  have hfile : t.fileAt ino = s.fileAt ino ↔ r.offset ≤ (s.fileAt ino).size := by
    rw [hbecomes.self,File.write,patch_nothing,Nat.add_zero]
    refine ⟨fun heq => ?_,fun hin => by rw [Nat.max_eq_left hin]⟩
    rw [← congrArg File.size heq]
    exact Nat.le_max_right _ _
  refine and_congr hfile ?_
  cases res with
  | ok x => exact hmap (hall rfl).symm
  | error e => exact hmap hidle

def Reply.onIo (p : Except Errno Unit → Uio → Bool) : Reply → Bool
  | .io res u => p res u
  | _ => false

/-- A call on the volume of 4096 blocks, after others. -/
theorem exec_io_of_test {A : List Act} {a : Act} {p : Fs → Fs → Except Errno Unit → Uio → Bool}
    (h : (volume4096.any fun s₀ => (run step s₀ A).any fun s =>
      (exec a s).test fun x t => x.onIo (p s t)) = true) :
    ∃ s₀ s t res u, volume4096 = some s₀ ∧ run step s₀ A = some s ∧
      exec a s = .ok (.io res u) t ∧ p s t res u = true := by
  obtain ⟨s₀,hs₀,h⟩ := some_of_any h
  obtain ⟨s,hs,h⟩ := some_of_any h
  obtain ⟨x,t,hrun,hx⟩ := Outcome.test_eq_true h
  cases x with
  | io res u => exact ⟨s₀,s,t,res,u,hs₀,hs,hrun,hx⟩
  | nothing | vnode => cases hx

theorem idle_write_keeps_empty : ∃ s₀ s t u, volume4096 = some s₀ ∧
    run step s₀ newFile = some s ∧ exec (.write 3 (.fill 0 0 7)) s = .ok (.io (.ok ()) u) t ∧
    t.fileAt 3 = s.fileAt 3 ∧ ∀ k, t.blockAt 3 k = s.blockAt 3 k := by
  obtain ⟨s₀,s,t,res,u,hs₀,hs,hrun,hx⟩ := exec_io_of_test (A := newFile)
    (a := .write 3 (.fill 0 0 7)) (p := fun _ _ res u => decide (res = .ok () ∧ u.resid = 0))
    (by decide +kernel)
  obtain ⟨rfl,hidle⟩ := of_decide_eq_true hx
  have hkeep := idle_write_keeps hs₀ hs hrun hidle
  exact ⟨s₀,s,t,u,hs₀,hs,hrun,hkeep.mpr ⟨Nat.zero_le _,.inr (.inl ⟨rfl,rfl⟩)⟩⟩

/-- An empty write at offset 100 of a new file makes it 100 bytes long and gives it a block. -/
theorem empty_write_extends : ∃ s₀ s t u, volume4096 = some s₀ ∧
    run step s₀ newFile = some s ∧
    exec (.write 3 (.fill 100 0 7)) s = .ok (.io (.ok ()) u) t ∧ u.resid = 0 ∧
    (s.fileAt 3).size = 0 ∧ (t.fileAt 3).size = 100 ∧ s.blockAt 3 0 = 0 ∧ t.blockAt 3 0 ≠ 0 := by
  obtain ⟨s₀,s,t,res,u,hs₀,hs,hrun,hx⟩ := exec_io_of_test (A := newFile)
    (a := .write 3 (.fill 100 0 7))
    (p := fun s t res u => decide (res = .ok () ∧ u.resid = 0 ∧ (s.fileAt 3).size = 0 ∧
      (t.fileAt 3).size = 100 ∧ s.blockAt 3 0 = 0 ∧ t.blockAt 3 0 ≠ 0)) (by decide +kernel)
  obtain ⟨rfl,hrest⟩ := of_decide_eq_true hx
  exact ⟨s₀,s,t,u,hs₀,hs,hrun,hrest⟩

variable {rs : List LhdResult} {ks : List Bool}

theorem took_uio (n : Nat) (src : Buffer) :
    ((r.uio .read).took n src r.offset).resid = r.length - n ∧
    ∀ k, ((r.uio .read).took n src r.offset).buf k =
      if k < n then src (r.offset + k) else r.buf k := by
  refine ⟨rfl,fun k => ?_⟩
  simp only [Uio.took,Request.uio,splice,Nat.zero_le,true_and,Nat.zero_add,Nat.sub_zero]
  rw [Nat.add_comm k]

/-- A read of the file, during which the disk answers `rs`, stops at the end of the file. -/
def StopsAtEnd (s : Fs) (ino : Nat) (r : Request) (rs : List LhdResult) (ks : List Bool) : Prop :=
  (sfsReadWrite ino (r.uio .read) (s.failing rs ks)).Ends
    (fun out _ => ∃ n, n ≤ (s.fileAt ino).size - r.offset ∧ n ≤ r.length.val ∧
      out.2.resid = r.length - n ∧
      (∀ k, out.2.buf k = if k < n then s.byteAt ino (r.offset + k) else r.buf k) ∧
      (out.1 = .ok () → n = min r.length.val ((s.fileAt ino).size - r.offset)))
    (fun _ _ => False) fun p => p = .dioEinval ∧ .invsect ∈ rs

/-- On a disk without failures, a request that reaches beyond the range of off_t is not cut off: it
goes on past the end of the file. -/
theorem wrapped_read {v : SfsVnode} (h : Inv s) (hv : s.vnode ino = some v)
    (hfar : 2^31 ≤ r.offset.val + r.length.val) (hinside : r.offset < v.i.size)
    (hshort : v.i.size < 143 * 512)
    (hmapped : ∀ i, r.offset + i < (v.i.size / 512 + 1) * 512 → r.faults i = false) :
    ∃ e n t, sfsReadWrite ino (r.uio .read) (s.failing [] []) =
      .ok (.error e,(r.uio .read).took n (s.byteAt ino) r.offset) t ∧ n < r.length ∧
        v.i.size < r.offset + n := by
  have hrun := sfsIo_reading (u := r.uio .read) h.own hv rfl rfl r.offset.isLt r.length.isLt [] []
  have hreadable : readable v.i.size r.offset (r.uio .read).resid = r.length := by
    rw [readable,if_neg (by omega),if_neg (by exact Nat.not_lt.mpr hfar)]
    rfl
  have ho := r.offset.isLt
  rw [hreadable] at hrun
  cases hread : sfsIo ino (s.failing [] [],r.uio .read) with
  | ok x y =>
    -- a file has no block for the last byte of the request
    rw [hread] at hrun
    obtain ⟨_,_,_,⟨_,hb⟩,_⟩ := hrun
    omega
  | panic p =>
    rw [hread] at hrun
    exact (not_badSector_nil p hrun).elim
  | err e y =>
    rw [hread] at hrun
    obtain ⟨rs',n,_,hn,_,rfl,hcause⟩ := hrun
    refine ⟨e,n,s.failing rs' [],by simp only [sfsReadWrite,withLocal,attempt,hread],by omega,?_⟩
    rcases hcause with (⟨_,hge⟩ | ⟨_,i,hi,hblock⟩) | ⟨_,hgave⟩
    · omega
    · by_contra hle
      have hfree := hmapped i (by omega)
      rw [← Nat.zero_add i] at hfree
      exact Bool.false_ne_true (hfree.symm.trans hi)
    · exact (not_gaveUp_nil _ hgave).elim

/-- Reads stop at the end of the file, whatever the disk does and whichever part of the buffer is
mapped, if the sum of offset and length is an off_t, if they start behind the end, or if there can
be no block behind the end. No other read does if the end of the file fits into the buffer. -/
theorem reads_stop_at_end (hs₀ : volume volname stSize image = some s₀)
    (hs : run step s₀ before = some s) (hl : s.loaded ino = true) :
    (r.offset.val + r.length.val < 2^31 ∨ (s.fileAt ino).size ≤ r.offset ∨
      143 * 512 ≤ (s.fileAt ino).size → ∀ rs ks, StopsAtEnd s ino r rs ks) ∧
    ((∀ i, r.offset + i < ((s.fileAt ino).size / 512 + 1) * 512 → r.faults i = false) →
      (∀ rs ks, StopsAtEnd s ino r rs ks) → r.offset.val + r.length.val < 2^31 ∨
        (s.fileAt ino).size ≤ r.offset ∨ 143 * 512 ≤ (s.fileAt ino).size) := by
  have h := reachable_inv hs₀ hs
  obtain ⟨v,hv⟩ := exists_vnode hl
  have hsize : (s.fileAt ino).size = v.i.size := congrArg Inode.size (inodeAt_loaded hv)
  have hio := sfsIo_reading (u := r.uio .read) h.own hv rfl rfl r.offset.isLt r.length.isLt
  have hlen : (r.uio .read).resid = r.length.val := rfl
  have ho := r.offset.isLt
  rw [hlen,← hsize] at hio
  refine ⟨fun hcase rs ks => ?_,fun hmapped hall => ?_⟩
  · refine Outcome.Ends.withLocal (((hio rs ks).mono (fun _ y hy => ?_) (fun e y hy => ?_)
      fun _ hp => hp).attempt (fun _ _ h => h) fun _ _ h => h)
    · obtain ⟨rs',z,_,⟨rfl,hb⟩,rfl⟩ := hy
      obtain ⟨hresid,hbuf⟩ := took_uio (readable (s.fileAt ino).size r.offset r.length)
        (s.byteAt ino)
      have hn : readable (s.fileAt ino).size r.offset r.length =
          min r.length.val ((s.fileAt ino).size - r.offset) := by
        unfold readable at hb ⊢
        split_ifs at hb ⊢ <;> omega
      exact ⟨_,by omega,by omega,hresid,hbuf,fun _ => hn⟩
    · obtain ⟨rs',n,_,hn,⟨_,hb⟩,rfl,_⟩ := hy
      obtain ⟨hresid,hbuf⟩ := took_uio n (s.byteAt ino)
      unfold readable at hn
      refine ⟨n,?_,?_,hresid,hbuf,fun he => by cases he⟩ <;> split_ifs at hn <;> omega
  · by_contra hwrap
    simp only [not_or,not_lt,not_le] at hwrap
    obtain ⟨e,n,t,hcall,hn,hpast⟩ :=
      wrapped_read h hv hwrap.1 (hsize ▸ hwrap.2.1) (hsize ▸ hwrap.2.2) (hsize ▸ hmapped)
    have hends := hall [] []
    rw [StopsAtEnd,hcall] at hends
    obtain ⟨m,hm,hm',hresid,_⟩ := hends
    rw [(took_uio n _).1] at hresid
    omega

/-- A read with room for 512 bytes and a length that makes the end of the request negative. -/
def farRead : Request := ⟨0,2147483648,fun _ => 0,fun k => decide (512 ≤ k)⟩

theorem reads_stop_at_end_one : ∃ s₀ s, volume4096 = some s₀ ∧
    run step s₀ (newFile ++ [.write 3 (.fill 0 1 7)]) = some s ∧ s.loaded 3 = true ∧
    (sfsReadWrite 3 (Request.uio (.fill 0 600 0) .read) (s.failing [.ok,.media] [])).Ends
      (fun out _ => ∃ n, n ≤ (s.fileAt 3).size ∧ out.2.resid = 600 - n) (fun _ _ => False)
      (fun _ => False) := by
  have h : (volume4096.any fun s₀ =>
      (run step s₀ (newFile ++ [.write 3 (.fill 0 1 7)])).any fun s => s.loaded 3) = true := by
    decide +kernel
  obtain ⟨s₀,hs₀,h⟩ := some_of_any h
  obtain ⟨s,hs,hl⟩ := some_of_any h
  refine ⟨s₀,s,hs₀,hs,hl,((reads_stop_at_end (r := .fill 0 600 0) hs₀ hs hl).1 (.inl (by decide))
    _ _).mono (fun out _ hout => ?_) (fun _ _ he => he) fun p hp => ?_⟩
  · obtain ⟨n,hn,_,hresid,_⟩ := hout
    exact ⟨n,hn,hresid⟩
  · simp at hp

/-- From a file of one byte 512 bytes are read. -/
theorem read_passes_end : ∃ s₀ s t u, volume4096 = some s₀ ∧
    run step s₀ (newFile ++ [.write 3 (.fill 0 1 7)]) = some s ∧
    exec (.read 3 farRead) s = .ok (.io (.error .EFAULT) u) t ∧
    (s.fileAt 3).size = 1 ∧ farRead.length - u.resid = 512 := by
  obtain ⟨s₀,s,t,res,u,hs₀,hs,hrun,hx⟩ := exec_io_of_test
    (A := newFile ++ [.write 3 (.fill 0 1 7)]) (a := .read 3 farRead)
    (p := fun s _ res u => decide (res = .error .EFAULT ∧ (s.fileAt 3).size = 1 ∧
      farRead.length - u.resid = 512)) (by decide +kernel)
  obtain ⟨rfl,hrest⟩ := of_decide_eq_true hx
  exact ⟨s₀,s,t,u,hs₀,hs,hrun,hrest⟩

end Volumes

section Truncation

variable {volname : Name} {stSize : Fin (2^31)} {image : Nat → Block} {s₀ s : Fs} {ino : Nat}
  {before : List Act}

/-- Block `c` belongs to the part of the file that is cut off, or it is the indirect block and that
is given up. -/
def Excess (s t : Fs) (ino blocklen c : Nat) : Prop :=
  c ≠ 0 ∧ ((∃ k, blocklen ≤ k ∧ s.blockAt ino k = c) ∨
    (s.inodeAt ino).indirect = c ∧ (t.inodeAt ino).indirect = 0)

theorem truncateKeeps_map {blocklen : Nat} (h : blocklen < 15 ∨ s.blockAt ino blocklen = 0)
    (k : Nat) : (if truncateKeeps blocklen k = true then s.blockAt ino k else 0) =
      if k < blocklen then s.blockAt ino k else 0 := by
  have hsame : truncateKeeps blocklen k = true ↔ k < blocklen ∨ 15 ≤ k ∧ k = blocklen := by
    rw [truncateKeeps]
    split <;> simp <;> omega
  by_cases hlt : k < blocklen
  · rw [if_pos (hsame.mpr (.inl hlt)),if_pos hlt]
  · rw [if_neg hlt]
    split
    · next hkeep =>
      obtain ⟨hge,rfl⟩ := (hsame.mp hkeep).resolve_left hlt
      exact h.resolve_left (by omega)
    · rfl

theorem blockAt_of_indirect (h : (s.inodeAt ino).indirect = 0) {k : Nat} (hk : 15 ≤ k) :
    s.blockAt ino k = 0 := by
  rw [Fs.blockAt,dif_neg (by omega),if_neg fun hc => hc.2 h]

theorem excess_iff {L : Nat → Prop} {u : Fs} {blocklen c : Nat} {idgone : Bool} (hL : L ino)
    (hshed : Shed L ino (truncateKeeps blocklen) idgone s u)
    (hcut : blocklen < 15 ∨ s.blockAt ino blocklen = 0) :
    (∃ o, losers ino (truncateKeeps blocklen) idgone o ∧ owns s L none o c) ↔
      Excess s u ino blocklen c := by
  have hmap := truncateKeeps_map hcut
  constructor
  · rintro ⟨o,hl,ho⟩
    cases o with
    | slot i k =>
      obtain ⟨rfl,hk⟩ := hl
      refine ⟨ho.2.1,.inl ⟨k,?_,ho.2.2⟩⟩
      by_contra hlt
      have hmapk := hmap k
      rw [hk,if_neg Bool.false_ne_true,if_pos (by omega)] at hmapk
      exact ho.2.1 (ho.2.2 ▸ hmapk.symm)
    | indirect i =>
      obtain ⟨rfl,hg⟩ := hl
      refine ⟨ho.2.1,.inr ⟨ho.2.2,?_⟩⟩
      rw [hshed.indirect,if_pos hg]
    | _ => exact hl.elim
  · rintro ⟨hc,⟨k,hk,hblk⟩ | ⟨hind,hgone⟩⟩
    · refine ⟨.slot ino k,⟨rfl,?_⟩,hL,hc,hblk⟩
      by_contra hkeep
      have hmapk := hmap k
      rw [if_pos (Bool.eq_true_of_not_eq_false hkeep),if_neg (by omega)] at hmapk
      exact hc (hblk ▸ hmapk)
    · refine ⟨.indirect ino,⟨rfl,?_⟩,hL,hc,hind⟩
      by_contra hkept
      rw [hshed.indirect,if_neg hkept] at hgone
      exact hc (hind ▸ hgone)

/-- sfs_truncate frees the blocks past the new end and an indirect block without entries, each of
which was marked, and nothing else: just if the first block past the new end is a direct one or not
mapped, and the indirect block of a file of almost full length is not empty. -/
theorem truncate_frees_excess (hs₀ : volume volname stSize image = some s₀)
    (hs : run step s₀ before = some s) (hl : s.loaded ino = true) (len : Nat)
    (hlen : len ≤ (sfsNdirect + sfsDbperidb) * sfsBlocksize) :
    (∃ t, sfsTruncate ino len s = .ok () t ∧ (t.fileAt ino).size = len ∧
      (∀ k, t.blockAt ino k = if k < (len + 511) / 512 then s.blockAt ino k else 0) ∧
      ((∃ k, 15 ≤ k ∧ t.blockAt ino k ≠ 0) → (t.inodeAt ino).indirect = (s.inodeAt ino).indirect) ∧
      ((∀ k, 15 ≤ k → t.blockAt ino k = 0) → (t.inodeAt ino).indirect = 0) ∧
      (∀ c, Excess s t ino ((len + 511) / 512) c → s.freemap.isset c = true) ∧
      ∀ c, c < s.freemap.nbits → (t.freemap.isset c = true ↔
        s.freemap.isset c = true ∧ ¬ Excess s t ino ((len + 511) / 512) c)) ↔
    ((len + 511) / 512 < 15 ∨ s.blockAt ino ((len + 511) / 512) = 0) ∧
      ((len + 511) / 512 < 142 ∨ (s.inodeAt ino).indirect = 0 ∨
        ∃ k, 15 ≤ k ∧ k < (len + 511) / 512 ∧ s.blockAt ino k ≠ 0) := by
  have hroom : len ≤ 143 * 512 := hlen
  have h := reachable_inv hs₀ hs
  obtain ⟨v,hv⟩ := exists_vnode hl
  have hu : toU32 (len : Int) = len := toU32_natCast (by omega)
  have hbl : truncateBlocklen len = (len + 511) / 512 := truncateBlocklen_eq (by omega)
  have hsize : toU32 (len : Int) < 2^31 := by omega
  obtain ⟨_,t,hrun,hown,hbecomes,_⟩ := (sfsTruncate_spec h.own hv hsize).returns
  have hshape : (sfsTruncate ino len s).Safe _ _ := sfsTruncate_shed h.own hv
  rw [hrun] at hshape
  obtain ⟨u,w,idgone,rfl,hw,hshed,hkept,hleft⟩ := hshape
  rw [hbl] at hshed hkept hleft
  have hind : ((u.put ino fun i => { i with size := toU32 len }).inodeAt ino).indirect =
      (u.inodeAt ino).indirect := by
    rw [inodeAt_put_self hw,inodeAt_loaded hw]
  refine ⟨fun ⟨t,hrun',_,hmaps,_,hgone,_⟩ => ?_,fun ⟨hcut,hid⟩ => ?_⟩
  · obtain rfl : _ = t := (Outcome.ok.inj (hrun.symm.trans hrun')).2
    refine ⟨?_,?_⟩
    · by_contra hno
      obtain ⟨hge,hne⟩ := not_or.mp hno
      have hzero := hmaps ((len + 511) / 512)
      rw [blockAt_put_same hw rfl rfl,hshed.maps,truncateKeeps,if_neg hge,if_neg (lt_irrefl _),
        decide_eq_true (le_refl _),if_pos rfl] at hzero
      exact hne hzero
    · by_contra hno
      obtain ⟨hge,hne⟩ := not_or.mp hno
      obtain ⟨hne,hnone⟩ := not_or.mp hne
      have hzero := hgone fun k hk => by
        rw [hmaps]
        split
        · next hlt => exact not_not.mp fun hk' => hnone ⟨k,hk,hlt,hk'⟩
        · rfl
      rw [hind,hshed.indirect,hkept (by omega),if_neg Bool.false_ne_true] at hzero
      exact hne hzero
  have hblk : ∀ k, u.blockAt ino k = if k < (len + 511) / 512 then s.blockAt ino k else 0 :=
    fun k => (hshed.maps k).trans (truncateKeeps_map hcut k)
  have hexcess : ∀ c, Excess s (u.put ino fun i => { i with size := toU32 len }) ino
      ((len + 511) / 512) c ↔ ∃ o, losers ino (truncateKeeps ((len + 511) / 512)) idgone o ∧
        owns s (Live s) none o c := fun c => by
    rw [excess_iff (h.own.live hv) hshed hcut,Excess,Excess,hind]
  refine ⟨_,hrun,?_,fun k => ?_,?_,?_,fun c hc => ?_,fun c hc => ?_⟩
  · rw [hbecomes.self,hu]
  · rw [blockAt_put_same hw rfl rfl]
    exact hblk k
  · rintro ⟨k,hk,hne⟩
    rw [hind,hshed.indirect,if_neg fun hg => hne ?_]
    rw [blockAt_put_same hw rfl rfl,blockAt_of_indirect _ hk]
    rw [hshed.indirect,if_pos hg]
  · intro hnone
    rw [hind]
    by_contra hne
    have hnone' : ∀ k, 15 ≤ k → u.blockAt ino k = 0 := fun k hk => by
      have hput := hnone k hk
      rwa [blockAt_put_same hw rfl rfl] at hput
    rcases hleft hne with hhigh | ⟨k,hk,hk'⟩
    · -- the indirect block has not been looked at
      rcases hid with hlow | hzero | ⟨k,hk,hlt,hk'⟩
      · omega
      · rw [hshed.indirect,hzero,ite_self] at hne
        exact hne rfl
      · have hmapped := hnone' k hk
        rw [hblk k,if_pos hlt] at hmapped
        exact hk' hmapped
    · exact hk' (hnone' k hk)
  · obtain ⟨o,_,ho⟩ := (hexcess c).mp hc
    exact (h.own.exact.sound o c ho).2
  · rw [hexcess c,not_exists]
    have hsuper : u.super = s.super := hshed.becomes.super
    by_cases hin : c < s.super.nblocks
    · have hheld := hshed.held h.own c
      simp only [Fs.held,hsuper,hin,true_and] at hheld
      simp only [not_and]
      exact hheld
    · have hafter : u.freemap.isset c = true := by
        refine hown.geo.beyond c (show u.super.nblocks ≤ c by rw [hsuper]; omega) ?_
        rw [hown.geo.nbits,put_super,hsuper,← h.own.geo.nbits]
        exact hc
      refine iff_of_true hafter ⟨h.own.geo.beyond c (by omega) hc,fun o ho => ?_⟩
      exact hin (h.own.exact.sound o c ho.2).1

theorem truncate_frees_excess_block : ∃ s₀ s t, volume4096 = some s₀ ∧
    run step s₀ (newFile ++ [.write 3 (.fill 0 1024 7)]) = some s ∧
    sfsTruncate 3 (512 : Nat) s = .ok () t ∧ s.blockAt 3 1 ≠ 0 ∧ t.blockAt 3 1 = 0 ∧
    s.freemap.isset (s.blockAt 3 1) = true := by
  have h : (volume4096.any fun s₀ =>
      (run step s₀ (newFile ++ [.write 3 (.fill 0 1024 7)])).any fun s =>
        s.loaded 3 && decide (s.blockAt 3 1 ≠ 0)) = true := by
    decide +kernel
  obtain ⟨s₀,hs₀,h⟩ := some_of_any h
  obtain ⟨s,hs,h⟩ := some_of_any h
  rw [Bool.and_eq_true,decide_eq_true_eq] at h
  obtain ⟨t,hrun,_,hmaps,_,_,hmarked,_⟩ := (truncate_frees_excess hs₀ hs h.1 512
    (by decide)).mpr ⟨.inl (by decide),.inl (by decide)⟩
  exact ⟨s₀,s,t,hs₀,hs,hrun,h.2,hmaps 1,hmarked _ ⟨h.2,.inl ⟨1,Nat.le_refl _,rfl⟩⟩⟩

/-- Block 15 of a file that is cut to 15 blocks stays mapped. -/
theorem truncate_leaves_block : ∃ s₀ s t, volume4096 = some s₀ ∧
    run step s₀ (newFile ++ [.write 3 (.fill 7680 1 7)]) = some s ∧
    sfsTruncate 3 (7680 : Nat) s = .ok () t ∧ t.blockAt 3 15 ≠ 0 := by
  have h : (volume4096.any fun s₀ =>
      (run step s₀ (newFile ++ [.write 3 (.fill 7680 1 7)])).any fun s =>
        (sfsTruncate 3 (7680 : Nat) s).test fun _ t => decide (t.blockAt 3 15 ≠ 0)) = true := by
    decide +kernel
  obtain ⟨s₀,hs₀,h⟩ := some_of_any h
  obtain ⟨s,hs,h⟩ := some_of_any h
  obtain ⟨_,t,hrun,hx⟩ := Outcome.test_eq_true h
  exact ⟨s₀,s,t,hs₀,hs,hrun,of_decide_eq_true hx⟩

end Truncation

end MipsOs.Sfs
