import MipsOs.SfsHoldings

/-! The code of sfs_write keeps to the blocks that the call holds, and it does its work whatever the
other call does: one rule for each function, from the device driver up. -/

set_option autoImplicit false
namespace MipsOs.SfsWriters
open Bytes Coroutines Function
open Sfs (Fs Inode SfsVnode File Panic LhdResult lhdSectsize sfsBlocksize sfsNdirect sfsDbperidb
  decodeIdbuf encodeIdbuf Request clip)

section Disk

/-- Of the static buffers, the transfer uses only those of the call. -/
def Transfer.fits (c : Setting) (t : Bool) : Transfer → Prop
  | .write src => ∀ b, src = .static b → c.uses t b
  | .read dst => c.uses t dst

def Uio.moved (u : Uio) (b : Nat) (s : Kernel) : Kernel :=
  match u.transfer with
  | .write src =>
    { s with fs := s.fs.setSector b (splice Bytes.zeros 0 lhdSectsize (s.bytes src) u.base) }
  | .read dst => s.setBuf dst (splice (s.buf dst) u.base lhdSectsize (s.fs.dev.sector b) 0)

/-- Writes take the data from memory that may not be there. -/
def Uio.moves (u : Uio) : Prop :=
  ∀ src, u.transfer = .write src → u.faulty lhdSectsize = false

variable {c : Setting} {t : Bool} {w : Holding} {s : Kernel} {b : Nat} {u : Uio}
  {P : Holding → Except Errno Unit × Uio → Kernel → Prop}

theorem keeps_lhdSector (hu : u.transfer.fits c t) (hb : w.mine b)
    (hfault : u.faulty lhdSectsize = true → ∀ s', Same c t w s s' → P w (.error .EFAULT,u) s')
    (hok : u.moves → ∀ s', Same c t w s s' → P w (.ok (),u.advance lhdSectsize) (u.moved b s')) :
    Keeps c t P w (lhdSector u b) s := by
  have htrans {s₁ s₂ s₃ : Kernel} : Same c t w s₁ s₂ → Same c t w s₂ s₃ → Same c t w s₁ s₃ :=
    (same_equivalence c t w).trans
  unfold lhdSector
  unfold Uio.moved Uio.moves at hok
  cases hx : u.transfer with
  | write src =>
    rw [hx] at hu hok
    refine Within.bind fun s' hs => ⟨fun hq => ?_,fun q hq s'' hs' r hr ws hfit hw => ?_⟩
    · exact hfault (by simpa using hq) s' hs
    · cases hf : u.faulty lhdSectsize with
      | true => simp [hf] at hq
      | false =>
        simp only [hf,Bool.false_eq_true,if_false,Option.some.injEq] at hq
        subst hq hr
        refine ⟨w,moves_setSector hfit hw hb _,?_⟩
        have hend := hok (fun _ _ => hf) s'' (htrans hs hs')
        simp only [bytes_same hs' hu] at hend
        exact hend
  | read dst =>
    rw [hx] at hu hok
    refine Within.bind fun s' hs => ⟨fun hq => ?_,fun q hq s'' hs' r hr ws hfit hw => ?_⟩
    · cases hq
    · cases hq
      subst hr
      refine ⟨w,Moves.same (same_equivalence c) hfit hw,?_⟩
      exact Within.bind (Within.modify (fun ws hfit hw => moves_setBuf hfit hw hu _)
        (hok (by simp) s'' (htrans hs hs')))

theorem keeps_sfsRwblock (hw : Based w s.fs) (hu : u.transfer.fits c t) (hb : w.mine b)
    (hoff : u.offset = (b * 512 : Nat)) (hres : u.resid = 512)
    (hfault : u.faulty lhdSectsize = true → ∀ s', Same c t w s s' → P w (.error .EFAULT,u) s')
    (hok : u.moves → ∀ s', Same c t w s s' → P w (.ok (),u.advance lhdSectsize) (u.moved b s')) :
    Keeps c t P w (sfsRwblock u) s := by
  obtain ⟨hblocks,hlt⟩ := hw.lt hb
  have hsmall := hw.small
  obtain ⟨hsect,hsoff⟩ := Sfs.sector_at hoff (by omega)
  have hlen : u.resid / lhdSectsize = 1 := by rw [hres,lhdSectsize]
  have hlenoff : u.resid % lhdSectsize = 0 := by rw [hres,lhdSectsize]
  refine Within.bind (Within.bind (Within.read (same_equivalence c) fun _ _ _ => ?_))
  simp only [hsect,hsoff,hlen,hlenoff]
  rw [if_neg (by simp),if_neg (by omega),lhdLoop,Nat.mod_eq_of_lt (by omega)]
  exact Within.bind (keeps_lhdSector hu hb hfault hok)

theorem block_offset (hlt : b < 2^22) :
    toInt32 (b * sfsBlocksize % 2^32) = ((b * 512 : Nat) : Int) := by
  rw [sfsBlocksize,Nat.mod_eq_of_lt (by omega),toInt32_of_lt (by omega)]

theorem sfsUio_eq (transfer : Transfer) (hlt : b < 2^22) :
    sfsUio transfer b = ⟨transfer,0,((b * 512 : Nat) : Int),512,fun _ => false⟩ := by
  rw [sfsUio,block_offset hlt,sfsBlocksize]

variable {R : Holding → Except Errno Unit → Kernel → Prop}

theorem keeps_sfsRblock (hw : Based w s.fs) {d : Static} (hd : c.uses t d) (hb : w.mine b)
    (hok : ∀ s', Same c t w s s' →
      R w (.ok ()) (s'.setBuf d (splice (s'.buf d) 0 lhdSectsize (s'.fs.dev.sector b) 0))) :
    Keeps c t R w (sfsRblock d b) s := by
  rw [sfsRblock,sfsUio_eq _ (hw.lt hb).2]
  exact Within.bind (keeps_sfsRwblock hw hd hb rfl rfl (by simp [Uio.faulty]) fun _ => hok)

theorem keeps_sfsWblock (hw : Based w s.fs) {src : Memory}
    (hsrc : ∀ d, src = .static d → c.uses t d) (hb : w.mine b)
    (hok : ∀ s', Same c t w s s' →
      R w (.ok ()) { s' with fs := s'.fs.setSector b (clip (s'.bytes src)) }) :
    Keeps c t R w (sfsWblock src b) s := by
  rw [sfsWblock,sfsUio_eq _ (hw.lt hb).2]
  exact Within.bind (keeps_sfsRwblock hw hsrc hb rfl rfl (by simp [Uio.faulty]) fun _ => hok)

end Disk

section Allocation

variable {c : Setting} {t : Bool} {w : Holding} {s : Kernel} {b k : Nat}
  {P : Holding → Except Errno Nat → Kernel → Prop}

/-- A ticket stands for a free block. -/
theorem Fit.room {ws : Bool → Holding} (hfit : Fit c ws s) (hfine : c.fine)
    (hk : k ∈ (ws t).tickets) : ∃ b, b < s.fs.freemap.nbits ∧ s.fs.freemap.isset b = false := by
  have henough := hfit.enough hfine
  have hpos := Finset.card_pos.mpr ⟨k,hk⟩
  have hfree : 0 < (freeBlocks s.fs).card := by
    cases t <;> omega
  obtain ⟨b,hb⟩ := Finset.card_pos.mp hfree
  have hb' := mem_freeBlocks.mp hb
  exact ⟨b,Nat.lt_of_lt_of_le hb'.1 hfit.nbits,hb'.2⟩

/-- The search and the mark are not interrupted; the block is cleared when it is no longer free. -/
theorem keeps_sfsBalloc (hw : Based w s.fs) (hk : c.fine → k ∈ w.tickets)
    (hfull : ¬ c.fine → P w (.error .ENOSPC) s)
    (hok : ∀ b s', Same c t w s s' → Fresh c w s'.fs b → P (w.take b k) (.ok b) s') :
    Keeps c t P w sfsBalloc s := by
  refine Within.bind (Within.read (same_equivalence c) fun ws hfit hws => ?_)
  rcases Bitmap.alloc_spec hfit.padded with ⟨hfail,hall⟩ | ⟨b,hgot,hlt,hfree,_⟩
  · rw [hfail]
    refine hfull fun hfine => ?_
    obtain ⟨b,hlt,hfree⟩ := hfit.room (t := t) hfine (hws ▸ hk hfine)
    rw [hall b hlt] at hfree
    cases hfree
  · rw [hgot]
    have hin : b < s.fs.super.nblocks := by
      by_contra hge
      rw [hfit.beyond b (by omega) hlt] at hfree
      cases hfree
    have hmine : ¬ w.mine b := by
      intro hm
      rw [(hw.held b hm).2.2] at hfree
      cases hfree
    have hne : b ≠ 0 := by
      rintro rfl
      rw [hfit.zero] at hfree
      cases hfree
    have hnew : c.initial.freemap.isset b = false := by
      by_contra hset
      rw [hfit.grown b (by simpa using hset)] at hfree
      cases hfree
    refine Within.bind (Within.modify (fun ws hfit hws => moves_mark hfit hws
      (mem_freeBlocks.mpr ⟨hin,hfree⟩) hk) ?_)
    refine Within.bind (Within.read (same_equivalence c) fun _ _ _ => ?_)
    show Keeps c t P (w.take b k) (if b ≥ s.fs.super.nblocks then _ else _)
      { s with fs := s.fs.mark b }
    rw [if_neg (Nat.not_le.mpr hin)]
    have hset : ∀ x, (s.fs.mark b).freemap.isset x = (decide (x = b) || s.fs.freemap.isset x) :=
      fun x => Bitmap.isset_setBit _ _ _
    have hbased : Based (w.take b k) (s.fs.mark b) := by
      refine ⟨hw.disk,hw.small,?_⟩
      rintro x (rfl | hx)
      · exact ⟨hne,hin,by simp [hset]⟩
      · exact ⟨(hw.held x hx).1,(hw.held x hx).2.1,by rw [hset,(hw.held x hx).2.2,Bool.or_true]⟩
    refine Within.bind (keeps_sfsWblock hbased (by simp) (.inl rfl) fun s' hs => ?_)
    have hother : ∀ x, w.mine x → x ≠ b := fun x hx he => hmine (he ▸ hx)
    refine hok b _ ⟨hs.vnode,fun x hx => ?_,fun x hx => ?_,hs.nblocks,hs.blocks,hs.buf⟩
      ⟨hne,⟨?_,?_⟩,hmine,?_,hnew⟩
    · exact (update_of_ne (hother x hx) _ _).trans (hs.sector x (.inr hx))
    · refine (hs.marked x (.inr hx)).trans ?_
      show (s.fs.mark b).freemap.isset x = _
      rw [hset]
      simp [hother x hx]
    · exact hs.nblocks ▸ hin
    · refine (hs.marked b (.inl rfl)).trans ?_
      show (s.fs.mark b).freemap.isset b = true
      simp [hset]
    · simp only [Sfs.setSector_sector,update_self,Kernel.bytes,Sfs.clip_zeros]

theorem keeps_handBack (ino fileblock : Nat) (hb : b ≠ 0 → s.fs.held b) (hok : P w (.ok b) s) :
    Keeps c t P w (handBack ino fileblock b) s := by
  unfold handBack
  split
  · exact hok
  · next hne =>
    obtain ⟨hlt,hset⟩ := hb hne
    refine Within.bind (Within.bind (Within.read (same_equivalence c) fun _ _ _ => ?_))
    rw [if_neg (by omega)]
    refine Within.read (same_equivalence c) fun _ _ _ => ?_
    rw [if_pos hset]
    exact hok

variable {α : Type} {R : Holding → α → Kernel → Prop}

theorem keeps_getVnode {code : SfsVnode → Thread α} {v : SfsVnode}
    (hv : s.fs.vnode (c.ino t) = some v) (hc : Keeps c t R w (code v) s) :
    Keeps c t R w (getVnode (c.ino t) >>= code) s := by
  refine Within.bind (Within.bind (Within.read (same_equivalence c) fun _ _ _ => ?_))
  rw [hv]
  exact hc

theorem keeps_putInode {R : Holding → Unit → Kernel → Prop} {g : Inode → Inode}
    (hok : R w () { s with fs := s.fs.put (c.ino t) g }) :
    Keeps c t R w (putInode (c.ino t) g) s :=
  Within.modify (fun _ hfit hw => moves_put hfit hw g) hok

end Allocation

section Bmap

variable {c : Setting} {t : Bool} {w : Holding} {F : File} {M : Nat → Prop} {s s' : Kernel}

def Fails (c : Setting) (t : Bool) (w : Holding) (s : Kernel) : Prop :=
  Ready c t w s.fs ∧ ¬ c.fine

def Leaves (c : Setting) (t : Bool) {β : Type} (G : β → Kernel → Prop) (w : Holding)
    (r : Except Errno β) (s : Kernel) : Prop :=
  match r with
  | .ok x => G x s
  | .error _ => Fails c t w s

def Found (c : Setting) (t : Bool) (F : File) (M : Nat → Prop) (k : Nat) (w : Holding)
    (r : Except Errno Nat) (s : Kernel) : Prop :=
  Leaves c t (fun b s => At c t w F (fun j => j = k ∨ M j) s.fs ∧
    s.fs.blockAt (c.ino t) k = b) w r s

variable {k x idoff : Nat}

theorem At.found (ha : At c t w F M s.fs) (hk : s.fs.blockAt (c.ino t) k ≠ 0) :
    Found c t F M k w (.ok (s.fs.blockAt (c.ino t) k)) s := ⟨ha.add hk,rfl⟩

theorem At.held_blockAt {fs : Fs} (ha : At c t w F M fs)
    (hk : fs.blockAt (c.ino t) k ≠ 0) : fs.held (fs.blockAt (c.ino t) k) :=
  (ha.held _ (ha.toReady.blockAt_mine hk)).2

theorem Setting.wants_touched (hk : touches (c.request t) k) (hlt : k < 143) :
    c.wants t k := .inl ⟨hlt,hk⟩

theorem keeps_bmapDirect (ha : At c t w F M s.fs) {k : Fin 15} (hk : touches (c.request t) k) :
    Keeps c t (Found c t F M k) w (bmapDirect (c.ino t) k true) s := by
  obtain ⟨v,hv⟩ := ha.loaded
  have hlt := k.isLt
  have hblk : s.fs.blockAt (c.ino t) k = v.i.direct k := by
    simp [Fs.blockAt,Sfs.inodeAt_loaded hv]
  refine keeps_getVnode hv ?_
  split
  · next hz =>
    have hzero := hblk.trans hz.1
    have hticket : c.fine → k.val ∈ w.tickets := fun hfine =>
      ha.paid hfine k (Setting.wants_touched hk (by omega)) (by rw [slot_lt (by omega),hzero])
    refine Within.bind (keeps_sfsBalloc ha.toBased hticket (fun hnf => ⟨ha.toReady,hnf⟩)
      fun b s' hs hf => ?_)
    have hzero' : s'.fs.blockAt (c.ino t) k = 0 := (ha.toReady.blockAt_same hs k).trans hzero
    obtain ⟨ha',hb⟩ := (ha.congr hs).putDirect k hf hzero'
    exact Within.bind (keeps_putInode (keeps_handBack _ _ (fun _ => hf.held) ⟨ha',hb⟩))
  · next hnz =>
    have hne : s.fs.blockAt (c.ino t) k ≠ 0 := by
      rw [hblk]
      simpa using hnz
    rw [← hblk]
    exact keeps_handBack _ _ (fun _ => ha.held_blockAt hne) (ha.found hne)

/-- The indirect block is there, and idbuf has its entries. -/
structure InIdbuf (c : Setting) (t : Bool) (w : Holding) (F : File) (M : Nat → Prop) (s : Kernel)
    (x : Nat) : Prop extends At c t w F M s.fs where
  ne_zero : x ≠ 0
  indirect : (s.fs.inodeAt (c.ino t)).indirect = x
  entries : ∀ j, j < 128 → decodeIdbuf (s.buf .idbuf) j = decodeIdbuf (s.fs.dev.sector x) j

theorem InIdbuf.mine_idblock (hi : InIdbuf c t w F M s x) : w.mine x := by
  have hne := hi.ne_zero
  rw [← hi.indirect] at hne ⊢
  exact hi.indirect_mine hne

theorem InIdbuf.congr (hi : InIdbuf c t w F M s x) (hid : c.uses t .idbuf)
    (hs : Same c t w s s') : InIdbuf c t w F M s' x where
  toAt := hi.toAt.congr hs
  ne_zero := hi.ne_zero
  indirect := by
    rw [hi.toReady.inodeAt hs.vnode]
    exact hi.indirect
  entries := by
    rw [hs.buf _ hid,hs.sector x hi.mine_idblock]
    exact hi.entries

theorem InIdbuf.blockAt (hi : InIdbuf c t w F M s x) (hoff : idoff < 128) :
    s.fs.blockAt (c.ino t) (idoff + 15) = decodeIdbuf (s.buf .idbuf) idoff := by
  simp only [Fs.blockAt,hi.indirect]
  rw [dif_neg (by omega),if_pos ⟨by omega,hi.ne_zero⟩,Nat.add_sub_cancel,hi.entries idoff hoff]

theorem decodeIdbuf_read (old data : Buffer) {j : Nat} (hj : j < 128) :
    decodeIdbuf (splice old 0 lhdSectsize data 0) j = decodeIdbuf data j := by
  refine be32_congr fun i hi => ?_
  rw [splice_inside (Nat.zero_le _) (by simp only [lhdSectsize]; omega)]
  simp

theorem keeps_bmapIdblock (ha : At c t w F M s.fs) (hid : c.uses t .idbuf)
    (hk : touches (c.request t) k) (hge : 15 ≤ k) :
    Keeps c t (fun w => Leaves c t (fun x s => InIdbuf c t w F M s x) w) w
      (bmapIdblock (c.ino t)) s := by
  obtain ⟨v,hv⟩ := ha.loaded
  have hinode := Sfs.inodeAt_loaded hv
  refine keeps_getVnode hv ?_
  split
  · next hz =>
    have hzero : (s.fs.inodeAt (c.ino t)).indirect = 0 := by rw [hinode,hz]
    have hticket : c.fine → 143 ∈ w.tickets := fun hfine =>
      ha.paid hfine 143 (.inr ⟨rfl,k,hk,hge⟩) (by rw [slot_indirect,hzero])
    refine Within.bind (keeps_sfsBalloc ha.toBased hticket (fun hnf => ⟨ha.toReady,hnf⟩)
      fun b s' hs hf => ?_)
    have hzero' : (s'.fs.inodeAt (c.ino t)).indirect = 0 := by
      rw [ha.toReady.inodeAt hs.vnode,hzero]
    obtain ⟨v',hv'⟩ := (ha.congr hs).loaded
    refine Within.bind (keeps_putInode (Within.bind (Within.modify
      (fun _ hfit hw => moves_setBuf hfit hw hid _) ?_)))
    refine ⟨(ha.congr hs).putIndirect hf hzero',hf.ne_zero,?_,fun j _ => ?_⟩
    · exact congrArg Inode.indirect (Sfs.inodeAt_put_self hv' _)
    · simp only [Kernel.setBuf,update_self,Sfs.put_dev,hf.zeros]
  · next hne =>
    have hne' : (s.fs.inodeAt (c.ino t)).indirect ≠ 0 := by
      rw [hinode]
      exact hne
    rw [← hinode]
    refine Within.bind (keeps_sfsRblock ha.toBased hid (ha.indirect_mine hne') fun s' hs => ?_)
    have ha' : At c t w F M s'.fs := ha.congr hs
    refine ⟨ha',hne',?_,fun j hj => ?_⟩
    · exact congrArg Inode.indirect (ha.toReady.inodeAt hs.vnode)
    · rw [setBuf_self]
      exact decodeIdbuf_read _ _ hj

theorem keeps_bmapEntry (hid : c.uses t .idbuf) (hi : InIdbuf c t w F M s x)
    (hoff : idoff < 128) (hk : touches (c.request t) (idoff + 15)) :
    Keeps c t (Found c t F M (idoff + 15)) w (bmapEntry (c.ino t) x idoff true) s := by
  have hblk := hi.blockAt hoff
  refine Within.bind (Within.read (same_equivalence c) fun _ _ _ => ?_)
  split
  · next hz =>
    have hzero := hblk.trans hz.1
    have hticket : c.fine → idoff + 15 ∈ w.tickets := fun hfine =>
      hi.paid hfine _ (Setting.wants_touched hk (by omega)) (by rw [slot_lt (by omega),hzero])
    refine Within.bind (keeps_sfsBalloc hi.toBased hticket (fun hnf => ⟨hi.toReady,hnf⟩)
      fun b s₁ hs₁ hf => ?_)
    have hi₁ := hi.congr hid hs₁
    have hticketed : Based (w.take b (idoff + 15)) s₁.fs := by
      refine ⟨hi₁.disk,hi₁.small,?_⟩
      rintro y (rfl | hy)
      · exact ⟨hf.ne_zero,hf.held⟩
      · exact hi₁.held y hy
    refine Within.bind (Within.modify (fun _ hfit hw => moves_setBuf hfit hw hid _) ?_)
    refine Within.bind (keeps_sfsWblock (s := s₁.setBuf .idbuf _) hticketed (uses_static hid)
      (.inr hi₁.mine_idblock) fun s₂ hs₂ => ?_)
    -- idbuf has stayed as it is while the other call was running
    have hbuf : s₂.buf .idbuf =
        encodeIdbuf (update (decodeIdbuf (s₁.buf .idbuf)) idoff b) :=
      (hs₂.buf _ hid).trans (setBuf_self _ _ _)
    have hat : At c t w F M s₂.fs := hi₁.toAt.congr (s := s₁.setBuf .idbuf _) hs₂.of_take
    have hfresh : Fresh c w s₂.fs b := hf.congr (s := s₁.setBuf .idbuf _) hs₂
    have hind : (s₂.fs.inodeAt (c.ino t)).indirect = x := by
      rw [hi₁.toReady.inodeAt hs₂.vnode]
      exact hi₁.indirect
    have hblt : b < 2^32 := by
      have hlt := (hticketed.lt (.inl rfl)).2
      omega
    have hsector : s₂.fs.dev.sector x = s₁.fs.dev.sector x :=
      hs₂.sector x (.inr hi₁.mine_idblock)
    have hentries : ∀ j, j < 128 → decodeIdbuf (clip (s₂.buf .idbuf)) j =
        if j = idoff then b else decodeIdbuf (s₂.fs.dev.sector x) j := by
      intro j hj
      rw [Sfs.decodeIdbuf_clip hj,hbuf,Sfs.decode_encodeIdbuf,hsector]
      · by_cases he : j = idoff
        · subst he
          simp
        · rw [if_neg he,update_of_ne he,hi₁.entries j hj]
      · by_cases he : j = idoff
        · subst he
          simpa using hblt
        · rw [update_of_ne he]
          exact be32_lt _ _
    have hzero₂ : s₂.fs.blockAt (c.ino t) (idoff + 15) = 0 := by
      rw [hi₁.toReady.blockAt_same (s := s₁.setBuf .idbuf _) hs₂.of_take]
      exact (hi.toReady.blockAt_same hs₁ _).trans hzero
    exact keeps_handBack _ _ (fun _ => hfresh.held)
      (hat.putEntry hi.ne_zero hind hoff hentries hfresh hzero₂)
  · next hnz =>
    have hne : s.fs.blockAt (c.ino t) (idoff + 15) ≠ 0 := by
      rw [hblk]
      simpa using hnz
    rw [← hblk]
    exact keeps_handBack _ _ (fun _ => hi.held_blockAt hne) (hi.found hne)

theorem keeps_sfsBmap (ha : At c t w F M s.fs) (hk : touches (c.request t) k) :
    Keeps c t (Found c t F M k) w (sfsBmap (c.ino t) k true) s := by
  by_cases hlt : k < 15
  · rw [sfsBmap,dif_pos hlt]
    exact keeps_bmapDirect (k := ⟨k,hlt⟩) ha hk
  · have hid : c.uses t .idbuf := by
      by_contra hna
      exact hlt (c.direct t k hna hk)
    rw [sfsBmap,dif_neg hlt]
    by_cases hnum : (k - sfsNdirect) / sfsDbperidb > 0
    · simp only [if_pos hnum]
      refine ⟨ha.toReady,fun hfine => ?_⟩
      have hin := c.inside hfine t k hk
      simp only [sfsNdirect,sfsDbperidb] at hnum
      omega
    · simp only [if_neg hnum]
      simp only [sfsNdirect,sfsDbperidb] at hnum ⊢
      have hoff : (k - 15) % 128 + 15 = k := by omega
      obtain ⟨v,hv⟩ := ha.loaded
      refine keeps_getVnode hv ?_
      rw [if_neg (by simp)]
      refine Within.bind ((keeps_bmapIdblock ha hid hk (by omega)).mono ?_)
      rintro w' (e | x) s' hpost
      · exact hpost
      · have hentry := keeps_bmapEntry hid hpost (Nat.mod_lt (k - 15) (by omega))
          (by rw [hoff]; exact hk)
        rw [hoff] at hentry
        exact hentry

end Bmap

section Uio

variable {r : Request} {n m : Nat}

def writeUio (r : Request) : Uio :=
  ⟨.write (.user r.buf),0,(r.offset.val : Int),r.length,r.faults⟩

theorem advance_advance (u : Uio) (m n : Nat) : (u.advance m).advance n = u.advance (m + n) := by
  simp only [Uio.advance]
  congr 1 <;> omega

theorem fileblock_eq (hn : n ≤ r.length) :
    toU32 (((writeUio r).advance n).offset.tdiv sfsBlocksize) = (r.offset + n) / 512 := by
  have ho := r.offset.isLt
  have hl := r.length.isLt
  simp only [Uio.advance,writeUio,sfsBlocksize]
  rw [Int.tdiv_eq_ediv_of_nonneg (by omega)]
  unfold toU32
  omega

theorem blkoff_eq :
    ((writeUio r).advance n).offset.tmod sfsBlocksize = (((r.offset + n) % 512 : Nat) : Int) := by
  simp only [Uio.advance,writeUio,sfsBlocksize]
  rw [Int.tmod_eq_emod_of_nonneg (by omega)]
  omega

theorem not_faulty {u : Uio} (hbase : u.base = n) (h : u.faulty m = false) {i : Nat} (hge : n ≤ i)
    (hlt : i < n + m) : u.faults i = false := by
  simp only [Uio.faulty,List.any_eq_false,List.mem_range,Bool.not_eq_true] at h
  have hi := h (i - n) (by omega)
  rwa [hbase,Nat.add_sub_cancel' hge] at hi

theorem fault_not_fine {c : Setting} {t : Bool} {u : Uio} (hbase : u.base = n)
    (hfaults : u.faults = (c.request t).faults) (hm : n + m ≤ (c.request t).length)
    (h : u.faulty m = true) : ¬ c.fine := by
  intro hfine
  obtain ⟨i,hi,hf⟩ := List.any_eq_true.mp h
  have hlt := List.mem_range.mp hi
  rw [hfaults,hbase,c.sound hfine t (n + i) (by omega)] at hf
  cases hf

theorem blockio_advance (u : Uio) (off : Int) :
    let v := { u with offset := off, resid := sfsBlocksize }.advance lhdSectsize
    { v with offset := v.offset - off + u.offset, resid := v.resid + u.resid - sfsBlocksize } =
      u.advance sfsBlocksize := by
  simp only [Uio.advance,sfsBlocksize,lhdSectsize,Nat.sub_self,Nat.zero_add]
  congr 1
  omega

end Uio

section Io

variable {c : Setting} {t : Bool} {w : Holding} {F : File} {M : Nat → Prop} {s : Kernel}
  {n len : Nat}

def Wrote (c : Setting) (t : Bool) (F : File) (M : Nat → Prop) (n len : Nat) (w : Holding)
    (out : Except Errno Unit × Uio) (s : Kernel) : Prop :=
  Leaves c t (fun _ s => out.2 = (writeUio (c.request t)).advance (n + len) ∧
    At c t w (F.patch ((c.request t).offset + n) len (c.request t).buf n)
      (fun j => j = ((c.request t).offset + n) / 512 ∨ M j) s.fs ∧
    ∀ i, n ≤ i → i < n + len → (c.request t).faults i = false) w out.1 s

theorem keeps_sfsPartialio (ha : At c t w F M s.fs) (hio : c.uses t .iobuf)
    (hk : touches (c.request t) (((c.request t).offset + n) / 512)) {skip : Nat}
    (hskip : skip = ((c.request t).offset + n) % 512) (hlen : skip + len ≤ 512)
    (hle : n + len ≤ (c.request t).length) :
    Keeps c t (Wrote c t F M n len) w
      (sfsPartialio (c.ino t) (.user (c.request t).buf) skip len
        ((writeUio (c.request t)).advance n)) s := by
  have hres : min len ((writeUio (c.request t)).advance n).resid = len := by
    refine Nat.min_eq_left ?_
    simp only [Uio.advance,writeUio]
    omega
  rw [sfsPartialio,if_pos (by simpa [sfsBlocksize] using hlen),fileblock_eq (by omega)]
  refine Within.bind ((keeps_sfsBmap ha hk).mono ?_)
  rintro w₁ (e | b) s₁ hfound
  · exact hfound
  · obtain ⟨ha₁,hb⟩ := hfound
    have hb0 : b ≠ 0 := hb ▸ ha₁.mapped _ (.inl rfl)
    have hmine : w₁.mine b := by
      rw [← hb] at hb0 ⊢
      exact ha₁.blockAt_mine hb0
    simp only [if_neg hb0]
    refine Within.bind (keeps_sfsRblock ha₁.toBased hio hmine fun s₂ hs₂ => Within.bind ?_)
    have ha₂ : At c t w₁ F _ s₂.fs := ha₁.congr hs₂
    rw [uiomoveIobuf,hres]
    split
    · next hf => exact ⟨ha₂.toReady,fault_not_fine (Nat.zero_add n) rfl hle hf⟩
    · next hf =>
      refine Within.bind (Within.modify (fun _ hfit hw => moves_setBuf hfit hw hio _) ?_)
      refine Within.bind (keeps_sfsWblock (s := (s₂.setBuf _ _).setBuf _ _) ha₂.toBased
        (uses_static hio) hmine fun s₃ hs₃ => ⟨advance_advance _ _ _,?_,fun i hge hlt => ?_⟩)
      · have ha₃ : At c t w₁ F _ s₃.fs := ha₂.congr (s := (s₂.setBuf _ _).setBuf _ _) hs₃
        have hb₃ : s₃.fs.blockAt (c.ino t) (((c.request t).offset + n) / 512) = b :=
          (ha₂.toReady.blockAt_same (s := (s₂.setBuf _ _).setBuf _ _) hs₃ _).trans
            ((ha₁.toReady.blockAt_same hs₂ _).trans hb)
        have hbuf : s₃.buf .iobuf = splice (splice (s₂.buf .iobuf) 0 lhdSectsize
            (s₂.fs.dev.sector b) 0) skip len (c.request t).buf (0 + n) := by
          refine (hs₃.buf _ hio).trans ((setBuf_self _ _ _).trans ?_)
          rw [setBuf_self]
          rfl
        have hsector : s₃.fs.dev.sector b = s₂.fs.dev.sector b := hs₃.sector b hmine
        have hdata : ∀ j, j < 512 → clip (s₃.buf .iobuf) j =
            splice (s₃.fs.dev.sector b) skip len (c.request t).buf n j := by
          intro j hj
          rw [Sfs.clip_apply hj,hbuf,hsector]
          by_cases hin : skip ≤ j ∧ j < skip + len
          · rw [splice_inside hin.1 hin.2,splice_inside hin.1 hin.2,Nat.zero_add]
          · have hout : j < skip ∨ skip + len ≤ j := by omega
            rw [splice_outside hout,splice_inside (Nat.zero_le j) (by simpa [lhdSectsize] using hj),
              splice_outside hout]
            simp
        have hpos : ((c.request t).offset + n) / 512 * 512 + skip = (c.request t).offset + n := by
          omega
        have hstore := ha₃.store hb₃ hb0 hlen hdata
        rw [hpos] at hstore
        exact hstore
      · exact not_faulty (Nat.zero_add n) (Bool.not_eq_true _ ▸ hf) hge hlt

theorem keeps_sfsBlockio (ha : At c t w F M s.fs)
    (hk : touches (c.request t) (((c.request t).offset + n) / 512))
    (hskip : ((c.request t).offset + n) % 512 = 0) (hle : n + 512 ≤ (c.request t).length) :
    Keeps c t (Wrote c t F M n 512) w
      (sfsBlockio (c.ino t) ((writeUio (c.request t)).advance n)) s := by
  rw [sfsBlockio,fileblock_eq (by omega)]
  refine Within.bind ((keeps_sfsBmap ha hk).mono ?_)
  rintro w₁ (e | b) s₁ hfound
  · exact hfound
  · obtain ⟨ha₁,hb⟩ := hfound
    have hb0 : b ≠ 0 := hb ▸ ha₁.mapped _ (.inl rfl)
    have hmine : w₁.mine b := by
      rw [← hb] at hb0 ⊢
      exact ha₁.blockAt_mine hb0
    have hoff := block_offset (ha₁.toBased.lt hmine).2
    have hres : sfsBlocksize = 512 := rfl
    have hge : sfsBlocksize ≤ ((writeUio (c.request t)).advance n).resid := by
      simp only [Uio.advance,writeUio,sfsBlocksize]
      exact Nat.le_sub_of_add_le (by omega)
    simp only [if_neg hb0]
    rw [blockioDevice,if_pos hge]
    generalize toInt32 (b * sfsBlocksize % 2^32) = off at hoff
    refine Within.bind (keeps_sfsRwblock (b := b) ha₁.toBased ?_ hmine hoff hres
      (fun hf s₂ hs₂ => ?_) fun hf s₂ hs₂ => ?_)
    · simp [Transfer.fits,Uio.advance,writeUio]
    · have hle' : n + lhdSectsize ≤ (c.request t).length := hle
      exact ⟨ha₁.toReady.congr hs₂,fault_not_fine (Nat.zero_add n) rfl hle' hf⟩
    · have ha₂ : At c t w₁ F _ s₂.fs := ha₁.congr hs₂
      have hb₂ : s₂.fs.blockAt (c.ino t) (((c.request t).offset + n) / 512) = b :=
        (ha₁.toReady.blockAt_same hs₂ _).trans hb
      have hdata : ∀ j, j < 512 → splice Bytes.zeros 0 lhdSectsize (c.request t).buf (0 + n) j =
          splice (s₂.fs.dev.sector b) 0 512 (c.request t).buf n j := by
        intro j hj
        rw [splice_inside (Nat.zero_le j) (by simpa [lhdSectsize] using hj),
          splice_inside (Nat.zero_le j) (by omega),Nat.zero_add]
      have hpos : ((c.request t).offset + n) / 512 * 512 + 0 = (c.request t).offset + n := by
        omega
      have hstore := ha₂.store hb₂ hb0 (Nat.le_refl (0 + 512)) hdata
      rw [hpos] at hstore
      refine ⟨?_,hstore,fun i hge hlt => ?_⟩
      · exact (blockio_advance _ _).trans (advance_advance _ _ _)
      · exact not_faulty (Nat.zero_add n) (hf _ rfl) hge hlt

structure Progress (c : Setting) (t : Bool) (n : Nat) (w : Holding) (fs : Fs) : Prop
    extends At c t w
      ((c.initial.fileAt (c.ino t)).patch (c.request t).offset n (c.request t).buf 0)
      (fun k => (c.request t).offset.val / 512 ≤ k ∧ k * 512 < (c.request t).offset.val + n) fs
    where
  clear : ∀ i, i < n → (c.request t).faults i = false

def Reached (c : Setting) (t : Bool) (n : Nat) (w : Holding) (out : Except Errno Unit × Uio)
    (s : Kernel) : Prop :=
  Leaves c t (fun _ s => out.2 = (writeUio (c.request t)).advance n ∧
    Progress c t n w s.fs) w out.1 s

theorem Wrote.reached {out : Except Errno Unit × Uio}
    (hw : Wrote c t ((c.initial.fileAt (c.ino t)).patch (c.request t).offset n
      (c.request t).buf 0) M n len w out s)
    (hclear : ∀ i, i < n → (c.request t).faults i = false)
    (hM : ∀ k, (c.request t).offset.val / 512 ≤ k →
      k * 512 < (c.request t).offset.val + (n + len) →
      k = ((c.request t).offset + n) / 512 ∨ M k) :
    Reached c t (n + len) w out s := by
  obtain ⟨r,u⟩ := out
  cases r with
  | error e => exact hw
  | ok x =>
    obtain ⟨hu,ha,hfaults⟩ := hw
    refine ⟨hu,⟨⟨ha.toReady,?_,fun k hk => ha.mapped k (hM k hk.1 hk.2)⟩,fun i hi => ?_⟩⟩
    · have hpatch := Sfs.patch_patch (c.initial.fileAt (c.ino t)) (c.request t).offset n len
        (c.request t).buf 0
      rw [Nat.zero_add] at hpatch
      rw [← hpatch]
      exact ha.file
    · by_cases hin : i < n
      · exact hclear i hin
      · exact hfaults i (by omega) hi

theorem keeps_ioLoop (m : Nat) (hp : Progress c t n w s.fs)
    (hoff : ((c.request t).offset + n) % 512 = 0) (hle : n + m * 512 ≤ (c.request t).length) :
    Keeps c t (Reached c t (n + m * 512)) w
      (ioLoop (c.ino t) m ((writeUio (c.request t)).advance n)) s := by
  induction m generalizing n w s with
  | zero =>
    rw [Nat.zero_mul,Nat.add_zero]
    exact ⟨rfl,hp⟩
  | succ m ih =>
    have hk : touches (c.request t) (((c.request t).offset + n) / 512) := by
      constructor <;> omega
    have hnext : n + 512 + m * 512 = n + (m + 1) * 512 := by omega
    refine Within.bind ((keeps_sfsBlockio hp.toAt hk hoff (by omega)).mono ?_)
    intro w₁ out s₁ hw
    have hreached := hw.reached hp.clear fun k hlo hhi => by omega
    obtain ⟨r,u⟩ := out
    cases r with
    | error e => exact hreached
    | ok x =>
      obtain ⟨rfl,hp₁⟩ := hreached
      have hloop := ih hp₁ (by omega) (by omega)
      rw [hnext] at hloop
      exact hloop

theorem keeps_ioTrailing (hp : Progress c t n w s.fs)
    (hoff : ((c.request t).offset + n) % 512 = 0) (hn : n ≤ (c.request t).length)
    (hlt : (c.request t).length - n < 512) :
    Keeps c t (Reached c t (c.request t).length) w
      (ioTrailing (c.ino t) (.user (c.request t).buf) ((writeUio (c.request t)).advance n)) s := by
  have hres : ((writeUio (c.request t)).advance n).resid = (c.request t).length - n := rfl
  have hend : n + ((c.request t).length - n) = (c.request t).length := by omega
  rw [ioTrailing,hres,if_pos (by simpa [sfsBlocksize] using hlt)]
  by_cases hpos : 0 < (c.request t).length - n
  · rw [if_pos hpos]
    have hio : c.uses t .iobuf := by
      by_contra hna
      have hwhole := c.whole t hna
      omega
    have hk : touches (c.request t) (((c.request t).offset + n) / 512) := by
      constructor <;> omega
    refine (keeps_sfsPartialio hp.toAt hio hk hoff.symm (by omega) (by omega)).mono ?_
    intro w₁ out s₁ hw
    have hreached := hw.reached hp.clear fun k hlo hhi => by omega
    rw [hend] at hreached
    exact hreached
  · rw [if_neg hpos]
    have hnl : n = (c.request t).length := by omega
    subst hnl
    exact ⟨rfl,hp⟩

theorem keeps_ioBlocks (hp : Progress c t n w s.fs) (hn : n ≤ (c.request t).length)
    (hoff : n = (c.request t).length ∨ ((c.request t).offset + n) % 512 = 0) :
    Keeps c t (Reached c t (c.request t).length) w
      (ioBlocks (c.ino t) (.user (c.request t).buf) ((writeUio (c.request t)).advance n)) s := by
  have hres : ((writeUio (c.request t)).advance n).resid = (c.request t).length - n := rfl
  rw [ioBlocks,hres]
  by_cases hz : (c.request t).length - n = 0
  · rw [if_pos hz]
    have hnl : n = (c.request t).length := by omega
    subst hnl
    exact ⟨rfl,hp⟩
  · have hoff : ((c.request t).offset + n) % 512 = 0 := hoff.resolve_left (by omega)
    rw [if_neg hz,blkoff_eq,hoff,if_pos Nat.cast_zero]
    have hle : n + ((c.request t).length - n) / sfsBlocksize * 512 ≤ (c.request t).length := by
      simp only [sfsBlocksize]
      omega
    have hrest : (c.request t).length -
        (n + ((c.request t).length - n) / sfsBlocksize * 512) < 512 := by
      simp only [sfsBlocksize]
      omega
    refine Within.bind ((keeps_ioLoop _ hp hoff hle).mono ?_)
    intro w₁ out s₁ hreached
    obtain ⟨r,u⟩ := out
    cases r with
    | error e => exact hreached
    | ok x =>
      obtain ⟨rfl,hp₁⟩ := hreached
      exact keeps_ioTrailing hp₁ (by omega) hle hrest

theorem keeps_ioParts (ha : At c t w (c.initial.fileAt (c.ino t)) (fun _ => False) s.fs) :
    Keeps c t (Reached c t (c.request t).length) w
      (ioParts (c.ino t) (.user (c.request t).buf) (writeUio (c.request t))) s := by
  have hzero : writeUio (c.request t) = (writeUio (c.request t)).advance 0 := by
    simp [Uio.advance]
  have hpatch := Sfs.patch_nothing (c.initial.fileAt (c.ino t)) (c.request t).offset
    (c.request t).buf 0
  have hres : ((writeUio (c.request t)).advance 0).resid = (c.request t).length := rfl
  rw [hzero]
  refine Within.bind ?_
  rw [ioLeading,blkoff_eq,toU32_natCast (by omega),hres]
  by_cases hoff : ((c.request t).offset.val + 0) % 512 = 0
  · rw [if_neg (by simpa using hoff)]
    refine keeps_ioBlocks ⟨⟨ha.toReady,?_,fun k hk => ?_⟩,by simp⟩ (Nat.zero_le _) (.inr hoff)
    · rw [hpatch]
      exact ha.file
    · omega
  · rw [if_pos hoff]
    have hio : c.uses t .iobuf := by
      by_contra hna
      exact hoff (c.whole t hna).1
    have hk : touches (c.request t) (((c.request t).offset.val + 0) / 512) := by
      constructor <;> omega
    have hlen : toU32 ((sfsBlocksize : Int) -
        ((((c.request t).offset.val + 0) % 512 : Nat) : Int)) =
        512 - ((c.request t).offset.val + 0) % 512 := by
      unfold toU32 sfsBlocksize
      omega
    rw [hlen]
    rw [← hpatch] at ha
    refine (keeps_sfsPartialio ha hio hk rfl (by omega) (by omega)).mono ?_
    intro w₁ out s₁ hw
    have hreached := hw.reached (by simp) fun k hlo hhi => by omega
    obtain ⟨r,u⟩ := out
    cases r with
    | error e => exact hreached
    | ok x =>
      obtain ⟨rfl,hp₁⟩ := hreached
      exact keeps_ioBlocks hp₁ (by omega) (by omega)

def Returned (c : Setting) (t : Bool) (w : Holding) (r : Except Errno Unit) (s : Kernel) : Prop :=
  match r with
  | .ok _ => At c t w ((c.initial.fileAt (c.ino t)).write (c.request t).offset (c.request t).length
      (c.request t).buf 0) (touches (c.request t)) s.fs ∧
    ∀ i, i < (c.request t).length.val → (c.request t).faults i = false
  | .error _ => ¬ c.fine

theorem Returned.congr {s' : Kernel} {r : Except Errno Unit} (h : Returned c t w r s)
    (hs : Same c t w s s') : Returned c t w r s' := by
  cases r with
  | error e => exact h
  | ok x => exact ⟨h.1.congr hs,h.2⟩

/-- A request that is in the file lies within what the block map can reach. -/
theorem Progress.end_lt (hp : Progress c t (c.request t).length w s.fs) :
    (c.request t).offset.val + (c.request t).length.val < 2^32 := by
  have ho := (c.request t).offset.isLt
  by_cases hz : (c.request t).length.val = 0
  · omega
  · have hlast := lt_of_blockAt (hp.mapped
      (((c.request t).offset.val + (c.request t).length.val - 1) / 512)
      (by constructor <;> omega))
    omega

theorem keeps_sfsWrite (ha : At c t w (c.initial.fileAt (c.ino t)) (fun _ => False) s.fs) :
    Keeps c t (Returned c t) w (sfsWrite (c.ino t) (c.request t)) s := by
  refine Within.bind ((keeps_ioParts ha).mono ?_)
  intro w₁ out s₁ hreached
  obtain ⟨r,u⟩ := out
  cases r with
  | error e =>
    obtain ⟨v,hv⟩ := hreached.1.loaded
    refine Within.bind (keeps_getVnode hv ?_)
    split
    · exact keeps_putInode hreached.2
    · exact hreached.2
  | ok x =>
    obtain ⟨rfl,hp⟩ := hreached
    obtain ⟨v,hv⟩ := hp.loaded
    have hlt := hp.end_lt
    have hsize : v.i.size = (c.initial.fileAt (c.ino t)).size := by
      have hfile := congrArg File.size hp.file
      rw [← Sfs.inodeAt_loaded hv]
      exact hfile
    have hsmall := c.size_lt t
    have hend : ((writeUio (c.request t)).advance (c.request t).length).offset =
        (((c.request t).offset.val + (c.request t).length.val : Nat) : Int) := by
      simp only [Uio.advance,writeUio]
      omega
    refine Within.bind (keeps_getVnode hv ?_)
    rw [hend,hsize,toInt32_of_lt hsmall,toU32_natCast hlt]
    split
    · next hgt =>
      have hmax : max (c.initial.fileAt (c.ino t)).size
          ((c.request t).offset.val + (c.request t).length.val) =
          (c.request t).offset.val + (c.request t).length.val := by omega
      refine keeps_putInode ⟨?_,hp.clear⟩
      rw [File.write,hmax]
      exact hp.toAt.putSize _
    · next hle =>
      have hmax : max (c.initial.fileAt (c.ino t)).size
          ((c.request t).offset.val + (c.request t).length.val) =
          (c.initial.fileAt (c.ino t)).size := by omega
      refine ⟨?_,hp.clear⟩
      rw [File.write,hmax]
      exact hp.toAt

end Io

end MipsOs.SfsWriters
