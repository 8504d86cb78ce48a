import MipsOs.SfsWriters

/-! What a call of sfs_write relies on while another one is under way: the blocks of its file, its
vnode and the static buffers it uses. The two calls hold different blocks. -/

set_option autoImplicit false
namespace MipsOs.SfsWriters
open Bytes Coroutines Function
open Sfs (Fs Inode SfsVnode File Panic LhdResult lhdSectsize sfsBlocksize sfsNdirect sfsDbperidb
  decodeIdbuf encodeIdbuf Request clip)

def touches (r : Request) (k : Nat) : Prop :=
  r.offset.val / 512 ≤ k ∧ k * 512 < r.offset.val + r.length.val

/-- Two calls. `uses` says which of the static buffers a call may use; `fine` is that there is
nothing to stop the calls. -/
structure Setting where
  initial : Fs
  ino : Bool → Nat
  request : Bool → Request
  uses : Bool → Static → Prop
  fine : Prop
  ino_ne : ∀ t u, u ≠ t → ino u ≠ ino t
  uses_ne : ∀ t u b, u ≠ t → uses t b → ¬ uses u b
  whole : ∀ t, ¬ uses t .iobuf →
    (request t).offset.val % 512 = 0 ∧ (request t).length.val % 512 = 0
  direct : ∀ t k, ¬ uses t .idbuf → touches (request t) k → k < 15
  size_lt : ∀ t, (initial.fileAt (ino t)).size < 2^31
  sound : fine → ∀ t i, i < (request t).length.val → (request t).faults i = false
  inside : fine → ∀ t k, touches (request t) k → k < 143

/-- The block map of a file, with the indirect block at its end. -/
def slot (fs : Fs) (i k : Nat) : Nat :=
  if k < 143 then fs.blockAt i k else if k = 143 then (fs.inodeAt i).indirect else 0

def Setting.wants (c : Setting) (t : Bool) (k : Nat) : Prop :=
  k < 143 ∧ touches (c.request t) k ∨ k = 143 ∧ ∃ j, touches (c.request t) j ∧ 15 ≤ j

/-- The blocks that belong to a call, and the slots it may still ask blocks for. -/
structure Holding where
  mine : Nat → Prop
  tickets : Finset Nat

def Holding.take (w : Holding) (b k : Nat) : Holding :=
  ⟨fun x => x = b ∨ w.mine x,w.tickets.erase k⟩

def freeBlocks (fs : Fs) : Finset Nat :=
  (Finset.range fs.super.nblocks).filter fun b => fs.freemap.isset b = false

/-- The states are the same for a call that holds `w`. -/
structure Same (c : Setting) (t : Bool) (w : Holding) (s s' : Kernel) : Prop where
  vnode : s'.fs.vnode (c.ino t) = s.fs.vnode (c.ino t)
  sector : ∀ b, w.mine b → s'.fs.dev.sector b = s.fs.dev.sector b
  marked : ∀ b, w.mine b → s'.fs.freemap.isset b = s.fs.freemap.isset b
  nblocks : s'.fs.super.nblocks = s.fs.super.nblocks
  blocks : s'.fs.dev.blocks = s.fs.dev.blocks
  buf : ∀ b, c.uses t b → s'.buf b = s.buf b

/-- No block belongs to both calls, and if all is fine the free blocks are enough for both. -/
structure Fit (c : Setting) (ws : Bool → Holding) (s : Kernel) : Prop where
  nblocks : s.fs.super.nblocks = c.initial.super.nblocks
  padded : s.fs.freemap.Padded
  nbits : s.fs.super.nblocks ≤ s.fs.freemap.nbits
  beyond : ∀ b, s.fs.super.nblocks ≤ b → b < s.fs.freemap.nbits → s.fs.freemap.isset b = true
  zero : s.fs.freemap.isset 0 = true
  grown : ∀ b, c.initial.freemap.isset b = true → s.fs.freemap.isset b = true
  held : ∀ t b, (ws t).mine b → s.fs.freemap.isset b = true
  apart : ∀ t u b, u ≠ t → (ws t).mine b → ¬ (ws u).mine b
  enough : c.fine → (ws false).tickets.card + (ws true).tickets.card ≤ (freeBlocks s.fs).card

theorem same_equivalence (c : Setting) (t : Bool) (w : Holding) : Equivalence (Same c t w) where
  refl _ := ⟨rfl,fun _ _ => rfl,fun _ _ => rfl,rfl,rfl,fun _ _ => rfl⟩
  symm e := ⟨e.vnode.symm,fun b hb => (e.sector b hb).symm,fun b hb => (e.marked b hb).symm,
    e.nblocks.symm,e.blocks.symm,fun b hb => (e.buf b hb).symm⟩
  trans e e' := ⟨e'.vnode.trans e.vnode,fun b hb => (e'.sector b hb).trans (e.sector b hb),
    fun b hb => (e'.marked b hb).trans (e.marked b hb),e'.nblocks.trans e.nblocks,
    e'.blocks.trans e.blocks,fun b hb => (e'.buf b hb).trans (e.buf b hb)⟩

/-- What the code of thread `t` has to do with the other call, on a disk without errors. -/
abbrev Keeps (c : Setting) (t : Bool) {α : Type} (P : Holding → α → Kernel → Prop) (w : Holding)
    (code : Thread α) (s : Kernel) : Prop :=
  Within (Same c) (Fit c) serve (fun r => r = LhdResult.ok) t P w code s

section Moves

variable {c : Setting} {t : Bool} {w : Holding} {ws : Bool → Holding} {s s' : Kernel} {b : Nat}

theorem Same.of_take {k : Nat} (hs : Same c t (w.take b k) s s') : Same c t w s s' :=
  ⟨hs.vnode,fun x hx => hs.sector x (.inr hx),fun x hx => hs.marked x (.inr hx),hs.nblocks,
    hs.blocks,hs.buf⟩

theorem bytes_same {src : Memory} (hs : Same c t w s s')
    (hsrc : ∀ b, src = .static b → c.uses t b) : s'.bytes src = s.bytes src := by
  cases src with
  | user | zeros => rfl
  | static b => exact hs.buf b (hsrc b rfl)

theorem uses_static {d : Static} (hd : c.uses t d) :
    ∀ d', Memory.static d = .static d' → c.uses t d' := by
  intro d' he
  cases he
  exact hd

theorem Fit.of_map (hfit : Fit c ws s) (hmap : s'.fs.freemap = s.fs.freemap)
    (hsuper : s'.fs.super = s.fs.super) : Fit c ws s' := by
  have hfree : freeBlocks s'.fs = freeBlocks s.fs := by rw [freeBlocks,freeBlocks,hmap,hsuper]
  obtain ⟨hn,hp,hb,hbeyond,hz,hg,hh,ha,he⟩ := hfit
  rw [← hsuper] at hn hb hbeyond
  rw [← hmap] at hp hb hbeyond hz hg hh
  rw [← hfree] at he
  exact ⟨hn,hp,hb,hbeyond,hz,hg,hh,ha,he⟩

theorem moves_setSector (hfit : Fit c ws s) (hw : ws t = w) (hb : w.mine b) (data : Buffer) :
    Moves (Same c) (Fit c) t ws w s { s with fs := s.fs.setSector b data } := by
  subst hw
  refine ⟨?_,fun u hu => ⟨rfl,fun x hx => ?_,fun _ _ => rfl,rfl,rfl,fun _ _ => rfl⟩⟩
  · rw [update_eq_self]
    exact hfit.of_map rfl rfl
  · have hne : x ≠ b := fun he => hfit.apart t u b hu hb (he ▸ hx)
    exact update_of_ne hne _ _

theorem moves_setBuf (hfit : Fit c ws s) (hw : ws t = w) {d : Static} (hd : c.uses t d)
    (data : Buffer) : Moves (Same c) (Fit c) t ws w s (s.setBuf d data) := by
  subst hw
  refine ⟨?_,fun u hu => ⟨rfl,fun _ _ => rfl,fun _ _ => rfl,rfl,rfl,fun x hx => ?_⟩⟩
  · rw [update_eq_self]
    exact hfit.of_map rfl rfl
  · have hne : x ≠ d := fun he => c.uses_ne t u d hu hd (he ▸ hx)
    exact update_of_ne hne _ _

theorem moves_put (hfit : Fit c ws s) (hw : ws t = w) (g : Inode → Inode) :
    Moves (Same c) (Fit c) t ws w s { s with fs := s.fs.put (c.ino t) g } := by
  subst hw
  refine ⟨?_,fun u hu => ⟨?_,fun _ _ => rfl,fun _ _ => rfl,rfl,rfl,fun _ _ => rfl⟩⟩
  · rw [update_eq_self]
    exact hfit.of_map rfl rfl
  · simp only [Fs.put,Sfs.setVnode_vnode _ _ (Sfs.SfsVnode.put_ino g),if_neg (c.ino_ne t u hu)]

theorem freeBlocks_mark (fs : Fs) (b : Nat) : freeBlocks (fs.mark b) = (freeBlocks fs).erase b := by
  ext x
  simp only [freeBlocks,Fs.mark,Finset.mem_filter,Finset.mem_erase,Bitmap.isset_setBit,
    Bool.or_eq_false_iff,decide_eq_false_iff_not]
  tauto

theorem mem_freeBlocks {fs : Fs} : b ∈ freeBlocks fs ↔
    b < fs.super.nblocks ∧ fs.freemap.isset b = false := by
  simp [freeBlocks]

theorem moves_mark (hfit : Fit c ws s) (hw : ws t = w) {k : Nat} (hb : b ∈ freeBlocks s.fs)
    (hk : c.fine → k ∈ w.tickets) :
    Moves (Same c) (Fit c) t ws (w.take b k) s { s with fs := s.fs.mark b } := by
  subst hw
  have hfree := (mem_freeBlocks.mp hb).2
  have hset : ∀ x, s.fs.freemap.isset x = true → (s.fs.mark b).freemap.isset x = true :=
    fun x hx => by rw [Fs.mark,Bitmap.isset_setBit,hx,Bool.or_true]
  have hnew : ∀ u, ¬ (ws u).mine b := by
    intro u hu
    rw [hfit.held u b hu] at hfree
    cases hfree
  refine ⟨⟨hfit.nblocks,hfit.padded.setBit b,hfit.nbits,
    fun x hge hlt => hset x (hfit.beyond x hge hlt),hset 0 hfit.zero,
    fun x hx => hset x (hfit.grown x hx),fun u x hx => ?_,fun u v x hv hx hx' => ?_,
    fun hfine => ?_⟩,
    fun u hu => ⟨rfl,fun _ _ => rfl,fun x hx => ?_,rfl,rfl,fun _ _ => rfl⟩⟩
  · by_cases hut : u = t
    · subst hut
      simp only [update_self,Holding.take] at hx
      rcases hx with rfl | hx
      · simp [Fs.mark,Bitmap.isset_setBit]
      · exact hset x (hfit.held u x hx)
    · rw [update_of_ne hut] at hx
      exact hset x (hfit.held u x hx)
  · have hmine : ∀ u, (update ws t ((ws t).take b k) u).mine x →
        (ws u).mine x ∨ u = t ∧ x = b := by
      intro u hu
      by_cases hut : u = t
      · subst hut
        simp only [update_self,Holding.take] at hu
        tauto
      · rw [update_of_ne hut] at hu
        exact .inl hu
    rcases hmine u hx with hu | ⟨hut,rfl⟩
    · rcases hmine v hx' with hv' | ⟨-,rfl⟩
      · exact hfit.apart u v x hv hu hv'
      · exact hnew u hu
    · rcases hmine v hx' with hv' | ⟨hvt,-⟩
      · exact hnew v hv'
      · exact hv (hvt.trans hut.symm)
  · have henough := hfit.enough hfine
    have hpos := Finset.card_pos.mpr ⟨k,hk hfine⟩
    show _ ≤ (freeBlocks (s.fs.mark b)).card
    rw [freeBlocks_mark,Finset.card_erase_of_mem hb]
    cases t
    · simp only [update_self,Holding.take,Finset.card_erase_of_mem (hk hfine),ne_eq,
        reduceCtorEq,not_false_eq_true,update_of_ne]
      omega
    · simp only [update_self,Holding.take,Finset.card_erase_of_mem (hk hfine),ne_eq,
        reduceCtorEq,not_false_eq_true,update_of_ne]
      omega
  · have hold := hfit.held u x hx
    rw [hset x hold,hold]

end Moves

section Slots

variable {fs fs' : Fs} {i k : Nat}

theorem slot_lt (h : k < 143) : slot fs i k = fs.blockAt i k := if_pos h

theorem slot_indirect : slot fs i 143 = (fs.inodeAt i).indirect := by
  simp [slot]

theorem blockAt_beyond (h : 143 ≤ k) : fs.blockAt i k = 0 := by
  rw [Fs.blockAt,dif_neg (by omega),if_neg fun hk => by omega]

theorem lt_of_blockAt (h : fs.blockAt i k ≠ 0) : k < 143 := by
  by_contra hge
  exact h (blockAt_beyond (by omega))

theorem indirect_of_blockAt (h : fs.blockAt i k ≠ 0) (hk : 15 ≤ k) :
    (fs.inodeAt i).indirect ≠ 0 := by
  intro hz
  refine h ?_
  rw [Fs.blockAt,dif_neg (by omega),if_neg fun hand => hand.2 hz]

theorem slot_congr (hi : fs'.inodeAt i = fs.inodeAt i)
    (hsec : (fs.inodeAt i).indirect ≠ 0 →
      fs'.dev.sector (fs.inodeAt i).indirect = fs.dev.sector (fs.inodeAt i).indirect) (k : Nat) :
    slot fs' i k = slot fs i k := by
  simp only [slot,Sfs.blockAt_congr hi hsec,hi]

section

variable (hsize : (fs'.inodeAt i).size = (fs.inodeAt i).size)
  (htype : (fs'.inodeAt i).type = (fs.inodeAt i).type)
  (hlinks : (fs'.inodeAt i).linkcount = (fs.inodeAt i).linkcount)

include hsize htype hlinks

theorem fileAt_of_slots (hbyte : ∀ p, p / 512 < 143 → fs'.byteAt i p = fs.byteAt i p) :
    fs'.fileAt i = fs.fileAt i := by
  simp only [Fs.fileAt,hsize,htype,hlinks,File.mk.injEq,true_and,and_true]
  funext p
  by_cases hp : p / 512 < 143
  · exact hbyte p hp
  · simp only [Fs.byteAt,blockAt_beyond (Nat.le_of_not_lt hp),if_true]

theorem fileAt_enter {b : Nat} (hslot : ∀ j, slot fs' i j = if j = k then b else slot fs i j)
    (hz : slot fs i k = 0) (hzero : fs'.dev.sector b = Bytes.zeros)
    (hsec : ∀ j, j < 143 → slot fs i j ≠ 0 → fs'.dev.sector (slot fs i j) =
    fs.dev.sector (slot fs i j)) :
    fs'.fileAt i = fs.fileAt i := by
  refine fileAt_of_slots hsize htype hlinks fun p hp => ?_
  simp only [Fs.byteAt,← slot_lt hp,hslot]
  by_cases hk : p / 512 = k
  · rw [hk,if_pos rfl,if_pos hz,hzero]
    simp [Bytes.zeros]
  · rw [if_neg hk]
    by_cases hj : slot fs i (p / 512) = 0
    · simp [hj]
    · rw [hsec _ hp hj]

end

end Slots

section Blocks

structure Based (w : Holding) (fs : Fs) : Prop where
  disk : fs.super.nblocks ≤ fs.dev.blocks
  small : fs.dev.blocks < 2^22
  held : ∀ b, w.mine b → b ≠ 0 ∧ fs.held b

/-- The file's blocks, all of them different, belong to the call. Those that it has got since the
start were free then. There are tickets for those it still needs. -/
structure Ready (c : Setting) (t : Bool) (w : Holding) (fs : Fs) : Prop extends Based w fs where
  loaded : ∃ v, fs.vnode (c.ino t) = some v
  mine : ∀ k, slot fs (c.ino t) k ≠ 0 → w.mine (slot fs (c.ino t) k)
  inj : ∀ k k', slot fs (c.ino t) k ≠ 0 → slot fs (c.ino t) k' = slot fs (c.ino t) k → k' = k
  paid : c.fine → ∀ k, c.wants t k → slot fs (c.ino t) k = 0 → k ∈ w.tickets
  new : ∀ k, slot c.initial (c.ino t) k = 0 → slot fs (c.ino t) k ≠ 0 →
    c.initial.freemap.isset (slot fs (c.ino t) k) = false

/-- Moreover the file is `F`, and it has blocks where `M` says so. -/
structure At (c : Setting) (t : Bool) (w : Holding) (F : File) (M : Nat → Prop) (fs : Fs) : Prop
    extends Ready c t w fs where
  file : fs.fileAt (c.ino t) = F
  mapped : ∀ k, M k → fs.blockAt (c.ino t) k ≠ 0

structure Fresh (c : Setting) (w : Holding) (fs : Fs) (b : Nat) : Prop where
  ne_zero : b ≠ 0
  held : fs.held b
  free : ¬ w.mine b
  zeros : fs.dev.sector b = Bytes.zeros
  new : c.initial.freemap.isset b = false

variable {c : Setting} {t : Bool} {w : Holding} {F : File} {M : Nat → Prop} {fs fs' : Fs}
  {s s' : Kernel} {b k : Nat}

theorem Based.lt (hw : Based w fs) (hb : w.mine b) : b < fs.dev.blocks ∧ b < 2^22 := by
  have hlt := (hw.held b hb).2.1
  have hdisk := hw.disk
  have hsmall := hw.small
  omega

theorem Based.congr (hw : Based w s.fs) (hs : Same c t w s s') : Based w s'.fs where
  disk := by
    rw [hs.nblocks,hs.blocks]
    exact hw.disk
  small := by
    rw [hs.blocks]
    exact hw.small
  held b hb := by
    rw [Fs.held,hs.nblocks,hs.marked b hb]
    exact hw.held b hb

section

variable (hr : Ready c t w fs)

include hr

theorem Ready.inodeAt (hv : fs'.vnode (c.ino t) = fs.vnode (c.ino t)) :
    fs'.inodeAt (c.ino t) = fs.inodeAt (c.ino t) := by
  obtain ⟨v,hl⟩ := hr.loaded
  rw [Sfs.inodeAt_loaded hl,Sfs.inodeAt_loaded (hv.trans hl)]

theorem Ready.blockAt_mine (h : fs.blockAt (c.ino t) k ≠ 0) :
    w.mine (fs.blockAt (c.ino t) k) := by
  have hk := lt_of_blockAt h
  rw [← slot_lt hk] at h ⊢
  exact hr.mine k h

theorem Ready.blockAt_inj {k' : Nat} (h : fs.blockAt (c.ino t) k ≠ 0)
    (he : fs.blockAt (c.ino t) k' = fs.blockAt (c.ino t) k) : k' = k := by
  have hk := lt_of_blockAt h
  have hk' := lt_of_blockAt (he ▸ h)
  rw [← slot_lt hk] at h he
  rw [← slot_lt hk'] at he
  exact hr.inj k k' h he

theorem Ready.indirect_mine (h : (fs.inodeAt (c.ino t)).indirect ≠ 0) :
    w.mine (fs.inodeAt (c.ino t)).indirect := by
  rw [← slot_indirect] at h ⊢
  exact hr.mine 143 h

theorem Ready.blockAt_ne_indirect (h : fs.blockAt (c.ino t) k ≠ 0) :
    fs.blockAt (c.ino t) k ≠ (fs.inodeAt (c.ino t)).indirect := by
  have hk := lt_of_blockAt h
  rw [← slot_lt hk] at h ⊢
  rw [← slot_indirect]
  intro he
  have hkk := hr.inj k 143 h he.symm
  omega

theorem Ready.of_slots (hb : Based w fs') (hv : ∃ v, fs'.vnode (c.ino t) = some v)
    (hslot : ∀ k, slot fs' (c.ino t) k = slot fs (c.ino t) k) : Ready c t w fs' where
  toBased := hb
  loaded := hv
  mine k := by
    rw [hslot]
    exact hr.mine k
  inj k k' := by
    rw [hslot,hslot]
    exact hr.inj k k'
  paid hf k := by
    rw [hslot]
    exact hr.paid hf k
  new k := by
    rw [hslot]
    exact hr.new k

end

section

variable (hr : Ready c t w s.fs) (hs : Same c t w s s')

include hr hs

theorem Ready.slots_same (k : Nat) :
    slot s'.fs (c.ino t) k = slot s.fs (c.ino t) k :=
  slot_congr (hr.inodeAt hs.vnode) (fun hne => hs.sector _ (hr.indirect_mine hne)) k

theorem Ready.congr : Ready c t w s'.fs := by
  obtain ⟨v,hv⟩ := hr.loaded
  exact hr.of_slots (hr.toBased.congr hs) ⟨v,hs.vnode.trans hv⟩ (hr.slots_same hs)

theorem Ready.blockAt_same (k : Nat) :
    s'.fs.blockAt (c.ino t) k = s.fs.blockAt (c.ino t) k :=
  Sfs.blockAt_congr (hr.inodeAt hs.vnode) (fun hne => hs.sector _ (hr.indirect_mine hne)) k

theorem Ready.fileAt_same :
    s'.fs.fileAt (c.ino t) = s.fs.fileAt (c.ino t) := by
  refine Sfs.fileAt_congr (hr.inodeAt hs.vnode) fun p => ?_
  simp only [Fs.byteAt,hr.blockAt_same hs]
  by_cases hz : s.fs.blockAt (c.ino t) (p / 512) = 0
  · simp [hz]
  · rw [hs.sector _ (hr.blockAt_mine hz)]

end

theorem At.congr (ha : At c t w F M s.fs) (hs : Same c t w s s') : At c t w F M s'.fs where
  toReady := ha.toReady.congr hs
  file := by
    rw [ha.toReady.fileAt_same hs]
    exact ha.file
  mapped k hk := by
    rw [ha.toReady.blockAt_same hs]
    exact ha.mapped k hk

theorem At.add (ha : At c t w F M fs) (hk : fs.blockAt (c.ino t) k ≠ 0) :
    At c t w F (fun j => j = k ∨ M j) fs := by
  refine ⟨ha.toReady,ha.file,?_⟩
  rintro j (rfl | hj)
  · exact hk
  · exact ha.mapped j hj

theorem Fresh.congr (hf : Fresh c w s.fs b) (hs : Same c t (w.take b k) s s') :
    Fresh c w s'.fs b where
  ne_zero := hf.ne_zero
  held := by
    rw [Fs.held,hs.nblocks,hs.marked b (.inl rfl)]
    exact hf.held
  free := hf.free
  zeros := by
    rw [hs.sector b (.inl rfl)]
    exact hf.zeros
  new := hf.new

theorem Fresh.slot_ne (hf : Fresh c w fs b) (hr : Ready c t w fs) (k : Nat) :
    slot fs (c.ino t) k ≠ b := by
  intro he
  exact hf.free (he ▸ hr.mine k (he ▸ hf.ne_zero))

theorem At.enter (ha : At c t w F M fs) (hf : Fresh c w fs b)
    (hv : ∃ v, fs'.vnode (c.ino t) = some v)
    (hsuper : fs'.super = fs.super) (hmap : fs'.freemap = fs.freemap)
    (hblocks : fs'.dev.blocks = fs.dev.blocks)
    (hslot : ∀ j, slot fs' (c.ino t) j = if j = k then b else slot fs (c.ino t) j)
    (hfile : fs'.fileAt (c.ino t) = fs.fileAt (c.ino t)) :
    At c t (w.take b k) F M fs' := by
  have hheld : ∀ x, fs'.held x ↔ fs.held x := fun x => by rw [Fs.held,Fs.held,hsuper,hmap]
  have hne := hf.slot_ne ha.toReady
  refine ⟨⟨⟨by rw [hsuper,hblocks]; exact ha.disk,by rw [hblocks]; exact ha.small,?_⟩,hv,
    fun j => ?_,fun j j' => ?_,fun hfine j hj => ?_,fun j hj => ?_⟩,hfile.trans ha.file,
    fun j hj => ?_⟩
  · rintro x (rfl | hx)
    · exact ⟨hf.ne_zero,(hheld x).mpr hf.held⟩
    · exact ⟨(ha.held x hx).1,(hheld x).mpr (ha.held x hx).2⟩
  · rw [hslot]
    split
    · exact fun _ => .inl rfl
    · exact fun hnz => .inr (ha.mine j hnz)
  · rw [hslot,hslot]
    split
    · next hjk =>
      split
      · next hjk' => exact fun _ _ => hjk'.trans hjk.symm
      · exact fun _ he => absurd he (hne j')
    · split
      · exact fun _ he => absurd he.symm (hne j)
      · exact ha.inj j j'
  · rw [hslot]
    split
    · exact fun hbz => absurd hbz hf.ne_zero
    · next hjk => exact fun hzero => Finset.mem_erase.mpr ⟨hjk,ha.paid hfine j hj hzero⟩
  · rw [hslot]
    split
    · exact fun _ => hf.new
    · exact ha.new j hj
  · have hold := ha.mapped j hj
    have hlt := lt_of_blockAt hold
    rw [← slot_lt hlt] at hold ⊢
    rw [hslot]
    split
    · exact hf.ne_zero
    · exact hold

theorem At.putDirect (ha : At c t w F M fs) (k : Fin 15) (hf : Fresh c w fs b)
    (hz : fs.blockAt (c.ino t) k = 0) :
    At c t (w.take b k) F (fun j => j = k ∨ M j)
        (fs.put (c.ino t) fun i => { i with direct := update i.direct k b }) ∧
      (fs.put (c.ino t) fun i => { i with direct := update i.direct k b }).blockAt
        (c.ino t) k = b := by
  obtain ⟨v,hv⟩ := ha.loaded
  have hk := k.isLt
  have hinode := Sfs.inodeAt_put_self hv
    (fun i => { i with direct := update i.direct k b })
  have hold := Sfs.inodeAt_loaded hv
  have hblk : ∀ j, (fs.put (c.ino t) fun i =>
      { i with direct := update i.direct k b }).blockAt (c.ino t) j =
      if j = k then b else fs.blockAt (c.ino t) j := by
    intro j
    simp only [Fs.blockAt,hinode,hold,Sfs.put_dev]
    by_cases hj : j < 15
    · rw [dif_pos hj,dif_pos hj]
      by_cases he : j = k
      · subst he
        simp
      · rw [if_neg he,update_of_ne fun hf => he (Fin.val_eq_of_eq hf)]
    · rw [dif_neg hj,dif_neg hj,if_neg (show ¬ j = k by omega)]
  have hslot : ∀ j, slot (fs.put (c.ino t) fun i =>
      { i with direct := update i.direct k b }) (c.ino t) j =
      if j = k then b else slot fs (c.ino t) j := by
    intro j
    simp only [slot,hblk,hinode,hold]
    by_cases hj : j < 143
    · rw [if_pos hj,if_pos hj]
    · rw [if_neg hj,if_neg hj,if_neg (show ¬ j = k by omega)]
  have hself : (fs.put (c.ino t) fun i =>
      { i with direct := update i.direct k b }).blockAt (c.ino t) k = b := by
    rw [hblk,if_pos rfl]
  refine ⟨At.add (ha.enter hf ⟨_,Sfs.vnode_put hv _⟩ rfl rfl rfl hslot ?_) ?_,hself⟩
  · refine fileAt_enter (by rw [hinode,hold]) (by rw [hinode,hold]) (by rw [hinode,hold]) hslot ?_
      hf.zeros fun _ _ _ => rfl
    rw [slot_lt (by omega),hz]
  · rw [hself]
    exact hf.ne_zero

theorem At.putIndirect (ha : At c t w F M fs) (hf : Fresh c w fs b)
    (hz : (fs.inodeAt (c.ino t)).indirect = 0) :
    At c t (w.take b 143) F M (fs.put (c.ino t) fun i => { i with indirect := b }) := by
  obtain ⟨v,hv⟩ := ha.loaded
  have hinode := Sfs.inodeAt_put_self hv (fun i => { i with indirect := b })
  have hold := Sfs.inodeAt_loaded hv
  -- the entries of the new block are all zero
  have hslot : ∀ j, slot (fs.put (c.ino t) fun i => { i with indirect := b }) (c.ino t) j =
      if j = 143 then b else slot fs (c.ino t) j := by
    intro j
    rw [hold] at hz
    simp only [slot,Fs.blockAt,hinode,hold,Sfs.put_dev,hf.zeros,Sfs.decodeIdbuf_zeros,hz]
    by_cases hj : j = 143
    · subst hj
      simp
    · simp [hj]
  refine ha.enter hf ⟨_,Sfs.vnode_put hv _⟩ rfl rfl rfl hslot ?_
  refine fileAt_enter (by rw [hinode,hold]) (by rw [hinode,hold]) (by rw [hinode,hold]) hslot ?_
    hf.zeros fun _ _ _ => rfl
  rw [slot_indirect,hz]

theorem At.putEntry (ha : At c t w F M fs) {x idoff : Nat} (hx : x ≠ 0)
    (hind : (fs.inodeAt (c.ino t)).indirect = x) (hoff : idoff < 128) {data : Buffer}
    (hdata : ∀ j, j < 128 → decodeIdbuf data j =
      if j = idoff then b else decodeIdbuf (fs.dev.sector x) j)
    (hf : Fresh c w fs b) (hz : fs.blockAt (c.ino t) (idoff + 15) = 0) :
    At c t (w.take b (idoff + 15)) F (fun j => j = idoff + 15 ∨ M j) (fs.setSector x data) ∧
      (fs.setSector x data).blockAt (c.ino t) (idoff + 15) = b := by
  have hinode : (fs.setSector x data).inodeAt (c.ino t) = fs.inodeAt (c.ino t) :=
    ha.toReady.inodeAt rfl
  have hblk : ∀ j, (fs.setSector x data).blockAt (c.ino t) j =
      if j = idoff + 15 then b else fs.blockAt (c.ino t) j := by
    intro j
    simp only [Fs.blockAt,hinode,hind,Sfs.setSector_sector,update_self]
    by_cases hj : j < 15
    · rw [dif_pos hj,dif_pos hj,if_neg (by omega)]
    · rw [dif_neg hj,dif_neg hj]
      by_cases hlt : j < 143
      · rw [if_pos ⟨hlt,hx⟩,hdata _ (by omega)]
        by_cases he : j = idoff + 15
        · rw [if_pos he,if_pos (by omega)]
        · rw [if_neg he,if_neg (by omega),if_pos ⟨hlt,hx⟩]
      · rw [if_neg fun hand => hlt hand.1,if_neg (by omega),if_neg fun hand => hlt hand.1]
  have hslot : ∀ j, slot (fs.setSector x data) (c.ino t) j =
      if j = idoff + 15 then b else slot fs (c.ino t) j := by
    intro j
    simp only [slot,hblk,hinode]
    by_cases hj : j < 143
    · rw [if_pos hj,if_pos hj]
    · rw [if_neg hj,if_neg hj,if_neg (show ¬ j = idoff + 15 by omega)]
  have hself : (fs.setSector x data).blockAt (c.ino t) (idoff + 15) = b := by
    rw [hblk,if_pos rfl]
  have hxb : b ≠ x := fun he => hf.slot_ne ha.toReady 143 (by rw [slot_indirect,hind,he])
  refine ⟨At.add (ha.enter hf ha.loaded rfl rfl rfl hslot ?_) ?_,hself⟩
  · refine fileAt_enter (by rw [hinode]) (by rw [hinode]) (by rw [hinode]) hslot
      (by rw [slot_lt (by omega),hz]) ?_ fun j hj hne => ?_
    · rw [Sfs.setSector_sector,update_of_ne hxb]
      exact hf.zeros
    · rw [slot_lt hj] at hne ⊢
      rw [Sfs.setSector_sector,update_of_ne]
      rw [← hind]
      exact ha.toReady.blockAt_ne_indirect hne
  · rw [hself]
    exact hf.ne_zero

theorem Ready.putSize (hr : Ready c t w fs) (size : Nat) :
    Ready c t w (fs.put (c.ino t) fun i => { i with size := size }) := by
  obtain ⟨v,hv⟩ := hr.loaded
  have hinode := Sfs.inodeAt_put_self hv (fun i => { i with size := size })
  have hold := Sfs.inodeAt_loaded hv
  refine hr.of_slots ⟨hr.disk,hr.small,hr.held⟩ ⟨_,Sfs.vnode_put hv _⟩ fun k => ?_
  simp only [slot,Fs.blockAt,hinode,hold,Sfs.put_dev]

theorem At.putSize (ha : At c t w F M fs) (size : Nat) :
    At c t w { F with size := size } M
      (fs.put (c.ino t) fun i => { i with size := size }) := by
  obtain ⟨v,hv⟩ := ha.loaded
  have hinode := Sfs.inodeAt_put_self hv (fun i => { i with size := size })
  have hold := Sfs.inodeAt_loaded hv
  have hblk : ∀ k, (fs.put (c.ino t) fun i => { i with size := size }).blockAt (c.ino t) k =
      fs.blockAt (c.ino t) k := by
    intro k
    simp only [Fs.blockAt,hinode,hold,Sfs.put_dev]
  refine ⟨ha.toReady.putSize size,?_,fun k hk => ?_⟩
  · rw [← ha.file]
    simp only [Fs.fileAt,hinode,hold,File.mk.injEq,true_and,and_true]
    funext p
    simp only [Fs.byteAt,hblk,Sfs.put_dev]
  · rw [hblk]
    exact ha.mapped k hk

theorem At.store (ha : At c t w F M fs) (hk : fs.blockAt (c.ino t) k = b) (hb : b ≠ 0)
    {skip n base : Nat} {src data : Buffer} (hn : skip + n ≤ 512)
    (hdata : ∀ j, j < 512 → data j = splice (fs.dev.sector b) skip n src base j) :
    At c t w (F.patch (k * 512 + skip) n src base) M (fs.setSector b data) := by
  subst hk
  have hinode : (fs.setSector (fs.blockAt (c.ino t) k) data).inodeAt (c.ino t) =
      fs.inodeAt (c.ino t) := ha.toReady.inodeAt rfl
  have hsec : (fs.inodeAt (c.ino t)).indirect ≠ 0 →
      (fs.setSector (fs.blockAt (c.ino t) k) data).dev.sector (fs.inodeAt (c.ino t)).indirect =
      fs.dev.sector (fs.inodeAt (c.ino t)).indirect := fun _ =>
    update_of_ne (ha.toReady.blockAt_ne_indirect hb).symm _ _
  have hblk := Sfs.blockAt_congr hinode hsec
  refine ⟨ha.toReady.of_slots ⟨ha.disk,ha.small,ha.held⟩ ha.loaded (slot_congr hinode hsec),?_,
    fun j hj => ?_⟩
  · rw [← ha.file]
    simp only [Fs.fileAt,File.patch,hinode,File.mk.injEq,true_and,and_true]
    funext p
    simp only [Fs.byteAt,hblk,Sfs.setSector_sector]
    by_cases hpk : p / 512 = k
    · rw [hpk,if_neg hb,update_self,hdata _ (Nat.mod_lt _ (by decide))]
      by_cases hin : skip ≤ p % 512 ∧ p % 512 < skip + n
      · rw [splice_inside hin.1 hin.2,splice_inside (by omega) (by omega)]
        congr 1
        omega
      · rw [splice_outside (by omega),splice_outside (by omega)]
        simp only [Fs.byteAt,hpk,if_neg hb]
    · rw [splice_outside (by omega)]
      simp only [Fs.byteAt]
      by_cases hz : fs.blockAt (c.ino t) (p / 512) = 0
      · rw [if_pos hz,if_pos hz]
      · rw [if_neg hz,if_neg hz,update_of_ne]
        exact fun he => hpk (ha.toReady.blockAt_inj hb he)
  · rw [hblk]
    exact ha.mapped j hj

end Blocks

end MipsOs.SfsWriters
