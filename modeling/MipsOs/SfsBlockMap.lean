import MipsOs.SfsBlocks

/-! sfs_bmap. A block it allocates passes from the allocator to a slot of the
inode or to its indirect block, and no file changes by it. -/

set_option autoImplicit false
namespace MipsOs.Sfs
open Bytes Prog Ledger Function

section Put

variable {s : Fs} {L : Nat → Prop} {pend : Option Nat} {ino : Nat} {v : SfsVnode}

def SfsVnode.put (g : Inode → Inode) (v : SfsVnode) : SfsVnode :=
  { v with i := g v.i, dirty := true }

theorem SfsVnode.put_ino (g : Inode → Inode) (v : SfsVnode) : (v.put g).ino = v.ino := rfl

def Fs.put (s : Fs) (ino : Nat) (g : Inode → Inode) : Fs := s.setVnode ino (SfsVnode.put g)

@[simp] theorem put_super (g : Inode → Inode) : (s.put ino g).super = s.super := rfl

@[simp] theorem put_dev (g : Inode → Inode) : (s.put ino g).dev = s.dev := rfl

@[simp] theorem put_held (g : Inode → Inode) (b : Nat) : (s.put ino g).held b ↔ s.held b := Iff.rfl

theorem putInode_eq (g : Inode → Inode) : putInode ino g s = .ok () (s.put ino g) := rfl

section

variable (hv : s.vnode ino = some v) (g : Inode → Inode)

include hv g

theorem vnode_put :
    (s.put ino g).vnode ino = some (v.put g) := by
  rw [Fs.put,setVnode_vnode s ino (SfsVnode.put_ino g)]
  simp [hv]

theorem inodeAt_put (j : Nat) :
    (s.put ino g).inodeAt j = if j = ino then g v.i else s.inodeAt j :=
  inodeAt_setVnode hv (SfsVnode.put_ino g) j

theorem inodeAt_put_self :
    (s.put ino g).inodeAt ino = g v.i := by
  rw [inodeAt_put hv,if_pos rfl]

end

variable {j : Nat} {g : Inode → Inode}

theorem inodeAt_put_of_ne (hv : s.vnode ino = some v) (g : Inode → Inode) (h : j ≠ ino) :
    (s.put ino g).inodeAt j = s.inodeAt j := by
  rw [inodeAt_put hv,if_neg h]

theorem blockAt_put_of_ne (hv : s.vnode ino = some v) (g : Inode → Inode) (h : j ≠ ino)
    (k : Nat) : (s.put ino g).blockAt j k = s.blockAt j k :=
  blockAt_congr (inodeAt_put_of_ne hv g h) (fun _ => rfl) k

theorem put_keys (s : Fs) (ino : Nat) (g : Inode → Inode) :
    (s.put ino g).vnodes.map SfsVnode.key = s.vnodes.map SfsVnode.key := by
  simp only [Fs.put,Fs.setVnode,List.map_map]
  refine List.map_congr_left fun v _ => ?_
  simp only [comp]
  split <;> rfl

section

variable (h : Consistent s L) (hv : s.vnode ino = some v)

include h hv

theorem Consistent.vnodeOk : VnodeOk s L v :=
  h.vnodes v (vnode_mem hv)

theorem Consistent.live : L ino :=
  vnode_ino hv ▸ (h.vnodeOk hv).live

theorem Consistent.loadedOk : InodeOk ino v.i :=
  inodeAt_loaded hv ▸ h.inodes ino (h.live hv)

theorem Consistent.put (hok : InodeOk ino (g v.i)) (hl : (g v.i).linkcount < 2^16) :
    Consistent (s.put ino g) L where
  geo := { h.geo with }
  disk := { h.disk with }
  nodup := by
    rw [Fs.put,setVnode_inos s ino (SfsVnode.put_ino g)]
    exact h.nodup
  vnodes w hw := by
    rcases mem_setVnode hw with ⟨v',hmem,hi,rfl⟩ | ⟨hmem,_⟩
    · obtain rfl := eq_vnode h.nodup hv hmem hi
      have hvok := h.vnodes v' hmem
      exact ⟨hvok.live,hvok.refs,hvok.closed,hvok.ops,hl,fun hd => by cases hd⟩
    · have hwok := h.vnodes w hmem
      exact ⟨hwok.live,hwok.refs,hwok.closed,hwok.ops,hwok.links,hwok.clean⟩
  root := h.root
  inodes i hL := by
    by_cases hi : i = ino
    · subst hi
      rw [inodeAt_put_self hv]
      exact hok
    · rw [inodeAt_put_of_ne hv g hi]
      exact h.inodes i hL

end

theorem blockAt_put_same (hv : s.vnode ino = some v)
    (hd : (g v.i).direct = v.i.direct) (hi : (g v.i).indirect = v.i.indirect) (j k : Nat) :
    (s.put ino g).blockAt j k = s.blockAt j k := by
  by_cases hj : j = ino
  · subst hj
    simp only [Fs.blockAt,inodeAt_put_self hv,inodeAt_loaded hv,hd,hi,put_dev]
  · exact blockAt_put_of_ne hv g hj k

theorem Own.putSame (h : Own s L pend) (hv : s.vnode ino = some v)
    (hok : InodeOk ino (g v.i)) (hl : (g v.i).linkcount < 2^16)
    (hd : (g v.i).direct = v.i.direct) (hi : (g v.i).indirect = v.i.indirect) :
    Own (s.put ino g) L pend := by
  refine ⟨h.put hv hok hl,h.exact.congr (owns_congr rfl (fun j _ => ?_)
    fun j _ k => blockAt_put_same hv hd hi j k) fun _ => Iff.rfl⟩
  by_cases hj : j = ino
  · subst hj
    rw [inodeAt_put_self hv,inodeAt_loaded hv,hi]
  · rw [inodeAt_put_of_ne hv g hj]

theorem putSame_becomes (hv : s.vnode ino = some v)
    (hd : (g v.i).direct = v.i.direct) (hi : (g v.i).indirect = v.i.indirect) :
    Becomes L ino ⟨(g v.i).size,s.byteAt ino,(g v.i).linkcount,(g v.i).type⟩ s (s.put ino g) where
  super := rfl
  keys := put_keys s ino g
  self := by
    simp only [Fs.fileAt,inodeAt_put_self hv,File.mk.injEq,true_and,and_true]
    funext p
    simp only [Fs.byteAt,blockAt_put_same hv hd hi,put_dev]
  others i _ hne := by
    refine fileAt_congr (inodeAt_put_of_ne hv g hne) fun p => ?_
    simp only [Fs.byteAt,blockAt_put_same hv hd hi,put_dev]

end Put

section Enter

variable {s t : Fs} {L : Nat → Prop} {ino k b : Nat}

theorem Own.pending_ne_zero {pend : Option Nat} (h : Own s L pend) (hp : pend = some b) :
    b ≠ 0 := by
  rintro rfl
  have hu := h.exact.unique .pending .super 0 hp rfl
  cases hu

theorem Own.enter {x : Owner} (h : Own s L (some b)) (hsup : t.super = s.super)
    (hind : ∀ i, L i → .indirect i ≠ x → (t.inodeAt i).indirect = (s.inodeAt i).indirect)
    (hblk : ∀ i, L i → ∀ k, .slot i k ≠ x → t.blockAt i k = s.blockAt i k)
    (hold : ∀ c, ¬ owns s L (some b) x c) (hnew : ∀ c, owns t L none x c ↔ c = b) :
    Exact (owns t L none) s.held := by
  refine h.exact.pass (x := .pending) (y := x) rfl (fun o c => ?_) fun c hc =>
    (Option.some.inj hc).symm
  by_cases ho : o = x
  · simp [ho,hold,hnew]
  cases o with
  | super | inode | pending => simp [owns,ho]
  | map j => simp [owns,hsup,ho]
  | indirect i => simp +contextual [owns,ho,hind i]
  | slot i k => simp +contextual [owns,ho,hblk i]

theorem Own.enterSlot (h : Own s L (some b)) (hL : L ino) (hsup : t.super = s.super)
    (hind : ∀ i, L i → (t.inodeAt i).indirect = (s.inodeAt i).indirect)
    (hblk : ∀ i, L i → ∀ k', t.blockAt i k' = if i = ino ∧ k' = k then b else s.blockAt i k')
    (hz : s.blockAt ino k = 0) : Exact (owns t L none) s.held := by
  have hb := h.pending_ne_zero rfl
  refine h.enter (x := .slot ino k) hsup (fun i hLi _ => hind i hLi) (fun i hLi k' hne => ?_)
    (fun c hc => hc.2.1 (hc.2.2.symm.trans hz)) fun c => ?_
  · rw [hblk i hLi,if_neg (by simpa using hne)]
  · simp only [owns,hL,hblk ino hL,and_self,if_true,true_and]
    exact ⟨fun hc => hc.2.symm,fun hc => ⟨hc ▸ hb,hc.symm⟩⟩

/-- A zeroed block in the place of a hole shows no difference. -/
theorem byteAt_enter {i : Nat} (hb : b ≠ 0)
    (hblk : ∀ k', t.blockAt i k' = if i = ino ∧ k' = k then b else s.blockAt i k')
    (hz : s.blockAt ino k = 0) (hzero : ∀ j, t.dev.sector b j = 0)
    (hsec : ∀ k', s.blockAt i k' ≠ 0 →
      t.dev.sector (s.blockAt i k') = s.dev.sector (s.blockAt i k')) (p : Nat) :
    t.byteAt i p = s.byteAt i p := by
  simp only [Fs.byteAt,hblk]
  by_cases he : i = ino ∧ p / 512 = k
  · obtain ⟨rfl,hk⟩ := he
    simp [hk,hb,hz,hzero]
  · rw [if_neg he]
    by_cases h0 : s.blockAt i (p / 512) = 0
    · simp [h0]
    · rw [if_neg h0,if_neg h0,hsec _ h0]

end Enter

/-- Blocks have been allocated for file `ino`, of its block map only block `fb`
has changed, and no file looks different. -/
structure Allocs (L : Nat → Prop) (ino fb : Nat) (s t : Fs) : Prop where
  own : Own t L none
  becomes : Becomes L ino (s.fileAt ino) s t
  maps : ∀ i, L i → ∀ k, i ≠ ino ∨ k ≠ fb → t.blockAt i k = s.blockAt i k

section Bmap

variable {s t u : Fs} {L : Nat → Prop} {ino fb b : Nat} {v : SfsVnode}

theorem Allocs.refl (h : Own s L none) (ino fb : Nat) : Allocs L ino fb s s :=
  ⟨h,Becomes.refl L ino s,fun _ _ _ _ => rfl⟩

theorem Allocs.trans (h : Allocs L ino fb s t) (h' : Allocs L ino fb t u) :
    Allocs L ino fb s u where
  own := h'.own
  becomes := by
    refine h.becomes.trans ?_
    rw [← h.becomes.self]
    exact h'.becomes
  maps i hL k hne := (h'.maps i hL k hne).trans (h.maps i hL k hne)

variable {i c k idoff : Nat} {pend : Option Nat} {e : Idbuf}

theorem taken_inodeAt (h : Own s L none) (hfree : s.free b) (hL : L i) :
    (s.taken b).inodeAt i = s.inodeAt i := by
  have hp := h.plain_of_free hfree
  exact inodeAt_setSector (s := s.mark b) (clip zeros) fun he => hp.inode (he ▸ hL)

theorem taken_blockAt (h : Own s L none) (hfree : s.free b) (hL : L i) (k : Nat) :
    (s.taken b).blockAt i k = s.blockAt i k := by
  have hp := h.plain_of_free hfree
  exact Plain.blockAt (s := s.mark b) ⟨hp.fixed,hp.inode,hp.indirect⟩ (clip zeros) hL k

theorem taken_sector (s : Fs) (b : Nat) : (s.taken b).dev.sector b = zeros := by
  rw [Fs.taken,setSector_sector,update_self,clip_zeros]

theorem taken_sector_of_ne (h : c ≠ b) : (s.taken b).dev.sector c = s.dev.sector c := by
  rw [Fs.taken,setSector_sector,update_of_ne h]
  rfl

theorem Own.slot_held (h : Own s L none) (hL : L i) (hk : s.blockAt i k ≠ 0) :
    s.held (s.blockAt i k) := h.exact.sound (.slot i k) _ ⟨hL,hk,rfl⟩

theorem taken_fileAt (h : Own s L none) (hfree : s.free b) (hL : L i) :
    (s.taken b).fileAt i = s.fileAt i := by
  refine fileAt_congr (taken_inodeAt h hfree hL) fun p => ?_
  simp only [Fs.byteAt,taken_blockAt h hfree hL]
  by_cases hz : s.blockAt i (p / 512) = 0
  · simp [hz]
  · have hne : s.blockAt i (p / 512) ≠ b := fun he => hfree.1 (he ▸ h.slot_held hL hz)
    rw [taken_sector_of_ne hne]

theorem Own.direct (h : Own s L none) (hv : s.vnode ino = some v) {k : Fin 15}
    (hz : v.i.direct k = 0) (hfree : s.free b) :
    let t := (s.taken b).put ino fun i => { i with direct := update i.direct k b }
    Allocs L ino k s t ∧ owns t L none (.slot ino k) b := by
  intro t
  have hL := h.live hv
  have hown := h.taken hfree
  have hvt : (s.taken b).vnode ino = some v := hv
  have hb := hown.pending_ne_zero rfl
  have hk := k.isLt
  have hold : s.blockAt ino k = 0 := by
    simp [Fs.blockAt,inodeAt_loaded hv,hz]
  have hblk : ∀ i, L i → ∀ k', t.blockAt i k' =
      if i = ino ∧ k' = k then b else (s.taken b).blockAt i k' := by
    intro i _ k'
    by_cases hi : i = ino
    · subst hi
      simp only [Fs.blockAt,t,inodeAt_put_self hvt,inodeAt_loaded hvt,put_dev,true_and]
      by_cases hlt' : k' < 15
      · rw [dif_pos hlt',dif_pos hlt']
        by_cases he : k' = k
        · subst he
          simp
        · rw [if_neg he,update_of_ne fun hf => he (Fin.val_eq_of_eq hf)]
      · have hne : ¬ k' = k := by omega
        rw [dif_neg hlt',dif_neg hlt',if_neg hne]
    · rw [blockAt_put_of_ne hvt _ hi,if_neg fun hc => hi hc.1]
  have hind : ∀ i, L i → (t.inodeAt i).indirect = ((s.taken b).inodeAt i).indirect := by
    intro i _
    by_cases hi : i = ino
    · subst hi
      simp only [t,inodeAt_put_self hvt,inodeAt_loaded hvt]
    · simp only [t,inodeAt_put_of_ne hvt _ hi]
  have hz' : (s.taken b).blockAt ino k = 0 := by rw [taken_blockAt h hfree hL,hold]
  have hex := hown.enterSlot (t := t) hL rfl hind hblk hz'
  have hbytes : ∀ i, L i → ∀ p, t.byteAt i p = (s.taken b).byteAt i p := fun i hLi p =>
    byteAt_enter hb (hblk i hLi) hz' (fun j => by simp only [t,put_dev,taken_sector,zeros])
      (fun _ _ => rfl) p
  refine ⟨⟨⟨hown.put hvt ?_ (h.vnodeOk hv).links,hex⟩,
    ⟨rfl,put_keys _ _ _,?_,fun i hLi hne => ?_⟩,fun i hLi k' hne => ?_⟩,
    hL,hb,by rw [hblk ino hL,if_pos ⟨rfl,rfl⟩]⟩
  · exact ⟨(h.loadedOk hv).type,(h.loadedOk hv).size⟩
  · rw [← taken_fileAt h hfree hL]
    simp only [Fs.fileAt,t,inodeAt_put_self hvt,inodeAt_loaded hvt,File.mk.injEq,true_and,and_true]
    funext p
    exact hbytes ino hL p
  · rw [← taken_fileAt h hfree hLi]
    exact fileAt_congr (inodeAt_put_of_ne hvt _ hne) (hbytes i hLi)
  · rw [hblk i hLi,if_neg fun hc => hne.elim (· hc.1) (· hc.2),taken_blockAt h hfree hLi]

/-- The blocks that sfs_bmap takes to map a block of the file are free: one, and another one if
the file has no indirect block yet. -/
def Fs.roomFor (s : Fs) (ino fb : Nat) : Prop :=
  fb < 143 ∧ ∃ b, s.free b ∧ (15 ≤ fb → (s.inodeAt ino).indirect = 0 → ∃ c, s.free c ∧ c ≠ b)

theorem not_roomFor (hnone : ∀ b, ¬ s.free b) : ¬ s.roomFor ino fb := by
  rintro ⟨_,b,hb,_⟩
  exact hnone b hb

theorem bmapDirect_write (h : Own s L none) (hv : s.vnode ino = some v) (k : Fin 15) :
    (bmapDirect ino k true s).Safe (fun b t => Allocs L ino k s t ∧
        owns t L none (.slot ino k) b ∧ (s.blockAt ino k = 0 → s.roomFor ino k))
      fun e t => e = .ENOSPC ∧ t = s ∧ s.blockAt ino k = 0 ∧ ¬ s.roomFor ino k := by
  have hblk : s.blockAt ino k = v.i.direct k := by simp [Fs.blockAt,inodeAt_loaded hv]
  rw [bmapDirect,bind_ok (getVnode_eq hv)]
  by_cases hz : v.i.direct k = 0
  · rw [if_pos ⟨hz,rfl⟩]
    rcases h.geo.balloc with ⟨b,hal,hfree⟩ | ⟨hal,hnone⟩
    · obtain ⟨hall,hslot⟩ := h.direct hv hz hfree
      rw [bind_ok hal,bind_ok (putInode_eq _),
        handBack_eq _ _ (.inr (hall.own.exact.sound _ _ hslot))]
      exact ⟨hall,hslot,fun _ => ⟨by omega,b,hfree,by omega⟩⟩
    · rw [bind_err hal]
      exact ⟨rfl,rfl,hblk.trans hz,not_roomFor hnone⟩
  · have hslot : owns s L none (.slot ino k) (v.i.direct k) := ⟨h.live hv,hz,hblk⟩
    rw [if_neg fun hc => hz hc.1,handBack_eq _ _ (.inr (h.exact.sound _ _ hslot))]
    exact ⟨Allocs.refl h ino k,hslot,fun hc => (hz (hblk.symm.trans hc)).elim⟩

theorem decodeIdbuf_zeros (j : Nat) : decodeIdbuf zeros j = 0 := be32_zero fun _ _ => rfl

theorem Own.indirect (h : Own s L none) (hv : s.vnode ino = some v) (hz : v.i.indirect = 0)
    (hfree : s.free b) :
    let t := (s.taken b).put ino fun i => { i with indirect := b }
    (∀ fb, Allocs L ino fb s t) ∧ owns t L none (.indirect ino) b := by
  intro t
  have hL := h.live hv
  have hown := h.taken hfree
  have hvt : (s.taken b).vnode ino = some v := hv
  have hb := hown.pending_ne_zero rfl
  have hblk : ∀ i, L i → ∀ k, t.blockAt i k = (s.taken b).blockAt i k := by
    intro i _ k
    by_cases hi : i = ino
    · subst hi
      simp only [Fs.blockAt,t,inodeAt_put_self hvt,inodeAt_loaded hvt,put_dev,taken_sector,
        decodeIdbuf_zeros,hz,ne_eq,not_true_eq_false,and_false,if_false,ite_self]
    · exact blockAt_put_of_ne hvt _ hi k
  have hind : ∀ i, L i → (t.inodeAt i).indirect =
      if i = ino then b else ((s.taken b).inodeAt i).indirect := by
    intro i _
    by_cases hi : i = ino
    · subst hi
      simp only [t,inodeAt_put_self hvt,if_true]
    · simp only [t,inodeAt_put_of_ne hvt _ hi,if_neg hi]
  have hex : Exact (owns t L none) (s.taken b).held := by
    refine hown.enter (x := .indirect ino) rfl (fun i hLi hne => ?_) (fun i hLi k _ => hblk i hLi k)
      (fun c hc => hc.2.1 ?_) fun c => ?_
    · rw [hind i hLi,if_neg (by simpa using hne)]
    · rw [← hc.2.2,inodeAt_loaded hvt,hz]
    · simp only [owns,hL,hind ino hL,if_true,true_and]
      exact ⟨fun hc => hc.2.symm,fun hc => ⟨hc ▸ hb,hc.symm⟩⟩
  have hbytes : ∀ i, L i → ∀ p, t.byteAt i p = (s.taken b).byteAt i p := by
    intro i hLi p
    simp only [Fs.byteAt,hblk i hLi,t,put_dev]
  refine ⟨fun fb => ⟨⟨hown.put hvt ?_ (h.vnodeOk hv).links,hex⟩,
    ⟨rfl,put_keys _ _ _,?_,fun i hLi hne => ?_⟩,fun i hLi k' _ => ?_⟩,
    hL,hb,by rw [hind ino hL,if_pos rfl]⟩
  · exact ⟨(h.loadedOk hv).type,(h.loadedOk hv).size⟩
  · rw [← taken_fileAt h hfree hL]
    simp only [Fs.fileAt,t,inodeAt_put_self hvt,inodeAt_loaded hvt,File.mk.injEq,true_and,and_true]
    funext p
    exact hbytes ino hL p
  · rw [← taken_fileAt h hfree hLi]
    exact fileAt_congr (inodeAt_put_of_ne hvt _ hne) (hbytes i hLi)
  · rw [hblk i hLi,taken_blockAt h hfree hLi]

section

variable (h : Own s L pend) (ho : owns s L pend (.indirect ino) c)

include h ho

/-- An indirect block is neither an inode nor the indirect block of another inode. -/
theorem Own.idblock :
    ¬ L c ∧ ∀ i, L i → i ≠ ino → (s.inodeAt i).indirect ≠ c := by
  constructor
  · intro hL
    have hu := h.exact.unique (.inode c) (.indirect ino) c ⟨hL,rfl⟩ ho
    cases hu
  · intro i hL hne he
    have hu := h.exact.unique (.indirect i) (.indirect ino) c ⟨hL,ho.2.1,he⟩ ho
    exact hne (Owner.indirect.inj hu)

theorem blockAt_idblock (he : ∀ j, j < 128 → e j < 2^32) (hL : L i) (k : Nat) :
    (s.setSector c (clip (encodeIdbuf e))).blockAt i k =
      if i = ino ∧ 15 ≤ k ∧ k < 143 then e (k - 15) else s.blockAt i k := by
  obtain ⟨hc,hother⟩ := h.idblock ho
  have hsame := inodeAt_setSector (s := s) (b := c) (clip (encodeIdbuf e)) fun hi => hc (hi ▸ hL)
  by_cases hi : i = ino
  · subst hi
    simp only [Fs.blockAt,hsame,setSector_sector,ho.2.2,update_self,true_and]
    by_cases hk : k < 15
    · rw [dif_pos hk,dif_pos hk,if_neg (by omega)]
    · rw [dif_neg hk,dif_neg hk]
      by_cases hk' : k < 143
      · rw [if_pos ⟨hk',ho.2.1⟩,if_pos ⟨by omega,hk'⟩,decodeIdbuf_clip (by omega),
          decode_encodeIdbuf (he _ (by omega))]
      · rw [if_neg fun hx => hk' hx.1,if_neg fun hx => hk' hx.2,if_neg fun hx => hk' hx.1]
  · rw [if_neg fun hx => hi hx.1]
    exact blockAt_congr hsame (fun _ => update_of_ne (hother i hL hi) _ _) k

theorem Own.slot_ne_idblock (hL : L i) (hk : s.blockAt i k ≠ 0) :
    s.blockAt i k ≠ c := by
  intro he
  have hu := h.exact.unique (.slot i k) (.indirect ino) c ⟨hL,he ▸ hk,he⟩ ho
  cases hu

end

theorem Own.entry (h : Own s L none) (ho : owns s L none (.indirect ino) c)
    (he : ∀ j, j < 128 → e j = decodeIdbuf (s.dev.sector c) j) (hoff : idoff < 128)
    (hz : e idoff = 0) (hfree : s.free b) :
    let t := (s.taken b).setSector c (clip (encodeIdbuf (update e idoff b)))
    Allocs L ino (idoff + 15) s t ∧ owns t L none (.slot ino (idoff + 15)) b := by
  intro t
  have hL := ho.1
  have hown := h.taken hfree
  have hb := hown.pending_ne_zero rfl
  have hcb : c ≠ b := fun hx => hfree.1 (hx ▸ h.exact.sound _ _ ho)
  have ho' : owns (s.taken b) L (some b) (.indirect ino) c :=
    ⟨hL,ho.2.1,by rw [taken_inodeAt h hfree hL]; exact ho.2.2⟩
  have hfit : ∀ j, j < 128 → update e idoff b j < 2^32 := by
    intro j hj
    have hhigh := h.geo.high
    by_cases hx : j = idoff
    · subst hx
      rw [update_self]
      exact Nat.lt_of_lt_of_le hfree.2 (by omega)
    · rw [update_of_ne hx,he j hj]
      exact be32_lt _ _
  have hblk : ∀ i, L i → ∀ k', t.blockAt i k' =
      if i = ino ∧ k' = idoff + 15 then b else (s.taken b).blockAt i k' := by
    intro i hLi k'
    rw [blockAt_idblock hown ho' hfit hLi]
    by_cases hi : i = ino
    · subst hi
      by_cases hk : 15 ≤ k' ∧ k' < 143
      · rw [if_pos ⟨rfl,hk⟩]
        by_cases hx : k' = idoff + 15
        · subst hx
          simp
        · rw [if_neg fun hc => hx hc.2,update_of_ne (by omega),he _ (by omega)]
          simp only [Fs.blockAt,ho'.2.2]
          rw [dif_neg (by omega),if_pos ⟨hk.2,ho.2.1⟩,taken_sector_of_ne hcb]
      · rw [if_neg fun hc => hk hc.2,if_neg fun hc => hk (by omega)]
    · rw [if_neg fun hc => hi hc.1,if_neg fun hc => hi hc.1]
  obtain ⟨hc,_⟩ := hown.idblock ho'
  have hinode : ∀ i, L i → t.inodeAt i = (s.taken b).inodeAt i := fun i hLi =>
    inodeAt_setSector _ fun hx => hc (hx ▸ hLi)
  have hz' : (s.taken b).blockAt ino (idoff + 15) = 0 := by
    simp only [Fs.blockAt,ho'.2.2]
    rw [dif_neg (by omega),if_pos ⟨by omega,ho.2.1⟩,taken_sector_of_ne hcb,Nat.add_sub_cancel,
      ← he idoff hoff,hz]
  have hex := hown.enterSlot (t := t) hL rfl (fun i hLi => by rw [hinode i hLi]) hblk hz'
  have hfile : ∀ i, L i → t.fileAt i = s.fileAt i := by
    intro i hLi
    rw [← taken_fileAt h hfree hLi]
    refine fileAt_congr (hinode i hLi) (byteAt_enter hb (hblk i hLi) hz' (fun j => ?_)
      fun k' hk => ?_)
    · simp only [t,setSector_sector,update_of_ne hcb.symm,taken_sector,zeros]
    · simp only [t,setSector_sector]
      rw [update_of_ne (hown.slot_ne_idblock ho' hLi hk)]
  refine ⟨⟨⟨hown.store (hown.not_fixed ho' (by simp) (by simp)) hc _,hex⟩,
    ⟨rfl,rfl,hfile ino hL,fun i hLi _ => hfile i hLi⟩,fun i hLi k' hne => ?_⟩,
    hL,hb,by rw [hblk ino hL,if_pos ⟨rfl,rfl⟩]⟩
  rw [hblk i hLi,if_neg fun hc => hne.elim (· hc.1) (· hc.2),taken_blockAt h hfree hLi]

theorem bmapIdblock_spec (h : Own s L none) (hv : s.vnode ino = some v) :
    (bmapIdblock ino s).Safe
      (fun r t => (∀ fb, Allocs L ino fb s t) ∧ owns t L none (.indirect ino) r.1 ∧
        (∀ j, j < 128 → r.2 j = decodeIdbuf (t.dev.sector r.1) j) ∧
        (v.i.indirect = 0 → s.free r.1) ∧
        ∀ c, t.free c ↔ s.free c ∧ (v.i.indirect = 0 → c ≠ r.1))
      fun e t => e = .ENOSPC ∧ t = s ∧ v.i.indirect = 0 ∧ ∀ c, ¬ s.free c := by
  rw [bmapIdblock,bind_ok (getVnode_eq hv)]
  by_cases hz : v.i.indirect = 0
  · rw [if_pos hz]
    rcases h.geo.balloc with ⟨b,hal,hfree⟩ | ⟨hal,hnone⟩
    · obtain ⟨hall,hidb⟩ := h.indirect hv hz hfree
      rw [bind_ok hal,bind_ok (putInode_eq _)]
      refine ⟨hall,hidb,fun j _ => ?_,fun _ => hfree,fun c => ?_⟩
      · simp only [put_dev,taken_sector,decodeIdbuf_zeros]
      · change ¬ (s.mark b).held c ∧ c < s.super.nblocks ↔ _
        rw [held_mark hfree.2,not_or,Fs.free]
        grind
    · rw [bind_err hal]
      exact ⟨rfl,rfl,hz,hnone⟩
  · have hidb : owns s L none (.indirect ino) v.i.indirect :=
      ⟨h.live hv,hz,by rw [inodeAt_loaded hv]⟩
    rw [if_neg hz,bind_ok (h.geo.rblock (h.lt hidb))]
    exact ⟨Allocs.refl h ino,hidb,fun j hj => decodeIdbuf_clip hj,fun hc => (hz hc).elim,
      fun c => (and_iff_left fun hc => (hz hc).elim).symm⟩

theorem blockAt_indirect (hv : s.vnode ino = some v) (hk : k < 128) :
    s.blockAt ino (k + 15) =
      if v.i.indirect = 0 then 0 else decodeIdbuf (s.dev.sector v.i.indirect) k := by
  simp only [Fs.blockAt,inodeAt_loaded hv]
  rw [dif_neg (by omega)]
  by_cases hz : v.i.indirect = 0
  · simp [hz]
  · rw [if_pos ⟨by omega,hz⟩,if_neg hz,Nat.add_sub_cancel]

theorem bmapIndirect_write (h : Own s L none) (hv : s.vnode ino = some v)
    (hoff : idoff < 128) : (bmapIndirect ino idoff true s).Safe
      (fun b t => Allocs L ino (idoff + 15) s t ∧ owns t L none (.slot ino (idoff + 15)) b ∧
        (s.blockAt ino (idoff + 15) = 0 → s.roomFor ino (idoff + 15)))
      fun e t => e = .ENOSPC ∧ (∀ fb, Allocs L ino fb s t) ∧
        s.blockAt ino (idoff + 15) = 0 ∧ ¬ s.roomFor ino (idoff + 15) := by
  rw [bmapIndirect,bind_ok (getVnode_eq hv),if_neg (by simp)]
  refine (bmapIdblock_spec h hv).bind (fun r t hr => ?_) fun e t he => ?_
  · obtain ⟨halls,hidb,he,hnew,hfrees⟩ := hr
    have hall := halls (idoff + 15)
    have hown := hall.own
    have hentry : t.blockAt ino (idoff + 15) = r.2 idoff := by
      simp only [Fs.blockAt,hidb.2.2]
      rw [dif_neg (by omega),if_pos ⟨by omega,hidb.2.1⟩,Nat.add_sub_cancel,he idoff hoff]
    have hblk : s.blockAt ino (idoff + 15) = r.2 idoff :=
      ((halls (idoff + 16)).maps ino hidb.1 _ (.inr (by omega))).symm.trans hentry
    by_cases hz : r.2 idoff = 0
    · have hroom : s.roomFor ino (idoff + 15) ↔ ∃ b, t.free b := by
        simp only [Fs.roomFor,inodeAt_loaded hv,hfrees]
        grind
      rw [if_pos ⟨hz,rfl⟩,hroom]
      rcases hown.geo.balloc with ⟨b,hal,hfree⟩ | ⟨hal,hnone⟩
      · obtain ⟨hall',hslot⟩ := hown.entry hidb he hoff hz hfree
        have hw := (hown.taken hfree).geo.wblock (hown.lt hidb)
          (encodeIdbuf (update r.2 idoff b))
        rw [bind_ok hal,bind_ok hw,handBack_eq _ _ (.inr (hall'.own.exact.sound _ _ hslot))]
        exact ⟨hall.trans hall',hslot,fun _ => ⟨b,hfree⟩⟩
      · rw [bind_err hal]
        exact ⟨rfl,halls,hblk.trans hz,not_exists.mpr hnone⟩
    · have hslot : owns t L none (.slot ino (idoff + 15)) (r.2 idoff) := ⟨hidb.1,hz,hentry⟩
      rw [if_neg fun hc => hz hc.1,handBack_eq _ _ (.inr (hown.exact.sound _ _ hslot))]
      exact ⟨hall,hslot,fun hc => (hz (hblk.symm.trans hc)).elim⟩
  · obtain ⟨rfl,rfl,hi,hnone⟩ := he
    refine ⟨rfl,Allocs.refl h ino,?_,not_roomFor hnone⟩
    rw [blockAt_indirect hv hoff,if_pos hi]

theorem sfsBmap_indirect {fb : Nat} (hk : ¬ fb < 15) (hlt : fb < 143) (doalloc : Bool) :
    sfsBmap ino fb doalloc = bmapIndirect ino (fb - 15) doalloc := by
  have hnum : ¬ (fb - 15) / 128 > 0 := by omega
  have hoff : (fb - 15) % 128 = fb - 15 := by omega
  rw [sfsBmap,dif_neg hk]
  exact (if_neg hnum).trans (congrArg (bmapIndirect ino · doalloc) hoff)

theorem sfsBmap_beyond {fb : Nat} (hge : 143 ≤ fb) (doalloc : Bool) :
    sfsBmap ino fb doalloc = fail .EINVAL := by
  have hnum : (fb - 15) / 128 > 0 := by omega
  rw [sfsBmap,dif_neg (by omega)]
  exact if_pos hnum

/-- sfs_bmap for a write: the block is mapped afterwards, or no block is mapped that was not,
because the disk is full or the block lies beyond the largest file. -/
theorem sfsBmap_write (h : Own s L none) (hv : s.vnode ino = some v) (fb : Nat) :
    (sfsBmap ino fb true s).Safe
      (fun b t => Allocs L ino fb s t ∧ owns t L none (.slot ino fb) b ∧
        (s.blockAt ino fb = 0 → s.roomFor ino fb))
      fun e t => (∀ k, Allocs L ino k s t) ∧
        (e = .ENOSPC ∧ s.blockAt ino fb = 0 ∨ e = .EINVAL ∧ 143 ≤ fb) ∧ ¬ s.roomFor ino fb := by
  by_cases hk : fb < 15
  · rw [sfsBmap,dif_pos hk]
    refine (bmapDirect_write h hv ⟨fb,hk⟩).mono (fun b t ht => ht) fun e t he => ?_
    obtain ⟨rfl,rfl,hz,hfull⟩ := he
    exact ⟨Allocs.refl h ino,.inl ⟨rfl,hz⟩,hfull⟩
  · by_cases hn : fb < 143
    · have hind := bmapIndirect_write h hv (show fb - 15 < 128 by omega)
      rw [Nat.sub_add_cancel (by omega)] at hind
      rw [sfsBmap_indirect hk hn]
      refine hind.mono (fun b t ht => ht) fun e t he => ?_
      exact ⟨he.2.1,.inl ⟨he.1,he.2.2.1⟩,he.2.2.2⟩
    · rw [sfsBmap_beyond (by omega)]
      exact ⟨Allocs.refl h ino,.inr ⟨rfl,by omega⟩,fun hroom => hn hroom.1⟩

theorem sfsBmap_mapped (h : Own s L none) (hv : s.vnode ino = some v) {fb : Nat}
    (hb : s.blockAt ino fb ≠ 0) (doalloc : Bool) :
    sfsBmap ino fb doalloc s = .ok (s.blockAt ino fb) s := by
  have hback : ∀ k, handBack ino k (s.blockAt ino fb) s = .ok (s.blockAt ino fb) s := fun k =>
    handBack_eq ino k (.inr (h.slot_held (h.live hv) hb))
  by_cases hk : fb < 15
  · have hblk : s.blockAt ino fb = v.i.direct ⟨fb,hk⟩ := by
      simp [Fs.blockAt,inodeAt_loaded hv,hk]
    rw [sfsBmap,dif_pos hk,bmapDirect,bind_ok (getVnode_eq hv),← hblk,if_neg fun hc => hb hc.1]
    exact hback _
  · by_cases hn : fb < 143
    · have hblk := blockAt_indirect (k := fb - 15) hv (by omega)
      rw [Nat.sub_add_cancel (by omega)] at hblk
      have hz : v.i.indirect ≠ 0 := by
        intro hz
        rw [hblk,if_pos hz] at hb
        exact hb rfl
      have hidb : owns s L none (.indirect ino) v.i.indirect :=
        ⟨h.live hv,hz,by rw [inodeAt_loaded hv]⟩
      obtain ⟨r,hr,hid⟩ : ∃ r : Nat × Idbuf,
          r.2 = decodeIdbuf (clip (s.dev.sector v.i.indirect)) ∧ bmapIdblock ino s = .ok r s := by
        refine ⟨(v.i.indirect,_),rfl,?_⟩
        rw [bmapIdblock,bind_ok (getVnode_eq hv),if_neg hz,bind_ok (h.geo.rblock (h.lt hidb))]
        rfl
      rw [if_neg hz,← decodeIdbuf_clip (by omega),← hr] at hblk
      rw [sfsBmap_indirect hk hn,bmapIndirect,bind_ok (getVnode_eq hv),if_neg fun hc => hz hc.1,
        bind_ok hid,← hblk,if_neg fun hc => hb hc.1]
      exact hback _
    · have hzero : s.blockAt ino fb = 0 := by
        simp only [Fs.blockAt]
        rw [dif_neg hk,if_neg fun hc => hn hc.1]
      exact (hb hzero).elim

end Bmap

end MipsOs.Sfs
