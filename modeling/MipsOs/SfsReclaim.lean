import MipsOs.SfsTruncate

/-! Vnodes come and go: sfs_loadvnode, sfs_makeobj, sfs_reclaim and the
reference counts. -/

set_option autoImplicit false
namespace MipsOs.Sfs
open Bytes Prog Ledger Function

section Sync

variable {s t : Fs} {L : Nat → Prop} {ino : Nat} {v : SfsVnode}

def Fs.loaded (s : Fs) (ino : Nat) : Bool := (s.vnode ino).isSome

def Fs.refs (s : Fs) (ino : Nat) : Nat := ((s.vnode ino).map SfsVnode.refcount).getD 0

theorem refs_vnode (hv : s.vnode ino = some v) : s.refs ino = v.refcount := by
  rw [Fs.refs,hv]
  rfl

theorem refs_none (hv : s.vnode ino = none) : s.refs ino = 0 := by
  rw [Fs.refs,hv]
  rfl

theorem refs_congr (h : (t.vnode ino).map SfsVnode.key = (s.vnode ino).map SfsVnode.key) :
    t.refs ino = s.refs ino := by
  have hrefs := congrArg (Option.map fun k => k.2.1) h
  rw [Option.map_map,Option.map_map] at hrefs
  exact congrArg (Option.getD · 0) hrefs

structure Same (L : Nat → Prop) (s t : Fs) : Prop where
  super : t.super = s.super
  files : ∀ i, L i → t.fileAt i = s.fileAt i

theorem Same.refl (L : Nat → Prop) (s : Fs) : Same L s s := ⟨rfl,fun _ _ => rfl⟩

theorem Becomes.same (h : Becomes L ino (s.fileAt ino) s t) : Same L s t := by
  refine ⟨h.super,fun i hL => ?_⟩
  by_cases hi : i = ino
  · rw [hi]
    exact h.self
  · exact h.others i hL hi

theorem Becomes.loaded_eq {f : File} (h : Becomes L ino f s t) (i : Nat) :
    t.loaded i = s.loaded i := h.loaded i

theorem Becomes.refs_eq {f : File} (h : Becomes L ino f s t) (i : Nat) : t.refs i = s.refs i :=
  refs_congr (h.vnode i)

theorem Own.fits (h : Own s L none) (hv : s.vnode ino = some v) : v.i.Fits := by
  have hhigh := h.geo.high
  have hok := h.loadedOk hv
  have hL := h.live hv
  refine ⟨by have := hok.size; omega,?_,(h.vnodeOk hv).links,fun k => ?_,?_⟩
  · rw [hok.type]
    split <;> decide
  · by_cases hz : v.i.direct k = 0
    · omega
    · have hslot : owns s L none (.slot ino k) (v.i.direct k) :=
        ⟨hL,hz,by simp [Fs.blockAt,inodeAt_loaded hv]⟩
      have := h.lt hslot
      omega
  · by_cases hz : v.i.indirect = 0
    · omega
    · have hind : owns s L none (.indirect ino) v.i.indirect := ⟨hL,hz,by rw [inodeAt_loaded hv]⟩
      have := h.lt hind
      omega

def SfsVnode.clean (v : SfsVnode) : SfsVnode := { v with dirty := false }

def Fs.synced (s : Fs) (ino : Nat) (i : Inode) : Fs :=
  (s.setSector ino (clip (encodeInode i))).setVnode ino SfsVnode.clean

structure Synced (L : Nat → Prop) (ino : Nat) (v : SfsVnode) (s t : Fs) : Prop where
  own : Own t L none
  becomes : Becomes L ino (s.fileAt ino) s t
  vnode : t.vnode ino = some v.clean
  freemap : t.freemap = s.freemap
  inodes : ∀ i, L i → t.inodeAt i = s.inodeAt i
  maps : ∀ i, L i → ∀ k, t.blockAt i k = s.blockAt i k

theorem Own.synced (h : Own s L none) (hv : s.vnode ino = some v) :
    Synced L ino v s (s.synced ino v.i) := by
  have hL := h.live hv
  have hclean : ∀ w : SfsVnode, w.clean.ino = w.ino := fun _ => rfl
  have hvs : (s.setSector ino (clip (encodeInode v.i))).vnode ino = some v := hv
  have hvt : (s.synced ino v.i).vnode ino = some v.clean := by
    rw [Fs.synced,setVnode_vnode _ _ hclean,if_pos rfl,hvs]
    rfl
  have hdec : decodeInode ((s.synced ino v.i).dev.sector ino) = v.i := by
    show decodeInode (update s.dev.sector ino (clip (encodeInode v.i)) ino) = v.i
    rw [update_self,decodeInode_clip,decode_encodeInode (h.fits hv)]
  have hinode : ∀ i, L i → (s.synced ino v.i).inodeAt i = s.inodeAt i := by
    intro i _
    by_cases hi : i = ino
    · subst hi
      rw [inodeAt_loaded hvt,inodeAt_loaded hv]
      rfl
    · rw [Fs.synced,inodeAt_setVnode hvs hclean,if_neg hi,inodeAt_setSector _ hi]
  have hsec : ∀ c, c ≠ ino → (s.synced ino v.i).dev.sector c = s.dev.sector c := fun c hc =>
    update_of_ne hc _ _
  have hown : owns s L none (.inode ino) ino := ⟨hL,rfl⟩
  have hblk : ∀ i, L i → ∀ k, (s.synced ino v.i).blockAt i k = s.blockAt i k := fun i hLi k =>
    blockAt_congr (hinode i hLi) (fun hz => hsec _ fun he => by
      have hu := h.exact.unique (.indirect i) (.inode ino) ino ⟨hLi,he ▸ hz,he⟩ hown
      cases hu) k
  have hfile : ∀ i, L i → (s.synced ino v.i).fileAt i = s.fileAt i := fun i hLi =>
    fileAt_congr (hinode i hLi) fun p => by
      simp only [Fs.byteAt,hblk i hLi]
      by_cases hz : s.blockAt i (p / 512) = 0
      · rw [if_pos hz,if_pos hz]
      · rw [if_neg hz,if_neg hz,hsec _ fun he => ?_]
        have hu := h.exact.unique (.slot i (p / 512)) (.inode ino) ino ⟨hLi,he ▸ hz,he⟩ hown
        cases hu
  have hcons : Consistent (s.synced ino v.i) L := by
    have hdisk := h.disk.store (h.not_fixed hown (by simp) (by simp)) (clip (encodeInode v.i))
    refine ⟨⟨h.geo.low,h.geo.high,h.geo.disk,h.geo.small,h.geo.nbits,h.geo.beyond,h.geo.results,
      h.geo.kmallocs⟩,⟨hdisk.superdirty,hdisk.super,hdisk.magic,hdisk.map⟩,?_,fun w hw => ?_,h.root,
      fun i hLi => ?_⟩
    · rw [Fs.synced,setVnode_inos _ _ hclean]
      exact h.nodup
    · rcases mem_setVnode hw with ⟨v',hmem,hi,rfl⟩ | ⟨hmem,hne⟩
      · obtain rfl := eq_vnode h.nodup hv hmem hi
        have hvok := h.vnodes v' hmem
        refine ⟨hvok.live,hvok.refs,hvok.closed,hvok.ops,hvok.links,fun _ => ?_⟩
        rw [hclean,hi]
        exact hdec
      · have hwok := h.vnodes w hmem
        refine ⟨hwok.live,hwok.refs,hwok.closed,hwok.ops,hwok.links,fun hd => ?_⟩
        rw [hsec _ hne]
        exact hwok.clean hd
    · rw [hinode i hLi]
      exact h.inodes i hLi
  have hex : Exact (owns (s.synced ino v.i) L none) (s.synced ino v.i).held :=
    h.exact.congr (owns_congr rfl (fun i hLi => by rw [hinode i hLi]) hblk) fun _ => Iff.rfl
  refine ⟨⟨hcons,hex⟩,⟨rfl,?_,hfile ino hL,fun i hLi _ => hfile i hLi⟩,hvt,rfl,hinode,hblk⟩
  simp only [Fs.synced,Fs.setVnode,List.map_map,setSector_vnodes]
  refine List.map_congr_left fun w _ => ?_
  simp only [comp]
  split <;> rfl

theorem sfsSyncInode_spec (h : Own s L none) (hv : s.vnode ino = some v) :
    ∃ t, sfsSyncInode ino s = .ok () t ∧ Synced L ino v s t := by
  rw [sfsSyncInode,bind_ok (getVnode_eq hv)]
  by_cases hd : v.dirty = true
  · have hlt : v.ino < s.super.nblocks := by
      rw [vnode_ino hv]
      exact h.lt (o := .inode ino) ⟨h.live hv,rfl⟩
    refine ⟨_,?_,h.synced hv⟩
    rw [if_pos hd,bind_ok (h.geo.wblock hlt _),vnode_ino hv]
    rfl
  · have hclean : v.clean = v := by
      rw [SfsVnode.clean,← Bool.eq_false_iff.mpr hd]
    rw [if_neg hd]
    exact ⟨s,rfl,h,Becomes.refl L ino s,by rw [hclean,hv],rfl,fun _ _ => rfl,fun _ _ _ => rfl⟩

end Sync

section References

variable {s t : Fs} {L : Nat → Prop} {pend : Option Nat} {ino : Nat} {v : SfsVnode} {g : Nat → Nat}

def SfsVnode.recount (g : Nat → Nat) (v : SfsVnode) : SfsVnode :=
  { v with refcount := g v.refcount }

theorem SfsVnode.recount_ino (g : Nat → Nat) (v : SfsVnode) : (v.recount g).ino = v.ino := rfl

def Fs.recount (s : Fs) (ino : Nat) (g : Nat → Nat) : Fs := s.setVnode ino (SfsVnode.recount g)

theorem recount_inodeAt (s : Fs) (ino : Nat) (g : Nat → Nat) (i : Nat) :
    (s.recount ino g).inodeAt i = s.inodeAt i := by
  simp only [Fs.inodeAt,Fs.recount,setVnode_vnode s ino (SfsVnode.recount_ino g)]
  by_cases hi : i = ino
  · rw [if_pos hi]
    cases s.vnode i <;> rfl
  · rw [if_neg hi]
    rfl

theorem recount_blockAt (s : Fs) (ino : Nat) (g : Nat → Nat) (i k : Nat) :
    (s.recount ino g).blockAt i k = s.blockAt i k :=
  blockAt_congr (recount_inodeAt s ino g i) (fun _ => rfl) k

theorem recount_loaded (s : Fs) (ino : Nat) (g : Nat → Nat) (i : Nat) :
    (s.recount ino g).loaded i = s.loaded i := by
  simp only [Fs.loaded,Fs.recount,setVnode_vnode s ino (SfsVnode.recount_ino g)]
  split
  · rw [Option.isSome_map]
  · rfl

theorem recount_refs (hv : s.vnode ino = some v) (g : Nat → Nat) (i : Nat) :
    (s.recount ino g).refs i = if i = ino then g (s.refs ino) else s.refs i := by
  simp only [Fs.refs,Fs.recount,setVnode_vnode s ino (SfsVnode.recount_ino g)]
  by_cases hi : i = ino
  · subst hi
    rw [if_pos rfl,if_pos rfl,hv]
    rfl
  · rw [if_neg hi,if_neg hi]

theorem recount_same (L : Nat → Prop) (s : Fs) (ino : Nat) (g : Nat → Nat) :
    Same L s (s.recount ino g) := by
  refine ⟨rfl,fun i _ => fileAt_congr (recount_inodeAt s ino g i) fun p => ?_⟩
  simp only [Fs.byteAt,recount_blockAt]
  rfl

theorem Own.recount (h : Own s L pend) (hv : s.vnode ino = some v) (hpos : 0 < g v.refcount) :
    Own (s.recount ino g) L pend := by
  refine ⟨⟨⟨h.geo.low,h.geo.high,h.geo.disk,h.geo.small,h.geo.nbits,h.geo.beyond,h.geo.results,
    h.geo.kmallocs⟩,⟨h.disk.superdirty,h.disk.super,h.disk.magic,h.disk.map⟩,?_,fun w hw => ?_,
    h.root,fun i hLi => ?_⟩,?_⟩
  · rw [Fs.recount,setVnode_inos _ _ (SfsVnode.recount_ino g)]
    exact h.nodup
  · rcases mem_setVnode hw with ⟨v',hmem,hi,rfl⟩ | ⟨hmem,_⟩
    · obtain rfl := eq_vnode h.nodup hv hmem hi
      have hvok := h.vnodes v' hmem
      exact ⟨hvok.live,hpos,hvok.closed,hvok.ops,hvok.links,hvok.clean⟩
    · have hwok := h.vnodes w hmem
      exact ⟨hwok.live,hwok.refs,hwok.closed,hwok.ops,hwok.links,hwok.clean⟩
  · rw [recount_inodeAt]
    exact h.inodes i hLi
  · exact h.exact.congr (owns_congr rfl (fun i _ => by rw [recount_inodeAt])
      fun i _ k => recount_blockAt s ino g i k) fun _ => Iff.rfl

theorem vnodeIncref_eq (s : Fs) (ino : Nat) :
    vnodeIncref ino s = .ok () (s.recount ino (· + 1)) := rfl

end References

section Drop

variable {s t : Fs} {L : Nat → Prop} {ino : Nat} {v : SfsVnode}

def Fs.drop (s : Fs) (ino : Nat) : Fs :=
  { s with vnodes := s.vnodes.eraseP fun v => v.ino == ino }

theorem drop_sublist (s : Fs) (ino : Nat) : (s.drop ino).vnodes.Sublist s.vnodes :=
  List.eraseP_sublist

theorem find_eraseP {l : List SfsVnode} (hn : (l.map SfsVnode.ino).Nodup) (ino j : Nat) :
    (l.eraseP fun v => v.ino == ino).find? (fun v => v.ino == j) =
      if j = ino then none else l.find? fun v => v.ino == j := by
  induction l with
  | nil => simp
  | cons w l ih =>
    simp only [List.map_cons,List.nodup_cons] at hn
    by_cases hw : w.ino = ino
    · rw [List.eraseP_cons_of_pos (by simpa using hw)]
      by_cases hj : j = ino
      · subst hj
        rw [if_pos rfl,List.find?_eq_none]
        intro x hx he
        have hxw : x.ino = w.ino := by
          rw [hw]
          simpa using he
        exact hn.1 (hxw ▸ List.mem_map_of_mem hx)
      · have hne : w.ino ≠ j := fun he => hj (he.symm.trans hw)
        rw [if_neg hj,List.find?_cons_of_neg (by simpa using hne)]
    · rw [List.eraseP_cons_of_neg (by simpa using hw)]
      by_cases hj : w.ino = j
      · have hne : j ≠ ino := fun he => hw (hj.trans he)
        rw [if_neg hne,List.find?_cons_of_pos (by simpa using hj),
          List.find?_cons_of_pos (by simpa using hj)]
      · rw [List.find?_cons_of_neg (by simpa using hj),ih hn.2,
          List.find?_cons_of_neg (by simpa using hj)]

section

variable (hn : (s.vnodes.map SfsVnode.ino).Nodup)

include hn

theorem drop_vnode (ino j : Nat) :
    (s.drop ino).vnode j = if j = ino then none else s.vnode j := find_eraseP hn ino j

theorem drop_loaded (ino j : Nat) :
    (s.drop ino).loaded j = (s.loaded j && j != ino) := by
  simp only [Fs.loaded,drop_vnode hn]
  by_cases hj : j = ino
  · simp [hj]
  · simp [hj,bne]

theorem drop_refs (ino j : Nat) :
    (s.drop ino).refs j = if j = ino then 0 else s.refs j := by
  simp only [Fs.refs,drop_vnode hn]
  by_cases hj : j = ino
  · rw [if_pos hj,if_pos hj]
    rfl
  · rw [if_neg hj,if_neg hj]

theorem drop_inodeAt {j : Nat} (hj : j ≠ ino) :
    (s.drop ino).inodeAt j = s.inodeAt j := by
  simp only [Fs.inodeAt,drop_vnode hn,if_neg hj]
  rfl

end

/-- A clean vnode can go: the disk says the same. -/
theorem drop_inodeAt_clean (h : Consistent s L) (hv : s.vnode ino = some v)
    (hd : v.dirty = false) (j : Nat) : (s.drop ino).inodeAt j = s.inodeAt j := by
  by_cases hj : j = ino
  · subst hj
    have hnone : (s.drop j).vnode j = none := by rw [drop_vnode h.nodup,if_pos rfl]
    have hdec := (h.vnodeOk hv).clean hd
    rw [vnode_ino hv] at hdec
    rw [inodeAt_unloaded hnone,inodeAt_loaded hv]
    exact hdec
  · exact drop_inodeAt h.nodup hj

theorem Consistent.drop {L' : Nat → Prop} (h : Consistent s L) (hL : ∀ i, L' i → L i)
    (hkeep : ∀ i, L i → i ≠ ino → L' i) (hroot : L' sfsRootLocation)
    (hinode : ∀ i, L' i → (s.drop ino).inodeAt i = s.inodeAt i) : Consistent (s.drop ino) L' where
  geo := { h.geo with }
  disk := { h.disk with }
  nodup := h.nodup.sublist ((drop_sublist s ino).map _)
  vnodes w hw := by
    have hok := h.vnodes w ((drop_sublist s ino).subset hw)
    have hne : w.ino ≠ ino := by
      rintro rfl
      have hnone : (s.drop w.ino).vnode w.ino = none := by rw [drop_vnode h.nodup,if_pos rfl]
      have hfind := List.find?_eq_none.mp hnone w hw
      exact hfind (by simp)
    exact ⟨hkeep _ hok.live hne,hok.refs,hok.closed,hok.ops,hok.links,hok.clean⟩
  root := hroot
  inodes i hi := by
    rw [hinode i hi]
    exact h.inodes i (hL i hi)

theorem Own.dropClean (h : Own s L none) (hv : s.vnode ino = some v) (hd : v.dirty = false) :
    Own (s.drop ino) L none ∧ Same L s (s.drop ino) := by
  have hinode := drop_inodeAt_clean h.toConsistent hv hd
  have hblk : ∀ i k, (s.drop ino).blockAt i k = s.blockAt i k := fun i k =>
    blockAt_congr (hinode i) (fun _ => rfl) k
  refine ⟨⟨h.drop (fun _ hi => hi) (fun _ hi _ => hi) h.root fun i _ => hinode i,
    h.exact.congr (owns_congr rfl (fun i _ => by rw [hinode]) fun i _ k => hblk i k)
      fun _ => Iff.rfl⟩,rfl,fun i _ => fileAt_congr (hinode i) fun p => ?_⟩
  simp only [Fs.byteAt,hblk]
  rfl

theorem owner_iff {P Q : Prop} {b x y : Nat} (hPQ : P → Q) (hsame : P → x = y)
    (hnone : Q → ¬ P → y = 0) : (P ∧ b ≠ 0 ∧ x = b) ↔ Q ∧ b ≠ 0 ∧ y = b := by
  constructor
  · rintro ⟨hp,hb,hx⟩
    exact ⟨hPQ hp,hb,(hsame hp).symm.trans hx⟩
  · rintro ⟨hq,hb,hy⟩
    have hp : P := by_contra fun hp => hb (hy.symm.trans (hnone hq hp))
    exact ⟨hp,hb,(hsame hp).trans hy⟩

theorem Own.dropFree (h : Own s L none) (hv : s.vnode ino = some v) (hne : ino ≠ sfsRootLocation)
    (hind : v.i.indirect = 0) (hmap : ∀ k, s.blockAt ino k = 0) :
    Own ((s.unmark ino).drop ino) (fun i => L i ∧ i ≠ ino) none ∧
      Same (fun i => L i ∧ i ≠ ino) s ((s.unmark ino).drop ino) := by
  have hL := h.live hv
  have hown : owns s L none (.inode ino) ino := ⟨hL,rfl⟩
  have hfreed := (Freed.refl s).unmark ino
  have hin : ∀ c, (False ∨ c = ino) → c < s.super.nblocks := by
    rintro c (hf | rfl)
    · exact hf.elim
    · exact h.lt hown
  have hcons := hfreed.consistent h.toConsistent hin
  have hinode : ∀ i, L i ∧ i ≠ ino → ((s.unmark ino).drop ino).inodeAt i = s.inodeAt i := by
    rintro i ⟨_,hi⟩
    rw [drop_inodeAt hcons.nodup hi,unmark_inodeAt]
  have hblk : ∀ i, L i ∧ i ≠ ino → ∀ k, ((s.unmark ino).drop ino).blockAt i k = s.blockAt i k :=
    fun i hi k => blockAt_congr (hinode i hi) (fun _ => rfl) k
  refine ⟨⟨hcons.drop (fun _ hi => hi.1) (fun _ hi hn => ⟨hi,hn⟩) ⟨h.root,hne.symm⟩
    fun i hi => ?_,?_⟩,rfl,fun i hi => fileAt_congr (hinode i hi) fun p => ?_⟩
  · rw [hinode i hi,unmark_inodeAt]
  · refine h.exact.drop (fun o b => (?_ : _ ↔ owns s L none o b ∧ ¬ o = .inode ino)) fun b => ?_
    · cases o with
      | super | pending => simp [owns]
      | map j => simp only [owns,reduceCtorEq,not_false_eq_true,and_true]; exact Iff.rfl
      | inode i => simp only [owns,Owner.inode.injEq]; tauto
      | indirect i =>
        simp only [owns,reduceCtorEq,not_false_eq_true,and_true]
        refine owner_iff And.left (fun hi => by rw [hinode i hi]) fun hL hi => ?_
        obtain rfl := not_not.mp fun hne => hi ⟨hL,hne⟩
        rw [inodeAt_loaded hv,hind]
      | slot i k =>
        simp only [owns,reduceCtorEq,not_false_eq_true,and_true]
        refine owner_iff And.left (fun hi => by rw [hblk i hi]) fun hL hi => ?_
        obtain rfl := not_not.mp fun hne => hi ⟨hL,hne⟩
        exact hmap k
    · show (s.unmark ino).held b ↔ _
      rw [held_unmark]
      refine and_congr_right fun _ => ?_
      simp only [forall_eq,owns,hL,true_and]
  · simp only [Fs.byteAt,hblk i hi]
    rfl

end Drop

section Reclaim

variable {s t : Fs} {L L' : Nat → Prop} {pend : Option Nat} {ino linkcount : Nat} {v : SfsVnode}

theorem Own.congr (h : Own s L pend) (hL : ∀ i, L' i ↔ L i) : Own s L' pend := by
  obtain rfl : L' = L := funext fun i => propext (hL i)
  exact h

def Left (L : Nat → Prop) (ino linkcount : Nat) (t : Fs) (i : Nat) : Prop :=
  L i ∧ (i = ino → linkcount ≠ 0 ∨ t.loaded ino = true)

/-- A file without names goes with its last reference; no other file changes. -/
structure Released (L : Nat → Prop) (ino linkcount : Nat) (s t : Fs) : Prop where
  own : Own t (Left L ino linkcount t) none
  same : Same (Left L ino linkcount t) s t
  others : ∀ j, j ≠ ino → t.loaded j = s.loaded j
  refs : ∀ j, j ≠ ino → t.refs j = s.refs j

theorem Released.kept (hown : Own t L none) (hsame : Same L s t)
    (hothers : ∀ j, j ≠ ino → t.loaded j = s.loaded j) (hrefs : ∀ j, j ≠ ino → t.refs j = s.refs j)
    (hk : linkcount ≠ 0 ∨ t.loaded ino = true) : Released L ino linkcount s t where
  own := hown.congr fun _ => ⟨fun hi => hi.1,fun hi => ⟨hi,fun _ => hk⟩⟩
  same := ⟨hsame.super,fun i hi => hsame.files i hi.1⟩
  others := hothers
  refs := hrefs

theorem Own.recounted {g : Nat → Nat} (h : Own s L none) (hv : s.vnode ino = some v)
    (hpos : 0 < g v.refcount) : Released L ino linkcount s (s.recount ino g) := by
  refine Released.kept (h.recount hv hpos) (recount_same L s ino g)
    (fun j _ => recount_loaded s ino g j)
    (fun j hj => (recount_refs hv g j).trans (if_neg hj)) (.inr ?_)
  rw [recount_loaded,Fs.loaded,hv]
  rfl

/-- The file has been erased if it has no names. -/
structure Erased (L : Nat → Prop) (ino : Nat) (v : SfsVnode) (s t : Fs) : Prop where
  own : Own t L none
  key : (t.vnode ino).map SfsVnode.key = some v.key
  links : (t.inodeAt ino).linkcount = v.i.linkcount
  same : Same (fun i => L i ∧ (v.i.linkcount ≠ 0 ∨ i ≠ ino)) s t
  loaded : ∀ j, t.loaded j = s.loaded j
  refs : ∀ j, t.refs j = s.refs j
  empty : v.i.linkcount = 0 → (t.inodeAt ino).indirect = 0 ∧ ∀ k, t.blockAt ino k = 0

theorem reclaimTruncate_spec (h : Own s L none) (hv : s.vnode ino = some v)
    (hroot : v.i.linkcount = 0 → ino ≠ sfsRootLocation) :
    (reclaimTruncate ino v.i.linkcount s).Safe (fun _ t => Erased L ino v s t)
      fun _ _ => False := by
  by_cases hz : v.i.linkcount = 0
  · have hops : v.ops = .file := by
      rw [(h.vnodeOk hv).ops,vnode_ino hv,if_neg (hroot hz)]
    have hvop : vopTruncate ino 0 s = sfsTruncate ino 0 s := by
      rw [vopTruncate,bind_ok (getVnode_eq hv),hops]
    have hnone : ∀ k, truncateKeeps (truncateBlocklen 0) k = false := by
      intro k
      have hlen : truncateBlocklen 0 = 0 := by decide
      rw [hlen,truncateKeeps]
      split
      · simp
      · simp
        omega
    rw [reclaimTruncate,if_pos hz,hvop]
    refine (sfsTruncate_spec h hv (by decide : toU32 0 < 2^31)).mono (fun _ t ht => ?_)
      fun _ _ hf => hf
    obtain ⟨hown,hbec,hmaps,hind⟩ := ht
    have hempty : ∀ k, t.blockAt ino k = 0 := by
      intro k
      rw [hmaps,hnone k]
      rfl
    refine ⟨hown,?_,?_,⟨hbec.super,?_⟩,hbec.loaded_eq,hbec.refs_eq,fun _ => ⟨?_,hempty⟩⟩
    · rw [hbec.vnode ino,hv]
      rfl
    · rw [← inodeAt_loaded hv]
      exact congrArg File.linkcount hbec.self
    · rintro i ⟨hL,hi⟩
      exact hbec.others i hL (hi.resolve_left (by simpa using hz))
    · by_contra hne
      rcases hind hne with hlen | ⟨k,hk⟩
      · exact absurd hlen (by decide)
      · exact hk (hempty k)
  · rw [reclaimTruncate,if_neg hz,pure_apply]
    exact ⟨h,by rw [hv]; rfl,by rw [inodeAt_loaded hv],⟨rfl,fun _ _ => rfl⟩,fun _ => rfl,
      fun _ => rfl,fun hx => (hz hx).elim⟩

theorem dropVnode_eq (hv : s.vnode ino = some v) (hr : v.refcount = 1) (ho : v.opencount = 0) :
    dropVnode ino s = .ok () (s.drop ino) := by
  rw [dropVnode,bind_ok (getVnode_eq hv),assert_bind _ _ _ ⟨hr,ho⟩]
  rfl

theorem Erased.reclaim (h : Erased L ino v s t) (hr : v.refcount = 1) (ho : v.opencount = 0)
    (hroot : v.i.linkcount = 0 → ino ≠ sfsRootLocation) :
    ((do sfsSyncInode ino
         reclaimInode ino
         dropVnode ino : SfsM Unit) t).Safe
      (fun _ u => Released L ino v.i.linkcount s u ∧ u.refs ino = 0) fun _ _ => False := by
  obtain ⟨w,hw⟩ : ∃ w, t.vnode ino = some w := by
    have hkey := h.key
    cases hx : t.vnode ino with
    | none => simp [hx] at hkey
    | some w => exact ⟨w,rfl⟩
  have hwkey : w.key = v.key := by
    have hkey := h.key
    rw [hw] at hkey
    exact Option.some.inj hkey
  have hlinks : w.clean.i.linkcount = v.i.linkcount := by
    rw [← h.links,inodeAt_loaded hw]
    rfl
  have hwr : w.refcount = 1 := by
    rw [← hr]
    exact congrArg (fun k => k.2.1) hwkey
  have hwo : w.opencount = 0 := by
    rw [← ho]
    exact congrArg (fun k => k.2.2.1) hwkey
  obtain ⟨u,hsync,hu⟩ := sfsSyncInode_spec h.own hw
  have hnodup : ∀ x : Fs, x.vnodes = u.vnodes → (x.vnodes.map SfsVnode.ino).Nodup := by
    intro x hx
    rw [hx]
    exact hu.own.nodup
  have hgone : ∀ x : Fs, x.vnodes = u.vnodes → ∀ j, j ≠ ino →
      (x.drop ino).loaded j = s.loaded j := by
    intro x hx j hj
    have hn := hnodup x hx
    have hxu : x.loaded j = u.loaded j := by
      rw [Fs.loaded,Fs.loaded,Fs.vnode,Fs.vnode,hx]
    have hj' : (j != ino) = true := by simpa using hj
    rw [drop_loaded hn,hj',Bool.and_true,hxu,hu.becomes.loaded_eq,h.loaded]
  have hcounts : ∀ x : Fs, x.vnodes = u.vnodes → ∀ j, j ≠ ino →
      (x.drop ino).refs j = s.refs j := by
    intro x hx j hj
    have hxu : x.refs j = u.refs j := by
      rw [Fs.refs,Fs.refs,Fs.vnode,Fs.vnode,hx]
    rw [drop_refs (hnodup x hx),if_neg hj,hxu,hu.becomes.refs_eq,h.refs]
  have hzero : ∀ x : Fs, x.vnodes = u.vnodes → (x.drop ino).refs ino = 0 := fun x hx => by
    rw [drop_refs (hnodup x hx),if_pos rfl]
  rw [bind_ok hsync]
  by_cases hz : v.i.linkcount = 0
  · have hinode : owns u L none (.inode ino) ino := ⟨hu.own.live hu.vnode,rfl⟩
    have hrec : reclaimInode ino u = .ok () (u.unmark ino) := by
      rw [reclaimInode,bind_ok (getVnode_eq hu.vnode),if_pos (hlinks.trans hz)]
      exact hu.own.geo.bfree (hu.own.exact.sound _ _ hinode)
    have hvu : (u.unmark ino).vnode ino = some w.clean := hu.vnode
    rw [bind_ok hrec,dropVnode_eq hvu hwr hwo]
    obtain ⟨hind,hmap⟩ := h.empty hz
    have hL := hu.own.live hu.vnode
    obtain ⟨hown,hsame⟩ := hu.own.dropFree hu.vnode (hroot hz)
      (by rw [← inodeAt_loaded hu.vnode,hu.inodes ino hL]; exact hind)
      fun k => by rw [hu.maps ino hL]; exact hmap k
    have hnot : ((u.unmark ino).drop ino).loaded ino = false := by
      have hn : ((u.unmark ino).vnodes.map SfsVnode.ino).Nodup := hu.own.nodup
      rw [drop_loaded hn]
      simp
    have hleft : ∀ i, Left L ino v.i.linkcount ((u.unmark ino).drop ino) i ↔ L i ∧ i ≠ ino := by
      intro i
      simp only [Left,hz,hnot,ne_eq,not_true_eq_false,Bool.false_eq_true,or_self,imp_false]
    refine ⟨⟨hown.congr hleft,⟨?_,fun i hi => ?_⟩,hgone _ rfl,hcounts _ rfl⟩,hzero _ rfl⟩
    · rw [hsame.super,hu.becomes.super,h.same.super]
    · have hi' := (hleft i).mp hi
      rw [hsame.files i hi',hu.becomes.same.files i hi'.1,h.same.files i ⟨hi'.1,.inr hi'.2⟩]
  · have hrec : reclaimInode ino u = .ok () u := by
      rw [reclaimInode,bind_ok (getVnode_eq hu.vnode),if_neg fun hx => hz (hlinks.symm.trans hx)]
      rfl
    rw [bind_ok hrec,dropVnode_eq hu.vnode hwr hwo]
    obtain ⟨hown,hsame⟩ := hu.own.dropClean hu.vnode rfl
    refine ⟨Released.kept hown ⟨?_,fun i hi => ?_⟩ (hgone u rfl) (hcounts u rfl) (.inl hz),
      hzero u rfl⟩
    · rw [hsame.super,hu.becomes.super,h.same.super]
    · rw [hsame.files i hi,hu.becomes.same.files i hi,h.same.files i ⟨hi,.inl hz⟩]

section

variable (h : Own s L none) (hv : s.vnode ino = some v)

include h hv

theorem sfsReclaim_last (hr : v.refcount = 1) (hroot : v.i.linkcount = 0 → ino ≠ sfsRootLocation) :
    (sfsReclaim ino s).Safe (fun _ t => Released L ino v.i.linkcount s t ∧ t.refs ino = 0)
      fun _ _ => False := by
  rw [sfsReclaim,bind_ok (getVnode_eq hv),if_neg (by simpa using hr)]
  refine (reclaimTruncate_spec h hv hroot).andThen fun _ t ht => ?_
  exact ht.reclaim hr (h.vnodeOk hv).closed hroot

theorem sfsReclaim_spec (hroot : v.i.linkcount = 0 → ino ≠ sfsRootLocation) :
    (sfsReclaim ino s).Safe (fun _ t => Released L ino v.i.linkcount s t)
      fun _ t => Released L ino v.i.linkcount s t := by
  by_cases hr : v.refcount = 1
  · exact (sfsReclaim_last h hv hr hroot).mono (fun _ _ ht => ht.1) fun _ _ hf => hf.elim
  · have hgt : 1 < v.refcount := by
      have := (h.vnodeOk hv).refs
      omega
    rw [sfsReclaim,bind_ok (getVnode_eq hv),if_pos hr,assert_bind _ _ _ hgt]
    exact h.recounted (g := (· - 1)) hv (show 0 < v.refcount - 1 by omega)

theorem vnodeDecref_counts (hroot : v.i.linkcount = 0 → ino ≠ sfsRootLocation) :
    (vnodeDecref ino s).Safe
      (fun _ t => Released L ino v.i.linkcount s t ∧ t.refs ino + 1 = s.refs ino)
      fun _ _ => False := by
  have hpos := (h.vnodeOk hv).refs
  rw [vnodeDecref,bind_ok (getVnode_eq hv),assert_bind _ _ _ hpos]
  by_cases hr : 1 < v.refcount
  · rw [if_pos hr]
    refine ⟨h.recounted (g := (· - 1)) hv (show 0 < v.refcount - 1 by omega),?_⟩
    show (s.recount ino (· - 1)).refs ino + 1 = s.refs ino
    rw [recount_refs hv,if_pos rfl,refs_vnode hv]
    omega
  · rw [if_neg hr]
    refine (sfsReclaim_last h hv (by omega) hroot).attempt_bind (fun _ t ht => ⟨ht.1,?_⟩)
      fun _ _ hf => hf.elim
    rw [ht.2,refs_vnode hv]
    omega

end

end Reclaim

section Search

variable {s : Fs} {L : Nat → Prop} {pend : Option Nat} {ino : Nat} {v : SfsVnode}

theorem searchVnodes_eq (ino : Nat) {l : List SfsVnode} (h : ∀ w ∈ l, s.held w.ino) :
    searchVnodes ino l s = .ok (l.any fun w => w.ino == ino) s := by
  induction l with
  | nil => rfl
  | cons w l ih =>
    obtain ⟨hlt,hset⟩ := h w List.mem_cons_self
    rw [searchVnodes,bind_ok (sfsBused_eq hlt),if_neg (by simp [hset])]
    by_cases hw : w.ino = ino
    · rw [if_pos hw]
      simp [hw]
    · rw [if_neg hw,ih fun x hx => h x (List.mem_cons_of_mem w hx)]
      simp [hw]

theorem any_vnode (s : Fs) (ino : Nat) : (s.vnodes.any fun w => w.ino == ino) = s.loaded ino := by
  rw [Bool.eq_iff_iff,List.any_eq_true,Fs.loaded,Fs.vnode,List.find?_isSome]

theorem Own.search (h : Own s L pend) (ino : Nat) :
    searchVnodes ino s.vnodes s = .ok (s.loaded ino) s := by
  rw [searchVnodes_eq ino fun w hw => h.exact.sound (.inode w.ino) _ ⟨(h.vnodes w hw).live,rfl⟩,
    any_vnode]

theorem kmalloc_eq (h : s.kmallocs = []) : kmalloc s = .ok () s := by
  rw [kmalloc,h]

def Fs.load (s : Fs) (v : SfsVnode) : Fs := { s with vnodes := s.vnodes ++ [v] }

theorem load_vnode (hnone : s.vnode v.ino = none) (j : Nat) :
    (s.load v).vnode j = if j = v.ino then some v else s.vnode j := by
  simp only [Fs.vnode,Fs.load,List.find?_append]
  by_cases hj : j = v.ino
  · subst hj
    rw [show s.vnodes.find? (fun w => w.ino == v.ino) = none from hnone,if_pos rfl]
    simp
  · rw [if_neg hj]
    have hne : ¬ v.ino = j := fun he => hj he.symm
    simp [hne]

theorem load_loaded (hnone : s.vnode v.ino = none) (j : Nat) :
    (s.load v).loaded j = (s.loaded j || j == v.ino) := by
  simp only [Fs.loaded,load_vnode hnone]
  by_cases hj : j = v.ino
  · simp [hj]
  · simp [hj]

theorem load_refs (hnone : s.vnode v.ino = none) (hone : v.refcount = 1) (j : Nat) :
    (s.load v).refs j = s.refs j + if j = v.ino then 1 else 0 := by
  by_cases hj : j = v.ino
  · rw [if_pos hj,hj,refs_none hnone,refs_vnode ((load_vnode hnone _).trans (if_pos rfl)),hone]
  · simp only [Fs.refs,load_vnode hnone,if_neg hj,Nat.add_zero]

theorem load_inodeAt (hnone : s.vnode v.ino = none) (j : Nat) :
    (s.load v).inodeAt j = if j = v.ino then v.i else s.inodeAt j := by
  simp only [Fs.inodeAt,load_vnode hnone]
  by_cases hj : j = v.ino
  · rw [if_pos hj,if_pos hj]
  · rw [if_neg hj,if_neg hj]
    rfl

theorem loadInode_eq (h : Geometry s) (hb : s.held ino) {forcetype : FileType} {ops : VnodeOps}
    (hforce : forcetype ≠ .inval → (decodeInode (s.dev.sector ino)).type = .inval)
    (hops : opsOf ino (forceType forcetype (decodeInode (s.dev.sector ino))).type s = .ok ops s) :
    loadInode ino forcetype s = .ok () (s.load ⟨ino,
      forceType forcetype (decodeInode (s.dev.sector ino)),decide (forcetype ≠ .inval),1,0,ops⟩) := by
  rw [← decodeInode_clip] at hforce hops ⊢
  rw [loadInode,bind_ok (kmalloc_eq h.kmallocs),bind_ok (sfsBused_eq hb.1),if_neg (by simp [hb.2]),
    bind_ok (h.rblock hb.1),assert_bind _ _ _ hforce,bind_ok hops,bind_ok (kmalloc_eq h.kmallocs),
    bind_ok (kmalloc_eq h.kmallocs)]
  rfl

end Search

section Load

variable {s : Fs} {L : Nat → Prop} {ino b : Nat} {v : SfsVnode}

structure Loads (L : Nat → Prop) (ino : Nat) (s t : Fs) : Prop where
  own : Own t L none
  same : Same L s t
  loaded : ∀ j, t.loaded j = (s.loaded j || j == ino)
  refs : ∀ j, t.refs j = s.refs j + if j = ino then 1 else 0

theorem Consistent.load {L' : Nat → Prop} (h : Consistent s L) (hnone : s.vnode v.ino = none)
    (hL : ∀ i, L i → L' i) (hok : VnodeOk s L' v)
    (hinodes : ∀ i, L' i → InodeOk i ((s.load v).inodeAt i)) : Consistent (s.load v) L' where
  geo := { h.geo with }
  disk := { h.disk with }
  nodup := by
    simp only [Fs.load,List.map_append,List.map_cons,List.map_nil]
    refine List.nodup_append.mpr ⟨h.nodup,by simp,fun x hx y hy hxy => ?_⟩
    obtain ⟨w,hw,rfl⟩ := List.mem_map.mp hx
    have hyv : y = v.ino := by simpa using hy
    have hfind := List.find?_eq_none.mp hnone w hw
    exact hfind (by simp [hxy,hyv])
  vnodes w hw := by
    rcases List.mem_append.mp hw with hw | hw
    · have hwok := h.vnodes w hw
      exact ⟨hL _ hwok.live,hwok.refs,hwok.closed,hwok.ops,hwok.links,hwok.clean⟩
    · obtain rfl : w = v := by simpa using hw
      exact ⟨hok.live,hok.refs,hok.closed,hok.ops,hok.links,hok.clean⟩
  root := hL _ h.root
  inodes := hinodes

theorem Own.loadLive (h : Own s L none) (hL : L ino) (hnone : s.vnode ino = none) :
    Loads L ino s (s.load ⟨ino,decodeInode (s.dev.sector ino),false,1,0,
      if ino = sfsRootLocation then .dir else .file⟩) := by
  have hinode : ∀ j, (s.load ⟨ino,decodeInode (s.dev.sector ino),false,1,0,
      if ino = sfsRootLocation then .dir else .file⟩).inodeAt j = s.inodeAt j := by
    intro j
    rw [load_inodeAt hnone]
    by_cases hj : j = ino
    · subst hj
      rw [if_pos rfl,inodeAt_unloaded hnone]
    · rw [if_neg hj]
  have hblk := fun i k => blockAt_congr (hinode i) (fun _ => rfl) k
  refine ⟨⟨h.load hnone (fun _ hi => hi) ⟨hL,Nat.one_pos,rfl,rfl,be16_lt _ _,fun _ => rfl⟩
    fun i hi => ?_,h.exact.congr (owns_congr rfl (fun i _ => by rw [hinode]) fun i _ k => hblk i k)
      fun _ => Iff.rfl⟩,⟨rfl,fun i _ => fileAt_congr (hinode i) fun p => ?_⟩,load_loaded hnone,
    load_refs hnone rfl⟩
  · rw [hinode]
    exact h.inodes i hi
  · simp only [Fs.byteAt,hblk]
    rfl

theorem sfsLoadvnode_fresh (h : Own s L none) (hL : L ino) (hv : s.vnode ino = none) :
    sfsLoadvnode ino .inval s = .ok () (s.load ⟨ino,decodeInode (s.dev.sector ino),false,1,0,
      if ino = sfsRootLocation then .dir else .file⟩) := by
  have hload : ¬ s.loaded ino = true := by simp [Fs.loaded,hv]
  have htype := (h.inodes ino hL).type
  rw [inodeAt_unloaded hv] at htype
  have hops : opsOf ino (forceType .inval (decodeInode (s.dev.sector ino))).type s =
      .ok (if ino = sfsRootLocation then .dir else .file) s := by
    rw [forceType,if_pos rfl,htype]
    split <;> rfl
  rw [sfsLoadvnode,get_bind,bind_ok (h.search ino),if_neg hload,
    loadInode_eq h.geo (h.exact.sound (.inode ino) ino ⟨hL,rfl⟩) (fun hx => (hx rfl).elim) hops]
  rfl

theorem sfsLoadvnode_spec (h : Own s L none) (hL : L ino) :
    (sfsLoadvnode ino .inval s).Safe (fun _ t => Loads L ino s t) fun _ _ => False := by
  cases hv : s.vnode ino with
  | some v =>
    have hload : s.loaded ino = true := by rw [Fs.loaded,hv]; rfl
    rw [sfsLoadvnode,get_bind,bind_ok (h.search ino),if_pos hload,assert_bind _ _ _ rfl,
      vnodeIncref_eq]
    refine ⟨h.recount hv (Nat.succ_pos _),recount_same L s ino _,fun j => ?_,fun j => ?_⟩
    · rw [recount_loaded]
      by_cases hj : j = ino
      · simp [hj,hload]
      · simp [hj]
    · rw [recount_refs hv]
      by_cases hj : j = ino
      · simp [hj]
      · simp [hj]
  | none =>
    rw [sfsLoadvnode_fresh h hL hv]
    exact h.loadLive hL hv

end Load

section Make

variable {s t : Fs} {L : Nat → Prop} {b : Nat}

structure Made (L : Nat → Prop) (b : Nat) (s t : Fs) : Prop where
  own : Own t (fun i => L i ∨ i = b) none
  new : ¬ L b
  same : Same L s t
  file : t.fileAt b = ⟨0,zeros,0,.file⟩
  loaded : ∀ j, t.loaded j = (s.loaded j || j == b)
  refs : ∀ j, t.refs j = s.refs j + if j = b then 1 else 0

def blankInode : Inode := ⟨0,.file,0,fun _ => 0,0⟩

def newVnode (b : Nat) : SfsVnode := ⟨b,blankInode,true,1,0,.file⟩

theorem forceType_zeros : forceType .file (decodeInode zeros) = blankInode := by
  have h32 : ∀ i, be32 zeros i = 0 := fun i => be32_zero fun _ _ => rfl
  have h16 : ∀ i, be16 zeros i = 0 := fun i => be16_zero fun _ _ => rfl
  simp only [forceType,decodeInode,h32,h16,blankInode]
  rfl

theorem Own.made (h : Own s L none) (hfree : s.free b) :
    Made L b s ((s.taken b).load (newVnode b)) := by
  have hown := h.taken hfree
  have hb : ¬ L b := (h.plain_of_free hfree).inode
  have hbroot : b ≠ sfsRootLocation := fun he => hb (he ▸ h.root)
  have hbz := hown.pending_ne_zero rfl
  have hnone : (s.taken b).vnode b = none := by
    cases hv : (s.taken b).vnode b with
    | none => rfl
    | some w => exact (hb (hown.live hv)).elim
  have hinode : ∀ i, ((s.taken b).load (newVnode b)).inodeAt i =
      if i = b then blankInode else (s.taken b).inodeAt i := load_inodeAt hnone
  have hself := (hinode b).trans (if_pos rfl)
  have hold : ∀ i, L i → ((s.taken b).load (newVnode b)).inodeAt i =
      (s.taken b).inodeAt i := by
    intro i hL
    have hne : i ≠ b := fun he => hb (he ▸ hL)
    rw [hinode,if_neg hne]
  have hblk : ∀ i, L i → ∀ k, ((s.taken b).load (newVnode b)).blockAt i k =
      (s.taken b).blockAt i k := fun i hL k => blockAt_congr (hold i hL) (fun _ => rfl) k
  have hblank : ∀ k, ((s.taken b).load (newVnode b)).blockAt b k = 0 := by
    intro k
    rw [Fs.blockAt,hself]
    split
    · rfl
    · exact if_neg fun hc => hc.2 rfl
  refine ⟨⟨hown.load hnone (fun _ hi => .inl hi) ⟨.inr rfl,Nat.one_pos,rfl,?_,Nat.two_pow_pos 16,
    fun hd => by cases hd⟩ fun i hi => ?_,?_⟩,hb,⟨rfl,fun i hL => ?_⟩,?_,load_loaded hnone,
    load_refs hnone rfl⟩
  · exact (if_neg hbroot).symm
  · rcases hi with hi | rfl
    · rw [hold i hi]
      exact hown.inodes i hi
    · rw [hself]
      exact ⟨by rw [if_neg hbroot]; rfl,by decide⟩
  · refine hown.exact.pass (x := .pending) (y := .inode b) rfl (fun o c => ?_)
      fun c hc => (Option.some.inj hc).symm
    cases o with
    | super | pending => simp [owns]
    | map j =>
      simp only [owns,ne_eq,reduceCtorEq,not_false_eq_true,and_true,false_and,or_false]
      rfl
    | inode i =>
      simp only [owns,ne_eq,reduceCtorEq,not_false_eq_true,and_true,Owner.inode.injEq]
      constructor
      · rintro ⟨hi | rfl,hc⟩
        · exact .inl ⟨hi,hc⟩
        · exact .inr ⟨rfl,hc⟩
      · rintro (⟨hi,hc⟩ | ⟨rfl,hc⟩)
        · exact ⟨.inl hi,hc⟩
        · exact ⟨.inr rfl,hc⟩
    | indirect i =>
      simp only [owns,ne_eq,reduceCtorEq,not_false_eq_true,and_true,false_and,or_false]
      refine (owner_iff .inl (fun hi => by rw [hold i hi]) fun hor hi => ?_).symm
      obtain rfl := hor.resolve_left hi
      rw [hself]
      rfl
    | slot i k =>
      simp only [owns,ne_eq,reduceCtorEq,not_false_eq_true,and_true,false_and,or_false]
      refine (owner_iff .inl (fun hi => by rw [hblk i hi]) fun hor hi => ?_).symm
      obtain rfl := hor.resolve_left hi
      rw [hblank]
  · rw [← taken_fileAt h hfree hL]
    refine fileAt_congr (hold i hL) fun p => ?_
    simp only [Fs.byteAt,hblk i hL]
    rfl
  · rw [Fs.fileAt,hself]
    simp only [blankInode,File.mk.injEq,true_and,and_true]
    funext p
    simp [Fs.byteAt,hblank,zeros]

theorem sfsMakeobj_spec (h : Own s L none) :
    (sfsMakeobj .file s).Safe (fun b t => Made L b s t) fun e t => e = .ENOSPC ∧ t = s := by
  rw [sfsMakeobj]
  rcases h.geo.balloc with ⟨b,hal,hfree⟩ | ⟨hal,_⟩
  · have hown := h.taken hfree
    have hmade := h.made hfree
    have hb : ¬ L b := hmade.new
    have hload : ¬ (s.taken b).loaded b = true := by
      intro hl
      obtain ⟨w,hw⟩ := exists_vnode hl
      exact hb (hown.live hw)
    have hzero : (s.taken b).dev.sector b = zeros := taken_sector s b
    have hforce : FileType.file ≠ .inval →
        (decodeInode ((s.taken b).dev.sector b)).type = .inval := by
      intro _
      rw [hzero,decodeInode,be16_zero fun _ _ => rfl]
      rfl
    have hinit := loadInode_eq hown.geo
      (hown.exact.sound .pending b rfl) hforce (by rw [hzero,forceType_zeros]; rfl)
    have hvn : sfsLoadvnode b .file (s.taken b) =
        .ok () ((s.taken b).load (newVnode b)) := by
      rw [sfsLoadvnode,get_bind,bind_ok (hown.search b),if_neg hload,hinit,hzero,forceType_zeros]
      rfl
    rw [bind_ok hal,bind_ok hvn,pure_apply]
    exact hmade
  · rw [bind_err hal]
    exact ⟨rfl,rfl⟩

end Make

end MipsOs.Sfs
