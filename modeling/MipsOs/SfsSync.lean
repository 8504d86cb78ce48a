import MipsOs.SfsVolume

/-! sfs_sync, and mounting the disk it leaves. -/

set_option autoImplicit false
namespace MipsOs.Sfs
open Bytes Prog Ledger Function Runs

/-- Goes over the loaded vnodes; an error of VOP_FSYNC is forgotten. -/
def syncVnodes : List SfsVnode → SfsM Unit
  | [] => pure ()
  | sv :: rest => do
    let _ ← attempt (sfsSyncInode sv.ino)
    syncVnodes rest

def syncFreemap : SfsM Unit := do
  let s ← get
  if s.freemapdirty = true then do
    sfsMapio .write
    modify fun s => { s with freemapdirty := false }
  else pure ()

def syncSuper : SfsM Unit := do
  let s ← get
  if s.superdirty = true then do
    sfsWblock (encodeSuper s.super) sfsSbLocation
    modify fun s => { s with superdirty := false }
  else pure ()

def sfsSync : SfsM Unit := do
  let s ← get
  syncVnodes s.vnodes
  syncFreemap
  syncSuper

section Vnodes

variable {s t u : Fs} {L : Nat → Prop} {ino : Nat} {v : SfsVnode}

/-- The same volume: freemap, inodes, block maps and contents. -/
structure Agrees (L : Nat → Prop) (s t : Fs) : Prop where
  own : Own t L none
  super : t.super = s.super
  nbits : t.freemap.nbits = s.freemap.nbits
  bits : ∀ b, b < s.freemap.nbits → t.freemap.isset b = s.freemap.isset b
  inodes : ∀ i, L i → t.inodeAt i = s.inodeAt i
  maps : ∀ i, L i → ∀ k, t.blockAt i k = s.blockAt i k
  bytes : ∀ i, L i → t.byteAt i = s.byteAt i

theorem Agrees.refl (h : Own s L none) : Agrees L s s :=
  ⟨h,rfl,rfl,fun _ _ => rfl,fun _ _ => rfl,fun _ _ _ => rfl,fun _ _ => rfl⟩

theorem Agrees.trans (h : Agrees L s t) (h' : Agrees L t u) : Agrees L s u where
  own := h'.own
  super := h'.super.trans h.super
  nbits := h'.nbits.trans h.nbits
  bits b hb := (h'.bits b (h.nbits.symm ▸ hb)).trans (h.bits b hb)
  inodes i hL := (h'.inodes i hL).trans (h.inodes i hL)
  maps i hL k := (h'.maps i hL k).trans (h.maps i hL k)
  bytes i hL := (h'.bytes i hL).trans (h.bytes i hL)

theorem Agrees.fileAt (h : Agrees L s t) {i : Nat} (hL : L i) : t.fileAt i = s.fileAt i := by
  simp only [Fs.fileAt,h.inodes i hL,h.bytes i hL]

theorem Synced.agrees (h : Synced L ino v s t) : Agrees L s t where
  own := h.own
  super := h.becomes.super
  nbits := by rw [h.freemap]
  bits b _ := by rw [h.freemap]
  inodes := h.inodes
  maps := h.maps
  bytes i hL := by
    by_cases hi : i = ino
    · subst hi
      exact congrArg File.byte h.becomes.self
    · exact congrArg File.byte (h.becomes.others i hL hi)

end Vnodes

section Freemap

variable {s t : Fs} {L : Nat → Prop}

def Fs.mapBlock (s : Fs) (j : Nat) : Nat × Block :=
  (sfsMapLocation + j,clip fun k => s.freemap.v (j * sfsBlocksize + k))

def Fs.mapBlocks (s : Fs) : List (Nat × Block) :=
  (List.range' 0 (sfsBitblocks s.super.nblocks)).map s.mapBlock

theorem mapBlocks_nodup (s : Fs) : (s.mapBlocks.map Prod.fst).Nodup := by
  rw [Fs.mapBlocks,List.map_map]
  exact List.Nodup.map (fun _ _ h => Nat.add_left_cancel h) List.nodup_range'

theorem mapBlocks_get {j : Nat} (hj : j < sfsBitblocks s.super.nblocks) :
    s.mapBlocks[j]? = some (s.mapBlock j) := by
  simp [Fs.mapBlocks,hj]

def Fs.mapWritten (s : Fs) : Fs :=
  { s.withSectors (sectorsAfter s.mapBlocks [] s.dev.sector) with freemapdirty := false }

theorem Own.mapWritten (h : Own s L none) : Agrees L s s.mapWritten := by
  have hsec : ∀ o b, owns s L none o b → (∀ j, o ≠ .map j) →
      s.mapWritten.dev.sector b = s.dev.sector b := by
    intro o b ho hm
    refine sectorsAfter_other _ fun hb => ?_
    simp only [Fs.mapBlocks,List.map_map,List.mem_map,List.mem_range'_1,Function.comp] at hb
    obtain ⟨j,hj,hb⟩ := hb
    have hmap : owns s L none (.map j) b := ⟨by omega,hb.symm⟩
    exact hm j (h.exact.unique o _ b ho hmap)
  have hinode : ∀ i, L i → s.mapWritten.inodeAt i = s.inodeAt i := by
    intro i hL
    simp only [Fs.inodeAt,hsec (.inode i) i ⟨hL,rfl⟩ (by simp)]
    rfl
  have hblk : ∀ i, L i → ∀ k,
      s.mapWritten.blockAt i k = s.blockAt i k := fun i hL k =>
    blockAt_congr (hinode i hL) (fun hz => hsec (.indirect i) _ ⟨hL,hz,rfl⟩ (by simp)) k
  have hbyte : ∀ i, L i →
      s.mapWritten.byteAt i = s.byteAt i := by
    intro i hL
    funext p
    simp only [Fs.byteAt,hblk i hL]
    by_cases hz : s.blockAt i (p / 512) = 0
    · rw [if_pos hz,if_pos hz]
    · rw [if_neg hz,if_neg hz,hsec (.slot i (p / 512)) _ ⟨hL,hz,rfl⟩ (by simp)]
  have hsuper : s.mapWritten.dev.super = s.dev.super := by
    simp only [Device.super,hsec .super sfsSbLocation rfl (by simp)]
  refine ⟨⟨⟨?_,⟨h.disk.superdirty,?_,h.disk.magic,fun _ j k hj hk => ?_⟩,h.nodup,fun v hv => ?_,
    h.root,fun i hL => ?_⟩,?_⟩,rfl,rfl,fun _ _ => rfl,hinode,hblk,hbyte⟩
  · exact ⟨h.geo.low,h.geo.high,h.geo.disk,h.geo.small,h.geo.nbits,h.geo.beyond,h.geo.results,
      h.geo.kmallocs⟩
  · exact h.disk.super.trans hsuper.symm
  · have hget := sectorsAfter_get (x := s.dev.sector) [] (mapBlocks_nodup s) (mapBlocks_get hj)
    rw [List.getElem?_nil,if_neg (by simp)] at hget
    exact (congrFun hget k).trans (clip_apply (b := fun k => s.freemap.v (j * 512 + k)) hk)
  · have hok := h.vnodes v hv
    refine ⟨hok.live,hok.refs,hok.closed,hok.ops,hok.links,fun hd => ?_⟩
    show decodeInode (s.mapWritten.dev.sector v.ino) = v.i
    rw [hsec (.inode v.ino) v.ino ⟨hok.live,rfl⟩ (by simp)]
    exact hok.clean hd
  · show InodeOk i (s.mapWritten.inodeAt i)
    rw [hinode i hL]
    exact h.inodes i hL
  · exact h.exact.congr (owns_congr rfl (fun i hL => congrArg Inode.indirect (hinode i hL)) hblk)
      fun _ => Iff.rfl

end Freemap

section Failures

variable {s t : Fs} {L : Nat → Prop} {v : SfsVnode}

def SfsVnode.block (v : SfsVnode) : Nat × Block := (v.ino,clip (encodeInode v.i))

/-- The blocks that sfs_sync writes. -/
def syncWrites (s : Fs) : List (Nat × Block) :=
  (s.vnodes.filter SfsVnode.dirty).map SfsVnode.block ++
    if s.freemapdirty = true then s.mapBlocks else []

theorem syncWrites_vnode {i : Nat} (h : (s.vnodes.filter SfsVnode.dirty)[i]? = some v) :
    (syncWrites s)[i]? = some v.block := by
  have hlt := (List.getElem?_eq_some_iff.mp h).1
  rw [syncWrites,List.getElem?_append_left (by rwa [List.length_map]),List.getElem?_map,h]
  rfl

theorem syncWrites_map {j : Nat} (hd : s.freemapdirty = true)
    (hj : j < sfsBitblocks s.super.nblocks) :
    (syncWrites s)[(s.vnodes.filter SfsVnode.dirty).length + j]? = some (s.mapBlock j) := by
  rw [syncWrites,if_pos hd,List.getElem?_append_right (by simp),List.length_map,
    Nat.add_sub_cancel_left]
  exact mapBlocks_get hj

theorem Own.syncWrites_nodup (h : Own s L none) : ((syncWrites s).map Prod.fst).Nodup := by
  rw [syncWrites,List.map_append,List.nodup_append]
  refine ⟨?_,?_,fun b hb c hc => ?_⟩
  · rw [List.map_map]
    exact h.nodup.sublist (List.filter_sublist.map _)
  · split
    · exact mapBlocks_nodup s
    · exact List.nodup_nil
  · split at hc
    · simp only [Fs.mapBlocks,List.map_map,List.mem_map,List.mem_range'_1,List.mem_filter,
        Function.comp] at hb hc
      obtain ⟨v,⟨hv,_⟩,rfl⟩ := hb
      obtain ⟨j,hj,rfl⟩ := hc
      intro he
      have hmap : owns s L none (.map j) v.ino := ⟨by omega,he⟩
      exact absurd (h.exact.unique (.inode v.ino) _ _ ⟨(h.vnodes v hv).live,rfl⟩ hmap) nofun
    · cases hc

theorem syncVnodes_writes (hg : Geometry s) (pre l : List SfsVnode)
    (hn : ((pre ++ l).map SfsVnode.ino).Nodup) (hlt : ∀ v ∈ l, v.ino < s.super.nblocks) :
    Writes ((l.filter SfsVnode.dirty).map SfsVnode.block) (syncVnodes l)
      { s with vnodes := pre ++ l } () { s with vnodes := pre ++ l.map SfsVnode.clean } := by
  induction l generalizing pre with
  | nil => exact Writes.quiet fun _ _ _ => rfl
  | cons v l ih =>
    have hrest := ih (pre ++ [v.clean]) (by simpa [SfsVnode.clean] using hn)
      fun w hw => hlt w (List.mem_cons_of_mem _ hw)
    simp only [List.append_assoc,List.singleton_append] at hrest
    have hget : ∀ x rs ks, getVnode v.ino
        ((Fs.withSectors { s with vnodes := pre ++ v :: l } x).failing rs ks) = .ok v _ :=
      fun x rs ks => getVnode_eq (find_vnode hn (List.mem_append_right _ List.mem_cons_self))
    have hset : (pre ++ v :: l).map (fun w => if w.ino = v.ino then w.clean else w) =
        pre ++ v.clean :: l := by
      rw [List.map_append,List.map_cons,List.nodup_middle,← List.map_append] at hn
      have hkeep : ∀ w ∈ pre ++ l, (if w.ino = v.ino then w.clean else w) = id w := fun w hw =>
        if_neg fun he : w.ino = v.ino => (List.nodup_cons.mp hn).1 (he ▸ List.mem_map_of_mem hw)
      have hl := List.map_congr_left hkeep
      rw [List.map_append,List.map_id] at hl
      obtain ⟨hpre,hl⟩ := List.append_inj hl (List.length_map _)
      rw [List.map_append,List.map_cons,if_pos rfl,hpre,hl]
    have hfirst : Writes (if v.dirty = true then [v.block] else []) (sfsSyncInode v.ino)
        { s with vnodes := pre ++ v :: l } () { s with vnodes := pre ++ v.clean :: l } := by
      intro x rs ks
      rw [sfsSyncInode,bind_ok (hget x rs ks)]
      by_cases hd : v.dirty = true
      · rw [if_pos hd,if_pos hd]
        have hgeo : Geometry { s with vnodes := pre ++ v :: l } := { hg with }
        refine ((hgeo.wblock_writes (hlt v List.mem_cons_self) (encodeInode v.i)).then_quiet
          (Writes.quiet fun x rs ks => ?_)) x rs ks
        exact congrArg (fun vs => Outcome.ok () ((Fs.withSectors { s with vnodes := vs } x).failing
          rs ks)) hset
      · have hclean : v.clean = v := by
          rw [SfsVnode.clean,← Bool.eq_false_iff.mpr hd]
        rw [if_neg hd,if_neg hd,hclean]
        rfl
    have hlist : ((v :: l).filter SfsVnode.dirty).map SfsVnode.block =
        (if v.dirty = true then [v.block] else []) ++
          (l.filter SfsVnode.dirty).map SfsVnode.block := by
      rw [List.filter_cons]
      split <;> rfl
    rw [hlist]
    exact hfirst.attempt.bind hrest

theorem syncFreemap_writes (h : Geometry s) :
    Writes (if s.freemapdirty = true then s.mapBlocks else []) syncFreemap s ()
      { s with freemapdirty := false } := by
  have hmap : Writes s.mapBlocks (sfsMapio .write) s () s := by
    intro x rs ks
    rw [sfsMapio,get_bind]
    refine Writes.loop (w := s.mapBlock) _ 0 (fun j hj x rs ks => ?_) x rs ks
    have hlow := h.low
    have hj : j < 0 + sfsBitblocks s.super.nblocks := hj
    have hlt : sfsMapLocation + j < s.super.nblocks := by
      show 2 + j < _
      omega
    rw [mapioBlock,get_bind]
    exact h.wblock_writes hlt _ x rs ks
  intro x rs ks
  rw [syncFreemap,get_bind]
  by_cases hd : s.freemapdirty = true
  · rw [if_pos hd,show ((s.withSectors x).failing rs ks).freemapdirty = true from hd,if_pos rfl]
    exact (hmap.then_quiet (u := { s with freemapdirty := false }) (c := ())
      (Writes.quiet fun _ _ _ => rfl)) x rs ks
  · have hsame : { s with freemapdirty := false } = s := by
      rw [← Bool.eq_false_iff.mpr hd]
    have hd' : ¬ ((s.withSectors x).failing rs ks).freemapdirty = true := hd
    rw [if_neg hd,if_neg hd',hsame]
    rfl

def Fs.flushed (s : Fs) : Fs :=
  { s with vnodes := s.vnodes.map SfsVnode.clean, freemapdirty := false }

theorem flushed_clean (s : Fs) : ∀ v ∈ s.flushed.vnodes, v.dirty = false := by
  intro v hv
  obtain ⟨w,_,rfl⟩ := List.mem_map.mp hv
  rfl

theorem flushed_inodeAt (s : Fs) (i : Nat) {x y : Nat → Block} (h : x i = y i) :
    (s.flushed.withSectors x).inodeAt i = (s.flushed.withSectors y).inodeAt i := by
  simp only [Fs.inodeAt,Fs.withSectors,Fs.vnode,h]

theorem Own.sync_writes (h : Own s L none) : Writes (syncWrites s) sfsSync s () s.flushed := by
  have hvnodes := syncVnodes_writes h.geo [] s.vnodes h.nodup fun v hv =>
    h.lt (o := .inode v.ino) ⟨(h.vnodes v hv).live,rfl⟩
  have hmap := syncFreemap_writes (s := { s with vnodes := s.vnodes.map SfsVnode.clean })
    { h.geo with }
  have hsuper : Writes [] syncSuper s.flushed () s.flushed := Writes.quiet fun x rs ks => by
    have hclean : ¬ ((s.flushed.withSectors x).failing rs ks).superdirty = true := by
      show ¬ s.superdirty = true
      simp [h.disk.superdirty]
    rw [syncSuper,get_bind,if_neg hclean]
    rfl
  intro x rs ks
  rw [sfsSync,get_bind]
  exact (hvnodes.bind (hmap.then_quiet hsuper)) x rs ks

theorem syncVnodes_agrees (h : Own s L none) (l : List SfsVnode)
    (hl : ∀ v ∈ l, s.loaded v.ino = true) : ∃ t, syncVnodes l s = .ok () t ∧ Agrees L s t := by
  induction l generalizing s with
  | nil => exact ⟨s,rfl,Agrees.refl h⟩
  | cons v l ih =>
    obtain ⟨w,hw⟩ := exists_vnode (hl v List.mem_cons_self)
    obtain ⟨t,ht,hsynced⟩ := sfsSyncInode_spec h hw
    obtain ⟨u,hu,hrest⟩ := ih hsynced.own fun x hx => by
      rw [Fs.loaded,hsynced.becomes.loaded]
      exact hl x (List.mem_cons_of_mem _ hx)
    exact ⟨u,by rw [syncVnodes,bind_ok (attempt_ok ht),hu],hsynced.agrees.trans hrest⟩

theorem syncFreemap_agrees (h : Own s L none) : ∃ t, syncFreemap s = .ok () t ∧ Agrees L s t := by
  have hrun := (syncFreemap_writes h.geo).healthy h.geo { h.geo with }
  refine ⟨_,hrun,?_⟩
  by_cases hd : s.freemapdirty = true
  · rw [if_pos hd]
    exact h.mapWritten
  · rw [if_neg hd,← Bool.eq_false_iff.mpr hd]
    exact Agrees.refl h

/-- With a sound disk sfs_sync leaves the same volume. -/
theorem Own.sync_agrees (h : Own s L none) :
    ∃ t, sfsSync s = .ok () t ∧ Agrees L s t ∧
      t = s.flushed.withSectors (sectorsAfter (syncWrites s) [] s.dev.sector) := by
  obtain ⟨t,ht,hag⟩ := syncVnodes_agrees h s.vnodes fun v hv => by
    rw [Fs.loaded,vnode_of_mem h.nodup hv]
    rfl
  obtain ⟨u,hu,hag'⟩ := syncFreemap_agrees hag.own
  have hrun : sfsSync s = .ok () u := by
    have hclean : ¬ u.superdirty = true := by simp [hag'.own.disk.superdirty]
    rw [sfsSync,get_bind,bind_ok ht,bind_ok hu,syncSuper,get_bind,if_neg hclean]
    rfl
  have hwrites := h.sync_writes.healthy h.geo { h.geo with }
  rw [hrun] at hwrites
  injection hwrites with _ heq
  exact ⟨u,hrun,hag.trans hag',heq⟩

end Failures

section Remount

variable {s t : Fs} {L : Nat → Prop}

theorem isset_congr {b c : Bitmap} {i : Nat} (h : b.v (i / 8) = c.v (i / 8)) :
    b.isset i = c.isset i := by
  simp only [Bitmap.isset,Bitmap.bitsPerWord,h]

theorem OnDisk.isset_mounted (h : OnDisk s) (hg : Geometry s) (hmap : s.freemapdirty = false)
    {b : Nat} (hb : b < s.freemap.nbits) : s.dev.mounted.freemap.isset b = s.freemap.isset b := by
  have hhigh := hg.high
  obtain ⟨hbb,hbm⟩ := bitblocks_eq (n := s.super.nblocks) (by omega)
  rw [hg.nbits,hbm,← hbb] at hb
  apply isset_congr
  rw [mounted_map,Device.map,← h.super,sfsBlocksize,if_pos (by omega),
    h.map hmap _ _ (by omega) (Nat.mod_lt _ (by decide))]
  exact congrArg _ (by omega)

/-- A disk to which everything has been written holds the volume. -/
theorem Own.mounted (h : Own s L none) (hmap : s.freemapdirty = false)
    (hclean : ∀ v ∈ s.vnodes, v.dirty = false) : Agrees L s s.dev.mounted := by
  have hsuper : s.dev.mounted.super = s.super := h.disk.super.symm
  have hnbits : s.dev.mounted.freemap.nbits = s.freemap.nbits := by
    rw [h.geo.nbits,← hsuper]
    rfl
  have hbits : ∀ b, b < s.freemap.nbits → s.dev.mounted.freemap.isset b = s.freemap.isset b :=
    fun b hb => h.disk.isset_mounted h.geo hmap hb
  have hinode : ∀ i, s.dev.mounted.inodeAt i = s.inodeAt i := by
    intro i
    cases hv : s.vnode i with
    | none => rw [inodeAt_unloaded hv]; rfl
    | some v =>
      have hdec := (h.vnodeOk hv).clean (hclean v (vnode_mem hv))
      rw [vnode_ino hv] at hdec
      rw [inodeAt_loaded hv]
      exact hdec
  have hblk : ∀ i k, s.dev.mounted.blockAt i k = s.blockAt i k := fun i k =>
    blockAt_congr (hinode i) (fun _ => rfl) k
  have hbyte : ∀ i, s.dev.mounted.byteAt i = s.byteAt i := fun i => by
    funext p
    simp only [Fs.byteAt,hblk]
    rfl
  have hgeo : Geometry s.dev.mounted := by
    refine ⟨hsuper ▸ h.geo.low,hsuper ▸ h.geo.high,hsuper ▸ h.geo.disk,h.geo.small,rfl,
      fun b hge hlt => ?_,h.geo.results,rfl⟩
    rw [hnbits] at hlt
    rw [hbits b hlt]
    exact h.geo.beyond b (hsuper ▸ hge) hlt
  have hheld : ∀ b, s.dev.mounted.held b ↔ s.held b := by
    intro b
    rw [Fs.held,Fs.held,hsuper]
    refine and_congr_right fun hb => ?_
    rw [hbits b (Nat.lt_of_lt_of_le hb h.geo.nblocks_le)]
  refine ⟨⟨⟨hgeo,mounted_onDisk ?_,List.nodup_nil,fun _ hv => absurd hv List.not_mem_nil,h.root,
    fun i hL => ?_⟩,?_⟩,hsuper,hnbits,hbits,fun i _ => hinode i,fun i _ => hblk i,
    fun i _ => hbyte i⟩
  · rw [← h.disk.super]
    exact h.disk.magic
  · rw [hinode i]
    exact h.inodes i hL
  · exact h.exact.congr (owns_congr hsuper (fun i _ => by rw [hinode i]) fun i _ => hblk i) hheld

theorem Own.domount (h : Own s L none) : sfsDomount (Fs.blank s.dev) = .ok () s.dev.mounted := by
  have hdisk := h.geo.disk
  have hlow := h.geo.low
  refine sfsDomount_eq h.geo.results h.geo.small ?_ ?_ ?_
  · rw [← h.disk.super]
    exact h.disk.magic
  · rw [← h.disk.super]
    exact h.geo.high
  · rw [← h.disk.super,sfsMapLocation]
    omega

theorem Own.loadFresh (h : Own s L none) {ino : Nat} (hL : L ino) (hv : s.vnode ino = none) :
    ∃ t, sfsLoadvnode ino .inval s = .ok () t ∧ t.loaded ino = true ∧
      t.inodeAt ino = s.inodeAt ino ∧ (∀ k, t.blockAt ino k = s.blockAt ino k) ∧
      t.byteAt ino = s.byteAt ino := by
  have hinode : (s.load ⟨ino,decodeInode (s.dev.sector ino),false,1,0,
      if ino = sfsRootLocation then .dir else .file⟩).inodeAt ino = s.inodeAt ino := by
    rw [load_inodeAt hv,if_pos rfl,inodeAt_unloaded hv]
  have hblk := fun k => blockAt_congr hinode (fun _ => rfl) k
  refine ⟨_,sfsLoadvnode_fresh h hL hv,?_,hinode,hblk,?_⟩
  · rw [load_loaded hv]
    simp
  · funext p
    simp only [Fs.byteAt,hblk]
    rfl

end Remount

section Identity

variable {volname : Name} {stSize : Fin (2^31)} {image : Nat → Block} {s t : Fs} {acts : List Act}

/-- In every state of a volume sfs_sync succeeds, and mounting the disk it leaves gives the
freemap, the directory, the inodes and the contents of the files as they were. -/
theorem sync_then_mount (hs : volume volname stSize image = some s)
    (ht : run step s acts = some t) :
    ∃ u m, sfsSync t = .ok () u ∧ sfsDomount (Fs.blank u.dev) = .ok () m ∧
      m.super = t.super ∧ m.freemap.nbits = t.freemap.nbits ∧
      (∀ b, b < t.freemap.nbits → m.freemap.isset b = t.freemap.isset b) ∧
      (∀ k, (m.root.used k ↔ t.root.used k) ∧
        m.root.entry k = t.root.entry k) ∧
      ∀ i, Live t i → ∃ w, sfsLoadvnode i .inval m = .ok () w ∧ w.loaded i = true ∧
        w.inodeAt i = t.inodeAt i ∧ (∀ k, w.blockAt i k = t.blockAt i k) ∧
        w.byteAt i = t.byteAt i := by
  have hinv := reachable_inv hs ht
  obtain ⟨u,hu,hflu,heq⟩ := hinv.own.sync_agrees
  have hag := hflu.trans (hflu.own.mounted (by rw [heq]; rfl) (by rw [heq]; exact flushed_clean t))
  have hroot : u.dev.mounted.root = t.root := hag.fileAt (live_root t)
  refine ⟨u,u.dev.mounted,hu,hflu.own.domount,hag.super,hag.nbits,hag.bits,fun k => ?_,
    fun i hi => ?_⟩
  · rw [hroot]
    exact ⟨Iff.rfl,rfl⟩
  · obtain ⟨w,hw,hload,hinode,hblk,hbyte⟩ := hag.own.loadFresh hi rfl
    exact ⟨w,hw,hload,hinode.trans (hag.inodes i hi),fun k => (hblk k).trans (hag.maps i hi k),
      hbyte.trans (hag.bytes i hi)⟩

theorem sync_then_mount_newFile : ∃ s t u m, volume4096 = some s ∧
    run step s newFile = some t ∧ sfsSync t = .ok () u ∧
    sfsDomount (Fs.blank u.dev) = .ok () m ∧ m.freemap.nbits = t.freemap.nbits := by
  obtain ⟨s,t,hs,ht⟩ := volume4096_run
  obtain ⟨u,m,hu,hm,_,hn,_⟩ := sync_then_mount hs ht
  exact ⟨s,t,u,m,hs,ht,hu,hm,hn⟩

structure AllWritten (s : Fs) : Prop where
  vnodes : ∀ v ∈ s.vnodes, v.dirty = false ∧ decodeInode (s.dev.sector v.ino) = v.i
  freemapdirty : s.freemapdirty = false
  superdirty : s.superdirty = false
  freemap : ∀ j, j < sfsBitblocks s.super.nblocks → ∀ k, k < sfsBlocksize →
    s.dev.sector (sfsMapLocation + j) k = s.freemap.v (j * sfsBlocksize + k)

theorem Own.allWritten {L : Nat → Prop} (h : Own s L none) (hmap : s.freemapdirty = false)
    (hclean : ∀ v ∈ s.vnodes, v.dirty = false) : AllWritten s where
  vnodes v hv := ⟨hclean v hv,(h.vnodes v hv).clean (hclean v hv)⟩
  freemapdirty := hmap
  superdirty := h.disk.superdirty
  freemap j hj k hk := h.disk.map hmap j k hj hk

variable {rs : List LhdResult} {ks : List Bool}

/-- The writes that meet a media error find on the disk what they should write. -/
structure LosesNothing (s : Fs) (rs : List LhdResult) : Prop where
  vnodes : ∀ (i : Nat) v, (s.vnodes.filter SfsVnode.dirty)[i]? = some v →
    rs[i]? = some LhdResult.media → decodeInode (s.dev.sector v.ino) = v.i
  freemap : s.freemapdirty = true → ∀ j, j < sfsBitblocks s.super.nblocks →
    rs[(s.vnodes.filter SfsVnode.dirty).length + j]? = some LhdResult.media → ∀ k, k < sfsBlocksize →
    s.dev.sector (sfsMapLocation + j) k = s.freemap.v (j * sfsBlocksize + k)

end Identity

end MipsOs.Sfs
