import MipsOs.SfsBlockMap

/-! sfs_truncate. It gives up the blocks past the new end one by one, the
freemap first and the block map afterwards. -/

set_option autoImplicit false
namespace MipsOs.Sfs
open Bytes Prog Ledger Function

section Freed

variable {s t : Fs} {L : Nat → Prop} {gone : Nat → Prop} {b : Nat}

structure Freed (gone : Nat → Prop) (s t : Fs) : Prop where
  rest : t = { s with freemap := t.freemap, freemapdirty := t.freemapdirty }
  nbits : t.freemap.nbits = s.freemap.nbits
  isset : ∀ c, t.freemap.isset c = true ↔ s.freemap.isset c = true ∧ ¬ gone c
  clean : t.freemapdirty = false → s.freemapdirty = false ∧ t.freemap = s.freemap

theorem Freed.refl (s : Fs) : Freed (fun _ => False) s s :=
  ⟨rfl,rfl,fun _ => by simp,fun hd => ⟨hd,rfl⟩⟩

section

variable (h : Freed gone s t)

include h

theorem Freed.congr {gone' : Nat → Prop} (hg : ∀ c, gone' c ↔ gone c) :
    Freed gone' s t :=
  ⟨h.rest,h.nbits,fun c => by rw [h.isset c,hg c],h.clean⟩

theorem Freed.super : t.super = s.super := by rw [h.rest]

theorem Freed.dev : t.dev = s.dev := by rw [h.rest]

theorem Freed.vnodes : t.vnodes = s.vnodes := by rw [h.rest]

theorem Freed.vnode (i : Nat) : t.vnode i = s.vnode i := by
  rw [Fs.vnode,h.vnodes]
  rfl

theorem Freed.inodeAt (i : Nat) : t.inodeAt i = s.inodeAt i := by
  rw [h.rest]
  rfl

theorem Freed.blockAt (i k : Nat) : t.blockAt i k = s.blockAt i k := by
  rw [h.rest]
  rfl

theorem Freed.held (c : Nat) : t.held c ↔ s.held c ∧ ¬ gone c := by
  rw [Fs.held,Fs.held,h.super,h.isset c,and_assoc]

theorem Freed.unmark (b : Nat) :
    Freed (fun c => gone c ∨ c = b) s (t.unmark b) where
  rest := by
    rw [h.rest]
    rfl
  nbits := h.nbits
  isset c := by
    simp only [Fs.unmark,Bitmap.isset_clearBit,Bool.and_eq_true,Bool.not_eq_true',
      decide_eq_false_iff_not,h.isset c]
    tauto
  clean hd := by cases hd

theorem Freed.geometry (hg : Geometry s) (hin : ∀ c, gone c → c < s.super.nblocks) :
    Geometry t where
  low := by rw [h.super]; exact hg.low
  high := by rw [h.super]; exact hg.high
  disk := by rw [h.super,h.dev]; exact hg.disk
  small := by rw [h.dev]; exact hg.small
  nbits := by rw [h.nbits,h.super]; exact hg.nbits
  beyond c hge hlt := by
    rw [h.super] at hge
    rw [h.nbits] at hlt
    refine (h.isset c).mpr ⟨hg.beyond c hge hlt,fun hc => ?_⟩
    have := hin c hc
    omega
  results := by rw [h.dev]; exact hg.results
  kmallocs := by
    rw [h.rest]
    exact hg.kmallocs

theorem Freed.onDisk (hd : OnDisk s) : OnDisk t where
  superdirty := by
    rw [h.rest]
    exact hd.superdirty
  super := by rw [h.super,h.dev]; exact hd.super
  magic := by rw [h.super]; exact hd.magic
  map hc := by
    obtain ⟨hclean,hmap⟩ := h.clean hc
    rw [h.super,h.dev,hmap]
    exact hd.map hclean

theorem Freed.consistent (hc : Consistent s L) (hin : ∀ c, gone c → c < s.super.nblocks) :
    Consistent t L where
  geo := h.geometry hc.geo hin
  disk := h.onDisk hc.disk
  nodup := by rw [h.vnodes]; exact hc.nodup
  vnodes v hv := by
    rw [h.vnodes] at hv
    have hok := hc.vnodes v hv
    exact ⟨hok.live,hok.refs,hok.closed,hok.ops,hok.links,by rw [h.dev]; exact hok.clean⟩
  root := hc.root
  inodes i hL := by rw [h.inodeAt]; exact hc.inodes i hL

theorem Freed.bfree (hg : Geometry s) (hin : ∀ c, gone c → c < s.super.nblocks) (hb : s.held b)
    (hn : ¬ gone b) :
    sfsBfree b t = .ok () (t.unmark b) :=
  (h.geometry hg hin).bfree ((h.held b).mpr ⟨hb,hn⟩)

theorem Freed.setSector (b : Nat) (blk : Block) :
    Freed gone (s.setSector b blk) (t.setSector b blk) where
  rest := by
    rw [h.rest]
    rfl
  nbits := h.nbits
  isset := h.isset
  clean := h.clean

end

end Freed

section Cut

variable {s t u : Fs} {L : Nat → Prop} {ino : Nat} {keep keep' : Nat → Bool} {idgone : Bool}

/-- What is left of a file when some of its blocks have become holes. -/
def File.cut (f : File) (keep : Nat → Bool) : File :=
  { f with byte := fun p => if keep (p / 512) = true then f.byte p else 0 }

structure Cut (L : Nat → Prop) (ino : Nat) (keep : Nat → Bool) (s t : Fs) : Prop where
  own : Own t L none
  becomes : Becomes L ino ((s.fileAt ino).cut keep) s t
  maps : ∀ k, t.blockAt ino k = if keep k = true then s.blockAt ino k else 0

theorem cut_congr (h : ∀ k, s.blockAt ino k ≠ 0 → keep k = keep' k) :
    (s.fileAt ino).cut keep = (s.fileAt ino).cut keep' := by
  simp only [File.cut,File.mk.injEq,true_and,and_true]
  funext p
  by_cases hz : s.blockAt ino (p / 512) = 0
  · have hb : (s.fileAt ino).byte p = 0 := by simp [Fs.fileAt,Fs.byteAt,hz]
    rw [hb,ite_self,ite_self]
  · rw [h _ hz]

theorem Cut.congr (hc : Cut L ino keep s t) (h : ∀ k, s.blockAt ino k ≠ 0 → keep k = keep' k) :
    Cut L ino keep' s t where
  own := hc.own
  becomes := cut_congr h ▸ hc.becomes
  maps k := by
    rw [hc.maps k]
    by_cases hz : s.blockAt ino k = 0
    · rw [hz,ite_self,ite_self]
    · rw [h k hz]

theorem Cut.refl (h : Own s L none) (hk : ∀ k, s.blockAt ino k ≠ 0 → keep k = true) :
    Cut L ino keep s s := by
  have hall : Cut L ino (fun _ => true) s s := by
    refine ⟨h,?_,fun k => by simp⟩
    have hcut : (s.fileAt ino).cut (fun _ => true) = s.fileAt ino := by simp [File.cut]
    rw [hcut]
    exact Becomes.refl L ino s
  exact hall.congr fun k hz => (hk k hz).symm

theorem Cut.trans (h : Cut L ino keep s t) (h' : Cut L ino keep' t u) :
    Cut L ino (fun k => keep k && keep' k) s u where
  own := h'.own
  becomes := by
    have hb := h'.becomes
    rw [h.becomes.self] at hb
    have hcut : ((s.fileAt ino).cut keep).cut keep' =
        (s.fileAt ino).cut fun k => keep k && keep' k := by
      simp only [File.cut,File.mk.injEq,true_and,and_true]
      funext p
      by_cases h1 : keep (p / 512) = true <;> simp [h1]
    exact h.becomes.trans (hcut ▸ hb)
  maps k := by
    rw [h'.maps,h.maps]
    by_cases h1 : keep k = true <;> simp [h1]

def losers (ino : Nat) (keep : Nat → Bool) (idgone : Bool) : Owner → Prop
  | .slot i k => i = ino ∧ keep k = false
  | .indirect i => i = ino ∧ idgone = true
  | _ => False

theorem cleared_iff {p : Prop} [Decidable p] {b x : Nat} :
    (b ≠ 0 ∧ (if p then 0 else x) = b) ↔ b ≠ 0 ∧ x = b ∧ ¬ p := by
  split
  · next hp => exact ⟨fun hb => (hb.1 hb.2.symm).elim,fun hb => (hb.2.2 hp).elim⟩
  · next hp => exact ⟨fun hb => ⟨hb.1,hb.2,hp⟩,fun hb => ⟨hb.1,hb.2.1⟩⟩

theorem owns_cut (hsup : t.super = s.super)
    (hind : ∀ i, L i → (t.inodeAt i).indirect =
      if i = ino ∧ idgone = true then 0 else (s.inodeAt i).indirect)
    (hblk : ∀ i, L i → ∀ k, t.blockAt i k =
      if i = ino ∧ keep k = false then 0 else s.blockAt i k) (o : Owner) (b : Nat) :
    owns t L none o b ↔ owns s L none o b ∧ ¬ losers ino keep idgone o := by
  cases o with
  | super | inode => simp [owns,losers]
  | map j => simp [owns,losers,hsup]
  | pending => simp [owns]
  | indirect i =>
    simp only [owns,losers,and_assoc]
    refine and_congr_right fun hL => ?_
    rw [hind i hL]
    exact cleared_iff
  | slot i k =>
    simp only [owns,losers,and_assoc]
    refine and_congr_right fun hL => ?_
    rw [hblk i hL]
    exact cleared_iff

/-- The same, with what becomes of the indirect block. -/
structure Shed (L : Nat → Prop) (ino : Nat) (keep : Nat → Bool) (idgone : Bool) (s t : Fs) : Prop
    extends Cut L ino keep s t where
  indirect : (t.inodeAt ino).indirect = if idgone = true then 0 else (s.inodeAt ino).indirect
  others : ∀ i, L i → i ≠ ino → (t.inodeAt i).indirect = (s.inodeAt i).indirect ∧
    ∀ k, t.blockAt i k = s.blockAt i k

theorem Shed.congr (hs : Shed L ino keep idgone s t)
    (h : ∀ k, s.blockAt ino k ≠ 0 → keep k = keep' k) : Shed L ino keep' idgone s t :=
  ⟨hs.toCut.congr h,hs.indirect,hs.others⟩

theorem Shed.refl (h : Own s L none) (hk : ∀ k, s.blockAt ino k ≠ 0 → keep k = true) :
    Shed L ino keep false s s :=
  ⟨Cut.refl h hk,rfl,fun _ _ _ => ⟨rfl,fun _ => rfl⟩⟩

theorem Shed.trans {idgone' : Bool} (h : Shed L ino keep idgone s t)
    (h' : Shed L ino keep' idgone' t u) :
    Shed L ino (fun k => keep k && keep' k) (idgone || idgone') s u where
  toCut := h.toCut.trans h'.toCut
  indirect := by
    rw [h'.indirect,h.indirect]
    cases idgone <;> cases idgone' <;> rfl
  others i hL hne := by
    obtain ⟨hind,hblk⟩ := h.others i hL hne
    obtain ⟨hind',hblk'⟩ := h'.others i hL hne
    exact ⟨hind'.trans hind,fun k => (hblk' k).trans (hblk k)⟩

theorem Shed.held (hs : Own s L none) (h : Shed L ino keep idgone s t) (c : Nat) :
    t.held c ↔ s.held c ∧ ∀ o, losers ino keep idgone o → ¬ owns s L none o c := by
  have howns : ∀ o, owns t L none o c ↔ owns s L none o c ∧ ¬ losers ino keep idgone o := by
    refine fun o => owns_cut h.becomes.super (fun i hL => ?_) (fun i hL k => ?_) o c
    · by_cases hi : i = ino
      · rw [hi,h.indirect]
        simp only [true_and]
      · rw [(h.others i hL hi).1,if_neg fun hg => hi hg.1]
    · by_cases hi : i = ino
      · rw [hi,h.maps]
        cases keep k <;> simp
      · rw [(h.others i hL hi).2,if_neg fun hg => hi hg.1]
  constructor
  · intro hc
    obtain ⟨o,ho⟩ := h.own.exact.owner c hc
    obtain ⟨hold,hno⟩ := (howns o).mp ho
    refine ⟨hs.exact.sound o c hold,fun o' hl ho' => hno ?_⟩
    rwa [hs.exact.unique o o' c hold ho']
  · rintro ⟨hc,hno⟩
    obtain ⟨o,ho⟩ := hs.exact.owner c hc
    exact h.own.exact.sound o c ((howns o).mpr ⟨ho,fun hl => hno o hl ho⟩)

theorem Own.cut (h : Own s L none) (idgone : Bool) (hc : Consistent t L) (hL : L ino)
    (hsup : t.super = s.super)
    (hkeys : t.vnodes.map SfsVnode.key = s.vnodes.map SfsVnode.key)
    (hsame : (t.inodeAt ino).size = (s.inodeAt ino).size ∧
      (t.inodeAt ino).linkcount = (s.inodeAt ino).linkcount ∧
      (t.inodeAt ino).type = (s.inodeAt ino).type)
    (hothers : ∀ i, L i → i ≠ ino → t.inodeAt i = s.inodeAt i)
    (hind : ∀ i, L i → (t.inodeAt i).indirect =
      if i = ino ∧ idgone = true then 0 else (s.inodeAt i).indirect)
    (hblk : ∀ i, L i → ∀ k, t.blockAt i k =
      if i = ino ∧ keep k = false then 0 else s.blockAt i k)
    (hsec : ∀ i, L i → ∀ k, s.blockAt i k ≠ 0 →
      t.dev.sector (s.blockAt i k) = s.dev.sector (s.blockAt i k))
    (hheld : ∀ c, t.held c ↔ s.held c ∧ ∀ o, losers ino keep idgone o → ¬ owns s L none o c) :
    Shed L ino keep idgone s t where
  own := ⟨hc,h.exact.drop (owns_cut hsup hind hblk) hheld⟩
  indirect := by
    rw [hind ino hL]
    simp only [true_and]
  others i hLi hne :=
    ⟨by rw [hothers i hLi hne],fun k => by rw [hblk i hLi,if_neg fun hg => hne hg.1]⟩
  becomes := by
    have hbyte : ∀ i, L i → ∀ p, t.byteAt i p =
        if i = ino ∧ keep (p / 512) = false then 0 else s.byteAt i p := by
      intro i hLi p
      simp only [Fs.byteAt,hblk i hLi]
      by_cases hg : i = ino ∧ keep (p / 512) = false
      · simp [hg]
      · rw [if_neg hg,if_neg hg]
        by_cases hz : s.blockAt i (p / 512) = 0
        · rw [if_pos hz,if_pos hz]
        · rw [if_neg hz,if_neg hz,hsec i hLi _ hz]
    refine ⟨hsup,hkeys,?_,fun i hLi hne => fileAt_congr (hothers i hLi hne) fun p => ?_⟩
    · simp only [Fs.fileAt,File.cut,File.mk.injEq]
      refine ⟨hsame.1,?_,hsame.2.1,hsame.2.2⟩
      funext p
      rw [hbyte ino hL]
      cases keep (p / 512) <;> simp
    · rw [hbyte i hLi,if_neg fun hg => hne hg.1]
  maps k := by
    rw [hblk ino hL]
    cases keep k <;> simp

end Cut

section Direct

variable {s t : Fs} {L : Nat → Prop} {ino blocklen : Nat} {v : SfsVnode}

theorem Own.cutDirect (h : Own s L none) (hv : s.vnode ino = some v) {k : Fin 15}
    (hk : v.i.direct k ≠ 0) :
    Shed L ino (fun j => j != k) false s ((s.unmark (v.i.direct k)).put ino fun n =>
      { n with direct := update n.direct k 0 }) := by
  have hL := h.live hv
  have hvt : (s.unmark (v.i.direct k)).vnode ino = some v := hv
  have hblk : s.blockAt ino k = v.i.direct k := by simp [Fs.blockAt,inodeAt_loaded hv]
  have hslot : owns s L none (.slot ino k) (v.i.direct k) := ⟨hL,hk,hblk⟩
  have hlt := h.lt hslot
  have hfreed := (Freed.refl s).unmark (v.i.direct k)
  have hin : ∀ c, (False ∨ c = v.i.direct k) → c < s.super.nblocks := by
    rintro c (hf | rfl)
    · exact hf.elim
    · exact hlt
  have hok := h.loadedOk hv
  refine h.cut false ((hfreed.consistent h.toConsistent hin).put hvt
    ⟨hok.type,hok.size⟩ (h.vnodeOk hv).links) hL rfl (put_keys _ _ _) ?_ ?_ ?_ ?_
    (fun _ _ _ _ => rfl) fun c => ?_
  · simp only [inodeAt_put_self hvt,inodeAt_loaded hv,and_self]
  · intro i _ hne
    rw [inodeAt_put_of_ne hvt _ hne,unmark_inodeAt]
  · intro i _
    by_cases hi : i = ino
    · subst hi
      simp only [inodeAt_put_self hvt,inodeAt_loaded hv,Bool.false_eq_true,and_false,if_false]
    · rw [inodeAt_put_of_ne hvt _ hi,unmark_inodeAt,if_neg fun hc => hi hc.1]
  · intro i _ k'
    by_cases hi : i = ino
    · subst hi
      simp only [Fs.blockAt,inodeAt_put_self hvt,inodeAt_loaded hv,put_dev,true_and]
      by_cases hlt' : k' < 15
      · rw [dif_pos hlt',dif_pos hlt']
        by_cases he : k' = k
        · subst he
          simp
        · rw [if_neg (by simp [he]),update_of_ne fun hf => he (Fin.val_eq_of_eq hf)]
      · have hne : k' ≠ k := by omega
        rw [dif_neg hlt',dif_neg hlt',if_neg (show ¬ (k' != k) = false by simpa using hne)]
        rfl
    · rw [blockAt_put_of_ne hvt _ hi,unmark_blockAt,if_neg fun hc => hi hc.1]
  · rw [put_held,held_unmark]
    refine and_congr_right fun _ => ⟨fun hne o hl ho => ?_,fun hno hc => ?_⟩
    · cases o with
      | slot i k' =>
        obtain ⟨rfl,hk'⟩ := hl
        simp only [bne_eq_false_iff_eq] at hk'
        subst hk'
        exact hne (ho.2.2.symm.trans hblk)
      | indirect i => cases hl.2
      | _ => exact hl
    · subst hc
      exact hno (.slot ino k) ⟨rfl,by simp⟩ hslot

theorem truncateDirect_spec (h : Own s L none) (hv : s.vnode ino = some v) {i : Nat} (hi : i < 15) :
    (truncateDirect ino blocklen i s).Safe
      (fun _ t => Shed L ino (fun k => !(decide (blocklen ≤ k) && k == i)) false s t)
      fun _ _ => False := by
  have hblk : s.blockAt ino i = v.i.direct ⟨i,hi⟩ := by simp [Fs.blockAt,inodeAt_loaded hv,hi]
  rw [truncateDirect,dif_pos hi,bind_ok (getVnode_eq hv)]
  by_cases hc : i ≥ blocklen ∧ v.i.direct ⟨i,hi⟩ ≠ 0
  · have hslot : owns s L none (.slot ino i) (v.i.direct ⟨i,hi⟩) := ⟨h.live hv,hc.2,hblk⟩
    rw [if_pos hc,bind_ok (h.geo.bfree (h.exact.sound _ _ hslot)),putInode_eq]
    refine (h.cutDirect hv hc.2).congr fun k _ => ?_
    by_cases hk : k = i
    · subst hk
      simp [hc.1]
    · have hki : (k == i) = false := by simpa using hk
      simp [bne,hki]
  · rw [if_neg hc,pure_apply]
    refine Shed.refl h fun k hk => ?_
    simp only [Bool.not_eq_true',Bool.and_eq_false_iff,decide_eq_false_iff_not,beq_eq_false_iff_ne]
    by_contra hno
    have hki : k = i := by
      by_contra hne
      exact hno (.inr hne)
    subst hki
    exact hc ⟨by omega,hblk ▸ hk⟩

theorem Cut.vnode {keep : Nat → Bool} (h : Cut L ino keep s t) (hv : s.vnode ino = some v) :
    ∃ w, t.vnode ino = some w := by
  refine exists_vnode ?_
  rw [h.becomes.loaded ino]
  simp [hv]

theorem truncateDirects (h : Own s L none) (hv : s.vnode ino = some v) :
    (loop (fun i _ => truncateDirect ino blocklen i) 0 sfsNdirect () s).Safe
      (fun _ t => Shed L ino (fun k => !(decide (blocklen ≤ k) && decide (k < 15))) false s t)
      fun _ _ => False := by
  refine Outcome.Safe.loop (f := fun i _ => truncateDirect ino blocklen i) (i := 0) (b := ())
    (I := fun j _ t => Shed L ino (fun k => !(decide (blocklen ≤ k) && decide (k < j))) false s t)
    15 (Shed.refl h fun k _ => by simp) fun j _ t _ hj ht => ?_
  obtain ⟨w,hw⟩ := ht.vnode hv
  refine (truncateDirect_spec ht.own hw (by omega)).mono (fun _ u hu => ?_) fun _ _ he => he
  refine (ht.trans hu).congr fun k _ => ?_
  rw [Bool.eq_iff_iff]
  simp only [Bool.and_eq_true,Bool.not_eq_true',Bool.and_eq_false_iff,decide_eq_false_iff_not,
    beq_eq_false_iff_ne]
  omega

end Direct

section Indirect

variable {s t : Fs} {L : Nat → Prop} {ino blocklen c : Nat} {e : Idbuf} {v : SfsVnode}

structure Discarded (s : Fs) (e : Idbuf) (blocklen j : Nat) (l : TruncateLoop) (t : Fs) : Prop where
  freed : Freed (fun b => ∃ k, k < j ∧ blocklen < 15 + k ∧ e k ≠ 0 ∧ b = e k) s t
  idbuf : ∀ k, l.idbuf k = if k < j ∧ blocklen < 15 + k then 0 else e k
  hasnonzero : l.hasnonzero = false ↔ ∀ k, k < j → l.idbuf k = 0
  iddirty : l.iddirty = false → ∀ k, k < j → blocklen < 15 + k → e k = 0

/-- The entries are the blocks of the file, so no two are the same. -/
structure Entries (s : Fs) (L : Nat → Prop) (ino : Nat) (e : Idbuf) : Prop where
  live : L ino
  maps : ∀ k, k < 128 → e k = s.blockAt ino (15 + k)

variable {k j : Nat} {l : TruncateLoop}

theorem Entries.held (he : Entries s L ino e) (h : Own s L none) (hk : k < 128)
    (hz : e k ≠ 0) : s.held (e k) :=
  h.exact.sound (.slot ino (15 + k)) _ ⟨he.live,hz,(he.maps k hk).symm⟩

theorem Entries.inj (he : Entries s L ino e) (h : Own s L none) (hj : j < 128)
    (hk : k < 128) (hz : e k ≠ 0) (heq : e j = e k) : j = k := by
  have hu := h.exact.unique (.slot ino (15 + j)) (.slot ino (15 + k)) (e k)
    ⟨he.live,hz,by rw [← he.maps j hj,heq]⟩ ⟨he.live,hz,(he.maps k hk).symm⟩
  have := (Owner.slot.inj hu).2
  omega

theorem Discarded.lt (_hd : Discarded s e blocklen j l t)
    (he : Entries s L ino e) (h : Own s L none) (hj : j ≤ 128) {b : Nat}
    (hb : ∃ k, k < j ∧ blocklen < 15 + k ∧ e k ≠ 0 ∧ b = e k) : b < s.super.nblocks := by
  obtain ⟨k,hk,_,hz,rfl⟩ := hb
  exact (he.held h (by omega) hz).1

theorem truncateDiscard_spec (h : Own s L none) (he : Entries s L ino e) (hj : j < 128)
    (hd : Discarded s e blocklen j l t) :
    (truncateDiscard blocklen j l t).Safe (fun m u =>
      Freed (fun b => ∃ k, k < j + 1 ∧ blocklen < 15 + k ∧ e k ≠ 0 ∧ b = e k) s u ∧
      (∀ k, m.idbuf k = if k < j + 1 ∧ blocklen < 15 + k then 0 else e k) ∧
      m.hasnonzero = l.hasnonzero ∧
      (m.iddirty = false → ∀ k, k < j + 1 → blocklen < 15 + k → e k = 0)) fun _ _ => False := by
  have hlj : l.idbuf j = e j := by rw [hd.idbuf,if_neg (by omega)]
  by_cases hc : blocklen < sfsNdirect + j ∧ l.idbuf j ≠ 0
  · have hcut : blocklen < 15 + j := hc.1
    have hz : e j ≠ 0 := hlj ▸ hc.2
    have hfree := hd.freed.bfree h.geo (fun _ hb => hd.lt he h (by omega) hb) (he.held h hj hz)
      fun hb => ?_
    · rw [truncateDiscard,if_pos hc,hlj,bind_ok hfree,pure_apply]
      refine ⟨(hd.freed.unmark (e j)).congr fun b => ?_,fun k => ?_,rfl,fun hf => by cases hf⟩
      · constructor
        · rintro ⟨k,hk,hbl,hk0,rfl⟩
          by_cases hkj : k = j
          · exact .inr (by rw [hkj])
          · exact .inl ⟨k,by omega,hbl,hk0,rfl⟩
        · rintro (⟨k,hk,hbl,hk0,rfl⟩ | rfl)
          · exact ⟨k,by omega,hbl,hk0,rfl⟩
          · exact ⟨j,by omega,hcut,hz,rfl⟩
      · by_cases hkj : k = j
        · subst hkj
          simp [hcut]
        · simp only [update_of_ne hkj,hd.idbuf]
          exact if_congr (by omega) rfl rfl
    · obtain ⟨k,hk,_,_,heq⟩ := hb
      have := he.inj h (by omega) hj hz heq.symm
      omega
  · rw [truncateDiscard,if_neg hc,pure_apply]
    have hzero : blocklen < 15 + j → e j = 0 := by
      intro hbl
      by_contra hne
      exact hc ⟨hbl,hlj ▸ hne⟩
    refine ⟨hd.freed.congr fun b => ?_,fun k => ?_,rfl,fun hf k hk hbl => ?_⟩
    · constructor
      · rintro ⟨k,hk,hbl,hk0,rfl⟩
        refine ⟨k,?_,hbl,hk0,rfl⟩
        by_contra hge
        obtain rfl : k = j := by omega
        exact hk0 (hzero hbl)
      · rintro ⟨k,hk,hbl,hk0,rfl⟩
        exact ⟨k,by omega,hbl,hk0,rfl⟩
    · rw [hd.idbuf]
      by_cases hkj : k = j
      · subst hkj
        rw [if_neg (by omega)]
        split
        · next hh => exact hzero hh.2
        · rfl
      · exact if_congr (by omega) rfl rfl
    · by_cases hkj : k = j
      · subst hkj
        exact hzero hbl
      · exact hd.iddirty hf k (by omega) hbl

theorem truncateEntry_spec (h : Own s L none) (he : Entries s L ino e) (hj : j < 128)
    (hd : Discarded s e blocklen j l t) :
    (truncateEntry blocklen j l t).Safe (Discarded s e blocklen (j + 1)) fun _ _ => False := by
  rw [truncateEntry]
  refine (truncateDiscard_spec h he hj hd).andThen fun m u hm => ?_
  obtain ⟨hfreed,hidbuf,hnz,hdirty⟩ := hm
  rw [pure_apply]
  refine ⟨hfreed,hidbuf,?_,hdirty⟩
  have hsame : ∀ k, k < j → m.idbuf k = l.idbuf k := by
    intro k hk
    rw [hidbuf,hd.idbuf]
    exact if_congr (by omega) rfl rfl
  simp only [Bool.or_eq_false_iff,hnz,hd.hasnonzero,bne_eq_false_iff_eq]
  constructor
  · rintro ⟨hlow,hj0⟩ k hk
    by_cases hkj : k = j
    · rw [hkj]
      exact hj0
    · rw [hsame k (by omega)]
      exact hlow k (by omega)
  · intro hall
    exact ⟨fun k hk => by rw [← hsame k hk]; exact hall k (by omega),hall j (by omega)⟩

def indirectKeeps (blocklen k : Nat) : Bool := !(decide (15 ≤ k) && decide (blocklen < k))

theorem indirectKeeps_false : indirectKeeps blocklen k = false ↔ 15 ≤ k ∧ blocklen < k := by
  simp [indirectKeeps]

theorem blockAt_beyond (s : Fs) (ino : Nat) (hk : 143 ≤ k) : s.blockAt ino k = 0 := by
  rw [Fs.blockAt,dif_neg (by omega),if_neg (by omega)]

theorem Entries.losers (he : Entries s L ino e) (b : Nat) :
    (∀ o, losers ino (indirectKeeps blocklen) false o → ¬ owns s L none o b) ↔
      ¬ ∃ k, k < 128 ∧ blocklen < 15 + k ∧ e k ≠ 0 ∧ b = e k := by
  constructor
  · rintro hno ⟨k,hk,hbl,hz,rfl⟩
    exact hno (.slot ino (15 + k)) ⟨rfl,indirectKeeps_false.mpr ⟨by omega,hbl⟩⟩
      ⟨he.live,hz,(he.maps k hk).symm⟩
  · intro hno o hl ho
    cases o with
    | slot i k =>
      obtain ⟨rfl,hk⟩ := hl
      obtain ⟨hge,hbl⟩ := indirectKeeps_false.mp hk
      obtain ⟨_,hz,rfl⟩ := ho
      have hlt : k < 143 := by
        by_contra hk'
        exact hz (blockAt_beyond s i (by omega))
      have hek := he.maps (k - 15) (by omega)
      rw [show 15 + (k - 15) = k by omega] at hek
      exact hno ⟨k - 15,by omega,by omega,hek ▸ hz,hek.symm⟩
    | indirect i => cases hl.2
    | _ => exact hl

theorem Own.cutEntries (h : Own s L none) (he : Entries s L ino e)
    (ho : owns s L none (.indirect ino) c) (hd : Discarded s e blocklen 128 l t) {u : Fs}
    (hu : u = t ∧ l.iddirty = false ∨ u = t.setSector c (clip (encodeIdbuf l.idbuf))) :
    Shed L ino (indirectKeeps blocklen) false s u := by
  have hin : ∀ b, (∃ k, k < 128 ∧ blocklen < 15 + k ∧ e k ≠ 0 ∧ b = e k) → b < s.super.nblocks :=
    fun b hb => hd.lt he h (Nat.le_refl _) hb
  have hcons := hd.freed.consistent h.toConsistent hin
  obtain ⟨hc,hother⟩ := h.idblock ho
  have hheld : ∀ b, t.held b ↔ s.held b ∧
      ∀ o, losers ino (indirectKeeps blocklen) false o → ¬ owns s L none o b := fun b => by
    rw [hd.freed.held b,he.losers b]
  rcases hu with ⟨rfl,hclean⟩ | rfl
  · refine h.cut false hcons he.live hd.freed.super (by rw [hd.freed.vnodes]) ?_ ?_ ?_ ?_ ?_ hheld
    · simp only [hd.freed.inodeAt,and_self]
    · intro i _ _
      rw [hd.freed.inodeAt]
    · intro i _
      rw [hd.freed.inodeAt,if_neg (by simp)]
    · intro i _ k
      rw [hd.freed.blockAt]
      by_cases hg : i = ino ∧ indirectKeeps blocklen k = false
      · obtain ⟨rfl,hk⟩ := hg
        obtain ⟨hge,hbl⟩ := indirectKeeps_false.mp hk
        rw [if_pos ⟨rfl,hk⟩]
        by_cases hlt : k < 143
        · have hek := he.maps (k - 15) (by omega)
          rw [show 15 + (k - 15) = k by omega] at hek
          rw [← hek]
          exact hd.iddirty hclean (k - 15) (by omega) (by omega)
        · exact blockAt_beyond s i (by omega)
      · rw [if_neg hg]
    · intro i _ k _
      rw [hd.freed.dev]
  · have hfreed := hd.freed.setSector c (clip (encodeIdbuf l.idbuf))
    have hfit : ∀ j, j < 128 → l.idbuf j < 2^32 := by
      intro j hj
      rw [hd.idbuf]
      split
      · omega
      · by_cases hz : e j = 0
        · omega
        · have hlt := (he.held h hj hz).1
          have hhigh := h.geo.high
          omega
    have hinode : ∀ i, L i → (t.setSector c (clip (encodeIdbuf l.idbuf))).inodeAt i =
        s.inodeAt i := fun i hL => by
      rw [hfreed.inodeAt]
      exact inodeAt_setSector _ fun hx => hc (hx ▸ hL)
    have hfix : ¬ t.fixed c := by
      rw [Fs.fixed,hd.freed.super]
      exact h.not_fixed ho nofun nofun
    refine h.cut false (hcons.store hfix hc _) he.live hfreed.super
      (by rw [hfreed.vnodes]; rfl) ?_ ?_ ?_ ?_ ?_ hheld
    · simp only [hinode ino he.live,and_self]
    · exact fun i hL _ => hinode i hL
    · intro i hL
      rw [hinode i hL,if_neg (by simp)]
    · intro i hL k
      rw [hfreed.blockAt,blockAt_idblock h ho hfit hL]
      by_cases hi : i = ino ∧ 15 ≤ k ∧ k < 143
      · obtain ⟨rfl,hge,hlt⟩ := hi
        have hek := he.maps (k - 15) (by omega)
        rw [show 15 + (k - 15) = k by omega] at hek
        rw [if_pos ⟨rfl,hge,hlt⟩,hd.idbuf,hek]
        refine if_congr ?_ rfl rfl
        rw [indirectKeeps_false]
        omega
      · rw [if_neg hi]
        by_cases hg : i = ino ∧ indirectKeeps blocklen k = false
        · obtain ⟨rfl,hk⟩ := hg
          obtain ⟨hge,_⟩ := indirectKeeps_false.mp hk
          rw [if_pos ⟨rfl,hk⟩]
          exact blockAt_beyond s i (by omega)
        · rw [if_neg hg]
    · intro i hL k hz
      rw [hfreed.dev,setSector_sector,update_of_ne (h.slot_ne_idblock ho hL hz)]

theorem Own.cutIdblock (h : Own s L none) (hv : s.vnode ino = some v) (he : Entries s L ino e)
    (ho : owns s L none (.indirect ino) v.i.indirect)
    (hd : Discarded s e blocklen 128 l t) (hnone : ∀ k, k < 128 → l.idbuf k = 0) :
    Shed L ino (indirectKeeps blocklen) true s
      ((t.unmark v.i.indirect).put ino fun n => { n with indirect := 0 }) := by
  have hfreed := hd.freed.unmark v.i.indirect
  have hvt : (t.unmark v.i.indirect).vnode ino = some v := by
    rw [hfreed.vnode]
    exact hv
  have hin : ∀ b, ((∃ k, k < 128 ∧ blocklen < 15 + k ∧ e k ≠ 0 ∧ b = e k) ∨ b = v.i.indirect) →
      b < s.super.nblocks := by
    rintro b (hb | rfl)
    · exact hd.lt he h (Nat.le_refl _) hb
    · exact h.lt ho
  have hok := h.loadedOk hv
  refine h.cut true ((hfreed.consistent h.toConsistent hin).put hvt
    ⟨hok.type,hok.size⟩ (h.vnodeOk hv).links) he.live hfreed.super ?_ ?_ ?_ ?_ ?_ ?_ fun b => ?_
  · rw [put_keys,hfreed.vnodes]
  · simp only [inodeAt_put_self hvt,inodeAt_loaded hv,and_self]
  · intro i _ hne
    rw [inodeAt_put_of_ne hvt _ hne,hfreed.inodeAt]
  · intro i _
    by_cases hi : i = ino
    · subst hi
      simp only [inodeAt_put_self hvt,and_self,if_true]
    · rw [inodeAt_put_of_ne hvt _ hi,hfreed.inodeAt,if_neg fun hx => hi hx.1]
  · intro i _ k
    by_cases hi : i = ino
    · subst hi
      by_cases hk : k < 15
      · have hkeep : ¬ (i = i ∧ indirectKeeps blocklen k = false) := by
          rw [indirectKeeps_false]
          omega
        rw [if_neg hkeep]
        simp only [Fs.blockAt,inodeAt_put_self hvt,inodeAt_loaded hv]
        rw [dif_pos hk,dif_pos hk]
      · have hgone : Fs.blockAt _ i k = 0 :=
          show ((t.unmark v.i.indirect).put i fun n => { n with indirect := 0 }).blockAt i k = 0 by
          simp [Fs.blockAt,inodeAt_put_self hvt,hk]
        rw [hgone]
        by_cases hg : i = i ∧ indirectKeeps blocklen k = false
        · rw [if_pos hg]
        · rw [if_neg hg]
          by_cases hlt : k < 143
          · have hek := he.maps (k - 15) (by omega)
            rw [show 15 + (k - 15) = k by omega] at hek
            have hl := hnone (k - 15) (by omega)
            rw [indirectKeeps_false] at hg
            rw [hd.idbuf,if_neg (by omega)] at hl
            rw [← hek,hl]
          · exact (blockAt_beyond s i (by omega)).symm
    · rw [blockAt_put_of_ne hvt _ hi,hfreed.blockAt,if_neg fun hx => hi hx.1]
  · intro i _ k _
    rw [put_dev,hfreed.dev]
  · rw [put_held,hfreed.held b]
    refine and_congr_right fun _ => ?_
    rw [not_or,← he.losers b]
    constructor
    · rintro ⟨hno,hne⟩ o hl hown
      cases o with
      | slot i k => exact hno (.slot i k) hl hown
      | indirect i =>
        obtain ⟨rfl,_⟩ := hl
        exact hne (hown.2.2.symm.trans (by rw [inodeAt_loaded hv]))
      | _ => exact hl
    · intro hno
      refine ⟨fun o hl => hno o ?_,?_⟩
      · cases o with
        | slot i k => exact hl
        | indirect i => cases hl.2
        | _ => exact hl
      · rintro rfl
        exact hno (.indirect ino) ⟨rfl,rfl⟩ ho

/-- The part of sfs_truncate that is about the indirect block. Past the highest block but one it is
not looked at. -/
theorem truncateIndirect_spec (h : Own s L none) (hv : s.vnode ino = some v) :
    (truncateIndirect ino blocklen s).Safe
      (fun _ t => ∃ idgone, Shed L ino (indirectKeeps blocklen) idgone s t ∧
        (142 ≤ blocklen → idgone = false) ∧
          ((t.inodeAt ino).indirect ≠ 0 → 142 ≤ blocklen ∨ ∃ k, 15 ≤ k ∧ t.blockAt ino k ≠ 0))
      fun _ _ => False := by
  rw [truncateIndirect,bind_ok (getVnode_eq hv)]
  by_cases hc : blocklen < sfsNdirect + sfsDbperidb - 1 ∧ v.i.indirect ≠ 0
  · have ho : owns s L none (.indirect ino) v.i.indirect :=
      ⟨h.live hv,hc.2,by rw [inodeAt_loaded hv]⟩
    have he : Entries s L ino (decodeIdbuf (clip (s.dev.sector v.i.indirect))) := by
      refine ⟨h.live hv,fun k hk => ?_⟩
      rw [Nat.add_comm,blockAt_indirect hv hk,if_neg hc.2,decodeIdbuf_clip hk]
    rw [if_pos hc,bind_ok (h.geo.rblock (h.lt ho))]
    have hloop := Outcome.Safe.loop (f := truncateEntry blocklen) (i := 0) (s := s)
      (b := ⟨decodeIdbuf (clip (s.dev.sector v.i.indirect)),false,false⟩)
      (I := Discarded s (decodeIdbuf (clip (s.dev.sector v.i.indirect))) blocklen)
      (E := fun _ _ => False) 128
      ⟨(Freed.refl s).congr (by simp),by simp,by simp,by simp⟩
      fun j l t _ hj hd => truncateEntry_spec h he (by omega) hd
    refine hloop.andThen fun l t hd => ?_
    by_cases hnz : l.hasnonzero = false
    · have hnone := hd.hasnonzero.mp hnz
      have hfree := hd.freed.bfree h.geo (fun _ hb => hd.lt he h (Nat.le_refl _) hb)
        (h.exact.sound _ _ ho) fun ⟨k,hk,_,hz,heq⟩ => ?_
      · rw [truncateIdblock,if_pos hnz,bind_ok hfree,putInode_eq]
        have hvt : (t.unmark v.i.indirect).vnode ino = some v := by
          rw [(hd.freed.unmark _).vnode]
          exact hv
        refine ⟨true,h.cutIdblock hv he ho hd hnone,fun hhigh => absurd hc.1 (by
          show ¬ _ < 15 + 128 - 1
          omega),fun hne => (hne ?_).elim⟩
        rw [inodeAt_put_self hvt]
      · have hslot := he.maps k hk
        refine h.slot_ne_idblock ho he.live (k := 15 + k) ?_ ?_
        · rw [← hslot]
          exact hz
        · rw [← hslot,← heq]
    · rw [truncateIdblock,if_neg hnz]
      have hsome : ∃ k, k < 128 ∧ l.idbuf k ≠ 0 := by
        by_contra hno
        refine hnz (hd.hasnonzero.mpr fun k hk => ?_)
        by_contra hne
        exact hno ⟨k,hk,hne⟩
      have hleft : ∀ u, Cut L ino (indirectKeeps blocklen) s u →
          ∃ k, 15 ≤ k ∧ u.blockAt ino k ≠ 0 := by
        intro u hu
        obtain ⟨k,hk,hne⟩ := hsome
        refine ⟨15 + k,by omega,?_⟩
        rw [hd.idbuf] at hne
        have hkeep : ¬ (k < 128 ∧ blocklen < 15 + k) := fun hx => hne (if_pos hx)
        rw [if_neg hkeep,he.maps k hk] at hne
        rw [hu.maps,if_pos]
        · exact hne
        · rw [← Bool.not_eq_false,indirectKeeps_false]
          omega
      by_cases hdirty : l.iddirty = true
      · have hgeo := hd.freed.geometry h.geo fun _ hb => hd.lt he h (Nat.le_refl _) hb
        have hlt : v.i.indirect < t.super.nblocks := by
          rw [hd.freed.super]
          exact h.lt ho
        rw [if_pos hdirty,hgeo.wblock hlt]
        have hcut := h.cutEntries he ho hd (.inr rfl)
        exact ⟨false,hcut,fun _ => rfl,fun _ => .inr (hleft _ hcut.toCut)⟩
      · rw [if_neg hdirty,pure_apply]
        have hcut := h.cutEntries he ho hd (.inl ⟨rfl,Bool.eq_false_iff.mpr hdirty⟩)
        exact ⟨false,hcut,fun _ => rfl,fun _ => .inr (hleft _ hcut.toCut)⟩
  · rw [if_neg hc,pure_apply]
    have hskip : v.i.indirect = 0 ∨ 142 ≤ blocklen := by
      by_contra hno
      rw [not_or] at hno
      exact hc ⟨show blocklen < 15 + 128 - 1 by omega,hno.1⟩
    refine ⟨false,Shed.refl h fun k hk => ?_,fun _ => rfl,fun hne => .inl (hskip.resolve_left ?_)⟩
    · rw [← Bool.not_eq_false,indirectKeeps_false]
      rintro ⟨hge,hbl⟩
      have hlt : k < 143 := by
        by_contra hk'
        exact hk (blockAt_beyond s ino (by omega))
      have hmap := blockAt_indirect (k := k - 15) hv (by omega)
      rw [Nat.sub_add_cancel hge,if_pos (hskip.resolve_right (by omega))] at hmap
      exact hk hmap
    · rwa [inodeAt_loaded hv] at hne

end Indirect

section Whole

variable {s t : Fs} {L : Nat → Prop} {ino : Nat} {v : SfsVnode} {len : Int}

/-- The blocks that are left of a file. In the indirect block one more is kept
than the new length asks for. -/
def truncateKeeps (blocklen k : Nat) : Bool :=
  if k < 15 then decide (k < blocklen) else decide (k ≤ blocklen)

theorem sfsTruncate_shed (h : Own s L none) (hv : s.vnode ino = some v) :
    (sfsTruncate ino len s).Safe
      (fun _ t => ∃ u w idgone, t = u.put ino (fun i => { i with size := toU32 len }) ∧
        u.vnode ino = some w ∧ Shed L ino (truncateKeeps (truncateBlocklen len)) idgone s u ∧
        (142 ≤ truncateBlocklen len → idgone = false) ∧ ((u.inodeAt ino).indirect ≠ 0 →
          142 ≤ truncateBlocklen len ∨ ∃ k, 15 ≤ k ∧ u.blockAt ino k ≠ 0))
      fun _ _ => False := by
  rw [sfsTruncate]
  refine (truncateDirects h hv).andThen fun _ t ht => ?_
  obtain ⟨w,hw⟩ := ht.vnode hv
  refine (truncateIndirect_spec ht.own hw).andThen fun _ u hu => ?_
  obtain ⟨idgone,hshed,hhigh,hleft⟩ := hu
  obtain ⟨x,hx⟩ := hshed.vnode hw
  rw [putInode_eq]
  refine ⟨u,x,_,rfl,hx,(ht.trans hshed).congr fun k _ => ?_,hhigh,hleft⟩
  rw [Bool.eq_iff_iff,truncateKeeps,indirectKeeps]
  split <;> simp <;> omega

theorem sfsTruncate_spec (h : Own s L none) (hv : s.vnode ino = some v) (hlen : toU32 len < 2^31) :
    (sfsTruncate ino len s).Safe
      (fun _ t => Own t L none ∧
        Becomes L ino { (s.fileAt ino).cut (truncateKeeps (truncateBlocklen len)) with
          size := toU32 len } s t ∧
        (∀ k, t.blockAt ino k =
          if truncateKeeps (truncateBlocklen len) k = true then s.blockAt ino k else 0) ∧
        ((t.inodeAt ino).indirect ≠ 0 → 142 ≤ truncateBlocklen len ∨ ∃ k, t.blockAt ino k ≠ 0))
      fun _ _ => False := by
  refine (sfsTruncate_shed h hv).mono (fun _ t ht => ?_) fun _ _ hf => hf
  obtain ⟨u,x,idgone,rfl,hx,hshed,-,hleft⟩ := ht
  have hok := hshed.own.loadedOk hx
  refine ⟨hshed.own.putSame hx ⟨hok.type,hlen⟩ (hshed.own.vnodeOk hx).links rfl rfl,?_,
    fun k => ?_,?_⟩
  · refine hshed.becomes.trans ?_
    have hput := putSame_becomes (L := L) hx (g := fun i => { i with size := toU32 len }) rfl rfl
    convert hput using 1
    have hfile : (s.fileAt ino).cut (truncateKeeps (truncateBlocklen len)) =
        ⟨x.i.size,u.byteAt ino,x.i.linkcount,x.i.type⟩ := by
      rw [← hshed.becomes.self,Fs.fileAt,inodeAt_loaded hx]
    rw [hfile]
  · rw [blockAt_put_same hx rfl rfl,hshed.maps]
  · rw [inodeAt_put_self hx]
    intro hne
    refine (hleft (by rwa [inodeAt_loaded hx])).imp_right fun hk => ?_
    obtain ⟨k,_,hk⟩ := hk
    exact ⟨k,by rwa [blockAt_put_same hx rfl rfl]⟩

end Whole

end MipsOs.Sfs
