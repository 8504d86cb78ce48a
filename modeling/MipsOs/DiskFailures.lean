import MipsOs.SfsBlocks

/-! sfs_rwblock tries a transfer again after a media error, with the uio that the failed attempt has
left behind. What sfs_rblock and sfs_wblock do on a volume in order whose disk and whose kmalloc
fail in any way from now on. -/

set_option autoImplicit false
namespace MipsOs.Sfs
open Bytes Prog Function

variable {s t : Fs} {u : Uio} {b : Nat} {data : Buffer}

variable {d : Device} {again : UioM Unit} {w : Uio}

/-- Nothing is left to transfer: lhd_io returns at once, and no command is given. -/
theorem lhdIo_nothing (hoff : u.offset = (b * 512 + 512 : Nat)) (hres : u.resid = 0)
    (hb : b < d.blocks) (hd : b < 2^22) : lhdIo (d,u) = .ok () (d,u) := by
  obtain ⟨hsect,hsoff⟩ := sector_at (b := b + 1) (hoff.trans (by omega)) (by omega)
  have hrange : ¬ (b + 1 + 0) % 2^32 > d.blocks := by omega
  unfold lhdIo
  simp only [get_bind,hsect,hsoff,hres,Nat.zero_div,Nat.zero_mod]
  rw [if_neg (by simp),if_neg hrange]
  rfl

theorem rwblockOnce_ok {x : Unit} (h : lhdIo (s.dev,u) = .ok x (d,w)) :
    rwblockOnce again (s,u) = .ok () ({ s with dev := d },w) := by
  rw [rwblockOnce,bind_ok (attempt_ok (onDevice_ok h))]
  rfl

theorem rwblockOnce_eio (h : lhdIo (s.dev,u) = .err Errno.EIO (d,w)) :
    rwblockOnce again (s,u) = again ({ s with dev := d },w) := by
  rw [rwblockOnce,bind_ok (attempt_err (onDevice_err h))]

theorem rwblockOnce_einval
    (h : lhdIo (s.dev,u) = .err .EINVAL (d,w)) : rwblockOnce again (s,u) = .panic .dioEinval := by
  rw [rwblockOnce,bind_ok (attempt_err (onDevice_err h))]
  rfl

theorem rwblockOnce_fault (h : lhdIo (s.dev,u) = .err .EFAULT (d,w)) :
    rwblockOnce again (s,u) = .err .EFAULT ({ s with dev := d },w) := by
  rw [rwblockOnce,bind_ok (attempt_err (onDevice_err h))]
  rfl

def lhdOnce (again : Prog (Device × Uio) Errno Panic Unit) :
    Prog (Device × Uio) Errno Panic Unit := do
  let result ← attempt lhdIo
  match result with
  | .ok _ => pure ()
  | .error .EINVAL => halt .dioEinval
  | .error Errno.EIO => again
  | .error e => fail e

def lhdRetries : Nat → Prog (Device × Uio) Errno Panic Unit
  | 0 => lhdOnce (fail Errno.EIO)
  | n+1 => lhdOnce (lhdRetries n)

theorem rwblockOnce_onDevice (f : Prog (Device × Uio) Errno Panic Unit) :
    rwblockOnce (onDevice f) = onDevice (lhdOnce f) := by
  have hattempt : attempt (onDevice lhdIo) = onDevice (attempt lhdIo) := attempt_zoom lhdIo
  rw [rwblockOnce,hattempt,lhdOnce]
  refine Eq.trans ?_ (zoom_bind (by intros; rfl) (by intros; rfl) _ _)
  congr 1
  funext result
  cases result with
  | ok a => rfl
  | error e => cases e <;> rfl

theorem rwblockRetries_onDevice (n : Nat) : rwblockRetries n = onDevice (lhdRetries n) := by
  induction n with
  | zero => exact rwblockOnce_onDevice (fail Errno.EIO)
  | succ n ih => rw [rwblockRetries,ih,rwblockOnce_onDevice,lhdRetries]

def Fs.setDev (s : Fs) (d : Device) : Fs := { s with dev := d }

theorem setDev_dev (s : Fs) : s.setDev s.dev = s := rfl

theorem withLocal_onDevice {α : Type} (u : Uio) (f : Prog (Device × Uio) Errno Panic α) :
    withLocal u (onDevice f) = zoom Fs.dev Fs.setDev (withLocal u f) := by
  funext s
  simp only [withLocal,onDevice,zoom]
  cases f (s.dev,u) <;> rfl

theorem sfsRwblock_onDevice : ∃ f, sfsRwblock = onDevice f := by
  refine ⟨lhdRetries 10,?_⟩
  rw [sfsRwblock,rwblockRetries_onDevice]

theorem sfsRblock_onDevice (b : Nat) : ∃ f, sfsRblock b = zoom Fs.dev Fs.setDev f := by
  obtain ⟨f,hf⟩ := sfsRwblock_onDevice
  refine ⟨withLocal (sfsUio zeros b .read) f >>= fun out => pure out.2.buf,?_⟩
  rw [sfsRblock,hf,withLocal_onDevice,← zoom_bind (by intros; rfl) (by intros; rfl)]
  simp only [zoom_pure setDev_dev]

theorem sfsWblock_onDevice (data : Buffer) (b : Nat) :
    ∃ f, sfsWblock data b = zoom Fs.dev Fs.setDev f := by
  obtain ⟨f,hf⟩ := sfsRwblock_onDevice
  refine ⟨withLocal (sfsUio data b .write) f >>= fun _ => pure (),?_⟩
  rw [sfsWblock,hf,withLocal_onDevice,← zoom_bind (by intros; rfl) (by intros; rfl)]
  simp only [zoom_pure setDev_dev]

section

variable (hrw : u.rw = .read) (hoff : u.offset = (b * 512 : Nat)) (hres : u.resid = 512)
  (hf : u.faulty 512 = false) (hb : b < s.dev.blocks) (hd : b < 2^22)

include hrw hoff hres hf hb hd

theorem rwblockOnce_read {again : UioM Unit} {y : Fs × Uio}
    (h : rwblockOnce again (s,u) = .ok () y) :
    (y.1.dev.sector = s.dev.sector ∧ y.2.buf = splice u.buf u.base 512 (s.dev.sector b) 0) ∨
      again ({ s with dev := s.dev.spend },u) = .ok () y := by
  have hio := lhdIo_one hoff hres hb hd
  cases hn : s.dev.next with
  | ok =>
    rw [lhdSector_read_succeeds hrw hres hf hn] at hio
    rw [rwblockOnce_ok hio] at h
    cases h
    exact .inl ⟨rfl,rfl⟩
  | invsect =>
    rw [lhdSector_read_fails (e := .EINVAL) hrw (by rw [hn]; rfl)] at hio
    rw [rwblockOnce_einval hio] at h
    cases h
  | media =>
    rw [lhdSector_read_fails (e := Errno.EIO) hrw (by rw [hn]; rfl)] at hio
    rw [rwblockOnce_eio hio] at h
    exact .inr h

theorem rwblockRetries_read {n : Nat} {y : Fs × Uio} (h : rwblockRetries n (s,u) = .ok () y) :
    y.1.dev.sector = s.dev.sector ∧ y.2.buf = splice u.buf u.base 512 (s.dev.sector b) 0 := by
  induction n generalizing s with
  | zero =>
    rcases rwblockOnce_read hrw hoff hres hf hb hd h with hdone | hagain
    · exact hdone
    · cases hagain
  | succ n ih =>
    rcases rwblockOnce_read hrw hoff hres hf hb hd h with hdone | hagain
    · exact hdone
    · exact ih (s := { s with dev := s.dev.spend }) hb hagain

end

def blockUio (data : Buffer) (b : Nat) (rw : UioRw) : Uio :=
  ⟨data,0,((b * 512 : Nat) : Int),512,rw,fun _ => false⟩

theorem sfsUio_block (hd : b < 2^22) (data : Buffer) (rw : UioRw) :
    sfsUio data b rw = blockUio data b rw := sfsUio_eq data rw hd

theorem blockUio_faulty (data : Buffer) (b : Nat) (rw : UioRw) (n : Nat) :
    (blockUio data b rw).faulty n = false := faulty_none ..

section

variable (hb : b < s.dev.blocks) (hd : b < 2^22)

include hb hd

theorem sfsRblock_ok {blk : Block} (h : sfsRblock b s = .ok blk t) :
    blk = clip (s.dev.sector b) ∧ t.dev.sector = s.dev.sector := by
  rw [sfsRblock,sfsUio_block hd] at h
  cases hrw : sfsRwblock (s,blockUio zeros b .read) with
  | ok x y =>
    rw [bind_ok (withLocal_ok hrw)] at h
    rw [sfsRwblock] at hrw
    obtain ⟨hsec,hbuf⟩ := rwblockRetries_read rfl rfl rfl (blockUio_faulty ..) hb hd hrw
    cases h
    exact ⟨hbuf,hsec⟩
  | err e y =>
    rw [bind_err (withLocal_err hrw)] at h
    cases h
  | panic p =>
    rw [bind_panic (withLocal_panic hrw)] at h
    cases h

theorem sfsWblock_ok (hn : s.dev.next = .ok) (data : Buffer) :
    sfsWblock data b s = .ok () { s with dev := s.dev.spend.store b (clip data) } := by
  have hio := lhdIo_one (u := blockUio data b .write) rfl rfl hb hd
  rw [lhdSector_write_succeeds rfl rfl (blockUio_faulty ..) hn] at hio
  have hrw : sfsRwblock (s,blockUio data b .write) = .ok ()
      ({ s with dev := s.dev.spend.store b (clip data) },(blockUio data b .write).advance 512) := by
    rw [sfsRwblock]
    exact rwblockOnce_ok hio
  rw [sfsWblock,sfsUio_block hd,bind_ok (withLocal_ok hrw)]
  rfl

/-- After a media error the second attempt finds an empty uio and reports success. -/
theorem sfsWblock_media (hn : s.dev.next = .media) (data : Buffer) :
    sfsWblock data b s = .ok () { s with dev := s.dev.spend } := by
  have hio := lhdIo_one (u := blockUio data b .write) rfl rfl hb hd
  rw [lhdSector_write_fails (e := Errno.EIO) rfl rfl (blockUio_faulty ..) (by rw [hn]; rfl)] at hio
  have hagain : lhdIo (s.dev.spend,(blockUio data b .write).advance 512) =
      .ok () (s.dev.spend,(blockUio data b .write).advance 512) :=
    lhdIo_nothing (by simp [blockUio,Uio.advance]) (by simp [blockUio,Uio.advance]) hb hd
  have hrw : sfsRwblock (s,blockUio data b .write) =
      .ok () ({ s with dev := s.dev.spend },(blockUio data b .write).advance 512) := by
    rw [sfsRwblock,rwblockRetries,rwblockOnce_eio hio,rwblockRetries]
    exact rwblockOnce_ok (s := { s with dev := s.dev.spend }) hagain
  rw [sfsWblock,sfsUio_block hd,bind_ok (withLocal_ok hrw)]
  rfl

theorem sfsWblock_invsect (hn : s.dev.next = .invsect) (data : Buffer) :
    sfsWblock data b s = .panic .dioEinval := by
  have hio := lhdIo_one (u := blockUio data b .write) rfl rfl hb hd
  rw [lhdSector_write_fails (e := .EINVAL) rfl rfl (blockUio_faulty ..) (by rw [hn]; rfl)] at hio
  have hrw : sfsRwblock (s,blockUio data b .write) = .panic .dioEinval := by
    rw [sfsRwblock]
    exact rwblockOnce_einval hio
  rw [sfsWblock,sfsUio_block hd,bind_panic (withLocal_panic hrw)]

end

def Fs.onDisk (results : List LhdResult) : Fs :=
  ⟨⟨0,0,zeros⟩,false,⟨0,zeros⟩,false,[],⟨4,fun _ => zeros,results⟩,[]⟩

def Fs.failing (s : Fs) (rs : List LhdResult) (ks : List Bool) : Fs :=
  { s with dev := { s.dev with results := rs }, kmallocs := ks }

section Views

variable {s : Fs} {rs rs' : List LhdResult} {ks ks' : List Bool}

theorem Geometry.healthy (h : Geometry s) : s.failing [] [] = s := by
  obtain ⟨super,superdirty,freemap,freemapdirty,vnodes,⟨blocks,sector,results⟩,kmallocs⟩ := s
  obtain rfl : results = [] := h.results
  obtain rfl : kmallocs = [] := h.kmallocs
  rfl

end Views

/-- The results that a transfer uses up which succeeds in the end. -/
inductive Passed : List LhdResult → List LhdResult → Prop where
  | none : Passed [] []
  | ok (rs : List LhdResult) : Passed (.ok :: rs) rs
  | media {rs rs' : List LhdResult} : Passed rs rs' → Passed (.media :: rs) rs'

variable {rs rs' : List LhdResult}

theorem Passed.suffix (h : Passed rs rs') : rs' <:+ rs := by
  induction h with
  | none => exact List.suffix_refl _
  | ok rs => exact List.suffix_cons _ _
  | media _ ih => exact ih.trans (List.suffix_cons _ _)

def GaveUp (rs rs' : List LhdResult) : Prop := List.replicate 11 .media ++ rs' <:+ rs

theorem GaveUp.suffix (h : GaveUp rs rs') : rs' <:+ rs :=
  (List.suffix_append _ _).trans h

theorem GaveUp.later {rs₁ : List LhdResult} (h : GaveUp rs₁ rs') (hs : rs₁ <:+ rs) :
    GaveUp rs rs' := h.trans hs

theorem not_gaveUp_nil (rs : List LhdResult) : ¬ GaveUp [] rs := by
  intro h
  have := List.suffix_nil.mp h
  simp at this

def BadSector (rs : List LhdResult) (p : Panic) : Prop := p = .dioEinval ∧ .invsect ∈ rs

theorem BadSector.later {p : Panic} (h : BadSector rs' p)
    (hs : rs' <:+ rs) : BadSector rs p := ⟨h.1,hs.subset h.2⟩

theorem not_badSector_nil (p : Panic) : ¬ BadSector [] p := fun h => List.not_mem_nil h.2

section Transfers

variable {s : Fs} {u : Uio} {b : Nat} {rs : List LhdResult} {ks : List Bool}

theorem rwblockOnce_reading {again : UioM Unit} (hrw : u.rw = .read)
    (hoff : u.offset = (b * 512 : Nat)) (hres : u.resid = 512) (hb : b < s.dev.blocks)
    (hd : b < 2^22) {Q : Unit → Fs × Uio → Prop} {E : Errno → Fs × Uio → Prop} {P : Panic → Prop}
    (hok : ∀ rs', Passed rs rs' → u.faulty 512 = false →
      Q () (s.failing rs' ks,
        { u.advance 512 with buf := splice u.buf u.base 512 (s.dev.sector b) 0 }))
    (hfault : ∀ rs', rs' <:+ rs → u.faulty 512 = true → E .EFAULT (s.failing rs' ks,u))
    (hmedia : ∀ rs', rs = .media :: rs' → (again (s.failing rs' ks,u)).Ends Q E P)
    (hinvsect : .invsect ∈ rs → P .dioEinval) :
    (rwblockOnce again (s.failing rs ks,u)).Ends Q E P := by
  have hio : lhdIo ((s.failing rs ks).dev,u) = lhdSector b ((s.failing rs ks).dev,u) :=
    lhdIo_one hoff hres hb hd
  -- the result is OK, be it the default one
  have hdone : ∀ rs', (s.failing rs ks).dev.next = .ok → (s.failing rs ks).dev.spend =
      (s.failing rs' ks).dev → Passed rs rs' →
      (rwblockOnce again (s.failing rs ks,u)).Ends Q E P := by
    intro rs' hnext hspend hrs
    cases hf : u.faulty 512 with
    | true =>
      rw [lhdSector_read_faults hrw hres hf hnext,hspend] at hio
      rw [rwblockOnce_fault hio]
      exact hfault rs' hrs.suffix hf
    | false =>
      rw [lhdSector_read_succeeds hrw hres hf hnext,hspend] at hio
      rw [rwblockOnce_ok hio]
      exact hok rs' hrs hf
  cases rs with
  | nil => exact hdone [] rfl rfl .none
  | cons r rs =>
    cases r with
    | ok => exact hdone rs rfl rfl (.ok rs)
    | invsect =>
      rw [lhdSector_read_fails (e := .EINVAL) hrw rfl] at hio
      rw [rwblockOnce_einval hio]
      exact hinvsect List.mem_cons_self
    | media =>
      rw [lhdSector_read_fails (e := Errno.EIO) hrw rfl] at hio
      rw [rwblockOnce_eio hio]
      exact hmedia rs rfl

theorem rwblockRetries_reading (hrw : u.rw = .read) (hoff : u.offset = (b * 512 : Nat))
    (hres : u.resid = 512) (hb : b < s.dev.blocks) (hd : b < 2^22) (n : Nat)
    (rs : List LhdResult) (ks : List Bool) :
    (rwblockRetries n (s.failing rs ks,u)).Ends
      (fun _ y => ∃ rs', Passed rs rs' ∧ y = (s.failing rs' ks,
        { u.advance 512 with buf := splice u.buf u.base 512 (s.dev.sector b) 0 }))
      (fun e y => ∃ rs', rs' <:+ rs ∧ y = (s.failing rs' ks,u) ∧
        (e = .EFAULT ∧ u.faulty 512 = true ∨
          e = Errno.EIO ∧ rs = List.replicate (n+1) .media ++ rs'))
      (BadSector rs) := by
  induction n generalizing rs with
  | zero =>
    refine rwblockOnce_reading hrw hoff hres hb hd (fun rs' hrs _ => ⟨rs',hrs,rfl⟩)
      (fun rs' hrs hf => ⟨rs',hrs,rfl,.inl ⟨rfl,hf⟩⟩) (fun rs' hrs => ?_) fun hp => ⟨rfl,hp⟩
    subst hrs
    exact ⟨rs',List.suffix_cons _ _,rfl,.inr ⟨rfl,rfl⟩⟩
  | succ n ih =>
    refine rwblockOnce_reading hrw hoff hres hb hd (fun rs' hrs _ => ⟨rs',hrs,rfl⟩)
      (fun rs' hrs hf => ⟨rs',hrs,rfl,.inl ⟨rfl,hf⟩⟩) (fun rs' hrs => ?_) fun hp => ⟨rfl,hp⟩
    subst hrs
    refine (ih rs').mono (fun _ y hy => ?_) (fun e y he => ?_) fun p hp => ?_
    · obtain ⟨rs'',hpass,rfl⟩ := hy
      exact ⟨rs'',.media hpass,rfl⟩
    · obtain ⟨rs'',hsuffix,rfl,hcause⟩ := he
      refine ⟨rs'',hsuffix.trans (List.suffix_cons _ _),rfl,hcause.imp_right fun hc => ?_⟩
      exact ⟨hc.1,by rw [hc.2]; rfl⟩
    · exact ⟨hp.1,List.mem_cons_of_mem _ hp.2⟩

theorem rblock_failing (h : Geometry s) (hb : b < s.super.nblocks) (rs : List LhdResult)
    (ks : List Bool) :
    (∃ rs', Passed rs rs' ∧
      sfsRblock b (s.failing rs ks) = .ok (clip (s.dev.sector b)) (s.failing rs' ks)) ∨
    (∃ rs', GaveUp rs rs' ∧ sfsRblock b (s.failing rs ks) = .err Errno.EIO (s.failing rs' ks)) ∨
    ∃ p, BadSector rs p ∧ sfsRblock b (s.failing rs ks) = .panic p := by
  have hlt := (h.block_lt hb).2
  have hread := rwblockRetries_reading (u := blockUio zeros b .read) rfl rfl rfl (h.block_lt hb).1
    hlt 10 rs ks
  rw [← sfsRwblock] at hread
  rw [sfsRblock,sfsUio_block hlt]
  cases hrw : sfsRwblock (s.failing rs ks,blockUio zeros b .read) with
  | ok x y =>
    rw [hrw] at hread
    obtain ⟨rs',hpass,rfl⟩ := hread
    exact .inl ⟨rs',hpass,by rw [bind_ok (withLocal_ok hrw)]; rfl⟩
  | err e y =>
    rw [hrw] at hread
    obtain ⟨rs',hsuffix,rfl,⟨_,hf⟩ | ⟨rfl,hrs⟩⟩ := hread
    · rw [blockUio_faulty] at hf
      cases hf
    · exact .inr (.inl ⟨rs',hrs ▸ List.suffix_refl _,bind_err (withLocal_err hrw)⟩)
  | panic p =>
    rw [hrw] at hread
    exact .inr (.inr ⟨p,hread,bind_panic (withLocal_panic hrw)⟩)

end Transfers

section Writes

variable {α β : Type} {s t u : Fs} {b : Nat} {ws ws' : List (Nat × Block)}

/-- What block writes leave on the disk. A write that meets a media error is lost. -/
def sectorsAfter : List (Nat × Block) → List LhdResult → (Nat → Block) → Nat → Block
  | [],_,x => x
  | w :: ws,rs,x => sectorsAfter ws rs.tail (if rs.head? = some .media then x else update x w.1 w.2)

theorem sectorsAfter_append (ws ws' : List (Nat × Block)) (rs : List LhdResult) (x : Nat → Block) :
    sectorsAfter (ws ++ ws') rs x = sectorsAfter ws' (rs.drop ws.length) (sectorsAfter ws rs x) := by
  induction ws generalizing rs x with
  | nil => rfl
  | cons w ws ih =>
    rw [List.cons_append,sectorsAfter,ih,List.drop_tail]
    rfl

theorem sectorsAfter_other {x : Nat → Block} (rs : List LhdResult) (h : b ∉ ws.map Prod.fst) :
    sectorsAfter ws rs x b = x b := by
  induction ws generalizing rs x with
  | nil => rfl
  | cons w ws ih =>
    rw [sectorsAfter,ih _ fun hb => h (List.mem_cons_of_mem _ hb)]
    split
    · rfl
    · exact update_of_ne (fun he : b = w.1 => h (he ▸ List.mem_cons_self)) _ _

theorem sectorsAfter_get {x : Nat → Block} {i : Nat} {w : Nat × Block} (rs : List LhdResult)
    (hn : (ws.map Prod.fst).Nodup) (h : ws[i]? = some w) :
    sectorsAfter ws rs x w.1 = if rs[i]? = some .media then x w.1 else w.2 := by
  induction ws generalizing rs x i with
  | nil => cases h
  | cons v ws ih =>
    obtain ⟨hnew,hn⟩ := List.nodup_cons.mp hn
    cases i with
    | zero =>
      obtain rfl : v = w := Option.some.inj h
      rw [sectorsAfter,sectorsAfter_other _ hnew,List.head?_eq_getElem?]
      split
      · rfl
      · exact update_self ..
    | succ i =>
      have hne : w.1 ≠ v.1 := fun he => hnew (he ▸ List.mem_map_of_mem (List.mem_of_getElem? h))
      rw [sectorsAfter,ih _ hn h,List.getElem?_tail]
      split
      · split
        · rfl
        · exact update_of_ne hne _ _
      · rfl

/-- A sector is as if there had been no media error, or as it was: then all writes to it are lost. -/
theorem sectorsAfter_cases {x : Nat → Block} (rs : List LhdResult) (hn : (ws.map Prod.fst).Nodup)
    (b : Nat) : sectorsAfter ws rs x b = sectorsAfter ws [] x b ∨
      sectorsAfter ws rs x b = x b ∧
        ∀ (i : Nat) w, ws[i]? = some w → w.1 = b → rs[i]? = some LhdResult.media := by
  by_cases hlost : ∀ (i : Nat) w, ws[i]? = some w → w.1 = b → rs[i]? = some LhdResult.media
  · refine .inr ⟨?_,hlost⟩
    by_cases hb : b ∈ ws.map Prod.fst
    · obtain ⟨w,hw,rfl⟩ := List.mem_map.mp hb
      obtain ⟨i,hi⟩ := List.mem_iff_getElem?.mp hw
      rw [sectorsAfter_get rs hn hi,if_pos (hlost i w hi rfl)]
    · exact sectorsAfter_other rs hb
  · push Not at hlost
    obtain ⟨i,w,hi,rfl,hkept⟩ := hlost
    rw [sectorsAfter_get rs hn hi,sectorsAfter_get [] hn hi,if_neg hkept,List.getElem?_nil,
      if_neg nofun]
    exact .inl rfl

def Fs.withSectors (s : Fs) (x : Nat → Block) : Fs := { s with dev := { s.dev with sector := x } }

/-- `f` writes the blocks `ws` and takes `s` to `t` but for these, or the disk does not know one of
the sectors. -/
def Writes (ws : List (Nat × Block)) (f : SfsM α) (s : Fs) (a : α) (t : Fs) : Prop :=
  ∀ x rs ks, f ((s.withSectors x).failing rs ks) =
    if .invsect ∈ rs.take ws.length then .panic .dioEinval
    else .ok a ((t.withSectors (sectorsAfter ws rs x)).failing (rs.drop ws.length) ks)

variable {f : SfsM α} {g : α → SfsM β} {a : α} {c : β}

theorem Writes.bind (hf : Writes ws f s a t) (hg : Writes ws' (g a) t c u) :
    Writes (ws ++ ws') (f >>= g) s c u := by
  intro x rs ks
  have hfirst := hf x rs ks
  rw [List.length_append,List.take_add,sectorsAfter_append,← List.drop_drop]
  by_cases h : .invsect ∈ rs.take ws.length
  · rw [if_pos h] at hfirst
    rw [bind_panic hfirst,if_pos (List.mem_append_left _ h)]
  · rw [if_neg h] at hfirst
    rw [bind_ok hfirst,hg]
    simp only [List.mem_append,h,false_or]

theorem Writes.attempt (hf : Writes ws f s a t) : Writes ws (Prog.attempt f) s (.ok a) t := by
  intro x rs ks
  rw [Prog.attempt,hf]
  by_cases h : .invsect ∈ rs.take ws.length
  · rw [if_pos h,if_pos h]
  · rw [if_neg h,if_neg h]

theorem Writes.quiet
    (h : ∀ x rs ks, f ((s.withSectors x).failing rs ks) = .ok a ((t.withSectors x).failing rs ks)) :
    Writes [] f s a t := h

theorem Writes.then_quiet (hf : Writes ws f s a t) (hg : Writes [] (g a) t c u) :
    Writes ws (f >>= g) s c u := by
  have h := hf.bind hg
  rwa [List.append_nil] at h

theorem Writes.healthy (hf : Writes ws f s a t) (hs : Geometry s) (ht : Geometry t) :
    f s = .ok a (t.withSectors (sectorsAfter ws [] s.dev.sector)) := by
  have h := hf s.dev.sector [] []
  have hs' : (s.withSectors s.dev.sector).failing [] [] = s := hs.healthy
  have ht' : Geometry (t.withSectors (sectorsAfter ws [] s.dev.sector)) := { ht with }
  rwa [List.take_nil,if_neg List.not_mem_nil,List.drop_nil,hs',ht'.healthy] at h

theorem Geometry.wblock_writes (h : Geometry s) (hb : b < s.super.nblocks) (data : Buffer) :
    Writes [(b,clip data)] (sfsWblock data b) s () s := by
  intro x rs ks
  have hlt := (h.block_lt hb).2
  have hdisk : b < ((s.withSectors x).failing rs ks).dev.blocks := (h.block_lt hb).1
  cases rs with
  | nil => exact sfsWblock_ok hdisk hlt rfl data
  | cons r rs =>
    cases r with
    | ok => exact sfsWblock_ok hdisk hlt rfl data
    | media => exact sfsWblock_media hdisk hlt rfl data
    | invsect => exact sfsWblock_invsect hdisk hlt rfl data

theorem Writes.loop {f : Nat → Unit → SfsM Unit} {w : Nat → Nat × Block} (n i : Nat)
    (h : ∀ j, j < i + n → Writes [w j] (f j ()) s () s) :
    Writes ((List.range' i n).map w) (Prog.loop f i n ()) s () s := by
  induction n generalizing i with
  | zero => exact Writes.quiet fun _ _ _ => rfl
  | succ n ih =>
    exact (h i (by omega)).bind (ih (i + 1) fun j hj => h j (by omega))

end Writes

end MipsOs.Sfs
