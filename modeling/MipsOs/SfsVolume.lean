import MipsOs.SfsMount

/-! The operations of sfs_vnode.c keep the invariant, and those that do not write
to a file keep its contents; so it holds in every state that calls can lead to. -/

set_option autoImplicit false
namespace MipsOs.Sfs
open Bytes Prog Ledger Runs

section Takes

variable {s t u : Fs} {d d' : Nat → Nat} {ino : Nat} {v : SfsVnode}

theorem Inv.root (h : Inv s) (hr : s.loaded sfsRootLocation = true) :
    ∃ v, s.vnode sfsRootLocation = some v ∧ v.i.type = .dir := by
  obtain ⟨v,hv⟩ := exists_vnode hr
  exact ⟨v,hv,by rw [(h.own.loadedOk hv).type,if_pos rfl]⟩

theorem Inv.linkcount_root (h : Inv s) (hv : s.vnode ino = some v) (hz : v.i.linkcount = 0) :
    ino ≠ sfsRootLocation := by
  intro he
  refine h.linkcount_ne_zero (.inl he) ?_
  rw [← hz,← inodeAt_loaded hv]
  rfl

/-- The files in use are as before; vnode `i` has `d i` more references. -/
structure Takes (s t : Fs) (d : Nat → Nat) : Prop where
  inv : Inv t
  same : Same (Live s) s t
  refs : ∀ i, t.refs i = s.refs i + d i

def oneRef (ino : Nat) (i : Nat) : Nat := if i = ino then 1 else 0

theorem oneRef_self (ino : Nat) : oneRef ino ino = 1 := if_pos rfl

theorem Inv.refs_pos (h : Inv s) (i : Nat) : 0 < s.refs i ↔ s.loaded i = true := by
  cases hv : s.vnode i with
  | none => simp [refs_none hv,Fs.loaded,hv]
  | some v => simp [refs_vnode hv,Fs.loaded,hv,(h.own.vnodeOk hv).refs]

theorem Takes.refl (h : Inv s) : Takes s s fun _ => 0 := ⟨h,Same.refl _ s,fun _ => rfl⟩

theorem Takes.congr (h : Takes s t d) (hd : ∀ i, d' i = d i) : Takes s t d' :=
  ⟨h.inv,h.same,fun i => by rw [h.refs,hd]⟩

theorem Takes.loaded (h : Takes s t d) (hs : Inv s) {i : Nat} (hi : s.loaded i = true ∨ 0 < d i) :
    t.loaded i = true := by
  have hrefs := h.refs i
  have hpos := hs.refs_pos i
  rw [← h.inv.refs_pos]
  rcases hi with hi | hi
  · have := hpos.mpr hi
    omega
  · omega

theorem Takes.live (h : Takes s t d) (hs : Inv s) {i : Nat} (hi : Live s i) : Live t i := by
  rcases hi with hi | hi | hi
  · exact .inl hi
  · exact .inr (.inl (by rw [h.same.root]; exact hi))
  · exact live_loaded (h.loaded hs (.inl hi))

theorem Takes.trans (h : Takes s t d) (hs : Inv s) (h' : Takes t u d') :
    Takes s u fun i => d i + d' i := by
  refine ⟨h'.inv,⟨h'.same.super.trans h.same.super,fun i hi => ?_⟩,fun i => ?_⟩
  · rw [h'.same.files i (h.live hs hi),h.same.files i hi]
  · rw [h'.refs,h.refs,Nat.add_assoc]

theorem Takes.holds (h : Takes s t d) (hs : Inv s) : Holds s t :=
  h.same.holds fun _ hj => h.loaded hs (.inl hj)

theorem Takes.tidy (h : Takes s t d) (hs : Inv s) : Tidy s t :=
  (h.holds hs).tidy h.same.rootKept h.inv

theorem Loads.takes (h : Loads (Live s) ino s t) (hs : Inv s) (hL : Live s ino) :
    Takes s t (oneRef ino) := ⟨hs.loads hL h,h.same,h.refs⟩

theorem Becomes.takes (hown : Own t (Live s) none) (h : Becomes (Live s) ino (s.fileAt ino) s t)
    (hs : Inv s) : Takes s t fun _ => 0 :=
  ⟨hs.becomes hown h (fun hi => by rw [hi]) rfl,h.same,h.refs_eq⟩

theorem Made.takes {b : Nat} (h : Made (Live s) b s t) (hs : Inv s) : Takes s t (oneRef b) :=
  ⟨hs.made h,h.same,h.refs⟩

theorem vnodeIncref_takes (h : Inv s) (hl : s.loaded ino = true) :
    ∃ t, vnodeIncref ino s = .ok () t ∧ Takes s t (oneRef ino) := by
  obtain ⟨v,hv⟩ := exists_vnode hl
  have hrel : Released (Live s) ino (s.fileAt ino).linkcount s (s.recount ino (· + 1)) :=
    h.own.recounted hv (Nat.succ_pos _)
  refine ⟨_,vnodeIncref_eq s ino,(h.released hl hrel).inv,recount_same _ s ino _,fun i => ?_⟩
  rw [recount_refs hv,oneRef]
  by_cases hi : i = ino
  · simp [hi]
  · simp [hi]

theorem Takes.decref (h : Takes s t d) (hs : Inv s) (hd : 0 < d ino) (d' : Nat → Nat)
    (hd' : ∀ i, d i = d' i + oneRef ino i) :
    (vnodeDecref ino t).Safe (fun _ u => Takes s u d') fun _ _ => False := by
  have hl := h.loaded hs (.inr hd)
  obtain ⟨v,hv⟩ := exists_vnode hl
  refine (vnodeDecref_counts h.inv.own hv (h.inv.linkcount_root hv)).mono (fun _ u hu => ?_)
    fun _ _ hf => hf
  obtain ⟨hrel,hcount⟩ := hu
  have hlinks : v.i.linkcount = (t.fileAt ino).linkcount := by
    rw [← inodeAt_loaded hv]
    rfl
  have hrefs : ∀ i, u.refs i = s.refs i + d' i := by
    intro i
    have hi := h.refs i
    have hdi := hd' i
    by_cases he : i = ino
    · rw [he] at hi hdi ⊢
      rw [oneRef_self] at hdi
      omega
    · rw [hrel.refs i he]
      rw [oneRef,if_neg he] at hdi
      omega
  rw [hlinks] at hrel
  have hinv := (h.inv.released hl hrel).inv
  refine ⟨hinv,⟨hrel.same.super.trans h.same.super,fun i hi => ?_⟩,hrefs⟩
  rw [hrel.same.files i ⟨h.live hs hi,fun he => ?_⟩,h.same.files i hi]
  -- a file of `s` that has lost its vnode again has a name there
  subst he
  by_cases hu : u.loaded i = true
  · exact .inr hu
  · have hzero : ¬ s.loaded i = true := by
      rw [← hs.refs_pos]
      rw [← hinv.refs_pos] at hu
      have := hrefs i
      omega
    rw [h.same.files i hi]
    exact .inl (hs.linkcount_ne_zero (hi.imp_right fun hi => hi.resolve_right hzero))

end Takes

section Steps

variable {s t : Fs} {ino : Nat} {v : SfsVnode} {name : Name}

theorem Inv.decref (h : Inv s) (hl : s.loaded ino = true) :
    (vnodeDecref ino s).Safe
      (fun _ t => Tidy s t ∧ t.root = s.root)
      fun _ _ => False := by
  obtain ⟨v,hv⟩ := exists_vnode hl
  refine (vnodeDecref_counts h.own hv (h.linkcount_root hv)).mono (fun _ t ⟨ht,_⟩ => ?_)
    fun _ _ hf => hf
  rw [← inodeAt_loaded hv] at ht
  exact ⟨h.released hl ht,h.released_root ht⟩

theorem Inv.reclaim (h : Inv s) (hl : s.loaded ino = true) :
    (sfsReclaim ino s).Safe (fun _ t => Tidy s t) fun _ t => Tidy s t := by
  obtain ⟨v,hv⟩ := exists_vnode hl
  have hrel : ∀ t, Released (Live s) ino v.i.linkcount s t → Tidy s t := by
    intro t ht
    rw [← inodeAt_loaded hv] at ht
    exact h.released hl ht
  exact (sfsReclaim_spec h.own hv (h.linkcount_root hv)).mono (fun _ t ht => hrel t ht)
    fun _ t ht => hrel t ht

theorem Inv.load (h : Inv s) (hL : Live s ino) :
    (sfsLoadvnode ino .inval s).Safe (fun _ t => Takes s t (oneRef ino)) fun _ _ => False :=
  (sfsLoadvnode_spec h.own hL).mono (fun _ _ ht => ht.takes h hL) fun _ _ hf => hf

structure Looked (s : Fs) (g : Nat × Nat) (t : Fs) : Prop extends Takes s t (oneRef g.1) where
  loaded : t.loaded g.1 = true
  root : t.loaded sfsRootLocation = true
  used : t.root.used g.2
  entry : (t.root.entry g.2).ino = g.1

theorem Looked.file {g : Nat × Nat} (h : Looked s g t) :
    t.root = s.root := h.same.root

section

variable (h : Inv s) (hr : s.loaded sfsRootLocation = true)

include h hr

theorem sfsLookonce_spec (name : Name) :
    (sfsLookonce sfsRootLocation name s).Safe (fun g t => Looked s g t)
      fun _ t => Takes s t fun _ => 0 := by
  obtain ⟨v,hv,htype⟩ := h.root hr
  rw [sfsLookonce]
  refine (sfsDirFindname_spec h.own hv htype h.directory name).bind_unerring fun r t ht => ?_
  obtain ⟨rfl,hs⟩ := ht
  by_cases hf : r.found = true
  · obtain ⟨_,hu,_,hino⟩ := hs.present hf
    rw [if_pos hf]
    refine (h.load (.inr (.inl ⟨_,hu,hino⟩))).bind_unerring fun _ u htakes => ?_
    have hroot := htakes.same.root
    have hl := htakes.loaded h (.inr (Nat.lt_of_lt_of_eq Nat.one_pos (oneRef_self r.ino).symm))
    obtain ⟨w,hw⟩ := exists_vnode hl
    have hne : ¬ w.i.linkcount = 0 := by
      rw [← inodeAt_loaded hw]
      exact htakes.inv.linkcount_ne_zero
        (.inr ⟨r.slot,by rw [hroot]; exact hu,by rw [hroot]; exact hino⟩)
    rw [bind_ok (getVnode_eq hw),if_neg hne,pure_apply]
    refine ⟨htakes,hl,htakes.loaded h (.inl hr),?_,?_⟩
    · rw [hroot]
      exact hu
    · rw [hroot]
      exact hino
  · rw [if_neg hf]
    exact Takes.refl h

theorem Inv.dirLink (hl : s.loaded ino = true) (name : Name) :
    (sfsDirLink sfsRootLocation name ino s).Safe
      (fun k t => Entered (Live s) sfsRootLocation name ino k s t)
      fun _ t => Takes s t fun _ => 0 := by
  obtain ⟨v,hv,htype⟩ := h.root hr
  exact (sfsDirLink_spec h.own hv htype h.directory (h.live_lt (live_loaded hl)) name).mono
    (fun _ _ ht => ht) fun _ _ ht => Becomes.takes ht.1 ht.2 h

theorem Inv.dirUnlink {k : Nat} (hu : s.root.used k) :
    (sfsDirUnlink sfsRootLocation k s).Safe
      (fun _ t => Own t (Live s) none ∧
        Becomes (Live s) sfsRootLocation (s.root.enter k noEntry) s t)
      fun _ _ => False := by
  obtain ⟨v,hv,_⟩ := h.root hr
  exact sfsDirUnlink_spec h.own hv h.directory hu

end

end Steps

section Operations

variable {s : Fs} {ino : Nat} {name : Name}

section

variable (h : Inv s) (hr : s.loaded sfsRootLocation = true)

include h hr

def Fs.hasName (s : Fs) (name : Name) : Prop :=
  ∃ k, s.root.used k ∧
    (s.root.entry k).text = name.chars

/-- A file has been made under a name that was not there. -/
structure NewFile (s : Fs) (name : Name) (b : Nat) (t : Fs) : Prop where
  tidy : Tidy s t
  new : ¬ Live s b
  contents : t.contents b = (0,zeros)
  absent : ¬ s.hasName name
  changed : t.root ≠ s.root

theorem sfsCreat_spec (name : Name) (excl : Bool) :
    (sfsCreat sfsRootLocation name excl s).Safe
      (fun b t => (Live s b ∧ Takes s t (oneRef b) ∧ s.hasName name) ∨ NewFile s name b t)
      fun _ t => Takes s t fun _ => 0 := by
  obtain ⟨v,hv,htype⟩ := h.root hr
  rw [sfsCreat]
  refine (sfsDirFindname_spec h.own hv htype h.directory name).bind_unerring fun r t ht => ?_
  obtain ⟨rfl,hs⟩ := ht
  by_cases hf : r.found = true
  · rw [if_pos hf]
    by_cases he : excl = true
    · rw [if_pos he]
      exact Takes.refl h
    · obtain ⟨_,hused,htext,hino⟩ := hs.present hf
      have hlive : Live t r.ino := .inr (.inl ⟨_,hused,hino⟩)
      rw [if_neg he]
      exact (h.load hlive).bind_unerring fun _ u hu => .inl ⟨hlive,hu,_,hused,htext⟩
  · rw [if_neg hf]
    refine (sfsMakeobj_spec h.own).bind (fun b u hm => ?_) fun e u he => ?_
    · have hmade := hm.takes h
      have hinv := hmade.inv
      have hone : 0 < oneRef b b := Nat.lt_of_lt_of_eq Nat.one_pos (oneRef_self b).symm
      have hb := hmade.loaded h (.inr hone)
      refine (hinv.dirLink (hmade.loaded h (.inl hr)) hb name).attempt_bind (fun k w hw => ?_)
        fun e w hw => ?_
      · obtain ⟨x,hup,hx⟩ := hinv.entered hb hw
        show ((linkcountUp b >>= fun _ => pure b) w).Safe _ _
        rw [bind_ok hup]
        have hlt := hinv.live_lt (live_loaded hb)
        have hkept := hx.rootKept hinv hw.slot hlt fun he => hm.new (.inl he)
        have hused : x.root.used k := by
          rw [used_congr hx.size hx.byte,used_enter hinv.directory.size hw.slot hlt,if_pos rfl]
          exact hinv.own.live_ne_zero (live_loaded hb)
        refine .inr ⟨(hm.holds.trans hx.holds).tidy (hm.same.rootKept.trans hkept) hx.inv,hm.new,?_,
          fun ⟨k,hk,htext⟩ => hs.absent (by simpa using hf) k hk.1 hk htext,fun he => hw.free ?_⟩
        · rw [hx.others b (live_loaded hb) fun he => hm.new (.inl he),Fs.contents,hm.file]
        · show u.root.used k
          rw [hm.same.root,← he]
          exact hused
      · exact ((hmade.trans h hw).decref h hone (fun _ => 0) fun i => by omega).bind_unerring
          fun _ _ hx => hx
    · rw [he.2]
      exact Takes.refl h

/-- sfs_creat hands back a file that was in use, or an empty one. -/
theorem sfsCreat_inv (name : Name) (excl : Bool) :
    (sfsCreat sfsRootLocation name excl s).Safe
      (fun b t => Tidy s t ∧ (¬ Live s b → t.contents b = (0,zeros))) fun _ t => Tidy s t := by
  refine (sfsCreat_spec h hr name excl).mono (fun b t ht => ?_) fun _ _ ht => ht.tidy h
  rcases ht with ⟨hl,ht⟩ | ht
  · exact ⟨ht.1.tidy h,fun hn => (hn hl).elim⟩
  · exact ⟨ht.tidy,fun _ => ht.contents⟩

theorem sfsLink_inv (hl : s.loaded ino = true) (name : Name) :
    (sfsLink sfsRootLocation name ino s).Safe
      (fun _ t => Orderly s t ∧ (ino ≠ sfsRootLocation → RootKept s t)) fun _ t => Tidy s t := by
  rw [sfsLink]
  refine (h.dirLink hr hl name).bind (fun k t ht => ?_) fun _ _ ht => ht.tidy h
  obtain ⟨u,hup,hu⟩ := h.entered hl ht
  rw [hup]
  exact ⟨hu.holds.orderly hu.inv,fun hne =>
    hu.rootKept h ht.slot (h.live_lt (live_loaded hl)) hne⟩

theorem sfsRemove_inv (name : Name) :
    (sfsRemove sfsRootLocation name s).Safe (fun _ t => Tidy s t) fun _ t => Tidy s t := by
  rw [sfsRemove]
  refine (sfsLookonce_spec h hr name).bind (fun g t hg => ?_) fun _ _ ht => ht.tidy h
  refine (hg.inv.dirUnlink hg.root hg.used).attempt_bind (fun _ u hu => ?_) fun _ _ hf => hf.elim
  obtain ⟨w,x,hw,hpos,hdown,hx⟩ := hg.inv.unlinked hg.loaded hg.used hg.entry hu.1 hu.2
  have hlink : removeLink g.1 (.ok ()) u = .ok () x := by
    rw [removeLink,bind_ok (getVnode_eq hw),assert_bind _ _ _ hpos,hdown]
  rw [bind_ok hlink]
  refine (hx.inv.decref (by rw [hx.loaded]; exact hg.loaded)).bind_unerring fun _ y hy => ?_
  exact ((hg.toTakes.holds h).trans hx.holds).then_tidy
    ((RootKept.of_file hg.file).trans (hx.rootKept_erase hg.inv hg.used)) hy.1

theorem renameUnlink_inv {slot1 slot2 : Nat} {t : Fs} (hl : s.loaded ino = true)
    (hroot : ino ≠ sfsRootLocation) (hu : s.root.used slot1)
    (hk : (s.root.entry slot1).ino = ino)
    (ht : Entered (Live s) sfsRootLocation name ino slot2 s t) :
    (renameUnlink sfsRootLocation ino slot1 slot2 t).Safe (fun _ t => Tidy s t)
      fun _ t => Tidy s t := by
  obtain ⟨u,hup,hru⟩ := h.entered hl ht
  have hino := h.live_lt (live_loaded hl)
  -- the new name went to a slot that was free, so the old one is still there
  have hne : slot1 ≠ slot2 := fun he => ht.free (he ▸ hu)
  have hused : u.root.used slot1 := by
    rw [used_congr hru.size hru.byte,used_enter h.directory.size ht.slot hino,if_neg hne]
    exact hu
  have hentry : (u.root.entry slot1).ino = ino := by
    rw [File.entry,hru.byte]
    exact (enter_other _ _ hne).ino.trans hk
  have hur : u.loaded sfsRootLocation = true := by rw [hru.loaded]; exact hr
  have hul : u.loaded ino = true := by rw [hru.loaded]; exact hl
  rw [renameUnlink,bind_ok hup]
  refine (hru.inv.dirUnlink hur hused).attempt_bind (fun _ w hw => ?_) fun _ _ hf => hf.elim
  obtain ⟨v,x,hv,hpos,hdown,hx⟩ := hru.inv.unlinked hul hused hentry hw.1 hw.2
  show ((getVnode ino >>= fun v => assert (0 < v.i.linkcount) .renameLinkcount >>= fun _ =>
    linkcountDown ino >>= fun _ => vnodeDecref ino) w).Safe _ _
  rw [bind_ok (getVnode_eq hv),assert_bind _ _ _ hpos,bind_ok hdown]
  have hkept : RootKept s x :=
    (hru.rootKept h ht.slot hino hroot).trans (hx.rootKept_erase hru.inv hused)
  exact (hx.inv.decref (by rw [hx.loaded]; exact hul)).mono
    (fun _ _ hy => (hru.holds.trans hx.holds).then_tidy hkept hy.1) fun _ _ hf => hf.elim

/-- The root directory can be linked into itself; renaming such a link stops the machine. -/
theorem sfsRename_inv (n1 n2 : Name) :
    (sfsRename sfsRootLocation n1 sfsRootLocation n2 s).Safe (fun _ t => Tidy s t)
        (fun _ t => Tidy s t) ∨ s.root.names sfsRootLocation ∧
      sfsRename sfsRootLocation n1 sfsRootLocation n2 s = .panic .renameType := by
  rw [sfsRename,assert_bind _ _ _ rfl,assert_bind _ _ _ rfl]
  have hlook := sfsLookonce_spec h hr n1
  cases hg : sfsLookonce sfsRootLocation n1 s with
  | panic p =>
    rw [hg] at hlook
    exact hlook.elim
  | err e t =>
    rw [hg] at hlook
    rw [bind_err hg]
    exact .inl (hlook.tidy h)
  | ok g t =>
    rw [hg] at hlook
    rw [bind_ok hg]
    obtain ⟨w,hw⟩ := exists_vnode hlook.loaded
    rw [bind_ok (getVnode_eq hw)]
    -- the root is the only inode of another type
    by_cases htype : w.i.type = .file
    · left
      have hne : g.1 ≠ sfsRootLocation := by
        intro he
        rw [(hlook.inv.own.loadedOk hw).type,if_pos he] at htype
        cases htype
      have hkept := RootKept.of_file hlook.file
      have hholds := hlook.toTakes.holds h
      rw [assert_bind _ _ _ htype]
      refine (hlook.inv.dirLink hlook.root hlook.loaded n2).attempt_bind (fun k u hu => ?_)
        fun e u hu => ?_
      · exact (renameUnlink_inv hlook.inv hlook.root hlook.loaded hne hlook.used hlook.entry
          hu).mono (fun _ _ hx => hholds.then_tidy hkept hx)
          fun _ _ hx => hholds.then_tidy hkept hx
      · exact (hu.inv.decref (hu.loaded hlook.inv (.inl hlook.loaded))).bind_unerring fun _ x hx =>
          (hholds.trans (hu.holds hlook.inv)).then_tidy (hkept.trans hu.same.rootKept) hx.1
    · right
      have hroot : g.1 = sfsRootLocation := by
        by_contra hne
        rw [(hlook.inv.own.loadedOk hw).type,if_neg hne] at htype
        exact htype rfl
      refine ⟨⟨g.2,?_,?_⟩,?_⟩
      · rw [← hlook.file]
        exact hlook.used
      · rw [← hlook.file,hlook.entry,hroot]
      · rw [assert,if_neg htype]
        rfl

end

end Operations

section Exec

variable {s : Fs} {ino : Nat}

variable {v : SfsVnode} {α : Type} {L : Nat → Prop} {t : Fs}

theorem Inv.dir_root (h : Inv s) (hv : s.vnode ino = some v) :
    v.ops = .dir ↔ ino = sfsRootLocation := by
  rw [(h.own.vnodeOk hv).ops,vnode_ino hv]
  by_cases hi : ino = sfsRootLocation
  · simp [hi]
  · simp [hi]

theorem Inv.file_ne (h : Inv s) (hv : s.vnode ino = some v) (hops : v.ops = .file) :
    ino ≠ sfsRootLocation := by
  intro hi
  rw [(h.dir_root hv).mpr hi] at hops
  cases hops

theorem Inv.onDir {f : SfsM α} {Q : α → Fs → Prop} {E : Errno → Fs → Prop} (h : Inv s)
    (hl : s.loaded ino = true) (he : E .ENOTDIR s) (hf : ino = sfsRootLocation → (f s).Safe Q E) :
    (onDir ino f s).Safe Q E := by
  obtain ⟨v,hv⟩ := exists_vnode hl
  rw [Sfs.onDir,forOps,bind_ok (getVnode_eq hv)]
  by_cases hops : v.ops = .dir
  · rw [if_pos hops]
    exact hf ((h.dir_root hv).mp hops)
  · rw [if_neg hops]
    exact he

theorem Inv.onDir_root {f : SfsM α} (h : Inv s)
    (hl : s.loaded sfsRootLocation = true) : Sfs.onDir sfsRootLocation f s = f s := by
  obtain ⟨v,hv⟩ := exists_vnode hl
  rw [Sfs.onDir,forOps,bind_ok (getVnode_eq hv),if_pos ((h.dir_root hv).mpr rfl)]

theorem Inv.onFile {f : SfsM α} {Q : α → Fs → Prop} (h : Inv s) (hl : s.loaded ino = true)
    (hf : ino ≠ sfsRootLocation → (f s).Safe Q fun _ t => Tidy s t) :
    (onFile ino f s).Safe Q fun _ t => Tidy s t := by
  obtain ⟨v,hv⟩ := exists_vnode hl
  rw [Sfs.onFile,forOps,bind_ok (getVnode_eq hv)]
  by_cases hops : v.ops = .file
  · rw [if_pos hops]
    exact hf (h.file_ne hv hops)
  · rw [if_neg hops]
    exact h.tidy

def WriteOutcome (L : Nat → Prop) (ino : Nat) (r : Request) (s : Fs)
    (out : Except Errno Unit × Uio) (t : Fs) : Prop :=
  match out.1 with
  | .ok _ => Written L ino r.offset r.length (s,r.uio .write) (t,out.2)
  | .error e => ∃ n, Breaks r.offset r.length n ∧
      Written L ino r.offset n (s,r.uio .write) (t,out.2) ∧
      WriteError ino r.offset n r.length (s,r.uio .write) e

theorem sfsReadWrite_write (h : Own s L none) (hv : s.vnode ino = some v) (r : Request) :
    (sfsReadWrite ino (r.uio .write) s).Safe (WriteOutcome L ino r s) fun _ _ => False :=
  Outcome.Safe.withLocal ((sfsIo_write h hv ⟨rfl,rfl,r.offset.isLt⟩ r.length.isLt).attempt
    (fun _ _ hy => hy) fun _ _ hy => hy)

theorem WriteOutcome.becomes {r : Request} {out : Except Errno Unit × Uio}
    (h : WriteOutcome L ino r s out t) : Own t L none ∧
      ∃ n, Becomes L ino ((s.fileAt ino).write r.offset n r.buf 0) s t := by
  obtain ⟨res,u⟩ := out
  cases res with
  | ok a => exact ⟨Written.own h,_,Written.becomes h⟩
  | error e =>
    obtain ⟨n,_,hw,_⟩ := h
    exact ⟨hw.own,n,hw.becomes⟩

def ReadOutcome (ino : Nat) (r : Request) (s : Fs) (size : Nat)
    (out : Except Errno Unit × Uio) (t : Fs) : Prop :=
  t = s ∧ match out.1 with
  | .ok _ => ∃ n, out.2 = (r.uio .read).took n (s.byteAt ino) r.offset ∧
      (r.offset.val + r.length < 2^31 → n = min r.length.val (size - r.offset))
  | .error e => ReadError r.offset r.length (r.uio .read) e

theorem sfsReadWrite_read (h : Own s L none) (hv : s.vnode ino = some v) (r : Request) :
    (sfsReadWrite ino (r.uio .read) s).Safe (ReadOutcome ino r s v.i.size) fun _ _ => False := by
  refine Outcome.Safe.withLocal ((sfsIo_read h hv rfl rfl r.offset.isLt r.length.isLt).attempt
    (fun _ y hy => ?_) fun _ y hy => ⟨hy.1,hy.2.2⟩)
  obtain ⟨n,rfl,hn⟩ := hy
  exact ⟨rfl,n,rfl,hn⟩

theorem vopTruncate_inv (h : Inv s) (hl : s.loaded ino = true) (len : Fin (2^31)) :
    (vopTruncate ino len s).Safe (fun _ t => Inv t ∧ RootKept s t)
      fun _ t => Inv t ∧ RootKept s t := by
  obtain ⟨v,hv⟩ := exists_vnode hl
  have hu : toU32 (len.val : Int) = len.val := toU32_natCast (by omega)
  rw [vopTruncate,bind_ok (getVnode_eq hv)]
  cases hops : v.ops with
  | dir => exact ⟨h,fun hs => hs⟩
  | file =>
    have hne := h.file_ne hv hops
    refine (sfsTruncate_spec h.own hv (by rw [hu]; exact len.isLt)).mono (fun _ t ht => ?_)
      fun _ _ hf => hf.elim
    exact ⟨h.becomes ht.1 ht.2.1 (fun hi => (hne hi).elim) rfl,
      .of_file (ht.2.1.others _ (live_root s) hne.symm)⟩

theorem sfsGetroot_takes (h : Inv s) : (sfsGetroot s).Safe
    (fun i t => i = sfsRootLocation ∧ Takes s t (oneRef sfsRootLocation)) fun _ _ => False := by
  rw [sfsGetroot]
  exact (h.load (live_root s)).attempt_bind (fun _ t ht => ⟨rfl,ht⟩) fun _ _ hf => hf.elim

/-- The calls that put no bytes into a file and take none out of it. -/
def Act.quiet : Act → Bool
  | .write _ _ | .truncate _ _ => false
  | _ => true

/-- The call that can give the root directory a name. -/
def Act.linksRoot : Act → Bool
  | .link _ _ file => file == sfsRootLocation
  | _ => false

structure Act.Leaves (a : Act) (s t : Fs) : Prop extends Orderly s t where
  root : a.linksRoot = false → RootKept s t

theorem Tidy.leaves (h : Tidy s t) (a : Act) : a.Leaves s t := ⟨h.toOrderly,fun _ => h.root⟩

/-- Only a rename of the root directory stops the machine. -/
theorem exec_leaves (h : Inv s) (a : Act) (hq : a.quiet = true)
    (ha : ∀ i ∈ a.handles, s.loaded i = true) :
    (exec a s).Safe (fun _ t => a.Leaves s t) (fun _ t => a.Leaves s t) ∨
      s.root.names sfsRootLocation ∧ exec a s = .panic .renameType := by
  have htidy : (exec a s).Safe (fun _ t => Tidy s t) (fun _ t => Tidy s t) →
      (exec a s).Safe (fun _ t => a.Leaves s t) (fun _ t => a.Leaves s t) :=
    fun hsafe => hsafe.mono (fun _ _ ht => ht.leaves a) fun _ _ ht => ht.leaves a
  cases a with
  | getroot =>
    refine .inl (htidy ?_)
    rw [exec]
    exact (sfsGetroot_takes h).bind_unerring fun _ _ ht => ht.2.tidy h
  | lookup dir name =>
    have hl := ha dir (by simp [Act.handles])
    refine .inl (htidy (h.onDir hl h.tidy fun hd => ?_))
    subst hd
    exact (sfsLookonce_spec h hl name).bind (fun _ _ ht => ht.toTakes.tidy h) fun _ _ ht => ht.tidy h
  | creat dir name excl =>
    have hl := ha dir (by simp [Act.handles])
    refine .inl (htidy (h.onDir hl h.tidy fun hd => ?_))
    subst hd
    exact (sfsCreat_inv h hl name excl).andThen fun _ t ht => ht.1
  | link dir name file =>
    have hl := ha dir (by simp [Act.handles])
    have hlink : (exec (.link dir name file) s).Safe
        (fun _ t => (Act.link dir name file).Leaves s t) fun _ t => Tidy s t := by
      refine h.onDir hl h.tidy fun hd => ?_
      subst hd
      refine (sfsLink_inv h hl (ha file (by simp [Act.handles])) name).andThen fun _ t ht => ?_
      exact ⟨ht.1,fun hne => ht.2 (by simpa [Act.linksRoot] using hne)⟩
    exact .inl (hlink.mono (fun _ _ ht => ht) fun _ _ ht => ht.leaves _)
  | remove dir name =>
    have hl := ha dir (by simp [Act.handles])
    refine .inl (htidy (h.onDir hl h.tidy fun hd => ?_))
    subst hd
    exact (sfsRemove_inv h hl name).andThen fun _ t ht => ht
  | rename d1 n1 d2 n2 =>
    have hl1 := ha d1 (by simp [Act.handles])
    have hl2 := ha d2 (by simp [Act.handles])
    by_cases hd : d1 = sfsRootLocation ∧ d2 = sfsRootLocation
    · obtain ⟨rfl,rfl⟩ := hd
      have hexec : exec (.rename sfsRootLocation n1 sfsRootLocation n2) s =
          (sfsRename sfsRootLocation n1 sfsRootLocation n2 >>= fun _ => pure .nothing) s := by
        rw [exec,h.onDir_root hl1,h.onDir_root hl1]
      rcases sfsRename_inv h hl1 n1 n2 with hsafe | ⟨hnamed,hstop⟩
      · refine .inl (htidy ?_)
        rw [hexec]
        exact hsafe.andThen fun _ _ ht => ht
      · exact .inr ⟨hnamed,hexec.trans (bind_panic hstop)⟩
    · exact .inl (htidy (h.onDir hl1 h.tidy fun h1 => h.onDir hl2 h.tidy fun h2 => (hd ⟨h1,h2⟩).elim))
  | read ino r =>
    have hl := ha ino (by simp [Act.handles])
    obtain ⟨v,hv⟩ := exists_vnode hl
    refine .inl (htidy (h.onFile hl fun _ => ?_))
    refine (sfsReadWrite_read h.own hv r).bind_unerring fun _ t ht => ?_
    obtain ⟨rfl,_⟩ := ht
    exact h.tidy
  | write | truncate => cases hq
  | fsync ino =>
    have hl := ha ino (by simp [Act.handles])
    obtain ⟨v,hv⟩ := exists_vnode hl
    obtain ⟨t,hsync,ht⟩ := sfsSyncInode_spec h.own hv
    refine .inl (htidy ?_)
    rw [exec,bind_ok hsync]
    exact ht.becomes.holds.tidy ht.becomes.same.rootKept
      (h.becomes ht.own ht.becomes (fun hi => by rw [hi]) rfl)
  | incref ino =>
    have hl := ha ino (by simp [Act.handles])
    obtain ⟨v,hv⟩ := exists_vnode hl
    refine .inl (htidy ?_)
    rw [exec,bind_ok (vnodeIncref_eq s ino)]
    exact h.released hl (h.own.recounted (g := (· + 1)) hv (Nat.succ_pos _))
  | decref ino =>
    refine .inl (htidy ?_)
    rw [exec]
    exact (h.decref (ha ino (by simp [Act.handles]))).bind_unerring fun _ _ ht => ht.1
  | reclaim ino =>
    refine .inl (htidy ?_)
    rw [exec]
    exact (h.reclaim (ha ino (by simp [Act.handles]))).andThen fun _ _ ht => ht

theorem exec_quiet (h : Inv s) (a : Act) (hq : a.quiet = true)
    (ha : ∀ i ∈ a.handles, s.loaded i = true) :
    (exec a s).Safe (fun _ t => Orderly s t) (fun _ t => Orderly s t) ∨
      exec a s = .panic .renameType :=
  (exec_leaves h a hq ha).imp
    (fun hsafe => hsafe.mono (fun _ _ ht => ht.toOrderly) fun _ _ ht => ht.toOrderly) And.right

/-- No call breaks the invariant, and only a link of the root gives the root a name. -/
theorem exec_rootKept (h : Inv s) (a : Act) (ha : ∀ i ∈ a.handles, s.loaded i = true) :
    (exec a s).Safe (fun _ t => Inv t ∧ (a.linksRoot = false → RootKept s t))
        (fun _ t => Inv t ∧ (a.linksRoot = false → RootKept s t)) ∨
      s.root.names sfsRootLocation ∧ exec a s = .panic .renameType := by
  by_cases hq : a.quiet = true
  · exact (exec_leaves h a hq ha).imp_left fun hsafe =>
      hsafe.mono (fun _ _ ht => ⟨ht.inv,ht.root⟩) fun _ _ ht => ⟨ht.inv,ht.root⟩
  · left
    cases a with
    | write ino r =>
      have hl := ha ino (by simp [Act.handles])
      obtain ⟨v,hv⟩ := exists_vnode hl
      have hw : (exec (.write ino r) s).Safe (fun _ t => Inv t ∧ RootKept s t)
          fun _ t => Tidy s t := by
        refine h.onFile hl fun hne => ?_
        refine (sfsReadWrite_write h.own hv r).bind_unerring fun _ t ht => ?_
        obtain ⟨hown,n,hb⟩ := ht.becomes
        exact ⟨h.becomes hown hb (fun hi => (hne hi).elim) rfl,
          .of_file (hb.others _ (live_root s) hne.symm)⟩
      exact hw.mono (fun _ _ ht => ⟨ht.1,fun _ => ht.2⟩) fun _ _ ht => ⟨ht.inv,fun _ => ht.root⟩
    | truncate ino len =>
      rw [exec]
      exact (vopTruncate_inv h (ha ino (by simp [Act.handles])) len).bind
        (fun _ _ ht => ⟨ht.1,fun _ => ht.2⟩) fun _ _ ht => ⟨ht.1,fun _ => ht.2⟩
    | _ => exact (hq rfl).elim

theorem exec_inv (h : Inv s) (a : Act) (ha : ∀ i ∈ a.handles, s.loaded i = true) :
    (exec a s).Safe (fun _ t => Inv t) (fun _ t => Inv t) ∨ exec a s = .panic .renameType :=
  (exec_rootKept h a ha).imp
    (fun hsafe => hsafe.mono (fun _ _ ht => ht.1) fun _ _ ht => ht.1) And.right

section

variable (h : Inv s)

include h

theorem exec_lookup_takes (hl : s.loaded ino = true) (name : Name) :
    (exec (.lookup ino name) s).Safe (fun r t => ∃ i, r = .vnode i ∧ Takes s t (oneRef i))
      fun _ t => Takes s t fun _ => 0 := by
  refine h.onDir hl (Takes.refl h) fun hroot => ?_
  subst hroot
  exact (sfsLookonce_spec h hl name).andThen fun g _ ht => ⟨g.1,rfl,ht.toTakes⟩

theorem exec_creat_takes (hl : s.loaded ino = true) (name : Name) (excl : Bool) :
    (exec (.creat ino name excl) s).Safe
      (fun r t => ∃ i, r = .vnode i ∧
        ((Takes s t (oneRef i) ∧ s.hasName name) ∨ NewFile s name i t))
      fun _ t => Takes s t fun _ => 0 := by
  refine h.onDir hl (Takes.refl h) fun hroot => ?_
  subst hroot
  exact (sfsCreat_spec h hl name excl).andThen fun b _ ht => ⟨b,rfl,ht.imp_left And.right⟩

theorem exec_incref_takes (hl : s.loaded ino = true) :
    (exec (.incref ino) s).Safe (fun _ t => Takes s t (oneRef ino)) fun _ _ => False := by
  obtain ⟨t,hup,ht⟩ := vnodeIncref_takes h hl
  rw [exec,bind_ok hup]
  exact ht

theorem exec_fsync_takes (hl : s.loaded ino = true) :
    (exec (.fsync ino) s).Safe (fun _ t => Takes s t fun _ => 0) fun _ _ => False := by
  obtain ⟨v,hv⟩ := exists_vnode hl
  obtain ⟨t,hsync,ht⟩ := sfsSyncInode_spec h.own hv
  rw [exec,bind_ok hsync]
  exact Becomes.takes ht.own ht.becomes h

/-- Only a directory refuses to be truncated, and nothing has changed then. -/
theorem vopTruncate_fails (hl : s.loaded ino = true) (len : Fin (2^31)) :
    (vopTruncate ino len s).Safe (fun _ _ => True) fun _ t => t = s ∧ ino = sfsRootLocation := by
  obtain ⟨v,hv⟩ := exists_vnode hl
  have hu : toU32 (len.val : Int) = len.val := toU32_natCast (by omega)
  rw [vopTruncate,bind_ok (getVnode_eq hv)]
  cases hops : v.ops with
  | dir => exact ⟨rfl,(h.dir_root hv).mp hops⟩
  | file =>
    exact (sfsTruncate_spec h.own hv (by rw [hu]; exact len.isLt)).mono (fun _ _ _ => True.intro)
      fun _ _ hf => hf.elim

end

end Exec

section Reachable

variable {s t : Fs} {a : Act}

theorem step_handles (h : step s a = some t) : ∀ i ∈ a.handles, s.loaded i = true := by
  unfold step at h
  split at h
  · next hall => exact fun i hi => List.all_eq_true.mp hall i hi
  · cases h

theorem step_exec (h : step s a = some t) : (∃ r, exec a s = .ok r t) ∨ ∃ e, exec a s = .err e t := by
  unfold step at h
  split at h
  · split at h
    · next r u hr => exact .inl ⟨r,(Option.some.inj h) ▸ hr⟩
    · next e u he => exact .inr ⟨e,(Option.some.inj h) ▸ he⟩
    · cases h
  · cases h

theorem step_ok {r : Reply} {u : Fs} (h : step s a = some t) (he : exec a s = .ok r u) : t = u := by
  rcases step_exec h with ⟨_,hr⟩ | ⟨_,hr⟩
  · rw [hr] at he
    exact (Outcome.ok.inj he).2
  · rw [hr] at he
    cases he

theorem step_err {e : Errno} {u : Fs} (h : step s a = some t) (he : exec a s = .err e u) : t = u := by
  rcases step_exec h with ⟨_,hr⟩ | ⟨_,hr⟩
  · rw [hr] at he
    cases he
  · rw [hr] at he
    exact (Outcome.err.inj he).2

theorem step_of_ok {r : Reply} (ha : ∀ i ∈ a.handles, s.loaded i = true)
    (he : exec a s = .ok r t) : step s a = some t := by
  have hall : (a.handles.all fun ino => (s.vnode ino).isSome) = true := List.all_eq_true.mpr ha
  unfold step
  rw [if_pos hall,he]

/-- What a call leaves behind if it does not stop the machine. -/
theorem step_safe {P : Fs → Prop} {p : Panic} (hs : step s a = some t)
    (h : (exec a s).Safe (fun _ u => P u) (fun _ u => P u) ∨ exec a s = .panic p) : P t := by
  rcases step_exec hs with ⟨_,hr⟩ | ⟨_,hr⟩
  · rw [hr] at h
    exact h.resolve_right nofun
  · rw [hr] at h
    exact h.resolve_right nofun

theorem step_inv (h : Inv s) (hs : step s a = some t) : Inv t :=
  step_safe hs (exec_inv h a (step_handles hs))

theorem run_inv {acts : List Act} (h : Inv s) (hr : run step s acts = some t) : Inv t :=
  run_keeps (fun _ _ _ h _ hs => step_inv h hs) h (Along.trivial step s acts) hr

theorem only_renameType (h : Inv s) (ha : ∀ i ∈ a.handles, s.loaded i = true) (p : Panic)
    (hp : p ≠ .renameType) : exec a s ≠ .panic p := by
  intro he
  rcases exec_inv h a ha with hsafe | hstop
  · rw [he] at hsafe
    exact hsafe
  · rw [he] at hstop
    exact hp (Outcome.panic.inj hstop)

/-- kmalloc will succeed and fail as `ks` says. -/
def Fs.answering (ks : List Bool) (s : Fs) : Fs := { s with kmallocs := ks }

theorem sfsBalloc_answering (ks : List Bool) (s : Fs) :
    sfsBalloc (s.answering ks) = (sfsBalloc s).after (Fs.answering ks) := by
  rw [sfsBalloc,get_bind,get_bind,show (s.answering ks).freemap = s.freemap from rfl]
  cases s.freemap.alloc with
  | error => rfl
  | ok r =>
    rcases r with _ | ⟨b,m⟩
    · rfl
    · obtain ⟨f,hf⟩ := sfsWblock_onDevice zeros b
      simp only [modify_bind,sfsClearblock,hf,show (s.answering ks).super = s.super from rfl]
      split
      · rfl
      · exact Outcome.after_bind (g := Fs.answering ks)
          (s := { s with freemap := m, freemapdirty := true })
          (Outcome.after_zoom rfl (fun _ => rfl) f) fun _ _ _ => by rfl

theorem Own.pending_alone {L : Nat → Prop} {b : Nat} (h : Own s L (some b)) (o : Owner) :
    ¬ owns s L none o b := by
  intro ho
  have hsome : owns s L (some b) o b := by
    cases o with
    | pending => rfl
    | _ => exact ho
  cases h.exact.unique o .pending b hsome rfl
  cases ho

end Reachable

section Volumes

variable {volname : Name} {stSize : Fin (2^31)} {image : Nat → Block} {s t u : Fs} {acts : List Act}

theorem reachable_inv (hs : volume volname stSize image = some s)
    (ht : run step s acts = some t) : Inv t := run_inv (volume_inv hs) ht

def Name.none : Name := ⟨[],List.not_mem_nil⟩

def Name.a : Name := ⟨[97],by decide⟩

def Request.fill (offset : Fin (2^31)) (length : Fin (2^32)) (b : Byte) : Request :=
  ⟨offset,length,fun _ => b,fun _ => false⟩

/-- A volume of 4096 blocks, with one freemap block and no padding in it. -/
def volume4096 : Option Fs := volume Name.none 2097152 fun _ => zeros

def newFile : List Act := [.getroot,.creat sfsRootLocation Name.a false]

theorem volume4096_run : ∃ s t, volume4096 = some s ∧ run step s newFile = some t := by
  have h : (volume4096.any fun s => (run step s newFile).any fun _ => true) = true := by
    decide +kernel
  obtain ⟨s,hs,h⟩ := some_of_any h
  obtain ⟨t,ht,_⟩ := some_of_any h
  exact ⟨s,t,hs,ht⟩

/-- In every state of a volume each marked block has exactly one owner, every
block an inode refers to is marked, and no call finds the books in disorder. -/
theorem blocks_owned_once (hs : volume volname stSize image = some s)
    (ht : run step s acts = some t) :
    (∀ b, b < t.super.nblocks → t.freemap.isset b = true → ∃! o, owns t (Live t) none o b) ∧
    (∀ o b, owns t (Live t) none o b → b < t.super.nblocks ∧ t.freemap.isset b = true) ∧
    ∀ a, (∀ i ∈ a.handles, t.loaded i = true) → ∀ b k i,
      exec a t ≠ .panic (.markedFree b k i) ∧ exec a t ≠ .panic (.foundUnallocated i) ∧
      exec a t ≠ .panic (.loadUnallocated i) ∧ exec a t ≠ .panic (.ballocInvalid b) ∧
      exec a t ≠ .panic (.busedRange b) := by
  have h := reachable_inv hs ht
  refine ⟨fun b hb hset => ?_,fun o b ho => h.own.exact.sound o b ho,fun a ha b k i => ?_⟩
  · obtain ⟨o,ho⟩ := h.own.exact.owner b ⟨hb,hset⟩
    exact ⟨o,ho,fun o' ho' => h.own.exact.unique o' o b ho' ho⟩
  · have hpanic : ∀ p, p ≠ .renameType → exec a t ≠ .panic p := only_renameType h ha
    exact ⟨hpanic _ nofun,hpanic _ nofun,hpanic _ nofun,hpanic _ nofun,hpanic _ nofun⟩

theorem blocks_owned_once_newFile : ∃ s t, volume4096 = some s ∧
    run step s newFile = some t ∧
    (∀ b, b < t.super.nblocks → t.freemap.isset b = true → ∃! o, owns t (Live t) none o b) := by
  obtain ⟨s,t,hs,ht⟩ := volume4096_run
  exact ⟨s,t,hs,ht,(blocks_owned_once hs ht).1⟩

/-- In every state of a volume the directory has distinct, terminated names, and
link counts are the numbers of names. -/
theorem links_counted (hs : volume volname stSize image = some s)
    (ht : run step s acts = some t) :
    t.root.size % sizeofDir = 0 ∧
    (∀ j k, t.root.used j → t.root.used k →
      (t.root.entry j).text = (t.root.entry k).text →
      j = k) ∧
    (∀ k, t.root.used k →
      ∃ j, j < sfsNamelen ∧ (t.root.entry k).name j = 0) ∧
    (∀ i, Live t i → (t.inodeAt i).linkcount =
      t.root.links i + rootLink i ∧ (t.inodeAt i).linkcount < 2^16) ∧
    ∀ a, (∀ i ∈ a.handles, t.loaded i = true) → ∀ i n,
      exec a t ≠ .panic .findnameFound ∧ exec a t ≠ .panic .removeLinkcount ∧
      exec a t ≠ .panic .nentriesType ∧ exec a t ≠ .panic (.nentriesSize i n) ∧
      exec a t ≠ .panic (.lookonceLinkcount i n) := by
  have h := reachable_inv hs ht
  have hdir := h.directory
  refine ⟨hdir.size,hdir.names,hdir.nul,fun i hi => ?_,fun a ha i n => ?_⟩
  · have hlinks : (t.inodeAt i).linkcount = _ := h.links i hi
    have hbound := links_bound hdir i
    exact ⟨hlinks,by omega⟩
  · have hpanic : ∀ p, p ≠ .renameType → exec a t ≠ .panic p := only_renameType h ha
    exact ⟨hpanic _ nofun,hpanic _ nofun,hpanic _ nofun,hpanic _ nofun,hpanic _ nofun⟩

theorem links_counted_newFile : ∃ s t, volume4096 = some s ∧ run step s newFile = some t ∧
    (∀ i, Live t i → (t.inodeAt i).linkcount =
      t.root.links i + rootLink i ∧ (t.inodeAt i).linkcount < 2^16) := by
  obtain ⟨s,t,hs,ht⟩ := volume4096_run
  exact ⟨s,t,hs,ht,(links_counted hs ht).2.2.2.1⟩

/-- As long as no call gives the root directory a name, no call stops the machine. -/
theorem calls_never_panic (hs : volume volname stSize image = some s)
    (ht : run step s acts = some t) (hl : Along step (fun _ a => a.linksRoot = false) s acts)
    (a : Act) (ha : ∀ i ∈ a.handles, t.loaded i = true) (p : Panic) : exec a t ≠ .panic p := by
  have hroot : Inv t ∧ ¬ t.root.names sfsRootLocation := by
    refine run_keeps (I := fun v => Inv v ∧ ¬ v.root.names sfsRootLocation)
      (fun v b w hv hb hw => ?_) ⟨volume_inv hs,?_⟩ hl ht
    · have hkept := step_safe hw ((exec_rootKept hv.1 b (step_handles hw)).imp_right And.right)
      exact ⟨hkept.1,fun hn => hv.2 (hkept.2 hb hn)⟩
    · obtain ⟨d,hd,rfl⟩ := volume_mounted hs
      exact fun ⟨k,hk,_⟩ => hd.unused k hk
  intro hp
  have hsafe := (exec_rootKept hroot.1 a ha).resolve_right fun hn => hroot.2 hn.1
  rwa [hp] at hsafe

theorem calls_never_panic_newFile : ∃ s t, volume4096 = some s ∧ run step s newFile = some t ∧
    ∀ a, (∀ i ∈ a.handles, t.loaded i = true) → ∀ p, exec a t ≠ .panic p := by
  obtain ⟨s,t,hs,ht⟩ := volume4096_run
  exact ⟨s,t,hs,ht,calls_never_panic hs ht ⟨rfl,fun _ _ => ⟨rfl,fun _ _ => True.intro⟩⟩⟩

/-- A file that stays in use keeps its size and its bytes while calls neither write nor truncate. -/
theorem quiet_calls_keep_contents {calls : List Act} {i : Nat}
    (hs : volume volname stSize image = some s) (ht : run step s acts = some t)
    (hu : run step t calls = some u)
    (hq : Along step (fun v a => a.quiet = true ∧ Live v i) t calls) (hi : Live u i)
    (hne : i ≠ sfsRootLocation) : u.contents i = t.contents i := by
  refine (run_keeps (I := fun v => Inv v ∧ (Live v i → v.contents i = t.contents i))
    (fun v a w hv hc hw => ?_) ⟨reachable_inv hs ht,fun _ => rfl⟩ hq hu).2 hi
  have hleaves := step_safe hw ((exec_leaves hv.1 a hc.1 (step_handles hw)).imp_right And.right)
  exact ⟨hleaves.inv,fun hlive => (hleaves.keeps i hc.2 hlive hne).trans (hv.2 hc.2)⟩

theorem quiet_calls_keep_contents_lookup : ∃ s t u, volume4096 = some s ∧
    run step s newFile = some t ∧ run step t [.lookup sfsRootLocation Name.a] = some u ∧
    u.contents 3 = t.contents 3 := by
  have h : (volume4096.any fun s => (run step s newFile).any fun t => t.loaded 3 &&
      (run step t [.lookup sfsRootLocation Name.a]).any (Fs.loaded · 3)) = true := by decide +kernel
  obtain ⟨s,hs,h⟩ := some_of_any h
  obtain ⟨t,ht,h⟩ := some_of_any h
  obtain ⟨hl,h⟩ := Bool.and_eq_true_iff.mp h
  obtain ⟨u,hu,hl'⟩ := some_of_any h
  exact ⟨s,t,u,hs,ht,hu,quiet_calls_keep_contents hs ht hu
    ⟨⟨rfl,.inr (.inr hl)⟩,fun _ _ => True.intro⟩ (.inr (.inr hl')) (by decide)⟩

/-- If there is no memory for the vnode, the block of a new file stays marked and nobody owns it. -/
theorem makeobj_leaks_block {b : Nat} (hs : volume volname stSize image = some s)
    (ht : run step s acts = some t) (hal : sfsBalloc t = .ok b u) (ks : List Bool) :
    sfsMakeobj .file (t.answering (false :: ks)) = .err .ENOMEM (u.answering ks) ∧
      ¬ t.held b ∧ u.held b ∧ ∀ o, ¬ owns u (Live u) none o b := by
  have h := (reachable_inv hs ht).own
  have hfail := sfsBalloc_answering (false :: ks) t
  rw [hal] at hfail
  rcases h.geo.balloc with ⟨c,hc,hfree⟩ | ⟨hfull,_⟩
  · cases hal.symm.trans hc
    have hown := h.taken hfree
    have hload : ¬ (t.taken b).loaded b = true := fun hl =>
      (h.plain_of_free hfree).inode (.inr (.inr hl))
    have hsearch := searchVnodes_eq (s := (t.taken b).answering (false :: ks)) b
      fun w hw => hown.exact.sound (.inode w.ino) _ ⟨(hown.vnodes w hw).live,rfl⟩
    rw [any_vnode] at hsearch
    have hlive : Live (t.taken b) = Live t := by
      funext i
      rw [Live,Fs.root,taken_fileAt h hfree (live_root t)]
      rfl
    refine ⟨?_,hfree.1,hown.exact.sound .pending b rfl,fun o ho => ?_⟩
    · rw [sfsMakeobj,bind_ok hfail,sfsLoadvnode]
      refine bind_err ((bind_ok hsearch).trans ?_)
      rw [if_neg hload]
      exact bind_err rfl
    · exact hown.pending_alone o (hlive ▸ ho)
  · rw [hal] at hfull
    cases hfull

theorem makeobj_leaks_block_newFile : ∃ s t b u, volume4096 = some s ∧
    run step s newFile = some t ∧ sfsBalloc t = .ok b u ∧
    sfsMakeobj .file (t.answering [false]) = .err .ENOMEM (u.answering []) ∧
    u.held b ∧ ∀ o, ¬ owns u (Live u) none o b := by
  have h : (volume4096.any fun s => (run step s newFile).any fun t =>
      (sfsBalloc t).test fun _ _ => true) = true := by decide +kernel
  obtain ⟨s,hs,h⟩ := some_of_any h
  obtain ⟨t,ht,h⟩ := some_of_any h
  obtain ⟨b,u,hal,_⟩ := Outcome.test_eq_true h
  obtain ⟨herr,_,hleft⟩ := makeobj_leaks_block hs ht hal []
  exact ⟨s,t,b,u,hs,ht,hal,herr,hleft⟩

end Volumes

end MipsOs.Sfs
