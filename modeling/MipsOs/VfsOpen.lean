import MipsOs.VfsVolume

/-! An open that fails: the references and opens that vfs_open holds on its way, for the operations
of a volume. -/

set_option autoImplicit false
namespace MipsOs.Vfs
open Prog Function Runs
open Sfs (sfsRootLocation Act exec)

section Volume

variable {φ π G W α : Type} {w w' : World φ} {m n : List (Nat ⊕ W)}

theorem call_within {F V : Type} {f : Prog φ Errno π α} {s : Sys φ F V} {Q : α → φ → Prop}
    {E : Errno → φ → Prop} {P : Prop} (h : (f s.world).Within Q E P) :
    (call f s : Outcome (Sys φ F V) Errno π α).Within (fun a t => Q a t.world)
      (fun e t => E e t.world) P := Outcome.Within.zoom h

def isIno (i : Nat) : Nat ⊕ W → Bool
  | .inl j => j == i
  | .inr _ => false

/-- From `w` on only the references `m` and the opens `n` have been added to the volume. -/
structure Near (w : World φ) (m n : List (Nat ⊕ W)) (w' : World φ) : Prop where
  takes : Sfs.Takes w.fs w'.fs fun i => m.countP (isIno i)
  opens : ∀ i, w'.opencount i = w.opencount i + n.countP (isIno i)

theorem countP_inl (j : Nat) (m : List (Nat ⊕ W)) (i : Nat) :
    (.inl j :: m).countP (isIno i) = m.countP (isIno i) + Sfs.oneRef j i := by
  rw [List.countP_cons,Sfs.oneRef]
  by_cases hi : i = j
  · simp [isIno,hi]
  · simp [isIno,hi,Ne.symm hi]

theorem countP_inr (v : W) (m : List (Nat ⊕ W)) (i : Nat) :
    (.inr v :: m).countP (isIno i) = m.countP (isIno i) := by
  rw [List.countP_cons]
  rfl

theorem Near.swap {u v : Nat ⊕ W} (h : Near w (u :: v :: m) n w') : Near w (v :: u :: m) n w' :=
  ⟨h.takes.congr fun _ => (List.Perm.swap u v m).countP_eq _,h.opens⟩

variable {v : W} {t : Sfs.Fs} {i : Nat}

theorem Near.also (h : Near w m n w') : Near w (.inr v :: m) n w' :=
  ⟨h.takes.congr fun i => countP_inr v m i,h.opens⟩

theorem Near.without (h : Near w (.inr v :: m) n w') : Near w m n w' :=
  ⟨h.takes.congr fun i => (countP_inr v m i).symm,h.opens⟩

theorem Near.alsoOpen (h : Near w m n w') : Near w m (.inr v :: n) w' :=
  ⟨h.takes,fun i => by rw [countP_inr]; exact h.opens i⟩

theorem Near.withoutOpen (h : Near w m (.inr v :: n) w') : Near w m n w' :=
  ⟨h.takes,fun i => by rw [h.opens,countP_inr]⟩

theorem Near.rest (h : Near w m n w') (x : φ) : Near w m n { w' with rest := x } :=
  ⟨h.takes,h.opens⟩

theorem Near.step (h : Near w m n w') (hw : InOrder w)
    (ht : Sfs.Takes w'.fs t (Sfs.oneRef i)) : Near w (.inl i :: m) n { w' with fs := t } :=
  ⟨(h.takes.trans hw ht).congr fun j => countP_inl i m j,h.opens⟩

theorem Near.stay (h : Near w m n w') (hw : InOrder w)
    (ht : Sfs.Takes w'.fs t fun _ => 0) : Near w m n { w' with fs := t } :=
  ⟨h.takes.trans hw ht,h.opens⟩

section Acts

variable {a : Act} {E : Errno → World φ → Prop}

theorem onAct_within {Q : Sfs.Reply → World φ → Prop}
    (h : (∀ i ∈ a.handles, w.fs.loaded i = true) → (exec a w.fs).Safe
      (fun r u => Q r { w with fs := u }) fun e u => E e { w with fs := u }) :
    (onAct (π := π) a w).Within Q E True := by
  unfold onAct
  split
  · next hall =>
    have hsafe := h fun i hi => List.all_eq_true.mp hall i hi
    cases hr : exec a w.fs with
    | ok r u | err e u =>
      rw [hr] at hsafe
      simp only
      split
      · exact True.intro
      · exact hsafe
    | panic p => exact True.intro
  · exact True.intro

theorem done_within {Q : World φ → Prop}
    (h : (∀ i ∈ a.handles, w.fs.loaded i = true) → (exec a w.fs).Safe
      (fun _ u => Q { w with fs := u }) fun e u => E e { w with fs := u }) :
    (done (π := π) a w).Within (fun _ => Q) E True :=
  (onAct_within (Q := fun _ => Q) h).andThen fun _ _ ht => ht

theorem handsBack_within {Q : Nat ⊕ W → World φ → Prop}
    (h : (∀ i ∈ a.handles, w.fs.loaded i = true) → (exec a w.fs).Safe
      (fun r u => Q (.inl (replyIno r)) { w with fs := u }) fun e u => E e { w with fs := u }) :
    (handsBack (π := π) a w).Within Q E True :=
  (onAct_within (Q := fun r => Q (.inl (replyIno r))) h).andThen fun _ _ ht => ht

end Acts

theorem onRest_within (f : Prog φ Errno π α) {Q E : World φ → Prop}
    (hq : ∀ x, Q { w with rest := x }) (he : ∀ x, E { w with rest := x }) :
    (onRest (π := π) f w).Within (fun _ => Q) (fun _ => E) True := by
  unfold onRest
  split
  · exact hq _
  · exact he _
  · exact True.intro

/-- The functions of the other file systems that return no error code in the source. -/
structure Ops.Silent (x : Ops φ π G W) : Prop where
  incref : ∀ v s, (x.incref v s).Within (fun _ _ => True) (fun _ _ => False) True
  decref : ∀ v s, (x.decref v s).Within (fun _ _ => True) (fun _ _ => False) True
  incopen : ∀ v s, (x.incopen v s).Within (fun _ _ => True) (fun _ _ => False) True
  decopen : ∀ v s, (x.decopen v s).Within (fun _ _ => True) (fun _ _ => False) True
  fsGetroot : ∀ g s, (x.fsGetroot g s).Within (fun _ _ => True) (fun _ _ => False) True

theorem onRest_silent {f : Prog φ Errno π α}
    (hf : (f w.rest).Within (fun _ _ => True) (fun _ _ => False) True) {Q : World φ → Prop}
    (hq : ∀ x, Q { w with rest := x }) :
    (onRest (π := π) f w).Within (fun _ => Q) (fun _ _ => False) True := by
  unfold onRest
  split
  · exact hq _
  · next e x hx =>
    rw [hx] at hf
    exact hf.elim
  · exact True.intro

/-- The parent of a path on the volume is the directory at its start, and the name is the whole
path. -/
def OnVolume (sub : Str) (x : (Nat ⊕ W) × Str) : Prop := ∀ i, x.1 = .inl i → x.2 = sub

def World.hasName (w : World φ) (sub : Str) : Prop := w.fs.hasName (cname sub)

/-- A file has been made under a name that the volume did not have in `w`. -/
structure NewFile (w : World φ) (sub : Str) (v : Nat ⊕ W) (w' : World φ) : Prop where
  inOrder : InOrder w'
  file : ∃ i, v = .inl i ∧ i ≠ sfsRootLocation
  name : ¬ w.hasName sub
  changed : w'.fs.root ≠ w.fs.root

theorem NewFile.fs {sub : Str} {v : Nat ⊕ W} (h : NewFile w sub v w') (ht : Sfs.Inv t)
    (hroot : t.root = w'.fs.root) :
    NewFile w sub v { w' with fs := t } := ⟨ht,h.file,h.name,hroot ▸ h.changed⟩

theorem atVnode_within (i : Nat) : (atVnode (π := π) i w).Within
    (fun sv t => t = w ∧ w.fs.vnode i = some sv) (fun _ _ => False) True := by
  unfold atVnode
  split
  · next sv hsv => exact ⟨rfl,hsv⟩
  · exact True.intro

theorem sfsOpen_within (i flags : Nat) : (sfsOpen (π := π) i flags w).Within
    (fun _ t => t = w) (fun _ t => t = w) True := by
  rw [sfsOpen]
  refine (atVnode_within i).bind_unerring fun sv t ht => ?_
  obtain ⟨rfl,_⟩ := ht
  cases sv.ops with
  | file | dir =>
    simp only
    split
    · exact rfl
    · exact rfl

theorem incopen_near (h : Near w m n w') :
    (sfsIncopen (π := π) i w').Within (fun _ t => Near w m (.inl i :: n) t)
      (fun _ _ => False) True := by
  rw [sfsIncopen]
  refine (atVnode_within i).andThen fun sv t ht => ⟨?_,fun j => ?_⟩
  · rw [ht.1]
    exact h.takes
  · show update t.opencount i (t.opencount i + 1) j = _
    rw [ht.1,countP_inl,Sfs.oneRef]
    by_cases hj : j = i
    · subst hj
      rw [update_self,if_pos rfl,h.opens]
      omega
    · rw [update_of_ne hj,if_neg hj,h.opens]
      omega

theorem decopen_within {Q : World φ → Prop} (h : InOrder w')
    (hdec : Q { w' with opencount := update w'.opencount i (w'.opencount i - 1) })
    (hsync : ∀ u x, Sfs.Takes u.fs x (fun _ => 0) → Q u → Q { u with fs := x }) :
    (sfsDecopen (π := π) i w').Within (fun _ t => Q t) (fun _ _ => False) True := by
  rw [sfsDecopen]
  refine (atVnode_within i).andThen fun sv t ht => ?_
  obtain ⟨rfl,hsv⟩ := ht
  have hl : t.fs.loaded i = true := by
    rw [Sfs.Fs.loaded,hsv]
    rfl
  rw [get_bind]
  split
  · exact True.intro
  · rw [modify_bind]
    split
    · exact hdec
    · refine Outcome.Within.attempt_bind (onAct_within (Q := fun _ => Q) (E := fun _ _ => False)
        fun _ => ?_) (fun _ _ hu => hu) (fun _ _ hf => hf.elim) id
      exact (Sfs.exec_fsync_takes h hl).mono (fun _ x hx => hsync _ x hx hdec) fun _ _ hf => hf

section References

variable (hw : InOrder w)

include hw

variable {i : Nat}

theorem incref_near (h : Near w m n w') :
    (done (π := π) (.incref i) w').Within (fun _ t => Near w (.inl i :: m) n t)
      (fun _ _ => False) True :=
  done_within fun hl => (Sfs.exec_incref_takes h.takes.inv
    (hl i (by simp [Act.handles]))).mono (fun _ _ hu => h.step hw hu) fun _ _ hf => hf

theorem decref_near (h : Near w (.inl i :: m) n w') :
    (done (π := π) (.decref i) w').Within (fun _ t => Near w m n t)
      (fun _ _ => False) True := by
  refine done_within fun _ => ?_
  rw [exec]
  refine (h.takes.decref hw ?_ _ fun j => countP_inl i m j).andThen fun _ _ hu => ⟨hu,h.opens⟩
  rw [countP_inl,Sfs.oneRef_self]
  omega

theorem decopen_near (h : Near w m (.inl i :: n) w') :
    (sfsDecopen (π := π) i w').Within (fun _ t => Near w m n t)
      (fun _ _ => False) True := by
  refine decopen_within h.takes.inv ⟨h.takes,fun j => ?_⟩ fun _ _ hx hnear => hnear.stay hw hx
  have hj := h.opens j
  rw [countP_inl,Sfs.oneRef] at hj
  show update w'.opencount i (w'.opencount i - 1) j = _
  by_cases hji : j = i
  · subst hji
    rw [if_pos rfl] at hj
    rw [update_self]
    omega
  · rw [if_neg hji] at hj
    rw [update_of_ne hji]
    omega

theorem getroot_near (h : Near w m n w') :
    (handsBack .getroot w' : Outcome _ _ (Stop π) (Nat ⊕ W)).Within
      (fun v t => Near w (v :: m) n t) (fun _ _ => False) True := by
  refine handsBack_within fun _ => ?_
  rw [exec]
  refine (Sfs.sfsGetroot_takes h.takes.inv).andThen fun i u hu => ?_
  obtain ⟨rfl,hu⟩ := hu
  exact h.step hw hu

theorem lookup_near {name : Sfs.Name} (h : Near w m n w') :
    (handsBack (.lookup i name) w' : Outcome _ _ (Stop π) (Nat ⊕ W)).Within
      (fun v t => Near w (v :: m) n t) (fun _ t => Near w m n t) True := by
  refine handsBack_within fun hl => (Sfs.exec_lookup_takes h.takes.inv
    (hl i (by simp [Act.handles])) name).mono (fun r u hu => ?_) fun _ _ hu => h.stay hw hu
  obtain ⟨j,rfl,hu⟩ := hu
  exact h.step hw hu

theorem creat_near {sub : Str} {excl : Bool} (h : Near w m n w') :
    (handsBack (.creat i (cname sub) excl) w' : Outcome _ _ (Stop π) (Nat ⊕ W)).Within
      (fun v t => (Near w (v :: m) n t ∧ w.hasName sub) ∨ NewFile w sub v t)
      (fun _ t => Near w m n t) True := by
  have hroot := h.takes.same.root
  have hname : w'.fs.hasName (cname sub) ↔ w.hasName sub := by
    rw [World.hasName,Sfs.Fs.hasName,Sfs.Fs.hasName,hroot]
  refine handsBack_within fun hl => (Sfs.exec_creat_takes h.takes.inv
    (hl i (by simp [Act.handles])) (cname sub) excl).mono (fun r u hu => ?_)
    fun _ _ hu => h.stay hw hu
  obtain ⟨j,rfl,⟨hu,hn⟩ | hu⟩ := hu
  · exact .inl ⟨h.step hw hu,hname.mp hn⟩
  · exact .inr ⟨hu.tidy.inv,⟨j,rfl,fun hj => hu.new (.inl hj)⟩,fun hn => hu.absent (hname.mpr hn),
      hroot ▸ hu.changed⟩

theorem lookparent_near {path : Str} {buflen : Nat} (h : Near w m n w') :
    (sfsLookparent (π := π) i path buflen w').Within
      (fun r t => Near w (.inl r.1 :: m) n t ∧ r.2 = path) (fun _ t => Near w m n t) True := by
  rw [sfsLookparent]
  refine (atVnode_within i).bind_unerring fun sv t ht => ?_
  obtain ⟨rfl,_⟩ := ht
  split
  · exact h
  · split
    · exact h
    · exact (onAct_within (Q := fun _ => Near w (.inl i :: m) n) fun hl =>
        (Sfs.exec_incref_takes h.takes.inv (hl i (by simp [Act.handles]))).mono
          (fun _ _ hu => h.step hw hu) fun _ _ hf => hf.elim).andThen fun _ _ ht => ⟨ht,rfl⟩

end References

variable {sub : Str} {v : Nat ⊕ W}

theorem NewFile.opens {i : Nat} (h : NewFile (W := W) w sub (.inl i) w')
    (flags : Nat) : (sfsOpen (π := π) i flags w').Within (fun _ t => NewFile (W := W) w sub (.inl i) t)
      (fun _ t => flags &&& oAppend ≠ 0 ∧ NewFile (W := W) w sub (.inl i) t) True := by
  rw [sfsOpen]
  refine (atVnode_within i).bind_unerring fun sv t ht => ?_
  obtain ⟨rfl,hsv⟩ := ht
  obtain ⟨j,hj,hne⟩ := h.file
  cases hj
  cases hops : sv.ops with
  | file =>
    simp only
    split
    · next hflags => exact ⟨hflags,h⟩
    · exact h
  | dir => exact (hne ((h.inOrder.dir_root hsv).mp hops)).elim

theorem NewFile.truncates {i : Nat} (h : NewFile (W := W) w sub (.inl i) w') :
    (done (.truncate i (Fin.ofNat (2^31) 0)) w' : Outcome _ _ (Stop π) _).Within
      (fun _ _ => True) (fun _ _ => False) True := by
  obtain ⟨j,hj,hne⟩ := h.file
  cases hj
  refine done_within fun hl => ?_
  rw [exec]
  exact (Sfs.vopTruncate_fails h.inOrder (hl i (by simp [Act.handles])) _).bind
    (fun _ _ _ => True.intro) fun _ _ hf => hne hf.2

theorem NewFile.decref (h : NewFile w sub v w') :
    (done (π := π) (.decref i) w').Within (fun _ t => NewFile w sub v t)
      (fun _ _ => False) True := by
  refine done_within fun hl => ?_
  rw [exec]
  exact (h.inOrder.decref (hl i (by simp [Act.handles]))).andThen fun _ _ ht =>
    h.fs ht.1.inv ht.2

theorem NewFile.incopen (h : NewFile w sub v w') :
    (sfsIncopen (π := π) i w').Within (fun _ t => NewFile w sub v t)
      (fun _ _ => False) True := by
  rw [sfsIncopen]
  refine (atVnode_within i).andThen fun sv t ht => ?_
  obtain ⟨rfl,_⟩ := ht
  exact { h with }

theorem NewFile.decopen (h : NewFile w sub v w') :
    (sfsDecopen (π := π) i w').Within (fun _ t => NewFile w sub v t) (fun _ _ => False) True :=
  decopen_within h.inOrder { h with } fun _ _ hx h => h.fs hx.inv hx.same.root

theorem truncate_near (h : Near w m n w') :
    (done (.truncate i (Fin.ofNat (2^31) 0)) w' : Outcome _ _ (Stop π) _).Within
      (fun _ _ => True) (fun _ t => Near w m n t) True := by
  refine done_within fun hl => ?_
  rw [exec]
  exact (Sfs.vopTruncate_fails h.takes.inv (hl i (by simp [Act.handles])) _).bind
    (fun _ _ _ => True.intro) fun _ _ hf => hf.1 ▸ h

theorem fsGetroot_near {x : Ops φ π G W} (hx : x.Silent) {volname : Str} (hw : InOrder w)
    (g : Option G) (h : Near w m n w') : ((volumeOps x volname).fsGetroot g w').Within
      (fun v t => Near w (holdAlso v m) n t) (fun _ _ => False) True := by
  cases g with
  | none => exact (getroot_near hw h).andThen fun _ _ ht => ht
  | some g =>
    refine (onRest_silent (hx.fsGetroot g _) h.rest).andThen fun y t ht => ?_
    cases y with
    | none => exact ht
    | some v => exact ht.also

theorem vopLookparent_near (x : Ops φ π G W) (volname : Str) (hw : InOrder w) (v : Nat ⊕ W)
    (path : Str) (buflen : Nat) (h : Near w m n w') :
    ((volumeOps x volname).vopLookparent v path buflen w').Within
      (fun y t => Near w (y.1 :: m) n t ∧ OnVolume path y) (fun _ t => Near w m n t) True := by
  cases v with
  | inl i =>
    exact (lookparent_near hw h).andThen fun _ _ ht => ⟨ht.1,fun _ _ => ht.2⟩
  | inr v =>
    exact (onRest_within _ h.rest h.rest).andThen fun _ _ ht => ⟨ht.also,fun _ he => by cases he⟩

theorem vopCreat_near (x : Ops φ π G W) (volname : Str) (hw : InOrder w) (v : Nat ⊕ W)
    (name : Str) (excl : Bool) (hat : OnVolume sub (v,name)) (h : Near w m n w') :
    ((volumeOps x volname).vopCreat v name excl w').Within
      (fun y t => (Near w (y :: m) n t ∧ ∀ i, y = .inl i → w.hasName sub) ∨ NewFile w sub y t)
      (fun _ t => Near w m n t) True := by
  cases v with
  | inl i =>
    obtain rfl : name = sub := hat i rfl
    exact (creat_near hw h).mono (fun _ _ ht => ht.imp_left fun hn => ⟨hn.1,fun _ _ => hn.2⟩)
      (fun _ _ ht => ht) id
  | inr v =>
    exact (onRest_within _ h.rest h.rest).andThen fun _ _ ht =>
      .inl ⟨ht.also,fun _ he => by cases he⟩

theorem volumeOps_opens {x : Ops φ π G W} (hx : x.Silent) (volname : Str) (hw : InOrder w) :
    (volumeOps x volname).Opens (fun m n s => Near w m n s.world) (fun _ => True)
      (fun _ => False) OnVolume (fun sub v s => NewFile w sub v s.world) (fun _ _ => True) where
  swap h := h.swap
  bad hf := hf.elim
  current _ _ _ := True.intro
  device _ _ := True.intro
  incref
    | .inl _, h => call_within (incref_near hw h)
    | .inr v, h => call_within (onRest_silent (hx.incref v _) fun r => (h.rest r).also)
  decref
    | .inl _, h => call_within (decref_near hw h)
    | .inr v, h => call_within (onRest_silent (hx.decref v _) fun r => (h.rest r).without)
  fsGetroot g _ _ h := (call_within (fsGetroot_near hx hw g h)).mono
    (fun _ _ ht => ⟨ht,fun _ => True.intro⟩) (fun _ _ hf => hf) id
  vopLookup
    | .inl _, _, h => call_within (lookup_near hw h)
    | .inr _, _, h => call_within
        ((onRest_within _ h.rest h.rest).andThen fun _ _ ht => ht.also)
  vopLookparent v path buflen _ _ h := call_within (vopLookparent_near x volname hw v path buflen h)
  done _ := True.intro
  incopen
    | .inl _, h => call_within (incopen_near h)
    | .inr v, h => call_within (onRest_silent (hx.incopen v _) fun r => (h.rest r).alsoOpen)
  decopen
    | .inl _, h => call_within (decopen_near hw h)
    | .inr v, h => call_within (onRest_silent (hx.decopen v _) fun r => (h.rest r).withoutOpen)
  vopOpen
    | .inl i, flags, h => call_within ((sfsOpen_within i flags).mono (fun _ _ ht => ht ▸ h)
        (fun _ _ ht => ht ▸ h) id)
    | .inr _, _, h => call_within (onRest_within _ h.rest h.rest)
  vopTruncate
    | .inl _, h => call_within (truncate_near h)
    | .inr _, h => call_within (Q := fun _ _ => True) (onRest_within _ (fun _ => True.intro) h.rest)
  vopCreat _ v name excl _ hat h := (call_within (vopCreat_near x volname hw v name excl hat h)).mono
    (fun _ _ ht => ht.imp_left And.left) (fun _ _ ht => ht) id

theorem volumeOps_new {x : Ops φ π G W} (hx : x.Silent) (volname : Str) (sub : Str) (i : Nat) :
    (volumeOps x volname).OpensNew (fun _ => True)
      (fun s => NewFile (W := W) w sub (.inl i) s.world) (.inl i) where
  decref
    | .inl _, h => call_within h.decref
    | .inr v, h => call_within (onRest_silent (hx.decref v _) fun _ => { h with })
  incopen h := call_within h.incopen
  decopen h := call_within h.decopen
  vopOpen flags _ h := call_within (h.opens flags)
  vopTruncate h := call_within h.truncates

end Volume

section Opens

variable {φ π G W : Type}

theorem noOthers_silent : noOthers.Silent :=
  ⟨fun _ _ => True.intro,fun _ _ => True.intro,fun _ _ => True.intro,fun _ _ => True.intro,
    fun _ _ => True.intro⟩

def failsAndNames (v : Sfs.Fs) (openflags : Nat) (e : Errno) : Bool :=
  (vfsOpen oneVolume (onLhd0 [97]) openflags (lhd0Mounted v)).testErr e fun t =>
    0 < t.world.fs.root.slots ∧
      (t.world.fs.root.entry 0).ino ≠ Sfs.sfsNoino

end Opens

end MipsOs.Vfs
