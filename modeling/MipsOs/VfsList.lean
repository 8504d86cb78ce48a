import Mathlib.Data.List.Pairwise
import MipsOs.Bytes
import MipsOs.Runs
import MipsOs.Types

/-! The table of named devices, kern/fs/vfs/vfslist.c. A device is known under its
name, the name of its raw device, and the volume name of its file system. -/

set_option autoImplicit false
namespace MipsOs.Vfs
open Bytes Runs

/-- The characters of a C string. -/
abbrev Str : Type := List Byte

section Table

/-- struct knowndev. The device is only told from NULL; the vnode made for it has a number. -/
structure Knowndev (F : Type) where
  name : Str
  rawname : Option Str
  device : Bool
  vnode : Nat
  fs : Option F

/-- What vfs_getroot finds under a name: a root to be fetched, the vnode of a device, an error
code, or a device that is NULL. -/
inductive Root (F : Type) where
  | fs (f : F)
  | device (vnode : Nat)
  | error (e : Errno)
  | noDevice
  deriving DecidableEq, Repr

/-- How a call on the table fails; a device that is NULL trips an assertion. -/
inductive Fault where
  | errno (e : Errno)
  | noDevice
  deriving DecidableEq, Repr

variable {F : Type} (getvolname : F → Option Str)

def Knowndev.volname (kd : Knowndev F) : Option Str := kd.fs.bind getvolname

def Knowndev.itself (kd : Knowndev F) : Root F :=
  if kd.device then .device kd.vnode else .noDevice

def Knowndev.named (kd : Knowndev F) (devname : Str) : Option (Root F) :=
  match kd.fs with
  | some f =>
    if kd.name = devname ∨ getvolname f = some devname then some (.fs f)
    else if kd.rawname = some devname then some kd.itself
    else none
  | none =>
    if kd.rawname ≠ none ∧ kd.name = devname then some (.error Errno.ENXIO)
    else if kd.name = devname then some kd.itself
    else if kd.rawname = some devname then some kd.itself
    else none

def vfsGetroot (knowndevs : List (Knowndev F)) (devname : Str) : Root F :=
  (knowndevs.findSome? fun kd => kd.named getvolname devname).getD (.error .ENODEV)

def mkrawname (name : Str) : Str := name ++ [114,97,119]

/-- samestring3 of a name of a device and three names; names that are NULL are not in the list. -/
def samestring3 (a : Option Str) (names : List Str) : Bool := a.any fun n => decide (n ∈ names)

def badnames (knowndevs : List (Knowndev F)) (names : List Str) : Bool :=
  knowndevs.any fun kd =>
    samestring3 (kd.volname getvolname) names || samestring3 kd.rawname names ||
      samestring3 (some kd.name) names

def Knowndev.names (kd : Knowndev F) : List Str :=
  kd.name :: (kd.rawname.toList ++ (kd.volname getvolname).toList)

def newdev (knowndevs : List (Knowndev F)) (dname : Str) (mountable device : Bool)
    (fs : Option F) : Knowndev F :=
  ⟨dname,if mountable then some (mkrawname dname) else none,device,knowndevs.length,fs⟩

/-- vfs_doadd. The kmallocs before the table is looked at may fail, and the one of array_add. -/
def vfsDoadd (knowndevs : List (Knowndev F)) (dname : Str) (mountable device : Bool)
    (fs : Option F) (room grow : Bool) : Except Fault (List (Knowndev F)) :=
  let kd := newdev knowndevs dname mountable device fs
  if room = false then .error (.errno .ENOMEM)
  else if badnames getvolname knowndevs (kd.names getvolname) then .error (.errno .EEXIST)
  else if grow = false then .error (.errno .ENOMEM)
  else .ok (knowndevs ++ [kd])

def vfsAdddev (knowndevs : List (Knowndev F)) (devname : Str) (mountable room grow : Bool) :
    Except Fault (List (Knowndev F)) :=
  vfsDoadd getvolname knowndevs devname mountable true none room grow

def vfsAddfs (knowndevs : List (Knowndev F)) (devname : Str) (fs : F) (room grow : Bool) :
    Except Fault (List (Knowndev F)) :=
  vfsDoadd getvolname knowndevs devname false false (some fs) room grow

/-- The first mountable device of that name. -/
def findmount (knowndevs : List (Knowndev F)) (devname : Str) : Option (Fin knowndevs.length) :=
  knowndevs.findFinIdx? fun kd => kd.rawname.isSome && decide (devname = kd.name)

def setFs (knowndevs : List (Knowndev F)) (i : Nat) (fs : Option F) : List (Knowndev F) :=
  knowndevs.modify i fun kd => { kd with fs := fs }

def vfsMount (knowndevs : List (Knowndev F)) (devname : Str) (answer : Except Errno F) :
    Except Fault (List (Knowndev F)) :=
  match findmount knowndevs devname with
  | none => .error (.errno .ENODEV)
  | some i =>
    if (knowndevs.get i).fs.isSome then .error (.errno .EBUSY)
    else if (knowndevs.get i).device = false then .error .noDevice
    else
      match answer with
      | .error e => .error (.errno e)
      | .ok f => .ok (setFs knowndevs i (some f))

def vfsUnmount (knowndevs : List (Knowndev F)) (devname : Str) (sync unmount : Option Errno) :
    Except Fault (List (Knowndev F)) :=
  match findmount knowndevs devname with
  | none => .error (.errno .ENODEV)
  | some i =>
    if (knowndevs.get i).fs.isNone then .error (.errno .EINVAL)
    else if (knowndevs.get i).device = false then .error .noDevice
    else
      match sync,unmount with
      | some e, _ => .error (.errno e)
      | none, some e => .error (.errno e)
      | none, none => .ok (setFs knowndevs i none)

/-- The calls that change the table. -/
inductive TableAct (F : Type) where
  | adddev (devname : Str) (mountable room grow : Bool)
  | addfs (devname : Str) (fs : F) (room grow : Bool)
  | mount (devname : Str) (answer : Except Errno F)
  | unmount (devname : Str) (sync unmount : Option Errno)

def tableCall (knowndevs : List (Knowndev F)) : TableAct F → Except Fault (List (Knowndev F))
  | .adddev devname mountable room grow =>
    vfsAdddev getvolname knowndevs devname mountable room grow
  | .addfs devname fs room grow => vfsAddfs getvolname knowndevs devname fs room grow
  | .mount devname answer => vfsMount knowndevs devname answer
  | .unmount devname sync unmount => vfsUnmount knowndevs devname sync unmount

/-- A call that returns an error leaves the table alone. -/
def tableStep (knowndevs : List (Knowndev F)) (a : TableAct F) : Option (List (Knowndev F)) :=
  match tableCall getvolname knowndevs a with
  | .ok t => some t
  | .error (.errno _) => some knowndevs
  | .error .noDevice => none

end Table

section Names

variable {F : Type} {getvolname : F → Option Str} {kd kd' : Knowndev F}
  {t u : List (Knowndev F)} {n : Str}

def Distinct (getvolname : F → Option Str) (kd kd' : Knowndev F) : Prop :=
  ∀ n ∈ kd.names getvolname, n ∉ kd'.names getvolname

instance : Std.Symm (Distinct getvolname) := ⟨fun _ _ h n hn hn' => h n hn' hn⟩

/-- No string is a name of two devices of the table. -/
def Unambiguous (getvolname : F → Option Str) (t : List (Knowndev F)) : Prop :=
  t.Pairwise (Distinct getvolname)

theorem mem_names : n ∈ kd.names getvolname ↔
    n = kd.name ∨ kd.rawname = some n ∨ kd.volname getvolname = some n := by
  simp only [Knowndev.names,List.mem_cons,List.mem_append,Option.mem_toList]

theorem samestring3_iff {a : Option Str} {names : List Str} :
    samestring3 a names = true ↔ ∃ n ∈ names, a = some n := by
  cases a with
  | none | some => simp [samestring3]

theorem badnames_eq_false {names : List Str} : badnames getvolname t names = false ↔
    ∀ kd ∈ t, ∀ n ∈ kd.names getvolname, n ∉ names := by
  rw [badnames,List.any_eq_false]
  refine forall₂_congr fun kd _ => ?_
  rw [Bool.or_eq_true,Bool.or_eq_true,samestring3_iff,samestring3_iff,samestring3_iff]
  constructor
  · intro h n hn hmem
    rcases mem_names.mp hn with rfl | hraw | hvol
    · exact h (.inr ⟨_,hmem,rfl⟩)
    · exact h (.inl (.inr ⟨n,hmem,hraw⟩))
    · exact h (.inl (.inl ⟨n,hmem,hvol⟩))
  · rintro h ((⟨n,hmem,hn⟩ | ⟨n,hmem,hn⟩) | ⟨n,hmem,hn⟩)
    · exact h n (mem_names.mpr (.inr (.inr hn))) hmem
    · exact h n (mem_names.mpr (.inr (.inl hn))) hmem
    · exact h n (mem_names.mpr (.inl (Option.some.inj hn).symm)) hmem

/-- vfs_getroot stops at a device exactly if the name is one of its names. -/
theorem named_isSome : (kd.named getvolname n).isSome = true ↔ n ∈ kd.names getvolname := by
  rw [mem_names,Knowndev.named,Knowndev.volname]
  cases hfs : kd.fs with
  | some f =>
    simp only [Option.bind_some]
    by_cases hname : kd.name = n
    · simp [hname]
    · by_cases hvol : getvolname f = some n
      · simp [hvol]
      · by_cases hraw : kd.rawname = some n
        · simp [hname,hvol,hraw]
        · simp [hname,hvol,hraw,Ne.symm hname]
  | none =>
    simp only [Option.bind_none,reduceCtorEq,or_false]
    by_cases hname : kd.name = n
    · by_cases hraw : kd.rawname = none
      · simp [hname,hraw]
      · simp [hname,hraw]
    · by_cases hraw : kd.rawname = some n
      · simp [hname,hraw]
      · simp [hname,hraw,Ne.symm hname]

/-- If at most one device answers, the first one that answers does not depend on the order. -/
theorem vfsGetroot_eq {r : Root F} (h : Unambiguous getvolname t) (hmem : kd ∈ t)
    (hr : kd.named getvolname n = some r) : vfsGetroot getvolname t n = r := by
  have hkd : n ∈ kd.names getvolname := named_isSome.mp (by rw [hr]; rfl)
  have honly : ∀ kd' ∈ t, (kd'.named getvolname n).isSome = true → kd' = kd := by
    intro kd' hmem' hsome
    by_contra hne
    exact h.forall hmem' hmem hne n (named_isSome.mp hsome) hkd
  have hfound : (t.findSome? fun kd => kd.named getvolname n) = some r := by
    cases hf : t.findSome? fun kd => kd.named getvolname n with
    | none =>
      have := List.findSome?_eq_none_iff.mp hf kd hmem
      rw [hr] at this
      cases this
    | some r' =>
      obtain ⟨kd',hmem',hr'⟩ := List.exists_of_findSome?_eq_some hf
      rw [honly kd' hmem' (by rw [hr']; rfl),hr] at hr'
      rw [hr']
  rw [vfsGetroot,hfound]
  rfl

theorem vfsGetroot_none (h : ∀ kd ∈ t, n ∉ kd.names getvolname) :
    vfsGetroot getvolname t n = .error .ENODEV := by
  have hnone : (t.findSome? fun kd => kd.named getvolname n) = none := by
    rw [List.findSome?_eq_none_iff]
    intro kd hmem
    rw [← Option.not_isSome_iff_eq_none,named_isSome]
    exact h kd hmem
  rw [vfsGetroot,hnone]
  rfl

theorem vfsGetroot_perm (h : Unambiguous getvolname t) (hu : u.Perm t) :
    vfsGetroot getvolname u n = vfsGetroot getvolname t n := by
  have hu' : Unambiguous getvolname u := (hu.pairwise_iff fun {a b} hab => symm hab).mpr h
  by_cases hex : ∃ kd ∈ t, n ∈ kd.names getvolname
  · obtain ⟨kd,hmem,hn⟩ := hex
    obtain ⟨r,hr⟩ := Option.isSome_iff_exists.mp (named_isSome.mpr hn)
    rw [vfsGetroot_eq h hmem hr,vfsGetroot_eq hu' (hu.mem_iff.mpr hmem) hr]
  · push Not at hex
    rw [vfsGetroot_none hex,vfsGetroot_none fun kd hmem => hex kd (hu.mem_iff.mp hmem)]

end Names

section Calls

variable {F : Type} {getvolname : F → Option Str} {t u : List (Knowndev F)} {a : TableAct F}

/-- A mountable device is not NULL. -/
def Backed (t : List (Knowndev F)) : Prop := ∀ kd ∈ t, kd.rawname.isSome = true → kd.device = true

variable {devname : Str} {i : Fin t.length} {fs : Option F}

theorem findmount_mountable
    (h : findmount t devname = some i) : (t.get i).rawname.isSome = true := by
  have := (List.findFinIdx?_eq_some_iff.mp h).1
  simp only [Bool.and_eq_true] at this
  exact this.1

theorem vfsDoadd_ok {dname : Str} {mountable device : Bool} {room grow : Bool}
    (hdev : mountable = true → device = true)
    (h : vfsDoadd getvolname t dname mountable device fs room grow = .ok u) :
    ∃ kd : Knowndev F, u = t ++ [kd] ∧ (kd.rawname.isSome = true → kd.device = true) ∧
      badnames getvolname t (kd.names getvolname) = false := by
  simp only [vfsDoadd] at h
  split at h
  · cases h
  · split at h
    · cases h
    next hfree =>
      split at h
      · cases h
      · refine ⟨_,(Except.ok.inj h).symm,fun hraw => hdev ?_,by simpa using hfree⟩
        cases mountable with
        | true => rfl
        | false => cases hraw

theorem vfsMount_ok {answer : Except Errno F} (h : vfsMount t devname answer = .ok u) :
    ∃ i f, answer = .ok f ∧ findmount t devname = some i ∧ (t.get i).fs = none ∧
      u = setFs t i (some f) := by
  simp only [vfsMount] at h
  split at h
  · cases h
  next i hi =>
    split at h
    · cases h
    next hfs =>
      split at h
      · cases h
      · cases answer with
        | error e => cases h
        | ok f => exact ⟨i,f,rfl,hi,Option.not_isSome_iff_eq_none.mp hfs,(Except.ok.inj h).symm⟩

theorem vfsUnmount_ok {sync unmount : Option Errno}
    (h : vfsUnmount t devname sync unmount = .ok u) : ∃ i : Fin t.length, u = setFs t i none := by
  simp only [vfsUnmount] at h
  split at h
  · cases h
  next i hi =>
    split at h
    · cases h
    · split at h
      · cases h
      · split at h
        · cases h
        · cases h
        · exact ⟨i,(Except.ok.inj h).symm⟩

/-- What a call does to the table: nothing, a device whose names are free is added at the end, or
a file system appears on a device without one, or goes away. -/
theorem tableStep_cases (h : tableStep getvolname t a = some u) :
    u = t ∨
    (∃ kd : Knowndev F, u = t ++ [kd] ∧ (kd.rawname.isSome = true → kd.device = true) ∧
      badnames getvolname t (kd.names getvolname) = false) ∨
    (∃ devname i f, a = .mount devname (.ok f) ∧ findmount t devname = some i ∧
      (t.get i).fs = none ∧ u = setFs t i (some f)) ∨
    (∃ i : Fin t.length, u = setFs t i none) := by
  simp only [tableStep] at h
  split at h
  next v hv =>
    cases h
    cases a with
    | adddev devname mountable room grow => exact .inr (.inl (vfsDoadd_ok (fun _ => rfl) hv))
    | addfs devname fs room grow =>
      exact .inr (.inl (vfsDoadd_ok (fun hm => absurd hm Bool.false_ne_true) hv))
    | mount devname answer =>
      obtain ⟨i,f,rfl,hi,hfs,hu⟩ := vfsMount_ok hv
      exact .inr (.inr (.inl ⟨devname,i,f,rfl,hi,hfs,hu⟩))
    | unmount devname sync unmount => exact .inr (.inr (.inr (vfsUnmount_ok hv)))
  · exact .inl (Option.some.inj h).symm
  · cases h

theorem getElem_setFs {i j : Nat} (hj : j < (setFs t i fs).length)
    (hj' : j < t.length) : (setFs t i fs)[j] = if i = j then { t[j] with fs := fs } else t[j] := by
  simp only [setFs,List.getElem_modify]

section

variable (h : Unambiguous getvolname t)

include h

theorem Unambiguous.distinct {j : Fin t.length} (hij : i ≠ j) :
    Distinct getvolname (t.get i) (t.get j) := by
  rcases Nat.lt_or_gt_of_ne (Fin.val_ne_of_ne hij) with hlt | hgt
  · exact List.pairwise_iff_get.mp h i j hlt
  · exact symm (List.pairwise_iff_get.mp h j i hgt)

/-- A file system whose volume name no other device has keeps the names apart. -/
theorem Unambiguous.setFs (hfree : ∀ n, fs.bind getvolname = some n → ∀ j : Fin t.length, j ≠ i →
    n ∉ (t.get j).names getvolname) :
    Unambiguous getvolname (setFs t i fs) := by
  have hlen : (Vfs.setFs t i fs).length = t.length := List.length_modify ..
  -- The changed device has its old names, and the new volume name.
  have hnew : ∀ j : Fin t.length, j ≠ i →
      Distinct getvolname { t.get i with fs := fs } (t.get j) := by
    intro j hji n hn
    rcases mem_names.mp hn with hname | hraw | hvol
    · exact h.distinct hji.symm n (mem_names.mpr (.inl hname))
    · exact h.distinct hji.symm n (mem_names.mpr (.inr (.inl hraw)))
    · exact hfree n hvol j hji
  refine List.pairwise_iff_getElem.mpr fun a b ha hb hab => ?_
  rw [hlen] at ha hb
  rw [getElem_setFs _ ha,getElem_setFs _ hb]
  have hold := List.pairwise_iff_getElem.mp h a b ha hb hab
  by_cases hia : i.val = a
  · subst hia
    rw [if_pos rfl,if_neg (by omega)]
    exact hnew ⟨b,hb⟩ (Fin.ne_of_val_ne (by simp; omega))
  · rw [if_neg hia]
    by_cases hib : i.val = b
    · subst hib
      rw [if_pos rfl]
      exact symm (hnew ⟨a,ha⟩ (Fin.ne_of_val_ne (by simp; omega)))
    · rw [if_neg hib]
      exact hold

theorem Unambiguous.add {kd : Knowndev F}
    (hfree : badnames getvolname t (kd.names getvolname) = false) :
    Unambiguous getvolname (t ++ [kd]) := by
  refine List.pairwise_append.mpr ⟨h,List.pairwise_singleton _ _,fun kd₁ hmem kd₂ hkd => ?_⟩
  obtain rfl := List.mem_singleton.mp hkd
  exact badnames_eq_false.mp hfree kd₁ hmem

/-- A mount that succeeds brings no name of another device. -/
def FreshVolume (getvolname : F → Option Str) (t : List (Knowndev F)) : TableAct F → Prop
  | .mount devname (.ok f) => ∀ i, findmount t devname = some i → (t.get i).fs = none →
      ∀ n, getvolname f = some n → ∀ j : Fin t.length, j ≠ i → n ∉ (t.get j).names getvolname
  | _ => True

theorem tableStep_unambiguous (hc : FreshVolume getvolname t a)
    (hs : tableStep getvolname t a = some u) : Unambiguous getvolname u := by
  rcases tableStep_cases hs with rfl | ⟨kd,rfl,-,hfree⟩ | ⟨devname,i,f,rfl,hi,hfs,rfl⟩ | ⟨i,rfl⟩
  · exact h
  · exact h.add hfree
  · exact h.setFs (hc i hi hfs)
  · exact h.setFs fun n hn => nomatch hn

end

theorem tableStep_backed (h : Backed t) (hs : tableStep getvolname t a = some u) : Backed u := by
  have hset : ∀ (i : Nat) (fs : Option F), Backed (setFs t i fs) := by
    intro i fs kd hmem hraw
    obtain ⟨j,hj,rfl⟩ := List.mem_iff_getElem.mp hmem
    have hj' : j < t.length := by simpa [setFs] using hj
    rw [getElem_setFs hj hj'] at hraw ⊢
    have hold := h t[j] (List.getElem_mem hj')
    split at hraw
    next hij => rw [if_pos hij]; exact hold hraw
    next hij => rw [if_neg hij]; exact hold hraw
  rcases tableStep_cases hs with rfl | ⟨kd,rfl,hkd,-⟩ | ⟨devname,i,f,rfl,hi,hfs,rfl⟩ | ⟨i,rfl⟩
  · exact h
  · intro kd' hmem
    rcases List.mem_append.mp hmem with hold | hnew
    · exact h kd' hold
    · obtain rfl := List.mem_singleton.mp hnew
      exact hkd
  · exact hset i _
  · exact hset i _

theorem tableStep_returns (h : Backed t) : ∃ v, tableStep getvolname t a = some v := by
  have hmount : ∀ {devname i}, findmount t devname = some i → (t.get i).device = true :=
    fun hi => h _ (List.get_mem ..) (findmount_mountable hi)
  have hcall : tableCall getvolname t a ≠ .error .noDevice := by
    intro hbad
    cases a with
    | adddev devname mountable room grow =>
      simp only [tableCall,vfsAdddev,vfsDoadd] at hbad
      split_ifs at hbad <;> cases hbad
    | addfs devname fs room grow =>
      simp only [tableCall,vfsAddfs,vfsDoadd] at hbad
      split_ifs at hbad <;> cases hbad
    | mount devname answer =>
      simp only [tableCall,vfsMount] at hbad
      cases hi : findmount t devname with
      | none =>
        rw [hi] at hbad
        cases hbad
      | some i =>
        rw [hi] at hbad
        simp only [hmount hi,Bool.true_eq_false,if_false] at hbad
        cases answer with
        | error | ok =>
          split_ifs at hbad
          all_goals cases hbad
    | unmount devname sync unmount =>
      simp only [tableCall,vfsUnmount] at hbad
      cases hi : findmount t devname with
      | none =>
        rw [hi] at hbad
        cases hbad
      | some i =>
        rw [hi] at hbad
        simp only [hmount hi,Bool.true_eq_false,if_false] at hbad
        split at hbad
        · cases hbad
        · split at hbad <;> cases hbad
  simp only [tableStep]
  split
  · exact ⟨_,rfl⟩
  · exact ⟨_,rfl⟩
  next hbad => exact absurd hbad hcall

theorem run_backed (getvolname : F → Option Str) (acts : List (TableAct F)) :
    ∃ t, run (tableStep getvolname) [] acts = some t ∧ Backed t :=
  run_total
    (fun _ _ h => (tableStep_returns h).imp fun _ hs => ⟨hs,tableStep_backed h hs⟩)
    (fun _ hmem => absurd hmem List.not_mem_nil) acts

theorem names_unambiguous {F : Type} (getvolname : F → Option Str) (acts : List (TableAct F))
    (hfresh : Along (tableStep getvolname) (FreshVolume getvolname) [] acts) :
    ∃ t, run (tableStep getvolname) [] acts = some t ∧
      (∀ i j : Fin t.length, ∀ n, n ∈ (t.get i).names getvolname →
        n ∈ (t.get j).names getvolname → i = j) ∧
      ∀ u, u.Perm t → ∀ n, vfsGetroot getvolname u n = vfsGetroot getvolname t n := by
  obtain ⟨t,ht,-⟩ := run_backed getvolname acts
  have h : Unambiguous getvolname t :=
    run_keeps (fun _ _ _ h hc hs => tableStep_unambiguous h hc hs) List.Pairwise.nil hfresh ht
  refine ⟨t,ht,fun i j n hi hj => ?_,fun u hu n => vfsGetroot_perm h hu⟩
  by_contra hne
  exact h.distinct hne n hi hj

def lhd0 : Str := [108,104,100,48]

def lhd1 : Str := [108,104,100,49]

def vol0 : Str := [118]

def vol1 : Str := [119]

def twoDisks (v v' : Str) : List (TableAct (Nat × Str)) :=
  [.adddev lhd0 true true true,.adddev lhd1 true true true,.mount lhd0 (.ok (0,v)),
    .mount lhd1 (.ok (1,v'))]

def twoDisksTable (f f' : Option (Nat × Str)) : List (Knowndev (Nat × Str)) :=
  [⟨lhd0,some (mkrawname lhd0),true,0,f⟩,⟨lhd1,some (mkrawname lhd1),true,1,f'⟩]

theorem names_unambiguous_twoDisks :
    ∃ t, run (tableStep fun f => some f.2) [] (twoDisks vol0 vol1) = some t ∧
      (∀ i j : Fin t.length, ∀ n, n ∈ (t.get i).names (fun f => some f.2) →
        n ∈ (t.get j).names (fun f => some f.2) → i = j) ∧
      ∀ u, u.Perm t → ∀ n,
        vfsGetroot (fun f => some f.2) u n = vfsGetroot (fun f => some f.2) t n := by
  refine names_unambiguous _ (twoDisks vol0 vol1) ?_
  refine .cons True.intro (by rfl) (.cons (u := twoDisksTable none none) True.intro (by rfl) ?_)
  refine .cons (u := twoDisksTable (some (0,vol0)) none) ?_ (by rfl) ⟨?_,fun _ _ => True.intro⟩
  · rintro i hi - n hn
    obtain rfl : (0 : Fin 2) = i := Option.some.inj hi
    obtain rfl : vol0 = n := Option.some.inj hn
    show ∀ j : Fin 2, j ≠ 0 → vol0 ∉ ((twoDisksTable none none).get j).names fun f => some f.2
    decide
  · rintro i hi - n hn
    obtain rfl : (1 : Fin 2) = i := Option.some.inj hi
    obtain rfl : vol1 = n := Option.some.inj hn
    show ∀ j : Fin 2, j ≠ 1 →
      vol1 ∉ ((twoDisksTable (some (0,vol0)) none).get j).names fun f => some f.2
    decide

/-- vfs_mount does not look at the volume name of what it mounts. -/
theorem same_volume_twice :
    ∃ t, run (tableStep fun f => some f.2) [] (twoDisks vol0 vol0) = some t ∧
      (∃ i j : Fin t.length, i ≠ j ∧ vol0 ∈ (t.get i).names (fun f => some f.2) ∧
        vol0 ∈ (t.get j).names (fun f => some f.2)) ∧
      ∃ u, u.Perm t ∧
        vfsGetroot (fun f => some f.2) u vol0 ≠ vfsGetroot (fun f => some f.2) t vol0 := by
  refine ⟨twoDisksTable (some (0,vol0)) (some (1,vol0)),by rfl,?_,
    (twoDisksTable (some (0,vol0)) (some (1,vol0))).reverse,List.reverse_perm _,by decide⟩
  exact ⟨(0 : Fin 2),(1 : Fin 2),Fin.zero_ne_one,by decide,by decide⟩

end Calls

end MipsOs.Vfs
