import Mathlib.Data.Nat.Count
import MipsOs.SfsFileRead
import MipsOs.SfsReclaim

/-! Directories as files of 64-byte slots, and the functions of sfs_vnode.c that read and write the
slots. The invariant of a mounted volume, and how the steps of the directory operations keep it:
between two of them the directory and one link count change together. -/

set_option autoImplicit false
namespace MipsOs.Sfs
open Bytes Prog Ledger

section Slots

variable {f : File} {d d' : Dirent} {j k ino : Nat}

def File.slots (f : File) : Nat := f.size / sizeofDir

def File.entry (f : File) (k : Nat) : Dirent := decodeDirent f.byte (64 * k)

def File.used (f : File) (k : Nat) : Prop := k < f.slots ∧ (f.entry k).ino ≠ sfsNoino

/-- The name in a slot as sfs_dir_findname compares it. -/
def Dirent.text (d : Dirent) : List Byte := cstring d.name (sfsNamelen - 1)

structure Directory (f : File) : Prop where
  size : f.size % sizeofDir = 0
  bound : f.size ≤ 143 * 512
  nul : ∀ k, f.used k → ∃ j, j < sfsNamelen ∧ (f.entry k).name j = 0
  names : ∀ k k', f.used k → f.used k' → (f.entry k).text = (f.entry k').text → k = k'

def File.links (f : File) (ino : Nat) : Nat := Nat.count (fun k => (f.entry k).ino = ino) f.slots

def File.enter (f : File) (k : Nat) (d : Dirent) : File := f.write (64 * k) 64 (encodeDirent d) 0

structure Agree (d d' : Dirent) : Prop where
  ino : d.ino = d'.ino
  name : ∀ i, i < 60 → d.name i = d'.name i

theorem Agree.text (h : Agree d d') : d.text = d'.text :=
  cstring_congr fun i hi => h.name i (show i < 60 from Nat.lt_of_lt_of_le hi (by decide))

theorem agree_decode {b c : Buffer} (h : ∀ i, i < 64 → b (j + i) = c (k + i)) :
    Agree (decodeDirent b j) (decodeDirent c k) where
  ino := be32_congr fun i hi => h i (by omega)
  name i hi := by
    have hb := h (4 + i) (by omega)
    simp only [decodeDirent]
    rw [Nat.add_assoc,hb,← Nat.add_assoc]

theorem agree_encode {b : Buffer} (hd : d.ino < 2^32)
    (h : ∀ i, i < 64 → b (j + i) = encodeDirent d i) : Agree (decodeDirent b j) d where
  ino := decodeDirent_ino hd fun i hi => h i (by omega)
  name i hi := by
    have hb := h (4 + i) (by omega)
    simp only [decodeDirent]
    rw [Nat.add_assoc,hb,encodeDirent,if_neg (by omega)]
    congr 1
    omega

theorem enter_self (f : File) (k : Nat) (hd : d.ino < 2^32) : Agree ((f.enter k d).entry k) d :=
  agree_encode hd fun i hi => by
    simp only [File.enter,File.write,File.patch]
    rw [splice_inside (by omega) (by omega)]
    congr 1
    omega

theorem enter_other (f : File) (d : Dirent) (h : j ≠ k) :
    Agree ((f.enter k d).entry j) (f.entry j) :=
  agree_decode fun i hi => by
    simp only [File.enter,File.write,File.patch]
    rw [splice_outside (by omega)]

theorem enter_slots (hf : f.size % sizeofDir = 0) (k : Nat) (d : Dirent) :
    (f.enter k d).slots = max f.slots (k + 1) := by
  have hf' : f.size % 64 = 0 := hf
  show max f.size (64 * k + 64) / 64 = max (f.size / 64) (k + 1)
  omega

theorem count_congr {p q : Nat → Prop} [DecidablePred p] [DecidablePred q] {n : Nat}
    (h : ∀ j, j < n → (p j ↔ q j)) : Nat.count p n = Nat.count q n :=
  Nat.le_antisymm (Nat.count_mono_left fun j hj => (h j hj).mp)
    (Nat.count_mono_left fun j hj => (h j hj).mpr)

theorem count_update {p q : Nat → Prop} [DecidablePred p] [DecidablePred q] {k n : Nat}
    (h : ∀ j, j ≠ k → (p j ↔ q j)) (hk : k < n) :
    Nat.count q n + (if p k then 1 else 0) = Nat.count p n + (if q k then 1 else 0) := by
  induction n with
  | zero => omega
  | succ n ih =>
    rw [Nat.count_succ,Nat.count_succ]
    by_cases hkn : k = n
    · subst hkn
      have hsame : Nat.count p k = Nat.count q k := count_congr fun j hj => h j (Nat.ne_of_lt hj)
      omega
    · have hn : (if p n then 1 else 0) = if q n then 1 else 0 :=
        if_congr (h n fun he => hkn he.symm) rfl rfl
      have := ih (by omega)
      omega

theorem links_enter (hf : f.size % sizeofDir = 0) (hk : k ≤ f.slots) (hd : d.ino < 2^32)
    (ino : Nat) : (f.enter k d).links ino + (if k < f.slots ∧ (f.entry k).ino = ino then 1 else 0) =
      f.links ino + (if d.ino = ino then 1 else 0) := by
  have hother : ∀ j, j ≠ k → ((f.entry j).ino = ino ↔ ((f.enter k d).entry j).ino = ino) :=
    fun j hj => by rw [(enter_other f d hj).ino]
  have hself : ((f.enter k d).entry k).ino = d.ino := (enter_self f k hd).ino
  simp only [File.links,enter_slots hf]
  by_cases hlt : k < f.slots
  · have hcount := count_update hother hlt
    rw [hself] at hcount
    rw [Nat.max_eq_left hlt]
    simpa only [hlt,true_and] using hcount
  · obtain rfl : k = f.slots := by omega
    rw [Nat.max_eq_right (Nat.le_succ _),Nat.count_succ,hself,
      ← count_congr fun j hj => hother j (Nat.ne_of_lt hj)]
    have hnone : ¬ (f.slots < f.slots ∧ (f.entry f.slots).ino = ino) := fun hc => hlt hc.1
    rw [if_neg hnone,Nat.add_zero]

theorem links_pos (hino : ino ≠ sfsNoino) :
    0 < f.links ino ↔ ∃ k, f.used k ∧ (f.entry k).ino = ino := by
  rw [File.links,Nat.pos_iff_ne_zero,Nat.count_ne_iff_exists]
  constructor
  · rintro ⟨k,hlt,rfl⟩
    exact ⟨k,⟨hlt,hino⟩,rfl⟩
  · rintro ⟨k,⟨hlt,_⟩,hk⟩
    exact ⟨k,hlt,hk⟩

theorem used_enter (hf : f.size % sizeofDir = 0) (hk : k ≤ f.slots) (hd : d.ino < 2^32) :
    (f.enter k d).used j ↔ if j = k then d.ino ≠ sfsNoino else f.used j := by
  simp only [File.used,enter_slots hf]
  by_cases hj : j = k
  · subst hj
    rw [if_pos rfl,(enter_self f j hd).ino]
    exact ⟨fun h => h.2,fun h => ⟨by omega,h⟩⟩
  · rw [if_neg hj,(enter_other f d hj).ino]
    exact and_congr_left fun _ => by omega

theorem Directory.enter (h : Directory f) (hk : k ≤ f.slots) (hroom : 64 * k + 64 ≤ 143 * 512)
    (hfree : ¬ f.used k) (hd : d.ino < 2^32) (hnul : ∃ j, j < sfsNamelen ∧ d.name j = 0)
    (hnew : ∀ j, f.used j → (f.entry j).text ≠ d.text) : Directory (f.enter k d) where
  size := by
    have hs : f.size % 64 = 0 := h.size
    show max f.size (64 * k + 64) % 64 = 0
    omega
  bound := by
    have hb := h.bound
    show max f.size (64 * k + 64) ≤ 143 * 512
    omega
  nul j hj := by
    rw [used_enter h.size hk hd] at hj
    by_cases hjk : j = k
    · subst hjk
      obtain ⟨i,hi,hz⟩ := hnul
      exact ⟨i,hi,by rw [(enter_self f j hd).name i hi]; exact hz⟩
    · rw [if_neg hjk] at hj
      obtain ⟨i,hi,hz⟩ := h.nul j hj
      exact ⟨i,hi,by rw [(enter_other f d hjk).name i hi]; exact hz⟩
  names i j hi hj := by
    rw [used_enter h.size hk hd] at hi hj
    by_cases hik : i = k
    · by_cases hjk : j = k
      · exact fun _ => hik.trans hjk.symm
      · subst hik
        rw [if_neg hjk] at hj
        rw [(enter_self f i hd).text,(enter_other f d hjk).text]
        exact fun he => (hnew j hj he.symm).elim
    · by_cases hjk : j = k
      · subst hjk
        rw [if_neg hik] at hi
        rw [(enter_self f j hd).text,(enter_other f d hik).text]
        exact fun he => (hnew i hi he).elim
      · rw [if_neg hik] at hi
        rw [if_neg hjk] at hj
        rw [(enter_other f d hik).text,(enter_other f d hjk).text]
        exact h.names i j hi hj

def noEntry : Dirent := ⟨sfsNoino,zeros⟩

theorem Directory.erase (h : Directory f) (hk : k < f.slots) : Directory (f.enter k noEntry) := by
  have hd : noEntry.ino < 2^32 := by decide
  have hused : ∀ j, (f.enter k noEntry).used j ↔ j ≠ k ∧ f.used j := by
    intro j
    rw [used_enter h.size (Nat.le_of_lt hk) hd]
    by_cases hj : j = k
    · simp [hj,noEntry]
    · simp [hj]
  have hsize : (f.enter k noEntry).size = f.size := by
    have hs : k < f.size / 64 := hk
    show max f.size (64 * k + 64) = f.size
    omega
  refine ⟨by rw [hsize]; exact h.size,by rw [hsize]; exact h.bound,fun j hj => ?_,
    fun i j hi hj => ?_⟩
  · obtain ⟨hjk,hj⟩ := (hused j).mp hj
    obtain ⟨i,hi,hz⟩ := h.nul j hj
    exact ⟨i,hi,by rw [(enter_other f noEntry hjk).name i hi]; exact hz⟩
  · obtain ⟨hik,hi⟩ := (hused i).mp hi
    obtain ⟨hjk,hj⟩ := (hused j).mp hj
    rw [(enter_other f noEntry hik).text,(enter_other f noEntry hjk).text]
    exact h.names i j hi hj

end Slots

section Programs

variable {s t : Fs} {L : Nat → Prop} {dir j k ino : Nat} {v : SfsVnode} {d : Dirent} {name : Name}

theorem slotOffset (hk : 64 * k < 2^31) : toInt32 (k * sizeofDir % 2^32) = ((64 * k : Nat) : Int) := by
  have hmul : k * sizeofDir = 64 * k := Nat.mul_comm _ _
  rw [hmul,Nat.mod_eq_of_lt (by omega),toInt32_of_lt hk]

theorem slot_le (h : Directory (s.fileAt dir)) (hk : k < (s.fileAt dir).slots) :
    64 * k + 64 ≤ (s.fileAt dir).size ∧ 64 * k + 64 ≤ 143 * 512 := by
  have hs : k < (s.fileAt dir).size / 64 := hk
  have hb := h.bound
  omega

theorem sfsReaddir_spec (h : Own s L none) (hv : s.vnode dir = some v)
    (hd : Directory (s.fileAt dir)) (hk : k < (s.fileAt dir).slots) :
    (sfsReaddir dir k s).Safe (fun e t => t = s ∧ Agree e ((s.fileAt dir).entry k))
      fun _ _ => False := by
  obtain ⟨hin,hroom⟩ := slot_le hd hk
  have hsize : (s.fileAt dir).size = v.i.size := by rw [← inodeAt_loaded hv]; rfl
  rw [sfsReaddir,slotOffset (by omega)]
  have hio := sfsIo_read (u := mkKuio zeros sizeofDir ((64 * k : Nat) : Int) .read) (o := 64 * k)
    h hv rfl rfl (by omega) (show 64 < 2^32 by omega)
  refine (Outcome.Safe.withLocal (Q := fun out t => t = s ∧
    out.2 = (mkKuio zeros sizeofDir ((64 * k : Nat) : Int) .read).took 64 (s.byteAt dir) (64 * k))
    (E := fun _ _ => False) (hio.mono (fun _ y hy => ?_) fun e y hy => ?_)).bind
    (fun out t ht => ?_) fun _ _ hf => hf
  · obtain ⟨n,rfl,hn⟩ := hy
    have hn' : n = 64 := by
      have := hn (show 64 * k + 64 < 2^31 by omega)
      rw [this]
      show min 64 (v.i.size - 64 * k) = 64
      omega
    subst hn'
    exact ⟨rfl,rfl⟩
  · obtain ⟨_,_,⟨_,hlt⟩ | ⟨_,i,hi⟩⟩ := hy
    · have hlt' : 143 * 512 < 64 * k + max 1 64 := hlt
      omega
    · cases hi
  · obtain ⟨rfl,hout⟩ := ht
    have hres : out.2.resid = 0 := by rw [hout]; rfl
    rw [assert_bind _ _ _ hres,pure_apply]
    refine ⟨rfl,agree_decode fun i hi => ?_⟩
    rw [hout]
    show splice zeros 0 64 (t.byteAt dir) (64 * k) (0 + i) = t.byteAt dir (64 * k + i)
    rw [splice_inside (by omega) (by omega)]
    congr 1
    omega

theorem sfsWritedir_spec (h : Own s L none) (hv : s.vnode dir = some v)
    (hd : Directory (s.fileAt dir)) (hk : k ≤ (s.fileAt dir).slots) (d : Dirent) :
    (sfsWritedir dir d k s).Safe
      (fun _ t => Own t L none ∧ Becomes L dir ((s.fileAt dir).enter k d) s t ∧
        64 * k + 64 ≤ 143 * 512)
      fun e t => Own t L none ∧ Becomes L dir (s.fileAt dir) s t ∧
        (e = .ENOSPC ∧ s.blockAt dir (64 * k / 512) = 0 ∨ e = .EINVAL ∧ 143 * 512 < 64 * k + 64) := by
  have hle : 64 * k ≤ (s.fileAt dir).size := by
    have hs : k ≤ (s.fileAt dir).size / 64 := hk
    omega
  have hb := hd.bound
  rw [sfsWritedir,slotOffset (by omega)]
  have hio := sfsIo_write (u := mkKuio (encodeDirent d) sizeofDir ((64 * k : Nat) : Int) .write)
    (o := 64 * k) h hv ⟨rfl,rfl,by omega⟩ (show 64 < 2^32 by omega)
  refine (Outcome.Safe.withLocal (Q := fun out t => out.2.resid = 0 ∧ Own t L none ∧
    Becomes L dir ((s.fileAt dir).enter k d) s t ∧ 64 * k + 64 ≤ 143 * 512)
    (hio.mono (fun _ y hy => ?_) fun e y hy => ?_)).andThen fun out t ht => ?_
  · refine ⟨by rw [hy.uio]; rfl,hy.own,hy.becomes,?_⟩
    have hbound : (64 : Nat) = 0 ∨ 64 * k + 64 ≤ 143 * 512 := hy.bound
    omega
  · obtain ⟨n,hn,hw,he⟩ := hy
    have hn0 : n = 0 := by
      have hn' : n = 0 ∨ n < 64 ∧ (64 * k + n) % 512 = 0 := hn
      omega
    subst hn0
    have hsame : (s.fileAt dir).write (64 * k) 0 (encodeDirent d) 0 = s.fileAt dir := by
      rw [File.write,patch_nothing,Nat.add_zero,Nat.max_eq_left hle]
    refine ⟨hw.own,hsame ▸ hw.becomes,?_⟩
    rcases he with ⟨rfl,hz⟩ | ⟨rfl,hlt⟩ | ⟨_,i,hi⟩
    · exact .inl ⟨rfl,hz⟩
    · have hlt' : 143 * 512 < 64 * k + max 1 64 := hlt
      exact .inr ⟨rfl,by omega⟩
    · cases hi
  · rw [assert,if_pos ht.1]
    exact ht.2

theorem sfsDirNentries_eq (hv : s.vnode dir = some v) (htype : v.i.type = .dir)
    (hd : Directory (s.fileAt dir)) : sfsDirNentries dir s = .ok (s.fileAt dir).slots s := by
  have hfile : (s.fileAt dir).size = v.i.size := by rw [← inodeAt_loaded hv]; rfl
  have hsize : v.i.size % sizeofDir = 0 := by rw [← hfile]; exact hd.size
  rw [sfsDirNentries,bind_ok (getVnode_eq hv),assert_bind _ _ _ htype,assert_bind _ _ _ hsize,
    File.slots,hfile]
  rfl

structure Searched (f : File) (name : Name) (j : Nat) (r : Find) : Prop where
  absent : r.found = false → ∀ k, k < j → f.used k → (f.entry k).text ≠ name.chars
  present : r.found = true → r.slot < j ∧ f.used r.slot ∧ (f.entry r.slot).text = name.chars ∧
    (f.entry r.slot).ino = r.ino
  empty : ∀ k, r.emptyslot = some k → k < f.slots ∧ (f.entry k).ino = sfsNoino

theorem findnameStep_spec (h : Own s L none) (hv : s.vnode dir = some v)
    (hd : Directory (s.fileAt dir)) (hj : j < (s.fileAt dir).slots) {r : Find}
    (hr : Searched (s.fileAt dir) name j r) :
    (findnameStep dir name j r s).Safe
      (fun r' t => t = s ∧ Searched (s.fileAt dir) name (j + 1) r') fun _ _ => False := by
  rw [findnameStep]
  refine (sfsReaddir_spec h hv hd hj).andThen fun e t ht => ?_
  obtain ⟨rfl,he⟩ := ht
  by_cases hz : e.ino = sfsNoino
  · rw [if_pos hz,pure_apply]
    have hunused : ¬ (t.fileAt dir).used j := fun hu => hu.2 (he.ino ▸ hz)
    refine ⟨rfl,fun hf k hk hu => ?_,fun hf => ?_,fun k hk => ?_⟩
    · have hkj : k ≠ j := fun hkj => hunused (hkj ▸ hu)
      exact hr.absent hf k (by omega) hu
    · obtain ⟨hlt,hrest⟩ := hr.present hf
      exact ⟨Nat.lt_succ_of_lt hlt,hrest⟩
    · obtain rfl : j = k := Option.some.inj hk
      exact ⟨hj,by rw [← he.ino]; exact hz⟩
  · have hused : (t.fileAt dir).used j := ⟨hj,by rw [← he.ino]; exact hz⟩
    rw [if_neg hz]
    by_cases hm : cstring e.name (sfsNamelen - 1) = name.chars
    · have htext : ((t.fileAt dir).entry j).text = name.chars := by
        rw [← he.text]
        exact hm
      -- a second slot with this name would contradict the invariant
      have hfound : r.found = false := by
        by_contra hc
        obtain ⟨hlt,hu,ht,_⟩ := hr.present (by simpa using hc)
        have := hd.names r.slot j hu hused (ht.trans htext.symm)
        omega
      rw [if_pos hm,assert_bind _ _ _ hfound,pure_apply]
      refine ⟨rfl,?_,fun _ => ⟨Nat.lt_succ_self j,hused,htext,he.ino.symm⟩,hr.empty⟩
      exact fun hc => by cases hc
    · rw [if_neg hm,pure_apply]
      refine ⟨rfl,fun hf k hk hu => ?_,fun hf => ?_,hr.empty⟩
      · by_cases hkj : k = j
        · subst hkj
          rw [← he.text]
          exact hm
        · exact hr.absent hf k (by omega) hu
      · obtain ⟨hlt,hrest⟩ := hr.present hf
        exact ⟨Nat.lt_succ_of_lt hlt,hrest⟩

theorem sfsDirFindname_spec (h : Own s L none) (hv : s.vnode dir = some v) (htype : v.i.type = .dir)
    (hd : Directory (s.fileAt dir)) (name : Name) :
    (sfsDirFindname dir name s).Safe
      (fun r t => t = s ∧ Searched (s.fileAt dir) name (s.fileAt dir).slots r)
      fun _ _ => False := by
  rw [sfsDirFindname,bind_ok (sfsDirNentries_eq hv htype hd)]
  have hloop := Outcome.Safe.loop (f := findnameStep dir name) (s := s) (i := 0)
    (b := ⟨false,0,0,none⟩) (I := fun j r t => t = s ∧ Searched (s.fileAt dir) name j r)
    (E := fun _ _ => False) (s.fileAt dir).slots
    ⟨rfl,by simp,by simp,by simp⟩ fun j r t _ hj ht => ?_
  · rwa [Nat.zero_add] at hloop
  · obtain ⟨rfl,hr⟩ := ht
    exact findnameStep_spec h hv hd (by omega) hr

/-- The slot of a used entry lies in a block that is there. -/
theorem used_mapped (hu : (s.fileAt dir).used k) : s.blockAt dir (64 * k / 512) ≠ 0 := by
  intro hz
  refine hu.2 (be32_zero fun i hi => ?_)
  show s.byteAt dir (64 * k + i) = 0
  rw [Fs.byteAt,show (64 * k + i) / 512 = 64 * k / 512 by omega,if_pos hz]

structure Entered (L : Nat → Prop) (dir : Nat) (name : Name) (ino k : Nat) (s t : Fs) : Prop where
  own : Own t L none
  becomes : Becomes L dir ((s.fileAt dir).enter k ⟨ino,name.buffer⟩) s t
  directory : Directory ((s.fileAt dir).enter k ⟨ino,name.buffer⟩)
  slot : k ≤ (s.fileAt dir).slots
  free : ¬ (s.fileAt dir).used k

theorem sfsDirLink_spec (h : Own s L none) (hv : s.vnode dir = some v) (htype : v.i.type = .dir)
    (hd : Directory (s.fileAt dir)) (hino : ino < 2^32) (name : Name) :
    (sfsDirLink dir name ino s).Safe (fun k t => Entered L dir name ino k s t)
      fun _ t => Own t L none ∧ Becomes L dir (s.fileAt dir) s t := by
  rw [sfsDirLink]
  refine (sfsDirFindname_spec h hv htype hd name).bind_unerring fun r t hr => ?_
  obtain ⟨rfl,hr⟩ := hr
  have hsame : Own t L none ∧ Becomes L dir (t.fileAt dir) t t := ⟨h,Becomes.refl L dir t⟩
  by_cases hf : r.found = true
  · rw [if_pos hf]
    exact hsame
  · rw [if_neg hf]
    by_cases hlong : name.chars.length + 1 > sfsNamelen
    · rw [if_pos hlong]
      exact hsame
    · rw [if_neg hlong]
      have hlen : name.chars.length ≤ 59 := Nat.le_of_lt_succ (Nat.lt_of_succ_le
        (Nat.le_of_not_gt hlong))
      obtain ⟨k,hslot,hk,hfree⟩ : ∃ k, linkSlot dir r.emptyslot t = .ok k t ∧
          k ≤ (t.fileAt dir).slots ∧ ¬ (t.fileAt dir).used k := by
        cases hes : r.emptyslot with
        | none =>
          exact ⟨_,sfsDirNentries_eq hv htype hd,Nat.le_refl _,fun hu => Nat.lt_irrefl _ hu.1⟩
        | some k =>
          obtain ⟨hlt,hz⟩ := hr.empty k hes
          exact ⟨k,rfl,Nat.le_of_lt hlt,fun hu => hu.2 hz⟩
      rw [bind_ok hslot]
      refine (sfsWritedir_spec h hv hd hk ⟨ino,name.buffer⟩).bind (fun _ u hu => ?_)
        fun _ u hu => ⟨hu.1,hu.2.1⟩
      obtain ⟨hown,hbec,hroom⟩ := hu
      refine ⟨hown,hbec,hd.enter hk hroom hfree hino ⟨59,by decide,?_⟩ fun j hj => ?_,hk,hfree⟩
      · show (name.chars[59]?).getD 0 = 0
        rw [List.getElem?_eq_none hlen]
        rfl
      · have htext : Dirent.text ⟨ino,name.buffer⟩ = name.chars := name.cstring_buffer hlen
        rw [htext]
        exact hr.absent (by simpa using hf) j hj.1 hj

theorem sfsDirUnlink_spec (h : Own s L none) (hv : s.vnode dir = some v)
    (hd : Directory (s.fileAt dir)) (hu : (s.fileAt dir).used k) :
    (sfsDirUnlink dir k s).Safe
      (fun _ t => Own t L none ∧ Becomes L dir ((s.fileAt dir).enter k noEntry) s t)
      fun _ _ => False := by
  refine (sfsWritedir_spec h hv hd (Nat.le_of_lt hu.1) noEntry).mono
    (fun _ t ht => ⟨ht.1,ht.2.1⟩) fun e t he => ?_
  rcases he.2.2 with ⟨_,hz⟩ | ⟨_,hlt⟩
  · exact used_mapped hu hz
  · have := (slot_le hd hu.1).2
    omega

end Programs

section Invariant

def File.names (f : File) (ino : Nat) : Prop := ∃ k, f.used k ∧ (f.entry k).ino = ino

/-- The inodes in use: the root, those with a name, those with a vnode. -/
def Live (s : Fs) (ino : Nat) : Prop :=
  ino = sfsRootLocation ∨ s.root.names ino ∨ s.loaded ino = true

/-- The root has one link more than names. -/
def rootLink (ino : Nat) : Nat := if ino = sfsRootLocation then 1 else 0

structure Inv (s : Fs) : Prop where
  own : Own s (Live s) none
  directory : Directory s.root
  links : ∀ i, Live s i →
    (s.fileAt i).linkcount = s.root.links i + rootLink i

def Fs.contents (s : Fs) (i : Nat) : Nat × Buffer := ((s.fileAt i).size,(s.fileAt i).byte)

structure Holds (s t : Fs) : Prop where
  live : ∀ i, Live s i → Live t i
  contents : ∀ i, Live s i → i ≠ sfsRootLocation → t.contents i = s.contents i

/-- The files that stay in use keep their contents. -/
def Keeps (s t : Fs) : Prop :=
  ∀ i, Live s i → Live t i → i ≠ sfsRootLocation → t.contents i = s.contents i

variable {s t u : Fs} {ino k : Nat} {v : SfsVnode}

theorem Holds.refl (s : Fs) : Holds s s := ⟨fun _ hi => hi,fun _ _ _ => rfl⟩

theorem Holds.trans (h : Holds s t) (h' : Holds t u) : Holds s u :=
  ⟨fun i hi => h'.live i (h.live i hi),
    fun i hi hr => (h'.contents i (h.live i hi) hr).trans (h.contents i hi hr)⟩

theorem Holds.keeps (h : Holds s t) : Keeps s t := fun i hi _ hr => h.contents i hi hr

theorem Holds.then_keeps (h : Holds s t) (h' : Keeps t u) : Keeps s u := fun i hi hi' hr =>
  (h' i (h.live i hi) hi' hr).trans (h.contents i hi hr)

/-- What a call leaves behind that writes to no file. -/
structure Orderly (s t : Fs) : Prop where
  inv : Inv t
  keeps : Keeps s t

theorem Holds.orderly (h : Holds s t) (ht : Inv t) : Orderly s t := ⟨ht,h.keeps⟩

/-- The root directory has got no name in itself. -/
def RootKept (s t : Fs) : Prop :=
  t.root.names sfsRootLocation →
    s.root.names sfsRootLocation

theorem RootKept.trans (h : RootKept s t) (h' : RootKept t u) : RootKept s u := fun hu => h (h' hu)

theorem RootKept.of_file (h : t.root = s.root) :
    RootKept s t := fun ht => h ▸ ht

/-- As `Orderly`, and the root has got no name. -/
structure Tidy (s t : Fs) : Prop extends Orderly s t where
  root : RootKept s t

theorem Inv.tidy (h : Inv s) : Tidy s s := ⟨⟨h,(Holds.refl s).keeps⟩,fun hs => hs⟩

theorem Holds.tidy (h : Holds s t) (hr : RootKept s t) (ht : Inv t) : Tidy s t :=
  ⟨h.orderly ht,hr⟩

theorem Holds.then_tidy (h : Holds s t) (hr : RootKept s t) (h' : Tidy t u) : Tidy s u :=
  ⟨⟨h'.inv,h.then_keeps h'.keeps⟩,hr.trans h'.root⟩

theorem live_root (s : Fs) : Live s sfsRootLocation := .inl rfl

theorem Same.root (h : Same (Live s) s t) : t.root = s.root := h.files _ (live_root s)

theorem live_loaded (h : s.loaded ino = true) : Live s ino := .inr (.inr h)

theorem Inv.linkcount_ne_zero (h : Inv s) (hino : ino = sfsRootLocation ∨
    s.root.names ino) : (s.fileAt ino).linkcount ≠ 0 := by
  rw [h.links ino (hino.imp_right .inl)]
  rcases hino with rfl | ⟨k,hu,hk⟩
  · simp [rootLink]
  · have hpos := (links_pos (hk ▸ hu.2)).mpr ⟨k,hu,hk⟩
    omega

theorem Inv.live_lt (h : Inv s) (hL : Live s ino) : ino < 2^32 := by
  have hlt := h.own.lt (o := .inode ino) ⟨hL,rfl⟩
  have hhigh := h.own.geo.high
  omega

theorem Inv.keep (h : Inv s) (hown : Own t (Live s) none)
    (hroot : t.root = s.root)
    (hlinks : ∀ i, Live s i → (t.fileAt i).linkcount = (s.fileAt i).linkcount)
    (hload : ∀ j, t.loaded j = true → Live s j)
    (hload' : ∀ j, s.loaded j = true → t.loaded j = true) : Inv t := by
  have hlive : ∀ i, Live t i ↔ Live s i := by
    intro i
    constructor
    · rintro (hi | hi | hi)
      · exact .inl hi
      · exact .inr (.inl (hroot ▸ hi))
      · exact hload i hi
    · rintro (hi | hi | hi)
      · exact .inl hi
      · exact .inr (.inl (hroot.symm ▸ hi))
      · exact .inr (.inr (hload' i hi))
  refine ⟨hown.congr hlive,by rw [hroot]; exact h.directory,fun i hi => ?_⟩
  have hi' := (hlive i).mp hi
  rw [hlinks i hi',hroot,h.links i hi']

theorem Inv.becomes {f : File} (h : Inv s) (hown : Own t (Live s) none)
    (hb : Becomes (Live s) ino f s t)
    (hroot : ino = sfsRootLocation → f = s.root)
    (hlinks : f.linkcount = (s.fileAt ino).linkcount) : Inv t := by
  refine h.keep hown ?_ (fun i hi => ?_) (fun j hj => ?_) fun j hj => ?_
  · by_cases hi : sfsRootLocation = ino
    · rw [← hroot hi.symm,Fs.root,hi]
      exact hb.self
    · exact hb.others _ (live_root s) hi
  · by_cases hii : i = ino
    · rw [hii,hb.self,hlinks]
    · rw [hb.others i hi hii]
  · rw [hb.loaded_eq] at hj
    exact live_loaded hj
  · rw [hb.loaded_eq]
    exact hj

theorem Same.holds (h : Same (Live s) s t)
    (hload : ∀ j, s.loaded j = true → t.loaded j = true) : Holds s t := by
  refine ⟨fun i hi => ?_,fun i hi _ => by rw [Fs.contents,h.files i hi]; rfl⟩
  rcases hi with hi | hi | hi
  · exact .inl hi
  · exact .inr (.inl (by rw [h.root]; exact hi))
  · exact live_loaded (hload i hi)

theorem Same.rootKept (h : Same (Live s) s t) : RootKept s t :=
  .of_file h.root

theorem Becomes.holds (h : Becomes (Live s) ino (s.fileAt ino) s t) : Holds s t :=
  h.same.holds fun j hj => by rw [h.loaded_eq]; exact hj

theorem Made.holds {b : Nat} (h : Made (Live s) b s t) : Holds s t :=
  h.same.holds fun j hj => by rw [h.loaded,hj,Bool.true_or]

theorem Inv.loads (h : Inv s) (hL : Live s ino) (ht : Loads (Live s) ino s t) : Inv t := by
  refine h.keep ht.own ht.same.root (fun i hi => by rw [ht.same.files i hi])
    (fun j hj => ?_) fun j hj => ?_
  · rw [ht.loaded,Bool.or_eq_true,beq_iff_eq] at hj
    rcases hj with hj | rfl
    · exact live_loaded hj
    · exact hL
  · rw [ht.loaded,hj,Bool.true_or]

theorem Inv.released_root (h : Inv s)
    (ht : Released (Live s) ino (s.fileAt ino).linkcount s t) :
    t.root = s.root :=
  ht.same.files _ ⟨live_root s,fun he => .inl (h.linkcount_ne_zero (he ▸ .inl rfl))⟩

theorem Inv.released (h : Inv s) (hl : s.loaded ino = true)
    (ht : Released (Live s) ino (s.fileAt ino).linkcount s t) : Tidy s t := by
  have hleft : ∀ i, i = sfsRootLocation ∨ s.root.names i →
      Left (Live s) ino (s.fileAt ino).linkcount t i := fun i hi =>
    ⟨hi.imp_right .inl,fun he => .inl (h.linkcount_ne_zero (he ▸ hi))⟩
  have hroot := h.released_root ht
  have hlive : ∀ i, Live t i ↔ Left (Live s) ino (s.fileAt ino).linkcount t i := by
    intro i
    constructor
    · rintro (hi | hi | hi)
      · exact hleft i (.inl hi)
      · exact hleft i (.inr (hroot ▸ hi))
      · by_cases hii : i = ino
        · rw [hii] at hi ⊢
          exact ⟨live_loaded hl,fun _ => .inr hi⟩
        · rw [ht.others i hii] at hi
          exact ⟨live_loaded hi,fun he => (hii he).elim⟩
    · rintro ⟨hi,hk⟩
      by_cases hii : i = ino
      · rcases hk hii with hz | hx
        · rw [hii] at hi ⊢
          rw [h.links ino hi] at hz
          by_cases hr : ino = sfsRootLocation
          · exact .inl hr
          · rw [rootLink,if_neg hr,Nat.add_zero] at hz
            refine .inr (.inl ?_)
            rw [hroot]
            exact (links_pos (h.own.live_ne_zero hi)).mp (Nat.pos_of_ne_zero hz)
        · exact hii ▸ live_loaded hx
      · rcases hi with hi | hi | hi
        · exact .inl hi
        · exact .inr (.inl (hroot.symm ▸ hi))
        · rw [← ht.others i hii] at hi
          exact live_loaded hi
  refine ⟨⟨⟨ht.own.congr hlive,by rw [hroot]; exact h.directory,fun i hi => ?_⟩,
    fun i _ hi _ => by rw [Fs.contents,ht.same.files i ((hlive i).mp hi)]; rfl⟩,.of_file hroot⟩
  have hi' := (hlive i).mp hi
  rw [ht.same.files i hi',hroot,h.links i hi'.1]

theorem Inv.made {b : Nat} (h : Inv s) (ht : Made (Live s) b s t) : Inv t := by
  have hroot := ht.same.root
  have hlive : ∀ i, Live t i ↔ Live s i ∨ i = b := by
    intro i
    constructor
    · rintro (hi | hi | hi)
      · exact .inl (.inl hi)
      · exact .inl (.inr (.inl (hroot ▸ hi)))
      · rw [ht.loaded,Bool.or_eq_true,beq_iff_eq] at hi
        exact hi.imp_left live_loaded
    · rintro ((hi | hi | hi) | rfl)
      · exact .inl hi
      · exact .inr (.inl (hroot.symm ▸ hi))
      · exact live_loaded (by rw [ht.loaded,hi,Bool.true_or])
      · exact live_loaded (by rw [ht.loaded,beq_self_eq_true,Bool.or_true])
  refine ⟨ht.own.congr hlive,by rw [hroot]; exact h.directory,fun i hi => ?_⟩
  rw [hroot]
  rcases (hlive i).mp hi with hi | rfl
  · rw [ht.same.files i hi,h.links i hi]
  · have hnew := ht.new
    have hnone : s.root.links i = 0 := by
      by_contra hne
      have hz : i ≠ sfsNoino := ht.own.live_ne_zero (.inr rfl)
      exact hnew (.inr (.inl ((links_pos hz).mp (Nat.pos_of_ne_zero hne))))
    have hr : i ≠ sfsRootLocation := fun he => hnew (.inl he)
    rw [ht.file,hnone,rootLink,if_neg hr]

end Invariant

section Relink

variable {s t : Fs} {ino k : Nat} {d : Dirent} {name : Name}

variable {f g : File} {u : Fs}

theorem used_congr (hs : f.size = g.size) (hb : f.byte = g.byte) (k : Nat) :
    f.used k ↔ g.used k := by
  rw [File.used,File.used,File.slots,File.slots,File.entry,File.entry,hs,hb]

theorem names_congr (hs : f.size = g.size) (hb : f.byte = g.byte) (i : Nat) :
    f.names i ↔ g.names i := by
  unfold File.names
  refine exists_congr fun k => and_congr (used_congr hs hb k) ?_
  rw [File.entry,File.entry,hb]

theorem links_congr (hs : f.size = g.size) (hb : f.byte = g.byte) (i : Nat) :
    f.links i = g.links i := by
  rw [File.links,File.links,File.slots,File.slots,hs]
  exact count_congr fun k _ => by rw [File.entry,File.entry,hb]

theorem Directory.congr (h : Directory g) (hs : f.size = g.size)
    (hb : f.byte = g.byte) : Directory f where
  size := hs ▸ h.size
  bound := hs ▸ h.bound
  nul k hk := by
    have := h.nul k ((used_congr hs hb k).mp hk)
    rwa [File.entry,hb]
  names j k hj hk := by
    have := h.names j k ((used_congr hs hb j).mp hj) ((used_congr hs hb k).mp hk)
    rwa [File.entry,File.entry,hb]

/-- A slot of the directory and the link count of `ino` have changed. -/
structure Relinked (ino k : Nat) (d : Dirent) (s u : Fs) : Prop where
  inv : Inv u
  live : ∀ i, Live u i ↔ Live s i
  loaded : ∀ j, u.loaded j = s.loaded j
  size : u.root.size = (s.root.enter k d).size
  byte : u.root.byte = (s.root.enter k d).byte
  others : ∀ i, Live s i → i ≠ sfsRootLocation → u.contents i = s.contents i

theorem Relinked.holds (h : Relinked ino k d s u) : Holds s u :=
  ⟨fun i hi => (h.live i).mpr hi,h.others⟩

theorem Relinked.rootKept (h : Relinked ino k d s u) (hs : Inv s)
    (hk : k ≤ s.root.slots) (hd : d.ino < 2^32) (hne : d.ino ≠ sfsRootLocation) :
    RootKept s u := by
  rintro ⟨j,hj,hino⟩
  rw [used_congr h.size h.byte,used_enter hs.directory.size hk hd] at hj
  rw [File.entry,h.byte] at hino
  have hjk : j ≠ k := by
    rintro rfl
    exact hne ((enter_self s.root j hd).ino.symm.trans hino)
  rw [if_neg hjk] at hj
  exact ⟨j,hj,(enter_other s.root d hjk).ino.symm.trans hino⟩

theorem Relinked.rootKept_erase (h : Relinked ino k noEntry s u) (hs : Inv s)
    (hk : s.root.used k) : RootKept s u :=
  h.rootKept hs (Nat.le_of_lt hk.1) (by decide) (by decide)

theorem relink (hl : s.loaded ino = true) (hown : Own t (Live s) none)
    (hb : Becomes (Live s) sfsRootLocation (s.root.enter k d) s t)
    (hdir : Directory (s.root.enter k d)) {g : Nat → Nat}
    (hg : ∀ i, Live s i → (s.root.enter k d).links i + rootLink i =
      if i = ino then g (s.fileAt i).linkcount else (s.fileAt i).linkcount)
    (hfit : g (s.fileAt ino).linkcount < 2^16)
    (hnames : ∀ i, (s.root.enter k d).names i → Live s i)
    (hnames' : ∀ i, s.root.names i →
      (s.root.enter k d).names i ∨ i = ino) :
    Relinked ino k d s (t.put ino fun i => { i with linkcount := g i.linkcount }) := by
  have hcount : ∀ i, Live s i → (t.fileAt i).linkcount = (s.fileAt i).linkcount := by
    intro i hi
    by_cases hr : i = sfsRootLocation
    · rw [hr,hb.self]
      rfl
    · rw [hb.others i hi hr]
  have hlt : t.loaded ino = true := by rw [hb.loaded_eq]; exact hl
  obtain ⟨w,hw⟩ := exists_vnode hlt
  have hwlink : w.i.linkcount = (s.fileAt ino).linkcount := by
    rw [← hcount ino (live_loaded hl),← inodeAt_loaded hw]
    rfl
  have hok := hown.loadedOk hw
  have hput := putSame_becomes (L := Live s) hw
    (g := fun i => { i with linkcount := g i.linkcount }) rfl rfl
  have hnew := hown.putSame (g := fun i => { i with linkcount := g i.linkcount }) hw
    ⟨hok.type,hok.size⟩ (by rw [hwlink]; exact hfit) rfl rfl
  generalize t.put ino (fun i => { i with linkcount := g i.linkcount }) = u at hput hnew ⊢
  have hself : ∀ i, Live s i → (u.fileAt i).size = (t.fileAt i).size ∧
      (u.fileAt i).byte = (t.fileAt i).byte ∧ (u.fileAt i).linkcount =
        if i = ino then g (s.fileAt i).linkcount else (s.fileAt i).linkcount := by
    intro i hi
    by_cases hii : i = ino
    · subst hii
      rw [hput.self,if_pos rfl,← hwlink]
      refine ⟨?_,rfl,rfl⟩
      rw [← inodeAt_loaded hw]
      rfl
    · rw [hput.others i hi hii,if_neg hii]
      exact ⟨rfl,rfl,hcount i hi⟩
  obtain ⟨hsize,hbyte,_⟩ := hself _ (live_root s)
  rw [hb.self] at hsize hbyte
  have hloaded : ∀ j, u.loaded j = s.loaded j := fun j =>
    (hput.loaded_eq j).trans (hb.loaded_eq j)
  have hlive : ∀ i, Live u i ↔ Live s i := by
    intro i
    constructor
    · rintro (hi | hi | hi)
      · exact .inl hi
      · exact hnames i ((names_congr hsize hbyte i).mp hi)
      · exact live_loaded (hloaded i ▸ hi)
    · rintro (hi | hi | hi)
      · exact .inl hi
      · rcases hnames' i hi with hi | rfl
        · exact .inr (.inl ((names_congr hsize hbyte i).mpr hi))
        · exact live_loaded (by rw [hloaded]; exact hl)
      · exact live_loaded (by rw [hloaded]; exact hi)
  refine ⟨⟨hnew.congr hlive,hdir.congr hsize hbyte,fun i hi => ?_⟩,hlive,hloaded,hsize,hbyte,
    fun i hi hr => ?_⟩
  · have hi' := (hlive i).mp hi
    rw [(hself i hi').2.2,links_congr hsize hbyte,hg i hi']
  · rw [Fs.contents,(hself i hi).1,(hself i hi).2.1,hb.others i hi hr]
    rfl

theorem links_bound (h : Directory s.root) (i : Nat) :
    s.root.links i + rootLink i < 2^16 - 1 := by
  have hle : s.root.links i ≤ s.root.slots := Nat.count_le _
  have hb := h.bound
  have hs : s.root.slots = s.root.size / 64 := rfl
  have hr : rootLink i ≤ 1 := by
    unfold rootLink
    split <;> omega
  omega

theorem Inv.entered (h : Inv s) (hl : s.loaded ino = true)
    (ht : Entered (Live s) sfsRootLocation name ino k s t) :
    ∃ u, linkcountUp ino t = .ok () u ∧ Relinked ino k ⟨ino,name.buffer⟩ s u := by
  have hlive := live_loaded hl
  have hino : ino < 2^32 := h.live_lt hlive
  have hz : ino ≠ sfsNoino := h.own.live_ne_zero hlive
  have hsize := h.directory.size
  have hused : ∀ j, (s.root.enter k ⟨ino,name.buffer⟩).used j ↔
      if j = k then ino ≠ sfsNoino else s.root.used j :=
    fun j => used_enter hsize ht.slot hino
  refine ⟨_,rfl,relink (g := fun n => (n + 1) % 2^16) hl ht.own ht.becomes ht.directory
    (fun i hi => ?_) (Nat.mod_lt _ (by decide)) (fun i hi => ?_) fun i hi => ?_⟩
  · have hlinks := links_enter (d := ⟨ino,name.buffer⟩) hsize ht.slot hino i
    have hbound := links_bound h.directory i
    have hcount := h.links i hi
    have hnot : ¬ (k < s.root.slots ∧
        (s.root.entry k).ino = i) := fun hc =>
      ht.free ⟨hc.1,by rw [hc.2]; exact h.own.live_ne_zero hi⟩
    rw [if_neg hnot,Nat.add_zero] at hlinks
    by_cases hii : i = ino
    · subst hii
      rw [if_pos rfl,hcount,hlinks,if_pos rfl,Nat.mod_eq_of_lt (by omega)]
      omega
    · have hne : ¬ ino = i := fun he => hii he.symm
      simp only [hne,if_false] at hlinks
      rw [if_neg hii,hcount,hlinks,Nat.add_zero]
  · obtain ⟨j,hj,hji⟩ := hi
    rw [hused] at hj
    by_cases hjk : j = k
    · subst hjk
      rw [(enter_self _ j hino).ino] at hji
      exact hji ▸ hlive
    · rw [if_neg hjk] at hj
      rw [(enter_other _ _ hjk).ino] at hji
      exact .inr (.inl ⟨j,hj,hji⟩)
  · obtain ⟨j,hj,hji⟩ := hi
    have hjk : j ≠ k := fun he => ht.free (he ▸ hj)
    refine .inl ⟨j,(hused j).mpr ?_,?_⟩
    · rw [if_neg hjk]
      exact hj
    · rw [(enter_other _ _ hjk).ino]
      exact hji

theorem Inv.unlinked (h : Inv s) (hl : s.loaded ino = true)
    (hu : s.root.used k)
    (hk : (s.root.entry k).ino = ino) (hown : Own t (Live s) none)
    (hb : Becomes (Live s) sfsRootLocation (s.root.enter k noEntry) s t) :
    ∃ v u, t.vnode ino = some v ∧ 0 < v.i.linkcount ∧ linkcountDown ino t = .ok () u ∧
      Relinked ino k noEntry s u := by
  have hlive := live_loaded hl
  have hsize := h.directory.size
  have hd : noEntry.ino < 2^32 := by decide
  have hlt : t.loaded ino = true := by rw [hb.loaded_eq]; exact hl
  obtain ⟨w,hw⟩ := exists_vnode hlt
  have hcount : w.i.linkcount = (s.fileAt ino).linkcount := by
    rw [← inodeAt_loaded hw]
    show (t.fileAt ino).linkcount = _
    by_cases hr : ino = sfsRootLocation
    · rw [hr,hb.self]
      rfl
    · rw [hb.others ino hlive hr]
  have hpos : 0 < (s.fileAt ino).linkcount :=
    Nat.pos_of_ne_zero (h.linkcount_ne_zero (.inr ⟨k,hu,hk⟩))
  refine ⟨w,_,hw,by rw [hcount]; exact hpos,rfl,
    relink (g := fun n => (n + 2^16 - 1) % 2^16) hl hown hb (h.directory.erase hu.1)
      (fun i hi => ?_) (Nat.mod_lt _ (by decide)) (fun i hi => ?_) fun i hi => ?_⟩
  · have hlinks := links_enter (d := noEntry) hsize (Nat.le_of_lt hu.1) hd i
    have hbound := links_bound h.directory i
    have hcnt := h.links i hi
    have hne : ¬ noEntry.ino = i := fun he => h.own.live_ne_zero hi he.symm
    rw [if_neg hne,Nat.add_zero] at hlinks
    by_cases hii : i = ino
    · subst hii
      rw [if_pos ⟨hu.1,hk⟩] at hlinks
      rw [if_pos rfl]
      omega
    · have hnot : ¬ (k < s.root.slots ∧
          (s.root.entry k).ino = i) := fun hc => hii (hc.2.symm.trans hk)
      rw [if_neg hnot] at hlinks
      rw [if_neg hii,hcnt]
      omega
  · obtain ⟨j,hj,hji⟩ := hi
    rw [used_enter hsize (Nat.le_of_lt hu.1) hd] at hj
    by_cases hjk : j = k
    · rw [if_pos hjk] at hj
      exact (hj rfl).elim
    · rw [if_neg hjk] at hj
      rw [(enter_other _ _ hjk).ino] at hji
      exact .inr (.inl ⟨j,hj,hji⟩)
  · obtain ⟨j,hj,hji⟩ := hi
    by_cases hjk : j = k
    · subst hjk
      exact .inr (hji.symm.trans hk)
    · refine .inl ⟨j,?_,?_⟩
      · rw [used_enter hsize (Nat.le_of_lt hu.1) hd,if_neg hjk]
        exact hj
      · rw [(enter_other _ _ hjk).ino]
        exact hji

end Relink

end MipsOs.Sfs
