import Mathlib.Data.Finset.Sum
import MipsOs.SfsWriteRules

/-! Two calls of sfs_write on different files do not interfere if each of the static buffers is
needed by one of them at most. -/

set_option autoImplicit false
namespace MipsOs.SfsWriters
open Bytes Coroutines Runs
open Sfs (Fs Inode SfsVnode File Panic LhdResult lhdSectsize sfsBlocksize sfsNdirect sfsDbperidb
  decodeIdbuf encodeIdbuf Request clip)

section Start

variable {fs : Fs} {i j k k' b : Nat}

def slotOwner (i k : Nat) : Sfs.Owner := if k = 143 then .indirect i else .slot i k

theorem slotOwner_inj (h : slotOwner i k = slotOwner j k') : i = j ∧ k = k' := by
  unfold slotOwner at h
  split at h <;> split at h
  · next hk hk' =>
    cases h
    exact ⟨rfl,hk.trans hk'.symm⟩
  · cases h
  · cases h
  · cases h
    exact ⟨rfl,rfl⟩

theorem slot_owned {L : Nat → Prop} (hL : L i) (hb : slot fs i k ≠ 0) :
    Sfs.owns fs L none (slotOwner i k) (slot fs i k) := by
  unfold slot at hb ⊢
  unfold slotOwner
  by_cases hlt : k < 143
  · rw [if_pos hlt] at hb ⊢
    rw [if_neg (by omega)]
    exact ⟨hL,hb,rfl⟩
  · rw [if_neg hlt] at hb ⊢
    by_cases he : k = 143
    · rw [if_pos he] at hb ⊢
      rw [if_pos he]
      exact ⟨hL,hb,rfl⟩
    · rw [if_neg he] at hb
      exact absurd rfl hb

variable {c : Setting}

def Setting.holding (c : Setting) (tickets : Bool → Finset Nat) (t : Bool) : Holding :=
  ⟨fun b => b ≠ 0 ∧ ∃ k, slot c.initial (c.ino t) k = b,tickets t⟩

variable {tickets : Bool → Finset Nat}

section

variable (hinv : Sfs.Inv c.initial) (hl : ∀ t, c.initial.loaded (c.ino t) = true)

include hinv hl

theorem start_fit (buf : Static → Buffer)
    (henough : c.fine → (tickets false).card + (tickets true).card ≤ (freeBlocks c.initial).card) :
    Fit c (c.holding tickets) ⟨c.initial,buf⟩ := by
  have hown := hinv.own
  have hlive : ∀ t, Sfs.Live c.initial (c.ino t) := fun t => .inr (.inr (hl t))
  refine ⟨rfl,hown.geo.padded,hown.geo.nblocks_le,hown.geo.beyond,hown.held_zero.2,fun _ hb => hb,
    ?_,?_,henough⟩
  · rintro t b ⟨hb,k,rfl⟩
    exact hown.isset (slot_owned (hlive t) hb)
  · rintro t u b hu ⟨hb,k,hk⟩ ⟨-,k',hk'⟩
    have ht := slot_owned (hlive t) (hk ▸ hb)
    have hu' := slot_owned (hlive u) (hk' ▸ hb)
    rw [hk] at ht
    rw [hk'] at hu'
    exact c.ino_ne t u hu (slotOwner_inj (hown.exact.unique _ _ b hu' ht)).1

theorem start_at (tickets : Bool → Finset Nat) (t : Bool)
    (hpaid : c.fine → ∀ k, c.wants t k → slot c.initial (c.ino t) k = 0 → k ∈ tickets t) :
    At c t (c.holding tickets t) (c.initial.fileAt (c.ino t)) (fun _ => False) c.initial := by
  have hown := hinv.own
  have hlive : Sfs.Live c.initial (c.ino t) := .inr (.inr (hl t))
  refine ⟨⟨⟨hown.geo.disk,hown.geo.small,?_⟩,Option.isSome_iff_exists.mp (hl t),
    fun k hk => ⟨hk,k,rfl⟩,fun k k' hk he => ?_,hpaid,fun k hz hk => absurd hz hk⟩,rfl,by simp⟩
  · rintro b ⟨hb,k,rfl⟩
    exact ⟨hb,hown.exact.sound _ _ (slot_owned hlive hb)⟩
  · have hk' := slot_owned hlive (he ▸ hk)
    rw [he] at hk'
    exact (slotOwner_inj (hown.exact.unique _ _ _ hk' (slot_owned hlive hk))).2

abbrev Going (c : Setting) (ws : Bool → Holding) (m : Writers) : Prop :=
  Kept (Same c) (Fit c) serve (fun r => r = LhdResult.ok) (Returned c) ws m

theorem start_going (buf : Static → Buffer)
    (henough : c.fine → (tickets false).card + (tickets true).card ≤ (freeBlocks c.initial).card)
    (hpaid : c.fine → ∀ t k, c.wants t k → slot c.initial (c.ino t) k = 0 → k ∈ tickets t) :
    Going c (c.holding tickets) (start ⟨c.initial,buf⟩ c.ino c.request) where
  fit := start_fit hinv hl buf henough
  idle t _ s' hs := by
    have hat := start_at hinv hl tickets t fun hfine => hpaid hfine t
    exact keeps_sfsWrite (hat.congr (s := ⟨c.initial,buf⟩) hs)
  busy t q hq := by cases hq

end

end Start

section Serial

variable {c : Setting} {m u : Writers} {ws : Bool → Holding} {acts : List (Bool × LhdResult)}

theorem run_going (h : Going c ws m) (hok : ∀ a ∈ acts, a.2 = LhdResult.ok)
    (hr : run (step serve) m acts = some u) : ∃ ws', Going c ws' u :=
  run_kept (same_equivalence c) (fun _ _ _ _ _ hs h => h.congr hs) h hok hr

variable {t : Bool} {k : Nat}

theorem Going.returned (h : Going c ws m) (hret : m.returned t) :
    Returned c t (ws t) (.ok ()) m.shared := h.ended (same_equivalence c) hret

theorem Going.ended_returned (h : Going c ws m) (hfine : c.fine)
    (hend : (m.code t).ended) (hd : m.device = none) : m.returned t := by
  cases hc : m.code t with
  | act | call =>
    rw [hc] at hend
    exact hend.elim
  | halt p =>
    have hw := h.idle t (by simp [hd]) m.shared ((same_equivalence c t (ws t)).refl _)
    rw [hc] at hw
    exact hw.elim
  | ret x =>
    have hpost := h.ended (same_equivalence c) hc
    cases x with
    | error e => exact absurd hfine hpost
    | ok x => exact hc

open Classical in
noncomputable def Setting.need (c : Setting) (t : Bool) : Finset Nat :=
  (Finset.range 144).filter fun k => c.wants t k ∧ slot c.initial (c.ino t) k = 0

theorem mem_need : k ∈ c.need t ↔ c.wants t k ∧ slot c.initial (c.ino t) k = 0 := by
  simp only [Setting.need,Finset.mem_filter,Finset.mem_range,and_iff_right_iff_imp]
  rintro ⟨hk | hk,-⟩ <;> omega

theorem Returned.slot_ne_zero {w : Holding} {s : Kernel}
    (h : Returned c t w (.ok ()) s) (hk : c.wants t k) : slot s.fs (c.ino t) k ≠ 0 := by
  rcases hk with ⟨hlt,hk⟩ | ⟨rfl,j,hj,hge⟩
  · rw [slot_lt hlt]
    exact h.1.mapped k hk
  · rw [slot_indirect]
    exact indirect_of_blockAt (h.1.mapped j hj) hge

theorem enough_of_returned (h : Going c ws m) (hret : ∀ t, m.returned t) :
    (c.need false).card + (c.need true).card ≤ (freeBlocks c.initial).card := by
  have hpost := fun t => h.returned (hret t)
  rw [← Finset.card_disjSum]
  refine Finset.card_le_card_of_injOn
    (Sum.elim (slot m.shared.fs (c.ino false)) (slot m.shared.fs (c.ino true))) ?_ ?_
  · have hfree : ∀ t k, k ∈ c.need t → slot m.shared.fs (c.ino t) k ∈ freeBlocks c.initial := by
      intro t k hk
      obtain ⟨hwant,hz⟩ := mem_need.mp hk
      have hne := (hpost t).slot_ne_zero hwant
      have hlt := ((hpost t).1.held _ ((hpost t).1.mine k hne)).2.1
      rw [h.fit.nblocks] at hlt
      exact mem_freeBlocks.mpr ⟨hlt,(hpost t).1.new k hz hne⟩
    rintro (k | k) hk
    · exact hfree false k (Finset.inl_mem_disjSum.mp hk)
    · exact hfree true k (Finset.inr_mem_disjSum.mp hk)
  · have hne : ∀ t k, k ∈ c.need t → slot m.shared.fs (c.ino t) k ≠ 0 := fun t k hk =>
      (hpost t).slot_ne_zero (mem_need.mp hk).1
    have hmine : ∀ t k, k ∈ c.need t → (ws t).mine (slot m.shared.fs (c.ino t) k) := fun t k hk =>
      (hpost t).1.mine k (hne t k hk)
    rintro (k | k) hk (k' | k') hk' he <;> simp only [Sum.elim_inl,Sum.elim_inr] at he
    · have hk := Finset.inl_mem_disjSum.mp hk
      exact congrArg Sum.inl ((hpost false).1.inj k k' (hne false k hk) he.symm).symm
    · have hk := hmine false k (Finset.inl_mem_disjSum.mp hk)
      have hk' := hmine true k' (Finset.inr_mem_disjSum.mp hk')
      exact absurd (he ▸ hk') (h.fit.apart false true _ (by simp) hk)
    · have hk := hmine true k (Finset.inr_mem_disjSum.mp hk)
      have hk' := hmine false k' (Finset.inl_mem_disjSum.mp hk')
      exact absurd (he ▸ hk') (h.fit.apart true false _ (by simp) hk)
    · have hk := Finset.inr_mem_disjSum.mp hk
      exact congrArg Sum.inr ((hpost true).1.inj k k' (hne true k hk) he.symm).symm

theorem serial_run (h : Going c ws m) (hfine : c.fine) (hd : m.device = none) (t : Bool) :
    ∃ n n', ∃ u : Writers, run (step serve) m
        (List.replicate n (t,LhdResult.ok) ++ List.replicate n' (!t,LhdResult.ok)) = some u ∧
      ∀ v, u.returned v := by
  have hall : ∀ n (v : Bool), ∀ a ∈ List.replicate n (v,LhdResult.ok), a.2 = LhdResult.ok := by
    intro n v a ha
    rw [List.eq_of_mem_replicate ha]
  obtain ⟨n,m₁,hfirst⟩ := alone serve t LhdResult.ok hd
  obtain ⟨ws₁,h₁⟩ := run_going h (hall n t) hfirst.run
  have hret := h₁.ended_returned hfine hfirst.ended hfirst.device
  obtain ⟨n',m₂,hsecond⟩ := alone serve (!t) LhdResult.ok hfirst.device
  obtain ⟨ws₂,h₂⟩ := run_going h₁ (hall n' (!t)) hsecond.run
  refine ⟨n,n',m₂,run_append.mpr ⟨m₁,hfirst.run,hsecond.run⟩,fun v => ?_⟩
  by_cases hv : v = !t
  · subst hv
    exact h₂.ended_returned hfine hsecond.ended hsecond.device
  · have hvt : v = t := by
      cases v <;> cases t <;> simp_all
    subst hvt
    exact (hsecond.others v hv).trans hret

end Serial

section Independent

variable {volname : Sfs.Name} {stSize : Fin (2^31)} {image : Nat → Sfs.Block} {s₀ fs : Fs}
  {before : List Sfs.Act} {ino : Bool → Nat} {r : Bool → Request}
  {acts : List (Bool × LhdResult)} {m : Writers}

def perBuffer (tio tid : Bool) : Static → Bool
  | .iobuf => tio
  | .idbuf => tid

/-- Two calls on the files of a volume, of which `w b` is one that does not need the buffer `b`. -/
def setting (hinv : Sfs.Inv fs) (hino : ino false ≠ ino true)
    (hl : ∀ t, fs.loaded (ino t) = true) (w : Static → Bool)
    (hio : (r (w .iobuf)).offset.val % 512 = 0 ∧ (r (w .iobuf)).length.val % 512 = 0)
    (hid : ∀ k, touches (r (w .idbuf)) k → k < 15) (fine : Prop)
    (hsound : fine → ∀ t i, i < (r t).length.val → (r t).faults i = false)
    (hinside : fine → ∀ t k, touches (r t) k → k < 143) : Setting where
  initial := fs
  ino := ino
  request := r
  uses t b := t ≠ w b
  fine := fine
  ino_ne t u hu := by
    cases t <;> cases u
    · exact absurd rfl hu
    · exact hino.symm
    · exact hino
    · exact absurd rfl hu
  uses_ne t u b hu ht hu' := by
    have hthird : ∀ a b c : Bool, b ≠ a → a ≠ c → b = c := by decide
    exact hu' (hthird t u (w b) hu ht)
  whole t ht := by
    rw [not_not.mp ht]
    exact hio
  direct t k ht hk := by
    rw [not_not.mp ht] at hk
    exact hid k hk
  size_lt t := (hinv.own.inodes (ino t) (.inr (.inr (hl t)))).size
  sound := hsound
  inside := hinside

theorem run_setting (hinv : Sfs.Inv fs) (hino : ino false ≠ ino true)
    (hl : ∀ t, fs.loaded (ino t) = true) (buf : Static → Buffer) (w : Static → Bool)
    (hio : (r (w .iobuf)).offset.val % 512 = 0 ∧ (r (w .iobuf)).length.val % 512 = 0)
    (hid : ∀ k, touches (r (w .idbuf)) k → k < 15) (hok : ∀ a ∈ acts, a.2 = LhdResult.ok)
    (hr : run (step serve) (start ⟨fs,buf⟩ ino r) acts = some m) :
    ∃ ws, Going (setting hinv hino hl w hio hid False False.elim False.elim) ws m := by
  let c := setting hinv hino hl w hio hid False False.elim False.elim
  have hstart : Going c (c.holding fun _ => ∅) (start ⟨fs,buf⟩ ino r) :=
    start_going (c := c) hinv hl buf False.elim False.elim
  exact run_going hstart hok hr

/-- A call that returns 0, alone or while the other one is running, leaves its file as sfs_write of
SfsVnode does that returns 0. -/
theorem write_as_single (hinv : Sfs.Inv fs) (buf : Static → Buffer) (hino : ino false ≠ ino true)
    (hl : ∀ t, fs.loaded (ino t) = true)
    (hio : ∃ t, (r t).offset.val % 512 = 0 ∧ (r t).length.val % 512 = 0)
    (hid : ∃ t, ∀ k, touches (r t) k → k < 15) (hok : ∀ a ∈ acts, a.2 = LhdResult.ok)
    (hr : run (step serve) (start ⟨fs,buf⟩ ino r) acts = some m) {t : Bool} (hret : m.returned t)
    {x : Sfs.Uio} {u : Fs}
    (hone : Sfs.sfsReadWrite (ino t) ((r t).uio .write) fs = .ok (.ok (),x) u) :
    m.shared.fs.fileAt (ino t) = u.fileAt (ino t) := by
  obtain ⟨tio,hio⟩ := hio
  obtain ⟨tid,hid⟩ := hid
  obtain ⟨ws,hgoing⟩ := run_setting hinv hino hl buf (perBuffer tio tid) hio hid hok hr
  obtain ⟨v,hv⟩ := Sfs.exists_vnode (hl t)
  have hw := Sfs.sfsReadWrite_write hinv.own hv (r t)
  rw [hone] at hw
  exact (hgoing.returned hret).1.file.trans (Sfs.Written.becomes hw).self.symm

/-- Writes to different files do not interfere, provided that one of the calls does not need iobuf,
one does not need idbuf, and the disk reports no errors. -/
theorem writes_do_not_interfere (hv : Sfs.volume volname stSize image = some s₀)
    (hb : run Sfs.step s₀ before = some fs) (buf : Static → Buffer)
    (hino : ino false ≠ ino true) (hl : ∀ t, fs.loaded (ino t) = true)
    (hio : ∃ t, (r t).offset.val % 512 = 0 ∧ (r t).length.val % 512 = 0)
    (hid : ∃ t, ∀ k, touches (r t) k → k < 15) (hok : ∀ a ∈ acts, a.2 = LhdResult.ok)
    (hr : run (step serve) (start ⟨fs,buf⟩ ino r) acts = some m)
    (hret : ∀ t, m.returned t) (t : Bool) :
    ∃ n n', ∃ m' : Writers, run (step serve) (start ⟨fs,buf⟩ ino r)
        (List.replicate n (t,LhdResult.ok) ++ List.replicate n' (!t,LhdResult.ok)) = some m' ∧
      ∀ u, m'.returned u ∧ m.shared.fs.fileAt (ino u) = m'.shared.fs.fileAt (ino u) := by
  have hinv := Sfs.reachable_inv hv hb
  obtain ⟨tio,hio⟩ := hio
  obtain ⟨tid,hid⟩ := hid
  -- first the schedule at hand, of which nothing is known but that both calls return 0
  obtain ⟨ws,hgoing⟩ := run_setting hinv hino hl buf (perBuffer tio tid) hio hid hok hr
  have hpost := fun u => hgoing.returned (hret u)
  -- so there is nothing to stop the calls when they are run one after the other
  let c' := setting hinv hino hl (perBuffer tio tid) hio hid True (fun _ u => (hpost u).2)
    fun _ u k hk => lt_of_blockAt ((hpost u).1.mapped k hk)
  have henough := enough_of_returned hgoing hret
  have hstart' : Going c' (c'.holding c'.need) (start ⟨fs,buf⟩ ino r) :=
    start_going (c := c') hinv hl buf (fun _ => henough) fun _ u k hk hz => mem_need.mpr ⟨hk,hz⟩
  obtain ⟨n,n',m',hr',hret'⟩ := serial_run hstart' True.intro rfl t
  have hall : ∀ a ∈ List.replicate n (t,LhdResult.ok) ++ List.replicate n' (!t,LhdResult.ok),
      a.2 = LhdResult.ok := by
    intro a ha
    rcases List.mem_append.mp ha with ha | ha <;> rw [List.eq_of_mem_replicate ha]
  obtain ⟨ws',hgoing'⟩ := run_going hstart' hall hr'
  refine ⟨n,n',m',hr',fun u => ⟨hret' u,?_⟩⟩
  exact (hpost u).1.file.trans (hgoing'.returned (hret' u)).1.file.symm

def Name.b : Sfs.Name := ⟨[98],by decide⟩

/-- The new files are 3 and 5. -/
def newFiles : List Sfs.Act :=
  [.getroot,.creat Sfs.sfsRootLocation Sfs.Name.a false,.creat Sfs.sfsRootLocation Name.b false]

def filesOf (t : Bool) : Nat := bif t then 5 else 3

def blockAndByte (t : Bool) : Request := bif t then .fill 0 1 98 else .fill 0 512 97

def runs (l : List Bool) : List (Bool × LhdResult) := l.map fun t => (t,LhdResult.ok)

theorem runs_ok (l : List Bool) : ∀ a ∈ runs l, a.2 = LhdResult.ok := by
  intro a ha
  obtain ⟨t,-,rfl⟩ := List.mem_map.mp ha
  rfl

theorem all_threads {p : Bool → Bool} (h : [false,true].all p = true) (t : Bool) : p t = true :=
  List.all_eq_true.mp h t (by cases t <;> simp)

theorem touches_first {r : Request} (h : r.offset.val + r.length.val ≤ 512) {k : Nat}
    (hk : touches r k) : k < 15 := by
  have hlt := hk.2
  omega

theorem writes_do_not_interfere_newFiles : ∃ s₀ fs, ∃ m : Writers,
    Sfs.volume4096 = some s₀ ∧ run Sfs.step s₀ newFiles = some fs ∧
    run (step serve) (start ⟨fs,fun _ => zeros⟩ filesOf blockAndByte)
      (runs [false,true,false,false,true,true,false,false,true,true,true,true]) = some m ∧
    (∀ t, m.returned t) ∧
    ∀ t, ∃ n n', ∃ m' : Writers,
      run (step serve) (start ⟨fs,fun _ => zeros⟩ filesOf blockAndByte)
        (List.replicate n (t,LhdResult.ok) ++ List.replicate n' (!t,LhdResult.ok)) = some m' ∧
      ∀ u, m'.returned u ∧
        m.shared.fs.fileAt (filesOf u) = m'.shared.fs.fileAt (filesOf u) := by
  have h : (Sfs.volume4096.any fun s₀ => (run Sfs.step s₀ newFiles).any fun fs =>
      [false,true].all (fun t => fs.loaded (filesOf t)) &&
      (run (step serve) (start ⟨fs,fun _ => zeros⟩ filesOf blockAndByte)
        (runs [false,true,false,false,true,true,false,false,true,true,true,true])).any fun m =>
          [false,true].all (Writers.done m)) = true := by
    decide +kernel
  obtain ⟨s₀,hs₀,h⟩ := some_of_any h
  obtain ⟨fs,hfs,h⟩ := some_of_any h
  simp only [Bool.and_eq_true] at h
  obtain ⟨hl,h⟩ := h
  obtain ⟨m,hm,h⟩ := some_of_any h
  have hret : ∀ t, Writers.returned m t := fun t => Writers.returned_of_done (all_threads h t)
  refine ⟨s₀,fs,m,hs₀,hfs,hm,hret,fun t => ?_⟩
  exact writes_do_not_interfere hs₀ hfs _ (by decide) (all_threads hl) ⟨false,by decide⟩
    ⟨true,fun k hk => touches_first (by decide) hk⟩ (runs_ok _) hm hret t

/-- Two files of one block each, one full of A, the other of B. -/
def oneBlockFiles : List Sfs.Act :=
  newFiles ++ [.write 3 (.fill 0 512 65),.write 5 (.fill 0 512 66)]

def byteEach (t : Bool) : Request := bif t then .fill 0 1 98 else .fill 0 1 97

/-- Thread `true` reads its block into iobuf when thread `false` has put its byte there and is about
to write it. In the end file 3 has the contents of file 5, which it has in neither order. -/
theorem iobuf_overwritten : ∃ s₀ fs, ∃ m : Writers,
    Sfs.volume4096 = some s₀ ∧ run Sfs.step s₀ oneBlockFiles = some fs ∧
    (∀ t, fs.loaded (filesOf t) = true) ∧
    run (step serve) (start ⟨fs,fun _ => zeros⟩ filesOf byteEach)
      (runs [false,false,false,true,true,true,false,false,true,true]) = some m ∧
    (∀ t, m.returned t) ∧
    ((m.shared.fs.fileAt 3).byte 0 = 98 ∧ (m.shared.fs.fileAt 3).byte 1 = 66) ∧
    ∀ t, ∃ m' : Writers, run (step serve) (start ⟨fs,fun _ => zeros⟩ filesOf byteEach)
        (runs (List.replicate 5 t ++ List.replicate 5 (!t))) = some m' ∧
      (∀ u, m'.returned u) ∧
      (m'.shared.fs.fileAt 3).byte 0 = 97 ∧ (m'.shared.fs.fileAt 3).byte 1 = 65 := by
  have h : (Sfs.volume4096.any fun s₀ => (run Sfs.step s₀ oneBlockFiles).any fun fs =>
      [false,true].all (fun t => fs.loaded (filesOf t)) &&
      ([false,true].all fun t => (run (step serve)
        (start ⟨fs,fun _ => zeros⟩ filesOf byteEach)
        (runs (List.replicate 5 t ++ List.replicate 5 (!t)))).any fun m' =>
          [false,true].all (Writers.done m') && decide ((m'.shared.fs.fileAt 3).byte 0 = 97 ∧
            (m'.shared.fs.fileAt 3).byte 1 = 65)) &&
      (run (step serve) (start ⟨fs,fun _ => zeros⟩ filesOf byteEach)
        (runs [false,false,false,true,true,true,false,false,true,true])).any fun m =>
          [false,true].all (Writers.done m) && decide ((m.shared.fs.fileAt 3).byte 0 = 98 ∧
            (m.shared.fs.fileAt 3).byte 1 = 66)) = true := by
    decide +kernel
  obtain ⟨s₀,hs₀,h⟩ := some_of_any h
  obtain ⟨fs,hfs,h⟩ := some_of_any h
  simp only [Bool.and_eq_true] at h
  obtain ⟨⟨hl,hserial⟩,h⟩ := h
  obtain ⟨m,hm,h⟩ := some_of_any h
  simp only [Bool.and_eq_true] at h
  refine ⟨s₀,fs,m,hs₀,hfs,all_threads hl,hm,fun t => Writers.returned_of_done (all_threads h.1 t),
    of_decide_eq_true h.2,fun t => ?_⟩
  obtain ⟨m',hm',h'⟩ := some_of_any (all_threads hserial t)
  simp only [Bool.and_eq_true] at h'
  exact ⟨m',hm',fun u => Writers.returned_of_done (all_threads h'.1 u),of_decide_eq_true h'.2⟩

end Independent

end MipsOs.SfsWriters
