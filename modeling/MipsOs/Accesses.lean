import MipsOs.Bytes
import MipsOs.Prog

/-! A byte-addressed memory whose accesses are recorded and may fault. Which accesses fault can
depend on all those made before. -/

set_option autoImplicit false
namespace MipsOs.Accesses
open Prog Bytes

structure Access where
  write : Bool
  addr : Nat
  width : Nat
  deriving DecidableEq, Repr

/-- All bytes of the access are among the `n` bytes at `lo`. -/
def Access.Inside (a : Access) (lo n : Nat) : Prop := lo ≤ a.addr ∧ a.addr + a.width ≤ lo + n

def Access.Aligned (a : Access) : Prop := a.width ∣ a.addr

structure Space where
  mem : Buffer
  trace : List Access

structure Fault where
  deriving DecidableEq, Repr

abbrev Faults : Type := List Access → Access → Bool

section Programs

variable {π : Type} (fl : Faults)

def access (a : Access) : Prog Space Fault π Unit := fun s =>
  if fl s.trace a then .err ⟨⟩ { s with trace := a :: s.trace }
  else .ok () { s with trace := a :: s.trace }

def loadByte (addr : Nat) : Prog Space Fault π Byte := do
  access fl ⟨false,addr,1⟩
  let s ← get
  pure (s.mem addr)

def storeByte (addr : Nat) (b : Byte) : Prog Space Fault π Unit := do
  access fl ⟨true,addr,1⟩
  modify fun s => { s with mem := fun j => if j = addr then b else s.mem j }

def loadWord (addr : Nat) : Prog Space Fault π Nat := do
  access fl ⟨false,addr,4⟩
  let s ← get
  pure (be32 s.mem addr)

def storeWord (addr n : Nat) : Prog Space Fault π Unit := do
  access fl ⟨true,addr,4⟩
  modify fun s => { s with mem := splice s.mem addr 4 (be32Byte n) 0 }

/-- One load and one store of `p.2` bytes at offset `p.1` of two blocks. -/
def move (dst src : Nat) (p : Nat × Nat) : Prog Space Fault π Unit := do
  access fl ⟨false,src + p.1,p.2⟩
  access fl ⟨true,dst + p.1,p.2⟩
  modify fun s => { s with mem := splice s.mem (dst + p.1) p.2 s.mem (src + p.1) }

def copy (dst src : Nat) : List (Nat × Nat) → Prog Space Fault π Unit
  | [] => pure ()
  | p :: ps => do
    move fl dst src p
    copy dst src ps

end Programs

/-- How a copying routine goes through a block: piece by piece, each of them inside and aligned, and
none of the bytes left out. -/
structure CopyRoutine where
  pieces : Nat → Nat → Nat → List (Nat × Nat)
  inside : ∀ dst src len, ∀ p ∈ pieces dst src len, p.1 + p.2 ≤ len
  aligned : ∀ dst src len, ∀ p ∈ pieces dst src len, p.2 ∣ src + p.1 ∧ p.2 ∣ dst + p.1
  covers : ∀ dst src len i, i < len → ∃ p ∈ pieces dst src len, p.1 ≤ i ∧ i < p.1 + p.2

def bytewise : CopyRoutine where
  pieces _ _ len := (List.range len).map fun i => (i,1)
  inside _ _ len p hp := by
    obtain ⟨i,hi,rfl⟩ := List.mem_map.mp hp
    have := List.mem_range.mp hi
    omega
  aligned _ _ len p hp := by
    obtain ⟨i,-,rfl⟩ := List.mem_map.mp hp
    exact ⟨Nat.one_dvd _,Nat.one_dvd _⟩
  covers _ _ len i hi := ⟨(i,1),List.mem_map.mpr ⟨i,List.mem_range.mpr hi,rfl⟩,by simp⟩

def memcpy {π : Type} (c : CopyRoutine) (fl : Faults) (dst src len : Nat) :
    Prog Space Fault π Unit := copy fl dst src (c.pieces dst src len)

section Traces

/-- From `s` to `t` there were accesses in `P` only, and bytes that none of them stored to are as
before. -/
def Grows (P : Access → Prop) (s t : Space) : Prop :=
  ∃ new, t.trace = new ++ s.trace ∧ (∀ a ∈ new, P a) ∧
    ∀ j, (∀ a ∈ new, a.write = true → ¬ (a.addr ≤ j ∧ j < a.addr + a.width)) → t.mem j = s.mem j

variable {π α β : Type} {fl : Faults} {P P' : Access → Prop} {s t u : Space}

theorem Grows.refl (P : Access → Prop) (s : Space) : Grows P s s :=
  ⟨[],rfl,by simp,fun _ _ => rfl⟩

theorem Grows.trans (h : Grows P s t) (h' : Grows P t u) : Grows P s u := by
  obtain ⟨new,htrace,hp,hmem⟩ := h
  obtain ⟨new',htrace',hp',hmem'⟩ := h'
  refine ⟨new' ++ new,by rw [htrace',htrace,List.append_assoc],fun a ha => ?_,fun j hj => ?_⟩
  · exact (List.mem_append.mp ha).elim (hp' a) (hp a)
  · rw [hmem' j fun a ha => hj a (by simp [ha]),hmem j fun a ha => hj a (by simp [ha])]

theorem Grows.mono (h : Grows P s t) (hp : ∀ a, P a → P' a) : Grows P' s t := by
  obtain ⟨new,htrace,hall,hmem⟩ := h
  exact ⟨new,htrace,fun a ha => hp a (hall a ha),hmem⟩

theorem Grows.mem_eq (h : Grows P s t) {j : Nat}
    (hj : ∀ a, P a → a.write = true → ¬ (a.addr ≤ j ∧ j < a.addr + a.width)) :
    t.mem j = s.mem j := by
  obtain ⟨new,-,hall,hmem⟩ := h
  exact hmem j fun a ha hw => hj a (hall a ha) hw

/-- All accesses are in `P`, and an error means that one of them has faulted. -/
def Obeys (fl : Faults) (P : Access → Prop) (s : Space) (o : Outcome Space Fault π α) : Prop :=
  o.Safe (fun _ t => Grows P s t) fun _ t => Grows P s t ∧ ∃ tr a, P a ∧ fl tr a = true

theorem Obeys.bind {f : Prog Space Fault π α} {g : α → Prog Space Fault π β}
    (hf : Obeys fl P s (f s)) (hg : ∀ a t, Obeys fl P t (g a t)) :
    Obeys fl P s ((f >>= g) s) := by
  refine Outcome.Safe.bind hf (fun a t ht => ?_) fun _ _ he => he
  exact (hg a t).mono (fun _ _ hu => ht.trans hu) fun _ _ hu => ⟨ht.trans hu.1,hu.2⟩

variable {a : Access} {addr dst src len : Nat}

theorem access_ok (h : fl s.trace a = false) :
    access (π := π) fl a s = .ok () { s with trace := a :: s.trace } := by
  simp [access,h]

theorem access_err (h : fl s.trace a = true) :
    access (π := π) fl a s = .err ⟨⟩ { s with trace := a :: s.trace } := by
  simp [access,h]

theorem access_obeys (ha : P a) : Obeys fl P s (access (π := π) fl a s) := by
  have hgrows : Grows P s { s with trace := a :: s.trace } :=
    ⟨[a],rfl,by simpa using ha,fun _ _ => rfl⟩
  cases hf : fl s.trace a with
  | true =>
    rw [access_err hf]
    exact ⟨hgrows,s.trace,a,ha,hf⟩
  | false =>
    rw [access_ok hf]
    exact hgrows

theorem store_obeys {width : Nat} (ha : P ⟨true,addr,width⟩) {k : Space → Buffer}
    (hk : ∀ s j, ¬ (addr ≤ j ∧ j < addr + width) → k s j = s.mem j) :
    Obeys fl P s ((access fl ⟨true,addr,width⟩ >>= fun _ => modify fun s => { s with mem := k s } :
      Prog Space Fault π Unit) s) := by
  have hgrows : ∀ m : Buffer, (∀ j, ¬ (addr ≤ j ∧ j < addr + width) → m j = s.mem j) →
      Grows P s ⟨m,⟨true,addr,width⟩ :: s.trace⟩ := fun m hm =>
    ⟨[⟨true,addr,width⟩],rfl,by simpa using ha,fun j hj => hm j (hj _ List.mem_cons_self rfl)⟩
  cases hf : fl s.trace ⟨true,addr,width⟩ with
  | true =>
    rw [bind_err (access_err hf)]
    exact ⟨hgrows _ fun _ _ => rfl,s.trace,_,ha,hf⟩
  | false =>
    rw [bind_ok (access_ok hf)]
    exact hgrows _ fun j hj => hk _ j hj

theorem loadByte_obeys (ha : P ⟨false,addr,1⟩) :
    Obeys fl P s (loadByte (π := π) fl addr s) :=
  .bind (access_obeys ha) fun _ t => Grows.refl P t

theorem storeByte_obeys (b : Byte) (ha : P ⟨true,addr,1⟩) :
    Obeys fl P s (storeByte (π := π) fl addr b s) := by
  refine store_obeys ha fun s j hj => if_neg ?_
  omega

theorem storeWord_obeys (n : Nat) (ha : P ⟨true,addr,4⟩) :
    Obeys fl P s (storeWord (π := π) fl addr n s) :=
  store_obeys ha fun _ _ hj => splice_outside (by omega)

theorem copy_obeys (ps : List (Nat × Nat))
    (hps : ∀ p ∈ ps, P ⟨false,src + p.1,p.2⟩ ∧ P ⟨true,dst + p.1,p.2⟩) :
    Obeys fl P s (copy (π := π) fl dst src ps s) := by
  induction ps generalizing s with
  | nil => exact Grows.refl P s
  | cons p ps ih =>
    have hp := hps p List.mem_cons_self
    refine .bind (.bind (access_obeys hp.1) fun _ t =>
      store_obeys hp.2 fun _ _ hj => splice_outside (by omega)) fun _ t => ?_
    exact ih fun q hq => hps q (List.mem_cons_of_mem p hq)

theorem memcpy_obeys (c : CopyRoutine)
    (hload : ∀ a : Access, a.write = false → a.Inside src len → P a)
    (hstore : ∀ a : Access, a.write = true → a.Inside dst len → P a) :
    Obeys fl P s (memcpy (π := π) c fl dst src len s) := by
  refine copy_obeys _ fun p hp => ?_
  have hin := c.inside dst src len p hp
  exact ⟨hload _ rfl ⟨Nat.le_add_right _ _,by show src + p.1 + p.2 ≤ _; omega⟩,
    hstore _ rfl ⟨Nat.le_add_right _ _,by show dst + p.1 + p.2 ≤ _; omega⟩⟩

theorem Grows.length_le (h : Grows P s t) : s.trace.length ≤ t.trace.length := by
  obtain ⟨new,htrace,-⟩ := h
  rw [htrace,List.length_append]
  exact Nat.le_add_left _ _

theorem copy_cons_touches (p : Nat × Nat) (ps : List (Nat × Nat)) :
    (copy fl dst src (p :: ps) s : Outcome Space Fault π Unit).Safe
      (fun _ t => s.trace.length < t.trace.length) fun _ t => s.trace.length < t.trace.length := by
  have hfirst : (access (π := π) fl ⟨false,src + p.1,p.2⟩ s).Safe
      (fun _ t => s.trace.length < t.trace.length) fun _ t => s.trace.length < t.trace.length := by
    unfold access
    split
    · exact Nat.lt_succ_self _
    · exact Nat.lt_succ_self _
  refine .bind (Q := fun _ t => s.trace.length < t.trace.length)
    (.bind hfirst (fun _ t ht => ?_) fun _ _ ht => ht) (fun _ t ht => ?_) fun _ _ ht => ht
  · exact Outcome.Safe.mono (store_obeys (P := fun _ => True) trivial fun _ _ hj =>
      splice_outside (by omega)) (fun _ _ hu => ht.trans_le hu.length_le) fun _ _ hu =>
        ht.trans_le hu.1.length_le
  · exact Outcome.Safe.mono (copy_obeys (P := fun _ => True) ps fun _ _ => ⟨trivial,trivial⟩)
      (fun _ _ hu => ht.trans_le hu.length_le) fun _ _ hu => ht.trans_le hu.1.length_le

theorem memcpy_touches (c : CopyRoutine) (hlen : 1 ≤ len) :
    (memcpy (π := π) c fl dst src len s).Safe
      (fun _ t => s.trace.length < t.trace.length) fun _ t => s.trace.length < t.trace.length := by
  obtain ⟨p,hp,-⟩ := c.covers dst src len 0 hlen
  unfold memcpy
  cases hps : c.pieces dst src len with
  | nil =>
    rw [hps] at hp
    cases hp
  | cons q qs => exact copy_cons_touches q qs

def Loaded (fl : Faults) (s t : Space) (lo n : Nat) : Prop :=
  ∀ j, lo ≤ j → j < lo + n → ∃ a tr, a :: tr <:+ t.trace ∧ s.trace <:+ tr ∧ a.write = false ∧
    a.addr ≤ j ∧ j < a.addr + a.width ∧ fl tr a = false

theorem Loaded.later {lo n : Nat} (h : Loaded fl s t lo n) (hu : t.trace <:+ u.trace) :
    Loaded fl s u lo n := by
  intro j hj hj'
  obtain ⟨a,tr,hin,hrest⟩ := h j hj hj'
  exact ⟨a,tr,hin.trans hu,hrest⟩

theorem Grows.suffix (h : Grows P s t) : s.trace <:+ t.trace := by
  obtain ⟨new,htrace,-⟩ := h
  exact ⟨new,htrace.symm⟩

theorem copy_loaded (ps : List (Nat × Nat)) :
    (copy (π := π) fl dst src ps s).Safe
      (fun _ t => ∀ p ∈ ps, ∃ tr, ⟨false,src + p.1,p.2⟩ :: tr <:+ t.trace ∧ s.trace <:+ tr ∧
        fl tr ⟨false,src + p.1,p.2⟩ = false) fun _ _ => True := by
  induction ps generalizing s with
  | nil => simp [copy,Outcome.Safe]
  | cons p ps ih =>
    have hmove : (move (π := π) fl dst src p s).Safe
        (fun _ t => fl s.trace ⟨false,src + p.1,p.2⟩ = false ∧
          ⟨false,src + p.1,p.2⟩ :: s.trace <:+ t.trace) fun _ _ => True := by
      unfold move
      cases hf : fl s.trace ⟨false,src + p.1,p.2⟩ with
      | true =>
        rw [bind_err (access_err hf)]
        trivial
      | false =>
        rw [bind_ok (access_ok hf)]
        exact Outcome.Safe.mono (store_obeys (P := fun _ => True) trivial fun _ _ hj =>
          splice_outside (by omega)) (fun _ _ hu => ⟨rfl,hu.suffix⟩) fun _ _ _ => trivial
    refine hmove.andThen fun _ t ht => ?_
    have hrest : (copy (π := π) fl dst src ps t).Safe
        (fun _ u => t.trace <:+ u.trace) fun _ _ => True :=
      Outcome.Safe.mono (copy_obeys (P := fun _ => True) ps fun _ _ => ⟨trivial,trivial⟩)
        (fun _ _ hu => hu.suffix) fun _ _ _ => trivial
    have hboth := ih (s := t)
    cases hrun : copy (π := π) fl dst src ps t with
    | ok a u =>
      rw [hrun] at hrest hboth
      intro q hq
      rcases List.mem_cons.mp hq with rfl | hq
      · exact ⟨s.trace,ht.2.trans hrest,List.suffix_refl _,ht.1⟩
      · obtain ⟨tr,hin,hold,hf⟩ := hboth q hq
        exact ⟨tr,hin,((List.suffix_cons _ _).trans ht.2).trans hold,hf⟩
    | err e u => trivial
    | panic p =>
      rw [hrun] at hrest
      exact hrest.elim

theorem memcpy_loaded (c : CopyRoutine) :
    (memcpy (π := π) c fl dst src len s).Safe
      (fun _ t => Loaded fl s t src len) fun _ _ => True := by
  refine (copy_loaded (c.pieces dst src len)).mono (fun _ t ht j hj hj' => ?_) fun _ _ he => he
  obtain ⟨p,hp,hlow,hhigh⟩ := c.covers dst src len (j - src) (by omega)
  obtain ⟨tr,hin,hold,hf⟩ := ht p hp
  exact ⟨_,tr,hin,hold,rfl,by show src + p.1 ≤ j; omega,by show j < src + p.1 + p.2; omega,hf⟩

def Faulted (fl : Faults) (s t : Space) : Prop :=
  ∃ a tr, t.trace = a :: tr ∧ s.trace <:+ tr ∧ fl tr a = true

/-- No access from `s` to `t` has faulted. -/
def Unfaulted (fl : Faults) (s t : Space) : Prop :=
  ∀ a tr, a :: tr <:+ t.trace → s.trace <:+ tr → fl tr a = false

theorem Faulted.not_unfaulted (h : Faulted fl s t) : ¬ Unfaulted fl s t := by
  obtain ⟨a,tr,htrace,hsuffix,hf⟩ := h
  intro hall
  rw [hall a tr (htrace ▸ List.suffix_refl _) hsuffix] at hf
  cases hf

end Traces

section Quiet

def copied (dst src : Nat) (ps : List (Nat × Nat)) (mem : Buffer) : Buffer :=
  ps.foldl (fun m p => splice m (dst + p.1) p.2 m (src + p.1)) mem

variable {π : Type} {fl : Faults} {s : Space} {dst src len : Nat}

def Apart (dst src len : Nat) : Prop := dst + len ≤ src ∨ src + len ≤ dst

theorem copied_at (hapart : Apart dst src len) (ps : List (Nat × Nat))
    (hin : ∀ p ∈ ps, p.1 + p.2 ≤ len) (mem : Buffer) (j : Nat) :
    (copied dst src ps mem j = mem (j - dst + src) ∧ dst ≤ j ∧ j < dst + len ∨
      copied dst src ps mem j = mem j) ∧
    ∀ p ∈ ps, dst + p.1 ≤ j → j < dst + p.1 + p.2 →
      copied dst src ps mem j = mem (j - dst + src) := by
  induction ps generalizing mem with
  | nil => simp [copied]
  | cons p ps ih =>
    have hp := hin p List.mem_cons_self
    obtain ⟨hcases,hpieces⟩ := ih (fun q hq => hin q (List.mem_cons_of_mem p hq))
      (splice mem (dst + p.1) p.2 mem (src + p.1))
    have hstep : copied dst src (p :: ps) mem =
        copied dst src ps (splice mem (dst + p.1) p.2 mem (src + p.1)) := rfl
    -- the source block stays as it is
    have hsrc : ∀ k, dst ≤ k → k < dst + len →
        splice mem (dst + p.1) p.2 mem (src + p.1) (k - dst + src) = mem (k - dst + src) := by
      intro k hk hk'
      refine splice_outside ?_
      unfold Apart at hapart
      omega
    have hfirst : splice mem (dst + p.1) p.2 mem (src + p.1) j = mem j ∨
        splice mem (dst + p.1) p.2 mem (src + p.1) j = mem (j - dst + src) ∧
          dst ≤ j ∧ j < dst + len := by
      by_cases hj : dst + p.1 ≤ j ∧ j < dst + p.1 + p.2
      · right
        rw [splice_inside hj.1 hj.2]
        exact ⟨by congr 1; omega,by omega,by omega⟩
      · exact .inl (splice_outside (by omega))
    rw [hstep]
    constructor
    · rcases hcases with ⟨heq,hge,hlt⟩ | heq
      · rw [hsrc j hge hlt] at heq
        exact .inl ⟨heq,hge,hlt⟩
      · rcases hfirst with hf | ⟨hf,hge,hlt⟩
        · exact .inr (heq.trans hf)
        · exact .inl ⟨heq.trans hf,hge,hlt⟩
    · intro q hq hge hlt
      rcases List.mem_cons.mp hq with rfl | hq
      · rcases hcases with ⟨heq,hge',hlt'⟩ | heq
        · rwa [hsrc j hge' hlt'] at heq
        · rw [heq,splice_inside hge hlt]
          congr 1
          omega
      · have hq' := hin q (List.mem_cons_of_mem p hq)
        rw [hpieces q hq hge hlt,hsrc j (by omega) (by omega)]

theorem copied_eq (c : CopyRoutine) (hapart : Apart dst src len) (mem : Buffer) :
    copied dst src (c.pieces dst src len) mem = splice mem dst len mem src := by
  funext j
  obtain ⟨hcases,hpieces⟩ := copied_at hapart (c.pieces dst src len) (c.inside dst src len) mem j
  by_cases hj : dst ≤ j ∧ j < dst + len
  · obtain ⟨p,hp,hlow,hhigh⟩ := c.covers dst src len (j - dst) (by omega)
    rw [hpieces p hp (by omega) (by omega),splice_inside hj.1 hj.2]
  · rcases hcases with ⟨-,hge,hlt⟩ | heq
    · exact absurd ⟨hge,hlt⟩ hj
    · rw [heq,splice_outside (by omega)]

theorem copy_quiet (ps : List (Nat × Nat))
    (hq : ∀ tr, ∀ p ∈ ps,
      fl tr ⟨false,src + p.1,p.2⟩ = false ∧ fl tr ⟨true,dst + p.1,p.2⟩ = false) :
    ∃ tr, copy (π := π) fl dst src ps s =
      .ok () ⟨copied dst src ps s.mem,tr⟩ := by
  induction ps generalizing s with
  | nil => exact ⟨s.trace,rfl⟩
  | cons p ps ih =>
    have hp := fun tr => hq tr p List.mem_cons_self
    have hmove : move (π := π) fl dst src p s = .ok ()
        ⟨splice s.mem (dst + p.1) p.2 s.mem (src + p.1),
          ⟨true,dst + p.1,p.2⟩ :: ⟨false,src + p.1,p.2⟩ :: s.trace⟩ := by
      unfold move
      rw [bind_ok (access_ok (hp _).1),bind_ok (access_ok (hp _).2)]
      rfl
    obtain ⟨tr,htr⟩ := ih (s := ⟨splice s.mem (dst + p.1) p.2 s.mem (src + p.1),
      ⟨true,dst + p.1,p.2⟩ :: ⟨false,src + p.1,p.2⟩ :: s.trace⟩)
      fun tr q hq' => hq tr q (List.mem_cons_of_mem p hq')
    refine ⟨tr,?_⟩
    rw [copy,bind_ok hmove,htr]
    rfl

def QuietOn (fl : Faults) (lo n : Nat) : Prop :=
  ∀ tr (a : Access), a.Inside lo n → a.Aligned → fl tr a = false

theorem memcpy_quiet (c : CopyRoutine) (hapart : Apart dst src len) (hsrc : QuietOn fl src len)
    (hdst : QuietOn fl dst len) : ∃ tr, memcpy (π := π) c fl dst src len s =
      .ok () ⟨splice s.mem dst len s.mem src,tr⟩ := by
  rw [← copied_eq c hapart]
  refine copy_quiet _ fun tr p hp => ?_
  have hin := c.inside dst src len p hp
  have haligned := c.aligned dst src len p hp
  exact ⟨hsrc tr _ ⟨Nat.le_add_right _ _,by show src + p.1 + p.2 ≤ _; omega⟩ haligned.1,
    hdst tr _ ⟨Nat.le_add_right _ _,by show dst + p.1 + p.2 ≤ _; omega⟩ haligned.2⟩

theorem loadByte_quiet {addr : Nat} (h : fl s.trace ⟨false,addr,1⟩ = false) :
    loadByte (π := π) fl addr s =
      .ok (s.mem addr) { s with trace := ⟨false,addr,1⟩ :: s.trace } := by
  rw [loadByte,bind_ok (access_ok h)]
  rfl

theorem storeByte_quiet {addr : Nat} (b : Byte) (h : fl s.trace ⟨true,addr,1⟩ = false) :
    storeByte (π := π) fl addr b s =
      .ok () ⟨fun j => if j = addr then b else s.mem j,⟨true,addr,1⟩ :: s.trace⟩ := by
  rw [storeByte,bind_ok (access_ok h)]
  rfl

end Quiet

section Gives

variable {π : Type} {fl : Faults} {s : Space}

theorem access_gives (a : Access) :
    (access (π := π) fl a s).Gives fun _ t => t.mem = s.mem := by
  unfold access
  split
  · exact .fail _
  · exact .pure rfl

theorem storeByte_gives (addr : Nat) (b : Byte) : (storeByte (π := π) fl addr b s).Gives
    fun _ t => t.mem = fun j => if j = addr then b else s.mem j :=
  .bind (access_gives _) fun _ _ ht => .pure (by rw [← ht])

theorem copy_gives {dst src : Nat} (ps : List (Nat × Nat)) :
    (copy (π := π) fl dst src ps s).Gives fun _ t => t.mem = copied dst src ps s.mem := by
  induction ps generalizing s with
  | nil => exact .pure rfl
  | cons p ps ih =>
    have hmove : (move (π := π) fl dst src p s).Gives
        fun _ t => t.mem = splice s.mem (dst + p.1) p.2 s.mem (src + p.1) :=
      .bind (access_gives _) fun _ _ h₁ => .bind (access_gives _) fun _ _ h₂ => .pure (by
        show splice _ _ _ _ _ = _
        rw [h₂,h₁])
    exact .bind hmove fun _ _ ht => ih.mono fun _ _ hu => by rw [hu,ht]; rfl

end Gives

end MipsOs.Accesses
