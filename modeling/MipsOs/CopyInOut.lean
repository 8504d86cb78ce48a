import MipsOs.Accesses
import MipsOs.Types

/-! kern/lib/copyinout.c. A fault while pcb_badfaultfunc is set makes the function that has set it
return EFAULT; memcpy comes from the C library (conf.kern names it, and .svn/pristine/e8 has it), so
here it is any routine that goes through the block piece by piece. -/

set_option autoImplicit false
namespace MipsOs.CopyInOut
open Prog Bytes Accesses

def userTop : Nat := 0x80000000

theorem userTop_eq : userTop = 0x80000000 := rfl

def copycheck (userptr len : Nat) : Except Errno Nat :=
  let bot := userptr
  let top := toU32 ((bot : Int) + len - 1)
  if top < bot then .error .EFAULT
  else if bot ≥ userTop then .error .EFAULT
  else if top ≥ userTop then .ok (userTop - bot)
  else .ok len

section Functions

variable {π : Type} (c : CopyRoutine) (fl : Faults)

/-- What copyin and copyout have in common: a block that would have to be cut short is refused. -/
def copyBlock (userptr dst src len : Nat) : Prog Space Errno π Unit := do
  let stoplen ← ofExcept (copycheck userptr len)
  if stoplen ≠ len then fail .EFAULT
  else mapErr (fun _ => .EFAULT) (memcpy c fl dst src len)

def copyin (usersrc dest len : Nat) : Prog Space Errno π Unit :=
  copyBlock c fl usersrc dest usersrc len

def copyout (src userdest len : Nat) : Prog Space Errno π Unit :=
  copyBlock c fl userdest userdest src len

/-- The loop of copystr from index `i` on, for at most `n` more rounds. -/
def copystrLoop (dest src : Nat) : Nat → Nat → Prog Space Fault π (Option Nat)
  | 0, _ => pure none
  | n+1, i => do
    let ch ← loadByte fl (src + i)
    storeByte fl (dest + i) ch
    let ch ← loadByte fl (src + i)
    if ch = 0 then pure (some (i+1)) else copystrLoop dest src n (i+1)

def copystr (dest src maxlen stoplen : Nat) : Prog Space Fault π (Except Errno Nat) := do
  match ← copystrLoop fl dest src (min maxlen stoplen) 0 with
  | some got => pure (.ok got)
  | none => pure (.error (if stoplen < maxlen then .EFAULT else .ENAMETOOLONG))

def copyString (userptr dst src len : Nat) : Prog Space Errno π Nat := do
  let stoplen ← ofExcept (copycheck userptr len)
  let result ← mapErr (fun _ => .EFAULT) (copystr fl dst src len stoplen)
  ofExcept result

def copyinstr (usersrc dest len : Nat) : Prog Space Errno π Nat :=
  copyString fl usersrc dest usersrc len

def copyoutstr (src userdest len : Nat) : Prog Space Errno π Nat :=
  copyString fl userdest userdest src len

end Functions

section Check

variable {ptr len : Nat}

theorem copycheck_inside (hlen : 1 ≤ len) (h : ptr + len ≤ userTop) :
    copycheck ptr len = .ok len := by
  have hvalue := userTop_eq
  have htop : toU32 ((ptr : Int) + len - 1) = ptr + len - 1 := by
    simp only [toU32]
    omega
  simp only [copycheck,htop]
  rw [if_neg (by omega),if_neg (by omega),if_neg (by omega)]

theorem copycheck_across (hlen : len ≤ 2^31) (hptr : ptr < userTop) (h : userTop < ptr + len) :
    copycheck ptr len = .ok (userTop - ptr) := by
  have hvalue := userTop_eq
  have htop : toU32 ((ptr : Int) + len - 1) = ptr + len - 1 := by
    simp only [toU32]
    omega
  simp only [copycheck,htop]
  rw [if_neg (by omega),if_neg (by omega),if_pos (by omega)]

theorem copycheck_user (hlen : 1 ≤ len) (hmax : len ≤ 2^31) (hptr : ptr < userTop) :
    copycheck ptr len = .ok (min len (userTop - ptr)) := by
  rcases Nat.lt_or_ge userTop (ptr + len) with h | h
  · rw [copycheck_across hmax hptr h,Nat.min_eq_right (by omega)]
  · rw [copycheck_inside hlen h,Nat.min_eq_left (by omega)]

theorem copycheck_kernel (hptr : userTop ≤ ptr) : copycheck ptr len = .error .EFAULT := by
  simp only [copycheck]
  split
  · rfl
  · rfl

/-- Whatever the length, a block that is not inside user space is refused or cut short. -/
theorem copycheck_outside (hptr : ptr < 2^32) (hlen : len < 2^32)
    (h : len = 0 ∨ userTop < ptr + len) :
    copycheck ptr len = .error .EFAULT ∨
      ∃ stoplen, stoplen ≠ len ∧ copycheck ptr len = .ok stoplen := by
  have htop : (toU32 ((ptr : Int) + len - 1) : Int) = ((ptr : Int) + len - 1) % 2^32 := by
    simp only [toU32]
    omega
  have hvalue := userTop_eq
  generalize ht : toU32 ((ptr : Int) + len - 1) = top at htop
  simp only [copycheck,ht]
  split
  · exact .inl rfl
  · split
    · exact .inl rfl
    · split
      · exact .inr ⟨_,by omega,rfl⟩
      · omega

end Check

section Blocks

variable {π : Type} {c : CopyRoutine} {fl : Faults} {s : Space} {userptr dst src len : Nat}

theorem copyBlock_inside (hlen : 1 ≤ len) (h : userptr + len ≤ userTop) :
    copyBlock (π := π) c fl userptr dst src len s =
      mapErr (fun _ => .EFAULT) (memcpy c fl dst src len) s := by
  rw [copyBlock,copycheck_inside hlen h,bind_ok (ofExcept_ok _ _),if_neg (by simp)]

theorem copyBlock_outside (hptr : userptr < 2^32) (hlen : len < 2^32)
    (h : len = 0 ∨ userTop < userptr + len) :
    copyBlock (π := π) c fl userptr dst src len s = .err .EFAULT s := by
  rw [copyBlock]
  rcases copycheck_outside hptr hlen h with hc | ⟨stoplen,hne,hc⟩
  · rw [hc,bind_err (ofExcept_error _ _)]
  · rw [hc,bind_ok (ofExcept_ok _ _),if_pos hne]
    rfl

section

variable (hlen : 1 ≤ len) (h : userptr + len ≤ userTop)

include hlen h

theorem copyBlock_obeys {P : Access → Prop}
    (hload : ∀ a : Access, a.write = false → a.Inside src len → P a)
    (hstore : ∀ a : Access, a.write = true → a.Inside dst len → P a) :
    (copyBlock (π := π) c fl userptr dst src len s).Safe
      (fun _ t => Grows P s t)
      fun e t => e = .EFAULT ∧ Grows P s t ∧ ∃ tr a, P a ∧ fl tr a = true := by
  rw [copyBlock_inside hlen h]
  exact .mapErr (Outcome.Safe.mono (memcpy_obeys c hload hstore) (fun _ _ ht => ht)
    fun _ _ ht => ⟨rfl,ht⟩)

theorem copyBlock_quiet (hapart : Apart dst src len) (hsrc : QuietOn fl src len)
    (hdst : QuietOn fl dst len) :
    ∃ tr, copyBlock (π := π) c fl userptr dst src len s =
      .ok () ⟨splice s.mem dst len s.mem src,tr⟩ := by
  obtain ⟨tr,htr⟩ := memcpy_quiet (π := π) (s := s) c hapart hsrc hdst
  exact ⟨tr,by rw [copyBlock_inside hlen h,mapErr_ok htr]⟩

theorem copyBlock_touches :
    copyBlock (π := π) c fl userptr dst src len s ≠ .err .EFAULT s := by
  rw [copyBlock_inside hlen h]
  intro heq
  have hsafe : (mapErr (π := π) (fun _ => Errno.EFAULT) (memcpy c fl dst src len) s).Safe
      (fun _ t => s.trace.length < t.trace.length)
      fun _ t => s.trace.length < t.trace.length := .mapErr (memcpy_touches c hlen)
  rw [heq] at hsafe
  exact Nat.lt_irrefl _ hsafe

end

theorem copyBlock_efault : (copyBlock (π := π) c fl userptr dst src len s).Ends (fun _ _ => True)
    (fun e _ => e = .EFAULT) fun _ => True := by
  rw [copyBlock]
  cases hc : copycheck userptr len with
  | error e =>
    simp only [copycheck] at hc
    split_ifs at hc <;> cases hc <;> rfl
  | ok n =>
    show ((if n ≠ len then fail .EFAULT else _ : Prog Space Errno π Unit) s).Ends _ _ _
    split
    · rfl
    · unfold mapErr
      cases memcpy (π := π) c fl dst src len s <;> trivial

theorem copyBlock_ends (hptr : userptr < 2^32) (hlen : 1 ≤ len) (hmax : len < 2^32)
    (hapart : Apart dst src len) : (copyBlock (π := π) c fl userptr dst src len s).Ends
      (fun _ t => userptr + len ≤ userTop ∧ t.mem = splice s.mem dst len s.mem src)
      (fun e _ => e = .EFAULT) fun _ => True := by
  rcases Nat.lt_or_ge userTop (userptr + len) with hout | hin
  · rw [copyBlock_outside hptr hmax (.inr hout)]
    rfl
  · rw [copyBlock_inside hlen hin,← copied_eq c hapart,mapErr]
    cases hrun : memcpy (π := π) c fl dst src len s with
    | ok b u => exact ⟨hin,copy_gives _ _ _ hrun⟩
    | err => rfl
    | panic => trivial

end Blocks

section Strings

variable {π : Type} {fl : Faults} {s : Space} {dest src len : Nat}

def FirstNul (b : Buffer) (p k : Nat) : Prop := b (p+k) = 0 ∧ ∀ j, j < k → b (p+j) ≠ 0

theorem FirstNul.unique {b : Buffer} {p k l : Nat} (h : FirstNul b p k) (h' : FirstNul b p l) :
    k = l := by
  rcases Nat.lt_trichotomy k l with hlt | heq | hlt
  · exact absurd h.1 (h'.2 k hlt)
  · exact heq
  · exact absurd h'.1 (h.2 l hlt)

theorem copystrLoop_obeys {P : Access → Prop} (n i : Nat)
    (h : ∀ k, k < i + n → P ⟨false,src + k,1⟩ ∧ P ⟨true,dest + k,1⟩) :
    Obeys fl P s (copystrLoop (π := π) fl dest src n i s) := by
  induction n generalizing i s with
  | zero => exact Grows.refl P s
  | succ n ih =>
    have hi := h i (by omega)
    refine .bind (loadByte_obeys hi.1) fun b t => .bind (storeByte_obeys b hi.2) fun _ u =>
      .bind (loadByte_obeys hi.1) fun b' v => ?_
    split
    · exact Grows.refl P v
    · exact ih (i+1) fun k hk => h k (by omega)

theorem copystrLoop_succ (fl : Faults) (s : Space) (dest src n i : Nat) :
    (∃ t, copystrLoop (π := π) fl dest src (n+1) i s = .err ⟨⟩ t ∧
      Faulted fl s t) ∨
    ∃ tr, s.trace <:+ tr ∧
      copystrLoop (π := π) fl dest src (n+1) i s =
        (if s.mem (src + i) = 0 then pure (some (i+1)) else copystrLoop fl dest src n (i+1))
          ⟨splice s.mem (dest + i) 1 s.mem (src + i),tr⟩ := by
  have hgrow : ∀ (a : Access) tr, s.trace <:+ tr → s.trace <:+ a :: tr := fun a tr h =>
    h.trans (List.suffix_cons a tr)
  have hself := List.suffix_refl s.trace
  rw [copystrLoop]
  cases hload : fl s.trace ⟨false,src + i,1⟩ with
  | true => exact .inl ⟨_,bind_err (bind_err (access_err hload)),_,_,rfl,hself,hload⟩
  | false =>
    rw [bind_ok (loadByte_quiet hload)]
    cases hstore : fl (⟨false,src + i,1⟩ :: s.trace) ⟨true,dest + i,1⟩ with
    | true =>
      exact .inl ⟨_,bind_err (bind_err (access_err hstore)),_,_,rfl,hgrow _ _ hself,hstore⟩
    | false =>
      rw [bind_ok (storeByte_quiet _ hstore)]
      cases hagain : fl (⟨true,dest + i,1⟩ :: ⟨false,src + i,1⟩ :: s.trace) ⟨false,src + i,1⟩ with
      | true =>
        exact .inl ⟨_,bind_err (bind_err (access_err hagain)),_,_,rfl,
          hgrow _ _ (hgrow _ _ hself),hagain⟩
      | false =>
        rw [bind_ok (loadByte_quiet hagain)]
        refine .inr ⟨⟨false,src + i,1⟩ :: ⟨true,dest + i,1⟩ :: ⟨false,src + i,1⟩ :: s.trace,
          hgrow _ _ (hgrow _ _ (hgrow _ _ hself)),?_⟩
        simp only [splice_one,ite_self]

theorem copystrLoop_cases (fl : Faults) (n i : Nat) (hapart : Apart dest src (i + n))
    (hbefore : ∀ j, j < i → s.mem (src + j) ≠ 0) :
    (∃ t, copystrLoop (π := π) fl dest src n i s = .err ⟨⟩ t ∧
      Faulted fl s t) ∨
    (∃ k t, copystrLoop (π := π) fl dest src n i s =
      .ok (some (k+1)) t ∧ i ≤ k ∧ k < i + n ∧ FirstNul s.mem src k ∧
        t.mem = splice s.mem (dest + i) (k + 1 - i) s.mem (src + i)) ∨
    ∃ t, copystrLoop (π := π) fl dest src n i s = .ok none t ∧
      ∀ j, j < i + n → s.mem (src + j) ≠ 0 := by
  induction n generalizing i s with
  | zero => exact .inr (.inr ⟨s,rfl,hbefore⟩)
  | succ n ih =>
    rcases copystrLoop_succ (π := π) fl s dest src n i with hfault | ⟨tr,htr,hround⟩
    · exact .inl hfault
    rw [hround]
    by_cases hnul : s.mem (src + i) = 0
    · rw [if_pos hnul]
      refine .inr (.inl ⟨i,_,rfl,Nat.le_refl i,by omega,⟨hnul,hbefore⟩,?_⟩)
      rw [Nat.add_sub_cancel_left]
    rw [if_neg hnul]
    -- the source stays as it is
    have hkeep : ∀ j, j < i + (n+1) →
        splice s.mem (dest + i) 1 s.mem (src + i) (src + j) = s.mem (src + j) := by
      intro j hj
      refine splice_outside ?_
      unfold Apart at hapart
      omega
    rcases ih (s := ⟨splice s.mem (dest + i) 1 s.mem (src + i),tr⟩) (i+1)
      (by rwa [show i + 1 + n = i + (n + 1) by omega]) (by
        intro j hj
        show splice s.mem (dest + i) 1 s.mem (src + i) (src + j) ≠ 0
        rw [hkeep j (by omega)]
        rcases Nat.lt_succ_iff_lt_or_eq.mp hj with hlt | rfl
        · exact hbefore j hlt
        · exact hnul) with
      ⟨t,hrun,a,tr',htrace,hsuffix,hf⟩ | ⟨k,t,hrun,hik,hk,⟨hzero,hfirst⟩,hmem⟩ | ⟨t,hrun,hnone⟩
    · exact .inl ⟨t,hrun,a,tr',htrace,htr.trans hsuffix,hf⟩
    · refine .inr (.inl ⟨k,t,hrun,by omega,by omega,⟨?_,fun j hj => ?_⟩,?_⟩)
      · exact (hkeep k (by omega)).symm.trans hzero
      · exact fun h => hfirst j hj ((hkeep j (by omega)).trans h)
      · rw [hmem,splice_congr s.mem fun j hj => ?_]
        · rw [show k + 1 - i = 1 + (k + 1 - (i + 1)) by omega,← splice_splice]
          rfl
        · rw [show src + (i + 1) + j = src + (i + 1 + j) by omega]
          exact hkeep _ (by omega)
    · exact .inr (.inr ⟨t,hrun,fun j hj h =>
        hnone j (by omega) ((hkeep j (by omega)).trans h)⟩)

theorem copystr_cases (fl : Faults) (s : Space) (maxlen : Nat) {stoplen : Nat}
    (hstop : stoplen ≤ maxlen) (hapart : Apart dest src stoplen) :
    (∃ t, copystr (π := π) fl dest src maxlen stoplen s =
      .err ⟨⟩ t ∧ Faulted fl s t) ∨
    (∃ k t, copystr (π := π) fl dest src maxlen stoplen s =
      .ok (.ok (k+1)) t ∧ k < stoplen ∧ FirstNul s.mem src k ∧
        t.mem = splice s.mem dest (k+1) s.mem src) ∨
    ∃ t, copystr (π := π) fl dest src maxlen stoplen s =
      .ok (.error (if stoplen < maxlen then .EFAULT else .ENAMETOOLONG)) t ∧
        ∀ j, j < stoplen → s.mem (src + j) ≠ 0 := by
  rw [copystr,Nat.min_eq_right hstop]
  have hloop := copystrLoop_cases (π := π) (s := s) fl stoplen 0
    (show Apart dest src _ by rwa [Nat.zero_add]) (by simp)
  simp only [Nat.zero_add,Nat.add_zero,Nat.sub_zero] at hloop
  rcases hloop with ⟨t,hrun,hfault⟩ | ⟨k,t,hrun,-,hk,hnul,hmem⟩ | ⟨t,hrun,hnone⟩
  · exact .inl ⟨t,bind_err hrun,hfault⟩
  · exact .inr (.inl ⟨k,t,bind_ok hrun,hk,hnul,hmem⟩)
  · exact .inr (.inr ⟨t,bind_ok hrun,hnone⟩)

/-- The string at `src` ends at index `k`, within `len` bytes and within the part of the user block
at `ptr` that is in user space. -/
def Found (b : Buffer) (ptr src len k : Nat) : Prop :=
  k < len ∧ ptr + k < userTop ∧ FirstNul b src k

def TooLong (b : Buffer) (ptr src len : Nat) : Prop :=
  ptr + len ≤ userTop ∧ ∀ k, k < len → b (src + k) ≠ 0

variable {ptr : Nat}

theorem copyString_cases (fl : Faults) (hlen : 1 ≤ len) (hmax : len ≤ 2^31) (hptr : ptr < userTop)
    (hapart : Apart dest src (min len (userTop - ptr))) :
    (∃ t, copyString (π := π) fl ptr dest src len s = .err .EFAULT t ∧
      Faulted fl s t) ∨
    (∃ k t, copyString (π := π) fl ptr dest src len s = .ok (k+1) t ∧
      Found s.mem ptr src len k ∧ t.mem = splice s.mem dest (k+1) s.mem src) ∨
    ∃ t, copyString (π := π) fl ptr dest src len s =
      .err (if ptr + len ≤ userTop then .ENAMETOOLONG else .EFAULT) t ∧
        ∀ k, ¬ Found s.mem ptr src len k := by
  have hcheck := copycheck_user hlen hmax hptr
  generalize hstop : min len (userTop - ptr) = stop at hcheck hapart
  rw [copyString,hcheck,bind_ok (ofExcept_ok _ _)]
  rcases copystr_cases (π := π) fl s len (show stop ≤ len by omega) hapart with
    ⟨t,hrun,hfault⟩ | ⟨k,t,hrun,hk,hnul,hmem⟩ | ⟨t,hrun,hnone⟩
  · exact .inl ⟨t,bind_err (mapErr_err hrun),hfault⟩
  · exact .inr (.inl ⟨k,t,bind_ok (mapErr_ok hrun),⟨by omega,by omega,hnul⟩,hmem⟩)
  · refine .inr (.inr ⟨t,?_,?_⟩)
    · rw [bind_ok (mapErr_ok hrun)]
      by_cases hin : ptr + len ≤ userTop
      · rw [if_pos hin,if_neg (by omega)]
        rfl
      · rw [if_neg hin,if_pos (by omega)]
        rfl
    · rintro k ⟨hk,hk',hnul⟩
      exact hnone k (by omega) hnul.1

theorem copyString_kernel (hptr : userTop ≤ ptr) :
    copyString (π := π) fl ptr dest src len s = .err .EFAULT s := by
  rw [copyString,copycheck_kernel hptr,bind_err (ofExcept_error _ _)]

theorem copyString_obeys {P : Access → Prop} (hlen : 1 ≤ len) (hmax : len ≤ 2^31)
    (h : ∀ k, k < len → ptr + k < userTop → P ⟨false,src + k,1⟩ ∧ P ⟨true,dest + k,1⟩) :
    (copyString (π := π) fl ptr dest src len s).Safe
      (fun _ t => Grows P s t) fun _ t => Grows P s t := by
  rcases Nat.lt_or_ge ptr userTop with hptr | hptr
  · simp only [copyString,copystr]
    rw [copycheck_user hlen hmax hptr,bind_ok (ofExcept_ok _ _)]
    have hloop : Obeys fl P s (copystrLoop fl dest src (min len (min len (userTop - ptr))) 0 s :
        Outcome Space Fault π (Option Nat)) :=
      copystrLoop_obeys _ 0 fun k hk => h k (by omega) (by omega)
    refine .bind (Q := fun _ t => Grows P s t) (.mapErr (.bind hloop (fun r t ht => ?_)
      fun _ _ he => he.1)) (fun r t ht => ?_) fun _ _ he => he
    · cases r with
      | none | some => exact ht
    · cases r with
      | ok | error => exact ht
  · rw [copyString_kernel hptr]
    exact Grows.refl P s

end Strings

section Safety

variable {π : Type}

/-- What a copy between the user block at `ptr` and the kernel buffer at `kbuf` may touch; `w` is
whether it writes to the user block. -/
def Touches (w : Bool) (ptr kbuf len : Nat) (a : Access) : Prop :=
  a.write = w ∧ a.Inside ptr len ∧ a.addr + a.width ≤ userTop ∨ a.write = !w ∧ a.Inside kbuf len

structure BlockSafe (w : Bool) (ptr kbuf len : Nat) (s : Space) (o : Outcome Space Errno π Unit) :
    Prop where
  touches : o.Safe (fun _ t => Grows (Touches w ptr kbuf len) s t)
    fun e t => e = .EFAULT ∧ Grows (Touches w ptr kbuf len) s t
  refused : o = .err .EFAULT s ↔ ¬ ptr + len ≤ userTop

structure StringSafe (fl : Faults) (w : Bool) (ptr kbuf dst src len : Nat) (s : Space)
    (o : Outcome Space Errno π Nat) : Prop where
  touches : o.Safe (fun _ t => Grows (Touches w ptr kbuf len) s t)
    fun _ t => Grows (Touches w ptr kbuf len) s t
  copies : ∀ got t, o = .ok got t → t.mem = splice s.mem dst got s.mem src
  quiet : o.Safe (fun _ t => Unfaulted fl s t) (fun _ t => Unfaulted fl s t) →
    (∀ got, (∃ t, o = .ok got t) ↔ ∃ k, got = k + 1 ∧ Found s.mem ptr src len k) ∧
    ((∃ t, o = .err .ENAMETOOLONG t) ↔ TooLong s.mem ptr src len) ∧
    ((∃ t, o = .err .EFAULT t) ↔
      (∀ k, ¬ Found s.mem ptr src len k) ∧ ¬ TooLong s.mem ptr src len)

variable {c : CopyRoutine} {fl : Faults} {w : Bool} {s : Space} {ptr kbuf dst src len : Nat}

theorem copyBlock_safe (hptr : ptr < 2^32) (hlen : 1 ≤ len) (hmax : len ≤ 2^31)
    (hload : ∀ a : Access, ptr + len ≤ userTop → a.write = false → a.Inside src len →
      Touches w ptr kbuf len a)
    (hstore : ∀ a : Access, ptr + len ≤ userTop → a.write = true → a.Inside dst len →
      Touches w ptr kbuf len a) :
    BlockSafe w ptr kbuf len s (copyBlock (π := π) c fl ptr dst src len s) := by
  rcases Nat.lt_or_ge userTop (ptr + len) with h | h
  · have hrun : copyBlock (π := π) c fl ptr dst src len s = .err .EFAULT s :=
      copyBlock_outside hptr (by omega) (.inr h)
    refine ⟨?_,?_⟩
    · rw [hrun]
      exact ⟨rfl,Grows.refl _ _⟩
    · simp only [hrun,true_iff]
      omega
  · refine ⟨?_,?_⟩
    · exact (copyBlock_obeys hlen h (hload · h) (hstore · h)).mono (fun _ _ ht => ht)
        fun _ _ ht => ⟨ht.1,ht.2.1⟩
    · exact iff_of_false (copyBlock_touches hlen h) (by omega)

theorem Found.not_tooLong {b : Buffer} {k : Nat} (h : Found b ptr src len k) :
    ¬ TooLong b ptr src len := fun hlong => hlong.2 k h.1 h.2.2.1

theorem tooLong_of_not_found {b : Buffer} (h : ∀ k, ¬ Found b ptr src len k)
    (hin : ptr + len ≤ userTop) : TooLong b ptr src len := by
  refine ⟨hin,fun k => ?_⟩
  induction k using Nat.strong_induction_on with
  | _ k ih =>
    intro hk hzero
    exact h k ⟨hk,by omega,hzero,fun j hj => ih j hj (by omega)⟩

theorem copyString_safe (hlen : 1 ≤ len) (hmax : len ≤ 2^31)
    (hapart : Apart dst src (min len (userTop - ptr)))
    (htouch : ∀ k, k < len → ptr + k < userTop →
      Touches w ptr kbuf len ⟨false,src + k,1⟩ ∧ Touches w ptr kbuf len ⟨true,dst + k,1⟩) :
    StringSafe fl w ptr kbuf dst src len s
      (copyString (π := π) fl ptr dst src len s) := by
  have htouches : (copyString (π := π) fl ptr dst src len s).Safe _ _ :=
    copyString_obeys hlen hmax htouch
  rcases Nat.lt_or_ge ptr userTop with hptr | hptr
  · have hcases := copyString_cases (π := π) (s := s) fl hlen hmax hptr hapart
    generalize copyString (π := π) fl ptr dst src len s = o
      at htouches hcases
    refine ⟨htouches,?_,?_⟩
    · rintro got t rfl
      rcases hcases with ⟨u,heq,-⟩ | ⟨k,u,heq,-,hmem⟩ | ⟨u,heq,-⟩
      · cases heq
      · cases heq
        exact hmem
      · cases heq
    · intro hquiet
      rcases hcases with ⟨u,rfl,hfault⟩ | ⟨k,u,rfl,hfound,-⟩ | ⟨u,rfl,hnone⟩
      · exact (hfault.not_unfaulted hquiet).elim
      · refine ⟨fun got => ⟨?_,?_⟩,iff_of_false (by simp) hfound.not_tooLong,
          iff_of_false (by simp) fun h => h.1 k hfound⟩
        · rintro ⟨t,heq⟩
          cases heq
          exact ⟨k,rfl,hfound⟩
        · rintro ⟨l,rfl,hl⟩
          rw [hfound.2.2.unique hl.2.2]
          exact ⟨u,rfl⟩
      · refine ⟨fun got => iff_of_false (by simp) ?_,?_⟩
        · rintro ⟨k,-,hk⟩
          exact hnone k hk
        · by_cases hin : ptr + len ≤ userTop
          · have hlong := tooLong_of_not_found hnone hin
            simp [hin,hlong]
          · have hlong : ¬ TooLong s.mem ptr src len := fun h => hin h.1
            simp [hin,hlong,hnone]
  · rw [copyString_kernel hptr] at htouches ⊢
    have hnone : ∀ k, ¬ Found s.mem ptr src len k := fun k h => by
      have := h.2.1
      omega
    have hlong : ¬ TooLong s.mem ptr src len := fun h => by
      have := h.1
      omega
    exact ⟨htouches,by simp,fun _ => by simp [hnone,hlong]⟩

/-- For any user address and any length up to 2^31. -/
theorem user_accesses_stay_in_user_space (c : CopyRoutine) (fl : Faults) (s : Space)
    (ptr kbuf len : Nat) (hptr : ptr < 2^32) (hkbuf : userTop ≤ kbuf) (hlen : 1 ≤ len)
    (hmax : len ≤ 2^31) :
    BlockSafe false ptr kbuf len s (copyin c fl ptr kbuf len s : Outcome Space Errno π Unit) ∧
    BlockSafe true ptr kbuf len s (copyout c fl kbuf ptr len s : Outcome Space Errno π Unit) ∧
    StringSafe fl false ptr kbuf kbuf ptr len s
      (copyinstr fl ptr kbuf len s : Outcome Space Errno π Nat) ∧
    StringSafe fl true ptr kbuf ptr kbuf len s
      (copyoutstr fl kbuf ptr len s : Outcome Space Errno π Nat) := by
  have huser : ∀ (v : Bool) (a : Access), ptr + len ≤ userTop → a.write = v → a.Inside ptr len →
      Touches v ptr kbuf len a := fun v a hin hv ha => .inl ⟨hv,ha,ha.2.trans hin⟩
  have hkernel : ∀ (v : Bool) (a : Access), ptr + len ≤ userTop → a.write = !v →
      a.Inside kbuf len → Touches v ptr kbuf len a := fun v a _ hv ha => .inr ⟨hv,ha⟩
  have hbyte : ∀ (v : Bool) k, k < len → ptr + k < userTop →
      Touches v ptr kbuf len ⟨v,ptr + k,1⟩ ∧ Touches v ptr kbuf len ⟨!v,kbuf + k,1⟩ :=
    fun v k hk hk' => ⟨.inl ⟨rfl,⟨Nat.le_add_right _ _,by show ptr + k + 1 ≤ _; omega⟩,hk'⟩,
      .inr ⟨rfl,⟨Nat.le_add_right _ _,by show kbuf + k + 1 ≤ _; omega⟩⟩⟩
  refine ⟨copyBlock_safe hptr hlen hmax (huser false) (hkernel false),
    copyBlock_safe hptr hlen hmax (hkernel true) (huser true),
    copyString_safe hlen hmax ?_ (hbyte false),
    copyString_safe hlen hmax ?_ fun k hk hk' => (hbyte true k hk hk').symm⟩
  · unfold Apart
    omega
  · unfold Apart
    omega

def noFaults : Faults := fun _ _ => false

/-- At the last byte of user space a block of four bytes is refused and the empty string is read. -/
theorem user_accesses_stay_last_byte :
    (copyin bytewise noFaults 0x7fffffff 0x80000010 4 ⟨fun _ => 0,[]⟩ :
      Outcome Space Errno Unit Unit) = .err .EFAULT ⟨fun _ => 0,[]⟩ ∧
    ∃ t, (copyinstr noFaults 0x7fffffff 0x80000010 4 ⟨fun _ => 0,[]⟩ :
      Outcome Space Errno Unit Nat) = .ok 1 t := by
  obtain ⟨hin,-,hstr,-⟩ := user_accesses_stay_in_user_space (π := Unit) bytewise noFaults
    ⟨fun _ => 0,[]⟩ 0x7fffffff 0x80000010 4 (by decide) (by decide) (by decide) (by decide)
  refine ⟨hin.refused.mpr (by decide),((hstr.quiet ?_).1 1).mpr ⟨0,rfl,by decide,by decide,rfl,?_⟩⟩
  · exact hstr.touches.mono (fun _ _ _ _ _ _ _ => rfl) fun _ _ _ _ _ _ _ => rfl
  · simp

end Safety

end MipsOs.CopyInOut
