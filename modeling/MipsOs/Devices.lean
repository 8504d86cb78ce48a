import Mathlib.Algebra.Ring.Nat
import MipsOs.Types

/-! Devices: the realtime clock, ltimer_gettime of kern/dev/lamebus/ltimer.c behind gettime of
kern/dev/generic/rtclock.c, with instants in nanoseconds; lamebus_interrupt of
kern/dev/lamebus/lamebus.c and its count of dud interrupts, where a call runs to its end before the
next one and what the handlers do to the bus is left open; and kern/dev/generic/pseudorand.c. -/

set_option autoImplicit false
namespace MipsOs.Ltimer

def regSec (t : Nat) : Nat := t / 1000000000 % 2^32

def regNsec (t : Nat) : Nat := t % 1000000000

/-- Between two reads of registers any time can pass. -/
def ltimerGettime (t1 t2 t3 : Nat) : Int × Nat :=
  let secs1 := regSec t1
  let nsecs := regNsec t2
  let secs2 := regSec t3
  if nsecs < 5000000 then (toInt32 secs2,nsecs) else (toInt32 secs1,nsecs)

/-- The instants at which a call reads the registers. A time_t has the seconds up to 2^31. -/
structure Reads where
  t1 : Nat
  t2 : Nat
  t3 : Nat
  before : t1 ≤ t2
  after : t2 ≤ t3
  fits : t3 < 2^31 * 1000000000

/-- The instant that the result of the call denotes. -/
def Reads.gettime (r : Reads) : Int :=
  let (secs,nsecs) := ltimerGettime r.t1 r.t2 r.t3
  secs * 1000000000 + nsecs

def Reads.Between (r : Reads) : Prop := (r.t1 : Int) ≤ r.gettime ∧ r.gettime ≤ r.t3

theorem Reads.gettime_eq (r : Reads) : r.gettime =
    if r.t2 % 1000000000 < 5000000 then
      ((r.t3 / 1000000000 * 1000000000 + r.t2 % 1000000000 : Nat) : Int)
    else ((r.t1 / 1000000000 * 1000000000 + r.t2 % 1000000000 : Nat) : Int) := by
  have hsec : ∀ t ≤ r.t3, toInt32 (regSec t) = (t / 1000000000 : Nat) := by
    intro t ht
    have hfits := r.fits
    rw [regSec,Nat.mod_eq_of_lt (by omega),toInt32_of_lt (by omega)]
  simp only [gettime,ltimerGettime,regNsec]
  split
  · next hsmall =>
    simp only [if_pos hsmall,hsec r.t3 (Nat.le_refl _)]
    omega
  · next hlarge =>
    simp only [if_neg hlarge,hsec r.t1 (Nat.le_trans r.before r.after)]
    omega

/-- The reading is true unless a second begins between two reads that are more than 5 ms apart. -/
theorem clock_readings_true (r : Reads) :
    (r.Between ↔ if r.t2 % 1000000000 < 5000000 then r.t2 % 1000000000 ≤ r.t3 % 1000000000
      else r.t1 % 1000000000 ≤ r.t2 % 1000000000) ∧
    (r.t3 ≤ r.t1 + 5000000 → r.gettime = r.t2) ∧
    ∀ r' : Reads, r.t3 ≤ r'.t1 → r.Between → r'.Between → r.gettime ≤ r'.gettime := by
  have hbefore := r.before
  have hafter := r.after
  refine ⟨?_,fun hshort => ?_,fun r' hle h h' => ?_⟩
  · rw [Reads.Between,r.gettime_eq]
    split <;> omega
  · rw [r.gettime_eq]
    split <;> omega
  · exact Int.le_trans h.2 (Int.le_trans (Int.ofNat_le.mpr hle) h'.1)

theorem clock_readings_true_quick :
    (⟨999999000,1000001000,1000002000,by decide,by decide,by decide⟩ : Reads).gettime =
      1000001000 :=
  (clock_readings_true _).2.1 (by decide)

def undisturbed : Reads :=
  ⟨500000000,500000100,500000200,by decide,by decide,by decide⟩

/-- The thread is preempted for 106 ms after its first read. -/
def preempted : Reads := ⟨900000000,1006000000,1006000100,by decide,by decide,by decide⟩

/-- The result is before the first read, and before what an earlier call has returned. -/
theorem preempted_reading_goes_back : ¬ preempted.Between ∧ undisturbed.t3 ≤ preempted.t1 ∧
    preempted.gettime < undisturbed.gettime := by
  unfold Reads.Between
  decide

end MipsOs.Ltimer

namespace MipsOs.Lamebus

def lbNslots : Nat := 32

structure Bus where
  slotsinuse : BitVec 32
  /-- Whether ls_irqfuncs of the slot is set. -/
  irqfuncs : Nat → Bool

/-- What a call meets. A handler leaves the bus as it likes, and with it the value of the
interrupt register when that is read again. -/
structure Env where
  curspl : Nat
  bus : Bus
  irqs : BitVec 32
  handler : Nat → Bus → Bus × BitVec 32

inductive Panic where
  | assertion
  | tooManyDuds (duds : BitVec 32)
  deriving DecidableEq, Repr

/-- The loop over the last `n` slots, with duds and duds_this_time. -/
def slots (env : Env) : Nat → BitVec 32 → Bus → BitVec 32 × Nat → BitVec 32 × Nat
  | 0, _, _, (duds,dudsThisTime) => (duds,dudsThisTime)
  | n+1, irqs, bus, (duds,dudsThisTime) =>
    let slot := lbNslots - (n+1)
    if irqs.getLsbD slot = false then slots env n irqs bus (duds,dudsThisTime)
    else if bus.slotsinuse.getLsbD slot = false then
      slots env n irqs bus (duds+1,dudsThisTime+1)
    else if bus.irqfuncs slot = false then slots env n irqs bus (duds+1,dudsThisTime+1)
    else slots env n (env.handler slot bus).2 (env.handler slot bus).1 (duds,dudsThisTime)

/-- The static int duds goes in and comes out. The return after a stray interrupt is before the
check of the counter. -/
def lamebusInterrupt (env : Env) (duds : BitVec 32) : Except Panic (BitVec 32) :=
  if env.curspl = 0 then .error .assertion
  else if env.irqs = 0 then .ok (duds+1)
  else
    let (duds,dudsThisTime) := slots env lbNslots env.irqs env.bus (duds,0)
    let duds := if dudsThisTime = 0 ∧ 0 < duds.toInt then 0 else duds
    if 10000 < duds.toInt then .error (.tooManyDuds duds) else .ok duds

def calls (duds : BitVec 32) (envs : List Env) : Except Panic (BitVec 32) :=
  envs.foldlM (fun duds env => lamebusInterrupt env duds) duds

/-- How many duds a call sees. -/
def Env.duds (env : Env) : Nat :=
  if env.irqs = 0 then 1 else (slots env lbNslots env.irqs env.bus (0,0)).2

def total (envs : List Env) : Nat := (envs.map Env.duds).sum

variable {env : Env} {envs : List Env}

theorem slots_count (env : Env) (n : Nat) (irqs : BitVec 32) (bus : Bus) :
    ∃ k, ∀ d t, slots env n irqs bus (d,t) = (d + BitVec.ofNat 32 k,t+k) := by
  induction n generalizing irqs bus with
  | zero => exact ⟨0,fun _ _ => by simp [slots]⟩
  | succ n ih =>
    obtain ⟨k,hk⟩ := ih irqs bus
    have hdud : ∃ k, ∀ d t,
        slots env n irqs bus (d+1,t+1) = (d + BitVec.ofNat 32 k,t+k) :=
      ⟨1+k,fun d t => by rw [hk,BitVec.ofNat_add,BitVec.add_assoc,Nat.add_assoc]; rfl⟩
    simp only [slots]
    split
    · exact ⟨k,hk⟩
    split
    · exact hdud
    split
    · exact hdud
    · exact ih _ _

theorem lamebusInterrupt_eq (hspl : 0 < env.curspl) (h : env.irqs ≠ 0) (duds : BitVec 32) :
    lamebusInterrupt env duds =
      if env.duds = 0 then .ok (if 0 < duds.toInt then 0 else duds)
      else if 10000 < (duds + BitVec.ofNat 32 env.duds).toInt then
        .error (.tooManyDuds (duds + BitVec.ofNat 32 env.duds))
      else .ok (duds + BitVec.ofNat 32 env.duds) := by
  obtain ⟨k,hk⟩ := slots_count env lbNslots env.irqs env.bus
  have hduds : env.duds = k := by rw [Env.duds,if_neg h,hk,Nat.zero_add]
  rw [lamebusInterrupt,if_neg (by omega),if_neg h,hduds]
  simp only [hk,Nat.zero_add]
  rcases k with _ | k
  · simp only [BitVec.ofNat_eq_ofNat,BitVec.add_zero,true_and,if_true]
    split
    · rfl
    · exact if_neg (by omega)
  · simp

/-- A call that sees a dud panics if a slot asserts an interrupt and the counter is high. -/
theorem lamebusInterrupt_dud (hspl : 0 < env.curspl) (hdud : 0 < env.duds) (duds : BitVec 32) :
    lamebusInterrupt env duds =
      if env.irqs ≠ 0 ∧ 10000 < (duds + BitVec.ofNat 32 env.duds).toInt then
        .error (.tooManyDuds (duds + BitVec.ofNat 32 env.duds))
      else .ok (duds + BitVec.ofNat 32 env.duds) := by
  by_cases h : env.irqs = 0
  · rw [lamebusInterrupt,if_neg (by omega),if_pos h,if_neg (fun hc => hc.1 h),Env.duds,if_pos h]
    rfl
  · rw [lamebusInterrupt_eq hspl h,if_neg (by omega)]
    simp only [ne_eq,h,not_false_eq_true,true_and]

theorem calls_panic (h : ∀ env ∈ envs, 0 < env.curspl ∧ 0 < env.duds) (duds : BitVec 32) :
    (∃ n, calls duds envs = .error (.tooManyDuds n)) ↔
      ∃ before last after, envs = before ++ last :: after ∧ last.irqs ≠ 0 ∧
        10000 < (duds + BitVec.ofNat 32 (total (before ++ [last]))).toInt := by
  induction envs generalizing duds with
  | nil => exact ⟨fun ⟨n,hn⟩ => (nomatch hn),fun ⟨b,l,a,hs,_⟩ => by simp at hs⟩
  | cons env envs ih =>
    obtain ⟨⟨hspl,hdud⟩,hrest⟩ := List.forall_mem_cons.mp h
    have hsum : ∀ l, duds + BitVec.ofNat 32 (total (env :: l)) =
        duds + BitVec.ofNat 32 env.duds + BitVec.ofNat 32 (total l) := fun l => by
      rw [total,List.map_cons,List.sum_cons,BitVec.ofNat_add,BitVec.add_assoc,total]
    have hone : total [env] = env.duds := by simp [total]
    rw [calls,List.foldlM_cons,lamebusInterrupt_dud hspl hdud duds]
    by_cases hnow : env.irqs ≠ 0 ∧ 10000 < (duds + BitVec.ofNat 32 env.duds).toInt
    · rw [if_pos hnow]
      exact iff_of_true ⟨_,rfl⟩ ⟨[],env,envs,rfl,hnow.1,by simpa only [List.nil_append,hone] using
        hnow.2⟩
    · rw [if_neg hnow]
      refine (ih hrest _).trans ⟨?_,?_⟩
      · rintro ⟨before,last,after,rfl,hirqs,hhigh⟩
        exact ⟨env :: before,last,after,rfl,hirqs,by rwa [List.cons_append,hsum]⟩
      · rintro ⟨before,last,after,hs,hirqs,hhigh⟩
        cases before with
        | nil =>
          obtain ⟨rfl,rfl⟩ := List.cons.inj hs
          exact absurd ⟨hirqs,by simpa only [List.nil_append,hone] using hhigh⟩ hnow
        | cons env' before =>
          obtain ⟨rfl,rfl⟩ := List.cons.inj hs
          exact ⟨before,last,after,rfl,hirqs,by rwa [List.cons_append,hsum] at hhigh⟩

/-- Two slots without driver keep asserting an interrupt. -/
def undriven : Env := ⟨1,⟨0,fun _ => false⟩,0x30,fun _ bus => (bus,0)⟩

def stray : Env := ⟨1,⟨0,fun _ => false⟩,0,fun _ bus => (bus,0)⟩

theorem calls_stray (n : Nat) (duds : BitVec 32) :
    calls duds (List.replicate n stray) = .ok (duds + BitVec.ofNat 32 n) := by
  induction n generalizing duds with
  | zero => exact congrArg _ (BitVec.add_zero duds).symm
  | succ n ih =>
    exact (ih (duds+1)).trans (by rw [Nat.add_comm,BitVec.ofNat_add,BitVec.add_assoc]; rfl)

end MipsOs.Lamebus

namespace MipsOs.Pseudorand

def multiplier : Int := 16807
def modulus : Int := 0x7fffffff
def k1 : Nat := 127773
def k2 : Int := 2836

/-- A value computed as an int32_t. One that is out of range is undefined. -/
def int32 (i : Int) : Option Int := if -2^31 ≤ i ∧ i < 2^31 then some i else none

/-- The returned number and the new seed. -/
def pseudorandRandom (psSeed : Nat) : Option (Nat × Nat) := do
  let hi ← int32 (psSeed / k1 : Nat)
  let lo ← int32 (psSeed % k1 : Nat)
  let left ← int32 (multiplier * lo)
  let right ← int32 (k2 * hi)
  let tmp ← int32 (left - right)
  let tmp ← if tmp ≤ 0 then int32 (tmp + modulus) else some tmp
  let psSeed := toU32 tmp
  some (toU32 (psSeed - 1),psSeed)

def pseudorandRandmax : Nat := toU32 (modulus - 2)

/-- The seed, unless kmalloc returns NULL. -/
def pseudoattachPseudorand (allocated : Bool) : Option Nat :=
  if allocated then some 305824 else none

/-- The numbers that `n` calls return, and the seed after them. -/
def calls : Nat → Nat → Option (List Nat × Nat)
  | 0, psSeed => some ([],psSeed)
  | n+1, psSeed => do
    let (val,psSeed) ← pseudorandRandom psSeed
    let (vals,psSeed) ← calls n psSeed
    some (val :: vals,psSeed)

theorem int32_eq {i : Int} (h : -2^31 ≤ i ∧ i < 2^31) : int32 i = some i := if_pos h

/-- Schrage's decomposition: the product is a multiple of the modulus plus
`multiplier * lo - k2 * hi`, and it is not itself a multiple. -/
theorem schrage {s hi lo next : Nat} (h0 : 1 ≤ s) (h : s ≤ 2^31 - 2) (hhi : s / 127773 = hi)
    (hlo : s % 127773 = lo) (hnext : 16807 * s % (2^31 - 1) = next) :
    hi ≤ 16807 ∧ lo < 127773 ∧ 1 ≤ next ∧ next ≤ 2^31 - 2 ∧
      (next = 16807 * lo - 2836 * hi + (0x7fffffff : Int) ∧ 16807 * lo - 2836 * hi ≤ (0 : Int) ∨
        next = (16807 * lo - 2836 * hi : Int)) := by
  have hs : s = 127773 * hi + lo := by omega
  have hlt : lo < 127773 := by omega
  clear hhi hlo
  omega

theorem pseudorandRandom_eq {s : Nat} (h0 : 1 ≤ s) (h : s ≤ 2^31 - 2) :
    let next := 16807 * s % (2^31 - 1)
    pseudorandRandom s = some (next - 1,next) ∧ 1 ≤ next ∧ next ≤ 2^31 - 2 := by
  obtain ⟨hhi,hlo,hlow,hhigh,hnext⟩ := schrage h0 h rfl rfl rfl
  refine ⟨?_,hlow,hhigh⟩
  unfold pseudorandRandom
  simp only [k1,k2,multiplier,modulus,Option.bind_eq_bind]
  generalize s / 127773 = hi at *
  generalize s % 127773 = lo at *
  generalize 16807 * s % (2^31 - 1) = next at *
  rw [int32_eq (by omega),Option.bind_some,int32_eq (by omega),Option.bind_some,
    int32_eq (by omega),Option.bind_some,int32_eq (by omega),Option.bind_some,
    int32_eq (by omega),Option.bind_some]
  have hret : toU32 ((next : Int) - 1) = next - 1 := by
    rw [toU32_of_nonneg (by omega) (by omega)]
    omega
  rcases hnext with ⟨hnext,hle⟩ | hnext
  · rw [if_pos hle,int32_eq (by omega),Option.bind_some,← hnext,toU32_natCast (by omega),hret]
  · rw [if_neg (by omega),Option.bind_some,← hnext,toU32_natCast (by omega),hret]

theorem calls_ends (n : Nat) {s : Nat} (h0 : 1 ≤ s) (h : s ≤ 2^31 - 2) :
    ∃ vals t, calls n s = some (vals,t) ∧ vals.length = n ∧
      (∀ v ∈ vals, v ≤ pseudorandRandmax) ∧ 1 ≤ t ∧ t ≤ 2^31 - 2 := by
  induction n generalizing s with
  | zero => exact ⟨[],s,rfl,rfl,by simp,h0,h⟩
  | succ n ih =>
    obtain ⟨hstep,hlow,hhigh⟩ := pseudorandRandom_eq h0 h
    obtain ⟨vals,t,hcalls,hlen,hvals,ht⟩ := ih hlow hhigh
    refine ⟨(16807 * s % (2^31 - 1) - 1) :: vals,t,?_,congrArg (· + 1) hlen,?_,ht⟩
    · simp only [calls,hstep,hcalls,Option.bind_eq_bind,Option.bind_some]
    · refine List.forall_mem_cons.mpr ⟨?_,hvals⟩
      have hmax : pseudorandRandmax = 2^31 - 3 := by decide
      omega

theorem park_miller :
    (∀ s, 1 ≤ s → s ≤ 2^31 - 2 → pseudorandRandom s =
      some (16807 * s % (2^31 - 1) - 1,16807 * s % (2^31 - 1)) ∧
      1 ≤ 16807 * s % (2^31 - 1) ∧ 16807 * s % (2^31 - 1) ≤ 2^31 - 2) ∧
    ∀ seed, pseudoattachPseudorand true = some seed → ∀ n, ∃ vals t,
      calls n seed = some (vals,t) ∧ vals.length = n ∧ (∀ v ∈ vals, v ≤ pseudorandRandmax) ∧
      t ≠ 0 := by
  refine ⟨fun s h0 h => pseudorandRandom_eq h0 h,fun seed hseed n => ?_⟩
  cases hseed
  obtain ⟨vals,t,hcalls,hlen,hvals,hpos,-⟩ :=
    calls_ends n (s := 305824) (by decide) (by decide)
  exact ⟨vals,t,hcalls,hlen,hvals,by omega⟩

theorem park_miller_first : pseudorandRandom 305824 = some (845016673,845016674) :=
  (park_miller.1 305824 (by decide) (by decide)).1

end MipsOs.Pseudorand
