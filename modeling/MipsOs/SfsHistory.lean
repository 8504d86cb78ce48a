import MipsOs.SfsVolume

/-! What runs make of the bytes of a file, told by what the writes among the calls
have transferred. -/

set_option autoImplicit false
namespace MipsOs.Sfs
open Bytes Prog Ledger Runs

section Calls

variable {s t : Fs} {ino : Nat}

theorem exec_write (h : Inv s) (hl : s.loaded ino = true) (r : Request) :
    (ino = sfsRootLocation ∧ exec (.write ino r) s = .err .EISDIR s) ∨
    (ino ≠ sfsRootLocation ∧ ∃ res u t, exec (.write ino r) s = .ok (.io res u) t ∧
      WriteOutcome (Live s) ino r s (res,u) t) := by
  obtain ⟨v,hv⟩ := exists_vnode hl
  rw [exec,onFile,forOps,bind_ok (getVnode_eq hv)]
  cases hops : v.ops with
  | dir => exact .inl ⟨(h.dir_root hv).mp hops,rfl⟩
  | file =>
    obtain ⟨out,t,hrw,hout⟩ := (sfsReadWrite_write h.own hv r).returns
    rw [if_pos rfl,bind_ok hrw]
    exact .inr ⟨h.file_ne hv hops,out.1,out.2,t,rfl,hout⟩

theorem exec_read (h : Inv s) (hl : s.loaded ino = true) (r : Request) :
    (ino = sfsRootLocation ∧ exec (.read ino r) s = .err .EISDIR s) ∨
    (ino ≠ sfsRootLocation ∧ ∃ res u, exec (.read ino r) s = .ok (.io res u) s ∧
      ReadOutcome ino r s (s.fileAt ino).size (res,u) s) := by
  obtain ⟨v,hv⟩ := exists_vnode hl
  rw [exec,onFile,forOps,bind_ok (getVnode_eq hv)]
  cases hops : v.ops with
  | dir => exact .inl ⟨(h.dir_root hv).mp hops,rfl⟩
  | file =>
    obtain ⟨out,t,hrw,hout⟩ := (sfsReadWrite_read h.own hv r).returns
    have hts : t = s := hout.1
    subst hts
    rw [← inodeAt_loaded hv] at hout
    rw [if_pos rfl,bind_ok hrw]
    exact .inr ⟨h.file_ne hv hops,out.1,out.2,rfl,hout⟩

theorem exec_truncate (h : Inv s) (hl : s.loaded ino = true) (len : Fin (2^31)) :
    (ino = sfsRootLocation ∧ exec (.truncate ino len) s = .err .EISDIR s) ∨
    (ino ≠ sfsRootLocation ∧ ∃ t, exec (.truncate ino len) s = .ok .nothing t ∧
      Becomes (Live s) ino { (s.fileAt ino).cut (truncateKeeps (truncateBlocklen len)) with
        size := len } s t) := by
  obtain ⟨v,hv⟩ := exists_vnode hl
  have hu : toU32 (len.val : Int) = len.val := toU32_natCast (by omega)
  rw [exec]
  cases hops : v.ops with
  | dir =>
    refine .inl ⟨(h.dir_root hv).mp hops,bind_err ?_⟩
    rw [vopTruncate,bind_ok (getVnode_eq hv),hops]
    rfl
  | file =>
    obtain ⟨x,t,htr,_,hb,_⟩ := (sfsTruncate_spec h.own hv (by rw [hu]; exact len.isLt)).returns
    have hvop : vopTruncate ino len s = .ok x t := by
      rw [vopTruncate,bind_ok (getVnode_eq hv),hops]
      exact htr
    rw [hu] at hb
    rw [bind_ok hvop]
    exact .inr ⟨h.file_ne hv hops,t,rfl,hb⟩

end Calls

section Transfers

structure Transfer where
  ino : Nat
  offset : Nat
  count : Nat
  data : Buffer

def Transfer.byte (w : Transfer) (ino p : Nat) : Option Byte :=
  if w.ino = ino ∧ w.offset ≤ p ∧ p < w.offset + w.count then some (w.data (p - w.offset)) else none

def transfer (s : Fs) : Act → Option Transfer
  | .write ino r =>
    match exec (.write ino r) s with
    | .ok (.io _ u) _ => some ⟨ino,r.offset,r.length - u.resid,r.buf⟩
    | _ => none
  | _ => none

def written (s : Fs) (a : Act) (ino p : Nat) : Option Byte := (transfer s a).bind (·.byte ino p)

def lastWritten (ino p : Nat) : Fs → List Act → Option Byte
  | _, [] => none
  | s, a :: as =>
    match step s a with
    | some t => (lastWritten ino p t as).or (written s a ino p)
    | none => none

variable {s t : Fs} {ino i p : Nat} {a : Act}

theorem Becomes.live {f : File} (h : Becomes (Live s) ino f s t) (hne : ino ≠ sfsRootLocation) :
    Live t i ↔ Live s i := by
  have hroot : t.root = s.root := h.others _ (live_root s) (Ne.symm hne)
  unfold Live
  rw [hroot,h.loaded_eq]

variable {r : Request} {res : Except Errno Unit} {u : Uio}

theorem WriteOutcome.count
    (h : WriteOutcome (Live s) ino r s (res,u) t) : ∃ n, n = r.length - u.resid ∧
      Becomes (Live s) ino ((s.fileAt ino).write r.offset n r.buf 0) s t ∧
      (res = .ok () → n = r.length) := by
  have hres : ∀ n, u = (r.uio .write).advance n → n ≤ r.length.val →
      n = r.length.val - u.resid := by
    rintro n rfl hn
    simp only [Uio.advance,Request.uio]
    omega
  cases res with
  | ok x =>
    obtain ⟨_,huio,hb,_⟩ := h
    exact ⟨r.length,hres _ huio (Nat.le_refl _),hb,fun _ => rfl⟩
  | error e =>
    obtain ⟨n,hbr,⟨_,huio,hb,_⟩,_⟩ := h
    have hn : n ≤ r.length.val := by
      rcases hbr with rfl | ⟨hlt,_⟩
      · exact Nat.zero_le _
      · omega
    exact ⟨n,hres n huio hn,hb,by simp⟩

theorem write_byte (f : File) (o n : Nat) (src : Buffer) (p : Nat) :
    (f.write o n src 0).byte p = if o ≤ p ∧ p < o + n then src (p - o) else f.byte p := by
  simp [File.write,File.patch,splice]

theorem step_write (h : Inv s) (hs : step s (.write ino r) = some t) (hi : Live s i) (p : Nat) :
    Live t i ∧ t.byteAt i p = (written s (.write ino r) i p).getD (s.byteAt i p) := by
  rcases exec_write h (step_handles hs ino (by simp [Act.handles])) r with
    ⟨_,he⟩ | ⟨hne,res,u,v,he,hw⟩
  · obtain rfl := step_err hs he
    exact ⟨hi,by simp only [written,transfer,he,Option.bind_none,Option.getD_none]⟩
  · obtain rfl := step_ok hs he
    obtain ⟨n,rfl,hb,_⟩ := hw.count
    refine ⟨(hb.live hne).mpr hi,?_⟩
    simp only [written,transfer,he,Option.bind_some,Transfer.byte]
    by_cases hii : i = ino
    · subst hii
      have hself : t.byteAt i p = _ := congrArg (fun f => f.byte p) hb.self
      rw [hself,write_byte]
      by_cases hp : r.offset.val ≤ p ∧ p < r.offset + (r.length - u.resid)
      · rw [if_pos hp,if_pos ⟨rfl,hp⟩,Option.getD_some]
      · rw [if_neg hp,if_neg fun hc => hp hc.2,Option.getD_none]
        rfl
    · have hother : t.byteAt i p = _ := congrArg (fun f => f.byte p) (hb.others i hi hii)
      rw [hother,if_neg fun hc => hii hc.1.symm,Option.getD_none]
      rfl

theorem step_truncate {len : Fin (2^31)} (h : Inv s) (hs : step s (.truncate ino len) = some t)
    (hi : Live s i) (p : Nat) : Live t i ∧ t.byteAt i p =
      if i = ino ∧ i ≠ sfsRootLocation ∧ truncateKeeps (truncateBlocklen len) (p / 512) = false then 0
      else s.byteAt i p := by
  rcases exec_truncate h (step_handles hs ino (by simp [Act.handles])) len with
    ⟨hr,he⟩ | ⟨hne,u,he,hb⟩
  · obtain rfl := step_err hs he
    exact ⟨hi,by rw [if_neg fun hc => hc.2.1 (hc.1.trans hr)]⟩
  · obtain rfl := step_ok hs he
    refine ⟨(hb.live hne).mpr hi,?_⟩
    by_cases hii : i = ino
    · subst hii
      have hself : t.byteAt i p = _ := congrArg (fun f => f.byte p) hb.self
      rw [hself]
      simp only [File.cut]
      by_cases hk : truncateKeeps (truncateBlocklen len) (p / 512) = true
      · rw [if_pos hk,if_neg fun hc => by rw [hc.2.2] at hk; cases hk]
        rfl
      · rw [if_neg hk]
        simp [hne,hk]
    · have hother : t.byteAt i p = _ := congrArg (fun f => f.byte p) (hb.others i hi hii)
      rw [hother,if_neg fun hc => hii hc.1]
      rfl

theorem step_quiet (h : Inv s) (hq : a.quiet = true) (hs : step s a = some t) (hi : Live s i)
    (hi' : Live t i) (hr : i ≠ sfsRootLocation) (p : Nat) : t.byteAt i p = s.byteAt i p := by
  have hord : Orderly s t := step_safe hs (exec_quiet h a hq (step_handles hs))
  exact congrFun (congrArg Prod.snd (hord.keeps i hi hi' hr)) p

theorem written_quiet (hq : a.quiet = true) : written s a i p = none := by
  cases a with
  | write ino r => cases hq
  | _ => rfl

theorem step_byte (h : Inv s) (hcut : ∀ len, a ≠ .truncate i len) (hs : step s a = some t)
    (hi : Live s i) (hi' : Live t i) (hr : i ≠ sfsRootLocation) (p : Nat) :
    t.byteAt i p = (written s a i p).getD (s.byteAt i p) := by
  by_cases hq : a.quiet = true
  · rw [written_quiet hq,Option.getD_none]
    exact step_quiet h hq hs hi hi' hr p
  · cases a with
    | write ino r => exact (step_write h hs hi p).2
    | truncate ino len =>
      rw [(step_truncate h hs hi p).2,if_neg fun hc => hcut len (by rw [hc.1])]
      rfl
    | _ => exact (hq rfl).elim

theorem step_zero (h : Inv s) (hs : step s a = some t) (hi : Live s i) (hi' : Live t i)
    (hr : i ≠ sfsRootLocation) (hz : s.byteAt i p = 0) (hn : written s a i p = none) :
    t.byteAt i p = 0 := by
  by_cases hcut : ∃ len, a = .truncate i len
  · obtain ⟨len,rfl⟩ := hcut
    rw [(step_truncate h hs hi p).2,hz,ite_self]
  · rw [step_byte h (fun len he => hcut ⟨len,he⟩) hs hi hi' hr p,hn,hz]
    rfl

end Transfers

section Runs

variable {s t : Fs} {i p : Nat} {a : Act} {acts : List Act} {C : Fs → Act → Prop}

theorem lastWritten_cons {u : Fs} {as : List Act} (h : step s a = some u) :
    lastWritten i p s (a :: as) = (lastWritten i p u as).or (written s a i p) := by
  simp only [lastWritten,h]

theorem along_live (hC : ∀ s a, C s a → Live s i) (hc : Along step C s acts)
    (hr : run step s acts = some t) (hi : Live t i) : Live s i := by
  cases acts with
  | nil =>
    cases hr
    exact hi
  | cons a as => exact hC s a hc.1

/-- The bytes of a file that is not truncated are those last written. -/
theorem run_byte (h : Inv s)
    (hc : Along step (fun s a => Live s i ∧ ∀ len, a ≠ .truncate i len) s acts)
    (ht : run step s acts = some t) (hi : Live t i) (hr : i ≠ sfsRootLocation) (p : Nat) :
    t.byteAt i p = (lastWritten i p s acts).getD (s.byteAt i p) := by
  induction acts generalizing s with
  | nil =>
    cases ht
    rfl
  | cons a as ih =>
    obtain ⟨u,hu,ht⟩ := run_cons.mp ht
    have hlater := hc.2 u hu
    have hui := along_live (fun _ _ hc => hc.1) hlater ht hi
    rw [ih (step_inv h hu) hlater ht,step_byte h hc.1.2 hu hc.1.1 hui hr p,lastWritten_cons hu,
      Option.getD_or]

theorem run_zero (h : Inv s) (hc : Along step (fun s _ => Live s i) s acts)
    (ht : run step s acts = some t) (hi : Live t i) (hr : i ≠ sfsRootLocation)
    (hz : s.byteAt i p = 0) (hn : lastWritten i p s acts = none) : t.byteAt i p = 0 := by
  induction acts generalizing s with
  | nil =>
    cases ht
    exact hz
  | cons a as ih =>
    obtain ⟨u,hu,ht⟩ := run_cons.mp ht
    rw [lastWritten_cons hu] at hn
    obtain ⟨hlater,hnow⟩ := Option.or_eq_none_iff.mp hn
    have hui := along_live (fun _ _ hc => hc) (hc.2 u hu) ht hi
    exact ih (step_inv h hu) (hc.2 u hu) ht (step_zero h hu hc.1 hui hr hz hnow) hlater

end Runs

section Contents

/-- At least one byte, inside the largest file there can be, and no faults. -/
structure Request.Plain (r : Request) : Prop where
  some : 1 ≤ r.length.val
  room : r.offset.val + r.length.val ≤ (sfsNdirect + sfsDbperidb) * sfsBlocksize
  sound : ∀ i, r.faults i = false

variable {volname : Name} {stSize : Fin (2^31)} {image : Nat → Block} {s₀ s₁ s t u : Fs}
  {ino dir : Nat} {name : Name} {excl : Bool} {before acts : List Act} {r : Request}

theorem read_plain (h : Inv s) (hl : s.loaded ino = true)
    (hne : ino ≠ sfsRootLocation) (hr : r.Plain) :
    ∃ u, exec (.read ino r) s = .ok (.io (.ok ()) u) s ∧
      u.resid = r.length - min r.length.val ((s.fileAt ino).size - r.offset) ∧
      ∀ k, u.buf k = if k < min r.length.val ((s.fileAt ino).size - r.offset)
        then s.byteAt ino (r.offset + k) else r.buf k := by
  have hroom : r.offset + r.length.val ≤ 143 * 512 := hr.room
  rcases exec_read h hl r with ⟨hi,_⟩ | ⟨_,res,u,he,_,hout⟩
  · exact (hne hi).elim
  · cases res with
    | error e =>
      rcases hout with ⟨_,hlt⟩ | ⟨_,i,hf⟩
      · have := hr.some
        omega
      · have hs : r.faults i = true := hf
        rw [hr.sound i] at hs
        cases hs
    | ok x =>
      obtain ⟨n,rfl,hn⟩ := hout
      have hn := hn (by omega)
      refine ⟨_,he,?_,fun k => ?_⟩
      · rw [← hn]
        rfl
      · rw [← hn]
        simp only [Uio.took,Request.uio,splice,Nat.zero_le,true_and,Nat.zero_add]
        refine if_congr Iff.rfl ?_ rfl
        rw [Nat.sub_zero,Nat.add_comm]

theorem write_plain (h : Inv s) (hl : s.loaded ino = true)
    (hne : ino ≠ sfsRootLocation) (hr : r.Plain) :
    ∃ res u t, exec (.write ino r) s = .ok (.io res u) t ∧
      (res = .ok () ∨ res = .error .ENOSPC) ∧ (res = .ok () →
        (t.fileAt ino).size = max (s.fileAt ino).size (r.offset + r.length) ∧
        (∀ p, t.byteAt ino p = if r.offset ≤ p ∧ p < r.offset + r.length.val
          then r.buf (p - r.offset) else s.byteAt ino p) ∧
        ∀ i, Live s i → i ≠ ino → t.fileAt i = s.fileAt i) := by
  have hroom : r.offset + r.length.val ≤ 143 * 512 := hr.room
  rcases exec_write h hl r with ⟨hi,_⟩ | ⟨_,res,u,t,he,hw⟩
  · exact (hne hi).elim
  · refine ⟨res,u,t,he,?_,fun hok => ?_⟩
    · cases res with
      | ok x => exact .inl rfl
      | error e =>
        obtain ⟨n,_,_,⟨rfl,_⟩ | ⟨_,hlt⟩ | ⟨_,i,hf⟩⟩ := hw
        · exact .inr rfl
        · have := hr.some
          omega
        · have hs : r.faults i = true := hf
          rw [hr.sound i] at hs
          cases hs
    · obtain ⟨n,_,hb,hn⟩ := hw.count
      rw [hn hok] at hb
      refine ⟨by rw [hb.self]; rfl,fun p => ?_,hb.others⟩
      have hself : t.byteAt ino p = _ := congrArg (fun f => f.byte p) hb.self
      rw [hself,write_byte]
      rfl

theorem creat_new (h : Inv s₁) (hd : s₁.loaded dir = true)
    (hc : exec (.creat dir name excl) s₁ = .ok (.vnode ino) s) (hnew : ¬ Live s₁ ino) :
    Inv s ∧ ∀ p, s.byteAt ino p = 0 := by
  obtain ⟨v,hv⟩ := exists_vnode hd
  rw [exec,onDir,forOps,bind_ok (getVnode_eq hv)] at hc
  by_cases hops : v.ops = .dir
  · rw [if_pos hops] at hc
    have hroot := (h.dir_root hv).mp hops
    subst hroot
    have hcr := sfsCreat_inv h hd name excl
    cases hx : sfsCreat sfsRootLocation name excl s₁ with
    | ok b t =>
      rw [bind_ok hx] at hc
      cases hc
      rw [hx] at hcr
      refine ⟨hcr.1.inv,fun p => ?_⟩
      exact congrFun (congrArg Prod.snd (hcr.2 hnew)) p
    | err e t =>
      rw [bind_err hx] at hc
      cases hc
    | panic p =>
      rw [bind_panic hx] at hc
      cases hc
  · rw [if_neg hops] at hc
    cases hc

/-- A file from its creation on, as long as it is in use and not truncated: reads hand back
the bytes last written, or 0, and a write that succeeds changes what it covers and nothing else. -/
theorem io_refines_bytes (hv : volume volname stSize image = some s₀)
    (hb : run step s₀ before = some s₁) (hd : s₁.loaded dir = true)
    (hc : exec (.creat dir name excl) s₁ = .ok (.vnode ino) s) (hnew : ¬ Live s₁ ino)
    (hacts : Along step (fun s a => Live s ino ∧ ∀ len, a ≠ .truncate ino len) s acts)
    (ht : run step s acts = some t) (hl : t.loaded ino = true) (hr : r.Plain) :
    (∃ w, exec (.read ino r) t = .ok (.io (.ok ()) w) t ∧
      w.resid = r.length - min r.length.val ((t.fileAt ino).size - r.offset) ∧
      ∀ k, w.buf k = if k < min r.length.val ((t.fileAt ino).size - r.offset)
        then (lastWritten ino (r.offset + k) s acts).getD 0 else r.buf k) ∧
    ∃ res w u, exec (.write ino r) t = .ok (.io res w) u ∧
      (res = .ok () ∨ res = .error .ENOSPC) ∧ (res = .ok () →
        (u.fileAt ino).size = max (t.fileAt ino).size (r.offset + r.length) ∧
        (∀ p, u.byteAt ino p = if r.offset ≤ p ∧ p < r.offset + r.length.val
          then r.buf (p - r.offset) else t.byteAt ino p) ∧
        ∀ i, Live t i → i ≠ ino → u.fileAt i = t.fileAt i) := by
  obtain ⟨hinv,hzero⟩ := creat_new (reachable_inv hv hb) hd hc hnew
  have hroot : ino ≠ sfsRootLocation := fun hi => hnew (.inl hi)
  have hend := run_inv hinv ht
  refine ⟨?_,write_plain hend hl hroot hr⟩
  obtain ⟨w,he,hres,hbuf⟩ := read_plain hend hl hroot hr
  refine ⟨w,he,hres,fun k => ?_⟩
  rw [hbuf k,run_byte hinv hacts ht (live_loaded hl) hroot,hzero]

/-- A file is made, five bytes are written and read back. -/
theorem io_refines_bytes_fill : ∃ s₀ s₁ s t w, volume4096 = some s₀ ∧
    run step s₀ [.getroot] = some s₁ ∧
    exec (.creat sfsRootLocation Name.a false) s₁ = .ok (.vnode 3) s ∧
    run step s [.write 3 (.fill 2 5 7)] = some t ∧
    exec (.read 3 (.fill 0 9 1)) t = .ok (.io (.ok ()) w) t ∧
    w.resid = 9 - min 9 ((t.fileAt 3).size - 0) := by
  have h : (volume4096.any fun s₀ => (run step s₀ [.getroot]).any fun s₁ =>
      s₁.loaded sfsRootLocation && !s₁.loaded 3 && s₁.root.size == 0 &&
      (exec (.creat sfsRootLocation Name.a false) s₁).test fun x s =>
        (match x with
          | .vnode i => i == 3
          | _ => false) && s.loaded 3 &&
        (run step s [.write 3 (.fill 2 5 7)]).any fun t => t.loaded 3) = true := by
    decide +kernel
  obtain ⟨s₀,hv,h⟩ := some_of_any h
  obtain ⟨s₁,hb,h⟩ := some_of_any h
  simp only [Bool.and_eq_true,Bool.not_eq_true',beq_iff_eq] at h
  obtain ⟨⟨⟨hd,h3⟩,hsize⟩,h⟩ := h
  obtain ⟨x,s,hc,h⟩ := Outcome.test_eq_true h
  simp only [Bool.and_eq_true] at h
  obtain ⟨⟨hx,hl⟩,h⟩ := h
  obtain ⟨t,ht,hlt⟩ := some_of_any h
  cases x with
  | vnode i =>
    obtain rfl : i = 3 := beq_iff_eq.mp hx
    have hnew : ¬ Live s₁ 3 := by
      rintro (hi | ⟨k,⟨hk,_⟩,_⟩ | hi)
      · cases hi
      · rw [File.slots,hsize] at hk
        exact absurd hk (by simp)
      · rw [h3] at hi
        cases hi
    have hacts : Along step (fun s a => Live s 3 ∧ ∀ len, a ≠ .truncate 3 len) s
        [.write 3 (.fill 2 5 7)] := ⟨⟨live_loaded hl,by simp⟩,fun _ _ => trivial⟩
    obtain ⟨⟨w,hw,hres,_⟩,_⟩ := io_refines_bytes (r := .fill 0 9 1) hv hb hd hc hnew hacts ht hlt
      ⟨by decide,by decide,fun _ => rfl⟩
    exact ⟨s₀,s₁,s,t,w,hv,hb,hc,ht,hw,hres⟩
  | _ => cases hx

theorem truncateBlocklen_eq {n : Nat} (h : n + 511 < 2^31) :
    truncateBlocklen n = (n + 511) / 512 := by
  have hcast : (n : Int) + sfsBlocksize - 1 = (n + 511 : Nat) := by
    unfold sfsBlocksize
    omega
  unfold truncateBlocklen
  rw [hcast,toU32_natCast (by omega),toInt32_of_lt h,toU32_tdiv (by omega)]
  rfl

def Fs.readByte (s : Fs) (ino : Nat) (offset : Fin (2^31)) : Option Byte :=
  match exec (.read ino (.fill offset 1 0)) s with
  | .ok (.io (.ok _) u) _ => if u.resid = 0 then some (u.buf 0) else none
  | _ => none

end Contents

end MipsOs.Sfs
