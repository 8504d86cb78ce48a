import MipsOs.VfsVolume

/-! How getdevice of kern/fs/vfs/vfslookup.c goes through the characters of a path in memory, and
that it takes the path apart as `splitPath` does. -/

set_option autoImplicit false
namespace MipsOs.Vfs
open Bytes Prog

inductive ScanStop (π : Type) where
  /-- A byte behind the terminator is read or written. -/
  | outside
  | colonOrSlash | leadingColon
  | other (p : π)

/-- The characters of the path with the terminator, and the rest of the kernel. The string is
shorter than 2^31 bytes, as any in the kernel's memory, so that an int holds every index. -/
structure Scan (φ F V : Type) where
  path : List Byte
  sys : Sys φ F V

def cstring (buf : List Byte) (p : Nat) : Option Str :=
  if (buf.drop p).contains 0 then some ((buf.drop p).takeWhile (· ≠ 0)) else none

section Scanner

variable {φ π F V α : Type} (o : Ops φ π F V)

abbrev ScanM (φ π F V α : Type) : Type := Prog (Scan φ F V) Errno (ScanStop π) α

def onSys (f : VfsM φ π F V α) : ScanM φ π F V α := fun s =>
  match f s.sys with
  | .ok a t => .ok a { s with sys := t }
  | .err e t => .err e { s with sys := t }
  | .panic p => .panic (.other p)

def charAt (i : Nat) : ScanM φ π F V Byte := do
  let s ← get
  match s.path[i]? with
  | some c => pure c
  | none => halt .outside

def storeAt (i : Nat) (c : Byte) : ScanM φ π F V Unit := do
  let s ← get
  if i < s.path.length then modify fun s => { s with path := s.path.set i c } else halt .outside

def stringAt (p : Nat) : ScanM φ π F V Str := do
  let s ← get
  match cstring s.path p with
  | some path => pure path
  | none => halt .outside

/-- The loop that locates the first colon or slash, from index `i` on: the values of the variables
colon and slash. No more rounds are possible than the string has bytes. -/
def firstMark : Nat → Nat → ScanM φ π F V (Int × Int)
  | 0, _ => halt .outside
  | n+1, i => do
    let c ← charAt i
    if c = 0 then pure (-1,-1)
    else if c = colon then pure (i,-1)
    else if c = slash then pure (-1,i)
    else firstMark n (i+1)

def skipFrom : Nat → Nat → ScanM φ π F V Nat
  | 0, _ => halt .outside
  | n+1, p => do
    let c ← charAt (p+1)
    if c = slash then skipFrom n (p+1) else pure p

def leadingStart : ScanM φ π F V (Option V) := do
  let c ← charAt 0
  if c = slash then onSys (bootRoot o)
  else do
    assert (c = colon) .leadingColon
    onSys (currentRoot o)

/-- The start vnode, and where the subpath begins in the string. -/
def getdeviceScan : ScanM φ π F V (Option V × Nat) := do
  let s ← get
  let marks ← firstMark s.path.length 0
  if marks.1 < 0 ∧ marks.2 ≠ 0 then do
    let startvn ← onSys (vfsGetcurdir o)
    pure (some startvn,0)
  else if marks.1 > 0 then do
    storeAt marks.1.toNat 0
    let last ← skipFrom s.path.length marks.1.toNat
    let devname ← stringAt 0
    let startvn ← onSys (vfsGetrootVnode o devname)
    pure (startvn,last + 1)
  else do
    assert (marks.1 = 0 ∨ marks.2 = 0) .colonOrSlash
    let startvn ← leadingStart o
    let last ← skipFrom s.path.length 0
    pure (startvn,last + 1)

def lookupFrom (start : Option V × Str) : VfsM φ π F V (Option V) :=
  if start.2 = [] then pure start.1
  else do
    let startvn ← deref o start.1
    let result ← attempt (call (o.vopLookup startvn start.2))
    call (o.decref startvn)
    let vn ← ofExcept result
    pure (some vn)

def vfsLookupScan : ScanM φ π F V (Option V) := do
  let start ← getdeviceScan o
  let path ← stringAt start.2
  onSys (lookupFrom o (start.1,path))

def lookparentFrom (buflen : Nat) (start : Option V × Str) : VfsM φ π F V (V × Str) := do
  let startvn ← deref o start.1
  let result ← attempt (lookparentAt o startvn start.2 buflen)
  call (o.decref startvn)
  ofExcept result

def vfsLookparentScan (buflen : Nat) : ScanM φ π F V (V × Str) := do
  let start ← getdeviceScan o
  let path ← stringAt start.2
  onSys (lookparentFrom o buflen (start.1,path))

end Scanner

section Marks

variable {path buf : Str} {c : Byte} {k : Nat}

/-- The first character of the path that is a colon or a slash is `c`, at index `k`. -/
structure FirstMark (path : Str) (k : Nat) (c : Byte) : Prop where
  char : path[k]? = some c
  mark : c = colon ∨ c = slash
  first : ∀ j d, j < k → path[j]? = some d → d ≠ colon ∧ d ≠ slash

theorem FirstMark.split (h : FirstMark path k c) : path = path.take k ++ c :: path.drop (k+1) := by
  have hdrop : path.drop k = c :: path.drop (k+1) := by
    obtain ⟨hk,rfl⟩ := List.getElem?_eq_some_iff.mp h.char
    exact List.drop_eq_getElem_cons hk
  rw [← hdrop,List.take_append_drop]

theorem FirstMark.length (h : FirstMark path k c) : (path.take k).length = k := by
  obtain ⟨hk,_⟩ := List.getElem?_eq_some_iff.mp h.char
  exact List.length_take_of_le (by omega)

theorem exists_firstMark (path : Str) :
    (∀ d ∈ path, d ≠ colon ∧ d ≠ slash) ∨ ∃ k c, FirstMark path k c := by
  induction path with
  | nil => exact .inl (by simp)
  | cons d path ih =>
    by_cases hd : d = colon ∨ d = slash
    · exact .inr ⟨0,d,rfl,hd,by omega⟩
    · rw [not_or] at hd
      rcases ih with hall | ⟨k,c,h⟩
      · exact .inl (by simpa [hd.1,hd.2] using hall)
      · refine .inr ⟨k+1,c,h.char,h.mark,fun j e hj he => ?_⟩
        cases j with
        | zero =>
          cases he
          exact hd
        | succ j => exact h.first j e (by omega) he

theorem cstring_of_drop {p : Nat} {sub junk : Str} (h : buf.drop p = sub ++ 0 :: junk)
    (h0 : 0 ∉ sub) : cstring buf p = some sub := by
  have htake : (sub ++ 0 :: junk).takeWhile (· ≠ 0) = sub := by
    rw [List.takeWhile_append_of_pos]
    · simp
    · intro d hd
      simpa using fun he : d = 0 => h0 (he ▸ hd)
  rw [cstring,h,if_pos (by simp),htake]

end Marks

section Runs

variable {φ π F V α : Type} {s : Scan φ F V} {c : Byte} {path : Str}

variable {i p : Nat}

theorem charAt_eq (h : s.path[i]? = some c) : (charAt i : ScanM φ π F V Byte) s = .ok c s := by
  rw [charAt,get_bind,h]
  rfl

theorem stringAt_eq (h : cstring s.path p = some path) :
    (stringAt p : ScanM φ π F V Str) s = .ok path s := by
  rw [stringAt,get_bind,h]
  rfl

theorem storeAt_eq (h : i < s.path.length) :
    (storeAt i c : ScanM φ π F V Unit) s = .ok () { s with path := s.path.set i c } := by
  rw [storeAt,get_bind,if_pos h]
  rfl

def marksAt (c : Byte) (k : Nat) : Int × Int :=
  if c = 0 then (-1,-1) else if c = colon then (k,-1) else (-1,k)

theorem firstMark_eq {k : Nat} (hk : s.path[k]? = some c) (hc : c = 0 ∨ c = colon ∨ c = slash)
    (n : Nat) (hik : i ≤ k) (hkn : k < i + n)
    (hpass : ∀ j d, i ≤ j → j < k → s.path[j]? = some d → d ≠ 0 ∧ d ≠ colon ∧ d ≠ slash) :
    (firstMark n i : ScanM φ π F V (Int × Int)) s = .ok (marksAt c k) s := by
  induction n generalizing i with
  | zero => omega
  | succ n ih =>
    rw [firstMark]
    rcases Nat.lt_or_eq_of_le hik with hlt | rfl
    · have hi : i < s.path.length := by
        have := (List.getElem?_eq_some_iff.mp hk).1
        omega
      have hget := List.getElem?_eq_getElem hi
      obtain ⟨h0,hcolon,hslash⟩ := hpass i _ (by omega) hlt hget
      rw [bind_ok (charAt_eq hget),if_neg h0,if_neg hcolon,if_neg hslash]
      exact ih (by omega) (by omega) fun j d hij => hpass j d (by omega)
    · rw [bind_ok (charAt_eq hk),marksAt]
      rcases hc with rfl | rfl | rfl
      · rfl
      · rfl
      · rfl

theorem getElem?_of_drop {buf l : List Byte} (h : buf.drop p = c :: l) : buf[p]? = some c := by
  have hget := congrArg (·[0]?) h
  simpa using hget

/-- Behind index `p` the string goes on with `rest`; the loop stops at the last of the slashes. -/
theorem skipFrom_eq {buf rest : Str} (h0 : 0 ∉ rest) (n : Nat) (hn : rest.length < n)
    (hdrop : buf.drop (p+1) = rest ++ [0]) : ∃ q,
    (∀ sys : Sys φ F V, (skipFrom n p : ScanM φ π F V Nat) ⟨buf,sys⟩ = .ok q ⟨buf,sys⟩) ∧
      buf.drop (q+1) = skipSlashes rest ++ [0] := by
  induction rest generalizing n p with
  | nil =>
    obtain ⟨n,rfl⟩ : ∃ m, n = m + 1 := ⟨n - 1,by simp at hn; omega⟩
    refine ⟨p,fun sys => ?_,hdrop⟩
    rw [skipFrom,bind_ok (charAt_eq (getElem?_of_drop hdrop)),if_neg (by decide)]
    rfl
  | cons d rest ih =>
    obtain ⟨n,rfl⟩ : ∃ m, n = m + 1 := ⟨n - 1,by simp at hn; omega⟩
    by_cases hd : d = slash
    · have hnext : buf.drop (p + 1 + 1) = rest ++ [0] := by
        rw [← List.tail_drop,hdrop]
        rfl
      obtain ⟨q,hq,hrest⟩ := ih (fun h => h0 (List.mem_cons_of_mem _ h)) n (by simpa using hn) hnext
      refine ⟨q,fun sys => ?_,?_⟩
      · rw [skipFrom,bind_ok (charAt_eq (getElem?_of_drop hdrop)),if_pos hd]
        exact hq sys
      · rw [hrest,skipSlashes,skipSlashes,List.dropWhile_cons_of_pos (by simpa)]
    · refine ⟨p,fun sys => ?_,?_⟩
      · rw [skipFrom,bind_ok (charAt_eq (getElem?_of_drop hdrop)),if_neg hd]
        rfl
      · rw [hdrop,skipSlashes,List.dropWhile_cons_of_neg (by simpa)]

end Runs

section Start

variable {φ π F V α β : Type} {o : Ops φ π F V} {sys : Sys φ F V} {path : Str} {c : Byte} {k : Nat}

/-- getdevice fetches the start vnode with `start`, and the subpath it finds is `sub`. -/
def Starts (o : Ops φ π F V) (path : Str) (sys : Sys φ F V) (start : VfsM φ π F V (Option V))
    (sub : Str) : Prop :=
  ∃ buf p, buf.length = path.length + 1 ∧ cstring buf p = some sub ∧
    getdeviceScan o ⟨path ++ [0],sys⟩ = (onSys start >>= fun v => pure (v,p)) ⟨buf,sys⟩

/-- What follows a call of another part of the kernel finds the string as it was. -/
theorem onSys_bind_congr {f : VfsM φ π F V α} {g g' : α → ScanM φ π F V β} {s : Scan φ F V}
    (h : ∀ a t, g a { s with sys := t } = g' a { s with sys := t }) :
    (onSys f >>= g) s = (onSys f >>= g') s := by
  cases hf : f s.sys with
  | ok a t =>
    have hok : onSys f s = .ok a { s with sys := t } := by rw [onSys,hf]
    rw [bind_ok hok,bind_ok hok,h a t]
  | err e t =>
    have herr : onSys f s = .err e { s with sys := t } := by rw [onSys,hf]
    rw [bind_err herr,bind_err herr]
  | panic p =>
    have hpanic : onSys f s = .panic (.other p) := by rw [onSys,hf]
    rw [bind_panic hpanic,bind_panic hpanic]

theorem onSys_bind (f : VfsM φ π F V α) (g : α → VfsM φ π F V β) (s : Scan φ F V) :
    (onSys f >>= fun a => onSys (g a)) s = onSys (f >>= g) s := by
  cases hf : f s.sys with
  | ok a t =>
    have hok : onSys f s = .ok a { s with sys := t } := by rw [onSys,hf]
    rw [bind_ok hok,onSys,onSys,bind_ok hf]
  | err e t =>
    have herr : onSys f s = .err e { s with sys := t } := by rw [onSys,hf]
    rw [bind_err herr,onSys,bind_err hf]
  | panic p =>
    have hpanic : onSys f s = .panic (.other p) := by rw [onSys,hf]
    rw [bind_panic hpanic,onSys,bind_panic hf]

theorem onSys_map {γ : Type} (f : VfsM φ π F V α) (g : α → β) (h : β → ScanM φ π F V γ)
    (s : Scan φ F V) :
    (onSys f >>= fun a => h (g a)) s = (onSys (f >>= fun a => pure (g a)) >>= h) s := by
  rw [← bind_of_eq (onSys_bind f (fun a => pure (g a)) s),bind_bind]
  rfl

theorem firstMark_found (h0 : 0 ∉ path) (h : FirstMark path k c) :
    (firstMark (path ++ [0]).length 0 : ScanM φ π F V (Int × Int)) ⟨path ++ [0],sys⟩ =
      .ok (marksAt c k) ⟨path ++ [0],sys⟩ := by
  obtain ⟨hk,_⟩ := List.getElem?_eq_some_iff.mp h.char
  refine firstMark_eq ?_ (.inr h.mark) _ (Nat.zero_le k) (by simp; omega) fun j d _ hj hd => ?_
  · exact (List.getElem?_append_left hk).trans h.char
  · have hd' : path[j]? = some d := (List.getElem?_append_left (by omega)).symm.trans hd
    have hmem := List.mem_of_getElem? hd'
    exact ⟨fun he => h0 (he ▸ hmem),h.first j d hj hd'⟩

theorem firstMark_none (h0 : 0 ∉ path) (h : ∀ d ∈ path, d ≠ colon ∧ d ≠ slash) :
    (firstMark (path ++ [0]).length 0 : ScanM φ π F V (Int × Int)) ⟨path ++ [0],sys⟩ =
      .ok (-1,-1) ⟨path ++ [0],sys⟩ := by
  refine firstMark_eq (k := path.length) (c := 0) (by simp) (.inl rfl) _ (Nat.zero_le _) (by simp)
    fun j d _ hj hd => ?_
  have hmem := List.mem_of_getElem? ((List.getElem?_append_left hj).symm.trans hd)
  exact ⟨fun he => h0 (he ▸ hmem),h d hmem⟩

theorem cstring_whole (h0 : 0 ∉ path) : cstring (path ++ [0]) 0 = some path :=
  cstring_of_drop rfl h0

theorem starts_current (h0 : 0 ∉ path)
    (h : (∀ d ∈ path, d ≠ colon ∧ d ≠ slash) ∨ ∃ k, 0 < k ∧ FirstMark path k slash) :
    Starts o path sys (startVnode o .current) path := by
  refine ⟨path ++ [0],0,by simp,cstring_whole h0,?_⟩
  obtain ⟨m,hm,hm0⟩ : ∃ m : Int × Int, (firstMark (path ++ [0]).length 0 : ScanM φ π F V _)
      ⟨path ++ [0],sys⟩ = .ok m ⟨path ++ [0],sys⟩ ∧ m.1 < 0 ∧ m.2 ≠ 0 := by
    rcases h with hall | ⟨k,hk,h⟩
    · exact ⟨_,firstMark_none h0 hall,by decide⟩
    · refine ⟨_,firstMark_found h0 h,?_⟩
      rw [marksAt,if_neg (by decide),if_neg (by decide)]
      simp only
      omega
  rw [getdeviceScan,get_bind,bind_ok hm,if_pos hm0]
  exact onSys_map (vfsGetcurdir o) some (fun v => pure (v,0)) _

theorem starts_device (h0 : 0 ∉ path) (hk : 0 < k) (h : FirstMark path k colon) :
    Starts o path sys (startVnode o (.device (path.take k))) (skipSlashes (path.drop (k+1))) := by
  obtain ⟨hlt,_⟩ := List.getElem?_eq_some_iff.mp h.char
  have hlen := h.length
  have hset : (path ++ [0]).set k 0 = path.take k ++ 0 :: (path.drop (k+1) ++ [0]) := by
    nth_rewrite 1 [h.split]
    rw [List.append_assoc,List.set_append_right _ _ (by omega),hlen,Nat.sub_self]
    rfl
  have hbehind : ((path ++ [0]).set k 0).drop (k+1) = path.drop (k+1) ++ [0] := by
    rw [hset,List.drop_append,hlen]
    simp [hlen]
  have hname : cstring ((path ++ [0]).set k 0) 0 = some (path.take k) :=
    cstring_of_drop (by rw [hset]; rfl) fun hmem => h0 (List.mem_of_mem_take hmem)
  have hrest0 : 0 ∉ path.drop (k+1) := fun hmem => h0 (List.mem_of_mem_drop hmem)
  obtain ⟨q,hq,hsub⟩ := skipFrom_eq (φ := φ) (π := π) (F := F) (V := V) hrest0 (path ++ [0]).length
    (by rw [List.length_append,List.length_drop,List.length_singleton]; omega) hbehind
  refine ⟨(path ++ [0]).set k 0,q+1,by simp,cstring_of_drop hsub ?_,?_⟩
  · exact fun hmem => hrest0 (List.dropWhile_subset _ hmem)
  · have hmarks : marksAt colon k = ((k : Int),-1) := rfl
    have hstore : k < (path ++ [0]).length := by simp; omega
    rw [getdeviceScan,get_bind,bind_ok (firstMark_found h0 h),hmarks,
      if_neg (by simp),if_pos (by simpa using hk)]
    simp only [Int.toNat_natCast]
    rw [bind_ok (storeAt_eq hstore),bind_ok (hq sys),bind_ok (stringAt_eq hname)]
    rfl

theorem leadingStart_eq {s : Scan φ F V} (hc : c = colon ∨ c = slash) (h : s.path[0]? = some c) :
    leadingStart o s = onSys (startVnode o (if c = slash then .boot else .root)) s := by
  rw [leadingStart,bind_ok (charAt_eq h)]
  rcases hc with rfl | rfl
  · rfl
  · rfl

theorem starts_leading (h0 : 0 ∉ path) (h : FirstMark path 0 c) :
    Starts o path sys (startVnode o (if c = slash then .boot else .root))
      (skipSlashes (path.drop 1)) := by
  have hsplit : path = c :: path.drop 1 := h.split
  have hrest0 : 0 ∉ path.drop 1 := fun hmem => h0 (List.mem_of_mem_drop hmem)
  have hbehind : (path ++ [0]).drop (0+1) = path.drop 1 ++ [0] := by
    nth_rewrite 1 [hsplit]
    rfl
  have hchar : (path ++ [0])[0]? = some c := by
    rw [hsplit]
    rfl
  obtain ⟨q,hq,hsub⟩ := skipFrom_eq (φ := φ) (π := π) (F := F) (V := V) hrest0 (path ++ [0]).length
    (by rw [List.length_append,List.length_drop,List.length_singleton]; omega) hbehind
  refine ⟨path ++ [0],q+1,by simp,cstring_of_drop hsub ?_,?_⟩
  · exact fun hmem => hrest0 (List.dropWhile_subset _ hmem)
  · have hmarks : ¬ ((marksAt c 0).1 < 0 ∧ (marksAt c 0).2 ≠ 0) ∧ ¬ (marksAt c 0).1 > 0 ∧
        ((marksAt c 0).1 = 0 ∨ (marksAt c 0).2 = 0) := by
      rcases h.mark with rfl | rfl
      · decide
      · decide
    rw [getdeviceScan,get_bind,bind_ok (firstMark_found h0 h),if_neg hmarks.1,if_neg hmarks.2.1,
      assert_bind _ _ _ hmarks.2.2,bind_of_eq (leadingStart_eq h.mark hchar)]
    exact onSys_bind_congr fun v t => bind_ok (hq t)

theorem splitPath_none (h : ∀ d ∈ path, d ≠ colon ∧ d ≠ slash) :
    splitPath path = (.current,path) := by
  have hdrop : (path.dropWhile fun c => decide (c ≠ colon ∧ c ≠ slash)) = [] :=
    List.dropWhile_eq_nil_iff.mpr fun d hd => decide_eq_true (h d hd)
  rw [splitPath,hdrop]

theorem splitPath_mark (h : FirstMark path k c) : splitPath path =
    if k = 0 then (if c = slash then .boot else .root,skipSlashes (path.drop 1))
    else if c = colon then (.device (path.take k),skipSlashes (path.drop (k+1)))
    else (.current,path) := by
  have hpass : ∀ d ∈ path.take k, decide (d ≠ colon ∧ d ≠ slash) = true := by
    intro d hd
    obtain ⟨j,hj,rfl⟩ := List.mem_iff_getElem.mp hd
    rw [h.length] at hj
    rw [List.getElem_take]
    exact decide_eq_true (h.first j _ hj (List.getElem?_eq_getElem _))
  have hstop : decide (c ≠ colon ∧ c ≠ slash) = false := by
    rcases h.mark with rfl | rfl
    · rfl
    · rfl
  have hdrop : (path.dropWhile fun c => decide (c ≠ colon ∧ c ≠ slash)) = c :: path.drop (k+1) := by
    nth_rewrite 1 [h.split]
    rw [List.dropWhile_append_of_pos hpass,List.dropWhile_cons_of_neg (by simp [hstop])]
  have htake : (path.takeWhile fun c => decide (c ≠ colon ∧ c ≠ slash)) = path.take k := by
    nth_rewrite 1 [h.split]
    rw [List.takeWhile_append_of_pos hpass,List.takeWhile_cons_of_neg (by simp [hstop]),
      List.append_nil]
  rw [splitPath,hdrop,htake]
  cases k with
  | zero =>
    by_cases hc : c = slash
    · simp [hc]
    · simp [hc]
  | succ k =>
    have hlen := h.length
    cases hname : path.take (k+1) with
    | nil => simp [hname] at hlen
    | cons d name => simp

theorem getdeviceScan_starts (o : Ops φ π F V) (sys : Sys φ F V) (h0 : 0 ∉ path) :
    Starts o path sys (startVnode o (splitPath path).1) (splitPath path).2 := by
  rcases exists_firstMark path with hall | ⟨k,c,h⟩
  · rw [splitPath_none hall]
    exact starts_current h0 (.inl hall)
  · rw [splitPath_mark h]
    by_cases hk : k = 0
    · subst hk
      exact starts_leading h0 h
    · rw [if_neg hk]
      rcases h.mark with rfl | rfl
      · exact starts_device h0 (by omega) h
      · exact starts_current h0 (.inr ⟨k,by omega,h⟩)

/-- What is done with the subpath is done with the string `splitPath` gives. -/
theorem scan_from (h0 : 0 ∉ path) (f : Option V × Str → VfsM φ π F V α) : ∃ buf,
    (getdeviceScan o >>= fun start => stringAt start.2 >>= fun sub => onSys (f (start.1,sub)))
      ⟨path ++ [0],sys⟩ = onSys (getdevice o path >>= f) ⟨buf,sys⟩ := by
  obtain ⟨buf,p,_,hsub,hscan⟩ := getdeviceScan_starts o sys h0
  refine ⟨buf,?_⟩
  have hdev : getdevice o path >>= f = startVnode o (splitPath path).1 >>= fun v =>
      f (v,(splitPath path).2) := by
    funext t
    rw [getdevice,bind_bind]
    rfl
  rw [bind_of_eq hscan,bind_bind,hdev,← onSys_bind]
  exact onSys_bind_congr fun v t => bind_ok (stringAt_eq hsub)

/-- vfs_lookup and vfs_lookparent do with the string in memory what they do with its characters. -/
theorem lookups_refine (o : Ops φ π F V) (sys : Sys φ F V) (h0 : 0 ∉ path) :
    (∃ buf, vfsLookupScan o ⟨path ++ [0],sys⟩ = onSys (vfsLookup o path) ⟨buf,sys⟩) ∧
    ∀ buflen, ∃ buf, vfsLookparentScan o buflen ⟨path ++ [0],sys⟩ =
      onSys (vfsLookparent o path buflen) ⟨buf,sys⟩ :=
  ⟨scan_from h0 (lookupFrom o),fun buflen => scan_from h0 (lookparentFrom o buflen)⟩

theorem lookups_refine_lhd0 : ∃ buf,
    vfsLookupScan oneVolume ⟨onLhd0 [97] ++ [0],lhd0Mounted (.onDisk [])⟩ =
      onSys (vfsLookup oneVolume (onLhd0 [97])) ⟨buf,lhd0Mounted (.onDisk [])⟩ :=
  (lookups_refine oneVolume (lhd0Mounted (.onDisk [])) (by decide)).1

/-- `v` is the vnode where a path begins, and `w` are the file systems once it has been fetched. -/
def Begins (o : Ops φ π F V) (sys : Sys φ F V) (v : Option V) (w : φ) : Start → Prop
  | .current => ∃ dir, sys.cwd = some dir ∧ o.incref dir sys.world = .ok () w ∧ v = some dir
  | .boot => ∃ vn, sys.bootfsVnode = some vn ∧ o.incref vn sys.world = .ok () w ∧ v = some vn
  | .root => ∃ dir f w₁ w₂, sys.cwd = some dir ∧ o.vnFs dir = some f ∧
      o.incref dir sys.world = .ok () w₁ ∧ o.fsGetroot f w₁ = .ok v w₂ ∧ o.decref dir w₂ = .ok () w
  | .device name => ∃ kd ∈ sys.knowndevs,
      (∃ f, kd.fs = some f ∧ (kd.name = name ∨ o.getvolname f = some name) ∧
        o.fsGetroot f sys.world = .ok v w) ∨
      kd.named o.getvolname name = some (.device kd.vnode) ∧ v = some (o.devVnode kd.vnode) ∧
        o.incref (o.devVnode kd.vnode) sys.world = .ok () w

theorem call_eq_ok {f : Prog φ Errno π α} {a : α} {t : Sys φ F V} :
    call f sys = .ok a t ↔ ∃ w, f sys.world = .ok a w ∧ t = { sys with world := w } := by
  unfold call zoom
  cases f sys.world <;> simp [eq_comm]

theorem named_fs {kd : Knowndev F} {f : F} {getvolname : F → Option Str} {name : Str} :
    kd.named getvolname name = some (.fs f) ↔
      kd.fs = some f ∧ (kd.name = name ∨ getvolname f = some name) := by
  rw [Knowndev.named,Knowndev.itself]
  cases kd.fs with
  | none =>
    simp only
    split_ifs <;> simp
  | some g =>
    simp only [Option.some.injEq]
    split_ifs with hname
    · simp only [Option.some.injEq,Root.fs.injEq]
      exact ⟨fun hg => ⟨hg,hg ▸ hname⟩,And.left⟩
    all_goals
      refine iff_of_false (by simp) fun h => hname ?_
      exact h.1 ▸ h.2

theorem named_device {kd : Knowndev F} {n : Nat} {getvolname : F → Option Str} {name : Str}
    (h : kd.named getvolname name = some (.device n)) : n = kd.vnode := by
  rw [Knowndev.named,Knowndev.itself] at h
  cases hfs : kd.fs <;> rw [hfs] at h <;> simp only at h <;> split_ifs at h <;> cases h <;> rfl

theorem getroot_begins {v : Option V} {w : φ} {name : Str}
    (h : Unambiguous o.getvolname sys.knowndevs) :
    vfsGetrootVnode o name sys = .ok v { sys with world := w } ↔
      Begins o sys v w (.device name) := by
  rw [vfsGetrootVnode,get_bind]
  constructor
  · intro hrun
    have hfind : ∀ r, vfsGetroot o.getvolname sys.knowndevs name = r → r ≠ .error .ENODEV →
        ∃ kd ∈ sys.knowndevs, kd.named o.getvolname name = some r := by
      rintro r rfl hr
      rw [vfsGetroot] at hr ⊢
      cases hf : sys.knowndevs.findSome? fun kd => kd.named o.getvolname name with
      | none => exact absurd (by rw [hf]; rfl) hr
      | some r => exact List.exists_of_findSome?_eq_some hf
    cases hr : vfsGetroot o.getvolname sys.knowndevs name with
    | fs f =>
      obtain ⟨kd,hkd,hnamed⟩ := hfind _ hr (by simp)
      obtain ⟨hfs,hname⟩ := named_fs.mp hnamed
      rw [hr] at hrun
      obtain ⟨w',hw,ht⟩ := call_eq_ok.mp hrun
      cases ht
      exact ⟨kd,hkd,.inl ⟨f,hfs,hname,hw⟩⟩
    | device n =>
      obtain ⟨kd,hkd,hnamed⟩ := hfind _ hr (by simp)
      obtain rfl := named_device hnamed
      rw [hr] at hrun
      obtain ⟨_,t,hcall,hpure⟩ := bind_eq_ok.mp hrun
      obtain ⟨w',hw,rfl⟩ := call_eq_ok.mp hcall
      cases hpure
      exact ⟨kd,hkd,.inr ⟨hnamed,rfl,hw⟩⟩
    | error e =>
      rw [hr] at hrun
      cases hrun
    | noDevice =>
      rw [hr] at hrun
      cases hrun
  · rintro ⟨kd,hkd,⟨f,hfs,hname,hw⟩ | ⟨hnamed,rfl,hw⟩⟩
    · rw [vfsGetroot_eq h hkd (named_fs.mpr ⟨hfs,hname⟩)]
      exact call_eq_ok.mpr ⟨w,hw,rfl⟩
    · rw [vfsGetroot_eq h hkd hnamed]
      exact bind_eq_ok.mpr ⟨(),_,call_eq_ok.mpr ⟨w,hw,rfl⟩,rfl⟩

theorem startVnode_begins {v : Option V} {w : φ} {start : Start}
    (h : ∀ name, start = .device name → Unambiguous o.getvolname sys.knowndevs) :
    startVnode o start sys = .ok v { sys with world := w } ↔ Begins o sys v w start := by
  cases start with
  | current =>
    cases hcwd : sys.cwd <;>
      simp [startVnode,vfsGetcurdir,Begins,bind_eq_ok,call_eq_ok,hcwd,Prog.fail,Unique.exists_iff]
    exact fun _ => eq_comm
  | boot =>
    cases hboot : sys.bootfsVnode <;>
      simp [startVnode,bootRoot,Begins,bind_eq_ok,call_eq_ok,hboot,Prog.fail,Unique.exists_iff]
    exact fun _ => eq_comm
  | root =>
    cases hcwd : sys.cwd with
    | none => simp [startVnode,currentRoot,vfsGetcurdir,Begins,bind_eq_ok,hcwd,Prog.fail]
    | some dir =>
      cases hfs : o.vnFs dir <;>
        simp [startVnode,currentRoot,vfsGetcurdir,Begins,bind_eq_ok,call_eq_ok,hcwd,hfs,Prog.halt,
          Unique.exists_iff]
  | device name => exact getroot_begins (h name rfl)

theorem Starts.stops {start : VfsM φ π F V (Option V)} {sub : Str} {p : ScanStop π}
    (h : Starts o path sys start sub) (hp : getdeviceScan o ⟨path ++ [0],sys⟩ = .panic p) :
    ∃ q, p = .other q ∧ start sys = .panic q := by
  obtain ⟨buf,_,_,_,hscan⟩ := h
  rw [hscan] at hp
  cases hstart : start sys with
  | ok v t =>
    have hok : onSys start ⟨buf,sys⟩ = .ok v ⟨buf,t⟩ := by rw [onSys,hstart]
    rw [bind_ok hok] at hp
    cases hp
  | err e t =>
    have herr : onSys start ⟨buf,sys⟩ = .err e ⟨buf,t⟩ := by rw [onSys,hstart]
    rw [bind_err herr] at hp
    cases hp
  | panic q =>
    have hpanic : onSys start ⟨buf,sys⟩ = .panic (.other q) := by rw [onSys,hstart]
    rw [bind_panic hpanic] at hp
    cases hp
    exact ⟨q,rfl,rfl⟩

/-- getdevice hands back `v` and the subpath `sub`, and the file systems are `w` then. -/
def Finds (o : Ops φ π F V) (path : Str) (sys : Sys φ F V) (sub : Str) (v : Option V) (w : φ) :
    Prop :=
  ∃ buf p, buf.length = path.length + 1 ∧ cstring buf p = some sub ∧
    getdeviceScan o ⟨path ++ [0],sys⟩ = .ok (v,p) ⟨buf,{ sys with world := w }⟩

theorem Starts.finds {start : Start} {sub : Str} (h : Starts o path sys (startVnode o start) sub)
    (hdev : ∀ name, start = .device name → Unambiguous o.getvolname sys.knowndevs)
    (v : Option V) (w : φ) : Finds o path sys sub v w ↔ Begins o sys v w start := by
  obtain ⟨buf,p,hlen,hsub,hscan⟩ := h
  rw [← startVnode_begins hdev,Finds,hscan]
  constructor
  · rintro ⟨buf',p',_,_,hrun⟩
    obtain ⟨a,s,hstart,hpure⟩ := bind_eq_ok.mp hrun
    cases hpure
    unfold onSys at hstart
    cases hs : startVnode o start sys <;> rw [hs] at hstart <;> cases hstart
    rfl
  · intro hstart
    have hok : onSys (startVnode o start) ⟨buf,sys⟩ = .ok v ⟨buf,{ sys with world := w }⟩ := by
      rw [onSys,hstart]
    exact ⟨buf,p,hlen,hsub,bind_ok hok⟩

end Start

end MipsOs.Vfs
