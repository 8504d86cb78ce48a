import Mathlib.Data.List.DropRight

/-! kgets of kern/lib/kgets.c, which reads a line from the console and lets it be edited. -/

set_option autoImplicit false
namespace MipsOs.Kgets

/-- The array at buf has maxlen characters, at least one. What has gone to the console is `out`. -/
structure State where
  buf : List Nat
  pos : Nat
  out : List Nat
  deriving DecidableEq, Repr

def putch (ch : Nat) (s : State) : State := { s with out := s.out ++ [ch] }

def backsp (s : State) : State := putch 8 (putch 32 (putch 8 s))

/-- There is no result if the store is outside the array. -/
def store (i ch : Nat) (s : State) : Option State :=
  if i < s.buf.length then some { s with buf := s.buf.set i ch } else none

def cstring (buf : List Nat) : List Nat := buf.takeWhile (· ≠ 0)

/-- The loops that erase characters, `n` being pos. -/
def erase (p : Nat → Bool) : Nat → State → State
  | 0, s => s
  | n+1, s => if s.buf[n]?.any p then erase p n (backsp { s with pos := n }) else s

/-- What is done for a character that does not end the line. The beep goes to the beep
device, not to the console. -/
def edited (ch : Nat) (s : State) : Option State :=
  if 32 ≤ ch ∧ ch < 127 ∧ s.pos < s.buf.length - 1 then
    (store s.pos ch (putch ch s)).map fun s => { s with pos := s.pos + 1 }
  else if (ch = 8 ∨ ch = 127) ∧ 0 < s.pos then some { backsp s with pos := s.pos - 1 }
  else if ch = 18 then
    (store s.pos 0 s).map fun s => { s with out := s.out ++ ([94,82,10] ++ cstring s.buf) }
  else if ch = 21 then some (erase (fun _ => true) s.pos s)
  else if ch = 23 then
    let s := erase (· = 32) s.pos s
    some (erase (· ≠ 32) s.pos s)
  else some s

/-- There is no result while getch waits. -/
def loop : List Nat → State → Option State
  | [], _ => none
  | ch :: chs, s =>
    if ch = 10 ∨ ch = 13 then some (putch 10 s)
    else if ch = 3 then some { s with pos := 0, out := s.out ++ [94,67,10] }
    else (edited ch s).bind (loop chs)

def kgets (chs buf : List Nat) : Option State :=
  (loop chs ⟨buf,0,[]⟩).bind fun s => store s.pos 0 s

/-- Where the cursor of the console is. -/
def column (n : Int) (ch : Nat) : Int :=
  if ch = 10 then 0
  else if ch = 8 then n - 1
  else if 32 ≤ ch ∧ ch < 127 then n + 1
  else n

def columns (out : List Nat) : Int := out.foldl column 0

/-- What a character does to the line. -/
def edit (maxlen : Nat) (l : List Nat) (ch : Nat) : List Nat :=
  if 32 ≤ ch ∧ ch < 127 then if l.length < maxlen - 1 then l ++ [ch] else l
  else if ch = 8 ∨ ch = 127 then l.dropLast
  else if ch = 21 then []
  else if ch = 23 then (l.rdropWhile (· = 32)).rdropWhile (· ≠ 32)
  else l

def typed (chs : List Nat) (s : State) : Option State := chs.foldlM (fun s ch => edited ch s) s

variable {s : State} {l chs : List Nat} {ch maxlen : Nat}

structure Holds (maxlen : Nat) (s : State) (l : List Nat) : Prop where
  size : s.buf.length = maxlen
  room : s.pos < maxlen
  line : s.buf.take s.pos = l
  printable : ∀ ch ∈ l, 32 ≤ ch ∧ ch < 127

structure Shows (maxlen : Nat) (s : State) (l : List Nat) : Prop extends Holds maxlen s l where
  columns : columns s.out = l.length

theorem columns_append (out more : List Nat) :
    columns (out ++ more) = more.foldl column (columns out) := List.foldl_append

theorem foldl_column (h : ∀ ch ∈ l, 32 ≤ ch ∧ ch < 127) (n : Int) :
    l.foldl column n = n + l.length := by
  induction l generalizing n with
  | nil => simp
  | cons ch l ih =>
    obtain ⟨hch,hl⟩ := List.forall_mem_cons.mp h
    have hcol : column n ch = n + 1 := by
      rw [column,if_neg (by omega),if_neg (by omega),if_pos hch]
    rw [List.foldl_cons,hcol,ih hl,List.length_cons]
    omega

section

variable (h : Holds maxlen s l)

include h

theorem Holds.lt : s.pos < s.buf.length := h.size ▸ h.room

theorem Holds.length : l.length = s.pos := by
  rw [← h.line,List.length_take_of_le (Nat.le_of_lt h.lt)]

theorem Holds.store (ch : Nat) :
    Kgets.store s.pos ch s = some { s with buf := s.buf.set s.pos ch } := if_pos h.lt

/-- The string that is left when the character behind the line is set to NUL. -/
theorem Holds.cstring : Kgets.cstring (s.buf.set s.pos 0) = l := by
  rw [Kgets.cstring,List.set_eq_take_append_cons_drop,if_pos h.lt,h.line,
    List.takeWhile_append_of_pos fun ch hch => ?_]
  · simp
  · have hprint := h.printable ch hch
    exact decide_eq_true (by omega)

theorem Holds.terminated : ∃ s', Kgets.store s.pos 0 s = some s' ∧ s'.buf.length = maxlen ∧
    0 ∈ s'.buf ∧ Kgets.cstring s'.buf = l :=
  ⟨_,h.store 0,List.length_set.trans h.size,List.mem_set h.lt 0,h.cstring⟩

end

section

variable (h : Shows maxlen s l)

include h

theorem Shows.backsp {n : Nat} (hn : s.pos = n + 1) :
    Shows maxlen (Kgets.backsp { s with pos := n }) l.dropLast where
  size := h.size
  room := Nat.lt_trans (hn ▸ Nat.lt_succ_self n) h.room
  line := by
    rw [← h.line,List.dropLast_take h.lt,hn]
    rfl
  printable ch hch := h.printable ch (List.dropLast_subset l hch)
  columns := by
    have hlen := h.length
    have hcol : Kgets.columns (s.out ++ [8] ++ [32] ++ [8]) = Kgets.columns s.out - 1 := by
      simp [columns_append,column]
    refine hcol.trans ?_
    rw [h.columns,List.length_dropLast]
    omega

theorem Shows.erase (p : Nat → Bool) :
    Shows maxlen (Kgets.erase p s.pos s) (l.rdropWhile p) := by
  obtain ⟨n,hn⟩ : ∃ n, s.pos = n := ⟨_,rfl⟩
  rw [hn]
  induction n generalizing s l with
  | zero =>
    obtain rfl : l = [] := List.length_eq_zero_iff.mp (h.length.trans hn)
    exact h
  | succ n ih =>
    have hlt : n < s.buf.length := by
      have hin := h.lt
      omega
    have hline : l = l.dropLast ++ [s.buf[n]] := by
      have hback := (h.backsp hn).line
      rw [← hback,← h.line,hn,List.take_succ_eq_append_getElem hlt]
      rfl
    rw [Kgets.erase,List.getElem?_eq_getElem hlt,Option.any_some]
    by_cases hp : p s.buf[n] = true
    · rw [if_pos hp,hline,List.rdropWhile_concat_pos _ _ _ hp]
      exact ih (h.backsp hn) rfl
    · rw [if_neg hp,hline,List.rdropWhile_concat_neg _ _ _ hp,← hline]
      exact h

theorem Shows.append (hch : 32 ≤ ch ∧ ch < 127) (hlt : s.pos < maxlen - 1) :
    Shows maxlen ⟨s.buf.set s.pos ch,s.pos + 1,s.out ++ [ch]⟩ (l ++ [ch]) where
  size := List.length_set.trans h.size
  room := Nat.add_lt_of_lt_sub hlt
  line := by
    have hlt : s.pos < (s.buf.set s.pos ch).length := by rw [List.length_set]; exact h.lt
    rw [List.take_succ_eq_append_getElem hlt,List.take_set_of_le (Nat.le_refl _),h.line,
      List.getElem_set_self]
  printable := List.forall_mem_append.mpr ⟨h.printable,by simpa using hch⟩
  columns := by
    rw [columns_append,foldl_column (by simpa using hch),h.columns,List.length_append]
    rfl

theorem Shows.edited (ch : Nat) :
    ∃ s', Kgets.edited ch s = some s' ∧ Shows maxlen s' (edit maxlen l ch) := by
  have hlen := h.length
  rw [Kgets.edited,edit,h.size]
  by_cases hprint : 32 ≤ ch ∧ ch < 127
  · rw [if_pos hprint,hlen]
    by_cases hfull : s.pos < maxlen - 1
    · rw [if_pos ⟨hprint.1,hprint.2,hfull⟩,if_pos hfull]
      exact ⟨_,congrArg (Option.map _) (if_pos h.lt),h.append hprint hfull⟩
    · rw [if_neg fun hc => hfull hc.2.2,if_neg hfull,if_neg (by omega),if_neg (by omega),
        if_neg (by omega),if_neg (by omega)]
      exact ⟨s,rfl,h⟩
  rw [if_neg hprint,if_neg fun hc => hprint ⟨hc.1,hc.2.1⟩]
  by_cases hback : ch = 8 ∨ ch = 127
  · rw [if_pos hback]
    cases hpos : s.pos with
    | zero =>
      obtain rfl : l = [] := List.length_eq_zero_iff.mp (hlen.trans hpos)
      rw [if_neg fun hc => Nat.lt_irrefl 0 hc.2,if_neg (by omega),if_neg (by omega),
        if_neg (by omega)]
      exact ⟨s,rfl,h⟩
    | succ n =>
      rw [if_pos ⟨hback,Nat.succ_pos n⟩]
      exact ⟨_,rfl,h.backsp hpos⟩
  rw [if_neg hback,if_neg fun hc => hback hc.1]
  by_cases hr : ch = 18
  · rw [if_pos hr,if_neg (by omega),if_neg (by omega),h.store]
    refine ⟨_,rfl,⟨List.length_set.trans h.size,h.room,
      (List.take_set_of_le (Nat.le_refl _)).trans h.line,h.printable⟩,?_⟩
    rw [columns_append,h.cstring,List.foldl_append,foldl_column h.printable]
    simp [column]
  rw [if_neg hr]
  by_cases hu : ch = 21
  · rw [if_pos hu,if_pos hu]
    have herase := h.erase fun _ => true
    rw [List.rdropWhile_eq_nil_iff.mpr fun _ _ => rfl] at herase
    exact ⟨_,rfl,herase⟩
  rw [if_neg hu,if_neg hu]
  by_cases hw : ch = 23
  · rw [if_pos hw,if_pos hw]
    exact ⟨_,rfl,(h.erase _).erase _⟩
  · rw [if_neg hw,if_neg hw]
    exact ⟨s,rfl,h⟩

theorem Shows.typed (chs : List Nat) :
    ∃ s', Kgets.typed chs s = some s' ∧ Shows maxlen s' (chs.foldl (edit maxlen) l) := by
  induction chs generalizing s l with
  | nil => exact ⟨s,rfl,h⟩
  | cons ch chs ih =>
    obtain ⟨s₁,hs₁,h₁⟩ := h.edited ch
    obtain ⟨s₂,hs₂,h₂⟩ := ih h₁
    refine ⟨s₂,?_,h₂⟩
    rw [Kgets.typed,List.foldlM_cons,hs₁]
    exact hs₂

end

theorem loop_append (hchs : ∀ ch ∈ chs, ch ≠ 10 ∧ ch ≠ 13 ∧ ch ≠ 3) (rest : List Nat) (s : State) :
    loop (chs ++ rest) s = (typed chs s).bind (loop rest) := by
  induction chs generalizing s with
  | nil => rfl
  | cons ch chs ih =>
    obtain ⟨hch,hchs⟩ := List.forall_mem_cons.mp hchs
    rw [List.cons_append,loop,if_neg (by omega),if_neg hch.2.2,typed,List.foldlM_cons]
    cases edited ch s with
    | none => rfl
    | some s₁ => exact ih hchs s₁

/-- kgets stores nothing outside the array and leaves the line as it was edited. While it is typed,
the cursor stands behind as many columns as the line has characters. -/
theorem line_edited (buf : List Nat) (hbuf : 1 ≤ buf.length) (chs : List Nat)
    (hchs : ∀ ch ∈ chs, ch ≠ 10 ∧ ch ≠ 13 ∧ ch ≠ 3) (last : Nat)
    (hlast : last = 10 ∨ last = 13 ∨ last = 3) (rest : List Nat) :
    (∃ s, kgets (chs ++ last :: rest) buf = some s ∧ s.buf.length = buf.length ∧ 0 ∈ s.buf ∧
      cstring s.buf = if last = 3 then [] else chs.foldl (edit buf.length) []) ∧
    ∀ n, ∃ s, typed (chs.take n) ⟨buf,0,[]⟩ = some s ∧ s.pos < buf.length ∧
      s.pos = ((chs.take n).foldl (edit buf.length) []).length ∧ columns s.out = s.pos := by
  have hstart : Shows buf.length ⟨buf,0,[]⟩ [] := ⟨⟨rfl,hbuf,List.take_zero,nofun⟩,rfl⟩
  constructor
  · obtain ⟨s,hs,h⟩ := hstart.typed chs
    rw [kgets,loop_append hchs,hs,Option.bind_some,loop]
    by_cases hc : last = 3
    · rw [if_neg (by omega),if_pos hc,if_pos hc]
      exact Holds.terminated (s := ⟨s.buf,0,_⟩) ⟨h.size,hbuf,List.take_zero,nofun⟩
    · rw [if_pos (by omega),if_neg hc]
      exact Holds.terminated (s := putch 10 s) ⟨h.size,h.room,h.line,h.printable⟩
  · intro n
    obtain ⟨s,hs,h⟩ := hstart.typed (chs.take n)
    exact ⟨s,hs,h.room,h.length.symm,by rw [h.columns,h.length]⟩

/-- "ab c", erase the word, then "d" into an array of three characters. -/
theorem line_edited_abd :
    (∃ s, kgets ([97,98,32,99,23,127,100] ++ 13 :: [7]) [1,1,1] = some s ∧ s.buf.length = 3 ∧
      0 ∈ s.buf ∧ cstring s.buf = [100]) := by
  have h := (line_edited [1,1,1] (by decide) [97,98,32,99,23,127,100] (by decide) 13 (by decide)
    [7]).1
  exact h

end MipsOs.Kgets
