import MipsOs.BlockDevice
import MipsOs.Guard

/-! The disk driver kern/dev/lamebus/lhd.c with any number of threads in lhd_io, its interrupt
handler and the disk. A thread can be switched out anywhere. P on a semaphore is a step that is
possible when the count is not 0, and V is one that always is (thread/synch.c). lh_clear guards the
card, and lh_done stands for the end of the command of the thread that has it. The range check adds
32-bit numbers: the sum wraps for a request that begins in front of the disk and reaches it. -/

set_option autoImplicit false
namespace MipsOs.Lhd
open Bytes Sfs Guard Runs Function

/-- LHD_REG_STAT; the bit LHD_ISWRITE of a finished command is masked out by LHD_STATEMASK. -/
inductive Stat where
  | idle
  | working (write : Bool)
  | finished (result : LhdResult)
  deriving DecidableEq, Repr

/-- A command that the disk has carried out: the block that was written, or was there to read. -/
structure Command where
  sect : Nat
  write : Bool
  result : LhdResult
  data : Block

/-- What the driver has in common with the interrupt handler and the disk, without lh_clear.
`issued` counts the commands written to LHD_REG_STAT, and `log` has those that are finished. -/
structure Card where
  done : Nat
  result : Option Errno
  buf : Block
  sect : Nat
  stat : Stat
  sector : Nat → Block
  issued : Nat
  log : List Command

structure Io where
  uio : Uio
  sector : Nat
  len : Nat
  i : Nat

def Io.sect (io : Io) : Nat := (io.sector + io.i) % 2^32

/-- Where a thread is in lhd_io. `data` is what it has put on the card, if it writes, and `n` is the
number of its command. -/
inductive Pc where
  | out
  /-- At P(lh_clear). -/
  | waiting (io : Io)
  | cleared (io : Io)
  | loaded (io : Io) (data : Option Block)
  | addressed (io : Io) (data : Option Block)
  /-- At P(lh_done). -/
  | started (io : Io) (data : Option Block) (n : Nat)
  | finished (io : Io) (data : Option Block) (n : Nat)
  /-- At V(lh_clear). -/
  | releasing (io : Io) (result : Option Errno)
  | returned (result : Option Errno) (uio : Uio)

structure State where
  clear : Nat
  card : Card
  pc : Nat → Pc
  blocks : Nat

/-- Something is done to the card while it works on a command. -/
inductive Fault where
  | overrun
  deriving DecidableEq, Repr

inductive Act where
  | call (t : Nat) (uio : Uio)
  | pClear (t : Nat)
  | load (t : Nat)
  | address (t : Nat)
  | start (t : Nat)
  | pDone (t : Nat)
  | collect (t : Nat)
  | vClear (t : Nat)
  /-- The disk has finished its command. -/
  | complete (result : LhdResult)
  | irq

section Steps

/-- uiomove of a sector between the card and the caller; it does not panic. -/
def transfer (buf : Block) (u : Uio) : Option Errno × Block × Uio :=
  match uiomove buf lhdSectsize u with
  | .ok buf u => (none,buf,u)
  | .err e u => (some e,buf,u)
  | .panic _ => (none,buf,u)

def entry (blocks : Nat) (uio : Uio) : Pc :=
  let sector := toU32 (uio.offset.tdiv lhdSectsize)
  let sectoff := toU32 (uio.offset.tmod lhdSectsize)
  let len := uio.resid / lhdSectsize
  let lenoff := uio.resid % lhdSectsize
  if sectoff ≠ 0 ∨ lenoff ≠ 0 then .returned (some .EINVAL) uio
  else if (sector + len) % 2^32 > blocks then .returned (some .EINVAL) uio
  else if len = 0 then .returned none uio
  else .waiting ⟨uio,sector,len,0⟩

def next (io : Io) (result : Option Errno) : Pc :=
  if result.isSome then .returned result io.uio
  else if io.i + 1 < io.len then .waiting { io with i := io.i + 1 }
  else .returned none io.uio

/-- What lhd_io makes of lh_result and, if it reads, of the buffer. -/
def outcome (result : Option Errno) (buf : Block) (io : Io) : Io × Option Errno :=
  match result,io.uio.rw with
  | none,.read =>
    let (e,_,u) := transfer buf io.uio
    ({ io with uio := u },e)
  | _,_ => (io,result)

variable (c : Card)

/-- Writing LHD_REG_STAT starts the command that is set up. -/
def Card.start (write : Bool) : Card := { c with stat := .working write, issued := c.issued + 1 }

/-- The command that is under way, if it ends like this. -/
def Card.command (r : LhdResult) (write : Bool) : Command :=
  ⟨c.sect,write,r,if write then c.buf else c.sector c.sect⟩

/-- A command that fails leaves the sector and the buffer alone. -/
def Card.complete (r : LhdResult) (write : Bool) : Card :=
  { c with
    stat := .finished r
    sector := if write && r = .ok then update c.sector c.sect c.buf else c.sector
    buf := if !write && r = .ok then c.sector c.sect else c.buf
    log := c.log ++ [c.command r write] }

def lhdIrq : Card :=
  match c.stat with
  | .idle | .working _ => c
  | .finished r => { c with stat := .idle, result := r.errno, done := c.done + 1 }

variable (s : State)

def State.goto (t : Nat) (p : Pc) (c : Card) : State :=
  { s with pc := update s.pc t p, card := c }

def State.touch (t : Nat) (p : Pc) (c : Card) : Except Fault State :=
  if s.card.stat = .idle then .ok (s.goto t p c) else .error .overrun

def load (t : Nat) (io : Io) : Except Fault State :=
  match io.uio.rw with
  | .read => .ok (s.goto t (.loaded io none) s.card)
  | .write =>
    match transfer s.card.buf io.uio with
    | (none,buf,u) => s.touch t (.loaded { io with uio := u } (some buf)) { s.card with buf := buf }
    | (some e,_,u) =>
      (s.touch t (.returned (some e) u) s.card).map fun s => { s with clear := s.clear + 1 }

def act : Act → Option (Except Fault State)
  | .call t uio =>
    match s.pc t with
    | .out | .returned _ _ => some (.ok (s.goto t (entry s.blocks uio) s.card))
    | _ => none
  | .pClear t =>
    match s.pc t with
    | .waiting io =>
      if 0 < s.clear then some (.ok { s.goto t (.cleared io) s.card with clear := s.clear - 1 })
      else none
    | _ => none
  | .load t =>
    match s.pc t with
    | .cleared io => some (load s t io)
    | _ => none
  | .address t =>
    match s.pc t with
    | .loaded io data => some (s.touch t (.addressed io data) { s.card with sect := io.sect })
    | _ => none
  | .start t =>
    match s.pc t with
    | .addressed io data =>
      some (s.touch t (.started io data s.card.issued) (s.card.start (io.uio.rw = .write)))
    | _ => none
  | .pDone t =>
    match s.pc t with
    | .started io data n =>
      if 0 < s.card.done then
        some (.ok (s.goto t (.finished io data n) { s.card with done := s.card.done - 1 }))
      else none
    | _ => none
  | .collect t =>
    match s.pc t with
    | .finished io _ _ =>
      let (io,result) := outcome s.card.result s.card.buf io
      some (s.touch t (.releasing io result) s.card)
    | _ => none
  | .vClear t =>
    match s.pc t with
    | .releasing io result =>
      some (.ok { s.goto t (next io result) s.card with clear := s.clear + 1 })
    | _ => none
  | .complete r =>
    match s.card.stat with
    | .working write => some (.ok { s with card := s.card.complete r write })
    | _ => none
  | .irq => some (.ok { s with card := lhdIrq s.card })

def step (a : Act) : Option State := (act s a).bind Except.toOption

end Steps

/-- What config_lhd sets up on a disk, whose buffer and sector register are as they are. -/
def configLhd (blocks : Nat) (sector : Nat → Block) (buf : Block) (sect : Nat) : State where
  clear := 1
  card := ⟨0,none,buf,sect,.idle,sector,0,[]⟩
  pc := fun _ => .out
  blocks := blocks

def Pc.owns : Pc → Bool
  | .out | .waiting _ | .returned _ _ => false
  | _ => true

def Pc.pending : Pc → Bool
  | .started _ _ _ => true
  | _ => false

structure Quiet (c : Card) : Prop where
  stat : c.stat = .idle
  done : c.done = 0
  issued : c.issued = c.log.length

def Carries (c : Card) (io : Io) : Option Block → Prop
  | none => io.uio.rw = .read
  | some b => io.uio.rw = .write ∧ c.buf = b

/-- The command is the one this round of lhd_io asks for. -/
structure Own (io : Io) (data : Option Block) (k : Command) : Prop where
  sect : k.sect = io.sect
  write : k.write = decide (io.uio.rw = .write)
  data : k.write = true → data = some k.data

/-- Command `n` is finished, and if it has read a block that is still on the card. -/
structure Answered (c : Card) (io : Io) (data : Option Block) (n : Nat) (k : Command) : Prop where
  logged : c.log[n]? = some k
  own : Own io data k
  buf : k.write = false → k.result = .ok → c.buf = k.data

/-- What the card is like while a thread has the unit of lh_clear. -/
def Fits (c : Card) : Pc → Prop
  | .cleared _ | .releasing _ _ => Quiet c
  | .loaded io data => Quiet c ∧ Carries c io data
  | .addressed io data => Quiet c ∧ Carries c io data ∧ c.sect = io.sect
  | .started io data n => c.issued = n + 1 ∧
      (c.stat = .working (decide (io.uio.rw = .write)) ∧ c.done = 0 ∧ c.log.length = n ∧
        Carries c io data ∧ c.sect = io.sect ∨
      c.log.length = n + 1 ∧ ∃ k, Answered c io data n k ∧
        (c.stat = .finished k.result ∧ c.done = 0 ∨
          c.stat = .idle ∧ c.done = 1 ∧ c.result = k.result.errno))
  | .finished io data n => Quiet c ∧ ∃ k, Answered c io data n k ∧ c.result = k.result.errno
  | _ => True

def Inv (s : State) : Prop := Guarded (fun p => p.owns = true) Fits Quiet s.clear s.card s.pc

section Moves

variable {s u : State} {t : Nat} {p : Pc} {c : Card} {io : Io} {data : Option Block} {n : Nat}

theorem touch_ok (h : s.touch t p c = .ok u) : u = s.goto t p c := by
  unfold State.touch at h
  split at h
  · exact (Except.ok.inj h).symm
  · cases h

theorem owned (h : Inv s) (hp : s.pc t = p) (ho : p.owns = true) : Fits s.card p :=
  hp ▸ h.busy t (hp.symm ▸ ho)

theorem Inv.move (h : Inv s) (ht : (s.pc t).owns = true) (hp : p.owns = true) (hf : Fits c p) :
    Inv (s.goto t p c) := Guarded.move h ht hp hf

theorem Inv.give (h : Inv s) (ht : (s.pc t).owns = true) (hp : p.owns = false) (hq : Quiet c) :
    Inv { s.goto t p c with clear := s.clear + 1 } :=
  Guarded.give h ht (by simp [hp]) hq

theorem entry_owns (blocks : Nat) (uio : Uio) : (entry blocks uio).owns = false := by
  simp only [entry]
  split
  · rfl
  split
  · rfl
  split <;> rfl

theorem next_owns (io : Io) (result : Option Errno) : (next io result).owns = false := by
  unfold next
  split
  · rfl
  split <;> rfl

theorem transfer_rw (buf : Block) (u : Uio) : (transfer buf u).2.2.rw = u.rw := by
  unfold transfer uiomove
  cases hrw : u.rw with
  | read | write =>
    by_cases hf : u.faulty (min lhdSectsize u.resid) = true
    · simp [hf,hrw]
    · simp [hf,hrw,Uio.advance]

theorem load_inv (h : Inv s) (hp : s.pc t = .cleared io) (hs : load s t io = .ok u) : Inv u := by
  have hq : Quiet s.card := owned h hp rfl
  have ho : (s.pc t).owns = true := by rw [hp]; rfl
  unfold load at hs
  cases hrw : io.uio.rw with
  | read =>
    rw [hrw] at hs
    cases hs
    exact h.move ho rfl ⟨hq,hrw⟩
  | write =>
    rw [hrw] at hs
    have hkeep := transfer_rw s.card.buf io.uio
    rcases htr : transfer s.card.buf io.uio with ⟨_ | e,buf,v⟩
    · simp only [htr] at hs hkeep
      rw [touch_ok hs]
      exact h.move ho rfl ⟨⟨hq.stat,hq.done,hq.issued⟩,hkeep.trans hrw,rfl⟩
    · simp only [htr] at hs
      cases htouch : s.touch t (.returned (some e) v) s.card with
      | error f =>
        rw [htouch] at hs
        cases hs
      | ok w =>
        rw [htouch] at hs
        cases hs
        rw [touch_ok htouch]
        exact h.give ho rfl hq

theorem Fits.quiet_or_started (ho : p.owns = true) (hf : Fits c p) :
    Quiet c ∨ ∃ io data n, p = .started io data n := by
  cases p with
  | out | waiting | returned => cases ho
  | cleared | releasing => exact .inl hf
  | loaded | addressed | finished => exact .inl hf.1
  | started io data n => exact .inr ⟨io,data,n,rfl⟩

theorem Fits.started (ho : p.owns = true) (hf : Fits c p) (hstat : c.stat ≠ .idle) :
    ∃ io data n, p = .started io data n :=
  (hf.quiet_or_started ho).resolve_left fun hq => hstat hq.stat

theorem complete_fits {write : Bool} (r : LhdResult) (hstat : c.stat = .working write)
    (ho : p.owns = true) (hf : Fits c p) : Fits (c.complete r write) p := by
  obtain ⟨io,data,n,rfl⟩ := hf.started ho (by rw [hstat]; nofun)
  obtain ⟨hiss,⟨hw,hdone,hlen,hcar,hsect⟩ | ⟨-,k,-,⟨hfin,-⟩ | ⟨hidle,-⟩⟩⟩ := hf
  · have hwrite : write = decide (io.uio.rw = .write) := Stat.working.inj (hstat.symm.trans hw)
    refine ⟨hiss,.inr ⟨by simp [Card.complete,hlen],c.command r write,⟨?_,⟨hsect,hwrite,?_⟩,?_⟩,
      .inl ⟨rfl,hdone⟩⟩⟩
    · show (c.log ++ [_])[n]? = _
      rw [← hlen,List.getElem?_concat_length]
    · intro hwr
      have htrue : write = true := hwr
      have hrw : io.uio.rw = .write := of_decide_eq_true (hwrite.symm.trans htrue)
      cases data with
      | none => cases hrw.symm.trans hcar
      | some b => simp [Card.command,htrue,hcar.2]
    · intro hwr hok
      have hfalse : write = false := hwr
      have hres : r = .ok := hok
      simp [Card.complete,Card.command,hfalse,hres]
  · cases hstat.symm.trans hfin
  · cases hstat.symm.trans hidle

theorem irq_fits (ho : p.owns = true) (hf : Fits c p) : Fits (lhdIrq c) p := by
  unfold lhdIrq
  split
  · exact hf
  · exact hf
  · next r hstat =>
    obtain ⟨io,data,n,rfl⟩ := hf.started ho (by rw [hstat]; nofun)
    obtain ⟨hiss,⟨hw,-⟩ | ⟨hlen,k,hk,⟨hfin,hdone⟩ | ⟨hidle,-⟩⟩⟩ := hf
    · cases hstat.symm.trans hw
    · cases hstat.symm.trans hfin
      exact ⟨hiss,.inr ⟨hlen,k,⟨hk.logged,hk.own,hk.buf⟩,.inr ⟨rfl,by rw [hdone],rfl⟩⟩⟩
    · cases hstat.symm.trans hidle

theorem irq_quiet (hq : Quiet c) : Quiet (lhdIrq c) := by
  rw [lhdIrq,hq.stat]
  exact hq

end Moves

section Runs

variable {s u : State} {a : Act}

theorem act_of_step (hs : step s a = some u) : act s a = some (.ok u) := by
  obtain ⟨r,hr,hu⟩ := Option.bind_eq_some_iff.mp hs
  cases r with
  | error f => cases hu
  | ok v =>
    cases hu
    exact hr

theorem step_inv (h : Inv s) (hs : step s a = some u) : Inv u := by
  have hr := act_of_step hs
  cases a with
  | call t uio =>
    simp only [act] at hr
    have hout : (s.pc t).owns = false → Inv (s.goto t (entry s.blocks uio) s.card) := fun hno =>
      Guarded.outside h (by simp [hno]) (by simp [entry_owns])
    split at hr
    · next hp =>
      cases hr
      exact hout (by rw [hp]; rfl)
    · next hp =>
      cases hr
      exact hout (by rw [hp]; rfl)
    · cases hr
  | pClear t =>
    simp only [act] at hr
    split at hr
    · split at hr
      · next hpos =>
        cases hr
        exact Guarded.take h hpos rfl id
      · cases hr
    · cases hr
  | load t =>
    simp only [act] at hr
    split at hr
    · next io hp => exact load_inv h hp (Option.some.inj hr)
    · cases hr
  | address t =>
    simp only [act] at hr
    split at hr
    · next io data hp =>
      obtain ⟨hq,hcar⟩ := owned h hp rfl
      rw [touch_ok (Option.some.inj hr)]
      refine h.move (by rw [hp]; rfl) rfl ⟨⟨hq.stat,hq.done,hq.issued⟩,?_,rfl⟩
      cases data <;> exact hcar
    · cases hr
  | start t =>
    simp only [act] at hr
    split at hr
    · next io data hp =>
      obtain ⟨hq,hcar,hsect⟩ := owned h hp rfl
      rw [touch_ok (Option.some.inj hr)]
      refine h.move (by rw [hp]; rfl) rfl ⟨rfl,.inl ⟨rfl,hq.done,hq.issued.symm,?_,hsect⟩⟩
      cases data <;> exact hcar
    · cases hr
  | pDone t =>
    simp only [act] at hr
    split at hr
    · next io data n hp =>
      split at hr
      · next hpos =>
        cases hr
        obtain ⟨hiss,⟨-,hdone,-⟩ | ⟨hlen,k,hk,⟨-,hdone⟩ | ⟨hidle,hdone,hres⟩⟩⟩ := owned h hp rfl
        · omega
        · omega
        · refine h.move (by rw [hp]; rfl) rfl ⟨⟨hidle,?_,hiss.trans hlen.symm⟩,k,
            ⟨hk.logged,hk.own,hk.buf⟩,hres⟩
          show s.card.done - 1 = 0
          omega
      · cases hr
    · cases hr
  | collect t =>
    simp only [act] at hr
    split at hr
    · next io data n hp =>
      have hq := (owned h hp rfl).1
      rw [touch_ok (Option.some.inj hr)]
      exact h.move (by rw [hp]; rfl) rfl hq
    · cases hr
  | vClear t =>
    simp only [act] at hr
    split at hr
    · next io result hp =>
      cases hr
      exact h.give (by rw [hp]; rfl) (next_owns io result) (owned h hp rfl)
    · cases hr
  | complete r =>
    simp only [act] at hr
    split at hr
    · next write hstat =>
      cases hr
      refine Guarded.data h (fun p ho hf => complete_fits r hstat ho hf) fun hq => ?_
      cases hstat.symm.trans hq.stat
    · cases hr
  | irq =>
    cases hr
    exact Guarded.data h (fun p ho hf => irq_fits ho hf) irq_quiet

theorem configLhd_inv (blocks : Nat) (sector : Nat → Block) (buf : Block) (sect : Nat) :
    Inv (configLhd blocks sector buf sect) :=
  ⟨.inl ⟨rfl,nofun⟩,nofun,fun _ => ⟨rfl,rfl,rfl⟩⟩

theorem errno_none {r : LhdResult} (h : r.errno = none) : r = .ok := by
  cases r with
  | ok => rfl
  | invsect | media => cases h

/-- What lhd_io makes of lh_result and of the buffer is what it has to make of its own command. -/
theorem Answered.outcome {c : Card} {io : Io} {data : Option Block} {n : Nat} {k : Command}
    (h : Answered c io data n k) (hres : c.result = k.result.errno) :
    outcome c.result c.buf io = Lhd.outcome k.result.errno k.data io := by
  rw [hres]
  cases he : k.result.errno with
  | some e => rfl
  | none =>
    cases hrw : io.uio.rw with
    | write => simp only [Lhd.outcome,hrw]
    | read =>
      have hread : k.write = false := by
        rw [h.own.write,hrw]
        rfl
      rw [h.buf hread (errno_none he)]

theorem act_ne_error (h : Inv s) (a : Act) (f : Fault) : act s a ≠ some (.error f) := by
  have htouch : ∀ {t : Nat} {p : Pc} (p' : Pc) (c : Card), s.pc t = p → p.owns = true →
      (Fits s.card p → Quiet s.card) → s.touch t p' c ≠ .error f := by
    intro t p p' c hp ho hq
    rw [State.touch,if_pos (hq (owned h hp ho)).stat]
    nofun
  cases a with
  | call | vClear | complete =>
    simp only [act]
    split <;> nofun
  | pClear | pDone =>
    simp only [act]
    split
    · split <;> nofun
    · nofun
  | load t =>
    simp only [act]
    split
    · next io hp =>
      refine fun hl => absurd (Option.some.inj hl) ?_
      unfold load
      split
      · nofun
      · split
        · exact htouch _ _ hp rfl id
        · next e buf v htr =>
          intro hm
          cases ht : s.touch t (.returned (some e) v) s.card with
          | error g =>
            rw [ht] at hm
            exact htouch _ _ hp rfl id (ht.trans hm)
          | ok w =>
            rw [ht] at hm
            cases hm
    · nofun
  | address | start =>
    simp only [act]
    split
    · next io data hp => exact fun he => htouch _ _ hp rfl And.left (Option.some.inj he)
    · nofun
  | collect t =>
    simp only [act]
    split
    · next io data n hp => exact fun he => htouch _ _ hp rfl And.left (Option.some.inj he)
    · nofun
  | irq => nofun

/-- A command is under way only for a thread at P(lh_done). -/
theorem Inv.quiet_or_started (h : Inv s) :
    Quiet s.card ∨ ∃ t io data n, s.pc t = .started io data n ∧ Fits s.card (.started io data n) := by
  rcases h.token with ⟨-,hno⟩ | ⟨-,t,ht,-⟩
  · exact .inl (h.free hno)
  · have hf := h.busy t ht
    rcases hf.quiet_or_started ht with hq | ⟨io,data,n,hp⟩
    · exact .inl hq
    · exact .inr ⟨t,io,data,n,hp,hp ▸ hf⟩

theorem Inv.outstanding (h : Inv s) : s.card.issued ≤ s.card.log.length + 1 := by
  rcases h.quiet_or_started with hq | ⟨t,io,data,n,-,hiss,⟨-,-,hlen,-⟩ | ⟨hlen,-⟩⟩
  · rw [hq.issued]
    exact Nat.le_succ _
  · omega
  · omega

/-- The end of a round: an error of the command is returned to the caller, after a success the call
goes on with the next sector or returns 0, and a block that was read is in the caller's buffer. -/
structure Ended (k : Command) (io : Io) (p : Pc) : Prop where
  error : k.result ≠ .ok → p = .returned k.result.errno io.uio
  success : k.result = .ok →
    k.write = true ∨ io.uio.faulty (min lhdSectsize io.uio.resid) = false →
    ∃ u, p = (if io.i + 1 < io.len then .waiting { io with uio := u, i := io.i + 1 }
        else .returned none u) ∧
      (k.write = false → ∀ i, i < 512 → i < io.uio.resid → u.buf (io.uio.base + i) = k.data i)

theorem next_ended {data : Option Block} {k : Command} {io : Io} (h : Own io data k) :
    Ended k io (next (outcome k.result.errno k.data io).1 (outcome k.result.errno k.data io).2) := by
  refine ⟨fun hne => ?_,fun hok hor => ?_⟩
  · cases hr : k.result with
    | ok => exact (hne hr).elim
    | invsect => simp [outcome,next,LhdResult.errno]
    | media => simp [outcome,next,LhdResult.errno]
  · rw [hok]
    cases hrw : io.uio.rw with
    | write =>
      refine ⟨io.uio,by simp [outcome,next,LhdResult.errno,hrw],fun hread => ?_⟩
      rw [h.write,hrw] at hread
      cases hread
    | read =>
      have hread : k.write = false := by rw [h.write,hrw]; rfl
      have hf := hor.resolve_left (by simp [hread])
      refine ⟨{ io.uio.advance (min lhdSectsize io.uio.resid) with
        buf := splice io.uio.buf io.uio.base (min lhdSectsize io.uio.resid) k.data 0 },?_,
        fun _ i hi hi' => ?_⟩
      · simp [outcome,next,LhdResult.errno,hrw,transfer,uiomove,hf]
      · show splice _ _ _ _ _ _ = _
        rw [splice_inside (by omega) (by simp only [lhdSectsize]; omega)]
        congr 1
        omega

theorem collect_returns (h : Inv s) {t : Nat} {io : Io} {data : Option Block} {n : Nat} {v w : State}
    (hp : s.pc t = .finished io data n) (hv : step s (.collect t) = some v)
    (hw : step v (.vClear t) = some w) :
    ∃ k, s.card.log[n]? = some k ∧ Own io data k ∧ Ended k io (w.pc t) := by
  obtain ⟨-,k,hk,hres⟩ := owned h hp rfl
  refine ⟨k,hk.logged,hk.own,?_⟩
  have hr := act_of_step hv
  simp only [act,hp,hk.outcome hres] at hr
  rw [touch_ok (Option.some.inj hr)] at hw
  have hr' := act_of_step hw
  simp only [act,State.goto,update_self] at hr'
  cases hr'
  simp only [update_self]
  exact next_ended hk.own

/-- For every interleaving of any number of calls of lhd_io, of interrupts and of the disk: at most
one command is outstanding, one thread at a time has the card, nothing is done to it while it works,
each round ends as its own command did, and lh_done is 0 unless a thread waits for its command. -/
theorem lhd_handshake (blocks : Nat) (sector : Nat → Block) (buf : Block) (sect : Nat)
    {acts : List Act} (hrun : run step (configLhd blocks sector buf sect) acts = some s) :
    s.card.issued ≤ s.card.log.length + 1 ∧
    (∀ t t', (s.pc t).owns = true → (s.pc t').owns = true → t = t') ∧
    (∀ a f, act s a ≠ some (.error f)) ∧
    (∀ t io data n v w, s.pc t = .finished io data n → step s (.collect t) = some v →
      step v (.vClear t) = some w →
      ∃ k, s.card.log[n]? = some k ∧ Own io data k ∧ Ended k io (w.pc t)) ∧
    ((∀ t, (s.pc t).pending = false) → s.card.done = 0) := by
  have h : Inv s := run_keeps (I := Inv) (fun _ _ _ hi _ hs => step_inv hi hs)
    (configLhd_inv blocks sector buf sect) (Along.trivial step _ acts) hrun
  refine ⟨h.outstanding,fun t t' ht ht' => h.token.unique ht ht',act_ne_error h,
    fun t io data n v w hp hv hw => collect_returns h hp hv hw,fun hno => ?_⟩
  · rcases h.quiet_or_started with hq | ⟨t,io,data,n,hp,-⟩
    · exact hq.done
    · have hpend := hno t
      rw [hp] at hpend
      cases hpend

def writeThenRead : List Act :=
  [.call 1 (mkKuio (fun i => if i = 3 then 7 else 0) 512 0 .write),
    .call 2 (mkKuio zeros 512 0 .read),.pClear 1,.load 1,.address 1,.start 1,.irq,.complete .ok,.irq,
    .pDone 1,.collect 1,.vClear 1,.pClear 2,.load 2,.address 2,.start 2,.complete .ok,.irq,.pDone 2]

def Pc.readDone : Pc → Option (Io × Nat)
  | .finished io none n => some (io,n)
  | _ => none

theorem Pc.readDone_eq_some {p : Pc} {io : Io} {n : Nat} (h : p.readDone = some (io,n)) :
    p = .finished io none n := by
  unfold readDone at h
  split at h
  · cases h
    rfl
  · cases h

/-- Thread 2 is given what thread 1 has written. -/
theorem lhd_handshake_writeThenRead : ∃ (s v w : State) (io : Io) (u : Uio),
    run step (configLhd 8 (fun _ => zeros) zeros 0) writeThenRead = some s ∧
    step s (.collect 2) = some v ∧ step v (.vClear 2) = some w ∧
    w.pc 2 = (if io.i + 1 < io.len then .waiting { io with uio := u, i := io.i + 1 }
      else .returned none u) ∧ u.buf 3 = 7 := by
  have hrun : ((run step (configLhd 8 (fun _ => zeros) zeros 0) writeThenRead).any fun s =>
      (s.pc 2).readDone.any fun x => (s.card.log[x.2]?.any fun k => decide (k.result = .ok ∧
        k.write = false ∧ k.data 3 = 7)) && decide (x.1.uio.base = 0 ∧ x.1.uio.resid = 512 ∧
          x.1.uio.faulty 512 = false) && (step s (.collect 2)).any fun v =>
            (step v (.vClear 2)).isSome) = true := by
    decide +kernel
  obtain ⟨s,hs,h⟩ := some_of_any hrun
  obtain ⟨⟨io,n⟩,hn,h⟩ := some_of_any h
  rw [Bool.and_eq_true,Bool.and_eq_true] at h
  obtain ⟨k,hk,hkt⟩ := some_of_any h.1.1
  obtain ⟨hbase,hresid,hf⟩ : io.uio.base = 0 ∧ io.uio.resid = 512 ∧ io.uio.faulty 512 = false :=
    of_decide_eq_true h.1.2
  obtain ⟨hok,hread,hdata⟩ := of_decide_eq_true hkt
  obtain ⟨v,hv,hw⟩ := some_of_any h.2
  obtain ⟨w,hw⟩ := Option.isSome_iff_exists.mp hw
  obtain ⟨-,-,-,hown,-⟩ := lhd_handshake 8 (fun _ => zeros) zeros 0 hs
  obtain ⟨k',hk',-,hend⟩ := hown 2 io none n v w (Pc.readDone_eq_some hn) hv hw
  obtain rfl := Option.some.inj (hk.symm.trans hk')
  obtain ⟨u,hu,hbytes⟩ := hend.success hok (.inr (by rw [hresid]; exact hf))
  have hthree := hbytes hread 3 (by decide) (by omega)
  rw [hbase] at hthree
  exact ⟨s,v,w,io,u,hs,hv,hw,hu,hthree.trans hdata⟩

end Runs

/-- An off_t and a size_t. -/
structure Sized (u : Uio) : Prop where
  offset : -2^31 ≤ u.offset ∧ u.offset < 2^31
  resid : u.resid < 2^32

/-- For whole sectors up to the end of a disk with so many of them. -/
def Whole (blocks : Nat) (u : Uio) : Prop :=
  u.offset % 512 = 0 ∧ u.resid % 512 = 0 ∧ u.offset + u.resid ≤ (blocks : Int) * 512

/-- A request for whole sectors that does not come from in front of the disk and reach it. -/
structure Straight (blocks : Nat) (u : Uio) : Prop extends Sized u where
  noWrap : Whole blocks u → 0 ≤ u.offset ∨ u.offset + u.resid < 0

def Act.Straight (blocks : Nat) : Act → Prop
  | .call _ uio => Lhd.Straight blocks uio
  | _ => True

def Pc.io : Pc → Option Io
  | .out | .returned _ _ => none
  | .waiting io | .cleared io | .loaded io _ | .addressed io _ | .started io _ _
  | .finished io _ _ | .releasing io _ => some io

def OnDisk (blocks : Nat) (io : Io) : Prop := io.sector + io.len ≤ blocks ∧ io.i < io.len

def InRange (blocks : Nat) (pc : Nat → Pc) : Prop :=
  ∀ t io, (pc t).io = some io → OnDisk blocks io

variable {s v : State} {a : Act} {u : Uio} {blocks t : Nat} {io : Io} {pc : Nat → Pc} {p q : Pc}

theorem sectoff_eq_zero (u : Uio) :
    toU32 (u.offset.tmod lhdSectsize) = 0 ↔ u.offset % 512 = 0 := by
  rw [Int.tmod_eq_emod]
  unfold toU32 lhdSectsize
  split
  · omega
  · omega

/-- The first sector of a request that begins with one. -/
theorem Sized.sector (h : Sized u) (hal : u.offset % 512 = 0) :
    (toU32 (u.offset.tdiv lhdSectsize) : Int) * 512 =
      if 0 ≤ u.offset then u.offset else u.offset + 2^32 * 512 := by
  obtain ⟨⟨hlow,hhigh⟩,hres⟩ := h
  have hdiv : u.offset.tdiv lhdSectsize = u.offset / 512 :=
    Int.tdiv_eq_ediv_of_dvd (Int.dvd_of_emod_eq_zero hal)
  rw [hdiv]
  unfold toU32
  split
  · omega
  · omega

theorem entry_refuses (h : Sized u) (hbad : ¬ Whole blocks u) :
    entry blocks u = .returned (some .EINVAL) u := by
  simp only [entry]
  split
  · rfl
  · next hal =>
    have hoff := (sectoff_eq_zero u).mp (by omega)
    have hsector := h.sector hoff
    have hres := h.resid
    have hrange := h.offset
    refine if_pos ?_
    generalize toU32 (u.offset.tdiv lhdSectsize) = sector at hsector
    simp only [Whole,lhdSectsize] at hal hbad ⊢
    split at hsector
    · omega
    · omega

theorem entry_onDisk (h : Straight blocks u) (he : (entry blocks u).io = some io) :
    OnDisk blocks io := by
  have hwhole : Whole blocks u := by
    by_contra hbad
    rw [entry_refuses h.toSized hbad] at he
    cases he
  have hsector := h.toSized.sector hwhole.1
  have hres := h.resid
  have hrange := h.offset
  have hnw := h.noWrap hwhole
  simp only [entry] at he
  generalize toU32 (u.offset.tdiv lhdSectsize) = sector at hsector he
  split at he
  · cases he
  split at he
  · cases he
  split at he
  · cases he
  · next hal hin hlen =>
    cases he
    simp only [lhdSectsize] at hin hlen ⊢
    refine ⟨?_,Nat.pos_of_ne_zero hlen⟩
    show sector + u.resid / 512 ≤ blocks
    split at hsector
    · omega
    · omega

/-- A request that wraps is let in, with a sector that the disk does not have. -/
theorem entry_wraps (h : Sized u) (hn : ¬ Straight blocks u) (hb : blocks < 2^32) :
    ∃ io i, entry blocks u = .waiting io ∧ io.i ≤ i ∧ i < io.len ∧
      blocks ≤ (io.sector + i) % 2^32 := by
  have hno : Whole blocks u ∧ ¬ (0 ≤ u.offset ∨ u.offset + u.resid < 0) := by
    by_contra hc
    exact hn ⟨h,fun hw => not_not.mp fun hnw => hc ⟨hw,hnw⟩⟩
  obtain ⟨⟨hoff,hlen,hend⟩,hnw⟩ := hno
  have hsector := h.sector hoff
  rw [if_neg (by omega)] at hsector
  have hres := h.resid
  have hrange := h.offset
  have hal := (sectoff_eq_zero u).mpr hoff
  refine ⟨⟨u,toU32 (u.offset.tdiv lhdSectsize),u.resid / 512,0⟩,
    2^32 - 1 - toU32 (u.offset.tdiv lhdSectsize),?_,Nat.zero_le _,?_,?_⟩
  · simp only [entry,hal]
    generalize toU32 (u.offset.tdiv lhdSectsize) = sector at hsector
    rw [if_neg (by simp only [lhdSectsize]; omega),if_neg (by simp only [lhdSectsize]; omega),
      if_neg (by simp only [lhdSectsize]; omega)]
    rfl
  · dsimp only
    omega
  · dsimp only
    omega

theorem InRange.update (h : InRange blocks pc) (hp : ∀ io, p.io = some io → OnDisk blocks io) :
    InRange blocks (Function.update pc t p) := by
  intro t' io hio
  by_cases ht : t' = t
  · subst ht
    rw [Function.update_self] at hio
    exact hp io hio
  · rw [Function.update_of_ne ht] at hio
    exact h t' io hio

theorem InRange.same (h : InRange blocks pc) (hpc : pc t = q) (hq : q.io = some io)
    (hp : p.io = some io) : InRange blocks (Function.update pc t p) :=
  h.update fun _ hio => Option.some.inj (hp.symm.trans hio) ▸ h t io (hpc ▸ hq)

theorem next_onDisk (h : OnDisk blocks io) {result : Option Errno} {io' : Io}
    (hn : (next io result).io = some io') : OnDisk blocks io' := by
  unfold next at hn
  split at hn
  · cases hn
  · split at hn
    · next hlt =>
      cases hn
      exact ⟨h.1,hlt⟩
    · cases hn

theorem load_inRange (h : InRange s.blocks s.pc) (hp : s.pc t = .cleared io)
    (hs : load s t io = .ok v) : v.blocks = s.blocks ∧ InRange s.blocks v.pc := by
  unfold load at hs
  split at hs
  · cases hs
    exact ⟨rfl,h.same hp rfl rfl⟩
  · split at hs
    · next buf u' htr =>
      rw [touch_ok hs]
      refine ⟨rfl,h.update fun io' hio' => ?_⟩
      cases hio'
      exact h t io (by rw [hp]; rfl)
    · next e buf u' htr =>
      cases htouch : s.touch t (.returned (some e) u') s.card with
      | error f =>
        rw [htouch] at hs
        cases hs
      | ok w =>
        rw [htouch] at hs
        cases hs
        rw [touch_ok htouch]
        exact ⟨rfl,h.update fun io' hio' => by cases hio'⟩

theorem outcome_onDisk (h : OnDisk blocks io) (result : Option Errno) (buf : Block) :
    OnDisk blocks (outcome result buf io).1 := by
  unfold outcome
  split
  · exact h
  · exact h

theorem step_inRange (h : InRange s.blocks s.pc) (ha : a.Straight s.blocks) (hs : step s a = some v) :
    v.blocks = s.blocks ∧ InRange s.blocks v.pc := by
  have hr := act_of_step hs
  cases a with
  | call t uio =>
    have hin : InRange s.blocks (Function.update s.pc t (entry s.blocks uio)) :=
      h.update fun _ => entry_onDisk ha
    simp only [act] at hr
    split at hr
    · cases hr
      exact ⟨rfl,hin⟩
    · cases hr
      exact ⟨rfl,hin⟩
    · cases hr
  | pClear t =>
    simp only [act] at hr
    split at hr
    · next io hp =>
      split at hr
      · cases hr
        exact ⟨rfl,h.same hp rfl rfl⟩
      · cases hr
    · cases hr
  | load t =>
    simp only [act] at hr
    split at hr
    · next io hp => exact load_inRange h hp (Option.some.inj hr)
    · cases hr
  | address | start =>
    simp only [act] at hr
    split at hr
    · next io data hp =>
      rw [touch_ok (Option.some.inj hr)]
      exact ⟨rfl,h.same hp rfl rfl⟩
    · cases hr
  | pDone t =>
    simp only [act] at hr
    split at hr
    · next io data n hp =>
      split at hr
      · cases hr
        exact ⟨rfl,h.same hp rfl rfl⟩
      · cases hr
    · cases hr
  | collect t =>
    simp only [act] at hr
    split at hr
    · next io data n hp =>
      rw [touch_ok (Option.some.inj hr)]
      refine ⟨rfl,h.update fun io' hio' => ?_⟩
      cases hio'
      exact outcome_onDisk (h t io (by rw [hp]; rfl)) _ _
    · cases hr
  | vClear t =>
    simp only [act] at hr
    split at hr
    · next io result hp =>
      cases hr
      exact ⟨rfl,h.update fun _ => next_onDisk (h t io (by rw [hp]; rfl))⟩
    · cases hr
  | complete r =>
    simp only [act] at hr
    split at hr
    · cases hr
      exact ⟨rfl,h⟩
    · cases hr
  | irq =>
    cases hr
    exact ⟨rfl,h⟩

/-- With any number of calls at once, no sector is asked for that the disk does not have, and a
request that is not one for whole sectors of it is refused without a command. A request that wraps
is let in with a sector that the disk does not have. -/
theorem lhd_stays_on_disk (blocks : Nat) (sector : Nat → Block) (buf : Block) (sect : Nat)
    (hb : blocks < 2^32) {acts : List Act} (hacts : ∀ a ∈ acts, a.Straight blocks)
    (hrun : run step (configLhd blocks sector buf sect) acts = some s) :
    (∀ t v, step s (.address t) = some v → v.card.sect < blocks) ∧
    (∀ t u v, Sized u → step s (.call t u) = some v →
      (¬ Whole blocks u → v.pc t = .returned (some .EINVAL) u ∧ v.card = s.card) ∧
      (¬ Straight blocks u → ∃ io i, v.pc t = .waiting io ∧ io.i ≤ i ∧ i < io.len ∧
        blocks ≤ (io.sector + i) % 2^32)) := by
  have hkeep : ∀ s a v, s.blocks = blocks ∧ InRange blocks s.pc → True ∧ a.Straight blocks →
      step s a = some v → v.blocks = blocks ∧ InRange blocks v.pc := by
    rintro s a v ⟨rfl,hin⟩ ⟨_,ha⟩ hs
    exact step_inRange hin ha hs
  obtain ⟨rfl,hin⟩ := run_keeps (I := fun s => s.blocks = blocks ∧ InRange blocks s.pc) hkeep
    ⟨rfl,fun t io hio => by cases hio⟩ ((Along.trivial step _ acts).and hacts) hrun
  refine ⟨fun t v hv => ?_,fun t u v hu hv => ?_⟩
  · have hr := act_of_step hv
    simp only [act] at hr
    split at hr
    · next io data hp =>
      rw [touch_ok (Option.some.inj hr)]
      obtain ⟨hle,hlt⟩ := hin t io (by rw [hp]; rfl)
      show (io.sector + io.i) % 2^32 < s.blocks
      omega
    · cases hr
  · have hgo : v = s.goto t (entry s.blocks u) s.card := by
      have hr := act_of_step hv
      simp only [act] at hr
      split at hr
      · exact (Except.ok.inj (Option.some.inj hr)).symm
      · exact (Except.ok.inj (Option.some.inj hr)).symm
      · cases hr
    have hpc : v.pc t = entry s.blocks u := by
      rw [hgo]
      exact Function.update_self _ _ _
    refine ⟨fun hbad => ⟨hpc.trans (entry_refuses hu hbad),by rw [hgo]; rfl⟩,fun hn => ?_⟩
    obtain ⟨io,i,hio,hi⟩ := entry_wraps hu hn hb
    exact ⟨io,i,hpc.trans hio,hi⟩

def readAt (offset : Int) (resid : Nat) : Uio := mkKuio zeros resid offset .read

theorem lhd_stays_on_disk_lastSector : ∃ s v w,
    run step (configLhd 8 (fun _ => zeros) zeros 0)
      [.call 1 (readAt 3584 512),.pClear 1,.load 1] = some s ∧
    step s (.address 1) = some v ∧ v.card.sect < 8 ∧
    step s (.call 2 (readAt 3584 1024)) = some w ∧
      w.pc 2 = .returned (some .EINVAL) (readAt 3584 1024) := by
  have h : ((run step (configLhd 8 (fun _ => zeros) zeros 0)
      [.call 1 (readAt 3584 512),.pClear 1,.load 1]).any fun s =>
      (step s (.address 1)).any fun _ => (step s (.call 2 (readAt 3584 1024))).isSome) = true := by
    decide +kernel
  obtain ⟨s,hs,h⟩ := some_of_any h
  obtain ⟨v,hv,h⟩ := some_of_any h
  obtain ⟨w,hw⟩ := Option.isSome_iff_exists.mp h
  have hread : Straight 8 (readAt 3584 512) := ⟨⟨by decide,by decide⟩,fun _ => .inl (by decide)⟩
  have hacts : ∀ a ∈ [Act.call 1 (readAt 3584 512),.pClear 1,.load 1], a.Straight 8 := by
    intro a ha
    simp only [List.mem_cons,List.not_mem_nil,or_false] at ha
    rcases ha with rfl | rfl | rfl
    · exact hread
    · exact True.intro
    · exact True.intro
  obtain ⟨hsect,hrefused⟩ := lhd_stays_on_disk 8 (fun _ => zeros) zeros 0 (by decide) hacts hs
  exact ⟨s,v,w,hs,hv,hsect 1 v hv,hw,
    ((hrefused 2 _ w ⟨by decide,by decide⟩ hw).1 fun hw => absurd hw.2.2 (by decide)).1⟩

/-- A sector in front of the disk: its number is 2^32 - 1, and adding the length gives 0. -/
theorem lhd_leaves_disk : (run step (configLhd 8 (fun _ => zeros) zeros 0)
    [.call 1 (readAt (-512) 512),.pClear 1,.load 1,.address 1,.start 1]).map
      (fun s => (s.card.sect,s.card.stat,s.card.issued)) =
        some (2^32 - 1,.working false,1) := by
  decide +kernel

end MipsOs.Lhd
