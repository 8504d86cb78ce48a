import Mathlib.Data.List.Basic
import MipsOs.Guard
import MipsOs.Runs

/-! The console: putch, getch and con_input of kern/dev/generic/console.c over the serial device of
kern/dev/lamebus/lser.c. Calls are numbered. A putch that polls has the interrupts off, so nothing
but the device does anything before it returns. P on cs_wsem or cs_rsem is a step that is possible
when the count is not 0; between it and the read of cs_gotchar, and between that and the return of
getch, everything else can happen. -/

set_option autoImplicit false
namespace MipsOs.Console
open Guard Function Runs

/-- Where lser_writepolled is; `pend` is irqpending. -/
inductive Phase where
  | enter
  /-- The first lser_spin_until_write, and the write to LSER_REG_WIRQ after it. -/
  | spin | clear
  | send (pend : Bool)
  /-- The second lser_spin_until_write, and what comes after it. -/
  | wait (pend : Bool) | finish (pend : Bool)
  deriving DecidableEq, Repr

inductive Pc where
  | fresh
  /-- putch_intr, at P(cs_wsem). -/
  | waiting (ch : Nat)
  /-- putch_intr, at cs_send. -/
  | granted (ch : Nat)
  | polling (ch : Nat) (phase : Phase)
  | returned (ch : Nat)
  deriving DecidableEq, Repr

/-- ls_wbusy and the device: whether it is at work on a character, and LSER_IRQ_ACTIVE of
LSER_REG_WIRQ. -/
structure Line where
  wbusy : Bool
  working : Bool
  active : Bool
  deriving DecidableEq, Repr

/-- `poller` is the call that has the interrupts off, and `sent` the characters that have been
written to LSER_REG_CHAR, each with its call. -/
structure State where
  wsem : Nat
  line : Line
  poller : Option Nat
  pc : Nat → Pc
  sent : List (Nat × Nat)

def configCon : State := ⟨1,⟨false,false,false⟩,none,fun _ => .fresh,[]⟩

inductive Fault where
  /-- lser: Not clear to write -/
  | notClear
  /-- A character is written while the device is at work on another. -/
  | overrun
  deriving DecidableEq, Repr

inductive Act where
  /-- `off` says whether putch is called in an interrupt or with interrupts off. -/
  | putch (t ch : Nat) (off : Bool)
  | pWsem (t : Nat)
  | write (t : Nat)
  /-- The next step of the call that polls. -/
  | poll
  /-- The device has sent its character. -/
  | complete
  | irq
  deriving DecidableEq, Repr

section Steps

variable (s : State)

def State.goto (t : Nat) (p : Pc) : State := { s with pc := update s.pc t p }

def State.send (t ch : Nat) (p : Pc) : Except Fault State :=
  if s.line.working then .error .overrun
  else .ok { s.goto t p with
    line := { s.line with working := true }
    sent := s.sent ++ [(t,ch)] }

def putch (t ch : Nat) (off : Bool) : State :=
  if off then { s.goto t (.polling ch .enter) with poller := some t }
  else s.goto t (.waiting ch)

def lserWrite (t ch : Nat) : Except Fault State :=
  if s.line.wbusy then .error .notClear
  else State.send { s with line := { s.line with wbusy := true } } t ch (.returned ch)

def State.ack : State := { s with line := { s.line with active := false } }

/-- lser_writepolled; a step that spins is possible once the bit is there. -/
def lserWritepolled (t ch : Nat) : Phase → Option (Except Fault State)
  | .enter => some (.ok (s.goto t (.polling ch (if s.line.wbusy then .spin else .send false))))
  | .spin => if s.line.active then some (.ok (s.goto t (.polling ch .clear))) else none
  | .clear => some (.ok (s.ack.goto t (.polling ch (.send true))))
  | .send pend => some (s.send t ch (.polling ch (.wait pend)))
  | .wait pend => if s.line.active then some (.ok (s.goto t (.polling ch (.finish pend)))) else none
  | .finish pend =>
    let s := if pend then s else s.ack
    some (.ok { s.goto t (.returned ch) with poller := none })

def lserIrq : State :=
  if s.line.active then
    { s with line := { s.line with wbusy := false, active := false }, wsem := s.wsem + 1 }
  else s

def act : Act → Option (Except Fault State)
  | .putch t ch off =>
    if s.poller = none ∧ s.pc t = .fresh then some (.ok (putch s t ch off)) else none
  | .pWsem t =>
    match s.pc t with
    | .waiting ch =>
      if s.poller = none ∧ 0 < s.wsem then
        some (.ok { s.goto t (.granted ch) with wsem := s.wsem - 1 })
      else none
    | _ => none
  | .write t =>
    match s.pc t with
    | .granted ch => if s.poller = none then some (lserWrite s t ch) else none
    | _ => none
  | .poll =>
    match s.poller with
    | none => none
    | some t =>
      match s.pc t with
      | .polling ch phase => lserWritepolled s t ch phase
      | _ => none
  | .complete =>
    if s.line.working then
      some (.ok { s with line := { s.line with working := false, active := true } })
    else none
  | .irq => if s.poller = none then some (.ok (lserIrq s)) else none

def step (a : Act) : Option State := (act s a).bind Except.toOption

end Steps

def Pc.shown : Pc → Option Nat
  | .returned ch | .polling ch (.wait _) | .polling ch (.finish _) => some ch
  | _ => none

/-- A character is on its way, or the device has said that it is done with it. -/
def Line.Busy (l : Line) : Prop := l.working = !l.active

def Line.Idle (l : Line) : Prop := l.working = false ∧ l.active = false

/-- ls_wbusy stands for a character whose end the interrupt handler has not seen. -/
def Line.Settled (l : Line) : Prop := if l.wbusy then l.Busy else l.Idle

def Fits (l : Line) : Phase → Prop
  | .enter => l.Settled
  | .spin => l.wbusy = true ∧ l.Busy
  | .clear => l.wbusy = true ∧ l.working = false ∧ l.active = true
  | .send pend => l.wbusy = pend ∧ l.Idle
  | .wait pend => l.wbusy = pend ∧ l.Busy
  | .finish pend => l.wbusy = pend ∧ l.working = false ∧ l.active = true

/-- The unit of cs_wsem is with a call between P and cs_send, or with the device. -/
def State.has (s : State) : Option Nat → Prop
  | none => s.line.wbusy = true
  | some t => ∃ ch, s.pc t = .granted ch

structure Inv (s : State) : Prop where
  token : Token s.wsem s.has
  poller : ∀ t ch phase, s.pc t = .polling ch phase → s.poller = some t
  polls : ∀ t, s.poller = some t → ∃ ch phase, s.pc t = .polling ch phase ∧ Fits s.line phase
  settled : s.poller = none → s.line.Settled
  sent : ∀ t, (s.sent.filter fun x => x.1 == t) = (s.pc t).shown.toList.map fun ch => (t,ch)

section Places

variable {s : State} {t ch : Nat} {p : Pc} {phase : Phase}

theorem goto_self : (s.goto t p).pc t = p := update_self ..

theorem goto_of_ne {t' : Nat} (h : t' ≠ t) : (s.goto t p).pc t' = s.pc t' :=
  update_of_ne h ..

theorem has_goto (hold : ∀ ch, s.pc t ≠ .granted ch) (hnew : ∀ ch, p ≠ .granted ch)
    (x : Option Nat) : (s.goto t p).has x ↔ s.has x := by
  cases x with
  | none => exact Iff.rfl
  | some t' =>
    by_cases ht : t' = t
    · subst ht
      refine iff_of_false ?_ ?_
      · rintro ⟨ch,hch⟩
        exact hnew ch (goto_self.symm.trans hch)
      · rintro ⟨ch,hch⟩
        exact hold ch hch
    · show (∃ ch, (s.goto t p).pc t' = _) ↔ _
      rw [goto_of_ne ht]
      exact Iff.rfl

theorem sent_goto (h : Inv s) (hp : p.shown = (s.pc t).shown) (t' : Nat) :
    (s.sent.filter fun x => x.1 == t') = ((s.goto t p).pc t').shown.toList.map fun ch => (t',ch) := by
  rw [h.sent t']
  by_cases ht : t' = t
  · subst ht
    rw [goto_self,hp]
  · rw [goto_of_ne ht]

theorem sent_send (h : Inv s) (hold : (s.pc t).shown = none) (hp : p.shown = some ch) (t' : Nat) :
    ((s.sent ++ [(t,ch)]).filter fun x => x.1 == t') =
      ((s.goto t p).pc t').shown.toList.map fun ch => (t',ch) := by
  rw [List.filter_append,h.sent t']
  by_cases ht : t' = t
  · subst ht
    rw [goto_self,hold,hp]
    simp
  · rw [goto_of_ne ht]
    have hne : (t == t') = false := by simpa using Ne.symm ht
    simp [hne]

variable {l : Line} {sent : List (Nat × Nat)}

theorem Inv.poll (h : Inv s) (hp : s.pc t = .polling ch phase) (phase' : Phase)
    (hl : l.wbusy = s.line.wbusy) (hf : Fits l phase')
    (hs : ∀ t', (sent.filter fun x => x.1 == t') =
      ((s.goto t (.polling ch phase')).pc t').shown.toList.map fun ch => (t',ch)) :
    Inv { s.goto t (.polling ch phase') with line := l, sent := sent } := by
  have hpoll := h.poller t ch phase hp
  refine ⟨?_,fun t' ch' ph' hp' => ?_,fun t' ht' => ?_,fun hno => ?_,hs⟩
  · refine h.token.congr fun x => ?_
    refine Iff.trans ?_ (has_goto (p := .polling ch phase') (by rw [hp]; nofun) nofun x)
    cases x with
    | none => exact iff_of_eq (by simp only [State.has,hl]; rfl)
    | some t' => exact Iff.rfl
  · by_cases ht : t' = t
    · rw [ht]
      exact hpoll
    · exact h.poller t' ch' ph' (by rwa [← goto_of_ne (p := .polling ch phase') ht])
  · cases hpoll.symm.trans ht'
    exact ⟨ch,phase',goto_self,hf⟩
  · cases hpoll.symm.trans hno

theorem notPolling (h : Inv s) (hno : s.poller = none) (t : Nat) (ch : Nat) (phase : Phase) :
    s.pc t ≠ .polling ch phase := fun hp => by
  cases hno.symm.trans (h.poller t ch phase hp)

theorem Line.busy_working (h : l.active = false) (hb : l.Busy) : l.working = true := by
  rw [hb,h]
  rfl

theorem Inv.intr (h : Inv s) (hno : s.poller = none) (hp : ∀ ch phase, p ≠ .polling ch phase)
    {n : Nat} (ht : Token n (State.has { s.goto t p with line := l })) (hl : l.Settled)
    (hs : ∀ t', (sent.filter fun x => x.1 == t') =
      ((s.goto t p).pc t').shown.toList.map fun ch => (t',ch)) :
    Inv { s.goto t p with wsem := n, line := l, sent := sent } := by
  refine ⟨ht,fun t' ch' ph' hp' => ?_,fun t' ht' => ?_,fun _ => hl,hs⟩
  · by_cases htt : t' = t
    · subst htt
      exact absurd (goto_self.symm.trans hp') (hp ch' ph')
    · exact absurd (goto_of_ne (p := p) htt ▸ hp') (notPolling h hno t' ch' ph')
  · cases hno.symm.trans ht'

end Places

section Calls

variable {s u : State} {t ch : Nat} {phase : Phase}

theorem putch_inv (h : Inv s) (hno : s.poller = none) (hp : s.pc t = .fresh) (off : Bool) :
    Inv (putch s t ch off) := by
  have hold : ∀ ch, s.pc t ≠ .granted ch := by
    rw [hp]
    nofun
  unfold putch
  cases off with
  | false =>
    refine h.intr (p := .waiting ch) hno nofun ?_ (h.settled hno) (sent_goto h (by rw [hp]; rfl))
    exact h.token.congr (has_goto hold nofun)
  | true =>
    refine ⟨h.token.congr fun x => ?_,fun t' ch' ph' hp' => ?_,fun t' ht' => ?_,nofun,
      sent_goto h (by rw [hp]; rfl)⟩
    · exact has_goto (p := .polling ch .enter) hold nofun x
    · by_cases htt : t' = t
      · rw [htt]
        rfl
      · exact absurd (goto_of_ne (p := .polling ch .enter) htt ▸ hp') (notPolling h hno t' ch' ph')
    · cases ht'
      exact ⟨ch,.enter,goto_self,h.settled hno⟩

theorem pWsem_inv (h : Inv s) (hno : s.poller = none) (hp : s.pc t = .waiting ch)
    (hpos : 0 < s.wsem) : Inv { s.goto t (.granted ch) with wsem := s.wsem - 1 } := by
  refine h.intr (p := .granted ch) hno nofun ?_ (h.settled hno) (sent_goto h (by rw [hp]; rfl))
  refine h.token.take (i := some t) hpos fun x => ?_
  cases x with
  | none => exact iff_of_false (h.token.nobody hpos none) nofun
  | some t' =>
    by_cases htt : t' = t
    · subst htt
      exact iff_of_true ⟨ch,goto_self⟩ rfl
    · refine iff_of_false ?_ (by simpa using htt)
      rintro ⟨ch',hch⟩
      exact h.token.nobody hpos (some t') ⟨ch',(goto_of_ne (p := .granted ch) htt).symm.trans hch⟩

theorem write_inv (h : Inv s) (hno : s.poller = none) (hp : s.pc t = .granted ch) :
    ∃ u, lserWrite s t ch = .ok u ∧ Inv u := by
  have hme : s.has (some t) := ⟨ch,hp⟩
  have hfree : s.line.wbusy = false := by
    by_contra hb
    have hdev : s.line.wbusy = true := by simpa using hb
    cases h.token.unique hme (show s.has none from hdev)
  have hidle : s.line.Idle := by
    have hset := h.settled hno
    rwa [Line.Settled,hfree] at hset
  refine ⟨_,?_,h.intr (p := .returned ch) (n := s.wsem) (l := ⟨true,true,s.line.active⟩) hno nofun
    (h.token.pass (j := none) hme fun x => ?_) ?_ (sent_send h (by rw [hp]; rfl) rfl)⟩
  · simp only [lserWrite,hfree,State.send,hidle.1]
    rfl
  · cases x with
    | none => exact iff_of_true rfl rfl
    | some t' =>
      refine iff_of_false ?_ nofun
      rintro ⟨ch',hch⟩
      by_cases htt : t' = t
      · subst htt
        cases goto_self.symm.trans hch
      · have hother : s.has (some t') := ⟨ch',(goto_of_ne (p := .returned ch) htt).symm.trans hch⟩
        exact htt (Option.some.inj (h.token.unique hother hme))
  · simp [Line.Settled,Line.Busy,hidle.2]

variable {r : Except Fault State} {a : Act}

theorem poll_inv (h : Inv s) (hp : s.pc t = .polling ch phase) (hf : Fits s.line phase)
    (hr : lserWritepolled s t ch phase = some r) : ∃ u, r = .ok u ∧ Inv u := by
  cases phase with
  | enter =>
    cases hr
    refine ⟨_,rfl,h.poll hp _ (l := s.line) rfl ?_ (sent_goto h ?_)⟩
    · have hset : s.line.Settled := hf
      unfold Line.Settled at hset
      cases hb : s.line.wbusy with
      | true | false =>
        rw [hb] at hset
        exact ⟨hb,hset⟩
    · rw [hp]
      cases s.line.wbusy <;> rfl
  | spin =>
    simp only [lserWritepolled] at hr
    split at hr
    · next hact =>
      cases hr
      refine ⟨_,rfl,h.poll hp .clear (l := s.line) rfl ⟨hf.1,?_,hact⟩
        (sent_goto h (by rw [hp]; rfl))⟩
      rw [hf.2,hact]
      rfl
    · cases hr
  | clear =>
    cases hr
    have hnext : Inv { s.goto t (.polling ch (.send true)) with
        line := { s.line with active := false } } :=
      h.poll hp (.send true) (l := { s.line with active := false }) rfl ⟨hf.1,hf.2.1,rfl⟩
        (sent_goto h (by rw [hp]; rfl))
    exact ⟨_,rfl,hnext⟩
  | send pend =>
    simp only [lserWritepolled,State.send,hf.2.1] at hr
    cases hr
    refine ⟨_,rfl,h.poll hp (.wait pend) (l := { s.line with working := true }) rfl ⟨hf.1,?_⟩
      (sent_send h (by rw [hp]; rfl) rfl)⟩
    show true = !s.line.active
    rw [hf.2.2]
    rfl
  | wait pend =>
    simp only [lserWritepolled] at hr
    split at hr
    · next hact =>
      cases hr
      refine ⟨_,rfl,h.poll hp (.finish pend) (l := s.line) rfl ⟨hf.1,?_,hact⟩
        (sent_goto h (by rw [hp]; rfl))⟩
      rw [hf.2,hact]
      rfl
    · cases hr
  | finish pend =>
    have hret : ∀ {l : Line}, l.wbusy = s.line.wbusy → l.Settled →
        Inv { s.goto t (.returned ch) with line := l, poller := none } := by
      intro l hl hset
      refine ⟨h.token.congr fun x => ?_,fun t' ch' ph' hp' => ?_,nofun,fun _ => hset,
        sent_goto h (by rw [hp]; rfl)⟩
      · refine Iff.trans ?_ (has_goto (p := .returned ch) (by rw [hp]; nofun) nofun x)
        cases x with
        | none => exact iff_of_eq (by simp only [State.has,hl]; rfl)
        | some t' => exact Iff.rfl
      · by_cases htt : t' = t
        · subst htt
          cases goto_self.symm.trans hp'
        · have hp'' := (goto_of_ne (p := .returned ch) htt).symm.trans hp'
          have hpoll := h.poller t' ch' ph' hp''
          cases hpoll.symm.trans (h.poller t ch _ hp)
          exact absurd rfl htt
    obtain ⟨hb,hw,ha⟩ := hf
    cases pend with
    | true =>
      cases hr
      refine ⟨_,rfl,hret (l := s.line) rfl ?_⟩
      simp [Line.Settled,hb,Line.Busy,hw,ha]
    | false =>
      cases hr
      refine ⟨_,rfl,hret (l := { s.line with active := false }) rfl ?_⟩
      simp [Line.Settled,hb,Line.Idle,hw]

theorem complete_inv (h : Inv s) (hw : s.line.working = true) :
    Inv { s with line := { s.line with working := false, active := true } } := by
  -- ls_wbusy is set, or the device would be idle
  have hset : s.line.Settled → Line.Settled { s.line with working := false, active := true } := by
    intro hs
    cases hb : s.line.wbusy with
    | true => simp [Line.Settled,Line.Busy,hb]
    | false => simp [Line.Settled,Line.Idle,hb,hw] at hs
  refine ⟨h.token.congr fun x => ?_,h.poller,fun t ht => ?_,fun hno => hset (h.settled hno),h.sent⟩
  · cases x <;> exact Iff.rfl
  · obtain ⟨ch,phase,hp,hf⟩ := h.polls t ht
    refine ⟨ch,phase,hp,?_⟩
    cases phase with
    | enter => exact hset hf
    | spin | wait => exact ⟨hf.1,rfl⟩
    | clear | send | finish => cases hw.symm.trans hf.2.1

theorem irq_inv (h : Inv s) (hno : s.poller = none) : Inv (lserIrq s) := by
  unfold lserIrq
  split
  · next hact =>
    have hbusy : s.line.wbusy = true ∧ s.line.working = false := by
      have hset := h.settled hno
      cases hb : s.line.wbusy with
      | true => simpa [Line.Settled,Line.Busy,hb,hact] using hset
      | false => simp [Line.Settled,Line.Idle,hb,hact] at hset
    refine ⟨h.token.give (i := none) hbusy.1 fun x hx => ?_,h.poller,
      fun t ht => (nomatch hno.symm.trans ht),fun _ => ?_,h.sent⟩
    · cases x with
      | none => cases hx
      | some t => cases h.token.unique (i := none) (j := some t) hbusy.1 hx
    · simp [Line.Settled,Line.Idle,hbusy.2]
  · exact h

/-- No step trips the panic or overruns the device, and each keeps the invariant. -/
theorem act_inv (h : Inv s) (hr : act s a = some r) : ∃ u, r = .ok u ∧ Inv u := by
  cases a with
  | putch t ch off =>
    simp only [act] at hr
    split at hr
    · next hc =>
      cases hr
      exact ⟨_,rfl,putch_inv h hc.1 hc.2 off⟩
    · cases hr
  | pWsem t =>
    simp only [act] at hr
    split at hr
    · next ch hp =>
      split at hr
      · next hc =>
        cases hr
        exact ⟨_,rfl,pWsem_inv h hc.1 hp hc.2⟩
      · cases hr
    · cases hr
  | write t =>
    simp only [act] at hr
    split at hr
    · next ch hp =>
      split at hr
      · next hno =>
        obtain ⟨u,hu,hi⟩ := write_inv h hno hp
        cases hr
        exact ⟨u,hu,hi⟩
      · cases hr
    · cases hr
  | poll =>
    simp only [act] at hr
    split at hr
    · cases hr
    · next t hpo =>
      obtain ⟨ch,phase,hp,hf⟩ := h.polls t hpo
      simp only [hp] at hr
      exact poll_inv h hp hf hr
  | complete =>
    simp only [act] at hr
    split at hr
    · next hw =>
      cases hr
      exact ⟨_,rfl,complete_inv h hw⟩
    · cases hr
  | irq =>
    simp only [act] at hr
    split at hr
    · next hno =>
      cases hr
      exact ⟨_,rfl,irq_inv h hno⟩
    · cases hr

theorem step_inv (h : Inv s) (hs : step s a = some u) : Inv u := by
  obtain ⟨r,hr,hu⟩ := Option.bind_eq_some_iff.mp hs
  obtain ⟨w,rfl,hi⟩ := act_inv h hr
  cases hu
  exact hi

theorem configCon_inv : Inv configCon := by
  refine ⟨.inl ⟨rfl,fun x hx => ?_⟩,nofun,nofun,fun _ => ⟨rfl,rfl⟩,fun _ => rfl⟩
  cases x with
  | none => cases hx
  | some t =>
    obtain ⟨ch,hch⟩ := hx
    cases hch

end Calls

section Progress

def Goes (s u : State) : Prop := ∃ a, (∀ t ch off, a ≠ .putch t ch off) ∧ step s a = some u

def Pc.char : Pc → Option Nat
  | .fresh => none
  | .waiting ch | .granted ch | .polling ch _ | .returned ch => some ch

variable {s u : State} {t ch : Nat}

def Ends (t ch : Nat) (s : State) : Prop :=
  ∃ u, Relation.ReflTransGen Goes s u ∧ Inv u ∧ u.poller = none ∧ u.pc t = .returned ch ∧
    ∀ t', t' ≠ t → u.pc t' = s.pc t'

variable {a : Act} {phase : Phase} {pend : Bool}

theorem Ends.of_step (ha : ∀ t ch off, a ≠ .putch t ch off) (hs : step s a = some u)
    (hpc : ∀ t', t' ≠ t → u.pc t' = s.pc t') (h : Ends t ch u) : Ends t ch s := by
  obtain ⟨w,hw,hi,hno,hret,hother⟩ := h
  exact ⟨w,.head ⟨a,ha,hs⟩ hw,hi,hno,hret,fun t' ht => (hother t' ht).trans (hpc t' ht)⟩

theorem Inv.fits (h : Inv s) (hp : s.pc t = .polling ch phase) : Fits s.line phase := by
  obtain ⟨ch',ph',hp',hf⟩ := h.polls t (h.poller t ch phase hp)
  cases hp.symm.trans hp'
  exact hf

theorem Ends.of_poll (h : Inv s) (hp : s.pc t = .polling ch phase)
    (hs : lserWritepolled s t ch phase = some (.ok u)) (hpc : ∀ t', t' ≠ t → u.pc t' = s.pc t')
    (hnext : Inv u → Ends t ch u) : Ends t ch s := by
  obtain ⟨w,hw,hi⟩ := poll_inv h hp (h.fits hp) hs
  cases hw
  refine .of_step (a := .poll) nofun ?_ hpc (hnext hi)
  simp only [step,act,h.poller t ch phase hp,hp,hs]
  rfl

theorem step_complete (hw : s.line.working = true) : step s .complete =
    some { s with line := { s.line with working := false, active := true } } := by
  simp only [step,act,hw]
  rfl

theorem Ends.await (h : Inv s) (hb : s.line.Busy)
    (hdone : ∀ u, Inv u → u.pc = s.pc → u.line.active = true → Ends t ch u) : Ends t ch s := by
  cases hact : s.line.active with
  | true => exact hdone s h rfl hact
  | false =>
    have hw := Line.busy_working hact hb
    refine .of_step (a := .complete) nofun (step_complete hw) (fun _ _ => rfl) ?_
    exact hdone _ (complete_inv h hw) rfl rfl

theorem finish_ends (h : Inv s) (hp : s.pc t = .polling ch (.finish pend)) : Ends t ch s := by
  refine .of_poll h hp rfl (fun t' ht => ?_) fun hi => ⟨_,.refl,hi,rfl,?_,fun _ _ => rfl⟩
  · cases pend <;> exact goto_of_ne ht
  · cases pend <;> exact goto_self

theorem wait_ends (h : Inv s) (hp : s.pc t = .polling ch (.wait pend)) : Ends t ch s := by
  refine .await h (h.fits hp).2 fun u hi hpc hact => ?_
  have hp' : u.pc t = .polling ch (.wait pend) := by rw [hpc,hp]
  have hstep : lserWritepolled u t ch (.wait pend) =
      some (.ok (u.goto t (.polling ch (.finish pend)))) := if_pos hact
  exact .of_poll hi hp' hstep (fun t' ht => goto_of_ne ht) fun hi => finish_ends hi goto_self

theorem send_ends (h : Inv s) (hp : s.pc t = .polling ch (.send pend)) : Ends t ch s := by
  have hidle : s.line.working = false := (h.fits hp).2.1
  have hstep : lserWritepolled s t ch (.send pend) =
      some (.ok { s.goto t (.polling ch (.wait pend)) with
        line := { s.line with working := true }
        sent := s.sent ++ [(t,ch)] }) := by
    simp only [lserWritepolled,State.send,hidle]
    rfl
  exact .of_poll h hp hstep (fun t' ht => goto_of_ne ht) fun hi => wait_ends hi goto_self

theorem spin_ends (h : Inv s) (hp : s.pc t = .polling ch .spin) : Ends t ch s := by
  refine .await h (h.fits hp).2 fun u hi hpc hact => ?_
  have hp' : u.pc t = .polling ch .spin := by rw [hpc,hp]
  have hstep : lserWritepolled u t ch .spin = some (.ok (u.goto t (.polling ch .clear))) :=
    if_pos hact
  refine .of_poll hi hp' hstep (fun t' ht => goto_of_ne ht) fun hi => ?_
  exact .of_poll hi goto_self rfl (fun t' ht => goto_of_ne ht) fun hi => send_ends hi goto_self

theorem polling_ends (h : Inv s) (hp : s.pc t = .polling ch phase) : Ends t ch s := by
  cases phase with
  | enter =>
    refine .of_poll h hp rfl (fun t' ht => goto_of_ne ht) fun hi => ?_
    by_cases hb : s.line.wbusy = true
    · exact spin_ends hi (goto_self.trans (by rw [if_pos hb]))
    · exact send_ends hi (goto_self.trans (by rw [if_neg hb]))
  | spin => exact spin_ends h hp
  | clear =>
    exact .of_poll h hp rfl (fun t' ht => goto_of_ne ht) fun hi => send_ends hi goto_self
  | send pend => exact send_ends h hp
  | wait pend => exact wait_ends h hp
  | finish pend => exact finish_ends h hp

def Sends (t ch : Nat) (s : State) : Prop :=
  ∃ u, Relation.ReflTransGen Goes s u ∧ Inv u ∧ u.pc t = .returned ch

theorem Sends.of_step (ha : ∀ t ch off, a ≠ .putch t ch off) (hs : step s a = some u)
    (h : Sends t ch u) : Sends t ch s := by
  obtain ⟨w,hw,hi,hret⟩ := h
  exact ⟨w,.head ⟨a,ha,hs⟩ hw,hi,hret⟩

section

variable (h : Inv s) (hno : s.poller = none)

include h hno

theorem step_write (hp : s.pc t = .granted ch) :
    ∃ u, step s (.write t) = some u ∧ Inv u ∧ u.poller = none ∧ u.line.wbusy = true ∧
      u.pc t = .returned ch ∧ ∀ t', t' ≠ t → u.pc t' = s.pc t' := by
  obtain ⟨u,hu,hi⟩ := write_inv h hno hp
  refine ⟨u,?_,hi,?_⟩
  · simp only [step,act,hp,hno,hu]
    rfl
  · unfold lserWrite at hu
    split at hu
    · cases hu
    · unfold State.send at hu
      split at hu
      · cases hu
      · cases hu
        exact ⟨hno,rfl,goto_self,fun t' ht => goto_of_ne ht⟩

theorem granted_sends (hp : s.pc t = .granted ch) :
    Sends t ch s := by
  obtain ⟨u,hu,hi,-,-,hret,-⟩ := step_write h hno hp
  exact .of_step (a := .write t) nofun hu ⟨u,.refl,hi,hret⟩

theorem free_sends (hp : s.pc t = .waiting ch) (hpos : 0 < s.wsem) : Sends t ch s := by
  refine .of_step (a := .pWsem t) nofun ?_ (granted_sends (pWsem_inv h hno hp hpos) hno goto_self)
  simp only [step,act,hp,hno,hpos]
  rfl

theorem busy_sends (hp : s.pc t = .waiting ch) (hb : s.line.wbusy = true) : Sends t ch s := by
  have hactive : ∀ {s : State}, Inv s → s.poller = none → s.pc t = .waiting ch →
      s.line.active = true → Sends t ch s := by
    intro s h hno hp hact
    have hirq : step s .irq = some (lserIrq s) := by
      simp only [step,act,hno]
      rfl
    have hroom : lserIrq s = { s with
        line := { s.line with wbusy := false, active := false }, wsem := s.wsem + 1 } := if_pos hact
    have hi := irq_inv h hno
    rw [hroom] at hi hirq
    exact .of_step (a := .irq) nofun hirq (free_sends hi hno hp (Nat.succ_pos _))
  have hbusy : s.line.Busy := by
    have hset := h.settled hno
    rwa [Line.Settled,hb] at hset
  cases hact : s.line.active with
  | true => exact hactive h hno hp hact
  | false =>
    have hw := Line.busy_working hact hbusy
    exact .of_step (a := .complete) nofun (step_complete hw)
      (hactive (complete_inv h hw) hno hp rfl)

theorem waiting_sends (hp : s.pc t = .waiting ch) :
    Sends t ch s := by
  rcases h.token with ⟨hone,-⟩ | ⟨-,x,hx,-⟩
  · exact free_sends h hno hp (by omega)
  · cases x with
    | none => exact busy_sends h hno hp hx
    | some t' =>
      obtain ⟨ch',hp'⟩ := hx
      have hne : t ≠ t' := by
        rintro rfl
        cases hp.symm.trans hp'
      obtain ⟨u,hu,hi,hno',hb,-,hother⟩ := step_write h hno hp'
      exact .of_step (a := .write t') nofun hu
        (busy_sends hi hno' ((hother t hne).trans hp) hb)

end

/-- Every call that has been made can come to its end without another. -/
theorem called_sends (h : Inv s) (hc : (s.pc t).char = some ch) : Sends t ch s := by
  have hon : ∀ {s : State}, Inv s → s.poller = none → (s.pc t).char = some ch → Sends t ch s := by
    intro s h hno hc
    cases hp : s.pc t with
    | fresh =>
      rw [hp] at hc
      cases hc
    | waiting c =>
      rw [hp] at hc
      cases hc
      exact waiting_sends h hno hp
    | granted c =>
      rw [hp] at hc
      cases hc
      exact granted_sends h hno hp
    | polling c phase => exact absurd hp (notPolling h hno t c phase)
    | returned c =>
      rw [hp] at hc
      cases hc
      exact ⟨s,.refl,h,hp⟩
  cases hpo : s.poller with
  | none => exact hon h hpo hc
  | some t' =>
    obtain ⟨c,phase,hp,-⟩ := h.polls t' hpo
    obtain ⟨u,hu,hi,hno,hret,hother⟩ := polling_ends h hp
    by_cases ht : t = t'
    · subst ht
      rw [hp] at hc
      cases hc
      exact ⟨u,hu,hi,hret⟩
    · obtain ⟨w,hw,hiw,hretw⟩ := hon hi hno (by rw [hother t ht]; exact hc)
      exact ⟨w,hu.trans hw,hiw,hretw⟩

/-- For every interleaving of calls of putch, of write-completion interrupts and of the device: the
panic of lser_write and an overrun of the device are out of reach, the count of cs_wsem is at most
1, the characters that have been sent are those of the calls that are past that point, once each,
and every call can still be brought to where its character has been sent once. -/
theorem console_handshake {acts : List Act} (hrun : run step configCon acts = some s) :
    (∀ a f, act s a ≠ some (.error f)) ∧ s.wsem ≤ 1 ∧
    (∀ t, (s.sent.filter fun x => x.1 == t) = (s.pc t).shown.toList.map fun ch => (t,ch)) ∧
    ∀ t ch, (s.pc t).char = some ch → ∃ u, Relation.ReflTransGen Goes s u ∧
      u.pc t = .returned ch ∧ (u.sent.filter fun x => x.1 == t) = [(t,ch)] := by
  have h : Inv s := run_keeps (I := Inv) (fun _ _ _ hi _ hs => step_inv hi hs) configCon_inv
    (Along.trivial step _ acts) hrun
  refine ⟨fun a f hf => ?_,h.token.le_one,h.sent,fun t ch hc => ?_⟩
  · obtain ⟨u,hu,-⟩ := act_inv h hf
    cases hu
  · obtain ⟨u,hu,hi,hret⟩ := called_sends h hc
    refine ⟨u,hu,hret,?_⟩
    rw [hi.sent t,hret]
    rfl

/-- A polled character goes out between P and cs_send of one call, and another one while the
character of that call is on its way. -/
def mixed : List Act :=
  [.putch 1 65 false,.putch 2 66 false,.pWsem 1,.putch 3 67 true,.poll,.poll,.complete,.poll,.poll,
    .write 1,.putch 4 68 true,.poll,.complete,.poll,.poll,.poll,.complete,.poll,.poll,.irq,.pWsem 2]

theorem console_handshake_mixed : ∃ s, run step configCon mixed = some s ∧
    s.sent = [(3,67),(1,65),(4,68)] ∧ s.wsem = 0 ∧
    act s (.write 2) ≠ some (.error .notClear) := by
  have hrun : (run step configCon mixed).any (fun s =>
      decide (s.sent = [(3,67),(1,65),(4,68)] ∧ s.wsem = 0)) = true := by
    decide +kernel
  obtain ⟨s,hs,h⟩ := some_of_any hrun
  obtain ⟨hsent,hw⟩ := of_decide_eq_true h
  exact ⟨s,hs,hsent,hw,(console_handshake hs).1 _ _⟩

end Progress

end MipsOs.Console

namespace MipsOs.ConsoleInput
open Guard Runs

inductive Pc where
  | fresh
  /-- At P(cs_rsem). -/
  | waiting
  /-- Before the read of cs_gotchar. -/
  | granted
  | loaded (ch : Int)
  | returned (ch : Int)
  deriving DecidableEq, Repr

/-- cs_rsem and cs_gotchar; `typed` and `got` are the characters that have come in and those that
calls of getch have returned. -/
structure State where
  rsem : Nat
  gotchar : Int
  pc : Nat → Pc
  typed : List Int
  got : List Int

def configCon : State := ⟨0,0,fun _ => .fresh,[],[]⟩

inductive Act where
  /-- The read-ready interrupt. -/
  | conInput (ch : Int)
  | getch (t : Nat)
  | pRsem (t : Nat)
  | load (t : Nat)
  | ret (t : Nat)
  deriving DecidableEq, Repr

section Steps

variable (s : State)

def State.goto (t : Nat) (p : Pc) : State := { s with pc := Function.update s.pc t p }

def conInput (ch : Int) : State :=
  { s with gotchar := ch, rsem := s.rsem + 1, typed := s.typed ++ [ch] }

def step : Act → Option State
  | .conInput ch => some (conInput s ch)
  | .getch t => if s.pc t = .fresh then some (s.goto t .waiting) else none
  | .pRsem t =>
    if s.pc t = .waiting ∧ 0 < s.rsem then
      some { s.goto t .granted with rsem := s.rsem - 1 }
    else none
  | .load t => if s.pc t = .granted then some (s.goto t (.loaded s.gotchar)) else none
  | .ret t =>
    match s.pc t with
    | .loaded ch => some { s.goto t (.returned ch) with got := s.got ++ [ch] }
    | _ => none

end Steps

def Pc.busy : Pc → Prop
  | .granted | .loaded _ => True
  | _ => False

/-- Nothing is typed before the last character has been returned. -/
def OneAtATime (s : State) (a : Act) : Prop :=
  ∀ ch, a = .conInput ch → s.rsem = 0 ∧ ∀ t, ¬ (s.pc t).busy

structure Settled (s : State) : Prop where
  empty : s.rsem = 0
  nobody : ∀ t, ¬ (s.pc t).busy
  same : s.got = s.typed

/-- The last character is in cs_gotchar, and cs_rsem or one call has the unit for it. -/
structure Pending (s : State) : Prop where
  token : Token s.rsem fun t => (s.pc t).busy
  loaded : ∀ t ch, s.pc t = .loaded ch → ch = s.gotchar
  last : s.typed = s.got ++ [s.gotchar]

section Steps

variable {s u : State} {t : Nat} {p : Pc}

theorem busy_goto (h : (s.pc t).busy ↔ p.busy) (t' : Nat) :
    ((s.goto t p).pc t').busy ↔ (s.pc t').busy := by
  by_cases ht : t' = t
  · subst ht
    simp [State.goto,h]
  · simp [State.goto,ht]

theorem busy_goto_iff (hno : ∀ t', t' ≠ t → ¬ (s.pc t').busy) (hp : p.busy) (t' : Nat) :
    ((s.goto t p).pc t').busy ↔ t' = t := by
  by_cases ht : t' = t
  · subst ht
    simp [State.goto,hp]
  · simp [State.goto,ht,hno t' ht]

theorem loaded_goto {ch ch' : Int} (h : ∀ t ch, s.pc t = .loaded ch → ch = ch')
    (hp : ∀ ch, p = .loaded ch → ch = ch') (t' : Nat) (hl : (s.goto t p).pc t' = .loaded ch) :
    ch = ch' := by
  by_cases ht : t' = t
  · subst ht
    exact hp ch (by simpa [State.goto] using hl)
  · exact h t' ch (by simpa [State.goto,ht] using hl)

theorem conInput_pending (h : Settled s) (ch : Int) : Pending (conInput s ch) where
  token := .inl ⟨by simp [conInput,h.empty],h.nobody⟩
  loaded t ch' hl := absurd (hl ▸ trivial : (s.pc t).busy) (h.nobody t)
  last := by simp [conInput,h.same]

section

variable (h : Settled s ∨ Pending s)

include h

theorem getch_keeps (hp : s.pc t = .fresh) :
    Settled (s.goto t .waiting) ∨ Pending (s.goto t .waiting) := by
  have hbusy := busy_goto (s := s) (t := t) (p := .waiting) (by simp [hp,Pc.busy])
  rcases h with h | h
  · exact .inl ⟨h.empty,fun t' => (hbusy t').not.mpr (h.nobody t'),h.same⟩
  · exact .inr ⟨h.token.congr hbusy,fun t' ch => loaded_goto h.loaded (by simp) t',h.last⟩

theorem pRsem_keeps (hpos : 0 < s.rsem) :
    Pending { s.goto t .granted with rsem := s.rsem - 1 } := by
  rcases h with h | h
  · have := h.empty
    omega
  · refine ⟨h.token.take hpos (busy_goto_iff (fun t' _ => h.token.nobody hpos t') trivial),
      fun t' ch => loaded_goto h.loaded (by simp) t',h.last⟩

theorem load_keeps (hp : s.pc t = .granted) :
    Pending (s.goto t (.loaded s.gotchar)) := by
  have hmine : (s.pc t).busy := by simp [hp,Pc.busy]
  rcases h with h | h
  · exact absurd hmine (h.nobody t)
  · refine ⟨h.token.congr (busy_goto (by simp [hp,Pc.busy])),
      fun t' ch => loaded_goto h.loaded (by simp) t',h.last⟩

theorem ret_keeps {ch : Int} (hp : s.pc t = .loaded ch) :
    Settled { s.goto t (.returned ch) with got := s.got ++ [ch] } := by
  have hmine : (s.pc t).busy := by simp [hp,Pc.busy]
  rcases h with h | h
  · exact absurd hmine (h.nobody t)
  · refine ⟨h.token.zero hmine,fun t' => ?_,?_⟩
    · by_cases ht : t' = t
      · subst ht
        simp [State.goto,Pc.busy]
      · have hother : ¬ (s.pc t').busy := fun hb => ht (h.token.unique hb hmine)
        simpa [State.goto,ht] using hother
    · show s.got ++ [ch] = s.typed
      rw [h.last,h.loaded t ch hp]

theorem step_keeps {a : Act} (hc : OneAtATime s a) (hs : step s a = some u) :
    Settled u ∨ Pending u := by
  cases a with
  | conInput ch =>
    obtain rfl := Option.some.inj hs
    obtain ⟨hz,hno⟩ := hc ch rfl
    rcases h with h | h
    · exact .inr (conInput_pending h ch)
    · rcases h.token with ⟨hone,-⟩ | ⟨-,t,ht,-⟩
      · omega
      · exact absurd ht (hno t)
  | getch t =>
    by_cases hp : s.pc t = .fresh
    · simp only [step,if_pos hp,Option.some.injEq] at hs
      exact hs ▸ getch_keeps h hp
    · simp [step,hp] at hs
  | pRsem t =>
    by_cases hp : s.pc t = .waiting ∧ 0 < s.rsem
    · simp only [step,if_pos hp,Option.some.injEq] at hs
      exact hs ▸ .inr (pRsem_keeps h hp.2)
    · simp [step,hp] at hs
  | load t =>
    by_cases hp : s.pc t = .granted
    · simp only [step,if_pos hp,Option.some.injEq] at hs
      exact hs ▸ .inr (load_keeps h hp)
    · simp [step,hp] at hs
  | ret t =>
    cases hp : s.pc t with
    | loaded ch =>
      simp only [step,hp,Option.some.injEq] at hs
      exact hs ▸ .inl (ret_keeps h hp)
    | _ => simp [step,hp] at hs

end

theorem settled_configCon : Settled configCon := ⟨rfl,fun _ hb => hb,rfl⟩

end Steps

/-- Two characters come in before the first call of getch: the second one is returned twice. -/
theorem character_returned_twice : ∃ acts s, run step configCon acts = some s ∧
    s.typed = [97,98] ∧ s.got = [98,98] ∧ ¬ s.got.Sublist s.typed := by
  let acts : List Act := [.conInput 97,.conInput 98,.getch 0,.pRsem 0,.load 0,.ret 0,
    .getch 1,.pRsem 1,.load 1,.ret 1]
  have hrun : ((run step configCon acts).any fun s =>
      s.typed == [97,98] && s.got == [98,98]) = true := by decide
  obtain ⟨s,hs,h⟩ := some_of_any hrun
  simp only [Bool.and_eq_true,beq_iff_eq] at h
  refine ⟨acts,s,hs,h.1,h.2,?_⟩
  rw [h.1,h.2]
  decide

/-- What calls of getch return can be got from what was typed by deleting characters, as long as
nothing is typed before the last character has been returned. -/
theorem input_not_duplicated {acts : List Act} {s : State}
    (hone : Along step OneAtATime configCon acts)
    (h : run step configCon acts = some s) : s.got.Sublist s.typed := by
  have hend : Settled s ∨ Pending s :=
    run_keeps (I := fun s => Settled s ∨ Pending s) (fun _ _ _ hi hc hs => step_keeps hi hc hs)
      (.inl settled_configCon) hone h
  rcases hend with hs | hs
  · rw [hs.same]
  · rw [hs.last]
    exact List.sublist_append_left ..

def oneAtATime (s : State) : Act → Bool
  | .conInput _ => s.got.length == s.typed.length
  | _ => true

theorem oneAtATime_of_test {s : State} {a : Act} (h : Settled s ∨ Pending s)
    (ht : oneAtATime s a = true) : OneAtATime s a := by
  rintro ch rfl
  rcases h with h | h
  · exact ⟨h.empty,h.nobody⟩
  · simp [oneAtATime,h.last] at ht

theorem input_not_duplicated_echo : ∃ acts s, run step configCon acts = some s ∧
    s.typed = [97,98,99] ∧ s.got = [97,98] ∧ s.got.Sublist s.typed := by
  let acts : List Act := [.getch 0,.getch 1,.conInput 97,.pRsem 1,.load 1,.ret 1,.conInput 98,
    .pRsem 0,.load 0,.ret 0,.conInput 99]
  have hrun : ((run step configCon acts).any fun s =>
      s.typed == [97,98,99] && s.got == [97,98]) = true := by decide
  have hone : checkAlong step oneAtATime configCon acts = true := by decide
  obtain ⟨s,hs,h⟩ := some_of_any hrun
  simp only [Bool.and_eq_true,beq_iff_eq] at h
  have halong : Along step OneAtATime configCon acts :=
    Along.of_check_keeps (fun _ _ => oneAtATime_of_test)
      (fun _ _ _ hi hc hs => step_keeps hi hc hs) (.inl settled_configCon) hone
  exact ⟨acts,s,hs,h.1,h.2,input_not_duplicated halong hs⟩

end MipsOs.ConsoleInput
