import Mathlib.Data.Fintype.Basic
import MipsOs.Tasks

/-! The intersection of kern/asst1/stoplight.c. Each car is a thread that runs one of gostraight,
turnleft and turnright; its number is the thread's. -/

set_option autoImplicit false
namespace MipsOs.Stoplight
open LockPrograms Tasks Runs

inductive Direction where
  | N | E | S | W
  deriving DecidableEq, Repr

/-- The locks initialize creates: four quadrants, two gates, four entrances. -/
inductive LockName where
  | NW | NE | SW | SE | car1 | car2 | N | E | S | W
  deriving DecidableEq, Repr

inductive Msg where
  | approaching | region1 | region2 | region3 | leaving
  deriving DecidableEq, Repr

structure Message where
  msg : Msg
  cardirection : Direction
  destdirection : Direction
  deriving DecidableEq, Repr

abbrev Route := List (Op LockName Message)

section Code

variable (cardirection dest : Direction) (gate entry first second third : LockName)

def straight : Route :=
  [.say ⟨.approaching,cardirection,dest⟩,.acquire gate,.acquire entry,.acquire first,
    .say ⟨.region1,cardirection,dest⟩,.release entry,.acquire second,
    .say ⟨.region2,cardirection,dest⟩,.release first,.say ⟨.leaving,cardirection,dest⟩,
    .release second,.release gate]

def left : Route :=
  [.say ⟨.approaching,cardirection,dest⟩,.acquire gate,.acquire entry,.acquire first,
    .say ⟨.region1,cardirection,dest⟩,.release entry,.acquire second,
    .say ⟨.region2,cardirection,dest⟩,.release first,.acquire third,
    .say ⟨.region3,cardirection,dest⟩,.release second,.say ⟨.leaving,cardirection,dest⟩,
    .release third,.release gate]

def right : Route :=
  [.say ⟨.approaching,cardirection,dest⟩,.acquire gate,.acquire entry,.acquire first,
    .say ⟨.region1,cardirection,dest⟩,.release entry,.say ⟨.leaving,cardirection,dest⟩,
    .release first,.release gate]

end Code

def gostraight : Direction → Route
  | .S => straight .S .N .car1 .S .SE .NE
  | .W => straight .W .E .car2 .W .SW .SE
  | .N => straight .N .S .car1 .N .NW .SW
  | .E => straight .E .W .car2 .E .NE .NW

def turnleft : Direction → Route
  | .N => left .N .E .car1 .N .NW .SW .SE
  | .E => left .E .S .car2 .E .NE .NW .SW
  | .S => left .S .W .car1 .S .SE .NE .NW
  | .W => left .W .N .car2 .W .SW .SE .NE

def turnright : Direction → Route
  | .S => right .S .E .car1 .S .SE
  | .W => right .W .S .car2 .W .SW
  | .N => right .N .W .car1 .N .NW
  | .E => right .E .N .car2 .E .NE

inductive Turn where
  | straight | left | right
  deriving DecidableEq, Repr

def approachintersection (cardirection : Direction) : Turn → Route
  | .straight => gostraight cardirection
  | .left => turnleft cardirection
  | .right => turnright cardirection

def routes (cars : Nat → Option (Direction × Turn)) (t : Nat) : Route :=
  match cars t with
  | some (d,turn) => approachintersection d turn
  | none => []

abbrev Intersection := Threads LockName Message

def createcars (cars : Nat → Option (Direction × Turn)) : Intersection := start (routes cars)

def LockName.isQuadrant : LockName → Bool
  | .NW | .NE | .SW | .SE => true
  | _ => false

def gateOf : Direction → LockName
  | .N | .S => .car1
  | .E | .W => .car2

def entryOf : Direction → LockName
  | .N => .N
  | .E => .E
  | .S => .S
  | .W => .W

def LockName.onward : LockName → LockName
  | .SE => .NE
  | .NE => .NW
  | .NW => .SW
  | .SW => .SE
  | l => l

instance instFintypeDirection : Fintype Direction :=
  .ofList [.N,.E,.S,.W] fun d => by cases d <;> simp

instance instFintypeTurn : Fintype Turn :=
  .ofList [.straight,.left,.right] fun turn => by cases turn <;> simp

instance instFintypeLockName : Fintype LockName :=
  .ofList [.NW,.NE,.SW,.SE,.car1,.car2,.N,.E,.S,.W] fun l => by cases l <;> simp

instance instDecidableHolds (p : Route) (l : LockName) : Decidable (Holds p l) :=
  inferInstanceAs (Decidable (_ ∧ _))

def decideBalanced : (p : Route) → Decidable (Balanced p)
  | [] => isTrue trivial
  | .acquire l :: rest =>
    haveI := decideBalanced rest
    inferInstanceAs (Decidable ((.release l ∈ rest ∧ .acquire l ∉ rest) ∧ Balanced rest))
  | .release l :: rest =>
    haveI := decideBalanced rest
    inferInstanceAs (Decidable ((.release l ∉ rest ∧ .acquire l ∉ rest) ∧ Balanced rest))
  | .say _ :: rest => decideBalanced rest

instance instDecidableBalanced (p : Route) : Decidable (Balanced p) := decideBalanced p

def wanted : Route → Option LockName
  | .acquire l :: _ => some l
  | _ => none

/-- What can be said of a car from direction `d` that still has `p` before it. -/
structure Located (d : Direction) (p : Route) : Prop where
  /-- Past the first two locks it holds the gate, and only there the entrance or a quadrant. -/
  gated : ∀ l, Holds p l → Holds p (gateOf d)
  entry : ∀ d', Holds p (entryOf d') → d' = d
  /-- The next lock is the gate, or the entrance, or the quadrant after the one it holds. -/
  next : ∀ l, wanted p = some l →
    l = gateOf d ∨ Holds p (gateOf d) ∧ (l = entryOf d ∨ l.isQuadrant = true)
  quadrant : ∀ l, wanted p = some l → ∀ q, q.isQuadrant = true → Holds p q →
    l.isQuadrant = true ∧ q.onward = l

section Routes

variable {d : Direction} {turn : Turn} {p : Route}

/-- A property of all rests of the twelve routes is checked on each of them. -/
theorem rest_of_route {P : Direction → Route → Prop}
    (h : ∀ d turn, ∀ p ∈ (approachintersection d turn).tails, P d p)
    (hp : p <:+ approachintersection d turn) : P d p :=
  h d turn p ((List.mem_tails p _).mpr hp)

theorem located (turn : Turn) (hp : p <:+ approachintersection d turn) : Located d p where
  gated := rest_of_route (P := fun d p => ∀ l, Holds p l → Holds p (gateOf d)) (by decide +kernel) hp
  entry := rest_of_route (P := fun d p => ∀ d', Holds p (entryOf d') → d' = d) (by decide +kernel) hp
  next := rest_of_route (P := fun d p => ∀ l, wanted p = some l →
    l = gateOf d ∨ Holds p (gateOf d) ∧ (l = entryOf d ∨ l.isQuadrant = true)) (by decide +kernel) hp
  quadrant := rest_of_route (P := fun _ p => ∀ l, wanted p = some l → ∀ q, q.isQuadrant = true →
    Holds p q → l.isQuadrant = true ∧ q.onward = l) (by decide +kernel) hp

theorem balanced_routes (cars : Nat → Option (Direction × Turn)) (t : Nat) :
    Balanced (routes cars t) := by
  have h : ∀ d turn, Balanced (approachintersection d turn) := by decide +kernel
  cases hc : cars t with
  | none =>
    simp only [routes,hc]
    exact trivial
  | some c => simpa [routes,hc] using h c.1 c.2

theorem routes_free (cars : Nat → Option (Direction × Turn)) (t : Nat) (l : LockName) :
    ¬ Holds (routes cars t) l := by
  have h : ∀ d turn l, ¬ Holds (approachintersection d turn) l := by decide +kernel
  cases hc : cars t with
  | none => simp [routes,hc,Holds]
  | some c => simpa [routes,hc] using h c.1 c.2 l

end Routes

section Crossing

variable {cars : Nat → Option (Direction × Turn)} {s : Intersection} {t t' : Nat} {l : LockName}

/-- Between acquiring the lock of a quadrant and releasing it. -/
def InQuadrant (s : Intersection) (t : Nat) (q : LockName) : Prop :=
  q.isQuadrant = true ∧ Holds (s.place t) q

theorem inv_run {sched : List Nat} (h : run (step code) (createcars cars) sched = some s) :
    Inv (routes cars) s :=
  (inv_start (routes_free cars)).run (balanced_routes cars) h

theorem locate (h : Inv (routes cars) s) (t : Nat) : ∃ d, Located d (s.place t) := by
  have hsuf := h.suffix t
  cases hc : cars t with
  | none =>
    rw [routes,hc] at hsuf
    exact ⟨.N,located .straight (hsuf.trans List.nil_suffix)⟩
  | some c =>
    rw [routes,hc] at hsuf
    exact ⟨c.1,located c.2 hsuf⟩

theorem holds_unique (h : Inv (routes cars) s) (ht : Holds (s.place t) l)
    (ht' : Holds (s.place t') l) : t = t' := by
  rw [← h.owner] at ht ht'
  exact Option.some.inj (ht.symm.trans ht')

theorem gateOf_cases (d d' d'' : Direction) :
    gateOf d = gateOf d' ∨ gateOf d = gateOf d'' ∨ gateOf d' = gateOf d'' := by
  cases d <;> cases d' <;> cases d'' <;> simp [gateOf]

variable {d : Direction}

theorem same_gate (h : Inv (routes cars) s) {d' : Direction} (hd : Located d (s.place t))
    (hd' : Located d' (s.place t')) (hl : Holds (s.place t) l) {l' : LockName}
    (hl' : Holds (s.place t') l') (hg : gateOf d = gateOf d') : t = t' :=
  holds_unique h (hd.gated l hl) (hg ▸ hd'.gated l' hl')

theorem not_waits_entry (h : Inv (routes cars) s) (hd : Located d (s.place t))
    (hg : Holds (s.place t) (gateOf d)) : ¬ Waits s t t' (entryOf d) := by
  intro hw
  obtain ⟨d',hd'⟩ := locate h t'
  obtain rfl : d = d' := hd'.entry d hw.2
  exact hw.ne (same_gate h hd' hd hw.2 hg rfl)

theorem wanted_of_waits (hw : Waits s t t' l) : wanted (s.place t) = some l := by
  obtain ⟨⟨rest,hp⟩,-⟩ := hw
  rw [hp]
  rfl

theorem waits_quadrant (h : Inv (routes cars) s) (hd : Located d (s.place t))
    (hg : Holds (s.place t) (gateOf d)) (hw : Waits s t t' l) : l.isQuadrant = true := by
  rcases hd.next l (wanted_of_waits hw) with rfl | ⟨-,rfl | hq⟩
  · obtain ⟨⟨rest,hp⟩,-⟩ := hw
    rw [hp] at hg
    exact absurd hg holds_acquire_self
  · exact absurd hw (not_waits_entry h hd hg)
  · exact hq

theorem onward_onward_ne {q : LockName} (hq : q.isQuadrant = true) : q.onward.onward ≠ q := by
  cases q <;> simp [LockName.isQuadrant,LockName.onward] at hq ⊢

/-- Two cars do not wait for each other's quadrants, and there is no third one past a gate. -/
theorem not_all_wait (h : Inv (routes cars) s)
    (hall : ∀ t, s.place t ≠ [] → ∃ t' l, Waits s t t' l ∧ s.place t' ≠ [])
    (hd : Located d (s.place t)) (hg : Holds (s.place t) (gateOf d)) : False := by
  obtain ⟨t₁,q,hw,hne⟩ := hall t (List.ne_nil_of_mem hg.1)
  have hq := waits_quadrant h hd hg hw
  obtain ⟨d₁,hd₁⟩ := locate h t₁
  have hg₁ := hd₁.gated q hw.2
  obtain ⟨t₂,q₁,hw₁,-⟩ := hall t₁ hne
  have hq₁ := waits_quadrant h hd₁ hg₁ hw₁
  obtain ⟨d₂,hd₂⟩ := locate h t₂
  have hback : t₂ = t := by
    rcases gateOf_cases d₂ d d₁ with hsame | hsame | hsame
    · exact same_gate h hd₂ hd hw₁.2 hg hsame
    · exact absurd (same_gate h hd₂ hd₁ hw₁.2 hg₁ hsame) hw₁.ne
    · exact absurd (same_gate h hd hd₁ hg hg₁ hsame) hw.ne.symm
  subst hback
  have hstep := hd.quadrant q (wanted_of_waits hw) q₁ hq₁ hw₁.2
  have hstep₁ := hd₁.quadrant q₁ (wanted_of_waits hw₁) q hq hw.2
  exact onward_onward_ne hq (by rw [hstep₁.2,hstep.2])

/-- Cars do not collide, at most two of them hold quadrants at once, and as long as some car has not
finished there is one that can go on. -/
theorem collision_and_deadlock_free (cars : Nat → Option (Direction × Turn)) {sched : List Nat}
    {s : Intersection} (h : run (step code) (createcars cars) sched = some s) :
    (∀ q t t', InQuadrant s t q → InQuadrant s t' q → t = t') ∧
    (∀ t t' t'' q q' q'', InQuadrant s t q → InQuadrant s t' q' → InQuadrant s t'' q'' →
      t = t' ∨ t = t'' ∨ t' = t'') ∧
    ∀ t, s.place t ≠ [] → ∃ t', s.place t' ≠ [] ∧ Ready s t' := by
  have hinv := inv_run h
  refine ⟨fun q t t' ht ht' => holds_unique hinv ht.2 ht'.2,fun t t' t'' q q' q'' ht ht' ht'' => ?_,
    fun t ht => ?_⟩
  · obtain ⟨d,hd⟩ := locate hinv t
    obtain ⟨d',hd'⟩ := locate hinv t'
    obtain ⟨d'',hd''⟩ := locate hinv t''
    rcases gateOf_cases d d' d'' with hg | hg | hg
    · exact .inl (same_gate hinv hd hd' ht.2 ht'.2 hg)
    · exact .inr (.inl (same_gate hinv hd hd'' ht.2 ht''.2 hg))
    · exact .inr (.inr (same_gate hinv hd' hd'' ht'.2 ht''.2 hg))
  · by_contra hno
    have hall : ∀ t, s.place t ≠ [] → ∃ t' l, Waits s t t' l ∧ s.place t' ≠ [] := fun x hx =>
      (hinv.ready_or_waits (balanced_routes cars) hx).resolve_left fun hr => hno ⟨x,hx,hr⟩
    obtain ⟨t₁,l,hw,-⟩ := hall t ht
    obtain ⟨d,hd⟩ := locate hinv t
    rcases hd.next l (wanted_of_waits hw) with rfl | ⟨hg,-⟩
    · -- the car that holds the gate is past it
      obtain ⟨d₁,hd₁⟩ := locate hinv t₁
      exact not_all_wait hinv hall hd₁ (hd₁.gated _ hw.2)
    · exact not_all_wait hinv hall hd hg

end Crossing

def southAndWest : Nat → Option (Direction × Turn)
  | 0 => some (.S,.straight)
  | 1 => some (.W,.straight)
  | _ => none

theorem collision_and_deadlock_free_southAndWest : ∃ s,
    run (step code) (createcars southAndWest) [0,0,0,0,1,1,1,1,1,1,1] = some s ∧
    s.asleep 1 = some .SE ∧ ∃ t, s.place t ≠ [] ∧ Ready s t := by
  have hrun : ((run (step code) (createcars southAndWest) [0,0,0,0,1,1,1,1,1,1,1]).any fun s =>
      s.asleep 1 == some .SE && !(s.place 1).isEmpty) = true := by decide
  obtain ⟨s,hs,h⟩ := some_of_any hrun
  simp only [Bool.and_eq_true,beq_iff_eq,Bool.not_eq_true',List.isEmpty_eq_false_iff] at h
  exact ⟨s,hs,h.1,(collision_and_deadlock_free southAndWest hs).2.2 1 h.2⟩

section Order

variable {cars : Nat → Option (Direction × Turn)} {s u : Intersection} {t : Nat}

/-- Car `a` printed the message `m` before car `b` printed `m'`, both coming from direction `d`. -/
def Before (said : List (Nat × Message)) (d : Direction) (a : Nat) (m : Msg) (b : Nat) (m' : Msg) :
    Prop :=
  ∃ dest dest', [(a,(⟨m,d,dest⟩ : Message)),(b,⟨m',d,dest'⟩)].Sublist said

/-- A car takes its gate only when no car that approached before it from the same direction still
waits for that gate. -/
def InTurn (s : Intersection) (t : Nat) : Prop :=
  ∀ d, wanted (s.place t) = some (gateOf d) → s.shared.owner (gateOf d) = none →
    ∀ t', t' ≠ t → Before s.shared.said d t' .approaching t .approaching →
      wanted (s.place t') ≠ some (gateOf d)

theorem pair_sublist_concat {α : Type} {x y z : α} {l : List α} :
    [x,y].Sublist (l ++ [z]) ↔ [x,y].Sublist l ∨ x ∈ l ∧ y = z := by
  have hrev : ∀ m : List α, [x,y].Sublist m ↔ [y,x].Sublist m.reverse := fun m =>
    List.reverse_sublist.symm
  rw [hrev,hrev]
  simp [List.sublist_cons_iff,and_comm]

/-- What a car from direction `d` has said, `m`, and what it still has before it, `p`. -/
structure Heard (d : Direction) (m : List Message) (p : Route) : Prop where
  direction : ∀ x ∈ m, x.cardirection = d
  /-- It has approached and is at its gate or past it. -/
  queued : ∀ x ∈ m, x.msg = .approaching → .acquire (gateOf d) ∈ p → wanted p = some (gateOf d)
  ahead : .acquire (gateOf d) ∈ p → ∀ x ∈ m, x.msg ≠ .region1
  through : .acquire (gateOf d) ∉ p → .release (gateOf d) ∉ p → ∃ x ∈ m, x.msg = .region1
  /-- It approaches in front of its gate. -/
  approaches : ∀ x ∈ (messages p).head?, x.cardirection = d ∧
    (x.msg = .approaching → .acquire (gateOf d) ∈ p)

def saidBy (s : Intersection) (t : Nat) : List Message :=
  (s.shared.said.filter fun x => x.1 == t).map Prod.snd

theorem mem_saidBy {x : Message} : x ∈ saidBy s t ↔ (t,x) ∈ s.shared.said := by
  simp [saidBy]

def spoken (route p : Route) : List Message :=
  (messages route).take ((messages route).length - (messages p).length)

variable {d : Direction} {m : Msg} {a : Nat} {rest : Route}

theorem heard_spoken {turn : Turn} {p : Route} (hp : p <:+ approachintersection d turn) :
    Heard d (spoken (approachintersection d turn) p) p := by
  have hmem := (List.mem_tails p _).mpr hp
  have hdirection : ∀ d turn, ∀ p ∈ (approachintersection d turn).tails,
      ∀ x ∈ spoken (approachintersection d turn) p, x.cardirection = d := by decide +kernel
  have hqueued : ∀ d turn, ∀ p ∈ (approachintersection d turn).tails,
      ∀ x ∈ spoken (approachintersection d turn) p, x.msg = .approaching →
        .acquire (gateOf d) ∈ p → wanted p = some (gateOf d) := by decide +kernel
  have hahead : ∀ d turn, ∀ p ∈ (approachintersection d turn).tails, .acquire (gateOf d) ∈ p →
      ∀ x ∈ spoken (approachintersection d turn) p, x.msg ≠ .region1 := by decide +kernel
  have hthrough : ∀ d turn, ∀ p ∈ (approachintersection d turn).tails,
      .acquire (gateOf d) ∉ p → .release (gateOf d) ∉ p →
        ∃ x ∈ spoken (approachintersection d turn) p, x.msg = .region1 := by decide +kernel
  have happroaches : ∀ d turn, ∀ p ∈ (approachintersection d turn).tails,
      ∀ x ∈ (messages p).head?, x.cardirection = d ∧
        (x.msg = .approaching → .acquire (gateOf d) ∈ p) := by decide +kernel
  exact ⟨hdirection d turn p hmem,hqueued d turn p hmem,hahead d turn p hmem,hthrough d turn p hmem,
    happroaches d turn p hmem⟩

theorem heard (h : Inv (routes cars) s) (d : Direction) (turn : Turn)
    (hc : cars t = some (d,turn)) : Heard d (saidBy s t) (s.place t) := by
  have hsuf := h.suffix t
  have hsaid := h.said t
  simp only [routes,hc] at hsuf hsaid
  have heq : saidBy s t = spoken (approachintersection d turn) (s.place t) := by
    rw [spoken,← hsaid]
    simp [saidBy]
  rw [heq]
  exact heard_spoken hsuf

/-- Whoever says something is a car, and comes from the direction it names. -/
theorem heard_of_said (h : Inv (routes cars) s) {dest : Direction}
    (hm : (t,(⟨m,d,dest⟩ : Message)) ∈ s.shared.said) : Heard d (saidBy s t) (s.place t) := by
  cases hc : cars t with
  | none =>
    have hsaid := h.said t
    have hmem := mem_saidBy.mpr hm
    simp only [routes,hc,messages,List.append_eq_nil_iff] at hsaid
    rw [saidBy,hsaid.1] at hmem
    cases hmem
  | some c =>
    have hheard := heard h c.1 c.2 hc
    obtain rfl : d = c.1 := hheard.direction _ (mem_saidBy.mpr hm)
    exact hheard

/-- Of two cars that approached one after the other from the same direction, the second one is past
the gate only when the first one has been in its first region, and gets there later. -/
def Ordered (s : Intersection) : Prop :=
  ∀ d a b, a ≠ b → Before s.shared.said d a .approaching b .approaching →
    .acquire (gateOf d) ∉ s.place b → ∃ dest, (a,(⟨.region1,d,dest⟩ : Message)) ∈ s.shared.said ∧
      ∀ dest', (b,(⟨.region1,d,dest'⟩ : Message)) ∈ s.shared.said →
        [(a,(⟨.region1,d,dest⟩ : Message)),(b,⟨.region1,d,dest'⟩)].Sublist s.shared.said

theorem Before.mem {said : List (Nat × Message)} {b : Nat} {m' : Msg}
    (h : Before said d a m b m') : (∃ dest, (a,(⟨m,d,dest⟩ : Message)) ∈ said) ∧
      ∃ dest, (b,(⟨m',d,dest⟩ : Message)) ∈ said := by
  obtain ⟨dest,dest',hsub⟩ := h
  exact ⟨⟨dest,hsub.subset (by simp)⟩,⟨dest',hsub.subset (by simp)⟩⟩

theorem gone_through (h : Inv (routes cars) s)
    (hturn : InTurn s t) (ha : a ≠ t) (hw : wanted (s.place t) = some (gateOf d))
    (hfree : s.shared.owner (gateOf d) = none)
    (hbefore : Before s.shared.said d a .approaching t .approaching) :
    ∃ dest, (a,(⟨.region1,d,dest⟩ : Message)) ∈ s.shared.said := by
  obtain ⟨⟨dest,hm⟩,-⟩ := hbefore.mem
  have hheard := heard_of_said h hm
  have hpast : .acquire (gateOf d) ∉ s.place a := fun hin =>
    hturn d hw hfree a ha hbefore (hheard.queued _ (mem_saidBy.mpr hm) rfl hin)
  have hleft : .release (gateOf d) ∉ s.place a := fun hin => by
    have howner := (h.owner (gateOf d) a).mpr ⟨hin,hpast⟩
    rw [hfree] at howner
    cases howner
  obtain ⟨x,hx,hr⟩ := hheard.through hpast hleft
  obtain ⟨m,d',dest'⟩ := x
  obtain rfl : m = .region1 := hr
  obtain rfl : d' = d := hheard.direction _ hx
  exact ⟨dest',mem_saidBy.mp hx⟩

theorem Ordered.acquires (ho : Ordered s) (h : Inv (routes cars) s) (hturn : InTurn s t)
    {l : LockName} (hp : s.place t = .acquire l :: rest) (hfree : s.shared.owner l = none) :
    Ordered
      (s.after t ⟨⟨Function.update s.shared.owner l (some t),s.shared.said⟩,rest,none,none⟩) := by
  intro d a b hab hbefore hpast
  by_cases hb : b = t
  · subst hb
    rw [after_place_self] at hpast
    by_cases hl : l = gateOf d
    · subst hl
      have hw : wanted (s.place b) = some (gateOf d) := by
        rw [hp]
        rfl
      obtain ⟨dest,hdest⟩ := gone_through h hturn hab hw hfree hbefore
      refine ⟨dest,hdest,fun dest' hr => ?_⟩
      -- the second car is only now past its gate
      exact absurd rfl ((heard_of_said h hr).ahead (by simp [hp]) _ (mem_saidBy.mpr hr))
    · refine ho d a b hab hbefore ?_
      rw [hp]
      simp [Ne.symm hl,hpast]
  · rw [after_place_of_ne hb] at hpast
    exact ho d a b hab hbefore hpast

theorem Ordered.tells (ho : Ordered s) (h : Inv (routes cars) s) {m : Message}
    (hp : s.place t = .say m :: rest) :
    Ordered (s.after t ⟨⟨s.shared.owner,s.shared.said ++ [(t,m)]⟩,rest,none,none⟩) := by
  intro d a b hab hbefore hpast
  have hpast' : .acquire (gateOf d) ∉ s.place b := by
    by_cases hb : b = t
    · subst hb
      rw [after_place_self] at hpast
      simpa [hp] using hpast
    · rwa [after_place_of_ne hb] at hpast
  obtain ⟨dest₁,dest₂,hsub⟩ := hbefore
  rcases pair_sublist_concat.mp hsub with hold | ⟨-,hnew⟩
  · obtain ⟨dest,hdest,hlater⟩ := ho d a b hab ⟨dest₁,dest₂,hold⟩ hpast'
    refine ⟨dest,List.mem_append_left _ hdest,fun dest' hr => pair_sublist_concat.mpr ?_⟩
    rcases List.mem_append.mp hr with hr | hr
    · exact .inl (hlater dest' hr)
    · exact .inr ⟨hdest,List.mem_singleton.mp hr⟩
  · -- the second car has just approached and is in front of its gate
    obtain ⟨rfl,rfl⟩ := Prod.mk.inj hnew
    cases hc : cars b with
    | none =>
      have hsuf := h.suffix b
      rw [hp,routes,hc] at hsuf
      cases List.suffix_nil.mp hsuf
    | some c =>
      obtain ⟨hd,hgate⟩ := (heard h c.1 c.2 hc).approaches ⟨.approaching,d,dest₂⟩
        (by simp [hp,messages])
      obtain rfl : d = c.1 := hd
      exact absurd (hgate rfl) hpast'

theorem Ordered.did (ho : Ordered s) (h : Inv (routes cars) s) (hturn : InTurn s t)
    (hd : Did s t u) : Ordered u := by
  cases hd with
  | waits hp hfree =>
    intro d a b hab hbefore hpast
    refine ho d a b hab hbefore ?_
    by_cases hb : b = t
    · subst hb
      rwa [after_place_self,← hp] at hpast
    · rwa [after_place_of_ne hb] at hpast
  | acquires hp hfree => exact ho.acquires h hturn hp hfree
  | releases hp howner =>
    intro d a b hab hbefore hpast
    refine ho d a b hab hbefore ?_
    by_cases hb : b = t
    · subst hb
      rw [after_place_self] at hpast
      simpa [hp] using hpast
    · rwa [after_place_of_ne hb] at hpast
  | tells hp => exact ho.tells h hp

end Order

/-- Of two cars from the same direction the one that approached first enters its first region first,
as long as the gates are taken in the order of arrival. -/
theorem same_direction_in_order (cars : Nat → Option (Direction × Turn)) {sched : List Nat}
    {s : Intersection} (hturn : Along (step code) InTurn (createcars cars) sched)
    (h : run (step code) (createcars cars) sched = some s) {d dest : Direction} {a b : Nat}
    (hab : a ≠ b) (hbefore : Before s.shared.said d a .approaching b .approaching)
    (hr : (b,(⟨.region1,d,dest⟩ : Message)) ∈ s.shared.said) :
    Before s.shared.said d a .region1 b .region1 := by
  have hstart : Inv (routes cars) (createcars cars) ∧ Ordered (createcars cars) := by
    refine ⟨inv_start (routes_free cars),fun d a b _ hb _ => ?_⟩
    obtain ⟨⟨dest,hm⟩,-⟩ := hb.mem
    cases hm
  obtain ⟨hinv,ho⟩ : Inv (routes cars) s ∧ Ordered s :=
    run_keeps (I := fun s => Inv (routes cars) s ∧ Ordered s) (fun _ _ _ hi ht hs =>
      ⟨hi.1.did (balanced_routes cars) (did_of_step hs),hi.2.did hi.1 ht (did_of_step hs)⟩)
      hstart hturn h
  have hpast : .acquire (gateOf d) ∉ s.place b := fun hin =>
    (heard_of_said hinv hr).ahead hin _ (mem_saidBy.mpr hr) rfl
  obtain ⟨dest',-,hlater⟩ := ho d a b hab hbefore hpast
  exact ⟨dest',dest,hlater dest hr⟩

def bothSouth : Nat → Option (Direction × Turn)
  | 0 => some (.S,.straight)
  | 1 => some (.S,.right)
  | _ => none

/-- The second car takes the gate before the first one does. -/
theorem second_car_first : ∃ sched s,
    run (step code) (createcars bothSouth) sched = some s ∧
    Before s.shared.said .S 0 .approaching 1 .approaching ∧
    Before s.shared.said .S 1 .region1 0 .region1 := by
  have hrun : ((run (step code) (createcars bothSouth)
      [0,1,1,1,1,1,1,1,1,1,0,0,0,0]).any fun s => s.shared.said ==
        [(0,⟨.approaching,.S,.N⟩),(1,⟨.approaching,.S,.E⟩),(1,⟨.region1,.S,.E⟩),
          (1,⟨.leaving,.S,.E⟩),(0,⟨.region1,.S,.N⟩)]) = true := by decide
  obtain ⟨s,hs,h⟩ := some_of_any hrun
  have hsaid := beq_iff_eq.mp h
  refine ⟨_,s,hs,⟨.N,.E,?_⟩,⟨.E,.N,?_⟩⟩
  · rw [hsaid]
    decide
  · rw [hsaid]
    decide

def inTurn (s : Intersection) (t : Nat) : Bool :=
  (wanted (s.place t)).all fun l => (s.shared.owner l).isSome ||
    s.shared.said.all fun x => x.1 == t || wanted (s.place x.1) != some l

theorem inTurn_of_test {s : Intersection} {t : Nat} (h : inTurn s t = true) : InTurn s t := by
  intro d hw hfree t' hne hbefore
  obtain ⟨⟨dest,hm⟩,-⟩ := hbefore.mem
  simp only [inTurn,hw,Option.all_some,hfree,Option.isSome_none,Bool.false_or,List.all_eq_true] at h
  simpa [hne] using h _ hm

theorem same_direction_in_order_bothSouth : ∃ sched s,
    run (step code) (createcars bothSouth) sched = some s ∧
    Before s.shared.said .S 0 .approaching 1 .approaching ∧
    Before s.shared.said .S 0 .region1 1 .region1 := by
  let sched := [0,0,1,1] ++ List.replicate 10 0 ++ [1,1,1,1]
  have hrun : ((run (step code) (createcars bothSouth) sched).any fun s =>
      s.shared.said.take 2 == [(0,⟨.approaching,.S,.N⟩),(1,⟨.approaching,.S,.E⟩)] &&
        s.shared.said.contains (1,⟨.region1,.S,.E⟩)) = true := by decide
  have hturn : checkAlong (step code) inTurn (createcars bothSouth) sched = true := by decide
  obtain ⟨s,hs,h⟩ := some_of_any hrun
  simp only [Bool.and_eq_true,beq_iff_eq,List.contains_iff_mem] at h
  have hbefore : Before s.shared.said .S 0 .approaching 1 .approaching :=
    ⟨.N,.E,h.1 ▸ List.take_sublist 2 s.shared.said⟩
  exact ⟨sched,s,hs,hbefore,same_direction_in_order bothSouth
    (Along.of_check (fun _ _ => inTurn_of_test) hturn) hs (by decide) hbefore h.2⟩

end MipsOs.Stoplight
