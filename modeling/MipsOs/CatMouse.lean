import MipsOs.Guard
import MipsOs.Tasks

/-! The cats and mice of kern/asst1/catsem.c with the semaphore operations they use from
thread/synch.c. These run with interrupts off, so each is one section; a thread that is woken up in
Pcat or Pmouse tests its condition again. -/

set_option autoImplicit false
namespace MipsOs.CatMouse
open Guard Tasks Function Runs

inductive Animal where
  | cat | mouse
  deriving DecidableEq, Repr

def Animal.other : Animal → Animal
  | .cat => .mouse
  | .mouse => .cat

inductive Bowl where
  | one | two
  deriving DecidableEq, Repr

def Bowl.other : Bowl → Bowl
  | .one => .two
  | .two => .one

/-- A semaphore of the two bowls. `isOccupiedBy` is the pair isOccupiedByCat, isOccupiedByMice. -/
structure Sem where
  count : Nat
  isOccupiedBy : Animal → Bool

def semCreate : Sem := ⟨1,fun _ => false⟩

abbrev Bowls := Bowl → Sem

/-- Where a catsem or mousesem thread is: at Pcat or Pmouse, in sem_eat, or at its end. -/
inductive Place where
  | enter (who : Animal) (iteration : Nat) (b : Bowl)
  | eating (who : Animal) (iteration : Nat) (b : Bowl)
  | done
  deriving DecidableEq, Repr

/-- catsem goes to bowl 2 and then to bowl 1, mousesem the other way round. -/
def firstBowl : Animal → Bowl
  | .cat => .two
  | .mouse => .one

def secondBowl (who : Animal) : Bowl := (firstBowl who).other

section Code

variable (who : Animal) (cur : Bowl) (bowls : Bowls)

def mustWait : Prop :=
  (bowls cur).count = 0 ∨ (bowls cur.other).isOccupiedBy who.other = true

instance instDecidableMustWait : Decidable (mustWait who cur bowls) :=
  inferInstanceAs (Decidable (_ ∨ _))

def occupy : Bowls :=
  update bowls cur
    ⟨(bowls cur).count - 1,update (bowls cur).isOccupiedBy who true⟩

def vacate : Bowls :=
  update bowls cur
    ⟨(bowls cur).count + 1,update (bowls cur).isOccupiedBy who false⟩

end Code

def again (who : Animal) (iteration : Nat) : Place :=
  if iteration < 3 then .enter who iteration (firstBowl who) else .done

def afterMeal (who : Animal) (iteration : Nat) (b : Bowl) : Place :=
  if b = firstBowl who then .enter who (iteration + 1) (secondBowl who)
  else again who (iteration + 1)

def code : Code Bowls Place Bowl
  | _, .enter who iteration b, bowls =>
    if mustWait who b bowls then some ⟨bowls,.enter who iteration b,none,some b⟩
    else some ⟨occupy who b bowls,.eating who iteration b,none,none⟩
  | _, .eating who iteration b, bowls =>
    some ⟨vacate who b bowls,afterMeal who iteration b,some b,none⟩
  | _, .done, _ => none

abbrev Kitchen := State Bowls Place Bowl

/-- catmousesem with a thread for each number that `threads` gives an animal to. -/
def catmousesem (threads : Nat → Option Animal) : Kitchen where
  shared := fun _ => semCreate
  place := fun t =>
    match threads t with
    | some who => again who 0
    | none => .done
  asleep := fun _ => none

def Place.eats (b : Bowl) : Place → Prop
  | .eating _ _ b' => b' = b
  | _ => False

/-- The flags of a bowl while an animal at this place has it. -/
def Place.Shows (flags : Animal → Bool) : Place → Prop
  | .eating who _ _ => ∀ a, flags a = true ↔ a = who
  | _ => True

def EatsAs (s : Kitchen) (who : Animal) (t : Nat) (b : Bowl) : Prop :=
  ∃ iteration, s.place t = .eating who iteration b

/-- Each bowl's semaphore has its unit or an animal at the bowl has it and is named by the flags,
and the two bowls are not taken by different species. -/
structure Inv (s : Kitchen) : Prop where
  bowls : ∀ b, Guarded (Place.eats b) Place.Shows (fun flags => ∀ a, flags a = false)
    (s.shared b).count (s.shared b).isOccupiedBy s.place
  apart : ∀ b a, (s.shared b).isOccupiedBy a = true →
    (s.shared b.other).isOccupiedBy a.other = false

section Steps

variable {s u : Kitchen} {t : Nat} {who : Animal} {iteration : Nat} {b : Bowl}

theorem bowl_cases (b b' : Bowl) : b' = b ∨ b' = b.other := by
  cases b <;> cases b' <;> simp [Bowl.other]

@[simp] theorem other_ne (b : Bowl) : b.other ≠ b := by
  cases b <;> simp [Bowl.other]

@[simp] theorem ne_other (b : Bowl) : b ≠ b.other := (other_ne b).symm

@[simp] theorem other_other (b : Bowl) : b.other.other = b := by
  cases b <;> rfl

@[simp] theorem animal_other_other (a : Animal) : a.other.other = a := by
  cases a <;> rfl

theorem not_eats_again (who : Animal) (iteration : Nat) (b : Bowl) :
    ¬ (again who iteration).eats b := by
  by_cases h : iteration < 3 <;> simp [again,h,Place.eats]

theorem not_eats_afterMeal (who : Animal) (iteration : Nat) (b b' : Bowl) :
    ¬ (afterMeal who iteration b).eats b' := by
  by_cases h : b = firstBowl who
  · simp [afterMeal,h,Place.eats]
  · simpa [afterMeal,h] using not_eats_again who (iteration + 1) b'

theorem step_cases (h : step code s t = some u) :
    (∃ who iteration b, s.place t = .enter who iteration b ∧ mustWait who b s.shared ∧
      u = s.after t ⟨s.shared,.enter who iteration b,none,some b⟩) ∨
    (∃ who iteration b, s.place t = .enter who iteration b ∧ ¬ mustWait who b s.shared ∧
      u = s.after t ⟨occupy who b s.shared,.eating who iteration b,none,none⟩) ∨
    ∃ who iteration b, s.place t = .eating who iteration b ∧
      u = s.after t ⟨vacate who b s.shared,afterMeal who iteration b,some b,none⟩ := by
  obtain ⟨-,e,he,rfl⟩ := step_eq_some.mp h
  cases hp : s.place t with
  | enter who iteration b =>
    by_cases hw : mustWait who b s.shared
    · simp only [hp,code,if_pos hw,Option.some.injEq] at he
      exact .inl ⟨who,iteration,b,rfl,hw,he ▸ rfl⟩
    · simp only [hp,code,if_neg hw,Option.some.injEq] at he
      exact .inr (.inl ⟨who,iteration,b,rfl,hw,he ▸ rfl⟩)
  | eating who iteration b =>
    simp only [hp,code,Option.some.injEq] at he
    exact .inr (.inr ⟨who,iteration,b,rfl,he ▸ rfl⟩)
  | done => simp [hp,code] at he

theorem Inv.sleeps (h : Inv s) (hp : s.place t = .enter who iteration b) :
    Inv (s.after t ⟨s.shared,.enter who iteration b,none,some b⟩) := by
  refine ⟨fun b' => ?_,h.apart⟩
  exact (h.bowls b').outside (by simp [hp,Place.eats]) (by simp [Place.eats])

theorem Inv.occupies (h : Inv s) (hp : s.place t = .enter who iteration b)
    (hw : ¬ mustWait who b s.shared) :
    Inv (s.after t ⟨occupy who b s.shared,.eating who iteration b,none,none⟩) := by
  rw [mustWait,not_or] at hw
  have hfree := h.bowls b
  have hpos : 0 < (s.shared b).count := Nat.pos_of_ne_zero hw.1
  have hquiet := hfree.free (hfree.token.nobody hpos)
  constructor
  · intro b'
    rcases bowl_cases b b' with rfl | rfl
    · simp only [after_shared,occupy,update_self]
      refine hfree.take hpos (by simp [Place.eats]) fun _ a => ?_
      by_cases ha : a = who
      · simp [ha]
      · simp [ha,hquiet]
    · simp only [after_shared,occupy,update_of_ne (other_ne b)]
      exact (h.bowls b.other).outside (by simp [hp,Place.eats]) (by simp [Place.eats])
  · intro b' a ha
    rcases bowl_cases b b' with rfl | rfl
    · -- the flag that has just been set, against the one that was tested
      simp only [after_shared,occupy,update_self,update_of_ne (other_ne b')] at ha ⊢
      by_cases hwho : a = who
      · simpa [hwho] using hw.2
      · simp [hwho,hquiet] at ha
    · simp only [after_shared,occupy,other_other,update_self,
        update_of_ne (other_ne b)] at ha ⊢
      by_cases hwho : a.other = who
      · rw [← hwho,animal_other_other,ha] at hw
        exact absurd rfl hw.2
      · simp [hwho,hquiet]

theorem Inv.vacates (h : Inv s) (hp : s.place t = .eating who iteration b) :
    Inv (s.after t ⟨vacate who b s.shared,afterMeal who iteration b,some b,none⟩) := by
  have hmine : (s.place t).eats b := by simp [hp,Place.eats]
  have hshows : ∀ a, (s.shared b).isOccupiedBy a = true ↔ a = who := by
    simpa [hp,Place.Shows] using (h.bowls b).busy t hmine
  have hclear : ∀ a, update (s.shared b).isOccupiedBy who false a = false := by
    intro a
    by_cases ha : a = who
    · simp [ha]
    · simpa [ha] using (hshows a).not.mpr ha
  constructor
  · intro b'
    rcases bowl_cases b b' with rfl | rfl
    · simp only [after_shared,vacate,update_self]
      exact (h.bowls b').give hmine (not_eats_afterMeal _ _ _ _) hclear
    · simp only [after_shared,vacate,update_of_ne (other_ne b)]
      exact (h.bowls b.other).outside (by simp [hp,Place.eats]) (not_eats_afterMeal _ _ _ _)
  · intro b' a ha
    rcases bowl_cases b b' with rfl | rfl
    · simp [vacate,hclear] at ha
    · simp [vacate,hclear]

theorem Inv.step (h : Inv s) (hs : Tasks.step code s t = some u) : Inv u := by
  rcases step_cases hs with ⟨who,n,b,hp,-,rfl⟩ | ⟨who,n,b,hp,hw,rfl⟩ | ⟨who,n,b,hp,rfl⟩
  · exact h.sleeps hp
  · exact h.occupies hp hw
  · exact h.vacates hp

theorem inv_catmousesem (threads : Nat → Option Animal) : Inv (catmousesem threads) := by
  have hno : ∀ b t, ¬ ((catmousesem threads).place t).eats b := by
    intro b t
    cases hw : threads t with
    | none => simp [catmousesem,hw,Place.eats]
    | some who => simpa [catmousesem,hw] using not_eats_again who 0 b
  refine ⟨fun b => ⟨.inl ⟨rfl,hno b⟩,fun t ht => absurd ht (hno b t),fun _ a => rfl⟩,fun b a ha => ?_⟩
  simp [catmousesem,semCreate] at ha

theorem Inv.run {sched : List Nat} (h : Inv s) (hr : run (Tasks.step code) s sched = some u) :
    Inv u :=
  run_keeps (C := fun _ _ => True) (fun _ _ _ hi _ hs => hi.step hs) h (.trivial ..) hr

theorem eats_iff : (s.place t).eats b ↔ ∃ who, EatsAs s who t b := by
  cases hp : s.place t <;> simp [Place.eats,EatsAs,hp]

theorem Inv.flag (h : Inv s) : (s.shared b).isOccupiedBy who = true ↔ ∃ t, EatsAs s who t b := by
  constructor
  · intro hf
    by_contra hno
    have hquiet := (h.bowls b).free fun t ht => by
      obtain ⟨a,n,ha⟩ := eats_iff.mp ht
      have hshows := (h.bowls b).busy t ht
      rw [ha] at hshows
      obtain rfl := (hshows who).mp hf
      exact hno ⟨t,n,ha⟩
    rw [hquiet who] at hf
    cases hf
  · rintro ⟨t,n,ht⟩
    have hshows := (h.bowls b).busy t (eats_iff.mpr ⟨who,n,ht⟩)
    rw [ht] at hshows
    exact (hshows who).mpr rfl

end Steps

/-- At most one animal eats at a bowl, a cat and a mouse never eat at the same time, the count of a
bowl is 1 just when nobody eats there, and its flags name the species that does. -/
theorem exclusion (threads : Nat → Option Animal) {sched : List Nat} {s : Kitchen}
    (h : run (step code) (catmousesem threads) sched = some s) :
    (∀ b t t' who who', EatsAs s who t b → EatsAs s who' t' b → t = t') ∧
    (∀ b b' t t', EatsAs s .cat t b → ¬ EatsAs s .mouse t' b') ∧
    (∀ b, (s.shared b).count = 1 ↔ ∀ who t, ¬ EatsAs s who t b) ∧
    ∀ b who, (s.shared b).isOccupiedBy who = true ↔ ∃ t, EatsAs s who t b := by
  have hinv := (inv_catmousesem threads).run h
  have hone : ∀ b t t' who who', EatsAs s who t b → EatsAs s who' t' b → t = t' :=
    fun b t t' who who' ht ht' =>
      (hinv.bowls b).token.unique (eats_iff.mpr ⟨who,ht⟩) (eats_iff.mpr ⟨who',ht'⟩)
  refine ⟨hone,fun b b' t t' hcat hmouse => ?_,fun b => ⟨fun hc who t ht => ?_,fun hno => ?_⟩,
    fun b who => hinv.flag⟩
  · rcases bowl_cases b b' with rfl | rfl
    · obtain ⟨n,hn⟩ := hcat
      obtain ⟨m,hm⟩ := hmouse
      cases hone b' t t' _ _ ⟨n,hn⟩ ⟨m,hm⟩
      rw [hn] at hm
      cases hm
    · have hflag := hinv.apart b .cat (hinv.flag.mpr ⟨t,hcat⟩)
      have hother := hinv.flag.mpr ⟨t',hmouse⟩
      rw [Animal.other,hother] at hflag
      cases hflag
  · have hz := (hinv.bowls b).token.zero (eats_iff.mpr ⟨who,ht⟩)
    omega
  · rcases (hinv.bowls b).token with ⟨hc,-⟩ | ⟨-,t,ht,-⟩
    · exact hc
    · obtain ⟨who,hw⟩ := eats_iff.mp ht
      exact absurd hw (hno who t)

def twoCats : Nat → Option Animal
  | 0 | 1 => some .cat
  | 2 => some .mouse
  | _ => none

theorem exclusion_twoCats : ∃ s, run (step code) (catmousesem twoCats) [0,0,1,0,2] = some s ∧
    s.asleep 2 = some .one ∧ EatsAs s .cat 0 .one ∧ EatsAs s .cat 1 .two ∧
    ∀ t b, ¬ EatsAs s .mouse t b := by
  have hrun : ((run (step code) (catmousesem twoCats) [0,0,1,0,2]).any fun s =>
      s.asleep 2 == some .one && s.place 0 == .eating .cat 1 .one &&
        s.place 1 == .eating .cat 0 .two) = true := by decide
  obtain ⟨s,hs,h⟩ := some_of_any hrun
  simp only [Bool.and_eq_true,beq_iff_eq] at h
  obtain ⟨⟨ha,h0⟩,h1⟩ := h
  exact ⟨s,hs,ha,⟨1,h0⟩,⟨0,h1⟩,fun t b => (exclusion twoCats hs).2.1 .one b 0 t ⟨1,h0⟩⟩

section Waiting

variable {s u : Kitchen} {t : Nat} {who : Animal} {iteration : Nat} {b : Bowl}

/-- Nobody goes to sleep at the second of its bowls while that bowl is free. -/
def Patient (s : Kitchen) (t : Nat) : Prop :=
  ∀ who iteration, s.place t = .enter who iteration (secondBowl who) →
    mustWait who (secondBowl who) s.shared → (s.shared (secondBowl who)).count = 0

def Comes (b : Bowl) : Place → Prop
  | .eating who _ b' => b' = b ∨ b' = firstBowl who ∧ secondBowl who = b
  | .enter who _ b' => b' = b ∧ secondBowl who = b
  | .done => False

/-- Whoever sleeps on a bowl is about to enter there, and somebody awake will wake it up. -/
structure Tended (s : Kitchen) : Prop where
  inv : Inv s
  place : ∀ t b, s.asleep t = some b → ∃ who n, s.place t = .enter who n b
  comes : ∀ t b, s.asleep t = some b → ∃ t', s.asleep t' = none ∧ Comes b (s.place t')

theorem second_other (who : Animal) : secondBowl who.other = firstBowl who := by
  cases who <;> rfl

theorem first_ne_second (who : Animal) : firstBowl who ≠ secondBowl who := by
  cases who <;> decide

theorem Tended.eater (h : Tended s) (ht : EatsAs s who t b) : s.asleep t = none := by
  obtain ⟨n,hn⟩ := ht
  cases ha : s.asleep t with
  | none => rfl
  | some b' =>
    obtain ⟨a,m,hp⟩ := h.place t b' ha
    rw [hn] at hp
    cases hp

/-- Why an animal has to wait, and who will wake it up. -/
theorem Tended.waits (h : Tended s) (hp : s.place t = .enter who iteration b)
    (hw : mustWait who b s.shared) (hpat : Patient s t) :
    ∃ t', t' ≠ t ∧ s.asleep t' = none ∧ Comes b (s.place t') := by
  have hne : ∀ {t' a n b'}, s.place t' = .eating a n b' → t' ≠ t := by
    rintro t' a n b' ht' rfl
    rw [hp] at ht'
    cases ht'
  have htaken : (s.shared b).count = 0 →
      ∃ t', t' ≠ t ∧ s.asleep t' = none ∧ Comes b (s.place t') := by
    intro hz
    rcases (h.inv.bowls b).token with ⟨hone,-⟩ | ⟨-,t',ht',-⟩
    · omega
    · obtain ⟨a,n,hn⟩ := eats_iff.mp ht'
      exact ⟨t',hne hn,h.eater ⟨n,hn⟩,by simp [hn,Comes]⟩
  rcases bowl_cases (firstBowl who) b with hb | hb
  · subst hb
    rcases hw with hz | hf
    · exact htaken hz
    · -- the other species is at the first of its bowls and comes here next
      obtain ⟨t',n,hn⟩ := h.inv.flag.mp hf
      refine ⟨t',hne hn,h.eater ⟨n,hn⟩,?_⟩
      have hfirst : (firstBowl who).other = firstBowl who.other := by cases who <;> rfl
      simp [hn,Comes,hfirst,second_other]
  · have hb : b = secondBowl who := hb
    subst hb
    exact htaken (hpat who iteration hp hw)

theorem Tended.step (h : Tended s) (hpat : Patient s t) (hs : Tasks.step code s t = some u) :
    Tended u := by
  have hinv := h.inv.step hs
  have hplace : ∀ {e : Effect Bowls Place Bowl},
      (∀ c, e.sleeps = some c → ∃ who n, e.next = .enter who n c) →
      ∀ x c, (s.after t e).asleep x = some c → ∃ who n, (s.after t e).place x = .enter who n c :=
    fun he => sleepers_after (B := fun p c _ => ∃ who n, p = Place.enter who n c) h.place he
      fun _ _ _ hp => hp
  rcases step_cases hs with ⟨who,n,b,hp,hw,rfl⟩ | ⟨who,n,b,hp,hw,rfl⟩ | ⟨who,n,b,hp,rfl⟩
  · have hwaits := h.waits hp hw hpat
    refine ⟨hinv,hplace fun c hc => ?_,wakers_after h.comes (fun c hc => ?_) fun c hc => ?_⟩
    · exact ⟨who,n,by rw [Option.some.inj hc]⟩
    · obtain rfl := Option.some.inj hc
      exact hwaits
    · rw [hp] at hc
      obtain rfl : b = c := hc.1
      exact .inr (.inr hwaits)
  · refine ⟨hinv,hplace (by simp),wakers_after h.comes (by simp) fun c hc => ?_⟩
    rw [hp] at hc
    exact .inr (.inl ⟨rfl,.inl hc.1⟩)
  · refine ⟨hinv,hplace (by simp),wakers_after h.comes (by simp) fun c hc => ?_⟩
    rw [hp] at hc
    rcases hc with rfl | ⟨rfl,rfl⟩
    · exact .inl rfl
    · exact .inr (.inl ⟨rfl,by simp [afterMeal,Comes]⟩)

theorem tended_catmousesem (threads : Nat → Option Animal) : Tended (catmousesem threads) :=
  ⟨inv_catmousesem threads,by simp [catmousesem],by simp [catmousesem]⟩

theorem Tended.not_stuck (h : Tended s) : ¬ Stuck code s := by
  rintro ⟨⟨t,ht⟩,hall⟩
  obtain ⟨b,hb⟩ := Option.ne_none_iff_exists'.mp ht
  obtain ⟨t',ha,hc⟩ := h.comes t b hb
  rcases hall t' with hs | hend
  · exact hs ha
  · cases hp : s.place t' with
    | enter who n b' =>
      rw [hp] at hend
      by_cases hw : mustWait who b' s.shared <;> simp [code,hw] at hend
    | eating who n b' => simp [hp,code] at hend
    | done => simp [hp,Comes] at hc

end Waiting

/-- A mouse sleeps at bowl 2 because a cat eats at bowl 1; the cat, which has eaten its fill, wakes up
the sleepers of bowl 1 only. -/
theorem mouse_never_woken : ∃ threads sched s, threads 0 = some .cat ∧ threads 1 = some .mouse ∧
    run (step code) (catmousesem threads) sched = some s ∧ s.asleep 1 = some .two ∧
    Stuck code s := by
  let threads : Nat → Option Animal := fun t =>
    if t = 0 then some .cat else if t = 1 then some .mouse else none
  have hrun : ((run (step code) (catmousesem threads) [0,0,0,0,0,0,1,1,0,1,0]).any fun s =>
      s.asleep 1 == some .two && s.place 0 == .done) = true := by decide
  obtain ⟨s,hs,h⟩ := some_of_any hrun
  simp only [Bool.and_eq_true,beq_iff_eq] at h
  obtain ⟨h1,h0⟩ := h
  refine ⟨threads,_,s,rfl,rfl,hs,h1,⟨1,by simp [h1]⟩,fun t => ?_⟩
  by_cases ht1 : t = 1
  · simp [ht1,h1]
  · by_cases ht0 : t = 0
    · simp [ht0,h0,code]
    · have hplace := (run_untouched hs (t := t) (by simp [ht0,ht1]) rfl).1
      have hdone : (catmousesem threads).place t = .done := by simp [catmousesem,threads,ht0,ht1]
      rw [hplace,hdone]
      exact .inr rfl

theorem never_stuck (threads : Nat → Option Animal) {sched : List Nat} {s : Kitchen}
    (hpat : Along (step code) Patient (catmousesem threads) sched)
    (h : run (step code) (catmousesem threads) sched = some s) : ¬ Stuck code s := by
  have htended : Tended s :=
    run_keeps (fun _ _ _ ht hp hs => ht.step hp hs) (tended_catmousesem threads) hpat h
  exact htended.not_stuck

def patient (s : Kitchen) (t : Nat) : Bool :=
  match s.place t with
  | .enter who _ b =>
    b == firstBowl who || (s.shared b).count == 0 || !decide (mustWait who b s.shared)
  | _ => true

theorem patient_of_test {s : Kitchen} {t : Nat} (h : patient s t = true) : Patient s t := by
  intro who n hp hw
  have hne : (secondBowl who == firstBowl who) = false := by
    simpa using (first_ne_second who).symm
  simpa [patient,hp,hw,hne] using h

theorem never_stuck_twoCats : ∃ s,
    run (step code) (catmousesem twoCats) [0,0,1,0,2] = some s ∧ s.asleep 2 = some .one ∧
    ¬ Stuck code s := by
  have hrun : ((run (step code) (catmousesem twoCats) [0,0,1,0,2]).any fun s =>
      s.asleep 2 == some .one) = true := by decide
  have hpat : checkAlong (step code) patient (catmousesem twoCats) [0,0,1,0,2] = true := by
    decide
  obtain ⟨s,hs,h⟩ := some_of_any hrun
  exact ⟨s,hs,by simpa using h,
    never_stuck twoCats (Along.of_check (fun _ _ => patient_of_test) hpat) hs⟩

end MipsOs.CatMouse
