import Mathlib.Data.List.Nodup

/-! Singly linked lists. The links are a partial function, so a list that ends is
determined by its first element and has no element twice. -/

set_option autoImplicit false
namespace MipsOs

variable {α : Type}

/-- From `o` the links lead through the elements of the list and end. -/
inductive Chain (next : α → Option α) : Option α → List α → Prop
  | nil : Chain next none []
  | cons {x : α} {l : List α} (h : Chain next (next x) l) : Chain next (some x) (x :: l)

namespace Chain

variable {next next' : α → Option α} {o : Option α} {x y : α} {l l' : List α}

theorem head (h : Chain next o l) : o = l.head? := by
  cases h with
  | nil | cons => rfl

theorem tail (h : Chain next o (x :: l)) : Chain next (next x) l := by
  cases h with
  | cons h => exact h

theorem unique (h : Chain next o l) (h' : Chain next o l') : l = l' := by
  induction h generalizing l' with
  | nil =>
    cases h'
    rfl
  | cons _ ih =>
    cases h' with
    | cons h' => rw [ih h']

theorem suffix {pre : List α} (h : Chain next o (pre ++ x :: l)) :
    Chain next (some x) (x :: l) := by
  induction pre generalizing o with
  | nil =>
    obtain rfl := h.head
    exact h
  | cons y pre ih => exact ih h.tail

theorem nodup (h : Chain next o l) : l.Nodup := by
  induction h with
  | nil => exact List.nodup_nil
  | @cons x l h ih =>
    refine List.nodup_cons.mpr ⟨fun hx => ?_,ih⟩
    obtain ⟨pre,post,rfl⟩ := List.append_of_mem hx
    -- The list would be its own proper suffix.
    have heq := h.suffix.tail.unique h
    have hlen := congrArg List.length heq
    simp only [List.length_append,List.length_cons] at hlen
    omega

theorem congr (h : Chain next o l) (hn : ∀ x ∈ l, next' x = next x) : Chain next' o l := by
  induction h with
  | nil => exact .nil
  | @cons x l h ih =>
    have hx := hn x List.mem_cons_self
    refine .cons ?_
    rw [hx]
    exact ih fun y hy => hn y (List.mem_cons_of_mem x hy)

theorem push (h : Chain next o l) (hx : next' x = o) (hn : ∀ y ∈ l, next' y = next y) :
    Chain next' (some x) (x :: l) := by
  refine .cons ?_
  rw [hx]
  exact h.congr hn

theorem unlink {pre post : List α} (h : Chain next o (pre ++ y :: x :: post))
    (hy : next' y = next x) (hn : ∀ z, z ≠ y → next' z = next z) :
    Chain next' o (pre ++ y :: post) := by
  have hnodup := h.nodup
  induction pre generalizing o with
  | nil =>
    obtain rfl := h.head
    have hpost := h.tail.tail
    refine .cons ?_
    rw [hy]
    refine hpost.congr fun z hz => hn z ?_
    rintro rfl
    exact (List.nodup_cons.mp hnodup).1 (List.mem_cons_of_mem x hz)
  | cons z pre ih =>
    obtain rfl := h.head
    have hz : z ≠ y := by
      rintro rfl
      exact (List.nodup_cons.mp hnodup).1 (List.mem_append_right pre List.mem_cons_self)
    refine .cons ?_
    rw [hn z hz]
    exact ih h.tail (List.nodup_cons.mp hnodup).2

theorem walk {β : Type} {f : Nat → Option α → β} {g : Option α → β} {test : α → Bool} {n : Nat}
    (h : Chain next o l) (hlen : l.length ≤ n) (hnil : ∀ n, f n none = g none)
    (hcons : ∀ n, ∀ x ∈ l,
      f (n+1) (some x) = if test x = true then g (some x) else f n (next x)) :
    f n o = g (l.find? test) := by
  induction h generalizing n with
  | nil => exact hnil n
  | @cons x l h ih =>
    obtain ⟨m,rfl⟩ : ∃ m, n = m + 1 := ⟨n-1,by rw [List.length_cons] at hlen; omega⟩
    rw [hcons m x List.mem_cons_self]
    cases ht : test x with
    | true =>
      rw [if_pos rfl,List.find?_cons_of_pos ht]
    | false =>
      rw [if_neg Bool.false_ne_true,List.find?_cons_of_neg (by rw [ht]; exact Bool.false_ne_true)]
      refine ih (by rw [List.length_cons] at hlen; omega) fun k y hy => ?_
      exact hcons k y (List.mem_cons_of_mem x hy)

end Chain

end MipsOs
