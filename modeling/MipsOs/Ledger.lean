import Mathlib.Logic.Basic

/-! Books on who owns what. Every item that is held has exactly one owner. -/

set_option autoImplicit false
namespace MipsOs.Ledger

variable {O B : Type}

structure Exact (owns : O → B → Prop) (held : B → Prop) : Prop where
  sound : ∀ o b, owns o b → held b
  owner : ∀ b, held b → ∃ o, owns o b
  unique : ∀ o o' b, owns o b → owns o' b → o = o'

variable {owns owns' : O → B → Prop} {held held' : B → Prop}

theorem Exact.congr (h : Exact owns held) (ho : ∀ o b, owns' o b ↔ owns o b)
    (hb : ∀ b, held' b ↔ held b) : Exact owns' held' where
  sound o b hob := (hb b).mpr (h.sound o b ((ho o b).mp hob))
  owner b hh := (h.owner b ((hb b).mp hh)).imp fun o hob => (ho o b).mpr hob
  unique o o' b hob hob' := h.unique o o' b ((ho o b).mp hob) ((ho o' b).mp hob')

theorem Exact.take (h : Exact owns held) {x : O} {c : B} (hfree : ¬ held c)
    (ho : ∀ o b, owns' o b ↔ owns o b ∨ o = x ∧ b = c)
    (hb : ∀ b, held' b ↔ held b ∨ b = c) : Exact owns' held' where
  sound o b hob := by
    rcases (ho o b).mp hob with hob | ⟨_,rfl⟩
    · exact (hb b).mpr (.inl (h.sound o b hob))
    · exact (hb b).mpr (.inr rfl)
  owner b hh := by
    rcases (hb b).mp hh with hh | rfl
    · obtain ⟨o,hob⟩ := h.owner b hh
      exact ⟨o,(ho o b).mpr (.inl hob)⟩
    · exact ⟨x,(ho x b).mpr (.inr ⟨rfl,rfl⟩)⟩
  unique o o' b hob hob' := by
    rcases (ho o b).mp hob with h1 | ⟨rfl,rfl⟩
    · rcases (ho o' b).mp hob' with h2 | ⟨_,rfl⟩
      · exact h.unique o o' b h1 h2
      · exact (hfree (h.sound o b h1)).elim
    · rcases (ho o' b).mp hob' with h2 | ⟨rfl,_⟩
      · exact (hfree (h.sound o' b h2)).elim
      · rfl

theorem Exact.pass (h : Exact owns held) {x y : O} {c : B} (hold : owns x c)
    (ho : ∀ o b, owns' o b ↔ owns o b ∧ o ≠ x ∨ o = y ∧ b = c) (hself : ∀ b, owns x b → b = c) :
    Exact owns' held where
  sound o b hob := by
    rcases (ho o b).mp hob with ⟨hob,_⟩ | ⟨_,rfl⟩
    · exact h.sound o b hob
    · exact h.sound x b hold
  owner b hh := by
    obtain ⟨o,hob⟩ := h.owner b hh
    by_cases hne : o = x
    · subst hne
      exact ⟨y,(ho y b).mpr (.inr ⟨rfl,hself b hob⟩)⟩
    · exact ⟨o,(ho o b).mpr (.inl ⟨hob,hne⟩)⟩
  unique o o' b hob hob' := by
    rcases (ho o b).mp hob with ⟨h1,hn⟩ | ⟨rfl,rfl⟩
    · rcases (ho o' b).mp hob' with ⟨h2,_⟩ | ⟨_,rfl⟩
      · exact h.unique o o' b h1 h2
      · exact (hn (h.unique o x b h1 hold)).elim
    · rcases (ho o' b).mp hob' with ⟨h2,hn⟩ | ⟨rfl,_⟩
      · exact (hn (h.unique o' x b h2 hold)).elim
      · rfl

theorem Exact.drop (h : Exact owns held) {gone : O → Prop}
    (ho : ∀ o b, owns' o b ↔ owns o b ∧ ¬ gone o)
    (hb : ∀ b, held' b ↔ held b ∧ ∀ o, gone o → ¬ owns o b) : Exact owns' held' where
  sound o b hob := by
    obtain ⟨hob,hn⟩ := (ho o b).mp hob
    refine (hb b).mpr ⟨h.sound o b hob,fun o' hg hob' => hn ?_⟩
    rwa [h.unique o o' b hob hob']
  owner b hh := by
    obtain ⟨hh,hg⟩ := (hb b).mp hh
    obtain ⟨o,hob⟩ := h.owner b hh
    exact ⟨o,(ho o b).mpr ⟨hob,fun hgo => hg o hgo hob⟩⟩
  unique o o' b hob hob' := h.unique o o' b ((ho o b).mp hob).1 ((ho o' b).mp hob').1

end MipsOs.Ledger
