import EventCheck.Lattice.Basic

/-!
What makes a record of operations a lattice. The order is the one that `included` decides, and
joins and meets are the bounds of pairs in it.
-/

namespace EventCheck

namespace Lattice

variable {α : Type} {lattice : Lattice α} {a b c : α}

def Below (lattice : Lattice α) (a b : α) : Prop := lattice.included a b = .ok true

/-- A partial order with least upper and greatest lower bounds of pairs. A greatest element need
not be represented. -/
structure Lawful (lattice : Lattice α) : Prop where
  decides : ∀ a b, ∃ answer, lattice.included a b = .ok answer
  refl : ∀ a, lattice.Below a a
  trans : ∀ a b c, lattice.Below a b → lattice.Below b c → lattice.Below a c
  antisymm : ∀ a b, lattice.Below a b → lattice.Below b a → a = b
  join_below : ∀ a b c, lattice.Below (lattice.join a b) c ↔ lattice.Below a c ∧ lattice.Below b c
  below_meet : ∀ a b c, lattice.Below c (lattice.meet a b) ↔ lattice.Below c a ∧ lattice.Below c b
  bottom_below : ∀ a, lattice.Below lattice.bottom a
  below_top : ∀ top, lattice.top = .ok top → ∀ a, lattice.Below a top

/-- Joins and meets distribute over each other. -/
structure Distributive (lattice : Lattice α) : Prop where
  meet_join : ∀ a b c,
    lattice.meet a (lattice.join b c) = lattice.join (lattice.meet a b) (lattice.meet a c)
  join_meet : ∀ a b c,
    lattice.join a (lattice.meet b c) = lattice.meet (lattice.join a b) (lattice.join a c)

/-- The laws of joins and meets that do not speak of the order. -/
structure Algebraic (lattice : Lattice α) : Prop where
  join_comm : ∀ a b, lattice.join a b = lattice.join b a
  join_assoc : ∀ a b c, lattice.join (lattice.join a b) c = lattice.join a (lattice.join b c)
  join_self : ∀ a, lattice.join a a = a
  join_meet_self : ∀ a b, lattice.join a (lattice.meet a b) = a
  meet_comm : ∀ a b, lattice.meet a b = lattice.meet b a
  meet_assoc : ∀ a b c, lattice.meet (lattice.meet a b) c = lattice.meet a (lattice.meet b c)
  meet_self : ∀ a, lattice.meet a a = a
  meet_join_self : ∀ a b, lattice.meet a (lattice.join a b) = a

namespace Lawful

theorem below_join_left (lawful : lattice.Lawful) : lattice.Below a (lattice.join a b) :=
  ((lawful.join_below a b _).1 (lawful.refl _)).1

theorem below_join_right (lawful : lattice.Lawful) : lattice.Below b (lattice.join a b) :=
  ((lawful.join_below a b _).1 (lawful.refl _)).2

theorem meet_below_left (lawful : lattice.Lawful) : lattice.Below (lattice.meet a b) a :=
  ((lawful.below_meet a b _).1 (lawful.refl _)).1

theorem meet_below_right (lawful : lattice.Lawful) : lattice.Below (lattice.meet a b) b :=
  ((lawful.below_meet a b _).1 (lawful.refl _)).2

theorem meet_comm_below (lawful : lattice.Lawful) :
    lattice.Below (lattice.meet a b) (lattice.meet b a) :=
  (lawful.below_meet b a _).2 ⟨lawful.meet_below_right, lawful.meet_below_left⟩

/-- Elements with the same upper bounds are equal. -/
theorem eq_of_above (lawful : lattice.Lawful)
    (same : ∀ c, lattice.Below a c ↔ lattice.Below b c) : a = b :=
  lawful.antisymm a b ((same b).2 (lawful.refl b)) ((same a).1 (lawful.refl a))

/-- Elements with the same lower bounds are equal. -/
theorem eq_of_below (lawful : lattice.Lawful)
    (same : ∀ c, lattice.Below c a ↔ lattice.Below c b) : a = b :=
  lawful.antisymm a b ((same a).1 (lawful.refl a)) ((same b).2 (lawful.refl b))

theorem algebraic (lawful : lattice.Lawful) : lattice.Algebraic where
  join_comm a b := lawful.eq_of_above fun c => by
    rw [lawful.join_below, lawful.join_below, and_comm]
  join_assoc a b c := lawful.eq_of_above fun d => by
    simp only [lawful.join_below, and_assoc]
  join_self a := lawful.eq_of_above fun b => by
    rw [lawful.join_below, and_self]
  join_meet_self a b := lawful.eq_of_above fun c => by
    rw [lawful.join_below]
    exact and_iff_left_of_imp fun above => lawful.trans _ _ _ lawful.meet_below_left above
  meet_comm a b := lawful.eq_of_below fun c => by
    rw [lawful.below_meet, lawful.below_meet, and_comm]
  meet_assoc a b c := lawful.eq_of_below fun d => by
    simp only [lawful.below_meet, and_assoc]
  meet_self a := lawful.eq_of_below fun b => by
    rw [lawful.below_meet, and_self]
  meet_join_self a b := lawful.eq_of_below fun c => by
    rw [lawful.below_meet]
    exact and_iff_left_of_imp fun below => lawful.trans _ _ _ below lawful.below_join_left

/-- Of the four inequalities that make a lattice distributive one implies the others. -/
theorem distributive (lawful : lattice.Lawful)
    (parts : ∀ a b c, lattice.Below (lattice.meet a (lattice.join b c))
      (lattice.join (lattice.meet a b) (lattice.meet a c))) : lattice.Distributive := by
  constructor
  · intro a b c
    apply lawful.antisymm
    · exact parts a b c
    · rw [lawful.join_below, lawful.below_meet, lawful.below_meet]
      refine ⟨⟨lawful.meet_below_left, ?_⟩, ⟨lawful.meet_below_left, ?_⟩⟩
      · exact lawful.trans _ _ _ lawful.meet_below_right lawful.below_join_left
      · exact lawful.trans _ _ _ lawful.meet_below_right lawful.below_join_right
  · intro a b c
    apply lawful.antisymm
    · rw [lawful.join_below, lawful.below_meet, lawful.below_meet]
      refine ⟨⟨lawful.below_join_left, lawful.below_join_left⟩, ⟨?_, ?_⟩⟩
      · exact lawful.trans _ _ _ lawful.meet_below_left lawful.below_join_right
      · exact lawful.trans _ _ _ lawful.meet_below_right lawful.below_join_right
    -- The meet of the joins splits at `a` and `c`, and the part at `c` once more at `a` and `b`.
    · have first := parts (lattice.join a b) a c
      have second := parts c a b
      refine lawful.trans _ _ _ first ?_
      rw [lawful.join_below]
      constructor
      · exact lawful.trans _ _ _ lawful.meet_below_right lawful.below_join_left
      · refine lawful.trans _ _ _ lawful.meet_comm_below (lawful.trans _ _ _ second ?_)
        rw [lawful.join_below]
        constructor
        · exact lawful.trans _ _ _ lawful.meet_below_right lawful.below_join_left
        · exact lawful.trans _ _ _ lawful.meet_comm_below lawful.below_join_right

end Lawful

end Lattice

end EventCheck
