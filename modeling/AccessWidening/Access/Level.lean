/-!
Access levels: how widely a declaration may be referred to, and what is asked of its `final` mark.

Visibilities are ordered from `priv` to `pub`, finality requests from `unstated` to `dropFinal`,
and levels join componentwise to the larger request. The join is commutative, associative and
idempotent, so the outcome of several requests depends only on which requests were made.
-/

namespace AccessWidening

/-- Who may refer to a declaration, listed from the narrowest to the widest. `package` is the
visibility of a declaration that carries no access keyword. -/
inductive Visibility where
  | priv
  | package
  | prot
  | pub
  deriving DecidableEq

namespace Visibility

def rank : Visibility → Nat
  | priv => 0
  | package => 1
  | prot => 2
  | pub => 3

instance : LE Visibility := ⟨fun a b => a.rank ≤ b.rank⟩

instance (a b : Visibility) : Decidable (a ≤ b) := inferInstanceAs (Decidable (a.rank ≤ b.rank))

instance : Ord Visibility := ⟨fun a b => compare a.rank b.rank⟩

def join (a b : Visibility) : Visibility := if a ≤ b then b else a

def word : Visibility → String
  | priv => "private"
  | package => "default"
  | prot => "protected"
  | pub => "public"

theorem le_iff_rank {a b : Visibility} : a ≤ b ↔ a.rank ≤ b.rank := Iff.rfl

theorem rank_injective {a b : Visibility} (h : a.rank = b.rank) : a = b := by
  cases a <;> cases b <;> cases h <;> rfl

theorem rank_join (a b : Visibility) : (a.join b).rank = max a.rank b.rank := by
  cases a <;> cases b <;> rfl

theorem join_comm (a b : Visibility) : a.join b = b.join a :=
  rank_injective (by simp only [rank_join]; omega)

theorem join_assoc (a b c : Visibility) : (a.join b).join c = a.join (b.join c) :=
  rank_injective (by simp only [rank_join]; omega)

@[simp]
theorem join_self (a : Visibility) : a.join a = a :=
  rank_injective (by simp only [rank_join]; omega)

theorem left_le_join (a b : Visibility) : a ≤ a.join b := by
  rw [le_iff_rank, rank_join]; omega

theorem right_le_join (a b : Visibility) : b ≤ a.join b := by
  rw [le_iff_rank, rank_join]; omega

end Visibility

/-- What a request says about the `final` mark, listed from the weakest to the strongest: nothing,
put the mark, or take it away. -/
inductive Finality where
  | unstated
  | addFinal
  | dropFinal
  deriving DecidableEq

namespace Finality

def rank : Finality → Nat
  | unstated => 0
  | addFinal => 1
  | dropFinal => 2

/-- The stronger of two finality requests: taking the mark away wins over putting it. -/
def join (a b : Finality) : Finality := if a.rank ≤ b.rank then b else a

def mark : Finality → String
  | unstated => ""
  | addFinal => "+f"
  | dropFinal => "-f"

theorem rank_injective {a b : Finality} (h : a.rank = b.rank) : a = b := by
  cases a <;> cases b <;> cases h <;> rfl

theorem rank_join (a b : Finality) : (a.join b).rank = max a.rank b.rank := by
  cases a <;> cases b <;> rfl

theorem join_comm (a b : Finality) : a.join b = b.join a :=
  rank_injective (by simp only [rank_join]; omega)

theorem join_assoc (a b c : Finality) : (a.join b).join c = a.join (b.join c) :=
  rank_injective (by simp only [rank_join]; omega)

@[simp]
theorem join_self (a : Finality) : a.join a = a :=
  rank_injective (by simp only [rank_join]; omega)

end Finality

/-- A minimum access level: the least visibility asked for and a request about `final`. -/
structure Level where
  visibility : Visibility
  finality : Finality
  deriving DecidableEq

namespace Level

def join (a b : Level) : Level where
  visibility := a.visibility.join b.visibility
  finality := a.finality.join b.finality

/-- The level held after `request` arrives where `held` was held before. -/
def joinHeld (held : Option Level) (request : Level) : Level :=
  match held with
  | some level => level.join request
  | none => request

def text (level : Level) : String := level.visibility.word ++ level.finality.mark

@[simp]
theorem visibility_join (a b : Level) :
    (a.join b).visibility = a.visibility.join b.visibility := rfl

@[simp]
theorem finality_join (a b : Level) : (a.join b).finality = a.finality.join b.finality := rfl

theorem join_comm (a b : Level) : a.join b = b.join a := by
  simp only [join, Visibility.join_comm a.visibility, Finality.join_comm a.finality]

theorem join_assoc (a b c : Level) : (a.join b).join c = a.join (b.join c) := by
  simp only [join, Visibility.join_assoc, Finality.join_assoc]

@[simp]
theorem join_self (a : Level) : a.join a = a := by simp [join]

@[simp]
theorem joinHeld_none (request : Level) : joinHeld none request = request := rfl

@[simp]
theorem joinHeld_some (held request : Level) :
    joinHeld (some held) request = held.join request := rfl

end Level

end AccessWidening
