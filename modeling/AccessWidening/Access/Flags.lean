import AccessWidening.Access.Level

/-!
The 16-bit access word that a compiled class stores for itself and for each member.

`Flags.level` reads the access level that a word grants, and `Flags.widen` changes a word so that it
grants a requested level as well. A word may carry several visibility bits; the widest of them
counts, and a widened word carries at most one.
-/

namespace AccessWidening

/-- The bits of an access word, listed from the lowest. Three bits mean different things on a class
and on a member; they are named here by the first of their two names. -/
inductive Modifier where
  | pub
  | priv
  | prot
  | static
  | final
  | super
  | volatile
  | transient
  | native
  | interface
  | abstract
  | strict
  | synthetic
  | annotation
  | enumeration
  | moduleInfo
  deriving DecidableEq

namespace Modifier

def position : Modifier → Nat
  | pub => 0
  | priv => 1
  | prot => 2
  | static => 3
  | final => 4
  | super => 5
  | volatile => 6
  | transient => 7
  | native => 8
  | interface => 9
  | abstract => 10
  | strict => 11
  | synthetic => 12
  | annotation => 13
  | enumeration => 14
  | moduleInfo => 15

def all : List Modifier :=
  [pub, priv, prot, static, final, super, volatile, transient,
    native, interface, abstract, strict, synthetic, annotation, enumeration, moduleInfo]

def name : Modifier → String
  | pub => "PUBLIC"
  | priv => "PRIVATE"
  | prot => "PROTECTED"
  | static => "STATIC"
  | final => "FINAL"
  | super => "SUPER"
  | volatile => "VOLATILE"
  | transient => "TRANSIENT"
  | native => "NATIVE"
  | interface => "INTERFACE"
  | abstract => "ABSTRACT"
  | strict => "STRICT"
  | synthetic => "SYNTHETIC"
  | annotation => "ANNOTATION"
  | enumeration => "ENUM"
  | moduleInfo => "MODULE"

/-- The second name of a bit that means something else on a method. -/
def memberName? : Modifier → Option String
  | super => some "SYNCHRONIZED"
  | volatile => some "BRIDGE"
  | transient => some "VARARGS"
  | _ => none

theorem position_lt (m : Modifier) : m.position < 16 := by cases m <;> decide

theorem position_injective {m n : Modifier} (h : m.position = n.position) : m = n := by
  cases m <;> cases n <;> cases h <;> rfl

theorem exists_position {i : Nat} (h : i < 16) : ∃ m : Modifier, m.position = i := by
  have found : ∀ i < 16, ∃ m ∈ all, m.position = i := by decide
  obtain ⟨m, _, hm⟩ := found i h
  exact ⟨m, hm⟩

end Modifier

/-- An access word. -/
structure Flags where
  bits : BitVec 16
  deriving DecidableEq

namespace Flags

/-- The word whose value is `n`, if it fits into 16 bits. -/
def ofNat? (n : Nat) : Option Flags := if n < 0x10000 then some ⟨BitVec.ofNat 16 n⟩ else none

def toNat (flags : Flags) : Nat := flags.bits.toNat

def has (flags : Flags) (m : Modifier) : Bool := flags.bits.getLsbD m.position

def put (flags : Flags) (m : Modifier) (value : Bool) : Flags :=
  let mask := BitVec.twoPow 16 m.position
  ⟨if value then flags.bits ||| mask else flags.bits &&& ~~~mask⟩

def modifiers (flags : Flags) : List Modifier := Modifier.all.filter flags.has

def ofModifiers (ms : List Modifier) : Flags := ms.foldl (fun flags m => flags.put m true) ⟨0⟩

def visibilityMask : Flags := ofModifiers [.pub, .priv, .prot]

/-- The word that a constant name stands for: one bit under either of its names, or the mask of the
visibility bits. -/
def ofName? (name : String) : Option Flags :=
  if name = "VISIBILITY" then some visibilityMask
  else
    (Modifier.all.find? fun m => m.name = name ∨ m.memberName? = some name).map fun m =>
      ofModifiers [m]

/-- The listing of a word's modifiers; a word without any is shown as zero. -/
def listing (flags : Flags) : String :=
  let names := flags.modifiers.map Modifier.name
  "AccessFlags(" ++ (if names.isEmpty then "0x0" else " | ".intercalate names) ++ ")"

/-- The widest visibility bit of a word. -/
def visibility (flags : Flags) : Visibility :=
  if flags.has .pub then .pub
  else if flags.has .prot then .prot
  else if flags.has .priv then .priv
  else .package

def level (flags : Flags) : Level where
  visibility := flags.visibility
  finality := if flags.has .final then .addFinal else .unstated

/-- The word with exactly the bit of one visibility among the visibility bits. -/
def withVisibility (flags : Flags) (v : Visibility) : Flags :=
  ((flags.put .pub (v = .pub)).put .prot (v = .prot)).put .priv (v = .priv)

def withFinality (flags : Flags) : Finality → Flags
  | .unstated => flags
  | .addFinal => flags.put .final true
  | .dropFinal => flags.put .final false

/-- The word that grants, next to what it granted before, the requested level. -/
def widen (flags : Flags) (request : Level) : Flags :=
  let target := request.join flags.level
  (flags.withVisibility target.visibility).withFinality target.finality

@[ext]
theorem ext_has {a b : Flags} (h : ∀ m, a.has m = b.has m) : a = b := by
  obtain ⟨a⟩ := a
  obtain ⟨b⟩ := b
  congr 1
  apply BitVec.eq_of_getLsbD_eq
  intro i hi
  obtain ⟨m, rfl⟩ := Modifier.exists_position hi
  exact h m

@[simp]
theorem has_put (flags : Flags) (m n : Modifier) (value : Bool) :
    (flags.put m value).has n = if n = m then value else flags.has n := by
  by_cases h : n = m
  · subst h
    cases value <;> simp [put, has, n.position_lt]
  · have apart : n.position ≠ m.position := fun e => h (Modifier.position_injective e)
    cases value <;> simp [put, has, h, apart, n.position_lt]

end Flags

end AccessWidening
