import AccessWidening.Rule.Name

/-!
Type descriptors in rule text.

A field type is any number of `[` and then a primitive letter or `L`, a class path and `;`. A method
descriptor is a parenthesised sequence of field types and then `V` or a field type. Scanners return
the descriptor's text and what follows it. No descriptor is a proper beginning of another, so there
is never a choice of how much to read.
-/

namespace AccessWidening.Syntax

def isPrimitive (c : Char) : Bool := ['B', 'C', 'D', 'F', 'I', 'J', 'S', 'Z'].contains c

def scanFieldType : List Char → Option (List Char × List Char)
  | [] => none
  | c :: cs =>
    if c = '[' then (scanFieldType cs).map fun (type, rest) => ('[' :: type, rest)
    else if c = 'L' then
      match scanPath cs with
      | some (path, ';' :: rest) => some ('L' :: path ++ [';'], rest)
      | _ => none
    else if isPrimitive c then some ([c], cs)
    else none

/-- A field type that was read is a nonempty beginning of the text. -/
theorem scanFieldType_eq_some {cs type rest : List Char}
    (h : scanFieldType cs = some (type, rest)) : cs = type ++ rest ∧ type ≠ [] := by
  induction cs generalizing type rest with
  | nil => exact absurd h (by simp [scanFieldType])
  | cons c cs ih =>
    rw [scanFieldType] at h
    split at h
    · next hc =>
      obtain ⟨⟨inner, after⟩, hinner, heq⟩ := Option.map_eq_some_iff.mp h
      obtain ⟨rfl, rfl⟩ := Prod.mk.inj heq
      rw [(ih hinner).1, hc]
      exact ⟨rfl, List.cons_ne_nil _ _⟩
    · split at h
      · next hc =>
        split at h
        · next path after hpath =>
          obtain ⟨rfl, rfl⟩ := Prod.mk.inj (Option.some.inj h)
          rw [scanPath_eq_some hpath, hc]
          exact ⟨by simp, List.cons_ne_nil _ _⟩
        · exact absurd h (by simp)
      · split at h
        · obtain ⟨rfl, rfl⟩ := Prod.mk.inj (Option.some.inj h)
          exact ⟨rfl, List.cons_ne_nil _ _⟩
        · exact absurd h (by simp)

theorem length_lt_of_scanFieldType {cs type rest : List Char}
    (h : scanFieldType cs = some (type, rest)) : rest.length < cs.length := by
  obtain ⟨rfl, hne⟩ := scanFieldType_eq_some h
  have := List.length_pos_iff.mpr hne
  simp
  omega

/-- Reads as many field types as there are, as their joint text and what follows them. -/
def scanParameters (cs : List Char) : List Char × List Char :=
  match _ : scanFieldType cs with
  | none => ([], cs)
  | some (type, rest) =>
    let (types, after) := scanParameters rest
    (type ++ types, after)
termination_by cs.length
decreasing_by exact length_lt_of_scanFieldType ‹_›

/-- Reads the result type of a method: `V`, or a field type. -/
def scanResult (cs : List Char) : Option (List Char × List Char) :=
  match cs with
  | 'V' :: rest => some (['V'], rest)
  | _ => scanFieldType cs

def scanMethodType : List Char → Option (List Char × List Char)
  | '(' :: cs =>
    match scanParameters cs with
    | (parameters, ')' :: after) =>
      (scanResult after).map fun (result, rest) => ('(' :: parameters ++ ')' :: result, rest)
    | _ => none
  | _ => none

inductive DescriptorKind where
  | field
  | method
  deriving DecidableEq

def scanDescriptor (cs : List Char) : Option (DescriptorKind × List Char × List Char) :=
  match scanMethodType cs with
  | some (text, rest) => some (.method, text, rest)
  | none => (scanFieldType cs).map fun (text, rest) => (.field, text, rest)

/-- Whether a text sets out as an array of objects, or an object, whose class path is no path. -/
def namesBadClass (cs : List Char) : Bool :=
  match cs.dropWhile (· = '[') with
  | 'L' :: rest => (scanPath rest).isNone
  | _ => false

end AccessWidening.Syntax
