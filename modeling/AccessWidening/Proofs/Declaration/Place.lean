import AccessWidening.Element.Basic
import AccessWidening.ClassDecl
import AccessWidening.Proofs.First

/-!
The places of a class that carry an access word, and the rules that are about them.

A rule names a place by an element. The class itself and a method have one name, a field has two:
with its descriptor and without. A class may declare a member twice, so a name can fit several
places; its target is the first of them, and a field name without descriptor has a target only
where a single field carries it.
-/

namespace AccessWidening

/-- Where a class carries an access word. Members are counted in the order of declaration. -/
inductive Place where
  | classItself
  | field (index : Nat)
  | method (index : Nat)
  deriving DecidableEq

namespace Member

def signature (m : Member) : String × String := (m.name, m.descriptor)

def fieldNames (owner : String) (m : Member) : List Element :=
  [.field owner m.name (some m.descriptor), .field owner m.name none]

def methodNames (owner : String) (m : Member) : List Element :=
  [.method owner m.name m.descriptor]

theorem owner_of_mem_fieldNames {owner : String} {m : Member} {e : Element}
    (he : e ∈ m.fieldNames owner) : e.owner = owner := by
  simp only [fieldNames, List.mem_cons, List.not_mem_nil, or_false] at he
  rcases he with rfl | rfl <;> rfl

theorem isMember_of_mem_fieldNames {owner : String} {m : Member} {e : Element}
    (he : e ∈ m.fieldNames owner) : e.isMember = true := by
  simp only [fieldNames, List.mem_cons, List.not_mem_nil, or_false] at he
  rcases he with rfl | rfl <;> rfl

theorem kind_of_mem_fieldNames {owner : String} {m : Member} {e : Element}
    (he : e ∈ m.fieldNames owner) : e.kind = .field := by
  simp only [fieldNames, List.mem_cons, List.not_mem_nil, or_false] at he
  rcases he with rfl | rfl <;> rfl

theorem kind_of_mem_methodNames {owner : String} {m : Member} {e : Element}
    (he : e ∈ m.methodNames owner) : e.kind = .method := by
  obtain rfl := List.mem_singleton.mp he
  rfl

theorem isMember_of_mem_methodNames {owner : String} {m : Member} {e : Element}
    (he : e ∈ m.methodNames owner) : e.isMember = true := by
  obtain rfl := List.mem_singleton.mp he
  rfl

/-- No element names a field and a method. -/
theorem not_mem_fieldNames_of_mem_methodNames {owner : String} {m m' : Member} {e : Element}
    (he : e ∈ m.methodNames owner) : e ∉ m'.fieldNames owner := by
  obtain rfl := List.mem_singleton.mp he
  simp [fieldNames]

theorem owner_of_mem_methodNames {owner : String} {m : Member} {e : Element}
    (he : e ∈ m.methodNames owner) : e.owner = owner := by
  obtain rfl := List.mem_singleton.mp he
  rfl

theorem described_mem_fieldNames {owner : String} {m other : Member} :
    Element.field owner m.name (some m.descriptor) ∈ other.fieldNames owner ↔
      other.signature = m.signature := by
  simp [fieldNames, signature, eq_comm]

theorem byName_mem_fieldNames {owner : String} {m other : Member} :
    Element.field owner m.name none ∈ other.fieldNames owner ↔ other.name = m.name := by
  simp [fieldNames, eq_comm]

theorem described_mem_methodNames {owner : String} {m other : Member} :
    Element.method owner m.name m.descriptor ∈ other.methodNames owner ↔
      other.signature = m.signature := by
  simp [methodNames, signature, eq_comm]

theorem fieldNames_congr (owner : String) {m other : Member}
    (h : other.signature = m.signature) : other.fieldNames owner = m.fieldNames owner := by
  obtain ⟨hname, hdescriptor⟩ := Prod.mk.inj h
  unfold fieldNames
  rw [hname, hdescriptor]

theorem methodNames_congr (owner : String) {m other : Member}
    (h : other.signature = m.signature) : other.methodNames owner = m.methodNames owner := by
  obtain ⟨hname, hdescriptor⟩ := Prod.mk.inj h
  unfold methodNames
  rw [hname, hdescriptor]

end Member

namespace ClassDecl

def access? (decl : ClassDecl) : Place → Option Flags
  | .classItself => some decl.access
  | .field i => decl.fields[i]?.map Member.access
  | .method i => decl.methods[i]?.map Member.access

/-- The elements by which a rule can name what stands at a place. -/
def namesAt (decl : ClassDecl) : Place → List Element
  | .classItself => [.classItself decl.name]
  | .field i => decl.fields[i]?.toList.flatMap (Member.fieldNames decl.name)
  | .method i => decl.methods[i]?.toList.flatMap (Member.methodNames decl.name)

def Declares (decl : ClassDecl) : Element → Prop
  | .classItself name => decl.name = name
  | .field owner name (some descriptor) =>
    decl.name = owner ∧ ∃ m ∈ decl.fields, m.name = name ∧ m.descriptor = descriptor
  | .field owner name none => decl.name = owner ∧ ∃ m ∈ decl.fields, m.name = name
  | .method owner name descriptor =>
    decl.name = owner ∧ ∃ m ∈ decl.methods, m.name = name ∧ m.descriptor = descriptor

/-- Whether nothing of the same signature is declared before a place. -/
def IsFirst (decl : ClassDecl) : Place → Prop
  | .classItself => True
  | .field i => ∀ m, decl.fields[i]? = some m →
      ∀ earlier ∈ decl.fields.take i, earlier.signature ≠ m.signature
  | .method i => ∀ m, decl.methods[i]? = some m →
      ∀ earlier ∈ decl.methods.take i, earlier.signature ≠ m.signature

/-- Whether a rule for an element is about a place: the class itself, the first member declared
with the name and descriptor, or the one field of a name that is given without descriptor. -/
def Target (decl : ClassDecl) : Element → Place → Prop
  | .classItself name, .classItself => decl.name = name
  | .field owner name (some descriptor), .field i =>
    decl.name = owner ∧ ∃ m, FirstAt (·.signature = (name, descriptor)) decl.fields i m
  | .field owner name none, .field i =>
    decl.name = owner ∧ ∃ m, decl.fields[i]? = some m ∧ m.name = name ∧
      ∀ (j : Nat) (other : Member), decl.fields[j]? = some other → other.name = name → j = i
  | .method owner name descriptor, .method i =>
    decl.name = owner ∧ ∃ m, FirstAt (·.signature = (name, descriptor)) decl.methods i m
  | _, _ => False

/-- Whether two classes differ at most in their access words. -/
def SameShape (a b : ClassDecl) : Prop :=
  a.name = b.name ∧ a.fields.map Member.signature = b.fields.map Member.signature ∧
    a.methods.map Member.signature = b.methods.map Member.signature

theorem SameShape.refl (decl : ClassDecl) : decl.SameShape decl := ⟨rfl, rfl, rfl⟩

theorem mem_namesAt_field {decl : ClassDecl} {i : Nat} {e : Element} :
    e ∈ decl.namesAt (.field i) ↔
      ∃ m, decl.fields[i]? = some m ∧ e ∈ m.fieldNames decl.name := by
  simp [namesAt, List.mem_flatMap]

theorem mem_namesAt_method {decl : ClassDecl} {i : Nat} {e : Element} :
    e ∈ decl.namesAt (.method i) ↔
      ∃ m, decl.methods[i]? = some m ∧ e ∈ m.methodNames decl.name := by
  simp [namesAt, List.mem_flatMap]

theorem owner_of_mem_namesAt {decl : ClassDecl} {place : Place} {e : Element}
    (he : e ∈ decl.namesAt place) : e.owner = decl.name := by
  cases place with
  | classItself =>
      obtain rfl := List.mem_singleton.mp he
      rfl
  | field i =>
      obtain ⟨m, _, hm⟩ := mem_namesAt_field.mp he
      exact Member.owner_of_mem_fieldNames hm
  | method i =>
      obtain ⟨m, _, hm⟩ := mem_namesAt_method.mp he
      exact Member.owner_of_mem_methodNames hm

theorem Target.mem_namesAt {decl : ClassDecl} {e : Element} {place : Place}
    (h : decl.Target e place) : e ∈ decl.namesAt place := by
  unfold Target at h
  split at h
  · subst h
    exact List.mem_singleton.mpr rfl
  · obtain ⟨rfl, m, hm, hsignature, _⟩ := h
    obtain ⟨rfl, rfl⟩ := Prod.mk.inj hsignature
    exact mem_namesAt_field.mpr ⟨m, hm, by simp [Member.fieldNames]⟩
  · obtain ⟨rfl, m, hm, rfl, _⟩ := h
    exact mem_namesAt_field.mpr ⟨m, hm, by simp [Member.fieldNames]⟩
  · obtain ⟨rfl, m, hm, hsignature, _⟩ := h
    obtain ⟨rfl, rfl⟩ := Prod.mk.inj hsignature
    exact mem_namesAt_method.mpr ⟨m, hm, by simp [Member.methodNames]⟩
  · exact h.elim

/-- The first member of a signature has none of its signature before it. -/
theorem signature_ne_of_firstAt {members : List Member} {i : Nat} {m first : Member}
    {signature : String × String} (h : FirstAt (·.signature = signature) members i first)
    (hm : members[i]? = some m) : ∀ earlier ∈ members.take i, earlier.signature ≠ m.signature := by
  obtain rfl := Option.some.inj (h.getElem?_eq.symm.trans hm)
  rw [h.holds]
  exact h.not_before

theorem Target.isFirst {decl : ClassDecl} {e : Element} {place : Place}
    (h : decl.Target e place) : decl.IsFirst place := by
  unfold Target at h
  split at h
  · trivial
  · obtain ⟨_, m, hfirst⟩ := h
    intro m' hm'
    exact signature_ne_of_firstAt hfirst hm'
  · next i =>
    obtain ⟨_, m, hm, hname, hunique⟩ := h
    intro m' hm' earlier hearlier hsame
    obtain rfl := Option.some.inj (hm.symm.trans hm')
    obtain ⟨j, hj, rfl⟩ := List.mem_take_iff_getElem.mp hearlier
    have hji : j = i :=
      hunique j _ (List.getElem?_eq_getElem _) ((congrArg Prod.fst hsame).trans hname)
    omega
  · obtain ⟨_, m, hfirst⟩ := h
    intro m' hm'
    exact signature_ne_of_firstAt hfirst hm'
  · exact h.elim

/-- A class declares exactly what some place of it can be named by. -/
theorem declares_iff_exists_place {decl : ClassDecl} {e : Element} :
    decl.Declares e ↔ ∃ place, e ∈ decl.namesAt place := by
  constructor
  · intro h
    unfold Declares at h
    split at h
    · subst h
      exact ⟨.classItself, List.mem_singleton.mpr rfl⟩
    · obtain ⟨rfl, m, hm, rfl, rfl⟩ := h
      obtain ⟨i, hi⟩ := List.mem_iff_getElem?.mp hm
      exact ⟨.field i, mem_namesAt_field.mpr ⟨m, hi, by simp [Member.fieldNames]⟩⟩
    · obtain ⟨rfl, m, hm, rfl⟩ := h
      obtain ⟨i, hi⟩ := List.mem_iff_getElem?.mp hm
      exact ⟨.field i, mem_namesAt_field.mpr ⟨m, hi, by simp [Member.fieldNames]⟩⟩
    · obtain ⟨rfl, m, hm, rfl, rfl⟩ := h
      obtain ⟨i, hi⟩ := List.mem_iff_getElem?.mp hm
      exact ⟨.method i, mem_namesAt_method.mpr ⟨m, hi, by simp [Member.methodNames]⟩⟩
  · rintro ⟨place, he⟩
    cases place with
    | classItself =>
        obtain rfl := List.mem_singleton.mp he
        exact rfl
    | field i =>
        obtain ⟨m, hm, he⟩ := mem_namesAt_field.mp he
        have hmem : m ∈ decl.fields := List.mem_of_getElem? hm
        simp only [Member.fieldNames, List.mem_cons, List.not_mem_nil, or_false] at he
        rcases he with rfl | rfl
        · exact ⟨rfl, m, hmem, rfl, rfl⟩
        · exact ⟨rfl, m, hmem, rfl⟩
    | method i =>
        obtain ⟨m, hm, he⟩ := mem_namesAt_method.mp he
        obtain rfl := List.mem_singleton.mp he
        exact ⟨rfl, m, List.mem_of_getElem? hm, rfl, rfl⟩

theorem Target.declares {decl : ClassDecl} {e : Element} {place : Place}
    (h : decl.Target e place) : decl.Declares e :=
  declares_iff_exists_place.mpr ⟨place, h.mem_namesAt⟩

end ClassDecl

end AccessWidening
